/-
# NgCore.Types.Contract — contract slots, their context and the reserved keys

`ngtypes/contract.go`, `ngtypes/contract_context.go`, and the ledgers the protocol keeps INSIDE a
contract's context under reserved keys: the active flag, the dependency list and reference count
(`ngstate/deps.go`), and the locked storage deposit (`ngstate/rent.go`).

A context is a bucket: the source keeps a map next to its canonically sorted keys and values, and the
sorted lists are exactly what a bucket enumerates. Contexts are never nil here: every slot that is read
has been decoded from its stored form.
-/
import NgCore.Types.Tx

namespace NgCore

open Lib.Rlp (Item encode beBytes beVal)

/-! ## §1 — contexts -/

/-- **`ContractContext`** — the persistent key-value storage of a contract. -/
abbrev ContractContext := Lib.Bucket Bytes Bytes

namespace ContractContext

/-- The value of a key, empty when absent. -/
def get (ctx : ContractContext) (key : Bytes) : Bytes := (ctx[key]?).getD []

def has (ctx : ContractContext) (key : Bytes) : Bool := (ctx[key]?).isSome

/-- The wire item: sorted keys and their values. -/
def item (ctx : ContractContext) : Item :=
  .list [.list (ctx.toList.map fun e => .str e.1), .list (ctx.toList.map fun e => .str e.2)]

@[simp] theorem get_insert (ctx : ContractContext) (k a v : Bytes) :
    get (ctx.insert k v) a = if k = a then v else get ctx a := by
  unfold get
  rw [Lib.Bucket.get_insert]
  split <;> rfl

@[simp] theorem get_erase (ctx : ContractContext) (k a : Bytes) :
    get (ctx.erase k) a = if k = a then [] else get ctx a := by
  unfold get
  rw [Lib.Bucket.get_erase]
  split <;> rfl

end ContractContext

/-- The keys the protocol keeps its own ledgers under: `_active`, `_deps`, `_refs`, `_rent`. -/
def contextKeyActive : Bytes := [0x5f, 0x61, 0x63, 0x74, 0x69, 0x76, 0x65]
def contextKeyDeps : Bytes := [0x5f, 0x64, 0x65, 0x70, 0x73]
def contextKeyRefs : Bytes := [0x5f, 0x72, 0x65, 0x66, 0x73]
def contextKeyRent : Bytes := [0x5f, 0x72, 0x65, 0x6e, 0x74]

/-- **`isReservedKey`** — underscore keys belong to the protocol, unless they are as long as an
address. -/
def isReservedKey (key : Bytes) : Bool := key.head? = some 0x5f ∧ key.length ≠ addressSize

/-! ## §2 — contracts -/

/-- **`Contract`** — a contract slot with its code resolved. -/
structure Contract where
  owner : Address
  source : Bytes
  context : ContractContext

namespace Contract

/-- **`newContract`** — an empty slot. -/
def newContract (owner : Address) : Contract := ⟨owner, [], ∅⟩

def isActive (x : Contract) : Bool := x.context.get contextKeyActive ≠ []

/-- `SetActive(true)`. -/
def setActive (x : Contract) : Contract := { x with context := x.context.insert contextKeyActive [1] }

/-- The slot can run: active, with code. -/
def isLive (x : Contract) : Bool := x.isActive ∧ x.source ≠ []

/-! ### the dependency ledger -/

/-- **`getContractDeps`** — the recorded dependencies; `decode` is the RLP decoder of a list of byte
strings. -/
def getContractDeps (decode : Bytes → Option (List Bytes)) (acc : Contract) :
    Except Err (List Address) :=
  let raw := acc.context.get contextKeyDeps
  if raw = [] then .ok []
  else match decode raw with
    | none => .error .depInvalidImport
    | some deps => deps.mapM fun d => do
      ensure (d.length = addressSize) .depInvalidImport
      return copy32 d

def setContractDeps (acc : Contract) (deps : List Address) : Contract :=
  if deps = [] then { acc with context := acc.context.erase contextKeyDeps }
  else { acc with
    context := acc.context.insert contextKeyDeps (encode (.list (deps.map fun d => .str d.val))) }

/-- **`getRefCount`** — how many contracts depend on this one. -/
def getRefCount (acc : Contract) : Nat :=
  let raw := acc.context.get contextKeyRefs
  if raw.length ≠ 8 then 0 else beVal raw.reverse

def setRefCount (acc : Contract) (refs : Nat) : Contract :=
  if refs = 0 then { acc with context := acc.context.erase contextKeyRefs }
  else { acc with context := acc.context.insert contextKeyRefs (packUint64LE refs) }

end Contract

/-! ## §3 — the locked deposit -/

/-- **`lockedDeposit`** — what the contract has locked into the escrow; zero when never locked. -/
def lockedDeposit (ctx : ContractContext) : Nat := beVal (ctx.get contextKeyRent)

/-- **`setLockedDeposit`** — a zero total deletes the key. -/
def setLockedDeposit (ctx : ContractContext) (amount : Int) : ContractContext :=
  if amount ≤ 0 then ctx.erase contextKeyRent
  else ctx.insert contextKeyRent (beBytes amount.natAbs)

/-- **`depositFor`** — the bond owed for `bytes` stored bytes. -/
def depositFor (bytes : Nat) : Nat := depositPerByte * bytes

/-! ## §4 — writing to a context -/

/-- **`ContextWrite`** — one write of a contract run to a storage: an entry, a deletion, the deposit record. -/
inductive ContextWrite where
  | put (key value : Bytes)
  | del (key : Bytes)
  | rent (amount : Int)
  deriving DecidableEq

namespace ContextWrite

def apply : ContextWrite → ContractContext → ContractContext
  | .put key value, ctx => ctx.insert key value
  | .del key, ctx => ctx.erase key
  | .rent amount, ctx => setLockedDeposit ctx amount

/-- The entry is no reserved one. -/
def Plain : ContextWrite → Prop
  | .put key _ | .del key => isReservedKey key = false
  | .rent _ => True

end ContextWrite

/-- **`KeepsReserved old new`** — the reserved entries are the same, the deposit record apart. -/
def KeepsReserved (old new : ContractContext) : Prop :=
  ∀ key, isReservedKey key = true → key ≠ contextKeyRent → new[key]? = old[key]?

theorem KeepsReserved.refl (ctx : ContractContext) : KeepsReserved ctx ctx := fun _ _ _ => rfl

theorem KeepsReserved.trans {ctx ctx' ctx'' : ContractContext} (h : KeepsReserved ctx ctx')
    (h' : KeepsReserved ctx' ctx'') : KeepsReserved ctx ctx'' :=
  fun key hreserved hrent => (h' key hreserved hrent).trans (h key hreserved hrent)

theorem KeepsReserved.get {old new : ContractContext} (h : KeepsReserved old new) {key : Bytes}
    (hreserved : isReservedKey key = true) (hrent : key ≠ contextKeyRent) : new.get key = old.get key := by
  unfold ContractContext.get
  rw [h key hreserved hrent]

/-- A write that goes through no reserved key keeps them all, the deposit record apart. -/
theorem ContextWrite.keepsReserved {w : ContextWrite} (hw : w.Plain) (ctx : ContractContext) :
    KeepsReserved ctx (w.apply ctx) := by
  intro key hreserved hrent
  cases w with
  | put k value =>
    have hne : k ≠ key := by
      rintro rfl
      exact absurd hreserved (by rw [show isReservedKey k = false from hw]; decide)
    show (ctx.insert k value)[key]? = _
    rw [Lib.Bucket.get_insert, if_neg hne]
  | del k =>
    have hne : k ≠ key := by
      rintro rfl
      exact absurd hreserved (by rw [show isReservedKey k = false from hw]; decide)
    show (ctx.erase k)[key]? = _
    rw [Lib.Bucket.get_erase, if_neg hne]
  | rent amount =>
    show (setLockedDeposit ctx amount)[key]? = _
    unfold setLockedDeposit
    split
    · rw [Lib.Bucket.get_erase, if_neg hrent.symm]
    · rw [Lib.Bucket.get_insert, if_neg hrent.symm]

/-! ## §5 — stored slots -/

/-- **`StoredContract`** — the on-disk slot: the code is referenced by its hash. -/
structure StoredContract where
  owner : Address
  codeHash : Bytes32
  context : ContractContext

namespace StoredContract

def item (x : StoredContract) : Item :=
  .list [.str x.owner.val, .str x.codeHash.val, x.context.item]

/-- The stored blob, which the state commitment hashes. -/
def raw (x : StoredContract) : Bytes := encode x.item

theorem raw_ne_nil (x : StoredContract) : x.raw ≠ [] := Lib.Rlp.encode_ne_nil _

end StoredContract
end NgCore
