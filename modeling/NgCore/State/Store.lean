/-
# NgCore.State.Store — the state database and its write helpers

`ngstate/state_helper.go`, `ngstate/changeset.go`, `ngstate/commit.go`, `ngstate/statetrie.go`,
`ngstate/beacon.go`: the buckets of the consensus state, the one function per kind of write, and the
state commitment each of them keeps in step.

Balances, contract slots, registered keys and the beacon are VERSIONED buckets (`Lib.Versioned`): on an
archive node (`rec = some height`) a write first records the pre-image. Receipts, traces and log lines
are local convenience data that nothing below reads; they are not modelled.

Two history variables stand beside the buckets and are read by NO operation: `applied`, the blocks whose
effects the state holds, and `log`, a trail of `Note`s (leaves touched, amounts written, code stored, acts
of contract code, refund shortfalls).
-/
import NgCore.Types.Block
import NgCore.Types.Contract
import NgCore.Lib.Versioned

namespace NgCore

open Lib (Bucket Versioned)
open Lib.Rlp (beBytes beVal)

/-! ## §1 — leaves of the state commitment -/

/-- **`LeafKey`** — a leaf of the state commitment. -/
inductive LeafKey where
  | balance (a : Address)
  | key (a : Address)
  | contract (a : Address)
  | commit (height : Nat) (hash : Bytes32)
  | beacon
  deriving DecidableEq

/-- The fixed raw key of the single beacon leaf: `randao`. -/
def beaconStateKey : Bytes := [0x72, 0x61, 0x6e, 0x64, 0x61, 0x6f]

namespace LeafKey

def domain : LeafKey → Statetrie.Domain
  | .balance _ => .balance
  | .key _ => .key
  | .contract _ => .contract
  | .commit _ _ => .commit
  | .beacon => .beacon

/-- The raw bucket key. -/
def raw : LeafKey → Bytes
  | .balance a | .key a | .contract a => a.val
  | .commit height hash => packUint64LE height ++ hash.val
  | .beacon => beaconStateKey

/-- Where the leaf stands in the tree. -/
def path [Crypto] (k : LeafKey) : Bytes32 := Statetrie.leafPath k.domain k.raw

end LeafKey

/-! ## §2 — the state -/

/-- **`RunNote`** — what a contract run, or a refund, leaves on the trail. -/
inductive RunNote where
  /-- Code of the contract `owner` made a state-changing host call that acted on `on`. -/
  | act (owner on : Address)
  /-- A deposit refund found the escrow short. -/
  | underflow
  /-- While `tx` ran, the export `entry` of the contract `owner` was entered with `frames` executing. -/
  | enter (tx : FullTx) (owner : Address) (entry : String) (frames : List Address)
  /-- A write to the storage of `a`. -/
  | store (a : Address) (w : ContextWrite)
  /-- Value moved between two balances. -/
  | move (fromAddr toAddr : Address) (value : Int)
  deriving DecidableEq

/-- **`Note`** — one entry of the trail. -/
inductive Note where
  /-- A leaf of the commitment was written or deleted. -/
  | leaf (k : LeafKey)
  /-- A balance was set to this (signed) amount. -/
  | amount (a : Address) (v : Int)
  /-- This code was handed to the code registry. -/
  | code (source : Bytes)
  /-- A note of a contract run. -/
  | run (n : RunNote)
  deriving DecidableEq

/-- **`State`** — the consensus buckets. -/
structure State where
  bal : Versioned Address Nat
  contract : Versioned Address StoredContract
  /-- Code hash ↦ reference count and code. -/
  code : Bucket Bytes32 (Nat × Bytes)
  /-- Address ↦ scheme ‖ public key. -/
  key : Versioned Address Bytes
  /-- Recording height and blind hash ↦ committer. -/
  commit : Bucket (Nat × Bytes32) Address
  /-- Reveal height and blind hash ↦ recording height and committer. -/
  spent : Bucket (Nat × Bytes32) (Nat × Address)
  beacon : Versioned Unit Bytes
  trie : Statetrie.NodeStore
  applied : List FullBlock
  log : List Note

/-- A database with empty buckets. -/
def State.empty : State :=
  ⟨.empty, .empty, ∅, .empty, ∅, ∅, .empty, ∅, [], []⟩

/-- A changeset height: `none` is the nil recorder of a non-archive node. -/
abbrev Recorder := Option Nat

/-! ## §3 — reading -/

/-- **`View`** — what running code can read of the state, code resolved. -/
structure View where
  bal : Address → Nat
  contract : Address → Option Contract
  key : Address → Option Bytes
  commit : Nat → Bytes32 → Option Address
  beacon : Option Bytes

namespace State

/-- **`loadCode`** — the module a code hash refers to, empty when unknown. -/
def loadCode (s : State) (codeHash : Bytes32) : Bytes := (s.code[codeHash]?).elim [] Prod.snd

/-- **`decodeStoredContract`** — resolve the code of a slot. -/
def decodeStoredContract (s : State) (sc : StoredContract) : Contract :=
  ⟨sc.owner, s.loadCode sc.codeHash, sc.context⟩

/-- **`getContract`** — the slot of an address, with its code. -/
def getContract (s : State) (a : Address) : Option Contract :=
  (s.contract.cur[a]?).map s.decodeStoredContract

def getBalance (s : State) (a : Address) : Nat := (s.bal.cur[a]?).getD 0

/-- The view of a state. -/
def view (s : State) : View where
  bal := s.getBalance
  contract := s.getContract
  key a := s.key.cur[a]?
  commit h hash := s.commit[(h, hash)]?
  beacon := s.beacon.cur[()]?

/-! ## §4 — the write helpers -/

section Writes

variable [Crypto]

/-- Set one leaf of the commitment. -/
def setLeaf (k : LeafKey) (vh : Bytes32) (s : State) : State :=
  { s with trie := Statetrie.update s.trie k.path vh, log := .leaf k :: s.log }

/-- **`trieSetLeaf`** — an empty value deletes the leaf. -/
def trieSetLeaf (k : LeafKey) (value : Bytes) (s : State) : State :=
  s.setLeaf k (if value = [] then zero32 else Statetrie.valueHash value)

/-- **`setBalance`** — the bucket holds the magnitude; a zero balance is an absent leaf. -/
def setBalance (rec : Recorder) (a : Address) (v : Int) (s : State) : State :=
  trieSetLeaf (.balance a) (if v = 0 then [] else beBytes v.natAbs)
    { s with bal := s.bal.write true rec a (some v.natAbs), log := .amount a v :: s.log }

/-- **`retainCode`** — one more reference; a new hash is stored once. -/
def retainCode (codeHash : Bytes32) (source : Bytes) (s : State) : State :=
  match s.code[codeHash]? with
  | none => { s with code := s.code.insert codeHash (1, source) }
  | some (refs, code) => { s with code := s.code.insert codeHash (refs + 1, code) }

/-- **`releaseCode`** — one reference less; the last one deletes the module unless it is kept for
history. -/
def releaseCode (codeHash : Bytes32) (keepForHistory : Bool) (s : State) : State :=
  match s.code[codeHash]? with
  | none => s
  | some (refs, code) =>
    if refs ≤ 1 ∧ keepForHistory = false then { s with code := s.code.erase codeHash }
    else { s with code := s.code.insert codeHash (refs - 1, code) }

/-- The code registry part of `setContract`: unchanged code keeps its reference count. -/
def reconcileCode (rec : Recorder) (account : Contract) (s : State) : State :=
  let newHash := hash256 account.source
  match s.contract.cur[account.owner]? with
  | none => s.retainCode newHash account.source
  | some old =>
    if old.codeHash = newHash then s
    else (s.releaseCode old.codeHash rec.isSome).retainCode newHash account.source

/-- **`setContract`** — store the slot under its owner. -/
def setContract (rec : Recorder) (account : Contract) (s : State) : State :=
  let sc : StoredContract := ⟨account.owner, hash256 account.source, account.context⟩
  let s := s.reconcileCode rec account
  trieSetLeaf (.contract account.owner) sc.raw
    { s with
      contract := s.contract.write true rec account.owner (some sc)
      log := .code account.source :: s.log }

/-- The code registry part of `delContract`. -/
def releaseSlot (rec : Recorder) (a : Address) (s : State) : State :=
  match s.contract.cur[a]? with
  | none => s
  | some old => s.releaseCode old.codeHash rec.isSome

/-- **`delContract`** — drop the slot and its code reference. -/
def delContract (rec : Recorder) (a : Address) (s : State) : State :=
  let s := s.releaseSlot rec a
  trieSetLeaf (.contract a) [] { s with contract := s.contract.write true rec a none }

/-- **`registerPubKey`** — the store part: the first reveal wins, and its pre-image is recorded as
absent. The registry has no history index. -/
def registerPubKey (rec : Recorder) (a : Address) (entry : Bytes) (s : State) : State :=
  if (s.key.cur[a]?).isSome then s
  else
    let key := s.key.record false rec a none
    trieSetLeaf (.key a) entry { s with key := { key with cur := key.cur.insert a entry } }

/-- **`setBeacon`** — write the seed. -/
def setBeacon (rec : Recorder) (seed : Bytes) (s : State) : State :=
  trieSetLeaf .beacon seed { s with beacon := s.beacon.write false rec () (some seed) }

/-! ### the commit store -/

/-- **`putCommit`** — record a commitment. -/
def putCommit (height : Nat) (hash : Bytes32) (fromAddr : Address) (s : State) : State :=
  trieSetLeaf (.commit height hash) fromAddr.val
    { s with commit := s.commit.insert (height, hash) fromAddr }

/-- **`consumeCommit`** — a reveal spends a commitment. -/
def consumeCommit (height : Nat) (hash : Bytes32) (s : State) : State :=
  trieSetLeaf (.commit height hash) [] { s with commit := s.commit.erase (height, hash) }

/-- **`journalConsumed`** — remember what a reveal spent. -/
def journalConsumed (revealHeight recordHeight : Nat) (hash : Bytes32) (fromAddr : Address) (s : State) :
    State :=
  { s with spent := s.spent.insert (revealHeight, hash) (recordHeight, fromAddr) }

/-- Drop every pending commitment whose recording height satisfies `p`, with its leaf. -/
def dropCommits (p : Nat → Bool) (s : State) : State :=
  (s.commit.toList.filter fun e => p e.1.1).foldl (fun s e => s.consumeCommit e.1.1 e.1.2) s

/-- **`deleteCommitsAtHeight`** — the commitments an unwound block recorded. -/
def deleteCommitsAtHeight (h : Nat) (s : State) : State := s.dropCommits fun h' => h' = h

/-- **`pruneCommits`** — drop what was recorded, and what was spent, below the window. -/
def pruneCommits (tip : Nat) (s : State) : State :=
  if tip ≤ commitWindow then s
  else
    let cutoff := tip - commitWindow
    let s := s.dropCommits fun h => h < cutoff
    let stale := s.spent.toList.filter fun e => e.1.1 < cutoff
    { s with spent := stale.foldl (fun b e => b.erase e.1) s.spent }

/-- **`restoreConsumedAtHeight`** — put back what the reveals journaled at `h` spent. -/
def restoreConsumedAtHeight (h : Nat) (s : State) : State :=
  (s.spent.toList.filter fun e => e.1.1 = h).foldl
    (fun s e =>
      let s := s.putCommit e.2.1 e.1.2 e.2.2
      { s with spent := s.spent.erase (h, e.1.2) }) s

theorem getBalance_setBalance (rec : Recorder) (s : State) (a : Address) (v : Int) (b : Address) :
    (s.setBalance rec a v).getBalance b = if a = b then v.natAbs else s.getBalance b := by
  show ((s.bal.write true rec a (some v.natAbs)).cur[b]?).getD 0 = _
  rw [Lib.Versioned.cur_write]
  split <;> rfl

theorem commit_putCommit (s : State) (height : Nat) (hash : Bytes32) (a : Address) (k : Nat × Bytes32) :
    (s.putCommit height hash a).commit[k]? = if (height, hash) = k then some a else s.commit[k]? :=
  Lib.Bucket.get_insert s.commit (height, hash) k a

end Writes
end State
end NgCore
