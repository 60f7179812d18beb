/-
# NgCore.State.Ledger — the dependency ledger

Contracts import each other by address. The chain records what a contract imports under `_deps` of the dependent
and counts the dependents under `_refs` of the dependee (`ngstate/deps.go`), so that a contract others need cannot
be destroyed. Both entries are reserved: a contract run cannot write them (`Journal.Kept`), so they move only
where a deploy moves them, in steps — the references of the old code are let go, those of the new code taken, the
slot written last (`Lib.RefCount.Settled`). The slot an upgrade writes back was loaded BEFORE its hook ran; its
ledger entries are still those of the state.

What holds of a run is proved for any rule `p`, `Q` on the code that is deployed, so that it can be used again for
what the code links to.

DELIVERABLE: `State.Passes.refs_exact` — the counts are exact at every transaction boundary, no dependency is
missing, and no transaction removes a contract that others depend on.
-/
import NgCore.Lib.RefCount
import NgCore.State.Hooks
import NgCore.State.Returns
import NgCore.State.Triples

namespace NgCore

open Lib (Bucket Txn Versioned)
open Lib.Rlp (beVal encode)
open Lib.RefCount (Exact Settled)
open StateTxn (Ensures ensures_require_bind ensures_when)
open Lib.Txn (ensures_pure ensures_fail ensures_tell ensures_bind ensures_look_bind ensures_ofExcept_bind ensures_forM
  ensures_of_forall Writes.ensures)

/-! ## §1 — the entries of one slot -/

theorem beVal_digits (n w : Nat) :
    beVal ((List.range w).map fun i => UInt8.ofNat (n / 256 ^ i % 256)).reverse = n % 256 ^ w := by
  induction w with
  | zero =>
    rw [Nat.pow_zero, Nat.mod_one]
    rfl
  | succ w ih =>
    have hbyte : (UInt8.ofNat (n / 256 ^ w % 256)).toNat = n / 256 ^ w % 256 := by
      rw [UInt8.toNat_ofNat']
      exact Nat.mod_eq_of_lt (Nat.mod_lt _ (by decide))
    rw [List.range_succ, List.map_append, List.reverse_append, List.map_singleton, List.reverse_singleton,
      List.singleton_append, Lib.Rlp.beVal_cons, ih, hbyte, List.length_reverse, List.length_map, List.length_range,
      Nat.pow_succ, Nat.mod_mul]
    ring

namespace Contract

theorem getRefCount_setRefCount (acc : Contract) {n : Nat} (h : n < 2 ^ 64) :
    (acc.setRefCount n).getRefCount = n := by
  unfold setRefCount getRefCount
  by_cases hzero : n = 0
  · rw [if_pos hzero]
    simp [hzero]
  · have hlen : (packUint64LE n).length = 8 := by simp [packUint64LE]
    have hval : beVal (packUint64LE n).reverse = n := (beVal_digits n 8).trans (Nat.mod_eq_of_lt h)
    rw [if_neg hzero]
    simp [hlen, hval]

theorem get_setRefCount (acc : Contract) (n : Nat) {key : Bytes} (hkey : contextKeyRefs ≠ key) :
    (acc.setRefCount n).context.get key = acc.context.get key := by
  unfold setRefCount
  split
  · show ContractContext.get (acc.context.erase contextKeyRefs) key = _
    rw [ContractContext.get_erase, if_neg hkey]
  · show ContractContext.get (acc.context.insert contextKeyRefs _) key = _
    rw [ContractContext.get_insert, if_neg hkey]

theorem owner_setRefCount (acc : Contract) (n : Nat) : (acc.setRefCount n).owner = acc.owner := by
  unfold setRefCount
  split <;> rfl

theorem get_setContractDeps (acc : Contract) (deps : List Address) {key : Bytes} (hkey : contextKeyDeps ≠ key) :
    (acc.setContractDeps deps).context.get key = acc.context.get key := by
  unfold setContractDeps
  split
  · show ContractContext.get (acc.context.erase contextKeyDeps) key = _
    rw [ContractContext.get_erase, if_neg hkey]
  · show ContractContext.get (acc.context.insert contextKeyDeps _) key = _
    rw [ContractContext.get_insert, if_neg hkey]

theorem owner_setContractDeps (acc : Contract) (deps : List Address) :
    (acc.setContractDeps deps).owner = acc.owner := by
  unfold setContractDeps
  split <;> rfl

theorem source_setContractDeps (acc : Contract) (deps : List Address) :
    (acc.setContractDeps deps).source = acc.source := by
  unfold setContractDeps
  split <;> rfl

end Contract

section Ledger

variable [Engine]

/-- The decoder reads back the lists of addresses the encoder writes. -/
def DecodesDeps : Prop :=
  ∀ deps : List Address, deps.length ≤ maxDepsPerContract →
    Engine.decodeByteStrings (encode (.list (deps.map fun d => .str d.val))) = some (deps.map Subtype.val)

theorem Contract.getContractDeps_setContractDeps (hdecode : DecodesDeps) (acc : Contract) {deps : List Address}
    (hfew : deps.length ≤ maxDepsPerContract) :
    (acc.setContractDeps deps).getContractDeps Engine.decodeByteStrings = .ok deps := by
  unfold getContractDeps setContractDeps
  by_cases hnil : deps = []
  · subst hnil
    simp
  · have hraw : encode (.list (deps.map fun d => .str d.val)) ≠ [] := Lib.Rlp.encode_ne_nil _
    have hread : ∀ l : List Address, (l.map Subtype.val).mapM (fun d : Bytes => do
        ensure (d.length = addressSize) Err.depInvalidImport
        return copy32 d) = .ok l := by
      intro l
      induction l with
      | nil => rfl
      | cons a l ih =>
        rw [List.map_cons, List.mapM_cons, ih, copy32_val]
        simp [ensure, show a.val.length = addressSize from a.property]
    rw [if_neg hnil]
    simp only [ContractContext.get_insert, if_true, if_neg hraw, hdecode deps hfew]
    exact hread deps

namespace StoredContract

/-- The slot without its code. -/
def bare (sc : StoredContract) : Contract := ⟨sc.owner, [], sc.context⟩

/-- The recorded dependencies, none when they do not decode. -/
def deps (sc : StoredContract) : List Address :=
  match sc.bare.getContractDeps Engine.decodeByteStrings with
  | .ok deps => deps
  | .error _ => []

omit [Engine] in
/-- The recorded number of dependents. -/
def refCount (sc : StoredContract) : Nat := sc.bare.getRefCount

/-- **`SameLedger sc sc'`** — the same owner, code and reserved entries, the deposit record apart. -/
structure SameLedger (sc sc' : StoredContract) : Prop where
  owner : sc'.owner = sc.owner
  codeHash : sc'.codeHash = sc.codeHash
  reserved : KeepsReserved sc.context sc'.context

omit [Engine] in
theorem SameLedger.refl (sc : StoredContract) : sc.SameLedger sc := ⟨rfl, rfl, .refl _⟩

omit [Engine] in
theorem SameLedger.trans {sc sc' sc'' : StoredContract} (h : sc.SameLedger sc') (h' : sc'.SameLedger sc'') :
    sc.SameLedger sc'' :=
  ⟨h'.owner.trans h.owner, h'.codeHash.trans h.codeHash, h.reserved.trans h'.reserved⟩

omit [Engine] in
theorem SameLedger.symm {sc sc' : StoredContract} (h : sc.SameLedger sc') : sc'.SameLedger sc :=
  ⟨h.owner.symm, h.codeHash.symm, fun key hkey hrent => (h.reserved key hkey hrent).symm⟩

/-- **`Sound Q a sc`** — the slot of `a` is active and its dependency list is in order; `Q` is the rule for what
code may depend on. -/
structure Sound (Q : Address → Bytes32 → List Address → Prop) (a : Address) (sc : StoredContract) : Prop where
  active : sc.bare.isActive = true
  decodes : sc.bare.getContractDeps Engine.decodeByteStrings = .ok sc.deps
  nodup : sc.deps.Nodup
  other : a ∉ sc.deps
  allowed : Q a sc.codeHash sc.deps

/-- Slots with the same dependency entry have the same dependencies. -/
theorem getContractDeps_congr {acc acc' : Contract}
    (h : acc'.context.get contextKeyDeps = acc.context.get contextKeyDeps) :
    acc'.getContractDeps Engine.decodeByteStrings = acc.getContractDeps Engine.decodeByteStrings := by
  unfold Contract.getContractDeps
  rw [h]

theorem deps_eq {sc : StoredContract} {deps : List Address}
    (h : sc.bare.getContractDeps Engine.decodeByteStrings = .ok deps) : sc.deps = deps := by
  unfold StoredContract.deps
  rw [h]

namespace SameLedger

variable {sc sc' : StoredContract}

theorem getContractDeps (h : sc.SameLedger sc') :
    sc'.bare.getContractDeps Engine.decodeByteStrings = sc.bare.getContractDeps Engine.decodeByteStrings :=
  getContractDeps_congr (h.reserved.get (by decide) (by decide))

theorem deps (h : sc.SameLedger sc') : sc'.deps = sc.deps := by
  unfold StoredContract.deps
  rw [h.getContractDeps]

omit [Engine] in
theorem refCount (h : sc.SameLedger sc') : sc'.refCount = sc.refCount := by
  unfold StoredContract.refCount Contract.getRefCount bare
  rw [h.reserved.get (by decide) (by decide)]

omit [Engine] in
theorem isActive (h : sc.SameLedger sc') : sc'.bare.isActive = sc.bare.isActive := by
  unfold Contract.isActive bare
  rw [h.reserved.get (by decide) (by decide)]

theorem sound (h : sc.SameLedger sc') {Q : Address → Bytes32 → List Address → Prop} {a : Address}
    (hs : sc.Sound Q a) : sc'.Sound Q a where
  active := h.isActive.trans hs.active
  decodes := by rw [h.getContractDeps, h.deps, hs.decodes]
  nodup := h.deps ▸ hs.nodup
  other := h.deps ▸ hs.other
  allowed := by
    rw [h.deps, h.codeHash]
    exact hs.allowed

end SameLedger
end StoredContract

/-! ## §2 — states with the same ledgers -/

namespace State

/-- **`SameLedgers s s'`** — the same code registry, and slots with the same ledgers. -/
structure SameLedgers (s s' : State) : Prop where
  code : s'.code = s.code
  slots : ∀ a : Address, Option.Rel StoredContract.SameLedger s.contract.cur[a]? s'.contract.cur[a]?

omit [Engine] in
theorem SameLedgers.refl (s : State) : s.SameLedgers s := by
  refine ⟨rfl, fun a => ?_⟩
  cases s.contract.cur[a]? with
  | none => exact .none
  | some sc => exact .some (.refl sc)

omit [Engine] in
theorem SameLedgers.trans {s s' s'' : State} (h : s.SameLedgers s') (h' : s'.SameLedgers s'') :
    s.SameLedgers s'' := by
  refine ⟨h'.code.trans h.code, fun a => ?_⟩
  have hrel := h.slots a
  have hrel' := h'.slots a
  generalize s.contract.cur[a]? = o at hrel
  generalize s'.contract.cur[a]? = o' at hrel hrel'
  generalize s''.contract.cur[a]? = o'' at hrel'
  cases hrel with
  | none =>
    cases hrel' with
    | none => exact .none
  | some hsame =>
    cases hrel' with
    | some hsame' => exact .some (hsame.trans hsame')

omit [Engine] in
theorem SameLedgers.of_slots {s t t' : State} (heq : t'.slots = t.slots) (h : s.SameLedgers t) :
    s.SameLedgers t' := by
  obtain ⟨hcontract, hcode⟩ := Prod.mk.inj heq
  exact ⟨hcode.trans h.code, by rw [hcontract]; exact h.slots⟩

omit [Engine] in
theorem SameLedgers.some {s t : State} (h : s.SameLedgers t) {a : Address} {sc : StoredContract}
    (hsc : s.contract.cur[a]? = some sc) : ∃ sc', t.contract.cur[a]? = some sc' ∧ sc.SameLedger sc' := by
  have hrel := h.slots a
  rw [hsc] at hrel
  cases hcur : t.contract.cur[a]? with
  | none =>
    rw [hcur] at hrel
    cases hrel
  | some sc' =>
    rw [hcur] at hrel
    cases hrel with
    | some hsame => exact ⟨sc', rfl, hsame⟩

/-! ## §3 — code that resolves -/

/-- **`Grounded cfg p s`** — slots stand under their owners, their modules are stored, and stored code satisfies
`p`. -/
structure Grounded (cfg : Config) (p : Bytes → Prop) (s : State) : Prop where
  sheltered : s.Sheltered cfg
  housed : s.Housed
  codes : s.Codes p

/-- The code of a slot: it hashes to what the slot says, and satisfies `p`. -/
theorem Grounded.loadCode {cfg : Config} {p : Bytes → Prop} {s : State} (h : s.Grounded cfg p) {a : Address}
    {sc : StoredContract} (hsc : s.contract.cur[a]? = some sc) :
    hash256 (s.loadCode sc.codeHash) = sc.codeHash ∧ p (s.loadCode sc.codeHash) := by
  have hstored : s.code[sc.codeHash]? ≠ none := by
    cases harchive : cfg.archive with
    | true => exact (h.sheltered.coded harchive).cur a sc hsc
    | false => exact (h.sheltered.counted harchive).stored hsc
  obtain ⟨e, he⟩ := Option.ne_none_iff_exists'.mp hstored
  have hload : s.loadCode sc.codeHash = e.2 := by
    unfold State.loadCode
    rw [he]
    rfl
  rw [hload]
  exact ⟨h.sheltered.genuine _ e he, h.codes _ e he⟩

omit [Engine] in
theorem view_contract_eq_some {s : State} {a : Address} {account : Contract} (h : s.view.contract a = some account) :
    ∃ sc, s.contract.cur[a]? = some sc ∧ account = ⟨sc.owner, s.loadCode sc.codeHash, sc.context⟩ := by
  obtain ⟨sc, hsc, heq⟩ := Option.map_eq_some_iff.mp h
  exact ⟨sc, hsc, heq.symm⟩

omit [Engine] in
theorem view_contract_of_cur {s : State} {a : Address} {sc : StoredContract} (h : s.contract.cur[a]? = some sc) :
    s.view.contract a = some ⟨sc.owner, s.loadCode sc.codeHash, sc.context⟩ := by
  show (s.contract.cur[a]?).map s.decodeStoredContract = _
  rw [h]
  rfl

theorem Grounded.allowed {cfg : Config} {p : Bytes → Prop} {s : State} (h : s.Grounded cfg p) :
    View.Allowed p s.view := by
  intro a account hacc
  obtain ⟨sc, hsc, rfl⟩ := view_contract_eq_some hacc
  exact ⟨(h.loadCode hsc).2, h.housed.cur a sc hsc⟩

theorem Grounded.step {cfg : Config} {height : Nat} {p : Bytes → Prop} {N : List RunNote → Prop} {w : Write}
    (hw : w.Permitted (cfg.recorder height) p N) {s : State} (h : s.Grounded cfg p) :
    (w.step s).Grounded cfg p :=
  ⟨h.sheltered.step hw, w.housed_step h.housed, w.codes_step hw h.codes⟩

theorem grounded_empty (cfg : Config) (p : Bytes → Prop) : State.empty.Grounded cfg p := by
  refine ⟨sheltered_empty cfg, housed_empty, ?_⟩
  intro hash e he
  simp [State.empty] at he

/-! ## §4 — the invariant -/

/-- What the ledgers rest on: code that resolves, sound slots, and no more than `n` of them. -/
structure Shelved (cfg : Config) (p : Bytes → Prop) (Q : Address → Bytes32 → List Address → Prop) (n : Nat)
    (s : State) : Prop extends Grounded cfg p s where
  sound : ∀ (a : Address) (sc : StoredContract), s.contract.cur[a]? = some sc → sc.Sound Q a
  few : s.contract.cur.size ≤ n

/-- **`Ledgered`** — the reference counts are exact. -/
structure Ledgered (cfg : Config) (p : Bytes → Prop) (Q : Address → Bytes32 → List Address → Prop) (n : Nat)
    (s : State) : Prop extends Shelved cfg p Q n s where
  exact : Exact StoredContract.deps StoredContract.refCount s.contract.cur

variable {cfg : Config} {p : Bytes → Prop} {Q : Address → Bytes32 → List Address → Prop} {n height : Nat}

theorem Shelved.isLive (hp : ∀ c, p c → c ≠ []) {s : State} (h : s.Shelved cfg p Q n) {a : Address}
    {account : Contract} (hacc : s.view.contract a = some account) : account.isLive = true := by
  obtain ⟨sc, hsc, rfl⟩ := view_contract_eq_some hacc
  have hactive : sc.bare.isActive = true := (h.sound a sc hsc).active
  have hsource : s.loadCode sc.codeHash ≠ [] := hp _ (h.loadCode hsc).2
  unfold Contract.isLive
  exact decide_eq_true ⟨hactive, hsource⟩

end State

namespace State

variable {cfg : Config} {p : Bytes → Prop} {Q : Address → Bytes32 → List Address → Prop} {n height : Nat}

theorem Shelved.aside {w : Write} (hw : w.Aside (cfg.recorder height)) {s : State} (h : s.Shelved cfg p Q n) :
    (w.step s).Shelved cfg p Q n := by
  have hcontract : (w.step s).contract = s.contract := congrArg Prod.fst (hw.slots s)
  refine ⟨h.toGrounded.step (hw.permitted p), ?_, ?_⟩
  · rw [hcontract]
    exact h.sound
  · rw [hcontract]
    exact h.few

theorem Ledgered.aside {w : Write} (hw : w.Aside (cfg.recorder height)) {s : State} (h : s.Ledgered cfg p Q n) :
    (w.step s).Ledgered cfg p Q n := by
  refine ⟨h.toShelved.aside hw, ?_⟩
  rw [show (w.step s).contract = s.contract from congrArg Prod.fst (hw.slots s)]
  exact h.exact

theorem Shelved.setContract {account : Contract} {s : State} (h : s.Shelved cfg p Q n) {m : Nat}
    (hsource : p account.source)
    (hsound : StoredContract.Sound Q account.owner ⟨account.owner, hash256 account.source, account.context⟩)
    (hsize : (s.contract.cur.insert account.owner
      ⟨account.owner, hash256 account.source, account.context⟩).size ≤ m) :
    (s.setContract (cfg.recorder height) account).Shelved cfg p Q m := by
  have hcur := cur_setContract (cfg.recorder height) account s
  refine ⟨h.toGrounded.step (w := .setContract _ account) (N := fun _ => True) ⟨rfl, hsource⟩, ?_, ?_⟩
  · intro a sc hsc
    rw [hcur, Bucket.get_insert] at hsc
    split at hsc
    · next howner =>
      obtain rfl := Option.some.inj hsc
      exact howner ▸ hsound
    · exact h.sound a sc hsc
  · rw [hcur]
    exact hsize

/-! ## §5 — contract runs -/

/-- **Writing an account of a run back**: the ledgers stay those of the state `s` the run started from. -/
theorem Ledgered.restore {s t : State} (hs : s.Grounded cfg p) (h : t.Ledgered cfg p Q n) (hst : s.SameLedgers t)
    {a : Address} {old acc : Contract} (hold : s.view.contract a = some old) (howner : acc.owner = old.owner)
    (hsource : acc.source = old.source) (hreserved : KeepsReserved old.context acc.context) :
    (t.setContract (cfg.recorder height) acc).Ledgered cfg p Q n ∧
      s.SameLedgers (t.setContract (cfg.recorder height) acc) := by
  obtain ⟨sc, hsc, rfl⟩ := view_contract_eq_some hold
  obtain ⟨sct, hsct, hsame⟩ := hst.some hsc
  obtain ⟨hhash, hallowed⟩ := hs.loadCode hsc
  -- the slot that is written back: same address, same code hash, same reserved entries
  obtain rfl : acc.owner = a := howner.trans (hs.housed.cur a sc hsc)
  have hcode : hash256 acc.source = sc.codeHash := (congrArg hash256 hsource).trans hhash
  have hback : sc.SameLedger ⟨acc.owner, hash256 acc.source, acc.context⟩ := ⟨howner, hcode, hreserved⟩
  have hnow := hsame.symm.trans hback
  have hcur := cur_setContract (cfg.recorder height) acc t
  have hsize : (t.contract.cur.insert acc.owner ⟨acc.owner, hash256 acc.source, acc.context⟩).size =
      t.contract.cur.size := Lib.RefCount.size_insert_of_some hsct
  have hsound := h.sound _ sct hsct
  refine ⟨⟨?_, ?_⟩, ?_, ?_⟩
  · apply h.toShelved.setContract
    · rw [hsource]
      exact hallowed
    · exact hnow.sound hsound
    · rw [hsize]
      exact h.few
  · rw [hcur]
    exact h.exact.restore hsct hnow.deps hnow.refCount hsound.other
  · -- the code is the old one, so the registry does not move
    rw [show (t.setContract (cfg.recorder height) acc).code = (t.reconcileCode _ acc).code from
      congrArg Prod.snd (slots_setContract _ acc t), ← hst.code]
    unfold reconcileCode
    rw [hsct]
    simp only [hsame.codeHash, hcode, if_true]
  · intro b
    rw [hcur, Bucket.get_insert]
    split
    · next hb =>
      rw [← hb, hsc]
      exact .some hback
    · exact hst.slots b

/-- A journal that keeps the reserved entries is written back without moving a ledger. -/
theorem ensures_flush {s : State} (hs : s.Grounded cfg p) {j : Journal} (hj : j.Kept s.view) :
    Ensures (fun t => t.Ledgered cfg p Q n ∧ s.SameLedgers t) (j.flush (cfg.recorder height))
      fun _ t => t.Ledgered cfg p Q n ∧ s.SameLedgers t := by
  have haside : ∀ (w : Write) (t : State), w.Aside (cfg.recorder height) →
      t.Ledgered cfg p Q n ∧ s.SameLedgers t → (w.step t).Ledgered cfg p Q n ∧ s.SameLedgers (w.step t) :=
    fun w t hw h => ⟨h.1.aside hw, h.2.of_slots (hw.slots t)⟩
  refine ensures_bind (Q := fun _ t => t.Ledgered cfg p Q n ∧ s.SameLedgers t) ?_ fun _ => ?_
  · refine ensures_forM (I := fun _ t => t.Ledgered cfg p Q n ∧ s.SameLedgers t) fun e _ _ => ?_
    exact ensures_tell fun t h => haside (.setBalance _ e.1 e.2) t rfl h
  · refine ensures_forM (I := fun _ t => t.Ledgered cfg p Q n ∧ s.SameLedgers t) fun e l he => ?_
    obtain ⟨old, hold, howner, hsource, hreserved⟩ := hj e.1 e.2 ((Bucket.mem_toList_iff _ _ _).mp he)
    exact ensures_tell fun t h => h.1.restore hs h.2 hold howner hsource hreserved

/-- **A contract run moves no ledger.** -/
theorem ensures_runContract {s₀ : State} (addr : Address) (tx : FullTx) (entry : String) (blockTime gas : Nat) :
    Ensures (fun t => t.Ledgered cfg p Q n ∧ s₀.SameLedgers t)
      (runContract (cfg.recorder height) addr tx entry blockTime gas)
      fun _ t => t.Ledgered cfg p Q n ∧ s₀.SameLedgers t := by
  refine ensures_look_bind fun s hs => ?_
  have hstay : ∀ (r : Bool × Nat), Ensures (fun t => t = s) (pure r : StateTxn (Bool × Nat))
      fun _ t => t.Ledgered cfg p Q n ∧ s₀.SameLedgers t := by
    intro r
    refine ensures_pure fun t ht => ?_
    rw [ht]
    exact hs
  have hnotes : ∀ l : List RunNote, Ensures (fun t => t = s) (Txn.tell (.notes l) : StateTxn Unit)
      fun _ t => t.Ledgered cfg p Q n ∧ s.SameLedgers t := by
    intro l
    refine ensures_tell fun t ht => ?_
    rw [ht]
    have haside : (Write.notes l).Aside (cfg.recorder height) := trivial
    exact ⟨hs.1.aside haside, (SameLedgers.refl s).of_slots (haside.slots s)⟩
  have hthen : ∀ t : State, t.Ledgered cfg p Q n ∧ s.SameLedgers t → t.Ledgered cfg p Q n ∧ s₀.SameLedgers t :=
    fun t h => ⟨h.1, hs.2.trans h.2⟩
  split
  · exact hstay _
  · next account hacc =>
    have howner : account.owner = addr := (hs.1.allowed addr account hacc).2
    split
    · exact hstay _
    · split
      · exact hstay _
      · next m hm =>
        have hkept := (journalled_kept s.view).runEntry (kept_newVMJournal (howner ▸ hacc)) tx blockTime m entry gas
        split
        · exact ensures_bind (hnotes _) fun _ => ensures_pure hthen
        · next vm hnew =>
          rw [hnew] at hkept
          cases hrun : vm.runEntry s.view account.owner m entry gas with
          | mk ok vm' =>
            rw [hrun] at hkept
            refine ensures_bind (hnotes _) fun _ => ?_
            refine ensures_bind (ensures_when fun _ => ensures_flush hs.1.toGrounded hkept) fun _ => ?_
            exact ensures_pure hthen

/-! ## §6 — taking and letting go of references -/

/-- **`Relinking hub held o s₀ s`** — the slot of `hub`, which still is `o`, is being rewritten; for now it holds a
reference on `held`. No slot of `s₀` is gone. -/
structure Relinking (cfg : Config) (p : Bytes → Prop) (Q : Address → Bytes32 → List Address → Prop) (n : Nat)
    (hub : Address) (o : Option StoredContract) (s₀ : State) (held : List Address) (s : State) : Prop
    extends Shelved cfg p Q n s where
  settled : Settled StoredContract.deps StoredContract.refCount hub held s.contract.cur
  spot : s.contract.cur[hub]? = o
  kept : ∀ x : Address, s₀.contract.cur[x]? ≠ none → s.contract.cur[x]? ≠ none

variable {hub : Address} {o : Option StoredContract} {s₀ : State}

/-- **One reference moves.** -/
theorem Relinking.setRefCount {held held' : List Address} {s : State} (h : Relinking cfg p Q n hub o s₀ held s)
    {x : Address} (hx : x ≠ hub) {acc : Contract} (hacc : s.view.contract x = some acc) {m : Nat} (hm : m < 2 ^ 64)
    (hcount : m + (if x ∈ held then 1 else 0) = acc.getRefCount + if x ∈ held' then 1 else 0)
    (hsame : ∀ y, y ≠ x → (y ∈ held' ↔ y ∈ held)) :
    Relinking cfg p Q n hub o s₀ held' (s.setContract (cfg.recorder height) (acc.setRefCount m)) := by
  obtain ⟨sc, hsc, rfl⟩ := view_contract_eq_some hacc
  obtain ⟨hhash, hallowed⟩ := h.toGrounded.loadCode hsc
  obtain rfl : sc.owner = x := h.housed.cur x sc hsc
  generalize hslot : (⟨sc.owner, s.loadCode sc.codeHash, sc.context⟩ : Contract) = acc at hcount
  have howner : (acc.setRefCount m).owner = sc.owner := by rw [acc.owner_setRefCount, ← hslot]
  have hsource : (acc.setRefCount m).source = s.loadCode sc.codeHash := by rw [acc.setRefCount_source, ← hslot]
  have hcontext : ∀ key, contextKeyRefs ≠ key → (acc.setRefCount m).context.get key = sc.context.get key := by
    intro key hkey
    rw [acc.get_setRefCount m hkey, ← hslot]
  -- the slot that is written: the same dependencies, another count
  generalize hnew : (⟨(acc.setRefCount m).owner, hash256 (acc.setRefCount m).source,
    (acc.setRefCount m).context⟩ : StoredContract) = new
  have hdeps : new.bare.getContractDeps Engine.decodeByteStrings = sc.bare.getContractDeps Engine.decodeByteStrings := by
    apply StoredContract.getContractDeps_congr
    rw [← hnew]
    exact hcontext contextKeyDeps (by decide)
  have hlinks : new.deps = sc.deps := by
    unfold StoredContract.deps
    rw [hdeps]
  have hrefs : new.refCount = m := by
    rw [← hnew]
    exact acc.getRefCount_setRefCount hm
  have hsound := h.sound _ sc hsc
  have hnewsound : new.Sound Q sc.owner := by
    refine ⟨?_, by rw [hdeps, hlinks, hsound.decodes], hlinks ▸ hsound.nodup, hlinks ▸ hsound.other, ?_⟩
    · have hget := hcontext contextKeyActive (by decide)
      rw [← hnew]
      show decide ((acc.setRefCount m).context.get contextKeyActive ≠ []) = true
      rw [hget]
      exact hsound.active
    · rw [hlinks, ← hnew]
      show Q _ (hash256 (acc.setRefCount m).source) _
      rw [hsource, hhash]
      exact hsound.allowed
  have hcur : (s.setContract (cfg.recorder height) (acc.setRefCount m)).contract.cur =
      s.contract.cur.insert sc.owner new := by
    rw [cur_setContract, hnew, howner]
  refine ⟨?_, ?_, ?_, ?_⟩
  · apply h.toShelved.setContract
    · rw [hsource]
      exact hallowed
    · rw [hnew, howner]
      exact hnewsound
    · rw [hnew, howner, Lib.RefCount.size_insert_of_some hsc]
      exact h.few
  · rw [hcur]
    refine h.settled.adjust hsc hlinks ?_ hsame
    rw [hrefs, show sc.refCount = acc.getRefCount by rw [← hslot]; rfl]
    convert hcount
  · rw [hcur, Bucket.get_insert, if_neg hx]
    exact h.spot
  · intro y hy
    rw [hcur, Bucket.get_insert]
    split
    · exact Option.some_ne_none _
    · exact h.kept y hy

theorem Relinking.aside {held : List Address} {w : Write} (hw : w.Aside (cfg.recorder height)) {s : State}
    (h : Relinking cfg p Q n hub o s₀ held s) : Relinking cfg p Q n hub o s₀ held (w.step s) := by
  have hcontract : (w.step s).contract = s.contract := congrArg Prod.fst (hw.slots s)
  refine ⟨h.toShelved.aside hw, ?_, ?_, ?_⟩
  · rw [hcontract]
    exact h.settled
  · rw [hcontract]
    exact h.spot
  · rw [hcontract]
    exact h.kept

/-- **`releaseContractDeps`** lets go of every reference the slot holds. -/
theorem ensures_releaseContractDeps {slot : Contract} {deps : List Address}
    (hdeps : slot.getContractDeps Engine.decodeByteStrings = .ok deps) (hnodup : deps.Nodup) (hhub : hub ∉ deps)
    (hn : n < 2 ^ 64) :
    Ensures (Relinking cfg p Q n hub o s₀ deps) (releaseContractDeps (cfg.recorder height) slot)
      fun _ => Relinking cfg p Q n hub o s₀ [] := by
  refine ensures_ofExcept_bind fun deps' hdeps' => ?_
  obtain rfl : deps = deps' := Except.ok.inj (hdeps.symm.trans hdeps')
  -- what is left of the list has no repetition and never the hub
  let I := fun (l : List Address) (s : State) => (l.Nodup ∧ ∀ d ∈ l, d ≠ hub) ∧ Relinking cfg p Q n hub o s₀ l s
  refine Txn.Ensures.mono (P := I deps) (Q := fun _ => I []) (ensures_forM (I := I) ?_)
    (fun s hs => ⟨⟨hnodup, fun d hd heq => hhub (heq ▸ hd)⟩, hs⟩) fun _ s hs => hs.2
  intro d l _
  refine ensures_look_bind fun s hs => ?_
  obtain ⟨⟨hnodup, hother⟩, hs⟩ := hs
  have hd : d ∉ l := (List.nodup_cons.mp hnodup).1
  have hrest : l.Nodup ∧ ∀ x ∈ l, x ≠ hub :=
    ⟨(List.nodup_cons.mp hnodup).2, fun x hx => hother x (List.mem_cons_of_mem d hx)⟩
  split
  · exact ensures_fail _
  · next acc hacc =>
    obtain ⟨sc, hsc, hslot⟩ := view_contract_eq_some hacc
    have hrefs : acc.getRefCount = sc.refCount := by
      rw [hslot]
      rfl
    -- the reference that is let go is counted
    have hexact := hs.settled.exact d sc hsc
    rw [if_pos List.mem_cons_self, ← hrefs] at hexact
    have hsize := (Lib.RefCount.pointers_le_size StoredContract.deps hub d s.contract.cur).trans hs.few
    unfold StateTxn.when
    rw [if_pos (by omega)]
    refine ensures_tell fun t ht => ⟨hrest, ?_⟩
    rw [ht]
    refine hs.setRefCount (hother d List.mem_cons_self) hacc (by omega) ?_ ?_
    · rw [if_pos List.mem_cons_self, if_neg hd]
      omega
    · intro y hy
      rw [List.mem_cons, or_iff_right hy]

/-- **`pinDeps`** takes a reference on every dependency. -/
theorem ensures_pinDeps {deps : List Address} (hnodup : deps.Nodup) (hhub : hub ∉ deps) (hn : n + 1 < 2 ^ 64) :
    Ensures (Relinking cfg p Q n hub o s₀ []) (pinDeps (cfg.recorder height) deps)
      fun _ => Relinking cfg p Q n hub o s₀ deps := by
  have hloop : Ensures (fun s => ∃ done, done ++ deps = deps ∧ Relinking cfg p Q n hub o s₀ done s)
      (pinDeps (cfg.recorder height) deps)
      fun _ s => ∃ done, done ++ [] = deps ∧ Relinking cfg p Q n hub o s₀ done s := by
    refine ensures_forM (I := fun rest s => ∃ done, done ++ rest = deps ∧ Relinking cfg p Q n hub o s₀ done s) ?_
    intro d rest hmem
    refine ensures_look_bind fun s hs => ?_
    obtain ⟨done, hsplit, hs⟩ := hs
    have hd : d ∉ done := by
      rw [← hsplit] at hnodup
      exact fun hdone => (List.nodup_append.mp hnodup).2.2 d hdone d List.mem_cons_self rfl
    split
    · exact ensures_fail _
    · next acc hacc =>
      obtain ⟨sc, hsc, hslot⟩ := view_contract_eq_some hacc
      have hrefs : acc.getRefCount = sc.refCount := by
        rw [hslot]
        rfl
      have hexact := hs.settled.exact d sc hsc
      rw [if_neg hd, ← hrefs] at hexact
      have hsize := (Lib.RefCount.pointers_le_size StoredContract.deps hub d s.contract.cur).trans hs.few
      have hword : (acc.getRefCount + 1) % 2 ^ 64 = acc.getRefCount + 1 := Nat.mod_eq_of_lt (by omega)
      refine ensures_tell fun t ht => ⟨done ++ [d], by rw [List.append_assoc]; exact hsplit, ?_⟩
      rw [ht, hword]
      refine hs.setRefCount (fun heq => hhub (heq ▸ hmem)) hacc (by omega) ?_ ?_
      · rw [if_neg hd, if_pos (List.mem_append_right _ List.mem_cons_self)]
      · intro y hy
        rw [List.mem_append, List.mem_singleton, or_iff_left hy]
  refine hloop.mono (fun s hs => ⟨[], rfl, hs⟩) fun _ s hs => ?_
  obtain ⟨done, hdone, hs⟩ := hs
  rw [List.append_nil] at hdone
  exact hdone ▸ hs

end State

/-! ## §7 — what a module declares -/

omit [Engine] in
/-- Keeping the first occurrences: no duplicates, no more than there were, nothing lost. -/
theorem foldl_unique (l seen : List Address) (hseen : seen.Nodup) :
    let out := l.foldl (fun seen addr => if addr ∈ seen then seen else seen ++ [addr]) seen
    out.Nodup ∧ out.length ≤ seen.length + l.length ∧ ∀ a, a ∈ out ↔ a ∈ seen ∨ a ∈ l := by
  induction l generalizing seen with
  | nil => exact ⟨hseen, Nat.le_refl _, fun a => by simp⟩
  | cons x l ih =>
    rw [List.foldl_cons]
    by_cases hx : x ∈ seen
    · rw [if_pos hx]
      obtain ⟨hnodup, hlength, hmem⟩ := ih seen hseen
      refine ⟨hnodup, by rw [List.length_cons]; omega, fun a => ?_⟩
      rw [hmem, List.mem_cons]
      constructor
      · exact fun h => h.imp_right .inr
      · rintro (h | rfl | h)
        · exact .inl h
        · exact .inl hx
        · exact .inr h
    · rw [if_neg hx]
      have hsnoc : (seen ++ [x]).Nodup :=
        List.nodup_append.mpr ⟨hseen, List.nodup_singleton x, fun a ha b hb hab =>
          hx (List.mem_singleton.mp hb ▸ hab ▸ ha)⟩
      obtain ⟨hnodup, hlength, hmem⟩ := ih (seen ++ [x]) hsnoc
      refine ⟨hnodup, ?_, fun a => ?_⟩
      · rw [List.length_append, List.length_singleton] at hlength
        rw [List.length_cons]
        omega
      · rw [hmem, List.mem_append, List.mem_singleton, List.mem_cons, or_assoc]

/-- The dependencies of a module: once each, no more than allowed, and all the addresses behind its imports. -/
theorem extractContractDeps_ok {source : Bytes} {m : Module} {deps : List Address}
    (hload : loadContractWasm source = some m) (h : extractContractDeps source = .ok deps) :
    deps.Nodup ∧ deps.length ≤ maxDepsPerContract ∧
      ∃ names, parseContractDeps m = .ok names ∧
        (∀ name ∈ names, ∃ a ∈ deps, newAddressFromBS58 name = some a) ∧
        ∀ a ∈ deps, ∃ name ∈ names, newAddressFromBS58 name = some a := by
  have hne : source ≠ [] := by
    rintro rfl
    simp [loadContractWasm, wasmMagic] at hload
  unfold extractContractDeps at h
  rw [if_neg hne, hload] at h
  obtain ⟨names, hnames, h⟩ := bind_eq_ok.mp h
  unfold resolveDepAddrs at h
  obtain ⟨addrs, haddrs, h⟩ := bind_eq_ok.mp h
  obtain rfl := pure_eq_ok.mp h
  obtain ⟨hsame, hall⟩ := mapM_ok haddrs
  obtain ⟨hnodup, hlength, hmem⟩ := foldl_unique addrs [] List.nodup_nil
  have hfew : names.length ≤ maxDepsPerContract := by
    unfold parseContractDeps at hnames
    obtain ⟨_, hensure, hnames⟩ := bind_eq_ok.mp hnames
    obtain rfl := pure_eq_ok.mp hnames
    exact ensure_eq_ok.mp hensure
  have hresolved : ∀ name a, resolveDepAddr name = .ok a → newAddressFromBS58 name = some a := by
    intro name a hresolve
    unfold resolveDepAddr at hresolve
    split at hresolve
    · next addr haddr =>
      obtain rfl := Except.ok.inj hresolve
      exact haddr
    · cases hresolve
  refine ⟨hnodup, ?_, names, hnames, ?_, ?_⟩
  · rw [List.length_nil, Nat.zero_add, hsame] at hlength
    exact hlength.trans hfew
  · intro name hname
    obtain ⟨a, ha, hresolve⟩ := hall name hname
    exact ⟨a, (hmem a).mpr (.inr ha), hresolved name a hresolve⟩
  · intro a ha
    rcases (hmem a).mp ha with hnone | ha
    · cases hnone
    · obtain ⟨name, hname, hresolve⟩ := mem_of_mapM haddrs a ha
      exact ⟨name, hname, hresolved name a hresolve⟩

theorem validateDeps_ok {v : View} {fromAddr : Address} {source : Bytes} {deps : List Address}
    (h : validateDeps v fromAddr source = .ok deps) : extractContractDeps source = .ok deps ∧ fromAddr ∉ deps := by
  unfold validateDeps at h
  obtain ⟨deps', hdeps, h⟩ := bind_eq_ok.mp h
  obtain ⟨_, hall, h⟩ := bind_eq_ok.mp h
  obtain rfl := pure_eq_ok.mp h
  refine ⟨hdeps, fun hself => ?_⟩
  obtain ⟨_, hne, -⟩ := bind_eq_ok.mp (forM_eq_ok.mp hall fromAddr hself)
  exact ensure_eq_ok.mp hne rfl

/-! ## §8 — transactions -/

/-- **`Abides p Q tx`** — the code a transaction installs keeps to the rules. -/
def FullTx.Abides (p : Bytes → Prop) (Q : Address → Bytes32 → List Address → Prop) (tx : FullTx) : Prop :=
  tx.type = deployTx → ∀ a source m deps, tx.fromAddr = .ok a → source ≠ [] →
    decodeCommitCode Engine.inflate tx.extra = .ok source → loadContractWasm source = some m →
    extractContractDeps source = .ok deps → p source ∧ Q a (hash256 source) deps

namespace State

variable {cfg : Config} {p : Bytes → Prop} {Q : Address → Bytes32 → List Address → Prop} {n height : Nat}

/-- **`Retains s₀ s`** — the slots that others depended on are still there. -/
def Retains (s₀ s : State) : Prop :=
  ∀ (x : Address) (sc : StoredContract), s₀.contract.cur[x]? = some sc → sc.refCount ≠ 0 →
    s.contract.cur[x]? ≠ none

omit [Engine] in
theorem SameLedgers.retains {s₀ s : State} (h : s₀.SameLedgers s) : s₀.Retains s := by
  intro x sc hsc _
  obtain ⟨sc', hsc', -⟩ := h.some hsc
  rw [hsc']
  exact Option.some_ne_none sc'

theorem Ledgered.mono {m : Nat} (hnm : n ≤ m) {s : State} (h : s.Ledgered cfg p Q n) : s.Ledgered cfg p Q m :=
  ⟨⟨h.toGrounded, h.sound, h.few.trans hnm⟩, h.exact⟩

/-- Ledgers that are those of `s₀` survive every write aside from the slots. -/
theorem aside_ledgered (height : Nat) (s₀ : State) (w : Write) (t : State) (hw : w.Aside (cfg.recorder height))
    (h : t.Ledgered cfg p Q n ∧ s₀.SameLedgers t) : (w.step t).Ledgered cfg p Q n ∧ s₀.SameLedgers (w.step t) :=
  ⟨h.1.aside hw, h.2.of_slots (hw.slots t)⟩

/-- The first reference counts of a fresh or rewritten slot are those it had. -/
theorem Ledgered.relinking {s : State} (h : s.Ledgered cfg p Q n) (s₀ : State) (hub : Address)
    (hkept : ∀ x : Address, s₀.contract.cur[x]? ≠ none → s.contract.cur[x]? ≠ none) :
    Relinking cfg p Q n hub s.contract.cur[hub]? s₀ ((s.contract.cur[hub]?).elim [] StoredContract.deps) s :=
  ⟨h.toShelved, h.exact.settled hub, rfl, hkept⟩

/-- **Installing code**: the new references are taken and the slot written last. -/
theorem ensures_installContract (hdecode : DecodesDeps) {tx : FullTx} {a : Address} {o : Option StoredContract}
    {s₀ : State} {slot : Contract} (howner : slot.owner = a)
    (hrefs : slot.getRefCount = o.elim 0 StoredContract.refCount) {newSource : Bytes} (hnew : p newSource)
    {newDeps : List Address} (hnodup : newDeps.Nodup) (hself : a ∉ newDeps)
    (hfew : newDeps.length ≤ maxDepsPerContract) (hallowed : Q a (hash256 newSource) newDeps) (hn : n + 1 < 2 ^ 64)
    (blockTime gas : Nat) :
    Ensures (Relinking cfg p Q n a o s₀ [])
      (installContract (cfg.recorder height) tx a slot newSource newDeps blockTime gas)
      fun _ t => t.Ledgered cfg p Q (n + 1) ∧ ∀ x : Address, s₀.contract.cur[x]? ≠ none → t.contract.cur[x]? ≠ none := by
  subst howner
  refine ensures_bind (ensures_pinDeps hnodup hself hn) fun _ => ?_
  generalize hacc : ({ slot with source := newSource }.setActive).setContractDeps newDeps = account
  have haowner : account.owner = slot.owner := by
    rw [← hacc, Contract.owner_setContractDeps]
    rfl
  have hasource : account.source = newSource := by
    rw [← hacc, Contract.source_setContractDeps]
    rfl
  have hdeps : account.getContractDeps Engine.decodeByteStrings = .ok newDeps := by
    rw [← hacc]
    exact Contract.getContractDeps_setContractDeps hdecode _ hfew
  have hother : ∀ key, contextKeyDeps ≠ key → contextKeyActive ≠ key →
      account.context.get key = slot.context.get key := by
    intro key hkey hactive
    rw [← hacc, Contract.get_setContractDeps _ _ hkey]
    show ContractContext.get (slot.context.insert contextKeyActive [1]) key = _
    rw [ContractContext.get_insert, if_neg hactive]
  have hactive : account.context.get contextKeyActive = [1] := by
    rw [← hacc, Contract.get_setContractDeps _ _ (by decide)]
    show ContractContext.get (slot.context.insert contextKeyActive [1]) contextKeyActive = _
    rw [ContractContext.get_insert, if_pos rfl]
  -- the slot that is stored
  generalize hstored : (⟨account.owner, hash256 account.source, account.context⟩ : StoredContract) = new
  have hlinks : new.deps = newDeps := by
    apply StoredContract.deps_eq
    rw [← hstored]
    exact hdeps
  have hcount : new.refCount = slot.getRefCount := by
    rw [← hstored]
    show (Contract.getRefCount ⟨_, _, account.context⟩) = _
    unfold Contract.getRefCount
    rw [hother contextKeyRefs (by decide) (by decide)]
  have hsound : new.Sound Q slot.owner := by
    refine ⟨?_, ?_, hlinks ▸ hnodup, hlinks ▸ hself, ?_⟩
    · rw [← hstored]
      show decide (account.context.get contextKeyActive ≠ []) = true
      rw [hactive]
      rfl
    · rw [hlinks, ← hstored]
      exact hdeps
    · rw [hlinks, ← hstored]
      show Q _ (hash256 account.source) _
      rw [hasource]
      exact hallowed
  refine ensures_bind (Q := fun _ t => t.Ledgered cfg p Q (n + 1) ∧
    ∀ x : Address, s₀.contract.cur[x]? ≠ none → t.contract.cur[x]? ≠ none) (ensures_tell fun t ht => ?_) fun _ => ?_
  · have hcur : (t.setContract (cfg.recorder height) account).contract.cur =
        t.contract.cur.insert slot.owner new := by
      rw [cur_setContract, hstored, haowner]
    refine ⟨⟨?_, ?_⟩, ?_⟩
    · apply ht.toShelved.setContract
      · rw [hasource]
        exact hnew
      · rw [hstored, haowner]
        exact hsound
      · exact (Std.ExtTreeMap.size_insert_le).trans (Nat.add_le_add_right ht.few 1)
    · show Exact _ _ (t.setContract (cfg.recorder height) account).contract.cur
      rw [hcur]
      apply ht.settled.store hlinks hself
      rw [hcount, hrefs, ht.spot]
    · intro x hx
      show (t.setContract (cfg.recorder height) account).contract.cur[x]? ≠ none
      rw [hcur, Bucket.get_insert]
      split
      · exact Option.some_ne_none _
      · exact ht.kept x hx
  · -- the `init` hook
    refine ensures_bind (Q := fun _ t => t.Ledgered cfg p Q (n + 1) ∧
      ∀ x : Address, s₀.contract.cur[x]? ≠ none → t.contract.cur[x]? ≠ none) ?_ fun r => ensures_pure fun t ht => ht
    intro t r t' ht hrun
    obtain ⟨hledgered, hsame⟩ := ensures_runContract _ _ _ _ _ t r t' ⟨ht.1, State.SameLedgers.refl t⟩ hrun
    refine ⟨hledgered, fun x hx => ?_⟩
    obtain ⟨sc, hsc⟩ := Option.ne_none_iff_exists'.mp (ht.2 x hx)
    obtain ⟨sc', hsc', -⟩ := hsame.some hsc
    rw [hsc']
    exact Option.some_ne_none sc'

/-- What the upgrade hook of `a` leaves: the references its slot held before are the ones to let go. -/
theorem relinking_of_sameLedgers {s₁ t : State} (hs : s₁.Ledgered cfg p Q n) {a : Address} {slot : Contract}
    (hslot : s₁.view.contract a = some slot) (ht : t.Ledgered cfg p Q n) (hsame : s₁.SameLedgers t) :
    ∃ sc deps, t.contract.cur[a]? = some sc ∧ sc.refCount = slot.getRefCount ∧ slot.owner = a ∧
      slot.getContractDeps Engine.decodeByteStrings = .ok deps ∧ deps.Nodup ∧ a ∉ deps ∧
      Relinking cfg p Q n a (some sc) s₁ deps t := by
  obtain ⟨sc₁, hsc₁, rfl⟩ := view_contract_eq_some hslot
  obtain ⟨sc, hsc, hledger⟩ := hsame.some hsc₁
  have hsound := hs.sound a sc₁ hsc₁
  refine ⟨sc, sc₁.deps, hsc, hledger.refCount, hs.housed.cur a sc₁ hsc₁, hsound.decodes, hsound.nodup, hsound.other, ?_⟩
  have hrelinking := ht.relinking s₁ a fun x hx => by
    obtain ⟨scx, hscx⟩ := Option.ne_none_iff_exists'.mp hx
    obtain ⟨scx', hscx', -⟩ := hsame.some hscx
    rw [hscx']
    exact Option.some_ne_none scx'
  rw [hsc] at hrelinking
  rw [← hledger.deps]
  exact hrelinking

/-- **Destroying a contract** that nothing depends on. -/
theorem ensures_destroyContract {s₀ s₁ : State} (hs : s₁.Ledgered cfg p Q n ∧ s₀.SameLedgers s₁) {tx : FullTx}
    {a : Address} {slot : Contract} (hslot : s₁.view.contract a = some slot) (hn : n + 1 < 2 ^ 64)
    (blockTime gas : Nat) :
    Ensures (fun t => t = s₁) (destroyContract cfg (cfg.recorder height) tx a slot blockTime gas)
      fun _ t => t.Ledgered cfg p Q (n + 1) ∧ s₀.Retains t := by
  refine ensures_require_bind fun hunused => ?_
  refine ensures_bind (Q := fun _ t => t.Ledgered cfg p Q n ∧ s₁.SameLedgers t) ?_ fun r => ?_
  · exact (ensures_runContract a tx _ blockTime gas).mono (fun t ht => ht.symm ▸ ⟨hs.1, .refl s₁⟩) fun _ _ h => h
  show Ensures _ (if r.1 = false then _ else _) _
  split
  · exact ensures_pure fun t ht => ⟨ht.1.mono (Nat.le_succ n), (hs.2.trans ht.2).retains⟩
  · refine ensures_of_forall fun t ht => ?_
    obtain ⟨sc, deps, hsc, hrefs, -, hdeps, hnodup, hself, hrelinking⟩ := relinking_of_sameLedgers hs.1 hslot ht.1 ht.2
    refine Txn.Ensures.mono (P := Relinking cfg p Q n a (some sc) s₁ deps) ?_ (fun u hu => hu ▸ hrelinking)
      fun _ _ h => h
    refine ensures_bind (ensures_releaseContractDeps hdeps hnodup hself (by omega)) fun _ => ?_
    refine ensures_bind (Q := fun _ => Relinking cfg p Q n a (some sc) s₁ []) ?_ fun _ => ?_
    · -- the refund moves balances
      refine ensures_when fun _ => ensures_aside (fun w u (hw : w.Aside (cfg.recorder height)) hu => hu.aside hw) ?_
      exact writes_refundContractDeposit (fun _ _ => rfl) trivial _ _
    · refine ensures_bind (Q := fun _ t => t.Ledgered cfg p Q (n + 1) ∧ s₀.Retains t) (ensures_tell fun u hu => ?_)
        fun _ => ensures_pure fun _ h => h
      have hcur : (u.delContract (cfg.recorder height) a).contract.cur = u.contract.cur.erase a :=
        cur_delContract _ a u
      refine ⟨⟨⟨?_, ?_, ?_⟩, ?_⟩, ?_⟩
      · exact hu.toGrounded.step (w := .delContract _ a) (N := fun _ => True) rfl
      · intro x scx hscx
        show scx.Sound Q x
        rw [show ((Write.delContract (cfg.recorder height) a).step u).contract.cur = _ from hcur,
          Bucket.get_erase] at hscx
        split at hscx
        · cases hscx
        · exact hu.sound x scx hscx
      · rw [show ((Write.delContract (cfg.recorder height) a).step u).contract.cur = _ from hcur]
        exact Std.ExtTreeMap.size_erase_le.trans (hu.few.trans (Nat.le_succ n))
      · rw [show ((Write.delContract (cfg.recorder height) a).step u).contract.cur = _ from hcur]
        refine hu.settled.drop fun scu hscu => ?_
        obtain rfl := Option.some.inj (hu.spot.symm.trans hscu)
        exact hrefs.trans hunused
      · -- the slot that goes had no dependents before either
        intro x scx hscx hneeded
        obtain ⟨sc₁, hsc₁, hledger⟩ := hs.2.some hscx
        rw [show ((Write.delContract (cfg.recorder height) a).step u).contract.cur = _ from hcur, Bucket.get_erase]
        split
        · next hax =>
          subst hax
          obtain ⟨sc₁', hsc₁', rfl⟩ := view_contract_eq_some hslot
          obtain rfl := Option.some.inj (hsc₁'.symm.trans hsc₁)
          exact absurd (hledger.refCount.symm.trans hunused) hneeded
        · apply hu.kept
          rw [hsc₁]
          exact Option.some_ne_none _

/-- **`handleDeploy`** moves references as the dependencies move. -/
theorem ensures_handleDeploy (hdecode : DecodesDeps) (hp : ∀ c, p c → c ≠ []) {s₀ : State} {tx : FullTx}
    (htx : tx.Abides p Q) (htype : tx.type = deployTx) (hn : n + 1 < 2 ^ 64) (blockTime gas : Nat) :
    Ensures (fun t => t.Ledgered cfg p Q n ∧ s₀.SameLedgers t)
      (handleDeploy cfg (cfg.recorder height) tx blockTime gas)
      fun _ t => t.Ledgered cfg p Q (n + 1) ∧ s₀.Retains t := by
  refine ensures_look_bind fun s hs => ensures_ofExcept_bind fun _ _ => ?_
  refine ensures_bind ((ensures_chargeFrom (aside_ledgered height s₀) tx _).mono (fun t ht => ht ▸ hs) fun _ _ h => h) ?_
  intro a
  refine ensures_of_forall fun t ht => ensures_ofExcept_bind fun newSource hsource => ensures_require_bind fun _ => ?_
  refine ensures_look_bind fun s₁ hs₁ => ?_
  subst hs₁
  obtain ⟨hfrom, hs₁⟩ := ht
  -- every slot is live
  have hlive : (s₁.view.contract a).filter Contract.isLive = s₁.view.contract a := by
    cases hslot : s₁.view.contract a with
    | none => rfl
    | some slot => exact Option.filter_some_pos (hs₁.1.isLive hp hslot)
  dsimp only
  rw [hlive]
  split
  · split
    · exact ensures_fail _
    · next slot hslot => exact ensures_destroyContract hs₁ hslot hn blockTime gas
  · next hne =>
    refine ensures_require_bind fun hload => ensures_ofExcept_bind fun newDeps hvalid => ?_
    obtain ⟨m, hm⟩ := Option.isSome_iff_exists.mp hload
    obtain ⟨hextract, hself⟩ := validateDeps_ok hvalid
    obtain ⟨hnodup, hfew, -⟩ := extractContractDeps_ok hm hextract
    obtain ⟨hnew, hallowed⟩ := htx htype a newSource m newDeps hfrom hne hsource hm hextract
    have hretains : ∀ t : State, (t.Ledgered cfg p Q (n + 1) ∧
        ∀ x : Address, s₁.contract.cur[x]? ≠ none → t.contract.cur[x]? ≠ none) →
        t.Ledgered cfg p Q (n + 1) ∧ s₀.Retains t := by
      refine fun t ht => ⟨ht.1, fun x sc hsc _ => ht.2 x ?_⟩
      obtain ⟨sc', hsc', -⟩ := hs₁.2.some hsc
      rw [hsc']
      exact Option.some_ne_none sc'
    split
    · next hslot =>
      -- an empty slot: it holds nothing, and nothing counts on it
      have hempty : s₁.contract.cur[a]? = none := Option.map_eq_none_iff.mp hslot
      have hrelinking := hs₁.1.relinking s₁ a fun _ h => h
      rw [hempty] at hrelinking
      refine Txn.Ensures.mono (P := Relinking cfg p Q n a none s₁ []) ?_ (fun t ht => ht ▸ hrelinking) fun _ => hretains
      have howner : (Contract.newContract a).owner = a := rfl
      exact ensures_installContract (o := none) hdecode howner rfl hnew hnodup hself hfew hallowed hn blockTime gas
    · next slot hslot =>
      refine ensures_bind (Q := fun _ t => t.Ledgered cfg p Q n ∧ s₁.SameLedgers t) ?_ fun r => ?_
      · exact (ensures_runContract a tx _ blockTime gas).mono (fun t ht => ht.symm ▸ ⟨hs₁.1, .refl s₁⟩) fun _ _ h => h
      show Ensures _ (if r.1 = false then _ else _) _
      split
      · exact ensures_pure fun t ht => ⟨ht.1.mono (Nat.le_succ n), (hs₁.2.trans ht.2).retains⟩
      · refine ensures_of_forall fun t ht => ?_
        obtain ⟨sc, deps, hsc, hrefs, howner, hdeps, hnodup', hself', hrelinking⟩ :=
          relinking_of_sameLedgers hs₁.1 hslot ht.1 ht.2
        refine Txn.Ensures.mono (P := Relinking cfg p Q n a (some sc) s₁ deps) ?_ (fun u hu => hu ▸ hrelinking)
          fun _ => hretains
        refine ensures_bind (ensures_releaseContractDeps hdeps hnodup' hself' (by omega)) fun _ => ?_
        exact ensures_installContract (o := some sc) hdecode howner hrefs.symm hnew hnodup hself hfew hallowed hn blockTime r.2

/-- **One transaction keeps the ledger exact**, and removes no contract that others depend on. -/
theorem ensures_handleTx (hdecode : DecodesDeps) (hp : ∀ c, p c → c ≠ []) {s₀ : State} {tx : FullTx}
    (htx : tx.Abides p Q) (hn : n + 1 < 2 ^ 64) (blockTime gas : Nat) :
    Ensures (fun t => t.Ledgered cfg p Q n ∧ s₀.SameLedgers t)
      (handleTx cfg (cfg.recorder height) blockTime gas tx)
      fun _ t => t.Ledgered cfg p Q (n + 1) ∧ s₀.Retains t := by
  have hweaken : ∀ t : State, t.Ledgered cfg p Q n ∧ s₀.SameLedgers t →
      t.Ledgered cfg p Q (n + 1) ∧ s₀.Retains t :=
    fun t ht => ⟨ht.1.mono (Nat.le_succ n), ht.2.retains⟩
  refine ensures_handleTx_of (aside_ledgered height s₀) ensures_runContract hweaken (fun htype gas => ?_) gas
  exact ensures_handleDeploy hdecode hp htx htype hn blockTime gas

end State

/-! ## §9 — whole runs -/

namespace State

/-- **`Passes cfg ok n s`** — the states a node goes through from a fresh database, the ones between two
transactions of a block included. `n` transactions were executed, all of them `ok`. -/
inductive Passes (cfg : Config) (ok : FullTx → Prop) : Nat → State → Prop
  | fresh : Passes cfg ok 0 (State.empty.initFromSheet getGenesisSheet)
  | commits {n : Nat} {block : FullBlock} {s s' : State} : Passes cfg ok n s →
      (handleCommits (cfg.recorder block.getHeight) block).exec s = .ok ((), s') → Passes cfg ok n s'
  | tx {n height blockTime gas gas' : Nat} {tx : FullTx} {s s' : State} : Passes cfg ok n s → ok tx →
      (handleTx cfg (cfg.recorder height) blockTime gas tx).exec s = .ok (gas', s') → Passes cfg ok (n + 1) s'
  | close {n : Nat} {block : FullBlock} {s s' : State} : Passes cfg ok n s →
      (closeBlock cfg block).exec s = .ok ((), s') → Passes cfg ok n s'

variable {cfg : Config} {ok : FullTx → Prop} {n : Nat}

theorem Passes.upgrade {block : FullBlock} {s s' : State} (h : Passes cfg ok n s) (hok : ∀ tx ∈ block.txs, ok tx)
    (hrun : (NgCore.upgrade cfg block).exec s = .ok ((), s')) : Passes cfg ok (n + block.txs.length) s' := by
  obtain ⟨_, s₁, hcommits, hrun⟩ := StateTxn.exec_bind_ok.mp hrun
  obtain ⟨gas, s₂, htxs, hclose⟩ := StateTxn.exec_bind_ok.mp hrun
  apply Passes.close _ hclose
  -- the transactions, one after the other
  have hfold : ∀ (txs : List FullTx) (n gas gas' : Nat) (s s' : State), (∀ tx ∈ txs, ok tx) → Passes cfg ok n s →
      (txs.foldlM (fun gas tx => handleTx cfg (cfg.recorder block.getHeight) block.header.timestamp gas tx) gas
        : StateTxn Nat).exec s = .ok (gas', s') → Passes cfg ok (n + txs.length) s' := by
    intro txs
    induction txs with
    | nil =>
      intro n gas gas' s s' _ h hrun
      obtain ⟨-, rfl⟩ := Prod.mk.inj (Except.ok.inj hrun)
      exact h
    | cons tx txs ih =>
      intro n gas gas' s s' hok h hrun
      rw [List.foldlM_cons] at hrun
      obtain ⟨gas₁, t, htx, hrun⟩ := StateTxn.exec_bind_ok.mp hrun
      rw [List.length_cons, Nat.add_comm txs.length, ← Nat.add_assoc]
      refine ih _ _ _ _ _ (fun tx htx => hok tx (List.mem_cons_of_mem _ htx)) ?_ hrun
      exact h.tx (hok tx List.mem_cons_self) htx
  exact hfold _ _ _ _ _ _ hok (h.commits hcommits) htxs

theorem Passes.upgradesTo {blocks : List FullBlock} {s s' : State} (h : Passes cfg ok n s)
    (hok : ∀ block ∈ blocks, ∀ tx ∈ block.txs, ok tx) (hrun : UpgradesTo cfg s blocks s') :
    Passes cfg ok (n + (blocks.flatMap FullBlock.txs).length) s' := by
  induction hrun generalizing n with
  | nil => exact h
  | @cons s t u block blocks head tail ih =>
    rw [List.flatMap_cons, List.length_append, ← Nat.add_assoc]
    exact ih (h.upgrade (hok block List.mem_cons_self) head) fun b hb => hok b (List.mem_cons_of_mem _ hb)

theorem Passes.genesis {s : State} (hok : ∀ tx : FullTx, tx.type = generateTx → ok tx)
    (hinit : initStateFromGenesis cfg = .ok s) : Passes cfg ok 1 s := by
  obtain ⟨g, hg, hrun⟩ := initStateFromGenesis_eq_ok hinit
  obtain ⟨-, -, tx, htxs, htype, -⟩ := getGenesisBlock_ok hg
  have hfresh : Passes cfg ok 0 (State.empty.initFromSheet getGenesisSheet) := .fresh
  have hoks : ∀ tx ∈ g.txs, ok tx := by
    intro tx' htx'
    rw [htxs, List.mem_singleton] at htx'
    exact hok tx' (htx' ▸ htype)
  have hpasses := hfresh.upgrade hoks hrun
  rwa [htxs] at hpasses

/-- **The ledger is exact in every state a run passes**, under any rule for what is deployed. -/
theorem Passes.ledgered (hdecode : DecodesDeps) {p : Bytes → Prop} {Q : Address → Bytes32 → List Address → Prop}
    (hp : ∀ c, p c → c ≠ []) (hok : ∀ tx, ok tx → tx.Abides p Q) {s : State} (h : Passes cfg ok n s)
    (hn : n < 2 ^ 64) : s.Ledgered cfg p Q n := by
  induction h with
  | fresh =>
    refine ⟨⟨grounded_empty cfg p, ?_, Nat.le_refl 0⟩, Lib.RefCount.exact_empty⟩
    intro a sc hsc
    have hnone : (∅ : Bucket Address StoredContract)[a]? = none := by simp
    cases hnone.symm.trans hsc
  | commits _ hrun ih => exact ensures_handleCommits (fun _ _ hw ht => Ledgered.aside hw ht) _ rfl _ () _ (ih hn) hrun
  | tx _ htx hrun ih =>
    exact (ensures_handleTx hdecode hp (hok _ htx) hn _ _ _ _ _ ⟨ih (by omega), .refl _⟩ hrun).1
  | close _ hrun ih => exact ensures_closeBlock (fun _ _ hw ht => Ledgered.aside hw ht) _ rfl _ () _ (ih hn) hrun

/-- The live contracts that list `x` among their dependencies. -/
def dependents (s : State) (x : Address) : List Address :=
  (s.contract.cur.toList.filter fun e => (s.decodeStoredContract e.2).isLive = true ∧ x ∈ e.2.deps).map Prod.fst

theorem length_dependents {s : State}
    (hlive : ∀ (a : Address) (sc : StoredContract), s.contract.cur[a]? = some sc →
      (s.decodeStoredContract sc).isLive = true) (x : Address) :
    (s.dependents x).length = Lib.RefCount.pointing StoredContract.deps x s.contract.cur := by
  have hall : ∀ e ∈ s.contract.cur.toList, (s.decodeStoredContract e.2).isLive = true :=
    fun e he => hlive e.1 e.2 ((Bucket.mem_toList_iff _ _ _).mp he)
  unfold dependents Lib.RefCount.pointing Bucket.total
  rw [List.length_map]
  generalize s.contract.cur.toList = l at hall
  induction l with
  | nil => rfl
  | cons e l ih =>
    have hrest := ih fun e' he' => hall e' (List.mem_cons_of_mem e he')
    rw [List.filter_cons, List.map_cons, List.sum_cons, ← hrest]
    by_cases hx : x ∈ e.2.deps
    · simp [hx, hall e List.mem_cons_self, Nat.add_comm]
    · simp [hx]

/-- **Reference counts are exact**: in every state a run passes, the count of a contract is the number of live
contracts that list it, every listed contract is live, and no transaction removes a contract that others list. -/
theorem Passes.refs_exact (hdecode : DecodesDeps) {s : State} (h : Passes cfg (fun _ => True) n s)
    (hn : n + 1 < 2 ^ 64) :
    (∀ x account, s.getContract x = some account → account.getRefCount = (s.dependents x).length) ∧
    (∀ y account, s.getContract y = some account → ∃ deps,
      account.getContractDeps Engine.decodeByteStrings = .ok deps ∧
        ∀ x ∈ deps, ∃ dep, s.getContract x = some dep ∧ dep.isLive = true) ∧
    ∀ height blockTime gas gas' tx s',
      (handleTx cfg (cfg.recorder height) blockTime gas tx).exec s = .ok (gas', s') →
        ∀ x, s.dependents x ≠ [] → ∃ account, s'.getContract x = some account ∧ account.isLive = true := by
  have hp : ∀ c : Bytes, c ≠ [] → c ≠ [] := fun _ h => h
  have hok : ∀ tx : FullTx, True → tx.Abides (· ≠ []) fun _ _ _ => True :=
    fun tx _ _ _ _ _ _ _ hne _ _ _ => ⟨hne, trivial⟩
  have hledgered := h.ledgered hdecode hp hok (by omega)
  have hlive : ∀ (a : Address) (sc : StoredContract), s.contract.cur[a]? = some sc →
      (s.decodeStoredContract sc).isLive = true :=
    fun a sc hsc => hledgered.isLive hp (view_contract_of_cur hsc)
  have hcount := length_dependents hlive
  refine ⟨?_, ?_, ?_⟩
  · intro x account hacc
    obtain ⟨sc, hsc, rfl⟩ := view_contract_eq_some hacc
    rw [hcount]
    exact hledgered.exact.exact x sc hsc
  · intro y account hacc
    obtain ⟨sc, hsc, rfl⟩ := view_contract_eq_some hacc
    refine ⟨sc.deps, (hledgered.sound y sc hsc).decodes, fun x hx => ?_⟩
    obtain ⟨scx, hscx⟩ := Option.ne_none_iff_exists'.mp (hledgered.exact.linked y sc hsc x hx)
    exact ⟨_, view_contract_of_cur hscx, hledgered.isLive hp (view_contract_of_cur hscx)⟩
  · intro height blockTime gas gas' tx s' hrun x hx
    obtain ⟨hledgered', hretains⟩ := ensures_handleTx hdecode hp (hok tx trivial) hn blockTime gas s gas' s'
      ⟨hledgered, .refl s⟩ hrun
    -- somebody lists `x`, so it is there and its count is positive
    obtain ⟨y, hy⟩ := List.exists_mem_of_ne_nil _ hx
    obtain ⟨⟨y', scy⟩, hmem, rfl⟩ := List.mem_map.mp hy
    obtain ⟨hmem, hlists⟩ := List.mem_filter.mp hmem
    have hscy := (Bucket.mem_toList_iff _ _ _).mp hmem
    have hlist : x ∈ scy.deps := (of_decide_eq_true hlists).2
    obtain ⟨scx, hscx⟩ := Option.ne_none_iff_exists'.mp (hledgered.exact.linked y' scy hscy x hlist)
    have hpos := hledgered.exact.pos hscx hscy hlist
    obtain ⟨sc', hsc'⟩ := Option.ne_none_iff_exists'.mp (hretains x scx hscx (Nat.ne_of_gt hpos))
    exact ⟨_, view_contract_of_cur hsc', hledgered'.isLive hp (view_contract_of_cur hsc')⟩

end State

end Ledger

/-! ## §10 — a contract others depend on, by hand -/

theorem addressItems_encodeAll (deps : List Address) (fuel : Nat) (hfuel : deps.length ≤ fuel) :
    addressItems fuel (Lib.Rlp.encodeAll (deps.map fun d => .str d.val)) = deps.map Subtype.val := by
  induction deps generalizing fuel with
  | nil => cases fuel <;> rfl
  | cons d deps ih =>
    obtain ⟨fuel, rfl⟩ : ∃ k, fuel = k + 1 := ⟨fuel - 1, by rw [List.length_cons] at hfuel; omega⟩
    have hlen : d.val.length = 32 := d.property
    have hstr : encode (.str d.val) = 160 :: d.val := by
      rw [encode]
      rcases Lib.Rlp.encodeStr_cases d.val with ⟨x, hx, -⟩ | h
      · rw [hx] at hlen
        cases hlen
      · rw [h, hlen]
        rfl
    rw [List.map_cons, Lib.Rlp.encodeAll, hstr, List.cons_append, addressItems, if_neg (List.cons_ne_nil _ _),
      List.map_cons]
    have htake : ((160 :: (d.val ++ Lib.Rlp.encodeAll (deps.map fun d => .str d.val))).drop 1).take 32 = d.val := by
      rw [List.drop_succ_cons, List.drop_zero]
      exact List.take_left' hlen
    have hdrop : (160 :: (d.val ++ Lib.Rlp.encodeAll (deps.map fun d => .str d.val))).drop 33 =
        Lib.Rlp.encodeAll (deps.map fun d => .str d.val) := by
      rw [List.drop_succ_cons]
      exact List.drop_left' hlen
    rw [htake, hdrop, ih fuel (Nat.le_of_succ_le_succ hfuel)]

theorem length_encodeAll_addresses (deps : List Address) :
    (Lib.Rlp.encodeAll (deps.map fun d => .str d.val)).length = 33 * deps.length := by
  induction deps with
  | nil => rfl
  | cons d deps ih =>
    have hstr : (encode (.str d.val)).length = 33 := by
      rw [encode]
      rcases Lib.Rlp.encodeStr_cases d.val with ⟨x, hx, -⟩ | h
      · have hlen : d.val.length = 32 := d.property
        rw [hx] at hlen
        cases hlen
      · rw [h, List.length_append, show d.val.length = 32 from d.property]
        rfl
    rw [List.map_cons, Lib.Rlp.encodeAll, List.length_append, hstr, ih, List.length_cons]
    omega

theorem decodesDeps_linking (names : String → Option UInt8) (modules : Bytes → Option Module) :
    letI := Engine.linking names modules
    DecodesDeps := by
  let _ := Engine.linking names modules
  intro deps hfew
  have hsize := length_encodeAll_addresses deps
  have hitems : ∀ fuel, deps.length ≤ fuel → addressItems fuel (Lib.Rlp.encodeAll (deps.map fun d => .str d.val)) =
      deps.map Subtype.val := addressItems_encodeAll deps
  generalize hpayload : Lib.Rlp.encodeAll (deps.map fun d => .str d.val) = payload at hsize hitems
  have hencode : encode (.list (deps.map fun d => .str d.val)) = Lib.Rlp.header 192 payload.length ++ payload := by
    rw [encode, hpayload]
  have hmax : deps.length ≤ 32 := hfew
  show some (addressItems (encode _).length ((encode _).drop (1 + (((encode _).headD 0).toNat - 247)))) = _
  rw [hencode]
  obtain ⟨x, rest, hheader, hcase⟩ := Lib.Rlp.header_cons 192 payload.length (.inr rfl) (by omega)
  have hfuel : deps.length ≤ (Lib.Rlp.header 192 payload.length ++ payload).length := by
    rw [List.length_append]
    omega
  rw [hheader] at hfuel ⊢
  rcases hcase with ⟨hshort, hx, rfl⟩ | ⟨hlong, hx, hrest, hone, height⟩
  · have hskip : x.toNat - 247 = 0 := by omega
    rw [List.cons_append, List.headD_cons, hskip] at *
    exact congrArg some (hitems _ hfuel)
  · have hskip : x.toNat - 247 = rest.length := by rw [hrest]; omega
    rw [List.cons_append, List.headD_cons, hskip, Nat.add_comm, List.drop_succ_cons, List.drop_left]
    exact congrArg some (hitems _ hfuel)

/-- The importer of key 7 is the one dependent of key 8. -/
theorem refs_exact_importerChain :
    letI := Engine.linking eightName (importerTable entryOnTx)
    ∃ s, State.Passes ⟨ZERONET, false⟩ (fun _ => True) 9 s ∧ s.dependents (handAddr 8) = [handAddr 7] ∧
      (∀ x account, s.getContract x = some account → account.getRefCount = (s.dependents x).length) ∧
      (∀ y account, s.getContract y = some account → ∃ deps,
        account.getContractDeps Engine.decodeByteStrings = .ok deps ∧
          ∀ x ∈ deps, ∃ dep, s.getContract x = some dep ∧ dep.isLive = true) ∧
      ∀ height blockTime gas gas' tx s',
        (handleTx ⟨ZERONET, false⟩ (Config.recorder ⟨ZERONET, false⟩ height) blockTime gas tx).exec s = .ok (gas', s') →
          ∀ x, s.dependents x ≠ [] → ∃ account, s'.getContract x = some account ∧ account.isLive = true := by
  let _ := Engine.linking eightName (importerTable entryOnTx)
  have hrun := upgradesTo_of_upgradeAll (State.eq_after
    (x := upgradeAll ⟨ZERONET, false⟩ importerChain (State.genesis false)) (by decide +kernel))
  have hgenesis : State.Passes ⟨ZERONET, false⟩ (fun _ => True) 1 (State.genesis false) :=
    State.Passes.genesis (fun _ _ => trivial) (State.genesis_eq false)
  have hpasses := hgenesis.upgradesTo (fun _ _ _ _ => trivial) hrun
  have hcount : 1 + (importerChain.flatMap FullBlock.txs).length = 9 := by decide +kernel
  rw [hcount] at hpasses
  exact ⟨_, hpasses, by decide +kernel, hpasses.refs_exact (decodesDeps_linking _ _) (by decide)⟩

end NgCore
