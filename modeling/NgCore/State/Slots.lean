/-
# NgCore.State.Slots — contract slots and the code registry

A contract slot refers to its module by hash; the registry keeps one copy of each module with a reference
count. Only two writes touch either: storing a slot and dropping one (`Write.slots_cases`). Reference counts
are moved by `retainCode` and `releaseCode` alone, one at a time (`codeCount_retainCode`,
`codeCount_releaseCode`), and a slot write moves them exactly as it moves the number of slots that refer to
a hash. On an archive node unwinding puts slots back without counting, so there the counts say nothing; but
no module is ever deleted.

DELIVERABLE: `State.Reached.housed` (a slot stands under its owner's address) and
`State.Operated.code_sound` (every slot's code is in the registry; without an archive, the counts are exact).
-/
import NgCore.State.Undo

namespace NgCore

open Lib (Bucket Versioned)

namespace State

/-! ## §1 — the two writes -/

/-- The slots with their undo rows, and the registry. -/
def slots (s : State) : Versioned Address StoredContract × Bucket Bytes32 (Nat × Bytes) := (s.contract, s.code)

theorem slots_dropCommits [Crypto] (p : Nat → Bool) (s : State) : (s.dropCommits p).slots = s.slots := by
  have h := stores_dropCommits p s
  exact Prod.ext (congrArg Stores.contract h) (congrArg Stores.code h)

theorem slots_setContract [Crypto] (rec : Recorder) (account : Contract) (s : State) :
    (s.setContract rec account).slots =
      (s.contract.write true rec account.owner (some ⟨account.owner, hash256 account.source, account.context⟩),
        (s.reconcileCode rec account).code) := by
  obtain ⟨code, hcode⟩ := reconcileCode_eq rec account s
  unfold setContract
  simp only [hcode]
  rfl

theorem slots_delContract [Crypto] (rec : Recorder) (a : Address) (s : State) :
    (s.delContract rec a).slots = (s.contract.write true rec a none, (s.releaseSlot rec a).code) := by
  obtain ⟨code, hcode⟩ := releaseSlot_eq rec a s
  unfold delContract
  simp only [hcode]
  rfl

theorem cur_setContract [Crypto] (rec : Recorder) (account : Contract) (s : State) :
    (s.setContract rec account).contract.cur =
      s.contract.cur.insert account.owner ⟨account.owner, hash256 account.source, account.context⟩ := by
  have hslots := congrArg (fun e => e.1.cur) (slots_setContract rec account s)
  refine hslots.trans (Bucket.ext_get fun a => ?_)
  rw [Versioned.cur_write, Bucket.get_insert]

theorem cur_delContract [Crypto] (rec : Recorder) (a : Address) (s : State) :
    (s.delContract rec a).contract.cur = s.contract.cur.erase a := by
  have hslots := congrArg (fun e => e.1.cur) (slots_delContract rec a s)
  refine hslots.trans (Bucket.ext_get fun b => ?_)
  rw [Versioned.cur_write, Bucket.get_erase]

end State

/-- **Who touches the slots**: storing one, dropping one, nothing else. -/
theorem Write.slots_cases [Crypto] (w : Write) (s : State) :
    (∃ rec account, w = .setContract rec account) ∨ (∃ rec a, w = .delContract rec a) ∨
      (w.step s).slots = s.slots := by
  cases w with
  | setContract rec account => exact .inl ⟨rec, account, rfl⟩
  | delContract rec a => exact .inr (.inl ⟨rec, a, rfl⟩)
  | registerPubKey rec a scheme pubKey =>
    right; right
    show (s.registerPubKey rec a (scheme :: pubKey)).slots = s.slots
    unfold State.registerPubKey
    split <;> rfl
  | pruneCommits tip =>
    right; right
    show (s.pruneCommits tip).slots = s.slots
    unfold State.pruneCommits
    split
    · rfl
    · exact State.slots_dropCommits _ s
  | setBalance | setBeacon | putCommit | consumeCommit | journalConsumed | notes | apply =>
    exact .inr (.inr rfl)

namespace State

/-! ## §2 — the bulk operations -/

section Bulk

variable [Crypto]

theorem slots_rebuildTrie (s : State) : s.rebuildTrie.slots = s.slots := by
  obtain ⟨trie, log, heq⟩ := exists_rebuildTrie_eq s
  rw [heq]
  rfl

/-- Seeding stores the sheet's slots into an empty table, unrecorded. -/
theorem slots_rebuildFromSheet (sheet : Sheet) (s : State) :
    (s.rebuildFromSheet sheet).slots =
      (sheet.contracts.foldl (fun t account => t.setContract none account) s.resetBuckets).slots := by
  unfold rebuildFromSheet
  rw [slots_rebuildTrie]
  rfl

/-- A predicate of the slots that storing a slot keeps holds after seeding. -/
theorem seeded {I : State → Prop} (hI : ∀ {t t' : State}, t'.slots = t.slots → I t → I t')
    (hset : ∀ t account, I t → I (t.setContract none account)) (hempty : I State.empty) (sheet : Sheet)
    (s : State) : I (s.rebuildFromSheet sheet) := by
  have hfold : ∀ (l : List Contract) (t : State), I t →
      I (l.foldl (fun t account => t.setContract none account) t) := by
    intro l
    induction l with
    | nil => exact fun t ht => ht
    | cons account l ih => exact fun t ht => ih _ (hset t account ht)
  exact hI (slots_rebuildFromSheet sheet s) (hfold _ _ (hI (t := State.empty) rfl hempty))

end Bulk

/-! ## §3 — a slot stands under its owner -/

/-- **`Housed s`** — every slot, current or remembered by a row, names the address it stands under. -/
def Housed (s : State) : Prop := s.contract.Holds fun a sc => sc.owner = a

theorem Housed.of_slots {s s' : State} (heq : s'.slots = s.slots) (h : s.Housed) : s'.Housed := by
  unfold Housed
  rw [show s'.contract = s.contract from congrArg Prod.fst heq]
  exact h

theorem Housed.owner {s : State} (h : s.Housed) {a : Address} {account : Contract}
    (hacc : s.view.contract a = some account) : account.owner = a := by
  obtain ⟨sc, hsc, rfl⟩ := Option.map_eq_some_iff.mp hacc
  exact h.cur a sc hsc

section Housed

variable [Crypto]

theorem Housed.setContract {s : State} (h : s.Housed) (rec : Recorder) (account : Contract) :
    (s.setContract rec account).Housed := by
  unfold Housed
  rw [show (s.setContract rec account).contract = _ from congrArg Prod.fst (slots_setContract rec account s)]
  apply h.write true rec
  rintro sc ⟨⟩
  rfl

end Housed
end State

/-- **Every write keeps slots under their owners.** -/
theorem Write.housed_step [Crypto] (w : Write) {s : State} (h : s.Housed) : (w.step s).Housed := by
  rcases w.slots_cases s with ⟨rec, account, rfl⟩ | ⟨rec, a, rfl⟩ | hsame
  · exact h.setContract rec account
  · unfold State.Housed
    rw [show ((Write.delContract rec a).step s).contract = _ from congrArg Prod.fst (s.slots_delContract rec a)]
    apply h.write true rec
    rintro sc ⟨⟩
  · exact h.of_slots hsame

namespace State

theorem housed_empty : State.empty.Housed := Versioned.holds_empty _

variable [Engine]

theorem Housed.exec {α : Type} {p : StateTxn α} {s s' : State} {a : α} (h : s.Housed)
    (hrun : p.exec s = .ok (a, s')) : s'.Housed :=
  Lib.Txn.run_preserves (I := Housed) (fun _ _ => trivial) (fun w _ _ ht => w.housed_step ht)
    (Lib.Txn.writes_any p) hrun h

theorem Housed.upgradesTo {cfg : Config} {blocks : List FullBlock} {s s' : State} (h : s.Housed)
    (hrun : UpgradesTo cfg s blocks s') : s'.Housed := by
  induction hrun with
  | nil => exact h
  | cons head _ ih => exact ih (h.exec head)

theorem housed_rebuildFromSheet (sheet : Sheet) (s : State) : (s.rebuildFromSheet sheet).Housed :=
  seeded Housed.of_slots (fun _ account h => h.setContract none account) housed_empty sheet s

/-- **In every state reached, a slot stands under its owner's address.** -/
theorem Reached.housed {s : State} (h : Reached s) : s.Housed := by
  induction h with
  | genesis hinit =>
    obtain ⟨g, _, hrun⟩ := initStateFromGenesis_eq_ok hinit
    exact housed_empty.exec hrun
  | upgrade _ hrun ih => exact ih.exec hrun
  | @unwind s h _ ih =>
    show (s.unwindHeight h).contract.Holds _
    rw [contract_unwindHeight]
    exact ih.revert true h
  | sheet sheet _ _ => exact housed_rebuildFromSheet sheet _
  | replay _ hrun _ =>
    exact (housed_rebuildFromSheet getGenesisSheet _).upgradesTo (upgradesTo_of_applyBlocks hrun)

end State

/-! ## §4 — reference counts -/

namespace State

/-- The stored reference count of a hash, zero when no module is stored under it. -/
def codeCount (s : State) (hash : Bytes32) : Nat := (s.code[hash]?).elim 0 Prod.fst

/-- How many slots refer to a hash. -/
def references (s : State) (hash : Bytes32) : Nat :=
  (s.contract.cur.toList.filter fun e => e.2.codeHash = hash).length

/-- What one slot adds to the references of a hash. -/
def refersTo (hash : Bytes32) (sc : StoredContract) : Nat := if sc.codeHash = hash then 1 else 0

theorem references_eq_total (s : State) (hash : Bytes32) :
    s.references hash = Bucket.total (fun _ sc => refersTo hash sc) s.contract.cur := by
  unfold references Bucket.total
  induction s.contract.cur.toList with
  | nil => rfl
  | cons e l ih =>
    rw [List.filter_cons, List.map_cons, List.sum_cons, ← ih]
    unfold refersTo
    by_cases hsame : e.2.codeHash = hash
    · simp [hsame, Nat.add_comm]
    · simp [hsame]

/-- A slot write moves the references by what stood there and what stands there now. -/
theorem references_write {s s' : State} {rec : Recorder} {a : Address} {o : Option StoredContract}
    (hs' : s'.contract = s.contract.write true rec a o) (hash : Bytes32) :
    s'.references hash + (s.contract.cur[a]?).elim 0 (refersTo hash) =
      s.references hash + o.elim 0 (refersTo hash) := by
  have hcur : s'.contract.cur = Bucket.set s.contract.cur a o := by
    rw [hs']
    show Bucket.set (s.contract.record true rec a s.contract.cur[a]?).cur a o = _
    rw [Versioned.cur_record]
  rw [references_eq_total, references_eq_total, hcur]
  exact Bucket.total_set_add _ s.contract.cur a o

theorem codeCount_retainCode (codeHash : Bytes32) (source : Bytes) (s : State) (hash : Bytes32) :
    (s.retainCode codeHash source).codeCount hash = s.codeCount hash + if codeHash = hash then 1 else 0 := by
  unfold codeCount retainCode
  by_cases hsame : codeHash = hash
  · subst hsame
    cases hcode : s.code[codeHash]? with
    | none => simp
    | some e => simp
  · cases hcode : s.code[codeHash]? with
    | none => simp [hsame]
    | some e => simp [hsame]

/-- A released reference is taken off, the last one with its module. -/
theorem codeCount_releaseCode (codeHash : Bytes32) (keep : Bool) (s : State) (hash : Bytes32) :
    (s.releaseCode codeHash keep).codeCount hash = s.codeCount hash - if codeHash = hash then 1 else 0 := by
  unfold codeCount releaseCode
  by_cases hsame : codeHash = hash
  · subst hsame
    cases hcode : s.code[codeHash]? with
    | none => simp [hcode]
    | some e =>
      by_cases hlast : e.1 ≤ 1 ∧ keep = false
      · simp [hlast]
      · simp [hlast]
  · cases hcode : s.code[codeHash]? with
    | none => simp [hsame]
    | some e =>
      by_cases hlast : e.1 ≤ 1 ∧ keep = false
      · simp [hlast, hsame]
      · simp [hlast, hsame]

/-- **`Counted s`** — the stored counts are the references, and a stored module has one. -/
structure Counted (s : State) : Prop where
  exact : ∀ hash, s.codeCount hash = s.references hash
  kept : ∀ (hash : Bytes32) (e : Nat × Bytes), s.code[hash]? = some e → 0 < e.1

theorem Counted.of_slots {s s' : State} (heq : s'.slots = s.slots) (h : s.Counted) : s'.Counted := by
  obtain ⟨hcontract, hcode⟩ := Prod.mk.inj heq
  refine ⟨?_, ?_⟩
  · intro hash
    unfold codeCount references
    rw [hcode, hcontract]
    exact h.exact hash
  · rw [hcode]
    exact h.kept

theorem counted_empty : State.empty.Counted := by
  refine ⟨fun _ => rfl, ?_⟩
  intro hash e he
  simp [State.empty] at he

theorem Counted.stored {s : State} (h : s.Counted) {a : Address} {sc : StoredContract}
    (hsc : s.contract.cur[a]? = some sc) : s.code[sc.codeHash]? ≠ none := by
  intro hnone
  have hcount : s.references sc.codeHash = 0 := by
    rw [← h.exact, codeCount, hnone]
    rfl
  have hmem : (a, sc) ∈ s.contract.cur.toList.filter fun e => e.2.codeHash = sc.codeHash := by
    rw [List.mem_filter]
    exact ⟨(Bucket.mem_toList_iff _ _ _).mpr hsc, by simp⟩
  rw [references, List.length_eq_zero_iff] at hcount
  rw [hcount] at hmem
  cases hmem

/-- The modules that are stored still have references after a retain. -/
theorem kept_retainCode {s : State} (h : ∀ (hash : Bytes32) (e : Nat × Bytes), s.code[hash]? = some e → 0 < e.1)
    (codeHash : Bytes32) (source : Bytes) (hash : Bytes32) (e : Nat × Bytes)
    (he : (s.retainCode codeHash source).code[hash]? = some e) : 0 < e.1 := by
  unfold retainCode at he
  split at he
  · rw [Bucket.get_insert] at he
    split at he
    · obtain rfl := Option.some.inj he
      exact Nat.one_pos
    · exact h hash e he
  · rw [Bucket.get_insert] at he
    split at he
    · obtain rfl := Option.some.inj he
      exact Nat.succ_pos _
    · exact h hash e he

/-- A release that keeps nothing for history deletes a module with its last reference. -/
theorem kept_releaseCode {s : State} (h : ∀ (hash : Bytes32) (e : Nat × Bytes), s.code[hash]? = some e → 0 < e.1)
    (codeHash : Bytes32) (hash : Bytes32) (e : Nat × Bytes)
    (he : (s.releaseCode codeHash false).code[hash]? = some e) : 0 < e.1 := by
  unfold releaseCode at he
  split at he
  · exact h hash e he
  · next refs code hcode =>
    split at he
    · rw [Bucket.get_erase] at he
      split at he
      · cases he
      · exact h hash e he
    · next hmore =>
      rw [Bucket.get_insert] at he
      split at he
      · obtain rfl := Option.some.inj he
        show 0 < refs - 1
        simp only [and_true, not_le] at hmore
        omega
      · exact h hash e he

section Counted

variable [Crypto]

theorem references_setContract (rec : Recorder) (account : Contract) (s : State) (hash : Bytes32) :
    (s.setContract rec account).references hash + (s.contract.cur[account.owner]?).elim 0 (refersTo hash) =
      s.references hash + if hash256 account.source = hash then 1 else 0 :=
  references_write (congrArg Prod.fst (slots_setContract rec account s)) hash

/-- **Storing a slot, unrecorded, keeps the counts exact.** -/
theorem Counted.setContract {s : State} (h : s.Counted) (account : Contract) :
    (s.setContract none account).Counted := by
  have hcode : (s.setContract none account).code = (s.reconcileCode none account).code :=
    congrArg Prod.snd (slots_setContract none account s)
  have hcount : ∀ hash, (s.setContract none account).codeCount hash =
      (s.reconcileCode none account).codeCount hash := fun hash => by rw [codeCount, hcode, codeCount]
  have hrefs := references_setContract none account s
  refine ⟨?_, ?_⟩
  · intro hash
    have hmoved := hrefs hash
    have hbefore := h.exact hash
    rw [hcount]
    unfold reconcileCode
    dsimp only
    -- the slot is new, keeps its code, or changes it
    cases hold : s.contract.cur[account.owner]? with
    | none =>
      rw [hold] at hmoved
      rw [codeCount_retainCode]
      simp only [Option.elim] at hmoved
      omega
    | some old =>
      rw [hold] at hmoved
      simp only [Option.elim, refersTo] at hmoved
      by_cases hsame : old.codeHash = hash256 account.source
      · rw [hsame] at hmoved
        simp only [hsame, if_true]
        omega
      · simp only [hsame, if_false, Option.isSome_none]
        rw [codeCount_retainCode, codeCount_releaseCode]
        by_cases hgone : old.codeHash = hash
        · have hother : hash256 account.source ≠ hash := fun hnew => hsame (hgone.trans hnew.symm)
          rw [if_pos hgone, if_neg hother] at hmoved ⊢
          omega
        · rw [if_neg hgone] at hmoved ⊢
          omega
  · rw [hcode]
    unfold reconcileCode
    dsimp only
    split
    · exact kept_retainCode h.kept _ _
    · split
      · exact h.kept
      · exact kept_retainCode (kept_releaseCode h.kept _) _ _

theorem Counted.delContract {s : State} (h : s.Counted) (a : Address) : (s.delContract none a).Counted := by
  have hcode : (s.delContract none a).code = (s.releaseSlot none a).code :=
    congrArg Prod.snd (slots_delContract none a s)
  have hrefs : ∀ hash, (s.delContract none a).references hash + (s.contract.cur[a]?).elim 0 (refersTo hash) =
      s.references hash + 0 := references_write (congrArg Prod.fst (slots_delContract none a s))
  refine ⟨?_, ?_⟩
  · intro hash
    have hmoved := hrefs hash
    have hbefore := h.exact hash
    rw [show (s.delContract none a).codeCount hash = (s.releaseSlot none a).codeCount hash by
      rw [codeCount, hcode, codeCount]]
    unfold releaseSlot
    cases hold : s.contract.cur[a]? with
    | none =>
      rw [hold] at hmoved
      simp only [Option.elim] at hmoved
      show s.codeCount hash = _
      omega
    | some old =>
      rw [hold] at hmoved
      simp only [Option.elim, refersTo] at hmoved
      show (s.releaseCode old.codeHash false).codeCount hash = _
      rw [codeCount_releaseCode]
      omega
  · rw [hcode]
    unfold releaseSlot
    split
    · exact h.kept
    · exact kept_releaseCode h.kept _

end Counted
end State

theorem Write.counted_step [Crypto] {p : Bytes → Prop} {N : List RunNote → Prop} {w : Write}
    (hw : w.Permitted none p N) {s : State} (h : s.Counted) : (w.step s).Counted := by
  rcases w.slots_cases s with ⟨rec, account, rfl⟩ | ⟨rec, a, rfl⟩ | hsame
  · obtain rfl : rec = none := hw.1
    exact h.setContract account
  · obtain rfl : rec = none := hw
    exact h.delContract a
  · exact h.of_slots hsame

/-! ## §5 — stored code hashes to its key -/

namespace State

variable [Crypto]

/-- **`Genuine s`** — every stored module hashes to the key it is stored under. -/
def Genuine (s : State) : Prop := ∀ (hash : Bytes32) (e : Nat × Bytes), s.code[hash]? = some e → hash256 e.2 = hash

theorem Genuine.of_slots {s s' : State} (heq : s'.slots = s.slots) (h : s.Genuine) : s'.Genuine := by
  unfold Genuine
  rw [show s'.code = s.code from congrArg Prod.snd heq]
  exact h

theorem genuine_empty : State.empty.Genuine := by
  intro hash e he
  simp [State.empty] at he

theorem Genuine.retainCode {s : State} (h : s.Genuine) (source : Bytes) :
    (s.retainCode (hash256 source) source).Genuine := by
  unfold State.retainCode
  split
  · intro hash e he
    rw [Bucket.get_insert] at he
    split at he
    · next hkey =>
      obtain rfl := Option.some.inj he
      exact hkey
    · exact h hash e he
  · next refs code hcode =>
    intro hash e he
    rw [Bucket.get_insert] at he
    split at he
    · next hkey =>
      obtain rfl := Option.some.inj he
      rw [← hkey]
      exact h _ (refs, code) hcode
    · exact h hash e he

theorem Genuine.releaseCode {s : State} (h : s.Genuine) (codeHash : Bytes32) (keep : Bool) :
    (s.releaseCode codeHash keep).Genuine := by
  unfold State.releaseCode
  split
  · exact h
  · next refs code hcode =>
    split
    · intro hash e he
      rw [Bucket.get_erase] at he
      split at he
      · cases he
      · exact h hash e he
    · intro hash e he
      rw [Bucket.get_insert] at he
      split at he
      · next hkey =>
        obtain rfl := Option.some.inj he
        rw [← hkey]
        exact h codeHash (refs, code) hcode
      · exact h hash e he

theorem Genuine.setContract {s : State} (h : s.Genuine) (rec : Recorder) (account : Contract) :
    (s.setContract rec account).Genuine := by
  unfold Genuine
  rw [show (s.setContract rec account).code = _ from congrArg Prod.snd (slots_setContract rec account s)]
  unfold reconcileCode
  dsimp only
  split
  · exact h.retainCode _
  · split
    · exact h
    · exact (h.releaseCode _ _).retainCode _

end State

theorem Write.genuine_step [Crypto] (w : Write) {s : State} (h : s.Genuine) : (w.step s).Genuine := by
  rcases w.slots_cases s with ⟨rec, account, rfl⟩ | ⟨rec, a, rfl⟩ | hsame
  · exact h.setContract rec account
  · unfold State.Genuine
    rw [show ((Write.delContract rec a).step s).code = _ from congrArg Prod.snd (s.slots_delContract rec a)]
    unfold State.releaseSlot
    split
    · exact h
    · exact h.releaseCode _ _
  · exact h.of_slots hsame

/-! ## §6 — every state of a node whose archive flag is fixed -/

namespace State

variable [Engine]

/-- **`Operated cfg s`** — the states a database of this configuration reaches from genesis by applying
blocks, unwinding, seeding with a sheet and replaying. -/
inductive Operated (cfg : Config) : State → Prop where
  | genesis {s : State} : initStateFromGenesis cfg = .ok s → Operated cfg s
  | upgrade {block : FullBlock} {s s' : State} : Operated cfg s →
      (NgCore.upgrade cfg block).exec s = .ok ((), s') → Operated cfg s'
  | unwind {tip target : Nat} {s s' : State} : Operated cfg s → unwindTo cfg tip target s = some s' →
      Operated cfg s'
  | sheet {s : State} (sheet : Sheet) : Operated cfg s → Operated cfg (s.rebuildFromSheet sheet)
  | replay {blocks : List FullBlock} {s s' : State} : Operated cfg s →
      rebuildFromBlocks cfg blocks s = .ok s' → Operated cfg s'

/-- What holds of the registry: modules hash to their keys; an archive keeps the modules of all slots, past
ones included; without an archive the counts are exact. -/
structure Sheltered (cfg : Config) (s : State) : Prop where
  genuine : s.Genuine
  coded : cfg.archive = true → s.Coded
  counted : cfg.archive = false → s.Counted

/-- **A block's writes keep the registry sound.** -/
theorem Sheltered.step {cfg : Config} {height : Nat} {p : Bytes → Prop} {N : List RunNote → Prop} {w : Write}
    (hw : w.Permitted (cfg.recorder height) p N) {s : State} (h : s.Sheltered cfg) : (w.step s).Sheltered cfg where
  genuine := w.genuine_step h.genuine
  coded harchive := by
    rw [show cfg.recorder height = some height from if_pos harchive] at hw
    exact (w.coded_step hw (h.coded harchive)).1
  counted harchive := by
    rw [show cfg.recorder height = none from if_neg (by simp [harchive])] at hw
    exact w.counted_step hw (h.counted harchive)

theorem Sheltered.upgrade {cfg : Config} {block : FullBlock} {s s' : State} (h : s.Sheltered cfg)
    (hrun : (NgCore.upgrade cfg block).exec s = .ok ((), s')) : s'.Sheltered cfg :=
  Lib.Txn.run_preserves (I := Sheltered cfg) (fun _ _ => trivial) (fun _ _ hw ht => ht.step hw)
    (writes_upgrade walks_any cfg fun _ _ _ _ _ => trivial) hrun h

theorem Sheltered.upgradesTo {cfg : Config} {blocks : List FullBlock} {s s' : State} (h : s.Sheltered cfg)
    (hrun : UpgradesTo cfg s blocks s') : s'.Sheltered cfg := by
  induction hrun with
  | nil => exact h
  | cons head _ ih => exact ih (h.upgrade head)

theorem sheltered_empty (cfg : Config) : State.empty.Sheltered cfg where
  genuine := genuine_empty
  coded _ := (kept_empty rfl).coded
  counted _ := counted_empty

/-- **A seeded database**: its table was empty, so the counts are exact and no row remembers a slot. -/
theorem sheltered_rebuildFromSheet (cfg : Config) (sheet : Sheet) (s : State) :
    (s.rebuildFromSheet sheet).Sheltered cfg := by
  have hcounted : (s.rebuildFromSheet sheet).Counted :=
    seeded Counted.of_slots (fun _ account h => h.setContract account) counted_empty sheet s
  have hrows : (s.rebuildFromSheet sheet).contract.cs = ∅ := by
    refine seeded (I := fun t => t.contract.cs = ∅) ?_ ?_ rfl sheet s
    · intro t t' heq h
      rw [show t'.contract = t.contract from congrArg Prod.fst heq]
      exact h
    · intro t account h
      rw [show (t.setContract none account).contract = _ from congrArg Prod.fst (slots_setContract none account t)]
      exact h
  refine ⟨?_, fun _ => ⟨fun a sc hsc => hcounted.stored hsc, ?_⟩, fun _ => hcounted⟩
  · exact seeded Genuine.of_slots (fun _ account h => h.setContract none account) genuine_empty sheet s
  · intro h a sc hsc
    rw [hrows] at hsc
    simp at hsc

theorem Sheltered.unwindHeights {cfg : Config} (harchive : cfg.archive = true) (target depth : Nat) {s : State}
    (h : s.Sheltered cfg) : (s.unwindHeights target depth).Sheltered cfg := by
  induction depth generalizing s with
  | zero => exact h
  | succ depth ih =>
    apply ih
    refine ⟨?_, fun _ => (h.coded harchive).unwindHeight _, fun hoff => ?_⟩
    · unfold Genuine
      rw [code_unwindHeight]
      exact h.genuine
    · rw [harchive] at hoff
      cases hoff

theorem Operated.sheltered {cfg : Config} {s : State} (h : Operated cfg s) : s.Sheltered cfg := by
  induction h with
  | genesis hinit =>
    obtain ⟨g, _, hrun⟩ := initStateFromGenesis_eq_ok hinit
    exact (sheltered_empty cfg).upgrade hrun
  | upgrade _ hrun ih => exact ih.upgrade hrun
  | @unwind tip target s s' _ hunwind ih =>
    -- only an archive unwinds
    unfold unwindTo at hunwind
    split at hunwind
    · cases hunwind
    · next harchive =>
      split at hunwind
      · obtain rfl := Option.some.inj hunwind
        exact ih
      · split at hunwind
        · cases hunwind
        · obtain rfl := Option.some.inj hunwind
          exact ih.unwindHeights (by simpa using harchive) target _
  | sheet sheet _ _ => exact sheltered_rebuildFromSheet cfg sheet _
  | replay _ hrun _ =>
    exact (sheltered_rebuildFromSheet cfg getGenesisSheet _).upgradesTo (upgradesTo_of_applyBlocks hrun)

/-- **The code store is sound**: every slot's hash resolves to a module that hashes to it; and without an
archive the stored count of a module is the number of slots that refer to it, never zero. -/
theorem Operated.code_sound {cfg : Config} {s : State} (h : Operated cfg s) :
    (∀ (a : Address) (sc : StoredContract), s.contract.cur[a]? = some sc →
      ∃ refs code, s.code[sc.codeHash]? = some (refs, code) ∧ hash256 code = sc.codeHash) ∧
    (cfg.archive = false → ∀ (hash : Bytes32) (refs : Nat) (code : Bytes), s.code[hash]? = some (refs, code) →
      refs = s.references hash ∧ 0 < refs) := by
  have hs := h.sheltered
  constructor
  · intro a sc hsc
    have hstored : s.code[sc.codeHash]? ≠ none := by
      cases harchive : cfg.archive with
      | true => exact (hs.coded harchive).cur a sc hsc
      | false => exact (hs.counted harchive).stored hsc
    obtain ⟨⟨refs, code⟩, hcode⟩ := Option.ne_none_iff_exists'.mp hstored
    exact ⟨refs, code, hcode, hs.genuine _ _ hcode⟩
  · intro harchive hash refs code hcode
    have hcounted := hs.counted harchive
    refine ⟨?_, hcounted.kept hash (refs, code) hcode⟩
    rw [← hcounted.exact, codeCount, hcode]
    rfl

theorem Operated.upgradesTo {cfg : Config} {blocks : List FullBlock} {s s' : State} (h : Operated cfg s)
    (hrun : UpgradesTo cfg s blocks s') : Operated cfg s' := by
  induction hrun with
  | nil => exact h
  | cons head _ ih => exact ih (h.upgrade head)

end State

/-- Keys 1 and 2 deploy the same module. -/
def sharedChain : List FullBlock :=
  letI := Crypto.ofHash handHash
  let b1 := handSeal handGenesis 1 [] []
  let b2 := handSeal b1 2 [] [handCommit 1 2 0 (handDeploy 1 3 idleCode), handCommit 2 2 0 (handDeploy 2 3 idleCode)]
  [b1, b2, handSeal b2 3 [handDeploy 1 3 idleCode, handDeploy 2 3 idleCode] []]

/-- Two slots share one stored module. -/
theorem code_sound_sharedChain :
    letI := Engine.byHand idleTable
    ∃ s, State.Operated ⟨ZERONET, false⟩ s ∧ s.references (hash256 idleCode) = 2 ∧
      (∀ (a : Address) (sc : StoredContract), s.contract.cur[a]? = some sc →
        ∃ refs code, s.code[sc.codeHash]? = some (refs, code) ∧ hash256 code = sc.codeHash) ∧
      ((⟨ZERONET, false⟩ : Config).archive = false → ∀ (hash : Bytes32) (refs : Nat) (code : Bytes),
        s.code[hash]? = some (refs, code) → refs = s.references hash ∧ 0 < refs) := by
  let _ := Engine.byHand idleTable
  have hrun := upgradesTo_of_upgradeAll (State.eq_after
    (x := upgradeAll ⟨ZERONET, false⟩ sharedChain (State.genesis false)) (by decide +kernel))
  have hoperated := (State.Operated.genesis (State.genesis_eq false)).upgradesTo hrun
  exact ⟨_, hoperated, by decide +kernel, hoperated.code_sound⟩

end NgCore
