/-
# NgCore.State.Undo — unwinding a height is exact outside the commit store

`ngstate/changeset.go`: an archive node records, before the first write of a height to a key, the value
the key had. Reverting the height therefore gives the balances, contract slots, key registry and beacon
back EXACTLY — whatever the block's contract runs did in between — with their changesets and history
indexes, and the commitment follows (`NgCore.State.LockStep`).

The code a slot refers to lives outside the slot. An archive node never deletes code, so a restored
slot still resolves to the module it had (`Coded`).

DELIVERABLE: `Stacked.unwindHeights_exact`.
-/
import NgCore.State.Discipline
import NgCore.State.Reached

namespace NgCore

open Lib (Bucket Versioned)

/-! ## §1 — what one block does to the four domains -/

/-- **`SinceState h s₀ s`** — in every versioned domain `s` is `s₀` after recorded writes at height `h`. -/
structure SinceState (h : Nat) (s₀ s : State) : Prop where
  bal : Versioned.Since true h s₀.bal s.bal
  contract : Versioned.Since true h s₀.contract s.contract
  key : Versioned.Since false h s₀.key s.key
  beacon : Versioned.Since false h s₀.beacon s.beacon

/-- Every row of the four domains stands below height `n`. -/
structure State.Below (n : Nat) (s : State) : Prop where
  bal : Versioned.Below true n s.bal
  contract : Versioned.Below true n s.contract
  key : Versioned.Below false n s.key
  beacon : Versioned.Below false n s.beacon

/-- What the undo records are about: the four domains, and the code registry beside them. -/
structure Stores where
  bal : Versioned Address Nat
  contract : Versioned Address StoredContract
  key : Versioned Address Bytes
  beacon : Versioned Unit Bytes
  code : Bucket Bytes32 (Nat × Bytes)

def State.stores (s : State) : Stores := ⟨s.bal, s.contract, s.key, s.beacon, s.code⟩

namespace State

theorem Below.sinceRefl {n : Nat} {s : State} (h : s.Below n) : SinceState n s s :=
  ⟨.refl h.bal.fresh, .refl h.contract.fresh, .refl h.key.fresh, .refl h.beacon.fresh⟩

theorem Below.since {n : Nat} {s₀ s : State} (h : s₀.Below n) (hs : SinceState n s₀ s) :
    s.Below (n + 1) :=
  ⟨h.bal.since hs.bal, h.contract.since hs.contract, h.key.since hs.key, h.beacon.since hs.beacon⟩

section Writes

variable [Crypto]

theorem stores_dropCommits (p : Nat → Bool) (s : State) : (s.dropCommits p).stores = s.stores := by
  unfold dropCommits
  induction s.commit.toList.filter _ generalizing s with
  | nil => rfl
  | cons e l ih =>
    rw [List.foldl_cons]
    exact ih (s.consumeCommit e.1.1 e.1.2)

theorem stores_restoreConsumed (h : Nat) (s : State) :
    (s.restoreConsumedAtHeight h).stores = s.stores := by
  unfold restoreConsumedAtHeight
  induction s.spent.toList.filter _ generalizing s with
  | nil => rfl
  | cons e l ih =>
    rw [List.foldl_cons]
    exact ih _

theorem stores_mirror {A V : Type} (leaf : A → LeafKey) (bytes : Option V → Bytes)
    (l : List (A × Option V)) (s : State) : (mirror leaf bytes l s).stores = s.stores := by
  rw [mirror_eq]
  obtain ⟨trie, log, h⟩ := setLeaves_eq _ s
  rw [h]
  rfl

end Writes
end State

/-- **Every permitted write of a height is recorded at it.** -/
theorem Write.since_step [Crypto] {h : Nat} {p : Bytes → Prop} {N : List RunNote → Prop} {w : Write}
    (hw : w.Permitted (some h) p N) {s₀ s : State} (hs : SinceState h s₀ s) :
    SinceState h s₀ (w.step s) := by
  cases w with
  | setBalance rec a v =>
    obtain rfl : rec = some h := hw
    exact ⟨hs.bal.write a _, hs.contract, hs.key, hs.beacon⟩
  | setContract rec account =>
    obtain rfl : rec = some h := hw.1
    obtain ⟨code, hcode⟩ := State.reconcileCode_eq (some h) account s
    show SinceState h s₀ (s.setContract (some h) account)
    unfold State.setContract
    simp only [hcode]
    exact ⟨hs.bal, hs.contract.write account.owner _, hs.key, hs.beacon⟩
  | delContract rec a =>
    obtain rfl : rec = some h := hw
    obtain ⟨code, hcode⟩ := State.releaseSlot_eq (some h) a s
    show SinceState h s₀ (s.delContract (some h) a)
    unfold State.delContract
    simp only [hcode]
    exact ⟨hs.bal, hs.contract.write a none, hs.key, hs.beacon⟩
  | registerPubKey rec a scheme pubKey =>
    obtain rfl : rec = some h := hw
    show SinceState h s₀ (s.registerPubKey (some h) a (scheme :: pubKey))
    unfold State.registerPubKey
    split
    · exact hs
    · next habsent =>
      -- the registry had no entry, so the recorded "absent" is the pre-image of an ordinary write
      have hnone : s.key.cur[a]? = none := by simpa using habsent
      have hwrite := hs.key.write a (some (scheme :: pubKey))
      unfold Versioned.write at hwrite
      rw [hnone] at hwrite
      exact ⟨hs.bal, hs.contract, hwrite, hs.beacon⟩
  | setBeacon rec seed =>
    obtain rfl : rec = some h := hw
    exact ⟨hs.bal, hs.contract, hs.key, hs.beacon.write () _⟩
  | pruneCommits tip =>
    show SinceState h s₀ (s.pruneCommits tip)
    unfold State.pruneCommits
    split
    · exact hs
    · have hsame := State.stores_dropCommits (fun h => h < tip - commitWindow) s
      obtain ⟨hbal, hcontract, hkey, hbeacon, -⟩ := Stores.mk.inj hsame
      exact ⟨hbal ▸ hs.bal, hcontract ▸ hs.contract, hkey ▸ hs.key, hbeacon ▸ hs.beacon⟩
  | putCommit | consumeCommit | journalConsumed | notes | apply =>
    exact ⟨hs.bal, hs.contract, hs.key, hs.beacon⟩

/-- Every write of a block of an archive node is recorded at the block's height. -/
theorem writes_upgrade_archive [Engine] {cfg : Config} (harchive : cfg.archive = true)
    (block : FullBlock) : (upgrade cfg block).Writes (fun _ => True)
      (Write.Permitted (some block.getHeight) (fun _ => True) fun _ => True) := by
  have hrec : cfg.recorder block.getHeight = some block.getHeight := if_pos harchive
  rw [← hrec]
  exact writes_upgrade walks_any cfg fun _ _ _ _ _ => trivial

/-- **One block of an archive node**, on a state whose rows stand below it. -/
theorem since_upgrade [Engine] {cfg : Config} (harchive : cfg.archive = true) {block : FullBlock}
    {s s' : State} (hrun : (upgrade cfg block).exec s = .ok ((), s')) (hs : s.Below block.getHeight) :
    SinceState block.getHeight s s' := by
  exact Lib.Txn.run_preserves (I := SinceState block.getHeight s) (fun _ _ => trivial)
    (fun w t hw ht => w.since_step hw ht) (writes_upgrade_archive harchive block) hrun hs.sinceRefl

/-! ## §2 — code outlives the slots of an archive node -/

/-- Code is only ever added: a stored module keeps its bytes. -/
def State.CodeGrows (s s' : State) : Prop :=
  ∀ (hash : Bytes32) (e : Nat × Bytes), s.code[hash]? = some e → ∃ refs, s'.code[hash]? = some (refs, e.2)

/-- **`Coded s`** — the code of every slot, current or remembered by a row, is stored. -/
structure State.Coded (s : State) : Prop where
  cur : ∀ (a : Address) (sc : StoredContract), s.contract.cur[a]? = some sc → s.code[sc.codeHash]? ≠ none
  rows : ∀ (h : Nat) (a : Address) (sc : StoredContract), s.contract.cs[(h, a)]? = some (some sc) →
    s.code[sc.codeHash]? ≠ none

namespace State

theorem CodeGrows.of_eq {s s' : State} (h : s'.code = s.code) : CodeGrows s s' :=
  fun hash e he => ⟨e.1, by rw [h]; exact he⟩

theorem CodeGrows.trans {s t u : State} (h : CodeGrows s t) (h' : CodeGrows t u) : CodeGrows s u := by
  intro hash e he
  obtain ⟨refs, ht⟩ := h hash e he
  exact h' hash (refs, e.2) ht

theorem CodeGrows.ne_none {s s' : State} (h : CodeGrows s s') {hash : Bytes32}
    (hs : s.code[hash]? ≠ none) : s'.code[hash]? ≠ none := by
  obtain ⟨e, he⟩ := Option.ne_none_iff_exists'.mp hs
  obtain ⟨refs, he'⟩ := h hash e he
  rw [he']
  exact Option.some_ne_none _

theorem codeGrows_retainCode (hash : Bytes32) (source : Bytes) (s : State) :
    CodeGrows s (s.retainCode hash source) ∧ (s.retainCode hash source).code[hash]? ≠ none := by
  unfold retainCode
  split
  · next hnone =>
    refine ⟨?_, by simp⟩
    intro hash' e he
    have hne : hash ≠ hash' := by
      rintro rfl
      rw [hnone] at he
      cases he
    exact ⟨e.1, by rw [Bucket.get_insert, if_neg hne]; exact he⟩
  · next refs code hsome =>
    refine ⟨?_, by simp⟩
    intro hash' e he
    by_cases hh : hash = hash'
    · subst hh
      rw [hsome] at he
      obtain rfl := Option.some.inj he
      exact ⟨refs + 1, by simp⟩
    · exact ⟨e.1, by rw [Bucket.get_insert, if_neg hh]; exact he⟩

/-- Kept for history, code is not deleted with its last reference. -/
theorem codeGrows_releaseCode (hash : Bytes32) (s : State) : CodeGrows s (s.releaseCode hash true) := by
  unfold releaseCode
  split
  · exact CodeGrows.of_eq rfl
  · next refs code hsome =>
    rw [if_neg (by simp)]
    intro hash' e he
    by_cases hh : hash = hash'
    · subst hh
      rw [hsome] at he
      obtain rfl := Option.some.inj he
      exact ⟨refs - 1, by simp⟩
    · exact ⟨e.1, by rw [Bucket.get_insert, if_neg hh]; exact he⟩

/-- A recorded write of a slot whose code is stored keeps all code stored. -/
theorem Coded.write {h : Nat} {s : State} (hs : s.Coded) {code : Bucket Bytes32 (Nat × Bytes)}
    (hgrows : CodeGrows s { s with code }) {a : Address} {o : Option StoredContract}
    (ho : ∀ sc, o = some sc → code[sc.codeHash]? ≠ none) :
    Coded { s with code, contract := s.contract.write true (some h) a o } where
  cur b sc hb := by
    rw [Versioned.cur_write] at hb
    split at hb
    · exact ho sc hb
    · exact hgrows.ne_none (hs.cur b sc hb)
  rows h' b sc hb := by
    rw [Versioned.cs_write] at hb
    split at hb
    · exact hgrows.ne_none (hs.cur a sc (Option.some.inj hb))
    · exact hgrows.ne_none (hs.rows h' b sc hb)

theorem Coded.of_same {s s' : State} (hs : s.Coded) (hcontract : s'.contract = s.contract)
    (hcode : s'.code = s.code) : s'.Coded :=
  ⟨by rw [hcontract, hcode]; exact hs.cur, by rw [hcontract, hcode]; exact hs.rows⟩

section Writes

variable [Crypto]

/-- After the registry part of `setContract` the new code is stored. -/
theorem codeGrows_reconcileCode {h : Nat} {account : Contract} {s : State} (hs : s.Coded) :
    CodeGrows s (s.reconcileCode (some h) account) ∧
      (s.reconcileCode (some h) account).code[hash256 account.source]? ≠ none := by
  unfold reconcileCode
  dsimp only
  split
  · exact codeGrows_retainCode _ _ s
  · next old hold =>
    split
    · next hsame =>
      rw [← hsame]
      exact ⟨CodeGrows.of_eq rfl, hs.cur _ old hold⟩
    · obtain ⟨hgrows, hnew⟩ := codeGrows_retainCode (hash256 account.source) account.source
        (s.releaseCode old.codeHash true)
      exact ⟨(codeGrows_releaseCode _ s).trans hgrows, hnew⟩

end Writes
end State

/-- **Every permitted write of an archive node keeps all code.** -/
theorem Write.coded_step [Crypto] {h : Nat} {p : Bytes → Prop} {N : List RunNote → Prop} {w : Write}
    (hw : w.Permitted (some h) p N) {s : State} (hs : s.Coded) :
    (w.step s).Coded ∧ State.CodeGrows s (w.step s) := by
  cases w with
  | setContract rec account =>
    obtain rfl : rec = some h := hw.1
    obtain ⟨hgrows, hnew⟩ := @State.codeGrows_reconcileCode _ h account s hs
    obtain ⟨code, hcode⟩ := State.reconcileCode_eq (some h) account s
    rw [hcode] at hgrows hnew
    show (s.setContract (some h) account).Coded ∧ State.CodeGrows s (s.setContract (some h) account)
    unfold State.setContract
    simp only [hcode]
    refine ⟨State.Coded.of_same (hs.write (h := h) (a := account.owner) hgrows ?_) rfl rfl, hgrows⟩
    rintro sc ⟨⟩
    exact hnew
  | delContract rec a =>
    obtain rfl : rec = some h := hw
    have hgrows : State.CodeGrows s (s.releaseSlot (some h) a) := by
      unfold State.releaseSlot
      split
      · exact State.CodeGrows.of_eq rfl
      · exact State.codeGrows_releaseCode _ s
    obtain ⟨code, hcode⟩ := State.releaseSlot_eq (some h) a s
    rw [hcode] at hgrows
    show (s.delContract (some h) a).Coded ∧ State.CodeGrows s (s.delContract (some h) a)
    unfold State.delContract
    simp only [hcode]
    refine ⟨State.Coded.of_same (hs.write (h := h) (a := a) hgrows ?_) rfl rfl, hgrows⟩
    rintro sc ⟨⟩
  | registerPubKey rec a scheme pubKey =>
    have hsame : (s.registerPubKey rec a (scheme :: pubKey)).contract = s.contract ∧
        (s.registerPubKey rec a (scheme :: pubKey)).code = s.code := by
      unfold State.registerPubKey
      split <;> exact ⟨rfl, rfl⟩
    exact ⟨hs.of_same hsame.1 hsame.2, State.CodeGrows.of_eq hsame.2⟩
  | pruneCommits tip =>
    have hsame : (s.pruneCommits tip).contract = s.contract ∧ (s.pruneCommits tip).code = s.code := by
      unfold State.pruneCommits
      split
      · exact ⟨rfl, rfl⟩
      · have hsame := State.stores_dropCommits (fun h => h < tip - commitWindow) s
        exact ⟨congrArg Stores.contract hsame, congrArg Stores.code hsame⟩
    exact ⟨hs.of_same hsame.1 hsame.2, State.CodeGrows.of_eq hsame.2⟩
  | setBalance | setBeacon | putCommit | consumeCommit | journalConsumed | notes | apply =>
    exact ⟨hs.of_same rfl rfl, State.CodeGrows.of_eq rfl⟩

theorem coded_upgrade [Engine] {cfg : Config} (harchive : cfg.archive = true) {block : FullBlock}
    {s s' : State} (hrun : (upgrade cfg block).exec s = .ok ((), s')) (hs : s.Coded) :
    s'.Coded ∧ State.CodeGrows s s' := by
  refine Lib.Txn.run_preserves (I := fun t => t.Coded ∧ State.CodeGrows s t) (fun _ _ => trivial) ?_
    (writes_upgrade_archive harchive block) hrun ⟨hs, State.CodeGrows.of_eq rfl⟩
  intro w t hw ht
  obtain ⟨hcoded, hgrows⟩ := w.coded_step hw ht.1
  exact ⟨hcoded, ht.2.trans hgrows⟩

/-! ## §3 — unwinding -/

namespace State

section Unwind

variable [Crypto]

/-- **`unwindHeight` is `revert` in every domain**, and leaves the code alone. -/
theorem stores_unwindHeight (h : Nat) (s : State) :
    (s.unwindHeight h).stores = ⟨s.bal.revert true h, s.contract.revert true h, s.key.revert false h,
      s.beacon.revert false h, s.code⟩ := by
  have hbal : ∀ s : State,
      (s.revertBalances h).stores = { s.stores with bal := s.stores.bal.revert true h } :=
    fun s => stores_mirror _ _ _ _
  have hcontract : ∀ s : State,
      (s.revertContracts h).stores = { s.stores with contract := s.stores.contract.revert true h } :=
    fun s => stores_mirror _ _ _ _
  have hkey : ∀ s : State,
      (s.revertKeys h).stores = { s.stores with key := s.stores.key.revert false h } :=
    fun s => stores_mirror _ _ _ _
  have hbeacon : ∀ s : State,
      (s.revertBeacon h).stores = { s.stores with beacon := s.stores.beacon.revert false h } :=
    fun s => stores_mirror _ _ _ _
  have happlied : ∀ s : State, (s.dropApplied h).stores = s.stores := fun _ => rfl
  rw [unwindHeight, happlied, hbeacon, stores_restoreConsumed, deleteCommitsAtHeight, stores_dropCommits, hkey, hcontract, hbal]
  rfl

section Fields

variable (h : Nat) (s : State)

theorem bal_unwindHeight : (s.unwindHeight h).bal = s.bal.revert true h :=
  (Stores.mk.inj (stores_unwindHeight h s)).1

theorem contract_unwindHeight : (s.unwindHeight h).contract = s.contract.revert true h :=
  (Stores.mk.inj (stores_unwindHeight h s)).2.1

theorem key_unwindHeight : (s.unwindHeight h).key = s.key.revert false h :=
  (Stores.mk.inj (stores_unwindHeight h s)).2.2.1

theorem beacon_unwindHeight : (s.unwindHeight h).beacon = s.beacon.revert false h :=
  (Stores.mk.inj (stores_unwindHeight h s)).2.2.2.1

theorem code_unwindHeight : (s.unwindHeight h).code = s.code :=
  (Stores.mk.inj (stores_unwindHeight h s)).2.2.2.2

end Fields

theorem unwindHeights_succ (target depth : Nat) (s : State) :
    s.unwindHeights target (depth + 1) = (s.unwindHeights (target + 1) depth).unwindHeight (target + 1) := by
  induction depth generalizing s with
  | zero => rfl
  | succ depth ih =>
    have htop : target + (depth + 1) + 1 = target + 1 + depth + 1 := by omega
    calc s.unwindHeights target (depth + 1 + 1)
        = (s.unwindHeight (target + (depth + 1) + 1)).unwindHeights target (depth + 1) := rfl
      _ = ((s.unwindHeight (target + (depth + 1) + 1)).unwindHeights (target + 1) depth).unwindHeight
            (target + 1) := ih _
      _ = (s.unwindHeights (target + 1) (depth + 1)).unwindHeight (target + 1) := by rw [htop]; rfl

theorem code_unwindHeights (target depth : Nat) (s : State) :
    (s.unwindHeights target depth).code = s.code := by
  induction depth generalizing s with
  | zero => rfl
  | succ depth ih =>
    rw [unwindHeights, ih, code_unwindHeight]

/-- The four domains are the same, rows and index included. -/
structure SameDomains (s t : State) : Prop where
  bal : s.bal = t.bal
  contract : s.contract = t.contract
  key : s.key = t.key
  beacon : s.beacon = t.beacon

/-- **Reverting a height gives back what was there before it.** -/
theorem SinceState.revert {n : Nat} {s t u : State} (hs : s.Below n) (hst : SinceState n s t)
    (hut : SameDomains u t) : SameDomains (u.unwindHeight n) s := by
  refine ⟨?_, ?_, ?_, ?_⟩
  · rw [bal_unwindHeight, hut.bal]
    exact Versioned.revert_eq hs.bal.fresh hst.bal
  · rw [contract_unwindHeight, hut.contract]
    exact Versioned.revert_eq hs.contract.fresh hst.contract
  · rw [key_unwindHeight, hut.key]
    exact Versioned.revert_eq hs.key.fresh hst.key
  · rw [beacon_unwindHeight, hut.beacon]
    exact Versioned.revert_eq hs.beacon.fresh hst.beacon

theorem Below.unwindHeight {n : Nat} {s : State} (hs : s.Below (n + 1)) :
    (s.unwindHeight n).Below n := by
  refine ⟨?_, ?_, ?_, ?_⟩
  · rw [bal_unwindHeight]
    exact hs.bal.revert
  · rw [contract_unwindHeight]
    exact hs.contract.revert
  · rw [key_unwindHeight]
    exact hs.key.revert
  · rw [beacon_unwindHeight]
    exact hs.beacon.revert

theorem Coded.unwindHeight {s : State} (hs : s.Coded) (n : Nat) : (s.unwindHeight n).Coded := by
  constructor
  · intro a sc hsc
    rw [contract_unwindHeight, Versioned.cur_revert] at hsc
    rw [code_unwindHeight]
    cases hrow : s.contract.cs[(n, a)]? with
    | none =>
      rw [hrow] at hsc
      exact hs.cur a sc hsc
    | some o =>
      rw [hrow] at hsc
      exact hs.rows n a sc (hrow.trans (congrArg some hsc))
  · intro h a sc hsc
    rw [contract_unwindHeight] at hsc
    rw [code_unwindHeight]
    exact hs.rows h a sc (Versioned.cs_of_cs_revert hsc)

end Unwind
end State

/-! ## §4 — runs of an archive node -/

section Runs

variable [Engine]

theorem upgradesTo_of_applyBlocks {cfg : Config} {blocks : List FullBlock} {s s' : State}
    (h : State.applyBlocks cfg blocks s = .ok s') : UpgradesTo cfg s blocks s' := by
  unfold State.applyBlocks at h
  induction blocks generalizing s with
  | nil =>
    cases h
    exact .nil
  | cons b blocks ih =>
    rw [List.foldlM_cons, bind_eq_ok] at h
    obtain ⟨t, hb, h⟩ := h
    obtain ⟨_, _, _, hrun, _⟩ := State.applyChecked_eq_ok hb
    exact .cons hrun (ih h)

/-- What is known of the undo records and the code of an archive state with `n` heights applied. -/
structure State.Kept (n : Nat) (s : State) : Prop where
  below : s.Below n
  coded : s.Coded

omit [Engine] in
theorem State.kept_empty {s : State} (h : s.stores = State.empty.stores) : s.Kept 0 := by
  obtain ⟨hbal, hcontract, hkey, hbeacon, hcode⟩ := Stores.mk.inj h
  have hnone : s.contract = Versioned.empty := hcontract
  refine ⟨⟨?_, ?_, ?_, ?_⟩, ?_, ?_⟩
  · rw [show s.bal = _ from hbal]
    exact Versioned.below_empty true
  · rw [hnone]
    exact Versioned.below_empty true
  · rw [show s.key = _ from hkey]
    exact Versioned.below_empty false
  · rw [show s.beacon = _ from hbeacon]
    exact Versioned.below_empty false
  · intro a sc hsc
    rw [hnone] at hsc
    simp [Versioned.empty] at hsc
  · intro h a sc hsc
    rw [hnone] at hsc
    simp [Versioned.empty] at hsc

variable {cfg : Config} (harchive : cfg.archive = true)
include harchive

theorem State.Kept.upgrade {n : Nat} {s s' : State} (h : s.Kept n) {block : FullBlock}
    (hheight : block.getHeight = n) (hrun : (NgCore.upgrade cfg block).exec s = .ok ((), s')) :
    s'.Kept (n + 1) := by
  subst hheight
  exact ⟨h.below.since (since_upgrade harchive hrun h.below), (coded_upgrade harchive hrun h.coded).1⟩

theorem State.Kept.upgradesTo {n : Nat} {s s' : State} (h : s.Kept n) {blocks : List FullBlock}
    (hheights : blocks.map FullBlock.getHeight = List.range' n blocks.length)
    (hrun : UpgradesTo cfg s blocks s') : s'.Kept (n + blocks.length) ∧ State.CodeGrows s s' := by
  induction hrun generalizing n with
  | nil => exact ⟨h, State.CodeGrows.of_eq rfl⟩
  | @cons s t u block blocks head tail ih =>
    rw [List.length_cons, List.range'_succ, List.map_cons, List.cons.injEq] at hheights
    obtain ⟨hkept, hgrows⟩ := ih (h.upgrade harchive hheights.1 head) hheights.2
    refine ⟨?_, (coded_upgrade harchive head h.coded).2.trans hgrows⟩
    rw [List.length_cons, ← Nat.add_assoc, Nat.add_right_comm]
    exact hkept

/-- **Applying a run and unwinding it gives the four domains back.** -/
theorem sameDomains_unwindHeights {n : Nat} {s s' : State} (h : s.Kept (n + 1))
    {blocks : List FullBlock}
    (hheights : blocks.map FullBlock.getHeight = List.range' (n + 1) blocks.length)
    (hrun : UpgradesTo cfg s blocks s') :
    State.SameDomains (s'.unwindHeights n blocks.length) s := by
  induction hrun generalizing n with
  | nil => exact ⟨rfl, rfl, rfl, rfl⟩
  | @cons s t u block blocks head tail ih =>
    rw [List.length_cons, List.range'_succ, List.map_cons, List.cons.injEq] at hheights
    have habove := ih (h.upgrade harchive hheights.1 head) hheights.2
    rw [List.length_cons, State.unwindHeights_succ]
    have hsince := since_upgrade harchive head (by rw [hheights.1]; exact h.below)
    rw [hheights.1] at hsince
    exact State.SinceState.revert h.below hsince habove

/-! ## §5 — every archive state -/

omit harchive in
theorem State.stores_rebuildFromGenesisSheet (s : State) :
    (s.rebuildFromSheet State.getGenesisSheet).stores = State.empty.stores := by
  unfold State.rebuildFromSheet
  obtain ⟨trie, log, heq⟩ := State.exists_rebuildTrie_eq (s.resetBuckets.initFromSheet State.getGenesisSheet)
  rw [heq]
  rfl

omit harchive in
/-- **`Stacked cfg n s`** — the states a node of this configuration reaches at tip `n`: from the genesis
block by applying the next block, unwinding the top one, or replaying a whole chain. -/
inductive Stacked (cfg : Config) : Nat → State → Prop where
  | genesis {s : State} : State.initStateFromGenesis cfg = .ok s → Stacked cfg 0 s
  | apply {n : Nat} {s s' : State} {block : FullBlock} : Stacked cfg n s → block.getHeight = n + 1 →
      (upgrade cfg block).exec s = .ok ((), s') → Stacked cfg (n + 1) s'
  | unwind {n : Nat} {s : State} : Stacked cfg (n + 1) s → Stacked cfg n (s.unwindHeight (n + 1))
  | replay {m n : Nat} {s s' : State} {blocks : List FullBlock} : Stacked cfg m s →
      blocks.map FullBlock.getHeight = List.range' 0 (n + 1) →
      State.rebuildFromBlocks cfg blocks s = .ok s' → Stacked cfg n s'

omit harchive in
theorem Stacked.reached {n : Nat} {s : State} (h : Stacked cfg n s) : State.Reached s := by
  induction h with
  | genesis hinit => exact .genesis hinit
  | apply _ _ hrun ih => exact .upgrade ih hrun
  | unwind _ ih => exact .unwind _ ih
  | replay _ _ hrun ih => exact .replay ih hrun

/-- The undo records of an archive node reach exactly to its tip, and its code is complete. -/
theorem Stacked.kept {n : Nat} {s : State} (h : Stacked cfg n s) : s.Kept (n + 1) := by
  induction h with
  | genesis hinit =>
    obtain ⟨g, hg, hrun⟩ := State.initStateFromGenesis_eq_ok hinit
    exact (State.kept_empty rfl).upgrade harchive (getGenesisBlock_ok hg).2.1 hrun
  | apply _ hheight hrun ih => exact ih.upgrade harchive hheight hrun
  | unwind _ ih => exact ⟨ih.below.unwindHeight, ih.coded.unwindHeight _⟩
  | @replay m n s s' blocks _ hheights hrun ih =>
    have hlength : blocks.length = n + 1 := by simpa using congrArg List.length hheights
    have hkept := (State.kept_empty (State.stores_rebuildFromGenesisSheet s)).upgradesTo harchive
      (by rw [hheights, hlength]) (upgradesTo_of_applyBlocks hrun)
    rw [hlength, Nat.zero_add] at hkept
    exact hkept.1

/-! ### the commitment -/

omit harchive in
theorem UpgradesTo.follows {K : Set LeafKey} (hK : Set.InjOn LeafKey.path K) {s s' : State}
    {blocks : List FullBlock} (hrun : UpgradesTo cfg s blocks s') : State.Follows K s s' := by
  induction hrun with
  | nil => exact State.Follows.refl _
  | cons head _ ih => exact (State.follows_exec hK head).trans ih

omit harchive [Engine] in
theorem State.follows_unwindHeights [Crypto] {K : Set LeafKey} (hK : Set.InjOn LeafKey.path K)
    (target depth : Nat) (s : State) : State.Follows K s (s.unwindHeights target depth) := by
  induction depth generalizing s with
  | zero => exact State.Follows.refl s
  | succ depth ih => exact (State.follows_unwindHeight hK _ s).trans (ih _)

omit harchive [Engine] in
/-- Two commitments agree on a path when the entries standing there agree. -/
theorem State.Tracks.leafAt_eq [Crypto] {K : Set LeafKey} {store store' : Statetrie.NodeStore}
    {f f' : LeafKey → Option Bytes} (h : State.Tracks K store f) (h' : State.Tracks K store' f')
    {p : Bytes32} (hsame : ∀ k ∈ K, k.path = p → f k = f' k) :
    Statetrie.leafAt store p = Statetrie.leafAt store' p := by
  obtain ⟨vh, hcommits, hin, hout, -⟩ := h
  obtain ⟨vh', hcommits', hin', hout', -⟩ := h'
  rw [hcommits.leafAt, hcommits'.leafAt]
  by_cases hp : ∃ k ∈ K, k.path = p
  · obtain ⟨k, hk, rfl⟩ := hp
    rw [hin k hk, hin' k hk, hsame k hk rfl]
  · have hne : ∀ k ∈ K, k.path ≠ p := fun k hk hkp => hp ⟨k, hk, hkp⟩
    rw [hout p hne, hout' p hne]

omit harchive [Engine] in
/-- The entries outside the commit store are read off the four domains. -/
theorem State.SameDomains.entry_eq {s t : State} (h : s.SameDomains t) {k : LeafKey}
    (hk : k.domain ≠ .commit) : s.entry k = t.entry k := by
  cases k with
  | balance a => simp only [State.entry, h.bal]
  | key a => simp only [State.entry, h.key]
  | contract a => simp only [State.entry, h.contract]
  | commit height hash => exact absurd rfl hk
  | beacon => simp only [State.entry, h.beacon]

omit harchive [Engine] in
/-- A slot resolves to the same module as long as its code is stored. -/
theorem State.getContract_of_codeGrows {s u : State} (hs : s.Coded) (hgrows : State.CodeGrows s u)
    (hcontract : u.contract = s.contract) (a : Address) : u.getContract a = s.getContract a := by
  unfold State.getContract
  rw [hcontract]
  cases hsc : s.contract.cur[a]? with
  | none => rfl
  | some sc =>
    obtain ⟨e, he⟩ := Option.ne_none_iff_exists'.mp (hs.cur a sc hsc)
    obtain ⟨refs, he'⟩ := hgrows sc.codeHash e he
    show some (u.decodeStoredContract sc) = some (s.decodeStoredContract sc)
    unfold State.decodeStoredContract State.loadCode
    rw [he, he']
    rfl

/-- **Unwinding is exact outside the commit store**: after any run of blocks on any archive state, taking
the heights off again gives back the balances, the contract slots and what they resolve to, the key
registry and the beacon, with every changeset row and history entry, and every leaf of the commitment
that is not a commitment record's. -/
theorem Stacked.unwindHeights_exact {n : Nat} {s s' : State} {blocks : List FullBlock}
    (h : Stacked cfg n s)
    (hheights : blocks.map FullBlock.getHeight = List.range' (n + 1) blocks.length)
    (hrun : UpgradesTo cfg s blocks s')
    (hinj : Set.InjOn LeafKey.path (s'.unwindHeights n blocks.length).touched) :
    let u := s'.unwindHeights n blocks.length
    u.bal = s.bal ∧ u.contract = s.contract ∧ (∀ a, u.getContract a = s.getContract a) ∧
      u.key = s.key ∧ u.beacon = s.beacon ∧
      ∀ p, (∀ k ∈ u.touched, k.domain = .commit → k.path ≠ p) →
        Statetrie.leafAt u.trie p = Statetrie.leafAt s.trie p := by
  intro u
  have hkept := h.kept harchive
  have hsame : u.SameDomains s := sameDomains_unwindHeights harchive hkept hheights hrun
  have hgrows : State.CodeGrows s u := (hkept.upgradesTo harchive hheights hrun).2.trans
    (State.CodeGrows.of_eq (State.code_unwindHeights n blocks.length s'))
  refine ⟨hsame.bal, hsame.contract, ?_, hsame.key, hsame.beacon, ?_⟩
  · exact State.getContract_of_codeGrows hkept.coded hgrows hsame.contract
  · intro p hp
    -- both states are in step with their commitment, over the leaves touched so far
    have hfollows := (hrun.follows hinj).trans (State.follows_unwindHeights hinj n blocks.length s')
    have hin : State.InStep u.touched s := h.reached.inStep hinj hfollows.1
    have hin' : State.InStep u.touched u := hfollows.2 subset_rfl hin
    refine hin'.tracks.leafAt_eq hin.tracks ?_
    intro k hk hkp
    exact hsame.entry_eq fun hdomain => hp k hk hdomain hkp

end Runs

/-- A mint and a beacon step at height one, applied to the genesis state and taken off again. -/
theorem mint_unwound_exact :
    letI := Engine.bare
    ∃ s', UpgradesTo ⟨ZERONET, true⟩ (State.genesis true) [handBlock 1 [handMint 1 genesisAddress 5] []] s' ∧
      s'.getBalance genesisAddress = (State.genesis true).getBalance genesisAddress + 5 ∧
      (s'.unwindHeights 0 1).bal = (State.genesis true).bal := by
  let _ := Engine.bare
  let block := handBlock 1 [handMint 1 genesisAddress 5] []
  have hrun := upgradesTo_of_upgradeAll (State.eq_after
    (x := upgradeAll ⟨ZERONET, true⟩ [block] (State.genesis true)) (by decide +kernel))
  refine ⟨_, hrun, by decide +kernel, ?_⟩
  exact (Stacked.unwindHeights_exact rfl (.genesis (State.genesis_eq true)) rfl hrun
    (State.injOn_touched (by decide +kernel))).1

end NgCore
