/-
# NgCore.State.Commits — what becomes of the commit store

The commit store has no changesets: two buckets, the pending commitments and the journal of what reveals spent,
are all there is. This module says what every operation does to them, read by read, so that later proofs never
unfold a loop over a bucket: dropping heights, pruning behind the window, undoing a height, and the writes of a
block, of which only four concern the store at all.
-/
import NgCore.State.Discipline
import NgCore.State.LockStep

namespace NgCore

open Lib (Bucket Txn)

/-! ## §1 — the loops -/

namespace State

/-- The commit store of a state: pending commitments and journal. -/
def commits (s : State) : Bucket (Nat × Bytes32) Address × Bucket (Nat × Bytes32) (Nat × Address) :=
  (s.commit, s.spent)

theorem commit_eq_of_commits {s t : State} (h : s.commits = t.commits) : s.commit = t.commit :=
  (Prod.mk.inj h).1

theorem spent_eq_of_commits {s t : State} (h : s.commits = t.commits) : s.spent = t.spent :=
  (Prod.mk.inj h).2

section Loops

variable [Crypto]

theorem commits_mirror {A V : Type} (leaf : A → LeafKey) (bytes : Option V → Bytes)
    (l : List (A × Option V)) (s : State) : (mirror leaf bytes l s).commits = s.commits := by
  unfold mirror
  induction l generalizing s with
  | nil => rfl
  | cons e l ih => exact ih (s.trieSetLeaf (leaf e.1) (bytes e.2))

theorem commits_consumeAll (l : List ((Nat × Bytes32) × Address)) (s : State) :
    (l.foldl (fun s e => s.consumeCommit e.1.1 e.1.2) s).commits =
      ((l.map Prod.fst).foldl (fun b k => b.erase k) s.commit, s.spent) := by
  induction l generalizing s with
  | nil => rfl
  | cons e l ih =>
    rw [List.foldl_cons, ih]
    rfl

/-- **Dropping** the commitments of some recording heights. -/
theorem commit_dropCommits (p : Nat → Bool) (s : State) (k : Nat × Bytes32) :
    (s.dropCommits p).commit[k]? = if p k.1 = true then none else s.commit[k]? := by
  have h : (s.dropCommits p).commit = _ :=
    congrArg Prod.fst (commits_consumeAll (s.commit.toList.filter fun e => p e.1.1) s)
  rw [h]
  exact Bucket.get_foldl_erase_filter (fun k => p k.1) s.commit k

theorem spent_dropCommits (p : Nat → Bool) (s : State) : (s.dropCommits p).spent = s.spent :=
  congrArg Prod.snd (commits_consumeAll (s.commit.toList.filter fun e => p e.1.1) s)

/-- **Pruning** drops what was recorded below the window. -/
theorem commit_pruneCommits (tip : Nat) (s : State) (k : Nat × Bytes32) :
    (s.pruneCommits tip).commit[k]? = if k.1 + commitWindow < tip then none else s.commit[k]? := by
  unfold pruneCommits
  split
  · next hle => rw [if_neg (by omega)]
  · next hgt =>
    show (s.dropCommits fun h => h < tip - commitWindow).commit[k]? = _
    rw [commit_dropCommits]
    have : k.1 < tip - commitWindow ↔ k.1 + commitWindow < tip := by omega
    simp only [decide_eq_true_eq, this]

theorem spent_pruneCommits (tip : Nat) (s : State) (k : Nat × Bytes32) :
    (s.pruneCommits tip).spent[k]? = if k.1 + commitWindow < tip then none else s.spent[k]? := by
  unfold pruneCommits
  split
  · next hle => rw [if_neg (by omega)]
  · next hgt =>
    have herase := Bucket.get_foldl_erase_filter (fun k => decide (k.1 < tip - commitWindow)) s.spent k
    rw [List.foldl_map] at herase
    have hlt : k.1 < tip - commitWindow ↔ k.1 + commitWindow < tip := by omega
    simp only [decide_eq_true_eq, hlt] at herase
    rw [← herase]
    simp only [spent_dropCommits]

/-- One journal row, put back. -/
def restoreRow (h : Nat) (s : State) (e : (Nat × Bytes32) × Nat × Address) : State :=
  let s := s.putCommit e.2.1 e.1.2 e.2.2
  { s with spent := s.spent.erase (h, e.1.2) }

theorem commit_restoreRows (h : Nat) {l : List ((Nat × Bytes32) × Nat × Address)}
    (hl : (l.map fun e => e.1.2).Nodup) (s : State) :
    (∀ e ∈ l, (l.foldl (restoreRow h) s).commit[(e.2.1, e.1.2)]? = some e.2.2) ∧
      ∀ k : Nat × Bytes32, (∀ e ∈ l, (e.2.1, e.1.2) ≠ k) → (l.foldl (restoreRow h) s).commit[k]? = s.commit[k]? := by
  induction l generalizing s with
  | nil => exact ⟨fun e he => absurd he List.not_mem_nil, fun _ _ => rfl⟩
  | cons e l ih =>
    rw [List.map_cons, List.nodup_cons] at hl
    rcases ih hl.2 (restoreRow h s e) with ⟨hrows, hother⟩
    have hput : ∀ k : Nat × Bytes32, (restoreRow h s e).commit[k]? =
        if (e.2.1, e.1.2) = k then some e.2.2 else s.commit[k]? :=
      fun k => Bucket.get_insert s.commit _ k _
    rw [List.foldl_cons]
    constructor
    · intro e' he'
      rcases List.mem_cons.mp he' with rfl | he'
      · -- no later row has its hash
        rw [hother, hput, if_pos rfl]
        intro e'' he'' heq
        exact hl.1 (List.mem_map.mpr ⟨e'', he'', (Prod.mk.inj heq).2⟩)
      · exact hrows e' he'
    · intro k hk
      rw [hother k fun e' he' => hk e' (List.mem_cons_of_mem e he'), hput, if_neg (hk e List.mem_cons_self)]

theorem spent_restoreRows (h : Nat) (l : List ((Nat × Bytes32) × Nat × Address)) (s : State) :
    (l.foldl (restoreRow h) s).spent = (l.map fun e => (h, e.1.2)).foldl (fun b k => b.erase k) s.spent := by
  induction l generalizing s with
  | nil => rfl
  | cons e l ih =>
    rw [List.foldl_cons, ih]
    rfl

omit [Crypto] in
theorem nodup_spentAt (h : Nat) (s : State) :
    ((s.spent.toList.filter fun e => e.1.1 = h).map fun e => e.1.2).Nodup := by
  have hkeys := (Bucket.nodup_keys s.spent).sublist
    (List.Sublist.map Prod.fst (List.filter_sublist (p := fun e => decide (e.1.1 = h))))
  refine List.pairwise_map.mpr ((List.pairwise_map.mp hkeys).imp_of_mem fun {e e'} he he' hne heq => ?_)
  refine hne (Prod.ext ?_ heq)
  have h₁ := of_decide_eq_true (List.mem_filter.mp he).2
  have h₂ := of_decide_eq_true (List.mem_filter.mp he').2
  exact h₁.trans h₂.symm

/-- **Restoring** puts every journal row of the height back where it was recorded. -/
theorem commit_restoreConsumed (h : Nat) (s : State) (k : Nat × Bytes32) :
    (s.restoreConsumedAtHeight h).commit[k]? =
      match s.spent[(h, k.2)]? with
      | some (h', a) => if h' = k.1 then some a else s.commit[k]?
      | none => s.commit[k]? := by
  rcases commit_restoreRows h (nodup_spentAt h s) s with ⟨hrows, hother⟩
  show ((s.spent.toList.filter _).foldl (restoreRow h) s).commit[k]? = _
  have hmem : ∀ (h' : Nat) (a : Address), s.spent[(h, k.2)]? = some (h', a) ↔
      ((h, k.2), h', a) ∈ s.spent.toList.filter fun e => e.1.1 = h := by
    intro h' a
    rw [List.mem_filter, Bucket.mem_toList_iff]
    simp only [decide_true, and_true]
  have hsame : (∀ h' a, s.spent[(h, k.2)]? = some (h', a) → h' ≠ k.1) →
      ((s.spent.toList.filter fun e => e.1.1 = h).foldl (restoreRow h) s).commit[k]? = s.commit[k]? := by
    intro hne
    refine hother k fun e he heq => ?_
    obtain ⟨⟨r, hash⟩, h', a⟩ := e
    obtain rfl : r = h := of_decide_eq_true (List.mem_filter.mp he).2
    obtain rfl : (h', hash) = k := heq
    exact hne h' a ((hmem h' a).mpr he) rfl
  split
  · next h' a hspent =>
    split
    · next heq =>
      have := hrows _ ((hmem h' a).mp hspent)
      rw [heq] at this
      exact this
    · next hne =>
      refine hsame fun h'' a'' hspent' => ?_
      rw [hspent] at hspent'
      rw [← (Prod.mk.inj (Option.some_injective _ hspent')).1]
      exact hne
  · next hnone =>
    refine hsame fun h'' a'' hspent' => ?_
    rw [hnone] at hspent'
    cases hspent'

theorem spent_restoreConsumed (h : Nat) (s : State) (k : Nat × Bytes32) :
    (s.restoreConsumedAtHeight h).spent[k]? = if k.1 = h then none else s.spent[k]? := by
  have herase := Bucket.get_foldl_erase_filter (fun k => decide (k.1 = h)) s.spent k
  simp only [decide_eq_true_eq] at herase
  rw [← herase]
  show ((s.spent.toList.filter _).foldl (restoreRow h) s).spent[k]? = _
  rw [spent_restoreRows]
  congr 2
  refine List.map_congr_left fun e he => ?_
  exact Prod.ext (of_decide_eq_true (List.mem_filter.mp he).2).symm rfl

/-! ## §2 — undoing a height -/

/-- The part of an unwound height before the commit store. -/
def revertSlots (h : Nat) (s : State) : State := (s.revertBalances h).revertContracts h |>.revertKeys h

theorem commits_revertSlots (h : Nat) (s : State) : (s.revertSlots h).commits = s.commits := by
  have hbal : ∀ t : State, (t.revertBalances h).commits = t.commits := fun t => commits_mirror _ _ _ _
  have hcontract : ∀ t : State, (t.revertContracts h).commits = t.commits := fun t => commits_mirror _ _ _ _
  have hkey : ∀ t : State, (t.revertKeys h).commits = t.commits := fun t => commits_mirror _ _ _ _
  rw [revertSlots, hkey, hcontract, hbal]

theorem commits_unwindHeight (h : Nat) (s : State) :
    (s.unwindHeight h).commits =
      (((s.revertSlots h).deleteCommitsAtHeight h).restoreConsumedAtHeight h).commits := by
  have hbeacon : ∀ t : State, (t.revertBeacon h).commits = t.commits := fun t => commits_mirror _ _ _ _
  have happlied : ∀ t : State, (t.dropApplied h).commits = t.commits := fun _ => rfl
  rw [unwindHeight, happlied, hbeacon]
  rfl

/-- **What an unwound height leaves pending**: nothing it recorded, and again what its reveals spent. -/
theorem commit_unwindHeight (h : Nat) (s : State) (k : Nat × Bytes32) :
    (s.unwindHeight h).commit[k]? =
      match s.spent[(h, k.2)]? with
      | some (h', a) => if h' = k.1 then some a else if k.1 = h then none else s.commit[k]?
      | none => if k.1 = h then none else s.commit[k]? := by
  have hslots := commits_revertSlots h s
  rw [commit_eq_of_commits (commits_unwindHeight h s), commit_restoreConsumed, deleteCommitsAtHeight,
    commit_dropCommits, spent_dropCommits, commit_eq_of_commits hslots, spent_eq_of_commits hslots]
  simp only [decide_eq_true_eq]

theorem spent_unwindHeight (h : Nat) (s : State) (k : Nat × Bytes32) :
    (s.unwindHeight h).spent[k]? = if k.1 = h then none else s.spent[k]? := by
  rw [spent_eq_of_commits (commits_unwindHeight h s), spent_restoreConsumed, deleteCommitsAtHeight,
    spent_dropCommits, spent_eq_of_commits (commits_revertSlots h s)]

end Loops
end State

/-! ## §3 — the writes of a block -/

section Writes

variable [Crypto]

/-- **`CommitFree w`** — the write does not concern the commit store. -/
def Write.CommitFree : Write → Prop
  | .putCommit _ _ _ | .consumeCommit _ _ | .journalConsumed _ _ _ _ | .pruneCommits _ => False
  | _ => True

theorem Write.commits_step {w : Write} (hw : w.CommitFree) (s : State) : (w.step s).commits = s.commits := by
  cases w with
  | setContract rec account =>
    rcases State.reconcileCode_eq rec account s with ⟨code, hcode⟩
    show (State.setContract rec account s).commits = _
    unfold State.setContract
    rw [hcode]
    rfl
  | delContract rec a =>
    rcases State.releaseSlot_eq rec a s with ⟨code, hcode⟩
    show (State.delContract rec a s).commits = _
    unfold State.delContract
    rw [hcode]
    rfl
  | registerPubKey rec a scheme pubKey =>
    show (State.registerPubKey rec a _ s).commits = _
    unfold State.registerPubKey
    split <;> rfl
  | setBalance | setBeacon | notes | apply => rfl
  | putCommit | consumeCommit | journalConsumed | pruneCommits => exact absurd hw id

theorem Write.admitsEffects_commitFree (rec : Recorder) :
    Write.AdmitsEffects Write.CommitFree rec (fun _ => True) fun _ => True :=
  ⟨fun _ _ => trivial, fun _ _ => trivial, fun _ => trivial, fun _ _ => trivial, fun _ _ => trivial⟩

/-- A program whose writes do not concern the commit store leaves it alone. -/
theorem commits_exec {α : Type} {p : StateTxn α} {s s' : State} {a : α}
    (hp : p.Writes (fun _ => True) Write.CommitFree) (h : p.exec s = .ok (a, s')) : s'.commits = s.commits :=
  Txn.run_preserves (I := fun t => t.commits = s.commits) (fun _ _ => trivial)
    (fun _ t hw ht => (Write.commits_step hw t).trans ht) hp h rfl

end Writes
end NgCore
