/-
# Lib.SingleUse — tickets that are issued once and used once

A ledger of tickets. A ticket is ISSUED at a height, is PENDING from then on, and is USED at a later height of a
window; using it takes the pending row away and journals where it stood. A height can be undone: what it issued
disappears, what it used is pending again.

Nothing but the two histories says that a ticket is used once: the rows themselves come and go. `SingleUse` is the
invariant that ties the rows to the histories. The rules say what a step may do to the rows as INCLUSIONS, so a row
that is overwritten, pruned or lost is no concern.
-/
import Mathlib

namespace Lib

variable {K : Type}

/-- **`SingleUse W tip issued used pending spent`** — the histories are duplicate free, and every row is accounted
for: a pending ticket was issued where its row says, inside the window, and was never used; a journal row tells of
a use in the history. -/
structure SingleUse (W tip : Nat) (issued used : List (Nat × K)) (pending : Nat → K → Prop)
    (spent : Nat → Nat → K → Prop) : Prop where
  issuedOnce : (issued.map Prod.snd).Nodup
  usedOnce : (used.map Prod.snd).Nodup
  usedIssued : ∀ r k, (r, k) ∈ used → ∃ h, (h, k) ∈ issued ∧ h < r
  pendingIssued : ∀ h k, pending h k → (h, k) ∈ issued
  pendingUnused : ∀ h k, pending h k → k ∉ used.map Prod.snd
  pendingFresh : ∀ h k, pending h k → tip ≤ h + W
  spentUsed : ∀ r h k, spent r h k → (r, k) ∈ used ∧ (h, k) ∈ issued ∧ h < r ∧ r ≤ h + W

namespace SingleUse

variable {W tip tip' n h : Nat} {k : K} {issued used issued' used' : List (Nat × K)}
  {pending pending' : Nat → K → Prop} {spent spent' : Nat → Nat → K → Prop}

theorem height_unique (H : SingleUse W tip issued used pending spent) {h₁ h₂ : Nat} (h₁k : (h₁, k) ∈ issued)
    (h₂k : (h₂, k) ∈ issued) : h₁ = h₂ :=
  congrArg Prod.fst (List.inj_on_of_nodup_map H.issuedOnce h₁k h₂k rfl)

theorem empty : SingleUse W 0 ([] : List (Nat × K)) [] (fun _ _ => False) fun _ _ _ => False where
  issuedOnce := List.nodup_nil
  usedOnce := List.nodup_nil
  usedIssued _ _ := nofun
  pendingIssued _ _ := nofun
  pendingUnused _ _ := nofun
  pendingFresh _ _ := nofun
  spentUsed _ _ _ := nofun

theorem perm (H : SingleUse W tip issued used pending spent) (hi : issued'.Perm issued)
    (hu : used'.Perm used) : SingleUse W tip issued' used' pending spent where
  issuedOnce := (hi.map Prod.snd).nodup_iff.mpr H.issuedOnce
  usedOnce := (hu.map Prod.snd).nodup_iff.mpr H.usedOnce
  usedIssued r k hk := by
    rcases H.usedIssued r k (hu.mem_iff.mp hk) with ⟨h, hh, hlt⟩
    exact ⟨h, hi.mem_iff.mpr hh, hlt⟩
  pendingIssued h k hk := hi.mem_iff.mpr (H.pendingIssued h k hk)
  pendingUnused h k hk := fun hmem => H.pendingUnused h k hk ((hu.map Prod.snd).mem_iff.mp hmem)
  pendingFresh := H.pendingFresh
  spentUsed r h k hk := by
    rcases H.spentUsed r h k hk with ⟨hr, hh, hw⟩
    exact ⟨hu.mem_iff.mpr hr, hi.mem_iff.mpr hh, hw⟩

/-- Rows may be lost, and the window may move over rows that are gone. -/
theorem forget (H : SingleUse W tip issued used pending spent) (hp : ∀ h k, pending' h k → pending h k)
    (hs : ∀ r h k, spent' r h k → spent r h k) (hfresh : ∀ h k, pending' h k → tip' ≤ h + W) :
    SingleUse W tip' issued used pending' spent' where
  issuedOnce := H.issuedOnce
  usedOnce := H.usedOnce
  usedIssued := H.usedIssued
  pendingIssued h k hk := H.pendingIssued h k (hp h k hk)
  pendingUnused h k hk := H.pendingUnused h k (hp h k hk)
  pendingFresh := hfresh
  spentUsed r h k hk := H.spentUsed r h k (hs r h k hk)

/-- **Issuing** a ticket that was never issued. -/
theorem issue (H : SingleUse W tip issued used pending spent) (hnew : k ∉ issued.map Prod.snd)
    (hn : tip ≤ n + W) (hp : ∀ h' k', pending' h' k' → pending h' k' ∨ h' = n ∧ k' = k) :
    SingleUse W tip ((n, k) :: issued) used pending' spent where
  issuedOnce := by
    rw [List.map_cons, List.nodup_cons]
    exact ⟨hnew, H.issuedOnce⟩
  usedOnce := H.usedOnce
  usedIssued r k' hk := by
    rcases H.usedIssued r k' hk with ⟨h, hh, hlt⟩
    exact ⟨h, List.mem_cons_of_mem _ hh, hlt⟩
  pendingIssued h' k' hk := by
    rcases hp h' k' hk with hk | ⟨rfl, rfl⟩
    · exact List.mem_cons_of_mem _ (H.pendingIssued h' k' hk)
    · exact List.mem_cons_self
  pendingUnused h' k' hk := by
    rcases hp h' k' hk with hk | ⟨rfl, rfl⟩
    · exact H.pendingUnused h' k' hk
    · -- a ticket that was used was issued before
      intro hmem
      rcases List.mem_map.mp hmem with ⟨⟨r, k'⟩, hused, rfl⟩
      rcases H.usedIssued r k' hused with ⟨h, hh, _⟩
      exact hnew (List.mem_map.mpr ⟨(h, k'), hh, rfl⟩)
  pendingFresh h' k' hk := by
    rcases hp h' k' hk with hk | ⟨rfl, rfl⟩
    · exact H.pendingFresh h' k' hk
    · exact hn
  spentUsed r h' k' hk := by
    rcases H.spentUsed r h' k' hk with ⟨hr, hh, hw⟩
    exact ⟨hr, List.mem_cons_of_mem _ hh, hw⟩

/-- **Using** a pending ticket, which takes its row away. -/
theorem use (H : SingleUse W tip issued used pending spent) (hk : pending h k) (hlt : h < n) (hw : n ≤ h + W)
    (hp : ∀ h' k', pending' h' k' → pending h' k' ∧ ¬ (h' = h ∧ k' = k))
    (hs : ∀ r h' k', spent' r h' k' → spent r h' k' ∨ r = n ∧ h' = h ∧ k' = k) :
    SingleUse W tip issued ((n, k) :: used) pending' spent' where
  issuedOnce := H.issuedOnce
  usedOnce := by
    rw [List.map_cons, List.nodup_cons]
    exact ⟨H.pendingUnused h k hk, H.usedOnce⟩
  usedIssued r k' hmem := by
    rcases List.mem_cons.mp hmem with heq | hmem
    · obtain ⟨rfl, rfl⟩ := Prod.mk.inj heq
      exact ⟨h, H.pendingIssued h k' hk, hlt⟩
    · exact H.usedIssued r k' hmem
  pendingIssued h' k' hk' := H.pendingIssued h' k' (hp h' k' hk').1
  pendingUnused h' k' hk' hmem := by
    rcases hp h' k' hk' with ⟨hk', hne⟩
    rw [List.map_cons, List.mem_cons] at hmem
    rcases hmem with rfl | hmem
    · -- another row of the same ticket would have to stand at the same height
      exact hne ⟨H.height_unique (H.pendingIssued _ _ hk') (H.pendingIssued _ _ hk), rfl⟩
    · exact H.pendingUnused h' k' hk' hmem
  pendingFresh h' k' hk' := H.pendingFresh h' k' (hp h' k' hk').1
  spentUsed r h' k' hk' := by
    rcases hs r h' k' hk' with hk' | ⟨rfl, rfl, rfl⟩
    · rcases H.spentUsed r h' k' hk' with ⟨hr, hh, hw⟩
      exact ⟨List.mem_cons_of_mem _ hr, hh, hw⟩
    · exact ⟨List.mem_cons_self, H.pendingIssued _ _ hk, hlt, hw⟩

/-- **Undoing** the highest height: the histories lose it, and what it used may be pending again. -/
theorem undo (H : SingleUse W n issued used pending spent) (htop : ∀ e ∈ used, e.1 ≤ n)
    (hp : ∀ h k, pending' h k → pending h k ∧ h ≠ n ∨ spent n h k)
    (hs : ∀ r h k, spent' r h k → spent r h k ∧ r ≠ n) (htip : tip' ≤ n) :
    SingleUse W tip' (issued.filter fun e => e.1 ≠ n) (used.filter fun e => e.1 ≠ n) pending' spent' where
  issuedOnce := H.issuedOnce.sublist (List.filter_sublist.map Prod.snd)
  usedOnce := H.usedOnce.sublist (List.filter_sublist.map Prod.snd)
  usedIssued r k hmem := by
    simp only [List.mem_filter, decide_eq_true_eq] at hmem ⊢
    rcases H.usedIssued r k hmem.1 with ⟨h, hh, hlt⟩
    have := htop _ hmem.1
    exact ⟨h, ⟨hh, by omega⟩, hlt⟩
  pendingIssued h k hk := by
    simp only [List.mem_filter, decide_eq_true_eq]
    rcases hp h k hk with ⟨hk, hne⟩ | hk
    · exact ⟨H.pendingIssued h k hk, hne⟩
    · rcases H.spentUsed n h k hk with ⟨_, hh, hlt, _⟩
      exact ⟨hh, hlt.ne⟩
  pendingUnused h k hk hmem := by
    rcases List.mem_map.mp hmem with ⟨⟨r, k'⟩, hused, rfl⟩
    simp only [List.mem_filter, decide_eq_true_eq] at hused
    rcases hp h k' hk with ⟨hk, _⟩ | hk
    · exact H.pendingUnused h k' hk (List.mem_map.mpr ⟨(r, k'), hused.1, rfl⟩)
    · -- the undone use was the only one
      have hn := (H.spentUsed n h k' hk).1
      exact hused.2 (congrArg Prod.fst (List.inj_on_of_nodup_map H.usedOnce hused.1 hn rfl))
  pendingFresh h k hk := by
    rcases hp h k hk with ⟨hk, _⟩ | hk
    · exact htip.trans (H.pendingFresh h k hk)
    · exact htip.trans (H.spentUsed n h k hk).2.2.2
  spentUsed r h k hk := by
    rcases hs r h k hk with ⟨hk, hne⟩
    rcases H.spentUsed r h k hk with ⟨hr, hh, hlt, hw⟩
    simp only [List.mem_filter, decide_eq_true_eq]
    have := htop _ hr
    exact ⟨⟨hr, hne⟩, ⟨hh, by omega⟩, hlt, hw⟩

end SingleUse
end Lib
