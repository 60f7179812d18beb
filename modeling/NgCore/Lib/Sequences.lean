/-
# Lib.Sequences — when a digest of a list determines the list

Three ways to lose and regain the elements of a list: map it through a function that is injective on
what occurs (`map_injOn`), concatenate blocks of one size (`flatMap_inj`), forget everything but the
ORDER (`rank`). The last one says what sorting forgets: a list is determined by its sorted form
together with the sequence of ranks (`eq_of_perm_of_rank`).
-/
import Mathlib

namespace Lib.Sequences

/-! ## §1 — maps and concatenations -/

/-- A map that is injective across two lists determines them. -/
theorem map_injOn {α β : Type*} {f : α → β} {l m : List α}
    (hinj : ∀ a ∈ l, ∀ b ∈ m, f a = f b → a = b) (h : l.map f = m.map f) : l = m := by
  induction l generalizing m with
  | nil => exact (List.map_eq_nil_iff.mp h.symm).symm
  | cons a l ih =>
    cases m with
    | nil => simp at h
    | cons b m =>
      obtain ⟨hhead, htail⟩ := List.cons.inj h
      rw [hinj a (by simp) b (by simp) hhead,
        ih (fun x hx y hy => hinj x (by simp [hx]) y (by simp [hy])) htail]

/-- Two images agree position by position, so the paired image does. -/
theorem map_pair {α β γ : Type*} {f : α → β} {g : α → γ} {l m : List α} (hf : l.map f = m.map f)
    (hg : l.map g = m.map g) : l.map (fun a => (f a, g a)) = m.map fun a => (f a, g a) := by
  rw [← List.zip_map', ← List.zip_map', hf, hg]

/-- Blocks of one nonzero size can be read back from their concatenation. -/
theorem flatMap_inj {α β : Type*} {f : α → List β} {size : Nat} (hpos : 0 < size)
    (hsize : ∀ a, (f a).length = size) (hf : Function.Injective f) {l m : List α}
    (h : l.flatMap f = m.flatMap f) : l = m := by
  induction l generalizing m with
  | nil =>
    cases m with
    | nil => rfl
    | cons b m =>
      have hlen := congrArg List.length h
      simp only [List.flatMap_nil, List.flatMap_cons, List.length_nil, List.length_append,
        hsize b] at hlen
      omega
  | cons a l ih =>
    cases m with
    | nil =>
      have hlen := congrArg List.length h
      simp only [List.flatMap_nil, List.flatMap_cons, List.length_nil, List.length_append,
        hsize a] at hlen
      omega
    | cons b m =>
      rw [List.flatMap_cons, List.flatMap_cons] at h
      obtain ⟨hhead, htail⟩ := List.append_inj h (by rw [hsize, hsize])
      rw [hf hhead, ih htail]

/-! ## §2 — ranks: the order of a list, without its elements -/

section Rank

variable {α : Type*} [Ord α] [Std.TransOrd α] [Std.LawfulEqOrd α]

/-- **`rank l a`** — how many elements of `l` are smaller than `a`. -/
def rank (l : List α) (a : α) : Nat := l.countP fun b => compare b a = .lt

theorem rank_lt_rank {l : List α} {a b : α} (ha : a ∈ l) (hab : compare a b = .lt) :
    rank l a < rank l b := by
  obtain ⟨front, back, rfl⟩ := List.append_of_mem ha
  have hmono : ∀ m : List α, rank m a ≤ rank m b := fun m =>
    List.countP_mono_left fun x _ hx => by
      simp only [decide_eq_true_eq] at hx ⊢
      exact Std.TransCmp.lt_trans hx hab
  have hfront := hmono front
  have hback := hmono back
  have haa : compare a a ≠ .lt := by simp [Std.ReflCmp.compare_self]
  simp only [rank, List.countP_append, List.countP_cons, hab, haa] at hfront hback ⊢
  simp only [decide_true, decide_false, if_true, Bool.false_eq_true, if_false]
  omega

theorem rank_inj {l : List α} {a b : α} (ha : a ∈ l) (hb : b ∈ l) (h : rank l a = rank l b) :
    a = b := by
  cases hab : compare a b with
  | lt => exact absurd h (rank_lt_rank ha hab).ne
  | eq => exact Std.LawfulEqCmp.eq_of_compare hab
  | gt => exact absurd h (rank_lt_rank hb (Std.OrientedCmp.lt_of_gt hab)).ne'

/-- **Rearrangements with one sequence of ranks are equal.** -/
theorem eq_of_perm_of_rank {l m : List α} (hperm : l.Perm m)
    (h : l.map (rank l) = m.map (rank m)) : l = m := by
  have hrank : rank m = rank l := funext fun a => (hperm.countP_eq _).symm
  rw [hrank] at h
  exact map_injOn (fun a ha b hb hab => rank_inj ha (hperm.mem_iff.mpr hb) hab) h

end Rank
end Lib.Sequences
