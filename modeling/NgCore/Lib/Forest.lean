/-
# Lib.Forest — nodes that name their parent by key

A collection of nodes over an arbitrary type: every node has a key, names the key of its parent, and costs
something. `Weighs` sums the cost along the parents down to a root. Keys are not assumed injective on the
whole type, only on the set of nodes at hand: then a node has at most one weight (`Weighs.unique`), and with
positive costs a child outweighs its parent.

`Preferred` ranks nodes by weight, ties broken by the smaller key; it is a strict total order on nodes with
distinct keys, so a set of nodes has at most one best member (`Best.unique`).

`Connected S` is what hangs together with the root inside `S`; `eq_connected` recognises it by closure.
-/
import Mathlib

namespace Lib.Forest

variable {X K : Type} (key up : X → K) (cost : X → Nat) (H : Set X) (root : X)

/-! ## §1 — weights -/

/-- **`Weighs x w`** — `w` is the cost of `x` and of all its ancestors, down to the root. -/
inductive Weighs : X → Nat → Prop
  | root : Weighs root (cost root)
  | child {p c : X} {w : Nat} : Weighs p w → p ∈ H → up c = key p → c ≠ root → Weighs c (w + cost c)

variable {key up cost H root}

theorem Weighs.unique (hinj : Set.InjOn key H) {x : X} {w w' : Nat}
    (h : Weighs key up cost H root x w) (h' : Weighs key up cost H root x w') : w = w' := by
  induction h generalizing w' with
  | root =>
    cases h' with
    | root => rfl
    | child _ _ _ hne => exact absurd rfl hne
  | @child p c w _ hp hup hne ih =>
    cases h' with
    | root => exact absurd rfl hne
    | @child p' _ w'' hw' hp' hup' _ =>
      obtain rfl : p = p' := hinj hp hp' (hup.symm.trans hup')
      rw [ih hw']

/-- The parent of a node that is not the root has a weight, and the node adds its own cost. -/
theorem Weighs.parent {c : X} {w : Nat} (h : Weighs key up cost H root c w) (hne : c ≠ root) :
    ∃ p ∈ H, up c = key p ∧ ∃ wp, Weighs key up cost H root p wp ∧ w = wp + cost c := by
  cases h with
  | root => exact absurd rfl hne
  | child hw hp hup _ => exact ⟨_, hp, hup, _, hw, rfl⟩

/-! ## §2 — the preferred node -/

variable [Ord K]

/-- **`Preferred k w k' w'`** — a node of key `k` and weight `w` is preferred to one of key `k'` and weight
`w'`: heavier, or as heavy with the smaller key. -/
def Preferred (k : K) (w : Nat) (k' : K) (w' : Nat) : Prop := w' < w ∨ w = w' ∧ compare k k' = .lt

theorem Preferred.trans [Std.TransOrd K] {k k' k'' : K} {w w' w'' : Nat} (h : Preferred k w k' w')
    (h' : Preferred k' w' k'' w'') : Preferred k w k'' w'' := by
  rcases h with h | ⟨rfl, hk⟩
  · rcases h' with h' | ⟨rfl, _⟩
    · exact .inl (h'.trans h)
    · exact .inl h
  · rcases h' with h' | ⟨rfl, hk'⟩
    · exact .inl h'
    · exact .inr ⟨rfl, Std.TransCmp.lt_trans hk hk'⟩

theorem Preferred.asymm [Std.OrientedOrd K] {k k' : K} {w w' : Nat} (h : Preferred k w k' w') :
    ¬ Preferred k' w' k w := by
  rintro (h' | ⟨rfl, hk'⟩)
  · rcases h with h | ⟨rfl, _⟩ <;> omega
  · rcases h with h | ⟨_, hk⟩
    · omega
    · have hgt := Std.OrientedCmp.gt_of_lt hk
      rw [hk'] at hgt
      cases hgt

theorem preferred_total [Std.OrientedOrd K] [Std.LawfulEqOrd K] {k k' : K} (hne : k ≠ k') (w w' : Nat) :
    Preferred k w k' w' ∨ Preferred k' w' k w := by
  rcases lt_trichotomy w w' with h | rfl | h
  · exact .inr (.inl h)
  · cases hk : compare k k' with
    | lt => exact .inl (.inr ⟨rfl, hk⟩)
    | eq => exact absurd (Std.LawfulEqCmp.eq_of_compare hk) hne
    | gt => exact .inr (.inr ⟨rfl, Std.OrientedCmp.lt_of_gt hk⟩)
  · exact .inl (.inl h)

/-- **`Best S b`** — `b` belongs to `S` and is preferred to every other member, at any weights they have. -/
structure Best (key up : X → K) (cost : X → Nat) (H : Set X) (root : X) (S : Set X) (b : X) : Prop where
  mem : b ∈ S
  weighs : ∃ w, Weighs key up cost H root b w
  preferred : ∀ x ∈ S, x ≠ b → ∀ w wb, Weighs key up cost H root x w → Weighs key up cost H root b wb →
    Preferred (key b) wb (key x) w

/-- **A set has at most one best member.** -/
theorem Best.unique [Std.OrientedOrd K] {S : Set X} {b b' : X} (h : Best key up cost H root S b)
    (h' : Best key up cost H root S b') : b = b' := by
  by_contra hne
  obtain ⟨w, hw⟩ := h.weighs
  obtain ⟨w', hw'⟩ := h'.weighs
  have hb := h.preferred b' h'.mem (Ne.symm hne) w' w hw' hw
  have hb' := h'.preferred b h.mem hne w w' hw hw'
  exact hb.asymm hb'

/-- A newcomer that is not preferred leaves the best member best. -/
theorem Best.insert_worse {S : Set X} {b x : X} (h : Best key up cost H root S b)
    (hx : x ≠ b → ∀ w wb, Weighs key up cost H root x w → Weighs key up cost H root b wb →
      Preferred (key b) wb (key x) w) : Best key up cost H root (insert x S) b := by
  refine ⟨Set.mem_insert_of_mem x h.mem, h.weighs, fun y hy hne w wb hw hwb => ?_⟩
  rcases Set.mem_insert_iff.mp hy with rfl | hy
  · exact hx hne w wb hw hwb
  · exact h.preferred y hy hne w wb hw hwb

theorem Best.insert_better [Std.TransOrd K] {S : Set X} {b x : X} (h : Best key up cost H root S b)
    (hw : ∃ w, Weighs key up cost H root x w)
    (hx : ∀ w wb, Weighs key up cost H root x w → Weighs key up cost H root b wb →
      Preferred (key x) w (key b) wb) : Best key up cost H root (insert x S) x := by
  refine ⟨Set.mem_insert x S, hw, fun y hy hne wy w hwy hwx => ?_⟩
  obtain ⟨wb, hwb⟩ := h.weighs
  have hy : y ∈ S := (Set.mem_insert_iff.mp hy).resolve_left hne
  by_cases hyb : y = b
  · subst hyb
    exact hx w wy hwx hwy
  · exact (hx w wb hwx hwb).trans (h.preferred y hy hyb wy wb hwy hwb)

/-! ## §3 — what is connected to the root -/

/-- **`Connected S x`** — `x` is the root, or a member of `S` whose ancestors are all in `S` down to the root. -/
inductive Connected (key up : X → K) (root : X) (S : Set X) : X → Prop
  | root : Connected key up root S root
  | child {p c : X} : Connected key up root S p → c ∈ S → up c = key p → Connected key up root S c

omit [Ord K] in
/-- **A set of weighed nodes that is closed under parents, and under children from `S`, is what is connected
in `S`.** -/
theorem eq_connected {A S : Set X} (hinj : Set.InjOn key H) (hA : A ⊆ H) (hroot : root ∈ A)
    (hS : ∀ a ∈ A, a = root ∨ a ∈ S) (hw : ∀ a ∈ A, ∃ w, Weighs key up cost H root a w)
    (hparent : ∀ a ∈ A, a ≠ root → ∃ p ∈ A, up a = key p)
    (hchild : ∀ c ∈ S, ∀ p ∈ A, up c = key p → c ∈ A) : A = {x | Connected key up root S x} := by
  ext x
  constructor
  · intro hx
    obtain ⟨w, hwx⟩ := hw x hx
    -- down the weight, parent by parent
    induction hwx with
    | root => exact .root
    | @child p c w _ hp hup hne ih =>
      obtain ⟨q, hq, hupq⟩ := hparent c hx hne
      obtain rfl : q = p := hinj (hA hq) hp (hupq.symm.trans hup)
      exact .child (ih hq) ((hS c hx).resolve_left hne) hup
  · intro hx
    induction hx with
    | root => exact hroot
    | child _ hc hup ih => exact hchild _ hc _ ih hup

end Lib.Forest
