/-
# Lib.MerkleTree — the binary merkle tree that duplicates an odd last leaf

`levelUp` pairs neighbours and pairs an odd last node WITH ITSELF; `root` climbs until one node is
left (a lone leaf is still combined with itself once). The root alone does not determine the leaves:
`[a, b, c]` and `[a, b, c, c]` share it. Together with the NUMBER of leaves it does:

DELIVERABLE: `root_inj` — trees over equally many leaves with one root have the same leaves, as soon
as the node combiner does not collide on the pairs the two trees combine (`pairs`).
-/
import Mathlib

namespace Lib.MerkleTree

variable {H : Type} (node : H → H → H)

/-! ## §1 — one level, and the climb -/

/-- **`levelUp`** — the next level: neighbours combine, an odd last node combines with itself. -/
def levelUp : List H → List H
  | [] => []
  | [a] => [node a a]
  | a :: b :: rest => node a b :: levelUp rest

/-- The pairs `levelUp` combines. -/
def levelPairs : List H → List (H × H)
  | [] => []
  | [a] => [(a, a)]
  | a :: b :: rest => (a, b) :: levelPairs rest

/-- Climb level by level until a single node is left. -/
def climb : Nat → List H → Option H
  | 0, _ => none
  | fuel + 1, l =>
    match levelUp node l with
    | [] => none
    | [r] => some r
    | l' => climb fuel l'

/-- **`root`** — the root over the leaves `l`; none for no leaves. -/
def root (l : List H) : Option H := climb node l.length l

/-- Every pair combined on the way up. -/
def pairsFrom : Nat → List H → List (H × H)
  | 0, _ => []
  | fuel + 1, l => levelPairs l ++ pairsFrom fuel (levelUp node l)

/-- **`pairs`** — every pair the tree over `l` combines. -/
def pairs (l : List H) : List (H × H) := pairsFrom node l.length l

/-! ## §2 — lengths -/

theorem length_levelUp : ∀ l : List H, (levelUp node l).length = (l.length + 1) / 2
  | [] => by simp [levelUp]
  | [_] => by simp [levelUp]
  | _ :: _ :: rest => by
    simp only [levelUp, List.length_cons, length_levelUp rest]
    omega

/-- Above two leaves the climb gets strictly shorter, so `l.length` levels are enough. -/
theorem root_isSome (l : List H) (h : l ≠ []) : (root node l).isSome := by
  have key : ∀ fuel (l : List H), l ≠ [] → l.length ≤ fuel → (climb node fuel l).isSome := by
    intro fuel
    induction fuel with
    | zero =>
      intro l hl hlen
      exact absurd (List.length_eq_zero_iff.mp (by omega)) hl
    | succ fuel ih =>
      intro l hl hlen
      have hpos := List.length_pos_iff.mpr hl
      have hup := length_levelUp node l
      rw [climb]
      split
      · next hnil => rw [hnil] at hup; simp at hup; omega
      · rfl
      · next hne hone =>
        refine ih _ (by simpa using hne) ?_
        have htwo : (levelUp node l).length ≠ 1 := by
          intro hlen1
          obtain ⟨r, hr⟩ := List.length_eq_one_iff.mp hlen1
          exact hone r hr
        omega
  exact key _ l h le_rfl

/-! ## §3 — injectivity -/

section Injective

variable {node}

/-- One level determines the level below it, when the combiner does not collide on its pairs. -/
theorem levelUp_inj : ∀ (l m : List H), l.length = m.length →
    Set.InjOn (Function.uncurry node) {p | p ∈ levelPairs l ∨ p ∈ levelPairs m} →
    levelUp node l = levelUp node m → l = m
  | [], [], _, _, _ => rfl
  | [], _ :: _, hlen, _, _ => by simp at hlen
  | _ :: _, [], hlen, _, _ => by simp at hlen
  | [a], [b], _, hinj, h => by
    have hpair : (a, a) = (b, b) := hinj (.inl (by simp [levelPairs])) (.inr (by simp [levelPairs]))
      (List.cons.inj h).1
    rw [(Prod.mk.inj hpair).1]
  | [_], _ :: _ :: _, hlen, _, _ => by simp at hlen
  | _ :: _ :: _, [_], hlen, _, _ => by simp at hlen
  | a :: b :: l, c :: d :: m, hlen, hinj, h => by
    obtain ⟨hhead, htail⟩ := List.cons.inj h
    have hpair : (a, b) = (c, d) := hinj (.inl (by simp [levelPairs]))
      (.inr (by simp [levelPairs])) hhead
    have hrest := levelUp_inj l m (by simpa using hlen)
      (hinj.mono (by
        rintro p (hp | hp)
        · exact .inl (by simp [levelPairs, hp])
        · exact .inr (by simp [levelPairs, hp]))) htail
    rw [(Prod.mk.inj hpair).1, (Prod.mk.inj hpair).2, hrest]

theorem climb_inj (fuel : Nat) (l m : List H) (hlen : l.length = m.length) (hfuel : l.length ≤ fuel)
    (hinj : Set.InjOn (Function.uncurry node)
      {p | p ∈ pairsFrom node fuel l ∨ p ∈ pairsFrom node fuel m})
    (h : climb node fuel l = climb node fuel m) : l = m := by
  induction fuel generalizing l m with
  | zero =>
    rw [List.length_eq_zero_iff.mp (by omega : l.length = 0),
      List.length_eq_zero_iff.mp (by omega : m.length = 0)]
  | succ fuel ih =>
    refine levelUp_inj l m hlen (hinj.mono ?_) ?_
    · rintro p (hp | hp)
      · exact .inl (by simp [pairsFrom, hp])
      · exact .inr (by simp [pairsFrom, hp])
    -- the two climbs split alike, because the next levels have equal length
    have hup : (levelUp node l).length = (levelUp node m).length := by
      rw [length_levelUp, length_levelUp, hlen]
    rw [climb, climb] at h
    match hl : levelUp node l, hm : levelUp node m with
    | [], [] => rfl
    | [], _ :: _ => rw [hl, hm] at hup; simp at hup
    | _ :: _, [] => rw [hl, hm] at hup; simp at hup
    | [r], [t] =>
      rw [hl, hm] at h
      exact congrArg (fun x => [x]) (Option.some.inj h)
    | [_], _ :: _ :: _ => rw [hl, hm] at hup; simp at hup
    | _ :: _ :: _, [_] => rw [hl, hm] at hup; simp at hup
    | r :: r' :: l', t :: t' :: m' =>
      rw [hl, hm] at h hup
      have hfuel' : (levelUp node l).length ≤ fuel := by
        have := length_levelUp node l
        rw [hl] at this ⊢
        simp only [List.length_cons] at this ⊢
        omega
      rw [hl] at hfuel'
      refine ih _ _ hup hfuel' (hinj.mono ?_) h
      rintro p (hp | hp)
      · exact .inl (by rw [pairsFrom, hl]; exact List.mem_append_right _ hp)
      · exact .inr (by rw [pairsFrom, hm]; exact List.mem_append_right _ hp)

/-- **`root_inj`** — equally many leaves and one root: the same leaves. -/
theorem root_inj {l m : List H} (hlen : l.length = m.length)
    (hinj : Set.InjOn (Function.uncurry node) {p | p ∈ pairs node l ∨ p ∈ pairs node m})
    (h : root node l = root node m) : l = m := by
  refine @climb_inj H node l.length l m hlen le_rfl ?_ ?_
  · simpa [pairs, hlen] using hinj
  · rw [root, root, ← hlen] at h
    exact h

end Injective
end Lib.MerkleTree
