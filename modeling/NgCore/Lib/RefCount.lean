/-
# Lib.RefCount — counted references between the nodes of a table

Every node of a table links to others and carries a counter. While the counters are `Exact` — each is the number
of nodes that link to it — and no link dangles, a node that others need can be told by its counter alone.

A node is relinked in steps: the references it holds are let go one by one, others are taken one by one, and the
node itself is stored last. In between `Settled hub held` holds: the table is exact as if the node `hub` linked to
the list `held`.

DELIVERABLE: `Exact.settled` (in), `Settled.adjust` (one reference more, or less, or none), `Settled.store` and
`Settled.drop` (out).
-/
import NgCore.Lib.Bucket

namespace Lib.RefCount

open Std

variable {K N : Type} [Ord K] [TransOrd K] [LawfulEqOrd K] [DecidableEq K]

/-! ## §1 — counting -/

/-- How many nodes link to `x`. -/
def pointing (links : N → List K) (x : K) (t : Bucket K N) : Nat :=
  Bucket.total (fun _ n => if x ∈ links n then 1 else 0) t

/-- How many nodes other than the hub link to `x`. -/
def pointers (links : N → List K) (hub x : K) (t : Bucket K N) : Nat :=
  Bucket.total (fun k n => if k ≠ hub ∧ x ∈ links n then 1 else 0) t

variable {links : N → List K} {refs : N → Nat} {hub x : K} {t : Bucket K N}

theorem pointing_eq (links : N → List K) (hub x : K) (t : Bucket K N) :
    pointing links x t = pointers links hub x t + if x ∈ (t[hub]?).elim [] links then 1 else 0 := by
  unfold pointing pointers
  rw [Bucket.total_eq_weight_add _ t hub, Bucket.total_eq_weight_add (fun k n => if k ≠ hub ∧ _ then _ else _) t hub]
  have hrest : Bucket.total (fun _ n => if x ∈ links n then 1 else 0) (t.erase hub) =
      Bucket.total (fun k n => if k ≠ hub ∧ x ∈ links n then 1 else 0) (t.erase hub) := by
    apply Bucket.total_congr
    intro k n hk
    rw [Bucket.get_erase] at hk
    split at hk
    · cases hk
    · next hne => simp [Ne.symm hne]
  have hhub : Bucket.weight (fun k n => if k ≠ hub ∧ x ∈ links n then 1 else 0) t hub = 0 := by
    unfold Bucket.weight
    cases t[hub]? <;> simp
  rw [hrest, hhub, Bucket.weight]
  cases t[hub]? with
  | none => simp
  | some n =>
    rw [Nat.zero_add]
    exact Nat.add_comm ..

theorem pointers_insert {k : K} {n n' : N} (hk : t[k]? = some n) (hlinks : links n' = links n) :
    pointers links hub x (t.insert k n') = pointers links hub x t := by
  have h := Bucket.total_insert_add (fun k n => if k ≠ hub ∧ x ∈ links n then 1 else 0) t k n'
  rw [Bucket.weight, hk, Option.elim, hlinks] at h
  unfold pointers
  omega

theorem pointers_insert_hub (n' : N) : pointers links hub x (t.insert hub n') = pointers links hub x t := by
  have h := Bucket.total_insert_add (fun k n => if k ≠ hub ∧ x ∈ links n then 1 else 0) t hub n'
  have hzero : Bucket.weight (fun k n => if k ≠ hub ∧ x ∈ links n then 1 else 0) t hub = 0 := by
    unfold Bucket.weight
    cases t[hub]? <;> simp
  rw [hzero] at h
  simp only [ne_eq, not_true_eq_false, false_and, if_false, add_zero] at h
  exact h

theorem pointing_pos {k : K} {n : N} (hk : t[k]? = some n) (hx : x ∈ links n) : 0 < pointing links x t := by
  unfold pointing
  rw [Bucket.total_eq_weight_add _ t k, Bucket.weight, hk, Option.elim, if_pos hx]
  omega

theorem pointers_pos {k : K} {n : N} (hk : t[k]? = some n) (hne : k ≠ hub) (hx : x ∈ links n) :
    0 < pointers links hub x t := by
  unfold pointers
  rw [Bucket.total_eq_weight_add _ t k, Bucket.weight, hk, Option.elim, if_pos ⟨hne, hx⟩]
  omega

theorem pointers_eq_zero (h : ∀ (k : K) (n : N), t[k]? = some n → k ≠ hub → x ∉ links n) :
    pointers links hub x t = 0 := by
  have hzero : pointers links hub x t = Bucket.total (fun _ _ => 0) t := by
    apply Bucket.total_congr
    intro k n hk
    exact if_neg fun hboth => h k n hk hboth.1 hboth.2
  rw [hzero]
  simp [Bucket.total]

omit [LawfulEqOrd K] in
theorem pointers_le_size (links : N → List K) (hub x : K) (t : Bucket K N) : pointers links hub x t ≤ t.size := by
  unfold pointers Bucket.total
  rw [← ExtTreeMap.length_toList]
  induction t.toList with
  | nil => exact Nat.le_refl 0
  | cons e l ih =>
    rw [List.map_cons, List.sum_cons, List.length_cons, Nat.add_comm]
    apply Nat.add_le_add ih
    dsimp only
    split
    · exact Nat.le_refl 1
    · exact Nat.zero_le 1

omit [LawfulEqOrd K] [DecidableEq K] in
theorem size_insert_of_some {n n' : N} (hx : t[x]? = some n) : (t.insert x n').size = t.size := by
  have hmem : x ∈ t := ExtTreeMap.mem_iff_isSome_getElem?.mpr (by rw [hx]; rfl)
  rw [ExtTreeMap.size_insert]
  exact if_pos hmem

/-! ## §2 — exact tables -/

/-- **`Exact links refs t`** — every counter is the number of nodes that link to it, and no link dangles. -/
structure Exact (links : N → List K) (refs : N → Nat) (t : Bucket K N) : Prop where
  exact : ∀ (x : K) (n : N), t[x]? = some n → refs n = pointing links x t
  linked : ∀ (k : K) (n : N), t[k]? = some n → ∀ x ∈ links n, t[x]? ≠ none

/-- **`Settled links refs hub held t`** — exact as if the hub linked to `held`. -/
structure Settled (links : N → List K) (refs : N → Nat) (hub : K) (held : List K) (t : Bucket K N) : Prop where
  exact : ∀ (x : K) (n : N), t[x]? = some n → refs n = pointers links hub x t + if x ∈ held then 1 else 0
  held : ∀ x ∈ held, t[x]? ≠ none
  linked : ∀ (k : K) (n : N), t[k]? = some n → k ≠ hub → ∀ x ∈ links n, t[x]? ≠ none

omit [LawfulEqOrd K] in
theorem exact_empty : Exact links refs (∅ : Bucket K N) :=
  ⟨fun x n h => by simp at h, fun k n h => by simp at h⟩

theorem Exact.pos (h : Exact links refs t) {n m : N} {k : K} (hx : t[x]? = some n) (hk : t[k]? = some m)
    (hlink : x ∈ links m) : 0 < refs n := by
  rw [h.exact x n hx]
  exact pointing_pos hk hlink

theorem Exact.settled (h : Exact links refs t) (hub : K) :
    Settled links refs hub ((t[hub]?).elim [] links) t where
  exact x n hx := by rw [h.exact x n hx, pointing_eq links hub x t]
  held x hx := by
    cases hhub : t[hub]? with
    | none =>
      rw [hhub] at hx
      cases hx
    | some n =>
      rw [hhub] at hx
      exact h.linked hub n hhub x hx
  linked k n hk _ := h.linked k n hk

/-- **One reference moves**: a node is stored with another counter, and the hub holds it, or no longer. -/
theorem Settled.adjust {held held' : List K} (h : Settled links refs hub held t) {n n' : N} (hx : t[x]? = some n)
    (hlinks : links n' = links n)
    (hrefs : refs n' + (if x ∈ held then 1 else 0) = refs n + if x ∈ held' then 1 else 0)
    (hsame : ∀ y, y ≠ x → (y ∈ held' ↔ y ∈ held)) : Settled links refs hub held' (t.insert x n') where
  exact y m hy := by
    rw [pointers_insert hx hlinks]
    rw [Bucket.get_insert] at hy
    split at hy
    · next hxy =>
      subst hxy
      obtain rfl := Option.some.inj hy
      have hold := h.exact x n hx
      omega
    · next hxy =>
      rw [h.exact y m hy]
      simp only [hsame y (Ne.symm hxy)]
  held y hy := by
    rw [Bucket.get_insert]
    split
    · exact Option.some_ne_none _
    · next hxy => exact h.held y ((hsame y (Ne.symm hxy)).mp hy)
  linked k m hk hne y hy := by
    rw [Bucket.get_insert]
    split
    · exact Option.some_ne_none _
    · rw [Bucket.get_insert] at hk
      split at hk
      · next hxk =>
        obtain rfl := Option.some.inj hk
        rw [hlinks] at hy
        exact h.linked x n hx (hxk ▸ hne) y hy
      · exact h.linked k m hk hne y hy

/-- **Storing the hub** with the links it holds makes the table exact. -/
theorem Settled.store {held : List K} (h : Settled links refs hub held t) {n' : N} (hlinks : links n' = held)
    (hself : hub ∉ held) (hrefs : refs n' = (t[hub]?).elim 0 refs) : Exact links refs (t.insert hub n') where
  exact y m hy := by
    rw [pointing_eq links hub, pointers_insert_hub, Bucket.get_insert, if_pos rfl, Option.elim, hlinks]
    rw [Bucket.get_insert] at hy
    split at hy
    · next hhub =>
      subst hhub
      obtain rfl := Option.some.inj hy
      rw [if_neg hself, hrefs]
      cases hold : t[hub]? with
      | none =>
        -- nothing links to a node that is not there
        refine (pointers_eq_zero fun k n hk hne hx => ?_).symm
        exact h.linked k n hk hne hub hx hold
      | some n =>
        have := h.exact hub n hold
        rwa [if_neg hself] at this
    · exact h.exact y m hy
  linked k m hk y hy := by
    rw [Bucket.get_insert]
    split
    · exact Option.some_ne_none _
    · rw [Bucket.get_insert] at hk
      split at hk
      · obtain rfl := Option.some.inj hk
        rw [hlinks] at hy
        exact h.held y hy
      · next hne => exact h.linked k m hk (Ne.symm hne) y hy

/-- Storing a node with the same links and the same counter changes nothing. -/
theorem Exact.restore (h : Exact links refs t) {n n' : N} (hx : t[x]? = some n) (hlinks : links n' = links n)
    (hrefs : refs n' = refs n) (hself : x ∉ links n) : Exact links refs (t.insert x n') := by
  have hsettled := h.settled x
  rw [hx] at hsettled
  apply hsettled.store hlinks hself
  rw [hx]
  exact hrefs

/-- **Dropping the hub**, which holds nothing and which nothing links to, keeps the table exact. -/
theorem Settled.drop (h : Settled links refs hub [] t) (hrefs : ∀ n : N, t[hub]? = some n → refs n = 0) :
    Exact links refs (t.erase hub) where
  exact y m hy := by
    rw [Bucket.get_erase] at hy
    split at hy
    · cases hy
    · have hcount := Bucket.total_set_add (fun k n => if k ≠ hub ∧ y ∈ links n then 1 else 0) t hub none
      have hzero : Bucket.weight (fun k n => if k ≠ hub ∧ y ∈ links n then 1 else 0) t hub = 0 := by
        unfold Bucket.weight
        cases t[hub]? <;> simp
      rw [hzero] at hcount
      rw [pointing_eq links hub, Bucket.get_erase, if_pos rfl, h.exact y m hy]
      exact congrArg (· + _) hcount.symm
  linked k m hk y hy := by
    rw [Bucket.get_erase] at hk
    split at hk
    · cases hk
    · next hne =>
      have hlive := h.linked k m hk (Ne.symm hne) y hy
      rw [Bucket.get_erase]
      split
      · next hhub =>
        subst hhub
        obtain ⟨n, hn⟩ := Option.ne_none_iff_exists'.mp hlive
        have hcount := h.exact hub n hn
        rw [hrefs n hn, if_neg List.not_mem_nil] at hcount
        have := pointers_pos hk (Ne.symm hne) hy
        omega
      · exact hlive

end Lib.RefCount
