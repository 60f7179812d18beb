/-
# Lib.Bucket — ordered key/value buckets

An ordered key/value bucket IS the standard extensional tree map: keys iterate in `compare` order,
two buckets with the same entries are EQUAL, and `get` / `put` / `delete` are `b[k]?`, `insert` and
`erase`. This module adds what a store proof needs on top of the standard API:

* reads through a write stated with `=` on keys (`get_insert`, `get_erase`), and the tagged write
  `set b k o` (`some v` puts, `none` deletes) that restoring a pre-image needs;
* `total f b`, the sum of a weight over all entries, with its one-entry update laws;
* product and subtype keys.
-/
import Mathlib

namespace Lib

open Std

/-! ## §1 — keys -/

/-- Pairs order lexicographically, first component major. -/
instance instOrdPair {α β : Type} [Ord α] [Ord β] : Ord (α × β) := lexOrd

instance instTransOrdPair {α β : Type} [Ord α] [Ord β] [TransOrd α] [TransOrd β] :
    TransOrd (α × β) :=
  inferInstanceAs (TransCmp (compareLex (compareOn fun x : α × β => x.1) (compareOn fun x => x.2)))

instance instLawfulEqOrdPair {α β : Type} [Ord α] [Ord β] [LawfulEqOrd α] [LawfulEqOrd β] :
    LawfulEqOrd (α × β) where
  compare_self := by
    rintro ⟨a, b⟩
    simp [compare, compareLex, compareOn]
  eq_of_compare := by
    rintro ⟨a, b⟩ ⟨c, d⟩ h
    simp only [compare, compareLex, compareOn, Ordering.then_eq_eq] at h
    exact Prod.ext (LawfulEqOrd.eq_of_compare h.1) (LawfulEqOrd.eq_of_compare h.2)

instance instTransOrdSubtype {α : Type} [Ord α] [TransOrd α] {p : α → Prop} :
    TransOrd {a // p a} :=
  inferInstanceAs (TransCmp (compareOn fun x : {a // p a} => x.1))

instance instLawfulEqOrdSubtype {α : Type} [Ord α] [LawfulEqOrd α] {p : α → Prop} :
    LawfulEqOrd {a // p a} where
  compare_self := by
    rintro ⟨a, ha⟩
    exact (compare_self : compare a a = .eq)
  eq_of_compare := by
    rintro ⟨a, ha⟩ ⟨b, hb⟩ h
    exact Subtype.ext (LawfulEqOrd.eq_of_compare (α := α) h)

/-- The one-entry bucket. -/
instance instLawfulEqOrdUnit : LawfulEqOrd Unit where
  compare_self := rfl
  eq_of_compare _ := rfl

/-! ## §2 — reads through writes -/

/-- **`Bucket`** — an ordered bucket from keys to values. -/
abbrev Bucket (α β : Type) [Ord α] := ExtTreeMap α β compare

namespace Bucket

variable {α β : Type} [Ord α] [TransOrd α] [LawfulEqOrd α] [DecidableEq α]

@[simp] theorem get_insert (b : Bucket α β) (k a : α) (v : β) :
    (b.insert k v)[a]? = if k = a then some v else b[a]? := by
  simp [ExtTreeMap.getElem?_insert]

@[simp] theorem get_erase (b : Bucket α β) (k a : α) :
    (b.erase k)[a]? = if k = a then none else b[a]? := by
  simp [ExtTreeMap.getElem?_erase]

theorem get_foldl_erase (l : List α) (b : Bucket α β) (a : α) :
    (l.foldl (fun b k => b.erase k) b)[a]? = if a ∈ l then none else b[a]? := by
  induction l generalizing b with
  | nil => simp
  | cons k l ih =>
    rw [List.foldl_cons, ih, get_erase]
    by_cases hk : k = a
    · simp [hk]
    · simp [hk, Ne.symm hk]

/-- Inserting a list of rows: a key of a row holds a value of such a row, and another key what it held. -/
theorem get_foldl_insert {γ : Type} (key : γ → α) (val : γ → β) (l : List γ) (b : Bucket α β) (a : α) :
    (a ∉ l.map key → (l.foldl (fun b e => b.insert (key e) (val e)) b)[a]? = b[a]?) ∧
      (a ∈ l.map key → ∃ e ∈ l, key e = a ∧
        (l.foldl (fun b e => b.insert (key e) (val e)) b)[a]? = some (val e)) := by
  induction l generalizing b with
  | nil => exact ⟨fun _ => rfl, fun h => absurd h List.not_mem_nil⟩
  | cons e l ih =>
    rcases ih (b.insert (key e) (val e)) with ⟨hother, hrow⟩
    rw [List.map_cons, List.mem_cons, List.foldl_cons]
    by_cases hmem : a ∈ l.map key
    · refine ⟨fun h => absurd (.inr hmem) h, fun _ => ?_⟩
      rcases hrow hmem with ⟨e', he', hkey, hget⟩
      exact ⟨e', List.mem_cons_of_mem e he', hkey, hget⟩
    · rw [hother hmem, get_insert]
      by_cases hkey : key e = a
      · exact ⟨fun h => absurd (.inl hkey.symm) h, fun _ => ⟨e, List.mem_cons_self, hkey, if_pos hkey⟩⟩
      · refine ⟨fun _ => if_neg hkey, fun h => ?_⟩
        rcases h with h | h
        · exact absurd h.symm hkey
        · exact absurd h hmem

/-- **`apart l b`** — the keys of the list are pairwise distinct and not in the bucket, by lookups. -/
def apart : List α → Bucket α Unit → Bool
  | [], _ => true
  | k :: l, b => b[k]?.isNone && apart l (b.insert k ())

theorem nodup_of_apart {l : List α} {b : Bucket α Unit} (h : apart l b = true) :
    l.Nodup ∧ ∀ k ∈ l, b[k]? = none := by
  induction l generalizing b with
  | nil => exact ⟨List.nodup_nil, nofun⟩
  | cons k l ih =>
    rcases Bool.and_eq_true_iff.mp h with ⟨hk, hl⟩
    rcases ih hl with ⟨hnodup, hfresh⟩
    have hother : ∀ a ∈ l, k ≠ a ∧ b[a]? = none := by
      intro a ha
      have := hfresh a ha
      rw [get_insert] at this
      split at this
      · cases this
      · next hne => exact ⟨hne, this⟩
    refine ⟨List.nodup_cons.mpr ⟨fun hmem => (hother k hmem).1 rfl, hnodup⟩, List.forall_mem_cons.mpr ⟨?_, ?_⟩⟩
    · exact Option.isNone_iff_eq_none.mp hk
    · exact fun a ha => (hother a ha).2

omit [DecidableEq α] in
theorem ext_get {b d : Bucket α β} (h : ∀ k : α, b[k]? = d[k]?) : b = d :=
  ExtTreeMap.ext_getElem? h

/-- **`set`** — write an optional value: `some v` puts, `none` deletes. -/
def set (b : Bucket α β) (k : α) : Option β → Bucket α β
  | some v => b.insert k v
  | none => b.erase k

@[simp] theorem get_set (b : Bucket α β) (k a : α) (o : Option β) :
    (set b k o)[a]? = if k = a then o else b[a]? := by
  cases o <;> simp [set]

theorem set_get_self (b : Bucket α β) (k : α) : set b k b[k]? = b := by
  refine ext_get fun a => ?_
  rw [get_set]
  split
  · next h => rw [h]
  · rfl

/-! ## §3 — entries and totals -/

omit [DecidableEq α] in
theorem mem_toList_iff (b : Bucket α β) (k : α) (v : β) : (k, v) ∈ b.toList ↔ b[k]? = some v :=
  ExtTreeMap.mem_toList_iff_getElem?_eq_some

/-- Erasing, one by one, the entries whose key satisfies `p`. -/
theorem get_foldl_erase_filter (p : α → Bool) (b : Bucket α β) (a : α) :
    (((b.toList.filter fun e => p e.1).map Prod.fst).foldl (fun b k => b.erase k) b)[a]? =
      if p a = true then none else b[a]? := by
  rw [get_foldl_erase]
  by_cases hp : p a = true
  · rw [if_pos hp]
    by_cases hnone : b[a]? = none
    · rw [hnone, ite_self]
    · rcases Option.ne_none_iff_exists'.mp hnone with ⟨v, hv⟩
      refine if_pos (List.mem_map.mpr ⟨(a, v), List.mem_filter.mpr ⟨?_, hp⟩, rfl⟩)
      exact (mem_toList_iff b a v).mpr hv
  · rw [if_neg hp, if_neg]
    intro hmem
    rcases List.mem_map.mp hmem with ⟨e, he, rfl⟩
    exact hp (List.mem_filter.mp he).2

omit [LawfulEqOrd α] [DecidableEq α] in
theorem nodup_toList (b : Bucket α β) : b.toList.Nodup := by
  refine List.Pairwise.imp ?_ b.ordered_keys_toList
  rintro ⟨a, x⟩ ⟨_, _⟩ h ⟨⟩
  simp at h

omit [LawfulEqOrd α] [DecidableEq α] in
theorem nodup_keys (b : Bucket α β) : (b.toList.map Prod.fst).Nodup := by
  refine List.pairwise_map.mpr (List.Pairwise.imp ?_ b.ordered_keys_toList)
  rintro ⟨a, x⟩ ⟨_, _⟩ h ⟨⟩
  simp at h

omit [DecidableEq α] in
/-- A bucket has at least as many entries as it has distinct keys found in it. -/
theorem length_le_size {b : Bucket α β} {l : List α} (hl : l.Nodup) (hmem : ∀ k ∈ l, (b[k]?).isSome = true) :
    l.length ≤ b.size := by
  have hsub : l ⊆ b.toList.map Prod.fst := by
    intro k hk
    obtain ⟨v, hv⟩ := Option.isSome_iff_exists.mp (hmem k hk)
    exact List.mem_map.mpr ⟨(k, v), (mem_toList_iff b k v).mpr hv, rfl⟩
  have hlen := (List.subperm_of_subset hl hsub).length_le
  simpa using hlen

theorem toList_insert_perm (b : Bucket α β) (k : α) (v : β) :
    (b.insert k v).toList.Perm ((k, v) :: (b.erase k).toList) := by
  have hfresh : (k, v) ∉ (b.erase k).toList := by simp
  refine (List.perm_ext_iff_of_nodup (nodup_toList _)
    (List.nodup_cons.mpr ⟨hfresh, nodup_toList _⟩)).mpr ?_
  rintro ⟨a, w⟩
  rw [mem_toList_iff, List.mem_cons, mem_toList_iff, get_insert, get_erase]
  by_cases h : k = a
  · subst h
    simp [eq_comm]
  · simp [h, Ne.symm h]

variable {M : Type} [AddCommMonoid M]

/-- **`total`** — the sum of the weight `f` over every entry of the bucket. -/
def total (f : α → β → M) (b : Bucket α β) : M :=
  (b.toList.map fun e => f e.1 e.2).sum

/-- The weight of the entry at one key, zero when the key is absent. -/
def weight (f : α → β → M) (b : Bucket α β) (k : α) : M :=
  (b[k]?).elim 0 (f k)

omit [LawfulEqOrd α] [DecidableEq α] in
@[simp] theorem total_empty (f : α → β → M) : total f (∅ : Bucket α β) = 0 := rfl

theorem total_insert (f : α → β → M) (b : Bucket α β) (k : α) (v : β) :
    total f (b.insert k v) = f k v + total f (b.erase k) := by
  have h := ((toList_insert_perm b k v).map fun e => f e.1 e.2).sum_eq
  simpa [total] using h

omit [DecidableEq α] in
theorem total_congr {f g : α → β → M} {b : Bucket α β} (h : ∀ (k : α) (v : β), b[k]? = some v → f k v = g k v) :
    total f b = total g b := by
  unfold total
  congr 1
  apply List.map_congr_left
  intro e he
  exact h e.1 e.2 ((mem_toList_iff b e.1 e.2).mp he)

theorem total_eq_weight_add (f : α → β → M) (b : Bucket α β) (k : α) :
    total f b = weight f b k + total f (b.erase k) := by
  cases h : b[k]? with
  | none =>
    have herase : b.erase k = b := by
      refine ext_get fun a => ?_
      rw [get_erase]
      split
      · next ha => rw [← ha, h]
      · rfl
    simp [weight, h, herase]
  | some v =>
    have hins : b.insert k v = b := by
      rw [show b.insert k v = set b k b[k]? by rw [h]; rfl, set_get_self]
    have := total_insert f b k v
    rw [hins] at this
    simpa [weight, h] using this

/-- **The one-entry update law**: a write moves the total by exactly the weights at its key. -/
theorem total_set_add (f : α → β → M) (b : Bucket α β) (k : α) (o : Option β) :
    total f (set b k o) + weight f b k = total f b + o.elim 0 (f k) := by
  rw [total_eq_weight_add f b k]
  cases o with
  | none => simp [set, add_comm]
  | some v =>
    simp only [set, total_insert, Option.elim]
    abel

theorem total_insert_add (f : α → β → M) (b : Bucket α β) (k : α) (v : β) :
    total f (b.insert k v) + weight f b k = total f b + f k v :=
  total_set_add f b k (some v)

end Bucket
end Lib
