/-
# Lib.AsOf — reading a versioned bucket as of an earlier height

The history index of a versioned bucket lists, for every key, the heights at which it changed, in order. The
value of a key as of height `h` is the pre-image of its FIRST change after `h`; a key that did not change
after `h` still has that value. The read is one seek into the index: the first entry at or past
`(k, h + 1)`, if it is one of `k`.

DELIVERABLE: `asOf_since` — recorded writes at a new height change no read below it — and `asOf_top`: at the
top height the read is the current value.
-/
import NgCore.Lib.Versioned

namespace Lib

open Std

/-! ## §1 — seeking -/

namespace Bucket

variable {α β : Type} [Ord α] [TransOrd α]

/-- **`seek`** — the first entry at or past a key, in key order. -/
def seek (b : Bucket α β) (k : α) : Option (α × β) := b.toList.find? fun e => (compare k e.1).isLE

/-- What a seek finds stands at or past the key, and no entry there comes before it. -/
theorem seek_eq_some {b : Bucket α β} {k : α} {e : α × β} (h : b.seek k = some e) :
    e ∈ b.toList ∧ (compare k e.1).isLE ∧ ∀ e' ∈ b.toList, (compare k e'.1).isLE → (compare e.1 e'.1).isLE := by
  unfold seek at h
  obtain ⟨hle, before, after, hsplit, hbefore⟩ := List.find?_eq_some_iff_append.mp h
  have hsorted := b.ordered_keys_toList
  rw [hsplit] at hsorted ⊢
  refine ⟨by simp, hle, ?_⟩
  intro e' he' hle'
  rcases List.mem_append.mp he' with hin | hin
  · -- entries before the hit are short of the key
    have hnot := hbefore e' hin
    rw [hle'] at hnot
    cases hnot
  · rcases List.mem_cons.mp hin with rfl | hin
    · rw [ReflOrd.compare_self]
      rfl
    · have hlt := (List.pairwise_cons.mp (List.pairwise_append.mp hsorted).2.1).1 e' hin
      rw [hlt]
      rfl

theorem seek_eq_none {b : Bucket α β} {k : α} (h : b.seek k = none) :
    ∀ e ∈ b.toList, (compare k e.1).isLE = false := by
  intro e he
  unfold seek at h
  simpa using List.find?_eq_none.mp h e he

end Bucket

namespace Versioned

variable {K V : Type} [Ord K] [TransOrd K] [LawfulEqOrd K] [DecidableEq K]

/-! ## §2 — the first change after a height -/

/-- **`firstChangeAfter`** — the smallest height above `h` at which the index lists `k`; the seek may land on
another key. -/
def firstChangeAfter (k : K) (h : Nat) (d : Versioned K V) : Option Nat :=
  match Bucket.seek d.hist (k, h + 1) with
  | none => none
  | some e => if e.1.1 = k then some e.1.2 else none

omit [DecidableEq K] in
/-- Between two index entries of one key stand only entries of that key. -/
theorem between {k : K} {h m : Nat} {e : K × Nat} (hlow : (compare (k, h) e).isLE)
    (hhigh : (compare e (k, m)).isLE) : e.1 = k ∧ h ≤ e.2 ∧ e.2 ≤ m := by
  obtain ⟨k', n⟩ := e
  replace hlow : ((compare k k').then (compare h n)).isLE := hlow
  replace hhigh : ((compare k' k).then (compare n m)).isLE := hhigh
  rw [Ordering.isLE_then_iff_and] at hlow hhigh
  obtain rfl : k = k' := LawfulEqOrd.eq_of_compare (OrientedCmp.isLE_antisymm hlow.1 hhigh.1)
  have hself : compare k k ≠ .lt := by
    rw [ReflOrd.compare_self]
    decide
  refine ⟨rfl, ?_, ?_⟩
  · exact Nat.isLE_compare.mp (hlow.2.resolve_left hself)
  · exact Nat.isLE_compare.mp (hhigh.2.resolve_left hself)

omit [TransOrd K] [DecidableEq K] in
theorem compare_heights (k : K) (h m : Nat) : (compare (k, h) (k, m)).isLE = true ↔ h ≤ m := by
  show ((compare k k).then (compare h m)).isLE = true ↔ _
  rw [ReflOrd.compare_self]
  exact Nat.isLE_compare

/-- **The law of the seek**: a change after `h`, and the first one. -/
theorem firstChangeAfter_eq_some {k : K} {h m : Nat} {d : Versioned K V} :
    d.firstChangeAfter k h = some m ↔
      h < m ∧ d.hist[(k, m)]? = some () ∧ ∀ m', h < m' → d.hist[(k, m')]? = some () → m ≤ m' := by
  unfold firstChangeAfter
  constructor
  · intro hfirst
    cases hseek : Bucket.seek d.hist (k, h + 1) with
    | none =>
      rw [hseek] at hfirst
      cases hfirst
    | some e =>
      obtain ⟨⟨k', n⟩, u⟩ := e
      rw [hseek] at hfirst
      obtain ⟨hmem, hle, hleast⟩ := Bucket.seek_eq_some hseek
      dsimp only at hfirst hle hleast
      split at hfirst
      · next hk =>
        subst hk
        obtain rfl := Option.some.inj hfirst
        refine ⟨(compare_heights k' (h + 1) n).mp hle, (Bucket.mem_toList_iff _ _ _).mp hmem, ?_⟩
        intro m' hm' hlisted
        exact (compare_heights k' n m').mp
          (hleast ((k', m'), ()) ((Bucket.mem_toList_iff _ _ _).mpr hlisted) ((compare_heights k' (h + 1) m').mpr hm'))
      · cases hfirst
  · rintro ⟨hlt, hlisted, hleast⟩
    have hthere : (compare (k, h + 1) (k, m)).isLE := (compare_heights k (h + 1) m).mpr hlt
    have hmem : ((k, m), ()) ∈ d.hist.toList := (Bucket.mem_toList_iff _ _ _).mpr hlisted
    cases hseek : Bucket.seek d.hist (k, h + 1) with
    | none => rw [Bucket.seek_eq_none hseek _ hmem] at hthere; cases hthere
    | some e =>
      obtain ⟨hin, hle, hfirst⟩ := Bucket.seek_eq_some hseek
      obtain ⟨hk, hlow, hhigh⟩ := between hle (hfirst _ hmem hthere)
      dsimp only
      rw [if_pos hk]
      have hown : d.hist[(k, e.1.2)]? = some () := by
        rw [← hk]
        exact (Bucket.mem_toList_iff d.hist e.1 e.2).mp hin
      exact congrArg some (Nat.le_antisymm hhigh (hleast _ hlow hown))

theorem firstChangeAfter_eq_none {k : K} {h : Nat} {d : Versioned K V} :
    d.firstChangeAfter k h = none ↔ ∀ m, h < m → d.hist[(k, m)]? = none := by
  constructor
  · intro hnone m hm
    by_contra hlisted
    -- the least listed height would have been found
    have hexists : ∃ m, h < m ∧ d.hist[(k, m)]? = some () :=
      ⟨m, hm, by obtain ⟨u, hu⟩ := Option.ne_none_iff_exists'.mp hlisted; exact hu⟩
    classical
    have hfound := firstChangeAfter_eq_some.mpr
      ⟨(Nat.find_spec hexists).1, (Nat.find_spec hexists).2, fun m' h₁ h₂ => Nat.find_le ⟨h₁, h₂⟩⟩
    rw [hnone] at hfound
    cases hfound
  · intro hall
    cases hfirst : d.firstChangeAfter k h with
    | none => rfl
    | some m =>
      obtain ⟨hlt, hlisted, -⟩ := firstChangeAfter_eq_some.mp hfirst
      rw [hall m hlt] at hlisted
      cases hlisted

/-! ## §3 — the read -/

/-- **`asOf`** — the value of `k` as of height `h`. -/
def asOf (h : Nat) (k : K) (d : Versioned K V) : Option V :=
  match d.firstChangeAfter k h with
  | none => d.cur[k]?
  | some m => (d.cs[(m, k)]?).getD none

theorem asOf_top {n : Nat} {d : Versioned K V} (hd : Below true (n + 1) d) (k : K) : d.asOf n k = d.cur[k]? := by
  have hnone : d.firstChangeAfter k n = none := by
    rw [firstChangeAfter_eq_none]
    intro m hm
    by_contra hlisted
    exact (hd.hist k m hlisted).2 (hd.cs m k hm)
  unfold asOf
  rw [hnone]

/-- **Writes at a new height change no read below it.** -/
theorem asOf_since {n h : Nat} (hh : h < n) {d₀ d : Versioned K V} (hd : Below true n d₀) (hs : Since true n d₀ d)
    (k : K) : d.asOf h k = d₀.asOf h k := by
  have hhist : ∀ m, m ≠ n → d.hist[(k, m)]? = d₀.hist[(k, m)]? := by
    intro m hm
    rw [hs.hist, if_neg fun hc => hm hc.2.1]
  have hbelow : ∀ m, d₀.hist[(k, m)]? = some () → m < n := by
    intro m hm
    by_contra hle
    have hlisted : d₀.hist[(k, m)]? ≠ none := by
      rw [hm]
      exact Option.some_ne_none ()
    exact (hd.hist k m hlisted).2 (hd.cs m k (Nat.not_lt.mp hle))
  unfold asOf
  cases hfirst : d₀.firstChangeAfter k h with
  | some m =>
    -- an earlier change: it is still the first, with the same row
    obtain ⟨hlt, hlisted, hleast⟩ := firstChangeAfter_eq_some.mp hfirst
    have hm := hbelow m hlisted
    have hsame : d.firstChangeAfter k h = some m := by
      rw [firstChangeAfter_eq_some]
      refine ⟨hlt, (hhist m (by omega)).trans hlisted, ?_⟩
      intro m' hm' hlisted'
      by_cases hn : m' = n
      · omega
      · exact hleast m' hm' ((hhist m' hn).symm.trans hlisted')
    rw [hsame]
    dsimp only
    rw [hs.cs m k (by omega)]
  | none =>
    have hnone := firstChangeAfter_eq_none.mp hfirst
    have hcur := hs.cur k
    cases hrow : d.cs[(n, k)]? with
    | none =>
      have hsame : d.firstChangeAfter k h = none := by
        rw [firstChangeAfter_eq_none]
        intro m hm
        by_cases hn : m = n
        · rw [hs.hist, if_neg fun hc => hc.2.2 hrow]
          exact hnone m hm
        · rw [hhist m hn]
          exact hnone m hm
      rw [hrow] at hcur
      rw [hsame]
      exact hcur
    | some o =>
      -- the new height is the first change: its row holds the old value
      have hsame : d.firstChangeAfter k h = some n := by
        rw [firstChangeAfter_eq_some]
        refine ⟨hh, ?_, ?_⟩
        · rw [hs.hist, if_pos ⟨rfl, rfl, by rw [hrow]; exact Option.some_ne_none o⟩]
        · intro m' hm' hlisted'
          by_contra hlt
          rw [hhist m' (by omega), hnone m' hm'] at hlisted'
          cases hlisted'
      rw [hrow] at hcur
      rw [hsame]
      dsimp only
      rw [hrow]
      exact hcur

end Versioned

/-! ## §4 — byte keys -/

/-- **`bigEndian width n`** — the low `width` bytes of a number, most significant first. -/
def bigEndian : (width : Nat) → Nat → List UInt8
  | 0, _ => []
  | width + 1, n => UInt8.ofNat (n / 256 ^ width % 256) :: bigEndian width n

theorem length_bigEndian (width n : Nat) : (bigEndian width n).length = width := by
  induction width with
  | zero => rfl
  | succ width ih => rw [bigEndian, List.length_cons, ih]

theorem compare_cons (a b : UInt8) (x y : List UInt8) :
    compare (a :: x) (b :: y) = (compare a b).then (compare x y) :=
  List.compareLex_cons_cons

/-- Strings with prefixes of one length compare by the prefixes first. -/
theorem compare_append {x y : List UInt8} (h : x.length = y.length) (u v : List UInt8) :
    compare (x ++ u) (y ++ v) = (compare x y).then (compare u v) := by
  induction x generalizing y with
  | nil =>
    obtain rfl := List.length_eq_zero_iff.mp h.symm
    rw [ReflOrd.compare_self]
    rfl
  | cons a x ih =>
    cases y with
    | nil => cases h
    | cons b y =>
      rw [List.cons_append, List.cons_append, compare_cons, compare_cons, ih (Nat.succ.inj h), Ordering.then_assoc]

theorem compare_uint8 (a b : UInt8) : compare a b = compare a.toNat b.toNat := by
  show compareOfLessAndEq a b = _
  rw [Nat.compare_eq_ite_lt]
  unfold compareOfLessAndEq
  simp only [UInt8.lt_iff_toNat_lt, ← UInt8.toNat_inj]
  split
  · rfl
  · split <;> split <;> first | rfl | omega

theorem compare_digits {q a b r s : Nat} (hr : r < q) (hs : s < q) :
    compare (a * q + r) (b * q + s) = (compare a b).then (compare r s) := by
  rcases Nat.lt_trichotomy a b with hlt | rfl | hlt
  · have hle : (a + 1) * q ≤ b * q := Nat.mul_le_mul_right q hlt
    rw [Nat.compare_eq_lt.mpr hlt, Nat.compare_eq_lt.mpr (by rw [Nat.add_mul] at hle; omega)]
    rfl
  · rw [ReflOrd.compare_self, Nat.compare_eq_ite_lt, Nat.compare_eq_ite_lt]
    simp only [Nat.add_lt_add_iff_left]
    rfl
  · have hle : (b + 1) * q ≤ a * q := Nat.mul_le_mul_right q hlt
    rw [Nat.compare_eq_gt.mpr hlt, Nat.compare_eq_gt.mpr (by rw [Nat.add_mul] at hle; omega)]
    rfl

/-- **Big-endian keys sort like their numbers.** -/
theorem compare_bigEndian (width n m : Nat) :
    compare (bigEndian width n) (bigEndian width m) = compare (n % 256 ^ width) (m % 256 ^ width) := by
  induction width with
  | zero => rw [Nat.pow_zero, Nat.mod_one, Nat.mod_one]; rfl
  | succ width ih =>
    have hdigit : ∀ k : Nat, k % 256 ^ (width + 1) = k / 256 ^ width % 256 * 256 ^ width + k % 256 ^ width := by
      intro k
      rw [Nat.pow_succ, Nat.mod_mul, Nat.mul_comm, Nat.add_comm]
    have hbyte : ∀ k : Nat, (UInt8.ofNat (k / 256 ^ width % 256)).toNat = k / 256 ^ width % 256 := by
      intro k
      rw [UInt8.toNat_ofNat']
      exact Nat.mod_eq_of_lt (Nat.mod_lt _ (by decide))
    rw [bigEndian, bigEndian, compare_cons, ih, compare_uint8, hbyte, hbyte, hdigit n, hdigit m]
    exact (compare_digits (Nat.mod_lt _ (by positivity)) (Nat.mod_lt _ (by positivity))).symm

end Lib
