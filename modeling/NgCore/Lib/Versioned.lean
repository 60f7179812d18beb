/-
# Lib.Versioned — buckets with per-height undo records

A versioned bucket carries, next to its current entries, a CHANGESET — for every height and key the
value the key had before its first write at that height (`none` when it had none) — and an optional
history index of which keys changed when. `record` writes such a row once per height and key;
`revert h` puts every row of height `h` back and drops it.

DELIVERABLE: `revert_eq` — whatever sequence of recorded writes happened at a height with no rows yet,
reverting that height gives back the bucket, its changeset and its index EXACTLY. The sequence enters
only through `Since h d₀ d`, a relation every recorded write preserves (`Since.write`), and the rows
through `Below n d`: every row stands below `n`.
-/
import NgCore.Lib.Bucket

namespace Lib

open Std

/-- **`Versioned`** — current entries, undo rows by height and key, history index by key and height. -/
structure Versioned (K V : Type) [Ord K] where
  cur : Bucket K V
  cs : Bucket (Nat × K) (Option V)
  hist : Bucket (K × Nat) Unit

namespace Versioned

variable {K V : Type} [Ord K] [TransOrd K] [LawfulEqOrd K] [DecidableEq K]

/-! ## §1 — operations -/

omit [TransOrd K] [LawfulEqOrd K] [DecidableEq K] in
/-- No entries and no history. -/
def empty : Versioned K V := ⟨∅, ∅, ∅⟩

/-- **`record`** — remember `old` as the value `k` had before height `rec`, unless this height already has
a row for `k`; without a height nothing is recorded. -/
def record (indexed : Bool) (rec : Option Nat) (k : K) (old : Option V) (d : Versioned K V) :
    Versioned K V :=
  match rec with
  | none => d
  | some h =>
    if (d.cs[(h, k)]?).isSome then d
    else { d with
      cs := d.cs.insert (h, k) old
      hist := if indexed then d.hist.insert (k, h) () else d.hist }

/-- **`write`** — record the current value, then put or delete. -/
def write (indexed : Bool) (rec : Option Nat) (k : K) (o : Option V) (d : Versioned K V) :
    Versioned K V :=
  let d := d.record indexed rec k d.cur[k]?
  { d with cur := d.cur.set k o }

/-- The rows of one height. -/
def entriesAt (h : Nat) (d : Versioned K V) : List (K × Option V) :=
  (d.cs.toList.filter fun e => e.1.1 = h).map fun e => (e.1.2, e.2)

/-- Put one row back and drop it. -/
def revertEntry (indexed : Bool) (h : Nat) (d : Versioned K V) (e : K × Option V) : Versioned K V where
  cur := d.cur.set e.1 e.2
  cs := d.cs.erase (h, e.1)
  hist := if indexed then d.hist.erase (e.1, h) else d.hist

/-- **`revert`** — put every row of height `h` back. -/
def revert (indexed : Bool) (h : Nat) (d : Versioned K V) : Versioned K V :=
  (d.entriesAt h).foldl (revertEntry indexed h) d

/-! ## §2 — what the operations do, entry by entry -/

omit [DecidableEq K] in
theorem mem_entriesAt {h : Nat} {d : Versioned K V} {k : K} {o : Option V} :
    (k, o) ∈ d.entriesAt h ↔ d.cs[(h, k)]? = some o := by
  unfold entriesAt
  rw [List.mem_map]
  constructor
  · rintro ⟨⟨⟨h', k'⟩, o'⟩, hmem, heq⟩
    obtain ⟨hin, hh⟩ := List.mem_filter.mp hmem
    obtain ⟨rfl, rfl⟩ := Prod.mk.inj heq
    obtain rfl : h' = h := by simpa using hh
    exact (Bucket.mem_toList_iff d.cs (h', k') o').mp hin
  · intro hget
    exact ⟨((h, k), o), List.mem_filter.mpr ⟨(Bucket.mem_toList_iff _ _ _).mpr hget, by simp⟩, rfl⟩

omit [LawfulEqOrd K] [DecidableEq K] in
@[simp] theorem cur_record (indexed : Bool) (rec : Option Nat) (k : K) (old : Option V)
    (d : Versioned K V) : (d.record indexed rec k old).cur = d.cur := by
  unfold record
  split
  · rfl
  · split <;> rfl

@[simp] theorem cur_write (indexed : Bool) (rec : Option Nat) (k a : K) (o : Option V)
    (d : Versioned K V) :
    (d.write indexed rec k o).cur[a]? = if k = a then o else d.cur[a]? := by
  show ((d.record indexed rec k d.cur[k]?).cur.set k o)[a]? = _
  rw [Bucket.get_set, cur_record]

/-- A recorded write adds its row exactly when the height has none for the key. -/
theorem cs_write (indexed : Bool) (h : Nat) (k : K) (o : Option V) (d : Versioned K V)
    (h' : Nat) (a : K) :
    (d.write indexed (some h) k o).cs[(h', a)]? =
      if h = h' ∧ k = a ∧ d.cs[(h, k)]? = none then some d.cur[k]? else d.cs[(h', a)]? := by
  show (d.record indexed (some h) k d.cur[k]?).cs[(h', a)]? = _
  unfold record
  cases hrow : d.cs[(h, k)]? with
  | some old => simp [hrow]
  | none =>
    simp only [hrow, Option.isSome_none, Bool.false_eq_true, if_false, Bucket.get_insert,
      Prod.mk.injEq, and_true]

theorem hist_write (h : Nat) (k : K) (o : Option V) (d : Versioned K V) (a : K) (h' : Nat) :
    (d.write true (some h) k o).hist[(a, h')]? =
      if k = a ∧ h = h' ∧ d.cs[(h, k)]? = none then some () else d.hist[(a, h')]? := by
  show (d.record true (some h) k d.cur[k]?).hist[(a, h')]? = _
  unfold record
  cases hrow : d.cs[(h, k)]? with
  | some old => simp [hrow]
  | none =>
    simp only [hrow, Option.isSome_none, Bool.false_eq_true, if_false, if_true, Bucket.get_insert,
      Prod.mk.injEq, and_true]

/-- Folding rows back, entry by entry: a listed key gets the value its rows agree on. -/
theorem cur_foldl_revertEntry (indexed : Bool) (h : Nat) (l : List (K × Option V))
    (d : Versioned K V) (k : K) (o : Option V) (hl : ∀ e ∈ l, e.1 = k → e.2 = o) :
    (l.foldl (revertEntry indexed h) d).cur[k]? =
      if k ∈ l.map Prod.fst then o else d.cur[k]? := by
  induction l generalizing d with
  | nil => simp
  | cons e l ih =>
    rw [List.foldl_cons, ih _ fun e' he' => hl e' (by simp [he'])]
    have hcur : (revertEntry indexed h d e).cur[k]? = if e.1 = k then e.2 else d.cur[k]? :=
      Bucket.get_set d.cur e.1 k e.2
    by_cases hek : e.1 = k
    · have heo := hl e (by simp) hek
      rw [hcur, if_pos hek, heo, ite_self, if_pos]
      rw [List.map_cons, hek]
      exact List.mem_cons_self
    · by_cases hmem : k ∈ l.map Prod.fst
      · rw [if_pos hmem, List.map_cons, if_pos (List.mem_cons_of_mem _ hmem)]
      · rw [if_neg hmem, hcur, if_neg hek, if_neg]
        rw [List.map_cons, List.mem_cons, not_or]
        exact ⟨fun hke => hek hke.symm, hmem⟩

theorem cs_foldl_revertEntry (indexed : Bool) (h : Nat) (l : List (K × Option V))
    (d : Versioned K V) (h' : Nat) (k : K) :
    (l.foldl (revertEntry indexed h) d).cs[(h', k)]? =
      if h = h' ∧ k ∈ l.map Prod.fst then none else d.cs[(h', k)]? := by
  induction l generalizing d with
  | nil => simp
  | cons e l ih =>
    rw [List.foldl_cons, ih]
    have hcs : (revertEntry indexed h d e).cs[(h', k)]? =
        if h = h' ∧ e.1 = k then none else d.cs[(h', k)]? := by
      show (d.cs.erase (h, e.1))[(h', k)]? = _
      simp only [Bucket.get_erase, Prod.mk.injEq]
    simp only [hcs, List.map_cons, List.mem_cons]
    by_cases hh : h = h' <;> by_cases hmem : k ∈ l.map Prod.fst <;> by_cases hek : e.1 = k <;>
      simp [hh, hmem, hek, eq_comm (a := k)]

theorem hist_foldl_revertEntry (h : Nat) (l : List (K × Option V)) (d : Versioned K V) (k : K)
    (h' : Nat) : (l.foldl (revertEntry true h) d).hist[(k, h')]? =
      if h = h' ∧ k ∈ l.map Prod.fst then none else d.hist[(k, h')]? := by
  induction l generalizing d with
  | nil => simp
  | cons e l ih =>
    rw [List.foldl_cons, ih]
    have hhist : (revertEntry true h d e).hist[(k, h')]? =
        if e.1 = k ∧ h = h' then none else d.hist[(k, h')]? := by
      show (d.hist.erase (e.1, h))[(k, h')]? = _
      simp only [Bucket.get_erase, Prod.mk.injEq]
    simp only [hhist, List.map_cons, List.mem_cons]
    by_cases hh : h = h' <;> by_cases hmem : k ∈ l.map Prod.fst <;> by_cases hek : e.1 = k <;>
      simp [hh, hmem, hek, eq_comm (a := k)]

omit [LawfulEqOrd K] [DecidableEq K] in
theorem hist_foldl_revertEntry_false (h : Nat) (l : List (K × Option V)) (d : Versioned K V) :
    (l.foldl (revertEntry false h) d).hist = d.hist := by
  induction l generalizing d with
  | nil => rfl
  | cons e l ih =>
    rw [List.foldl_cons, ih]
    rfl

omit [DecidableEq K] in
theorem mem_map_entriesAt {h : Nat} {d : Versioned K V} {k : K} :
    k ∈ (d.entriesAt h).map Prod.fst ↔ d.cs[(h, k)]? ≠ none := by
  rw [List.mem_map, Option.ne_none_iff_exists']
  constructor
  · rintro ⟨⟨k', o⟩, hmem, rfl⟩
    exact ⟨o, mem_entriesAt.mp hmem⟩
  · rintro ⟨o, ho⟩
    exact ⟨(k, o), mem_entriesAt.mpr ho, rfl⟩

/-- **`revert`, entry by entry**: rows of the height decide, other keys stay. -/
theorem cur_revert (indexed : Bool) (h : Nat) (d : Versioned K V) (k : K) :
    (d.revert indexed h).cur[k]? = (d.cs[(h, k)]?).getD d.cur[k]? := by
  unfold revert
  rw [cur_foldl_revertEntry indexed h _ d k ((d.cs[(h, k)]?).getD none)]
  · by_cases hk : d.cs[(h, k)]? = none
    · rw [if_neg (fun hmem => mem_map_entriesAt.mp hmem hk), hk]
      rfl
    · rw [if_pos (mem_map_entriesAt.mpr hk)]
      obtain ⟨o, ho⟩ := Option.ne_none_iff_exists'.mp hk
      rw [ho]
      rfl
  · rintro ⟨k', o⟩ hmem hk
    obtain rfl : k' = k := hk
    rw [mem_entriesAt.mp hmem]
    rfl

theorem cur_revert_of_mem {indexed : Bool} {h : Nat} {d : Versioned K V} {e : K × Option V}
    (he : e ∈ d.entriesAt h) : (d.revert indexed h).cur[e.1]? = e.2 := by
  rw [cur_revert, mem_entriesAt.mp he]
  rfl

theorem cur_revert_of_not_mem {indexed : Bool} {h : Nat} {d : Versioned K V} {k : K}
    (hk : ∀ e ∈ d.entriesAt h, e.1 ≠ k) : (d.revert indexed h).cur[k]? = d.cur[k]? := by
  have hrow : d.cs[(h, k)]? = none := by
    rw [Option.eq_none_iff_forall_ne_some]
    intro o ho
    exact hk (k, o) (mem_entriesAt.mpr ho) rfl
  rw [cur_revert, hrow]
  rfl

theorem cs_revert (indexed : Bool) (h : Nat) (d : Versioned K V) (h' : Nat) (k : K) :
    (d.revert indexed h).cs[(h', k)]? = if h = h' then none else d.cs[(h', k)]? := by
  unfold revert
  simp only [cs_foldl_revertEntry, mem_map_entriesAt]
  by_cases hh : h = h'
  · subst hh
    cases d.cs[(h, k)]? <;> simp
  · simp [hh]

theorem cs_of_cs_revert {indexed : Bool} {h : Nat} {d : Versioned K V} {h' : Nat} {k : K}
    {o : Option V} (ho : (d.revert indexed h).cs[(h', k)]? = some o) : d.cs[(h', k)]? = some o := by
  rw [cs_revert] at ho
  split at ho
  · cases ho
  · exact ho

theorem hist_revert (h : Nat) (d : Versioned K V) (k : K) (h' : Nat) :
    (d.revert true h).hist[(k, h')]? =
      if h = h' ∧ d.cs[(h, k)]? ≠ none then none else d.hist[(k, h')]? := by
  unfold revert
  simp only [hist_foldl_revertEntry, mem_map_entriesAt]

omit [LawfulEqOrd K] [DecidableEq K] in
theorem hist_revert_false (h : Nat) (d : Versioned K V) : (d.revert false h).hist = d.hist :=
  hist_foldl_revertEntry_false h _ d

/-! ## §3 — reverting a height undoes exactly that height -/

/-- **`Fresh h d`** — no row of height `h` yet. -/
def Fresh (h : Nat) (d : Versioned K V) : Prop :=
  (∀ k : K, d.cs[(h, k)]? = none) ∧ ∀ k : K, d.hist[(k, h)]? = none

/-- **`Since h d₀ d`** — `d` is `d₀` after recorded writes at height `h`: the rows of that height hold the
values of `d₀`, keys without a row are untouched, and every other row is the one of `d₀`. -/
structure Since (indexed : Bool) (h : Nat) (d₀ d : Versioned K V) : Prop where
  cur : ∀ k : K, (d.cs[(h, k)]?).getD d.cur[k]? = d₀.cur[k]?
  cs : ∀ (h' : Nat) (k : K), h' ≠ h → d.cs[(h', k)]? = d₀.cs[(h', k)]?
  hist : ∀ (k : K) (h' : Nat), d.hist[(k, h')]? =
    if indexed ∧ h' = h ∧ d.cs[(h, k)]? ≠ none then some () else d₀.hist[(k, h')]?

omit [LawfulEqOrd K] [DecidableEq K] in
theorem Since.refl {indexed : Bool} {h : Nat} {d : Versioned K V} (hfresh : Fresh h d) :
    Since indexed h d d where
  cur k := by rw [hfresh.1 k]; rfl
  cs _ _ _ := rfl
  hist k h' := by rw [if_neg]; rintro ⟨-, -, hne⟩; exact hne (hfresh.1 k)

/-- **A recorded write keeps the relation.** -/
theorem Since.write {indexed : Bool} {h : Nat} {d₀ d : Versioned K V} (hs : Since indexed h d₀ d)
    (k : K) (o : Option V) : Since indexed h d₀ (d.write indexed (some h) k o) where
  cur a := by
    rw [cs_write, cur_write, ← hs.cur a]
    by_cases hka : k = a
    · subst hka
      cases hrow : d.cs[(h, k)]? <;> simp
    · simp [hka]
  cs h' a hne := by
    rw [cs_write, if_neg fun hc => hne hc.1.symm, hs.cs h' a hne]
  hist a h' := by
    rw [cs_write]
    cases indexed with
    | false =>
      have hsame : (d.write false (some h) k o).hist = d.hist := by
        show (d.record false (some h) k d.cur[k]?).hist = _
        dsimp only [record]
        split <;> rfl
      rw [hsame, hs.hist a h']
      simp
    | true =>
      rw [hist_write, hs.hist a h']
      by_cases hka : k = a
      · subst hka
        by_cases hh : h = h'
        · subst hh
          cases hrow : d.cs[(h, k)]? <;> simp
        · simp [hh, Ne.symm hh]
      · simp [hka]

/-- **`revert_eq`** — reverting a height gives back what was there before it, rows included. -/
theorem revert_eq {indexed : Bool} {h : Nat} {d₀ d : Versioned K V} (hfresh : Fresh h d₀)
    (hs : Since indexed h d₀ d) : d.revert indexed h = d₀ := by
  have hcur : (d.revert indexed h).cur = d₀.cur := by
    apply Bucket.ext_get
    intro k
    rw [cur_revert, hs.cur]
  have hcs : (d.revert indexed h).cs = d₀.cs := by
    apply Bucket.ext_get
    rintro ⟨h', k⟩
    rw [cs_revert]
    split
    · next hh => rw [← hh, hfresh.1]
    · next hh => rw [hs.cs h' k (Ne.symm hh)]
  have hhist : (d.revert indexed h).hist = d₀.hist := by
    apply Bucket.ext_get
    rintro ⟨k, h'⟩
    cases indexed with
    | false =>
      rw [hist_revert_false, hs.hist]
      simp
    | true =>
      rw [hist_revert, hs.hist]
      by_cases hh : h = h'
      · subst hh
        cases hrow : d.cs[(h, k)]? <;> simp [hfresh.2]
      · simp [hh, Ne.symm hh]
  calc d.revert indexed h
      = ⟨(d.revert indexed h).cur, (d.revert indexed h).cs, (d.revert indexed h).hist⟩ := rfl
    _ = d₀ := by rw [hcur, hcs, hhist]

/-! ## §4 — how far the rows reach -/

/-- **`Below n d`** — every row stands below height `n`, and the index lists only rows. -/
structure Below (indexed : Bool) (n : Nat) (d : Versioned K V) : Prop where
  cs : ∀ (h : Nat) (k : K), n ≤ h → d.cs[(h, k)]? = none
  hist : ∀ (k : K) (h : Nat), d.hist[(k, h)]? ≠ none → indexed = true ∧ d.cs[(h, k)]? ≠ none

omit [LawfulEqOrd K] [DecidableEq K] in
theorem below_empty (indexed : Bool) : Below indexed 0 (empty : Versioned K V) where
  cs h k _ := by simp [empty]
  hist k h hne := by simp [empty] at hne

omit [LawfulEqOrd K] [DecidableEq K] in
theorem Below.fresh {indexed : Bool} {n : Nat} {d : Versioned K V} (hd : Below indexed n d) :
    Fresh n d := by
  refine ⟨fun k => hd.cs n k le_rfl, fun k => ?_⟩
  by_contra hne
  exact (hd.hist k n hne).2 (hd.cs n k le_rfl)

omit [LawfulEqOrd K] [DecidableEq K] in
theorem Below.since {indexed : Bool} {n : Nat} {d₀ d : Versioned K V} (hd : Below indexed n d₀)
    (hs : Since indexed n d₀ d) : Below indexed (n + 1) d where
  cs h k hle := by
    rw [hs.cs h k (by omega), hd.cs h k (by omega)]
  hist k h hne := by
    rw [hs.hist] at hne
    split at hne
    · next hc =>
      rw [hc.2.1]
      exact ⟨hc.1, hc.2.2⟩
    · obtain ⟨hindexed, hrow⟩ := hd.hist k h hne
      refine ⟨hindexed, ?_⟩
      by_cases hsame : h = n
      · rw [hsame] at hrow
        exact absurd (hd.fresh.1 k) hrow
      · rw [hs.cs h k hsame]
        exact hrow

theorem Below.revert {indexed : Bool} {n : Nat} {d : Versioned K V} (hd : Below indexed (n + 1) d) :
    Below indexed n (d.revert indexed n) where
  cs h k hle := by
    rw [cs_revert]
    split
    · rfl
    · exact hd.cs h k (by omega)
  hist k h hne := by
    cases indexed with
    | false =>
      rw [hist_revert_false] at hne
      exact absurd (hd.hist k h hne).1 (by decide)
    | true =>
      rw [hist_revert] at hne
      split at hne
      · exact absurd rfl hne
      · next hc =>
        obtain ⟨-, hrow⟩ := hd.hist k h hne
        refine ⟨rfl, ?_⟩
        rw [cs_revert, if_neg]
        · exact hrow
        · rintro rfl
          exact hc ⟨rfl, hrow⟩

/-! ## §5 — entries, current and remembered -/

/-- **`Holds P d`** — every entry satisfies `P`, also those that only a row remembers. -/
structure Holds (P : K → V → Prop) (d : Versioned K V) : Prop where
  cur : ∀ (k : K) (v : V), d.cur[k]? = some v → P k v
  rows : ∀ (h : Nat) (k : K) (v : V), d.cs[(h, k)]? = some (some v) → P k v

omit [LawfulEqOrd K] [DecidableEq K] in
theorem holds_empty (P : K → V → Prop) : Holds P (empty : Versioned K V) where
  cur k v hv := by simp [empty] at hv
  rows h k v hv := by simp [empty] at hv

/-- A write, recorded or not, of an entry that satisfies `P`. -/
theorem Holds.write {P : K → V → Prop} {d : Versioned K V} (hd : Holds P d) (indexed : Bool) (rec : Option Nat)
    {k : K} {o : Option V} (ho : ∀ v, o = some v → P k v) : Holds P (d.write indexed rec k o) where
  cur a v hv := by
    rw [cur_write] at hv
    split at hv
    · next hka =>
      rw [← hka]
      exact ho v hv
    · exact hd.cur a v hv
  rows h a v hv := by
    cases rec with
    | none => exact hd.rows h a v hv
    | some h' =>
      rw [cs_write] at hv
      split at hv
      · next hc =>
        rw [← hc.2.1]
        exact hd.cur k v (Option.some.inj hv)
      · exact hd.rows h a v hv

theorem Holds.revert {P : K → V → Prop} {d : Versioned K V} (hd : Holds P d) (indexed : Bool) (h : Nat) :
    Holds P (d.revert indexed h) where
  cur k v hv := by
    rw [cur_revert] at hv
    cases hrow : d.cs[(h, k)]? with
    | none =>
      rw [hrow] at hv
      exact hd.cur k v hv
    | some o =>
      rw [hrow] at hv
      exact hd.rows h k v (hrow.trans (congrArg some hv))
  rows h' k v hv := hd.rows h' k v (cs_of_cs_revert hv)

end Versioned
end Lib
