/-
# NgCore.Types.Context — contract contexts in memory

`ngtypes/contract_context.go`. The development treats a context as a finite map (`ContractContext`). The source keeps
three things: a map that is nil until the first use after a decoder filled the exported fields, and the two exported
slices, sorted by key, that are encoded. A context is an object here: it has an address, its map has another, and
operations change the memory. Iterating over a Go map gives the keys in ANY order, so every flush of a map takes the
order as an input.

DELIVERABLE: `context_canonical` — after any history the slices of every context are what its key-to-value map
enumerates, in strictly increasing order, whatever the history and the iteration orders were; reads agree with the map;
and an operation on one context leaves every other one as it was.
-/
import NgCore.Types.Contract

namespace NgCore

open Lib (Bucket)
open Lib.Rlp (Item encode)

/-! ## §1 — the objects -/

/-- **`ContextObj`** — a context as the source stores it; `valMap` is the address of its map, if it has one. -/
structure ContextObj where
  keys : List Bytes
  values : List Bytes
  valMap : Option Nat

/-- The encoded form: the exported slices. -/
def ContextObj.raw (c : ContextObj) : Bytes :=
  encode (.list [.list (c.keys.map .str), .list (c.values.map .str)])

/-- The memory: maps and contexts by address, and the encodings made so far. -/
structure ContextMem where
  maps : List (Bucket Bytes Bytes)
  contexts : List ContextObj
  blobs : List Bytes

namespace ContextMem

/-- **`ensureInit`** — the address of the map, built from the slices on first use. -/
def ensureInit (i : Nat) (mem : ContextMem) : Option (Nat × ContextMem) :=
  match mem.contexts[i]? with
  | none => none
  | some c =>
    match c.valMap with
    | some a => some (a, mem)
    | none =>
      let rows := (c.keys.zip c.values).foldl (fun (m : Bucket Bytes Bytes) e => m.insert e.1 e.2) ∅
      some (mem.maps.length, { mem with
        maps := mem.maps ++ [rows]
        contexts := mem.contexts.set i { c with valMap := some mem.maps.length } })

/-- `sort.Strings`. -/
def sortKeys (keys : List Bytes) : List Bytes := keys.insertionSort fun a b => (compare a b).isLE = true

/-- **`splitMap`** — flush the map into the slices; `order` is how the iteration met its keys. -/
def splitMap (order : List Bytes) (i a : Nat) (mem : ContextMem) : Option ContextMem :=
  match mem.maps[a]? with
  | none => none
  | some m =>
    if order.Perm (m.toList.map Prod.fst) then
      let keys := sortKeys order
      some { mem with contexts := mem.contexts.set i ⟨keys, keys.map fun k => (m[k]?).getD [], some a⟩ }
    else none

/-- `Set` and `Del`: a write to the map, then a flush. -/
def write (f : Bucket Bytes Bytes → Bucket Bytes Bytes) (order : List Bytes) (i : Nat) (mem : ContextMem) :
    Option ContextMem := do
  let (a, mem) ← mem.ensureInit i
  splitMap order i a { mem with maps := mem.maps.modify a f }

/-- **`get`** — the value of a key, nil when absent. -/
def get (i : Nat) (key : Bytes) (mem : ContextMem) : Option (Bytes × ContextMem) := do
  let (a, mem) ← mem.ensureInit i
  let m ← mem.maps[a]?
  return ((m[key]?).getD [], mem)

/-- **`clone`** — a new context with a new map and copies of all values. -/
def clone (order : List Bytes) (i : Nat) (mem : ContextMem) : Option ContextMem := do
  let (a, mem) ← mem.ensureInit i
  let m ← mem.maps[a]?
  splitMap order mem.contexts.length mem.maps.length { mem with
    maps := mem.maps ++ [m]
    contexts := mem.contexts ++ [⟨[], [], some mem.maps.length⟩] }

end ContextMem

/-- The operations of a history. A decoder is given an encoding that was made before. -/
inductive ContextOp where
  | new
  | set (i : Nat) (key val : Bytes)
  | del (i : Nat) (key : Bytes)
  | get (i : Nat) (key : Bytes)
  | clone (i : Nat)
  | encode (i : Nat)
  | decode (j : Nat)

/-- The context an operation may change. -/
def ContextOp.target : ContextOp → Option Nat
  | .set i _ _ | .del i _ => some i
  | _ => none

/-- One operation. A decoder returns slices that encode to the bytes it is given: they are an input here, and
checked. -/
def ContextMem.exec (order : List Bytes) (slices : List Bytes × List Bytes) (mem : ContextMem) :
    ContextOp → Option ContextMem
  | .new => some { mem with
      maps := mem.maps ++ [∅], contexts := mem.contexts ++ [⟨[], [], some mem.maps.length⟩] }
  | .set i key val => mem.write (fun m => m.insert key val) order i
  | .del i key => mem.write (fun m => m.erase key) order i
  | .get i key => (mem.get i key).map Prod.snd
  | .clone i => mem.clone order i
  | .encode i => do
    let c ← mem.contexts[i]?
    -- a byte slice is shorter than the address space
    if c.raw.length < 2 ^ 64 then some { mem with blobs := mem.blobs ++ [c.raw] } else none
  | .decode j => do
    let blob ← mem.blobs[j]?
    let c : ContextObj := ⟨slices.1, slices.2, none⟩
    if c.raw = blob then some { mem with contexts := mem.contexts ++ [c] } else none

/-- **`mem.History ops`** — the memory after the operations, with some iteration order at each. -/
inductive ContextMem.History : ContextMem → List ContextOp → Prop
  | nil : History ⟨[], [], []⟩ []
  | snoc {ops : List ContextOp} {mem mem' : ContextMem} {op : ContextOp} (order : List Bytes)
      (slices : List Bytes × List Bytes) (h : History mem ops) (hstep : mem.exec order slices op = some mem') :
      History mem' (ops ++ [op])

/-! ## §2 — the key-to-value maps of a history -/

/-- The maps of the contexts, and of the encodings. -/
structure ContextMaps where
  contexts : List ContractContext
  blobs : List ContractContext

/-- What an operation means for the maps. -/
def ContextMaps.exec (abs : ContextMaps) : ContextOp → ContextMaps
  | .new => { abs with contexts := abs.contexts ++ [∅] }
  | .set i key val => { abs with contexts := abs.contexts.modify i fun B => B.insert key val }
  | .del i key => { abs with contexts := abs.contexts.modify i fun B => B.erase key }
  | .get _ _ => abs
  | .clone i => { abs with contexts := abs.contexts ++ (abs.contexts[i]?).toList }
  | .encode i => { abs with blobs := abs.blobs ++ (abs.contexts[i]?).toList }
  | .decode j => { abs with contexts := abs.contexts ++ (abs.blobs[j]?).toList }

/-- The maps a history results in. -/
def ContextMaps.after (ops : List ContextOp) : ContextMaps := ops.foldl ContextMaps.exec ⟨[], []⟩

/-! ## §3 — one context and its map -/

/-- **`c.Holds maps B`** — the slices enumerate the map `B`, and so does the object's own map if it has one. -/
structure ContextObj.Holds (maps : List (Bucket Bytes Bytes)) (c : ContextObj) (B : ContractContext) : Prop where
  keys : c.keys = B.toList.map Prod.fst
  values : c.values = B.toList.map Prod.snd
  valMap : ∀ a, c.valMap = some a → maps[a]? = some B

theorem ContextObj.Holds.raw {maps : List (Bucket Bytes Bytes)} {c : ContextObj} {B : ContractContext}
    (h : c.Holds maps B) : c.raw = encode B.item := by
  unfold ContextObj.raw ContractContext.item
  rw [h.keys, h.values, List.map_map, List.map_map]
  rfl

/-- Sorting the keys of a map gives its enumeration, whatever order they came in. -/
theorem sortKeys_eq {B : ContractContext} {order : List Bytes} (h : order.Perm (B.toList.map Prod.fst)) :
    ContextMem.sortKeys order = B.toList.map Prod.fst := by
  have hsorted : (B.toList.map Prod.fst).Pairwise fun a b => (compare a b).isLE = true := by
    rw [List.pairwise_map]
    exact Std.ExtTreeMap.ordered_keys_toList.imp fun hlt => by rw [hlt]; rfl
  have htrans : IsTrans Bytes fun a b => (compare a b).isLE = true := ⟨fun _ _ _ => Std.TransCmp.isLE_trans⟩
  have htotal : Std.Total fun a b : Bytes => (compare a b).isLE = true := ⟨fun a b => by
    rw [show compare b a = (compare a b).swap from Std.OrientedCmp.eq_swap]
    cases compare a b <;> decide⟩
  apply List.Perm.eq_of_pairwise _ (List.pairwise_insertionSort _ order) hsorted
    ((List.perm_insertionSort _ order).trans h)
  intro a b _ _ hab hba
  exact Std.LawfulEqOrd.eq_of_compare (Std.OrientedCmp.isLE_antisymm hab hba)

/-- Looking the keys up gives the values of the enumeration. -/
theorem values_eq (B : ContractContext) :
    (B.toList.map Prod.fst).map (fun k => (B[k]?).getD []) = B.toList.map Prod.snd := by
  rw [List.map_map]
  apply List.map_congr_left
  rintro ⟨k, v⟩ hmem
  show (B[k]?).getD [] = v
  rw [(Bucket.mem_toList_iff B k v).mp hmem]
  rfl

theorem rows_eq (B : ContractContext) :
    ((B.toList.map Prod.fst).zip (B.toList.map Prod.snd)).foldl
      (fun (m : Bucket Bytes Bytes) e => m.insert e.1 e.2) ∅ = B := by
  rw [List.zip_map', List.map_id']
  apply Bucket.ext_get
  intro k
  rcases Bucket.get_foldl_insert Prod.fst Prod.snd B.toList (∅ : Bucket Bytes Bytes) k with ⟨hother, hrow⟩
  by_cases hmem : k ∈ B.toList.map Prod.fst
  · rcases hrow hmem with ⟨⟨k', v⟩, he, rfl, hget⟩
    rw [hget, (Bucket.mem_toList_iff B _ v).mp he]
  · rw [hother hmem]
    cases hk : B[k]? with
    | none => rfl
    | some v => exact absurd (List.mem_map_of_mem ((Bucket.mem_toList_iff B k v).mpr hk)) hmem

/-! ## §4 — the memory and the maps -/

/-- Two lists that agree position by position. -/
def Aligned {α β : Type} (R : α → β → Prop) (l : List α) (m : List β) : Prop := ∀ i : Nat, Option.Rel R l[i]? m[i]?

section Aligned

variable {α β : Type} {R R' : α → β → Prop} {l : List α} {m : List β}

theorem Aligned.length_eq (h : Aligned R l m) : l.length = m.length := by
  rcases lt_trichotomy l.length m.length with hlt | heq | hgt
  · have := h l.length
    rw [List.getElem?_eq_none le_rfl, List.getElem?_eq_getElem hlt] at this
    cases this
  · exact heq
  · have := h m.length
    rw [List.getElem?_eq_none (l := m) le_rfl, List.getElem?_eq_getElem hgt] at this
    cases this

theorem Aligned.some {i : Nat} {x : α} (h : Aligned R l m) (hx : l[i]? = some x) : ∃ y, m[i]? = .some y ∧ R x y := by
  have := h i
  rw [hx] at this
  generalize m[i]? = y at this ⊢
  cases this with
  | some hxy => exact ⟨_, rfl, hxy⟩

theorem Aligned.append {x : α} {y : β} (h : Aligned R l m) (hxy : R x y) : Aligned R (l ++ [x]) (m ++ [y]) := by
  intro i
  rw [List.getElem?_append, List.getElem?_append, ← h.length_eq]
  split
  · exact h i
  · cases i - l.length with
    | zero => exact .some hxy
    | succ k => exact .none

theorem Aligned.update {i : Nat} {x : α} {y y' : β} {f : β → β} (h : Aligned R l m) (hy : m[i]? = .some y)
    (hf : f y = y') (hx : R' x y') (hmono : ∀ j u v, j ≠ i → l[j]? = .some u → R u v → R' u v) :
    Aligned R' (l.set i x) (m.modify i f) := by
  intro j
  rw [List.getElem?_set, List.getElem?_modify]
  by_cases hij : i = j
  · subst hij
    have hlt : i < l.length := h.length_eq ▸ (List.getElem?_eq_some_iff.mp hy).1
    rw [if_pos rfl, if_pos hlt, hy]
    show Option.Rel R' (.some x) (.some (if i = i then f y else y))
    rw [if_pos rfl, hf]
    exact .some hx
  · rw [if_neg hij]
    have hj := h j
    simp only [hij, if_false]
    show Option.Rel R' l[j]? (Option.map id m[j]?)
    rw [Option.map_id, id]
    cases hl : l[j]? with
    | none =>
      rw [hl] at hj
      cases hm : m[j]? with
      | none => exact .none
      | some v => rw [hm] at hj; cases hj
    | some u =>
      rcases h.some hl with ⟨v, hv, huv⟩
      rw [hv]
      exact .some (hmono j u v (Ne.symm hij) hl huv)

theorem Aligned.imp (h : Aligned R l m) (hmono : ∀ u v, u ∈ l → R u v → R' u v) : Aligned R' l m := by
  intro i
  have hi := h i
  cases hl : l[i]? with
  | none =>
    rw [hl] at hi
    cases hm : m[i]? with
    | none => exact .none
    | some v => rw [hm] at hi; cases hi
  | some u =>
    rcases h.some hl with ⟨v, hv, huv⟩
    rw [hv]
    exact .some (hmono u v (List.mem_of_getElem? hl) huv)

end Aligned

/-- **`mem.Refines abs`** — every context holds its map, every encoding is that of its map, and no two contexts share a
map of the memory. -/
structure ContextMem.Refines (mem : ContextMem) (abs : ContextMaps) : Prop where
  contexts : Aligned (ContextObj.Holds mem.maps) mem.contexts abs.contexts
  blobs : Aligned (fun b B => b = encode (ContractContext.item B) ∧ b.length < 2 ^ 64) mem.blobs abs.blobs
  alone : ∀ (i j : Nat) (c c' : ContextObj) (a : Nat), mem.contexts[i]? = some c → mem.contexts[j]? = some c' →
    c.valMap = some a → c'.valMap = some a → i = j

namespace ContextMem

variable {mem mem' : ContextMem} {abs : ContextMaps} {order : List Bytes} {i a : Nat}

theorem holds_append {maps : List (Bucket Bytes Bytes)} {c : ContextObj} {B : ContractContext} (h : c.Holds maps B)
    (m : Bucket Bytes Bytes) : c.Holds (maps ++ [m]) B := by
  refine ⟨h.keys, h.values, fun a ha => ?_⟩
  have hget := h.valMap a ha
  rw [List.getElem?_append_left (List.getElem?_eq_some_iff.mp hget).1]
  exact hget

/-- The first use: the map is the context's own, and nothing else changes. -/
theorem Refines.ensureInit (h : mem.Refines abs) (hok : mem.ensureInit i = some (a, mem')) :
    mem'.Refines abs ∧ ∃ c B, mem'.contexts[i]? = some c ∧ abs.contexts[i]? = some B ∧ c.valMap = some a ∧
      mem'.maps[a]? = some B := by
  unfold ContextMem.ensureInit at hok
  cases hc : mem.contexts[i]? with
  | none => rw [hc] at hok; cases hok
  | some c =>
    rcases h.contexts.some hc with ⟨B, hB, hholds⟩
    rw [hc] at hok
    dsimp only at hok
    cases hval : c.valMap with
    | some a' =>
      rw [hval] at hok
      cases hok
      exact ⟨h, c, B, hc, hB, hval, hholds.valMap _ hval⟩
    | none =>
      rw [hval] at hok
      cases hok
      have hrows : (c.keys.zip c.values).foldl (fun (m : Bucket Bytes Bytes) e => m.insert e.1 e.2) ∅ = B := by
        rw [hholds.keys, hholds.values]
        exact rows_eq B
      have hlt : i < mem.contexts.length := (List.getElem?_eq_some_iff.mp hc).1
      have hnew : (mem.maps ++ [B])[mem.maps.length]? = some B := List.getElem?_concat_length
      rw [hrows]
      refine ⟨⟨?_, h.blobs, ?_⟩, { c with valMap := some mem.maps.length }, B, ?_, hB, rfl, hnew⟩
      · have hset : Aligned (ContextObj.Holds (mem.maps ++ [B]))
            (mem.contexts.set i { c with valMap := some mem.maps.length }) (abs.contexts.modify i id) :=
          h.contexts.update hB rfl ⟨hholds.keys, hholds.values, fun a ha => by cases ha; exact hnew⟩
            fun _ _ _ _ _ hold => holds_append hold B
        rwa [List.modify_id] at hset
      · -- the new address is above every map that is in use
        have hfresh : ∀ (j : Nat) (d : ContextObj) (b : Nat), mem.contexts[j]? = some d → d.valMap = some b →
            b ≠ mem.maps.length := by
          intro j d b hd hb
          rcases h.contexts.some hd with ⟨D, _, hD⟩
          exact (List.getElem?_eq_some_iff.mp (hD.valMap b hb)).1.ne
        intro j k d d' b hd hd' hb hb'
        dsimp only at hd hd'
        rw [List.getElem?_set] at hd hd'
        split at hd <;> split at hd'
        · omega
        · cases hd
          cases hb
          exact absurd rfl (hfresh k d' _ hd' hb')
        · cases hd'
          cases hb'
          exact absurd rfl (hfresh j d _ hd hb)
        · exact h.alone j k d d' b hd hd' hb hb'
      · show (mem.contexts.set i _)[i]? = _
        rw [List.getElem?_set, if_pos rfl, if_pos hlt]

/-- A flush of the map at `a` into the context that owns it. -/
theorem Refines.splitMap {B : ContractContext} {c : ContextObj}
    (h : mem.Refines abs) (hc : mem.contexts[i]? = some c) (hval : c.valMap = some a)
    {f : ContractContext → ContractContext} (hB : abs.contexts[i]? = some B) (hmap : mem.maps[a]? = some B)
    (hok : ContextMem.splitMap order i a { mem with maps := mem.maps.modify a f } = some mem') :
    mem'.Refines { abs with contexts := abs.contexts.modify i f } := by
  unfold ContextMem.splitMap at hok
  have hget : (mem.maps.modify a f)[a]? = some (f B) := by
    rw [List.getElem?_modify, hmap]
    show some (if a = a then f B else B) = _
    rw [if_pos rfl]
  dsimp only at hok
  rw [hget] at hok
  dsimp only at hok
  split at hok
  · next hperm =>
    cases hok
    rw [sortKeys_eq hperm]
    refine ⟨?_, h.blobs, ?_⟩
    · refine h.contexts.update hB rfl ⟨rfl, values_eq _, fun b hb => by cases hb; exact hget⟩ ?_
      intro j d D hne hd hold
      refine ⟨hold.keys, hold.values, fun b hb => ?_⟩
      have hother : a ≠ b := fun heq => hne (h.alone j i d c b hd hc hb (heq ▸ hval))
      show (mem.maps.modify a f)[b]? = some D
      rw [List.getElem?_modify, hold.valMap b hb]
      show some (if a = b then f D else D) = _
      rw [if_neg hother]
    · -- the flushed context keeps the address it had
      have hsame : ∀ (x : ContextObj), x.valMap = some a → ∀ (j : Nat) (d : ContextObj) (b : Nat),
          (mem.contexts.set i x)[j]? = some d → d.valMap = some b →
          ∃ e, mem.contexts[j]? = some e ∧ e.valMap = some b := by
        intro x hx j d b hd hb
        rw [List.getElem?_set] at hd
        split at hd
        · next heq =>
          subst heq
          split at hd
          · cases hd
            exact ⟨c, hc, hval.trans (hx.symm.trans hb)⟩
          · cases hd
        · exact ⟨d, hd, hb⟩
      intro j k d d' b hd hd' hb hb'
      rcases hsame _ rfl j d b hd hb with ⟨e, he, heb⟩
      rcases hsame _ rfl k d' b hd' hb' with ⟨e', he', heb'⟩
      exact h.alone j k e e' b he he' heb heb'
  · cases hok

theorem Refines.push {B : ContractContext} {c : ContextObj} (h : mem.Refines abs) (maps : List (Bucket Bytes Bytes))
    (hmaps : ∀ (b : Nat) (m : Bucket Bytes Bytes), mem.maps[b]? = some m → maps[b]? = some m)
    (hholds : c.Holds maps B) (hfresh : ∀ b, c.valMap = some b → mem.maps.length ≤ b) :
    (ContextMem.mk maps (mem.contexts ++ [c]) mem.blobs).Refines { abs with contexts := abs.contexts ++ [B] } := by
  refine ⟨?_, h.blobs, ?_⟩
  · refine Aligned.append (h.contexts.imp fun d D _ hold => ?_) hholds
    exact ⟨hold.keys, hold.values, fun b hb => hmaps b D (hold.valMap b hb)⟩
  · have hbelow : ∀ (j : Nat) (d : ContextObj) (b : Nat), mem.contexts[j]? = some d → d.valMap = some b →
        b < mem.maps.length := by
      intro j d b hd hb
      rcases h.contexts.some hd with ⟨D, _, hD⟩
      exact (List.getElem?_eq_some_iff.mp (hD.valMap b hb)).1
    -- a position is below the new one, or it is the new one
    have hcase : ∀ (j : Nat) (d : ContextObj), (mem.contexts ++ [c])[j]? = some d →
        mem.contexts[j]? = some d ∨ (j = mem.contexts.length ∧ d = c) := by
      intro j d hd
      rw [List.getElem?_append] at hd
      split at hd
      · exact .inl hd
      · have hlast := List.mem_singleton.mp (List.mem_of_getElem? hd)
        have hlt := (List.getElem?_eq_some_iff.mp hd).1
        rw [List.length_singleton] at hlt
        exact .inr ⟨by omega, hlast⟩
    intro j k d d' b hd hd' hb hb'
    rcases hcase j d hd with hold | ⟨hj, rfl⟩ <;> rcases hcase k d' hd' with hold' | ⟨hk, rfl⟩
    · exact h.alone j k d d' b hold hold' hb hb'
    · exact absurd (hbelow j d b hold hb) (by have := hfresh b hb'; omega)
    · exact absurd (hbelow k d' b hold' hb') (by have := hfresh b hb; omega)
    · exact hj.trans hk.symm

theorem Refines.write {f : ContractContext → ContractContext} (h : mem.Refines abs)
    (hok : mem.write f order i = some mem') :
    mem'.Refines { abs with contexts := abs.contexts.modify i f } := by
  rcases Option.bind_eq_some_iff.mp hok with ⟨⟨a, mid⟩, hinit, hsplit⟩
  rcases h.ensureInit hinit with ⟨hmid, c, B, hc, hB, hval, hmap⟩
  exact hmid.splitMap hc hval hB hmap hsplit

theorem Refines.clone {B : ContractContext} (h : mem.Refines abs) (hB : abs.contexts[i]? = some B)
    (hok : mem.clone order i = some mem') : mem'.Refines { abs with contexts := abs.contexts ++ [B] } := by
  rcases Option.bind_eq_some_iff.mp hok with ⟨⟨a, mid⟩, hinit, hok⟩
  rcases h.ensureInit hinit with ⟨hmid, c, B', hc, hB', hval, hmap⟩
  obtain rfl : B' = B := Option.some.inj (hB'.symm.trans hB)
  rcases Option.bind_eq_some_iff.mp hok with ⟨m, hm, hok⟩
  obtain rfl : B' = m := Option.some.inj (hmap.symm.trans hm)
  have hnew : (mid.maps ++ [B'])[mid.maps.length]? = some B' := List.getElem?_concat_length
  unfold ContextMem.splitMap at hok
  dsimp only at hok
  rw [hnew] at hok
  dsimp only at hok
  split at hok
  · next hperm =>
    cases hok
    rw [sortKeys_eq hperm, List.set_append_right _ _ le_rfl, Nat.sub_self, List.set_cons_zero]
    refine hmid.push _ ?_ ⟨rfl, values_eq B', fun b hb => by cases hb; exact hnew⟩ fun b hb => by cases hb; exact le_rfl
    intro b m hb
    rw [List.getElem?_append_left (List.getElem?_eq_some_iff.mp hb).1]
    exact hb
  · cases hok

/-- Slices that encode to the wire form of a map are its enumeration. -/
theorem holds_of_raw {maps : List (Bucket Bytes Bytes)} {keys values : List Bytes} {B : ContractContext}
    (hraw : (ContextObj.mk keys values none).raw = encode B.item) (hsize : (encode B.item).length < 2 ^ 64) :
    (ContextObj.mk keys values none).Holds maps B := by
  rw [← hraw] at hsize
  have hitem := Lib.Rlp.encode_inj hsize hraw
  have hstr : Function.Injective Item.str := fun _ _ h => Item.str.inj h
  unfold ContractContext.item at hitem
  injection hitem with hitem
  injection hitem with hkeys hitem
  injection hitem with hvalues
  injection hkeys with hkeys
  injection hvalues with hvalues
  rw [← Function.comp_def, ← List.map_map] at hkeys hvalues
  exact ⟨hstr.list_map hkeys, hstr.list_map hvalues, nofun⟩

/-- **One operation keeps the memory and the maps in step.** -/
theorem Refines.exec {slices : List Bytes × List Bytes} {op : ContextOp} (h : mem.Refines abs)
    (hok : mem.exec order slices op = some mem') : mem'.Refines (abs.exec op) := by
  cases op with
  | new =>
    cases hok
    refine h.push _ ?_ ⟨rfl, rfl, fun b hb => by cases hb; exact List.getElem?_concat_length⟩
      fun b hb => by cases hb; exact le_rfl
    intro b m hb
    rw [List.getElem?_append_left (List.getElem?_eq_some_iff.mp hb).1]
    exact hb
  | set i key val => exact h.write hok
  | del i key => exact h.write hok
  | get i key =>
    rcases Option.map_eq_some_iff.mp hok with ⟨⟨v, mid⟩, hget, rfl⟩
    rcases Option.bind_eq_some_iff.mp hget with ⟨⟨a, mid'⟩, hinit, hread⟩
    rcases Option.bind_eq_some_iff.mp hread with ⟨m, _, hpure⟩
    cases hpure
    exact (h.ensureInit hinit).1
  | clone i =>
    rcases Option.bind_eq_some_iff.mp hok with ⟨⟨a, mid⟩, hinit, _⟩
    rcases (h.ensureInit hinit).2 with ⟨_, B, _, hB, _⟩
    show Refines _ { abs with contexts := abs.contexts ++ (abs.contexts[i]?).toList }
    rw [hB]
    exact h.clone hB hok
  | encode i =>
    rcases Option.bind_eq_some_iff.mp hok with ⟨c, hc, hok⟩
    rcases h.contexts.some hc with ⟨B, hB, hholds⟩
    split at hok
    · next hsize =>
      cases hok
      show Refines _ { abs with blobs := abs.blobs ++ (abs.contexts[i]?).toList }
      rw [hB]
      exact ⟨h.contexts, h.blobs.append ⟨hholds.raw, hsize⟩, h.alone⟩
    · cases hok
  | decode j =>
    rcases Option.bind_eq_some_iff.mp hok with ⟨blob, hblob, hok⟩
    rcases h.blobs.some hblob with ⟨B, hB, rfl, hsize⟩
    dsimp only at hok
    split at hok
    · next hraw =>
      cases hok
      show Refines _ { abs with contexts := abs.contexts ++ (abs.blobs[j]?).toList }
      rw [hB]
      exact h.push _ (fun _ _ hb => hb) (holds_of_raw hraw hsize) nofun
    · cases hok

theorem History.refines {ops : List ContextOp} (h : mem.History ops) : mem.Refines (ContextMaps.after ops) := by
  induction h with
  | nil => exact ⟨fun i => .none, fun i => .none, nofun⟩
  | snoc order slices _ hstep ih =>
    unfold ContextMaps.after at ih ⊢
    rw [List.foldl_concat]
    exact ih.exec hstep

theorem Refines.get {c : ContextObj} {B : ContractContext} (h : mem.Refines abs) (hc : mem.contexts[i]? = some c)
    (hB : abs.contexts[i]? = some B) (key : Bytes) : ∃ mem', mem.get i key = some (B.get key, mem') := by
  have hinit : ∃ r, mem.ensureInit i = some r := by
    unfold ContextMem.ensureInit
    rw [hc]
    dsimp only
    split <;> exact ⟨_, rfl⟩
  rcases hinit with ⟨⟨a, mem'⟩, hinit⟩
  rcases h.ensureInit hinit with ⟨_, _, B', _, hB', _, hmap⟩
  obtain rfl : B' = B := Option.some.inj (hB'.symm.trans hB)
  refine ⟨mem', ?_⟩
  unfold ContextMem.get
  rw [hinit]
  show (mem'.maps[a]? >>= fun m => pure ((m[key]?).getD [], mem')) = _
  rw [hmap]
  rfl

end ContextMem

/-- An operation on another context leaves the map of this one. -/
theorem ContextMaps.exec_other (abs : ContextMaps) {op : ContextOp} {i : Nat} (htarget : op.target ≠ some i)
    (hi : i < abs.contexts.length) : (abs.exec op).contexts[i]? = abs.contexts[i]? := by
  have hmodify : ∀ (j : Nat) (f : ContractContext → ContractContext), j ≠ i →
      (abs.contexts.modify j f)[i]? = abs.contexts[i]? := by
    intro j f hne
    rw [List.getElem?_modify]
    simp only [if_neg hne]
    exact id_map _
  cases op with
  | set j key val => exact hmodify j _ fun h => htarget (congrArg some h)
  | del j key => exact hmodify j _ fun h => htarget (congrArg some h)
  | get j key => rfl
  | encode j => rfl
  | new => exact List.getElem?_append_left hi
  | clone j => exact List.getElem?_append_left hi
  | decode j => exact List.getElem?_append_left hi

/-- **Contexts are canonical.** After any history, with any iteration orders: the slices of a context are the
enumeration of its key-to-value map, with strictly increasing keys, its encoding is the wire form of the map, and a read
gives the value in the map; two contexts of any two histories with the same map have the same slices and encoding; and
an operation leaves the slices and the reads of every context it does not target as they were, clones and originals
alike. -/
theorem context_canonical {ops : List ContextOp} {mem : ContextMem} (h : mem.History ops) :
    (∀ (i : Nat) (c : ContextObj), mem.contexts[i]? = some c → ∃ B, (ContextMaps.after ops).contexts[i]? = some B ∧
      c.keys = B.toList.map Prod.fst ∧ c.values = B.toList.map Prod.snd ∧
      c.keys.Pairwise (fun a b => compare a b = .lt) ∧ c.raw = encode B.item ∧
      ∀ key, ∃ mem', mem.get i key = some (B.get key, mem')) ∧
    (∀ (ops' : List ContextOp) (mem' : ContextMem), mem'.History ops' →
      ∀ (i j : Nat) (c c' : ContextObj) (B B' : ContractContext), mem.contexts[i]? = some c → mem'.contexts[j]? = some c' → (ContextMaps.after ops).contexts[i]? = some B →
      (ContextMaps.after ops').contexts[j]? = some B' → (∀ key : Bytes, B[key]? = B'[key]?) →
      c.keys = c'.keys ∧ c.values = c'.values ∧ c.raw = c'.raw) ∧
    ∀ (op : ContextOp) (order : List Bytes) (slices : List Bytes × List Bytes) (mem' : ContextMem),
      mem.exec order slices op = some mem' → ∀ (i : Nat) (c : ContextObj), mem.contexts[i]? = some c →
      op.target ≠ some i → ∃ c', mem'.contexts[i]? = some c' ∧ c'.keys = c.keys ∧ c'.values = c.values ∧
        ∀ key, (mem'.get i key).map Prod.fst = (mem.get i key).map Prod.fst := by
  have href := h.refines
  refine ⟨fun i c hc => ?_, fun ops' mem' h' i j c c' B B' hc hc' hB hB' hsame => ?_,
    fun op order slices mem' hstep i c hc htarget => ?_⟩
  · rcases href.contexts.some hc with ⟨B, hB, hholds⟩
    refine ⟨B, hB, hholds.keys, hholds.values, ?_, hholds.raw, fun key => href.get hc hB key⟩
    rw [hholds.keys, List.pairwise_map]
    exact Std.ExtTreeMap.ordered_keys_toList
  · rcases href.contexts.some hc with ⟨C, hC, hholds⟩
    rcases h'.refines.contexts.some hc' with ⟨C', hC', hholds'⟩
    obtain rfl : C = B := Option.some.inj (hC.symm.trans hB)
    obtain rfl : C' = B' := Option.some.inj (hC'.symm.trans hB')
    obtain rfl : C = C' := Bucket.ext_get hsame
    exact ⟨hholds.keys.trans hholds'.keys.symm, hholds.values.trans hholds'.values.symm,
      hholds.raw.trans hholds'.raw.symm⟩
  · rcases href.contexts.some hc with ⟨B, hB, hholds⟩
    have hnext := href.exec hstep
    have hkept := (ContextMaps.after ops).exec_other htarget (List.getElem?_eq_some_iff.mp hB).1
    rw [hB] at hkept
    have hc' := hnext.contexts i
    rw [hkept] at hc'
    generalize hcase : mem'.contexts[i]? = x at hc'
    cases hc' with
    | some hholds' =>
      refine ⟨_, rfl, hholds'.keys.trans hholds.keys.symm, hholds'.values.trans hholds.values.symm, fun key => ?_⟩
      rcases href.get hc hB key with ⟨_, hget⟩
      rcases hnext.get hcase hkept key with ⟨_, hget'⟩
      rw [hget, hget']
      rfl

/-- Two keys set in falling order and met in that order, and a clone without the first. -/
theorem context_canonical_two_keys : ∃ mem : ContextMem,
    mem.History [.new, .set 0 [2] [7], .set 0 [1] [8], .clone 0, .del 1 [2]] ∧
      ∃ c, mem.contexts[0]? = some c ∧ c.keys = [[1], [2]] ∧ c.keys.Pairwise (fun a b => compare a b = .lt) := by
  have h : ContextMem.History _ [.new, .set 0 [2] [7], .set 0 [1] [8], .clone 0, .del 1 [2]] :=
    .snoc [[1]] ([], []) (.snoc [[2], [1]] ([], []) (.snoc [[2], [1]] ([], []) (.snoc [[2]] ([], [])
      (.snoc [] ([], []) .nil rfl) rfl) rfl) rfl) rfl
  rcases (context_canonical h).1 0 _ rfl with ⟨_, _, _, _, hsorted, _⟩
  exact ⟨_, h, _, rfl, by decide +kernel, hsorted⟩

end NgCore
