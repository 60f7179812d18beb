/-
# Lib.SparseMerkle — sparse binary merkle trees over a node store

A tree of fixed depth `n` over bit paths. The store keeps ONLY the nodes that differ from the hash
of an empty subtree of their height (`defaults`), keyed by the path prefix they stand on. `update`
writes one leaf and rehashes its branch bottom-up.

`hashAt leaf h p` is the meaning: the hash of the subtree of height `h` at prefix `p`, when the
leaves are given by `leaf`. `Canonical n store leaf` says the store holds exactly the non-default
nodes of that tree.

DELIVERABLES: `Canonical.update` (one update keeps the store canonical, for the leaf function
changed at that one path) and `Canonical.unique` (two canonical stores of one leaf function are
EQUAL), so the stored node set is a function of the leaves and of nothing else. For branches,
`Canonical.climb_siblings` (the branch read off a canonical store climbs to its root) and
`apart_spec` (two climbs that start apart and end alike met at a node with two pairs of children,
and `apart` finds it).
-/
import NgCore.Lib.Bucket

namespace Lib.SparseMerkle

/-- A bit path from the root, most significant decision first. -/
abbrev Path := List Bool

/-- The node store: prefix ↦ node hash. -/
abbrev Nodes (H : Type) := Bucket Path H

section Tree

variable {H : Type} [DecidableEq H] (node : H → H → H) (zero : H)

/-! ## §1 — the tree operations -/

/-- **`defaults`** — the hash of an EMPTY subtree of height `h`. -/
def defaults : Nat → H
  | 0 => zero
  | h + 1 => node (defaults h) (defaults h)

/-- The branching decision of the path at depth `i`. -/
def pathBit (path : Path) (i : Nat) : Bool := path.getD i false

/-- **`nodeKey`** — the prefix the node at `depth` on the path stands on. -/
def nodeKey (depth : Nat) (path : Path) : Path := path.take depth

/-- **`siblingKey`** — the other child below the same parent: the last decision flipped. -/
def siblingKey (depth : Nat) (path : Path) : Path :=
  path.take (depth - 1) ++ [!pathBit path (depth - 1)]

/-- **`getNode`** — read a node hash, falling back to the empty default of its height. -/
def getNode (store : Nodes H) (key : Path) (height : Nat) : H :=
  (store[key]?).getD (defaults node zero height)

/-- **`setNode`** — write a node hash, deleting the entry when it is the empty default. -/
def setNode (store : Nodes H) (key : Path) (height : Nat) (val : H) : Nodes H :=
  if val = defaults node zero height then store.erase key else store.insert key val

/-- **`rehash`** — from depth `depth` up to the root: combine with the sibling, store the parent. -/
def rehash (n : Nat) (path : Path) : Nat → H → Nodes H → Nodes H
  | 0, _, store => store
  | depth + 1, cur, store =>
    let sib := getNode node zero store (siblingKey (depth + 1) path) (n - (depth + 1))
    let parent := if pathBit path depth then node sib cur else node cur sib
    rehash n path depth parent (setNode node zero store (nodeKey depth path) (n - depth) parent)

/-- **`update`** — set the leaf hash at `path` and rehash its branch. -/
def update (n : Nat) (store : Nodes H) (path : Path) (leaf : H) : Nodes H :=
  rehash node zero n path n leaf (setNode node zero store (nodeKey n path) 0 leaf)

/-- **`root`** — the root hash of a store of depth `n`. -/
def root (n : Nat) (store : Nodes H) : H := getNode node zero store [] n

/-! ## §2 — the meaning -/

/-- **`hashAt`** — the hash of the subtree of height `h` at prefix `p`. -/
def hashAt (leaf : Path → H) : Nat → Path → H
  | 0, p => leaf p
  | h + 1, p => node (hashAt leaf h (p ++ [false])) (hashAt leaf h (p ++ [true]))

/-- What a canonical store holds for a node of height `h` with hash `v`. -/
def stored (h : Nat) (v : H) : Option H :=
  if v = defaults node zero h then none else some v

/-- **`Canonical`** — the store holds exactly the non-default nodes of the tree over `leaf`. -/
def Canonical (n : Nat) (store : Nodes H) (leaf : Path → H) : Prop :=
  ∀ p : Path, store[p]? =
    if p.length ≤ n then stored node zero (n - p.length) (hashAt node leaf (n - p.length) p)
    else none

variable {node zero}

theorem get_setNode (store : Nodes H) (key p : Path) (height : Nat) (val : H) :
    (setNode node zero store key height val)[p]? =
      if key = p then stored node zero height val else store[p]? := by
  rw [setNode, stored]
  split <;> simp

@[simp] theorem stored_getD (h : Nat) (v : H) :
    (stored node zero h v).getD (defaults node zero h) = v := by
  rw [stored]
  split
  · next heq => simp [heq]
  · rfl

omit [DecidableEq H] in
theorem hashAt_congr {leaf leaf' : Path → H} (h : Nat) (p : Path)
    (hagree : ∀ t : Path, t.length = h → leaf (p ++ t) = leaf' (p ++ t)) :
    hashAt node leaf h p = hashAt node leaf' h p := by
  induction h generalizing p with
  | zero => simpa [hashAt] using hagree [] rfl
  | succ h ih =>
    have hchild : ∀ b, hashAt node leaf h (p ++ [b]) = hashAt node leaf' h (p ++ [b]) := by
      intro b
      refine ih _ fun t ht => ?_
      simpa using hagree (b :: t) (by simp [ht])
    rw [hashAt, hashAt, hchild, hchild]

omit [DecidableEq H] in
/-- Changing one leaf leaves every subtree off its branch alone. -/
theorem hashAt_update_off {leaf : Path → H} {n : Nat} {path p : Path} {v : H}
    (hlen : path.length = n) (hoff : p ≠ path.take p.length) :
    hashAt node (Function.update leaf path v) (n - p.length) p
      = hashAt node leaf (n - p.length) p := by
  refine hashAt_congr _ _ fun t ht => Function.update_of_ne ?_ _ _
  rintro rfl
  exact hoff (by simp)

omit [DecidableEq H] in
theorem hashAt_default (n : Nat) (p : Path) :
    hashAt node (fun _ => zero) n p = defaults node zero n := by
  induction n generalizing p with
  | zero => rfl
  | succ n ih => rw [hashAt, ih, ih, defaults]

theorem Canonical.empty (n : Nat) :
    Canonical node zero n (∅ : Nodes H) (fun _ => zero) := by
  intro p
  simp [hashAt_default, stored]

/-- **Uniqueness**: the stored node set is a function of the leaves. -/
theorem Canonical.unique {n : Nat} {store store' : Nodes H} {leaf : Path → H}
    (h : Canonical node zero n store leaf) (h' : Canonical node zero n store' leaf) :
    store = store' :=
  Bucket.ext_get fun p => by rw [h p, h' p]

theorem Canonical.getNode {n : Nat} {store : Nodes H} {leaf : Path → H}
    (h : Canonical node zero n store leaf) {p : Path} (hp : p.length ≤ n) :
    getNode node zero store p (n - p.length) = hashAt node leaf (n - p.length) p := by
  rw [SparseMerkle.getNode, h p, if_pos hp, stored_getD]

theorem Canonical.getLeaf {n : Nat} {store : Nodes H} {leaf : Path → H}
    (h : Canonical node zero n store leaf) {p : Path} (hp : p.length = n) :
    SparseMerkle.getNode node zero store p 0 = leaf p := by
  have := h.getNode (p := p) hp.le
  rwa [hp, Nat.sub_self] at this

/-! ## §3 — one update -/

/-- The store half way up: depths `≥ d` already belong to the new leaves, depths `< d` still to the
old ones. -/
def HalfWay (node : H → H → H) (zero : H) (n d : Nat) (store : Nodes H)
    (leaf leaf' : Path → H) : Prop :=
  ∀ p : Path, store[p]? =
    if p.length ≤ n then stored node zero (n - p.length)
      (hashAt node (if d ≤ p.length then leaf' else leaf) (n - p.length) p)
    else none

theorem pathBit_take_append {path : Path} {d : Nat} (h : d < path.length) :
    path.take d ++ [pathBit path d] = path.take (d + 1) := by
  rw [List.take_succ_eq_append_getElem h, pathBit, List.getD_eq_getElem?_getD]
  simp [h]

theorem rehash_canonical {n : Nat} {path : Path} {leaf : Path → H} {v : H}
    (hlen : path.length = n) (d : Nat) (hd : d ≤ n) (store : Nodes H)
    (h : HalfWay node zero n d store leaf (Function.update leaf path v)) :
    Canonical node zero n
      (rehash node zero n path d
        (hashAt node (Function.update leaf path v) (n - d) (path.take d)) store)
      (Function.update leaf path v) := by
  induction d generalizing store with
  | zero =>
    intro p
    simpa [rehash] using h p
  | succ d ih =>
    set leaf' := Function.update leaf path v with hleaf'
    have htake : path.take d ++ [pathBit path d] = path.take (d + 1) :=
      pathBit_take_append (by omega)
    have hsibLen : (siblingKey (d + 1) path).length = d + 1 := by
      simp [siblingKey]
      omega
    -- the sibling is off the branch, so the half-way store already holds its new hash
    have hsib : SparseMerkle.getNode node zero store (siblingKey (d + 1) path) (n - (d + 1))
        = hashAt node leaf' (n - (d + 1)) (siblingKey (d + 1) path) := by
      rw [SparseMerkle.getNode, h, hsibLen, if_pos hd, if_pos le_rfl, stored_getD]
    have hheight : n - d = n - (d + 1) + 1 := by omega
    have hparent : (if pathBit path d
          then node (hashAt node leaf' (n - (d + 1)) (siblingKey (d + 1) path))
            (hashAt node leaf' (n - (d + 1)) (path.take (d + 1)))
          else node (hashAt node leaf' (n - (d + 1)) (path.take (d + 1)))
            (hashAt node leaf' (n - (d + 1)) (siblingKey (d + 1) path)))
        = hashAt node leaf' (n - d) (path.take d) := by
      rw [hheight, hashAt, ← htake, siblingKey]
      cases hb : pathBit path d <;> simp [hb]
    rw [rehash]
    simp only [hsib, hparent]
    refine ih (by omega) _ fun p => ?_
    rw [get_setNode, nodeKey]
    by_cases hp : path.take d = p
    · subst hp
      have hl : (path.take d).length = d := by simp; omega
      simp [hl, show d ≤ n by omega]
    · rw [if_neg hp, h p]
      by_cases hpd : p.length = d
      · -- same depth, off the branch: old and new hashes agree
        have hoff : p ≠ path.take p.length := by
          rw [hpd]
          exact fun hEq => hp hEq.symm
        rw [if_neg (by omega : ¬ d + 1 ≤ p.length), if_pos (by omega : d ≤ p.length),
          hashAt_update_off hlen hoff]
      · have : (d + 1 ≤ p.length) ↔ (d ≤ p.length) := by omega
        simp only [this]

/-- **One update**: the store stays canonical, for the leaves changed at that path. -/
theorem Canonical.update {n : Nat} {store : Nodes H} {leaf : Path → H} {path : Path}
    (h : Canonical node zero n store leaf) (hlen : path.length = n) (v : H) :
    Canonical node zero n (update node zero n store path v) (Function.update leaf path v) := by
  have hfull : path.take n = path := by rw [← hlen, List.take_length]
  have hstart : HalfWay node zero n n (setNode node zero store (nodeKey n path) 0 v) leaf
      (Function.update leaf path v) := by
    intro p
    rw [get_setNode, nodeKey, hfull]
    by_cases hp : path = p
    · subst hp
      simp [hlen, hashAt]
    · rw [if_neg hp, h p]
      by_cases hpn : p.length = n
      · simp [hpn, hashAt, Function.update_of_ne (Ne.symm hp)]
      · by_cases hle : p.length ≤ n
        · rw [if_pos hle, if_pos hle, if_neg (by omega : ¬ n ≤ p.length)]
        · rw [if_neg hle, if_neg hle]
  have hrun := rehash_canonical (v := v) hlen n le_rfl _ hstart
  rw [hfull, Nat.sub_self, hashAt, Function.update_self] at hrun
  exact hrun

/-! ## §4 — branches -/

section Branches

variable (node zero)

/-- **`siblings`** — the hashes beside a path, from depth `depth` up to the root. -/
def siblings (n : Nat) (store : Nodes H) (path : Path) : (depth : Nat) → List H
  | 0 => []
  | depth + 1 =>
    SparseMerkle.getNode node zero store (siblingKey (depth + 1) path) (n - (depth + 1)) ::
      siblings n store path depth

omit [DecidableEq H] in
/-- The two children below depth `depth`, in order. -/
def children (path : Path) (depth : Nat) (sib cur : H) : H × H :=
  if pathBit path depth then (sib, cur) else (cur, sib)

omit [DecidableEq H] in
/-- The parent of a hash and its sibling. -/
def join (path : Path) (depth : Nat) (sib cur : H) : H :=
  node (children path depth sib cur).1 (children path depth sib cur).2

omit [DecidableEq H] in
/-- **`climb`** — fold a hash through siblings, bottom-up; as many levels are left as siblings. -/
def climb (path : Path) : List H → H → H
  | [], cur => cur
  | sib :: rest, cur => climb path rest (join node path rest.length sib cur)

omit [DecidableEq H] in
/-- The pairs of children a climb goes through. -/
def pairs (path : Path) : List H → H → List (H × H)
  | [], _ => []
  | sib :: rest, cur =>
    children path rest.length sib cur :: pairs path rest (join node path rest.length sib cur)

/-- **`apart`** — the children of the first node on which two climbs meet. -/
def apart (path : Path) : List H → List H → H → H → Option ((H × H) × (H × H))
  | sib :: rest, sib' :: rest', cur, cur' =>
    if join node path rest.length sib cur = join node path rest'.length sib' cur' then
      some (children path rest.length sib cur, children path rest'.length sib' cur')
    else
      apart path rest rest' (join node path rest.length sib cur) (join node path rest'.length sib' cur')
  | _, _, _, _ => none

variable {node zero}

omit [DecidableEq H] in
@[simp] theorem length_siblings (n : Nat) (store : Nodes H) (path : Path) (d : Nat) :
    (siblings node zero n store path d).length = d := by
  induction d with
  | zero => rfl
  | succ d ih => rw [siblings, List.length_cons, ih]

omit [DecidableEq H] in
/-- A subtree hash is the join of the child on the path and its sibling. -/
theorem join_hashAt {leaf : Path → H} {path : Path} {d h : Nat} (hd : d < path.length) :
    join node path d (hashAt node leaf h (siblingKey (d + 1) path))
        (hashAt node leaf h (path.take (d + 1))) = hashAt node leaf (h + 1) (path.take d) := by
  rw [join, children, hashAt, ← pathBit_take_append hd, siblingKey, Nat.add_sub_cancel]
  cases hb : pathBit path d <;> simp

/-- **Completeness of branches**: read off a canonical store, they climb to its root. -/
theorem Canonical.climb_siblings {n : Nat} {store : Nodes H} {leaf : Path → H} {path : Path}
    (h : Canonical node zero n store leaf) (hlen : path.length = n) :
    climb node path (siblings node zero n store path n) (leaf path) = root node zero n store := by
  -- from every depth of the path on, the climb reaches the hash of the whole tree
  have hclimb : ∀ d, d ≤ n → climb node path (siblings node zero n store path d)
      (hashAt node leaf (n - d) (path.take d)) = hashAt node leaf n [] := by
    intro d
    induction d with
    | zero => intro _; rfl
    | succ d ih =>
      intro hd
      have hsibLen : (siblingKey (d + 1) path).length = d + 1 := by
        simp [siblingKey]
        omega
      have hsib : SparseMerkle.getNode node zero store (siblingKey (d + 1) path) (n - (d + 1))
          = hashAt node leaf (n - (d + 1)) (siblingKey (d + 1) path) := by
        have := h.getNode (p := siblingKey (d + 1) path) (by omega)
        rwa [hsibLen] at this
      rw [siblings, climb, length_siblings, hsib, join_hashAt (by omega)]
      rw [show n - (d + 1) + 1 = n - d by omega]
      exact ih (by omega)
  have hroot : root node zero n store = hashAt node leaf n [] := h.getNode (p := []) (Nat.zero_le n)
  have hfull := hclimb n le_rfl
  rw [Nat.sub_self, hashAt, ← hlen, List.take_length] at hfull
  rw [hroot, ← hlen]
  exact hfull

omit [DecidableEq H] in
theorem children_ne {path : Path} {d : Nat} {sib sib' cur cur' : H} (h : cur ≠ cur') :
    children path d sib cur ≠ children path d sib' cur' := by
  intro heq
  unfold children at heq
  split at heq
  · exact h (Prod.mk.inj heq).2
  · exact h (Prod.mk.inj heq).1

/-- **Soundness of branches**: climbs that start apart and end alike meet at a node with two different
pairs of children, and `apart` finds it. -/
theorem apart_spec {path : Path} {l l' : List H} {cur cur' : H} (hlen : l.length = l'.length)
    (hne : cur ≠ cur') (hend : climb node path l cur = climb node path l' cur') :
    ∃ p q : H × H, apart node path l l' cur cur' = some (p, q) ∧ p ≠ q ∧ node p.1 p.2 = node q.1 q.2 := by
  induction l generalizing l' cur cur' with
  | nil =>
    obtain rfl := List.length_eq_zero_iff.mp hlen.symm
    exact absurd hend hne
  | cons sib rest ih =>
    cases l' with
    | nil => cases hlen
    | cons sib' rest' =>
      have hrest : rest.length = rest'.length := Nat.succ.inj hlen
      by_cases hmeet : join node path rest.length sib cur = join node path rest'.length sib' cur'
      · refine ⟨_, _, if_pos hmeet, ?_, hmeet⟩
        rw [hrest]
        exact children_ne hne
      · obtain ⟨p, q, hfound, hpq⟩ := ih hrest hmeet hend
        exact ⟨p, q, by rw [apart, if_neg hmeet, hfound], hpq⟩

theorem apart_mem {path : Path} {l l' : List H} {cur cur' : H} {p q : H × H}
    (h : apart node path l l' cur cur' = some (p, q)) :
    p ∈ pairs node path l cur ∧ q ∈ pairs node path l' cur' := by
  induction l generalizing l' cur cur' with
  | nil => cases h
  | cons sib rest ih =>
    cases l' with
    | nil => cases h
    | cons sib' rest' =>
      rw [apart] at h
      split at h
      · obtain ⟨rfl, rfl⟩ := Prod.mk.inj (Option.some.inj h)
        exact ⟨List.mem_cons_self, List.mem_cons_self⟩
      · obtain ⟨hp, hq⟩ := ih h
        exact ⟨List.mem_cons_of_mem _ hp, List.mem_cons_of_mem _ hq⟩

end Branches
end Tree
end Lib.SparseMerkle
