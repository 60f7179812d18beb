/-
# NgCore.Statetrie — the consensus state commitment

Package `statetrie`: a 256-level sparse merkle tree hashed with `hash256`. A leaf stands at the path
`hash256 (domain ‖ key)`; the leaf hash covers path and value hash, an absent leaf is all-zero.
The tree operations are those of `Lib.SparseMerkle` at depth 256.
-/
import NgCore.Types.Basic
import NgCore.Lib.SparseMerkle

namespace NgCore.Statetrie

open Lib

/-- Tree levels below the root, one per path bit. -/
def depth : Nat := 256

/-- The stored non-default nodes. -/
abbrev NodeStore := SparseMerkle.Nodes Bytes32

/-- **`Domain`** — the consensus state domains. -/
inductive Domain where
  | balance | key | contract | commit | beacon
  deriving DecidableEq, Repr

/-- The domain tag byte. -/
def Domain.tag : Domain → UInt8
  | .balance => 0x01
  | .key => 0x02
  | .contract => 0x03
  | .commit => 0x04
  | .beacon => 0x05

variable [Crypto]

/-- **`leafPath`** — the fixed leaf position of a domain-tagged raw key. -/
def leafPath (domain : Domain) (rawKey : Bytes) : Bytes32 := hash256 (domain.tag :: rawKey)

/-- **`valueHash`** — the hash of an encoded leaf value. -/
def valueHash (encodedValue : Bytes) : Bytes32 := hash256 encodedValue

/-- **`leafHash`** — all-zero when the leaf is absent. -/
def leafHash (path vh : Bytes32) : Bytes32 :=
  if vh = zero32 then zero32 else hash256 (0x00 :: (path.val ++ vh.val))

/-- **`internalHash`** — the hash of an internal node. -/
def internalHash (left right : Bytes32) : Bytes32 := hash256 (0x01 :: (left.val ++ right.val))

/-- **`update`** — set the leaf at `path` to `vh` (all-zero deletes) and rehash its branch. -/
def update (store : NodeStore) (path vh : Bytes32) : NodeStore :=
  SparseMerkle.update internalHash zero32 depth store (bitsOf path.val) (leafHash path vh)

/-- **`root`** — the current root. -/
def root (store : NodeStore) : Bytes32 := SparseMerkle.root internalHash zero32 depth store

/-- **`prove`** — the branch of the leaf at `path`: 256 sibling hashes, bottom-up. -/
def prove (store : NodeStore) (path : Bytes32) : List Bytes32 :=
  SparseMerkle.siblings internalHash zero32 depth store (bitsOf path.val) depth

/-- The root a leaf folds to through sibling hashes, bottom-up. -/
def foldBranch (path vh : Bytes32) (proof : List Bytes32) : Bytes32 :=
  SparseMerkle.climb internalHash (bitsOf path.val) proof (leafHash path vh)

/-- The leaf node hash stored at a path. -/
def leafAt (store : NodeStore) (path : Bytes32) : Bytes32 :=
  SparseMerkle.getNode internalHash zero32 store (bitsOf path.val) 0

/-- **`Commits store vh`** — the store is the canonical node set of the tree whose leaf at every path
holds the value hash `vh` gives it. -/
def Commits (store : NodeStore) (vh : Bytes32 → Bytes32) : Prop :=
  ∃ leaf : SparseMerkle.Path → Bytes32,
    SparseMerkle.Canonical internalHash zero32 depth store leaf ∧
    (∀ p : Bytes32, leaf (bitsOf p.val) = leafHash p (vh p)) ∧
    ∀ b : SparseMerkle.Path, (∀ p : Bytes32, b ≠ bitsOf p.val) → leaf b = zero32

omit [Crypto] in
theorem length_path (p : Bytes32) : (bitsOf p.val).length = depth := by
  rw [length_bitsOf, p.property]
  rfl

omit [Crypto] in
theorem path_inj {p q : Bytes32} (h : bitsOf p.val = bitsOf q.val) : p = q :=
  Subtype.ext (bitsOf_inj h)

theorem Commits.empty : Commits (∅ : NodeStore) (fun _ => zero32) :=
  ⟨fun _ => zero32, SparseMerkle.Canonical.empty depth, fun p => by simp [leafHash], fun _ _ => rfl⟩

/-- **One leaf update.** -/
theorem Commits.update {store : NodeStore} {vh : Bytes32 → Bytes32} (h : Commits store vh)
    (path v : Bytes32) : Commits (update store path v) (Function.update vh path v) := by
  obtain ⟨leaf, hcanon, hleaf, hout⟩ := h
  refine ⟨Function.update leaf (bitsOf path.val) (leafHash path v),
    hcanon.update (length_path path) _, fun p => ?_, fun b hb => ?_⟩
  · by_cases hp : p = path
    · subst hp
      simp
    · rw [Function.update_of_ne hp, Function.update_of_ne (fun hbits => hp (path_inj hbits)), hleaf]
  · rw [Function.update_of_ne (hb path), hout b hb]

/-- **The node set is a function of the leaves.** -/
theorem Commits.unique {store store' : NodeStore} {vh : Bytes32 → Bytes32} (h : Commits store vh)
    (h' : Commits store' vh) : store = store' := by
  obtain ⟨leaf, hcanon, hleaf, hout⟩ := h
  obtain ⟨leaf', hcanon', hleaf', hout'⟩ := h'
  have hEq : leaf = leaf' := by
    funext b
    by_cases hb : ∃ p : Bytes32, b = bitsOf p.val
    · obtain ⟨p, rfl⟩ := hb
      rw [hleaf, hleaf']
    · rw [hout b (not_exists.mp hb), hout' b (not_exists.mp hb)]
  exact hcanon.unique (hEq ▸ hcanon')

theorem Commits.leafAt {store : NodeStore} {vh : Bytes32 → Bytes32} (h : Commits store vh)
    (p : Bytes32) : leafAt store p = leafHash p (vh p) := by
  obtain ⟨leaf, hcanon, hleaf, -⟩ := h
  rw [Statetrie.leafAt, hcanon.getLeaf (length_path p), hleaf]

/-- The root of a committed store is the hash of an internal node. -/
theorem Commits.root {store : NodeStore} {vh : Bytes32 → Bytes32} (h : Commits store vh) :
    ∃ left right, root store = internalHash left right := by
  obtain ⟨leaf, hcanon, -⟩ := h
  have hroot : Statetrie.root store = SparseMerkle.hashAt internalHash leaf depth [] :=
    hcanon.getNode (p := []) (Nat.zero_le depth)
  exact ⟨_, _, hroot⟩

theorem Commits.foldBranch_prove {store : NodeStore} {vh : Bytes32 → Bytes32} (h : Commits store vh)
    (path : Bytes32) : foldBranch path (vh path) (prove store path) = Statetrie.root store := by
  obtain ⟨leaf, hcanon, hleaf, -⟩ := h
  have hclimb := hcanon.climb_siblings (length_path path)
  rw [hleaf] at hclimb
  exact hclimb

theorem length_prove (store : NodeStore) (path : Bytes32) : (prove store path).length = depth :=
  SparseMerkle.length_siblings depth store (bitsOf path.val) depth

-- No proof below looks inside the 256 levels again.
attribute [irreducible] update root prove

end NgCore.Statetrie
