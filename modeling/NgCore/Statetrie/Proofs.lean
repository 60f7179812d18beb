/-
# NgCore.Statetrie.Proofs — histories and proofs of the state commitment

Two things the package `statetrie` promises of its tree, both over ARBITRARY use.

* `updates_eq_of_finalMap_eq`: the stored node set and the root are a function of the final map from
  paths to value hashes, whatever inserts, overwrites and deletions led there. Nothing is asked of the
  hash.
* `verify_complete_sound`: a proof read off the store verifies; and two proofs that open ONE root at one
  path to different value hashes are turned, by the computable `breach`, into a collision of the hash or
  a leaf that hashes to the all-zero word.
-/
import NgCore.Statetrie

namespace NgCore.Statetrie

open Lib

variable [Crypto]

/-! ## §1 — histories -/

/-- One call of `update`: a path and the value hash written there. -/
abbrev Call := Bytes32 × Bytes32

/-- The store after a history of calls, from the empty one. -/
def updates (calls : List Call) : NodeStore := calls.foldl (fun store c => update store c.1 c.2) ∅

omit [Crypto] in
/-- What a call does to a partial map from paths to value hashes: an all-zero value hash deletes. -/
def assign (f : Bytes32 → Option Bytes32) (c : Call) : Bytes32 → Option Bytes32 :=
  Function.update f c.1 (if c.2 = zero32 then none else some c.2)

omit [Crypto] in
/-- **`finalMap`** — the partial map a history induces. -/
def finalMap (calls : List Call) : Bytes32 → Option Bytes32 := calls.foldl assign fun _ => none

omit [Crypto] in
/-- The value hash the tree holds for an entry of a partial map. -/
def orZero (o : Option Bytes32) : Bytes32 := o.getD zero32

omit [Crypto] in
theorem orZero_assign (f : Bytes32 → Option Bytes32) (c : Call) :
    (fun p => orZero (assign f c p)) = Function.update (fun p => orZero (f p)) c.1 c.2 := by
  funext p
  unfold assign
  by_cases hp : p = c.1
  · subst hp
    rw [Function.update_self, Function.update_self]
    split
    · next hzero => exact hzero.symm
    · rfl
  · rw [Function.update_of_ne hp, Function.update_of_ne hp]

/-- **A history commits to its final map.** -/
theorem commits_updates (calls : List Call) :
    Commits (updates calls) fun p => orZero (finalMap calls p) := by
  -- from any committed store on, the calls change store and map in step
  have hfold : ∀ (calls : List Call) (store : NodeStore) (f : Bytes32 → Option Bytes32),
      Commits store (fun p => orZero (f p)) →
      Commits (calls.foldl (fun store c => update store c.1 c.2) store)
        fun p => orZero (calls.foldl assign f p) := by
    intro calls
    induction calls with
    | nil => exact fun store f h => h
    | cons c calls ih =>
      intro store f h
      apply ih
      rw [orZero_assign]
      exact h.update c.1 c.2
  exact hfold calls ∅ _ Commits.empty

/-- The root of the empty tree. -/
def emptyRoot : Bytes32 := SparseMerkle.defaults internalHash zero32 depth

theorem root_empty : root (∅ : NodeStore) = emptyRoot := by
  unfold root SparseMerkle.root SparseMerkle.getNode
  simp [emptyRoot]

/-- **Canonical form.** Histories with one final map leave one node set and one root; an empty final map
leaves nothing stored and the default root. -/
theorem updates_eq_of_finalMap_eq {calls calls' : List Call} (h : finalMap calls = finalMap calls') :
    updates calls = updates calls' ∧ root (updates calls) = root (updates calls') ∧
      (finalMap calls = (fun _ => none) → updates calls = ∅ ∧ root (updates calls) = emptyRoot) := by
  have hsame : updates calls = updates calls' := by
    have hcommits := commits_updates calls'
    rw [← h] at hcommits
    exact (commits_updates calls).unique hcommits
  refine ⟨hsame, by rw [hsame], fun hnone => ?_⟩
  have hempty : updates calls = ∅ := by
    have hcommits := commits_updates calls
    rw [hnone] at hcommits
    exact hcommits.unique Commits.empty
  exact ⟨hempty, by rw [hempty, root_empty]⟩

omit [Crypto] in
/-- Writing a leaf and deleting it again leaves the empty store, as does doing nothing. -/
theorem updates_delete_eq_empty :
    letI := Crypto.ofHash copy32
    finalMap [(zero32, storageDepositEscrow), (zero32, zero32)] = finalMap [] ∧
      updates [(zero32, storageDepositEscrow), (zero32, zero32)] = ∅ := by
  let _ := Crypto.ofHash copy32
  have hmap : finalMap [(zero32, storageDepositEscrow), (zero32, zero32)] = finalMap [] := by
    funext p
    show assign (assign (fun _ => none) _) _ p = none
    unfold assign
    by_cases hp : p = zero32
    · rw [hp, Function.update_self, if_pos rfl]
    · rw [Function.update_of_ne hp, Function.update_of_ne hp]
  exact ⟨hmap, (updates_eq_of_finalMap_eq hmap).1⟩

/-! ## §2 — proofs -/

omit [Crypto] in
/-- A byte string of hash size. -/
def word? (b : Bytes) : Option Bytes32 := if h : b.length = hashSize then some ⟨b, h⟩ else none

omit [Crypto] in
/-- The words of a branch; one sibling of another length refuses it. -/
def words? : List Bytes → Option (List Bytes32)
  | [] => some []
  | b :: l => (word? b).bind fun w => (words? l).map (w :: ·)

/-- **`verify`** — does the leaf fold through the 256 siblings into the root? An all-zero value hash
verifies ABSENCE. -/
def verify (root path vh : Bytes) (proof : List Bytes) : Bool :=
  match word? root, word? path, word? vh, words? proof with
  | some root, some path, some vh, some proof =>
    decide (proof.length = depth) && decide (foldBranch path vh proof = root)
  | _, _, _, _ => false

omit [Crypto] in
@[simp] theorem word?_val (w : Bytes32) : word? w.val = some w := dif_pos w.property

omit [Crypto] in
theorem word?_eq_some {b : Bytes} {w : Bytes32} : word? b = some w ↔ b = w.val := by
  constructor
  · intro h
    unfold word? at h
    split at h
    · rw [← Option.some.inj h]
    · cases h
  · rintro rfl
    exact word?_val w

omit [Crypto] in
theorem words?_eq_some {l : List Bytes} {ws : List Bytes32} :
    words? l = some ws ↔ l = ws.map Subtype.val := by
  induction l generalizing ws with
  | nil =>
    rw [words?, Option.some_inj]
    exact ⟨fun h => by rw [← h]; rfl, fun h => (List.map_eq_nil_iff.mp h.symm).symm⟩
  | cons b l ih =>
    rw [words?, Option.bind_eq_some_iff]
    constructor
    · rintro ⟨w, hw, hrest⟩
      obtain ⟨ws', hws', rfl⟩ := Option.map_eq_some_iff.mp hrest
      rw [word?_eq_some.mp hw, ih.mp hws']
      rfl
    · intro h
      cases ws with
      | nil => cases h
      | cons w ws' =>
        obtain ⟨hb, hl⟩ := List.cons.inj h
        exact ⟨w, word?_eq_some.mpr hb, Option.map_eq_some_iff.mpr ⟨ws', ih.mpr hl, rfl⟩⟩

theorem verify_eq_true {root path vh : Bytes} {proof : List Bytes} :
    verify root path vh proof = true ↔ ∃ (r p v : Bytes32) (sibs : List Bytes32), root = r.val ∧
      path = p.val ∧ vh = v.val ∧ proof = sibs.map Subtype.val ∧ sibs.length = depth ∧
      foldBranch p v sibs = r := by
  constructor
  · intro h
    unfold verify at h
    split at h
    · next r p v sibs hr hp hv hs =>
      obtain ⟨hlen, hfold⟩ := Bool.and_eq_true_iff.mp h
      exact ⟨r, p, v, sibs, word?_eq_some.mp hr, word?_eq_some.mp hp, word?_eq_some.mp hv,
        words?_eq_some.mp hs, of_decide_eq_true hlen, of_decide_eq_true hfold⟩
    · cases h
  · rintro ⟨r, p, v, sibs, rfl, rfl, rfl, rfl, hlen, hfold⟩
    unfold verify
    rw [word?_val, word?_val, word?_val, words?_eq_some.mpr rfl]
    show (decide _ && decide _) = true
    rw [decide_eq_true hlen, decide_eq_true hfold]
    rfl

/-! ## §3 — what two proofs of one root give away -/

/-- **`Breach`** — how the hash can fail the tree: two strings with one digest, or a leaf (its path and
value hash) with the all-zero digest. -/
inductive Breach where
  | collision (x y : Bytes)
  | zeroLeaf (path vh : Bytes32)

omit [Crypto] in
/-- The string an internal node hashes. -/
def nodeInput (children : Bytes32 × Bytes32) : Bytes := 0x01 :: (children.1.val ++ children.2.val)

omit [Crypto] in
/-- The string a present leaf hashes. -/
def leafInput (path vh : Bytes32) : Bytes := 0x00 :: (path.val ++ vh.val)

/-- The breach is real. -/
def Breach.Holds : Breach → Prop
  | .collision x y => x ≠ y ∧ hash256 x = hash256 y
  | .zeroLeaf path vh => vh ≠ zero32 ∧ hash256 (leafInput path vh) = zero32

/-- **`breach`** — from two branches of one path: the leaves, if they hash alike, else the first node where
the climbs meet. -/
def breach (path vh vh' : Bytes32) (proof proof' : List Bytes32) : Breach :=
  if leafHash path vh = leafHash path vh' then
    if vh = zero32 then .zeroLeaf path vh'
    else if vh' = zero32 then .zeroLeaf path vh
    else .collision (leafInput path vh) (leafInput path vh')
  else
    match SparseMerkle.apart internalHash (bitsOf path.val) proof proof' (leafHash path vh)
      (leafHash path vh') with
    | some (p, q) => .collision (nodeInput p) (nodeInput q)
    | none => .collision [] []

omit [Crypto] in
theorem nodeInput_inj {p q : Bytes32 × Bytes32} (h : nodeInput p = nodeInput q) : p = q := by
  obtain ⟨hleft, hright⟩ := List.append_inj (List.cons.inj h).2 (by simp)
  exact Prod.ext (Subtype.ext hleft) (Subtype.ext hright)

omit [Crypto] in
theorem leafInput_inj {path vh vh' : Bytes32} (h : leafInput path vh = leafInput path vh') : vh = vh' :=
  Subtype.ext (List.append_inj (List.cons.inj h).2 rfl).2

/-- The strings folding a branch hashes. -/
def hashed (path vh : Bytes32) (proof : List Bytes32) : List Bytes :=
  (if vh = zero32 then [] else [leafInput path vh]) ++
    (SparseMerkle.pairs internalHash (bitsOf path.val) proof (leafHash path vh)).map nodeInput

theorem leafInput_mem_hashed {path vh : Bytes32} (proof : List Bytes32) (h : vh ≠ zero32) :
    leafInput path vh ∈ hashed path vh proof := by
  unfold hashed
  rw [if_neg h]
  exact List.mem_append_left _ (List.mem_singleton_self _)

/-- The strings of a breach are among given ones. -/
def Breach.Among (l : List Bytes) : Breach → Prop
  | .collision x y => x ∈ l ∧ y ∈ l
  | .zeroLeaf path vh => leafInput path vh ∈ l

/-- **The reduction**: two branches that open one root to different value hashes breach the hash. -/
theorem breach_holds {path vh vh' : Bytes32} {proof proof' : List Bytes32} (hne : vh ≠ vh')
    (hlen : proof.length = proof'.length)
    (hroot : foldBranch path vh proof = foldBranch path vh' proof') :
    (breach path vh vh' proof proof').Holds ∧
      (breach path vh vh' proof proof').Among (hashed path vh proof ++ hashed path vh' proof') := by
  have hmem : ∀ {x : Bytes}, x ∈ hashed path vh proof → x ∈ hashed path vh proof ++ hashed path vh' proof' :=
    fun h => List.mem_append_left _ h
  have hmem' : ∀ {x : Bytes}, x ∈ hashed path vh' proof' →
      x ∈ hashed path vh proof ++ hashed path vh' proof' := fun h => List.mem_append_right _ h
  unfold breach
  split
  · next hleaf =>
    unfold leafHash at hleaf
    split
    · next hzero =>
      -- the first is absent, so the second hashes to zero
      have hpresent : vh' ≠ zero32 := fun h => hne (hzero.trans h.symm)
      rw [if_pos hzero, if_neg hpresent] at hleaf
      exact ⟨⟨hpresent, hleaf.symm⟩, hmem' (leafInput_mem_hashed proof' hpresent)⟩
    · next hpresent =>
      rw [if_neg hpresent] at hleaf
      split
      · next hzero =>
        rw [if_pos hzero] at hleaf
        exact ⟨⟨hpresent, hleaf⟩, hmem (leafInput_mem_hashed proof hpresent)⟩
      · next hpresent' =>
        rw [if_neg hpresent'] at hleaf
        exact ⟨⟨fun h => hne (leafInput_inj h), hleaf⟩, hmem (leafInput_mem_hashed proof hpresent),
          hmem' (leafInput_mem_hashed proof' hpresent')⟩
  · next hleaf =>
    obtain ⟨p, q, hfound, hpq, hnode⟩ := SparseMerkle.apart_spec hlen hleaf hroot
    obtain ⟨hp, hq⟩ := SparseMerkle.apart_mem hfound
    rw [hfound]
    exact ⟨⟨fun h => hpq (nodeInput_inj h), hnode⟩,
      hmem (List.mem_append_right _ (List.mem_map_of_mem hp)),
      hmem' (List.mem_append_right _ (List.mem_map_of_mem hq))⟩

/-- **`extract`** — the same from the proofs as they come over the wire. -/
def extract (path vh vh' : Bytes) (proof proof' : List Bytes) : Option Breach := do
  return breach (← word? path) (← word? vh) (← word? vh') (← words? proof) (← words? proof')

/-- **Completeness and soundness of proofs.** What `prove` returns on any store reached by updates
verifies for the value hash that is there, or for absence; and from any two accepted proofs of one root
and path for different value hashes `extract` computes a breach of the hash. -/
theorem verify_complete_sound :
    (∀ (calls : List Call) (path : Bytes32),
      verify (root (updates calls)).val path.val (orZero (finalMap calls path)).val
        ((prove (updates calls) path).map Subtype.val) = true) ∧
    ∀ (root path vh vh' : Bytes) (proof proof' : List Bytes), verify root path vh proof = true →
      verify root path vh' proof' = true → vh ≠ vh' →
      ∃ b, extract path vh vh' proof proof' = some b ∧ b.Holds := by
  refine ⟨fun calls path => ?_, fun root path vh vh' proof proof' h h' hne => ?_⟩
  · exact verify_eq_true.mpr ⟨_, path, _, _, rfl, rfl, rfl, rfl, length_prove _ _,
      (commits_updates calls).foldBranch_prove path⟩
  · obtain ⟨r, p, v, sibs, rfl, rfl, rfl, rfl, hlen, hfold⟩ := verify_eq_true.mp h
    obtain ⟨r', p', v', sibs', hr, hp, rfl, rfl, hlen', hfold'⟩ := verify_eq_true.mp h'
    obtain rfl := Subtype.ext hr
    obtain rfl := Subtype.ext hp
    refine ⟨breach p v v' sibs sibs', ?_, (breach_holds (fun hv => hne (congrArg Subtype.val hv))
      (hlen.trans hlen'.symm) (hfold.trans hfold'.symm)).1⟩
    unfold extract
    rw [word?_val, word?_val, word?_val, words?_eq_some.mpr rfl, words?_eq_some.mpr rfl]
    rfl

omit [Crypto] in
/-- Under a hash that sends everything to the all-zero word, every branch opens the all-zero root to every
value hash, and the breach is found. -/
theorem verify_complete_sound_zeroHash :
    letI := Crypto.ofHash fun _ => zero32
    let proof := List.replicate depth zero32.val
    verify zero32.val zero32.val storageDepositEscrow.val proof = true ∧
      verify zero32.val zero32.val zero32.val proof = true ∧
      ∃ b, extract zero32.val storageDepositEscrow.val zero32.val proof proof = some b ∧ b.Holds := by
  let _ := Crypto.ofHash fun _ => zero32
  have hfirst : verify zero32.val zero32.val storageDepositEscrow.val
      (List.replicate depth zero32.val) = true := by decide +kernel
  have hsecond : verify zero32.val zero32.val zero32.val (List.replicate depth zero32.val) = true := by
    decide +kernel
  exact ⟨hfirst, hsecond, verify_complete_sound.2 _ _ _ _ _ _ hfirst hsecond (by decide)⟩

end NgCore.Statetrie
