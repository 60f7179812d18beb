/-
# NgCore.State.LockStep — the state commitment is a function of the plain state

Every write, delete, prune, restore and revert site of `ngstate` updates one leaf of the commitment next
to the bucket it changes, with the same key and the same encoding. `State.entry s k` is what the buckets
hold for the leaf `k`; `InStep K s` says the stored node set is THE node set of those entries.

DELIVERABLES: `Write.follows_step` (one case per write helper), `follows_unwindHeight`,
`follows_rebuildFromSheet`; `NgCore.State.Reached` puts them together.

Two leaf keys with one path would share a leaf, so the statements fix a set `K` of leaf keys whose paths
are distinct and cover the runs that touch no leaf outside it.
-/
import NgCore.State.Genesis

namespace NgCore

open Lib (Bucket Versioned)
open Lib.Rlp (beBytes)

namespace State

/-! ## §1 — what the buckets hold for a leaf -/

/-- The "empty means absent" rule of every domain. -/
def ofBytes (value : Bytes) : Option Bytes := if value = [] then none else some value

/-- **`entry`** — the encoded value of a leaf, read off the plain buckets; a zero balance is absent. -/
def entry (s : State) : LeafKey → Option Bytes
  | .balance a => ofBytes (balanceBytes s.bal.cur[a]?)
  | .key a => s.key.cur[a]?
  | .contract a => (s.contract.cur[a]?).map StoredContract.raw
  | .commit height hash => (s.commit[(height, hash)]?).map Subtype.val
  | .beacon => s.beacon.cur[()]?

/-- The leaves ever written or deleted. -/
def touched (s : State) : Set LeafKey := {k | .leaf k ∈ s.log}

theorem ofBytes_of_ne_nil {value : Bytes} (h : value ≠ []) : ofBytes value = some value := if_neg h

theorem ofBytes_val (a : Address) : ofBytes a.val = some a.val := by
  apply ofBytes_of_ne_nil
  intro h
  have := a.property
  rw [h] at this
  simp at this

section Commitment

variable [Crypto]

/-- The value hash of an entry; absence is all-zero. -/
def leafValue (o : Option Bytes) : Bytes32 := o.elim zero32 Statetrie.valueHash

theorem trieSetLeaf_eq (k : LeafKey) (value : Bytes) (s : State) :
    s.trieSetLeaf k value = s.setLeaf k (leafValue (ofBytes value)) := by
  unfold trieSetLeaf ofBytes
  split <;> rfl

/-- **`Tracks K store f`** — `store` commits to exactly the entries `f`, at the paths of `K`. -/
def Tracks (K : Set LeafKey) (store : Statetrie.NodeStore) (f : LeafKey → Option Bytes) : Prop :=
  ∃ vh : Bytes32 → Bytes32, Statetrie.Commits store vh ∧
    (∀ k ∈ K, vh k.path = leafValue (f k)) ∧
    (∀ p, (∀ k ∈ K, k.path ≠ p) → vh p = zero32) ∧
    ∀ k ∉ K, f k = none

variable {K : Set LeafKey}

theorem Tracks.empty : Tracks K ∅ fun _ => none :=
  ⟨fun _ => zero32, Statetrie.Commits.empty, fun _ _ => rfl, fun _ _ => rfl, fun _ _ => rfl⟩

theorem Tracks.update (hK : Set.InjOn LeafKey.path K) {store : Statetrie.NodeStore}
    {f : LeafKey → Option Bytes} (h : Tracks K store f) {k : LeafKey} (hk : k ∈ K) (o : Option Bytes) :
    Tracks K (Statetrie.update store k.path (leafValue o)) (Function.update f k o) := by
  obtain ⟨vh, hcommits, hin, hout, habsent⟩ := h
  refine ⟨_, hcommits.update k.path (leafValue o), ?_, ?_, ?_⟩
  · intro k' hk'
    by_cases hkk : k' = k
    · subst hkk
      simp
    · rw [Function.update_of_ne hkk, Function.update_of_ne fun hp => hkk (hK hk' hk hp), hin k' hk']
  · intro p hp
    rw [Function.update_of_ne (hp k hk).symm, hout p hp]
  · intro k' hk'
    have hne : k' ≠ k := fun hkk => hk' (hkk.symm ▸ hk)
    rw [Function.update_of_ne hne, habsent k' hk']

/-- **The node set is a function of the entries.** -/
theorem Tracks.unique {store store' : Statetrie.NodeStore} {f : LeafKey → Option Bytes}
    (h : Tracks K store f) (h' : Tracks K store' f) : store = store' := by
  obtain ⟨vh, hcommits, hin, hout, -⟩ := h
  obtain ⟨vh', hcommits', hin', hout', -⟩ := h'
  have hEq : vh = vh' := by
    funext p
    by_cases hp : ∃ k ∈ K, k.path = p
    · obtain ⟨k, hk, rfl⟩ := hp
      rw [hin k hk, hin' k hk]
    · have hne : ∀ k ∈ K, k.path ≠ p := fun k hk hkp => hp ⟨k, hk, hkp⟩
      rw [hout p hne, hout' p hne]
  subst hEq
  exact hcommits.unique hcommits'

/-! ## §2 — a run of leaf updates -/

/-- Set a list of leaves in order. -/
def setLeaves (l : List (LeafKey × Bytes32)) (s : State) : State :=
  l.foldl (fun s e => s.setLeaf e.1 e.2) s

theorem setLeaves_cons (e : LeafKey × Bytes32) (l : List (LeafKey × Bytes32)) (s : State) :
    s.setLeaves (e :: l) = (s.setLeaf e.1 e.2).setLeaves l :=
  List.foldl_cons ..

theorem touched_setLeaf (k : LeafKey) (vh : Bytes32) (s : State) :
    (s.setLeaf k vh).touched = insert k s.touched := by
  ext k'
  simp [touched, setLeaf]

theorem touched_setLeaves (l : List (LeafKey × Bytes32)) (s : State) :
    (s.setLeaves l).touched = s.touched ∪ {k | k ∈ l.map Prod.fst} := by
  induction l generalizing s with
  | nil => simp [setLeaves]
  | cons e l ih =>
    rw [setLeaves_cons, ih, touched_setLeaf]
    ext k
    simp only [List.map_cons, List.mem_cons, Set.mem_union, Set.mem_insert_iff, Set.mem_ofPred_eq]
    tauto

theorem setLeaves_eq (l : List (LeafKey × Bytes32)) (s : State) :
    ∃ trie log, s.setLeaves l = { s with trie, log } := by
  induction l generalizing s with
  | nil => exact ⟨s.trie, s.log, rfl⟩
  | cons e l ih =>
    obtain ⟨trie, log, h⟩ := ih (s.setLeaf e.1 e.2)
    exact ⟨trie, log, by rw [setLeaves_cons, h]; rfl⟩

@[simp] theorem entry_setLeaves (l : List (LeafKey × Bytes32)) (s : State) :
    (s.setLeaves l).entry = s.entry := by
  obtain ⟨trie, log, h⟩ := setLeaves_eq l s
  rw [h]
  rfl

/-- **The fold rule**: after a run of updates the commitment tracks `g`, provided the run sets exactly the
leaves where `g` differs from before, to what `g` says. -/
theorem Tracks.setLeaves (hK : Set.InjOn LeafKey.path K) {l : List (LeafKey × Bytes32)} {s : State}
    {f g : LeafKey → Option Bytes} (h : Tracks K s.trie f) (hl : ∀ e ∈ l, e.1 ∈ K)
    (hset : ∀ e ∈ l, e.2 = leafValue (g e.1)) (hother : ∀ k, k ∉ l.map Prod.fst → g k = f k) :
    Tracks K (s.setLeaves l).trie g := by
  induction l generalizing s f with
  | nil =>
    have hfg : g = f := funext fun k => hother k (by simp)
    rw [hfg]
    exact h
  | cons e l ih =>
    have hstep : Tracks K (s.setLeaf e.1 e.2).trie (Function.update f e.1 (g e.1)) := by
      show Tracks K (Statetrie.update s.trie e.1.path e.2) _
      rw [hset e List.mem_cons_self]
      exact h.update hK (hl e List.mem_cons_self) (g e.1)
    rw [setLeaves_cons]
    refine ih hstep (fun e' he' => hl e' (List.mem_cons_of_mem e he'))
      (fun e' he' => hset e' (List.mem_cons_of_mem e he')) ?_
    intro k hk
    by_cases hke : k = e.1
    · rw [hke, Function.update_self]
    · rw [Function.update_of_ne hke]
      apply hother
      rw [List.map_cons, List.mem_cons, not_or]
      exact ⟨hke, hk⟩

theorem mirror_eq {A V : Type} (leaf : A → LeafKey) (bytes : Option V → Bytes)
    (l : List (A × Option V)) (s : State) :
    mirror leaf bytes l s =
      s.setLeaves (l.map fun e => (leaf e.1, leafValue (ofBytes (bytes e.2)))) := by
  unfold mirror setLeaves
  rw [List.foldl_map]
  congr 1
  funext s e
  exact trieSetLeaf_eq _ _ _

/-! ## §3 — the invariant -/

/-- The undo rows hold what the reverts can mirror: a registered key was absent before, and a seed is
never empty. -/
structure Rows (s : State) : Prop where
  key : ∀ (h : Nat) (a : Address) (o : Option Bytes), s.key.cs[(h, a)]? = some o → o = none
  seed : ∀ b, s.beacon.cur[()]? = some b → b ≠ []
  beacon : ∀ (h : Nat) (b : Bytes), s.beacon.cs[(h, ())]? = some (some b) → b ≠ []

/-- **`InStep K s`** — the stored node set is the one of the plain buckets. -/
structure InStep (K : Set LeafKey) (s : State) : Prop extends Rows s where
  tracks : Tracks K s.trie s.entry

/-- **`Follows K s s'`** — from `s` to `s'` no touched leaf is forgotten, and the commitment stays in step as
long as only leaves of `K` are touched. -/
def Follows (K : Set LeafKey) (s s' : State) : Prop :=
  s.touched ⊆ s'.touched ∧ (s'.touched ⊆ K → InStep K s → InStep K s')

theorem Follows.refl (s : State) : Follows K s s := ⟨subset_rfl, fun _ h => h⟩

theorem Follows.trans {s s' s'' : State} (h : Follows K s s') (h' : Follows K s' s'') :
    Follows K s s'' :=
  ⟨h.1.trans h'.1, fun hsub hs => h'.2 hsub (h.2 (h'.1.trans hsub) hs)⟩

theorem Follows.foldl {A : Type} {f : State → A → State} {l : List A}
    (h : ∀ s, ∀ a ∈ l, Follows K s (f s a)) (s : State) : Follows K s (l.foldl f s) := by
  induction l generalizing s with
  | nil => exact Follows.refl s
  | cons a l ih =>
    rw [List.foldl_cons]
    refine (h s a List.mem_cons_self).trans (ih ?_ (f s a))
    intro s b hb
    exact h s b (List.mem_cons_of_mem a hb)

/-- Buckets change as `l` lists, then the listed leaves follow. -/
theorem Follows.setLeaves (hK : Set.InjOn LeafKey.path K) {s s₁ : State} {l : List (LeafKey × Bytes32)}
    (htrie : s₁.trie = s.trie) (hlog : s₁.touched = s.touched) (hrows : Rows s → Rows s₁)
    (hset : Rows s → ∀ e ∈ l, e.2 = leafValue (s₁.entry e.1))
    (hother : ∀ k, k ∉ l.map Prod.fst → s₁.entry k = s.entry k) :
    Follows K s (s₁.setLeaves l) := by
  have htouched := touched_setLeaves l s₁
  rw [hlog] at htouched
  refine ⟨?_, ?_⟩
  · rw [htouched]
    exact Set.subset_union_left
  · intro hsub h
    rw [htouched, Set.union_subset_iff] at hsub
    have htracks : Tracks K s₁.trie s.entry := htrie ▸ h.tracks
    have hdone := htracks.setLeaves hK (fun e he => hsub.2 (List.mem_map_of_mem he))
      (hset h.toRows) hother
    rw [← entry_setLeaves l s₁] at hdone
    obtain ⟨trie, log, heq⟩ := setLeaves_eq l s₁
    refine ⟨?_, hdone⟩
    rw [heq]
    have hrows₁ := hrows h.toRows
    exact ⟨hrows₁.key, hrows₁.seed, hrows₁.beacon⟩

theorem Follows.trieSetLeaf (hK : Set.InjOn LeafKey.path K) {s s₁ : State} {k : LeafKey} {value : Bytes}
    (htrie : s₁.trie = s.trie) (hlog : s₁.touched = s.touched) (hrows : Rows s → Rows s₁)
    (hentry : s₁.entry = Function.update s.entry k (ofBytes value)) :
    Follows K s (s₁.trieSetLeaf k value) := by
  rw [trieSetLeaf_eq]
  refine Follows.setLeaves hK (l := [(k, leafValue (ofBytes value))]) htrie hlog hrows ?_ ?_
  · intro _ e he
    rw [List.mem_singleton.mp he, hentry, Function.update_self]
  · intro k' hk'
    rw [hentry, Function.update_of_ne]
    simpa using hk'

/-! ## §4 — one write -/

omit [Crypto] in
/-- The registry only moves references: no bucket a leaf reads changes. -/
theorem releaseCode_eq (codeHash : Bytes32) (keep : Bool) (s : State) :
    ∃ code, s.releaseCode codeHash keep = { s with code } := by
  unfold releaseCode
  split
  · exact ⟨s.code, rfl⟩
  · split
    · exact ⟨_, rfl⟩
    · exact ⟨_, rfl⟩

omit [Crypto] in
theorem retainCode_eq (codeHash : Bytes32) (source : Bytes) (s : State) :
    ∃ code, s.retainCode codeHash source = { s with code } := by
  unfold retainCode
  split
  · exact ⟨_, rfl⟩
  · exact ⟨_, rfl⟩

omit [Crypto] in
theorem releaseSlot_eq (rec : Recorder) (a : Address) (s : State) :
    ∃ code, s.releaseSlot rec a = { s with code } := by
  unfold releaseSlot
  split
  · exact ⟨s.code, rfl⟩
  · exact releaseCode_eq _ _ s

theorem reconcileCode_eq (rec : Recorder) (account : Contract) (s : State) :
    ∃ code, s.reconcileCode rec account = { s with code } := by
  unfold reconcileCode
  dsimp only
  split
  · exact retainCode_eq _ _ s
  · split
    · exact ⟨s.code, rfl⟩
    · next old _ _ =>
      obtain ⟨code, h⟩ := releaseCode_eq old.codeHash rec.isSome s
      obtain ⟨code', h'⟩ := retainCode_eq (hash256 account.source) account.source { s with code }
      exact ⟨code', by rw [h, h']⟩

theorem follows_setBalance (hK : Set.InjOn LeafKey.path K) (rec : Recorder) (a : Address) (v : Int)
    (s : State) : Follows K s (s.setBalance rec a v) := by
  have hbytes : (if v = 0 then [] else beBytes v.natAbs) = balanceBytes (some v.natAbs) := by
    unfold balanceBytes
    simp
  unfold setBalance
  rw [hbytes]
  refine Follows.trieSetLeaf hK ?_ ?_ ?_ ?_
  · rfl
  · ext k
    simp [touched]
  · exact fun h => ⟨h.key, h.seed, h.beacon⟩
  funext k
  cases k with
  | balance a' =>
    by_cases haa : a' = a
    · subst haa
      simp [entry]
    · rw [Function.update_of_ne (by simpa using haa)]
      simp [entry, Ne.symm haa]
  | key a' | contract a' | commit h' a' | beacon =>
    rw [Function.update_of_ne (by simp)]
    rfl

theorem follows_setContract (hK : Set.InjOn LeafKey.path K) (rec : Recorder) (account : Contract)
    (s : State) : Follows K s (s.setContract rec account) := by
  obtain ⟨code, hcode⟩ := reconcileCode_eq rec account s
  unfold setContract
  simp only [hcode]
  refine Follows.trieSetLeaf hK ?_ ?_ ?_ ?_
  · rfl
  · ext k
    simp [touched]
  · exact fun h => ⟨h.key, h.seed, h.beacon⟩
  rw [ofBytes_of_ne_nil (StoredContract.raw_ne_nil _)]
  funext k
  cases k with
  | contract a =>
    by_cases haa : a = account.owner
    · subst haa
      simp [entry]
    · rw [Function.update_of_ne (by simpa using haa)]
      simp [entry, Ne.symm haa]
  | balance a | key a | commit h' a | beacon =>
    rw [Function.update_of_ne (by simp)]
    rfl

theorem follows_delContract (hK : Set.InjOn LeafKey.path K) (rec : Recorder) (a : Address) (s : State) :
    Follows K s (s.delContract rec a) := by
  obtain ⟨code, hcode⟩ := releaseSlot_eq rec a s
  unfold delContract
  simp only [hcode]
  refine Follows.trieSetLeaf hK ?_ ?_ ?_ ?_
  · rfl
  · ext k
    simp [touched]
  · exact fun h => ⟨h.key, h.seed, h.beacon⟩
  funext k
  cases k with
  | contract a' =>
    by_cases haa : a' = a
    · subst haa
      simp [entry, ofBytes]
    · rw [Function.update_of_ne (by simpa using haa)]
      simp [entry, Ne.symm haa]
  | balance a' | key a' | commit h' a' | beacon =>
    rw [Function.update_of_ne (by simp)]
    rfl

/-- `registerPubKey` follows its leaf: the first key of an address, never an empty entry. -/
theorem follows_registerPubKey (hK : Set.InjOn LeafKey.path K) (rec : Recorder) (a : Address)
    {entry : Bytes} (hne : entry ≠ []) (s : State) : Follows K s (s.registerPubKey rec a entry) := by
  unfold registerPubKey
  split
  · exact Follows.refl s
  · refine Follows.trieSetLeaf hK ?_ ?_ ?_ ?_
    · rfl
    · rfl
    · intro h
      refine ⟨?_, h.seed, h.beacon⟩
      intro h' a' o ho
      cases rec with
      | none => exact h.key h' a' o ho
      | some height =>
        dsimp only [Versioned.record] at ho
        split at ho
        · exact h.key h' a' o ho
        · rw [Bucket.get_insert] at ho
          split at ho
          · exact (Option.some.inj ho).symm
          · exact h.key h' a' o ho
    · rw [ofBytes_of_ne_nil hne]
      funext k
      cases k with
      | key a' =>
        by_cases haa : a' = a
        · subst haa
          simp [State.entry]
        · rw [Function.update_of_ne (by simpa using haa)]
          simp [State.entry, Ne.symm haa]
      | balance a' | contract a' | commit h' a' | beacon =>
        rw [Function.update_of_ne (by simp)]
        rfl

theorem follows_setBeacon (hK : Set.InjOn LeafKey.path K) (rec : Recorder) {seed : Bytes}
    (hne : seed ≠ []) (s : State) : Follows K s (s.setBeacon rec seed) := by
  refine Follows.trieSetLeaf hK ?_ ?_ ?_ ?_
  · rfl
  · rfl
  · intro h
    refine ⟨h.key, ?_, ?_⟩
    · intro b hb
      rw [Versioned.cur_write, if_pos rfl] at hb
      exact Option.some.inj hb ▸ hne
    · intro h' b hb
      cases rec with
      | none => exact h.beacon h' b hb
      | some height =>
        rw [Versioned.cs_write] at hb
        split at hb
        · exact h.seed b (Option.some.inj hb)
        · exact h.beacon h' b hb
  · rw [ofBytes_of_ne_nil hne]
    funext k
    cases k with
    | beacon => simp [State.entry]
    | balance a' | key a' | contract a' | commit h' a' =>
      rw [Function.update_of_ne (by simp)]
      rfl

/-! ### the commit store -/

/-- Replacing one record of the commit store follows its leaf. -/
theorem follows_commit (hK : Set.InjOn LeafKey.path K) (height : Nat) (hash : Bytes32)
    (o : Option Address) (s : State) :
    Follows K s (State.trieSetLeaf (.commit height hash) (o.elim [] Subtype.val)
      { s with commit := Bucket.set s.commit (height, hash) o }) := by
  refine Follows.trieSetLeaf hK ?_ ?_ ?_ ?_
  · rfl
  · rfl
  · exact fun h => ⟨h.key, h.seed, h.beacon⟩
  · have hvalue : ofBytes (o.elim [] Subtype.val) = o.map Subtype.val := by
      cases o with
      | none => rfl
      | some a => exact ofBytes_val a
    rw [hvalue]
    funext k
    cases k with
    | commit h' hash' =>
      by_cases hk : h' = height ∧ hash' = hash
      · obtain ⟨rfl, rfl⟩ := hk
        simp [State.entry]
      · rw [Function.update_of_ne (by simpa using hk)]
        have hne : ¬(height = h' ∧ hash = hash') := fun hc => hk ⟨hc.1.symm, hc.2.symm⟩
        simp [State.entry, hne]
    | balance a' | key a' | contract a' | beacon =>
      rw [Function.update_of_ne (by simp)]
      rfl

theorem follows_putCommit (hK : Set.InjOn LeafKey.path K) (height : Nat) (hash : Bytes32)
    (fromAddr : Address) (s : State) : Follows K s (s.putCommit height hash fromAddr) :=
  follows_commit hK height hash (some fromAddr) s

theorem follows_consumeCommit (hK : Set.InjOn LeafKey.path K) (height : Nat) (hash : Bytes32)
    (s : State) : Follows K s (s.consumeCommit height hash) :=
  follows_commit hK height hash none s

theorem follows_dropCommits (hK : Set.InjOn LeafKey.path K) (p : Nat → Bool) (s : State) :
    Follows K s (s.dropCommits p) :=
  Follows.foldl (fun s e _ => follows_consumeCommit hK e.1.1 e.1.2 s) s

theorem Follows.frame {s s' : State} (htrie : s'.trie = s.trie) (hlog : s'.touched = s.touched)
    (hentry : s'.entry = s.entry) (hrows : Rows s → Rows s') : Follows K s s' := by
  refine ⟨hlog.symm.subset, ?_⟩
  intro _ h
  refine ⟨hrows h.toRows, ?_⟩
  rw [htrie, hentry]
  exact h.tracks

theorem follows_spent (b : Bucket (Nat × Bytes32) (Nat × Address)) (s : State) :
    Follows K s { s with spent := b } :=
  Follows.frame rfl rfl rfl fun h => ⟨h.key, h.seed, h.beacon⟩

theorem follows_applied (l : List FullBlock) (s : State) : Follows K s { s with applied := l } :=
  Follows.frame rfl rfl rfl fun h => ⟨h.key, h.seed, h.beacon⟩

theorem follows_pruneCommits (hK : Set.InjOn LeafKey.path K) (tip : Nat) (s : State) :
    Follows K s (s.pruneCommits tip) := by
  unfold pruneCommits
  split
  · exact Follows.refl s
  · exact (follows_dropCommits hK _ s).trans (follows_spent _ _)

theorem follows_restoreConsumed (hK : Set.InjOn LeafKey.path K) (h : Nat) (s : State) :
    Follows K s (s.restoreConsumedAtHeight h) :=
  Follows.foldl (fun s e _ => (follows_putCommit hK e.2.1 e.1.2 e.2.2 s).trans (follows_spent _ _)) s

end Commitment

end State

section Runs

variable {K : Set LeafKey}

/-- **Every write follows its leaf.** -/
theorem Write.follows_step [Crypto] (hK : Set.InjOn LeafKey.path K) (w : Write) (s : State) :
    State.Follows K s (w.step s) := by
  cases w with
  | setBalance rec a v => exact State.follows_setBalance hK rec a v s
  | setContract rec account => exact State.follows_setContract hK rec account s
  | delContract rec a => exact State.follows_delContract hK rec a s
  | registerPubKey rec a scheme pubKey =>
    exact State.follows_registerPubKey hK rec a (List.cons_ne_nil scheme pubKey) s
  | setBeacon rec seed =>
    apply State.follows_setBeacon hK rec
    intro hnil
    have := seed.property
    rw [hnil] at this
    simp at this
  | putCommit height hash fromAddr => exact State.follows_putCommit hK height hash fromAddr s
  | consumeCommit height hash => exact State.follows_consumeCommit hK height hash s
  | journalConsumed rh h hash fromAddr => exact State.follows_spent _ s
  | pruneCommits tip => exact State.follows_pruneCommits hK tip s
  | notes l =>
    refine ⟨?_, fun _ h => ⟨⟨h.key, h.seed, h.beacon⟩, h.tracks⟩⟩
    intro k hk
    exact List.mem_append_right (l.map Note.run) hk
  | apply block => exact State.follows_applied _ s

namespace State

theorem follows_exec [Crypto] (hK : Set.InjOn LeafKey.path K) {α : Type} {p : StateTxn α} {s s' : State}
    {a : α} (h : p.exec s = .ok (a, s')) : Follows K s s' :=
  Lib.Txn.run_preserves (I := fun t => Follows K s t) (fun _ _ => trivial)
    (fun w t _ ht => ht.trans (w.follows_step hK t)) p.writes_any h (Follows.refl s)

/-! ## §5 — undoing a height -/

/-- Restored values are mirrored: the rows of the height decide, every other entry stays. -/
theorem follows_mirror [Crypto] (hK : Set.InjOn LeafKey.path K) {A V : Type} {leaf : A → LeafKey}
    {bytes : Option V → Bytes} {l : List (A × Option V)} {s s₁ : State}
    (htrie : s₁.trie = s.trie) (hlog : s₁.touched = s.touched) (hrows : Rows s → Rows s₁)
    (hset : Rows s → ∀ e ∈ l, s₁.entry (leaf e.1) = ofBytes (bytes e.2))
    (hother : ∀ k, (∀ e ∈ l, leaf e.1 ≠ k) → s₁.entry k = s.entry k) :
    Follows K s (mirror leaf bytes l s₁) := by
  rw [mirror_eq]
  refine Follows.setLeaves hK htrie hlog hrows ?_ ?_
  · intro hs e he
    obtain ⟨e', he', rfl⟩ := List.mem_map.mp he
    rw [hset hs e' he']
  · intro k hk
    apply hother
    intro e he hek
    apply hk
    rw [List.map_map]
    exact List.mem_map.mpr ⟨e, he, hek⟩

section Undo

variable [Crypto] (hK : Set.InjOn LeafKey.path K) (h : Nat) (s : State)
include hK

theorem follows_revertBalances : Follows K s (s.revertBalances h) := by
  refine follows_mirror hK ?_ ?_ ?_ ?_ ?_
  · rfl
  · rfl
  · exact fun hs => ⟨hs.key, hs.seed, hs.beacon⟩
  · intro _ e he
    simp only [entry, Versioned.cur_revert_of_mem he]
  · intro k hk
    cases k with
    | balance a =>
      have hcur : (s.bal.revert true h).cur[a]? = s.bal.cur[a]? :=
        Versioned.cur_revert_of_not_mem fun e he hea => hk e he (congrArg LeafKey.balance hea)
      simp only [entry, hcur]
    | key a | contract a | commit h' a | beacon => rfl

theorem follows_revertContracts : Follows K s (s.revertContracts h) := by
  refine follows_mirror hK ?_ ?_ ?_ ?_ ?_
  · rfl
  · rfl
  · exact fun hs => ⟨hs.key, hs.seed, hs.beacon⟩
  · intro _ e he
    simp only [entry, Versioned.cur_revert_of_mem he]
    cases e.2 with
    | none => rfl
    | some sc => exact (ofBytes_of_ne_nil sc.raw_ne_nil).symm
  · intro k hk
    cases k with
    | contract a =>
      have hcur : (s.contract.revert true h).cur[a]? = s.contract.cur[a]? :=
        Versioned.cur_revert_of_not_mem fun e he hea => hk e he (congrArg LeafKey.contract hea)
      simp only [entry, hcur]
    | balance a | key a | commit h' a | beacon => rfl

theorem follows_revertKeys : Follows K s (s.revertKeys h) := by
  refine follows_mirror hK ?_ ?_ ?_ ?_ ?_
  · rfl
  · rfl
  · exact fun hs => ⟨fun h' a o ho => hs.key h' a o (Versioned.cs_of_cs_revert ho), hs.seed, hs.beacon⟩
  · intro hs e he
    -- a row of the registry is always "absent before"
    have hnone := hs.key h e.1 e.2 (Versioned.mem_entriesAt.mp he)
    simp only [entry, Versioned.cur_revert_of_mem he]
    rw [hnone]
    rfl
  · intro k hk
    cases k with
    | key a =>
      have hcur : (s.key.revert false h).cur[a]? = s.key.cur[a]? :=
        Versioned.cur_revert_of_not_mem fun e he hea => hk e he (congrArg LeafKey.key hea)
      simp only [entry, hcur]
    | balance a | contract a | commit h' a | beacon => rfl

theorem follows_revertBeacon : Follows K s (s.revertBeacon h) := by
  refine follows_mirror hK ?_ ?_ ?_ ?_ ?_
  · rfl
  · rfl
  · intro hs
    refine ⟨hs.key, ?_, fun h' b hb => hs.beacon h' b (Versioned.cs_of_cs_revert hb)⟩
    intro b hb
    rw [Versioned.cur_revert] at hb
    cases hrow : s.beacon.cs[(h, ())]? with
    | none => exact hs.seed b (by rwa [hrow] at hb)
    | some o =>
      rw [hrow] at hb
      exact hs.beacon h b (by rw [hrow]; exact congrArg some hb)
  · intro hs e he
    simp only [entry]
    rw [Versioned.cur_revert_of_mem he]
    cases hb : e.2 with
    | none => rfl
    | some b =>
      refine (ofBytes_of_ne_nil (hs.beacon h b ?_)).symm
      rw [Versioned.mem_entriesAt.mp he, hb]
  · intro k hk
    cases k with
    | beacon =>
      have hcur : (s.beacon.revert false h).cur[()]? = s.beacon.cur[()]? :=
        Versioned.cur_revert_of_not_mem fun e he _ => hk e he rfl
      simp only [entry, hcur]
    | balance a | key a | contract a | commit h' a => rfl

/-- **One height undone.** -/
theorem follows_unwindHeight : Follows K s (s.unwindHeight h) := by
  refine ((follows_revertBalances hK h s).trans (follows_revertContracts hK h _)).trans ?_
  refine (follows_revertKeys hK h _).trans ?_
  refine (follows_dropCommits hK (fun h' => h' = h) _).trans ?_
  refine (follows_restoreConsumed hK h _).trans ?_
  exact (follows_revertBeacon hK h _).trans (follows_applied _ _)

end Undo

/-! ## §6 — the commitment from scratch -/

section Scratch

variable [Crypto]

omit [Crypto] in
theorem entry_balance {s : State} {a : Address} {n : Nat} (h : s.bal.cur[a]? = some n) (hn : n ≠ 0) :
    s.entry (.balance a) = some (beBytes n) := by
  have hbytes : balanceBytes (some n) = beBytes n := if_neg hn
  rw [entry, h, hbytes]
  exact ofBytes_of_ne_nil (Lib.Rlp.beBytes_ne_nil hn)

omit [Crypto] in
theorem balance_of_entry {s : State} {a : Address} {b : Bytes} (h : s.entry (.balance a) = some b) :
    ∃ n, s.bal.cur[a]? = some n ∧ n ≠ 0 ∧ b = beBytes n := by
  cases hn : s.bal.cur[a]? with
  | none =>
    rw [entry, hn] at h
    cases h
  | some n =>
    by_cases hz : n = 0
    · rw [entry, hn, hz] at h
      cases h
    · rw [entry_balance hn hz] at h
      exact ⟨n, rfl, hz, (Option.some.inj h).symm⟩

theorem mem_leaves {s : State} {k : LeafKey} {vh : Bytes32} :
    (k, vh) ∈ s.leaves ↔ ∃ b, s.entry k = some b ∧ vh = Statetrie.valueHash b := by
  constructor
  · intro h
    simp only [leaves, List.mem_append, List.mem_map] at h
    rcases h with (((⟨e, he, heq⟩ | ⟨e, he, heq⟩) | ⟨e, he, heq⟩) | ⟨e, he, heq⟩) | ⟨seed, he, heq⟩
    all_goals obtain ⟨rfl, rfl⟩ := Prod.mk.inj heq
    · obtain ⟨hmem, hne⟩ := List.mem_filter.mp he
      exact ⟨_, entry_balance ((Bucket.mem_toList_iff _ _ _).mp hmem) (by simpa using hne), rfl⟩
    · exact ⟨e.2, (Bucket.mem_toList_iff _ _ _).mp he, rfl⟩
    · exact ⟨_, congrArg (Option.map _) ((Bucket.mem_toList_iff _ _ _).mp he), rfl⟩
    · exact ⟨_, congrArg (Option.map _) ((Bucket.mem_toList_iff _ _ _).mp he), rfl⟩
    · exact ⟨seed, Option.mem_toList.mp he, rfl⟩
  · rintro ⟨b, hb, rfl⟩
    simp only [leaves, List.mem_append, List.mem_map]
    cases k with
    | balance a =>
      obtain ⟨n, hn, hne, rfl⟩ := balance_of_entry hb
      refine .inl (.inl (.inl (.inl ⟨(a, n), List.mem_filter.mpr ⟨?_, by simpa using hne⟩, rfl⟩)))
      exact (Bucket.mem_toList_iff _ _ _).mpr hn
    | key a =>
      exact .inl (.inl (.inl (.inr ⟨(a, b), (Bucket.mem_toList_iff _ _ _).mpr hb, rfl⟩)))
    | contract a =>
      obtain ⟨sc, hsc, rfl⟩ := Option.map_eq_some_iff.mp hb
      exact .inl (.inl (.inr ⟨(a, sc), (Bucket.mem_toList_iff _ _ _).mpr hsc, rfl⟩))
    | commit height hash =>
      obtain ⟨c, hc, rfl⟩ := Option.map_eq_some_iff.mp hb
      exact .inl (.inr ⟨((height, hash), c), (Bucket.mem_toList_iff _ _ _).mpr hc, rfl⟩)
    | beacon => exact .inr ⟨b, Option.mem_toList.mpr hb, rfl⟩

theorem mem_map_leaves {s : State} {k : LeafKey} : k ∈ s.leaves.map Prod.fst ↔ s.entry k ≠ none := by
  rw [List.mem_map, Option.ne_none_iff_exists']
  constructor
  · rintro ⟨⟨k', vh⟩, hmem, rfl⟩
    obtain ⟨b, hb, -⟩ := mem_leaves.mp hmem
    exact ⟨b, hb⟩
  · rintro ⟨b, hb⟩
    exact ⟨(k, Statetrie.valueHash b), mem_leaves.mpr ⟨b, hb, rfl⟩, rfl⟩

theorem rebuildTrie_eq (s : State) : s.rebuildTrie = State.setLeaves s.leaves { s with trie := ∅ } := rfl

/-- A rebuild changes nothing but the commitment and the notes. -/
theorem exists_rebuildTrie_eq (s : State) : ∃ trie log, s.rebuildTrie = { s with trie, log } := by
  rw [rebuildTrie_eq]
  exact setLeaves_eq s.leaves { s with trie := ∅ }

/-- **A rebuilt commitment is in step**, whatever stood there before. -/
theorem inStep_rebuildTrie (hK : Set.InjOn LeafKey.path K) {s : State} (hrows : Rows s)
    (hlive : ∀ k, s.entry k ≠ none → k ∈ K) : InStep K s.rebuildTrie := by
  have hdone : Tracks K s.rebuildTrie.trie s.entry := by
    rw [rebuildTrie_eq]
    refine Tracks.setLeaves hK (f := fun _ => none) Tracks.empty ?_ ?_ ?_
    · intro e he
      exact hlive e.1 (mem_map_leaves.mp (List.mem_map_of_mem he))
    · intro e he
      obtain ⟨b, hb, hvh⟩ := mem_leaves.mp he
      rw [hb, hvh]
      rfl
    · intro k hk
      exact not_not.mp fun hne => hk (mem_map_leaves.mpr hne)
  obtain ⟨trie, log, heq⟩ := exists_rebuildTrie_eq s
  rw [heq] at hdone ⊢
  exact ⟨⟨hrows.key, hrows.seed, hrows.beacon⟩, hdone⟩

theorem touched_rebuildTrie (s : State) :
    s.rebuildTrie.touched = s.touched ∪ {k | s.entry k ≠ none} := by
  rw [rebuildTrie_eq, touched_setLeaves]
  ext k
  simp only [Set.mem_union, Set.mem_ofPred_eq, mem_map_leaves]
  rfl

end Scratch

/-! ## §7 — arbitrary sequences of the bulk operations -/

theorem rows_empty : Rows State.empty := by
  refine ⟨fun h a o ho => ?_, fun b hb => ?_, fun h b hb => ?_⟩ <;>
    simp [State.empty, Versioned.empty] at *

theorem entry_empty : State.empty.entry = fun _ => none := by
  funext k
  cases k <;> simp [State.entry, State.empty, Versioned.empty, balanceBytes, ofBytes]

section Sheets

variable [Crypto]

theorem inStep_empty : InStep K State.empty := ⟨rows_empty, by rw [entry_empty]; exact Tracks.empty⟩

/-- Seeding contracts only adds to the trail and leaves the undo rows alone. -/
theorem rows_setContract {s : State} (rec : Recorder) (account : Contract) (h : Rows s) :
    Rows (s.setContract rec account) := by
  obtain ⟨code, hcode⟩ := reconcileCode_eq rec account s
  unfold setContract
  simp only [hcode]
  exact ⟨h.key, h.seed, h.beacon⟩

theorem rows_initFromSheet (sheet : Sheet) {s : State} (h : Rows s) : Rows (s.initFromSheet sheet) := by
  have hfold : Rows (sheet.contracts.foldl (fun s account => s.setContract none account) s) := by
    induction sheet.contracts generalizing s with
    | nil => exact h
    | cons account l ih => exact ih (rows_setContract none account h)
  refine ⟨hfold.key, ?_, hfold.beacon⟩
  intro b hb
  dsimp only [initFromSheet] at hb
  split at hb
  · exact hfold.seed b hb
  · next hne =>
    rw [Bucket.get_insert, if_pos rfl] at hb
    exact Option.some.inj hb ▸ hne

theorem touched_initFromSheet (hK : Set.InjOn LeafKey.path K) (sheet : Sheet) (s : State) :
    s.touched ⊆ (s.initFromSheet sheet).touched :=
  (Follows.foldl (fun s account _ => follows_setContract hK none account s) s :
    Follows K s (sheet.contracts.foldl (fun s account => s.setContract none account) s)).1

/-- **A sheet puts the state in step**, whatever stood there before. -/
theorem follows_rebuildFromSheet (hK : Set.InjOn LeafKey.path K) (sheet : Sheet) (s : State) :
    Follows K s (s.rebuildFromSheet sheet) := by
  have htouched := touched_rebuildTrie (s.resetBuckets.initFromSheet sheet)
  constructor
  · refine subset_trans (touched_initFromSheet hK sheet s.resetBuckets) ?_
    unfold rebuildFromSheet
    rw [htouched]
    exact Set.subset_union_left
  · intro hsub _
    unfold rebuildFromSheet at hsub ⊢
    rw [htouched, Set.union_subset_iff] at hsub
    apply inStep_rebuildTrie hK
    · apply rows_initFromSheet
      exact ⟨rows_empty.key, rows_empty.seed, rows_empty.beacon⟩
    · intro k hk
      exact hsub.2 hk

end Sheets

section Blocks

variable [Engine]

theorem follows_applyBlocks (hK : Set.InjOn LeafKey.path K) {cfg : Config} {blocks : List FullBlock}
    {s s' : State} (h : applyBlocks cfg blocks s = .ok s') : Follows K s s' := by
  unfold applyBlocks at h
  induction blocks generalizing s with
  | nil =>
    cases h
    exact Follows.refl _
  | cons b blocks ih =>
    rw [List.foldlM_cons, bind_eq_ok] at h
    obtain ⟨t, hb, h⟩ := h
    obtain ⟨_, _, _, hrun, _⟩ := applyChecked_eq_ok hb
    exact (follows_exec hK hrun).trans (ih h)

end Blocks

end State
end Runs
end NgCore
