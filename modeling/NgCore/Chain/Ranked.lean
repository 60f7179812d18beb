/-
# NgCore.Chain.Ranked — heights fall, so walks end

`cumulativeWork`, `collectBranch` and the ancestor walk of the uncle rules follow parent hashes through the block
store until something stops them. What stops them is the height: every stored block but the origin was checked
against its parent and stands exactly one above it (`Ranked`), on every reachable chain (`Node.Reachable.ranked`).
A walk therefore never meets a block twice, and ends before it has passed every stored block
(`Climbs.le_size`). The parent may be pruned while the child is kept, so `Ranked` speaks of the parent's HEADER.
-/
import NgCore.State.Returns
import NgCore.Chain.Paths

namespace NgCore

open Lib (Bucket)

/-! ## §1 — ranked stores -/

namespace BlockStore

variable [Crypto] {H : Set BlockHeader} {s s' : BlockStore} {tip : FullBlock}

/-- **`Stands H b`** — a header of `H` is the parent the block names, one below it. -/
def Stands (H : Set BlockHeader) (b : FullBlock) : Prop :=
  ∃ x ∈ H, x.key = b.getPrevHash ∧ b.getHeight = x.height + 1

/-- **`Ranked H s`** — every stored block but the origin stands on a header of `H`. -/
def Ranked (H : Set BlockHeader) (s : BlockStore) : Prop :=
  ∀ (h : Bytes) (b : FullBlock), s.blocks[h]? = some b → h = s.originHash ∨ Stands H b

theorem stands_of_follows {p b : FullBlock} (hp : p.header ∈ H) (h : Follows p b) : Stands H b :=
  ⟨p.header, hp, h.2.symm, h.1⟩

/-- Storing blocks that stand on known headers, and dropping blocks, keeps a store ranked. -/
theorem Ranked.restore (hr : Ranked H s) (horigin : s'.originHash = s.originHash)
    (h : ∀ (hash : Bytes) (b : FullBlock), s'.blocks[hash]? = some b → s.blocks[hash]? = some b ∨ Stands H b) :
    Ranked H s' := by
  intro hash b hb
  rcases h hash b hb with hold | hnew
  · exact horigin ▸ hr hash b hold
  · exact .inr hnew

theorem Ranked.reindexed (hr : Ranked H s) (hre : Reindexed s s') : Ranked H s' := by
  rcases hre with ⟨_, _, _, _, rfl⟩
  exact hr

/-! ## §2 — the walks end -/

/-- **`Climbs s k cur`** — `k` parents one after the other are stored, and none of the blocks left is the origin. -/
def Climbs (s : BlockStore) : Nat → FullBlock → Prop
  | 0, _ => True
  | k + 1, cur => cur.getHash.val ≠ s.originHash ∧ ∃ p, s.blocks[cur.getPrevHash]? = some p ∧ s.Climbs k p

/-- The walk of `cumulativeWork` gives up only where there is that much to climb. -/
theorem climbs_of_pendingWork {fuel : Nat} {cur : FullBlock} {pending : List FullBlock}
    (h : s.pendingWork fuel cur pending = .error .panic) : s.Climbs fuel cur := by
  induction fuel generalizing cur pending with
  | zero => trivial
  | succ fuel ih =>
    rw [pendingWork] at h
    split at h
    · cases h
    · split at h
      · cases h
      · next hne =>
        refine ⟨hne, ?_⟩
        cases hp : s.blocks[cur.getPrevHash]? with
        | none =>
          rw [getBlockByHash, hp] at h
          cases h
        | some p =>
          rw [getBlockByHash, hp] at h
          exact ⟨p, rfl, ih h⟩

/-- So does the walk of `collectBranch`, which does not leave a canonical block. -/
theorem climbs_of_branchWalk (hs : Spine H s tip) {fuel : Nat} {cur : FullBlock} {branch : List FullBlock}
    (hcur : s.blocks[cur.getHash.val]? = some cur) (h : s.branchWalk fuel cur branch = .error .panic) :
    s.Climbs fuel cur := by
  induction fuel generalizing cur branch with
  | zero => trivial
  | succ fuel ih =>
    rw [branchWalk] at h
    split at h
    · cases h
    · next hside =>
      have habove := hs.above_origin hcur (Bool.not_eq_true _ ▸ hside)
      refine ⟨fun horigin => ?_, ?_⟩
      · have := hs.origin_height (horigin ▸ hcur)
        omega
      · split at h
        · simp only [ensure] at h
          split at h <;> cases h
        · cases hp : s.blocks[cur.getPrevHash]? with
          | none =>
            rw [getBlockByHash, hp] at h
            cases h
          | some p =>
            rw [getBlockByHash, hp] at h
            exact ⟨p, rfl, ih (hs.keyed _ _ hp ▸ hp) h⟩

theorem isCanonical_of_collectBranch {b : FullBlock} (h : s.collectBranch b = .ok []) : s.isCanonical b = true := by
  unfold collectBranch at h
  rw [branchWalk] at h
  split at h
  · next hcanonical => exact hcanonical
  · split at h
    · rcases bind_eq_ok.mp h with ⟨_, _, h⟩
      cases pure_eq_ok.mp h
    · rcases bind_eq_ok.mp h with ⟨p, _, h⟩
      have hlast : ([] : List FullBlock).getLast? = some b := branchWalk_getLast h rfl
      cases hlast

section Distinct

variable (hinj : Set.InjOn BlockHeader.getHash H)
include hinj

/-- In a ranked store heights fall by one from child to parent. -/
theorem Ranked.parent (hr : Ranked H s) (hs : Spine H s tip) {hash : Bytes} {b p : FullBlock}
    (hb : s.blocks[hash]? = some b) (hne : hash ≠ s.originHash) (hp : s.blocks[b.getPrevHash]? = some p) :
    b.getHeight = p.getHeight + 1 := by
  rcases (hr hash b hb).resolve_left hne with ⟨x, hx, hkey, hheight⟩
  have hsame : x.key = p.header.key := hkey.trans (hs.keyed _ _ hp).symm
  rw [hheight, BlockHeader.injOn_key hinj hx (hs.headers _ _ hp) hsame]
  rfl

theorem Climbs.exists_list (hr : Ranked H s) (hs : Spine H s tip) {k : Nat} {cur : FullBlock}
    (hcur : s.blocks[cur.getHash.val]? = some cur) (h : s.Climbs k cur) :
    ∃ l : List FullBlock, l.length = k ∧ l.Pairwise (fun a b => b.getHeight < a.getHeight) ∧
      ∀ b ∈ l, b.getHeight ≤ cur.getHeight ∧ s.blocks[b.getHash.val]? = some b := by
  induction k generalizing cur with
  | zero => exact ⟨[], rfl, List.Pairwise.nil, nofun⟩
  | succ k ih =>
    rcases h with ⟨hne, p, hp, hclimb⟩
    have hheight := hr.parent hinj hs hcur hne hp
    rcases ih (hs.keyed _ _ hp ▸ hp) hclimb with ⟨l, hlen, hpair, hall⟩
    refine ⟨cur :: l, by rw [List.length_cons, hlen], List.pairwise_cons.mpr ⟨fun b hb => ?_, hpair⟩, ?_⟩
    · have := (hall b hb).1
      omega
    · refine List.forall_mem_cons.mpr ⟨⟨le_rfl, hcur⟩, fun b hb => ⟨?_, (hall b hb).2⟩⟩
      have := (hall b hb).1
      omega

/-- **No climb is longer than the store is large.** -/
theorem Climbs.le_size (hr : Ranked H s) (hs : Spine H s tip) {k : Nat} {cur : FullBlock}
    (hcur : s.blocks[cur.getHash.val]? = some cur) (h : s.Climbs k cur) : k ≤ s.blocks.size := by
  rcases h.exists_list hinj hr hs hcur with ⟨l, hlen, hpair, hall⟩
  have hle := Bucket.length_le_size (b := s.blocks) (l := l.map fun b => b.getHash.val) ?_ ?_
  · rwa [List.length_map, hlen] at hle
  · rw [List.Nodup, List.pairwise_map]
    refine hpair.imp_of_mem fun {a b} ha hb hlt heq => ?_
    -- one key holds one body, hence one height
    have hbody := (hall a ha).2
    rw [heq, (hall b hb).2] at hbody
    cases hbody
    omega
  · intro key hkey
    rcases List.mem_map.mp hkey with ⟨b, hb, rfl⟩
    rw [(hall b hb).2]
    rfl

/-- **The work of a stored block is always answered.** -/
theorem returns_cumulativeWork (hr : Ranked H s) (hs : Spine H s tip) {b : FullBlock}
    (hb : s.blocks[b.getHash.val]? = some b) : Returns (s.cumulativeWork b) := by
  refine returns_bind (fun hpanic => ?_) fun _ _ => returns_pure _
  have := (climbs_of_pendingWork hpanic).le_size hinj hr hs hb
  omega

/-- **The branch of a stored block is always answered.** -/
theorem returns_collectBranch (hr : Ranked H s) (hs : Spine H s tip) {b : FullBlock}
    (hb : s.blocks[b.getHash.val]? = some b) : Returns (s.collectBranch b) := by
  intro hpanic
  have := (climbs_of_branchWalk hs hb hpanic).le_size hinj hr hs hb
  omega

/-- **The ancestor walk of the uncle rules ends**: above the origin's height the heights fall. -/
theorem returns_uncleAncestors (hr : Ranked H s) (hs : Spine H s tip) (hzero : s.originHeight = 0) {lowest fuel : Nat}
    {cur : FullBlock} {anc : Bucket Nat FullBlock} {refd : List Bytes32}
    (hcur : s.blocks[cur.getHash.val]? = some cur) (hfuel : cur.getHeight < fuel) :
    Returns (uncleAncestors s.getBlockByHash lowest fuel cur anc refd) := by
  induction fuel generalizing cur anc refd with
  | zero => omega
  | succ fuel ih =>
    rw [uncleAncestors]
    split
    · next hlt =>
      cases hp : s.blocks[cur.getPrevHash]? with
      | none =>
        rw [getBlockByHash, hp]
        exact nofun
      | some p =>
        rw [getBlockByHash, hp]
        have hne : cur.getHash.val ≠ s.originHash := by
          intro horigin
          have := hs.origin_height (horigin ▸ hcur)
          omega
        have hheight := hr.parent hinj hs hcur hne hp
        exact ih (hs.keyed _ _ hp ▸ hp) (by omega)
    · exact returns_ok _

end Distinct
end BlockStore

/-! ## §3 — reachable stores are ranked -/

section Reach

variable [Engine] {cfg : Config} {H : Set BlockHeader} {n n' : Node State} {block : FullBlock}

open BlockStore (Sound Tallied Ranked Stands stands_of_follows)

namespace Node

section Generic

omit [Engine]

variable [Crypto] {S : Type} {L : Ledger S} {now : Nat} {m m' : Node S} {tip : FullBlock} {origin : BlockHeader}
  {branch : List FullBlock} (hinj : Set.InjOn BlockHeader.getHash H)
include hinj

theorem extendTip_ranked (hs : Sound H m.store tip) (hr : Ranked H m.store)
    (horigin : m'.store.originHash = m.store.originHash) (hb : block.header ∈ H)
    (hprev : block.getPrevHash = m.store.latestHash) (hok : extendTip L now block m = .ok m') :
    Ranked H m'.store := by
  have hfollows := (extendTip_sound hinj hs hb hprev hok).1
  refine hr.restore horigin fun hash b hbody => ?_
  rcases extendTip_blocks hok hbody with rfl | hold
  · exact .inr (stands_of_follows (hs.headers _ _ hs.tipBody) hfollows)
  · exact .inl hold

theorem importSide_ranked (hs : Sound H m.store tip) (hr : Ranked H m.store)
    (horigin : m'.store.originHash = m.store.originHash) (hb : block.header ∈ H)
    (hok : importSide L now block m = .ok m') : Ranked H m'.store := by
  rcases importSide_eq_ok hok with ⟨prev, blockWork, tip', tipWork, store, hw, hcase⟩
  rcases bind_eq_ok.mp hw.checked with ⟨_, _, hcheck⟩
  rcases bind_eq_ok.mp hcheck with ⟨_, hfollows, _⟩
  have hstands := stands_of_follows (hs.headers _ _ hw.parent) (ensure_eq_ok.mp hfollows)
  have hstored : ∀ (hash : Bytes) (b : FullBlock), store.blocks[hash]? = some b →
      m.store.blocks[hash]? = some b ∨ Stands H b := by
    intro hash b hbody
    rcases hw.blocks hbody with rfl | hold
    · exact .inr hstands
    · exact .inl hold
  refine hr.restore horigin fun hash b hbody => ?_
  rcases hcase with ⟨_, rfl⟩ | ⟨_, first, rest, hbranch, _, hswitch⟩
  · exact hstored hash b hbody
  · rcases switchToBranchTxn_blocks hswitch hbody with hmem | hold
    · rcases hw.sound hinj hs hb with ⟨_, hsound, _, _, hblock⟩
      rcases BlockStore.collectBranch_mem hbranch ⟨_, hblock⟩ b hmem with ⟨⟨hash', hbody'⟩, hside⟩
      rcases hstored hash' b hbody' with hold | hnew
      · -- a block of the branch is not canonical, so not the origin
        have habove := hsound.above_origin hbody' hside
        have hheight : store.originHeight = m.store.originHeight := (hw.sound hinj hs hb).2.2.2.1
        refine .inr ((hr hash' b hold).resolve_left fun heq => ?_)
        have := hs.origin_height (heq ▸ hold)
        omega
      · exact .inr hnew
    · exact hstored hash b hold

omit hinj in
theorem checkBranch_stands {getBlock : Bytes → Except Err FullBlock} {prev : FullBlock} (hprev : prev.header ∈ H)
    (hb : ∀ b ∈ branch, b.header ∈ H) (hok : checkBranch now getBlock prev branch = .ok ()) :
    ∀ b ∈ branch, Stands H b := by
  induction branch generalizing prev with
  | nil => exact nofun
  | cons c branch ih =>
    rw [List.forall_mem_cons] at hb
    rcases bind_eq_ok.mp hok with ⟨_, hc, hok⟩
    rcases bind_eq_ok.mp hc with ⟨_, _, hc⟩
    rcases bind_eq_ok.mp hc with ⟨_, hfollows, _⟩
    exact List.forall_mem_cons.mpr ⟨stands_of_follows hprev (ensure_eq_ok.mp hfollows), ih hb.1 hb.2 hok⟩

omit hinj in
theorem switchToBranch_ranked (hs : Sound H m.store tip) (hr : Ranked H m.store)
    (horigin : m'.store.originHash = m.store.originHash) (hb : ∀ b ∈ branch, b.header ∈ H)
    (hok : switchToBranch L now branch m = .ok m') : Ranked H m'.store := by
  rcases switchToBranch_eq_ok hok with ⟨first, rest, forkParent, base, tip', tipWork, store, store', rfl, hparent,
    hcheck, hbase, _, htipWork, _, hswitch⟩
  refine hr.restore horigin fun hash b hbody => ?_
  rcases switchToBranchTxn_blocks hswitch hbody with hmem | hold
  · exact .inr (checkBranch_stands (hs.headers _ _ hparent) hb hcheck b hmem)
  · rcases (BlockStore.cumulativeWork_reindexed hbase).trans (BlockStore.cumulativeWork_reindexed htipWork) with
      ⟨_, _, _, _, rfl⟩
    exact .inl hold

end Generic

/-- **Every reachable store is ranked.** -/
theorem Reachable.ranked (hinj : Set.InjOn BlockHeader.getHash (genesisHeaders ∪ H)) (hr : Node.Reachable cfg H n) :
    ∃ tip origin, Sound (genesisHeaders ∪ H) n.store tip ∧ Tallied (genesisHeaders ∪ H) origin n.store ∧
      origin.height = 0 ∧ Ranked (genesisHeaders ∪ H) n.store := by
  induction hr with
  | genesis hn =>
    rcases Node.genesis_eq_ok hn with ⟨genesis, hgenesis, _, hstore⟩
    have hmem : genesis.header ∈ genesisHeaders ∪ H := .inl ⟨_, genesis, hgenesis, rfl⟩
    rw [hstore]
    refine ⟨genesis, genesis.header, BlockStore.sound_initWithGenesis hmem, BlockStore.tallied_initWithGenesis hmem,
      getGenesisBlock_height hgenesis, fun hash b hb => .inl ?_⟩
    rw [← (BlockStore.sound_initWithGenesis hmem).keyed _ _ hb]
    change ((∅ : Bucket Bytes FullBlock).insert genesis.getHash.val genesis)[hash]? = some b at hb
    rw [Bucket.get_insert] at hb
    split at hb
    · cases hb
      rfl
    · simp at hb
  | @applyBlock m now block _ hb ih =>
    rcases ih with ⟨tip, origin, hsound, ht, hzero, hranked⟩
    have ht' : Tallied _ origin (m.update (m.applyBlock (ledger cfg) now block)).store :=
      Node.update_applyBlock_tallied hinj hsound ht hb
    rcases Node.update_applyBlock_sound (L := ledger cfg) hinj hsound (.inr hb) with ⟨tip', hsound', _⟩
    refine ⟨tip', origin, hsound', ht', hzero, ?_⟩
    have horigin := ht'.originHash.trans ht.originHash.symm
    cases hok : m.applyBlock (ledger cfg) now block with
    | error e => exact hranked
    | ok m' =>
      rw [hok] at horigin
      unfold Node.applyBlock at hok
      split at hok
      · next hprev => exact extendTip_ranked hinj hsound hranked horigin (.inr hb) hprev hok
      · exact importSide_ranked hinj hsound hranked horigin (.inr hb) hok
  | @switchToBranch m now branch _ hb ih =>
    rcases ih with ⟨tip, origin, hsound, ht, hzero, hranked⟩
    have hb' : ∀ b ∈ branch, b.header ∈ genesisHeaders ∪ H := fun b hmem => .inr (hb b hmem)
    have ht' : Tallied _ origin (m.update (m.switchToBranch (ledger cfg) now branch)).store :=
      Node.update_switchToBranch_tallied hinj hsound ht hb'
    rcases Node.update_switchToBranch_sound (L := ledger cfg) hinj hsound hb' with ⟨tip', hsound'⟩
    refine ⟨tip', origin, hsound', ht', hzero, ?_⟩
    have horigin := ht'.originHash.trans ht.originHash.symm
    cases hok : m.switchToBranch (ledger cfg) now branch with
    | error e => exact hranked
    | ok m' =>
      rw [hok] at horigin
      exact switchToBranch_ranked hsound hranked horigin hb' hok

end Node
end Reach

end NgCore
