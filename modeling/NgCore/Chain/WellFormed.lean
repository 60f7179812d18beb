/-
# NgCore.Chain.WellFormed — the canonical chain in the block store

What every sequence of imports keeps true of the block store, whatever the state does and whichever calls
fail: the height index is a contiguous chain of stored blocks, linked by parent hashes, from the origin to
the latest tags, and pruning never reaches a canonical body.

`Spine H s tip` is the invariant up to a tip, WITHOUT the tags: connecting one block that follows the tip
keeps it (`Spine.connect`). Extending the chain connects one block, a switch starts from the fork ancestor
and connects the branch, block by block.

Bodies are addressed by header hash, so the invariant needs the headers that occur to have distinct hashes:
`H` is the set of headers the node was handed, and `Set.InjOn BlockHeader.getHash H` the assumption.
-/
import NgCore.Chain.Node

namespace NgCore

open Lib (Bucket)

namespace BlockStore

/-! ## §1 — what the indices do not touch -/

/-- **`Reindexed s s'`** — only the memoized work and the transaction indices differ. -/
def Reindexed (s s' : BlockStore) : Prop :=
  ∃ work txs txBlock addrTx,
    s' = { s with work := work, txs := txs, txBlock := txBlock, addrTx := addrTx }

theorem Reindexed.refl (s : BlockStore) : Reindexed s s := ⟨_, _, _, _, rfl⟩

theorem Reindexed.trans {s t u : BlockStore} (h : Reindexed s t) (h' : Reindexed t u) :
    Reindexed s u := by
  obtain ⟨_, _, _, _, rfl⟩ := h
  obtain ⟨work, txs, txBlock, addrTx, rfl⟩ := h'
  exact ⟨work, txs, txBlock, addrTx, rfl⟩

section Ops

variable [Crypto]

omit [Crypto] in
theorem reindexed_foldl {α : Type} {f : BlockStore → α → BlockStore}
    (hf : ∀ s a, Reindexed s (f s a)) (l : List α) (s : BlockStore) : Reindexed s (l.foldl f s) := by
  induction l generalizing s with
  | nil => exact .refl s
  | cons a l ih => exact (hf s a).trans (ih (f s a))

theorem putTxs_reindexed (block : FullBlock) (s : BlockStore) : Reindexed s (s.putTxs block) :=
  reindexed_foldl (fun _ _ => ⟨_, _, _, _, rfl⟩) _ _

theorem delTxs_reindexed (txs : List FullTx) (s : BlockStore) : Reindexed s (s.delTxs txs) :=
  reindexed_foldl (fun _ _ => ⟨_, _, _, _, rfl⟩) _ _

omit [Crypto] in
theorem pruneAddrTxIndex_reindexed (floor : Nat) (s : BlockStore) :
    Reindexed s (s.pruneAddrTxIndex floor) := ⟨_, _, _, _, rfl⟩

theorem memoWork_reindexed (l : List FullBlock) (acc : Nat × BlockStore) :
    Reindexed acc.2 (l.foldl memoWork acc).2 := by
  induction l generalizing acc with
  | nil => exact .refl _
  | cons b l ih =>
    have hstep : Reindexed acc.2 (memoWork acc b).2 := ⟨_, _, _, _, rfl⟩
    exact hstep.trans (ih (memoWork acc b))

theorem cumulativeWork_reindexed {block : FullBlock} {s s' : BlockStore} {work : Nat}
    (h : s.cumulativeWork block = .ok (work, s')) : Reindexed s s' := by
  unfold cumulativeWork at h
  obtain ⟨⟨base, pending⟩, _, h⟩ := bind_eq_ok.mp h
  have heq : pending.foldl memoWork (base, s) = (work, s') := pure_eq_ok.mp h
  have hre := memoWork_reindexed pending (base, s)
  rwa [heq] at hre

/-! ## §2 — the spine -/

/-- **`Spine H s tip`** — the stored blocks up to `tip`: bodies under their own hashes with headers in `H`,
side marks at the height of their body, everything but the origin above it, and a linked height index from
the origin to `tip`. -/
structure Spine (H : Set BlockHeader) (s : BlockStore) (tip : FullBlock) : Prop where
  headers : ∀ (h : Bytes) (b : FullBlock), s.blocks[h]? = some b → b.header ∈ H
  keyed : ∀ (h : Bytes) (b : FullBlock), s.blocks[h]? = some b → b.getHash.val = h
  marked : ∀ (h : Bytes) (k : Nat), s.side[h]? = some k → ∃ b : FullBlock, s.blocks[h]? = some b ∧ b.getHeight = k
  rooted : ∀ (h : Bytes) (b : FullBlock), s.blocks[h]? = some b → h = s.originHash ∨
    s.originHeight < b.getHeight
  origin : s.originHeight ≤ tip.getHeight
  originAt : s.heights[s.originHeight]? = some s.originHash
  canonical : ∀ k, s.originHeight ≤ k → k ≤ tip.getHeight → ∃ b : FullBlock,
    s.heights[k]? = some b.getHash.val ∧ s.blocks[b.getHash.val]? = some b ∧ b.getHeight = k ∧
    (s.originHeight < k → s.heights[k - 1]? = some b.getPrevHash)
  top : s.heights[tip.getHeight]? = some tip.getHash.val
  tipBody : s.blocks[tip.getHash.val]? = some tip

/-- **`WellFormed`** — the canonical chain is contiguous, linked, stored, and what the tags name. -/
structure WellFormed (s : BlockStore) : Prop where
  origin : s.originHeight ≤ s.latestHeight
  canonical : ∀ k, s.originHeight ≤ k → k ≤ s.latestHeight → ∃ b : FullBlock,
    s.heights[k]? = some b.getHash.val ∧ s.blocks[b.getHash.val]? = some b ∧ b.getHeight = k ∧
    (s.originHeight < k → s.heights[k - 1]? = some b.getPrevHash)
  above : ∀ k, s.latestHeight < k → s.heights[k]? = none
  top : s.heights[s.latestHeight]? = some s.latestHash

/-- **`Sound H s`** — the spine reaches exactly to the latest tags. -/
structure Sound (H : Set BlockHeader) (s : BlockStore) (tip : FullBlock) : Prop extends Spine H s tip where
  latestHeight : s.latestHeight = tip.getHeight
  latestHash : s.latestHash = tip.getHash.val
  above : ∀ k, tip.getHeight < k → s.heights[k]? = none

variable {H : Set BlockHeader} {s s' : BlockStore} {tip : FullBlock}

theorem Sound.wellFormed (h : Sound H s tip) : WellFormed s where
  origin := h.latestHeight ▸ h.origin
  canonical k hk hk' := h.canonical k hk (h.latestHeight ▸ hk')
  above k hk := h.above k (h.latestHeight ▸ hk)
  top := by rw [h.latestHeight, h.latestHash]; exact h.top

theorem Spine.reindexed (h : Spine H s tip) (hre : Reindexed s s') : Spine H s' tip := by
  obtain ⟨_, _, _, _, rfl⟩ := hre
  exact ⟨h.headers, h.keyed, h.marked, h.rooted, h.origin, h.originAt, h.canonical, h.top, h.tipBody⟩

theorem Sound.reindexed (h : Sound H s tip) (hre : Reindexed s s') : Sound H s' tip := by
  refine ⟨h.toSpine.reindexed hre, ?_, ?_, ?_⟩ <;> obtain ⟨_, _, _, _, rfl⟩ := hre
  · exact h.latestHeight
  · exact h.latestHash
  · exact h.above

theorem Sound.getLatestBlock (h : Sound H s tip) {b : FullBlock} (hb : s.getLatestBlock = .ok b) :
    b = tip := by
  have hbody := getBlockByHash_eq_ok.mp hb
  rw [h.latestHash, h.tipBody] at hbody
  exact (Option.some_injective _ hbody).symm

theorem Spine.below (h : Spine H s tip) {b : FullBlock} (horigin : s.originHeight ≤ b.getHeight)
    (hb : b.getHeight ≤ tip.getHeight) (htop : s.heights[b.getHeight]? = some b.getHash.val)
    (hbody : s.blocks[b.getHash.val]? = some b) : Spine H s b :=
  ⟨h.headers, h.keyed, h.marked, h.rooted, horigin, h.originAt, fun k hk hk' => h.canonical k hk (hk'.trans hb),
    htop, hbody⟩

/-- Heights above the tip and the tags are not part of the spine. -/
theorem Spine.truncate (h : Spine H s tip) {heights : Bucket Nat Bytes}
    (hk : ∀ k : Nat, k ≤ tip.getHeight → heights[k]? = s.heights[k]?) (latestHeight : Nat)
    (latestHash : Bytes) :
    Spine H { s with heights := heights, latestHeight := latestHeight, latestHash := latestHash } tip := by
  refine ⟨h.headers, h.keyed, h.marked, h.rooted, h.origin, ?_, ?_, ?_, h.tipBody⟩
  · exact (hk _ h.origin).trans h.originAt
  · intro k hlow hhigh
    obtain ⟨b, hb, hbody, hheight, hlink⟩ := h.canonical k hlow hhigh
    refine ⟨b, (hk k hhigh).trans hb, hbody, hheight, fun hlt => ?_⟩
    exact (hk (k - 1) (by omega)).trans (hlink hlt)
  · exact (hk _ le_rfl).trans h.top

section Distinct

variable (hinj : Set.InjOn BlockHeader.getHash H)
include hinj

/-- A block handed to the node under the hash of a stored one has the same header. -/
theorem Spine.header_eq (h : Spine H s tip) {hash : Bytes} {b b' : FullBlock}
    (hb : s.blocks[hash]? = some b) (hb' : b'.header ∈ H) (hhash : b'.getHash.val = hash) :
    b'.header = b.header := by
  apply hinj hb' (h.headers hash b hb)
  apply Subtype.ext
  exact hhash.trans (h.keyed hash b hb).symm

/-- **Connecting a block that follows the tip** keeps the spine, one block higher: no canonical body is
overwritten, for a body under the same hash would have the same height. -/
theorem Spine.connect (h : Spine H s tip) {b : FullBlock} (hb : b.header ∈ H) (hfollows : Follows tip b) :
    Spine H (s.putBlock b) b := by
  obtain ⟨hheight, hprev⟩ := hfollows
  -- a body that keeps its place is not under the new block's hash
  have hkeep : ∀ (k : Nat) (c : FullBlock), k ≤ tip.getHeight → s.blocks[c.getHash.val]? = some c → c.getHeight = k →
      (s.putBlock b).blocks[c.getHash.val]? = some c := by
    intro k c hk hc hck
    have hne : b.getHash.val ≠ c.getHash.val := by
      intro heq
      have hheader := h.header_eq hinj hc hb heq
      have : b.getHeight = c.getHeight := congrArg BlockHeader.height hheader
      omega
    show (s.blocks.insert b.getHash.val b)[c.getHash.val]? = some c
    rw [Bucket.get_insert, if_neg hne, hc]
  have hindex : ∀ k, k ≤ tip.getHeight → (s.putBlock b).heights[k]? = s.heights[k]? := by
    intro k hk
    show (s.heights.insert b.getHeight b.getHash.val)[k]? = s.heights[k]?
    rw [Bucket.get_insert, if_neg (by omega)]
  have hbody : (s.putBlock b).blocks[b.getHash.val]? = some b := by
    show (s.blocks.insert b.getHash.val b)[b.getHash.val]? = some b
    rw [Bucket.get_insert, if_pos rfl]
  have htop : (s.putBlock b).heights[b.getHeight]? = some b.getHash.val := by
    show (s.heights.insert b.getHeight b.getHash.val)[b.getHeight]? = some b.getHash.val
    rw [Bucket.get_insert, if_pos rfl]
  have horigin : s.originHeight ≤ tip.getHeight := h.origin
  refine ⟨?_, ?_, ?_, ?_, ?_, ?_, ?_, htop, hbody⟩
  · intro hash c hc
    change (s.blocks.insert b.getHash.val b)[hash]? = some c at hc
    rw [Bucket.get_insert] at hc
    split at hc
    · cases hc; exact hb
    · exact h.headers hash c hc
  · intro hash c hc
    change (s.blocks.insert b.getHash.val b)[hash]? = some c at hc
    rw [Bucket.get_insert] at hc
    split at hc
    · next heq => cases hc; exact heq
    · exact h.keyed hash c hc
  · intro hash k hk
    change (s.side.erase b.getHash.val)[hash]? = some k at hk
    rw [Bucket.get_erase] at hk
    split at hk
    · cases hk
    · next hne =>
      obtain ⟨c, hc, hck⟩ := h.marked hash k hk
      refine ⟨c, ?_, hck⟩
      show (s.blocks.insert b.getHash.val b)[hash]? = some c
      rw [Bucket.get_insert, if_neg hne, hc]
  · intro hash c hc
    change (s.blocks.insert b.getHash.val b)[hash]? = some c at hc
    rw [Bucket.get_insert] at hc
    split at hc
    · cases hc
      exact .inr (show s.originHeight < b.getHeight by omega)
    · exact h.rooted hash c hc
  · show s.originHeight ≤ b.getHeight
    omega
  · exact (hindex _ h.origin).trans h.originAt
  · intro k hk hk'
    rcases Nat.lt_or_ge tip.getHeight k with hlt | hle
    · -- the new block, linked to the old tip
      obtain rfl : k = b.getHeight := by omega
      refine ⟨b, htop, hbody, rfl, fun _ => ?_⟩
      rw [hheight, Nat.add_sub_cancel, hindex _ le_rfl, h.top, hprev]
    · obtain ⟨c, hc, hbody', hck, hlink⟩ := h.canonical k hk hle
      refine ⟨c, (hindex k hle).trans hc, hkeep k c hle hbody' hck, hck, fun hlt => ?_⟩
      rw [hindex _ (by omega)]
      exact hlink hlt

/-- Storing a side block keeps the spine: under the hash of a canonical block it has that block's header. -/
theorem Spine.putSideBlock (h : Spine H s tip) {b : FullBlock} (hb : b.header ∈ H)
    (habove : s.originHeight < b.getHeight) :
    ∃ tip', tip'.header = tip.header ∧ Spine H (s.putSideBlock b) tip' := by
  -- the body under a hash may be replaced, but only by one with the same header
  have hbodies : ∀ (hash : Bytes) (c : FullBlock), s.blocks[hash]? = some c →
      ∃ c' : FullBlock, (s.putSideBlock b).blocks[hash]? = some c' ∧ c'.header = c.header := by
    intro hash c hc
    show ∃ c' : FullBlock, (s.blocks.insert b.getHash.val b)[hash]? = some c' ∧ c'.header = c.header
    rw [Bucket.get_insert]
    split
    · next heq => exact ⟨b, rfl, h.header_eq hinj hc hb heq⟩
    · exact ⟨c, hc, rfl⟩
  obtain ⟨tip', htip', hheader⟩ := hbodies _ tip h.tipBody
  have hheight : tip'.getHeight = tip.getHeight := congrArg BlockHeader.height hheader
  have hhash : tip'.getHash = tip.getHash := congrArg BlockHeader.getHash hheader
  refine ⟨tip', hheader, ?_, ?_, ?_, ?_, ?_, h.originAt, ?_, ?_, ?_⟩
  · intro hash c hc
    change (s.blocks.insert b.getHash.val b)[hash]? = some c at hc
    rw [Bucket.get_insert] at hc
    split at hc
    · cases hc; exact hb
    · exact h.headers hash c hc
  · intro hash c hc
    change (s.blocks.insert b.getHash.val b)[hash]? = some c at hc
    rw [Bucket.get_insert] at hc
    split at hc
    · next heq => cases hc; exact heq
    · exact h.keyed hash c hc
  · intro hash k hk
    change (s.side.insert b.getHash.val b.getHeight)[hash]? = some k at hk
    rw [Bucket.get_insert] at hk
    split at hk
    · next heq =>
      cases hk
      refine ⟨b, ?_, rfl⟩
      show (s.blocks.insert b.getHash.val b)[hash]? = some b
      rw [Bucket.get_insert, if_pos heq]
    · obtain ⟨c, hc, hck⟩ := h.marked hash k hk
      obtain ⟨c', hc', hheader'⟩ := hbodies hash c hc
      exact ⟨c', hc', (congrArg BlockHeader.height hheader').trans hck⟩
  · intro hash c hc
    change (s.blocks.insert b.getHash.val b)[hash]? = some c at hc
    rw [Bucket.get_insert] at hc
    split at hc
    · cases hc
      exact .inr habove
    · exact h.rooted hash c hc
  · rw [hheight]
    exact h.origin
  · intro k hk hk'
    rw [hheight] at hk'
    obtain ⟨c, hc, hbody, hck, hlink⟩ := h.canonical k hk hk'
    obtain ⟨c', hc', hheader'⟩ := hbodies _ c hbody
    have hhash' : c'.getHash = c.getHash := congrArg BlockHeader.getHash hheader'
    refine ⟨c', ?_, ?_, (congrArg BlockHeader.height hheader').trans hck, fun hlt => ?_⟩
    · rw [hhash']; exact hc
    · rw [hhash']; exact hc'
    · rw [show c'.getPrevHash = c.getPrevHash from congrArg BlockHeader.prevBlockHash hheader']
      exact hlink hlt
  · rw [hheight, hhash]
    exact h.top
  · rw [hhash]
    exact htip'

end Distinct

/-! ## §3 — pruning -/

omit [Crypto] in
theorem dropSideBlocks_get (l : List Bytes) (s : BlockStore) (hash : Bytes) :
    (l.foldl dropSideBlock s).blocks[hash]? = (if hash ∈ l then none else s.blocks[hash]?) ∧
      (l.foldl dropSideBlock s).work[hash]? = (if hash ∈ l then none else s.work[hash]?) ∧
      (l.foldl dropSideBlock s).side[hash]? = (if hash ∈ l then none else s.side[hash]?) := by
  induction l generalizing s with
  | nil => simp
  | cons a l ih =>
    rw [List.foldl_cons]
    obtain ⟨h1, h2, h3⟩ := ih (s.dropSideBlock a)
    rw [h1, h2, h3]
    by_cases ha : a = hash
    · subst ha
      simp [dropSideBlock]
    · simp [dropSideBlock, ha, Ne.symm ha]

omit [Crypto] in
theorem dropSideBlocks_eq (l : List Bytes) (s : BlockStore) : ∃ blocks work side,
    l.foldl dropSideBlock s = { s with blocks := blocks, work := work, side := side } := by
  induction l generalizing s with
  | nil => exact ⟨_, _, _, rfl⟩
  | cons a l ih =>
    obtain ⟨blocks, work, side, h⟩ := ih (s.dropSideBlock a)
    exact ⟨blocks, work, side, h⟩

omit [Crypto] in
theorem mem_sideVictims {below : Nat} {hash : Bytes} (h : hash ∈ s.sideVictims below) :
    ∃ k, s.side[hash]? = some k ∧ k < below ∧ s.heights[k]? ≠ some hash := by
  obtain ⟨⟨_, k⟩, hmem, rfl⟩ := List.mem_map.mp h
  obtain ⟨hmem, hcond⟩ := List.mem_filter.mp hmem
  have hcond := of_decide_eq_true hcond
  exact ⟨k, (Bucket.mem_toList_iff _ _ _).mp hmem, hcond.1, hcond.2⟩

/-- **Pruning spares every canonical body**: a victim is marked at the height of its body, and is not the
canonical block of that height. -/
theorem Spine.not_victim (h : Spine H s tip) {below : Nat} {b : FullBlock}
    (hcanonical : s.heights[b.getHeight]? = some b.getHash.val)
    (hbody : s.blocks[b.getHash.val]? = some b) : b.getHash.val ∉ s.sideVictims below := by
  intro hvictim
  obtain ⟨k, hmark, _, hne⟩ := mem_sideVictims hvictim
  obtain ⟨c, hc, hck⟩ := h.marked _ _ hmark
  rw [hbody] at hc
  obtain rfl := Option.some_injective _ hc
  exact hne (hck ▸ hcanonical)

theorem Spine.pruneSideBlocks_body (h : Spine H s tip) (below : Nat) {b : FullBlock}
    (hcanonical : s.heights[b.getHeight]? = some b.getHash.val)
    (hbody : s.blocks[b.getHash.val]? = some b) :
    (s.pruneSideBlocks below).blocks[b.getHash.val]? = some b := by
  unfold BlockStore.pruneSideBlocks
  rw [(dropSideBlocks_get _ s _).1, if_neg (h.not_victim hcanonical hbody), hbody]

theorem Spine.pruneSideBlocks (h : Spine H s tip) (below : Nat) :
    Spine H (s.pruneSideBlocks below) tip := by
  have hget := dropSideBlocks_get (s.sideVictims below) s
  obtain ⟨blocks, work, side, heq⟩ := dropSideBlocks_eq (s.sideVictims below) s
  -- what is still stored was stored before
  have hold : ∀ (hash : Bytes) (c : FullBlock), (s.pruneSideBlocks below).blocks[hash]? = some c →
      s.blocks[hash]? = some c := by
    intro hash c hc
    unfold BlockStore.pruneSideBlocks at hc
    rw [(hget hash).1] at hc
    split at hc
    · cases hc
    · exact hc
  have hheights : (s.pruneSideBlocks below).heights = s.heights := by
    unfold BlockStore.pruneSideBlocks; rw [heq]
  have horigin : (s.pruneSideBlocks below).originHeight = s.originHeight := by
    unfold BlockStore.pruneSideBlocks; rw [heq]
  have horiginHash : (s.pruneSideBlocks below).originHash = s.originHash := by
    unfold BlockStore.pruneSideBlocks; rw [heq]
  refine ⟨fun hash c hc => h.headers hash c (hold hash c hc),
    fun hash c hc => h.keyed hash c (hold hash c hc), ?_, ?_, ?_, ?_, ?_, ?_,
    h.pruneSideBlocks_body below h.top h.tipBody⟩
  · intro hash k hk
    unfold BlockStore.pruneSideBlocks at hk ⊢
    rw [(hget hash).2.2] at hk
    rw [(hget hash).1]
    split at hk
    · cases hk
    · next hmem =>
      rw [if_neg hmem]
      exact h.marked hash k hk
  · intro hash c hc
    rw [horigin, horiginHash]
    exact h.rooted hash c (hold hash c hc)
  · rw [horigin]; exact h.origin
  · rw [horigin, hheights, horiginHash]; exact h.originAt
  · intro k hk hk'
    rw [horigin] at hk ⊢
    rw [hheights]
    obtain ⟨c, hc, hbody, hck, hlink⟩ := h.canonical k hk hk'
    exact ⟨c, hc, h.pruneSideBlocks_body below (hck ▸ hc) hbody, hck, hlink⟩
  · rw [hheights]; exact h.top

theorem Sound.pruneSideBlocks (h : Sound H s tip) (below : Nat) :
    Sound H (s.pruneSideBlocks below) tip := by
  obtain ⟨blocks, work, side, heq⟩ := dropSideBlocks_eq (s.sideVictims below) s
  refine ⟨h.toSpine.pruneSideBlocks below, ?_, ?_, ?_⟩ <;> unfold BlockStore.pruneSideBlocks <;> rw [heq]
  · exact h.latestHeight
  · exact h.latestHash
  · exact h.above

theorem Sound.maintain {S : Type} (L : Ledger S) (h : Sound H s tip) (b : FullBlock) :
    Sound H (L.maintain b s) tip := by
  unfold Ledger.maintain
  split
  · apply Sound.pruneSideBlocks
    split
    · exact h
    · exact h.reindexed (pruneAddrTxIndex_reindexed _ s)
  · exact h

theorem Spine.maintain_body {S : Type} (L : Ledger S) (h : Spine H s tip) (b : FullBlock) {c : FullBlock}
    (hcanonical : s.heights[c.getHeight]? = some c.getHash.val)
    (hbody : s.blocks[c.getHash.val]? = some c) : (L.maintain b s).blocks[c.getHash.val]? = some c := by
  unfold Ledger.maintain
  split
  · split
    · exact h.pruneSideBlocks_body _ hcanonical hbody
    · exact (h.reindexed (pruneAddrTxIndex_reindexed _ s)).pruneSideBlocks_body _ hcanonical hbody
  · exact hbody

/-! ## §4 — extending and switching -/

theorem Sound.follows_of_checkBlock (h : Sound H s tip) {b : FullBlock} (hprev : b.getPrevHash = s.latestHash)
    (hcheck : s.checkBlock b.getHeight b.getPrevHash = .ok ()) : Follows tip b := by
  obtain ⟨_, hheight, hparent⟩ := bind_eq_ok.mp hcheck
  have hpos : b.getHeight ≠ 0 := by
    intro hzero
    rw [ensure_eq_ok, blockHeightExists] at hheight
    simp [hzero] at hheight
  rw [ensure_eq_ok, blockPrevHashExists, if_neg (fun hz => hpos hz.1), hprev, h.latestHash,
    getBlockByHash_eq_ok.mpr h.tipBody] at hparent
  refine ⟨?_, hprev.trans h.latestHash⟩
  have : tip.getHeight = pred64 b.getHeight := by simpa using hparent
  rw [pred64_of_pos (Nat.pos_of_ne_zero hpos)] at this
  omega

/-- A block that follows the tip of a sound store can be put. -/
theorem Sound.checkBlock (h : Sound H s tip) {b : FullBlock} (hfollows : Follows tip b) :
    s.checkBlock b.getHeight b.getPrevHash = .ok () := by
  obtain ⟨hheight, hprev⟩ := hfollows
  have hfree : s.blockHeightExists b.getHeight = false := by
    rw [blockHeightExists, getBlockByHeight, h.above _ (by omega)]
    simp [Except.isOk, Except.toBool]
    omega
  have hparent : s.blockPrevHashExists b.getHeight b.getPrevHash = true := by
    rw [blockPrevHashExists, if_neg (by omega), hprev, getBlockByHash_eq_ok.mpr h.tipBody,
      pred64_of_pos (by omega)]
    simp [hheight]
  exact bind_eq_ok.mpr ⟨(), ensure_eq_ok.mpr hfree, ensure_eq_ok.mpr hparent⟩

theorem Spine.origin_height (h : Spine H s tip) {b : FullBlock} (hb : s.blocks[s.originHash]? = some b) :
    b.getHeight = s.originHeight := by
  rcases h.canonical s.originHeight le_rfl h.origin with ⟨c, hc, hbody, hheight, _⟩
  rw [h.originAt] at hc
  rw [← Option.some_injective _ hc, hb] at hbody
  rwa [Option.some_injective _ hbody]

theorem Spine.origin_le (h : Spine H s tip) {hash : Bytes} {b : FullBlock}
    (hb : s.blocks[hash]? = some b) : s.originHeight ≤ b.getHeight := by
  rcases h.rooted hash b hb with rfl | hlt
  · exact (h.origin_height hb).ge
  · exact hlt.le

/-- **`Unlinked s s'`** — only side marks, work and transaction indices differ. -/
def Unlinked (s s' : BlockStore) : Prop :=
  ∃ side work txs txBlock addrTx, s' =
    { s with side := side, work := work, txs := txs, txBlock := txBlock, addrTx := addrTx }

omit [Crypto] in
theorem Unlinked.trans {s t u : BlockStore} (h : Unlinked s t) (h' : Unlinked t u) : Unlinked s u := by
  obtain ⟨_, _, _, _, _, rfl⟩ := h
  obtain ⟨side, work, txs, txBlock, addrTx, rfl⟩ := h'
  exact ⟨side, work, txs, txBlock, addrTx, rfl⟩

/-- Unlinking a height marks a stored block at its own height. -/
theorem Spine.unlinkHeight (h : Spine H s tip) {k : Nat} (hu : s.unlinkHeight k = .ok s') :
    Spine H s' tip ∧ Unlinked s s' := by
  obtain ⟨old, hold, hu⟩ := bind_eq_ok.mp hu
  obtain rfl := pure_eq_ok.mp hu
  obtain ⟨hash, _, hbody⟩ := getBlockByHeight_eq_ok.mp hold
  obtain ⟨work, txs, txBlock, addrTx, heq⟩ := delTxs_reindexed old.txs s
  rw [heq]
  refine ⟨⟨h.headers, h.keyed, ?_, h.rooted, h.origin, h.originAt, h.canonical, h.top, h.tipBody⟩,
    _, _, _, _, _, rfl⟩
  intro hash' j hj
  change (s.side.insert old.getHash.val old.getHeight)[hash']? = some j at hj
  rw [Bucket.get_insert] at hj
  split at hj
  · next hhash =>
    cases hj
    refine ⟨old, ?_, rfl⟩
    rw [← hhash, h.keyed hash old hbody]
    exact hbody
  · exact h.marked hash' j hj

theorem Spine.unlinkHeights (l : List Nat) (h : Spine H s tip) 
    (hu : l.foldlM BlockStore.unlinkHeight s = .ok s') :
    Spine H s' tip ∧ Unlinked s s' := by
  induction l generalizing s with
  | nil =>
    obtain rfl := pure_eq_ok.mp hu
    exact ⟨h, _, _, _, _, _, rfl⟩
  | cons k l ih =>
    rw [List.foldlM_cons] at hu
    obtain ⟨t, hk, hu⟩ := bind_eq_ok.mp hu
    obtain ⟨hspine, hunlinked⟩ := h.unlinkHeight hk
    obtain ⟨hspine', hunlinked'⟩ := ih hspine hu
    exact ⟨hspine', hunlinked.trans hunlinked'⟩

/-- Connecting a block writes its own hash and its own height only. -/
theorem connectBlock_eq (s : BlockStore) (b : FullBlock) : ∃ side txs txBlock addrTx,
    s.connectBlock b = { s with
      blocks := s.blocks.insert b.getHash.val b, heights := s.heights.insert b.getHeight b.getHash.val,
      side := side, txs := txs, txBlock := txBlock, addrTx := addrTx } ∧
    side = (s.side.erase b.getHash.val).erase b.getHash.val := by
  have hputTx : ∀ (l : List FullTx) (t : BlockStore) (hash : Bytes), ∃ txs txBlock addrTx,
      l.foldl (putTx hash) t = { t with txs := txs, txBlock := txBlock, addrTx := addrTx } := by
    intro l
    induction l with
    | nil => exact fun t _ => ⟨_, _, _, rfl⟩
    | cons tx l ih =>
      intro t hash
      obtain ⟨txs, txBlock, addrTx, heq⟩ := ih (t.putTx hash tx) hash
      exact ⟨txs, txBlock, addrTx, heq⟩
  obtain ⟨txs, txBlock, addrTx, heq⟩ := hputTx b.txs (s.putBlock b) b.getHash.val
  refine ⟨_, txs, txBlock, addrTx, ?_, rfl⟩
  unfold connectBlock putTxs
  rw [heq]
  rfl

theorem connectBranch_blocks (branch : List FullBlock) (s : BlockStore) {hash : Bytes}
    (h : ∀ b ∈ branch, b.getHash.val ≠ hash) :
    (branch.foldl connectBlock s).blocks[hash]? = s.blocks[hash]? := by
  induction branch generalizing s with
  | nil => rfl
  | cons b branch ih =>
    rw [List.foldl_cons, ih _ fun c hc => h c (List.mem_cons_of_mem b hc)]
    obtain ⟨_, _, _, _, heq, _⟩ := connectBlock_eq s b
    rw [heq]
    show (s.blocks.insert b.getHash.val b)[hash]? = s.blocks[hash]?
    rw [Bucket.get_insert, if_neg (h b List.mem_cons_self)]

theorem connectBranch_heights (branch : List FullBlock) (s : BlockStore) {k : Nat}
    (h : ∀ b ∈ branch, b.getHeight ≠ k) :
    (branch.foldl connectBlock s).heights[k]? = s.heights[k]? := by
  induction branch generalizing s with
  | nil => rfl
  | cons b branch ih =>
    rw [List.foldl_cons, ih _ fun c hc => h c (List.mem_cons_of_mem b hc)]
    obtain ⟨_, _, _, _, heq, _⟩ := connectBlock_eq s b
    rw [heq]
    show (s.heights.insert b.getHeight b.getHash.val)[k]? = s.heights[k]?
    rw [Bucket.get_insert, if_neg (h b List.mem_cons_self)]

/-- Heights along a connected branch lie between the first and the last. -/
theorem height_mem_branch {first : FullBlock} {rest : List FullBlock}
    (hchain : (first :: rest).IsChain Follows) :
    first.getHeight ≤ (rest.getLastD first).getHeight ∧ ∀ b ∈ first :: rest,
      first.getHeight ≤ b.getHeight ∧ b.getHeight ≤ (rest.getLastD first).getHeight := by
  induction rest generalizing first with
  | nil => simp
  | cons b rest ih =>
    obtain ⟨hfollows, hchain⟩ := List.isChain_cons_cons.mp hchain
    obtain ⟨hle, hall⟩ := ih hchain
    have hstep : b.getHeight = first.getHeight + 1 := hfollows.1
    rw [List.getLastD_cons]
    refine ⟨by omega, fun c hc => ?_⟩
    rcases List.mem_cons.mp hc with rfl | hc
    · exact ⟨le_rfl, by omega⟩
    · obtain ⟨h1, h2⟩ := hall c hc
      exact ⟨by omega, h2⟩

section Distinct

variable (hinj : Set.InjOn BlockHeader.getHash H)
include hinj

theorem Spine.connectBlock (h : Spine H s tip) {b : FullBlock} (hb : b.header ∈ H)
    (hfollows : Follows tip b) : Spine H (s.connectBlock b) b := by
  have hspine := (h.connect hinj hb hfollows).reindexed (putTxs_reindexed b _)
  refine ⟨hspine.headers, hspine.keyed, ?_, hspine.rooted, hspine.origin, hspine.originAt,
    hspine.canonical, hspine.top, hspine.tipBody⟩
  intro hash k hk
  change (((s.putBlock b).putTxs b).side.erase b.getHash.val)[hash]? = some k at hk
  rw [Bucket.get_erase] at hk
  split at hk
  · cases hk
  · exact hspine.marked hash k hk

/-- **Connecting a branch** moves the spine to its last block. -/
theorem Spine.connectBranch (branch : List FullBlock) (h : Spine H s tip)
    (hchain : (tip :: branch).IsChain Follows) (hb : ∀ b ∈ branch, b.header ∈ H) :
    Spine H (branch.foldl BlockStore.connectBlock s) (branch.getLastD tip) := by
  induction branch generalizing s tip with
  | nil => exact h
  | cons b branch ih =>
    obtain ⟨hfollows, hchain⟩ := List.isChain_cons_cons.mp hchain
    have hstep := h.connectBlock hinj (hb b List.mem_cons_self) hfollows
    rw [List.getLastD_cons]
    exact ih hstep hchain fun c hc => hb c (List.mem_cons_of_mem b hc)

theorem Sound.putNewBlock (h : Sound H s tip) {b : FullBlock} (hb : b.header ∈ H)
    (hprev : b.getPrevHash = s.latestHash) (hput : s.putNewBlock b = .ok s') :
    Follows tip b ∧ Sound H s' b := by
  obtain ⟨_, hcheck, hput⟩ := bind_eq_ok.mp hput
  obtain rfl := pure_eq_ok.mp hput
  have hfollows := h.follows_of_checkBlock hprev hcheck
  have hspine := (h.toSpine.connect hinj hb hfollows).reindexed (putTxs_reindexed b _)
  refine ⟨hfollows, ⟨hspine.headers, hspine.keyed, hspine.marked, hspine.rooted, hspine.origin,
    hspine.originAt, hspine.canonical, hspine.top, hspine.tipBody⟩, rfl, rfl, ?_⟩
  intro k hk
  obtain ⟨_, _, _, _, heq⟩ := putTxs_reindexed b (s.putBlock b)
  have hheights : (((s.putBlock b).putTxs b).putLatestTags b).heights
      = s.heights.insert b.getHeight b.getHash.val := by
    show ((s.putBlock b).putTxs b).heights = _
    rw [heq]
    rfl
  rw [hheights, Bucket.get_insert, if_neg (by omega)]
  exact h.above k (by have := hfollows.1; omega)

/-- **Switching** keeps the store sound: the spine is cut at the fork ancestor and grows along the branch,
and the stale heights above the new tip go. Below the branch the index is untouched. -/
theorem Sound.switchToBranch (h : Sound H s tip) {branch : List FullBlock}
    (hb : ∀ b ∈ branch, b.header ∈ H ∧ s.originHeight < b.getHeight)
    (hswitch : s.switchToBranch branch = .ok s') :
    ∃ first rest, branch = first :: rest ∧ Sound H s' (rest.getLastD first) ∧
      first.getHeight ≤ (rest.getLastD first).getHeight ∧
      ∀ k, k < first.getHeight → s'.heights[k]? = s.heights[k]? := by
  cases branch with
  | nil => cases hswitch
  | cons first rest =>
    refine ⟨first, rest, rfl, ?_⟩
    rw [BlockStore.switchToBranch] at hswitch
    obtain ⟨_, hchain, hswitch⟩ := bind_eq_ok.mp hswitch
    obtain ⟨_, hattach, hswitch⟩ := bind_eq_ok.mp hswitch
    obtain ⟨t, hunlink, hswitch⟩ := bind_eq_ok.mp hswitch
    obtain rfl := pure_eq_ok.mp hswitch
    have hchain := ensure_eq_ok.mp hchain
    have hattach := ensure_eq_ok.mp hattach
    obtain ⟨hle, hbetween⟩ := height_mem_branch hchain
    have hfirst : s.originHeight < first.getHeight := (hb first List.mem_cons_self).2
    rw [pred64_of_pos (by omega)] at hattach
    obtain ⟨hspine, side, work, txs, txBlock, addrTx, rfl⟩ := h.toSpine.unlinkHeights _ hunlink
    -- the fork ancestor is canonical, and the branch hangs on it
    have hancestor : first.getHeight - 1 ≤ tip.getHeight := by
      by_contra hgt
      rw [h.above _ (by omega)] at hattach
      cases hattach
    obtain ⟨ancestor, hindex, hbody, hheight, _⟩ :=
      hspine.canonical (first.getHeight - 1) (show s.originHeight ≤ _ by omega) hancestor
    have hprev : first.getPrevHash = ancestor.getHash.val :=
      Option.some_injective _ (hattach.symm.trans hindex)
    have hbelow := hspine.below (b := ancestor) (show s.originHeight ≤ _ by omega) (by omega)
      (hheight ▸ hindex) hbody
    have hgrown := hbelow.connectBranch hinj (first :: rest)
      (List.isChain_cons_cons.mpr ⟨⟨by omega, hprev⟩, hchain⟩) fun b hmem => (hb b hmem).1
    rw [List.getLastD_cons] at hgrown
    -- the stale heights are erased, and they all lie above the new tip
    generalize hu : (first :: rest).foldl BlockStore.connectBlock _ = u at hgrown
    have hkept := fun k => connectBranch_heights (k := k) (first :: rest) { s with
      side := side, work := work, txs := txs, txBlock := txBlock, addrTx := addrTx }
    rw [hu] at hkept
    set newTip := rest.getLastD first with hnewTip
    have hget : ∀ k : Nat, ((List.range' (newTip.getHeight + 1) (s.latestHeight - newTip.getHeight)).foldl
        (fun m h => m.erase h) u.heights)[k]? =
        if newTip.getHeight < k ∧ k ≤ s.latestHeight then none else u.heights[k]? := by
      intro k
      rw [Bucket.get_foldl_erase]
      congr 1
      rw [List.mem_range'_1]
      exact propext ⟨fun hk => ⟨by omega, by omega⟩, fun hk => ⟨by omega, by omega⟩⟩
    refine ⟨⟨hgrown.truncate ?_ _ _, rfl, rfl, ?_⟩, hle, ?_⟩
    · intro k hk
      rw [hget, if_neg (by omega)]
    · intro k hk
      show (List.foldl _ u.heights _)[k]? = none
      rw [hget]
      split
      · rfl
      · next hout =>
        rw [hkept k fun b hmem heq => by have := (hbetween b hmem).2; omega]
        exact h.above k (by have := h.latestHeight; omega)
    · intro k hk
      show (List.foldl _ u.heights _)[k]? = s.heights[k]?
      rw [hget, if_neg (by omega), hkept k fun b hmem heq => by have := (hbetween b hmem).1; omega]

end Distinct

/-- A hash that no block of the branch has keeps its body through a switch. -/
theorem switchToBranch_blocks {branch : List FullBlock} (h : s.switchToBranch branch = .ok s')
    {hash : Bytes} (hne : ∀ b ∈ branch, b.getHash.val ≠ hash) : s'.blocks[hash]? = s.blocks[hash]? := by
  have hunlink : ∀ (l : List Nat) (t u : BlockStore), l.foldlM unlinkHeight t = .ok u →
      u.blocks = t.blocks := by
    intro l
    induction l with
    | nil =>
      intro t u hu
      obtain rfl := pure_eq_ok.mp hu
      rfl
    | cons k l ih =>
      intro t u hu
      rw [List.foldlM_cons] at hu
      obtain ⟨v, hv, hu⟩ := bind_eq_ok.mp hu
      obtain ⟨old, _, hv⟩ := bind_eq_ok.mp hv
      obtain rfl := pure_eq_ok.mp hv
      obtain ⟨_, _, _, _, heq⟩ := delTxs_reindexed old.txs t
      rw [ih _ _ hu, heq]
  cases branch with
  | nil => cases h
  | cons first rest =>
    rw [switchToBranch] at h
    obtain ⟨_, _, h⟩ := bind_eq_ok.mp h
    obtain ⟨_, _, h⟩ := bind_eq_ok.mp h
    obtain ⟨t, hu, h⟩ := bind_eq_ok.mp h
    obtain rfl := pure_eq_ok.mp h
    exact (connectBranch_blocks (first :: rest) t hne).trans (by rw [hunlink _ _ _ hu])

theorem connectBranch_index {branch : List FullBlock} (hchain : branch.IsChain Follows) (s : BlockStore) :
    ∀ b ∈ branch, (branch.foldl connectBlock s).heights[b.getHeight]? = some b.getHash.val := by
  induction branch generalizing s with
  | nil => exact nofun
  | cons first rest ih =>
    intro b hb
    rw [List.foldl_cons]
    rcases List.mem_cons.mp hb with rfl | hb
    · -- what is connected after it stands above it
      have habove : ∀ c ∈ rest, c.getHeight ≠ b.getHeight := by
        cases rest with
        | nil => exact nofun
        | cons next rest =>
          obtain ⟨hfollows, hchain⟩ := List.isChain_cons_cons.mp hchain
          intro c hc
          have h1 := ((height_mem_branch hchain).2 c hc).1
          have h2 := hfollows.1
          omega
      rw [connectBranch_heights rest _ habove]
      obtain ⟨_, _, _, _, heq, _⟩ := connectBlock_eq s b
      rw [heq]
      show (s.heights.insert b.getHeight b.getHash.val)[b.getHeight]? = some b.getHash.val
      rw [Bucket.get_insert, if_pos rfl]
    · cases rest with
      | nil => cases hb
      | cons next rest => exact ih (List.isChain_cons_cons.mp hchain).2 _ b hb

/-- After a switch every block of the branch stands in the index. -/
theorem switchToBranch_index {branch : List FullBlock} (h : s.switchToBranch branch = .ok s') :
    ∀ b ∈ branch, s'.heights[b.getHeight]? = some b.getHash.val := by
  cases branch with
  | nil => exact nofun
  | cons first rest =>
    rw [switchToBranch] at h
    obtain ⟨_, hchain, h⟩ := bind_eq_ok.mp h
    obtain ⟨_, _, h⟩ := bind_eq_ok.mp h
    obtain ⟨t, _, h⟩ := bind_eq_ok.mp h
    obtain rfl := pure_eq_ok.mp h
    have hchain := ensure_eq_ok.mp hchain
    intro b hb
    have hle := ((height_mem_branch hchain).2 b hb).2
    show (List.foldl (fun m h => m.erase h) ((first :: rest).foldl connectBlock t).heights _)[b.getHeight]? = _
    rw [Bucket.get_foldl_erase, if_neg (by rw [List.mem_range'_1]; omega)]
    exact connectBranch_index hchain t b hb

/-! ## §5 — side blocks and branches -/

omit [Crypto] in
theorem pruneSideBlocks_heights (below : Nat) (s : BlockStore) :
    (s.pruneSideBlocks below).heights = s.heights := by
  obtain ⟨_, _, _, heq⟩ := dropSideBlocks_eq (s.sideVictims below) s
  unfold BlockStore.pruneSideBlocks
  rw [heq]

omit [Crypto] in
theorem maintain_heights {S : Type} (L : Ledger S) (b : FullBlock) (s : BlockStore) :
    (L.maintain b s).heights = s.heights := by
  unfold Ledger.maintain
  split
  · rw [pruneSideBlocks_heights]
    split <;> rfl
  · rfl

/-- The walk back to the canonical chain passes stored blocks that are not canonical. -/
theorem branchWalk_mem {fuel : Nat} {cur : FullBlock} {acc branch : List FullBlock}
    (h : s.branchWalk fuel cur acc = .ok branch) (hcur : ∃ hash : Bytes, s.blocks[hash]? = some cur) :
    ∀ b ∈ branch, b ∈ acc ∨ (∃ hash : Bytes, s.blocks[hash]? = some b) ∧ s.isCanonical b = false := by
  induction fuel generalizing cur acc with
  | zero => cases h
  | succ fuel ih =>
    rw [branchWalk] at h
    cases hcanonical : s.isCanonical cur with
    | true =>
      rw [if_pos hcanonical] at h
      cases h
      exact fun b hb => .inl hb
    | false =>
      rw [if_neg (by simp [hcanonical])] at h
      intro b hb
      have hhere : b ∈ cur :: acc →
          b ∈ acc ∨ (∃ hash : Bytes, s.blocks[hash]? = some b) ∧ s.isCanonical b = false := by
        intro hmem
        rcases List.mem_cons.mp hmem with rfl | hmem
        · exact .inr ⟨hcur, hcanonical⟩
        · exact .inl hmem
      split at h
      · obtain ⟨_, _, h⟩ := bind_eq_ok.mp h
        obtain rfl := pure_eq_ok.mp h
        exact hhere hb
      · obtain ⟨parent, hparent, h⟩ := bind_eq_ok.mp h
        rcases ih h ⟨_, getBlockByHash_eq_ok.mp hparent⟩ b hb with hmem | hside
        · exact hhere hmem
        · exact .inr hside

theorem collectBranch_mem {b : FullBlock} {branch : List FullBlock} (h : s.collectBranch b = .ok branch)
    (hb : ∃ hash : Bytes, s.blocks[hash]? = some b) :
    ∀ c ∈ branch, (∃ hash : Bytes, s.blocks[hash]? = some c) ∧ s.isCanonical c = false := by
  intro c hc
  rcases branchWalk_mem h hb c hc with hmem | hside
  · cases hmem
  · exact hside

theorem branchWalk_getLast {fuel : Nat} {cur last : FullBlock} {acc branch : List FullBlock}
    (h : s.branchWalk fuel cur acc = .ok branch) (hacc : acc.getLast? = some last) :
    branch.getLast? = some last := by
  induction fuel generalizing cur acc with
  | zero => cases h
  | succ fuel ih =>
    have hcons : (cur :: acc).getLast? = some last := by
      rw [List.getLast?_cons, hacc]
      rfl
    rw [branchWalk] at h
    split at h
    · cases h
      exact hacc
    · split at h
      · obtain ⟨_, _, h⟩ := bind_eq_ok.mp h
        obtain rfl := pure_eq_ok.mp h
        exact hcons
      · obtain ⟨parent, _, h⟩ := bind_eq_ok.mp h
        exact ih h hcons

theorem collectBranch_getLast {b first : FullBlock} {rest : List FullBlock}
    (h : s.collectBranch b = .ok (first :: rest)) : rest.getLastD first = b := by
  unfold collectBranch at h
  rw [branchWalk] at h
  split at h
  · cases h
  · have hlast : (first :: rest).getLast? = some b := by
      split at h
      · obtain ⟨_, _, h⟩ := bind_eq_ok.mp h
        obtain ⟨rfl, rfl⟩ := List.cons.inj (pure_eq_ok.mp h)
        rfl
      · obtain ⟨parent, _, h⟩ := bind_eq_ok.mp h
        exact branchWalk_getLast h rfl
    rw [List.getLast?_cons] at hlast
    rw [List.getLastD_eq_getLast?]
    exact Option.some_injective _ hlast

/-- A stored block that is not canonical stands above the origin. -/
theorem Spine.above_origin (h : Spine H s tip) {hash : Bytes} {b : FullBlock}
    (hb : s.blocks[hash]? = some b) (hside : s.isCanonical b = false) :
    s.originHeight < b.getHeight := by
  rcases h.rooted hash b hb with rfl | hlt
  · rw [isCanonical, h.origin_height hb, h.originAt, h.keyed _ _ hb] at hside
    simp at hside
  · exact hlt

section Distinct

variable (hinj : Set.InjOn BlockHeader.getHash H)
include hinj

theorem Sound.putSideBlock (h : Sound H s tip) {b : FullBlock} (hb : b.header ∈ H)
    (habove : s.originHeight < b.getHeight) :
    ∃ tip', tip'.header = tip.header ∧ Sound H (s.putSideBlock b) tip' := by
  obtain ⟨tip', hheader, hspine⟩ := h.toSpine.putSideBlock hinj hb habove
  have hheight : tip'.getHeight = tip.getHeight := congrArg BlockHeader.height hheader
  refine ⟨tip', hheader, hspine, ?_, ?_, ?_⟩
  · exact h.latestHeight.trans hheight.symm
  · exact h.latestHash.trans (congrArg (fun x => (BlockHeader.getHash x).val) hheader.symm)
  · exact fun k hk => h.above k (hheight ▸ hk)

end Distinct
end Ops
end BlockStore

end NgCore
