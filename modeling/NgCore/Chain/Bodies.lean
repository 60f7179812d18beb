/-
# NgCore.Chain.Bodies — when a stored canonical body changes

The side path stores a block under its header hash before it asks anything about that hash. A block with the
header of a canonical block and ANOTHER body — the header commits to transaction ids and envelopes, not to
salts — passes `checkBranchBlock` against the canonical parent, overwrites the canonical body and loses fork
choice. `bodies_immutable_iff` says that nothing else ever changes the body of a block that stays canonical.
-/
import NgCore.Chain.Paths

namespace NgCore

open Lib (Bucket)
open BlockStore (Sound Tallied)

/-- The bytes stored under a hash. -/
def BlockStore.stored (s : BlockStore) (hash : Bytes) : Option Bytes := (s.blocks[hash]?).map FullBlock.raw

/-- **`BlockStore.Immutable s s'`** — every block canonical before and after has the same stored bytes. -/
def BlockStore.Immutable (s s' : BlockStore) : Prop :=
  ∀ (k : Nat) (hash : Bytes), s.heights[k]? = some hash → s'.heights[k]? = some hash → s'.stored hash = s.stored hash

section Calls

variable [Crypto]

/-- **`BlockStore.Overwritten now block s`** — the block has the header of a canonical block, other bytes, and
passes the checks of a side block. -/
def BlockStore.Overwritten (now : Nat) (block : FullBlock) (s : BlockStore) : Prop :=
  s.isCanonical block = true ∧ s.stored block.getHash.val ≠ some block.raw ∧
    ∃ prev, s.blocks[block.getPrevHash]? = some prev ∧
      checkBranchBlock now s.getBlockByHash block prev = .ok ()

namespace Node

variable {S : Type} {L : Ledger S} {now : Nat} {H : Set BlockHeader} {origin : BlockHeader}
  {n n' : Node S} {tip block : FullBlock}

theorem canonical_body {s : BlockStore} (hs : Sound H s tip) {k : Nat} {hash : Bytes}
    (horigin : s.originHeight ≤ k) (hk : s.heights[k]? = some hash) :
    k ≤ tip.getHeight ∧
      ∃ c : FullBlock, c.getHash.val = hash ∧ s.blocks[hash]? = some c ∧ c.getHeight = k := by
  have hle : k ≤ tip.getHeight := by
    by_contra hgt
    rw [hs.above k (by omega)] at hk
    cases hk
  obtain ⟨c, hc, hbody, hheight, _⟩ := hs.canonical k horigin hle
  have hhash : c.getHash.val = hash := Option.some_injective _ (hc.symm.trans hk)
  exact ⟨hle, c, hhash, hhash ▸ hbody, hheight⟩

section Distinct

variable (hinj : Set.InjOn BlockHeader.getHash H)
include hinj

theorem extendTip_immutable (hs : Sound H n.store tip) (hzero : n.store.originHeight = 0)
    (hb : block.header ∈ H) (hprev : block.getPrevHash = n.store.latestHash)
    (hok : extendTip L now block n = .ok n') : n.store.Immutable n'.store := by
  obtain ⟨_, store, work, store', hput, hwork, _, hstore⟩ := extendTip_eq_ok hok
  obtain ⟨hfollows, hsound⟩ := hs.putNewBlock hinj hb hprev hput
  obtain ⟨_, _, hindex⟩ := extendTip_sound hinj hs hb hprev hok
  have hheight := hfollows.1
  intro k hash hk hk'
  obtain ⟨hle, c, rfl, hbody, rfl⟩ := canonical_body hs (by omega) hk
  -- the new block stands above every canonical one, so under another hash
  have hne : block.getHash.val ≠ c.getHash.val := by
    intro heq
    have : block.getHeight = c.getHeight :=
      congrArg BlockHeader.height (hs.header_eq hinj hbody hb heq)
    omega
  have hre := BlockStore.cumulativeWork_reindexed hwork
  have hsound' := hsound.reindexed hre
  rw [hstore, BlockStore.maintain_heights] at hk'
  refine congrArg (Option.map FullBlock.raw) ?_
  rw [hstore, hbody]
  apply hsound'.maintain_body L block hk'
  obtain ⟨_, _, hput⟩ := bind_eq_ok.mp hput
  obtain rfl := pure_eq_ok.mp hput
  obtain ⟨_, _, _, _, heq⟩ := BlockStore.putTxs_reindexed block (n.store.putBlock block)
  obtain ⟨_, _, _, _, rfl⟩ := hre
  show ((n.store.putBlock block).putTxs block).blocks[c.getHash.val]? = some c
  rw [heq]
  show (n.store.blocks.insert block.getHash.val block)[c.getHash.val]? = some c
  rw [Bucket.get_insert, if_neg hne, hbody]

/-- The side path changes the body under the block's own hash only, as long as that block stays canonical. -/
theorem importSide_body (hs : Sound H n.store tip) (hzero : n.store.originHeight = 0)
    (hb : block.header ∈ H) (hok : importSide L now block n = .ok n') {k : Nat} {hash : Bytes}
    (hk : n.store.heights[k]? = some hash) (hk' : n'.store.heights[k]? = some hash) :
    n'.store.blocks[hash]? = (n.store.putSideBlock block).blocks[hash]? := by
  obtain ⟨prev, blockWork, tip', tipWork, store, hw, hcase⟩ := importSide_eq_ok hok
  obtain ⟨_, hsound, hheights, horigin, hstored⟩ := hw.sound hinj hs hb
  have hblocks : store.blocks = (n.store.putSideBlock block).blocks := by
    obtain ⟨_, _, middle, hwork, _, htipWork⟩ := hw
    obtain ⟨_, _, _, _, rfl⟩ := (BlockStore.cumulativeWork_reindexed hwork).trans
      (BlockStore.cumulativeWork_reindexed htipWork)
    rfl
  rcases hcase with ⟨_, rfl⟩ | ⟨_, first, rest, hbranch, _, hswitch⟩
  · rw [hblocks]
  · rw [← hblocks]
    rw [← hheights] at hk
    obtain ⟨_, c, rfl, hbody, rfl⟩ := canonical_body hsound (by omega) hk
    have hmem := BlockStore.collectBranch_mem hbranch ⟨_, hstored⟩
    -- no block of the branch has the hash of a canonical block
    have hne : ∀ b ∈ first :: rest, b.getHash.val ≠ c.getHash.val := by
      intro b hbmem heq
      obtain ⟨⟨hash, hb'⟩, hside⟩ := hmem b hbmem
      have hheader := hsound.header_eq hinj hbody (hsound.headers hash b hb') heq
      have hheight : b.getHeight = c.getHeight := congrArg BlockHeader.height hheader
      rw [BlockStore.isCanonical, hheight, hk, heq] at hside
      simp at hside
    have habove : ∀ b ∈ first :: rest, b.header ∈ H ∧ store.originHeight < b.getHeight := by
      intro b hbmem
      obtain ⟨⟨hash, hb'⟩, hside⟩ := hmem b hbmem
      exact ⟨hsound.headers hash b hb', hsound.above_origin hb' hside⟩
    obtain ⟨first', rest', store', hcons, hput, hstore', _⟩ := switchToBranchTxn_eq_ok hswitch
    obtain ⟨_, _, _, hsound', _⟩ := hsound.switchToBranch hinj habove hput
    have hkept : store'.blocks[c.getHash.val]? = some c :=
      (BlockStore.switchToBranch_blocks hput hne).trans hbody
    rw [hstore', BlockStore.maintain_heights] at hk'
    rw [hstore', hbody]
    exact hsound'.maintain_body L _ hk' hkept

/-- A side block with a canonical header loses fork choice: it weighs what that block weighs. -/
theorem not_beats_of_canonical {s s' : BlockStore} {prev tip' : FullBlock} {blockWork tipWork : Nat}
    (hw : Weighed now block s prev blockWork tip' tipWork s') (ht : Tallied H origin s)
    (hs : Sound H s tip) (hb : block.header ∈ H) (hcanonical : s.isCanonical block = true) :
    ¬ BlockStore.Beats blockWork block.getHash tipWork tip'.getHash := by
  obtain ⟨ht', hwb, hwt, _⟩ := hw.tallied hinj ht hs hb
  obtain ⟨_, hsound, hheights, _, hstored⟩ := hw.sound hinj hs hb
  have hindex : s'.heights[block.getHeight]? = some block.getHash.val := by
    rw [hheights]
    exact of_decide_eq_true hcanonical
  have htop : s'.isCanonical tip' = true := decide_eq_true hsound.top
  have hle : block.getHeight ≤ tip'.getHeight := by
    by_contra hgt
    rw [hsound.above _ (by omega)] at hindex
    cases hindex
  rcases Nat.lt_or_ge block.getHeight tip'.getHeight with hlt | hge
  · -- below the tip: strictly lighter
    have hlighter := canonical_lighter hinj ht' hsound (decide_eq_true hindex) hstored htop
      hsound.tipBody hlt le_rfl hwb hwt
    rintro (hheavier | ⟨heq, _⟩) <;> omega
  · -- the tip itself: equal work, equal hash
    have hsame : block.getHash = tip'.getHash := by
      rw [show block.getHeight = tip'.getHeight by omega, hsound.top] at hindex
      exact Subtype.ext (Option.some_injective _ hindex).symm
    have hheader : block.header = tip'.header := hinj hb (hsound.headers _ _ hsound.tipBody) hsame
    rw [hheader] at hwb
    have hwork := hwb.unique (BlockHeader.injOn_key hinj) hwt
    rintro (hheavier | ⟨_, hless⟩)
    · omega
    · have hself : compare tip'.getHash tip'.getHash = .eq := Std.ReflOrd.compare_self
      rw [hsame, hself] at hless
      cases hless

/-- **An overwrite goes through.** -/
theorem importSide_overwrites (ht : Tallied H origin n.store) (hs : Sound H n.store tip)
    (hb : block.header ∈ H) (hover : n.store.Overwritten now block) :
    block.getPrevHash ≠ n.store.latestHash ∧ ∃ store, importSide L now block n = .ok ⟨store, n.state⟩ ∧
      store.heights = n.store.heights ∧ store.blocks[block.getHash.val]? = some block := by
  obtain ⟨hcanonical, _, prev, hprev, hcheck⟩ := hover
  have hindex : n.store.heights[block.getHeight]? = some block.getHash.val := of_decide_eq_true hcanonical
  have hle : block.getHeight ≤ tip.getHeight := by
    by_contra hgt
    rw [hs.above _ (by omega)] at hindex
    cases hindex
  have hfollows : Follows prev block := by
    obtain ⟨_, _, h⟩ := bind_eq_ok.mp hcheck
    obtain ⟨_, h, _⟩ := bind_eq_ok.mp h
    exact ensure_eq_ok.mp h
  have hheight := hfollows.1
  have horigin := hs.origin_le hprev
  refine ⟨?_, ?_⟩
  · intro hlatest
    rw [hlatest, hs.latestHash, hs.tipBody] at hprev
    obtain rfl := Option.some_injective _ hprev
    omega
  · -- both works are found, the block and the tip being canonical
    obtain ⟨top, _, hsound⟩ := hs.putSideBlock hinj hb (by omega)
    have hbody : (n.store.putSideBlock block).blocks[block.getHash.val]? = some block := by
      show (n.store.blocks.insert block.getHash.val block)[block.getHash.val]? = some block
      rw [Bucket.get_insert, if_pos rfl]
    have hle' : block.getHeight ≤ top.getHeight := by
      by_contra hgt
      have := hsound.above block.getHeight (by omega)
      rw [show (n.store.putSideBlock block).heights = n.store.heights from rfl, hindex] at this
      cases this
    obtain ⟨blockWork, store, hwork⟩ :=
      BlockStore.cumulativeWork_total hsound.toSpine hle' hcanonical hbody
    have hsound' := hsound.reindexed (BlockStore.cumulativeWork_reindexed hwork)
    have hlatest : store.getLatestBlock = .ok top :=
      BlockStore.getBlockByHash_eq_ok.mpr (by rw [hsound'.latestHash]; exact hsound'.tipBody)
    obtain ⟨tipWork, store', htipWork⟩ := BlockStore.cumulativeWork_total hsound'.toSpine le_rfl
      (decide_eq_true hsound'.top) hsound'.tipBody
    have hw : Weighed now block n.store prev blockWork top tipWork store' :=
      ⟨hprev, hcheck, store, hwork, hlatest, htipWork⟩
    obtain ⟨_, _, hheights, _, hstored⟩ := hw.sound hinj hs hb
    refine ⟨store', ?_, hheights, hstored⟩
    unfold importSide
    refine bind_eq_ok.mpr ⟨prev, sideParent_eq_ok.mpr hprev, bind_eq_ok.mpr ⟨(), hcheck, ?_⟩⟩
    refine bind_eq_ok.mpr ⟨(blockWork, store), hwork, bind_eq_ok.mpr ⟨top, hlatest, ?_⟩⟩
    refine bind_eq_ok.mpr ⟨(tipWork, store'), htipWork, ?_⟩
    exact if_neg (not_beats_of_canonical hinj hw ht hs hb hcanonical)

end Distinct
end Node
end Calls

section Reach

variable [Engine] {cfg : Config} {H : Set BlockHeader} {n : Node State} {block : FullBlock} {now : Nat}

/-- **Canonical bodies are immutable** under a call of `ApplyBlock`, successful or not, except when the block
has the header of a canonical block, other bytes, and passes the checks of a side block. -/
theorem Node.bodies_immutable_iff (hinj : Set.InjOn BlockHeader.getHash (genesisHeaders ∪ H))
    (hr : Node.Reachable cfg H n) (hb : block.header ∈ H) :
    n.store.Immutable (n.update (n.applyBlock (ledger cfg) now block)).store ↔
      ¬ n.store.Overwritten now block := by
  obtain ⟨tip, origin, hs, ht, horigin⟩ := hr.tallied hinj
  have hb' : block.header ∈ genesisHeaders ∪ H := .inr hb
  have hzero : n.store.originHeight = 0 := (Node.originHeight_eq hinj ht hs).trans horigin
  constructor
  · intro himm hover
    obtain ⟨hprev, store, hok, hheights, hstored⟩ :=
      Node.importSide_overwrites (L := ledger cfg) hinj ht hs hb' hover
    obtain ⟨hcanonical, hne, _⟩ := hover
    have hindex : n.store.heights[block.getHeight]? = some block.getHash.val :=
      of_decide_eq_true hcanonical
    have hupdate : n.update (n.applyBlock (ledger cfg) now block) = ⟨store, n.state⟩ := by
      unfold Node.applyBlock
      rw [if_neg hprev, hok]
      rfl
    rw [hupdate] at himm
    have hsame := himm _ _ hindex (by rw [hheights]; exact hindex)
    exact hne (hsame.symm.trans (congrArg (Option.map FullBlock.raw) hstored))
  · intro hnot
    cases hok : n.applyBlock (ledger cfg) now block with
    | error e => exact fun k hash _ _ => rfl
    | ok n' =>
      show n.store.Immutable n'.store
      unfold Node.applyBlock at hok
      split at hok
      · next hprev => exact Node.extendTip_immutable hinj hs hzero hb' hprev hok
      · intro k hash hk hk'
        unfold BlockStore.stored
        rw [Node.importSide_body hinj hs hzero hb' hok hk hk']
        show ((n.store.blocks.insert block.getHash.val block)[hash]?).map _ = _
        rw [Bucket.get_insert]
        split
        · next heq =>
          -- the block has a canonical header, so its bytes are what is stored there
          obtain ⟨_, c, rfl, hbody, rfl⟩ := Node.canonical_body hs (by omega) hk
          have hheight : block.getHeight = c.getHeight :=
            congrArg BlockHeader.height (hs.header_eq hinj hbody hb' heq)
          obtain ⟨prev, _, _, _, _, hw, _⟩ := Node.importSide_eq_ok hok
          by_contra hne
          refine hnot ⟨decide_eq_true ?_, ?_, prev, hw.parent, hw.checked⟩
          · rw [hheight, heq]
            exact hk
          · rw [heq]
            exact fun h => hne h.symm
        · rfl

end Reach

/-! ## §3 — one header, two bodies -/

/-- The first block of a miner, and its twin: the same header over a salted mint. -/
def handTwin [Crypto] : FullBlock :=
  let block := handSeal handGenesis 1 [] []
  { block with txs := block.txs.map fun tx => { tx with salt? := some [1] } }

/-- Delivering the tip's own successor leaves every canonical body. -/
theorem Node.bodies_immutable_handChain :
    letI := Engine.bare
    ∃ n : Node State, n.store.latestHeight = 1 ∧
      (n.store.Immutable (n.update (n.applyBlock (ledger ⟨ZERONET, true⟩) handNow
          (handSeal (handSeal handGenesis 1 [] []) 1 [] []))).store ↔
        ¬ n.store.Overwritten handNow (handSeal (handSeal handGenesis 1 [] []) 1 [] [])) := by
  let _ := Engine.bare
  let block := handSeal handGenesis 1 [] []
  obtain ⟨n, hr, _, htest⟩ := exists_reachable_byHand (fun _ => none) true [block] [handSeal block 1 [] []]
    (fun n => n.store.latestHeight = 1) (by decide +kernel)
  have hinj : Set.InjOn BlockHeader.getHash
      (genesisHeaders ∪ {x | x ∈ ([block] ++ [handSeal block 1 [] []]).map FullBlock.header}) :=
    injOn_byHand _ (by decide +kernel)
  have hmem : handSeal block 1 [] [] ∈ [block] ++ [handSeal block 1 [] []] :=
    List.mem_cons_of_mem _ (List.mem_singleton_self _)
  exact ⟨n, of_decide_eq_true htest, Node.bodies_immutable_iff hinj hr (List.mem_map_of_mem hmem)⟩

/-- **A canonical body is overwritten**: after the first block, its twin is accepted, the index is as before,
and the stored bytes are not. -/
theorem Node.bodies_mutable_handTwin :
    letI := Engine.bare
    ∃ n : Node State,
      Set.InjOn BlockHeader.getHash (genesisHeaders ∪ {x | x ∈ [handTwin.header]}) ∧
      Node.Reachable ⟨ZERONET, true⟩ {x | x ∈ [handTwin.header]} n ∧
      ¬ n.store.Immutable (n.update (n.applyBlock (ledger ⟨ZERONET, true⟩) handNow handTwin)).store := by
  let _ := Engine.bare
  let block := handSeal handGenesis 1 [] []
  obtain ⟨n, hr, hs, htest⟩ := exists_reachable_byHand (fun _ => none) true [block] []
    (fun n => okAnd (n.applyBlock (handLedger ⟨ZERONET, true⟩) handNow handTwin) fun n' =>
      n.store.heights[1]? = some handTwin.getHash.val ∧ n'.store.heights[1]? = some handTwin.getHash.val ∧
        n'.store.stored handTwin.getHash.val ≠ n.store.stored handTwin.getHash.val)
    (by decide +kernel)
  obtain ⟨n', hok, htest⟩ := exists_of_okAnd htest
  obtain ⟨hbefore, hafter, hchanged⟩ := of_decide_eq_true htest
  refine ⟨n, injOn_byHand _ (by decide +kernel), hr, fun himm => ?_⟩
  have heq := ((handLedger_agrees (fun _ => none) ⟨ZERONET, true⟩).applyBlock handNow handTwin hs).1
  rw [heq, hok] at himm
  exact hchanged (himm 1 _ hbefore hafter)

end NgCore
