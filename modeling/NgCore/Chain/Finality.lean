/-
# NgCore.Chain.Finality — what calls keep, and what they never undo

Every import call keeps the block store well formed; a run of `ApplyBlock` calls moves the finality line
up only, and never touches the index at or below it.

The reorg guard compares the fork point with the line of the CURRENT tip, and the winning branch may be
shorter than the chain it replaces. The line still cannot fall: it is a multiple of the checkpoint round, and
the new tip is strictly above a fork point that is at or above it.
-/
import NgCore.Chain.Handmade
import NgCore.Chain.WellFormed

namespace NgCore

open Lib (Bucket)
open BlockStore (Sound)

theorem finalityHeight_le (h : Nat) : finalityHeight h ≤ h := by
  unfold finalityHeight
  split
  · omega
  · have := Nat.div_mul_le_self (h - 1) blockCheckRound
    omega

theorem finalityHeight_mono {h h' : Nat} (hle : h ≤ h') : finalityHeight h ≤ finalityHeight h' := by
  unfold finalityHeight
  split
  · omega
  · rw [if_neg (by omega)]
    exact Nat.mul_le_mul_right _ (Nat.div_le_div_right (by omega))

/-- A tip strictly above a finality line has at least that line. -/
theorem finalityHeight_le_of_lt {h h' : Nat} (hlt : finalityHeight h < h') :
    finalityHeight h ≤ finalityHeight h' := by
  have hround : blockCheckRound = 10 := rfl
  unfold finalityHeight at *
  split at hlt
  · rw [if_pos (by assumption)]
    omega
  · rw [if_neg (by assumption), if_neg (by omega)]
    rw [hround] at *
    omega

/-! ## §1 — calls -/

namespace Node

open BlockStore

variable [Crypto] {S : Type} {L : Ledger S} {now : Nat} {H : Set BlockHeader} {n n' : Node S}
  {tip block : FullBlock} {branch : List FullBlock}

section Distinct

variable (hinj : Set.InjOn BlockHeader.getHash H)
include hinj

/-- **The fast path** moves the tip up by one block and leaves the index below alone. -/
theorem extendTip_sound (h : Sound H n.store tip) (hb : block.header ∈ H)
    (hprev : block.getPrevHash = n.store.latestHash) (hok : extendTip L now block n = .ok n') :
    Follows tip block ∧ Sound H n'.store block ∧
      ∀ k, k ≤ tip.getHeight → n'.store.heights[k]? = n.store.heights[k]? := by
  obtain ⟨_, store, work, store', hput, hwork, _, hstore⟩ := extendTip_eq_ok hok
  obtain ⟨hfollows, hsound⟩ := h.putNewBlock hinj hb hprev hput
  have hre := cumulativeWork_reindexed hwork
  refine ⟨hfollows, hstore ▸ (hsound.reindexed hre).maintain L block, fun k hk => ?_⟩
  obtain ⟨_, _, hput⟩ := bind_eq_ok.mp hput
  obtain rfl := pure_eq_ok.mp hput
  obtain ⟨_, _, _, _, heq⟩ := (putTxs_reindexed block (n.store.putBlock block))
  obtain ⟨_, _, _, _, heq'⟩ := hre
  rw [hstore, maintain_heights, heq']
  show ((n.store.putBlock block).putTxs block).heights[k]? = n.store.heights[k]?
  rw [heq]
  show (n.store.heights.insert block.getHeight block.getHash.val)[k]? = n.store.heights[k]?
  rw [Bucket.get_insert, if_neg (by have := hfollows.1; omega)]

/-- What the side path stores is sound, whatever fork choice decides. -/
theorem Weighed.sound {s s' : BlockStore} {prev tip' : FullBlock} {blockWork tipWork : Nat}
    (hw : Weighed now block s prev blockWork tip' tipWork s') (h : Sound H s tip) (hb : block.header ∈ H) :
    tip'.header = tip.header ∧ Sound H s' tip' ∧ s'.heights = s.heights ∧
      s'.originHeight = s.originHeight ∧ s'.blocks[block.getHash.val]? = some block := by
  obtain ⟨hparent, hcheck, store, hwork, htip, htipWork⟩ := hw
  obtain ⟨_, _, hcheck⟩ := bind_eq_ok.mp hcheck
  obtain ⟨_, hfollows, _⟩ := bind_eq_ok.mp hcheck
  have hfollows := ensure_eq_ok.mp hfollows
  have habove : s.originHeight < block.getHeight := by
    have hle := h.origin_le hparent
    have := hfollows.1
    omega
  obtain ⟨top, hheader, hsound⟩ := h.putSideBlock hinj hb habove
  have hre := cumulativeWork_reindexed hwork
  have hsound := hsound.reindexed hre
  obtain rfl := hsound.getLatestBlock htip
  have hre' := hre.trans (cumulativeWork_reindexed htipWork)
  refine ⟨hheader, hsound.reindexed (cumulativeWork_reindexed htipWork), ?_⟩
  obtain ⟨_, _, _, _, rfl⟩ := hre'
  refine ⟨rfl, rfl, ?_⟩
  show (s.blocks.insert block.getHash.val block)[block.getHash.val]? = some block
  rw [Bucket.get_insert, if_pos rfl]

/-- A switch moves the tip to the end of the branch and leaves the index below the branch alone. -/
theorem switchToBranchTxn_sound (h : Sound H n.store tip)
    (hb : ∀ b ∈ branch, b.header ∈ H ∧ n.store.originHeight < b.getHeight)
    (hok : switchToBranchTxn L branch n = .ok n') :
    ∃ first rest, branch = first :: rest ∧ Sound H n'.store (rest.getLastD first) ∧
      first.getHeight ≤ (rest.getLastD first).getHeight ∧
      ∀ k, k < first.getHeight → n'.store.heights[k]? = n.store.heights[k]? := by
  obtain ⟨first, rest, store, rfl, hswitch, hstore, _⟩ := switchToBranchTxn_eq_ok hok
  obtain ⟨first', rest', heq, hsound, hle, hindex⟩ := h.switchToBranch hinj hb hswitch
  obtain ⟨rfl, rfl⟩ := List.cons.inj heq
  refine ⟨first, rest, rfl, hstore ▸ hsound.maintain L _, hle, fun k hk => ?_⟩
  rw [hstore, maintain_heights]
  exact hindex k hk

/-- **The side path** keeps the tip's header, or moves the tip to the end of a branch that forks off at or
above the finality line. -/
theorem importSide_sound (h : Sound H n.store tip) (hb : block.header ∈ H)
    (hok : importSide L now block n = .ok n') :
    (∃ tip', tip'.header = tip.header ∧ Sound H n'.store tip' ∧ n'.store.heights = n.store.heights) ∨
      ∃ (first : FullBlock) (rest : List FullBlock), Sound H n'.store (rest.getLastD first) ∧
        finalityHeight tip.getHeight < first.getHeight ∧
        first.getHeight ≤ (rest.getLastD first).getHeight ∧
        ∀ k, k < first.getHeight → n'.store.heights[k]? = n.store.heights[k]? := by
  obtain ⟨prev, blockWork, tip', tipWork, store, hw, hcase⟩ := importSide_eq_ok hok
  obtain ⟨hheader, hsound, hheights, horigin, hbody⟩ := hw.sound hinj h hb
  rcases hcase with ⟨_, rfl⟩ | ⟨_, first, rest, hbranch, hfinal, hswitch⟩
  · exact .inl ⟨tip', hheader, hsound, hheights⟩
  · have hmem := collectBranch_mem hbranch ⟨_, hbody⟩
    have habove : ∀ b ∈ first :: rest, b.header ∈ H ∧ store.originHeight < b.getHeight := by
      intro b hb
      obtain ⟨⟨hash, hstored⟩, hside⟩ := hmem b hb
      exact ⟨hsound.headers hash b hstored, hsound.above_origin hstored hside⟩
    obtain ⟨first', rest', heq, hsound', hle, hindex⟩ := switchToBranchTxn_sound hinj hsound habove hswitch
    obtain ⟨rfl, rfl⟩ := List.cons.inj heq
    refine .inr ⟨first, rest, hsound', ?_, hle, fun k hk => (hindex k hk).trans (by rw [hheights])⟩
    have hfirst := (habove first List.mem_cons_self).2
    rw [pred64_of_pos (by omega), show tip'.getHeight = tip.getHeight from
      congrArg BlockHeader.height hheader] at hfinal
    omega

omit hinj in
/-- Every block of a checked branch is above the parent it hangs on. -/
theorem checkBranch_above {getBlock : Bytes → Except Err FullBlock} {prev : FullBlock} {l : List FullBlock}
    (hl : checkBranch now getBlock prev l = .ok ()) : ∀ b ∈ l, prev.getHeight < b.getHeight := by
  induction l generalizing prev with
  | nil => exact fun b hb => absurd hb List.not_mem_nil
  | cons c l ih =>
    intro b hmem
    obtain ⟨_, hc, hl⟩ := bind_eq_ok.mp hl
    obtain ⟨_, _, hc⟩ := bind_eq_ok.mp hc
    obtain ⟨_, hfollows, _⟩ := bind_eq_ok.mp hc
    have hfollows := (ensure_eq_ok.mp hfollows).1
    rcases List.mem_cons.mp hmem with rfl | hmem
    · omega
    · have := ih hl b hmem
      omega

/-- **The converging path** ends at the last block of the branch; below the branch the index is untouched. -/
theorem switchToBranch_settles (h : Sound H n.store tip) (hb : ∀ b ∈ branch, b.header ∈ H)
    (hok : switchToBranch L now branch n = .ok n') :
    ∃ first rest, branch = first :: rest ∧ Sound H n'.store (rest.getLastD first) ∧
      (∀ b ∈ branch, n'.store.heights[b.getHeight]? = some b.getHash.val) ∧
      ∀ k, k < first.getHeight → n'.store.heights[k]? = n.store.heights[k]? := by
  obtain ⟨first, rest, forkParent, base, tip', tipWork, store, store', rfl, hparent, hcheck, hbase, _,
    htipWork, _, hswitch⟩ := switchToBranch_eq_ok hok
  have hre := (cumulativeWork_reindexed hbase).trans (cumulativeWork_reindexed htipWork)
  have hsound := h.reindexed hre
  have hle := h.origin_le hparent
  have habove : ∀ b ∈ first :: rest, b.header ∈ H ∧ store'.originHeight < b.getHeight := by
    intro b hmem
    refine ⟨hb b hmem, ?_⟩
    have := checkBranch_above hcheck b hmem
    obtain ⟨_, _, _, _, rfl⟩ := hre
    show n.store.originHeight < b.getHeight
    omega
  obtain ⟨first', rest', heq, hsound', _, hindex⟩ := switchToBranchTxn_sound hinj hsound habove hswitch
  obtain ⟨rfl, rfl⟩ := List.cons.inj heq
  refine ⟨first, rest, rfl, hsound', ?_, ?_⟩
  · obtain ⟨first', rest', store'', _, hput, hstore, _⟩ := switchToBranchTxn_eq_ok hswitch
    intro b hmem
    rw [hstore, maintain_heights]
    exact switchToBranch_index hput b hmem
  · intro k hk
    rw [hindex k hk]
    obtain ⟨_, _, _, _, rfl⟩ := hre
    rfl

theorem switchToBranch_sound (h : Sound H n.store tip) (hb : ∀ b ∈ branch, b.header ∈ H)
    (hok : switchToBranch L now branch n = .ok n') : ∃ tip', Sound H n'.store tip' := by
  obtain ⟨first, rest, _, hsound, _⟩ := switchToBranch_settles hinj h hb hok
  exact ⟨_, hsound⟩

theorem update_applyBlock_sound (h : Sound H n.store tip) (hb : block.header ∈ H) :
    ∃ tip', Sound H (n.update (n.applyBlock L now block)).store tip' ∧
      finalityHeight tip.getHeight ≤ finalityHeight tip'.getHeight ∧
      ∀ k, k ≤ finalityHeight tip.getHeight →
        (n.update (n.applyBlock L now block)).store.heights[k]? = n.store.heights[k]? := by
  cases hok : n.applyBlock L now block with
  | error e => exact ⟨tip, h, le_rfl, fun k _ => rfl⟩
  | ok n' =>
    show ∃ tip', Sound H n'.store tip' ∧ _ ∧ ∀ k, _ → n'.store.heights[k]? = n.store.heights[k]?
    unfold applyBlock at hok
    split at hok
    · next hprev =>
      obtain ⟨hfollows, hsound, hindex⟩ := extendTip_sound hinj h hb hprev hok
      have hstep := hfollows.1
      refine ⟨block, hsound, finalityHeight_mono (by omega), fun k hk => hindex k ?_⟩
      exact hk.trans (finalityHeight_le _)
    · rcases importSide_sound hinj h hb hok with ⟨tip', hheader, hsound, hheights⟩ |
        ⟨first, rest, hsound, hfinal, hle, hindex⟩
      · have hheight : tip'.getHeight = tip.getHeight := congrArg BlockHeader.height hheader
        exact ⟨tip', hsound, by rw [hheight], fun k _ => by rw [hheights]⟩
      · -- the new tip may be lower than the old one, but not below the line it was measured against
        refine ⟨_, hsound, finalityHeight_le_of_lt (by omega), fun k hk => hindex k (by omega)⟩

theorem update_switchToBranch_sound (h : Sound H n.store tip) (hb : ∀ b ∈ branch, b.header ∈ H) :
    ∃ tip', Sound H (n.update (n.switchToBranch L now branch)).store tip' := by
  cases hok : n.switchToBranch L now branch with
  | error e => exact ⟨tip, h⟩
  | ok n' => exact switchToBranch_sound hinj h hb hok

end Distinct
end Node

/-! ## §2 — reachable nodes -/

theorem BlockStore.sound_initWithGenesis [Crypto] {H : Set BlockHeader} {genesis : FullBlock}
    (hH : genesis.header ∈ H) : Sound H (initWithGenesis genesis) genesis := by
  have hblocks : ∀ hash : Bytes, (initWithGenesis genesis).blocks[hash]? =
      if genesis.getHash.val = hash then some genesis else none := by
    intro hash
    show ((∅ : Bucket Bytes FullBlock).insert genesis.getHash.val genesis)[hash]? = _
    rw [Bucket.get_insert]
    split <;> simp
  have hheights : ∀ k : Nat, (initWithGenesis genesis).heights[k]? =
      if genesis.getHeight = k then some genesis.getHash.val else none := by
    intro k
    show ((∅ : Bucket Nat Bytes).insert genesis.getHeight genesis.getHash.val)[k]? = _
    rw [Bucket.get_insert]
    split <;> simp
  have hbody : ∀ (hash : Bytes) (b : FullBlock), (initWithGenesis genesis).blocks[hash]? = some b →
      genesis.getHash.val = hash ∧ b = genesis := by
    intro hash b hb
    rw [hblocks] at hb
    split at hb
    · next heq => exact ⟨heq, (Option.some_injective _ hb).symm⟩
    · cases hb
  refine ⟨⟨?_, ?_, ?_, ?_, le_rfl, ?_, ?_, ?_, ?_⟩, rfl, rfl, ?_⟩
  · intro hash b hb
    obtain ⟨_, rfl⟩ := hbody hash b hb
    exact hH
  · intro hash b hb
    obtain ⟨heq, rfl⟩ := hbody hash b hb
    exact heq
  · intro hash k hk
    change (∅ : Bucket Bytes Nat)[hash]? = some k at hk
    simp at hk
  · intro hash b hb
    exact .inl (hbody hash b hb).1.symm
  · rw [hheights]
    exact if_pos rfl
  · intro k hk hk'
    obtain rfl : k = genesis.getHeight := le_antisymm hk' hk
    refine ⟨genesis, by rw [hheights, if_pos rfl], by rw [hblocks, if_pos rfl], rfl, fun hlt => ?_⟩
    exact absurd hlt (lt_irrefl _)
  · rw [hheights, if_pos rfl]
  · rw [hblocks, if_pos rfl]
  · intro k hk
    rw [hheights, if_neg (by omega)]

section Reach

variable [Engine] {cfg : Config} {H : Set BlockHeader} {n n' : Node State}

theorem Node.genesis_eq_ok (h : Node.genesis cfg = .ok n) :
    ∃ genesis, getGenesisBlock cfg.network = .ok genesis ∧
      State.initStateFromGenesis cfg = .ok n.state ∧ n.store = BlockStore.initWithGenesis genesis := by
  obtain ⟨genesis, hgenesis, h⟩ := bind_eq_ok.mp h
  obtain ⟨state, hstate, h⟩ := bind_eq_ok.mp h
  obtain rfl := pure_eq_ok.mp h
  exact ⟨genesis, hgenesis, hstate, rfl⟩

/-- **Every reachable store is sound.** -/
theorem Node.Reachable.sound (hinj : Set.InjOn BlockHeader.getHash (genesisHeaders ∪ H))
    (hr : Node.Reachable cfg H n) : ∃ tip, Sound (genesisHeaders ∪ H) n.store tip := by
  induction hr with
  | genesis hn =>
    obtain ⟨genesis, hgenesis, _, hstore⟩ := Node.genesis_eq_ok hn
    rw [hstore]
    exact ⟨genesis, BlockStore.sound_initWithGenesis (.inl ⟨_, genesis, hgenesis, rfl⟩)⟩
  | applyBlock now block _ hb ih =>
    obtain ⟨tip, hsound⟩ := ih
    obtain ⟨tip', hsound', _⟩ := Node.update_applyBlock_sound hinj hsound (.inr hb)
    exact ⟨tip', hsound'⟩
  | switchToBranch now branch _ hb ih =>
    obtain ⟨tip, hsound⟩ := ih
    exact Node.update_switchToBranch_sound hinj hsound fun b hmem => .inr (hb b hmem)

/-- **The block store is well formed** after every sequence of calls, successful or failing, on headers with
distinct hashes. -/
theorem Node.store_wellFormed (hinj : Set.InjOn BlockHeader.getHash (genesisHeaders ∪ H))
    (hr : Node.Reachable cfg H n) : n.store.WellFormed := by
  obtain ⟨tip, hsound⟩ := hr.sound hinj
  exact hsound.wellFormed

omit [Engine] in
/-- A fork of three blocks leaves a well-formed store. -/
theorem Node.store_wellFormed_handFork :
    letI := Engine.bare
    ∃ n : Node State, n.store.latestHeight = 2 ∧ n.store.WellFormed := by
  let _ := Engine.bare
  obtain ⟨n, hr, _, htest⟩ := exists_reachable_byHand (fun _ => none) true
    (handChain 1 2 handGenesis ++ handChain 2 1 handGenesis) [] (fun n => n.store.latestHeight = 2)
    (by decide +kernel)
  exact ⟨n, of_decide_eq_true htest, Node.store_wellFormed (injOn_byHand _ (by decide +kernel)) hr⟩

/-- **`Node.Gossips`** — one `ApplyBlock` call, successful or not. -/
def Node.Gossips (cfg : Config) (H : Set BlockHeader) (n n' : Node State) : Prop :=
  ∃ now block, block.header ∈ H ∧ n' = n.update (n.applyBlock (ledger cfg) now block)

theorem Node.Gossips.reachable (hr : Node.Reachable cfg H n) (h : Node.Gossips cfg H n n') :
    Node.Reachable cfg H n' := by
  obtain ⟨now, block, hb, rfl⟩ := h
  exact hr.applyBlock now block hb

/-- One call moves the finality line up only, and leaves the index at or below it alone. -/
theorem Node.Gossips.settles (hinj : Set.InjOn BlockHeader.getHash (genesisHeaders ∪ H))
    (hr : Node.Reachable cfg H n) (h : Node.Gossips cfg H n n') :
    finalityHeight n.store.latestHeight ≤ finalityHeight n'.store.latestHeight ∧
      ∀ k, k ≤ finalityHeight n.store.latestHeight → n'.store.heights[k]? = n.store.heights[k]? := by
  obtain ⟨tip, hsound⟩ := hr.sound hinj
  obtain ⟨now, block, hb, rfl⟩ := h
  have hstep : ∃ tip', Sound _ (n.update (n.applyBlock (ledger cfg) now block)).store tip' ∧ _ :=
    Node.update_applyBlock_sound hinj hsound (.inr hb)
  obtain ⟨tip', hsound', hle, hindex⟩ := hstep
  rw [hsound.latestHeight, hsound'.latestHeight]
  exact ⟨hle, hindex⟩

/-- **Checkpoint finality**: along every run of `ApplyBlock` calls from a reachable node the finality line of
the tip never falls, and the canonical hash of a height at or below it never changes again. -/
theorem Node.finality_settled (hinj : Set.InjOn BlockHeader.getHash (genesisHeaders ∪ H))
    (hr : Node.Reachable cfg H n) (hrun : Relation.ReflTransGen (Node.Gossips cfg H) n n') :
    finalityHeight n.store.latestHeight ≤ finalityHeight n'.store.latestHeight ∧
      ∀ k, k ≤ finalityHeight n.store.latestHeight → n'.store.heights[k]? = n.store.heights[k]? := by
  induction hrun using Relation.ReflTransGen.head_induction_on with
  | refl => exact ⟨le_rfl, fun k _ => rfl⟩
  | head hstep _ ih =>
    obtain ⟨hle, hindex⟩ := hstep.settles hinj hr
    obtain ⟨hle', hindex'⟩ := ih (hstep.reachable hr)
    exact ⟨hle.trans hle', fun k hk => (hindex' k (hk.trans hle)).trans (hindex k hk)⟩

omit [Engine] in
/-- At height eleven the first checkpoint is final, and one more block leaves it. -/
theorem Node.finality_settled_handChain :
    letI := Engine.bare
    ∃ n n' : Node State, n.store.latestHeight = 11 ∧
      finalityHeight n.store.latestHeight ≤ finalityHeight n'.store.latestHeight ∧
      ∀ k, k ≤ 10 → n'.store.heights[k]? = n.store.heights[k]? := by
  let _ := Engine.bare
  let chain := handChain 1 11 handGenesis
  let block := handSeal (chain.getLastD handGenesis) 1 [] []
  obtain ⟨n, hr, _, htest⟩ := exists_reachable_byHand (fun _ => none) true chain [block]
    (fun n => n.store.latestHeight = 11) (by decide +kernel)
  have hheight : n.store.latestHeight = 11 := of_decide_eq_true htest
  have hstep : Node.Gossips ⟨ZERONET, true⟩ {x | x ∈ (chain ++ [block]).map FullBlock.header} n
      (n.update (n.applyBlock (ledger ⟨ZERONET, true⟩) handNow block)) :=
    ⟨handNow, block, List.mem_map_of_mem (by simp), rfl⟩
  obtain ⟨hle, hindex⟩ :=
    Node.finality_settled (injOn_byHand _ (by decide +kernel)) hr (.single hstep)
  refine ⟨n, _, hheight, hle, fun k hk => hindex k ?_⟩
  rw [hheight]
  exact hk

end Reach
end NgCore
