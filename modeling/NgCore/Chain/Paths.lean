/-
# NgCore.Chain.Paths — two ways into the chain

A block on the canonical tip can arrive as a tip extension (`checkBlockTxn`, `PutNewBlock`, `Upgrade`, root) or
as a one-block branch (`checkBranchBlock`, then `ApplyBlocksTxn`). Clause by clause the two ask for the same
(`fastAccepts_iff`, `branchAccepts_iff`), with one exception: the fast path skips the target rule — time, difficulty,
work and base fee — when the parent is the ORIGIN. `paths_agree_iff` says exactly when that shows.
-/
import NgCore.Chain.Work

namespace NgCore

open BlockStore (Sound Tallied)

/-! ## §1 — reachable stores are tallied -/

section Reach

variable [Engine] {cfg : Config} {H : Set BlockHeader} {n : Node State} {block : FullBlock}

theorem getGenesisBlock_height {network : Network} {genesis : FullBlock}
    (h : getGenesisBlock network = .ok genesis) : genesis.getHeight = 0 := by
  obtain ⟨tx, _, h⟩ := bind_eq_ok.mp h
  obtain ⟨timestamp, _, h⟩ := bind_eq_ok.mp h
  obtain ⟨nonce, _, h⟩ := bind_eq_ok.mp h
  obtain rfl := pure_eq_ok.mp h
  rfl

/-- Where headers have distinct hashes, only a genesis block passes for one. -/
theorem height_of_isGenesis (hinj : Set.InjOn BlockHeader.getHash (genesisHeaders ∪ H))
    (hb : block.header ∈ genesisHeaders ∪ H) (h : block.isGenesis = .ok true) : block.getHeight = 0 := by
  obtain ⟨genesis, hgenesis, h⟩ := bind_eq_ok.mp h
  have hhash : block.header.getHash = genesis.header.getHash := of_decide_eq_true (pure_eq_ok.mp h)
  have hheader := hinj hb (.inl ⟨_, genesis, hgenesis, rfl⟩) hhash
  exact (congrArg BlockHeader.height hheader).trans (getGenesisBlock_height hgenesis)

theorem BlockStore.tallied_initWithGenesis {genesis : FullBlock} (hH : genesis.header ∈ H) :
    Tallied H genesis.header (initWithGenesis genesis) := by
  have hbody : ∀ (h : Bytes) (b : FullBlock), (initWithGenesis genesis).blocks[h]? = some b →
      b = genesis := by
    intro h b hb
    change ((∅ : Lib.Bucket Bytes FullBlock).insert genesis.getHash.val genesis)[h]? = some b at hb
    rw [Lib.Bucket.get_insert] at hb
    split at hb
    · exact (Option.some_injective _ hb).symm
    · simp at hb
  refine ⟨rfl, hH, ?_, ?_, ?_⟩
  · intro x _ w hw
    change (∅ : Lib.Bucket Bytes Nat)[x.key]? = some w at hw
    simp at hw
  · intro h b hb
    rw [hbody h b hb]
    exact ⟨_, .root⟩
  · intro h b hb
    rw [hbody h b hb]
    exact .inl rfl

theorem Node.update_applyBlock_tallied {tip block : FullBlock} {origin : BlockHeader} {now : Nat}
    (hinj : Set.InjOn BlockHeader.getHash (genesisHeaders ∪ H)) (hsound : Sound (genesisHeaders ∪ H) n.store tip)
    (ht : Tallied (genesisHeaders ∪ H) origin n.store) (hb : block.header ∈ H) :
    Tallied (genesisHeaders ∪ H) origin (n.update (n.applyBlock (ledger cfg) now block)).store := by
  cases hok : n.applyBlock (ledger cfg) now block with
  | error e => exact ht
  | ok n' =>
    show Tallied _ origin n'.store
    unfold Node.applyBlock at hok
    split at hok
    · next hprev =>
      exact (Node.extendTip_tallied hinj (height_of_isGenesis hinj (.inr hb)) ht hsound (.inr hb) hprev hok).1
    · exact Node.importSide_tallied hinj ht hsound (.inr hb) hok

theorem Node.update_switchToBranch_tallied {tip : FullBlock} {branch : List FullBlock} {origin : BlockHeader}
    {now : Nat} (hinj : Set.InjOn BlockHeader.getHash (genesisHeaders ∪ H))
    (hsound : Sound (genesisHeaders ∪ H) n.store tip) (ht : Tallied (genesisHeaders ∪ H) origin n.store)
    (hb : ∀ b ∈ branch, b.header ∈ genesisHeaders ∪ H) :
    Tallied (genesisHeaders ∪ H) origin (n.update (n.switchToBranch (ledger cfg) now branch)).store := by
  cases hok : n.switchToBranch (ledger cfg) now branch with
  | error e => exact ht
  | ok n' => exact Node.switchToBranch_tallied hinj ht hsound hb hok

/-- **Every reachable store is sound and tallied.** -/
theorem Node.Reachable.tallied (hinj : Set.InjOn BlockHeader.getHash (genesisHeaders ∪ H))
    (hr : Node.Reachable cfg H n) : ∃ tip origin, Sound (genesisHeaders ∪ H) n.store tip ∧
      Tallied (genesisHeaders ∪ H) origin n.store ∧ origin.height = 0 := by
  induction hr with
  | genesis hn =>
    obtain ⟨genesis, hgenesis, _, hstore⟩ := Node.genesis_eq_ok hn
    have hmem : genesis.header ∈ genesisHeaders ∪ H := .inl ⟨_, genesis, hgenesis, rfl⟩
    rw [hstore]
    exact ⟨genesis, genesis.header, BlockStore.sound_initWithGenesis hmem,
      BlockStore.tallied_initWithGenesis hmem, getGenesisBlock_height hgenesis⟩
  | applyBlock now block _ hb ih =>
    obtain ⟨tip, origin, hsound, ht, hzero⟩ := ih
    obtain ⟨tip', hsound', _⟩ := Node.update_applyBlock_sound (L := ledger cfg) hinj hsound (.inr hb)
    exact ⟨tip', origin, hsound', Node.update_applyBlock_tallied hinj hsound ht hb, hzero⟩
  | switchToBranch now branch _ hb ih =>
    obtain ⟨tip, origin, hsound, ht, hzero⟩ := ih
    have hb' : ∀ b ∈ branch, b.header ∈ genesisHeaders ∪ H := fun b hmem => .inr (hb b hmem)
    obtain ⟨tip', hsound'⟩ := Node.update_switchToBranch_sound (L := ledger cfg) hinj hsound hb'
    exact ⟨tip', origin, hsound', Node.update_switchToBranch_tallied hinj hsound ht hb', hzero⟩

/-! ## §2 — the two paths, clause by clause -/

/-- **`Node.Rules now block n tip`** — what both paths ask of a block on the tip, the target rule apart. -/
structure Node.Rules (cfg : Config) (now : Nat) (block : FullBlock) (n : Node State) (tip : FullBlock) :
    Prop where
  notGenesis : block.isGenesis = .ok false
  checkError : block.checkError now = .ok ()
  follows : Follows tip block
  uncles : validateUncles n.store.getBlockByHash block = .ok ()
  txs : checkBlockTxs n.state.view block = .ok ()
  upgrade : ∃ s, (ledger cfg).upgrade block n.state = .ok s

/-- The fast path accepts the block. -/
def Node.FastAccepts (cfg : Config) (now : Nat) (block : FullBlock) (n : Node State) : Prop :=
  ∃ n', n.extendTip (ledger cfg) now block = .ok n'

/-- The branch path accepts the block: checked against the tip, then applied as a one-block branch. -/
def Node.BranchAccepts (cfg : Config) (now : Nat) (block : FullBlock) (n : Node State) : Prop :=
  ∃ tip s, n.store.getLatestBlock = .ok tip ∧
    checkBranchBlock now n.store.getBlockByHash block tip = .ok () ∧
    State.applyBlocks cfg [block] n.state = .ok s

/-- **`Node.SkipsTarget`** — the block breaks the target rule and no other, on top of the origin. -/
def Node.SkipsTarget (cfg : Config) (now : Nat) (block : FullBlock) (n : Node State) : Prop :=
  block.getPrevHash = n.store.originHash ∧ ∃ tip, n.store.getLatestBlock = .ok tip ∧
    n.Rules cfg now block tip ∧ checkBlockTarget block tip ≠ .ok ()

variable {now : Nat} {tip : FullBlock} (hinj : Set.InjOn BlockHeader.getHash (genesisHeaders ∪ H))
include hinj

theorem Node.fastAccepts_iff (hsound : Sound (genesisHeaders ∪ H) n.store tip) (hb : block.header ∈ H)
    (hprev : block.getPrevHash = n.store.latestHash) :
    n.FastAccepts cfg now block ↔ n.Rules cfg now block tip ∧
      (block.getPrevHash ≠ n.store.originHash → checkBlockTarget block tip = .ok ()) := by
  have htip : n.store.getBlockByHash block.getPrevHash = .ok tip :=
    BlockStore.getBlockByHash_eq_ok.mpr (by rw [hprev, hsound.latestHash]; exact hsound.tipBody)
  constructor
  · rintro ⟨n', hok⟩
    obtain ⟨hcheck, store, work, store', hput, _, hup, _⟩ := Node.extendTip_eq_ok hok
    obtain ⟨hfollows, _⟩ := hsound.putNewBlock hinj (.inr hb) hprev hput
    obtain ⟨genesis, hgenesis, hcheck⟩ := bind_eq_ok.mp hcheck
    cases genesis with
    | true =>
      -- a genesis block never stands above another block
      have hzero := height_of_isGenesis hinj (.inr hb) hgenesis
      have := hfollows.1
      omega
    | false =>
      rw [if_neg (by simp)] at hcheck
      obtain ⟨_, herror, hcheck⟩ := bind_eq_ok.mp hcheck
      by_cases horigin : block.getPrevHash = n.store.originHash
      · rw [if_neg (not_not.mpr horigin)] at hcheck
        obtain ⟨_, huncles, htxs⟩ := bind_eq_ok.mp hcheck
        exact ⟨⟨hgenesis, herror, hfollows, huncles, htxs, _, hup⟩, fun hne => absurd horigin hne⟩
      · rw [if_pos horigin, htip] at hcheck
        obtain ⟨_, hparent, hcheck⟩ := bind_eq_ok.mp hcheck
        cases hparent
        obtain ⟨_, htarget, hcheck⟩ := bind_eq_ok.mp hcheck
        obtain ⟨_, huncles, htxs⟩ := bind_eq_ok.mp hcheck
        exact ⟨⟨hgenesis, herror, hfollows, huncles, htxs, _, hup⟩, fun _ => htarget⟩
  · rintro ⟨⟨hgenesis, herror, hfollows, huncles, htxs, s, hup⟩, htarget⟩
    have hcheck : Node.checkBlockTxn (ledger cfg) now block n = .ok () := by
      refine bind_eq_ok.mpr ⟨false, hgenesis, ?_⟩
      rw [if_neg (by simp)]
      refine bind_eq_ok.mpr ⟨(), herror, ?_⟩
      by_cases horigin : block.getPrevHash = n.store.originHash
      · rw [if_neg (not_not.mpr horigin)]
        exact bind_eq_ok.mpr ⟨(), huncles, htxs⟩
      · rw [if_pos horigin, htip]
        exact bind_eq_ok.mpr ⟨tip, rfl, bind_eq_ok.mpr ⟨(), htarget horigin,
          bind_eq_ok.mpr ⟨(), huncles, htxs⟩⟩⟩
    have hput : n.store.putNewBlock block =
        .ok (((n.store.putBlock block).putTxs block).putLatestTags block) :=
      bind_eq_ok.mpr ⟨(), hsound.checkBlock hfollows, rfl⟩
    -- the new tip is canonical, so its work is found
    obtain ⟨_, hsound'⟩ := hsound.putNewBlock hinj (.inr hb) hprev hput
    have hcanonical : BlockStore.isCanonical _ block = true := decide_eq_true hsound'.top
    obtain ⟨work, store, hwork⟩ :=
      BlockStore.cumulativeWork_total hsound'.toSpine le_rfl hcanonical hsound'.tipBody
    refine ⟨⟨(ledger cfg).maintain block store, s⟩, ?_⟩
    unfold Node.extendTip
    refine bind_eq_ok.mpr ⟨(), hcheck, bind_eq_ok.mpr ⟨_, hput, bind_eq_ok.mpr ⟨(work, store), hwork, ?_⟩⟩⟩
    exact bind_eq_ok.mpr ⟨s, hup, rfl⟩

theorem Node.branchAccepts_iff (hsound : Sound (genesisHeaders ∪ H) n.store tip) (hb : block.header ∈ H) :
    n.BranchAccepts cfg now block ↔ n.Rules cfg now block tip ∧ checkBlockTarget block tip = .ok () := by
  have hlatest : n.store.getLatestBlock = .ok tip :=
    BlockStore.getBlockByHash_eq_ok.mpr (by rw [hsound.latestHash]; exact hsound.tipBody)
  constructor
  · rintro ⟨tip', s, htip, hcheck, happly⟩
    obtain rfl := hsound.getLatestBlock htip
    obtain ⟨_, herror, hcheck⟩ := bind_eq_ok.mp hcheck
    obtain ⟨_, hfollows, hcheck⟩ := bind_eq_ok.mp hcheck
    obtain ⟨_, htarget, huncles⟩ := bind_eq_ok.mp hcheck
    have hfollows := ensure_eq_ok.mp hfollows
    rw [← ledger_applyBlocks] at happly
    obtain ⟨s', hblock, _⟩ := bind_eq_ok.mp happly
    obtain ⟨genesis, hgenesis, hblock⟩ := bind_eq_ok.mp hblock
    cases genesis with
    | true =>
      have hzero := height_of_isGenesis hinj (.inr hb) hgenesis
      have := hfollows.1
      omega
    | false =>
      rw [if_pos rfl] at hblock
      obtain ⟨_, htxs, hup⟩ := bind_eq_ok.mp hblock
      exact ⟨⟨hgenesis, herror, hfollows, huncles, htxs, s', hup⟩, htarget⟩
  · rintro ⟨⟨hgenesis, herror, hfollows, huncles, htxs, s, hup⟩, htarget⟩
    refine ⟨tip, s, hlatest, ?_, ?_⟩
    · exact bind_eq_ok.mpr ⟨(), herror, bind_eq_ok.mpr ⟨(), ensure_eq_ok.mpr hfollows,
        bind_eq_ok.mpr ⟨(), htarget, huncles⟩⟩⟩
    · rw [← ledger_applyBlocks]
      refine bind_eq_ok.mpr ⟨s, ?_, rfl⟩
      refine bind_eq_ok.mpr ⟨false, hgenesis, ?_⟩
      rw [if_pos rfl]
      exact bind_eq_ok.mpr ⟨(), htxs, hup⟩

/-- **The two import paths agree** on a block whose parent is the tip, except on one that breaks the target
rule and no other on top of the origin. -/
theorem Node.paths_agree_iff (hr : Node.Reachable cfg H n) (hb : block.header ∈ H)
    (hprev : block.getPrevHash = n.store.latestHash) :
    (n.FastAccepts cfg now block ↔ n.BranchAccepts cfg now block) ↔ ¬ n.SkipsTarget cfg now block := by
  obtain ⟨tip, hsound⟩ := hr.sound hinj
  have hlatest : n.store.getLatestBlock = .ok tip :=
    BlockStore.getBlockByHash_eq_ok.mpr (by rw [hsound.latestHash]; exact hsound.tipBody)
  rw [Node.fastAccepts_iff hinj hsound hb hprev, Node.branchAccepts_iff hinj hsound hb]
  constructor
  · rintro hiff ⟨horigin, tip', htip', hrules, hbroken⟩
    obtain rfl := hsound.getLatestBlock htip'
    exact hbroken (hiff.mp ⟨hrules, fun hne => absurd horigin hne⟩).2
  · intro hskip
    constructor
    · rintro ⟨hrules, htarget⟩
      refine ⟨hrules, ?_⟩
      by_cases horigin : block.getPrevHash = n.store.originHash
      · by_contra hbroken
        exact hskip ⟨horigin, tip, hlatest, hrules, hbroken⟩
      · exact htarget horigin
    · rintro ⟨hrules, htarget⟩
      exact ⟨hrules, fun _ => htarget⟩

end Reach

/-! ## §3 — the first block -/

/-- An ordinary first block: both paths decide alike. -/
theorem Node.paths_agree_handSeal :
    letI := Engine.bare
    ((handNode true).FastAccepts ⟨ZERONET, true⟩ handNow (handSeal handGenesis 1 [] []) ↔
      (handNode true).BranchAccepts ⟨ZERONET, true⟩ handNow (handSeal handGenesis 1 [] [])) ↔
    ¬ (handNode true).SkipsTarget ⟨ZERONET, true⟩ handNow (handSeal handGenesis 1 [] []) := by
  let _ := Engine.bare
  have hinj : Set.InjOn BlockHeader.getHash
      (genesisHeaders ∪ {x | x ∈ [(handSeal handGenesis 1 [] []).header]}) :=
    injOn_byHand _ (by decide +kernel)
  exact Node.paths_agree_iff hinj (.genesis (genesis_byHand _ true)) (List.mem_singleton_self _) rfl

/-- A first block that declares twice the difficulty it owes. -/
def handOverstated [Crypto] : FullBlock :=
  let block := handSeal handGenesis 1 [] []
  { block with header := { block.header with difficulty := [2] } }

/-- **The paths disagree on the first block**: on a fresh node a block of the wrong difficulty extends the tip,
and is refused as a branch. -/
theorem Node.paths_disagree_handOverstated :
    letI := Engine.bare
    ∃ n : Node State,
      Set.InjOn BlockHeader.getHash (genesisHeaders ∪ {x | x ∈ [handOverstated.header]}) ∧
      Node.Reachable ⟨ZERONET, true⟩ {x | x ∈ [handOverstated.header]} n ∧
      handOverstated.getPrevHash = n.store.latestHash ∧
      n.FastAccepts ⟨ZERONET, true⟩ handNow handOverstated ∧
      ¬ n.BranchAccepts ⟨ZERONET, true⟩ handNow handOverstated := by
  let _ := Engine.bare
  have hprev : handOverstated.getPrevHash = (handNode true).store.latestHash := rfl
  refine ⟨handNode true, injOn_byHand _ (by decide +kernel), .genesis (genesis_byHand _ true), hprev, ?_, ?_⟩
  · have hrun : okAnd ((handNode true).applyBlock (handLedger ⟨ZERONET, true⟩) handNow handOverstated)
        (fun _ => true) = true := by decide +kernel
    obtain ⟨n', hok, _⟩ := exists_of_okAnd hrun
    obtain ⟨heq, _⟩ := (handLedger_agrees (fun _ => none) ⟨ZERONET, true⟩).applyBlock handNow
      handOverstated (committed_handNode (fun _ => none) true)
    have hfast := heq.trans hok
    unfold Node.applyBlock at hfast
    rw [if_pos hprev] at hfast
    exact ⟨n', hfast⟩
  · rintro ⟨tip, s, htip, hcheck, _⟩
    obtain rfl : tip = handGenesis :=
      (BlockStore.sound_initWithGenesis (Set.mem_univ handGenesis.header)).getLatestBlock htip
    have hrefused : okAnd (checkBranchBlock handNow (handNode true).store.getBlockByHash handOverstated
        handGenesis) (fun _ => true) = false := by decide +kernel
    rw [hcheck] at hrefused
    cases hrefused

end NgCore
