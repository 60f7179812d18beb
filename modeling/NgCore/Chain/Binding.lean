/-
# NgCore.Chain.Binding — what a block says about its network and height

Fork activation, base fee, reveal windows and the indices all key on the network and height FIELDS of headers,
transactions and commitments. Of these fields the checks of an imported block read one: the height of the unsigned
mints, which pay uncles (`matchUncleGens`). Everything else is as the block declares it, and a block that strays is
executed (`unbound_handStray`).

What keeps the fields right is how blocks are MADE. A miner's node writes its own network and the next height into the
header and the mints, and packs what its pool holds for that height; the pool admits transactions of the next height
only, of whatever network.

DELIVERABLE: `Node.bound_of_mined` — where every executed block was mined for the network, from pools that were
supplied for it, all of them are bound to network and height.
-/
import NgCore.Chain.Adopted
import NgCore.Mining

namespace NgCore

open Lib (Bucket)

/-- **`Bound N b`** — header, transactions and commitments belong to network `N`, and every transaction to the
height of the block. -/
structure FullBlock.Bound (N : Network) (b : FullBlock) : Prop where
  network : b.header.network = N
  txs : ∀ tx ∈ b.txs, tx.network = N
  commits : ∀ c ∈ b.commits, c.network = N
  heights : ∀ tx ∈ b.txs, tx.height = b.getHeight

section Mined

variable [Engine]

/-! ## §1 — pools -/

/-- **`Supplied N pool`** — the pool was filled through `PutTx` and `PutCommitment` with entries of network `N`, at
whatever tips; the queues are free. -/
inductive TxPool.Supplied (N : Network) : TxPool → Prop
  | init (maxSize minFeePerByte : Nat) : Supplied N (.init maxSize minFeePerByte)
  | reset {pool : TxPool} : Supplied N pool → Supplied N pool.reset
  | requeue {pool : TxPool} (commits : Bucket Address QueuedCommit) (reveals : Bucket Address QueuedReveal) :
      Supplied N pool → Supplied N { pool with commitQueue := commits, revealQueue := reveals }
  | putCommitment {pool pool' : TxPool} {nextHeight : Nat} {tip : Option FullBlock} {v : View} {commit : Commitment} :
      Supplied N pool → commit.network = N → pool.putCommitment nextHeight tip v commit = .ok pool' → Supplied N pool'
  | putTx {pool pool' : TxPool} {nextHeight : Nat} {tip : Option FullBlock} {v : View} {tx : FullTx} :
      Supplied N pool → tx.network = N → pool.putTx nextHeight tip v tx = .ok pool' → Supplied N pool'

variable {N : Network} {pool : TxPool}

theorem TxPool.Supplied.stocked (h : pool.Supplied N) : pool.Stocked := by
  induction h with
  | init maxSize minFeePerByte => exact .init maxSize minFeePerByte
  | reset _ ih => exact ih.reset
  | requeue commits reveals _ ih => exact ih.requeue commits reveals
  | putCommitment _ _ hput ih => exact ih.putCommitment hput
  | putTx _ _ hput ih => exact ih.putTx hput

theorem TxPool.Supplied.network (h : pool.Supplied N) :
    (∀ (a : Address) (tx : FullTx), pool.txMap[a]? = some tx → tx.network = N) ∧
      ∀ (a : Address) (c : Commitment), pool.commitMap[a]? = some c → c.network = N := by
  induction h with
  | init | reset => exact ⟨fun _ _ h => by simp [TxPool.init, TxPool.reset] at h,
      fun _ _ h => by simp [TxPool.init, TxPool.reset] at h⟩
  | requeue _ _ _ ih => exact ih
  | putCommitment _ hnetwork hput ih =>
    obtain ⟨htxs, _, fromAddr, _, hcommits⟩ := putCommitment_eq_ok hput
    refine ⟨htxs ▸ ih.1, fun a c hget => ?_⟩
    rw [hcommits, Bucket.get_insert] at hget
    split at hget
    · exact Option.some.inj hget ▸ hnetwork
    · exact ih.2 a c hget
  | putTx _ hnetwork hput ih =>
    obtain ⟨_, _, _, _, _, hcommits, hentries⟩ := putTx_eq_ok hput
    refine ⟨fun a tx hget => ?_, hcommits ▸ ih.2⟩
    rcases hentries a tx hget with ⟨_, rfl⟩ | ⟨_, hold⟩
    · exact hnetwork
    · exact ih.1 a tx hold

/-! ## §2 — mined blocks -/

/-- **`Mined N block`** — a node of network `N` made the template from a supplied pool, at any tip and with any uncles,
for its own key or around the mint of an external miner of the network, and it was sealed. -/
inductive FullBlock.Mined (N : Network) (block : FullBlock) : Prop
  | own {pow : PoWorkConfig} {cfg : Config} {key : PrivateKey} {now : Nat} {tip : FullBlock}
      {uncles : Except Err (List BlockHeader)} {pool : TxPool} {s : State} {nonce : Bytes} :
      pow.network = N → pool.Supplied N →
      (pow.getBlockTemplate cfg key now tip uncles pool s >>= FullBlock.toSealed nonce) = .ok block → Mined N block
  | work {pow : PoWorkConfig} {cfg : Config} {key : PrivateKey} {extraData : Bytes} {now : Nat} {tip : FullBlock}
      {uncles : Except Err (List BlockHeader)} {pool : TxPool} {s : State} {nonce : Bytes} :
      pow.network = N → pool.Supplied N →
      (pow.assembleWork cfg (createGenerateTx N key (tip.getHeight + 1) extraData) now tip uncles pool s >>=
        FullBlock.toSealed nonce) = .ok block → Mined N block

/-- A block around mints of the network and the packs of a supplied pool, sealed. -/
theorem Assembled.bound {bare block sealed : FullBlock} {gen : FullTx} {uncles : Except Err (List BlockHeader)}
    {nonce : Bytes} (h : Assembled bare (mintsOf N gen uncles bare.header.height) (collected uncles) pool block)
    (hpool : pool.Supplied N) (hbare : bare.header.network = N) (hnetwork : gen.network = N)
    (hheight : gen.height = bare.header.height) (hseal : block.toSealed nonce = .ok sealed) : sealed.Bound N := by
  have hheader := h.header.toSealed hseal
  obtain ⟨_, _, hseal⟩ := bind_eq_ok.mp hseal
  cases pure_eq_ok.mp hseal
  have htx : ∀ tx ∈ block.txs, tx.network = N ∧ tx.height = bare.header.height := by
    intro tx hmem
    rcases List.mem_append.mp (h.txs.subset hmem) with hmint | hpack
    · rcases List.mem_cons.mp hmint with rfl | hreward
      · exact ⟨hnetwork, hheight⟩
      · obtain ⟨u, _, rfl⟩ := List.mem_map.mp hreward
        exact ⟨rfl, rfl⟩
    · obtain ⟨hmem, hat⟩ := List.mem_filter.mp (TxPool.mem_packableTxs hpack)
      obtain ⟨⟨a, _⟩, he, rfl⟩ := List.mem_map.mp hmem
      exact ⟨hpool.network.1 a _ ((Bucket.mem_toList_iff _ _ _).mp he), of_decide_eq_true hat⟩
  refine ⟨hheader.network.trans hbare, fun tx hmem => (htx tx hmem).1, fun c hc => ?_,
    fun tx hmem => (htx tx hmem).2.trans hheader.height.symm⟩
  change c ∈ block.commits at hc
  rw [FullBlock.commits, h.commits] at hc
  have hmem := (TxPool.getCommitPack_perm bare.header.height pool).1.subset hc
  obtain ⟨⟨a, _⟩, he, rfl⟩ := List.mem_map.mp (List.mem_filter.mp hmem).1
  exact hpool.network.2 a _ ((Bucket.mem_toList_iff _ _ _).mp he)

/-- **A mined block is bound.** -/
theorem FullBlock.Mined.bound {block : FullBlock} (h : block.Mined N) : block.Bound N := by
  cases h with
  | @own pow _ key _ _ _ _ _ _ hpow hpool h =>
    subst hpow
    obtain ⟨template, htemplate, hseal⟩ := bind_eq_ok.mp h
    obtain ⟨bare, hbare, _⟩ := bind_eq_ok.mp htemplate
    obtain ⟨_, hgen⟩ := createGenerateTx_eq pow.network key bare.header.height pow.minerExtraData
    exact (getBlockTemplate_assembled hpool.stocked hbare htemplate).bound hpool (fills_bareBlock hbare).2.2
      (congrArg FullTx.network hgen) (congrArg FullTx.height hgen) hseal
  | @work pow _ key extraData _ tip _ _ _ _ hpow hpool h =>
    subst hpow
    obtain ⟨block, hwork, hseal⟩ := bind_eq_ok.mp h
    obtain ⟨_, hparts, _⟩ := bind_eq_ok.mp hwork
    obtain ⟨bare, hbare, _⟩ := bind_eq_ok.mp hparts
    obtain ⟨_, hheight, hnetwork⟩ := fills_bareBlock hbare
    obtain ⟨_, hgen⟩ := createGenerateTx_eq pow.network key (tip.getHeight + 1) extraData
    exact (assembleWork_assembled hbare hwork).bound hpool hnetwork (congrArg FullTx.network hgen)
      ((congrArg FullTx.height hgen).trans hheight.symm) hseal

/-! ## §3 — executed blocks -/

/-- **The executed blocks of a network that only its own miners mine are bound to network and height**: whichever way
the node came to execute them. -/
theorem Node.bound_of_mined {cfg : Config} {C : State → FullBlock → Prop} [∀ s b, Decidable (C s b)]
    (hC : ∀ s b, C s b → b.Mined cfg.network) {H : Set BlockHeader} {n : Node State}
    (hinj : Set.InjOn BlockHeader.getHash (genesisHeaders ∪ H)) (hr : Node.ReachableWhile cfg C H n) :
    ∀ b ∈ n.state.applied, 0 < b.getHeight → b.Bound cfg.network := by
  intro b hb hpos
  obtain ⟨_, _, hsync⟩ := hr.inSync hinj
  obtain ⟨s, hcond⟩ := hsync.executed.condition b hb hpos
  exact (hC s b hcond).bound

end Mined

section Work

variable [Engine]

/-- What a miner is handed for a tip, sealed under the nonce zero; its root as the hand-made hash has it. -/
def handWork (miner : UInt8) (tip : FullBlock) (uncles : List BlockHeader) (pool : TxPool) (s : State) :
    Except Err FullBlock := do
  let block ← PoWorkConfig.assembleWork ⟨ZERONET, []⟩ ⟨ZERONET, true⟩
    (createGenerateTx ZERONET (handSigner miner) (tip.getHeight + 1) []) (tip.header.timestamp + 4000) tip (.ok uncles)
    pool s
  return { block with header := { block.header with stateRoot := zero32.val, nonce := List.replicate 8 0 } }

/-- Two blocks by one miner, each from what was then known: the first block; then, with the commitment of a payment in
the pool and another first block aside, the second. -/
def handMined : Except Err (FullBlock × FullBlock) := do
  let pool := TxPool.init defaultPoolSize defaultMinFeePerByte
  let first ← handWork 1 handGenesis [] pool (State.genesis true)
  let (_, s) ← (upgrade ⟨ZERONET, true⟩ first).exec (State.genesis true)
  let pool ← pool.putCommitment 2 (some first) s.view (handCommit 1 2 (10 ^ 13) (handPay 1 3 (handAddr 2) 5))
  return (first, ← handWork 1 first [(handSeal handGenesis 2 [] []).header] pool s)

end Work

theorem mined_handWork (modules : Bytes → Option Module) :
    letI := Engine.byHand modules
    ∀ {miner : UInt8} {tip block : FullBlock} {uncles : List BlockHeader} {pool : TxPool} {s : State},
      pool.Supplied ZERONET → s.Committed → handWork miner tip uncles pool s = .ok block → block.Mined ZERONET := by
  let _ := Engine.byHand modules
  intro miner tip block uncles pool s hpool hs h
  obtain ⟨work, hwork, h⟩ := bind_eq_ok.mp h
  -- the dry run left the root that the block is given here
  have hroot : work.header.stateRoot = zero32.val := by
    obtain ⟨_, _, hwork⟩ := bind_eq_ok.mp hwork
    obtain ⟨_, _, hwork⟩ := bind_eq_ok.mp hwork
    obtain ⟨root, hdry, hwork⟩ := bind_eq_ok.mp hwork
    obtain ⟨⟨_, t⟩, hrun, hdry⟩ := bind_eq_ok.mp hdry
    obtain rfl := pure_eq_ok.mp hdry
    obtain rfl := pure_eq_ok.mp hwork
    exact congrArg Subtype.val (State.stateRoot_byHand modules t (hs.exec hrun))
  have hseal : work.toSealed (List.replicate 8 0) = .ok block := by
    rw [← hroot] at h
    exact h
  exact .work rfl hpool (bind_eq_ok.mpr ⟨work, hwork, hseal⟩)

theorem mined_handMined (modules : Bytes → Option Module) :
    letI := Engine.byHand modules
    ∀ {first second : FullBlock}, handMined = .ok (first, second) → first.Mined ZERONET ∧ second.Mined ZERONET := by
  let _ := Engine.byHand modules
  intro first second h
  obtain ⟨first', hfirst, h⟩ := bind_eq_ok.mp h
  obtain ⟨⟨_, s⟩, hrun, h⟩ := bind_eq_ok.mp h
  obtain ⟨pool, hput, h⟩ := bind_eq_ok.mp h
  obtain ⟨second', hsecond, h⟩ := bind_eq_ok.mp h
  obtain ⟨rfl, rfl⟩ := Prod.mk.inj (pure_eq_ok.mp h)
  have hs : (State.genesis true).Committed := committed_handNode modules true
  have hpool := TxPool.Supplied.init (N := ZERONET) defaultPoolSize defaultMinFeePerByte
  exact ⟨mined_handWork modules hpool hs hfirst,
    mined_handWork modules (hpool.putCommitment rfl hput) (hs.exec hrun) hsecond⟩

/-- Both blocks are executed and bound; the second has an unsigned mint, for the block aside, and a commitment. -/
theorem Node.bound_handMined :
    letI := Engine.bare
    ∃ (first second : FullBlock) (n : Node State), handMined = .ok (first, second) ∧
      (n.state.applied.take 2 = [second, first] ∧
        (second.txs.filter fun tx => tx.isSigned = false).length = 1 ∧ second.commits.length = 1) ∧
      first.Bound ZERONET ∧ second.Bound ZERONET := by
  let _ := Engine.bare
  obtain ⟨⟨first, second⟩, hmined, htest⟩ := exists_of_okAnd
    (show okAnd handMined (fun r =>
      decide (0 < r.1.getHeight ∧ 0 < r.2.getHeight ∧ ((handGenesisHeaders ++
        [r.1, handSeal handGenesis 2 [] [], r.2].map FullBlock.header).map BlockHeader.getHash).Nodup) &&
      okAnd (handRunWhile (fun _ b => b = r.1 ∨ b = r.2) ⟨ZERONET, true⟩ [r.1, handSeal handGenesis 2 [] [], r.2]
        (handNode true)) fun n => decide (n.state.applied.take 2 = [r.2, r.1] ∧
          (r.2.txs.filter fun tx => tx.isSigned = false).length = 1 ∧ r.2.commits.length = 1)) = true by
      decide +kernel)
  obtain ⟨hfacts, hrun⟩ := Bool.and_eq_true_iff.mp htest
  obtain ⟨hpos, hpos', hnodup⟩ := of_decide_eq_true hfacts
  obtain ⟨n, hr, hparts⟩ := exists_reachableWhile_byHand (fun _ => none) true _ _ _ hrun
  have hparts := of_decide_eq_true hparts
  obtain ⟨hm, hm'⟩ := mined_handMined (fun _ => none) hmined
  have hbound := Node.bound_of_mined (by rintro _ b (rfl | rfl) <;> assumption) (injOn_byHand _ hnodup) hr
  have hmem : ∀ b ∈ [second, first], b ∈ n.state.applied := fun b hb => List.mem_of_mem_take (hparts.1 ▸ hb)
  exact ⟨first, second, n, hmined, hparts, hbound first (hmem first (by simp)) hpos,
    hbound second (hmem second (by simp)) hpos'⟩

/-- A first block that declares the test network, around a mint that declares the main network and height
five. -/
def handStray [Crypto] : FullBlock :=
  let mint := handSign 1 { handMint 5 (handAddr 1) (getBlockReward 1) with network := MAINNET }
  let block := handSeal handGenesis 1 [] []
  { block with
    header := { block.header with
      network := TESTNET
      txTrieHash := (calcContentRoot [mint] []).val
      witnessRoot := (calcWitnessRoot [mint] []).val }
    txs := [mint] }

/-- **A stray block is executed.** -/
theorem Node.unbound_handStray :
    letI := Engine.bare
    ∃ n : Node State,
      Set.InjOn BlockHeader.getHash (genesisHeaders ∪ {x | x ∈ [handStray.header]}) ∧
      Node.Reachable ⟨ZERONET, true⟩ {x | x ∈ [handStray.header]} n ∧
      handStray ∈ n.state.applied ∧ handStray.getHeight = 1 ∧ handStray.header.network ≠ ZERONET ∧
      ∃ tx ∈ handStray.txs, tx.network ≠ ZERONET ∧ tx.height ≠ 1 := by
  let _ := Engine.bare
  obtain ⟨n, hr, _, htest⟩ := exists_reachable_byHand (fun _ => none) true [handStray] []
    (fun n => n.state.applied.head? = some handStray) (by decide +kernel)
  refine ⟨n, injOn_byHand _ (by decide +kernel), hr, List.mem_of_mem_head? (of_decide_eq_true htest),
    by decide +kernel, by decide +kernel, _, List.mem_singleton_self _, ?_⟩
  decide +kernel

end NgCore
