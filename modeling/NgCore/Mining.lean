/-
# NgCore.Mining — block templates

`consensus/pow.go`, `consensus/generate_tx_builder.go`, and the builders of `ngtypes/block.go` and `ngtypes/tx.go`
they call: what a miner is handed to seal. A template is the bare block on the tip, the uncles the chain collected
with their rewards, the miner's own mint, the pool's packs, and last the state root of a dry run. `GetBlockTemplate`
logs what fails on the way and goes on with what it has; `AssembleWork`, for external miners, returns the error.

DELIVERABLE: `template_fits` — a template is within the block's capacity when the transactions the pool holds for the
height leave room for the mints, and the wire sizes of all it holds add up to at most a block's bytes, and where no two
entries share an id only then: no packing step looks at either.
-/
import NgCore.Pool
import NgCore.State.Rebuild
import NgCore.Chain.CommitGate

namespace NgCore

open Lib (Bucket)
open Lib.Rlp (Item encode beBytes beVal listSize)

/-! ## §1 — keys and mints -/

/-- **`PrivateKey`** — a signing key, as far as the node uses one: signing fails for an unknown scheme. -/
structure PrivateKey where
  scheme : SigScheme
  publicBytes : Bytes
  signHash : Bytes → Option Bytes

section Mints

variable [Crypto]

def newAddress (key : PrivateKey) : Address := addressOfPubKey key.scheme key.publicBytes

/-- **`signature`** — the smallest self-contained envelope: recoverable where the scheme recovers, full otherwise. -/
def FullTx.signature (key : PrivateKey) (x : FullTx) : FullTx :=
  let x := { x with sign? := none }
  match key.signHash x.signingHash.val with
  | none => x
  | some sig =>
    if hasRecovery key.scheme = true then { x with sign? := some (envelopeRecover :: key.scheme :: sig) }
    else { x with sign? := some (envelopeFull :: key.scheme :: (key.publicBytes ++ sig)) }

/-- **`createGenerateTx`** — the miner's mint. -/
def createGenerateTx (network : Network) (key : PrivateKey) (height : Nat) (extraData : Bytes) : FullTx :=
  FullTx.signature key ⟨network, generateTx, height, newAddress key, getBlockReward height, 0, extraData, some [], none⟩

end Mints

/-- **`buildUncleRewardTxs`** — one unsigned mint per uncle. -/
def buildUncleRewardTxs (network : Network) (uncles : List BlockHeader) (nephewHeight : Nat) : List FullTx :=
  uncles.map fun u =>
    ⟨network, generateTx, nephewHeight, copy32 u.coinbase, uncleReward u.height nephewHeight, 0, [], some [], none⟩

/-! ## §2 — building a block -/

/-- **`newBareBlock`** — a header with placeholders of full length. -/
def newBareBlock (network : Network) (height blockTime : Nat) (prevBlockHash : Bytes) (diff : Nat) : FullBlock where
  header := {
    network, height, prevBlockHash
    timestamp := blockTime
    txTrieHash := zero32.val
    witnessRoot := zero32.val
    difficulty := beBytes diff
    coinbase := zero32.val
    unclesHash := zero32.val
    stateRoot := zero32.val
    baseFee := beBytes minBaseFee
    nonce := List.replicate nonceSize 0 }
  txs := []
  uncles := []
  commits? := none

namespace FullBlock

def setCoinbase (addr : Address) (x : FullBlock) : FullBlock :=
  { x with header := { x.header with coinbase := addr.val } }

def setCommits (commits : List Commitment) (x : FullBlock) : FullBlock := { x with commits? := some commits }

variable [Crypto]

/-- The order of uncles: by hash. -/
def sortUncles (uncles : List BlockHeader) : List BlockHeader :=
  uncles.insertionSort fun a b => compare a.getHash b.getHash ≠ .gt

/-- **`setUncles`** — sorted by hash, and committed to. -/
def setUncles (uncles : List BlockHeader) (x : FullBlock) : FullBlock :=
  { x with
    uncles := sortUncles uncles
    header := { x.header with unclesHash := (calcUnclesHash (sortUncles uncles)).val } }

/-- **`newTxTrie`** — the order of transactions: by hash. -/
def newTxTrie (txs : List FullTx) : List FullTx :=
  txs.insertionSort fun a b => compare a.getHash b.getHash ≠ .gt

/-- **`toUnsealing`** — the miner's mint comes first, further mints are unsigned, the rest is of the block's height. -/
def toUnsealing (txsWithGen : List FullTx) (x : FullBlock) : Except Err FullBlock :=
  match txsWithGen with
  | [] => .error .panic
  | gen :: rest => do
    ensure (gen.type = generateTx) .blockNoGen
    rest.forM fun tx =>
      if tx.type = generateTx then ensure (tx.isSigned = false) .blockOnlyOneGen
      else ensure (tx.height = x.header.height) .txExtraInvalid
    let txs := newTxTrie txsWithGen
    return { x with
      txs
      header := { x.header with
        txTrieHash := (calcContentRoot txs x.commits).val
        witnessRoot := (calcWitnessRoot txs x.commits).val } }

omit [Crypto] in
/-- **`toSealed`** — a block from `newBareBlock` always has a content root, so only the nonce is looked at. -/
def toSealed (nonce : Bytes) (x : FullBlock) : Except Err FullBlock := do
  ensure (nonce.length = nonceSize) .invalidNonce
  return { x with header := { x.header with nonce } }

end FullBlock

/-! ## §3 — uncles -/

namespace BlockStore

/-- **`listSideBlocksInRange`** — the side blocks of some heights, in the order of their hashes. -/
def listSideBlocksInRange (minHeight maxHeight : Nat) (s : BlockStore) : Except Err (List FullBlock) :=
  (s.side.toList.filter fun e => minHeight ≤ e.2 ∧ e.2 ≤ maxHeight).mapM fun e => s.getBlockByHash e.1

variable [Crypto]

/-- What the canonical blocks above `lowest` reference already. -/
def referencedUncles (lowest tipHeight : Nat) (s : BlockStore) : Except Err (List Bytes32) := do
  let ancestors ← (List.range' (lowest + 1) (tipHeight - lowest)).reverse.mapM s.getBlockByHeight
  return ancestors.flatMap fun b => b.uncles.map BlockHeader.getHash

/-- One candidate: it forks off the canonical chain, is not canonical itself and not referenced yet. -/
def eligibleUncle (s : BlockStore) (referenced : List Bytes32) (c : FullBlock) : Bool :=
  (match s.getBlockByHeight (pred64 c.getHeight) with
    | .ok parent => parent.getHash.val = c.getPrevHash
    | .error _ => false) &&
  (match s.getBlockByHeight c.getHeight with
    | .ok canonical => canonical.getHash ≠ c.getHash
    | .error _ => true) &&
  decide (c.getHash ∉ referenced)

/-- The selection loop of `CollectUncles`. -/
def pickUncles (s : BlockStore) : (room : Nat) → (referenced : List Bytes32) → List FullBlock → List BlockHeader
  | 0, _, _ => []
  | _, _, [] => []
  | room + 1, referenced, c :: l =>
    if s.eligibleUncle referenced c = true then c.header :: s.pickUncles room (c.getHash :: referenced) l
    else s.pickUncles (room + 1) referenced l

/-- **`SortsByHeight sort`** — `sort.Slice` by height: lowest first, equal heights in any order. -/
def SortsByHeight (sort : List FullBlock → List FullBlock) : Prop :=
  ∀ l, (sort l).Perm l ∧ (sort l).Pairwise fun a b => a.getHeight ≤ b.getHeight

/-- One way to do it. -/
def byHeight (l : List FullBlock) : List FullBlock := l.insertionSort fun a b => a.getHeight ≤ b.getHeight

/-- **`collectUncles`** — what a block on the tip may reference, lowest first. -/
def collectUncles (sort : List FullBlock → List FullBlock) (s : BlockStore) : Except Err (List BlockHeader) :=
  let nextHeight := s.latestHeight + 1
  if nextHeight < 2 then .ok []
  else do
    let minH := max 1 (nextHeight - uncleMaxDepth)
    let referenced ← s.referencedUncles (nextHeight - (uncleMaxDepth + 1)) s.latestHeight
    let candidates ← s.listSideBlocksInRange minH s.latestHeight
    return s.pickUncles maxUncles referenced (sort candidates)

end BlockStore

/-! ## §4 — templates -/

/-- **`PoWorkConfig`** — the part of the consensus manager's configuration that templates read. -/
structure PoWorkConfig where
  network : Network
  minerExtraData : Bytes

/-- **`templateBlockTime`** — the clock, but after the parent. -/
def templateBlockTime (now : Nat) (parent : FullBlock) : Nat :=
  if now ≤ parent.header.timestamp then parent.header.timestamp + 1 else now

/-- **`dryApplyRoot`** — the root the block would leave; nothing is kept. -/
def dryApplyRoot [Engine] (cfg : Config) (block : FullBlock) (s : State) : Except Err Bytes32 := do
  let (_, s') ← (upgrade cfg block).exec s
  return s'.stateRoot

namespace PoWorkConfig

def nextBaseFeeBytes (pow : PoWorkConfig) (parent : FullBlock) : Bytes :=
  beBytes (nextBaseFee pow.network parent.getHeight (beVal parent.header.baseFee) (blockUsedBytes parent))

section Assembly

variable [Crypto]

/-- What both kinds of template start from: the bare block on the tip, its base fee set. -/
def bareBlock (pow : PoWorkConfig) (now : Nat) (tip : FullBlock) : Except Err FullBlock := do
  let blockTime := templateBlockTime now tip
  let newDiff ← getNextDiff (tip.getHeight + 1) blockTime tip.header
  let block := newBareBlock pow.network (tip.getHeight + 1) blockTime tip.getHash.val newDiff
  return { block with header := { block.header with baseFee := pow.nextBaseFeeBytes tip } }

/-- **`getBareBlockTemplateWithTxs`** — for a miner that brings its own mint; `uncles` is what the chain collected. -/
def getBareBlockTemplateWithTxs (pow : PoWorkConfig) (now : Nat) (tip : FullBlock) (uncles : Except Err (List BlockHeader))
    (pool : TxPool) : Except Err (FullBlock × List FullTx) := do
  let height := tip.getHeight + 1
  let bareBlock := (← pow.bareBlock now tip).setCommits (pool.getCommitPack height)
  match uncles with
  | .ok uncles =>
    return (bareBlock.setUncles uncles,
      buildUncleRewardTxs pow.network (FullBlock.sortUncles uncles) height ++ pool.getPack height)
  | .error _ => return (bareBlock, pool.getPack height)

end Assembly

variable [Engine]

/-- **`getBlockTemplate`** — everything but the nonce; a failed step is logged and skipped. -/
def getBlockTemplate (pow : PoWorkConfig) (cfg : Config) (key : PrivateKey) (now : Nat) (tip : FullBlock)
    (uncles : Except Err (List BlockHeader)) (pool : TxPool) (s : State) : Except Err FullBlock := do
  let height := tip.getHeight + 1
  let newBlock ← pow.bareBlock now tip
  let (newBlock, uncleRewards) := match uncles with
    | .ok uncles =>
      (newBlock.setUncles uncles, buildUncleRewardTxs pow.network (FullBlock.sortUncles uncles) height)
    | .error _ => (newBlock, [])
  let newBlock := newBlock.setCoinbase (newAddress key)
  let genTx := createGenerateTx pow.network key height pow.minerExtraData
  let newBlock := newBlock.setCommits (pool.getCommitPack height)
  let newBlock := match newBlock.toUnsealing (genTx :: uncleRewards ++ pool.getPack height) with
    | .ok block => block
    | .error _ => newBlock
  return match dryApplyRoot cfg newBlock s with
    | .ok root => { newBlock with header := { newBlock.header with stateRoot := root.val } }
    | .error _ => newBlock

/-- **`assembleWork`** — the same around the mint of an external miner; a failed step fails the call. -/
def assembleWork (pow : PoWorkConfig) (cfg : Config) (gen : FullTx) (now : Nat) (tip : FullBlock)
    (uncles : Except Err (List BlockHeader)) (pool : TxPool) (s : State) : Except Err FullBlock := do
  let (bareBlock, txs) ← pow.getBareBlockTemplateWithTxs now tip uncles pool
  let block ← (bareBlock.setCoinbase gen.toAddr).toUnsealing (gen :: txs)
  let root ← dryApplyRoot cfg block s
  return { block with header := { block.header with stateRoot := root.val } }

end PoWorkConfig

/-! ## §5 — capacity -/

namespace FullBlock

/-- **`WithinCapacity x`** — the capacity rules of `CheckError`. -/
def WithinCapacity (x : FullBlock) : Prop :=
  x.txs.length ≤ maxBlockTxCount ∧ x.commits.length ≤ maxBlockCommitCount ∧ x.raw.length ≤ maxBlockBytes

end FullBlock

/-- The wire size of a list of entries, its prefix included. -/
def wireSize {α : Type} (raw : α → Bytes) (l : List α) : Nat := listSize (l.map fun a => (raw a).length).sum

/-- The wire size of a block with these parts. -/
def blockSize (headerSize : Nat) (txs : List FullTx) (uncles : List BlockHeader) (commits : List Commitment) : Nat :=
  listSize (headerSize + wireSize FullTx.raw txs + wireSize BlockHeader.raw uncles + wireSize Commitment.raw commits)

/-- A block whose commitments were set has them on the wire, also when there are none. -/
theorem FullBlock.length_raw {x : FullBlock} {commits : List Commitment} (h : x.commits? = some commits) :
    x.raw.length = blockSize x.header.raw.length x.txs x.uncles commits := by
  have hcommits : x.commits = commits := by rw [FullBlock.commits, h]; rfl
  unfold FullBlock.raw FullBlock.item blockSize wireSize
  rw [Lib.Rlp.length_encode_list, hcommits, if_pos (by rw [h]; exact Option.some_ne_none _)]
  simp only [List.cons_append, List.nil_append, List.map_cons, List.map_nil, List.sum_cons, List.sum_nil,
    Lib.Rlp.length_encode_list, List.map_map, Nat.add_zero, Nat.add_assoc]
  rfl

theorem wireSize_le {α : Type} (raw : α → Bytes) {l m : List α} (h : l.Subperm m) : wireSize raw l ≤ wireSize raw m := by
  obtain ⟨k, hperm, hsub⟩ := h
  refine Lib.Rlp.listSize_mono ?_
  rw [← (hperm.map fun a => (raw a).length).sum_eq]
  exact (hsub.map fun a => (raw a).length).sum_le_sum (by simp)

theorem wireSize_perm {α : Type} (raw : α → Bytes) {l m : List α} (h : l.Perm m) : wireSize raw l = wireSize raw m := by
  unfold wireSize
  rw [(h.map _).sum_eq]

theorem blockSize_le {txs txs' : List FullTx} {commits commits' : List Commitment} (headerSize : Nat)
    (uncles : List BlockHeader) (htxs : txs.Subperm txs') (hcommits : commits.Subperm commits') :
    blockSize headerSize txs uncles commits ≤ blockSize headerSize txs' uncles commits' := by
  have h₁ := wireSize_le FullTx.raw htxs
  have h₂ := wireSize_le Commitment.raw hcommits
  exact Lib.Rlp.listSize_mono (by omega)

theorem length_raw_le_blockSize {tx : FullTx} {txs : List FullTx} (headerSize : Nat) (uncles : List BlockHeader)
    (commits : List Commitment) (htx : tx ∈ txs) : tx.raw.length ≤ blockSize headerSize txs uncles commits := by
  have hmem : tx.raw.length ≤ (txs.map fun tx => tx.raw.length).sum :=
    List.single_le_sum (by simp) _ (List.mem_map_of_mem htx)
  unfold blockSize wireSize listSize
  omega

/-- **`Room header mints uncles pool`** — with everything the pool holds for the height, and the mints, a block is
within its count of transactions and its bytes. -/
structure Room (header : BlockHeader) (mints : List FullTx) (uncles : List BlockHeader) (pool : TxPool) : Prop where
  count : mints.length + (pool.packableTxs header.height).length ≤ maxBlockTxCount
  bytes : blockSize header.raw.length (mints ++ pool.packableTxs header.height) uncles
    (pool.packableCommits header.height) ≤ maxBlockBytes

section Templates

variable [Crypto]

/-- **`pool.Distinct height`** — no two transactions of the height share an id, no two of its commitments a hash, and
there are no more commitments than a block takes. -/
structure TxPool.Distinct (height : Nat) (pool : TxPool) : Prop where
  txids : ((pool.packableTxs height).map FullTx.getHash).Nodup
  hashes : ((pool.packableCommits height).map Commitment.hash).Nodup
  commits : (pool.packableCommits height).length ≤ maxBlockCommitCount

/-- **`Fits block header mints uncles pool`** — the block is within capacity when there is room, and only then where the
pool's entries are distinct. -/
def Fits (block : FullBlock) (header : BlockHeader) (mints : List FullTx) (uncles : List BlockHeader) (pool : TxPool) :
    Prop :=
  (Room header mints uncles pool → block.WithinCapacity) ∧
    (pool.Distinct header.height → block.WithinCapacity → Room header mints uncles pool)

theorem fits_of_perm {x : FullBlock} {header : BlockHeader} {mints : List FullTx}
    {uncles : List BlockHeader} {pool : TxPool} (hmints : mints ≠ [])
    (hheader : x.header.raw.length = header.raw.length)
    (htxs : x.txs.Perm (mints ++ pool.getPack header.height)) (huncles : x.uncles.Perm uncles)
    (hcommits : x.commits? = some (pool.getCommitPack header.height)) : Fits x header mints uncles pool := by
  obtain ⟨hpack, hpackAll⟩ := TxPool.getPack_perm header.height pool
  obtain ⟨hcommitPack, hcommitAll⟩ := TxPool.getCommitPack_perm header.height pool
  have hsize : x.raw.length =
      blockSize header.raw.length (mints ++ pool.getPack header.height) uncles (pool.getCommitPack header.height) := by
    rw [FullBlock.length_raw hcommits, hheader]
    unfold blockSize
    rw [wireSize_perm _ htxs, wireSize_perm _ huncles]
  have hcount : x.txs.length = mints.length + min maxBlockTxCount
      ((pool.packableTxs header.height).map FullTx.getHash).dedup.length := by
    rw [htxs.length_eq, List.length_append, TxPool.length_getPack]
  have hcommitCount : x.commits.length ≤ maxBlockCommitCount := by
    rw [FullBlock.commits, hcommits]
    exact TxPool.length_getCommitPack_le
  refine ⟨fun hroom => ?_, fun hdistinct hfits => ?_⟩
  · have hle := hpack.length_le
    have hroomCount := hroom.count
    refine ⟨?_, hcommitCount, ?_⟩
    · rw [htxs.length_eq, List.length_append]
      omega
    · rw [hsize]
      exact (blockSize_le _ _ ((List.subperm_append_left mints).mpr hpack) hcommitPack).trans hroom.bytes
  · -- a full pack leaves no room for a single mint, so the pack is all that the pool holds
    have hpos : 0 < mints.length := List.length_pos_iff.mpr hmints
    have htxCount := hfits.1
    rw [hcount, hdistinct.txids.dedup, List.length_map] at htxCount
    have hroomCount : mints.length + (pool.packableTxs header.height).length ≤ maxBlockTxCount := by omega
    refine ⟨hroomCount, ?_⟩
    have hbytes := hfits.2.2
    unfold blockSize at hsize ⊢
    rw [hsize, wireSize_perm _ ((hpackAll hdistinct.txids (by omega)).append_left mints),
      wireSize_perm _ (hcommitAll hdistinct.hashes hdistinct.commits)] at hbytes
    exact hbytes

/-- **`Fills bare block`** — the header of `block` is the bare one with its six placeholders filled in. -/
def Fills (bare block : FullBlock) : Prop :=
  ∃ (a b c d e : Bytes32) (nonce : Bytes), nonce.length = nonceSize ∧ block.header =
    { bare.header with
      txTrieHash := a.val
      witnessRoot := b.val
      coinbase := c.val
      unclesHash := d.val
      stateRoot := e.val
      nonce }

omit [Crypto] in
theorem Fills.length_raw {bare block : FullBlock} (h : Fills bare block) (hbare : Fills bare bare) :
    block.header.raw.length = bare.header.raw.length := by
  have hword : ∀ w : Bytes32, (encode (.str w.val)).length = 33 := by
    intro w
    rw [Lib.Rlp.length_encode_str (by rw [w.property]; decide), w.property]
    decide
  have hnonce : ∀ nonce : Bytes, nonce.length = nonceSize → (encode (.str nonce)).length = 9 := by
    intro nonce hlen
    rw [Lib.Rlp.length_encode_str (by rw [hlen]; decide), hlen]
    decide
  obtain ⟨a, b, c, d, e, nonce, hlen, heq⟩ := h
  obtain ⟨a', b', c', d', e', nonce', hlen', heq'⟩ := hbare
  rw [heq, heq']
  unfold BlockHeader.raw BlockHeader.item
  simp only [Lib.Rlp.length_encode_list, List.map_cons, List.map_nil, hword, hnonce nonce hlen, hnonce nonce' hlen']

theorem fills_bareBlock {pow : PoWorkConfig} {now : Nat} {tip bare : FullBlock} (h : pow.bareBlock now tip = .ok bare) :
    Fills bare bare ∧ bare.header.height = tip.getHeight + 1 ∧ bare.header.network = pow.network := by
  obtain ⟨diff, _, h⟩ := bind_eq_ok.mp h
  cases pure_eq_ok.mp h
  exact ⟨⟨zero32, zero32, zero32, zero32, zero32, _, List.length_replicate, rfl⟩, rfl, rfl⟩

theorem FullBlock.toUnsealing_eq_ok {gen : FullTx} {rest : List FullTx} {x y : FullBlock}
    (h : x.toUnsealing (gen :: rest) = .ok y) :
    y = { x with
      txs := newTxTrie (gen :: rest)
      header := { x.header with
        txTrieHash := (calcContentRoot (newTxTrie (gen :: rest)) x.commits).val
        witnessRoot := (calcWitnessRoot (newTxTrie (gen :: rest)) x.commits).val } } := by
  obtain ⟨_, _, h⟩ := bind_eq_ok.mp h
  obtain ⟨_, _, h⟩ := bind_eq_ok.mp h
  exact (pure_eq_ok.mp h).symm

/-- Mints, and transactions of the height that are none, are all a template needs. -/
theorem FullBlock.toUnsealing_ok {gen : FullTx} {rest : List FullTx} {x : FullBlock} (hgen : gen.type = generateTx)
    (hrest : ∀ tx ∈ rest, tx.type = generateTx ∧ tx.sign = [] ∨ tx.type ≠ generateTx ∧ tx.height = x.header.height) :
    ∃ y, x.toUnsealing (gen :: rest) = .ok y := by
  refine ⟨_, bind_eq_ok.mpr ⟨(), ensure_eq_ok.mpr hgen, bind_eq_ok.mpr ⟨(), forM_eq_ok.mpr ?_, rfl⟩⟩⟩
  intro tx htx
  rcases hrest tx htx with ⟨htype, hsign⟩ | ⟨htype, hheight⟩
  · rw [if_pos htype]
    exact ensure_eq_ok.mpr (by simp [FullTx.isSigned, hsign])
  · rw [if_neg htype]
    exact ensure_eq_ok.mpr hheight

section Steps

variable {bare x : FullBlock} (h : Fills bare x)

include h

omit [Crypto] in
theorem Fills.height : x.header.height = bare.header.height := by
  obtain ⟨a, b, c, d, e, nonce, _, heq⟩ := h
  rw [heq]

omit [Crypto] in
theorem Fills.network : x.header.network = bare.header.network := by
  obtain ⟨a, b, c, d, e, nonce, _, heq⟩ := h
  rw [heq]

omit [Crypto] in
theorem Fills.setCoinbase (addr : Address) : Fills bare (x.setCoinbase addr) := by
  obtain ⟨a, b, _, d, e, nonce, hlen, heq⟩ := h
  refine ⟨a, b, addr, d, e, nonce, hlen, ?_⟩
  show { x.header with coinbase := addr.val } = _
  rw [heq]

theorem Fills.setUncles (uncles : List BlockHeader) : Fills bare (x.setUncles uncles) := by
  obtain ⟨a, b, c, _, e, nonce, hlen, heq⟩ := h
  refine ⟨a, b, c, calcUnclesHash (FullBlock.sortUncles uncles), e, nonce, hlen, ?_⟩
  show { x.header with unclesHash := (calcUnclesHash (FullBlock.sortUncles uncles)).val } = _
  rw [heq]

theorem Fills.toUnsealing {gen : FullTx} {rest : List FullTx} {y : FullBlock}
    (hy : x.toUnsealing (gen :: rest) = .ok y) : Fills bare y := by
  obtain ⟨_, _, c, d, e, nonce, hlen, heq⟩ := h
  rw [FullBlock.toUnsealing_eq_ok hy]
  generalize calcContentRoot (FullBlock.newTxTrie (gen :: rest)) x.commits = a
  generalize calcWitnessRoot (FullBlock.newTxTrie (gen :: rest)) x.commits = b
  refine ⟨a, b, c, d, e, nonce, hlen, ?_⟩
  show { x.header with txTrieHash := a.val, witnessRoot := b.val } = _
  rw [heq]

omit [Crypto] in
theorem Fills.stateRoot (root : Bytes32) : Fills bare { x with header := { x.header with stateRoot := root.val } } := by
  obtain ⟨a, b, c, d, _, nonce, hlen, heq⟩ := h
  refine ⟨a, b, c, d, root, nonce, hlen, ?_⟩
  show { x.header with stateRoot := root.val } = _
  rw [heq]

omit [Crypto] in
theorem Fills.toSealed {nonce : Bytes} {y : FullBlock} (hy : x.toSealed nonce = .ok y) : Fills bare y := by
  obtain ⟨_, hnonce, hy⟩ := bind_eq_ok.mp hy
  obtain ⟨a, b, c, d, e, _, _, heq⟩ := h
  cases pure_eq_ok.mp hy
  refine ⟨a, b, c, d, e, nonce, ensure_eq_ok.mp hnonce, ?_⟩
  show { x.header with nonce } = _
  rw [heq]

end Steps

/-- The uncles a template references. -/
def collected (uncles : Except Err (List BlockHeader)) : List BlockHeader :=
  match uncles with
  | .ok uncles => uncles
  | .error _ => []

/-- The mints of a template: the miner's, and one per uncle. -/
def mintsOf (network : Network) (gen : FullTx) (uncles : Except Err (List BlockHeader)) (height : Nat) : List FullTx :=
  gen :: buildUncleRewardTxs network (FullBlock.sortUncles (collected uncles)) height

/-- **`Assembled bare mints uncles pool block`** — the block is the bare one around the mints and the packs. -/
structure Assembled (bare : FullBlock) (mints : List FullTx) (uncles : List BlockHeader) (pool : TxPool)
    (block : FullBlock) : Prop where
  header : Fills bare block
  txs : block.txs.Perm (mints ++ pool.getPack bare.header.height)
  uncles : block.uncles.Perm uncles
  commits : block.commits? = some (pool.getCommitPack bare.header.height)

end Templates

section Assembly

variable [Engine] {pow : PoWorkConfig} {cfg : Config} {now : Nat} {tip bare block : FullBlock}
  {uncles : Except Err (List BlockHeader)} {pool : TxPool} {s : State}

/-- The bare block with its uncles set, whether or not collecting them failed. -/
theorem setUncles_collected (uncles : Except Err (List BlockHeader)) (hbare : pow.bareBlock now tip = .ok bare)
    (height : Nat) :
    (match uncles with
      | .ok uncles => (bare.setUncles uncles, buildUncleRewardTxs pow.network (FullBlock.sortUncles uncles) height)
      | .error _ => (bare, [])) =
      (bare.setUncles (collected uncles),
        buildUncleRewardTxs pow.network (FullBlock.sortUncles (collected uncles)) height) := by
  cases uncles with
  | ok uncles => rfl
  | error e =>
    obtain ⟨diff, _, h⟩ := bind_eq_ok.mp hbare
    cases pure_eq_ok.mp h
    rfl

theorem assembled_toUnsealing (network : Network) (uncles : Except Err (List BlockHeader)) {gen : FullTx}
    {x : FullBlock} (hx : Fills bare x) (huncles : x.uncles = FullBlock.sortUncles (collected uncles))
    (hcommits : x.commits? = some (pool.getCommitPack bare.header.height))
    (hblock : x.toUnsealing (mintsOf network gen uncles bare.header.height ++ pool.getPack bare.header.height) =
      .ok block) :
    Assembled bare (mintsOf network gen uncles bare.header.height) (collected uncles) pool block := by
  refine ⟨hx.toUnsealing hblock, ?_, ?_, ?_⟩ <;> rw [FullBlock.toUnsealing_eq_ok hblock]
  · exact List.perm_insertionSort _ _
  · show x.uncles.Perm _
    rw [huncles]
    exact List.perm_insertionSort _ _
  · exact hcommits

/-- The pool's packs never stop a template: its entries are no mints, and of the height that is asked for. -/
theorem exists_toUnsealing (network : Network) (uncles : Except Err (List BlockHeader)) {x : FullBlock} {gen : FullTx}
    (hpool : pool.Stocked) (hgen : gen.type = generateTx) :
    ∃ y, x.toUnsealing (mintsOf network gen uncles x.header.height ++ pool.getPack x.header.height) = .ok y := by
  refine FullBlock.toUnsealing_ok hgen fun tx htx => ?_
  rcases List.mem_append.mp htx with hmint | hpack
  · obtain ⟨u, _, rfl⟩ := List.mem_map.mp hmint
    exact .inl ⟨rfl, rfl⟩
  · obtain ⟨hmem, hat⟩ := List.mem_filter.mp (TxPool.mem_packableTxs hpack)
    obtain ⟨⟨a, _⟩, he, rfl⟩ := List.mem_map.mp hmem
    exact .inr ⟨hpool.ne_generateTx a _ ((Bucket.mem_toList_iff _ _ _).mp he), of_decide_eq_true hat⟩

omit [Engine] in
theorem createGenerateTx_eq [Crypto] (network : Network) (key : PrivateKey) (height : Nat) (extraData : Bytes) :
    ∃ sign?, createGenerateTx network key height extraData =
      ⟨network, generateTx, height, newAddress key, getBlockReward height, 0, extraData, sign?, none⟩ := by
  unfold createGenerateTx FullTx.signature
  dsimp only
  split
  · exact ⟨_, rfl⟩
  · split <;> exact ⟨_, rfl⟩

/-- A template is handed out whenever there is a bare block. -/
theorem exists_getBlockTemplate (cfg : Config) (key : PrivateKey) (uncles : Except Err (List BlockHeader))
    (pool : TxPool) (s : State) (hbare : pow.bareBlock now tip = .ok bare) :
    ∃ block, pow.getBlockTemplate cfg key now tip uncles pool s = .ok block := by
  unfold PoWorkConfig.getBlockTemplate
  rw [hbare]
  exact ⟨_, rfl⟩

/-- **What `GetBlockTemplate` hands out.** -/
theorem getBlockTemplate_assembled {key : PrivateKey} (hpool : pool.Stocked) (hbare : pow.bareBlock now tip = .ok bare)
    (h : pow.getBlockTemplate cfg key now tip uncles pool s = .ok block) :
    Assembled bare (mintsOf pow.network (createGenerateTx pow.network key bare.header.height pow.minerExtraData)
      uncles bare.header.height) (collected uncles) pool block := by
  obtain ⟨hfills, hheight, _⟩ := fills_bareBlock hbare
  unfold PoWorkConfig.getBlockTemplate at h
  rw [hbare] at h
  dsimp only [bind, Except.bind, pure, Except.pure] at h
  rw [setUncles_collected uncles hbare, ← hheight] at h
  dsimp only at h
  have hx : Fills bare (((bare.setUncles (collected uncles)).setCoinbase (newAddress key)).setCommits
    (pool.getCommitPack bare.header.height)) := (hfills.setUncles (collected uncles)).setCoinbase (newAddress key)
  obtain ⟨_, hgen⟩ := createGenerateTx_eq pow.network key bare.header.height pow.minerExtraData
  obtain ⟨y, hy⟩ := exists_toUnsealing pow.network uncles hpool (congrArg FullTx.type hgen)
  rw [hx.height] at hy
  have hassembled := assembled_toUnsealing pow.network uncles hx rfl rfl hy
  rw [mintsOf] at hy
  rw [hy] at h
  dsimp only at h
  split at h
  · cases h
    exact ⟨hassembled.header.stateRoot _, hassembled.txs, hassembled.uncles, hassembled.commits⟩
  · cases h
    exact hassembled

/-- **What `AssembleWork` hands out.** -/
theorem assembleWork_assembled {gen : FullTx} (hbare : pow.bareBlock now tip = .ok bare)
    (h : pow.assembleWork cfg gen now tip uncles pool s = .ok block) :
    Assembled bare (mintsOf pow.network gen uncles bare.header.height) (collected uncles) pool block := by
  obtain ⟨hfills, hheight, _⟩ := fills_bareBlock hbare
  obtain ⟨⟨x, txs⟩, htemplate, h⟩ := bind_eq_ok.mp h
  obtain ⟨y, hy, h⟩ := bind_eq_ok.mp h
  obtain ⟨root, _, h⟩ := bind_eq_ok.mp h
  cases pure_eq_ok.mp h
  have hparts : x = (bare.setUncles (collected uncles)).setCommits (pool.getCommitPack bare.header.height) ∧
      txs = buildUncleRewardTxs pow.network (FullBlock.sortUncles (collected uncles)) bare.header.height ++
        pool.getPack bare.header.height := by
    unfold PoWorkConfig.getBareBlockTemplateWithTxs at htemplate
    rw [hbare, ← hheight] at htemplate
    have hset := setUncles_collected uncles hbare bare.header.height
    cases uncles with
    | ok uncles => cases htemplate; exact ⟨rfl, rfl⟩
    | error e =>
      cases htemplate
      have hsame : bare = bare.setUncles [] := congrArg Prod.fst hset
      exact ⟨congrArg (FullBlock.setCommits _) hsame, rfl⟩
  obtain ⟨rfl, rfl⟩ := hparts
  have hx := (hfills.setUncles (collected uncles)).setCoinbase gen.toAddr
  have hassembled := assembled_toUnsealing pow.network uncles
    (x := FullBlock.setCoinbase gen.toAddr ((bare.setUncles (collected uncles)).setCommits
      (pool.getCommitPack bare.header.height))) hx rfl rfl hy
  exact ⟨hassembled.header.stateRoot _, hassembled.txs, hassembled.uncles, hassembled.commits⟩

/-- **Capacity of templates**: whatever a pool filled through its own admission holds and whatever uncles were
collected, the block a miner seals, its own or an external one's, respects the capacity rules when the entries the pool
has for the height leave room for the mints and fit into the bytes of a block, and where they are distinct only then. -/
theorem template_fits (hpool : pool.Stocked) (hbare : pow.bareBlock now tip = .ok bare) (nonce : Bytes)
    (sealed : FullBlock) :
    (∀ key, (pow.getBlockTemplate cfg key now tip uncles pool s >>= FullBlock.toSealed nonce) = .ok sealed →
      Fits sealed bare.header (mintsOf pow.network
        (createGenerateTx pow.network key bare.header.height pow.minerExtraData) uncles bare.header.height)
        (collected uncles) pool) ∧
    ∀ gen, (pow.assembleWork cfg gen now tip uncles pool s >>= FullBlock.toSealed nonce) = .ok sealed →
      Fits sealed bare.header (mintsOf pow.network gen uncles bare.header.height) (collected uncles) pool := by
  obtain ⟨hfills, _⟩ := fills_bareBlock hbare
  -- sealing fills in the nonce and touches nothing else
  have hsealed : ∀ {mints : List FullTx} {block : FullBlock}, mints ≠ [] →
      Assembled bare mints (collected uncles) pool block → block.toSealed nonce = .ok sealed →
      Fits sealed bare.header mints (collected uncles) pool := by
    intro mints block hmints hblock hseal
    have hheader := (hblock.header.toSealed hseal).length_raw hfills
    obtain ⟨_, _, hseal⟩ := bind_eq_ok.mp hseal
    cases pure_eq_ok.mp hseal
    exact fits_of_perm hmints hheader hblock.txs hblock.uncles hblock.commits
  constructor
  · intro key h
    obtain ⟨block, hblock, hseal⟩ := bind_eq_ok.mp h
    exact hsealed (List.cons_ne_nil _ _) (getBlockTemplate_assembled hpool hbare hblock) hseal
  · intro gen h
    obtain ⟨block, hblock, hseal⟩ := bind_eq_ok.mp h
    exact hsealed (List.cons_ne_nil _ _) (assembleWork_assembled hbare hblock) hseal

end Assembly

/-- The hand-made keys as signing keys. -/
def handSigner (i : UInt8) : PrivateKey := ⟨schemeSecp256k1, handKey i, fun hash => some (handKey i ++ hash)⟩

section Fitting

variable [Crypto]

/-- A payment and the commitment to it. -/
def handFitting : FullTx := handPay 1 3 (handAddr 2) 5

/-- A chain that ends in the commitment, with another first block beside it. -/
def handForked : List FullBlock :=
  let first := handSeal handGenesis 1 [] []
  [first, handSeal handGenesis 2 [] [], handSeal first 1 [] [handCommit 1 2 (10 ^ 13) handFitting]]

/-- The next commitment. -/
def handNextCommit : Commitment := handCommit 1 3 (10 ^ 13) (handPay 1 4 (handAddr 2) 6)

end Fitting

/-- A template with an uncle, its mint, a payment and a commitment from the pool fits. -/
theorem template_fits_handForked :
    letI := Engine.bare
    ∃ (n : Node State) (tip sealed : FullBlock) (pool : TxPool),
      Node.Reachable ⟨ZERONET, true⟩ {x | x ∈ (handForked ++ []).map FullBlock.header} n ∧
      n.store.getLatestBlock = .ok tip ∧ pool.Stocked ∧
      (PoWorkConfig.getBlockTemplate ⟨ZERONET, []⟩ ⟨ZERONET, true⟩ (handSigner 1) handNow tip
        (n.store.collectUncles BlockStore.byHeight) pool n.state >>= FullBlock.toSealed (List.replicate 8 0)) =
          .ok sealed ∧
      (sealed.getHeight = 3 ∧ sealed.txs.length = 3 ∧ handFitting ∈ sealed.txs ∧ sealed.commits = [handNextCommit] ∧
        sealed.uncles = [(handSeal handGenesis 2 [] []).header]) ∧ sealed.WithinCapacity := by
  let _ := Engine.bare
  let pow : PoWorkConfig := ⟨ZERONET, []⟩
  let empty := TxPool.init defaultPoolSize defaultMinFeePerByte
  obtain ⟨n, hr, _, htest⟩ := exists_reachable_byHand (fun _ => none) true handForked [] (fun n =>
    okAnd n.store.getLatestBlock fun tip => okAnd (empty.putTx 3 (some tip) n.state.view handFitting) fun first =>
      okAnd (first.putCommitment 3 (some tip) n.state.view handNextCommit) fun pool =>
      okAnd (pow.bareBlock handNow tip) (fun bare =>
        let uncles := n.store.collectUncles BlockStore.byHeight
        let mints := mintsOf ZERONET (createGenerateTx ZERONET (handSigner 1) bare.header.height []) uncles
          bare.header.height
        decide (mints.length + (pool.packableTxs bare.header.height).length ≤ maxBlockTxCount ∧
          blockSize bare.header.raw.length (mints ++ pool.packableTxs bare.header.height) (collected uncles)
            (pool.packableCommits bare.header.height) ≤ maxBlockBytes)) &&
      okAnd (pow.getBlockTemplate ⟨ZERONET, true⟩ (handSigner 1) handNow tip
        (n.store.collectUncles BlockStore.byHeight) pool n.state >>= FullBlock.toSealed (List.replicate 8 0)) fun sealed =>
          decide (sealed.getHeight = 3 ∧ sealed.txs.length = 3 ∧ handFitting ∈ sealed.txs ∧
            sealed.commits = [handNextCommit] ∧ sealed.uncles = [(handSeal handGenesis 2 [] []).header]))
    (by decide +kernel)
  obtain ⟨tip, htip, htest⟩ := exists_of_okAnd htest
  obtain ⟨first, hfirst, htest⟩ := exists_of_okAnd htest
  obtain ⟨pool, hpool, htest⟩ := exists_of_okAnd htest
  rw [Bool.and_eq_true] at htest
  obtain ⟨bare, hbare, hroom⟩ := exists_of_okAnd htest.1
  obtain ⟨sealed, hsealed, hparts⟩ := exists_of_okAnd htest.2
  obtain ⟨hcount, hbytes⟩ := of_decide_eq_true hroom
  have hstocked : pool.Stocked := .putCommitment (.putTx (.init _ _) hfirst) hpool
  refine ⟨n, tip, sealed, pool, hr, htip, hstocked, hsealed, of_decide_eq_true hparts, ?_⟩
  exact ((template_fits hstocked hbare _ sealed).1 (handSigner 1) hsealed).1 ⟨hcount, hbytes⟩

/-! ## §6 — a transaction larger than a block

The salt of a reveal has a least length and no greatest. The byte 255 does not change the word `2 ^ 61 - 1` of the
hand-made hash, and the first bytes of the salt lead there. -/

section Bulk

variable [Crypto]

/-- A payment under a salt of `size` bytes after the lead. -/
def handBulk (size : Nat) : FullTx :=
  handSign 1 ⟨ZERONET, transactTx, 3, handAddr 2, 5, 10 ^ 17, [], none,
    some ([30, 5, 142, 168, 225, 94, 169, 213] ++ List.replicate size 255)⟩

/-- Its reveal hash. -/
def handBulkHash : Bytes32 := copy32 (packUint64LE (2 ^ 61 - 1))

/-- A chain that ends in its signed commitment. -/
def handBulky : List FullBlock :=
  let first := handSeal handGenesis 1 [] []
  let c : Commitment := ⟨ZERONET, 2, handBulkHash.val, 10 ^ 13, none⟩
  [first, handSeal first 1 [] [{ c with sign? := some (handEnvelope 1 c.signingHash) }]]

theorem length_salt_handBulk (size : Nat) : (handBulk size).salt.length = 8 + size := by
  show (_ ++ List.replicate size (255 : UInt8)).length = 8 + size
  rw [List.length_append, List.length_replicate]
  rfl

end Bulk

theorem revealHash_handBulk {size : Nat} (hsize : 26 ≤ size) :
    letI := Engine.bare
    revealHash (handBulk size) = handBulkHash := by
  let _ := Engine.bare
  have hstay : ∀ n, (List.replicate n 255).foldl (fun n (x : UInt8) => (n * 257 + x.toNat + 1) % 2 ^ 61) (2 ^ 61 - 1) =
      2 ^ 61 - 1 := by
    intro n
    induction n with
    | zero => rfl
    | succ n ih => exact ih
  show handHash ((handBulk 0).unheightedHash.val ++ ([30, 5, 142, 168, 225, 94, 169, 213] ++ List.replicate size 255)) = _
  have hlen : ((handBulk 0).unheightedHash.val ++ ([30, 5, 142, 168, 225, 94, 169, 213] ++ List.replicate size 255)).length ≠ 65 := by
    simp only [List.length_append, (handBulk 0).unheightedHash.property, List.length_replicate, List.length_cons]
    omega
  unfold handHash
  rw [if_neg fun h => hlen h.2, ← List.append_assoc]
  unfold foldHash
  rw [List.foldl_append, show List.foldl _ 7 _ = 2 ^ 61 - 1 by decide +kernel, hstay]
  rfl

theorem length_raw_handBulk {size : Nat} (hsize : size ≤ 2 ^ 23) :
    letI := Engine.bare
    size < (handBulk size).raw.length ∧ (handBulk size).raw.length ≤ 10 ^ 7 := by
  let _ := Engine.bare
  -- neither the salt nor its length is signed
  have hitem : ∀ n, (handBulk n).item = .list [.nat ZERONET.toNat, .nat transactTx.toNat, .nat 3, .str (handAddr 2).val,
      .nat 5, .nat (10 ^ 17), .str [], .str (handBulk 0).sign, .str (handBulk n).salt] := fun _ => rfl
  have hbound : Lib.Rlp.bound (handBulk size).item = Lib.Rlp.bound (handBulk 0).item + size := by
    simp only [hitem, Lib.Rlp.bound, Lib.Rlp.boundAll, length_salt_handBulk]
    omega
  have hempty : Lib.Rlp.bound (handBulk 0).item ≤ 1000 := by decide +kernel
  have hraw := Lib.Rlp.length_encode_le_bound (handBulk size).item (by omega)
  have hstr := Lib.Rlp.length_le_encodeStr (handBulk size).salt
  rw [length_salt_handBulk] at hstr
  refine ⟨lt_of_lt_of_le (by omega) (hstr.trans ?_), hraw.trans (by omega)⟩
  unfold FullTx.raw
  rw [hitem]
  exact Lib.Rlp.length_encode_le_of_mem (a := .str (handBulk size).salt) (by simp)

/-- **The pool admits the payment**, whatever the size of its salt, once its commitment is on chain. -/
theorem putTx_handBulk (size : Nat) (hge : 26 ≤ size) (hle : size ≤ 2 ^ 23) {v : View} {tip : FullBlock} :
    letI := Engine.bare
    let pool := TxPool.init defaultPoolSize defaultMinFeePerByte
    pool.effectiveFloorPerByte (some tip) = 10 ^ 10 →
    (v.findCommit (handAddr 1) handBulkHash 3).isSome = true → 10 ^ 17 + 5 ≤ v.bal (handAddr 1) →
    pool.putTx 3 (some tip) v (handBulk size) = .ok { pool with txMap := pool.txMap.insert (handAddr 1) (handBulk size) } := by
  let _ := Engine.bare
  intro pool hfloor hcommit hbal
  have hfrom : (handBulk size).fromAddr = .ok (handAddr 1) := by
    show (handBulk 0).fromAddr = .ok (handAddr 1)
    decide +kernel
  have hverify : (handBulk size).verify (some v.keyResolver) = .ok () := by
    show (handBulk 0).verify (some v.keyResolver) = .ok ()
    rw [FullTx.verify_lookup (show (handBulk 0).isCompactEnvelope = false by decide +kernel) _ none]
    decide +kernel
  have hsize := (length_raw_handBulk hle).2
  have hsalt : minSaltSize ≤ (handBulk size).salt.length := by
    rw [length_salt_handBulk]
    exact le_trans (by decide : 16 ≤ 8 + 26) (Nat.add_le_add_left hge 8)
  have hreveal : checkReveal v (handBulk size) = .ok () := by
    unfold checkReveal
    rw [if_neg (show (handBulk size).height ≠ 0 from (by decide : 3 ≠ 0))]
    refine bind_eq_ok.mpr ⟨(), ensure_eq_ok.mpr ?_, bind_eq_ok.mpr ⟨(), ensure_eq_ok.mpr hsalt, ?_⟩⟩
    · intro hnil
      rw [hnil] at hsalt
      exact absurd hsalt (by decide)
    · refine bind_eq_ok.mpr ⟨_, hfrom, ensure_eq_ok.mpr ?_⟩
      rw [revealHash_handBulk hge]
      exact hcommit
  have hcheck : checkTx v (handBulk size) = .ok () := by
    refine bind_eq_ok.mpr ⟨(), ensure_eq_ok.mpr rfl, bind_eq_ok.mpr ⟨(), ensure_eq_ok.mpr (Nat.zero_le _), ?_⟩⟩
    rw [if_pos (show (handBulk size).type = transactTx from rfl)]
    refine bind_eq_ok.mpr ⟨(), hreveal, bind_eq_ok.mpr ⟨(), hverify, bind_eq_ok.mpr ⟨handAddr 1, ?_, rfl⟩⟩⟩
    exact bind_eq_ok.mpr ⟨_, hfrom, bind_eq_ok.mpr ⟨(), ensure_eq_ok.mpr hbal, rfl⟩⟩
  refine bind_eq_ok.mpr ⟨(), ensure_eq_ok.mpr rfl, bind_eq_ok.mpr ⟨(), ensure_eq_ok.mpr ?_, ?_⟩⟩
  · rw [hfloor]
    show 10 ^ 10 * (handBulk size).raw.length ≤ 10 ^ 17
    omega
  · exact bind_eq_ok.mpr ⟨(), hcheck, bind_eq_ok.mpr ⟨_, hfrom, rfl⟩⟩

/-- **A single transaction overflows the block**: after two blocks the pool admits the payment with the large salt, and
the template it is packed into is larger than a block may be. -/
theorem template_overflows_handBulk :
    letI := Engine.bare
    ∃ (n : Node State) (tip block : FullBlock) (pool : TxPool),
      Set.InjOn BlockHeader.getHash (genesisHeaders ∪ {x | x ∈ handBulky.map FullBlock.header}) ∧
      Node.Reachable ⟨ZERONET, true⟩ {x | x ∈ handBulky.map FullBlock.header} n ∧
      n.store.getLatestBlock = .ok tip ∧
      (TxPool.init defaultPoolSize defaultMinFeePerByte).putTx 3 (some tip) n.state.view (handBulk (2 ^ 23)) = .ok pool ∧
      PoWorkConfig.getBlockTemplate ⟨ZERONET, []⟩ ⟨ZERONET, true⟩ (handSigner 1) handNow tip (n.store.collectUncles BlockStore.byHeight) pool
        n.state = .ok block ∧ ¬ block.WithinCapacity := by
  let _ := Engine.bare
  let pow : PoWorkConfig := ⟨ZERONET, []⟩
  let pool := TxPool.init defaultPoolSize defaultMinFeePerByte
  obtain ⟨n, hr, _, htest⟩ := exists_reachable_byHand (fun _ => none) true handBulky [] (fun n =>
    okAnd n.store.getLatestBlock fun tip =>
      okAnd (pow.bareBlock handNow tip) (fun bare => decide (bare.header.height = 3)) &&
      decide (pool.effectiveFloorPerByte (some tip) = 10 ^ 10) &&
      (n.state.view.findCommit (handAddr 1) handBulkHash 3).isSome &&
      decide (10 ^ 17 + 5 ≤ n.state.view.bal (handAddr 1))) (by decide +kernel)
  obtain ⟨tip, htip, htest⟩ := exists_of_okAnd htest
  simp only [Bool.and_eq_true, decide_eq_true_eq] at htest
  obtain ⟨⟨⟨hbare, hfloor⟩, hcommit⟩, hbal⟩ := htest
  obtain ⟨bare, hbare, hheight⟩ := exists_of_okAnd hbare
  have hheight : bare.header.height = 3 := of_decide_eq_true hheight
  have hput := putTx_handBulk (2 ^ 23) (by decide) le_rfl hfloor hcommit hbal
  obtain ⟨block, hblock⟩ := exists_getBlockTemplate ⟨ZERONET, true⟩ (handSigner 1) (n.store.collectUncles BlockStore.byHeight)
    { pool with txMap := pool.txMap.insert (handAddr 1) (handBulk (2 ^ 23)) } n.state hbare
  refine ⟨n, tip, block, _, injOn_byHand _ (by decide +kernel), hr, htip, hput, hblock, ?_⟩
  intro hfits
  have hassembled := getBlockTemplate_assembled (.putTx (.init _ _) hput) hbare hblock
  have hbytes := hfits.2.2
  rw [FullBlock.length_raw hassembled.commits] at hbytes
  -- the payment is what the pool packs, and alone too large
  have hpacked := TxPool.mem_getPack_insert (handAddr 1) (handBulk (2 ^ 23)) (show pool.txMap = ∅ from rfl)
  rw [show (handBulk (2 ^ 23)).height = bare.header.height from hheight.symm] at hpacked
  have hmem : handBulk (2 ^ 23) ∈ block.txs := hassembled.txs.mem_iff.mpr (List.mem_append_right _ hpacked)
  have hsize := (length_raw_le_blockSize _ _ _ hmem).trans hbytes
  exact absurd (lt_of_lt_of_le (length_raw_handBulk le_rfl).1 hsize) (lt_irrefl _)

end NgCore
