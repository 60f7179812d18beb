/-
# NgCore.Types.Block — headers, blocks, their commitments and checks

`ngtypes/block_header.go`, `ngtypes/block.go`, `ngtypes/tx_trie.go`, the genesis block, the difficulty
retarget and the base-fee rule.

A header commits to its body through THREE digests: `txTrieHash` (merkle root over the hash-SORTED ids
of transactions and commitments), `witnessRoot` (hash over the per-item hashes of the signature
envelopes, in body order) and `unclesHash`. `checkError` recomputes all three.
-/
import NgCore.Types.Tx
import NgCore.Statetrie
import NgCore.Lib.MerkleTree

namespace NgCore

open Lib.Rlp (Item encode beBytes beVal)

/-! ## §1 — headers -/

/-- **`BlockHeader`** — every field is raw wire data, lengths included. -/
structure BlockHeader where
  network : Network
  height : Nat
  timestamp : Nat
  prevBlockHash : Bytes
  txTrieHash : Bytes
  witnessRoot : Bytes
  difficulty : Bytes
  coinbase : Bytes
  unclesHash : Bytes
  stateRoot : Bytes
  baseFee : Bytes
  nonce : Bytes
  deriving DecidableEq

namespace BlockHeader

def item (x : BlockHeader) : Item :=
  .list [.nat x.network.toNat, .nat x.height, .nat x.timestamp, .str x.prevBlockHash,
    .str x.txTrieHash, .str x.witnessRoot, .str x.difficulty, .str x.coinbase, .str x.unclesHash,
    .str x.stateRoot, .str x.baseFee, .str x.nonce]

def raw (x : BlockHeader) : Bytes := encode x.item

/-- **`getPoWRawHeader`** — the fixed-size pow preimage: every field copied into its slot. -/
def getPoWRawHeader (x : BlockHeader) : Bytes :=
  x.network :: (packUint64LE x.height ++ packUint64LE x.timestamp ++ (copy32 x.prevBlockHash).val ++
    (copy32 x.txTrieHash).val ++ (copy32 x.witnessRoot).val ++ (copy32 x.difficulty.reverse).val ++
    (copy32 x.coinbase).val ++ (copy32 x.unclesHash).val ++ (copy32 x.stateRoot).val ++
    (copy32 x.baseFee.reverse).val ++ (x.nonce ++ List.replicate 8 0).take 8)

variable [Crypto]

/-- **`getHash`** — the block hash covers the header only. -/
def getHash (x : BlockHeader) : Bytes32 := hash256 x.raw

/-- The pow hash as a number. -/
def powValue (x : BlockHeader) : Nat := beVal (powHash x.getPoWRawHeader).val

/-- **`actualDiff`** — the difficulty the nonce achieved (division by a zero hash panics). -/
def actualDiff (x : BlockHeader) : Except Err Nat :=
  if x.powValue = 0 then .error .panic else .ok (maxTarget / x.powValue)

/-- The nonce meets the header's own declared difficulty (a zero difficulty panics the division). -/
def checkPow (x : BlockHeader) (e : Err) : Except Err Unit := do
  ensure (beVal x.difficulty ≠ 0) .panic
  ensure (x.powValue < maxTarget / beVal x.difficulty) e

/-- **`checkStandaloneError`** — an uncle header on its own: sizes, not the genesis, not futuristic,
real proof of work. -/
def checkStandaloneError (now : Nat) (x : BlockHeader) : Except Err Unit := do
  ensure (x.prevBlockHash.length = hashSize ∧ x.txTrieHash.length = hashSize ∧
    x.witnessRoot.length = hashSize ∧ x.unclesHash.length = hashSize ∧
    x.stateRoot.length = hashSize ∧ x.coinbase.length = addressSize) .blockUnclesInvalid
  ensure (x.difficulty ≠ [] ∧ x.difficulty.length ≤ diffSize) .blockUnclesInvalid
  ensure (x.baseFee.length ≤ diffSize) .blockUnclesInvalid
  ensure (x.nonce.length = nonceSize) .blockUnclesInvalid
  ensure (x.height ≠ 0) .blockUnclesInvalid
  ensure (x.timestamp ≤ now + timestampDriftTolerance) .blockUnclesInvalid
  x.checkPow .blockUnclesInvalid

end BlockHeader

/-! ## §2 — blocks -/

/-- **`FullBlock`** — a header and its body. -/
structure FullBlock where
  header : BlockHeader
  txs : List FullTx
  uncles : List BlockHeader
  commits? : Option (List Commitment)
  deriving DecidableEq

def FullBlock.commits (x : FullBlock) : List Commitment := x.commits?.getD []

section Roots

variable [Crypto]

/-- The merkle combiner over digests. -/
def merkleNode (a b : Bytes32) : Bytes32 := hash256 (a.val ++ b.val)

/-- Digests in ascending byte order. -/
def sortHashes (l : List Bytes32) : List Bytes32 :=
  l.insertionSort fun a b => compare a b ≠ .gt

/-- **`contentRoot`** — merkle root over the hash-sorted contents; all-zero for none. -/
def contentRoot (hashes : List Bytes32) : Bytes32 :=
  (Lib.MerkleTree.root merkleNode (sortHashes hashes)).getD zero32

/-- The leaf hashes of a body: ids of the transactions, then unsigned hashes of the commitments. -/
def contentHashes (txs : List FullTx) (commits : List Commitment) : List Bytes32 :=
  txs.map FullTx.getHash ++ commits.map Commitment.getUnsignedHash

/-- **`calcContentRoot`** — `ContentRoot`: transactions and commitments in one content set. -/
def calcContentRoot (txs : List FullTx) (commits : List Commitment) : Bytes32 :=
  contentRoot (contentHashes txs commits)

/-- The envelope hashes of a body, in order. -/
def witnessHashes (txs : List FullTx) (commits : List Commitment) : List Bytes32 :=
  txs.map (fun tx => hash256 tx.sign) ++ commits.map fun c => hash256 c.sign

/-- **`calcWitnessRoot`** — the witness commitment: SALTS ARE NOT IN IT. -/
def calcWitnessRoot (txs : List FullTx) (commits : List Commitment) : Bytes32 :=
  hash256 ((witnessHashes txs commits).flatMap Subtype.val)

/-- **`calcUnclesHash`** — all-zero without uncles. -/
def calcUnclesHash (uncles : List BlockHeader) : Bytes32 :=
  if uncles = [] then zero32 else hash256 (uncles.flatMap fun u => u.getHash.val)

end Roots

namespace FullBlock

/-- The wire item; `commits` is a trailing optional. -/
def item (x : FullBlock) : Item :=
  .list ([x.header.item, .list (x.txs.map FullTx.item), .list (x.uncles.map BlockHeader.item)] ++
    if x.commits? ≠ none then [.list (x.commits.map Commitment.item)] else [])

def raw (x : FullBlock) : Bytes := encode x.item

def getHeight (x : FullBlock) : Nat := x.header.height

def getPrevHash (x : FullBlock) : Bytes := x.header.prevBlockHash

/-- **`isHead`** — a checkpoint block. -/
def isHead (x : FullBlock) : Bool := x.header.height % blockCheckRound = 0

variable [Crypto]

def getHash (x : FullBlock) : Bytes32 := x.header.getHash

/-- The uncle loop of `checkError`: each uncle stands on its own, is new, and is not the parent. -/
def checkUncles (now : Nat) (prevBlockHash : Bytes) :
    (seenUncle : List Bytes32) → List BlockHeader → Except Err Unit
  | _, [] => .ok ()
  | seenUncle, u :: uncles => do
    u.checkStandaloneError now
    ensure (u.getHash ∉ seenUncle) .blockUnclesInvalid
    ensure (u.getHash.val ≠ prevBlockHash) .blockUnclesInvalid
    checkUncles now prevBlockHash (u.getHash :: seenUncle) uncles

/-- **`verifyNonce`** — the genesis height skips the pow check. -/
def verifyNonce (x : FullBlock) : Except Err Unit :=
  if x.header.height = 0 then .ok () else x.header.checkPow .invalidNonce

omit [Crypto] in
/-- With the hand-made primitives every nonce meets every possible difficulty. -/
theorem verifyNonce_ofHash (hash : Bytes → Bytes32) (x : FullBlock)
    (hpos : 0 < beVal x.header.difficulty) (hle : 2 * beVal x.header.difficulty ≤ maxTarget) :
    @verifyNonce (Crypto.ofHash hash) x = .ok () := by
  let _ := Crypto.ofHash hash
  have hpow : x.header.powValue = 1 := show beVal (List.replicate 31 0 ++ [1]) = 1 by decide
  rw [verifyNonce]
  split
  · rfl
  · simp only [BlockHeader.checkPow, bind_eq_ok, ensure_eq_ok, hpow]
    exact ⟨(), hpos.ne', (Nat.le_div_iff_mul_le hpos).mpr hle⟩

/-- **`checkError`** — every context-free rule on a block, in source order (the sealed check is
subsumed by the nonce length). `now` is the local clock. -/
def checkError (now : Nat) (x : FullBlock) : Except Err Unit := do
  ensure (x.txs.length ≤ maxBlockTxCount) .blockTxsExcess
  ensure (x.commits.length ≤ maxBlockCommitCount) .blockCommitsExcess
  ensure (x.raw.length ≤ maxBlockBytes) .blockBytesExcess
  ensure (x.header.prevBlockHash.length = hashSize) .blockPrevHashInvalid
  ensure (x.header.txTrieHash.length = hashSize) .blockTxTrieHashInvalid
  ensure (x.header.nonce.length = nonceSize) .invalidNonce
  ensure (x.header.timestamp ≤ now + timestampDriftTolerance) .blockTimestampInvalid
  x.commits.forM fun c => c.checkError x.header.height none
  ensure ((x.txs.filter (·.type ≠ generateTx)).map FullTx.getHash).Nodup .blockDuplicateTx
  ensure (x.commits.map Commitment.hash).Nodup .blockDuplicateCommit
  ensure ((calcContentRoot x.txs x.commits).val = x.header.txTrieHash) .blockTxTrieHashInvalid
  ensure ((calcWitnessRoot x.txs x.commits).val = x.header.witnessRoot) .blockWitnessRootInvalid
  ensure (x.header.coinbase.length = addressSize) .blockUnclesInvalid
  ensure (x.header.unclesHash.length = hashSize) .blockUnclesInvalid
  ensure (x.header.stateRoot.length = hashSize) .blockStateRootInvalid
  ensure (x.header.baseFee.length ≤ diffSize) .blockBaseFeeInvalid
  ensure (x.uncles.length ≤ maxUncles) .blockUnclesInvalid
  ensure ((calcUnclesHash x.uncles).val = x.header.unclesHash) .blockUnclesInvalid
  checkUncles now x.header.prevBlockHash [] x.uncles
  x.verifyNonce

/-- **`Checked now x`** — what `checkError` establishes, as facts. -/
structure Checked (now : Nat) (x : FullBlock) : Prop where
  txCount : x.txs.length ≤ maxBlockTxCount
  commitCount : x.commits.length ≤ maxBlockCommitCount
  size : x.raw.length ≤ maxBlockBytes
  prevBlockHash : x.header.prevBlockHash.length = hashSize
  txTrieHash : x.header.txTrieHash.length = hashSize
  nonce : x.header.nonce.length = nonceSize
  timestamp : x.header.timestamp ≤ now + timestampDriftTolerance
  commit : ∀ c ∈ x.commits, c.checkError x.header.height none = .ok ()
  txNodup : ((x.txs.filter (·.type ≠ generateTx)).map FullTx.getHash).Nodup
  commitNodup : (x.commits.map Commitment.hash).Nodup
  contentRoot : (calcContentRoot x.txs x.commits).val = x.header.txTrieHash
  witnessRoot : (calcWitnessRoot x.txs x.commits).val = x.header.witnessRoot
  coinbase : x.header.coinbase.length = addressSize
  unclesHashSize : x.header.unclesHash.length = hashSize
  stateRoot : x.header.stateRoot.length = hashSize
  baseFee : x.header.baseFee.length ≤ diffSize
  uncleCount : x.uncles.length ≤ maxUncles
  unclesHash : (calcUnclesHash x.uncles).val = x.header.unclesHash
  uncles : checkUncles now x.header.prevBlockHash [] x.uncles = .ok ()
  pow : x.verifyNonce = .ok ()

/-- **The inversion of `checkError`**: it succeeds exactly on the blocks with all the facts. -/
theorem checkError_eq_ok {now : Nat} {x : FullBlock} {u : Unit} :
    x.checkError now = .ok u ↔ x.Checked now := by
  simp only [checkError, bind_eq_ok, ensure_eq_ok, forM_eq_ok, exists_const]
  constructor
  · rintro ⟨h1, h2, h3, h4, h5, h6, h7, h8, h9, h10, h11, h12, h13, h14, h15, h16, h17, h18,
      _, h19, h20⟩
    exact ⟨h1, h2, h3, h4, h5, h6, h7, h8, h9, h10, h11, h12, h13, h14, h15, h16, h17, h18, h19, h20⟩
  · rintro ⟨h1, h2, h3, h4, h5, h6, h7, h8, h9, h10, h11, h12, h13, h14, h15, h16, h17, h18, h19, h20⟩
    exact ⟨h1, h2, h3, h4, h5, h6, h7, h8, h9, h10, h11, h12, h13, h14, h15, h16, h17, h18,
      (), h19, h20⟩

end FullBlock

/-! ## §3 — genesis -/

section Genesis

variable [Crypto]

/-- **`getGenesisGenerateTx`** — the genesis mint. -/
def getGenesisGenerateTx (network : Network) : Except Err FullTx := do
  let sign ← getGenesisGenerateTxSignature network
  return { network, type := generateTx, height := 0, toAddr := genesisAddress,
           value := getBlockReward 0, fee := 0, extra := [], sign? := some sign, salt? := none }

/-- **`genesisStateRoot`** — the post-state root of the genesis block: one balance leaf. -/
def genesisStateRoot : Bytes32 :=
  Statetrie.root (Statetrie.update ∅ (Statetrie.leafPath .balance genesisAddress.val)
    (Statetrie.valueHash (beBytes (getBlockReward 0))))

/-- **`minimumDiffOf`** — the pow floor of a network. -/
def minimumDiffOf (network : Network) : Nat :=
  if network = ZERONET then 1 else minimumDifficulty

/-- **`getGenesisBlock`** — the sealed genesis block; unknown networks panic. -/
def getGenesisBlock (network : Network) : Except Err FullBlock := do
  let tx ← getGenesisGenerateTx network
  let timestamp ← getGenesisTimestamp network
  let nonce ← getGenesisBlockNonce network
  return {
    header := {
      network, height := 0, timestamp, nonce
      prevBlockHash := zero32.val
      txTrieHash := (contentRoot [tx.getHash]).val
      witnessRoot := (calcWitnessRoot [tx] []).val
      difficulty := beBytes (minimumDiffOf network)
      coinbase := genesisAddress.val
      unclesHash := zero32.val
      stateRoot := genesisStateRoot.val
      baseFee := beBytes minBaseFee }
    txs := [tx], uncles := [], commits? := none }

/-- **`isGenesis`** — by HEADER hash against the genesis of the block's own network. -/
def FullBlock.isGenesis (x : FullBlock) : Except Err Bool := do
  let genesis ← getGenesisBlock x.header.network
  return x.getHash = genesis.getHash

end Genesis

/-! ## §4 — difficulty and base fee -/

/-- **`int64`** — 64 bits read as a signed number: a conversion, or the result of an `int64` operation. -/
def int64 (x : Int) : Int := x.bmod (2 ^ 64)

/-- The proportional factor of a block at `blockTime` on a parent at `parentTime`, clamped to `[-99, 1]` targets. -/
def retargetFactor64 (blockTime parentTime : Nat) : Int :=
  let target : Int := targetTime
  let d := int64 (int64 blockTime - int64 parentTime)
  let factor := int64 (target - d)
  let factor := if target < factor then target else factor
  if factor < int64 (-99 * target) then int64 (-99 * target) else factor

/-- The height-driven bump: zero while the exponent is negative. -/
def heightTerm64 (blockHeight : Nat) : Int :=
  let exp := int64 ((int64 blockHeight).tdiv 100000 - 2)
  if 0 ≤ exp then 2 ^ exp.toNat else 0

/-- **`getNextDiff`** — the per-block retarget, with its 64-bit operations: a clamped proportional step on the parent's
difficulty, the slow height bump, and the network floor. -/
def getNextDiff (blockHeight blockTime : Nat) (parent : BlockHeader) : Except Err Nat := do
  let genesisTime ← getGenesisTimestamp parent.network
  ensure (genesisTime ≤ parent.timestamp) .panic
  let diff : Int := beVal parent.difficulty
  let delta := (diff * retargetFactor64 blockTime parent.timestamp).tdiv (int64 (2048 * targetTime))
  let diff := diff + delta + heightTerm64 blockHeight
  let minimum : Int := minimumDiffOf parent.network
  return (if diff < minimum then minimum else diff).toNat

def baseFeeTargetBytes : Nat := maxBlockBytes / 2
def baseFeeMaxChangeDenom : Nat := 8

/-- **`nextBaseFee`** — the base fee a child block must carry. -/
def nextBaseFee (net : Network) (parentHeight parentBaseFee parentUsedBytes : Nat) : Nat :=
  if isForkActive net .forkFeeMarket (parentHeight + 1) = false then minBaseFee
  else
    let parent := if parentBaseFee = 0 then minBaseFee else parentBaseFee
    let target := baseFeeTargetBytes
    if parentUsedBytes = target then max parent minBaseFee
    else if target < parentUsedBytes then
      let delta := (parentUsedBytes - target) * parent / target / baseFeeMaxChangeDenom
      max (parent + max delta 1) minBaseFee
    else
      let delta := (target - parentUsedBytes) * parent / target / baseFeeMaxChangeDenom
      max (parent - delta) minBaseFee

/-- **`blockUsedBytes`** — total wire size of the non-generate transactions. -/
def blockUsedBytes (block : FullBlock) : Nat :=
  ((block.txs.filter (·.type ≠ generateTx)).map fun tx => tx.raw.length).sum

end NgCore
