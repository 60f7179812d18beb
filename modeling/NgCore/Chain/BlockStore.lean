/-
# NgCore.Chain.BlockStore — the block bucket and the tx bucket

`ngblocks/*.go`: bodies by hash, the canonical height index, memoized work, side marks, the latest and
origin tags, and the transaction indices.

The source keeps all of it in two flat buckets and tells the kinds of entry apart by the shape of the
key: 32 bytes for a body, eight for a height, a `work:` / `side:` / `blk` / `atx:` prefix or a tag for the
rest. No key of one shape is a key of another, so the model gives every kind its own bucket. A lookup by a
hash of another length finds no body.

`PutSideBlock` stores a body under its HEADER hash without asking what already stands there.
-/
import NgCore.Types.Block

namespace NgCore

open Lib (Bucket)

/-! ## §1 — the store -/

/-- **`BlockStore`** — the block bucket and the tx bucket of an initialised database. -/
structure BlockStore where
  /-- Bodies by header hash. -/
  blocks : Bucket Bytes FullBlock
  /-- The canonical height index. -/
  heights : Bucket Nat Bytes
  /-- Cumulative work of the chain ending at a hash, memoized. -/
  work : Bucket Bytes Nat
  /-- Side marks: hash to height. -/
  side : Bucket Bytes Nat
  latestHeight : Nat
  latestHash : Bytes
  originHeight : Nat
  originHash : Bytes
  /-- Transactions by id. -/
  txs : Bucket Bytes32 FullTx
  /-- The block that contains a transaction. -/
  txBlock : Bucket Bytes32 Bytes
  /-- The account history: address, height, transaction id. -/
  addrTx : Bucket (Address × Nat × Bytes32) Unit

/-- `height - 1` in 64 bits: zero wraps around. -/
def pred64 (height : Nat) : Nat := if height = 0 then 2 ^ 64 - 1 else height - 1

theorem pred64_of_pos {height : Nat} (h : 0 < height) : pred64 height = height - 1 :=
  if_neg h.ne'

/-- **`Follows a b`** — `b` names `a` as its parent, one height below. -/
def Follows [Crypto] (a b : FullBlock) : Prop :=
  b.getHeight = a.getHeight + 1 ∧ b.getPrevHash = a.getHash.val

instance [Crypto] (a b : FullBlock) : Decidable (Follows a b) := inferInstanceAs (Decidable (_ ∧ _))

namespace BlockStore

def getBlockByHash (s : BlockStore) (hash : Bytes) : Except Err FullBlock :=
  match s.blocks[hash]? with
  | some b => .ok b
  | none => .error .keyNotFound

theorem getBlockByHash_eq_ok {s : BlockStore} {hash : Bytes} {b : FullBlock} :
    s.getBlockByHash hash = .ok b ↔ s.blocks[hash]? = some b := by
  unfold getBlockByHash
  split
  · next b' hb => rw [hb]; simp
  · next hb => rw [hb]; simp

/-- **`getBlockByHeight`** — through the canonical index. -/
def getBlockByHeight (s : BlockStore) (height : Nat) : Except Err FullBlock :=
  match s.heights[height]? with
  | some hash => s.getBlockByHash hash
  | none => .error .keyNotFound

theorem getBlockByHeight_eq_ok {s : BlockStore} {height : Nat} {b : FullBlock} :
    s.getBlockByHeight height = .ok b ↔
      ∃ hash, s.heights[height]? = some hash ∧ s.blocks[hash]? = some b := by
  unfold getBlockByHeight
  split
  · next hash hh => rw [hh, getBlockByHash_eq_ok]; simp
  · next hh => rw [hh]; simp

def getLatestBlock (s : BlockStore) : Except Err FullBlock := s.getBlockByHash s.latestHash

/-! ## §2 — the transaction indices -/

variable [Crypto]

/-- **`txAddresses`** — the non-zero addresses a transaction touches: recipient, then derivable sender. -/
def txAddresses (tx : FullTx) : List Address :=
  (if tx.toAddr = genesisAddress then [] else [tx.toAddr]) ++
    match tx.fromAddr with
    | .ok a => if a ≠ genesisAddress ∧ a ≠ tx.toAddr then [a] else []
    | .error _ => []

/-- **`putTxAddrIndex`** — one history entry per touched address, at the transaction's OWN height. -/
def putTxAddrIndex (tx : FullTx) (s : BlockStore) : BlockStore :=
  { s with addrTx := (txAddresses tx).foldl (fun m a => m.insert (a, tx.height, tx.getHash) ()) s.addrTx }

def delTxAddrIndex (tx : FullTx) (s : BlockStore) : BlockStore :=
  { s with addrTx := (txAddresses tx).foldl (fun m a => m.erase (a, tx.height, tx.getHash)) s.addrTx }

/-- One round of `putTxs`. -/
def putTx (blockHash : Bytes) (s : BlockStore) (tx : FullTx) : BlockStore :=
  putTxAddrIndex tx
    { s with txs := s.txs.insert tx.getHash tx, txBlock := s.txBlock.insert tx.getHash blockHash }

/-- **`putTxs`** — index every transaction of a block. -/
def putTxs (block : FullBlock) (s : BlockStore) : BlockStore :=
  block.txs.foldl (putTx block.getHash.val) s

/-- One round of `delTxs`. -/
def delTx (s : BlockStore) (tx : FullTx) : BlockStore :=
  delTxAddrIndex tx { s with txs := s.txs.erase tx.getHash, txBlock := s.txBlock.erase tx.getHash }

def delTxs (txs : List FullTx) (s : BlockStore) : BlockStore := txs.foldl delTx s

omit [Crypto] in
/-- **`pruneAddrTxIndex`** — `PruneAddrTxIndexTxn`: drop the history below a floor. -/
def pruneAddrTxIndex (floor : Nat) (s : BlockStore) : BlockStore :=
  { s with addrTx := s.addrTx.filter fun k _ => floor ≤ k.2.1 }

/-! ## §3 — putting blocks -/

/-- **`blockHeightExists`** — height zero always does. -/
def blockHeightExists (s : BlockStore) (height : Nat) : Bool :=
  height = 0 ∨ (s.getBlockByHeight height).isOk

def blockPrevHashExists (s : BlockStore) (height : Nat) (prevHash : Bytes) : Bool :=
  if height = 0 ∧ prevHash = zero32.val then true
  else
    match s.getBlockByHash prevHash with
    | .ok b => b.getHeight = pred64 height
    | .error _ => false

def checkBlock (s : BlockStore) (height : Nat) (prevHash : Bytes) : Except Err Unit := do
  ensure (s.blockHeightExists height = false) .blockHeightConflict
  ensure (s.blockPrevHashExists height prevHash = true) .prevBlockNotExist

/-- **`putBlock`** — body and height index; a canonical block carries no side mark. -/
def putBlock (block : FullBlock) (s : BlockStore) : BlockStore :=
  { s with
    blocks := s.blocks.insert block.getHash.val block
    heights := s.heights.insert block.getHeight block.getHash.val
    side := s.side.erase block.getHash.val }

def putLatestTags (block : FullBlock) (s : BlockStore) : BlockStore :=
  { s with latestHeight := block.getHeight, latestHash := block.getHash.val }

/-- **`putNewBlock`** — `PutNewBlock`. -/
def putNewBlock (block : FullBlock) (s : BlockStore) : Except Err BlockStore := do
  s.checkBlock block.getHeight block.getPrevHash
  return ((s.putBlock block).putTxs block).putLatestTags block

/-- **`putSideBlock`** — `PutSideBlock`: the body under its hash, whatever stood there, and a side mark. -/
def putSideBlock (block : FullBlock) (s : BlockStore) : BlockStore :=
  { s with
    blocks := s.blocks.insert block.getHash.val block
    side := s.side.insert block.getHash.val block.getHeight }

/-- The entries of one pruned side block. -/
def dropSideBlock (s : BlockStore) (hash : Bytes) : BlockStore :=
  { s with blocks := s.blocks.erase hash, work := s.work.erase hash, side := s.side.erase hash }

/-- The hashes `PruneSideBlocks` collects: marked below the height, and not canonical at the mark. -/
def sideVictims (belowHeight : Nat) (s : BlockStore) : List Bytes :=
  (s.side.toList.filter fun e => e.2 < belowHeight ∧ s.heights[e.2]? ≠ some e.1).map Prod.fst

/-- **`pruneSideBlocks`** — `PruneSideBlocks`. -/
def pruneSideBlocks (belowHeight : Nat) (s : BlockStore) : BlockStore :=
  (s.sideVictims belowHeight).foldl dropSideBlock s

/-! ## §4 — switching the canonical chain -/

/-- Unlink the canonical block of one height: its transactions leave the index, it becomes a side block. -/
def unlinkHeight (s : BlockStore) (h : Nat) : Except Err BlockStore := do
  let old ← s.getBlockByHeight h
  let s := s.delTxs old.txs
  return { s with side := s.side.insert old.getHash.val old.getHeight }

/-- Connect one block of the branch. -/
def connectBlock (s : BlockStore) (block : FullBlock) : BlockStore :=
  let s := (s.putBlock block).putTxs block
  { s with side := s.side.erase block.getHash.val }

/-- **`switchToBranch`** — `ngblocks.SwitchToBranch`: the canonical chain above the fork ancestor becomes
the branch. -/
def switchToBranch (branch : List FullBlock) (s : BlockStore) : Except Err BlockStore :=
  match branch with
  | [] => .error .branchEmpty
  | first :: rest => do
    let newTip := rest.getLastD first
    ensure (branch.IsChain Follows) .branchDisconnected
    ensure (s.heights[pred64 first.getHeight]? = some first.getPrevHash) .branchDetached
    let oldHeight := s.latestHeight
    let s ← (List.range' first.getHeight (oldHeight + 1 - first.getHeight)).foldlM unlinkHeight s
    let s := branch.foldl connectBlock s
    let stale := List.range' (newTip.getHeight + 1) (oldHeight - newTip.getHeight)
    let s := { s with heights := stale.foldl (fun m h => m.erase h) s.heights }
    return s.putLatestTags newTip

/-! ## §5 — the genesis store -/

/-- **`initWithGenesis`** — body, height index and tags; the genesis transactions are NOT indexed. -/
def initWithGenesis (genesis : FullBlock) : BlockStore where
  blocks := (∅ : Bucket Bytes FullBlock).insert genesis.getHash.val genesis
  heights := (∅ : Bucket Nat Bytes).insert genesis.getHeight genesis.getHash.val
  work := ∅
  side := ∅
  latestHeight := genesis.getHeight
  latestHash := genesis.getHash.val
  originHeight := genesis.getHeight
  originHash := genesis.getHash.val
  txs := ∅
  txBlock := ∅
  addrTx := ∅

end BlockStore
end NgCore
