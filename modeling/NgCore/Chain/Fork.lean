/-
# NgCore.Chain.Fork — rules of a block on its chain, and fork choice

`blockchain/check_block.go` and `blockchain/fork.go`, the parts that read blocks only: the target rule
against a parent, the uncle rules against a block's own ancestors, the work of a chain and the walk from a
side block down to the canonical chain.

The three walks follow parent hashes through whatever is stored. A walk over a well-formed store is
bounded by the heights or by the number of stored blocks, and that bound is the fuel; a walk that outlives
it ends in `panic`. On a reachable chain none does (`NgCore.Chain.Robust`).
-/
import NgCore.Chain.BlockStore

namespace NgCore

open Lib (Bucket)
open Lib.Rlp (beVal)

variable [Crypto]

/-! ## §1 — a block against its parent -/

/-- **`checkBlockTarget`** — monotone time, the one difficulty the retarget allows, enough work for it,
and the one base fee. -/
def checkBlockTarget (block prevBlock : FullBlock) : Except Err Unit := do
  ensure (prevBlock.header.timestamp < block.header.timestamp) .blockTimeNotMonotonic
  let correctDiff ← getNextDiff block.getHeight block.header.timestamp prevBlock.header
  let actualDiff ← block.header.actualDiff
  ensure (beVal block.header.difficulty = correctDiff) .blockDiffInvalid
  ensure (correctDiff ≤ actualDiff) .blockDiffInvalid
  ensure (beVal block.header.baseFee = nextBaseFee block.header.network prevBlock.getHeight
    (beVal prevBlock.header.baseFee) (blockUsedBytes prevBlock)) .blockBaseFeeInvalid

/-! ## §2 — uncles -/

/-- The ancestor walk of `validateUncles`: ancestors by height, and every uncle they reference. -/
def uncleAncestors (getBlock : Bytes → Except Err FullBlock) (lowest : Nat) :
    (fuel : Nat) → (cur : FullBlock) → (ancestors : Bucket Nat FullBlock) →
      (referenced : List Bytes32) → Except Err (Bucket Nat FullBlock × List Bytes32)
  | 0, _, _, _ => .error .panic
  | fuel + 1, cur, ancestors, referenced =>
    if lowest < cur.getHeight then do
      let parent ← getBlock cur.getPrevHash
      uncleAncestors getBlock lowest fuel parent (ancestors.insert parent.getHeight parent)
        (parent.uncles.map BlockHeader.getHash ++ referenced)
    else .ok (ancestors, referenced)

/-- The uncle loop of `validateUncles`. -/
def checkUncleSlots (height : Nat) (ancestors : Bucket Nat FullBlock) :
    (referenced : List Bytes32) → List BlockHeader → Except Err Unit
  | _, [] => .ok ()
  | referenced, u :: uncles => do
    ensure (u.height < height ∧ height ≤ u.height + uncleMaxDepth) .uncleInvalid
    match ancestors[pred64 u.height]? with
    | none => .error .uncleInvalid
    | some uncleParent => do
      ensure (uncleParent.getHash.val = u.prevBlockHash) .uncleInvalid
      ensure ((ancestors[u.height]?).map FullBlock.getHash ≠ some u.getHash) .uncleInvalid
      ensure (u.getHash ∉ referenced) .uncleInvalid
      ensure (uncleParent.header.timestamp < u.timestamp) .uncleInvalid
      let correct ← getNextDiff u.height u.timestamp uncleParent.header
      ensure (beVal u.difficulty = correct) .uncleInvalid
      checkUncleSlots height ancestors (u.getHash :: referenced) uncles

/-- **`validateUncles`** — the GHOST rules against the block's own ancestors. On the tip path the height of the header
has not been compared with the parent's yet, so the bound of the walk takes both. -/
def validateUncles (getBlock : Bytes → Except Err FullBlock) (block : FullBlock) : Except Err Unit :=
  if block.uncles = [] then .ok ()
  else do
    let lowest := block.getHeight - (uncleMaxDepth + 1)
    let parentHeight := (getBlock block.getPrevHash).toOption.elim 0 FullBlock.getHeight
    let (ancestors, referenced) ← uncleAncestors getBlock lowest (block.getHeight + parentHeight + 2) block ∅ []
    checkUncleSlots block.getHeight ancestors referenced block.uncles

/-- **`branchGetBlock`** — resolve within the branch first, then the store. -/
def branchGetBlock (s : BlockStore) (branch : List FullBlock) (hash : Bytes) : Except Err FullBlock :=
  match branch.reverse.find? fun b => b.getHash.val = hash with
  | some b => .ok b
  | none => s.getBlockByHash hash

/-- **`checkBranchBlock`** — everything but the transactions, against the block's own parent. -/
def checkBranchBlock (now : Nat) (getBlock : Bytes → Except Err FullBlock) (block prev : FullBlock) :
    Except Err Unit := do
  block.checkError now
  ensure (Follows prev block) .branchDisconnected
  checkBlockTarget block prev
  validateUncles getBlock block

/-! ## §3 — finality -/

/-- **`finalityHeight`** — the last checkpoint strictly below the tip. -/
def finalityHeight (tipHeight : Nat) : Nat :=
  if tipHeight = 0 then 0 else (tipHeight - 1) / blockCheckRound * blockCheckRound

/-- **`sideBlockPruneHeight`** — the lower of the finality line and the uncle-retention line. -/
def sideBlockPruneHeight (tipHeight : Nat) : Nat :=
  if tipHeight ≤ uncleMaxDepth then 0
  else min (tipHeight - uncleMaxDepth) (finalityHeight tipHeight)

/-! ## §4 — work -/

/-- **`workOf`** — a block's own declared difficulty. -/
def workOf (block : FullBlock) : Nat := beVal block.header.difficulty

namespace BlockStore

/-- The walk of `cumulativeWork`: down to a memoized value or the origin, with the blocks passed on the
way, deepest first. -/
def pendingWork (s : BlockStore) :
    (fuel : Nat) → (cur : FullBlock) → (pending : List FullBlock) → Except Err (Nat × List FullBlock)
  | 0, _, _ => .error .panic
  | fuel + 1, cur, pending =>
    match s.work[cur.getHash.val]? with
    | some base => .ok (base, pending)
    | none =>
      if cur.getHash.val = s.originHash then .ok (0, cur :: pending)
      else do
        let parent ← s.getBlockByHash cur.getPrevHash
        pendingWork s fuel parent (cur :: pending)

/-- Add one pending block to the running work, and memoize. -/
def memoWork (acc : Nat × BlockStore) (block : FullBlock) : Nat × BlockStore :=
  let work := acc.1 + workOf block
  (work, { acc.2 with work := acc.2.work.insert block.getHash.val work })

/-- **`cumulativeWork`** — the declared difficulty of the chain ending at the block, memoized on the way. -/
def cumulativeWork (block : FullBlock) (s : BlockStore) : Except Err (Nat × BlockStore) := do
  let (base, pending) ← s.pendingWork (s.blocks.size + 1) block []
  return pending.foldl memoWork (base, s)

/-! ## §5 — branches -/

def isCanonical (s : BlockStore) (block : FullBlock) : Bool :=
  s.heights[block.getHeight]? = some block.getHash.val

/-- The walk of `collectBranch`: from a side block back to the canonical chain, ascending. -/
def branchWalk (s : BlockStore) :
    (fuel : Nat) → (cur : FullBlock) → (branch : List FullBlock) → Except Err (List FullBlock)
  | 0, _, _ => .error .panic
  | fuel + 1, cur, branch =>
    if s.isCanonical cur then .ok branch
    else if cur.getHeight ≤ s.originHeight + 1 then do
      -- only the origin itself can be the fork point
      ensure (cur.getPrevHash = s.originHash) .reorgBelowOrigin
      return cur :: branch
    else do
      let parent ← s.getBlockByHash cur.getPrevHash
      branchWalk s fuel parent (cur :: branch)

def collectBranch (s : BlockStore) (tip : FullBlock) : Except Err (List FullBlock) :=
  s.branchWalk (s.blocks.size + 1) tip []

/-- Fork choice: heavier wins, and of equals the smaller hash. -/
def Beats (work : Nat) (hash : Bytes32) (tipWork : Nat) (tipHash : Bytes32) : Prop :=
  tipWork < work ∨ work = tipWork ∧ compare hash tipHash = .lt

instance (work : Nat) (hash : Bytes32) (tipWork : Nat) (tipHash : Bytes32) :
    Decidable (Beats work hash tipWork tipHash) :=
  inferInstanceAs (Decidable (_ ∨ _))

end BlockStore
end NgCore
