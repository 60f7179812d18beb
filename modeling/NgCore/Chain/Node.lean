/-
# NgCore.Chain.Node — importing blocks

`blockchain/pow_chain.go` (`ApplyBlock`), `blockchain/check_block.go` (`checkBlockTxn`) and the switching
half of `blockchain/fork.go`. A node is a block store and a state that change in ONE database transaction:
a call either commits both or leaves both untouched.

What the chain asks of the state is a `Ledger` over an arbitrary type of states, so that results about
the block store hold whatever the state does. `ledger cfg` is the state machine of `NgCore.State`.

Not modelled: snapshots, receipts and the notifications of a moved tip, which nothing here reads back.
-/
import NgCore.Chain.Fork
import NgCore.State.Rebuild

namespace NgCore

/-! ## §1 — the state, as the chain sees it -/

/-- **`Ledger`** — the operations on the state that importing calls. -/
structure Ledger (S : Type) where
  archive : Bool
  isGenesis : FullBlock → Except Err Bool
  checkBlockTxs : FullBlock → S → Except Err Unit
  /-- `Upgrade`, then `CheckStateRoot`. -/
  upgrade : FullBlock → S → Except Err S
  unwindTo : (tip target : Nat) → S → Option S
  /-- The bucket reset that starts a full replay. -/
  reset : S → S

namespace Ledger

variable {S : Type} (L : Ledger S)

/-- Apply a block that did not pass `checkBlockTxn`. -/
def applyChecked (block : FullBlock) (s : S) : Except Err S := do
  let genesis ← L.isGenesis block
  if genesis = false then L.checkBlockTxs block s
  L.upgrade block s

/-- **`applyBlocks`** — `ApplyBlocksTxn`. -/
def applyBlocks (blocks : List FullBlock) (s : S) : Except Err S :=
  blocks.foldlM (fun s block => L.applyChecked block s) s

/-- **`rebuildFromBlocks`** — `RebuildFromBlockStoreTxn`, the canonical blocks given. -/
def rebuildFromBlocks (blocks : List FullBlock) (s : S) : Except Err S :=
  L.applyBlocks blocks (L.reset s)

end Ledger

/-- **`ledger`** — the state machine of the node. -/
def ledger [Engine] (cfg : Config) : Ledger State where
  archive := cfg.archive
  isGenesis := FullBlock.isGenesis
  checkBlockTxs block s := checkBlockTxs s.view block
  upgrade block s := do
    let (_, s) ← (upgrade cfg block).exec s
    s.checkStateRoot block.header.stateRoot
    return s
  unwindTo := State.unwindTo cfg
  reset s := s.rebuildFromSheet State.getGenesisSheet

theorem ledger_applyBlocks [Engine] (cfg : Config) (blocks : List FullBlock) (s : State) :
    (ledger cfg).applyBlocks blocks s = State.applyBlocks cfg blocks s := rfl

theorem ledger_upgrade_eq_ok [Engine] {cfg : Config} {block : FullBlock} {s s' : State}
    (h : (ledger cfg).upgrade block s = .ok s') :
    (upgrade cfg block).exec s = .ok ((), s') ∧ s'.stateRoot.val = block.header.stateRoot := by
  obtain ⟨⟨_, t⟩, hrun, h⟩ := bind_eq_ok.mp h
  obtain ⟨_, hroot, h⟩ := bind_eq_ok.mp h
  obtain rfl := pure_eq_ok.mp h
  exact ⟨hrun, ensure_eq_ok.mp hroot⟩

/-! ## §2 — nodes -/

/-- **`Node`** — the database: block store and state. -/
structure Node (S : Type) where
  store : BlockStore
  state : S

/-- **`receiptFloor`** — the lowest height a non-archive node keeps account history for. -/
def receiptFloor (tip : Nat) : Nat := tip - 16 * blockCheckRound

namespace BlockStore

/-- The canonical blocks from height zero on, as a full replay reads them. -/
def canonicalBlocks (s : BlockStore) : Except Err (List FullBlock) :=
  (List.range (s.latestHeight + 1)).mapM s.getBlockByHeight

end BlockStore

section Import

variable [Crypto] {S : Type} (L : Ledger S) (now : Nat)

/-- The upkeep of a tip that is a checkpoint: bounded history off archive, side blocks reclaimed. -/
def Ledger.maintain (tip : FullBlock) (s : BlockStore) : BlockStore :=
  if tip.isHead = true then
    (if L.archive = true then s else s.pruneAddrTxIndex (receiptFloor tip.getHeight)).pruneSideBlocks
      (sideBlockPruneHeight tip.getHeight)
  else s

namespace Node

/-- **`checkBlockTxn`** — a block against the chain it extends; a child of the ORIGIN skips the target
rule. -/
def checkBlockTxn (block : FullBlock) (n : Node S) : Except Err Unit := do
  let genesis ← L.isGenesis block
  if genesis = true then return ()
  block.checkError now
  if block.getPrevHash ≠ n.store.originHash then do
    let prevBlock ← n.store.getBlockByHash block.getPrevHash
    checkBlockTarget block prevBlock
  validateUncles n.store.getBlockByHash block
  L.checkBlockTxs block n.state

/-- The fast path of `ApplyBlock`: the block extends the canonical tip. -/
def extendTip (block : FullBlock) (n : Node S) : Except Err (Node S) := do
  checkBlockTxn L now block n
  let store ← n.store.putNewBlock block
  let (_, store) ← store.cumulativeWork block
  let state ← L.upgrade block n.state
  return ⟨L.maintain block store, state⟩

/-- How the state follows a switch: unwind to the fork point and apply the branch when the changesets
reach it, replay the new canonical chain otherwise. -/
def switchState (branch : List FullBlock) (tip forkHeight : Nat) (store : BlockStore) (state : S) :
    Except Err S :=
  match L.unwindTo tip forkHeight state with
  | some unwound => L.applyBlocks branch unwound
  | none => do
    let blocks ← store.canonicalBlocks
    L.rebuildFromBlocks blocks state

/-- **`switchToBranchTxn`** — swap the canonical chain and the state. The unwind reads the OLD tip height. -/
def switchToBranchTxn (branch : List FullBlock) (n : Node S) : Except Err (Node S) :=
  match branch with
  | [] => .error .panic
  | first :: rest => do
    let store ← n.store.switchToBranch branch
    let state ← switchState L branch n.store.latestHeight (pred64 first.getHeight) store n.state
    return ⟨L.maintain (rest.getLastD first) store, state⟩

/-- The parent of a side block. -/
def sideParent (block : FullBlock) (s : BlockStore) : Except Err FullBlock :=
  match s.getBlockByHash block.getPrevHash with
  | .ok prev => .ok prev
  | .error _ => .error .prevBlockNotExist

/-- The side path of `ApplyBlock`: store the block by hash, and switch to its branch if it wins. -/
def importSide (block : FullBlock) (n : Node S) : Except Err (Node S) := do
  let prev ← sideParent block n.store
  checkBranchBlock now n.store.getBlockByHash block prev
  let (blockWork, store) ← (n.store.putSideBlock block).cumulativeWork block
  let tip ← store.getLatestBlock
  let (tipWork, store) ← store.cumulativeWork tip
  if BlockStore.Beats blockWork block.getHash tipWork tip.getHash then do
    let branch ← store.collectBranch block
    match branch with
    | [] => .error .panic
    | first :: _ => do
      ensure (finalityHeight tip.getHeight ≤ pred64 first.getHeight) .reorgBeyondFinality
      switchToBranchTxn L branch ⟨store, n.state⟩
  else return ⟨store, n.state⟩

/-- **`applyBlock`** — `Chain.ApplyBlock`. -/
def applyBlock (block : FullBlock) (n : Node S) : Except Err (Node S) :=
  if block.getPrevHash = n.store.latestHash then extendTip L now block n else importSide L now block n

/-- The branch loop of `Chain.SwitchToBranch`: every block against the one before. -/
def checkBranch (getBlock : Bytes → Except Err FullBlock) : (prev : FullBlock) → List FullBlock →
    Except Err Unit
  | _, [] => .ok ()
  | prev, block :: branch => do
    checkBranchBlock now getBlock block prev
    checkBranch getBlock block branch

/-- **`switchToBranch`** — `Chain.SwitchToBranch`, the converging path: a fetched branch replaces the
canonical chain if it wins; there is no finality line here. -/
def switchToBranch (branch : List FullBlock) (n : Node S) : Except Err (Node S) :=
  match branch with
  | [] => .error .branchEmpty
  | first :: rest => do
    let forkParent ← n.store.getBlockByHash first.getPrevHash
    checkBranch now (branchGetBlock n.store branch) forkParent branch
    let (base, store) ← n.store.cumulativeWork forkParent
    let tip ← store.getLatestBlock
    let (tipWork, store) ← store.cumulativeWork tip
    let newTip := rest.getLastD first
    ensure (BlockStore.Beats (base + (branch.map workOf).sum) newTip.getHash tipWork tip.getHash)
      .branchNotHeavier
    switchToBranchTxn L branch ⟨store, n.state⟩

/-! ### What a successful call did -/

variable {L now} {block : FullBlock} {branch : List FullBlock} {n n' : Node S}

theorem extendTip_eq_ok (h : extendTip L now block n = .ok n') :
    checkBlockTxn L now block n = .ok () ∧ ∃ store work store',
      n.store.putNewBlock block = .ok store ∧ store.cumulativeWork block = .ok (work, store') ∧
      L.upgrade block n.state = .ok n'.state ∧ n'.store = L.maintain block store' := by
  unfold extendTip at h
  obtain ⟨_, hcheck, h⟩ := bind_eq_ok.mp h
  obtain ⟨store, hput, h⟩ := bind_eq_ok.mp h
  obtain ⟨⟨work, store'⟩, hwork, h⟩ := bind_eq_ok.mp h
  obtain ⟨state, hup, h⟩ := bind_eq_ok.mp h
  obtain rfl := pure_eq_ok.mp h
  exact ⟨hcheck, store, work, store', hput, hwork, hup, rfl⟩

theorem switchToBranchTxn_eq_ok (h : switchToBranchTxn L branch n = .ok n') :
    ∃ first rest store, branch = first :: rest ∧ n.store.switchToBranch branch = .ok store ∧
      n'.store = L.maintain (rest.getLastD first) store ∧
      switchState L branch n.store.latestHeight (pred64 first.getHeight) store n.state = .ok n'.state := by
  cases branch with
  | nil => cases h
  | cons first rest =>
    rw [switchToBranchTxn] at h
    obtain ⟨store, hswitch, h⟩ := bind_eq_ok.mp h
    obtain ⟨state, hstate, h⟩ := bind_eq_ok.mp h
    obtain rfl := pure_eq_ok.mp h
    exact ⟨first, rest, store, rfl, hswitch, rfl, hstate⟩

omit [Crypto] in
theorem switchState_eq_ok {tip forkHeight : Nat} {store : BlockStore} {state state' : S} :
    switchState L branch tip forkHeight store state = .ok state' ↔
      (∃ unwound, L.unwindTo tip forkHeight state = some unwound ∧
        L.applyBlocks branch unwound = .ok state') ∨
      L.unwindTo tip forkHeight state = none ∧
        ∃ blocks, store.canonicalBlocks = .ok blocks ∧ L.rebuildFromBlocks blocks state = .ok state' := by
  unfold switchState
  cases L.unwindTo tip forkHeight state <;> simp

omit [Crypto] in
theorem sideParent_eq_ok {s : BlockStore} {prev : FullBlock} :
    sideParent block s = .ok prev ↔ s.blocks[block.getPrevHash]? = some prev := by
  rw [← BlockStore.getBlockByHash_eq_ok]
  unfold sideParent
  split
  · next h => rw [h]
  · next h => rw [h]; simp

/-- What the side path did before fork choice: the block is checked against its stored parent, stored,
and weighed against the tip. -/
structure Weighed (now : Nat) (block : FullBlock) (s : BlockStore) (prev : FullBlock) (blockWork : Nat)
    (tip : FullBlock) (tipWork : Nat) (s' : BlockStore) : Prop where
  parent : s.blocks[block.getPrevHash]? = some prev
  checked : checkBranchBlock now s.getBlockByHash block prev = .ok ()
  weighed : ∃ store, (s.putSideBlock block).cumulativeWork block = .ok (blockWork, store) ∧
    store.getLatestBlock = .ok tip ∧ store.cumulativeWork tip = .ok (tipWork, s')

theorem importSide_eq_ok (h : importSide L now block n = .ok n') :
    ∃ prev blockWork tip tipWork store, Weighed now block n.store prev blockWork tip tipWork store ∧
      ((¬ BlockStore.Beats blockWork block.getHash tipWork tip.getHash ∧ n' = ⟨store, n.state⟩) ∨
        (BlockStore.Beats blockWork block.getHash tipWork tip.getHash ∧ ∃ first rest,
          store.collectBranch block = .ok (first :: rest) ∧
          finalityHeight tip.getHeight ≤ pred64 first.getHeight ∧
          switchToBranchTxn L (first :: rest) ⟨store, n.state⟩ = .ok n')) := by
  unfold importSide at h
  obtain ⟨prev, hprev, h⟩ := bind_eq_ok.mp h
  obtain ⟨_, hcheck, h⟩ := bind_eq_ok.mp h
  obtain ⟨⟨blockWork, store⟩, hwork, h⟩ := bind_eq_ok.mp h
  obtain ⟨tip, htip, h⟩ := bind_eq_ok.mp h
  obtain ⟨⟨tipWork, store'⟩, htipWork, h⟩ := bind_eq_ok.mp h
  refine ⟨prev, blockWork, tip, tipWork, store',
    ⟨sideParent_eq_ok.mp hprev, hcheck, store, hwork, htip, htipWork⟩, ?_⟩
  dsimp only at h
  split at h
  · next hbeats =>
    obtain ⟨branch, hbranch, h⟩ := bind_eq_ok.mp h
    cases branch with
    | nil => cases h
    | cons first rest =>
      obtain ⟨_, hfinal, h⟩ := bind_eq_ok.mp h
      exact .inr ⟨hbeats, first, rest, hbranch, ensure_eq_ok.mp hfinal, h⟩
  · next hbeats => exact .inl ⟨hbeats, (pure_eq_ok.mp h).symm⟩

theorem switchToBranch_eq_ok (h : switchToBranch L now branch n = .ok n') :
    ∃ first rest forkParent base tip tipWork store store', branch = first :: rest ∧
      n.store.blocks[first.getPrevHash]? = some forkParent ∧
      checkBranch now (branchGetBlock n.store branch) forkParent branch = .ok () ∧
      n.store.cumulativeWork forkParent = .ok (base, store) ∧ store.getLatestBlock = .ok tip ∧
      store.cumulativeWork tip = .ok (tipWork, store') ∧
      BlockStore.Beats (base + (branch.map workOf).sum) (rest.getLastD first).getHash tipWork tip.getHash ∧
      switchToBranchTxn L branch ⟨store', n.state⟩ = .ok n' := by
  cases branch with
  | nil => cases h
  | cons first rest =>
    rw [switchToBranch] at h
    obtain ⟨forkParent, hparent, h⟩ := bind_eq_ok.mp h
    obtain ⟨_, hcheck, h⟩ := bind_eq_ok.mp h
    obtain ⟨⟨base, store⟩, hbase, h⟩ := bind_eq_ok.mp h
    obtain ⟨tip, htip, h⟩ := bind_eq_ok.mp h
    obtain ⟨⟨tipWork, store'⟩, htipWork, h⟩ := bind_eq_ok.mp h
    obtain ⟨_, hbeats, h⟩ := bind_eq_ok.mp h
    exact ⟨first, rest, forkParent, base, tip, tipWork, store, store', rfl,
      BlockStore.getBlockByHash_eq_ok.mp hparent, hcheck, hbase, htip, htipWork,
      ensure_eq_ok.mp hbeats, h⟩

/-- **`update`** — the database transaction around a call: a failure rolls everything back. -/
def update (n : Node S) : Except Err (Node S) → Node S
  | .ok n' => n'
  | .error _ => n

end Node
end Import

/-! ## §3 — reachable nodes -/

/-- The headers of the genesis blocks, of every network. -/
def genesisHeaders [Crypto] : Set BlockHeader :=
  {x | ∃ network genesis, getGenesisBlock network = .ok genesis ∧ genesis.header = x}

section Reach

variable [Engine] (cfg : Config)

/-- The node of a fresh database: genesis store, genesis state. -/
def Node.genesis : Except Err (Node State) := do
  let genesis ← getGenesisBlock cfg.network
  let state ← State.initStateFromGenesis cfg
  return ⟨BlockStore.initWithGenesis genesis, state⟩

/-- **`Node.Reachable H`** — what any sequence of `ApplyBlock` and `Chain.SwitchToBranch` calls on blocks with
headers in `H` makes of a fresh database, the failing calls included. -/
inductive Node.Reachable (H : Set BlockHeader) : Node State → Prop
  | genesis {n : Node State} : Node.genesis cfg = .ok n → Reachable H n
  | applyBlock {n : Node State} (now : Nat) (block : FullBlock) : Reachable H n → block.header ∈ H →
      Reachable H (n.update (n.applyBlock (ledger cfg) now block))
  | switchToBranch {n : Node State} (now : Nat) (branch : List FullBlock) : Reachable H n →
      (∀ b ∈ branch, b.header ∈ H) →
      Reachable H (n.update (n.switchToBranch (ledger cfg) now branch))

end Reach
end NgCore
