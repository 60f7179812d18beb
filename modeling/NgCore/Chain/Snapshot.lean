/-
# NgCore.Chain.Snapshot — the sheets a chain serves

`GenerateSnapshotTxn` runs when a NEW TIP is a checkpoint, on the fast path of `ApplyBlock` and at the end of a
switch (`blockchain/pow_chain.go`, `blockchain/fork.go`), and writes the one sheet of that tip. Nothing removes the
sheet of a checkpoint that a reorganisation unlinks: when the new chain ends at another height, the sheet stays, in
the cache and in the bucket, under a height that now belongs to another block or to none.

`Chain` is a node with its sheets. Every call is the call of `Chain.Node` with the sheets written where the source
writes them (`applyBlock_node`, `switchToBranch_node`).

* While every reorganisation spares the checkpoints (`SparesCheckpoint`, `SparesCheckpoints`) every sheet served is
  the sheet of a canonical block.
* Ten blocks and a reorganisation of the tenth into an eleventh: the sheet of the orphaned tenth is served.

DELIVERABLES: `Chain.Run.served_canonical`, `served_orphan_handFork`.
-/
import NgCore.State.Snapshot
import NgCore.Chain.Adopted

namespace NgCore

open Lib (Bucket)

/-- **`Chain`** — a node and the sheets it keeps. -/
structure Chain where
  node : Node State
  snapshots : Snapshots

/-! ## §1 — the calls -/

namespace Chain

section Calls

variable [Crypto] (L : Ledger State) (network : Network) (now : Nat)

/-- **`generateSnapshotTxn`** — the state as the sheet of the latest block. -/
def generateSnapshotTxn (node : Node State) (snapshots : Snapshots) : Except Err Snapshots := do
  let latestBlock ← node.store.getLatestBlock
  return snapshots.putSnapshotTxn (node.state.dumpSheetAt network latestBlock.getHeight latestBlock.getHash.val)

/-- A checkpoint tip gets a servable sheet. -/
def keepServable (tip : FullBlock) (node : Node State) (snapshots : Snapshots) : Except Err Chain :=
  if tip.isHead = true then do
    let snapshots ← generateSnapshotTxn network node snapshots
    return ⟨node, snapshots⟩
  else .ok ⟨node, snapshots⟩

/-- The fast path of `ApplyBlock`. -/
def extendTip (block : FullBlock) (c : Chain) : Except Err Chain := do
  let node ← Node.extendTip L now block c.node
  keepServable network block node c.snapshots

def switchToBranchTxn (branch : List FullBlock) (c : Chain) : Except Err Chain :=
  match branch with
  | [] => .error .panic
  | first :: rest => do
    let node ← Node.switchToBranchTxn L branch c.node
    keepServable network (rest.getLastD first) node c.snapshots

/-- The side path of `ApplyBlock`. -/
def importSide (block : FullBlock) (c : Chain) : Except Err Chain := do
  let prev ← Node.sideParent block c.node.store
  checkBranchBlock now c.node.store.getBlockByHash block prev
  let (blockWork, store) ← (c.node.store.putSideBlock block).cumulativeWork block
  let tip ← store.getLatestBlock
  let (tipWork, store) ← store.cumulativeWork tip
  if BlockStore.Beats blockWork block.getHash tipWork tip.getHash then do
    let branch ← store.collectBranch block
    match branch with
    | [] => .error .panic
    | first :: _ => do
      ensure (finalityHeight tip.getHeight ≤ pred64 first.getHeight) .reorgBeyondFinality
      switchToBranchTxn L network branch ⟨⟨store, c.node.state⟩, c.snapshots⟩
  else return ⟨⟨store, c.node.state⟩, c.snapshots⟩

/-- **`applyBlock`** — `Chain.ApplyBlock`. -/
def applyBlock (block : FullBlock) (c : Chain) : Except Err Chain :=
  if block.getPrevHash = c.node.store.latestHash then extendTip L network now block c
  else importSide L network now block c

/-- **`switchToBranch`** — `Chain.SwitchToBranch`. -/
def switchToBranch (branch : List FullBlock) (c : Chain) : Except Err Chain :=
  match branch with
  | [] => .error .branchEmpty
  | first :: rest => do
    let forkParent ← c.node.store.getBlockByHash first.getPrevHash
    Node.checkBranch now (branchGetBlock c.node.store branch) forkParent branch
    let (base, store) ← c.node.store.cumulativeWork forkParent
    let tip ← store.getLatestBlock
    let (tipWork, store) ← store.cumulativeWork tip
    let newTip := rest.getLastD first
    ensure (BlockStore.Beats (base + (branch.map workOf).sum) newTip.getHash tipWork tip.getHash)
      .branchNotHeavier
    switchToBranchTxn L network branch ⟨⟨store, c.node.state⟩, c.snapshots⟩

omit [Crypto] in
/-- The database transaction around a call. -/
def update (c : Chain) : Except Err Chain → Chain
  | .ok c' => c'
  | .error _ => c

/-! ### what a successful call did -/

variable {L network now} {tip block : FullBlock} {branch : List FullBlock} {node : Node State} {p : Snapshots}
  {c c' : Chain}

/-- **`Kept network tip node p p'`** — the sheets after a move to `tip`: the tip's own is put when it is a
checkpoint. -/
def Kept (network : Network) (tip : FullBlock) (node : Node State) (p p' : Snapshots) : Prop :=
  tip.isHead = false ∧ p' = p ∨ tip.isHead = true ∧ ∃ latest, node.store.getLatestBlock = .ok latest ∧
    p' = p.putSnapshotTxn (node.state.dumpSheetAt network latest.getHeight latest.getHash.val)

theorem keepServable_eq_ok (h : keepServable network tip node p = .ok c') :
    c'.node = node ∧ Kept network tip node p c'.snapshots := by
  unfold keepServable at h
  split at h
  · next hhead =>
    rcases bind_eq_ok.mp h with ⟨p', hput, h⟩
    rcases bind_eq_ok.mp hput with ⟨latest, hlatest, hput⟩
    obtain rfl := pure_eq_ok.mp hput
    obtain rfl := pure_eq_ok.mp h
    exact ⟨rfl, .inr ⟨hhead, latest, hlatest, rfl⟩⟩
  · next hhead =>
    cases h
    exact ⟨rfl, .inl ⟨by simpa using hhead, rfl⟩⟩

theorem extendTip_eq_ok (h : extendTip L network now block c = .ok c') :
    Node.extendTip L now block c.node = .ok c'.node ∧ Kept network block c'.node c.snapshots c'.snapshots := by
  rcases bind_eq_ok.mp h with ⟨node, hnode, h⟩
  rcases keepServable_eq_ok h with ⟨rfl, hkept⟩
  exact ⟨hnode, hkept⟩

theorem switchToBranchTxn_eq_ok (h : switchToBranchTxn L network branch c = .ok c') :
    Node.switchToBranchTxn L branch c.node = .ok c'.node ∧ ∃ first rest, branch = first :: rest ∧
      Kept network (rest.getLastD first) c'.node c.snapshots c'.snapshots := by
  cases branch with
  | nil => cases h
  | cons first rest =>
    rcases bind_eq_ok.mp h with ⟨node, hnode, h⟩
    rcases keepServable_eq_ok h with ⟨rfl, hkept⟩
    exact ⟨hnode, first, rest, rfl, hkept⟩

/-- The side path is the node's; the sheets stay when the block does not win, and follow the block when it does. -/
theorem importSide_eq_ok (h : importSide L network now block c = .ok c') :
    Node.importSide L now block c.node = .ok c'.node ∧
      ∃ prev blockWork tip tipWork store, Node.Weighed now block c.node.store prev blockWork tip tipWork store ∧
        ((¬ BlockStore.Beats blockWork block.getHash tipWork tip.getHash ∧
            c' = ⟨⟨store, c.node.state⟩, c.snapshots⟩) ∨
          (BlockStore.Beats blockWork block.getHash tipWork tip.getHash ∧ ∃ first rest,
            store.collectBranch block = .ok (first :: rest) ∧
            finalityHeight tip.getHeight ≤ pred64 first.getHeight ∧
            Node.switchToBranchTxn L (first :: rest) ⟨store, c.node.state⟩ = .ok c'.node ∧
            Kept network block c'.node c.snapshots c'.snapshots)) := by
  unfold importSide at h
  rcases bind_eq_ok.mp h with ⟨prev, hprev, h⟩
  rcases bind_eq_ok.mp h with ⟨_, hcheck, h⟩
  rcases bind_eq_ok.mp h with ⟨⟨blockWork, store⟩, hwork, h⟩
  rcases bind_eq_ok.mp h with ⟨tip, htip, h⟩
  rcases bind_eq_ok.mp h with ⟨⟨tipWork, store'⟩, htipWork, h⟩
  have hweighed : Node.Weighed now block c.node.store prev blockWork tip tipWork store' :=
    ⟨Node.sideParent_eq_ok.mp hprev, hcheck, store, hwork, htip, htipWork⟩
  -- the node's call goes the same way up to the comparison
  have hnode : ∀ n' : Node State, (if BlockStore.Beats blockWork block.getHash tipWork tip.getHash then do
        let branch ← store'.collectBranch block
        match branch with
        | [] => .error .panic
        | first :: _ => do
          ensure (finalityHeight tip.getHeight ≤ pred64 first.getHeight) .reorgBeyondFinality
          Node.switchToBranchTxn L branch ⟨store', c.node.state⟩
      else return ⟨store', c.node.state⟩) = .ok n' → Node.importSide L now block c.node = .ok n' := by
    intro n' hn'
    refine bind_eq_ok.mpr ⟨prev, hprev, ?_⟩
    refine bind_eq_ok.mpr ⟨(), hcheck, ?_⟩
    refine bind_eq_ok.mpr ⟨(blockWork, store), hwork, ?_⟩
    refine bind_eq_ok.mpr ⟨tip, htip, ?_⟩
    exact bind_eq_ok.mpr ⟨(tipWork, store'), htipWork, hn'⟩
  dsimp only at h
  split at h
  · next hbeats =>
    rcases bind_eq_ok.mp h with ⟨branch, hbranch, h⟩
    cases branch with
    | nil => cases h
    | cons first rest =>
      rcases bind_eq_ok.mp h with ⟨_, hfinal, h⟩
      rcases switchToBranchTxn_eq_ok h with ⟨hswitch, first', rest', heq, hkept⟩
      obtain ⟨rfl, rfl⟩ := List.cons.inj heq
      rw [BlockStore.collectBranch_getLast hbranch] at hkept
      refine ⟨hnode _ ?_, prev, blockWork, tip, tipWork, store', hweighed, .inr ⟨hbeats, first, rest, hbranch,
        ensure_eq_ok.mp hfinal, hswitch, hkept⟩⟩
      rw [if_pos hbeats]
      exact bind_eq_ok.mpr ⟨_, hbranch, bind_eq_ok.mpr ⟨(), hfinal, hswitch⟩⟩
  · next hbeats =>
    obtain rfl := pure_eq_ok.mp h
    refine ⟨hnode _ ?_, prev, blockWork, tip, tipWork, store', hweighed, .inl ⟨hbeats, rfl⟩⟩
    rw [if_neg hbeats]
    rfl

/-- **Every call of the chain is the node's call.** -/
theorem applyBlock_node (h : applyBlock L network now block c = .ok c') :
    c.node.applyBlock L now block = .ok c'.node := by
  unfold applyBlock at h
  unfold Node.applyBlock
  split at h
  · next hprev =>
    rw [if_pos hprev]
    exact (extendTip_eq_ok h).1
  · next hprev =>
    rw [if_neg hprev]
    exact (importSide_eq_ok h).1

theorem switchToBranch_eq_ok (h : switchToBranch L network now branch c = .ok c') :
    c.node.switchToBranch L now branch = .ok c'.node ∧ ∃ first rest, branch = first :: rest ∧
      Kept network (rest.getLastD first) c'.node c.snapshots c'.snapshots := by
  cases branch with
  | nil => cases h
  | cons first rest =>
    rw [switchToBranch] at h
    rcases bind_eq_ok.mp h with ⟨forkParent, hparent, h⟩
    rcases bind_eq_ok.mp h with ⟨_, hcheck, h⟩
    rcases bind_eq_ok.mp h with ⟨⟨base, store⟩, hbase, h⟩
    rcases bind_eq_ok.mp h with ⟨tip, htip, h⟩
    rcases bind_eq_ok.mp h with ⟨⟨tipWork, store'⟩, htipWork, h⟩
    rcases bind_eq_ok.mp h with ⟨_, hbeats, h⟩
    rcases switchToBranchTxn_eq_ok h with ⟨hswitch, hkept⟩
    refine ⟨?_, hkept⟩
    refine bind_eq_ok.mpr ⟨forkParent, hparent, ?_⟩
    refine bind_eq_ok.mpr ⟨(), hcheck, ?_⟩
    refine bind_eq_ok.mpr ⟨(base, store), hbase, ?_⟩
    refine bind_eq_ok.mpr ⟨tip, htip, ?_⟩
    refine bind_eq_ok.mpr ⟨(tipWork, store'), htipWork, ?_⟩
    exact bind_eq_ok.mpr ⟨(), hbeats, hswitch⟩

end Calls
/-! ## §2 — sheets of canonical blocks -/

/-- **`Served s p`** — every sheet kept is the sheet of a canonical checkpoint: by height in the bucket, by height and
hash in the cache. -/
structure Served (s : BlockStore) (p : Snapshots) : Prop where
  index : ∀ (h : Nat) (hash : Bytes), p.cache.heightToHash[h]? = some hash →
    s.heights[h]? = some hash ∧ h % blockCheckRound = 0
  cache : ∀ (h : Nat) (hash : Bytes) (sheet : Sheet), p.cache.Holds h hash sheet →
    sheet.height = h ∧ sheet.blockHash = hash
  bucket : ∀ (h : Nat) (sheet : Sheet), p.bucket[h]? = some sheet →
    sheet.height = h ∧ s.heights[h]? = some sheet.blockHash ∧ h % blockCheckRound = 0

theorem Served.empty (s : BlockStore) : Served s .empty := by
  refine ⟨?_, ?_, ?_⟩
  · intro h hash hh
    simp [Snapshots.empty, SnapshotManager.empty] at hh
  · rintro h hash sheet ⟨hh, _⟩
    simp [Snapshots.empty, SnapshotManager.empty] at hh
  · intro h sheet hh
    simp [Snapshots.empty] at hh

section Store

variable [Crypto] {H : Set BlockHeader} {s s' : BlockStore} {tip : FullBlock} {p p' : Snapshots} {network : Network}

theorem height_unique (hs : BlockStore.Sound H s tip) (hzero : s.originHeight = 0) {h h' : Nat} {hash : Bytes}
    (hh : s.heights[h]? = some hash) (hh' : s.heights[h']? = some hash) : h = h' := by
  have hbody : ∀ k : Nat, s.heights[k]? = some hash → ∃ b : FullBlock, s.blocks[hash]? = some b ∧ b.getHeight = k := by
    intro k hk
    have hle : k ≤ tip.getHeight := by
      by_contra hgt
      rw [hs.above k (by omega)] at hk
      cases hk
    rcases hs.canonical k (by omega) hle with ⟨b, hb, hbody, hheight, _⟩
    obtain rfl : b.getHash.val = hash := Option.some_injective _ (hb.symm.trans hk)
    exact ⟨b, hbody, hheight⟩
  rcases hbody h hh with ⟨b, hb, rfl⟩
  rcases hbody h' hh' with ⟨b', hb', rfl⟩
  rw [Option.some_injective _ (hb.symm.trans hb')]

/-- Putting the sheet of a canonical checkpoint. Whatever stood at its height may have been stale. -/
theorem index_put {sm : SnapshotManager} (sheet : Sheet) (hs : BlockStore.Sound H s tip) (hzero : s.originHeight = 0)
    (hsheet : s.heights[sheet.height]? = some sheet.blockHash) (hround : sheet.height % blockCheckRound = 0)
    (hindex : ∀ (h : Nat) (hash : Bytes), h ≠ sheet.height → sm.heightToHash[h]? = some hash →
      s.heights[h]? = some hash ∧ h % blockCheckRound = 0)
    (hcache : ∀ (h : Nat) (hash : Bytes) (sheet' : Sheet), h ≠ sheet.height → sm.Holds h hash sheet' →
      sheet'.height = h ∧ sheet'.blockHash = hash) :
    (∀ (h : Nat) (hash : Bytes), (sm.putSnapshot sheet.height sheet.blockHash sheet).heightToHash[h]? = some hash →
      s.heights[h]? = some hash ∧ h % blockCheckRound = 0) ∧
    ∀ (h : Nat) (hash : Bytes) (sheet' : Sheet),
      (sm.putSnapshot sheet.height sheet.blockHash sheet).Holds h hash sheet' →
      sheet'.height = h ∧ sheet'.blockHash = hash := by
  constructor
  · intro h hash hh
    simp only [SnapshotManager.putSnapshot, Bucket.get_insert] at hh
    split at hh
    · next heq =>
      cases hh
      exact heq ▸ ⟨hsheet, hround⟩
    · next hne => exact hindex h hash (fun heq => hne heq.symm) (SnapshotManager.get_prune hh)
  · intro h hash sheet' hh
    rcases SnapshotManager.holds_put hh with ⟨rfl, rfl, rfl⟩ | ⟨hne, hold, rfl | hholds⟩
    · exact ⟨rfl, rfl⟩
    · -- another height cannot name the new hash
      exact absurd (height_unique hs hzero (hindex h _ hne hold).1 hsheet) hne
    · exact hcache h hash sheet' hne hholds

/-- **A move of the tip** that keeps every canonical checkpoint, the height of the new tip apart, keeps the sheets
right. -/
theorem Served.move {node : Node State} (h : Served s p) (hs : BlockStore.Sound H node.store tip)
    (hzero : node.store.originHeight = 0)
    (hkeep : ∀ (k : Nat) (hash : Bytes), k % blockCheckRound = 0 → s.heights[k]? = some hash →
      node.store.heights[k]? = some hash ∨ k = tip.getHeight)
    (hkept : Kept network tip node p p') : Served node.store p' := by
  rcases hkept with ⟨hhead, rfl⟩ | ⟨hhead, latest, hlatest, rfl⟩
  · -- the new tip is no checkpoint, so nothing kept stands at its height
    have hstay : ∀ (k : Nat) (hash : Bytes), s.heights[k]? = some hash → k % blockCheckRound = 0 →
        node.store.heights[k]? = some hash := by
      intro k hash hk hround
      rcases hkeep k hash hround hk with hsame | rfl
      · exact hsame
      · exact absurd (show tip.isHead = true from decide_eq_true hround) (by simp [hhead])
    refine ⟨?_, h.cache, ?_⟩
    · intro k hash hk
      rcases h.index k hash hk with ⟨hold, hround⟩
      exact ⟨hstay k hash hold hround, hround⟩
    · intro k sheet hk
      rcases h.bucket k sheet hk with ⟨hheight, hold, hround⟩
      exact ⟨hheight, hstay k _ hold hround, hround⟩
  · obtain rfl := hs.getLatestBlock hlatest
    have hround : latest.getHeight % blockCheckRound = 0 := of_decide_eq_true hhead
    have hindex : ∀ (k : Nat) (hash : Bytes), k ≠ latest.getHeight → p.cache.heightToHash[k]? = some hash →
        node.store.heights[k]? = some hash ∧ k % blockCheckRound = 0 := by
      intro k hash hne hk
      rcases h.index k hash hk with ⟨hold, hround⟩
      exact ⟨(hkeep k hash hround hold).resolve_right hne, hround⟩
    rcases index_put (node.state.dumpSheetAt network latest.getHeight latest.getHash.val) hs hzero hs.top hround
      hindex (fun k hash sheet _ hholds => h.cache k hash sheet hholds) with ⟨hindex, hcache⟩
    refine ⟨hindex, hcache, ?_⟩
    intro k sheet hk
    rcases Snapshots.bucket_put hk with ⟨rfl, rfl⟩ | ⟨hne, hold⟩
    · exact ⟨rfl, hs.top, hround⟩
    · rcases h.bucket k sheet hold with ⟨hheight, hold, hround⟩
      exact ⟨hheight, (hkeep k _ hround hold).resolve_right hne, hround⟩

/-- **A lookup** answers with the genesis sheet or the sheet of a canonical block, and what it remembers is right. -/
theorem Served.lookup (h : Served s p) (hs : BlockStore.Sound H s tip) (hzero : s.originHeight = 0) {height : Nat}
    {sheet : Sheet} (hget : p.getSnapshotByHeight network height = .ok (sheet, p')) :
    (getGenesisSheet network = .ok sheet ∨ s.heights[sheet.height]? = some sheet.blockHash) ∧ Served s p' := by
  rcases Snapshots.getSnapshotByHeight_eq_ok hget with ⟨hgenesis, rfl⟩ | ⟨hcache, rfl⟩ | ⟨hpersisted, rfl⟩
  · exact ⟨.inl hgenesis, h⟩
  · rcases SnapshotManager.holds_of_get hcache with ⟨hash, hholds⟩
    rcases h.cache height hash sheet hholds with ⟨rfl, rfl⟩
    exact ⟨.inr (h.index _ _ hholds.1).1, h⟩
  · rcases Snapshots.persisted_mem hpersisted with ⟨k, hk⟩
    rcases h.bucket k sheet hk with ⟨rfl, hcanonical, hround⟩
    refine ⟨.inr hcanonical, ?_⟩
    rcases index_put sheet hs hzero hcanonical hround (fun k hash _ hk => h.index k hash hk)
      (fun k hash sheet' _ hholds => h.cache k hash sheet' hholds) with ⟨hindex, hcache⟩
    exact ⟨hindex, hcache, h.bucket⟩

end Store

/-- Between the finality line and the tip only the tip can be a checkpoint. -/
theorem eq_tip_of_round {k t : Nat} (hround : k % blockCheckRound = 0) (hfinal : finalityHeight t < k) (hle : k ≤ t) :
    k = t := by
  unfold finalityHeight blockCheckRound at *
  split at hfinal <;> omega

/-! ## §3 — runs -/

end Chain

namespace BlockStore

variable [Crypto]

/-- **`Wins block s`** — the block's chain beats the tip's, as the side path weighs them. -/
def Wins (block : FullBlock) (s : BlockStore) : Prop :=
  ∃ blockWork store tip tipWork store', (s.putSideBlock block).cumulativeWork block = .ok (blockWork, store) ∧
    store.getLatestBlock = .ok tip ∧ store.cumulativeWork tip = .ok (tipWork, store') ∧
    Beats blockWork block.getHash tipWork tip.getHash

/-- **`SparesCheckpoint block s`** — when the tip is a checkpoint, a block that wins is its child or stands at its
height. -/
def SparesCheckpoint (block : FullBlock) (s : BlockStore) : Prop :=
  s.latestHeight % blockCheckRound = 0 →
    block.getPrevHash = s.latestHash ∨ block.getHeight = s.latestHeight ∨ ¬ s.Wins block

/-- **`SparesCheckpoints branch s`** — the branch has every checkpoint of the canonical chain from its first height
on, or ends at the height of it. -/
def SparesCheckpoints (branch : List FullBlock) (s : BlockStore) : Prop :=
  ∀ first rest, branch = first :: rest → ∀ k, first.getHeight ≤ k → k ≤ s.latestHeight → k % blockCheckRound = 0 →
    k = (rest.getLastD first).getHeight ∨ ∃ b ∈ branch, b.getHeight = k ∧ s.heights[k]? = some b.getHash.val

end BlockStore

namespace Chain

section Runs

variable [Engine] (cfg : Config)

/-- **`Run one many H`** — any sequence of `ApplyBlock` and `Chain.SwitchToBranch` calls, failing ones included, and
of lookups in between, on a fresh database; a block is handed in under the condition `one`, a branch under `many`. -/
inductive Run (one : FullBlock → BlockStore → Prop) (many : List FullBlock → BlockStore → Prop)
    (H : Set BlockHeader) : Chain → Prop
  | genesis {n : Node State} : Node.genesis cfg = .ok n → Run one many H ⟨n, .empty⟩
  | applyBlock {c : Chain} (now : Nat) (block : FullBlock) : Run one many H c → block.header ∈ H →
      one block c.node.store → Run one many H (c.update (c.applyBlock (ledger cfg) cfg.network now block))
  | switchToBranch {c : Chain} (now : Nat) (branch : List FullBlock) : Run one many H c →
      (∀ b ∈ branch, b.header ∈ H) → many branch c.node.store →
      Run one many H (c.update (c.switchToBranch (ledger cfg) cfg.network now branch))
  | getSnapshotByHeight {c : Chain} {height : Nat} {sheet : Sheet} {p : Snapshots} : Run one many H c →
      c.snapshots.getSnapshotByHeight cfg.network height = .ok (sheet, p) → Run one many H ⟨c.node, p⟩

variable {cfg} {one : FullBlock → BlockStore → Prop} {many : List FullBlock → BlockStore → Prop}
  {H : Set BlockHeader} {c : Chain}

theorem Run.reachable (h : Run cfg one many H c) : Node.Reachable cfg H c.node := by
  induction h with
  | genesis hn => exact .genesis hn
  | @applyBlock c now block _ hb _ ih =>
    cases hok : c.applyBlock (ledger cfg) cfg.network now block with
    | error e => exact ih
    | ok c' =>
      have hstep := ih.applyBlock now block hb
      rwa [applyBlock_node hok] at hstep
  | @switchToBranch c now branch _ hb _ ih =>
    cases hok : c.switchToBranch (ledger cfg) cfg.network now branch with
    | error e => exact ih
    | ok c' =>
      have hstep := ih.switchToBranch now branch hb
      rwa [(switchToBranch_eq_ok hok).1] at hstep
  | getSnapshotByHeight _ _ ih => exact ih

section Steps

variable (hinj : Set.InjOn BlockHeader.getHash (genesisHeaders ∪ H)) {tip block : FullBlock}
  {branch : List FullBlock} {now : Nat} {c' : Chain}
include hinj

theorem Served.applyBlock (h : Served c.node.store c.snapshots)
    (hs : BlockStore.Sound (genesisHeaders ∪ H) c.node.store tip) (hzero : c'.node.store.originHeight = 0)
    (hb : block.header ∈ H) (hspare : c.node.store.SparesCheckpoint block)
    (hok : c.applyBlock (ledger cfg) cfg.network now block = .ok c') : Served c'.node.store c'.snapshots := by
  have hbelow : ∀ (k : Nat) (hash : Bytes), c.node.store.heights[k]? = some hash → k ≤ tip.getHeight := by
    intro k hash hk
    by_contra hgt
    rw [hs.above k (by omega)] at hk
    cases hk
  unfold Chain.applyBlock at hok
  split at hok
  · next hprev =>
    rcases extendTip_eq_ok hok with ⟨hnode, hkept⟩
    rcases Node.extendTip_sound hinj hs (.inr hb) hprev hnode with ⟨_, hs', hindex⟩
    refine h.move hs' hzero (fun k hash _ hk => .inl ?_) hkept
    rw [hindex k (hbelow k hash hk)]
    exact hk
  · next hprev =>
    rcases importSide_eq_ok hok with ⟨_, prev, blockWork, tip', tipWork, store, hw, hcase⟩
    rcases hw.sound hinj hs (.inr hb) with ⟨hheader, hsound, hheights, _, hbody⟩
    have htip : tip'.getHeight = tip.getHeight := congrArg BlockHeader.height hheader
    rcases hcase with ⟨_, rfl⟩ | ⟨hbeats, first, rest, hbranch, hfinal, hswitch, hkept⟩
    · exact ⟨by rw [hheights]; exact h.index, h.cache, by rw [hheights]; exact h.bucket⟩
    · -- the block wins: above the finality line the tip is the only checkpoint there can be
      have hmem := BlockStore.collectBranch_mem hbranch ⟨_, hbody⟩
      have habove : ∀ b ∈ first :: rest, b.header ∈ genesisHeaders ∪ H ∧ store.originHeight < b.getHeight := by
        intro b hb
        rcases hmem b hb with ⟨⟨hash, hstored⟩, hside⟩
        exact ⟨hsound.headers hash b hstored, hsound.above_origin hstored hside⟩
      rcases Node.switchToBranchTxn_sound hinj hsound habove hswitch with ⟨first', rest', heq, hs', _, hindex⟩
      obtain ⟨rfl, rfl⟩ := List.cons.inj heq
      rw [BlockStore.collectBranch_getLast hbranch] at hs'
      have hfirst := (habove first List.mem_cons_self).2
      rw [pred64_of_pos (by omega), htip] at hfinal
      refine h.move hs' hzero (fun k hash hround hk => ?_) hkept
      by_cases hlow : k < first.getHeight
      · rw [hindex k hlow, hheights]
        exact .inl hk
      · refine .inr ?_
        obtain rfl := eq_tip_of_round hround (by omega) (hbelow k hash hk)
        rw [← hs.latestHeight] at hround
        rcases hspare hround with hchild | hsame | hloses
        · exact absurd hchild hprev
        · exact hs.latestHeight.symm.trans hsame.symm
        · rcases hw.weighed with ⟨store', hwork, hlatest, htipWork⟩
          exact absurd ⟨blockWork, store', tip', tipWork, store, hwork, hlatest, htipWork, hbeats⟩ hloses

theorem Served.switchToBranch (h : Served c.node.store c.snapshots)
    (hs : BlockStore.Sound (genesisHeaders ∪ H) c.node.store tip) (hzero : c'.node.store.originHeight = 0)
    (hb : ∀ b ∈ branch, b.header ∈ H) (hspare : c.node.store.SparesCheckpoints branch)
    (hok : c.switchToBranch (ledger cfg) cfg.network now branch = .ok c') : Served c'.node.store c'.snapshots := by
  rcases switchToBranch_eq_ok hok with ⟨hnode, first, rest, rfl, hkept⟩
  rcases Node.switchToBranch_settles hinj hs (fun b hmem => .inr (hb b hmem)) hnode with
    ⟨first', rest', heq, hs', hbranch, hindex⟩
  obtain ⟨rfl, rfl⟩ := List.cons.inj heq
  refine h.move hs' hzero (fun k hash hround hk => ?_) hkept
  by_cases hlow : k < first.getHeight
  · rw [hindex k hlow]
    exact .inl hk
  · have hle : k ≤ c.node.store.latestHeight := by
      by_contra hgt
      rw [hs.above k (by have := hs.latestHeight; omega)] at hk
      cases hk
    rcases hspare first rest rfl k (by omega) hle hround with hlast | ⟨b, hmem, rfl, hcanonical⟩
    · exact .inr hlast
    · rw [hbranch b hmem, ← hcanonical]
      exact .inl hk

/-- **The sheets of a run that spares the checkpoints are those of canonical blocks.** -/
theorem Run.served (h : Run cfg (fun b s => s.SparesCheckpoint b) (fun l s => s.SparesCheckpoints l) H c) :
    Served c.node.store c.snapshots := by
  have hzero : ∀ {c : Chain}, Run cfg (fun b s => s.SparesCheckpoint b) (fun l s => s.SparesCheckpoints l) H c →
      c.node.store.originHeight = 0 := fun hc => hc.reachable.originHeight_eq hinj
  induction h with
  | genesis _ => exact .empty _
  | @applyBlock c now block hc hb hspare ih =>
    rcases hc.reachable.sound hinj with ⟨tip, hs⟩
    have hnext := hzero (Run.applyBlock now block hc hb hspare)
    cases hok : c.applyBlock (ledger cfg) cfg.network now block with
    | error e => exact ih
    | ok c' =>
      rw [hok] at hnext
      exact ih.applyBlock hinj hs hnext hb hspare hok
  | @switchToBranch c now branch hc hb hspare ih =>
    rcases hc.reachable.sound hinj with ⟨tip, hs⟩
    have hnext := hzero (Run.switchToBranch now branch hc hb hspare)
    cases hok : c.switchToBranch (ledger cfg) cfg.network now branch with
    | error e => exact ih
    | ok c' =>
      rw [hok] at hnext
      exact ih.switchToBranch hinj hs hnext hb hspare hok
  | getSnapshotByHeight hc hget ih =>
    rcases hc.reachable.sound hinj with ⟨tip, hs⟩
    exact (ih.lookup hs (hzero hc) hget).2

/-- **Served sheets are canonical**, along every run whose reorganisations spare the checkpoints: whatever a lookup
answers, other than the genesis sheet, carries the hash of the block that is canonical at the sheet's own height. -/
theorem Run.served_canonical
    (h : Run cfg (fun b s => s.SparesCheckpoint b) (fun l s => s.SparesCheckpoints l) H c) {height : Nat}
    {sheet : Sheet} {p : Snapshots} (hget : c.snapshots.getSnapshotByHeight cfg.network height = .ok (sheet, p)) :
    getGenesisSheet cfg.network = .ok sheet ∨ c.node.store.heights[sheet.height]? = some sheet.blockHash := by
  rcases h.reachable.sound hinj with ⟨tip, hs⟩
  exact ((h.served hinj).lookup hs (h.reachable.originHeight_eq hinj) hget).1

end Steps

end Runs

/-! ## §4 — by hand -/

section Agree

variable [Crypto] {I : State → Prop} {L L' : Ledger State}

theorem agrees_applyBlock (h : Ledger.Agrees I L L') (network : Network) (now : Nat)
    (b : FullBlock) {c : Chain} (hs : I c.node.state) :
    c.applyBlock L network now b = c.applyBlock L' network now b ∧
      ∀ c', c.applyBlock L network now b = .ok c' → I c'.node.state := by
  refine ⟨?_, fun c' hok => (h.applyBlock now b hs).2 c'.node (applyBlock_node hok)⟩
  unfold applyBlock
  split
  · unfold extendTip
    rw [(h.extendTip now b hs).1]
  · have hswitch : ∀ (branch : List FullBlock) (store : BlockStore),
        switchToBranchTxn L network branch ⟨⟨store, c.node.state⟩, c.snapshots⟩ =
          switchToBranchTxn L' network branch ⟨⟨store, c.node.state⟩, c.snapshots⟩ := by
      intro branch store
      cases branch with
      | nil => rfl
      | cons first rest =>
        rw [switchToBranchTxn, switchToBranchTxn,
          (h.switchToBranchTxn (first :: rest) (n := ⟨store, c.node.state⟩) hs).1]
    simp only [importSide, hswitch]

end Agree

/-- Blocks applied one after the other, none refused, each under a condition. -/
def handServe [Engine] (cfg : Config) (cond : FullBlock → BlockStore → Bool) (blocks : List FullBlock) (c : Chain) :
    Except Err Chain :=
  blocks.foldlM (fun c b =>
    if cond b c.node.store = true then c.applyBlock (handLedger cfg) cfg.network handNow b else .error .panic) c

theorem exists_run_byHand (modules : Bytes → Option Module) (archive : Bool) (cond : FullBlock → BlockStore → Bool)
    (one : FullBlock → BlockStore → Prop) (many : List FullBlock → BlockStore → Prop)
    (hcond : ∀ b s, cond b s = true → one b s) (l : List FullBlock) (test : Chain → Bool) :
    letI := Engine.byHand modules
    okAnd (handServe ⟨ZERONET, archive⟩ cond l ⟨handNode archive, .empty⟩) test = true →
      ∃ c, Run ⟨ZERONET, archive⟩ one many {x | x ∈ l.map FullBlock.header} c ∧ test c = true := by
  let _ := Engine.byHand modules
  intro h
  have hend := exists_of_foldlM (P := fun c : Chain =>
    Run ⟨ZERONET, archive⟩ one many {x | x ∈ l.map FullBlock.header} c ∧ c.node.state.Committed)
    (fun b hb c c' hc hok => ?_) ⟨.genesis (genesis_byHand modules archive), committed_handNode modules archive⟩ h
  · exact hend.imp fun c hc => ⟨hc.1.1, hc.2⟩
  · dsimp only at hok
    split at hok
    · next hone =>
      rcases agrees_applyBlock (handLedger_agrees modules ⟨ZERONET, archive⟩) ZERONET handNow b hc.2 with ⟨heq, hkeep⟩
      have hok := heq.trans hok
      have hstep := hc.1.applyBlock handNow b (List.mem_map_of_mem hb) (hcond b _ hone)
      rw [hok] at hstep
      exact ⟨hstep, hkeep c' hok⟩
    · cases hok

end Chain

/-- Nine blocks by one miner, a tenth by another, and two more by the first on top of the ninth. -/
def handFork [Crypto] : List FullBlock :=
  let trunk := handChain 1 9 handGenesis
  let ninth := trunk.getLastD handGenesis
  trunk ++ [handSeal ninth 2 [] []] ++ handChain 1 2 ninth

theorem served_canonical_handChain :
    letI := Engine.bare
    ∃ c sheet p, Chain.Run ⟨ZERONET, true⟩ (fun b s => s.SparesCheckpoint b) (fun l s => s.SparesCheckpoints l)
        {x | x ∈ (handChain 1 11 handGenesis).map FullBlock.header} c ∧
      c.snapshots.getSnapshotByHeight ZERONET 11 = .ok (sheet, p) ∧ sheet.height = 10 ∧
      (getGenesisSheet ZERONET = .ok sheet ∨ c.node.store.heights[sheet.height]? = some sheet.blockHash) := by
  let _ := Engine.bare
  obtain ⟨c, hrun, htest⟩ := Chain.exists_run_byHand (fun _ => none) true
    (fun b s => decide (b.getPrevHash = s.latestHash)) (fun b s => s.SparesCheckpoint b)
    (fun l s => s.SparesCheckpoints l) (fun b s h _ => .inl (of_decide_eq_true h)) (handChain 1 11 handGenesis)
    (fun c => okAnd (c.snapshots.getSnapshotByHeight ZERONET 11) fun r => decide (r.1.height = 10)) (by decide +kernel)
  rcases exists_of_okAnd htest with ⟨⟨sheet, p⟩, hget, hheight⟩
  exact ⟨c, sheet, p, hrun, hget, of_decide_eq_true hheight,
    hrun.served_canonical (injOn_byHand _ (by decide +kernel)) hget⟩

/-- **The sheet of an orphaned checkpoint is served**: ten blocks, then a branch of two that replaces the tenth. -/
theorem served_orphan_handFork :
    letI := Engine.bare
    Set.InjOn BlockHeader.getHash (genesisHeaders ∪ {x | x ∈ handFork.map FullBlock.header}) ∧
      ∃ c sheet p, Chain.Run ⟨ZERONET, true⟩ (fun _ _ => True) (fun _ _ => True)
          {x | x ∈ handFork.map FullBlock.header} c ∧
        c.snapshots.getSnapshotByHeight ZERONET 10 = .ok (sheet, p) ∧ sheet.height = 10 ∧
        c.node.store.heights[sheet.height]? ≠ some sheet.blockHash := by
  let _ := Engine.bare
  refine ⟨injOn_byHand _ (by decide +kernel), ?_⟩
  obtain ⟨c, hrun, htest⟩ := Chain.exists_run_byHand (fun _ => none) true (fun _ _ => true)
    (fun _ _ => True) (fun _ _ => True) (fun _ _ _ => trivial) handFork
    (fun c => okAnd (c.snapshots.getSnapshotByHeight ZERONET 10) fun r =>
      decide (r.1.height = 10 ∧ c.node.store.heights[r.1.height]? ≠ some r.1.blockHash)) (by decide +kernel)
  rcases exists_of_okAnd htest with ⟨⟨sheet, p⟩, hget, hstale⟩
  exact ⟨c, sheet, p, hrun, hget, of_decide_eq_true hstale⟩

end NgCore
