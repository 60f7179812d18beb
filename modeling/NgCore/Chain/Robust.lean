/-
# NgCore.Chain.Robust — what a block from outside can do to validation

`validateBlockMsg` of `ngp2p/broadcast/validators.go` and `ApplyBlock`, asked one question: do they come back? Three
places of the validation can panic — the division by a declared difficulty, the division by a proof-of-work hash,
`GetNextDiff` on a parent from before genesis — and two can stall: `GetNextDiff` raises two to a power taken from the
HEIGHT it is given, and `GetBlockReward`, which the checks of the mints call, loops once per era of that height.
`Lib.Traced` writes these evaluations down; forgetting them gives `ApplyBlock`.

The code guards none of the five by itself. A zero difficulty is divided by on every path; the tip path makes both
evaluations before it compares the height with the parent's; and the child of the origin, exempt from the target
rule, may carry any time. One block is enough to stop a node (`Node.applyBlock_panics_handZero`).

On chains all of whose headers are dated, a block that declares difficulties and, on the tip path, the next height,
is always answered (`Node.applyBlock_robust`).
-/
import NgCore.Lib.Traced
import NgCore.Chain.Ranked
import NgCore.Chain.Handmade

namespace NgCore

open Lib (Bucket Traced)
open Lib.Rlp (beVal)
open Lib.Traced (only_bind only_call only_lift)

/-! ## §1 — the context-free rules -/

/-- **`Started`** — the network of the header is known, and its time is not before the genesis of that network. -/
def BlockHeader.Started (x : BlockHeader) : Prop :=
  ∃ genesisTime, getGenesisTimestamp x.network = .ok genesisTime ∧ genesisTime ≤ x.timestamp

/-- **`Divides`** — no difficulty the block declares is zero; height zero declares none. -/
structure FullBlock.Divides (x : FullBlock) : Prop where
  header : x.header.height ≠ 0 → beVal x.header.difficulty ≠ 0
  uncles : ∀ u ∈ x.uncles, beVal u.difficulty ≠ 0

section Checks

variable [Crypto]

theorem BlockHeader.returns_checkPow {x : BlockHeader} {e : Err} (hx : beVal x.difficulty ≠ 0) (he : e ≠ .panic) :
    Returns (x.checkPow e) := by
  unfold BlockHeader.checkPow
  rw [ensure, if_pos hx]
  exact returns_ensure he

theorem BlockHeader.returns_checkStandaloneError {x : BlockHeader} (hx : beVal x.difficulty ≠ 0) (now : Nat) :
    Returns (x.checkStandaloneError now) := by
  refine returns_ensure_bind (by decide) fun _ => returns_ensure_bind (by decide) fun _ => ?_
  refine returns_ensure_bind (by decide) fun _ => returns_ensure_bind (by decide) fun _ => ?_
  refine returns_ensure_bind (by decide) fun _ => returns_ensure_bind (by decide) fun _ => ?_
  exact returns_checkPow hx (by decide)

namespace FullBlock

theorem returns_checkUncles (now : Nat) (prevBlockHash : Bytes) (seen : List Bytes32) {uncles : List BlockHeader}
    (h : ∀ u ∈ uncles, beVal u.difficulty ≠ 0) : Returns (checkUncles now prevBlockHash seen uncles) := by
  induction uncles generalizing seen with
  | nil => exact returns_ok ()
  | cons u uncles ih =>
    rw [List.forall_mem_cons] at h
    refine returns_bind (BlockHeader.returns_checkStandaloneError h.1 now) fun _ _ => ?_
    exact returns_ensure_bind (by decide) fun _ => returns_ensure_bind (by decide) fun _ => ih _ h.2

/-- **The context-free check returns** on blocks that declare difficulties. -/
theorem Divides.returns_checkError {x : FullBlock} (h : x.Divides) (now : Nat) : Returns (x.checkError now) := by
  refine returns_ensure_bind (by decide) fun _ => returns_ensure_bind (by decide) fun _ => ?_
  refine returns_ensure_bind (by decide) fun _ => returns_ensure_bind (by decide) fun _ => ?_
  refine returns_ensure_bind (by decide) fun _ => returns_ensure_bind (by decide) fun _ => ?_
  refine returns_ensure_bind (by decide) fun _ => ?_
  refine returns_bind (returns_forM fun c _ => c.returns_checkError _ _) fun _ _ => ?_
  refine returns_ensure_bind (by decide) fun _ => returns_ensure_bind (by decide) fun _ => ?_
  refine returns_ensure_bind (by decide) fun _ => returns_ensure_bind (by decide) fun _ => ?_
  refine returns_ensure_bind (by decide) fun _ => returns_ensure_bind (by decide) fun _ => ?_
  refine returns_ensure_bind (by decide) fun _ => returns_ensure_bind (by decide) fun _ => ?_
  refine returns_ensure_bind (by decide) fun _ => returns_ensure_bind (by decide) fun _ => ?_
  refine returns_bind (returns_checkUncles now _ [] h.uncles) fun _ _ => ?_
  unfold verifyNonce
  split
  · exact returns_ok ()
  · next hheight => exact BlockHeader.returns_checkPow (h.header hheight) (by decide)

/-- What `checkError` made sure of for the uncles: none stands at height zero. -/
theorem height_ne_zero_of_checkUncles {now : Nat} {prevBlockHash : Bytes} {seen : List Bytes32}
    {uncles : List BlockHeader} (h : checkUncles now prevBlockHash seen uncles = .ok ()) :
    ∀ u ∈ uncles, u.height ≠ 0 := by
  induction uncles generalizing seen with
  | nil => exact nofun
  | cons u uncles ih =>
    simp only [checkUncles, BlockHeader.checkStandaloneError, bind_eq_ok, ensure_eq_ok, exists_const] at h
    rcases h with ⟨_, ⟨_, _, _, _, hheight, _⟩, _, _, hrest⟩
    exact List.forall_mem_cons.mpr ⟨hheight, ih hrest⟩

end FullBlock

/-- **`validateBlockMsg`** — the gate of block gossip; `decode` is the RLP decoder. -/
def validateBlockMsg (decode : Bytes → Option FullBlock) (network : Network) (now : Nat) (data : Bytes) :
    Except Err Bool :=
  if maxBlockBytes < data.length then .ok false
  else match decode data with
    | none => .ok false
    | some block =>
      if block.header.network ≠ network then .ok false
      else match block.checkError now with
        | .ok _ => .ok true
        | .error .panic => .error .panic
        | .error _ => .ok false

theorem returns_validateBlockMsg {decode : Bytes → Option FullBlock} {data : Bytes} {block : FullBlock}
    (hdecode : decode data = some block) (h : block.Divides) (network : Network) (now : Nat) :
    Returns (validateBlockMsg decode network now data) := by
  have hcheck := h.returns_checkError now
  unfold validateBlockMsg
  split
  · exact returns_ok _
  · rw [hdecode]
    dsimp only
    split
    · exact returns_ok _
    · split
      · exact returns_ok _
      · next hpanic => exact absurd hpanic hcheck
      · exact returns_ok _

/-! ## §2 — the evaluations that a height makes long -/

/-- **`Evaluation`** — the height `GetNextDiff` was given, with its parent, or the height of a block whose transactions
are checked on the tip path: its mints are compared with `GetBlockReward` there, `height / rewardEra` rounds. -/
structure Evaluation where
  height : Nat
  parent : Option BlockHeader

/-- `GetNextDiff`, written down. -/
def tracedNextDiff (blockHeight blockTime : Nat) (parent : BlockHeader) : Traced Evaluation Err Nat :=
  .call ⟨blockHeight, some parent⟩ (getNextDiff blockHeight blockTime parent)

/-- `checkBlockTarget`, with its evaluation. -/
def tracedTarget (block prevBlock : FullBlock) : Traced Evaluation Err Unit := do
  .lift (ensure (prevBlock.header.timestamp < block.header.timestamp) .blockTimeNotMonotonic)
  let correctDiff ← tracedNextDiff block.getHeight block.header.timestamp prevBlock.header
  .lift (do
    let actualDiff ← block.header.actualDiff
    ensure (beVal block.header.difficulty = correctDiff) .blockDiffInvalid
    ensure (correctDiff ≤ actualDiff) .blockDiffInvalid
    ensure (beVal block.header.baseFee = nextBaseFee block.header.network prevBlock.getHeight
      (beVal prevBlock.header.baseFee) (blockUsedBytes prevBlock)) .blockBaseFeeInvalid)

/-- `checkUncleSlots`, with its evaluations. -/
def tracedSlots (height : Nat) (ancestors : Bucket Nat FullBlock) :
    (referenced : List Bytes32) → List BlockHeader → Traced Evaluation Err Unit
  | _, [] => .lift (.ok ())
  | referenced, u :: uncles => do
    .lift (ensure (u.height < height ∧ height ≤ u.height + uncleMaxDepth) .uncleInvalid)
    match ancestors[pred64 u.height]? with
    | none => .lift (.error .uncleInvalid)
    | some uncleParent => do
      .lift (ensure (uncleParent.getHash.val = u.prevBlockHash) .uncleInvalid)
      .lift (ensure ((ancestors[u.height]?).map FullBlock.getHash ≠ some u.getHash) .uncleInvalid)
      .lift (ensure (u.getHash ∉ referenced) .uncleInvalid)
      .lift (ensure (uncleParent.header.timestamp < u.timestamp) .uncleInvalid)
      let correct ← tracedNextDiff u.height u.timestamp uncleParent.header
      .lift (ensure (beVal u.difficulty = correct) .uncleInvalid)
      tracedSlots height ancestors (u.getHash :: referenced) uncles

/-- `validateUncles`, with its evaluations. -/
def tracedUncles (getBlock : Bytes → Except Err FullBlock) (block : FullBlock) : Traced Evaluation Err Unit :=
  if block.uncles = [] then .lift (.ok ())
  else do
    let lowest := block.getHeight - (uncleMaxDepth + 1)
    let parentHeight := (getBlock block.getPrevHash).toOption.elim 0 FullBlock.getHeight
    let (ancestors, referenced) ←
      .lift (uncleAncestors getBlock lowest (block.getHeight + parentHeight + 2) block ∅ [])
    tracedSlots block.getHeight ancestors referenced block.uncles

/-- `checkBranchBlock`, with its evaluations. -/
def tracedBranchBlock (now : Nat) (getBlock : Bytes → Except Err FullBlock) (block prev : FullBlock) :
    Traced Evaluation Err Unit := do
  .lift (block.checkError now)
  .lift (ensure (Follows prev block) .branchDisconnected)
  tracedTarget block prev
  tracedUncles getBlock block

namespace Node

variable {S : Type} (L : Ledger S) (now : Nat)

/-- `checkBlockTxn`, with its evaluations. -/
def tracedCheck (block : FullBlock) (n : Node S) : Traced Evaluation Err Unit := do
  let genesis ← .lift (L.isGenesis block)
  if genesis = true then return ()
  .lift (block.checkError now)
  if block.getPrevHash ≠ n.store.originHash then do
    let prevBlock ← .lift (n.store.getBlockByHash block.getPrevHash)
    tracedTarget block prevBlock
  tracedUncles n.store.getBlockByHash block
  .call ⟨block.getHeight, none⟩ (L.checkBlockTxs block n.state)

/-- What `importSide` does with a block that passed its checks. -/
def sideRest (block : FullBlock) (n : Node S) : Except Err (Node S) := do
  let (blockWork, store) ← (n.store.putSideBlock block).cumulativeWork block
  let tip ← store.getLatestBlock
  let (tipWork, store) ← store.cumulativeWork tip
  if BlockStore.Beats blockWork block.getHash tipWork tip.getHash then do
    let branch ← store.collectBranch block
    match branch with
    | [] => .error .panic
    | first :: _ => do
      ensure (finalityHeight tip.getHeight ≤ pred64 first.getHeight) .reorgBeyondFinality
      switchToBranchTxn L branch ⟨store, n.state⟩
  else return ⟨store, n.state⟩

/-- **`tracedApply`** — `ApplyBlock`, with its evaluations. What comes after the checks makes none of its own: a switch
checks the transactions of stored blocks, whose heights were compared with their parents' before they were stored. -/
def tracedApply (block : FullBlock) (n : Node S) : Traced Evaluation Err (Node S) :=
  if block.getPrevHash = n.store.latestHash then do
    tracedCheck L now block n
    .lift (do
      let store ← n.store.putNewBlock block
      let (_, store) ← store.cumulativeWork block
      let state ← L.upgrade block n.state
      return ⟨L.maintain block store, state⟩)
  else do
    let prev ← .lift (sideParent block n.store)
    tracedBranchBlock now n.store.getBlockByHash block prev
    .lift (sideRest L block n)

end Node

/-! ### Forgetting the evaluations -/

theorem outcome_tracedTarget (block prevBlock : FullBlock) :
    (tracedTarget block prevBlock).outcome = checkBlockTarget block prevBlock := by
  simp only [tracedTarget, tracedNextDiff, checkBlockTarget, Traced.outcome_bind, Traced.outcome_lift,
    Traced.outcome_call]

theorem outcome_tracedSlots (height : Nat) (ancestors : Bucket Nat FullBlock) (referenced : List Bytes32)
    (uncles : List BlockHeader) :
    (tracedSlots height ancestors referenced uncles).outcome = checkUncleSlots height ancestors referenced uncles := by
  induction uncles generalizing referenced with
  | nil => rfl
  | cons u uncles ih =>
    rw [tracedSlots, checkUncleSlots]
    cases ancestors[pred64 u.height]? with
    | none => simp only [Traced.outcome_bind, Traced.outcome_lift]
    | some uncleParent =>
      simp only [tracedNextDiff, Traced.outcome_bind, Traced.outcome_lift, Traced.outcome_call, ih]

theorem outcome_tracedUncles (getBlock : Bytes → Except Err FullBlock) (block : FullBlock) :
    (tracedUncles getBlock block).outcome = validateUncles getBlock block := by
  unfold tracedUncles validateUncles
  split
  · rfl
  · simp only [Traced.outcome_bind, Traced.outcome_lift, outcome_tracedSlots]

theorem outcome_tracedBranchBlock (now : Nat) (getBlock : Bytes → Except Err FullBlock) (block prev : FullBlock) :
    (tracedBranchBlock now getBlock block prev).outcome = checkBranchBlock now getBlock block prev := by
  simp only [tracedBranchBlock, checkBranchBlock, Traced.outcome_bind, Traced.outcome_lift, outcome_tracedTarget,
    outcome_tracedUncles]

theorem Node.outcome_tracedCheck {S : Type} (L : Ledger S) (now : Nat) (block : FullBlock) (n : Node S) :
    (tracedCheck L now block n).outcome = checkBlockTxn L now block n := by
  unfold tracedCheck checkBlockTxn
  rw [Traced.outcome_bind, Traced.outcome_lift]
  refine congrArg _ (funext fun genesis => ?_)
  cases genesis with
  | true => rfl
  | false =>
    simp only [Bool.false_eq_true, if_false]
    split
    · simp only [Traced.outcome_bind, Traced.outcome_lift, Traced.outcome_call, outcome_tracedTarget,
        outcome_tracedUncles]
    · simp only [Traced.outcome_bind, Traced.outcome_lift, Traced.outcome_call, outcome_tracedUncles]

/-- **The traced `ApplyBlock` is `ApplyBlock`.** -/
theorem Node.outcome_tracedApply {S : Type} (L : Ledger S) (now : Nat) (block : FullBlock) (n : Node S) :
    (tracedApply L now block n).outcome = applyBlock L now block n := by
  unfold tracedApply applyBlock
  split
  · simp only [extendTip, Traced.outcome_bind, Traced.outcome_lift, outcome_tracedCheck]
  · simp only [importSide, Traced.outcome_bind, Traced.outcome_lift, outcome_tracedBranchBlock]
    rfl

end Checks

/-! ## §3 — the rules of a block on its chain -/

section Rules

variable [Crypto]

omit [Crypto] in
theorem returns_getNextDiff {parent : BlockHeader} (hp : parent.Started) (height time : Nat) :
    Returns (getNextDiff height time parent) := by
  rcases hp with ⟨genesisTime, htime, hle⟩
  unfold getNextDiff
  rw [htime]
  refine returns_bind (returns_ok _) fun t ht => ?_
  cases ht
  rw [ensure, if_pos hle]
  exact returns_ok _

theorem returns_checkBlockTarget {block prevBlock : FullBlock} (hpow : block.header.powValue ≠ 0)
    (hp : prevBlock.header.Started) : Returns (checkBlockTarget block prevBlock) := by
  refine returns_ensure_bind (by decide) fun _ => returns_bind (returns_getNextDiff hp _ _) fun _ _ => ?_
  rw [BlockHeader.actualDiff, if_neg hpow]
  refine returns_ensure_bind (by decide) fun _ => ?_
  exact returns_ensure_bind (by decide) fun _ => returns_ensure (by decide)

/-- **`Placed s c`** — the height is one above a stored block, and that block is the parent `GetNextDiff` is given. -/
def Evaluation.Placed (s : BlockStore) (c : Evaluation) : Prop :=
  ∃ (hash : Bytes) (b : FullBlock), s.blocks[hash]? = some b ∧ c.height = b.getHeight + 1 ∧
    ∀ parent, c.parent = some parent → parent = b.header

variable {s : BlockStore}

theorem only_tracedTarget {block prevBlock : FullBlock} {hash : Bytes} (hp : s.blocks[hash]? = some prevBlock)
    (hheight : block.getHeight = prevBlock.getHeight + 1) :
    (tracedTarget block prevBlock).Only (Evaluation.Placed s) := by
  refine only_bind (only_lift _) fun _ _ => only_bind ?_ fun _ _ => only_lift _
  exact only_call ⟨hash, prevBlock, hp, hheight, fun _ h => (Option.some.inj h).symm⟩ _

/-- The ancestors the walk collects are stored blocks, each under its own height. -/
def AreStored (s : BlockStore) (anc : Bucket Nat FullBlock) : Prop :=
  ∀ (k : Nat) (b : FullBlock), anc[k]? = some b → b.getHeight = k ∧ ∃ hash : Bytes, s.blocks[hash]? = some b

theorem areStored_uncleAncestors {lowest fuel : Nat} {cur : FullBlock} {anc anc' : Bucket Nat FullBlock}
    {refd refd' : List Bytes32} (hanc : AreStored s anc)
    (h : uncleAncestors s.getBlockByHash lowest fuel cur anc refd = .ok (anc', refd')) : AreStored s anc' := by
  induction fuel generalizing cur anc refd with
  | zero => cases h
  | succ fuel ih =>
    rw [uncleAncestors] at h
    split at h
    · rcases bind_eq_ok.mp h with ⟨p, hp, hrest⟩
      refine ih (fun k b hb => ?_) hrest
      rw [Bucket.get_insert] at hb
      split at hb
      · next hk =>
        cases hb
        exact ⟨hk, _, BlockStore.getBlockByHash_eq_ok.mp hp⟩
      · exact hanc k b hb
    · cases h
      exact hanc

theorem only_tracedSlots {height : Nat} {anc : Bucket Nat FullBlock} (hanc : AreStored s anc)
    {uncles : List BlockHeader} (hu : ∀ u ∈ uncles, u.height ≠ 0) (refd : List Bytes32) :
    (tracedSlots height anc refd uncles).Only (Evaluation.Placed s) := by
  induction uncles generalizing refd with
  | nil => exact only_lift _
  | cons u uncles ih =>
    rw [List.forall_mem_cons] at hu
    rw [tracedSlots]
    refine only_bind (only_lift _) fun _ _ => ?_
    split
    · exact only_lift _
    · next uncleParent hparent =>
      rcases hanc _ _ hparent with ⟨hheight, hash, hbody⟩
      rw [pred64_of_pos (Nat.pos_of_ne_zero hu.1)] at hheight
      have hplaced : u.height = uncleParent.getHeight + 1 := by
        have := hu.1
        omega
      refine only_bind (only_lift _) fun _ _ => only_bind (only_lift _) fun _ _ => ?_
      refine only_bind (only_lift _) fun _ _ => only_bind (only_lift _) fun _ _ => ?_
      refine only_bind (only_call ⟨hash, uncleParent, hbody, hplaced, fun _ h => (Option.some.inj h).symm⟩ _) fun _ _ => ?_
      exact only_bind (only_lift _) fun _ _ => ih hu.2 _

theorem only_tracedUncles {block : FullBlock} (hu : ∀ u ∈ block.uncles, u.height ≠ 0) :
    (tracedUncles s.getBlockByHash block).Only (Evaluation.Placed s) := by
  unfold tracedUncles
  split
  · exact only_lift _
  · refine only_bind (only_lift _) fun r hr => ?_
    exact only_tracedSlots (areStored_uncleAncestors (fun k b hb => by simp at hb) hr) hu _

theorem returns_checkUncleSlots {height : Nat} {anc : Bucket Nat FullBlock}
    (hanc : ∀ (k : Nat) (b : FullBlock), anc[k]? = some b → b.header.Started) (refd : List Bytes32)
    (uncles : List BlockHeader) : Returns (checkUncleSlots height anc refd uncles) := by
  induction uncles generalizing refd with
  | nil => exact returns_ok ()
  | cons u uncles ih =>
    rw [checkUncleSlots]
    refine returns_ensure_bind (by decide) fun _ => ?_
    split
    · exact fun h => by cases h
    · next uncleParent hparent =>
      refine returns_ensure_bind (by decide) fun _ => returns_ensure_bind (by decide) fun _ => ?_
      refine returns_ensure_bind (by decide) fun _ => returns_ensure_bind (by decide) fun _ => ?_
      refine returns_bind (returns_getNextDiff (hanc _ _ hparent) _ _) fun _ _ => ?_
      exact returns_ensure_bind (by decide) fun _ => ih _

open BlockStore (Sound Spine Ranked)

variable {H : Set BlockHeader} {tip block : FullBlock}

/-- **The uncle rules always return** on a ranked store of dated blocks, whatever height the block claims. -/
theorem returns_validateUncles (hinj : Set.InjOn BlockHeader.getHash H) (hr : Ranked H s) (hs : Spine H s tip)
    (hzero : s.originHeight = 0) (hstarted : ∀ x ∈ H, x.Started) :
    Returns (validateUncles s.getBlockByHash block) := by
  unfold validateUncles
  split
  · exact returns_ok ()
  · refine returns_bind ?_ fun r hwalk => returns_checkUncleSlots (fun k b hb => ?_) _ _
    · -- the first step of the walk leaves the block for its parent, whose height the bound counts
      rw [uncleAncestors]
      split
      · cases hp : s.blocks[block.getPrevHash]? with
        | none =>
          rw [BlockStore.getBlockByHash, hp]
          exact fun h => by cases h
        | some p =>
          rw [BlockStore.getBlockByHash_eq_ok.mpr hp]
          refine BlockStore.returns_uncleAncestors hinj hr hs hzero (hs.keyed _ _ hp ▸ hp) ?_
          show p.getHeight < block.getHeight + p.getHeight + 1
          omega
      · exact returns_ok _
    · have hstored := areStored_uncleAncestors (s := s) (fun k b hb => by simp at hb) hwalk k b hb
      rcases hstored.2 with ⟨hash, hbody⟩
      exact hstarted _ (hs.headers hash b hbody)

end Rules

/-! ## §4 — a block is always answered -/

section Answer

variable [Engine] {cfg : Config} {H : Set BlockHeader} {n n' : Node State} {block tip : FullBlock}

open BlockStore (Sound Tallied Ranked)

theorem BlockHeader.Started.returns_isGenesis (h : block.header.Started) : Returns block.isGenesis := by
  rcases h with ⟨genesisTime, htime, _⟩
  refine returns_bind (fun hpanic => ?_) fun _ _ => returns_pure _
  -- a network that has a genesis time has a genesis block
  have hknown : block.header.network = ZERONET ∨ block.header.network = TESTNET := by
    unfold getGenesisTimestamp at htime
    split at htime
    · next h => exact .inl h
    · split at htime
      · next h => exact .inr h
      · cases htime
  unfold getGenesisBlock getGenesisGenerateTx getGenesisGenerateTxSignature getGenesisBlockNonce at hpanic
  rw [htime, if_pos hknown.symm, if_pos hknown] at hpanic
  cases hpanic

theorem started_of_genesisHeaders {x : BlockHeader} (h : x ∈ genesisHeaders) : x.Started := by
  rcases h with ⟨network, genesis, hgenesis, rfl⟩
  rcases bind_eq_ok.mp hgenesis with ⟨tx, _, hgenesis⟩
  rcases bind_eq_ok.mp hgenesis with ⟨timestamp, htime, hgenesis⟩
  rcases bind_eq_ok.mp hgenesis with ⟨nonce, _, hgenesis⟩
  obtain rfl := pure_eq_ok.mp hgenesis
  exact ⟨timestamp, htime, le_rfl⟩

theorem returns_ledger_upgrade (b : FullBlock) (s : State) : Returns ((ledger cfg).upgrade b s) := by
  refine returns_bind ((returns_upgrade cfg b).exec s) fun r _ => ?_
  exact returns_bind (returns_ensure (by decide)) fun _ _ => returns_pure _

theorem returns_applyBlocks {blocks : List FullBlock} (h : ∀ b ∈ blocks, b.header.Started) (s : State) :
    Returns ((ledger cfg).applyBlocks blocks s) := by
  refine returns_foldlM (fun s b hb => ?_) s
  refine returns_bind (h b hb).returns_isGenesis fun genesis _ => ?_
  cases genesis with
  | true => exact returns_ledger_upgrade b s
  | false => exact returns_bind (returns_checkBlockTxs s.view b) fun _ _ => returns_ledger_upgrade b s

omit [Engine] in
theorem BlockStore.returns_getBlockByHash (s : BlockStore) (hash : Bytes) : Returns (s.getBlockByHash hash) := by
  unfold BlockStore.getBlockByHash
  split
  · exact returns_ok _
  · exact fun h => by cases h

omit [Engine] in
theorem BlockStore.returns_getBlockByHeight (s : BlockStore) (height : Nat) :
    Returns (s.getBlockByHeight height) := by
  unfold BlockStore.getBlockByHeight
  split
  · exact s.returns_getBlockByHash _
  · exact fun h => by cases h

theorem BlockStore.returns_switchToBranch (s : BlockStore) (branch : List FullBlock) :
    Returns (s.switchToBranch branch) := by
  unfold BlockStore.switchToBranch
  split
  · exact fun h => by cases h
  · refine returns_ensure_bind (by decide) fun _ => returns_ensure_bind (by decide) fun _ => ?_
    refine returns_bind (returns_foldlM (fun s k _ => ?_) s) fun _ _ => returns_pure _
    exact returns_bind (s.returns_getBlockByHeight k) fun _ _ => returns_pure _

namespace Node

/-- **A switch always returns** when its blocks and the stored ones are dated. -/
theorem returns_switchToBranchTxn {branch : List FullBlock} (hne : branch ≠ [])
    (hbranch : ∀ b ∈ branch, b.header.Started)
    (hstored : ∀ (hash : Bytes) (b : FullBlock), n.store.blocks[hash]? = some b → b.header.Started) :
    Returns (switchToBranchTxn (ledger cfg) branch n) := by
  cases branch with
  | nil => exact absurd rfl hne
  | cons first rest =>
    refine returns_bind (n.store.returns_switchToBranch _) fun store hswitch => ?_
    refine returns_bind ?_ fun _ _ => returns_pure _
    unfold switchState
    split
    · exact returns_applyBlocks hbranch _
    · refine returns_bind (returns_mapM fun k _ => store.returns_getBlockByHeight k) fun blocks hblocks => ?_
      refine returns_applyBlocks (fun b hb => ?_) _
      rcases mem_of_mapM hblocks b hb with ⟨k, _, hread⟩
      rcases BlockStore.getBlockByHeight_eq_ok.mp hread with ⟨hash, _, hbody⟩
      rcases (BlockStore.switchToBranch_frame hswitch).2.2 hash b hbody with hmem | hold
      · exact hbranch b hmem
      · exact hstored hash b hold

/-- **`NextHeight`** — a block on the tip claims the next height. -/
def NextHeight (n : Node State) (block : FullBlock) : Prop :=
  block.getPrevHash = n.store.latestHash → block.getHeight = n.store.latestHeight + 1

section Distinct

variable {now : Nat} {origin : BlockHeader} (hinj : Set.InjOn BlockHeader.getHash H) (hs : Sound H n.store tip)
  (ht : Tallied H origin n.store) (hzero : origin.height = 0) (hr : Ranked H n.store)
  (hstarted : ∀ x ∈ H, x.Started) (hpow : ∀ x : BlockHeader, x.powValue ≠ 0) (hb : block.header ∈ H)
  (hdiv : block.Divides)
include hinj hs ht hzero hr hstarted hpow hb hdiv

/-- **The tip path returns.** -/
theorem returns_extendTip (hprev : block.getPrevHash = n.store.latestHash) :
    Returns (extendTip (ledger cfg) now block n) := by
  have horigin : n.store.originHeight = 0 := (originHeight_eq hinj ht hs).trans hzero
  have htip := hstarted _ (hs.headers _ _ hs.tipBody)
  refine returns_bind ?_ fun _ _ => ?_
  · refine returns_bind (hstarted _ hb).returns_isGenesis fun genesis _ => ?_
    cases genesis with
    | true => exact returns_ok ()
    | false =>
      refine returns_bind (hdiv.returns_checkError now) fun _ _ => ?_
      have hrest : Returns (do
          validateUncles n.store.getBlockByHash block
          (ledger cfg).checkBlockTxs block n.state) :=
        returns_bind (returns_validateUncles hinj hr hs.toSpine horigin hstarted) fun _ _ =>
          returns_checkBlockTxs _ block
      dsimp only
      split
      · refine returns_bind (n.store.returns_getBlockByHash _) fun p hp => ?_
        have hheader := hs.headers _ _ (BlockStore.getBlockByHash_eq_ok.mp hp)
        exact returns_bind (returns_checkBlockTarget (hpow _) (hstarted _ hheader)) fun _ _ => hrest
      · exact hrest
  · refine returns_bind ?_ fun store hput => ?_
    · refine returns_bind ?_ fun _ _ => returns_pure _
      exact returns_ensure_bind (by decide) fun _ => returns_ensure (by decide)
    · rcases hs.putNewBlock hinj hb hprev hput with ⟨hfollows, hsound⟩
      rcases putNewBlock_blocks hput with ⟨hkept, hblocks⟩
      have hranked : Ranked H store := by
        refine hr.restore hkept fun hash b hbody => ?_
        rcases hblocks hash b hbody with rfl | hold
        · exact .inr (BlockStore.stands_of_follows (hs.headers _ _ hs.tipBody) hfollows)
        · exact .inl hold
      refine returns_bind ?_ fun r _ => ?_
      · exact BlockStore.returns_cumulativeWork hinj hranked hsound.toSpine hsound.tipBody
      · exact returns_bind (returns_ledger_upgrade block n.state) fun _ _ => returns_pure _

omit hstarted hpow hdiv hzero hr in
theorem Weighed.not_beats {prev tip' : FullBlock} {blockWork tipWork : Nat} {store : BlockStore}
    (hw : Weighed now block n.store prev blockWork tip' tipWork store) (hcanonical : store.isCanonical block = true) :
    ¬ BlockStore.Beats blockWork block.getHash tipWork tip'.getHash := by
  rcases hw.tallied hinj ht hs hb with ⟨ht', hblock, htip, _⟩
  rcases hw.sound hinj hs hb with ⟨_, hsound, _, _, hbody⟩
  have hindex : store.heights[block.getHeight]? = some block.getHash.val := of_decide_eq_true hcanonical
  rcases lt_trichotomy block.getHeight tip'.getHeight with hlt | heq | hgt
  · have hlighter := canonical_lighter hinj ht' hsound hcanonical hbody (decide_eq_true hsound.top) hsound.tipBody hlt
      le_rfl hblock htip
    rintro (h | ⟨h, _⟩) <;> omega
  · -- at the height of the tip the canonical block is the tip
    rw [heq, hsound.top] at hindex
    have hhash : block.getHash = tip'.getHash := Subtype.ext (Option.some_injective _ hindex).symm
    have hheader : block.header = tip'.header := hinj hb (hsound.headers _ _ hsound.tipBody) hhash
    rw [hheader] at hblock
    have hwork := hblock.unique (BlockHeader.injOn_key hinj) htip
    have hself : compare tip'.getHash tip'.getHash = .eq := Std.ReflCmp.compare_self
    rintro (h | ⟨_, h⟩)
    · omega
    · rw [hhash, hself] at h
      cases h
  · rw [hsound.above _ hgt] at hindex
    cases hindex

/-- **The side path returns.** -/
theorem returns_importSide : Returns (importSide (ledger cfg) now block n) := by
  have horigin : n.store.originHeight = 0 := (originHeight_eq hinj ht hs).trans hzero
  refine returns_bind ?_ fun prev hparent => ?_
  · unfold sideParent
    split
    · exact returns_ok _
    · exact fun h => by cases h
  have hparent := sideParent_eq_ok.mp hparent
  have hprev := hs.headers _ _ hparent
  refine returns_bind ?_ fun _ hcheck => ?_
  · refine returns_bind (hdiv.returns_checkError now) fun _ _ => returns_ensure_bind (by decide) fun _ => ?_
    refine returns_bind (returns_checkBlockTarget (hpow _) (hstarted _ hprev)) fun _ _ => ?_
    exact returns_validateUncles hinj hr hs.toSpine horigin hstarted
  rcases bind_eq_ok.mp hcheck with ⟨_, _, hcheck'⟩
  rcases bind_eq_ok.mp hcheck' with ⟨_, hfollows, _⟩
  have hfollows := ensure_eq_ok.mp hfollows
  have habove : n.store.originHeight < block.getHeight := by
    have := hfollows.1
    omega
  -- the store with the side block, and what memoizing makes of it
  rcases hs.putSideBlock hinj hb habove with ⟨top, _, hsound⟩
  have hside : (n.store.putSideBlock block).blocks[block.getHash.val]? = some block := by
    show (n.store.blocks.insert block.getHash.val block)[block.getHash.val]? = some block
    rw [Bucket.get_insert, if_pos rfl]
  have hranked : Ranked H (n.store.putSideBlock block) := by
    refine hr.restore rfl fun hash b hbody => ?_
    change (n.store.blocks.insert block.getHash.val block)[hash]? = some b at hbody
    rw [Bucket.get_insert] at hbody
    split at hbody
    · cases hbody
      exact .inr (BlockStore.stands_of_follows hprev hfollows)
    · exact .inl hbody
  refine returns_bind (BlockStore.returns_cumulativeWork hinj hranked hsound.toSpine hside) fun r hwork => ?_
  rcases r with ⟨blockWork, store⟩
  have hre := BlockStore.cumulativeWork_reindexed hwork
  have hsound' := hsound.reindexed hre
  refine returns_bind (store.returns_getBlockByHash _) fun tip' htip => ?_
  obtain rfl := hsound'.getLatestBlock htip
  have hranked' := hranked.reindexed hre
  refine returns_bind (BlockStore.returns_cumulativeWork hinj hranked' hsound'.toSpine hsound'.tipBody) fun r hwork' => ?_
  rcases r with ⟨tipWork, store'⟩
  have hw : Weighed now block n.store prev blockWork tip' tipWork store' :=
    ⟨hparent, hcheck, store, hwork, htip, hwork'⟩
  have hre' := BlockStore.cumulativeWork_reindexed hwork'
  have hranked'' := hranked'.reindexed hre'
  rcases hw.sound hinj hs hb with ⟨_, hsound'', _, _, hbody⟩
  have hdated : ∀ (hash : Bytes) (b : FullBlock), store'.blocks[hash]? = some b → b.header.Started :=
    fun hash b h => hstarted _ (hsound''.headers hash b h)
  dsimp only
  split
  · next hbeats =>
    refine returns_bind (BlockStore.returns_collectBranch hinj hranked'' hsound''.toSpine hbody) fun branch hbranch => ?_
    split
    · exact absurd hbeats (hw.not_beats hinj hs ht hb (BlockStore.isCanonical_of_collectBranch hbranch))
    · next first rest =>
      refine returns_ensure_bind (by decide) fun _ => returns_switchToBranchTxn (List.cons_ne_nil _ _) ?_ hdated
      intro b hmem
      rcases (BlockStore.collectBranch_mem hbranch ⟨_, hbody⟩ b hmem).1 with ⟨hash, hstored⟩
      exact hdated hash b hstored
  · exact returns_pure _

end Distinct

/-- **The evaluations** are placed: a stored parent, and the height above it. -/
theorem only_tracedApply {now : Nat} (hs : Sound H n.store tip) (hnext : n.NextHeight block) :
    (tracedApply (ledger cfg) now block n).Only (Evaluation.Placed n.store) := by
  have huncles : ∀ u, block.checkError now = .ok u → ∀ u ∈ block.uncles, u.height ≠ 0 := fun _ h =>
    FullBlock.height_ne_zero_of_checkUncles (FullBlock.checkError_eq_ok.mp h).uncles
  unfold tracedApply
  split
  · next hprev =>
    have habove : block.getHeight = tip.getHeight + 1 := (hnext hprev).trans (congrArg (· + 1) hs.latestHeight)
    refine only_bind ?_ fun _ _ => only_lift _
    refine only_bind (only_lift _) fun genesis _ => ?_
    cases genesis with
    | true => exact only_lift _
    | false =>
      refine only_bind (only_lift _) fun u hcheck => ?_
      have hrest : Traced.Only (Evaluation.Placed n.store) (do
          tracedUncles n.store.getBlockByHash block
          .call ⟨block.getHeight, none⟩ ((ledger cfg).checkBlockTxs block n.state)) :=
        only_bind (only_tracedUncles (huncles u hcheck)) fun _ _ => only_call ⟨_, tip, hs.tipBody, habove, nofun⟩ _
      dsimp only
      split
      · refine only_bind (only_lift _) fun p hp => ?_
        have hbody := BlockStore.getBlockByHash_eq_ok.mp hp
        refine only_bind (only_tracedTarget hbody ?_) fun _ _ => hrest
        -- the parent is the tip
        rw [hprev, hs.latestHash, hs.tipBody] at hbody
        cases hbody
        exact habove
      · exact hrest
  · refine only_bind (only_lift _) fun prev hparent => only_bind ?_ fun _ _ => only_lift _
    refine only_bind (only_lift _) fun u hcheck => only_bind (only_lift _) fun _ hfollows => ?_
    refine only_bind (only_tracedTarget (sideParent_eq_ok.mp hparent) (ensure_eq_ok.mp hfollows).1) fun _ _ => ?_
    exact only_tracedUncles (huncles u hcheck)

/-- **No block stops the node.** On every chain of dated headers, a block that declares difficulties and, on the tip, the
next height, is answered: the gossip validator returns, `ApplyBlock` returns, and every evaluation of `GetNextDiff` and
of the rewards of the mints on the way is at a height one above a stored block, for `GetNextDiff` its parent, dated from
genesis on. -/
theorem applyBlock_robust (hpow : ∀ x : BlockHeader, x.powValue ≠ 0)
    (hinj : Set.InjOn BlockHeader.getHash (genesisHeaders ∪ H)) (hstarted : ∀ x ∈ H, x.Started)
    (hr : Node.Reachable cfg H n) (now : Nat) (hb : block.header ∈ H) (hdiv : block.Divides)
    (hnext : n.NextHeight block) :
    (∀ (decode : Bytes → Option FullBlock) (network : Network) (data : Bytes), decode data = some block →
      Returns (validateBlockMsg decode network now data)) ∧
    (tracedApply (ledger cfg) now block n).outcome = n.applyBlock (ledger cfg) now block ∧
    Returns (n.applyBlock (ledger cfg) now block) ∧
    ∀ c ∈ (tracedApply (ledger cfg) now block n).calls,
      ∃ (hash : Bytes) (b : FullBlock), n.store.blocks[hash]? = some b ∧ b.header.Started ∧
        c.height = b.getHeight + 1 ∧ ∀ parent, c.parent = some parent → parent = b.header := by
  rcases hr.ranked hinj with ⟨tip, origin, hs, ht, hzero, hranked⟩
  have hdated : ∀ x ∈ genesisHeaders ∪ H, x.Started := by
    rintro x (hx | hx)
    · exact started_of_genesisHeaders hx
    · exact hstarted x hx
  refine ⟨fun decode network data hdecode => returns_validateBlockMsg hdecode hdiv network now,
    outcome_tracedApply _ _ _ _, ?_, fun c hc => ?_⟩
  · unfold applyBlock
    split
    · next hprev => exact returns_extendTip hinj hs ht hzero hranked hdated hpow (.inr hb) hdiv hprev
    · exact returns_importSide hinj hs ht hzero hranked hdated hpow (.inr hb) hdiv
  · rcases only_tracedApply hs hnext c hc with ⟨hash, b, hbody, hplaced⟩
    exact ⟨hash, b, hbody, hdated _ (hs.headers hash b hbody), hplaced⟩

end Node
end Answer

/-! ## §5 — by hand -/

/-- An ordinary first block on a fresh node. -/
theorem Node.applyBlock_robust_handSeal :
    letI := Engine.bare
    Returns ((handNode false).applyBlock (ledger ⟨ZERONET, false⟩) handNow (handSeal handGenesis 1 [] [])) := by
  let _ := Engine.bare
  have hinj : Set.InjOn BlockHeader.getHash
      (genesisHeaders ∪ {x | x ∈ [(handSeal handGenesis 1 [] []).header]}) :=
    injOn_byHand _ (by decide +kernel)
  refine (Node.applyBlock_robust (fun x => ?_) hinj (fun x hx => ?_) (.genesis (genesis_byHand _ false)) handNow
    (List.mem_singleton_self _) ⟨fun _ => by decide +kernel, nofun⟩ fun _ => by decide +kernel).2.2.1
  · show beVal (List.replicate 31 0 ++ [1]) ≠ 0
    decide
  · obtain rfl := List.mem_singleton.mp hx
    exact ⟨_, rfl, by decide +kernel⟩

/-- A test for a panic. -/
def panics {α : Type} : Except Err α → Bool
  | .error .panic => true
  | _ => false

theorem eq_of_panics {α : Type} {x : Except Err α} (h : panics x = true) : x = .error .panic := by
  unfold panics at h
  split at h
  · rfl
  · cases h

section Blocks

variable [Crypto]

/-- A first block that declares difficulty zero. -/
def handZero : FullBlock :=
  let block := handSeal handGenesis 1 [] []
  { block with header := { block.header with difficulty := [] } }

/-- A second block that claims height three hundred thousand. -/
def handFar : FullBlock :=
  let block := handSeal (handSeal handGenesis 1 [] []) 1 [] []
  { block with header := { block.header with height := 300000 } }

/-- A first block that claims the greatest height. -/
def handEndless : FullBlock :=
  let block := handSeal handGenesis 1 [] []
  { block with header := { block.header with height := 2 ^ 64 - 1 } }

/-- A first block dated before genesis. -/
def handEarly : FullBlock :=
  let block := handSeal handGenesis 1 [] []
  { block with header := { block.header with timestamp := 1 } }

end Blocks

/-- **One block stops the node.** With a proof-of-work hash that is never zero: a block of difficulty zero makes the
gossip validator and `ApplyBlock` panic; a block on the tip has `GetNextDiff` and, as a child of the origin,
`GetBlockReward` evaluated at whatever height it claims; and a first block dated before genesis is accepted, after which any second block panics. -/
theorem Node.applyBlock_panics_handZero :
    letI := Engine.bare
    (∀ x : BlockHeader, x.powValue ≠ 0) ∧
    validateBlockMsg (fun _ => some handZero) ZERONET handNow handZero.raw = .error .panic ∧
    (handNode false).applyBlock (ledger ⟨ZERONET, false⟩) handNow handZero = .error .panic ∧
    (∃ n, Node.Reachable ⟨ZERONET, false⟩ {x | x ∈ [(handSeal handGenesis 1 [] []).header]} n ∧
      ∃ c ∈ (tracedApply (ledger ⟨ZERONET, false⟩) handNow handFar n).calls,
        c.height = 300000 ∧ c.parent.map BlockHeader.height = some 1) ∧
    (∃ c ∈ (tracedApply (ledger ⟨ZERONET, false⟩) handNow handEndless (handNode false)).calls,
      c.height = 2 ^ 64 - 1 ∧ c.parent = none) ∧
    ∃ n, Node.Reachable ⟨ZERONET, false⟩ {x | x ∈ [handEarly.header]} n ∧
      n.applyBlock (ledger ⟨ZERONET, false⟩) handNow (handSeal handEarly 1 [] []) = .error .panic := by
  let _ := Engine.bare
  have hagrees := handLedger_agrees (fun _ => none) ⟨ZERONET, false⟩
  have hpanics : ∀ (b : FullBlock) (n : Node State), n.state.Committed →
      panics (n.applyBlock (handLedger ⟨ZERONET, false⟩) handNow b) = true →
      n.applyBlock (ledger ⟨ZERONET, false⟩) handNow b = .error .panic := by
    intro b n hs h
    rw [(hagrees.applyBlock handNow b hs).1]
    exact eq_of_panics h
  -- what the checks of the tip path write down
  have hchecked : ∀ (b : FullBlock) (n : Node State) (p : Evaluation → Bool), b.getPrevHash = n.store.latestHash →
      ((tracedCheck (handLedger ⟨ZERONET, false⟩) handNow b n).calls.any p) = true →
      ∃ c ∈ (tracedApply (ledger ⟨ZERONET, false⟩) handNow b n).calls, p c = true := by
    intro b n p hprev hcalls
    rcases List.any_eq_true.mp hcalls with ⟨c, hc, hplace⟩
    refine ⟨c, ?_, hplace⟩
    unfold tracedApply
    rw [if_pos hprev]
    refine Traced.mem_calls_bind ?_ _
    unfold tracedCheck
    rw [hagrees.isGenesis]
    exact hc
  refine ⟨fun x => ?_, eq_of_panics (by decide +kernel), ?_, ?_, ?_, ?_⟩
  · show beVal (List.replicate 31 0 ++ [1]) ≠ 0
    decide
  · exact hpanics _ _ (committed_handNode _ false) (by decide +kernel)
  · rcases exists_reachable_byHand (fun _ => none) false [handSeal handGenesis 1 [] []] []
      (fun n => handFar.getPrevHash = n.store.latestHash ∧
        ((tracedCheck (handLedger ⟨ZERONET, false⟩) handNow handFar n).calls.any
          fun c => c.height = 300000 ∧ c.parent.map BlockHeader.height = some 1) = true) (by decide +kernel) with
      ⟨n, hr, _, htest⟩
    rcases of_decide_eq_true htest with ⟨hprev, hcalls⟩
    rcases hchecked _ n _ hprev hcalls with ⟨c, hc, hplace⟩
    exact ⟨n, hr, c, hc, of_decide_eq_true hplace⟩
  · have hcalls : handEndless.getPrevHash = (handNode false).store.latestHash ∧
        ((tracedCheck (handLedger ⟨ZERONET, false⟩) handNow handEndless (handNode false)).calls.any
          fun c => c.height = 2 ^ 64 - 1 ∧ c.parent = none) = true := by decide +kernel
    rcases hchecked _ _ _ hcalls.1 hcalls.2 with ⟨c, hc, hplace⟩
    exact ⟨c, hc, of_decide_eq_true hplace⟩
  · rcases exists_reachable_byHand (fun _ => none) false [handEarly] []
      (fun n => panics (n.applyBlock (handLedger ⟨ZERONET, false⟩) handNow (handSeal handEarly 1 [] [])))
      (by decide +kernel) with ⟨n, hr, hs, htest⟩
    exact ⟨n, hr, hpanics _ n hs htest⟩

end NgCore
