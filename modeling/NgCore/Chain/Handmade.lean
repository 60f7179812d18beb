/-
# NgCore.Chain.Handmade — chains built by hand

A concrete chain carries a state root in every header, and evaluating one takes 256 levels of hashing. Under
the hand-made hash every root is all-zero (`State.stateRoot_byHand`), so `handLedger` compares with the
all-zero word instead, and with a genesis block whose root is written out. It agrees with the node's ledger
on every state with a committed node set (`handLedger_agrees`), and so does everything the chain does with it
(`Agrees.applyBlock`): a run is evaluated with the one and holds of the other.
-/
import NgCore.State.Handmade
import NgCore.Chain.Node

namespace NgCore

open Lib (Bucket)

/-! ## §1 — ledgers that agree -/

namespace Ledger

variable {S : Type} {I : S → Prop} {L L' : Ledger S}

/-- **`Agrees I L L'`** — the ledgers differ at most in how they apply a block, and not on states in `I`,
which every operation stays in. -/
structure Agrees (I : S → Prop) (L L' : Ledger S) : Prop where
  archive : L.archive = L'.archive
  isGenesis : L.isGenesis = L'.isGenesis
  checkBlockTxs : L.checkBlockTxs = L'.checkBlockTxs
  unwindTo : L.unwindTo = L'.unwindTo
  reset : L.reset = L'.reset
  upgrade : ∀ b s, I s → L.upgrade b s = L'.upgrade b s
  upgraded : ∀ b s s', I s → L.upgrade b s = .ok s' → I s'
  unwound : ∀ tip target s s', I s → L.unwindTo tip target s = some s' → I s'
  seeded : ∀ s, I (L.reset s)

namespace Agrees

theorem applyChecked (h : Agrees I L L') (b : FullBlock) {s : S} (hs : I s) :
    L.applyChecked b s = L'.applyChecked b s ∧ ∀ s', L.applyChecked b s = .ok s' → I s' := by
  unfold Ledger.applyChecked
  rw [h.isGenesis, h.checkBlockTxs, h.upgrade b s hs]
  refine ⟨rfl, fun s' hok => ?_⟩
  obtain ⟨genesis, _, hok⟩ := bind_eq_ok.mp hok
  cases genesis with
  | true =>
    rw [if_neg (by simp)] at hok
    exact h.upgraded b s s' hs ((h.upgrade b s hs).trans hok)
  | false =>
    rw [if_pos rfl] at hok
    obtain ⟨_, _, hok⟩ := bind_eq_ok.mp hok
    exact h.upgraded b s s' hs ((h.upgrade b s hs).trans hok)

theorem applyBlocks (h : Agrees I L L') (blocks : List FullBlock) {s : S} (hs : I s) :
    L.applyBlocks blocks s = L'.applyBlocks blocks s ∧ ∀ s', L.applyBlocks blocks s = .ok s' → I s' := by
  unfold Ledger.applyBlocks
  induction blocks generalizing s with
  | nil =>
    refine ⟨rfl, fun s' hok => ?_⟩
    obtain rfl := pure_eq_ok.mp hok
    exact hs
  | cons b blocks ih =>
    obtain ⟨heq, hkeep⟩ := h.applyChecked b hs
    rw [List.foldlM_cons, List.foldlM_cons, ← heq]
    cases hb : L.applyChecked b s with
    | error e => exact ⟨rfl, fun _ hok => by cases hok⟩
    | ok t => exact ih (hkeep t hb)

variable [Crypto]

theorem switchToBranchTxn (h : Agrees I L L') (branch : List FullBlock) {n : Node S} (hs : I n.state) :
    Node.switchToBranchTxn L branch n = Node.switchToBranchTxn L' branch n ∧
      ∀ n', Node.switchToBranchTxn L branch n = .ok n' → I n'.state := by
  have hstate : ∀ (tip target : Nat) (store : BlockStore),
      Node.switchState L branch tip target store n.state =
        Node.switchState L' branch tip target store n.state ∧
      ∀ s', Node.switchState L branch tip target store n.state = .ok s' → I s' := by
    intro tip target store
    unfold Node.switchState
    rw [← h.unwindTo]
    cases hunwind : L.unwindTo tip target n.state with
    | some s => exact h.applyBlocks branch (h.unwound _ _ _ _ hs hunwind)
    | none =>
      dsimp only
      cases store.canonicalBlocks with
      | error e => exact ⟨rfl, fun _ hok => by cases hok⟩
      | ok blocks =>
        have := h.applyBlocks blocks (h.seeded n.state)
        unfold Ledger.rebuildFromBlocks
        rw [← h.reset]
        exact this
  cases branch with
  | nil => exact ⟨rfl, fun _ hok => by cases hok⟩
  | cons first rest =>
    have hmaintain : L.maintain (rest.getLastD first) = L'.maintain (rest.getLastD first) := by
      funext s
      unfold Ledger.maintain
      rw [h.archive]
    refine ⟨?_, fun n' hok => ?_⟩
    · simp only [Node.switchToBranchTxn, (hstate _ _ _).1, hmaintain]
    · obtain ⟨_, _, store, _, _, _, hok⟩ := Node.switchToBranchTxn_eq_ok hok
      exact (hstate _ _ store).2 _ hok

theorem extendTip (h : Agrees I L L') (now : Nat) (b : FullBlock) {n : Node S} (hs : I n.state) :
    Node.extendTip L now b n = Node.extendTip L' now b n ∧
      ∀ n', Node.extendTip L now b n = .ok n' → I n'.state := by
  have hcheck : Node.checkBlockTxn L now b n = Node.checkBlockTxn L' now b n := by
    unfold Node.checkBlockTxn
    rw [h.isGenesis, h.checkBlockTxs]
  have hmaintain : L.maintain b = L'.maintain b := by
    funext s
    unfold Ledger.maintain
    rw [h.archive]
  refine ⟨?_, fun n' hok => ?_⟩
  · unfold Node.extendTip
    rw [hcheck, h.upgrade b n.state hs, hmaintain]
  · obtain ⟨_, _, _, _, _, _, hup, _⟩ := Node.extendTip_eq_ok hok
    exact h.upgraded b _ _ hs hup

/-- **Agreeing ledgers make one chain.** -/
theorem applyBlock (h : Agrees I L L') (now : Nat) (b : FullBlock) {n : Node S} (hs : I n.state) :
    n.applyBlock L now b = n.applyBlock L' now b ∧ ∀ n', n.applyBlock L now b = .ok n' → I n'.state := by
  unfold Node.applyBlock
  split
  · exact h.extendTip now b hs
  · refine ⟨?_, fun n' hok => ?_⟩
    · have hswitch : ∀ (branch : List FullBlock) (store : BlockStore),
          Node.switchToBranchTxn L branch ⟨store, n.state⟩ =
            Node.switchToBranchTxn L' branch ⟨store, n.state⟩ :=
        fun branch store => (h.switchToBranchTxn branch (n := ⟨store, n.state⟩) hs).1
      simp only [Node.importSide, hswitch]
    · obtain ⟨_, _, _, _, store, _, hcase⟩ := Node.importSide_eq_ok hok
      rcases hcase with ⟨_, rfl⟩ | ⟨_, first, rest, _, _, hswitch⟩
      · exact hs
      · exact (h.switchToBranchTxn (first :: rest) (n := ⟨store, n.state⟩) hs).2 n' hswitch

theorem switchToBranch (h : Agrees I L L') (now : Nat) (branch : List FullBlock) {n : Node S} (hs : I n.state) :
    n.switchToBranch L now branch = n.switchToBranch L' now branch ∧
      ∀ n', n.switchToBranch L now branch = .ok n' → I n'.state := by
  refine ⟨?_, fun n' hok => ?_⟩
  · have hswitch : ∀ store : BlockStore, Node.switchToBranchTxn L branch ⟨store, n.state⟩ =
        Node.switchToBranchTxn L' branch ⟨store, n.state⟩ :=
      fun store => (h.switchToBranchTxn branch (n := ⟨store, n.state⟩) hs).1
    cases branch with
    | nil => rfl
    | cons first rest => simp only [Node.switchToBranch, hswitch]
  · obtain ⟨_, _, _, _, _, _, _, store, rfl, _, _, _, _, _, _, hswitch⟩ := Node.switchToBranch_eq_ok hok
    exact (h.switchToBranchTxn _ (n := ⟨store, n.state⟩) hs).2 n' hswitch

end Agrees
end Ledger

/-! ## §2 — the hand-made ledger -/

namespace State

variable [Crypto]

theorem Committed.mirror {s : State} {K V : Type} (h : s.Committed) (leaf : K → LeafKey)
    (bytes : Option V → Bytes) (l : List (K × Option V)) : (mirror leaf bytes l s).Committed := by
  unfold State.mirror
  induction l generalizing s with
  | nil => exact h
  | cons e l ih =>
    rw [List.foldl_cons]
    exact ih (h.trieSetLeaf _ _)

theorem Committed.restoreConsumed {s : State} (h : s.Committed) (height : Nat) :
    (s.restoreConsumedAtHeight height).Committed := by
  unfold State.restoreConsumedAtHeight
  induction (s.spent.toList.filter fun e => e.1.1 = height) generalizing s with
  | nil => exact h
  | cons e l ih =>
    rw [List.foldl_cons]
    apply ih
    exact Committed.trieSetLeaf h _ _

theorem Committed.unwindHeight {s : State} (h : s.Committed) (height : Nat) :
    (s.unwindHeight height).Committed := by
  -- each reverted domain is mirrored into the commitment
  have hbal : ∀ t : State, t.Committed → (t.revertBalances height).Committed := by
    intro t ht
    unfold State.revertBalances
    apply Committed.mirror
    exact ht
  have hcontract : ∀ t : State, t.Committed → (t.revertContracts height).Committed := by
    intro t ht
    unfold State.revertContracts
    apply Committed.mirror
    exact ht
  have hkey : ∀ t : State, t.Committed → (t.revertKeys height).Committed := by
    intro t ht
    unfold State.revertKeys
    apply Committed.mirror
    exact ht
  have hbeacon : ∀ t : State, t.Committed → (t.revertBeacon height).Committed := by
    intro t ht
    unfold State.revertBeacon
    apply Committed.mirror
    exact ht
  have hdrop : ∀ t : State, t.Committed → (t.dropApplied height).Committed := fun _ ht => ht
  unfold State.unwindHeight
  apply hdrop
  apply hbeacon
  apply Committed.restoreConsumed
  apply Committed.dropCommits
  apply hkey
  apply hcontract
  apply hbal
  exact h

theorem Committed.unwindHeights {s : State} (h : s.Committed) (target depth : Nat) :
    (unwindHeights target depth s).Committed := by
  induction depth generalizing s with
  | zero => exact h
  | succ depth ih => exact ih (h.unwindHeight _)

theorem committed_rebuildTrie (s : State) : s.rebuildTrie.Committed := by
  rw [rebuildTrie_eq]
  exact Committed.setLeaves (show State.Committed { s with trie := ∅ } from committed_empty) _

end State

/-- The genesis block of a network, its state root spelled as given. -/
def genesisOf [Crypto] (root : Bytes) (network : Network) : Except Err FullBlock := do
  let g ← getGenesisBlock network
  return { g with header := { g.header with stateRoot := root } }

theorem getGenesisBlock_eq [Crypto] (network : Network) :
    getGenesisBlock network = genesisOf genesisStateRoot.val network := by
  unfold genesisOf getGenesisBlock
  cases getGenesisGenerateTx network with
  | error e => rfl
  | ok tx =>
    cases getGenesisTimestamp network with
    | error e => rfl
    | ok timestamp => cases getGenesisBlockNonce network <;> rfl

/-- The genesis block of a network, with the state root it has under the hand-made hash. -/
def handGenesisOf [Crypto] : Network → Except Err FullBlock := genesisOf zero32.val

theorem getGenesisBlock_byHand (modules : Bytes → Option Module) :
    letI := Engine.byHand modules
    ∀ network, getGenesisBlock network = handGenesisOf network := by
  let _ := Engine.byHand modules
  intro network
  have hroot : genesisStateRoot = zero32 := by
    obtain ⟨left, right, hroot⟩ := (Statetrie.Commits.empty.update
      (Statetrie.leafPath .balance genesisAddress.val)
      (Statetrie.valueHash (Lib.Rlp.beBytes (getBlockReward 0)))).root
    rw [genesisStateRoot, hroot]
    exact if_pos ⟨rfl, by simp⟩
  rw [getGenesisBlock_eq, hroot]
  rfl

/-- **`handLedger`** — the node's ledger with every state root read as all-zero. -/
def handLedger [Engine] (cfg : Config) : Ledger State :=
  { ledger cfg with
    isGenesis := fun block => do
      let genesis ← handGenesisOf block.header.network
      return block.getHash = genesis.getHash
    upgrade := fun block s => do
      let (_, s) ← (upgrade cfg block).exec s
      ensure (zero32.val = block.header.stateRoot) .blockStateRootInvalid
      return s }

/-- **Under the hand-made hash the two ledgers agree.** -/
theorem handLedger_agrees (modules : Bytes → Option Module) (cfg : Config) :
    letI := Engine.byHand modules
    Ledger.Agrees State.Committed (ledger cfg) (handLedger cfg) := by
  let _ := Engine.byHand modules
  refine ⟨rfl, ?_, rfl, rfl, rfl, ?_, ?_, ?_, ?_⟩
  · funext block
    show block.isGenesis = _
    unfold FullBlock.isGenesis
    rw [getGenesisBlock_byHand]
    rfl
  · intro b s hs
    show ((upgrade cfg b).exec s >>= _) = ((upgrade cfg b).exec s >>= _)
    cases hrun : (upgrade cfg b).exec s with
    | error e => rfl
    | ok r =>
      obtain ⟨_, t⟩ := r
      have hroot : t.stateRoot = zero32 := State.stateRoot_byHand modules t (hs.exec hrun)
      show (t.checkStateRoot _ >>= _) = (ensure _ _ >>= _)
      unfold State.checkStateRoot
      rw [hroot]
  · intro b s s' hs hok
    exact hs.exec (ledger_upgrade_eq_ok hok).1
  · intro tip target s s' hs hok
    change State.unwindTo cfg tip target s = some s' at hok
    unfold State.unwindTo at hok
    split at hok
    · cases hok
    · split at hok
      · cases hok
        exact hs
      · split at hok
        · cases hok
        · cases hok
          exact hs.unwindHeights _ _
  · exact fun s => State.committed_rebuildTrie _

/-- The genesis test of the hand-made ledger, with ONE genesis block for every block of the zero network. -/
def swiftGenesis [Engine] (block : FullBlock) : Except Err Bool :=
  if block.header.network = ZERONET then
    Except.ok (decide (block.getHash = handGenesis.getHash))
  else do
    let genesis ← handGenesisOf block.header.network
    return block.getHash = genesis.getHash

/-- **`swiftLedger`** — the hand-made ledger for long runs: the hash of the genesis block is computed once. -/
def swiftLedger [Engine] (cfg : Config) : Ledger State := { handLedger cfg with isGenesis := swiftGenesis }

theorem handLedger_eq_swift [Engine] (cfg : Config) : handLedger cfg = swiftLedger cfg := by
  have hsame : (handLedger cfg).isGenesis = swiftGenesis := by
    funext block
    unfold swiftGenesis
    split
    · next hzero =>
      show (handGenesisOf block.header.network >>= _) = _
      rw [hzero]
      rfl
    · rfl
  unfold swiftLedger
  rw [← hsame]

/-! ## §3 — runs by hand -/

section Blocks

variable [Crypto]

/-- A chain of `k` blocks by one miner on top of `parent`. -/
def handChain (miner : UInt8) : (k : Nat) → (parent : FullBlock) → List FullBlock
  | 0, _ => []
  | k + 1, parent =>
    let block := handSeal parent miner [] []
    block :: handChain miner k block

/-- The headers of the genesis blocks there are. -/
def genesisHeadersOf (genesis : Network → Except Err FullBlock) : List BlockHeader :=
  [ZERONET, TESTNET].filterMap fun network =>
    match genesis network with
    | .ok g => some g.header
    | .error _ => none

theorem injOn_genesisHeadersOf {genesis : Network → Except Err FullBlock}
    (hgenesis : ∀ network, getGenesisBlock network = genesis network) {l : List BlockHeader}
    (hnodup : ((genesisHeadersOf genesis ++ l).map BlockHeader.getHash).Nodup) :
    Set.InjOn BlockHeader.getHash (genesisHeaders ∪ {x | x ∈ l}) := by
  have hmem : ∀ x ∈ genesisHeaders ∪ {x | x ∈ l}, x ∈ genesisHeadersOf genesis ++ l := by
    rintro x (⟨network, g, hg, rfl⟩ | hx)
    · -- only two networks have a genesis block
      have hnetwork : network = ZERONET ∨ network = TESTNET := by
        by_contra hother
        obtain ⟨tx, _, hg⟩ := bind_eq_ok.mp hg
        obtain ⟨timestamp, _, hg⟩ := bind_eq_ok.mp hg
        obtain ⟨nonce, hnonce, _⟩ := bind_eq_ok.mp hg
        unfold getGenesisBlockNonce at hnonce
        rw [if_neg hother] at hnonce
        cases hnonce
      refine List.mem_append_left _ (List.mem_filterMap.mpr ⟨network, ?_, ?_⟩)
      · rcases hnetwork with rfl | rfl <;> simp
      · rw [← hgenesis, hg]
    · exact List.mem_append_right _ hx
  intro x hx y hy hxy
  exact List.inj_on_of_nodup_map hnodup (hmem x hx) (hmem y hy) hxy

/-- The genesis headers, by hand. -/
def handGenesisHeaders : List BlockHeader := genesisHeadersOf handGenesisOf

end Blocks

section Runs

variable [Engine]

/-- A fresh node of the zero network. -/
def handNode (archive : Bool) : Node State :=
  ⟨BlockStore.initWithGenesis handGenesis, State.genesis archive⟩

/-- The clock of hand-made runs. -/
def handNow : Nat := 1700000000000

/-- Blocks applied one after the other, none refused. -/
def handRun (cfg : Config) (blocks : List FullBlock) (n : Node State) : Except Err (Node State) :=
  blocks.foldlM (fun n b => n.applyBlock (handLedger cfg) handNow b) n

end Runs

section ByHand

variable (modules : Bytes → Option Module)

theorem genesis_byHand (archive : Bool) :
    letI := Engine.byHand modules
    Node.genesis ⟨ZERONET, archive⟩ = .ok (handNode archive) := by
  let _ := Engine.byHand modules
  have hgenesis : getGenesisBlock ZERONET = .ok handGenesis :=
    (getGenesisBlock_byHand modules ZERONET).trans rfl
  unfold Node.genesis
  rw [hgenesis, State.genesis_eq archive]
  rfl

theorem committed_handNode (archive : Bool) :
    letI := Engine.byHand modules
    (handNode archive).state.Committed := by
  let _ := Engine.byHand modules
  obtain ⟨g, hg⟩ : ∃ g, getGenesisBlock ZERONET = .ok g := ⟨_, rfl⟩
  have heq := State.genesis_eq archive
  rw [@State.initStateFromGenesis_eq _ ⟨ZERONET, archive⟩ g hg] at heq
  show (State.genesis archive).Committed
  rw [← Except.ok.inj heq]
  exact State.committed_empty.trieSetLeaf _ _

theorem injOn_byHand {l : List BlockHeader} :
    letI := Engine.byHand modules
    ((handGenesisHeaders ++ l).map BlockHeader.getHash).Nodup →
      Set.InjOn BlockHeader.getHash (genesisHeaders ∪ {x | x ∈ l}) := by
  let _ := Engine.byHand modules
  exact injOn_genesisHeadersOf (getGenesisBlock_byHand modules)

theorem injOn_apart {l : List BlockHeader} :
    letI := Engine.byHand modules
    Bucket.apart ((handGenesisHeaders ++ l).map BlockHeader.getHash) ∅ = true →
      Set.InjOn BlockHeader.getHash (genesisHeaders ∪ {x | x ∈ l}) := by
  let _ := Engine.byHand modules
  exact fun h => injOn_byHand modules (Bucket.nodup_of_apart h).1

/-- A run of the hand-made ledger from genesis whose end passes a test, as a run of the node that may go on
with `more` blocks. -/
theorem exists_reachable_byHand (archive : Bool) (l more : List FullBlock) (test : Node State → Bool) :
    letI := Engine.byHand modules
    okAnd (handRun ⟨ZERONET, archive⟩ l (handNode archive)) test = true →
      ∃ n, Node.Reachable ⟨ZERONET, archive⟩ {x | x ∈ (l ++ more).map FullBlock.header} n ∧
        n.state.Committed ∧ test n = true := by
  let _ := Engine.byHand modules
  intro h
  have hend := exists_of_foldlM (P := fun n : Node State =>
    Node.Reachable ⟨ZERONET, archive⟩ {x | x ∈ (l ++ more).map FullBlock.header} n ∧ n.state.Committed)
    (fun b hb n n' hn hok => ?_) ⟨.genesis (genesis_byHand modules archive), committed_handNode modules archive⟩ h
  · obtain ⟨n, ⟨hr, hs⟩, htest⟩ := hend
    exact ⟨n, hr, hs, htest⟩
  · obtain ⟨heq, hkeep⟩ := (handLedger_agrees modules ⟨ZERONET, archive⟩).applyBlock handNow b hn.2
    have hok := heq.trans hok
    have hr := hn.1.applyBlock handNow b (List.mem_map_of_mem (List.mem_append_left more hb))
    rw [hok] at hr
    exact ⟨hr, hkeep n' hok⟩

end ByHand

section Chains

variable [Crypto]

/-- A block `gap` after its parent, of a given difficulty. -/
def handTimed (parent : FullBlock) (miner : UInt8) (gap difficulty : Nat) : FullBlock :=
  let block := handSeal parent miner [] []
  { block with header := { block.header with
      timestamp := parent.header.timestamp + gap, difficulty := Lib.Rlp.beBytes difficulty } }

/-- The difficulty of the slot `gap` after a block. -/
def handDifficulty (parent : FullBlock) (gap : Nat) : Nat :=
  match getNextDiff (parent.getHeight + 1) (parent.header.timestamp + gap) parent.header with
  | .ok d => d
  | .error _ => 0

/-- A chain of `k` blocks at an even pace, at the difficulties of their slots. -/
def handPaced (miner : UInt8) (gap : Nat) : (k : Nat) → (parent : FullBlock) → List FullBlock
  | 0, _ => []
  | k + 1, parent =>
    let block := handTimed parent miner gap (handDifficulty parent gap)
    block :: handPaced miner gap k block

end Chains

/-- A call that fails with a given error. -/
def failsWith {α : Type} (e : Err) : Except Err α → Bool
  | .ok _ => false
  | .error e' => decide (e' = e)

theorem eq_of_failsWith {α : Type} {e : Err} {x : Except Err α} (h : failsWith e x = true) : x = .error e := by
  cases x with
  | ok a => cases h
  | error e' => rw [of_decide_eq_true h]

end NgCore
