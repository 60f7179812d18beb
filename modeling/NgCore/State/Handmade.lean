/-
# NgCore.State.Handmade — states built by hand

What concrete runs are made with. The hand-made hash sends every INTERNAL node of the state commitment to
the all-zero word, so that a header can carry the state root of its block without 256 levels of hashing;
every other string is folded into a word. With it, `stateRoot_byHand`: the root of every state that
keeps a committed node set is all-zero. The rest of a run is evaluated.
-/
import NgCore.State.LockStep

namespace NgCore

/-! ## §1 — the hand-made engine -/

/-- A string folded into a word. -/
def foldHash (b : Bytes) : Bytes32 :=
  copy32 (packUint64LE (b.foldl (fun n x => (n * 257 + x.toNat + 1) % 2 ^ 61) 7))

/-- Internal nodes of the commitment are all-zero, other strings a fold. -/
def handHash (b : Bytes) : Bytes32 := if b.head? = some 1 ∧ b.length = 65 then zero32 else foldHash b

/-- The hand-made engine over a table of modules. -/
@[reducible] def Engine.byHand (modules : Bytes → Option Module) : Engine := .ofHash handHash modules

/-- The one without modules. -/
@[reducible] def Engine.bare : Engine := .byHand fun _ => none

/-- The state a successful run leaves. -/
def State.after : Except Err (Unit × State) → State
  | .ok (_, s) => s
  | .error _ => .empty

theorem State.eq_after {x : Except Err (Unit × State)} (h : x.isOk = true) :
    x = .ok ((), State.after x) := by
  cases x with
  | error e => cases h
  | ok r => rfl

/-- A call that succeeds, with a test of its result. -/
def okAnd {α : Type} (x : Except Err α) (test : α → Bool) : Bool :=
  match x with
  | .ok a => test a
  | .error _ => false

theorem exists_of_okAnd {α : Type} {x : Except Err α} {test : α → Bool} (h : okAnd x test = true) :
    ∃ a, x = .ok a ∧ test a = true := by
  cases x with
  | error e => cases h
  | ok a => exact ⟨a, rfl, h⟩

/-- What every step of a run keeps holds where a run that passes a test ends. -/
theorem exists_of_foldlM {α β : Type} {f : α → β → Except Err α} {P : α → Prop} {test : α → Bool} {l : List β} {a : α}
    (hstep : ∀ b ∈ l, ∀ a a', P a → f a b = .ok a' → P a') (ha : P a) (h : okAnd (l.foldlM f a) test = true) :
    ∃ a', P a' ∧ test a' = true := by
  obtain ⟨a', hrun, htest⟩ := exists_of_okAnd h
  refine ⟨a', ?_, htest⟩
  induction l generalizing a with
  | nil => exact pure_eq_ok.mp hrun ▸ ha
  | cons b l ih =>
    obtain ⟨t, hb, hrun⟩ := bind_eq_ok.mp hrun
    refine ih (fun c hc => hstep c (List.mem_cons_of_mem b hc)) (hstep b List.mem_cons_self a t ha hb) ?_ hrun
    rw [hrun]
    exact htest

/-- No two leaves on the trail share a path. -/
def leavesApart [Crypto] (l : List Note) : Bool :=
  l.all fun n => l.all fun n' =>
    match n, n' with
    | .leaf k, .leaf k' => decide (k.path = k'.path → k = k')
    | _, _ => true

theorem State.injOn_touched [Crypto] {s : State} (h : leavesApart s.log = true) :
    Set.InjOn LeafKey.path s.touched := by
  intro k hk k' hk' hpath
  unfold leavesApart at h
  have hall := List.all_eq_true.mp (List.all_eq_true.mp h (.leaf k) hk) (.leaf k') hk'
  exact of_decide_eq_true hall hpath

/-- The genesis state of the zero network. -/
def State.genesis [Engine] (archive : Bool) : State :=
  match State.initStateFromGenesis ⟨ZERONET, archive⟩ with
  | .ok s => s
  | .error _ => .empty

theorem State.genesis_eq [Engine] (archive : Bool) :
    State.initStateFromGenesis ⟨ZERONET, archive⟩ = .ok (State.genesis archive) := by
  obtain ⟨g, hg⟩ : ∃ g, getGenesisBlock ZERONET = .ok g := ⟨_, rfl⟩
  unfold State.genesis
  rw [@State.initStateFromGenesis_eq _ ⟨ZERONET, archive⟩ g hg]

/-- An unsigned mint. -/
def handMint (height : Nat) (toAddr : Address) (value : Nat) : FullTx :=
  ⟨ZERONET, generateTx, height, toAddr, value, 0, [], some [], none⟩

/-- A block around transactions and commitments, its header not filled in. -/
def handBlock (height : Nat) (txs : List FullTx) (commits : List Commitment) : FullBlock where
  header := ⟨ZERONET, height, 0, [], [], [], [1], zero32.val, zero32.val, zero32.val, [],
    List.replicate 8 0⟩
  txs := txs
  uncles := []
  commits? := some commits

section Sealed

variable [Crypto]

/-- The keys of hand-made chains, by number. -/
def handKey (i : UInt8) : Bytes := List.replicate 33 i

def handAddr (i : UInt8) : Address := addressOfPubKey schemeSecp256k1 (handKey i)

/-- The recoverable envelope of a digest under a hand-made key. -/
def handEnvelope (i : UInt8) (hash : Bytes32) : Bytes :=
  envelopeRecover :: schemeSecp256k1 :: (handKey i ++ hash.val)

def handSign (i : UInt8) (tx : FullTx) : FullTx := { tx with sign? := some (handEnvelope i tx.signingHash) }

/-- Signed under the full envelope, which reveals the key. -/
def handSignFull (i : UInt8) (tx : FullTx) : FullTx :=
  { tx with sign? := some (envelopeFull :: schemeSecp256k1 :: (handKey i ++ (handKey i ++ tx.signingHash.val))) }

/-- The signed commitment to a transaction. -/
def handCommit (i : UInt8) (height fee : Nat) (tx : FullTx) : Commitment :=
  let c : Commitment := ⟨ZERONET, height, (revealHash tx).val, fee, none⟩
  { c with sign? := some (handEnvelope i c.signingHash) }

/-- The miner's own mint. -/
def handReward (i : UInt8) (height : Nat) : FullTx :=
  handSign i (handMint height (handAddr i) (getBlockReward height))

/-- A deploy of raw code, ready to be committed to and revealed at `height`. -/
def handDeploy (i : UInt8) (height : Nat) (code : Bytes) : FullTx :=
  handSign i ⟨ZERONET, deployTx, height, zero32, 0, 10 ^ 13, 0 :: code, none, some (List.replicate 16 i)⟩

/-- A payment, likewise. -/
def handPay (i : UInt8) (height : Nat) (toAddr : Address) (value : Nat) : FullTx :=
  handSign i ⟨ZERONET, transactTx, height, toAddr, value, 10 ^ 13, [], none, some (List.replicate 16 i)⟩

/-- The genesis block, with the state root it has under the hand-made hash. -/
def handGenesis : FullBlock :=
  match getGenesisBlock ZERONET with
  | .ok g => { g with header := { g.header with stateRoot := zero32.val } }
  | .error _ => handBlock 0 [] []

/-- A block on top of `parent`, its header filled in; the state root is all-zero. -/
def handSeal (parent : FullBlock) (miner : UInt8) (txs : List FullTx) (commits : List Commitment) :
    FullBlock where
  header := {
    network := ZERONET
    height := parent.getHeight + 1
    timestamp := parent.header.timestamp + 4000
    prevBlockHash := parent.getHash.val
    txTrieHash := (calcContentRoot (handReward miner (parent.getHeight + 1) :: txs) commits).val
    witnessRoot := (calcWitnessRoot (handReward miner (parent.getHeight + 1) :: txs) commits).val
    difficulty := parent.header.difficulty
    coinbase := (handAddr miner).val
    unclesHash := zero32.val
    stateRoot := zero32.val
    baseFee := Lib.Rlp.beBytes (nextBaseFee ZERONET parent.getHeight
      (Lib.Rlp.beVal parent.header.baseFee) (blockUsedBytes parent))
    nonce := List.replicate 8 0 }
  txs := handReward miner (parent.getHeight + 1) :: txs
  uncles := []
  commits? := some commits

end Sealed

/-! ## §2 — the node set is always committed -/

namespace State

variable [Crypto]

/-- The stored node set is the one of some leaves. -/
def Committed (s : State) : Prop := ∃ vh, Statetrie.Commits s.trie vh

theorem Committed.setLeaf {s : State} (h : s.Committed) (k : LeafKey) (vh : Bytes32) :
    (s.setLeaf k vh).Committed := by
  obtain ⟨f, hf⟩ := h
  exact ⟨_, hf.update k.path vh⟩

theorem Committed.trieSetLeaf {s : State} (h : s.Committed) (k : LeafKey) (value : Bytes) :
    (s.trieSetLeaf k value).Committed := h.setLeaf k _

theorem Committed.setLeaves {s : State} (h : s.Committed) (l : List (LeafKey × Bytes32)) :
    (s.setLeaves l).Committed := by
  induction l generalizing s with
  | nil => exact h
  | cons e l ih =>
    rw [setLeaves_cons]
    exact ih (h.setLeaf e.1 e.2)

theorem Committed.dropCommits {s : State} (h : s.Committed) (p : Nat → Bool) :
    (s.dropCommits p).Committed := by
  unfold State.dropCommits
  induction s.commit.toList.filter _ generalizing s with
  | nil => exact h
  | cons e l ih =>
    rw [List.foldl_cons]
    apply ih
    exact Committed.trieSetLeaf h _ _

theorem committed_empty : State.empty.Committed := ⟨_, Statetrie.Commits.empty⟩

end State

theorem Write.committed_step [Crypto] (w : Write) {s : State} (h : s.Committed) :
    (w.step s).Committed := by
  cases w with
  | setContract rec account =>
    obtain ⟨code, hcode⟩ := State.reconcileCode_eq rec account s
    show (s.setContract rec account).Committed
    unfold State.setContract
    simp only [hcode]
    exact State.Committed.trieSetLeaf h _ _
  | delContract rec a =>
    obtain ⟨code, hcode⟩ := State.releaseSlot_eq rec a s
    show (s.delContract rec a).Committed
    unfold State.delContract
    simp only [hcode]
    exact State.Committed.trieSetLeaf h _ _
  | registerPubKey rec a scheme pubKey =>
    show (s.registerPubKey rec a (scheme :: pubKey)).Committed
    unfold State.registerPubKey
    split
    · exact h
    · exact State.Committed.trieSetLeaf h _ _
  | pruneCommits tip =>
    show (s.pruneCommits tip).Committed
    unfold State.pruneCommits
    split
    · exact h
    · exact h.dropCommits _
  | setBalance rec a v => exact State.Committed.trieSetLeaf h _ _
  | setBeacon rec seed => exact State.Committed.trieSetLeaf h _ _
  | putCommit height hash fromAddr => exact State.Committed.trieSetLeaf h _ _
  | consumeCommit height hash => exact State.Committed.trieSetLeaf h _ _
  | journalConsumed | notes | apply => exact h

namespace State

theorem Committed.exec [Crypto] {α : Type} {p : StateTxn α} {s s' : State} {a : α} (h : s.Committed)
    (hrun : p.exec s = .ok (a, s')) : s'.Committed :=
  Lib.Txn.run_preserves (I := Committed) (fun _ _ => trivial) (fun w _ _ ht => w.committed_step ht)
    p.writes_any hrun h

/-- **With the hand-made hash every state root is all-zero.** -/
theorem stateRoot_byHand (modules : Bytes → Option Module) :
    letI := Engine.byHand modules
    ∀ s : State, s.Committed → s.stateRoot = zero32 := by
  let _ := Engine.byHand modules
  rintro s ⟨vh, hcommits⟩
  obtain ⟨left, right, hroot⟩ := hcommits.root
  show Statetrie.root s.trie = zero32
  rw [hroot]
  refine if_pos ⟨rfl, ?_⟩
  simp

end State
end NgCore
