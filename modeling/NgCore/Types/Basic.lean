/-
# NgCore.Types.Basic — byte strings, addresses, errors, primitives and consensus constants

The data every layer of the node shares: byte strings, the fixed 32-byte words (hashes, addresses),
the sentinel errors, the consensus constants of `ngtypes/defaults.go`, and the cryptographic
primitives the node calls but does not implement (BLAKE3, the astrobwt pow hash, the signature
schemes). The primitives are a CLASS of arbitrary functions: nothing below assumes more about them
than a statement says. "Hashing is injective" is never assumed globally (no function into 32 bytes
is): statements ask for no collision on the preimages they are about.
-/
import NgCore.Lib.Bucket
import NgCore.Lib.Rlp

namespace NgCore

/-! ## §1 — bytes -/

abbrev Bytes := List UInt8

/-- **`Bytes32`** — the fixed 32-byte word (`[32]byte`): a hash or an address. -/
abbrev Bytes32 := {b : Bytes // b.length = 32}

@[simp] theorem length_val (b : Bytes32) : b.val.length = 32 := b.property

/-- **`Address`** — the hash of the owner's public key. -/
abbrev Address := Bytes32

-- the laws of bytes, of words and of the keys built from them, once
instance instLawfulBEqBytes : LawfulBEq Bytes := inferInstance

instance instLawfulBEqBytes32 : LawfulBEq Bytes32 := inferInstance

instance instTransOrdBeaconKey : Std.TransOrd Unit := inferInstance

instance instTransOrdBytes32 : Std.TransOrd Bytes32 := inferInstance

instance instTransOrdHeightKey : Std.TransOrd (Nat × Bytes32) := inferInstance

instance instTransOrdHistoryKey : Std.TransOrd (Address × Nat × Bytes32) := inferInstance

/-- The all-zero word. -/
def zero32 : Bytes32 := ⟨List.replicate 32 0, by simp⟩

/-- **`copy32`** — Go's `copy` into a zeroed 32-byte array: longer inputs are cut, shorter ones are
padded with zeros. -/
def copy32 (b : Bytes) : Bytes32 :=
  ⟨b.take 32 ++ List.replicate (32 - b.length) 0, by simp; omega⟩

theorem copy32_of_length (b : Bytes) (h : b.length = 32) : copy32 b = ⟨b, h⟩ := by
  apply Subtype.ext
  simp [copy32, h, List.take_of_length_le h.le]

@[simp] theorem copy32_val (b : Bytes32) : copy32 b.val = b := copy32_of_length b.val b.property

/-- **`packUint64LE`** — eight little-endian bytes. -/
def packUint64LE (n : Nat) : Bytes :=
  (List.range 8).map fun i => UInt8.ofNat (n / 256 ^ i % 256)

/-- **`bitsOf`** — the bits of a byte string, most significant first. -/
def bitsOf (b : Bytes) : List Bool :=
  b.flatMap fun x => (List.range 8).map fun i => x.toNat.testBit (7 - i)

theorem length_bitsOf (b : Bytes) : (bitsOf b).length = 8 * b.length := by
  induction b with
  | nil => rfl
  | cons x b ih =>
    rw [bitsOf, List.flatMap_cons, List.length_append, ← bitsOf, ih]
    simp
    omega

theorem byteBits_inj (x y : UInt8)
    (h : (List.range 8).map (fun i => x.toNat.testBit (7 - i))
      = (List.range 8).map fun i => y.toNat.testBit (7 - i)) : x = y := by
  refine UInt8.toNat_inj.mp (Nat.eq_of_testBit_eq fun j => ?_)
  by_cases hj : j < 8
  · have hi := List.map_inj_left.mp h (7 - j) (by simp; omega)
    rwa [show 7 - (7 - j) = j by omega] at hi
  · have hx : x.toNat < 2 ^ j := lt_of_lt_of_le x.toNat_lt (Nat.pow_le_pow_right (by omega) (by omega))
    have hy : y.toNat < 2 ^ j := lt_of_lt_of_le y.toNat_lt (Nat.pow_le_pow_right (by omega) (by omega))
    rw [Nat.testBit_lt_two_pow hx, Nat.testBit_lt_two_pow hy]

theorem bitsOf_inj {b d : Bytes} (h : bitsOf b = bitsOf d) : b = d := by
  induction b generalizing d with
  | nil =>
    have hlen := congrArg List.length h
    rw [length_bitsOf, length_bitsOf] at hlen
    exact (List.length_eq_zero_iff.mp (by simpa using hlen.symm)).symm
  | cons x b ih =>
    cases d with
    | nil =>
      have hlen := congrArg List.length h
      rw [length_bitsOf, length_bitsOf] at hlen
      simp at hlen
    | cons y d =>
      obtain ⟨hxy, hrest⟩ := List.append_inj h (by simp)
      rw [byteBits_inj x y hxy, ih hrest]

/-! ## §2 — networks and errors -/

/-- **`Network`** — the network id byte; three ids are named. -/
abbrev Network := UInt8

def ZERONET : Network := 0
def TESTNET : Network := 1
def MAINNET : Network := 2

/-- **`Err`** — the sentinel errors of the node (the wrapped message text is not modelled); `panic`
stands for a Go panic, after which the process serves nothing. -/
inductive Err where
  | panic
  -- ngtypes/tx_error.go, ngtypes/tx_extra.go, ngtypes/reward_curve.go
  | txSignInvalid | txUnsigned | txTypeInvalid | txToInvalid | txValueInvalid | txFeeInvalid
  | txFeeBelowBaseFee | txExtraExcess | commitExtraInvalid | rewardInvalid
  -- ngtypes/commitment.go
  | commitHashInvalid | commitHeightInvalid | commitUnsigned | commitSignInvalid
  -- ngtypes/block.go
  | blockPrevHashInvalid | blockTxTrieHashInvalid | blockWitnessRootInvalid | blockTxsExcess
  | blockBytesExcess | blockTimestampInvalid | blockDuplicateTx | blockDuplicateCommit
  | blockCommitsExcess | blockUnclesInvalid | blockStateRootInvalid | blockBaseFeeInvalid
  | blockDiffInvalid | invalidNonce | blockNoGen | blockOnlyOneGen | txExtraInvalid
  -- storage, ngblocks
  | keyNotFound | blockHeightConflict | prevBlockNotExist | branchEmpty | branchDisconnected
  | branchDetached
  -- ngstate
  | sourceTooLarge | immutable | txNotCommitted | commitUnaffordable | commitDuplicate | saltTooShort
  | nothingToDestroy | txUnauthorized | txrBalanceInsufficient | depNotActive | depSelf | depLimit
  | contractRefdBy | depInvalidImport | invalidWasm
  -- blockchain
  | reorgBelowOrigin | reorgBeyondFinality | uncleInvalid | branchNotHeavier | blockTimeNotMonotonic
  | sheetMismatch
  -- ngpool
  | txInvalidHeight | poolFull | txFeeTooLow | txFeeBelowFloor | notEffectTx
  deriving DecidableEq, Repr

/-- `ensure c e` fails with `e` unless `c` holds. -/
def ensure (c : Prop) [Decidable c] (e : Err) : Except Err Unit :=
  if c then .ok () else .error e

@[simp] theorem ensure_eq_ok {c : Prop} [Decidable c] {e : Err} {u : Unit} :
    ensure c e = .ok u ↔ c := by
  unfold ensure
  split <;> simp_all

@[simp] theorem bind_eq_ok {α β : Type} {x : Except Err α} {f : α → Except Err β} {b : β} :
    (x >>= f) = .ok b ↔ ∃ a, x = .ok a ∧ f a = .ok b := by
  cases x <;> simp [bind, Except.bind]

@[simp] theorem pure_eq_ok {α : Type} {a b : α} : (pure a : Except Err α) = .ok b ↔ a = b := by
  simp [pure, Except.pure]

theorem forM_eq_ok {α : Type} {f : α → Except Err Unit} {l : List α} {u : Unit} :
    l.forM f = .ok u ↔ ∀ a ∈ l, f a = .ok () := by
  induction l with
  | nil => simp [List.forM]
  | cons a l ih =>
    rw [List.forM, bind_eq_ok, List.forall_mem_cons, ← ih]
    exact ⟨fun ⟨_, h, hl⟩ => ⟨h, hl⟩, fun ⟨h, hl⟩ => ⟨(), h, hl⟩⟩

/-! ## §3 — the primitives the node calls -/

/-- **`Crypto`** — hash, pow hash and signature verification, as arbitrary functions. `recoverCompact`
is ECDSA public key recovery: the compressed key and whether the signature asks for it compressed. -/
class Crypto where
  hash256 : Bytes → Bytes32
  powHash : Bytes → Bytes32
  recoverCompact : (sig hash : Bytes) → Option (Bytes × Bool)
  fndsaVerify : (pubKey hash sig : Bytes) → Bool
  mldsaVerify : (pubKey hash sig : Bytes) → Bool
  slhdsaVerify : (pubKey hash sig : Bytes) → Bool

export Crypto (hash256 powHash)

/-- **`Crypto.ofHash`** — concrete primitives around a given hash, for building chains by hand: every
nonce wins (the pow hash is one), and a recoverable signature is the key followed by the signed digest. -/
@[reducible] def Crypto.ofHash (hash : Bytes → Bytes32) : Crypto where
  hash256 := hash
  powHash _ := ⟨List.replicate 31 0 ++ [1], by simp⟩
  recoverCompact sig hash := if sig.drop 33 = hash then some (sig.take 33, true) else none
  fndsaVerify _ _ _ := false
  mldsaVerify _ _ _ := false
  slhdsaVerify _ _ _ := false

/-- No two of these preimages share a digest. -/
def CollisionFree [Crypto] (preimages : Set Bytes) : Prop := Set.InjOn hash256 preimages

/-! ## §4 — consensus constants (`ngtypes/defaults.go`) -/

def hashSize : Nat := 32
def addressSize : Nat := 32
def diffSize : Nat := 32
def nonceSize : Nat := 8
def minimumDifficulty : Nat := 200 * 2 ^ 4
/-- The target block time, in milliseconds. -/
def targetTime : Nat := 4000
def blockCheckRound : Nat := 10
def maxUncles : Nat := 2
def uncleMaxDepth : Nat := 30
/-- Milliseconds a block timestamp may run ahead of the local clock. -/
def timestampDriftTolerance : Nat := 15000
def maxBlockTxCount : Nat := 512
def maxBlockBytes : Nat := 2 ^ 23
def maxBlockGas : Nat := 2 ^ 27
def maxContractSourceSize : Nat := 256 * 2 ^ 10
def commitWindow : Nat := 3
def maxBlockCommitCount : Nat := maxBlockTxCount
def minSaltSize : Nat := 16
def txMaxExtraSize : Nat := 2 ^ 20
def maxTarget : Nat := 2 ^ 256 - 1
/-- Raw units per coin. -/
def NG : Nat := 10 ^ 18

/-- The all-zero genesis (and burn) address. -/
def genesisAddress : Address := zero32

/-- The all-`0x01` address holding every locked storage deposit. -/
def storageDepositEscrow : Address := ⟨List.replicate 32 1, by simp⟩

/-- Bond locked per stored byte of contract storage. -/
def depositPerByte : Nat := 10 ^ 12

/-- Per-byte floor of the base fee. -/
def minBaseFee : Nat := 10 ^ 10

def getGenesisGenerateTxSignature (network : Network) : Except Err Bytes :=
  if network = TESTNET ∨ network = ZERONET then .ok (List.replicate 64 0) else .error .panic

def getGenesisBlockNonce (network : Network) : Except Err Bytes :=
  if network = ZERONET ∨ network = TESTNET then .ok (List.replicate 8 0) else .error .panic

/-- Genesis time in unix milliseconds. -/
def getGenesisTimestamp (network : Network) : Except Err Nat :=
  if network = ZERONET then .ok 1603497600000
  else if network = TESTNET then .ok 1605093071000
  else .error .panic

end NgCore
