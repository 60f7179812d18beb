/-
# NgCore.State.Check — the tx-level rules of a block

`ngstate/state_check.go`: what every import path checks of a block's transactions against the state
BEFORE the block is applied. All of it reads the view and writes nothing.

Mints are matched to uncles as a multiset over the CONCATENATION of a recipient and a decimal amount;
the source relies on the recipient's 32 bytes to keep that unambiguous.
-/
import NgCore.State.Handle

namespace NgCore

/-! ## §1 — the mints -/

/-- **`decimal`** — `big.Int.String`. -/
def decimal (n : Nat) : Bytes := (Nat.toDigits 10 n).map fun c => UInt8.ofNat c.toNat

section Checks

variable [Engine] (v : View)

/-- The loop of `checkBlockGenerates` that tells the one signed mint from the uncle rewards. -/
def splitGenerates : (primary : Option FullTx) → (uncleGens : List FullTx) → List FullTx →
    Except Err (Option FullTx × List FullTx)
  | primary, uncleGens, [] => .ok (primary, uncleGens)
  | primary, uncleGens, tx :: txs =>
    if tx.type ≠ generateTx then splitGenerates primary uncleGens txs
    else if tx.isSigned then do
      ensure (primary = none) .rewardInvalid
      splitGenerates (some tx) uncleGens txs
    else splitGenerates primary (uncleGens ++ [tx]) txs

/-- What the block owes for an uncle: recipient, then amount. -/
def uncleKey (height : Nat) (u : BlockHeader) : Bytes :=
  u.coinbase ++ decimal (uncleReward u.height height)

/-- Match the unsigned mints against what is owed, each entry once. -/
def matchUncleGens (height : Nat) : (want : List Bytes) → List FullTx → Except Err Unit
  | _, [] => .ok ()
  | want, g :: gens => do
    ensure (g.fee = 0) .txFeeInvalid
    ensure (g.height = height) .rewardInvalid
    ensure (g.toAddr.val ++ decimal g.value ∈ want) .rewardInvalid
    matchUncleGens height (want.erase (g.toAddr.val ++ decimal g.value)) gens

/-- **`checkBlockGenerates`** — one signed mint to the coinbase, and one unsigned mint per uncle. -/
def checkBlockGenerates (block : FullBlock) : Except Err Unit := do
  let (primary, uncleGens) ← splitGenerates none [] block.txs
  match primary with
  | none => .error .rewardInvalid
  | some primary => do
    ensure (primary.toAddr.val = block.header.coinbase) .rewardInvalid
    primary.checkGenerate block.getHeight (some v.keyResolver)
    ensure (uncleGens.length = block.uncles.length) .rewardInvalid
    matchUncleGens block.getHeight (block.uncles.map (uncleKey block.getHeight)) uncleGens

/-! ## §2 — effect transactions -/

/-- **`checkReveal`** — an unrevealed, in-window commitment of the sender opens to this transaction.
Height zero is exempt. -/
def checkReveal (tx : FullTx) : Except Err Unit :=
  if tx.height = 0 then .ok ()
  else do
    ensure (tx.salt ≠ []) .txNotCommitted
    ensure (minSaltSize ≤ tx.salt.length) .saltTooShort
    let fromAddr ← tx.fromAddr
    ensure (v.findCommit fromAddr (revealHash tx) tx.height).isSome .txNotCommitted

/-- **`fromWithBalance`** — the sender, who can afford the expense. -/
def fromWithBalance (tx : FullTx) (expense : Nat) : Except Err Address := do
  let fromAddr ← tx.fromAddr
  ensure (expense ≤ v.bal fromAddr) .txrBalanceInsufficient
  return fromAddr

def checkTransaction (tx : FullTx) : Except Err Unit := do
  tx.checkTransaction (some v.keyResolver)
  let _ ← fromWithBalance v tx tx.totalExpenditure

/-- **`checkDeploy`** — a dry run of the deploy; a live slot must also export the `upgrade` hook. -/
def checkDeploy (tx : FullTx) : Except Err Unit := do
  tx.checkDeploy (some v.keyResolver)
  let fromAddr ← fromWithBalance v tx tx.totalExpenditure
  let newSource ← decodeCommitCode Engine.inflate tx.extra
  ensure (newSource.length ≤ maxContractSourceSize) .sourceTooLarge
  let live := (v.contract fromAddr).filter Contract.isLive
  if newSource = [] then
    match live with
    | none => .error .nothingToDestroy
    | some slot => do
      ensure (contractHasExport slot.source entryOnUpgrade = true) .immutable
      ensure (slot.getRefCount = 0) .contractRefdBy
  else do
    ensure (loadContractWasm newSource).isSome .invalidWasm
    let _ ← validateDeps v fromAddr newSource
    match live with
    | none => .ok ()
    | some slot => ensure (contractHasExport slot.source entryOnUpgrade = true) .immutable

/-- **`checkTx`** — the rules of one transaction; mints are checked as a set instead. -/
def checkTx (tx : FullTx) : Except Err Unit := do
  ensure (tx.isSigned = true) .txSignInvalid
  ensure (tx.extra.length ≤ txMaxExtraSize) .txExtraExcess
  if tx.type = transactTx then do
    checkReveal v tx
    checkTransaction v tx
  else if tx.type = deployTx then do
    checkReveal v tx
    checkDeploy v tx
  else .error .txTypeInvalid

/-- **`checkRevealExceptCommitment`** — the rules of a reveal whose commitment need not be on chain yet. -/
def checkRevealExceptCommitment (tx : FullTx) : Except Err Unit := do
  ensure (tx.isSigned = true) .txSignInvalid
  ensure (tx.extra.length ≤ txMaxExtraSize) .txExtraExcess
  if tx.type = transactTx then checkTransaction v tx
  else if tx.type = deployTx then checkDeploy v tx
  else .error .txTypeInvalid

/-- **`checkTxBaseFee`** — the burn-only base fee per wire byte. -/
def checkTxBaseFee (block : FullBlock) (tx : FullTx) : Except Err Unit :=
  if isForkActive block.header.network .forkFeeMarket block.getHeight = false then .ok ()
  else ensure (Lib.Rlp.beVal block.header.baseFee * tx.raw.length ≤ tx.fee) .txFeeBelowBaseFee

/-- **`checkBlockTxs`** — the gate of every path that applies a block. -/
def checkBlockTxs (block : FullBlock) : Except Err Unit := do
  checkBlockGenerates v block
  block.txs.forM fun tx =>
    if tx.type = generateTx then .ok ()
    else do
      ensure (tx.isSigned = true) .txUnsigned
      ensure (tx.extra.length ≤ txMaxExtraSize) .txExtraExcess
      checkTx v tx
      checkTxBaseFee block tx

end Checks

/-! ## §3 — commitments outside a block -/

/-- **`checkCommitment`** — what the pool asks of a commitment for the block at `height`. -/
def checkCommitment [Crypto] (v : View) (commit : Commitment) (height : Nat) : Except Err Unit := do
  commit.checkError height (some v.keyResolver)
  let fromAddr ← commit.fromAddr
  ensure (v.commitFromPending fromAddr (copy32 commit.hash) height = false) .commitDuplicate
  ensure (commit.fee ≤ v.bal fromAddr) .commitUnaffordable

/-- **`commitOnChain`** — the relay's test for a commitment that has landed. -/
def commitOnChain (v : View) (fromAddr : Address) (hash : Bytes32) (next : Nat) : Bool :=
  v.commitFromPending fromAddr hash next

end NgCore
