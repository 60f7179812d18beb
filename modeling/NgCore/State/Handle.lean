/-
# NgCore.State.Handle — what a block does to the state

`ngstate/state_handle.go`, `State.Upgrade` and `handleCommits` of `ngstate/state.go`, `updateBeacon` of
`ngstate/beacon.go`. A block is applied in four stages: its blind commitments are charged and recorded,
its transactions run in order under ONE gas budget, the beacon advances, and commitments past the window
are pruned. Any failure fails the block as a whole.

The commit-reveal gate, the policy hook and the signature check all read the transaction's OWN height
field: an effect transaction of height zero passes all three.
-/
import NgCore.State.Contracts

namespace NgCore

open Lib (Txn)
open Lib.Txn (look tell ofExcept)

/-! ## §1 — charging -/

section Charge

variable [Crypto]

/-- **`registerPubKey`** — a full envelope reveals its key; the registry keeps the first one. -/
def registerPubKey (rec : Recorder) (tx : FullTx) : StateTxn Unit :=
  let scheme := tx.envelopeScheme
  let pkLen := pubKeySize scheme
  if tx.isCompactEnvelope ∨ pkLen = 0 ∨ tx.sign.length ≠ 2 + pkLen + sigSize scheme then pure ()
  else
    let pubKey := (tx.sign.drop 2).take pkLen
    tell (.registerPubKey rec (addressOfPubKey scheme pubKey) scheme pubKey)

/-- Verify a signed transaction and register the key it reveals. -/
def verifySigned (rec : Recorder) (tx : FullTx) : StateTxn Unit := do
  let v ← look
  ofExcept (tx.verify (some v.keyResolver))
  registerPubKey rec tx

/-- **`chargeFrom`** — verify, then burn the expense from the sender's balance. -/
def chargeFrom (rec : Recorder) (tx : FullTx) (expense : Nat) : StateTxn Address := do
  verifySigned rec tx
  let fromAddr ← ofExcept tx.fromAddr
  let v ← look
  StateTxn.require (expense ≤ v.bal fromAddr) .txrBalanceInsufficient
  tell (.setBalance rec fromAddr (v.bal fromAddr - expense : Int))
  return fromAddr

/-- Credit an address. -/
def credit (rec : Recorder) (addr : Address) (value : Nat) : StateTxn Unit := do
  let v ← look
  tell (.setBalance rec addr (v.bal addr + value : Int))

/-- **`handleGenerate`** — mint; an unsigned generate is an uncle's reward. -/
def handleGenerate (rec : Recorder) (tx : FullTx) : StateTxn Unit := do
  StateTxn.when (tx.sign ≠ []) (verifySigned rec tx)
  credit rec tx.toAddr tx.value

/-! ## §2 — the gates of an effect transaction -/

/-- **`revealHash`** — the commitment a reveal opens: the unheighted content and the salt. -/
def revealHash (tx : FullTx) : Bytes32 := hash256 (tx.unheightedHash.val ++ tx.salt)

/-- **`consumeReveal`** — spend the commitment, journaling it under the transaction's own height. -/
def consumeReveal (tx : FullTx) : StateTxn Unit :=
  if tx.height = 0 then pure ()
  else do
    StateTxn.require (minSaltSize ≤ tx.salt.length) .saltTooShort
    let fromAddr ← ofExcept tx.fromAddr
    let v ← look
    match v.findCommit fromAddr (revealHash tx) tx.height with
    | none => .fail .txNotCommitted
    | some h => do
      tell (.journalConsumed tx.height h (revealHash tx) fromAddr)
      tell (.consumeCommit h (revealHash tx))

end Charge

section Handlers

variable [Engine] (cfg : Config) (rec : Recorder)

/-- **`runValidate`** — the sender's own policy, when it has one, must accept. -/
def runValidate (tx : FullTx) (blockTime gas : Nat) : StateTxn Nat := do
  let fromAddr ← ofExcept tx.fromAddr
  let v ← look
  match v.contract fromAddr with
  | none => return gas
  | some account =>
    if account.isLive = false ∨ contractHasExport account.source entryOnValidate = false then return gas
    let (ok, gas) ← runContract rec fromAddr tx entryOnValidate blockTime gas
    StateTxn.require (ok = true) .txUnauthorized
    return gas

/-! ## §3 — the handlers -/

/-- **`handleTransaction`** — move the value, then run the recipient's contract. -/
def handleTransaction (tx : FullTx) (blockTime gas : Nat) : StateTxn Nat := do
  let _ ← chargeFrom rec tx tx.totalExpenditure
  credit rec tx.toAddr tx.value
  let v ← look
  match v.contract tx.toAddr with
  | none => return gas
  | some _ =>
    let (_, gas) ← runContract rec tx.toAddr tx entryOnTx blockTime gas
    return gas

/-- The destroy branch of `handleDeploy`: empty code on a live slot. The slot was loaded BEFORE the
`upgrade` hook runs, and its recorded deposit is what the refund reads. -/
def destroyContract (tx : FullTx) (fromAddr : Address) (slot : Contract) (blockTime gas : Nat) :
    StateTxn Nat := do
  StateTxn.require (slot.getRefCount = 0) .contractRefdBy
  let (ok, gas) ← runContract rec fromAddr tx entryOnUpgrade blockTime gas
  if ok = false then return gas
  releaseContractDeps rec slot
  StateTxn.when (isForkActive cfg.network .forkStateRent tx.height = true)
    (refundContractDeposit rec fromAddr slot.context)
  tell (.delContract rec fromAddr)
  return gas

/-- The last part of `handleDeploy`: pin the dependencies, write the slot, run `init`. -/
def installContract (tx : FullTx) (fromAddr : Address) (slot : Contract) (newSource : Bytes)
    (newDeps : List Address) (blockTime gas : Nat) : StateTxn Nat := do
  pinDeps rec newDeps
  tell (.setContract rec (({ slot with source := newSource }.setActive).setContractDeps newDeps))
  let (_, gas) ← runContract rec fromAddr tx entryOnActivate blockTime gas
  return gas

/-- **`handleDeploy`** — deploy, upgrade or destroy the sender's own slot. An upgrade writes back the slot
it loaded BEFORE the `upgrade` hook ran, with the new code. -/
def handleDeploy (tx : FullTx) (blockTime gas : Nat) : StateTxn Nat := do
  let v ← look
  ofExcept (tx.checkDeploy (some v.keyResolver))
  let fromAddr ← chargeFrom rec tx tx.totalExpenditure
  let newSource ← ofExcept (decodeCommitCode Engine.inflate tx.extra)
  StateTxn.require (newSource.length ≤ maxContractSourceSize) .sourceTooLarge
  let v ← look
  let live := (v.contract fromAddr).filter Contract.isLive
  if newSource = [] then
    match live with
    | none => .fail .nothingToDestroy
    | some slot => destroyContract cfg rec tx fromAddr slot blockTime gas
  else
    StateTxn.require (loadContractWasm newSource).isSome .invalidWasm
    let newDeps ← ofExcept (validateDeps v fromAddr newSource)
    match live with
    | none => installContract rec tx fromAddr (.newContract fromAddr) newSource newDeps blockTime gas
    | some slot => do
      let (ok, gas) ← runContract rec fromAddr tx entryOnUpgrade blockTime gas
      if ok = false then return gas
      releaseContractDeps rec slot
      installContract rec tx fromAddr slot newSource newDeps blockTime gas

/-- One transaction of `HandleTxs`; returns the gas left. -/
def handleTx (blockTime gas : Nat) (tx : FullTx) : StateTxn Nat :=
  if tx.type = generateTx then do
    handleGenerate rec tx
    return gas
  else if tx.type = transactTx then do
    consumeReveal tx
    let gas ← runValidate rec tx blockTime gas
    handleTransaction rec tx blockTime gas
  else if tx.type = deployTx then do
    consumeReveal tx
    let gas ← runValidate rec tx blockTime gas
    handleDeploy cfg rec tx blockTime gas
  else .fail .txTypeInvalid

/-- **`handleTxs`** — every transaction in order, under one gas budget. -/
def handleTxs (blockTime : Nat) (txs : List FullTx) : StateTxn Nat :=
  txs.foldlM (fun gas tx => handleTx cfg rec blockTime gas tx) maxBlockGas

end Handlers

/-! ## §4 — one block -/

section Upgrade

variable [Engine]

/-- One commitment of `handleCommits`: verified, not pending from the same committer, affordable. -/
def handleCommit (rec : Recorder) (c : Commitment) : StateTxn Unit := do
  let v ← look
  ofExcept (c.verify (some v.keyResolver))
  let fromAddr ← ofExcept c.fromAddr
  StateTxn.require (v.commitFromPending fromAddr (copy32 c.hash) c.height = false) .commitDuplicate
  StateTxn.require (c.fee ≤ v.bal fromAddr) .commitUnaffordable
  tell (.setBalance rec fromAddr (v.bal fromAddr - c.fee : Int))
  tell (.putCommit c.height (copy32 c.hash) fromAddr)

/-- **`handleCommits`** — charge and record every commitment of the block. -/
def handleCommits (rec : Recorder) (block : FullBlock) : StateTxn Unit :=
  block.commits.forM (handleCommit rec)

/-- The domain tag `ngcore/randao` of the beacon hash. -/
def beaconDomain : Bytes :=
  [0x6e, 0x67, 0x63, 0x6f, 0x72, 0x65, 0x2f, 0x72, 0x61, 0x6e, 0x64, 0x61, 0x6f]

/-- The seed a block advances `prev` to. -/
def nextBeacon (prev : Bytes32) (block : FullBlock) : Bytes32 :=
  let saltsHash := hash256 (block.txs.flatMap FullTx.salt)
  hash256 (beaconDomain ++ prev.val ++ block.header.prevBlockHash ++ saltsHash.val ++
    packUint64LE block.getHeight)

/-- **`updateBeacon`** — fold the block's salts into the seed; the genesis has none. -/
def updateBeacon (rec : Recorder) (block : FullBlock) : StateTxn Unit :=
  if isForkActive block.header.network .forkRandomBeacon block.getHeight = false ∨ block.getHeight = 0
  then pure ()
  else do
    let v ← look
    tell (.setBeacon rec (nextBeacon v.getBeacon block))

/-- The changeset recorder of a block. -/
def Config.recorder (cfg : Config) (height : Nat) : Recorder := if cfg.archive then some height else none

/-- **`upgrade`** — apply a block. -/
def upgrade (cfg : Config) (block : FullBlock) : StateTxn Unit := do
  let cs := cfg.recorder block.getHeight
  handleCommits cs block
  let _ ← handleTxs cfg cs block.header.timestamp block.txs
  updateBeacon cs block
  tell (.pruneCommits block.getHeight)
  tell (.apply block)

end Upgrade
end NgCore
