/-
# NgCore.State.Contracts — running a contract from the state, and the dependency ledger

The part of `ngstate/state_handle.go` that goes between a transaction and the VM: one contract run under
the block's gas budget, the reference counts a module holds on its dependencies, and the refund of a
destroyed contract's deposit.

A contract failure drops the run's journal and NEVER fails the transaction; it only reports `false`.
-/
import NgCore.VM.Exec

namespace NgCore

open Lib (Txn)
open Lib.Txn (look tell ofExcept)

/-- **`Config`** — what a node fixes at start-up. -/
structure Config where
  network : Network
  archive : Bool

section Contracts

variable [Engine]

/-! ## §1 — one contract run -/

/-- **`runContract`** — run an entry of the contract at `addr`, if it is live; returns whether the entry
completed and the gas left in the block. -/
def runContract (rec : Recorder) (addr : Address) (tx : FullTx) (entry : String) (blockTime gas : Nat) :
    StateTxn (Bool × Nat) := do
  let v ← look
  match v.contract addr with
  | none => return (false, gas)
  | some account =>
    if account.isLive = false ∨ gas = 0 then return (false, gas)
    match loadContractWasm account.source with
    | none => return (false, gas)
    | some m =>
      match newVM v account tx blockTime m with
      | (none, vm) =>
        tell (.notes vm.notes)
        return (false, gas)
      | (some _, linked) =>
        let (ok, vm) := linked.runEntry v account.owner m entry gas
        tell (.notes vm.notes)
        StateTxn.when (ok = true) (vm.journal.flush rec)
        return (ok, gas - vm.gasUsed)

/-! ## §2 — the dependency ledger -/

/-- **`validateDeps`** — every dependency of the new code is a live contract, and not the deployer. -/
def validateDeps (v : View) (fromAddr : Address) (source : Bytes) : Except Err (List Address) := do
  let deps ← extractContractDeps source
  deps.forM fun depAddr => do
    ensure (depAddr ≠ fromAddr) .depSelf
    match v.contract depAddr with
    | none => .error .keyNotFound
    | some depAcc => ensure (depAcc.isLive = true) .depNotActive
  return deps

/-- **`pinDeps`** — one reference more on each dependency. -/
def pinDeps (rec : Recorder) (deps : List Address) : StateTxn Unit :=
  deps.forM fun depAddr => do
    let v ← look
    match v.contract depAddr with
    | none => .fail .keyNotFound
    | some depAcc => tell (.setContract rec (depAcc.setRefCount ((depAcc.getRefCount + 1) % 2 ^ 64)))

/-- **`releaseContractDeps`** — one reference less on each dependency the slot recorded. -/
def releaseContractDeps (rec : Recorder) (slot : Contract) : StateTxn Unit := do
  let deps ← ofExcept (slot.getContractDeps Engine.decodeByteStrings)
  deps.forM fun depAddr => do
    let v ← look
    match v.contract depAddr with
    | none => .fail .keyNotFound
    | some depAcc =>
      StateTxn.when (0 < depAcc.getRefCount)
        (tell (.setContract rec (depAcc.setRefCount (depAcc.getRefCount - 1))))

end Contracts

/-! ## §3 — the refund of a destroyed contract -/

/-- **`refundContractDeposit`** — the whole recorded deposit goes back to the contract, capped by what the
escrow holds. -/
def refundContractDeposit (rec : Recorder) (addr : Address) (ctx : ContractContext) : StateTxn Unit := do
  let owed := lockedDeposit ctx
  if owed = 0 then return
  let v ← look
  let escrowBal := v.bal storageDepositEscrow
  StateTxn.when (escrowBal < owed) (tell (.notes [.underflow]))
  let pay := min owed escrowBal
  if pay = 0 then return
  tell (.setBalance rec storageDepositEscrow (escrowBal - pay : Int))
  let v ← look
  tell (.setBalance rec addr (v.bal addr + pay : Int))

end NgCore
