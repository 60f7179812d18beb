/-
# NgCore.VM.Journal — the state of a contract run

`ngstate/journal.go`, `ngstate/rent.go` and the bookkeeping part of `ngstate/wasm.go`: one contract run
buffers every change in a journal over the view it started from, keeps the stack of executing addresses,
the toll, the transfer slots and the emitted events. Nothing reaches the state before `flush`.

A host operation is a function `VM → Option α × VM`: `none` is a Go panic (the engine turns it into a
trap), and — as in the source — what happened to the vm before the panic stays.
-/
import NgCore.State.Txn
import NgCore.VM.Engine

namespace NgCore

open Lib (Bucket)

/-! ## §1 — constants -/

/-- Toll budget of one run. -/
def vmMaxToll : Nat := 2 ^ 24
def vmBufSlots : Nat := 8
def vmBufMaxLen : Nat := 4096

def gasKVSetBase : Nat := 1000
def gasKVSetPerByte : Nat := 10
def gasKVDel : Nat := 500
def gasKVRead : Nat := 100
def gasCoinTransfer : Nat := 2000
def gasEventBase : Nat := 500
def gasEventPerByte : Nat := 5
def gasServiceCall : Nat := 2000
def gasHashBase : Nat := 100
def gasHashPerByte : Nat := 1
def gasSigVerify : Nat := 3000
def gasRandom : Nat := 200

def maxEventsPerRun : Nat := 128
def maxEventTopicLen : Nat := 64
def maxEventDataLen : Nat := 4096

/-- The reserved topic namespace `ng.` of node-derived events. -/
def eventTopicPrefix : Bytes := [0x6e, 0x67, 0x2e]

/-- The topic `ng.transfer`. -/
def eventTopicTransfer : Bytes := eventTopicPrefix ++ [0x74, 0x72, 0x61, 0x6e, 0x73, 0x66, 0x65, 0x72]

/-! ## §2 — the run state -/

/-- **`Journal`** — pending account copies and pending absolute balances. -/
structure Journal where
  accounts : Bucket Address Contract
  balances : Bucket Address Int

/-- **`Event`** — one emitted log entry. -/
structure Event where
  contract : Address
  topic : Bytes
  data : Bytes
  deriving DecidableEq

/-- A linked dependency: its address, its module and its one instance. -/
structure Linked where
  addr : Address
  module : Module
  ins : Instance

/-- **`VM`** — one contract run. `notes` is the trail of the run (a history variable). -/
structure VM where
  caller : FullTx
  self : Address
  blockTime : Nat
  journal : Journal
  /-- Dependencies by link name. -/
  linker : List (String × Linked)
  /-- The executing addresses, innermost first. -/
  frames : List Address
  callArgs : Bytes
  events : List Event
  toll : Nat
  tollPreburn : Nat
  bufs : List Bytes
  notes : List RunNote

namespace VM

/-- **`currentAddress`** — the address whose frame is on top. -/
def currentAddress (vm : VM) : Address := vm.frames.headD zero32

/-- **`callerAddress`** — the frame below the top, zero for the outermost one. -/
def callerAddress (vm : VM) : Address := (vm.frames.drop 1).headD zero32

def onStack (vm : VM) (addr : Address) : Bool := addr ∈ vm.frames

/-- **`gasUsed`** — the toll of this run, without the pre-burned share. -/
def gasUsed (vm : VM) : Nat := vm.toll - vm.tollPreburn

end VM

/-- **`newVMJournal`** — the journal starts with a copy of the contract itself. -/
def newVMJournal (self : Contract) : Journal := ⟨(∅ : Bucket Address Contract).insert self.owner self, ∅⟩

/-- **`balanceOf`** — pending balance, else the state's. -/
def Journal.balanceOf (v : View) (j : Journal) (a : Address) : Int :=
  (j.balances[a]?).getD (v.bal a)

/-! ## §3 — host operations -/

/-- A host operation over the run. -/
def Host (α : Type) : Type := VM → Option α × VM

namespace Host

variable {α β : Type}

/-- Sequencing: a panic stops, keeping the vm as it is. -/
def bind (x : Host α) (f : α → Host β) : Host β := fun vm =>
  match x vm with
  | (none, vm') => (none, vm')
  | (some a, vm') => f a vm'

instance : Monad Host where
  pure a := fun vm => (some a, vm)
  bind := bind

/-- A Go panic, or an error that ends the operation. -/
def panic : Host α := fun vm => (none, vm)

def get : Host VM := fun vm => (some vm, vm)

def modify (f : VM → VM) : Host Unit := fun vm => (some (), f vm)

def ofOption : Option α → Host α
  | some a => pure a
  | none => panic

/-- Panic unless `c` holds. -/
def require (c : Prop) [Decidable c] : Host Unit := if c then pure () else panic

/-- Do `x` only when `c` holds. -/
def when (c : Prop) [Decidable c] (x : Host Unit) : Host Unit := if c then x else pure ()

/-- Turn failure into a value. -/
def attempt (x : Host α) : Host (Option α) := fun vm => (some (x vm).1, (x vm).2)

/-- **`Via R x`** — the operation moves the vm along `R`, whether it panics or not. -/
def Via (R : VM → VM → Prop) (x : Host α) : Prop := ∀ vm, R vm (x vm).2

end Host

namespace VM

/-- **`charge`** — burn toll; a refusal of the station is a panic. -/
def charge [Engine] (cost : Nat) : Host Unit := fun vm =>
  let (ok, total) := Engine.addToll vmMaxToll vm.toll cost
  (if ok = true then some () else none, { vm with toll := total })

theorem charge_cases [Engine] (cost : Nat) (vm : VM) :
    charge cost vm = (some (), { vm with toll := vm.toll + cost }) ∧ vm.toll + cost ≤ vmMaxToll ∨
      charge cost vm = (none, vm) := by
  unfold charge
  rcases Engine.addToll_cases vmMaxToll vm.toll cost with ⟨h, hle⟩ | h
  · rw [h]
    exact .inl ⟨rfl, hle⟩
  · rw [h]
    exact .inr rfl

theorem fst_charge_congr [Engine] {vm vm' : VM} (h : vm.toll = vm'.toll) (cost : Nat) :
    (charge cost vm).1 = (charge cost vm').1 := by
  unfold charge
  rw [h]

/-- Leave a note that code of `owner` acted on the top frame's address. -/
def act (owner : Address) : Host Unit := fun vm =>
  (some (), { vm with notes := .act owner vm.currentAddress :: vm.notes })

def emit (e : Event) : Host Unit := Host.modify fun vm => { vm with events := vm.events ++ [e] }

/-! ### accounts and balances -/

/-- **`contractOf`** — the journal's copy of an account, loaded on first touch. -/
def contractOf (v : View) (a : Address) : Host Contract := fun vm =>
  match vm.journal.accounts[a]? with
  | some acc => (some acc, vm)
  | none => match v.contract a with
    | none => (none, vm)
    | some acc =>
      (some acc, { vm with journal := { vm.journal with accounts := vm.journal.accounts.insert a acc } })

/-- **`vmContext`** — the storage of the executing address. -/
def vmContext (v : View) : Host ContractContext := fun vm =>
  match contractOf v vm.currentAddress vm with
  | (some acc, vm') => (some acc.context, vm')
  | (none, vm') => (none, vm')

/-- Write to the storage of the executing address. -/
def setContext (v : View) (w : ContextWrite) : Host Unit := fun vm =>
  match contractOf v vm.currentAddress vm with
  | (none, vm') => (none, vm')
  | (some acc, vm') =>
    let accounts := vm'.journal.accounts.insert vm.currentAddress { acc with context := w.apply acc.context }
    (some (), { vm' with
      journal := { vm'.journal with accounts }
      notes := .store vm.currentAddress w :: vm'.notes })

/-- **`transfer`** — move value inside the journal: debit, THEN read and credit. `false` on a refusal. -/
def transfer (v : View) (fromAddr toAddr : Address) (value : Int) : Host Bool := fun vm =>
  let fromBalance := vm.journal.balanceOf v fromAddr
  if value < 0 ∨ fromBalance < value then (some false, vm)
  else
    let debited := { vm.journal with balances := vm.journal.balances.insert fromAddr (fromBalance - value) }
    let credited := { debited with
      balances := debited.balances.insert toAddr (debited.balanceOf v toAddr + value) }
    (some true, { vm with journal := credited, notes := .move fromAddr toAddr value :: vm.notes })

/-! ### storage deposits -/

/-- **`lockDeposit`** — move the bond into the escrow and grow the contract's own record. -/
def lockDeposit (v : View) (owner : Address) (amount : Nat) : Host Unit := do
  if amount = 0 then return
  let vm ← Host.get
  let ok ← transfer v vm.currentAddress storageDepositEscrow amount
  Host.require (ok = true)
  act owner
  let ctx ← vmContext v
  setContext v (.rent (lockedDeposit ctx + amount))

/-- **`refundDeposit`** — pay back at most what this contract locked, and at most what the escrow holds. -/
def refundDeposit (v : View) (owner : Address) (amount : Nat) : Host Unit := do
  if amount = 0 then return
  let ctx ← vmContext v
  let locked := lockedDeposit ctx
  let owed : Int := min amount locked
  let vm ← Host.get
  let escrowBal := vm.journal.balanceOf v storageDepositEscrow
  Host.when (escrowBal < owed) (Host.modify fun vm => { vm with notes := .underflow :: vm.notes })
  let pay := min owed escrowBal
  if pay ≤ 0 then return
  let ok ← transfer v storageDepositEscrow vm.currentAddress pay
  if ok = false then return
  act owner
  setContext v (.rent (locked - pay))

end VM

/-! ## §4 — flush -/

/-- **`flush`** — write the pending balances, then the account copies. -/
def Journal.flush (rec : Recorder) (j : Journal) : StateTxn Unit := do
  j.balances.toList.forM fun e => Lib.Txn.tell (.setBalance rec e.1 e.2)
  j.accounts.toList.forM fun e => Lib.Txn.tell (.setContract rec e.2)

end NgCore
