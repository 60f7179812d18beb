/-
# NgCore.VM.Exec — running code: frames, services, dynamic calls, linking

`ngstate/service.go` and `ngstate/wasm.go`: how a run proceeds through a contract's code and into other
contracts. A service wrapper and a dynamic call push the callee's frame around the CALL; linking and
instantiation — which runs start functions — happen before that push.

Calls nest, so the two ways into another contract (`Handlers`) are built level by level; a level more is
a call deeper. Every nested call burns `gasServiceCall` of one toll budget, so `maxLevels` levels are as
good as unboundedly many.
-/
import NgCore.VM.HostCalls

namespace NgCore

section Exec

variable [Engine] (v : View)

/-! ## §1 — code -/

/-- **`Handlers`** — the two ways into another contract. -/
structure Handlers where
  /-- `contract.call`. -/
  call : Address → Bytes → Host Val
  /-- An export of a linked dependency. -/
  service : String → String → List Val → Host (List Val)

/-- How a function run ends: results, or `none` for a trap, and the instance it leaves. -/
structure Outcome where
  vals : Option (List Val)
  ins : Instance

/-- **`exec`** — run code of the contract `owner`. -/
def Prog.exec (hs : Handlers) (owner : Address) : Prog → VM → Outcome × VM
  | .ret vals ins, vm => (⟨some vals, ins⟩, vm)
  | .trap ins, vm => (⟨none, ins⟩, vm)
  | .tick toll ins k, vm =>
    match VM.charge toll vm with
    | (some _, vm') => k.exec hs owner vm'
    | (none, vm') => (⟨none, ins⟩, vm')
  | .host c ins k, vm =>
    match VM.hostCall v owner hs.call hs.service c ins vm with
    | (some (vals, ins'), vm') => (k vals ins').exec hs owner vm'
    | (none, vm') => (⟨none, ins⟩, vm')

/-- Leave a note that an export of `owner` is entered. -/
def VM.enter (owner : Address) (entry : String) (vm : VM) : VM :=
  { vm with notes := .enter vm.caller owner entry vm.frames :: vm.notes }

/-- **`callExportedFunc`** — run an export of an instance; a missing export or a wrong argument count is
an error. -/
def Module.callExportedFunc (hs : Handlers) (owner : Address) (m : Module) (ins : Instance)
    (entry : String) (args : List Val) (vm : VM) : Outcome × VM :=
  match m.func entry with
  | none => (⟨none, ins⟩, vm)
  | some (arity, f) =>
    if args.length = arity then (f args ins).exec v hs owner (vm.enter owner entry) else (⟨none, ins⟩, vm)

/-- **`instantiate`** — resolve the imports, then run the start function ON THE CURRENT FRAME. -/
def Module.instantiate (hs : Handlers) (owner : Address) (m : Module) : Host Instance := fun vm =>
  if Engine.resolves m (vm.linker.map fun e => (e.1, e.2.module)) = false then (none, vm)
  else match m.start with
    | none => (some m.fresh, vm)
    | some start =>
      let r := (start m.fresh).exec v hs owner vm
      (r.1.vals.map fun _ => r.1.ins, r.2)

/-! ## §2 — linking -/

/-- Register a dependency; a module without linkable exports defines no wrapper and so no name. -/
def VM.register (name : String) (l : Linked) : Host Unit :=
  if l.module.exports.any fun e => e.2.isSome then
    Host.modify fun vm => { vm with linker := vm.linker ++ [(name, l)] }
  else pure ()

/-- **`linkServiceDep`** — link the dependency's own dependencies, instantiate it, register its exports. -/
def linkServiceDep (hs : Handlers) (loadDeps : Module → Host Unit) (name : String) (depAcc : Contract) :
    Host Unit := do
  let depModule ← Host.ofOption (loadContractWasm depAcc.source)
  loadDeps depModule
  let ins ← depModule.instantiate v hs depAcc.owner
  VM.register name ⟨depAcc.owner, depModule, ins⟩

/-- One round of `loadContractDeps`: an import that is not linked yet must name another live contract. -/
def linkImport (hs : Handlers) (loadDeps : Module → Host Unit) (name : String) : Host Unit := do
  let vm ← Host.get
  if vm.linker.any fun e => e.1 = name then return
  let addr ← Host.ofOption (newAddressFromBS58 name)
  Host.require (addr ≠ vm.self)
  let depAcc ← Host.ofOption (v.contract addr)
  Host.require (depAcc.isLive = true)
  linkServiceDep v hs loadDeps name depAcc

/-- **`loadContractDeps`** — link the declared dependencies in order; `depth` is how many levels remain. -/
def loadContractDeps (hs : Handlers) : (depth : Nat) → Module → Host Unit
  | 0, m => do
    let deps ← Host.ofOption (parseContractDeps m).toOption
    Host.require (deps = [])
  | depth + 1, m => do
    let deps ← Host.ofOption (parseContractDeps m).toOption
    deps.forM (linkImport v hs (loadContractDeps hs depth))

/-! ## §3 — into another contract -/

/-- Run `body` with `addr` on top of the frames; the frame is popped whatever happens. -/
def VM.withFrame {α : Type} (addr : Address) (body : VM → α × VM) (vm : VM) : α × VM :=
  let r := body { vm with frames := addr :: vm.frames }
  (r.1, { r.2 with frames := r.2.frames.drop 1 })

/-- Keep the instance a service call left. -/
def VM.storeInstance (name : String) (ins : Instance) (vm : VM) : VM :=
  { vm with linker := vm.linker.map fun e => if e.1 = name then (e.1, { e.2 with ins }) else e }

/-- `toRaw` / `fromRaw`: floats panic, 32-bit results are cut. -/
def fromRaw : ValType → Val → Option Val
  | .i32, raw => some (raw % 2 ^ 32)
  | .i64, raw => some raw
  | .f32, _ | .f64, _ => none

/-- **`makeServiceWrapper`** — the host function behind a dependency's export. -/
def serviceWrapper (hs : Handlers) (name exportName : String) (args : List Val) : Host (List Val) := do
  let vm ← Host.get
  let l ← Host.ofOption (vm.linker.lookup name)
  let sig ← Host.ofOption (l.module.exportFuncSig exportName)
  Host.require (vm.onStack l.addr = false)
  VM.charge gasServiceCall
  Host.require ((sig.inputTypes.any fun t => t = .f32 ∨ t = .f64) = false)
  let r ← fun vm =>
    let r := VM.withFrame l.addr (l.module.callExportedFunc v hs l.addr l.ins exportName args) vm
    (some r.1, r.2.storeInstance name r.1.ins)
  let rets ← Host.ofOption r.vals
  Host.require (rets.length = sig.returnTypes.length)
  Host.ofOption ((sig.returnTypes.zip rets).mapM fun e => fromRaw e.1 e.2)

/-- The hooks only the protocol runs. -/
def isHook (entry : String) : Bool :=
  entry = entryOnActivate ∨ entry = entryOnUpgrade ∨ entry = entryOnValidate

/-- The reserved entries, never callable by name. -/
def isReservedEntry (method : String) : Bool :=
  method = "" ∨ method = entryOnTx ∨ method = entryOnActivate ∨ method = entryOnUpgrade ∨
    method = entryOnValidate

/-- The entry and arguments call data selects: a zero-argument export that is no hook, else the default
entry. -/
def resolveEntry (m : Module) (calldata : Bytes) : String × Bytes :=
  match Engine.decodeCallData calldata with
  | none => (entryOnTx, calldata)
  | some (method, args) =>
    if isReservedEntry method then (entryOnTx, args)
    else match m.exportFuncSig method with
      | some sig => if sig.inputTypes = [] then (method, args) else (entryOnTx, args)
      | none => (entryOnTx, args)

/-- **`serviceCall`** — the dynamic call, after its arguments are read: the target is loaded, linked and
INSTANTIATED on the caller's frame, and only its entry runs on its own. A target that cannot be loaded or
instantiated returns zero. -/
def serviceCall (hs : Handlers) (target : Address) (calldata : Bytes) : Host Val := do
  let vm ← Host.get
  Host.require (vm.onStack target = false)
  match v.contract target with
  | none => return 0
  | some acc =>
    if acc.isLive = false then return 0
    match loadContractWasm acc.source with
    | none => return 0
    | some m =>
      let linked ← Host.attempt (loadContractDeps v hs (maxDepChainDepth - vm.frames.length) m)
      if linked.isNone then return 0
      let inst ← Host.attempt (m.instantiate v hs target)
      match inst with
      | none => return 0
      | some ins =>
        let r ← fun vm =>
          let (entry, args) := resolveEntry m calldata
          let r := VM.withFrame target (m.callExportedFunc v hs target ins entry [])
            { vm with callArgs := args }
          (some r.1, { r.2 with callArgs := vm.callArgs })
        let _ ← Host.ofOption r.vals
        return 1

/-- Calls nested at most `n` deep. -/
def level : Nat → Handlers
  | 0 => ⟨fun _ _ => Host.panic, fun _ _ _ => Host.panic⟩
  | n + 1 => ⟨serviceCall v (level n), serviceWrapper v (level n)⟩

/-- More levels than one toll budget pays for. -/
def maxLevels : Nat := vmMaxToll / gasServiceCall + 1

/-! ## §4 — one run -/

/-- The vm before anything is linked. -/
def VM.initial (account : Contract) (tx : FullTx) (blockTime : Nat) : VM where
  caller := tx
  self := account.owner
  blockTime := blockTime
  journal := newVMJournal account
  linker := []
  frames := [account.owner]
  callArgs := tx.extra
  events := []
  toll := 0
  tollPreburn := 0
  bufs := List.replicate vmBufSlots []
  notes := []

/-- **`newVM`** — a fresh run of the contract, its dependencies linked (`none` when they do not link). -/
def newVM (account : Contract) (tx : FullTx) (blockTime : Nat) (m : Module) : Option Unit × VM :=
  loadContractDeps v (level v maxLevels) maxDepChainDepth m (VM.initial account tx blockTime)

/-- **`entryFor`** — only the default entry looks at the call data. -/
def VM.entryFor (m : Module) (defaultEntry : String) (vm : VM) : String × VM :=
  if defaultEntry ≠ entryOnTx ∨ vm.caller.extra = [] then (defaultEntry, vm)
  else
    let (entry, args) := resolveEntry m vm.caller.extra
    (entry, { vm with callArgs := args })

/-- **`limitToll`** — pre-burn what the block cannot afford; a refusal of the station is ignored. -/
def VM.limitToll (budget : Nat) (vm : VM) : VM :=
  if vmMaxToll ≤ budget then vm
  else
    let vm := { vm with tollPreburn := vmMaxToll - budget }
    (VM.charge vm.tollPreburn vm).2

/-- **`run`** — instantiate and call the entry; `true` when it completed. -/
def VM.run (owner : Address) (m : Module) (entry : String) (vm : VM) : Bool × VM :=
  match m.instantiate v (level v maxLevels) owner vm with
  | (none, vm') => (false, vm')
  | (some ins, vm') =>
    let r := m.callExportedFunc v (level v maxLevels) owner ins entry [] vm'
    (r.1.vals.isSome, r.2)

/-- The run of an entry under what is left of the block's gas. -/
def VM.runEntry (owner : Address) (m : Module) (entry : String) (gas : Nat) (vm : VM) : Bool × VM :=
  let (entry, vm) := vm.entryFor m entry
  let vm := if gas < vmMaxToll then vm.limitToll gas else vm
  vm.run v owner m entry

end Exec
end NgCore
