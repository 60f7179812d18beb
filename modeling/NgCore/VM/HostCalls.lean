/-
# NgCore.VM.HostCalls — the host functions

`ngstate/imports*.go`: what each imported function does to the run and to the calling instance's memory,
and the toll it charges. A failed memory access makes a function return zero; a panic traps.
`owner` is the contract whose CODE makes the call: the functions themselves never look at it, they act on
the top frame; it only goes into the trail.
-/
import NgCore.VM.Journal

namespace NgCore

open Lib.Rlp (beBytes beVal)

/-! ## §1 — linear memory -/

/-- **`readMem`** — bounds-checked read. -/
def Instance.readMem (ins : Instance) (ptr size : Nat) : Option Bytes :=
  match ins.memory with
  | none => none
  | some mem => if ptr + size ≤ mem.length then some ((mem.drop ptr).take size) else none

/-- **`cp`** — bounds-checked write. -/
def Instance.cp (ins : Instance) (ptr : Nat) (data : Bytes) : Option Instance :=
  match ins.memory with
  | none => none
  | some mem =>
    if ptr + data.length ≤ mem.length then
      some { ins with memory := some (mem.take ptr ++ data ++ mem.drop (ptr + data.length)) }
    else none

/-- **`readAddr`** — a 32-byte address. -/
def Instance.readAddr (ins : Instance) (ptr : UInt32) : Option Address :=
  (ins.readMem ptr.toNat addressSize).map copy32

/-- **`readBigLE`** — a 32-byte little-endian amount. -/
def Instance.readBigLE (ins : Instance) (ptr : UInt32) : Option Nat :=
  (ins.readMem ptr.toNat 32).map fun raw => beVal raw.reverse

/-- **`bigToLE32`** — the low 32 bytes, little-endian. -/
def bigToLE32 (v : Nat) : Bytes := (copy32 (beBytes v).reverse).val

/-- What a host function returns to the code: results and the instance. -/
abbrev HostRet := List Val × Instance

namespace HostRet

/-- A 32-bit (or 64-bit) result. -/
def val (n : Nat) (ins : Instance) : HostRet := ([UInt64.ofNat n], ins)

/-- Write bytes out and return their length, or zero when they do not fit. -/
def out (ins : Instance) (ptr : UInt32) (data : Bytes) : HostRet :=
  match ins.cp ptr.toNat data with
  | some ins' => val data.length ins'
  | none => val 0 ins

/-- **`writeBigLE`** — write an amount as 32 bytes; wider than 256 bits returns zero. -/
def writeBigLE (ins : Instance) (ptr : UInt32) (amount : Nat) : HostRet :=
  if (beBytes amount).length > 32 then val 0 ins else out ins ptr (bigToLE32 amount)

end HostRet

open HostRet

/-- Continue with an optional value; its absence returns zero to the code. -/
def orZero {α : Type} (o : Option α) (ins : Instance) (k : α → Host HostRet) : Host HostRet :=
  match o with
  | none => pure (val 0 ins)
  | some a => k a

/-! ## §2 — storage -/

/-- The non-reserved keys of a context under a prefix, in order. -/
def matchingKeys (ctx : ContractContext) (pre : Bytes) : List Bytes :=
  (ctx.toList.map Prod.fst).filter fun k => isReservedKey k = false ∧ k.take pre.length = pre

section Host

variable [Engine] (v : View) (owner : Address)

namespace VM

/-- Whether storage deposits are in force for the calling transaction. -/
def rentActive (vm : VM) : Bool := isForkActive vm.caller.network .forkStateRent vm.caller.height

/-- Store an entry in the executing address's storage. -/
def putKey (key value : Bytes) : Host Unit := do
  let _ ← vmContext v
  act owner
  setContext v (.put key value)

/-- Delete an entry of the executing address's storage. -/
def delKey (key : Bytes) : Host Unit := do
  let _ ← vmContext v
  act owner
  setContext v (.del key)

/-- The bond of `kv.set`: the entry grows or shrinks from what is stored to the new size. -/
def bondSet (key : Bytes) (newSize : Nat) : Host Unit := do
  let vm ← Host.get
  if vm.rentActive = false then return
  let ctx ← vmContext v
  let old := if ctx.has key then key.length + (ctx.get key).length else 0
  if old < newSize then lockDeposit v owner (depositFor (newSize - old))
  else if newSize < old then refundDeposit v owner (depositFor (old - newSize))
  else return

/-- The bond of `kv.del`: a stored entry's bond comes back. -/
def bondDel (key : Bytes) : Host Unit := do
  let vm ← Host.get
  if vm.rentActive = false then return
  let ctx ← vmContext v
  Host.when (ctx.has key = true) (refundDeposit v owner (depositFor (key.length + (ctx.get key).length)))

/-- **`kv.set`** — lock or refund the size difference, then store. -/
def kvSet (ins : Instance) (keyPtr keyLen valPtr valLen : UInt32) : Host HostRet := do
  charge (gasKVSetBase + gasKVSetPerByte * (keyLen + valLen).toNat)
  orZero (ins.readMem keyPtr.toNat keyLen.toNat) ins fun key => do
  Host.require (isReservedKey key = false)
  orZero (ins.readMem valPtr.toNat valLen.toNat) ins fun value => do
  bondSet v owner key (key.length + value.length)
  putKey v owner key value
  return val 1 ins

/-- **`kv.del`** — refund the entry's bond, then delete. -/
def kvDel (ins : Instance) (keyPtr keyLen : UInt32) : Host HostRet := do
  charge gasKVDel
  orZero (ins.readMem keyPtr.toNat keyLen.toNat) ins fun key => do
  Host.require (isReservedKey key = false)
  bondDel v owner key
  delKey v owner key
  return val 1 ins

/-- A read of one non-reserved key. -/
def kvRead (ins : Instance) (keyPtr keyLen : UInt32) (k : Bytes → HostRet) : Host HostRet := do
  charge gasKVRead
  orZero (ins.readMem keyPtr.toNat keyLen.toNat) ins fun key => do
  if isReservedKey key then return val 0 ins
  let ctx ← vmContext v
  return k (ctx.get key)

/-- A read of the keys under a prefix. -/
def kvScan (ins : Instance) (ptr len : UInt32) (k : List Bytes → HostRet) : Host HostRet := do
  charge gasKVRead
  orZero (ins.readMem ptr.toNat len.toNat) ins fun pre => do
  let ctx ← vmContext v
  return k (matchingKeys ctx pre)

/-! ## §3 — coins and events -/

/-- Spend from the executing address; `false` on a refusal. -/
def spend (toAddr : Address) (value : Nat) : Host Bool := do
  let vm ← Host.get
  let ok ← transfer v vm.currentAddress toAddr value
  Host.when (ok = true) (act owner)
  return ok

/-- Emit an event as the executing address. -/
def emitAs (topic data : Bytes) : Host Unit := do
  let vm ← Host.get
  act owner
  emit ⟨vm.currentAddress, topic, data⟩

/-- **`coin.transfer`** — spend from the executing address; the transfer is also an event. -/
def coinTransfer (ins : Instance) (toPtr valuePtr : UInt32) : Host HostRet := do
  charge gasCoinTransfer
  orZero (ins.readAddr toPtr) ins fun toAddr => do
  orZero (ins.readBigLE valuePtr) ins fun value => do
  let ok ← spend v owner toAddr value
  if ok = false then return val 0 ins
  let vm ← Host.get
  Host.when (vm.events.length < maxEventsPerRun)
    (emit ⟨vm.currentAddress, eventTopicTransfer, toAddr.val ++ bigToLE32 value⟩)
  return val 1 ins

/-- **`log.emit`** — record an event of the executing address; the `ng.` topics are the node's. -/
def logEmit (ins : Instance) (topicPtr topicLen dataPtr dataLen : UInt32) : Host HostRet := do
  charge (gasEventBase + gasEventPerByte * (topicLen + dataLen).toNat)
  let vm ← Host.get
  if maxEventsPerRun ≤ vm.events.length ∨ maxEventTopicLen < topicLen.toNat ∨
      maxEventDataLen < dataLen.toNat then return val 0 ins
  orZero (ins.readMem topicPtr.toNat topicLen.toNat) ins fun topic => do
  if topic.take 3 = eventTopicPrefix then return val 0 ins
  orZero (ins.readMem dataPtr.toNat dataLen.toNat) ins fun data => do
  emitAs owner topic data
  return val 1 ins

/-! ## §4 — introspection -/

/-- The contract at an address read from memory; absence returns zero. -/
def withContract (ins : Instance) (addrPtr : UInt32) (k : Contract → Host HostRet) : Host HostRet :=
  orZero (ins.readAddr addrPtr) ins fun addr => orZero (v.contract addr) ins k

/-- Every host function, called on `vm`; `call` and `service` are the calls into other contracts. -/
def hostBody (call : Address → Bytes → Host Val) (service : String → String → List Val → Host (List Val))
    (ins : Instance) (vm : VM) : HostCall → Host HostRet
  | .logDebug _ _ | .logError _ _ => pure ([], ins)
  | .logEmit topicPtr topicLen dataPtr dataLen => logEmit owner ins topicPtr topicLen dataPtr dataLen
  | .addressGetSize => pure (val addressSize ins)
  | .addressGetHost ptr => pure (out ins ptr vm.currentAddress.val)
  | .addressGetCaller ptr => pure (out ins ptr vm.callerAddress.val)
  | .coinGetBalance addrPtr ptr => do
    charge gasKVRead
    orZero (ins.readAddr addrPtr) ins fun addr =>
      pure (writeBigLE ins ptr (vm.journal.balanceOf v addr).natAbs)
  | .coinTransfer toPtr valuePtr => coinTransfer v owner ins toPtr valuePtr
  | .kvGetSize keyPtr keyLen => kvRead v ins keyPtr keyLen fun value => val value.length ins
  | .kvGet keyPtr keyLen valPtr => kvRead v ins keyPtr keyLen fun value => out ins valPtr value
  | .kvSet keyPtr keyLen valPtr valLen => kvSet v owner ins keyPtr keyLen valPtr valLen
  | .kvCount ptr len => kvScan v ins ptr len fun keys => val keys.length ins
  | .kvKeySizeAt ptr len index =>
    kvScan v ins ptr len fun keys => val ((keys[index.toNat]?).elim 0 List.length) ins
  | .kvKeyAt ptr len index outPtr =>
    kvScan v ins ptr len fun keys => (keys[index.toNat]?).elim (val 0 ins) (out ins outPtr)
  | .kvDel keyPtr keyLen => kvDel v owner ins keyPtr keyLen
  | .txGetHashSize => pure (val hashSize ins)
  | .txGetHash ptr => pure (out ins ptr vm.caller.getHash.val)
  | .txGetNetwork => pure (val vm.caller.network.toNat ins)
  | .txGetHeight => pure (val vm.caller.height ins)
  | .txGetTimestamp => pure (val (vm.blockTime / 1000) ins)
  | .txGetPaid ptr =>
    pure (writeBigLE ins ptr (if vm.caller.toAddr = vm.currentAddress then vm.caller.value else 0))
  | .txGetFrom ptr =>
    match vm.caller.fromAddr with
    | .ok sender => pure (out ins ptr sender.val)
    | .error _ => pure (val 0 ins)
  | .txGetTo ptr => pure (out ins ptr vm.caller.toAddr.val)
  | .txGetFeeSize => pure (val (beBytes vm.caller.fee).length ins)
  | .txGetFee ptr => pure (out ins ptr (beBytes vm.caller.fee))
  | .txGetExtraSize => pure (val vm.callArgs.length ins)
  | .txGetExtra ptr => pure (out ins ptr vm.callArgs)
  | .envGetGas => pure (val (vmMaxToll - vm.toll) ins)
  | .envBufSet slot ptr size =>
    if vmBufSlots ≤ slot.toNat ∨ vmBufMaxLen < size.toNat then pure (val 0 ins)
    else orZero (ins.readMem ptr.toNat size.toNat) ins fun data => do
      Host.modify fun vm => { vm with bufs := vm.bufs.set slot.toNat data }
      return val 1 ins
  | .envBufSize slot => pure (val ((vm.bufs[slot.toNat]?).elim 0 List.length) ins)
  | .envBufGet slot ptr => pure ((vm.bufs[slot.toNat]?).elim (val 0 ins) (out ins ptr))
  | .cryptoBlake3 ptr size outPtr => do
    charge (gasHashBase + gasHashPerByte * size.toNat)
    orZero (ins.readMem ptr.toNat size.toNat) ins fun data => pure (out ins outPtr (hash256 data).val)
  | .cryptoVerify scheme pkPtr pkLen hashPtr sigPtr sigLen => do
    charge gasSigVerify
    orZero (ins.readMem pkPtr.toNat pkLen.toNat) ins fun pubKey =>
      orZero (ins.readMem hashPtr.toNat 32) ins fun hash =>
        orZero (ins.readMem sigPtr.toNat sigLen.toNat) ins fun sig =>
          pure (val (if verifyContractSig scheme.toUInt8 pubKey hash sig then 1 else 0) ins)
  | .cryptoAddrOf scheme pkPtr pkLen outPtr => do
    charge (gasHashBase + gasHashPerByte * pkLen.toNat)
    orZero (ins.readMem pkPtr.toNat pkLen.toNat) ins fun pubKey =>
      pure (out ins outPtr (addressOfPubKey scheme.toUInt8 pubKey).val)
  | .cryptoRandom outPtr => do
    charge gasRandom
    return out ins outPtr v.getBeacon.val
  | .contractCall addrPtr argsPtr argsLen => do
    charge gasServiceCall
    Host.require (vm.frames.length < maxDepChainDepth)
    orZero (ins.readAddr addrPtr) ins fun target =>
      orZero (ins.readMem argsPtr.toNat argsLen.toNat) ins fun calldata => do
        let r ← call target calldata
        return ([r], ins)
  | .contractIsActive addrPtr => do
    charge gasKVRead
    withContract v ins addrPtr fun acc => pure (val (if acc.isActive then 1 else 0) ins)
  | .contractGetCodeSize addrPtr => do
    charge gasKVRead
    withContract v ins addrPtr fun acc => pure (val acc.source.length ins)
  | .contractGetCode addrPtr ptr =>
    withContract v ins addrPtr fun acc => do
      charge (gasKVRead + acc.source.length / 8)
      return out ins ptr acc.source
  | .contractCodeHash addrPtr ptr =>
    withContract v ins addrPtr fun acc => do
      if acc.source = [] then return val 0 ins
      charge (gasKVRead + acc.source.length / 8)
      return out ins ptr (hash256 acc.source).val
  | .service module exportName args => do
    let rets ← service module exportName args
    return (rets, ins)

/-- **`hostCall`** — one host call. -/
def hostCall (call : Address → Bytes → Host Val) (service : String → String → List Val → Host (List Val))
    (c : HostCall) (ins : Instance) : Host HostRet := fun vm =>
  hostBody v owner call service ins vm c vm

end VM
end Host
end NgCore
