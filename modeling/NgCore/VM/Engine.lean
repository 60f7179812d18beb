/-
# NgCore.VM.Engine — the wasm engine, as seen from the node

The engine (wasman) is a third-party package: what the node relies on is a decoder from bytes to
modules, the import and export sections of a module, and that calling an exported function runs it to a
return or a trap, asking the host along the way. A run is a TREE (`Prog`): it burns toll, calls host
functions, and ends; the answer of the host selects the branch. An engine is ANY assignment of such
trees to modules, so every statement below holds whatever the code of a contract computes. Trees are
finite on every branch: toll bounds every run.

The toll station of a run belongs to the same package: what it accepts is its own choice, within its limit.

`Engine` also carries the other third-party decoders the state layer calls: inflate, base58, and the RLP
decoders of call data and dependency lists.
-/
import NgCore.Types.Contract

namespace NgCore

/-! ## §1 — runs as trees -/

/-- A raw wasm value. -/
abbrev Val := UInt64

inductive ValType where
  | i32 | i64 | f32 | f64
  deriving DecidableEq, Repr

/-- **`FuncType`** — parameter and result types. -/
structure FuncType where
  inputTypes : List ValType
  returnTypes : List ValType
  deriving DecidableEq, Repr

/-- **`Instance`** — what an instantiated module carries from call to call. -/
structure Instance where
  memory : Option Bytes
  globals : List Val
  deriving DecidableEq

/-- **`HostCall`** — the host functions a contract can import, with their arguments (`service` is an
export of a linked dependency). -/
inductive HostCall where
  | logDebug (ptr size : UInt32)
  | logError (ptr size : UInt32)
  | logEmit (topicPtr topicLen dataPtr dataLen : UInt32)
  | addressGetSize
  | addressGetHost (ptr : UInt32)
  | addressGetCaller (ptr : UInt32)
  | coinGetBalance (addrPtr ptr : UInt32)
  | coinTransfer (toPtr valuePtr : UInt32)
  | kvGetSize (keyPtr keyLen : UInt32)
  | kvGet (keyPtr keyLen valPtr : UInt32)
  | kvSet (keyPtr keyLen valPtr valLen : UInt32)
  | kvCount (prefixPtr prefixLen : UInt32)
  | kvKeySizeAt (prefixPtr prefixLen index : UInt32)
  | kvKeyAt (prefixPtr prefixLen index outPtr : UInt32)
  | kvDel (keyPtr keyLen : UInt32)
  | txGetHashSize
  | txGetHash (ptr : UInt32)
  | txGetNetwork
  | txGetHeight
  | txGetTimestamp
  | txGetPaid (ptr : UInt32)
  | txGetFrom (ptr : UInt32)
  | txGetTo (ptr : UInt32)
  | txGetFeeSize
  | txGetFee (ptr : UInt32)
  | txGetExtraSize
  | txGetExtra (ptr : UInt32)
  | envGetGas
  | envBufSet (slot ptr size : UInt32)
  | envBufSize (slot : UInt32)
  | envBufGet (slot ptr : UInt32)
  | cryptoBlake3 (ptr size out : UInt32)
  | cryptoVerify (scheme pkPtr pkLen hashPtr sigPtr sigLen : UInt32)
  | cryptoAddrOf (scheme pkPtr pkLen out : UInt32)
  | cryptoRandom (out : UInt32)
  | contractCall (addrPtr argsPtr argsLen : UInt32)
  | contractIsActive (addrPtr : UInt32)
  | contractGetCodeSize (addrPtr : UInt32)
  | contractGetCode (addrPtr ptr : UInt32)
  | contractCodeHash (addrPtr ptr : UInt32)
  | service (module exportName : String) (args : List Val)
  deriving DecidableEq

/-- **`Prog`** — the run of one function. Every node carries the instance as the code has left it. -/
inductive Prog where
  | ret (vals : List Val) (ins : Instance)
  | trap (ins : Instance)
  | tick (toll : Nat) (ins : Instance) (k : Prog)
  | host (c : HostCall) (ins : Instance) (k : List Val → Instance → Prog)

/-- Every host call of the run, on every branch, satisfies `φ`. -/
def Prog.All (φ : HostCall → Prop) : Prog → Prop
  | .ret _ _ => True
  | .trap _ => True
  | .tick _ _ k => k.All φ
  | .host c _ k => φ c ∧ ∀ vals ins, (k vals ins).All φ

/-! ## §2 — modules -/

/-- **`Module`** — a decoded and validated module. -/
structure Module where
  /-- The import section: module and field names. -/
  imports : List (String × String)
  /-- The export section; the signature is present for functions the module itself defines. -/
  exports : List (String × Option FuncType)
  /-- A fresh instance. -/
  fresh : Instance
  /-- The start function, which instantiation runs. -/
  start : Option (Instance → Prog)
  /-- The callable exports: arity and run. -/
  func : String → Option (Nat × (List Val → Instance → Prog))

/-- **`exportFuncSig`** — the type of an exported function of the module's own. -/
def Module.exportFuncSig (m : Module) (exportName : String) : Option FuncType :=
  (m.exports.find? fun e => e.1 = exportName).bind Prod.snd

/-! ## §3 — the engine and the other decoders -/

/-- **`Engine`** — the third-party code the state layer calls. -/
class Engine extends Crypto where
  /-- `flate` decompression, bounded. -/
  inflate : Bytes → Option Bytes
  /-- RLP `CallData`: method and arguments. -/
  decodeCallData : Bytes → Option (String × Bytes)
  /-- RLP list of byte strings. -/
  decodeByteStrings : Bytes → Option (List Bytes)
  base58Decode : String → Option Bytes
  p256Verify : (pubKey hash sig : Bytes) → Bool
  /-- Parse and validate a wasm binary. -/
  newModule : Bytes → Option Module
  /-- Whether every import of a module resolves against the linked dependencies. -/
  resolves : Module → (linked : List (String × Module)) → Bool
  /-- `AddToll` of a toll station: whether it accepts the toll, and its total afterwards. -/
  addToll : (limit total toll : Nat) → Bool × Nat
  /-- A station adds toll within its limit, or refuses it and keeps its total. -/
  addToll_cases : ∀ limit total toll, addToll limit total toll = (true, total + toll) ∧ total + toll ≤ limit ∨
    addToll limit total toll = (false, total)

/-- **`Engine.ofHash`** — a concrete engine around a given hash and a given table of modules, for building
runs by hand: every import resolves, the toll station accepts what its limit allows, and the other decoders accept
nothing. -/
@[reducible] def Engine.ofHash (hash : Bytes → Bytes32) (modules : Bytes → Option Module) : Engine where
  toCrypto := Crypto.ofHash hash
  inflate _ := none
  decodeCallData _ := none
  decodeByteStrings _ := none
  base58Decode _ := none
  p256Verify _ _ _ := false
  newModule := modules
  resolves _ _ := true
  addToll limit total toll := if total + toll ≤ limit then (true, total + toll) else (false, total)
  addToll_cases limit total toll := by
    split
    · next hle => exact .inl ⟨rfl, hle⟩
    · exact .inr rfl

variable [Engine]

/-- **`newAddressFromBS58`** — a base58 string of an address's length. -/
def newAddressFromBS58 (s : String) : Option Address :=
  (Engine.base58Decode s).bind fun raw => if h : raw.length = 32 then some ⟨raw, h⟩ else none

def wasmMagic : Bytes := [0x00, 0x61, 0x73, 0x6d]

/-- **`loadContractWasm`** — the on-chain code must start with the magic and load. -/
def loadContractWasm (source : Bytes) : Option Module :=
  if source.take 4 = wasmMagic then Engine.newModule source else none

/-- **`contractHasExport`** — the module exports a zero-argument function of this name. -/
def contractHasExport (source : Bytes) (name : String) : Bool :=
  if source = [] then false
  else match Engine.newModule source with
    | none => false
    | some m => match m.exportFuncSig name with
      | some sig => sig.inputTypes = []
      | none => false

/-- **`verifyContractSig`** — the account schemes, and P-256 for contracts only. -/
def verifyContractSig (scheme : SigScheme) (pubKey hash sig : Bytes) : Bool :=
  if scheme = 0x02 then Engine.p256Verify pubKey hash sig else verifyHashSig scheme pubKey hash sig

/-! ## §4 — dependencies -/

def maxDepsPerContract : Nat := 32
def maxDepChainDepth : Nat := 8

/-- **`parseContractDeps`** — the imported module names that are addresses, once each. -/
def parseContractDeps (m : Module) : Except Err (List String) := do
  let deps := (m.imports.map Prod.fst).foldl
    (fun seen name => if (newAddressFromBS58 name).isSome ∧ name ∉ seen then seen ++ [name] else seen) []
  ensure (deps.length ≤ maxDepsPerContract) .depLimit
  return deps

/-- **`resolveDepAddr`** — a dependency identifier is the deployer's address. -/
def resolveDepAddr (raw : String) : Except Err Address :=
  match newAddressFromBS58 raw with
  | some addr => .ok addr
  | none => .error .depInvalidImport

/-- **`resolveDepAddrs`** — the unique addresses behind the identifiers. -/
def resolveDepAddrs (deps : List String) : Except Err (List Address) := do
  let addrs ← deps.mapM resolveDepAddr
  return addrs.foldl (fun seen addr => if addr ∈ seen then seen else seen ++ [addr]) []

/-- **`extractContractDeps`** — the dependencies a module declares. -/
def extractContractDeps (source : Bytes) : Except Err (List Address) :=
  if source = [] then .ok []
  else match loadContractWasm source with
    | none => .error .invalidWasm
    | some m => do resolveDepAddrs (← parseContractDeps m)

end NgCore
