/-
# NgCore.State.Hooks — who enters a contract's hooks

`ng:init`, `ng:upgrade` and `ng:validate` are run by the protocol: on the owner's own transactions, as the
outermost call. Call data cannot name them, neither in a transaction (`EntryFor`) nor in a dynamic call
(`resolveDynEntry`). A STATIC import can: `linkServiceDep` wraps every exported function of a dependency,
hooks included, and the wrapper enters it on a frame above the caller's.

So hooks are the protocol's exactly as long as no deployed code calls one of a dependency
(`ReachedBy.hooks_by_protocol`); with a contract that imports one, a stranger's payment runs another
contract's `ng:upgrade` (`import_enters_hook`).
-/
import NgCore.State.Attribution

namespace NgCore

/-! ## §1 — code that calls no hook -/

/-- The call enters a hook of a linked dependency. -/
def HostCall.callsHook : HostCall → Bool
  | .service _ exportName _ => isHook exportName
  | _ => false

/-- No function of the module, and not its start function, calls a hook. -/
structure Module.Hookless (m : Module) : Prop where
  func : ∀ entry arity f, m.func entry = some (arity, f) →
    ∀ args ins, (f args ins).All fun c => c.callsHook = false
  start : ∀ st, m.start = some st → (st m.fresh).All fun c => c.callsHook = false

/-- Everything but calling a hook is permitted. -/
def Permission.noHook : Permission := fun _ _ e => e ≠ .hook

theorem Prog.All.mono {φ ψ : HostCall → Prop} (h : ∀ c, φ c → ψ c) {p : Prog} (hp : p.All φ) : p.All ψ := by
  induction p with
  | ret vals ins => trivial
  | trap ins => trivial
  | tick toll ins k ih => exact ih hp
  | host c ins k ih => exact ⟨h c hp.1, fun vals ins => ih vals ins (hp.2 vals ins)⟩

theorem HostCall.effect_ne_hook {c : HostCall} (h : c.callsHook = false) : ∀ e, c.effect = some e → e ≠ .hook := by
  rintro _ he rfl
  cases c with
  | service name exportName args =>
    have hnot : isHook exportName = false := h
    simp only [HostCall.effect, hnot, Bool.false_eq_true, if_false] at he
    cases he
  | _ => cases he

theorem Module.Hookless.permitted {m : Module} (hm : m.Hookless) (b : Address) : m.Permitted Permission.noHook b where
  func _ entry arity f _ _ hf args ins :=
    (hm.func entry arity f hf args ins).mono fun _ hc => HostCall.effect_ne_hook hc
  start _ st _ hst := (hm.start st hst).mono fun _ hc => HostCall.effect_ne_hook hc

/-! ## §2 — one run -/

section Run

variable [Engine]

/-- An entered hook is the protocol's: outermost, at a place where the protocol runs it. -/
def RunNote.ByProtocol (n : RunNote) : Prop := ∀ tx a entry frames, n = .enter tx a entry frames →
  isHook entry = true → frames = [a] ∧ CallSite tx a entry

/-- The vm of a run of `tx` in which every entered hook is the protocol's. -/
structure VM.Guarded (tx : FullTx) (vm : VM) : Prop where
  caller : vm.caller = tx
  notes : ∀ n ∈ vm.notes, n.ByProtocol

theorem VM.Guarded.note {tx : FullTx} {vm vm' : VM} (h : vm.Guarded tx) {n : RunNote} (hn : n.ByProtocol)
    (hcaller : vm'.caller = vm.caller) (hnotes : vm'.notes = n :: vm.notes) : vm'.Guarded tx where
  caller := hcaller.trans h.caller
  notes := by
    rw [hnotes, List.forall_mem_cons]
    exact ⟨hn, h.notes⟩

theorem keeping_guarded (v : View) (owner : Address) (tx : FullTx) :
    Keeping v owner fun vm => vm.Guarded tx where
  load _ _ _ _ _ h := ⟨h.caller, h.notes⟩
  context _ _ _ _ _ _ _ h := h.note (by rintro _ _ _ _ ⟨⟩) rfl rfl
  move vm fromAddr toAddr value _ hpos hcov h := by
    rw [VM.transfer_covered hpos hcov]
    exact h.note (by rintro _ _ _ _ ⟨⟩) rfl rfl
  act _ h := h.note (by rintro _ _ _ _ ⟨⟩) rfl rfl
  underflow _ h := h.note (by rintro _ _ _ _ ⟨⟩) rfl rfl
  idle _ _ _ _ _ _ _ h := ⟨h.caller, h.notes⟩

theorem guarded_rule (v : View) (tx : FullTx) :
    Rule v Permission.noHook (fun _ => True) fun vm vm' => vm.Guarded tx → vm'.Guarded tx := by
  refine Rule.of_keeping ?_ ?_ ?_ ?_ ?_
  · exact fun F owner _ _ => (keeping_guarded v owner tx).framed F
  · exact (keeping_guarded v zero32 tx).vmContext
  · exact fun _ _ _ _ _ _ _ h => ⟨h.caller, h.notes⟩
  · exact fun _ _ h => ⟨h.caller, h.notes⟩
  · intro vm owner entry hhook h
    refine h.note ?_ rfl rfl
    intro tx' a entry' frames heq hentry
    obtain ⟨-, -, rfl, -⟩ := RunNote.enter.inj heq
    obtain ⟨_, _, hpermitted⟩ := hhook hentry
    exact absurd rfl hpermitted

/-- **A whole run is guarded**: linking enters no hook, and the entry itself is the one of the call site. -/
theorem guarded_runEntry {v : View} {account : Contract} {tx : FullTx} {blockTime : Nat} {m : Module}
    (hv : ∀ a acc m, v.contract a = some acc → loadContractWasm acc.source = some m → m.Hookless)
    (hm : m.Hookless) :
    (newVM v account tx blockTime m).2.Guarded tx ∧ ∀ entry gas, CallSite tx account.owner entry →
      ((newVM v account tx blockTime m).2.runEntry v account.owner m entry gas).2.Guarded tx := by
  have hdeployed : Deployed v Permission.noHook fun _ => True := fun a acc m hacc hload b _ =>
    ⟨trivial, (hv a acc m hacc hload).permitted b⟩
  have hnew := (guarded_rule v tx).newVM hdeployed account tx blockTime m
  have hguarded := hnew.moved ⟨rfl, fun _ h => by cases h⟩
  refine ⟨hguarded, ?_⟩
  intro entry gas hsite
  refine ((guarded_rule v tx).runEntry hdeployed (hm.permitted account.owner) ?_ ?_ hnew.frames
    hnew.ready).moved hguarded
  · intro ins arity f hf
    exact (hm.func _ arity f hf [] ins).mono fun _ hc => HostCall.effect_ne_hook hc
  · -- the outermost entry: the one asked for, or one that call data selects
    intro vm hframes h
    refine h.note ?_ rfl rfl
    intro tx' a entry' frames heq hentry
    obtain ⟨htx, ha, hentry', hframes'⟩ := RunNote.enter.inj heq
    refine ⟨?_, ?_⟩
    · rw [← hframes', ← ha, hframes]
    · rw [← htx, ← ha, ← hentry', h.caller]
      rw [← hentry'] at hentry
      unfold VM.entryFor at hentry ⊢
      split
      · exact hsite
      · next hselect =>
        rw [if_neg hselect] at hentry
        rw [isHook_resolveEntry] at hentry
        cases hentry

/-! ## §3 — every run -/

/-- The code, if it loads at all, calls no hook. -/
def Hookless (source : Bytes) : Prop := ∀ m, loadContractWasm source = some m → m.Hookless

theorem hookless_nil : Hookless [] := by
  intro m hm
  cases hm

theorem walks_hookless : Walks (View.Allowed Hookless) Hookless fun l => ∀ n ∈ l, n.ByProtocol where
  source v a account hv hacc := (hv a account hacc).1
  linked v a account tx blockTime m hv hacc hm :=
    (guarded_runEntry (fun b acc m hb => (hv b acc hb).1 m) ((hv a account hacc).1 m hm)).1.notes
  ran v a account tx blockTime m entry gas hv hacc hm hsite := by
    rw [← (hv a account hacc).2] at hsite
    exact ((guarded_runEntry (fun b acc m hb => (hv b acc hb).1 m) ((hv a account hacc).1 m hm)).2 entry gas
      hsite).notes
  underflow := by
    intro n hn tx a entry frames henter
    rw [List.mem_singleton.mp hn] at henter
    cases henter

/-- **Hooks run only by protocol**, in every run of every block, nested to any depth, as long as no code
that calls a dependency's hook is ever deployed or seeded: as the outermost call, on a transaction of the
contract's owner, and `ng:init` and `ng:upgrade` only on its deploys. -/
theorem ReachedBy.hooks_by_protocol {s : State} (h : ReachedBy Hookless s) :
    ∀ tx a entry frames, .run (.enter tx a entry frames) ∈ s.log → isHook entry = true →
      frames = [a] ∧ tx.fromAddr = .ok a ∧
        (entry = entryOnValidate ∨ tx.type = deployTx ∧ (entry = entryOnUpgrade ∨ entry = entryOnActivate)) := by
  intro tx a entry frames hmem hhook
  obtain ⟨hframes, hsite⟩ := (h.traced hookless_nil walks_hookless).runs _ hmem tx a entry frames rfl hhook
  refine ⟨hframes, ?_⟩
  rcases hsite with ⟨rfl, -⟩ | hsite
  · exact absurd hhook (by decide)
  · exact hsite

end Run

/-! ## §4 — contracts with dependencies, by hand -/

/-- The 33-byte items of an encoded list of addresses. -/
def addressItems : (fuel : Nat) → Bytes → List Bytes
  | 0, _ => []
  | fuel + 1, b => if b = [] then [] else (b.drop 1).take 32 :: addressItems fuel (b.drop 33)

/-- The hand-made engine in which `names` are the import names of contracts, by key. -/
@[reducible] def Engine.linking (names : String → Option UInt8) (modules : Bytes → Option Module) : Engine :=
  { Engine.byHand modules with
    base58Decode := fun name => (names name).map fun i => (@handAddr (Crypto.ofHash handHash) i).val
    decodeByteStrings := fun b => some (addressItems b.length (b.drop (1 + ((b.headD 0).toNat - 247)))) }

/-- The contract of key 8 can be imported as `eight`. -/
def eightName (name : String) : Option UInt8 := if name = "eight" then some 8 else none

/-- A contract whose entry and hooks do nothing. -/
def hookedModule : Module where
  imports := []
  exports := [(entryOnTx, some ⟨[], []⟩), (entryOnActivate, some ⟨[], []⟩), (entryOnUpgrade, some ⟨[], []⟩)]
  fresh := ⟨none, []⟩
  start := none
  func entry := if entry = entryOnTx ∨ entry = entryOnActivate ∨ entry = entryOnUpgrade then
    some (0, fun _ ins => .ret [] ins) else none

/-- A contract whose entry calls the export `target` of the contract `eight`. -/
def importerModule (target : String) : Module where
  imports := [("eight", target)]
  exports := [(entryOnTx, some ⟨[], []⟩)]
  fresh := ⟨none, []⟩
  start := none
  func entry := if entry = entryOnTx then
    some (0, fun _ ins => .host (.service "eight" target []) ins fun _ ins => .ret [] ins) else none

def hookedCode : Bytes := wasmMagic ++ [1]
def importerCode : Bytes := wasmMagic ++ [2]

def importerTable (target : String) (source : Bytes) : Option Module :=
  if source = hookedCode then some hookedModule
  else if source = importerCode then some (importerModule target)
  else none

/-- Key 8 deploys the contract with hooks, then key 7 the importer. -/
def importerChain : List FullBlock :=
  letI := Crypto.ofHash handHash
  let b1 := handSeal handGenesis 7 [] []
  let b2 := handSeal b1 8 [] [handCommit 8 2 0 (handDeploy 8 3 hookedCode)]
  -- the importer is checked against the state its block is applied to, so it comes a block later
  let b3 := handSeal b2 9 [handDeploy 8 3 hookedCode] [handCommit 7 3 0 (handDeploy 7 4 importerCode)]
  let b4 := handSeal b3 9 [handDeploy 7 4 importerCode] [handCommit 9 4 0 (handPay 9 5 (handAddr 7) 0)]
  -- key 9, who owns neither, pays the importer
  [b1, b2, b3, b4, handSeal b4 9 [handPay 9 5 (handAddr 7) 0] []]

/-- Only the two modules of the table load. -/
theorem loadContractWasm_importerTable {target : String} {source : Bytes} {m : Module} :
    letI := Engine.linking eightName (importerTable target)
    loadContractWasm source = some m → m = hookedModule ∨ m = importerModule target := by
  let _ := Engine.linking eightName (importerTable target)
  intro hm
  unfold loadContractWasm at hm
  split at hm
  · replace hm : importerTable target source = some m := hm
    unfold importerTable at hm
    split at hm
    · exact .inl (Option.some.inj hm).symm
    · split at hm
      · exact .inr (Option.some.inj hm).symm
      · cases hm
  · cases hm

theorem hookless_importerTable :
    letI := Engine.linking eightName (importerTable entryOnTx)
    ∀ source, Hookless source := by
  let _ := Engine.linking eightName (importerTable entryOnTx)
  intro source m hm
  rcases loadContractWasm_importerTable hm with rfl | rfl
  · refine ⟨?_, fun st hst => by cases hst⟩
    intro entry arity f hf args ins
    unfold hookedModule at hf
    dsimp only at hf
    split at hf
    · obtain ⟨-, rfl⟩ := Prod.mk.inj (Option.some.inj hf)
      trivial
    · cases hf
  · refine ⟨?_, fun st hst => by cases hst⟩
    intro entry arity f hf args ins
    unfold importerModule at hf
    dsimp only at hf
    split at hf
    · obtain ⟨-, rfl⟩ := Prod.mk.inj (Option.some.inj hf)
      exact ⟨by decide, fun _ _ => trivial⟩
    · cases hf

/-- The deploy of key 8 runs its `ng:init`; the importer calls its plain entry; every hook is the
protocol's. -/
theorem hooks_by_protocol_importerChain :
    letI := Engine.linking eightName (importerTable entryOnTx)
    ∃ s, ReachedBy Hookless s ∧
      .run (.enter (handDeploy 8 3 hookedCode) (handAddr 8) entryOnActivate [handAddr 8]) ∈ s.log ∧
      .run (.enter (handPay 9 5 (handAddr 7) 0) (handAddr 8) entryOnTx [handAddr 8, handAddr 7]) ∈ s.log ∧
      ∀ tx a entry frames, .run (.enter tx a entry frames) ∈ s.log → isHook entry = true →
        frames = [a] ∧ tx.fromAddr = .ok a ∧
          (entry = entryOnValidate ∨ tx.type = deployTx ∧ (entry = entryOnUpgrade ∨ entry = entryOnActivate)) := by
  let _ := Engine.linking eightName (importerTable entryOnTx)
  let result := upgradeAll ⟨ZERONET, false⟩ importerChain (State.genesis false)
  have hall : result.isOk = true ∧
      .run (.enter (handDeploy 8 3 hookedCode) (handAddr 8) entryOnActivate [handAddr 8]) ∈ (State.after result).log ∧
      .run (.enter (handPay 9 5 (handAddr 7) 0) (handAddr 8) entryOnTx [handAddr 8, handAddr 7]) ∈
        (State.after result).log := by
    decide +kernel
  have hrun := upgradesTo_of_upgradeAll (State.eq_after hall.1)
  have hreached := (ReachedBy.genesis (State.genesis_eq false)).upgradesTo
    (fun _ _ _ _ _ source _ => hookless_importerTable source) hrun
  exact ⟨_, hreached, hall.2.1, hall.2.2, hreached.hooks_by_protocol⟩

/-- **A static import enters a hook**: the payment of a stranger runs the `ng:upgrade` of key 8, one frame
above the importer. -/
theorem import_enters_hook :
    letI := Engine.linking eightName (importerTable entryOnUpgrade)
    ∃ s, UpgradesTo ⟨ZERONET, false⟩ (State.genesis false) importerChain s ∧
      .run (.enter (handPay 9 5 (handAddr 7) 0) (handAddr 8) entryOnUpgrade [handAddr 8, handAddr 7]) ∈ s.log ∧
      (handPay 9 5 (handAddr 7) 0).fromAddr = .ok (handAddr 9) ∧ handAddr 9 ≠ handAddr 8 ∧
      (handPay 9 5 (handAddr 7) 0).type = transactTx := by
  let _ := Engine.linking eightName (importerTable entryOnUpgrade)
  let result := upgradeAll ⟨ZERONET, false⟩ importerChain (State.genesis false)
  have hall : result.isOk = true ∧
      .run (.enter (handPay 9 5 (handAddr 7) 0) (handAddr 8) entryOnUpgrade [handAddr 8, handAddr 7]) ∈
        (State.after result).log ∧
      (handPay 9 5 (handAddr 7) 0).fromAddr = .ok (handAddr 9) ∧ handAddr 9 ≠ handAddr 8 := by
    decide +kernel
  rcases hall with ⟨hok, hlog, hfrom, hne⟩
  exact ⟨_, upgradesTo_of_upgradeAll (State.eq_after hok), hlog, hfrom, hne, rfl⟩

end NgCore
