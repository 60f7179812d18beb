/-
# NgCore.VM.Rules — what holds of every contract run

One rule, proved by following the code once, from which every property of contract runs is derived.

A property is a relation `P` between the vm before and after (reflexive, transitive). To prove it of
whole runs — outer entry, static services, dynamic calls nested to any depth, start functions, traps —
it is enough to show it of the few UNITS that change the run (`Rule`): burning toll, loading an account,
storing or dropping a key with its bond, spending, emitting, linking, entering a frame and entering an export. The relation says nothing about frames; that every operation gives the frames back
is part of the rule itself.

What code may do can be restricted by a PERMISSION `A frames owner effect`: code of `owner` running on
those frames may have that effect on the executing address. `Module.Permitted` collects what the modules
have to satisfy.
-/
import Mathlib.Order.Defs.Unbundled
import NgCore.VM.Exec

namespace NgCore

/-! ## §1 — effects and permissions -/

/-- **`Effect`** — the ways a host call acts on the executing address; `hook` enters a hook of a linked
dependency. -/
inductive Effect where
  | storage | coin | event | hook
  deriving DecidableEq

/-- The effect of a host call, if it has one. -/
def HostCall.effect : HostCall → Option Effect
  | .kvSet _ _ _ _ | .kvDel _ _ => some .storage
  | .coinTransfer _ _ => some .coin
  | .logEmit _ _ _ _ => some .event
  | .service _ exportName _ => if isHook exportName then some .hook else none
  | _ => none

/-- **`Permission`** — what code of an owner may do on given frames. -/
abbrev Permission := (frames : List Address) → (owner : Address) → Effect → Prop

/-- The run stays inside the permission. -/
def Prog.Within (A : Permission) (frames : List Address) (owner : Address) (p : Prog) : Prop :=
  p.All fun c => ∀ e, c.effect = some e → A frames owner e

/-- **`Permitted A b m`** — `m`, as the code of `b`, keeps to the permission: its exports on a frame of its
own above others, its start function wherever it is instantiated. -/
structure Module.Permitted (A : Permission) (b : Address) (m : Module) : Prop where
  func : ∀ frames entry arity f, frames ≠ [] → b ∉ frames → m.func entry = some (arity, f) →
    ∀ args ins, (f args ins).Within A (b :: frames) b
  start : ∀ frames st, frames ≠ [] → m.start = some st → (st m.fresh).Within A frames b

theorem Prog.all_of_forall {φ : HostCall → Prop} (h : ∀ c, φ c) (p : Prog) : p.All φ := by
  induction p with
  | ret vals ins => trivial
  | trap ins => trivial
  | tick toll ins k ih => exact ih
  | host c ins k ih => exact ⟨h c, ih⟩

theorem Module.permitted_of_forall {A : Permission} (h : ∀ frames owner e, A frames owner e)
    (b : Address) (m : Module) : m.Permitted A b where
  func _ _ _ _ _ _ _ _ _ := Prog.all_of_forall (fun _ _ _ => h _ _ _) _
  start _ _ _ _ := Prog.all_of_forall (fun _ _ _ => h _ _ _) _

/-! ## §2 — the rule -/

/-- `kv.set` past its checks: the bond, then the entry. -/
def VM.storeKey (v : View) (owner : Address) (key value : Bytes) : Host Unit := do
  VM.bondSet v owner key (key.length + value.length)
  VM.putKey v owner key value

/-- `kv.del` past its checks: the bond, then the entry. -/
def VM.dropKey (v : View) (owner : Address) (key : Bytes) : Host Unit := do
  VM.bondDel v owner key
  VM.delKey v owner key

/-- **`Rule v A D P`** — the units of a run move along `P`. -/
structure Rule (v : View) (A : Permission) (D : Address → Prop) (P : VM → VM → Prop) : Prop where
  refl : ∀ vm, P vm vm
  trans : ∀ {vm vm' vm''}, P vm vm' → P vm' vm'' → P vm vm''
  /-- Toll, call arguments, events, transfer slots, linked instances. -/
  idle : ∀ (vm : VM) toll preburn args events bufs linker,
    P vm { vm with toll, tollPreburn := preburn, callArgs := args, events, bufs, linker }
  load : ∀ vm, P vm (VM.vmContext v vm).2
  /-- The bond of an entry and the entry. -/
  set : ∀ vm owner key value, A vm.frames owner .storage → isReservedKey key = false →
    P vm (VM.storeKey v owner key value vm).2
  unset : ∀ vm owner key, A vm.frames owner .storage → isReservedKey key = false →
    P vm (VM.dropKey v owner key vm).2
  spend : ∀ vm owner toAddr value, A vm.frames owner .coin → P vm (VM.spend v owner toAddr value vm).2
  emitAs : ∀ vm owner topic data, A vm.frames owner .event → P vm (VM.emitAs owner topic data vm).2
  frame : ∀ (vm vm' : VM) a, D a → vm.frames ≠ [] → a ∉ vm.frames →
    vm'.frames = a :: vm.frames → P { vm with frames := a :: vm.frames } vm' →
    P vm { vm' with frames := vm.frames }
  enter : ∀ (vm : VM) owner entry, isHook entry = false → P vm (vm.enter owner entry)
  /-- A hook is entered above the frames of the code that calls it. -/
  hook : ∀ (vm : VM) owner entry caller, A vm.frames.tail caller .hook → P vm (vm.enter owner entry)

/-- A run can proceed: some frame executes, and every linked dependency keeps to the permission. -/
structure VM.Ready (A : Permission) (D : Address → Prop) (vm : VM) : Prop where
  frames : vm.frames ≠ []
  linker : ∀ e ∈ vm.linker, D e.2.addr ∧ e.2.module.Permitted A e.2.addr

/-- **`Lands`** — `P` holds, the frames are `F`, and the vm is ready. -/
structure VM.Lands (A : Permission) (D : Address → Prop) (P : VM → VM → Prop) (F : List Address)
    (vm vm' : VM) : Prop where
  moved : P vm vm'
  frames : vm'.frames = F
  ready : vm'.Ready A D

/-- **`On F x`** — started on the frames `F`, the operation moves along `P` and gives the frames back,
whether it panics or not. -/
def Host.On {α : Type} (A : Permission) (D : Address → Prop) (P : VM → VM → Prop) (F : List Address)
    (x : Host α) : Prop :=
  ∀ vm : VM, vm.frames = F → vm.Ready A D → vm.Lands A D P F (x vm).2

section Combinators

variable {v : View} {A : Permission} {D : Address → Prop} {P : VM → VM → Prop} {F : List Address}
  {α β : Type}

theorem Rule.lands (hP : Rule v A D P) {vm vm' vm'' : VM} (h : vm.Lands A D P F vm')
    (h' : vm'.Lands A D P F vm'') : vm.Lands A D P F vm'' :=
  ⟨hP.trans h.moved h'.moved, h'.frames, h'.ready⟩

theorem Rule.stay (hP : Rule v A D P) {vm : VM} (hF : vm.frames = F) (hready : vm.Ready A D) :
    vm.Lands A D P F vm :=
  ⟨hP.refl vm, hF, hready⟩

namespace Host.On

theorem same (hP : Rule v A D P) {x : Host α} (h : ∀ vm, (x vm).2 = vm) : Host.On A D P F x := by
  intro vm hF hready
  rw [h vm]
  exact hP.stay hF hready

theorem pure (hP : Rule v A D P) (a : α) : Host.On A D P F (Pure.pure a) := same hP fun _ => rfl

theorem panic (hP : Rule v A D P) : Host.On A D P F (Host.panic : Host α) := same hP fun _ => rfl

theorem get (hP : Rule v A D P) : Host.On A D P F Host.get := same hP fun _ => rfl

theorem ofOption (hP : Rule v A D P) (o : Option α) : Host.On A D P F (Host.ofOption o) := by
  cases o with
  | none => exact panic hP
  | some a => exact pure hP a

theorem bind (hP : Rule v A D P) {x : Host α} {f : α → Host β} (hx : Host.On A D P F x)
    (hf : ∀ a, Host.On A D P F (f a)) : Host.On A D P F (x >>= f) := by
  intro vm hF hready
  have hland := hx vm hF hready
  show vm.Lands A D P F (Host.bind x f vm).2
  unfold Host.bind
  cases hxv : x vm with
  | mk o vm' =>
    rw [hxv] at hland
    cases o with
    | none => exact hland
    | some a => exact hP.lands hland (hf a vm' hland.frames hland.ready)

/-- What follows a read of the vm may rely on its frames and dependencies. -/
theorem get_bind {f : VM → Host β}
    (hf : ∀ vm : VM, vm.frames = F → vm.Ready A D → Host.On A D P F (f vm)) :
    Host.On A D P F (Host.get >>= f) :=
  fun vm hF hready => hf vm hF hready vm hF hready

/-- What follows an optional value may rely on where it comes from. -/
theorem ofOption_bind (hP : Rule v A D P) {o : Option α} {f : α → Host β}
    (hf : ∀ a, o = some a → Host.On A D P F (f a)) : Host.On A D P F (Host.ofOption o >>= f) := by
  cases o with
  | none => exact panic hP
  | some a => exact hf a rfl

theorem attempt {x : Host α} (hx : Host.On A D P F x) : Host.On A D P F x.attempt := hx

theorem forM (hP : Rule v A D P) {f : β → Host Unit} {l : List β} (h : ∀ b ∈ l, Host.On A D P F (f b)) :
    Host.On A D P F (l.forM f) := by
  induction l with
  | nil => exact pure hP ()
  | cons b l ih =>
    refine bind hP (h b List.mem_cons_self) ?_
    intro _
    exact ih fun b' hb' => h b' (List.mem_cons_of_mem b hb')

theorem require (hP : Rule v A D P) {c : Prop} [Decidable c] : Host.On A D P F (Host.require c) := by
  apply same hP
  intro vm
  unfold Host.require
  split <;> rfl

theorem require_bind (hP : Rule v A D P) {c : Prop} [Decidable c] {f : Unit → Host β}
    (hf : c → Host.On A D P F (f ())) : Host.On A D P F (Host.require c >>= f) := by
  unfold Host.require
  split
  · next h => exact hf h
  · exact panic hP

theorem when (hP : Rule v A D P) {c : Prop} [Decidable c] {x : Host Unit}
    (hx : Host.On A D P F x) : Host.On A D P F (Host.when c x) := by
  unfold Host.when
  split
  · exact hx
  · exact pure hP ()

/-- A unit: it changes neither the frames nor the linked dependencies. -/
theorem of_unit {x : Host α} (hp : ∀ vm, vm.frames = F → P vm (x vm).2)
    (hsame : ∀ vm, (x vm).2.frames = vm.frames ∧ (x vm).2.linker = vm.linker) : Host.On A D P F x := by
  intro vm hF hready
  obtain ⟨hframes, hlinker⟩ := hsame vm
  refine ⟨hp vm hF, hframes.trans hF, ?_, ?_⟩
  · rw [hframes]
    exact hready.frames
  · rw [hlinker]
    exact hready.linker

theorem onSome (hP : Rule v A D P) {o : Option α} {ins : Instance} {k : α → Host HostRet}
    (h : ∀ a, o = some a → Host.On A D P F (k a)) : Host.On A D P F (orZero o ins k) := by
  cases o with
  | none => exact pure hP _
  | some a => exact h a rfl

theorem ite {c : Prop} [Decidable c] {x y : Host α} (hx : c → Host.On A D P F x)
    (hy : ¬c → Host.On A D P F y) : Host.On A D P F (if c then x else y) := by
  split
  · next h => exact hx h
  · next h => exact hy h

end Host.On
end Combinators

/-! ## §3 — the units give frames and dependencies back -/

namespace Host

variable {α β : Type} {R : VM → VM → Prop}

theorem bind_assoc {γ : Type} (x : Host α) (f : α → Host β) (g : β → Host γ) :
    x >>= f >>= g = x >>= fun a => f a >>= g := by
  funext vm
  show Host.bind (Host.bind x f) g vm = Host.bind x (fun a => Host.bind (f a) g) vm
  unfold Host.bind
  cases x vm with
  | mk o vm' => cases o <;> rfl

theorem via_bind [IsTrans VM R] {x : Host α} {f : α → Host β} (hx : x.Via R) (hf : ∀ a, (f a).Via R) :
    (x >>= f).Via R := by
  intro vm
  have hstep := hx vm
  show R vm (Host.bind x f vm).2
  unfold Host.bind
  cases hxv : x vm with
  | mk o vm' =>
    rw [hxv] at hstep
    cases o with
    | none => exact hstep
    | some a => exact trans_of R hstep (hf a vm')

theorem via_same [Std.Refl R] {x : Host α} (h : ∀ vm, (x vm).2 = vm) : x.Via R := by
  intro vm
  rw [h vm]
  exact refl_of R vm

theorem via_pure [Std.Refl R] (a : α) : (pure a : Host α).Via R := via_same fun _ => rfl

theorem via_get [Std.Refl R] : get.Via R := via_same fun _ => rfl

theorem via_require [Std.Refl R] {c : Prop} [Decidable c] : (require c).Via R := by
  apply via_same
  intro vm
  unfold require
  split <;> rfl

theorem via_when [Std.Refl R] {c : Prop} [Decidable c] {x : Host Unit} (hx : x.Via R) : (when c x).Via R := by
  unfold when
  split
  · exact hx
  · exact via_pure ()

theorem via_ite {c : Prop} [Decidable c] {x y : Host α} (hx : x.Via R) (hy : y.Via R) :
    (if c then x else y).Via R := by
  split
  · exact hx
  · exact hy

end Host

/-- Frames and linked dependencies are as before. -/
def VM.SameCalls (vm vm' : VM) : Prop := vm'.frames = vm.frames ∧ vm'.linker = vm.linker

instance : Std.Refl VM.SameCalls := ⟨fun _ => ⟨rfl, rfl⟩⟩

instance : IsTrans VM VM.SameCalls := ⟨fun _ _ _ h h' => ⟨h'.1.trans h.1, h'.2.trans h.2⟩⟩

namespace VM

variable {v : View} {owner : Address}

theorem same_act : (act owner).Via SameCalls := fun _ => ⟨rfl, rfl⟩

theorem same_charge [Engine] (cost : Nat) : (charge cost).Via SameCalls := by
  intro vm
  rcases charge_cases cost vm with ⟨h, -⟩ | h <;> rw [h] <;> exact ⟨rfl, rfl⟩

theorem same_contractOf (a : Address) : (contractOf v a).Via SameCalls := by
  intro vm
  unfold contractOf
  split
  · exact ⟨rfl, rfl⟩
  · split <;> exact ⟨rfl, rfl⟩

theorem same_vmContext : (vmContext v).Via SameCalls := by
  intro vm
  have h := same_contractOf (v := v) vm.currentAddress vm
  unfold vmContext
  split <;> next heq => rwa [heq] at h

theorem same_setContext (w : ContextWrite) : (setContext v w).Via SameCalls := by
  intro vm
  have h := same_contractOf (v := v) vm.currentAddress vm
  unfold setContext
  split <;> next heq => rwa [heq] at h

theorem same_transfer (fromAddr toAddr : Address) (value : Int) :
    (transfer v fromAddr toAddr value).Via SameCalls := by
  intro vm
  unfold transfer
  dsimp only
  split <;> exact ⟨rfl, rfl⟩

theorem same_lockDeposit (amount : Nat) : (lockDeposit v owner amount).Via SameCalls := by
  unfold lockDeposit
  refine Host.via_ite (Host.via_pure ()) ?_
  refine Host.via_bind Host.via_get fun vm => ?_
  refine Host.via_bind (same_transfer _ _ _) fun ok => ?_
  refine Host.via_bind Host.via_require fun _ => ?_
  refine Host.via_bind same_act fun _ => ?_
  exact Host.via_bind same_vmContext fun ctx => same_setContext _

theorem same_refundDeposit (amount : Nat) : (refundDeposit v owner amount).Via SameCalls := by
  unfold refundDeposit
  refine Host.via_ite (Host.via_pure ()) ?_
  refine Host.via_bind same_vmContext fun ctx => ?_
  refine Host.via_bind Host.via_get fun vm => ?_
  refine Host.via_bind (Host.via_when fun _ => ⟨rfl, rfl⟩) fun _ => ?_
  refine Host.via_ite (Host.via_pure ()) ?_
  refine Host.via_bind (same_transfer _ _ _) fun ok => ?_
  refine Host.via_ite (Host.via_pure ()) ?_
  exact Host.via_bind same_act fun _ => same_setContext _

theorem same_bondSet (key : Bytes) (newSize : Nat) : (bondSet v owner key newSize).Via SameCalls := by
  unfold bondSet
  refine Host.via_bind Host.via_get fun vm => Host.via_ite (Host.via_pure ()) ?_
  refine Host.via_bind same_vmContext fun ctx => Host.via_ite (same_lockDeposit _) ?_
  exact Host.via_ite (same_refundDeposit _) (Host.via_pure ())

theorem same_bondDel (key : Bytes) : (bondDel v owner key).Via SameCalls := by
  unfold bondDel
  refine Host.via_bind Host.via_get fun vm => Host.via_ite (Host.via_pure ()) ?_
  exact Host.via_bind same_vmContext fun ctx => Host.via_when (same_refundDeposit _)

theorem same_putKey (key value : Bytes) : (putKey v owner key value).Via SameCalls :=
  Host.via_bind same_vmContext fun _ => Host.via_bind same_act fun _ => same_setContext _

theorem same_delKey (key : Bytes) : (delKey v owner key).Via SameCalls :=
  Host.via_bind same_vmContext fun _ => Host.via_bind same_act fun _ => same_setContext _

theorem same_storeKey (key value : Bytes) : (storeKey v owner key value).Via SameCalls :=
  Host.via_bind (same_bondSet key _) fun _ => same_putKey key value

theorem same_dropKey (key : Bytes) : (dropKey v owner key).Via SameCalls :=
  Host.via_bind (same_bondDel key) fun _ => same_delKey key

theorem same_spend (toAddr : Address) (value : Nat) : (spend v owner toAddr value).Via SameCalls :=
  Host.via_bind Host.via_get fun _ => Host.via_bind (same_transfer _ _ _) fun _ =>
    Host.via_bind (Host.via_when same_act) fun _ => Host.via_pure _

theorem same_emitAs (topic data : Bytes) : (emitAs owner topic data).Via SameCalls :=
  Host.via_bind Host.via_get fun _ => Host.via_bind same_act fun _ => fun _ => ⟨rfl, rfl⟩

end VM

/-! ## §4 — the host functions -/

section HostFunctions

variable [Engine] {v : View} {A : Permission} {D : Address → Prop} {P : VM → VM → Prop} {F : List Address}
  {owner : Address}

open Host.On (bind pure get onSome)

theorem Rule.charge (hP : Rule v A D P) (cost : Nat) : (VM.charge cost).On A D P F := by
  refine Host.On.of_unit (fun vm _ => ?_) (VM.same_charge cost)
  rcases VM.charge_cases cost vm with ⟨h, -⟩ | h
  · rw [h]
    exact hP.idle vm _ vm.tollPreburn vm.callArgs vm.events vm.bufs vm.linker
  · rw [h]
    exact hP.refl vm

omit [Engine] in
theorem Rule.vmContext (hP : Rule v A D P) : (VM.vmContext v).On A D P F :=
  Host.On.of_unit (fun vm _ => hP.load vm) VM.same_vmContext

omit [Engine] in
theorem Rule.emit (hP : Rule v A D P) (e : Event) : (VM.emit e).On A D P F :=
  Host.On.of_unit
    (fun vm _ => hP.idle vm vm.toll vm.tollPreburn vm.callArgs (vm.events ++ [e]) vm.bufs vm.linker)
    fun _ => ⟨rfl, rfl⟩

theorem Rule.kvSet (hP : Rule v A D P) (hA : A F owner .storage) (ins : Instance)
    (keyPtr keyLen valPtr valLen : UInt32) :
    (VM.kvSet v owner ins keyPtr keyLen valPtr valLen).On A D P F := by
  unfold VM.kvSet
  refine bind hP (hP.charge _) fun _ => onSome hP fun key _ => ?_
  refine Host.On.require_bind hP fun hkey => onSome hP fun value _ => ?_
  have hunit : (VM.storeKey v owner key value).On A D P F :=
    Host.On.of_unit (fun vm hF => hP.set vm owner key value (hF ▸ hA) hkey) (VM.same_storeKey key value)
  have hassoc := bind hP hunit fun _ => pure hP (HostRet.val 1 ins)
  rwa [VM.storeKey, Host.bind_assoc] at hassoc

theorem Rule.kvDel (hP : Rule v A D P) (hA : A F owner .storage) (ins : Instance)
    (keyPtr keyLen : UInt32) : (VM.kvDel v owner ins keyPtr keyLen).On A D P F := by
  unfold VM.kvDel
  refine bind hP (hP.charge _) fun _ => onSome hP fun key _ => ?_
  refine Host.On.require_bind hP fun hkey => ?_
  have hunit : (VM.dropKey v owner key).On A D P F :=
    Host.On.of_unit (fun vm hF => hP.unset vm owner key (hF ▸ hA) hkey) (VM.same_dropKey key)
  have hassoc := bind hP hunit fun _ => pure hP (HostRet.val 1 ins)
  rwa [VM.dropKey, Host.bind_assoc] at hassoc

theorem Rule.kvRead (hP : Rule v A D P) (ins : Instance) (keyPtr keyLen : UInt32)
    (k : Bytes → HostRet) : (VM.kvRead v ins keyPtr keyLen k).On A D P F := by
  unfold VM.kvRead
  refine bind hP (hP.charge _) fun _ => onSome hP fun key _ => ?_
  exact Host.On.ite (fun _ => pure hP _) fun _ => bind hP hP.vmContext fun ctx => pure hP _

theorem Rule.kvScan (hP : Rule v A D P) (ins : Instance) (ptr len : UInt32)
    (k : List Bytes → HostRet) : (VM.kvScan v ins ptr len k).On A D P F := by
  unfold VM.kvScan
  refine bind hP (hP.charge _) fun _ => onSome hP fun pre _ => ?_
  exact bind hP hP.vmContext fun ctx => pure hP _

theorem Rule.coinTransfer (hP : Rule v A D P) (hA : A F owner .coin) (ins : Instance)
    (toPtr valuePtr : UInt32) : (VM.coinTransfer v owner ins toPtr valuePtr).On A D P F := by
  have hspend : ∀ toAddr value, (VM.spend v owner toAddr value).On A D P F := fun toAddr value =>
    Host.On.of_unit (fun vm hF => hP.spend vm owner toAddr value (hF ▸ hA))
      (VM.same_spend toAddr value)
  unfold VM.coinTransfer
  refine bind hP (hP.charge _) fun _ => onSome hP fun toAddr _ => onSome hP fun value _ => ?_
  refine bind hP (hspend toAddr value) fun ok => Host.On.ite (fun _ => pure hP _) fun _ => ?_
  exact bind hP (get hP) fun vm => bind hP (Host.On.when hP (hP.emit _)) fun _ => pure hP _

theorem Rule.logEmit (hP : Rule v A D P) (hA : A F owner .event) (ins : Instance)
    (topicPtr topicLen dataPtr dataLen : UInt32) :
    (VM.logEmit owner ins topicPtr topicLen dataPtr dataLen).On A D P F := by
  have hemit : ∀ topic data, (VM.emitAs owner topic data).On A D P F := fun topic data =>
    Host.On.of_unit (fun vm hF => hP.emitAs vm owner topic data (hF ▸ hA)) (VM.same_emitAs topic data)
  unfold VM.logEmit
  refine bind hP (hP.charge _) fun _ => bind hP (get hP) fun vm => ?_
  refine Host.On.ite (fun _ => pure hP _) fun _ => onSome hP fun topic _ => ?_
  refine Host.On.ite (fun _ => pure hP _) fun _ => onSome hP fun data _ => ?_
  exact bind hP (hemit topic data) fun _ => pure hP _

end HostFunctions

/-! ## §5 — code -/

section Code

variable [Engine] {v : View} {A : Permission} {D : Address → Prop} {P : VM → VM → Prop}

open Host.On (bind pure get onSome)

/-- **`Deployed v A D`** — every contract the run can load lives at an address of `D` and keeps to `A`. -/
def Deployed (v : View) (A : Permission) (D : Address → Prop) : Prop :=
  ∀ a acc m, v.contract a = some acc → loadContractWasm acc.source = some m →
    ∀ b, b = a ∨ b = acc.owner → D b ∧ m.Permitted A b

/-- Both ways into another contract move along `P`, from any frames. -/
structure Handlers.On (A : Permission) (D : Address → Prop) (P : VM → VM → Prop) (hs : Handlers) :
    Prop where
  call : ∀ F target calldata, (hs.call target calldata).On A D P F
  service : ∀ F name exportName args, (isHook exportName = true → ∃ caller, A F caller .hook) →
    (hs.service name exportName args).On A D P F

/-- **Every host function** moves along `P`. -/
theorem Rule.hostCall (hP : Rule v A D P) {hs : Handlers} (hhs : hs.On A D P) {F : List Address}
    {owner : Address} {c : HostCall} (hA : ∀ e, c.effect = some e → A F owner e) (ins : Instance) :
    (VM.hostCall v owner hs.call hs.service c ins).On A D P F := by
  suffices h : ∀ vm, (VM.hostBody v owner hs.call hs.service ins vm c).On A D P F from
    fun vm hF hready => h vm vm hF hready
  intro vm
  cases c with
  | logEmit topicPtr topicLen dataPtr dataLen => exact hP.logEmit (hA _ rfl) ins _ _ _ _
  | coinTransfer toPtr valuePtr => exact hP.coinTransfer (hA _ rfl) ins _ _
  | kvSet keyPtr keyLen valPtr valLen => exact hP.kvSet (hA _ rfl) ins _ _ _ _
  | kvDel keyPtr keyLen => exact hP.kvDel (hA _ rfl) ins _ _
  | kvGetSize keyPtr keyLen => exact hP.kvRead ins _ _ _
  | kvGet keyPtr keyLen valPtr => exact hP.kvRead ins _ _ _
  | kvCount ptr len => exact hP.kvScan ins _ _ _
  | kvKeySizeAt ptr len index => exact hP.kvScan ins _ _ _
  | kvKeyAt ptr len index outPtr => exact hP.kvScan ins _ _ _
  | coinGetBalance addrPtr ptr =>
    exact bind hP (hP.charge _) fun _ => onSome hP fun addr _ => pure hP _
  | txGetFrom ptr =>
    rw [VM.hostBody]
    split <;> exact pure hP _
  | envBufSet slot ptr size =>
    refine Host.On.ite (fun _ => pure hP _) fun _ => onSome hP fun data _ => bind hP ?_ fun _ => pure hP _
    refine Host.On.of_unit (fun vm _ => ?_) fun _ => ⟨rfl, rfl⟩
    exact hP.idle vm vm.toll vm.tollPreburn vm.callArgs vm.events _ vm.linker
  | cryptoBlake3 ptr size outPtr =>
    exact bind hP (hP.charge _) fun _ => onSome hP fun data _ => pure hP _
  | cryptoVerify scheme pkPtr pkLen hashPtr sigPtr sigLen =>
    exact (bind hP (hP.charge _) fun _ => onSome hP fun pubKey _ => onSome hP fun hash _ =>
      onSome hP fun sig _ => pure hP _)
  | cryptoAddrOf scheme pkPtr pkLen outPtr =>
    exact bind hP (hP.charge _) fun _ => onSome hP fun pubKey _ => pure hP _
  | cryptoRandom outPtr => exact bind hP (hP.charge _) fun _ => pure hP _
  | contractCall addrPtr argsPtr argsLen =>
    refine bind hP (hP.charge _) fun _ => bind hP (Host.On.require hP) fun _ => ?_
    refine onSome hP fun target _ => onSome hP fun calldata _ => ?_
    exact bind hP (hhs.call F target calldata) fun _ => pure hP _
  | contractIsActive addrPtr =>
    exact bind hP (hP.charge _) fun _ => onSome hP fun addr _ => onSome hP fun acc _ => pure hP _
  | contractGetCodeSize addrPtr =>
    exact bind hP (hP.charge _) fun _ => onSome hP fun addr _ => onSome hP fun acc _ => pure hP _
  | contractGetCode addrPtr ptr =>
    exact onSome hP fun addr _ => onSome hP fun acc _ => bind hP (hP.charge _) fun _ => pure hP _
  | contractCodeHash addrPtr ptr =>
    exact (onSome hP fun addr _ => onSome hP fun acc _ =>
      Host.On.ite (fun _ => pure hP _) fun _ => bind hP (hP.charge _) fun _ => pure hP _)
  | service name exportName args =>
    have hhook : isHook exportName = true → ∃ caller, A F caller .hook :=
      fun h => ⟨owner, hA .hook (if_pos h)⟩
    exact bind hP (hhs.service F name exportName args hhook) fun _ => pure hP _
  | _ => exact pure hP _

/-- **Code inside its permission** moves along `P`, to a return or a trap. -/
theorem Rule.exec (hP : Rule v A D P) {hs : Handlers} (hhs : hs.On A D P) {F : List Address}
    {owner : Address} {p : Prog} (hp : p.Within A F owner) {vm : VM} (hF : vm.frames = F)
    (hready : vm.Ready A D) : vm.Lands A D P F (p.exec v hs owner vm).2 := by
  induction p generalizing vm with
  | ret vals ins => exact hP.stay hF hready
  | trap ins => exact hP.stay hF hready
  | tick toll ins k ih =>
    have hcharge := hP.charge (F := F) toll vm hF hready
    unfold Prog.exec
    split
    · next heq =>
      rw [heq] at hcharge
      exact hP.lands hcharge (ih hp hcharge.frames hcharge.ready)
    · next heq =>
      rw [heq] at hcharge
      exact hcharge
  | host c ins k ih =>
    have hcall := hP.hostCall hhs hp.1 ins vm hF hready
    unfold Prog.exec
    split
    · next heq =>
      rw [heq] at hcall
      exact hP.lands hcall (ih _ _ (hp.2 _ _) hcall.frames hcall.ready)
    · next heq =>
      rw [heq] at hcall
      exact hcall

/-! ## §6 — into other contracts -/

variable {hs : Handlers} {F : List Address}

theorem Rule.callExportedFunc (hP : Rule v A D P) (hhs : hs.On A D P) {owner : Address} {m : Module}
    {entry : String} {args : List Val} {ins : Instance}
    (hm : ∀ arity f, m.func entry = some (arity, f) → (f args ins).Within A F owner)
    {vm : VM} (henter : P vm (vm.enter owner entry)) (hF : vm.frames = F) (hready : vm.Ready A D) :
    vm.Lands A D P F (m.callExportedFunc v hs owner ins entry args vm).2 := by
  unfold Module.callExportedFunc
  split
  · exact hP.stay hF hready
  · next arity f hfunc =>
    split
    · have hentered : vm.Lands A D P F (vm.enter owner entry) :=
        ⟨henter, hF, hready.frames, hready.linker⟩
      exact hP.lands hentered (hP.exec hhs (hm arity f hfunc) hF hentered.ready)
    · exact hP.stay hF hready

/-- Instantiation runs the start function, if any, on the current frames. -/
theorem Rule.instantiate (hP : Rule v A D P) (hhs : hs.On A D P) {owner : Address} {m : Module}
    (hm : m.Permitted A owner) : (m.instantiate v hs owner).On A D P F := by
  intro vm hF hready
  unfold Module.instantiate
  split
  · exact hP.stay hF hready
  · split
    · exact hP.stay hF hready
    · next start hstart =>
      have hwithin := hm.start vm.frames start hready.frames hstart
      rw [hF] at hwithin
      exact hP.exec hhs hwithin hF hready

omit [Engine] in
theorem Rule.register (hP : Rule v A D P) {name : String} {l : Linked} (hD : D l.addr)
    (hm : l.module.Permitted A l.addr) : (VM.register name l).On A D P F := by
  unfold VM.register
  refine Host.On.ite (fun _ => ?_) fun _ => pure hP ()
  intro vm hF hready
  refine ⟨hP.idle vm vm.toll vm.tollPreburn vm.callArgs vm.events vm.bufs _, hF, hready.frames, ?_⟩
  intro e he
  rcases List.mem_append.mp he with hold | hnew
  · exact hready.linker e hold
  · rw [List.mem_singleton.mp hnew]
    exact ⟨hD, hm⟩

/-- **Linking**: every dependency is loaded, linked itself, and instantiated. -/
theorem Rule.loadContractDeps (hP : Rule v A D P) (hv : Deployed v A D) (hhs : hs.On A D P)
    (depth : Nat) (m : Module) : (loadContractDeps v hs depth m).On A D P F := by
  induction depth generalizing m with
  | zero => exact Host.On.ofOption_bind hP fun deps _ => Host.On.require hP
  | succ depth ih =>
    refine Host.On.ofOption_bind hP fun deps _ => Host.On.forM hP fun name _ => ?_
    refine bind hP (get hP) fun vm => Host.On.ite (fun _ => pure hP ()) fun _ => ?_
    refine Host.On.ofOption_bind hP fun addr _ => bind hP (Host.On.require hP) fun _ => ?_
    refine Host.On.ofOption_bind hP fun depAcc hdep => bind hP (Host.On.require hP) fun _ => ?_
    refine Host.On.ofOption_bind hP fun depModule hmod => bind hP (ih depModule) fun _ => ?_
    obtain ⟨hD, hperm⟩ := hv addr depAcc depModule hdep hmod depAcc.owner (.inr rfl)
    exact bind hP (hP.instantiate hhs hperm) fun ins => hP.register hD hperm

omit [Engine] in
/-- **Entering a frame**: the body runs on top, the frame is popped whatever happens. -/
theorem Rule.withFrame (hP : Rule v A D P) {α : Type} {a : Address} (hD : D a) (ha : a ∉ F)
    {body : VM → α × VM}
    (hbody : ∀ vm : VM, vm.frames = a :: F → vm.Ready A D → vm.Lands A D P (a :: F) (body vm).2)
    {vm : VM} (hF : vm.frames = F) (hready : vm.Ready A D) :
    vm.Lands A D P F (VM.withFrame a body vm).2 := by
  have hpushed := hbody { vm with frames := a :: vm.frames } (by rw [hF])
    ⟨List.cons_ne_nil _ _, hready.linker⟩
  have hpop : (VM.withFrame a body vm).2 =
      { (body { vm with frames := a :: vm.frames }).2 with frames := vm.frames } := by
    show ({ (body { vm with frames := a :: vm.frames }).2 with frames := _ } : VM) = _
    rw [hpushed.frames, hF]
    rfl
  rw [hpop]
  refine ⟨hP.frame vm _ a hD hready.frames (hF ▸ ha) ?_ hpushed.moved, hF, hready.frames, ?_⟩
  · rw [hpushed.frames, hF]
  · exact hpushed.ready.linker

theorem isHook_resolveEntry (m : Module) (calldata : Bytes) :
    isHook (resolveEntry m calldata).1 = false := by
  have hdefault : isHook entryOnTx = false := by decide
  unfold resolveEntry
  split
  · exact hdefault
  · next method args _ =>
    split
    · exact hdefault
    · next hreserved =>
      split
      · split
        · simp only [isReservedEntry, decide_eq_true_eq, not_or] at hreserved
          simp only [isHook, hreserved, or_self, decide_false]
        · exact hdefault
      · exact hdefault

omit [Engine] in
/-- An export entered above the frames `F`: no hook, or one the code there may call. -/
theorem Rule.entered (hP : Rule v A D P) {entry : String}
    (hentry : isHook entry = true → ∃ caller, A F caller .hook) {vm : VM} {owner : Address}
    (hF : vm.frames.tail = F) : P vm (vm.enter owner entry) := by
  cases hhook : isHook entry with
  | false => exact hP.enter vm owner entry hhook
  | true =>
    obtain ⟨caller, hcaller⟩ := hentry hhook
    exact hP.hook vm owner entry caller (hF ▸ hcaller)

/-- **A service call.** -/
theorem Rule.serviceWrapper (hP : Rule v A D P) (hhs : hs.On A D P) (name exportName : String)
    (args : List Val) (hhook : isHook exportName = true → ∃ caller, A F caller .hook) :
    (serviceWrapper v hs name exportName args).On A D P F := by
  unfold NgCore.serviceWrapper
  refine Host.On.get_bind fun vm₀ hF₀ hready₀ => Host.On.ofOption_bind hP fun l hl => ?_
  obtain ⟨_, _, hlinker, _⟩ := List.lookup_eq_some_iff.mp hl
  obtain ⟨hD, hperm⟩ := hready₀.linker (name, l) (by rw [hlinker]; simp)
  refine Host.On.ofOption_bind hP fun sig _ => Host.On.require_bind hP fun hstack => ?_
  have hnot : l.addr ∉ F := by
    rw [← hF₀]
    simpa [VM.onStack] using hstack
  refine bind hP (hP.charge _) fun _ => bind hP (Host.On.require hP) fun _ => bind hP ?_ fun r => ?_
  · intro vm hF hready
    have hland := hP.withFrame hD hnot
      (fun vm' hF' hready' => hP.callExportedFunc hhs
        (fun arity f hf => hperm.func F exportName arity f (hF ▸ hready.frames) hnot hf args l.ins)
        (hP.entered hhook (by rw [hF']; rfl)) hF' hready') hF hready
    refine hP.lands hland ?_
    -- the instance is put back: only the linker changes, and keeps addresses and modules
    refine ⟨hP.idle _ _ _ _ _ _ _, hland.frames, hland.ready.frames, ?_⟩
    intro e he
    obtain ⟨e', he', rfl⟩ := List.mem_map.mp he
    have := hland.ready.linker e' he'
    split <;> exact this
  · exact Host.On.ofOption_bind hP fun rets _ => bind hP (Host.On.require hP) fun _ =>
      Host.On.ofOption hP _

/-- **A dynamic call.** -/
theorem Rule.serviceCall (hP : Rule v A D P) (hv : Deployed v A D) (hhs : hs.On A D P)
    (target : Address) (calldata : Bytes) : (serviceCall v hs target calldata).On A D P F := by
  unfold NgCore.serviceCall
  refine Host.On.get_bind fun vm₀ hF₀ hready₀ => Host.On.require_bind hP fun hstack => ?_
  have hnot : target ∉ F := by
    rw [← hF₀]
    simpa [VM.onStack] using hstack
  split
  · exact pure hP _
  · next acc hacc =>
    refine Host.On.ite (fun _ => pure hP _) fun _ => ?_
    split
    · exact pure hP _
    · next m hm =>
      obtain ⟨hD, hperm⟩ := hv target acc m hacc hm target (.inl rfl)
      refine bind hP (hP.loadContractDeps hv hhs _ m).attempt fun linked => ?_
      refine Host.On.ite (fun _ => pure hP _) fun _ => ?_
      refine bind hP (hP.instantiate hhs hperm).attempt fun inst => ?_
      split
      · exact pure hP _
      · next ins =>
        refine bind hP ?_ fun r => bind hP (Host.On.ofOption hP _) fun _ => pure hP _
        intro vm hF hready
        have hargs : vm.Lands A D P F { vm with callArgs := (resolveEntry m calldata).2 } :=
          ⟨hP.idle vm vm.toll vm.tollPreburn _ vm.events vm.bufs vm.linker, hF, hready.frames,
            hready.linker⟩
        have hland := hP.withFrame hD hnot
          (fun vm' hF' hready' => hP.callExportedFunc hhs
            (fun arity f hf => hperm.func F (resolveEntry m calldata).1 arity f (hF ▸ hready.frames) hnot hf [] ins)
            (hP.enter vm' target _ (isHook_resolveEntry m calldata)) hF' hready')
          hargs.frames hargs.ready
        refine hP.lands hargs (hP.lands hland ?_)
        exact ⟨hP.idle _ _ _ _ _ _ _, hland.frames, hland.ready.frames, hland.ready.linker⟩

/-- **Calls nested to any depth.** -/
theorem Rule.level (hP : Rule v A D P) (hv : Deployed v A D) (n : Nat) : (level v n).On A D P := by
  induction n with
  | zero => exact ⟨fun _ _ _ => Host.On.panic hP, fun _ _ _ _ _ => Host.On.panic hP⟩
  | succ n ih =>
    exact ⟨fun _ target calldata => hP.serviceCall hv ih target calldata,
      fun _ name exportName args hhook => hP.serviceWrapper ih name exportName args hhook⟩

/-! ## §7 — one contract run -/

/-- **A fresh vm**, its dependencies linked. -/
theorem Rule.newVM (hP : Rule v A D P) (hv : Deployed v A D) (account : Contract) (tx : FullTx)
    (blockTime : Nat) (m : Module) :
    (VM.initial account tx blockTime).Lands A D P [account.owner] (newVM v account tx blockTime m).2 := by
  apply hP.loadContractDeps hv (hP.level hv maxLevels)
  · rfl
  · refine ⟨List.cons_ne_nil _ _, ?_⟩
    intro e he
    cases he

theorem Rule.run (hP : Rule v A D P) (hv : Deployed v A D) {owner : Address} {m : Module}
    {entry : String} (hm : m.Permitted A owner)
    (hentry : ∀ ins arity f, m.func entry = some (arity, f) → (f [] ins).Within A F owner)
    (henter : ∀ vm : VM, vm.frames = F → P vm (vm.enter owner entry))
    {vm : VM} (hF : vm.frames = F) (hready : vm.Ready A D) :
    vm.Lands A D P F (vm.run v owner m entry).2 := by
  have hinst := hP.instantiate (hP.level hv maxLevels) hm vm hF hready
  unfold VM.run
  split
  · next heq =>
    rw [heq] at hinst
    exact hinst
  · next ins _ heq =>
    rw [heq] at hinst
    exact hP.lands hinst
      (hP.callExportedFunc (hP.level hv maxLevels) (hentry ins) (henter _ hinst.frames) hinst.frames hinst.ready)

/-- **The run of an entry**, under a gas limit. -/
theorem Rule.runEntry (hP : Rule v A D P) (hv : Deployed v A D) {owner : Address} {m : Module}
    {entry : String} {gas : Nat} (hm : m.Permitted A owner) {vm : VM}
    (hentry : ∀ ins arity f, m.func (vm.entryFor m entry).1 = some (arity, f) →
      (f [] ins).Within A F owner)
    (henter : ∀ vm' : VM, vm'.frames = F → P vm' (vm'.enter owner (vm.entryFor m entry).1))
    (hF : vm.frames = F) (hready : vm.Ready A D) :
    vm.Lands A D P F (vm.runEntry v owner m entry gas).2 := by
  have hargs : vm.Lands A D P F (vm.entryFor m entry).2 := by
    unfold VM.entryFor
    split
    · exact hP.stay hF hready
    · exact ⟨hP.idle vm vm.toll vm.tollPreburn _ vm.events vm.bufs vm.linker, hF, hready.frames,
        hready.linker⟩
  have hlimit : ∀ vm : VM, vm.frames = F → vm.Ready A D →
      vm.Lands A D P F (if gas < vmMaxToll then vm.limitToll gas else vm) := by
    intro vm hF hready
    unfold VM.limitToll
    split
    · split
      · exact hP.stay hF hready
      · have hburn : vm.Lands A D P F { vm with tollPreburn := vmMaxToll - gas } :=
          ⟨hP.idle vm vm.toll _ vm.callArgs vm.events vm.bufs vm.linker, hF, hready.frames, hready.linker⟩
        exact hP.lands hburn (hP.charge _ _ hburn.frames hburn.ready)
    · exact hP.stay hF hready
  have hlimited := hlimit _ hargs.frames hargs.ready
  exact hP.lands hargs (hP.lands hlimited
    (hP.run hv hm hentry henter hlimited.frames hlimited.ready))

end Code
end NgCore
