/-
# NgCore.VM.Reentry — an outgoing call leaves its caller alone

Host functions write to and spend from the address on TOP of the frames, and both ways into another contract refuse
an address that is on the frames already. So from the moment a contract calls out until control is back at it, its
storage stands and its balance can only grow: everything that runs in between runs above its frame.

A run is looked at moment by moment (`Moment`): code that goes on from a vm. Code proceeds past a tick or a completed
host call (`Proceeds`), or goes into another contract (`Enters`); what is reached from an entered callee happens
DURING the call.

Linking comes before the callee's frame is pushed and instantiation runs start functions, on the CALLER's frame: the
modules must have none.

DELIVERABLE: `Executing.outgoing_call`.
-/
import NgCore.State.Hooks

namespace NgCore

open Lib (Bucket)

/-! ## §1 — what a call leaves alone -/

/-- The storage of an address as the run sees it: the journal's copy, else the state's. -/
def VM.storageOf (v : View) (vm : VM) (a : Address) : Option ContractContext :=
  ((vm.journal.accounts[a]?).or (v.contract a)).map Contract.context

/-- **`Spares v a vm vm'`** — from `vm` to `vm'` the storage of `a` stood and its balance did not fall. -/
structure VM.Spares (v : View) (a : Address) (vm vm' : VM) : Prop where
  storage : vm'.storageOf v a = vm.storageOf v a
  balance : vm.journal.balanceOf v a ≤ vm'.journal.balanceOf v a

section Spares

variable {v : View} {a : Address}

theorem VM.Spares.refl (vm : VM) : vm.Spares v a vm := ⟨rfl, le_refl _⟩

theorem VM.Spares.trans {vm vm' vm'' : VM} (h : vm.Spares v a vm') (h' : vm'.Spares v a vm'') :
    vm.Spares v a vm'' :=
  ⟨h'.storage.trans h.storage, h.balance.trans h'.balance⟩

theorem VM.spares_of_journal {vm vm' : VM} (h : vm'.journal = vm.journal) : vm.Spares v a vm' := by
  refine ⟨?_, ?_⟩
  · unfold VM.storageOf
    rw [h]
  · rw [h]

/-! ## §2 — the rule of what runs above a frame -/

/-- `a` is on frames without repetitions, below the top. -/
structure VM.Below (a : Address) (vm : VM) : Prop where
  nodup : vm.frames.Nodup
  mem : a ∈ vm.frames.tail

theorem VM.Below.ne {vm vm' : VM} (h : vm.Below a) (hframes : vm'.frames = vm.frames) :
    vm'.currentAddress ≠ a := by
  obtain ⟨hnodup, hmem⟩ := h
  unfold VM.currentAddress
  rw [hframes]
  cases hf : vm.frames with
  | nil =>
    rw [hf] at hmem
    cases hmem
  | cons b frames =>
    rw [hf] at hnodup hmem
    rintro rfl
    exact (List.nodup_cons.mp hnodup).1 hmem

/-- **`Above v a vm vm'`** — the frames are back, and `a` was spared if its frame is below the top. -/
def VM.Above (v : View) (a : Address) (vm vm' : VM) : Prop :=
  vm'.frames = vm.frames ∧ (vm.Below a → vm.Spares v a vm')

/-- The elementary changes spare every address below the top that is not the escrow. -/
theorem keeping_above (hescrow : a ≠ storageDepositEscrow) (vm₀ : VM) (owner : Address) :
    Keeping v owner (vm₀.Above v a) where
  load vm b acc hacc hnone h := by
    refine ⟨h.1, fun hbelow => (h.2 hbelow).trans ⟨?_, le_refl _⟩⟩
    unfold VM.storageOf
    dsimp only
    rw [Bucket.get_insert]
    split
    · next hba =>
      subst hba
      rw [hnone, hacc]
      rfl
    · rfl
  context vm b acc w hb hacc _ h := by
    refine ⟨h.1, fun hbelow => (h.2 hbelow).trans ⟨?_, le_refl _⟩⟩
    unfold VM.storageOf
    dsimp only
    rw [Bucket.get_insert, if_neg (hb ▸ hbelow.ne h.1)]
  move vm fromAddr toAddr value hends hpos hcov h := by
    rw [VM.transfer_covered hpos hcov]
    refine ⟨h.1, fun hbelow => (h.2 hbelow).trans ⟨rfl, ?_⟩⟩
    -- the debited side is the address on top, or the escrow
    have hfrom : fromAddr ≠ a := by
      rcases hends with rfl | ⟨rfl, -⟩
      · exact hbelow.ne h.1
      · exact hescrow.symm
    show vm.journal.balanceOf v a ≤ Journal.balanceOf v ((vm.journal.add v fromAddr (-value)).add v toAddr value) a
    rw [Journal.balanceOf_add, Journal.balanceOf_add, if_neg hfrom]
    split <;> omega
  act _ h := ⟨h.1, fun hbelow => (h.2 hbelow).trans (VM.spares_of_journal rfl)⟩
  underflow _ h := ⟨h.1, fun hbelow => (h.2 hbelow).trans (VM.spares_of_journal rfl)⟩
  idle _ _ _ _ _ _ _ h := ⟨h.1, fun hbelow => (h.2 hbelow).trans (VM.spares_of_journal rfl)⟩

theorem VM.Above.trans {vm vm' vm'' : VM} (h : vm.Above v a vm') (h' : vm'.Above v a vm'') : vm.Above v a vm'' := by
  refine ⟨h'.1.trans h.1, fun hbelow => (h.2 hbelow).trans (h'.2 ⟨?_, ?_⟩)⟩
  · rw [h.1]
    exact hbelow.nodup
  · rw [h.1]
    exact hbelow.mem

/-- **Whatever runs above the frame of `a` spares `a`.** -/
theorem above_rule (hescrow : a ≠ storageDepositEscrow) (D : Address → Prop) :
    Rule v Permission.all D (VM.Above v a) := by
  refine Rule.of_changes ?_ ?_ ?_ ?_ ?_
  · exact fun vm => ⟨rfl, fun _ => .refl vm⟩
  · exact VM.Above.trans
  · exact fun vm owner => keeping_above hescrow vm owner
  · -- a frame is pushed: what was below or on top is below now
    intro vm vm' b _ hb h
    refine ⟨rfl, fun hbelow => ?_⟩
    have hpushed := h.2 ⟨List.nodup_cons.mpr ⟨hb, hbelow.nodup⟩, List.mem_of_mem_tail hbelow.mem⟩
    exact ⟨hpushed.storage, hpushed.balance⟩
  · exact fun vm owner entry => ⟨rfl, fun _ => VM.spares_of_journal rfl⟩

end Spares

/-! ## §3 — linking without start functions -/

/-- Only the linked dependencies differ. -/
def VM.Relinked (vm vm' : VM) : Prop := ∃ linker, vm' = { vm with linker }

instance : Std.Refl VM.Relinked := ⟨fun vm => ⟨vm.linker, rfl⟩⟩

instance : IsTrans VM VM.Relinked := ⟨by
  rintro vm _ _ ⟨linker, rfl⟩ ⟨linker', rfl⟩
  exact ⟨linker', rfl⟩⟩

/-- What follows an optional value may rely on where it comes from. -/
theorem Host.via_ofOption_bind {R : VM → VM → Prop} [Std.Refl R] {α β : Type} {o : Option α} {f : α → Host β}
    (hf : ∀ a, o = some a → (f a).Via R) : (Host.ofOption o >>= f).Via R := by
  cases o with
  | none => exact Host.via_same fun _ => rfl
  | some a => exact hf a rfl

theorem Host.via_require_bind {R : VM → VM → Prop} [Std.Refl R] {β : Type} {c : Prop} [Decidable c]
    {f : Unit → Host β} (hf : c → (f ()).Via R) : (Host.require c >>= f).Via R := by
  unfold Host.require
  split
  · next h => exact hf h
  · exact Host.via_same fun _ => rfl

section Calls

variable [Engine] (v : View)

/-- No module the view holds has a start function. -/
def View.Startless : Prop := ∀ a acc, v.contract a = some acc → NgCore.Startless acc.source

variable {v}

theorem instantiate_via_same {R : VM → VM → Prop} [Std.Refl R] {hs : Handlers} {owner : Address} {m : Module}
    (hm : m.start = none) : (m.instantiate v hs owner).Via R := by
  apply Host.via_same
  intro vm
  unfold Module.instantiate
  rw [hm]
  split <;> rfl

/-- **Linking runs nothing** where no module has a start function. -/
theorem loadContractDeps_relinked (hv : v.Startless) (hs : Handlers) (depth : Nat) (m : Module) :
    (loadContractDeps v hs depth m).Via VM.Relinked := by
  induction depth generalizing m with
  | zero => exact Host.via_ofOption_bind fun _ _ => Host.via_require
  | succ depth ih =>
    refine Host.via_ofOption_bind fun deps hdeps => ?_
    clear hdeps
    have hstep : ∀ name, (linkImport v hs (loadContractDeps v hs depth) name).Via VM.Relinked := by
      intro name
      refine Host.via_bind Host.via_get fun vm => Host.via_ite (Host.via_pure ()) ?_
      refine Host.via_ofOption_bind fun addr _ => Host.via_bind Host.via_require fun _ => ?_
      refine Host.via_ofOption_bind fun depAcc hcontract => Host.via_bind Host.via_require fun _ => ?_
      refine Host.via_ofOption_bind fun depModule hmodule => Host.via_bind (ih depModule) fun _ => ?_
      refine Host.via_bind (instantiate_via_same (hv addr depAcc hcontract depModule hmodule)) fun ins => ?_
      unfold VM.register
      exact Host.via_ite (fun vm => ⟨_, rfl⟩) (Host.via_pure ())
    -- the dependencies one after the other
    induction deps with
    | nil => exact Host.via_pure ()
    | cons name deps ihdeps => exact Host.via_bind (hstep name) fun _ => ihdeps

/-! ## §4 — the moments of a run -/

/-- **`Moment`** — one moment: code of `owner` goes on from `vm`, and calls can nest `depth` levels deeper. -/
structure Moment where
  depth : Nat
  owner : Address
  code : Prog
  vm : VM

variable (v)

/-- **`Proceeds v x y`** — the code goes on past a tick, or past a host call that returned. -/
inductive Proceeds : Moment → Moment → Prop
  | tick {n : Nat} {owner : Address} {toll : Nat} {ins : Instance} {k : Prog} {vm vm' : VM}
      (hcharge : VM.charge toll vm = (some (), vm')) : Proceeds ⟨n, owner, .tick toll ins k, vm⟩ ⟨n, owner, k, vm'⟩
  | host {n : Nat} {owner : Address} {c : HostCall} {ins ins' : Instance} {k : List Val → Instance → Prog}
      {vals : List Val} {vm vm' : VM}
      (hcall : VM.hostCall v owner (level v n).call (level v n).service c ins vm = (some (vals, ins'), vm')) :
      Proceeds ⟨n, owner, .host c ins k, vm⟩ ⟨n, owner, k vals ins', vm'⟩

/-- **`Enters v x y`** — a service call or a dynamic call reaches the callee's code, on the callee's frame. -/
inductive Enters : Moment → Moment → Prop
  | service {n arity : Nat} {owner : Address} {name exportName : String} {args : List Val} {ins : Instance}
      {k : List Val → Instance → Prog} {l : Linked} {sig : FuncType} {f : List Val → Instance → Prog} {vm vm' : VM}
      (hlinked : vm.linker.lookup name = some l) (hsig : l.module.exportFuncSig exportName = some sig)
      (hstack : vm.onStack l.addr = false) (hcharge : VM.charge gasServiceCall vm = (some (), vm'))
      (hfloat : (sig.inputTypes.any fun t => t = .f32 ∨ t = .f64) = false)
      (hfunc : l.module.func exportName = some (arity, f)) (harity : args.length = arity) :
      Enters ⟨n + 1, owner, .host (.service name exportName args) ins k, vm⟩
        ⟨n, l.addr, f args l.ins, VM.enter l.addr exportName { vm' with frames := l.addr :: vm'.frames }⟩
  | call {n : Nat} {owner : Address} {addrPtr argsPtr argsLen : UInt32} {ins ins' : Instance}
      {k : List Val → Instance → Prog} {target : Address} {calldata : Bytes} {acc : Contract} {m : Module}
      {f : List Val → Instance → Prog} {vm vm₁ vm₂ vm₃ : VM}
      (hcharge : VM.charge gasServiceCall vm = (some (), vm₁)) (hdepth : vm.frames.length < maxDepChainDepth)
      (htarget : ins.readAddr addrPtr = some target)
      (hdata : ins.readMem argsPtr.toNat argsLen.toNat = some calldata) (hstack : vm₁.onStack target = false)
      (hacc : v.contract target = some acc) (hlive : acc.isLive = true)
      (hmodule : loadContractWasm acc.source = some m)
      (hlink : loadContractDeps v (level v n) (maxDepChainDepth - vm₁.frames.length) m vm₁ = (some (), vm₂))
      (hins : m.instantiate v (level v n) target vm₂ = (some ins', vm₃))
      (hfunc : m.func (resolveEntry m calldata).1 = some (0, f)) :
      Enters ⟨n + 1, owner, .host (.contractCall addrPtr argsPtr argsLen) ins k, vm⟩
        ⟨n, target, f [] ins', VM.enter target (resolveEntry m calldata).1
          { vm₃ with callArgs := (resolveEntry m calldata).2, frames := target :: vm₃.frames }⟩

/-- The next moments of a run. -/
def Moves (x y : Moment) : Prop := Proceeds v x y ∨ Enters v x y

/-- **`Executing v x`** — `x` is a moment of some contract run over the view: the entry of a contract, and whatever
is reached from there. -/
inductive Executing : Moment → Prop
  | entry {a : Address} {account : Contract} {m : Module} {tx : FullTx} {blockTime gas : Nat} {entry : String}
      {ins : Instance} {f : List Val → Instance → Prog} {vm vm' : VM}
      (hacc : v.contract a = some account) (hmodule : loadContractWasm account.source = some m)
      (hlink : newVM v account tx blockTime m = (some (), vm))
      (hins : m.instantiate v (level v maxLevels) account.owner
        (if gas < vmMaxToll then (vm.entryFor m entry).2.limitToll gas else (vm.entryFor m entry).2) =
          (some ins, vm'))
      (hfunc : m.func (vm.entryFor m entry).1 = some (0, f)) :
      Executing ⟨maxLevels, account.owner, f [] ins, vm'.enter account.owner (vm.entryFor m entry).1⟩
  | next {x y : Moment} (hx : Executing x) (hmove : Moves v x y) : Executing y

/-- A host call that goes into another contract. -/
def HostCall.isCall : HostCall → Bool
  | .contractCall _ _ _ | .service _ _ _ => true
  | _ => false

variable {v}

/-- **`Stacked D x`** — the code's own address is on top of frames without repetitions, all in `D`, as are the
linked dependencies. -/
structure Moment.Stacked (D : Address → Prop) (x : Moment) : Prop where
  top : x.vm.frames.head? = some x.owner
  nodup : x.vm.frames.Nodup
  all : ∀ a ∈ x.vm.frames, D a
  linked : ∀ e ∈ x.vm.linker, D e.2.addr

section Moments

variable {D : Address → Prop}

omit [Engine] in
theorem ready_all {vm : VM} (hframes : vm.frames ≠ []) (hlinked : ∀ e ∈ vm.linker, D e.2.addr) :
    vm.Ready Permission.all D :=
  ⟨hframes, fun e he => ⟨hlinked e he, Module.permitted_of_forall (fun _ _ _ => trivial) _ _⟩⟩

omit [Engine] in
theorem Moment.Stacked.ready {x : Moment} (h : x.Stacked D) : x.vm.Ready Permission.all D :=
  ready_all (fun hnil => by have := h.top; rw [hnil] at this; cases this) h.linked

omit [Engine] in
/-- Where the frames are the same, the code still stands on top of them. -/
theorem Moment.Stacked.of_lands {P : VM → VM → Prop} {x : Moment} (h : x.Stacked D) {vm' : VM}
    (hlands : x.vm.Lands Permission.all D P x.vm.frames vm') (code : Prog) :
    Moment.Stacked D ⟨x.depth, x.owner, code, vm'⟩ where
  top := by rw [hlands.frames]; exact h.top
  nodup := by rw [hlands.frames]; exact h.nodup
  all := by rw [hlands.frames]; exact h.all
  linked e he := (hlands.ready.linker e he).1

theorem deployed_of_forall (hD : ∀ a acc, v.contract a = some acc → D a ∧ D acc.owner) :
    Deployed v Permission.all D := by
  intro a acc m hacc _ b hb
  refine ⟨?_, Module.permitted_of_forall (fun _ _ _ => trivial) b m⟩
  rcases hb with rfl | rfl
  · exact (hD b acc hacc).1
  · exact (hD a acc hacc).2

theorem charge_eq_some {cost : Nat} {vm vm' : VM} (h : VM.charge cost vm = (some (), vm')) :
    vm' = { vm with toll := vm.toll + cost } := by
  rcases VM.charge_cases cost vm with ⟨h', -⟩ | h'
  · exact (Prod.mk.inj (h'.symm.trans h)).2.symm
  · cases h'.symm.trans h

variable {P : VM → VM → Prop}

theorem Proceeds.lands (hP : Rule v Permission.all D P) (hv : Deployed v Permission.all D) {x y : Moment}
    (hx : x.Stacked D) (h : Proceeds v x y) :
    x.vm.Lands Permission.all D P x.vm.frames y.vm ∧ y.owner = x.owner ∧ y.depth = x.depth := by
  cases h with
  | @tick n owner toll ins k vm vm' hcharge =>
    have hlands := hP.charge toll vm rfl hx.ready
    rw [hcharge] at hlands
    exact ⟨hlands, rfl, rfl⟩
  | @host n owner c ins ins' k vals vm vm' hcall =>
    have hall : ∀ e, c.effect = some e → Permission.all vm.frames owner e := fun _ _ => trivial
    have hlands := hP.hostCall (hP.level hv n) hall ins vm rfl hx.ready
    rw [hcall] at hlands
    exact ⟨hlands, rfl, rfl⟩

/-- **`Pushed D P x y`** — the callee's frame is new, and up to it the vm moved along `P`. -/
structure Moment.Pushed (D : Address → Prop) (P : VM → VM → Prop) (x y : Moment) : Prop where
  fresh : y.owner ∉ x.vm.frames
  callee : D y.owner
  frames : y.vm.frames = y.owner :: x.vm.frames
  before : ∃ vm, x.vm.Lands Permission.all D P x.vm.frames vm ∧ y.vm.journal = vm.journal ∧ y.vm.linker = vm.linker

theorem Enters.pushed (hP : Rule v Permission.all D P) (hD : ∀ a acc, v.contract a = some acc → D a ∧ D acc.owner)
    {x y : Moment} (hx : x.Stacked D) (h : Enters v x y) : x.Pushed D P y := by
  have hv := deployed_of_forall hD
  cases h with
  | @service n arity owner name exportName args ins k l sig f vm vm' hlinked hsig hstack hcharge hfloat hfunc
      harity =>
    have hlands := hP.charge gasServiceCall vm rfl hx.ready
    rw [hcharge] at hlands
    obtain ⟨_, _, hlinker, _⟩ := List.lookup_eq_some_iff.mp hlinked
    refine ⟨?_, hx.linked (name, l) (by rw [hlinker]; simp), ?_, vm', hlands, rfl, rfl⟩
    · simpa [VM.onStack] using hstack
    · show l.addr :: vm'.frames = _
      rw [hlands.frames]
  | @call n owner addrPtr argsPtr argsLen ins ins' k target calldata acc m f vm vm₁ vm₂ vm₃ hcharge hdepth htarget
      hdata hstack hacc hlive hmodule hlink hins hfunc =>
    have hcharged := hP.charge gasServiceCall vm rfl hx.ready
    rw [hcharge] at hcharged
    have hlinked := hP.loadContractDeps hv (hP.level hv n) (maxDepChainDepth - vm₁.frames.length) m vm₁
      hcharged.frames hcharged.ready
    rw [hlink] at hlinked
    have hinstance := hP.instantiate (hP.level hv n) (hv target acc m hacc hmodule target (.inl rfl)).2 vm₂
      hlinked.frames hlinked.ready
    rw [hins] at hinstance
    refine ⟨?_, (hD target acc hacc).1, ?_, vm₃, hP.lands hcharged (hP.lands hlinked hinstance), rfl, rfl⟩
    · rw [← hcharged.frames]
      simpa [VM.onStack] using hstack
    · show target :: vm₃.frames = _
      rw [hinstance.frames]

omit [Engine] in
theorem Moment.Pushed.stacked {x y : Moment} (h : x.Pushed D P y) (hx : x.Stacked D) : y.Stacked D where
  top := by rw [h.frames]; rfl
  nodup := by rw [h.frames]; exact List.nodup_cons.mpr ⟨h.fresh, hx.nodup⟩
  all := by rw [h.frames]; exact List.forall_mem_cons.mpr ⟨h.callee, hx.all⟩
  linked := by
    obtain ⟨vm, hlands, -, hlinker⟩ := h.before
    rw [hlinker]
    exact fun e he => (hlands.ready.linker e he).1

/-- Nothing is written on the way into a call where no module has a start function. -/
theorem Enters.journal (hstart : v.Startless) {x y : Moment} (h : Enters v x y) :
    y.vm.journal = x.vm.journal := by
  cases h with
  | @service n arity owner name exportName args ins k l sig f vm vm' hlinked hsig hstack hcharge hfloat hfunc
      harity =>
    rw [charge_eq_some hcharge]
    rfl
  | @call n owner addrPtr argsPtr argsLen ins ins' k target calldata acc m f vm vm₁ vm₂ vm₃ hcharge hdepth htarget
      hdata hstack hacc hlive hmodule hlink hins hfunc =>
    have hrelinked := loadContractDeps_relinked hstart (level v n) (maxDepChainDepth - vm₁.frames.length) m vm₁
    rw [hlink] at hrelinked
    have hsame : vm₂ = (m.instantiate v (level v n) target vm₂).2 :=
      instantiate_via_same (hstart target acc hacc m hmodule) vm₂
    rw [hins] at hsame
    obtain ⟨linker, hvm₂⟩ := hrelinked
    obtain rfl : vm₂ = vm₃ := hsame
    obtain rfl : vm₂ = { vm₁ with linker } := hvm₂
    show vm₁.journal = vm.journal
    rw [charge_eq_some hcharge]

/-! ## §5 — an outgoing call -/

variable {a : Address}

theorem Moves.spares (hescrow : a ≠ storageDepositEscrow)
    (hD : ∀ a acc, v.contract a = some acc → D a ∧ D acc.owner) {x y : Moment} (hx : x.Stacked D)
    (ha : a ∈ x.vm.frames.tail) (h : Moves v x y) :
    y.Stacked D ∧ a ∈ y.vm.frames.tail ∧ x.vm.Spares v a y.vm := by
  have hP := above_rule (v := v) hescrow D
  rcases h with hproceeds | henters
  · obtain ⟨hlands, howner, hdepth⟩ := hproceeds.lands hP (deployed_of_forall hD) hx
    refine ⟨?_, ?_, hlands.moved.2 ⟨hx.nodup, ha⟩⟩
    · have hstacked := hx.of_lands hlands y.code
      rw [← howner] at hstacked
      exact ⟨hstacked.top, hstacked.nodup, hstacked.all, hstacked.linked⟩
    · rw [hlands.frames]
      exact ha
  · have hpushed := henters.pushed hP hD hx
    refine ⟨hpushed.stacked hx, ?_, ?_⟩
    · rw [hpushed.frames]
      exact List.mem_of_mem_tail ha
    · obtain ⟨vm, hlands, hjournal, -⟩ := hpushed.before
      exact (hlands.moved.2 ⟨hx.nodup, ha⟩).trans (VM.spares_of_journal hjournal)

theorem spares_of_moves (hescrow : a ≠ storageDepositEscrow)
    (hD : ∀ a acc, v.contract a = some acc → D a ∧ D acc.owner) {x y : Moment} (hx : x.Stacked D)
    (ha : a ∈ x.vm.frames.tail) (h : Relation.ReflTransGen (Moves v) x y) :
    y.Stacked D ∧ a ∈ y.vm.frames.tail ∧ x.vm.Spares v a y.vm := by
  induction h with
  | refl => exact ⟨hx, ha, .refl x.vm⟩
  | tail _ hmove ih =>
    obtain ⟨hy, hay, hspares⟩ := ih
    obtain ⟨hz, haz, hspares'⟩ := Moves.spares hescrow hD hy hay hmove
    exact ⟨hz, haz, hspares.trans hspares'⟩

/-- **`Sparing v D a F`** — on the frames `F` the operation gives the frames back and spares `a`. -/
def VM.Sparing (v : View) (D : Address → Prop) (a : Address) (F : List Address) (vm vm' : VM) : Prop :=
  vm.frames = F → vm.Ready Permission.all D → vm.Lands Permission.all D (VM.Spares v a) F vm'

instance {F : List Address} : Std.Refl (VM.Sparing v D a F) := ⟨fun vm hF hready => ⟨.refl vm, hF, hready⟩⟩

instance {F : List Address} : IsTrans VM (VM.Sparing v D a F) := ⟨by
  intro vm vm' vm'' h h' hF hready
  have hland := h hF hready
  have hland' := h' hland.frames hland.ready
  exact ⟨hland.moved.trans hland'.moved, hland'.frames, hland'.ready⟩⟩

variable {F : List Address}

omit [Engine] in
/-- An operation that leaves journal, frames and the addresses of the dependencies alone. -/
theorem sparing_of_same {α : Type} {x : Host α} (hjournal : ∀ vm, (x vm).2.journal = vm.journal)
    (hframes : ∀ vm, (x vm).2.frames = vm.frames)
    (hlinked : ∀ vm : VM, (∀ e ∈ vm.linker, D e.2.addr) → ∀ e ∈ (x vm).2.linker, D e.2.addr) :
    x.Via (VM.Sparing v D a F) := by
  intro vm hF hready
  refine ⟨VM.spares_of_journal (hjournal vm), (hframes vm).trans hF, ready_all ?_ ?_⟩
  · rw [hframes vm]
    exact hready.frames
  · exact hlinked vm fun e he => (hready.linker e he).1

theorem sparing_charge (cost : Nat) : (VM.charge cost).Via (VM.Sparing v D a F) := by
  refine sparing_of_same (fun vm => ?_) (fun vm => ?_) (fun vm h => ?_)
  all_goals rcases VM.charge_cases cost vm with ⟨heq, -⟩ | heq <;> rw [heq]
  all_goals first | rfl | exact h

theorem sparing_withFrame (hescrow : a ≠ storageDepositEscrow)
    (hD : ∀ a acc, v.contract a = some acc → D a ∧ D acc.owner) (hF : F.Nodup) (ha : a ∈ F) {b : Address}
    (hb : b ∉ F) (n : Nat) (m : Module) (ins : Instance) (entry : String) (args : List Val) {vm : VM}
    (hframes : vm.frames = F) (hready : vm.Ready Permission.all D) :
    vm.Lands Permission.all D (VM.Spares v a) F
      (VM.withFrame b (m.callExportedFunc v (level v n) b ins entry args) vm).2 := by
  have hP := above_rule (v := v) hescrow D
  have hbody : VM.Lands Permission.all D (VM.Above v a) (b :: F) { vm with frames := b :: vm.frames }
      (m.callExportedFunc v (level v n) b ins entry args { vm with frames := b :: vm.frames }).2 := by
    refine hP.callExportedFunc (hP.level (deployed_of_forall hD) n) ?_ ?_ ?_ ?_
    · exact fun _ _ _ => Prog.all_of_forall (fun _ _ _ => trivial) _
    · exact ⟨rfl, fun _ => VM.spares_of_journal rfl⟩
    · rw [hframes]
    · exact ready_all (List.cons_ne_nil _ _) fun e he => (hready.linker e he).1
  have hbelow : VM.Below a { vm with frames := b :: vm.frames } := by
    refine ⟨?_, ?_⟩
    · show (b :: vm.frames).Nodup
      rw [hframes]
      exact List.nodup_cons.mpr ⟨hb, hF⟩
    · show a ∈ vm.frames
      rw [hframes]
      exact ha
  have hspares := hbody.moved.2 hbelow
  refine ⟨⟨hspares.storage, hspares.balance⟩, ?_, ready_all ?_ fun e he => (hbody.ready.linker e he).1⟩
  · show (Module.callExportedFunc v (level v n) b m ins entry args _).2.frames.drop 1 = F
    rw [hbody.frames]
    rfl
  · show (Module.callExportedFunc v (level v n) b m ins entry args _).2.frames.drop 1 ≠ []
    rw [hbody.frames]
    exact fun hnil => by rw [show F = [] from hnil] at ha; cases ha

omit [Engine] in
theorem sparing_get_bind {β : Type} {f : VM → Host β}
    (hf : ∀ vm : VM, vm.frames = F → (f vm).Via (VM.Sparing v D a F)) :
    (Host.get >>= f).Via (VM.Sparing v D a F) :=
  fun vm hframes hready => hf vm hframes vm hframes hready

omit [Engine] in
theorem not_mem_of_onStack {vm : VM} {b : Address} (hframes : vm.frames = F) (h : vm.onStack b = false) : b ∉ F := by
  rw [← hframes]
  simpa [VM.onStack] using h

/-- **A service call spares its caller.** -/
theorem sparing_serviceWrapper (hescrow : a ≠ storageDepositEscrow)
    (hD : ∀ a acc, v.contract a = some acc → D a ∧ D acc.owner) (hF : F.Nodup) (ha : a ∈ F) (n : Nat)
    (name exportName : String) (args : List Val) :
    (serviceWrapper v (level v n) name exportName args).Via (VM.Sparing v D a F) := by
  unfold serviceWrapper
  refine sparing_get_bind fun vm₀ hframes₀ => ?_
  refine Host.via_ofOption_bind fun l _ => Host.via_ofOption_bind fun sig _ => ?_
  refine Host.via_require_bind fun hstack => Host.via_bind (sparing_charge _) fun _ => ?_
  have hnot := not_mem_of_onStack hframes₀ hstack
  refine Host.via_bind Host.via_require fun _ => Host.via_bind ?_ fun r => ?_
  · -- the callee's instance is put back when its frame is gone
    intro vm hframes hready
    have hland := sparing_withFrame hescrow hD hF ha hnot n l.module l.ins exportName args hframes hready
    refine ⟨⟨hland.moved.storage, hland.moved.balance⟩, hland.frames, ready_all hland.ready.frames ?_⟩
    intro e he
    obtain ⟨e', he', rfl⟩ := List.mem_map.mp he
    have haddr := (hland.ready.linker e' he').1
    split <;> exact haddr
  · refine Host.via_ofOption_bind fun rets _ => Host.via_require_bind fun _ => ?_
    apply Host.via_same
    intro vm
    cases (sig.returnTypes.zip rets).mapM fun e => fromRaw e.1 e.2 <;> rfl

/-- **A dynamic call spares its caller** where no module has a start function. -/
theorem sparing_serviceCall (hescrow : a ≠ storageDepositEscrow)
    (hD : ∀ a acc, v.contract a = some acc → D a ∧ D acc.owner) (hstart : v.Startless) (hF : F.Nodup) (ha : a ∈ F)
    (n : Nat) (target : Address) (calldata : Bytes) :
    (serviceCall v (level v n) target calldata).Via (VM.Sparing v D a F) := by
  have hP := above_rule (v := v) hescrow D
  have hv := deployed_of_forall hD
  -- linking: the rule gives the frames back, and nothing is written
  have hlink : ∀ depth m, (loadContractDeps v (level v n) depth m).attempt.Via (VM.Sparing v D a F) := by
    intro depth m vm hframes hready
    have hland := hP.loadContractDeps hv (hP.level hv n) depth m vm hframes hready
    obtain ⟨linker, hrelinked⟩ := loadContractDeps_relinked hstart (level v n) depth m vm
    have hjournal : (loadContractDeps v (level v n) depth m vm).2.journal = vm.journal := by rw [hrelinked]
    exact ⟨VM.spares_of_journal hjournal, hland.frames, hland.ready⟩
  unfold serviceCall
  refine sparing_get_bind fun vm₀ hframes₀ => Host.via_require_bind fun hstack => ?_
  have hnot := not_mem_of_onStack hframes₀ hstack
  split
  · exact Host.via_pure 0
  · next acc hacc =>
    refine Host.via_ite (Host.via_pure 0) ?_
    split
    · exact Host.via_pure 0
    · next m hm =>
      refine Host.via_bind (hlink _ m) fun linked => Host.via_ite (Host.via_pure 0) ?_
      refine Host.via_bind (instantiate_via_same (hstart target acc hacc m hm)) fun inst => ?_
      split
      · exact Host.via_pure 0
      · next ins =>
        refine Host.via_bind ?_ fun r => Host.via_ofOption_bind fun _ _ => Host.via_pure 1
        intro vm hframes hready
        have hland : VM.Lands Permission.all D (VM.Spares v a) F
            { vm with callArgs := (resolveEntry m calldata).2 } _ :=
          sparing_withFrame hescrow hD hF ha hnot n m ins (resolveEntry m calldata).1 [] hframes
            (ready_all hready.frames fun e he => (hready.linker e he).1)
        exact ⟨⟨hland.moved.storage, hland.moved.balance⟩, hland.frames,
          ready_all hland.ready.frames fun e he => (hland.ready.linker e he).1⟩

/-- **Every call spares its caller.** -/
theorem sparing_hostCall (hescrow : a ≠ storageDepositEscrow)
    (hD : ∀ a acc, v.contract a = some acc → D a ∧ D acc.owner) (hstart : v.Startless) (hF : F.Nodup) (ha : a ∈ F)
    (n : Nat) (owner : Address) {c : HostCall} (hc : c.isCall = true) (ins : Instance) :
    (VM.hostCall v owner (level v n).call (level v n).service c ins).Via (VM.Sparing v D a F) := by
  have hcall : ∀ target calldata, ((level v n).call target calldata).Via (VM.Sparing v D a F) := by
    intro target calldata
    cases n with
    | zero => exact Host.via_same fun _ => rfl
    | succ n => exact sparing_serviceCall hescrow hD hstart hF ha n target calldata
  have hservice : ∀ name exportName args, ((level v n).service name exportName args).Via (VM.Sparing v D a F) := by
    intro name exportName args
    cases n with
    | zero => exact Host.via_same fun _ => rfl
    | succ n => exact sparing_serviceWrapper hescrow hD hF ha n name exportName args
  suffices h : ∀ vm, (VM.hostBody v owner (level v n).call (level v n).service ins vm c).Via (VM.Sparing v D a F) from
    fun vm => h vm vm
  intro vm
  cases c with
  | contractCall addrPtr argsPtr argsLen =>
    refine Host.via_bind (sparing_charge _) fun _ => Host.via_require_bind fun _ => ?_
    cases ins.readAddr addrPtr with
    | none => exact Host.via_pure _
    | some target =>
      cases ins.readMem argsPtr.toNat argsLen.toNat with
      | none => exact Host.via_pure _
      | some calldata => exact Host.via_bind (hcall target calldata) fun _ => Host.via_pure _
  | service name exportName args => exact Host.via_bind (hservice name exportName args) fun _ => Host.via_pure _
  | _ => cases hc

omit [Engine] in
/-- Choosing the entry and limiting the toll touch neither frames nor dependencies. -/
theorem same_limited (gas : Nat) (m : Module) (entry : String) [Engine] (vm : VM) :
    vm.SameCalls (if gas < vmMaxToll then (vm.entryFor m entry).2.limitToll gas else (vm.entryFor m entry).2) := by
  have hentry : vm.SameCalls (vm.entryFor m entry).2 := by
    unfold VM.entryFor
    split <;> exact ⟨rfl, rfl⟩
  split
  · refine trans_of VM.SameCalls hentry ?_
    unfold VM.limitToll
    split
    · exact ⟨rfl, rfl⟩
    · exact VM.same_charge _ { (vm.entryFor m entry).2 with tollPreburn := _ }
  · exact hentry

/-- In every moment of a run the code stands on top of its own frame, and no frame is there twice. -/
theorem Executing.stacked (hD : ∀ a acc, v.contract a = some acc → D a ∧ D acc.owner) {x : Moment}
    (h : Executing v x) : x.Stacked D := by
  have hv := deployed_of_forall hD
  have hP : Rule v Permission.all D fun _ _ => True := by
    refine Rule.of_changes (fun _ => trivial) (fun _ _ => trivial) ?_ (fun _ _ _ _ _ _ => trivial) fun _ _ _ => trivial
    intro _ _
    constructor <;> simp
  induction h with
  | @entry a account m tx blockTime gas entry ins f vm vm' hacc hmodule hlink hins hfunc =>
    have hnew := hP.newVM hv account tx blockTime m
    rw [hlink] at hnew
    have hsame := same_limited gas m entry vm
    have hready := hnew.ready
    have hinstance := hP.instantiate (hP.level hv maxLevels) (hv a account m hacc hmodule account.owner (.inr rfl)).2
      _ (hsame.1.trans hnew.frames) (ready_all (by rw [hsame.1]; exact hready.frames)
        (by rw [hsame.2]; exact fun e he => (hready.linker e he).1))
    rw [hins] at hinstance
    have hframes : vm'.frames = [account.owner] := hinstance.frames
    refine ⟨?_, ?_, ?_, fun e he => (hinstance.ready.linker e he).1⟩
    · show vm'.frames.head? = _
      rw [hframes]
      rfl
    · show vm'.frames.Nodup
      rw [hframes]
      exact List.nodup_singleton _
    · show ∀ b ∈ vm'.frames, D b
      rw [hframes]
      exact fun b hb => List.mem_singleton.mp hb ▸ (hD a account hacc).2
  | @next x y _ hmove ih =>
    rcases hmove with hproceeds | henters
    · obtain ⟨hlands, howner, -⟩ := hproceeds.lands hP hv ih
      have hstacked := ih.of_lands hlands y.code
      rw [← howner] at hstacked
      exact ⟨hstacked.top, hstacked.nodup, hstacked.all, hstacked.linked⟩
    · exact (henters.pushed hP hD ih).stacked ih

end Moments

/-- **An outgoing call leaves its caller alone**: in every moment of the call, and when it is over — also by a
trap — the caller's storage stands and its balance has not fallen; and the frames are the same again. -/
theorem Executing.outgoing_call (hstart : v.Startless)
    (hescrow : ∀ a acc, v.contract a = some acc → a ≠ storageDepositEscrow ∧ acc.owner ≠ storageDepositEscrow)
    {n : Nat} {C : Address} {c : HostCall} {ins : Instance} {k : List Val → Instance → Prog} {vm : VM}
    (hx : Executing v ⟨n, C, .host c ins k, vm⟩) (hc : c.isCall = true) :
    vm.currentAddress = C ∧
      (∀ y z, Enters v ⟨n, C, .host c ins k, vm⟩ y → Relation.ReflTransGen (Moves v) y z → vm.Spares v C z.vm) ∧
      (VM.hostCall v C (level v n).call (level v n).service c ins vm).2.frames = vm.frames ∧
      vm.Spares v C (VM.hostCall v C (level v n).call (level v n).service c ins vm).2 := by
  have hstacked := hx.stacked hescrow
  have htop : vm.frames.head? = some C := hstacked.top
  have hmem : C ∈ vm.frames := List.mem_of_mem_head? htop
  have hother : C ≠ storageDepositEscrow := hstacked.all C hmem
  refine ⟨?_, ?_, ?_⟩
  · unfold VM.currentAddress
    rw [List.headD_eq_head?_getD, htop]
    rfl
  · intro y z henters hmoves
    -- nothing is written before the callee's frame is pushed; from then on the caller is below the top
    have hpushed := henters.pushed (above_rule hother _) hescrow hstacked
    have hbelow : C ∈ y.vm.frames.tail := by
      rw [hpushed.frames]
      exact hmem
    obtain ⟨-, -, hspares⟩ := spares_of_moves hother hescrow (hpushed.stacked hstacked) hbelow hmoves
    exact (VM.spares_of_journal (henters.journal hstart)).trans hspares
  · have hland := sparing_hostCall hother hescrow hstart hstacked.nodup hmem n C hc ins vm rfl hstacked.ready
    exact ⟨hland.frames, hland.moved⟩

end Calls

/-! ## §6 — the importer's call, by hand -/

/-- The state after both contracts are deployed. -/
def importerState : State :=
  letI := Engine.linking eightName (importerTable entryOnTx)
  State.after (upgradeAll ⟨ZERONET, false⟩ (importerChain.take 4) (State.genesis false))

theorem startless_importerTable (source : Bytes) :
    letI := Engine.linking eightName (importerTable entryOnTx)
    Startless source := by
  let _ := Engine.linking eightName (importerTable entryOnTx)
  intro m hm
  rcases loadContractWasm_importerTable hm with rfl | rfl <;> rfl

/-- The importer links, starts at its plain entry, and can call `eight`. -/
def canCallEight [Engine] (v : View) (account : Contract) : Bool :=
  let r := newVM v account (handPay 9 5 (handAddr 7) 0) 0 (importerModule entryOnTx)
  r.1.isSome && r.2.caller.extra == [] && (VM.charge gasServiceCall r.2).1.isSome &&
    (r.2.linker.lookup "eight").any fun l => !r.2.onStack l.addr &&
      (l.module.exportFuncSig entryOnTx).any (fun sig => !sig.inputTypes.any fun t => t = .f32 ∨ t = .f64) &&
      (l.module.func entryOnTx).any fun f => f.1 == 0

/-- **The importer's entry calls the contract `eight`**, which runs above it. -/
theorem outgoing_call_importer :
    letI := Engine.linking eightName (importerTable entryOnTx)
    ∃ (v : View) (n : Nat) (C : Address) (c : HostCall) (ins : Instance) (k : List Val → Instance → Prog) (vm : VM),
      v.Startless ∧
      (∀ a acc, v.contract a = some acc → a ≠ storageDepositEscrow ∧ acc.owner ≠ storageDepositEscrow) ∧
      Executing v ⟨n, C, .host c ins k, vm⟩ ∧ c.isCall = true ∧ (∃ y, Enters v ⟨n, C, .host c ins k, vm⟩ y) ∧
      vm.currentAddress = C ∧
      (∀ y z, Enters v ⟨n, C, .host c ins k, vm⟩ y → Relation.ReflTransGen (Moves v) y z → vm.Spares v C z.vm) ∧
      (VM.hostCall v C (level v n).call (level v n).service c ins vm).2.frames = vm.frames ∧
      vm.Spares v C (VM.hostCall v C (level v n).call (level v n).service c ins vm).2 := by
  let _ := Engine.linking eightName (importerTable entryOnTx)
  have hall : ∀ e ∈ importerState.contract.cur.toList,
      e.1 ≠ storageDepositEscrow ∧ e.2.owner ≠ storageDepositEscrow := by decide +kernel
  have hany : (importerState.view.contract (handAddr 7)).any (fun account => account.source = importerCode ∧
      canCallEight importerState.view account = true) = true := by decide +kernel
  generalize importerState = s at hall hany
  obtain ⟨account, hacc⟩ : ∃ account, s.view.contract (handAddr 7) = some account := by
    cases hcontract : s.view.contract (handAddr 7) with
    | none => rw [hcontract] at hany; cases hany
    | some account => exact ⟨account, rfl⟩
  rw [hacc, Option.any_some, decide_eq_true_eq] at hany
  obtain ⟨hsource, hcan⟩ := hany
  have hescrow : ∀ a acc, s.view.contract a = some acc →
      a ≠ storageDepositEscrow ∧ acc.owner ≠ storageDepositEscrow := by
    intro a acc h
    obtain ⟨sc, hsc, rfl⟩ := Option.map_eq_some_iff.mp h
    exact hall (a, sc) ((Bucket.mem_toList_iff _ _ _).mpr hsc)
  have hstart : s.view.Startless := fun _ acc _ => startless_importerTable acc.source
  have hmodule : loadContractWasm account.source = some (importerModule entryOnTx) := by
    rw [hsource]
    rfl
  unfold canCallEight at hcan
  simp only [Bool.and_eq_true, beq_iff_eq, Option.isSome_iff_exists, Option.any_eq_true, Bool.not_eq_true'] at hcan
  cases hnew : newVM s.view account (handPay 9 5 (handAddr 7) 0) 0 (importerModule entryOnTx) with
  | mk o vm =>
    rw [hnew] at hcan
    obtain ⟨⟨⟨⟨_, ho⟩, hextra⟩, _, hcharge⟩, l, hlinked, ⟨hstack, sig, hsig, hfloat⟩, ⟨_, f⟩, hfunc, rfl⟩ := hcan
    obtain rfl : o = some () := ho
    have hentry : vm.entryFor (importerModule entryOnTx) entryOnTx = (entryOnTx, vm) := by
      unfold VM.entryFor
      rw [if_pos (.inr hextra)]
    have hexec : Executing s.view ⟨maxLevels, account.owner, .host (.service "eight" entryOnTx []) ⟨none, []⟩
        fun _ ins => .ret [] ins, vm.enter account.owner entryOnTx⟩ := by
      have hins : (importerModule entryOnTx).instantiate s.view (level s.view maxLevels) account.owner
          (if vmMaxToll < vmMaxToll then (vm.entryFor (importerModule entryOnTx) entryOnTx).2.limitToll vmMaxToll
            else (vm.entryFor (importerModule entryOnTx) entryOnTx).2) = (some ⟨none, []⟩, vm) := by
        rw [if_neg (lt_irrefl _), hentry]
        rfl
      have hrun := Executing.entry hacc hmodule hnew hins (by rw [hentry]; rfl)
      rw [hentry] at hrun
      exact hrun
    have hcalled : VM.charge gasServiceCall (vm.enter account.owner entryOnTx) =
        (some (), { vm.enter account.owner entryOnTx with toll := vm.toll + gasServiceCall }) := by
      rcases VM.charge_cases gasServiceCall (vm.enter account.owner entryOnTx) with ⟨hok, -⟩ | hfail
      · exact hok
      · have hsame := VM.fst_charge_congr (show (vm.enter account.owner entryOnTx).toll = vm.toll from rfl) gasServiceCall
        rw [hfail] at hsame
        cases hsame.trans hcharge
    exact ⟨s.view, maxLevels, account.owner, .service "eight" entryOnTx [], ⟨none, []⟩, fun _ ins => .ret [] ins,
      vm.enter account.owner entryOnTx, hstart, hescrow, hexec, rfl,
      ⟨_, .service hlinked hsig hstack hcalled hfloat hfunc rfl⟩, hexec.outgoing_call hstart hescrow rfl⟩

end NgCore
