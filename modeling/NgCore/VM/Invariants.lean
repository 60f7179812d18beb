/-
# NgCore.VM.Invariants — predicates every contract run keeps

Three consequences of `NgCore.VM.Rules`, each reduced to the elementary changes of a run (`Keeping`):

* `Sources`, `Kept` — an account in the journal carries code the state already has, and its reserved entries;
* `Balanced` — pending balances move coins around: their sum does not change and none is negative;
* `Attributed` — where no module has a start function, code acts only on its own address.
-/
import NgCore.VM.Rules

namespace NgCore

open Lib (Bucket)

/-! ## §1 — elementary changes -/

/-- **`Keeping v owner I`** — the elementary changes made for the code of `owner` keep `I`: loading an
account, writing to the executing address's storage through no reserved key, moving covered value from the executing
address or from the escrow to it, leaving a note. -/
structure Keeping (v : View) (owner : Address) (I : VM → Prop) : Prop where
  load : ∀ (vm : VM) (a : Address) (acc : Contract), v.contract a = some acc →
    vm.journal.accounts[a]? = none → I vm →
    I { vm with journal := { vm.journal with accounts := vm.journal.accounts.insert a acc } }
  context : ∀ (vm : VM) (a : Address) (acc : Contract) (w : ContextWrite), a = vm.currentAddress →
    vm.journal.accounts[a]? = some acc → w.Plain → I vm →
    I { vm with
      journal := { vm.journal with
        accounts := vm.journal.accounts.insert a { acc with context := w.apply acc.context } }
      notes := .store a w :: vm.notes }
  move : ∀ (vm : VM) (fromAddr toAddr : Address) (value : Int),
    fromAddr = vm.currentAddress ∨ fromAddr = storageDepositEscrow ∧ toAddr = vm.currentAddress → 0 ≤ value →
    value ≤ vm.journal.balanceOf v fromAddr → I vm → I (VM.transfer v fromAddr toAddr value vm).2
  act : ∀ vm : VM, I vm → I (VM.act owner vm).2
  underflow : ∀ vm : VM, I vm → I { vm with notes := .underflow :: vm.notes }
  idle : ∀ (vm : VM) toll preburn args events bufs linker, I vm →
    I { vm with toll, tollPreburn := preburn, callArgs := args, events, bufs, linker }

/-- The operation keeps `I`, whether it panics or not. -/
def Host.Keeps {α : Type} (I : VM → Prop) (x : Host α) : Prop := ∀ vm, I vm → I (x vm).2

section Keeps

variable {α β : Type} {I : VM → Prop}

theorem Host.keeps_pure (a : α) : (pure a : Host α).Keeps I := fun _ h => h

theorem Host.keeps_get : Host.get.Keeps I := fun _ h => h

theorem Host.keeps_bind {x : Host α} {f : α → Host β} (hx : x.Keeps I) (hf : ∀ a, (f a).Keeps I) :
    (x >>= f).Keeps I := by
  intro vm h
  have hstep := hx vm h
  show I (Host.bind x f vm).2
  unfold Host.bind
  cases hxv : x vm with
  | mk o vm' =>
    rw [hxv] at hstep
    cases o with
    | none => exact hstep
    | some a => exact hf a vm' hstep

theorem Host.keeps_require {c : Prop} [Decidable c] : (Host.require c).Keeps I := by
  intro vm h
  unfold Host.require
  split <;> exact h

theorem Host.keeps_when {c : Prop} [Decidable c] {x : Host Unit} (hx : x.Keeps I) :
    (Host.when c x).Keeps I := by
  intro vm h
  unfold Host.when
  split
  · exact hx vm h
  · exact h

theorem Host.keeps_ite {c : Prop} [Decidable c] {x y : Host α} (hx : x.Keeps I) (hy : y.Keeps I) :
    (if c then x else y).Keeps I := by
  split
  · exact hx
  · exact hy

end Keeps

namespace Keeping

open Host (keeps_pure keeps_get keeps_bind keeps_require keeps_when keeps_ite)

variable {v : View} {owner : Address} {I : VM → Prop} (hI : Keeping v owner I)
include hI

theorem contractOf (a : Address) : (VM.contractOf v a).Keeps I := by
  intro vm h
  unfold VM.contractOf
  split
  · exact h
  · next hnone =>
    split
    · exact h
    · next acc hacc => exact hI.load vm a acc hacc hnone h

omit hI in
theorem contractOf_eq_some {a : Address} {acc : Contract} {vm vm' : VM}
    (h : VM.contractOf v a vm = (some acc, vm')) : vm'.journal.accounts[a]? = some acc := by
  unfold VM.contractOf at h
  split at h
  · next acc' hacc =>
    obtain ⟨hsome, rfl⟩ := Prod.mk.inj h
    rw [hacc, hsome]
  · split at h
    · cases h
    · obtain ⟨hsome, rfl⟩ := Prod.mk.inj h
      obtain rfl := Option.some.inj hsome
      show (vm.journal.accounts.insert a _)[a]? = _
      rw [Bucket.get_insert, if_pos rfl]

theorem vmContext : (VM.vmContext v).Keeps I := by
  intro vm h
  have hstep := hI.contractOf vm.currentAddress vm h
  unfold VM.vmContext
  split <;> next heq => rwa [heq] at hstep

theorem setContext {w : ContextWrite} (hw : w.Plain) : (VM.setContext v w).Keeps I := by
  intro vm h
  have hstep := hI.contractOf vm.currentAddress vm h
  unfold VM.setContext
  split
  · next heq => rwa [heq] at hstep
  · next acc vm' heq =>
    rw [heq] at hstep
    -- loading the account leaves the frames alone
    have hframes : vm'.frames = vm.frames := by
      have hsame := VM.same_contractOf (v := v) vm.currentAddress vm
      rw [heq] at hsame
      exact hsame.1
    have haddr : vm.currentAddress = vm'.currentAddress := by
      unfold VM.currentAddress
      rw [hframes]
    exact hI.context vm' _ acc w haddr (contractOf_eq_some heq) hw hstep

omit hI in
theorem transfer_of_move {fromAddr toAddr : Address} {value : Int}
    (hmove : ∀ vm : VM, 0 ≤ value → value ≤ vm.journal.balanceOf v fromAddr → I vm →
      I (VM.transfer v fromAddr toAddr value vm).2) : (VM.transfer v fromAddr toAddr value).Keeps I := by
  intro vm h
  by_cases hc : value < 0 ∨ vm.journal.balanceOf v fromAddr < value
  · unfold VM.transfer
    dsimp only
    rwa [if_pos hc]
  · rw [not_or, not_lt, not_lt] at hc
    exact hmove vm hc.1 hc.2 h

theorem framed (F : List Address) : Keeping v owner fun vm => vm.frames = F ∧ I vm where
  load vm a acc hacc hnone h := ⟨h.1, hI.load vm a acc hacc hnone h.2⟩
  context vm a acc w ha hacc hw h := ⟨h.1, hI.context vm a acc w ha hacc hw h.2⟩
  move vm fromAddr toAddr value hends hpos hcov h :=
    ⟨(VM.same_transfer _ _ _ vm).1.trans h.1, hI.move vm fromAddr toAddr value hends hpos hcov h.2⟩
  act vm h := ⟨h.1, hI.act vm h.2⟩
  underflow vm h := ⟨h.1, hI.underflow vm h.2⟩
  idle vm toll preburn args events bufs linker h := ⟨h.1, hI.idle vm toll preburn args events bufs linker h.2⟩

theorem transferFrom (F : List Address) (toAddr : Address) (value : Int) :
    (VM.transfer v (F.headD zero32) toAddr value).Keeps fun vm => vm.frames = F ∧ I vm := by
  refine transfer_of_move fun vm hpos hcov h => ?_
  have hfrom : F.headD zero32 = vm.currentAddress := by
    unfold VM.currentAddress
    rw [h.1]
  exact (hI.framed F).move vm _ _ value (.inl hfrom) hpos hcov h

/-- A transfer from the escrow to the address on top of the frames. -/
theorem transferEscrow (F : List Address) (value : Int) :
    (VM.transfer v storageDepositEscrow (F.headD zero32) value).Keeps fun vm => vm.frames = F ∧ I vm := by
  refine transfer_of_move fun vm hpos hcov h => ?_
  have hto : F.headD zero32 = vm.currentAddress := by
    unfold VM.currentAddress
    rw [h.1]
  exact (hI.framed F).move vm _ _ value (.inr ⟨rfl, hto⟩) hpos hcov h

theorem lockDeposit (amount : Nat) : (VM.lockDeposit v owner amount).Keeps I := by
  unfold VM.lockDeposit
  refine keeps_ite (keeps_pure ()) fun vm h => ?_
  have hJ := hI.framed vm.frames
  refine (keeps_bind (hI.transferFrom vm.frames _ _) (fun ok => keeps_bind keeps_require fun _ => ?_) vm ⟨rfl, h⟩).2
  exact keeps_bind hJ.act fun _ => keeps_bind hJ.vmContext fun ctx => hJ.setContext trivial

theorem refundDeposit (amount : Nat) : (VM.refundDeposit v owner amount).Keeps I := by
  unfold VM.refundDeposit
  refine keeps_ite (keeps_pure ()) (keeps_bind hI.vmContext fun ctx vm h => ?_)
  have hJ := hI.framed vm.frames
  have hnote : (Host.modify fun vm => { vm with notes := .underflow :: vm.notes }).Keeps
      fun vm' => vm'.frames = vm.frames ∧ I vm' := hJ.underflow
  refine (keeps_bind (keeps_when hnote) (fun _ => keeps_ite (keeps_pure ()) ?_) vm ⟨rfl, h⟩).2
  refine keeps_bind (hI.transferEscrow vm.frames _) fun ok => ?_
  exact keeps_ite (keeps_pure ()) (keeps_bind hJ.act fun _ => hJ.setContext trivial)

theorem bondSet (key : Bytes) (newSize : Nat) : (VM.bondSet v owner key newSize).Keeps I := by
  unfold VM.bondSet
  refine keeps_bind keeps_get fun vm => keeps_ite (keeps_pure ()) (keeps_bind hI.vmContext fun ctx => ?_)
  exact keeps_ite (hI.lockDeposit _) (keeps_ite (hI.refundDeposit _) (keeps_pure ()))

theorem bondDel (key : Bytes) : (VM.bondDel v owner key).Keeps I := by
  unfold VM.bondDel
  refine keeps_bind keeps_get fun vm => keeps_ite (keeps_pure ()) (keeps_bind hI.vmContext fun ctx => ?_)
  exact keeps_when (hI.refundDeposit _)

theorem putKey {key : Bytes} (hkey : isReservedKey key = false) (value : Bytes) :
    (VM.putKey v owner key value).Keeps I :=
  keeps_bind hI.vmContext fun _ => keeps_bind hI.act fun _ => hI.setContext hkey

theorem delKey {key : Bytes} (hkey : isReservedKey key = false) : (VM.delKey v owner key).Keeps I :=
  keeps_bind hI.vmContext fun _ => keeps_bind hI.act fun _ => hI.setContext hkey

theorem storeKey {key : Bytes} (hkey : isReservedKey key = false) (value : Bytes) :
    (VM.storeKey v owner key value).Keeps I :=
  keeps_bind (hI.bondSet key _) fun _ => hI.putKey hkey value

theorem dropKey {key : Bytes} (hkey : isReservedKey key = false) : (VM.dropKey v owner key).Keeps I :=
  keeps_bind (hI.bondDel key) fun _ => hI.delKey hkey

theorem spend (toAddr : Address) (value : Nat) : (VM.spend v owner toAddr value).Keeps I :=
  fun vm h => (keeps_bind (hI.transferFrom vm.frames _ _)
    (fun _ => keeps_bind (keeps_when (hI.framed vm.frames).act) fun _ => keeps_pure _) vm ⟨rfl, h⟩).2

theorem emitAs (topic data : Bytes) : (VM.emitAs owner topic data).Keeps I := by
  refine keeps_bind keeps_get fun vm => keeps_bind hI.act fun _ => ?_
  intro vm' h
  exact hI.idle vm' vm'.toll vm'.tollPreburn vm'.callArgs _ vm'.bufs vm'.linker h

end Keeping

/-- **The rule of a kept predicate.** What code may do on given frames keeps `J` there. -/
theorem Rule.of_keeping {v : View} {A : Permission} {D : Address → Prop} {J : VM → Prop}
    (hact : ∀ F owner e, A F owner e → Keeping v owner fun vm => vm.frames = F ∧ J vm)
    (hload : ∀ vm, J vm → J (VM.vmContext v vm).2)
    (hidle : ∀ (vm : VM) toll preburn args events bufs linker, J vm →
      J { vm with toll, tollPreburn := preburn, callArgs := args, events, bufs, linker })
    (hframe : ∀ (vm : VM) F, J vm → J { vm with frames := F })
    (henter : ∀ (vm : VM) owner entry,
      (isHook entry = true → ∃ F caller, A F caller .hook) → J vm → J (vm.enter owner entry)) :
    Rule v A D fun vm vm' => J vm → J vm' where
  refl _ h := h
  trans h h' hJ := h' (h hJ)
  idle := hidle
  load := hload
  set vm _ key value hA hkey h := ((hact _ _ _ hA).storeKey hkey value vm ⟨rfl, h⟩).2
  unset vm _ key hA hkey h := ((hact _ _ _ hA).dropKey hkey vm ⟨rfl, h⟩).2
  spend vm _ toAddr value hA h := ((hact _ _ _ hA).spend toAddr value vm ⟨rfl, h⟩).2
  emitAs vm _ topic data hA h := ((hact _ _ _ hA).emitAs topic data vm ⟨rfl, h⟩).2
  frame vm vm' a _ _ _ _ h hJ := hframe vm' vm.frames (h (hframe vm (a :: vm.frames) hJ))
  enter vm owner entry hhook h := henter vm owner entry (fun h => by rw [hhook] at h; cases h) h
  hook vm owner entry caller hA h := henter vm owner entry (fun _ => ⟨_, caller, hA⟩) h

/-- **The rule of a relation** that every elementary change extends. -/
theorem Rule.of_changes {v : View} {A : Permission} {D : Address → Prop} {P : VM → VM → Prop}
    (hrefl : ∀ vm, P vm vm) (htrans : ∀ {vm vm' vm''}, P vm vm' → P vm' vm'' → P vm vm'')
    (hact : ∀ vm owner, Keeping v owner (P vm))
    (hframe : ∀ (vm vm' : VM) a, D a → a ∉ vm.frames → P { vm with frames := a :: vm.frames } vm' →
      P vm { vm' with frames := vm.frames })
    (henter : ∀ (vm : VM) owner entry, P vm (vm.enter owner entry)) : Rule v A D P where
  refl := hrefl
  trans := htrans
  idle vm toll preburn args events bufs linker :=
    (hact vm zero32).idle vm toll preburn args events bufs linker (hrefl vm)
  load vm := (hact vm zero32).vmContext vm (hrefl vm)
  set vm owner _ value _ hkey := (hact vm owner).storeKey hkey value vm (hrefl vm)
  unset vm owner _ _ hkey := (hact vm owner).dropKey hkey vm (hrefl vm)
  spend vm owner toAddr value _ := (hact vm owner).spend toAddr value vm (hrefl vm)
  emitAs vm owner topic data _ := (hact vm owner).emitAs topic data vm (hrefl vm)
  frame vm vm' a hD _ ha _ h := hframe vm vm' a hD ha h
  enter vm owner entry _ := henter vm owner entry
  hook vm owner entry _ _ := henter vm owner entry

/-! ## §2 — predicates of the journal -/

/-- Everything is permitted. -/
def Permission.all : Permission := fun _ _ _ => True

/-- **`Journalled v Q`** — loading, storing and moving value keep the predicate `Q` of journals. -/
structure Journalled (v : View) (Q : Journal → Prop) : Prop where
  load : ∀ (j : Journal) (a : Address) (acc : Contract), v.contract a = some acc → Q j →
    Q { j with accounts := j.accounts.insert a acc }
  context : ∀ (j : Journal) (a : Address) (acc : Contract) (w : ContextWrite), j.accounts[a]? = some acc →
    w.Plain → Q j → Q { j with accounts := j.accounts.insert a { acc with context := w.apply acc.context } }
  move : ∀ (vm : VM) (fromAddr toAddr : Address) (value : Int), 0 ≤ value →
    value ≤ vm.journal.balanceOf v fromAddr → Q vm.journal →
    Q (VM.transfer v fromAddr toAddr value vm).2.journal

/-- The rule of a predicate of journals: whatever the code is. -/
theorem Journalled.rule {v : View} {Q : Journal → Prop} (hQ : Journalled v Q) :
    Rule v Permission.all (fun _ => True) fun vm vm' => Q vm.journal → Q vm'.journal := by
  have hkeep : ∀ owner : Address, Keeping v owner fun vm => Q vm.journal := fun owner =>
    { load := fun vm a acc hacc _ h => hQ.load vm.journal a acc hacc h
      context := fun vm a acc w _ hacc hw h => hQ.context vm.journal a acc w hacc hw h
      move := fun vm fromAddr toAddr value _ hpos hcov h => hQ.move vm fromAddr toAddr value hpos hcov h
      act := fun _ h => h
      underflow := fun _ h => h
      idle := fun _ _ _ _ _ _ _ h => h }
  refine Rule.of_keeping ?_ ?_ ?_ ?_ ?_
  · exact fun F owner _ _ => (hkeep owner).framed F
  · exact (hkeep zero32).vmContext
  · exact fun _ _ _ _ _ _ _ h => h
  · exact fun _ _ h => h
  · exact fun _ _ _ _ h => h

theorem deployed_all [Engine] (v : View) : Deployed v Permission.all fun _ => True :=
  fun _ _ m _ _ b _ => ⟨trivial, Module.permitted_of_forall (fun _ _ _ => trivial) b m⟩

section Runs

variable [Engine] {v : View}

/-- **A kept predicate of journals holds after a whole run.** -/
theorem Journalled.runEntry {Q : Journal → Prop} (hQ : Journalled v Q) {account : Contract}
    (h : Q (newVMJournal account)) (tx : FullTx) (blockTime : Nat) (m : Module) (entry : String)
    (gas : Nat) :
    Q ((newVM v account tx blockTime m).2.runEntry v account.owner m entry gas).2.journal := by
  have hnew := hQ.rule.newVM (deployed_all v) account tx blockTime m
  have hall := Module.permitted_of_forall (A := Permission.all) (fun _ _ _ => trivial) account.owner m
  refine (hQ.rule.runEntry (deployed_all v) hall ?_ ?_ hnew.frames hnew.ready).moved (hnew.moved h)
  · exact fun _ _ _ _ => Prog.all_of_forall (fun _ _ _ => trivial) _
  · exact fun _ _ h => h

end Runs

/-! ## §3 — code in the journal -/

/-- Every account of the journal has code that `p` allows. -/
def Journal.Sources (p : Bytes → Prop) (j : Journal) : Prop :=
  ∀ (a : Address) (acc : Contract), j.accounts[a]? = some acc → p acc.source

/-- A run stores no code: its accounts carry what the state gave it. -/
theorem journalled_sources {v : View} {p : Bytes → Prop}
    (hv : ∀ a acc, v.contract a = some acc → p acc.source) : Journalled v (Journal.Sources p) where
  load j a acc hacc h := by
    intro b acc' hb
    rw [Bucket.get_insert] at hb
    split at hb
    · obtain rfl := Option.some.inj hb
      exact hv a acc hacc
    · exact h b acc' hb
  context j a acc w hacc _ h := by
    intro b acc' hb
    rw [Bucket.get_insert] at hb
    split at hb
    · obtain rfl := Option.some.inj hb
      exact h a acc hacc
    · exact h b acc' hb
  move vm fromAddr toAddr value _ _ h := by
    unfold VM.transfer
    dsimp only
    split <;> exact h

theorem sources_newVMJournal {p : Bytes → Prop} {account : Contract} (h : p account.source) :
    (newVMJournal account).Sources p := by
  intro a acc hacc
  rw [newVMJournal, Bucket.get_insert] at hacc
  split at hacc
  · obtain rfl := Option.some.inj hacc
    exact h
  · simp at hacc

/-- **`Kept v j`** — an account in the journal is the state's, up to its storage, and there up to the entries a
run may write. -/
def Journal.Kept (v : View) (j : Journal) : Prop :=
  ∀ (a : Address) (acc : Contract), j.accounts[a]? = some acc → ∃ old : Contract, v.contract a = some old ∧
    acc.owner = old.owner ∧ acc.source = old.source ∧ KeepsReserved old.context acc.context

theorem journalled_kept (v : View) : Journalled v (Journal.Kept v) where
  load j a acc hacc h := by
    intro b acc' hb
    rw [Bucket.get_insert] at hb
    split at hb
    · next hab =>
      obtain rfl := Option.some.inj hb
      exact ⟨acc, hab ▸ hacc, rfl, rfl, .refl _⟩
    · exact h b acc' hb
  context j a acc w hacc hw h := by
    intro b acc' hb
    rw [Bucket.get_insert] at hb
    split at hb
    · next hab =>
      obtain rfl := Option.some.inj hb
      obtain ⟨old, hold, howner, hsource, hkeeps⟩ := h a acc hacc
      exact ⟨old, hab ▸ hold, howner, hsource, hkeeps.trans (ContextWrite.keepsReserved hw _)⟩
    · exact h b acc' hb
  move vm fromAddr toAddr value _ _ h := by
    unfold VM.transfer
    dsimp only
    split <;> exact h

theorem kept_newVMJournal {v : View} {account : Contract} (h : v.contract account.owner = some account) :
    (newVMJournal account).Kept v := by
  intro a acc hacc
  rw [newVMJournal, Bucket.get_insert] at hacc
  split at hacc
  · next hown =>
    obtain rfl := Option.some.inj hacc
    exact ⟨account, hown ▸ h, rfl, rfl, .refl _⟩
  · simp at hacc

/-! ## §4 — value in the journal -/

/-- What the pending balances add to the state's. -/
def Journal.surplus (v : View) (j : Journal) : Int :=
  Bucket.total (fun a x => x - (v.bal a : Int)) j.balances

theorem Journal.weight_eq (v : View) (j : Journal) (a : Address) :
    Bucket.weight (fun a x => x - (v.bal a : Int)) j.balances a = j.balanceOf v a - v.bal a := by
  unfold Bucket.weight balanceOf
  cases j.balances[a]? with
  | none => simp
  | some x => rfl

/-- Add to one pending balance. -/
def Journal.add (v : View) (j : Journal) (a : Address) (x : Int) : Journal :=
  { j with balances := j.balances.insert a (j.balanceOf v a + x) }

theorem Journal.balanceOf_add (v : View) (j : Journal) (a b : Address) (x : Int) :
    (j.add v a x).balanceOf v b = j.balanceOf v b + if a = b then x else 0 := by
  have hget : (j.add v a x).balances[b]? =
      if a = b then some (j.balanceOf v a + x) else j.balances[b]? :=
    Bucket.get_insert j.balances a b _
  show ((j.add v a x).balances[b]?).getD (v.bal b : Int) = _
  rw [hget]
  split
  · next hab =>
    rw [hab]
    rfl
  · exact (add_zero _).symm

/-- A covered transfer: debit, then credit what is pending AFTER the debit. -/
theorem VM.transfer_covered {v : View} {fromAddr toAddr : Address} {value : Int} {vm : VM}
    (hpos : 0 ≤ value) (hcov : value ≤ vm.journal.balanceOf v fromAddr) :
    VM.transfer v fromAddr toAddr value vm =
      (some true, { vm with
        journal := (vm.journal.add v fromAddr (-value)).add v toAddr value
        notes := .move fromAddr toAddr value :: vm.notes }) := by
  unfold VM.transfer
  dsimp only
  rw [if_neg (by omega)]
  rfl

theorem Journal.surplus_add (v : View) (j : Journal) (a : Address) (x : Int) :
    (j.add v a x).surplus v = j.surplus v + x := by
  have h := Bucket.total_insert_add (fun a x => x - (v.bal a : Int)) j.balances a (j.balanceOf v a + x)
  rw [j.weight_eq v a] at h
  unfold surplus
  show Bucket.total _ (j.balances.insert a (j.balanceOf v a + x)) = _
  omega

/-- **`Balanced v j`** — the pending balances add nothing up, and none is negative. -/
structure Journal.Balanced (v : View) (j : Journal) : Prop where
  surplus : j.surplus v = 0
  nonneg : ∀ a, 0 ≤ j.balanceOf v a

/-- **Transfers conserve value**, also a transfer to oneself. -/
theorem journalled_balanced (v : View) : Journalled v (Journal.Balanced v) where
  load j a acc _ h := ⟨h.surplus, h.nonneg⟩
  context j a acc w _ _ h := ⟨h.surplus, h.nonneg⟩
  move vm fromAddr toAddr value hpos hcov h := by
    rw [VM.transfer_covered hpos hcov]
    refine ⟨?_, ?_⟩
    · show Journal.surplus v (Journal.add v _ toAddr value) = 0
      rw [Journal.surplus_add, Journal.surplus_add, h.surplus]
      omega
    · intro a
      show 0 ≤ Journal.balanceOf v (Journal.add v _ toAddr value) a
      have hold := h.nonneg a
      rw [Journal.balanceOf_add, Journal.balanceOf_add]
      by_cases hfrom : fromAddr = a
      · subst hfrom
        split <;> simp <;> omega
      · rw [if_neg hfrom]
        split <;> omega

theorem balanced_newVMJournal (v : View) (account : Contract) : (newVMJournal account).Balanced v :=
  ⟨rfl, fun a => Int.natCast_nonneg (v.bal a)⟩

/-! ## §5 — whose code acts -/

/-- Code acts on the executing address only as itself. -/
def Permission.own : Permission := fun frames owner _ => frames.head? = some owner

/-- Every act on the trail is of code on its own address. -/
def Attributed (l : List RunNote) : Prop := ∀ owner on, .act owner on ∈ l → owner = on

theorem attributed_nil : Attributed [] := fun _ _ h => by cases h

theorem Attributed.cons {l : List RunNote} (h : Attributed l) {n : RunNote}
    (hn : ∀ owner on, n = .act owner on → owner = on) : Attributed (n :: l) := by
  intro owner on hmem
  rcases List.mem_cons.mp hmem with heq | hold
  · exact hn owner on heq.symm
  · exact h owner on hold

/-- The rule of attribution, for code that keeps to `Permission.own`. -/
theorem attributed_rule (v : View) :
    Rule v Permission.own (fun _ => True) fun vm vm' => Attributed vm.notes → Attributed vm'.notes := by
  refine Rule.of_keeping ?_ ?_ ?_ ?_ ?_
  · intro F owner _ hown
    refine ⟨?_, ?_, ?_, ?_, ?_, ?_⟩
    · exact fun vm a acc _ _ h => h
    · exact fun vm a acc w _ _ _ h => ⟨h.1, h.2.cons (by simp)⟩
    · intro vm fromAddr toAddr value _ hpos hcov h
      rw [VM.transfer_covered hpos hcov]
      exact ⟨h.1, h.2.cons (by simp)⟩
    · rintro vm ⟨rfl, h⟩
      refine ⟨rfl, h.cons ?_⟩
      -- the frame on top is the owner's
      intro owner' on heq
      obtain ⟨hsame, hon⟩ := RunNote.act.inj heq
      rw [← hsame, ← hon]
      show owner = vm.frames.headD zero32
      rw [List.headD_eq_head?_getD, show vm.frames.head? = some owner from hown]
      rfl
    · exact fun vm h => ⟨h.1, h.2.cons (by simp)⟩
    · exact fun vm _ _ _ _ _ _ h => h
  · intro vm h
    have hload : (VM.vmContext v vm).2.notes = vm.notes := by
      unfold VM.vmContext VM.contractOf
      cases vm.journal.accounts[vm.currentAddress]? with
      | some acc => rfl
      | none => cases v.contract vm.currentAddress <;> rfl
    rw [hload]
    exact h
  · exact fun _ _ _ _ _ _ _ h => h
  · exact fun _ _ h => h
  · exact fun _ _ _ _ h => h.cons (by simp)

/-- A module without a start function runs only on a frame of its own. -/
theorem Module.permitted_own {m : Module} (hm : m.start = none) (b : Address) :
    m.Permitted Permission.own b where
  func _ _ _ _ _ _ _ _ _ := Prog.all_of_forall (fun _ _ _ => rfl) _
  start _ _ _ hstart := by rw [hm] at hstart; cases hstart

/-- **A whole run is attributed**, where no module it can load has a start function. -/
theorem attributed_runEntry [Engine] {v : View} {account : Contract} {tx : FullTx} {blockTime : Nat}
    {m : Module} (entry : String) (gas : Nat)
    (hv : ∀ a acc m, v.contract a = some acc → loadContractWasm acc.source = some m → m.start = none)
    (hm : m.start = none) :
    Attributed (newVM v account tx blockTime m).2.notes ∧
      Attributed ((newVM v account tx blockTime m).2.runEntry v account.owner m entry gas).2.notes := by
  have hdeployed : Deployed v Permission.own fun _ => True := fun a acc m hacc hload b _ =>
    ⟨trivial, Module.permitted_own (hv a acc m hacc hload) b⟩
  have hnew := (attributed_rule v).newVM hdeployed account tx blockTime m
  have hnotes := hnew.moved attributed_nil
  refine ⟨hnotes, ((attributed_rule v).runEntry hdeployed (Module.permitted_own hm account.owner) ?_ ?_
    hnew.frames hnew.ready).moved hnotes⟩
  · intro _ _ _ _
    exact Prog.all_of_forall (fun _ _ _ => rfl) _
  · exact fun _ _ h => h.cons (by simp)

end NgCore
