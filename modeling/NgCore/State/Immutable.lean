/-
# NgCore.State.Immutable — contracts without an upgrade hook

A deploy transaction replaces or removes a live slot only after the slot's OWN code has run its `ng:upgrade` to
completion. Code that does not export that hook without arguments never completes it, so its slot stands for good:
contract runs write accounts back with the code they found, the dependency ledger rewrites reference counts only, and
a stored module is kept as long as a slot refers to it.

DELIVERABLE: `State.Operated.immutable`.
-/
import NgCore.State.Triples
import NgCore.State.Ledger
import NgCore.State.InPlace

namespace NgCore

open Lib (Bucket Txn)
open StateTxn (Ensures ensures_require_bind ensures_when)
open Lib.Txn (ensures_pure ensures_fail ensures_tell ensures_bind ensures_look_bind ensures_ofExcept_bind
  ensures_forM ensures_of_forall)

/-! ## §1 — stored modules are never exchanged -/

namespace State

section Content

variable {s : State} {hash : Bytes32} {refs : Nat} {code : Bytes}

theorem content_retainCode (h : s.code[hash]? = some (refs, code)) (hash' : Bytes32) (source : Bytes) :
    ∃ refs', (s.retainCode hash' source).code[hash]? = some (refs', code) := by
  unfold retainCode
  split
  · next hnone =>
    show ∃ refs', (s.code.insert hash' (1, source))[hash]? = some (refs', code)
    rw [Bucket.get_insert, if_neg]
    · exact ⟨refs, h⟩
    · rintro rfl
      cases hnone.symm.trans h
  · next refs₁ code₁ hsome =>
    show ∃ refs', (s.code.insert hash' (refs₁ + 1, code₁))[hash]? = some (refs', code)
    rw [Bucket.get_insert]
    split
    · next heq =>
      subst heq
      obtain ⟨rfl, rfl⟩ := Prod.mk.inj (Option.some.inj (hsome.symm.trans h))
      exact ⟨refs₁ + 1, rfl⟩
    · exact ⟨refs, h⟩

theorem content_releaseCode (h : s.code[hash]? = some (refs, code)) (hash' : Bytes32) (keep : Bool) :
    (hash' = hash ∧ (s.releaseCode hash' keep).code[hash]? = none) ∨
      ∃ refs', (s.releaseCode hash' keep).code[hash]? = some (refs', code) := by
  unfold releaseCode
  split
  · exact .inr ⟨refs, h⟩
  · next refs₁ code₁ hsome =>
    split
    · by_cases heq : hash' = hash
      · refine .inl ⟨heq, ?_⟩
        show (s.code.erase hash')[hash]? = none
        rw [Bucket.get_erase, if_pos heq]
      · right
        show ∃ refs', (s.code.erase hash')[hash]? = some (refs', code)
        rw [Bucket.get_erase, if_neg heq]
        exact ⟨refs, h⟩
    · right
      show ∃ refs', (s.code.insert hash' (refs₁ - 1, code₁))[hash]? = some (refs', code)
      rw [Bucket.get_insert]
      split
      · next heq =>
        subst heq
        obtain ⟨rfl, rfl⟩ := Prod.mk.inj (Option.some.inj (hsome.symm.trans h))
        exact ⟨refs₁ - 1, rfl⟩
      · exact ⟨refs, h⟩

/-- **A write keeps a stored module or deletes it**: it never puts another one in its place. -/
theorem content_step [Crypto] (h : s.code[hash]? = some (refs, code)) (w : Write) :
    (w.step s).code[hash]? = none ∨ ∃ refs', (w.step s).code[hash]? = some (refs', code) := by
  rcases w.slots_cases s with ⟨rec, account, rfl⟩ | ⟨rec, a, rfl⟩ | hsame
  · rw [show ((Write.setContract rec account).step s).code = (s.reconcileCode rec account).code from
      congrArg Prod.snd (slots_setContract rec account s)]
    unfold reconcileCode
    dsimp only
    split
    · exact .inr (content_retainCode h _ _)
    · next old _ =>
      split
      · exact .inr ⟨refs, h⟩
      · next hother =>
        rcases content_releaseCode h old.codeHash rec.isSome with ⟨heq, hgone⟩ | ⟨refs', hkept⟩
        · -- the module that is stored next has another hash
          left
          subst heq
          unfold retainCode
          split
          · show (Std.ExtTreeMap.insert _ _ _)[old.codeHash]? = none
            rw [Bucket.get_insert, if_neg (Ne.symm hother), hgone]
          · show (Std.ExtTreeMap.insert _ _ _)[old.codeHash]? = none
            rw [Bucket.get_insert, if_neg (Ne.symm hother), hgone]
        · exact .inr (content_retainCode hkept _ _)
  · rw [show ((Write.delContract rec a).step s).code = (s.releaseSlot rec a).code from
      congrArg Prod.snd (slots_delContract rec a s)]
    unfold releaseSlot
    split
    · exact .inr ⟨refs, h⟩
    · next old _ =>
      rcases content_releaseCode h old.codeHash rec.isSome with ⟨-, hgone⟩ | hkept
      · exact .inl hgone
      · exact .inr hkept
  · rw [show (w.step s).code = s.code from congrArg Prod.snd hsame]
    exact .inr ⟨refs, h⟩

end Content

/-! ## §2 — a slot that stands -/

section Standing

variable [Engine] {cfg : Config} {a : Address} {c : Bytes} {height : Nat}

/-- **`Standing cfg a c s`** — `a` has an active slot with the code `c`. -/
structure Standing (cfg : Config) (a : Address) (c : Bytes) (s : State) : Prop
    extends Grounded cfg (fun _ => True) s where
  slot : ∃ sc, s.contract.cur[a]? = some sc ∧ sc.codeHash = hash256 c ∧ sc.bare.isActive = true
  code : ∃ refs, s.code[hash256 c]? = some (refs, c)

theorem Standing.contract {s : State} (h : s.Standing cfg a c) {account : Contract}
    (hacc : s.view.contract a = some account) : account.owner = a ∧ account.source = c ∧ account.isActive = true := by
  obtain ⟨sc, hsc, hhash, hactive⟩ := h.slot
  obtain ⟨sc', hsc', rfl⟩ := view_contract_eq_some hacc
  obtain rfl := Option.some.inj (hsc.symm.trans hsc')
  obtain ⟨refs, hcode⟩ := h.code
  refine ⟨h.housed.cur a sc hsc, ?_, hactive⟩
  show s.loadCode sc.codeHash = c
  unfold State.loadCode
  rw [hhash, hcode]
  rfl

theorem Standing.exists_contract {s : State} (h : s.Standing cfg a c) : ∃ account, s.view.contract a = some account := by
  obtain ⟨sc, hsc, -⟩ := h.slot
  exact ⟨_, view_contract_of_cur hsc⟩

/-- After a write that leaves the slot of `a` with its code, the module is still stored. -/
theorem Standing.of_slot {s : State} (h : s.Standing cfg a c) {w : Write}
    (hw : w.Permitted (cfg.recorder height) (fun _ => True) fun _ => True)
    (hslot : ∃ sc, (w.step s).contract.cur[a]? = some sc ∧ sc.codeHash = hash256 c ∧ sc.bare.isActive = true) :
    (w.step s).Standing cfg a c := by
  have hgrounded := h.toGrounded.step hw
  refine ⟨hgrounded, hslot, ?_⟩
  obtain ⟨sc, hsc, hhash, -⟩ := hslot
  obtain ⟨refs, hcode⟩ := h.code
  rcases content_step hcode w with hgone | hkept
  · have hstored : (w.step s).code[sc.codeHash]? ≠ none := by
      cases harchive : cfg.archive with
      | true => exact (hgrounded.sheltered.coded harchive).cur a sc hsc
      | false => exact (hgrounded.sheltered.counted harchive).stored hsc
    rw [hhash] at hstored
    exact absurd hgone hstored
  · exact hkept

theorem Standing.aside {w : Write} (hw : w.Aside (cfg.recorder height)) {s : State} (h : s.Standing cfg a c) :
    (w.step s).Standing cfg a c := by
  refine h.of_slot (hw.permitted _) ?_
  rw [show (w.step s).contract = s.contract from congrArg Prod.fst (hw.slots s)]
  exact h.slot

theorem Standing.setContract {s : State} (h : s.Standing cfg a c) {account : Contract}
    (hsame : account.owner = a → account.source = c ∧ account.isActive = true) :
    (s.setContract (cfg.recorder height) account).Standing cfg a c := by
  refine h.of_slot (w := .setContract _ account) ⟨rfl, trivial⟩ ?_
  rw [show ((Write.setContract (cfg.recorder height) account).step s).contract.cur = _ from
    cur_setContract (cfg.recorder height) account s, Bucket.get_insert]
  split
  · next howner =>
    obtain ⟨rfl, hactive⟩ := hsame howner
    exact ⟨_, rfl, rfl, hactive⟩
  · exact h.slot

theorem Standing.delContract {s : State} (h : s.Standing cfg a c) {b : Address} (hb : b ≠ a) :
    (s.delContract (cfg.recorder height) b).Standing cfg a c := by
  refine h.of_slot (w := .delContract _ b) rfl ?_
  rw [show ((Write.delContract (cfg.recorder height) b).step s).contract.cur = _ from
    cur_delContract (cfg.recorder height) b s, Bucket.get_erase, if_neg hb]
  exact h.slot

/-! ## §3 — contract runs -/

theorem Standing.putBalances {s : State} (h : s.Standing cfg a c) (l : List (Address × Int)) :
    (s.putBalances (cfg.recorder height) l).Standing cfg a c := by
  induction l generalizing s with
  | nil => exact h
  | cons e l ih => exact ih (h.aside (w := .setBalance (cfg.recorder height) e.1 e.2) rfl)

theorem Standing.putAccounts {s : State} (h : s.Standing cfg a c) {l : List (Address × Contract)}
    (hl : ∀ e ∈ l, e.2.owner = a → e.2.source = c ∧ e.2.isActive = true) :
    (s.putAccounts (cfg.recorder height) l).Standing cfg a c := by
  induction l generalizing s with
  | nil => exact h
  | cons e l ih =>
    obtain ⟨hhead, htail⟩ := List.forall_mem_cons.mp hl
    exact ih (h.setContract hhead) htail

/-- **A contract run leaves the slot standing.** -/
theorem Standing.ensures_runContract (addr : Address) (tx : FullTx) (entry : String) (blockTime gas : Nat) :
    Ensures (Standing cfg a c) (runContract (cfg.recorder height) addr tx entry blockTime gas)
      fun _ => Standing cfg a c := by
  rintro s ⟨ok, gas'⟩ s' h hrun
  have hnoted : ∀ l, (s.noted l).Standing cfg a c := by
    intro l
    have hnotes : (Write.notes l).Aside (cfg.recorder height) := trivial
    exact h.aside hnotes
  rcases exec_runContract hrun with ⟨-, l, rfl⟩ | ⟨-, account, m, vm, l, hcompletes, rfl⟩
  · exact hnoted l
  · refine ((hnoted l).putBalances _).putAccounts fun e he howner => ?_
    -- an account of the journal is the state's, with its code and its active flag
    obtain ⟨old, hold, howner', hsource, hkeeps⟩ :=
      hcompletes.kept h.housed e.1 e.2 ((Bucket.mem_toList_iff _ _ _).mp he)
    have haddr : e.1 = a := (h.housed.owner hold).symm.trans (howner'.symm.trans howner)
    rw [haddr] at hold
    obtain ⟨-, holdsource, holdactive⟩ := h.contract hold
    refine ⟨hsource.trans holdsource, ?_⟩
    unfold Contract.isActive
    rw [hkeeps.get (by decide) (by decide)]
    exact holdactive

/-! ## §4 — the hook that is missing -/

/-- **`NoUpgrade c`** — the code `c` exports no `ng:upgrade` without arguments. -/
def NoUpgrade (c : Bytes) : Prop := ∀ m f, loadContractWasm c = some m → m.func entryOnUpgrade ≠ some (0, f)

theorem Standing.hook_fails (hc : NoUpgrade c) {tx : FullTx} {blockTime gas : Nat} {s s' : State} {r : Bool × Nat}
    (h : s.Standing cfg a c)
    (hrun : (runContract (cfg.recorder height) a tx entryOnUpgrade blockTime gas).exec s = .ok (r, s')) :
    r.1 = false := by
  obtain ⟨ok, gas'⟩ := r
  rcases exec_runContract hrun with ⟨rfl, -⟩ | ⟨-, account, m, vm, l, hcompletes, rfl⟩
  · rfl
  · obtain ⟨-, hsource, -⟩ := h.contract hcompletes.contract
    have hloads := hcompletes.loads
    rw [hsource] at hloads
    have hruns := hcompletes.runs
    generalize (newVM s.view account tx blockTime m).2 = vm₀ at hruns
    -- the hook is the entry, whatever the call data is
    have hentry : vm₀.entryFor m entryOnUpgrade = (entryOnUpgrade, vm₀) := by
      unfold VM.entryFor
      exact if_pos (.inl (by decide))
    unfold VM.runEntry VM.run at hruns
    rw [hentry] at hruns
    dsimp only at hruns
    split at hruns
    · cases hruns
    · next ins vm₁ _ =>
      unfold Module.callExportedFunc at hruns
      cases hfunc : m.func entryOnUpgrade with
      | none =>
        rw [hfunc] at hruns
        cases hruns
      | some e =>
        obtain ⟨arity, f⟩ := e
        rw [hfunc] at hruns
        dsimp only at hruns
        split at hruns
        · next harity =>
          obtain rfl : 0 = arity := harity
          exact absurd hfunc (hc m f hloads)
        · cases hruns

/-! ## §5 — transactions -/

theorem Standing.setRefCount {s : State} (h : s.Standing cfg a c) {b : Address} {account : Contract}
    (hacc : s.view.contract b = some account) (n : Nat) :
    (s.setContract (cfg.recorder height) (account.setRefCount n)).Standing cfg a c := by
  apply h.setContract
  intro howner
  rw [Contract.owner_setRefCount, h.housed.owner hacc] at howner
  subst howner
  obtain ⟨-, hsource, hactive⟩ := h.contract hacc
  refine ⟨(account.setRefCount_source n).trans hsource, ?_⟩
  unfold Contract.isActive
  rw [account.get_setRefCount n (by decide)]
  exact hactive

theorem Standing.ensures_pinDeps (deps : List Address) :
    Ensures (Standing cfg a c) (pinDeps (cfg.recorder height) deps) fun _ => Standing cfg a c := by
  refine ensures_forM (I := fun _ => Standing cfg a c) fun d _ _ => ensures_look_bind fun s hs => ?_
  split
  · exact ensures_fail _
  · next acc hacc => exact ensures_tell fun t ht => ht ▸ hs.setRefCount hacc _

theorem Standing.ensures_releaseContractDeps (slot : Contract) :
    Ensures (Standing cfg a c) (releaseContractDeps (cfg.recorder height) slot) fun _ => Standing cfg a c := by
  refine ensures_ofExcept_bind fun deps _ => ?_
  refine ensures_forM (I := fun _ => Standing cfg a c) fun d _ _ => ensures_look_bind fun s hs => ?_
  split
  · exact ensures_fail _
  · next acc hacc =>
    refine Txn.Ensures.mono (P := fun t => t = s) (Q := fun _ => Standing cfg a c) ?_ (fun _ h => h) fun _ _ h => h
    unfold StateTxn.when
    split
    · exact ensures_tell fun t ht => ht ▸ hs.setRefCount hacc _
    · exact ensures_pure fun t ht => ht ▸ hs

theorem Standing.ensures_installContract {b : Address} (hb : b ≠ a) {tx : FullTx} {slot : Contract}
    (howner : slot.owner = b) (newSource : Bytes) (newDeps : List Address) (blockTime gas : Nat) :
    Ensures (Standing cfg a c) (installContract (cfg.recorder height) tx b slot newSource newDeps blockTime gas)
      fun _ => Standing cfg a c := by
  refine ensures_bind (ensures_pinDeps newDeps) fun _ => ensures_bind (Q := fun _ => Standing cfg a c) ?_ fun _ => ?_
  · refine ensures_tell fun s hs => hs.setContract fun hself => ?_
    rw [Contract.owner_setContractDeps] at hself
    exact absurd (howner.symm.trans hself) hb
  · exact ensures_bind (ensures_runContract _ _ _ _ _) fun r => ensures_pure fun t ht => ht

/-- **A deploy leaves the slot standing**: its owner's, because the hook does not complete, and any other. -/
theorem Standing.ensures_handleDeploy (hne : c ≠ []) (hc : NoUpgrade c) (tx : FullTx) (blockTime gas : Nat) :
    Ensures (Standing cfg a c) (handleDeploy cfg (cfg.recorder height) tx blockTime gas)
      fun _ => Standing cfg a c := by
  have haside : ∀ (w : Write) (t : State), w.Aside (cfg.recorder height) → t.Standing cfg a c →
      (w.step t).Standing cfg a c := fun w t hw ht => ht.aside hw
  refine ensures_look_bind fun s hs => ensures_ofExcept_bind fun _ _ => ?_
  refine ensures_bind ((ensures_chargeFrom haside tx _).mono (fun t ht => ht ▸ hs) fun _ _ h => h) fun b => ?_
  refine ensures_of_forall fun t ht => ensures_ofExcept_bind fun newSource _ => ensures_require_bind fun _ => ?_
  refine ensures_look_bind fun s₁ hs₁ => ?_
  subst hs₁
  obtain ⟨-, hstanding⟩ := ht
  dsimp only
  by_cases hba : b = a
  · -- the owner's own deploy
    subst hba
    obtain ⟨slot, hslot⟩ := hstanding.exists_contract
    obtain ⟨-, hsource, hactive⟩ := hstanding.contract hslot
    have hlive : slot.isLive = true := decide_eq_true ⟨hactive, fun h => hne (hsource.symm.trans h)⟩
    rw [hslot, Option.filter_some, if_pos hlive]
    have hhook : ∀ (β : Type) (f : Bool × Nat → StateTxn β), (∀ r, r.1 = false →
        Ensures (Standing cfg b c) (f r) fun _ => Standing cfg b c) →
        Ensures (fun t => t = s₁) (runContract (cfg.recorder height) b tx entryOnUpgrade blockTime gas >>= f)
          fun _ => Standing cfg b c := by
      intro β f hf
      refine ensures_bind (Q := fun r t => r.1 = false ∧ t.Standing cfg b c) ?_ fun r => ?_
      · rintro t r t' rfl hrun
        exact ⟨hstanding.hook_fails hc hrun, ensures_runContract _ _ _ _ _ t r t' hstanding hrun⟩
      · intro t x t' ht hrun
        exact hf r ht.1 t x t' ht.2 hrun
    split
    · refine ensures_require_bind fun _ => hhook _ _ fun r hr => ?_
      show Ensures _ (if r.1 = false then _ else _) _
      rw [if_pos hr]
      exact ensures_pure fun t ht => ht
    · refine ensures_require_bind fun _ => ensures_ofExcept_bind fun newDeps _ => hhook _ _ fun r hr => ?_
      show Ensures _ (if r.1 = false then _ else _) _
      rw [if_pos hr]
      exact ensures_pure fun t ht => ht
  · -- somebody else's
    have hstart : ∀ t : State, t = s₁ → t.Standing cfg a c := fun t ht => ht ▸ hstanding
    refine Txn.Ensures.mono (P := Standing cfg a c) ?_ hstart fun _ _ h => h
    split
    · split
      · exact ensures_fail _
      · next slot hslot =>
        refine ensures_require_bind fun _ => ensures_bind (ensures_runContract _ _ _ _ _) fun r => ?_
        show Ensures _ (if r.1 = false then _ else _) _
        split
        · exact ensures_pure fun t ht => ht
        · refine ensures_bind (ensures_releaseContractDeps slot) fun _ =>
            ensures_bind (Q := fun _ => Standing cfg a c) ?_ fun _ => ?_
          · refine ensures_when fun _ => ensures_aside haside ?_
            exact writes_refundContractDeposit (fun _ _ => rfl) trivial _ _
          · exact ensures_bind (Q := fun _ => Standing cfg a c) (ensures_tell fun t ht => ht.delContract hba)
              fun _ => ensures_pure fun t ht => ht
    · refine ensures_require_bind fun _ => ensures_ofExcept_bind fun newDeps _ => ?_
      split
      · exact ensures_installContract hba rfl newSource newDeps blockTime gas
      · next slot hslot =>
        have howner : slot.owner = b := hstanding.housed.owner (Option.eq_some_of_filter_eq_some hslot)
        refine ensures_bind (ensures_runContract _ _ _ _ _) fun r => ?_
        show Ensures _ (if r.1 = false then _ else _) _
        split
        · exact ensures_pure fun t ht => ht
        · refine ensures_bind (ensures_releaseContractDeps slot) fun _ => ?_
          exact ensures_installContract hba howner newSource newDeps blockTime r.2

/-- **One block leaves the slot standing.** -/
theorem Standing.upgrade (hne : c ≠ []) (hc : NoUpgrade c) {block : FullBlock} {s s' : State}
    (h : s.Standing cfg a c) (hrun : (NgCore.upgrade cfg block).exec s = .ok ((), s')) : s'.Standing cfg a c := by
  have haside : ∀ (w : Write) (t : State), w.Aside (cfg.recorder block.getHeight) → t.Standing cfg a c →
      (w.step t).Standing cfg a c := fun w t hw ht => ht.aside hw
  refine ensures_upgrade_of haside (fun tx _ gas => ?_) s () s' h hrun
  exact ensures_handleTx_of haside ensures_runContract (fun _ h => h)
    (fun _ gas => ensures_handleDeploy hne hc tx _ gas) gas

/-- **Any blocks leave the slot standing.** -/
theorem Standing.upgradesTo (hne : c ≠ []) (hc : NoUpgrade c) {blocks : List FullBlock} {s s' : State}
    (h : s.Standing cfg a c) (hrun : UpgradesTo cfg s blocks s') : s'.Standing cfg a c := by
  induction hrun with
  | nil => exact h
  | cons head _ ih => exact ih (h.upgrade hne hc head)

/-! ## §6 — from every state of a node -/

theorem Reached.unwindHeights (target depth : Nat) {s : State} (h : Reached s) :
    Reached (s.unwindHeights target depth) := by
  induction depth generalizing s with
  | zero => exact h
  | succ depth ih => exact ih (h.unwind _)

theorem Operated.reached {s : State} (h : Operated cfg s) : Reached s := by
  induction h with
  | genesis hinit => exact .genesis hinit
  | upgrade _ hrun ih => exact ih.upgrade hrun
  | @unwind tip target s s' _ hunwind ih =>
    unfold unwindTo at hunwind
    split at hunwind
    · cases hunwind
    · split at hunwind
      · obtain rfl := Option.some.inj hunwind
        exact ih
      · split at hunwind
        · cases hunwind
        · obtain rfl := Option.some.inj hunwind
          exact ih.unwindHeights target _
  | sheet sheet _ ih => exact ih.sheet sheet
  | replay _ hrun ih => exact ih.replay hrun

theorem Operated.standing {s : State} (hs : Operated cfg s) {account : Contract}
    (hacc : s.getContract a = some account) (hlive : account.isLive = true) : s.Standing cfg a account.source := by
  obtain ⟨sc, hsc, rfl⟩ := view_contract_eq_some hacc
  obtain ⟨refs, code, hcode, hhash⟩ := hs.code_sound.1 a sc hsc
  have hload : s.loadCode sc.codeHash = code := by
    unfold State.loadCode
    rw [hcode]
    rfl
  obtain ⟨hactive, -⟩ := of_decide_eq_true hlive
  refine ⟨⟨hs.sheltered, hs.reached.housed, fun _ _ _ => trivial⟩, ⟨sc, hsc, ?_, hactive⟩, refs, ?_⟩
  · show sc.codeHash = hash256 (s.loadCode sc.codeHash)
    rw [hload, hhash]
  · show s.code[hash256 (s.loadCode sc.codeHash)]? = some (refs, s.loadCode sc.codeHash)
    rw [hload, hhash, hcode]

/-- **Contracts without an upgrade hook are immutable**: whatever blocks are applied from a state a node reaches, a
live slot whose code has no zero-argument `ng:upgrade` stays, live and with its code. -/
theorem Operated.immutable {s s' : State} (hs : Operated cfg s) {account : Contract}
    (hacc : s.getContract a = some account) (hlive : account.isLive = true) (hc : NoUpgrade account.source)
    {blocks : List FullBlock} (hrun : UpgradesTo cfg s blocks s') :
    ∃ account', s'.getContract a = some account' ∧ account'.source = account.source ∧ account'.isLive = true := by
  have hne : account.source ≠ [] := (of_decide_eq_true hlive).2
  have hstanding := (hs.standing hacc hlive).upgradesTo hne hc hrun
  obtain ⟨account', hacc'⟩ := hstanding.exists_contract
  obtain ⟨-, hsource, hactive⟩ := hstanding.contract hacc'
  exact ⟨account', hacc', hsource, decide_eq_true ⟨hactive, fun h => hne (hsource.symm.trans h)⟩⟩

end Standing
end State

/-- Key 8 deploys code without entries, and then tries to replace it. -/
def fixedChain : List FullBlock :=
  letI := Crypto.ofHash handHash
  let b1 := handSeal handGenesis 8 [] []
  let b2 := handSeal b1 8 [] [handCommit 8 2 0 (handDeploy 8 3 idleCode)]
  let b3 := handSeal b2 9 [handDeploy 8 3 idleCode] []
  let b4 := handSeal b3 9 [] [handCommit 8 4 0 (handDeploy 8 5 keeperCode)]
  [b1, b2, b3, b4, handSeal b4 9 [handDeploy 8 5 keeperCode] []]

theorem immutable_fixedChain :
    letI := Engine.byHand keeperTable
    ∃ s s' account, State.Operated ⟨ZERONET, false⟩ s ∧ s.getContract (handAddr 8) = some account ∧
      account.isLive = true ∧ State.NoUpgrade account.source ∧
      UpgradesTo ⟨ZERONET, false⟩ s (fixedChain.drop 3) s' ∧
      ∃ account', s'.getContract (handAddr 8) = some account' ∧ account'.source = account.source ∧
        account'.isLive = true := by
  let _ := Engine.byHand keeperTable
  have hrun := State.eq_after
    (x := upgradeAll ⟨ZERONET, false⟩ (fixedChain.take 3) (State.genesis false)) (by decide +kernel)
  have hrun' := State.eq_after
    (x := upgradeAll ⟨ZERONET, false⟩ (fixedChain.drop 3) (State.after
      (upgradeAll ⟨ZERONET, false⟩ (fixedChain.take 3) (State.genesis false)))) (by decide +kernel)
  have hslot : ((State.after (upgradeAll ⟨ZERONET, false⟩ (fixedChain.take 3) (State.genesis false))).getContract
      (handAddr 8)).any (fun account => account.isLive && account.source == idleCode) = true := by decide +kernel
  generalize State.after (upgradeAll ⟨ZERONET, false⟩ (fixedChain.take 3) (State.genesis false)) = s
    at hrun hrun' hslot
  have hoperated := (State.Operated.genesis (State.genesis_eq false)).upgradesTo (upgradesTo_of_upgradeAll hrun)
  obtain ⟨account, hacc, hboth⟩ := (Option.any_eq_true _ _).mp hslot
  obtain ⟨hlive, hsource⟩ := Bool.and_eq_true_iff.mp hboth
  have hc : State.NoUpgrade account.source := by
    intro m f hload
    rw [eq_of_beq hsource, show loadContractWasm idleCode = some idleModule from rfl] at hload
    obtain rfl := Option.some.inj hload
    rintro ⟨⟩
  exact ⟨s, _, account, hoperated, hacc, hlive, hc, upgradesTo_of_upgradeAll hrun',
    hoperated.immutable hacc hlive hc (upgradesTo_of_upgradeAll hrun')⟩

end NgCore
