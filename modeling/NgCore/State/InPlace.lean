/-
# NgCore.State.InPlace — an upgrade writes back the slot it loaded

`handleDeploy` loads the sender's slot, runs the current code's `ng:upgrade` hook — a contract run like any other,
whose journal is flushed to the state when it completes — and then writes the slot it had LOADED, with the new code
and the new dependencies. What the hook's run did to the contract's own storage is not in that copy.

So the updates of the hook survive exactly when there are none: `handleDeploy_keeps_iff`. A hook that deletes an entry
finds it again in the next run, with its deposit record, although the deposit was paid back
(`upgrade_restores_deleted`).

DELIVERABLE: `handleDeploy_keeps_iff`.
-/
import NgCore.State.Flush
import NgCore.State.Hooks

namespace NgCore

open Lib (Bucket)
open Lib.Txn (tell)

section InPlace

variable [Engine] {cfg : Config} {rec : Recorder} {tx : FullTx} {a : Address} {blockTime gas gas' gas₁ : Nat}
  {s s' loaded hooked : State} {slot : Contract} {code : Bytes}

/-! ## §1 — the stages of an upgrade -/

/-- What comes between the two hooks: the old references are let go, the new ones taken, and the slot written. -/
def replaceCode (rec : Recorder) (slot : Contract) (code : Bytes) (deps : List Address) : StateTxn Unit := do
  releaseContractDeps rec slot
  pinDeps rec deps
  tell (.setContract rec (({ slot with source := code }.setActive).setContractDeps deps))

/-- **The stages of an upgrade**: once the hook has completed, the code is replaced, and `ng:init` runs. -/
theorem exec_handleDeploy_upgrade (hcode : decodeCommitCode Engine.inflate tx.extra = .ok code) (hne : code ≠ [])
    (hcharge : (chargeFrom rec tx tx.totalExpenditure).exec s = .ok (a, loaded))
    (hslot : loaded.getContract a = some slot) (hlive : slot.isLive = true)
    (hhook : (runContract rec a tx entryOnUpgrade blockTime gas).exec loaded = .ok ((true, gas₁), hooked))
    (hrun : (handleDeploy cfg rec tx blockTime gas).exec s = .ok (gas', s')) :
    ∃ deps started ok, validateDeps loaded.view a code = .ok deps ∧
      (replaceCode rec slot code deps).exec hooked = .ok ((), started) ∧
      (runContract rec a tx entryOnActivate blockTime gas₁).exec started = .ok ((ok, gas'), s') := by
  have hfilter : (loaded.view.contract a).filter Contract.isLive = some slot := by
    rw [show loaded.view.contract a = some slot from hslot, Option.filter_some, if_pos hlive]
  obtain ⟨_, _, hlook, hchecked⟩ := StateTxn.exec_bind_ok.mp hrun
  obtain ⟨rfl, rfl⟩ := Prod.mk.inj (Except.ok.inj hlook)
  obtain ⟨_, _, hcheck, hcharged⟩ := StateTxn.exec_bind_ok.mp hchecked
  obtain ⟨-, rfl⟩ := StateTxn.exec_ofExcept_ok.mp hcheck
  obtain ⟨_, _, hcharge', hdecoding⟩ := StateTxn.exec_bind_ok.mp hcharged
  obtain ⟨rfl, rfl⟩ := Prod.mk.inj (Except.ok.inj (hcharge.symm.trans hcharge'))
  obtain ⟨_, _, hdecode, hsizing⟩ := StateTxn.exec_bind_ok.mp hdecoding
  obtain ⟨hdecoded, rfl⟩ := StateTxn.exec_ofExcept_ok.mp hdecode
  obtain rfl := Except.ok.inj (hcode.symm.trans hdecoded)
  obtain ⟨_, _, hsize, hloading⟩ := StateTxn.exec_bind_ok.mp hsizing
  obtain ⟨-, rfl⟩ := StateTxn.exec_require_ok.mp hsize
  obtain ⟨_, _, hlook', hbranch⟩ := StateTxn.exec_bind_ok.mp hloading
  obtain ⟨rfl, rfl⟩ := Prod.mk.inj (Except.ok.inj hlook')
  rw [if_neg hne] at hbranch
  obtain ⟨_, _, hwasm, hresolving⟩ := StateTxn.exec_bind_ok.mp hbranch
  obtain ⟨-, rfl⟩ := StateTxn.exec_require_ok.mp hwasm
  obtain ⟨deps, _, hdeps, hlast⟩ := StateTxn.exec_bind_ok.mp hresolving
  obtain ⟨hvalid, rfl⟩ := StateTxn.exec_ofExcept_ok.mp hdeps
  rw [hfilter] at hlast
  obtain ⟨r, _, hhook', hrest⟩ := StateTxn.exec_bind_ok.mp hlast
  obtain ⟨rfl, rfl⟩ := Prod.mk.inj (Except.ok.inj (hhook.symm.trans hhook'))
  obtain ⟨_, released, hrelease, hinstall⟩ := StateTxn.exec_bind_ok.mp hrest
  obtain ⟨_, pinned, hpin, hwrite⟩ := StateTxn.exec_bind_ok.mp hinstall
  obtain ⟨_, started, hset, hend⟩ := StateTxn.exec_bind_ok.mp hwrite
  obtain ⟨⟨ok, gas₂⟩, _, hinit, hreturn⟩ := StateTxn.exec_bind_ok.mp hend
  obtain ⟨rfl, rfl⟩ := Prod.mk.inj (Except.ok.inj hreturn)
  refine ⟨deps, started, ok, hvalid, ?_, hinit⟩
  exact StateTxn.exec_bind_ok.mpr ⟨_, released, hrelease, StateTxn.exec_bind_ok.mpr ⟨_, pinned, hpin, hset⟩⟩

/-! ## §2 — the slot at each stage -/

omit [Engine] in
theorem Contract.get_installed (slot : Contract) (code : Bytes) (deps : List Address) {key : Bytes}
    (hactive : key ≠ contextKeyActive) (hdeps : key ≠ contextKeyDeps) :
    (({ slot with source := code }.setActive).setContractDeps deps).context[key]? = slot.context[key]? := by
  unfold setContractDeps setActive
  split
  · rw [Bucket.get_erase, if_neg hdeps.symm, Bucket.get_insert, if_neg hactive.symm]
  · rw [Bucket.get_insert, if_neg hdeps.symm, Bucket.get_insert, if_neg hactive.symm]

omit [Engine] in
theorem Contract.isActive_installed (slot : Contract) (code : Bytes) (deps : List Address) :
    (({ slot with source := code }.setActive).setContractDeps deps).isActive = true := by
  have hget : (({ slot with source := code }.setActive).setContractDeps deps).context.get contextKeyActive = [1] := by
    unfold setContractDeps setActive
    split
    · rw [ContractContext.get_erase, if_neg (by decide), ContractContext.get_insert, if_pos rfl]
    · rw [ContractContext.get_insert, if_neg (by decide), ContractContext.get_insert, if_pos rfl]
  unfold isActive
  rw [hget]
  decide

/-- After the code is replaced, the slot is the one that was loaded, with the new code and dependencies. -/
theorem getContract_replaceCode {deps : List Address} {started : State} (howner : slot.owner = a)
    (h : (replaceCode rec slot code deps).exec hooked = .ok ((), started)) :
    ∃ after, started.getContract a = some after ∧
      after.context = (({ slot with source := code }.setActive).setContractDeps deps).context := by
  obtain ⟨_, released, -, h⟩ := StateTxn.exec_bind_ok.mp h
  obtain ⟨_, pinned, -, h⟩ := StateTxn.exec_bind_ok.mp h
  obtain ⟨-, rfl⟩ := Prod.mk.inj (Except.ok.inj h)
  have hinstalled : (({ slot with source := code }.setActive).setContractDeps deps).owner = a := by
    unfold Contract.setContractDeps Contract.setActive
    split <;> exact howner
  generalize ({ slot with source := code }.setActive).setContractDeps deps = account at hinstalled
  have hcur := State.cur_setContract rec account pinned
  rw [hinstalled] at hcur
  refine ⟨(pinned.setContract rec account).decodeStoredContract ⟨a, hash256 account.source, account.context⟩, ?_, rfl⟩
  show ((pinned.setContract rec account).contract.cur[a]?).map _ = _
  rw [hcur, Bucket.get_insert, if_pos rfl]
  rfl

/-- The hook leaves a slot with the reserved entries it found, the deposit record apart. -/
theorem getContract_hooked (hs : loaded.Housed) (hslot : loaded.getContract a = some slot)
    (hhook : (runContract rec a tx entryOnUpgrade blockTime gas).exec loaded = .ok ((true, gas₁), hooked)) :
    ∃ before, hooked.getContract a = some before ∧ KeepsReserved slot.context before.context := by
  obtain ⟨hok, -⟩ | ⟨-, account, m, vm, l, hcompletes, rfl⟩ := exec_runContract hhook
  · cases hok
  have hcur : (vm.journal.flushed rec (loaded.noted l)).contract.cur[a]? = _ := hcompletes.contract_flushed hs l a
  show ∃ before, ((vm.journal.flushed rec (loaded.noted l)).contract.cur[a]?).map _ = some before ∧ _
  rw [hcur]
  cases hacc : vm.journal.accounts[a]? with
  | none =>
    -- the run did not touch the slot
    obtain ⟨sc, hsc, rfl⟩ := Option.map_eq_some_iff.mp hslot
    rw [hsc]
    exact ⟨_, rfl, .refl _⟩
  | some acc =>
    obtain ⟨old, hold, -, -, hkeeps⟩ := hcompletes.kept hs a acc hacc
    obtain rfl := Option.some.inj (hslot.symm.trans hold)
    exact ⟨_, rfl, hkeeps⟩

/-- **The updates of an upgrade hook survive exactly when there are none.** The hook completes on the slot and leaves
`before`; `ng:init` starts on `after`. Dependencies and code apart, `after` is `before` just when the hook has left
the storage as it found it. -/
theorem handleDeploy_keeps_iff (hs : s.Housed) (hcode : decodeCommitCode Engine.inflate tx.extra = .ok code)
    (hne : code ≠ []) (hcharge : (chargeFrom rec tx tx.totalExpenditure).exec s = .ok (a, loaded))
    (hslot : loaded.getContract a = some slot) (hlive : slot.isLive = true)
    (hhook : (runContract rec a tx entryOnUpgrade blockTime gas).exec loaded = .ok ((true, gas₁), hooked))
    (hrun : (handleDeploy cfg rec tx blockTime gas).exec s = .ok (gas', s')) :
    ∃ deps started ok before after, (replaceCode rec slot code deps).exec hooked = .ok ((), started) ∧
      (runContract rec a tx entryOnActivate blockTime gas₁).exec started = .ok ((ok, gas'), s') ∧
      hooked.getContract a = some before ∧ started.getContract a = some after ∧
      before.isActive = true ∧ after.isActive = true ∧
      ((∀ key, key ≠ contextKeyActive → key ≠ contextKeyDeps → after.context[key]? = before.context[key]?) ↔
        before.context = slot.context) := by
  have hloaded : loaded.Housed := hs.exec hcharge
  obtain ⟨deps, started, ok, -, hreplace, hinit⟩ :=
    exec_handleDeploy_upgrade hcode hne hcharge hslot hlive hhook hrun
  obtain ⟨before, hbefore, hkeeps⟩ := getContract_hooked hloaded hslot hhook
  obtain ⟨after, hafter, hcontext⟩ := getContract_replaceCode (hloaded.owner hslot) hreplace
  have hactive : slot.isActive = true := (of_decide_eq_true hlive).1
  refine ⟨deps, started, ok, before, after, hreplace, hinit, hbefore, hafter, ?_, ?_, ?_⟩
  · unfold Contract.isActive
    rw [hkeeps.get (by decide) (by decide)]
    exact hactive
  · unfold Contract.isActive
    rw [hcontext]
    exact slot.isActive_installed code deps
  · rw [hcontext]
    constructor
    · intro hsame
      refine Bucket.ext_get fun key => ?_
      by_cases hreserved : key = contextKeyActive ∨ key = contextKeyDeps
      · -- the two entries the deploy writes are none the hook could write
        rcases hreserved with rfl | rfl
        · exact hkeeps _ (by decide) (by decide)
        · exact hkeeps _ (by decide) (by decide)
      · rw [not_or] at hreserved
        rw [← hsame key hreserved.1 hreserved.2, slot.get_installed code deps hreserved.1 hreserved.2]
    · intro hsame key hactive hdeps
      rw [slot.get_installed code deps hactive hdeps, hsame]

end InPlace

/-! ## §3 — a hook that deletes, by hand -/

/-- A contract whose `ng:init` stores an entry and whose `ng:upgrade` deletes it. -/
def keeperModule : Module where
  imports := []
  exports := [(entryOnActivate, some ⟨[], []⟩), (entryOnUpgrade, some ⟨[], []⟩)]
  fresh := ⟨some [1, 2], []⟩
  start := none
  func entry :=
    if entry = entryOnActivate then some (0, fun _ ins => .host (.kvSet 0 1 1 1) ins fun _ ins => .ret [] ins)
    else if entry = entryOnUpgrade then some (0, fun _ ins => .host (.kvDel 0 1) ins fun _ ins => .ret [] ins)
    else none

def keeperCode : Bytes := wasmMagic ++ [4]

def keeperTable (source : Bytes) : Option Module :=
  if source = keeperCode then some keeperModule else idleTable source

/-- Key 8 deploys the keeper, and upgrades it to code that does nothing. -/
def keeperChain : List FullBlock :=
  letI := Crypto.ofHash handHash
  let b1 := handSeal handGenesis 8 [] []
  let b2 := handSeal b1 8 [] [handCommit 8 2 0 (handDeploy 8 3 keeperCode)]
  let b3 := handSeal b2 9 [handDeploy 8 3 keeperCode] []
  let b4 := handSeal b3 9 [] [handCommit 8 4 0 (handDeploy 8 5 idleCode)]
  [b1, b2, b3, b4, handSeal b4 9 [handDeploy 8 5 idleCode] []]

/-- The result of a call, or a default. -/
def resultOr {α : Type} (d : α) : Except Err α → α
  | .ok r => r
  | .error _ => d

theorem eq_resultOr {α : Type} {x : Except Err α} (d : α) (h : x.isOk = true) : x = .ok (resultOr d x) := by
  cases x with
  | ok r => rfl
  | error e => cases h

section Stages

/-- Before the upgrade, as `handleDeploy` finds it; the sender is charged; the hook has run. -/
def keeperBefore : State :=
  letI := Engine.byHand keeperTable
  State.after (upgradeAll ⟨ZERONET, false⟩ (keeperChain.take 4) (State.genesis false))

def keeperCharged : Address × State :=
  letI := Engine.byHand keeperTable
  resultOr (zero32, .empty) ((chargeFrom none (handDeploy 8 5 idleCode)
    (handDeploy 8 5 idleCode).totalExpenditure).exec keeperBefore)

def keeperHooked : (Bool × Nat) × State :=
  letI := Engine.byHand keeperTable
  resultOr ((false, 0), .empty) ((runContract none keeperCharged.1 (handDeploy 8 5 idleCode) entryOnUpgrade 0
    maxBlockGas).exec keeperCharged.2)

/-- The run to each stage, and what it finds there, in one evaluation. -/
theorem keeper_stages :
    letI := Engine.byHand keeperTable
    (upgradeAll ⟨ZERONET, false⟩ (keeperChain.take 4) (State.genesis false)).isOk = true ∧
      ((chargeFrom none (handDeploy 8 5 idleCode) (handDeploy 8 5 idleCode).totalExpenditure).exec
        keeperBefore).isOk = true ∧
      ((runContract none keeperCharged.1 (handDeploy 8 5 idleCode) entryOnUpgrade 0 maxBlockGas).exec
        keeperCharged.2).isOk = true ∧
      keeperHooked.1.1 = true ∧
      ((handleDeploy ⟨ZERONET, false⟩ none (handDeploy 8 5 idleCode) 0 maxBlockGas).exec keeperBefore).isOk = true ∧
      (keeperCharged.2.getContract keeperCharged.1).any Contract.isLive = true ∧
      decodeCommitCode Engine.inflate (handDeploy 8 5 idleCode).extra = .ok idleCode := by
  decide +kernel

theorem charge_keeper :
    letI := Engine.byHand keeperTable
    (chargeFrom none (handDeploy 8 5 idleCode) (handDeploy 8 5 idleCode).totalExpenditure).exec keeperBefore =
      .ok keeperCharged := by
  have hcharges := keeper_stages.2.1
  unfold keeperCharged
  exact eq_resultOr _ hcharges

theorem hook_keeper :
    letI := Engine.byHand keeperTable
    (runContract none keeperCharged.1 (handDeploy 8 5 idleCode) entryOnUpgrade 0 maxBlockGas).exec keeperCharged.2 =
      .ok keeperHooked := by
  have hhooks := keeper_stages.2.2.1
  unfold keeperHooked
  exact eq_resultOr _ hhooks

end Stages

/-- The stages of the upgrade of the keeper. -/
theorem handleDeploy_keeps_iff_keeper :
    letI := Engine.byHand keeperTable
    ∃ slot gas' s', keeperBefore.Housed ∧
      decodeCommitCode Engine.inflate (handDeploy 8 5 idleCode).extra = .ok idleCode ∧ idleCode ≠ [] ∧
      keeperCharged.2.getContract keeperCharged.1 = some slot ∧ slot.isLive = true ∧
      (runContract none keeperCharged.1 (handDeploy 8 5 idleCode) entryOnUpgrade 0 maxBlockGas).exec keeperCharged.2 =
        .ok ((true, keeperHooked.1.2), keeperHooked.2) ∧
      (handleDeploy ⟨ZERONET, false⟩ none (handDeploy 8 5 idleCode) 0 maxBlockGas).exec keeperBefore =
        .ok (gas', s') ∧
      ∃ deps started ok before after,
        (replaceCode none slot idleCode deps).exec keeperHooked.2 = .ok ((), started) ∧
        (runContract none keeperCharged.1 (handDeploy 8 5 idleCode) entryOnActivate 0 keeperHooked.1.2).exec started =
          .ok ((ok, gas'), s') ∧
        keeperHooked.2.getContract keeperCharged.1 = some before ∧ started.getContract keeperCharged.1 = some after ∧
        before.isActive = true ∧ after.isActive = true ∧
        ((∀ key, key ≠ contextKeyActive → key ≠ contextKeyDeps → after.context[key]? = before.context[key]?) ↔
          before.context = slot.context) := by
  let _ := Engine.byHand keeperTable
  rcases keeper_stages with ⟨hruns, -, -, hok, hdeploys, hlive, hcode⟩
  have hhoused : keeperBefore.Housed := by
    have hrun := upgradesTo_of_upgradeAll (State.eq_after hruns)
    exact (State.Reached.genesis (State.genesis_eq false)).housed.upgradesTo hrun
  have hcharge := charge_keeper
  have hhook := hook_keeper
  have hne : idleCode ≠ [] := by decide
  generalize keeperBefore = before at hhoused hcharge hdeploys ⊢
  generalize keeperCharged = charged at hcharge hhook hlive ⊢
  generalize keeperHooked = hooked at hhook hok ⊢
  obtain ⟨⟨ok, gas₁⟩, hooked⟩ := hooked
  obtain rfl : ok = true := hok
  obtain ⟨slot, hslot, hlive⟩ := (Option.any_eq_true _ _).mp hlive
  have hrun := eq_resultOr (0, State.empty) hdeploys
  generalize resultOr (0, State.empty) _ = r at hrun
  obtain ⟨gas', s'⟩ := r
  exact ⟨slot, gas', s', hhoused, hcode, hne, hslot, hlive, hhook, hrun,
    handleDeploy_keeps_iff hhoused hcode hne hcharge hslot hlive hhook hrun⟩

/-- **A deletion is undone**: the hook of the upgrade deletes the entry, and it is there again after the upgrade. -/
theorem upgrade_restores_deleted :
    letI := Engine.byHand keeperTable
    ∃ s s' account, UpgradesTo ⟨ZERONET, false⟩ (State.genesis false) (keeperChain.take 4) s ∧
      UpgradesTo ⟨ZERONET, false⟩ s (keeperChain.drop 4) s' ∧
      .run (.store (handAddr 8) (.del [1])) ∉ s.log ∧
      .run (.enter (handDeploy 8 5 idleCode) (handAddr 8) entryOnUpgrade [handAddr 8]) ∈ s'.log ∧
      .run (.store (handAddr 8) (.del [1])) ∈ s'.log ∧
      s'.getContract (handAddr 8) = some account ∧ account.source = idleCode ∧
      account.context[([1] : Bytes)]? = some [2] := by
  let _ := Engine.byHand keeperTable
  let first := upgradeAll ⟨ZERONET, false⟩ (keeperChain.take 4) (State.genesis false)
  let second := upgradeAll ⟨ZERONET, false⟩ (keeperChain.drop 4) (State.after first)
  -- one evaluation of the run answers every question about its two states
  have hall : (first.isOk = true ∧ second.isOk = true) ∧
      .run (.store (handAddr 8) (.del [1])) ∉ (State.after first).log ∧
      .run (.enter (handDeploy 8 5 idleCode) (handAddr 8) entryOnUpgrade [handAddr 8]) ∈ (State.after second).log ∧
      .run (.store (handAddr 8) (.del [1])) ∈ (State.after second).log ∧
      ((State.after second).getContract (handAddr 8)).any (fun account => account.source = idleCode ∧
        account.context[([1] : Bytes)]? = some [2]) = true := by
    decide +kernel
  rcases hall with ⟨⟨hfirst, hsecond⟩, hnot, hhook, hdel, hafter⟩
  rcases (Option.any_eq_true _ _).mp hafter with ⟨account, hacc, htest⟩
  rcases of_decide_eq_true htest with ⟨hsource, hentry⟩
  exact ⟨_, _, account, upgradesTo_of_upgradeAll (State.eq_after hfirst),
    upgradesTo_of_upgradeAll (State.eq_after hsecond), hnot, hhook, hdel, hacc, hsource, hentry⟩

end NgCore
