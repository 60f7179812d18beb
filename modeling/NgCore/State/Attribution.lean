/-
# NgCore.State.Attribution — whose code acts on whose address

The host functions act on the frame on top of the stack. A service wrapper and a dynamic call push the
callee's frame around the call; but a module is INSTANTIATED before that push, and instantiation runs its
start function. So code runs as itself exactly as long as nothing deployed has a start function
(`ReachedBy.attributed`); with one, a call target spends its caller's coins (`start_spends_caller`).
-/
import NgCore.State.Trail
import NgCore.State.Slots

namespace NgCore

open Lib (Bucket)

/-! ## §1 — the code a state holds -/

/-- Every module in the registry is allowed by `p`. -/
def State.Codes (p : Bytes → Prop) (s : State) : Prop :=
  ∀ (hash : Bytes32) (e : Nat × Bytes), s.code[hash]? = some e → p e.2

section Codes

variable {p : Bytes → Prop}

theorem State.Codes.source {s : State} (h : s.Codes p) (hnil : p []) {a : Address} {account : Contract}
    (hacc : s.view.contract a = some account) : p account.source := by
  obtain ⟨sc, -, rfl⟩ := Option.map_eq_some_iff.mp hacc
  show p (s.loadCode sc.codeHash)
  unfold State.loadCode
  cases hcode : s.code[sc.codeHash]? with
  | none => exact hnil
  | some e => exact h sc.codeHash e hcode

theorem State.Codes.retainCode {s : State} (h : s.Codes p) {source : Bytes} (hsource : p source)
    (codeHash : Bytes32) : (s.retainCode codeHash source).Codes p := by
  unfold State.retainCode
  split
  · intro hash e he
    rw [Bucket.get_insert] at he
    split at he
    · obtain rfl := Option.some.inj he
      exact hsource
    · exact h hash e he
  · next refs code hold =>
    intro hash e he
    rw [Bucket.get_insert] at he
    split at he
    · obtain rfl := Option.some.inj he
      exact h codeHash (refs, code) hold
    · exact h hash e he

theorem State.Codes.releaseCode {s : State} (h : s.Codes p) (codeHash : Bytes32) (keep : Bool) :
    (s.releaseCode codeHash keep).Codes p := by
  unfold State.releaseCode
  split
  · exact h
  · next refs code hold =>
    split
    · intro hash e he
      rw [Bucket.get_erase] at he
      split at he
      · cases he
      · exact h hash e he
    · intro hash e he
      rw [Bucket.get_insert] at he
      split at he
      · obtain rfl := Option.some.inj he
        exact h codeHash (refs, code) hold
      · exact h hash e he

variable [Crypto]

theorem State.Codes.setContract {s : State} (h : s.Codes p) (rec : Recorder) {account : Contract}
    (hsource : p account.source) : (s.setContract rec account).Codes p := by
  show (s.reconcileCode rec account).Codes p
  unfold State.reconcileCode
  dsimp only
  split
  · exact h.retainCode hsource _
  · split
    · exact h
    · exact (h.releaseCode _ _).retainCode hsource _

end Codes

theorem Write.codes_step [Crypto] {rec : Recorder} {p : Bytes → Prop} {N : List RunNote → Prop} {w : Write}
    (hw : w.Permitted rec p N) {s : State} (h : s.Codes p) : (w.step s).Codes p := by
  cases w with
  | setContract r account => exact h.setContract r hw.2
  | delContract r a =>
    show (s.releaseSlot r a).Codes p
    unfold State.releaseSlot
    split
    · exact h
    · exact h.releaseCode _ _
  | registerPubKey r a scheme pubKey =>
    show (s.registerPubKey r a (scheme :: pubKey)).Codes p
    unfold State.registerPubKey
    split <;> exact h
  | pruneCommits tip =>
    have hcode : (s.pruneCommits tip).code = s.code := by
      unfold State.pruneCommits
      split
      · rfl
      · exact congrArg Stores.code (State.stores_dropCommits (fun h => h < tip - commitWindow) s)
    show (s.pruneCommits tip).Codes p
    unfold State.Codes
    rw [hcode]
    exact h
  | setBalance | setBeacon | putCommit | consumeCommit | journalConsumed | notes | apply => exact h

/-! ## §2 — every trail of a run over allowed code -/

section Reached

variable [Engine]

/-- **`ReachedBy p s`** — the states a database reaches as in `State.Reached`, with every module that is
ever deployed or seeded allowed by `p`. -/
inductive ReachedBy (p : Bytes → Prop) : State → Prop where
  | genesis {cfg : Config} {s : State} : State.initStateFromGenesis cfg = .ok s → ReachedBy p s
  | upgrade {cfg : Config} {block : FullBlock} {s s' : State} : ReachedBy p s →
      (∀ tx ∈ block.txs, tx.Deploys p) → (NgCore.upgrade cfg block).exec s = .ok ((), s') →
      ReachedBy p s'
  | unwind {s : State} (h : Nat) : ReachedBy p s → ReachedBy p (s.unwindHeight h)
  | sheet {s : State} (sheet : State.Sheet) : ReachedBy p s →
      (∀ account ∈ sheet.contracts, p account.source) → ReachedBy p (s.rebuildFromSheet sheet)
  | replay {cfg : Config} {blocks : List FullBlock} {s s' : State} : ReachedBy p s →
      (∀ block ∈ blocks, ∀ tx ∈ block.txs, tx.Deploys p) →
      State.rebuildFromBlocks cfg blocks s = .ok s' → ReachedBy p s'

theorem ReachedBy.upgradesTo {p : Bytes → Prop} {cfg : Config} {blocks : List FullBlock} {s s' : State}
    (h : ReachedBy p s) (hblocks : ∀ block ∈ blocks, ∀ tx ∈ block.txs, tx.Deploys p)
    (hrun : UpgradesTo cfg s blocks s') : ReachedBy p s' := by
  induction hrun with
  | nil => exact h
  | cons head _ ih =>
    exact ih (h.upgrade (hblocks _ List.mem_cons_self) head)
      fun block hb => hblocks block (List.mem_cons_of_mem _ hb)

omit [Engine] in
theorem State.codes_stores {p : Bytes → Prop} {s s' : State} (h : s.Codes p) (hcode : s'.code = s.code) :
    s'.Codes p := by
  unfold State.Codes
  rw [hcode]
  exact h

theorem State.codes_rebuildFromSheet {p : Bytes → Prop} {sheet : State.Sheet}
    (hsheet : ∀ account ∈ sheet.contracts, p account.source) (s : State) :
    (s.rebuildFromSheet sheet).Codes p := by
  have hfold : ∀ (l : List Contract) (t : State), (∀ account ∈ l, p account.source) → t.Codes p →
      (l.foldl (fun t account => t.setContract none account) t).Codes p := by
    intro l
    induction l with
    | nil => exact fun t _ ht => ht
    | cons account l ih =>
      intro t hl ht
      rw [List.foldl_cons]
      exact ih _ (fun a ha => hl a (List.mem_cons_of_mem _ ha))
        (ht.setContract none (hl account List.mem_cons_self))
  refine State.codes_stores (hfold sheet.contracts s.resetBuckets hsheet ?_)
    (congrArg Prod.snd (State.slots_rebuildFromSheet sheet s))
  intro hash e he
  simp [State.resetBuckets, State.empty] at he

/-- The views contract runs start from: allowed code, in slots that stand under their owners. -/
def View.Allowed (p : Bytes → Prop) (v : View) : Prop :=
  ∀ a account, v.contract a = some account → p account.source ∧ account.owner = a

/-- What the invariant of the runs below consists of. -/
structure State.Traced (p : Bytes → Prop) (G : RunNote → Prop) (s : State) : Prop where
  codes : s.Codes p
  housed : s.Housed
  runs : s.Runs G

section Traced

variable {p : Bytes → Prop} {G : RunNote → Prop} (hnil : p [])
  (hw : Walks (View.Allowed p) p fun l => ∀ n ∈ l, G n)
include hnil hw

theorem State.Traced.upgrade {s s' : State} (h : s.Traced p G) {cfg : Config} {block : FullBlock}
    (hblock : ∀ tx ∈ block.txs, tx.Deploys p)
    (hrun : (NgCore.upgrade cfg block).exec s = .ok ((), s')) : s'.Traced p G := by
  refine Lib.Txn.run_preserves (I := State.Traced p G) ?_ ?_ (writes_upgrade hw cfg hblock) hrun h
  · intro t ht a account hacc
    exact ⟨ht.codes.source hnil hacc, ht.housed.owner hacc⟩
  · intro w t hwrite ht
    exact ⟨w.codes_step hwrite ht.codes, w.housed_step ht.housed, w.runs_step hwrite ht.runs⟩

theorem State.Traced.upgradesTo {cfg : Config} {blocks : List FullBlock} {s s' : State}
    (h : s.Traced p G) (hblocks : ∀ block ∈ blocks, ∀ tx ∈ block.txs, tx.Deploys p)
    (hrun : UpgradesTo cfg s blocks s') : s'.Traced p G := by
  induction hrun with
  | nil => exact h
  | cons head _ ih =>
    exact ih (h.upgrade hnil hw (hblocks _ List.mem_cons_self) head)
      fun block hb => hblocks block (List.mem_cons_of_mem _ hb)

omit hnil hw in
theorem State.Traced.sheet {s : State} (h : s.Traced p G) {sheet : State.Sheet}
    (hsheet : ∀ account ∈ sheet.contracts, p account.source) : (s.rebuildFromSheet sheet).Traced p G :=
  ⟨State.codes_rebuildFromSheet hsheet s, State.housed_rebuildFromSheet sheet s,
    (State.quiet_rebuildFromSheet sheet s).runs h.runs⟩

/-- **The trail of every run over allowed code.** -/
theorem ReachedBy.traced {s : State} (h : ReachedBy p s) : s.Traced p G := by
  induction h with
  | genesis hinit =>
    obtain ⟨g, hg, hrun⟩ := State.initStateFromGenesis_eq_ok hinit
    refine State.Traced.upgrade hnil hw ⟨?_, State.housed_empty, fun _ h => by cases h⟩ ?_ hrun
    · intro hash e he
      simp [State.empty] at he
    · -- the genesis block deploys nothing
      obtain ⟨-, -, mint, htxs, htype, -⟩ := getGenesisBlock_ok hg
      intro tx htx hdeploy
      rw [htxs] at htx
      rw [List.mem_singleton.mp htx, htype] at hdeploy
      exact absurd hdeploy (by decide)
  | upgrade _ hblock hrun ih => exact ih.upgrade hnil hw hblock hrun
  | @unwind s h _ ih =>
    refine ⟨State.codes_stores ih.codes (State.code_unwindHeight h s), ?_, (State.quiet_unwindHeight h s).runs ih.runs⟩
    show (s.unwindHeight h).contract.Holds _
    rw [State.contract_unwindHeight]
    exact ih.housed.revert true h
  | sheet sheet _ hsheet ih => exact ih.sheet hsheet
  | replay _ hblocks hrun ih =>
    exact (ih.sheet fun _ h => by cases h).upgradesTo hnil hw hblocks (upgradesTo_of_applyBlocks hrun)

end Traced
end Reached

/-! ## §3 — runs without start functions -/

/-- Every act on the trail of the state is of code on its own address. -/
def State.Attributed (s : State) : Prop := ∀ owner on, .run (.act owner on) ∈ s.log → owner = on

section Runs

variable [Engine]

/-- The code, if it loads at all, has no start function. -/
def Startless (source : Bytes) : Prop := ∀ m, loadContractWasm source = some m → m.start = none

theorem startless_nil : Startless [] := by
  intro m hm
  cases hm

/-- What the invariant of the runs below consists of. -/
structure State.RunsAsItself (s : State) : Prop where
  codes : s.Codes Startless
  acts : s.Attributed

omit [Engine] in
/-- An act is of code on its own address. -/
def RunNote.OwnAct (n : RunNote) : Prop := ∀ owner on, n = .act owner on → owner = on

/-- Over startless code, contract runs leave attributed trails. -/
theorem walks_startless : Walks (View.Allowed Startless) Startless fun l => ∀ n ∈ l, n.OwnAct where
  source v a account hv hacc := (hv a account hacc).1
  linked v a account tx blockTime m hv hacc hm := by
    rintro n hn owner on rfl
    exact (attributed_runEntry "" 0 (fun b acc m hb => (hv b acc hb).1 m) ((hv a account hacc).1 m hm)).1
      owner on hn
  ran v a account tx blockTime m entry gas hv hacc hm _ := by
    rintro n hn owner on rfl
    exact (attributed_runEntry entry gas (fun b acc m hb => (hv b acc hb).1 m) ((hv a account hacc).1 m hm)).2
      owner on hn
  underflow := by
    intro n hn owner on hact
    rw [List.mem_singleton.mp hn] at hact
    cases hact

theorem ReachedBy.runsAsItself {s : State} (h : ReachedBy Startless s) : s.RunsAsItself := by
  have htraced := h.traced startless_nil walks_startless
  exact ⟨htraced.codes, fun owner on hmem => htraced.runs _ hmem owner on rfl⟩

/-- **Code runs only as itself**, in every run of every block, nested to any depth, as long as nothing with
a start function is ever deployed or seeded. -/
theorem ReachedBy.attributed {s : State} (h : ReachedBy Startless s) :
    ∀ owner on, .run (.act owner on) ∈ s.log → owner = on :=
  h.runsAsItself.acts

end Runs

/-! ## §4 — two hand-made contracts -/

section Handmade

/-- A contract whose entry calls the contract of key 8. -/
def callerModule : Module where
  imports := []
  exports := [(entryOnTx, some ⟨[], []⟩)]
  fresh := ⟨some (@handAddr (.ofHash handHash) 8).val, []⟩
  start := none
  func entry := if entry = entryOnTx then
    some (0, fun _ ins => .host (.contractCall 0 0 0) ins fun _ ins => .ret [] ins) else none

/-- A contract that sends five units to the address of key 8: in its START function if `early`, else in
its entry. -/
def senderModule (early : Bool) : Module where
  imports := []
  exports := [(entryOnTx, some ⟨[], []⟩)]
  fresh := ⟨some ((@handAddr (.ofHash handHash) 8).val ++ 5 :: List.replicate 31 0), []⟩
  start := if early then some send else none
  func entry := if entry = entryOnTx then
    some (0, fun _ ins => if early then .ret [] ins else send ins) else none
where
  send (ins : Instance) : Prog := .host (.coinTransfer 0 32) ins fun _ ins => .ret [] ins

def callerCode : Bytes := wasmMagic ++ [1]
def senderCode : Bytes := wasmMagic ++ [2]

def senderTable (early : Bool) (source : Bytes) : Option Module :=
  if source = callerCode then some callerModule
  else if source = senderCode then some (senderModule early)
  else none

/-- Key 7 deploys the caller, key 8 the sender; both reveal at height three. -/
def senderChain : List FullBlock :=
  letI := Crypto.ofHash handHash
  let b1 := handSeal handGenesis 7 [] []
  let b2 := handSeal b1 8 [] [handCommit 7 2 0 (handDeploy 7 3 callerCode),
    handCommit 8 2 0 (handDeploy 8 3 senderCode)]
  let b3 := handSeal b2 9 [handDeploy 7 3 callerCode, handDeploy 8 3 senderCode]
    [handCommit 8 3 0 (handPay 8 4 (handAddr 7) 0)]
  [b1, b2, b3]

/-- Then key 8 pays nothing to the caller, which runs it. -/
def callBlock : FullBlock :=
  letI := Crypto.ofHash handHash
  handSeal (senderChain.getD 2 handGenesis) 9 [handPay 8 4 (handAddr 7) 0] []

/-- Without start functions the call chain runs, and every act is of code on its own address. -/
theorem sender_attributed :
    letI := Engine.byHand (senderTable false)
    ∃ s, UpgradesTo ⟨ZERONET, false⟩ (State.genesis false) (senderChain ++ [callBlock]) s ∧
      .run (.act (handAddr 8) (handAddr 8)) ∈ s.log ∧
      ∀ owner on, .run (.act owner on) ∈ s.log → owner = on := by
  let _ := Engine.byHand (senderTable false)
  let result := upgradeAll ⟨ZERONET, false⟩ (senderChain ++ [callBlock]) (State.genesis false)
  have hall : result.isOk = true ∧ .run (.act (handAddr 8) (handAddr 8)) ∈ (State.after result).log := by
    decide +kernel
  have hrun := upgradesTo_of_upgradeAll (State.eq_after hall.1)
  have hstartless : ∀ source, Startless source := by
    intro source m hm
    unfold loadContractWasm at hm
    split at hm
    · replace hm : senderTable false source = some m := hm
      unfold senderTable at hm
      split at hm
      · obtain rfl := Option.some.inj hm
        rfl
      · split at hm
        · obtain rfl := Option.some.inj hm
          rfl
        · cases hm
    · cases hm
  refine ⟨_, hrun, hall.2, ReachedBy.attributed ?_⟩
  exact (ReachedBy.genesis (State.genesis_eq false)).upgradesTo (fun _ _ _ _ _ _ _ => hstartless _) hrun

/-- **A call target spends its caller's coins**: the transfer stands in the target's start function, which
runs while the target is instantiated — before its frame is pushed. The caller's own code moves nothing. -/
theorem start_spends_caller :
    letI := Engine.byHand (senderTable true)
    ∃ s s', UpgradesTo ⟨ZERONET, false⟩ (State.genesis false) senderChain s ∧
      UpgradesTo ⟨ZERONET, false⟩ s [callBlock] s' ∧
      .run (.act (handAddr 8) (handAddr 7)) ∈ s'.log ∧ handAddr 8 ≠ handAddr 7 ∧
      s'.getBalance (handAddr 7) + 5 = s.getBalance (handAddr 7) := by
  let _ := Engine.byHand (senderTable true)
  let first := upgradeAll ⟨ZERONET, false⟩ senderChain (State.genesis false)
  let second := upgradeAll ⟨ZERONET, false⟩ [callBlock] (State.after first)
  -- one evaluation of the run answers every question about its two states
  have hall : (first.isOk = true ∧ second.isOk = true) ∧
      .run (.act (handAddr 8) (handAddr 7)) ∈ (State.after second).log ∧ handAddr 8 ≠ handAddr 7 ∧
      (State.after second).getBalance (handAddr 7) + 5 = (State.after first).getBalance (handAddr 7) := by
    decide +kernel
  rcases hall with ⟨⟨hfirst, hsecond⟩, hacts⟩
  exact ⟨_, _, upgradesTo_of_upgradeAll (State.eq_after hfirst), upgradesTo_of_upgradeAll (State.eq_after hsecond),
    hacts⟩

end Handmade
end NgCore
