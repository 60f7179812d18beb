/-
# NgCore.State.Discipline — what the handlers write

One walk through every handler of a block, from which the invariants of whole blocks are derived: each
write carries the recorder of the block, stores only code that was already deployed or that a deploy of
this block brings, and leaves on the trail only what contract runs leave there. The walk is done for any
predicate that admits those writes (`Admits`); the block itself enters the trail once, at the end.

DELIVERABLE: `writes_upgrade_of_admits`, and `writes_upgrade` at the permitted writes.
-/
import NgCore.State.Check
import NgCore.VM.Invariants

namespace NgCore

open Lib (Bucket Txn)
open Lib.Txn (writes_bind writes_look_bind writes_ofExcept_bind writes_forM writes_foldlM)

/-! ## §1 — permitted writes -/

/-- **`Permitted rec p N w`** — the write records under `rec`, code it stores is allowed by `p`, notes it
leaves are allowed by `N`. -/
def Write.Permitted (rec : Recorder) (p : Bytes → Prop) (N : List RunNote → Prop) : Write → Prop
  | .setBalance r _ _ => r = rec
  | .setContract r account => r = rec ∧ p account.source
  | .delContract r _ => r = rec
  | .registerPubKey r _ _ _ => r = rec
  | .setBeacon r _ => r = rec
  | .notes l => N l
  | .putCommit _ _ _ | .consumeCommit _ _ | .journalConsumed _ _ _ _ | .pruneCommits _ | .apply _ => True

/-- **`AdmitsEffects φ rec p N`** — the predicate holds of every write that executing a transaction makes,
the reveal apart. -/
structure Write.AdmitsEffects [Crypto] (φ : Write → Prop) (rec : Recorder) (p : Bytes → Prop)
    (N : List RunNote → Prop) : Prop where
  setBalance : ∀ a v, φ (.setBalance rec a v)
  setContract : ∀ account : Contract, p account.source → φ (.setContract rec account)
  delContract : ∀ a, φ (.delContract rec a)
  registerPubKey : ∀ scheme pubKey, φ (.registerPubKey rec (addressOfPubKey scheme pubKey) scheme pubKey)
  notes : ∀ l, N l → φ (.notes l)

/-- **`Admits φ rec p N`** — the predicate holds of every write a handler makes. -/
structure Write.Admits [Crypto] (φ : Write → Prop) (rec : Recorder) (p : Bytes → Prop) (N : List RunNote → Prop) :
    Prop extends Write.AdmitsEffects φ rec p N where
  setBeacon : ∀ seed, φ (.setBeacon rec seed)
  putCommit : ∀ height hash fromAddr, φ (.putCommit height hash fromAddr)
  consumeCommit : ∀ height hash, φ (.consumeCommit height hash)
  journalConsumed : ∀ revealHeight height hash fromAddr,
    φ (.journalConsumed revealHeight height hash fromAddr)
  pruneCommits : ∀ tip, φ (.pruneCommits tip)

theorem Write.admits_permitted [Crypto] (rec : Recorder) (p : Bytes → Prop) (N : List RunNote → Prop) :
    Write.Admits (Write.Permitted rec p N) rec p N where
  setBalance _ _ := rfl
  setContract _ h := ⟨rfl, h⟩
  delContract _ := rfl
  registerPubKey _ _ := rfl
  setBeacon _ := rfl
  notes _ h := h
  putCommit _ _ _ := trivial
  consumeCommit _ _ := trivial
  journalConsumed _ _ _ _ := trivial
  pruneCommits _ := trivial

/-- **`CallSite tx a entry`** — where the protocol starts a contract run: the recipient's default entry, the
sender's policy, and the hooks of the slot a deploy of its owner changes. -/
def CallSite [Crypto] (tx : FullTx) (a : Address) (entry : String) : Prop :=
  (entry = entryOnTx ∧ a = tx.toAddr) ∨
    (tx.fromAddr = .ok a ∧
      (entry = entryOnValidate ∨ tx.type = deployTx ∧ (entry = entryOnUpgrade ∨ entry = entryOnActivate)))

/-- **`Walks ψ p N`** — views that satisfy `ψ` hold only code allowed by `p`, and contract runs over them
leave only notes allowed by `N`. -/
structure Walks [Engine] (ψ : View → Prop) (p : Bytes → Prop) (N : List RunNote → Prop) : Prop where
  source : ∀ v a account, ψ v → v.contract a = some account → p account.source
  linked : ∀ v a account tx blockTime m, ψ v → v.contract a = some account →
    loadContractWasm account.source = some m → N (newVM v account tx blockTime m).2.notes
  ran : ∀ v a account tx blockTime m entry gas, ψ v → v.contract a = some account →
    loadContractWasm account.source = some m → CallSite tx a entry →
    N ((newVM v account tx blockTime m).2.runEntry v account.owner m entry gas).2.notes
  underflow : N [.underflow]

theorem walks_any [Engine] : Walks (fun _ => True) (fun _ => True) fun _ => True :=
  ⟨fun _ _ _ _ _ => trivial, fun _ _ _ _ _ _ _ _ _ => trivial,
    fun _ _ _ _ _ _ _ _ _ _ _ _ => trivial, trivial⟩

/-- The code a transaction would deploy is allowed. -/
def FullTx.Deploys [Engine] (p : Bytes → Prop) (tx : FullTx) : Prop :=
  tx.type = deployTx → ∀ source, decodeCommitCode Engine.inflate tx.extra = .ok source → p source

/-- The code a transaction would install — an empty module installs nothing — is allowed. -/
def FullTx.Installs [Engine] (p : Bytes → Prop) (tx : FullTx) : Prop :=
  tx.type = deployTx → ∀ source, source ≠ [] → decodeCommitCode Engine.inflate tx.extra = .ok source → p source

theorem FullTx.Deploys.installs [Engine] {p : Bytes → Prop} {tx : FullTx} (h : tx.Deploys p) : tx.Installs p :=
  fun htype source _ hsource => h htype source hsource

section Walk

variable {ψ : View → Prop} {φ : Write → Prop} {p : Bytes → Prop} {N : List RunNote → Prop}
  {rec : Recorder}

theorem StateTxn.writes_require {c : Prop} [Decidable c] {e : Err} :
    (StateTxn.require c e).Writes ψ φ := by
  unfold StateTxn.require
  split <;> trivial

theorem StateTxn.writes_when {c : Prop} [Decidable c] {q : StateTxn Unit}
    (hq : c → q.Writes ψ φ) : (StateTxn.when c q).Writes ψ φ := by
  unfold StateTxn.when
  split
  · next hc => exact hq hc
  · trivial

open StateTxn (writes_require writes_when)

/-! ## §2 — charging -/

section Charging

variable [Crypto]

theorem writes_verifySigned (tx : FullTx)
    (h : ∀ scheme pubKey, φ (.registerPubKey rec (addressOfPubKey scheme pubKey) scheme pubKey)) :
    (verifySigned rec tx).Writes ψ φ := by
  refine writes_look_bind fun _ _ => writes_ofExcept_bind fun _ _ => ?_
  unfold registerPubKey
  dsimp only
  split
  · trivial
  · exact ⟨h _ _, trivial⟩

theorem writes_consumeReveal (tx : FullTx)
    (hjournal : ∀ rh h hash a, φ (.journalConsumed rh h hash a)) (hconsume : ∀ h hash, φ (.consumeCommit h hash)) :
    (consumeReveal tx).Writes ψ φ := by
  unfold consumeReveal
  split
  · trivial
  · refine writes_bind writes_require fun _ => writes_ofExcept_bind fun _ _ => ?_
    refine writes_look_bind fun v _ => ?_
    split
    · trivial
    · exact ⟨hjournal _ _ _ _, hconsume _ _, trivial⟩

omit [Crypto] in
theorem writes_updateBeacon [Engine] (block : FullBlock)
    (h : ∀ seed, φ (.setBeacon rec seed)) : (updateBeacon rec block).Writes ψ φ := by
  unfold updateBeacon
  split
  · trivial
  · exact writes_look_bind fun v _ => ⟨h _, trivial⟩

theorem writes_chargeFrom_bind {β : Type} (hbalance : ∀ a v, φ (.setBalance rec a v))
    (hkey : ∀ scheme pubKey, φ (.registerPubKey rec (addressOfPubKey scheme pubKey) scheme pubKey)) (tx : FullTx)
    (expense : Nat) {k : Address → StateTxn β} (hk : ∀ fromAddr, tx.fromAddr = .ok fromAddr → (k fromAddr).Writes ψ φ) :
    (chargeFrom rec tx expense >>= k).Writes ψ φ := by
  unfold chargeFrom
  simp only [Txn.bind_assoc]
  refine writes_bind (writes_verifySigned tx hkey) fun _ => ?_
  refine writes_ofExcept_bind fun fromAddr hfrom => ?_
  refine writes_look_bind fun _ _ => writes_bind writes_require fun _ => ?_
  exact ⟨hbalance _ _, hk fromAddr hfrom⟩

omit [Crypto] in
theorem writes_credit (hbalance : ∀ a v, φ (.setBalance rec a v)) (addr : Address) (value : Nat) :
    (credit rec addr value).Writes ψ φ :=
  writes_look_bind fun _ _ => ⟨hbalance _ _, trivial⟩

theorem writes_handleGenerate (hbalance : ∀ a v, φ (.setBalance rec a v))
    (hkey : ∀ scheme pubKey, φ (.registerPubKey rec (addressOfPubKey scheme pubKey) scheme pubKey)) (tx : FullTx) :
    (handleGenerate rec tx).Writes ψ φ :=
  writes_bind (writes_when fun _ => writes_verifySigned tx hkey) fun _ => writes_credit hbalance _ _

end Charging

/-! ## §3 — contracts -/

section Contracts

variable [Engine] (hφ : Write.AdmitsEffects φ rec p N) (hw : Walks ψ p N)
include hφ hw

omit hw in
theorem writes_flush {j : Journal} (hj : j.Sources p) : (j.flush rec).Writes ψ φ := by
  refine writes_bind (writes_forM fun e _ => ⟨hφ.setBalance _ _, trivial⟩) fun _ => writes_forM fun e he => ?_
  exact ⟨hφ.setContract _ (hj e.1 e.2 ((Bucket.mem_toList_iff _ _ _).mp he)), trivial⟩

theorem writes_runContract {addr : Address} {tx : FullTx} {entry : String} (hsite : CallSite tx addr entry)
    (blockTime gas : Nat) : (runContract rec addr tx entry blockTime gas).Writes ψ φ := by
  refine writes_look_bind fun v hv => ?_
  split
  · trivial
  · next account hacc =>
    split
    · trivial
    · split
      · trivial
      · next m hm =>
        have hlinked := hw.linked v addr account tx blockTime m hv hacc hm
        have hran := hw.ran v addr account tx blockTime m entry gas hv hacc hm hsite
        have hsources := (journalled_sources fun a acc => hw.source v a acc hv).runEntry
          (sources_newVMJournal (hw.source v addr account hv hacc)) tx blockTime m entry gas
        split
        · next vm hnew =>
          rw [hnew] at hlinked
          exact ⟨hφ.notes _ hlinked, trivial⟩
        · next vm hnew =>
          rw [hnew] at hran hsources
          cases hrun : vm.runEntry v account.owner m entry gas with
          | mk ok vm' =>
            rw [hrun] at hran hsources
            refine writes_bind (Txn.writes_tell.mpr (hφ.notes _ hran)) fun _ => ?_
            exact writes_bind (writes_when fun _ => writes_flush hφ hsources) fun _ => trivial

omit [Engine] hφ hw in
theorem Contract.setRefCount_source (account : Contract) (n : Nat) :
    (account.setRefCount n).source = account.source := by
  unfold Contract.setRefCount
  split <;> rfl

omit [Engine] hφ hw in
/-- Pinning and releasing write back slots of the view with another reference count. -/
theorem writes_pinDeps (deps : List Address)
    (h : ∀ v a account n, ψ v → v.contract a = some account → φ (.setContract rec (account.setRefCount n))) :
    (pinDeps rec deps).Writes ψ φ := by
  refine writes_forM fun depAddr _ => writes_look_bind fun v hv => ?_
  split
  · trivial
  · next depAcc hdep => exact ⟨h v depAddr depAcc _ hv hdep, trivial⟩

omit hφ hw in
theorem writes_releaseContractDeps (slot : Contract)
    (h : ∀ v a account n, ψ v → v.contract a = some account → φ (.setContract rec (account.setRefCount n))) :
    (releaseContractDeps rec slot).Writes ψ φ := by
  refine writes_ofExcept_bind fun deps _ => writes_forM fun depAddr _ => writes_look_bind fun v hv => ?_
  split
  · trivial
  · next depAcc hdep => exact writes_when fun _ => ⟨h v depAddr depAcc _ hv hdep, trivial⟩

theorem Walks.setRefCount {v : View} {a : Address} {account : Contract} (n : Nat) (hv : ψ v)
    (hacc : v.contract a = some account) : φ (.setContract rec (account.setRefCount n)) := by
  refine hφ.setContract _ ?_
  rw [account.setRefCount_source]
  exact hw.source v a account hv hacc

omit [Engine] hφ hw in
/-- A refund moves balances, and notes when the escrow is short. -/
theorem writes_refundContractDeposit (hbalance : ∀ a v, φ (.setBalance rec a v)) (hshort : φ (.notes [.underflow]))
    (addr : Address) (ctx : ContractContext) : (refundContractDeposit rec addr ctx).Writes ψ φ := by
  unfold refundContractDeposit
  dsimp only
  split
  · trivial
  · refine writes_look_bind fun v hv =>
      writes_bind (writes_when fun _ => ⟨hshort, trivial⟩) fun _ => ?_
    split
    · trivial
    · exact ⟨hbalance _ _, writes_look_bind fun v _ => ⟨hbalance _ _, trivial⟩⟩

/-! ## §4 — transactions -/

theorem writes_runValidate (tx : FullTx) (blockTime gas : Nat) :
    (runValidate rec tx blockTime gas).Writes ψ φ := by
  refine writes_ofExcept_bind fun fromAddr hfrom => writes_look_bind fun v hv => ?_
  split
  · trivial
  · split
    · trivial
    · refine writes_bind (writes_runContract hφ hw (.inr ⟨hfrom, .inl rfl⟩) _ _) fun r => ?_
      exact writes_bind writes_require fun _ => trivial

theorem writes_handleTransaction (tx : FullTx) (blockTime gas : Nat) :
    (handleTransaction rec tx blockTime gas).Writes ψ φ := by
  refine writes_chargeFrom_bind hφ.setBalance hφ.registerPubKey tx _ fun _ _ => ?_
  refine writes_bind (writes_credit hφ.setBalance _ _) fun _ => ?_
  refine writes_look_bind fun v hv => ?_
  split
  · trivial
  · exact writes_bind (writes_runContract hφ hw (.inl ⟨rfl, rfl⟩) _ _) fun r => trivial

theorem writes_destroyContract (cfg : Config) {tx : FullTx} {fromAddr : Address}
    (hfrom : tx.fromAddr = .ok fromAddr) (htype : tx.type = deployTx) (slot : Contract) (blockTime gas : Nat) :
    (destroyContract cfg rec tx fromAddr slot blockTime gas).Writes ψ φ := by
  have hsite : CallSite tx fromAddr entryOnUpgrade := .inr ⟨hfrom, .inr ⟨htype, .inl rfl⟩⟩
  refine writes_bind writes_require fun _ => writes_bind (writes_runContract hφ hw hsite _ _) fun r => ?_
  show Txn.Writes ψ _ (if r.1 = false then _ else _)
  split
  · trivial
  · refine writes_bind (writes_releaseContractDeps slot fun _ _ _ n => hw.setRefCount hφ n) fun _ => ?_
    refine writes_bind (writes_when fun _ => ?_) fun _ => ⟨hφ.delContract _, trivial⟩
    exact writes_refundContractDeposit hφ.setBalance (hφ.notes _ hw.underflow) _ _

theorem writes_installContract {tx : FullTx} {fromAddr : Address} (hfrom : tx.fromAddr = .ok fromAddr)
    (htype : tx.type = deployTx) (slot : Contract) {newSource : Bytes} (hnew : p newSource)
    (newDeps : List Address) (blockTime gas : Nat) :
    (installContract rec tx fromAddr slot newSource newDeps blockTime gas).Writes ψ φ := by
  have hsite : CallSite tx fromAddr entryOnActivate := .inr ⟨hfrom, .inr ⟨htype, .inr rfl⟩⟩
  refine writes_bind (writes_pinDeps newDeps fun _ _ _ n => hw.setRefCount hφ n) fun _ => writes_bind ?_ fun _ =>
    writes_bind (writes_runContract hφ hw hsite _ _) fun r => trivial
  refine ⟨hφ.setContract _ ?_, trivial⟩
  unfold Contract.setContractDeps
  split <;> exact hnew

theorem writes_handleDeploy (cfg : Config) {tx : FullTx} (htype : tx.type = deployTx)
    (htx : ∀ source, source ≠ [] → decodeCommitCode Engine.inflate tx.extra = .ok source → p source)
    (blockTime gas : Nat) : (handleDeploy cfg rec tx blockTime gas).Writes ψ φ := by
  refine writes_look_bind fun v₀ _ => writes_ofExcept_bind fun _ _ => ?_
  refine writes_chargeFrom_bind hφ.setBalance hφ.registerPubKey tx _ fun fromAddr hfrom => ?_
  refine writes_ofExcept_bind fun newSource hnew => ?_
  refine writes_bind writes_require fun _ => writes_look_bind fun v _ => ?_
  dsimp only
  split
  · split
    · trivial
    · exact writes_destroyContract hφ hw cfg hfrom htype _ blockTime gas
  · next hne =>
    refine writes_bind writes_require fun _ => writes_ofExcept_bind fun newDeps _ => ?_
    split
    · exact writes_installContract hφ hw hfrom htype _ (htx newSource hne hnew) newDeps blockTime gas
    · have hsite : CallSite tx fromAddr entryOnUpgrade := .inr ⟨hfrom, .inr ⟨htype, .inl rfl⟩⟩
      refine writes_bind (writes_runContract hφ hw hsite _ _) fun r => ?_
      show Txn.Writes ψ _ (if r.1 = false then _ else _)
      split
      · trivial
      · refine writes_bind (writes_releaseContractDeps _ fun _ _ _ n => hw.setRefCount hφ n) fun _ => ?_
        exact writes_installContract hφ hw hfrom htype _ (htx newSource hne hnew) newDeps blockTime r.2

end Contracts

theorem writes_handleTx [Engine] (hφ : Write.AdmitsEffects φ rec p N)
    (hjournal : ∀ rh h hash a, φ (.journalConsumed rh h hash a)) (hconsume : ∀ h hash, φ (.consumeCommit h hash))
    (hw : Walks ψ p N) (cfg : Config) {tx : FullTx} (htx : tx.Installs p) (blockTime gas : Nat) :
    (handleTx cfg rec blockTime gas tx).Writes ψ φ := by
  unfold handleTx
  split
  · exact writes_bind (writes_handleGenerate hφ.setBalance hφ.registerPubKey tx) fun _ => trivial
  · split
    · refine writes_bind (writes_consumeReveal tx hjournal hconsume) fun _ => ?_
      refine writes_bind (writes_runValidate hφ hw _ _ _) ?_
      exact fun gas => writes_handleTransaction hφ hw tx blockTime gas
    · split
      · next hdeploy =>
        refine writes_bind (writes_consumeReveal tx hjournal hconsume) fun _ => ?_
        refine writes_bind (writes_runValidate hφ hw _ _ _) ?_
        exact fun gas => writes_handleDeploy hφ hw cfg hdeploy (htx hdeploy) blockTime gas
      · trivial

/-! ## §5 — one block -/

theorem writes_handleCommits [Engine] (hbalance : ∀ a v, φ (.setBalance rec a v))
    (hput : ∀ height hash a, φ (.putCommit height hash a)) (block : FullBlock) :
    (handleCommits rec block).Writes ψ φ := by
  refine writes_forM fun c _ => writes_look_bind fun v _ => ?_
  refine writes_ofExcept_bind fun _ _ => writes_ofExcept_bind fun fromAddr _ => ?_
  refine writes_bind writes_require fun _ => writes_bind writes_require fun _ => ?_
  exact ⟨hbalance _ _, hput _ _ _, trivial⟩

theorem writes_handleTxs [Engine] (hφ : Write.AdmitsEffects φ rec p N)
    (hjournal : ∀ rh h hash a, φ (.journalConsumed rh h hash a)) (hconsume : ∀ h hash, φ (.consumeCommit h hash))
    (hw : Walks ψ p N) (cfg : Config) {txs : List FullTx} (htxs : ∀ tx ∈ txs, tx.Deploys p) (blockTime : Nat) :
    (handleTxs cfg rec blockTime txs).Writes ψ φ :=
  writes_foldlM (fun gas tx htx => writes_handleTx hφ hjournal hconsume hw cfg (htxs tx htx).installs _ gas) _

/-- **Everything a block writes**, the block itself last. -/
theorem writes_upgrade_of_admits [Engine] (hw : Walks ψ p N) (cfg : Config) {block : FullBlock}
    (hφ : Write.Admits φ (cfg.recorder block.getHeight) p N) (hblock : ∀ tx ∈ block.txs, tx.Deploys p)
    (happly : φ (.apply block)) : (upgrade cfg block).Writes ψ φ := by
  refine writes_bind (writes_handleCommits hφ.setBalance hφ.putCommit block) fun _ => ?_
  refine writes_bind (writes_handleTxs hφ.toAdmitsEffects hφ.journalConsumed hφ.consumeCommit hw cfg hblock _) fun _ => ?_
  exact writes_bind (writes_updateBeacon block hφ.setBeacon) fun _ => ⟨hφ.pruneCommits _, happly, trivial⟩

theorem writes_upgrade [Engine] (hw : Walks ψ p N) (cfg : Config) {block : FullBlock}
    (hblock : ∀ tx ∈ block.txs, tx.Deploys p) :
    (upgrade cfg block).Writes ψ (Write.Permitted (cfg.recorder block.getHeight) p N) :=
  writes_upgrade_of_admits hw cfg (Write.admits_permitted _ p N) hblock trivial

end Walk
end NgCore
