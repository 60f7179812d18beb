/-
# NgCore.State.Returns — the state transition never panics

A Go panic in the middle of an import takes the process down; an error does not. `Returns x` says that a computation
ends without a panic. Below the chain there is nothing to assume: whatever the transactions, the commitments, the
view and the contract code, the checks of a block and its application end with a verdict (a panic INSIDE a contract
run is caught by the engine and is a trap, see `NgCore.VM.Journal`).

The rules follow the code: one for `ensure`, one for sequencing, one for a loop, and one lemma per function.
-/
import NgCore.State.Rebuild

namespace NgCore

open Lib (Txn)
open Lib.Txn (look tell ofExcept fails_bind fails_ofExcept fails_forM fails_foldlM)

/-! ## §1 — rules -/

/-- **`Returns x`** — the computation ends in a value or in an ordinary error. -/
def Returns {α : Type} (x : Except Err α) : Prop := x ≠ .error .panic

section Rules

variable {α β : Type}

@[simp] theorem returns_ok (a : α) : Returns (.ok a) := nofun

@[simp] theorem returns_pure (a : α) : Returns (pure a) := nofun

@[simp] theorem returns_error {e : Err} : Returns (.error e : Except Err α) ↔ e ≠ .panic := by
  simp [Returns]

theorem returns_ensure {c : Prop} [Decidable c] {e : Err} (he : e ≠ .panic) : Returns (ensure c e) := by
  unfold ensure
  split
  · exact returns_ok ()
  · exact returns_error.mpr he

theorem returns_bind {x : Except Err α} {f : α → Except Err β} (hx : Returns x)
    (hf : ∀ a, x = .ok a → Returns (f a)) : Returns (x >>= f) := by
  cases x with
  | error e => exact returns_error.mpr (returns_error.mp hx)
  | ok a => exact hf a rfl

theorem returns_ensure_bind {c : Prop} [Decidable c] {e : Err} {f : Unit → Except Err β} (he : e ≠ .panic)
    (hf : c → Returns (f ())) : Returns (ensure c e >>= f) :=
  returns_bind (returns_ensure he) fun _ h => hf (ensure_eq_ok.mp h)

theorem returns_forM {f : α → Except Err Unit} {l : List α} (h : ∀ a ∈ l, Returns (f a)) : Returns (l.forM f) := by
  induction l with
  | nil => exact returns_ok ()
  | cons a l ih =>
    rw [List.forall_mem_cons] at h
    exact returns_bind h.1 fun _ _ => ih h.2

theorem returns_mapM {f : α → Except Err β} {l : List α} (h : ∀ a ∈ l, Returns (f a)) : Returns (l.mapM f) := by
  induction l with
  | nil => exact returns_ok []
  | cons a l ih =>
    rw [List.forall_mem_cons] at h
    rw [List.mapM_cons]
    exact returns_bind h.1 fun _ _ => returns_bind (ih h.2) fun _ _ => returns_ok _

theorem mem_of_mapM {f : α → Except Err β} {l : List α} {bs : List β} (h : l.mapM f = .ok bs) :
    ∀ b ∈ bs, ∃ a ∈ l, f a = .ok b := by
  induction l generalizing bs with
  | nil =>
    obtain rfl := pure_eq_ok.mp h
    exact nofun
  | cons a l ih =>
    rw [List.mapM_cons] at h
    rcases bind_eq_ok.mp h with ⟨b, hb, h⟩
    rcases bind_eq_ok.mp h with ⟨bs', hbs, h⟩
    obtain rfl := pure_eq_ok.mp h
    refine List.forall_mem_cons.mpr ⟨⟨a, List.mem_cons_self, hb⟩, fun c hc => ?_⟩
    rcases ih hbs c hc with ⟨d, hd, hfd⟩
    exact ⟨d, List.mem_cons_of_mem a hd, hfd⟩

/-- A loop that succeeded treated every element of its list. -/
theorem mapM_ok {f : α → Except Err β} {l : List α} {bs : List β} (h : l.mapM f = .ok bs) :
    bs.length = l.length ∧ ∀ a ∈ l, ∃ b ∈ bs, f a = .ok b := by
  induction l generalizing bs with
  | nil =>
    obtain rfl := pure_eq_ok.mp h
    exact ⟨rfl, fun a ha => by cases ha⟩
  | cons x l ih =>
    rw [List.mapM_cons] at h
    rcases bind_eq_ok.mp h with ⟨y, hy, h⟩
    rcases bind_eq_ok.mp h with ⟨ys, hys, h⟩
    obtain rfl := pure_eq_ok.mp h
    obtain ⟨hlength, hall⟩ := ih hys
    refine ⟨congrArg (· + 1) hlength, fun a ha => ?_⟩
    rcases List.mem_cons.mp ha with rfl | ha
    · exact ⟨y, List.mem_cons_self, hy⟩
    · obtain ⟨b, hb, hab⟩ := hall a ha
      exact ⟨b, List.mem_cons_of_mem y hb, hab⟩

theorem exists_mapM {f : α → Except Err β} {l : List α} (h : ∀ a ∈ l, ∃ b, f a = .ok b) : ∃ bs, l.mapM f = .ok bs := by
  induction l with
  | nil => exact ⟨[], rfl⟩
  | cons a l ih =>
    rw [List.forall_mem_cons] at h
    rcases h.1 with ⟨b, hb⟩
    rcases ih h.2 with ⟨bs, hbs⟩
    refine ⟨b :: bs, ?_⟩
    rw [List.mapM_cons, hb, hbs]
    rfl

theorem returns_foldlM {f : β → α → Except Err β} {l : List α} (h : ∀ b, ∀ a ∈ l, Returns (f b a)) (b : β) :
    Returns (l.foldlM f b) := by
  induction l generalizing b with
  | nil => exact returns_ok b
  | cons a l ih =>
    rw [List.foldlM_cons]
    refine returns_bind (h b a List.mem_cons_self) fun b' _ => ih (fun c d hd => ?_) b'
    exact h c d (List.mem_cons_of_mem a hd)

end Rules

/-- **`p.Returns`** — a program over the state that never fails with a panic. -/
abbrev StateTxn.Returns {α : Type} (p : StateTxn α) : Prop := p.Fails (· ≠ .panic)

theorem StateTxn.Returns.exec [Crypto] {α : Type} {p : StateTxn α} (h : p.Returns) (s : State) :
    NgCore.Returns (p.exec s) :=
  fun hrun => Txn.run_fails h hrun rfl

theorem returns_ofExcept {α : Type} {x : Except Err α} (h : Returns x) : StateTxn.Returns (ofExcept x) :=
  fails_ofExcept fun _ he hpanic => h (hpanic ▸ he)

theorem returns_require {c : Prop} [Decidable c] {e : Err} (he : e ≠ .panic) :
    (StateTxn.require c e).Returns := by
  unfold StateTxn.require
  split
  · trivial
  · exact he

theorem returns_when {c : Prop} [Decidable c] {p : StateTxn Unit} (hp : p.Returns) :
    (StateTxn.when c p).Returns := by
  unfold StateTxn.when
  split
  · exact hp
  · trivial

/-! ## §2 — envelopes, transactions, commitments -/

section Digests

variable [Crypto]

theorem returns_splitEnvelope {unsigned invalid : Err} (hunsigned : unsigned ≠ .panic) (hinvalid : invalid ≠ .panic)
    (hash : Bytes) (lookup : Option PubKeyResolver) (sign : Bytes) :
    Returns (splitEnvelope unsigned invalid hash lookup sign) := by
  have hu : Returns (.error unsigned : Except Err Envelope) := returns_error.mpr hunsigned
  have hi : Returns (.error invalid : Except Err Envelope) := returns_error.mpr hinvalid
  unfold splitEnvelope
  split
  · dsimp only
    repeat' split
    all_goals first | exact hu | exact hi | exact returns_ok _
  · exact hu

theorem returns_fromOf {unsigned : Err} (hunsigned : unsigned ≠ .panic) (hash sign : Bytes) :
    Returns (fromOf unsigned hash sign) := by
  have hu : Returns (.error unsigned : Except Err Address) := returns_error.mpr hunsigned
  unfold fromOf
  split
  · dsimp only
    repeat' split
    all_goals first | exact hu | exact returns_ok _
  · exact hu

namespace FullTx

theorem returns_fromAddr (tx : FullTx) : Returns tx.fromAddr := returns_fromOf (by decide) _ _

theorem returns_verify (lookup : Option PubKeyResolver) (tx : FullTx) : Returns (tx.verify lookup) := by
  unfold verify
  split
  · exact returns_ok ()
  · refine returns_ensure_bind (by decide) fun _ => returns_ensure_bind (by decide) fun _ => ?_
    exact returns_bind (returns_splitEnvelope (by decide) (by decide) _ _ _) fun _ _ => returns_ensure (by decide)

theorem returns_checkGenerate (height : Nat) (lookup : Option PubKeyResolver) (tx : FullTx) :
    Returns (tx.checkGenerate height lookup) := by
  refine returns_ensure_bind (by decide) fun _ => returns_ensure_bind (by decide) fun _ => ?_
  refine returns_bind (returns_verify lookup tx) fun _ _ => ?_
  split
  · exact returns_bind (returns_fromAddr tx) fun _ _ => returns_ensure (by decide)
  · exact returns_pure ()

theorem returns_checkDeploy (lookup : Option PubKeyResolver) (tx : FullTx) : Returns (tx.checkDeploy lookup) :=
  returns_ensure_bind (by decide) fun _ => returns_ensure_bind (by decide) fun _ => returns_verify lookup tx

end FullTx

namespace Commitment

theorem returns_verify (lookup : Option PubKeyResolver) (c : Commitment) : Returns (c.verify lookup) := by
  refine returns_ensure_bind (by decide) fun _ => ?_
  exact returns_bind (returns_splitEnvelope (by decide) (by decide) _ _ _) fun _ _ => returns_ensure (by decide)

theorem returns_fromAddr (c : Commitment) : Returns c.fromAddr := returns_fromOf (by decide) _ _

theorem returns_checkError (height : Nat) (lookup : Option PubKeyResolver) (c : Commitment) :
    Returns (c.checkError height lookup) :=
  returns_ensure_bind (by decide) fun _ => returns_ensure_bind (by decide) fun _ => returns_verify lookup c

end Commitment
end Digests

theorem returns_decodeCommitCode (inflate : Bytes → Option Bytes) (extra : Bytes) :
    Returns (decodeCommitCode inflate extra) := by
  unfold decodeCommitCode
  repeat' split
  all_goals exact fun h => by cases h

theorem Contract.returns_getContractDeps (decode : Bytes → Option (List Bytes)) (acc : Contract) :
    Returns (acc.getContractDeps decode) := by
  unfold Contract.getContractDeps
  dsimp only
  split
  · exact returns_ok []
  · split
    · exact fun h => by cases h
    · exact returns_mapM fun d _ => returns_ensure_bind (by decide) fun _ => returns_pure _

/-! ## §3 — the checks of a block -/

section Checks

variable [Engine]

theorem returns_extractContractDeps (source : Bytes) : Returns (extractContractDeps source) := by
  unfold extractContractDeps
  split
  · exact returns_ok []
  · split
    · exact fun h => by cases h
    · refine returns_bind (returns_ensure_bind (by decide) fun _ => returns_pure _) fun deps _ => ?_
      refine returns_bind (returns_mapM fun raw _ => ?_) fun _ _ => returns_pure _
      unfold resolveDepAddr
      split <;> exact fun h => by cases h

theorem returns_validateDeps (v : View) (fromAddr : Address) (source : Bytes) :
    Returns (validateDeps v fromAddr source) := by
  refine returns_bind (returns_extractContractDeps source) fun deps _ => ?_
  refine returns_bind (returns_forM fun depAddr _ => ?_) fun _ _ => returns_pure _
  refine returns_ensure_bind (by decide) fun _ => ?_
  split
  · exact fun h => by cases h
  · exact returns_ensure (by decide)

variable (v : View)

omit [Engine] in
theorem returns_splitGenerates (primary : Option FullTx) (uncleGens txs : List FullTx) :
    Returns (splitGenerates primary uncleGens txs) := by
  induction txs generalizing primary uncleGens with
  | nil => exact returns_ok _
  | cons tx txs ih =>
    unfold splitGenerates
    split
    · exact ih _ _
    · split
      · exact returns_ensure_bind (by decide) fun _ => ih _ _
      · exact ih _ _

omit [Engine] in
theorem returns_matchUncleGens (height : Nat) (want : List Bytes) (gens : List FullTx) :
    Returns (matchUncleGens height want gens) := by
  induction gens generalizing want with
  | nil => exact returns_ok ()
  | cons g gens ih =>
    refine returns_ensure_bind (by decide) fun _ => returns_ensure_bind (by decide) fun _ => ?_
    exact returns_ensure_bind (by decide) fun _ => ih _

theorem returns_checkBlockGenerates (block : FullBlock) : Returns (checkBlockGenerates v block) := by
  refine returns_bind (returns_splitGenerates _ _ _) fun r _ => ?_
  dsimp only
  split
  · exact fun h => by cases h
  · refine returns_ensure_bind (by decide) fun _ => ?_
    refine returns_bind (FullTx.returns_checkGenerate _ _ _) fun _ _ => ?_
    exact returns_ensure_bind (by decide) fun _ => returns_matchUncleGens _ _ _

theorem returns_checkReveal (tx : FullTx) : Returns (checkReveal v tx) := by
  unfold checkReveal
  split
  · exact returns_ok ()
  · refine returns_ensure_bind (by decide) fun _ => returns_ensure_bind (by decide) fun _ => ?_
    exact returns_bind (FullTx.returns_fromAddr tx) fun _ _ => returns_ensure (by decide)

theorem returns_fromWithBalance (tx : FullTx) (expense : Nat) : Returns (fromWithBalance v tx expense) :=
  returns_bind (FullTx.returns_fromAddr tx) fun _ _ => returns_ensure_bind (by decide) fun _ => returns_pure _

theorem returns_checkTransaction (tx : FullTx) : Returns (checkTransaction v tx) := by
  refine returns_bind (FullTx.returns_verify _ tx) fun _ _ => ?_
  exact returns_bind (returns_fromWithBalance v tx _) fun _ _ => returns_pure ()

theorem returns_checkDeploy (tx : FullTx) : Returns (checkDeploy v tx) := by
  refine returns_bind (FullTx.returns_checkDeploy _ tx) fun _ _ => ?_
  refine returns_bind (returns_fromWithBalance v tx _) fun fromAddr _ => ?_
  refine returns_bind (returns_decodeCommitCode _ _) fun newSource _ => ?_
  refine returns_ensure_bind (by decide) fun _ => ?_
  dsimp only
  split
  · split
    · exact fun h => by cases h
    · exact returns_ensure_bind (by decide) fun _ => returns_ensure (by decide)
  · refine returns_ensure_bind (by decide) fun _ => ?_
    refine returns_bind (returns_validateDeps v fromAddr newSource) fun _ _ => ?_
    split
    · exact returns_ok ()
    · exact returns_ensure (by decide)

theorem returns_checkTx (tx : FullTx) : Returns (checkTx v tx) := by
  refine returns_ensure_bind (by decide) fun _ => returns_ensure_bind (by decide) fun _ => ?_
  split
  · exact returns_bind (returns_checkReveal v tx) fun _ _ => returns_checkTransaction v tx
  · split
    · exact returns_bind (returns_checkReveal v tx) fun _ _ => returns_checkDeploy v tx
    · exact fun h => by cases h

/-- **The transaction checks of a block always return.** -/
theorem returns_checkBlockTxs (block : FullBlock) : Returns (checkBlockTxs v block) := by
  refine returns_bind (returns_checkBlockGenerates v block) fun _ _ => returns_forM fun tx _ => ?_
  split
  · exact returns_ok ()
  · refine returns_ensure_bind (by decide) fun _ => returns_ensure_bind (by decide) fun _ => ?_
    refine returns_bind (returns_checkTx v tx) fun _ _ => ?_
    unfold checkTxBaseFee
    split
    · exact returns_ok ()
    · exact returns_ensure (by decide)

end Checks

/-! ## §4 — applying a block -/

section Charge

variable [Crypto] (rec : Recorder)

theorem returns_registerPubKey (tx : FullTx) : (registerPubKey rec tx).Returns := by
  unfold registerPubKey
  dsimp only
  split <;> trivial

theorem returns_verifySigned (tx : FullTx) : (verifySigned rec tx).Returns := by
  refine fails_bind Txn.fails_look fun v => ?_
  refine fails_bind (returns_ofExcept (FullTx.returns_verify _ tx)) fun _ => ?_
  exact returns_registerPubKey rec tx

theorem returns_chargeFrom (tx : FullTx) (expense : Nat) : (chargeFrom rec tx expense).Returns := by
  refine fails_bind (returns_verifySigned rec tx) fun _ => ?_
  refine fails_bind (returns_ofExcept (FullTx.returns_fromAddr tx)) fun _ => ?_
  refine fails_bind Txn.fails_look fun v => fails_bind (returns_require (by decide)) fun _ => ?_
  exact fails_bind (Txn.fails_tell _) fun _ => Txn.fails_pure _

omit [Crypto] in
theorem returns_credit (addr : Address) (value : Nat) : (credit rec addr value).Returns :=
  fails_bind Txn.fails_look fun _ => Txn.fails_tell _

theorem returns_handleGenerate (tx : FullTx) : (handleGenerate rec tx).Returns :=
  fails_bind (returns_when (returns_verifySigned rec tx)) fun _ => returns_credit rec _ _

theorem returns_consumeReveal (tx : FullTx) : (consumeReveal tx).Returns := by
  unfold consumeReveal
  split
  · trivial
  · refine fails_bind (returns_require (by decide)) fun _ => ?_
    refine fails_bind (returns_ofExcept (FullTx.returns_fromAddr tx)) fun _ => fails_bind Txn.fails_look fun v => ?_
    split
    · exact fun h => by cases h
    · exact fails_bind (Txn.fails_tell _) fun _ => Txn.fails_tell _

omit [Crypto] in
theorem returns_refundContractDeposit (addr : Address) (ctx : ContractContext) :
    (refundContractDeposit rec addr ctx).Returns := by
  unfold refundContractDeposit
  dsimp only
  split
  · trivial
  · refine fails_bind Txn.fails_look fun v => fails_bind (returns_when (Txn.fails_tell _)) fun _ => ?_
    split
    · trivial
    · refine fails_bind (Txn.fails_tell _) fun _ => ?_
      exact fails_bind Txn.fails_look fun _ => Txn.fails_tell _

end Charge

section Handlers

variable [Engine] (cfg : Config) (rec : Recorder)

omit [Engine] in
theorem returns_flush (j : Journal) : (j.flush rec).Returns := by
  refine fails_bind (fails_forM (fun e => ?_) _) fun _ => fails_forM (fun e => ?_) _
  · exact Txn.fails_tell _
  · exact Txn.fails_tell _

theorem returns_runContract (addr : Address) (tx : FullTx) (entry : String) (blockTime gas : Nat) :
    (runContract rec addr tx entry blockTime gas).Returns := by
  refine fails_bind Txn.fails_look fun v => ?_
  split
  · trivial
  · split
    · trivial
    · split
      · trivial
      · split
        · exact fails_bind (Txn.fails_tell _) fun _ => Txn.fails_pure _
        · refine fails_bind (Txn.fails_tell _) fun _ => ?_
          exact fails_bind (returns_when (returns_flush rec _)) fun _ => Txn.fails_pure _

theorem returns_runValidate (tx : FullTx) (blockTime gas : Nat) : (runValidate rec tx blockTime gas).Returns := by
  refine fails_bind (returns_ofExcept (FullTx.returns_fromAddr tx)) fun _ => fails_bind Txn.fails_look fun v => ?_
  split
  · trivial
  · split
    · trivial
    · refine fails_bind (returns_runContract rec _ tx _ _ _) fun r => ?_
      exact fails_bind (returns_require (by decide)) fun _ => Txn.fails_pure _

theorem returns_handleTransaction (tx : FullTx) (blockTime gas : Nat) :
    (handleTransaction rec tx blockTime gas).Returns := by
  refine fails_bind (returns_chargeFrom rec tx _) fun _ => fails_bind (returns_credit rec _ _) fun _ => ?_
  refine fails_bind Txn.fails_look fun v => ?_
  split
  · trivial
  · exact fails_bind (returns_runContract rec _ tx _ _ _) fun _ => Txn.fails_pure _

omit [Engine] in
theorem returns_pinDeps (deps : List Address) : (pinDeps rec deps).Returns := by
  refine fails_forM (fun depAddr => fails_bind Txn.fails_look fun v => ?_) deps
  split
  · exact fun h => by cases h
  · exact Txn.fails_tell _

theorem returns_releaseContractDeps (slot : Contract) : (releaseContractDeps rec slot).Returns := by
  refine fails_bind (returns_ofExcept (Contract.returns_getContractDeps _ slot)) fun deps => ?_
  refine fails_forM (fun depAddr => fails_bind Txn.fails_look fun v => ?_) deps
  split
  · exact fun h => by cases h
  · exact returns_when (Txn.fails_tell _)

theorem returns_destroyContract (tx : FullTx) (fromAddr : Address) (slot : Contract) (blockTime gas : Nat) :
    (destroyContract cfg rec tx fromAddr slot blockTime gas).Returns := by
  refine fails_bind (returns_require (by decide)) fun _ => fails_bind (returns_runContract rec _ tx _ _ _) fun r => ?_
  dsimp only
  split
  · trivial
  · refine fails_bind (returns_releaseContractDeps rec slot) fun _ => ?_
    refine fails_bind (returns_when (returns_refundContractDeposit rec _ _)) fun _ => ?_
    exact fails_bind (Txn.fails_tell _) fun _ => Txn.fails_pure _

theorem returns_installContract (tx : FullTx) (fromAddr : Address) (slot : Contract) (newSource : Bytes)
    (newDeps : List Address) (blockTime gas : Nat) :
    (installContract rec tx fromAddr slot newSource newDeps blockTime gas).Returns := by
  refine fails_bind (returns_pinDeps rec newDeps) fun _ => fails_bind (Txn.fails_tell _) fun _ => ?_
  exact fails_bind (returns_runContract rec _ tx _ _ _) fun _ => Txn.fails_pure _

theorem returns_handleDeploy (tx : FullTx) (blockTime gas : Nat) :
    (handleDeploy cfg rec tx blockTime gas).Returns := by
  refine fails_bind Txn.fails_look fun v => ?_
  refine fails_bind (returns_ofExcept (FullTx.returns_checkDeploy _ tx)) fun _ => ?_
  refine fails_bind (returns_chargeFrom rec tx _) fun fromAddr => ?_
  refine fails_bind (returns_ofExcept (returns_decodeCommitCode _ _)) fun newSource => ?_
  refine fails_bind (returns_require (by decide)) fun _ => fails_bind Txn.fails_look fun v => ?_
  dsimp only
  split
  · split
    · exact fun h => by cases h
    · exact returns_destroyContract cfg rec tx fromAddr _ blockTime gas
  · refine fails_bind (returns_require (by decide)) fun _ => ?_
    refine fails_bind (returns_ofExcept (returns_validateDeps v fromAddr newSource)) fun newDeps => ?_
    split
    · exact returns_installContract rec tx fromAddr _ newSource newDeps blockTime gas
    · refine fails_bind (returns_runContract rec _ tx _ _ _) fun r => ?_
      split
      · trivial
      · refine fails_bind (returns_releaseContractDeps rec _) fun _ => ?_
        exact returns_installContract rec tx fromAddr _ newSource newDeps blockTime _

theorem returns_handleTx (blockTime gas : Nat) (tx : FullTx) : (handleTx cfg rec blockTime gas tx).Returns := by
  unfold handleTx
  split
  · exact fails_bind (returns_handleGenerate rec tx) fun _ => Txn.fails_pure _
  · split
    · refine fails_bind (returns_consumeReveal tx) fun _ => ?_
      exact fails_bind (returns_runValidate rec tx _ _) fun _ => returns_handleTransaction rec tx _ _
    · split
      · refine fails_bind (returns_consumeReveal tx) fun _ => ?_
        exact fails_bind (returns_runValidate rec tx _ _) fun _ => returns_handleDeploy cfg rec tx _ _
      · exact fun h => by cases h

theorem returns_handleCommit (c : Commitment) : (handleCommit rec c).Returns := by
  refine fails_bind Txn.fails_look fun v => fails_bind (returns_ofExcept (Commitment.returns_verify _ c)) fun _ => ?_
  refine fails_bind (returns_ofExcept (Commitment.returns_fromAddr c)) fun _ => ?_
  refine fails_bind (returns_require (by decide)) fun _ => fails_bind (returns_require (by decide)) fun _ => ?_
  exact fails_bind (Txn.fails_tell _) fun _ => Txn.fails_tell _

/-- **Applying a block always returns.** -/
theorem returns_upgrade (block : FullBlock) : (upgrade cfg block).Returns := by
  refine fails_bind (fails_forM (returns_handleCommit _) _) fun _ => ?_
  refine fails_bind (fails_foldlM (fun gas tx => returns_handleTx cfg _ _ gas tx) _ _) fun _ => ?_
  refine fails_bind ?_ fun _ => fails_bind (Txn.fails_tell _) fun _ => Txn.fails_tell _
  unfold updateBeacon
  split
  · trivial
  · exact fails_bind Txn.fails_look fun _ => Txn.fails_tell _

end Handlers
end NgCore
