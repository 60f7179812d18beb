/-
# NgCore.State.Triples — the handlers, for invariants of the slots

Pre- and postconditions of the handlers of a block, for any invariant that writes ASIDE from the contract slots
keep: charging, crediting, minting, revealing, committing, closing a block. What is left to show of an invariant is
what contract runs and `handleDeploy` do to it.

DELIVERABLE: `State.ensures_handleTx_of`, `State.ensures_upgrade_of`.
-/
import NgCore.State.Slots

namespace NgCore

open Lib (Txn)
open StateTxn (Ensures ensures_require_bind)
open Lib.Txn (ensures_pure ensures_fail ensures_tell ensures_bind ensures_look_bind ensures_ofExcept_bind
  ensures_foldlM Writes.ensures)

/-! ## §1 — writes aside from the slots -/

/-- The write touches no slot. -/
def Write.Aside (rec : Recorder) : Write → Prop
  | .setContract _ _ => False
  | .delContract _ _ => False
  | w => w.Permitted rec (fun _ => True) fun _ => True

theorem Write.Aside.permitted {rec : Recorder} {w : Write} (hw : w.Aside rec) (p : Bytes → Prop) :
    w.Permitted rec p fun _ => True := by
  cases w <;> first | exact hw | exact hw.elim

theorem Write.Aside.slots [Crypto] {rec : Recorder} {w : Write} (hw : w.Aside rec) (s : State) :
    (w.step s).slots = s.slots := by
  rcases w.slots_cases s with ⟨_, _, rfl⟩ | ⟨_, _, rfl⟩ | hsame
  · exact hw.elim
  · exact hw.elim
  · exact hsame

/-- What follows the transactions of a block. -/
def closeBlock [Engine] (cfg : Config) (block : FullBlock) : StateTxn Unit := do
  updateBeacon (cfg.recorder block.getHeight) block
  Txn.tell (.pruneCommits block.getHeight)
  Txn.tell (.apply block)

namespace State

variable [Engine] {cfg : Config} {height : Nat}

/-! ## §2 — the handlers -/

section Aside

variable {I : State → Prop} (hI : ∀ (w : Write) (t : State), w.Aside (cfg.recorder height) → I t → I (w.step t))
include hI

/-- What charges, credits and registers keys keeps what only the slots matter for. -/
theorem ensures_aside {α : Type} {q : StateTxn α} (hq : q.Writes (fun _ => True) (Write.Aside (cfg.recorder height))) :
    Ensures I q fun _ => I :=
  Writes.ensures hq hI

theorem ensures_chargeFrom (tx : FullTx) (expense : Nat) :
    Ensures I (chargeFrom (cfg.recorder height) tx expense) fun a t => tx.fromAddr = .ok a ∧ I t := by
  refine ensures_bind (ensures_aside hI (writes_verifySigned tx fun _ _ => rfl)) fun _ => ?_
  refine ensures_ofExcept_bind fun a ha => ensures_look_bind fun s hs => ensures_require_bind fun _ => ?_
  refine ensures_bind (Q := fun _ => I) (ensures_tell fun t ht => ?_) fun _ => ensures_pure fun t ht => ⟨ha, ht⟩
  rw [ht]
  exact hI _ s rfl hs

theorem ensures_credit (a : Address) (value : Nat) :
    Ensures I (credit (cfg.recorder height) a value) fun _ => I :=
  ensures_aside hI (writes_credit (fun _ _ => rfl) a value)

theorem ensures_consumeReveal (tx : FullTx) : Ensures I (consumeReveal tx) fun _ => I :=
  ensures_aside hI (writes_consumeReveal tx (fun _ _ _ _ => trivial) fun _ _ => trivial)

theorem ensures_handleCommits (block : FullBlock) (hheight : block.getHeight = height) :
    Ensures I (handleCommits (cfg.recorder block.getHeight) block) fun _ => I := by
  subst hheight
  exact ensures_aside hI (writes_handleCommits (fun _ _ => rfl) (fun _ _ _ => trivial) block)

theorem ensures_closeBlock (block : FullBlock) (hheight : block.getHeight = height) :
    Ensures I (closeBlock cfg block) fun _ => I := by
  subst hheight
  exact ensures_aside hI
    (Txn.writes_bind (writes_updateBeacon block fun _ => rfl) fun _ => ⟨trivial, trivial, trivial⟩)

variable (hrun : ∀ addr tx entry blockTime gas,
  Ensures I (runContract (cfg.recorder height) addr tx entry blockTime gas) fun _ => I)

omit hI in
include hrun in
theorem ensures_runValidate (tx : FullTx) (blockTime gas : Nat) :
    Ensures I (runValidate (cfg.recorder height) tx blockTime gas) fun _ => I := by
  refine ensures_ofExcept_bind fun a _ => ensures_look_bind fun s hs => ?_
  have hstay : Ensures (fun t => t = s) (pure gas : StateTxn Nat) fun _ => I := ensures_pure fun t ht => ht ▸ hs
  split
  · exact hstay
  · split
    · exact hstay
    · refine ensures_bind ((hrun a tx _ blockTime gas).mono (fun t ht => ht ▸ hs) fun _ _ h => h) fun r => ?_
      exact ensures_require_bind fun _ => ensures_pure fun t ht => ht

include hrun in
theorem ensures_handleTransaction (tx : FullTx) (blockTime gas : Nat) :
    Ensures I (handleTransaction (cfg.recorder height) tx blockTime gas) fun _ => I := by
  refine ensures_bind (ensures_chargeFrom hI tx _) fun a => ?_
  refine ensures_bind ((ensures_credit hI _ _).mono (fun _ h => h.2) fun _ _ h => h) fun _ => ?_
  refine ensures_look_bind fun s hs => ?_
  split
  · exact ensures_pure fun t ht => ht ▸ hs
  · refine ensures_bind ((hrun _ tx _ blockTime gas).mono (fun t ht => ht ▸ hs) fun _ _ h => h) fun r => ?_
    exact ensures_pure fun t ht => ht

include hrun in
/-- **One transaction**: what is left to show is the deploy. -/
theorem ensures_handleTx_of {K : State → Prop} (hweaken : ∀ t, I t → K t) {tx : FullTx} {blockTime : Nat}
    (hdeploy : tx.type = deployTx → ∀ gas,
      Ensures I (handleDeploy cfg (cfg.recorder height) tx blockTime gas) fun _ => K) (gas : Nat) :
    Ensures I (handleTx cfg (cfg.recorder height) blockTime gas tx) fun _ => K := by
  unfold handleTx
  split
  · refine ensures_bind (ensures_aside hI (writes_handleGenerate (fun _ _ => rfl) (fun _ _ => rfl) tx)) fun _ => ?_
    exact ensures_pure hweaken
  · split
    · refine ensures_bind (ensures_consumeReveal hI tx) fun _ => ?_
      refine ensures_bind (ensures_runValidate hrun tx blockTime gas) fun gas => ?_
      exact (ensures_handleTransaction hI hrun tx blockTime gas).mono (fun _ h => h) fun _ => hweaken
    · split
      · next htype =>
        refine ensures_bind (ensures_consumeReveal hI tx) fun _ => ?_
        exact ensures_bind (ensures_runValidate hrun tx blockTime gas) fun gas => hdeploy htype gas
      · exact ensures_fail _

end Aside

/-- **One block**: what is left to show is each transaction. -/
theorem ensures_upgrade_of {I : State → Prop} {block : FullBlock}
    (hI : ∀ (w : Write) (t : State), w.Aside (cfg.recorder block.getHeight) → I t → I (w.step t))
    (htx : ∀ tx ∈ block.txs, ∀ gas,
      Ensures I (handleTx cfg (cfg.recorder block.getHeight) block.header.timestamp gas tx) fun _ => I) :
    Ensures I (upgrade cfg block) fun _ => I := by
  refine ensures_bind (ensures_handleCommits hI block rfl) fun _ => ensures_bind (Q := fun _ => I) ?_ fun _ => ?_
  · exact ensures_foldlM (I := fun _ => I) (fun gas tx _ hmem => htx tx hmem gas) _
  · exact ensures_closeBlock hI block rfl

end State
end NgCore
