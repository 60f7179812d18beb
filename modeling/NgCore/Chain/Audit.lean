/-
# NgCore.Chain.Audit — the money of a running node

What one block does to the sum of all balances (`NgCore.State.Supply`), carried through everything a node does: blocks
on the tip, reorganizations that unwind (on an archive node) and reorganizations that replay from genesis. The books
must stay right for every height a later unwind can return to, so the invariant looks DOWN the chain: it holds of the
balances now, and of those that are left when the top block is reverted (`Audited`).

DELIVERABLE: `Node.supply_audited` — the balances of a node come to what its blocks minted, less what they burnt.
-/
import NgCore.State.Supply
import NgCore.Chain.Adopted
import NgCore.Chain.Preimage

namespace NgCore

open Lib (Bucket Versioned)

/-! ## §1 — books that can be unwound -/

/-- **`Audited archive l d`** — the balances `d` come to what the blocks `l`, newest first, minted less what they
burnt; on an archive node the same is true below each of them. -/
def Audited (archive : Bool) : List FullBlock → Versioned Address Nat → Prop
  | [], d => Bucket.total (fun _ x => x) d.cur = 0
  | b :: l, d =>
    Bucket.total (fun _ x => x) d.cur + ((b :: l).map FullBlock.burnt).sum = ((b :: l).map FullBlock.minted).sum ∧
      (archive = true → Audited archive l (d.revert true b.getHeight))

theorem Audited.total {archive : Bool} {l : List FullBlock} {d : Versioned Address Nat} (h : Audited archive l d) :
    Bucket.total (fun _ x => x) d.cur + (l.map FullBlock.burnt).sum = (l.map FullBlock.minted).sum := by
  cases l with
  | nil => exact h
  | cons b l => exact h.1

/-- In a chain down to height zero, the height of the top counts the blocks below it. -/
theorem Descends.height_eq [Crypto] {b : FullBlock} {l : List FullBlock} (h : Descends (b :: l)) :
    b.getHeight = l.length := by
  induction l generalizing b with
  | nil => exact h
  | cons p l ih =>
    obtain ⟨hfollows, h⟩ := descends_cons.mp h
    rw [hfollows.1, ih h, List.length_cons]

/-- What `CheckError` makes sure of: the coinbase of an uncle has the size of an address. -/
theorem FullBlock.uncle_coinbase [Crypto] {now : Nat} {b : FullBlock} (h : b.checkError now = .ok ()) :
    ∀ u ∈ b.uncles, u.coinbase.length = addressSize := by
  intro u hu
  have hchecked := checkStandaloneError_of_checkUncles (FullBlock.checkError_eq_ok.mp h).uncles u hu
  exact (BlockHeader.sized_of_checkStandaloneError hchecked).coinbase

section Books

variable [Engine] {cfg : Config} {C : State → FullBlock → Prop} {s s' : State} {block : FullBlock}

theorem mintedBy_genesis {network : Network} (hg : getGenesisBlock network = .ok block) :
    mintedBy block.txs = block.minted := by
  have huncles : block.uncles = [] := by
    unfold getGenesisBlock at hg
    obtain ⟨_, -, hg⟩ := bind_eq_ok.mp hg
    obtain ⟨_, -, hg⟩ := bind_eq_ok.mp hg
    obtain ⟨_, -, hg⟩ := bind_eq_ok.mp hg
    rw [← pure_eq_ok.mp hg]
  obtain ⟨-, hheight, tx, htxs, htype, -, -, -, hvalue⟩ := getGenesisBlock_ok hg
  unfold FullBlock.minted
  rw [htxs, mintedBy_cons, if_pos htype, hvalue, huncles, hheight]
  rfl

/-- **One executed block**: the sum moves by what it mints and burns. -/
theorem FullBlock.Admissible.supply (hadm : block.Admissible cfg s)
    (hrun : (upgrade cfg block).exec s = .ok ((), s')) : s'.supply + block.burnt = s.supply + block.minted := by
  have hmints : mintedBy block.txs = block.minted := by
    unfold FullBlock.Admissible at hadm
    split at hadm
    · exact mintedBy_genesis hadm
    · obtain ⟨-, ⟨now, herror⟩, hcheck⟩ := hadm
      exact mintedBy_checked hcheck (FullBlock.uncle_coinbase herror)
  have hsupply := (upgrade_shifts hrun).supply
  omega

theorem State.Executed.height_eq (h : State.Executed cfg C s) (hadm : block.Admissible cfg s) :
    block.getHeight = s.applied.length := by
  cases happlied : s.applied with
  | nil =>
    simp only [FullBlock.Admissible, happlied] at hadm
    exact (getGenesisBlock_ok hadm).2.1
  | cons top l =>
    simp only [FullBlock.Admissible, happlied] at hadm
    rw [hadm.1.1, (h.descends_of_cons happlied).height_eq, List.length_cons]

/-- **`State.Audit cfg s`** — the books of a state are right, and nothing is recorded above its tip. -/
structure State.Audit (cfg : Config) (s : State) : Prop where
  audited : Audited cfg.archive s.applied s.bal
  below : cfg.archive = true → s.Below s.applied.length

omit [Engine] in
theorem State.audit_empty (hstores : s.stores = State.empty.stores) (happlied : s.applied = []) : s.Audit cfg where
  audited := by
    have hbal : s.bal = Versioned.empty := congrArg Stores.bal hstores
    rw [happlied, hbal]
    exact Bucket.total_empty _
  below _ := by
    rw [happlied]
    exact (State.kept_empty hstores).below

theorem State.Audit.upgrade (h : s.Audit cfg) (hheight : block.getHeight = s.applied.length)
    (hadm : block.Admissible cfg s) (hrun : (NgCore.upgrade cfg block).exec s = .ok ((), s')) : s'.Audit cfg := by
  have happlied : s'.applied = block :: s.applied := applied_upgrade hrun
  have hsince : cfg.archive = true → SinceState block.getHeight s s' := fun harchive =>
    since_upgrade harchive hrun (hheight ▸ h.below harchive)
  refine ⟨?_, fun harchive => ?_⟩
  · rw [happlied]
    refine ⟨?_, fun harchive => ?_⟩
    · have hsupply := hadm.supply hrun
      have htotal := h.audited.total
      unfold State.supply at hsupply
      rw [List.map_cons, List.map_cons, List.sum_cons, List.sum_cons]
      omega
    · -- reverting the block gives back the balances it was executed on
      have hfresh := (hheight ▸ h.below harchive : s.Below block.getHeight).bal.fresh
      rw [Versioned.revert_eq hfresh (hsince harchive).bal]
      exact h.audited
  · rw [happlied, List.length_cons, ← hheight]
    exact State.Below.since (hheight ▸ h.below harchive) (hsince harchive)

/-- **The books of every state a node executes are right.** -/
theorem State.Executed.audit (h : State.Executed cfg C s) : s.Audit cfg := by
  induction h with
  | init => exact State.audit_empty rfl rfl
  | upgrade h hadm _ hrun ih => exact ih.upgrade (h.height_eq hadm) hadm hrun
  | @unwind s top l harchive h happlied _ ih =>
    have hleft := h.applied_unwind happlied
    have haudited := ih.audited
    have hbelow := ih.below harchive
    rw [happlied] at haudited hbelow
    refine ⟨?_, fun _ => ?_⟩
    · rw [hleft, State.bal_unwindHeight]
      exact haudited.2 harchive
    · rw [hleft, (h.descends_of_cons happlied).height_eq]
      exact State.Below.unwindHeight hbelow
  | @reset s _ _ => exact State.audit_empty (State.stores_rebuildFromGenesisSheet s) (State.applied_rebuildFromSheet _)

/-! ## §2 — nodes -/

variable {H : Set BlockHeader} {n : Node State}

/-- **The balances of a node** come to what the blocks of its chain minted, less what they burnt, whatever blocks it was
given and whatever reorganizations it went through. -/
theorem Node.supply_audited (hinj : Set.InjOn BlockHeader.getHash (genesisHeaders ∪ H))
    (hr : Node.Reachable cfg H n) :
    ∃ top l, n.state.applied = top :: l ∧ top.getHash.val = n.store.latestHash ∧ Descends (top :: l) ∧
      n.state.supply + ((top :: l).map FullBlock.burnt).sum = ((top :: l).map FullBlock.minted).sum := by
  obtain ⟨tip, hsound, hsync⟩ := hr.inSync hinj
  obtain ⟨top, l, happlied, htop⟩ := hsync.top
  have htotal := hsync.executed.audit.audited.total
  rw [happlied] at htotal
  refine ⟨top, l, happlied, ?_, hsync.executed.descends_of_cons happlied, htotal⟩
  rw [hsound.latestHash]
  exact congrArg (fun x : BlockHeader => x.getHash.val) htop

end Books

/-- A chain of two blocks, paid for. -/
theorem Node.supply_audited_handChain :
    letI := Engine.bare
    ∃ n : Node State, n.store.latestHeight = 2 ∧ n.state.supply + (n.state.applied.map FullBlock.burnt).sum =
      (n.state.applied.map FullBlock.minted).sum := by
  let _ := Engine.bare
  obtain ⟨n, hr, _, htest⟩ := exists_reachable_byHand (fun _ => none) true (handChain 1 2 handGenesis) []
    (fun n => decide (n.store.latestHeight = 2)) (by decide +kernel)
  have hinj := injOn_byHand (fun _ => none) (l := (handChain 1 2 handGenesis ++ []).map FullBlock.header)
    (by decide +kernel)
  obtain ⟨top, l, happlied, _, _, htotal⟩ := Node.supply_audited hinj hr
  refine ⟨n, of_decide_eq_true htest, ?_⟩
  rw [happlied]
  exact htotal

end NgCore
