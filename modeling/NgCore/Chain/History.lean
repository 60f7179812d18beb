/-
# NgCore.Chain.History — the blocks a state has executed

`State.applied` is a history variable: the blocks whose effects the state carries. Upgrading puts the block on
top, unwinding takes the blocks of the heights off, a replay starts over.

`State.Executed cfg C` says how the states of a node come about, without the block store: from an empty
database, by executing one admissible block on top, by unwinding the top block, or by starting over. Every
admissible block passed `CheckError` and, against the state it is executed on, `CheckBlockTxs`; `C` is a
condition on each execution, for results about the runs that meet it. Invariants of states are plain
inductions over `Executed`; `NgCore.Chain.Adopted` connects it to the calls a node takes.
-/
import NgCore.Chain.Paths
import NgCore.State.Discipline

namespace NgCore

open Lib (Bucket)

/-! ## §1 — the history variable -/

section State

variable [Crypto]

theorem State.applied_mirror {A V : Type} (leaf : A → LeafKey) (bytes : Option V → Bytes)
    (l : List (A × Option V)) (s : State) : (State.mirror leaf bytes l s).applied = s.applied := by
  unfold State.mirror
  induction l generalizing s with
  | nil => rfl
  | cons e l ih => exact ih (s.trieSetLeaf (leaf e.1) (bytes e.2))

theorem State.applied_dropCommits (p : Nat → Bool) (s : State) : (s.dropCommits p).applied = s.applied := by
  unfold State.dropCommits
  induction s.commit.toList.filter _ generalizing s with
  | nil => rfl
  | cons e l ih => exact ih (s.consumeCommit e.1.1 e.1.2)

theorem State.applied_restoreConsumed (h : Nat) (s : State) :
    (s.restoreConsumedAtHeight h).applied = s.applied := by
  unfold State.restoreConsumedAtHeight
  induction s.spent.toList.filter _ generalizing s with
  | nil => rfl
  | cons e l ih =>
    rw [List.foldl_cons, ih]
    rfl

theorem State.applied_setContract (rec : Recorder) (account : Contract) (s : State) :
    (s.setContract rec account).applied = s.applied := by
  obtain ⟨code, hcode⟩ := State.reconcileCode_eq rec account s
  unfold State.setContract
  rw [hcode]
  rfl

theorem Write.applied_step (w : Write) (s : State) (h : ∀ b, w ≠ .apply b) :
    (w.step s).applied = s.applied := by
  cases w with
  | setContract rec account => exact s.applied_setContract rec account
  | delContract rec a =>
    obtain ⟨code, hcode⟩ := State.releaseSlot_eq rec a s
    show (s.delContract rec a).applied = s.applied
    unfold State.delContract
    rw [hcode]
    rfl
  | registerPubKey rec a scheme pubKey =>
    show (s.registerPubKey rec a (scheme :: pubKey)).applied = s.applied
    unfold State.registerPubKey
    split <;> rfl
  | pruneCommits tip =>
    show (s.pruneCommits tip).applied = s.applied
    unfold State.pruneCommits
    split
    · rfl
    · exact s.applied_dropCommits _
  | apply block => exact absurd rfl (h block)
  | setBalance | setBeacon | putCommit | consumeCommit | journalConsumed | notes => rfl

/-- A program that applies no block leaves the history alone. -/
theorem applied_exec {α : Type} {p : StateTxn α} {s s' : State} {a : α}
    (hp : p.Writes (fun _ => True) fun w => ∀ b, w ≠ .apply b) (h : p.exec s = .ok (a, s')) :
    s'.applied = s.applied :=
  Lib.Txn.run_preserves (I := fun t => t.applied = s.applied) (fun _ _ => trivial)
    (fun w t hw ht => (w.applied_step t hw).trans ht) hp h rfl

theorem Write.admits_ne_apply (rec : Recorder) :
    Write.Admits (fun w => ∀ b, w ≠ .apply b) rec (fun _ => True) fun _ => True where
  setBalance _ _ _ := nofun
  setContract _ _ _ := nofun
  delContract _ _ := nofun
  registerPubKey _ _ _ := nofun
  notes _ _ _ := nofun
  setBeacon _ _ := nofun
  putCommit _ _ _ _ := nofun
  consumeCommit _ _ _ := nofun
  journalConsumed _ _ _ _ _ := nofun
  pruneCommits _ _ := nofun

theorem State.applied_unwindHeight (h : Nat) (s : State) :
    (s.unwindHeight h).applied = s.applied.filter fun b => b.getHeight ≠ h := by
  have hbal : ∀ t : State, (t.revertBalances h).applied = t.applied := fun t =>
    State.applied_mirror _ _ _ _
  have hcontract : ∀ t : State, (t.revertContracts h).applied = t.applied := fun t =>
    State.applied_mirror _ _ _ _
  have hkey : ∀ t : State, (t.revertKeys h).applied = t.applied := fun t => State.applied_mirror _ _ _ _
  have hbeacon : ∀ t : State, (t.revertBeacon h).applied = t.applied := fun t =>
    State.applied_mirror _ _ _ _
  unfold State.unwindHeight State.dropApplied
  dsimp only
  rw [hbeacon, State.applied_restoreConsumed, State.deleteCommitsAtHeight, State.applied_dropCommits, hkey,
    hcontract, hbal]

theorem State.applied_unwindHeights (target depth : Nat) (s : State) :
    (State.unwindHeights target depth s).applied =
      s.applied.filter fun b => ¬ (target < b.getHeight ∧ b.getHeight ≤ target + depth) := by
  induction depth generalizing s with
  | zero =>
    refine (List.filter_eq_self.mpr fun b _ => ?_).symm
    exact decide_eq_true (by omega)
  | succ depth ih =>
    rw [State.unwindHeights, ih, State.applied_unwindHeight, List.filter_filter]
    refine List.filter_congr fun b _ => ?_
    rw [Bool.eq_iff_iff]
    simp only [Bool.and_eq_true, decide_eq_true_eq]
    omega

theorem State.applied_rebuildFromSheet (s : State) :
    (s.rebuildFromSheet State.getGenesisSheet).applied = [] := by
  unfold State.rebuildFromSheet
  obtain ⟨trie, log, heq⟩ := State.exists_rebuildTrie_eq (s.resetBuckets.initFromSheet State.getGenesisSheet)
  rw [heq]
  rfl

end State

/-- **A block goes on top of the history.** -/
theorem applied_upgrade [Engine] {cfg : Config} {block : FullBlock} {s s' : State} {u : Unit}
    (h : (upgrade cfg block).exec s = .ok (u, s')) : s'.applied = block :: s.applied := by
  have hφ := Write.admits_ne_apply (cfg.recorder block.getHeight)
  obtain ⟨_, s₁, h₁, h⟩ := StateTxn.exec_bind_ok.mp h
  obtain ⟨_, s₂, h₂, h⟩ := StateTxn.exec_bind_ok.mp h
  obtain ⟨_, s₃, h₃, h⟩ := StateTxn.exec_bind_ok.mp h
  obtain ⟨_, s₄, h₄, h⟩ := StateTxn.exec_bind_ok.mp h
  have e₁ := applied_exec (writes_handleCommits hφ.setBalance hφ.putCommit block) h₁
  have e₂ := applied_exec (writes_handleTxs hφ.toAdmitsEffects hφ.journalConsumed hφ.consumeCommit walks_any cfg
    (fun _ _ _ _ _ => trivial) _) h₂
  have e₃ := applied_exec (writes_updateBeacon block hφ.setBeacon) h₃
  have e₄ : s₄.applied = s₃.applied := by
    obtain rfl := (Prod.mk.inj (Except.ok.inj h₄)).2
    exact Write.applied_step (.pruneCommits block.getHeight) s₃ fun b hb => by cases hb
  obtain rfl := (Prod.mk.inj (Except.ok.inj h)).2
  show block :: s₄.applied = block :: s.applied
  rw [e₄, e₃, e₂, e₁]

/-! ## §2 — chains, tip first -/

/-- **`Descends l`** — every block of the list follows the next one, and the last is at height zero. -/
def Descends [Crypto] : List FullBlock → Prop
  | [] => False
  | [g] => g.getHeight = 0
  | b :: p :: l => Follows p b ∧ Descends (p :: l)

section Descend

variable [Crypto]

theorem descends_cons {b p : FullBlock} {l : List FullBlock} :
    Descends (b :: p :: l) ↔ Follows p b ∧ Descends (p :: l) := Iff.rfl

theorem Descends.height_le {b : FullBlock} {l : List FullBlock} (h : Descends (b :: l)) :
    ∀ c ∈ l, c.getHeight < b.getHeight := by
  induction l generalizing b with
  | nil => exact fun c hc => absurd hc List.not_mem_nil
  | cons p l ih =>
    obtain ⟨hfollows, h⟩ := descends_cons.mp h
    have hstep := hfollows.1
    intro c hc
    rcases List.mem_cons.mp hc with rfl | hc
    · omega
    · have := ih h c hc
      omega

theorem Descends.filter_ne {b : FullBlock} {l : List FullBlock} (h : Descends (b :: l)) :
    (b :: l).filter (fun c => c.getHeight ≠ b.getHeight) = l := by
  rw [List.filter_cons_of_neg (by simp), List.filter_eq_self.mpr]
  intro c hc
  exact decide_eq_true (h.height_le c hc).ne

/-- Dropping what is above a height leaves a chain from that height. -/
theorem Descends.filter_le {b : FullBlock} {l : List FullBlock} (h : Descends (b :: l)) {k : Nat}
    (hk : k ≤ b.getHeight) :
    ∃ c l', (b :: l).filter (fun x => x.getHeight ≤ k) = c :: l' ∧ c.getHeight = k ∧ Descends (c :: l') ∧
      c ∈ b :: l := by
  induction l generalizing b with
  | nil =>
    have hzero : b.getHeight = 0 := h
    refine ⟨b, [], List.filter_eq_self.mpr fun c hc => decide_eq_true ?_, by omega, h, List.mem_cons_self⟩
    obtain rfl := List.mem_singleton.mp hc
    omega
  | cons p l ih =>
    by_cases heq : b.getHeight = k
    · refine ⟨b, p :: l, List.filter_eq_self.mpr fun c hc => decide_eq_true ?_, heq, h, List.mem_cons_self⟩
      rcases List.mem_cons.mp hc with rfl | hc
      · omega
      · have := h.height_le c hc
        omega
    · obtain ⟨hfollows, h⟩ := descends_cons.mp h
      have hstep := hfollows.1
      obtain ⟨c, l', hfilter, hheight, hchain, hmem⟩ := ih h (by omega)
      refine ⟨c, l', ?_, hheight, hchain, List.mem_cons_of_mem b hmem⟩
      rw [List.filter_cons_of_neg (by simp only [decide_eq_true_eq]; omega)]
      exact hfilter

omit [Crypto] in
theorem reverse_append_cons (branch : List FullBlock) (p : FullBlock) (l : List FullBlock) :
    ∃ top l', branch.reverse ++ p :: l = top :: l' ∧ top = branch.getLastD p := by
  induction branch generalizing p l with
  | nil => exact ⟨p, l, rfl, rfl⟩
  | cons b branch ih =>
    rcases ih b (p :: l) with ⟨top, l', heq, htop⟩
    refine ⟨top, l', ?_, by rw [List.getLastD_cons]; exact htop⟩
    rw [List.reverse_cons, List.append_assoc]
    exact heq

/-- Read from the bottom, a chain is a block at height zero and a branch on it. -/
theorem Descends.ascends {l : List FullBlock} (h : Descends l) :
    ∃ g rest, l.reverse = g :: rest ∧ g.getHeight = 0 ∧ (g :: rest).IsChain Follows := by
  induction l with
  | nil => exact absurd h id
  | cons b l ih =>
    cases l with
    | nil => exact ⟨b, [], rfl, h, List.isChain_singleton b⟩
    | cons p l =>
      rcases descends_cons.mp h with ⟨hfollows, h⟩
      obtain ⟨g, rest, hrev, hzero, hchain⟩ := ih h
      refine ⟨g, rest ++ [b], by rw [List.reverse_cons, hrev]; rfl, hzero, ?_⟩
      rw [← List.cons_append, List.isChain_append]
      refine ⟨hchain, List.isChain_singleton b, fun x hx y hy => ?_⟩
      rw [← hrev, List.getLast?_reverse] at hx
      cases hx
      cases hy
      exact hfollows

theorem isChain_follows_pos {g : FullBlock} {rest : List FullBlock} (h : (g :: rest).IsChain Follows) :
    ∀ b ∈ rest, 0 < b.getHeight := by
  induction rest generalizing g with
  | nil => exact fun b hb => absurd hb List.not_mem_nil
  | cons c rest ih =>
    rcases List.isChain_cons_cons.mp h with ⟨hfollows, h⟩
    have := hfollows.1
    intro b hb
    rcases List.mem_cons.mp hb with rfl | hb
    · omega
    · exact ih h b hb

end Descend

/-! ## §3 — how states come about -/

section Executed

variable [Engine] (cfg : Config)

/-- **`Admissible s block`** — what every import path has made sure of before the block is executed on `s`:
it follows the top of the history and passed the checks; on an empty history it is the genesis block. -/
def FullBlock.Admissible (s : State) (block : FullBlock) : Prop :=
  match s.applied with
  | [] => getGenesisBlock cfg.network = .ok block
  | top :: _ => Follows top block ∧ (∃ now, block.checkError now = .ok ()) ∧
      checkBlockTxs s.view block = .ok ()

/-- **`State.Executed cfg C`** — the states of a node, every execution above genesis under the condition
`C`. -/
inductive State.Executed (C : State → FullBlock → Prop) : State → Prop
  | init : Executed C (State.empty.initFromSheet State.getGenesisSheet)
  | upgrade {s s' : State} {block : FullBlock} : Executed C s → block.Admissible cfg s →
      (0 < block.getHeight → C s block) → (upgrade cfg block).exec s = .ok ((), s') → Executed C s'
  | unwind {s : State} {top : FullBlock} {l : List FullBlock} : cfg.archive = true → Executed C s →
      s.applied = top :: l → 0 < top.getHeight → Executed C (s.unwindHeight top.getHeight)
  | reset {s : State} : Executed C s → Executed C (s.rebuildFromSheet State.getGenesisSheet)

/-- **`Vetted b`** — the block passed `CheckError`, and `CheckBlockTxs` against a state it was then executed
on. -/
structure FullBlock.Vetted (b : FullBlock) : Prop where
  height_pos : 0 < b.getHeight
  checkError : ∃ now, b.checkError now = .ok ()
  executed : ∃ s s', checkBlockTxs s.view b = .ok () ∧ (upgrade cfg b).exec s = .ok ((), s')

variable {cfg} {C : State → FullBlock → Prop} {s s' : State} {block : FullBlock}

theorem State.Executed.mono {C' : State → FullBlock → Prop} (h : State.Executed cfg C s)
    (hC : ∀ s b, C s b → C' s b) : State.Executed cfg C' s := by
  induction h with
  | init => exact .init
  | upgrade _ hadm hcond hrun ih => exact ih.upgrade hadm (fun hpos => hC _ _ (hcond hpos)) hrun
  | unwind harchive _ happlied hpos ih => exact ih.unwind harchive happlied hpos
  | reset _ ih => exact ih.reset

/-- The history of a state is empty or a chain down to height zero. -/
theorem State.Executed.descends (h : State.Executed cfg C s) : s.applied = [] ∨ Descends s.applied := by
  induction h with
  | init => exact .inl rfl
  | @upgrade s s' block _ hadm _ hrun ih =>
    right
    rw [applied_upgrade hrun]
    rcases ih with hnil | hdesc
    · simp only [FullBlock.Admissible, hnil] at hadm
      rw [hnil]
      exact getGenesisBlock_height hadm
    · cases happlied : s.applied with
      | nil => simp only [happlied, Descends] at hdesc
      | cons top l =>
        simp only [FullBlock.Admissible, happlied] at hadm
        exact descends_cons.mpr ⟨hadm.1, happlied ▸ hdesc⟩
  | @unwind s top l _ _ happlied hpos ih =>
    right
    rw [happlied] at ih
    have hdesc : Descends (top :: l) := ih.resolve_left (List.cons_ne_nil top l)
    rw [State.applied_unwindHeight, happlied, hdesc.filter_ne]
    cases l with
    | nil =>
      have hzero : top.getHeight = 0 := hdesc
      omega
    | cons p l => exact (descends_cons.mp hdesc).2
  | reset _ _ => exact .inl (State.applied_rebuildFromSheet _)

theorem State.Executed.descends_of_cons (h : State.Executed cfg C s) {top : FullBlock} {l : List FullBlock}
    (happlied : s.applied = top :: l) : Descends (top :: l) := by
  have := h.descends
  rw [happlied] at this
  exact this.resolve_left (List.cons_ne_nil top l)

theorem State.Executed.applied_unwind (h : State.Executed cfg C s) {top : FullBlock} {l : List FullBlock}
    (happlied : s.applied = top :: l) : (s.unwindHeight top.getHeight).applied = l := by
  rw [State.applied_unwindHeight, happlied]
  exact (h.descends_of_cons happlied).filter_ne

/-- **Every executed block is the genesis block or vetted.** -/
theorem State.Executed.vetted (h : State.Executed cfg C s) :
    ∀ b ∈ s.applied, getGenesisBlock cfg.network = .ok b ∨ b.Vetted cfg := by
  induction h with
  | init => exact fun b hb => absurd hb List.not_mem_nil
  | @upgrade s s' block _ hadm _ hrun ih =>
    rw [applied_upgrade hrun]
    intro b hb
    rcases List.mem_cons.mp hb with rfl | hb
    · unfold FullBlock.Admissible at hadm
      split at hadm
      · exact .inl hadm
      · rcases hadm with ⟨hfollows, herror, htxs⟩
        have := hfollows.1
        exact .inr ⟨by omega, herror, s, s', htxs, hrun⟩
    · exact ih b hb
  | @unwind s top l _ _ happlied hpos ih =>
    rw [State.applied_unwindHeight]
    exact fun b hb => ih b (List.mem_of_mem_filter hb)
  | @reset s _ _ =>
    rw [State.applied_rebuildFromSheet]
    exact fun b hb => absurd hb List.not_mem_nil

theorem State.Executed.condition (h : State.Executed cfg C s) :
    ∀ b ∈ s.applied, 0 < b.getHeight → ∃ t, C t b := by
  induction h with
  | init => exact fun b hb => absurd hb List.not_mem_nil
  | @upgrade s s' block _ _ hcond hrun ih =>
    rw [applied_upgrade hrun]
    intro b hb hpos
    rcases List.mem_cons.mp hb with rfl | hb
    · exact ⟨s, hcond hpos⟩
    · exact ih b hb hpos
  | unwind _ _ _ _ ih =>
    rw [State.applied_unwindHeight]
    exact fun b hb => ih b (List.mem_of_mem_filter hb)
  | reset =>
    rw [State.applied_rebuildFromSheet]
    exact fun b hb => absurd hb List.not_mem_nil

theorem State.Executed.vetted_of_pos (h : State.Executed cfg C s) {b : FullBlock} (hb : b ∈ s.applied)
    (hpos : 0 < b.getHeight) : b.Vetted cfg := by
  rcases h.vetted b hb with hgenesis | hvetted
  · exact absurd (getGenesisBlock_height hgenesis) hpos.ne'
  · exact hvetted

theorem State.Executed.unwindHeights (harchive : cfg.archive = true) {target depth : Nat}
    (h : State.Executed cfg C s) {top : FullBlock} {l : List FullBlock} (happlied : s.applied = top :: l)
    (hdepth : top.getHeight = target + depth) :
    State.Executed cfg C (State.unwindHeights target depth s) := by
  induction depth generalizing s top l with
  | zero => exact h
  | succ depth ih =>
    rw [State.unwindHeights, show target + depth + 1 = top.getHeight by omega]
    have hdesc := h.descends_of_cons happlied
    have hstep := h.unwind harchive happlied (by omega)
    cases l with
    | nil =>
      have hzero : top.getHeight = 0 := hdesc
      omega
    | cons p l =>
      have hfollows := (descends_cons.mp hdesc).1.1
      exact ih hstep (h.applied_unwind happlied) (by omega)

theorem State.Executed.unwindTo (h : State.Executed cfg C s) {top : FullBlock} {l : List FullBlock}
    (happlied : s.applied = top :: l) {target : Nat}
    (hunwind : State.unwindTo cfg top.getHeight target s = some s') :
    State.Executed cfg C s' ∧ s'.applied = s.applied.filter fun b => b.getHeight ≤ target := by
  have hheights : ∀ b ∈ s.applied, b.getHeight ≤ top.getHeight := by
    rw [happlied]
    intro b hb
    rcases List.mem_cons.mp hb with rfl | hb
    · exact le_rfl
    · exact ((h.descends_of_cons happlied).height_le b hb).le
  unfold State.unwindTo at hunwind
  split at hunwind
  · cases hunwind
  · next harchive =>
    split at hunwind
    · next hge =>
      cases hunwind
      refine ⟨h, (List.filter_eq_self.mpr fun b hb => decide_eq_true ?_).symm⟩
      exact (hheights b hb).trans hge
    · split at hunwind
      · cases hunwind
      · cases hunwind
        refine ⟨h.unwindHeights (Bool.eq_true_of_not_eq_false harchive) happlied (by omega), ?_⟩
        rw [State.applied_unwindHeights]
        refine List.filter_congr fun b hb => ?_
        have := hheights b hb
        rw [Bool.eq_iff_iff]
        simp only [decide_eq_true_eq]
        omega

end Executed

end NgCore
