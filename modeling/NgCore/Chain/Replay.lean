/-
# NgCore.Chain.Replay — one signature, one debit

Neither a transaction nor a commitment signs the height it is carried under, and accounts have no nonce. What makes
a signature good for one debit is the commit store: an effect transaction opens a commitment of its sender, which
opening consumes, and a sender's commitment is refused while the same one is pending.

A TICKET is what both sides agree on: the signer and the blind hash. The commitments of the chain issue tickets, its
effect transactions use them, and the two buckets of the commit store are the rows of `Lib.SingleUse`. The step
lemmas carry its invariant, for any set of tickets, through a block (`State.TicketsOf.upgrade`), an unwound block and
a reset; `Executed.ticketsOf` through every run of blocks that are orderly in that set.

The guard is not enough without that: a commitment that is no longer pending can be included again, and an effect
transaction of another height than its block's escapes the store altogether (height zero) or is journaled where no
unwind looks for it.

DELIVERABLE: `Node.no_replay`.
-/
import NgCore.Lib.SingleUse
import NgCore.Chain.Authorized
import NgCore.State.Commits
import NgCore.State.Genesis

namespace NgCore

open Lib (Bucket Txn SingleUse)
open StateTxn (exec_bind_ok exec_ofExcept_ok exec_require_ok)

/-! ## §1 — tickets -/

/-- **`Ticket`** — a signer and a blind hash. -/
abbrev Ticket := Option Address × Bytes32

section Tickets

variable [Crypto]

/-- The ticket a commitment issues. -/
def Commitment.ticket (c : Commitment) : Ticket := (c.fromAddr.toOption, copy32 c.hash)

/-- The ticket a reveal uses. -/
def FullTx.ticket (tx : FullTx) : Ticket := (tx.fromAddr.toOption, revealHash tx)

/-- The effect transactions of a block. -/
def FullBlock.effects (b : FullBlock) : List FullTx := b.txs.filter fun tx => tx.isEffect

/-- Every ticket that a chain issues, with the height. -/
def issued (l : List FullBlock) : List (Nat × Ticket) :=
  l.flatMap fun b => b.commits.map fun c => (b.getHeight, c.ticket)

/-- Every ticket that a chain uses, with the height. -/
def used (l : List FullBlock) : List (Nat × Ticket) :=
  l.flatMap fun b => b.effects.map fun tx => (b.getHeight, tx.ticket)

theorem issued_filter (n : Nat) (l : List FullBlock) :
    ((issued l).filter fun e => e.1 ≠ n) = issued (l.filter fun b => b.getHeight ≠ n) := by
  induction l with
  | nil => rfl
  | cons b l ih =>
    show (List.map _ b.commits ++ issued l).filter _ = _
    rw [List.filter_append, ih, List.filter_map]
    by_cases hb : b.getHeight = n
    · rw [List.filter_cons_of_neg (by simp [hb])]
      simp [Function.comp_def, hb]
    · rw [List.filter_cons_of_pos (by simp [hb])]
      simp [Function.comp_def, hb, issued]

theorem used_filter (n : Nat) (l : List FullBlock) :
    ((used l).filter fun e => e.1 ≠ n) = used (l.filter fun b => b.getHeight ≠ n) := by
  induction l with
  | nil => rfl
  | cons b l ih =>
    show (List.map _ b.effects ++ used l).filter _ = _
    rw [List.filter_append, ih, List.filter_map]
    by_cases hb : b.getHeight = n
    · rw [List.filter_cons_of_neg (by simp [hb])]
      simp [Function.comp_def, hb]
    · rw [List.filter_cons_of_pos (by simp [hb])]
      simp [Function.comp_def, hb, used]

/-- The height a commitment is carried under is not part of its ticket. -/
theorem Commitment.ticket_reheight (c : Commitment) (h : Nat) : { c with height := h }.ticket = c.ticket := rfl

theorem FullTx.ticket_reheight {tx : FullTx} (heffect : tx.isEffect) (h : Nat) :
    { tx with height := h }.ticket = tx.ticket := by
  have hsigning : { tx with height := h }.signingHash = tx.signingHash := by
    have heffect : tx.type = transactTx ∨ tx.type = deployTx := heffect
    unfold FullTx.signingHash
    dsimp only
    rw [if_pos heffect, if_pos heffect]
    rfl
  have hfrom : { tx with height := h }.fromAddr = tx.fromAddr := by
    unfold FullTx.fromAddr
    rw [hsigning]
    rfl
  unfold FullTx.ticket
  rw [hfrom]
  rfl

end Tickets

/-! ## §2 — the rows of the commit store -/

/-- The ticket is pending, recorded at `h`. -/
def State.Pending (s : State) (h : Nat) (k : Ticket) : Prop := k.1 ≠ none ∧ s.commit[(h, k.2)]? = k.1

/-- The journal says that a use at `r` spent the record of `h`. -/
def State.Spent (s : State) (r h : Nat) (k : Ticket) : Prop :=
  k.1 ≠ none ∧ s.spent[(r, k.2)]? = k.1.map (h, ·)

instance (s : State) (h : Nat) (k : Ticket) : Decidable (s.Pending h k) := inferInstanceAs (Decidable (_ ∧ _))

/-- The height of the block executed last. -/
def State.tipHeight (s : State) : Nat := (s.applied.head?).elim 0 FullBlock.getHeight

/-- **`State.Tickets`** — the rows of the store are accounted for by the history of the state. -/
def State.Tickets [Crypto] (s : State) : Prop :=
  SingleUse commitWindow s.tipHeight (issued s.applied) (used s.applied) s.Pending s.Spent

/-- **`State.TicketsOf T`** — the same for the tickets in `T` alone. -/
def State.TicketsOf [Crypto] (T : Ticket → Prop) [DecidablePred T] (s : State) : Prop :=
  SingleUse commitWindow s.tipHeight ((issued s.applied).filter fun e => T e.2)
    ((used s.applied).filter fun e => T e.2) (fun h k => T k ∧ s.Pending h k) fun r h k => T k ∧ s.Spent r h k

theorem State.pending_of_commits {s t : State} (h : s.commits = t.commits) : s.Pending = t.Pending := by
  unfold State.Pending
  rw [State.commit_eq_of_commits h]

theorem State.spent_of_commits {s t : State} (h : s.commits = t.commits) : s.Spent = t.Spent := by
  unfold State.Spent
  rw [State.spent_eq_of_commits h]

/-- **`Orderly s block`** — the effect transactions of the block carry its height, and a commitment of the block
that repeats one of the history repeats one that is still pending. -/
def FullBlock.Orderly [Crypto] (s : State) (block : FullBlock) : Prop :=
  (∀ tx ∈ block.effects, tx.height = block.getHeight) ∧
    ∀ c ∈ block.commits, ∀ b ∈ s.applied, ∀ c' ∈ b.commits, c'.ticket = c.ticket →
      s.Pending b.getHeight c.ticket

instance [Crypto] (s : State) (block : FullBlock) : Decidable (block.Orderly s) :=
  inferInstanceAs (Decidable (_ ∧ _))

/-- **`OrderlyOf T s block`** — the block is orderly as far as the tickets in `T` are concerned. -/
def FullBlock.OrderlyOf [Crypto] (T : Ticket → Prop) (s : State) (block : FullBlock) : Prop :=
  (∀ tx ∈ block.effects, T tx.ticket → tx.height = block.getHeight) ∧
    ∀ c ∈ block.commits, T c.ticket → ∀ b ∈ s.applied, ∀ c' ∈ b.commits, c'.ticket = c.ticket →
      s.Pending b.getHeight c.ticket

/-! ## §3 — one block -/

section Block

variable [Engine] {cfg : Config} {rec : Recorder} {n tip : Nat} {iss us : List (Nat × Ticket)} {s s' : State}

/-- What one commitment does: it was not pending, and it is recorded. -/
theorem handleCommit_eq_ok {c : Commitment} {u : Unit} (h : (handleCommit rec c).exec s = .ok (u, s')) :
    ∃ a, c.fromAddr = .ok a ∧ s.view.commitFromPending a (copy32 c.hash) c.height = false ∧
      s'.commit = s.commit.insert (c.height, copy32 c.hash) a ∧ s'.spent = s.spent := by
  obtain ⟨v, t, hlook, h₁⟩ := exec_bind_ok.mp h
  cases hlook
  obtain ⟨_, t₁, hverify, h₂⟩ := exec_bind_ok.mp h₁
  obtain ⟨_, rfl⟩ := exec_ofExcept_ok.mp hverify
  obtain ⟨a, t₂, hfrom, h₃⟩ := exec_bind_ok.mp h₂
  obtain ⟨hfromAddr, rfl⟩ := exec_ofExcept_ok.mp hfrom
  obtain ⟨_, t₃, hpending, h₄⟩ := exec_bind_ok.mp h₃
  obtain ⟨hnot, rfl⟩ := exec_require_ok.mp hpending
  obtain ⟨_, t₄, hfee, h₅⟩ := exec_bind_ok.mp h₄
  obtain ⟨_, rfl⟩ := exec_require_ok.mp hfee
  cases h₅
  exact ⟨a, hfromAddr, hnot, rfl, rfl⟩

omit [Engine] in
/-- What a reveal does: it spends a record of its own ticket, inside the window. -/
theorem consumeReveal_eq_ok [Crypto] {tx : FullTx} {u : Unit} (hpos : tx.height ≠ 0)
    (h : (consumeReveal tx).exec s = .ok (u, s')) :
    ∃ a r, tx.fromAddr = .ok a ∧ s.view.findCommit a (revealHash tx) tx.height = some r ∧
      s'.commit = s.commit.erase (r, revealHash tx) ∧
      s'.spent = s.spent.insert (tx.height, revealHash tx) (r, a) := by
  unfold consumeReveal at h
  rw [if_neg hpos] at h
  obtain ⟨_, t, hsalt, h₁⟩ := exec_bind_ok.mp h
  obtain ⟨_, rfl⟩ := exec_require_ok.mp hsalt
  obtain ⟨a, t₁, hfrom, h₂⟩ := exec_bind_ok.mp h₁
  obtain ⟨hfromAddr, rfl⟩ := exec_ofExcept_ok.mp hfrom
  obtain ⟨v, t₂, hlook, h₃⟩ := exec_bind_ok.mp h₂
  cases hlook
  split at h₃
  · cases h₃
  · next r hfind =>
    cases h₃
    exact ⟨a, r, hfromAddr, hfind, rfl, rfl⟩

/-- A transaction is a mint, which the store does not see, or a reveal followed by what the store does not see. -/
theorem handleTx_eq_ok {tx : FullTx} {blockTime gas gas' : Nat}
    (h : (handleTx cfg rec blockTime gas tx).exec s = .ok (gas', s')) :
    (¬ tx.isEffect ∧ s'.commits = s.commits) ∨
      (tx.isEffect ∧ ∃ t, (consumeReveal tx).exec s = .ok ((), t) ∧ s'.commits = t.commits) := by
  have hφ := Write.admitsEffects_commitFree rec
  unfold handleTx at h
  split at h
  · next htype =>
    left
    refine ⟨?_, commits_exec (Txn.writes_bind (writes_handleGenerate hφ.setBalance hφ.registerPubKey tx) fun _ => Txn.writes_pure _) h⟩
    rintro (heffect | heffect) <;> rw [htype] at heffect <;> exact absurd heffect (by decide)
  · split at h
    · next htype =>
      obtain ⟨_, t, hreveal, h⟩ := exec_bind_ok.mp h
      refine .inr ⟨.inl htype, t, hreveal, commits_exec ?_ h⟩
      refine Txn.writes_bind (writes_runValidate hφ walks_any _ _ _) ?_
      exact fun gas => writes_handleTransaction hφ walks_any tx blockTime gas
    · split at h
      · next htype =>
        obtain ⟨_, t, hreveal, h⟩ := exec_bind_ok.mp h
        refine .inr ⟨.inr htype, t, hreveal, commits_exec ?_ h⟩
        refine Txn.writes_bind (writes_runValidate hφ walks_any _ _ _) ?_
        exact fun gas => writes_handleDeploy hφ walks_any cfg htype (fun _ _ _ => trivial) blockTime gas
      · cases h

variable {T : Ticket → Prop} [DecidablePred T]

/-- The commitments of a block, of distinct hashes, issue tickets that were never issued. -/
theorem tickets_handleCommits {l : List Commitment} (htip : tip ≤ n) (hn : n ≤ tip + 1)
    (hheight : ∀ c ∈ l, c.height = n) (hnodup : (l.map fun c => copy32 c.hash).Nodup)
    (H : SingleUse commitWindow tip iss us (fun h k => T k ∧ s.Pending h k) fun r h k => T k ∧ s.Spent r h k)
    (hold : ∀ c ∈ l, T c.ticket → ∀ h, (h, c.ticket) ∈ iss → s.Pending h c.ticket ∧ h < n) {u : Unit}
    (hrun : (l.forM (handleCommit rec)).exec s = .ok (u, s')) :
    SingleUse commitWindow tip (((l.map fun c => (n, c.ticket)).filter fun e => T e.2).reverse ++ iss) us
      (fun h k => T k ∧ s'.Pending h k) fun r h k => T k ∧ s'.Spent r h k := by
  induction l generalizing s iss with
  | nil =>
    cases hrun
    exact H
  | cons c l ih =>
    obtain ⟨_, t, hc, hrun⟩ := exec_bind_ok.mp hrun
    obtain ⟨a, hfrom, hnot, hcommit, hspent⟩ := handleCommit_eq_ok hc
    rw [hheight c List.mem_cons_self] at hnot hcommit
    rw [List.map_cons, List.nodup_cons] at hnodup
    have hticket : c.ticket = (some a, copy32 c.hash) := by
      unfold Commitment.ticket
      rw [hfrom]
      rfl
    have hrow : ∀ (h : Nat) (hash : Bytes32), t.commit[(h, hash)]? =
        if (n, copy32 c.hash) = (h, hash) then some a else s.commit[(h, hash)]? := by
      intro h hash
      rw [hcommit, Bucket.get_insert]
    have hsame : t.Spent = s.Spent := by
      unfold State.Spent
      rw [hspent]
    have hpending : ∀ h k, t.Pending h k → s.Pending h k ∨ h = n ∧ k = c.ticket := by
      rintro h k ⟨hsome, hk⟩
      rw [hrow] at hk
      split at hk
      · next heq =>
        obtain ⟨rfl, hhash⟩ := Prod.mk.inj heq
        refine .inr ⟨rfl, ?_⟩
        rw [hticket]
        exact Prod.ext hk.symm hhash.symm
      · exact .inl ⟨hsome, hk⟩
    -- the rows of lower heights stay
    have hstays : ∀ d ∈ l, T d.ticket → ∀ h, (h, d.ticket) ∈ iss → t.Pending h d.ticket ∧ h < n := by
      intro d hd hT h hmem
      rcases hold d (List.mem_cons_of_mem c hd) hT h hmem with ⟨⟨hsome, hrecord⟩, hlt⟩
      refine ⟨⟨hsome, ?_⟩, hlt⟩
      rw [hrow, if_neg fun heq => hlt.ne (Prod.mk.inj heq).1.symm]
      exact hrecord
    have hheights := fun d hd => hheight d (List.mem_cons_of_mem c hd)
    rw [List.map_cons]
    by_cases hT : T c.ticket
    · -- issued before, it would be pending, and the guard would have seen it
      have hnew : c.ticket ∉ iss.map Prod.snd := by
        intro hmem
        rcases List.mem_map.mp hmem with ⟨⟨h, k⟩, hmem, rfl⟩
        rcases hold c List.mem_cons_self hT h hmem with ⟨hrecord, hlt⟩
        have hfresh := H.pendingFresh h _ ⟨hT, hrecord⟩
        have hseen : s.view.commitFromPending a (copy32 c.hash) n = true := by
          refine View.commitFromPending_eq_true.mpr ⟨h, by omega, hlt, ?_⟩
          have := hrecord.2
          rw [hticket] at this
          exact this
        rw [hseen] at hnot
        cases hnot
      have hissue : SingleUse commitWindow tip ((n, c.ticket) :: iss) us (fun h k => T k ∧ t.Pending h k)
          fun r h k => T k ∧ t.Spent r h k := by
        rw [hsame]
        refine H.issue hnew (by omega) fun h k hk => ?_
        rcases hpending h k hk.2 with hrecord | hrow
        · exact .inl ⟨hk.1, hrecord⟩
        · exact .inr hrow
      rw [List.filter_cons_of_pos (by simpa using hT), List.reverse_cons, List.append_assoc]
      refine ih hheights hnodup.2 hissue (fun d hd hTd h hmem => ?_) hrun
      rcases List.mem_cons.mp hmem with heq | hmem
      · -- another commitment of the block has another hash
        have hhash := congrArg (fun e => e.2.2) heq
        exact absurd (List.mem_map.mpr ⟨d, hd, hhash⟩) hnodup.1
      · exact hstays d hd hTd h hmem
    · rw [List.filter_cons_of_neg (by simpa using hT)]
      refine ih hheights hnodup.2 (H.forget (fun h k hk => ⟨hk.1, ?_⟩) (fun r h k hk => ?_) fun h k hk => ?_)
        hstays hrun
      · exact (hpending h k hk.2).resolve_right fun hrow => hT (hrow.2 ▸ hk.1)
      · exact hsame ▸ hk
      · have hrecord := (hpending h k hk.2).resolve_right fun hrow => hT (hrow.2 ▸ hk.1)
        exact H.pendingFresh h k ⟨hk.1, hrecord⟩

omit [Engine] in
/-- A reveal spends a record of its own ticket inside the window, and touches the rows of no other. -/
theorem rows_consumeReveal [Crypto] {tx : FullTx} {u : Unit} (hpos : tx.height ≠ 0)
    (h : (consumeReveal tx).exec s = .ok (u, s')) :
    ∃ r, s.Pending r tx.ticket ∧ tx.height - commitWindow ≤ r ∧ r < tx.height ∧
      (∀ h k, s'.Pending h k → s.Pending h k ∧ ¬ (h = r ∧ k = tx.ticket)) ∧
      ∀ r' h k, s'.Spent r' h k → s.Spent r' h k ∨ r' = tx.height ∧ h = r ∧ k = tx.ticket := by
  obtain ⟨a, r, hfrom, hfind, hcommit, hspent⟩ := consumeReveal_eq_ok hpos h
  obtain ⟨hrow, hlow, hlt⟩ := View.findCommit_eq_some hfind
  have hticket : tx.ticket = (some a, revealHash tx) := by
    unfold FullTx.ticket
    rw [hfrom]
    rfl
  have hpending : s.Pending r tx.ticket := by
    rw [hticket]
    exact ⟨Option.some_ne_none a, hrow⟩
  refine ⟨r, hpending, hlow, hlt, fun h k hk => ?_, fun r' h k hk => ?_⟩
  · rcases hk with ⟨hsome, hk⟩
    rw [hcommit, Bucket.get_erase] at hk
    split at hk
    · exact absurd hk.symm hsome
    · next hne =>
      refine ⟨⟨hsome, hk⟩, ?_⟩
      rintro ⟨rfl, rfl⟩
      rw [hticket] at hne
      exact hne rfl
  · rcases hk with ⟨hsome, hk⟩
    rw [hspent, Bucket.get_insert] at hk
    split at hk
    · next heq =>
      obtain ⟨rfl, hhash⟩ := Prod.mk.inj heq
      rcases Option.ne_none_iff_exists'.mp hsome with ⟨a', ha'⟩
      rw [ha'] at hk
      obtain ⟨rfl, rfl⟩ := Prod.mk.inj (Option.some_injective _ hk)
      refine .inr ⟨rfl, rfl, ?_⟩
      rw [hticket]
      exact Prod.ext ha' hhash.symm
    · exact .inl ⟨hsome, hk⟩

/-- The reveals of a block use tickets that were never used. -/
theorem tickets_handleTxs {l : List FullTx}
    (hheight : ∀ tx ∈ l, tx.isEffect → T tx.ticket → tx.height = n ∧ tx.height ≠ 0)
    (H : SingleUse commitWindow tip iss us (fun h k => T k ∧ s.Pending h k) fun r h k => T k ∧ s.Spent r h k)
    {blockTime gas gas' : Nat}
    (hrun : (l.foldlM (fun gas tx => handleTx cfg rec blockTime gas tx) gas).exec s = .ok (gas', s')) :
    SingleUse commitWindow tip iss
      ((((l.filter fun tx => tx.isEffect).map fun tx => (n, tx.ticket)).filter fun e => T e.2).reverse ++ us)
      (fun h k => T k ∧ s'.Pending h k) fun r h k => T k ∧ s'.Spent r h k := by
  induction l generalizing s us gas with
  | nil =>
    cases hrun
    exact H
  | cons tx l ih =>
    obtain ⟨gas'', t, htx, hrun⟩ := exec_bind_ok.mp hrun
    have hrest := fun tx htx => hheight tx (List.mem_cons_of_mem _ htx)
    rcases handleTx_eq_ok htx with ⟨hmint, hcommits⟩ | ⟨heffect, t', hreveal, hcommits⟩
    · rw [List.filter_cons_of_neg (by simpa using hmint)]
      refine ih hrest ?_ hrun
      rw [State.pending_of_commits hcommits, State.spent_of_commits hcommits]
      exact H
    · rw [List.filter_cons_of_pos (by simpa using heffect), List.map_cons]
      by_cases hT : T tx.ticket
      · rcases hheight tx List.mem_cons_self heffect hT with ⟨htxHeight, hpos⟩
        obtain ⟨r, hpending, hlow, hlt, hrows, hspent⟩ := rows_consumeReveal hpos hreveal
        rw [htxHeight] at hlow hlt hspent
        rw [List.filter_cons_of_pos (by simpa using hT), List.reverse_cons, List.append_assoc]
        refine ih hrest ?_ hrun
        rw [State.pending_of_commits hcommits, State.spent_of_commits hcommits]
        refine H.use ⟨hT, hpending⟩ hlt (by omega) (fun h k hk => ?_) fun r' h k hk => ?_
        · rcases hrows h k hk.2 with ⟨hrecord, hother⟩
          exact ⟨⟨hk.1, hrecord⟩, hother⟩
        · rcases hspent r' h k hk.2 with hold | hnew
          · exact .inl ⟨hk.1, hold⟩
          · exact .inr hnew
      · rw [List.filter_cons_of_neg (by simpa using hT)]
        refine ih hrest ?_ hrun
        rw [State.pending_of_commits hcommits, State.spent_of_commits hcommits]
        by_cases hzero : tx.height = 0
        · -- height zero escapes the store
          unfold consumeReveal at hreveal
          rw [if_pos hzero] at hreveal
          cases hreveal
          exact H
        · obtain ⟨r, _, _, _, hrows, hspent⟩ := rows_consumeReveal hzero hreveal
          refine H.forget (fun h k hk => ⟨hk.1, (hrows h k hk.2).1⟩) (fun r' h k hk => ⟨hk.1, ?_⟩) fun h k hk => ?_
          · exact (hspent r' h k hk.2).resolve_right fun hnew => hT (hnew.2.2 ▸ hk.1)
          · exact H.pendingFresh h k ⟨hk.1, (hrows h k hk.2).1⟩

omit [Engine] in
theorem issued_cons_filter [Crypto] (block : FullBlock) (l : List FullBlock) :
    ((issued (block :: l)).filter fun e => T e.2).Perm
      (((block.commits.map fun c => (block.getHeight, c.ticket)).filter fun e => T e.2).reverse ++
        (issued l).filter fun e => T e.2) := by
  show ((List.map _ block.commits ++ issued l).filter _).Perm _
  rw [List.filter_append]
  exact (List.reverse_perm _).symm.append_right _

omit [Engine] in
theorem used_cons_filter [Crypto] (block : FullBlock) (l : List FullBlock) :
    ((used (block :: l)).filter fun e => T e.2).Perm
      (((block.effects.map fun tx => (block.getHeight, tx.ticket)).filter fun e => T e.2).reverse ++
        (used l).filter fun e => T e.2) := by
  show ((List.map _ block.effects ++ used l).filter _).Perm _
  rw [List.filter_append]
  exact (List.reverse_perm _).symm.append_right _

/-- **One block**: its commitments issue, its reveals use, and the window moves on. -/
theorem State.TicketsOf.upgrade {block : FullBlock} (H : s.TicketsOf T) (htip : s.tipHeight ≤ block.getHeight)
    (hnext : block.getHeight ≤ s.tipHeight + 1) (hbelow : ∀ b ∈ s.applied, b.getHeight < block.getHeight)
    (hcommit : ∀ c ∈ block.commits, c.height = block.getHeight)
    (hnodup : (block.commits.map fun c => copy32 c.hash).Nodup)
    (hpos : block.effects ≠ [] → 0 < block.getHeight) (horderly : block.OrderlyOf T s)
    (hrun : (upgrade cfg block).exec s = .ok ((), s')) : s'.TicketsOf T := by
  have happlied := applied_upgrade hrun
  obtain ⟨_, t₁, hcommits, hrun₁⟩ := exec_bind_ok.mp hrun
  obtain ⟨_, t₂, htxs, hrun₂⟩ := exec_bind_ok.mp hrun₁
  obtain ⟨_, t₃, hbeacon, hrun₃⟩ := exec_bind_ok.mp hrun₂
  -- the commitments
  have hissued := tickets_handleCommits htip hnext hcommit hnodup H (fun c hc hT h hmem => by
    obtain ⟨b, hb, hmem⟩ := List.mem_flatMap.mp (List.mem_of_mem_filter hmem)
    obtain ⟨c', hc', heq⟩ := List.mem_map.mp hmem
    obtain ⟨rfl, hticket⟩ := Prod.mk.inj heq
    exact ⟨horderly.2 c hc hT b hb c' hc' hticket, hbelow b hb⟩) hcommits
  -- the reveals
  have hused : SingleUse commitWindow s.tipHeight
      (((block.commits.map fun c => (block.getHeight, c.ticket)).filter fun e => T e.2).reverse ++
        (issued s.applied).filter fun e => T e.2)
      (((block.effects.map fun tx => (block.getHeight, tx.ticket)).filter fun e => T e.2).reverse ++
        (used s.applied).filter fun e => T e.2)
      (fun h k => T k ∧ t₂.Pending h k) fun r h k => T k ∧ t₂.Spent r h k := by
    refine tickets_handleTxs (fun tx htx heffect hT => ?_) hissued htxs
    have hmem : tx ∈ block.effects := List.mem_filter.mpr ⟨htx, decide_eq_true heffect⟩
    have hheight := horderly.1 tx hmem hT
    have := hpos (List.ne_nil_of_mem hmem)
    exact ⟨hheight, by omega⟩
  -- the beacon and the history are no concern of the store, and pruning only forgets
  have hbeacon : t₃.commits = t₂.commits := by
    refine commits_exec (writes_updateBeacon block fun _ => ?_) hbeacon
    trivial
  obtain rfl : (Write.apply block).step (t₃.pruneCommits block.getHeight) = s' := by
    cases hrun₃
    rfl
  have htipHeight : ((Write.apply block).step (t₃.pruneCommits block.getHeight)).tipHeight = block.getHeight := by
    unfold State.tipHeight
    rw [happlied]
    rfl
  unfold State.TicketsOf
  rw [htipHeight, happlied]
  have hperm := hused.perm (issued_cons_filter block s.applied) (used_cons_filter block s.applied)
  have hpending : ∀ h k, (t₃.pruneCommits block.getHeight).Pending h k →
      t₂.Pending h k ∧ block.getHeight ≤ h + commitWindow := by
    rintro h k ⟨hsome, hk⟩
    rw [State.commit_pruneCommits] at hk
    split at hk
    · exact absurd hk.symm hsome
    · next hfresh =>
      rw [← State.pending_of_commits hbeacon]
      exact ⟨⟨hsome, hk⟩, Nat.le_of_not_lt hfresh⟩
  refine hperm.forget (fun h k hk => ⟨hk.1, (hpending h k hk.2).1⟩) ?_ fun h k hk => (hpending h k hk.2).2
  rintro r h k ⟨hT, hsome, hk⟩
  rw [← State.spent_of_commits hbeacon]
  refine ⟨hT, hsome, ?_⟩
  have hk : (t₃.pruneCommits block.getHeight).spent[(r, k.2)]? = k.1.map (h, ·) := hk
  rw [State.spent_pruneCommits] at hk
  split at hk
  · rcases Option.ne_none_iff_exists'.mp hsome with ⟨a, ha⟩
    rw [ha] at hk
    cases hk
  · exact hk

/-! ## §4 — runs of orderly blocks -/

omit [Engine] in
theorem State.ticketsOf_of_empty [Crypto] (happlied : s.applied = [])
    (hcommits : s.commits = State.empty.commits) : s.TicketsOf T := by
  have hpending : ∀ h k, s.Pending h k → False := by
    rintro h k ⟨hsome, hk⟩
    rw [State.commit_eq_of_commits hcommits] at hk
    exact hsome (hk.symm.trans (by simp [State.empty]))
  have hspent : ∀ r h k, s.Spent r h k → False := by
    rintro r h k ⟨hsome, hk⟩
    rw [State.spent_eq_of_commits hcommits] at hk
    rcases Option.ne_none_iff_exists'.mp hsome with ⟨a, ha⟩
    rw [ha] at hk
    simp [State.empty] at hk
  unfold State.TicketsOf State.tipHeight
  rw [happlied]
  exact SingleUse.empty.forget (fun h k hk => hpending h k hk.2) (fun r h k hk => hspent r h k hk.2)
    fun h k hk => Nat.zero_le _

omit [Engine] in
theorem State.commits_rebuildGenesis [Crypto] (s : State) :
    (s.rebuildFromSheet State.getGenesisSheet).commits = State.empty.commits := by
  unfold State.rebuildFromSheet
  obtain ⟨trie, log, heq⟩ := State.exists_rebuildTrie_eq (s.resetBuckets.initFromSheet State.getGenesisSheet)
  rw [heq]
  rfl

omit [Engine] in
theorem State.TicketsOf.unwind [Crypto] (H : s.TicketsOf T) {top : FullBlock} {l : List FullBlock}
    (happlied : s.applied = top :: l) (hle : ∀ b ∈ l, b.getHeight ≤ top.getHeight)
    (hleft : (s.unwindHeight top.getHeight).applied = l) : (s.unwindHeight top.getHeight).TicketsOf T := by
  have htip : s.tipHeight = top.getHeight := by
    unfold State.tipHeight
    rw [happlied]
    rfl
  have hfilter := State.applied_unwindHeight top.getHeight s
  unfold State.TicketsOf at H ⊢
  rw [htip] at H
  rw [hfilter, ← issued_filter, ← used_filter, List.filter_comm, List.filter_comm (l := used s.applied)]
  refine H.undo ?_ ?_ ?_ ?_
  · intro e he
    obtain ⟨b, hb, he⟩ := List.mem_flatMap.mp (List.mem_of_mem_filter he)
    obtain ⟨tx, _, rfl⟩ := List.mem_map.mp he
    rw [happlied] at hb
    rcases List.mem_cons.mp hb with rfl | hb
    · exact le_rfl
    · exact hle b hb
  · rintro h k ⟨hT, hsome, hk⟩
    rw [State.commit_unwindHeight] at hk
    split at hk
    · next h' a hspent =>
      split at hk
      · next heq =>
        obtain rfl : h' = h := heq
        refine .inr ⟨hT, hsome, ?_⟩
        rw [hspent, ← hk]
        rfl
      · split at hk
        · exact absurd hk.symm hsome
        · next hne => exact .inl ⟨⟨hT, hsome, hk⟩, hne⟩
    · split at hk
      · exact absurd hk.symm hsome
      · next hne => exact .inl ⟨⟨hT, hsome, hk⟩, hne⟩
  · rintro r h k ⟨hT, hsome, hk⟩
    rw [State.spent_unwindHeight] at hk
    split at hk
    · rcases Option.ne_none_iff_exists'.mp hsome with ⟨a, ha⟩
      rw [ha] at hk
      cases hk
    · next hne => exact ⟨⟨hT, hsome, hk⟩, hne⟩
  · unfold State.tipHeight
    rw [hleft]
    cases l with
    | nil => exact Nat.zero_le _
    | cons b l => exact hle b List.mem_cons_self

theorem FullBlock.Vetted.commit_rules {block : FullBlock} (h : ∃ now, block.checkError now = .ok ()) :
    (∀ c ∈ block.commits, c.height = block.getHeight) ∧ (block.commits.map fun c => copy32 c.hash).Nodup := by
  rcases h with ⟨now, h⟩
  have hchecked := FullBlock.checkError_eq_ok.mp h
  have hcommit : ∀ c ∈ block.commits, c.hash.length = hashSize ∧ c.height = block.getHeight := by
    intro c hc
    rcases bind_eq_ok.mp (hchecked.commit c hc) with ⟨_, hsize, hrest⟩
    rcases bind_eq_ok.mp hrest with ⟨_, hheight, _⟩
    exact ⟨ensure_eq_ok.mp hsize, ensure_eq_ok.mp hheight⟩
  refine ⟨fun c hc => (hcommit c hc).2, ?_⟩
  refine List.pairwise_map.mpr ((List.pairwise_map.mp hchecked.commitNodup).imp_of_mem ?_)
  intro c c' hc hc' hne heq
  rw [copy32_of_length _ (hcommit c hc).1, copy32_of_length _ (hcommit c' hc').1] at heq
  exact hne (Subtype.mk.inj heq)

/-- **Every state executed from blocks that are orderly in `T` accounts for its rows of `T`.** -/
theorem State.Executed.ticketsOf (h : State.Executed cfg (FullBlock.OrderlyOf T) s) : s.TicketsOf T := by
  induction h with
  | init => exact State.ticketsOf_of_empty rfl rfl
  | @upgrade s s' block hs hadm hC hrun ih =>
    cases happlied : s.applied with
    | nil =>
      simp only [FullBlock.Admissible, happlied] at hadm
      obtain ⟨hcommits, hheight, tx, htxs, htype, _⟩ := getGenesisBlock_ok hadm
      have htip : s.tipHeight = 0 := by
        unfold State.tipHeight
        rw [happlied]
        rfl
      have heffects : block.effects = [] := by
        unfold FullBlock.effects
        rw [htxs, List.filter_cons_of_neg, List.filter_nil]
        simp only [FullTx.isEffect, htype, decide_eq_true_eq]
        decide
      refine ih.upgrade (by omega) (by omega) (by simp [happlied]) (by simp [hcommits]) (by simp [hcommits])
        (fun hne => absurd heffects hne) ⟨by simp [heffects], by simp [hcommits]⟩ hrun
    | cons top l =>
      simp only [FullBlock.Admissible, happlied] at hadm
      rcases hadm with ⟨hfollows, herror, _⟩
      have hheight := hfollows.1
      have htip : s.tipHeight = top.getHeight := by
        unfold State.tipHeight
        rw [happlied]
        rfl
      have hbelow : ∀ b ∈ s.applied, b.getHeight < block.getHeight := by
        rw [happlied]
        intro b hb
        rcases List.mem_cons.mp hb with rfl | hb
        · omega
        · have := (hs.descends_of_cons happlied).height_le b hb
          omega
      rcases FullBlock.Vetted.commit_rules herror with ⟨hcommit, hnodup⟩
      exact ih.upgrade (by omega) (by omega) hbelow hcommit hnodup (fun _ => by omega) (hC (by omega)) hrun
  | @unwind s top l _ hs happlied _ ih =>
    refine ih.unwind happlied (fun b hb => ?_) (hs.applied_unwind happlied)
    exact ((hs.descends_of_cons happlied).height_le b hb).le
  | @reset s _ _ => exact State.ticketsOf_of_empty (State.applied_rebuildFromSheet s) (State.commits_rebuildGenesis s)

/-- **Every state executed from orderly blocks accounts for its rows.** -/
theorem State.Executed.tickets (h : State.Executed cfg FullBlock.Orderly s) : s.Tickets := by
  have hall : s.TicketsOf fun _ => True :=
    State.Executed.ticketsOf (h.mono fun s b horderly =>
      ⟨fun tx htx _ => horderly.1 tx htx, fun c hc _ => horderly.2 c hc⟩)
  unfold State.TicketsOf at hall
  unfold State.Tickets
  simpa using hall

end Block

/-- What the canonical chain has executed of effect transactions, whatever height each was carried under. -/
def State.debits (s : State) : List FullTx :=
  (s.applied.flatMap FullBlock.effects).map fun tx => { tx with height := 0 }

/-- What it has charged of commitments, whatever height each was carried under. -/
def State.charges (s : State) : List Commitment :=
  (s.applied.flatMap FullBlock.commits).map fun c => { c with height := 0 }

theorem State.ticket_charges [Crypto] (s : State) :
    s.charges.map Commitment.ticket = (issued s.applied).map Prod.snd := by
  unfold State.charges issued
  rw [List.map_map, List.map_flatMap, List.map_flatMap]
  simp only [List.map_map]
  rfl

theorem State.ticket_debits [Crypto] (s : State) :
    s.debits.map FullTx.ticket = (used s.applied).map Prod.snd := by
  have hsame : (s.applied.flatMap FullBlock.effects).map (FullTx.ticket ∘ fun tx => { tx with height := 0 }) =
      (s.applied.flatMap FullBlock.effects).map FullTx.ticket := by
    refine List.map_congr_left fun tx htx => ?_
    obtain ⟨b, _, htx⟩ := List.mem_flatMap.mp htx
    exact FullTx.ticket_reheight (of_decide_eq_true (List.mem_filter.mp htx).2) 0
  unfold State.debits used
  rw [List.map_map, hsame, List.map_flatMap, List.map_flatMap]
  simp only [List.map_map]
  rfl

/-- **One signature, one debit**: along a run of orderly blocks, no two executed effect transactions and no two
charged commitments of the canonical chain differ at most in the height they are carried under. -/
theorem Node.no_replay [Engine] {cfg : Config} {H : Set BlockHeader} {n : Node State}
    (hinj : Set.InjOn BlockHeader.getHash (genesisHeaders ∪ H))
    (hr : Node.ReachableWhile cfg FullBlock.Orderly H n) :
    n.state.debits.Nodup ∧ n.state.charges.Nodup := by
  obtain ⟨_, _, hsync⟩ := hr.inSync hinj
  have htickets := hsync.executed.tickets
  constructor
  · refine List.Nodup.of_map FullTx.ticket ?_
    rw [State.ticket_debits]
    exact htickets.usedOnce
  · refine List.Nodup.of_map Commitment.ticket ?_
    rw [State.ticket_charges]
    exact htickets.issuedOnce

/-- The payment of `handPaid` is executed once. -/
theorem Node.no_replay_handPaid :
    letI := Engine.bare
    ∃ n : Node State, handPayment ∈ n.state.applied.flatMap FullBlock.effects ∧
      n.state.debits.Nodup ∧ n.state.charges.Nodup := by
  let _ := Engine.bare
  obtain ⟨n, hr, htest⟩ := exists_reachableWhile_byHand (fun _ => none) true handPaid
    (fun n => decide (handPayment ∈ n.state.applied.flatMap FullBlock.effects)) FullBlock.Orderly
    (by decide +kernel)
  exact ⟨n, of_decide_eq_true htest, Node.no_replay (injOn_byHand _ (by decide +kernel)) hr⟩

/-- The same commitment and the same payment, carried again under later heights. -/
def handReplayed [Crypto] : List FullBlock :=
  let first := handSeal handGenesis 1 [] []
  let second := handSeal first 1 [] [handCommit 1 2 (10 ^ 13) handPayment]
  let third := handSeal second 1 [handPayment] []
  let fourth := handSeal third 1 [] [{ handCommit 1 2 (10 ^ 13) handPayment with height := 4 }]
  [first, second, third, fourth, handSeal fourth 1 [{ handPayment with height := 5 }] []]

/-- **One signature, two debits.** -/
theorem Node.replay_handReplayed :
    letI := Engine.bare
    ∃ n : Node State,
      Set.InjOn BlockHeader.getHash (genesisHeaders ∪ {x | x ∈ handReplayed.map FullBlock.header}) ∧
      Node.Reachable ⟨ZERONET, true⟩ {x | x ∈ handReplayed.map FullBlock.header} n ∧
      ¬ n.state.debits.Nodup ∧ ¬ n.state.charges.Nodup := by
  let _ := Engine.bare
  obtain ⟨n, hr, _, htest⟩ := exists_reachable_byHand (fun _ => none) true handReplayed []
    (fun n => decide (¬ n.state.debits.Nodup ∧ ¬ n.state.charges.Nodup)) (by decide +kernel)
  rw [List.append_nil] at hr
  exact ⟨n, injOn_byHand _ (by decide +kernel), hr, of_decide_eq_true htest⟩

end NgCore
