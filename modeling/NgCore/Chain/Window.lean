/-
# NgCore.Chain.Window — what the commit store holds

`ngstate/commit.go` keeps pending commitments under their recording height. Three loops bound the store in three
ways: a reveal looks `CommitWindow` heights back, a repeated commitment is looked for one height further, and a block
prunes what is more than `CommitWindow` below it. The bounds fit: the rows of a state are exactly the commitments of
the last `CommitWindow + 1` blocks that no later reveal has opened, one per committer and hash
(`State.Grown.window`, over `Lib.Window`).

So a reveal finds its commitment exactly when the chain has an unopened one, both when the block is checked (on the
state before it) and when it is executed (behind the commitments and reveals that come before it in the block).

DELIVERABLE: `State.Grown.commit_window`.
-/
import NgCore.Lib.Window
import NgCore.Chain.Replay

namespace NgCore

open Lib (Bucket Window Open)
open StateTxn (exec_bind_ok)

/-! ## §1 — what a step does to the rows -/

section Rows

variable [Engine] {cfg : Config} {rec : Recorder} {n : Nat} {s t : State}

theorem pending_handleCommit {c : Commitment} {u : Unit} (hheight : c.height = n)
    (hfree : s.commit[(n, copy32 c.hash)]? = none) (h : (handleCommit rec c).exec s = .ok (u, t)) :
    ∀ h k, t.Pending h k ↔ s.Pending h k ∨ h = n ∧ k = c.ticket := by
  rcases handleCommit_eq_ok h with ⟨a, hfrom, _, hcommit, _⟩
  have hticket : c.ticket = (some a, copy32 c.hash) := by
    unfold Commitment.ticket
    rw [hfrom]
    rfl
  intro h k
  unfold State.Pending
  rw [hcommit, Bucket.get_insert, hheight]
  split
  · next heq =>
    obtain ⟨rfl, hhash⟩ := Prod.mk.inj heq
    rw [hticket, ← hhash, hfree]
    constructor
    · rintro ⟨_, hk⟩
      exact .inr ⟨rfl, Prod.ext hk.symm hhash.symm⟩
    · rintro (⟨hsome, hk⟩ | ⟨_, rfl⟩)
      · exact absurd hk.symm hsome
      · exact ⟨Option.some_ne_none a, rfl⟩
  · next hne =>
    refine ⟨.inl, ?_⟩
    rintro (hk | ⟨rfl, rfl⟩)
    · exact hk
    · rw [hticket] at hne
      exact absurd rfl hne

/-- A reveal takes one row of its ticket away, in the window below it. -/
theorem pending_consumeReveal {tx : FullTx} {u : Unit} (hpos : tx.height ≠ 0)
    (h : (consumeReveal tx).exec s = .ok (u, t)) :
    ∃ r, s.Pending r tx.ticket ∧ r < tx.height ∧
      ∀ h k, t.Pending h k ↔ s.Pending h k ∧ ¬ (h = r ∧ k = tx.ticket) := by
  rcases consumeReveal_eq_ok hpos h with ⟨a, r, hfrom, hfind, hcommit, _⟩
  rcases View.findCommit_eq_some hfind with ⟨hrow, _, hlt⟩
  have hticket : tx.ticket = (some a, revealHash tx) := by
    unfold FullTx.ticket
    rw [hfrom]
    rfl
  refine ⟨r, ?_, hlt, fun h k => ?_⟩
  · rw [hticket]
    exact ⟨Option.some_ne_none a, hrow⟩
  · unfold State.Pending
    rw [hcommit, Bucket.get_erase, hticket]
    split
    · next heq =>
      obtain ⟨rfl, hhash⟩ := Prod.mk.inj heq
      constructor
      · rintro ⟨hsome, hk⟩
        exact absurd hk.symm hsome
      · -- the row that was there is the one of the ticket
        rintro ⟨⟨_, hk⟩, hne⟩
        refine absurd ⟨rfl, Prod.ext ?_ hhash.symm⟩ hne
        rw [← hk, ← hhash]
        exact hrow
    · next hne =>
      refine ⟨fun hk => ⟨hk, ?_⟩, And.left⟩
      rintro ⟨rfl, rfl⟩
      exact hne rfl

end Rows

/-! ## §2 — one block -/

/-- The tickets of commitments issued at `n`. -/
def issuedAt [Crypto] (n : Nat) (l : List Commitment) : Set (Nat × Ticket) := {e | ∃ c ∈ l, e = (n, c.ticket)}

/-- The tickets that reveals use at `n`. -/
def usedAt [Crypto] (n : Nat) (l : List FullTx) : Set (Nat × Ticket) :=
  {e | ∃ tx ∈ l, tx.isEffect ∧ e = (n, tx.ticket)}

section Block

variable [Engine] {cfg : Config} {rec : Recorder} {n low : Nat} {iss us : Set (Nat × Ticket)} {s s' : State}

/-- **The commitments of a block**, of distinct hashes: the guard reaches every row below them. -/
theorem window_handleCommits {l : List Commitment} (hlow : n ≤ low + commitWindow + 1) (hn : low ≤ n)
    (hheight : ∀ c ∈ l, c.height = n) (hnodup : (l.map fun c => copy32 c.hash).Nodup)
    (hissued : ∀ e ∈ iss, e.1 ≤ n)
    (hfree : ∀ c ∈ l, s.commit[(n, copy32 c.hash)]? = none) (hused : ∀ e ∈ us, e.1 ≤ n)
    (H : Window low iss us s.Pending) {u : Unit} (hrun : (l.forM (handleCommit rec)).exec s = .ok (u, s')) :
    Window low (iss ∪ issuedAt n l) us s'.Pending := by
  induction l generalizing s iss with
  | nil =>
    cases hrun
    have hnil : issuedAt n [] = ∅ := Set.eq_empty_of_forall_notMem fun e he => by simp [issuedAt] at he
    rw [hnil, Set.union_empty]
    exact H
  | cons c l ih =>
    obtain ⟨_, t, hc, hrun⟩ := exec_bind_ok.mp hrun
    rw [List.map_cons, List.nodup_cons] at hnodup
    rw [List.forall_mem_cons] at hheight hfree
    have hrows := pending_handleCommit hheight.1 hfree.1 hc
    rcases handleCommit_eq_ok hc with ⟨a, hfrom, hnot, hcommit, _⟩
    rw [hheight.1] at hnot hcommit
    have hticket : c.ticket = (some a, copy32 c.hash) := by
      unfold Commitment.ticket
      rw [hfrom]
      rfl
    have hget : ∀ (h : Nat) (hash : Bytes32), t.commit[(h, hash)]? =
        if (n, copy32 c.hash) = (h, hash) then some a else s.commit[(h, hash)]? := by
      intro h hash
      rw [hcommit, Bucket.get_insert]
    -- a row of the ticket would stand in the heights the guard looked at
    have hnew : ∀ h, ¬ s.Pending h c.ticket := by
      intro h hpending
      have hrow : s.commit[(h, copy32 c.hash)]? = some a := by
        have := hpending.2
        rw [hticket] at this
        exact this
      have hle : h ≤ n := hissued _ ((H.exact h _).mp hpending).2.1
      have hne : h ≠ n := by
        rintro rfl
        rw [hfree.1] at hrow
        cases hrow
      have hlowh := ((H.exact h _).mp hpending).1
      have hseen : s.view.commitFromPending a (copy32 c.hash) n = true :=
        View.commitFromPending_eq_true.mpr ⟨h, by omega, by omega, hrow⟩
      rw [hseen] at hnot
      cases hnot
    have hstep : Window low (insert (n, c.ticket) iss) us t.Pending := H.issue hn hused hnew hrows
    have hrest := ih hheight.2 hnodup.2 (fun e he => ?_) (fun d hd => ?_) hstep hrun
    · have hset : iss ∪ issuedAt n (c :: l) = insert (n, c.ticket) iss ∪ issuedAt n l := by
        ext e
        simp only [issuedAt, Set.mem_union, Set.mem_insert_iff, Set.mem_ofPred_eq, List.mem_cons, exists_eq_or_imp]
        tauto
      rw [hset]
      exact hrest
    · rcases he with rfl | he
      · exact le_rfl
      · exact hissued e he
    · rw [hget, if_neg, hfree.2 d hd]
      intro heq
      exact hnodup.1 (List.mem_map.mpr ⟨d, hd, (Prod.mk.inj heq).2.symm⟩)

/-- **The transactions of a block.** -/
theorem window_handleTxs {l : List FullTx} (hheight : ∀ tx ∈ l, tx.isEffect → tx.height = n ∧ tx.height ≠ 0)
    (H : Window low iss us s.Pending) {blockTime gas gas' : Nat}
    (hrun : (l.foldlM (fun gas tx => handleTx cfg rec blockTime gas tx) gas).exec s = .ok (gas', s')) :
    Window low iss (us ∪ usedAt n l) s'.Pending := by
  induction l generalizing s us gas with
  | nil =>
    cases hrun
    have hnil : usedAt n [] = ∅ := Set.eq_empty_of_forall_notMem fun e he => by simp [usedAt] at he
    rw [hnil, Set.union_empty]
    exact H
  | cons tx l ih =>
    obtain ⟨gas'', t, htx, hrun⟩ := exec_bind_ok.mp hrun
    rw [List.forall_mem_cons] at hheight
    rcases handleTx_eq_ok htx with ⟨hmint, hcommits⟩ | ⟨heffect, t', hreveal, hcommits⟩
    · have hset : us ∪ usedAt n (tx :: l) = us ∪ usedAt n l := by
        ext e
        simp only [usedAt, Set.mem_union, Set.mem_ofPred_eq, List.mem_cons, exists_eq_or_imp, hmint, false_and,
          false_or]
      rw [hset]
      refine ih hheight.2 ?_ hrun
      rw [State.pending_of_commits hcommits]
      exact H
    · rcases hheight.1 heffect with ⟨htxHeight, hpos⟩
      rcases pending_consumeReveal hpos hreveal with ⟨r, hpending, hlt, hrows⟩
      have hstep : Window low iss (insert (n, tx.ticket) us) t.Pending := by
        rw [State.pending_of_commits hcommits]
        exact H.use hpending (by omega) hrows
      have hset : us ∪ usedAt n (tx :: l) = insert (n, tx.ticket) us ∪ usedAt n l := by
        ext e
        simp only [usedAt, Set.mem_union, Set.mem_insert_iff, Set.mem_ofPred_eq, List.mem_cons, exists_eq_or_imp,
          heffect, true_and]
        tauto
      rw [hset]
      exact ih hheight.2 hstep hrun

/-- **`Fits block`** — what the store relies on in a block: distinct hashes, and the block's own height on its
commitments and reveals. -/
structure FullBlock.Fits (block : FullBlock) : Prop where
  commit : ∀ c ∈ block.commits, c.height = block.getHeight
  nodup : (block.commits.map fun c => copy32 c.hash).Nodup
  reveal : ∀ tx ∈ block.txs, tx.isEffect → tx.height = block.getHeight ∧ tx.height ≠ 0

/-- **Inside a block**, behind its commitments and some of its transactions. -/
theorem window_within {block : FullBlock} (hfits : block.Fits) (hn : low ≤ block.getHeight)
    (hlow : block.getHeight ≤ low + commitWindow + 1)
    (hissued : ∀ e ∈ iss, e.1 < block.getHeight) (hused : ∀ e ∈ us, e.1 < block.getHeight)
    (H : Window low iss us s.Pending) {txs : List FullTx} (htxs : ∀ tx ∈ txs, tx ∈ block.txs) {t : State} {u : Unit}
    {blockTime gas gas' : Nat} (hcommits : (handleCommits rec block).exec s = .ok (u, t))
    (hrun : (txs.foldlM (fun gas tx => handleTx cfg rec blockTime gas tx) gas).exec t = .ok (gas', s')) :
    Window low (iss ∪ issuedAt block.getHeight block.commits) (us ∪ usedAt block.getHeight txs) s'.Pending := by
  have hfree : ∀ c ∈ block.commits, s.commit[(block.getHeight, copy32 c.hash)]? = none := by
    intro c _
    by_contra hrow
    rcases Option.ne_none_iff_exists'.mp hrow with ⟨a, ha⟩
    have hpending : s.Pending block.getHeight (some a, copy32 c.hash) := ⟨Option.some_ne_none a, ha⟩
    exact absurd (hissued _ ((H.exact _ _).mp hpending).2.1) (lt_irrefl _)
  have hafter := window_handleCommits hlow hn hfits.commit hfits.nodup (fun e he => (hissued e he).le) hfree
    (fun e he => (hused e he).le) H hcommits
  exact window_handleTxs (fun tx htx heffect => hfits.reveal tx (htxs tx htx) heffect) hafter hrun

/-- **One block** moves the window on by one. -/
theorem window_upgrade {block : FullBlock} (hfits : block.Fits) (hn : low ≤ block.getHeight - commitWindow)
    (hlow : block.getHeight ≤ low + commitWindow + 1)
    (hissued : ∀ e ∈ iss, e.1 < block.getHeight) (hused : ∀ e ∈ us, e.1 < block.getHeight)
    (H : Window low iss us s.Pending) (hrun : (upgrade cfg block).exec s = .ok ((), s')) :
    Window (block.getHeight - commitWindow) (iss ∪ issuedAt block.getHeight block.commits)
      (us ∪ usedAt block.getHeight block.txs) s'.Pending := by
  obtain ⟨_, t₁, hcommits, hrun₁⟩ := exec_bind_ok.mp hrun
  obtain ⟨_, t₂, htxs, hrun₂⟩ := exec_bind_ok.mp hrun₁
  obtain ⟨_, t₃, hbeacon, hrun₃⟩ := exec_bind_ok.mp hrun₂
  have hwithin := window_within hfits (by omega) hlow hissued hused H (fun _ htx => htx) hcommits htxs
  have hsame : t₃.commits = t₂.commits := commits_exec (writes_updateBeacon block fun _ => trivial) hbeacon
  obtain rfl : (Write.apply block).step (t₃.pruneCommits block.getHeight) = s' := by
    cases hrun₃
    rfl
  rw [← State.pending_of_commits hsame] at hwithin
  refine hwithin.prune hn fun h k => ?_
  show (t₃.pruneCommits block.getHeight).Pending h k ↔ _
  unfold State.Pending
  rw [State.commit_pruneCommits]
  split
  · next hold =>
    constructor
    · rintro ⟨hsome, hk⟩
      exact absurd hk.symm hsome
    · rintro ⟨_, hle⟩
      omega
  · next hfresh =>
    refine ⟨fun hk => ⟨hk, by omega⟩, And.left⟩

end Block

/-! ## §3 — states grown from genesis -/

section Grown

variable [Engine] (cfg : Config)

/-- **`State.Grown`** — the states that upgrading by blocks makes of a fresh or freshly reset database: the genesis
block first, then blocks that follow the last one, pass `CheckError`, and carry their own height on their reveals. -/
inductive State.Grown : State → Prop
  | init : Grown (State.empty.initFromSheet State.getGenesisSheet)
  | reset (s : State) : Grown (s.rebuildFromSheet State.getGenesisSheet)
  | genesis {s s' : State} {block : FullBlock} : Grown s → s.applied = [] → getGenesisBlock cfg.network = .ok block →
      (upgrade cfg block).exec s = .ok ((), s') → Grown s'
  | upgrade {s s' : State} {top block : FullBlock} {l : List FullBlock} : Grown s → s.applied = top :: l →
      NgCore.Follows top block → (∃ now, block.checkError now = .ok ()) →
      (∀ tx ∈ block.txs, tx.isEffect → tx.height = block.getHeight) → (upgrade cfg block).exec s = .ok ((), s') →
      Grown s'

variable {cfg} {s : State}

theorem FullBlock.fits_of_checkError {top block : FullBlock} (hfollows : Follows top block)
    (herror : ∃ now, block.checkError now = .ok ())
    (hreveal : ∀ tx ∈ block.txs, tx.isEffect → tx.height = block.getHeight) : block.Fits where
  commit := (FullBlock.Vetted.commit_rules herror).1
  nodup := (FullBlock.Vetted.commit_rules herror).2
  reveal tx htx heffect := by
    have hheight := hreveal tx htx heffect
    have := hfollows.1
    exact ⟨hheight, by omega⟩

theorem FullBlock.fits_genesis {network : Network} {block : FullBlock} (h : getGenesisBlock network = .ok block) :
    block.Fits := by
  rcases getGenesisBlock_ok h with ⟨hcommits, _, tx, htxs, htype, _⟩
  refine ⟨by simp [hcommits], by simp [hcommits], ?_⟩
  rw [htxs]
  intro tx' htx' heffect
  obtain rfl := List.mem_singleton.mp htx'
  unfold FullTx.isEffect at heffect
  rw [htype] at heffect
  exact absurd heffect (by decide)

theorem State.Grown.descends (h : State.Grown cfg s) {top : FullBlock} {l : List FullBlock}
    (happlied : s.applied = top :: l) : Descends (top :: l) := by
  induction h generalizing top l with
  | init => cases happlied
  | reset s =>
    rw [State.applied_rebuildFromSheet] at happlied
    cases happlied
  | @genesis s s' block _ hnil hgenesis hrun _ =>
    rw [applied_upgrade hrun, hnil] at happlied
    cases happlied
    exact getGenesisBlock_height hgenesis
  | @upgrade s s' top' block l' _ hbelow hfollows _ _ hrun ih =>
    rw [applied_upgrade hrun, hbelow] at happlied
    cases happlied
    exact descends_cons.mpr ⟨hfollows, ih hbelow⟩

theorem State.Grown.hash_length (h : State.Grown cfg s) :
    ∀ b ∈ s.applied, ∀ c ∈ b.commits, c.hash.length = 32 := by
  induction h with
  | init => exact fun b hb => absurd hb List.not_mem_nil
  | reset s =>
    rw [State.applied_rebuildFromSheet]
    exact fun b hb => absurd hb List.not_mem_nil
  | @genesis s s' block _ hnil hgenesis hrun ih =>
    rw [applied_upgrade hrun]
    refine List.forall_mem_cons.mpr ⟨?_, ih⟩
    rw [(getGenesisBlock_ok hgenesis).1]
    exact fun c hc => absurd hc List.not_mem_nil
  | @upgrade s s' top block l _ _ _ herror _ hrun ih =>
    rw [applied_upgrade hrun]
    refine List.forall_mem_cons.mpr ⟨fun c hc => ?_, ih⟩
    rcases herror with ⟨now, herror⟩
    rcases bind_eq_ok.mp ((FullBlock.checkError_eq_ok.mp herror).commit c hc) with ⟨_, hsize, _⟩
    exact ensure_eq_ok.mp hsize

end Grown

section Histories

variable [Crypto]

theorem issued_cons (block : FullBlock) (l : List FullBlock) :
    {e | e ∈ issued (block :: l)} = {e | e ∈ issued l} ∪ issuedAt block.getHeight block.commits := by
  ext e
  simp only [issued, issuedAt, List.flatMap_cons, List.mem_append, List.mem_map, Set.mem_union, Set.mem_ofPred_eq,
    eq_comm (a := e)]
  exact or_comm

theorem used_cons (block : FullBlock) (l : List FullBlock) :
    {e | e ∈ used (block :: l)} = {e | e ∈ used l} ∪ usedAt block.getHeight block.txs := by
  ext e
  simp only [used, usedAt, FullBlock.effects, List.flatMap_cons, List.mem_append, List.mem_map, List.mem_filter,
    decide_eq_true_eq, Set.mem_union, Set.mem_ofPred_eq, eq_comm (a := e), and_assoc]
  exact or_comm

theorem height_of_mem_issued {l : List FullBlock} {n : Nat} (h : ∀ b ∈ l, b.getHeight < n) :
    ∀ e ∈ {e | e ∈ issued l}, e.1 < n := by
  intro e he
  rcases List.mem_flatMap.mp he with ⟨b, hb, he⟩
  rcases List.mem_map.mp he with ⟨_, _, rfl⟩
  exact h b hb

theorem height_of_mem_used {l : List FullBlock} {n : Nat} (h : ∀ b ∈ l, b.getHeight < n) :
    ∀ e ∈ {e | e ∈ used l}, e.1 < n := by
  intro e he
  rcases List.mem_flatMap.mp he with ⟨b, hb, he⟩
  rcases List.mem_map.mp he with ⟨_, _, rfl⟩
  exact h b hb

/-- **`Reveals tx a hash`** — the transaction opens a commitment of `a` to `hash`. -/
def FullTx.Reveals (tx : FullTx) (a : Address) (hash : Bytes32) : Prop :=
  tx.isEffect ∧ tx.fromAddr = .ok a ∧ revealHash tx = hash

/-- **`Unopened l before a hash r`** — a block of the chain `l` in the window below `r` carries a commitment of `a` to
`hash` that no later block of the chain, nor a transaction of `before`, opens. -/
def Unopened (l : List FullBlock) (before : List FullTx) (a : Address) (hash : Bytes32) (r : Nat) : Prop :=
  ∃ b ∈ l, r ≤ b.getHeight + commitWindow ∧ b.getHeight < r ∧ (∃ c ∈ b.commits, c.fromAddr = .ok a ∧ c.hash = hash.val) ∧
    (∀ b' ∈ l, b.getHeight < b'.getHeight → ∀ tx ∈ b'.txs, ¬ tx.Reveals a hash) ∧
    ∀ tx ∈ before, ¬ tx.Reveals a hash

end Histories

/-! ## §4 — exactness -/

section Exact

variable [Engine] {cfg : Config} {s : State}

theorem window_applied {s' : State} {block : FullBlock} (hfits : block.Fits) (htip : s.tipHeight ≤ block.getHeight)
    (hnext : block.getHeight ≤ s.tipHeight + 1) (hbelow : ∀ b ∈ s.applied, b.getHeight < block.getHeight)
    (hrun : (upgrade cfg block).exec s = .ok ((), s'))
    (H : Window (s.tipHeight - commitWindow) {e | e ∈ issued s.applied} {e | e ∈ used s.applied} s.Pending) :
    Window (s'.tipHeight - commitWindow) {e | e ∈ issued s'.applied} {e | e ∈ used s'.applied} s'.Pending := by
  have happlied := applied_upgrade hrun
  have htip' : s'.tipHeight = block.getHeight := by
    unfold State.tipHeight
    rw [happlied]
    rfl
  rw [htip', happlied, issued_cons, used_cons]
  exact window_upgrade hfits (by omega) (by omega) (height_of_mem_issued hbelow) (height_of_mem_used hbelow) H hrun

/-- **The rows of a grown state are what its history leaves open.** -/
theorem State.Grown.window (h : State.Grown cfg s) :
    Window (s.tipHeight - commitWindow) {e | e ∈ issued s.applied} {e | e ∈ used s.applied} s.Pending := by
  have hempty : ∀ t : State, t.applied = [] → t.commits = State.empty.commits →
      Window (t.tipHeight - commitWindow) {e | e ∈ issued t.applied} {e | e ∈ used t.applied} t.Pending := by
    intro t happlied hcommits
    have hpending : t.Pending = fun _ _ => False := by
      funext h k
      refine propext ⟨?_, False.elim⟩
      rintro ⟨hsome, hk⟩
      rw [State.commit_eq_of_commits hcommits] at hk
      exact hsome (hk.symm.trans (by simp [State.empty]))
    have htip : t.tipHeight = 0 := by
      unfold State.tipHeight
      rw [happlied]
      rfl
    have hnone : ∀ (l : List (Nat × Ticket)), l = [] → {e | e ∈ l} = (∅ : Set (Nat × Ticket)) := by
      rintro l rfl
      exact Set.eq_empty_of_forall_notMem fun e he => absurd he List.not_mem_nil
    rw [hpending, htip, happlied, hnone (issued []) rfl, hnone (used []) rfl]
    exact Window.empty
  induction h with
  | init => exact hempty _ rfl rfl
  | reset s => exact hempty _ (State.applied_rebuildFromSheet s) (State.commits_rebuildGenesis s)
  | @genesis s s' block _ hnil hgenesis hrun ih =>
    have hzero : block.getHeight = 0 := getGenesisBlock_height hgenesis
    have hbelow : ∀ b ∈ s.applied, b.getHeight < block.getHeight := by simp [hnil]
    have htip : s.tipHeight = 0 := by
      unfold State.tipHeight
      rw [hnil]
      rfl
    exact window_applied (FullBlock.fits_genesis hgenesis) (by omega) (by omega) hbelow hrun ih
  | @upgrade s s' top block l hs happlied hfollows herror hreveal hrun ih =>
    have hheight := hfollows.1
    have htip : s.tipHeight = top.getHeight := by
      unfold State.tipHeight
      rw [happlied]
      rfl
    have hbelow : ∀ b ∈ s.applied, b.getHeight < block.getHeight := by
      rw [happlied]
      intro b hb
      rcases List.mem_cons.mp hb with rfl | hb
      · omega
      · have := (hs.descends happlied).height_le b hb
        omega
    exact window_applied (FullBlock.fits_of_checkError hfollows herror hreveal) (by omega) (by omega) hbelow hrun ih

/-! ## §5 — what a reveal finds -/

omit [Engine] in
theorem View.isSome_findCommit {v : View} {a : Address} {hash : Bytes32} {reveal : Nat} :
    (v.findCommit a hash reveal).isSome ↔
      ∃ h, reveal - commitWindow ≤ h ∧ h < reveal ∧ v.commit h hash = some a := by
  unfold View.findCommit
  rw [List.find?_isSome]
  constructor
  · rintro ⟨h, hmem, hrow⟩
    rw [List.mem_range'_1] at hmem
    exact ⟨h, hmem.1, by omega, of_decide_eq_true hrow⟩
  · rintro ⟨h, hlow, hlt, hrow⟩
    refine ⟨h, ?_, decide_eq_true hrow⟩
    rw [List.mem_range'_1]
    omega

omit [Engine] in
theorem Except.toOption_eq_some {α : Type} {x : Except Err α} {a : α} : x.toOption = some a ↔ x = .ok a := by
  cases x <;> simp [Except.toOption]

theorem unopened_iff {l : List FullBlock} {before : List FullTx} {extra : Set (Nat × Ticket)} {a : Address}
    {hash : Bytes32} {r low : Nat} {v : View} (hlow : low ≤ r - commitWindow)
    (hlength : ∀ b ∈ l, ∀ c ∈ b.commits, c.hash.length = 32) (hextra : ∀ e ∈ extra, r ≤ e.1)
    (hview : v.commit = s.view.commit)
    (H : Window low ({e | e ∈ issued l} ∪ extra) ({e | e ∈ used l} ∪ usedAt r before) s.Pending) :
    (v.findCommit a hash r).isSome ↔ Unopened l before a hash r := by
  rw [View.isSome_findCommit, hview]
  have hpending : ∀ h, s.view.commit h hash = some a ↔ s.Pending h (some a, hash) :=
    fun h => ⟨fun hrow => ⟨Option.some_ne_none a, hrow⟩, And.right⟩
  have hreveals : ∀ tx : FullTx, tx.isEffect → (tx.ticket = (some a, hash) ↔ tx.Reveals a hash) := by
    intro tx heffect
    unfold FullTx.ticket FullTx.Reveals
    rw [Prod.mk.injEq, Except.toOption_eq_some]
    exact ⟨fun h => ⟨heffect, h⟩, And.right⟩
  constructor
  · rintro ⟨h, hle, hlt, hrow⟩
    rcases (H.exact h _).mp ((hpending h).mp hrow) with ⟨_, hissued | hissued, huses⟩
    · rcases List.mem_flatMap.mp hissued with ⟨b, hb, hmem⟩
      rcases List.mem_map.mp hmem with ⟨c, hc, heq⟩
      obtain ⟨rfl, hticket⟩ := Prod.mk.inj heq
      obtain ⟨hfrom, hhash⟩ := Prod.mk.inj hticket
      refine ⟨b, hb, by omega, hlt, ⟨c, hc, Except.toOption_eq_some.mp hfrom, ?_⟩, ?_, ?_⟩
      · rw [← hhash, copy32_of_length _ (hlength b hb c hc)]
      · intro b' hb' hlater tx htx hopen
        have hmem : (b'.getHeight, (some a, hash)) ∈ used l := by
          refine List.mem_flatMap.mpr ⟨b', hb', List.mem_map.mpr ⟨tx, ?_, ?_⟩⟩
          · exact List.mem_filter.mpr ⟨htx, decide_eq_true hopen.1⟩
          · rw [(hreveals tx hopen.1).mpr hopen]
        have := huses _ (.inl hmem)
        omega
      · intro tx htx hopen
        have := huses r (.inr ⟨tx, htx, hopen.1, by rw [(hreveals tx hopen.1).mpr hopen]⟩)
        omega
    · have : r ≤ h := hextra _ hissued
      omega
  · rintro ⟨b, hb, hle, hlt, ⟨c, hc, hfrom, hhash⟩, hlater, hbefore⟩
    refine ⟨b.getHeight, by omega, hlt, (hpending _).mpr ((H.exact _ _).mpr ⟨by omega, .inl ?_, ?_⟩)⟩
    · refine List.mem_flatMap.mpr ⟨b, hb, List.mem_map.mpr ⟨c, hc, ?_⟩⟩
      unfold Commitment.ticket
      rw [hfrom, hhash, copy32_val]
      rfl
    · rintro m (hm | ⟨tx, htx, heffect, heq⟩)
      · rcases List.mem_flatMap.mp hm with ⟨b', hb', hmem⟩
        rcases List.mem_map.mp hmem with ⟨tx, htx, heq⟩
        obtain ⟨rfl, hticket⟩ := Prod.mk.inj heq
        rcases List.mem_filter.mp htx with ⟨htx, heffect⟩
        by_contra hlt'
        exact hlater b' hb' (by omega) tx htx ((hreveals tx (of_decide_eq_true heffect)).mp hticket)
      · exact absurd ((hreveals tx heffect).mp (Prod.mk.inj heq).2.symm) (hbefore tx htx)

/-- **The commit store is exact**: every pending record of a grown state is at most `CommitWindow` below the tip, a
committer has one record of a hash, and a reveal in the next block finds a commitment exactly when the chain leaves
one open to it, both on the state the block is checked against and at its turn in the block. -/
theorem State.Grown.commit_window (h : State.Grown cfg s) {top : FullBlock} {l : List FullBlock}
    (happlied : s.applied = top :: l) :
    (∀ (r : Nat) (hash : Bytes32) (a : Address), s.commit[(r, hash)]? = some a →
      top.getHeight - commitWindow ≤ r ∧ r ≤ top.getHeight) ∧
    (∀ (r r' : Nat) (hash : Bytes32) (a : Address), s.commit[(r, hash)]? = some a → s.commit[(r', hash)]? = some a →
      r = r') ∧
    (∀ (a : Address) (hash : Bytes32), (s.view.findCommit a hash (top.getHeight + 1)).isSome ↔
      Unopened s.applied [] a hash (top.getHeight + 1)) ∧
    ∀ (block : FullBlock) (before after : List FullTx) (t t' : State) (gas : Nat), NgCore.Follows top block →
      (∃ now, block.checkError now = .ok ()) → (∀ tx ∈ block.txs, tx.isEffect → tx.height = block.getHeight) →
      block.txs = before ++ after → (handleCommits (cfg.recorder block.getHeight) block).exec s = .ok ((), t) →
      (handleTxs cfg (cfg.recorder block.getHeight) block.header.timestamp before).exec t = .ok (gas, t') →
      ∀ (a : Address) (hash : Bytes32), (t'.view.findCommit a hash block.getHeight).isSome ↔
        Unopened s.applied before a hash block.getHeight := by
  have htip : s.tipHeight = top.getHeight := by
    unfold State.tipHeight
    rw [happlied]
    rfl
  have hbelow : ∀ b ∈ s.applied, b.getHeight < top.getHeight + 1 := by
    rw [happlied]
    intro b hb
    rcases List.mem_cons.mp hb with rfl | hb
    · omega
    · have := (h.descends happlied).height_le b hb
      omega
  have H := h.window
  rw [htip] at H
  refine ⟨fun r hash a hrow => ?_, fun r r' hash a hrow hrow' => ?_, fun a hash => ?_, ?_⟩
  · rcases (H.exact r (some a, hash)).mp ⟨Option.some_ne_none a, hrow⟩ with ⟨hlow, hissued, _⟩
    exact ⟨hlow, Nat.le_of_lt_succ (height_of_mem_issued hbelow _ hissued)⟩
  · exact H.unique r r' (some a, hash) ⟨Option.some_ne_none a, hrow⟩ ⟨Option.some_ne_none a, hrow'⟩
  · have hnone : usedAt (top.getHeight + 1) [] = ∅ :=
      Set.eq_empty_of_forall_notMem fun e he => by simp [usedAt] at he
    have H' : Window (top.getHeight - commitWindow) ({e | e ∈ issued s.applied} ∪ ∅)
        ({e | e ∈ used s.applied} ∪ usedAt (top.getHeight + 1) []) s.Pending := by
      rw [hnone, Set.union_empty, Set.union_empty]
      exact H
    refine unopened_iff ?_ h.hash_length (fun e he => he.elim) rfl H'
    omega
  · intro block before after t t' gas hfollows herror hreveal hsplit hcommits htxs a hash
    have hheight := hfollows.1
    rw [← hheight] at hbelow
    have hwithin := window_within (FullBlock.fits_of_checkError hfollows herror hreveal) (by omega) (by omega)
      (height_of_mem_issued hbelow) (height_of_mem_used hbelow) H
      (fun tx htx => by rw [hsplit]; exact List.mem_append_left _ htx) hcommits htxs
    refine unopened_iff ?_ h.hash_length (fun e he => ?_) rfl hwithin
    · omega
    · rcases he with ⟨c, _, rfl⟩
      exact le_rfl

end Exact

/-- The payment of `handPaid` finds its commitment in the third block. -/
theorem commit_window_handPaid :
    letI := Engine.bare
    ∃ s : State, (s.view.findCommit (handAddr 1) (revealHash handPayment) 3).isSome ∧
      Unopened s.applied [] (handAddr 1) (revealHash handPayment) 3 := by
  let _ := Engine.bare
  let cfg : Config := ⟨ZERONET, true⟩
  let first := handSeal handGenesis 1 [] []
  let second := handSeal first 1 [] [handCommit 1 2 (10 ^ 13) handPayment]
  let s₁ := State.after ((upgrade cfg first).exec (State.genesis true))
  have hgenesis : getGenesisBlock ZERONET = .ok handGenesis :=
    (getGenesisBlock_byHand (fun _ => none) ZERONET).trans rfl
  rcases bind_eq_ok.mp (State.genesis_eq true) with ⟨g, hg, hinit⟩
  rcases bind_eq_ok.mp hinit with ⟨⟨_, s₀⟩, hrun₀, hs₀⟩
  obtain rfl : s₀ = State.genesis true := pure_eq_ok.mp hs₀
  obtain rfl : handGenesis = g := Except.ok.inj (hgenesis.symm.trans hg)
  have h₀ : State.Grown cfg (State.genesis true) := .genesis .init rfl hg hrun₀
  have happlied₀ : (State.genesis true).applied = [handGenesis] := applied_upgrade hrun₀
  have hrun₁ : (upgrade cfg first).exec (State.genesis true) = .ok ((), s₁) :=
    State.eq_after (by decide +kernel)
  have h₁ : State.Grown cfg s₁ := .upgrade h₀ happlied₀ (by decide +kernel) ⟨handNow, by decide +kernel⟩
    (by decide +kernel) hrun₁
  have happlied₁ : s₁.applied = first :: [handGenesis] := by
    rw [applied_upgrade hrun₁, happlied₀]
  have hrun₂ : (upgrade cfg second).exec s₁ = .ok ((), State.after ((upgrade cfg second).exec s₁)) :=
    State.eq_after (by decide +kernel)
  have h₂ : State.Grown cfg (State.after ((upgrade cfg second).exec s₁)) := .upgrade h₁ happlied₁ (by decide +kernel)
    ⟨handNow, by decide +kernel⟩ (by decide +kernel) hrun₂
  have happlied₂ := applied_upgrade hrun₂
  have hfound : ((State.after ((upgrade cfg second).exec s₁)).view.findCommit (handAddr 1) (revealHash handPayment)
      3).isSome := by decide +kernel
  exact ⟨_, hfound, (h₂.commit_window happlied₂).2.2.1 _ _ |>.mp hfound⟩

end NgCore
