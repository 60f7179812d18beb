/-
# NgCore.Chain.Relay — the relay drains against the moving tip

`ngpool/relay.go` on a live node: the pool of `NgCore.Pool`, the chain under it, and any number of goroutines that
submit and drain. A goroutine is a list of `Task`s, and one task is ONE critical section or ONE database read, so that
between any two of them the tip may move and other goroutines may run. A moved tip starts a goroutine of its own
(`OnTipChanged`: reset, commitments, reveals).

The relay decides that a commitment has landed by finding it PENDING on chain. The reveal that succeeds takes exactly
that away: from the next tip on both halves, still queued, look as if they had never landed, and the drains land them
again (`Relay.executes_twice_handRelayed`). The queue gives a half up only when it expires or when its sender relays
another. So a pair is executed once along the runs in which every drain that finds the commitment in the queue is a
drain for one and the same height (`Relay.executes_once`).

What blocks may carry of the pair is bounded by the pool alone (`Relay.Supplied`): a block carries a half only as the
pool held it, for that height, at some moment. Which chain the node was on then is left open, and so is what else is
submitted, by whom, and how blocks arrive. `Relay.Offered` follows the commitment from the queue through the goroutines
into the pool.

DELIVERABLE: `Relay.executes_once`.
-/
import NgCore.Pool
import NgCore.Chain.Replay

namespace NgCore

open Lib (Bucket)

/-! ## §1 — goroutines -/

/-- **`Task`** — what a goroutine does next. -/
inductive Task where
  /-- `Reset`. -/
  | reset
  /-- `RelayCommit`: read the height, -/
  | relayCommit (commit : Commitment)
  /-- check a probe, -/
  | gateCommit (next : Nat) (commit : Commitment)
  /-- queue, and drain. -/
  | queueCommit (next : Nat) (fromAddr : Address) (commit : Commitment)
  /-- `relayCommits`: read the height, -/
  | relayCommits
  /-- copy the templates, -/
  | commitTemplates (next : Nat)
  /-- submit those that have not landed. -/
  | commitLoop (next : Nat) (templates : List (Address × Commitment))
  /-- `PutCommitment`: read the height, -/
  | putCommitment (commit : Commitment)
  /-- check and insert. -/
  | admitCommitment (nextHeight : Nat) (commit : Commitment)
  /-- `RelayReveal`: check a probe, -/
  | relayReveal (reveal : FullTx)
  /-- read the height, -/
  | nextReveal (fromAddr : Address) (reveal : FullTx)
  /-- queue, and drain. -/
  | queueReveal (next : Nat) (fromAddr : Address) (reveal : FullTx)
  /-- `relayReveals`: read the height, -/
  | relayReveals
  /-- copy the templates, -/
  | revealTemplates (next : Nat)
  /-- submit them. -/
  | revealLoop (next : Nat) (templates : List FullTx)
  /-- `PutTx`: read the height, -/
  | putTx (tx : FullTx)
  /-- check and insert. -/
  | admitTx (nextHeight : Nat) (tx : FullTx)
  deriving DecidableEq

/-- The height a block on the tip has. -/
def Node.nextHeight {S : Type} (n : Node S) : Nat := n.store.latestHeight + 1

/-- What stands at most once among the tickets of one kind stands at most once. -/
theorem count_le_one_of_filter {α : Type} [DecidableEq α] {f : α → Ticket} {l : List α} {e : List (Nat × Ticket)}
    {k : Ticket} {a : α} (hmap : l.map f = e.map Prod.snd) (ha : f a = k)
    (hnodup : ((e.filter fun e => e.2 = k).map Prod.snd).Nodup) : l.count a ≤ 1 := by
  have hfilter : (e.filter fun e => e.2 = k).map Prod.snd = (e.map Prod.snd).filter fun k' => k' = k := by
    rw [List.filter_map]
    rfl
  calc l.count a ≤ (l.map f).count (f a) := List.count_le_count_map
    _ = ((e.map Prod.snd).filter fun k' => k' = k).count k := by
      rw [hmap, ha, List.count_filter (by simp)]
    _ ≤ 1 := by
      rw [← hfilter]
      exact List.nodup_iff_count_le_one.mp hnodup k

section Machine

variable [Engine]

/-- **`Task.run`** — one task on the node as it is: the pool it leaves, and what the goroutine goes on with. A call that
fails ends, a submission that fails inside a drain does not end the drain. The queues are Go maps, so a loop takes its
templates in any order: `pick` chooses. -/
def Task.run (pick : Nat) (n : Node State) (pool : TxPool) : Task → TxPool × List Task
  | .reset => (pool.reset, [])
  | .relayCommit commit => (pool, [.gateCommit n.nextHeight commit])
  | .gateCommit next commit =>
    match TxPool.relayCommitGate next n.state.view commit with
    | .ok fromAddr => (pool, [.queueCommit next fromAddr commit])
    | .error _ => (pool, [])
  | .queueCommit next fromAddr commit =>
    match pool.queueCommit next fromAddr commit with
    | .ok pool => (pool, [.relayCommits])
    | .error _ => (pool, [])
  | .relayCommits => (pool, [.commitTemplates n.nextHeight])
  | .commitTemplates next =>
    let (templates, pool) := pool.commitTemplates next
    (pool, [.commitLoop next templates])
  | .commitLoop next templates =>
    match templates[pick % templates.length]? with
    | none => (pool, [])
    | some (fromAddr, tmpl) =>
      let rest := .commitLoop next (templates.eraseIdx (pick % templates.length))
      -- recorded on chain: not submitted again
      if commitOnChain n.state.view fromAddr (copy32 tmpl.hash) next = true then (pool, [rest])
      else (pool, [.putCommitment { tmpl with height := next }, rest])
  | .putCommitment commit => (pool, [.admitCommitment n.nextHeight commit])
  | .admitCommitment nextHeight commit =>
    match pool.putCommitment nextHeight n.store.getLatestBlock.toOption n.state.view commit with
    | .ok pool => (pool, [])
    | .error _ => (pool, [])
  | .relayReveal reveal =>
    match TxPool.relayRevealGate n.state.view reveal with
    | .ok fromAddr => (pool, [.nextReveal fromAddr reveal])
    | .error _ => (pool, [])
  | .nextReveal fromAddr reveal => (pool, [.queueReveal n.nextHeight fromAddr reveal])
  | .queueReveal next fromAddr reveal =>
    match pool.queueReveal next fromAddr reveal with
    | .ok pool => (pool, [.relayReveals])
    | .error _ => (pool, [])
  | .relayReveals => (pool, [.revealTemplates n.nextHeight])
  | .revealTemplates next =>
    let (templates, pool) := pool.revealTemplates next
    (pool, [.revealLoop next templates])
  | .revealLoop next templates =>
    match templates[pick % templates.length]? with
    | none => (pool, [])
    | some tmpl =>
      (pool, [.putTx { tmpl with height := next },
        .revealLoop next (templates.eraseIdx (pick % templates.length))])
  | .putTx tx => (pool, [.admitTx n.nextHeight tx])
  | .admitTx nextHeight tx =>
    match pool.putTx nextHeight n.store.getLatestBlock.toOption n.state.view tx with
    | .ok pool => (pool, [])
    | .error _ => (pool, [])

/-! ## §2 — the machine -/

/-- **`Relay`** — a node, its pool and its goroutines. `past` is a history variable: the pool at every earlier
moment. -/
structure Relay where
  node : Node State
  pool : TxPool
  threads : List (List Task)
  past : List TxPool

/-- **`RelayEvent`** — what happens next: a call on the pool from outside, a step of a goroutine, or a call on the chain. -/
inductive RelayEvent where
  | relayCommit (commit : Commitment)
  | relayReveal (reveal : FullTx)
  | putCommitment (commit : Commitment)
  | putTx (tx : FullTx)
  | work (i pick : Nat)
  | applyBlock (now : Nat) (block : FullBlock)
  | switchToBranch (now : Nat) (branch : List FullBlock)

/-- The headers that an event brings. -/
def RelayEvent.headers : RelayEvent → List BlockHeader
  | .applyBlock _ block => [block.header]
  | .switchToBranch _ branch => branch.map FullBlock.header
  | _ => []

namespace Relay

def spawn (thread : List Task) (r : Relay) : Relay := { r with threads := r.threads ++ [thread] }

/-- **`onTipChanged`** — the reset comes first; the drains are left to run. -/
def onTipChanged (r : Relay) : Relay := r.spawn [.reset, .relayCommits, .relayReveals]

/-- Goroutine `i` does its next task. -/
def work (i pick : Nat) (r : Relay) : Relay :=
  match r.threads[i]? with
  | some (task :: rest) =>
    let (pool, next) := task.run pick r.node r.pool
    { r with pool, threads := r.threads.set i (next ++ rest), past := pool :: r.past }
  | _ => r

/-- The flag under which `ApplyBlock` fires the hook: the block extended the tip, or a switch moved it. -/
def tipMoved (block : FullBlock) (n n' : Node State) : Bool :=
  block.getPrevHash = n.store.latestHash ∨ n'.store.latestHash ≠ n.store.latestHash

/-- **`step`** — one event. -/
def step (L : Ledger State) (e : RelayEvent) (r : Relay) : Except Err Relay :=
  match e with
  | .relayCommit commit => .ok (r.spawn [.relayCommit commit])
  | .relayReveal reveal => .ok (r.spawn [.relayReveal reveal])
  | .putCommitment commit => .ok (r.spawn [.putCommitment commit])
  | .putTx tx => .ok (r.spawn [.putTx tx])
  | .work i pick => .ok (r.work i pick)
  | .applyBlock now block => do
    let n ← r.node.applyBlock L now block
    let moved : Relay := { r with node := n }
    return if tipMoved block r.node n = true then moved.onTipChanged else moved
  | .switchToBranch now branch => do
    let n ← r.node.switchToBranch L now branch
    return onTipChanged { r with node := n }

/-- **`Supplied k r block`** — what the block carries of the ticket is what the pool held for its height at some
moment. -/
def Supplied (k : Ticket) (r : Relay) (block : FullBlock) : Prop :=
  (∀ c ∈ block.commits, c.ticket = k → ∃ pool ∈ r.past, c ∈ pool.packableCommits block.getHeight) ∧
    ∀ tx ∈ block.effects, tx.ticket = k → ∃ pool ∈ r.past, tx ∈ pool.packableTxs block.getHeight

instance (k : Ticket) (r : Relay) (block : FullBlock) : Decidable (r.Supplied k block) :=
  inferInstanceAs (Decidable (_ ∧ _))

/-- **`offers r e`** — the commitments that an event brings on the way to the pool, with the height they are meant for:
what a drain copies from the queue, and what is submitted past the relay. -/
def offers (r : Relay) : RelayEvent → List (Nat × Commitment)
  | .work i _ =>
    match r.threads[i]? with
    | some (.commitTemplates next :: _) => (r.pool.commitTemplates next).1.map fun t => (next, t.2)
    | _ => []
  | .putCommitment commit => [(commit.height, commit)]
  | _ => []

/-- **`OfferedAt k M r e`** — the commitment of the ticket is offered for the height `M` only: a drain for another
height finds it replaced in the queue, or expired. -/
def OfferedAt (k : Ticket) (M : Nat) (r : Relay) (e : RelayEvent) : Prop := ∀ x ∈ r.offers e, x.2.ticket = k → x.1 = M

instance (k : Ticket) (M : Nat) (r : Relay) (e : RelayEvent) : Decidable (r.OfferedAt k M e) :=
  inferInstanceAs (Decidable (∀ x ∈ r.offers e, x.2.ticket = k → x.1 = M))

/-- **`Run`** — the machines reached from a fresh node, with any size and floor of the pool, when every event meets `D`
and blocks carry of the ticket only what the pool supplied. -/
inductive Run (cfg : Config) (D : Relay → RelayEvent → Prop) (H : Set BlockHeader) (k : Ticket) : Relay → Prop
  | start {n : Node State} (maxSize minFeePerByte : Nat) : Node.genesis cfg = .ok n →
      Run cfg D H k ⟨n, .init maxSize minFeePerByte, [], []⟩
  | step {r r' : Relay} (e : RelayEvent) : Run cfg D H k r → D r e → (∀ x ∈ e.headers, x ∈ H) →
      r.step ((ledger cfg).guard fun _ b => r.Supplied k b) e = .ok r' → Run cfg D H k r'

end Relay

/-! ## §3 — from the queue to the pool -/

/-- A task that brings the commitment of the ticket to the pool brings it for the height `M`. -/
def Task.Offers (k : Ticket) (M : Nat) : Task → Prop
  | .commitLoop next templates => ∀ t ∈ templates, t.2.ticket = k → next = M
  | .putCommitment commit | .admitCommitment _ commit => commit.ticket = k → commit.height = M
  | _ => True

/-- The pool holds it for the height `M`. -/
def TxPool.Offers (k : Ticket) (M : Nat) (pool : TxPool) : Prop :=
  ∀ (a : Address) (c : Commitment), pool.commitMap[a]? = some c → c.ticket = k → c.height = M

theorem TxPool.Offers.of_eq {k : Ticket} {M : Nat} {pool pool' : TxPool} (h : pool.Offers k M)
    (heq : pool'.commitMap = pool.commitMap) : pool'.Offers k M := by
  unfold TxPool.Offers
  rw [heq]
  exact h

theorem TxPool.offers_of_empty {k : Ticket} {M : Nat} {pool : TxPool} (h : pool.commitMap = ∅) : pool.Offers k M := by
  intro a c hget
  rw [h] at hget
  simp at hget

/-- **`Offered k M r`** — the pool, now and before, and all goroutines have the commitment for the height `M`. -/
structure Relay.Offered (k : Ticket) (M : Nat) (r : Relay) : Prop where
  pool : r.pool.Offers k M
  past : ∀ pool ∈ r.past, pool.Offers k M
  threads : ∀ thread ∈ r.threads, ∀ task ∈ thread, task.Offers k M

/-- **One task.** -/
theorem Task.offers_run (pick : Nat) (n : Node State) {k : Ticket} {M : Nat} {pool : TxPool} {task : Task}
    (hpool : pool.Offers k M) (htask : task.Offers k M)
    (hcopy : ∀ next, task = .commitTemplates next → ∀ t ∈ (pool.commitTemplates next).1, t.2.ticket = k → next = M) :
    (task.run pick n pool).1.Offers k M ∧ ∀ t ∈ (task.run pick n pool).2, t.Offers k M := by
  -- the tasks that leave the commitments of the pool alone, and go on with at most one task that brings none
  have hplain : ∀ {pool' : TxPool} {l : List Task}, pool'.commitMap = pool.commitMap → (∀ t ∈ l, t.Offers k M) →
      pool'.Offers k M ∧ ∀ t ∈ l, t.Offers k M := fun heq hl => ⟨hpool.of_eq heq, hl⟩
  cases task with
  | reset => exact ⟨TxPool.offers_of_empty rfl, by simp [Task.run]⟩
  | relayCommit | relayCommits | nextReveal | relayReveals | putTx | revealTemplates =>
    exact hplain rfl (by simp [Task.run, Task.Offers])
  | gateCommit | relayReveal =>
    dsimp only [Task.run]
    split <;> exact hplain rfl (by simp [Task.Offers])
  | queueCommit | queueReveal =>
    dsimp only [Task.run]
    split
    · next hqueue =>
      obtain ⟨_, _, hqueue⟩ := bind_eq_ok.mp hqueue
      cases pure_eq_ok.mp hqueue
      exact hplain rfl (by simp [Task.Offers])
    · exact hplain rfl (by simp)
  | commitTemplates next =>
    refine hplain rfl fun t ht => ?_
    rw [List.mem_singleton.mp ht]
    exact hcopy next rfl
  | commitLoop next templates =>
    have hrest : ∀ i, (Task.commitLoop next (templates.eraseIdx i)).Offers k M :=
      fun i t ht => htask t (List.mem_of_mem_eraseIdx ht)
    dsimp only [Task.run]
    split
    · exact hplain rfl (by simp)
    · next fromAddr tmpl hget =>
      split
      · refine hplain rfl fun t ht => ?_
        rw [List.mem_singleton.mp ht]
        exact hrest _
      · refine hplain rfl fun t ht => ?_
        rcases List.mem_cons.mp ht with rfl | ht
        · exact fun hticket => htask _ (List.mem_of_getElem? hget) hticket
        · rw [List.mem_singleton.mp ht]
          exact hrest _
  | putCommitment commit =>
    refine hplain rfl fun t ht => ?_
    rw [List.mem_singleton.mp ht]
    exact htask
  | admitCommitment nextHeight commit =>
    dsimp only [Task.run]
    split
    · next hput =>
      obtain ⟨_, _, fromAddr, _, hcommits⟩ := TxPool.putCommitment_eq_ok hput
      refine ⟨fun a c hget hticket => ?_, by simp⟩
      rw [hcommits, Bucket.get_insert] at hget
      split at hget
      · cases hget
        exact htask hticket
      · exact hpool a c hget hticket
    · exact hplain rfl (by simp)
  | revealLoop next templates =>
    dsimp only [Task.run]
    split <;> exact hplain rfl (by simp [Task.Offers])
  | admitTx nextHeight tx =>
    dsimp only [Task.run]
    split
    · next hput =>
      obtain ⟨_, _, _, _, _, hcommits, _⟩ := TxPool.putTx_eq_ok hput
      exact hplain hcommits (by simp)
    · exact hplain rfl (by simp)

namespace Relay

variable {cfg : Config} {D : Relay → RelayEvent → Prop} {H : Set BlockHeader} {k : Ticket} {M : Nat}
  {c : Commitment} {tx : FullTx} {r r' : Relay}

theorem Offered.spawn (h : r.Offered k M) {thread : List Task} (hthread : ∀ task ∈ thread, task.Offers k M) :
    (r.spawn thread).Offered k M := by
  refine ⟨h.pool, h.past, fun thread' hmem => ?_⟩
  rcases List.mem_append.mp hmem with hmem | hmem
  · exact h.threads thread' hmem
  · rw [List.mem_singleton.mp hmem]
    exact hthread

/-- **One step of a goroutine.** -/
theorem Offered.work (h : r.Offered k M) {i pick : Nat} (hoffer : r.OfferedAt k M (.work i pick)) :
    (r.work i pick).Offered k M := by
  unfold Relay.work
  split
  · next task rest hget =>
    have hmem := List.mem_of_getElem? hget
    obtain ⟨hpool, hnext⟩ := Task.offers_run pick r.node h.pool
      (h.threads _ hmem task List.mem_cons_self) (fun next heq t ht hticket => by
        subst heq
        refine hoffer (next, t.2) ?_ hticket
        dsimp only [offers]
        rw [hget]
        exact List.mem_map.mpr ⟨t, ht, rfl⟩)
    refine ⟨hpool, fun pool hp => ?_, fun thread hthread => ?_⟩
    · rcases List.mem_cons.mp hp with rfl | hp
      · exact hpool
      · exact h.past pool hp
    · rcases List.mem_or_eq_of_mem_set hthread with hthread | rfl
      · exact h.threads thread hthread
      · intro t ht
        rcases List.mem_append.mp ht with ht | ht
        · exact hnext t ht
        · exact h.threads _ hmem t (List.mem_cons_of_mem _ ht)
  · exact h

/-- **One event.** -/
theorem Offered.step {L : Ledger State} {e : RelayEvent} (h : r.Offered k M) (hoffer : r.OfferedAt k M e)
    (hstep : r.step L e = .ok r') : r'.Offered k M := by
  have hmoved : ∀ n : Node State, Offered k M { r with node := n } := fun n => ⟨h.pool, h.past, h.threads⟩
  have htip : ∀ n : Node State, (onTipChanged { r with node := n }).Offered k M :=
    fun n => (hmoved n).spawn (by simp [Task.Offers])
  cases e with
  | relayCommit | relayReveal | putTx =>
    cases hstep
    exact h.spawn (by simp [Task.Offers])
  | putCommitment commit =>
    cases hstep
    refine h.spawn fun task hmem => ?_
    rw [List.mem_singleton.mp hmem]
    exact hoffer (commit.height, commit) (List.mem_singleton_self _)
  | work i pick =>
    cases hstep
    exact h.work hoffer
  | applyBlock now block =>
    obtain ⟨n, _, hstep⟩ := bind_eq_ok.mp hstep
    cases pure_eq_ok.mp hstep
    split
    · exact htip n
    · exact hmoved n
  | switchToBranch now branch =>
    obtain ⟨n, _, hstep⟩ := bind_eq_ok.mp hstep
    cases pure_eq_ok.mp hstep
    exact htip n

/-- **Every run keeps it.** -/
theorem Run.offered (h : Run cfg (OfferedAt k M) H k r) : r.Offered k M := by
  induction h with
  | start =>
    exact ⟨TxPool.offers_of_empty rfl, fun _ hmem => absurd hmem List.not_mem_nil,
      fun _ hmem => absurd hmem List.not_mem_nil⟩
  | step e _ hoffer _ hstep ih => exact ih.step hoffer hstep

end Relay

/-! ## §4 — a pair is executed once -/

/-- **`OnlyAt k M block`** — a block with a commitment of the ticket has height `M`, and its transactions of the ticket
carry its height. -/
def FullBlock.OnlyAt (k : Ticket) (M : Nat) (block : FullBlock) : Prop :=
  (∀ c ∈ block.commits, c.ticket = k → block.getHeight = M) ∧
    ∀ tx ∈ block.effects, tx.ticket = k → tx.height = block.getHeight

instance (k : Ticket) (M : Nat) (block : FullBlock) : Decidable (block.OnlyAt k M) :=
  inferInstanceAs (Decidable (_ ∧ _))

/-- A chain has one block of a height, so its blocks are orderly in the ticket. -/
theorem State.Executed.orderlyOf {cfg : Config} {k : Ticket} {M : Nat} {s : State}
    (h : State.Executed cfg (fun _ b => b.OnlyAt k M) s) :
    State.Executed cfg (FullBlock.OrderlyOf fun k' => k' = k) s := by
  induction h with
  | init => exact .init
  | @upgrade s s' block hs hadm hC hrun ih =>
    refine ih.upgrade hadm (fun hpos => ⟨(hC hpos).2, fun c hc hticket b hb c' hc' heq => ?_⟩) hrun
    have hM := (hC hpos).1 c hc hticket
    rcases hs.vetted b hb with hgenesis | hvetted
    · rw [(getGenesisBlock_ok hgenesis).1] at hc'
      cases hc'
    · obtain ⟨_, hat⟩ := hs.condition b hb hvetted.height_pos
      have hbM := hat.1 c' hc' (heq.trans hticket)
      cases happlied : s.applied with
      | nil =>
        rw [happlied] at hb
        cases hb
      | cons top l =>
        simp only [FullBlock.Admissible, happlied] at hadm
        have hheight := hadm.1.1
        rw [happlied] at hb
        rcases List.mem_cons.mp hb with rfl | hb
        · omega
        · have := (hs.descends_of_cons happlied).height_le b hb
          omega
  | unwind harchive _ happlied hpos ih => exact ih.unwind harchive happlied hpos
  | reset _ ih => exact ih.reset

namespace Relay

variable {cfg : Config} {D : Relay → RelayEvent → Prop} {H : Set BlockHeader} {k : Ticket} {M : Nat}
  {c : Commitment} {tx : FullTx} {r r' : Relay}

/-- The pool packs for one height: what it supplied for a block carries the height of the block. -/
theorem Offered.onlyAt (h : r.Offered k M) {block : FullBlock} (hsupplied : r.Supplied k block) : block.OnlyAt k M := by
  refine ⟨fun c hc hticket => ?_, fun tx htx hticket => ?_⟩
  · obtain ⟨pool, hpast, hpack⟩ := hsupplied.1 c hc hticket
    obtain ⟨hmem, hat⟩ := List.mem_filter.mp hpack
    obtain ⟨⟨a, _⟩, he, rfl⟩ := List.mem_map.mp hmem
    exact (of_decide_eq_true hat).symm.trans (h.past pool hpast a _ ((Bucket.mem_toList_iff _ _ _).mp he) hticket)
  · obtain ⟨pool, _, hpack⟩ := hsupplied.2 tx htx hticket
    exact of_decide_eq_true (List.mem_filter.mp hpack).2

@[simp] theorem node_work (i pick : Nat) (r : Relay) : (r.work i pick).node = r.node := by
  unfold work
  split <;> rfl

/-- **Only the chain moves the node**: an event leaves it, or is a call on the chain. -/
theorem node_of_step {L : Ledger State} {e : RelayEvent} (h : r.step L e = .ok r') :
    r'.node = r.node ∨
      (∃ now block, e = .applyBlock now block ∧ r.node.applyBlock L now block = .ok r'.node) ∨
      ∃ now branch, e = .switchToBranch now branch ∧ r.node.switchToBranch L now branch = .ok r'.node := by
  cases e with
  | relayCommit | relayReveal | putCommitment | putTx =>
    cases h
    exact .inl rfl
  | work i pick =>
    cases h
    exact .inl (node_work i pick r)
  | applyBlock now block =>
    obtain ⟨n, hn, h⟩ := bind_eq_ok.mp h
    obtain rfl := pure_eq_ok.mp h
    refine .inr (.inl ⟨now, block, rfl, ?_⟩)
    rw [hn]
    split <;> rfl
  | switchToBranch now branch =>
    obtain ⟨n, hn, h⟩ := bind_eq_ok.mp h
    obtain rfl := pure_eq_ok.mp h
    exact .inr (.inr ⟨now, branch, rfl, hn⟩)

/-- **The node of a run is reached by its blocks alone**, each of them with the commitment at the height `M` only. -/
theorem Run.reachableWhile (h : Run cfg (OfferedAt k M) H k r) :
    r.node.ReachableWhile cfg (fun _ b => b.OnlyAt k M) H := by
  induction h with
  | start _ _ hn => exact .genesis hn
  | @step r r' e hr _ hheaders hstep ih =>
    -- the guard of the run implies that of the chain
    have hguard : ((ledger cfg).guard fun _ b => b.OnlyAt k M).guard (fun _ b => r.Supplied k b) =
        (ledger cfg).guard fun _ b => r.Supplied k b :=
      Ledger.guard_guard fun _ _ hb => hr.offered.onlyAt hb
    rw [← hguard] at hstep
    rcases node_of_step hstep with hnode | ⟨now, block, rfl, hok⟩ | ⟨now, branch, rfl, hok⟩
    · rw [hnode]
      exact ih
    · exact ih.applyBlock now block (hheaders _ List.mem_cons_self) (Node.applyBlock_of_guard hok)
    · exact ih.switchToBranch now branch (fun b hb => hheaders _ (List.mem_map_of_mem hb))
        (Node.switchToBranch_of_guard hok)

/-- **A relayed pair is executed once**: along every run, whatever is submitted besides, however the goroutines and the
blocks interleave, the canonical chain holds at most one inclusion of the commitment and at most one execution of the
transaction, as long as every drain that finds the commitment in the queue is a drain for the same height. -/
theorem executes_once (hinj : Set.InjOn BlockHeader.getHash (genesisHeaders ∪ H)) (heffect : tx.isEffect)
    (hpair : c.ticket = tx.ticket) (hrun : Run cfg (OfferedAt tx.ticket M) H tx.ticket r) :
    r.node.state.charges.count { c with height := 0 } ≤ 1 ∧
      r.node.state.debits.count { tx with height := 0 } ≤ 1 := by
  obtain ⟨_, _, hsync⟩ := hrun.reachableWhile.inSync hinj
  have htickets := hsync.executed.orderlyOf.ticketsOf
  constructor
  · refine count_le_one_of_filter r.node.state.ticket_charges ?_ htickets.issuedOnce
    exact (c.ticket_reheight 0).trans hpair
  · exact count_le_one_of_filter r.node.state.ticket_debits (FullTx.ticket_reheight heffect 0) htickets.usedOnce

/-! ## §5 — runs by hand -/

theorem step_agrees {I : State → Prop} {L L' : Ledger State} (h : Ledger.Agrees I L L') (e : RelayEvent)
    (hs : I r.node.state) : r.step L e = r.step L' e ∧ ∀ r', r.step L e = .ok r' → I r'.node.state := by
  refine ⟨?_, fun r' hok => ?_⟩
  · cases e with
    | relayCommit | relayReveal | putCommitment | putTx | work => rfl
    | applyBlock now block =>
      show (r.node.applyBlock L now block >>= _) = (r.node.applyBlock L' now block >>= _)
      rw [(h.applyBlock now block hs).1]
    | switchToBranch now branch =>
      show (r.node.switchToBranch L now branch >>= _) = (r.node.switchToBranch L' now branch >>= _)
      rw [(h.switchToBranch now branch hs).1]
  · rcases node_of_step hok with hnode | ⟨now, block, _, hcall⟩ | ⟨now, branch, _, hcall⟩
    · rw [hnode]
      exact hs
    · exact (h.applyBlock now block hs).2 _ hcall
    · exact (h.switchToBranch now branch hs).2 _ hcall

end Relay

/-- Events one after the other, each under the condition, no call on the chain refused. -/
def handRelay (D : Relay → RelayEvent → Prop) [∀ r e, Decidable (D r e)] (cfg : Config) (k : Ticket)
    (events : List RelayEvent) (r : Relay) : Except Err Relay :=
  events.foldlM (fun r e =>
    if D r e then r.step ((handLedger cfg).guard fun _ b => r.Supplied k b) e else .error .panic) r

/-- A goroutine run for `k` tasks, its templates in the order of the queue. -/
def handDrain (i k : Nat) : List RelayEvent := List.replicate k (.work i 0)

end Machine

/-- A run of the hand-made ledger from a fresh node, as a run of the machine. -/
theorem exists_run_byHand (modules : Bytes → Option Module) (archive : Bool) (k : Ticket)
    (events : List RelayEvent) (test : Relay → Bool) :
    letI := Engine.byHand modules
    ∀ (D : Relay → RelayEvent → Prop) [∀ r e, Decidable (D r e)],
      okAnd (handRelay D ⟨ZERONET, archive⟩ k events
        ⟨handNode archive, .init defaultPoolSize defaultMinFeePerByte, [], []⟩) test = true →
        ∃ r, Relay.Run ⟨ZERONET, archive⟩ D {x | x ∈ events.flatMap RelayEvent.headers} k r ∧ test r = true := by
  let _ := Engine.byHand modules
  intro D _ h
  have hend := exists_of_foldlM (P := fun r : Relay =>
    Relay.Run ⟨ZERONET, archive⟩ D {x | x ∈ events.flatMap RelayEvent.headers} k r ∧ r.node.state.Committed)
    (fun e he r r' hr hok => ?_)
    ⟨.start _ _ (genesis_byHand modules archive), committed_handNode modules archive⟩ h
  · exact hend.imp fun r hr => ⟨hr.1.1, hr.2⟩
  · split at hok
    · next hD =>
      obtain ⟨heq, hkeep⟩ := Relay.step_agrees (r := r) ((handLedger_agrees modules ⟨ZERONET, archive⟩).guard
        fun _ b => r.Supplied k b) e hr.2
      have hok := heq.trans hok
      exact ⟨hr.1.step e hD (fun x hx => List.mem_flatMap.mpr ⟨e, he, hx⟩) hok, hkeep r' hok⟩
    · cases hok

/-- Blocks one after the other; the goroutine that each of them starts runs to its end before the next. -/
def handTips (i : Nat) : List FullBlock → List RelayEvent
  | [] => []
  | block :: blocks => .applyBlock handNow block :: (handDrain i 13 ++ handTips (i + 1) blocks)

/-- The pair of `handReplayed` is handed over on its first block. -/
def handRelayed [Crypto] : List RelayEvent :=
  handTips 0 (handReplayed.take 1) ++
    .relayCommit (handCommit 1 2 (10 ^ 13) handPayment) :: handDrain 1 9 ++
    .relayReveal handPayment :: handDrain 2 9

/-- Then its sender relays another commitment, which takes its place in the queue, and two blocks land the pair. -/
def handReplaced [Crypto] : List RelayEvent :=
  handRelayed ++ .relayCommit (handCommit 1 2 (10 ^ 13) (handPay 1 4 (handAddr 2) 6)) :: handDrain 3 9 ++
    handTips 4 ((handReplayed.take 3).drop 1)

/-- The pair has landed, and is executed once. -/
theorem Relay.executes_once_handReplaced :
    letI := Engine.bare
    ∃ r : Relay, Relay.Run ⟨ZERONET, true⟩ (OfferedAt handPayment.ticket 2)
        {x | x ∈ handReplaced.flatMap RelayEvent.headers} handPayment.ticket r ∧
      handPayment ∈ r.node.state.applied.flatMap FullBlock.effects ∧
      r.node.state.charges.count { handCommit 1 2 (10 ^ 13) handPayment with height := 0 } ≤ 1 ∧
      r.node.state.debits.count { handPayment with height := 0 } ≤ 1 := by
  let _ := Engine.bare
  obtain ⟨r, hrun, htest⟩ := exists_run_byHand (fun _ => none) true handPayment.ticket handReplaced
    (fun r => decide (handPayment ∈ r.node.state.applied.flatMap FullBlock.effects))
    (Relay.OfferedAt handPayment.ticket 2) (by decide +kernel)
  have hinj : Set.InjOn BlockHeader.getHash (genesisHeaders ∪ {x | x ∈ handReplaced.flatMap RelayEvent.headers}) :=
    injOn_byHand _ (by decide +kernel)
  have heffect : handPayment.isEffect := by decide
  have hticket : (handCommit 1 2 (10 ^ 13) handPayment).ticket = handPayment.ticket := by decide +kernel
  generalize handCommit 1 2 (10 ^ 13) handPayment = commit at hticket ⊢
  exact ⟨r, hrun, of_decide_eq_true htest, Relay.executes_once hinj heffect hticket hrun⟩

/-- Then four more blocks arrive. -/
def handDrained [Crypto] : List RelayEvent := handRelayed ++ handTips 3 (handReplayed.drop 1)

/-- **The drains land it twice**: nothing but the pair is submitted, every block carries what the pool holds, and both
halves are still queued at the end. -/
theorem Relay.executes_twice_handDrained :
    letI := Engine.bare
    ∃ r : Relay,
      Set.InjOn BlockHeader.getHash (genesisHeaders ∪ {x | x ∈ handDrained.flatMap RelayEvent.headers}) ∧
      Relay.Run ⟨ZERONET, true⟩ (fun _ _ => True) {x | x ∈ handDrained.flatMap RelayEvent.headers}
        handPayment.ticket r ∧
      handPayment.isEffect ∧ (handCommit 1 2 (10 ^ 13) handPayment).ticket = handPayment.ticket ∧
      r.pool.commitQueue[handAddr 1]? = some ⟨handCommit 1 2 (10 ^ 13) handPayment, 8⟩ ∧
      r.pool.revealQueue[handAddr 1]? = some ⟨handPayment, 8⟩ ∧
      r.node.state.charges.count { handCommit 1 2 (10 ^ 13) handPayment with height := 0 } = 2 ∧
      r.node.state.debits.count { handPayment with height := 0 } = 2 := by
  let _ := Engine.bare
  obtain ⟨r, hrun, htest⟩ := exists_run_byHand (fun _ => none) true handPayment.ticket handDrained (fun r => decide (
      r.pool.commitQueue[handAddr 1]? = some ⟨handCommit 1 2 (10 ^ 13) handPayment, 8⟩ ∧
      r.pool.revealQueue[handAddr 1]? = some ⟨handPayment, 8⟩ ∧
      r.node.state.charges.count { handCommit 1 2 (10 ^ 13) handPayment with height := 0 } = 2 ∧
      r.node.state.debits.count { handPayment with height := 0 } = 2))
    (fun _ _ => True) (by decide +kernel)
  exact ⟨r, injOn_byHand _ (by decide +kernel), hrun, by decide, by decide +kernel, of_decide_eq_true htest⟩

end NgCore
