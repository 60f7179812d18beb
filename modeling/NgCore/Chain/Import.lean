/-
# NgCore.Chain.Import — gossip in any order

`consensus/pow.go` (`ImportBlock`, `importOrphanChildren`) and `consensus/orphan_pool.go`: a gossiped block
whose parent is unknown is parked, and is applied when the parent lands, together with the parked blocks it
unlocks in turn.

The order of delivery then does not matter, as long as parents stay: `Settled` says that what was accepted so
far is EXACTLY what hangs together with the origin among the delivered blocks, and the tip is the best of it
(`NgCore.Chain.ForkChoice`), so two orders of the same blocks end with the same tip, and with it the same
chain. A side block that is pruned before its children arrive breaks this: they are parked for good.
-/
import NgCore.Chain.ForkChoice

namespace NgCore

open Lib (Bucket)
open Lib.Forest (Connected)
open BlockStore (Leads Sound)

/-! ## §1 — the orphan pool -/

/-- **`maxOrphanBlocks`** — the capacity of the pool. -/
def maxOrphanBlocks : Nat := 128

/-- **`PoWork`** — the consensus module: the chain, and the parked blocks in the order they were parked. -/
structure PoWork (S : Type) where
  chain : Node S
  orphans : List FullBlock

section Import

variable [Crypto] {S : Type} (L : Ledger S)

/-- **`addOrphan`** — `orphanPool.add`: overflow and duplicates are dropped. -/
def addOrphan (block : FullBlock) (orphans : List FullBlock) : Option (List FullBlock) :=
  if maxOrphanBlocks ≤ orphans.length then none
  else if orphans.any fun o => o.getPrevHash = block.getPrevHash ∧ o.getHash = block.getHash then none
  else some (orphans ++ [block])

/-- **`takeOrphans`** — `orphanPool.take`: the blocks that wait for a parent, and those that are left. -/
def takeOrphans (parentHash : Bytes) (orphans : List FullBlock) : List FullBlock × List FullBlock :=
  orphans.partition fun o => o.getPrevHash = parentHash

namespace PoWork

/-- **`importOrphanChildren`** — the cascade over the parked blocks whose parent landed, with the blocks that
fail to apply (the code logs them). `now` is the clock when a block is applied. Every round takes a block
off the queue, so the queue and the pool bound the rounds. -/
def importOrphanChildren (now : FullBlock → Nat) :
    (rounds : Nat) → (queue : List FullBlock) → PoWork S → PoWork S × List FullBlock
  | 0, _, p => (p, [])
  | _ + 1, [], p => (p, [])
  | rounds + 1, child :: queue, p =>
    match p.chain.applyBlock L (now child) child with
    | .error _ =>
      let (p, dropped) := importOrphanChildren now rounds queue p
      (p, child :: dropped)
    | .ok chain =>
      let (children, orphans) := takeOrphans child.getHash.val p.orphans
      importOrphanChildren now rounds (queue ++ children) ⟨chain, orphans⟩

/-- **`importBlock`** — `ImportBlock`, with the parked blocks it dropped. While a sync holds the chain the
block is only parked. -/
def importBlock (syncing : Bool) (now : FullBlock → Nat) (block : FullBlock) (p : PoWork S) :
    Except Err (PoWork S × List FullBlock) :=
  if syncing = true then .ok (⟨p.chain, (addOrphan block p.orphans).getD p.orphans⟩, [])
  else
    match p.chain.applyBlock L (now block) block with
    | .error .prevBlockNotExist =>
      match addOrphan block p.orphans with
      | some orphans => .ok (⟨p.chain, orphans⟩, [])
      | none => .error .prevBlockNotExist
    | .error e => .error e
    | .ok chain =>
      let (children, orphans) := takeOrphans block.getHash.val p.orphans
      .ok (importOrphanChildren L now (children.length + orphans.length) children ⟨chain, orphans⟩)

/-- **`Receives`** — a delivery that rejects nothing: no error, no parked block dropped, and a block whose
parent is stored is applied, not parked. -/
structure Receives (now : FullBlock → Nat) (block : FullBlock) (p p' : PoWork S) : Prop where
  imported : importBlock L false now block p = .ok (p', [])
  applied : p.chain.store.blocks[block.getPrevHash]? ≠ none →
    ∃ chain, p.chain.applyBlock L (now block) block = .ok chain

/-- **`Delivers C start done p`** — the blocks `done`, delivered one after the other from `start`, each under
the condition `C` on what was delivered before, lead to `p`, and none is rejected. -/
inductive Delivers (C : List FullBlock → PoWork S → FullBlock → Prop) (start : PoWork S) :
    List FullBlock → PoWork S → Prop
  | nil : Delivers C start [] start
  | snoc {done : List FullBlock} {p p' : PoWork S} (now : FullBlock → Nat) {block : FullBlock} :
      Delivers C start done p → C done p block → Receives L now block p p' →
      Delivers C start (done ++ [block]) p'

/-- **`ParentKept`** — if the parent was delivered before, it is parked or still stored: it has not been
accepted and pruned again. -/
def ParentKept (done : List FullBlock) (p : PoWork S) (block : FullBlock) : Prop :=
  ∀ q ∈ done, q.getHash.val = block.getPrevHash →
    (∃ o ∈ p.orphans, o.getHash = q.getHash) ∨ p.chain.store.blocks[block.getPrevHash]? ≠ none

/-! ## §2 — what was accepted is what hangs together -/

variable {L}

/-- **`Settled H origin A done queue p`** — with `A` the accepted headers: every delivered block is accepted,
parked or queued; a parked block waits for a parent that is not accepted; the tip is the best accepted
block. -/
structure Settled (H : Set BlockHeader) (origin : BlockHeader) (A : Set BlockHeader)
    (done queue : List FullBlock) (p : PoWork S) : Prop where
  leads : ∃ tip, Leads H origin p.chain.store A tip
  root : origin ∈ A
  headers : ∀ b ∈ done, b.header ∈ H
  placed : ∀ b ∈ done, b.header ∈ A ∨ b ∈ p.orphans ∨ b ∈ queue
  accepted : ∀ a ∈ A, a = origin ∨ ∃ b ∈ done, b.header = a
  pooled : ∀ b, b ∈ p.orphans ∨ b ∈ queue → b ∈ done
  waiting : ∀ o ∈ p.orphans, ∀ a ∈ A, o.getPrevHash ≠ a.key
  parents : ∀ a ∈ A, a ≠ origin → ∃ q ∈ A, a.prevBlockHash = q.key
  weighs : ∀ a ∈ A, ∃ w, a.Weighs H origin w

namespace Settled

variable {H A : Set BlockHeader} {origin : BlockHeader} {done queue : List FullBlock} {p p' : PoWork S}
  {block : FullBlock}

theorem subset (h : Settled H origin A done queue p) (horigin : origin ∈ H) : A ⊆ H := by
  intro a ha
  rcases h.accepted a ha with rfl | ⟨b, hb, rfl⟩
  · exact horigin
  · exact h.headers b hb

/-- With nothing queued, the accepted headers are those connected to the origin. -/
theorem eq_connected (hinj : Set.InjOn BlockHeader.getHash H) (horigin : origin ∈ H)
    (h : Settled H origin A done [] p) :
    A = {x | Connected BlockHeader.key BlockHeader.prevBlockHash origin
      {x | ∃ b ∈ done, b.header = x} x} := by
  refine Lib.Forest.eq_connected (BlockHeader.injOn_key hinj) (h.subset horigin) h.root h.accepted
    h.weighs h.parents ?_
  rintro c ⟨b, hb, rfl⟩ q hq hup
  rcases h.placed b hb with hA | hparked | hqueued
  · exact hA
  · exact absurd hup (h.waiting b hparked q hq)
  · exact absurd hqueued List.not_mem_nil

/-- **A queued block is applied**: it joins the accepted ones, and the parked blocks that wait for it join the
queue. -/
theorem apply {now : Nat} {chain : Node S} (hinj : Set.InjOn BlockHeader.getHash H)
    (hgen : L.isGenesis block = .ok true → block.getHeight = 0)
    (h : Settled H origin A done (block :: queue) p)
    (hok : p.chain.applyBlock L now block = .ok chain) :
    Settled H origin (insert block.header A) done
      (queue ++ (takeOrphans block.getHash.val p.orphans).1)
      ⟨chain, (takeOrphans block.getHash.val p.orphans).2⟩ := by
  obtain ⟨tip, hleads⟩ := h.leads
  have hdone : block ∈ done := h.pooled block (.inr List.mem_cons_self)
  obtain ⟨tip', hleads', hparent⟩ := Node.applyBlock_leads hinj hgen hleads (h.headers block hdone) hok
  have htaken : ∀ o, o ∈ (takeOrphans block.getHash.val p.orphans).1 ↔
      o ∈ p.orphans ∧ o.getPrevHash = block.getHash.val := by
    intro o
    simp [takeOrphans]
  have hleft : ∀ o, o ∈ (takeOrphans block.getHash.val p.orphans).2 ↔
      o ∈ p.orphans ∧ o.getPrevHash ≠ block.getHash.val := by
    intro o
    simp [takeOrphans]
  refine ⟨⟨tip', hleads'⟩, .inr h.root, h.headers, ?_, ?_, ?_, ?_, ?_, ?_⟩
  · intro b hb
    rcases h.placed b hb with hA | hparked | hqueued
    · exact .inl (.inr hA)
    · by_cases hprev : b.getPrevHash = block.getHash.val
      · exact .inr (.inr (List.mem_append_right _ ((htaken b).mpr ⟨hparked, hprev⟩)))
      · exact .inr (.inl ((hleft b).mpr ⟨hparked, hprev⟩))
    · rcases List.mem_cons.mp hqueued with rfl | hqueued
      · exact .inl (.inl rfl)
      · exact .inr (.inr (List.mem_append_left _ hqueued))
  · rintro a (rfl | ha)
    · exact .inr ⟨block, hdone, rfl⟩
    · exact h.accepted a ha
  · rintro b (hb | hb)
    · exact h.pooled b (.inl ((hleft b).mp hb).1)
    · rcases List.mem_append.mp hb with hb | hb
      · exact h.pooled b (.inr (List.mem_cons_of_mem _ hb))
      · exact h.pooled b (.inl ((htaken b).mp hb).1)
  · rintro o ho a (rfl | ha)
    · exact ((hleft o).mp ho).2
    · exact h.waiting o ((hleft o).mp ho).1 a ha
  · rintro a (rfl | ha) hne
    · obtain ⟨q, hq, hup⟩ := hparent
      exact ⟨q, .inr hq, hup⟩
    · obtain ⟨q, hq, hup⟩ := h.parents a ha hne
      exact ⟨q, .inr hq, hup⟩
  · rintro a (rfl | ha)
    · -- its parent has a weight, and it is not lighter than the origin
      by_cases hne : block.header = origin
      · rw [hne]
        exact h.weighs origin h.root
      · obtain ⟨q, hq, hup⟩ := hparent
        obtain ⟨w, hw⟩ := h.weighs q hq
        exact ⟨_, .child hw (h.subset hleads.tallied.originMem hq) hup hne⟩
    · exact h.weighs a ha

/-- **The cascade empties the queue.** The queue and the pool together bound the rounds. -/
theorem importOrphanChildren {now : FullBlock → Nat} {rounds : Nat}
    (hinj : Set.InjOn BlockHeader.getHash H)
    (hgen : ∀ b ∈ done, L.isGenesis b = .ok true → b.getHeight = 0)
    (h : Settled H origin A done queue p) (hrounds : queue.length + p.orphans.length ≤ rounds)
    (hok : PoWork.importOrphanChildren L now rounds queue p = (p', [])) :
    ∃ A', Settled H origin A' done [] p' := by
  induction rounds generalizing queue p A with
  | zero =>
    obtain rfl : queue = [] := List.length_eq_zero_iff.mp (by omega)
    obtain ⟨rfl, _⟩ := Prod.mk.inj hok
    exact ⟨A, h⟩
  | succ rounds ih =>
    cases queue with
    | nil =>
      obtain ⟨rfl, _⟩ := Prod.mk.inj hok
      exact ⟨A, h⟩
    | cons child queue =>
      rw [PoWork.importOrphanChildren] at hok
      cases happly : p.chain.applyBlock L (now child) child with
      | error e =>
        rw [happly] at hok
        cases (Prod.mk.inj hok).2
      | ok chain =>
        rw [happly] at hok
        have hdone := h.pooled child (.inr List.mem_cons_self)
        refine ih (h.apply hinj (hgen child hdone) happly) ?_ hok
        have hlen : (takeOrphans child.getHash.val p.orphans).1.length +
            (takeOrphans child.getHash.val p.orphans).2.length = p.orphans.length := by
          simp only [takeOrphans, List.partition_eq_filter_filter]
          exact (List.length_eq_length_filter_add _).symm
        simp only [List.length_cons, List.length_append] at hrounds ⊢
        omega

/-- **One delivery.** -/
theorem receives {now : FullBlock → Nat} (hinj : Set.InjOn BlockHeader.getHash H)
    (hgen : ∀ b ∈ done ++ [block], L.isGenesis b = .ok true → b.getHeight = 0) (hb : block.header ∈ H)
    (h : Settled H origin A done [] p) (hkept : ParentKept done p block)
    (hstep : Receives L now block p p') : ∃ A', Settled H origin A' (done ++ [block]) [] p' := by
  -- handed over, the block is one more in the queue
  have hqueued : Settled H origin A (done ++ [block]) [block] p := by
    refine ⟨h.leads, h.root, ?_, ?_, ?_, ?_, h.waiting, h.parents, h.weighs⟩
    · intro b hmem
      rcases List.mem_append.mp hmem with hmem | hmem
      · exact h.headers b hmem
      · obtain rfl := List.mem_singleton.mp hmem
        exact hb
    · intro b hmem
      rcases List.mem_append.mp hmem with hmem | hmem
      · rcases h.placed b hmem with hA | hparked | hq
        · exact .inl hA
        · exact .inr (.inl hparked)
        · exact absurd hq List.not_mem_nil
      · exact .inr (.inr hmem)
    · intro a ha
      rcases h.accepted a ha with hroot | ⟨b, hmem, hheader⟩
      · exact .inl hroot
      · exact .inr ⟨b, List.mem_append_left _ hmem, hheader⟩
    · rintro b (hparked | hq)
      · exact List.mem_append_left _ (h.pooled b (.inl hparked))
      · exact List.mem_append_right _ hq
  obtain ⟨himport, happlied⟩ := hstep
  unfold importBlock at himport
  rw [if_neg (by simp)] at himport
  cases happly : p.chain.applyBlock L (now block) block with
  | ok chain =>
    rw [happly] at himport
    have hsettled := hqueued.apply hinj (hgen block (by simp)) happly
    change Except.ok (PoWork.importOrphanChildren L now
      ((takeOrphans block.getHash.val p.orphans).1.length +
        (takeOrphans block.getHash.val p.orphans).2.length) _ _) = .ok (p', []) at himport
    exact hsettled.importOrphanChildren hinj hgen le_rfl (Except.ok.inj himport)
  | error e =>
    -- parked: the parent is not stored, so it has not been accepted
    have hunknown : p.chain.store.blocks[block.getPrevHash]? = none := by
      by_contra hstored
      obtain ⟨chain, hok⟩ := happlied hstored
      rw [happly] at hok
      cases hok
    have hparked : ∃ orphans, addOrphan block p.orphans = some orphans ∧ p' = ⟨p.chain, orphans⟩ := by
      rw [happly] at himport
      cases e <;> try cases himport
      dsimp only at himport
      cases hadd : addOrphan block p.orphans with
      | none =>
        rw [hadd] at himport
        cases himport
      | some orphans =>
        rw [hadd] at himport
        exact ⟨orphans, rfl, (Prod.mk.inj (Except.ok.inj himport)).1.symm⟩
    obtain ⟨orphans, hadd, rfl⟩ := hparked
    obtain rfl : orphans = p.orphans ++ [block] := by
      unfold addOrphan at hadd
      split at hadd
      · cases hadd
      · split at hadd
        · cases hadd
        · exact (Option.some_injective _ hadd).symm
    have hwaits : ∀ a ∈ A, block.getPrevHash ≠ a.key := by
      intro a ha hup
      obtain ⟨tip, hleads⟩ := h.leads
      rcases h.accepted a ha with rfl | ⟨q, hq, rfl⟩
      · exact hleads.origin_stored (hup ▸ hunknown)
      · rcases hkept q hq hup.symm with ⟨o, ho, hsame⟩ | hstored
        · -- it cannot be parked: its own parent has been accepted
          have hheader : o.header = q.header :=
            hinj (h.headers o (h.pooled o (.inl ho))) (h.headers q hq) hsame
          by_cases hroot : q.header = origin
          · exact hleads.origin_stored (hroot ▸ hup ▸ hunknown)
          · obtain ⟨r, hr, hupr⟩ := h.parents q.header ha hroot
            refine h.waiting o ho r hr ?_
            show o.header.prevBlockHash = r.key
            rw [hheader]
            exact hupr
        · exact hstored hunknown
    refine ⟨A, h.leads, h.root, hqueued.headers, ?_, hqueued.accepted, ?_, ?_, h.parents, h.weighs⟩
    · intro b hmem
      rcases hqueued.placed b hmem with hA | hin | hin
      · exact .inl hA
      · exact .inr (.inl (List.mem_append_left _ hin))
      · exact .inr (.inl (List.mem_append_right _ hin))
    · rintro b (hin | hin)
      · rcases List.mem_append.mp hin with hin | hin
        · exact hqueued.pooled b (.inl hin)
        · exact hqueued.pooled b (.inr hin)
      · exact absurd hin List.not_mem_nil
    · intro o ho a ha
      rcases List.mem_append.mp ho with ho | ho
      · exact h.waiting o ho a ha
      · obtain rfl := List.mem_singleton.mp ho
        exact hwaits a ha

end Settled
end PoWork

/-! ## §3 — the tip determines the chain -/

/-- **Two sound stores with one tip have one height index.** -/
theorem BlockStore.Sound.heights_eq {H : Set BlockHeader} {s s' : BlockStore} {tip tip' : FullBlock}
    (hinj : Set.InjOn BlockHeader.getHash H) (h : Sound H s tip) (h' : Sound H s' tip')
    (htip : tip.header = tip'.header) (hzero : s.originHeight = 0) (hzero' : s'.originHeight = 0) (k : Nat) :
    s.heights[k]? = s'.heights[k]? := by
  have hheight : tip'.getHeight = tip.getHeight := (congrArg BlockHeader.height htip).symm
  -- from the tip down, parent by parent
  have hdown : ∀ j, j ≤ tip.getHeight →
      s.heights[tip.getHeight - j]? = s'.heights[tip.getHeight - j]? := by
    intro j
    induction j with
    | zero =>
      intro _
      rw [Nat.sub_zero, h.top, ← hheight, h'.top]
      exact congrArg (fun x : BlockHeader => some x.getHash.val) htip
    | succ j ih =>
      intro hj
      obtain ⟨b, hindex, hbody, _, hprev⟩ := h.canonical (tip.getHeight - j) (by omega) (by omega)
      obtain ⟨b', hindex', hbody', _, hprev'⟩ := h'.canonical (tip.getHeight - j) (by omega) (by omega)
      have hsame := ih (by omega)
      rw [hindex, hindex'] at hsame
      have hheader : b.header = b'.header :=
        hinj (h.headers _ _ hbody) (h'.headers _ _ hbody') (Subtype.ext (Option.some_injective _ hsame))
      rw [show tip.getHeight - (j + 1) = tip.getHeight - j - 1 by omega, hprev (by omega), hprev' (by omega)]
      exact congrArg (fun x : BlockHeader => some x.prevBlockHash) hheader
  by_cases hk : k ≤ tip.getHeight
  · have := hdown (tip.getHeight - k) (by omega)
    rwa [show tip.getHeight - (tip.getHeight - k) = k by omega] at this
  · rw [h.above k (by omega), h'.above k (by omega)]

end Import

/-! ## §4 — runs -/

section Reach

variable [Engine] {cfg : Config} {H : Set BlockHeader}

/-- The invariant of fork choice along runs of `ApplyBlock` calls. -/
theorem Node.Gossips.leads {n n' : Node State} {origin : BlockHeader}
    (hinj : Set.InjOn BlockHeader.getHash (genesisHeaders ∪ H))
    (h : ∃ A tip, n.store.Leads (genesisHeaders ∪ H) origin A tip)
    (hrun : Relation.ReflTransGen (Node.Gossips cfg H) n n') :
    ∃ A tip, n'.store.Leads (genesisHeaders ∪ H) origin A tip := by
  induction hrun with
  | refl => exact h
  | @tail n n' _ hstep ih =>
    obtain ⟨A, tip, hleads⟩ := ih
    obtain ⟨now, block, hb, rfl⟩ := hstep
    cases hok : n.applyBlock (ledger cfg) now block with
    | error e => exact ⟨A, tip, hleads⟩
    | ok n' =>
      obtain ⟨tip', hleads', _⟩ :=
        Node.applyBlock_leads hinj (height_of_isGenesis hinj (.inr hb)) hleads (.inr hb) hok
      exact ⟨_, tip', hleads'⟩

theorem PoWork.Delivers.settled {n : Node State} {done : List FullBlock} {p : PoWork State}
    {genesis : FullBlock} (hinj : Set.InjOn BlockHeader.getHash (genesisHeaders ∪ H))
    (hleads : n.store.Leads (genesisHeaders ∪ H) genesis.header {genesis.header} genesis)
    (hH : ∀ b ∈ done, b.header ∈ H) (h : Delivers (ledger cfg) ParentKept ⟨n, []⟩ done p) :
    ∃ A, p.Settled (genesisHeaders ∪ H) genesis.header A done [] := by
  induction h with
  | nil =>
    refine ⟨{genesis.header}, ⟨genesis, hleads⟩, rfl, ?_, ?_, ?_, ?_, ?_, ?_, ?_⟩
    · exact fun b hb => absurd hb List.not_mem_nil
    · exact fun b hb => absurd hb List.not_mem_nil
    · exact fun a ha => .inl ha
    · rintro b (hb | hb) <;> exact absurd hb List.not_mem_nil
    · exact fun o ho => absurd ho List.not_mem_nil
    · exact fun a ha hne => absurd ha hne
    · rintro a rfl
      exact ⟨_, .root⟩
  | @snoc done p p' now block _ hkept hstep ih =>
    obtain ⟨A, hsettled⟩ := ih fun b hb => hH b (List.mem_append_left _ hb)
    have hgen : ∀ b ∈ done ++ [block], (ledger cfg).isGenesis b = .ok true → b.getHeight = 0 :=
      fun b hb => height_of_isGenesis hinj (.inr (hH b hb))
    exact hsettled.receives hinj hgen (.inr (hH block (by simp))) hkept hstep

/-- **Fork choice does not depend on the order of delivery.** After every run of `ApplyBlock` calls the tip is
the best stored block; and two orders of the same blocks that reject none, in which no parent is accepted and
pruned before a child arrives, end with the same canonical chain. -/
theorem PoWork.fork_choice_confluent (hinj : Set.InjOn BlockHeader.getHash (genesisHeaders ∪ H))
    {n : Node State} {genesis : FullBlock} (hn : Node.genesis cfg = .ok n)
    (hgenesis : getGenesisBlock cfg.network = .ok genesis) :
    (∀ n', Relation.ReflTransGen (Node.Gossips cfg H) n n' →
      n'.store.TipBest (genesisHeaders ∪ H) genesis.header) ∧
    ∀ done done' p p', (∀ b, b ∈ done ↔ b ∈ done') → (∀ b ∈ done, b.header ∈ H) →
      Delivers (ledger cfg) ParentKept ⟨n, []⟩ done p →
      Delivers (ledger cfg) ParentKept ⟨n, []⟩ done' p' →
      p.chain.store.latestHash = p'.chain.store.latestHash ∧
        ∀ k : Nat, p.chain.store.heights[k]? = p'.chain.store.heights[k]? := by
  obtain ⟨g, hg, hleads⟩ := Node.leads_genesis (H := H) hn
  obtain rfl : g = genesis := Except.ok.inj (hg.symm.trans hgenesis)
  constructor
  · intro n' hrun
    obtain ⟨A, tip, h⟩ := Node.Gossips.leads hinj ⟨_, _, hleads⟩ hrun
    exact h.tipBest
  · intro done done' p p' hsame hH hdone hdone'
    obtain ⟨A, h⟩ := hdone.settled hinj hleads hH
    obtain ⟨A', h'⟩ := hdone'.settled hinj hleads fun b hb => hH b ((hsame b).mpr hb)
    obtain ⟨tip, hlead⟩ := h.leads
    obtain ⟨tip', hlead'⟩ := h'.leads
    have horigin := hlead.tallied.originMem
    -- the same blocks hang together with the origin, and only one of them is best
    have hA : A = A' := by
      rw [h.eq_connected hinj horigin, h'.eq_connected hinj horigin]
      simp only [hsame]
    have htip : tip.header = tip'.header := by
      have hbest := hlead.best
      rw [hA] at hbest
      exact hbest.unique hlead'.best
    refine ⟨?_, ?_⟩
    · rw [hlead.sound.latestHash, hlead'.sound.latestHash]
      exact congrArg (fun x : BlockHeader => x.getHash.val) htip
    · have hzero : g.header.height = 0 := getGenesisBlock_height hgenesis
      exact hlead.sound.heights_eq hinj hlead'.sound htip
        ((Node.originHeight_eq hinj hlead.tallied hlead.sound).trans hzero)
        ((Node.originHeight_eq hinj hlead'.tallied hlead'.sound).trans hzero)

end Reach

/-! ## §5 — deliveries by hand -/

namespace Ledger.Agrees

variable [Crypto] {S : Type} {I : S → Prop} {L L' : Ledger S}

theorem importOrphanChildren (h : Agrees I L L') (now : FullBlock → Nat) (rounds : Nat)
    (queue : List FullBlock) {p : PoWork S} (hs : I p.chain.state) :
    PoWork.importOrphanChildren L now rounds queue p = PoWork.importOrphanChildren L' now rounds queue p ∧
      I (PoWork.importOrphanChildren L now rounds queue p).1.chain.state := by
  induction rounds generalizing queue p with
  | zero => exact ⟨rfl, hs⟩
  | succ rounds ih =>
    cases queue with
    | nil => exact ⟨rfl, hs⟩
    | cons child queue =>
      obtain ⟨heq, hkeep⟩ := h.applyBlock (now child) child hs
      simp only [PoWork.importOrphanChildren, ← heq]
      cases hok : p.chain.applyBlock L (now child) child with
      | error e =>
        obtain ⟨hsame, hstate⟩ := ih queue hs
        exact ⟨by rw [hsame], hstate⟩
      | ok chain => exact ih _ (hkeep chain hok)

theorem importBlock (h : Agrees I L L') (syncing : Bool) (now : FullBlock → Nat) (block : FullBlock)
    {p : PoWork S} (hs : I p.chain.state) :
    p.importBlock L syncing now block = p.importBlock L' syncing now block ∧
      ∀ p' dropped, p.importBlock L syncing now block = .ok (p', dropped) → I p'.chain.state := by
  obtain ⟨heq, hkeep⟩ := h.applyBlock (now block) block hs
  unfold PoWork.importBlock
  rw [← heq]
  split
  · refine ⟨rfl, fun p' dropped hok => ?_⟩
    obtain ⟨rfl, _⟩ := Prod.mk.inj (Except.ok.inj hok)
    exact hs
  · cases hok : p.chain.applyBlock L (now block) block with
    | ok chain =>
      obtain ⟨hsame, hstate⟩ := h.importOrphanChildren now
        ((takeOrphans block.getHash.val p.orphans).1.length +
          (takeOrphans block.getHash.val p.orphans).2.length)
        (takeOrphans block.getHash.val p.orphans).1
        (p := ⟨chain, (takeOrphans block.getHash.val p.orphans).2⟩) (hkeep chain hok)
      refine ⟨congrArg Except.ok hsame, fun p' dropped himport => ?_⟩
      have hp : (_, _) = (p', dropped) := Except.ok.inj himport
      rw [← (Prod.mk.inj hp).1]
      exact hstate
    | error e =>
      refine ⟨by cases e <;> rfl, fun p' dropped himport => ?_⟩
      cases e <;> try cases himport
      dsimp only at himport
      split at himport
      · obtain ⟨rfl, _⟩ := Prod.mk.inj (Except.ok.inj himport)
        exact hs
      · cases himport

end Ledger.Agrees

namespace PoWork

instance [Crypto] {S : Type} (done : List FullBlock) (p : PoWork S) (block : FullBlock) :
    Decidable (ParentKept done p block) :=
  inferInstanceAs (Decidable (∀ q ∈ done, q.getHash.val = block.getPrevHash →
    (∃ o ∈ p.orphans, o.getHash = q.getHash) ∨ p.chain.store.blocks[block.getPrevHash]? ≠ none))

theorem applied_of_importBlock [Crypto] {S : Type} {L : Ledger S} {now : FullBlock → Nat}
    {block : FullBlock} {p p' : PoWork S} {dropped : List FullBlock}
    (h : importBlock L false now block p = .ok (p', dropped)) (hlen : p'.orphans.length ≤ p.orphans.length) :
    ∃ chain, p.chain.applyBlock L (now block) block = .ok chain := by
  unfold importBlock at h
  rw [if_neg (by simp)] at h
  cases hok : p.chain.applyBlock L (now block) block with
  | ok chain => exact ⟨chain, rfl⟩
  | error e =>
    rw [hok] at h
    cases e <;> try cases h
    dsimp only at h
    cases hadd : addOrphan block p.orphans with
    | none =>
      rw [hadd] at h
      cases h
    | some orphans =>
      rw [hadd] at h
      obtain ⟨rfl, _⟩ := Prod.mk.inj (Except.ok.inj h)
      unfold addOrphan at hadd
      split at hadd
      · cases hadd
      · split at hadd
        · cases hadd
        · cases hadd
          simp at hlen

section Deliver

variable [Crypto] {S : Type} (L : Ledger S) (now : FullBlock → Nat)
  (test : List FullBlock → PoWork S → FullBlock → Bool)

/-- Deliveries one after the other, each under a test, none refused. -/
def deliver : (done : List FullBlock) → List FullBlock → PoWork S → Except Err (PoWork S)
  | _, [], p => .ok p
  | done, block :: blocks, p => do
    ensure (test done p block = true) .panic
    let (p', dropped) ← p.importBlock L false now block
    ensure (dropped = [] ∧ (p.chain.store.blocks[block.getPrevHash]? = none ∨
      p'.orphans.length ≤ p.orphans.length)) .panic
    deliver (done ++ [block]) blocks p'

variable {L now test}

theorem delivers_of_deliver {C : List FullBlock → PoWork S → FullBlock → Prop}
    (hC : ∀ done p block, test done p block = true → C done p block) {start p p' : PoWork S}
    {done blocks : List FullBlock} (h : Delivers L C start done p)
    (hrun : deliver L now test done blocks p = .ok p') : Delivers L C start (done ++ blocks) p' := by
  induction blocks generalizing done p with
  | nil =>
    rw [List.append_nil, ← Except.ok.inj hrun]
    exact h
  | cons block blocks ih =>
    rw [deliver] at hrun
    obtain ⟨_, htest, hstep⟩ := bind_eq_ok.mp hrun
    obtain ⟨⟨q, dropped⟩, himport, hstep⟩ := bind_eq_ok.mp hstep
    obtain ⟨_, hkept, hrest⟩ := bind_eq_ok.mp hstep
    obtain ⟨hdropped, hknown⟩ := ensure_eq_ok.mp hkept
    rw [hdropped] at himport
    have hreceives : Receives L now block p q := by
      refine ⟨himport, fun hstored => ?_⟩
      exact applied_of_importBlock himport (hknown.resolve_left hstored)
    rw [List.append_cons]
    exact ih (h.snoc now (hC done p block (ensure_eq_ok.mp htest)) hreceives) hrest

end Deliver
end PoWork

theorem Ledger.Agrees.deliver [Crypto] {S : Type} {I : S → Prop} {L L' : Ledger S} (h : Agrees I L L')
    (now : FullBlock → Nat) (test : List FullBlock → PoWork S → FullBlock → Bool)
    (done blocks : List FullBlock) {p : PoWork S} (hs : I p.chain.state) :
    PoWork.deliver L now test done blocks p = PoWork.deliver L' now test done blocks p := by
  induction blocks generalizing done p with
  | nil => rfl
  | cons block blocks ih =>
    obtain ⟨heq, hkeep⟩ := h.importBlock false now block hs
    rw [PoWork.deliver, PoWork.deliver, ← heq]
    cases himport : p.importBlock L false now block with
    | error e => simp only [bind, Except.bind]
    | ok r =>
      obtain ⟨q, dropped⟩ := r
      simp only [bind, Except.bind, ih (done ++ [block]) (hkeep q dropped himport)]

namespace PoWork

/-- A fresh node with an empty pool. -/
def handFresh [Engine] : PoWork State := ⟨handNode false, []⟩

/-- The blocks of two miners from genesis, in two orders: the first miner's chain, which is longer by one
block, before the second's; and its first block, the second chain, the rest. -/
def handOrder [Crypto] : List FullBlock := handChain 1 41 handGenesis ++ handChain 2 40 handGenesis

def handOrderLate [Crypto] : List FullBlock :=
  (handChain 1 41 handGenesis).take 1 ++ (handChain 2 40 handGenesis ++ (handChain 1 41 handGenesis).drop 1)

theorem run_handOrder :
    letI := Engine.bare
    (okAnd (deliver (handLedger ⟨ZERONET, false⟩) (fun _ => handNow) (fun _ _ _ => true) [] handOrder
        handFresh) (fun p => p.chain.store.latestHeight = 41) &&
      Bucket.apart ((handGenesisHeaders ++ handOrder.map FullBlock.header).map BlockHeader.getHash) ∅) = true := by
  rw [@handLedger_eq_swift (Engine.bare)]
  decide +kernel

theorem run_handOrderLate :
    letI := Engine.bare
    okAnd (deliver (handLedger ⟨ZERONET, false⟩) (fun _ => handNow) (fun _ _ _ => true) [] handOrderLate
      handFresh) (fun p => p.chain.store.latestHeight = 40) = true := by
  rw [@handLedger_eq_swift (Engine.bare)]
  decide +kernel

/-- An accepted run of the hand-made ledger, as deliveries to a fresh node. -/
theorem exists_delivers_byHand (modules : Bytes → Option Module)
    (C : List FullBlock → PoWork State → FullBlock → Prop)
    (test : List FullBlock → PoWork State → FullBlock → Bool) (blocks : List FullBlock)
    (last : PoWork State → Bool) (hC : ∀ done p block, test done p block = true → C done p block) :
    letI := Engine.byHand modules
    okAnd (deliver (handLedger ⟨ZERONET, false⟩) (fun _ => handNow) test [] blocks handFresh) last = true →
      ∃ p, Delivers (ledger ⟨ZERONET, false⟩) C handFresh blocks p ∧ last p = true := by
  let _ := Engine.byHand modules
  intro h
  obtain ⟨p, hrun, hlast⟩ := exists_of_okAnd h
  have heq := (handLedger_agrees modules ⟨ZERONET, false⟩).deliver (fun _ => handNow) test [] blocks
    (p := handFresh) (committed_handNode modules false)
  exact ⟨p, delivers_of_deliver hC .nil (heq.trans hrun), hlast⟩

/-- A child before its parent: parked, then applied, and the chain is the same. -/
theorem fork_choice_confluent_handChain :
    letI := Engine.bare
    ∃ p p' : PoWork State, p.chain.store.latestHeight = 2 ∧ p'.orphans = [] ∧
      Delivers (ledger ⟨ZERONET, false⟩) ParentKept handFresh (handChain 1 2 handGenesis) p ∧
      Delivers (ledger ⟨ZERONET, false⟩) ParentKept handFresh (handChain 1 2 handGenesis).reverse p' ∧
      p.chain.store.latestHash = p'.chain.store.latestHash ∧
      ∀ k : Nat, p.chain.store.heights[k]? = p'.chain.store.heights[k]? := by
  let _ := Engine.bare
  obtain ⟨p, hp, hlast⟩ := exists_delivers_byHand (fun _ => none) ParentKept
    (fun done p block => decide (ParentKept done p block)) (handChain 1 2 handGenesis)
    (fun p => p.chain.store.latestHeight = 2) (fun _ _ _ h => of_decide_eq_true h) (by decide +kernel)
  obtain ⟨p', hp', hlast'⟩ := exists_delivers_byHand (fun _ => none) ParentKept
    (fun done p block => decide (ParentKept done p block)) (handChain 1 2 handGenesis).reverse
    (fun p => p.orphans.isEmpty) (fun _ _ _ h => of_decide_eq_true h) (by decide +kernel)
  have hinj : Set.InjOn BlockHeader.getHash
      (genesisHeaders ∪ {x | x ∈ (handChain 1 2 handGenesis).map FullBlock.header}) :=
    injOn_byHand _ (by decide +kernel)
  have hgenesis : getGenesisBlock ZERONET = .ok handGenesis := getGenesisBlock_byHand _ ZERONET
  obtain ⟨_, hconfluent⟩ := fork_choice_confluent hinj (genesis_byHand _ false) hgenesis
  refine ⟨p, p', of_decide_eq_true hlast, List.isEmpty_iff.mp hlast', hp, hp', ?_⟩
  exact hconfluent _ _ p p' (fun b => List.mem_reverse.symm) (fun b hb => List.mem_map_of_mem hb) hp hp'

/-- **The order of delivery decides**: the first block of the longer chain becomes a side block and is pruned,
the other forty stay parked for good, and the node ends on the shorter chain. Nothing is rejected in either
order. -/
theorem fork_choice_order_dependent :
    letI := Engine.bare
    ∃ p p' : PoWork State, Node.genesis ⟨ZERONET, false⟩ = .ok (handNode false) ∧
      Set.InjOn BlockHeader.getHash (genesisHeaders ∪ {x | x ∈ handOrder.map FullBlock.header}) ∧
      handOrder.Perm handOrderLate ∧
      Delivers (ledger ⟨ZERONET, false⟩) (fun _ _ _ => True) ⟨handNode false, []⟩ handOrder p ∧
      Delivers (ledger ⟨ZERONET, false⟩) (fun _ _ _ => True) ⟨handNode false, []⟩ handOrderLate p' ∧
      p.chain.store.latestHeight = 41 ∧ p'.chain.store.latestHeight = 40 := by
  let _ := Engine.bare
  rcases Bool.and_eq_true_iff.mp run_handOrder with ⟨htip, hapart⟩
  rcases exists_delivers_byHand (fun _ => none) (fun _ _ _ => True) (fun _ _ _ => true)
    handOrder _ (fun _ _ _ _ => trivial) htip with ⟨p, hp, hlast⟩
  rcases exists_delivers_byHand (fun _ => none) (fun _ _ _ => True)
    (fun _ _ _ => true) handOrderLate _ (fun _ _ _ _ => trivial) run_handOrderLate with ⟨p', hp', hlast'⟩
  have hperm : handOrder.Perm handOrderLate := by
    unfold handOrder handOrderLate
    conv_lhs => rw [← List.take_append_drop 1 (handChain 1 41 handGenesis), List.append_assoc]
    exact List.Perm.append_left _ List.perm_append_comm
  exact ⟨p, p', genesis_byHand _ false, injOn_byHand _ (Bucket.nodup_of_apart hapart).1, hperm, hp, hp',
    of_decide_eq_true hlast, of_decide_eq_true hlast'⟩

/-- Both orders deliver the same eighty-one blocks. -/
example :
    letI := Crypto.ofHash handHash
    handOrder.length = 81 ∧ handOrderLate.length = 81 := by
  decide +kernel

end PoWork
end NgCore
