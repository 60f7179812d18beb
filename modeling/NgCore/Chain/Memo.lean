/-
# NgCore.Chain.Memo — the work of every stored block

`cumulativeWork` answers for a stored block when its walk meets a memoized value or the origin before it meets a
parent that is not stored. Canonical blocks have their ancestors; a side block may have lost its parent to pruning
and needs a value of its own. `ApplyBlock` weighs every block it stores. `Chain.SwitchToBranch` does not weigh the
branch: its blocks are weighed on demand, from the tip down to the first memoized value.

* `Booked`: side blocks are weighed, and a weighed block has a weighed parent if the parent is stored. Then weighing
  the tip weighs the canonical chain, so what a reorganisation demotes is weighed.
* A branch that brings a pruned block back UNDER a weighed child breaks this: the walk from the tip stops at the child.
  `BlockStore.Refills` is that case; without it every stored block has its work (`Node.work_exact`), with it there is a
  run after which stored blocks have none (`Node.work_lost`).

DELIVERABLE: `Node.work_exact`.
-/
import NgCore.Chain.Ranked
import NgCore.Chain.Handmade

namespace NgCore

open Lib (Bucket)

/-! ## §1 — what a walk records -/

namespace BlockStore

variable [Crypto] {H : Set BlockHeader} {s s' : BlockStore} {tip block : FullBlock}

omit [Crypto] in
/-- **`s.Recorded h`** — the work of the block `h` is memoized. -/
def Recorded (s : BlockStore) (h : Bytes) : Prop := s.work[h]? ≠ none

theorem recorded_foldl_memoWork (l : List FullBlock) (acc : Nat × BlockStore) (h : Bytes) :
    (l.foldl memoWork acc).2.Recorded h ↔ acc.2.Recorded h ∨ ∃ c ∈ l, c.getHash.val = h := by
  induction l generalizing acc with
  | nil => simp
  | cons c l ih =>
    rw [List.foldl_cons, ih]
    have hone : (memoWork acc c).2.Recorded h ↔ acc.2.Recorded h ∨ c.getHash.val = h := by
      show (acc.2.work.insert c.getHash.val _)[h]? ≠ none ↔ acc.2.work[h]? ≠ none ∨ _
      rw [Bucket.get_insert]
      split
      · next heq => simp [heq]
      · next hne => simp [hne]
    rw [hone, List.exists_mem_cons_iff, or_assoc]

/-- The blocks a walk passes are stored, and the parent of each is passed, memoized, or below the origin. -/
theorem pendingWork_walked (hkeyed : ∀ (h : Bytes) (b : FullBlock), s.blocks[h]? = some b → b.getHash.val = h)
    {fuel base : Nat} {cur : FullBlock} {pending l : List FullBlock} (hcur : s.blocks[cur.getHash.val]? = some cur)
    (hok : s.pendingWork fuel cur pending = .ok (base, l)) :
    ∃ walked, l = walked ++ pending ∧ (s.Recorded cur.getHash.val ∨ cur ∈ walked) ∧
      ∀ c ∈ walked, s.blocks[c.getHash.val]? = some c ∧
        (c.getHash.val = s.originHash ∨ s.Recorded c.getPrevHash ∨ ∃ d ∈ walked, d.getHash.val = c.getPrevHash) := by
  induction fuel generalizing cur pending with
  | zero => cases hok
  | succ fuel ih =>
    rw [pendingWork] at hok
    cases hmemo : s.work[cur.getHash.val]? with
    | some w =>
      rw [hmemo] at hok
      cases hok
      refine ⟨[], rfl, .inl ?_, fun c hc => by cases hc⟩
      unfold Recorded
      rw [hmemo]
      exact Option.some_ne_none _
    | none =>
      rw [hmemo] at hok
      dsimp only at hok
      split at hok
      · next horigin =>
        cases hok
        refine ⟨[cur], rfl, .inr List.mem_cons_self, fun c hc => ?_⟩
        obtain rfl := List.mem_singleton.mp hc
        exact ⟨hcur, .inl horigin⟩
      · rcases bind_eq_ok.mp hok with ⟨parent, hparent, hok⟩
        have hbody := getBlockByHash_eq_ok.mp hparent
        have hkey := hkeyed _ _ hbody
        rcases ih (hkey ▸ hbody) hok with ⟨walked, rfl, hhead, hall⟩
        refine ⟨walked ++ [cur], by simp, .inr (by simp), fun c hc => ?_⟩
        rcases List.mem_append.mp hc with hc | hc
        · rcases hall c hc with ⟨hstored, horigin | hrecorded | ⟨d, hd, hhash⟩⟩
          · exact ⟨hstored, .inl horigin⟩
          · exact ⟨hstored, .inr (.inl hrecorded)⟩
          · exact ⟨hstored, .inr (.inr ⟨d, List.mem_append_left _ hd, hhash⟩)⟩
        · obtain rfl := List.mem_singleton.mp hc
          refine ⟨hcur, .inr ?_⟩
          rcases hhead with hrecorded | hmem
          · exact .inl (hkey ▸ hrecorded)
          · exact .inr ⟨parent, List.mem_append_left _ hmem, hkey⟩

/-- **What `cumulativeWork` records**: what was recorded, the block, and with each new entry its parent's. -/
theorem cumulativeWork_records (hkeyed : ∀ (h : Bytes) (b : FullBlock), s.blocks[h]? = some b → b.getHash.val = h)
    {w : Nat} (hblock : s.blocks[block.getHash.val]? = some block) (hok : s.cumulativeWork block = .ok (w, s')) :
    s'.Recorded block.getHash.val ∧ (∀ h, s.Recorded h → s'.Recorded h) ∧
      ∀ h, s'.Recorded h → s.Recorded h ∨ ∃ c, s.blocks[h]? = some c ∧
        (h = s.originHash ∨ s'.Recorded c.getPrevHash) := by
  rcases bind_eq_ok.mp hok with ⟨⟨base, l⟩, hwalk, hok⟩
  rcases pendingWork_walked hkeyed hblock hwalk with ⟨walked, hl, hhead, hall⟩
  rw [List.append_nil] at hl
  subst hl
  have heq : l.foldl memoWork (base, s) = (w, s') := pure_eq_ok.mp hok
  have hiff : ∀ h, s'.Recorded h ↔ s.Recorded h ∨ ∃ c ∈ l, c.getHash.val = h := by
    intro h
    have := recorded_foldl_memoWork l (base, s) h
    rwa [heq] at this
  refine ⟨(hiff _).mpr ?_, fun h hr => (hiff h).mpr (.inl hr), fun h hr => ?_⟩
  · rcases hhead with hr | hmem
    · exact .inl hr
    · exact .inr ⟨block, hmem, rfl⟩
  · rcases (hiff h).mp hr with hr | ⟨c, hc, rfl⟩
    · exact .inl hr
    · rcases hall c hc with ⟨hstored, horigin | hrecorded | hwalked⟩
      · exact .inr ⟨c, hstored, .inl horigin⟩
      · exact .inr ⟨c, hstored, .inr ((hiff _).mpr (.inl hrecorded))⟩
      · exact .inr ⟨c, hstored, .inr ((hiff _).mpr (.inr hwalked))⟩

/-! ## §2 — booked stores -/

/-- **`BookedBut K s`** — recorded blocks are stored, with recorded parents as far as those are stored, and side blocks
are recorded; for the keys in `K` nothing is asked. -/
structure BookedBut (K : Set Bytes) (s : BlockStore) : Prop where
  stored : ∀ h, s.Recorded h → s.blocks[h]? ≠ none
  closed : ∀ (h : Bytes) (b : FullBlock), s.blocks[h]? = some b → s.Recorded h → h ≠ s.originHash →
    b.getPrevHash ∉ K → s.blocks[b.getPrevHash]? ≠ none → s.Recorded b.getPrevHash
  side : ∀ (h : Bytes) (b : FullBlock), s.blocks[h]? = some b → h ∉ K → s.isCanonical b = true ∨ s.Recorded h

/-- **`Booked s`** — the same for every block. -/
abbrev Booked (s : BlockStore) : Prop := BookedBut ∅ s

theorem BookedBut.mono {K K' : Set Bytes} (h : BookedBut K s) (hK : K ⊆ K') : BookedBut K' s :=
  ⟨h.stored, fun k b hb hr hne hp => h.closed k b hb hr hne fun hmem => hp (hK hmem),
    fun k b hb hk => h.side k b hb fun hmem => hk (hK hmem)⟩

theorem BookedBut.weigh (h : BookedBut {block.getHash.val} s)
    (hkeyed : ∀ (k : Bytes) (b : FullBlock), s.blocks[k]? = some b → b.getHash.val = k) {w : Nat}
    (hblock : s.blocks[block.getHash.val]? = some block) (hok : s.cumulativeWork block = .ok (w, s')) :
    Booked s' ∧ s'.Recorded block.getHash.val := by
  rcases cumulativeWork_records hkeyed hblock hok with ⟨hself, hmono, hnew⟩
  rcases cumulativeWork_reindexed hok with ⟨work, txs, txBlock, addrTx, heq⟩
  have hblocks : s'.blocks = s.blocks := by rw [heq]
  have horigin : s'.originHash = s.originHash := by rw [heq]
  have hcanonical : ∀ b, s'.isCanonical b = s.isCanonical b := by
    intro b
    rw [heq]
    rfl
  refine ⟨⟨fun k hk => ?_, fun k b hb hk hne _ hp => ?_, fun k b hb _ => ?_⟩, hself⟩
  · rw [hblocks]
    rcases hnew k hk with hold | ⟨c, hc, _⟩
    · exact h.stored k hold
    · rw [hc]
      exact Option.some_ne_none c
  · rw [hblocks] at hb hp
    rcases hnew k hk with hold | ⟨c, hc, horig | hparent⟩
    · by_cases hprev : b.getPrevHash = block.getHash.val
      · rw [hprev]
        exact hself
      · exact hmono _ (h.closed k b hb hold (horigin ▸ hne) hprev hp)
    · exact absurd (horig.trans horigin.symm) hne
    · obtain rfl := Option.some.inj (hb.symm.trans hc)
      exact hparent
  · rw [hblocks] at hb
    rw [hcanonical]
    by_cases hself' : k = block.getHash.val
    · rw [hself']
      exact .inr hself
    · rcases h.side k b hb hself' with hc | hr
      · exact .inl hc
      · exact .inr (hmono k hr)

/-- A block is stored: its own entry and its children's are open. -/
theorem BookedBut.put (h : Booked s) (hblocks : s'.blocks = s.blocks.insert block.getHash.val block)
    (hold : ∀ old : FullBlock, s.blocks[block.getHash.val]? = some old → old.getPrevHash = block.getPrevHash)
    (hwork : s'.work = s.work) (horigin : s'.originHash = s.originHash)
    (hcanonical : ∀ b, s.isCanonical b = true → s'.isCanonical b = true) :
    BookedBut {block.getHash.val} s' := by
  have hget : ∀ k : Bytes, s'.blocks[k]? = if block.getHash.val = k then some block else s.blocks[k]? := by
    intro k
    rw [hblocks, Bucket.get_insert]
  have hrecorded : ∀ k, s'.Recorded k ↔ s.Recorded k := by
    intro k
    unfold Recorded
    rw [hwork]
  refine ⟨fun k hk => ?_, fun k b hb hk hne hprev hp => ?_, fun k b hb hself => ?_⟩
  · rw [hget]
    split
    · exact Option.some_ne_none block
    · exact h.stored k ((hrecorded k).mp hk)
  · -- the parent stood in the store before
    rw [hget, if_neg (Ne.symm hprev)] at hp
    rw [hrecorded] at hk ⊢
    rw [hget] at hb
    split at hb
    · next heq =>
      obtain rfl := Option.some.inj hb
      rcases Option.ne_none_iff_exists'.mp (h.stored k hk) with ⟨old, hstored⟩
      have hsame := hold old (heq ▸ hstored)
      rw [← hsame] at hp ⊢
      exact h.closed k old hstored hk (horigin ▸ hne) (Set.notMem_empty _) hp
    · exact h.closed k b hb hk (horigin ▸ hne) (Set.notMem_empty _) hp
  · rw [hget, if_neg (Ne.symm hself)] at hb
    rcases h.side k b hb (Set.notMem_empty _) with hc | hr
    · exact .inl (hcanonical b hc)
    · exact .inr ((hrecorded k).mpr hr)

theorem BookedBut.pruneSideBlocks (h : Booked s) (below : Nat) : Booked (s.pruneSideBlocks below) := by
  have hget := dropSideBlocks_get (s.sideVictims below) s
  rcases dropSideBlocks_eq (s.sideVictims below) s with ⟨blocks, work, side, heq⟩
  have hblocks : ∀ (k : Bytes) (b : FullBlock), (s.pruneSideBlocks below).blocks[k]? = some b →
      k ∉ s.sideVictims below ∧ s.blocks[k]? = some b := by
    intro k b hb
    unfold BlockStore.pruneSideBlocks at hb
    rw [(hget k).1] at hb
    split at hb
    · cases hb
    · next hmem => exact ⟨hmem, hb⟩
  have hrecorded : ∀ k, (s.pruneSideBlocks below).Recorded k ↔ k ∉ s.sideVictims below ∧ s.Recorded k := by
    intro k
    unfold Recorded BlockStore.pruneSideBlocks
    rw [(hget k).2.1]
    split
    · next hmem => simp [hmem]
    · next hmem => simp [hmem]
  have horigin : (s.pruneSideBlocks below).originHash = s.originHash := by
    unfold BlockStore.pruneSideBlocks
    rw [heq]
  refine ⟨fun k hk => ?_, fun k b hb hk hne hprev hp => ?_, fun k b hb hself => ?_⟩
  · rcases (hrecorded k).mp hk with ⟨hmem, hk⟩
    unfold BlockStore.pruneSideBlocks
    rw [(hget k).1, if_neg hmem]
    exact h.stored k hk
  · rcases Option.ne_none_iff_exists'.mp hp with ⟨p, hp⟩
    rcases hblocks _ p hp with ⟨hmem, hp⟩
    refine (hrecorded _).mpr ⟨hmem, ?_⟩
    refine h.closed k b (hblocks k b hb).2 ((hrecorded k).mp hk).2 (horigin ▸ hne) hprev ?_
    rw [hp]
    exact Option.some_ne_none p
  · rcases hblocks k b hb with ⟨hmem, hb⟩
    rcases h.side k b hb hself with hc | hr
    · left
      unfold isCanonical
      rw [pruneSideBlocks_heights]
      exact hc
    · exact .inr ((hrecorded k).mpr ⟨hmem, hr⟩)

theorem BookedBut.maintain {S : Type} (L : Ledger S) (h : Booked s) (b : FullBlock) : Booked (L.maintain b s) := by
  unfold Ledger.maintain
  split
  · apply BookedBut.pruneSideBlocks
    split
    · exact h
    · exact ⟨h.stored, h.closed, h.side⟩
  · exact h

/-- From a recorded tip down, the canonical chain is recorded. -/
theorem BookedBut.canonical (h : Booked s) (hs : Spine H s tip) (htip : s.Recorded tip.getHash.val) {k : Nat}
    (hk : s.originHeight ≤ k) (hle : k ≤ tip.getHeight) {hash : Bytes} (hindex : s.heights[k]? = some hash) :
    s.Recorded hash := by
  induction hd : tip.getHeight - k generalizing k hash with
  | zero =>
    obtain rfl : k = tip.getHeight := by omega
    obtain rfl := Option.some.inj (hs.top.symm.trans hindex)
    exact htip
  | succ d ih =>
    rcases hs.canonical (k + 1) (by omega) (by omega) with ⟨c, hc, hbody, hheight, hlink⟩
    have hlink := hlink (by omega)
    rw [Nat.add_sub_cancel, hindex] at hlink
    obtain rfl := Option.some.inj hlink
    have hrecorded : s.Recorded c.getHash.val := ih (by omega) (by omega) hc (by omega)
    have hne : c.getHash.val ≠ s.originHash := by
      intro horigin
      have := hs.origin_height (horigin ▸ hbody)
      omega
    rcases hs.canonical k hk hle with ⟨p, hp, hpbody, -, -⟩
    obtain hprev : c.getPrevHash = p.getHash.val := Option.some.inj (hindex.symm.trans hp)
    refine h.closed _ c hbody hrecorded hne (Set.notMem_empty _) ?_
    rw [hprev, hpbody]
    exact Option.some_ne_none p

/-- **With a recorded tip every stored block is recorded.** -/
theorem BookedBut.full (h : Booked s) (hs : Sound H s tip) (htip : s.Recorded tip.getHash.val) {k : Bytes}
    {b : FullBlock} (hb : s.blocks[k]? = some b) : s.Recorded k := by
  rcases h.side k b hb (Set.notMem_empty _) with hc | hr
  · have hindex : s.heights[b.getHeight]? = some b.getHash.val := of_decide_eq_true hc
    have hle : b.getHeight ≤ tip.getHeight := by
      by_contra hlt
      rw [hs.above _ (by omega)] at hindex
      cases hindex
    have hkey := hs.keyed k b hb
    exact hkey ▸ h.canonical hs.toSpine htip (hs.origin_le hb) hle hindex
  · exact hr

/-- **`s.Refills branch`** — the branch has a block that is not stored although a stored block names it as its
parent. -/
def Refills (s : BlockStore) (branch : List FullBlock) : Prop :=
  ∃ b ∈ branch, s.blocks[b.getHash.val]? = none ∧
    ∃ (h : Bytes) (c : FullBlock), s.blocks[h]? = some c ∧ c.getPrevHash = b.getHash.val

theorem switchToBranch_keeps {branch : List FullBlock} (hok : s.switchToBranch branch = .ok s') {k : Bytes}
    (hk : s.blocks[k]? ≠ none) : s'.blocks[k]? ≠ none := by
  have hconnect : ∀ (l : List FullBlock) (t : BlockStore), t.blocks[k]? ≠ none →
      (l.foldl connectBlock t).blocks[k]? ≠ none := by
    intro l
    induction l with
    | nil => exact fun t ht => ht
    | cons c l ih =>
      intro t ht
      apply ih
      rcases connectBlock_eq t c with ⟨_, _, _, _, heq, _⟩
      rw [heq]
      show (t.blocks.insert c.getHash.val c)[k]? ≠ none
      rw [Bucket.get_insert]
      split
      · exact Option.some_ne_none c
      · exact ht
  cases branch with
  | nil => cases hok
  | cons first rest =>
    rw [BlockStore.switchToBranch] at hok
    rcases bind_eq_ok.mp hok with ⟨_, _, hok⟩
    rcases bind_eq_ok.mp hok with ⟨_, _, hok⟩
    rcases bind_eq_ok.mp hok with ⟨t, hunlink, hok⟩
    obtain rfl := pure_eq_ok.mp hok
    exact hconnect (first :: rest) t ((unlinkHeights_frame _ hunlink).2.2 ▸ hk)

theorem BookedBut.switchToBranch (hinj : Set.InjOn BlockHeader.getHash H) (h : Booked s) (hs : Sound H s tip)
    (htip : s.Recorded tip.getHash.val) {branch : List FullBlock} (hH : ∀ b ∈ branch, b.header ∈ H)
    (hkeyed : ∀ (k : Bytes) (b : FullBlock), s'.blocks[k]? = some b → b.getHash.val = k)
    (hfill : ¬ s.Refills branch) (hok : s.switchToBranch branch = .ok s') : Booked s' := by
  rcases switchToBranch_frame hok with ⟨hwork, horigin, hblocks⟩
  have hrecorded : ∀ k, s'.Recorded k ↔ s.Recorded k := by
    intro k
    unfold Recorded
    rw [hwork]
  refine ⟨fun k hk => switchToBranch_keeps hok (h.stored k ((hrecorded k).mp hk)), fun k b hb hk hne _ hp => ?_, fun k b hb _ => ?_⟩
  · rw [hrecorded] at hk ⊢
    rcases Option.ne_none_iff_exists'.mp (h.stored k hk) with ⟨old, hold⟩
    have hheader : b.header = old.header := by
      rcases hblocks k b hb with hmem | hsame
      · exact hs.header_eq hinj hold (hH b hmem) (hkeyed k b hb)
      · rw [Option.some.inj (hsame.symm.trans hold)]
    have hprev : b.getPrevHash = old.getPrevHash := congrArg BlockHeader.prevBlockHash hheader
    rw [hprev] at hp ⊢
    refine h.closed k old hold hk (horigin ▸ hne) (Set.notMem_empty _) fun hmissing => hfill ?_
    rcases Option.ne_none_iff_exists'.mp hp with ⟨p, hp⟩
    rcases hblocks _ p hp with hmem | hstored
    · have hkey := hkeyed _ p hp
      exact ⟨p, hmem, hkey ▸ hmissing, k, old, hold, hkey.symm⟩
    · cases hmissing.symm.trans hstored
  · rcases hblocks k b hb with hmem | hstored
    · exact .inl (decide_eq_true (switchToBranch_index hok b hmem))
    · exact .inr ((hrecorded k).mpr (h.full hs htip hstored))

end BlockStore

/-! ## §3 — the calls -/

namespace Node

open BlockStore

section Calls

variable [Crypto] {S : Type} {L : Ledger S} {now : Nat} {H : Set BlockHeader} {n n' : Node S} {tip block : FullBlock}
  {branch : List FullBlock} (hinj : Set.InjOn BlockHeader.getHash H)
include hinj

theorem extendTip_booked (hs : Sound H n.store tip) (h : Booked n.store) (hb : block.header ∈ H)
    (hprev : block.getPrevHash = n.store.latestHash) (hok : extendTip L now block n = .ok n') :
    Booked n'.store := by
  rcases extendTip_eq_ok hok with ⟨-, store, work, store', hput, hwork, -, hstore⟩
  rcases hs.putNewBlock hinj hb hprev hput with ⟨hfollows, hsound⟩
  have hstep := hfollows.1
  rcases bind_eq_ok.mp hput with ⟨_, -, hput⟩
  obtain rfl := pure_eq_ok.mp hput
  rcases putTxs_reindexed block (n.store.putBlock block) with ⟨_, _, _, _, heq⟩
  have hopen : BookedBut {block.getHash.val} (((n.store.putBlock block).putTxs block).putLatestTags block) := by
    refine BookedBut.put h ?_ (fun old hold => ?_) (putTxs_work block _) ?_ fun b hc => ?_
    · show ((n.store.putBlock block).putTxs block).blocks = _
      rw [heq]
      rfl
    · exact congrArg BlockHeader.prevBlockHash (hs.header_eq hinj hold hb rfl).symm
    · show ((n.store.putBlock block).putTxs block).originHash = _
      rw [heq]
      rfl
    · -- the index grows above the tip
      have hindex : n.store.heights[b.getHeight]? = some b.getHash.val := of_decide_eq_true hc
      have hne : block.getHeight ≠ b.getHeight := by
        intro hsame
        rw [hs.above _ (by omega)] at hindex
        cases hindex
      apply decide_eq_true
      show ((n.store.putBlock block).putTxs block).heights[b.getHeight]? = _
      rw [heq]
      show (n.store.heights.insert block.getHeight block.getHash.val)[b.getHeight]? = _
      rw [Bucket.get_insert, if_neg hne, hindex]
  rw [hstore]
  exact (hopen.weigh hsound.keyed hsound.tipBody hwork).1.maintain L block

theorem Weighed.booked {s s' : BlockStore} {prev tip' : FullBlock} {blockWork tipWork : Nat}
    (hw : Weighed now block s prev blockWork tip' tipWork s') (hs : Sound H s tip) (h : Booked s)
    (hb : block.header ∈ H) : Booked s' ∧ s'.Recorded tip'.getHash.val := by
  rcases hw with ⟨hparent, hcheck, store, hwork, htip, htipWork⟩
  rcases bind_eq_ok.mp hcheck with ⟨_, -, hcheck⟩
  rcases bind_eq_ok.mp hcheck with ⟨_, hfollows, -⟩
  have hheight := (ensure_eq_ok.mp hfollows).1
  have hle := hs.origin_le hparent
  rcases hs.putSideBlock hinj hb (by omega) with ⟨top, -, hsound⟩
  have hbody : (s.putSideBlock block).blocks[block.getHash.val]? = some block := by
    show (s.blocks.insert block.getHash.val block)[block.getHash.val]? = some block
    rw [Bucket.get_insert, if_pos rfl]
  have hopen : BookedBut {block.getHash.val} (s.putSideBlock block) := by
    refine BookedBut.put h rfl (fun old hold => ?_) rfl rfl fun b hc => hc
    exact congrArg BlockHeader.prevBlockHash (hs.header_eq hinj hold hb rfl).symm
  have hbooked := (hopen.weigh hsound.keyed hbody hwork).1
  have hsound' := hsound.reindexed (cumulativeWork_reindexed hwork)
  obtain rfl := hsound'.getLatestBlock htip
  exact (hbooked.mono (Set.empty_subset _)).weigh hsound'.keyed hsound'.tipBody htipWork

theorem switchToBranchTxn_booked (hs : Sound H n.store tip) (h : Booked n.store)
    (htip : n.store.Recorded tip.getHash.val)
    (hb : ∀ b ∈ branch, b.header ∈ H ∧ n.store.originHeight < b.getHeight) (hfill : ¬ n.store.Refills branch)
    (hok : switchToBranchTxn L branch n = .ok n') : Booked n'.store := by
  rcases switchToBranchTxn_eq_ok hok with ⟨first, rest, store, rfl, hswitch, hstore, -⟩
  rcases hs.switchToBranch hinj hb hswitch with ⟨_, _, -, hsound, -⟩
  rw [hstore]
  exact (h.switchToBranch hinj hs htip (fun b hmem => (hb b hmem).1) hsound.keyed hfill hswitch).maintain L _

theorem importSide_booked (hs : Sound H n.store tip) (h : Booked n.store) (hb : block.header ∈ H)
    (hok : importSide L now block n = .ok n') : Booked n'.store := by
  rcases importSide_eq_ok hok with ⟨prev, blockWork, tip', tipWork, store, hw, hcase⟩
  rcases hw.booked hinj hs h hb with ⟨hbooked, htip⟩
  rcases hw.sound hinj hs hb with ⟨-, hsound, -, -, hbody⟩
  rcases hcase with ⟨-, rfl⟩ | ⟨-, first, rest, hbranch, -, hswitch⟩
  · exact hbooked
  · have hmem := collectBranch_mem hbranch ⟨_, hbody⟩
    refine switchToBranchTxn_booked (n := ⟨store, n.state⟩) hinj hsound hbooked htip (fun b hb => ?_) ?_ hswitch
    · rcases hmem b hb with ⟨⟨hash, hstored⟩, hside⟩
      exact ⟨hsound.headers hash b hstored, hsound.above_origin hstored hside⟩
    · -- the branch of a stored block is stored
      rintro ⟨b, hb, hmissing, -⟩
      rcases hmem b hb with ⟨⟨hash, hstored⟩, -⟩
      rw [hsound.keyed hash b hstored, hstored] at hmissing
      cases hmissing

theorem switchToBranch_booked (hs : Sound H n.store tip) (h : Booked n.store) (hb : ∀ b ∈ branch, b.header ∈ H)
    (hfill : ¬ n.store.Refills branch) (hok : switchToBranch L now branch n = .ok n') : Booked n'.store := by
  rcases switchToBranch_eq_ok hok with ⟨first, rest, forkParent, base, tip', tipWork, store, store', rfl, hparent,
    hcheck, hbase, htip, htipWork, -, hswitch⟩
  have hbooked := ((h.mono (Set.empty_subset _)).weigh hs.keyed (hs.keyed _ _ hparent ▸ hparent) hbase).1
  have hsound := hs.reindexed (cumulativeWork_reindexed hbase)
  obtain rfl := hsound.getLatestBlock htip
  rcases (hbooked.mono (Set.empty_subset _)).weigh hsound.keyed hsound.tipBody htipWork with ⟨hbooked', hrecorded⟩
  have hre := (cumulativeWork_reindexed hbase).trans (cumulativeWork_reindexed htipWork)
  have hle := hs.origin_le hparent
  refine switchToBranchTxn_booked (n := ⟨store', n.state⟩) hinj
    (hsound.reindexed (cumulativeWork_reindexed htipWork)) hbooked' hrecorded (fun b hmem => ⟨hb b hmem, ?_⟩) ?_ hswitch
  · have := checkBranch_above hcheck b hmem
    rcases hre with ⟨_, _, _, _, rfl⟩
    show n.store.originHeight < b.getHeight
    omega
  · rcases hre with ⟨_, _, _, _, rfl⟩
    exact hfill

end Calls
end Node

/-! ## §4 — every run -/

section Runs

variable [Engine] {cfg : Config} {H : Set BlockHeader} {C : BlockStore → List FullBlock → Prop} {n : Node State}

/-- **`Node.ReachableVia C H`** — the runs of `Node.Reachable` in which every `Chain.SwitchToBranch` call meets the
condition on the store and the branch. -/
inductive Node.ReachableVia (cfg : Config) (C : BlockStore → List FullBlock → Prop) (H : Set BlockHeader) :
    Node State → Prop
  | genesis {n : Node State} : Node.genesis cfg = .ok n → ReachableVia cfg C H n
  | applyBlock {n : Node State} (now : Nat) (block : FullBlock) : ReachableVia cfg C H n → block.header ∈ H →
      ReachableVia cfg C H (n.update (n.applyBlock (ledger cfg) now block))
  | switchToBranch {n : Node State} (now : Nat) (branch : List FullBlock) : ReachableVia cfg C H n →
      (∀ b ∈ branch, b.header ∈ H) → C n.store branch →
      ReachableVia cfg C H (n.update (n.switchToBranch (ledger cfg) now branch))

theorem Node.ReachableVia.reachable (h : Node.ReachableVia cfg C H n) : Node.Reachable cfg H n := by
  induction h with
  | genesis hn => exact .genesis hn
  | applyBlock now block _ hb ih => exact ih.applyBlock now block hb
  | switchToBranch now branch _ hb _ ih => exact ih.switchToBranch now branch hb

open BlockStore (Booked Sound)

theorem BlockStore.booked_initWithGenesis (genesis : FullBlock) : Booked (initWithGenesis genesis) := by
  have hnone : ∀ h, ¬ (initWithGenesis genesis).Recorded h := by
    intro h hr
    apply hr
    show (∅ : Bucket Bytes Nat)[h]? = none
    simp
  refine ⟨fun h hr => absurd hr (hnone h), fun h b _ hr => absurd hr (hnone h), fun h b hb _ => .inl ?_⟩
  change ((∅ : Bucket Bytes FullBlock).insert genesis.getHash.val genesis)[h]? = some b at hb
  rw [Bucket.get_insert] at hb
  split at hb
  · obtain rfl := Option.some.inj hb
    apply decide_eq_true
    show ((∅ : Bucket Nat Bytes).insert genesis.getHeight genesis.getHash.val)[genesis.getHeight]? = _
    rw [Bucket.get_insert, if_pos rfl]
  · simp at hb

/-- **Stores are booked** on every run without a refilling switch. -/
theorem Node.ReachableVia.booked (hinj : Set.InjOn BlockHeader.getHash (genesisHeaders ∪ H))
    (hr : Node.ReachableVia cfg (fun s branch => ¬ s.Refills branch) H n) : Booked n.store := by
  induction hr with
  | genesis hn =>
    rcases Node.genesis_eq_ok hn with ⟨genesis, -, -, hstore⟩
    rw [hstore]
    exact BlockStore.booked_initWithGenesis genesis
  | @applyBlock m now block hm hb ih =>
    rcases hm.reachable.sound hinj with ⟨tip, hsound⟩
    cases hok : m.applyBlock (ledger cfg) now block with
    | error e => exact ih
    | ok m' =>
      show Booked m'.store
      unfold Node.applyBlock at hok
      split at hok
      · next hprev => exact Node.extendTip_booked hinj hsound ih (.inr hb) hprev hok
      · exact Node.importSide_booked hinj hsound ih (.inr hb) hok
  | @switchToBranch m now branch hm hb hfill ih =>
    rcases hm.reachable.sound hinj with ⟨tip, hsound⟩
    cases hok : m.switchToBranch (ledger cfg) now branch with
    | error e => exact ih
    | ok m' => exact Node.switchToBranch_booked hinj hsound ih (fun b hmem => .inr (hb b hmem)) hfill hok

/-- **`WorkExact H s`** — for every stored block `cumulativeWork` returns the declared difficulty of the block and of
all its ancestors down to the origin; so for a child with positive difficulty more than for its parent. -/
def BlockStore.WorkExact (H : Set BlockHeader) (s : BlockStore) : Prop :=
  ∃ origin ∈ H, s.originHash = origin.key ∧
    ∀ (h : Bytes) (b : FullBlock), s.blocks[h]? = some b →
      ∃ w t, s.cumulativeWork b = .ok (w, t) ∧ b.header.Weighs H origin w ∧
        ∀ (k : Bytes) (c : FullBlock), s.blocks[k]? = some c → Follows b c → 0 < workOf c →
          ∃ w' t', s.cumulativeWork c = .ok (w', t') ∧ w < w'

theorem BlockStore.BookedBut.answers {s : BlockStore} {tip b : FullBlock} (h : Booked s) (hs : Sound H s tip)
    {hash : Bytes} (hb : s.blocks[hash]? = some b) : ∃ w t, s.cumulativeWork b = .ok (w, t) := by
  have hkey := hs.keyed hash b hb
  rcases h.side hash b hb (Set.notMem_empty _) with hc | hr
  · have hindex : s.heights[b.getHeight]? = some b.getHash.val := of_decide_eq_true hc
    refine cumulativeWork_total hs.toSpine ?_ hc (hkey ▸ hb)
    by_contra hlt
    rw [hs.above _ (by omega)] at hindex
    cases hindex
  · rcases Option.ne_none_iff_exists'.mp hr with ⟨w, hw⟩
    refine ⟨_, _, bind_eq_ok.mpr ⟨(w, []), ?_, rfl⟩⟩
    rw [pendingWork, hkey, hw]

/-- **Memoized work is exact** on every run in which no `Chain.SwitchToBranch` call brings a missing block back under a
stored one. -/
theorem Node.work_exact (hinj : Set.InjOn BlockHeader.getHash (genesisHeaders ∪ H))
    (hr : Node.ReachableVia cfg (fun s branch => ¬ s.Refills branch) H n) :
    n.store.WorkExact (genesisHeaders ∪ H) := by
  have hbooked := hr.booked hinj
  rcases hr.reachable.tallied hinj with ⟨tip, origin, hs, ht, hzero⟩
  have hspec : ∀ {h : Bytes} {b : FullBlock}, n.store.blocks[h]? = some b →
      ∃ w t, n.store.cumulativeWork b = .ok (w, t) ∧ b.header.Weighs (genesisHeaders ∪ H) origin w := by
    intro h b hb
    rcases hbooked.answers hs hb with ⟨w, t, hok⟩
    exact ⟨w, t, hok, (BlockStore.cumulativeWork_spec hinj ht hs.toSpine (hs.keyed h b hb ▸ hb) hok).1⟩
  refine ⟨origin, ht.originMem, ht.originHash, fun h b hb => ?_⟩
  rcases hspec hb with ⟨w, t, hok, hw⟩
  refine ⟨w, t, hok, hw, fun k c hc hfollows hpos => ?_⟩
  rcases hspec hc with ⟨w', t', hok', hw'⟩
  refine ⟨w', t', hok', ?_⟩
  -- the child's weight is the parent's and its own difficulty
  have hne : c.header ≠ origin := by
    intro heq
    have hheight : c.getHeight = origin.height := congrArg BlockHeader.height heq
    have := hfollows.1
    omega
  have hsum := BlockStore.weighs_of_follows (hs.headers h b hb) hw hfollows hne
  have := hw'.unique (BlockHeader.injOn_key hinj) hsum
  omega

end Runs

/-! ## §5 — runs with converging calls, by hand -/

instance [Crypto] (s : BlockStore) (branch : List FullBlock) : Decidable (s.Refills branch) :=
  decidable_of_iff (∃ b ∈ branch, s.blocks[b.getHash.val]? = none ∧
    ∃ e ∈ s.blocks.toList, e.2.getPrevHash = b.getHash.val) <| by
  constructor
  · rintro ⟨b, hb, hmissing, ⟨h, c⟩, hmem, hprev⟩
    exact ⟨b, hb, hmissing, h, c, (Bucket.mem_toList_iff _ _ _).mp hmem, hprev⟩
  · rintro ⟨b, hb, hmissing, h, c, hstored, hprev⟩
    exact ⟨b, hb, hmissing, (h, c), (Bucket.mem_toList_iff _ _ _).mpr hstored, hprev⟩

/-- A call of a hand-made run. -/
inductive HandCall where
  | block (b : FullBlock)
  | branch (l : List FullBlock)

/-- The blocks a call hands over. -/
def HandCall.blocks : HandCall → List FullBlock
  | .block b => [b]
  | .branch l => l

section ByHand

/-- Calls one after the other, none refused, every converging one under the condition. -/
def handCalls [Engine] (cfg : Config) (C : BlockStore → List FullBlock → Prop) [∀ s l, Decidable (C s l)]
    (calls : List HandCall) (n : Node State) : Except Err (Node State) :=
  calls.foldlM (fun n call =>
    match call with
    | .block b => n.applyBlock (handLedger cfg) handNow b
    | .branch l => if C n.store l then n.switchToBranch (handLedger cfg) handNow l else .error .panic) n

/-- A run of the hand-made ledger whose end passes a test, as a run of the node. -/
theorem exists_reachableVia_byHand (modules : Bytes → Option Module) (archive : Bool) (calls : List HandCall)
    (blocks : List FullBlock) (hblocks : ∀ call ∈ calls, call.blocks ⊆ blocks) (test : Node State → Bool) :
    letI := Engine.byHand modules
    ∀ (C : BlockStore → List FullBlock → Prop) [∀ s l, Decidable (C s l)],
      okAnd (handCalls ⟨ZERONET, archive⟩ C calls (handNode archive)) test = true →
        ∃ n, Node.ReachableVia ⟨ZERONET, archive⟩ C {x | x ∈ blocks.map FullBlock.header} n ∧ test n = true := by
  let _ := Engine.byHand modules
  intro C _ h
  have hagrees := handLedger_agrees modules ⟨ZERONET, archive⟩
  have hend := exists_of_foldlM (P := fun n : Node State =>
    Node.ReachableVia ⟨ZERONET, archive⟩ C {x | x ∈ blocks.map FullBlock.header} n ∧ n.state.Committed)
    (fun call hcall n n' hn hok => ?_) ⟨.genesis (genesis_byHand modules archive), committed_handNode modules archive⟩ h
  · exact hend.imp fun n hn => ⟨hn.1.1, hn.2⟩
  · have hH : ∀ b ∈ call.blocks, b.header ∈ {x | x ∈ blocks.map FullBlock.header} :=
      fun b hb => List.mem_map_of_mem (hblocks call hcall hb)
    cases call with
    | block b =>
      rcases hagrees.applyBlock handNow b hn.2 with ⟨heq, hkeep⟩
      have hok := heq.trans hok
      have hm := hn.1.applyBlock handNow b (hH b List.mem_cons_self)
      rw [hok] at hm
      exact ⟨hm, hkeep n' hok⟩
    | branch l =>
      dsimp only at hok
      split at hok
      · next hC =>
        rcases hagrees.switchToBranch handNow l hn.2 with ⟨heq, hkeep⟩
        have hok := heq.trans hok
        have hm := hn.1.switchToBranch handNow l hH hC
        rw [hok] at hm
        exact ⟨hm, hkeep n' hok⟩
      · cases hok

end ByHand

/-- Two blocks, replaced by a branch of three. -/
def handSwitch : List HandCall :=
  letI := Crypto.ofHash handHash
  (handChain 1 2 handGenesis).map .block ++ [.branch (handChain 2 3 handGenesis)]

theorem Node.work_exact_handSwitch :
    letI := Engine.bare
    ∃ n : Node State, Node.ReachableVia ⟨ZERONET, false⟩ (fun s branch => ¬ s.Refills branch)
        {x | x ∈ (handSwitch.flatMap HandCall.blocks).map FullBlock.header} n ∧
      n.store.blocks.size = 6 ∧ n.store.WorkExact
        (genesisHeaders ∪ {x | x ∈ (handSwitch.flatMap HandCall.blocks).map FullBlock.header}) := by
  let _ := Engine.bare
  have hblocks : ∀ call ∈ handSwitch, call.blocks ⊆ handSwitch.flatMap HandCall.blocks :=
    fun call hmem b hb => List.mem_flatMap.mpr ⟨call, hmem, hb⟩
  rcases exists_reachableVia_byHand (fun _ => none) false handSwitch _ hblocks (fun n => n.store.blocks.size == 6)
    (fun s branch => ¬ s.Refills branch) (by decide +kernel) with ⟨n, hr, htest⟩
  exact ⟨n, hr, eq_of_beq htest, Node.work_exact (injOn_apart _ (by decide +kernel)) hr⟩

/-- The first block, and three chains on it: a slow one of 50 blocks, a brisk one, and a fast one of 40. -/
def handBase : FullBlock :=
  letI := Crypto.ofHash handHash
  handTimed handGenesis 1 4000 1000000

def handSlow : List FullBlock :=
  letI := Crypto.ofHash handHash
  handPaced 1 400000 49 handBase

def handBrisk : List FullBlock :=
  letI := Crypto.ofHash handHash
  handPaced 2 100000 19 handBase

def handFast : List FullBlock :=
  letI := Crypto.ofHash handHash
  handPaced 3 1 39 handBase

/-- The slow chain is applied, with the brisk one beside it up to height 20. At height 50 what is below 20 is pruned,
and the brisk block at 20 keeps its work. The brisk chain comes back with two more blocks as a branch, and is replaced
by the fast chain, whose tip at height 40 prunes what is below 10. -/
def handRefill : List HandCall :=
  letI := Crypto.ofHash handHash
  .block handBase :: (handSlow.take 48 ++ handBrisk ++ handSlow.drop 48).map .block ++
    [.branch (handBrisk ++ handPaced 2 1 2 (handBrisk.getLastD handBase)), .branch handFast]

/-- Every block of the run once. -/
def handRefillBlocks : List FullBlock :=
  letI := Crypto.ofHash handHash
  handBase :: (handSlow ++ (handBrisk ++ handPaced 2 1 2 (handBrisk.getLastD handBase)) ++ handFast)

theorem blocks_handRefill : ∀ call ∈ handRefill, call.blocks ⊆ handRefillBlocks := by
  intro call hcall b hb
  unfold handRefill at hcall
  unfold handRefillBlocks
  rw [List.cons_append, List.mem_cons, List.mem_append] at hcall
  rw [List.mem_cons, List.mem_append, List.mem_append]
  rcases hcall with rfl | hmem | hmem
  · exact .inl (List.mem_singleton.mp hb)
  · rcases List.mem_map.mp hmem with ⟨c, hc, rfl⟩
    obtain rfl := List.mem_singleton.mp hb
    rw [List.mem_append, List.mem_append] at hc
    rcases hc with (hc | hc) | hc
    · exact .inr (.inl (.inl (List.mem_of_mem_take hc)))
    · exact .inr (.inl (.inr (List.mem_append_left _ hc)))
    · exact .inr (.inl (.inl (List.mem_of_mem_drop hc)))
  · rw [List.mem_cons, List.mem_singleton] at hmem
    rcases hmem with rfl | rfl
    · exact .inr (.inl (.inr hb))
    · exact .inr (.inr hb)

/-- A stored block of height 10 has no work. -/
def losesWork [Crypto] (n : Node State) : Bool :=
  n.store.blocks.toList.any fun e =>
    decide (e.2.getHeight = 10) && failsWith .keyNotFound (n.store.cumulativeWork e.2)

theorem run_handRefill :
    letI := Engine.bare
    (okAnd (handCalls ⟨ZERONET, false⟩ (fun _ _ => True) handRefill (handNode false)) losesWork &&
      Bucket.apart ((handGenesisHeaders ++ handRefillBlocks.map FullBlock.header).map BlockHeader.getHash) ∅) = true := by
  unfold handCalls
  rw [@handLedger_eq_swift (Engine.bare)]
  decide +kernel

/-- **Stored blocks lose their work**: the brisk block at height 10 is stored, and `cumulativeWork` fails on it. -/
theorem Node.work_lost :
    letI := Engine.bare
    ∃ n : Node State, Node.Reachable ⟨ZERONET, false⟩ {x | x ∈ handRefillBlocks.map FullBlock.header} n ∧
      Set.InjOn BlockHeader.getHash (genesisHeaders ∪ {x | x ∈ handRefillBlocks.map FullBlock.header}) ∧
      ∃ (h : Bytes) (b : FullBlock), n.store.blocks[h]? = some b ∧ b.getHeight = 10 ∧
        n.store.cumulativeWork b = .error .keyNotFound := by
  let _ := Engine.bare
  rcases Bool.and_eq_true_iff.mp run_handRefill with ⟨hrun, hapart⟩
  have hblocks := blocks_handRefill
  generalize handRefill = calls at hrun hblocks
  generalize handRefillBlocks = blocks at hapart hblocks ⊢
  rcases exists_reachableVia_byHand (fun _ => none) false calls blocks hblocks losesWork (fun _ _ => True) hrun
    with ⟨n, hr, htest⟩
  rcases List.any_eq_true.mp htest with ⟨⟨h, b⟩, hmem, hboth⟩
  rw [Bool.and_eq_true] at hboth
  exact ⟨n, hr.reachable, injOn_apart _ hapart, h, b, (Bucket.mem_toList_iff _ _ _).mp hmem,
    of_decide_eq_true hboth.1, eq_of_failsWith hboth.2⟩

/-- The run hands over one hundred and ten blocks. -/
example : handRefillBlocks.length = 110 := by
  decide +kernel

end NgCore
