/-
# NgCore.Chain.Work — memoized work is the work of the chain

`cumulativeWork` walks parent hashes down to a memoized value or to the origin and memoizes on the way back.
The blocks it passes may be pruned later, so the work of a chain is stated over the HEADERS the node was
handed, not over what is still stored: `x.Weighs H origin w`, of `Lib.Forest`, with the header hash as key.

* `Tallied`: every memoized value is a weight, every stored block has one, and every stored block but the
  origin declares a positive difficulty.
* `cumulativeWork_spec`: on a tallied store the walk returns the weight, and memoizes weights only.
* `cumulativeWork_total`: on the canonical chain the walk always returns.
-/
import NgCore.Lib.Forest
import NgCore.Chain.Finality

namespace NgCore

open Lib (Bucket)
open Lib.Rlp (beVal)

/-! ## §1 — weights of headers -/

variable [Crypto]

namespace BlockHeader

/-- The key a header is stored under. -/
def key (x : BlockHeader) : Bytes := x.getHash.val

/-- **`x.Weighs H origin w`** — `w` is the declared difficulty of the chain from the origin to `x`. -/
abbrev Weighs (x : BlockHeader) (H : Set BlockHeader) (origin : BlockHeader) (w : Nat) : Prop :=
  Lib.Forest.Weighs key prevBlockHash (fun x => beVal x.difficulty) H origin x w

theorem injOn_key {H : Set BlockHeader} (hinj : Set.InjOn getHash H) : Set.InjOn key H :=
  fun _ hx _ hy h => hinj hx hy (Subtype.ext h)

end BlockHeader

namespace BlockStore

variable {H : Set BlockHeader} {origin : BlockHeader} {s s' : BlockStore} {tip : FullBlock}

/-- Every memoized value is the weight of the header it stands under. -/
def Memo (H : Set BlockHeader) (origin : BlockHeader) (work : Bucket Bytes Nat) : Prop :=
  ∀ x ∈ H, ∀ w : Nat, work[x.key]? = some w → x.Weighs H origin w

/-- **`Tallied`** — memoized values are weights, stored blocks have a weight, and a positive difficulty
unless they are the origin. -/
structure Tallied (H : Set BlockHeader) (origin : BlockHeader) (s : BlockStore) : Prop where
  originHash : s.originHash = origin.key
  originMem : origin ∈ H
  memo : Memo H origin s.work
  weighs : ∀ (h : Bytes) (b : FullBlock), s.blocks[h]? = some b → ∃ w, b.header.Weighs H origin w
  positive : ∀ (h : Bytes) (b : FullBlock), s.blocks[h]? = some b → b.header = origin ∨ 0 < workOf b

/-! ## §2 — the walk returns weights -/

section Distinct

variable (hinj : Set.InjOn BlockHeader.getHash H)
include hinj

theorem Memo.insert {work : Bucket Bytes Nat} (h : Memo H origin work) {x : BlockHeader} (hx : x ∈ H)
    {w : Nat} (hw : x.Weighs H origin w) : Memo H origin (work.insert x.key w) := by
  intro y hy w' hw'
  rw [Bucket.get_insert] at hw'
  split at hw'
  · next heq =>
    cases hw'
    exact BlockHeader.injOn_key hinj hx hy heq ▸ hw
  · exact h y hy w' hw'

/-- The walk of `cumulativeWork`, with its return trip: the blocks passed below `pending` sum up to the
weight of the block the walk started from. -/
theorem pendingWork_spec (ht : Tallied H origin s) (hs : Spine H s tip) {fuel base : Nat}
    {cur : FullBlock} {pending l : List FullBlock} (hcur : s.blocks[cur.getHash.val]? = some cur)
    (hok : s.pendingWork fuel cur pending = .ok (base, l)) :
    ∃ walked, l = walked ++ pending ∧
      cur.header.Weighs H origin (walked.foldl memoWork (base, s)).1 ∧
      Memo H origin (walked.foldl memoWork (base, s)).2.work := by
  induction fuel generalizing cur pending with
  | zero => cases hok
  | succ fuel ih =>
    have hH : cur.header ∈ H := hs.headers _ _ hcur
    rw [pendingWork] at hok
    cases hmemo : s.work[cur.getHash.val]? with
    | some w =>
      -- a memoized value ends the walk
      rw [hmemo] at hok
      cases hok
      exact ⟨[], rfl, ht.memo _ hH _ hmemo, ht.memo⟩
    | none =>
      rw [hmemo] at hok
      dsimp only at hok
      split at hok
      · next horigin =>
        -- the origin ends it too, and weighs its own difficulty
        cases hok
        have hheader : cur.header = origin :=
          BlockHeader.injOn_key hinj hH ht.originMem (horigin.trans ht.originHash)
        have hw : cur.header.Weighs H origin (0 + workOf cur) := by
          rw [Nat.zero_add, workOf, hheader]
          exact .root
        exact ⟨[cur], rfl, hw, ht.memo.insert hinj hH hw⟩
      · next hne =>
        obtain ⟨parent, hparent, hok⟩ := bind_eq_ok.mp hok
        have hbody := getBlockByHash_eq_ok.mp hparent
        have hkey : parent.getHash.val = cur.getPrevHash := hs.keyed _ _ hbody
        obtain ⟨walked, rfl, hw, hm⟩ := ih (hkey ▸ hbody) hok
        have hnot : cur.header ≠ origin := by
          intro heq
          exact hne (ht.originHash ▸ congrArg BlockHeader.key heq)
        have hwcur : cur.header.Weighs H origin
            ((walked.foldl memoWork (base, s)).1 + beVal cur.header.difficulty) :=
          .child hw (hs.headers _ _ hbody) hkey.symm hnot
        refine ⟨walked ++ [cur], by simp, ?_, ?_⟩
        · rw [List.foldl_append]
          exact hwcur
        · rw [List.foldl_append]
          exact hm.insert hinj hH hwcur

/-- **The spec of `cumulativeWork`**: it returns the weight of the block, and memoizes weights only. -/
theorem cumulativeWork_spec (ht : Tallied H origin s) (hs : Spine H s tip) {b : FullBlock} {w : Nat}
    (hb : s.blocks[b.getHash.val]? = some b) (hok : s.cumulativeWork b = .ok (w, s')) :
    b.header.Weighs H origin w ∧ Tallied H origin s' := by
  have hre := cumulativeWork_reindexed hok
  obtain ⟨⟨base, l⟩, hwalk, hok⟩ := bind_eq_ok.mp hok
  obtain ⟨walked, hl, hw, hm⟩ := pendingWork_spec hinj ht hs hb hwalk
  rw [List.append_nil] at hl
  subst hl
  have heq : l.foldl memoWork (base, s) = (w, s') := pure_eq_ok.mp hok
  rw [heq] at hw hm
  refine ⟨hw, ?_⟩
  obtain ⟨work, txs, txBlock, addrTx, rfl⟩ := hre
  exact ⟨ht.originHash, ht.originMem, hm, ht.weighs, ht.positive⟩

end Distinct

/-! ## §3 — on the canonical chain the walk returns -/

/-- The canonical block of a height is the block indexed there. -/
theorem Spine.canonical_eq (hs : Spine H s tip) {b : FullBlock} (hle : b.getHeight ≤ tip.getHeight)
    (hcanonical : s.isCanonical b = true) (hbody : s.blocks[b.getHash.val]? = some b) :
    s.originHeight ≤ b.getHeight ∧
      (s.originHeight < b.getHeight → s.heights[b.getHeight - 1]? = some b.getPrevHash) := by
  have horigin := hs.origin_le hbody
  obtain ⟨c, hc, hcbody, _, hlink⟩ := hs.canonical b.getHeight horigin hle
  have hindex : s.heights[b.getHeight]? = some b.getHash.val := of_decide_eq_true hcanonical
  have hhash : b.getHash.val = c.getHash.val := Option.some_injective _ (hindex.symm.trans hc)
  rw [← hhash, hbody] at hcbody
  obtain rfl := Option.some_injective _ hcbody
  exact ⟨horigin, hlink⟩

/-- The parent of a canonical block above the origin is canonical. -/
theorem Spine.canonical_parent (hs : Spine H s tip) {b : FullBlock} (hle : b.getHeight ≤ tip.getHeight)
    (hcanonical : s.isCanonical b = true) (hbody : s.blocks[b.getHash.val]? = some b)
    (habove : s.originHeight < b.getHeight) :
    ∃ p, s.blocks[b.getPrevHash]? = some p ∧ s.isCanonical p = true ∧ Follows p b := by
  have hlink := (hs.canonical_eq hle hcanonical hbody).2 habove
  obtain ⟨p, hp, hpbody, hheight, _⟩ := hs.canonical (b.getHeight - 1) (by omega) (by omega)
  have hhash : b.getPrevHash = p.getHash.val := Option.some_injective _ (hlink.symm.trans hp)
  refine ⟨p, hhash ▸ hpbody, ?_, by omega, hhash⟩
  rw [isCanonical, hheight, hp]
  simp

theorem pendingWork_total (hs : Spine H s tip) {fuel : Nat} {b : FullBlock} (pending : List FullBlock)
    (hle : b.getHeight ≤ tip.getHeight) (hcanonical : s.isCanonical b = true)
    (hbody : s.blocks[b.getHash.val]? = some b) (hfuel : b.getHeight < s.originHeight + fuel) :
    ∃ r, s.pendingWork fuel b pending = .ok r := by
  induction fuel generalizing b pending with
  | zero =>
    have := (hs.canonical_eq hle hcanonical hbody).1
    omega
  | succ fuel ih =>
    rw [pendingWork]
    cases s.work[b.getHash.val]? with
    | some w => exact ⟨_, rfl⟩
    | none =>
      by_cases horigin : b.getHash.val = s.originHash
      · exact ⟨_, if_pos horigin⟩
      · dsimp only
        rw [if_neg horigin]
        have habove : s.originHeight < b.getHeight := by
          rcases hs.rooted _ b hbody with heq | hlt
          · exact absurd heq horigin
          · exact hlt
        obtain ⟨p, hp, hpc, hfollows⟩ := hs.canonical_parent hle hcanonical hbody habove
        have hstep := hfollows.1
        obtain ⟨r, hr⟩ := ih (b := p) (b :: pending) (by omega) hpc (hfollows.2 ▸ hp) (by omega)
        exact ⟨r, bind_eq_ok.mpr ⟨p, getBlockByHash_eq_ok.mpr hp, hr⟩⟩

/-- A store has at least one body for every canonical height. -/
theorem Spine.length_le_size (hs : Spine H s tip) :
    tip.getHeight + 1 - s.originHeight ≤ s.blocks.size := by
  -- the canonical hashes are distinct, since a body has one height
  have hex : ∀ i : Nat, ∃ h : Bytes, i < tip.getHeight + 1 - s.originHeight →
      ∃ b, s.blocks[h]? = some b ∧ b.getHeight = s.originHeight + i := by
    intro i
    by_cases hi : i < tip.getHeight + 1 - s.originHeight
    · obtain ⟨b, _, hbody, hheight, _⟩ := hs.canonical (s.originHeight + i) (by omega) (by omega)
      exact ⟨_, fun _ => ⟨b, hbody, hheight⟩⟩
    · exact ⟨[], fun h => absurd h hi⟩
  choose f hf using hex
  have hle := Bucket.length_le_size (b := s.blocks)
    (l := (List.range (tip.getHeight + 1 - s.originHeight)).map f) ?_ ?_
  · simpa using hle
  · refine List.Nodup.map_on ?_ List.nodup_range
    intro i hi j hj heq
    obtain ⟨b, hb, hbi⟩ := hf i (List.mem_range.mp hi)
    obtain ⟨c, hc, hcj⟩ := hf j (List.mem_range.mp hj)
    rw [heq, hc] at hb
    obtain rfl := Option.some_injective _ hb
    omega
  · intro h hmem
    obtain ⟨i, hi, rfl⟩ := List.mem_map.mp hmem
    obtain ⟨b, hb, _⟩ := hf i (List.mem_range.mp hi)
    rw [hb]
    rfl

/-- **On the canonical chain `cumulativeWork` returns.** -/
theorem cumulativeWork_total (hs : Spine H s tip) {b : FullBlock} (hle : b.getHeight ≤ tip.getHeight)
    (hcanonical : s.isCanonical b = true) (hbody : s.blocks[b.getHash.val]? = some b) :
    ∃ w s', s.cumulativeWork b = .ok (w, s') := by
  have hsize := hs.length_le_size
  have hfuel : b.getHeight < s.originHeight + (s.blocks.size + 1) := by
    have := hs.origin
    omega
  obtain ⟨⟨base, l⟩, hr⟩ := pendingWork_total hs [] hle hcanonical hbody hfuel
  exact ⟨_, _, bind_eq_ok.mpr ⟨_, hr, rfl⟩⟩

/-! ## §4 — calls keep the tally -/

/-- Storing weighed blocks, dropping blocks and forgetting memoized values keep a store tallied. -/
theorem Tallied.restore (ht : Tallied H origin s) (horigin : s'.originHash = s.originHash)
    (hwork : ∀ (h : Bytes) (w : Nat), s'.work[h]? = some w → s.work[h]? = some w)
    (hblocks : ∀ (h : Bytes) (b : FullBlock), s'.blocks[h]? = some b → s.blocks[h]? = some b ∨
      (∃ w, b.header.Weighs H origin w) ∧ 0 < workOf b) : Tallied H origin s' := by
  refine ⟨horigin.trans ht.originHash, ht.originMem, ?_, ?_, ?_⟩
  · exact fun x hx w hw => ht.memo x hx w (hwork _ w hw)
  · intro h b hb
    rcases hblocks h b hb with hold | ⟨hw, _⟩
    · exact ht.weighs h b hold
    · exact hw
  · intro h b hb
    rcases hblocks h b hb with hold | ⟨_, hpos⟩
    · exact ht.positive h b hold
    · exact .inr hpos

/-- A block on top of a weighed one weighs its own difficulty more. -/
theorem weighs_of_follows {p b : FullBlock} {w : Nat} (hp : p.header ∈ H)
    (hw : p.header.Weighs H origin w) (hfollows : Follows p b) (hne : b.header ≠ origin) :
    b.header.Weighs H origin (w + workOf b) :=
  .child hw hp hfollows.2 hne

/-- A block that passed the context-free rules above height zero declares a positive difficulty. -/
theorem workOf_pos {now : Nat} {b : FullBlock} (h : b.checkError now = .ok ()) (hheight : 0 < b.getHeight) :
    0 < workOf b := by
  have hpow := (FullBlock.checkError_eq_ok.mp h).pow
  rw [FullBlock.verifyNonce, if_neg (show b.header.height ≠ 0 from hheight.ne')] at hpow
  obtain ⟨_, hne, _⟩ := bind_eq_ok.mp hpow
  exact Nat.pos_of_ne_zero (ensure_eq_ok.mp hne)

theorem Tallied.pruneSideBlocks (ht : Tallied H origin s) (below : Nat) :
    Tallied H origin (s.pruneSideBlocks below) := by
  have hget := dropSideBlocks_get (s.sideVictims below) s
  obtain ⟨_, _, _, heq⟩ := dropSideBlocks_eq (s.sideVictims below) s
  refine ht.restore (by unfold BlockStore.pruneSideBlocks; rw [heq]) ?_ ?_
  · intro h w hw
    unfold BlockStore.pruneSideBlocks at hw
    rw [(hget h).2.1] at hw
    split at hw
    · cases hw
    · exact hw
  · intro h b hb
    unfold BlockStore.pruneSideBlocks at hb
    rw [(hget h).1] at hb
    split at hb
    · cases hb
    · exact .inl hb

theorem Tallied.maintain {S : Type} (L : Ledger S) (ht : Tallied H origin s) (b : FullBlock) :
    Tallied H origin (L.maintain b s) := by
  unfold Ledger.maintain
  split
  · apply Tallied.pruneSideBlocks
    split
    · exact ht
    · exact ⟨ht.originHash, ht.originMem, ht.memo, ht.weighs, ht.positive⟩
  · exact ht

theorem putTxs_work (b : FullBlock) (s : BlockStore) : (s.putTxs b).work = s.work := by
  unfold putTxs
  induction b.txs generalizing s with
  | nil => rfl
  | cons tx l ih => exact ih _

theorem delTxs_work (txs : List FullTx) (s : BlockStore) : (s.delTxs txs).work = s.work := by
  unfold delTxs
  induction txs generalizing s with
  | nil => rfl
  | cons tx l ih => exact ih _

/-- Unlinking heights touches neither bodies nor memoized work nor the origin. -/
theorem unlinkHeights_frame (l : List Nat) (h : l.foldlM unlinkHeight s = .ok s') :
    s'.work = s.work ∧ s'.originHash = s.originHash ∧ s'.blocks = s.blocks := by
  induction l generalizing s with
  | nil =>
    obtain rfl := pure_eq_ok.mp h
    exact ⟨rfl, rfl, rfl⟩
  | cons k l ih =>
    rw [List.foldlM_cons] at h
    obtain ⟨t, ht, h⟩ := bind_eq_ok.mp h
    obtain ⟨old, _, ht⟩ := bind_eq_ok.mp ht
    obtain rfl := pure_eq_ok.mp ht
    obtain ⟨h1, h2, h3⟩ := ih h
    obtain ⟨_, _, _, _, heq⟩ := delTxs_reindexed old.txs s
    rw [h1, h2, h3]
    refine ⟨delTxs_work _ _, ?_, ?_⟩ <;> rw [heq]

/-- Connecting a branch stores its blocks, and touches neither memoized work nor the origin. -/
theorem connectBranch_frame (l : List FullBlock) (s : BlockStore) :
    (l.foldl connectBlock s).work = s.work ∧ (l.foldl connectBlock s).originHash = s.originHash ∧
      ∀ (hash : Bytes) (b : FullBlock), (l.foldl connectBlock s).blocks[hash]? = some b →
        b ∈ l ∨ s.blocks[hash]? = some b := by
  induction l generalizing s with
  | nil => exact ⟨rfl, rfl, fun _ _ hb => .inr hb⟩
  | cons c l ih =>
    obtain ⟨h1, h2, h3⟩ := ih (s.connectBlock c)
    obtain ⟨_, _, _, _, heq, _⟩ := connectBlock_eq s c
    refine ⟨h1.trans (by rw [heq]), h2.trans (by rw [heq]), fun hash b hb => ?_⟩
    rcases h3 hash b hb with hmem | hold
    · exact .inl (List.mem_cons_of_mem c hmem)
    · rw [heq] at hold
      change (s.blocks.insert c.getHash.val c)[hash]? = some b at hold
      rw [Bucket.get_insert] at hold
      split at hold
      · cases hold
        exact .inl List.mem_cons_self
      · exact .inr hold

/-- A switch stores blocks of the branch, and touches neither memoized work nor the origin. -/
theorem switchToBranch_frame {branch : List FullBlock} (h : s.switchToBranch branch = .ok s') :
    s'.work = s.work ∧ s'.originHash = s.originHash ∧
      ∀ (hash : Bytes) (b : FullBlock), s'.blocks[hash]? = some b → b ∈ branch ∨ s.blocks[hash]? = some b := by
  cases branch with
  | nil => cases h
  | cons first rest =>
    rw [switchToBranch] at h
    obtain ⟨_, _, h⟩ := bind_eq_ok.mp h
    obtain ⟨_, _, h⟩ := bind_eq_ok.mp h
    obtain ⟨t, hu, h⟩ := bind_eq_ok.mp h
    obtain rfl := pure_eq_ok.mp h
    obtain ⟨h1, h2, h3⟩ := unlinkHeights_frame _ hu
    obtain ⟨h1', h2', h3'⟩ := connectBranch_frame (first :: rest) t
    refine ⟨h1'.trans h1, h2'.trans h2, fun hash b hb => ?_⟩
    rcases h3' hash b hb with hmem | hold
    · exact .inl hmem
    · exact .inr (h3 ▸ hold)

end BlockStore

namespace Node

open BlockStore

variable {S : Type} {L : Ledger S} {now : Nat} {H : Set BlockHeader} {origin : BlockHeader}
  {n n' : Node S} {tip block : FullBlock} {branch : List FullBlock}

/-- A block that the fast path accepted above height zero passed the context-free rules. -/
theorem checkError_of_checkBlockTxn (hgen : L.isGenesis block = .ok true → block.getHeight = 0)
    (hheight : 0 < block.getHeight) (h : checkBlockTxn L now block n = .ok ()) :
    block.checkError now = .ok () := by
  obtain ⟨genesis, hgenesis, h⟩ := bind_eq_ok.mp h
  cases genesis with
  | true => exact absurd (hgen hgenesis) hheight.ne'
  | false =>
    rw [if_neg (by simp)] at h
    obtain ⟨_, hcheck, _⟩ := bind_eq_ok.mp h
    exact hcheck

section Distinct

variable (hinj : Set.InjOn BlockHeader.getHash H)
include hinj

theorem originHeight_eq {s : BlockStore} (ht : Tallied H origin s) (hs : Sound H s tip) :
    s.originHeight = origin.height := by
  obtain ⟨c, hc, hbody, hheight, _⟩ := hs.canonical s.originHeight le_rfl hs.origin
  have hkey : c.header.key = origin.key :=
    (Option.some_injective _ (hc.symm.trans hs.originAt)).trans ht.originHash
  have hheader := BlockHeader.injOn_key hinj (hs.headers _ _ hbody) ht.originMem hkey
  exact hheight.symm.trans (congrArg BlockHeader.height hheader)

theorem ne_origin {s : BlockStore} (ht : Tallied H origin s) (hs : Sound H s tip)
    (hb : s.originHeight < block.getHeight) : block.header ≠ origin := by
  intro heq
  have h1 : block.getHeight = origin.height := congrArg BlockHeader.height heq
  have h2 := originHeight_eq hinj ht hs
  omega

/-- **Along the canonical chain the work grows**: a lower canonical block is strictly lighter. -/
theorem canonical_lighter {s : BlockStore} (ht : Tallied H origin s) (hs : Sound H s tip) {b c : FullBlock}
    {w wc : Nat} (hb : s.isCanonical b = true) (hbody : s.blocks[b.getHash.val]? = some b)
    (hc : s.isCanonical c = true) (hcbody : s.blocks[c.getHash.val]? = some c)
    (hlt : b.getHeight < c.getHeight) (hle : c.getHeight ≤ tip.getHeight)
    (hw : b.header.Weighs H origin w) (hwc : c.header.Weighs H origin wc) : w < wc := by
  induction hk : c.getHeight generalizing c wc with
  | zero => omega
  | succ k ih =>
    have horigin := hs.origin_le hbody
    obtain ⟨p, hp, hpc, hfollows⟩ := hs.canonical_parent hle hc hcbody (by omega)
    have hstep := hfollows.1
    have hpbody : s.blocks[p.getHash.val]? = some p := hfollows.2 ▸ hp
    have hne : c.header ≠ origin := ne_origin hinj ht hs (by omega)
    -- the weight of `c` is its parent's and its own difficulty, which is positive
    obtain ⟨x, hx, hup, wp, hwx, rfl⟩ := hwc.parent hne
    obtain rfl : x = p.header :=
      BlockHeader.injOn_key hinj hx (hs.headers _ _ hp) (hup.symm.trans hfollows.2)
    have hpos : 0 < workOf c := (ht.positive _ _ hcbody).resolve_left hne
    show w < wp + workOf c
    rcases Nat.lt_or_ge b.getHeight p.getHeight with hbp | hpb
    · have := ih hpc hpbody hbp (by omega) hwx (by omega)
      omega
    · have hsame : b.getHash.val = p.getHash.val := by
        have h1 : s.heights[b.getHeight]? = some b.getHash.val := of_decide_eq_true hb
        have h2 : s.heights[p.getHeight]? = some p.getHash.val := of_decide_eq_true hpc
        rw [show b.getHeight = p.getHeight by omega, h2] at h1
        exact (Option.some_injective _ h1).symm
      rw [hsame, hpbody] at hbody
      obtain rfl := Option.some_injective _ hbody
      have := hw.unique (BlockHeader.injOn_key hinj) hwx
      omega

theorem extendTip_tallied (hgen : L.isGenesis block = .ok true → block.getHeight = 0)
    (ht : Tallied H origin n.store) (hs : Sound H n.store tip) (hb : block.header ∈ H)
    (hprev : block.getPrevHash = n.store.latestHash) (hok : extendTip L now block n = .ok n') :
    Tallied H origin n'.store ∧ 0 < workOf block := by
  obtain ⟨hcheck, store, work, store', hput, hwork, _, hstore⟩ := extendTip_eq_ok hok
  obtain ⟨hfollows, hsound⟩ := hs.putNewBlock hinj hb hprev hput
  have hheight := hfollows.1
  have hpos := workOf_pos (checkError_of_checkBlockTxn hgen (by omega) hcheck) (by omega)
  have horigin := hs.origin
  obtain ⟨w, hw⟩ := ht.weighs _ _ hs.tipBody
  have hweighs := weighs_of_follows (hs.headers _ _ hs.tipBody) hw hfollows
    (ne_origin hinj ht hs (by omega))
  have hput' : Tallied H origin store := by
    obtain ⟨_, _, hput⟩ := bind_eq_ok.mp hput
    obtain rfl := pure_eq_ok.mp hput
    obtain ⟨_, _, _, _, heq⟩ := putTxs_reindexed block (n.store.putBlock block)
    refine ht.restore ?_ ?_ ?_
    · show ((n.store.putBlock block).putTxs block).originHash = _
      rw [heq]
      rfl
    · intro h w' hw'
      change ((n.store.putBlock block).putTxs block).work[h]? = some w' at hw'
      rw [putTxs_work] at hw'
      exact hw'
    · intro h b hb
      change ((n.store.putBlock block).putTxs block).blocks[h]? = some b at hb
      rw [heq] at hb
      change (n.store.blocks.insert block.getHash.val block)[h]? = some b at hb
      rw [Bucket.get_insert] at hb
      split at hb
      · cases hb
        exact .inr ⟨⟨_, hweighs⟩, hpos⟩
      · exact .inl hb
  obtain ⟨_, ht'⟩ := cumulativeWork_spec hinj hput' hsound.toSpine hsound.tipBody hwork
  exact ⟨hstore ▸ ht'.maintain L block, hpos⟩

/-- On the side path the block and the tip get their weights. -/
theorem Weighed.tallied {s s' : BlockStore} {prev tip' : FullBlock} {blockWork tipWork : Nat}
    (hw : Weighed now block s prev blockWork tip' tipWork s') (ht : Tallied H origin s)
    (hs : Sound H s tip) (hb : block.header ∈ H) :
    Tallied H origin s' ∧ block.header.Weighs H origin blockWork ∧
      tip'.header.Weighs H origin tipWork ∧ 0 < workOf block := by
  obtain ⟨hparent, hcheck, store, hwork, htip, htipWork⟩ := hw
  obtain ⟨_, herror, hcheck⟩ := bind_eq_ok.mp hcheck
  obtain ⟨_, hfollows, _⟩ := bind_eq_ok.mp hcheck
  have hfollows := ensure_eq_ok.mp hfollows
  have hle := hs.origin_le hparent
  have hheight := hfollows.1
  have hpos := workOf_pos herror (by omega)
  obtain ⟨w, hw⟩ := ht.weighs _ _ hparent
  have hweighs := weighs_of_follows (hs.headers _ _ hparent) hw hfollows
    (ne_origin hinj ht hs (by omega))
  have hput : Tallied H origin (s.putSideBlock block) := by
    refine ht.restore rfl (fun _ _ hw => hw) fun h b hb => ?_
    change (s.blocks.insert block.getHash.val block)[h]? = some b at hb
    rw [Bucket.get_insert] at hb
    split at hb
    · cases hb
      exact .inr ⟨⟨_, hweighs⟩, hpos⟩
    · exact .inl hb
  obtain ⟨top, _, hsound⟩ := hs.putSideBlock hinj hb (by omega)
  have hbody : (s.putSideBlock block).blocks[block.getHash.val]? = some block := by
    show (s.blocks.insert block.getHash.val block)[block.getHash.val]? = some block
    rw [Bucket.get_insert, if_pos rfl]
  obtain ⟨hblockWork, ht'⟩ := cumulativeWork_spec hinj hput hsound.toSpine hbody hwork
  have hsound' := hsound.reindexed (cumulativeWork_reindexed hwork)
  obtain rfl := hsound'.getLatestBlock htip
  obtain ⟨htipW, ht''⟩ := cumulativeWork_spec hinj ht' hsound'.toSpine hsound'.tipBody htipWork
  exact ⟨ht'', hblockWork, htipW, hpos⟩

omit hinj in
theorem switchToBranchTxn_tallied (ht : Tallied H origin n.store)
    (hb : ∀ b ∈ branch, (∃ w, b.header.Weighs H origin w) ∧ 0 < workOf b)
    (hok : switchToBranchTxn L branch n = .ok n') : Tallied H origin n'.store := by
  obtain ⟨first, rest, store, rfl, hswitch, hstore, _⟩ := switchToBranchTxn_eq_ok hok
  obtain ⟨hwork, horigin, hblocks⟩ := switchToBranch_frame hswitch
  rw [hstore]
  apply Tallied.maintain
  refine ht.restore horigin (fun h w hw => hwork ▸ hw) fun h b hmem => ?_
  rcases hblocks h b hmem with hin | hold
  · exact .inr (hb b hin)
  · exact .inl hold

theorem importSide_tallied (ht : Tallied H origin n.store) (hs : Sound H n.store tip)
    (hb : block.header ∈ H) (hok : importSide L now block n = .ok n') : Tallied H origin n'.store := by
  obtain ⟨prev, blockWork, tip', tipWork, store, hw, hcase⟩ := importSide_eq_ok hok
  obtain ⟨ht', _, _, _⟩ := hw.tallied hinj ht hs hb
  obtain ⟨_, hsound, _, _, hbody⟩ := hw.sound hinj hs hb
  rcases hcase with ⟨_, rfl⟩ | ⟨_, first, rest, hbranch, _, hswitch⟩
  · exact ht'
  · refine switchToBranchTxn_tallied ht' (fun b hmem => ?_) hswitch
    obtain ⟨⟨hash, hstored⟩, hside⟩ := collectBranch_mem hbranch ⟨_, hbody⟩ b hmem
    refine ⟨ht'.weighs hash b hstored, ?_⟩
    rcases ht'.positive hash b hstored with horigin | hpos
    · exact absurd horigin (ne_origin hinj ht' hsound (hsound.above_origin hstored hside))
    · exact hpos

theorem checkBranch_weighs {s : BlockStore} (ht : Tallied H origin s) (hs : Sound H s tip)
    {getBlock : Bytes → Except Err FullBlock} {prev : FullBlock} {l : List FullBlock}
    (hl : ∀ b ∈ l, b.header ∈ H) (hprev : prev.header ∈ H) (hle : s.originHeight ≤ prev.getHeight)
    (hw : ∃ w, prev.header.Weighs H origin w) (hok : checkBranch now getBlock prev l = .ok ()) :
    ∀ b ∈ l, (∃ w, b.header.Weighs H origin w) ∧ 0 < workOf b := by
  induction l generalizing prev with
  | nil => exact fun b hb => absurd hb List.not_mem_nil
  | cons c l ih =>
    obtain ⟨_, hc, hok⟩ := bind_eq_ok.mp hok
    obtain ⟨_, herror, hc⟩ := bind_eq_ok.mp hc
    obtain ⟨_, hfollows, _⟩ := bind_eq_ok.mp hc
    have hfollows := ensure_eq_ok.mp hfollows
    have hheight := hfollows.1
    obtain ⟨w, hw⟩ := hw
    have hweighs := weighs_of_follows hprev hw hfollows (ne_origin hinj ht hs (by omega))
    intro b hb
    rcases List.mem_cons.mp hb with rfl | hb
    · exact ⟨⟨_, hweighs⟩, workOf_pos herror (by omega)⟩
    · exact ih (fun d hd => hl d (List.mem_cons_of_mem c hd)) (hl c List.mem_cons_self) (by omega)
        ⟨_, hweighs⟩ hok b hb

theorem switchToBranch_tallied (ht : Tallied H origin n.store) (hs : Sound H n.store tip)
    (hb : ∀ b ∈ branch, b.header ∈ H) (hok : switchToBranch L now branch n = .ok n') :
    Tallied H origin n'.store := by
  obtain ⟨first, rest, forkParent, base, tip', tipWork, store, store', rfl, hparent, hcheck, hbase, htip,
    htipWork, _, hswitch⟩ := switchToBranch_eq_ok hok
  have hkey := hs.keyed _ _ hparent
  obtain ⟨_, ht'⟩ := cumulativeWork_spec hinj ht hs.toSpine (hkey ▸ hparent) hbase
  have hsound' := hs.reindexed (cumulativeWork_reindexed hbase)
  obtain rfl := hsound'.getLatestBlock htip
  obtain ⟨_, ht''⟩ := cumulativeWork_spec hinj ht' hsound'.toSpine hsound'.tipBody htipWork
  refine switchToBranchTxn_tallied ht'' ?_ hswitch
  exact checkBranch_weighs hinj ht hs hb (hs.headers _ _ hparent) (hs.origin_le hparent)
    (ht.weighs _ _ hparent) hcheck

end Distinct
end Node
/-! ## §6 — the bodies a call leaves -/

omit [Crypto] in
theorem BlockStore.maintain_blocks {S : Type} {L : Ledger S} {b c : FullBlock} {s : BlockStore} {h : Bytes}
    (hc : (L.maintain b s).blocks[h]? = some c) : s.blocks[h]? = some c := by
  have hprune : ∀ (below : Nat) (t : BlockStore), (t.pruneSideBlocks below).blocks[h]? = some c →
      t.blocks[h]? = some c := by
    intro below t ht
    unfold BlockStore.pruneSideBlocks at ht
    rw [(BlockStore.dropSideBlocks_get _ t h).1] at ht
    split at ht
    · cases ht
    · exact ht
  unfold Ledger.maintain at hc
  split at hc
  · have := hprune _ _ hc
    split at this <;> exact this
  · exact hc

namespace Node

open BlockStore

section Bodies

variable {S : Type} {L : Ledger S} {now : Nat} {n n' : Node S} {block b : FullBlock}
  {branch : List FullBlock} {hash : Bytes}

/-- Putting a new block stores it, and touches no other body and not the origin. -/
theorem putNewBlock_blocks {s s' : BlockStore} (hput : s.putNewBlock block = .ok s') :
    s'.originHash = s.originHash ∧
      ∀ (hash : Bytes) (b : FullBlock), s'.blocks[hash]? = some b → b = block ∨ s.blocks[hash]? = some b := by
  obtain ⟨_, _, hput⟩ := bind_eq_ok.mp hput
  obtain rfl := pure_eq_ok.mp hput
  obtain ⟨_, _, _, _, heq⟩ := putTxs_reindexed block (s.putBlock block)
  constructor
  · show ((s.putBlock block).putTxs block).originHash = _
    rw [heq]
    rfl
  · intro hash b hbody
    change ((s.putBlock block).putTxs block).blocks[hash]? = some b at hbody
    rw [heq] at hbody
    change (s.blocks.insert block.getHash.val block)[hash]? = some b at hbody
    rw [Bucket.get_insert] at hbody
    split at hbody
    · exact .inl (Option.some_injective _ hbody).symm
    · exact .inr hbody

theorem extendTip_blocks (hok : extendTip L now block n = .ok n')
    (hbody : n'.store.blocks[hash]? = some b) : b = block ∨ n.store.blocks[hash]? = some b := by
  obtain ⟨_, store, work, store', hput, hwork, _, hstore⟩ := extendTip_eq_ok hok
  rw [hstore] at hbody
  have hbody := maintain_blocks hbody
  obtain ⟨_, _, _, _, rfl⟩ := cumulativeWork_reindexed hwork
  exact (putNewBlock_blocks hput).2 hash b hbody

theorem Weighed.blocks {s s' : BlockStore} {prev tip : FullBlock} {blockWork tipWork : Nat}
    (hw : Weighed now block s prev blockWork tip tipWork s') (hbody : s'.blocks[hash]? = some b) :
    b = block ∨ s.blocks[hash]? = some b := by
  obtain ⟨_, _, middle, hwork, _, htipWork⟩ := hw
  obtain ⟨_, _, _, _, rfl⟩ :=
    (cumulativeWork_reindexed hwork).trans (cumulativeWork_reindexed htipWork)
  change (s.blocks.insert block.getHash.val block)[hash]? = some b at hbody
  rw [Bucket.get_insert] at hbody
  split at hbody
  · exact .inl (Option.some_injective _ hbody).symm
  · exact .inr hbody

theorem switchToBranchTxn_blocks (hok : switchToBranchTxn L branch n = .ok n')
    (hbody : n'.store.blocks[hash]? = some b) : b ∈ branch ∨ n.store.blocks[hash]? = some b := by
  obtain ⟨first, rest, store, rfl, hput, hstore, _⟩ := switchToBranchTxn_eq_ok hok
  rw [hstore] at hbody
  exact (switchToBranch_frame hput).2.2 hash b (maintain_blocks hbody)

end Bodies
end Node

end NgCore
