/-
# NgCore.Chain.Collect — the uncles a node collects for its own block

`CollectUncles` of `blockchain/fork.go` picks side blocks by parentage and by what is referenced already. The rest of
the uncle rules, the timestamp and the difficulty of the slot and the format of the header, it leaves to whatever was
checked when the block was stored, on whichever path.

* `validateUncles_ok` and `checkUncles_ok` are the converses of what the two rule sets establish.
* The side path checks a block against its parent. The tip path does so too, except under the ORIGIN, where
  `checkBlockTxn` skips the target rule; and neither path bounds the length of the difficulty, which the rules for
  uncles do. `BlockStore.Regular` is what is then left to ask of a block.
* On a node that was handed regular blocks only, the collected uncles pass (`Node.collected_valid`); without it a
  demoted first block is collected and refused (`Node.collected_invalid`).

DELIVERABLE: `Node.collected_valid`.
-/
import NgCore.Mining
import NgCore.Chain.Adopted
import NgCore.Chain.Ranked
import NgCore.Chain.Retarget
import NgCore.Chain.Handmade
import NgCore.Chain.Uncles

namespace NgCore

open Lib (Bucket)
open Lib.Rlp (beVal)

/-! ## §1 — slots -/

/-- **`parent.SlotOf x`** — the timestamp and the difficulty of a header are right for a child of `parent`. -/
def BlockHeader.SlotOf (parent x : BlockHeader) : Prop :=
  parent.timestamp < x.timestamp ∧ getNextDiff x.height x.timestamp parent = .ok (beVal x.difficulty)

instance (parent x : BlockHeader) : Decidable (parent.SlotOf x) := inferInstanceAs (Decidable (_ ∧ _))

section Rules

variable [Crypto] {now : Nat} {block : FullBlock} {uncles : List BlockHeader}

theorem slotOf_of_checkBlockTarget {prev : FullBlock} {u : Unit} (h : checkBlockTarget block prev = .ok u) :
    prev.header.SlotOf block.header := by
  rcases checkBlockTarget_facts h with ⟨htime, hdiff, _⟩
  exact ⟨htime, hdiff⟩

/-- A checked block above height zero, with a difficulty of bounded length, has the header of an uncle. -/
theorem FullBlock.Checked.standalone {t : Nat} (h : block.Checked t) (ht : t ≤ now) (hpos : 0 < block.getHeight)
    (hdiff : block.header.difficulty.length ≤ diffSize) : block.header.checkStandaloneError now = .ok () := by
  have hpow := h.pow
  rw [FullBlock.verifyNonce, if_neg (show block.header.height ≠ 0 from hpos.ne')] at hpow
  rcases bind_eq_ok.mp hpow with ⟨_, hzero, hmeets⟩
  rw [ensure_eq_ok] at hzero hmeets
  have hwitness : block.header.witnessRoot.length = hashSize := by
    rw [← h.witnessRoot]
    exact (calcWitnessRoot block.txs block.commits).property
  have hnonempty : block.header.difficulty ≠ [] := by
    intro hnil
    rw [hnil] at hzero
    exact hzero rfl
  simp only [BlockHeader.checkStandaloneError, BlockHeader.checkPow, bind_eq_ok, ensure_eq_ok, exists_const]
  exact ⟨⟨h.prevBlockHash, h.txTrieHash, hwitness, h.unclesHashSize, h.stateRoot, h.coinbase⟩, ⟨hnonempty, hdiff⟩,
    h.baseFee, h.nonce, hpos.ne', h.timestamp.trans (Nat.add_le_add_right ht _), hzero, hmeets⟩

/-! ## §2 — uncles that pass -/

/-- The context-free rules for uncles, from facts about each. -/
theorem checkUncles_ok {prevHash : Bytes} {seen : List Bytes32} (hnodup : (uncles.map BlockHeader.getHash).Nodup)
    (hall : ∀ u ∈ uncles, u.checkStandaloneError now = .ok () ∧ u.getHash ∉ seen ∧ u.getHash.val ≠ prevHash) :
    FullBlock.checkUncles now prevHash seen uncles = .ok () := by
  induction uncles generalizing seen with
  | nil => rfl
  | cons u uncles ih =>
    rw [List.map_cons, List.nodup_cons] at hnodup
    rw [List.forall_mem_cons] at hall
    rcases hall with ⟨⟨hu, hseen, hprev⟩, hrest⟩
    rw [FullBlock.checkUncles, bind_eq_ok]
    refine ⟨(), hu, bind_eq_ok.mpr ⟨(), ensure_eq_ok.mpr hseen, bind_eq_ok.mpr ⟨(), ensure_eq_ok.mpr hprev, ?_⟩⟩⟩
    refine ih hnodup.2 fun w hw => ⟨(hrest w hw).1, fun hmem => ?_, (hrest w hw).2.2⟩
    rcases List.mem_cons.mp hmem with heq | hmem
    · exact hnodup.1 (heq ▸ List.mem_map_of_mem hw)
    · exact (hrest w hw).2.1 hmem

/-- The uncle loop of `validateUncles`, from facts about each uncle. -/
theorem checkUncleSlots_ok {height : Nat} {anc : Bucket Nat FullBlock} {refd : List Bytes32}
    (hnodup : (uncles.map BlockHeader.getHash).Nodup)
    (hall : ∀ u ∈ uncles, u.height < height ∧ height ≤ u.height + uncleMaxDepth ∧
      (∃ parent, anc[pred64 u.height]? = some parent ∧ parent.getHash.val = u.prevBlockHash ∧
        parent.header.SlotOf u) ∧
      (anc[u.height]?).map FullBlock.getHash ≠ some u.getHash ∧ u.getHash ∉ refd) :
    checkUncleSlots height anc refd uncles = .ok () := by
  induction uncles generalizing refd with
  | nil => rfl
  | cons u uncles ih =>
    rw [List.map_cons, List.nodup_cons] at hnodup
    rw [List.forall_mem_cons] at hall
    rcases hall with ⟨⟨hlt, hle, ⟨parent, hparent, hprev, htime, hdiff⟩, hcanonical, hnew⟩, hrest⟩
    rw [checkUncleSlots, bind_eq_ok]
    refine ⟨(), ensure_eq_ok.mpr ⟨hlt, hle⟩, ?_⟩
    rw [hparent]
    refine bind_eq_ok.mpr ⟨(), ensure_eq_ok.mpr hprev, bind_eq_ok.mpr ⟨(), ensure_eq_ok.mpr hcanonical, ?_⟩⟩
    refine bind_eq_ok.mpr ⟨(), ensure_eq_ok.mpr hnew, bind_eq_ok.mpr ⟨(), ensure_eq_ok.mpr htime, ?_⟩⟩
    refine bind_eq_ok.mpr ⟨_, hdiff, bind_eq_ok.mpr ⟨(), ensure_eq_ok.mpr rfl, ?_⟩⟩
    refine ih hnodup.2 fun w hw => ?_
    rcases hrest w hw with ⟨hlt', hle', hpar', hcan', hnew'⟩
    refine ⟨hlt', hle', hpar', hcan', fun hmem => ?_⟩
    rcases List.mem_cons.mp hmem with heq | hmem
    · exact hnodup.1 (heq ▸ List.mem_map_of_mem hw)
    · exact hnew' hmem

/-- **The ancestor walk succeeds** on a chain the lookup knows, and notes no uncle from below its window. -/
theorem uncleAncestors_ok {getBlock : Bytes → Except Err FullBlock} (lowest : Nat) {rest : List FullBlock} :
    ∀ (fuel : Nat) {top cur : FullBlock} (anc : Bucket Nat FullBlock) (refd : List Bytes32),
      Descends (top :: rest) → (∀ b ∈ rest, Resolves getBlock b) → cur.header = top.header → top.getHeight < fuel →
      ∃ anc' refd', uncleAncestors getBlock lowest fuel cur anc refd = .ok (anc', refd') ∧
        ∀ x ∈ refd', x ∈ refd ∨ ∃ b ∈ rest, lowest ≤ b.getHeight ∧ ∃ u ∈ b.uncles, u.getHash = x := by
  induction rest with
  | nil =>
    intro fuel top cur anc refd hdesc _ hcur hfuel
    have hzero : top.getHeight = 0 := hdesc
    have hheight : cur.getHeight = 0 := (congrArg BlockHeader.height hcur).trans hzero
    cases fuel with
    | zero => omega
    | succ fuel =>
      rw [uncleAncestors, if_neg (by omega)]
      exact ⟨anc, refd, rfl, fun _ hx => .inl hx⟩
  | cons p rest ih =>
    intro fuel top cur anc refd hdesc hresolves hcur hfuel
    rcases descends_cons.mp hdesc with ⟨⟨hheight, hprev⟩, hdesc'⟩
    rw [List.forall_mem_cons] at hresolves
    have hcurHeight : cur.getHeight = top.getHeight := congrArg BlockHeader.height hcur
    cases fuel with
    | zero => omega
    | succ fuel =>
      rw [uncleAncestors]
      split
      · next hlt =>
        rcases hresolves.1 with ⟨p', hp', hheader, huncles⟩
        have hcurPrev : cur.getPrevHash = p.getHash.val := (congrArg BlockHeader.prevBlockHash hcur).trans hprev
        rw [hcurPrev, hp']
        rcases ih fuel (anc.insert p'.getHeight p') (p'.uncles.map BlockHeader.getHash ++ refd) hdesc' hresolves.2
          hheader (by omega) with ⟨anc', refd', hwalk, honly⟩
        refine ⟨anc', refd', hwalk, fun x hx => ?_⟩
        rcases honly x hx with hold | ⟨b, hb, hlow, hu⟩
        · rcases List.mem_append.mp hold with hmem | hold
          · rcases List.mem_map.mp hmem with ⟨u, hu, rfl⟩
            exact .inr ⟨p, List.mem_cons_self, by omega, u, huncles ▸ hu, rfl⟩
          · exact .inl hold
        · exact .inr ⟨b, List.mem_cons_of_mem p hb, hlow, hu⟩
      · exact ⟨anc, refd, rfl, fun _ hx => .inl hx⟩

/-- **Uncles that pass `validateUncles`**, on a chain the lookup knows. -/
theorem validateUncles_ok {getBlock : Bytes → Except Err FullBlock} {rest : List FullBlock}
    (hdesc : Descends (block :: rest)) (hresolves : ∀ b ∈ rest, Resolves getBlock b)
    (hnodup : (block.uncles.map BlockHeader.getHash).Nodup)
    (hall : ∀ u ∈ block.uncles, u.height < block.getHeight ∧ block.getHeight ≤ u.height + uncleMaxDepth ∧
      (∃ p ∈ rest, p.getHeight + 1 = u.height ∧ p.getHash.val = u.prevBlockHash ∧ p.header.SlotOf u) ∧
      (∀ c ∈ rest, c.getHeight = u.height → c.getHash ≠ u.getHash) ∧
      ∀ c ∈ rest, block.getHeight ≤ c.getHeight + (uncleMaxDepth + 1) → ∀ w ∈ c.uncles, w.getHash ≠ u.getHash) :
    validateUncles getBlock block = .ok () := by
  unfold validateUncles
  split
  · rfl
  · rcases uncleAncestors_ok (block.getHeight - (uncleMaxDepth + 1))
      (block.getHeight + (getBlock block.getPrevHash).toOption.elim 0 FullBlock.getHeight + 2) ∅ [] hdesc hresolves rfl
      (by omega) with ⟨anc, refd, hwalk, hrefd⟩
    rcases uncleAncestors_eq_ok hdesc hresolves rfl hwalk with ⟨hsees, honly, _, _⟩
    refine bind_eq_ok.mpr ⟨(anc, refd), hwalk, checkUncleSlots_ok hnodup fun u hu => ?_⟩
    rcases hall u hu with ⟨hlt, hle, ⟨p, hp, hheight, hprev, hslot⟩, hcanonical, hnew⟩
    refine ⟨hlt, hle, ?_, fun hsame => ?_, fun hmem => ?_⟩
    · rcases hsees.ancestor p hp (by omega) with ⟨p', hp', hheader⟩
      refine ⟨p', ?_, ?_, hheader ▸ hslot⟩
      · rw [pred64_of_pos (by omega), show u.height - 1 = p.getHeight by omega]
        exact hp'
      · rw [← hprev]
        exact congrArg BlockHeader.key hheader
    · rcases Option.map_eq_some_iff.mp hsame with ⟨c', hc', hhash⟩
      rcases honly _ _ hc' with hnone | ⟨c, hc, hheight', hheader⟩
      · simp at hnone
      · exact hcanonical c hc hheight' ((congrArg BlockHeader.getHash hheader).symm.trans hhash)
    · rcases hrefd _ hmem with hnil | ⟨c, hc, hlow, w, hw, hhash⟩
      · cases hnil
      · exact hnew c hc (by omega) w hw hhash

theorem height_lt_of_validateUncles {getBlock : Bytes → Except Err FullBlock} {x : Unit}
    (h : validateUncles getBlock block = .ok x) : ∀ u ∈ block.uncles, u.height < block.getHeight := by
  unfold validateUncles at h
  split at h
  · next hnil =>
    rw [hnil]
    exact nofun
  · rcases bind_eq_ok.mp h with ⟨⟨anc, refd⟩, _, hslots⟩
    exact fun u hu => ((checkUncleSlots_eq_ok hslots).2 u hu).1

end Rules

/-! ## §3 — what is collected -/

namespace BlockStore

variable [Crypto] {s : BlockStore}

/-- The picked headers are distinct, few, and each is that of an eligible candidate. -/
theorem pickUncles_spec (s : BlockStore) (room : Nat) (refd : List Bytes32) (l : List FullBlock) :
    (s.pickUncles room refd l).length ≤ room ∧ ((s.pickUncles room refd l).map BlockHeader.getHash).Nodup ∧
      ∀ u ∈ s.pickUncles room refd l, ∃ c ∈ l, c.header = u ∧ s.eligibleUncle refd c = true := by
  induction l generalizing room refd with
  | nil => cases room <;> exact ⟨Nat.zero_le _, List.nodup_nil, nofun⟩
  | cons c l ih =>
    cases room with
    | zero => exact ⟨Nat.zero_le _, List.nodup_nil, nofun⟩
    | succ room =>
      rw [pickUncles]
      split
      · next helig =>
        rcases ih room (c.getHash :: refd) with ⟨hlen, hnodup, hall⟩
        -- a later pick was found eligible with this one noted as referenced
        have hlater : ∀ u ∈ s.pickUncles room (c.getHash :: refd) l, u.getHash ≠ c.getHash ∧
            ∃ d ∈ l, d.header = u ∧ s.eligibleUncle refd d = true := by
          intro u hu
          rcases hall u hu with ⟨d, hd, rfl, hd'⟩
          simp only [eligibleUncle, Bool.and_eq_true, decide_eq_true_eq, List.mem_cons, not_or] at hd' ⊢
          exact ⟨hd'.2.1, d, hd, rfl, hd'.1, hd'.2.2⟩
        refine ⟨Nat.succ_le_succ hlen, ?_, List.forall_mem_cons.mpr ⟨⟨c, List.mem_cons_self, rfl, helig⟩, ?_⟩⟩
        · rw [List.map_cons, List.nodup_cons]
          refine ⟨fun hmem => ?_, hnodup⟩
          rcases List.mem_map.mp hmem with ⟨u, hu, heq⟩
          exact (hlater u hu).1 heq
        · intro u hu
          rcases (hlater u hu).2 with ⟨d, hd, hrest⟩
          exact ⟨d, List.mem_cons_of_mem c hd, hrest⟩
      · rcases ih (room + 1) refd with ⟨hlen, hnodup, hall⟩
        refine ⟨hlen, hnodup, fun u hu => ?_⟩
        rcases hall u hu with ⟨d, hd, hrest⟩
        exact ⟨d, List.mem_cons_of_mem c hd, hrest⟩

/-- **`s.Collects c`** — a side block in reach of the next block, with a canonical parent, that is not canonical
itself and that no canonical block in reach references. -/
structure Collects (s : BlockStore) (c : FullBlock) : Prop where
  stored : ∃ (hash : Bytes) (k : Nat), s.side[hash]? = some k ∧ s.blocks[hash]? = some c ∧ 1 ≤ k ∧
    s.latestHeight + 1 ≤ k + uncleMaxDepth ∧ k ≤ s.latestHeight
  parent : ∃ p, s.getBlockByHeight (pred64 c.getHeight) = .ok p ∧ p.getHash.val = c.getPrevHash
  aside : ∀ b, s.getBlockByHeight c.getHeight = .ok b → b.getHash ≠ c.getHash
  fresh : ∀ k b, 1 ≤ k → s.latestHeight < k + uncleMaxDepth → k ≤ s.latestHeight → s.getBlockByHeight k = .ok b →
    ∀ w ∈ b.uncles, w.getHash ≠ c.getHash

theorem eligibleUncle_iff {refd : List Bytes32} {c : FullBlock} : s.eligibleUncle refd c = true ↔
    (∃ p, s.getBlockByHeight (pred64 c.getHeight) = .ok p ∧ p.getHash.val = c.getPrevHash) ∧
      (∀ b, s.getBlockByHeight c.getHeight = .ok b → b.getHash ≠ c.getHash) ∧ c.getHash ∉ refd := by
  unfold eligibleUncle
  rw [Bool.and_eq_true, Bool.and_eq_true, decide_eq_true_eq, and_assoc]
  refine and_congr ?_ (and_congr ?_ Iff.rfl)
  · cases s.getBlockByHeight (pred64 c.getHeight) <;> simp
  · cases s.getBlockByHeight c.getHeight <;> simp

omit [Crypto] in
theorem mem_listSideBlocksInRange {low high : Nat} {l : List FullBlock} (h : s.listSideBlocksInRange low high = .ok l) :
    ∀ c ∈ l, ∃ (hash : Bytes) (k : Nat), s.side[hash]? = some k ∧ s.blocks[hash]? = some c ∧ low ≤ k ∧ k ≤ high := by
  intro c hc
  rcases mem_of_mapM h c hc with ⟨⟨hash, k⟩, hmem, hread⟩
  rcases List.mem_filter.mp hmem with ⟨hmem, hrange⟩
  rw [decide_eq_true_eq] at hrange
  exact ⟨hash, k, (Bucket.mem_toList_iff _ _ _).mp hmem, getBlockByHash_eq_ok.mp hread, hrange⟩

/-- **What `CollectUncles` returns**: few distinct headers, each of a block to be collected. -/
theorem collectUncles_eq_ok {sort : List FullBlock → List FullBlock} (hsort : SortsByHeight sort)
    {uncles : List BlockHeader} (h : s.collectUncles sort = .ok uncles) :
    uncles.length ≤ maxUncles ∧ (uncles.map BlockHeader.getHash).Nodup ∧
      ∀ u ∈ uncles, ∃ c, c.header = u ∧ s.Collects c := by
  unfold collectUncles at h
  dsimp only at h
  split at h
  · cases h
    exact ⟨Nat.zero_le _, List.nodup_nil, nofun⟩
  · rcases bind_eq_ok.mp h with ⟨refd, hrefd, h⟩
    rcases bind_eq_ok.mp h with ⟨candidates, hcandidates, h⟩
    obtain rfl := pure_eq_ok.mp h
    rcases bind_eq_ok.mp hrefd with ⟨ancestors, hancestors, hrefd⟩
    obtain rfl := pure_eq_ok.mp hrefd
    rcases pickUncles_spec s maxUncles (ancestors.flatMap fun b => b.uncles.map BlockHeader.getHash)
      (sort candidates) with ⟨hlen, hnodup, hall⟩
    refine ⟨hlen, hnodup, fun u hu => ?_⟩
    rcases hall u hu with ⟨c, hc, rfl, helig⟩
    rcases eligibleUncle_iff.mp helig with ⟨hparent, haside, hfresh⟩
    rcases mem_listSideBlocksInRange hcandidates c ((hsort candidates).1.mem_iff.mp hc) with
      ⟨hash, k, hside, hbody, hlow, hhigh⟩
    refine ⟨c, rfl, ⟨hash, k, hside, hbody, by omega, by omega, hhigh⟩, hparent, haside, ?_⟩
    intro k b hpos hlow hhigh hread w hw heq
    rcases (mapM_ok hancestors).2 k (List.mem_reverse.mpr (List.mem_range'_1.mpr ⟨by omega, by omega⟩)) with
      ⟨b', hb', hread'⟩
    obtain rfl : b = b' := Except.ok.inj (hread.symm.trans hread')
    exact hfresh (List.mem_flatMap.mpr ⟨b, hb', List.mem_map.mpr ⟨w, hw, heq⟩⟩)

variable {H : Set BlockHeader} {tip : FullBlock}

theorem Sound.exists_getBlockByHeight (hs : Sound H s tip) (hzero : s.originHeight = 0) {k : Nat}
    (hk : k ≤ s.latestHeight) : ∃ b, s.getBlockByHeight k = .ok b := by
  rcases hs.canonical k (by omega) (hs.latestHeight ▸ hk) with ⟨b, hindex, hbody, _⟩
  exact ⟨b, getBlockByHeight_eq_ok.mpr ⟨_, hindex, hbody⟩⟩

/-- **Collecting succeeds** on a sound store. -/
theorem Sound.exists_collectUncles (hs : Sound H s tip) (hzero : s.originHeight = 0)
    (sort : List FullBlock → List FullBlock) : ∃ uncles, s.collectUncles sort = .ok uncles := by
  unfold collectUncles
  dsimp only
  split
  · exact ⟨[], rfl⟩
  · have hread : ∃ ancestors, (List.range' (s.latestHeight + 1 - (uncleMaxDepth + 1) + 1)
        (s.latestHeight - (s.latestHeight + 1 - (uncleMaxDepth + 1)))).reverse.mapM s.getBlockByHeight =
          .ok ancestors := by
      refine exists_mapM fun k hk => hs.exists_getBlockByHeight hzero ?_
      rw [List.mem_reverse, List.mem_range'_1] at hk
      omega
    have hlist : ∃ candidates, s.listSideBlocksInRange (max 1 (s.latestHeight + 1 - uncleMaxDepth)) s.latestHeight =
        .ok candidates := by
      refine exists_mapM fun e he => ?_
      rcases hs.marked e.1 e.2 ((Bucket.mem_toList_iff _ _ _).mp (List.mem_of_mem_filter he)) with ⟨b, hb, _⟩
      exact ⟨b, getBlockByHash_eq_ok.mpr hb⟩
    rcases hread with ⟨ancestors, hread⟩
    rcases hlist with ⟨candidates, hlist⟩
    exact ⟨_, bind_eq_ok.mpr ⟨_, bind_eq_ok.mpr ⟨ancestors, hread, rfl⟩, bind_eq_ok.mpr ⟨candidates, hlist, rfl⟩⟩⟩

/-! ## §4 — stores of regular blocks -/

omit [Crypto] in
/-- **`s.Regular block`** — what importing a block leaves unchecked of the rules for uncles: the length of its
difficulty, and the slot of a child of the origin. -/
def Regular (s : BlockStore) (block : FullBlock) : Prop :=
  block.header.difficulty.length ≤ diffSize ∧
    (block.getPrevHash = s.originHash → ∃ origin ∈ s.blocks[s.originHash]?, origin.header.SlotOf block.header)

instance (s : BlockStore) (block : FullBlock) : Decidable (s.Regular block) := inferInstanceAs (Decidable (_ ∧ _))

/-- **`Bred H now s`** — every stored block but the origin has the header of an uncle, in the slot of a header of
`H`; and the uncles a stored block references are headers of `H` below it. -/
structure Bred (H : Set BlockHeader) (now : Nat) (s : BlockStore) : Prop where
  slot : ∀ (h : Bytes) (b : FullBlock), s.blocks[h]? = some b → h = s.originHash ∨
    b.header.checkStandaloneError now = .ok () ∧ ∃ x ∈ H, x.key = b.getPrevHash ∧ x.SlotOf b.header
  lower : ∀ (h : Bytes) (b : FullBlock), s.blocks[h]? = some b → ∀ u ∈ b.uncles, u ∈ H ∧ u.height < b.getHeight

/-- A block to be collected, with what the store knows about it. -/
theorem Collects.bred {now : Nat} (hbred : Bred H now s) (hs : Sound H s tip) (hzero : s.originHeight = 0)
    {c : FullBlock} (hc : s.Collects c) : s.blocks[c.getHash.val]? = some c ∧ 1 ≤ c.getHeight ∧
      c.getHeight ≤ tip.getHeight ∧ tip.getHeight + 1 ≤ c.getHeight + uncleMaxDepth ∧
      c.header.checkStandaloneError now = .ok () ∧ ∃ x ∈ H, x.key = c.getPrevHash ∧ x.SlotOf c.header := by
  rcases hc.stored with ⟨hash, k, hside, hbody, hpos, hreach, hle⟩
  rw [hs.latestHeight] at hreach hle
  rcases hs.marked hash k hside with ⟨c', hc', hheight⟩
  obtain rfl : c = c' := Option.some_injective _ (hbody.symm.trans hc')
  have hne : hash ≠ s.originHash := by
    intro horigin
    have := hs.origin_height (horigin ▸ hbody)
    omega
  rcases (hbred.slot hash c hbody).resolve_left hne with ⟨hstandalone, hslot⟩
  exact ⟨hs.keyed hash c hbody ▸ hbody, by omega, by omega, by omega, hstandalone, hslot⟩

/-- **Collected uncles pass**, on a block that follows the tip. -/
theorem Bred.collected {now : Nat} {block : FullBlock} {sort : List FullBlock → List FullBlock}
    {uncles : List BlockHeader} (hinj : Set.InjOn BlockHeader.getHash H) (hbred : Bred H now s) (hs : Sound H s tip)
    (hzero : s.originHeight = 0) (hsort : SortsByHeight sort) (hcollect : s.collectUncles sort = .ok uncles)
    (hfollows : Follows tip block) (hperm : block.uncles.Perm uncles) :
    validateUncles s.getBlockByHash block = .ok () ∧ block.uncles.length ≤ maxUncles ∧
      FullBlock.checkUncles now block.getPrevHash [] block.uncles = .ok () := by
  rcases collectUncles_eq_ok hsort hcollect with ⟨hlen, hnodup, hall⟩
  -- none of the three depends on the order
  rw [← hperm.length_eq] at hlen
  rw [← (hperm.map _).nodup_iff] at hnodup
  replace hall : ∀ u ∈ block.uncles, ∃ c, c.header = u ∧ s.Collects c := fun u hu => hall u (hperm.mem_iff.mp hu)
  rcases exists_mapM (f := s.getBlockByHeight) (l := List.range (s.latestHeight + 1)) fun k hk =>
    hs.exists_getBlockByHeight hzero (Nat.lt_succ_iff.mp (List.mem_range.mp hk)) with ⟨blocks, hblocks⟩
  rcases hs.canonicalBlocks hinj hzero hblocks with ⟨top, l, hrev, htop, hdesc, hbody⟩
  -- the canonical chain, tip first, is what the walk goes through
  have hmem : ∀ b, b ∈ top :: l ↔ b ∈ blocks := fun b => by rw [← hrev, List.mem_reverse]
  have hcanonical : ∀ b ∈ top :: l, b.getHeight ≤ tip.getHeight ∧ s.getBlockByHeight b.getHeight = .ok b := by
    intro b hb
    rcases mem_of_mapM hblocks b ((hmem b).mp hb) with ⟨k, hk, hread⟩
    have hle : k ≤ tip.getHeight := by
      rw [← hs.latestHeight]
      exact Nat.lt_succ_iff.mp (List.mem_range.mp hk)
    obtain rfl := (hs.read hle hzero hread).2.2.1
    exact ⟨hle, hread⟩
  have hreads : ∀ k b, k ≤ tip.getHeight → s.getBlockByHeight k = .ok b → b ∈ top :: l := by
    intro k b hk hread
    rcases (mapM_ok hblocks).2 k (List.mem_range.mpr (by rw [hs.latestHeight]; omega)) with ⟨b', hb', hread'⟩
    obtain rfl : b = b' := Except.ok.inj (hread.symm.trans hread')
    exact (hmem b).mpr hb'
  have htopFollows : Follows top block := by
    rcases hfollows with ⟨hheight, hprev⟩
    exact ⟨hheight.trans (congrArg (fun x : BlockHeader => x.height + 1) htop.symm),
      hprev.trans (congrArg BlockHeader.key htop.symm)⟩
  have hheight : block.getHeight = tip.getHeight + 1 := hfollows.1
  refine ⟨validateUncles_ok (descends_cons.mpr ⟨htopFollows, hdesc⟩)
    (fun b hb => ⟨b, getBlockByHash_eq_ok.mpr (hbody b ((hmem b).mp hb)), rfl, rfl⟩) hnodup fun u hu => ?_, hlen,
    checkUncles_ok hnodup fun u hu => ?_⟩
  · rcases hall u hu with ⟨c, rfl, hc⟩
    rcases hc.bred hbred hs hzero with ⟨hcbody, hpos, hle, hreach, _, x, hx, hkey, hslot⟩
    have hcH := hs.headers _ _ hcbody
    refine ⟨show c.getHeight < _ by omega, show _ ≤ c.getHeight + _ by omega, ?_, ?_, ?_⟩
    · rcases hc.parent with ⟨p, hread, hprev⟩
      rw [pred64_of_pos hpos] at hread
      rcases hs.read (by omega) hzero hread with ⟨_, hpbody, hpheight, _⟩
      have hp : p.header = x := BlockHeader.injOn_key hinj (hs.headers _ _ hpbody) hx (hprev.trans hkey.symm)
      exact ⟨p, hreads _ p (by omega) hread, show p.getHeight + 1 = c.getHeight by omega, hprev, hp ▸ hslot⟩
    · intro b hb hsame
      have hread := (hcanonical b hb).2
      rw [hsame] at hread
      exact hc.aside b hread
    · intro b hb hlow w hw heq
      rcases hcanonical b hb with ⟨hble, hread⟩
      rcases hbred.lower _ b (hbody b ((hmem b).mp hb)) w hw with ⟨hwH, hwlower⟩
      -- one height below the window of the collection a reference would be to a block of another height
      have hwheight : w.height = c.getHeight := congrArg BlockHeader.height (hinj hwH hcH heq)
      refine hc.fresh b.getHeight b (by omega) ?_ ?_ hread w hw heq
      · rw [hs.latestHeight]
        omega
      · rw [hs.latestHeight]
        exact hble
  · rcases hall u hu with ⟨c, rfl, hc⟩
    rcases hc.bred hbred hs hzero with ⟨hcbody, _, _, _, hstandalone, _⟩
    refine ⟨hstandalone, by simp, fun heq => ?_⟩
    have htip : c.getHash.val = tip.getHash.val := heq.trans hfollows.2
    rw [htip, hs.tipBody] at hcbody
    obtain rfl := Option.some_injective _ hcbody
    exact hc.aside tip (getBlockByHeight_eq_ok.mpr ⟨_, hs.top, hs.tipBody⟩) rfl

end BlockStore

/-! ## §5 — runs -/

namespace Node

open BlockStore (Sound Regular Bred)

section Step

variable [Crypto] {S : Type} {L : Ledger S} {now t : Nat} {H : Set BlockHeader} {n n' : Node S}
  {tip block b : FullBlock} {hash : Bytes} (hinj : Set.InjOn BlockHeader.getHash H)
include hinj

/-- What `ApplyBlock` leaves in the store was there or is the block. -/
theorem applyBlock_blocks (hs : Sound H n.store tip) (hb : block.header ∈ H) (hok : n.applyBlock L now block = .ok n')
    (hbody : n'.store.blocks[hash]? = some b) : b = block ∨ n.store.blocks[hash]? = some b := by
  have hkeyed : b.getHash.val = hash := by
    have hstep : ∃ tip', Sound H (n.update (n.applyBlock L now block)).store tip' ∧ _ :=
      update_applyBlock_sound hinj hs hb
    rw [hok] at hstep
    rcases hstep with ⟨tip', hs', _⟩
    exact hs'.keyed hash b hbody
  unfold applyBlock at hok
  split at hok
  · exact extendTip_blocks hok hbody
  · rcases importSide_eq_ok hok with ⟨prev, blockWork, tip', tipWork, store, hw, hcase⟩
    rcases hcase with ⟨_, rfl⟩ | ⟨_, first, rest, hbranch, _, hswitch⟩
    · exact hw.blocks hbody
    · rcases switchToBranchTxn_blocks hswitch hbody with hmem | hold
      · -- a block of the branch is stored, so under its own hash
        rcases hw.sound hinj hs hb with ⟨_, hsound, _, _, hblock⟩
        rcases BlockStore.collectBranch_mem hbranch ⟨_, hblock⟩ b hmem with ⟨⟨hash', hbody'⟩, _⟩
        obtain rfl := (hsound.keyed hash' b hbody').symm.trans hkeyed
        exact hw.blocks hbody'
      · exact hw.blocks hold

/-- What `ApplyBlock` checks of a block it takes: everything but the slot of a child of the origin. -/
theorem applyBlock_checks (hgen : L.isGenesis block = .ok true → block.getHeight = 0) (hs : Sound H n.store tip)
    (hb : block.header ∈ H) (hok : n.applyBlock L now block = .ok n') :
    block.Checked now ∧ validateUncles n.store.getBlockByHash block = .ok () ∧
      ∃ prev, n.store.blocks[block.getPrevHash]? = some prev ∧ Follows prev block ∧
        (block.getPrevHash = n.store.originHash ∨ prev.header.SlotOf block.header) := by
  unfold applyBlock at hok
  split at hok
  · next hprev =>
    have hfollows := (extendTip_sound hinj hs hb hprev hok).1
    have hcheck := (extendTip_eq_ok hok).1
    rcases bind_eq_ok.mp hcheck with ⟨genesis, hgenesis, hcheck⟩
    cases genesis with
    | true =>
      have := hgen hgenesis
      have := hfollows.1
      omega
    | false =>
      rw [if_neg (by simp)] at hcheck
      rcases bind_eq_ok.mp hcheck with ⟨_, herror, hcheck⟩
      have htip : n.store.blocks[block.getPrevHash]? = some tip := by
        rw [hfollows.2]
        exact hs.tipBody
      split at hcheck
      · rcases bind_eq_ok.mp hcheck with ⟨prev, hread, hcheck⟩
        rcases bind_eq_ok.mp hcheck with ⟨_, htarget, hcheck⟩
        rcases bind_eq_ok.mp hcheck with ⟨_, huncles, _⟩
        obtain rfl : prev = tip := Option.some_injective _ ((BlockStore.getBlockByHash_eq_ok.mp hread).symm.trans htip)
        exact ⟨FullBlock.checkError_eq_ok.mp herror, huncles, prev, htip, hfollows,
          .inr (slotOf_of_checkBlockTarget htarget)⟩
      · next horigin =>
        rcases bind_eq_ok.mp hcheck with ⟨_, huncles, _⟩
        exact ⟨FullBlock.checkError_eq_ok.mp herror, huncles, tip, htip, hfollows, .inl (not_not.mp horigin)⟩
  · rcases importSide_eq_ok hok with ⟨prev, _, _, _, _, hw, _⟩
    rcases bind_eq_ok.mp hw.checked with ⟨_, herror, hcheck⟩
    rcases bind_eq_ok.mp hcheck with ⟨_, hfollows, hcheck⟩
    rcases bind_eq_ok.mp hcheck with ⟨_, htarget, huncles⟩
    exact ⟨FullBlock.checkError_eq_ok.mp herror, huncles, prev, hw.parent, ensure_eq_ok.mp hfollows,
      .inr (slotOf_of_checkBlockTarget htarget)⟩

theorem applyBlock_bred (hgen : L.isGenesis block = .ok true → block.getHeight = 0) (hs : Sound H n.store tip)
    (hbred : Bred H now n.store) (ht : t ≤ now) (hb : block.header ∈ H) (hu : ∀ u ∈ block.uncles, u ∈ H)
    (hregular : n.store.Regular block) (horigin : n'.store.originHash = n.store.originHash)
    (hok : n.applyBlock L t block = .ok n') : Bred H now n'.store := by
  rcases applyBlock_checks hinj hgen hs hb hok with ⟨hchecked, huncles, prev, hprev, hfollows, hslot⟩
  have hprevH := hs.headers _ _ hprev
  have hslot' : prev.header.SlotOf block.header := by
    rcases hslot with hprevOrigin | hslot
    · rcases hregular.2 hprevOrigin with ⟨origin, hmem, hslot⟩
      rw [hprevOrigin, Option.mem_def.mp hmem] at hprev
      obtain rfl := Option.some_injective _ hprev
      exact hslot
    · exact hslot
  have hstandalone := hchecked.standalone ht (hfollows.1 ▸ Nat.succ_pos _) hregular.1
  refine ⟨fun hash b hbody => ?_, fun hash b hbody => ?_⟩
  · rcases applyBlock_blocks hinj hs hb hok hbody with rfl | hold
    · exact .inr ⟨hstandalone, prev.header, hprevH, hfollows.2.symm, hslot'⟩
    · rw [horigin]
      exact hbred.slot hash b hold
  · rcases applyBlock_blocks hinj hs hb hok hbody with rfl | hold
    · exact fun u hmem => ⟨hu u hmem, height_lt_of_validateUncles huncles u hmem⟩
    · exact hbred.lower hash b hold

end Step
end Node

section Runs

variable [Engine] {cfg : Config} {C : BlockStore → FullBlock → Prop} {now : Nat} {B : Set FullBlock} {n : Node State}

open BlockStore (Sound Regular Bred)

/-- **`Node.Gossiped cfg C now B n`** — calls of `ApplyBlock` up to the time `now`, on blocks of `B` and each under
the condition `C`, lead from a fresh database to the node, the failing calls included. -/
inductive Node.Gossiped (cfg : Config) (C : BlockStore → FullBlock → Prop) (now : Nat) (B : Set FullBlock) :
    Node State → Prop
  | genesis {n : Node State} : Node.genesis cfg = .ok n → Gossiped cfg C now B n
  | applyBlock {n : Node State} (t : Nat) (block : FullBlock) : Gossiped cfg C now B n → t ≤ now → block ∈ B →
      C n.store block → Gossiped cfg C now B (n.update (n.applyBlock (ledger cfg) t block))

omit [Engine] in
/-- The headers some blocks are made of: their own and those of the uncles they reference. -/
def kinHeaders (B : Set FullBlock) : Set BlockHeader := {x | ∃ b ∈ B, x = b.header ∨ x ∈ b.uncles}

theorem Node.Gossiped.reachable (h : Node.Gossiped cfg C now B n) : Node.Reachable cfg (kinHeaders B) n := by
  induction h with
  | genesis hn => exact .genesis hn
  | applyBlock t block _ _ hb _ ih => exact ih.applyBlock t block ⟨block, hb, .inl rfl⟩

/-- **A node that was handed regular blocks is bred.** -/
theorem Node.Gossiped.bred (hinj : Set.InjOn BlockHeader.getHash (genesisHeaders ∪ kinHeaders B))
    (h : Node.Gossiped cfg Regular now B n) : Bred (genesisHeaders ∪ kinHeaders B) now n.store := by
  induction h with
  | genesis hn =>
    rcases Node.genesis_eq_ok hn with ⟨genesis, hgenesis, _, hstore⟩
    have hbody : ∀ (h : Bytes) (b : FullBlock), (BlockStore.initWithGenesis genesis).blocks[h]? = some b →
        h = genesis.getHash.val ∧ b = genesis := by
      intro h b hb
      change ((∅ : Bucket Bytes FullBlock).insert genesis.getHash.val genesis)[h]? = some b at hb
      rw [Bucket.get_insert] at hb
      split at hb
      · next heq => exact ⟨heq.symm, (Option.some_injective _ hb).symm⟩
      · simp at hb
    rw [hstore]
    refine ⟨fun h b hb => .inl (hbody h b hb).1, fun h b hb u hu => ?_⟩
    rw [(hbody h b hb).2, getGenesisBlock_uncles hgenesis] at hu
    cases hu
  | @applyBlock n t block hn ht hb hregular ih =>
    have hbH : block.header ∈ genesisHeaders ∪ kinHeaders B := .inr ⟨block, hb, .inl rfl⟩
    rcases hn.reachable.ranked hinj with ⟨tip, origin, hsound, htally, _, _⟩
    have htally' : BlockStore.Tallied _ origin (n.update (n.applyBlock (ledger cfg) t block)).store :=
      Node.update_applyBlock_tallied hinj hsound htally ⟨block, hb, .inl rfl⟩
    have horigin := htally'.originHash.trans htally.originHash.symm
    cases hok : n.applyBlock (ledger cfg) t block with
    | error e => exact ih
    | ok n' =>
      rw [hok] at horigin
      exact Node.applyBlock_bred hinj (height_of_isGenesis hinj hbH) hsound ih ht hbH
        (fun u hu => .inr ⟨block, hb, .inr hu⟩) hregular horigin hok

/-- **Collected uncles are valid**: on every node that was handed regular blocks through `ApplyBlock`, collecting
succeeds, and what it returns, in any order, passes `validateUncles` and the uncle rules of `CheckError` on any block
that follows the tip. -/
theorem Node.collected_valid (hinj : Set.InjOn BlockHeader.getHash (genesisHeaders ∪ kinHeaders B))
    (h : Node.Gossiped cfg Regular now B n) {sort : List FullBlock → List FullBlock}
    (hsort : BlockStore.SortsByHeight sort) :
    ∃ tip uncles, n.store.getLatestBlock = .ok tip ∧ n.store.collectUncles sort = .ok uncles ∧
      ∀ block, Follows tip block → block.uncles.Perm uncles →
        validateUncles n.store.getBlockByHash block = .ok () ∧ block.uncles.length ≤ maxUncles ∧
          FullBlock.checkUncles now block.getPrevHash [] block.uncles = .ok () := by
  rcases h.reachable.ranked hinj with ⟨tip, origin, hsound, htally, hzero, _⟩
  have horigin : n.store.originHeight = 0 := (Node.originHeight_eq hinj htally hsound).trans hzero
  rcases hsound.exists_collectUncles horigin sort with ⟨uncles, hcollect⟩
  have hlatest : n.store.getLatestBlock = .ok tip := by
    unfold BlockStore.getLatestBlock
    rw [hsound.latestHash]
    exact BlockStore.getBlockByHash_eq_ok.mpr hsound.tipBody
  exact ⟨tip, uncles, hlatest, hcollect, fun block hfollows huncles =>
    (h.bred hinj).collected hinj hsound horigin hsort hcollect hfollows huncles⟩

/-- Blocks applied one after the other, none refused, each under the condition. -/
def handGossip (cfg : Config) (C : BlockStore → FullBlock → Prop) [∀ s b, Decidable (C s b)] (blocks : List FullBlock)
    (n : Node State) : Except Err (Node State) :=
  blocks.foldlM (fun n b => if C n.store b then n.applyBlock (handLedger cfg) handNow b else .error .panic) n

end Runs

/-- A run of the hand-made ledger whose end passes a test, as a run of the node. -/
theorem exists_gossiped_byHand (modules : Bytes → Option Module) (archive : Bool) (blocks : List FullBlock)
    (test : Node State → Bool) :
    letI := Engine.byHand modules
    ∀ (C : BlockStore → FullBlock → Prop) [∀ s b, Decidable (C s b)],
      okAnd (handGossip ⟨ZERONET, archive⟩ C blocks (handNode archive)) test = true →
        ∃ n, Node.Gossiped ⟨ZERONET, archive⟩ C handNow {b | b ∈ blocks} n ∧ test n = true := by
  let _ := Engine.byHand modules
  intro C _ h
  have hend := exists_of_foldlM (P := fun n : Node State =>
    Node.Gossiped ⟨ZERONET, archive⟩ C handNow {b | b ∈ blocks} n ∧ n.state.Committed)
    (fun b hb n n' hn hok => ?_) ⟨.genesis (genesis_byHand modules archive), committed_handNode modules archive⟩ h
  · exact hend.imp fun n hn => ⟨hn.1.1, hn.2⟩
  · split at hok
    · next hC =>
      rcases (handLedger_agrees modules ⟨ZERONET, archive⟩).applyBlock handNow b hn.2 with ⟨heq, hkeep⟩
      have hok := heq.trans hok
      have hm := hn.1.applyBlock handNow b le_rfl hb hC
      rw [hok] at hm
      exact ⟨hm, hkeep n' hok⟩
    · cases hok

theorem kinHeaders_byHand (blocks : List FullBlock) : kinHeaders {b | b ∈ blocks} = {x | x ∈ earners blocks} := by
  ext x
  exact mem_earners.symm

/-- A chain of two blocks, with another first block beside it. -/
def handBeside : List FullBlock :=
  letI := Crypto.ofHash handHash
  [handSeal handGenesis 1 [] [], handSeal handGenesis 2 [] [], handSeal (handSeal handGenesis 1 [] []) 1 [] []]

theorem BlockStore.sortsByHeight_byHeight : SortsByHeight byHeight := by
  intro l
  have hpair := List.pairwise_insertionSort (fun a b : FullBlock => a.getHeight ≤ b.getHeight) l
  exact ⟨List.perm_insertionSort _ _, hpair⟩

theorem Node.collected_valid_handBeside :
    letI := Engine.bare
    ∃ n : Node State, Node.Gossiped ⟨ZERONET, true⟩ BlockStore.Regular handNow {b | b ∈ handBeside} n ∧
      n.store.collectUncles BlockStore.byHeight = .ok [handUncle] ∧
      ∃ tip uncles, n.store.getLatestBlock = .ok tip ∧ n.store.collectUncles BlockStore.byHeight = .ok uncles ∧
        ∀ block, Follows tip block → block.uncles.Perm uncles →
          validateUncles n.store.getBlockByHash block = .ok () ∧ block.uncles.length ≤ maxUncles ∧
            FullBlock.checkUncles handNow block.getPrevHash [] block.uncles = .ok () := by
  let _ := Engine.bare
  rcases exists_gossiped_byHand (fun _ => none) true handBeside
    (fun n => decide (n.store.collectUncles BlockStore.byHeight = .ok [handUncle])) BlockStore.Regular (by decide +kernel) with ⟨n, hr, htest⟩
  refine ⟨n, hr, of_decide_eq_true htest, Node.collected_valid ?_ hr BlockStore.sortsByHeight_byHeight⟩
  rw [kinHeaders_byHand]
  exact injOn_apart _ (by decide +kernel)

/-- A first block that is no later than the genesis block, which the tip path takes, and the two blocks of another
miner that replace it. -/
def handStale : List FullBlock :=
  letI := Crypto.ofHash handHash
  [handTimed handGenesis 1 0 1, handSeal handGenesis 2 [] [], handSeal (handSeal handGenesis 2 [] []) 2 [] []]

/-- The block a miner makes next, with the stale block as its uncle. -/
def handStaleNext : FullBlock :=
  letI := Crypto.ofHash handHash
  handNephew (handSeal (handSeal (handSeal handGenesis 2 [] []) 2 [] []) 2 [] []) [(handTimed handGenesis 1 0 1).header]

/-- **A collected uncle is refused**: the stale first block is collected, the block with it is in order by itself, and
`validateUncles` refuses it. -/
theorem Node.collected_invalid :
    letI := Engine.bare
    ∃ (n : Node State) (tip : FullBlock),
      Node.Gossiped ⟨ZERONET, true⟩ (fun _ _ => True) handNow {b | b ∈ handStale} n ∧
      Set.InjOn BlockHeader.getHash (genesisHeaders ∪ kinHeaders {b | b ∈ handStale}) ∧
      n.store.getLatestBlock = .ok tip ∧ Follows tip handStaleNext ∧
      n.store.collectUncles BlockStore.byHeight = .ok handStaleNext.uncles ∧ handStaleNext.checkError handNow = .ok () ∧
      validateUncles n.store.getBlockByHash handStaleNext = .error .uncleInvalid := by
  let _ := Engine.bare
  rcases exists_gossiped_byHand (fun _ => none) true handStale (fun n =>
    okAnd n.store.getLatestBlock (fun tip => decide (Follows tip handStaleNext)) &&
      (decide (n.store.collectUncles BlockStore.byHeight = .ok handStaleNext.uncles) &&
        (decide (handStaleNext.checkError handNow = .ok ()) &&
          decide (validateUncles n.store.getBlockByHash handStaleNext = .error .uncleInvalid))))
    (fun _ _ => True) (by decide +kernel) with ⟨n, hr, htest⟩
  simp only [Bool.and_eq_true, decide_eq_true_eq] at htest
  rcases htest with ⟨htip, hcollect, hcheck, hrefused⟩
  rcases exists_of_okAnd htip with ⟨tip, htip, hfollows⟩
  refine ⟨n, tip, hr, ?_, htip, of_decide_eq_true hfollows, hcollect, hcheck, hrefused⟩
  rw [kinHeaders_byHand]
  exact injOn_apart _ (by decide +kernel)

end NgCore
