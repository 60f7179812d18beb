/-
# NgCore.Chain.Index — the transaction and address indices

`ngblocks/put.go`, `put_force.go`, `addr_index.go`: transactions by id, the block that contains one, and the history
of an address. A block's rows are put when it becomes canonical and deleted when a reorganisation unlinks it.

`Indexes P s` says that the indices are exactly the rows of the blocks in `P`; it is carried through putting and
deleting a block, provided that its ids are apart from those of the other blocks in `P`, and from there through every
call with `P` the canonical blocks above genesis (`Node.Given.indexed`).

Apartness is not something the store looks at. It holds when every transaction carries the height of its block, for
then ids of different heights differ; the address index NEEDS it, because its rows are keyed by the transaction's own
height. And what a reorganisation unlinks is the STORED body, so the rows of a body that was replaced stay behind.

DELIVERABLE: `Node.indices_exact`.
-/
import NgCore.Chain.Authorized

namespace NgCore

open Lib (Bucket)
open BlockStore (Sound Spine)

/-! ## §1 — the rows of a block -/

namespace BlockStore

/-- The three indices of a store. -/
def index (s : BlockStore) : Bucket Bytes32 FullTx × Bucket Bytes32 Bytes × Bucket (Address × Nat × Bytes32) Unit :=
  (s.txs, s.txBlock, s.addrTx)

section Rows

variable [Crypto]

/-- The address rows of a list of transactions. -/
def addrRows (txs : List FullTx) : List (Address × Nat × Bytes32) :=
  txs.flatMap fun tx => (txAddresses tx).map fun a => (a, tx.height, tx.getHash)

theorem mem_addrRows {txs : List FullTx} {a : Address} {k : Nat} {t : Bytes32} :
    (a, k, t) ∈ addrRows txs ↔ ∃ tx ∈ txs, tx.getHash = t ∧ tx.height = k ∧ a ∈ txAddresses tx := by
  unfold addrRows
  simp only [List.mem_flatMap, List.mem_map, Prod.mk.injEq]
  constructor
  · rintro ⟨tx, htx, a', ha, rfl, rfl, rfl⟩
    exact ⟨tx, htx, rfl, rfl, ha⟩
  · rintro ⟨tx, htx, rfl, rfl, ha⟩
    exact ⟨tx, htx, a, ha, rfl, rfl, rfl⟩

theorem index_putAll (hash : Bytes) (l : List FullTx) (s : BlockStore) :
    (l.foldl (putTx hash) s).index =
      (l.foldl (fun b tx => b.insert tx.getHash tx) s.txs,
        l.foldl (fun b tx => b.insert tx.getHash hash) s.txBlock,
        (addrRows l).foldl (fun b k => b.insert k ()) s.addrTx) := by
  induction l generalizing s with
  | nil => rfl
  | cons tx l ih =>
    rw [List.foldl_cons, ih]
    unfold addrRows
    rw [List.flatMap_cons, List.foldl_append, List.foldl_map]
    rfl

theorem index_delAll (l : List FullTx) (s : BlockStore) :
    (s.delTxs l).index =
      ((l.map FullTx.getHash).foldl (fun b t => b.erase t) s.txs,
        (l.map FullTx.getHash).foldl (fun b t => b.erase t) s.txBlock,
        (addrRows l).foldl (fun b k => b.erase k) s.addrTx) := by
  unfold delTxs
  induction l generalizing s with
  | nil => rfl
  | cons tx l ih =>
    have haddr : addrRows (tx :: l) =
        ((txAddresses tx).map fun a => (a, tx.height, tx.getHash)) ++ addrRows l := List.flatMap_cons
    rw [List.foldl_cons, ih, haddr, List.foldl_append, List.map_cons, List.foldl_cons, List.foldl_cons,
      List.foldl_map (l := txAddresses tx)]
    rfl

end Rows

/-! ## §2 — exactness over a set of blocks -/

variable [Crypto]

/-- **`Indexes P s`** — the indices hold the rows of the blocks in `P`, and nothing else. -/
structure Indexes (P : FullBlock → Prop) (s : BlockStore) : Prop where
  stored : ∀ (t : Bytes32) (tx : FullTx), s.txs[t]? = some tx → ∃ b, P b ∧ tx ∈ b.txs ∧ tx.getHash = t
  found : ∀ b, P b → ∀ tx ∈ b.txs, s.txs[tx.getHash]? ≠ none
  containing : ∀ (t : Bytes32) (h : Bytes),
    s.txBlock[t]? = some h ↔ ∃ b, P b ∧ b.getHash.val = h ∧ ∃ tx ∈ b.txs, tx.getHash = t
  history : ∀ (a : Address) (k : Nat) (t : Bytes32),
    s.addrTx[(a, k, t)]? = some () ↔
      ∃ b, P b ∧ ∃ tx ∈ b.txs, tx.getHash = t ∧ tx.height = k ∧ a ∈ txAddresses tx

/-- The transactions of the two blocks have different ids. -/
def Apart (b c : FullBlock) : Prop := ∀ tx ∈ b.txs, ∀ tx' ∈ c.txs, tx.getHash ≠ tx'.getHash

variable {P Q : FullBlock → Prop} {s s' : BlockStore} {b : FullBlock}

theorem Indexes.of_index (h : Indexes P s) (heq : s'.index = s.index) : Indexes P s' := by
  have htxs : s'.txs = s.txs := (Prod.mk.inj heq).1
  have hblock : s'.txBlock = s.txBlock := (Prod.mk.inj (Prod.mk.inj heq).2).1
  have haddr : s'.addrTx = s.addrTx := (Prod.mk.inj (Prod.mk.inj heq).2).2
  constructor
  · rw [htxs]
    exact h.stored
  · rw [htxs]
    exact h.found
  · rw [hblock]
    exact h.containing
  · rw [haddr]
    exact h.history

theorem Indexes.of_iff (h : Indexes P s) (hPQ : ∀ b, P b ↔ Q b) : Indexes Q s := by
  obtain rfl : P = Q := funext fun b => propext (hPQ b)
  exact h

/-- **Putting a block** whose ids are apart from the others. -/
theorem Indexes.putTxs (h : Indexes P s) (hapart : ∀ c, P c → Apart b c) :
    Indexes (fun c => c = b ∨ P c) (s.putTxs b) := by
  have heq := index_putAll b.getHash.val b.txs s
  have htxs : (s.putTxs b).txs = _ := (Prod.mk.inj heq).1
  have hblock : (s.putTxs b).txBlock = _ := (Prod.mk.inj (Prod.mk.inj heq).2).1
  have haddr : (s.putTxs b).addrTx = _ := (Prod.mk.inj (Prod.mk.inj heq).2).2
  have hold : ∀ c, P c → ∀ tx ∈ c.txs, tx.getHash ∉ b.txs.map FullTx.getHash := by
    intro c hc tx htx hmem
    rcases List.mem_map.mp hmem with ⟨tx', htx', hid⟩
    exact hapart c hc tx' htx' tx htx hid
  constructor
  · intro t tx htx
    rw [htxs] at htx
    rcases Bucket.get_foldl_insert FullTx.getHash (fun tx => tx) b.txs s.txs t with ⟨hother, hrow⟩
    by_cases hmem : t ∈ b.txs.map FullTx.getHash
    · rcases hrow hmem with ⟨tx', htx', hid, hget⟩
      rw [hget] at htx
      cases htx
      exact ⟨b, .inl rfl, htx', hid⟩
    · rw [hother hmem] at htx
      rcases h.stored t tx htx with ⟨c, hc, hin, hid⟩
      exact ⟨c, .inr hc, hin, hid⟩
  · intro c hc tx htx
    rw [htxs]
    rcases Bucket.get_foldl_insert FullTx.getHash (fun tx => tx) b.txs s.txs tx.getHash with ⟨hother, hrow⟩
    rcases hc with rfl | hc
    · rcases hrow (List.mem_map_of_mem htx) with ⟨tx', _, _, hget⟩
      rw [hget]
      exact Option.some_ne_none tx'
    · rw [hother (hold c hc tx htx)]
      exact h.found c hc tx htx
  · intro t hash
    rw [hblock]
    rcases Bucket.get_foldl_insert FullTx.getHash (fun _ => b.getHash.val) b.txs s.txBlock t with ⟨hother, hrow⟩
    by_cases hmem : t ∈ b.txs.map FullTx.getHash
    · rcases hrow hmem with ⟨tx', htx', hid, hget⟩
      rw [hget]
      constructor
      · intro hhash
        exact ⟨b, .inl rfl, Option.some_injective _ hhash, tx', htx', hid⟩
      · rintro ⟨c, rfl | hc, hhash, tx, htx, rfl⟩
        · rw [hhash]
        · exact absurd hmem (hold c hc tx htx)
    · rw [hother hmem, h.containing]
      constructor
      · rintro ⟨c, hc, hrest⟩
        exact ⟨c, .inr hc, hrest⟩
      · rintro ⟨c, rfl | hc, hhash, tx, htx, hid⟩
        · exact absurd (List.mem_map.mpr ⟨tx, htx, hid⟩) hmem
        · exact ⟨c, hc, hhash, tx, htx, hid⟩
  · intro a k t
    rw [haddr]
    rcases Bucket.get_foldl_insert (fun k : Address × Nat × Bytes32 => k) (fun _ => ()) (addrRows b.txs) s.addrTx
      (a, k, t) with ⟨hother, hrow⟩
    rw [List.map_id'] at hother hrow
    by_cases hmem : (a, k, t) ∈ addrRows b.txs
    · rcases hrow hmem with ⟨_, _, _, hget⟩
      rw [hget]
      exact ⟨fun _ => ⟨b, .inl rfl, mem_addrRows.mp hmem⟩, fun _ => rfl⟩
    · rw [hother hmem, h.history]
      constructor
      · rintro ⟨c, hc, hrest⟩
        exact ⟨c, .inr hc, hrest⟩
      · rintro ⟨c, rfl | hc, hrest⟩
        · exact absurd (mem_addrRows.mpr hrest) hmem
        · exact ⟨c, hc, hrest⟩

/-- **Deleting a block** of the set whose ids are apart from the others. -/
theorem Indexes.delTxs (h : Indexes P s) (hapart : ∀ c, P c → c ≠ b → Apart b c) :
    Indexes (fun c => P c ∧ c ≠ b) (s.delTxs b.txs) := by
  have heq := index_delAll b.txs s
  have htxs : (s.delTxs b.txs).txs = _ := (Prod.mk.inj heq).1
  have hblock : (s.delTxs b.txs).txBlock = _ := (Prod.mk.inj (Prod.mk.inj heq).2).1
  have haddr : (s.delTxs b.txs).addrTx = _ := (Prod.mk.inj (Prod.mk.inj heq).2).2
  have hold : ∀ c, P c → c ≠ b → ∀ tx ∈ c.txs, tx.getHash ∉ b.txs.map FullTx.getHash := by
    intro c hc hne tx htx hmem
    rcases List.mem_map.mp hmem with ⟨tx', htx', hid⟩
    exact hapart c hc hne tx' htx' tx htx hid
  constructor
  · intro t tx htx
    rw [htxs, Bucket.get_foldl_erase] at htx
    split at htx
    · cases htx
    · next hmem =>
      rcases h.stored t tx htx with ⟨c, hc, hin, hid⟩
      refine ⟨c, ⟨hc, ?_⟩, hin, hid⟩
      rintro rfl
      exact hmem (List.mem_map.mpr ⟨tx, hin, hid⟩)
  · rintro c ⟨hc, hne⟩ tx htx
    rw [htxs, Bucket.get_foldl_erase, if_neg (hold c hc hne tx htx)]
    exact h.found c hc tx htx
  · intro t hash
    rw [hblock, Bucket.get_foldl_erase]
    split
    · next hmem =>
      refine ⟨nofun, ?_⟩
      rintro ⟨c, ⟨hc, hne⟩, _, tx, htx, rfl⟩
      exact absurd hmem (hold c hc hne tx htx)
    · next hmem =>
      rw [h.containing]
      constructor
      · rintro ⟨c, hc, hhash, tx, htx, hid⟩
        refine ⟨c, ⟨hc, ?_⟩, hhash, tx, htx, hid⟩
        rintro rfl
        exact hmem (List.mem_map.mpr ⟨tx, htx, hid⟩)
      · rintro ⟨c, ⟨hc, _⟩, hrest⟩
        exact ⟨c, hc, hrest⟩
  · intro a k t
    rw [haddr, Bucket.get_foldl_erase]
    split
    · next hmem =>
      refine ⟨nofun, ?_⟩
      rintro ⟨c, ⟨hc, hne⟩, tx, htx, rfl, _, _⟩
      rcases mem_addrRows.mp hmem with ⟨tx', htx', hid, _, _⟩
      exact absurd hid (hapart c hc hne tx' htx' tx htx)
    · next hmem =>
      rw [h.history]
      constructor
      · rintro ⟨c, hc, hrest⟩
        refine ⟨c, ⟨hc, ?_⟩, hrest⟩
        rintro rfl
        exact hmem (mem_addrRows.mpr hrest)
      · rintro ⟨c, ⟨hc, _⟩, hrest⟩
        exact ⟨c, hc, hrest⟩

/-! ## §3 — the canonical blocks of a tidy set -/

/-- **`Tidy B`** — every transaction of the blocks carries the height of its block, and a header has one body. -/
structure Tidy (B : Set FullBlock) : Prop where
  heights : ∀ b ∈ B, ∀ tx ∈ b.txs, tx.height = b.getHeight
  bodies : ∀ b ∈ B, ∀ c ∈ B, b.header = c.header → b = c

/-- Ids are those of one content: the hash assumption on transactions. -/
def DistinctIds (B : Set FullBlock) : Prop :=
  ∀ b ∈ B, ∀ c ∈ B, ∀ tx ∈ b.txs, ∀ tx' ∈ c.txs, tx.getHash = tx'.getHash → tx.unsigned = tx'.unsigned

variable {B : Set FullBlock}

theorem Tidy.apart (h : Tidy B) (hids : DistinctIds B) {b c : FullBlock} (hb : b ∈ B) (hc : c ∈ B)
    (hne : b.getHeight ≠ c.getHeight) : Apart b c := by
  intro tx htx tx' htx' hid
  have hcontent := hids b hb c hc tx htx tx' htx' hid
  have hheight : tx.unsigned.height = tx'.unsigned.height := congrArg FullTx.height hcontent
  change tx.height = tx'.height at hheight
  rw [h.heights b hb tx htx, h.heights c hc tx' htx'] at hheight
  exact hne hheight

/-- The blocks of `B` above genesis that the height index names. -/
def Canon (B : Set FullBlock) (s : BlockStore) (b : FullBlock) : Prop :=
  b ∈ B ∧ 0 < b.getHeight ∧ s.heights[b.getHeight]? = some b.getHash.val

/-- Every stored body above genesis is one of `B`. -/
def Keeps (B : Set FullBlock) (s : BlockStore) : Prop :=
  ∀ (h : Bytes) (b : FullBlock), s.blocks[h]? = some b → 0 < b.getHeight → b ∈ B

omit [Crypto] in
theorem Keeps.mono {l : List FullBlock} (h : Keeps B s) (hl : ∀ b ∈ l, b ∈ B)
    (hblocks : ∀ (hash : Bytes) (b : FullBlock), s'.blocks[hash]? = some b → b ∈ l ∨ s.blocks[hash]? = some b) :
    Keeps B s' := by
  intro hash b hbody hpos
  rcases hblocks hash b hbody with hmem | hold
  · exact hl b hmem
  · exact h hash b hold hpos

/-! ## §4 — the calls of the store -/

theorem cumulativeWork_index {block : FullBlock} {work : Nat} (h : s.cumulativeWork block = .ok (work, s')) :
    s'.index = s.index := by
  unfold cumulativeWork at h
  obtain ⟨⟨base, pending⟩, _, h⟩ := bind_eq_ok.mp h
  have heq : pending.foldl memoWork (base, s) = (work, s') := pure_eq_ok.mp h
  have hfold : ∀ (l : List FullBlock) (acc : Nat × BlockStore), (l.foldl memoWork acc).2.index = acc.2.index := by
    intro l
    induction l with
    | nil => exact fun _ => rfl
    | cons b l ih => exact fun acc => ih (memoWork acc b)
  have := hfold pending (base, s)
  rwa [heq] at this

omit [Crypto] in
/-- On an archive node the upkeep of a checkpoint leaves the indices alone. -/
theorem maintain_index {S : Type} {L : Ledger S} (harchive : L.archive = true) (b : FullBlock) (s : BlockStore) :
    (L.maintain b s).index = s.index := by
  unfold Ledger.maintain
  split
  · obtain ⟨_, _, _, heq⟩ := dropSideBlocks_eq (s.sideVictims (sideBlockPruneHeight b.getHeight)) s
    unfold BlockStore.pruneSideBlocks
    rw [heq]
    rfl
  · rfl

theorem exists_mem_of_height {first : FullBlock} {rest : List FullBlock} (hchain : (first :: rest).IsChain Follows)
    {k : Nat} (hlow : first.getHeight ≤ k) (hhigh : k ≤ (rest.getLastD first).getHeight) :
    ∃ b ∈ first :: rest, b.getHeight = k := by
  induction rest generalizing first with
  | nil =>
    rw [List.getLastD_nil] at hhigh
    exact ⟨first, List.mem_cons_self, le_antisymm hlow hhigh⟩
  | cons next rest ih =>
    obtain ⟨hfollows, hchain⟩ := List.isChain_cons_cons.mp hchain
    rw [List.getLastD_cons] at hhigh
    have hstep : next.getHeight = first.getHeight + 1 := hfollows.1
    rcases Nat.eq_or_lt_of_le hlow with rfl | hlt
    · exact ⟨first, List.mem_cons_self, rfl⟩
    · obtain ⟨b, hb, hk⟩ := ih hchain (by omega) hhigh
      exact ⟨b, List.mem_cons_of_mem first hb, hk⟩

section Tidied

variable {H : Set BlockHeader} {tip : FullBlock} (hB : Tidy B) (hids : DistinctIds B)
include hB hids

/-- **Unlinking heights** takes the rows of their blocks away: what is read at a height is the one block of the set that
has it. -/
theorem Indexes.unlinkHeights {l : List Nat} (h : Indexes P s) (hP : ∀ c, P c → c ∈ B)
    (hread : ∀ k ∈ l, ∀ b, s.getBlockByHeight k = .ok b → b ∈ B ∧ b.getHeight = k)
    (huniq : ∀ k ∈ l, ∀ b, s.getBlockByHeight k = .ok b → ∀ c, P c → c.getHeight = k → c = b)
    (hu : l.foldlM BlockStore.unlinkHeight s = .ok s') : Indexes (fun c => P c ∧ c.getHeight ∉ l) s' := by
  induction l generalizing s P with
  | nil =>
    obtain rfl := pure_eq_ok.mp hu
    exact h.of_iff fun c => by simp
  | cons k l ih =>
    rw [List.foldlM_cons] at hu
    obtain ⟨t, hk, hu⟩ := bind_eq_ok.mp hu
    obtain ⟨old, hold, hk⟩ := bind_eq_ok.mp hk
    obtain rfl := pure_eq_ok.mp hk
    rcases hread k List.mem_cons_self old hold with ⟨holdB, holdHeight⟩
    have huniq₁ := huniq k List.mem_cons_self old hold
    -- another block of the set has another height
    have hdel := h.delTxs (b := old) fun c hc hne =>
      hB.apart hids holdB (hP c hc) fun heq => hne (huniq₁ c hc (heq.symm.trans holdHeight))
    have hread' : ∀ k b, BlockStore.getBlockByHeight
        { s.delTxs old.txs with side := (s.delTxs old.txs).side.insert old.getHash.val old.getHeight } k = .ok b →
        s.getBlockByHeight k = .ok b := by
      intro k b hb
      obtain ⟨_, _, _, _, heq⟩ := delTxs_reindexed old.txs s
      rw [heq] at hb
      exact hb
    have hstep := ih (s := { s.delTxs old.txs with
        side := (s.delTxs old.txs).side.insert old.getHash.val old.getHeight })
      (hdel.of_index rfl) (fun c hc => hP c hc.1)
      (fun k hk b hb => hread k (List.mem_cons_of_mem _ hk) b (hread' k b hb))
      (fun k hk b hb c hc => huniq k (List.mem_cons_of_mem _ hk) b (hread' k b hb) c hc.1) hu
    refine hstep.of_iff fun c => ?_
    rw [List.mem_cons, not_or, and_assoc]
    refine and_congr_right fun hc => and_congr_left fun _ => not_congr ?_
    exact ⟨fun heq => heq ▸ holdHeight, huniq₁ c hc⟩

/-- **Connecting a branch** adds the rows of its blocks, which stand above everything indexed so far. -/
theorem Indexes.connectBranch {branch : List FullBlock} (h : Indexes P s) (hP : ∀ c, P c → c ∈ B)
    (hbranch : ∀ b ∈ branch, b ∈ B) (hchain : branch.IsChain Follows)
    (hbelow : ∀ c, P c → ∀ b ∈ branch, c.getHeight < b.getHeight) :
    Indexes (fun c => c ∈ branch ∨ P c) (branch.foldl connectBlock s) := by
  induction branch generalizing s P with
  | nil => exact h.of_iff fun c => by simp
  | cons b branch ih =>
    have hput : Indexes (fun c => c = b ∨ P c) ((s.putBlock b).putTxs b) := by
      refine Indexes.putTxs (h.of_index rfl) fun c hc => ?_
      refine hB.apart hids (hbranch b List.mem_cons_self) (hP c hc) ?_
      exact (hbelow c hc b List.mem_cons_self).ne'
    have habove : ∀ c ∈ branch, b.getHeight < c.getHeight := by
      cases branch with
      | nil => exact nofun
      | cons next rest =>
        obtain ⟨hfollows, hchain⟩ := List.isChain_cons_cons.mp hchain
        intro c hc
        have hlow := ((height_mem_branch hchain).2 c hc).1
        have hstep : next.getHeight = b.getHeight + 1 := hfollows.1
        omega
    have hrest := ih (s := s.connectBlock b) (hput.of_index rfl)
      (fun c hc => hc.elim (fun heq => heq ▸ hbranch b List.mem_cons_self) (hP c))
      (fun c hc => hbranch c (List.mem_cons_of_mem b hc)) hchain.of_cons ?_
    · refine hrest.of_iff fun c => ?_
      rw [List.mem_cons]
      tauto
    · rintro c (rfl | hc) d hd
      · exact habove d hd
      · exact hbelow c hc d (List.mem_cons_of_mem b hd)

variable (hinj : Set.InjOn BlockHeader.getHash H)
include hinj

omit hids in
theorem eq_of_hash (hH : ∀ b ∈ B, b.header ∈ H) {b c : FullBlock} (hb : b ∈ B) (hc : c ∈ B)
    (hhash : b.getHash.val = c.getHash.val) : b = c :=
  hB.bodies b hb c hc (hinj (hH b hb) (hH c hc) (Subtype.ext hhash))

/-- **Extending the chain** adds the rows of the new tip. -/
theorem Indexes.putNewBlock (hH : ∀ b ∈ B, b.header ∈ H) (hs : Sound H s tip) (h : Indexes (Canon B s) s) (hb : b ∈ B)
    (hprev : b.getPrevHash = s.latestHash) (hput : s.putNewBlock b = .ok s') : Indexes (Canon B s') s' := by
  have hfollows := (hs.putNewBlock hinj (hH b hb) hprev hput).1
  obtain ⟨_, _, hput⟩ := bind_eq_ok.mp hput
  obtain rfl := pure_eq_ok.mp hput
  obtain ⟨_, _, _, _, heq⟩ := putTxs_reindexed b (s.putBlock b)
  have hheights : (((s.putBlock b).putTxs b).putLatestTags b).heights =
      s.heights.insert b.getHeight b.getHash.val := by
    show ((s.putBlock b).putTxs b).heights = _
    rw [heq]
    rfl
  have hheight : b.getHeight = tip.getHeight + 1 := hfollows.1
  -- what the index names stands at or below the old tip
  have hold : ∀ c, Canon B s c → c.getHeight ≤ tip.getHeight := by
    rintro c ⟨_, _, hc⟩
    by_contra hgt
    rw [hs.above _ (by omega)] at hc
    cases hc
  have hnew : Indexes (fun c => c = b ∨ Canon B s c) (((s.putBlock b).putTxs b).putLatestTags b) := by
    refine Indexes.of_index (s := (s.putBlock b).putTxs b) ?_ rfl
    refine Indexes.putTxs (h.of_index rfl) fun c hc => hB.apart hids hb hc.1 ?_
    have := hold c hc
    omega
  refine hnew.of_iff fun c => ?_
  unfold Canon
  rw [hheights, Bucket.get_insert]
  constructor
  · rintro (rfl | hc)
    · exact ⟨hb, by omega, if_pos rfl⟩
    · have := hold c hc
      exact ⟨hc.1, hc.2.1, (if_neg (by omega)).trans hc.2.2⟩
  · rintro ⟨hcB, hpos, hc⟩
    split at hc
    · exact .inl (eq_of_hash hB hinj hH hcB hb (Option.some_injective _ hc).symm)
    · exact .inr ⟨hcB, hpos, hc⟩

/-- **Switching** replaces the rows of the unlinked blocks by those of the branch. -/
theorem Indexes.switchToBranch (hH : ∀ b ∈ B, b.header ∈ H) (hs : Sound H s tip) (hzero : s.originHeight = 0)
    (hkeeps : Keeps B s) (h : Indexes (Canon B s) s) {branch : List FullBlock}
    (hb : ∀ b ∈ branch, b ∈ B ∧ s.originHeight < b.getHeight) (hswitch : s.switchToBranch branch = .ok s') :
    Indexes (Canon B s') s' := by
  obtain ⟨first, rest, rfl, hs', _, hbelow⟩ := hs.switchToBranch hinj (fun b hm => ⟨hH b (hb b hm).1, (hb b hm).2⟩) hswitch
  have hindex := switchToBranch_index hswitch
  have hfirst : 0 < first.getHeight := by
    have := (hb first List.mem_cons_self).2
    omega
  -- a height of the index names the one block of the set that has it
  have hread : ∀ k, first.getHeight ≤ k → ∀ b, s.getBlockByHeight k = .ok b → b ∈ B ∧ b.getHeight = k := by
    intro k hk b hbody
    obtain ⟨hash, hname, hbody⟩ := getBlockByHeight_eq_ok.mp hbody
    have hle : k ≤ tip.getHeight := by
      by_contra hgt
      rw [hs.above _ (by omega)] at hname
      cases hname
    obtain ⟨b', hname', hbody', hheight', _⟩ := hs.canonical k (by omega) hle
    rw [hname] at hname'
    cases hname'
    rw [hbody] at hbody'
    cases hbody'
    exact ⟨hkeeps _ b hbody (by omega), hheight'⟩
  have huniq : ∀ k, first.getHeight ≤ k → ∀ b, s.getBlockByHeight k = .ok b → ∀ c, Canon B s c → c.getHeight = k →
      c = b := by
    rintro k hk b hbody c ⟨hcB, _, hc⟩ rfl
    have hbB := (hread _ hk b hbody).1
    obtain ⟨hash, hname, hbody⟩ := getBlockByHeight_eq_ok.mp hbody
    refine eq_of_hash hB hinj hH hcB hbB ?_
    rw [hc] at hname
    exact (Option.some_injective _ hname).trans (hs.keyed _ _ hbody).symm
  rw [BlockStore.switchToBranch] at hswitch
  obtain ⟨_, hchain, hswitch⟩ := bind_eq_ok.mp hswitch
  obtain ⟨_, _, hswitch⟩ := bind_eq_ok.mp hswitch
  obtain ⟨t, hunlink, hswitch⟩ := bind_eq_ok.mp hswitch
  have hchain := ensure_eq_ok.mp hchain
  have hlow : ∀ b ∈ first :: rest, first.getHeight ≤ b.getHeight := fun b hm => ((height_mem_branch hchain).2 b hm).1
  have hunlinked := Indexes.unlinkHeights hB hids h (fun c hc => hc.1)
    (fun k hk => hread k (List.mem_range'_1.mp hk).1) (fun k hk => huniq k (List.mem_range'_1.mp hk).1) hunlink
  have hcut : Indexes (fun c => Canon B s c ∧ c.getHeight < first.getHeight) t := by
    refine hunlinked.of_iff fun c => and_congr_right fun hc => ?_
    have hle : c.getHeight ≤ s.latestHeight := by
      by_contra hgt
      have := hc.2.2
      rw [hs.above _ (by have := hs.latestHeight; omega)] at this
      cases this
    rw [List.mem_range'_1]
    omega
  have hgrown := Indexes.connectBranch hB hids hcut (fun c hc => hc.1.1) (fun b hm => (hb b hm).1) hchain
    fun c hc b hm => lt_of_lt_of_le hc.2 (hlow b hm)
  obtain rfl := pure_eq_ok.mp hswitch
  refine Indexes.of_iff (Indexes.of_index hgrown ?_) fun c => ?_
  · rfl
  constructor
  · rintro (hmem | ⟨hc, hlt⟩)
    · exact ⟨(hb c hmem).1, by have := hlow c hmem; omega, hindex c hmem⟩
    · exact ⟨hc.1, hc.2.1, (hbelow _ hlt).trans hc.2.2⟩
  · rintro ⟨hcB, hpos, hc⟩
    by_cases hlt : c.getHeight < first.getHeight
    · exact .inr ⟨⟨hcB, hpos, (hbelow _ hlt).symm.trans hc⟩, hlt⟩
    · -- above the fork only the branch is named
      have hle : c.getHeight ≤ (rest.getLastD first).getHeight := by
        by_contra hgt
        rw [hs'.above _ (by omega)] at hc
        cases hc
      obtain ⟨b, hm, hheight⟩ := exists_mem_of_height hchain (Nat.le_of_not_lt hlt) hle
      have hname := hindex b hm
      rw [hheight, hc] at hname
      obtain rfl := eq_of_hash hB hinj hH hcB (hb b hm).1 (Option.some_injective _ hname)
      exact .inl hm

end Tidied

theorem Indexes.carry (h : Indexes (Canon B s) s) (hindex : s'.index = s.index) (hheights : s'.heights = s.heights) :
    Indexes (Canon B s') s' := by
  refine (h.of_index hindex).of_iff fun c => ?_
  unfold Canon
  rw [hheights]

theorem cumulativeWork_heights {block : FullBlock} {work : Nat} (h : s.cumulativeWork block = .ok (work, s')) :
    s'.heights = s.heights := by
  obtain ⟨_, _, _, _, rfl⟩ := cumulativeWork_reindexed h
  rfl

end BlockStore

/-! ## §5 — the calls of the node -/

open BlockStore (Tidy DistinctIds Indexes Canon Keeps maintain_index maintain_heights cumulativeWork_index
  cumulativeWork_heights)

namespace Node

variable [Crypto] {S : Type} {L : Ledger S} {now : Nat} {n n' : Node S} {tip block : FullBlock} {branch : List FullBlock}
  {B : Set FullBlock} {H : Set BlockHeader} (hB : Tidy B) (hids : DistinctIds B)
  (hinj : Set.InjOn BlockHeader.getHash H) (hH : ∀ b ∈ B, b.header ∈ H) (harchive : L.archive = true)
include hB hids hinj hH harchive

theorem extendTip_indexed (hs : Sound H n.store tip) (h : Indexes (Canon B n.store) n.store) (hb : block ∈ B)
    (hprev : block.getPrevHash = n.store.latestHash) (hok : extendTip L now block n = .ok n') :
    Indexes (Canon B n'.store) n'.store := by
  obtain ⟨_, store, work, store', hput, hwork, _, hstore⟩ := extendTip_eq_ok hok
  have hindexed := (h.putNewBlock hB hids hinj hH hs hb hprev hput).carry (cumulativeWork_index hwork)
    (cumulativeWork_heights hwork)
  rw [hstore]
  exact hindexed.carry (maintain_index harchive _ _) (maintain_heights L _ _)

theorem switchToBranchTxn_indexed (hs : Sound H n.store tip) (hzero : n.store.originHeight = 0)
    (hkeeps : Keeps B n.store) (h : Indexes (Canon B n.store) n.store)
    (hb : ∀ b ∈ branch, b ∈ B ∧ n.store.originHeight < b.getHeight)
    (hok : switchToBranchTxn L branch n = .ok n') : Indexes (Canon B n'.store) n'.store := by
  obtain ⟨first, rest, store, rfl, hswitch, hstore, _⟩ := switchToBranchTxn_eq_ok hok
  rw [hstore]
  exact (h.switchToBranch hB hids hinj hH hs hzero hkeeps hb hswitch).carry (maintain_index harchive _ _)
    (maintain_heights L _ _)

theorem importSide_indexed (hs : Sound H n.store tip) (hzero : n.store.originHeight = 0)
    (hkeeps : Keeps B n.store) (h : Indexes (Canon B n.store) n.store) (hb : block ∈ B)
    (hok : importSide L now block n = .ok n') : Indexes (Canon B n'.store) n'.store := by
  obtain ⟨prev, blockWork, tip', tipWork, store, hw, hcase⟩ := importSide_eq_ok hok
  obtain ⟨_, hs', hheights, horigin, hbody⟩ := hw.sound hinj hs (hH block hb)
  -- storing the block and weighing it touches no index
  have hindexed : Indexes (Canon B store) store := by
    obtain ⟨_, _, middle, hwork, _, htipWork⟩ := hw
    refine h.carry ?_ hheights
    rw [cumulativeWork_index htipWork, cumulativeWork_index hwork]
    rfl
  rcases hcase with ⟨_, rfl⟩ | ⟨_, first, rest, hbranch, _, hswitch⟩
  · exact hindexed
  · have hkeeps' : Keeps B store := hkeeps.mono (l := [block]) (by simpa using hb) fun hash b hbody => by
      rw [List.mem_singleton]
      exact hw.blocks hbody
    refine switchToBranchTxn_indexed hB hids hinj hH harchive hs' (horigin.trans hzero) hkeeps' hindexed ?_ hswitch
    intro b hm
    obtain ⟨⟨hash, hstored⟩, hside⟩ := BlockStore.collectBranch_mem hbranch ⟨_, hbody⟩ b hm
    have habove := hs'.above_origin hstored hside
    exact ⟨hkeeps' hash b hstored (by omega), habove⟩

theorem switchToBranch_indexed (hs : Sound H n.store tip) (hzero : n.store.originHeight = 0)
    (hkeeps : Keeps B n.store) (h : Indexes (Canon B n.store) n.store) (hb : ∀ b ∈ branch, b ∈ B)
    (hok : switchToBranch L now branch n = .ok n') : Indexes (Canon B n'.store) n'.store := by
  obtain ⟨first, rest, forkParent, base, tip', tipWork, store, store', rfl, hparent, hcheck, hbase, _, htipWork, _,
    hswitch⟩ := switchToBranch_eq_ok hok
  have hre := (BlockStore.cumulativeWork_reindexed hbase).trans (BlockStore.cumulativeWork_reindexed htipWork)
  have hindexed := (h.carry (cumulativeWork_index hbase) (cumulativeWork_heights hbase)).carry
    (cumulativeWork_index htipWork) (cumulativeWork_heights htipWork)
  have hle := hs.origin_le hparent
  have hs' := hs.reindexed hre
  obtain ⟨_, _, _, _, rfl⟩ := hre
  refine switchToBranchTxn_indexed (n := ⟨_, n.state⟩) hB hids hinj hH harchive hs' hzero hkeeps hindexed
    (fun b hm => ?_) hswitch
  have habove := checkBranch_above hcheck b hm
  exact ⟨hb b hm, lt_of_le_of_lt hle habove⟩

end Node

/-! ## §6 — every archive node -/

namespace BlockStore

variable [Crypto]

/-- A canonical block above genesis, as stored. -/
def Canonical (s : BlockStore) (b : FullBlock) : Prop := 0 < b.getHeight ∧ s.getBlockByHeight b.getHeight = .ok b

/-- **`IndexExact`** — the ids are those of the canonical chain, each names the canonical block that contains it, and the
history of an address lists the canonical transactions that involve it, at the height of their block. The genesis block
is not indexed. -/
structure IndexExact (s : BlockStore) : Prop where
  ids : ∀ t : Bytes32, s.txs[t]? ≠ none ↔ ∃ b, s.Canonical b ∧ ∃ tx ∈ b.txs, tx.getHash = t
  containing : ∀ (t : Bytes32) (h : Bytes),
    s.txBlock[t]? = some h ↔ ∃ b, s.Canonical b ∧ b.getHash.val = h ∧ ∃ tx ∈ b.txs, tx.getHash = t
  history : ∀ (a : Address) (k : Nat) (t : Bytes32),
    s.addrTx[(a, k, t)]? = some () ↔
      ∃ b, s.Canonical b ∧ b.getHeight = k ∧ ∃ tx ∈ b.txs, tx.getHash = t ∧ a ∈ txAddresses tx

variable {B : Set FullBlock} {H : Set BlockHeader} {s : BlockStore} {tip : FullBlock}

/-- In a sound store that keeps to the set, what the height index names is what is read. -/
theorem canonical_iff (hB : Tidy B) (hinj : Set.InjOn BlockHeader.getHash H) (hH : ∀ b ∈ B, b.header ∈ H)
    (hs : Sound H s tip) (hzero : s.originHeight = 0) (hkeeps : Keeps B s) (b : FullBlock) :
    Canon B s b ↔ s.Canonical b := by
  constructor
  · rintro ⟨hb, hpos, hname⟩
    have hle : b.getHeight ≤ tip.getHeight := by
      by_contra hgt
      rw [hs.above _ (by omega)] at hname
      cases hname
    obtain ⟨c, hname', hbody, hheight, _⟩ := hs.canonical b.getHeight (by omega) hle
    have hcB : c ∈ B := hkeeps _ c hbody (by omega)
    rw [hname] at hname'
    obtain rfl := eq_of_hash hB hinj hH hb hcB (Option.some_injective _ hname')
    exact ⟨hpos, getBlockByHeight_eq_ok.mpr ⟨_, hname, hbody⟩⟩
  · rintro ⟨hpos, hread⟩
    obtain ⟨hash, hname, hbody⟩ := getBlockByHeight_eq_ok.mp hread
    refine ⟨hkeeps _ b hbody hpos, hpos, ?_⟩
    rw [hs.keyed hash b hbody]
    exact hname

theorem Indexes.exact (hB : Tidy B) (h : Indexes (Canon B s) s) (hcanon : ∀ b, Canon B s b ↔ s.Canonical b) :
    s.IndexExact := by
  have hall := h.of_iff hcanon
  refine ⟨fun t => ⟨fun hfound => ?_, ?_⟩, hall.containing, fun a k t => ?_⟩
  · obtain ⟨tx, htx⟩ := Option.ne_none_iff_exists'.mp hfound
    obtain ⟨b, hb, hmem, hid⟩ := hall.stored t tx htx
    exact ⟨b, hb, tx, hmem, hid⟩
  · rintro ⟨b, hb, tx, hmem, rfl⟩
    exact hall.found b hb tx hmem
  · rw [hall.history]
    constructor
    · rintro ⟨b, hb, tx, hmem, hid, rfl, ha⟩
      exact ⟨b, hb, (hB.heights b ((hcanon b).mpr hb).1 tx hmem).symm, tx, hmem, hid, ha⟩
    · rintro ⟨b, hb, rfl, tx, hmem, hid, ha⟩
      exact ⟨b, hb, tx, hmem, hid, hB.heights b ((hcanon b).mpr hb).1 tx hmem, ha⟩

end BlockStore

section Reach

variable [Engine] (cfg : Config)

/-- **`Node.Given B`** — the nodes that any sequence of calls on blocks of `B` leads to, the failing calls included. -/
inductive Node.Given (B : Set FullBlock) : Node State → Prop
  | genesis {n : Node State} : Node.genesis cfg = .ok n → Given B n
  | applyBlock {n : Node State} (now : Nat) (block : FullBlock) : Given B n → block ∈ B →
      Given B (n.update (n.applyBlock (ledger cfg) now block))
  | switchToBranch {n : Node State} (now : Nat) (branch : List FullBlock) : Given B n → (∀ b ∈ branch, b ∈ B) →
      Given B (n.update (n.switchToBranch (ledger cfg) now branch))

variable {cfg} {B : Set FullBlock} {n : Node State}

theorem Node.Given.reachable (h : Node.Given cfg B n) : Node.Reachable cfg (FullBlock.header '' B) n := by
  induction h with
  | genesis hn => exact .genesis hn
  | applyBlock now block _ hb ih => exact ih.applyBlock now block ⟨block, hb, rfl⟩
  | switchToBranch now branch _ hb ih => exact ih.switchToBranch now branch fun b hm => ⟨b, hb b hm, rfl⟩

/-- **The indices of every archive node given tidy blocks.** -/
theorem Node.Given.indexed (hB : Tidy B) (hids : DistinctIds B)
    (hinj : Set.InjOn BlockHeader.getHash (genesisHeaders ∪ FullBlock.header '' B)) (harchive : cfg.archive = true)
    (h : Node.Given cfg B n) : Keeps B n.store ∧ Indexes (Canon B n.store) n.store := by
  have hH : ∀ b ∈ B, b.header ∈ genesisHeaders ∪ FullBlock.header '' B := fun b hb => .inr ⟨b, hb, rfl⟩
  induction h with
  | genesis hn =>
    obtain ⟨genesis, hgenesis, _, hstore⟩ := Node.genesis_eq_ok hn
    have hheight := getGenesisBlock_height hgenesis
    rw [hstore]
    have hempty : ∀ c, ¬ Canon B (BlockStore.initWithGenesis genesis) c := by
      rintro c ⟨_, hpos, hname⟩
      unfold BlockStore.initWithGenesis at hname
      rw [Bucket.get_insert, if_neg (by omega)] at hname
      simp at hname
    refine ⟨fun hash b hbody hpos => ?_, ?_, ?_, ?_, ?_⟩
    · unfold BlockStore.initWithGenesis at hbody
      rw [Bucket.get_insert] at hbody
      split at hbody
      · cases hbody
        omega
      · simp at hbody
    · intro t tx htx
      simp [BlockStore.initWithGenesis] at htx
    · exact fun b hb => absurd hb (hempty b)
    · intro t hash
      refine ⟨fun hrow => ?_, fun ⟨b, hb, _⟩ => absurd hb (hempty b)⟩
      simp [BlockStore.initWithGenesis] at hrow
    · intro a k t
      refine ⟨fun hrow => ?_, fun ⟨b, hb, _⟩ => absurd hb (hempty b)⟩
      simp [BlockStore.initWithGenesis] at hrow
  | @applyBlock n now block hr hb ih =>
    cases hok : n.applyBlock (ledger cfg) now block with
    | error e => exact ih
    | ok n' =>
      show Keeps B n'.store ∧ Indexes (Canon B n'.store) n'.store
      obtain ⟨hkeeps, hindexed⟩ := ih
      obtain ⟨tip, hs⟩ := hr.reachable.sound hinj
      have hzero := hr.reachable.originHeight_eq hinj
      unfold Node.applyBlock at hok
      split at hok
      · next hprev =>
        refine ⟨hkeeps.mono (l := [block]) (by simpa using hb) fun hash b hbody => ?_,
          Node.extendTip_indexed hB hids hinj hH harchive hs hindexed hb hprev hok⟩
        rw [List.mem_singleton]
        exact Node.extendTip_blocks hok hbody
      · refine ⟨?_, Node.importSide_indexed hB hids hinj hH harchive hs hzero hkeeps hindexed hb hok⟩
        obtain ⟨_, _, _, _, store, hw, hcase⟩ := Node.importSide_eq_ok hok
        have hkeeps' : Keeps B store := hkeeps.mono (l := [block]) (by simpa using hb) fun hash b hbody => by
          rw [List.mem_singleton]
          exact hw.blocks hbody
        rcases hcase with ⟨_, rfl⟩ | ⟨_, first, rest, hbranch, _, hswitch⟩
        · exact hkeeps'
        · obtain ⟨_, hs', _, horigin, hbody⟩ := hw.sound hinj hs (hH block hb)
          refine hkeeps'.mono (fun b hm => ?_) fun hash b => Node.switchToBranchTxn_blocks hswitch
          obtain ⟨⟨hash, hstored⟩, hside⟩ := BlockStore.collectBranch_mem hbranch ⟨_, hbody⟩ b hm
          have habove := hs'.above_origin hstored hside
          exact hkeeps' hash b hstored (by omega)
  | @switchToBranch n now branch hr hb ih =>
    cases hok : n.switchToBranch (ledger cfg) now branch with
    | error e => exact ih
    | ok n' =>
      show Keeps B n'.store ∧ Indexes (Canon B n'.store) n'.store
      obtain ⟨hkeeps, hindexed⟩ := ih
      obtain ⟨tip, hs⟩ := hr.reachable.sound hinj
      have hzero := hr.reachable.originHeight_eq hinj
      refine ⟨?_, Node.switchToBranch_indexed hB hids hinj hH harchive hs hzero hkeeps hindexed hb hok⟩
      obtain ⟨_, _, _, _, _, _, _, store', rfl, _, _, hbase, _, htipWork, _, hswitch⟩ := Node.switchToBranch_eq_ok hok
      obtain ⟨_, _, _, _, rfl⟩ := (BlockStore.cumulativeWork_reindexed hbase).trans
        (BlockStore.cumulativeWork_reindexed htipWork)
      refine hkeeps.mono hb fun hash b hbody => ?_
      have hcases := Node.switchToBranchTxn_blocks hswitch hbody
      exact hcases

/-- **The indices of an archive node are exact**, whatever tidy blocks it was given in whatever order: genesis apart,
they hold the rows of the canonical chain and nothing else. -/
theorem Node.indices_exact (hB : Tidy B) (hids : DistinctIds B)
    (hinj : Set.InjOn BlockHeader.getHash (genesisHeaders ∪ FullBlock.header '' B)) (harchive : cfg.archive = true)
    (h : Node.Given cfg B n) : n.store.IndexExact := by
  obtain ⟨hkeeps, hindexed⟩ := h.indexed hB hids hinj harchive
  obtain ⟨tip, hs⟩ := h.reachable.sound hinj
  have hzero := h.reachable.originHeight_eq hinj
  exact hindexed.exact hB
    (BlockStore.canonical_iff hB hinj (fun b hb => .inr ⟨b, hb, rfl⟩) hs hzero hkeeps)

end Reach

/-! ## §7 — by hand -/

/-- A run of the hand-made ledger, as a run on the listed blocks. -/
theorem exists_given_byHand (modules : Bytes → Option Module) (archive : Bool) (l : List FullBlock)
    (test : Node State → Bool) :
    letI := Engine.byHand modules
    okAnd (handRun ⟨ZERONET, archive⟩ l (handNode archive)) test = true →
      ∃ n, Node.Given ⟨ZERONET, archive⟩ {b | b ∈ l} n ∧ test n = true := by
  let _ := Engine.byHand modules
  intro h
  have hend := exists_of_foldlM (P := fun n : Node State =>
    Node.Given ⟨ZERONET, archive⟩ {b | b ∈ l} n ∧ n.state.Committed)
    (fun b hb n n' hn hok => ?_) ⟨.genesis (genesis_byHand modules archive), committed_handNode modules archive⟩ h
  · exact hend.imp fun n hn => ⟨hn.1.1, hn.2⟩
  · obtain ⟨heq, hkeep⟩ := (handLedger_agrees modules ⟨ZERONET, archive⟩).applyBlock handNow b hn.2
    have hok := heq.trans hok
    have hm := hn.1.applyBlock handNow b hb
    rw [hok] at hm
    exact ⟨hm, hkeep n' hok⟩

theorem image_header_byHand (l : List FullBlock) : FullBlock.header '' {b | b ∈ l} = {x | x ∈ l.map FullBlock.header} := by
  ext x
  rw [Set.mem_image]
  exact List.mem_map.symm

/-- The indices after the payment of `handPaid`. -/
theorem Node.indices_exact_handPaid :
    letI := Engine.bare
    ∃ n : Node State, n.store.addrTx[(handAddr 2, 3, handPayment.getHash)]? = some () ∧ n.store.IndexExact := by
  let _ := Engine.bare
  obtain ⟨n, hr, htest⟩ := exists_given_byHand (fun _ => none) true handPaid
    (fun n => decide (n.store.addrTx[(handAddr 2, 3, handPayment.getHash)]? = some ())) (by decide +kernel)
  have hheights : ∀ b ∈ handPaid, ∀ tx ∈ b.txs, tx.height = b.getHeight := by decide +kernel
  have hbodies : ∀ b ∈ handPaid, ∀ c ∈ handPaid, b.header = c.header → b = c := by decide +kernel
  have hids : ∀ b ∈ handPaid, ∀ c ∈ handPaid, ∀ tx ∈ b.txs, ∀ tx' ∈ c.txs, tx.getHash = tx'.getHash →
      tx.unsigned = tx'.unsigned := by decide +kernel
  have hinj : Set.InjOn BlockHeader.getHash (genesisHeaders ∪ FullBlock.header '' {b | b ∈ handPaid}) := by
    rw [image_header_byHand]
    exact injOn_byHand _ (by decide +kernel)
  exact ⟨n, of_decide_eq_true htest, Node.indices_exact ⟨hheights, hbodies⟩ hids hinj rfl hr⟩

/-- The payment of height 3, carried by block 4. -/
def handLate [Crypto] : List FullBlock :=
  let first := handSeal handGenesis 1 [] []
  let second := handSeal first 1 [] [handCommit 1 2 (10 ^ 13) handPayment]
  let third := handSeal second 1 [] []
  [first, second, third, handSeal third 1 [handPayment] []]

/-- **A transaction is listed at a height whose block does not contain it**: every block is accepted. -/
theorem Node.indices_inexact_handLate :
    letI := Engine.bare
    ∃ n : Node State, Node.Given ⟨ZERONET, true⟩ {b | b ∈ handLate} n ∧
      Set.InjOn BlockHeader.getHash (genesisHeaders ∪ FullBlock.header '' {b | b ∈ handLate}) ∧
      DistinctIds {b | b ∈ handLate} ∧ ¬ n.store.IndexExact := by
  let _ := Engine.bare
  obtain ⟨n, hr, htest⟩ := exists_given_byHand (fun _ => none) true handLate
    (fun n => decide (n.store.addrTx[(handAddr 2, 3, handPayment.getHash)]? = some ()) &&
      okAnd (n.store.getBlockByHeight 3) fun b => b.txs.all fun tx => decide (tx.getHash ≠ handPayment.getHash))
    (by decide +kernel)
  rw [Bool.and_eq_true] at htest
  have hids : ∀ b ∈ handLate, ∀ c ∈ handLate, ∀ tx ∈ b.txs, ∀ tx' ∈ c.txs, tx.getHash = tx'.getHash →
      tx.unsigned = tx'.unsigned := by decide +kernel
  refine ⟨n, hr, ?_, hids, fun hexact => ?_⟩
  · rw [image_header_byHand]
    exact injOn_byHand _ (by decide +kernel)
  · obtain ⟨b, ⟨_, hread⟩, hheight, tx, htx, hid, _⟩ := (hexact.history _ _ _).mp (of_decide_eq_true htest.1)
    obtain ⟨b', hread', hall⟩ := exists_of_okAnd htest.2
    rw [hheight, hread'] at hread
    cases hread
    exact of_decide_eq_true (List.all_eq_true.mp hall tx htx) hid

end NgCore
