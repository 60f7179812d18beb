/-
# NgCore.Pool.Runs — the pool and its queues over whole runs

Replacement, eviction and packing meet on one map keyed by sender. What one `PutTx` does to the entries of the others is
said once (`putTx_entries`); the invariants of a pool that was filled through its gates follow by induction over
`Stocked`, and the pack is compared with everything it left out. The second half is about the two relay queues: each
half of a commit-reveal pair gets its expiry when it is queued, and every tip movement drains both.

DELIVERABLE: `pool_invariants`; `reveal_outlives_iff` — the reveal is there for the whole window of a commitment
submitted for height `c` exactly when `c` is at most one window above the height both halves were queued for.
`reveal_dropped_handPay` is a commitment that is submitted for a later height: its reveal is dropped untried.
-/
import NgCore.Pool
import NgCore.State.Handmade

namespace NgCore

open Lib (Bucket)

namespace TxPool

/-! ## §1 — one admission -/

/-- One step of the search for the cheapest entry. -/
def cheaperEntry (best : Option (Address × Nat)) (e : Address × FullTx) : Option (Address × Nat) :=
  match best with
  | none => some (e.1, e.2.fee)
  | some (addr, fee) =>
    if e.2.fee < fee ∨ e.2.fee = fee ∧ compare e.1 addr = .gt then some (e.1, e.2.fee) else best

theorem cheapestEntry_eq (txMap : Bucket Address FullTx) : cheapestEntry txMap = txMap.toList.foldl cheaperEntry none :=
  rfl

/-- The search finds an entry of the map, and none is cheaper. -/
theorem cheapestEntry_spec {txMap : Bucket Address FullTx} {addr : Address} {fee : Nat}
    (h : cheapestEntry txMap = some (addr, fee)) :
    (∃ tx, txMap[addr]? = some tx ∧ tx.fee = fee) ∧
      ∀ (b : Address) (other : FullTx), txMap[b]? = some other → fee ≤ other.fee := by
  -- the fold over a part of the list, from a best entry that is in the map
  have hfold : ∀ (l : List (Address × FullTx)) (best : Option (Address × Nat)),
      (∀ e ∈ l, txMap[e.1]? = some e.2) →
      (∀ a f, best = some (a, f) → ∃ tx, txMap[a]? = some tx ∧ tx.fee = f) →
      ∀ a f, l.foldl cheaperEntry best = some (a, f) → (∃ tx, txMap[a]? = some tx ∧ tx.fee = f) ∧ (∀ e ∈ l, f ≤ e.2.fee) ∧
          ∀ a' f', best = some (a', f') → f ≤ f' := by
    intro l
    induction l with
    | nil =>
      intro best _ hbest a f hok
      exact ⟨hbest a f hok, (fun e he => by cases he), fun a' f' heq => by cases hok.symm.trans heq; exact le_rfl⟩
    | cons e l ih =>
      intro best hl hbest a f hok
      rw [List.forall_mem_cons] at hl
      rw [List.foldl_cons] at hok
      cases best with
      | none =>
        rcases ih _ hl.2 (fun a f heq => by cases heq; exact ⟨e.2, hl.1, rfl⟩) a f hok with ⟨hin, hall, hle⟩
        exact ⟨hin, List.forall_mem_cons.mpr ⟨hle _ _ rfl, hall⟩, fun a' f' heq => by cases heq⟩
      | some best =>
        rcases best with ⟨a', f'⟩
        rw [cheaperEntry] at hok
        split at hok
        · next hless =>
          rcases ih _ hl.2 (fun a f heq => by cases heq; exact ⟨e.2, hl.1, rfl⟩) a f hok with ⟨hin, hall, hle⟩
          have hfee := hle _ _ rfl
          refine ⟨hin, List.forall_mem_cons.mpr ⟨hfee, hall⟩, fun a'' f'' heq => ?_⟩
          cases heq
          omega
        · next hmore =>
          rcases ih _ hl.2 hbest a f hok with ⟨hin, hall, hle⟩
          have hfee := hle _ _ rfl
          exact ⟨hin, List.forall_mem_cons.mpr ⟨by omega, hall⟩, fun a'' f'' heq => by cases heq; exact hfee⟩
  rw [cheapestEntry_eq] at h
  rcases hfold txMap.toList none (fun e he => (Bucket.mem_toList_iff txMap e.1 e.2).mp he)
    (fun a f heq => by cases heq) addr fee h with ⟨hin, hall, _⟩
  exact ⟨hin, fun b other hb => hall (b, other) ((Bucket.mem_toList_iff txMap b other).mpr hb)⟩

section Admission

variable [Engine] {pool pool' : TxPool} {nextHeight : Nat} {tip : Option FullBlock} {v : View}

/-- **What becomes of an entry when a transaction is put**: it stays; it is the same sender's, and the new fee is
higher; or the pool is full, no entry is cheaper, and the new fee is higher. -/
def Fate (pool : TxPool) (tx : FullTx) (fromAddr : Address) (pool' : TxPool) (a : Address) (old : FullTx) : Prop :=
  pool'.txMap[a]? = some old ∨ (a = fromAddr ∧ pool'.txMap[a]? = some tx ∧ old.fee < tx.fee) ∨
    (a ≠ fromAddr ∧ pool.maxSize ≤ pool.txMap.size ∧ old.fee < tx.fee ∧
      ∀ (b : Address) (other : FullTx), pool.txMap[b]? = some other → old.fee ≤ other.fee)

theorem putTx_entries {tx : FullTx} (h : pool.putTx nextHeight tip v tx = .ok pool') :
    ∃ fromAddr, tx.fromAddr = .ok fromAddr ∧ pool'.txMap[fromAddr]? = some tx ∧ pool'.maxSize = pool.maxSize ∧
      (∀ a old, pool.txMap[a]? = some old → Fate pool tx fromAddr pool' a old) ∧
      (pool.txMap.size ≤ pool.maxSize → 1 ≤ pool.maxSize → pool'.txMap.size ≤ pool.maxSize) := by
  rcases bind_eq_ok.mp h with ⟨_, _, h⟩
  rcases bind_eq_ok.mp h with ⟨_, _, h⟩
  rcases bind_eq_ok.mp h with ⟨_, _, h⟩
  rcases bind_eq_ok.mp h with ⟨fromAddr, hfrom, h⟩
  refine ⟨fromAddr, hfrom, ?_⟩
  have hself : ∀ m : Bucket Address FullTx, (m.insert fromAddr tx)[fromAddr]? = some tx := by
    intro m
    rw [Bucket.get_insert, if_pos rfl]
  split at h
  · next existing hexisting =>
    rcases bind_eq_ok.mp h with ⟨_, hfee, h⟩
    cases pure_eq_ok.mp h
    refine ⟨hself _, rfl, fun a old hold => ?_, fun hsize _ => ?_⟩
    · by_cases heq : fromAddr = a
      · subst heq
        cases hexisting.symm.trans hold
        exact .inr (.inl ⟨rfl, hself _, ensure_eq_ok.mp hfee⟩)
      · refine .inl ?_
        dsimp only
        rw [Bucket.get_insert, if_neg heq, hold]
    · have hhas : pool.txMap.contains fromAddr = true := by
        rw [Std.ExtTreeMap.contains_eq_isSome_getElem?, hexisting]
        rfl
      dsimp only
      rw [Std.ExtTreeMap.size_insert, if_pos hhas]
      exact hsize
  · next habsent =>
    rcases bind_eq_ok.mp h with ⟨txMap, hroom, h⟩
    cases pure_eq_ok.mp h
    unfold makeRoom at hroom
    have hne : ∀ a old, pool.txMap[a]? = some old → fromAddr ≠ a := by
      rintro a old hold rfl
      cases habsent.symm.trans hold
    split at hroom
    · next hfull =>
      split at hroom
      · cases hroom
      · next evictAddr evictFee hcheapest =>
        rcases bind_eq_ok.mp hroom with ⟨_, hbeats, hroom⟩
        cases pure_eq_ok.mp hroom
        rcases cheapestEntry_spec hcheapest with ⟨⟨evicted, hevicted, hfee⟩, hleast⟩
        have hlower := ensure_eq_ok.mp hbeats
        refine ⟨hself _, rfl, fun a old hold => ?_, fun hsize hpos => ?_⟩
        · by_cases hout : evictAddr = a
          · subst hout
            cases hevicted.symm.trans hold
            exact .inr (.inr ⟨(hne _ _ hold).symm, hfull, by omega, fun b other hb => hfee ▸ hleast b other hb⟩)
          · refine .inl ?_
            dsimp only
            rw [Bucket.get_insert, if_neg (hne a old hold), Bucket.get_erase, if_neg hout, hold]
        · have hhas : pool.txMap.contains evictAddr = true := by
            rw [Std.ExtTreeMap.contains_eq_isSome_getElem?, hevicted]
            rfl
          have hinsert := Std.ExtTreeMap.size_insert_le (t := pool.txMap.erase evictAddr) (k := fromAddr) (v := tx)
          rw [Std.ExtTreeMap.size_erase, if_pos hhas] at hinsert
          dsimp only
          omega
    · next hspace =>
      cases hroom
      refine ⟨hself _, rfl, fun a old hold => .inl ?_, fun _ _ => ?_⟩
      · dsimp only
        rw [Bucket.get_insert, if_neg (hne a old hold), hold]
      · have hinsert := Std.ExtTreeMap.size_insert_le (t := pool.txMap) (k := fromAddr) (v := tx)
        dsimp only
        omega

/-- A commitment is replaced by a higher fee, and no other sender's moves. -/
theorem putCommitment_entries {commit : Commitment} (h : pool.putCommitment nextHeight tip v commit = .ok pool') :
    pool'.maxSize = pool.maxSize ∧ ∃ fromAddr, commit.fromAddr = .ok fromAddr ∧
      pool'.commitMap[fromAddr]? = some commit ∧
      ∀ (a : Address) (old : Commitment), pool.commitMap[a]? = some old →
        pool'.commitMap[a]? = some old ∨ (a = fromAddr ∧ old.fee < commit.fee) := by
  rcases bind_eq_ok.mp h with ⟨_, _, h⟩
  rcases bind_eq_ok.mp h with ⟨_, _, h⟩
  rcases bind_eq_ok.mp h with ⟨fromAddr, hfrom, h⟩
  dsimp only at h
  have hentries : pool' = { pool with commitMap := pool.commitMap.insert fromAddr commit } ∧
      ∀ old, pool.commitMap[fromAddr]? = some old → old.fee < commit.fee := by
    split at h
    · next hnone =>
      exact ⟨(pure_eq_ok.mp h).symm, fun old hold => by cases hnone.symm.trans hold⟩
    · next existing hsome =>
      rcases bind_eq_ok.mp h with ⟨_, hfee, h⟩
      refine ⟨(pure_eq_ok.mp h).symm, fun old hold => ?_⟩
      cases hsome.symm.trans hold
      exact ensure_eq_ok.mp hfee
  rcases hentries with ⟨rfl, hfee⟩
  refine ⟨rfl, fromAddr, hfrom, by simp, fun a old hold => ?_⟩
  by_cases heq : fromAddr = a
  · subst heq
    exact .inr ⟨rfl, hfee old hold⟩
  · refine .inl ?_
    dsimp only
    rw [Bucket.get_insert, if_neg heq, hold]

/-! ## §2 — every reachable pool -/

/-- **`Owned pool`** — every entry is under its own sender. -/
structure Owned (pool : TxPool) : Prop where
  txs : ∀ (a : Address) (tx : FullTx), pool.txMap[a]? = some tx → tx.fromAddr = .ok a
  commits : ∀ (a : Address) (c : Commitment), pool.commitMap[a]? = some c → c.fromAddr = .ok a

theorem Stocked.owned (h : pool.Stocked) : pool.Owned := by
  induction h with
  | init => exact ⟨fun _ _ h => absurd h (by simp [TxPool.init]), fun _ _ h => absurd h (by simp [TxPool.init])⟩
  | reset => exact ⟨fun _ _ h => absurd h (by simp [TxPool.reset]), fun _ _ h => absurd h (by simp [TxPool.reset])⟩
  | requeue _ _ _ ih => exact ⟨ih.txs, ih.commits⟩
  | putCommitment _ hput ih =>
    rcases putCommitment_eq_ok hput with ⟨htxs, _, fromAddr, hfrom, hcommits⟩
    refine ⟨by rw [htxs]; exact ih.txs, fun a c hget => ?_⟩
    rw [hcommits, Bucket.get_insert] at hget
    split at hget
    · next heq =>
      cases hget
      exact heq ▸ hfrom
    · exact ih.commits a c hget
  | putTx _ hput ih =>
    rcases putTx_eq_ok hput with ⟨fromAddr, _, _, _, hfrom, hcommits, hentries⟩
    refine ⟨fun a tx hget => ?_, by rw [hcommits]; exact ih.commits⟩
    rcases hentries a tx hget with ⟨rfl, rfl⟩ | ⟨_, hold⟩
    · exact hfrom
    · exact ih.txs a tx hold

theorem Stocked.size_le (h : pool.Stocked) (hmax : 1 ≤ pool.maxSize) : pool.txMap.size ≤ pool.maxSize := by
  induction h with
  | init => exact Nat.zero_le _
  | reset => exact Nat.zero_le _
  | requeue _ _ _ ih => exact ih hmax
  | putCommitment _ hput ih =>
    rw [(putCommitment_eq_ok hput).1]
    rw [(putCommitment_entries hput).1] at hmax ⊢
    exact ih hmax
  | putTx _ hput ih =>
    rcases putTx_entries hput with ⟨_, _, _, hsame, _, hsize⟩
    rw [hsame] at hmax ⊢
    exact hsize (ih hmax) hmax

end Admission

/-! ## §3 — the pack -/

section Pack

variable {α β : Type} [DecidableEq β]

/-- Of a sorted list the first element of each key stays: it comes before every other of its key. -/
theorem exists_mem_dedupByKey (key : α → β) {le : α → α → Prop} (hrefl : ∀ a, le a a) {l : List α}
    (hl : l.Pairwise le) {seen : List β} {x : α} (hx : x ∈ l) (hseen : key x ∉ seen) :
    ∃ d ∈ dedupByKey key seen l, key d = key x ∧ le d x := by
  induction l generalizing seen with
  | nil => cases hx
  | cons y l ih =>
    rw [List.pairwise_cons] at hl
    unfold dedupByKey
    split
    · next hy =>
      rcases List.mem_cons.mp hx with rfl | hx
      · exact absurd hy hseen
      · exact ih hl.2 hx hseen
    · by_cases heq : key y = key x
      · refine ⟨y, List.mem_cons_self, heq, ?_⟩
        rcases List.mem_cons.mp hx with rfl | hx
        · exact hrefl x
        · exact hl.1 x hx
      · rcases List.mem_cons.mp hx with rfl | hx
        · exact absurd rfl heq
        · have hnew : key x ∉ key y :: seen := by simp [Ne.symm heq, hseen]
          rcases ih hl.2 hx hnew with ⟨d, hd, hkey, hle⟩
          exact ⟨d, List.mem_cons_of_mem y hd, hkey, hle⟩

variable [Crypto] {pool : TxPool} {height : Nat}

theorem pairwise_byFee (l : List FullTx) :
    (l.insertionSort fun a b => b.fee < a.fee ∨ a.fee = b.fee ∧ compare a.getHash b.getHash ≠ .gt).Pairwise
      fun a b => b.fee ≤ a.fee := by
  have htrans : IsTrans FullTx fun a b => b.fee < a.fee ∨ a.fee = b.fee ∧ compare a.getHash b.getHash ≠ .gt := by
    refine ⟨fun a b c hab hbc => ?_⟩
    rcases hab with hab | ⟨hab, hab'⟩ <;> rcases hbc with hbc | ⟨hbc, hbc'⟩
    · exact .inl (hbc.trans hab)
    · exact .inl (hbc ▸ hab)
    · exact .inl (hab ▸ hbc)
    · rw [ne_eq, ← Ordering.isLE_iff_ne_gt] at hab' hbc'
      exact .inr ⟨hab.trans hbc, Ordering.isLE_iff_ne_gt.mp (Std.TransCmp.isLE_trans hab' hbc')⟩
  have htotal : Std.Total fun a b : FullTx => b.fee < a.fee ∨ a.fee = b.fee ∧ compare a.getHash b.getHash ≠ .gt := by
    refine ⟨fun a b => ?_⟩
    rcases lt_trichotomy a.fee b.fee with hlt | heq | hgt
    · exact .inr (.inl hlt)
    · rw [show compare b.getHash a.getHash = (compare a.getHash b.getHash).swap from Std.OrientedCmp.eq_swap]
      cases compare a.getHash b.getHash
      · exact .inl (.inr ⟨heq, by decide⟩)
      · exact .inl (.inr ⟨heq, by decide⟩)
      · exact .inr (.inr ⟨heq.symm, by decide⟩)
    · exact .inl (.inl hgt)
  refine (List.pairwise_insertionSort _ l).imp fun h => ?_
  rcases h with h | ⟨h, _⟩
  · exact h.le
  · exact h.ge

/-- **The pack is the best there is**: a transaction of the height whose id is missing means a full pack, all of whose
fees are at least as high. -/
theorem getPack_best {a : Address} {tx : FullTx} (htx : pool.txMap[a]? = some tx) (hheight : tx.height = height)
    (habsent : tx.getHash ∉ (pool.getPack height).map FullTx.getHash) :
    (pool.getPack height).length = maxBlockTxCount ∧ ∀ p ∈ pool.getPack height, tx.fee ≤ p.fee := by
  have hpackable : tx ∈ pool.packableTxs height :=
    List.mem_filter.mpr ⟨List.mem_map.mpr ⟨(a, tx), (Bucket.mem_toList_iff _ _ _).mpr htx, rfl⟩, by simp [hheight]⟩
  unfold getPack at habsent ⊢
  dsimp only at habsent ⊢
  have hsorted := pairwise_byFee (pool.packableTxs height)
  have hmem := (List.mem_insertionSort (fun a b : FullTx => b.fee < a.fee ∨
    a.fee = b.fee ∧ compare a.getHash b.getHash ≠ .gt)).mpr hpackable
  generalize (pool.packableTxs height).insertionSort (fun a b => b.fee < a.fee ∨
    a.fee = b.fee ∧ compare a.getHash b.getHash ≠ .gt) = byFee at hsorted hmem habsent ⊢
  rcases exists_mem_dedupByKey FullTx.getHash (fun a => le_refl a.fee) hsorted hmem List.not_mem_nil
    with ⟨d, hd, hkey, hfee⟩
  have hkept : (dedupByKey FullTx.getHash [] byFee).Pairwise fun a b => b.fee ≤ a.fee :=
    hsorted.sublist (dedupByKey_sublist _ _ _)
  generalize dedupByKey FullTx.getHash [] byFee = kept at hd hkept habsent ⊢
  -- the representative is behind the cut
  have hcut : d ∉ kept.take maxBlockTxCount := by
    intro htake
    exact habsent (List.mem_map.mpr ⟨d, (List.mem_insertionSort _).mpr htake, hkey⟩)
  rw [← List.take_append_drop maxBlockTxCount kept] at hd hkept
  rcases List.mem_append.mp hd with htake | hdrop
  · exact absurd htake hcut
  · refine ⟨?_, fun p hp => ?_⟩
    · have hlong : 0 < (kept.drop maxBlockTxCount).length := List.length_pos_of_mem hdrop
      rw [List.length_drop] at hlong
      rw [List.length_insertionSort, List.length_take]
      omega
    · exact hfee.trans ((List.pairwise_append.mp hkept).2.2 p ((List.mem_insertionSort _).mp hp) d hdrop)

theorem nodup_getPack : ((pool.getPack height).map FullTx.getHash).Nodup := by
  unfold getPack
  rw [((List.perm_insertionSort _ _).map FullTx.getHash).nodup_iff]
  exact (nodup_map_dedupByKey _ _ _).sublist ((List.take_sublist _ _).map _)

end Pack

/-- **The invariants of the pool**, for every size of at least one and after every sequence of admissions and resets, at
whatever tips: entries are under their own senders; at most `maxSize` transactions; an entry goes only to a higher fee of
its own sender, or from a full pool, as the cheapest, to a higher fee; no transaction moves a commitment and no
commitment a transaction; and a pack holds transactions of its height, no
two of one id, and leaves none out that pays more unless all ids are in it. -/
theorem pool_invariants [Engine] {pool : TxPool} (hmax : 1 ≤ pool.maxSize) (h : pool.Stocked) :
    pool.Owned ∧ pool.txMap.size ≤ pool.maxSize ∧
    (∀ nextHeight tip v tx pool', pool.putTx nextHeight tip v tx = .ok pool' →
      pool'.commitMap = pool.commitMap ∧ ∃ fromAddr, tx.fromAddr = .ok fromAddr ∧ pool'.txMap[fromAddr]? = some tx ∧
        ∀ a old, pool.txMap[a]? = some old → Fate pool tx fromAddr pool' a old) ∧
    (∀ nextHeight tip v commit pool', pool.putCommitment nextHeight tip v commit = .ok pool' →
      pool'.txMap = pool.txMap ∧ ∃ fromAddr, commit.fromAddr = .ok fromAddr ∧
        pool'.commitMap[fromAddr]? = some commit ∧ ∀ (a : Address) (old : Commitment), pool.commitMap[a]? = some old →
          pool'.commitMap[a]? = some old ∨ (a = fromAddr ∧ old.fee < commit.fee)) ∧
    ∀ height, (∀ tx ∈ pool.getPack height, tx.height = height ∧ ∃ a : Address, pool.txMap[a]? = some tx) ∧
      ((pool.getPack height).map FullTx.getHash).Nodup ∧
      ∀ (a : Address) (tx : FullTx), pool.txMap[a]? = some tx → tx.height = height →
        tx.getHash ∉ (pool.getPack height).map FullTx.getHash →
          (pool.getPack height).length = maxBlockTxCount ∧ ∀ p ∈ pool.getPack height, tx.fee ≤ p.fee := by
  refine ⟨h.owned, h.size_le hmax, ?_, ?_, fun height => ⟨fun tx htx => ?_, nodup_getPack, fun a tx => getPack_best⟩⟩
  · intro nextHeight tip v tx pool' hput
    rcases putTx_entries hput with ⟨fromAddr, hfrom, hself, _, hentries, _⟩
    obtain ⟨_, _, _, _, _, hcommits, _⟩ := putTx_eq_ok hput
    exact ⟨hcommits, fromAddr, hfrom, hself, hentries⟩
  · intro nextHeight tip v commit pool' hput
    exact ⟨(putCommitment_eq_ok hput).1, (putCommitment_entries hput).2⟩
  · rcases List.mem_filter.mp (mem_packableTxs htx) with ⟨hmem, hheight⟩
    rcases List.mem_map.mp hmem with ⟨⟨a, _⟩, hentry, rfl⟩
    exact ⟨of_decide_eq_true hheight, a, (Bucket.mem_toList_iff _ _ _).mp hentry⟩

section Bids

variable [Crypto]

/-- A payment of the sixth block, at a fee. -/
def handBid (i : UInt8) (fee : Nat) : FullTx :=
  handSign i ⟨ZERONET, transactTx, 6, handAddr 4, 5, fee, [], none, some (List.replicate 16 i)⟩

/-- A state in which each sender has funds and has committed to the bids. -/
def handBidders (bids : List (UInt8 × Nat)) : State :=
  bids.foldl (fun s b => (s.setBalance none (handAddr b.1) 100).putCommit 5 (revealHash (handBid b.1 b.2)) (handAddr b.1))
    .empty

end Bids

/-- In a pool of two places a sender replaces its own bid, and a third sender drives out the cheapest one. -/
theorem pool_invariants_handBids :
    letI := Engine.bare
    let v := (handBidders [(1, 1), (1, 3), (2, 2), (3, 4)]).view
    ∃ p₁ p₂ p₃ p₄ : TxPool, (TxPool.init 2 0).putTx 6 none v (handBid 1 1) = .ok p₁ ∧
      p₁.putTx 6 none v (handBid 1 3) = .ok p₂ ∧ p₂.putTx 6 none v (handBid 2 2) = .ok p₃ ∧
      p₃.putTx 6 none v (handBid 3 4) = .ok p₄ ∧
      (p₂.txMap[handAddr 1]? = some (handBid 1 3) ∧ p₄.txMap[handAddr 2]? = none ∧ (p₄.getPack 6).length = 2) ∧
      p₄.Owned ∧ p₄.txMap.size ≤ p₄.maxSize ∧
      Fate p₁ (handBid 1 3) (handAddr 1) p₂ (handAddr 1) (handBid 1 1) ∧
      Fate p₃ (handBid 3 4) (handAddr 3) p₄ (handAddr 2) (handBid 2 2) ∧
      ((p₄.getPack 6).map FullTx.getHash).Nodup := by
  let _ := Engine.bare
  intro v
  have heval : okAnd ((TxPool.init 2 0).putTx 6 none v (handBid 1 1)) (fun p₁ =>
      okAnd (p₁.putTx 6 none v (handBid 1 3)) fun p₂ => okAnd (p₂.putTx 6 none v (handBid 2 2)) fun p₃ =>
        okAnd (p₃.putTx 6 none v (handBid 3 4)) fun p₄ =>
          decide ((p₁.txMap[handAddr 1]? = some (handBid 1 1) ∧ p₃.txMap[handAddr 2]? = some (handBid 2 2) ∧
            1 ≤ p₁.maxSize ∧ 1 ≤ p₃.maxSize ∧ 1 ≤ p₄.maxSize ∧ (handBid 1 3).fromAddr = .ok (handAddr 1) ∧
            (handBid 3 4).fromAddr = .ok (handAddr 3)) ∧ p₂.txMap[handAddr 1]? = some (handBid 1 3) ∧
              p₄.txMap[handAddr 2]? = none ∧ (p₄.getPack 6).length = 2)) = true := by
    decide +kernel
  obtain ⟨p₁, h₁, heval⟩ := exists_of_okAnd heval
  obtain ⟨p₂, h₂, heval⟩ := exists_of_okAnd heval
  obtain ⟨p₃, h₃, heval⟩ := exists_of_okAnd heval
  obtain ⟨p₄, h₄, heval⟩ := exists_of_okAnd heval
  obtain ⟨⟨hold₁, hold₂, hmax₁, hmax₃, hmax₄, hfrom₁, hfrom₃⟩, hends⟩ := of_decide_eq_true heval
  have hs₁ : p₁.Stocked := .putTx (.init 2 0) h₁
  have hs₃ : p₃.Stocked := .putTx (.putTx hs₁ h₂) h₃
  obtain ⟨_, _, hput₁, _⟩ := pool_invariants hmax₁ hs₁
  obtain ⟨_, _, hput₃, _⟩ := pool_invariants hmax₃ hs₃
  obtain ⟨howned, hsize, _, _, hpack⟩ := pool_invariants hmax₄ (.putTx hs₃ h₄)
  obtain ⟨_, a₁, ha₁, _, hfate₁⟩ := hput₁ _ _ _ _ _ h₂
  obtain ⟨_, a₃, ha₃, _, hfate₃⟩ := hput₃ _ _ _ _ _ h₄
  obtain rfl := Except.ok.inj (hfrom₁.symm.trans ha₁)
  obtain rfl := Except.ok.inj (hfrom₃.symm.trans ha₃)
  exact ⟨p₁, p₂, p₃, p₄, h₁, h₂, h₃, h₄, hends, howned, hsize, hfate₁ _ _ hold₁, hfate₃ _ _ hold₂, (hpack 6).2.1⟩

/-! ## §4 — the queues over the tips -/

/-- What a tip movement does to the queues: both are drained for the next height. -/
def drain (next : Nat) (pool : TxPool) : TxPool := (revealTemplates next (commitTemplates next pool).2).2

/-- **`Tips a start heights pool`** — the next heights of the tip movements since `start`, in order. In between the pool
may do anything that leaves the two queued halves of the sender `a`: admissions, resets, the other senders' queues. -/
inductive Tips (a : Address) (start : TxPool) : List Nat → TxPool → Prop
  | nil : Tips a start [] start
  | other {heights : List Nat} {pool pool' : TxPool} (h : Tips a start heights pool)
      (hcommit : pool'.commitQueue[a]? = pool.commitQueue[a]?)
      (hreveal : pool'.revealQueue[a]? = pool.revealQueue[a]?) : Tips a start heights pool'
  | tip {heights : List Nat} {pool : TxPool} (h : Tips a start heights pool) (next : Nat) :
      Tips a start (heights ++ [next]) (pool.drain next)

/-- **`Relays a next commit reveal c r pool`** — calls at one tip, of which `c` and `r` say whether `RelayCommit` and
`RelayReveal` are among them. Either may come first, and before, between and after them the pool may do anything that
leaves the two queued halves of the sender `a`. -/
inductive Relays (a : Address) (next : Nat) (commit : Commitment) (reveal : FullTx) : Bool → Bool → TxPool → Prop
  | start (pool : TxPool) : Relays a next commit reveal false false pool
  | other {c r : Bool} {pool pool' : TxPool} (h : Relays a next commit reveal c r pool)
      (hcommit : pool'.commitQueue[a]? = pool.commitQueue[a]?)
      (hreveal : pool'.revealQueue[a]? = pool.revealQueue[a]?) : Relays a next commit reveal c r pool'
  | commit {c r : Bool} {pool queued : TxPool} (h : Relays a next commit reveal c r pool)
      (hput : pool.queueCommit next a commit = .ok queued) :
      Relays a next commit reveal true r (queued.commitTemplates next).2
  | reveal {c r : Bool} {pool queued : TxPool} (h : Relays a next commit reveal c r pool)
      (hput : pool.queueReveal next a reveal = .ok queued) :
      Relays a next commit reveal c true (queued.revealTemplates next).2

section Queues

variable {a : Address} {start pool : TxPool} {heights : List Nat} {next c : Nat}

theorem get_filter {β : Type} (b : Bucket Address β) (p : β → Bool) (k : Address) :
    (b.filter fun _ v => p v)[k]? = b[k]?.filter p := by
  rw [Std.ExtTreeMap.getElem?_filter]
  cases b[k]? with
  | none => rfl
  | some v =>
    cases hp : p v <;> simp [Option.pfilter, Option.filter, hp]

theorem commitQueue_drain (next : Nat) (pool : TxPool) :
    (pool.drain next).commitQueue[a]? = pool.commitQueue[a]?.filter fun q => next ≤ q.expireAt :=
  get_filter pool.commitQueue (fun q => decide (next ≤ q.expireAt)) a

theorem revealQueue_drain (next : Nat) (pool : TxPool) :
    (pool.drain next).revealQueue[a]? = pool.revealQueue[a]?.filter fun q => next ≤ q.expireAt :=
  get_filter pool.revealQueue (fun q => decide (next ≤ q.expireAt)) a

theorem filter_ite {β : Type} {P Q : Prop} [Decidable P] [Decidable Q] (x : β) (p : β → Bool) (hp : p x = true ↔ Q) :
    (if P then some x else none).filter p = if P ∧ Q then some x else none := by
  by_cases hP : P
  · rw [if_pos hP, Option.filter_some]
    exact if_congr (hp.trans (and_iff_right hP).symm) rfl rfl
  · rw [if_neg hP, if_neg fun h => hP h.1]
    rfl

/-- **A queued half is there until a tip passes its expiry.** -/
theorem Tips.queues (h : Tips a start heights pool) {qc : QueuedCommit} {qr : QueuedReveal}
    (hcommit : start.commitQueue[a]? = some qc) (hreveal : start.revealQueue[a]? = some qr) :
    (pool.commitQueue[a]? = if ∀ n ∈ heights, n ≤ qc.expireAt then some qc else none) ∧
      pool.revealQueue[a]? = if ∀ n ∈ heights, n ≤ qr.expireAt then some qr else none := by
  induction h with
  | nil => exact ⟨by rw [if_pos (by simp), hcommit], by rw [if_pos (by simp), hreveal]⟩
  | other _ hsame hsame' ih => exact ⟨hsame.trans ih.1, hsame'.trans ih.2⟩
  | @tip heights pool _ next ih =>
    have hcases : ∀ limit : Nat, (∀ n ∈ heights ++ [next], n ≤ limit) ↔ (∀ n ∈ heights, n ≤ limit) ∧ next ≤ limit := by
      intro limit
      rw [List.forall_mem_append, List.forall_mem_singleton]
    rw [commitQueue_drain, revealQueue_drain, ih.1, ih.2]
    simp only [hcases]
    exact ⟨filter_ite qc (fun q => decide (next ≤ q.expireAt)) decide_eq_true_iff,
      filter_ite qr (fun q => decide (next ≤ q.expireAt)) decide_eq_true_iff⟩

variable {commit : Commitment} {reveal : FullTx} {both : TxPool}

/-- **A half that was handed over at a tip is in its queue** as long as the tip stays. -/
theorem Relays.queues {c r : Bool} (h : Relays a next commit reveal c r pool) :
    (c = true → pool.commitQueue[a]? = some ⟨commit, relayExpiry next⟩) ∧
      (r = true → pool.revealQueue[a]? = some ⟨reveal, relayExpiry next⟩) := by
  have hfresh : next ≤ relayExpiry next := Nat.le_add_right _ _
  induction h with
  | start => exact ⟨nofun, nofun⟩
  | other _ hsame hsame' ih => exact ⟨fun hc => hsame.trans (ih.1 hc), fun hr => hsame'.trans (ih.2 hr)⟩
  | commit _ hput ih =>
    rcases bind_eq_ok.mp hput with ⟨_, _, hput⟩
    cases pure_eq_ok.mp hput
    refine ⟨fun _ => (get_filter _ (fun q : QueuedCommit => decide (next ≤ q.expireAt)) a).trans ?_, ih.2⟩
    rw [Bucket.get_insert, if_pos rfl]
    simp [Option.filter, hfresh]
  | reveal _ hput ih =>
    rcases bind_eq_ok.mp hput with ⟨_, _, hput⟩
    cases pure_eq_ok.mp hput
    refine ⟨ih.1, fun _ => (get_filter _ (fun q : QueuedReveal => decide (next ≤ q.expireAt)) a).trans ?_⟩
    rw [Bucket.get_insert, if_pos rfl]
    simp [Option.filter, hfresh]

theorem mem_revealTemplates {q : QueuedReveal} (h : (pool.revealTemplates next).2.revealQueue[a]? = some q) :
    q.tx ∈ (pool.revealTemplates next).1 :=
  List.mem_map.mpr ⟨(a, q), (Bucket.mem_toList_iff _ _ _).mpr h, rfl⟩

/-- **When the reveal outlives the commitment.** Both halves are queued at one tip, of next height `next`; after the tip
movements `heights` the commitment is still submitted, for height `c`. Then the reveal is in its queue and attempted
whenever the next height is within the window above `c`, over any tips in that window, exactly when `c` is at most one
window above `next`. -/
theorem reveal_outlives_iff (hrelay : Relays a next commit reveal true true both) (hrun : Tips a both heights pool)
    (hcan : (a, commit) ∈ (pool.commitTemplates c).1) :
    (∀ k, c < k → k ≤ c + commitWindow → ∀ later pool', Tips a (pool.drain c) later pool' →
      (∀ n ∈ later, n ≤ c + commitWindow) →
      (pool'.revealTemplates k).2.revealQueue[a]? = some ⟨reveal, relayExpiry next⟩ ∧
        reveal ∈ (pool'.revealTemplates k).1) ↔ c ≤ next + commitWindow := by
  rcases hrelay.queues with ⟨hqc, hqr⟩
  rcases hrun.queues (hqc rfl) (hqr rfl) with ⟨hpc, hpr⟩
  -- the commitment is submitted, so no tip has passed the common expiry
  rcases List.mem_map.mp hcan with ⟨⟨a', q⟩, hentry, heq⟩
  obtain ⟨rfl, _⟩ := Prod.mk.inj heq
  have hkept := (Bucket.mem_toList_iff _ _ _).mp hentry
  have hsubmits : pool.commitQueue[a']?.filter (fun q => decide (c ≤ q.expireAt)) = some q :=
    (get_filter _ (fun q : QueuedCommit => decide (c ≤ q.expireAt)) a').symm.trans hkept
  rw [hpc] at hsubmits
  have hbefore : (∀ n ∈ heights, n ≤ relayExpiry next) ∧ c ≤ relayExpiry next := by
    by_cases hall : ∀ n ∈ heights, n ≤ relayExpiry next
    · refine ⟨hall, ?_⟩
      rw [if_pos hall] at hsubmits
      have := Option.filter_eq_some_iff.mp hsubmits
      obtain rfl := Option.some.inj this.1
      exact of_decide_eq_true this.2
    · rw [if_neg hall] at hsubmits
      cases hsubmits
  rw [if_pos hbefore.1] at hpr hpc
  have hround : ∀ (p : TxPool) (k : Nat), p.revealQueue[a']? = some ⟨reveal, relayExpiry next⟩ →
      ((p.revealTemplates k).2.revealQueue[a']? = some ⟨reveal, relayExpiry next⟩ ↔ k ≤ relayExpiry next) := by
    intro p k hp
    rw [show (p.revealTemplates k).2.revealQueue[a']? = _ from
      get_filter p.revealQueue (fun q => decide (k ≤ q.expireAt)) a', hp]
    simp [Option.filter]
  have hdrained : (pool.drain c).revealQueue[a']? = some ⟨reveal, relayExpiry next⟩ := by
    rw [revealQueue_drain, hpr]
    simp [Option.filter, hbefore.2]
  have hdrained' : (pool.drain c).commitQueue[a']? = some ⟨commit, relayExpiry next⟩ := by
    rw [commitQueue_drain, hpc]
    simp [Option.filter, hbefore.2]
  have hexpiry : relayExpiry next = next + 2 * commitWindow := rfl
  constructor
  · intro hwindow
    have hlast := (hwindow (c + commitWindow) (by simp [commitWindow]) le_rfl [] _ .nil nofun).1
    have := (hround _ _ hdrained).mp hlast
    omega
  · intro hc k hck hk later pool' hlater hwithin
    have hthere := (hlater.queues hdrained' hdrained).2
    rw [if_pos fun n hn => (hwithin n hn).trans (show c + commitWindow ≤ relayExpiry next by omega)] at hthere
    have hstays := (hround pool' k hthere).mpr (by omega)
    exact ⟨hstays, mem_revealTemplates hstays⟩

end Queues

section ByHand

/-- The sender of a payment of the first key, its commitment, and the payment. -/
def handHalves : Address × Commitment × FullTx :=
  letI := Crypto.ofHash handHash
  let tx := handPay 1 1 zero32 5
  (handAddr 1, handCommit 1 1 (10 ^ 13) tx, tx)

/-- A pool with the commitment queued for the next height 1, and with both halves. -/
def handCommitted : TxPool :=
  ((TxPool.init 1 0).queueCommit 1 handHalves.1 handHalves.2.1).toOption.getD (TxPool.init 1 0)

def handRevealed : TxPool :=
  ((handCommitted.commitTemplates 1).2.queueReveal 1 handHalves.1 handHalves.2.2).toOption.getD (TxPool.init 1 0)

/-- The commitment is submitted for height 2, one above the first, and the reveal is attempted at 3, 4 and 5. -/
theorem reveal_outlives_iff_handPay :
    (TxPool.init 1 0).queueCommit 1 handHalves.1 handHalves.2.1 = .ok handCommitted ∧
      (handCommitted.commitTemplates 1).2.queueReveal 1 handHalves.1 handHalves.2.2 = .ok handRevealed ∧
      ∀ k, 2 < k → k ≤ 5 → handHalves.2.2 ∈ (((handRevealed.revealTemplates 1).2.drain 2).revealTemplates k).1 := by
  have hcommit : (TxPool.init 1 0).queueCommit 1 handHalves.1 handHalves.2.1 = .ok handCommitted := rfl
  have hreveal : (handCommitted.commitTemplates 1).2.queueReveal 1 handHalves.1 handHalves.2.2 = .ok handRevealed := rfl
  refine ⟨hcommit, hreveal, fun k hk hk' => ?_⟩
  have hwindow := (reveal_outlives_iff (c := 2) (.reveal (.commit (.start _) hcommit) hreveal) .nil
    (by decide +kernel)).mpr (by decide)
  exact (hwindow k hk hk' [] _ .nil nofun).2

/-- **The reveal is dropped while its commitment is still submitted**: both halves are queued for height 1, the blocks 1
to 6 leave the commitment out, it is submitted for height 7, and at the next height the reveal is gone untried. -/
theorem reveal_dropped_handPay : ∃ pool : TxPool,
    (TxPool.init 1 0).queueCommit 1 handHalves.1 handHalves.2.1 = .ok handCommitted ∧
      (handCommitted.commitTemplates 1).2.queueReveal 1 handHalves.1 handHalves.2.2 = .ok handRevealed ∧
      Tips handHalves.1 (handRevealed.revealTemplates 1).2 [2, 3, 4, 5, 6] pool ∧
      (handHalves.1, handHalves.2.1) ∈ (pool.commitTemplates 7).1 ∧
      handHalves.2.2 ∉ ((pool.drain 7).revealTemplates 8).1 := by
  refine ⟨_, rfl, rfl, .tip (.tip (.tip (.tip (.tip .nil 2) 3) 4) 5) 6, ?_, ?_⟩ <;> decide +kernel

end ByHand

end TxPool
end NgCore
