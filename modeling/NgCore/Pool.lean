/-
# NgCore.Pool — the transaction pool and its relay queues

`ngpool/pool.go`, `ngpool/pool_put.go`, `ngpool/pool_get.go` and the parts of `ngpool/relay.go` that run under
the pool lock. The pool holds what the NEXT block may carry, one commitment and one transaction per sender, and is
emptied when the tip moves. The two queues survive: they hold the halves that the node submits again, under a new
height, at every tip.

The tip and the state are arguments: which ones a call sees is a matter of when it runs (`NgCore.Chain.Relay`). The
new-entry hooks and the gossip of an admitted entry are not modelled; nothing here reads them back.
-/
import NgCore.State.Check

namespace NgCore

open Lib (Bucket)
open Lib.Rlp (beVal)

/-! ## §1 — the pool -/

/-- **`QueuedReveal`** — a signed reveal the node relays, and the last height it is tried for. -/
structure QueuedReveal where
  tx : FullTx
  expireAt : Nat
  deriving DecidableEq

/-- **`QueuedCommit`** — a signed commitment the node relays, likewise. -/
structure QueuedCommit where
  commit : Commitment
  expireAt : Nat
  deriving DecidableEq

/-- **`relayExpiry`** — two commit windows. -/
def relayExpiry (next : Nat) : Nat := next + 2 * commitWindow

/-- **`TxPool`** — all four maps are keyed by sender. `minFeePerByte = 0` is no floor. -/
structure TxPool where
  txMap : Bucket Address FullTx
  commitMap : Bucket Address Commitment
  commitQueue : Bucket Address QueuedCommit
  revealQueue : Bucket Address QueuedReveal
  maxSize : Nat
  minFeePerByte : Nat

def defaultPoolSize : Nat := 4096

def defaultMinFeePerByte : Nat := 10 ^ 10

namespace TxPool

/-- **`init`** — an empty pool; size and floor are public fields that a caller may set. -/
def init (maxSize minFeePerByte : Nat) : TxPool := ⟨∅, ∅, ∅, ∅, maxSize, minFeePerByte⟩

/-- **`reset`** — the queues stay. -/
def reset (pool : TxPool) : TxPool := { pool with txMap := ∅, commitMap := ∅ }

/-! ## §2 — admission -/

/-- **`effectiveFloorPerByte`** — the relay policy, or the base fee of the next block where that is higher. -/
def effectiveFloorPerByte (tip : Option FullBlock) (pool : TxPool) : Nat :=
  match tip with
  | none => pool.minFeePerByte
  | some tip =>
    if isForkActive tip.header.network .forkFeeMarket (tip.getHeight + 1) = true then
      max pool.minFeePerByte (nextBaseFee tip.header.network tip.getHeight (beVal tip.header.baseFee)
        (blockUsedBytes tip))
    else pool.minFeePerByte

/-- The fee floor of an entry of this wire size. -/
def checkFloor (tip : Option FullBlock) (size fee : Nat) (pool : TxPool) : Except Err Unit :=
  ensure (pool.effectiveFloorPerByte tip * size ≤ fee) .txFeeBelowFloor

/-- **`cheapestEntry`** — the lowest fee; of equals the higher address. -/
def cheapestEntry (txMap : Bucket Address FullTx) : Option (Address × Nat) :=
  txMap.toList.foldl (fun best e =>
    match best with
    | none => some (e.1, e.2.fee)
    | some (addr, fee) =>
      if e.2.fee < fee ∨ e.2.fee = fee ∧ compare e.1 addr = .gt then some (e.1, e.2.fee) else best) none

/-- Room for one more sender: a full pool gives up its cheapest entry to a higher fee. -/
def makeRoom (fee : Nat) (pool : TxPool) : Except Err (Bucket Address FullTx) :=
  if pool.maxSize ≤ pool.txMap.size then
    match cheapestEntry pool.txMap with
    | none => .error .panic
    | some (evictAddr, evictFee) => do
      ensure (evictFee < fee) .poolFull
      return pool.txMap.erase evictAddr
  else .ok pool.txMap

/-- **`putCommitment`** — one pending commitment per sender, replaced by a higher fee. -/
def putCommitment [Crypto] (nextHeight : Nat) (tip : Option FullBlock) (v : View) (commit : Commitment)
    (pool : TxPool) : Except Err TxPool := do
  checkCommitment v commit nextHeight
  pool.checkFloor tip commit.raw.length commit.fee
  let fromAddr ← commit.fromAddr
  match pool.commitMap[fromAddr]? with
  | none => pure ()
  | some existing => ensure (existing.fee < commit.fee) .txFeeTooLow
  return { pool with commitMap := pool.commitMap.insert fromAddr commit }

/-- **`putTx`** — a transaction of the next height, whose commitment is on chain. -/
def putTx [Engine] (nextHeight : Nat) (tip : Option FullBlock) (v : View) (tx : FullTx) (pool : TxPool) :
    Except Err TxPool := do
  ensure (tx.height = nextHeight) .txInvalidHeight
  pool.checkFloor tip tx.raw.length tx.fee
  checkTx v tx
  let fromAddr ← tx.fromAddr
  match pool.txMap[fromAddr]? with
  | some existing => do
    ensure (existing.fee < tx.fee) .txFeeTooLow
    return { pool with txMap := pool.txMap.insert fromAddr tx }
  | none => do
    let txMap ← pool.makeRoom tx.fee
    return { pool with txMap := txMap.insert fromAddr tx }

/-! ## §3 — packing -/

/-- **`dedupByKey`** — the first element of each key. -/
def dedupByKey {α β : Type} [DecidableEq β] (key : α → β) : (seen : List β) → List α → List α
  | _, [] => []
  | seen, x :: l => if key x ∈ seen then dedupByKey key seen l else x :: dedupByKey key (key x :: seen) l

theorem dedupByKey_sublist {α β : Type} [DecidableEq β] (key : α → β) (seen : List β) (l : List α) :
    (dedupByKey key seen l).Sublist l := by
  induction l generalizing seen with
  | nil => exact List.Sublist.slnil
  | cons x l ih =>
    unfold dedupByKey
    split
    · exact (ih seen).cons x
    · exact (ih _).cons_cons x

/-- The transactions that a block at this height may carry. -/
def packableTxs (height : Nat) (pool : TxPool) : List FullTx :=
  (pool.txMap.toList.map Prod.snd).filter fun tx => tx.height = height

/-- The commitments, likewise. -/
def packableCommits (height : Nat) (pool : TxPool) : List Commitment :=
  (pool.commitMap.toList.map Prod.snd).filter fun c => c.height = height

section Packing

variable [Crypto]

/-- **`getPack`** — the best paying transactions, no two of one id, in the order of a block. -/
def getPack (height : Nat) (pool : TxPool) : List FullTx :=
  let byFee := (pool.packableTxs height).insertionSort fun a b =>
    b.fee < a.fee ∨ a.fee = b.fee ∧ compare a.getHash b.getHash ≠ .gt
  ((dedupByKey FullTx.getHash [] byFee).take maxBlockTxCount).insertionSort fun a b =>
    compare a.getHash b.getHash ≠ .gt

/-- **`getCommitPack`** — the best paying commitments, no two of one hash. -/
def getCommitPack (height : Nat) (pool : TxPool) : List Commitment :=
  let byFee := (pool.packableCommits height).insertionSort fun a b =>
    b.fee < a.fee ∨ a.fee = b.fee ∧ compare a.hash b.hash ≠ .gt
  (dedupByKey Commitment.hash [] byFee).take maxBlockTxCount

theorem mem_packableTxs {height : Nat} {pool : TxPool} {tx : FullTx} (h : tx ∈ pool.getPack height) :
    tx ∈ pool.packableTxs height := by
  have hpack := List.mem_of_mem_take ((List.mem_insertionSort _).mp h)
  exact (List.mem_insertionSort _).mp ((dedupByKey_sublist _ _ _).subset hpack)

end Packing

/-! ## §4 — the queues -/

/-- The admission gate of `RelayCommit`: a probe of the next height passes the pool's own check. -/
def relayCommitGate [Crypto] (next : Nat) (v : View) (commit : Commitment) : Except Err Address := do
  ensure (commit.sign ≠ []) .commitUnsigned
  let fromAddr ← commit.fromAddr
  checkCommitment v { commit with height := next } next
  return fromAddr

/-- The critical section of `RelayCommit`. -/
def queueCommit (next : Nat) (fromAddr : Address) (commit : Commitment) (pool : TxPool) : Except Err TxPool := do
  ensure (pool.commitQueue[fromAddr]?.isSome ∨ pool.commitQueue.size < pool.maxSize) .poolFull
  return { pool with commitQueue := pool.commitQueue.insert fromAddr ⟨commit, relayExpiry next⟩ }

/-- The critical section of `relayCommits`: expired entries are dropped, the others copied. -/
def commitTemplates (next : Nat) (pool : TxPool) : List (Address × Commitment) × TxPool :=
  let commitQueue := pool.commitQueue.filter fun _ q => next ≤ q.expireAt
  (commitQueue.toList.map fun e => (e.1, e.2.commit), { pool with commitQueue })

/-- The admission gate of `RelayReveal`: everything but the commitment is checked. Height zero would exempt the probe
from the signature check. -/
def relayRevealGate [Engine] (v : View) (reveal : FullTx) : Except Err Address := do
  ensure (reveal.isSigned = true) .txUnsigned
  ensure reveal.isEffect .notEffectTx
  ensure (minSaltSize ≤ reveal.salt.length) .saltTooShort
  checkRevealExceptCommitment v { reveal with height := if reveal.height = 0 then 1 else reveal.height }
  reveal.fromAddr

/-- The critical section of `RelayReveal`. -/
def queueReveal (next : Nat) (fromAddr : Address) (reveal : FullTx) (pool : TxPool) : Except Err TxPool := do
  ensure (pool.revealQueue[fromAddr]?.isSome ∨ pool.revealQueue.size < pool.maxSize) .poolFull
  return { pool with revealQueue := pool.revealQueue.insert fromAddr ⟨reveal, relayExpiry next⟩ }

/-- The critical section of `relayReveals`. -/
def revealTemplates (next : Nat) (pool : TxPool) : List FullTx × TxPool :=
  let revealQueue := pool.revealQueue.filter fun _ q => next ≤ q.expireAt
  (revealQueue.toList.map fun e => e.2.tx, { pool with revealQueue })

/-! ## §5 — what the pool holds -/

section Stocked

variable [Engine]

/-- **`Stocked pool`** — the pool was filled through `PutTx` and `PutCommitment`, at whatever tips; the queues are
free. -/
inductive Stocked : TxPool → Prop
  | init (maxSize minFeePerByte : Nat) : Stocked (.init maxSize minFeePerByte)
  | reset {pool : TxPool} : Stocked pool → Stocked pool.reset
  | requeue {pool : TxPool} (commits : Bucket Address QueuedCommit) (reveals : Bucket Address QueuedReveal) :
      Stocked pool → Stocked { pool with commitQueue := commits, revealQueue := reveals }
  | putCommitment {pool pool' : TxPool} {nextHeight : Nat} {tip : Option FullBlock} {v : View} {commit : Commitment} :
      Stocked pool → pool.putCommitment nextHeight tip v commit = .ok pool' → Stocked pool'
  | putTx {pool pool' : TxPool} {nextHeight : Nat} {tip : Option FullBlock} {v : View} {tx : FullTx} :
      Stocked pool → pool.putTx nextHeight tip v tx = .ok pool' → Stocked pool'

/-- What `putTx` does: it checks the transaction and enters it, and of the others it drops at most one. -/
theorem putTx_eq_ok {pool pool' : TxPool} {nextHeight : Nat} {tip : Option FullBlock} {v : View} {tx : FullTx}
    (h : pool.putTx nextHeight tip v tx = .ok pool') :
    ∃ fromAddr, tx.height = nextHeight ∧ pool.checkFloor tip tx.raw.length tx.fee = .ok () ∧ checkTx v tx = .ok () ∧
      tx.fromAddr = .ok fromAddr ∧ pool'.commitMap = pool.commitMap ∧
      ∀ (a : Address) (tx' : FullTx), pool'.txMap[a]? = some tx' →
        a = fromAddr ∧ tx' = tx ∨ a ≠ fromAddr ∧ pool.txMap[a]? = some tx' := by
  obtain ⟨_, hheight, h⟩ := bind_eq_ok.mp h
  obtain ⟨_, hfloor, h⟩ := bind_eq_ok.mp h
  obtain ⟨_, hcheck, h⟩ := bind_eq_ok.mp h
  obtain ⟨fromAddr, hfrom, h⟩ := bind_eq_ok.mp h
  refine ⟨fromAddr, ensure_eq_ok.mp hheight, hfloor, hcheck, hfrom, ?_⟩
  split at h
  · obtain ⟨_, _, h⟩ := bind_eq_ok.mp h
    cases pure_eq_ok.mp h
    refine ⟨rfl, fun a tx' hget => ?_⟩
    rw [Bucket.get_insert] at hget
    split at hget
    · next heq => exact .inl ⟨heq.symm, (Option.some.inj hget).symm⟩
    · next hne => exact .inr ⟨Ne.symm hne, hget⟩
  · obtain ⟨txMap, hroom, h⟩ := bind_eq_ok.mp h
    cases pure_eq_ok.mp h
    refine ⟨rfl, fun a tx' hget => ?_⟩
    rw [Bucket.get_insert] at hget
    split at hget
    · next heq => exact .inl ⟨heq.symm, (Option.some.inj hget).symm⟩
    · next hne =>
      refine .inr ⟨Ne.symm hne, ?_⟩
      -- room is made by dropping the cheapest entry
      unfold makeRoom at hroom
      split at hroom
      · split at hroom
        · cases hroom
        · obtain ⟨_, _, hroom⟩ := bind_eq_ok.mp hroom
          cases pure_eq_ok.mp hroom
          rw [Bucket.get_erase] at hget
          split at hget
          · cases hget
          · exact hget
      · cases hroom
        exact hget

theorem putCommitment_eq_ok {pool pool' : TxPool} {nextHeight : Nat} {tip : Option FullBlock} {v : View}
    {commit : Commitment} (h : pool.putCommitment nextHeight tip v commit = .ok pool') :
    pool'.txMap = pool.txMap ∧ checkCommitment v commit nextHeight = .ok () ∧
      ∃ fromAddr, commit.fromAddr = .ok fromAddr ∧ pool'.commitMap = pool.commitMap.insert fromAddr commit := by
  obtain ⟨_, hcheck, h⟩ := bind_eq_ok.mp h
  obtain ⟨_, _, h⟩ := bind_eq_ok.mp h
  obtain ⟨fromAddr, hfrom, h⟩ := bind_eq_ok.mp h
  dsimp only at h
  split at h
  · cases pure_eq_ok.mp h
    exact ⟨rfl, hcheck, fromAddr, hfrom, rfl⟩
  · obtain ⟨_, _, h⟩ := bind_eq_ok.mp h
    cases pure_eq_ok.mp h
    exact ⟨rfl, hcheck, fromAddr, hfrom, rfl⟩

theorem ne_generateTx_of_checkTx {v : View} {tx : FullTx} {u : Unit} (h : checkTx v tx = .ok u) :
    tx.type ≠ generateTx := by
  obtain ⟨_, _, h⟩ := bind_eq_ok.mp h
  obtain ⟨_, _, h⟩ := bind_eq_ok.mp h
  split at h
  · next htype => rw [htype]; decide
  · split at h
    · next htype => rw [htype]; decide
    · cases h

/-- **No mint is ever in the pool.** -/
theorem Stocked.ne_generateTx {pool : TxPool} (h : pool.Stocked) :
    ∀ (a : Address) (tx : FullTx), pool.txMap[a]? = some tx → tx.type ≠ generateTx := by
  induction h with
  | init => exact fun _ _ hget => absurd hget (by simp [TxPool.init])
  | reset => exact fun _ _ hget => absurd hget (by simp [TxPool.reset])
  | requeue _ _ _ ih => exact ih
  | putCommitment _ hput ih =>
    rw [(putCommitment_eq_ok hput).1]
    exact ih
  | putTx _ hput ih =>
    obtain ⟨_, _, _, hcheck, _, _, hentries⟩ := putTx_eq_ok hput
    intro a tx hget
    rcases hentries a tx hget with ⟨_, rfl⟩ | ⟨_, hold⟩
    · exact ne_generateTx_of_checkTx hcheck
    · exact ih a tx hold

end Stocked

theorem mem_map_dedupByKey {α β : Type} [DecidableEq β] (key : α → β) (seen : List β) (l : List α) (k : β) :
    k ∈ (dedupByKey key seen l).map key ↔ k ∈ l.map key ∧ k ∉ seen := by
  induction l generalizing seen with
  | nil => simp [dedupByKey]
  | cons x l ih =>
    unfold dedupByKey
    split
    · next hseen =>
      rw [ih, List.map_cons, List.mem_cons]
      constructor
      · exact fun h => ⟨.inr h.1, h.2⟩
      · rintro ⟨rfl | h, hk⟩
        · exact absurd hseen hk
        · exact ⟨h, hk⟩
    · next hseen =>
      rw [List.map_cons, List.mem_cons, ih, List.map_cons, List.mem_cons, List.mem_cons]
      by_cases hkx : k = key x
      · subst hkx
        simp [hseen]
      · simp [hkx]

theorem nodup_map_dedupByKey {α β : Type} [DecidableEq β] (key : α → β) (seen : List β) (l : List α) :
    ((dedupByKey key seen l).map key).Nodup := by
  induction l generalizing seen with
  | nil => exact List.nodup_nil
  | cons x l ih =>
    unfold dedupByKey
    split
    · exact ih seen
    · rw [List.map_cons, List.nodup_cons]
      refine ⟨fun hmem => ?_, ih _⟩
      exact ((mem_map_dedupByKey key _ l _).mp hmem).2 List.mem_cons_self

theorem length_dedupByKey {α β : Type} [DecidableEq β] (key : α → β) (l : List α) :
    (dedupByKey key [] l).length = (l.map key).dedup.length := by
  rw [← List.length_map key]
  refine List.Perm.length_eq ((List.perm_ext_iff_of_nodup (nodup_map_dedupByKey key [] l) (List.nodup_dedup _)).mpr ?_)
  intro k
  rw [mem_map_dedupByKey, List.mem_dedup]
  exact and_iff_left List.not_mem_nil

/-- **Sorted, one of each key, and cut**: part of a list, and all of it where no key repeats and the cut is not
reached. -/
theorem take_dedupByKey {α β : Type} [DecidableEq β] (key : α → β) (le : α → α → Prop) [DecidableRel le] (k : Nat)
    (l : List α) : ((dedupByKey key [] (l.insertionSort le)).take k).Subperm l ∧
      ((l.map key).Nodup → l.length ≤ k → ((dedupByKey key [] (l.insertionSort le)).take k).Perm l) := by
  have hsort := List.perm_insertionSort le l
  have hsub := dedupByKey_sublist key [] (l.insertionSort le)
  refine ⟨((List.take_sublist _ _).trans hsub).subperm.trans hsort.subperm, fun hnodup hle => ?_⟩
  have hall : dedupByKey key [] (l.insertionSort le) = l.insertionSort le := by
    refine hsub.eq_of_length ?_
    rw [length_dedupByKey, ((hsort.map key).nodup_iff.mpr hnodup).dedup, List.length_map]
  rw [hall, List.take_of_length_le (by rw [hsort.length_eq]; exact hle)]
  exact hsort

section Packs

variable [Crypto] {pool : TxPool} {height : Nat}

/-- **A pack is part of what the pool holds** for the height, and all of it where ids are distinct and few enough. -/
theorem getPack_perm (height : Nat) (pool : TxPool) : (pool.getPack height).Subperm (pool.packableTxs height) ∧
    (((pool.packableTxs height).map FullTx.getHash).Nodup → (pool.packableTxs height).length ≤ maxBlockTxCount →
      (pool.getPack height).Perm (pool.packableTxs height)) := by
  unfold getPack
  obtain ⟨hpart, hall⟩ := take_dedupByKey FullTx.getHash (fun a b : FullTx =>
    b.fee < a.fee ∨ a.fee = b.fee ∧ compare a.getHash b.getHash ≠ .gt) maxBlockTxCount (pool.packableTxs height)
  exact ⟨(List.perm_insertionSort _ _).subperm.trans hpart, fun hnodup hle =>
    (List.perm_insertionSort _ _).trans (hall hnodup hle)⟩

omit [Crypto] in
theorem getCommitPack_perm (height : Nat) (pool : TxPool) :
    (pool.getCommitPack height).Subperm (pool.packableCommits height) ∧
    (((pool.packableCommits height).map Commitment.hash).Nodup →
      (pool.packableCommits height).length ≤ maxBlockCommitCount →
        (pool.getCommitPack height).Perm (pool.packableCommits height)) :=
  take_dedupByKey Commitment.hash _ _ _

/-- **The length of a pack**: the ids at the height, up to the cap. -/
theorem length_getPack :
    (pool.getPack height).length = min maxBlockTxCount ((pool.packableTxs height).map FullTx.getHash).dedup.length := by
  unfold getPack
  rw [(List.perm_insertionSort _ _).length_eq, List.length_take, length_dedupByKey,
    ((List.perm_insertionSort _ (pool.packableTxs height)).map FullTx.getHash).dedup.length_eq]

theorem mem_getPack_insert (a : Address) (tx : FullTx) (hempty : pool.txMap = ∅) :
    tx ∈ TxPool.getPack tx.height { pool with txMap := pool.txMap.insert a tx } := by
  have honly : ∀ tx' ∈ TxPool.packableTxs tx.height { pool with txMap := pool.txMap.insert a tx }, tx' = tx := by
    intro tx' htx'
    obtain ⟨⟨b, _⟩, hmem, rfl⟩ := List.mem_map.mp (List.mem_filter.mp htx').1
    have hget := (Bucket.mem_toList_iff _ _ _).mp hmem
    rw [hempty, Bucket.get_insert] at hget
    split at hget
    · exact (Option.some.inj hget).symm
    · cases hget
  have hmem : tx ∈ TxPool.packableTxs tx.height { pool with txMap := pool.txMap.insert a tx } := by
    refine List.mem_filter.mpr ⟨List.mem_map.mpr ⟨(a, tx), (Bucket.mem_toList_iff _ _ _).mpr ?_, rfl⟩, by simp⟩
    rw [Bucket.get_insert, if_pos rfl]
  -- the pack is not empty, and can hold nothing else
  have hlen : 0 < (TxPool.getPack tx.height { pool with txMap := pool.txMap.insert a tx }).length := by
    rw [length_getPack, lt_min_iff]
    exact ⟨by decide, List.length_pos_of_mem (List.mem_dedup.mpr (List.mem_map_of_mem hmem))⟩
  obtain ⟨tx', htx'⟩ := List.exists_mem_of_length_pos hlen
  have heq := honly tx' (mem_packableTxs htx')
  rwa [heq] at htx'

omit [Crypto] in
theorem length_getCommitPack_le : (pool.getCommitPack height).length ≤ maxBlockCommitCount :=
  List.length_take_le _ _

end Packs

end TxPool
end NgCore
