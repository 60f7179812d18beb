/-
# NgCore.State.Snapshot — state sheets and where they are kept

`ngtypes/sheet.go` and `ngstate/state_snapshot.go`: a sheet is the plain state of one block, tagged with the block.
The node keeps sheets twice, in a cache (height to hash, hash to sheet) and in a bucket by height, both bounded by a
retention window. A lookup asks the cache, then the bucket at the exact height, then the bucket for the nearest OLDER
sheet, and remembers in the cache what the bucket gave.

A sheet has rows for balances, contracts, keys and the beacon, and NONE for pending commitments.
-/
import NgCore.State.Rebuild

namespace NgCore

open Lib (Bucket)

/-! ## §1 — sheets -/

/-- **`Sheet`** — the rows of a state and the block they belong to. -/
structure Sheet where
  network : Network
  height : Nat
  blockHash : Bytes
  rows : State.Sheet

/-- **`getGenesisSheet`** — tagged with the genesis block; no rows. -/
def getGenesisSheet [Crypto] (network : Network) : Except Err Sheet := do
  let genesis ← getGenesisBlock network
  return ⟨network, 0, genesis.getHash.val, State.getGenesisSheet⟩

namespace State

/-- The rows of a state: every balance row, every contract with its code, the key registry, the beacon. -/
def rows (s : State) : State.Sheet where
  balances := s.bal.cur.toList
  contracts := s.contract.cur.toList.map fun e => s.decodeStoredContract e.2
  keys := s.key.cur.toList
  beacon := (s.beacon.cur[()]?).getD []

/-- **`dumpSheetAt`** — `DumpSheetAt`. -/
def dumpSheetAt (network : Network) (height : Nat) (blockHash : Bytes) (s : State) : NgCore.Sheet :=
  ⟨network, height, blockHash, s.rows⟩

end State

/-! ## §2 — the cache -/

def snapshotRetention : Nat := 16

/-- **`SnapshotManager`** — the cache. -/
structure SnapshotManager where
  heightToHash : Bucket Nat Bytes
  hashToSnapshot : Bucket Bytes Sheet

namespace SnapshotManager

def empty : SnapshotManager := ⟨∅, ∅⟩

/-- The window of `PutSnapshot`: entries below it go, with the sheets they name. -/
def prune (height : Nat) (sm : SnapshotManager) : SnapshotManager :=
  if snapshotRetention * blockCheckRound < height then
    let floor := height - snapshotRetention * blockCheckRound
    let old := sm.heightToHash.toList.filter fun e => e.1 < floor
    ⟨old.foldl (fun m e => m.erase e.1) sm.heightToHash, old.foldl (fun m e => m.erase e.2) sm.hashToSnapshot⟩
  else sm

def putSnapshot (height : Nat) (hash : Bytes) (sheet : Sheet) (sm : SnapshotManager) : SnapshotManager :=
  let sm := sm.prune height
  ⟨sm.heightToHash.insert height hash, sm.hashToSnapshot.insert hash sheet⟩

/-- **`getSnapshotByHeight`** — no check of the hash. -/
def getSnapshotByHeight (height : Nat) (sm : SnapshotManager) : Option Sheet :=
  (sm.heightToHash[height]?).bind fun hash => sm.hashToSnapshot[hash]?

end SnapshotManager

/-! ## §3 — cache and bucket -/

/-- **`Snapshots`** — the sheets a node keeps. -/
structure Snapshots where
  cache : SnapshotManager
  /-- The snapshot bucket, by height. -/
  bucket : Bucket Nat Sheet

namespace Snapshots

def empty : Snapshots := ⟨.empty, ∅⟩

/-- **`putSnapshotTxn`** — into the cache and the bucket; the bucket is pruned below the window. -/
def putSnapshotTxn (sheet : Sheet) (p : Snapshots) : Snapshots :=
  let bucket := p.bucket.insert sheet.height sheet
  { cache := p.cache.putSnapshot sheet.height sheet.blockHash sheet
    bucket :=
      if snapshotRetention * blockCheckRound < sheet.height then
        let floor := sheet.height - snapshotRetention * blockCheckRound
        (bucket.toList.takeWhile fun e => e.1 < floor).foldl (fun m e => m.erase e.1) bucket
      else bucket }

/-- What the bucket has for a height: its own sheet, else the nearest older one. -/
def persisted (height : Nat) (p : Snapshots) : Option Sheet :=
  (p.bucket[height]?).or ((p.bucket.toList.takeWhile fun e => e.1 ≤ height).getLast?.map Prod.snd)

/-- **`getSnapshotByHeight`** — `State.GetSnapshotByHeight`, with the sheets kept afterwards. -/
def getSnapshotByHeight [Crypto] (network : Network) (height : Nat) (p : Snapshots) :
    Except Err (Sheet × Snapshots) :=
  if height = 0 then do
    let genesis ← getGenesisSheet network
    return (genesis, p)
  else
    match p.cache.getSnapshotByHeight height with
    | some sheet => .ok (sheet, p)
    | none =>
      match p.persisted height with
      | some sheet => .ok (sheet, { p with cache := p.cache.putSnapshot sheet.height sheet.blockHash sheet })
      | none => do
        let genesis ← getGenesisSheet network
        return (genesis, p)

end Snapshots

/-! ## §4 — what is kept -/

namespace SnapshotManager

variable {sm : SnapshotManager}

theorem get_prune {height h : Nat} {hash : Bytes} (hh : (sm.prune height).heightToHash[h]? = some hash) :
    sm.heightToHash[h]? = some hash := by
  unfold prune at hh
  split at hh
  · dsimp only at hh
    rw [← List.foldl_map (f := Prod.fst) (g := fun (m : Bucket Nat Bytes) k => m.erase k),
      Bucket.get_foldl_erase] at hh
    split at hh
    · cases hh
    · exact hh
  · exact hh

theorem snapshot_prune {height : Nat} {hash : Bytes} {sheet : Sheet}
    (hh : (sm.prune height).hashToSnapshot[hash]? = some sheet) : sm.hashToSnapshot[hash]? = some sheet := by
  unfold prune at hh
  split at hh
  · dsimp only at hh
    rw [← List.foldl_map (f := Prod.snd) (g := fun (m : Bucket Bytes Sheet) k => m.erase k),
      Bucket.get_foldl_erase] at hh
    split at hh
    · cases hh
    · exact hh
  · exact hh

/-- **`Holds h hash sheet`** — the cache has the sheet for the height, under the hash. -/
def Holds (sm : SnapshotManager) (h : Nat) (hash : Bytes) (sheet : Sheet) : Prop :=
  sm.heightToHash[h]? = some hash ∧ sm.hashToSnapshot[hash]? = some sheet

theorem holds_of_get {h : Nat} {sheet : Sheet} (hget : sm.getSnapshotByHeight h = some sheet) :
    ∃ hash, sm.Holds h hash sheet := by
  unfold getSnapshotByHeight at hget
  rcases Option.bind_eq_some_iff.mp hget with ⟨hash, hhash, hsheet⟩
  exact ⟨hash, hhash, hsheet⟩

/-- After a put the cache holds the new sheet at its height, and old ones elsewhere; a height that names the new hash
holds the new sheet. -/
theorem holds_put {height h : Nat} {hash hash' : Bytes} {sheet sheet' : Sheet}
    (hold : (sm.putSnapshot height hash sheet).Holds h hash' sheet') :
    h = height ∧ hash' = hash ∧ sheet' = sheet ∨
      h ≠ height ∧ sm.heightToHash[h]? = some hash' ∧ (hash' = hash ∨ sm.Holds h hash' sheet') := by
  rcases hold with ⟨hh, hs⟩
  simp only [putSnapshot, Bucket.get_insert] at hh hs
  split at hh
  · next heq =>
    cases hh
    rw [if_pos rfl] at hs
    cases hs
    exact .inl ⟨heq.symm, rfl, rfl⟩
  · next hne =>
    refine .inr ⟨fun heq => hne heq.symm, get_prune hh, ?_⟩
    split at hs
    · next heq => exact .inl heq.symm
    · exact .inr ⟨get_prune hh, snapshot_prune hs⟩

end SnapshotManager

namespace Snapshots

variable {p : Snapshots}

/-- After a put the bucket has the new sheet at its height, and old ones elsewhere. -/
theorem bucket_put {sheet sheet' : Sheet} {h : Nat} (hget : (p.putSnapshotTxn sheet).bucket[h]? = some sheet') :
    h = sheet.height ∧ sheet' = sheet ∨ h ≠ sheet.height ∧ p.bucket[h]? = some sheet' := by
  have hinsert : (p.bucket.insert sheet.height sheet)[h]? = some sheet' := by
    unfold putSnapshotTxn at hget
    dsimp only at hget
    split at hget
    · rw [← List.foldl_map (f := Prod.fst) (g := fun (m : Bucket Nat Sheet) k => m.erase k),
        Bucket.get_foldl_erase] at hget
      split at hget
      · cases hget
      · exact hget
    · exact hget
  rw [Bucket.get_insert] at hinsert
  split at hinsert
  · next heq =>
    cases hinsert
    exact .inl ⟨heq.symm, rfl⟩
  · next hne => exact .inr ⟨fun heq => hne heq.symm, hinsert⟩

theorem persisted_mem {height : Nat} {sheet : Sheet} (h : p.persisted height = some sheet) :
    ∃ k : Nat, p.bucket[k]? = some sheet := by
  unfold persisted at h
  cases hexact : p.bucket[height]? with
  | some s =>
    rw [hexact] at h
    exact ⟨height, hexact.trans h⟩
  | none =>
    rw [hexact, Option.none_or] at h
    rcases Option.map_eq_some_iff.mp h with ⟨⟨k, s⟩, hlast, rfl⟩
    have hmem := (List.takeWhile_sublist _).subset (List.mem_of_getLast? hlast)
    exact ⟨k, (Bucket.mem_toList_iff _ _ _).mp hmem⟩

theorem getSnapshotByHeight_eq_ok [Crypto] {network : Network} {height : Nat} {sheet : Sheet} {p' : Snapshots}
    (h : p.getSnapshotByHeight network height = .ok (sheet, p')) :
    getGenesisSheet network = .ok sheet ∧ p' = p ∨
      p.cache.getSnapshotByHeight height = some sheet ∧ p' = p ∨
      p.persisted height = some sheet ∧
        p' = { p with cache := p.cache.putSnapshot sheet.height sheet.blockHash sheet } := by
  have hgenesis : ∀ {r : Sheet × Snapshots}, (do
      let genesis ← getGenesisSheet network
      return (genesis, p) : Except Err (Sheet × Snapshots)) = .ok r → getGenesisSheet network = .ok r.1 ∧ r.2 = p := by
    intro r hr
    rcases bind_eq_ok.mp hr with ⟨genesis, hgenesis, hr⟩
    obtain rfl := pure_eq_ok.mp hr
    exact ⟨hgenesis, rfl⟩
  unfold getSnapshotByHeight at h
  split at h
  · exact .inl (hgenesis h)
  · split at h
    · next hcache =>
      cases h
      exact .inr (.inl ⟨hcache, rfl⟩)
    · split at h
      · next hpersisted =>
        cases h
        exact .inr (.inr ⟨hpersisted, rfl⟩)
      · exact .inl (hgenesis h)

end Snapshots
end NgCore
