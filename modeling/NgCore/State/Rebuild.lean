/-
# NgCore.State.Rebuild — unwinding, replaying and rebuilding the state

`ngstate/changeset.go` (`unwindHeightTxn`), `ngstate/statetrie.go` (`RebuildTrie`, `CheckStateRoot`) and the
bulk operations of `ngstate/state.go`: undo one height from its recorded pre-images, apply a run of blocks,
reset to a sheet, or reset and replay the whole canonical chain.

The unwind puts bucket values back DIRECTLY — code reference counts are not touched — and mirrors every
restored value into the commitment. The commit store has no pre-images of its own: commitments recorded at
the height are dropped, and what the reveals journaled under it spent is put back.
-/
import NgCore.State.Check

namespace NgCore

open Lib (Versioned)
open Lib.Rlp (beBytes)

namespace State

/-! ## §1 — the commitment from scratch -/

section Trie

variable [Crypto]

/-- The root of the state commitment. -/
def stateRoot (s : State) : Bytes32 := Statetrie.root s.trie

/-- **`leaves`** — every live entry of the committed buckets, with its value hash; a zero balance is no
leaf. -/
def leaves (s : State) : List (LeafKey × Bytes32) :=
  (s.bal.cur.toList.filter fun e => e.2 ≠ 0).map
      (fun e => (.balance e.1, Statetrie.valueHash (beBytes e.2))) ++
    s.key.cur.toList.map (fun e => (.key e.1, Statetrie.valueHash e.2)) ++
    s.contract.cur.toList.map (fun e => (.contract e.1, Statetrie.valueHash e.2.raw)) ++
    s.commit.toList.map (fun e => (.commit e.1.1 e.1.2, Statetrie.valueHash e.2.val)) ++
    (s.beacon.cur[()]?).toList.map fun seed => (.beacon, Statetrie.valueHash seed)

/-- **`rebuildTrie`** — clear the commitment and insert every live entry. -/
def rebuildTrie (s : State) : State :=
  s.leaves.foldl (fun s e => s.setLeaf e.1 e.2) { s with trie := ∅ }

/-- **`checkStateRoot`** — the header's root against the state's. -/
def checkStateRoot (want : Bytes) (s : State) : Except Err Unit :=
  ensure (s.stateRoot.val = want) .blockStateRootInvalid

/-! ## §2 — undoing one height -/

/-- What the commitment holds for a balance: zero, like absence, is no leaf. -/
def balanceBytes (o : Option Nat) : Bytes := if o.getD 0 = 0 then [] else beBytes (o.getD 0)

/-- Mirror restored values into the commitment. -/
def mirror {K V : Type} (leaf : K → LeafKey) (bytes : Option V → Bytes) (l : List (K × Option V))
    (s : State) : State :=
  l.foldl (fun s e => s.trieSetLeaf (leaf e.1) (bytes e.2)) s

/-- `revertDomain` at the balances. -/
def revertBalances (h : Nat) (s : State) : State :=
  mirror .balance balanceBytes (s.bal.entriesAt h) { s with bal := s.bal.revert true h }

/-- `revertDomain` at the contract slots. -/
def revertContracts (h : Nat) (s : State) : State :=
  mirror .contract (fun o => o.elim [] StoredContract.raw) (s.contract.entriesAt h)
    { s with contract := s.contract.revert true h }

/-- `revertDomain` at the key registry, which has no history index. -/
def revertKeys (h : Nat) (s : State) : State :=
  mirror .key (fun o => o.getD []) (s.key.entriesAt h) { s with key := s.key.revert false h }

/-- **`revertBeacon`** — the seed has its own single row per height. -/
def revertBeacon (h : Nat) (s : State) : State :=
  mirror (fun _ => .beacon) (fun o => o.getD []) (s.beacon.entriesAt h)
    { s with beacon := s.beacon.revert false h }

/-- The trail forgets the block of the height. -/
def dropApplied (h : Nat) (s : State) : State :=
  { s with applied := s.applied.filter fun b => b.getHeight ≠ h }

/-- **`unwindHeight`** — `unwindHeightTxn`: revert every state change applied at height `h`. -/
def unwindHeight (h : Nat) (s : State) : State :=
  let s := (s.revertBalances h).revertContracts h |>.revertKeys h
  let s := (s.deleteCommitsAtHeight h).restoreConsumedAtHeight h |>.revertBeacon h
  s.dropApplied h

/-- The heights of `UnwindToTxn`'s loop: `tip` down to `target + 1`. -/
def unwindHeights (target : Nat) : (depth : Nat) → State → State
  | 0, s => s
  | depth + 1, s => unwindHeights target depth (s.unwindHeight (target + depth + 1))

end Trie

/-- **`changesetCovers`** — some balance row stands at height `h`. -/
def changesetCovers (h : Nat) (s : State) : Bool := s.bal.cs.toList.any fun e => e.1.1 = h

/-! ## §3 — sheets -/

/-- **`Sheet`** — a snapshot of the plain state (the fields that seeding reads). -/
structure Sheet where
  balances : List (Address × Nat)
  contracts : List Contract
  keys : List (Address × Bytes)
  beacon : Bytes

/-- **`getGenesisSheet`** — no premine. -/
def getGenesisSheet : Sheet := ⟨[], [], [], []⟩

section Sheets

variable [Crypto]

/-- **`initFromSheet`** — write the sheet's rows; only the contracts go through a trie-aware helper. -/
def initFromSheet (sheet : Sheet) (s : State) : State :=
  let s := sheet.contracts.foldl (fun s account => s.setContract none account) s
  { s with
    bal.cur := sheet.balances.foldl (fun b e => b.insert e.1 e.2) s.bal.cur
    key.cur := sheet.keys.foldl (fun b e => b.insert e.1 e.2) s.key.cur
    beacon.cur := if sheet.beacon = [] then s.beacon.cur else s.beacon.cur.insert () sheet.beacon }

/-- The bucket reset of both rebuilds: everything but the commitment. -/
def resetBuckets (s : State) : State := { State.empty with trie := s.trie, log := s.log }

/-- **`rebuildFromSheet`** — `RebuildFromSheetTxn`. -/
def rebuildFromSheet (sheet : Sheet) (s : State) : State :=
  ((s.resetBuckets).initFromSheet sheet).rebuildTrie

end Sheets

/-! ## §4 — runs of blocks -/

section Blocks

variable [Engine] (cfg : Config)

/-- Apply a block the way every import path does: its transactions are checked unless it is the genesis
block, and the state must reproduce the root its header commits to. -/
def applyChecked (block : FullBlock) (s : State) : Except Err State := do
  let genesis ← block.isGenesis
  if genesis = false then checkBlockTxs s.view block
  let (_, s) ← (upgrade cfg block).exec s
  s.checkStateRoot block.header.stateRoot
  return s

theorem applyChecked_eq_ok {cfg : Config} {block : FullBlock} {s s' : State}
    (h : applyChecked cfg block s = .ok s') :
    ∃ genesis, block.isGenesis = .ok genesis ∧
      (genesis = false → checkBlockTxs s.view block = .ok ()) ∧
      (upgrade cfg block).exec s = .ok ((), s') ∧ s'.stateRoot.val = block.header.stateRoot := by
  unfold applyChecked at h
  obtain ⟨genesis, hgenesis, h⟩ := bind_eq_ok.mp h
  refine ⟨genesis, hgenesis, ?_⟩
  cases genesis with
  | true =>
    obtain ⟨⟨_, t⟩, hrun, h⟩ := bind_eq_ok.mp h
    obtain ⟨_, hroot, h⟩ := bind_eq_ok.mp h
    obtain rfl := pure_eq_ok.mp h
    exact ⟨by simp, hrun, ensure_eq_ok.mp hroot⟩
  | false =>
    obtain ⟨_, hcheck, h⟩ := bind_eq_ok.mp h
    obtain ⟨⟨_, t⟩, hrun, h⟩ := bind_eq_ok.mp h
    obtain ⟨_, hroot, h⟩ := bind_eq_ok.mp h
    obtain rfl := pure_eq_ok.mp h
    exact ⟨fun _ => hcheck, hrun, ensure_eq_ok.mp hroot⟩

/-- **`applyBlocks`** — `ApplyBlocksTxn`: a forward run of blocks. -/
def applyBlocks (blocks : List FullBlock) (s : State) : Except Err State :=
  blocks.foldlM (fun s block => applyChecked cfg block s) s

/-- **`rebuildFromBlocks`** — `RebuildFromBlockStoreTxn` on the canonical blocks from height zero on. -/
def rebuildFromBlocks (blocks : List FullBlock) (s : State) : Except Err State :=
  applyBlocks cfg blocks (s.rebuildFromSheet getGenesisSheet)

/-- **`unwindTo`** — `UnwindToTxn`: `none` when the changesets do not reach the target. -/
def unwindTo (tip target : Nat) (s : State) : Option State :=
  if cfg.archive = false then none
  else if tip ≤ target then some s
  else if s.changesetCovers (target + 1) = false then none
  else some (unwindHeights target (tip - target) s)

/-- **`initStateFromGenesis`** — seed a fresh database and apply the genesis block (a failure panics). -/
def initStateFromGenesis : Except Err State := do
  let genesis ← getGenesisBlock cfg.network
  let (_, s) ← (upgrade cfg genesis).exec (State.empty.initFromSheet getGenesisSheet)
  return s

variable {cfg} in
theorem initStateFromGenesis_eq_ok {s : State} (h : initStateFromGenesis cfg = .ok s) :
    ∃ g, getGenesisBlock cfg.network = .ok g ∧
      (upgrade cfg g).exec (State.empty.initFromSheet getGenesisSheet) = .ok ((), s) := by
  unfold initStateFromGenesis at h
  obtain ⟨g, hg, h⟩ := bind_eq_ok.mp h
  obtain ⟨⟨_, t⟩, hrun, h⟩ := bind_eq_ok.mp h
  obtain rfl := pure_eq_ok.mp h
  exact ⟨g, hg, hrun⟩

end Blocks
end State
end NgCore
