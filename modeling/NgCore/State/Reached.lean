/-
# NgCore.State.Reached — the states of a database

A database is seeded with the genesis block and then goes through block applications, unwinds, sheet imports and
replays. What `NgCore.State.LockStep` shows of each of them is put together here.

DELIVERABLE: `Reached.trie_eq_rebuildTrie`.
-/
import NgCore.State.Handmade
import NgCore.State.Snapshot

namespace NgCore

section Runs

variable [Engine]

/-- **`UpgradesTo cfg s blocks s'`** — the blocks apply one after the other. -/
inductive UpgradesTo (cfg : Config) : State → List FullBlock → State → Prop where
  | nil {s : State} : UpgradesTo cfg s [] s
  | cons {s t u : State} {block : FullBlock} {blocks : List FullBlock}
      (head : (upgrade cfg block).exec s = .ok ((), t)) (tail : UpgradesTo cfg t blocks u) :
      UpgradesTo cfg s (block :: blocks) u

/-- Run the blocks. -/
def upgradeAll (cfg : Config) : List FullBlock → State → Except Err (Unit × State)
  | [], s => .ok ((), s)
  | block :: blocks, s => do
    let (_, s) ← (upgrade cfg block).exec s
    upgradeAll cfg blocks s

theorem upgradesTo_of_upgradeAll {cfg : Config} {blocks : List FullBlock} {s s' : State} {u : Unit}
    (h : upgradeAll cfg blocks s = .ok (u, s')) : UpgradesTo cfg s blocks s' := by
  induction blocks generalizing s with
  | nil =>
    cases h
    exact .nil
  | cons block blocks ih =>
    obtain ⟨⟨_, t⟩, hhead, h⟩ := bind_eq_ok.mp h
    exact .cons hhead (ih h)

namespace State

variable {K : Set LeafKey}

/-- **`Reached`** — the states of a database that was seeded with the genesis block and went through any
sequence of block applications, unwinds (of any height), sheet imports and replays. -/
inductive Reached : State → Prop where
  | genesis {cfg : Config} {s : State} : initStateFromGenesis cfg = .ok s → Reached s
  | upgrade {cfg : Config} {block : FullBlock} {s s' : State} : Reached s →
      (NgCore.upgrade cfg block).exec s = .ok ((), s') → Reached s'
  | unwind {s : State} (h : Nat) : Reached s → Reached (s.unwindHeight h)
  | sheet {s : State} (sheet : Sheet) : Reached s → Reached (s.rebuildFromSheet sheet)
  | replay {cfg : Config} {blocks : List FullBlock} {s s' : State} : Reached s →
      rebuildFromBlocks cfg blocks s = .ok s' → Reached s'

theorem Reached.inStep (hK : Set.InjOn LeafKey.path K) {s : State} (h : Reached s)
    (hsub : s.touched ⊆ K) : InStep K s := by
  induction h with
  | genesis hinit =>
    obtain ⟨g, -, hrun⟩ := initStateFromGenesis_eq_ok hinit
    exact (follows_exec hK hrun).2 hsub inStep_empty
  | upgrade _ hrun ih =>
    have hfollows := follows_exec hK hrun
    exact hfollows.2 hsub (ih (hfollows.1.trans hsub))
  | @unwind s h _ ih =>
    have hfollows := follows_unwindHeight hK h s
    exact hfollows.2 hsub (ih (hfollows.1.trans hsub))
  | @sheet s sheet _ ih =>
    have hfollows := follows_rebuildFromSheet hK sheet s
    exact hfollows.2 hsub (ih (hfollows.1.trans hsub))
  | replay _ hrun ih =>
    have hfollows := (follows_rebuildFromSheet hK getGenesisSheet _).trans (follows_applyBlocks hK hrun)
    exact hfollows.2 hsub (ih (hfollows.1.trans hsub))

/-- **The incremental commitment is the one rebuilt from scratch**, node set and root, after any sequence of
operations — provided no two of the leaves ever touched share a path. -/
theorem Reached.trie_eq_rebuildTrie {s : State} (h : Reached s)
    (hinj : Set.InjOn LeafKey.path s.touched) :
    s.trie = s.rebuildTrie.trie ∧ s.stateRoot = s.rebuildTrie.stateRoot := by
  have hstep := h.inStep hinj subset_rfl
  obtain ⟨_, _, _, _, habsent⟩ := hstep.tracks
  -- a live entry was touched, so the rebuild touches no new leaf
  have hlive : ∀ k, s.entry k ≠ none → k ∈ s.touched := by
    intro k hk
    by_contra hnot
    exact hk (habsent k hnot)
  have hrebuilt := inStep_rebuildTrie hinj hstep.toRows hlive
  have hentry : s.rebuildTrie.entry = s.entry := by
    rw [rebuildTrie_eq, entry_setLeaves]
    rfl
  have htracks := hrebuilt.tracks
  rw [hentry] at htracks
  have htrie := hstep.tracks.unique htracks
  exact ⟨htrie, congrArg Statetrie.root htrie⟩

end State
end Runs

/-- A contract without entries. -/
def idleModule : Module := ⟨[], [], ⟨none, []⟩, none, fun _ => none⟩

def idleCode : Bytes := wasmMagic ++ [1]

def idleTable (source : Bytes) : Option Module := if source = idleCode then some idleModule else none

section Wound

variable [Engine]

/-- Key 1 commits to a deploy, and reveals it, its key too, in a block by the miner of that number. -/
def woundChain (miner : UInt8) : List FullBlock :=
  let deploy := handSignFull 1 (handDeploy 1 3 idleCode)
  let b1 := handSeal handGenesis 1 [] []
  let b2 := handSeal b1 1 [] [handCommit 1 2 0 deploy]
  [b1, b2, handSeal b2 miner [deploy] []]

/-- One more block, with a commitment to a payment. -/
def woundTip : FullBlock :=
  handSeal ((woundChain 2).getLastD handGenesis) 2 [] [handCommit 1 4 0 (handPay 1 5 (handAddr 2) 1)]

/-- The reveal is taken off and mined by another; the state is seeded with its own sheet, and goes on. -/
def woundRun : Except Err State := do
  let cfg : Config := ⟨ZERONET, true⟩
  let (_, s) ← upgradeAll cfg (woundChain 1) (State.genesis true)
  let (_, s) ← upgradeAll cfg ((woundChain 2).drop 2) (s.unwindHeight 3)
  let (_, s) ← upgradeAll cfg [woundTip] (s.rebuildFromSheet s.rows)
  return s

theorem State.Reached.upgradesTo {cfg : Config} {blocks : List FullBlock} {s s' : State} (h : Reached s)
    (hrun : UpgradesTo cfg s blocks s') : Reached s' := by
  induction hrun with
  | nil => exact h
  | cons head _ ih => exact ih (h.upgrade head)

theorem reached_woundRun {s : State} (h : woundRun = .ok s) : State.Reached s := by
  obtain ⟨⟨_, s₁⟩, h₁, h⟩ := bind_eq_ok.mp h
  obtain ⟨⟨_, s₂⟩, h₂, h⟩ := bind_eq_ok.mp h
  obtain ⟨⟨_, s₃⟩, h₃, h⟩ := bind_eq_ok.mp h
  obtain rfl := pure_eq_ok.mp h
  have hs₁ := (State.Reached.genesis (State.genesis_eq true)).upgradesTo (upgradesTo_of_upgradeAll h₁)
  have hs₂ := (hs₁.unwind 3).upgradesTo (upgradesTo_of_upgradeAll h₂)
  exact (hs₂.sheet s₂.rows).upgradesTo (upgradesTo_of_upgradeAll h₃)

end Wound

/-- After that run, under a hash that keeps the leaves apart, the tree is the one rebuilt: over three balances, a key, a
contract, a pending commitment and the beacon. -/
theorem trie_eq_rebuildTrie_woundRun :
    letI := Engine.ofHash foldHash idleTable
    ∃ s : State, woundRun = .ok s ∧ State.Reached s ∧ s.leaves.length = 7 ∧ s.trie = s.rebuildTrie.trie ∧
      s.stateRoot = s.rebuildTrie.stateRoot := by
  let _ := Engine.ofHash foldHash idleTable
  obtain ⟨s, hrun, htest⟩ := exists_of_okAnd
    (show okAnd woundRun (fun s => decide (s.leaves.length = 7) && leavesApart s.log) = true by decide +kernel)
  obtain ⟨hleaves, hapart⟩ := Bool.and_eq_true_iff.mp htest
  have hreached := reached_woundRun hrun
  exact ⟨s, hrun, hreached, of_decide_eq_true hleaves,
    hreached.trie_eq_rebuildTrie (State.injOn_touched hapart)⟩

end NgCore
