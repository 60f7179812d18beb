/-
# NgCore.Types.Consensus — forks and the reward curve

`ngtypes/forks.go` and `ngtypes/reward_curve.go`: which ruleset is active at a height, what a block
mints and what it pays for an uncle. Pure functions of network and height.
-/
import NgCore.Types.Basic

namespace NgCore

/-! ## §1 — forks -/

/-- **`Fork`** — the named protocol versions. -/
inductive Fork where
  | forkGenesis | forkFeeMarket | forkStateRent | forkRandomBeacon
  deriving DecidableEq, Repr

/-- **`forkHeight`** — activation height on a network; `none` is the `NoFork` sentinel. The dev networks
activate every scheduled fork from height 0, the main network schedules none. -/
def forkHeight (net : Network) (f : Fork) : Option Nat :=
  if f = .forkGenesis then some 0
  else if net = ZERONET ∨ net = TESTNET then some 0
  else none

/-- **`isForkActive`** — `NoFork` is active at no height at all. -/
def isForkActive (net : Network) (f : Fork) (height : Nat) : Bool :=
  match forkHeight net f with
  | none => false
  | some h => h ≤ height

/-! ## §2 — rewards -/

def rewardEra : Nat := 1000000
def minReward : Nat := NG * 2
def floatingReward : Nat := NG * 8

/-- The floating part after `era` eras: each takes a tenth off, in integer arithmetic. -/
def floatingRewardAt : Nat → Nat
  | 0 => floatingReward
  | era + 1 => floatingRewardAt era - floatingRewardAt era / 10

/-- **`getBlockReward`** — what the miner of a block at `height` mints. -/
def getBlockReward (height : Nat) : Nat := floatingRewardAt (height / rewardEra) + minReward

/-- **`uncleReward`** — what a nephew pays the miner of an uncle: the uncle's own reward, decaying
linearly to nothing at the depth horizon. -/
def uncleReward (uncleHeight nephewHeight : Nat) : Nat :=
  if nephewHeight ≤ uncleHeight then 0
  else
    let depth := nephewHeight - uncleHeight
    if depth > uncleMaxDepth then 0
    else getBlockReward uncleHeight * (uncleMaxDepth + 1 - depth) / (uncleMaxDepth + 1)

end NgCore
