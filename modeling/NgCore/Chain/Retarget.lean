/-
# NgCore.Chain.Retarget — the two numbers a header inherits

Every header carries a difficulty and a base fee that its parent determines (`GetNextDiff`, `NextBaseFee`), and
`checkBlockTarget` compares both. The retarget computes in `int64` before it goes to big integers: `getNextDiff` has
every conversion and every wrapping operation of the source, for all 64-bit inputs, and `exactNextDiff` is what it
computes while nothing wraps (`getNextDiff_eq`).

DELIVERABLE: `retarget_bounds` — one retarget stays within its bounds, no `int64` operation overflows, a later block
never gets a higher difficulty, and `k` blocks keep `(1949/2048)^k` of the difficulty; `baseFee_bounds` — one update of
the base fee moves it by an eighth at most, in the direction of the used bytes, and so does every block of a chain.
-/
import NgCore.Chain.Handmade

namespace NgCore

open Lib.Rlp (beVal)

/-! ## §1 — the retarget in 64 bits -/

/-- The numbers of an `int64`. -/
def IsInt64 (x : Int) : Prop := -2 ^ 63 ≤ x ∧ x < 2 ^ 63

instance (x : Int) : Decidable (IsInt64 x) := inferInstanceAs (Decidable (_ ∧ _))

theorem int64_of_isInt64 {x : Int} (h : IsInt64 x) : int64 x = x := by
  rcases h with ⟨hlow, hhigh⟩
  exact Int.bmod_eq_of_le (by norm_num at hlow ⊢; exact hlow) (by norm_num at hhigh ⊢; exact hhigh)

/-- **`exactNextDiff`** — the retarget over the integers: what `getNextDiff` computes while nothing wraps. -/
def exactNextDiff (blockHeight blockTime : Nat) (parent : BlockHeader) : Except Err Nat := do
  let genesisTime ← getGenesisTimestamp parent.network
  ensure (genesisTime ≤ parent.timestamp) .panic
  let diff : Int := beVal parent.difficulty
  let target : Int := targetTime
  let d : Int := blockTime - parent.timestamp
  let factor := max (min (target - d) target) (-99 * target)
  let diff := diff + (diff * factor).tdiv (2048 * target)
  let diff := if 200000 ≤ blockHeight then diff + 2 ^ (blockHeight / 100000 - 2) else diff
  return (max diff (minimumDiffOf parent.network)).toNat

/-- The exact results of the `int64` operations of `getNextDiff`, in source order. -/
def retargetOps (blockHeight blockTime parentTime : Nat) : List Int :=
  let target : Int := targetTime
  let d := int64 blockTime - int64 parentTime
  [d, target - d, -99 * target, 2048 * target, (int64 blockHeight).tdiv 100000, (int64 blockHeight).tdiv 100000 - 2]

/-! ## §2 — one retarget -/

section Step

/-- A step of at most one part in 2048 up and 99 down, rounded towards zero. -/
theorem step_bounds {diff target : Int} (factor : Int) (hdiff : 0 ≤ diff) (htarget : 0 < target)
    (hlow : -99 * target ≤ factor) (hhigh : factor ≤ target) :
    -(99 * diff) ≤ 2048 * (diff * factor).tdiv (2048 * target) ∧
      2048 * (diff * factor).tdiv (2048 * target) ≤ diff := by
  have hden : 0 < 2048 * target := by omega
  have hprodlow : diff * (-99 * target) ≤ diff * factor := mul_le_mul_of_nonneg_left hlow hdiff
  have hprodhigh : diff * factor ≤ diff * target := mul_le_mul_of_nonneg_left hhigh hdiff
  -- the quotient of the extreme factors is exact up to the common target
  have hleast : 2048 * (diff * (-99 * target)).tdiv (2048 * target) ≥ -(99 * diff) := by
    have hrw : diff * (-99 * target) = -(99 * diff * target) := by ring
    rw [hrw, Int.neg_tdiv, Int.mul_tdiv_mul_of_pos_left _ _ htarget,
      Int.tdiv_eq_ediv_of_nonneg (by omega)]
    omega
  have hmost : 2048 * (diff * target).tdiv (2048 * target) ≤ diff := by
    rw [Int.mul_tdiv_mul_of_pos_left _ _ htarget, Int.tdiv_eq_ediv_of_nonneg hdiff]
    omega
  have h1 := Int.tdiv_le_tdiv hden hprodlow
  have h2 := Int.tdiv_le_tdiv hden hprodhigh
  omega

/-- The factor never leaves its clamp, whatever wrapped before it. -/
theorem retargetFactor64_mem (blockTime parentTime : Nat) :
    -99 * (targetTime : Int) ≤ retargetFactor64 blockTime parentTime ∧
      retargetFactor64 blockTime parentTime ≤ targetTime := by
  have hclamp : int64 (-99 * (targetTime : Int)) = -99 * targetTime := by decide
  have htarget : (targetTime : Int) = 4000 := by decide
  unfold retargetFactor64
  dsimp only
  rw [hclamp]
  split_ifs <;> omega

theorem retargetStep_mem (parent : BlockHeader) (blockTime : Nat) :
    let delta := (beVal parent.difficulty * retargetFactor64 blockTime parent.timestamp : Int).tdiv (2048 * targetTime)
    2048 * delta ≤ beVal parent.difficulty ∧ -(99 * (beVal parent.difficulty : Int)) ≤ 2048 * delta := by
  rcases retargetFactor64_mem blockTime parent.timestamp with ⟨hlow, hhigh⟩
  exact (step_bounds _ (Int.natCast_nonneg _) (by decide) hlow hhigh).symm

theorem heightTerm64_nonneg (blockHeight : Nat) : 0 ≤ heightTerm64 blockHeight := by
  unfold heightTerm64
  dsimp only
  split
  · positivity
  · exact le_rfl

variable {parent : BlockHeader} {genesisTime : Nat}

/-- The spec of the retarget on a parent that is not before genesis. -/
theorem getNextDiff_eq_ok (hgenesis : getGenesisTimestamp parent.network = .ok genesisTime)
    (hstart : genesisTime ≤ parent.timestamp) (blockHeight blockTime : Nat) :
    getNextDiff blockHeight blockTime parent = .ok (max ((beVal parent.difficulty : Int) +
      (beVal parent.difficulty * retargetFactor64 blockTime parent.timestamp).tdiv (2048 * targetTime) +
      heightTerm64 blockHeight) (minimumDiffOf parent.network)).toNat := by
  have hden : int64 (2048 * (targetTime : Int)) = 2048 * targetTime := by decide
  simp only [getNextDiff, hgenesis, bind, Except.bind, ensure, if_pos hstart, hden, pure, Except.pure, max_def_lt]

/-- **The bounds of one retarget**, for every 64-bit height and time. -/
theorem getNextDiff_bounds (hgenesis : getGenesisTimestamp parent.network = .ok genesisTime)
    (hstart : genesisTime ≤ parent.timestamp)
    (hmin : minimumDiffOf parent.network ≤ beVal parent.difficulty) (blockHeight blockTime : Nat) :
    ∃ diff, getNextDiff blockHeight blockTime parent = .ok diff ∧ minimumDiffOf parent.network ≤ diff ∧
      2048 * beVal parent.difficulty ≤ 2048 * diff + 99 * beVal parent.difficulty ∧
      (2048 * diff : Int) ≤ 2048 * beVal parent.difficulty + beVal parent.difficulty +
        2048 * heightTerm64 blockHeight := by
  refine ⟨_, getNextDiff_eq_ok hgenesis hstart blockHeight blockTime, ?_⟩
  have hstep := retargetStep_mem parent blockTime
  have hterm := heightTerm64_nonneg blockHeight
  omega

/-- One retarget keeps 1949 parts in 2048 of the difficulty. -/
theorem getNextDiff_keeps {blockHeight blockTime diff : Nat}
    (h : getNextDiff blockHeight blockTime parent = .ok diff) : beVal parent.difficulty * 1949 ≤ diff * 2048 := by
  have hrun := h
  unfold getNextDiff at hrun
  rcases bind_eq_ok.mp hrun with ⟨genesisTime, hgenesis, hrun⟩
  rcases bind_eq_ok.mp hrun with ⟨_, hstart, _⟩
  rw [getNextDiff_eq_ok hgenesis (ensure_eq_ok.mp hstart)] at h
  obtain rfl := Except.ok.inj h
  have hstep := retargetStep_mem parent blockTime
  have hterm := heightTerm64_nonneg blockHeight
  omega

theorem retargetFactor64_eq {blockTime : Nat} (hlt : parent.timestamp < blockTime) (hfits : blockTime < 2 ^ 63) :
    retargetFactor64 blockTime parent.timestamp =
      max (min ((targetTime : Int) - (blockTime - parent.timestamp)) targetTime) (-99 * targetTime) := by
  have htarget : (targetTime : Int) = 4000 := by decide
  have hclamp : int64 (-99 * (targetTime : Int)) = -99 * targetTime := by decide
  unfold retargetFactor64
  dsimp only
  rw [hclamp, int64_of_isInt64 (x := blockTime) ⟨by omega, by omega⟩,
    int64_of_isInt64 (x := parent.timestamp) ⟨by omega, by omega⟩,
    int64_of_isInt64 (x := blockTime - parent.timestamp) ⟨by omega, by omega⟩,
    int64_of_isInt64 (x := targetTime - (blockTime - parent.timestamp)) ⟨by omega, by omega⟩]
  split_ifs <;> omega

theorem getNextDiff_antitone (hgenesis : getGenesisTimestamp parent.network = .ok genesisTime)
    (hstart : genesisTime ≤ parent.timestamp) {blockHeight t t' diff diff' : Nat} (hlt : parent.timestamp < t)
    (hle : t ≤ t') (hfits : t' < 2 ^ 63) (hdiff : getNextDiff blockHeight t parent = .ok diff)
    (hdiff' : getNextDiff blockHeight t' parent = .ok diff') : diff' ≤ diff := by
  rw [getNextDiff_eq_ok hgenesis hstart] at hdiff hdiff'
  obtain rfl := Except.ok.inj hdiff
  obtain rfl := Except.ok.inj hdiff'
  have hfactor : retargetFactor64 t' parent.timestamp ≤ retargetFactor64 t parent.timestamp := by
    rw [retargetFactor64_eq hlt (by omega), retargetFactor64_eq (by omega) hfits]
    omega
  have hprod := mul_le_mul_of_nonneg_left hfactor (Int.natCast_nonneg (beVal parent.difficulty))
  have hquot := Int.tdiv_le_tdiv (show (0 : Int) < 2048 * targetTime by decide) hprod
  apply Int.toNat_le_toNat
  gcongr

/-- No `int64` operation of the retarget overflows on two times before `2^63`, at any height. -/
theorem isInt64_retargetOps {blockHeight blockTime parentTime : Nat} (hlt : parentTime < blockTime)
    (hfits : blockTime < 2 ^ 63) : ∀ x ∈ retargetOps blockHeight blockTime parentTime, IsInt64 x := by
  have htarget : (targetTime : Int) = 4000 := by decide
  have hheight : -2 ^ 63 ≤ int64 blockHeight ∧ int64 blockHeight < 2 ^ 63 := by
    have hlow := Int.le_bmod (x := blockHeight) (m := 2 ^ 64) (by norm_num)
    have hhigh := Int.bmod_lt (x := blockHeight) (m := 2 ^ 64) (by norm_num)
    unfold int64
    norm_num at hlow hhigh ⊢
    omega
  unfold retargetOps
  dsimp only
  rw [int64_of_isInt64 (x := blockTime) ⟨by omega, by omega⟩,
    int64_of_isInt64 (x := parentTime) ⟨by omega, by omega⟩, htarget]
  generalize int64 blockHeight = height at hheight ⊢
  have hquot : (height.tdiv 100000).natAbs ≤ height.natAbs / 100000 := by
    rw [Int.natAbs_tdiv]
    exact le_rfl
  simp only [List.forall_mem_cons, List.not_mem_nil, false_implies, implies_true, and_true, IsInt64]
  omega

/-- **`exactNextDiff` is what the source computes** while the height and the times fit an `int64`. -/
theorem getNextDiff_eq {blockHeight blockTime : Nat} (hlt : parent.timestamp < blockTime)
    (hfits : blockTime < 2 ^ 63) (hheight : blockHeight < 2 ^ 63) :
    getNextDiff blockHeight blockTime parent = exactNextDiff blockHeight blockTime parent := by
  have hterm : heightTerm64 blockHeight = if 200000 ≤ blockHeight then 2 ^ (blockHeight / 100000 - 2) else 0 := by
    unfold heightTerm64
    rw [int64_of_isInt64 (x := blockHeight) ⟨by omega, by omega⟩, Int.tdiv_eq_ediv_of_nonneg (by omega),
      int64_of_isInt64 ⟨by omega, by omega⟩]
    dsimp only
    by_cases hlate : 200000 ≤ blockHeight
    · have hexp : ((blockHeight : Int) / 100000 - 2).toNat = blockHeight / 100000 - 2 := by omega
      rw [if_pos (by omega), if_pos hlate, hexp]
    · rw [if_neg (by omega), if_neg hlate]
  cases hgenesis : getGenesisTimestamp parent.network with
  | error e => simp only [getNextDiff, exactNextDiff, hgenesis, bind, Except.bind]
  | ok genesisTime =>
    by_cases hstart : genesisTime ≤ parent.timestamp
    · rw [getNextDiff_eq_ok hgenesis hstart, retargetFactor64_eq hlt hfits, hterm]
      simp only [exactNextDiff, hgenesis, bind, Except.bind, ensure, if_pos hstart, pure, Except.pure]
      split
      · rfl
      · rw [add_zero]
    · simp only [getNextDiff, exactNextDiff, hgenesis, bind, Except.bind, ensure, if_neg hstart]

end Step

/-! ## §3 — difficulty along a chain -/

section Chain

variable [Crypto] {prev block : FullBlock} {u : Unit}

/-- The inversion of the target rule: time, difficulty and base fee. -/
theorem checkBlockTarget_facts (h : checkBlockTarget block prev = .ok u) :
    prev.header.timestamp < block.header.timestamp ∧
      getNextDiff block.getHeight block.header.timestamp prev.header = .ok (beVal block.header.difficulty) ∧
      beVal block.header.baseFee = nextBaseFee block.header.network prev.getHeight (beVal prev.header.baseFee)
        (blockUsedBytes prev) := by
  rcases bind_eq_ok.mp h with ⟨_, htime, h⟩
  rcases bind_eq_ok.mp h with ⟨diff, hdiff, h⟩
  rcases bind_eq_ok.mp h with ⟨_, _, h⟩
  rcases bind_eq_ok.mp h with ⟨_, heq, h⟩
  rcases bind_eq_ok.mp h with ⟨_, _, hfee⟩
  exact ⟨ensure_eq_ok.mp htime, hdiff.trans (congrArg Except.ok (ensure_eq_ok.mp heq).symm), ensure_eq_ok.mp hfee⟩

theorem difficulty_along (first : FullBlock) (blocks : List FullBlock)
    (h : List.IsChain (fun prev block => checkBlockTarget block prev = .ok ()) (first :: blocks)) :
    beVal first.header.difficulty * 1949 ^ blocks.length ≤
      beVal (blocks.getLastD first).header.difficulty * 2048 ^ blocks.length := by
  induction blocks generalizing first with
  | nil => exact le_rfl
  | cons block rest ih =>
    rw [List.isChain_cons_cons] at h
    have hstep := getNextDiff_keeps (checkBlockTarget_facts h.1).2.1
    have hrest := ih block h.2
    rw [List.getLastD_cons, List.length_cons]
    calc beVal first.header.difficulty * 1949 ^ (rest.length + 1)
        = beVal first.header.difficulty * 1949 * 1949 ^ rest.length := by ring
      _ ≤ beVal block.header.difficulty * 2048 * 1949 ^ rest.length := Nat.mul_le_mul_right _ hstep
      _ = beVal block.header.difficulty * 1949 ^ rest.length * 2048 := by ring
      _ ≤ beVal (rest.getLastD block).header.difficulty * 2048 ^ rest.length * 2048 := Nat.mul_le_mul_right _ hrest
      _ = beVal (rest.getLastD block).header.difficulty * 2048 ^ (rest.length + 1) := by ring

/-- **The retarget is bounded and monotone**, for every parent that is not before genesis and not below the floor,
every height, and every time after the parent's that a clock with an `int64` millisecond count admits; and along any
chain that passes the target rule, whatever wraps, `k` blocks keep `(1949/2048)^k` of the difficulty. -/
theorem retarget_bounds :
    (∀ (parent : BlockHeader) (genesisTime now : Nat), getGenesisTimestamp parent.network = .ok genesisTime →
      genesisTime ≤ parent.timestamp → minimumDiffOf parent.network ≤ beVal parent.difficulty →
      now + timestampDriftTolerance < 2 ^ 63 →
      ∀ blockHeight blockTime : Nat, parent.timestamp < blockTime → blockTime ≤ now + timestampDriftTolerance →
        (∃ diff, getNextDiff blockHeight blockTime parent = .ok diff ∧ minimumDiffOf parent.network ≤ diff ∧
          2048 * beVal parent.difficulty ≤ 2048 * diff + 99 * beVal parent.difficulty ∧
          (2048 * diff : Int) ≤ 2048 * beVal parent.difficulty + beVal parent.difficulty +
            2048 * heightTerm64 blockHeight) ∧
        (∀ x ∈ retargetOps blockHeight blockTime parent.timestamp, IsInt64 x) ∧
        (∀ later diff diff', blockTime ≤ later → later ≤ now + timestampDriftTolerance →
          getNextDiff blockHeight blockTime parent = .ok diff →
          getNextDiff blockHeight later parent = .ok diff' → diff' ≤ diff) ∧
        (blockHeight < 2 ^ 63 →
          getNextDiff blockHeight blockTime parent = exactNextDiff blockHeight blockTime parent)) ∧
    ∀ (first : FullBlock) (blocks : List FullBlock),
      List.IsChain (fun prev block => checkBlockTarget block prev = .ok ()) (first :: blocks) →
      beVal first.header.difficulty * 1949 ^ blocks.length ≤
        beVal (blocks.getLastD first).header.difficulty * 2048 ^ blocks.length := by
  refine ⟨?_, difficulty_along⟩
  intro parent genesisTime now hgenesis hstart hmin hclock blockHeight blockTime hlt hle
  have hfits : blockTime < 2 ^ 63 := by omega
  refine ⟨getNextDiff_bounds hgenesis hstart hmin blockHeight blockTime, isInt64_retargetOps hlt hfits, ?_,
    getNextDiff_eq hlt hfits⟩
  intro later diff diff' hlater hadmitted hdiff hdiff'
  exact getNextDiff_antitone hgenesis hstart hlt hlater (by omega) hdiff hdiff'

end Chain

/-- One retarget of the genesis block, and two blocks on it. -/
theorem retarget_bounds_handChain :
    letI := Crypto.ofHash handHash
    (∃ diff, getNextDiff 1 (handGenesis.header.timestamp + 4000) handGenesis.header = .ok diff ∧ 1 ≤ diff) ∧
      beVal handGenesis.header.difficulty * 1949 ^ 2 ≤
        beVal ((handChain 1 2 handGenesis).getLastD handGenesis).header.difficulty * 2048 ^ 2 := by
  let _ := Crypto.ofHash handHash
  rcases retarget_bounds with ⟨hone, hchain⟩
  rcases hone handGenesis.header 1603497600000 handNow rfl (by decide +kernel) (by decide +kernel) (by decide +kernel) 1
    (handGenesis.header.timestamp + 4000) (by decide +kernel) (by decide +kernel) with ⟨⟨diff, hok, hmin, _⟩, _⟩
  exact ⟨⟨diff, hok, hmin⟩, hchain handGenesis (handChain 1 2 handGenesis) (by decide +kernel)⟩

/-! ## §4 — one base fee -/

/-- `q` differs from `p` by at most an eighth of `p`. -/
def WithinEighth (p q : Nat) : Prop := 7 * p ≤ 8 * q ∧ 8 * q ≤ 9 * p

instance (p q : Nat) : Decidable (WithinEighth p q) := inferInstanceAs (Decidable (_ ∧ _))

section Fee

variable {net : Network} {height parent used : Nat}

/-- The update of an active fee market on a parent at or above the floor, with one division. -/
theorem nextBaseFee_active (hactive : isForkActive net .forkFeeMarket (height + 1) = true)
    (hfloor : minBaseFee ≤ parent) :
    nextBaseFee net height parent used =
      if used = baseFeeTargetBytes then parent
      else if baseFeeTargetBytes < used then
        parent + max ((used - baseFeeTargetBytes) * parent / (8 * baseFeeTargetBytes)) 1
      else max (parent - (baseFeeTargetBytes - used) * parent / (8 * baseFeeTargetBytes)) minBaseFee := by
  have hpos : parent ≠ 0 := by
    have : 0 < minBaseFee := by decide
    omega
  unfold nextBaseFee
  rw [if_neg (by rw [hactive]; decide)]
  simp only [if_neg hpos, Nat.div_div_eq_div_mul, baseFeeMaxChangeDenom, Nat.mul_comm baseFeeTargetBytes 8]
  split_ifs
  · exact max_eq_left hfloor
  · exact max_eq_left (by omega)
  · rfl

theorem eighth_of_part (parent : Nat) {part : Nat} (h : part ≤ baseFeeTargetBytes) :
    8 * (part * parent / (8 * baseFeeTargetBytes)) ≤ parent := by
  have hpos : 0 < baseFeeTargetBytes := by decide
  have hdiv : part * parent / (8 * baseFeeTargetBytes) ≤ baseFeeTargetBytes * parent / (8 * baseFeeTargetBytes) :=
    Nat.div_le_div_right (Nat.mul_le_mul_right _ h)
  rw [Nat.mul_comm baseFeeTargetBytes, Nat.mul_div_mul_right _ _ hpos] at hdiv
  omega

theorem nextBaseFee_bounds (hactive : isForkActive net .forkFeeMarket (height + 1) = true)
    (hfloor : minBaseFee ≤ parent) (hused : used ≤ maxBlockBytes) :
    minBaseFee ≤ nextBaseFee net height parent used ∧ WithinEighth parent (nextBaseFee net height parent used) ∧
      (baseFeeTargetBytes < used → parent < nextBaseFee net height parent used) := by
  have hbig : 8 ≤ minBaseFee := by decide
  have htwice : maxBlockBytes = 2 * baseFeeTargetBytes := by decide
  have hup := eighth_of_part parent (show used - baseFeeTargetBytes ≤ baseFeeTargetBytes by omega)
  have hdown := eighth_of_part parent (show baseFeeTargetBytes - used ≤ baseFeeTargetBytes by omega)
  rw [nextBaseFee_active hactive hfloor]
  generalize (used - baseFeeTargetBytes) * parent / (8 * baseFeeTargetBytes) = up at hup ⊢
  generalize (baseFeeTargetBytes - used) * parent / (8 * baseFeeTargetBytes) = down at hdown ⊢
  unfold WithinEighth
  split_ifs <;> omega

theorem nextBaseFee_mono_used (hactive : isForkActive net .forkFeeMarket (height + 1) = true)
    (hfloor : minBaseFee ≤ parent) {used' : Nat} (hle : used ≤ used') :
    nextBaseFee net height parent used ≤ nextBaseFee net height parent used' := by
  rw [nextBaseFee_active hactive hfloor, nextBaseFee_active hactive hfloor]
  have hup : (used - baseFeeTargetBytes) * parent / (8 * baseFeeTargetBytes) ≤
      (used' - baseFeeTargetBytes) * parent / (8 * baseFeeTargetBytes) :=
    Nat.div_le_div_right (Nat.mul_le_mul_right _ (by omega))
  have hdown : (baseFeeTargetBytes - used') * parent / (8 * baseFeeTargetBytes) ≤
      (baseFeeTargetBytes - used) * parent / (8 * baseFeeTargetBytes) :=
    Nat.div_le_div_right (Nat.mul_le_mul_right _ (by omega))
  generalize (used - baseFeeTargetBytes) * parent / (8 * baseFeeTargetBytes) = up at hup ⊢
  generalize (used' - baseFeeTargetBytes) * parent / (8 * baseFeeTargetBytes) = up' at hup ⊢
  generalize (baseFeeTargetBytes - used) * parent / (8 * baseFeeTargetBytes) = down at hdown ⊢
  generalize (baseFeeTargetBytes - used') * parent / (8 * baseFeeTargetBytes) = down' at hdown ⊢
  split_ifs <;> omega

/-- A higher parent fee, no lower fee: what is taken off grows by less than the parent does. -/
theorem nextBaseFee_mono_parent (hactive : isForkActive net .forkFeeMarket (height + 1) = true)
    (hfloor : minBaseFee ≤ parent) {parent' : Nat} (hle : parent ≤ parent') :
    nextBaseFee net height parent used ≤ nextBaseFee net height parent' used := by
  have hpos : 0 < 8 * baseFeeTargetBytes := by decide
  rw [nextBaseFee_active hactive hfloor, nextBaseFee_active hactive (hfloor.trans hle)]
  have hup : (used - baseFeeTargetBytes) * parent / (8 * baseFeeTargetBytes) ≤
      (used - baseFeeTargetBytes) * parent' / (8 * baseFeeTargetBytes) :=
    Nat.div_le_div_right (Nat.mul_le_mul_left _ hle)
  have hdown : (baseFeeTargetBytes - used) * parent' / (8 * baseFeeTargetBytes) ≤
      (baseFeeTargetBytes - used) * parent / (8 * baseFeeTargetBytes) + (parent' - parent) := by
    rw [← Nat.add_mul_div_right _ _ hpos]
    apply Nat.div_le_div_right
    calc (baseFeeTargetBytes - used) * parent'
        = (baseFeeTargetBytes - used) * parent + (baseFeeTargetBytes - used) * (parent' - parent) := by
          rw [← Nat.mul_add, Nat.add_sub_cancel' hle]
      _ ≤ (baseFeeTargetBytes - used) * parent + (parent' - parent) * (8 * baseFeeTargetBytes) := by
          rw [Nat.mul_comm (baseFeeTargetBytes - used) (parent' - parent)]
          exact Nat.add_le_add_left (Nat.mul_le_mul_left _ (by omega)) _
  generalize (used - baseFeeTargetBytes) * parent / (8 * baseFeeTargetBytes) = up at hup ⊢
  generalize (used - baseFeeTargetBytes) * parent' / (8 * baseFeeTargetBytes) = up' at hup ⊢
  generalize (baseFeeTargetBytes - used) * parent / (8 * baseFeeTargetBytes) = down at hdown ⊢
  generalize (baseFeeTargetBytes - used) * parent' / (8 * baseFeeTargetBytes) = down' at hdown ⊢
  split_ifs <;> omega

end Fee

/-! ## §5 — the base fee along a chain -/

section FeeChain

variable [Crypto] {prev block : FullBlock}

theorem blockUsedBytes_le {now : Nat} {v : Unit} (h : block.checkError now = .ok v) :
    blockUsedBytes block ≤ maxBlockBytes := by
  have hsize := (FullBlock.checkError_eq_ok.mp h).size
  have hmem : Lib.Rlp.Item.list (block.txs.map FullTx.item) ∈
      [block.header.item, .list (block.txs.map FullTx.item), .list (block.uncles.map BlockHeader.item)] ++
        if block.commits? ≠ none then [Lib.Rlp.Item.list (block.commits.map Commitment.item)] else [] :=
    List.mem_append_left _ (by simp)
  have hall : ((block.txs.map FullTx.item).map fun a => (Lib.Rlp.encode a).length).sum ≤ block.raw.length := by
    rw [← Lib.Rlp.length_encodeAll]
    exact (Lib.Rlp.length_encodeAll_le _).trans (Lib.Rlp.length_encode_le_of_mem hmem)
  have hpart : blockUsedBytes block ≤ (block.txs.map fun tx => tx.raw.length).sum := by
    unfold blockUsedBytes
    exact (List.filter_sublist.map _).sum_le_sum fun _ _ => Nat.zero_le _
  rw [List.map_map] at hall
  exact hpart.trans (hall.trans hsize)

/-- **`PricedStep prev block`** — the block follows on the network, and passes the target rule and its own checks. -/
structure PricedStep (prev block : FullBlock) : Prop where
  height : block.getHeight = prev.getHeight + 1
  network : block.header.network = prev.header.network
  target : checkBlockTarget block prev = .ok ()
  checked : ∃ now, block.checkError now = .ok ()

omit [Crypto] in
theorem isForkActive_succ {net : Network} {f : Fork} {height : Nat} (h : isForkActive net f height = true) :
    isForkActive net f (height + 1) = true := by
  unfold isForkActive at h ⊢
  split
  · next hnone => rw [hnone] at h; cases h
  · next start hsome =>
    rw [hsome] at h
    have hle : start ≤ height := of_decide_eq_true h
    exact decide_eq_true (by omega)

/-- What every block of the chain has: the fee is at the floor or above, at it before the fork, and its own used bytes
are bounded. -/
structure Priced (block : FullBlock) : Prop where
  floor : minBaseFee ≤ beVal block.header.baseFee
  before : isForkActive block.header.network .forkFeeMarket block.getHeight = false →
    beVal block.header.baseFee = minBaseFee
  used : blockUsedBytes block ≤ maxBlockBytes

theorem PricedStep.priced (h : PricedStep prev block) (hprev : Priced prev) :
    Priced block ∧ WithinEighth (beVal prev.header.baseFee) (beVal block.header.baseFee) := by
  have hfee := (checkBlockTarget_facts h.target).2.2
  rcases h.checked with ⟨now, hchecked⟩
  have hused := blockUsedBytes_le hchecked
  cases hactive : isForkActive block.header.network .forkFeeMarket (prev.getHeight + 1) with
  | true =>
    have hbounds := nextBaseFee_bounds hactive hprev.floor hprev.used
    rw [← hfee] at hbounds
    refine ⟨⟨hbounds.1, ?_, hused⟩, hbounds.2.1⟩
    intro hbefore
    rw [h.height, hactive] at hbefore
    cases hbefore
  | false =>
    -- the parent is before the fork as well, and both fees are the floor
    have hparent : isForkActive prev.header.network .forkFeeMarket prev.getHeight = false := by
      rw [Bool.eq_false_iff]
      intro hearly
      rw [h.network] at hactive
      rw [isForkActive_succ hearly] at hactive
      cases hactive
    have hpinned : beVal block.header.baseFee = minBaseFee := by
      rw [hfee]
      unfold nextBaseFee
      rw [if_pos hactive]
    refine ⟨⟨hpinned.ge, fun _ => hpinned, hused⟩, ?_⟩
    rw [hpinned, hprev.before hparent]
    decide

theorem priced_along {first : FullBlock} {blocks : List FullBlock} (hfirst : Priced first)
    (h : List.IsChain PricedStep (first :: blocks)) :
    (∀ b ∈ first :: blocks, minBaseFee ≤ beVal b.header.baseFee) ∧
      List.IsChain (fun prev block => WithinEighth (beVal prev.header.baseFee) (beVal block.header.baseFee))
        (first :: blocks) := by
  induction blocks generalizing first with
  | nil => exact ⟨by simp [hfirst.floor], .singleton _⟩
  | cons block rest ih =>
    rw [List.isChain_cons_cons] at h
    rcases h.1.priced hfirst with ⟨hblock, hmove⟩
    rcases ih hblock h.2 with ⟨hall, hmoves⟩
    exact ⟨List.forall_mem_cons.mpr ⟨hfirst.floor, hall⟩, List.isChain_cons_cons.mpr ⟨hmove, hmoves⟩⟩

theorem priced_genesis {net : Network} {genesis : FullBlock} (h : getGenesisBlock net = .ok genesis) :
    Priced genesis := by
  rcases bind_eq_ok.mp h with ⟨tx, htx, h⟩
  rcases bind_eq_ok.mp htx with ⟨sign, _, hmint⟩
  rcases bind_eq_ok.mp h with ⟨_, _, h⟩
  rcases bind_eq_ok.mp h with ⟨_, _, h⟩
  obtain rfl := pure_eq_ok.mp h
  obtain rfl := pure_eq_ok.mp hmint
  have hfee : beVal (Lib.Rlp.beBytes minBaseFee) = minBaseFee := Lib.Rlp.beVal_beBytes _
  exact ⟨hfee.ge, fun _ => hfee, Nat.zero_le _⟩

/-- **The base fee moves by an eighth at most**, in the direction of the used bytes: one update of an active fee market
on a parent at or above the floor, for the used bytes of any block that passes its checks, and every block of a chain
from genesis. -/
theorem baseFee_bounds :
    (∀ (net : Network) (height parent used : Nat), isForkActive net .forkFeeMarket (height + 1) = true →
      minBaseFee ≤ parent → (∃ (now : Nat) (b : FullBlock), b.checkError now = .ok () ∧ blockUsedBytes b = used) →
        minBaseFee ≤ nextBaseFee net height parent used ∧
        WithinEighth parent (nextBaseFee net height parent used) ∧
        (baseFeeTargetBytes < used → parent < nextBaseFee net height parent used) ∧
        (∀ used', (∃ (now : Nat) (b : FullBlock), b.checkError now = .ok () ∧ blockUsedBytes b = used') →
          used ≤ used' → nextBaseFee net height parent used ≤ nextBaseFee net height parent used') ∧
        ∀ parent', parent ≤ parent' → nextBaseFee net height parent used ≤ nextBaseFee net height parent' used) ∧
    ∀ (net : Network) (genesis : FullBlock) (blocks : List FullBlock), getGenesisBlock net = .ok genesis →
      List.IsChain PricedStep (genesis :: blocks) →
      (∀ b ∈ genesis :: blocks, minBaseFee ≤ beVal b.header.baseFee) ∧
        List.IsChain (fun prev block => WithinEighth (beVal prev.header.baseFee) (beVal block.header.baseFee))
          (genesis :: blocks) := by
  refine ⟨?_, fun net genesis blocks hgenesis hchain => priced_along (priced_genesis hgenesis) hchain⟩
  rintro net height parent used hactive hfloor ⟨now, b, hchecked, rfl⟩
  rcases nextBaseFee_bounds hactive hfloor (blockUsedBytes_le hchecked) with ⟨hmin, hmove, hrise⟩
  exact ⟨hmin, hmove, hrise, fun used' _ hle => nextBaseFee_mono_used hactive hfloor hle,
    fun parent' hle => nextBaseFee_mono_parent hactive hfloor hle⟩

end FeeChain

/-- A block with a transaction of the size of its extra data. -/
def handLarge [Crypto] (size : Nat) : FullBlock :=
  handSeal handGenesis 1 [⟨ZERONET, transactTx, 1, handAddr 2, 0, 0, List.replicate size 0, none, none⟩] []

theorem roots_handLarge [Crypto] (size : Nat) :
    (handLarge size).header.prevBlockHash.length = hashSize ∧ (handLarge size).header.txTrieHash.length = hashSize ∧
      (calcContentRoot (handLarge size).txs (handLarge size).commits).val = (handLarge size).header.txTrieHash ∧
      (calcWitnessRoot (handLarge size).txs (handLarge size).commits).val = (handLarge size).header.witnessRoot :=
  ⟨handGenesis.getHash.property, (calcContentRoot _ _).property, rfl, rfl⟩

theorem checkError_handLarge {size : Nat} (hsize : size ≤ 8 * 10 ^ 6) :
    letI := Engine.bare
    (handLarge size).checkError handNow = .ok () ∧ size ≤ blockUsedBytes (handLarge size) := by
  let _ := Engine.bare
  have hword : ∀ w : Bytes32, w.val.length = 32 := fun w => w.property
  -- only lengths enter the bound of the encoded size
  have hbound : Lib.Rlp.bound (handLarge size).item = Lib.Rlp.bound (handLarge 0).item + size := by
    simp [handLarge, handSeal, FullBlock.item, FullBlock.commits, BlockHeader.item, FullTx.item, Lib.Rlp.bound,
      Lib.Rlp.boundAll, hword]
    omega
  have hempty : Lib.Rlp.bound (handLarge 0).item ≤ 1000 := by decide +kernel
  have hraw := Lib.Rlp.length_encode_le_bound (handLarge size).item (by omega)
  have hmax : maxBlockBytes = 2 ^ 23 := by decide
  -- what does not depend on the transaction
  have hrest : (handLarge 0).header.timestamp ≤ handNow + timestampDriftTolerance ∧
      (handLarge 0).header.baseFee.length ≤ diffSize ∧ calcUnclesHash [] = zero32 ∧
      0 < beVal (handLarge 0).header.difficulty ∧ 2 * beVal (handLarge 0).header.difficulty ≤ maxTarget := by
    decide +kernel
  obtain ⟨htime, hfee, huncles, hpos, htarget⟩ := hrest
  obtain ⟨hprev, hroot, hcontent, hwitness⟩ := roots_handLarge size
  constructor
  · exact FullBlock.checkError_eq_ok.mpr
      { txCount := (by decide : 2 ≤ maxBlockTxCount), commitCount := Nat.zero_le _,
        size := show (Lib.Rlp.encode _).length ≤ _ by omega, prevBlockHash := hprev, txTrieHash := hroot,
        nonce := rfl, timestamp := htime, commit := nofun, txNodup := List.nodup_singleton _,
        commitNodup := List.nodup_nil, contentRoot := hcontent, witnessRoot := hwitness,
        coinbase := (handAddr 1).property,
        unclesHashSize := hword zero32, stateRoot := hword zero32, baseFee := hfee,
        uncleCount := Nat.zero_le _,
        unclesHash := congrArg Subtype.val huncles, uncles := rfl,
        pow := FullBlock.verifyNonce_ofHash _ _ hpos htarget }
  · have hmem := Lib.Rlp.length_encode_le_of_mem (a := .str (List.replicate size 0)) (l := [.nat ZERONET.toNat,
      .nat transactTx.toNat, .nat 1, .str (handAddr 2).val, .nat 0, .nat 0, .str (List.replicate size 0)]) (by simp)
    have hstr := Lib.Rlp.length_le_encodeStr (List.replicate size 0)
    rw [List.length_replicate] at hstr
    exact hstr.trans hmem

/-- An update on a parent above the floor, by a block that uses more than the target; and two blocks on genesis. -/
theorem baseFee_bounds_handChain :
    letI := Engine.bare
    let used := blockUsedBytes (handLarge (5 * 10 ^ 6))
    baseFeeTargetBytes < used ∧ 2 * minBaseFee < nextBaseFee ZERONET 0 (2 * minBaseFee) used ∧
      WithinEighth (2 * minBaseFee) (nextBaseFee ZERONET 0 (2 * minBaseFee) used) ∧
      ∀ b ∈ handGenesis :: handChain 1 2 handGenesis, minBaseFee ≤ beVal b.header.baseFee := by
  let _ := Engine.bare
  rcases baseFee_bounds with ⟨hone, hchain⟩
  rcases checkError_handLarge (show 5 * 10 ^ 6 ≤ 8 * 10 ^ 6 by norm_num) with ⟨hchecked, hused⟩
  rcases hone ZERONET 0 (2 * minBaseFee) _ rfl (by decide) ⟨handNow, handLarge (5 * 10 ^ 6), hchecked, rfl⟩ with
    ⟨_, hmove, hrise, _⟩
  have htarget : baseFeeTargetBytes < blockUsedBytes (handLarge (5 * 10 ^ 6)) :=
    lt_of_lt_of_le (by decide : baseFeeTargetBytes < 5 * 10 ^ 6) hused
  have hsteps : List.IsChain (fun prev block => (block.getHeight = prev.getHeight + 1 ∧
      block.header.network = prev.header.network) ∧ checkBlockTarget block prev = .ok () ∧
        block.checkError handNow = .ok ()) (handGenesis :: handChain 1 2 handGenesis) := by
    decide +kernel
  have hpriced : List.IsChain PricedStep (handGenesis :: handChain 1 2 handGenesis) :=
    hsteps.imp fun _ _ h => ⟨h.1.1, h.1.2, h.2.1, handNow, h.2.2⟩
  exact ⟨htarget, hrise htarget, hmove,
    (hchain ZERONET handGenesis _ (getGenesisBlock_byHand _ ZERONET) hpriced).1⟩

end NgCore
