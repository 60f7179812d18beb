/-
# NgCore.State.Archive — historical reads, and switching the archive on and off

`balanceAtHeight`, `contractAtHeight` and their guard `checkHeightInRange` (`ngstate/changeset.go`,
`ngstate/state_external.go`), and the restarts of a node with another archive flag
(`BackfillArchive`, `ngstate/state.go`).

A `Chronicle` is a run of a node that remembers, as a history variable, the state right after every block of
its canonical chain. While every block is recorded, each of these states is the one before it plus the recorded
writes of one height (`Archived`); unwinding goes back one state, and a read as of height `h` is a read of the
state after block `h`.

`changesetCovers` looks at ONE height and `BackfillArchive` at height one only: a stretch of blocks applied with
the archive off, between two stretches with it on, is taken for recorded (`gap_misread`).

DELIVERABLE: `Chronicle.reads_exact` and, for runs that never switch the archive off, `Chronicle.archive_switched`.
-/
import NgCore.Lib.AsOf
import NgCore.State.Slots

namespace NgCore

open Lib (Bucket Versioned)

/-! ## §1 — reading the past -/

namespace State

/-- **`balanceAtHeight`** — the pre-image of the first change after the height, else the current balance. -/
def balanceAtHeight (s : State) (a : Address) (height : Nat) : Nat := (s.bal.asOf height a).getD 0

/-- **`contractAtHeight`** — likewise for the slot, its code resolved in the registry as it is now. -/
def contractAtHeight (s : State) (a : Address) (height : Nat) : Option Contract :=
  (s.contract.asOf height a).map s.decodeStoredContract

end State

/-- **`histKey`** — the raw key of the history index: the address, then the height, most significant byte
first. -/
def histKey (a : Address) (height : Nat) : Bytes := a.val ++ Lib.bigEndian 8 height

/-- The index of the model iterates as the raw keys do, at every 64-bit height: past byte boundaries too. -/
theorem compare_histKey (a b : Address) {h k : Nat} (hh : h < 2 ^ 64) (hk : k < 2 ^ 64) :
    compare (histKey a h) (histKey b k) = compare (a, h) (b, k) := by
  unfold histKey
  have hbytes : (256 : Nat) ^ 8 = 2 ^ 64 := by decide
  rw [Lib.compare_append (a.property.trans b.property.symm), Lib.compare_bigEndian, hbytes, Nat.mod_eq_of_lt hh,
    Nat.mod_eq_of_lt hk]
  rfl

/-- Why a historical read is refused. -/
inductive HistoryErr where
  | archiveDisabled | aboveTip | belowRetained | keyNotFound
  deriving DecidableEq

/-- **`checkHeightInRange`** — at most the tip, and below it covered by a row one height up. -/
def checkHeightInRange (tip height : Nat) (s : State) : Except HistoryErr Unit :=
  if tip < height then .error .aboveTip
  else if height < tip ∧ s.changesetCovers (height + 1) = false then .error .belowRetained
  else .ok ()

def getBalanceByAddressAt (archive : Bool) (tip : Nat) (s : State) (a : Address) (height : Nat) :
    Except HistoryErr Nat :=
  if archive = false then .error .archiveDisabled
  else do
    checkHeightInRange tip height s
    return s.balanceAtHeight a height

def getContractAt (archive : Bool) (tip : Nat) (s : State) (a : Address) (height : Nat) :
    Except HistoryErr Contract :=
  if archive = false then .error .archiveDisabled
  else do
    checkHeightInRange tip height s
    match s.contractAtHeight a height with
    | some account => return account
    | none => .error .keyNotFound

theorem getBalanceByAddressAt_eq_ok {archive : Bool} {tip height amount : Nat} {s : State} {a : Address}
    (h : getBalanceByAddressAt archive tip s a height = .ok amount) :
    archive = true ∧ s.balanceAtHeight a height = amount := by
  unfold getBalanceByAddressAt at h
  split at h
  · cases h
  · next harchive =>
    refine ⟨by simpa using harchive, ?_⟩
    cases hrange : checkHeightInRange tip height s with
    | error e =>
      rw [hrange] at h
      cases h
    | ok u =>
      rw [hrange] at h
      exact Except.ok.inj h

theorem getContractAt_eq_ok {archive : Bool} {tip height : Nat} {s : State} {a : Address} {account : Contract}
    (h : getContractAt archive tip s a height = .ok account) :
    archive = true ∧ s.contractAtHeight a height = some account := by
  unfold getContractAt at h
  split at h
  · cases h
  · next harchive =>
    refine ⟨by simpa using harchive, ?_⟩
    cases hrange : checkHeightInRange tip height s with
    | error e =>
      rw [hrange] at h
      cases h
    | ok u =>
      rw [hrange] at h
      replace h : (match s.contractAtHeight a height with
        | some account => pure account | none => .error .keyNotFound : Except HistoryErr Contract) = .ok account := h
      cases hread : s.contractAtHeight a height with
      | none =>
        rw [hread] at h
        cases h
      | some account' =>
        rw [hread] at h
        exact congrArg some (Except.ok.inj h)

/-! ## §2 — runs that remember -/

/-- **`needsBackfill`** — `BackfillArchive` replays the chain: the archive is on, there is a block above the
genesis, and height one has no row. -/
def needsBackfill (archive : Bool) (tip : Nat) (s : State) : Bool :=
  archive ∧ 0 < tip ∧ s.changesetCovers 1 = false

section Runs

variable [Engine]

/-- **`Chronicle network ok archive past s`** — the states of a node that started from genesis. `past` lists the
states right after the blocks of its canonical chain, by height; `ok was now` says which restarts happen.
A reorg is an unwind, or a reset, followed by the blocks of the branch. -/
inductive Chronicle (network : Network) (ok : Bool → Bool → Prop) : Bool → List State → State → Prop where
  | fresh (archive : Bool) : Chronicle network ok archive [] (State.empty.initFromSheet State.getGenesisSheet)
  | apply {archive : Bool} {past : List State} {s s' : State} {block : FullBlock} :
      Chronicle network ok archive past s → block.getHeight = past.length →
      (upgrade ⟨network, archive⟩ block).exec s = .ok ((), s') → Chronicle network ok archive (past ++ [s']) s'
  | unwind {archive : Bool} {past : List State} {s s' : State} {target : Nat} :
      Chronicle network ok archive past s → State.unwindTo ⟨network, archive⟩ (past.length - 1) target s = some s' →
      Chronicle network ok archive (past.take (target + 1)) s'
  | reset {archive : Bool} {past : List State} {s : State} : Chronicle network ok archive past s →
      Chronicle network ok archive [] (s.rebuildFromSheet State.getGenesisSheet)
  | restart {was now : Bool} {past : List State} {s : State} : Chronicle network ok was past s → ok was now →
      needsBackfill now (past.length - 1) s = false → Chronicle network ok now past s
  | backfill {was now : Bool} {past : List State} {s : State} : Chronicle network ok was past s → ok was now →
      needsBackfill now (past.length - 1) s = true →
      Chronicle network ok now [] (s.rebuildFromSheet State.getGenesisSheet)

variable {network : Network} {ok : Bool → Bool → Prop}

theorem Chronicle.upgradesTo {archive : Bool} {past : List State} {s s' : State} {blocks : List FullBlock}
    (h : Chronicle network ok archive past s)
    (hheights : blocks.map FullBlock.getHeight = List.range' past.length blocks.length)
    (hrun : UpgradesTo ⟨network, archive⟩ s blocks s') :
    ∃ past', Chronicle network ok archive (past ++ past') s' ∧ past'.length = blocks.length := by
  induction hrun generalizing past with
  | nil => exact ⟨[], by rwa [List.append_nil], rfl⟩
  | @cons s t u block blocks head tail ih =>
    rw [List.length_cons, List.range'_succ, List.map_cons, List.cons.injEq] at hheights
    have hnext := h.apply hheights.1 head
    obtain ⟨past', hpast, hlength⟩ := ih hnext (by rw [List.length_append]; exact hheights.2)
    exact ⟨t :: past', by rwa [List.append_assoc] at hpast, by rw [List.length_cons, List.length_cons, hlength]⟩

theorem Chronicle.genesis {archive : Bool} {s : State} (hinit : State.initStateFromGenesis ⟨network, archive⟩ = .ok s) :
    Chronicle network ok archive [s] s := by
  obtain ⟨g, hg, hrun⟩ := State.initStateFromGenesis_eq_ok hinit
  exact (Chronicle.fresh archive).apply (getGenesisBlock_ok hg).2.1 hrun

/-! ## §3 — a fully recorded past -/

/-- **`Archived past s`** — each remembered state is the one before it after the recorded writes of one height,
the last one has the domains of `s`, and all their code is still stored. -/
structure Archived (past : List State) (s : State) : Prop where
  kept : s.Kept past.length
  same : ∀ t : State, past.getLast? = some t → s.SameDomains t
  since : ∀ (h : Nat) (t t' : State), past[h]? = some t → past[h + 1]? = some t' → SinceState (h + 1) t t'
  below : ∀ (h : Nat) (t : State), past[h]? = some t → t.Below (h + 1)
  grown : ∀ t ∈ past, t.Coded ∧ State.CodeGrows t s

omit [Engine] in
theorem archived_nil {s : State} (h : s.Kept 0) : Archived [] s where
  kept := h
  same _ ht := by cases ht
  since _ _ _ ht := by simp at ht
  below _ _ ht := by simp at ht
  grown _ ht := by cases ht

omit [Engine] in
theorem getElem?_snoc {α : Type} {l : List α} {x y : α} {i : Nat} :
    (l ++ [x])[i]? = some y ↔ l[i]? = some y ∨ i = l.length ∧ x = y := by
  rw [List.getElem?_append]
  split
  · next hlt =>
    constructor
    · exact .inl
    · rintro (h | ⟨rfl, -⟩)
      · exact h
      · exact absurd hlt (lt_irrefl _)
  · next hge =>
    rw [List.getElem?_eq_none (not_lt.mp hge)]
    by_cases heq : i = l.length
    · simp [heq]
    · have hpos : i - l.length ≠ 0 := by omega
      rw [List.getElem?_eq_none (by simp; omega)]
      simp [heq]

/-- **One recorded block.** -/
theorem Archived.apply {past : List State} {s s' : State} (h : Archived past s) {block : FullBlock}
    (hheight : block.getHeight = past.length) (hrun : (upgrade ⟨network, true⟩ block).exec s = .ok ((), s')) :
    Archived (past ++ [s']) s' := by
  have hkept : s'.Kept (past.length + 1) := h.kept.upgrade rfl hheight hrun
  have hsince : SinceState past.length s s' := by
    have hbelow : s.Below block.getHeight := by
      rw [hheight]
      exact h.kept.below
    rw [← hheight]
    exact since_upgrade rfl hrun hbelow
  have hgrows : State.CodeGrows s s' := (coded_upgrade rfl hrun h.kept.coded).2
  refine ⟨?_, ?_, ?_, ?_, ?_⟩
  · rw [List.length_append]
    exact hkept
  · intro t ht
    rw [List.getLast?_append, List.getLast?_singleton] at ht
    obtain rfl := Option.some.inj ht
    exact ⟨rfl, rfl, rfl, rfl⟩
  · intro k t t' ht ht'
    rcases getElem?_snoc.mp ht' with hold | ⟨hk, rfl⟩
    · rcases getElem?_snoc.mp ht with hold' | ⟨hk', -⟩
      · exact h.since k t t' hold' hold
      · have hlt := (List.getElem?_eq_some_iff.mp hold).1
        omega
    · -- the newest height: what was on top has the domains of `s`
      have hlast : past.getLast? = some t := by
        rcases getElem?_snoc.mp ht with hold' | ⟨hk', -⟩
        · rw [List.getLast?_eq_getElem?, ← hk]
          exact hold'
        · omega
      have htop := h.same t hlast
      rw [hk]
      exact ⟨htop.bal ▸ hsince.bal, htop.contract ▸ hsince.contract, htop.key ▸ hsince.key,
        htop.beacon ▸ hsince.beacon⟩
  · intro k t ht
    rcases getElem?_snoc.mp ht with hold | ⟨rfl, rfl⟩
    · exact h.below k t hold
    · exact hkept.below
  · intro t ht
    rcases List.mem_append.mp ht with hold | hnew
    · exact ⟨(h.grown t hold).1, (h.grown t hold).2.trans hgrows⟩
    · rw [List.mem_singleton.mp hnew]
      exact ⟨hkept.coded, State.CodeGrows.of_eq rfl⟩

/-- **One height unwound**: back to the state before. -/
theorem Archived.unwindHeight {past : List State} {t s : State} (h : Archived (past ++ [t]) s) (hne : past ≠ []) :
    Archived past (s.unwindHeight past.length) := by
  have hlen : past.length - 1 + 1 = past.length := Nat.sub_add_cancel (List.length_pos_iff.mpr hne)
  have hkept := h.kept
  rw [List.length_append, List.length_singleton] at hkept
  refine ⟨⟨hkept.below.unwindHeight, hkept.coded.unwindHeight _⟩, ?_, ?_, ?_, ?_⟩
  · intro u hu
    have hu' : (past ++ [t])[past.length - 1]? = some u := by
      rw [List.getLast?_eq_getElem?] at hu
      exact getElem?_snoc.mpr (.inl hu)
    have ht : (past ++ [t])[past.length - 1 + 1]? = some t := getElem?_snoc.mpr (.inr ⟨hlen, rfl⟩)
    have hsince := h.since _ u t hu' ht
    have hbelow := h.below _ u hu'
    rw [hlen] at hsince hbelow
    exact State.SinceState.revert hbelow hsince (h.same t (by rw [List.getLast?_append]; rfl))
  · exact fun k u u' hu hu' => h.since k u u' (getElem?_snoc.mpr (.inl hu)) (getElem?_snoc.mpr (.inl hu'))
  · exact fun k u hu => h.below k u (getElem?_snoc.mpr (.inl hu))
  · intro u hu
    obtain ⟨hcoded, hgrows⟩ := h.grown u (List.mem_append_left _ hu)
    exact ⟨hcoded, hgrows.trans (State.CodeGrows.of_eq (State.code_unwindHeight past.length s))⟩

/-- **Every height above the target unwound.** -/
theorem Archived.unwindHeights {past : List State} {s : State} (h : Archived past s) {target depth : Nat}
    (hlength : past.length = target + 1 + depth) :
    Archived (past.take (target + 1)) (s.unwindHeights target depth) := by
  induction depth generalizing past s with
  | zero =>
    rw [List.take_of_length_le (by omega)]
    exact h
  | succ depth ih =>
    -- take the newest state off
    have hne : past ≠ [] := by
      rintro rfl
      simp at hlength
    obtain ⟨rest, t, rfl⟩ := (List.eq_nil_or_concat past).resolve_left hne
    rw [List.concat_eq_append] at h hlength ⊢
    rw [List.length_append, List.length_singleton] at hlength
    have hrest : rest.length = target + 1 + depth := by omega
    have hdown := h.unwindHeight (by rw [← List.length_pos_iff]; omega)
    rw [List.take_append_of_le_length (by omega), State.unwindHeights,
      show target + depth + 1 = rest.length by omega]
    exact ih hdown hrest

omit [Engine] in
theorem asOf_chain {V : Type} {past : List State} {d : State → Versioned Address V}
    (hsince : ∀ (h : Nat) (t t' : State), past[h]? = some t → past[h + 1]? = some t' →
      Versioned.Since true (h + 1) (d t) (d t'))
    (hbelow : ∀ (h : Nat) (t : State), past[h]? = some t → Versioned.Below true (h + 1) (d t)) {h : Nat} {t : State}
    (ht : past[h]? = some t) (a : Address) (k : Nat) {u : State} (hu : past[h + k]? = some u) :
    (d u).asOf h a = (d t).cur[a]? := by
  induction k generalizing u with
  | zero =>
    obtain rfl : t = u := Option.some.inj (ht.symm.trans hu)
    exact Versioned.asOf_top (hbelow h t ht) a
  | succ k ih =>
    obtain ⟨w, hw⟩ : ∃ w, past[h + k]? = some w := by
      have hlt := (List.getElem?_eq_some_iff.mp hu).1
      exact ⟨_, List.getElem?_eq_getElem (by omega)⟩
    rw [← ih hw]
    exact Versioned.asOf_since (by omega) (hbelow _ w hw) (hsince _ w u hw hu) a

omit [Engine] in
/-- **A fully recorded past is read exactly.** -/
theorem Archived.reads {past : List State} {s : State} (h : Archived past s) {k : Nat} {t : State}
    (ht : past[k]? = some t) (a : Address) :
    s.balanceAtHeight a k = t.getBalance a ∧ s.contractAtHeight a k = t.getContract a := by
  have hlt := (List.getElem?_eq_some_iff.mp ht).1
  obtain ⟨u, hu⟩ : ∃ u, past.getLast? = some u := by
    rw [List.getLast?_eq_getElem?]
    exact ⟨_, List.getElem?_eq_getElem (by omega)⟩
  have hsame := h.same u hu
  rw [List.getLast?_eq_getElem?, show past.length - 1 = k + (past.length - 1 - k) by omega] at hu
  constructor
  · unfold State.balanceAtHeight State.getBalance
    rw [hsame.bal, asOf_chain (d := State.bal) (fun i x y hx hy => (h.since i x y hx hy).bal)
      (fun i x hx => (h.below i x hx).bal) ht a _ hu]
  · unfold State.contractAtHeight State.getContract
    rw [hsame.contract, asOf_chain (d := State.contract) (fun i x y hx hy => (h.since i x y hx hy).contract)
      (fun i x hx => (h.below i x hx).contract) ht a _ hu]
    -- the registry still has the code the slot had then
    obtain ⟨hcoded, hgrows⟩ := h.grown t (List.mem_of_getElem? ht)
    have hresolve := State.getContract_of_codeGrows (u := { s with contract := t.contract }) hcoded hgrows rfl a
    exact hresolve

omit [Engine] in
/-- The top of a fully recorded past: balances, slots with their code, keys and the beacon. -/
theorem Archived.domains {past : List State} {s : State} (h : Archived past s) {t : State}
    (ht : past.getLast? = some t) :
    (∀ a, s.getBalance a = t.getBalance a) ∧ (∀ a, s.getContract a = t.getContract a) ∧
      s.key = t.key ∧ s.beacon = t.beacon := by
  have hsame := h.same t ht
  refine ⟨?_, ?_, hsame.key, hsame.beacon⟩
  · intro a
    unfold State.getBalance
    rw [hsame.bal]
  · obtain ⟨hcoded, hgrows⟩ := h.grown t (List.mem_of_getLast? ht)
    exact State.getContract_of_codeGrows hcoded hgrows hsame.contract

/-! ## §4 — nodes that never switch the archive off -/

omit [Engine] in
theorem State.Counted.toKept {s : State} (h : s.Counted) (hbelow : s.Below 0) : s.Kept 0 := by
  refine ⟨hbelow, ⟨fun a sc hsc => h.stored hsc, ?_⟩⟩
  intro k a sc hsc
  rw [hbelow.contract.cs k a (Nat.zero_le k)] at hsc
  cases hsc

omit [Engine] in
theorem Write.below_step [Crypto] {p : Bytes → Prop} {N : List RunNote → Prop} {w : Write} (hw : w.Permitted none p N)
    {s : State} {n : Nat} (h : s.Below n) : (w.step s).Below n := by
  cases w with
  | setBalance rec a v =>
    obtain rfl : rec = none := hw
    exact ⟨⟨h.bal.cs, h.bal.hist⟩, h.contract, h.key, h.beacon⟩
  | setContract rec account =>
    obtain rfl : rec = none := hw.1
    obtain ⟨code, hcode⟩ := State.reconcileCode_eq none account s
    show (s.setContract none account).Below n
    unfold State.setContract
    simp only [hcode]
    exact ⟨h.bal, ⟨h.contract.cs, h.contract.hist⟩, h.key, h.beacon⟩
  | delContract rec a =>
    obtain rfl : rec = none := hw
    obtain ⟨code, hcode⟩ := State.releaseSlot_eq none a s
    show (s.delContract none a).Below n
    unfold State.delContract
    simp only [hcode]
    exact ⟨h.bal, ⟨h.contract.cs, h.contract.hist⟩, h.key, h.beacon⟩
  | registerPubKey rec a scheme pubKey =>
    obtain rfl : rec = none := hw
    show (s.registerPubKey none a (scheme :: pubKey)).Below n
    unfold State.registerPubKey
    split
    · exact h
    · exact ⟨h.bal, h.contract, ⟨h.key.cs, h.key.hist⟩, h.beacon⟩
  | setBeacon rec seed =>
    obtain rfl : rec = none := hw
    exact ⟨h.bal, h.contract, h.key, ⟨h.beacon.cs, h.beacon.hist⟩⟩
  | pruneCommits tip =>
    show (s.pruneCommits tip).Below n
    unfold State.pruneCommits
    split
    · exact h
    · have hsame := State.stores_dropCommits (fun h => h < tip - commitWindow) s
      obtain ⟨hbal, hcontract, hkey, hbeacon, -⟩ := Stores.mk.inj hsame
      refine ⟨?_, ?_, ?_, ?_⟩
      · rw [hbal]; exact h.bal
      · rw [hcontract]; exact h.contract
      · rw [hkey]; exact h.key
      · rw [hbeacon]; exact h.beacon
  | putCommit | consumeCommit | journalConsumed | notes | apply => exact ⟨h.bal, h.contract, h.key, h.beacon⟩

theorem below_upgrade {block : FullBlock} {s s' : State} {n : Nat} (h : s.Below n)
    (hrun : (upgrade ⟨network, false⟩ block).exec s = .ok ((), s')) : s'.Below n :=
  Lib.Txn.run_preserves (I := State.Below n) (fun _ _ => trivial) (fun w _ hw ht => w.below_step hw ht)
    (writes_upgrade walks_any ⟨network, false⟩ fun _ _ _ _ _ => trivial) hrun h

omit [Engine] in
theorem changesetCovers_of_below {s : State} (h : s.Below 0) (k : Nat) : s.changesetCovers k = false := by
  unfold State.changesetCovers
  rw [List.any_eq_false]
  rintro ⟨⟨k', a⟩, o⟩ hmem
  rw [Bucket.mem_toList_iff, h.bal.cs k' a (Nat.zero_le k')] at hmem
  cases hmem

omit [Engine] in
theorem State.Below.mono {s : State} {m n : Nat} (h : s.Below m) (hle : m ≤ n) : s.Below n where
  bal := ⟨fun k a hk => h.bal.cs k a (hle.trans hk), h.bal.hist⟩
  contract := ⟨fun k a hk => h.contract.cs k a (hle.trans hk), h.contract.hist⟩
  key := ⟨fun k a hk => h.key.cs k a (hle.trans hk), h.key.hist⟩
  beacon := ⟨fun k a hk => h.beacon.cs k a (hle.trans hk), h.beacon.hist⟩

/-- What holds along such a run: with the archive on the past is fully recorded; before it was switched on, there
is no row at all and the code counts are exact. -/
structure Retained (archive : Bool) (past : List State) (s : State) : Prop where
  genuine : s.Genuine
  on : archive = true → Archived past s
  off : archive = false → s.Below 0 ∧ s.Counted ∧ ∀ t, past.getLast? = some t → t = s

theorem retained_nil {s : State} (archive : Bool) (hgenuine : s.Genuine) (hcounted : s.Counted) (hkept : s.Kept 0) :
    Retained archive [] s where
  genuine := hgenuine
  on _ := archived_nil hkept
  off _ := ⟨hkept.below, hcounted, fun _ ht => by cases ht⟩

theorem retained_reset (archive : Bool) (s : State) : Retained archive [] (s.rebuildFromSheet State.getGenesisSheet) := by
  have hsheltered := State.sheltered_rebuildFromSheet ⟨ZERONET, false⟩ State.getGenesisSheet s
  exact retained_nil archive hsheltered.genuine (hsheltered.counted rfl)
    (State.kept_empty (State.stores_rebuildFromGenesisSheet s))

theorem Retained.apply {archive : Bool} {past : List State} {s s' : State} {block : FullBlock}
    (h : Retained archive past s) (hheight : block.getHeight = past.length)
    (hrun : (upgrade ⟨network, archive⟩ block).exec s = .ok ((), s')) : Retained archive (past ++ [s']) s' where
  genuine := Lib.Txn.run_preserves (I := State.Genuine) (fun _ _ => trivial) (fun w _ _ ht => w.genuine_step ht)
    (Lib.Txn.writes_any _) hrun h.genuine
  on harchive := by
    subst harchive
    exact (h.on rfl).apply hheight hrun
  off harchive := by
    subst harchive
    obtain ⟨hbelow, hcounted, -⟩ := h.off rfl
    have hsheltered : s.Sheltered ⟨network, false⟩ := ⟨h.genuine, (fun hon => by cases hon), fun _ => hcounted⟩
    refine ⟨below_upgrade hbelow hrun, (hsheltered.upgrade hrun).counted rfl, ?_⟩
    intro t ht
    rw [List.getLast?_append, List.getLast?_singleton] at ht
    exact (Option.some.inj ht).symm

omit [Engine] in
/-- Switching the archive on over an unrecorded past of one block, or none. -/
theorem archived_of_off {past : List State} {s : State} (hbelow : s.Below 0) (hcounted : s.Counted)
    (htop : ∀ t, past.getLast? = some t → t = s) (hshort : past.length ≤ 1) : Archived past s := by
  have hkept := hcounted.toKept hbelow
  rcases past with _ | ⟨t, _ | ⟨u, l⟩⟩
  · exact archived_nil hkept
  · obtain rfl : t = s := htop t rfl
    refine ⟨⟨hbelow.mono (Nat.zero_le 1), hkept.coded⟩, ?_, ?_, ?_, ?_⟩
    · intro u hu
      obtain rfl := Option.some.inj hu
      exact ⟨rfl, rfl, rfl, rfl⟩
    · intro k u u' _ hu'
      simp at hu'
    · intro k u hu
      obtain ⟨rfl, rfl⟩ : k = 0 ∧ t = u := by
        cases k with
        | zero => exact ⟨rfl, Option.some.inj hu⟩
        | succ k => simp at hu
      exact hbelow.mono (Nat.zero_le 1)
    · intro u hu
      rw [List.mem_singleton.mp hu]
      exact ⟨hkept.coded, State.CodeGrows.of_eq rfl⟩
  · simp only [List.length_cons] at hshort
    omega

theorem Chronicle.retained {archive : Bool} {past : List State} {s : State}
    (hok : ∀ was now, ok was now → was = true → now = true) (h : Chronicle network ok archive past s) :
    Retained archive past s := by
  induction h with
  | fresh archive => exact retained_nil archive State.genuine_empty State.counted_empty (State.kept_empty rfl)
  | apply _ hheight hrun ih => exact ih.apply hheight hrun
  | @unwind archive past s s' target _ hunwind ih =>
    unfold State.unwindTo at hunwind
    split at hunwind
    · cases hunwind
    · next harchive =>
      obtain rfl : archive = true := by simpa using harchive
      have harchived := ih.on rfl
      split at hunwind
      · next hle =>
        obtain rfl := Option.some.inj hunwind
        rw [List.take_of_length_le (by omega)]
        exact ih
      · next hlt =>
        split at hunwind
        · cases hunwind
        · obtain rfl := Option.some.inj hunwind
          have hlength : past.length = target + 1 + (past.length - 1 - target) := by omega
          have hdown := harchived.unwindHeights hlength
          refine ⟨?_, fun _ => hdown, fun hoff => by cases hoff⟩
          unfold State.Genuine
          rw [State.code_unwindHeights]
          exact ih.genuine
  | reset _ _ => exact retained_reset _ _
  | @restart was now past s _ hswitch hcovered ih =>
    refine ⟨ih.genuine, ?_, ?_⟩
    · intro hnow
      cases hwas : was with
      | true => exact ih.on hwas
      | false =>
        -- no row at all: the replay was not needed because there was nothing to replay
        obtain ⟨hbelow, hcounted, htop⟩ := ih.off hwas
        apply archived_of_off hbelow hcounted htop
        by_contra hlong
        simp only [needsBackfill, hnow, changesetCovers_of_below hbelow, decide_eq_false_iff_not, not_and] at hcovered
        exact hcovered trivial (by omega) trivial
    · intro hnow
      cases hwas : was with
      | true => rw [hok was now hswitch hwas] at hnow; cases hnow
      | false => exact ih.off hwas
  | backfill _ _ _ _ => exact retained_reset _ _

/-! ## §5 — the two results -/

/-- **Historical reads are exact**: with every block applied with the archive on, the balance and the contract
read as of a height are those of the state right after the canonical block of that height. -/
theorem Chronicle.reads_exact {past : List State} {s : State}
    (h : Chronicle network (fun was now => was = true ∧ now = true) true past s) :
    ∀ (k : Nat) (t : State), past[k]? = some t →
      ∀ a, s.balanceAtHeight a k = t.getBalance a ∧ s.contractAtHeight a k = t.getContract a := by
  have hretained := h.retained fun _ _ hon _ => hon.2
  intro k t ht a
  exact (hretained.on rfl).reads ht a

end Runs

/-- A block of key 5 instead of the one key 2 mined. -/
def rivalBlock : FullBlock :=
  letI := Crypto.ofHash handHash
  handSeal (sharedChain.getD 0 handGenesis) 5 [] []

/-- Three blocks, two of them unwound, another one instead: the reads see the new chain. -/
theorem reads_exact_rivalBlock :
    letI := Engine.byHand idleTable
    ∃ past s, Chronicle ZERONET (fun was now => was = true ∧ now = true) true past s ∧ past.length = 3 ∧
      s.balanceAtHeight (handAddr 1) 0 = 0 ∧ s.balanceAtHeight (handAddr 1) 1 = getBlockReward 1 ∧
      s.balanceAtHeight (handAddr 2) 2 = 0 ∧ s.balanceAtHeight (handAddr 5) 2 = getBlockReward 2 ∧
      ∀ (k : Nat) (t : State), past[k]? = some t →
        ∀ a, s.balanceAtHeight a k = t.getBalance a ∧ s.contractAtHeight a k = t.getContract a := by
  let _ := Engine.byHand idleTable
  let tip := State.after (upgradeAll ⟨ZERONET, true⟩ sharedChain (State.genesis true))
  let rival := (upgrade ⟨ZERONET, true⟩ rivalBlock).exec (tip.unwindHeights 1 2)
  -- one evaluation of the run answers every question about its states
  have hall : ((upgradeAll ⟨ZERONET, true⟩ sharedChain (State.genesis true)).isOk = true ∧ rival.isOk = true ∧
        tip.changesetCovers 2 = true) ∧
      (State.after rival).balanceAtHeight (handAddr 1) 0 = 0 ∧
      (State.after rival).balanceAtHeight (handAddr 1) 1 = getBlockReward 1 ∧
      (State.after rival).balanceAtHeight (handAddr 2) 2 = 0 ∧
      (State.after rival).balanceAtHeight (handAddr 5) 2 = getBlockReward 2 := by
    decide +kernel
  rcases hall with ⟨⟨hruns, hrivals, hcovers⟩, hread₁, hread₂, hread₃, hread₄⟩
  have hrun : upgradeAll ⟨ZERONET, true⟩ sharedChain (State.genesis true) = .ok ((), tip) := State.eq_after hruns
  have hrival : rival = .ok ((), State.after rival) := State.eq_after hrivals
  have hunwind : State.unwindTo ⟨ZERONET, true⟩ 3 1 tip = some (tip.unwindHeights 1 2) := by
    unfold State.unwindTo
    rw [if_neg (by decide), if_neg (by decide), if_neg (by rw [hcovers]; decide)]
  have hgenesis : Chronicle ZERONET (fun was now => was = true ∧ now = true) true [State.genesis true]
      (State.genesis true) := Chronicle.genesis (State.genesis_eq true)
  obtain ⟨later, hlong, hlater⟩ := hgenesis.upgradesTo (by decide +kernel) (upgradesTo_of_upgradeAll hrun)
  have hthree : later.length = 3 := hlater
  have hlength : ([State.genesis true] ++ later).length - 1 = 3 := by rw [List.length_append, hthree]; rfl
  have hback := hlong.unwind (hlength.symm ▸ hunwind)
  have hnext := hback.apply (by rw [List.length_take, List.length_append, hthree]; decide +kernel) hrival
  refine ⟨_, _, hnext, ?_, hread₁, hread₂, hread₃, hread₄, hnext.reads_exact⟩
  rw [List.length_append, List.length_take, List.length_append, hthree]
  rfl

section Runs

variable [Engine] {network : Network} {ok : Bool → Bool → Prop}

/-- **`Truthful`** — a successful unwind ends in the balances, contracts, keys and beacon of its target, a
successful historical read returns the value of its height, and the code of every slot is stored. -/
structure Truthful (network : Network) (archive : Bool) (past : List State) (s : State) : Prop where
  unwound : ∀ (target : Nat) (s' t : State),
    State.unwindTo ⟨network, archive⟩ (past.length - 1) target s = some s' → past[target]? = some t →
      (∀ a, s'.getBalance a = t.getBalance a) ∧ (∀ a, s'.getContract a = t.getContract a) ∧
        s'.key.cur = t.key.cur ∧ s'.beacon.cur = t.beacon.cur
  balance : ∀ (a : Address) (k amount : Nat) (t : State),
    getBalanceByAddressAt archive (past.length - 1) s a k = .ok amount → past[k]? = some t → amount = t.getBalance a
  contract : ∀ (a : Address) (k : Nat) (account : Contract) (t : State),
    getContractAt archive (past.length - 1) s a k = .ok account → past[k]? = some t → t.getContract a = some account
  code : ∀ (a : Address) (sc : StoredContract), s.contract.cur[a]? = some sc →
    ∃ refs code, s.code[sc.codeHash]? = some (refs, code) ∧ hash256 code = sc.codeHash

/-- **The archive may be switched on safely**, as long as it is never switched off again. -/
theorem Chronicle.archive_switched {archive : Bool} {past : List State} {s : State}
    (h : Chronicle network (fun was now => was = true → now = true) archive past s) :
    Truthful network archive past s := by
  have hretained := h.retained fun _ _ hswitch => hswitch
  refine ⟨?_, ?_, ?_, ?_⟩
  · intro target s' t hunwind ht
    have hlt := (List.getElem?_eq_some_iff.mp ht).1
    have hnext := (h.unwind hunwind).retained fun _ _ hswitch => hswitch
    have harchive : archive = true := by
      unfold State.unwindTo at hunwind
      split at hunwind
      · cases hunwind
      · next harchive => simpa using harchive
    have hlast : (past.take (target + 1)).getLast? = some t := by
      rw [List.getLast?_eq_getElem?, List.length_take, Nat.min_eq_left (by omega), Nat.add_sub_cancel,
        List.getElem?_take_of_lt (Nat.lt_succ_self target)]
      exact ht
    obtain ⟨hbal, hcontract, hkey, hbeacon⟩ := (hnext.on harchive).domains hlast
    exact ⟨hbal, hcontract, by rw [hkey], by rw [hbeacon]⟩
  · intro a k amount t hread ht
    obtain ⟨harchive, rfl⟩ := getBalanceByAddressAt_eq_ok hread
    exact ((hretained.on harchive).reads ht a).1
  · intro a k account t hread ht
    obtain ⟨harchive, haccount⟩ := getContractAt_eq_ok hread
    rw [← ((hretained.on harchive).reads ht a).2]
    exact haccount
  · intro a sc hsc
    have hstored : s.code[sc.codeHash]? ≠ none := by
      cases harchive : archive with
      | true => exact (hretained.on harchive).kept.coded.cur a sc hsc
      | false => exact (hretained.off harchive).2.1.stored hsc
    obtain ⟨⟨refs, code⟩, hcode⟩ := Option.ne_none_iff_exists'.mp hstored
    exact ⟨refs, code, hcode, hretained.genuine _ _ hcode⟩

end Runs

/-- Blocks of keys 1, 2 and 3. -/
def gapChain : List FullBlock :=
  letI := Crypto.ofHash handHash
  let b1 := handSeal handGenesis 1 [] []
  let b2 := handSeal b1 2 [] []
  [b1, b2, handSeal b2 3 [] []]

/-- A node without an archive applies two blocks, is restarted with one and replays them. -/
theorem archive_switched_gapChain :
    letI := Engine.byHand idleTable
    ∃ past s, Chronicle ZERONET (fun was now => was = true → now = true) true past s ∧ past.length = 3 ∧
      getBalanceByAddressAt true 2 s (handAddr 2) 1 = .ok 0 ∧
      getBalanceByAddressAt true 2 s (handAddr 2) 2 = .ok (getBlockReward 2) ∧ Truthful ZERONET true past s := by
  let _ := Engine.byHand idleTable
  let blocks := gapChain.take 2
  let tip := State.after (upgradeAll ⟨ZERONET, false⟩ blocks (State.genesis false))
  let replayed := upgradeAll ⟨ZERONET, true⟩ (handGenesis :: blocks) (tip.rebuildFromSheet State.getGenesisSheet)
  -- one evaluation of both runs
  have hall : ((upgradeAll ⟨ZERONET, false⟩ blocks (State.genesis false)).isOk = true ∧ replayed.isOk = true) ∧
      needsBackfill true 2 tip = true ∧
      getBalanceByAddressAt true 2 (State.after replayed) (handAddr 2) 1 = .ok 0 ∧
      getBalanceByAddressAt true 2 (State.after replayed) (handAddr 2) 2 = .ok (getBlockReward 2) := by
    decide +kernel
  rcases hall with ⟨⟨hruns, hreplays⟩, hneeds, hread₁, hread₂⟩
  have hrun : upgradeAll ⟨ZERONET, false⟩ blocks (State.genesis false) = .ok ((), tip) := State.eq_after hruns
  have hgenesis : Chronicle ZERONET (fun was now => was = true → now = true) false [State.genesis false]
      (State.genesis false) := Chronicle.genesis (State.genesis_eq false)
  obtain ⟨later, hlong, hlater⟩ := hgenesis.upgradesTo (by decide +kernel) (upgradesTo_of_upgradeAll hrun)
  have hlength : ([State.genesis false] ++ later).length - 1 = 2 := by
    rw [List.length_append, hlater]
    rfl
  have hreset := hlong.backfill (fun h => by cases h) (hlength.symm ▸ hneeds)
  have hreplay : replayed = .ok ((), State.after replayed) := State.eq_after hreplays
  obtain ⟨past, hdone, hpast⟩ := hreset.upgradesTo (by decide +kernel) (upgradesTo_of_upgradeAll hreplay)
  exact ⟨_, _, hdone, hpast, hread₁, hread₂, hdone.archive_switched⟩

/-- **A gap in the record goes unnoticed**: block one is recorded, block two is applied with the archive off, block
three with it on again. Height one has rows, so nothing is replayed and the whole range counts as covered; the
reward of block two is then read as of height zero, and survives an unwind to it. -/
theorem gap_misread :
    letI := Engine.byHand idleTable
    ∃ past s t s', Chronicle ZERONET (fun _ _ => True) true past s ∧ past.length = 4 ∧ past[0]? = some t ∧
      t.getBalance (handAddr 2) = 0 ∧
      getBalanceByAddressAt true 3 s (handAddr 2) 0 = .ok (getBlockReward 2) ∧
      State.unwindTo ⟨ZERONET, true⟩ 3 0 s = some s' ∧ s'.getBalance (handAddr 2) = getBlockReward 2 := by
  let _ := Engine.byHand idleTable
  let one := State.after (upgradeAll ⟨ZERONET, true⟩ (gapChain.take 1) (State.genesis true))
  let two := State.after (upgradeAll ⟨ZERONET, false⟩ ((gapChain.drop 1).take 1) one)
  let three := State.after (upgradeAll ⟨ZERONET, true⟩ (gapChain.drop 2) two)
  -- one evaluation of the three runs
  have hall : ((upgradeAll ⟨ZERONET, true⟩ (gapChain.take 1) (State.genesis true)).isOk = true ∧
        (upgradeAll ⟨ZERONET, false⟩ ((gapChain.drop 1).take 1) one).isOk = true ∧
        (upgradeAll ⟨ZERONET, true⟩ (gapChain.drop 2) two).isOk = true) ∧
      needsBackfill true 2 two = false ∧ three.changesetCovers 1 = true ∧
      (State.genesis true).getBalance (handAddr 2) = 0 ∧
      getBalanceByAddressAt true 3 three (handAddr 2) 0 = .ok (getBlockReward 2) ∧
      (three.unwindHeights 0 3).getBalance (handAddr 2) = getBlockReward 2 := by
    decide +kernel
  rcases hall with ⟨⟨hruns₁, hruns₂, hruns₃⟩, hneeds, hcovers, hzero, hread, hback⟩
  have hone : upgradeAll ⟨ZERONET, true⟩ (gapChain.take 1) (State.genesis true) = .ok ((), one) :=
    State.eq_after hruns₁
  have htwo : upgradeAll ⟨ZERONET, false⟩ ((gapChain.drop 1).take 1) one = .ok ((), two) := State.eq_after hruns₂
  have hthree : upgradeAll ⟨ZERONET, true⟩ (gapChain.drop 2) two = .ok ((), three) := State.eq_after hruns₃
  have hgenesis : Chronicle ZERONET (fun _ _ => True) true [State.genesis true] (State.genesis true) :=
    Chronicle.genesis (State.genesis_eq true)
  obtain ⟨p₁, h₁, hp₁⟩ := hgenesis.upgradesTo (by decide +kernel) (upgradesTo_of_upgradeAll hone)
  have hoff : Chronicle ZERONET (fun _ _ => True) false ([State.genesis true] ++ p₁) one := h₁.restart trivial rfl
  have hl₁ : ([State.genesis true] ++ p₁).length = 2 := by rw [List.length_append, hp₁]; rfl
  obtain ⟨p₂, h₂, hp₂⟩ := hoff.upgradesTo (by rw [hl₁]; decide +kernel) (upgradesTo_of_upgradeAll htwo)
  have hl₂ : ([State.genesis true] ++ p₁ ++ p₂).length = 3 := by rw [List.length_append, hl₁, hp₂]; rfl
  have hcovered : needsBackfill true (([State.genesis true] ++ p₁ ++ p₂).length - 1) two = false := by
    rw [hl₂]
    exact hneeds
  have hon := h₂.restart trivial hcovered
  obtain ⟨p₃, h₃, hp₃⟩ := hon.upgradesTo (by rw [hl₂]; decide +kernel) (upgradesTo_of_upgradeAll hthree)
  have hl₃ : ([State.genesis true] ++ p₁ ++ p₂ ++ p₃).length = 4 := by rw [List.length_append, hl₂, hp₃]; rfl
  have hunwind : State.unwindTo ⟨ZERONET, true⟩ 3 0 three = some (three.unwindHeights 0 3) := by
    unfold State.unwindTo
    rw [if_neg (by decide), if_neg (by decide), if_neg (by rw [hcovers]; decide)]
  exact ⟨_, _, State.genesis true, _, h₃, hl₃, rfl, hzero, hread, hunwind, hback⟩

end NgCore
