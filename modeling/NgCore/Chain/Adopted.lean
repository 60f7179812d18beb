/-
# NgCore.Chain.Adopted — the state follows the store

Along every sequence of calls the history of the state (`State.applied`) IS the canonical chain, tip first
(`InSync`), and the state is `Executed`, whichever of the three ways its blocks came: tip extension, unwind and
branch, full replay (`ReachableWhile.inSync`). So what holds of every executed state holds of every reachable
node.

Results that need a condition on what is executed speak of `ReachableWhile`: the runs of the ledger that
executes a block only where the condition holds (`Ledger.guard`), which are runs of the node
(`ReachableWhile.reachable`).

The bodies matter: a full replay reads the STORED bodies, which are not always those that were first executed
(`NgCore.Chain.Bodies`). So the store is carried along: every stored body passed `CheckError`.
-/
import NgCore.Chain.History

namespace NgCore

open Lib (Bucket)
open BlockStore (Sound Tallied)

/-! ## §1 — the canonical blocks of a store -/

section Store

variable [Crypto] {H : Set BlockHeader} {s s' : BlockStore} {tip tip' : FullBlock}
  (hinj : Set.InjOn BlockHeader.getHash H)
include hinj

theorem BlockStore.Sound.originHeight_eq (h : Sound H s tip) (h' : Sound H s' tip')
    (horigin : s'.originHash = s.originHash) : s'.originHeight = s.originHeight := by
  obtain ⟨b, hb, hbody, hheight, _⟩ := h.canonical _ le_rfl h.origin
  obtain ⟨b', hb', hbody', hheight', _⟩ := h'.canonical _ le_rfl h'.origin
  rw [h.originAt] at hb
  rw [h'.originAt, horigin, hb] at hb'
  have hheader : b.header = b'.header := hinj (h.headers _ _ hbody) (h'.headers _ _ hbody')
    (Subtype.ext (Option.some_injective _ hb'))
  rw [← hheight, ← hheight']
  exact (congrArg BlockHeader.height hheader).symm

omit hinj in
theorem BlockStore.Sound.read (h : Sound H s tip) {k : Nat} {b : FullBlock} (hk : k ≤ tip.getHeight)
    (hzero : s.originHeight = 0) (hread : s.getBlockByHeight k = .ok b) :
    s.heights[k]? = some b.getHash.val ∧ s.blocks[b.getHash.val]? = some b ∧ b.getHeight = k ∧
      (0 < k → s.heights[k - 1]? = some b.getPrevHash) := by
  obtain ⟨hash, hindex, hbody⟩ := BlockStore.getBlockByHeight_eq_ok.mp hread
  obtain ⟨c, hc, hcbody, hheight, hprev⟩ := h.canonical k (by omega) hk
  obtain rfl : c.getHash.val = hash := Option.some_injective _ (hc.symm.trans hindex)
  obtain rfl : b = c := Option.some_injective _ (hbody.symm.trans hcbody)
  exact ⟨hindex, hbody, hheight, fun hpos => hprev (by omega)⟩

omit hinj in
theorem BlockStore.Sound.canonicalUpTo (h : Sound H s tip) (hzero : s.originHeight = 0) {k : Nat}
    {blocks : List FullBlock} (hk : k ≤ tip.getHeight)
    (hread : (List.range (k + 1)).mapM s.getBlockByHeight = .ok blocks) :
    ∃ top l, blocks.reverse = top :: l ∧ s.heights[k]? = some top.getHash.val ∧ Descends (top :: l) ∧
      top.getHeight = k ∧ ∀ b ∈ blocks, s.blocks[b.getHash.val]? = some b := by
  induction k generalizing blocks with
  | zero =>
    obtain ⟨b, hb, hread⟩ := bind_eq_ok.mp hread
    obtain rfl := pure_eq_ok.mp hread
    obtain ⟨hindex, hbody, hheight, _⟩ := h.read hk hzero hb
    refine ⟨b, [], rfl, hindex, hheight, hheight, fun c hc => ?_⟩
    obtain rfl := List.mem_singleton.mp hc
    exact hbody
  | succ k ih =>
    rw [List.range_succ, List.mapM_append] at hread
    obtain ⟨lower, hlower, hread⟩ := bind_eq_ok.mp hread
    obtain ⟨last, hlast, hread⟩ := bind_eq_ok.mp hread
    obtain rfl := pure_eq_ok.mp hread
    obtain ⟨b, hb, hlast⟩ := bind_eq_ok.mp hlast
    obtain rfl := pure_eq_ok.mp hlast
    obtain ⟨p, l, hrev, hpindex, hdesc, hpheight, hbodies⟩ := ih (by omega) hlower
    obtain ⟨hindex, hbody, hheight, hprev⟩ := h.read hk hzero hb
    have hlink := hprev (by omega)
    rw [Nat.add_sub_cancel, hpindex] at hlink
    refine ⟨b, p :: l, ?_, hindex, ⟨⟨by omega, (Option.some_injective _ hlink).symm⟩, hdesc⟩, hheight, ?_⟩
    · rw [List.reverse_append, hrev]
      rfl
    · intro c hc
      rcases List.mem_append.mp hc with hc | hc
      · exact hbodies c hc
      · obtain rfl := List.mem_singleton.mp hc
        exact hbody

/-- In a sound store, a chain from the tip's header is the height index. -/
theorem Descends.indexed (hs : Sound H s tip) (hzero : s.originHeight = 0)
    {b : FullBlock} {l : List FullBlock} (h : Descends (b :: l)) (hH : ∀ c ∈ b :: l, c.header ∈ H)
    (hb : s.heights[b.getHeight]? = some b.getHash.val) (hle : b.getHeight ≤ tip.getHeight) :
    ∀ c ∈ b :: l, s.heights[c.getHeight]? = some c.getHash.val := by
  induction l generalizing b with
  | nil =>
    intro c hc
    obtain rfl := List.mem_singleton.mp hc
    exact hb
  | cons p l ih =>
    obtain ⟨hfollows, h⟩ := descends_cons.mp h
    obtain ⟨hstep, hprev⟩ := hfollows
    -- the indexed block of this height has the same header, so the same parent
    obtain ⟨c, hindex, hbody, hheight, hbelow⟩ := hs.canonical b.getHeight (by omega) hle
    rw [hb] at hindex
    have hheader : b.header = c.header := hinj (hH b List.mem_cons_self) (hs.headers _ _ hbody)
      (Subtype.ext (Option.some_injective _ hindex))
    have hp : s.heights[p.getHeight]? = some p.getHash.val := by
      have := hbelow (by omega)
      rw [show p.getHeight = b.getHeight - 1 by omega, this, ← hprev]
      exact congrArg (fun x : BlockHeader => some x.prevBlockHash) hheader.symm
    intro x hx
    rcases List.mem_cons.mp hx with rfl | hx
    · exact hb
    · exact ih h (fun c hc => hH c (List.mem_cons_of_mem b hc)) hp (by omega) x hx

/-- **A full replay reads the canonical chain.** -/
theorem BlockStore.Sound.canonicalBlocks (hs : Sound H s tip) (hzero : s.originHeight = 0)
    {blocks : List FullBlock} (h : s.canonicalBlocks = .ok blocks) :
    ∃ top l, blocks.reverse = top :: l ∧ top.header = tip.header ∧ Descends (top :: l) ∧
      ∀ b ∈ blocks, s.blocks[b.getHash.val]? = some b := by
  unfold BlockStore.canonicalBlocks at h
  rw [hs.latestHeight] at h
  obtain ⟨top, l, hrev, hindex, hdesc, _, hbody⟩ := hs.canonicalUpTo hzero le_rfl h
  refine ⟨top, l, hrev, ?_, hdesc, hbody⟩
  have htop : top ∈ blocks := by
    rw [← List.mem_reverse, hrev]
    exact List.mem_cons_self
  rw [hs.top] at hindex
  exact hinj (hs.headers _ _ (hbody top htop)) (hs.headers _ _ hs.tipBody)
    (Subtype.ext (Option.some_injective _ hindex).symm)

end Store

/-! ## §2 — runs under a condition -/

/-- **`guard C L`** — the ledger that executes a block above genesis only where the condition holds. -/
def Ledger.guard {S : Type} (C : S → FullBlock → Prop) [∀ s b, Decidable (C s b)] (L : Ledger S) :
    Ledger S :=
  { L with upgrade := fun block s =>
      if 0 < block.getHeight → C s block then L.upgrade block s else .error .panic }

namespace Ledger

variable {S : Type} {C : S → FullBlock → Prop} [∀ s b, Decidable (C s b)] {L : Ledger S} {block : FullBlock}
  {s s' : S}

theorem guard_upgrade_eq_ok : (L.guard C).upgrade block s = .ok s' ↔
    (0 < block.getHeight → C s block) ∧ L.upgrade block s = .ok s' := by
  show (if 0 < block.getHeight → C s block then L.upgrade block s else .error .panic) = _ ↔ _
  by_cases h : 0 < block.getHeight → C s block
  · rw [if_pos h, and_iff_right h]
  · rw [if_neg h]
    exact ⟨nofun, fun hC => absurd hC.1 h⟩

theorem guard_true : L.guard (fun _ _ => True) = L := by
  cases L
  simp only [guard, implies_true, if_true]

/-- A condition that follows from another adds nothing to it. -/
theorem guard_guard {C' : S → FullBlock → Prop} [∀ s b, Decidable (C' s b)] (h : ∀ s b, C s b → C' s b) :
    (L.guard C').guard C = L.guard C := by
  unfold guard
  congr 1
  funext block s
  by_cases hC : 0 < block.getHeight → C s block
  · rw [if_pos hC, if_pos hC]
    exact if_pos fun hpos => h s block (hC hpos)
  · rw [if_neg hC, if_neg hC]

/-- A step may be replaced by one that gives the same results. -/
theorem bind_ok_mono {α β : Type} {x : Except Err α} {f g : α → Except Err β} {b : β}
    (h : ∀ a, f a = .ok b → g a = .ok b) (hx : x >>= f = .ok b) : x >>= g = .ok b := by
  rcases bind_eq_ok.mp hx with ⟨a, ha, hf⟩
  exact bind_eq_ok.mpr ⟨a, ha, h a hf⟩

theorem applyChecked_of_guard : (L.guard C).applyChecked block s = .ok s' →
    L.applyChecked block s = .ok s' :=
  bind_ok_mono fun genesis h => by
    cases genesis with
    | false => exact bind_ok_mono (fun _ h => (guard_upgrade_eq_ok.mp h).2) h
    | true => exact (guard_upgrade_eq_ok.mp h).2

theorem applyBlocks_of_guard {blocks : List FullBlock} (h : (L.guard C).applyBlocks blocks s = .ok s') :
    L.applyBlocks blocks s = .ok s' := by
  induction blocks generalizing s with
  | nil => exact h
  | cons b blocks ih =>
    rcases bind_eq_ok.mp h with ⟨t, hb, h⟩
    exact bind_eq_ok.mpr ⟨t, applyChecked_of_guard hb, ih h⟩

end Ledger

namespace Node

variable [Crypto] {S : Type} {C : S → FullBlock → Prop} [∀ s b, Decidable (C s b)] {L : Ledger S} {now : Nat}
  {block : FullBlock} {branch : List FullBlock} {n n' : Node S}

open Ledger (bind_ok_mono guard_upgrade_eq_ok applyBlocks_of_guard)

theorem extendTip_of_guard : extendTip (L.guard C) now block n = .ok n' → extendTip L now block n = .ok n' :=
  bind_ok_mono fun _ => bind_ok_mono fun _ => bind_ok_mono fun _ h => by
    rcases bind_eq_ok.mp h with ⟨state, hup, h⟩
    exact bind_eq_ok.mpr ⟨state, (guard_upgrade_eq_ok.mp hup).2, h⟩

theorem switchToBranchTxn_of_guard (h : switchToBranchTxn (L.guard C) branch n = .ok n') :
    switchToBranchTxn L branch n = .ok n' := by
  cases branch with
  | nil => exact h
  | cons first rest =>
    rw [switchToBranchTxn] at h ⊢
    refine bind_ok_mono (fun store h => ?_) h
    rcases bind_eq_ok.mp h with ⟨state, hstate, h⟩
    refine bind_eq_ok.mpr ⟨state, switchState_eq_ok.mpr ?_, h⟩
    rcases switchState_eq_ok.mp hstate with ⟨unwound, hunwind, happly⟩ | ⟨hnone, blocks, hread, hreplay⟩
    · exact .inl ⟨unwound, hunwind, applyBlocks_of_guard happly⟩
    · exact .inr ⟨hnone, blocks, hread, applyBlocks_of_guard hreplay⟩

theorem importSide_of_guard : importSide (L.guard C) now block n = .ok n' → importSide L now block n = .ok n' :=
  bind_ok_mono fun _ => bind_ok_mono fun _ => bind_ok_mono fun _ => bind_ok_mono fun _ =>
    bind_ok_mono fun _ h => by
      dsimp only at h ⊢
      split at h
      · next hbeats =>
        rw [if_pos hbeats]
        refine bind_ok_mono (fun branch h => ?_) h
        cases branch with
        | nil => exact h
        | cons first rest => exact bind_ok_mono (fun _ => switchToBranchTxn_of_guard) h
      · next hbeats =>
        rw [if_neg hbeats]
        exact h

/-- **A call that succeeds under the guard is a call of the node.** -/
theorem applyBlock_of_guard (h : applyBlock (L.guard C) now block n = .ok n') :
    applyBlock L now block n = .ok n' := by
  unfold applyBlock at h ⊢
  split at h
  · next hprev =>
    rw [if_pos hprev]
    exact extendTip_of_guard h
  · next hprev =>
    rw [if_neg hprev]
    exact importSide_of_guard h

theorem switchToBranch_of_guard (h : switchToBranch (L.guard C) now branch n = .ok n') :
    switchToBranch L now branch n = .ok n' := by
  cases branch with
  | nil => exact h
  | cons first rest =>
    rw [switchToBranch] at h ⊢
    refine bind_ok_mono (fun _ => bind_ok_mono fun _ => bind_ok_mono fun _ => bind_ok_mono fun _ =>
      bind_ok_mono fun _ => bind_ok_mono fun _ => switchToBranchTxn_of_guard) h

end Node

section Reach

variable [Engine] (cfg : Config) (C : State → FullBlock → Prop) [∀ s b, Decidable (C s b)]

/-- **`ReachableWhile C H`** — the nodes reached by calls in which every executed block meets the condition on
the state it is executed on. Calls that fail change nothing and are left out. -/
inductive Node.ReachableWhile (H : Set BlockHeader) : Node State → Prop
  | genesis {n : Node State} : Node.genesis cfg = .ok n → ReachableWhile H n
  | applyBlock {n n' : Node State} (now : Nat) (block : FullBlock) : ReachableWhile H n → block.header ∈ H →
      n.applyBlock ((ledger cfg).guard C) now block = .ok n' → ReachableWhile H n'
  | switchToBranch {n n' : Node State} (now : Nat) (branch : List FullBlock) : ReachableWhile H n →
      (∀ b ∈ branch, b.header ∈ H) → n.switchToBranch ((ledger cfg).guard C) now branch = .ok n' →
      ReachableWhile H n'

variable {cfg C} {H : Set BlockHeader} {n : Node State}

theorem Node.ReachableWhile.reachable (h : ReachableWhile cfg C H n) : Reachable cfg H n := by
  induction h with
  | genesis hn => exact .genesis hn
  | applyBlock now block _ hb hok ih =>
    have := ih.applyBlock now block hb
    rwa [Node.applyBlock_of_guard hok] at this
  | switchToBranch now branch _ hb hok ih =>
    have := ih.switchToBranch now branch hb
    rwa [Node.switchToBranch_of_guard hok] at this

theorem Node.Reachable.while_true (h : Reachable cfg H n) :
    ReachableWhile cfg (fun _ _ => True) H n := by
  induction h with
  | genesis hn => exact .genesis hn
  | @applyBlock n now block _ hb ih =>
    cases hok : n.applyBlock (ledger cfg) now block with
    | error e => exact ih
    | ok n' => exact ih.applyBlock now block hb (Ledger.guard_true ▸ hok)
  | @switchToBranch n now branch _ hb ih =>
    cases hok : n.switchToBranch (ledger cfg) now branch with
    | error e => exact ih
    | ok n' => exact ih.switchToBranch now branch hb (Ledger.guard_true ▸ hok)

end Reach

/-! ## §3 — the state is in step with the store -/

section Calls

variable [Engine] {cfg : Config} {C : State → FullBlock → Prop} [∀ s b, Decidable (C s b)]
  {H : Set BlockHeader} {n n' : Node State} {tip block : FullBlock} {branch : List FullBlock} {now : Nat}

/-- Every stored body is the genesis block or passed `CheckError`. -/
def BlockStore.Checked (cfg : Config) (s : BlockStore) : Prop :=
  ∀ (h : Bytes) (b : FullBlock), s.blocks[h]? = some b →
    getGenesisBlock cfg.network = .ok b ∨ 0 < b.getHeight ∧ ∃ now, b.checkError now = .ok ()

/-- **`Node.InSync`** — the state is one that execution leads to, and its history is headed by the tip. -/
structure Node.InSync (cfg : Config) (C : State → FullBlock → Prop) (H : Set BlockHeader) (n : Node State)
    (tip : FullBlock) : Prop where
  top : ∃ top l, n.state.applied = top :: l ∧ top.header = tip.header
  executed : State.Executed cfg C n.state
  headers : ∀ b ∈ n.state.applied, b.header ∈ H
  checked : n.store.Checked cfg

/-- A block that is not a genesis block, executed on a history that it follows. -/
theorem State.Executed.applyChecked {s s' : State} (h : State.Executed cfg C s) {p : FullBlock}
    {l : List FullBlock} (happlied : s.applied = p :: l) (hfollows : NgCore.Follows p block)
    (hgen : block.isGenesis = .ok true → block.getHeight = 0) (herror : ∃ now, block.checkError now = .ok ())
    (hok : ((ledger cfg).guard C).applyChecked block s = .ok s') :
    State.Executed cfg C s' ∧ s'.applied = block :: p :: l := by
  rcases bind_eq_ok.mp hok with ⟨genesis, hgenesis, hok⟩
  have hheight := hfollows.1
  cases genesis with
  | true =>
    have := hgen hgenesis
    omega
  | false =>
    rcases bind_eq_ok.mp hok with ⟨_, htxs, hok⟩
    rcases Ledger.guard_upgrade_eq_ok.mp hok with ⟨hC, hup⟩
    have hrun := (ledger_upgrade_eq_ok hup).1
    refine ⟨h.upgrade ?_ hC hrun, (applied_upgrade hrun).trans (happlied ▸ rfl)⟩
    simp only [FullBlock.Admissible, happlied]
    exact ⟨hfollows, herror, htxs⟩

theorem State.Executed.applyBlocks {s s' : State} (h : State.Executed cfg C s) {p : FullBlock}
    {l : List FullBlock} (happlied : s.applied = p :: l) (hchain : (p :: branch).IsChain NgCore.Follows)
    (hgen : ∀ b ∈ branch, b.isGenesis = .ok true → b.getHeight = 0)
    (herror : ∀ b ∈ branch, ∃ now, b.checkError now = .ok ())
    (hok : ((ledger cfg).guard C).applyBlocks branch s = .ok s') :
    State.Executed cfg C s' ∧ s'.applied = branch.reverse ++ p :: l := by
  induction branch generalizing s p l with
  | nil =>
    obtain rfl := pure_eq_ok.mp hok
    exact ⟨h, happlied⟩
  | cons b branch ih =>
    rcases List.isChain_cons_cons.mp hchain with ⟨hfollows, hchain⟩
    rcases bind_eq_ok.mp hok with ⟨t, hb, hok⟩
    rcases h.applyChecked happlied hfollows (hgen b List.mem_cons_self) (herror b List.mem_cons_self) hb with
      ⟨ht, happlied'⟩
    rcases ih ht happlied' hchain (fun c hc => hgen c (List.mem_cons_of_mem b hc))
      (fun c hc => herror c (List.mem_cons_of_mem b hc)) hok with ⟨hs', hall⟩
    refine ⟨hs', hall.trans ?_⟩
    rw [List.reverse_cons, List.append_assoc]
    rfl

/-- A chain read from height zero on, executed from scratch. -/
theorem State.Executed.rebuildFromBlocks {s s' : State} (h : State.Executed cfg C s)
    {blocks : List FullBlock} {top : FullBlock} {l : List FullBlock} (hrev : blocks.reverse = top :: l)
    (hdesc : Descends (top :: l)) (hgen : ∀ b ∈ blocks, b.isGenesis = .ok true → b.getHeight = 0)
    (hchecked : ∀ b ∈ blocks, getGenesisBlock cfg.network = .ok b ∨
      0 < b.getHeight ∧ ∃ now, b.checkError now = .ok ())
    (hok : ((ledger cfg).guard C).rebuildFromBlocks blocks s = .ok s') :
    State.Executed cfg C s' ∧ s'.applied = blocks.reverse := by
  -- the chain, lowest first: a genesis block, then a branch on it
  have hup : ∃ g rest, blocks = g :: rest ∧ g.getHeight = 0 ∧ (g :: rest).IsChain NgCore.Follows := by
    obtain rfl : blocks = (top :: l).reverse := by rw [← hrev, List.reverse_reverse]
    exact hdesc.ascends
  obtain ⟨g, rest, rfl, hzero, hchain⟩ := hup
  have hpos := isChain_follows_pos hchain
  have hgenesis : getGenesisBlock cfg.network = .ok g := by
    rcases hchecked g List.mem_cons_self with hg | ⟨hg, _⟩
    · exact hg
    · omega
  have herror : ∀ b ∈ rest, ∃ now, b.checkError now = .ok () := by
    intro b hb
    rcases hchecked b (List.mem_cons_of_mem g hb) with hg | ⟨_, hb⟩
    · have := hpos b hb
      have := getGenesisBlock_height hg
      omega
    · exact hb
  rcases bind_eq_ok.mp hok with ⟨t, hg, hok⟩
  have hreset : State.Executed cfg C (((ledger cfg).guard C).reset s) := h.reset
  have hnil : (((ledger cfg).guard C).reset s).applied = [] := State.applied_rebuildFromSheet s
  have ht : State.Executed cfg C t ∧ t.applied = [g] := by
    rcases State.applyChecked_eq_ok (Ledger.applyChecked_of_guard hg) with ⟨_, _, _, hrun, _⟩
    refine ⟨hreset.upgrade ?_ (fun hpos => by omega) hrun, by rw [applied_upgrade hrun, hnil]⟩
    simp only [FullBlock.Admissible, hnil]
    exact hgenesis
  rcases ht.1.applyBlocks ht.2 hchain (fun b hb => hgen b (List.mem_cons_of_mem g hb)) herror hok with
    ⟨hs', hall⟩
  exact ⟨hs', hall.trans (List.reverse_cons).symm⟩

namespace Node

omit [∀ s b, Decidable (C s b)] in
theorem InSync.retag {store : BlockStore} {tip' : FullBlock} (h : n.InSync cfg C H tip)
    (htip : tip'.header = tip.header) (hstore : store.Checked cfg) :
    InSync cfg C H ⟨store, n.state⟩ tip' := by
  rcases h.top with ⟨top, l, heq, htop⟩
  exact ⟨⟨top, l, heq, htop.trans htip.symm⟩, h.executed, h.headers, hstore⟩

variable (hinj : Set.InjOn BlockHeader.getHash (genesisHeaders ∪ H))
include hinj

/-- A block accepted as an extension of the tip passed `CheckError` and `CheckBlockTxs`. -/
theorem checks_of_checkBlockTxn (hb : block.header ∈ genesisHeaders ∪ H) (hpos : 0 < block.getHeight)
    (hcheck : checkBlockTxn (ledger cfg) now block n = .ok ()) :
    block.checkError now = .ok () ∧ checkBlockTxs n.state.view block = .ok () := by
  have hgen := height_of_isGenesis hinj hb
  refine ⟨checkError_of_checkBlockTxn hgen hpos hcheck, ?_⟩
  rcases bind_eq_ok.mp hcheck with ⟨genesis, hgenesis, hcheck⟩
  cases genesis with
  | true => exact absurd (hgen hgenesis) hpos.ne'
  | false =>
    rw [if_neg (by simp)] at hcheck
    rcases bind_eq_ok.mp hcheck with ⟨_, _, hcheck⟩
    split at hcheck
    · rcases bind_eq_ok.mp hcheck with ⟨_, _, hcheck⟩
      rcases bind_eq_ok.mp hcheck with ⟨_, _, hcheck⟩
      rcases bind_eq_ok.mp hcheck with ⟨_, _, hcheck⟩
      exact hcheck
    · rcases bind_eq_ok.mp hcheck with ⟨_, _, hcheck⟩
      exact hcheck

theorem extendTip_inSync (hs : Sound (genesisHeaders ∪ H) n.store tip)
    (h : n.InSync cfg C (genesisHeaders ∪ H) tip) (hb : block.header ∈ genesisHeaders ∪ H)
    (hprev : block.getPrevHash = n.store.latestHash)
    (hok : extendTip ((ledger cfg).guard C) now block n = .ok n') :
    n'.InSync cfg C (genesisHeaders ∪ H) block := by
  rcases extendTip_sound hinj hs hb hprev hok with ⟨hfollows, _, _⟩
  rcases extendTip_eq_ok hok with ⟨hcheck, store, work, store', hput, hwork, hup, hstore⟩
  rcases Ledger.guard_upgrade_eq_ok.mp hup with ⟨hC, hup⟩
  have hrun := (ledger_upgrade_eq_ok hup).1
  have happlied := applied_upgrade hrun
  rcases h.top with ⟨top, l, heq, htop⟩
  have hpos : 0 < block.getHeight := by
    have := hfollows.1
    omega
  have hcheck : checkBlockTxn (ledger cfg) now block n = .ok () := hcheck
  rcases checks_of_checkBlockTxn hinj hb hpos hcheck with ⟨herror, htxs⟩
  have hadm : block.Admissible cfg n.state := by
    simp only [FullBlock.Admissible, heq]
    refine ⟨⟨?_, ?_⟩, ⟨now, herror⟩, htxs⟩
    · exact hfollows.1.trans (congrArg (fun x : BlockHeader => x.height + 1) htop).symm
    · exact hfollows.2.trans (congrArg (fun x : BlockHeader => x.getHash.val) htop).symm
  refine ⟨⟨block, n.state.applied, happlied, rfl⟩, h.executed.upgrade hadm hC hrun, ?_, ?_⟩
  · intro b hmem
    rw [happlied] at hmem
    rcases List.mem_cons.mp hmem with rfl | hmem
    · exact hb
    · exact h.headers b hmem
  · intro hash b hbody
    rcases extendTip_blocks hok hbody with rfl | hbody
    · exact .inr ⟨hpos, now, herror⟩
    · exact h.checked hash b hbody

/-- **A switch**, by unwind or by replay. -/
theorem switchToBranchTxn_inSync (hs : Sound (genesisHeaders ∪ H) n.store tip)
    (hzero : n.store.originHeight = 0) (h : n.InSync cfg C (genesisHeaders ∪ H) tip)
    (hb : ∀ b ∈ branch, b.header ∈ genesisHeaders ∪ H ∧ n.store.originHeight < b.getHeight)
    (herror : ∀ b ∈ branch, ∃ now, b.checkError now = .ok ())
    (hok : switchToBranchTxn ((ledger cfg).guard C) branch n = .ok n') :
    ∃ first rest, branch = first :: rest ∧
      n'.InSync cfg C (genesisHeaders ∪ H) (rest.getLastD first) := by
  obtain ⟨first, rest, store, rfl, hput, hstore, hstate⟩ := switchToBranchTxn_eq_ok hok
  obtain ⟨first', rest', heq, hsound, _, _⟩ := hs.switchToBranch hinj hb hput
  obtain ⟨rfl, rfl⟩ := List.cons.inj heq
  refine ⟨first, rest, rfl, ?_⟩
  have hgen : ∀ b : FullBlock, b.header ∈ genesisHeaders ∪ H → b.isGenesis = .ok true → b.getHeight = 0 :=
    fun b hmem => height_of_isGenesis hinj hmem
  have hchecked : store.Checked cfg := by
    intro hash b hbody
    rcases (BlockStore.switchToBranch_frame hput).2.2 hash b hbody with hin | hold
    · exact .inr ⟨by have := (hb b hin).2; omega, herror b hin⟩
    · exact h.checked hash b hold
  have hchecked' : n'.store.Checked cfg := by
    intro hash b hbody
    rw [hstore] at hbody
    exact hchecked hash b (BlockStore.maintain_blocks hbody)
  rcases h.top with ⟨top, l, happlied, htop⟩
  have hfirst := (hb first List.mem_cons_self).2
  rw [pred64_of_pos (by omega)] at hstate
  rcases switchState_eq_ok.mp hstate with ⟨unwound, hunwind, happly⟩ | ⟨_, blocks, hread, hreplay⟩
  · -- unwound to the fork ancestor, which the branch hangs on
    have hdesc := h.executed.descends_of_cons happlied
    have htopHeight : top.getHeight = tip.getHeight := congrArg BlockHeader.height htop
    change State.unwindTo cfg n.store.latestHeight (first.getHeight - 1) n.state = some unwound at hunwind
    rw [hs.latestHeight, ← htopHeight] at hunwind
    rcases h.executed.unwindTo happlied hunwind with ⟨hexec, hleft⟩
    rw [BlockStore.switchToBranch] at hput
    rcases bind_eq_ok.mp hput with ⟨_, hchain, hput⟩
    rcases bind_eq_ok.mp hput with ⟨_, hattach, _⟩
    have hchain := ensure_eq_ok.mp hchain
    have hattach := ensure_eq_ok.mp hattach
    rw [pred64_of_pos (by omega)] at hattach
    have hancestor : first.getHeight - 1 ≤ tip.getHeight := by
      by_contra hgt
      rw [hs.above _ (by omega)] at hattach
      cases hattach
    obtain ⟨c, l', hfilter, hcheight, _, hcmem⟩ := hdesc.filter_le (k := first.getHeight - 1) (by omega)
    rw [happlied, hfilter] at hleft
    have hindexed := hdesc.indexed hinj hs hzero (fun b hmem => h.headers b (happlied ▸ hmem))
      (by rw [htopHeight, hs.top]; exact congrArg (fun x : BlockHeader => some x.getHash.val) htop.symm)
      (by omega) c hcmem
    rw [hcheight, hattach] at hindexed
    have hfollows : Follows c first := ⟨by omega, Option.some_injective _ hindexed⟩
    rcases hexec.applyBlocks hleft (List.isChain_cons_cons.mpr ⟨hfollows, hchain⟩)
      (fun b hmem => hgen b (hb b hmem).1) herror happly with ⟨hexec', hall⟩
    refine ⟨?_, hexec', ?_, hchecked'⟩
    · obtain ⟨top', l'', heq', htop'⟩ := reverse_append_cons (first :: rest) c l'
      exact ⟨top', l'', hall.trans heq', by rw [htop', List.getLastD_cons]⟩
    · intro b hmem
      rw [hall] at hmem
      rcases List.mem_append.mp hmem with hmem | hmem
      · exact (hb b (List.mem_reverse.mp hmem)).1
      · refine h.headers b ?_
        rw [happlied]
        rw [← hfilter] at hmem
        exact List.mem_of_mem_filter hmem
  · -- replayed from the store
    have hzero' : store.originHeight = 0 :=
      (hs.originHeight_eq hinj hsound (BlockStore.switchToBranch_frame hput).2.1).trans hzero
    obtain ⟨top', l', hrev, htop', hdesc', hbodies⟩ := hsound.canonicalBlocks hinj hzero' hread
    have hheaders : ∀ b ∈ blocks, b.header ∈ genesisHeaders ∪ H :=
      fun b hmem => hsound.headers _ b (hbodies b hmem)
    rcases h.executed.rebuildFromBlocks hrev hdesc' (fun b hmem => hgen b (hheaders b hmem))
      (fun b hmem => hchecked _ b (hbodies b hmem)) hreplay with ⟨hexec', hall⟩
    refine ⟨⟨top', l', hall.trans hrev, htop'⟩, hexec', ?_, hchecked'⟩
    intro b hmem
    rw [hall] at hmem
    exact hheaders b (List.mem_reverse.mp hmem)

theorem importSide_inSync (hs : Sound (genesisHeaders ∪ H) n.store tip) (hzero : n.store.originHeight = 0)
    (h : n.InSync cfg C (genesisHeaders ∪ H) tip) (hb : block.header ∈ genesisHeaders ∪ H)
    (hok : importSide ((ledger cfg).guard C) now block n = .ok n') :
    ∃ tip', Sound (genesisHeaders ∪ H) n'.store tip' ∧ n'.InSync cfg C (genesisHeaders ∪ H) tip' := by
  obtain ⟨prev, blockWork, tip', tipWork, store, hw, hcase⟩ := importSide_eq_ok hok
  rcases hw.sound hinj hs hb with ⟨hheader, hsound, _, horigin, hbody⟩
  have hchecked : store.Checked cfg := by
    intro hash b hstored
    rcases hw.blocks hstored with rfl | hold
    · rcases bind_eq_ok.mp hw.checked with ⟨_, herror, hfollows⟩
      rcases bind_eq_ok.mp hfollows with ⟨_, hfollows, _⟩
      have := (ensure_eq_ok.mp hfollows).1
      exact .inr ⟨by omega, now, herror⟩
    · exact h.checked hash b hold
  have hsync : InSync cfg C (genesisHeaders ∪ H) ⟨store, n.state⟩ tip' := h.retag hheader hchecked
  rcases hcase with ⟨_, rfl⟩ | ⟨_, first, rest, hbranch, _, hswitch⟩
  · exact ⟨tip', hsound, hsync⟩
  · have hmem := BlockStore.collectBranch_mem hbranch ⟨_, hbody⟩
    have habove : ∀ b ∈ first :: rest, b.header ∈ genesisHeaders ∪ H ∧ store.originHeight < b.getHeight := by
      intro b hb'
      rcases hmem b hb' with ⟨⟨hash, hstored⟩, hside⟩
      exact ⟨hsound.headers hash b hstored, hsound.above_origin hstored hside⟩
    have herror : ∀ b ∈ first :: rest, ∃ now, b.checkError now = .ok () := by
      intro b hb'
      rcases hmem b hb' with ⟨⟨hash, hstored⟩, _⟩
      rcases hchecked hash b hstored with hgenesis | ⟨_, herror⟩
      · have := getGenesisBlock_height hgenesis
        have := (habove b hb').2
        omega
      · exact herror
    obtain ⟨first', rest', heq, hsound', _⟩ := switchToBranchTxn_sound hinj hsound habove hswitch
    obtain ⟨first'', rest'', heq', hsync'⟩ :=
      switchToBranchTxn_inSync hinj hsound (horigin.trans hzero) hsync habove herror hswitch
    obtain ⟨rfl, rfl⟩ := List.cons.inj heq
    obtain ⟨rfl, rfl⟩ := List.cons.inj heq'
    exact ⟨_, hsound', hsync'⟩

theorem switchToBranch_inSync (hs : Sound (genesisHeaders ∪ H) n.store tip)
    (hzero : n.store.originHeight = 0) (h : n.InSync cfg C (genesisHeaders ∪ H) tip)
    (hb : ∀ b ∈ branch, b.header ∈ genesisHeaders ∪ H)
    (hok : switchToBranch ((ledger cfg).guard C) now branch n = .ok n') :
    ∃ tip', Sound (genesisHeaders ∪ H) n'.store tip' ∧ n'.InSync cfg C (genesisHeaders ∪ H) tip' := by
  obtain ⟨first, rest, forkParent, base, tip', tipWork, store, store', rfl, hparent, hcheck, hbase, htip,
    htipWork, _, hswitch⟩ := switchToBranch_eq_ok hok
  have hre := (BlockStore.cumulativeWork_reindexed hbase).trans
    (BlockStore.cumulativeWork_reindexed htipWork)
  have hsound := hs.reindexed hre
  -- every block of the branch was checked against the one below
  have hbranch : ∀ (prev : FullBlock) (l : List FullBlock),
      checkBranch now (branchGetBlock n.store (first :: rest)) prev l = .ok () →
      ∀ b ∈ l, prev.getHeight < b.getHeight ∧ b.checkError now = .ok () := by
    intro prev l
    induction l generalizing prev with
    | nil => exact fun _ b hb => absurd hb List.not_mem_nil
    | cons c l ih =>
      intro hl b hmem
      rcases bind_eq_ok.mp hl with ⟨_, hc, hl⟩
      rcases bind_eq_ok.mp hc with ⟨_, herror, hc⟩
      rcases bind_eq_ok.mp hc with ⟨_, hfollows, _⟩
      have hfollows := (ensure_eq_ok.mp hfollows).1
      rcases List.mem_cons.mp hmem with rfl | hmem
      · exact ⟨by omega, herror⟩
      · rcases ih c hl b hmem with ⟨hlt, herror'⟩
        exact ⟨by omega, herror'⟩
  have horigin : store'.originHeight = 0 := by
    obtain ⟨_, _, _, _, rfl⟩ := hre
    exact hzero
  have hchecked : store'.Checked cfg := by
    obtain ⟨_, _, _, _, rfl⟩ := hre
    exact h.checked
  have habove : ∀ b ∈ first :: rest, b.header ∈ genesisHeaders ∪ H ∧ store'.originHeight < b.getHeight := by
    intro b hmem
    have := (hbranch forkParent _ hcheck b hmem).1
    exact ⟨hb b hmem, by omega⟩
  have hsync : InSync cfg C (genesisHeaders ∪ H) ⟨store', n.state⟩ tip := h.retag rfl hchecked
  obtain ⟨first', rest', heq, hsound', _⟩ := switchToBranchTxn_sound hinj hsound habove hswitch
  obtain ⟨first'', rest'', heq', hsync'⟩ := switchToBranchTxn_inSync hinj hsound horigin hsync habove
    (fun b hmem => ⟨now, (hbranch forkParent _ hcheck b hmem).2⟩) hswitch
  obtain ⟨rfl, rfl⟩ := List.cons.inj heq
  obtain ⟨rfl, rfl⟩ := List.cons.inj heq'
  exact ⟨_, hsound', hsync'⟩

omit hinj [∀ s b, Decidable (C s b)] in
theorem genesis_inSync (hn : Node.genesis cfg = .ok n) :
    ∃ tip, Sound (genesisHeaders ∪ H) n.store tip ∧ n.InSync cfg C (genesisHeaders ∪ H) tip := by
  obtain ⟨genesis, hgenesis, hstate, hstore⟩ := Node.genesis_eq_ok hn
  have hmem : genesis.header ∈ genesisHeaders ∪ H := .inl ⟨_, genesis, hgenesis, rfl⟩
  have hzero := getGenesisBlock_height hgenesis
  have hexec : State.Executed cfg C n.state ∧ n.state.applied = [genesis] := by
    obtain ⟨genesis', hgenesis', hrun⟩ := State.initStateFromGenesis_eq_ok hstate
    obtain rfl : genesis = genesis' := Except.ok.inj (hgenesis.symm.trans hgenesis')
    refine ⟨State.Executed.init.upgrade hgenesis (fun hpos => by omega) hrun, ?_⟩
    rw [applied_upgrade hrun]
    rfl
  refine ⟨genesis, by rw [hstore]; exact BlockStore.sound_initWithGenesis hmem,
    ⟨genesis, [], hexec.2, rfl⟩, hexec.1, ?_, ?_⟩
  · rw [hexec.2]
    intro b hb
    rw [List.mem_singleton.mp hb]
    exact hmem
  · intro hash b hb
    rw [hstore] at hb
    change ((∅ : Bucket Bytes FullBlock).insert genesis.getHash.val genesis)[hash]? = some b at hb
    rw [Bucket.get_insert] at hb
    split at hb
    · exact .inl (Option.some_injective _ hb ▸ hgenesis)
    · simp at hb

theorem Reachable.originHeight_eq (hr : Reachable cfg H n) : n.store.originHeight = 0 := by
  obtain ⟨tip, origin, hs, ht, hzero⟩ := hr.tallied hinj
  exact (Node.originHeight_eq hinj ht hs).trans hzero

/-- **Under any condition, the state of a reached node is executed from its canonical chain.** -/
theorem ReachableWhile.inSync (hr : ReachableWhile cfg C H n) :
    ∃ tip, Sound (genesisHeaders ∪ H) n.store tip ∧ n.InSync cfg C (genesisHeaders ∪ H) tip := by
  induction hr with
  | genesis hn => exact genesis_inSync hn
  | applyBlock now block hr hb hok ih =>
    rcases ih with ⟨tip, hs, hsync⟩
    unfold Node.applyBlock at hok
    split at hok
    · next hprev =>
      exact ⟨block, (extendTip_sound hinj hs (.inr hb) hprev hok).2.1,
        extendTip_inSync hinj hs hsync (.inr hb) hprev hok⟩
    · exact importSide_inSync hinj hs (hr.reachable.originHeight_eq hinj) hsync (.inr hb) hok
  | switchToBranch now branch hr hb hok ih =>
    rcases ih with ⟨tip, hs, hsync⟩
    exact switchToBranch_inSync hinj hs (hr.reachable.originHeight_eq hinj) hsync
      (fun b hmem => .inr (hb b hmem)) hok

omit [∀ s b, Decidable (C s b)] in
/-- **The state of every reachable node is executed from its canonical chain.** -/
theorem Reachable.inSync (hr : Reachable cfg H n) :
    ∃ tip, Sound (genesisHeaders ∪ H) n.store tip ∧
      n.InSync cfg (fun _ _ => True) (genesisHeaders ∪ H) tip :=
  hr.while_true.inSync hinj

end Node
end Calls

/-! ## §4 — runs under a condition, by hand -/

theorem Ledger.Agrees.guard {S : Type} {I : S → Prop} {L L' : Ledger S} (h : Agrees I L L')
    (C : S → FullBlock → Prop) [∀ s b, Decidable (C s b)] : Agrees I (L.guard C) (L'.guard C) where
  archive := h.archive
  isGenesis := h.isGenesis
  checkBlockTxs := h.checkBlockTxs
  unwindTo := h.unwindTo
  reset := h.reset
  upgrade b s hs := by
    show (if _ then L.upgrade b s else _) = if _ then L'.upgrade b s else _
    rw [h.upgrade b s hs]
  upgraded b s s' hs hok := h.upgraded b s s' hs (Ledger.guard_upgrade_eq_ok.mp hok).2
  unwound := h.unwound
  seeded := h.seeded

/-- Blocks applied one after the other, none refused, each meeting the condition. -/
def handRunWhile [Engine] (C : State → FullBlock → Prop) [∀ s b, Decidable (C s b)] (cfg : Config)
    (blocks : List FullBlock) (n : Node State) : Except Err (Node State) :=
  blocks.foldlM (fun n b => n.applyBlock ((handLedger cfg).guard C) handNow b) n

/-- A run of the hand-made ledger under a condition, as a run of the node. -/
theorem exists_reachableWhile_byHand (modules : Bytes → Option Module) (archive : Bool) (l : List FullBlock)
    (test : Node State → Bool) :
    letI := Engine.byHand modules
    ∀ (C : State → FullBlock → Prop) [∀ s b, Decidable (C s b)],
      okAnd (handRunWhile C ⟨ZERONET, archive⟩ l (handNode archive)) test = true →
        ∃ n, Node.ReachableWhile ⟨ZERONET, archive⟩ C {x | x ∈ l.map FullBlock.header} n ∧ test n = true := by
  let _ := Engine.byHand modules
  intro C _ h
  have hend := exists_of_foldlM (P := fun n : Node State =>
    Node.ReachableWhile ⟨ZERONET, archive⟩ C {x | x ∈ l.map FullBlock.header} n ∧ n.state.Committed)
    (fun b hb n n' hn hok => ?_) ⟨.genesis (genesis_byHand modules archive), committed_handNode modules archive⟩ h
  · exact hend.imp fun n hn => ⟨hn.1.1, hn.2⟩
  · obtain ⟨heq, hkeep⟩ := ((handLedger_agrees modules ⟨ZERONET, archive⟩).guard C).applyBlock handNow b hn.2
    have hok := heq.trans hok
    exact ⟨hn.1.applyBlock handNow b (List.mem_map_of_mem hb) hok, hkeep n' hok⟩

end NgCore
