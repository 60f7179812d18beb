/-
# NgCore.Chain.Uncles — an uncle is rewarded once

`validateUncles` of `blockchain/fork.go` looks at a bounded window of a block's own ancestors: the uncles they
reference, and the blocks themselves. An uncle is at most `UncleMaxDepth` below the block that references it, and
whoever else references it, or is it, stands at its height or above, hence in the window; so what the window excludes
is excluded on the whole chain.

`CheckedChain` is a chain from genesis, tip first, every block of which passed `checkBranchBlock` against the one
below with a lookup that knows the chain. Only the headers and the uncles of what the lookup returns matter.

DELIVERABLE: `CheckedChain.uncles_once`.
-/
import NgCore.Chain.History
import NgCore.Chain.Fork
import NgCore.Chain.Handmade

namespace NgCore

open Lib (Bucket)

section Uncles

variable [Crypto]

/-! ## §1 — chains that were checked -/

/-- **`Resolves getBlock b`** — the lookup knows the block, up to its transactions. -/
def Resolves (getBlock : Bytes → Except Err FullBlock) (b : FullBlock) : Prop :=
  ∃ b', getBlock b.getHash.val = .ok b' ∧ b'.header = b.header ∧ b'.uncles = b.uncles

/-- **`CheckedChain l`** — a chain down to a genesis block, tip first, every block above it checked against its
parent. -/
inductive CheckedChain : List FullBlock → Prop
  | genesis {network : Network} {g : FullBlock} : getGenesisBlock network = .ok g → CheckedChain [g]
  | extend {now : Nat} {getBlock : Bytes → Except Err FullBlock} {block prev : FullBlock} {l : List FullBlock} :
      CheckedChain (prev :: l) → (∀ b ∈ prev :: l, Resolves getBlock b) →
      checkBranchBlock now getBlock block prev = .ok () → CheckedChain (block :: prev :: l)

theorem CheckedChain.descends {l : List FullBlock} (h : CheckedChain l) : Descends l := by
  induction h with
  | genesis hg => exact (getGenesisBlock_ok hg).2.1
  | extend _ _ hcheck ih =>
    rcases bind_eq_ok.mp hcheck with ⟨_, _, hcheck⟩
    rcases bind_eq_ok.mp hcheck with ⟨_, hfollows, _⟩
    exact descends_cons.mpr ⟨ensure_eq_ok.mp hfollows, ih⟩

/-! ## §2 — the window -/

/-- **`Sees lowest anc refd rest`** — what the walk collected covers the blocks of `rest` from `lowest` on. -/
structure Sees (lowest : Nat) (anc : Bucket Nat FullBlock) (refd : List Bytes32) (rest : List FullBlock) : Prop where
  ancestor : ∀ b ∈ rest, lowest ≤ b.getHeight → ∃ b', anc[b.getHeight]? = some b' ∧ b'.header = b.header
  uncle : ∀ b ∈ rest, lowest ≤ b.getHeight → ∀ u ∈ b.uncles, u.getHash ∈ refd

/-- **The ancestor walk** collects the blocks below `cur` down to `lowest`, and nothing else. -/
theorem uncleAncestors_eq_ok {getBlock : Bytes → Except Err FullBlock} {lowest : Nat} {rest : List FullBlock} :
    ∀ {fuel : Nat} {top cur : FullBlock} {anc anc' : Bucket Nat FullBlock} {refd refd' : List Bytes32},
      Descends (top :: rest) → (∀ b ∈ rest, Resolves getBlock b) → cur.header = top.header →
      uncleAncestors getBlock lowest fuel cur anc refd = .ok (anc', refd') →
      Sees lowest anc' refd' rest ∧
        (∀ (k : Nat) (b' : FullBlock), anc'[k]? = some b' →
          anc[k]? = some b' ∨ ∃ b ∈ rest, b.getHeight = k ∧ b'.header = b.header) ∧
        (∀ x ∈ refd, x ∈ refd') ∧ ∀ k, top.getHeight ≤ k → anc'[k]? = anc[k]? := by
  induction rest with
  | nil =>
    intro fuel top cur anc anc' refd refd' hdesc _ hcur hrun
    cases fuel with
    | zero => cases hrun
    | succ fuel =>
      have hzero : top.getHeight = 0 := hdesc
      have hheight : cur.getHeight = 0 := (congrArg BlockHeader.height hcur).trans hzero
      rw [uncleAncestors, if_neg (by omega)] at hrun
      cases hrun
      exact ⟨⟨nofun, nofun⟩, fun _ _ h => .inl h, fun _ h => h, fun _ _ => rfl⟩
  | cons p rest ih =>
    intro fuel top cur anc anc' refd refd' hdesc hresolves hcur hrun
    rcases descends_cons.mp hdesc with ⟨⟨hheight, hprev⟩, hdesc'⟩
    rw [List.forall_mem_cons] at hresolves
    cases fuel with
    | zero => cases hrun
    | succ fuel =>
      have hcurHeight : cur.getHeight = top.getHeight := congrArg BlockHeader.height hcur
      rw [uncleAncestors] at hrun
      split at hrun
      · next hlt =>
        rcases hresolves.1 with ⟨p', hp', hheader, huncles⟩
        have hcurPrev : cur.getPrevHash = p.getHash.val := (congrArg BlockHeader.prevBlockHash hcur).trans hprev
        have hpHeight : p'.getHeight = p.getHeight := congrArg BlockHeader.height hheader
        rw [hcurPrev, hp'] at hrun
        simp only [bind, Except.bind] at hrun
        rcases ih hdesc' hresolves.2 hheader hrun with ⟨hsees, honly, hrefd, habove⟩
        refine ⟨⟨?_, ?_⟩, ?_, ?_, ?_⟩
        · refine List.forall_mem_cons.mpr ⟨fun _ => ⟨p', ?_, hheader⟩, hsees.ancestor⟩
          rw [habove _ le_rfl, Bucket.get_insert, if_pos hpHeight]
        · refine List.forall_mem_cons.mpr ⟨fun _ u hu => hrefd _ (List.mem_append_left _ ?_), hsees.uncle⟩
          rw [huncles]
          exact List.mem_map_of_mem hu
        · intro k b' hb'
          rcases honly k b' hb' with hold | ⟨b, hb, hk⟩
          · rw [Bucket.get_insert] at hold
            split at hold
            · next hk =>
              cases hold
              exact .inr ⟨p, List.mem_cons_self, hpHeight.symm.trans hk, hheader⟩
            · exact .inl hold
          · exact .inr ⟨b, List.mem_cons_of_mem p hb, hk⟩
        · exact fun x hx => hrefd x (List.mem_append_right _ hx)
        · intro k hk
          rw [habove k (by omega), Bucket.get_insert, if_neg (by omega)]
      · next hge =>
        -- the walk stops here, and everything below is below the window
        cases hrun
        have hbelow := hdesc.height_le
        refine ⟨⟨?_, ?_⟩, fun _ _ h => .inl h, fun _ h => h, fun _ _ => rfl⟩
        · intro b hb hlow
          have := hbelow b hb
          omega
        · intro b hb hlow
          have := hbelow b hb
          omega

theorem checkUncleSlots_eq_ok {height : Nat} {anc : Bucket Nat FullBlock} {refd : List Bytes32}
    {uncles : List BlockHeader} {u' : Unit} (h : checkUncleSlots height anc refd uncles = .ok u') :
    (uncles.map BlockHeader.getHash).Nodup ∧ ∀ u ∈ uncles, u.height < height ∧ height ≤ u.height + uncleMaxDepth ∧
      (∃ parent, anc[pred64 u.height]? = some parent ∧ parent.getHash.val = u.prevBlockHash) ∧
      (anc[u.height]?).map FullBlock.getHash ≠ some u.getHash ∧ u.getHash ∉ refd := by
  induction uncles generalizing refd with
  | nil => exact ⟨List.nodup_nil, nofun⟩
  | cons u uncles ih =>
    rw [checkUncleSlots] at h
    rcases bind_eq_ok.mp h with ⟨_, hdepth, h₁⟩
    split at h₁
    · cases h₁
    · next parent hparent =>
      rcases bind_eq_ok.mp h₁ with ⟨_, hprev, h₂⟩
      rcases bind_eq_ok.mp h₂ with ⟨_, hcanonical, h₃⟩
      rcases bind_eq_ok.mp h₃ with ⟨_, hnew, h₄⟩
      rcases bind_eq_ok.mp h₄ with ⟨_, _, h₅⟩
      rcases bind_eq_ok.mp h₅ with ⟨_, _, h₆⟩
      rcases bind_eq_ok.mp h₆ with ⟨_, _, hrest⟩
      rcases ih hrest with ⟨hnodup, hall⟩
      rw [ensure_eq_ok] at hdepth hprev hcanonical hnew
      constructor
      · rw [List.map_cons, List.nodup_cons]
        refine ⟨fun hmem => ?_, hnodup⟩
        rcases List.mem_map.mp hmem with ⟨w, hw, heq⟩
        exact (hall w hw).2.2.2.2 (heq ▸ List.mem_cons_self)
      · refine List.forall_mem_cons.mpr ⟨⟨hdepth.1, hdepth.2, ⟨parent, hparent, hprev⟩, hcanonical, hnew⟩, ?_⟩
        intro w hw
        rcases hall w hw with ⟨hlt, hle, hpar, hcan, hnot⟩
        exact ⟨hlt, hle, hpar, hcan, fun hmem => hnot (List.mem_cons_of_mem _ hmem)⟩

/-- **What `validateUncles` makes sure of** on a chain the lookup knows. -/
theorem validateUncles_eq_ok {getBlock : Bytes → Except Err FullBlock} {block : FullBlock} {rest : List FullBlock}
    (hdesc : Descends (block :: rest)) (hresolves : ∀ b ∈ rest, Resolves getBlock b)
    (h : validateUncles getBlock block = .ok ()) :
    (block.uncles.map BlockHeader.getHash).Nodup ∧ ∀ u ∈ block.uncles, u.height < block.getHeight ∧
      (∃ p ∈ rest, p.getHash.val = u.prevBlockHash ∧ p.getHeight + 1 = u.height ∧
        block.getHeight ≤ p.getHeight + (uncleMaxDepth + 1)) ∧
      (∀ c ∈ rest, c.getHeight = u.height → c.getHash ≠ u.getHash) ∧
      ∀ c ∈ rest, u.height ≤ c.getHeight → ∀ w ∈ c.uncles, w.getHash ≠ u.getHash := by
  unfold validateUncles at h
  split at h
  · next hnil =>
    rw [hnil]
    exact ⟨List.nodup_nil, nofun⟩
  · rcases bind_eq_ok.mp h with ⟨⟨anc, refd⟩, hwalk, hslots⟩
    rcases uncleAncestors_eq_ok hdesc hresolves rfl hwalk with ⟨hsees, honly, _, _⟩
    rcases checkUncleSlots_eq_ok hslots with ⟨hnodup, hall⟩
    refine ⟨hnodup, fun u hu => ?_⟩
    rcases hall u hu with ⟨hlt, hle, ⟨parent, hparent, hprev⟩, hcanonical, hnew⟩
    refine ⟨hlt, ?_, ?_, ?_⟩
    · rcases honly _ _ hparent with habsent | ⟨p, hp, hheight, hheader⟩
      · simp at habsent
      · have hbelow := hdesc.height_le p hp
        have hpos : u.height ≠ 0 := by
          intro hzero
          rw [hzero] at hheight hle
          simp only [pred64, if_true, uncleMaxDepth] at hheight hle
          omega
        rw [pred64_of_pos (by omega)] at hheight
        refine ⟨p, hp, ?_, by omega, by omega⟩
        rw [← hprev]
        exact congrArg (fun x : BlockHeader => x.getHash.val) hheader.symm
    · intro c hc hheight hhash
      rcases hsees.ancestor c hc (by omega) with ⟨c', hc', hheader⟩
      refine hcanonical ?_
      rw [← hheight, hc', ← hhash]
      exact congrArg (fun x : BlockHeader => some x.getHash) hheader
    · intro c hc hheight w hw hhash
      exact hnew (hhash ▸ hsees.uncle c hc (by omega) w hw)

/-! ## §3 — the whole chain -/

theorem getGenesisBlock_uncles {network : Network} {g : FullBlock} (hg : getGenesisBlock network = .ok g) :
    g.uncles = [] := by
  rcases bind_eq_ok.mp hg with ⟨tx, _, hg⟩
  rcases bind_eq_ok.mp hg with ⟨timestamp, _, hg⟩
  rcases bind_eq_ok.mp hg with ⟨nonce, _, hg⟩
  obtain rfl := pure_eq_ok.mp hg
  rfl

/-- Every header a chain is made of: its blocks and what they reference. -/
def chainHeaders (l : List FullBlock) : Set BlockHeader := {x | ∃ b ∈ l, x = b.header ∨ x ∈ b.uncles}

omit [Crypto] in
theorem chainHeaders_mono {b : FullBlock} {l : List FullBlock} : chainHeaders l ⊆ chainHeaders (b :: l) := by
  rintro x ⟨c, hc, hx⟩
  exact ⟨c, List.mem_cons_of_mem b hc, hx⟩

/-- **`earners l`** — the headers a chain pays for: its blocks, then the uncles they reference. -/
def earners (l : List FullBlock) : List BlockHeader := l.map FullBlock.header ++ l.flatMap FullBlock.uncles

omit [Crypto] in
theorem mem_earners {l : List FullBlock} {x : BlockHeader} : x ∈ earners l ↔ x ∈ chainHeaders l := by
  simp only [earners, List.mem_append, List.mem_map, List.mem_flatMap, chainHeaders, Set.mem_ofPred_eq]
  constructor
  · rintro (⟨b, hb, rfl⟩ | ⟨b, hb, hx⟩)
    · exact ⟨b, hb, .inl rfl⟩
    · exact ⟨b, hb, .inr hx⟩
  · rintro ⟨b, hb, rfl | hx⟩
    · exact .inl ⟨b, hb, rfl⟩
    · exact .inr ⟨b, hb, hx⟩

theorem injOn_chainHeaders {l : List FullBlock} (h : ((earners l).map BlockHeader.getHash).Nodup) :
    Set.InjOn BlockHeader.getHash (chainHeaders l) := by
  intro x hx y hy hxy
  exact List.inj_on_of_nodup_map h (mem_earners.mpr hx) (mem_earners.mpr hy) hxy

/-- **`Kinship l`** — how the uncles of a chain stand to its blocks: none is referenced twice, none is a block of the
chain, and each is the child of one, in reach of the block that references it. -/
structure Kinship (l : List FullBlock) : Prop where
  once : (l.flatMap fun b => b.uncles.map BlockHeader.getHash).Nodup
  aside : ∀ b ∈ l, ∀ u ∈ b.uncles, ∀ c ∈ l, c.getHash ≠ u.getHash
  parent : ∀ b ∈ l, ∀ u ∈ b.uncles, ∃ p ∈ l, p.getHash.val = u.prevBlockHash ∧ p.getHeight + 1 = u.height ∧
    u.height < b.getHeight ∧ b.getHeight ≤ p.getHeight + (uncleMaxDepth + 1)

/-- The window is wide enough: a block that passes on top of a chain keeps its uncles in order. -/
theorem CheckedChain.kinship {l : List FullBlock} (h : CheckedChain l)
    (hinj : Set.InjOn BlockHeader.getHash (chainHeaders l)) : Kinship l := by
  induction h with
  | genesis hg =>
    have hnone := getGenesisBlock_uncles hg
    refine ⟨?_, ?_, ?_⟩
    · simp only [List.flatMap_cons, List.flatMap_nil, List.append_nil, hnone]
      exact List.nodup_nil
    · simp [hnone]
    · simp [hnone]
  | @extend now getBlock block prev l hchain hresolves hcheck ih =>
    have hwhole : CheckedChain (block :: prev :: l) := .extend hchain hresolves hcheck
    have hbelow := hwhole.descends.height_le
    rcases ih (hinj.mono chainHeaders_mono) with ⟨hold, haside, hparent⟩
    rcases bind_eq_ok.mp hcheck with ⟨_, _, hcheck⟩
    rcases bind_eq_ok.mp hcheck with ⟨_, _, hcheck⟩
    rcases bind_eq_ok.mp hcheck with ⟨_, _, hvalid⟩
    rcases validateUncles_eq_ok hwhole.descends hresolves hvalid with ⟨hnew, hslots⟩
    refine ⟨?_, ?_, ?_⟩
    · rw [List.flatMap_cons]
      refine List.Nodup.append hnew hold ?_
      -- a repeated hash is the same uncle, so the earlier reference is in the window
      intro x hx hx'
      rcases List.mem_map.mp hx with ⟨u, hu, rfl⟩
      rcases List.mem_flatMap.mp hx' with ⟨c, hc, hx'⟩
      rcases List.mem_map.mp hx' with ⟨w, hw, heq⟩
      obtain rfl : w = u := hinj ⟨c, List.mem_cons_of_mem _ hc, .inr hw⟩ ⟨block, List.mem_cons_self, .inr hu⟩ heq
      rcases hparent c hc w hw with ⟨_, _, _, _, hlt, _⟩
      exact (hslots w hu).2.2.2 c hc hlt.le w hw rfl
    · refine List.forall_mem_cons.mpr ⟨fun u hu c hc heq => ?_, fun b hb u hu => ?_⟩
      · -- the block itself is above its uncles, an earlier one at the uncle's height is compared with it
        have hheader : c.header = u := hinj ⟨c, hc, .inl rfl⟩ ⟨block, List.mem_cons_self, .inr hu⟩ heq
        have hheight : c.getHeight = u.height := congrArg BlockHeader.height hheader
        have hlt := (hslots u hu).1
        rcases List.mem_cons.mp hc with rfl | hc
        · omega
        · exact (hslots u hu).2.2.1 c hc hheight heq
      · refine List.forall_mem_cons.mpr ⟨fun heq => ?_, haside b hb u hu⟩
        have hheader : block.header = u :=
          hinj ⟨block, List.mem_cons_self, .inl rfl⟩ ⟨b, List.mem_cons_of_mem _ hb, .inr hu⟩ heq
        have hheight : block.getHeight = u.height := congrArg BlockHeader.height hheader
        rcases hparent b hb u hu with ⟨_, _, _, _, hlt, _⟩
        have := hbelow b hb
        omega
    · refine List.forall_mem_cons.mpr ⟨fun u hu => ?_, fun b hb u hu => ?_⟩
      · rcases hslots u hu with ⟨hlt, ⟨p, hp, hprev, hheight, hdepth⟩, _⟩
        exact ⟨p, List.mem_cons_of_mem block hp, hprev, hheight, hlt, hdepth⟩
      · rcases hparent b hb u hu with ⟨p, hp, hrest⟩
        exact ⟨p, List.mem_cons_of_mem block hp, hrest⟩

/-- **Uncles are unique along a chain**: no uncle hash is referenced twice, neither by two blocks nor by one; no uncle
is a block of the chain; and the parent of an uncle is a block of the chain at most `UncleMaxDepth + 1` generations
below the block that references it. -/
theorem CheckedChain.uncles_once {l : List FullBlock} (h : CheckedChain l)
    (hinj : Set.InjOn BlockHeader.getHash (chainHeaders l)) :
    (l.flatMap fun b => b.uncles.map BlockHeader.getHash).Nodup ∧
      ∀ b ∈ l, ∀ u ∈ b.uncles, (∀ c ∈ l, c.getHash ≠ u.getHash) ∧
        ∃ p ∈ l, p.getHash.val = u.prevBlockHash ∧ p.getHeight + 1 = u.height ∧ u.height < b.getHeight ∧
          b.getHeight ≤ p.getHeight + 31 := by
  have hkin := h.kinship hinj
  exact ⟨hkin.once, fun b hb u hu => ⟨hkin.aside b hb u hu, hkin.parent b hb u hu⟩⟩

/-- A block with the uncles it references. -/
def handNephew (block : FullBlock) (uncles : List BlockHeader) : FullBlock :=
  { block with uncles := uncles, header := { block.header with unclesHash := (calcUnclesHash uncles).val } }

/-- The lookup of a list of blocks. -/
def handLookup (l : List FullBlock) (hash : Bytes) : Except Err FullBlock :=
  match l.find? fun b => b.getHash.val = hash with
  | some b => .ok b
  | none => .error .keyNotFound

/-- Two blocks above genesis by one miner, the second one a nephew, tip first. -/
def handKin (txs : List FullTx) (uncles : List BlockHeader) : List FullBlock :=
  [handNephew (handSeal (handSeal handGenesis 1 [] []) 1 txs []) uncles, handSeal handGenesis 1 [] [], handGenesis]

/-- A block another miner made instead of the first. -/
def handUncle : BlockHeader := (handSeal handGenesis 2 [] []).header

end Uncles

/-- The hand-made family is a checked chain when its nephew passes. -/
theorem checkedChain_handKin (txs : List FullTx) (uncles : List BlockHeader) :
    letI := Engine.bare
    checkBranchBlock handNow (handLookup [handSeal handGenesis 1 [] [], handGenesis])
        (handNephew (handSeal (handSeal handGenesis 1 [] []) 1 txs []) uncles) (handSeal handGenesis 1 [] []) =
      .ok () → CheckedChain (handKin txs uncles) := by
  let _ := Engine.bare
  intro hnephew
  have hgenesis : getGenesisBlock ZERONET = .ok handGenesis := (getGenesisBlock_byHand _ ZERONET).trans rfl
  have hknown : ∀ l : List FullBlock, (∀ b ∈ l, handLookup l b.getHash.val = .ok b) →
      ∀ b ∈ l, Resolves (handLookup l) b := fun _ hl b hb => ⟨b, hl b hb, rfl, rfl⟩
  have hfirst : checkBranchBlock handNow (handLookup [handGenesis]) (handSeal handGenesis 1 [] []) handGenesis =
      .ok () := by decide +kernel
  refine .extend (.extend (.genesis hgenesis) (hknown _ ?_) hfirst) (hknown _ ?_) hnephew
  · decide +kernel
  · decide +kernel

theorem uncles_once_handKin :
    letI := Engine.bare
    ((handKin [] [handUncle]).flatMap fun b => b.uncles.map BlockHeader.getHash).Nodup ∧
      ∀ b ∈ handKin [] [handUncle], ∀ u ∈ b.uncles, (∀ c ∈ handKin [] [handUncle], c.getHash ≠ u.getHash) ∧
        ∃ p ∈ handKin [] [handUncle], p.getHash.val = u.prevBlockHash ∧ p.getHeight + 1 = u.height ∧
          u.height < b.getHeight ∧ b.getHeight ≤ p.getHeight + 31 := by
  let _ := Engine.bare
  have hchain : CheckedChain (handKin [] [handUncle]) := checkedChain_handKin [] [handUncle] (by decide +kernel)
  exact hchain.uncles_once (injOn_chainHeaders (by decide +kernel))

end NgCore
