/-
# NgCore.Chain.Beacon — what reaches the randomness beacon

`ngstate/beacon.go`: the last stage of a block folds its salts into the seed. Nothing before it writes the seed, so
the next seed is a function of the parent seed, the parent hash, the height and the salts of the block
(`beacon_upgrade`).

The salts are folded for EVERY transaction of the block. A reveal's salt was fixed by its commitment; the salt of a
mint is covered by no digest of the header and no check reads it, so a producer picks it freely.

DELIVERABLE: `beacon_eq_iff_salts`.
-/
import NgCore.Chain.Replay

namespace NgCore

open Lib (Bucket Txn)
open StateTxn (exec_bind_ok)

/-! ## §1 — the seed after a block -/

section Seed

variable [Crypto]

/-- **`BeaconFree w`** — the write is not one of the seed. -/
def Write.BeaconFree : Write → Prop
  | .setBeacon _ _ => False
  | _ => True

theorem Write.beacon_step {w : Write} (hw : w.BeaconFree) (s : State) : (w.step s).beacon = s.beacon := by
  cases w with
  | setContract rec account =>
    rcases State.reconcileCode_eq rec account s with ⟨code, hcode⟩
    show (State.setContract rec account s).beacon = _
    unfold State.setContract
    rw [hcode]
    rfl
  | delContract rec a =>
    rcases State.releaseSlot_eq rec a s with ⟨code, hcode⟩
    show (State.delContract rec a s).beacon = _
    unfold State.delContract
    rw [hcode]
    rfl
  | registerPubKey rec a scheme pubKey =>
    show (State.registerPubKey rec a _ s).beacon = _
    unfold State.registerPubKey
    split <;> rfl
  | pruneCommits tip =>
    have hdrop : ∀ (l : List ((Nat × Bytes32) × Address)) (t : State),
        (l.foldl (fun s e => s.consumeCommit e.1.1 e.1.2) t).beacon = t.beacon := by
      intro l
      induction l with
      | nil => exact fun t => rfl
      | cons e l ih => exact fun t => ih _
    show (State.pruneCommits tip s).beacon = _
    unfold State.pruneCommits
    split
    · rfl
    · exact hdrop _ s
  | setBalance | putCommit | consumeCommit | journalConsumed | notes | apply => rfl
  | setBeacon => exact absurd hw id

theorem beacon_exec {α : Type} {p : StateTxn α} {s s' : State} {a : α}
    (hp : p.Writes (fun _ => True) Write.BeaconFree) (h : p.exec s = .ok (a, s')) : s'.beacon = s.beacon :=
  Txn.run_preserves (I := fun t => t.beacon = s.beacon) (fun _ _ => trivial)
    (fun _ t hw ht => (Write.beacon_step hw t).trans ht) hp h rfl

end Seed

/-- The salts a block reveals, in order. -/
def FullBlock.salts (block : FullBlock) : Bytes := block.txs.flatMap FullTx.salt

/-- What the seed after a block is the hash of. -/
def beaconPreimage [Crypto] (prev : Bytes32) (block : FullBlock) : Bytes :=
  beaconDomain ++ prev.val ++ block.header.prevBlockHash ++ (hash256 block.salts).val ++
    packUint64LE block.getHeight

section Block

variable [Engine] {cfg : Config} {block : FullBlock} {s s' : State}

/-- **The seed after a block**: that of the parent, advanced by the block. -/
theorem beacon_upgrade (hfork : isForkActive block.header.network .forkRandomBeacon block.getHeight = true)
    (hpos : block.getHeight ≠ 0) (h : (upgrade cfg block).exec s = .ok ((), s')) :
    s'.view.beacon = some (nextBeacon s.view.getBeacon block).val := by
  obtain ⟨_, t₁, hcommits, h₁⟩ := exec_bind_ok.mp h
  obtain ⟨_, t₂, htxs, h₂⟩ := exec_bind_ok.mp h₁
  obtain ⟨_, t₃, hbeacon, h₃⟩ := exec_bind_ok.mp h₂
  have hbefore : t₂.beacon = s.beacon := by
    have e₁ : t₁.beacon = s.beacon :=
      beacon_exec (writes_handleCommits (fun _ _ => trivial) (fun _ _ _ => trivial) block) hcommits
    have hφ : Write.AdmitsEffects Write.BeaconFree (cfg.recorder block.getHeight) (fun _ => True) fun _ => True :=
      ⟨fun _ _ => trivial, fun _ _ => trivial, fun _ => trivial, fun _ _ => trivial, fun _ _ => trivial⟩
    have hwrites : (handleTxs cfg (cfg.recorder block.getHeight) block.header.timestamp block.txs).Writes
        (fun _ => True) Write.BeaconFree :=
      writes_handleTxs hφ (fun _ _ _ _ => trivial) (fun _ _ => trivial) walks_any cfg (fun _ _ _ _ _ => trivial) _
    exact (beacon_exec hwrites htxs).trans e₁
  have hseed : t₂.view.getBeacon = s.view.getBeacon := by
    show copy32 ((t₂.beacon.cur[()]?).getD []) = copy32 ((s.beacon.cur[()]?).getD [])
    rw [hbefore]
  -- the stage itself
  have hset : t₃ = t₂.setBeacon (cfg.recorder block.getHeight) (nextBeacon s.view.getBeacon block).val := by
    unfold updateBeacon at hbeacon
    rw [if_neg (by simp [hfork, hpos])] at hbeacon
    rw [← hseed]
    cases hbeacon
    rfl
  have hafter : s'.beacon = t₃.beacon := by
    obtain ⟨_, t₄, hprune, h₄⟩ := exec_bind_ok.mp h₃
    have e₄ : t₄.beacon = t₃.beacon := by
      cases hprune
      exact Write.beacon_step (w := .pruneCommits block.getHeight) trivial t₃
    cases h₄
    exact e₄
  show s'.beacon.cur[()]? = _
  rw [hafter, hset]
  show (t₂.beacon.write false _ () (some _)).cur[()]? = _
  rw [Lib.Versioned.cur_write, if_pos rfl]

/-! ## §2 — two blocks on one parent -/

theorem nextBeacon_eq (prev : Bytes32) (block : FullBlock) :
    nextBeacon prev block = hash256 (beaconPreimage prev block) := rfl

omit [Engine] in
/-- Only the networks with a genesis block have blocks at all, and on both the beacon runs from height one. -/
theorem forkRandomBeacon_of_isGenesis [Crypto] {block : FullBlock} {genesis : Bool}
    (h : block.isGenesis = .ok genesis) :
    isForkActive block.header.network .forkRandomBeacon block.getHeight = true := by
  rcases bind_eq_ok.mp h with ⟨g, hg, _⟩
  rcases bind_eq_ok.mp hg with ⟨tx, htx, _⟩
  rcases bind_eq_ok.mp htx with ⟨sign, hsign, _⟩
  unfold getGenesisGenerateTxSignature at hsign
  split at hsign
  · next hnetwork =>
    have hnetwork : block.header.network = ZERONET ∨ block.header.network = TESTNET := hnetwork.symm
    unfold isForkActive forkHeight
    rw [if_neg (by decide), if_pos hnetwork]
    simp
  · cases hsign

theorem beacon_applyChecked {parent : FullBlock} (hfollows : Follows parent block)
    (h : (ledger cfg).applyChecked block s = .ok s') :
    s'.view.beacon = some (hash256 (beaconPreimage s.view.getBeacon block)).val := by
  rcases State.applyChecked_eq_ok h with ⟨genesis, hgenesis, _, hrun, _⟩
  have hpos : block.getHeight ≠ 0 := by
    have := hfollows.1
    omega
  rw [beacon_upgrade (forkRandomBeacon_of_isGenesis hgenesis) hpos hrun, nextBeacon_eq]

/-- Every transaction of an applied block is a mint or an effect. -/
theorem isEffect_or_generate_of_upgrade (h : (upgrade cfg block).exec s = .ok ((), s')) :
    ∀ tx ∈ block.txs, tx.type = generateTx ∨ tx.isEffect := by
  obtain ⟨_, t₁, _, h₁⟩ := exec_bind_ok.mp h
  obtain ⟨_, t₂, htxs, _⟩ := exec_bind_ok.mp h₁
  have hall : ∀ (l : List FullTx) (gas gas' : Nat) (t t' : State),
      (l.foldlM (fun gas tx => handleTx cfg (cfg.recorder block.getHeight) block.header.timestamp gas tx) gas).exec t =
        .ok (gas', t') → ∀ tx ∈ l, tx.type = generateTx ∨ tx.isEffect := by
    intro l
    induction l with
    | nil => exact fun _ _ _ _ _ tx htx => absurd htx List.not_mem_nil
    | cons tx l ih =>
      intro gas gas' t t' hrun
      obtain ⟨gas₁, t₁, htx, hrest⟩ := exec_bind_ok.mp hrun
      refine List.forall_mem_cons.mpr ⟨?_, ih gas₁ gas' t₁ t' hrest⟩
      replace htx : (handleTx cfg (cfg.recorder block.getHeight) block.header.timestamp gas tx).exec t =
          .ok (gas₁, t₁) := htx
      unfold handleTx at htx
      split at htx
      · next htype => exact .inl htype
      · split at htx
        · next htype => exact .inr (.inl htype)
        · split at htx
          · next htype => exact .inr (.inr htype)
          · cases htx
  exact hall block.txs _ _ _ _ htxs

omit [Engine] in
/-- Where no mint carries a salt, the salts are those of the reveals. -/
theorem FullBlock.salts_eq_effects {block : FullBlock} (htypes : ∀ tx ∈ block.txs, tx.type = generateTx ∨ tx.isEffect)
    (hmint : ∀ tx ∈ block.txs, tx.type = generateTx → tx.salt = []) :
    block.salts = block.effects.flatMap FullTx.salt := by
  unfold FullBlock.salts FullBlock.effects
  revert htypes hmint
  induction block.txs with
  | nil => exact fun _ _ => rfl
  | cons tx l ih =>
    intro htypes hmint
    rw [List.forall_mem_cons] at htypes hmint
    rw [List.flatMap_cons, ih htypes.2 hmint.2]
    by_cases heffect : tx.isEffect
    · rw [List.filter_cons_of_pos (by simpa using heffect), List.flatMap_cons]
    · rw [List.filter_cons_of_neg (by simpa using heffect), hmint.1 (htypes.1.resolve_right heffect),
        List.nil_append]

/-- **What the producer can do to the seed**: two blocks applied to one state on one parent leave the same seed
exactly when their salts agree, the salts of their mints included; if no mint carries a salt, the same reveals are
the same seed. -/
theorem beacon_eq_iff_salts {s s₁ s₂ : State} {parent b₁ b₂ : FullBlock} (hfollows₁ : Follows parent b₁)
    (hfollows₂ : Follows parent b₂) (heffects : b₁.effects = b₂.effects)
    (hrun₁ : (ledger cfg).applyChecked b₁ s = .ok s₁) (hrun₂ : (ledger cfg).applyChecked b₂ s = .ok s₂)
    (hfree : CollisionFree {x | x ∈ [b₁.salts, b₂.salts, beaconPreimage s.view.getBeacon b₁,
      beaconPreimage s.view.getBeacon b₂]}) :
    (s₁.view.beacon = s₂.view.beacon ↔ b₁.salts = b₂.salts) ∧
      ((∀ tx ∈ b₁.txs ++ b₂.txs, tx.type = generateTx → tx.salt = []) → s₁.view.beacon = s₂.view.beacon) := by
  have hparent : b₁.header.prevBlockHash = b₂.header.prevBlockHash := hfollows₁.2.trans hfollows₂.2.symm
  have hheight : b₁.getHeight = b₂.getHeight := hfollows₁.1.trans hfollows₂.1.symm
  have hseed₁ := beacon_applyChecked hfollows₁ hrun₁
  have hseed₂ := beacon_applyChecked hfollows₂ hrun₂
  have hsame : b₁.salts = b₂.salts → s₁.view.beacon = s₂.view.beacon := by
    intro hsalts
    rw [hseed₁, hseed₂]
    unfold beaconPreimage
    rw [hparent, hheight, hsalts]
  refine ⟨⟨fun hbeacon => ?_, hsame⟩, fun hmint => hsame ?_⟩
  · rw [hseed₁, hseed₂] at hbeacon
    have hpre : beaconPreimage s.view.getBeacon b₁ = beaconPreimage s.view.getBeacon b₂ :=
      hfree (by simp) (by simp) (Subtype.ext (Option.some_injective _ hbeacon))
    -- the salts hash stands at the same place in both
    unfold beaconPreimage at hpre
    rw [hparent, hheight] at hpre
    have hhash := List.append_cancel_left (List.append_cancel_right hpre)
    exact hfree (by simp) (by simp) (Subtype.ext hhash)
  · rw [List.forall_mem_append] at hmint
    rcases State.applyChecked_eq_ok hrun₁ with ⟨_, _, _, hup₁, _⟩
    rcases State.applyChecked_eq_ok hrun₂ with ⟨_, _, _, hup₂, _⟩
    rw [FullBlock.salts_eq_effects (isEffect_or_generate_of_upgrade hup₁) hmint.1,
      FullBlock.salts_eq_effects (isEffect_or_generate_of_upgrade hup₂) hmint.2, heffects]

end Block

/-! ## §3 — a mint with a salt -/

/-- The block with a salt in its mint. -/
def handSalted [Crypto] (block : FullBlock) : FullBlock :=
  { block with txs := block.txs.map fun tx => { tx with salt? := some [1] } }

/-- The two blocks, on the genesis state: what they leave there. -/
theorem beacon_eq_iff_salts_handSalted :
    letI := Engine.bare
    ∃ s₁ s₂ : State,
      (ledger ⟨ZERONET, true⟩).applyChecked (handSeal handGenesis 1 [] []) (handNode true).state = .ok s₁ ∧
      (ledger ⟨ZERONET, true⟩).applyChecked (handSalted (handSeal handGenesis 1 [] [])) (handNode true).state = .ok s₂ ∧
      (s₁.view.beacon = s₂.view.beacon ↔
        (handSeal handGenesis 1 [] []).salts = (handSalted (handSeal handGenesis 1 [] [])).salts) := by
  let _ := Engine.bare
  have hagree := fun b => ((handLedger_agrees (fun _ => none) ⟨ZERONET, true⟩).applyChecked b
    (committed_handNode (fun _ => none) true)).1
  have hrun : okAnd ((handLedger ⟨ZERONET, true⟩).applyChecked (handSeal handGenesis 1 [] []) (handNode true).state)
      (fun _ => okAnd ((handLedger ⟨ZERONET, true⟩).applyChecked (handSalted (handSeal handGenesis 1 [] []))
        (handNode true).state) fun _ => true) = true := by
    decide +kernel
  obtain ⟨s₁, h₁, hrun⟩ := exists_of_okAnd hrun
  obtain ⟨s₂, h₂, _⟩ := exists_of_okAnd hrun
  have hrun₁ := (hagree _).trans h₁
  have hrun₂ := (hagree _).trans h₂
  refine ⟨s₁, s₂, hrun₁, hrun₂, (beacon_eq_iff_salts ⟨rfl, rfl⟩ ⟨rfl, rfl⟩ (by decide +kernel) hrun₁ hrun₂
    fun x hx y hy => ?_).1⟩
  exact List.inj_on_of_nodup_map (by decide +kernel) hx hy

/-- **One parent, the same reveals, two seeds.** -/
theorem beacon_ne_handSalted :
    letI := Engine.bare
    ∃ n n₁ n₂ : Node State, Node.genesis ⟨ZERONET, true⟩ = .ok n ∧
      Follows handGenesis (handSeal handGenesis 1 [] []) ∧
      Follows handGenesis (handSalted (handSeal handGenesis 1 [] [])) ∧
      (handSeal handGenesis 1 [] []).effects = (handSalted (handSeal handGenesis 1 [] [])).effects ∧
      n.applyBlock (ledger ⟨ZERONET, true⟩) handNow (handSeal handGenesis 1 [] []) = .ok n₁ ∧
      n.applyBlock (ledger ⟨ZERONET, true⟩) handNow (handSalted (handSeal handGenesis 1 [] [])) = .ok n₂ ∧
      n₁.state.view.beacon ≠ n₂.state.view.beacon := by
  let _ := Engine.bare
  have hagree := fun b => ((handLedger_agrees (fun _ => none) ⟨ZERONET, true⟩).applyBlock handNow b
    (committed_handNode (fun _ => none) true)).1
  have hrun : okAnd ((handNode true).applyBlock (handLedger ⟨ZERONET, true⟩) handNow (handSeal handGenesis 1 [] []))
      (fun n₁ => okAnd ((handNode true).applyBlock (handLedger ⟨ZERONET, true⟩) handNow
        (handSalted (handSeal handGenesis 1 [] []))) fun n₂ =>
          decide (n₁.state.view.beacon ≠ n₂.state.view.beacon)) = true := by
    decide +kernel
  obtain ⟨n₁, h₁, hrun⟩ := exists_of_okAnd hrun
  obtain ⟨n₂, h₂, hne⟩ := exists_of_okAnd hrun
  exact ⟨handNode true, n₁, n₂, genesis_byHand _ true, by decide +kernel, by decide +kernel, by decide +kernel,
    (hagree _).trans h₁, (hagree _).trans h₂, of_decide_eq_true hne⟩

end NgCore
