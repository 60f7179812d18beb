/-
# NgCore.Chain.ForkChoice — the tip is the best block

Along every run of `ApplyBlock` calls the canonical tip is the best of all blocks the node ever accepted: the
heaviest by declared difficulty, ties broken by the smaller hash. In particular it is the best of what is
stored; what was pruned was worse when it went, and the tip only gets better.

`Leads H origin s A tip` is the invariant, with `A` the headers accepted so far; `applyBlock_leads` is its step.
-/
import NgCore.Chain.Paths

namespace NgCore

open Lib (Bucket)
open Lib.Forest (Best Preferred preferred_total)
open Lib.Rlp (beVal)
open BlockStore (Sound Tallied Reindexed)

section Calls

variable [Crypto]

/-- The best header of a set, by declared difficulty and hash. -/
abbrev BlockHeader.Best (H : Set BlockHeader) (origin : BlockHeader) (A : Set BlockHeader)
    (x : BlockHeader) : Prop :=
  Lib.Forest.Best BlockHeader.key BlockHeader.prevBlockHash (fun x => beVal x.difficulty) H origin A x

/-- **`Leads H origin s A tip`** — the tip of the store is the best of the accepted headers `A`, which cover
what is stored. -/
structure BlockStore.Leads (H : Set BlockHeader) (origin : BlockHeader) (s : BlockStore)
    (A : Set BlockHeader) (tip : FullBlock) : Prop where
  sound : Sound H s tip
  tallied : Tallied H origin s
  best : BlockHeader.Best H origin A tip.header
  stored : ∀ (h : Bytes) (b : FullBlock), s.blocks[h]? = some b → b.header ∈ A

theorem BlockStore.Leads.origin_stored {H A : Set BlockHeader} {origin : BlockHeader} {s : BlockStore}
    {tip : FullBlock} (h : Leads H origin s A tip) : s.blocks[origin.key]? ≠ none := by
  obtain ⟨g, hindex, hbody, _⟩ := h.sound.canonical _ le_rfl h.sound.origin
  rw [h.sound.originAt, h.tallied.originHash] at hindex
  rw [Option.some_injective _ hindex, hbody]
  exact Option.some_ne_none g

/-- **`TipBest`** — the tip is the best of all stored blocks: each has a cumulative declared difficulty, and
the tip's is greater, or equal with the smaller hash. -/
def BlockStore.TipBest (H : Set BlockHeader) (origin : BlockHeader) (s : BlockStore) : Prop :=
  ∃ tip w, s.getLatestBlock = .ok tip ∧ tip.header.Weighs H origin w ∧
    ∀ (h : Bytes) (b : FullBlock), s.blocks[h]? = some b → ∃ wb, b.header.Weighs H origin wb ∧
      (b.header = tip.header ∨ Preferred tip.header.key w b.header.key wb)

theorem BlockStore.Leads.tipBest {H : Set BlockHeader} {origin : BlockHeader} {s : BlockStore} {A : Set BlockHeader}
    {tip : FullBlock} (h : Leads H origin s A tip) : s.TipBest H origin := by
  obtain ⟨w, hw⟩ := h.best.weighs
  refine ⟨tip, w, BlockStore.getBlockByHash_eq_ok.mpr ?_, hw, fun hash b hb => ?_⟩
  · rw [h.sound.latestHash]
    exact h.sound.tipBody
  · obtain ⟨wb, hwb⟩ := h.tallied.weighs hash b hb
    refine ⟨wb, hwb, ?_⟩
    by_cases heq : b.header = tip.header
    · exact .inl heq
    · exact .inr (h.best.preferred b.header (h.stored hash b hb) heq wb w hwb hw)

namespace Node

open BlockStore

variable {S : Type} {L : Ledger S} {now : Nat} {H : Set BlockHeader} {origin : BlockHeader}
  {n n' : Node S} {tip block : FullBlock} {A : Set BlockHeader}
  (hinj : Set.InjOn BlockHeader.getHash H)
include hinj

theorem extendTip_leads (hgen : L.isGenesis block = .ok true → block.getHeight = 0)
    (h : Leads H origin n.store A tip) (hb : block.header ∈ H)
    (hprev : block.getPrevHash = n.store.latestHash) (hok : extendTip L now block n = .ok n') :
    Leads H origin n'.store (insert block.header A) block ∧
      ∃ p ∈ A, block.header.prevBlockHash = p.key := by
  obtain ⟨hfollows, hsound, _⟩ := extendTip_sound hinj h.sound hb hprev hok
  obtain ⟨ht, hpos⟩ := extendTip_tallied hinj hgen h.tallied h.sound hb hprev hok
  have hA : tip.header ∈ A := h.stored _ _ h.sound.tipBody
  refine ⟨⟨hsound, ht, ?_, ?_⟩, tip.header, hA, hfollows.2⟩
  · refine h.best.insert_better (ht.weighs _ _ hsound.tipBody) fun w wb hw hwb => .inl ?_
    have horigin := h.sound.origin
    have hheight := hfollows.1
    have hweighs := weighs_of_follows (h.sound.headers _ _ h.sound.tipBody) hwb hfollows
      (ne_origin hinj h.tallied h.sound (by omega))
    have := hw.unique (BlockHeader.injOn_key hinj) hweighs
    omega
  · intro hash b hbody
    rcases extendTip_blocks hok hbody with rfl | hbody
    · exact .inl rfl
    · exact .inr (h.stored hash b hbody)

theorem importSide_leads (h : Leads H origin n.store A tip) (hb : block.header ∈ H)
    (hok : importSide L now block n = .ok n') :
    ∃ tip', Leads H origin n'.store (insert block.header A) tip' ∧
      ∃ p ∈ A, block.header.prevBlockHash = p.key := by
  have ht' := importSide_tallied hinj h.tallied h.sound hb hok
  obtain ⟨prev, blockWork, tip', tipWork, store, hw, hcase⟩ := importSide_eq_ok hok
  obtain ⟨hheader, hsound, hheights, horigin, hstored⟩ := hw.sound hinj h.sound hb
  obtain ⟨ht, hwb, hwt, hpos⟩ := hw.tallied hinj h.tallied h.sound hb
  have hparent : ∃ p ∈ A, block.header.prevBlockHash = p.key :=
    ⟨prev.header, h.stored _ _ hw.parent, (h.sound.keyed _ _ hw.parent).symm⟩
  have hunique := BlockHeader.injOn_key hinj
  -- what is stored before fork choice is what was accepted, and the block
  have hcover : ∀ (hash : Bytes) (b : FullBlock), store.blocks[hash]? = some b →
      b.header ∈ insert block.header A := by
    intro hash b hbody
    rcases hw.blocks hbody with rfl | hbody
    · exact .inl rfl
    · exact .inr (h.stored hash b hbody)
  have hbest : BlockHeader.Best H origin A tip'.header := hheader ▸ h.best
  rcases hcase with ⟨hloses, rfl⟩ | ⟨hbeats, first, rest, hbranch, _, hswitch⟩
  · refine ⟨tip', ⟨hsound, ht, hbest.insert_worse fun hne w wb hwx hwb' => ?_, hcover⟩, hparent⟩
    rw [hwx.unique hunique hwb, hwb'.unique hunique hwt]
    have hkeys : tip'.header.key ≠ block.header.key := by
      intro heq
      exact hne (hunique (hsound.headers _ _ hsound.tipBody) hb heq).symm
    rcases preferred_total hkeys tipWork blockWork with hp | hp
    · exact hp
    · exact absurd hp hloses
  · have hmem := collectBranch_mem hbranch ⟨_, hstored⟩
    have habove : ∀ b ∈ first :: rest, b.header ∈ H ∧ store.originHeight < b.getHeight := by
      intro b hbmem
      obtain ⟨⟨hash, hb'⟩, hside⟩ := hmem b hbmem
      exact ⟨hsound.headers hash b hb', hsound.above_origin hb' hside⟩
    obtain ⟨first', rest', heq, hsound', _⟩ := switchToBranchTxn_sound hinj hsound habove hswitch
    obtain ⟨rfl, rfl⟩ := List.cons.inj heq
    have hlast := collectBranch_getLast hbranch
    rw [hlast] at hsound'
    refine ⟨block, ⟨hsound', ht', ?_, ?_⟩, hparent⟩
    · refine hbest.insert_better ⟨_, hwb⟩ fun w wb hwx hwb' => ?_
      rw [hwx.unique hunique hwb, hwb'.unique hunique hwt]
      exact hbeats
    · intro hash b hbody
      rcases switchToBranchTxn_blocks hswitch hbody with hin | hold
      · obtain ⟨⟨hash', hb'⟩, _⟩ := hmem b hin
        exact hcover hash' b hb'
      · exact hcover hash b hold

/-- **One accepted block**: the tip is the best of what was accepted and the block, whose parent had been
accepted before. -/
theorem applyBlock_leads (hgen : L.isGenesis block = .ok true → block.getHeight = 0)
    (h : Leads H origin n.store A tip) (hb : block.header ∈ H)
    (hok : n.applyBlock L now block = .ok n') :
    ∃ tip', Leads H origin n'.store (insert block.header A) tip' ∧
      ∃ p ∈ A, block.header.prevBlockHash = p.key := by
  unfold applyBlock at hok
  split at hok
  · next hprev => exact ⟨block, extendTip_leads hinj hgen h hb hprev hok⟩
  · exact importSide_leads hinj h hb hok

end Node
end Calls

/-! ## §2 — runs -/

section Reach

variable [Engine] {cfg : Config} {H : Set BlockHeader} {n n' : Node State}

theorem Node.leads_genesis (hn : Node.genesis cfg = .ok n) : ∃ genesis,
    getGenesisBlock cfg.network = .ok genesis ∧
      n.store.Leads (genesisHeaders ∪ H) genesis.header {genesis.header} genesis := by
  obtain ⟨genesis, hgenesis, _, hstore⟩ := Node.genesis_eq_ok hn
  have hmem : genesis.header ∈ genesisHeaders ∪ H := .inl ⟨_, genesis, hgenesis, rfl⟩
  refine ⟨genesis, hgenesis, ?_⟩
  rw [hstore]
  refine ⟨BlockStore.sound_initWithGenesis hmem, BlockStore.tallied_initWithGenesis hmem,
    ⟨rfl, ⟨_, .root⟩, fun x hx hne => absurd hx hne⟩, fun hash b hb => ?_⟩
  change ((∅ : Bucket Bytes FullBlock).insert genesis.getHash.val genesis)[hash]? = some b at hb
  rw [Bucket.get_insert] at hb
  split at hb
  · cases hb
    rfl
  · simp at hb

end Reach
end NgCore
