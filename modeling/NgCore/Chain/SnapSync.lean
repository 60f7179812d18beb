/-
# NgCore.Chain.SnapSync — installing a fetched sheet

`Chain.ApplySnapshot` (`blockchain/snapshot.go`) is the third way blocks enter a chain: a fetched segment replaces the
canonical chain above the block it hangs on, and the state becomes the sheet of its last block. Every block is checked
like a block of a branch and the sheet has to NAME the last block. That is all: the cumulative work of the segment is
recorded and compared with nothing (`Chain.SwitchToBranch` compares it), and the root the sheet rebuilds to is never
compared with the `StateRoot` of the header (every other path calls `CheckStateRoot`).

What the call leaves is therefore a committed state of a better chain exactly when the SENDER made it so: the rows of
the sheet have the root of the last header, and the segment outweighs the blocks it unlinks.

DELIVERABLES: `Chain.applySnapshot_iff`, `applySnapshot_handLie`.
-/
import NgCore.Chain.Snapshot
import NgCore.Chain.Paths

namespace NgCore

open Lib (Bucket)
open BlockStore (Sound Tallied Beats)

/-! ## §1 — the call -/

namespace Node

variable [Crypto]

/-- The database part of `ApplySnapshot`. -/
def applySnapshot (network : Network) (now : Nat) (blocks : List FullBlock) (sheet : Sheet) (n : Node State) :
    Except Err (Node State) :=
  match blocks with
  | [] => .error .branchEmpty
  | first :: rest => do
    let tip := rest.getLastD first
    ensure (sheet.network = network ∧ sheet.height = tip.getHeight ∧ sheet.blockHash = tip.getHash.val)
      .sheetMismatch
    let prev ← n.store.getBlockByHash first.getPrevHash
    checkBranch now (branchGetBlock n.store blocks) prev blocks
    let store ← n.store.switchToBranch blocks
    let (_, store) ← store.cumulativeWork tip
    return ⟨store, n.state.rebuildFromSheet sheet.rows⟩

variable {network : Network} {now : Nat} {blocks : List FullBlock} {sheet : Sheet} {n n' : Node State}

theorem applySnapshot_eq_ok (h : applySnapshot network now blocks sheet n = .ok n') :
    ∃ first rest prev store work, blocks = first :: rest ∧ n.store.blocks[first.getPrevHash]? = some prev ∧
      checkBranch now (branchGetBlock n.store blocks) prev blocks = .ok () ∧
      n.store.switchToBranch blocks = .ok store ∧
      store.cumulativeWork (rest.getLastD first) = .ok (work, n'.store) ∧
      n'.state = n.state.rebuildFromSheet sheet.rows := by
  cases blocks with
  | nil => cases h
  | cons first rest =>
    rcases bind_eq_ok.mp h with ⟨_, _, h⟩
    rcases bind_eq_ok.mp h with ⟨prev, hprev, h⟩
    rcases bind_eq_ok.mp h with ⟨_, hcheck, h⟩
    rcases bind_eq_ok.mp h with ⟨store, hswitch, h⟩
    rcases bind_eq_ok.mp h with ⟨⟨work, store'⟩, hwork, h⟩
    obtain rfl := pure_eq_ok.mp h
    exact ⟨first, rest, prev, store, work, rfl, BlockStore.getBlockByHash_eq_ok.mp hprev, hcheck, hswitch, hwork, rfl⟩

end Node

/-- **`applySnapshot`** — `Chain.ApplySnapshot`; the fetched sheet is kept as the tip's own. -/
def Chain.applySnapshot [Crypto] (network : Network) (now : Nat) (blocks : List FullBlock) (sheet : Sheet)
    (c : Chain) : Except Err Chain := do
  let node ← c.node.applySnapshot network now blocks sheet
  return ⟨node, c.snapshots.putSnapshotTxn sheet⟩

/-! ## §2 — the root of a sheet -/

namespace State

variable [Crypto]

/-- **`Sheet.root`** — the root of a fresh database seeded with the rows. -/
def Sheet.root (rows : State.Sheet) : Bytes32 := (State.empty.rebuildFromSheet rows).stateRoot

/-- The plain buckets of two states are the same. -/
def SamePlain (s t : State) : Prop := ∃ trie log, t = { s with trie, log }

-- the code registry is reconciled from the plain buckets alone

omit [Crypto] in
theorem SamePlain.retainCode {s t : State} (h : SamePlain s t) (codeHash : Bytes32) (source : Bytes) :
    SamePlain (s.retainCode codeHash source) (t.retainCode codeHash source) := by
  rcases h with ⟨trie, log, rfl⟩
  unfold State.retainCode
  dsimp only
  split
  · exact ⟨trie, log, rfl⟩
  · exact ⟨trie, log, rfl⟩

omit [Crypto] in
theorem SamePlain.releaseCode {s t : State} (h : SamePlain s t) (codeHash : Bytes32) (keep : Bool) :
    SamePlain (s.releaseCode codeHash keep) (t.releaseCode codeHash keep) := by
  rcases h with ⟨trie, log, rfl⟩
  unfold State.releaseCode
  dsimp only
  split
  · exact ⟨trie, log, rfl⟩
  · split
    · exact ⟨trie, log, rfl⟩
    · exact ⟨trie, log, rfl⟩

theorem SamePlain.reconcileCode {s t : State} (h : SamePlain s t) (rec : Recorder) (account : Contract) :
    SamePlain (s.reconcileCode rec account) (t.reconcileCode rec account) := by
  have hslot : t.contract = s.contract := by
    rcases h with ⟨trie, log, rfl⟩
    rfl
  unfold State.reconcileCode
  dsimp only
  rw [hslot]
  split
  · exact h.retainCode _ _
  · split
    · exact h
    · exact (h.releaseCode _ _).retainCode _ _

theorem SamePlain.setContract {s t : State} (h : SamePlain s t) (rec : Recorder) (account : Contract) :
    SamePlain (s.setContract rec account) (t.setContract rec account) := by
  rcases h.reconcileCode rec account with ⟨trie, log, heq⟩
  unfold State.setContract
  dsimp only
  rw [heq]
  exact ⟨_, _, rfl⟩

theorem SamePlain.initFromSheet {s t : State} (h : SamePlain s t) (rows : State.Sheet) :
    SamePlain (s.initFromSheet rows) (t.initFromSheet rows) := by
  have hfold : ∀ (l : List Contract) {s t : State}, SamePlain s t →
      SamePlain (l.foldl (fun s account => s.setContract none account) s)
        (l.foldl (fun s account => s.setContract none account) t) := by
    intro l
    induction l with
    | nil => exact fun h => h
    | cons account l ih => exact fun h => ih (h.setContract none account)
  unfold State.initFromSheet
  dsimp only
  rcases hfold rows.contracts h with ⟨trie, log, heq⟩
  rw [heq]
  exact ⟨trie, log, rfl⟩

theorem trie_setLeaves (l : List (LeafKey × Bytes32)) (s : State) :
    (s.setLeaves l).trie = l.foldl (fun t e => Statetrie.update t e.1.path e.2) s.trie := by
  induction l generalizing s with
  | nil => rfl
  | cons e l ih =>
    rw [setLeaves_cons, ih]
    rfl

/-- **The root a sheet rebuilds to is the root of its rows**, whatever state it replaces. -/
theorem stateRoot_rebuildFromSheet (rows : State.Sheet) (s : State) :
    (s.rebuildFromSheet rows).stateRoot = rows.root := by
  have hreset : SamePlain State.empty.resetBuckets s.resetBuckets := ⟨s.trie, s.log, rfl⟩
  rcases hreset.initFromSheet rows with ⟨trie, log, heq⟩
  unfold Sheet.root State.stateRoot State.rebuildFromSheet
  rw [rebuildTrie_eq, rebuildTrie_eq, trie_setLeaves, trie_setLeaves, heq]
  rfl

end State

/-! ## §3 — weights above a block -/

/-- **`workFrom k s`** — the declared difficulties of the canonical blocks from height `k` on. -/
def BlockStore.workFrom (k : Nat) (s : BlockStore) : Nat :=
  ((List.range' k (s.latestHeight + 1 - k)).map fun h =>
    match s.getBlockByHeight h with
    | .ok b => workOf b
    | .error _ => 0).sum

section Weights

variable [Crypto] {H : Set BlockHeader} {origin : BlockHeader} {s : BlockStore} {tip : FullBlock}
  (hinj : Set.InjOn BlockHeader.getHash H)
include hinj

/-- The weight of the tip over a canonical block is what stands above the block. -/
theorem BlockStore.Sound.weighs_above (hs : Sound H s tip) (ht : Tallied H origin s) :
    ∀ (d : Nat) {b : FullBlock} {w : Nat}, tip.getHeight = b.getHeight + d → s.originHeight ≤ b.getHeight →
      s.heights[b.getHeight]? = some b.getHash.val → b.header ∈ H → b.header.Weighs H origin w →
      tip.header.Weighs H origin (w + s.workFrom (b.getHeight + 1)) := by
  intro d
  induction d with
  | zero =>
    intro b w hheight _ hindex hb hw
    have hhash : b.getHash.val = tip.getHash.val := by
      have htop := hs.top
      rw [show tip.getHeight = b.getHeight from hheight, hindex] at htop
      exact Option.some_injective _ htop
    have hheader : b.header = tip.header := hs.toSpine.header_eq hinj hs.tipBody hb hhash
    have hnone : s.workFrom (b.getHeight + 1) = 0 := by
      unfold BlockStore.workFrom
      rw [hs.latestHeight, show tip.getHeight + 1 - (b.getHeight + 1) = 0 by omega]
      rfl
    rw [hnone, Nat.add_zero, ← hheader]
    exact hw
  | succ d ih =>
    intro b w hheight horigin hindex hb hw
    rcases hs.canonical (b.getHeight + 1) (by omega) (by omega) with ⟨c, hc, hbody, hcheight, hparent⟩
    have hprev : c.getPrevHash = b.getHash.val := by
      have hp := hparent (by omega)
      rw [Nat.add_sub_cancel, hindex] at hp
      exact (Option.some_injective _ hp).symm
    have hwc : c.header.Weighs H origin (w + workOf c) :=
      BlockStore.weighs_of_follows hb hw ⟨hcheight, hprev⟩ (Node.ne_origin hinj ht hs (by omega))
    have hsplit : s.workFrom (b.getHeight + 1) = workOf c + s.workFrom (c.getHeight + 1) := by
      have hread : s.getBlockByHeight (b.getHeight + 1) = .ok c :=
        BlockStore.getBlockByHeight_eq_ok.mpr ⟨_, hc, hbody⟩
      unfold BlockStore.workFrom
      rw [show s.latestHeight + 1 - (b.getHeight + 1) = (s.latestHeight + 1 - (c.getHeight + 1)) + 1 by
        have := hs.latestHeight; omega, List.range'_succ, List.map_cons, List.sum_cons, hread, hcheight]
    rw [hsplit, ← Nat.add_assoc]
    exact ih (by omega) (by omega) (hcheight ▸ hc) (hs.headers _ _ hbody) hwc

/-- The weight of the last block of a checked branch over the block it hangs on is what the branch declares. -/
theorem Node.checkBranch_weighs_last (hs : Sound H s tip) (ht : Tallied H origin s) {now : Nat}
    {getBlock : Bytes → Except Err FullBlock} {prev : FullBlock} {l : List FullBlock} {w : Nat}
    (hl : ∀ b ∈ l, b.header ∈ H) (hprev : prev.header ∈ H) (hle : s.originHeight ≤ prev.getHeight)
    (hw : prev.header.Weighs H origin w) (hok : Node.checkBranch now getBlock prev l = .ok ()) :
    (l.getLastD prev).header.Weighs H origin (w + (l.map workOf).sum) := by
  induction l generalizing prev w with
  | nil => exact hw
  | cons c l ih =>
    rcases bind_eq_ok.mp hok with ⟨_, hc, hok⟩
    rcases bind_eq_ok.mp hc with ⟨_, _, hc⟩
    rcases bind_eq_ok.mp hc with ⟨_, hfollows, _⟩
    have hfollows := ensure_eq_ok.mp hfollows
    have hheight := hfollows.1
    have hwc := BlockStore.weighs_of_follows hprev hw hfollows (Node.ne_origin hinj ht hs (by omega))
    rw [List.map_cons, List.sum_cons, ← Nat.add_assoc, List.getLastD_cons]
    exact ih (fun d hd => hl d (List.mem_cons_of_mem c hd)) (hl c List.mem_cons_self) (by omega) hwc hok

end Weights

theorem BlockStore.beats_add_left {base work tipWork : Nat} {hash tipHash : Bytes32} :
    Beats (base + work) hash (base + tipWork) tipHash ↔ Beats work hash tipWork tipHash := by
  unfold BlockStore.Beats
  rw [Nat.add_lt_add_iff_left, Nat.add_left_cancel_iff]

/-! ## §4 — local chains -/

section Local

variable [Engine] (cfg : Config)

/-- **`Node.Local H`** — what `ApplyBlock`, `Chain.SwitchToBranch` and `ApplySnapshot` calls on blocks with headers
in `H` make of a fresh database, the failing calls included. -/
inductive Node.Local (H : Set BlockHeader) : Node State → Prop
  | genesis {n : Node State} : Node.genesis cfg = .ok n → Local H n
  | applyBlock {n : Node State} (now : Nat) (block : FullBlock) : Local H n → block.header ∈ H →
      Local H (n.update (n.applyBlock (ledger cfg) now block))
  | switchToBranch {n : Node State} (now : Nat) (branch : List FullBlock) : Local H n →
      (∀ b ∈ branch, b.header ∈ H) → Local H (n.update (n.switchToBranch (ledger cfg) now branch))
  | applySnapshot {n : Node State} (now : Nat) (blocks : List FullBlock) (sheet : Sheet) : Local H n →
      (∀ b ∈ blocks, b.header ∈ H) → Local H (n.update (n.applySnapshot cfg.network now blocks sheet))

theorem Node.Reachable.local {H : Set BlockHeader} {n : Node State} (h : Node.Reachable cfg H n) :
    Node.Local cfg H n := by
  induction h with
  | genesis hn => exact .genesis hn
  | applyBlock now block _ hb ih => exact ih.applyBlock now block hb
  | switchToBranch now branch _ hb ih => exact ih.switchToBranch now branch hb

variable {cfg} {H : Set BlockHeader} {n n' : Node State} {now : Nat} {blocks : List FullBlock} {sheet : Sheet}
  (hinj : Set.InjOn BlockHeader.getHash (genesisHeaders ∪ H))
include hinj

/-- The store after the call, with the weights the segment and the unlinked blocks had over one base. -/
theorem Node.applySnapshot_tallied {tip : FullBlock} {origin : BlockHeader}
    (hs : Sound (genesisHeaders ∪ H) n.store tip) (ht : Tallied (genesisHeaders ∪ H) origin n.store)
    (hb : ∀ b ∈ blocks, b.header ∈ H) (hok : n.applySnapshot cfg.network now blocks sheet = .ok n') :
    ∃ first rest base, blocks = first :: rest ∧ Sound (genesisHeaders ∪ H) n'.store (rest.getLastD first) ∧
      Tallied (genesisHeaders ∪ H) origin n'.store ∧
      (rest.getLastD first).header.Weighs (genesisHeaders ∪ H) origin (base + (blocks.map workOf).sum) ∧
      tip.header.Weighs (genesisHeaders ∪ H) origin (base + n.store.workFrom first.getHeight) := by
  rcases Node.applySnapshot_eq_ok hok with ⟨first, rest, prev, store, work, rfl, hprev, hcheck, hswitch, hwork, _⟩
  have hb' : ∀ b ∈ first :: rest, b.header ∈ genesisHeaders ∪ H := fun b hmem => .inr (hb b hmem)
  have hprevMem := hs.headers _ _ hprev
  have hle := hs.origin_le hprev
  rcases ht.weighs _ _ hprev with ⟨base, hbase⟩
  have habove : ∀ b ∈ first :: rest, b.header ∈ genesisHeaders ∪ H ∧ n.store.originHeight < b.getHeight := by
    intro b hmem
    have := Node.checkBranch_above hcheck b hmem
    exact ⟨hb' b hmem, by omega⟩
  rcases hs.switchToBranch hinj habove hswitch with ⟨first', rest', heq, hs', _, _⟩
  obtain ⟨rfl, rfl⟩ := List.cons.inj heq
  have hsound' := hs'.reindexed (BlockStore.cumulativeWork_reindexed hwork)
  -- the segment is weighed block by block, so the store stays tallied
  rcases BlockStore.switchToBranch_frame hswitch with ⟨hworkEq, horigin, hblocks⟩
  have htallied : Tallied (genesisHeaders ∪ H) origin store := by
    refine ht.restore horigin (fun h w hw => hworkEq ▸ hw) fun h b hmem => ?_
    rcases hblocks h b hmem with hin | hold
    · exact .inr (Node.checkBranch_weighs hinj ht hs hb' hprevMem hle ⟨base, hbase⟩ hcheck b hin)
    · exact .inl hold
  have htallied' := (BlockStore.cumulativeWork_spec hinj htallied hs'.toSpine hs'.tipBody hwork).2
  have hlast := Node.checkBranch_weighs_last hinj hs ht hb' hprevMem hle hbase hcheck
  rw [List.getLastD_cons] at hlast
  refine ⟨first, rest, base, rfl, hsound', htallied', hlast, ?_⟩
  -- the block it hangs on is canonical
  rw [BlockStore.switchToBranch] at hswitch
  rcases bind_eq_ok.mp hswitch with ⟨_, _, hswitch⟩
  rcases bind_eq_ok.mp hswitch with ⟨_, hattach, _⟩
  have hattach := ensure_eq_ok.mp hattach
  rcases bind_eq_ok.mp hcheck with ⟨_, hfirst, _⟩
  rcases bind_eq_ok.mp hfirst with ⟨_, _, hfirst⟩
  rcases bind_eq_ok.mp hfirst with ⟨_, hfollows, _⟩
  have hfollows := ensure_eq_ok.mp hfollows
  have hheight := hfollows.1
  rw [pred64_of_pos (by omega), show first.getHeight - 1 = prev.getHeight by omega, hfollows.2] at hattach
  have hbelow : prev.getHeight ≤ tip.getHeight := by
    by_contra hgt
    rw [hs.above _ (by omega)] at hattach
    cases hattach
  rw [show first.getHeight = prev.getHeight + 1 from hheight]
  exact hs.weighs_above hinj ht (tip.getHeight - prev.getHeight) (by omega) hle hattach hprevMem hbase

/-- Every local chain is sound, and tallied over the genesis block of its network. -/
theorem Node.Local.tallied (h : Node.Local cfg H n) : ∃ tip genesis, getGenesisBlock cfg.network = .ok genesis ∧
    Sound (genesisHeaders ∪ H) n.store tip ∧ Tallied (genesisHeaders ∪ H) genesis.header n.store := by
  induction h with
  | genesis hn =>
    rcases Node.genesis_eq_ok hn with ⟨genesis, hgenesis, _, hstore⟩
    have hmem : genesis.header ∈ genesisHeaders ∪ H := .inl ⟨_, genesis, hgenesis, rfl⟩
    rw [hstore]
    exact ⟨genesis, genesis, hgenesis, BlockStore.sound_initWithGenesis hmem, BlockStore.tallied_initWithGenesis hmem⟩
  | applyBlock now block _ hb ih =>
    rcases ih with ⟨tip, genesis, hgenesis, hs, ht⟩
    rcases Node.update_applyBlock_sound (L := ledger cfg) hinj hs (.inr hb) with ⟨tip', hs', _⟩
    exact ⟨tip', genesis, hgenesis, hs', Node.update_applyBlock_tallied hinj hs ht hb⟩
  | switchToBranch now branch _ hb ih =>
    rcases ih with ⟨tip, genesis, hgenesis, hs, ht⟩
    have hb' : ∀ b ∈ branch, b.header ∈ genesisHeaders ∪ H := fun b hmem => .inr (hb b hmem)
    rcases Node.update_switchToBranch_sound (L := ledger cfg) hinj hs hb' with ⟨tip', hs'⟩
    exact ⟨tip', genesis, hgenesis, hs', Node.update_switchToBranch_tallied hinj hs ht hb'⟩
  | @applySnapshot n now blocks sheet _ hb ih =>
    rcases ih with ⟨tip, genesis, hgenesis, hs, ht⟩
    cases hok : n.applySnapshot cfg.network now blocks sheet with
    | error e => exact ⟨tip, genesis, hgenesis, hs, ht⟩
    | ok n' =>
      rcases Node.applySnapshot_tallied hinj hs ht hb hok with ⟨first, rest, _, _, hs', ht', _⟩
      exact ⟨_, genesis, hgenesis, hs', ht'⟩

/-- **A snapshot installs what its sender made of it.** After a successful call the state root is the one the new tip
commits to and the new tip beats the old one, in cumulative work with ties broken by hash, exactly when the rows of
the sheet have that root and the segment beats the blocks it unlinks. -/
theorem Chain.applySnapshot_iff {c c' : Chain} (h : Node.Local cfg H c.node) (hb : ∀ b ∈ blocks, b.header ∈ H)
    (hok : c.applySnapshot cfg.network now blocks sheet = .ok c') :
    ∃ first rest tip genesis, blocks = first :: rest ∧ getGenesisBlock cfg.network = .ok genesis ∧
      c.node.store.getLatestBlock = .ok tip ∧ c'.node.store.getLatestBlock = .ok (rest.getLastD first) ∧
      ((c'.node.state.stateRoot.val = (rest.getLastD first).header.stateRoot ∧ ∃ tipWork work,
          tip.header.Weighs (genesisHeaders ∪ H) genesis.header tipWork ∧
          (rest.getLastD first).header.Weighs (genesisHeaders ∪ H) genesis.header work ∧
          Beats work (rest.getLastD first).getHash tipWork tip.getHash) ↔
        sheet.rows.root.val = (rest.getLastD first).header.stateRoot ∧
          Beats (blocks.map workOf).sum (rest.getLastD first).getHash (c.node.store.workFrom first.getHeight)
            tip.getHash) := by
  rcases h.tallied hinj with ⟨tip, genesis, hgenesis, hs, ht⟩
  rcases bind_eq_ok.mp hok with ⟨n', hnode, hok⟩
  obtain rfl := pure_eq_ok.mp hok
  rcases Node.applySnapshot_tallied hinj hs ht hb hnode with ⟨first, rest, base, rfl, hs', _, hlast, htip⟩
  rcases Node.applySnapshot_eq_ok hnode with ⟨_, _, _, _, _, _, _, _, _, _, hstate⟩
  have hlatest : ∀ {s : BlockStore} {t : FullBlock}, Sound (genesisHeaders ∪ H) s t → s.getLatestBlock = .ok t :=
    fun hsound => BlockStore.getBlockByHash_eq_ok.mpr (by rw [hsound.latestHash]; exact hsound.tipBody)
  refine ⟨first, rest, tip, genesis, rfl, hgenesis, hlatest hs, hlatest hs', ?_⟩
  show (n'.state.stateRoot.val = _ ∧ _) ↔ _
  rw [hstate, State.stateRoot_rebuildFromSheet]
  refine and_congr_right fun _ => ⟨?_, fun hbeats => ⟨_, _, htip, hlast, BlockStore.beats_add_left.mpr hbeats⟩⟩
  rintro ⟨tipWork, work, htipWork, hwork, hbeats⟩
  rw [htipWork.unique (BlockHeader.injOn_key hinj) htip, hwork.unique (BlockHeader.injOn_key hinj) hlast] at hbeats
  exact BlockStore.beats_add_left.mp hbeats

end Local

/-! ## §5 — an honest snapshot

Under a hash that keeps the nodes of the commitment apart. State roots are spelled byte by byte, and no byte of one is
ever needed. -/

/-- Strings are folded up to their 65th byte: the nodes of the commitment whole. -/
def headHash (b : Bytes) : Bytes32 := foldHash (b.take 65)

def spell (w : Bytes32) : Bytes := (List.range 32).map fun i => w.val.getD i 0

theorem spell_eq (w : Bytes32) : spell w = w.val := by
  refine List.ext_getElem ?_ fun i _ hi => ?_
  · rw [w.property]
    rfl
  · simp [spell, List.getElem?_eq_getElem hi]

theorem State.Sheet.eq_of_rows {x y : State.Sheet} (h : (x.contracts.isEmpty = true ∧ y.contracts.isEmpty = true) ∧
    x.balances = y.balances ∧ x.keys = y.keys ∧ x.beacon = y.beacon) : x = y := by
  obtain ⟨balances, contracts, keys, beacon⟩ := x
  obtain ⟨_, contracts', _, _⟩ := y
  obtain ⟨⟨hx, hy⟩, rfl, rfl, rfl⟩ := h
  obtain rfl : contracts = [] := List.isEmpty_iff.mp hx
  obtain rfl : contracts' = [] := List.isEmpty_iff.mp hy
  rfl

section Honest

variable [Engine]

def plainGenesis : FullBlock := (genesisOf (spell genesisStateRoot) ZERONET).toOption.getD handGenesis

/-- The first block by key 2, under a given state root. -/
def plainBlock (root : Bytes32) : FullBlock :=
  let block := handSeal plainGenesis 2 [] []
  { block with header := { block.header with stateRoot := spell root } }

/-- What it leaves of the genesis state. -/
def plainState (root : Bytes32) : State :=
  State.after ((upgrade ⟨ZERONET, false⟩ (plainBlock root)).exec (State.genesis false))

/-- The block under the root of the rows it leaves. -/
def honestBlock : FullBlock := plainBlock (plainState zero32).rows.root

/-- The rows it leaves. -/
def honestSheet : Sheet :=
  (plainState (plainState zero32).rows.root).dumpSheetAt ZERONET 1 honestBlock.getHash.val

theorem rows_honestSheet : honestSheet.rows =
    (State.after ((upgrade ⟨ZERONET, false⟩ honestBlock).exec (State.genesis false))).rows := by
  unfold honestSheet honestBlock plainState State.dumpSheetAt
  with_reducible rfl

end Honest

/-- An honest snapshot, of one block on top of genesis, installs a committed state of a better chain. -/
theorem applySnapshot_iff_handSeal :
    letI := Engine.ofHash headHash fun _ => none
    ∃ (c c' : Chain) (s : State) (tip genesis : FullBlock),
      Node.Local ⟨ZERONET, false⟩ {honestBlock.header} c.node ∧
      (upgrade ⟨ZERONET, false⟩ honestBlock).exec c.node.state = .ok ((), s) ∧ honestSheet.rows = s.rows ∧
      s.rows.balances.map Prod.fst = [genesisAddress, handAddr 2] ∧
      c.applySnapshot ZERONET handNow [honestBlock] honestSheet = .ok c' ∧
      c'.node.state.stateRoot.val = honestBlock.header.stateRoot ∧ ∃ tipWork work,
        tip.header.Weighs (genesisHeaders ∪ {honestBlock.header}) genesis.header tipWork ∧
        honestBlock.header.Weighs (genesisHeaders ∪ {honestBlock.header}) genesis.header work ∧
        Beats work honestBlock.getHash tipWork tip.getHash := by
  let _ := Engine.ofHash headHash fun _ => none
  have hspelled : ∀ network, getGenesisBlock network = genesisOf (spell genesisStateRoot) network := by
    intro network
    rw [spell_eq, getGenesisBlock_eq]
  let c : Chain := ⟨⟨BlockStore.initWithGenesis plainGenesis, State.genesis false⟩, .empty⟩
  have hgenesis : Node.genesis ⟨ZERONET, false⟩ = .ok c.node := by
    unfold Node.genesis
    rw [hspelled, State.genesis_eq]
    rfl
  have hall : ((upgrade ⟨ZERONET, false⟩ honestBlock).exec (State.genesis false)).isOk = true ∧
      ((genesisHeadersOf (genesisOf (spell genesisStateRoot)) ++ [honestBlock.header]).map BlockHeader.getHash).Nodup ∧
      honestSheet.rows.balances.map Prod.fst = [genesisAddress, handAddr 2] ∧
      ((honestSheet.rows.contracts.isEmpty = true ∧ (plainState zero32).rows.contracts.isEmpty = true) ∧
        honestSheet.rows.balances = (plainState zero32).rows.balances ∧
        honestSheet.rows.keys = (plainState zero32).rows.keys ∧
        honestSheet.rows.beacon = (plainState zero32).rows.beacon) ∧
      okAnd (c.applySnapshot ZERONET handNow [honestBlock] honestSheet) (fun _ =>
        okAnd c.node.store.getLatestBlock fun tip => decide (Beats ([honestBlock].map workOf).sum honestBlock.getHash
          (c.node.store.workFrom 1) tip.getHash)) = true := by
    decide +kernel
  obtain ⟨hupgrade, hnodup, hminers, hrows, htest⟩ := hall
  obtain ⟨c', hok, htest⟩ := exists_of_okAnd htest
  obtain ⟨tip', htip', hbeats⟩ := exists_of_okAnd htest
  have hinj := injOn_genesisHeadersOf hspelled hnodup
  have hlocal : Node.Local ⟨ZERONET, false⟩ {x | x ∈ [honestBlock.header]} c.node := (Node.Reachable.genesis hgenesis).local
  have hb : ∀ b ∈ [honestBlock], b.header ∈ {x | x ∈ [honestBlock.header]} := by
    intro b hb
    rw [List.mem_singleton.mp hb]
    exact List.mem_singleton_self _
  obtain ⟨first, rest, tip, genesis, heq, _, htip, _, hiff⟩ := Chain.applySnapshot_iff hinj hlocal hb hok
  obtain ⟨rfl, rfl⟩ := List.cons.inj heq
  obtain rfl : tip = tip' := Except.ok.inj (htip.symm.trans htip')
  have hsame : {x | x ∈ [honestBlock.header]} = {honestBlock.header} := by simp
  rw [hsame] at hlocal hiff
  refine ⟨c, c', _, tip, genesis, hlocal, State.eq_after hupgrade, rows_honestSheet,
    rows_honestSheet ▸ hminers, hok,
    hiff.mpr ⟨?_, of_decide_eq_true hbeats⟩⟩
  rw [State.Sheet.eq_of_rows hrows]
  exact (spell_eq _).symm

/-! ## §6 — a lie -/

/-- A first block by another miner whose header names a state root of its own. -/
def handLie [Crypto] : FullBlock :=
  let block := handSeal handGenesis 2 [] []
  { block with header := { block.header with stateRoot := List.replicate 32 1 } }

/-- The sheet that goes with it: all the money there is. -/
def handLieSheet [Crypto] : Sheet :=
  ⟨ZERONET, 1, handLie.getHash.val, ⟨[(handAddr 2, 10 ^ 30)], [], [], []⟩⟩

/-- What a snapshot of one block does to a chain of `k` blocks by another miner. -/
def handInstall [Engine] (k : Nat) (block : FullBlock) (sheet : Sheet) (test : Chain → Chain → Bool) : Bool :=
  okAnd (handRun ⟨ZERONET, false⟩ (handChain 1 k handGenesis) (handNode false)) fun n =>
    okAnd (Chain.applySnapshot ZERONET handNow [block] sheet ⟨n, .empty⟩) fun c' => test ⟨n, .empty⟩ c'

/-- The headers of a hand-made chain and of a segment of one block. -/
def handHeaders [Crypto] (k : Nat) (block : FullBlock) : Set BlockHeader :=
  {x | x ∈ (handChain 1 k handGenesis ++ [block]).map FullBlock.header}

theorem root_byHand (modules : Bytes → Option Module) (rows : State.Sheet) :
    letI := Engine.byHand modules
    rows.root = zero32 := by
  let _ := Engine.byHand modules
  exact State.stateRoot_byHand modules _ (State.committed_rebuildTrie _)

theorem exists_install_byHand (modules : Bytes → Option Module) (k : Nat) (block : FullBlock) (sheet : Sheet)
    (test : Chain → Chain → Bool) :
    letI := Engine.byHand modules
    handInstall k block sheet test = true →
      ∃ c c' : Chain, Node.Local ⟨ZERONET, false⟩ (handHeaders k block) c.node ∧
        c.applySnapshot ZERONET handNow [block] sheet = .ok c' ∧ test c c' = true := by
  let _ := Engine.byHand modules
  intro h
  rcases exists_reachable_byHand modules false (handChain 1 k handGenesis) [block] _ h with ⟨n, hr, _, htest⟩
  rcases exists_of_okAnd htest with ⟨c', hok, htest⟩
  exact ⟨⟨n, .empty⟩, c', hr.local, hok, htest⟩

/-- **A lighter chain with a made-up state is installed**: on top of two blocks, a segment of one, with a sheet that
gives its sender everything and does not have the root its header names. -/
theorem applySnapshot_handLie :
    letI := Engine.bare
    Set.InjOn BlockHeader.getHash (genesisHeaders ∪ handHeaders 2 handLie) ∧
      ∃ (c c' : Chain) (tip : FullBlock), Node.Local ⟨ZERONET, false⟩ (handHeaders 2 handLie) c.node ∧
        c.applySnapshot ZERONET handNow [handLie] handLieSheet = .ok c' ∧
        c.node.store.getLatestBlock = .ok tip ∧ c'.node.store.getLatestBlock = .ok handLie ∧
        c'.node.state.stateRoot.val ≠ handLie.header.stateRoot ∧
        (∃ tipWork work store store', c.node.store.cumulativeWork tip = .ok (tipWork, store) ∧
          c'.node.store.cumulativeWork handLie = .ok (work, store') ∧
          ¬ Beats work handLie.getHash tipWork tip.getHash) ∧
        c'.node.state.getBalance (handAddr 2) = 10 ^ 30 := by
  let _ := Engine.bare
  refine ⟨injOn_byHand _ (by decide +kernel), ?_⟩
  obtain ⟨c, c', hlocal, hok, htest⟩ := exists_install_byHand (fun _ => none) 2 handLie handLieSheet
    (fun c c' => okAnd c.node.store.getLatestBlock fun tip => okAnd c'.node.store.getLatestBlock fun tip' =>
      okAnd (c.node.store.cumulativeWork tip) fun w => okAnd (c'.node.store.cumulativeWork handLie) fun w' =>
        decide (tip' = handLie ∧ ¬ Beats w'.1 handLie.getHash w.1 tip.getHash ∧
          c'.node.state.getBalance (handAddr 2) = 10 ^ 30)) (by decide +kernel)
  rcases exists_of_okAnd htest with ⟨tip, htip, htest⟩
  rcases exists_of_okAnd htest with ⟨tip', htip', htest⟩
  rcases exists_of_okAnd htest with ⟨⟨tipWork, store⟩, htipWork, htest⟩
  rcases exists_of_okAnd htest with ⟨⟨work, store'⟩, hwork, htest⟩
  rcases of_decide_eq_true htest with ⟨rfl, hlighter, hbalance⟩
  refine ⟨c, c', tip, hlocal, hok, htip, htip', ?_, ⟨tipWork, work, store, store', htipWork, hwork, hlighter⟩, hbalance⟩
  -- under the hand-made hash every committed root is all-zero
  rcases bind_eq_ok.mp hok with ⟨n', hnode, hok⟩
  obtain rfl := pure_eq_ok.mp hok
  rcases Node.applySnapshot_eq_ok hnode with ⟨_, _, _, _, _, _, _, _, _, _, hstate⟩
  show n'.state.stateRoot.val ≠ _
  rw [hstate, State.stateRoot_rebuildFromSheet, root_byHand]
  decide

end NgCore
