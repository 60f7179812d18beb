/-
# NgCore.Chain.Serve — proofs of the state, served and trusted

The serving half of `ngp2p/wired/wired_proof.go` (`onGetProof`, `buildProof`, `buildTipProof`) with
`ngstate.StateProof`, and the light client of `NgCore.LightClient` at the other end. A full node looks the raw key
up in the bucket of the domain, proves the leaf in the stored tree, and REFUSES when its live root is not the one
in the tip's header.

What stands behind both ends is that the state of a node carries the root of its tip: every state a call leaves
came out of `Upgrade` and its root check, or is the old one, and a fresh database has the root that the genesis
header was sealed with.

Not modelled: RLP and signatures of the messages, the size limit on the encoded request, and what a node answers
for heights below its tip, which is a parameter.

DELIVERABLES: `Node.proof_served` (a node never refuses a proof at its tip, and the light client that trusts the tip
accepts it and reads the bucket's value) and `Node.state_of_tip` (nodes on one tip hold the same state, or the
strings that break the hash are at hand).
-/
import NgCore.LightClient
import NgCore.Chain.Adopted
import NgCore.Chain.Registry

namespace NgCore

open Lib (Bucket)
open Lib.Rlp (beBytes)
open Statetrie (Domain leafPath)

/-! ## §1 — every state of a node has the root of its top block -/

section Rooted

variable {S : Type} {L : Ledger S} {s s' : S}

/-- What a replay of at least one block leaves came out of `upgrade`. -/
theorem Ledger.applyBlocks_upgraded {blocks : List FullBlock} (hne : blocks ≠ [])
    (h : L.applyBlocks blocks s = .ok s') : ∃ b t, L.upgrade b t = .ok s' := by
  obtain hnil | ⟨init, last, rfl⟩ := List.eq_nil_or_concat' blocks
  · exact absurd hnil hne
  unfold Ledger.applyBlocks at h
  rw [List.foldlM_append] at h
  obtain ⟨t, _, h⟩ := bind_eq_ok.mp h
  rw [List.foldlM_cons] at h
  obtain ⟨u, hlast, h⟩ := bind_eq_ok.mp h
  obtain rfl := pure_eq_ok.mp h
  unfold Ledger.applyChecked at hlast
  obtain ⟨genesis, _, hlast⟩ := bind_eq_ok.mp hlast
  cases genesis with
  | true => exact ⟨last, t, hlast⟩
  | false =>
    obtain ⟨_, _, hlast⟩ := bind_eq_ok.mp hlast
    exact ⟨last, t, hlast⟩

namespace Node

variable [Crypto] {now : Nat} {n n' : Node S} {block : FullBlock} {branch : List FullBlock}

theorem switchToBranchTxn_upgraded (h : switchToBranchTxn L branch n = .ok n') :
    ∃ b t, L.upgrade b t = .ok n'.state := by
  obtain ⟨first, rest, store, rfl, _, _, hstate⟩ := switchToBranchTxn_eq_ok h
  rcases switchState_eq_ok.mp hstate with ⟨_, _, happly⟩ | ⟨_, blocks, hblocks, happly⟩
  · exact L.applyBlocks_upgraded (by simp) happly
  · refine L.applyBlocks_upgraded (fun hnil => ?_) happly
    -- the canonical chain has the block of height zero at least
    subst hnil
    obtain ⟨_, _, hblocks⟩ := bind_eq_ok.mp ((List.mapM_cons).symm.trans
      ((congrArg (List.mapM store.getBlockByHeight) List.range_succ_eq_map.symm).trans hblocks))
    obtain ⟨_, _, hblocks⟩ := bind_eq_ok.mp hblocks
    cases hblocks

/-- **A call leaves the old state, or one that `upgrade` let through.** -/
theorem applyBlock_upgraded (h : applyBlock L now block n = .ok n') :
    n'.state = n.state ∨ ∃ b t, L.upgrade b t = .ok n'.state := by
  unfold applyBlock at h
  split at h
  · obtain ⟨_, _, _, _, _, _, hup, _⟩ := extendTip_eq_ok h
    exact .inr ⟨_, _, hup⟩
  · obtain ⟨_, _, _, _, _, _, hcase⟩ := importSide_eq_ok h
    rcases hcase with ⟨_, rfl⟩ | ⟨_, _, _, _, _, hswitch⟩
    · exact .inl rfl
    · exact .inr (switchToBranchTxn_upgraded hswitch)

theorem switchToBranch_upgraded (h : switchToBranch L now branch n = .ok n') :
    ∃ b t, L.upgrade b t = .ok n'.state := by
  obtain ⟨_, _, _, _, _, _, _, _, _, _, _, _, _, _, _, hswitch⟩ := switchToBranch_eq_ok h
  exact switchToBranchTxn_upgraded hswitch

end Node

end Rooted

section States

variable [Engine] {cfg : Config} {H : Set BlockHeader} {n n' : Node State} {s s' : State}

/-- **`Rooted`** — the root of the state is the one its top block committed to. -/
def State.Rooted (s : State) : Prop := ∃ top l, s.applied = top :: l ∧ s.stateRoot.val = top.header.stateRoot

theorem State.rooted_of_upgrade {b : FullBlock} (h : (ledger cfg).upgrade b s = .ok s') : s'.Rooted := by
  obtain ⟨hrun, hroot⟩ := ledger_upgrade_eq_ok h
  exact ⟨b, s.applied, applied_upgrade hrun, hroot⟩

theorem State.trie_setBalance (rec : Recorder) (a : Address) {v : Int} (hv : v ≠ 0) (s : State) :
    (s.setBalance rec a v).trie =
      Statetrie.update s.trie (LeafKey.balance a).path (Statetrie.valueHash (beBytes v.natAbs)) := by
  unfold State.setBalance
  rw [if_neg hv, State.trieSetLeaf, if_neg (Lib.Rlp.beBytes_ne_nil (Int.natAbs_ne_zero.mpr hv))]
  rfl

/-- **The genesis header was sealed with the root that applying the genesis block leaves.** -/
theorem State.rooted_genesis (h : State.initStateFromGenesis cfg = .ok s) : s.Rooted := by
  obtain ⟨g, hg, _⟩ := bind_eq_ok.mp h
  rw [State.initStateFromGenesis_eq hg] at h
  obtain rfl := Except.ok.inj h
  refine ⟨g, [], rfl, ?_⟩
  have hheader : g.header.stateRoot = genesisStateRoot.val := by
    obtain ⟨tx, _, hg⟩ := bind_eq_ok.mp hg
    obtain ⟨_, _, hg⟩ := bind_eq_ok.mp hg
    obtain ⟨_, _, hg⟩ := bind_eq_ok.mp hg
    obtain rfl := pure_eq_ok.mp hg
    rfl
  have hreward : ((getBlockReward 0 : Nat) : Int) ≠ 0 := by decide
  have htrie := State.trie_setBalance (cfg.recorder 0) genesisAddress hreward State.empty
  rw [hheader, genesisStateRoot]
  exact congrArg (fun t => (Statetrie.root t).val) htrie

theorem Node.Reachable.rooted (hr : Node.Reachable cfg H n) : n.state.Rooted := by
  induction hr with
  | genesis hn =>
    obtain ⟨_, _, hinit, _⟩ := Node.genesis_eq_ok hn
    exact State.rooted_genesis hinit
  | @applyBlock n now block _ _ ih =>
    cases hok : n.applyBlock (ledger cfg) now block with
    | error e => exact ih
    | ok n' =>
      rcases Node.applyBlock_upgraded hok with hsame | ⟨_, _, hup⟩
      · exact hsame.symm ▸ ih
      · exact State.rooted_of_upgrade hup
  | @switchToBranch n now branch _ _ ih =>
    cases hok : n.switchToBranch (ledger cfg) now branch with
    | error e => exact ih
    | ok n' =>
      obtain ⟨_, _, hup⟩ := Node.switchToBranch_upgraded hok
      exact State.rooted_of_upgrade hup

/-- The tip of a node is stored, and the state carries its root. -/
theorem Node.Reachable.tip_root (hinj : Set.InjOn BlockHeader.getHash (genesisHeaders ∪ H))
    (hr : Node.Reachable cfg H n) :
    ∃ tip, BlockStore.Sound (genesisHeaders ∪ H) n.store tip ∧ n.store.getLatestBlock = .ok tip ∧
      n.state.stateRoot.val = tip.header.stateRoot ∧ State.Executed cfg (fun _ _ => True) n.state := by
  obtain ⟨tip, hs, hsync⟩ := hr.inSync hinj
  obtain ⟨top, l, happlied, hheader⟩ := hsync.top
  obtain ⟨top', l', happlied', hroot⟩ := hr.rooted
  obtain ⟨rfl, rfl⟩ := List.cons.inj (happlied.symm.trans happlied')
  refine ⟨tip, hs, ?_, hroot.trans (congrArg BlockHeader.stateRoot hheader), hsync.executed⟩
  unfold BlockStore.getLatestBlock
  rw [BlockStore.getBlockByHash_eq_ok, hs.latestHash]
  exact hs.tipBody

/-- The commitment of an executed state is in step with its buckets. -/
theorem State.Executed.inStep {C : State → FullBlock → Prop} {K : Set LeafKey} (hK : Set.InjOn LeafKey.path K)
    (h : State.Executed cfg C s) (hsub : s.touched ⊆ K) : State.InStep K s := by
  induction h with
  | init => exact State.inStep_empty
  | upgrade _ _ _ hrun ih =>
    have hfollows := State.follows_exec hK hrun
    exact hfollows.2 hsub (ih (hfollows.1.trans hsub))
  | @unwind s top _ _ _ _ _ ih =>
    have hfollows := State.follows_unwindHeight hK top.getHeight s
    exact hfollows.2 hsub (ih (hfollows.1.trans hsub))
  | @reset s _ ih =>
    have hfollows := State.follows_rebuildFromSheet hK State.getGenesisSheet s
    exact hfollows.2 hsub (ih (hfollows.1.trans hsub))

end States

/-! ## §2 — the raw rows of a domain -/

namespace State

/-- The rows of the bucket of a domain, as raw bytes. -/
def rawRows (s : State) : Domain → List (Bytes × Bytes)
  | .balance => s.bal.cur.toList.map fun e => (e.1.val, beBytes e.2)
  | .key => s.key.cur.toList.map fun e => (e.1.val, e.2)
  | .contract => s.contract.cur.toList.map fun e => (e.1.val, e.2.raw)
  | .commit => s.commit.toList.map fun e => (packUint64LE e.1.1 ++ e.1.2.val, e.2.val)
  | .beacon => (s.beacon.cur[()]?).toList.map fun seed => (beaconStateKey, seed)

/-- **`bucketGet`** — the value a domain's bucket has under a raw key; empty if there is none. -/
def bucketGet (s : State) (domain : Domain) (rawKey : Bytes) : Bytes :=
  ((s.rawRows domain).lookup rawKey).getD []

theorem entry_of_mem_rawRows {s : State} {d : Domain} {raw v : Bytes} (hne : v ≠ [])
    (h : (raw, v) ∈ s.rawRows d) : ∃ k : LeafKey, k.domain = d ∧ k.raw = raw ∧ s.entry k = some v := by
  cases d with
  | balance =>
    obtain ⟨⟨a, m⟩, hmem, heq⟩ := List.mem_map.mp h
    obtain ⟨rfl, rfl⟩ := Prod.mk.inj heq
    refine ⟨.balance a, rfl, rfl, entry_balance ((Bucket.mem_toList_iff _ _ _).mp hmem) ?_⟩
    rintro rfl
    exact hne Lib.Rlp.beBytes_zero
  | key =>
    obtain ⟨⟨a, b⟩, hmem, heq⟩ := List.mem_map.mp h
    obtain ⟨rfl, rfl⟩ := Prod.mk.inj heq
    exact ⟨.key a, rfl, rfl, (Bucket.mem_toList_iff _ _ _).mp hmem⟩
  | contract =>
    obtain ⟨⟨a, c⟩, hmem, heq⟩ := List.mem_map.mp h
    obtain ⟨rfl, rfl⟩ := Prod.mk.inj heq
    exact ⟨.contract a, rfl, rfl, congrArg (Option.map _) ((Bucket.mem_toList_iff _ _ _).mp hmem)⟩
  | commit =>
    obtain ⟨⟨⟨height, hash⟩, a⟩, hmem, heq⟩ := List.mem_map.mp h
    obtain ⟨rfl, rfl⟩ := Prod.mk.inj heq
    exact ⟨.commit height hash, rfl, rfl, congrArg (Option.map _) ((Bucket.mem_toList_iff _ _ _).mp hmem)⟩
  | beacon =>
    obtain ⟨seed, hmem, heq⟩ := List.mem_map.mp h
    obtain ⟨rfl, rfl⟩ := Prod.mk.inj heq
    exact ⟨.beacon, rfl, rfl, Option.mem_toList.mp hmem⟩

theorem mem_rawRows_of_entry {s : State} {k : LeafKey} {v : Bytes} (h : s.entry k = some v) :
    (k.raw, v) ∈ s.rawRows k.domain := by
  cases k with
  | balance a =>
    obtain ⟨m, hm, _, rfl⟩ := balance_of_entry h
    exact List.mem_map.mpr ⟨(a, m), (Bucket.mem_toList_iff _ _ _).mpr hm, rfl⟩
  | key a => exact List.mem_map.mpr ⟨(a, v), (Bucket.mem_toList_iff _ _ _).mpr h, rfl⟩
  | contract a =>
    obtain ⟨sc, hsc, rfl⟩ := Option.map_eq_some_iff.mp h
    exact List.mem_map.mpr ⟨(a, sc), (Bucket.mem_toList_iff _ _ _).mpr hsc, rfl⟩
  | commit height hash =>
    obtain ⟨c, hc, rfl⟩ := Option.map_eq_some_iff.mp h
    exact List.mem_map.mpr ⟨((height, hash), c), (Bucket.mem_toList_iff _ _ _).mpr hc, rfl⟩
  | beacon => exact List.mem_map.mpr ⟨v, Option.mem_toList.mpr h, rfl⟩

/-- An empty row is a zero balance: no other domain has one. -/
structure NoBlanks (s : State) : Prop where
  key : ∀ (a : Address), s.key.cur[a]? ≠ some []
  seed : s.beacon.cur[()]? ≠ some []

theorem NoBlanks.domain_eq {s : State} (h : s.NoBlanks) {d : Domain} {raw : Bytes} (hrow : (raw, []) ∈ s.rawRows d) :
    d = .balance := by
  cases d with
  | balance => rfl
  | key =>
    obtain ⟨⟨a, b⟩, hmem, heq⟩ := List.mem_map.mp hrow
    obtain ⟨rfl, rfl⟩ := Prod.mk.inj heq
    exact absurd ((Bucket.mem_toList_iff _ _ _).mp hmem) (h.key a)
  | contract =>
    obtain ⟨⟨a, c⟩, _, heq⟩ := List.mem_map.mp hrow
    exact absurd (Prod.mk.inj heq).2 (Lib.Rlp.encode_ne_nil _)
  | commit =>
    obtain ⟨⟨⟨height, hash⟩, a⟩, _, heq⟩ := List.mem_map.mp hrow
    exact absurd ((congrArg List.length (Prod.mk.inj heq).2).symm.trans a.property) (by decide)
  | beacon =>
    obtain ⟨seed, hmem, heq⟩ := List.mem_map.mp hrow
    obtain ⟨_, rfl⟩ := Prod.mk.inj heq
    exact absurd (Option.mem_toList.mp hmem) h.seed

theorem NoBlanks.entry_ne_nil {s : State} (h : s.NoBlanks) {k : LeafKey} {v : Bytes} (hk : s.entry k = some v) :
    v ≠ [] := by
  rintro rfl
  have hd := h.domain_eq (mem_rawRows_of_entry hk)
  cases k with
  | balance a =>
    obtain ⟨m, _, hm, hbytes⟩ := balance_of_entry hk
    exact Lib.Rlp.beBytes_ne_nil hm hbytes.symm
  | key a | contract a | commit height hash | beacon => cases hd

section Reads

variable [Crypto] {s : State} {K : Set LeafKey} {d : Domain} {raw v : Bytes}

/-- **`PathsApart s d raw`** — no two leaves ever written share a path, and none has the path of another leaf that
is asked for. -/
structure PathsApart (s : State) (d : Domain) (raw : Bytes) : Prop where
  touched : Set.InjOn LeafKey.path s.touched
  queried : ∀ k ∈ s.touched, k.path = leafPath d raw → k.domain = d ∧ k.raw = raw

/-- Rows under one raw key are one row: a truncated height in a commitment's key would need two paths to meet. -/
theorem rawRows_unique (hK : Set.InjOn LeafKey.path K) (habsent : ∀ k ∉ K, s.entry k = none) (hblank : s.NoBlanks)
    {v' : Bytes} (h : (raw, v) ∈ s.rawRows d) (h' : (raw, v') ∈ s.rawRows d) : v = v' := by
  by_cases hempty : v = [] ∨ v' = []
  · obtain rfl : d = .balance := by
      rcases hempty with rfl | rfl
      · exact hblank.domain_eq h
      · exact hblank.domain_eq h'
    obtain ⟨⟨a, m⟩, hmem, heq⟩ := List.mem_map.mp h
    obtain ⟨⟨a', m'⟩, hmem', heq'⟩ := List.mem_map.mp h'
    obtain ⟨hraw, rfl⟩ := Prod.mk.inj heq
    obtain ⟨hraw', rfl⟩ := Prod.mk.inj heq'
    obtain rfl : a = a' := Subtype.ext (hraw.trans hraw'.symm)
    rw [Bucket.mem_toList_iff] at hmem hmem'
    rw [Option.some.inj (hmem.symm.trans hmem')]
  · rw [not_or] at hempty
    obtain ⟨k, hd, hraw, hk⟩ := entry_of_mem_rawRows hempty.1 h
    obtain ⟨k', hd', hraw', hk'⟩ := entry_of_mem_rawRows hempty.2 h'
    have hmem : ∀ {k : LeafKey} {v : Bytes}, s.entry k = some v → k ∈ K :=
      fun {k v} hk => not_not.mp fun hnot => by rw [habsent k hnot] at hk; cases hk
    have hpath : k.path = k'.path := by
      unfold LeafKey.path
      rw [hd, hraw, hd', hraw']
    obtain rfl := hK (hmem hk) (hmem hk') hpath
    exact Option.some.inj (hk.symm.trans hk')

omit [Crypto] in
theorem bucketGet_cases (s : State) (d : Domain) (raw : Bytes) :
    (raw, s.bucketGet d raw) ∈ s.rawRows d ∨ s.bucketGet d raw = [] ∧ ∀ v, (raw, v) ∉ s.rawRows d := by
  unfold bucketGet
  cases hlook : (s.rawRows d).lookup raw with
  | some v =>
    obtain ⟨l, l', hl, _⟩ := List.lookup_eq_some_iff.mp hlook
    left
    rw [hl]
    simp
  | none =>
    refine .inr ⟨rfl, fun v hv => ?_⟩
    have := List.lookup_eq_none_iff.mp hlook _ hv
    simp at this

/-- **The tree commits to what the bucket has under a raw key.** -/
theorem InStep.commits_bucketGet (h : InStep s.touched s) (hblank : s.NoBlanks) (hapart : s.PathsApart d raw) :
    ∃ vh, Statetrie.Commits s.trie vh ∧ vh (leafPath d raw) = leafValue (ofBytes (s.bucketGet d raw)) := by
  obtain ⟨vh, hcommits, hin, hout, habsent⟩ := h.tracks
  refine ⟨vh, hcommits, ?_⟩
  -- an entry under the raw key is what the lookup returns
  have hfound : ∀ (k : LeafKey) (b : Bytes), k.domain = d → k.raw = raw → s.entry k = some b →
      s.bucketGet d raw = b := by
    rintro k b rfl rfl hk
    have hrow := mem_rawRows_of_entry hk
    rcases bucketGet_cases s k.domain k.raw with hget | ⟨_, hnone⟩
    · exact rawRows_unique hapart.touched habsent hblank hget hrow
    · exact absurd hrow (hnone b)
  have hmem : ∀ {k : LeafKey} {b : Bytes}, s.entry k = some b → k ∈ s.touched :=
    fun {k b} hk => not_not.mp fun hnot => by rw [habsent k hnot] at hk; cases hk
  -- and without one the lookup returns nothing
  have hlive : (∀ k : LeafKey, k.domain = d → k.raw = raw → ∀ b, s.entry k ≠ some b) → s.bucketGet d raw = [] := by
    intro hnone
    rcases bucketGet_cases s d raw with hrow | ⟨hnil, _⟩
    · by_contra hget
      obtain ⟨k, hd, hraw, hk⟩ := entry_of_mem_rawRows hget hrow
      exact hnone k hd hraw _ hk
    · exact hnil
  by_cases hwritten : ∃ k ∈ s.touched, k.path = leafPath d raw
  · obtain ⟨k, hk, hpath⟩ := hwritten
    obtain ⟨hd, hraw⟩ := hapart.queried k hk hpath
    rw [← hpath, hin k hk]
    congr 1
    cases hentry : s.entry k with
    | some b => rw [hfound k b hd hraw hentry, ofBytes_of_ne_nil (hblank.entry_ne_nil hentry)]
    | none =>
      refine (if_pos (hlive fun k' hd' hraw' b hk' => ?_)).symm
      have hsame : k'.path = k.path := by
        unfold LeafKey.path
        rw [hd', hraw', hd, hraw]
      rw [hapart.touched (hmem hk') hk hsame, hentry] at hk'
      cases hk'
  · have hgone := hlive fun k hd hraw b hk => hwritten ⟨k, hmem hk, by rw [LeafKey.path, hd, hraw]⟩
    rw [hgone, hout _ fun k hk hpath => hwritten ⟨k, hk, hpath⟩]
    rfl

end Reads

end State

/-! ## §3 — the server -/

/-- **`ProofRequest`** — one leaf, at the tip (height 0) or at a height. -/
structure ProofRequest where
  domain : String
  key : Bytes
  height : Nat

/-- Why a request is rejected. -/
inductive ServeErr where
  | oversizedKey
  | unknownStateDomain
  | aboveTip
  | rootMismatch
  | chain (e : Err)
  | historical

def maxProofKeyWire : Nat := 64

section Server

variable [Crypto]

/-- What `StateProof` returns. -/
structure StateProof where
  root : Bytes32
  path : Bytes32
  value : Bytes
  valueHash : Bytes32
  proof : List Bytes32

/-- **`stateProof`** — the value of the bucket and the branch of its leaf; an empty value is an absent leaf. -/
def State.stateProof (s : State) (domain : String) (rawKey : Bytes) : Except ServeErr StateProof :=
  match stateDomain domain with
  | none => .error .unknownStateDomain
  | some tag =>
    let path := leafPath tag rawKey
    let value := s.bucketGet tag rawKey
    let valueHash := if value = [] then zero32 else Statetrie.valueHash value
    .ok ⟨s.stateRoot, path, value, valueHash, Statetrie.prove s.trie path⟩

namespace Node

/-- **`buildTipProof`** — the proof, labelled with the tip; no answer when the live root is not the header's. -/
def buildTipProof (n : Node State) (req : ProofRequest) : Except ServeErr ProofResponse :=
  match n.store.getLatestBlock with
  | .error e => .error (.chain e)
  | .ok block => do
    let p ← n.state.stateProof req.domain req.key
    if p.root.val ≠ block.header.stateRoot then .error .rootMismatch
    else return {
      height := block.getHeight
      blockHash := block.getHash.val
      stateRoot := block.header.stateRoot
      domain := req.domain
      key := req.key
      value := p.value
      valueHash := p.valueHash.val
      path := p.path.val
      proof := p.proof.map Subtype.val
      found := p.value ≠ [] }

/-- **`buildProof`** — by the height asked for; `historical` answers below the tip. -/
def buildProof (historical : ProofRequest → Except ServeErr ProofResponse) (n : Node State) (req : ProofRequest) :
    Except ServeErr ProofResponse :=
  if req.height = 0 ∨ req.height = n.store.latestHeight then n.buildTipProof req
  else if n.store.latestHeight < req.height then .error .aboveTip
  else historical req

/-- **`onGetProof`** — the handler, from the decoded request on. -/
def onGetProof (historical : ProofRequest → Except ServeErr ProofResponse) (n : Node State) (req : ProofRequest) :
    Except ServeErr ProofResponse :=
  if maxProofKeyWire < req.key.length then .error .oversizedKey else n.buildProof historical req

end Node

end Server

section Served

variable [Engine] {cfg : Config} {H : Set BlockHeader} {n : Node State}

theorem Node.Reachable.noBlanks (hr : Node.Reachable cfg H n) {K : Set LeafKey} (hstep : State.InStep K n.state) :
    n.state.NoBlanks where
  key a hblank := by
    obtain ⟨_, _, hentry, _⟩ := hr.fromBlocks.registered.cur a [] hblank
    cases hentry
  seed hblank := hstep.seed [] hblank rfl

/-- **A node serves every proof at its tip, and the light client that trusts the tip reads the bucket.** Whatever the
run of calls was, the handler finds its live root in the tip's header, so it answers; and the answer passes the
verifier with the value that the domain's bucket has under the raw key, or with absence. -/
theorem Node.proof_served (hinj : Set.InjOn BlockHeader.getHash (genesisHeaders ∪ H)) (hr : Node.Reachable cfg H n)
    (historical : ProofRequest → Except ServeErr ProofResponse) {req : ProofRequest} {d : Domain}
    (hdomain : stateDomain req.domain = some d) (hkey : req.key.length ≤ maxProofKeyWire)
    (hheight : req.height = 0 ∨ req.height = n.store.latestHeight) (hapart : n.state.PathsApart d req.key) :
    ∃ tip resp, n.store.getLatestBlock = .ok tip ∧ n.onGetProof historical req = .ok resp ∧
      resp.domain = req.domain ∧ resp.key = req.key ∧
      verifyProof (some tip.header) (some resp) = some (State.ofBytes (n.state.bucketGet d req.key)) := by
  obtain ⟨tip, _, htip, hroot, hexec⟩ := hr.tip_root hinj
  have hstep := hexec.inStep hapart.touched subset_rfl
  obtain ⟨vh, hcommits, hleaf⟩ := hstep.commits_bucketGet (hr.noBlanks hstep) hapart
  -- the handler gets past the limits and the root check
  have hserved : ∃ resp, n.onGetProof historical req = .ok resp ∧ resp.stateRoot = tip.header.stateRoot ∧
      resp.blockHash = tip.header.getHash.val ∧ resp.domain = req.domain ∧ resp.key = req.key ∧
      resp.value = n.state.bucketGet d req.key ∧ resp.found = decide (n.state.bucketGet d req.key ≠ []) ∧
      resp.valueHash = (State.leafValue (State.ofBytes (n.state.bucketGet d req.key))).val ∧
      resp.path = (leafPath d req.key).val ∧
      resp.proof = (Statetrie.prove n.state.trie (leafPath d req.key)).map Subtype.val := by
    unfold Node.onGetProof Node.buildProof Node.buildTipProof State.stateProof
    rw [if_neg (not_lt.mpr hkey), if_pos hheight, htip, hdomain]
    refine ⟨_, if_neg (not_not.mpr hroot), rfl, rfl, rfl, rfl, rfl, rfl, congrArg Subtype.val ?_, rfl, rfl⟩
    unfold State.ofBytes
    split <;> rfl
  obtain ⟨resp, hresp, hr₁, hr₂, hr₃, hr₄, hvalue, hfound, hhash, hpath, hproof⟩ := hserved
  have hwant : resp.wantValueHash = some (State.leafValue (State.ofBytes (n.state.bucketGet d req.key))) := by
    unfold ProofResponse.wantValueHash
    rw [hfound, hvalue]
    by_cases hnil : n.state.bucketGet d req.key = []
    · simp [hnil, State.ofBytes, State.leafValue]
    · simp [hnil, State.ofBytes, State.leafValue]
  have hanswer : resp.answer = State.ofBytes (n.state.bucketGet d req.key) := by
    unfold ProofResponse.answer State.ofBytes
    rw [hfound, hvalue]
    by_cases hnil : n.state.bucketGet d req.key = [] <;> simp [hnil]
  refine ⟨tip, resp, htip, hresp, hr₃, hr₄, ?_⟩
  rw [← hanswer]
  refine verifyProof_of_verify hr₁ hr₂ hwant hhash ?_
  rw [hpath, hproof, ← hleaf, ← hroot]
  exact Statetrie.verify_eq_true.mpr ⟨_, _, _, _, rfl, rfl, rfl, rfl, Statetrie.length_prove _ _,
    hcommits.foldBranch_prove _⟩

end Served

/-- No leaf on the trail has the path of another leaf that is asked for. -/
def queryApart [Crypto] (d : Domain) (raw : Bytes) (l : List Note) : Bool :=
  l.all fun
    | .leaf k => decide (k.path = leafPath d raw → k.domain = d ∧ k.raw = raw)
    | _ => true

theorem State.pathsApart [Crypto] {s : State} {d : Domain} {raw : Bytes} (hapart : leavesApart s.log = true)
    (hquery : queryApart d raw s.log = true) : s.PathsApart d raw where
  touched := State.injOn_touched hapart
  queried k hk hpath := by
    unfold queryApart at hquery
    exact of_decide_eq_true (List.all_eq_true.mp hquery (.leaf k) hk) hpath

/-- A miner's balance after their first block, as a light client reads it. -/
theorem Node.proof_served_handMined :
    letI := Engine.bare
    ∃ (n : Node State) (tip : FullBlock) (resp : ProofResponse), tip.getHeight = 1 ∧
      n.onGetProof (fun _ => .error .historical) ⟨"balance", (handAddr 1).val, 1⟩ = .ok resp ∧
      verifyProof (some tip.header) (some resp) = some (some (beBytes (getBlockReward 1))) := by
  let _ := Engine.bare
  obtain ⟨n, hr, _, htest⟩ := exists_reachable_byHand (fun _ => none) true [handSeal handGenesis 1 [] []] []
    (fun n => leavesApart n.state.log && queryApart .balance (handAddr 1).val n.state.log &&
      decide (n.store.latestHeight = 1 ∧ n.state.bucketGet .balance (handAddr 1).val = beBytes (getBlockReward 1)))
    (by decide +kernel)
  simp only [Bool.and_eq_true, decide_eq_true_eq] at htest
  obtain ⟨⟨hapart, hquery⟩, hheight, hvalue⟩ := htest
  have hinj := injOn_byHand (fun _ => none) (l := ([handSeal handGenesis 1 [] []] ++ []).map FullBlock.header)
    (by decide +kernel)
  obtain ⟨tip, hsound, htip, _⟩ := hr.tip_root hinj
  let req : ProofRequest := ⟨"balance", (handAddr 1).val, 1⟩
  have hdomain : stateDomain req.domain = some .balance := rfl
  obtain ⟨tip', resp, htip', hserved, _, _, hverify⟩ := Node.proof_served hinj hr (fun _ => .error .historical)
    hdomain (by decide) (.inr hheight.symm) (State.pathsApart hapart hquery)
  obtain rfl := Except.ok.inj (htip.symm.trans htip')
  refine ⟨n, tip, resp, hsound.latestHeight.symm.trans hheight, hserved, ?_⟩
  rw [hverify, hvalue]
  rfl

/-! ## §4 — one tip, one state -/

section Agreement

variable [Crypto] {K : Set LeafKey} {s s' : State}

/-- **`Divergence`** — what lets two states with one root differ: the tree gives way, two values share a digest, or a
value has the all-zero digest of absence. -/
inductive Divergence where
  | tree (b : Statetrie.Breach)
  | values (x y : Bytes)
  | zeroValue (x : Bytes)

/-- The divergence is a real break of the hash. -/
def Divergence.Holds : Divergence → Prop
  | .tree b => b.Holds
  | .values x y => x ≠ y ∧ hash256 x = hash256 y
  | .zeroValue x => hash256 x = zero32

/-- **`divergence`** — the strings, computed from the two states at a leaf where they differ. -/
def State.divergence (s s' : State) (k : LeafKey) : Divergence :=
  let vh := State.leafValue (s.entry k)
  let vh' := State.leafValue (s'.entry k)
  if vh ≠ vh' then
    .tree (Statetrie.breach k.path vh vh' (Statetrie.prove s.trie k.path) (Statetrie.prove s'.trie k.path))
  else
    match s.entry k, s'.entry k with
    | some x, some y => .values x y
    | some x, none => .zeroValue x
    | none, some y => .zeroValue y
    | none, none => .values [] []

/-- **Equal roots commit to equal entries**, up to a break of the hash that is at hand. -/
theorem State.divergence_holds (h : Tracks K s.trie s.entry) (h' : Tracks K s'.trie s'.entry)
    (hroot : s.stateRoot = s'.stateRoot) {k : LeafKey} (hne : s.entry k ≠ s'.entry k) :
    (State.divergence s s' k).Holds := by
  obtain ⟨vh, hcommits, hin, _, habsent⟩ := h
  obtain ⟨vh', hcommits', hin', _, habsent'⟩ := h'
  have hk : k ∈ K := by
    by_contra hnot
    exact hne ((habsent k hnot).trans (habsent' k hnot).symm)
  unfold State.divergence
  by_cases hvalue : State.leafValue (s.entry k) = State.leafValue (s'.entry k)
  · rw [if_neg (not_not.mpr hvalue)]
    -- one value hash for two different entries
    cases hx : s.entry k with
    | none =>
      cases hy : s'.entry k with
      | none => exact absurd (hx.trans hy.symm) hne
      | some y =>
        rw [hx, hy] at hvalue
        exact hvalue.symm
    | some x =>
      cases hy : s'.entry k with
      | none =>
        rw [hx, hy] at hvalue
        exact hvalue
      | some y =>
        rw [hx, hy] at hvalue hne
        exact ⟨fun hxy => hne (congrArg some hxy), hvalue⟩
  · rw [if_pos hvalue]
    refine (Statetrie.breach_holds hvalue ?_ ?_).1
    · rw [Statetrie.length_prove, Statetrie.length_prove]
    · rw [← hin k hk, ← hin' k hk, hcommits.foldBranch_prove, hcommits'.foldBranch_prove]
      exact hroot

end Agreement

section Tips

variable [Engine] {cfg cfg' : Config} {H : Set BlockHeader} {n n' : Node State}

/-- **Nodes on one tip hold one state.** Two nodes, archive or not, that went through any calls and stand on the same
tip hash have the same balances, keys, contracts, pending commitments and beacon; where a leaf differs, the two
states compute strings that break the hash. -/
theorem Node.state_of_tip (hinj : Set.InjOn BlockHeader.getHash (genesisHeaders ∪ H))
    (hr : Node.Reachable cfg H n) (hr' : Node.Reachable cfg' H n') (htip : n.store.latestHash = n'.store.latestHash)
    (hpaths : Set.InjOn LeafKey.path (n.state.touched ∪ n'.state.touched)) (k : LeafKey)
    (hne : n.state.entry k ≠ n'.state.entry k) : (State.divergence n.state n'.state k).Holds := by
  obtain ⟨tip, hs, _, hroot, hexec⟩ := hr.tip_root hinj
  obtain ⟨tip', hs', _, hroot', hexec'⟩ := hr'.tip_root hinj
  have hheader : tip.header = tip'.header := by
    refine hinj (hs.headers _ _ hs.tipBody) (hs'.headers _ _ hs'.tipBody) (Subtype.ext ?_)
    exact (hs.latestHash.symm.trans htip).trans hs'.latestHash
  have hsame : n.state.stateRoot = n'.state.stateRoot := by
    refine Subtype.ext (hroot.trans ?_)
    rw [hheader]
    exact hroot'.symm
  exact State.divergence_holds (hexec.inStep hpaths Set.subset_union_left).tracks
    (hexec'.inStep hpaths Set.subset_union_right).tracks hsame hne

end Tips

/-- The leaves on the trail are among the given ones. -/
def leavesAmong (keys : List LeafKey) (l : List Note) : Bool :=
  l.all fun
    | .leaf k => decide (k ∈ keys)
    | _ => true

theorem State.touched_among {keys : List LeafKey} {s : State} (h : leavesAmong keys s.log = true) :
    s.touched ⊆ {k | k ∈ keys} := by
  intro k hk
  unfold leavesAmong at h
  exact of_decide_eq_true (List.all_eq_true.mp h (.leaf k) hk)

/-- An archive node and a plain node on one block. -/
theorem Node.state_of_tip_handMined :
    letI := Engine.bare
    ∃ n n' : Node State, n.store.latestHeight = 1 ∧ n.store.latestHash = n'.store.latestHash ∧
      ∀ k, n.state.entry k ≠ n'.state.entry k → (State.divergence n.state n'.state k).Holds := by
  let _ := Engine.bare
  let block := handSeal handGenesis 1 [] []
  let keys : List LeafKey := [.balance genesisAddress, .balance (handAddr 1), .beacon]
  have hends : ∀ archive : Bool, okAnd (handRun ⟨ZERONET, archive⟩ [block] (handNode archive)) (fun n =>
      leavesAmong keys n.state.log && decide (n.store.latestHeight = 1 ∧ n.store.latestHash = block.getHash.val)) =
      true := by decide +kernel
  obtain ⟨n, hr, _, htest⟩ := exists_reachable_byHand (fun _ => none) true [block] [] _ (hends true)
  obtain ⟨n', hr', _, htest'⟩ := exists_reachable_byHand (fun _ => none) false [block] [] _ (hends false)
  simp only [Bool.and_eq_true, decide_eq_true_eq] at htest htest'
  obtain ⟨hkeys, hheight, hhash⟩ := htest
  obtain ⟨hkeys', _, hhash'⟩ := htest'
  have hnodup : (keys.map LeafKey.path).Nodup := by decide +kernel
  have hpaths : Set.InjOn LeafKey.path (n.state.touched ∪ n'.state.touched) := by
    refine Set.InjOn.mono (Set.union_subset (State.touched_among hkeys) (State.touched_among hkeys')) ?_
    exact fun x hx y hy => List.inj_on_of_nodup_map hnodup hx hy
  have hinj := injOn_byHand (fun _ => none) (l := ([block] ++ []).map FullBlock.header) (by decide +kernel)
  exact ⟨n, n', hheight, hhash.trans hhash'.symm,
    Node.state_of_tip hinj hr hr' (hhash.trans hhash'.symm) hpaths⟩

end NgCore
