/-
# NgCore.Chain.Converge — serving a chain to a peer

`Wired.onGetChain` (`ngp2p/wired/wired_getchain.go`). In converging mode the request lists hashes of the peer's chain
and the reply should be OUR chain from the fork point up, so that it attaches to a block the peer has. The fork point is
looked up by HASH in a store that also holds side blocks, and the reply continues by canonical HEIGHT. When the highest
hash found is the hash of a side block, the reply starts above another block.

`converging_attaches_iff` says for which requests the reply attaches; `converging_detached` is a request for which it
does not.

DELIVERABLE: `Node.converging_attaches_iff`.
-/
import NgCore.Chain.SnapSync

namespace NgCore

open Lib (Bucket)
open Lib.Rlp (beVal)
open BlockStore (Sound Tallied)

/-! ## §1 — the handler -/

/-- **`maxBlocks`** — blocks transferred at most (`defaults.MaxBlocks`). -/
def maxBlocks : Nat := 1000

/-- **`GetChainPayload`** — known hashes (`From`), and a 16-byte height range or a 32-byte hash (`To`). -/
structure GetChainPayload where
  fromHashes : List Bytes
  toField : Bytes

/-- What the handler sends: a reject (its text is not modelled) or a chain. -/
inductive ChainReply where
  | reject
  | chain (blocks : List FullBlock)

namespace Node

variable {S : Type} [Crypto] (genesis : FullBlock) (n : Node S)

/-- **`getBlockByHash`** — `Chain.GetBlockByHash`, with the genesis block of the network; an error is `none`. -/
def getBlockByHash (hash : Bytes) : Option FullBlock :=
  if hash = genesis.getHash.val then some genesis
  else if hash.length = hashSize then n.store.blocks[hash]? else none

omit [Crypto] in
/-- **`getBlockByHeight`** — `Chain.GetBlockByHeight`. -/
def getBlockByHeight (height : Nat) : Option FullBlock :=
  if height = 0 then some genesis else (n.store.getBlockByHeight height).toOption

/-- The fork point of converging mode: the last known hash, searched from the end. -/
def samepoint (hashes : List Bytes) : Option FullBlock := hashes.reverse.findSome? (n.getBlockByHash genesis)

omit [Crypto] in
/-- The canonical blocks above a block, up to a limit. -/
def blocksAbove : (limit : Nat) → (cur : FullBlock) → List FullBlock
  | 0, _ => []
  | limit + 1, cur =>
    match n.getBlockByHeight genesis (cur.getHeight + 1) with
    | some next => next :: blocksAbove limit next
    | none => []

/-- The same, up to a hash (`fetch mode`). -/
def blocksUntil (last : Bytes) : (limit : Nat) → (cur : FullBlock) → List FullBlock
  | 0, _ => []
  | limit + 1, cur =>
    if cur.getHash.val = last then []
    else match n.getBlockByHeight genesis (cur.getHeight + 1) with
      | some next => next :: blocksUntil last limit next
      | none => []

omit [Crypto] in
/-- The blocks of a height range, all or nothing. -/
def blocksBetween : (count height : Nat) → Option (List FullBlock)
  | 0, _ => some []
  | count + 1, height => do
    let cur ← n.getBlockByHeight genesis height
    let rest ← blocksBetween count (height + 1)
    return cur :: rest

/-- **`onGetChain`** — fetch a range, converge, or fetch up to a hash. -/
def onGetChain (payload : GetChainPayload) : ChainReply :=
  if payload.toField.length ≠ 16 ∧ payload.toField.length ≠ 32 then .reject
  else
    match payload.fromHashes with
    | [] =>
      if payload.toField.length ≠ 16 then .reject
      else
        let first := beVal (payload.toField.take 8).reverse
        let last := beVal (payload.toField.drop 8).reverse
        match n.blocksBetween genesis (last + 1 - first) first with
        | some blocks => .chain blocks
        | none => .reject
    | hash :: _ =>
      if payload.toField.length = 16 then
        match n.samepoint genesis payload.fromHashes with
        | none => .chain []
        | some cur => .chain (n.blocksAbove genesis maxBlocks cur)
      else
        match n.getBlockByHash genesis hash with
        | none => .reject
        | some cur => .chain (n.blocksUntil genesis payload.toField maxBlocks cur)

end Node

/-! ## §2 — what a reply should be, and when it is -/

namespace BlockStore

/-- The canonical chain contains the hash. -/
def Contains (s : BlockStore) (hash : Bytes) : Prop := ∃ k : Nat, s.heights[k]? = some hash

/-- **`Attaches s hashes reply`** — the blocks are linked, the first hangs on a requested hash, and the reply is empty
only if the chain contains none of the hashes, or ends at the highest it contains: its tip is requested. -/
structure Attaches [Crypto] (s : BlockStore) (hashes : List Bytes) (reply : List FullBlock) : Prop where
  linked : reply.IsChain fun a b => b.getPrevHash = a.getHash.val
  first : ∀ b, reply.head? = some b → b.getPrevHash ∈ hashes
  empty : reply = [] → (∀ hash ∈ hashes, ¬ s.Contains hash) ∨ s.latestHash ∈ hashes

/-- **`LastKnown s hashes b`** — `b` is stored under the last of the hashes that anything is stored under. -/
def LastKnown (s : BlockStore) (hashes : List Bytes) (b : FullBlock) : Prop :=
  ∃ before hash after, hashes = before ++ hash :: after ∧ s.blocks[hash]? = some b ∧
    ∀ h ∈ after, s.blocks[h]? = none

/-- **`Locates s hashes`** — with the last known block the request also has the canonical hash of its height (or the
tip, if that is lower), or it is at the tip or above and the request has no canonical hash at all. -/
def Locates (s : BlockStore) (hashes : List Bytes) : Prop :=
  ∀ b, s.LastKnown hashes b → (∃ hash ∈ hashes, s.heights[min b.getHeight s.latestHeight]? = some hash) ∨
    s.latestHeight ≤ b.getHeight ∧ ∀ hash ∈ hashes, ¬ s.Contains hash

end BlockStore

section Local

variable [Engine] {cfg : Config} {H : Set BlockHeader} {n : Node State} {genesis tip : FullBlock} {hashes : List Bytes}

/-- **`Served genesis n tip`** — what the handler relies on: a sound store from the genesis block up. -/
structure Node.Served (H : Set BlockHeader) (genesis : FullBlock) (n : Node State) (tip : FullBlock) : Prop
    extends Sound H n.store tip where
  zero : n.store.originHeight = 0
  start : n.store.originHash = genesis.getHash.val
  height : genesis.getHeight = 0

theorem Node.Local.served (hinj : Set.InjOn BlockHeader.getHash (genesisHeaders ∪ H)) (h : Node.Local cfg H n)
    (hgenesis : getGenesisBlock cfg.network = .ok genesis) :
    ∃ tip, Node.Served (genesisHeaders ∪ H) genesis n tip := by
  rcases h.tallied hinj with ⟨tip, genesis', hgenesis', hs, ht⟩
  obtain rfl := Except.ok.inj (hgenesis.symm.trans hgenesis')
  refine ⟨tip, hs, ?_, ht.originHash, getGenesisBlock_height hgenesis⟩
  rw [Node.originHeight_eq hinj ht hs]
  exact getGenesisBlock_height hgenesis

namespace Node.Served

/-- A hash is found when something is stored under it, at the height of the stored block. -/
theorem getBlockByHash (h : Served H genesis n tip) (hash : Bytes) :
    (n.getBlockByHash genesis hash).map FullBlock.getHeight = n.store.blocks[hash]?.map FullBlock.getHeight := by
  unfold Node.getBlockByHash
  split
  · next heq =>
    -- the genesis block is the origin of the store
    rcases h.canonical n.store.originHeight le_rfl h.origin with ⟨c, hc, hbody, hheight, -⟩
    have horigin := Option.some.inj (h.originAt.symm.trans hc)
    rw [heq, ← h.start, horigin, hbody]
    show some genesis.getHeight = some c.getHeight
    rw [h.height, hheight, h.zero]
  · split
    · rfl
    · next hlen =>
      cases hbody : n.store.blocks[hash]? with
      | none => rfl
      | some b => exact absurd (h.keyed hash b hbody ▸ b.getHash.property) hlen

theorem samepoint_some (h : Served H genesis n tip) {cur : FullBlock}
    (hcur : n.samepoint genesis hashes = some cur) :
    ∃ b, n.store.LastKnown hashes b ∧ b.getHeight = cur.getHeight := by
  rcases List.findSome?_eq_some_iff.mp hcur with ⟨after, hash, before, hsplit, hfound, hnone⟩
  have hmap := h.getBlockByHash hash
  rw [hfound] at hmap
  rcases Option.map_eq_some_iff.mp hmap.symm with ⟨b, hb, hheight⟩
  refine ⟨b, ⟨before.reverse, hash, after.reverse, ?_, hb, fun k hk => ?_⟩, hheight⟩
  · rw [← List.reverse_reverse hashes, hsplit]
    simp
  · have hmiss := h.getBlockByHash k
    rw [hnone k (List.mem_reverse.mp hk)] at hmiss
    exact Option.map_eq_none_iff.mp hmiss.symm

theorem samepoint_none (h : Served H genesis n tip) (hcur : n.samepoint genesis hashes = none) :
    ∀ hash ∈ hashes, n.store.blocks[hash]? = none := by
  intro hash hmem
  have hmiss := h.getBlockByHash hash
  rw [List.findSome?_eq_none_iff.mp hcur hash (List.mem_reverse.mpr hmem)] at hmiss
  exact Option.map_eq_none_iff.mp hmiss.symm

omit [Engine] in
theorem lastKnown_unique {s : BlockStore} {b c : FullBlock} (hb : s.LastKnown hashes b) (hc : s.LastKnown hashes c) :
    b = c := by
  rcases hb with ⟨before, hash, after, rfl, hstored, hnone⟩
  rcases hc with ⟨before', hash', after', heq, hstored', hnone'⟩
  -- the longer of the two tails would hold a known hash
  rcases List.append_eq_append_iff.mp heq with ⟨l, -, hl⟩ | ⟨l, -, hl⟩
  · cases l with
    | nil =>
      obtain ⟨rfl, -⟩ := List.cons.inj hl
      exact Option.some.inj (hstored.symm.trans hstored')
    | cons k l =>
      obtain ⟨-, rfl⟩ := List.cons.inj hl
      cases (hnone hash' (by simp)).symm.trans hstored'
  · cases l with
    | nil =>
      obtain ⟨rfl, -⟩ := List.cons.inj hl
      exact Option.some.inj (hstored.symm.trans hstored')
    | cons k l =>
      obtain ⟨-, rfl⟩ := List.cons.inj hl
      cases (hnone' hash (by simp)).symm.trans hstored

theorem stored (h : Served H genesis n tip) {hash : Bytes} (hc : n.store.Contains hash) :
    n.store.blocks[hash]? ≠ none := by
  rcases hc with ⟨k, hk⟩
  have hle : k ≤ tip.getHeight := by
    by_contra hlt
    rw [h.above k (by omega)] at hk
    cases hk
  rcases h.canonical k (by rw [h.zero]; omega) hle with ⟨b, hb, hbody, -⟩
  rw [Option.some.inj (hk.symm.trans hb), hbody]
  exact Option.some_ne_none b

/-- Below the tip the next block is the canonical one, and hangs on the canonical hash. -/
theorem getBlockByHeight_succ (h : Served H genesis n tip) {k : Nat} (hk : k < tip.getHeight) :
    ∃ b, n.getBlockByHeight genesis (k + 1) = some b ∧ b.getHeight = k + 1 ∧
      n.store.heights[k + 1]? = some b.getHash.val ∧ n.store.heights[k]? = some b.getPrevHash := by
  rcases h.canonical (k + 1) (by rw [h.zero]; omega) (by omega) with ⟨b, hb, hbody, hheight, hlink⟩
  refine ⟨b, ?_, hheight, hb, hlink (by rw [h.zero]; omega)⟩
  unfold Node.getBlockByHeight BlockStore.getBlockByHeight
  rw [if_neg (Nat.succ_ne_zero k), hb]
  dsimp only
  rw [BlockStore.getBlockByHash, hbody]
  rfl

theorem getBlockByHeight_above (h : Served H genesis n tip) {k : Nat} (hk : tip.getHeight ≤ k) :
    n.getBlockByHeight genesis (k + 1) = none := by
  unfold Node.getBlockByHeight BlockStore.getBlockByHeight
  rw [if_neg (Nat.succ_ne_zero k), h.above (k + 1) (by omega)]
  rfl

/-- **What is served above a block is linked**, from the canonical hash of its height on. -/
theorem blocksAbove_linked (h : Served H genesis n tip) (limit : Nat) (cur : FullBlock) :
    (n.blocksAbove genesis limit cur).IsChain (fun a b => b.getPrevHash = a.getHash.val) ∧
      ∀ b, (n.blocksAbove genesis limit cur).head? = some b → n.store.heights[cur.getHeight]? = some b.getPrevHash := by
  induction limit generalizing cur with
  | zero => exact ⟨List.IsChain.nil, nofun⟩
  | succ limit ih =>
    rw [Node.blocksAbove]
    by_cases hlt : cur.getHeight < tip.getHeight
    · rcases h.getBlockByHeight_succ hlt with ⟨next, hnext, hheight, hindex, hprev⟩
      rw [hnext]
      rcases ih next with ⟨hlinked, hfirst⟩
      refine ⟨List.isChain_cons.mpr ⟨fun b hb => ?_, hlinked⟩, fun b hb => ?_⟩
      · have := hfirst b hb
        rw [hheight, hindex] at this
        exact (Option.some.inj this).symm
      · obtain rfl := Option.some.inj hb
        exact hprev
    · rw [h.getBlockByHeight_above (by omega)]
      exact ⟨List.IsChain.nil, nofun⟩

end Node.Served

/-- **A converging reply attaches exactly when the request locates the fork.** -/
theorem Node.converging_attaches_iff (hinj : Set.InjOn BlockHeader.getHash (genesisHeaders ∪ H))
    (hn : Node.Local cfg H n) (hgenesis : getGenesisBlock cfg.network = .ok genesis) {payload : GetChainPayload}
    (hfrom : payload.fromHashes ≠ []) (hto : payload.toField.length = 16) :
    ∃ reply, n.onGetChain genesis payload = .chain reply ∧
      (n.store.Attaches payload.fromHashes reply ↔ n.store.Locates payload.fromHashes) := by
  rcases hn.served hinj hgenesis with ⟨tip, h⟩
  have hmode : n.onGetChain genesis payload = .chain
      (match n.samepoint genesis payload.fromHashes with
        | none => []
        | some cur => n.blocksAbove genesis maxBlocks cur) := by
    unfold Node.onGetChain
    rw [if_neg (by simp [hto])]
    cases hhashes : payload.fromHashes with
    | nil => exact absurd hhashes hfrom
    | cons hash rest =>
      dsimp only
      rw [if_pos hto]
      split <;> rfl
  refine ⟨_, hmode, ?_⟩
  cases hcur : n.samepoint genesis payload.fromHashes with
  | none =>
    -- nothing known: an empty reply, and no canonical hash either
    have hnone := h.samepoint_none hcur
    refine ⟨fun _ b hb => ?_, fun _ => ⟨List.IsChain.nil, nofun, fun _ => .inl fun hash hmem hc => ?_⟩⟩
    · rcases hb with ⟨before, hash, after, heq, hstored, -⟩
      rw [hnone hash (by rw [heq]; simp)] at hstored
      cases hstored
    · exact h.stored hc (hnone hash hmem)
  | some cur =>
    rcases h.samepoint_some hcur with ⟨known, hknown, hheight⟩
    rcases h.blocksAbove_linked maxBlocks cur with ⟨hlinked, hfirst⟩
    have hlocates : n.store.Locates payload.fromHashes ↔
        (∃ hash ∈ payload.fromHashes, n.store.heights[min cur.getHeight tip.getHeight]? = some hash) ∨
          tip.getHeight ≤ cur.getHeight ∧ ∀ hash ∈ payload.fromHashes, ¬ n.store.Contains hash := by
      rw [← hheight, ← h.latestHeight]
      refine ⟨fun hl => hl known hknown, fun hl b hb => ?_⟩
      rw [Node.Served.lastKnown_unique hb hknown]
      exact hl
    rw [hlocates]
    dsimp only
    by_cases hlt : cur.getHeight < tip.getHeight
    · -- the reply starts above the canonical block of that height
      rcases h.getBlockByHeight_succ hlt with ⟨next, hnext, -, -, hprev⟩
      have hreply : n.blocksAbove genesis maxBlocks cur = next :: n.blocksAbove genesis 999 next := by
        rw [maxBlocks, Node.blocksAbove, hnext]
      rw [Nat.min_eq_left hlt.le, hprev]
      constructor
      · intro ha
        exact .inl ⟨_, ha.first next (by rw [hreply]; rfl), rfl⟩
      · rintro (⟨hash, hmem, heq⟩ | ⟨hle, -⟩)
        · refine ⟨hlinked, fun b hb => ?_, fun hnil => ?_⟩
          · rw [Option.some.inj ((hfirst b hb).symm.trans hprev), Option.some.inj heq]
            exact hmem
          · rw [hreply] at hnil
            cases hnil
        · omega
    · -- at the tip or above nothing is served
      have hreply : n.blocksAbove genesis maxBlocks cur = [] := by
        rw [maxBlocks, Node.blocksAbove, h.getBlockByHeight_above (by omega)]
      rw [hreply, Nat.min_eq_right (by omega), h.top, ← h.latestHash]
      constructor
      · intro ha
        rcases ha.empty rfl with hnone | hmem
        · exact .inr ⟨by omega, hnone⟩
        · exact .inl ⟨_, hmem, rfl⟩
      · rintro (⟨hash, hmem, heq⟩ | ⟨-, hnone⟩)
        · exact ⟨List.IsChain.nil, nofun, fun _ => .inr (Option.some.inj heq ▸ hmem)⟩
        · exact ⟨List.IsChain.nil, nofun, fun _ => .inl hnone⟩

end Local

/-! ## §3 — a fork of one block, by hand -/

/-- Two canonical blocks, and a side block beside the first. -/
def handAside [Crypto] : List FullBlock := handChain 1 2 handGenesis ++ handChain 2 1 handGenesis

/-- A converging request for the hash of one block. -/
def handAsk [Crypto] (b : FullBlock) : GetChainPayload := ⟨[b.getHash.val], List.replicate 16 0⟩

/-- The reply to the request is a chain that starts above another block. -/
def repliesBeside [Crypto] (b : FullBlock) (n : Node State) : Bool :=
  match n.onGetChain handGenesis (handAsk b) with
  | .chain (first :: _) => decide (first.getPrevHash ≠ b.getHash.val)
  | _ => false

theorem Node.converging_attaches_iff_handAside :
    letI := Engine.bare
    ∃ n : Node State, Node.Local ⟨ZERONET, false⟩ {x | x ∈ handAside.map FullBlock.header} n ∧
      n.store.latestHeight = 2 ∧ ∀ b ∈ handAside, ∃ reply, n.onGetChain handGenesis (handAsk b) = .chain reply ∧
        (n.store.Attaches (handAsk b).fromHashes reply ↔ n.store.Locates (handAsk b).fromHashes) := by
  let _ := Engine.bare
  rcases exists_reachable_byHand (fun _ => none) false handAside [] (fun n => n.store.latestHeight = 2)
    (by decide +kernel) with ⟨n, hr, -, htest⟩
  rw [List.append_nil] at hr
  have hgenesis : getGenesisBlock ZERONET = .ok handGenesis := (getGenesisBlock_byHand _ ZERONET).trans rfl
  have hinj : Set.InjOn BlockHeader.getHash (genesisHeaders ∪ {x | x ∈ handAside.map FullBlock.header}) :=
    injOn_byHand _ (by decide +kernel)
  refine ⟨n, hr.local, of_decide_eq_true htest, fun b _ => ?_⟩
  exact Node.converging_attaches_iff hinj hr.local hgenesis (List.cons_ne_nil _ _) List.length_replicate

/-- **A reply that does not attach**: asked for a side block, the node answers with the canonical block above its
height. -/
theorem Node.converging_detached :
    letI := Engine.bare
    ∃ (n : Node State) (b : FullBlock) (reply : List FullBlock),
      Node.Local ⟨ZERONET, false⟩ {x | x ∈ handAside.map FullBlock.header} n ∧
      n.onGetChain handGenesis (handAsk b) = .chain reply ∧ reply ≠ [] ∧
      ¬ n.store.Attaches (handAsk b).fromHashes reply := by
  let _ := Engine.bare
  rcases exists_reachable_byHand (fun _ => none) false handAside [] (repliesBeside (handSeal handGenesis 2 [] []))
    (by decide +kernel) with ⟨n, hr, -, htest⟩
  rw [List.append_nil] at hr
  unfold repliesBeside at htest
  split at htest
  · next first rest hreply =>
    refine ⟨n, _, _, hr.local, hreply, List.cons_ne_nil _ _, fun ha => ?_⟩
    exact of_decide_eq_true htest (List.mem_singleton.mp (ha.first first rfl))
  · cases htest

end NgCore
