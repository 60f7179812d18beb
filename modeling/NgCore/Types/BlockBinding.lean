/-
# NgCore.Types.BlockBinding — what the header hash binds of the body

Two blocks with one header hash that both pass `checkError`: how much of the body is the same? With a
hash that does not collide on the strings the two checks hash (`FullBlock.preimages`), the header
fixes

* the SIGNATURE sequence — the witness root hashes the envelopes in body order,
* the uncles — the uncle digest hashes the uncle headers in order,
* the ids of transactions and commitments, as a MULTISET — the content root sorts them first.

It does NOT fix the order of the body (sorted away by the content root, while the witness root only
orders the envelopes), nor any SALT (no digest covers it), nor whether a missing signature is nil or empty.

DELIVERABLES: `body_eq_iff` — the bodies are equal exactly when they are ARRANGED alike, carry the same salts and miss
signatures alike; `bodies_differ` — one header, two accepted bodies.
-/
import NgCore.Types.Block
import NgCore.Lib.Sequences

namespace NgCore

open Lib.Rlp (Item encode encodeAll)

/-! ## §1 — what an item determines -/

theorem FullTx.item_unsigned (x : FullTx) : x.unsigned.item =
    .list [.nat x.network.toNat, .nat x.type.toNat, .nat x.height, .str x.toAddr.val, .nat x.value,
      .nat x.fee, .str x.extra] := by
  simp [item, unsigned]

theorem Commitment.item_unsigned (x : Commitment) : x.unsigned.item =
    .list [.nat x.network.toNat, .nat x.height, .str x.hash, .nat x.fee] := by
  simp [item, unsigned]

theorem Item.nat_inj {m n : Nat} : Item.nat m = Item.nat n ↔ m = n := by
  simp only [Item.nat, Item.str.injEq]
  exact ⟨Lib.Rlp.beBytes_inj, congrArg _⟩

/-- Two optional slices of one content, nil or not alike, are the same. -/
theorem eq_of_getD {α : Type} {a b : Option (List α)} (hcontent : a.getD [] = b.getD []) (hsome : a.isSome = b.isSome) :
    a = b := by
  cases a <;> cases b <;> simp_all

/-- The unsigned item, the envelope and the salt are the whole transaction. -/
theorem FullTx.ext_item {x y : FullTx} (hitem : x.unsigned.item = y.unsigned.item)
    (hsign : x.sign? = y.sign?) (hsalt : x.salt? = y.salt?) : x = y := by
  obtain ⟨xn, xt, xh, xto, xv, xf, xe, xs, xl⟩ := x
  obtain ⟨yn, yt, yh, yto, yv, yf, ye, ys, yl⟩ := y
  simp only [item_unsigned, Item.list.injEq, List.cons.injEq, Item.nat_inj, Item.str.injEq,
    UInt8.toNat_inj, Subtype.val_inj, and_true] at hitem
  simp_all

theorem Commitment.ext_item {x y : Commitment} (hitem : x.unsigned.item = y.unsigned.item)
    (hsign : x.sign? = y.sign?) : x = y := by
  obtain ⟨xn, xh, xd, xf, xs⟩ := x
  obtain ⟨yn, yh, yd, yf, ys⟩ := y
  simp only [item_unsigned, Item.list.injEq, List.cons.injEq, Item.nat_inj, Item.str.injEq,
    UInt8.toNat_inj, and_true] at hitem
  simp_all

theorem BlockHeader.ext_item {x y : BlockHeader} (hitem : x.item = y.item) : x = y := by
  cases x
  cases y
  simp only [item, Item.list.injEq, List.cons.injEq, Item.nat_inj, Item.str.injEq,
    UInt8.toNat_inj, and_true] at hitem
  simp_all

/-- Transactions and commitments are told apart by their field count. -/
def isTxItem : Item → Bool
  | .list l => l.length = 7
  | .str _ => false

/-! ## §2 — the parts of a block are short -/

section Sizes

variable {b : FullBlock} (hsize : b.raw.length ≤ maxBlockBytes)
include hsize

theorem length_header_raw : b.header.raw.length ≤ maxBlockBytes :=
  le_trans (Lib.Rlp.length_encode_le_of_mem (by simp)) hsize

theorem length_tx_raw {tx : FullTx} (h : tx ∈ b.txs) : tx.raw.length ≤ maxBlockBytes :=
  le_trans (le_trans (Lib.Rlp.length_encode_le_of_mem (List.mem_map_of_mem h))
    (Lib.Rlp.length_encode_le_of_mem (by simp))) hsize

theorem length_uncle_raw {u : BlockHeader} (h : u ∈ b.uncles) : u.raw.length ≤ maxBlockBytes :=
  le_trans (le_trans (Lib.Rlp.length_encode_le_of_mem (List.mem_map_of_mem h))
    (Lib.Rlp.length_encode_le_of_mem (by simp))) hsize

theorem length_commit_raw {c : Commitment} (h : c ∈ b.commits) : c.raw.length ≤ maxBlockBytes :=
  le_trans (le_trans (Lib.Rlp.length_encode_le_of_mem (List.mem_map_of_mem h))
    (Lib.Rlp.length_encode_le_of_mem (by
      have hmade : b.commits? ≠ none := fun hnil => by
        rw [FullBlock.commits, hnil] at h
        exact List.not_mem_nil h
      simp [hmade]))) hsize

theorem length_tx_unsigned_raw {tx : FullTx} (h : tx ∈ b.txs) : tx.unsigned.raw.length < 2 ^ 64 := by
  have hraw := le_trans (Lib.Rlp.length_encodeAll_le _) (length_tx_raw hsize h)
  rw [Lib.Rlp.encodeAll_append, List.length_append] at hraw
  have hmax : maxBlockBytes < 2 ^ 64 - 9 := by decide
  rw [FullTx.raw, FullTx.item_unsigned]
  exact lt_of_le_of_lt (Lib.Rlp.length_encode_list_le (by omega)) (by omega)

theorem length_commit_unsigned_raw {c : Commitment} (h : c ∈ b.commits) :
    c.unsigned.raw.length < 2 ^ 64 := by
  have hraw := le_trans (Lib.Rlp.length_encodeAll_le _) (length_commit_raw hsize h)
  rw [Lib.Rlp.encodeAll_append, List.length_append] at hraw
  have hmax : maxBlockBytes < 2 ^ 64 - 9 := by decide
  rw [Commitment.raw, Commitment.item_unsigned]
  exact lt_of_le_of_lt (Lib.Rlp.length_encode_list_le (by omega)) (by omega)

end Sizes

/-! ## §3 — what is hashed -/

namespace FullBlock

section

variable [Crypto]

/-- **`preimages`** — every string whose digest `checkError` and `getHash` take on a block. -/
def preimages (x : FullBlock) : Set Bytes :=
  {p | p = x.header.raw ∨ (∃ tx ∈ x.txs, p = tx.unsigned.raw ∨ p = tx.sign) ∨
    (∃ c ∈ x.commits, p = c.unsigned.raw ∨ p = c.sign) ∨ (∃ u ∈ x.uncles, p = u.raw) ∨
    p = (witnessHashes x.txs x.commits).flatMap Subtype.val ∨
    p = x.uncles.flatMap (fun u => u.getHash.val) ∨
    ∃ q ∈ Lib.MerkleTree.pairs merkleNode (sortHashes (contentHashes x.txs x.commits)),
      p = q.1.val ++ q.2.val}

/-- **`arrangement`** — the order of a body, without its contents: for each transaction and commitment
in turn, how many items of the body have a smaller id. -/
def arrangement (x : FullBlock) : List Nat :=
  let ids := contentHashes x.txs x.commits
  ids.map (Lib.Sequences.rank ids)

/-- The unsigned items of a body: transactions, then commitments. -/
def contentItems (x : FullBlock) : List Item :=
  x.txs.map (fun tx => tx.unsigned.item) ++ x.commits.map fun c => c.unsigned.item

theorem contentHashes_eq (x : FullBlock) :
    contentHashes x.txs x.commits = x.contentItems.map fun i => hash256 (encode i) := by
  rw [contentHashes, contentItems, List.map_append, List.map_map, List.map_map]
  rfl

theorem encode_mem_preimages {x : FullBlock} {i : Item} (h : i ∈ x.contentItems) :
    encode i ∈ x.preimages := by
  rcases List.mem_append.mp h with h | h
  · obtain ⟨tx, htx, rfl⟩ := List.mem_map.mp h
    exact .inr (.inl ⟨tx, htx, .inl rfl⟩)
  · obtain ⟨c, hc, rfl⟩ := List.mem_map.mp h
    exact .inr (.inr (.inl ⟨c, hc, .inl rfl⟩))

theorem pair_mem_preimages {x : FullBlock} {q : Bytes32 × Bytes32}
    (h : q ∈ Lib.MerkleTree.pairs merkleNode (sortHashes (contentHashes x.txs x.commits))) :
    q.1.val ++ q.2.val ∈ x.preimages :=
  .inr (.inr (.inr (.inr (.inr (.inr ⟨q, h, rfl⟩)))))

omit [Crypto] in
theorem length_contentItem {x : FullBlock} (hsize : x.raw.length ≤ maxBlockBytes) {i : Item}
    (h : i ∈ x.contentItems) : (encode i).length < 2 ^ 64 := by
  rcases List.mem_append.mp h with h | h
  · obtain ⟨tx, htx, rfl⟩ := List.mem_map.mp h
    exact length_tx_unsigned_raw hsize htx
  · obtain ⟨c, hc, rfl⟩ := List.mem_map.mp h
    exact length_commit_unsigned_raw hsize hc

omit [Crypto] in
/-- The content items split back into transactions and commitments. -/
theorem contentItems_filter (x : FullBlock) :
    x.contentItems.filter isTxItem = x.txs.map (fun tx => tx.unsigned.item) ∧
      x.contentItems.filter (fun i => !isTxItem i) = x.commits.map fun c => c.unsigned.item := by
  constructor <;>
    simp [contentItems, List.filter_append, List.filter_map, Function.comp_def, isTxItem,
      FullTx.item_unsigned, Commitment.item_unsigned]

/-! ## §4 — what one header fixes -/

/-- Equally many ids under one content root are the same ids, up to order. -/
theorem contentRoot_inj {l m : List Bytes32} (hcount : l.length = m.length)
    (hinj : Set.InjOn (Function.uncurry merkleNode)
      {p | p ∈ Lib.MerkleTree.pairs merkleNode (sortHashes l) ∨
        p ∈ Lib.MerkleTree.pairs merkleNode (sortHashes m)})
    (h : contentRoot l = contentRoot m) : l.Perm m := by
  have hperm : ∀ l : List Bytes32, (sortHashes l).Perm l := fun l => List.perm_insertionSort _ l
  have hlen : (sortHashes l).length = (sortHashes m).length := by
    rw [(hperm l).length_eq, (hperm m).length_eq, hcount]
  have hroot : Lib.MerkleTree.root merkleNode (sortHashes l) =
      Lib.MerkleTree.root merkleNode (sortHashes m) := by
    by_cases hl : sortHashes l = []
    · rw [hl] at hlen ⊢
      rw [List.length_eq_zero_iff.mp hlen.symm]
    · have hm : sortHashes m ≠ [] := fun hm => by
        rw [hm] at hlen
        exact hl (List.length_eq_zero_iff.mp hlen)
      obtain ⟨r, hr⟩ := Option.isSome_iff_exists.mp (Lib.MerkleTree.root_isSome merkleNode _ hl)
      obtain ⟨t, ht⟩ := Option.isSome_iff_exists.mp (Lib.MerkleTree.root_isSome merkleNode _ hm)
      rw [contentRoot, contentRoot, hr, ht] at h
      rw [hr, ht]
      exact congrArg some h
  have hsorted := Lib.MerkleTree.root_inj hlen hinj hroot
  exact (hperm l).symm.trans ((List.Perm.of_eq hsorted).trans (hperm m))

section Binding

variable {b d : FullBlock} {now now' : Nat} (hb : b.Checked now) (hd : d.Checked now')
  (hhash : b.getHash = d.getHash) (hfree : CollisionFree (b.preimages ∪ d.preimages))
include hb hd hhash hfree

omit hd in
theorem header_eq : b.header = d.header := by
  have hraw : b.header.raw = d.header.raw := hfree (.inl (.inl rfl)) (.inr (.inl rfl)) hhash
  have hlen := length_header_raw hb.size
  exact BlockHeader.ext_item
    (Lib.Rlp.encode_inj (lt_of_le_of_lt hlen (by decide)) hraw)

theorem witnessHashes_eq : witnessHashes b.txs b.commits = witnessHashes d.txs d.commits := by
  have hroot : calcWitnessRoot b.txs b.commits = calcWitnessRoot d.txs d.commits :=
    Subtype.ext (by rw [hb.witnessRoot, hd.witnessRoot, header_eq hb hhash hfree])
  have hbuf := hfree (.inl (.inr (.inr (.inr (.inr (.inl rfl))))))
    (.inr (.inr (.inr (.inr (.inr (.inl rfl)))))) hroot
  exact Lib.Sequences.flatMap_inj (by decide) (fun h : Bytes32 => h.property)
    Subtype.val_injective hbuf

/-- The content root fixes the ids up to order: the witness root has counted them. -/
theorem contentHashes_perm :
    (contentHashes b.txs b.commits).Perm (contentHashes d.txs d.commits) := by
  have hroot : calcContentRoot b.txs b.commits = calcContentRoot d.txs d.commits :=
    Subtype.ext (by rw [hb.contentRoot, hd.contentRoot, header_eq hb hhash hfree])
  have hcount : (contentHashes b.txs b.commits).length = (contentHashes d.txs d.commits).length := by
    have := congrArg List.length (witnessHashes_eq hb hd hhash hfree)
    simpa [witnessHashes, contentHashes] using this
  refine contentRoot_inj hcount ?_ hroot
  -- the combiner hashes the concatenation of two words of one size
  rintro ⟨p, q⟩ hp ⟨p', q'⟩ hp' heq
  obtain ⟨h1, h2⟩ := List.append_inj (hfree (hp.imp pair_mem_preimages pair_mem_preimages)
    (hp'.imp pair_mem_preimages pair_mem_preimages) heq) (by rw [p.property, p'.property])
  exact Prod.ext (Subtype.ext h1) (Subtype.ext h2)

theorem uncles_eq (hzero : ∀ p ∈ b.preimages ∪ d.preimages, hash256 p ≠ zero32) :
    b.uncles = d.uncles := by
  have hroot : calcUnclesHash b.uncles = calcUnclesHash d.uncles :=
    Subtype.ext (by rw [hb.unclesHash, hd.unclesHash, header_eq hb hhash hfree])
  have hbmem : b.uncles.flatMap (fun u => u.getHash.val) ∈ b.preimages ∪ d.preimages :=
    .inl (.inr (.inr (.inr (.inr (.inr (.inl rfl))))))
  have hdmem : d.uncles.flatMap (fun u => u.getHash.val) ∈ b.preimages ∪ d.preimages :=
    .inr (.inr (.inr (.inr (.inr (.inr (.inl rfl))))))
  rw [calcUnclesHash, calcUnclesHash] at hroot
  split at hroot <;> split at hroot
  · next h h' => rw [h, h']
  · exact absurd hroot.symm (hzero _ hdmem)
  · exact absurd hroot (hzero _ hbmem)
  · have hflat : (b.uncles.map BlockHeader.getHash).flatMap Subtype.val =
        (d.uncles.map BlockHeader.getHash).flatMap Subtype.val := by
      rw [List.flatMap_map, List.flatMap_map]
      exact hfree hbmem hdmem hroot
    have hmap := Lib.Sequences.flatMap_inj (by decide) (fun h : Bytes32 => h.property)
      Subtype.val_injective hflat
    refine Lib.Sequences.map_injOn (fun u hu v hv huv => ?_) hmap
    have hraw : u.raw = v.raw := hfree (.inl (.inr (.inr (.inr (.inl ⟨u, hu, rfl⟩)))))
      (.inr (.inr (.inr (.inr (.inl ⟨v, hv, rfl⟩))))) huv
    exact BlockHeader.ext_item (Lib.Rlp.encode_inj
      (lt_of_le_of_lt (length_uncle_raw hb.size hu) (by decide)) hraw)

/-- Arranged alike, the two bodies carry the same unsigned items. -/
theorem contentItems_eq (harr : b.arrangement = d.arrangement) : b.contentItems = d.contentItems := by
  have hids := Lib.Sequences.eq_of_perm_of_rank (contentHashes_perm hb hd hhash hfree) harr
  rw [contentHashes_eq, contentHashes_eq] at hids
  refine Lib.Sequences.map_injOn (fun i hi j hj hij => ?_) hids
  exact Lib.Rlp.encode_inj (length_contentItem hb.size hi)
    (hfree (.inl (encode_mem_preimages hi)) (.inr (encode_mem_preimages hj)) hij)

/-- **Arranged alike, with the same salts, and with signatures missing alike, the two bodies are the same.** -/
theorem body_eq (harr : b.arrangement = d.arrangement)
    (hsalt : b.txs.map FullTx.salt? = d.txs.map FullTx.salt?)
    (hmade : b.txs.map (·.sign?.isSome) = d.txs.map (·.sign?.isSome)) :
    b.txs = d.txs ∧ b.commits = d.commits := by
  have hitems := contentItems_eq hb hd hhash hfree harr
  have htxs : b.txs.map (fun tx => tx.unsigned.item) = d.txs.map fun tx => tx.unsigned.item := by
    rw [← b.contentItems_filter.1, ← d.contentItems_filter.1, hitems]
  have hcommits : b.commits.map (fun c => c.unsigned.item) = d.commits.map fun c => c.unsigned.item := by
    rw [← b.contentItems_filter.2, ← d.contentItems_filter.2, hitems]
  have hcount : b.txs.length = d.txs.length := by simpa using congrArg List.length htxs
  -- the witness root fixes the envelopes, position by position
  obtain ⟨hsign, hcsign⟩ :=
    List.append_inj (witnessHashes_eq hb hd hhash hfree) (by simpa using hcount)
  constructor
  · refine Lib.Sequences.map_injOn (fun x hx y hy hxy => ?_)
      (Lib.Sequences.map_pair htxs (Lib.Sequences.map_pair hsign (Lib.Sequences.map_pair hsalt hmade)))
    obtain ⟨hitem, hrest⟩ := Prod.mk.inj hxy
    obtain ⟨hdigest, hrest⟩ := Prod.mk.inj hrest
    obtain ⟨hsalt, hmade⟩ := Prod.mk.inj hrest
    exact FullTx.ext_item hitem (eq_of_getD (hfree (.inl (.inr (.inl ⟨x, hx, .inr rfl⟩)))
      (.inr (.inr (.inl ⟨y, hy, .inr rfl⟩))) hdigest) hmade) hsalt
  · refine Lib.Sequences.map_injOn (fun x hx y hy hxy => ?_) (Lib.Sequences.map_pair hcommits hcsign)
    obtain ⟨hitem, hdigest⟩ := Prod.mk.inj hxy
    -- a checked commitment is signed
    have hsigned : ∀ {c : Commitment} {height : Nat}, c.checkError height none = .ok () → c.sign?.isSome = true := by
      intro c height hc
      obtain ⟨_, _, hc⟩ := bind_eq_ok.mp hc
      obtain ⟨_, _, hc⟩ := bind_eq_ok.mp hc
      obtain ⟨_, hne, _⟩ := bind_eq_ok.mp hc
      cases hmade : c.sign? with
      | none => exact absurd (by rw [Commitment.sign, hmade]; rfl) (ensure_eq_ok.mp hne)
      | some _ => rfl
    exact Commitment.ext_item hitem (eq_of_getD (hfree (.inl (.inr (.inr (.inl ⟨x, hx, .inr rfl⟩))))
      (.inr (.inr (.inr (.inl ⟨y, hy, .inr rfl⟩)))) hdigest)
      ((hsigned (hb.commit x hx)).trans (hsigned (hd.commit y hy)).symm))

end Binding

/-! ## §5 — a body with a free salt -/

/-- A generate transaction with the given salt. -/
def saltedGenerate (salt : Option Bytes) : FullTx where
  network := ZERONET
  type := generateTx
  height := 1
  toAddr := zero32
  value := 0
  fee := 0
  extra := []
  sign? := none
  salt? := salt

/-- A block around `saltedGenerate salt` whose header is the one of the unsalted body. -/
def saltedBlock (salt : Option Bytes) : FullBlock where
  header := {
    network := ZERONET, height := 1, timestamp := 0
    prevBlockHash := zero32.val
    txTrieHash := (calcContentRoot [saltedGenerate none] []).val
    witnessRoot := (calcWitnessRoot [saltedGenerate none] []).val
    difficulty := [1], coinbase := zero32.val, unclesHash := zero32.val, stateRoot := zero32.val
    baseFee := [], nonce := List.replicate 8 0 }
  txs := [saltedGenerate salt]
  uncles := []
  commits? := none

theorem saltedBlock_size (salt : Option Bytes) (h : (salt.getD []).length ≤ 64) :
    (saltedBlock salt).raw.length ≤ maxBlockBytes := by
  have hzero : (Lib.Rlp.beBytes ZERONET.toNat).length = 0 := by decide
  have hone : (Lib.Rlp.beBytes 1).length = 1 := by decide
  have htype : (Lib.Rlp.beBytes generateTx.toNat).length = 1 := by decide
  have hbound : Lib.Rlp.bound (saltedBlock salt).item ≤ 1000 := by
    cases salt with
    | none =>
      simp [item, saltedBlock, saltedGenerate, BlockHeader.item, FullTx.item, Lib.Rlp.bound,
        Lib.Rlp.boundAll, Item.nat, hzero, hone, htype]
    | some salt =>
      simp [item, saltedBlock, saltedGenerate, BlockHeader.item, FullTx.item, FullTx.sign, FullTx.salt, Lib.Rlp.bound,
        Lib.Rlp.boundAll, Item.nat, hzero, hone, htype]
      rw [Option.getD_some] at h
      omega
  exact le_trans (Lib.Rlp.length_encode_le_bound _ (lt_of_le_of_lt hbound (by decide)))
    (le_trans hbound (by decide))

end

theorem saltedBlock_checkError (hash : Bytes → Bytes32) (salt : Option Bytes) (h : (salt.getD []).length ≤ 64) :
    letI := Crypto.ofHash hash
    (saltedBlock salt).checkError 0 = .ok () := by
  let _ := Crypto.ofHash hash
  refine checkError_eq_ok.mpr {
    txCount := Nat.le_of_ble_eq_true rfl
    commitCount := Nat.zero_le _
    size := saltedBlock_size salt h
    prevBlockHash := rfl
    txTrieHash := length_val _
    nonce := rfl
    timestamp := Nat.zero_le _
    commit := by simp [saltedBlock, FullBlock.commits]
    txNodup := by simp [saltedBlock, saltedGenerate]
    commitNodup := by simp [saltedBlock, FullBlock.commits]
    contentRoot := rfl
    witnessRoot := rfl
    coinbase := rfl
    unclesHashSize := rfl
    stateRoot := rfl
    baseFee := Nat.zero_le _
    uncleCount := Nat.zero_le _
    unclesHash := rfl
    uncles := rfl
    pow := ?_ }
  exact verifyNonce_ofHash hash _ (Nat.lt_of_sub_eq_succ rfl) (Nat.le_of_ble_eq_true rfl)

/-- A hash that tells strings apart by their length only. -/
def lengthHash (p : Bytes) : Bytes32 := ⟨UInt8.ofNat (p.length + 1) :: List.replicate 31 0, by simp⟩

/-- The strings hashed for a salted block: the salt is in none of them. -/
def saltedPreimages : List Bytes :=
  letI := Crypto.ofHash lengthHash
  let id := lengthHash (saltedGenerate none).raw
  [(saltedBlock none).header.raw, (saltedGenerate none).raw, [], (lengthHash []).val, id.val ++ id.val]

theorem preimages_saltedBlock (salt : Option Bytes) :
    letI := Crypto.ofHash lengthHash
    ∀ p ∈ (saltedBlock salt).preimages, p ∈ saltedPreimages := by
  let _ := Crypto.ofHash lengthHash
  rintro p (rfl | ⟨tx, htx, rfl | rfl⟩ | ⟨c, hc, -⟩ | ⟨u, hu, -⟩ | rfl | rfl | ⟨q, hq, rfl⟩)
  · exact .head _
  · rw [List.mem_singleton.mp htx]
    exact .tail _ (.head _)
  · rw [List.mem_singleton.mp htx]
    exact .tail _ (.tail _ (.head _))
  · exact absurd hc List.not_mem_nil
  · exact absurd hu List.not_mem_nil
  · exact .tail _ (.tail _ (.tail _ (.head _)))
  · exact .tail _ (.tail _ (.head _))
  · rw [List.mem_singleton.mp hq]
    exact .tail _ (.tail _ (.tail _ (.tail _ (.head _))))

theorem saltedPreimages_free : ∀ p ∈ saltedPreimages, lengthHash p ≠ zero32 ∧
    ∀ q ∈ saltedPreimages, lengthHash p = lengthHash q → p = q := by
  decide +kernel

/-! ## §6 — one header, two bodies -/

/-- **`body_eq_iff`** — one header hash, two accepted bodies: the uncles always agree, and the bodies are equal, nil
fields told from empty ones, exactly when they are arranged alike, carry the same salts, and miss signatures alike. -/
theorem body_eq_iff [Crypto] {b d : FullBlock} {now now' : Nat} (hb : b.checkError now = .ok ())
    (hd : d.checkError now' = .ok ()) (hhash : b.getHash = d.getHash)
    (hfree : CollisionFree (b.preimages ∪ d.preimages))
    (hzero : ∀ p ∈ b.preimages ∪ d.preimages, hash256 p ≠ zero32) :
    (b.txs = d.txs ∧ b.commits = d.commits ∧ b.uncles = d.uncles) ↔
      b.arrangement = d.arrangement ∧ b.txs.map FullTx.salt? = d.txs.map FullTx.salt? ∧
        b.txs.map (·.sign?.isSome) = d.txs.map (·.sign?.isSome) := by
  rw [checkError_eq_ok] at hb hd
  constructor
  · rintro ⟨htxs, hcommits, -⟩
    rw [arrangement, arrangement, htxs, hcommits]
    exact ⟨rfl, rfl, rfl⟩
  · rintro ⟨harr, hsalt, hmade⟩
    obtain ⟨htxs, hcommits⟩ := body_eq hb hd hhash hfree harr hsalt hmade
    exact ⟨htxs, hcommits, uncles_eq hb hd hhash hfree hzero⟩

/-- Nothing that is hashed for the two salted blocks collides. -/
theorem salted_collisionFree :
    letI := Crypto.ofHash lengthHash
    CollisionFree ((saltedBlock none).preimages ∪ (saltedBlock (some [1])).preimages) ∧
      ∀ p ∈ (saltedBlock none).preimages ∪ (saltedBlock (some [1])).preimages, lengthHash p ≠ zero32 := by
  let _ := Crypto.ofHash lengthHash
  have hmem : ∀ p ∈ (saltedBlock none).preimages ∪ (saltedBlock (some [1])).preimages,
      p ∈ saltedPreimages := by
    rintro p (hp | hp)
    · exact preimages_saltedBlock none p hp
    · exact preimages_saltedBlock (some [1]) p hp
  exact ⟨fun p hp q hq => (saltedPreimages_free p (hmem p hp)).2 q (hmem q hq),
    fun p hp => (saltedPreimages_free p (hmem p hp)).1⟩

/-- The equivalence at two salts, under a hash with no collision among the hashed strings. -/
theorem body_eq_iff_salted :
    letI := Crypto.ofHash lengthHash
    let b := saltedBlock none
    let d := saltedBlock (some [1])
    (b.txs = d.txs ∧ b.commits = d.commits ∧ b.uncles = d.uncles) ↔
      b.arrangement = d.arrangement ∧ b.txs.map FullTx.salt? = d.txs.map FullTx.salt? ∧
        b.txs.map (·.sign?.isSome) = d.txs.map (·.sign?.isSome) := by
  let _ := Crypto.ofHash lengthHash
  exact body_eq_iff (saltedBlock_checkError _ none (by decide))
    (saltedBlock_checkError _ (some [1]) (by decide)) rfl salted_collisionFree.1 salted_collisionFree.2

/-- **`bodies_differ`** — one header, two accepted bodies: they differ in the salt of a transaction. -/
theorem bodies_differ :
    letI := Crypto.ofHash lengthHash
    let b := saltedBlock none
    let d := saltedBlock (some [1])
    b.checkError 0 = .ok () ∧ d.checkError 0 = .ok () ∧ b.getHash = d.getHash ∧
      CollisionFree (b.preimages ∪ d.preimages) ∧ b.txs ≠ d.txs := by
  let _ := Crypto.ofHash lengthHash
  refine ⟨saltedBlock_checkError _ none (by decide), saltedBlock_checkError _ (some [1]) (by decide), rfl,
    salted_collisionFree.1, ?_⟩
  simp [saltedBlock, saltedGenerate]

end FullBlock
end NgCore
