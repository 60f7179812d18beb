/-
# NgCore.Types.Json — blocks and transactions as JSON

`ngtypes/tx_json.go` and `ngtypes/block_json.go`: what `MarshalJSON` writes and `UnmarshalJSON` makes of it. Byte
strings travel as hex, difficulty and base fee as decimals, and a block is rebuilt by `NewBlock`, which fills in what
the text does not carry. The text carries no salt, no commitments, no COINBASE; the uncles are a view that is written
and never read. A nil signature comes back EMPTY, which the wire encoding writes: a full block can grow.

The records here are the Go structs that stand between; their rendering as JSON text (numbers, base58 addresses) is
third-party and left out. `none` is a panic or an error.

DELIVERABLE: `json_roundTrip_iff` — which blocks and transactions survive; `json_drops_coinbase`, a block that does
not.
-/
import NgCore.Types.BlockBinding
import NgCore.Lib.Text

namespace NgCore

open Lib.Rlp (beBytes beVal)
open Lib.Text (hexEncode hexDecode decEncode decDecode)

/-! ## §1 — networks by name -/

/-- **`Network.string`** — an unknown network panics. -/
def Network.string (net : Network) : Option String :=
  if net = ZERONET then some "ZERONET"
  else if net = TESTNET then some "TESTNET"
  else if net = MAINNET then some "MAINNET"
  else none

def parseNetwork (netName : String) : Option Network :=
  if netName = "ZERONET" then some ZERONET
  else if netName = "TESTNET" then some TESTNET
  else if netName = "MAINNET" then some MAINNET
  else none

/-- A network with a name. -/
def Network.Known (net : Network) : Prop := net = ZERONET ∨ net = TESTNET ∨ net = MAINNET

instance (net : Network) : Decidable net.Known := inferInstanceAs (Decidable (_ ∨ _))

theorem Network.string_isSome {net : Network} : net.string.isSome = true ↔ net.Known := by
  unfold string Known
  split_ifs <;> simp_all

theorem parseNetwork_string {net : Network} {name : String} (h : net.string = some name) :
    parseNetwork name = some net := by
  unfold Network.string at h
  split_ifs at h with h₀ h₁ h₂
  · cases h; rw [h₀]; rfl
  · cases h; rw [h₁]; rfl
  · cases h; rw [h₂]; rfl

/-! ## §2 — transactions -/

structure JsonTx where
  network : String
  type : TxType
  height : Nat
  toAddr : Address
  value : Option Int
  fee : Option Int
  extra : List Char
  sign : List Char
  hash : List Char

/-- **`newTx`** — absent amounts are zero, a nil signature becomes an empty one; there is no salt. -/
def newTx (network : Network) (type : TxType) (height : Nat) (toAddr : Address) (value fee : Option Int)
    (extra sign : Bytes) : FullTx :=
  ⟨network, type, height, toAddr, (value.getD 0).toNat, (fee.getD 0).toNat, extra, some sign, none⟩

namespace FullTx

def marshalJSON [Crypto] (x : FullTx) : Option JsonTx := do
  let network ← x.network.string
  return { network, type := x.type, height := x.height, toAddr := x.toAddr, value := some x.value, fee := some x.fee,
           extra := hexEncode x.extra, sign := hexEncode x.sign, hash := hexEncode x.getHash.val }

/-- **`unmarshalJSON`** — negative amounts are refused. -/
def unmarshalJSON (tx : JsonTx) : Option FullTx := do
  let extra ← hexDecode tx.extra
  let sign ← hexDecode tx.sign
  let network ← parseNetwork tx.network
  if tx.value.getD 0 < 0 ∨ tx.fee.getD 0 < 0 then none
  else return newTx network tx.type tx.height tx.toAddr tx.value tx.fee extra sign

/-- **`viaJSON`** — what is left of a transaction on the other side. -/
def viaJSON (x : FullTx) : FullTx := { x with sign? := some x.sign, salt? := none }

/-- The fields of a transaction, nil read as empty. -/
def fields (x : FullTx) : FullTx × Bytes × Bytes := (x.unsigned, x.sign, x.salt)

theorem fields_viaJSON {x : FullTx} : x.viaJSON.fields = x.fields ↔ x.salt = [] := by
  constructor
  · intro h
    exact (congrArg (fun f => f.2.2) h).symm
  · intro h
    show ((_, _, []) : FullTx × Bytes × Bytes) = _
    rw [fields, h]
    rfl

theorem map_fields_viaJSON {l : List FullTx} :
    (l.map viaJSON).map fields = l.map fields ↔ ∀ tx ∈ l, tx.salt = [] := by
  rw [List.map_map, List.map_inj_left]
  simp [fields_viaJSON]

variable [Crypto]

theorem unmarshal_marshal {x : FullTx} {j : JsonTx} (h : x.marshalJSON = some j) :
    unmarshalJSON j = some x.viaJSON := by
  obtain ⟨name, hname, h⟩ := Option.bind_eq_some_iff.mp h
  obtain rfl := Option.some.inj h
  have hnetwork := parseNetwork_string hname
  simp [unmarshalJSON, hnetwork, newTx, viaJSON]

theorem marshal_isSome {x : FullTx} : x.marshalJSON.isSome = true ↔ x.network.Known := by
  rw [← Network.string_isSome]
  unfold marshalJSON
  cases x.network.string <;> simp

theorem mapM_unmarshal_marshal {l : List FullTx} {js : List JsonTx} (h : l.mapM marshalJSON = some js) :
    js.mapM unmarshalJSON = some (l.map viaJSON) := by
  induction l generalizing js with
  | nil =>
    obtain rfl := Option.some.inj h
    rfl
  | cons x l ih =>
    rw [List.mapM_cons] at h
    obtain ⟨j, hj, h⟩ := Option.bind_eq_some_iff.mp h
    obtain ⟨js, hjs, h⟩ := Option.bind_eq_some_iff.mp h
    obtain rfl := Option.some.inj h
    rw [List.mapM_cons, unmarshal_marshal hj, ih hjs]
    rfl

theorem mapM_marshal_isSome {l : List FullTx} :
    (l.mapM marshalJSON).isSome = true ↔ ∀ x ∈ l, x.network.Known := by
  induction l with
  | nil => simp
  | cons x l ih =>
    rw [List.forall_mem_cons, ← ih, ← marshal_isSome, List.mapM_cons]
    cases x.marshalJSON <;> cases l.mapM marshalJSON <;> simp

end FullTx

/-! ## §3 — blocks -/

/-- **`JsonUncle`** — the read-only view of an uncle. -/
structure JsonUncle where
  hash : List Char
  height : Nat
  difficulty : List Char

structure JsonBlock where
  network : String
  height : Nat
  timestamp : Nat
  prevBlockHash : List Char
  txTrieHash : List Char
  witnessRoot : List Char
  stateRoot : List Char
  difficulty : List Char
  baseFee : List Char
  nonce : List Char
  txs : List JsonTx
  unclesHash : List Char
  uncles : List JsonUncle
  hash : List Char
  powHash : List Char
  txn : Nat

/-- **`newBlock`** — coinbase, uncles and state root are left zero, the base fee at its floor. -/
def newBlock (network : Network) (height timestamp : Nat)
    (prevBlockHash txTrieHash witnessRoot difficulty nonce : Bytes) (txs : List FullTx) : FullBlock where
  header := { network, height, timestamp, prevBlockHash, txTrieHash, witnessRoot, difficulty, nonce
              coinbase := List.replicate addressSize 0
              unclesHash := zero32.val
              stateRoot := zero32.val
              baseFee := beBytes minBaseFee }
  txs := txs
  uncles := []
  commits? := none

namespace FullBlock

section Codec

variable [Crypto]

def marshalJSON (x : FullBlock) : Option JsonBlock := do
  let network ← x.header.network.string
  let txs ← x.txs.mapM FullTx.marshalJSON
  return {
    network, txs
    height := x.header.height
    timestamp := x.header.timestamp
    prevBlockHash := hexEncode x.header.prevBlockHash
    txTrieHash := hexEncode x.header.txTrieHash
    witnessRoot := hexEncode x.header.witnessRoot
    stateRoot := hexEncode x.header.stateRoot
    difficulty := decEncode (beVal x.header.difficulty)
    baseFee := decEncode (beVal x.header.baseFee)
    nonce := hexEncode x.header.nonce
    unclesHash := hexEncode x.header.unclesHash
    uncles := x.uncles.map fun u => ⟨hexEncode u.getHash.val, u.height, decEncode (beVal u.difficulty)⟩
    hash := hexEncode x.getHash.val
    powHash := hexEncode (powHash x.header.getPoWRawHeader).val
    txn := x.txs.length }

omit [Crypto] in
/-- **`unmarshalJSON`** — `NewBlock`, then the state root and the base fee the text carries. -/
def unmarshalJSON (b : JsonBlock) : Option FullBlock := do
  let txs ← b.txs.mapM FullTx.unmarshalJSON
  let prevBlockHash ← hexDecode b.prevBlockHash
  let txTrieHash ← hexDecode b.txTrieHash
  let subTrieHash ← hexDecode b.witnessRoot
  let stateRoot ← hexDecode b.stateRoot
  let bigDifficulty ← decDecode b.difficulty
  let nonce ← hexDecode b.nonce
  let network ← parseNetwork b.network
  let x := newBlock network b.height b.timestamp prevBlockHash txTrieHash subTrieHash
    (beBytes bigDifficulty.natAbs) nonce txs
  let x := if stateRoot ≠ [] then { x with header := { x.header with stateRoot := stateRoot } } else x
  return match decDecode b.baseFee with
    | some bigBaseFee => { x with header := { x.header with baseFee := beBytes bigBaseFee.natAbs } }
    | none => x

omit [Crypto] in
/-- **`viaJSON`** — what is left of a block on the other side. -/
def viaJSON (x : FullBlock) : FullBlock where
  header := { x.header with
    difficulty := beBytes (beVal x.header.difficulty)
    coinbase := List.replicate addressSize 0
    unclesHash := zero32.val
    stateRoot := if x.header.stateRoot ≠ [] then x.header.stateRoot else zero32.val
    baseFee := beBytes (beVal x.header.baseFee) }
  txs := x.txs.map FullTx.viaJSON
  uncles := []
  commits? := none

theorem unmarshal_marshal {x : FullBlock} {j : JsonBlock} (h : x.marshalJSON = some j) :
    unmarshalJSON j = some x.viaJSON := by
  obtain ⟨name, hname, h⟩ := Option.bind_eq_some_iff.mp h
  obtain ⟨txs, htxs, h⟩ := Option.bind_eq_some_iff.mp h
  obtain rfl := Option.some.inj h
  have hnetwork := parseNetwork_string hname
  have hback := FullTx.mapM_unmarshal_marshal htxs
  simp only [unmarshalJSON, hnetwork, hback, Lib.Text.hexDecode_hexEncode, Lib.Text.decDecode_decEncode,
    Option.bind_eq_bind, Option.bind_some, Int.natAbs_natCast]
  by_cases hroot : x.header.stateRoot = [] <;> simp [hroot, viaJSON, newBlock]

theorem marshal_isSome {x : FullBlock} :
    x.marshalJSON.isSome = true ↔ x.header.network.Known ∧ ∀ tx ∈ x.txs, tx.network.Known := by
  rw [← Network.string_isSome, ← FullTx.mapM_marshal_isSome]
  unfold marshalJSON
  cases x.header.network.string <;> cases x.txs.mapM FullTx.marshalJSON <;> simp

end Codec

/-! ## §4 — what survives -/

section Survives

variable [Crypto]

/-- **`RoundTrips now x`** — the block comes back under its hash, passes the checks again, and has its body: the same
fields, whether nil or empty. -/
def RoundTrips (now : Nat) (x : FullBlock) : Prop :=
  ∃ j y, x.marshalJSON = some j ∧ unmarshalJSON j = some y ∧ y.getHash = x.getHash ∧
    y.checkError now = .ok () ∧ y.txs.map FullTx.fields = x.txs.map FullTx.fields ∧ y.commits = x.commits ∧
    y.uncles = x.uncles

omit [Crypto] in
/-- **`Representable x`** — the text has room for all of the block: no uncles, no commitments, no salts, the zero
coinbase, numbers without leading zero bytes, and networks with a name; and with every missing signature written out as
an empty one it is not over the size of a block. -/
structure Representable (x : FullBlock) : Prop where
  network : x.header.network.Known
  txNetworks : ∀ tx ∈ x.txs, tx.network.Known
  salts : ∀ tx ∈ x.txs, tx.salt = []
  coinbase : x.header.coinbase = List.replicate addressSize 0
  difficulty : beBytes (beVal x.header.difficulty) = x.header.difficulty
  baseFee : beBytes (beVal x.header.baseFee) = x.header.baseFee
  uncles : x.uncles = []
  commits : x.commits = []
  size : ({ x with txs := x.txs.map FullTx.viaJSON, commits? := none } : FullBlock).raw.length ≤ maxBlockBytes

theorem Representable.header_viaJSON {now : Nat} {x : FullBlock} (h : x.Representable) (hx : x.Checked now) :
    x.viaJSON.header = x.header := by
  have hroot : x.header.stateRoot ≠ [] := by
    intro hnil
    have := hx.stateRoot
    rw [hnil] at this
    exact absurd this (by decide)
  have huncles : zero32.val = x.header.unclesHash := by
    rw [← hx.unclesHash, h.uncles]
    rfl
  simp only [viaJSON, h.difficulty, h.baseFee, if_pos hroot, ← h.coinbase, huncles]

omit [Crypto] in
theorem viaJSON_eq {x : FullBlock} (hheader : x.viaJSON.header = x.header) (huncles : x.uncles = []) :
    x.viaJSON = { x with txs := x.txs.map FullTx.viaJSON, commits? := none } := by
  show FullBlock.mk x.viaJSON.header _ _ _ = _
  rw [hheader, huncles]

/-- **The digests of the header cover nothing that was spelled anew**: what comes back passes the checks again. -/
theorem Representable.checked {now : Nat} {x : FullBlock} (h : x.Representable) (hx : x.Checked now) :
    x.viaJSON.Checked now := by
  rw [viaJSON_eq (h.header_viaJSON hx) h.uncles]
  have hcommits : ({ x with txs := x.txs.map FullTx.viaJSON, commits? := none } : FullBlock).commits = x.commits :=
    h.commits.symm
  have hids : (x.txs.map FullTx.viaJSON).map FullTx.getHash = x.txs.map FullTx.getHash := by
    rw [List.map_map]
    rfl
  have hsigns : ((x.txs.map FullTx.viaJSON).map fun tx => hash256 tx.sign) = x.txs.map fun tx => hash256 tx.sign := by
    rw [List.map_map]
    rfl
  exact { hx with
    txCount := by rw [List.length_map]; exact hx.txCount
    commitCount := by rw [hcommits]; exact hx.commitCount
    size := h.size
    commit := by rw [hcommits]; exact hx.commit
    txNodup := by
      rw [List.filter_map, List.map_map]
      exact hx.txNodup
    commitNodup := by rw [hcommits]; exact hx.commitNodup
    contentRoot := by
      rw [← hx.contentRoot, hcommits, calcContentRoot, contentHashes, hids]
      rfl
    witnessRoot := by
      rw [← hx.witnessRoot, hcommits, calcWitnessRoot, witnessHashes, hsigns]
      rfl }

/-- **What survives a round trip through JSON.** A checked block does exactly when it is representable, as long as
its header and the header that comes back do not collide; a transaction does exactly when it has no salt. -/
theorem json_roundTrip_iff :
    (∀ (now : Nat) (x : FullBlock), x.checkError now = .ok () →
      CollisionFree {x.header.raw, x.viaJSON.header.raw} → (x.RoundTrips now ↔ x.Representable)) ∧
    ∀ tx : FullTx, tx.network.Known →
      ((∃ j y, tx.marshalJSON = some j ∧ FullTx.unmarshalJSON j = some y ∧ y.getHash = tx.getHash ∧
        y.sign = tx.sign ∧ y.salt = tx.salt) ↔ tx.salt = []) := by
  refine ⟨fun now x hcheck hfree => ⟨?_, fun h => ?_⟩, fun tx hnet => ⟨?_, fun hsalt => ?_⟩⟩
  · rintro ⟨j, y, hj, hy, hhash, hback, htxs, hcommits, huncles⟩
    obtain rfl := Option.some.inj ((unmarshal_marshal hj).symm.trans hy)
    have hx := checkError_eq_ok.mp hcheck
    obtain ⟨hnetwork, hnetworks⟩ := marshal_isSome.mp (Option.isSome_iff_exists.mpr ⟨j, hj⟩)
    -- the hash is over the encoded header, so every field that was filled in is the one that was there
    have hraw : x.header.raw = x.viaJSON.header.raw := hfree (.inl rfl) (.inr rfl) hhash.symm
    have hlen : x.header.raw.length < 2 ^ 64 := lt_of_le_of_lt (length_header_raw hx.size) (by decide)
    have hheader := BlockHeader.ext_item (Lib.Rlp.encode_inj hlen hraw)
    have hsize := (checkError_eq_ok.mp hback).size
    rw [viaJSON_eq hheader.symm huncles.symm] at hsize
    exact ⟨hnetwork, hnetworks, FullTx.map_fields_viaJSON.mp htxs, congrArg BlockHeader.coinbase hheader,
      (congrArg BlockHeader.difficulty hheader).symm, (congrArg BlockHeader.baseFee hheader).symm,
      huncles.symm, hcommits.symm, hsize⟩
  · have hx := checkError_eq_ok.mp hcheck
    obtain ⟨j, hj⟩ := Option.isSome_iff_exists.mp (marshal_isSome.mpr ⟨h.network, h.txNetworks⟩)
    exact ⟨j, x.viaJSON, hj, unmarshal_marshal hj, congrArg BlockHeader.getHash (h.header_viaJSON hx),
      checkError_eq_ok.mpr (h.checked hx), FullTx.map_fields_viaJSON.mpr h.salts, h.commits.symm, h.uncles.symm⟩
  · rintro ⟨j, y, hj, hy, _, _, hsalt⟩
    obtain rfl := Option.some.inj ((FullTx.unmarshal_marshal hj).symm.trans hy)
    exact hsalt.symm
  · obtain ⟨j, hj⟩ := Option.isSome_iff_exists.mp (FullTx.marshal_isSome.mpr hnet)
    exact ⟨j, tx.viaJSON, hj, FullTx.unmarshal_marshal hj, rfl, rfl, hsalt.symm⟩

end Survives

/-- A digest that adds the bytes up. -/
def sumHash (b : Bytes) : Bytes32 := copy32 [b.sum]

/-- A mint of height one. -/
def plainMint (sign? salt? : Option Bytes) : FullTx := ⟨ZERONET, generateTx, 1, zero32, 5, 0, [], sign?, salt?⟩

/-- A block above genesis, by the given miner, with a signed mint and one that has no signature at all. -/
def plainBlock [Crypto] (coinbase : Bytes) : FullBlock :=
  let txs := [plainMint (some [7]) none, plainMint none none]
  { header := ⟨ZERONET, 1, 0, zero32.val, (calcContentRoot txs []).val, (calcWitnessRoot txs []).val, [1], coinbase,
      zero32.val, zero32.val, [], List.replicate 8 0⟩
    txs, uncles := [], commits? := none }

/-- A block without a miner survives, and so does a mint with an empty salt. -/
theorem json_roundTrip_noMiner :
    letI := Crypto.ofHash sumHash
    (plainBlock (List.replicate addressSize 0)).RoundTrips 0 ∧
      ∃ j y, (plainMint (some [7]) (some [])).marshalJSON = some j ∧ FullTx.unmarshalJSON j = some y ∧
        y.sign = [7] := by
  let _ := Crypto.ofHash sumHash
  have hcheck : (plainBlock (List.replicate addressSize 0)).checkError 0 = .ok () := by decide +kernel
  have hrep : (plainBlock (List.replicate addressSize 0)).Representable :=
    ⟨.inl rfl, by decide +kernel, by decide +kernel, rfl, rfl, rfl, rfl, rfl, by decide +kernel⟩
  refine ⟨(json_roundTrip_iff.1 0 _ hcheck ?_).mpr hrep, ?_⟩
  · rw [hrep.header_viaJSON (checkError_eq_ok.mp hcheck), Set.pair_eq_singleton]
    exact Set.injOn_singleton _ _
  · obtain ⟨j, y, hj, hy, _, hsign, _⟩ := (json_roundTrip_iff.2 (plainMint (some [7]) (some [])) (.inl rfl)).mpr rfl
    exact ⟨j, y, hj, hy, hsign⟩

/-- A mined block comes back under another hash: the text does not carry the coinbase. -/
theorem json_drops_coinbase :
    letI := Crypto.ofHash sumHash
    let x := plainBlock (1 :: List.replicate (addressSize - 1) 0)
    x.checkError 0 = .ok () ∧ (∃ j, x.marshalJSON = some j ∧ unmarshalJSON j = some x.viaJSON) ∧
      x.viaJSON.getHash ≠ x.getHash ∧ ¬ x.RoundTrips 0 := by
  let _ := Crypto.ofHash sumHash
  have hhash : (plainBlock (1 :: List.replicate (addressSize - 1) 0)).viaJSON.getHash ≠
      (plainBlock (1 :: List.replicate (addressSize - 1) 0)).getHash := by decide +kernel
  obtain ⟨j, hj⟩ := Option.isSome_iff_exists.mp
    ((marshal_isSome (x := plainBlock (1 :: List.replicate (addressSize - 1) 0))).mpr ⟨.inl rfl, by decide +kernel⟩)
  refine ⟨by decide +kernel, ⟨j, hj, unmarshal_marshal hj⟩, hhash, ?_⟩
  rintro ⟨j', y, hj', hy, hsame, _⟩
  obtain rfl := Option.some.inj ((unmarshal_marshal hj').symm.trans hy)
  exact hhash hsame

end FullBlock
end NgCore
