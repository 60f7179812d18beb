/-
# NgCore.Types.Tx — transactions and commitments

`ngtypes/tx.go`, `ngtypes/commitment.go`, `ngtypes/tx_extra.go`: the two signed objects of the chain,
their wire encodings, the digests cut from them, and their context-free checks.

THREE digests of one transaction matter and differ only in what they leave out:
`getHash` (the id: without `sign` and `salt`), `unheightedHash` (also without the height) and
`signingHash` (the unheighted hash for effect transactions, the id otherwise). A commitment signs its
own unheighted digest. Amounts are naturals: a negative `big.Int` has no RLP encoding, so none can
stand in a block.

Optional fields of the wire format are Go slices, and the encoder drops a NIL one from the end but writes an EMPTY one:
`sign?`, `salt?` and (of a block) `commits?` tell the two apart, `sign`, `salt` and `commits` are what the rest of the
code reads.
-/
import NgCore.Types.Keys
import NgCore.Types.Consensus

namespace NgCore

open Lib.Rlp (Item encode)

/-! ## §1 — transactions -/

/-- **`TxType`** — the type byte. -/
abbrev TxType := UInt8

def generateTx : TxType := 1
def transactTx : TxType := 2
def deployTx : TxType := 3

/-- **`FullTx`** — a transaction. `salt` is the reveal nonce of a commit-reveal transaction. -/
structure FullTx where
  network : Network
  type : TxType
  height : Nat
  toAddr : Address
  value : Nat
  fee : Nat
  extra : Bytes
  sign? : Option Bytes
  salt? : Option Bytes
  deriving DecidableEq

/-- An effect transaction: transact or deploy. -/
def FullTx.isEffect (x : FullTx) : Prop := x.type = transactTx ∨ x.type = deployTx

instance (x : FullTx) : Decidable x.isEffect := inferInstanceAs (Decidable (_ ∨ _))

namespace FullTx

def sign (x : FullTx) : Bytes := x.sign?.getD []

def salt (x : FullTx) : Bytes := x.salt?.getD []

/-- The wire item: `sign` and `salt` are trailing optionals, dropped while nil from the end. -/
def item (x : FullTx) : Item :=
  .list ([.nat x.network.toNat, .nat x.type.toNat, .nat x.height, .str x.toAddr.val, .nat x.value,
      .nat x.fee, .str x.extra] ++
    if x.salt? ≠ none then [.str x.sign, .str x.salt]
    else if x.sign? ≠ none then [.str x.sign] else [])

/-- The transaction without its witness data. -/
def unsigned (x : FullTx) : FullTx := { x with sign? := none, salt? := none }

/-- The transaction without witness data and height. -/
def unheighted (x : FullTx) : FullTx := { x with sign? := none, salt? := none, height := 0 }

/-- `rlp.EncodeToBytes(tx)`. -/
def raw (x : FullTx) : Bytes := encode x.item

def isSigned (x : FullTx) : Bool := x.sign ≠ []

def isCompactEnvelope (x : FullTx) : Bool := x.sign.head? = some envelopeCompact

/-- The scheme the envelope declares; zero without one. -/
def envelopeScheme (x : FullTx) : SigScheme :=
  match x.sign with
  | _ :: scheme :: _ => scheme
  | _ => 0

def totalExpenditure (x : FullTx) : Nat := x.fee + x.value

section Digests

variable [Crypto]

/-- **`getHash`** — the txid: neither `sign` nor `salt` is covered. -/
def getHash (x : FullTx) : Bytes32 := hash256 x.unsigned.raw

/-- **`unheightedHash`** — the content hash without the height: what a commitment binds. -/
def unheightedHash (x : FullTx) : Bytes32 := hash256 x.unheighted.raw

/-- **`signingHash`** — the digest the signature covers. -/
def signingHash (x : FullTx) : Bytes32 :=
  if x.type = transactTx ∨ x.type = deployTx then x.unheightedHash else x.getHash

/-- **`fromAddr`** — `FullTx.From`: the address the envelope speaks for. -/
def fromAddr (x : FullTx) : Except Err Address := fromOf .txUnsigned x.signingHash.val x.sign

/-- **`verify`** — the signature check. A height of ZERO skips it: the genesis exemption reads the
transaction's own height field. -/
def verify (lookup : Option PubKeyResolver) (x : FullTx) : Except Err Unit :=
  if x.height = 0 then .ok ()
  else do
    ensure (x.sign ≠ []) .txUnsigned
    ensure (x.extra.length ≤ txMaxExtraSize) .txExtraExcess
    let e ← splitEnvelope .txUnsigned .txSignInvalid x.signingHash.val lookup x.sign
    ensure (verifyHashSig e.scheme e.pubKey x.signingHash.val e.sig) .txSignInvalid

/-- **`checkGenerate`** — the miner's mint: exactly the block reward, no fee, paid to its signer. -/
def checkGenerate (blockHeight : Nat) (lookup : Option PubKeyResolver) (x : FullTx) :
    Except Err Unit := do
  ensure (x.totalExpenditure = getBlockReward blockHeight) .rewardInvalid
  ensure (x.fee = 0) .txFeeInvalid
  x.verify lookup
  if x.height ≠ 0 then
    let sender ← x.fromAddr
    ensure (sender = x.toAddr) .txToInvalid

/-- **`checkTransaction`** — the self check of a transact tx (a negative value is unrepresentable). -/
def checkTransaction (lookup : Option PubKeyResolver) (x : FullTx) : Except Err Unit :=
  x.verify lookup

/-- **`checkDeploy`** — a deploy carries no recipient and no value. -/
def checkDeploy (lookup : Option PubKeyResolver) (x : FullTx) : Except Err Unit := do
  ensure (x.toAddr = zero32) .txToInvalid
  ensure (x.value = 0) .txValueInvalid
  x.verify lookup

/-- **What `verify` verified**: past height zero, the envelope splits, the signature holds under the key it splits to,
and the sender is the address of that key. -/
theorem envelope_of_verify {lookup : Option PubKeyResolver} {x : FullTx} {u : Unit} (h : x.verify lookup = .ok u)
    (hheight : x.height ≠ 0) :
    ∃ e, splitEnvelope .txUnsigned .txSignInvalid x.signingHash.val lookup x.sign = .ok e ∧
      verifyHashSig e.scheme e.pubKey x.signingHash.val e.sig = true ∧
      x.fromAddr = .ok (addressOfPubKey e.scheme e.pubKey) := by
  rw [verify, if_neg hheight] at h
  rcases bind_eq_ok.mp h with ⟨_, _, h⟩
  rcases bind_eq_ok.mp h with ⟨_, _, h⟩
  rcases bind_eq_ok.mp h with ⟨e, he, h⟩
  exact ⟨e, he, ensure_eq_ok.mp h, (splitEnvelope_address .txUnsigned he).1⟩

/-- **A verified signature is an authorization**: past height zero, `verify` succeeding means the
envelope carries a signature over the signing hash under a key of the sender's address. -/
theorem signs_of_verify {lookup : Option PubKeyResolver} {x : FullTx} {u : Unit}
    (h : x.verify lookup = .ok u) (hheight : x.height ≠ 0) :
    ∃ addr, x.fromAddr = .ok addr ∧ Signs x.sign x.signingHash.val addr := by
  rcases envelope_of_verify h hheight with ⟨e, he, hsig, hfrom⟩
  exact ⟨_, hfrom, e, (splitEnvelope_address .txUnsigned he).2, rfl, hsig⟩

end Digests
end FullTx

/-! ## §2 — deploy payloads and call data -/

def entryOnTx : String := "ng:main"
def entryOnActivate : String := "ng:init"
def entryOnUpgrade : String := "ng:upgrade"
def entryOnValidate : String := "ng:validate"

/-- **`decodeCommitCode`** — a deploy's extra is a format byte and the module, raw or deflated;
`inflate` is the (bounded) decompressor. -/
def decodeCommitCode (inflate : Bytes → Option Bytes) : Bytes → Except Err Bytes
  | [] => .error .commitExtraInvalid
  | tag :: rest =>
    if tag = 0x00 then .ok rest
    else if tag = 0x01 then
      match inflate rest with
      | some code => .ok code
      | none => .error .commitExtraInvalid
    else .error .commitExtraInvalid

/-! ## §3 — commitments -/

/-- **`Commitment`** — the blind half of commit-reveal. -/
structure Commitment where
  network : Network
  height : Nat
  hash : Bytes
  fee : Nat
  sign? : Option Bytes
  deriving DecidableEq

namespace Commitment

def sign (c : Commitment) : Bytes := c.sign?.getD []

/-- The wire item; `sign` is a trailing optional. -/
def item (c : Commitment) : Item :=
  .list ([.nat c.network.toNat, .nat c.height, .str c.hash, .nat c.fee] ++
    if c.sign? ≠ none then [.str c.sign] else [])

def unsigned (c : Commitment) : Commitment := { c with sign? := none }

def unheighted (c : Commitment) : Commitment := { c with sign? := none, height := 0 }

def raw (c : Commitment) : Bytes := encode c.item

variable [Crypto]

/-- **`getUnsignedHash`** — what the merkle tree commits. -/
def getUnsignedHash (c : Commitment) : Bytes32 := hash256 c.unsigned.raw

/-- **`signingHash`** — what the committer signs: neither `sign` nor the height is covered. -/
def signingHash (c : Commitment) : Bytes32 := hash256 c.unheighted.raw

/-- **`fromAddr`** — `Commitment.From`. -/
def fromAddr (c : Commitment) : Except Err Address := fromOf .commitUnsigned c.signingHash.val c.sign

/-- **`verify`** — the signature check; unlike a transaction's it has no height exemption. -/
def verify (lookup : Option PubKeyResolver) (c : Commitment) : Except Err Unit := do
  ensure (c.sign ≠ []) .commitUnsigned
  let e ← splitEnvelope .commitUnsigned .commitSignInvalid c.signingHash.val lookup c.sign
  ensure (verifyHashSig e.scheme e.pubKey c.signingHash.val e.sig) .commitSignInvalid

/-- **`checkError`** — the context-free self check. -/
def checkError (blockHeight : Nat) (lookup : Option PubKeyResolver) (c : Commitment) :
    Except Err Unit := do
  ensure (c.hash.length = hashSize) .commitHashInvalid
  ensure (c.height = blockHeight) .commitHeightInvalid
  c.verify lookup

/-- What `verify` verified: as for a transaction, at every height. -/
theorem envelope_of_verify {lookup : Option PubKeyResolver} {c : Commitment} {u : Unit} (h : c.verify lookup = .ok u) :
    ∃ e, splitEnvelope .commitUnsigned .commitSignInvalid c.signingHash.val lookup c.sign = .ok e ∧
      verifyHashSig e.scheme e.pubKey c.signingHash.val e.sig = true ∧
      c.fromAddr = .ok (addressOfPubKey e.scheme e.pubKey) := by
  rcases bind_eq_ok.mp h with ⟨_, _, h⟩
  rcases bind_eq_ok.mp h with ⟨e, he, h⟩
  exact ⟨e, he, ensure_eq_ok.mp h, (splitEnvelope_address .commitUnsigned he).1⟩

end Commitment
end NgCore
