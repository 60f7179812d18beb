/-
# NgCore.Types.Keys — signature schemes, addresses and signature envelopes

`ngtypes/keys.go`, `ngtypes/address.go`, and the signature envelope that transactions and
commitments share (`FullTx.envelope` / `FullTx.From` and their `Commitment` twins differ only in the
sentinel errors they return, so one definition takes those as parameters).

An envelope is told apart by its first byte: FULL carries the public key, COMPACT carries the sender
address and resolves the key through the on-chain registry, RECOVER carries only a signature from
which key and sender fall out.

The result the higher layers use is `splitEnvelope_address`: a key that an envelope resolves to hashes to
the address `fromOf` derives from the same envelope, whatever the registry holds.
-/
import NgCore.Types.Basic

namespace NgCore

variable [Crypto]

/-! ## §1 — schemes -/

/-- **`SigScheme`** — the scheme tag byte. -/
abbrev SigScheme := UInt8

def schemeSecp256k1 : SigScheme := 0x01
def schemeFNDSA512 : SigScheme := 0x10
def schemeMLDSA44 : SigScheme := 0x11
def schemeSLHDSA128 : SigScheme := 0x12

/-- Whether the scheme supports public key recovery. -/
def hasRecovery (scheme : SigScheme) : Bool := scheme = schemeSecp256k1

/-- **`pubKeySize`** — encoded public key length; zero for an unknown scheme. -/
def pubKeySize (scheme : SigScheme) : Nat :=
  if scheme = schemeSecp256k1 then 33
  else if scheme = schemeFNDSA512 then 897
  else if scheme = schemeMLDSA44 then 1312
  else if scheme = schemeSLHDSA128 then 32
  else 0

/-- **`sigSize`** — signature length; zero for an unknown scheme. -/
def sigSize (scheme : SigScheme) : Nat :=
  if scheme = schemeSecp256k1 then 65
  else if scheme = schemeFNDSA512 then 666
  else if scheme = schemeMLDSA44 then 2420
  else if scheme = schemeSLHDSA128 then 7856
  else 0

/-- The key a recoverable signature was made with, when it recovers in compressed form. -/
def recoverCompressed (hash sig : Bytes) : Option Bytes :=
  match Crypto.recoverCompact sig hash with
  | some (key, true) => some key
  | _ => none

/-- **`verifyHashSig`** — one signature over a digest against a scheme-tagged public key. -/
def verifyHashSig (scheme : SigScheme) (pubKey hash sig : Bytes) : Bool :=
  if pubKey.length ≠ pubKeySize scheme ∨ sig.length ≠ sigSize scheme then false
  else if scheme = schemeSecp256k1 then recoverCompressed hash sig = some pubKey
  else if scheme = schemeFNDSA512 then Crypto.fndsaVerify pubKey hash sig
  else if scheme = schemeMLDSA44 then Crypto.mldsaVerify pubKey hash sig
  else if scheme = schemeSLHDSA128 then Crypto.slhdsaVerify pubKey hash sig
  else false

/-- **`recoverPubKey`** — the signer's key, for schemes with recovery. -/
def recoverPubKey (scheme : SigScheme) (hash sig : Bytes) : Option Bytes :=
  if scheme ≠ schemeSecp256k1 ∨ sig.length ≠ sigSize scheme then none
  else recoverCompressed hash sig

/-- **`addressOfPubKey`** — `blake3(version ‖ scheme ‖ pubkey)`. -/
def addressOfPubKey (scheme : SigScheme) (pubKey : Bytes) : Address :=
  hash256 (0x01 :: scheme :: pubKey)

/-! ## §2 — envelopes -/

def envelopeFull : UInt8 := 0x01
def envelopeCompact : UInt8 := 0x02
def envelopeRecover : UInt8 := 0x03

/-- A registry lookup: the `scheme ‖ pubkey` entry of an address. -/
abbrev PubKeyResolver := Address → Option Bytes

/-- What an envelope splits into. -/
structure Envelope where
  scheme : SigScheme
  pubKey : Bytes
  sig : Bytes
  deriving DecidableEq

/-- **`splitEnvelope`** — `FullTx.envelope` / `Commitment.envelope`: split `sign` into scheme, key
and signature; `lookup = none` is the nil resolver. `unsigned` and `invalid` are the caller's own
sentinels. -/
def splitEnvelope (unsigned invalid : Err) (signingHash : Bytes) (lookup : Option PubKeyResolver) :
    Bytes → Except Err Envelope
  | form :: scheme :: body =>
    let pkLen := pubKeySize scheme
    let sigLen := sigSize scheme
    if pkLen = 0 then .error invalid
    else if form = envelopeFull then
      if body.length ≠ pkLen + sigLen then .error invalid
      else .ok ⟨scheme, body.take pkLen, body.drop pkLen⟩
    else if form = envelopeRecover then
      if hasRecovery scheme = false ∨ body.length ≠ sigLen then .error invalid
      else match recoverPubKey scheme signingHash body with
        | none => .error invalid
        | some pubKey => .ok ⟨scheme, pubKey, body⟩
    else if form = envelopeCompact then
      if body.length ≠ addressSize + sigLen then .error invalid
      else match lookup with
        | none => .error invalid
        | some resolve =>
          let sender := copy32 (body.take addressSize)
          match resolve sender with
          | some (tag :: pubKey) =>
            if pubKey.length ≠ pkLen ∨ tag ≠ scheme then .error invalid
            else if addressOfPubKey scheme pubKey ≠ sender then .error invalid
            else .ok ⟨scheme, pubKey, body.drop addressSize⟩
          | _ => .error invalid
    else .error unsigned
  | _ => .error unsigned

/-- **`fromOf`** — `FullTx.From` / `Commitment.From`: the sender an envelope speaks for. -/
def fromOf (unsigned : Err) (signingHash : Bytes) : Bytes → Except Err Address
  | form :: scheme :: body =>
    let pkLen := pubKeySize scheme
    let sigLen := sigSize scheme
    if form = envelopeFull then
      if pkLen = 0 ∨ body.length ≠ pkLen + sigLen then .error unsigned
      else .ok (addressOfPubKey scheme (body.take pkLen))
    else if form = envelopeCompact then
      if pkLen = 0 ∨ body.length ≠ addressSize + sigLen then .error unsigned
      else .ok (copy32 (body.take addressSize))
    else if form = envelopeRecover then
      if hasRecovery scheme = false ∨ body.length ≠ sigLen then .error unsigned
      else match recoverPubKey scheme signingHash body with
        | none => .error unsigned
        | some pubKey => .ok (addressOfPubKey scheme pubKey)
    else .error unsigned
  | _ => .error unsigned

/-- **`Signs sign hash addr`** — the envelope bytes `sign` carry a signature that verifies over `hash`
under a public key whose address is `addr`. -/
def Signs (sign hash : Bytes) (addr : Address) : Prop :=
  ∃ e : Envelope, (sign = envelopeFull :: e.scheme :: (e.pubKey ++ e.sig) ∨
      sign = envelopeCompact :: e.scheme :: (addr.val ++ e.sig) ∨
      sign = envelopeRecover :: e.scheme :: e.sig) ∧
    addressOfPubKey e.scheme e.pubKey = addr ∧
    verifyHashSig e.scheme e.pubKey hash e.sig = true

/-- **An envelope that splits speaks for the key it splits to**: `fromOf` returns the address of that
key, and the envelope bytes carry the signature. -/
theorem splitEnvelope_address {unsigned invalid : Err} (unsigned' : Err) {h sign : Bytes}
    {lookup : Option PubKeyResolver} {e : Envelope}
    (hs : splitEnvelope unsigned invalid h lookup sign = .ok e) :
    fromOf unsigned' h sign = .ok (addressOfPubKey e.scheme e.pubKey) ∧
      (sign = envelopeFull :: e.scheme :: (e.pubKey ++ e.sig) ∨
       sign = envelopeCompact :: e.scheme ::
         ((addressOfPubKey e.scheme e.pubKey).val ++ e.sig) ∨
       sign = envelopeRecover :: e.scheme :: e.sig) := by
  match sign with
  | [] => cases hs
  | [_] => cases hs
  | form :: scheme :: body =>
    simp only [splitEnvelope] at hs
    split at hs
    · cases hs
    next hpk =>
    split at hs
    · -- full: the key is carried
      next hform =>
      subst hform
      split at hs
      · cases hs
      next hlen =>
      cases hs
      refine ⟨by simp [fromOf, hpk, hlen], .inl ?_⟩
      simp [List.take_append_drop]
    next hfull =>
    split at hs
    · -- recover: the key falls out of the signature
      next hform =>
      subst hform
      split at hs
      · cases hs
      next hlen =>
      split at hs
      · cases hs
      next pubKey hrec =>
      cases hs
      refine ⟨?_, .inr (.inr rfl)⟩
      simp only [fromOf]
      rw [if_neg hfull, if_neg (by decide), if_pos trivial, if_neg hlen, hrec]
    next hrecover =>
    split at hs
    · -- compact: the registry entry was checked against the carried address
      next hform =>
      subst hform
      split at hs
      · cases hs
      next hlen =>
      split at hs
      · cases hs
      next resolve =>
      split at hs
      · next tag pubKey hentry =>
        split at hs
        · cases hs
        split at hs
        · cases hs
        next haddr =>
        cases hs
        have haddr' := not_not.mp haddr
        have hlen' := not_not.mp hlen
        have htake : (body.take addressSize).length = 32 := by
          rw [List.length_take, hlen']
          simp [addressSize]
        refine ⟨?_, .inr (.inl ?_)⟩
        · simp only [fromOf]
          rw [if_neg hfull, if_pos trivial, if_neg (by simp [hpk, hlen']), haddr']
        · rw [haddr', copy32_of_length _ htake]
          simp [List.take_append_drop]
      · cases hs
    · cases hs

end NgCore
