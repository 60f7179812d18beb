/-
# NgCore.LightClient — verifying a peer's state proof against a trusted header

Package `lightclient` (`VerifyProof`) and the response type of `ngp2p/wired`. A response names a domain
and a key, and carries a leaf PATH of its own; the verifier binds value, path and branch to the header's
state root, and never compares the path with the domain and the key.

DELIVERABLES: `verifyProof_binds` (an accepted response tells the truth about ITS path, for any peer) and
`verifyProof_answers_iff` (it tells the truth about its domain and key exactly when the committed state
agrees at the two paths); `verifyProof_other_key`, an accepted answer with another key's value.
-/
import NgCore.Statetrie.Proofs
import NgCore.Types.Block

namespace NgCore

open Statetrie (Commits word? words? leafPath hashed Domain)

/-! ## §1 — the wire -/

/-- **`ProofResponse`** — a state proof as a peer sends it. -/
structure ProofResponse where
  height : Nat
  blockHash : Bytes
  stateRoot : Bytes
  domain : String
  key : Bytes
  value : Bytes
  valueHash : Bytes
  path : Bytes
  proof : List Bytes
  found : Bool

/-- **`stateDomain`** — the domain a name stands for. -/
def stateDomain (name : String) : Option Domain :=
  if name = "balance" then some .balance
  else if name = "key" then some .key
  else if name = "contract" then some .contract
  else if name = "commit" then some .commit
  else if name = "beacon" then some .beacon
  else none

namespace ProofResponse

/-- What a response answers: a value, or absence. -/
def answer (resp : ProofResponse) : Option Bytes := if resp.found then some resp.value else none

variable [Crypto]

/-- The leaf path of the response's own domain and key. -/
def queriedPath (resp : ProofResponse) : Option Bytes32 :=
  (stateDomain resp.domain).map fun d => leafPath d resp.key

/-- The value hash the answer must have; `none` where answer and `found` flag contradict. -/
def wantValueHash (resp : ProofResponse) : Option Bytes32 :=
  if resp.found then if resp.value = [] then none else some (Statetrie.valueHash resp.value)
  else if resp.value ≠ [] then none else some zero32

end ProofResponse

/-! ## §2 — the verifier -/

section Verify

variable [Crypto]

/-- **`verifyProof`** — `none` rejects; `some none` is a verified absence. -/
def verifyProof : Option BlockHeader → Option ProofResponse → Option (Option Bytes)
  | some header, some resp =>
    -- bind the proof to the trusted header
    if resp.stateRoot ≠ header.stateRoot then none
    else if resp.blockHash ≠ header.getHash.val then none
    else match resp.wantValueHash with
      | none => none
      | some want =>
        if resp.valueHash ≠ want.val then none
        else if Statetrie.verify resp.stateRoot resp.path resp.valueHash resp.proof = false then none
        else some resp.answer
  | _, _ => none

theorem verifyProof_eq_some {header : BlockHeader} {resp : ProofResponse} {o : Option Bytes}
    (h : verifyProof (some header) (some resp) = some o) :
    o = resp.answer ∧ resp.stateRoot = header.stateRoot ∧ ∃ want, resp.wantValueHash = some want ∧
      Statetrie.verify header.stateRoot resp.path want.val resp.proof = true := by
  rw [verifyProof] at h
  split at h
  · cases h
  next hroot =>
  split at h
  · cases h
  split at h
  · cases h
  next want hwant =>
  split at h
  · cases h
  next hvalue =>
  split at h
  · cases h
  next hverify =>
  rw [not_not] at hroot hvalue
  rw [hroot, hvalue] at hverify
  exact ⟨(Option.some.inj h).symm, hroot, want, hwant, by simpa using hverify⟩

theorem verifyProof_of_verify {header : BlockHeader} {resp : ProofResponse} {want : Bytes32}
    (hroot : resp.stateRoot = header.stateRoot) (hhash : resp.blockHash = header.getHash.val)
    (hwant : resp.wantValueHash = some want) (hvalue : resp.valueHash = want.val)
    (hverify : Statetrie.verify header.stateRoot resp.path want.val resp.proof = true) :
    verifyProof (some header) (some resp) = some resp.answer := by
  rw [verifyProof, if_neg (not_not.mpr hroot), if_neg (not_not.mpr hhash), hwant]
  show (if _ then none else if _ then none else _) = _
  rw [if_neg (not_not.mpr hvalue), hroot, hvalue, hverify]
  rfl

/-! ## §3 — what a state root commits -/

/-- The value hash of an optional value: absence is all-zero. -/
def contentHash (o : Option Bytes) : Bytes32 := o.elim zero32 Statetrie.valueHash

/-- **`CommittedAs root store content`** — the root is the one of the node set `store`, and that is the
tree of the state whose value at every leaf path is `content`. -/
structure CommittedAs (root : Bytes) (store : Statetrie.NodeStore) (content : Bytes32 → Option Bytes) :
    Prop where
  root : root = (Statetrie.root store).val
  commits : Commits store fun p => contentHash (content p)

/-- The strings that are hashed when the response is verified, and when the committed leaf at its path is
proved: branches, leaves and values. -/
def ProofResponse.preimages (resp : ProofResponse) (store : Statetrie.NodeStore)
    (content : Bytes32 → Option Bytes) : Set Bytes :=
  {x | ∃ p, resp.path = p.val ∧
    ((∃ v sibs, resp.wantValueHash = some v ∧ resp.proof = sibs.map Subtype.val ∧ x ∈ hashed p v sibs) ∨
      x ∈ hashed p (contentHash (content p)) (Statetrie.prove store p) ∨
      resp.answer = some x ∨ content p = some x)}

/-- No two of the strings share a digest, and none has the all-zero digest, which stands for absence. -/
structure HashesApart (preimages : Set Bytes) : Prop where
  injective : CollisionFree preimages
  nonzero : ∀ x ∈ preimages, hash256 x ≠ zero32

theorem HashesApart.not_breach {S : Set Bytes} (h : HashesApart S) {b : Statetrie.Breach} {l : List Bytes}
    (hl : ∀ x ∈ l, x ∈ S) (hamong : b.Among l) : ¬ b.Holds := by
  cases b with
  | collision x y =>
    rintro ⟨hne, heq⟩
    exact hne (h.injective (hl x hamong.1) (hl y hamong.2) heq)
  | zeroLeaf path vh =>
    rintro ⟨-, hzero⟩
    exact h.nonzero _ (hl _ hamong) hzero

theorem HashesApart.content_eq {S : Set Bytes} (h : HashesApart S) {o o' : Option Bytes}
    (ho : ∀ x, o = some x → x ∈ S) (ho' : ∀ x, o' = some x → x ∈ S) (heq : contentHash o = contentHash o') :
    o = o' := by
  cases o with
  | none =>
    cases o' with
    | none => rfl
    | some y => exact absurd heq.symm (h.nonzero y (ho' y rfl))
  | some x =>
    cases o' with
    | none => exact absurd heq (h.nonzero x (ho x rfl))
    | some y => rw [h.injective (ho x rfl) (ho' y rfl) heq]

theorem ProofResponse.contentHash_answer {resp : ProofResponse} {want : Bytes32}
    (h : resp.wantValueHash = some want) : contentHash resp.answer = want := by
  unfold wantValueHash at h
  unfold answer
  split at h
  · next hfound =>
    rw [if_pos hfound]
    split at h
    · cases h
    · exact Option.some.inj h
  · next hfound =>
    rw [if_neg hfound]
    split at h
    · cases h
    · exact Option.some.inj h

/-- **An accepted response binds its own path**: whatever the peer sent, the answer is what the header's
state holds there. -/
theorem verifyProof_binds {header : BlockHeader} {resp : ProofResponse} {o : Option Bytes}
    {store : Statetrie.NodeStore} {content : Bytes32 → Option Bytes}
    (hstate : CommittedAs header.stateRoot store content)
    (happart : HashesApart (resp.preimages store content))
    (h : verifyProof (some header) (some resp) = some o) :
    ∃ p : Bytes32, resp.path = p.val ∧ content p = o := by
  obtain ⟨rfl, -, want, hwant, hverify⟩ := verifyProof_eq_some h
  obtain ⟨r, p, v, sibs, hr, hpath, hv, hproof, hlen, hfold⟩ := Statetrie.verify_eq_true.mp hverify
  obtain rfl := Subtype.ext hv
  refine ⟨p, hpath, ?_⟩
  -- the honest branch opens the same root at the same path
  have hroot : Statetrie.foldBranch p want sibs =
      Statetrie.foldBranch p (contentHash (content p)) (Statetrie.prove store p) := by
    rw [hfold, hstate.commits.foldBranch_prove p]
    exact Subtype.ext (hr.symm.trans hstate.root)
  have hsame : want = contentHash (content p) := by
    by_contra hne
    obtain ⟨hholds, hamong⟩ := Statetrie.breach_holds hne
      (hlen.trans (Statetrie.length_prove store p).symm) hroot
    refine happart.not_breach (fun x hx => ⟨p, hpath, ?_⟩) hamong hholds
    rcases List.mem_append.mp hx with hx | hx
    · exact .inl ⟨want, sibs, hwant, hproof, hx⟩
    · exact .inr (.inl hx)
  refine (happart.content_eq (fun x hx => ⟨p, hpath, .inr (.inr (.inl hx))⟩)
    (fun x hx => ⟨p, hpath, .inr (.inr (.inr hx))⟩) ?_).symm
  rw [resp.contentHash_answer hwant, hsame]

/-- **When an accepted answer is the answer to the query**: exactly when the committed state holds the same
at the response's path and at the leaf path of its domain and key. -/
theorem verifyProof_answers_iff {header : BlockHeader} {resp : ProofResponse} {o : Option Bytes}
    {store : Statetrie.NodeStore} {content : Bytes32 → Option Bytes}
    (hstate : CommittedAs header.stateRoot store content)
    (happart : HashesApart (resp.preimages store content))
    (h : verifyProof (some header) (some resp) = some o) :
    (∃ q, resp.queriedPath = some q ∧ content q = o) ↔
      ∃ q p : Bytes32, resp.queriedPath = some q ∧ resp.path = p.val ∧ content q = content p := by
  obtain ⟨p, hpath, hcontent⟩ := verifyProof_binds hstate happart h
  constructor
  · rintro ⟨q, hq, hanswer⟩
    exact ⟨q, p, hq, hpath, hanswer.trans hcontent.symm⟩
  · rintro ⟨q, p', hq, hpath', hsame⟩
    obtain rfl : p = p' := Subtype.ext (hpath.symm.trans hpath')
    exact ⟨q, hq, hsame.trans hcontent⟩

end Verify

/-! ## §4 — a full node's answer -/

section Answers

variable [Crypto]

/-- **`tipProof`** — `buildTipProof`: the committed value at a path, with its branch, labelled with a domain
and a key. A full node takes the path from the label. -/
def tipProof (header : BlockHeader) (store : Statetrie.NodeStore) (domain : String) (key : Bytes)
    (path : Bytes32) (value : Option Bytes) : ProofResponse where
  height := header.height
  blockHash := header.getHash.val
  stateRoot := header.stateRoot
  domain := domain
  key := key
  value := value.getD []
  valueHash := (contentHash value).val
  path := path.val
  proof := (Statetrie.prove store path).map Subtype.val
  found := value.isSome

theorem answer_tipProof (header : BlockHeader) (store : Statetrie.NodeStore) (domain : String) (key : Bytes)
    (path : Bytes32) (value : Option Bytes) :
    (tipProof header store domain key path value).answer = value := by
  cases value <;> rfl

theorem wantValueHash_tipProof {header : BlockHeader} {store : Statetrie.NodeStore} {domain : String}
    {key : Bytes} {path : Bytes32} {value : Option Bytes} (h : value ≠ some []) :
    (tipProof header store domain key path value).wantValueHash = some (contentHash value) := by
  cases value with
  | none => rfl
  | some v => exact if_neg fun hv => h (congrArg some hv)

theorem tipProof_header (header : BlockHeader) (store : Statetrie.NodeStore) (domain : String) (key : Bytes)
    (path : Bytes32) (value : Option Bytes) :
    (tipProof header store domain key path value).stateRoot = header.stateRoot ∧
      (tipProof header store domain key path value).blockHash = header.getHash.val :=
  ⟨rfl, rfl⟩

/-- **A committed leaf verifies under any label.** -/
theorem verifyProof_tipProof {header : BlockHeader} {store : Statetrie.NodeStore}
    {content : Bytes32 → Option Bytes} (hstate : CommittedAs header.stateRoot store content)
    (domain : String) (key : Bytes) {path : Bytes32} (hvalue : content path ≠ some []) :
    verifyProof (some header) (some (tipProof header store domain key path (content path))) =
      some (content path) := by
  have haccept := verifyProof_of_verify (tipProof_header header store domain key path (content path)).1
    (tipProof_header header store domain key path (content path)).2 (wantValueHash_tipProof hvalue) rfl
    (Statetrie.verify_eq_true.mpr ⟨_, path, _, _, hstate.root, rfl, rfl, rfl,
      Statetrie.length_prove _ _, hstate.commits.foldBranch_prove path⟩)
  rwa [answer_tipProof] at haccept

end Answers

/-! ## §5 — a hand-made state with one balance -/

section Handmade

/-- A number as a word, low byte first. -/
def countWord (n : Nat) : Bytes32 := copy32 (packUint64LE n)

/-- A hash that counts: an internal node is one more than its left child, a leaf is a thousand, a tagged
address is the address, anything else two thousand. -/
def countHash (b : Bytes) : Bytes32 :=
  if b.length = 65 then
    if b.head? = some 1 then countWord ((b.getD 1 0).toNat + 256 * (b.getD 2 0).toNat + 1)
    else countWord 1000
  else if b.length = 33 then copy32 b.tail
  else countWord 2000

/-- Only the balance of the all-zero address is there. -/
def lightContent (p : Bytes32) : Option Bytes := if p = zero32 then some [5] else none

def lightStore : Statetrie.NodeStore :=
  letI := Crypto.ofHash countHash
  Statetrie.update ∅ zero32 (Statetrie.valueHash [5])

def lightHeader (stateRoot : Bytes) : BlockHeader :=
  ⟨ZERONET, 1, 0, [], [], [], [1], zero32.val, zero32.val, stateRoot, [], List.replicate 8 0⟩

def lightTip : BlockHeader :=
  letI := Crypto.ofHash countHash
  lightHeader (Statetrie.root lightStore).val

/-- That balance, sent as the answer for some key. -/
def lightResponse (key : Bytes) : ProofResponse :=
  letI := Crypto.ofHash countHash
  tipProof lightTip lightStore "balance" key zero32 (lightContent zero32)

theorem stateRoot_lightHeader (stateRoot : Bytes) : (lightHeader stateRoot).stateRoot = stateRoot := rfl

theorem lightContent_zero : lightContent zero32 = some [5] := if_pos rfl

theorem light_committed :
    letI := Crypto.ofHash countHash
    CommittedAs lightTip.stateRoot lightStore lightContent := by
  let _ := Crypto.ofHash countHash
  refine ⟨stateRoot_lightHeader _, ?_⟩
  have hcommits := Statetrie.Commits.empty.update zero32 (Statetrie.valueHash [5])
  have hmap : (fun p => contentHash (lightContent p)) =
      Function.update (fun _ => zero32) zero32 (Statetrie.valueHash [5]) := by
    funext p
    unfold lightContent
    by_cases hp : p = zero32
    · rw [hp, Function.update_self, if_pos rfl]
      rfl
    · rw [Function.update_of_ne hp, if_neg hp]
      rfl
  rw [hmap]
  exact hcommits

theorem light_accepted (key : Bytes) :
    letI := Crypto.ofHash countHash
    verifyProof (some lightTip) (some (lightResponse key)) = some (some [5]) := by
  let _ := Crypto.ofHash countHash
  have hvalue : lightContent zero32 ≠ some [] := by
    rw [lightContent_zero]
    decide
  have haccept := verifyProof_tipProof light_committed "balance" key hvalue
  rw [lightContent_zero] at haccept
  unfold lightResponse
  rw [lightContent_zero]
  exact haccept

theorem countWord_val (n : Nat) : (countWord n).val = packUint64LE n ++ List.replicate 24 0 := by
  simp [countWord, copy32, packUint64LE]

theorem countWord_inj {m n : Nat} (hm : m < 2 ^ 16) (hn : n < 2 ^ 16) (h : countWord m = countWord n) :
    m = n := by
  have hbytes : packUint64LE m = packUint64LE n := by
    have hval := congrArg Subtype.val h
    rw [countWord_val, countWord_val] at hval
    exact List.append_cancel_right hval
  have hbyte : ∀ i < 8, m / 256 ^ i % 256 = n / 256 ^ i % 256 := by
    intro i hi
    have hget := List.map_inj_left.mp hbytes i (List.mem_range.mpr hi)
    have hnat := congrArg UInt8.toNat hget
    simpa using hnat
  have hlow := hbyte 0 (by omega)
  have hhigh := hbyte 1 (by omega)
  omega

theorem countHash_nodeInput {n : Nat} (hn : n < 2 ^ 16) (sib : Bytes32) :
    countHash (Statetrie.nodeInput (countWord n, sib)) = countWord (n + 1) := by
  have hlen : (Statetrie.nodeInput (countWord n, sib)).length = 65 := by simp [Statetrie.nodeInput]
  have hbytes : ((Statetrie.nodeInput (countWord n, sib)).getD 1 0).toNat +
      256 * ((Statetrie.nodeInput (countWord n, sib)).getD 2 0).toNat = n := by
    simp [Statetrie.nodeInput, countWord_val, packUint64LE, List.range_succ]
    omega
  unfold countHash
  rw [if_pos hlen, hbytes]
  rfl

theorem pathBit_zero32 (i : Nat) : Lib.SparseMerkle.pathBit (bitsOf zero32.val) i = false := by
  have hbits : bitsOf zero32.val = List.replicate 256 false := by decide +kernel
  rw [hbits, Lib.SparseMerkle.pathBit, List.getD_eq_getElem?_getD, List.getElem?_replicate]
  split <;> rfl

theorem light_pairs {l : List Bytes32} {n : Nat} (hn : n + l.length ≤ 2 ^ 16) :
    letI := Crypto.ofHash countHash
    ∀ q ∈ Lib.SparseMerkle.pairs Statetrie.internalHash (bitsOf zero32.val) l (countWord n),
      ∃ i sib, l[i]? = some sib ∧ q = (countWord (n + i), sib) := by
  let _ := Crypto.ofHash countHash
  induction l generalizing n with
  | nil =>
    intro q hq
    cases hq
  | cons sib rest ih =>
    intro q hq
    rw [List.length_cons] at hn
    have hchildren : Lib.SparseMerkle.children (bitsOf zero32.val) rest.length sib (countWord n) =
        (countWord n, sib) := by
      rw [Lib.SparseMerkle.children, pathBit_zero32]
      rfl
    have hjoin : Lib.SparseMerkle.join Statetrie.internalHash (bitsOf zero32.val) rest.length sib
        (countWord n) = countWord (n + 1) := by
      rw [Lib.SparseMerkle.join, hchildren]
      exact countHash_nodeInput (by omega) sib
    rw [Lib.SparseMerkle.pairs, hchildren, hjoin] at hq
    rcases List.mem_cons.mp hq with rfl | hq
    · exact ⟨0, sib, rfl, rfl⟩
    · obtain ⟨i, s, hs, rfl⟩ := ih (by omega) q hq
      exact ⟨i + 1, s, hs, by rw [show n + (i + 1) = n + 1 + i by omega]⟩

/-- What is hashed on the way, and its digest: the value, the leaf, the nodes above it. -/
inductive LightString : Bytes → Nat → Prop where
  | value : LightString [5] 2000
  | leaf : LightString (Statetrie.leafInput zero32 (countWord 2000)) 1000
  | node {i : Nat} {sib : Bytes32} :
    (@Statetrie.prove (Crypto.ofHash countHash) lightStore zero32)[i]? = some sib →
    LightString (Statetrie.nodeInput (countWord (1000 + i), sib)) (1000 + i + 1)

theorem LightString.index_lt {i : Nat} {sib : Bytes32}
    (h : (@Statetrie.prove (Crypto.ofHash countHash) lightStore zero32)[i]? = some sib) : i < 256 := by
  have hi := (List.getElem?_eq_some_iff.mp h).1
  rwa [@Statetrie.length_prove (Crypto.ofHash countHash)] at hi

theorem LightString.digest {x : Bytes} {n : Nat} (h : LightString x n) :
    countHash x = countWord n ∧ 0 < n ∧ n ≤ 2000 := by
  cases h with
  | value => exact ⟨rfl, by omega, le_rfl⟩
  | leaf => exact ⟨by decide +kernel, by omega, by omega⟩
  | node hsib =>
    have hi := LightString.index_lt hsib
    exact ⟨countHash_nodeInput (by omega) _, by omega, by omega⟩

theorem LightString.unique {x y : Bytes} {m n : Nat} (h : LightString x m) (h' : LightString y n)
    (hmn : m = n) : x = y := by
  cases h with
  | value =>
    cases h' with
    | value => rfl
    | leaf => omega
    | node hsib =>
      have := LightString.index_lt hsib
      omega
  | leaf =>
    cases h' with
    | value => omega
    | leaf => rfl
    | node hsib => omega
  | @node i sib hsib =>
    have hi := LightString.index_lt hsib
    cases h' with
    | value => omega
    | leaf => omega
    | @node j sib' hsib' =>
      obtain rfl : i = j := by omega
      rw [hsib] at hsib'
      rw [Option.some.inj hsib']

theorem light_strings {key x : Bytes}
    (h : letI := Crypto.ofHash countHash
      x ∈ (lightResponse key).preimages lightStore lightContent) : ∃ n, LightString x n := by
  let _ := Crypto.ofHash countHash
  have hvalue : contentHash (some [5]) = countWord 2000 := rfl
  have hhashed : x ∈ hashed zero32 (contentHash (some [5])) (Statetrie.prove lightStore zero32) →
      ∃ n, LightString x n := by
    intro hx
    have hleafHash : Statetrie.leafHash zero32 (countWord 2000) = countWord 1000 := by decide +kernel
    have hpresent : countWord 2000 ≠ zero32 := by decide
    rw [hvalue] at hx
    unfold hashed at hx
    rw [if_neg hpresent, hleafHash] at hx
    rcases List.mem_append.mp hx with hx | hx
    · rw [List.mem_singleton.mp hx]
      exact ⟨_, .leaf⟩
    · obtain ⟨q, hq, rfl⟩ := List.mem_map.mp hx
      have hbound : 1000 + (Statetrie.prove lightStore zero32).length ≤ 2 ^ 16 := by
        rw [Statetrie.length_prove]
        decide
      obtain ⟨i, sib, hsib, rfl⟩ := light_pairs hbound q hq
      exact ⟨_, .node hsib⟩
  obtain ⟨p, hp, hx⟩ := h
  obtain rfl : p = zero32 := Subtype.ext hp.symm
  rcases hx with ⟨v, sibs, hv, hproof, hx⟩ | hx | hx | hx
  · rw [lightResponse, wantValueHash_tipProof (by rw [lightContent_zero]; decide)] at hv
    obtain rfl := Option.some.inj hv
    obtain rfl := List.map_injective_iff.mpr Subtype.val_injective hproof
    rw [lightContent_zero] at hx
    exact hhashed hx
  · rw [lightContent_zero] at hx
    exact hhashed hx
  · rw [lightResponse, answer_tipProof, lightContent_zero] at hx
    rw [← Option.some.inj hx]
    exact ⟨_, .value⟩
  · rw [lightContent_zero] at hx
    rw [← Option.some.inj hx]
    exact ⟨_, .value⟩

theorem light_apart (key : Bytes) :
    letI := Crypto.ofHash countHash
    HashesApart ((lightResponse key).preimages lightStore lightContent) := by
  let _ := Crypto.ofHash countHash
  refine ⟨?_, ?_⟩
  · intro x hx y hy heq
    obtain ⟨m, hm⟩ := light_strings hx
    obtain ⟨n, hn⟩ := light_strings hy
    obtain ⟨hxm, -, hmbound⟩ := hm.digest
    obtain ⟨hyn, -, hnbound⟩ := hn.digest
    exact hm.unique hn (countWord_inj (by omega) (by omega) (hxm.symm.trans (heq.trans hyn)))
  · intro x hx hzero
    obtain ⟨n, hn⟩ := light_strings hx
    obtain ⟨hxn, hpos, hbound⟩ := hn.digest
    have hn0 : countWord n = countWord 0 := hxn.symm.trans hzero
    have := countWord_inj (by omega) (by omega) hn0
    omega

/-- The balance of the all-zero address, asked for and answered. -/
theorem verifyProof_own_key :
    letI := Crypto.ofHash countHash
    ∃ q, (lightResponse zero32.val).queriedPath = some q ∧ lightContent q = some [5] := by
  let _ := Crypto.ofHash countHash
  have hpath : (lightResponse zero32.val).queriedPath = some zero32 := by
    have hleaf : leafPath .balance zero32.val = zero32 := by decide +kernel
    exact congrArg some hleaf
  exact (verifyProof_answers_iff light_committed (light_apart _) (light_accepted _)).mpr
    ⟨zero32, zero32, hpath, rfl, rfl⟩

/-- **An accepted answer with another key's value**: the response names the escrow's balance, which the
state does not hold, and is accepted with the value of the all-zero address. -/
theorem verifyProof_other_key :
    letI := Crypto.ofHash countHash
    ∃ (header : BlockHeader) (resp : ProofResponse) (store : Statetrie.NodeStore)
      (content : Bytes32 → Option Bytes), CommittedAs header.stateRoot store content ∧
      HashesApart (resp.preimages store content) ∧
      verifyProof (some header) (some resp) = some (some [5]) ∧
      resp.queriedPath = some storageDepositEscrow ∧ content storageDepositEscrow = none := by
  let _ := Crypto.ofHash countHash
  have hpath : (lightResponse storageDepositEscrow.val).queriedPath = some storageDepositEscrow := by
    have hleaf : leafPath .balance storageDepositEscrow.val = storageDepositEscrow := by decide +kernel
    exact congrArg some hleaf
  exact ⟨lightTip, lightResponse storageDepositEscrow.val, lightStore, lightContent, light_committed,
    light_apart _, light_accepted _, hpath, by decide⟩

end Handmade
end NgCore
