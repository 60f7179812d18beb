/-
# NgCore.Chain.CommitGate — the three gates of a commitment

A commitment is looked at three times: by the pool (`checkCommitment`), by the stateless check of the block that
carries it (`Commitment.checkError` with no key registry) and by the state layer (`handleCommits`). The pool and
the state layer resolve a COMPACT envelope through the registry; the stateless check has none to resolve it with.

DELIVERABLE: `pool_block_agree` — commitments of distinct committers that the pool admits pass the block's own
check and the state layer exactly when none of them is compact; every other envelope form is judged alike.
-/
import NgCore.Chain.Authorized
import NgCore.Chain.Registry

namespace NgCore

open Lib (Bucket Txn)
open StateTxn

/-! ## §1 — the registry and the envelope forms -/

section Envelopes

variable [Crypto]

/-- **Only the compact form reads the registry.** -/
theorem splitEnvelope_lookup {unsigned invalid : Err} {hash sign : Bytes} (lookup lookup' : Option PubKeyResolver)
    (hform : sign.head? ≠ some envelopeCompact) :
    splitEnvelope unsigned invalid hash lookup sign = splitEnvelope unsigned invalid hash lookup' sign := by
  match sign with
  | [] => rfl
  | [_] => rfl
  | form :: scheme :: body =>
    have hne : form ≠ envelopeCompact := by
      rintro rfl
      exact hform rfl
    simp only [splitEnvelope, if_neg hne]

theorem splitEnvelope_compact {unsigned invalid : Err} {hash sign : Bytes} {e : Envelope}
    (hform : sign.head? = some envelopeCompact) : splitEnvelope unsigned invalid hash none sign ≠ .ok e := by
  match sign with
  | [] => cases hform
  | [_] => exact nofun
  | form :: scheme :: body =>
    obtain rfl : form = envelopeCompact := by simpa using hform
    simp only [splitEnvelope]
    rw [if_neg (show envelopeCompact ≠ envelopeFull by decide),
      if_neg (show envelopeCompact ≠ envelopeRecover by decide), if_pos trivial]
    intro h
    split at h
    · cases h
    · split at h <;> cases h

/-- Off the compact form no registry changes what a transaction's signature is worth. -/
theorem FullTx.verify_lookup {tx : FullTx} (hform : tx.isCompactEnvelope = false)
    (lookup lookup' : Option PubKeyResolver) : tx.verify lookup = tx.verify lookup' := by
  have hne : tx.sign.head? ≠ some envelopeCompact := of_decide_eq_false hform
  unfold verify
  rw [splitEnvelope_lookup lookup lookup' hne]

namespace Commitment

/-- **`isCompactEnvelope`** — the commitment names its committer and leaves the key to the registry. -/
def isCompactEnvelope (c : Commitment) : Bool := c.sign.head? = some envelopeCompact

theorem verify_lookup {c : Commitment} (hform : c.isCompactEnvelope = false) (lookup lookup' : Option PubKeyResolver) :
    c.verify lookup = c.verify lookup' := by
  have hne : c.sign.head? ≠ some envelopeCompact := of_decide_eq_false hform
  unfold verify
  rw [splitEnvelope_lookup lookup lookup' hne]

theorem verify_compact {c : Commitment} {u : Unit} (hform : c.isCompactEnvelope = true) : c.verify none ≠ .ok u := by
  intro h
  obtain ⟨e, he, _⟩ := envelope_of_verify h
  exact splitEnvelope_compact (of_decide_eq_true hform) he

theorem checkError_eq_ok {c : Commitment} {height : Nat} {lookup : Option PubKeyResolver} {u : Unit} :
    c.checkError height lookup = .ok u ↔
      c.hash.length = hashSize ∧ c.height = height ∧ c.verify lookup = .ok u := by
  unfold checkError
  constructor
  · intro h
    obtain ⟨_, hhash, h⟩ := bind_eq_ok.mp h
    obtain ⟨_, hheight, h⟩ := bind_eq_ok.mp h
    exact ⟨ensure_eq_ok.mp hhash, ensure_eq_ok.mp hheight, h⟩
  · rintro ⟨hhash, hheight, hverify⟩
    exact bind_eq_ok.mpr ⟨(), ensure_eq_ok.mpr hhash, bind_eq_ok.mpr ⟨(), ensure_eq_ok.mpr hheight, hverify⟩⟩

end Commitment
end Envelopes

/-! ## §2 — what the pool admits -/

/-- **`Admitted v c height a`** — what `checkCommitment` established, for the committer `a`. -/
structure Admitted [Crypto] (v : View) (c : Commitment) (height : Nat) (a : Address) : Prop where
  hashLength : c.hash.length = hashSize
  atHeight : c.height = height
  verify : c.verify (some v.keyResolver) = .ok ()
  fromAddr : c.fromAddr = .ok a
  fresh : v.commitFromPending a (copy32 c.hash) height = false
  afford : c.fee ≤ v.bal a

section Admission

variable [Crypto] {v : View} {c : Commitment} {height : Nat}

theorem checkCommitment_eq_ok {u : Unit} : checkCommitment v c height = .ok u ↔ ∃ a, Admitted v c height a := by
  unfold checkCommitment
  constructor
  · intro h
    obtain ⟨_, hcheck, h⟩ := bind_eq_ok.mp h
    obtain ⟨a, hfrom, h⟩ := bind_eq_ok.mp h
    obtain ⟨_, hfresh, h⟩ := bind_eq_ok.mp h
    obtain ⟨hhash, hheight, hverify⟩ := Commitment.checkError_eq_ok.mp hcheck
    exact ⟨a, hhash, hheight, hverify, hfrom, ensure_eq_ok.mp hfresh, ensure_eq_ok.mp h⟩
  · rintro ⟨a, h⟩
    refine bind_eq_ok.mpr ⟨(), Commitment.checkError_eq_ok.mpr ⟨h.hashLength, h.atHeight, h.verify⟩, ?_⟩
    refine bind_eq_ok.mpr ⟨a, h.fromAddr, bind_eq_ok.mpr ⟨(), ensure_eq_ok.mpr h.fresh, ensure_eq_ok.mpr h.afford⟩⟩

/-- An admission reads the registry, the committer's balance and what is pending below the height. -/
theorem Admitted.of_agree {v' : View} {a : Address} (h : Admitted v c height a) (hkey : v'.key = v.key)
    (hbal : v'.bal a = v.bal a) (hcommit : ∀ k, k < height → v'.commit k = v.commit k) : Admitted v' c height a where
  hashLength := h.hashLength
  atHeight := h.atHeight
  verify := by
    show c.verify (some v'.key) = _
    rw [hkey]
    exact h.verify
  fromAddr := h.fromAddr
  fresh := by
    rw [Bool.eq_false_iff, Ne, View.commitFromPending_eq_true]
    rintro ⟨k, hlow, hlt, hrow⟩
    rw [hcommit k hlt] at hrow
    have hpending := View.commitFromPending_eq_true.mpr ⟨k, hlow, hlt, hrow⟩
    rw [h.fresh] at hpending
    exact absurd hpending (by decide)
  afford := by
    rw [hbal]
    exact h.afford

end Admission

/-! ## §3 — what the state layer does with them -/

section Handling

variable [Engine] {rec : Recorder} {s : State} {height : Nat}

/-- The state after an admitted commitment of `a`: the fee is charged and the row recorded. -/
def State.charge (rec : Recorder) (c : Commitment) (a : Address) (s : State) : State :=
  (s.setBalance rec a (s.view.bal a - c.fee : Int)).putCommit c.height (copy32 c.hash) a

/-- **One admitted commitment is handled.** -/
theorem handleCommit_of_admitted {c : Commitment} {a : Address} (h : Admitted s.view c height a) :
    (handleCommit rec c).exec s = .ok ((), s.charge rec c a) := by
  unfold handleCommit
  refine exec_bind_ok.mpr ⟨_, _, exec_look s, ?_⟩
  refine exec_bind_ok.mpr ⟨_, _, exec_ofExcept_ok.mpr ⟨h.verify, rfl⟩, ?_⟩
  refine exec_bind_ok.mpr ⟨_, _, exec_ofExcept_ok.mpr ⟨h.fromAddr, rfl⟩, ?_⟩
  refine exec_bind_ok.mpr ⟨(), _, exec_require_ok.mpr ⟨?_, rfl⟩, ?_⟩
  · rw [h.atHeight]
    exact h.fresh
  refine exec_bind_ok.mpr ⟨(), _, exec_require_ok.mpr ⟨h.afford, rfl⟩, ?_⟩
  exact exec_bind_ok.mpr ⟨_, _, exec_tell _ s, exec_tell _ _⟩

/-- Charging one committer leaves every admission of another standing. -/
theorem Admitted.charge {c c' : Commitment} {a b : Address} (h : Admitted s.view c height a)
    (h' : Admitted s.view c' height b) (hne : b ≠ a) : Admitted (s.charge rec c a).view c' height b := by
  refine h'.of_agree rfl ((s.getBalance_setBalance rec a _ b).trans (if_neg hne.symm)) fun k hk => ?_
  funext hash
  refine (State.commit_putCommit _ _ _ _ (k, hash)).trans (if_neg ?_)
  intro heq
  have hrow : c.height = k := congrArg Prod.fst heq
  rw [h.atHeight] at hrow
  omega

/-- **Admitted commitments of distinct committers are all handled**: none touches what the next was admitted on. -/
theorem handleCommits_of_admitted {l : List Commitment} (hchecked : ∀ c ∈ l, ∃ a, Admitted s.view c height a)
    (hdistinct : (l.map Commitment.fromAddr).Nodup) : ∃ s', (l.forM (handleCommit rec)).exec s = .ok ((), s') := by
  induction l generalizing s with
  | nil => exact ⟨s, rfl⟩
  | cons c l ih =>
    obtain ⟨a, ha⟩ := hchecked c List.mem_cons_self
    rw [List.map_cons, List.nodup_cons] at hdistinct
    have hrest : ∀ c' ∈ l, ∃ b, Admitted (s.charge rec c a).view c' height b := by
      intro c' hc'
      obtain ⟨b, hb⟩ := hchecked c' (List.mem_cons_of_mem c hc')
      refine ⟨b, ha.charge hb ?_⟩
      -- a shared committer would repeat in the list
      rintro rfl
      refine hdistinct.1 (List.mem_map.mpr ⟨c', hc', ?_⟩)
      rw [hb.fromAddr, ha.fromAddr]
    obtain ⟨s', hs'⟩ := ih hrest hdistinct.2
    exact ⟨s', exec_bind_ok.mpr ⟨(), _, handleCommit_of_admitted ha, hs'⟩⟩

/-! ## §4 — pool and block -/

/-- **`carriesCommits`** — the commitment part of the block's stateless check: every commitment checks out on its
own, and no hash is carried twice. -/
def FullBlock.carriesCommits (block : FullBlock) : Except Err Unit := do
  block.commits.forM fun c => c.checkError block.header.height none
  ensure (block.commits.map Commitment.hash).Nodup .blockDuplicateCommit

/-- **The pool and the block agree, but for the compact form**: let the pool admit every commitment a block
carries, of distinct committers and distinct hashes. The block's own check and the state layer accept them all
exactly when none is under the compact envelope. -/
theorem pool_block_agree {block : FullBlock}
    (hchecked : ∀ c ∈ block.commits, checkCommitment s.view c block.getHeight = .ok ())
    (hcommitters : (block.commits.map Commitment.fromAddr).Nodup)
    (hhashes : (block.commits.map Commitment.hash).Nodup) :
    (block.carriesCommits = .ok () ∧ ∃ s', (handleCommits rec block).exec s = .ok ((), s')) ↔
      ∀ c ∈ block.commits, c.isCompactEnvelope = false := by
  have hadmitted : ∀ c ∈ block.commits, ∃ a, Admitted s.view c block.getHeight a :=
    fun c hc => checkCommitment_eq_ok.mp (hchecked c hc)
  constructor
  · rintro ⟨hcarries, _⟩ c hc
    obtain ⟨_, hchecks, _⟩ := bind_eq_ok.mp hcarries
    obtain ⟨_, _, hverify⟩ := Commitment.checkError_eq_ok.mp (forM_eq_ok.mp hchecks c hc)
    rw [Bool.eq_false_iff]
    exact fun hcompact => Commitment.verify_compact hcompact hverify
  · intro hforms
    refine ⟨bind_eq_ok.mpr ⟨(), forM_eq_ok.mpr ?_, ensure_eq_ok.mpr hhashes⟩,
      handleCommits_of_admitted hadmitted hcommitters⟩
    intro c hc
    obtain ⟨a, ha⟩ := hadmitted c hc
    refine Commitment.checkError_eq_ok.mpr ⟨ha.hashLength, ha.atHeight, ?_⟩
    rw [Commitment.verify_lookup (hforms c hc) none (some s.view.keyResolver)]
    exact ha.verify

end Handling

/-- The payment's commitment passes all three gates after the first block. -/
theorem pool_block_agree_handPayment :
    letI := Engine.bare
    ∃ s : State, let block := handSeal (handSeal handGenesis 1 [] []) 1 [] [handCommit 1 2 (10 ^ 13) handPayment]
      block.carriesCommits = .ok () ∧ ∃ s', (handleCommits none block).exec s = .ok ((), s') := by
  let _ := Engine.bare
  obtain ⟨n, _, _, htest⟩ := exists_reachable_byHand (fun _ => none) true [handSeal handGenesis 1 [] []] []
    (fun n => okAnd (checkCommitment n.state.view (handCommit 1 2 (10 ^ 13) handPayment) 2) fun _ => true)
    (by decide +kernel)
  obtain ⟨_, hchecked, _⟩ := exists_of_okAnd htest
  refine ⟨n.state, (pool_block_agree ?_ ?_ ?_).mpr (by decide +kernel)⟩
  · intro c hc
    obtain rfl := List.mem_singleton.mp hc
    exact hchecked
  · exact List.nodup_singleton _
  · exact List.nodup_singleton _

/-- A first block whose mint reveals the miner's key. -/
def handReveal [Crypto] : FullBlock :=
  let block := handSeal handGenesis 1 [] []
  { block with
    header := { block.header with
      txTrieHash := (calcContentRoot [handRevealed 1 1] []).val
      witnessRoot := (calcWitnessRoot [handRevealed 1 1] []).val }
    txs := [handRevealed 1 1] }

/-- The commitment to the payment, under the compact envelope of the revealed key. -/
def handCompact [Crypto] : Commitment :=
  let c := handCommit 1 2 (10 ^ 13) handPayment
  { c with sign? := some (envelopeCompact :: schemeSecp256k1 ::
      ((handAddr 1).val ++ (handKey 1 ++ c.signingHash.val))) }

/-- **The pool admits what no block can carry**: once the key is registered the compact commitment is admitted for
the next height and the state layer handles it, but the block that carries it fails its stateless check. -/
theorem pool_block_disagree_handCompact :
    letI := Engine.bare
    ∃ n : Node State, Set.InjOn BlockHeader.getHash (genesisHeaders ∪ {x | x ∈ [handReveal.header]}) ∧
      Node.Reachable ⟨ZERONET, true⟩ {x | x ∈ [handReveal.header]} n ∧
      checkCommitment n.state.view handCompact 2 = .ok () ∧
      (∃ s', (handleCommits none (handSeal handReveal 1 [] [handCompact])).exec n.state = .ok ((), s')) ∧
      (handSeal handReveal 1 [] [handCompact]).carriesCommits = .error .commitSignInvalid := by
  let _ := Engine.bare
  obtain ⟨n, hr, _, htest⟩ := exists_reachable_byHand (fun _ => none) true [handReveal] []
    (fun n => okAnd (checkCommitment n.state.view handCompact 2) fun _ => true) (by decide +kernel)
  obtain ⟨_, hchecked, _⟩ := exists_of_okAnd htest
  refine ⟨n, injOn_byHand _ (by decide +kernel), hr, hchecked, ?_, by decide +kernel⟩
  have hadmitted : ∀ c ∈ [handCompact], ∃ a, Admitted n.state.view c 2 a := by
    intro c hc
    obtain rfl := List.mem_singleton.mp hc
    exact checkCommitment_eq_ok.mp hchecked
  exact handleCommits_of_admitted hadmitted (List.nodup_singleton _)

end NgCore
