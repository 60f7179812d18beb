/-
# NgCore.Chain.Authorized — who signed for a debit

A transaction that spends from an address has to carry a signature under a key of that address. Verification,
the reveal gate and the reveal itself are all skipped for a transaction of height ZERO, an exemption meant for
the genesis block; but the height they read is the transaction's own field, which whoever makes the block
chooses. `effects_authorized`: along every run in which no executed block above the genesis carries an effect
transaction of height zero, every effect transaction is signed for. `unauthorized_handTheft`: with one, an
address is emptied without its key.
-/
import NgCore.Chain.Adopted

namespace NgCore

/-- **`Authorized`** — the envelope carries a signature over the signing hash, under a key of the sender's
address. -/
def FullTx.Authorized [Crypto] (tx : FullTx) : Prop :=
  ∃ addr, tx.fromAddr = .ok addr ∧ Signs tx.sign tx.signingHash.val addr

theorem FullTx.isEffect.ne_generateTx {tx : FullTx} (h : tx.isEffect) : tx.type ≠ generateTx := by
  rcases h with h | h <;> rw [h] <;> decide

/-! ## §1 — what the checks ask -/

section Checks

variable [Engine] {v : View} {b : FullBlock} {tx : FullTx}

theorem verify_of_checkTx (hok : checkTx v tx = .ok ()) : tx.verify (some v.keyResolver) = .ok () := by
  obtain ⟨_, _, hok⟩ := bind_eq_ok.mp hok
  obtain ⟨_, _, hok⟩ := bind_eq_ok.mp hok
  split at hok
  · obtain ⟨_, _, hok⟩ := bind_eq_ok.mp hok
    obtain ⟨_, hverify, _⟩ := bind_eq_ok.mp hok
    exact hverify
  · split at hok
    · obtain ⟨_, _, hok⟩ := bind_eq_ok.mp hok
      obtain ⟨_, hdeploy, _⟩ := bind_eq_ok.mp hok
      obtain ⟨_, _, hdeploy⟩ := bind_eq_ok.mp hdeploy
      obtain ⟨_, _, hverify⟩ := bind_eq_ok.mp hdeploy
      exact hverify
    · cases hok

theorem checkTx_of_checkBlockTxs (h : checkBlockTxs v b = .ok ()) (htx : tx ∈ b.txs)
    (heffect : tx.isEffect) : checkTx v tx = .ok () := by
  obtain ⟨_, _, h⟩ := bind_eq_ok.mp h
  have htxs := forM_eq_ok.mp h tx htx
  rw [if_neg heffect.ne_generateTx] at htxs
  obtain ⟨_, _, htxs⟩ := bind_eq_ok.mp htxs
  obtain ⟨_, _, htxs⟩ := bind_eq_ok.mp htxs
  obtain ⟨_, hcheck, _⟩ := bind_eq_ok.mp htxs
  exact hcheck

end Checks

/-! ## §2 — runs -/

/-- **Every debit is authorized** along a run whose executed blocks carry no effect transaction of height
zero. -/
theorem Node.effects_authorized [Engine] {cfg : Config} {H : Set BlockHeader} {n : Node State}
    (hinj : Set.InjOn BlockHeader.getHash (genesisHeaders ∪ H)) (hr : Node.Reachable cfg H n)
    (hheights : ∀ b ∈ n.state.applied, 0 < b.getHeight → ∀ tx ∈ b.txs, tx.isEffect → tx.height ≠ 0) :
    ∀ b ∈ n.state.applied, 0 < b.getHeight → ∀ tx ∈ b.txs, tx.isEffect → tx.Authorized := by
  intro b hb hpos tx htx heffect
  obtain ⟨_, _, hsync⟩ := hr.inSync hinj
  rcases (hsync.executed.vetted_of_pos hb hpos).executed with ⟨s, s', hcheck, _⟩
  have hverify := verify_of_checkTx (checkTx_of_checkBlockTxs hcheck htx heffect)
  exact FullTx.signs_of_verify hverify (hheights b hb hpos tx htx heffect)

/-- A payment of the first miner, committed to in the second block and made in the third. -/
def handPayment [Crypto] : FullTx := handPay 1 3 (handAddr 2) 5

def handPaid [Crypto] : List FullBlock :=
  let first := handSeal handGenesis 1 [] []
  let second := handSeal first 1 [] [handCommit 1 2 (10 ^ 13) handPayment]
  [first, second, handSeal second 1 [handPayment] []]

/-- The payment is authorized. -/
theorem Node.effects_authorized_handPaid :
    letI := Engine.bare
    ∃ n : Node State, (∃ b ∈ n.state.applied, 0 < b.getHeight ∧ handPayment ∈ b.txs) ∧
      handPayment.isEffect ∧ handPayment.Authorized := by
  let _ := Engine.bare
  obtain ⟨n, hr, _, htest⟩ := exists_reachable_byHand (fun _ => none) true handPaid []
    (fun n => (n.state.applied.any fun b => decide (0 < b.getHeight ∧ handPayment ∈ b.txs)) ∧
      n.state.applied.all fun b => b.txs.all fun tx => decide (tx.type ≠ generateTx → tx.height ≠ 0))
    (by decide +kernel)
  obtain ⟨hany, hall⟩ := of_decide_eq_true htest
  obtain ⟨b, hb, hmem⟩ := List.any_eq_true.mp hany
  obtain ⟨hpos, hmem⟩ := of_decide_eq_true hmem
  have heffect : handPayment.isEffect := .inl rfl
  refine ⟨n, ⟨b, hb, hpos, hmem⟩, heffect, ?_⟩
  refine Node.effects_authorized (injOn_byHand _ (by decide +kernel)) hr ?_ b hb hpos _ hmem heffect
  intro c hc _ tx htx heffect
  have := List.all_eq_true.mp (List.all_eq_true.mp hall c hc) tx htx
  exact of_decide_eq_true this heffect.ne_generateTx

/-- A transfer from the first miner to the second, of height zero and under a blank signature. -/
def handGrab [Crypto] : FullTx :=
  ⟨ZERONET, transactTx, 0, handAddr 2, 5, 10 ^ 13, [],
    some (envelopeCompact :: schemeSecp256k1 :: ((handAddr 1).val ++ List.replicate 65 0)), none⟩

/-- The second miner's block, on top of the first miner's. -/
def handTheft [Crypto] : FullBlock := handSeal (handSeal handGenesis 1 [] []) 2 [handGrab] []

/-- **An address is debited without its key.** -/
theorem Node.unauthorized_handTheft :
    letI := Engine.bare
    ∃ n n' : Node State,
      Set.InjOn BlockHeader.getHash
        (genesisHeaders ∪ {x | x ∈ [(handSeal handGenesis 1 [] []).header, handTheft.header]}) ∧
      Node.Reachable ⟨ZERONET, true⟩
        {x | x ∈ [(handSeal handGenesis 1 [] []).header, handTheft.header]} n ∧
      n.applyBlock (ledger ⟨ZERONET, true⟩) handNow handTheft = .ok n' ∧
      0 < handTheft.getHeight ∧ handGrab ∈ handTheft.txs ∧ handGrab.isEffect ∧
      handGrab.fromAddr = .ok (handAddr 1) ∧
      n'.state.getBalance (handAddr 1) < n.state.getBalance (handAddr 1) ∧ ¬ handGrab.Authorized := by
  let _ := Engine.bare
  obtain ⟨n, hr, hs, htest⟩ := exists_reachable_byHand (fun _ => none) true [handSeal handGenesis 1 [] []]
    [handTheft] (fun n => okAnd (n.applyBlock (handLedger ⟨ZERONET, true⟩) handNow handTheft) fun n' =>
      n'.state.getBalance (handAddr 1) < n.state.getBalance (handAddr 1)) (by decide +kernel)
  obtain ⟨n', hok, htest⟩ := exists_of_okAnd htest
  have heq := ((handLedger_agrees (fun _ => none) ⟨ZERONET, true⟩).applyBlock handNow handTheft hs).1
  have hfrom : handGrab.fromAddr = .ok (handAddr 1) := by decide +kernel
  refine ⟨n, n', injOn_byHand _ (by decide +kernel), hr, heq.trans hok, by decide +kernel, by decide +kernel,
    .inl rfl, hfrom, of_decide_eq_true htest, ?_⟩
  rintro ⟨addr, haddr, e, hform, _, hverify⟩
  obtain rfl : handAddr 1 = addr := Except.ok.inj (hfrom.symm.trans haddr)
  -- the blank signature recovers no key at all
  have hblank : recoverCompressed handGrab.signingHash.val (List.replicate 65 0) = none := by decide +kernel
  rcases hform with hform | hform | hform
  · exact absurd (List.cons.inj hform).1 (by decide)
  · obtain ⟨_, hform⟩ := List.cons.inj hform
    obtain ⟨hscheme, hsig⟩ := List.cons.inj hform
    have hsig := List.append_cancel_left hsig
    rw [← hscheme, ← hsig] at hverify
    unfold verifyHashSig at hverify
    split at hverify
    · cases hverify
    · rw [if_pos rfl, hblank] at hverify
      simp at hverify
  · exact absurd (List.cons.inj hform).1 (by decide)

end NgCore
