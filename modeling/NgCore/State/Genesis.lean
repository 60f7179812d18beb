/-
# NgCore.State.Genesis — the state a chain starts from

Seeding a fresh database and applying the genesis block of a known network always succeeds, and the
result is one balance entry. The genesis mint passes because its height is zero, not because its
signature (64 zero bytes) would verify.
-/
import NgCore.State.Rebuild

namespace NgCore

theorem getGenesisBlock_ok [Crypto] {network : Network} {g : FullBlock}
    (hg : getGenesisBlock network = .ok g) :
    g.commits = [] ∧ g.getHeight = 0 ∧ ∃ tx, g.txs = [tx] ∧ tx.type = generateTx ∧ tx.height = 0 ∧
      tx.envelopeScheme = 0 ∧ tx.toAddr = genesisAddress ∧ tx.value = getBlockReward 0 := by
  unfold getGenesisBlock at hg
  obtain ⟨tx, htx, hg⟩ := bind_eq_ok.mp hg
  obtain ⟨timestamp, -, hg⟩ := bind_eq_ok.mp hg
  obtain ⟨nonce, -, hg⟩ := bind_eq_ok.mp hg
  obtain rfl := pure_eq_ok.mp hg
  obtain ⟨sign, hsign, htx⟩ := bind_eq_ok.mp htx
  obtain rfl := pure_eq_ok.mp htx
  refine ⟨rfl, rfl, _, rfl, rfl, rfl, ?_, rfl, rfl⟩
  unfold getGenesisGenerateTxSignature at hsign
  split at hsign
  · cases hsign
    rfl
  · cases hsign

section Genesis

variable [Engine]

theorem registerPubKey_zero {rec : Recorder} {tx : FullTx} (h : tx.envelopeScheme = 0) :
    registerPubKey rec tx = pure () := by
  have hsize : pubKeySize 0 = 0 := by decide
  simp only [registerPubKey, h, hsize, true_or, or_true, if_true]

/-- A mint of height zero is not verified: it credits its recipient. -/
theorem exec_handleGenerate_of_height_zero {rec : Recorder} {tx : FullTx} (hheight : tx.height = 0)
    (hscheme : tx.envelopeScheme = 0) (s : State) :
    (handleGenerate rec tx).exec s =
      .ok ((), s.setBalance rec tx.toAddr (s.getBalance tx.toAddr + tx.value)) := by
  have hverified : (verifySigned rec tx).exec s = .ok ((), s) := by
    unfold verifySigned
    rw [registerPubKey_zero hscheme]
    simp [FullTx.verify, hheight, Except.map]
  have hwhen : (StateTxn.when (tx.sign ≠ []) (verifySigned rec tx)).exec s = .ok ((), s) := by
    unfold StateTxn.when
    split
    · exact hverified
    · rfl
  unfold handleGenerate
  rw [StateTxn.exec_bind, hwhen]
  rfl

/-- **The genesis state**: one balance, the reward of height zero at the genesis address. -/
theorem State.initStateFromGenesis_eq {cfg : Config} {g : FullBlock}
    (hg : getGenesisBlock cfg.network = .ok g) :
    State.initStateFromGenesis cfg =
      .ok { State.empty.setBalance (cfg.recorder 0) genesisAddress (getBlockReward 0) with
        applied := [g] } := by
  obtain ⟨hcommits, hheight, tx, htxs, htype, hzero, hscheme, hto, hvalue⟩ := getGenesisBlock_ok hg
  have hbal : State.empty.getBalance genesisAddress = 0 := rfl
  have hbeacon : updateBeacon (cfg.recorder 0) g = pure () := by
    unfold updateBeacon
    rw [if_pos (.inr hheight)]
  have htx : (handleTx cfg (cfg.recorder 0) g.header.timestamp maxBlockGas tx).exec State.empty =
      .ok (maxBlockGas, State.empty.setBalance (cfg.recorder 0) genesisAddress (getBlockReward 0)) := by
    unfold handleTx
    rw [if_pos htype, StateTxn.exec_bind, exec_handleGenerate_of_height_zero hzero hscheme, hto, hvalue, hbal]
    simp
  have hcommit : (handleCommits (cfg.recorder 0) g).exec State.empty = .ok ((), State.empty) := by
    unfold handleCommits
    rw [hcommits]
    rfl
  have hall : (handleTxs cfg (cfg.recorder 0) g.header.timestamp g.txs).exec State.empty =
      .ok (maxBlockGas, State.empty.setBalance (cfg.recorder 0) genesisAddress (getBlockReward 0)) := by
    unfold handleTxs
    rw [htxs, List.foldlM_cons]
    exact StateTxn.exec_bind_ok.mpr ⟨_, _, htx, rfl⟩
  have hrun : (upgrade cfg g).exec State.empty =
      .ok ((), { State.empty.setBalance (cfg.recorder 0) genesisAddress (getBlockReward 0) with
        applied := [g] }) := by
    unfold upgrade
    rw [hheight]
    refine StateTxn.exec_bind_ok.mpr ⟨_, _, hcommit, StateTxn.exec_bind_ok.mpr ⟨_, _, hall, ?_⟩⟩
    refine StateTxn.exec_bind_ok.mpr ⟨(), _, by rw [hbeacon]; rfl, ?_⟩
    exact StateTxn.exec_bind_ok.mpr ⟨(), _, rfl, rfl⟩
  unfold State.initStateFromGenesis
  refine bind_eq_ok.mpr ⟨g, hg, bind_eq_ok.mpr ⟨_, hrun, rfl⟩⟩
end Genesis
end NgCore
