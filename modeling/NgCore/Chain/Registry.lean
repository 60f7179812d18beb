/-
# NgCore.Chain.Registry — the sender of an envelope

`Verify` and `From` take the same envelope bytes apart, each on its own: the one to find a key and check a signature
under it, the other to name the sender. `FullTx.envelope_of_verify` and `Commitment.envelope_of_verify` say that they
cannot disagree, for any envelope form, scheme and resolver: the sender is the address of the very key the signature
holds under.

Compact envelopes are resolved through the key registry, which earlier full envelopes filled. Its entries are written
under the address of what they hold and by nothing else, and an unwind puts back older entries only, so every entry of
every state that blocks make of a fresh database hashes to the address it stands under.

DELIVERABLE: `sender_bound`.
-/
import NgCore.Chain.Handmade
import NgCore.State.Undo

namespace NgCore

open Lib (Bucket Txn Versioned)

/-! ## §1 — entries -/

section Entries

variable [Crypto]

/-- **`Binds a entry`** — the entry is a scheme and a key whose address is `a`. -/
def Binds (a : Address) (entry : Bytes) : Prop :=
  ∃ scheme pubKey, entry = scheme :: pubKey ∧ addressOfPubKey scheme pubKey = a

/-- **`Sound resolve`** — whatever the resolver answers hashes to the address it was asked for. -/
def PubKeyResolver.Sound (resolve : PubKeyResolver) : Prop := ∀ a entry, resolve a = some entry → Binds a entry

/-- **`State.Registered`** — so do the entries of the registry, and those its undo rows would put back. -/
structure State.Registered (s : State) : Prop where
  cur : ∀ (a : Address) (entry : Bytes), s.key.cur[a]? = some entry → Binds a entry
  old : ∀ (h : Nat) (a : Address) (entry : Bytes), s.key.cs[(h, a)]? = some (some entry) → Binds a entry

/-- **`Registers w`** — a key is registered under its own address. -/
def Write.Registers : Write → Prop
  | .registerPubKey _ a scheme pubKey => a = addressOfPubKey scheme pubKey
  | _ => True

theorem State.Registered.of_key {s s' : State} (h : s.Registered) (hkey : s'.key = s.key) : s'.Registered := by
  constructor
  · rw [hkey]
    exact h.cur
  · rw [hkey]
    exact h.old

theorem State.Registered.registerPubKey {s : State} (h : s.Registered) (rec : Recorder) (scheme : SigScheme)
    (pubKey : Bytes) :
    (s.registerPubKey rec (addressOfPubKey scheme pubKey) (scheme :: pubKey)).Registered := by
  unfold State.registerPubKey
  split
  · exact h
  · constructor
    · intro a entry hentry
      change ((s.key.record false rec (addressOfPubKey scheme pubKey) none).cur.insert _ (scheme :: pubKey))[a]? = _
        at hentry
      rw [Bucket.get_insert, Versioned.cur_record] at hentry
      split at hentry
      · next heq =>
        cases hentry
        exact ⟨scheme, pubKey, rfl, heq⟩
      · exact h.cur a entry hentry
    · intro height a entry hentry
      change (s.key.record false rec (addressOfPubKey scheme pubKey) none).cs[(height, a)]? = _ at hentry
      cases rec with
      | none => exact h.old height a entry hentry
      | some n =>
        dsimp only [Versioned.record] at hentry
        split at hentry
        · exact h.old height a entry hentry
        · -- the row that was added says that there was no entry
          rw [Bucket.get_insert] at hentry
          split at hentry
          · cases hentry
          · exact h.old height a entry hentry

theorem Write.registered_step {w : Write} (hw : w.Registers) {s : State} (h : s.Registered) :
    (w.step s).Registered := by
  cases w with
  | registerPubKey rec a scheme pubKey =>
    obtain rfl : a = addressOfPubKey scheme pubKey := hw
    exact h.registerPubKey rec scheme pubKey
  | setContract rec account =>
    rcases State.reconcileCode_eq rec account s with ⟨code, hcode⟩
    refine h.of_key ?_
    show (State.setContract rec account s).key = _
    unfold State.setContract
    rw [hcode]
    rfl
  | delContract rec a =>
    rcases State.releaseSlot_eq rec a s with ⟨code, hcode⟩
    refine h.of_key ?_
    show (State.delContract rec a s).key = _
    unfold State.delContract
    rw [hcode]
    rfl
  | pruneCommits tip =>
    refine h.of_key ?_
    show (State.pruneCommits tip s).key = _
    unfold State.pruneCommits
    split
    · rfl
    · exact congrArg Stores.key (State.stores_dropCommits _ s)
  | setBalance | setBeacon | putCommit | consumeCommit | journalConsumed | notes | apply => exact h.of_key rfl

theorem State.Registered.unwindHeight {s : State} (h : s.Registered) (height : Nat) :
    (s.unwindHeight height).Registered := by
  have hkey := State.key_unwindHeight height s
  constructor
  · intro a entry hentry
    rw [hkey, Versioned.cur_revert] at hentry
    cases hrow : s.key.cs[(height, a)]? with
    | some o =>
      rw [hrow] at hentry
      obtain rfl : o = some entry := hentry
      exact h.old height a entry hrow
    | none =>
      rw [hrow] at hentry
      exact h.cur a entry hentry
  · intro height' a entry hentry
    rw [hkey] at hentry
    exact h.old height' a entry (Versioned.cs_of_cs_revert hentry)

end Entries

/-! ## §2 — blocks -/

section Blocks

variable [Engine] {cfg : Config} {s s' : State} {block : FullBlock}

/-- What a block writes registers keys under their own addresses. -/
theorem writes_upgrade_registers : (upgrade cfg block).Writes (fun _ => True) Write.Registers := by
  have hφ : Write.Admits Write.Registers (cfg.recorder block.getHeight) (fun _ => True) fun _ => True := {
    setBalance := fun _ _ => trivial
    setContract := fun _ _ => trivial
    delContract := fun _ => trivial
    registerPubKey := fun _ _ => rfl
    notes := fun _ _ => trivial
    setBeacon := fun _ => trivial
    putCommit := fun _ _ _ => trivial
    consumeCommit := fun _ _ => trivial
    journalConsumed := fun _ _ _ _ => trivial
    pruneCommits := fun _ => trivial }
  exact writes_upgrade_of_admits walks_any cfg hφ (fun _ _ _ _ _ => trivial) trivial

theorem State.Registered.upgrade (h : s.Registered) (hrun : (upgrade cfg block).exec s = .ok ((), s')) :
    s'.Registered :=
  Txn.run_preserves (I := State.Registered) (fun _ _ => trivial) (fun _ _ hw ht => Write.registered_step hw ht)
    writes_upgrade_registers hrun h

end Blocks

/-! ## §3 — the states that blocks make -/

section States

variable [Engine] (cfg : Config)

/-- **`State.FromBlocks`** — the states that blocks make of a fresh database: applications of any block that applies,
unwinds of any height and resets, in any order. No state comes from elsewhere. -/
inductive State.FromBlocks : State → Prop
  | genesis {s : State} : State.initStateFromGenesis cfg = .ok s → FromBlocks s
  | upgrade {s s' : State} {block : FullBlock} : FromBlocks s → (upgrade cfg block).exec s = .ok ((), s') →
      FromBlocks s'
  | unwind {s : State} (h : Nat) : FromBlocks s → FromBlocks (s.unwindHeight h)
  | reset (s : State) : FromBlocks (s.rebuildFromSheet State.getGenesisSheet)

variable {cfg} {s : State}

theorem State.FromBlocks.unwindHeights (h : State.FromBlocks cfg s) (target depth : Nat) :
    State.FromBlocks cfg (s.unwindHeights target depth) := by
  induction depth generalizing s with
  | zero => exact h
  | succ depth ih => exact ih (h.unwind _)

theorem State.fromBlocks_ledger : Ledger.Agrees (State.FromBlocks cfg) (ledger cfg) (ledger cfg) where
  archive := rfl
  isGenesis := rfl
  checkBlockTxs := rfl
  unwindTo := rfl
  reset := rfl
  upgrade _ _ _ := rfl
  upgraded _ _ _ hs hok := hs.upgrade (ledger_upgrade_eq_ok hok).1
  unwound tip target s s' hs hok := by
    change State.unwindTo cfg tip target s = some s' at hok
    unfold State.unwindTo at hok
    split at hok
    · cases hok
    · split at hok
      · cases hok
        exact hs
      · split at hok
        · cases hok
        · cases hok
          exact hs.unwindHeights _ _
  seeded s := .reset s

/-- **Every node's state is one of them**, whatever calls it went through. -/
theorem Node.Reachable.fromBlocks {H : Set BlockHeader} {n : Node State} (h : Node.Reachable cfg H n) :
    State.FromBlocks cfg n.state := by
  have hagree : Ledger.Agrees (State.FromBlocks cfg) (ledger cfg) (ledger cfg) := State.fromBlocks_ledger
  induction h with
  | genesis hgenesis =>
    rcases bind_eq_ok.mp hgenesis with ⟨g, _, hgenesis⟩
    rcases bind_eq_ok.mp hgenesis with ⟨s, hs, hgenesis⟩
    obtain rfl := pure_eq_ok.mp hgenesis
    exact .genesis hs
  | @applyBlock n now block _ _ ih =>
    cases hcall : n.applyBlock (ledger cfg) now block with
    | error e => exact ih
    | ok n' => exact (hagree.applyBlock now block ih).2 n' hcall
  | @switchToBranch n now branch _ _ ih =>
    cases hcall : n.switchToBranch (ledger cfg) now branch with
    | error e => exact ih
    | ok n' =>
      rcases Node.switchToBranch_eq_ok hcall with ⟨_, _, _, _, _, _, _, store, _, _, _, _, _, _, _, hswitch⟩
      exact (hagree.switchToBranchTxn branch (n := ⟨store, n.state⟩) ih).2 n' hswitch

theorem State.FromBlocks.registered (h : State.FromBlocks cfg s) : s.Registered := by
  have hempty : ∀ t : State, t.key = .empty → t.Registered := by
    intro t hkey
    constructor
    · intro a entry hentry
      rw [hkey] at hentry
      simp [Versioned.empty] at hentry
    · intro height a entry hentry
      rw [hkey] at hentry
      simp [Versioned.empty] at hentry
  induction h with
  | genesis hinit =>
    rcases bind_eq_ok.mp hinit with ⟨g, _, hinit⟩
    rcases bind_eq_ok.mp hinit with ⟨⟨_, t⟩, hrun, hinit⟩
    obtain rfl := pure_eq_ok.mp hinit
    exact (hempty _ rfl).upgrade hrun
  | upgrade _ hrun ih => exact ih.upgrade hrun
  | unwind height _ ih => exact ih.unwindHeight height
  | reset s => exact hempty _ (congrArg Stores.key (State.stores_rebuildFromGenesisSheet s))

/-- **The sender is the signer**: where `Verify` succeeds, `From` names the address of the scheme and key the signature
was verified under, for transactions past height zero and for commitments, whatever the envelope form and the
resolver; and the registry of every state that blocks make resolves an address to a key of that address only. -/
theorem sender_bound (h : State.FromBlocks cfg s) :
    (∀ (tx : FullTx) (lookup : Option PubKeyResolver), tx.height ≠ 0 → tx.verify lookup = .ok () →
      ∃ e, splitEnvelope .txUnsigned .txSignInvalid tx.signingHash.val lookup tx.sign = .ok e ∧
        verifyHashSig e.scheme e.pubKey tx.signingHash.val e.sig = true ∧
        tx.fromAddr = .ok (addressOfPubKey e.scheme e.pubKey)) ∧
    (∀ (c : Commitment) (lookup : Option PubKeyResolver), c.verify lookup = .ok () →
      ∃ e, splitEnvelope .commitUnsigned .commitSignInvalid c.signingHash.val lookup c.sign = .ok e ∧
        verifyHashSig e.scheme e.pubKey c.signingHash.val e.sig = true ∧
        c.fromAddr = .ok (addressOfPubKey e.scheme e.pubKey)) ∧
    s.view.keyResolver.Sound := by
  refine ⟨fun tx lookup hheight hverify => FullTx.envelope_of_verify hverify hheight,
    fun c lookup hverify => Commitment.envelope_of_verify hverify, ?_⟩
  exact h.registered.cur

end States

/-- A mint under the full envelope of a hand-made key. -/
def handRevealed [Crypto] (i : UInt8) (height : Nat) : FullTx :=
  handSignFull i (handMint height (handAddr i) (getBlockReward height))

/-- A state whose registry has an entry, which binds its address. -/
theorem sender_bound_handRevealed :
    letI := Engine.bare
    ∃ (s : State) (entry : Bytes), s.view.keyResolver (handAddr 1) = some entry ∧ Binds (handAddr 1) entry := by
  let _ := Engine.bare
  let cfg : Config := ⟨ZERONET, true⟩
  have hrun : (upgrade cfg (handBlock 1 [handRevealed 1 1] [])).exec (State.genesis true) = .ok ((), State.after _) :=
    State.eq_after (by decide +kernel)
  have hs := (State.FromBlocks.genesis (State.genesis_eq true)).upgrade hrun
  have hentry : (State.after ((upgrade cfg (handBlock 1 [handRevealed 1 1] [])).exec
      (State.genesis true))).view.keyResolver (handAddr 1) = some (schemeSecp256k1 :: handKey 1) := by decide +kernel
  exact ⟨_, _, hentry, (sender_bound hs).2.2 _ _ hentry⟩

end NgCore
