/-
# NgCore.State.Restore — a state restored from its own sheet

`DumpSheetAt` followed by `RebuildFromSheetTxn`. The sheet has rows for balances, contracts with their code, keys and
the beacon; it has none for the pending commitments, which the state root covers like the rest. A restored state has
lost its undo rows, its history and its spare modules too, but those nothing on the way of a block reads: states that
are ALIKE in their current buckets and their tree take the same blocks, and stay alike.

DELIVERABLES: `Operated.restored_iff` — a state is restored, and goes on as before, exactly when nothing was pending;
`restored_without_commits`, a checkpoint that is not.
-/
import NgCore.State.Attribution
import NgCore.State.Immutable
import NgCore.State.Snapshot
import NgCore.Chain.Handmade

namespace NgCore

open Lib (Bucket Txn Versioned)

/-! ## §1 — states that are alike -/

namespace State

/-- **`Alike s t`** — the current buckets and the tree are the same; rows, history, code store and trail are not
compared. -/
structure Alike (s t : State) : Prop where
  bal : s.bal.cur = t.bal.cur
  contract : s.contract.cur = t.contract.cur
  key : s.key.cur = t.key.cur
  commit : s.commit = t.commit
  beacon : s.beacon.cur = t.beacon.cur
  trie : s.trie = t.trie

theorem cur_write_eq {K V : Type} [Ord K] [Std.TransOrd K] [Std.LawfulEqOrd K] [DecidableEq K] (indexed : Bool)
    (rec : Recorder) (k : K) (o : Option V) (d : Versioned K V) :
    (d.write indexed rec k o).cur = Bucket.set d.cur k o := by
  show Bucket.set (d.record indexed rec k d.cur[k]?).cur k o = _
  rw [Versioned.cur_record]

section Steps

variable [Crypto] {s t : State}

theorem Alike.setLeaf (h : Alike s t) (k : LeafKey) (vh : Bytes32) : Alike (s.setLeaf k vh) (t.setLeaf k vh) :=
  ⟨h.bal, h.contract, h.key, h.commit, h.beacon, congrArg (Statetrie.update · k.path vh) h.trie⟩

theorem Alike.consumeCommit (h : Alike s t) (height : Nat) (hash : Bytes32) :
    Alike (s.consumeCommit height hash) (t.consumeCommit height hash) := by
  show Alike (State.setLeaf _ _ _) (State.setLeaf _ _ _)
  refine Alike.setLeaf ?_ _ _
  refine ⟨h.bal, h.contract, h.key, ?_, h.beacon, h.trie⟩
  show s.commit.erase _ = t.commit.erase _
  rw [h.commit]

theorem Alike.dropCommits (h : Alike s t) (p : Nat → Bool) : Alike (s.dropCommits p) (t.dropCommits p) := by
  unfold State.dropCommits
  rw [h.commit]
  induction t.commit.toList.filter (fun e => p e.1.1) generalizing s t with
  | nil => exact h
  | cons e l ih => exact ih (h.consumeCommit e.1.1 e.1.2)

theorem Alike.contractSlot (h : Alike s t) {c c' : Versioned Address StoredContract} (hc : c.cur = c'.cur)
    {code code' : Bucket Bytes32 (Nat × Bytes)} (log log' : List Note) (k : LeafKey) (vh : Bytes32) :
    Alike (State.setLeaf k vh { s with contract := c, code := code, log := log })
      (State.setLeaf k vh { t with contract := c', code := code', log := log' }) := by
  refine Alike.setLeaf ?_ k vh
  exact ⟨h.bal, hc, h.key, h.commit, h.beacon, h.trie⟩

/-- **Every write keeps states alike.** -/
theorem Alike.step (h : Alike s t) (w : Write) : Alike (w.step s) (w.step t) := by
  cases w with
  | setBalance rec a v =>
    show Alike (State.setLeaf _ _ _) (State.setLeaf _ _ _)
    refine Alike.setLeaf ?_ _ _
    refine ⟨?_, h.contract, h.key, h.commit, h.beacon, h.trie⟩
    rw [cur_write_eq, cur_write_eq, h.bal]
  | setContract rec account =>
    show Alike (s.setContract rec account) (t.setContract rec account)
    obtain ⟨code, hcode⟩ := reconcileCode_eq rec account s
    obtain ⟨code', hcode'⟩ := reconcileCode_eq rec account t
    unfold State.setContract
    simp only [hcode, hcode']
    refine h.contractSlot ?_ _ _ _ _
    rw [cur_write_eq, cur_write_eq, h.contract]
  | delContract rec a =>
    show Alike (s.delContract rec a) (t.delContract rec a)
    obtain ⟨code, hcode⟩ := releaseSlot_eq rec a s
    obtain ⟨code', hcode'⟩ := releaseSlot_eq rec a t
    unfold State.delContract
    simp only [hcode, hcode']
    refine h.contractSlot ?_ _ _ _ _
    rw [cur_write_eq, cur_write_eq, h.contract]
  | registerPubKey rec a scheme pubKey =>
    show Alike (s.registerPubKey rec a (scheme :: pubKey)) (t.registerPubKey rec a (scheme :: pubKey))
    unfold State.registerPubKey
    rw [h.key]
    split
    · exact h
    · show Alike (State.setLeaf _ _ _) (State.setLeaf _ _ _)
      refine Alike.setLeaf ?_ _ _
      refine ⟨h.bal, h.contract, ?_, h.commit, h.beacon, h.trie⟩
      simp only [Versioned.cur_record, h.key]
  | setBeacon rec seed =>
    show Alike (State.setLeaf _ _ _) (State.setLeaf _ _ _)
    refine Alike.setLeaf ?_ _ _
    refine ⟨h.bal, h.contract, h.key, h.commit, ?_, h.trie⟩
    rw [cur_write_eq, cur_write_eq, h.beacon]
  | putCommit height hash a =>
    show Alike (State.setLeaf _ _ _) (State.setLeaf _ _ _)
    refine Alike.setLeaf ?_ _ _
    refine ⟨h.bal, h.contract, h.key, ?_, h.beacon, h.trie⟩
    show s.commit.insert _ _ = t.commit.insert _ _
    rw [h.commit]
  | consumeCommit height hash => exact h.consumeCommit height hash
  | pruneCommits tip =>
    show Alike (s.pruneCommits tip) (t.pruneCommits tip)
    unfold State.pruneCommits
    split
    · exact h
    · have hdrop := h.dropCommits fun height => height < tip - commitWindow
      exact ⟨hdrop.bal, hdrop.contract, hdrop.key, hdrop.commit, hdrop.beacon, hdrop.trie⟩
  | journalConsumed | notes | apply => exact ⟨h.bal, h.contract, h.key, h.commit, h.beacon, h.trie⟩

end Steps

end State

/-! ## §2 — they take the same blocks -/

section Blocks

variable [Engine] {cfg : Config} {C : Set Bytes} {s t s' : State} {block : FullBlock} {blocks : List FullBlock}

/-- The module of a slot is stored, and hashes to what the slot names. -/
theorem State.Sheltered.stored (h : s.Sheltered cfg) {a : Address} {sc : StoredContract}
    (hsc : s.contract.cur[a]? = some sc) : ∃ e, s.code[sc.codeHash]? = some e ∧ hash256 e.2 = sc.codeHash := by
  have hstored : s.code[sc.codeHash]? ≠ none := by
    cases harchive : cfg.archive with
    | true => exact (h.coded harchive).cur a sc hsc
    | false => exact (h.counted harchive).stored hsc
  obtain ⟨e, he⟩ := Option.ne_none_iff_exists'.mp hstored
  exact ⟨e, he, h.genuine _ _ he⟩

/-- **`Twins cfg C s t`** — alike, and both resolve every slot to code of `C`. -/
structure State.Twins (cfg : Config) (C : Set Bytes) (s t : State) : Prop where
  alike : s.Alike t
  sheltered : s.Sheltered cfg ∧ t.Sheltered cfg
  codes : s.Codes (· ∈ C) ∧ t.Codes (· ∈ C)
  housed : s.Housed ∧ t.Housed

theorem State.Twins.symm (h : s.Twins cfg C t) : t.Twins cfg C s :=
  ⟨⟨h.alike.bal.symm, h.alike.contract.symm, h.alike.key.symm, h.alike.commit.symm, h.alike.beacon.symm,
    h.alike.trie.symm⟩, h.sheltered.symm, h.codes.symm, h.housed.symm⟩

/-- Code of `C` is told apart by its hash, so twins look the same. -/
theorem State.Twins.view_eq (hC : Set.InjOn hash256 C) (h : s.Twins cfg C t) : s.view = t.view := by
  have hcontract : s.getContract = t.getContract := by
    funext a
    unfold State.getContract
    rw [← h.alike.contract]
    cases hsc : s.contract.cur[a]? with
    | none => rfl
    | some sc =>
      obtain ⟨e, he, hhash⟩ := h.sheltered.1.stored hsc
      obtain ⟨e', he', hhash'⟩ := h.sheltered.2.stored (h.alike.contract ▸ hsc)
      have hsame := hC (h.codes.1 _ _ he) (h.codes.2 _ _ he') (hhash.trans hhash'.symm)
      simp only [Option.map_some, State.decodeStoredContract, State.loadCode, he, he', Option.elim_some, hsame]
  unfold State.view
  rw [hcontract, h.alike.key, h.alike.commit, h.alike.beacon]
  unfold State.getBalance
  rw [h.alike.bal]

theorem State.Twins.allowed (h : s.Twins cfg C t) : s.view.Allowed (· ∈ C) := by
  intro a account hacc
  refine ⟨?_, h.housed.1.owner hacc⟩
  obtain ⟨sc, hsc, rfl⟩ := Option.map_eq_some_iff.mp hacc
  obtain ⟨e, he, _⟩ := h.sheltered.1.stored hsc
  show s.loadCode sc.codeHash ∈ C
  rw [State.loadCode, he]
  exact h.codes.1 _ _ he

/-- Where the code of the view is allowed, and nothing else is asked. -/
theorem walks_allowed (p : Bytes → Prop) : Walks (View.Allowed p) p fun _ => True :=
  ⟨fun _ a account hv hacc => (hv a account hacc).1, fun _ _ _ _ _ _ _ _ _ => trivial,
    fun _ _ _ _ _ _ _ _ _ _ _ _ => trivial, trivial⟩

/-- **One block, one verdict**: twins take a block or refuse it for the same reason, and stay twins. -/
theorem State.Twins.upgrade (hC : Set.InjOn hash256 C) (hblock : ∀ tx ∈ block.txs, tx.Deploys (· ∈ C))
    (h : s.Twins cfg C t) :
    Txn.Agree (State.Twins cfg C) ((NgCore.upgrade cfg block).exec s) ((NgCore.upgrade cfg block).exec t) := by
  refine Txn.run_agree (fun s t h => ⟨h.view_eq hC, h.allowed⟩) (fun w s t hw h => ?_)
    (writes_upgrade (walks_allowed (· ∈ C)) cfg hblock) h
  exact ⟨h.alike.step w, ⟨h.sheltered.1.step hw, h.sheltered.2.step hw⟩,
    ⟨w.codes_step hw h.codes.1, w.codes_step hw h.codes.2⟩,
    ⟨w.housed_step h.housed.1, w.housed_step h.housed.2⟩⟩

/-- A block the way the import paths apply it: what one twin takes, the other takes. -/
theorem State.Twins.applyChecked (hC : Set.InjOn hash256 C) (hblock : ∀ tx ∈ block.txs, tx.Deploys (· ∈ C))
    (h : s.Twins cfg C t) (hok : State.applyChecked cfg block s = .ok s') :
    ∃ t', State.applyChecked cfg block t = .ok t' ∧ s'.Twins cfg C t' := by
  obtain ⟨genesis, hgenesis, hcheck, hrun, hroot⟩ := State.applyChecked_eq_ok hok
  have hagree := h.upgrade hC hblock
  rw [hrun] at hagree
  cases hrun' : (NgCore.upgrade cfg block).exec t with
  | error e => rw [hrun'] at hagree; exact hagree.elim
  | ok r =>
    obtain ⟨u, t'⟩ := r
    rw [hrun'] at hagree
    have htwins : s'.Twins cfg C t' := hagree.2
    have hroot' : t'.stateRoot.val = block.header.stateRoot :=
      (congrArg (fun trie => (Statetrie.root trie).val) htwins.alike.trie).symm.trans hroot
    refine ⟨t', ?_, htwins⟩
    unfold State.applyChecked
    refine bind_eq_ok.mpr ⟨genesis, hgenesis, ?_⟩
    have hrest : ((NgCore.upgrade cfg block).exec t >>= fun r => do
        State.checkStateRoot block.header.stateRoot r.2
        return r.2) = .ok t' :=
      bind_eq_ok.mpr ⟨(u, t'), hrun', bind_eq_ok.mpr ⟨(), ensure_eq_ok.mpr hroot', rfl⟩⟩
    cases genesis with
    | true => exact hrest
    | false => exact bind_eq_ok.mpr ⟨(), h.view_eq hC ▸ hcheck rfl, hrest⟩

theorem State.Twins.applyBlocks (hC : Set.InjOn hash256 C)
    (hblocks : ∀ b ∈ blocks, ∀ tx ∈ b.txs, tx.Deploys (· ∈ C)) (h : s.Twins cfg C t)
    (hok : State.applyBlocks cfg blocks s = .ok s') :
    ∃ t', State.applyBlocks cfg blocks t = .ok t' ∧ s'.Twins cfg C t' := by
  induction blocks generalizing s t with
  | nil =>
    obtain rfl := pure_eq_ok.mp hok
    exact ⟨t, rfl, h⟩
  | cons b blocks ih =>
    unfold State.applyBlocks at hok
    rw [List.foldlM_cons] at hok
    obtain ⟨s₁, hb, hok⟩ := bind_eq_ok.mp hok
    obtain ⟨t₁, hb', h₁⟩ := h.applyChecked hC (hblocks b List.mem_cons_self) hb
    obtain ⟨t', hok', h'⟩ := ih (fun c hc => hblocks c (List.mem_cons_of_mem _ hc)) h₁ hok
    exact ⟨t', bind_eq_ok.mpr ⟨t₁, hb', hok'⟩, h'⟩

end Blocks

/-! ## §3 — the sheet and back -/

theorem foldl_insert_toList {K V : Type} [Ord K] [Std.TransOrd K] [Std.LawfulEqOrd K] [DecidableEq K]
    (b : Bucket K V) : b.toList.foldl (fun c e => c.insert e.1 e.2) ∅ = b := by
  refine Bucket.ext_get fun a => ?_
  obtain ⟨hother, hrow⟩ := Bucket.get_foldl_insert Prod.fst Prod.snd b.toList ∅ a
  by_cases ha : a ∈ b.toList.map Prod.fst
  · obtain ⟨e, he, rfl, hget⟩ := hrow ha
    rw [hget, (Bucket.mem_toList_iff b e.1 e.2).mp he]
  · rw [hother ha]
    cases hb : b[a]? with
    | none => simp
    | some v => exact absurd (List.mem_map_of_mem ((Bucket.mem_toList_iff b a v).mpr hb)) ha

namespace State

section Sheets

variable [Crypto] {s : State}

/-- **`restored`** — the state, dumped and read back. -/
def restored (s : State) : State := s.rebuildFromSheet s.rows

theorem foldl_setContract_frame (l : List Contract) (s : State) :
    (l.foldl (fun s account => s.setContract none account) s).bal = s.bal ∧
      (l.foldl (fun s account => s.setContract none account) s).key = s.key ∧
      (l.foldl (fun s account => s.setContract none account) s).beacon = s.beacon ∧
      (l.foldl (fun s account => s.setContract none account) s).commit = s.commit := by
  induction l generalizing s with
  | nil => exact ⟨rfl, rfl, rfl, rfl⟩
  | cons account l ih =>
    obtain ⟨code, hcode⟩ := reconcileCode_eq none account s
    obtain ⟨hbal, hkey, hbeacon, hcommit⟩ := ih (s.setContract none account)
    rw [List.foldl_cons, hbal, hkey, hbeacon, hcommit]
    unfold State.setContract
    simp only [hcode]
    exact ⟨rfl, rfl, rfl, rfl⟩

theorem rebuildTrie_frame (s : State) : s.rebuildTrie.bal = s.bal ∧ s.rebuildTrie.contract = s.contract ∧
    s.rebuildTrie.key = s.key ∧ s.rebuildTrie.beacon = s.beacon ∧ s.rebuildTrie.commit = s.commit := by
  obtain ⟨trie, log, heq⟩ := exists_rebuildTrie_eq s
  rw [heq]
  exact ⟨rfl, rfl, rfl, rfl, rfl⟩

/-- Slots that name their address and the hash of their code are stored as they were. -/
theorem cur_foldl_setContract {l : List (Address × StoredContract)}
    (hl : ∀ e ∈ l, e.2.owner = e.1 ∧ hash256 (s.loadCode e.2.codeHash) = e.2.codeHash) (t : State) :
    ((l.map fun e => s.decodeStoredContract e.2).foldl (fun t account => t.setContract none account) t).contract.cur =
      l.foldl (fun c e => c.insert e.1 e.2) t.contract.cur := by
  induction l generalizing t with
  | nil => rfl
  | cons e l ih =>
    obtain ⟨⟨howner, hhash⟩, hl⟩ := List.forall_mem_cons.mp hl
    rw [List.map_cons, List.foldl_cons, List.foldl_cons, ih hl, cur_setContract]
    simp only [decodeStoredContract, hhash, howner]
    rw [← howner]

theorem commit_restored (s : State) : s.restored.commit = ∅ := by
  unfold restored rebuildFromSheet
  rw [(rebuildTrie_frame _).2.2.2.2]
  exact (foldl_setContract_frame s.rows.contracts s.resetBuckets).2.2.2

/-- **Everything else is back.** -/
theorem restored_frame (hhoused : s.Housed) (hseed : ∀ b, s.beacon.cur[()]? = some b → b ≠ [])
    (hstored : ∀ (a : Address) (sc : StoredContract), s.contract.cur[a]? = some sc →
      hash256 (s.loadCode sc.codeHash) = sc.codeHash) :
    s.restored.bal.cur = s.bal.cur ∧ s.restored.contract.cur = s.contract.cur ∧ s.restored.key.cur = s.key.cur ∧
      s.restored.beacon.cur = s.beacon.cur := by
  obtain ⟨hbal, hkey, hbeacon, _⟩ := foldl_setContract_frame s.rows.contracts s.resetBuckets
  obtain ⟨hbal', hcontract', hkey', hbeacon', _⟩ := rebuildTrie_frame (s.resetBuckets.initFromSheet s.rows)
  unfold restored rebuildFromSheet
  rw [hbal', hcontract', hkey', hbeacon']
  refine ⟨?_, ?_, ?_, ?_⟩
  · show s.rows.balances.foldl _ _ = _
    rw [hbal]
    exact foldl_insert_toList s.bal.cur
  · refine (cur_foldl_setContract (fun e he => ?_) s.resetBuckets).trans (foldl_insert_toList s.contract.cur)
    have hmem := (Bucket.mem_toList_iff _ _ _).mp he
    exact ⟨hhoused.cur e.1 e.2 hmem, hstored e.1 e.2 hmem⟩
  · show s.rows.keys.foldl _ _ = _
    rw [hkey]
    exact foldl_insert_toList s.key.cur
  · show (if s.rows.beacon = [] then _ else Std.ExtTreeMap.insert _ () s.rows.beacon) = _
    rw [hbeacon]
    refine Bucket.ext_get fun u => ?_
    unfold rows
    cases hb : s.beacon.cur[()]? with
    | none => simp [resetBuckets, State.empty, Versioned.empty]
    | some seed =>
      rw [Option.getD_some, if_neg (hseed seed hb), Bucket.get_insert, if_pos rfl]

end Sheets

section Restores

variable [Engine] {cfg : Config} {C : Set Bytes} {s : State}

/-- **`Restores cfg C s`** — the restored state has every committed domain, the root, and takes the same next blocks
(with code of `C`). -/
structure Restores (cfg : Config) (C : Set Bytes) (s : State) : Prop where
  bal : s.restored.bal.cur = s.bal.cur
  contract : s.restored.getContract = s.getContract
  key : s.restored.key.cur = s.key.cur
  commit : s.restored.commit = s.commit
  beacon : s.restored.beacon.cur = s.beacon.cur
  root : s.restored.stateRoot = s.stateRoot
  next : ∀ blocks : List FullBlock, (∀ b ∈ blocks, ∀ tx ∈ b.txs, tx.Deploys (· ∈ C)) →
    ((∃ t, applyBlocks cfg blocks s.restored = .ok t) ↔ ∃ t, applyBlocks cfg blocks s = .ok t)

theorem Operated.twins (hs : Operated cfg s) (hpaths : Set.InjOn LeafKey.path s.restored.touched)
    (hcodes : s.Codes (· ∈ C)) (hnone : s.commit = ∅) : s.Twins cfg C s.restored := by
  have hreached := hs.reached
  have hrestored : Operated cfg s.restored := hs.sheet s.rows
  have hstep := hreached.inStep hpaths (follows_rebuildFromSheet hpaths s.rows s).1
  have hstep' := hrestored.reached.inStep hpaths subset_rfl
  have hstored : ∀ (a : Address) (sc : StoredContract), s.contract.cur[a]? = some sc →
      hash256 (s.loadCode sc.codeHash) = sc.codeHash := by
    intro a sc hsc
    obtain ⟨e, he, hhash⟩ := hs.sheltered.stored hsc
    rw [loadCode, he]
    exact hhash
  obtain ⟨hbal, hcontract, hkey, hbeacon⟩ := restored_frame hreached.housed hstep.seed hstored
  have hcommit : s.restored.commit = s.commit := (commit_restored s).trans hnone.symm
  -- the trees are those of the same entries
  have hentry : s.restored.entry = s.entry := by
    funext k
    cases k <;> simp only [entry, hbal, hcontract, hkey, hbeacon, hcommit]
  have htrie := hstep.tracks.unique (hentry ▸ hstep'.tracks)
  refine ⟨⟨hbal.symm, hcontract.symm, hkey.symm, hcommit.symm, hbeacon.symm, htrie⟩,
    ⟨hs.sheltered, hrestored.sheltered⟩, ⟨hcodes, codes_rebuildFromSheet ?_ s⟩,
    ⟨hreached.housed, hrestored.reached.housed⟩⟩
  intro account hmem
  obtain ⟨e, he, rfl⟩ := List.mem_map.mp hmem
  obtain ⟨m, hm, _⟩ := hs.sheltered.stored ((Bucket.mem_toList_iff _ _ _).mp he)
  show s.loadCode e.2.codeHash ∈ C
  rw [loadCode, hm]
  exact hcodes _ _ hm

/-- **A state survives its own sheet exactly when nothing is pending.** -/
theorem Operated.restored_iff (hs : Operated cfg s) (hpaths : Set.InjOn LeafKey.path s.restored.touched)
    (hC : Set.InjOn hash256 C) (hcodes : s.Codes (· ∈ C)) : s.Restores cfg C ↔ s.commit = ∅ := by
  refine ⟨fun h => h.commit.symm.trans (commit_restored s), fun hnone => ?_⟩
  have htwins := hs.twins hpaths hcodes hnone
  have hview := htwins.view_eq hC
  refine ⟨htwins.alike.bal.symm, (congrArg View.contract hview).symm, htwins.alike.key.symm, htwins.alike.commit.symm,
    htwins.alike.beacon.symm, congrArg Statetrie.root htwins.alike.trie.symm, fun blocks hblocks => ⟨?_, ?_⟩⟩
  · rintro ⟨t, ht⟩
    obtain ⟨t', ht', _⟩ := htwins.symm.applyBlocks hC hblocks ht
    exact ⟨t', ht'⟩
  · rintro ⟨t, ht⟩
    obtain ⟨t', ht', _⟩ := htwins.applyBlocks hC hblocks ht
    exact ⟨t', ht'⟩

end Restores

/-- A contract, a key and a consumed commitment survive, under a hash that keeps the leaves apart. -/
theorem restored_iff_woundChain :
    letI := Engine.ofHash foldHash idleTable
    ∃ s : State, UpgradesTo ⟨ZERONET, false⟩ (State.genesis false) (woundChain 1) s ∧
      (∃ sc, s.contract.cur[handAddr 1]? = some sc) ∧ (∃ key, s.key.cur[handAddr 1]? = some key) ∧
      (∃ e, e ∈ s.spent.toList) ∧ s.Restores ⟨ZERONET, false⟩ {idleCode} := by
  let _ := Engine.ofHash foldHash idleTable
  obtain ⟨⟨_, s⟩, hrun, htest⟩ := exists_of_okAnd
    (show okAnd (upgradeAll ⟨ZERONET, false⟩ (woundChain 1) (State.genesis false)) (fun r =>
      decide ((r.2.contract.cur[handAddr 1]?).isSome ∧ (r.2.key.cur[handAddr 1]?).isSome ∧ r.2.spent.toList ≠ [] ∧
        r.2.commit = ∅ ∧ ∀ e ∈ r.2.code.toList, e.2.2 = idleCode) && leavesApart r.2.restored.log) = true by
      decide +kernel)
  obtain ⟨hfacts, hapart⟩ := Bool.and_eq_true_iff.mp htest
  obtain ⟨hcontract, hkey, hconsumed, hnone, hcodes⟩ := of_decide_eq_true hfacts
  have hrun := upgradesTo_of_upgradeAll hrun
  have hoperated := (Operated.genesis (State.genesis_eq false)).upgradesTo hrun
  refine ⟨s, hrun, Option.isSome_iff_exists.mp hcontract, Option.isSome_iff_exists.mp hkey,
    List.exists_mem_of_ne_nil _ hconsumed, ?_⟩
  refine (hoperated.restored_iff (State.injOn_touched hapart) (Set.injOn_singleton _ _) ?_).mpr hnone
  exact fun hash e he => hcodes (hash, e) ((Bucket.mem_toList_iff _ _ _).mpr he)

end State

/-- Ten blocks; in the last, key 1 commits to a deploy. -/
def checkpointChain : List FullBlock :=
  letI := Crypto.ofHash handHash
  let l := handChain 1 9 handGenesis
  l ++ [handSeal (l.getLastD handGenesis) 1 [] [handCommit 1 10 0 (handDeploy 1 11 idleCode)]]

/-- A checkpoint with a pending commitment comes back without it. -/
theorem restored_without_commits :
    letI := Engine.bare
    ∃ n : Node State, Node.Reachable ⟨ZERONET, true⟩ {x | x ∈ (checkpointChain ++ []).map FullBlock.header} n ∧
      n.store.latestHeight = 10 ∧ ∀ C : Set Bytes, ¬ n.state.Restores ⟨ZERONET, true⟩ C := by
  let _ := Engine.bare
  obtain ⟨n, hr, _, htest⟩ := exists_reachable_byHand (fun _ => none) true checkpointChain []
    (fun n => decide (n.store.latestHeight = 10 ∧ n.state.commit ≠ ∅)) (by decide +kernel)
  obtain ⟨hheight, hpending⟩ := of_decide_eq_true htest
  exact ⟨n, hr, hheight, fun C h => hpending (h.commit.symm.trans (State.commit_restored _))⟩

end NgCore
