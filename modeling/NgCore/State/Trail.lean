/-
# NgCore.State.Trail — what reaches the trail

The trail of a state records, next to bookkeeping notes, what contract runs did and which amounts were
written to balances (`Note.traced`). Only two writes add such notes: `notes` those of a contract run,
`setBalance` the amount it writes (`Write.trail_step`). Unwinding and seeding add none.
-/
import NgCore.State.Undo

namespace NgCore

/-! ## §1 — quiet changes -/

/-- The notes that are about the protocol: acts, shortfalls, amounts. -/
def Note.traced : Note → Bool
  | .run _ | .amount _ _ => true
  | .leaf _ | .code _ => false

/-- **`Quiet s s'`** — nothing that is traced was added. -/
def State.Quiet (s s' : State) : Prop := ∀ n : Note, n.traced = true → n ∈ s'.log → n ∈ s.log

namespace State

theorem Quiet.refl (s : State) : Quiet s s := fun _ _ h => h

theorem Quiet.trans {s t u : State} (h : Quiet s t) (h' : Quiet t u) : Quiet s u :=
  fun n hn hmem => h n hn (h' n hn hmem)

theorem Quiet.foldl {A : Type} {f : State → A → State} {l : List A} (h : ∀ s a, Quiet s (f s a))
    (s : State) : Quiet s (l.foldl f s) := by
  induction l generalizing s with
  | nil => exact Quiet.refl s
  | cons a l ih =>
    rw [List.foldl_cons]
    exact (h s a).trans (ih _)

theorem Quiet.cons {s s' : State} (h : Quiet s s') {n : Note} (hn : n.traced = false) {s'' : State}
    (hlog : s''.log = n :: s'.log) : Quiet s s'' := by
  intro m hm hmem
  rw [hlog] at hmem
  rcases List.mem_cons.mp hmem with rfl | hold
  · rw [hn] at hm
    cases hm
  · exact h m hm hold

theorem Quiet.of_log {s s' : State} (h : s'.log = s.log) : Quiet s s' := by
  intro n _ hmem
  rwa [h] at hmem

variable [Crypto]

theorem quiet_trieSetLeaf (k : LeafKey) (value : Bytes) {s s₁ : State} (h : Quiet s s₁) :
    Quiet s (s₁.trieSetLeaf k value) := h.cons rfl rfl

theorem quiet_putCommit (height : Nat) (hash : Bytes32) (fromAddr : Address) (s : State) :
    Quiet s (s.putCommit height hash fromAddr) := quiet_trieSetLeaf _ _ (Quiet.of_log rfl)

theorem quiet_consumeCommit (height : Nat) (hash : Bytes32) (s : State) :
    Quiet s (s.consumeCommit height hash) := quiet_trieSetLeaf _ _ (Quiet.of_log rfl)

theorem quiet_dropCommits (p : Nat → Bool) (s : State) : Quiet s (s.dropCommits p) := by
  apply Quiet.foldl
  intro s e
  exact quiet_consumeCommit e.1.1 e.1.2 s

theorem quiet_restoreConsumed (h : Nat) (s : State) : Quiet s (s.restoreConsumedAtHeight h) := by
  apply Quiet.foldl
  intro s e
  exact (quiet_putCommit e.2.1 e.1.2 e.2.2 s).trans (Quiet.of_log rfl)

omit [Crypto] in
theorem quiet_dropApplied (h : Nat) (s : State) : Quiet s (s.dropApplied h) := Quiet.of_log rfl

theorem quiet_setContract (rec : Recorder) (account : Contract) (s : State) :
    Quiet s (s.setContract rec account) := by
  obtain ⟨code, hcode⟩ := reconcileCode_eq rec account s
  unfold setContract
  simp only [hcode]
  exact quiet_trieSetLeaf _ _ (Quiet.cons (n := .code account.source) (Quiet.refl s) rfl rfl)

theorem quiet_mirror {A V : Type} (leaf : A → LeafKey) (bytes : Option V → Bytes)
    (l : List (A × Option V)) {s s₁ : State} (h : Quiet s s₁) : Quiet s (mirror leaf bytes l s₁) :=
  h.trans (Quiet.foldl (fun s _ => quiet_trieSetLeaf _ _ (Quiet.refl s)) s₁)

theorem quiet_unwindHeight (h : Nat) (s : State) : Quiet s (s.unwindHeight h) := by
  have hbal : Quiet s (s.revertBalances h) := quiet_mirror _ _ _ (Quiet.of_log rfl)
  have hcontract : ∀ t : State, Quiet t (t.revertContracts h) :=
    fun t => quiet_mirror _ _ _ (Quiet.of_log rfl)
  have hkey : ∀ t : State, Quiet t (t.revertKeys h) := fun t => quiet_mirror _ _ _ (Quiet.of_log rfl)
  have hbeacon : ∀ t : State, Quiet t (t.revertBeacon h) :=
    fun t => quiet_mirror _ _ _ (Quiet.of_log rfl)
  refine hbal.trans ((hcontract _).trans ((hkey _).trans ?_))
  refine (quiet_dropCommits (fun h' => h' = h) _).trans ((quiet_restoreConsumed h _).trans ?_)
  exact (hbeacon _).trans (quiet_dropApplied h _)

theorem quiet_rebuildFromSheet (sheet : Sheet) (s : State) : Quiet s (s.rebuildFromSheet sheet) := by
  have hseed : Quiet s (s.resetBuckets.initFromSheet sheet) :=
    (Quiet.of_log rfl : Quiet s s.resetBuckets).trans
      ((Quiet.foldl (fun t account => quiet_setContract none account t) s.resetBuckets).trans
        (Quiet.of_log rfl))
  refine hseed.trans (Quiet.trans (Quiet.of_log rfl) (Quiet.foldl ?_ _))
  intro t e
  exact (Quiet.refl t).cons (n := .leaf e.1) rfl rfl

end State

/-! ## §2 — one write -/

/-- **What a write adds to the trail.** -/
theorem Write.trail_step [Crypto] (w : Write) (s : State) {n : Note} (hn : n.traced = true)
    (hmem : n ∈ (w.step s).log) :
    n ∈ s.log ∨ (∃ l, w = .notes l ∧ n ∈ l.map .run) ∨ ∃ rec a v, w = .setBalance rec a v ∧ n = .amount a v := by
  have hquiet : ∀ {s' : State}, State.Quiet s s' → n ∈ s'.log → n ∈ s.log := fun h hin => h n hn hin
  cases w with
  | notes l =>
    rcases List.mem_append.mp hmem with hnew | hold
    · exact .inr (.inl ⟨l, rfl, hnew⟩)
    · exact .inl hold
  | setBalance rec a v =>
    -- two notes: the leaf, which is not traced, and the amount
    rcases List.mem_cons.mp hmem with rfl | hrest
    · cases hn
    · rcases List.mem_cons.mp hrest with rfl | hold
      · exact .inr (.inr ⟨rec, a, v, rfl, rfl⟩)
      · exact .inl hold
  | setContract rec account => exact .inl (hquiet (State.quiet_setContract rec account s) hmem)
  | delContract rec a =>
    obtain ⟨code, hcode⟩ := State.releaseSlot_eq rec a s
    have hdel : State.Quiet s (s.delContract rec a) := by
      unfold State.delContract
      simp only [hcode]
      exact State.quiet_trieSetLeaf _ _ (State.Quiet.of_log rfl)
    exact .inl (hquiet hdel hmem)
  | registerPubKey rec a scheme pubKey =>
    have hreg : State.Quiet s (s.registerPubKey rec a (scheme :: pubKey)) := by
      unfold State.registerPubKey
      split
      · exact State.Quiet.refl s
      · exact State.quiet_trieSetLeaf _ _ (State.Quiet.of_log rfl)
    exact .inl (hquiet hreg hmem)
  | setBeacon rec seed =>
    have hbeacon : State.Quiet s (s.setBeacon rec seed.val) :=
      State.quiet_trieSetLeaf _ _ (State.Quiet.of_log rfl)
    exact .inl (hquiet hbeacon hmem)
  | putCommit height hash fromAddr =>
    exact .inl (hquiet (State.quiet_putCommit height hash fromAddr s) hmem)
  | consumeCommit height hash => exact .inl (hquiet (State.quiet_consumeCommit height hash s) hmem)
  | pruneCommits tip =>
    have hprune : State.Quiet s (s.pruneCommits tip) := by
      unfold State.pruneCommits
      split
      · exact State.Quiet.refl s
      · exact (State.quiet_dropCommits _ s).trans (State.Quiet.of_log rfl)
    exact .inl (hquiet hprune hmem)
  | journalConsumed | apply => exact .inl hmem

/-- **`Runs G s`** — contract runs left only notes with `G` on the trail. -/
def State.Runs (G : RunNote → Prop) (s : State) : Prop := ∀ n, .run n ∈ s.log → G n

theorem State.Quiet.runs {G : RunNote → Prop} {s s' : State} (h : State.Quiet s s') (hs : s.Runs G) : s'.Runs G :=
  fun n hmem => hs n (h _ rfl hmem)

theorem Write.runs_step [Crypto] {G : RunNote → Prop} {rec : Recorder} {p : Bytes → Prop} {w : Write}
    (hw : w.Permitted rec p fun l => ∀ n ∈ l, G n) {s : State} (h : s.Runs G) : (w.step s).Runs G := by
  intro n hmem
  rcases w.trail_step s rfl hmem with hold | ⟨l, rfl, hnew⟩ | ⟨_, _, _, _, hamount⟩
  · exact h n hold
  · obtain ⟨m, hm, heq⟩ := List.mem_map.mp hnew
    obtain rfl := Note.run.inj heq
    exact hw m hm
  · cases hamount

end NgCore
