/-
# Lib.Txn — transaction programs over a store

A transaction program reads a VIEW of the store, issues primitive WRITES, and may fail; nothing of a
failed transaction survives. `Txn V W E α` is the syntax (the free monad over those effects), `run`
its meaning over any store type `S` with an observation `look : S → V` and a transition
`step : W → S → S`.

Keeping the syntax pays, each time by an induction done ONCE here:

* `run_preserves` — what every permitted write preserves, every program preserves;
* `run_agree` — two stores that look alike and stay related under the permitted writes give the same
  verdict, the same result and related stores (congruence, refinement, simulation);
* `run_fails` — a run fails only in the ways its syntax permits;
* `run_bind_ok` — the inversion of a successful run, and on top of it the rules of pre- and
  postconditions (`Ensures`).
-/
import Mathlib

namespace Lib

/-- **`Txn`** — transaction programs: views `V`, writes `W`, failures `E`, result `α`. -/
inductive Txn (V W E α : Type) : Type where
  | pure (a : α)
  | fail (e : E)
  | view (k : V → Txn V W E α)
  | write (w : W) (k : Txn V W E α)

namespace Txn

variable {V W E α β S T : Type}

/-! ## §1 — programs -/

/-- Sequencing. -/
def bind : Txn V W E α → (α → Txn V W E β) → Txn V W E β
  | .pure a, f => f a
  | .fail e, _ => .fail e
  | .view k, f => .view fun v => (k v).bind f
  | .write w k, f => .write w (k.bind f)

instance : Monad (Txn V W E) where
  pure := .pure
  bind := bind

/-- Read the store. -/
def look : Txn V W E V := .view .pure

/-- Issue one write. -/
def tell (w : W) : Txn V W E Unit := .write w (.pure ())

theorem bind_assoc {γ : Type} (x : Txn V W E α) (f : α → Txn V W E β) (g : β → Txn V W E γ) :
    (x >>= f) >>= g = x >>= fun a => f a >>= g := by
  show (x.bind f).bind g = x.bind fun a => (f a).bind g
  induction x with
  | pure a => rfl
  | fail e => rfl
  | view k ih =>
    show Txn.view _ = Txn.view _
    exact congrArg Txn.view (funext fun v => ih v)
  | write w k ih => exact congrArg (Txn.write w) ih

/-- Embed a pure fallible computation. -/
def ofExcept : Except E α → Txn V W E α
  | .ok a => .pure a
  | .error e => .fail e

/-! ## §2 — meaning -/

/-- **`run`** — execute on a store; a failure discards every write. -/
def run (obs : S → V) (step : W → S → S) : Txn V W E α → S → Except E (α × S)
  | .pure a, s => .ok (a, s)
  | .fail e, _ => .error e
  | .view k, s => (k (obs s)).run obs step s
  | .write w k, s => k.run obs step (step w s)

variable {obs : S → V} {step : W → S → S}

@[simp] theorem run_pure (a : α) (s : S) :
    (Pure.pure a : Txn V W E α).run obs step s = .ok (a, s) := rfl

@[simp] theorem run_fail (e : E) (s : S) :
    (fail e : Txn V W E α).run obs step s = .error e := rfl

@[simp] theorem run_look (s : S) :
    (look : Txn V W E V).run obs step s = .ok (obs s, s) := rfl

@[simp] theorem run_tell (w : W) (s : S) :
    (tell w : Txn V W E Unit).run obs step s = .ok ((), step w s) := rfl

@[simp] theorem run_ofExcept (x : Except E α) (s : S) :
    (ofExcept x : Txn V W E α).run obs step s = x.map (·, s) := by
  cases x <;> rfl

theorem run_bind (x : Txn V W E α) (f : α → Txn V W E β) (s : S) :
    (x >>= f).run obs step s = (x.run obs step s).bind fun r => (f r.1).run obs step r.2 := by
  show (x.bind f).run obs step s = _
  induction x generalizing s with
  | pure a => rfl
  | fail e => rfl
  | view k ih => exact ih _ s
  | write w k ih => exact ih (step w s)

/-- **Inversion**: a successful sequence is a success of each part. -/
theorem run_bind_ok {x : Txn V W E α} {f : α → Txn V W E β} {s s' : S} {b : β} :
    (x >>= f).run obs step s = .ok (b, s') ↔
      ∃ a t, x.run obs step s = .ok (a, t) ∧ (f a).run obs step t = .ok (b, s') := by
  rw [run_bind]
  cases h : x.run obs step s with
  | error e => simp [Except.bind]
  | ok r =>
    obtain ⟨a, t⟩ := r
    simp [Except.bind]

theorem run_ofExcept_ok {x : Except E α} {s s' : S} {a : α} :
    (ofExcept x : Txn V W E α).run obs step s = .ok (a, s') ↔ x = .ok a ∧ s' = s := by
  cases x with
  | error e => simp [Except.map]
  | ok b => simp [Except.map, eq_comm]

/-! ## §3 — permitted writes -/

/-- **`Writes ψ φ p`** — as long as every view it reads satisfies `ψ`, every write `p` can ever issue is
permitted by `φ`. -/
def Writes (ψ : V → Prop) (φ : W → Prop) : Txn V W E α → Prop
  | .pure _ => True
  | .fail _ => True
  | .view k => ∀ v, ψ v → (k v).Writes ψ φ
  | .write w k => φ w ∧ k.Writes ψ φ

variable {ψ : V → Prop} {φ : W → Prop}

@[simp] theorem writes_pure (a : α) : (Pure.pure a : Txn V W E α).Writes ψ φ := trivial

@[simp] theorem writes_fail (e : E) : (fail e : Txn V W E α).Writes ψ φ := trivial

@[simp] theorem writes_tell {w : W} : (tell w : Txn V W E Unit).Writes ψ φ ↔ φ w := by
  simp [tell, Writes]

@[simp] theorem writes_ofExcept (x : Except E α) : (ofExcept x : Txn V W E α).Writes ψ φ := by
  cases x <;> trivial

theorem writes_bind {x : Txn V W E α} {f : α → Txn V W E β} (hx : x.Writes ψ φ)
    (hf : ∀ a, (f a).Writes ψ φ) : (x >>= f).Writes ψ φ := by
  show (x.bind f).Writes ψ φ
  induction x with
  | pure a => exact hf a
  | fail e => trivial
  | view k ih => exact fun v hv => ih v (hx v hv)
  | write w k ih => exact ⟨hx.1, ih hx.2⟩

theorem writes_look_bind {f : V → Txn V W E β} (hf : ∀ v, ψ v → (f v).Writes ψ φ) :
    (look >>= f).Writes ψ φ := hf

/-- What follows a fallible computation may rely on its success. -/
theorem writes_ofExcept_bind {x : Except E α} {f : α → Txn V W E β}
    (hf : ∀ a, x = .ok a → (f a).Writes ψ φ) : (ofExcept x >>= f).Writes ψ φ := by
  cases x with
  | error e => trivial
  | ok a => exact hf a rfl

theorem writes_forM {γ : Type} {f : γ → Txn V W E Unit} {l : List γ} (h : ∀ a ∈ l, (f a).Writes ψ φ) :
    (l.forM f).Writes ψ φ := by
  induction l with
  | nil => trivial
  | cons a l ih =>
    apply writes_bind (h a List.mem_cons_self)
    intro _
    exact ih fun b hb => h b (List.mem_cons_of_mem a hb)

theorem writes_foldlM {γ : Type} {f : β → γ → Txn V W E β} {l : List γ}
    (h : ∀ b, ∀ a ∈ l, (f b a).Writes ψ φ) (b : β) : (l.foldlM f b).Writes ψ φ := by
  induction l generalizing b with
  | nil => trivial
  | cons a l ih =>
    apply writes_bind (h b a List.mem_cons_self)
    intro b'
    exact ih (fun b a ha => h b a (List.mem_cons_of_mem _ ha)) b'

theorem writes_any (x : Txn V W E α) : x.Writes (fun _ => True) fun _ => True := by
  induction x with
  | pure a => trivial
  | fail e => trivial
  | view k ih => exact fun v _ => ih v
  | write w k ih => exact ⟨trivial, ih⟩

/-! ## §4 — the two induction rules -/

/-- **The invariant rule.** -/
theorem run_preserves {I : S → Prop} (hview : ∀ s, I s → ψ (obs s))
    (hstep : ∀ w s, φ w → I s → I (step w s)) {p : Txn V W E α} (hp : p.Writes ψ φ) {s s' : S} {a : α}
    (h : p.run obs step s = .ok (a, s')) (hI : I s) : I s' := by
  induction p generalizing s with
  | pure b =>
    cases h
    exact hI
  | fail e => cases h
  | view k ih => exact ih _ (hp _ (hview s hI)) h hI
  | write w k ih => exact ih hp.2 h (hstep w s hp.1 hI)

/-- Two outcomes agree: the same verdict, and on success the same result over related stores. -/
def Agree (R : S → T → Prop) : Except E (α × S) → Except E (α × T) → Prop
  | .ok (a, s), .ok (b, t) => a = b ∧ R s t
  | .error e, .error f => e = f
  | _, _ => False

/-- **The simulation rule.** -/
theorem run_agree {R : S → T → Prop} {obs' : T → V} {step' : W → T → T}
    (hobs : ∀ s t, R s t → obs s = obs' t ∧ ψ (obs s))
    (hstep : ∀ w s t, φ w → R s t → R (step w s) (step' w t))
    {p : Txn V W E α} (hp : p.Writes ψ φ) {s : S} {t : T} (h : R s t) :
    Agree R (p.run obs step s) (p.run obs' step' t) := by
  induction p generalizing s t with
  | pure b => exact ⟨rfl, h⟩
  | fail e => rfl
  | view k ih =>
    obtain ⟨heq, hview⟩ := hobs s t h
    have := ih (obs s) (hp _ hview) h
    rw [run, run, ← heq]
    exact this
  | write w k ih => exact ih hp.2 (hstep w s t hp.1 h)

/-! ## §5 — permitted failures -/

/-- **`Fails χ p`** — every failure `p` can ever end in is permitted by `χ`. -/
def Fails (χ : E → Prop) : Txn V W E α → Prop
  | .pure _ => True
  | .fail e => χ e
  | .view k => ∀ v, (k v).Fails χ
  | .write _ k => k.Fails χ

section Fails

variable {χ : E → Prop}

@[simp] theorem fails_pure (a : α) : (Pure.pure a : Txn V W E α).Fails χ := trivial

@[simp] theorem fails_fail {e : E} : (fail e : Txn V W E α).Fails χ ↔ χ e := Iff.rfl

@[simp] theorem fails_look : (look : Txn V W E V).Fails χ := fun _ => trivial

@[simp] theorem fails_tell (w : W) : (tell w : Txn V W E Unit).Fails χ := trivial

theorem fails_ofExcept {x : Except E α} (h : ∀ e, x = .error e → χ e) :
    (ofExcept x : Txn V W E α).Fails χ := by
  cases x with
  | error e => exact h e rfl
  | ok a => trivial

theorem fails_bind {x : Txn V W E α} {f : α → Txn V W E β} (hx : x.Fails χ) (hf : ∀ a, (f a).Fails χ) :
    (x >>= f).Fails χ := by
  show (x.bind f).Fails χ
  induction x with
  | pure a => exact hf a
  | fail e => exact hx
  | view k ih => exact fun v => ih v (hx v)
  | write w k ih => exact ih hx

theorem fails_forM {γ : Type} {f : γ → Txn V W E Unit} (h : ∀ a, (f a).Fails χ) (l : List γ) :
    (l.forM f).Fails χ := by
  induction l with
  | nil => trivial
  | cons a l ih => exact fails_bind (h a) fun _ => ih

theorem fails_foldlM {γ : Type} {f : β → γ → Txn V W E β} (h : ∀ b a, (f b a).Fails χ) (l : List γ) (b : β) :
    (l.foldlM f b).Fails χ := by
  induction l generalizing b with
  | nil => trivial
  | cons a l ih => exact fails_bind (h b a) fun b' => ih b'

/-- **The failure rule.** -/
theorem run_fails {p : Txn V W E α} (hp : p.Fails χ) {s : S} {e : E} (h : p.run obs step s = .error e) : χ e := by
  induction p generalizing s with
  | pure b => cases h
  | fail f =>
    cases h
    exact hp
  | view k ih => exact ih _ (hp _) h
  | write w k ih => exact ih hp h

end Fails

/-! ## §6 — pre- and postconditions -/

/-- **`Ensures P p Q`** — run on a store that satisfies `P`, the program fails or satisfies `Q`. -/
def Ensures (obs : S → V) (step : W → S → S) (P : S → Prop) (p : Txn V W E α) (Q : α → S → Prop) : Prop :=
  ∀ s a s', P s → p.run obs step s = .ok (a, s') → Q a s'

section Ensures

variable {P P' : S → Prop} {Q : α → S → Prop} {Q' : β → S → Prop}

theorem ensures_pure {a : α} (h : ∀ s, P s → Q a s) :
    Ensures obs step P (Pure.pure a : Txn V W E α) Q := by
  intro s b s' hs hrun
  obtain ⟨rfl, rfl⟩ := Prod.mk.inj (Except.ok.inj hrun)
  exact h s hs

theorem ensures_fail (e : E) : Ensures obs step P (fail e : Txn V W E α) Q := by
  intro s a s' _ hrun
  cases hrun

theorem ensures_tell {w : W} {Q : Unit → S → Prop} (h : ∀ s, P s → Q () (step w s)) :
    Ensures obs step P (tell w : Txn V W E Unit) Q := by
  intro s _ s' hs hrun
  obtain rfl := (Prod.mk.inj (Except.ok.inj hrun)).2
  exact h s hs

theorem ensures_bind {x : Txn V W E α} {f : α → Txn V W E β} (hx : Ensures obs step P x Q)
    (hf : ∀ a, Ensures obs step (Q a) (f a) Q') : Ensures obs step P (x >>= f) Q' := by
  intro s b s' hs hrun
  obtain ⟨a, t, hxa, hfb⟩ := run_bind_ok.mp hrun
  exact hf a t b s' (hx s a t hs hxa) hfb

theorem ensures_look_bind {f : V → Txn V W E β}
    (hf : ∀ s, P s → Ensures obs step (fun t => t = s) (f (obs s)) Q') :
    Ensures obs step P (look >>= f) Q' :=
  fun s b s' hs hrun => hf s hs s b s' rfl hrun

theorem ensures_ofExcept_bind {x : Except E α} {f : α → Txn V W E β}
    (hf : ∀ a, x = .ok a → Ensures obs step P (f a) Q') :
    Ensures obs step P (ofExcept x >>= f) Q' := by
  cases x with
  | error e => exact ensures_fail e
  | ok a => exact hf a rfl

theorem ensures_of_forall {p : Txn V W E α} (h : ∀ s, P s → Ensures obs step (fun t => t = s) p Q) :
    Ensures obs step P p Q :=
  fun s a s' hs hrun => h s hs s a s' rfl hrun

theorem Ensures.mono {p : Txn V W E α} {R : α → S → Prop} (h : Ensures obs step P p Q)
    (hpre : ∀ s, P' s → P s) (hpost : ∀ a s, Q a s → R a s) : Ensures obs step P' p R :=
  fun s a s' hs hrun => hpost a s' (h s a s' (hpre s hs) hrun)

/-- A loop over a list, with an invariant that knows what is still to come. -/
theorem ensures_forM {γ : Type} {I : List γ → S → Prop} {f : γ → Txn V W E Unit} {l : List γ}
    (h : ∀ a l', a ∈ l → Ensures obs step (I (a :: l')) (f a) fun _ => I l') :
    Ensures obs step (I l) (l.forM f) fun _ => I [] := by
  induction l with
  | nil => exact ensures_pure fun s hs => hs
  | cons a l ih =>
    refine ensures_bind (h a l List.mem_cons_self) fun _ => ih fun b l' hb => ?_
    exact h b l' (List.mem_cons_of_mem a hb)

theorem ensures_foldlM {γ : Type} {I : List γ → S → Prop} {f : β → γ → Txn V W E β} {l : List γ}
    (h : ∀ b a l', a ∈ l → Ensures obs step (I (a :: l')) (f b a) fun _ => I l') (b : β) :
    Ensures obs step (I l) (l.foldlM f b) fun _ => I [] := by
  induction l generalizing b with
  | nil => exact ensures_pure fun s hs => hs
  | cons a l ih =>
    refine ensures_bind (h b a l List.mem_cons_self) fun b' => ih (fun c d l' hd => ?_) b'
    exact h c d l' (List.mem_cons_of_mem a hd)

theorem Writes.ensures {p : Txn V W E α} (hp : p.Writes (fun _ => True) φ)
    (hstep : ∀ w s, φ w → P s → P (step w s)) : Ensures obs step P p fun _ => P :=
  fun _ _ _ hs hrun => run_preserves (fun _ _ => trivial) hstep hp hrun hs

end Ensures
end Txn
end Lib
