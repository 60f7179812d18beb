/-
# Lib.Traced — fallible computations that write down their calls

A function `f` may call some operation with arguments it took from its input. To say with WHICH arguments it does,
write `f` once more over `Traced C E`: the calls made so far stand beside the outcome, and a failure keeps them.
Forgetting the calls gives back the plain function (`outcome_bind`); `Only P` is the rule of reasoning about them,
and what follows a step may rely on that step having succeeded.
-/
import Mathlib

namespace Lib

/-- **`Traced C E α`** — the calls a computation made, and its outcome. -/
structure Traced (C E α : Type) where
  calls : List C
  outcome : Except E α

namespace Traced

variable {C E α β : Type}

/-! ## §1 — computations -/

/-- A computation that makes no call. -/
def lift (x : Except E α) : Traced C E α := ⟨[], x⟩

/-- One call, and what it returned. -/
def call (c : C) (x : Except E α) : Traced C E α := ⟨[c], x⟩

/-- Sequencing: what a failed step would have been followed by makes no call. -/
def bind (x : Traced C E α) (f : α → Traced C E β) : Traced C E β :=
  match x.outcome with
  | .ok a => ⟨x.calls ++ (f a).calls, (f a).outcome⟩
  | .error e => ⟨x.calls, .error e⟩

instance : Monad (Traced C E) where
  pure a := lift (.ok a)
  bind := bind

@[simp] theorem outcome_lift (x : Except E α) : (lift x : Traced C E α).outcome = x := rfl

@[simp] theorem outcome_call (c : C) (x : Except E α) : (call c x).outcome = x := rfl

@[simp] theorem outcome_bind (x : Traced C E α) (f : α → Traced C E β) :
    (x >>= f).outcome = x.outcome >>= fun a => (f a).outcome := by
  show (x.bind f).outcome = _
  unfold bind
  cases x.outcome <;> rfl

/-! ## §2 — which calls -/

/-- **`Only P x`** — every call of `x` satisfies `P`. -/
def Only (P : C → Prop) (x : Traced C E α) : Prop := ∀ c ∈ x.calls, P c

variable {P : C → Prop}

@[simp] theorem only_lift (x : Except E α) : (lift x : Traced C E α).Only P := nofun

theorem only_call {c : C} (h : P c) (x : Except E α) : (call c x).Only P := by
  intro c' hc'
  rwa [List.mem_singleton.mp hc']

theorem mem_calls_bind {x : Traced C E α} {c : C} (hc : c ∈ x.calls) (f : α → Traced C E β) :
    c ∈ (x >>= f).calls := by
  show c ∈ (x.bind f).calls
  unfold bind
  split
  · exact List.mem_append_left _ hc
  · exact hc

theorem only_bind {x : Traced C E α} {f : α → Traced C E β} (hx : x.Only P)
    (hf : ∀ a, x.outcome = .ok a → (f a).Only P) : (x >>= f).Only P := by
  show (x.bind f).Only P
  unfold bind
  cases hout : x.outcome with
  | error e => exact hx
  | ok a =>
    intro c hc
    rcases List.mem_append.mp hc with hc | hc
    · exact hx c hc
    · exact hf a hout c hc

end Traced
end Lib
