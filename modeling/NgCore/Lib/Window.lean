/-
# Lib.Window — exact rows behind a moving window

The rows of a store in which entries are ISSUED at a height, USED at a later one, and forgotten behind a window. Where
`Lib.SingleUse` bounds the rows by the histories, `Window` says that they are EXACTLY what the histories leave open: an
entry is pending if and only if it was issued inside the window and not used since. What makes that stable is that an
entry is never issued while it is pending, so there is one row per entry at most.
-/
import Mathlib

namespace Lib

variable {K : Type}

/-- Issued at `h`, and not used since. -/
def Open (issued used : Set (Nat × K)) (h : Nat) (k : K) : Prop :=
  (h, k) ∈ issued ∧ ∀ r, (r, k) ∈ used → r ≤ h

/-- **`Window low issued used pending`** — the rows are what the histories leave open from height `low` on, and an
entry has one row at most. -/
structure Window (low : Nat) (issued used : Set (Nat × K)) (pending : Nat → K → Prop) : Prop where
  exact : ∀ h k, pending h k ↔ low ≤ h ∧ Open issued used h k
  unique : ∀ h h' k, pending h k → pending h' k → h = h'

namespace Window

variable {low low' n r : Nat} {k : K} {issued used : Set (Nat × K)} {pending pending' : Nat → K → Prop}

theorem empty : Window 0 (∅ : Set (Nat × K)) ∅ fun _ _ => False where
  exact _ _ := ⟨False.elim, fun h => h.2.1⟩
  unique _ _ _ h := h.elim

/-- **Issuing** an entry that is not pending. -/
theorem issue (H : Window low issued used pending) (hn : low ≤ n) (hused : ∀ e ∈ used, e.1 ≤ n)
    (hnew : ∀ h, ¬ pending h k) (hp : ∀ h' k', pending' h' k' ↔ pending h' k' ∨ h' = n ∧ k' = k) :
    Window low (insert (n, k) issued) used pending' where
  exact h' k' := by
    rw [hp, H.exact]
    constructor
    · rintro (⟨hlow, hissued, huses⟩ | ⟨rfl, rfl⟩)
      · exact ⟨hlow, .inr hissued, huses⟩
      · exact ⟨hn, .inl rfl, fun r hr => hused _ hr⟩
    · rintro ⟨hlow, heq | hissued, huses⟩
      · exact .inr (Prod.mk.inj heq)
      · exact .inl ⟨hlow, hissued, huses⟩
  unique h₁ h₂ k' hk₁ hk₂ := by
    rcases (hp h₁ k').mp hk₁ with hk₁ | ⟨rfl, rfl⟩
    · rcases (hp h₂ k').mp hk₂ with hk₂ | ⟨rfl, rfl⟩
      · exact H.unique h₁ h₂ k' hk₁ hk₂
      · exact absurd hk₁ (hnew h₁)
    · rcases (hp h₂ k').mp hk₂ with hk₂ | ⟨rfl, _⟩
      · exact absurd hk₂ (hnew h₂)
      · rfl

/-- **Using** a pending entry takes its row away. -/
theorem use (H : Window low issued used pending) (hk : pending r k) (hlt : r < n)
    (hp : ∀ h' k', pending' h' k' ↔ pending h' k' ∧ ¬ (h' = r ∧ k' = k)) :
    Window low issued (insert (n, k) used) pending' where
  exact h' k' := by
    rw [hp, H.exact]
    constructor
    · rintro ⟨⟨hlow, hopen, huses⟩, hne⟩
      refine ⟨hlow, hopen, ?_⟩
      rintro m (heq | hm)
      · -- another row of the used entry would stand at the same height
        obtain ⟨rfl, rfl⟩ := Prod.mk.inj heq
        have hpending := (H.exact h' k').mpr ⟨hlow, hopen, huses⟩
        exact absurd ⟨H.unique h' r k' hpending hk, rfl⟩ hne
      · exact huses m hm
    · rintro ⟨hlow, hopen, huses⟩
      refine ⟨⟨hlow, hopen, fun m hm => huses m (.inr hm)⟩, ?_⟩
      rintro ⟨rfl, rfl⟩
      have := huses n (.inl rfl)
      omega
  unique h₁ h₂ k' hk₁ hk₂ := H.unique h₁ h₂ k' ((hp h₁ k').mp hk₁).1 ((hp h₂ k').mp hk₂).1

/-- **The window moves on.** -/
theorem prune (H : Window low issued used pending) (hlow : low ≤ low')
    (hp : ∀ h k, pending' h k ↔ pending h k ∧ low' ≤ h) : Window low' issued used pending' where
  exact h k := by
    rw [hp, H.exact]
    constructor
    · rintro ⟨⟨_, hopen⟩, hle⟩
      exact ⟨hle, hopen⟩
    · rintro ⟨hle, hopen⟩
      exact ⟨⟨hlow.trans hle, hopen⟩, hle⟩
  unique h₁ h₂ k hk₁ hk₂ := H.unique h₁ h₂ k ((hp h₁ k).mp hk₁).1 ((hp h₂ k).mp hk₂).1

end Window
end Lib
