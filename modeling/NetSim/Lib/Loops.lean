import Mathlib

/-! # Loops that can fail

A loop over a list whose turns can fail. When every turn goes through wherever an invariant holds, keeps
the invariant, moves the state along a preorder and brings about something that the preorder keeps, then
the loop goes through, and everything that the turns brought about holds in the end (`foldlM_each`).
-/

namespace Loops

open List

variable {σ α : Type} {f : σ → α → Option σ} {l : List α} {s : σ}

/-- What the turns of a loop do: `P` is kept, `R` relates the states, and `Q a` holds after the turn
for `a`. -/
structure Turns (f : σ → α → Option σ) (P : σ → Prop) (R : σ → σ → Prop) (Q : α → σ → Prop)
    (l : List α) : Prop where
  refl : ∀ s, R s s
  trans : ∀ s₁ s₂ s₃, R s₁ s₂ → R s₂ s₃ → R s₁ s₃
  keep : ∀ a s s', Q a s → R s s' → Q a s'
  turn : ∀ s, ∀ a ∈ l, P s → ∃ s', f s a = some s' ∧ P s' ∧ R s s' ∧ Q a s'

variable {P : σ → Prop} {R : σ → σ → Prop} {Q : α → σ → Prop}

theorem Turns.tail {a : α} (h : Turns f P R Q (a :: l)) : Turns f P R Q l :=
  { h with turn := fun s b hb => h.turn s b (mem_cons_of_mem a hb) }

theorem foldlM_each (h : Turns f P R Q l) (hs : P s) :
    ∃ s', l.foldlM f s = some s' ∧ P s' ∧ R s s' ∧ ∀ a ∈ l, Q a s' := by
  induction l generalizing s with
  | nil => exact ⟨s, rfl, hs, h.refl s, fun a ha => absurd ha not_mem_nil⟩
  | cons a l ih =>
    obtain ⟨s₁, hturn, hs₁, hr₁, hq₁⟩ := h.turn s a mem_cons_self hs
    obtain ⟨s', hloop, hs', hr', hq'⟩ := ih h.tail hs₁
    refine ⟨s', ?_, hs', h.trans _ _ _ hr₁ hr', ?_⟩
    · rw [foldlM_cons, hturn]
      exact hloop
    · intro b hb
      rcases mem_cons.mp hb with rfl | hb
      · exact h.keep _ _ _ hq₁ hr'
      · exact hq' b hb

end Loops
