import Mathlib.Algebra.Group.Defs
import Mathlib.Data.List.Nodup
import Mathlib.Logic.Function.Basic
import Mathlib.Order.Basic

/-! # Objects with a free list

Objects are addresses, and each holds a value. A freed object is cleared and goes to the front of a free
list, from which the next one is taken (`alloc`, `release`). A live object is one that was made and is not
free. `alloc_spec` and `copy_spec` say that a new object was not live, and that the live ones keep their
values; a value that is zero stays zero until someone else writes it (`bits_copy_eq_zero`).
-/

/-- Objects with values, and those that are free; the addresses below `made` are objects. -/
structure Pool (β : Type) where
  bits : ℕ → β
  free : List ℕ
  made : ℕ

namespace Pool

open Function List

variable {β : Type} {p : Pool β} {a c : ℕ} {v : β}

def write (p : Pool β) (a : ℕ) (v : β) : Pool β := { p with bits := update p.bits a v }

def Live (p : Pool β) (a : ℕ) : Prop := a < p.made ∧ a ∉ p.free

instance (p : Pool β) (a : ℕ) : Decidable (p.Live a) := inferInstanceAs (Decidable (_ ∧ _))

/-- A free object was made, and is on the list once. -/
structure Wf (p : Pool β) : Prop where
  nodup : p.free.Nodup
  lt : ∀ a ∈ p.free, a < p.made

theorem Wf.write (h : p.Wf) : (p.write a v).Wf := ⟨h.nodup, h.lt⟩

@[simp] theorem bits_write_self : (p.write a v).bits a = v := update_self ..

theorem bits_write_of_ne (h : c ≠ a) : (p.write a v).bits c = p.bits c := update_of_ne h ..

variable [Zero β]

def alloc (p : Pool β) : Pool β × ℕ :=
  match p.free with
  | a :: rest => ({ p with bits := update p.bits a 0, free := rest }, a)
  | [] => ({ p with bits := update p.bits p.made 0, made := p.made + 1 }, p.made)

def copy (p : Pool β) (a : ℕ) : Pool β × ℕ := (p.alloc.1.write p.alloc.2 (p.alloc.1.bits a), p.alloc.2)

def release (p : Pool β) (a : ℕ) : Pool β :=
  if a ∈ p.free then p else { p with bits := update p.bits a 0, free := a :: p.free }

/-- **A new object** was not live; the live objects stay so and keep their values. -/
theorem Wf.alloc_spec (h : p.Wf) : p.alloc.1.Wf ∧ ¬ p.Live p.alloc.2 ∧
    (∀ c, p.alloc.1.Live c ↔ p.Live c ∨ c = p.alloc.2) ∧ ∀ c, p.Live c → p.alloc.1.bits c = p.bits c := by
  unfold alloc
  split
  · rename_i a rest hfree
    have hnd := h.nodup
    have hlt := h.lt
    rw [hfree] at hnd hlt
    obtain ⟨ha, hrest⟩ := nodup_cons.mp hnd
    have hdead : ¬ p.Live a := fun hlive => hlive.2 (by rw [hfree]; exact mem_cons_self)
    refine ⟨⟨hrest, fun c hc => hlt c (mem_cons_of_mem _ hc)⟩, hdead, fun c => ?_, fun c hc => ?_⟩
    · unfold Live
      rw [hfree, mem_cons, not_or]
      by_cases hca : c = a
      · rw [hca]
        exact iff_of_true ⟨hlt a mem_cons_self, ha⟩ (.inr rfl)
      · simp [hca]
    · exact update_of_ne (fun hca : c = a => hdead (hca ▸ hc)) ..
  · rename_i hfree
    have hdead : ¬ p.Live p.made := fun hlive => Nat.lt_irrefl _ hlive.1
    refine ⟨⟨h.nodup, fun c hc => Nat.lt_succ_of_lt (h.lt c hc)⟩, hdead, fun c => ?_, fun c hc => ?_⟩
    · unfold Live
      dsimp only
      rw [hfree]
      simp only [not_mem_nil, not_false_eq_true, and_true]
      omega
    · exact update_of_ne (Nat.ne_of_lt hc.1) ..

/-- **A copy** of a live object is new, and has the same value. -/
theorem Wf.copy_spec (h : p.Wf) (ha : p.Live a) : (p.copy a).1.Wf ∧ ¬ p.Live (p.copy a).2 ∧
    (∀ c, p.Live c → (p.copy a).1.Live c ∧ (p.copy a).1.bits c = p.bits c) ∧
      (p.copy a).1.Live (p.copy a).2 ∧ (p.copy a).1.bits (p.copy a).2 = p.bits a := by
  obtain ⟨hwf, hdead, hlive, hbits⟩ := h.alloc_spec
  unfold copy
  refine ⟨hwf.write, hdead, fun c hc => ⟨(hlive c).mpr (.inl hc), ?_⟩, (hlive _).mpr (.inr rfl), ?_⟩
  · rw [bits_write_of_ne (fun heq : c = p.alloc.2 => hdead (heq ▸ hc)), hbits c hc]
  · rw [bits_write_self, hbits a ha]

theorem Wf.release (h : p.Wf) (ha : p.Live a) : (p.release a).Wf := by
  unfold Pool.release
  rw [if_neg ha.2]
  refine ⟨nodup_cons.mpr ⟨ha.2, h.nodup⟩, fun c hc => ?_⟩
  rcases mem_cons.mp hc with rfl | hc
  · exact ha.1
  · exact h.lt c hc

/-- The other objects are as before. -/
theorem release_of_ne (h : c ≠ a) : ((p.release a).Live c ↔ p.Live c) ∧ (p.release a).bits c = p.bits c := by
  unfold Pool.release
  split
  · exact ⟨Iff.rfl, rfl⟩
  · refine ⟨?_, update_of_ne h ..⟩
    unfold Live
    rw [mem_cons, not_or]
    exact and_congr_right (fun _ => and_iff_right h)

theorem bits_release_self (ha : p.Live a) : (p.release a).bits a = 0 := by
  unfold Pool.release
  rw [if_neg ha.2]
  exact update_self ..

/-- An object that was just freed is the next one that is taken. -/
theorem alloc_release (ha : p.Live a) : (p.release a).alloc.2 = a := by
  unfold Pool.release
  rw [if_neg ha.2]
  rfl

/-! ## A cleared object -/

theorem bits_alloc_eq_zero (h : p.bits a = 0) : p.alloc.1.bits a = 0 := by
  have hupdate : ∀ c, update p.bits c 0 a = 0 := by
    intro c
    rw [update_apply]
    split
    · rfl
    · exact h
  unfold alloc
  split <;> exact hupdate _

theorem bits_copy_eq_zero (h : p.bits a = 0) : (p.copy a).1.bits a = 0 := by
  have hzero := bits_alloc_eq_zero h
  unfold copy write
  dsimp only
  rw [hzero, update_apply]
  split
  · rfl
  · exact hzero

theorem bits_release_eq_zero (h : p.bits a = 0) : (p.release c).bits a = 0 := by
  unfold Pool.release
  split
  · exact h
  · dsimp only
    rw [update_apply]
    split
    · rfl
    · exact h

end Pool
