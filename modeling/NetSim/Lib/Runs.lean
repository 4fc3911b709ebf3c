import Mathlib.Data.List.Induction

/-! # Runs of a machine with outputs

A machine takes one input a step and answers with an output, or fails (`none`). `run` feeds it a
list of inputs. `Meets step ok s is` says that every input meets a condition on the state in which
it arrives. An invariant may speak of the inputs and outputs so far; when every step keeps it, it
holds at the end of every run, and the run does not fail (`run_invariant`). Where steps may fail,
it holds at the end of the runs that do not (`run_preserves`). A property that each step has under a condition
is one of the runs whose steps all meet it (`run_exact`).
-/

namespace Runs

open List

variable {σ ι ω : Type}

def run (step : σ → ι → Option (σ × ω)) : σ → List ι → Option (σ × List ω)
  | s, [] => some (s, [])
  | s, i :: is =>
    (step s i).bind (fun r => (run step r.1 is).map (fun t => (t.1, r.2 :: t.2)))

/-- Every input of the run meets the condition `ok` in the state in which it arrives. -/
def Meets (step : σ → ι → Option (σ × ω)) (ok : σ → ι → Prop) : σ → List ι → Prop
  | _, [] => True
  | s, i :: is => ok s i ∧ ∀ r, step s i = some r → Meets step ok r.1 is

instance decidableMeets (step : σ → ι → Option (σ × ω)) (ok : σ → ι → Prop)
    [∀ s i, Decidable (ok s i)] : ∀ (s : σ) (is : List ι), Decidable (Meets step ok s is)
  | _, [] => isTrue trivial
  | s, i :: is =>
    match hs : step s i with
    | none => decidable_of_iff (ok s i) (by simp [Meets, hs])
    | some r =>
      have := decidableMeets step ok r.1 is
      decidable_of_iff (ok s i ∧ Meets step ok r.1 is) (by simp [Meets, hs])

variable {step : σ → ι → Option (σ × ω)} {ok : σ → ι → Prop} {s s' : σ} {i : ι} {o : ω}
  {is js past : List ι} {os outs : List ω}

theorem run_cons (h : step s i = some (s', o)) :
    run step s (i :: is) = (run step s' is).map (fun t => (t.1, o :: t.2)) := by
  rw [run, h]
  rfl

theorem run_concat (h : run step s is = some (s', os)) {s'' : σ} (hs : step s' i = some (s'', o)) :
    run step s (is ++ [i]) = some (s'', os ++ [o]) := by
  induction is generalizing s os with
  | nil =>
    cases h
    rw [nil_append, run_cons hs]
    rfl
  | cons j is ih =>
    rw [run, Option.bind_eq_some_iff] at h
    obtain ⟨r, hr, h⟩ := h
    obtain ⟨t, ht, heq⟩ := Option.map_eq_some_iff.mp h
    cases heq
    rw [cons_append, run, hr, Option.bind_some, ih ht]
    rfl

theorem run_concat_none (h : run step s is = some (s', os)) (hs : step s' i = none) :
    run step s (is ++ [i]) = none := by
  induction is generalizing s os with
  | nil =>
    cases h
    rw [nil_append, run, hs, Option.bind_none]
  | cons j is ih =>
    rw [run, Option.bind_eq_some_iff] at h
    obtain ⟨r, hr, h⟩ := h
    obtain ⟨t, ht, heq⟩ := Option.map_eq_some_iff.mp h
    cases heq
    rw [cons_append, run, hr, Option.bind_some, ih ht, Option.map_none]

theorem Meets.append_left (h : Meets step ok s (is ++ js)) : Meets step ok s is := by
  induction is generalizing s with
  | nil => trivial
  | cons i is ih => exact ⟨h.1, fun r hr => ih (h.2 r hr)⟩

theorem Meets.append_right (h : Meets step ok s (is ++ js)) (hrun : run step s is = some (s', os)) :
    Meets step ok s' js := by
  induction is generalizing s os with
  | nil =>
    cases hrun
    exact h
  | cons i is ih =>
    rw [run, Option.bind_eq_some_iff] at hrun
    obtain ⟨r, hr, hrun⟩ := hrun
    obtain ⟨t, ht, heq⟩ := Option.map_eq_some_iff.mp hrun
    cases heq
    exact ih (h.2 r hr) ht

theorem meets_concat :
    Meets step ok s (is ++ [i]) ↔
      Meets step ok s is ∧ ∀ r, run step s is = some r → ok r.1 i := by
  induction is generalizing s with
  | nil => simp [Meets, run]
  | cons j is ih =>
    rw [cons_append, Meets, Meets, and_assoc]
    refine and_congr_right (fun _ => ?_)
    constructor
    · intro h
      refine ⟨fun r hr => (ih.mp (h r hr)).1, fun r hr => ?_⟩
      rw [run, Option.bind_eq_some_iff] at hr
      obtain ⟨r₁, h₁, hr⟩ := hr
      obtain ⟨t, ht, rfl⟩ := Option.map_eq_some_iff.mp hr
      exact (ih.mp (h r₁ h₁)).2 t ht
    · rintro ⟨h, hlast⟩ r hr
      refine ih.mpr ⟨h r hr, fun t ht => hlast (t.1, r.2 :: t.2) ?_⟩
      rw [run, hr, Option.bind_some, ht]
      rfl

/-- To meet the condition, an input may use that those before it meet it. -/
theorem meets_of_prefixes (h : ∀ past i r, past ++ [i] <+: is → Meets step ok s past →
    run step s past = some r → ok r.1 i) : Meets step ok s is := by
  induction is using List.reverseRecOn with
  | nil => trivial
  | append_singleton past i ih =>
    have hpast := ih (fun past' j r hpre => h past' j r (hpre.trans (prefix_append _ _)))
    exact meets_concat.mpr ⟨hpast, fun r => h past i r (prefix_refl _) hpast⟩

theorem meets_of_forall {P : ι → Prop} (h : ∀ i ∈ is, P i) :
    Meets step (fun _ i => P i) s is := by
  induction is generalizing s with
  | nil => trivial
  | cons i is ih => exact ⟨h i (by simp), fun r _ => ih (fun j hj => h j (by simp [hj]))⟩

theorem Meets.and_forall {P : ι → Prop} (h : Meets step ok s is) (hP : ∀ i ∈ is, P i) :
    Meets step (fun s i => ok s i ∧ P i) s is := by
  induction is generalizing s with
  | nil => trivial
  | cons i is ih =>
    exact ⟨⟨h.1, hP i (by simp)⟩, fun r hr => ih (h.2 r hr) (fun j hj => hP j (by simp [hj]))⟩

theorem Meets.and {ok' : σ → ι → Prop} (h : Meets step ok s is) (h' : Meets step ok' s is) :
    Meets step (fun s i => ok s i ∧ ok' s i) s is := by
  induction is generalizing s with
  | nil => trivial
  | cons i is ih => exact ⟨⟨h.1, h'.1⟩, fun r hr => ih (h.2 r hr) (h'.2 r hr)⟩

theorem run_invariant_from {Inv : List ι → List ω → σ → Prop}
    (hstep : ∀ past outs s i, Inv past outs s → ok s i →
      ∃ s' o, step s i = some (s', o) ∧ Inv (past ++ [i]) (outs ++ [o]) s')
    (h : Inv past outs s) (hok : Meets step ok s is) :
    ∃ s' os, run step s is = some (s', os) ∧ Inv (past ++ is) (outs ++ os) s' := by
  induction is generalizing past outs s with
  | nil => exact ⟨s, [], rfl, by simpa using h⟩
  | cons i is ih =>
    obtain ⟨s', o, hs, h'⟩ := hstep past outs s i h hok.1
    obtain ⟨s'', os, hrun, hinv⟩ := ih h' (hok.2 _ hs)
    refine ⟨s'', o :: os, ?_, by simpa using hinv⟩
    rw [run_cons hs, hrun]
    rfl

/-- **The rule for invariants**: what holds at first and is kept by every step holds at the end of
every run, and the run does not fail. -/
theorem run_invariant {Inv : List ι → List ω → σ → Prop}
    (hstep : ∀ past outs s i, Inv past outs s → ok s i →
      ∃ s' o, step s i = some (s', o) ∧ Inv (past ++ [i]) (outs ++ [o]) s')
    (h : Inv [] [] s) (hok : Meets step ok s is) :
    ∃ s' os, run step s is = some (s', os) ∧ Inv is os s' :=
  run_invariant_from hstep h hok

/-- The rule for runs that may fail: what every step that succeeds keeps holds after every run that
succeeds. -/
theorem run_keeps {Inv : List ι → List ω → σ → Prop}
    (hstep : ∀ past outs s i s' o, Inv past outs s → ok s i → step s i = some (s', o) →
      Inv (past ++ [i]) (outs ++ [o]) s')
    (h : Inv past outs s) (hok : Meets step ok s is) (hrun : run step s is = some (s', os)) :
    Inv (past ++ is) (outs ++ os) s' := by
  induction is generalizing past outs s os with
  | nil =>
    cases hrun
    simpa using h
  | cons i is ih =>
    cases hs : step s i with
    | none =>
      rw [run, hs] at hrun
      cases hrun
    | some r =>
      rw [run_cons (show step s i = some (r.1, r.2) from hs), Option.map_eq_some_iff] at hrun
      obtain ⟨t, ht, heq⟩ := hrun
      cases heq
      have h' := ih (hstep past outs s i r.1 r.2 h hok.1 hs) (hok.2 r hs) ht
      simpa using h'

theorem run_preserves {Inv : List ω → σ → Prop}
    (hstep : ∀ outs s i s' o, Inv outs s → ok s i → step s i = some (s', o) →
      Inv (outs ++ [o]) s')
    (h : Inv outs s) (hok : Meets step ok s is) (hrun : run step s is = some (s', os)) :
    Inv (outs ++ os) s' :=
  @run_keeps σ ι ω step ok s s' is [] os outs (fun _ => Inv) (fun _ => hstep) h hok hrun

/-- **The rule for exact conditions**: if a step succeeds with the property `P` just when its input `fits`,
and then keeps the invariant, then all steps of a run do just when all its inputs fit. -/
theorem run_exact {fits : σ → ι → Prop} {Inv : List ι → σ → Prop} {P : List ι → ι → σ → σ → ω → Prop}
    (hexact : ∀ past s i, Inv past s → ok s i →
      ((∃ s' o, step s i = some (s', o) ∧ P past i s s' o) ↔ fits s i))
    (hkeep : ∀ past s i s' o, Inv past s → ok s i → fits s i → step s i = some (s', o) →
      Inv (past ++ [i]) s')
    (h : Inv [] s) (hok : Meets step ok s is) :
    (∀ past i, past ++ [i] <+: is → ∃ s₁ outs s₂ o, run step s past = some (s₁, outs) ∧
      step s₁ i = some (s₂, o) ∧ P past i s₁ s₂ o) ↔ Meets step fits s is := by
  have hrun : ∀ past, past <+: is → Meets step fits s past →
      ∃ s₁ outs, run step s past = some (s₁, outs) ∧ Inv past s₁ := by
    rintro past ⟨rest, rfl⟩ hfits
    refine @run_invariant _ _ _ _ _ _ _ (fun past _ s => Inv past s) (fun past outs s i hinv hi => ?_) h
      (hok.append_left.and hfits)
    obtain ⟨s', o, hs, -⟩ := (hexact past s i hinv hi.1).mpr hi.2
    exact ⟨s', o, hs, hkeep past s i s' o hinv hi.1 hi.2 hs⟩
  constructor
  · intro hall
    apply meets_of_prefixes
    intro past i r hpre hfits hr
    obtain ⟨s₁, outs, hs₁, hinv⟩ := hrun past ((prefix_append _ _).trans hpre) hfits
    obtain ⟨s₁', outs', s₂, o, hs₁', hs₂, hP⟩ := hall past i hpre
    rw [hs₁] at hs₁'
    cases hs₁'
    rw [hs₁] at hr
    cases hr
    have hi : ok s₁ i := by
      obtain ⟨rest, rfl⟩ := hpre
      exact (meets_concat.mp hok.append_left).2 _ hs₁
    exact (hexact past s₁ i hinv hi).mp ⟨s₂, o, hs₂, hP⟩
  · rintro hfits past i ⟨rest, rfl⟩
    obtain ⟨hpast, hlast⟩ := meets_concat.mp hfits.append_left
    obtain ⟨s₁, outs, hs₁, hinv⟩ := hrun past ⟨[i] ++ rest, by simp⟩ hpast
    have hi := (meets_concat.mp hok.append_left).2 _ hs₁
    obtain ⟨s', o, hs', hP⟩ := (hexact past s₁ i hinv hi).mpr (hlast _ hs₁)
    exact ⟨s₁, outs, s', o, hs₁, hs', hP⟩

/-- The same for steps that always succeed. -/
theorem run_exact_total {fits : σ → ι → Prop} {Inv : List ι → σ → Prop}
    {P : List ι → ι → σ → σ → ω → Prop}
    (hstep : ∀ past s i, Inv past s → ok s i → ∃ s' o, step s i = some (s', o) ∧
      (P past i s s' o ↔ fits s i) ∧ (fits s i → Inv (past ++ [i]) s'))
    (h : Inv [] s) (hok : Meets step ok s is) :
    (∀ past i, past ++ [i] <+: is → ∃ s₁ outs s₂ o, run step s past = some (s₁, outs) ∧
      step s₁ i = some (s₂, o) ∧ P past i s₁ s₂ o) ↔ Meets step fits s is := by
  refine run_exact (fun past s i hinv hi => ?_) (fun past s i s' o hinv hi hfits hs => ?_) h hok
  · obtain ⟨s', o, hs, hiff, -⟩ := hstep past s i hinv hi
    rw [← hiff]
    constructor
    · rintro ⟨s₂, o₂, hs₂, hP⟩
      rw [hs] at hs₂
      cases hs₂
      exact hP
    · exact fun hP => ⟨s', o, hs, hP⟩
  · obtain ⟨s₂, o₂, hs₂, -, hkeep⟩ := hstep past s i hinv hi
    rw [hs] at hs₂
    cases hs₂
    exact hkeep hfits

/-! ## Looking back -/

/-- At some input of the run `p` was met, and `kept` has held in all states behind it. -/
inductive Since (step : σ → ι → Option (σ × ω)) (s₀ : σ) (p : σ → ι → Prop) (kept : σ → Prop) :
    List ι → Prop where
  | here {past : List ι} {outs : List ω} {s s' : σ} {i : ι} {o : ω} :
      run step s₀ past = some (s, outs) → step s i = some (s', o) → p s i → kept s' →
        Since step s₀ p kept (past ++ [i])
  | later {past : List ι} {outs : List ω} {s s' : σ} {i : ι} {o : ω} :
      Since step s₀ p kept past → run step s₀ past = some (s, outs) → step s i = some (s', o) →
        kept s' → Since step s₀ p kept (past ++ [i])

variable {s₀ : σ} {p : σ → ι → Prop} {held : σ → Prop}

theorem not_since_nil : ¬ Since step s₀ p held [] := by
  intro h
  generalize heq : ([] : List ι) = past at h
  cases h with
  | here => simp at heq
  | later => simp at heq

theorem since_concat (hrun : run step s₀ past = some (s, outs)) (hs : step s i = some (s', o)) :
    Since step s₀ p held (past ++ [i]) ↔ held s' ∧ (p s i ∨ Since step s₀ p held past) := by
  constructor
  · intro h
    generalize heq : past ++ [i] = past' at h
    cases h with
    | here hrun' hs' hp hkept =>
      obtain ⟨rfl, hi⟩ := append_inj' heq rfl
      cases hi
      rw [hrun] at hrun'
      cases hrun'
      rw [hs] at hs'
      cases hs'
      exact ⟨hkept, .inl hp⟩
    | later hbefore hrun' hs' hkept =>
      obtain ⟨rfl, hi⟩ := append_inj' heq rfl
      cases hi
      rw [hrun] at hrun'
      cases hrun'
      rw [hs] at hs'
      cases hs'
      exact ⟨hkept, .inr hbefore⟩
  · rintro ⟨hkept, hp | hbefore⟩
    · exact .here hrun hs hp hkept
    · exact .later hbefore hrun hs hkept

theorem Since.kept (h : Since step s₀ p held past) (hrun : run step s₀ past = some (s, outs)) :
    held s := by
  cases h with
  | here hrun' hs' hp hkept =>
    rw [run_concat hrun' hs'] at hrun
    cases hrun
    exact hkept
  | later hbefore hrun' hs' hkept =>
    rw [run_concat hrun' hs'] at hrun
    cases hrun
    exact hkept

end Runs
