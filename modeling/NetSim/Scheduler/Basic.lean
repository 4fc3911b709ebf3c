import NetSim.Lib.StableOrder
import Mathlib.Data.Rat.Defs

/-! # Events, scheduler operations and runs

The interface `class Scheduler` of `common/scheduler.h`: a scheduler holds `Event` objects and
offers `insert`, `cancel`, `deque` and `head`. The three priority-queue schedulers of the
simulator (`ListScheduler`, `HeapScheduler`, `CalendarScheduler`) are values of `Scheduler`
over their own state; a run is a list of operations, and two schedulers are compared by what
their `deque` and `head` calls return along one run (`Scheduler.Simulation`).

Virtual times are exact rationals. An operation that reaches an `abort` or a failed `assert`
of the source has the result `none`.
-/

namespace NetSim

/-- An `Event` as the schedulers see it: the address of the object and its fields `time_` and
`uid_`. Neither field changes while the event is queued. -/
structure Event where
  id : Nat
  time : ℚ
  uid : Int
deriving DecidableEq

/-- The virtual functions of `class Scheduler` that work on the event queue. `deque` and `head`
return `none` in the second component for the null pointer. -/
structure Scheduler (σ : Type) where
  insert : σ → Event → Option σ
  cancel : σ → Event → Option σ
  deque : σ → Option (σ × Option Event)
  head : σ → Option (σ × Option Event)

inductive Op where
  | insert (e : Event)
  | cancel (e : Event)
  | deque
  | head
deriving DecidableEq

namespace Scheduler

variable {σ τ : Type}

/-- One call: the new state and the events it returned (none for `insert` and `cancel`). -/
def step (S : Scheduler σ) (s : σ) : Op → Option (σ × List (Option Event))
  | .insert e => (S.insert s e).map (fun s' => (s', []))
  | .cancel e => (S.cancel s e).map (fun s' => (s', []))
  | .deque => (S.deque s).map (fun r => (r.1, [r.2]))
  | .head => (S.head s).map (fun r => (r.1, [r.2]))

def run (S : Scheduler σ) (s : σ) : List Op → Option (σ × List (Option Event))
  | [] => some (s, [])
  | op :: ops =>
    match S.step s op with
    | none => none
    | some (s', out) => (run S s' ops).map (fun r => (r.1, out ++ r.2))

theorem run_cons {S : Scheduler σ} {s s' : σ} {op : Op} {out : List (Option Event)}
    (h : S.step s op = some (s', out)) (ops : List Op) :
    S.run s (op :: ops) = (S.run s' ops).map (fun r => (r.1, out ++ r.2)) := by
  simp only [run, h]

/-- The calls of `ops`, made one after the other from `s`, all meet `V`. -/
def Admissible (S : Scheduler σ) (V : σ → Op → Prop) : σ → List Op → Prop
  | _, [] => True
  | s, op :: ops =>
    V s op ∧ ∀ s' out, S.step s op = some (s', out) → Admissible S V s' ops

instance decidableAdmissible (S : Scheduler σ) (V : σ → Op → Prop) [∀ s op, Decidable (V s op)] :
    ∀ (s : σ) (ops : List Op), Decidable (Admissible S V s ops)
  | _, [] => inferInstanceAs (Decidable True)
  | s, op :: ops =>
    match h : S.step s op with
    | none => decidable_of_iff (V s op) ⟨fun hV => ⟨hV, by simp [h]⟩, fun hA => hA.1⟩
    | some (s', _) =>
      have : Decidable (Admissible S V s' ops) := decidableAdmissible S V s' ops
      decidable_of_iff (V s op ∧ Admissible S V s' ops)
        ⟨fun hA => ⟨hA.1, by
            intro s'' out' h'
            obtain ⟨rfl, -⟩ := Prod.mk.inj (Option.some.inj (h.symm.trans h'))
            exact hA.2⟩,
          fun hA => ⟨hA.1, hA.2 s' _ h⟩⟩

def Always (_ : σ) (_ : Op) : Prop := True

theorem admissible_always (S : Scheduler σ) (s : σ) (ops : List Op) :
    Admissible S Always s ops := by
  induction ops generalizing s with
  | nil => trivial
  | cons op ops ih => exact ⟨trivial, fun s' _ _ => ih s'⟩

/-- `S` and `T` answer alike: related states stay related under every call that meets `V` at `S`
and `W` at `T`, and the two calls return the same events. -/
def Simulation (S : Scheduler σ) (T : Scheduler τ) (V : σ → Op → Prop) (W : τ → Op → Prop)
    (R : σ → τ → Prop) : Prop :=
  ∀ s t op, R s t → V s op → W t op →
    ∃ s' t' out, S.step s op = some (s', out) ∧ T.step t op = some (t', out) ∧ R s' t'

/-- **Runs of simulating schedulers agree.** No call of the run aborts, the events returned are
the same, and the final states are related. -/
theorem Simulation.run {S : Scheduler σ} {T : Scheduler τ} {V : σ → Op → Prop}
    {W : τ → Op → Prop} {R : σ → τ → Prop} (sim : Simulation S T V W R) (ops : List Op) :
    ∀ s t, R s t → Admissible S V s ops → Admissible T W t ops →
      ∃ s' t' outs, S.run s ops = some (s', outs) ∧ T.run t ops = some (t', outs) ∧ R s' t' := by
  induction ops with
  | nil =>
    intro s t hR _ _
    exact ⟨s, t, [], rfl, rfl, hR⟩
  | cons op ops ih =>
    intro s t hR hV hW
    obtain ⟨s', t', out, hs, ht, hR'⟩ := sim s t op hR hV.1 hW.1
    obtain ⟨s'', t'', outs, hs', ht', hR''⟩ := ih s' t' hR' (hV.2 s' out hs) (hW.2 t' out ht)
    refine ⟨s'', t'', out ++ outs, ?_, ?_, hR''⟩
    · rw [run_cons hs, hs']; rfl
    · rw [run_cons ht, ht']; rfl

end Scheduler

end NetSim
