import Mathlib.Data.List.Nodup
import NetSim.Lib.CyclicList

/-! # Queues that are served in turn

The queues that are not empty stand in a ring; `pop` takes one element from the first of them, which then goes to
the end of the ring if it is not empty yet. No queue that waits is passed over (`pop_place`, `push_place`).
-/

open Function List

variable {κ α : Type}

structure QueueTurns (κ α : Type) where
  ring : List κ
  queue : κ → List α

namespace QueueTurns

def empty : QueueTurns κ α := ⟨[], fun _ => []⟩

def total (r : QueueTurns κ α) : ℕ := (r.ring.map (fun f => (r.queue f).length)).sum

/-- The ring holds each queue that is not empty once. -/
structure Wf (r : QueueTurns κ α) : Prop where
  nodup : r.ring.Nodup
  mem : ∀ f, f ∈ r.ring ↔ r.queue f ≠ []

variable {r r' : QueueTurns κ α} {c f g : κ} {t : List κ} {a : α} {as : List α}

theorem wf_empty : Wf (empty : QueueTurns κ α) := ⟨nodup_nil, fun f => by simp [empty]⟩

theorem Wf.not_mem (h : Wf r) (hf : r.queue f = []) : f ∉ r.ring := fun hmem => (h.mem f).mp hmem hf

theorem Wf.length_le_total (h : Wf r) (f : κ) : (r.queue f).length ≤ r.total := by
  by_cases hf : r.queue f = []
  · rw [hf]
    exact Nat.zero_le _
  · exact single_le_sum (fun _ _ => Nat.zero_le _) _ (mem_map_of_mem ((h.mem f).mpr hf))

variable [DecidableEq κ]

def push (r : QueueTurns κ α) (f : κ) (a : α) : QueueTurns κ α where
  ring := if r.queue f = [] then r.ring ++ [f] else r.ring
  queue := update r.queue f (r.queue f ++ [a])

def pop (r : QueueTurns κ α) : Option (QueueTurns κ α × κ × α) :=
  match r.ring with
  | [] => none
  | c :: t =>
    match r.queue c with
    | [] => none
    | a :: as => some (⟨if as = [] then t else t ++ [c], update r.queue c as⟩, c, a)

theorem push_queue : (r.push f a).queue = update r.queue f (r.queue f ++ [a]) := rfl

/-- A well-formed ring whose first queue is served. -/
theorem Wf.pop_cons (h : Wf r) (hring : r.ring = c :: t) :
    ∃ a as, r.queue c = a :: as ∧
      r.pop = some (⟨if as = [] then t else t ++ [c], update r.queue c as⟩, c, a) := by
  have hne : r.queue c ≠ [] := (h.mem c).mp (hring ▸ mem_cons_self)
  obtain ⟨a, as, hq⟩ := exists_cons_of_ne_nil hne
  refine ⟨a, as, hq, ?_⟩
  unfold pop
  rw [hring]
  dsimp only
  rw [hq]

theorem pop_spec (hpop : r.pop = some (r', c, a)) :
    ∃ t as, r.ring = c :: t ∧ r.queue c = a :: as ∧
      r' = ⟨if as = [] then t else t ++ [c], update r.queue c as⟩ := by
  unfold pop at hpop
  split at hpop
  · cases hpop
  · rename_i d t hring
    split at hpop
    · cases hpop
    · rename_i b bs hq
      cases hpop
      exact ⟨t, bs, hring, hq, rfl⟩

theorem Wf.push (h : Wf r) (f : κ) (a : α) : Wf (r.push f a) := by
  constructor
  · unfold QueueTurns.push
    dsimp only
    split
    · rename_i hf
      exact nodup_append'.mpr ⟨h.nodup, nodup_singleton f, by simpa using h.not_mem hf⟩
    · exact h.nodup
  · intro g
    unfold QueueTurns.push
    dsimp only
    by_cases hg : g = f
    · subst hg
      rw [update_self]
      split
      · simp
      · rename_i hne
        simp [(h.mem g).mpr hne]
    · rw [update_of_ne hg, ← h.mem g]
      split
      · simp [hg]
      · rfl

theorem Wf.pop (h : Wf r) (hpop : r.pop = some (r', c, a)) : Wf r' := by
  obtain ⟨t, as, hring, hq, rfl⟩ := pop_spec hpop
  have hnodup := h.nodup
  rw [hring] at hnodup
  obtain ⟨hc, ht⟩ := nodup_cons.mp hnodup
  constructor
  · dsimp only
    split
    · exact ht
    · exact nodup_append'.mpr ⟨ht, nodup_singleton c, by simpa using hc⟩
  · intro g
    have hmem := h.mem g
    rw [hring, mem_cons] at hmem
    dsimp only
    by_cases hg : g = c
    · subst hg
      rw [update_self]
      split
      · rename_i has
        simp [has, hc]
      · rename_i has
        simp [has]
    · rw [update_of_ne hg, ← hmem]
      split
      · simp [hg]
      · simp [hg, or_comm]

/-! ## The number of elements -/

theorem Wf.total_of_ne (h : Wf r) (h' : Wf r') (f : κ) (hne : ∀ g, g ≠ f → r'.queue g = r.queue g) :
    r'.total + (r.queue f).length = r.total + (r'.queue f).length := by
  have hsum := @CyclicList.sum_map_member κ f r.ring _ (fun g => (r.queue g).length)
    (fun g => (r'.queue g).length) r'.ring h.nodup h'.nodup
    (fun g hg => by rw [h'.mem, h.mem, hne g hg]) (fun g hg => by rw [hne g hg])
    (fun hf => by simpa using not_not.mp ((h.mem f).not.mp hf))
    (fun hf => by simpa using not_not.mp ((h'.mem f).not.mp hf))
  unfold total
  omega

theorem Wf.total_push (h : Wf r) (f : κ) (a : α) : (r.push f a).total = r.total + 1 := by
  have htotal := h.total_of_ne (h.push f a) f (fun g hg => update_of_ne hg ..)
  rw [push_queue, update_self, length_append, length_singleton] at htotal
  omega

theorem Wf.total_pop (h : Wf r) (hpop : r.pop = some (r', c, a)) : r'.total + 1 = r.total := by
  have h' := h.pop hpop
  obtain ⟨t, as, -, hq, rfl⟩ := pop_spec hpop
  have htotal := h.total_of_ne h' c (fun g hg => update_of_ne hg ..)
  dsimp only at htotal
  rw [hq, update_self, length_cons] at htotal
  omega

/-! ## The order of turns -/

/-- **No overtaking**: with each element that is taken, every other queue that waits comes one place forward. -/
theorem pop_place (hpop : r.pop = some (r', c, a)) (hf : f ∈ r.ring) (hne : f ≠ c) :
    f ∈ r'.ring ∧ r'.ring.idxOf f + 1 = r.ring.idxOf f := by
  obtain ⟨t, as, hring, -, rfl⟩ := pop_spec hpop
  have ht : f ∈ t := by
    rw [hring] at hf
    exact (mem_cons.mp hf).resolve_left hne
  rw [hring, idxOf_cons_ne _ (Ne.symm hne)]
  dsimp only
  split
  · exact ⟨ht, rfl⟩
  · exact ⟨mem_append_left _ ht, by rw [idxOf_append_of_mem ht]⟩

theorem push_place (hf : f ∈ r.ring) :
    f ∈ (r.push g a).ring ∧ (r.push g a).ring.idxOf f = r.ring.idxOf f := by
  unfold push
  dsimp only
  split
  · exact ⟨mem_append_left _ hf, idxOf_append_of_mem hf⟩
  · exact ⟨hf, rfl⟩

end QueueTurns
