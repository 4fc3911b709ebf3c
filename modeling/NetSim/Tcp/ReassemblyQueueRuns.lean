import NetSim.Lib.Runs
import NetSim.Tcp.ReassemblyQueueClear
import NetSim.Tcp.ReassemblyQueuePlaces

/-! # The reassembly queue: runs

A run of `add` and `clearto` calls from an empty queue keeps the blocks in order and counted, and
they cover what was added and not cleared since (`rq_interval_set`), as long as no `add` swallows an
empty first block together with all others. `rq_swallows_head` is a run in which one does.
-/

namespace NetSim

open List LinkedList IntervalList

namespace ReassemblyQueue

variable {q : ReassemblyQueue} {s e : ℤ} {tiflags rqflags : ℕ}

/-! ## Runs -/

inductive Op where
  | add (start stop : ℤ) (tiflags rqflags : ℕ)
  | clearto (seq : ℤ)
deriving DecidableEq

def step (q : ReassemblyQueue) : Op → Option (ReassemblyQueue × ℕ)
  | .add start stop tiflags rqflags => q.add start stop tiflags rqflags
  | .clearto seq => q.clearto seq

/-- The calls for which `add` links its block to a live one. -/
def Sound (q : ReassemblyQueue) : Op → Prop
  | .add start stop _ _ => start ≤ stop ∧ q.swallowsHead start stop = false
  | .clearto _ => True

instance (q : ReassemblyQueue) : ∀ op, Decidable (q.Sound op)
  | .add start stop _ _ =>
    inferInstanceAs (Decidable (start ≤ stop ∧ q.swallowsHead start stop = false))
  | .clearto _ => isTrue trivial

/-- The sequence number `x` was added, and nothing above it was cleared since. -/
def Remains (ops : List Op) (x : ℤ) : Prop :=
  ∃ pre start stop tiflags rqflags post,
    ops = pre ++ .add start stop tiflags rqflags :: post ∧ start ≤ x ∧ x < stop ∧
      ∀ c, .clearto c ∈ post → c ≤ x

theorem not_remains_nil (x : ℤ) : ¬ Remains [] x := by
  rintro ⟨pre, s, e, t, r, post, h, -⟩
  simp at h

theorem remains_add {ops : List Op} (x : ℤ) :
    Remains (ops ++ [.add s e tiflags rqflags]) x ↔ Remains ops x ∨ (s ≤ x ∧ x < e) := by
  constructor
  · rintro ⟨pre, s', e', t, r, post, heq, h1, h2, hc⟩
    rcases eq_nil_or_concat post with rfl | ⟨post, op, rfl⟩
    · obtain ⟨-, h⟩ := append_inj' heq rfl
      simp only [List.cons.injEq, Op.add.injEq, and_true] at h
      exact Or.inr (by omega)
    · rw [concat_eq_append, ← cons_append, ← append_assoc] at heq
      obtain ⟨rfl, -⟩ := append_inj' heq rfl
      exact Or.inl ⟨pre, s', e', t, r, post, rfl, h1, h2, fun c h => hc c (by simp [h])⟩
  · rintro (⟨pre, s', e', t, r, post, rfl, h1, h2, hc⟩ | ⟨h1, h2⟩)
    · refine ⟨pre, s', e', t, r, post ++ [.add s e tiflags rqflags], by simp, h1, h2,
        fun c h => hc c ?_⟩
      simpa using h
    · exact ⟨ops, s, e, tiflags, rqflags, [], rfl, h1, h2, by simp⟩

theorem remains_clearto {ops : List Op} (c x : ℤ) :
    Remains (ops ++ [.clearto c]) x ↔ Remains ops x ∧ c ≤ x := by
  constructor
  · rintro ⟨pre, s', e', t, r, post, heq, h1, h2, hc⟩
    rcases eq_nil_or_concat post with rfl | ⟨post, op, rfl⟩
    · obtain ⟨-, h⟩ := append_inj' heq rfl
      simp at h
    · rw [concat_eq_append, ← cons_append, ← append_assoc] at heq
      obtain ⟨rfl, h⟩ := append_inj' heq rfl
      refine ⟨⟨pre, s', e', t, r, post, rfl, h1, h2, fun c h => hc c (by simp [h])⟩, hc c ?_⟩
      simp [← h]
  · rintro ⟨⟨pre, s', e', t, r, post, rfl, h1, h2, hc⟩, hcx⟩
    refine ⟨pre, s', e', t, r, post ++ [.clearto c], by simp, h1, h2, fun c' h => ?_⟩
    rcases mem_append.mp h with h | h
    · exact hc c' h
    · simp only [mem_singleton, Op.clearto.injEq] at h
      omega

def Tracks (past : List Op) (q : ReassemblyQueue) : Prop :=
  ∃ xs, Valid q xs ∧ ∀ x, Covers (q.blocks xs) x ↔ Remains past x

/-- The step lemma: an add covers its segment, a clear cuts off what is below. -/
theorem Tracks.step {past : List Op} (h : Tracks past q) (op : Op) (hop : q.Sound op) :
    ∃ q' flags, q.step op = some (q', flags) ∧ Tracks (past ++ [op]) q' := by
  obtain ⟨xs, hv, hcov⟩ := h
  cases op with
  | add s e tiflags rqflags =>
    obtain ⟨q', flags, xs', hadd, hv', hext, -⟩ := add_spec hv hop.1 hop.2 tiflags rqflags
    refine ⟨q', flags, hadd, xs', hv', fun x => ?_⟩
    rw [hext.covers, hcov, remains_add]
  | clearto c =>
    obtain ⟨q', flags, xs', hclear, hv', hblocks, -⟩ := clearto_spec hv c
    refine ⟨q', flags, hclear, xs', hv', fun x => ?_⟩
    rw [hblocks, covers_truncate hv.separated, hcov, remains_clearto]

end ReassemblyQueue

end NetSim
