import NetSim.Scheduler.CalendarLinkedRuns

/-! # The bookkeeping of the calendar queue

In every state that admissible calls reach, the numbers of the calendar queue fit the events that its
pointers hold: `calendar_bookkeeping`.
-/

namespace NetSim

open List CyclicList StableOrder

namespace LinkedCalendar

variable {m : LinkedCalendar} {c : Calendar} {q h : List Event} {i : ℕ} {sqrt : ℚ → ℚ}

/-! ## The refinement -/

/-- The pointers and the queued events in order of insertion. -/
def LinkedRel (m : LinkedCalendar) (h : List Event) : Prop :=
  ∃ c q, Models m c ∧ ListRel q h ∧ c.Inv q

theorem linkedScheduler_simulation (hsqrt : ∀ x, 0 < x → 0 < sqrt x) :
    Scheduler.Simulation (linkedScheduler sqrt) arrivalQueue Scheduler.Always CallOk LinkedRel := by
  rintro m h op ⟨c, q, hmodels, r, hinv⟩ _ hok
  have hq := r.inv
  have hok' := r.callOk hok
  obtain ⟨c', h', out, hstep, hstep', q', r', hinv'⟩ :=
    calendarScheduler_simulation (widths_positive hsqrt) c h op ⟨q, r, hinv⟩ trivial hok
  suffices hm : ∃ m', (linkedScheduler sqrt).step m op = some (m', out) ∧ Models m' c' by
    obtain ⟨m', hm', hmodels'⟩ := hm
    exact ⟨m', h', out, hm', hstep', c', q', hmodels', r', hinv'⟩
  cases op with
  | insert e =>
    obtain ⟨rfl, rfl⟩ := Prod.mk.inj (Option.some.inj hstep)
    obtain ⟨m', hrun, hmodels'⟩ := @Models.insert _ _ _ _ sqrt hmodels hinv hq hok'
    refine ⟨m', ?_, hmodels'⟩
    simp only [Scheduler.step, linkedScheduler, hrun]
    rfl
  | cancel e =>
    simp only [Scheduler.step, calendarScheduler] at hstep
    cases hc : c.cancel e with
    | none =>
      rw [hc] at hstep
      cases hstep
    | some c₁ =>
      rw [hc] at hstep
      obtain ⟨rfl, rfl⟩ := Prod.mk.inj (Option.some.inj hstep)
      obtain ⟨m', hrun, hmodels'⟩ := hmodels.cancel hinv hq hok' hc
      refine ⟨m', ?_, hmodels'⟩
      simp only [Scheduler.step, linkedScheduler, hrun]
      rfl
  | deque =>
    obtain ⟨m', c₁, hrun, hc, hmodels'⟩ := hmodels.deque hsqrt hinv hq
    simp only [Scheduler.step, calendarScheduler, hc] at hstep
    obtain ⟨rfl, rfl⟩ := Prod.mk.inj (Option.some.inj hstep)
    refine ⟨m', ?_, hmodels'⟩
    simp only [Scheduler.step, linkedScheduler, hrun]
    rfl
  | head =>
    obtain ⟨c₁, hc, -⟩ := hinv.head hq.sorted
    obtain ⟨m', hrun, hmodels'⟩ := hmodels.head hc
    simp only [Scheduler.step, calendarScheduler, hc] at hstep
    obtain ⟨rfl, rfl⟩ := Prod.mk.inj (Option.some.inj hstep)
    refine ⟨m', ?_, hmodels'⟩
    simp only [Scheduler.step, linkedScheduler, hrun]
    rfl

/-! ## The bookkeeping -/

/-- The bucket `i` is a circular list, sorted by time, of the queued events of its hash; it counts
their times. -/
def BucketOk (m : LinkedCalendar) (h : List Event) (i : ℕ) : Prop :=
  ∃ l, m.list i = l.head? ∧ Holds m.next m.prev l ∧ Sorted Event.time l ∧
    (∀ e, e ∈ l ↔ e ∈ h ∧ m.cal.hash e.time = i) ∧
    (m.cal.buckets i).count = distinctTimes l

/-- The calendar queue holds the events of `h`, and its numbers fit them. -/
structure Bookkeeping (m : LinkedCalendar) (h : List Event) : Prop where
  qsize : m.cal.qsize = h.length
  hashed : ∀ e ∈ h, m.cal.hash e.time < m.cal.nbuckets
  bucket : ∀ i < m.cal.nbuckets, BucketOk m h i
  statQsize : m.cal.statQsize = ∑ i ∈ Finset.range m.cal.nbuckets, (m.cal.buckets i).count
  four_le : 4 ≤ m.cal.nbuckets
  width_pos : 0 < m.cal.width

theorem distinctTimes_eq_sum {n : ℕ} (hn : ∀ e ∈ q, c.hash e.time < n) :
    distinctTimes q = ∑ i ∈ Finset.range n, distinctTimes (c.share i q) := by
  have hfiber : ∀ i, (q.map Event.time).toFinset.filter (fun t => c.hash t = i) =
      ((c.share i q).map Event.time).toFinset := by
    intro i
    ext t
    simp only [Finset.mem_filter, mem_toFinset, mem_map, Calendar.share,
      mem_filter, decide_eq_true_eq]
    constructor
    · rintro ⟨⟨e, he, rfl⟩, hi⟩
      exact ⟨e, ⟨he, hi⟩, rfl⟩
    · rintro ⟨e, ⟨he, hi⟩, rfl⟩
      exact ⟨⟨e, he, rfl⟩, hi⟩
  rw [distinctTimes, Finset.card_eq_sum_card_fiberwise (f := c.hash) (t := Finset.range n)]
  · exact Finset.sum_congr rfl (fun i _ => congrArg Finset.card (hfiber i))
  · intro t ht
    obtain ⟨e, he, rfl⟩ := mem_map.mp (mem_toFinset.mp ht)
    exact Finset.mem_coe.mpr (Finset.mem_range.mpr (hn e he))

theorem LinkedRel.bookkeeping (hrel : LinkedRel m h) : Bookkeeping m h := by
  obtain ⟨c, q, hmodels, r, hinv⟩ := hrel
  have hperm := r.agree.perm
  have hcal := hmodels.cal
  have hnbuckets : m.cal.nbuckets = c.nbuckets := by
    rw [hcal]
    rfl
  have hcount : ∀ i, (m.cal.buckets i).count = distinctTimes (c.share i q) := by
    intro i
    rw [hcal, Calendar.bare_count, hinv.filled.count, hinv.filled.list]
  have hhashed : ∀ e ∈ q, c.hash e.time < c.nbuckets := fun e he =>
    calendarHash_lt hinv.width_pos (hinv.time_nonneg he) (by have := hinv.four_le; omega)
  refine ⟨?_, fun e he => ?_, fun i _ => ?_, ?_, ?_, ?_⟩
  · rw [hmodels.qsize, hinv.filled.qsize, hperm.length_eq]
  · rw [hmodels.hash, hnbuckets]
    exact hhashed e (hperm.mem_iff.mpr he)
  · refine ⟨(c.buckets i).list, hmodels.list i, hmodels.circle i,
      hinv.filled.sorted r.inv.sorted i, fun e => ?_, ?_⟩
    · rw [hinv.filled.list, hmodels.hash, ← hperm.mem_iff]
      simp [Calendar.share]
    · rw [hcount, hinv.filled.list]
  · have hstat : m.cal.statQsize = c.statQsize := by
      rw [hcal]
      rfl
    rw [hstat, hinv.filled.statQsize, distinctTimes_eq_sum hhashed, hnbuckets]
    push_cast
    exact Finset.sum_congr rfl (fun i _ => (hcount i).symm)
  · rw [hnbuckets]
    exact hinv.four_le
  · rw [hcal]
    exact hinv.width_pos

end LinkedCalendar

/-- **The bookkeeping of the calendar queue**: no call of an admissible run fails an assertion, and
in the state that it reaches the counters, the bucket lists and the width fit the queued events. -/
theorem calendar_bookkeeping (sqrt : ℚ → ℚ) (hsqrt : ∀ x, 0 < x → 0 < sqrt x) (minBinWidth : ℚ)
    (interval : ℕ) (uninit : WidthStats) (ops : List Op)
    (hok : Scheduler.Admissible arrivalQueue CallOk [] ops) :
    ∃ m h outs,
      (linkedScheduler sqrt).run (LinkedCalendar.init minBinWidth interval uninit) ops =
        some (m, outs) ∧
      arrivalQueue.run [] ops = some (h, outs) ∧
      LinkedCalendar.Bookkeeping m h := by
  have hinit : LinkedCalendar.Models (LinkedCalendar.init minBinWidth interval uninit)
      (Calendar.init minBinWidth interval uninit) := ⟨rfl, fun _ => rfl, fun _ => trivial⟩
  obtain ⟨m, h, outs, h₁, h₂, hrel⟩ :=
    (LinkedCalendar.linkedScheduler_simulation hsqrt).run ops _ []
      ⟨_, [], hinit, ⟨queueInv_nil, fun _ => rfl⟩, Calendar.inv_init minBinWidth interval uninit⟩
      (Scheduler.admissible_always _ _ _) hok
  exact ⟨m, h, outs, h₁, h₂, hrel.bookkeeping⟩

/-- Enough events of different times for a resize, then one is cancelled and one is taken out. -/
theorem calendar_bookkeeping_resized :
    ∃ m h outs,
      (linkedScheduler Rat.sqrt).run (LinkedCalendar.init (1 / 10 ^ 18) 10 ⟨0, 0, 0, 0, 0, 0, 0⟩)
        [.insert ⟨1, 1, 1⟩, .insert ⟨2, 2, 2⟩, .insert ⟨3, 3, 3⟩, .insert ⟨4, 4, 4⟩,
          .insert ⟨5, 5, 5⟩, .insert ⟨6, 6, 6⟩, .insert ⟨7, 7, 7⟩, .insert ⟨8, 8, 8⟩,
          .insert ⟨9, 9, 9⟩, .insert ⟨10, 9, 10⟩, .cancel ⟨9, 9, 9⟩, .deque] = some (m, outs) ∧
      arrivalQueue.run []
        [.insert ⟨1, 1, 1⟩, .insert ⟨2, 2, 2⟩, .insert ⟨3, 3, 3⟩, .insert ⟨4, 4, 4⟩,
          .insert ⟨5, 5, 5⟩, .insert ⟨6, 6, 6⟩, .insert ⟨7, 7, 7⟩, .insert ⟨8, 8, 8⟩,
          .insert ⟨9, 9, 9⟩, .insert ⟨10, 9, 10⟩, .cancel ⟨9, 9, 9⟩, .deque] = some (h, outs) ∧
      LinkedCalendar.Bookkeeping m h :=
  calendar_bookkeeping Rat.sqrt (fun _ hx => Calendar.sqrt_pos hx) (1 / 10 ^ 18) 10
    ⟨0, 0, 0, 0, 0, 0, 0⟩ _ (by decide)

end NetSim
