import NetSim.Scheduler.CalendarLinked

/-! # The pointers of the calendar queue: the operations

Every operation on the pointers does what the operation on the lists of the buckets does: it meets no
failing assertion, its loops end, and the pointers hold the new buckets.
-/

namespace NetSim

open Function List CyclicList StableOrder

namespace Calendar

variable {c : Calendar}

/-- The calendar with the heads of its buckets only. -/
def heads (c : Calendar) : Calendar :=
  { c with buckets := fun i => ⟨(c.buckets i).list.head?.toList, (c.buckets i).count⟩ }

theorem calDequeue_heads (diff : ℚ) (s : Scan) :
    c.heads.calDequeue diff s = c.calDequeue diff s := by
  have hlist : (c.heads.buckets s.i).list = (c.buckets s.i).list.head?.toList := rfl
  rw [calDequeue, calDequeue, hlist]
  cases (c.buckets s.i).list with
  | nil => rfl
  | cons e rest => rfl

theorem scanYear_heads (stop fuel : ℕ) (s : Scan) :
    c.heads.scanYear stop fuel s = c.scanYear stop fuel s := by
  induction fuel generalizing s with
  | zero => rfl
  | succ fuel ih =>
    have hdiff : c.heads.diff2 = c.diff2 := rfl
    rw [scanYear, scanYear, calDequeue_heads, hdiff]
    split
    · rfl
    · cases c.calDequeue c.diff2 s with
      | inl r => rfl
      | inr s' => exact ih s'

theorem search_heads : c.heads.search = c.search := by
  have hfields : c.heads.diff0 = c.diff0 ∧ c.heads.diff1 = c.diff1 ∧
      c.heads.lastbucket = c.lastbucket ∧ c.heads.nbuckets = c.nbuckets := ⟨rfl, rfl, rfl, rfl⟩
  rw [search, search, calDequeue_heads, hfields.1, hfields.2.1, hfields.2.2.1, hfields.2.2.2]
  cases c.calDequeue c.diff0 ⟨c.lastbucket, none, 0⟩ with
  | inl r => rfl
  | inr s =>
    dsimp only
    rw [calDequeue_heads]
    cases c.calDequeue c.diff1 s with
    | inl r => rfl
    | inr s =>
      dsimp only
      rw [scanYear_heads]
      cases c.scanYear _ c.nbuckets s with
      | none => rfl
      | some r =>
        cases r with
        | inl r => rfl
        | inr s =>
          have hlist : (c.heads.buckets s.i).list =
              (c.buckets s.i).list.head?.toList := rfl
          dsimp only
          rw [hlist]
          cases (c.buckets s.i).list with
          | nil => rfl
          | cons e rest => cases s.minE <;> rfl

end Calendar

namespace LinkedCalendar

variable {m m' : LinkedCalendar} {c c' : Calendar} {q : List Event} {e : Event} {i n : ℕ}
  {sqrt : ℚ → ℚ}

/-- The widths that the code picks. -/
def widths (sqrt : ℚ → ℚ) : WidthPolicy := ⟨sqrt, Calendar.newwidth⟩

theorem widths_positive (hsqrt : ∀ x, 0 < x → 0 < sqrt x) : Calendar.Positive (widths sqrt) where
  sqrt_pos := hsqrt
  newwidth_pos _ _ _ hq h hn := Calendar.newwidth_pos h hq hn

theorem Models.setCal (h : Models m c) (hbuckets : c'.buckets = c.buckets) {cal : Calendar}
    (hcal : cal = c'.bare) : Models { m with cal := cal } c' := by
  refine ⟨hcal, fun i => ?_, fun i => ?_⟩
  · rw [hbuckets]
    exact h.list i
  · rw [hbuckets]
    exact h.circle i

theorem Models.setStats (h : Models m c) (s : WidthStats) :
    Models (m.setStats s) { c with stats := s } := by
  refine h.setCal (by rfl) ?_
  rw [h.cal]
  rfl

/-! ## Resizing -/

theorem Models.rebuild (h : Models m c) (hf : Calendar.Filled c q) {width start : ℚ} :
    ∃ m', m.rebuild n width start = some m' ∧ Models m' (c.rebuild n width start) := by
  have hhash := Hashed.of_filled hf
  have hempty : Models { m with cal := m.cal.reinit n width start, list := fun _ => none }
      (c.reinit n width start) := by
    refine ⟨?_, fun i => rfl, fun i => trivial⟩
    rw [h.cal]
    rfl
  obtain ⟨m', hrun, hmodels⟩ := @moveBuckets_models _ _ [] (fun i => (c.buckets i).list) m.list
    m.fuel (List.range c.nbuckets) h.list hempty (Calendar.filled_reinit c n width start)
    List.Pairwise.nil nodup_range (fun i _ => h.circle i)
    (fun i j hij x hx hxj => hij ((hhash i x hx).symm.trans (hhash j x hxj)))
    (fun i _ x _ => not_mem_nil) (fun i => (h.lt_fuel hf i).le)
  refine ⟨{ m' with cal := m'.cal.clearSearches }, ?_, hmodels.setCal (by rfl) ?_⟩
  · have hn : m.cal.nbuckets = c.nbuckets := by
      rw [h.cal]
      rfl
    rw [LinkedCalendar.rebuild, hn, hrun]
    rfl
  · rw [hmodels.cal]
    rfl

theorem Models.afterNewwidth (h : Models m c) :
    Models { m with cal := m.cal.afterNewwidth } c.afterNewwidth := by
  have hbuckets : c.afterNewwidth.buckets = c.buckets := by
    rw [Calendar.afterNewwidth]
    split <;> rfl
  refine h.setCal hbuckets ?_
  rw [h.cal, Calendar.afterNewwidth, Calendar.afterNewwidth]
  by_cases hinterval : c.adjustNewWidthInterval ≠ 0
  · rw [if_pos hinterval, if_pos (show c.bare.adjustNewWidthInterval ≠ 0 from hinterval)]
    rfl
  · rw [if_neg hinterval, if_neg (show ¬ c.bare.adjustNewWidthInterval ≠ 0 from hinterval)]

/-- **The assertion of `newwidth` holds**: a bucket with several times does not begin and end with the
same one. -/
theorem Models.newwidth (h : Models m c) (hinv : c.Inv q) (hq : QueueInv q) :
    m.newwidth n = some ({ m with cal := m.cal.afterNewwidth }, c.newwidth n) := by
  have hcal := h.cal
  have hmax : m.cal.maxBucket = c.maxBucket := by
    rw [hcal]
    rfl
  have hcount : (m.cal.buckets c.maxBucket).count = (c.buckets c.maxBucket).count := by
    rw [hcal]
    rfl
  have hgap : m.cal.stats.avgGap = c.stats.avgGap ∧
      m.cal.adjustNewWidthInterval = c.adjustNewWidthInterval ∧ m.cal.width = c.width := by
    rw [hcal]
    exact ⟨rfl, rfl, rfl⟩
  obtain ⟨hgap, hinterval, hwidth⟩ := hgap
  rw [LinkedCalendar.newwidth, Calendar.newwidth, hmax, hcount, hgap, hinterval, hwidth, h.list]
  by_cases havg : c.adjustNewWidthInterval ≠ 0 ∧ 0 < c.stats.avgGap
  · rw [if_pos havg, if_pos havg]
  · rw [if_neg havg, if_neg havg]
    by_cases hfew : (c.buckets c.maxBucket).count ≤ 4
    · rw [if_pos hfew, if_pos hfew]
    · rw [if_neg hfew, if_neg hfew]
      have hs := hinv.filled.sorted hq.sorted c.maxBucket
      have hc := hinv.filled.count c.maxBucket
      cases hl : (c.buckets c.maxBucket).list with
      | nil =>
        rw [hl] at hc
        simp at hc
        omega
      | cons head rest =>
        rw [hl] at hs hc
        have hlt := time_head_lt_last hs (by omega)
        rw [head?_cons]
        dsimp only
        rw [h.prev_head hl, if_pos (sub_pos.mpr hlt)]

theorem Models.resize (h : Models m c) (hinv : c.Inv q) (hq : QueueInv q) {start : ℚ} :
    ∃ m', m.resize sqrt n start = some m' ∧ Models m' (c.resize (widths sqrt) n start) := by
  have hfields : m.cal.nbuckets = c.nbuckets ∧ m.cal.stats = c.stats ∧ m.cal.width = c.width ∧
      m.cal.minBinWidth = c.minBinWidth := by
    rw [h.cal]
    exact ⟨rfl, rfl, rfl, rfl⟩
  obtain ⟨hnbuckets, hstats, hwidth, hmin⟩ := hfields
  have hnew : ∀ k, ∃ m', (m.newwidth n).bind (fun r => r.1.rebuild k r.2 start) = some m' ∧
      Models m' (c.afterNewwidth.rebuild k (c.newwidth n) start) := by
    intro k
    rw [h.newwidth hinv hq, Option.bind_some]
    exact h.afterNewwidth.rebuild hinv.afterNewwidth.filled
  rw [LinkedCalendar.resize, Calendar.resize, hnbuckets, hstats, hwidth, hmin]
  by_cases hsame : n = c.nbuckets
  · rw [if_pos hsame, if_pos hsame]
    by_cases hsmall : sqrt c.stats.searchRatio * c.width < c.minBinWidth
    · rw [if_pos hsmall, if_pos (show (widths sqrt).sqrt _ * _ < _ from hsmall)]
      by_cases htime : 0 < c.stats.timeToNewwidth
      · rw [if_pos htime, if_pos htime]
        exact ⟨_, rfl, h.setStats _⟩
      · rw [if_neg htime, if_neg htime]
        exact hnew n
    · rw [if_neg hsmall, if_neg (show ¬ (widths sqrt).sqrt _ * _ < _ from hsmall)]
      exact h.rebuild hinv.filled
  · rw [if_neg hsame, if_neg hsame]
    exact hnew _

/-! ## Inserting -/

theorem Models.insert (h : Models m c) (hinv : c.Inv q) (hq : QueueInv q)
    (hok : CallOk q (.insert e)) :
    ∃ m', m.insert sqrt e = some m' ∧ Models m' (c.insert (widths sqrt) e) := by
  have hq' := hq.insert hok.2
  rw [ListScheduler.insert_eq_insertLast] at hq'
  obtain ⟨hinv₁, hle⟩ := hinv.clockBack hok.1
  have hclock : m.cal.calClock = c.calClock := by
    rw [h.cal]
    rfl
  -- the clock moves back
  have hback : Models (if e.time < m.cal.calClock then
        { m with cal := { m.cal with calClock := e.time, lastbucket := m.cal.hash e.time } }
      else m) (if e.time < c.calClock then
        { c with calClock := e.time, lastbucket := c.hash e.time } else c) := by
    rw [hclock]
    split
    · refine h.setCal (by rfl) ?_
      rw [h.cal]
      rfl
    · exact h
  unfold LinkedCalendar.insert Calendar.insert
  generalize (if e.time < c.calClock then
    { c with calClock := e.time, lastbucket := c.hash e.time } else c) = c₁ at hinv₁ hle hback ⊢
  dsimp only
  have hout : e ∉ (c₁.buckets (c₁.hash e.time)).list := fun hmem =>
    hok.2 e (mem_of_bucket hinv₁.filled hmem) rfl
  obtain ⟨m₂, hrun, hmodels⟩ := hback.insertAt (Hashed.of_filled hinv₁.filled) rfl hout
    (hback.lt_fuel hinv₁.filled _)
  rw [hback.hash, hrun, Option.bind_some]
  have hinv₂ : (linkedLast c₁ (c₁.hash e.time) e).Inv (insertLast Event.time e q) :=
    hinv₁.linkLast hq.sorted hle _
  have hfields : m₂.cal.topThreshold = (linkedLast c₁ (c₁.hash e.time) e).topThreshold ∧
      m₂.cal.statQsize = (linkedLast c₁ (c₁.hash e.time) e).statQsize ∧
      m₂.cal.nbuckets = (linkedLast c₁ (c₁.hash e.time) e).nbuckets ∧
      m₂.cal.calClock = (linkedLast c₁ (c₁.hash e.time) e).calClock := by
    rw [hmodels.cal]
    exact ⟨rfl, rfl, rfl, rfl⟩
  rw [hfields.1, hfields.2.1, hfields.2.2.1, hfields.2.2.2]
  show ∃ m', _ ∧ Models m' (if (linkedLast c₁ (c₁.hash e.time) e).topThreshold <
      (linkedLast c₁ (c₁.hash e.time) e).statQsize then _ else
      linkedLast c₁ (c₁.hash e.time) e)
  split
  · exact hmodels.resize hinv₂ hq'
  · exact ⟨m₂, rfl, hmodels⟩

/-! ## Searching -/

theorem Models.headed (h : Models m c) : m.headed.search = c.search := by
  have hheaded : m.headed = c.heads := by
    have hlists : m.list = fun i => (c.buckets i).list.head? := funext h.list
    rw [LinkedCalendar.headed, h.cal, hlists]
    rfl
  rw [hheaded, Calendar.search_heads]

theorem Models.head (h : Models m c) {out : Option Event} (hrun : c.head = some (c', out)) :
    ∃ m', m.head = some (m', out) ∧ Models m' c' := by
  rw [Calendar.head] at hrun
  rw [LinkedCalendar.head, h.qsize, h.headed]
  by_cases hempty : c.qsize = 0
  · rw [if_pos hempty] at hrun ⊢
    obtain ⟨rfl, rfl⟩ := Prod.mk.inj (Option.some.inj hrun)
    exact ⟨m, rfl, h⟩
  · rw [if_neg hempty] at hrun ⊢
    cases hsearch : c.search with
    | none =>
      rw [hsearch] at hrun
      cases hrun
    | some r =>
      rw [hsearch] at hrun
      obtain ⟨rfl, rfl⟩ := Prod.mk.inj (Option.some.inj hrun)
      refine ⟨_, rfl, h.setCal (by rfl) ?_⟩
      rw [h.cal]
      rfl

/-! ## Removing -/

theorem Models.adjustWidth (h : Models m c) (hinv : c.Inv q) (hq : QueueInv q) :
    ∃ m', m.adjustWidth sqrt e = some m' ∧ Models m' (c.adjustWidth (widths sqrt) e) := by
  have hfields : m.cal.adjustNewWidthInterval = c.adjustNewWidthInterval ∧
      m.cal.stats = c.stats ∧ m.cal.qsize = c.qsize := by
    rw [h.cal]
    exact ⟨rfl, rfl, rfl⟩
  obtain ⟨hinterval, hstats, hqsize⟩ := hfields
  unfold LinkedCalendar.adjustWidth Calendar.adjustWidth
  rw [hinterval, hstats, hqsize]
  by_cases hoff : c.adjustNewWidthInterval = 0
  · rw [if_pos hoff, if_pos hoff]
    exact ⟨m, rfl, h⟩
  rw [if_neg hoff, if_neg hoff]
  by_cases hfirst : c.stats.lastTime < 0
  · rw [if_pos hfirst, if_pos hfirst]
    exact ⟨_, rfl, h.setStats _⟩
  rw [if_neg hfirst, if_neg hfirst]
  by_cases hgap : c.stats.gapNum + 1 < c.qsize
  · rw [if_pos hgap, if_pos hgap]
    exact ⟨_, rfl, h.setStats _⟩
  rw [if_neg hgap, if_neg hgap]
  -- the gap is measured
  obtain ⟨s, hs⟩ : ∃ s : WidthStats, s = { c.stats with
      avgGap := (e.time - c.stats.lastTime) / ((c.stats.gapNum + 1 : ℤ) : ℚ)
      gapNum := 0
      lastTime := e.time
      roundNum := c.stats.roundNum + 1 } := ⟨_, rfl⟩
  have hround : s.roundNum = c.stats.roundNum + 1 ∧ s.insertSearch = c.stats.insertSearch ∧
      s.headSearch = c.stats.headSearch := by
    rw [hs]
    exact ⟨rfl, rfl, rfl⟩
  simp only [← hs]
  have hmeasured := h.setStats s
  have hinv' := hinv.setStats s
  have hfields : (m.setStats s).cal.stats = s ∧ (m.setStats s).cal.nbuckets = c.nbuckets ∧
      (m.setStats s).cal.calClock = c.calClock := by
    rw [hmeasured.cal]
    exact ⟨rfl, rfl, rfl⟩
  rw [hfields.1, hfields.2.1, hfields.2.2, hround.1, hround.2.1, hround.2.2]
  split
  · obtain ⟨m', hrun, hmodels⟩ :=
      @Models.resize _ _ q c.nbuckets sqrt hmeasured hinv' hq c.calClock
    rw [hrun]
    refine ⟨_, rfl, hmodels.setCal (by rfl) ?_⟩
    rw [hmodels.cal]
    rfl
  · split
    · refine ⟨_, rfl, hmeasured.setCal (by rfl) ?_⟩
      rw [hmeasured.cal]
      rfl
    · exact ⟨_, rfl, hmeasured⟩

theorem Models.sameLinks_unlink (h : Models m c) (hmem : e ∈ (c.buckets i).list) :
    SameLinks m (m.unlink e) c i e := by
  intro x _ hout
  obtain ⟨hnext, hprev⟩ := (h.circle i).links_mem hmem
  have hne : x ≠ m.prev e ∧ x ≠ m.next e :=
    ⟨fun heq => hout (heq ▸ hprev), fun heq => hout (heq ▸ hnext)⟩
  exact ⟨update_of_ne hne.1 .., update_of_ne hne.2 ..⟩

theorem noFollower_eq (h : Models m c) {rest : List Event}
    (hl : (c.buckets i).list = e :: rest) :
    decide (m.next e = e ∨ (m.next e).time ≠ e.time) = Calendar.noFollower e rest := by
  have hcircle := h.circle i
  rw [hl] at hcircle
  cases rest with
  | nil => simp [hcircle.single.1, Calendar.noFollower]
  | cons next rest =>
    have hne := hcircle.next_ne
    rw [hcircle.next_head.1] at hne ⊢
    simp [hne, Calendar.noFollower]

theorem Models.unlinkHead (h : Models m c) (hinv : c.Inv (e :: q)) (hq : QueueInv (e :: q))
    (hclock : c.calClock = e.time) :
    ∃ m' c', m.unlinkHead sqrt e = some m' ∧ c.unlinkHead (widths sqrt) e = some c' ∧
      Models m' c' := by
  obtain ⟨hlist, hf⟩ := hinv.filled.unlinkFirst hq.sorted
  have hlast : c.lastbucket = c.hash e.time := by rw [hinv.last, hclock]
  have hinv₁ := hinv.sameFrame hf ⟨rfl, rfl, rfl, rfl, rfl, rfl, rfl⟩
    (fun x hx => hinv.clock_le x (mem_cons_of_mem e hx))
  obtain ⟨rest, hrest⟩ : ∃ rest, c.share (c.hash e.time) q = rest := ⟨_, rfl⟩
  obtain ⟨i, hi⟩ : ∃ i, c.hash e.time = i := ⟨_, rfl⟩
  rw [hrest, hi] at hlist
  rw [hrest, hi] at hf hinv₁
  have hmem : e ∈ (c.buckets i).list := hlist ▸ mem_cons_self
  have hcircle := h.circle i
  rw [hlist] at hcircle
  have hmlast : m.cal.lastbucket = i := by
    rw [h.cal, ← hi, ← hlast]
    rfl
  -- the bucket without its first event
  have hunlinked : Models
      (((if m.next e = e then
          (m.discounted i (Calendar.noFollower e rest)).setList i none
        else ((m.discounted i (Calendar.noFollower e rest)).unlink e).setList i
          (some (m.next e))).clear e))
      (c.unlinked i rest (Calendar.noFollower e rest)) := by
    apply Models.clear
    · have hcal : m.cal.unlinked i [] (Calendar.noFollower e rest) =
          (c.unlinked i rest (Calendar.noFollower e rest)).bare := by
        rw [h.cal, Calendar.bare_unlinked]
      cases rest with
      | nil =>
        rw [if_pos hcircle.single.1]
        exact h.relink (Hashed.of_filled hinv.filled) hi (fun _ _ _ => ⟨rfl, rfl⟩) rfl rfl hcal
          rfl trivial
      | cons next rest =>
        rw [if_neg hcircle.next_ne, hcircle.next_head.1]
        exact h.relink (Hashed.of_filled hinv.filled) hi (h.sameLinks_unlink hmem) rfl rfl hcal
          rfl hcircle.remove
    · intro j hej
      have heq : e ∈ q := mem_of_bucket hf hej
      exact (nodup_cons.mp hq.distinct).1 (mem_map_of_mem heq)
  have hrunCal : c.unlinkHead (widths sqrt) e =
      some (if (c.unlinked i rest (Calendar.noFollower e rest)).statQsize <
          (c.unlinked i rest (Calendar.noFollower e rest)).botThreshold then
        (c.unlinked i rest (Calendar.noFollower e rest)).resize (widths sqrt)
          ((c.unlinked i rest (Calendar.noFollower e rest)).nbuckets / 2)
          (c.unlinked i rest (Calendar.noFollower e rest)).calClock
      else c.unlinked i rest (Calendar.noFollower e rest)) := by
    unfold Calendar.unlinkHead
    rw [hlast, hi, hlist]
    simp only [if_true]
  rw [hrunCal, LinkedCalendar.unlinkHead, hmlast, noFollower_eq h hlist]
  generalize hm₁ : (if m.next e = e then
      (m.discounted i (Calendar.noFollower e rest)).setList i none
    else ((m.discounted i (Calendar.noFollower e rest)).unlink e).setList i
      (some (m.next e))).clear e = m₁ at hunlinked ⊢
  generalize c.unlinked i rest (Calendar.noFollower e rest) = c₁ at hunlinked hinv₁ ⊢
  have hfields : m₁.cal.statQsize = c₁.statQsize ∧ m₁.cal.botThreshold = c₁.botThreshold ∧
      m₁.cal.nbuckets = c₁.nbuckets ∧ m₁.cal.calClock = c₁.calClock := by
    rw [hunlinked.cal]
    exact ⟨rfl, rfl, rfl, rfl⟩
  rw [hfields.1, hfields.2.1, hfields.2.2.1, hfields.2.2.2]
  split
  · obtain ⟨m', hrun, hmodels⟩ :=
      @Models.resize _ _ q (c₁.nbuckets / 2) sqrt hunlinked hinv₁ hq.tail c₁.calClock
    exact ⟨m', _, hrun, rfl, hmodels⟩
  · exact ⟨m₁, _, rfl, rfl, hunlinked⟩

theorem Models.deque (hsqrt : ∀ x, 0 < x → 0 < sqrt x) (h : Models m c) (hinv : c.Inv q)
    (hq : QueueInv q) :
    ∃ m' c', m.deque sqrt = some (m', q.head?) ∧ c.deque (widths sqrt) = some (c', q.head?) ∧
      Models m' c' := by
  obtain ⟨c₁, hc₁, hinv₁, hclock⟩ := hinv.head hq.sorted
  obtain ⟨m₁, hm₁, hmodels₁⟩ := h.head hc₁
  rw [LinkedCalendar.deque, Calendar.deque, hc₁, hm₁]
  cases q with
  | nil => exact ⟨m₁, c₁, rfl, rfl, hmodels₁⟩
  | cons e q =>
    obtain ⟨m₂, hm₂, hmodels₂⟩ :=
      @Models.adjustWidth _ _ _ e sqrt hmodels₁ hinv₁ hq
    obtain ⟨hinv₂, hclock₂⟩ := hinv₁.adjustWidth (widths_positive hsqrt) hq e
    obtain ⟨m₃, c₃, hm₃, hc₃, hmodels₃⟩ :=
      @Models.unlinkHead _ _ _ _ sqrt hmodels₂ hinv₂ hq (hclock₂.trans (hclock e rfl))
    refine ⟨m₃, c₃, ?_, ?_, hmodels₃⟩
    · simp only [head?_cons, hm₂, Option.bind_some, hm₃]
      rfl
    · simp only [head?_cons, hc₃]
      rfl

theorem noNeighbour_eq (h : Models m c) {before behind : List Event}
    (hl : (c.buckets i).list = before ++ e :: behind) :
    decide (m.next e = e ∨ ((m.next e).time ≠ e.time ∧ (m.prev e).time ≠ e.time)) =
      Calendar.noNeighbour e (behind ++ before) := by
  have hcircle := h.circle i
  rw [hl] at hcircle
  have hturn := hcircle.turnTo
  cases hrest : behind ++ before with
  | nil =>
    rw [hrest] at hturn
    simp [hturn.single.1, Calendar.noNeighbour]
  | cons next rest =>
    rw [hrest] at hturn
    have hne := hturn.next_ne
    have hprev : m.prev e = (next :: rest).getLast (cons_ne_nil next rest) := by
      rw [hturn.prev_head, getLast_cons (cons_ne_nil next rest)]
    rw [hturn.next_head.1] at hne ⊢
    rw [Calendar.noNeighbour, head?_cons,
      getLast?_eq_some_getLast (cons_ne_nil next rest), ← hprev]
    simp [hne]

/-- **`cancel` meets no failing assertion** and takes the event out of its circle. -/
theorem Models.cancel (h : Models m c) (hinv : c.Inv q) (hq : QueueInv q)
    (hok : CallOk q (.cancel e)) (hrun : c.cancel e = some c') :
    ∃ m', m.cancel e = some m' ∧ Models m' c' := by
  rw [LinkedCalendar.cancel, h.hash]
  by_cases hu : e.uid ≤ 0
  · rw [Calendar.cancel, if_pos hu] at hrun
    obtain rfl := Option.some.inj hrun
    rw [if_pos hu]
    exact ⟨m, rfl, h⟩
  have he : e ∈ q := hok (by omega)
  obtain ⟨c₁, hc₁, hf₁, -⟩ := hinv.filled.cancel hq he (by omega)
  obtain rfl : c₁ = c' := Option.some.inj (hc₁.symm.trans hrun)
  obtain ⟨i, hi⟩ : ∃ i, c.hash e.time = i := ⟨_, rfl⟩
  have hmem : e ∈ (c.buckets i).list := by
    rw [hinv.filled.list, ← hi]
    exact mem_filter.mpr ⟨he, by simp⟩
  obtain ⟨before, behind, hl⟩ := append_of_mem hmem
  have hdistinct : Distinct (before ++ e :: behind) := by
    rw [← hl, hinv.filled.list]
    exact hq.distinct.sublist (filter_sublist.map _)
  have hcircle := h.circle i
  rw [hl] at hcircle
  have hturn := hcircle.turnTo
  have hgone := noNeighbour_eq h hl
  -- the assertions of the operation on the lists
  have hcal : ∃ gone, Calendar.noNeighbour e (behind ++ before) = gone ∧
      c₁ = c.unlinked i (before ++ behind) gone ∧
      ¬ (gone = true ∧ ¬ (0 ≤ c₁.statQsize ∧ 0 ≤ (c₁.buckets i).count)) ∧
      ¬ ((c₁.buckets i).count = 0 ∧ (c₁.buckets i).list ≠ []) := by
    refine ⟨_, rfl, ?_⟩
    simp only [Calendar.cancel, if_neg hu, hi, hl, Calendar.splitAt_append hdistinct] at hrun
    split at hrun
    · cases hrun
    · split at hrun
      · cases hrun
      · obtain rfl := Option.some.inj hrun
        exact ⟨rfl, by assumption, by assumption⟩
  obtain ⟨gone, hnoNeighbour, hc₁eq, hcounts, hempty⟩ := hcal
  rw [hnoNeighbour] at hgone
  have hmcal : m.cal.unlinked i [] gone = c₁.bare := by
    rw [hc₁eq, h.cal, Calendar.bare_unlinked]
  have hbuckets : c₁.buckets = update c.buckets i
      ⟨before ++ behind, (c.buckets i).count - if gone then 1 else 0⟩ := by
    rw [hc₁eq]
    rfl
  have hout : ∀ j, e ∉ (c₁.buckets j).list := by
    intro j hej
    exact (mem_remove.mp (mem_of_bucket hf₁ hej)).2 rfl
  -- the last assertion holds once the pointers hold the new buckets
  have hend : ∀ m₁ : LinkedCalendar, Models m₁ c₁ →
      ∃ m', m₁.cancelled i e = some m' ∧ Models m' c₁ := by
    intro m₁ h₁
    have hcount : (m₁.cal.buckets i).count = (c₁.buckets i).count := by
      rw [h₁.cal]
      rfl
    refine ⟨m₁.clear e, ?_, h₁.clear hout⟩
    rw [cancelled, if_neg]
    rintro ⟨hzero, hlist⟩
    refine hempty ⟨hcount ▸ hzero, ?_⟩
    rintro hnil
    rw [h₁.list, hnil] at hlist
    exact hlist rfl
  have hlinks := (h.circle i).next_prev hmem
  have hstat : (m.discounted i gone).cal.statQsize = c₁.statQsize ∧
      ((m.discounted i gone).cal.buckets i).count = (c₁.buckets i).count := by
    have hdis : (m.discounted i gone).cal = c₁.bare := hmcal
    rw [hdis]
    exact ⟨rfl, rfl⟩
  rw [if_neg hu, hi]
  dsimp only
  rw [if_neg (fun hbad => hbad.elim (fun hn => hn hlinks.1) (fun hp => hp hlinks.2)), hgone,
    hstat.1, hstat.2, if_neg hcounts]
  have hhead := h.list i
  rw [hl] at hhead
  cases hrest : behind ++ before with
  | nil =>
    -- the only event of its bucket
    obtain ⟨rfl, rfl⟩ := append_eq_nil_iff.mp hrest
    rw [if_pos hturn.single.1, if_pos (show m.list i = some e from hhead)]
    refine hend _ (h.relink (Hashed.of_filled hinv.filled) hi (fun _ _ _ => ⟨rfl, rfl⟩)
      hbuckets rfl hmcal rfl trivial)
  | cons next rest =>
    rw [hrest] at hturn
    rw [if_neg hturn.next_ne]
    have hremoved : Holds (m.unlink e).next (m.unlink e).prev (before ++ behind) :=
      hcircle.removeCell (by rw [hrest]; exact cons_ne_nil next rest)
    cases before with
    | nil =>
      -- the head of its bucket
      have hbehind : behind = next :: rest := by simpa using hrest
      rw [if_pos (show m.list i = some e from hhead)]
      refine hend _ (h.relink (Hashed.of_filled hinv.filled) hi (h.sameLinks_unlink hmem)
        hbuckets rfl hmcal ?_ hremoved)
      rw [hturn.next_head.1, hbehind]
      rfl
    | cons x before =>
      have hxe : x ≠ e := by
        rintro rfl
        exact (nodup_cons.mp hcircle.nodup).1 (by simp)
      have hx : m.list i = some x := hhead
      rw [if_neg (fun heq => hxe (Option.some.inj (hx.symm.trans heq)))]
      refine hend _ (h.relink (Hashed.of_filled hinv.filled) hi (h.sameLinks_unlink hmem)
        hbuckets rfl hmcal ?_ hremoved)
      show m.list = update m.list i (some x)
      rw [← hx, update_eq_self]

end LinkedCalendar

end NetSim
