import NetSim.Scheduler.CalendarBucket
import Mathlib.Data.Rat.Sqrt
import Mathlib.Tactic.NormNum

/-! # The calendar queue is a stable priority queue

The search of `head` visits the buckets from the one of `cal_clock_` on. A bucket's first event is
taken when it lies within the window of the bucket (`diff0_`, `diff1_` or `diff2_`), which happens
exactly when it belongs to the current year (`window_iff`); otherwise the earliest first event is
remembered. `Searched` is the invariant of that search. Together with `Calendar.Inv`, which ties
`lastbucket_` to `cal_clock_` and the buckets to the list scheduler's queue, it gives a simulation
of the list scheduler.
-/

namespace NetSim

open List StableOrder

namespace Calendar

variable {c : Calendar} {q : List Event} {e : Event}

/-! ## The invariant -/

/-- The calendar `c` holds the sorted queue `q`. -/
structure Inv (c : Calendar) (q : List Event) : Prop where
  width_pos : 0 < c.width
  four_le : 4 ≤ c.nbuckets
  diff0 : c.diff0 = c.width * c.nbuckets / 2
  diff1 : c.diff1 = c.width * c.nbuckets / 2 + c.width
  diff2 : c.diff2 = c.width * c.nbuckets
  last : c.lastbucket = c.hash c.calClock
  clock_nonneg : 0 ≤ c.calClock
  clock_le : ∀ e ∈ q, c.calClock ≤ e.time
  filled : Filled c q

theorem Inv.time_nonneg (h : Inv c q) (he : e ∈ q) : 0 ≤ e.time :=
  h.clock_nonneg.trans (h.clock_le e he)

theorem Inv.hash_eq (h : Inv c q) {t : ℚ} (ht : 0 ≤ t) :
    c.hash t = day c.width t % c.nbuckets := calendarHash_eq h.width_pos ht

theorem Inv.setStats (h : Inv c q) (s : WidthStats) : Inv { c with stats := s } q :=
  ⟨h.1, h.2, h.3, h.4, h.5, h.6, h.7, h.8, ⟨h.9.1, h.9.2, h.9.3, h.9.4⟩⟩

theorem Inv.sameFrame {c' : Calendar} {q' : List Event} (h : Inv c q) (hf : Filled c' q')
    (hsame : SameFrame c c') (hle : ∀ e ∈ q', c.calClock ≤ e.time) : Inv c' q' where
  width_pos := by rw [hsame.width]; exact h.width_pos
  four_le := by rw [hsame.nbuckets]; exact h.four_le
  diff0 := by rw [hsame.diff0, hsame.width, hsame.nbuckets]; exact h.diff0
  diff1 := by rw [hsame.diff1, hsame.width, hsame.nbuckets]; exact h.diff1
  diff2 := by rw [hsame.diff2, hsame.width, hsame.nbuckets]; exact h.diff2
  last := by
    rw [hsame.lastbucket, hash, hsame.width, hsame.nbuckets, hsame.calClock]
    exact h.last
  clock_nonneg := by rw [hsame.calClock]; exact h.clock_nonneg
  clock_le e he := by rw [hsame.calClock]; exact hle e he
  filled := hf

/-! ## Resizing -/

/-- Every width that `resize` may pick is positive: the square root of a positive number is, and so
is what `newwidth` proposes for a calendar that holds a queue. -/
structure Positive (P : WidthPolicy) : Prop where
  sqrt_pos : ∀ x, 0 < x → 0 < P.sqrt x
  newwidth_pos : ∀ c q n, QueueInv q → Inv c q → 0 < n → 0 < P.newwidth c n

theorem Inv.rebuild (h : Inv c q) (hs : Sorted Event.time q) {n : ℕ} {width : ℚ} (hn : 4 ≤ n)
    (hw : 0 < width) : Inv (c.rebuild n width c.calClock) q ∧
      (c.rebuild n width c.calClock).calClock = c.calClock := by
  have hlt : ∀ e ∈ q, c.hash e.time < c.nbuckets := fun e he =>
    calendarHash_lt h.width_pos (h.time_nonneg he) (by have := h.four_le; omega)
  have hempty : Inv (c.reinit n width c.calClock) [] :=
    ⟨hw, hn, rfl, rfl, rfl, rfl, h.clock_nonneg, by simp, filled_reinit _ _ _ _⟩
  obtain ⟨hf, hsame⟩ := filled_moveEvents h.filled hs hlt n width c.calClock
  have hmoved : Inv (moveEvents c.buckets c.nbuckets (c.reinit n width c.calClock)) q :=
    hempty.sameFrame hf hsame h.clock_le
  exact ⟨hmoved.setStats _, hsame.calClock⟩

theorem Inv.afterNewwidth (h : Inv c q) : Inv c.afterNewwidth q := by
  unfold Calendar.afterNewwidth
  split
  · exact h.setStats _
  · exact h

theorem afterNewwidth_calClock (c : Calendar) : c.afterNewwidth.calClock = c.calClock := by
  unfold Calendar.afterNewwidth
  split <;> rfl

theorem searchRatio_pos (s : WidthStats) : 0 < s.searchRatio := by
  have h1 : 0 < (if s.headSearch ≠ 0 then (s.headSearch : ℚ) else 1) := by
    split
    case isTrue hne => exact_mod_cast Nat.pos_of_ne_zero hne
    case isFalse => exact one_pos
  unfold WidthStats.searchRatio
  simp only
  split
  case isTrue hne => exact div_pos h1 (by exact_mod_cast Nat.pos_of_ne_zero hne)
  case isFalse => exact h1

/-- **Resizing keeps the queue**, whatever positive width it picks. -/
theorem Inv.resize {P : WidthPolicy} (hP : Positive P) (h : Inv c q) (hq : QueueInv q) {n : ℕ}
    (hn : 0 < n) :
    Inv (c.resize P n c.calClock) q ∧ (c.resize P n c.calClock).calClock = c.calClock := by
  have hnew : ∀ m, 4 ≤ m →
      Inv (c.afterNewwidth.rebuild m (P.newwidth c n) c.calClock) q ∧
        (c.afterNewwidth.rebuild m (P.newwidth c n) c.calClock).calClock = c.calClock := by
    intro m hm
    have := h.afterNewwidth.rebuild hq.sorted hm (hP.newwidth_pos c q n hq h hn)
    rwa [afterNewwidth_calClock] at this
  unfold Calendar.resize
  split
  case isTrue heq =>
    simp only
    split
    · split
      · exact ⟨h.setStats _, rfl⟩
      · exact hnew n (heq ▸ h.four_le)
    · exact h.rebuild hq.sorted (heq ▸ h.four_le)
        (mul_pos (hP.sqrt_pos _ (searchRatio_pos _)) h.width_pos)
  case isFalse =>
    apply hnew
    split <;> omega

/-! ## The search -/

/-- The window test of `head` tells whether a bucket's first event belongs to the current year:
an event `k` days after `day b` modulo the year, tested with a window between `k + 1` and `n + k - 1`
days. -/
theorem window_iff {w clock t diff : ℚ} {n k : ℕ} (hw : 0 < w) (hclock : 0 ≤ clock)
    (hle : clock ≤ t) (hk : day w t % n = (day w clock + k) % n) (hkn : k < n)
    (hlo : (k + 1) * w ≤ diff) (hhi : diff ≤ (n + k - 1 : ℚ) * w) :
    t - clock < diff ↔ day w t = day w clock + k := by
  have ht : 0 ≤ t := hclock.trans hle
  have hday := day_mono hw hle
  have h1 := day_mul_le hw hclock
  have h2 := lt_day_mul clock hw
  have h3 := day_mul_le hw ht
  have h4 := lt_day_mul t hw
  constructor
  · intro hlt
    by_contra hne
    -- a later year: at least `n + k` days ahead
    have hge : day w clock + k + n ≤ day w t := by
      obtain ⟨f, hf⟩ := Nat.exists_eq_add_of_le hday
      have hmod : f % n = k % n := by
        have : day w clock + f ≡ day w clock + k [MOD n] := hf ▸ hk
        exact Nat.ModEq.add_left_cancel' _ this
      have hdiv := Nat.div_add_mod f n
      rw [hmod, Nat.mod_eq_of_lt hkn] at hdiv
      have hpos : f / n ≠ 0 := by
        intro h0
        rw [h0] at hdiv
        omega
      have : n * 1 ≤ n * (f / n) := Nat.mul_le_mul_left n (Nat.pos_of_ne_zero hpos)
      omega
    have hge' : (day w clock + k + n : ℚ) ≤ day w t := by exact_mod_cast hge
    nlinarith
  · intro heq
    have heq' : (day w t : ℚ) = day w clock + k := by exact_mod_cast heq
    nlinarith

/-- **The invariant of the search**: `k` buckets have been visited, the next event `e` lies in none
of their days of this year, and once its bucket was visited it is the earliest event found. -/
structure Searched (c : Calendar) (e : Event) (k : ℕ) (s : Scan) : Prop where
  i : s.i = (day c.width c.calClock + k) % c.nbuckets
  beyond : day c.width c.calClock + k ≤ day c.width e.time
  visited : (∃ j < k, c.hash e.time = (day c.width c.calClock + j) % c.nbuckets) →
    s.minE = some (e, c.hash e.time)
  unvisited : (∀ j < k, c.hash e.time ≠ (day c.width c.calClock + j) % c.nbuckets) →
    ∀ m l, s.minE = some (m, l) → e.time < m.time

theorem next_index (c : Calendar) (b : ℕ) (hn : 0 < c.nbuckets) :
    (if b % c.nbuckets + 1 = c.nbuckets then 0 else b % c.nbuckets + 1) = (b + 1) % c.nbuckets := by
  have hlt := Nat.mod_lt b hn
  rw [← Nat.mod_add_mod b c.nbuckets 1]
  generalize b % c.nbuckets = r at hlt ⊢
  split
  case isTrue h => rw [h, Nat.mod_self]
  case isFalse h => rw [Nat.mod_eq_of_lt (by omega)]

theorem index_inj {b j k n : ℕ} (hj : j < n) (hk : k < n) (h : (b + j) % n = (b + k) % n) :
    j = k := by
  have := Nat.ModEq.add_left_cancel' b (show b + j ≡ b + k [MOD n] from h)
  exact Nat.ModEq.eq_of_lt_of_lt this hj hk

theorem calDequeue_spec (h : Inv c (e :: q)) (hs : Sorted Event.time (e :: q)) {k : ℕ} {s : Scan}
    (hk : Searched c e k s) (hkn : k < c.nbuckets) (diff : ℚ) (hlo : (k + 1) * c.width ≤ diff)
    (hhi : diff ≤ (c.nbuckets + k - 1 : ℚ) * c.width) :
    (∃ t, c.calDequeue diff s = .inl (e, c.hash e.time, t)) ∨
      ∃ s', c.calDequeue diff s = .inr s' ∧ Searched c e (k + 1) s' := by
  have hn : 0 < c.nbuckets := by omega
  have hlist := h.filled.list s.i
  have hte : 0 ≤ e.time := h.time_nonneg (by simp)
  have hhash : c.hash e.time = day c.width e.time % c.nbuckets := h.hash_eq hte
  have hnext := next_index c (day c.width c.calClock + k) hn
  rw [← hk.i] at hnext
  -- the search has not seen the bucket of `e` before it comes to it
  have hnew : c.hash e.time = s.i →
      ∀ j < k, c.hash e.time ≠ (day c.width c.calClock + j) % c.nbuckets := by
    intro hi j hj heq
    rw [hi, hk.i] at heq
    have := index_inj (by omega) hkn heq.symm
    omega
  -- once the bucket is visited without success, `e` is not on its day of this year
  have hbeyond : day c.width e.time ≠ day c.width c.calClock + k →
      day c.width c.calClock + (k + 1) ≤ day c.width e.time := by
    intro hne
    have := hk.beyond
    omega
  have hvisited : c.hash e.time ≠ s.i →
      (∃ j < k + 1, c.hash e.time = (day c.width c.calClock + j) % c.nbuckets) →
      ∃ j < k, c.hash e.time = (day c.width c.calClock + j) % c.nbuckets := by
    rintro hne ⟨j, hj, heq⟩
    refine ⟨j, ?_, heq⟩
    rcases Nat.lt_or_ge j k with h1 | h1
    · exact h1
    · obtain rfl : j = k := by omega
      exact absurd (heq.trans hk.i.symm) hne
  unfold calDequeue
  cases hb : (c.buckets s.i).list with
  | nil =>
    have hne : c.hash e.time ≠ s.i := by
      intro hi
      rw [hlist, share, filter_eq_nil_iff] at hb
      exact hb e (by simp) (by simpa using hi)
    refine Or.inr ⟨_, rfl, ?_, hbeyond ?_, ?_, ?_⟩
    · rw [hnext]; rfl
    · intro heq
      exact hne (by rw [hhash, heq, hk.i])
    · exact fun hv => hk.visited (hvisited hne hv)
    · exact fun hv => hk.unvisited (fun j hj => hv j (by omega))
  | cons x rest =>
    have hx : x ∈ e :: q ∧ c.hash x.time = s.i := by
      have : x ∈ (c.buckets s.i).list := by simp [hb]
      rw [hlist, share, mem_filter] at this
      simpa using this
    have hxe : c.hash e.time = s.i → x = e := by
      intro hi
      rw [hlist, share, filter_cons, if_pos (by simpa using hi)] at hb
      exact (List.cons.inj hb).1.symm
    have hle : e.time ≤ x.time := hs.le_of_mem hx.1
    have hwin : x.time - c.calClock < diff ↔
        day c.width x.time = day c.width c.calClock + k := by
      apply window_iff h.width_pos h.clock_nonneg (h.clock_le x hx.1) ?_ hkn hlo hhi
      rw [← h.hash_eq (h.time_nonneg hx.1), hx.2, hk.i]
    simp only
    split
    case isTrue hlt =>
      have hday := hwin.mp hlt
      have hed : day c.width e.time = day c.width c.calClock + k := by
        have := day_mono h.width_pos hle
        omega
      have hi : c.hash e.time = s.i := by rw [hhash, hed, hk.i]
      rw [hxe hi, ← hi]
      exact Or.inl ⟨_, rfl⟩
    case isFalse hlt =>
      have hne : day c.width e.time ≠ day c.width c.calClock + k := by
        intro heq
        have hi : c.hash e.time = s.i := by rw [hhash, heq, hk.i]
        rw [hxe hi] at hlt hwin
        exact hlt (hwin.mpr heq)
      refine Or.inr ⟨_, rfl, ?_, hbeyond hne, ?_, ?_⟩
      · rw [hnext]; rfl
      · intro hv
        by_cases hi : c.hash e.time = s.i
        · rw [hxe hi, ← hi]
          cases hm : s.minE with
          | none => rfl
          | some m => simp only [earlier, if_pos (hk.unvisited (hnew hi) m.1 m.2 hm)]
        · rw [hk.visited (hvisited hi hv), earlier, if_neg (not_lt.mpr hle)]
      · intro hv m l hm
        have hi : c.hash e.time ≠ s.i := by rw [hk.i]; exact hv k (by omega)
        have hlt' : e.time < x.time := by
          refine lt_of_le_of_ne hle (fun heq => hi ?_)
          rw [heq, hx.2]
        cases hm' : s.minE with
        | none =>
          rw [hm', earlier] at hm
          obtain ⟨rfl, -⟩ := Prod.mk.inj (Option.some.inj hm)
          exact hlt'
        | some m' =>
          have hold := hk.unvisited (fun j hj => hv j (by omega)) m'.1 m'.2 hm'
          simp only [hm', earlier] at hm
          split at hm
          · obtain ⟨rfl, -⟩ := Prod.mk.inj (Option.some.inj hm)
            exact hlt'
          · obtain ⟨rfl, -⟩ := Prod.mk.inj (Option.some.inj hm)
            exact hold

theorem scanYear_spec (h : Inv c (e :: q)) (hs : Sorted Event.time (e :: q)) (fuel : ℕ) {k : ℕ}
    {s : Scan} (hk : Searched c e k s) (h2 : 2 ≤ k) (hkn : k < c.nbuckets)
    (hfuel : c.nbuckets - 1 ≤ k + fuel) :
    (∃ t, c.scanYear ((day c.width c.calClock + (c.nbuckets - 1)) % c.nbuckets) fuel s
        = some (.inl (e, c.hash e.time, t))) ∨
      ∃ s', c.scanYear ((day c.width c.calClock + (c.nbuckets - 1)) % c.nbuckets) fuel s
        = some (.inr s') ∧ Searched c e (c.nbuckets - 1) s' := by
  have hstop : s.i = (day c.width c.calClock + (c.nbuckets - 1)) % c.nbuckets ↔
      k = c.nbuckets - 1 := by
    rw [hk.i]
    constructor
    · exact fun heq => index_inj hkn (by omega) heq
    · rintro rfl; rfl
  induction fuel generalizing k s with
  | zero =>
    obtain rfl : k = c.nbuckets - 1 := by omega
    exact Or.inr ⟨s, by rw [scanYear, if_pos (hstop.mpr rfl)], hk⟩
  | succ fuel ih =>
    rw [scanYear]
    by_cases hlast : k = c.nbuckets - 1
    · rw [if_pos (hstop.mpr hlast)]
      exact Or.inr ⟨s, rfl, hlast ▸ hk⟩
    · rw [if_neg (fun heq => hlast (hstop.mp heq))]
      have hw := h.width_pos
      have hkn' : (k : ℚ) + 2 ≤ c.nbuckets := by
        have : k + 2 ≤ c.nbuckets := by omega
        exact_mod_cast this
      have hk2 : (2 : ℚ) ≤ k := by exact_mod_cast h2
      have hstep := calDequeue_spec h hs hk hkn c.diff2
        (by rw [h.diff2]; nlinarith) (by rw [h.diff2]; nlinarith)
      rcases hstep with ⟨t, ht⟩ | ⟨s', hs', hk'⟩
      · rw [ht]
        exact Or.inl ⟨t, rfl⟩
      · rw [hs']
        refine ih hk' (by omega) (by omega) (by omega) ?_
        rw [hk'.i]
        constructor
        · exact fun heq => index_inj (by omega) (by omega) heq
        · intro heq; rw [heq]

theorem lastbucketDec_eq (h : Inv c q) :
    (if c.lastbucket ≠ 0 then c.lastbucket - 1 else c.nbuckets - 1) =
      (day c.width c.calClock + (c.nbuckets - 1)) % c.nbuckets := by
  have hn := h.four_le
  rw [h.last, h.hash_eq h.clock_nonneg, ← Nat.mod_add_mod]
  have hlt := Nat.mod_lt (day c.width c.calClock) (show 0 < c.nbuckets by omega)
  generalize day c.width c.calClock % c.nbuckets = r at hlt ⊢
  split
  case isTrue h0 =>
    rw [show r + (c.nbuckets - 1) = r - 1 + c.nbuckets by omega, Nat.add_mod_right,
      Nat.mod_eq_of_lt (by omega)]
  case isFalse h0 =>
    obtain rfl : r = 0 := by omega
    rw [Nat.zero_add, Nat.mod_eq_of_lt (by omega)]

/-- **The search finds the first event of the queue, in its bucket.** -/
theorem search_spec (h : Inv c (e :: q)) (hs : Sorted Event.time (e :: q)) :
    ∃ t, c.search = some (e, c.hash e.time, t) := by
  have hn := h.four_le
  have hw := h.width_pos
  have hn' : (4 : ℚ) ≤ c.nbuckets := by exact_mod_cast hn
  have h0 : Searched c e 0 ⟨c.lastbucket, none, 0⟩ := by
    refine ⟨?_, ?_, ?_, ?_⟩
    · rw [h.last, h.hash_eq h.clock_nonneg]; rfl
    · exact day_mono hw (h.clock_le e (by simp))
    · rintro ⟨j, hj, -⟩; omega
    · intro _ m l hm; cases hm
  unfold search
  rw [lastbucketDec_eq h]
  rcases calDequeue_spec h hs h0 (by omega) c.diff0
    (by rw [h.diff0]; nlinarith) (by rw [h.diff0]; nlinarith)
    with ⟨t, ht⟩ | ⟨s1, hs1, h1⟩
  · rw [ht]; exact ⟨t, rfl⟩
  rw [hs1]
  simp only
  rcases calDequeue_spec h hs h1 (by omega) c.diff1
    (by rw [h.diff1]; nlinarith) (by rw [h.diff1]; nlinarith)
    with ⟨t, ht⟩ | ⟨s2, hs2, h2⟩
  · rw [ht]; exact ⟨t, rfl⟩
  rw [hs2]
  simp only
  rcases scanYear_spec h hs c.nbuckets h2 (by omega) (by omega) (by omega)
    with ⟨t, ht⟩ | ⟨s3, hs3, h3⟩
  · rw [ht]; exact ⟨t, rfl⟩
  rw [hs3]
  simp only
  -- the last bucket: `e` was seen already, or it is the first event there
  have hlist := h.filled.list s3.i
  by_cases hi : c.hash e.time = s3.i
  · have hb : (c.buckets s3.i).list = e :: c.share s3.i q := by
      rw [hlist]
      simp [share, hi]
    have hun : ∀ m l, s3.minE = some (m, l) → e.time < m.time := by
      apply h3.unvisited
      intro j hj heq
      rw [hi, h3.i] at heq
      have := index_inj (by omega) (by omega) heq
      omega
    rw [hb, hi]
    cases hm : s3.minE with
    | none => exact ⟨_, rfl⟩
    | some m =>
      simp only [if_neg (not_lt.mpr (hun m.1 m.2 hm).le)]
      exact ⟨_, rfl⟩
  · have hv : s3.minE = some (e, c.hash e.time) := by
      apply h3.visited
      have hday := day_mono hw (h.clock_le e (by simp))
      have hmod : (day c.width c.calClock + (day c.width e.time - day c.width c.calClock)
          % c.nbuckets) % c.nbuckets = c.hash e.time := by
        rw [Nat.add_mod_mod, Nat.add_sub_cancel' hday, h.hash_eq (h.time_nonneg (by simp))]
      refine ⟨_, ?_, hmod.symm⟩
      have hlt := Nat.mod_lt (day c.width e.time - day c.width c.calClock)
        (show 0 < c.nbuckets by omega)
      have hne : (day c.width e.time - day c.width c.calClock) % c.nbuckets ≠ c.nbuckets - 1 := by
        intro heq
        rw [heq, ← h3.i] at hmod
        exact hi hmod.symm
      omega
    rw [hv]
    cases hb : (c.buckets s3.i).list with
    | nil => exact ⟨_, rfl⟩
    | cons x rest =>
      have hx : x ∈ e :: q ∧ c.hash x.time = s3.i := by
        have : x ∈ (c.buckets s3.i).list := by simp [hb]
        rw [hlist, share, mem_filter] at this
        simpa using this
      have hlt : e.time < x.time := by
        refine lt_of_le_of_ne (hs.le_of_mem hx.1) (fun heq => hi ?_)
        rw [heq, hx.2]
      simp only [if_pos hlt]
      exact ⟨_, rfl⟩

/-! ## The operations keep the invariant -/

theorem inv_init (minBinWidth : ℚ) (interval : ℕ) (uninit : WidthStats) :
    Inv (init minBinWidth interval uninit) [] :=
  ⟨one_pos, le_refl 4, rfl, rfl, rfl, rfl, le_refl 0, by simp, filled_reinit _ _ _ _⟩

theorem Inv.head (h : Inv c q) (hs : Sorted Event.time q) :
    ∃ c', c.head = some (c', q.head?) ∧ Inv c' q ∧
      ∀ e, q.head? = some e → c'.calClock = e.time := by
  unfold Calendar.head
  cases q with
  | nil =>
    rw [if_pos (show c.qsize = 0 from h.filled.qsize)]
    exact ⟨c, rfl, h, by simp⟩
  | cons e q =>
    have hne : c.qsize ≠ 0 := by
      rw [h.filled.qsize]
      simp only [length_cons]
      omega
    obtain ⟨t, ht⟩ := search_spec h hs
    rw [if_neg hne, ht]
    refine ⟨c.found e (c.hash e.time) t, rfl, ?_, ?_⟩
    · exact ⟨h.1, h.2, h.3, h.4, h.5, rfl, h.time_nonneg (by simp),
        fun x hx => hs.le_of_mem hx, ⟨h.9.1, h.9.2, h.9.3, h.9.4⟩⟩
    · intro x hx
      obtain rfl := Option.some.inj hx
      rfl

theorem Inv.clockBack (h : Inv c q) (he : 0 ≤ e.time) :
    Inv (if e.time < c.calClock then
        { c with calClock := e.time, lastbucket := c.hash e.time } else c) q ∧
      (if e.time < c.calClock then
        { c with calClock := e.time, lastbucket := c.hash e.time } else c).calClock ≤ e.time := by
  split
  case isTrue hlt =>
    exact ⟨⟨h.1, h.2, h.3, h.4, h.5, rfl, he, fun x hx => hlt.le.trans (h.clock_le x hx),
      ⟨h.9.1, h.9.2, h.9.3, h.9.4⟩⟩, le_refl _⟩
  case isFalse hlt => exact ⟨h, not_lt.mp hlt⟩

theorem Inv.linkLast (h : Inv c q) (hs : Sorted Event.time q) (hle : c.calClock ≤ e.time)
    (s : WidthStats) :
    Inv { c.linked (c.hash e.time) (Calendar.linkLast (c.buckets (c.hash e.time)).list e).1
        (Calendar.linkLast (c.buckets (c.hash e.time)).list e).2.1 with stats := s }
      (insertLast Event.time e q) := by
  have hlinked : Inv (c.linked (c.hash e.time) (Calendar.linkLast
      (c.buckets (c.hash e.time)).list e).1 (Calendar.linkLast
      (c.buckets (c.hash e.time)).list e).2.1) (insertLast Event.time e q) := by
    refine h.sameFrame (h.filled.linkLast hs e) ⟨rfl, rfl, rfl, rfl, rfl, rfl, rfl⟩ ?_
    intro x hx
    rcases mem_insertLast.mp hx with rfl | hx
    · exact hle
    · exact h.clock_le x hx
  exact hlinked.setStats s

theorem Inv.insert {P : WidthPolicy} (hP : Positive P) (h : Inv c q) (hq : QueueInv q)
    (hok : CallOk q (.insert e)) : Inv (c.insert P e) (ListScheduler.insert q e) := by
  have hq' := hq.insert hok.2
  rw [ListScheduler.insert_eq_insertLast] at hq' ⊢
  obtain ⟨hinv, hle⟩ := h.clockBack hok.1
  unfold Calendar.insert
  generalize (if e.time < c.calClock then
    { c with calClock := e.time, lastbucket := c.hash e.time } else c) = b at hinv hle ⊢
  simp only
  have hlinked := hinv.linkLast hq.sorted hle
    { b.stats with insertSearch := b.stats.insertSearch +
        (Calendar.linkLast (b.buckets (b.hash e.time)).list e).2.2 }
  split
  · have hn : 4 ≤ b.nbuckets := hinv.four_le
    exact (hlinked.resize hP hq' (show 0 < b.nbuckets * 2 by omega)).1
  · exact hlinked

theorem Inv.adjustWidth {P : WidthPolicy} (hP : Positive P) (h : Inv c q) (hq : QueueInv q)
    (e : Event) : Inv (c.adjustWidth P e) q ∧ (c.adjustWidth P e).calClock = c.calClock := by
  unfold Calendar.adjustWidth
  split
  · exact ⟨h, rfl⟩
  split
  · exact ⟨h.setStats _, rfl⟩
  simp only
  split
  · exact ⟨h.setStats _, rfl⟩
  have hstats := h.setStats { c.stats with
    avgGap := (e.time - c.stats.lastTime) / (c.stats.gapNum + 1 : ℤ)
    gapNum := 0
    lastTime := e.time
    roundNum := c.stats.roundNum + 1 }
  split
  · have hn : 0 < c.nbuckets := by have := h.four_le; omega
    obtain ⟨h1, h2⟩ := hstats.resize hP hq hn
    exact ⟨h1.setStats _, h2⟩
  split
  · exact ⟨hstats.setStats _, rfl⟩
  · exact ⟨hstats, rfl⟩

/-- The first event of the queue is the first one of the bucket `lastbucket_` and is unlinked. -/
theorem Inv.unlinkHead {P : WidthPolicy} (hP : Positive P) (h : Inv c (e :: q))
    (hq : QueueInv (e :: q)) (hclock : c.calClock = e.time) :
    ∃ c', c.unlinkHead P e = some c' ∧ Inv c' q := by
  obtain ⟨hlist, hf⟩ := h.filled.unlinkFirst hq.sorted
  have hlast : c.lastbucket = c.hash e.time := by rw [h.last, hclock]
  have hinv := h.sameFrame hf ⟨rfl, rfl, rfl, rfl, rfl, rfl, rfl⟩
    (fun x hx => h.clock_le x (by simp [hx]))
  unfold Calendar.unlinkHead
  rw [hlast, hlist]
  simp only [if_true]
  refine ⟨_, rfl, ?_⟩
  split
  · have hn : 4 ≤ c.nbuckets := h.four_le
    exact (hinv.resize hP hq.tail (show 0 < c.nbuckets / 2 by omega)).1
  · exact hinv

theorem Inv.deque {P : WidthPolicy} (hP : Positive P) (h : Inv c q) (hq : QueueInv q) :
    ∃ c', c.deque P = some (c', q.head?) ∧ Inv c' q.tail := by
  obtain ⟨c', hc', hinv, hclock⟩ := h.head hq.sorted
  unfold Calendar.deque
  rw [hc']
  cases q with
  | nil => exact ⟨c', rfl, hinv⟩
  | cons e q =>
    obtain ⟨hadj, hadjClock⟩ := hinv.adjustWidth hP hq e
    obtain ⟨c'', hc'', hinv'⟩ := hadj.unlinkHead hP hq (hadjClock.trans (hclock e rfl))
    exact ⟨c'', by simp only [head?_cons, hc'']; rfl, hinv'⟩

/-! ## The code's own widths -/

/-- The widths the code picks, with an exact square root of the squares. -/
def codeWidths : WidthPolicy := ⟨Rat.sqrt, newwidth⟩

theorem newwidth_pos (h : Inv c q) (hq : QueueInv q) {n : ℕ} (hn : 0 < n) : 0 < c.newwidth n := by
  unfold newwidth
  split
  case isTrue hgap => exact mul_pos hgap.2 (by norm_num)
  simp only
  split
  · exact h.width_pos
  case isFalse hcount =>
    have hs := h.filled.sorted hq.sorted c.maxBucket
    have hc := h.filled.count c.maxBucket
    split
    · exact h.width_pos
    case h_2 head rest heq =>
      rw [heq] at hs hc
      have hlt := time_head_lt_last hs (by omega)
      have hden : (0 : ℚ) < if (n : ℤ) < (c.buckets c.maxBucket).count then (n : ℚ)
          else (c.buckets c.maxBucket).count := by
        split
        · exact_mod_cast hn
        · have : 0 < (c.buckets c.maxBucket).count := by omega
          exact_mod_cast this
      exact mul_pos (div_pos (sub_pos.mpr hlt) hden) (by norm_num)

theorem sqrt_pos {x : ℚ} (hx : 0 < x) : 0 < Rat.sqrt x := by
  have hnum : 0 < Int.sqrt x.num := by
    have h1 : 0 < x.num.toNat := by
      have := Rat.num_pos.mpr hx
      omega
    exact Int.natCast_pos.mpr (Nat.sqrt_pos.mpr h1)
  have hden : Nat.sqrt x.den ≠ 0 := (Nat.sqrt_pos.mpr x.den_pos).ne'
  unfold Rat.sqrt
  rw [Rat.mkRat_eq_div]
  exact div_pos (by exact_mod_cast hnum) (by exact_mod_cast Nat.pos_of_ne_zero hden)

theorem codeWidths_positive : Positive codeWidths where
  sqrt_pos _ hx := sqrt_pos hx
  newwidth_pos _ _ _ hq h hn := newwidth_pos h hq hn

end Calendar

/-! ## The refinement -/

/-- The calendar and the queued events in order of insertion. -/
def CalendarRel (c : Calendar) (h : List Event) : Prop := ∃ q, ListRel q h ∧ c.Inv q

theorem calendarScheduler_simulation {P : WidthPolicy} (hP : Calendar.Positive P) :
    Scheduler.Simulation (calendarScheduler P) arrivalQueue Scheduler.Always CallOk CalendarRel := by
  rintro c h op ⟨q, r, hinv⟩ _ hok
  have hq := r.inv
  have hok' := r.callOk hok
  -- what the list scheduler does keeps its queue and the queued events together
  obtain ⟨q', h', out, hstep, hstep', r'⟩ :=
    listScheduler_simulation q h op r trivial hok
  suffices hc : ∃ c', (calendarScheduler P).step c op = some (c', out) ∧ c'.Inv q' by
    obtain ⟨c', hc', hinv'⟩ := hc
    exact ⟨c', h', out, hc', hstep', q', r', hinv'⟩
  cases op with
  | insert e =>
    obtain ⟨rfl, rfl⟩ := Prod.mk.inj (Option.some.inj hstep)
    exact ⟨c.insert P e, rfl, hinv.insert hP hq hok'⟩
  | cancel e =>
    simp only [Scheduler.step, listScheduler, ListScheduler.cancel_eq hq.distinct hok'] at hstep
    obtain ⟨rfl, rfl⟩ := Prod.mk.inj (Option.some.inj hstep)
    by_cases hu : e.uid ≤ 0
    · refine ⟨c, ?_, by rwa [if_pos hu]⟩
      simp only [Scheduler.step, calendarScheduler, Calendar.cancel, if_pos hu]
      rfl
    · obtain ⟨c', hc', hf, hsame⟩ :=
        hinv.filled.cancel hq (hok' (by omega)) (show 0 < e.uid by omega)
      refine ⟨c', ?_, ?_⟩
      · simp only [Scheduler.step, calendarScheduler, hc']
        rfl
      · rw [if_neg hu]
        exact hinv.sameFrame hf hsame (fun x hx => hinv.clock_le x (mem_remove.mp hx).1)
  | deque =>
    obtain ⟨c', hc', hinv'⟩ := hinv.deque hP hq
    refine ⟨c', ?_, ?_⟩
    · simp only [Scheduler.step, calendarScheduler, hc']
      cases q <;> exact congrArg _ (congrArg _ (Prod.mk.inj (Option.some.inj hstep)).2)
    · cases q <;> exact (Prod.mk.inj (Option.some.inj hstep)).1 ▸ hinv'
  | head =>
    obtain ⟨rfl, rfl⟩ := Prod.mk.inj (Option.some.inj hstep)
    obtain ⟨c', hc', hinv', -⟩ := hinv.head hq.sorted
    refine ⟨c', ?_, hinv'⟩
    simp only [Scheduler.step, calendarScheduler, hc']
    rfl

/-- **The calendar queue is a stable priority queue.** Whatever positive widths `resize` picks,
no call of an admissible run aborts, and every `deque` and `head` returns what `ListScheduler`
returns: of the queued events of minimal time the one inserted first, or nothing when no event is
queued. -/
theorem calendar_stable_queue (P : WidthPolicy) (hP : Calendar.Positive P) (minBinWidth : ℚ)
    (interval : ℕ) (uninit : WidthStats) (ops : List Op)
    (hok : Scheduler.Admissible arrivalQueue CallOk [] ops) :
    ∃ c q h outs,
      (calendarScheduler P).run (Calendar.init minBinWidth interval uninit) ops = some (c, outs) ∧
      listScheduler.run [] ops = some (q, outs) ∧
      arrivalQueue.run [] ops = some (h, outs) := by
  have hrel : ListRel [] [] := ⟨queueInv_nil, fun _ => rfl⟩
  obtain ⟨c, h, outs, h1, h2, -⟩ := (calendarScheduler_simulation hP).run ops _ []
    ⟨[], hrel, Calendar.inv_init minBinWidth interval uninit⟩
    (Scheduler.admissible_always _ _ _) hok
  obtain ⟨q, h', outs', h3, h4, -⟩ := listScheduler_simulation.run ops [] [] hrel
    (Scheduler.admissible_always _ _ _) hok
  obtain ⟨rfl, rfl⟩ := Prod.mk.inj (Option.some.inj (h4.symm.trans h2))
  exact ⟨c, q, h', outs', h1, h3, h4⟩

/-- Two events of one time, a look at the head, an earlier event that moves the clock back, and a
cancelled event. -/
theorem calendar_stable_queue_clock_back :
    ∃ c, (calendarScheduler Calendar.codeWidths).run
        (Calendar.init (1 / 10 ^ 18) 10 ⟨0, 0, 0, 0, 0, 0, 0⟩)
        [.insert ⟨1, 9, 1⟩, .insert ⟨2, 9, 2⟩, .head, .insert ⟨3, 2, 3⟩, .insert ⟨4, 2, 4⟩, .deque,
          .cancel ⟨1, 9, 1⟩, .deque, .deque, .deque] =
      some (c, [some ⟨1, 9, 1⟩, some ⟨3, 2, 3⟩, some ⟨4, 2, 4⟩, some ⟨2, 9, 2⟩, none]) := by
  obtain ⟨c, q, h, outs, h1, h2, -⟩ := calendar_stable_queue Calendar.codeWidths
    Calendar.codeWidths_positive (1 / 10 ^ 18) 10 ⟨0, 0, 0, 0, 0, 0, 0⟩
    [.insert ⟨1, 9, 1⟩, .insert ⟨2, 9, 2⟩, .head, .insert ⟨3, 2, 3⟩, .insert ⟨4, 2, 4⟩, .deque,
      .cancel ⟨1, 9, 1⟩, .deque, .deque, .deque] (by decide)
  have hlist : listScheduler.run []
      [.insert ⟨1, 9, 1⟩, .insert ⟨2, 9, 2⟩, .head, .insert ⟨3, 2, 3⟩, .insert ⟨4, 2, 4⟩, .deque,
        .cancel ⟨1, 9, 1⟩, .deque, .deque, .deque] =
      some ([], [some ⟨1, 9, 1⟩, some ⟨3, 2, 3⟩, some ⟨4, 2, 4⟩, some ⟨2, 9, 2⟩, none]) := by
    decide
  obtain ⟨rfl, rfl⟩ := Prod.mk.inj (Option.some.inj (h2.symm.trans hlist))
  exact ⟨c, h1⟩

end NetSim
