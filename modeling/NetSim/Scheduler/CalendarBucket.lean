import NetSim.Scheduler.Calendar
import Mathlib.Data.Finset.Card
import Mathlib.Data.List.TakeWhile
import Mathlib.Tactic.Linarith
import Mathlib.Tactic.Positivity
import Mathlib.Tactic.Ring

/-! # The calendar queue: buckets

What the calendar's buckets hold. `Filled c q` says that the buckets of `c` hold the sorted queue
`q`, each event in the bucket its time is hashed to, with the counts the code keeps. `insert` adds
an event behind the ones of its time (`Filled.linkLast`), `insert2` in front of them
(`Filled.insert2`), and because `resize` moves the events of each bucket from its tail, the queue
it rebuilds is the one it took apart (`filled_moveEvents`).
-/

namespace NetSim

open Function List StableOrder

/-! ## The hash -/

/-- The number of the stretch of `width` that `t` lies in, counted from time zero. -/
def day (width t : ℚ) : ℕ := ⌊t / width⌋₊

theorem truncate_of_nonneg {x : ℚ} (h : 0 ≤ x) : truncate x = ⌊x⌋ := by
  rw [truncate, if_neg (not_lt.mpr h)]

theorem fmod_natCast {x : ℚ} (hx : 0 ≤ x) (n : ℕ) :
    fmod x n = x - ((⌊x⌋ / (n : ℤ) * n : ℤ) : ℚ) := by
  have hdiv : ⌊x / n⌋ = ⌊x⌋ / (n : ℤ) := Int.floor_div_natCast x n
  rw [fmod, truncate_of_nonneg (by positivity), hdiv]
  push_cast
  rfl

theorem calendarHash_eq {width t : ℚ} {n : ℕ} (hw : 0 < width) (ht : 0 ≤ t) :
    calendarHash width n t = day width t % n := by
  have hx : 0 ≤ t / width := by positivity
  have hfl : 0 ≤ ⌊t / width⌋ := Int.floor_nonneg.mpr hx
  have hmod : ⌊t / width⌋ - ⌊t / width⌋ / (n : ℤ) * n = ⌊t / width⌋ % n := by
    have := Int.mul_ediv_add_emod ⌊t / width⌋ n
    rw [mul_comm] at this
    omega
  have hnn : (0 : ℤ) ≤ ⌊t / width⌋ % n := by
    rcases Nat.eq_zero_or_pos n with rfl | hn
    · simpa using hfl
    · exact Int.emod_nonneg _ (by omega)
  have hfloor : ⌊fmod (t / width) n⌋ = ⌊t / width⌋ % n := by
    rw [fmod_natCast hx, Int.floor_sub_intCast, hmod]
  have hpos : 0 ≤ fmod (t / width) n := by
    have : (0 : ℤ) ≤ ⌊fmod (t / width) n⌋ := by rw [hfloor]; exact hnn
    exact Int.floor_nonneg.mp this
  have hday : (day width t : ℤ) = ⌊t / width⌋ := Int.natCast_floor_eq_floor hx
  rw [calendarHash, truncate_of_nonneg hpos, hfloor, ← hday]
  omega

theorem calendarHash_lt {width t : ℚ} {n : ℕ} (hw : 0 < width) (ht : 0 ≤ t) (hn : 0 < n) :
    calendarHash width n t < n := by
  rw [calendarHash_eq hw ht]
  exact Nat.mod_lt _ hn

theorem day_mono {width s t : ℚ} (hw : 0 < width) (h : s ≤ t) : day width s ≤ day width t := by
  apply Nat.floor_le_floor
  gcongr

theorem day_mul_le {width t : ℚ} (hw : 0 < width) (ht : 0 ≤ t) : day width t * width ≤ t := by
  have := Nat.floor_le (show 0 ≤ t / width by positivity)
  rwa [le_div_iff₀ hw] at this

theorem lt_day_mul {width : ℚ} (t : ℚ) (hw : 0 < width) : t < (day width t + 1) * width := by
  have := Nat.lt_floor_add_one (t / width)
  rwa [div_lt_iff₀ hw] at this

/-! ## Counting distinct times -/

def distinctTimes (q : List Event) : ℕ := (q.map Event.time).toFinset.card

@[simp] theorem distinctTimes_nil : distinctTimes [] = 0 := rfl

theorem distinctTimes_perm {q q' : List Event} (h : q.Perm q') :
    distinctTimes q = distinctTimes q' := by
  unfold distinctTimes
  rw [toFinset_eq_of_perm _ _ (h.map _)]

theorem distinctTimes_cons (e : Event) (q : List Event) :
    distinctTimes (e :: q) =
      distinctTimes q + if e.time ∈ q.map Event.time then 0 else 1 := by
  unfold distinctTimes
  rw [map_cons, toFinset_cons]
  by_cases h : e.time ∈ q.map Event.time
  · rw [if_pos h, Finset.insert_eq_of_mem (mem_toFinset.mpr h), Nat.add_zero]
  · rw [if_neg h, Finset.card_insert_of_notMem (by rwa [mem_toFinset])]

theorem distinctTimes_eq_zero {q : List Event} : distinctTimes q = 0 ↔ q = [] := by
  simp [distinctTimes]

theorem time_head_lt_last {e : Event} {q : List Event} (hs : Sorted Event.time (e :: q))
    (h : 1 < distinctTimes (e :: q)) : e.time < ((e :: q).getLast (by simp)).time := by
  by_contra hle
  have hall : ∀ x ∈ e :: q, x.time = e.time := by
    intro x hx
    have h1 : e.time ≤ x.time := hs.le_of_mem hx
    have h2 : x.time ≤ ((e :: q).getLast (by simp)).time := hs.le_getLast hx _
    exact le_antisymm (h2.trans (not_lt.mp hle)) h1
  have hsub : ((e :: q).map Event.time).toFinset ⊆ {e.time} := by
    intro t ht
    obtain ⟨x, hx, rfl⟩ := mem_map.mp (mem_toFinset.mp ht)
    rw [Finset.mem_singleton]
    exact hall x hx
  have := Finset.card_le_card hsub
  unfold distinctTimes at h
  rw [Finset.card_singleton] at this
  omega

/-! ## Linking an event into a bucket -/

namespace Calendar

/-- In a sorted bucket whose events are not earlier than `t`, the first one shows whether `t`
occurs. -/
theorem time_mem_iff_head {t : ℚ} {b : Event} {l : List Event} (hs : Sorted Event.time (b :: l))
    (h : t ≤ b.time) : t ∈ (b :: l).map Event.time ↔ b.time = t := by
  constructor
  · intro hm
    obtain ⟨x, hx, hxt⟩ := mem_map.mp hm
    have := hs.le_of_mem hx
    exact le_antisymm (hxt ▸ this) h
  · rintro rfl
    exact mem_map.mpr ⟨b, by simp, rfl⟩

theorem walkBack_spec (t : ℚ) (rev passed : List Event) (n : ℕ)
    (hs : Sorted Event.time (rev.reverse ++ passed)) (hp : ∀ x ∈ passed, t < x.time) :
    (walkBack t rev passed n).1.reverse ++ (walkBack t rev passed n).2.1
        = rev.reverse ++ passed ∧
      (∀ x ∈ (walkBack t rev passed n).1, x.time ≤ t) ∧
      (∀ x ∈ (walkBack t rev passed n).2.1, t < x.time) := by
  induction rev generalizing passed n with
  | nil => exact ⟨rfl, by simp [walkBack], by simpa [walkBack] using hp⟩
  | cons after rev ih =>
    unfold walkBack
    split
    case isTrue h =>
      have hs' : Sorted Event.time (rev.reverse ++ after :: passed) := by simpa using hs
      have hp' : ∀ x ∈ after :: passed, t < x.time := by
        intro x hx
        rcases mem_cons.mp hx with rfl | hx
        · exact h
        · exact hp x hx
      obtain ⟨h1, h2, h3⟩ := ih (after :: passed) (n + 1) hs' hp'
      exact ⟨by rw [h1]; simp, h2, h3⟩
    case isFalse h =>
      refine ⟨rfl, ?_, hp⟩
      intro x hx
      have hs' : Sorted Event.time ((after :: rev).reverse) := (pairwise_append.mp hs).1
      have hle := hs'.le_getLast (mem_reverse.mpr hx) (by simp)
      rw [getLast_reverse] at hle
      exact hle.trans (not_lt.mp h)

/-- `insert` links the event behind those of its time, and notices whether its time is new. -/
theorem linkLast_spec {l : List Event} (hs : Sorted Event.time l) (e : Event) :
    (linkLast l e).1 = insertLast Event.time e l ∧
      ((linkLast l e).2.1 = true ↔ e.time ∉ l.map Event.time) := by
  unfold linkLast
  split
  case h_1 => simp [insertLast]
  case h_2 head rest =>
    split
    case isTrue h =>
      refine ⟨by simp [insertLast, h], ?_⟩
      rw [time_mem_iff_head hs h.le]
      simpa using h.ne'
    case isFalse h =>
      obtain ⟨heq, hle, hlt⟩ := walkBack_spec e.time (head :: rest).reverse [] 1
        (by simpa using hs) (by simp)
      rw [append_nil, reverse_reverse] at heq
      generalize walkBack e.time (head :: rest).reverse [] 1 = r at heq hle hlt
      obtain ⟨rev, passed, n⟩ := r
      have hins : insertLast Event.time e (head :: rest) = rev.reverse ++ e :: passed := by
        rw [← heq]
        exact insertLast_append e (fun x hx => hle x (mem_reverse.mp hx)) hlt
      cases rev with
      | nil =>
        have hhead : head ∈ passed := by
          have : passed = head :: rest := by simpa using heq
          simp [this]
        exact absurd (hlt head hhead) h
      | cons after rev =>
        refine ⟨hins.symm, ?_⟩
        show decide (after.time < e.time) = true ↔ _
        have hsorted : Sorted Event.time ((after :: rev).reverse ++ passed) := heq ▸ hs
        rw [decide_eq_true_iff, ← heq]
        constructor
        · intro hlt' hm
          obtain ⟨x, hx, hxt⟩ := mem_map.mp hm
          rcases mem_append.mp hx with hx | hx
          · have hs' := (pairwise_append.mp hsorted).1
            have := Sorted.le_getLast hs' hx (by simp)
            rw [getLast_reverse] at this
            exact absurd (hxt ▸ this) (not_le.mpr hlt')
          · exact absurd hxt (hlt x hx).ne'
        · intro hm
          refine lt_of_le_of_ne (hle after (by simp)) (fun heq' => hm ?_)
          exact mem_map.mpr ⟨after, by simp, heq'⟩

/-- `insert2` links the event before those of its time, and notices whether its time is new. -/
theorem linkFirst_spec {l : List Event} (hs : Sorted Event.time l) (e : Event) :
    (linkFirst l e).1 = insertFirst Event.time e l ∧
      ((linkFirst l e).2 = true ↔ e.time ∉ l.map Event.time) := by
  unfold linkFirst
  split
  case h_1 => simp [insertFirst]
  case h_2 head rest =>
    have hsplit : ∀ m : List Event, insertFirst Event.time e m =
        m.takeWhile (fun b => b.time < e.time) ++ e :: m.dropWhile (fun b => b.time < e.time) := by
      intro m
      induction m with
      | nil => rfl
      | cons b m ih =>
        by_cases hb : b.time < e.time
        · simp [insertFirst, hb, ih]
        · simp [insertFirst, hb]
    split
    case isTrue h =>
      have hall : ∀ x ∈ head :: rest, x.time < e.time :=
        fun x hx => (hs.le_getLast hx _).trans_lt h
      have htake : (head :: rest).takeWhile (fun b => b.time < e.time) = head :: rest :=
        takeWhile_eq_self_iff.mpr (by simpa using hall)
      have hdrop : (head :: rest).dropWhile (fun b => b.time < e.time) = [] :=
        dropWhile_eq_nil_iff.mpr (by simpa using hall)
      refine ⟨by rw [hsplit, htake, hdrop], ?_⟩
      show decide (head.time ≠ e.time) = true ↔ _
      rw [decide_eq_true_iff]
      refine iff_of_true (hall head (by simp)).ne ?_
      intro hm
      obtain ⟨x, hx, hxt⟩ := mem_map.mp hm
      exact (hall x hx).ne hxt
    case isFalse h =>
      refine ⟨(hsplit _).symm, ?_⟩
      dsimp only
      have happ := @takeWhile_append_dropWhile Event (fun b => b.time < e.time) (head :: rest)
      cases hback : (head :: rest).dropWhile (fun b => b.time < e.time) with
      | nil =>
        have hlast := dropWhile_eq_nil_iff.mp hback _ (getLast_mem (by simp))
        exact absurd (by simpa using hlast) h
      | cons before back =>
        have hbefore : e.time ≤ before.time := by
          have := head?_dropWhile_not (fun b => b.time < e.time) (head :: rest)
          rw [hback] at this
          simpa using this
        rw [hback] at happ
        have hs' : Sorted Event.time (before :: back) :=
          (pairwise_append.mp (happ ▸ hs : Sorted Event.time _)).2.1
        have hback' : e.time ∈ (head :: rest).map Event.time ↔
            e.time ∈ (before :: back).map Event.time := by
          rw [← happ, map_append, mem_append, or_iff_right]
          intro hm
          obtain ⟨x, hx, hxt⟩ := mem_map.mp hm
          have : x.time < e.time := by simpa using mem_takeWhile_imp hx
          exact this.ne hxt
        rw [hback', time_mem_iff_head hs' hbefore, decide_eq_true_iff]

/-! ## The buckets hold a queue -/

/-- The events of `q` that belong into the bucket `i`. -/
def share (c : Calendar) (i : ℕ) (q : List Event) : List Event :=
  q.filter (fun e => c.hash e.time = i)

/-- The buckets of `c` hold the queue `q`, each event in the bucket of its hash. -/
structure Filled (c : Calendar) (q : List Event) : Prop where
  list : ∀ i, (c.buckets i).list = c.share i q
  count : ∀ i, (c.buckets i).count = distinctTimes (c.buckets i).list
  qsize : c.qsize = q.length
  statQsize : c.statQsize = distinctTimes q

variable {c : Calendar} {q q' : List Event} {e : Event}

@[simp] theorem linked_buckets (i : ℕ) (l : List Event) (new : Bool) :
    (c.linked i l new).buckets =
      update c.buckets i ⟨l, (c.buckets i).count + if new then 1 else 0⟩ := rfl

@[simp] theorem unlinked_buckets (i : ℕ) (l : List Event) (gone : Bool) :
    (c.unlinked i l gone).buckets =
      update c.buckets i ⟨l, (c.buckets i).count - if gone then 1 else 0⟩ := rfl

@[simp] theorem linked_share (i j : ℕ) (l : List Event) (new : Bool) :
    (c.linked i l new).share j q = c.share j q := rfl

@[simp] theorem unlinked_share (i j : ℕ) (l : List Event) (gone : Bool) :
    (c.unlinked i l gone).share j q = c.share j q := rfl

theorem time_mem_share (c : Calendar) (q : List Event) (t : ℚ) :
    t ∈ (c.share (c.hash t) q).map Event.time ↔ t ∈ q.map Event.time := by
  constructor
  · intro hm
    obtain ⟨x, hx, rfl⟩ := mem_map.mp hm
    exact mem_map.mpr ⟨x, (mem_filter.mp hx).1, rfl⟩
  · intro hm
    obtain ⟨x, hx, rfl⟩ := mem_map.mp hm
    exact mem_map.mpr ⟨x, mem_filter.mpr ⟨hx, by simp⟩, rfl⟩

theorem Filled.linked (h : Filled c q) (hp : q'.Perm (e :: q))
    (hother : ∀ i, i ≠ c.hash e.time → c.share i q' = c.share i q)
    {new : Bool} (hnew : new = true ↔ e.time ∉ (c.buckets (c.hash e.time)).list.map Event.time) :
    Filled (c.linked (c.hash e.time) (c.share (c.hash e.time) q') new) q' := by
  have hd : ∀ m : List Event, (new = true ↔ e.time ∉ m.map Event.time) →
      (distinctTimes (e :: m) : ℤ) = distinctTimes m + if new then 1 else 0 := by
    intro m hm
    rw [distinctTimes_cons]
    by_cases hn : new = true
    · rw [if_neg (hm.mp hn), if_pos hn]; rfl
    · rw [if_pos (by simpa using mt hm.mpr hn), if_neg hn]; rfl
  have hbucket : (c.share (c.hash e.time) q').Perm
      (e :: (c.buckets (c.hash e.time)).list) := by
    rw [h.list]
    simpa [share] using hp.filter (fun x => c.hash x.time = c.hash e.time)
  refine ⟨fun i => ?_, fun i => ?_, ?_, ?_⟩
  · by_cases hi : i = c.hash e.time
    · subst hi
      simp only [linked_buckets, linked_share, update_self]
    · simp only [linked_buckets, linked_share, update_of_ne hi]
      rw [hother i hi, h.list]
  · by_cases hi : i = c.hash e.time
    · subst hi
      simp only [linked_buckets, update_self]
      rw [distinctTimes_perm hbucket, hd _ hnew, h.count]
    · simp only [linked_buckets, update_of_ne hi]
      exact h.count i
  · show c.qsize + 1 = _
    rw [h.qsize, hp.length_eq]
    simp
  · show c.statQsize + _ = _
    rw [h.list, time_mem_share] at hnew
    rw [h.statQsize, distinctTimes_perm hp, hd q hnew]

theorem Filled.unlinked (h : Filled c q) (hp : q.Perm (e :: q'))
    (hother : ∀ i, i ≠ c.hash e.time → c.share i q' = c.share i q)
    {gone : Bool} (hgone : gone = true ↔
      e.time ∉ (c.share (c.hash e.time) q').map Event.time) :
    Filled (c.unlinked (c.hash e.time)
      (c.share (c.hash e.time) q') gone) q' := by
  have hd : ∀ m : List Event, (gone = true ↔ e.time ∉ m.map Event.time) →
      (distinctTimes (e :: m) : ℤ) - (if gone then 1 else 0) = distinctTimes m := by
    intro m hm
    rw [distinctTimes_cons]
    by_cases hn : gone = true
    · rw [if_neg (hm.mp hn), if_pos hn]; push_cast; ring
    · rw [if_pos (by simpa using mt hm.mpr hn), if_neg hn]; simp
  have hbucket : (c.buckets (c.hash e.time)).list.Perm
      (e :: c.share (c.hash e.time) q') := by
    rw [h.list]
    simpa [share] using hp.filter (fun x => c.hash x.time = c.hash e.time)
  refine ⟨fun i => ?_, fun i => ?_, ?_, ?_⟩
  · by_cases hi : i = c.hash e.time
    · subst hi
      simp only [unlinked_buckets, unlinked_share, update_self]
    · simp only [unlinked_buckets, unlinked_share, update_of_ne hi]
      rw [hother i hi, h.list]
  · by_cases hi : i = c.hash e.time
    · subst hi
      simp only [unlinked_buckets, update_self]
      rw [h.count, distinctTimes_perm hbucket, hd _ hgone]
    · simp only [unlinked_buckets, update_of_ne hi]
      exact h.count i
  · show c.qsize - 1 = _
    rw [h.qsize, hp.length_eq]
    simp
  · show c.statQsize - _ = _
    rw [time_mem_share] at hgone
    rw [h.statQsize, distinctTimes_perm hp, hd q' hgone]

theorem Filled.sorted (h : Filled c q) (hs : Sorted Event.time q) (i : ℕ) :
    Sorted Event.time (c.buckets i).list := by
  rw [h.list]
  exact hs.filter _

theorem Filled.linkLast (h : Filled c q) (hs : Sorted Event.time q) (e : Event) :
    Filled (c.linked (c.hash e.time) (linkLast (c.buckets (c.hash e.time)).list e).1
      (linkLast (c.buckets (c.hash e.time)).list e).2.1) (insertLast Event.time e q) := by
  have hspec := linkLast_spec (h.sorted hs (c.hash e.time)) e
  have hbucket : insertLast Event.time e (c.buckets (c.hash e.time)).list =
      c.share (c.hash e.time) (insertLast Event.time e q) := by
    rw [share, filter_insertLast _ _ hs, h.list]
    simp [share]
  rw [hspec.1, hbucket]
  refine h.linked ?_ ?_ hspec.2
  · exact (agree_insertLast e hs).perm.trans (perm_append_singleton e q)
  · intro i hi
    rw [share, filter_insertLast _ _ hs]
    simp [hi.symm, share]

theorem Filled.insert2 (h : Filled c q) (hs : Sorted Event.time q) (e : Event) :
    Filled (c.insert2 e) (insertFirst Event.time e q) := by
  have hspec := linkFirst_spec (h.sorted hs (c.hash e.time)) e
  have hbucket : insertFirst Event.time e (c.buckets (c.hash e.time)).list =
      c.share (c.hash e.time) (insertFirst Event.time e q) := by
    rw [share, filter_insertFirst _ _ hs, h.list]
    simp [share]
  rw [Calendar.insert2, hspec.1, hbucket]
  refine h.linked (agree_insertFirst e q).perm ?_ hspec.2
  intro i hi
  rw [share, filter_insertFirst _ _ hs]
  simp [hi.symm, share]

/-! ## Resizing -/

structure SameFrame (c c' : Calendar) : Prop where
  width : c'.width = c.width
  nbuckets : c'.nbuckets = c.nbuckets
  diff0 : c'.diff0 = c.diff0
  diff1 : c'.diff1 = c.diff1
  diff2 : c'.diff2 = c.diff2
  lastbucket : c'.lastbucket = c.lastbucket
  calClock : c'.calClock = c.calClock

theorem foldl_insert2 (as : List Event) (h : Filled c q) (hs : Sorted Event.time q) :
    Filled (as.foldl Calendar.insert2 c) (stackAll Event.time q as) ∧
      SameFrame c (as.foldl Calendar.insert2 c) := by
  induction as generalizing c q with
  | nil => exact ⟨h, ⟨rfl, rfl, rfl, rfl, rfl, rfl, rfl⟩⟩
  | cons a as ih =>
    obtain ⟨hf, hsame⟩ := ih (h.insert2 hs a) (sorted_insertFirst a hs)
    exact ⟨hf, ⟨hsame.1, hsame.2, hsame.3, hsame.4, hsame.5, hsame.6, hsame.7⟩⟩

theorem filled_reinit (c : Calendar) (n : ℕ) (width start : ℚ) :
    Filled (c.reinit n width start) [] :=
  ⟨fun _ => rfl, fun _ => rfl, rfl, rfl⟩

/-- **Moving the events into new buckets rebuilds the same queue**: they are taken from the tail
of each bucket and pushed in front of their time. -/
theorem filled_moveEvents (h : Filled c q) (hs : Sorted Event.time q)
    (hlt : ∀ e ∈ q, c.hash e.time < c.nbuckets) (n : ℕ) (width start : ℚ) :
    Filled (moveEvents c.buckets c.nbuckets (c.reinit n width start)) q ∧
      SameFrame (c.reinit n width start)
        (moveEvents c.buckets c.nbuckets (c.reinit n width start)) := by
  have hnil : Sorted Event.time ([] : List Event) := List.Pairwise.nil
  obtain ⟨hf, hsame⟩ := foldl_insert2
    ((List.range c.nbuckets).flatMap (fun i => (c.buckets i).list.reverse))
    (filled_reinit c n width start) hnil
  refine ⟨?_, hsame⟩
  have hq : stackAll Event.time []
      ((List.range c.nbuckets).flatMap (fun i => (c.buckets i).list.reverse)) = q := by
    apply eq_of_agree (sorted_stackAll hnil _) hs
    refine (agree_stackAll _ _).trans ?_
    rw [append_nil]
    simp only [h.list]
    exact agree_reverse_classes c.hash hlt
  rw [hq] at hf
  exact hf

/-! ## Unlinking an event -/

/-- `deque` unlinks the first event of the queue, which is the first one of its bucket. -/
theorem Filled.unlinkFirst (h : Filled c (e :: q)) (hs : Sorted Event.time (e :: q)) :
    (c.buckets (c.hash e.time)).list = e :: c.share (c.hash e.time) q ∧
      Filled (c.unlinked (c.hash e.time) (c.share (c.hash e.time) q)
        (noFollower e (c.share (c.hash e.time) q))) q := by
  have hlist : (c.buckets (c.hash e.time)).list = e :: c.share (c.hash e.time) q := by
    rw [h.list]
    simp [share]
  refine ⟨hlist, h.unlinked (List.Perm.refl _) ?_ ?_⟩
  · intro i hi
    simp [share, hi.symm]
  · have hsb : Sorted Event.time (e :: c.share (c.hash e.time) q) := by
      rw [← hlist, h.list]
      exact hs.filter _
    cases hsh : c.share (c.hash e.time) q with
    | nil => simp [noFollower]
    | cons next rest =>
      rw [hsh] at hsb
      rw [noFollower, time_mem_iff_head hsb.tail (hsb.le_of_mem (by simp)), decide_eq_true_iff]

theorem splitAt_append {before behind : List Event} (hd : Distinct (before ++ e :: behind)) :
    splitAt e (before ++ e :: behind) = some (before, behind) := by
  induction before with
  | nil => simp [splitAt]
  | cons x before ih =>
    obtain ⟨hx, hd'⟩ := nodup_cons.mp hd
    have hid : x.id ≠ e.id := fun heq => hx (mem_map.mpr ⟨e, by simp, heq.symm⟩)
    simp [splitAt, hid, ih hd']

/-- The two neighbours of an event on the circle of its bucket show whether another event has its
time. -/
theorem noNeighbour_spec {before behind : List Event}
    (hs : Sorted Event.time (before ++ e :: behind)) :
    noNeighbour e (behind ++ before) = true ↔ e.time ∉ (before ++ behind).map Event.time := by
  obtain ⟨hbefore, hbehind, hle⟩ := pairwise_append.mp hs
  rcases eq_nil_or_concat (behind ++ before) with hnil | ⟨m, prev, hprev⟩
  · obtain ⟨rfl, rfl⟩ := append_eq_nil_iff.mp hnil
    simp [noNeighbour]
  · obtain ⟨next, m', hnext⟩ : ∃ next m', behind ++ before = next :: m' := by
      cases hl : behind ++ before with
      | nil => rw [hl] at hprev; simp at hprev
      | cons x l => exact ⟨x, l, rfl⟩
    have h1 : (behind ++ before).head? = some next := by rw [hnext]; rfl
    have h2 : (behind ++ before).getLast? = some prev := by rw [hprev]; simp
    have hmem : ∀ x, x ∈ before ++ behind ↔ x ∈ behind ++ before :=
      fun x => by simp [or_comm]
    unfold noNeighbour
    rw [h1, h2]
    simp only [Bool.and_eq_true, decide_eq_true_iff]
    rw [← not_or, not_iff_not]
    constructor
    · rintro (heq | heq)
      · exact mem_map.mpr ⟨next, (hmem next).mpr (by simp [hnext]), heq⟩
      · exact mem_map.mpr ⟨prev, (hmem prev).mpr (by simp [hprev]), heq⟩
    · intro hm
      obtain ⟨x, hx, hxt⟩ := mem_map.mp hm
      rcases mem_append.mp hx with hx | hx
      · -- an event before `e` with its time: then so is the last one before it
        right
        have hne : before ≠ [] := ne_nil_of_mem hx
        have hlast : before.getLast hne = prev := by
          rw [getLast?_append_of_ne_nil _ hne, getLast?_eq_getLast_of_ne_nil hne] at h2
          exact Option.some.inj h2
        have hge := Sorted.le_getLast hbefore hx hne
        rw [hlast, hxt] at hge
        exact le_antisymm (hle prev (hlast ▸ getLast_mem hne) e (by simp)) hge
      · left
        cases behind with
        | nil => cases hx
        | cons n behind =>
          have hn : n = next := by simpa using h1
          subst hn
          have := (pairwise_cons.mp hbehind).1 n (by simp)
          have hx' := Sorted.le_of_mem (Sorted.tail hbehind) hx
          exact le_antisymm (hxt ▸ hx') this

theorem Filled.cancel (h : Filled c q) (hq : QueueInv q) (he : e ∈ q) (hu : 0 < e.uid) :
    ∃ c', c.cancel e = some c' ∧ Filled c' (remove e q) ∧ SameFrame c c' := by
  have hbucket : e ∈ (c.buckets (c.hash e.time)).list := by
    rw [h.list]
    exact mem_filter.mpr ⟨he, by simp⟩
  obtain ⟨before, behind, hsplit⟩ := append_of_mem hbucket
  have hs : Sorted Event.time (before ++ e :: behind) := hsplit ▸ h.sorted hq.sorted _
  have hd : Distinct (before ++ e :: behind) := by
    rw [← hsplit, h.list]
    exact hq.distinct.sublist (filter_sublist.map _)
  have hshare : c.share (c.hash e.time) (remove e q) = before ++ behind := by
    rw [← remove_append_cons hd, ← hsplit, h.list, share, share, remove, remove,
      filter_comm]
  have hperm : q.Perm (e :: remove e q) := by
    obtain ⟨a, b, hab⟩ := append_of_mem he
    rw [hab, remove_append_cons (hab ▸ hq.distinct)]
    exact perm_middle
  have hother : ∀ i, i ≠ c.hash e.time → c.share i (remove e q) = c.share i q := by
    intro i hi
    rw [share, share, remove, filter_comm, filter_eq_self]
    intro x hx
    obtain ⟨hxq, hxi⟩ := mem_filter.mp hx
    have hne : x.id ≠ e.id := by
      intro hid
      have hxe := hq.distinct.eq_of_id hxq he hid
      rw [← hxe] at hi
      exact hi (of_decide_eq_true hxi).symm
    simpa using hne
  have hgone := noNeighbour_spec hs
  simp only [Calendar.cancel, if_neg (show ¬ e.uid ≤ 0 by omega), hsplit, splitAt_append hd]
  generalize noNeighbour e (behind ++ before) = gone at hgone ⊢
  rw [← hshare] at hgone ⊢
  have hf := h.unlinked hperm hother hgone
  generalize hc : c.unlinked (c.hash e.time) (c.share (c.hash e.time) (remove e q)) gone = c'
    at hf ⊢
  refine ⟨c', ?_, hf, ?_⟩
  · have hstat : 0 ≤ c'.statQsize := by rw [hf.statQsize]; omega
    have hcount : 0 ≤ (c'.buckets (c.hash e.time)).count := by rw [hf.count]; omega
    rw [if_neg (fun hn => hn.2 ⟨hstat, hcount⟩), if_neg]
    rintro ⟨h0, hne⟩
    rw [hf.count] at h0
    exact hne (distinctTimes_eq_zero.mp (by omega))
  · rw [← hc]
    exact ⟨rfl, rfl, rfl, rfl, rfl, rfl, rfl⟩

end Calendar

end NetSim
