import NetSim.Lib.CyclicList
import NetSim.Scheduler.CalendarLinks
import NetSim.Scheduler.CalendarScheduler

/-! # The pointers of the calendar queue: inserting and moving

`Models m c` says that the pointers of `m` hold the buckets of `c`, each as a circular list. An
operation on the pointers changes the links of the events of one bucket only; so the other circles
stay (`Models.relink`). While `resize` moves the events, the circles of the old buckets stay as well,
until their turn comes (`moveBucket_models`).
-/

namespace NetSim

open Function List CyclicList StableOrder

namespace Calendar

/-- The calendar without the events in its buckets. -/
def bare (c : Calendar) : Calendar :=
  { c with buckets := fun i => ⟨[], (c.buckets i).count⟩ }

variable {c : Calendar}

@[simp] theorem bare_count (i : ℕ) : (c.bare.buckets i).count = (c.buckets i).count := rfl

@[simp] theorem bare_hash (t : ℚ) : c.bare.hash t = c.hash t := rfl

theorem bare_linked (i : ℕ) (l : List Event) (new : Bool) :
    (c.linked i l new).bare = c.bare.linked i [] new := by
  have hbuckets : ∀ d : ℤ,
      (fun j => (⟨[], (update c.buckets i ⟨l, (c.buckets i).count + d⟩ j).count⟩ :
        Bucket)) =
      update (fun j => (⟨[], (c.buckets j).count⟩ : Bucket)) i
        ⟨[], (c.buckets i).count + d⟩ := by
    intro d
    funext j
    by_cases hj : j = i
    · subst hj
      simp
    · simp [hj]
  simp only [linked, bare, setBucket, hbuckets]

theorem bare_unlinked (i : ℕ) (l : List Event) (gone : Bool) :
    (c.unlinked i l gone).bare = c.bare.unlinked i [] gone := by
  have hbuckets : ∀ d : ℤ,
      (fun j => (⟨[], (update c.buckets i ⟨l, (c.buckets i).count - d⟩ j).count⟩ :
        Bucket)) =
      update (fun j => (⟨[], (c.buckets j).count⟩ : Bucket)) i
        ⟨[], (c.buckets i).count - d⟩ := by
    intro d
    funext j
    by_cases hj : j = i
    · subst hj
      simp
    · simp [hj]
  simp only [unlinked, bare, setBucket, hbuckets]

end Calendar

namespace LinkedCalendar

variable {m m' : LinkedCalendar} {c : Calendar} {q : List Event} {e : Event} {i : ℕ}

/-- The pointers hold the buckets of `c`. -/
structure Models (m : LinkedCalendar) (c : Calendar) : Prop where
  cal : m.cal = c.bare
  list : ∀ i, m.list i = (c.buckets i).list.head?
  circle : ∀ i, Holds m.next m.prev (c.buckets i).list

/-- Every event is in the bucket of its hash. -/
def Hashed (c : Calendar) : Prop := ∀ i, ∀ e ∈ (c.buckets i).list, c.hash e.time = i

theorem Hashed.of_filled (h : Calendar.Filled c q) : Hashed c := by
  intro i e he
  rw [h.list] at he
  exact of_decide_eq_true (mem_filter.mp he).2

/-- The links of `m'` are those of `m` for all events but `e` and those in the bucket `i`. -/
def SameLinks (m m' : LinkedCalendar) (c : Calendar) (i : ℕ) (e : Event) : Prop :=
  ∀ x, x ≠ e → x ∉ (c.buckets i).list → m'.next x = m.next x ∧ m'.prev x = m.prev x

theorem Models.relink (h : Models m c) (hhash : Hashed c) {l : List Event} {c' : Calendar}
    {b : Bucket} (he : c.hash e.time = i) (hsame : SameLinks m m' c i e)
    (hbuckets : c'.buckets = update c.buckets i b) (hb : b.list = l)
    (hcal : m'.cal = c'.bare) (hlist : m'.list = update m.list i l.head?)
    (hcircle : Holds m'.next m'.prev l) : Models m' c' := by
  refine ⟨hcal, fun j => ?_, fun j => ?_⟩
  · rw [hlist, hbuckets]
    by_cases hj : j = i
    · subst hj
      rw [update_self, update_self, hb]
    · rw [update_of_ne hj, update_of_ne hj, h.list]
  · rw [hbuckets]
    by_cases hj : j = i
    · subst hj
      rw [update_self, hb]
      exact hcircle
    · rw [update_of_ne hj]
      refine (h.circle j).congr (fun x hx => hsame x ?_ ?_)
      · rintro rfl
        exact hj ((hhash j x hx).symm.trans he)
      · intro hxi
        exact hj ((hhash j x hx).symm.trans (hhash i x hxi))

theorem Models.hash (h : Models m c) (t : ℚ) : m.cal.hash t = c.hash t := by
  rw [h.cal, Calendar.bare_hash]

theorem Models.qsize (h : Models m c) : m.cal.qsize = c.qsize := by
  rw [h.cal]
  rfl

/-! ## Along a bucket -/

theorem Models.prev_head (h : Models m c) {head : Event} {rest : List Event}
    (hl : (c.buckets i).list = head :: rest) :
    m.prev head = (head :: rest).getLast (cons_ne_nil head rest) := by
  have hcircle := h.circle i
  rw [hl] at hcircle
  exact hcircle.prev_head

theorem walkPrev_eq {newtime : ℚ} {head after : Event} {rev passed : List Event} {fuel n : ℕ}
    (hcircle : Holds m.next m.prev ((after :: rev).reverse ++ passed))
    (hhead : ((after :: rev).reverse ++ passed).head? = some head) (hle : ¬ newtime < head.time)
    (hfuel : rev.length < fuel) :
    ∃ before behind searches found,
      Calendar.walkBack newtime (after :: rev) passed n = (found :: before, behind, searches) ∧
        m.walkPrev newtime fuel after n = some (found, searches) ∧
        (found :: before).reverse ++ behind = (after :: rev).reverse ++ passed := by
  induction rev generalizing after passed fuel n with
  | nil =>
    -- the first event of the bucket is not later
    have hfirst : after = head := by simpa using hhead
    cases fuel with
    | zero => omega
    | succ fuel =>
      rw [walkPrev, Calendar.walkBack, hfirst, if_neg hle, if_neg hle]
      exact ⟨[], passed, n, head, rfl, rfl, rfl⟩
  | cons a rev ih =>
    cases fuel with
    | zero => omega
    | succ fuel =>
      rw [walkPrev, Calendar.walkBack]
      by_cases hlt : newtime < after.time
      · rw [if_pos hlt, if_pos hlt]
        have hmove : (after :: a :: rev).reverse ++ passed =
            (a :: rev).reverse ++ after :: passed := by simp
        rw [hmove] at hcircle hhead ⊢
        have hprev : m.prev after = a := by
          have : Holds m.next m.prev (rev.reverse ++ a :: after :: passed) := by
            simpa using hcircle
          exact this.next_eq.2
        rw [hprev]
        exact ih hcircle hhead (by simpa using hfuel)
      · rw [if_neg hlt, if_neg hlt]
        exact ⟨a :: rev, passed, n, after, rfl, rfl, rfl⟩

theorem walkNext_eq {time : ℚ} {front back : List Event} {b : Event} {l : List Event} {fuel : ℕ}
    (hcircle : Holds m.next m.prev (front ++ b :: l))
    (hback : (b :: l).dropWhile (fun x => x.time < time) = back) (hne : back ≠ [])
    (hfuel : l.length < fuel) : ∃ before, m.walkNext time fuel b = some before ∧
      back.head? = some before := by
  induction l generalizing front b fuel with
  | nil =>
    cases fuel with
    | zero => omega
    | succ fuel =>
      rw [walkNext]
      by_cases hlt : b.time < time
      · rw [dropWhile_cons_of_pos (by simpa using hlt)] at hback
        exact absurd hback.symm hne
      · rw [dropWhile_cons_of_neg (by simpa using hlt)] at hback
        rw [if_neg hlt, ← hback]
        exact ⟨b, rfl, rfl⟩
  | cons a l ih =>
    cases fuel with
    | zero => omega
    | succ fuel =>
      rw [walkNext]
      by_cases hlt : b.time < time
      · rw [dropWhile_cons_of_pos (by simpa using hlt)] at hback
        rw [if_pos hlt, hcircle.next_eq.1]
        have hcircle' : Holds m.next m.prev ((front ++ [b]) ++ a :: l) := by
          rw [append_assoc]
          exact hcircle
        exact ih hcircle' hback (by simpa using hfuel)
      · rw [dropWhile_cons_of_neg (by simpa using hlt)] at hback
        rw [if_neg hlt, ← hback]
        exact ⟨b, rfl, rfl⟩

/-! ## Linking an event -/

theorem sameLinks_alone : SameLinks m (m.alone e) c i e := by
  intro x hx _
  exact ⟨update_of_ne hx .., update_of_ne hx ..⟩

theorem Models.sameLinks_linkBefore (h : Models m c) {before : Event}
    (hmem : before ∈ (c.buckets i).list) : SameLinks m (m.linkBefore before e) c i e := by
  intro x hx hout
  have hprev : x ≠ m.prev before := fun heq => hout (heq ▸ ((h.circle i).links_mem hmem).2)
  have hbefore : x ≠ before := fun heq => hout (heq ▸ hmem)
  refine ⟨?_, ?_⟩
  · exact (update_of_ne hprev ..).trans (update_of_ne hx ..)
  · exact (update_of_ne hbefore ..).trans (update_of_ne hx ..)

theorem Models.sameLinks_linkBehind (h : Models m c) {after : Event}
    (hmem : after ∈ (c.buckets i).list) : SameLinks m (m.linkBehind after e) c i e := by
  intro x hx hout
  have hnext : x ≠ m.next after := fun heq => hout (heq ▸ ((h.circle i).links_mem hmem).1)
  have hafter : x ≠ after := fun heq => hout (heq ▸ hmem)
  refine ⟨?_, ?_⟩
  · exact (update_of_ne hafter ..).trans (update_of_ne hx ..)
  · exact (update_of_ne hnext ..).trans (update_of_ne hx ..)

theorem holds_alone : Holds (m.alone e).next (m.alone e).prev [e] :=
  holds_single (update_self ..) (update_self ..)

/-- The calendar after `insert` has linked `e` into its bucket. -/
def linkedLast (c : Calendar) (i : ℕ) (e : Event) : Calendar :=
  let r := Calendar.linkLast (c.buckets i).list e
  { c.linked i r.1 r.2.1 with
    stats := { c.stats with insertSearch := c.stats.insertSearch + r.2.2 } }

/-- **`insert` links the event where the list of its bucket gets it.** -/
theorem Models.insertAt (h : Models m c) (hhash : Hashed c) (hi : c.hash e.time = i)
    (hnew : e ∉ (c.buckets i).list) (hfuel : (c.buckets i).list.length < m.fuel) :
    ∃ m', m.insertAt i e = some m' ∧ Models m' (linkedLast c i e) := by
  have hcircle := h.circle i
  rw [LinkedCalendar.insertAt, h.list]
  cases hl : (c.buckets i).list with
  | nil =>
    refine ⟨_, rfl, h.relink hhash hi sameLinks_alone rfl rfl ?_ ?_ ?_⟩
    · rw [linkedLast, hl]
      show m.cal.linked i [] true = (c.linked i [e] true).bare
      rw [h.cal, Calendar.bare_linked]
    · rw [hl]
      rfl
    · rw [hl]
      exact holds_alone
  | cons head rest =>
    have hmemHead : head ∈ (c.buckets i).list := hl ▸ mem_cons_self
    rw [hl] at hnew hcircle hfuel
    rw [head?_cons]
    dsimp only
    by_cases hlt : e.time < head.time
    · -- a new head
      have hlink : Calendar.linkLast (head :: rest) e = (e :: head :: rest, true, 1) := by
        rw [Calendar.linkLast, if_pos hlt]
      rw [if_pos hlt]
      refine ⟨_, rfl, h.relink hhash hi (h.sameLinks_linkBefore hmemHead) rfl rfl ?_ ?_ ?_⟩
      · rw [linkedLast, hl, hlink]
        show ({ m.cal with stats := _ } : Calendar).linked i [] true =
          (({ c with stats := _ } : Calendar).linked i (e :: head :: rest) true).bare
        rw [h.cal, Calendar.bare_linked]
        rfl
      · rw [hl, hlink]
        rfl
      · rw [hl, hlink]
        have hins : Holds _ _ ([] ++ e :: head :: rest) :=
          Holds.insertBefore (show Holds m.next m.prev ([] ++ head :: rest) from hcircle) hnew
        exact hins
    · -- behind an event that is not later
      obtain ⟨last, rev, hrev⟩ : ∃ last rev, (head :: rest).reverse = last :: rev :=
        exists_cons_of_ne_nil (by simp)
      have hwhole : (last :: rev).reverse ++ [] = head :: rest := by
        rw [← hrev, reverse_reverse, append_nil]
      have hlast : m.prev head = last := by
        rw [h.prev_head hl, ← head_reverse (by simp)]
        simp only [hrev, head_cons]
      have hlength : rev.length = rest.length := by
        have := congrArg List.length hrev
        simpa using this.symm
      obtain ⟨before, behind, searches, found, hback, hwalk, hsplit⟩ :=
        @walkPrev_eq m e.time head last rev [] m.fuel 1 (hwhole ▸ hcircle)
          (by rw [hwhole]; rfl) hlt (by simp at hfuel; omega)
      rw [hwhole] at hsplit
      have hlink : Calendar.linkLast (head :: rest) e =
          ((found :: before).reverse ++ e :: behind, decide (found.time < e.time), searches) := by
        rw [Calendar.linkLast, if_neg hlt, hrev]
        rw [hback]
      have hfound : before.reverse ++ found :: behind = head :: rest := by
        rw [← hsplit]
        simp
      have hmem : found ∈ (c.buckets i).list := by
        rw [hl, ← hfound]
        simp
      have hnewList : (found :: before).reverse ++ e :: behind =
          before.reverse ++ found :: e :: behind := by simp
      have hheads : (before.reverse ++ found :: e :: behind).head? = some head := by
        have hfirst := congrArg List.head? hfound
        cases hbefore : before.reverse with
        | nil => rwa [hbefore] at hfirst
        | cons x l => rwa [hbefore] at hfirst
      rw [if_neg hlt, hlast, hwalk, Option.map_some]
      refine ⟨_, rfl, h.relink hhash hi (h.sameLinks_linkBehind hmem) rfl rfl ?_ ?_ ?_⟩
      · rw [linkedLast, hl, hlink]
        show ({ m.cal with stats := _ } : Calendar).linked i [] _ =
          (({ c with stats := _ } : Calendar).linked i _ _).bare
        rw [h.cal, Calendar.bare_linked]
        rfl
      · rw [hl, hlink, hnewList, hheads]
        have hlist := h.list i
        rw [hl] at hlist
        rw [← head?_cons, ← hlist, update_eq_self]
        rfl
      · rw [hl, hlink, hnewList]
        exact Holds.insertBehind (hfound ▸ hcircle) (hfound ▸ hnew)

/-- **`insert2` links the event where the list of its bucket gets it**, and the links of the events
outside of that bucket stay. -/
theorem Models.insert2 (h : Models m c) (hhash : Hashed c)
    (hnew : e ∉ (c.buckets (c.hash e.time)).list)
    (hfuel : (c.buckets (c.hash e.time)).list.length < m.fuel) :
    ∃ m', m.insert2 e = some m' ∧ Models m' (c.insert2 e) ∧
      SameLinks m m' c (c.hash e.time) e := by
  rw [LinkedCalendar.insert2, h.hash, Calendar.insert2]
  obtain ⟨i, hi⟩ : ∃ i, c.hash e.time = i := ⟨_, rfl⟩
  rw [hi] at hnew hfuel ⊢
  have hcircle := h.circle i
  rw [h.list]
  cases hl : (c.buckets i).list with
  | nil =>
    refine ⟨_, rfl, h.relink hhash hi sameLinks_alone rfl rfl ?_ ?_ ?_, sameLinks_alone⟩
    · show m.cal.linked i [] true = (c.linked i [e] true).bare
      rw [h.cal, Calendar.bare_linked]
    · rfl
    · exact holds_alone
  | cons head rest =>
    have hmemHead : head ∈ (c.buckets i).list := hl ▸ mem_cons_self
    rw [hl] at hnew hcircle hfuel
    rw [head?_cons]
    dsimp only
    rw [h.prev_head hl]
    by_cases hlt : ((head :: rest).getLast (cons_ne_nil head rest)).time < e.time
    · -- at the tail, in front of the head on the circle
      have hlink : Calendar.linkFirst (head :: rest) e =
          ((head :: rest) ++ [e], decide (head.time ≠ e.time)) := by
        rw [Calendar.linkFirst, if_pos hlt]
      have hsame : SameLinks m (m.linkBefore head e) c i e := h.sameLinks_linkBefore hmemHead
      rw [if_pos hlt, hlink]
      refine ⟨_, rfl, h.relink hhash hi hsame rfl rfl ?_ ?_ ?_, hsame⟩
      · show m.cal.linked i [] _ = (c.linked i _ _).bare
        rw [h.cal, Calendar.bare_linked]
      · have hlist := h.list i
        rw [hl] at hlist
        show m.list = update m.list i (some head)
        rw [← head?_cons, ← hlist, update_eq_self]
      · exact hcircle.insert hnew
    · -- before the first event that is not earlier
      obtain ⟨front, hfront⟩ : ∃ front,
          (head :: rest).takeWhile (fun b => b.time < e.time) = front := ⟨_, rfl⟩
      obtain ⟨back, hback⟩ : ∃ back,
          (head :: rest).dropWhile (fun b => b.time < e.time) = back := ⟨_, rfl⟩
      have hsplit : front ++ back = head :: rest := by
        rw [← hfront, ← hback]
        exact takeWhile_append_dropWhile
      have hne : back ≠ [] := by
        rintro rfl
        have hall := dropWhile_eq_nil_iff.mp hback _
          (getLast_mem (cons_ne_nil head rest))
        exact hlt (by simpa using hall)
      obtain ⟨before, hwalk, hbefore⟩ := walkNext_eq
        (show Holds m.next m.prev ([] ++ head :: rest) from hcircle) hback hne
        (by simp at hfuel; omega : rest.length < m.fuel)
      obtain ⟨back', rfl⟩ : ∃ back', back = before :: back' := by
        cases back with
        | nil => exact absurd rfl hne
        | cons x back' =>
          obtain rfl := Option.some.inj hbefore
          exact ⟨back', rfl⟩
      have hlink : Calendar.linkFirst (head :: rest) e =
          (front ++ e :: before :: back', decide (before.time ≠ e.time)) := by
        rw [Calendar.linkFirst, if_neg hlt]
        rw [hfront, hback]
      have hmem : before ∈ (c.buckets i).list := by
        rw [hl, ← hsplit]
        simp
      have hsame : SameLinks m (m.linkBefore before e) c i e := h.sameLinks_linkBefore hmem
      have hnewCircle : Holds (m.linkBefore before e).next (m.linkBefore before e).prev
          (front ++ e :: before :: back') :=
        Holds.insertBefore (hsplit ▸ hcircle) (hsplit ▸ hnew)
      have hlist := h.list i
      rw [hl, head?_cons] at hlist
      rw [if_neg hlt, hwalk, Option.map_some, hlink]
      cases front with
      | nil =>
        -- a new head
        obtain ⟨rfl, -⟩ := List.cons.inj hsplit
        rw [if_pos rfl]
        refine ⟨_, rfl, h.relink hhash hi hsame rfl rfl ?_ rfl hnewCircle, hsame⟩
        show m.cal.linked i [] _ = (c.linked i _ _).bare
        rw [h.cal, Calendar.bare_linked]
      | cons x front =>
        obtain ⟨rfl, hrest⟩ := List.cons.inj hsplit
        have hbeforeNe : before ≠ x := by
          rintro rfl
          refine (nodup_cons.mp hcircle.nodup).1 ?_
          rw [← hrest]
          simp
        rw [if_neg hbeforeNe]
        refine ⟨_, rfl, h.relink hhash hi hsame rfl rfl ?_ ?_ hnewCircle, hsame⟩
        · show m.cal.linked i [] _ = (c.linked i _ _).bare
          rw [h.cal, Calendar.bare_linked]
        · show m.list = update m.list i (some x)
          rw [← hlist, update_eq_self]

/-! ## Moving the events -/

theorem Models.clear (h : Models m c) (hout : ∀ i, e ∉ (c.buckets i).list) :
    Models (m.clear e) c := by
  refine ⟨h.cal, h.list, fun i => (h.circle i).congr (fun x hx => ?_)⟩
  have hne : x ≠ e := fun heq => hout i (heq ▸ hx)
  exact ⟨update_of_ne hne .., update_of_ne hne ..⟩

theorem mem_of_bucket (hf : Calendar.Filled c q) {x : Event} (hx : x ∈ (c.buckets i).list) :
    x ∈ q := by
  rw [hf.list] at hx
  exact (mem_filter.mp hx).1

theorem Models.lt_fuel (h : Models m c) (hf : Calendar.Filled c q) (i : ℕ) :
    (c.buckets i).list.length < m.fuel := by
  have hlength : (c.buckets i).list.length ≤ q.length := by
    rw [hf.list]
    exact length_filter_le ..
  rw [fuel, h.qsize, hf.qsize]
  omega

theorem Models.moveEvent (h : Models m c) (hf : Calendar.Filled c q) (hout : e ∉ q) :
    ∃ m', (m.clear e).insert2 e = some m' ∧ Models m' (c.insert2 e) ∧
      ∀ x, x ≠ e → x ∉ q → m'.next x = m.next x ∧ m'.prev x = m.prev x := by
  have hbucket : ∀ i, e ∉ (c.buckets i).list := fun i hx => hout (mem_of_bucket hf hx)
  have hcleared := h.clear hbucket
  obtain ⟨m', hrun, hmodels, hsame⟩ := hcleared.insert2 (Hashed.of_filled hf) (hbucket _)
    (hcleared.lt_fuel hf _)
  refine ⟨m', hrun, hmodels, fun x hx hxq => ?_⟩
  obtain ⟨hnext, hprev⟩ := hsame x hx (fun hmem => hxq (mem_of_bucket hf hmem))
  refine ⟨hnext.trans ?_, hprev.trans ?_⟩
  · exact update_of_ne hx ..
  · exact update_of_ne hx ..

/-- **One old bucket is moved**, from its tail on: the loop follows the old links, which stay until
an event is moved. -/
theorem moveBucket_models {tail : Event} {rev : List Event} {fuel : ℕ} (h : Models m c)
    (hf : Calendar.Filled c q) (hs : Sorted Event.time q) (hback : Back m.prev tail (e :: rev))
    (hnodup : (e :: rev).Nodup) (htail : tail ∉ rev) (hout : ∀ x ∈ e :: rev, x ∉ q)
    (hfuel : rev.length < fuel) :
    ∃ m', moveBucket tail fuel e m = some m' ∧
      Models m' ((e :: rev).foldl Calendar.insert2 c) ∧
      ∀ x, x ∉ e :: rev → x ∉ q → m'.next x = m.next x ∧ m'.prev x = m.prev x := by
  induction rev generalizing m c q e fuel with
  | nil =>
    cases fuel with
    | zero => omega
    | succ fuel =>
      obtain ⟨m₁, hrun, hmodels, hsame⟩ := h.moveEvent hf (hout e mem_cons_self)
      rw [moveBucket, hrun, Option.bind_some, if_pos (show m.prev e = tail from hback)]
      refine ⟨m₁, rfl, hmodels, fun x hx hxq => hsame x ?_ hxq⟩
      rintro rfl
      exact hx mem_cons_self
  | cons b rev ih =>
    cases fuel with
    | zero => omega
    | succ fuel =>
      obtain ⟨hprev, hback'⟩ := hback
      obtain ⟨he, hnodup'⟩ := nodup_cons.mp hnodup
      obtain ⟨m₁, hrun, hmodels, hsame⟩ := h.moveEvent hf (hout e mem_cons_self)
      have hne : ∀ x ∈ b :: rev, x ≠ e := fun x hx heq => he (heq ▸ hx)
      have hout' : ∀ x ∈ b :: rev, x ∉ q := fun x hx => hout x (mem_cons_of_mem e hx)
      have hbtail : b ≠ tail := by
        rintro rfl
        exact htail mem_cons_self
      rw [moveBucket, hrun, hprev, Option.bind_some, if_neg hbtail]
      obtain ⟨m₂, hrun₂, hmodels₂, hsame₂⟩ := ih hmodels (hf.insert2 hs e)
        (sorted_insertFirst e hs)
        (hback'.congr (fun x hx => (hsame x (hne x hx) (hout' x hx)).2)) hnodup'
        (fun hmem => htail (mem_cons_of_mem b hmem))
        (fun x hx hmem => by
          rcases mem_insertFirst.mp hmem with heq | hmem
          · exact hne x hx heq
          · exact hout' x hx hmem)
        (by simpa using hfuel)
      refine ⟨m₂, hrun₂, hmodels₂, fun x hx hxq => ?_⟩
      have hxe : x ≠ e := by
        rintro rfl
        exact hx mem_cons_self
      have hx' : x ∉ b :: rev := fun hmem => hx (mem_cons_of_mem e hmem)
      obtain ⟨hnext₂, hprev₂⟩ := hsame₂ x hx' (fun hmem => by
        rcases mem_insertFirst.mp hmem with heq | hmem
        · exact hxe heq
        · exact hxq hmem)
      obtain ⟨hnext₁, hprev₁⟩ := hsame x hxe hxq
      exact ⟨hnext₂.trans hnext₁, hprev₂.trans hprev₁⟩

/-- **All old buckets are moved.** The circles of those whose turn has not come stay. -/
theorem moveBuckets_models {old : ℕ → List Event} {heads : ℕ → Option Event} {fuel : ℕ}
    {l : List ℕ} (hheads : ∀ i, heads i = (old i).head?) (h : Models m c)
    (hf : Calendar.Filled c q) (hs : Sorted Event.time q) (hnodup : l.Nodup)
    (hcircles : ∀ i ∈ l, Holds m.next m.prev (old i))
    (hapart : ∀ i j, i ≠ j → ∀ x ∈ old i, x ∉ old j) (hout : ∀ i ∈ l, ∀ x ∈ old i, x ∉ q)
    (hfuel : ∀ i, (old i).length ≤ fuel) :
    ∃ m', moveBuckets heads fuel l m = some m' ∧
      Models m' ((l.flatMap (fun i => (old i).reverse)).foldl Calendar.insert2 c) := by
  induction l generalizing m c q with
  | nil => exact ⟨m, rfl, h⟩
  | cons i l ih =>
    obtain ⟨hi, hnodup'⟩ := nodup_cons.mp hnodup
    rw [moveBuckets, hheads, flatMap_cons, foldl_append]
    have hcircle := hcircles i mem_cons_self
    have hcircles' := fun j hj => hcircles j (mem_cons_of_mem i hj)
    have hout' := fun j hj => hout j (mem_cons_of_mem i hj)
    cases hold : old i with
    | nil => exact ih h hf hs hnodup' hcircles' hout'
    | cons head rest =>
      rw [hold] at hcircle
      obtain ⟨e, rev, hrev⟩ : ∃ e rev, (head :: rest).reverse = e :: rev :=
        exists_cons_of_ne_nil (by simp)
      have hmem : ∀ x, x ∈ e :: rev ↔ x ∈ old i := by
        intro x
        rw [← hrev, mem_reverse, hold]
      have htail : m.prev head = e := by
        rw [hcircle.prev_head, ← head_reverse (by simp)]
        simp only [hrev, head_cons]
      have hback : Back m.prev e (e :: rev) := by
        rw [← htail, htail, ← hrev, ← htail]
        exact Holds.back (show Holds m.next m.prev (head :: rest ++ []) by simpa using hcircle)
      have hnodupRev : (e :: rev).Nodup := by
        rw [← hrev]
        exact nodup_reverse.mpr hcircle.nodup
      have hlength : rev.length < fuel := by
        have h₁ := congrArg List.length hrev
        have h₂ := hfuel i
        rw [hold] at h₂
        rw [length_reverse] at h₁
        simp only [length_cons] at h₁ h₂
        omega
      rw [head?_cons]
      dsimp only
      rw [htail, hrev]
      obtain ⟨m₁, hrun, hmodels, hsame⟩ := moveBucket_models h hf hs hback hnodupRev
        (nodup_cons.mp hnodupRev).1
        (fun x hx => hout i mem_cons_self x ((hmem x).mp hx)) hlength
      rw [hrun, Option.bind_some]
      obtain ⟨hf₁, -⟩ := Calendar.foldl_insert2 (e :: rev) hf hs
      have hmemStack : ∀ x, x ∈ stackAll Event.time q (e :: rev) ↔ x ∈ old i ∨ x ∈ q := by
        intro x
        rw [(agree_stackAll q (e :: rev)).mem_iff, mem_append, mem_reverse, hmem]
      refine ih hmodels hf₁ (sorted_stackAll hs _) hnodup' (fun j hj => ?_) (fun j hj x hx => ?_)
      · have hne : j ≠ i := fun heq => hi (heq ▸ hj)
        refine (hcircles' j hj).congr (fun x hx => hsame x ?_ (hout' j hj x hx))
        intro hxi
        exact hapart j i hne x hx ((hmem x).mp hxi)
      · have hne : j ≠ i := fun heq => hi (heq ▸ hj)
        intro hmemq
        rcases (hmemStack x).mp hmemq with hxi | hxq
        · exact hapart j i hne x hx hxi
        · exact hout' j hj x hx hxq

end LinkedCalendar

end NetSim
