import NetSim.Scheduler.Calendar
import Mathlib.Logic.Function.Basic

/-! # The calendar queue with its pointers

`CalendarScheduler` (`common/scheduler.cc`) once more, with the fields `next_` and `prev_` of the events
and the heads `list_` of the buckets, as the source links them. The loops along a bucket have fuel,
and an operation that fails an assertion, or runs out of fuel, has the result `none`.
-/

namespace NetSim

open Function

/-- The null pointer in the links of an event that is not queued. It is never followed. -/
def null : Event := ⟨0, 0, 0⟩

/-- `class CalendarScheduler`: `cal` are its numbers and the counts of the buckets, whose lists it
leaves empty; `list i` is `buckets_[i].list_`. -/
structure LinkedCalendar where
  cal : Calendar
  list : ℕ → Option Event
  next : Event → Event
  prev : Event → Event

namespace LinkedCalendar

/-! ## Links -/

/-- `buckets_[i].list_ = e`. -/
def setList (m : LinkedCalendar) (i : ℕ) (e : Option Event) : LinkedCalendar :=
  { m with list := update m.list i e }

/-- `e->next_ = e->prev_ = e`. -/
def alone (m : LinkedCalendar) (e : Event) : LinkedCalendar :=
  { m with next := update m.next e e, prev := update m.prev e e }

/-- `e->next_ = e->prev_ = NULL`. -/
def clear (m : LinkedCalendar) (e : Event) : LinkedCalendar :=
  { m with next := update m.next e null, prev := update m.prev e null }

/-- Link `e` before `before`. -/
def linkBefore (m : LinkedCalendar) (before e : Event) : LinkedCalendar :=
  { m with
    next := update (update m.next e before) (m.prev before) e
    prev := update (update m.prev e (m.prev before)) before e }

/-- Link `e` behind `after`. -/
def linkBehind (m : LinkedCalendar) (after e : Event) : LinkedCalendar :=
  { m with
    next := update (update m.next e (m.next after)) after e
    prev := update (update m.prev e after) (m.next after) e }

/-- The neighbours of `e` are linked with each other. -/
def unlink (m : LinkedCalendar) (e : Event) : LinkedCalendar :=
  { m with
    next := update m.next (m.prev e) (m.next e)
    prev := update m.prev (m.next e) (m.prev e) }

/-- One event more in the bucket `i`, with a new time or not. -/
def counted (m : LinkedCalendar) (i : ℕ) (new : Bool) : LinkedCalendar :=
  { m with cal := m.cal.linked i [] new }

/-- One event less in the bucket `i`, with a time that is gone or not. -/
def discounted (m : LinkedCalendar) (i : ℕ) (gone : Bool) : LinkedCalendar :=
  { m with cal := m.cal.unlinked i [] gone }

def setStats (m : LinkedCalendar) (s : WidthStats) : LinkedCalendar :=
  { m with cal := { m.cal with stats := s } }

/-- `insert_search_ += n`. -/
def addSearches (m : LinkedCalendar) (n : ℕ) : LinkedCalendar :=
  m.setStats { m.cal.stats with insertSearch := m.cal.stats.insertSearch + n }

/-- More than the events in a bucket. -/
def fuel (m : LinkedCalendar) : ℕ := m.cal.qsize.toNat + 1

/-! ## Inserting -/

/-- The loop of `insert` from the tail of a bucket: `after`, and the searches made. -/
def walkPrev (m : LinkedCalendar) (newtime : ℚ) : ℕ → Event → ℕ → Option (Event × ℕ)
  | 0, _, _ => none
  | fuel + 1, after, n =>
    if newtime < after.time then m.walkPrev newtime fuel (m.prev after) (n + 1)
    else some (after, n)

/-- The loop of `insert2` from the head of a bucket: `before`. -/
def walkNext (m : LinkedCalendar) (time : ℚ) : ℕ → Event → Option Event
  | 0, _ => none
  | fuel + 1, before =>
    if before.time < time then m.walkNext time fuel (m.next before) else some before

/-- The part of `insert` that links `e` into the bucket `i`. -/
def insertAt (m : LinkedCalendar) (i : ℕ) (e : Event) : Option LinkedCalendar :=
  match m.list i with
  | none => some (((m.alone e).setList i (some e)).counted i true)
  | some head =>
    if e.time < head.time then
      some ((((m.addSearches 1).linkBefore head e).setList i (some e)).counted i true)
    else
      (m.walkPrev e.time m.fuel (m.prev head) 1).map (fun r =>
        ((m.addSearches r.2).linkBehind r.1 e).counted i (decide (r.1.time < e.time)))

def insert2 (m : LinkedCalendar) (e : Event) : Option LinkedCalendar :=
  let i := m.cal.hash e.time
  match m.list i with
  | none => some (((m.alone e).setList i (some e)).counted i true)
  | some head =>
    if (m.prev head).time < e.time then
      -- insert at the tail
      some ((m.linkBefore head e).counted i (decide (head.time ≠ e.time)))
    else
      (m.walkNext e.time m.fuel head).map (fun before =>
        let linked := m.linkBefore before e
        (if before = head then linked.setList i (some e) else linked).counted i
          (decide (before.time ≠ e.time)))

/-! ## Resizing -/

/-- The loop of `resize` over one bucket, from the tail on. -/
def moveBucket (tail : Event) : ℕ → Event → LinkedCalendar → Option LinkedCalendar
  | 0, _, _ => none
  | fuel + 1, e, m =>
    let ep := m.prev e
    ((m.clear e).insert2 e).bind (fun m =>
      if ep = tail then some m else moveBucket tail fuel ep m)

/-- The loop of `resize` over the old buckets. -/
def moveBuckets (old : ℕ → Option Event) (fuel : ℕ) :
    List ℕ → LinkedCalendar → Option LinkedCalendar
  | [], m => some m
  | i :: l, m =>
    match old i with
    | none => moveBuckets old fuel l m
    | some head =>
      (moveBucket (m.prev head) fuel (m.prev head) m).bind (moveBuckets old fuel l)

/-- The end of `resize`, once the width is chosen. -/
def rebuild (m : LinkedCalendar) (newsize : ℕ) (bwidth start : ℚ) : Option LinkedCalendar :=
  (moveBuckets m.list m.fuel (List.range m.cal.nbuckets)
    { m with cal := m.cal.reinit newsize bwidth start, list := fun _ => none }).map
      (fun m => { m with cal := m.cal.clearSearches })

/-- `CalendarScheduler::newwidth`: the width it proposes; it also restarts `time_to_newwidth`. -/
def newwidth (m : LinkedCalendar) (newsize : ℕ) : Option (LinkedCalendar × ℚ) :=
  let m' := { m with cal := m.cal.afterNewwidth }
  if m.cal.adjustNewWidthInterval ≠ 0 ∧ 0 < m.cal.stats.avgGap then
    some (m', m.cal.stats.avgGap * 4)
  else
    let nsamples := (m.cal.buckets m.cal.maxBucket).count
    if nsamples ≤ 4 then some (m', m.cal.width)
    else
      match m.list m.cal.maxBucket with
      | none => none
      | some head =>
        let nw := (m.prev head).time - head.time
        if 0 < nw then
          some (m', nw / (if (newsize : ℤ) < nsamples then (newsize : ℚ) else nsamples) * 4)
        else none

def resize (sqrt : ℚ → ℚ) (m : LinkedCalendar) (newsize : ℕ) (start : ℚ) :
    Option LinkedCalendar :=
  if newsize = m.cal.nbuckets then
    let bwidth := sqrt m.cal.stats.searchRatio * m.cal.width
    if bwidth < m.cal.minBinWidth then
      if 0 < m.cal.stats.timeToNewwidth then
        -- failed to adjust bwidth
        some (m.setStats { m.cal.stats with
          timeToNewwidth := m.cal.stats.timeToNewwidth - 1
          headSearch := 0, insertSearch := 0, roundNum := 0 })
      else (m.newwidth newsize).bind (fun r => r.1.rebuild newsize r.2 start)
    else m.rebuild newsize bwidth start
  else
    (m.newwidth newsize).bind (fun r =>
      r.1.rebuild (if newsize < 4 then 4 else newsize) r.2 start)

def insert (sqrt : ℚ → ℚ) (m : LinkedCalendar) (e : Event) : Option LinkedCalendar :=
  let m := if e.time < m.cal.calClock then
      { m with cal := { m.cal with calClock := e.time, lastbucket := m.cal.hash e.time } }
    else m
  (m.insertAt (m.cal.hash e.time) e).bind (fun m =>
    if m.cal.topThreshold < m.cal.statQsize then
      m.resize sqrt (m.cal.nbuckets * 2) m.cal.calClock
    else some m)

/-! ## Removing -/

/-- The calendar as the search of `head` sees it, which looks at the heads of the buckets only. -/
def headed (m : LinkedCalendar) : Calendar :=
  { m.cal with buckets := fun i => ⟨(m.list i).toList, (m.cal.buckets i).count⟩ }

def head (m : LinkedCalendar) : Option (LinkedCalendar × Option Event) :=
  if m.cal.qsize = 0 then some (m, none)
  else
    m.headed.search.map (fun r => ({ m with cal := m.cal.found r.1 r.2.1 r.2.2 }, some r.1))

/-- The adjustment of the width in `deque`. -/
def adjustWidth (sqrt : ℚ → ℚ) (m : LinkedCalendar) (e : Event) : Option LinkedCalendar :=
  if m.cal.adjustNewWidthInterval = 0 then some m
  else if m.cal.stats.lastTime < 0 then
    some (m.setStats { m.cal.stats with lastTime := e.time })
  else
    let gap := m.cal.stats.gapNum + 1
    if gap < m.cal.qsize then
      some (m.setStats { m.cal.stats with gapNum := gap })
    else
      let m := m.setStats { m.cal.stats with
        avgGap := (e.time - m.cal.stats.lastTime) / gap
        gapNum := 0
        lastTime := e.time
        roundNum := m.cal.stats.roundNum + 1 }
      if 20 < m.cal.stats.roundNum ∧ (m.cal.stats.insertSearch * 2 < m.cal.stats.headSearch ∨
          m.cal.stats.headSearch * 2 < m.cal.stats.insertSearch) then
        (m.resize sqrt m.cal.nbuckets m.cal.calClock).map (fun m =>
          m.setStats { m.cal.stats with roundNum := 0 })
      else if 100 < m.cal.stats.roundNum then some { m with cal := m.cal.clearSearches }
      else some m

/-- The end of `deque`: unlink `e` from the bucket `lastbucket_`. -/
def unlinkHead (sqrt : ℚ → ℚ) (m : LinkedCalendar) (e : Event) : Option LinkedCalendar :=
  let l := m.cal.lastbucket
  let gone := decide (m.next e = e ∨ (m.next e).time ≠ e.time)
  let m' := m.discounted l gone
  let m' :=
    if m.next e = e then m'.setList l none
    else (m'.unlink e).setList l (some (m.next e))
  let m' := m'.clear e
  if m'.cal.statQsize < m'.cal.botThreshold then
    m'.resize sqrt (m'.cal.nbuckets / 2) m'.cal.calClock
  else some m'

def deque (sqrt : ℚ → ℚ) (m : LinkedCalendar) : Option (LinkedCalendar × Option Event) :=
  match m.head with
  | none => none
  | some (m, none) => some (m, none)
  | some (m, some e) =>
    (m.adjustWidth sqrt e).bind (fun m => (m.unlinkHead sqrt e).map (fun m => (m, some e)))

/-- The end of `cancel`: the last assertion, and `e` is linked to nothing. -/
def cancelled (m : LinkedCalendar) (i : ℕ) (e : Event) : Option LinkedCalendar :=
  if (m.cal.buckets i).count = 0 ∧ m.list i ≠ none then none else some (m.clear e)

/-- `CalendarScheduler::cancel`. `none` is a failed assertion. -/
def cancel (m : LinkedCalendar) (e : Event) : Option LinkedCalendar :=
  if e.uid ≤ 0 then some m
  else
    let i := m.cal.hash e.time
    if m.next (m.prev e) ≠ e ∨ m.prev (m.next e) ≠ e then none
    else
      let gone := decide (m.next e = e ∨
        ((m.next e).time ≠ e.time ∧ (m.prev e).time ≠ e.time))
      let m' := m.discounted i gone
      if gone = true ∧ ¬ (0 ≤ m'.cal.statQsize ∧ 0 ≤ (m'.cal.buckets i).count) then none
      else if m.next e = e then
        if m.list i = some e then (m'.setList i none).cancelled i e else none
      else
        (if m.list i = some e then (m'.unlink e).setList i (some (m.next e))
          else m'.unlink e).cancelled i e

def init (minBinWidth : ℚ) (adjustNewWidthInterval : ℕ) (uninit : WidthStats) : LinkedCalendar where
  cal := Calendar.init minBinWidth adjustNewWidthInterval uninit
  list := fun _ => none
  next := fun _ => null
  prev := fun _ => null

end LinkedCalendar

/-- `CalendarScheduler` as a scheduler, with its pointers. -/
def linkedScheduler (sqrt : ℚ → ℚ) : Scheduler LinkedCalendar where
  insert m e := m.insert sqrt e
  cancel := LinkedCalendar.cancel
  deque m := m.deque sqrt
  head := LinkedCalendar.head

end NetSim
