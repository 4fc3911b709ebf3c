import NetSim.Scheduler.ListScheduler
import Mathlib.Data.Rat.Floor
import Mathlib.Algebra.Order.Floor.Div

/-! # The calendar queue: the model

`CalendarScheduler` (`common/scheduler.cc`) hashes the queued events into `nbuckets_` buckets by
their time; a bucket covers a stretch of `width_` out of every year of `width_ * nbuckets_`. Each
bucket is a circular doubly linked list, here the list of its events from `list_` on.

The width of a bucket is chosen by `resize`: the old width scaled by a square root, or what
`newwidth` proposes. Both are inputs of the model, a `WidthPolicy`. `Calendar.newwidth` is the
code's own proposal.
-/

namespace NetSim

def truncate (x : ℚ) : ℤ := if x < 0 then ⌈x⌉ else ⌊x⌋

/-- C's `fmod`, on exact arguments. -/
def fmod (x y : ℚ) : ℚ := x - truncate (x / y) * y

/-- `CALENDAR_HASH(t)`, an index into the array of buckets. -/
def calendarHash (width : ℚ) (nbuckets : ℕ) (t : ℚ) : ℕ :=
  (truncate (fmod (t / width) nbuckets)).toNat

structure Bucket where
  list : List Event
  count : ℤ
deriving DecidableEq

/-- The statistics from which `resize` and `newwidth` choose a bucket width. -/
structure WidthStats where
  timeToNewwidth : ℕ
  headSearch : ℕ
  insertSearch : ℕ
  roundNum : ℤ
  gapNum : ℤ
  lastTime : ℚ
  avgGap : ℚ

/-- The ratio of the searches by which `resize` adjusts the width. -/
def WidthStats.searchRatio (s : WidthStats) : ℚ :=
  let ratio : ℚ := if s.headSearch ≠ 0 then s.headSearch else 1
  if s.insertSearch ≠ 0 then ratio / s.insertSearch else ratio

structure Calendar where
  minBinWidth : ℚ
  adjustNewWidthInterval : ℕ
  stats : WidthStats
  width : ℚ
  diff0 : ℚ
  diff1 : ℚ
  diff2 : ℚ
  statQsize : ℤ
  nbuckets : ℕ
  lastbucket : ℕ
  topThreshold : ℤ
  botThreshold : ℤ
  buckets : ℕ → Bucket
  qsize : ℤ
  calClock : ℚ

/-- The two computations that may propose a bucket width: the square root that `resize` scales the
width with, and `newwidth`. -/
structure WidthPolicy where
  sqrt : ℚ → ℚ
  newwidth : Calendar → ℕ → ℚ

namespace Calendar

/-- `CALENDAR_HASH(t)` for the current width and number of buckets. -/
def hash (c : Calendar) (t : ℚ) : ℕ := calendarHash c.width c.nbuckets t

def setBucket (c : Calendar) (i : ℕ) (b : Bucket) : Calendar :=
  { c with buckets := Function.update c.buckets i b }

/-- The bucket `i` becomes `l`, with one event more: the counts of distinct times grow when its
time is new. -/
def linked (c : Calendar) (i : ℕ) (l : List Event) (new : Bool) : Calendar :=
  let d : ℤ := if new then 1 else 0
  { c.setBucket i ⟨l, (c.buckets i).count + d⟩ with
    statQsize := c.statQsize + d
    qsize := c.qsize + 1 }

/-- The bucket `i` becomes `l`, with one event less: the counts of distinct times drop when its
time is gone. -/
def unlinked (c : Calendar) (i : ℕ) (l : List Event) (gone : Bool) : Calendar :=
  let d : ℤ := if gone then 1 else 0
  { c.setBucket i ⟨l, (c.buckets i).count - d⟩ with
    statQsize := c.statQsize - d
    qsize := c.qsize - 1 }

/-! ## Inserting -/

/-- The loop of `insert` from the tail of a bucket: `rev` lists the events from `after` towards
the head, `passed` those behind `after`. -/
def walkBack (newtime : ℚ) : List Event → List Event → ℕ → List Event × List Event × ℕ
  | [], passed, n => ([], passed, n)
  | after :: rev, passed, n =>
    if newtime < after.time then walkBack newtime rev (after :: passed) (n + 1)
    else (after :: rev, passed, n)

/-- The bucket after `insert` has linked `e` into it, whether the time of `e` is new in it, and the
searches made. -/
def linkLast (l : List Event) (e : Event) : List Event × Bool × ℕ :=
  match l with
  | [] => ([e], true, 0)
  | head :: rest =>
    if e.time < head.time then (e :: head :: rest, true, 1)
    else
      let r := walkBack e.time (head :: rest).reverse [] 1
      match r.1 with
      | [] => (e :: r.2.1, true, r.2.2)
      | after :: rev =>
        ((after :: rev).reverse ++ e :: r.2.1, decide (after.time < e.time), r.2.2)

/-- The bucket after `insert2` has linked `e` before the events of its time, and whether the time
of `e` is new in it. -/
def linkFirst (l : List Event) (e : Event) : List Event × Bool :=
  match l with
  | [] => ([e], true)
  | head :: rest =>
    if ((head :: rest).getLast (by simp)).time < e.time then
      -- insert at the tail, in front of `head` on the circle
      ((head :: rest) ++ [e], decide (head.time ≠ e.time))
    else
      let front := (head :: rest).takeWhile (fun b => b.time < e.time)
      let back := (head :: rest).dropWhile (fun b => b.time < e.time)
      (front ++ e :: back,
        match back with
        | [] => decide (head.time ≠ e.time)
        | before :: _ => decide (before.time ≠ e.time))

def insert2 (c : Calendar) (e : Event) : Calendar :=
  let r := linkFirst (c.buckets (c.hash e.time)).list e
  c.linked (c.hash e.time) r.1 r.2

def reinit (c : Calendar) (nbuck : ℕ) (bwidth start : ℚ) : Calendar :=
  { c with
    buckets := fun _ => ⟨[], 0⟩
    width := bwidth
    nbuckets := nbuck
    qsize := 0
    statQsize := 0
    lastbucket := calendarHash bwidth nbuck start
    diff0 := bwidth * nbuck / 2
    diff1 := bwidth * nbuck / 2 + bwidth
    diff2 := bwidth * nbuck
    botThreshold := (nbuck / 2 : ℕ) - 2
    topThreshold := (nbuck * 2 : ℕ) }

/-- The loop of `resize` that moves the events: bucket by bucket, each from its tail. -/
def moveEvents (old : ℕ → Bucket) (oldn : ℕ) (c : Calendar) : Calendar :=
  ((List.range oldn).flatMap (fun i => (old i).list.reverse)).foldl insert2 c

def clearSearches (c : Calendar) : Calendar :=
  { c with stats := { c.stats with headSearch := 0, insertSearch := 0, roundNum := 0 } }

/-- The end of `resize`, once the width is chosen. -/
def rebuild (c : Calendar) (newsize : ℕ) (bwidth start : ℚ) : Calendar :=
  (moveEvents c.buckets c.nbuckets (c.reinit newsize bwidth start)).clearSearches

/-- A call of `newwidth` also restarts `time_to_newwidth`. -/
def afterNewwidth (c : Calendar) : Calendar :=
  if c.adjustNewWidthInterval ≠ 0 then
    { c with stats := { c.stats with timeToNewwidth := c.adjustNewWidthInterval } }
  else c

def resize (P : WidthPolicy) (c : Calendar) (newsize : ℕ) (start : ℚ) : Calendar :=
  if newsize = c.nbuckets then
    let bwidth := P.sqrt c.stats.searchRatio * c.width
    if bwidth < c.minBinWidth then
      if 0 < c.stats.timeToNewwidth then
        -- failed to adjust bwidth
        { c with stats := { c.stats with
            timeToNewwidth := c.stats.timeToNewwidth - 1
            headSearch := 0, insertSearch := 0, roundNum := 0 } }
      else c.afterNewwidth.rebuild newsize (P.newwidth c newsize) start
    else c.rebuild newsize bwidth start
  else
    c.afterNewwidth.rebuild (if newsize < 4 then 4 else newsize) (P.newwidth c newsize) start

/-- The index of the fullest bucket, as `newwidth` finds it. -/
def maxBucket (c : Calendar) : ℕ :=
  (List.range c.nbuckets).foldl
    (fun m i => if (c.buckets m).count < (c.buckets i).count then i else m) 0

/-- `CalendarScheduler::newwidth`: the width it proposes. -/
def newwidth (c : Calendar) (newsize : ℕ) : ℚ :=
  if c.adjustNewWidthInterval ≠ 0 ∧ 0 < c.stats.avgGap then c.stats.avgGap * 4
  else
    let b := c.buckets c.maxBucket
    if b.count ≤ 4 then c.width
    else
      match b.list with
      | [] => c.width
      | head :: rest =>
        let nw := ((head :: rest).getLast (by simp)).time - head.time
        nw / (if (newsize : ℤ) < b.count then (newsize : ℚ) else b.count) * 4

def insert (P : WidthPolicy) (c : Calendar) (e : Event) : Calendar :=
  let c := if e.time < c.calClock then
      { c with calClock := e.time, lastbucket := c.hash e.time }
    else c
  let r := linkLast (c.buckets (c.hash e.time)).list e
  let c : Calendar := { c.linked (c.hash e.time) r.1 r.2.1 with
    stats := { c.stats with insertSearch := c.stats.insertSearch + r.2.2 } }
  if c.topThreshold < c.statQsize then c.resize P (c.nbuckets * 2) c.calClock else c

/-! ## Searching for the next event -/

/-- What the search of `head` knows: the bucket `i` it looks at next, and the earliest event so far
with its bucket `l`. -/
structure Scan where
  i : ℕ
  minE : Option (Event × ℕ)
  searches : ℕ

/-- The earliest event so far, with `e` of bucket `i` looked at as well. -/
def earlier (e : Event) (i : ℕ) : Option (Event × ℕ) → Option (Event × ℕ)
  | none => some (e, i)
  | some (m, l) => if e.time < m.time then some (e, i) else some (m, l)

/-- `CAL_DEQUEUE(x)` with the window `diff`: the event within the window and its bucket, or the
search one bucket further on. -/
def calDequeue (c : Calendar) (diff : ℚ) (s : Scan) : (Event × ℕ × ℕ) ⊕ Scan :=
  let next := if s.i + 1 = c.nbuckets then 0 else s.i + 1
  match (c.buckets s.i).list with
  | [] => .inr ⟨next, s.minE, s.searches + 1⟩
  | e :: _ =>
    if e.time - c.calClock < diff then .inl (e, s.i, s.searches + 1)
    else .inr ⟨next, earlier e s.i s.minE, s.searches + 1⟩

/-- The loop of `head` over the buckets up to the one before `lastbucket_`. `none`: out of fuel. -/
def scanYear (c : Calendar) (stop : ℕ) : ℕ → Scan → Option ((Event × ℕ × ℕ) ⊕ Scan)
  | 0, s => if s.i = stop then some (.inr s) else none
  | fuel + 1, s =>
    if s.i = stop then some (.inr s)
    else
      match c.calDequeue c.diff2 s with
      | .inl r => some (.inl r)
      | .inr s' => scanYear c stop fuel s'

/-- Make `e` in bucket `l` the current event. -/
def found (c : Calendar) (e : Event) (l searches : ℕ) : Calendar :=
  { c with
    lastbucket := l
    calClock := e.time
    stats := { c.stats with headSearch := c.stats.headSearch + searches } }

/-- The search of `head`: the next event, its bucket and the searches made. `none` is a null
pointer, where the source asserts that an event was found. -/
def search (c : Calendar) : Option (Event × ℕ × ℕ) :=
  let lastbucketDec := if c.lastbucket ≠ 0 then c.lastbucket - 1 else c.nbuckets - 1
  match c.calDequeue c.diff0 ⟨c.lastbucket, none, 0⟩ with
  | .inl r => some r
  | .inr s =>
    match c.calDequeue c.diff1 s with
    | .inl r => some r
    | .inr s =>
      match c.scanYear lastbucketDec c.nbuckets s with
      | none => none
      | some (.inl r) => some r
      | some (.inr s) =>
        -- one last bucket is left unchecked: take the minimum
        match s.minE, (c.buckets s.i).list with
        | some (m, l), [] => some (m, l, s.searches)
        | some (m, l), e :: _ =>
          if m.time < e.time then some (m, l, s.searches) else some (e, s.i, s.searches)
        | none, e :: _ => some (e, s.i, s.searches)
        | none, [] => none

def head (c : Calendar) : Option (Calendar × Option Event) :=
  if c.qsize = 0 then some (c, none)
  else c.search.map (fun r => (c.found r.1 r.2.1 r.2.2, some r.1))

/-! ## Removing -/

/-- The adjustment of the width in `deque`. -/
def adjustWidth (P : WidthPolicy) (c : Calendar) (e : Event) : Calendar :=
  if c.adjustNewWidthInterval = 0 then c
  else if c.stats.lastTime < 0 then { c with stats := { c.stats with lastTime := e.time } }
  else
    let gap := c.stats.gapNum + 1
    if gap < c.qsize then { c with stats := { c.stats with gapNum := gap } }
    else
      let c := { c with stats := { c.stats with
        avgGap := (e.time - c.stats.lastTime) / gap
        gapNum := 0
        lastTime := e.time
        roundNum := c.stats.roundNum + 1 } }
      if 20 < c.stats.roundNum ∧ (c.stats.insertSearch * 2 < c.stats.headSearch ∨
          c.stats.headSearch * 2 < c.stats.insertSearch) then
        let c := c.resize P c.nbuckets c.calClock
        { c with stats := { c.stats with roundNum := 0 } }
      else if 100 < c.stats.roundNum then c.clearSearches
      else c

/-- The event behind `e` in its bucket does not have the time of `e`. -/
def noFollower (e : Event) : List Event → Bool
  | [] => true
  | next :: _ => decide (next.time ≠ e.time)

/-- The end of `deque`: unlink `e`, the first event of the bucket `lastbucket_`. `none`: another
event is the first one there, and the bucket would be left without it. -/
def unlinkHead (P : WidthPolicy) (c : Calendar) (e : Event) : Option Calendar :=
  match (c.buckets c.lastbucket).list with
  | [] => none
  | x :: rest =>
    if x.id = e.id then
      let c := c.unlinked c.lastbucket rest (noFollower e rest)
      some (if c.statQsize < c.botThreshold then c.resize P (c.nbuckets / 2) c.calClock else c)
    else none

def deque (P : WidthPolicy) (c : Calendar) : Option (Calendar × Option Event) :=
  match c.head with
  | none => none
  | some (c, none) => some (c, none)
  | some (c, some e) => ((c.adjustWidth P e).unlinkHead P e).map (fun c => (c, some e))

/-- The events of a bucket before and behind the node `e`. -/
def splitAt (e : Event) : List Event → Option (List Event × List Event)
  | [] => none
  | x :: l =>
    if x.id = e.id then some ([], l) else (splitAt e l).map (fun r => (x :: r.1, r.2))

/-- Neither neighbour of `e` on the circle has its time. They are the two ends of the rest of the
bucket, read from behind `e`. -/
def noNeighbour (e : Event) (rest : List Event) : Bool :=
  match rest.head?, rest.getLast? with
  | some next, some prev => decide (next.time ≠ e.time) && decide (prev.time ≠ e.time)
  | _, _ => true

/-- `CalendarScheduler::cancel`. `none` is a failed assertion. -/
def cancel (c : Calendar) (e : Event) : Option Calendar :=
  if e.uid ≤ 0 then some c
  else
    let i := c.hash e.time
    match splitAt e (c.buckets i).list with
    | none => none
    | some (before, behind) =>
      let gone := noNeighbour e (behind ++ before)
      let c' := c.unlinked i (before ++ behind) gone
      if gone = true ∧ ¬ (0 ≤ c'.statQsize ∧ 0 ≤ (c'.buckets i).count) then none
      else if (c'.buckets i).count = 0 ∧ (c'.buckets i).list ≠ [] then none
      else some c'

/-- `CalendarScheduler::CalendarScheduler`. The statistics are set only when the adjustment is
enabled; otherwise they start with whatever `uninit` holds. -/
def init (minBinWidth : ℚ) (adjustNewWidthInterval : ℕ) (uninit : WidthStats) : Calendar :=
  let stats : WidthStats :=
    if adjustNewWidthInterval ≠ 0 then
      { timeToNewwidth := adjustNewWidthInterval, headSearch := 0, insertSearch := 0,
        roundNum := 0, gapNum := 0, lastTime := -2, avgGap := -2 }
    else uninit
  reinit
    { minBinWidth, adjustNewWidthInterval, stats, width := 0, diff0 := 0, diff1 := 0, diff2 := 0,
      statQsize := 0, nbuckets := 0, lastbucket := 0, topThreshold := 0, botThreshold := 0,
      buckets := fun _ => ⟨[], 0⟩, qsize := 0, calClock := 0 }
    4 1 0

end Calendar

def calendarScheduler (P : WidthPolicy) : Scheduler Calendar where
  insert c e := some (c.insert P e)
  cancel := Calendar.cancel
  deque c := c.deque P
  head := Calendar.head

end NetSim
