import Mathlib.Logic.Function.Basic
import NetSim.Lib.Runs
import NetSim.Scheduler.ListScheduler

/-! # Timers

`TimerHandler` of `common/timer-handler.cc` over the list scheduler: `sched`, `resched`, `cancel`
and `force_cancel` put the one `event_` of a timer into the queue and take it out, and
`Scheduler::dispatch` hands it back to `handle`. Whether an event is queued is encoded in the sign
of its `uid_`.

`expire` may call the operations again, so `handle` is two steps: `dispatch` up to the call of
`expire`, and `expired` from its return on; `handling` is the stack of the calls of `expire` that
have not returned. The other handlers of the simulator schedule events of their own (`other`).
-/

namespace NetSim

open Function List

inductive TimerStatus where
  | idle
  | pending
  | handling
  deriving DecidableEq

/-- The calls of `abort`. -/
inductive Abort where
  | eventUidNotValid
  | uidSpaceExhausted
  | goingBackwards
  | notInQueue
  | notScheduled
  | couldntSchedule
  | handleNotPending
  deriving DecidableEq

/-- The scheduler, and the objects it works on: an `Event` and the `status_` for each address. -/
structure Simulator where
  clock : ℚ
  uid : ℤ
  queue : List Event
  event : ℕ → Event
  status : ℕ → TimerStatus
  handling : List ℕ

namespace Simulator

/-- `uid_++` of a `scheduler_uid_t`, which is an `int64_t`. -/
def nextUid (uid : ℤ) : ℤ := if uid = 2 ^ 63 - 1 then -2 ^ 63 else uid + 1

def setStatus (s : Simulator) (i : ℕ) (status : TimerStatus) : Simulator :=
  { s with status := update s.status i status }

/-- `Scheduler::schedule` of the event at the address `i`. -/
def schedule (s : Simulator) (i : ℕ) (delay : ℚ) : Except Abort Simulator :=
  if 0 < (s.event i).uid then .error .eventUidNotValid
  else if s.uid < 0 then .error .uidSpaceExhausted
  else
    let e : Event := { id := i, time := s.clock + delay, uid := s.uid }
    .ok { s with
      uid := nextUid s.uid
      event := update s.event i e
      queue := ListScheduler.insert s.queue e }

/-- `_cancel`: `ListScheduler::cancel` of `event_`. -/
def cancelEvent (s : Simulator) (i : ℕ) : Except Abort Simulator :=
  match ListScheduler.cancel s.queue (s.event i) with
  | none => .error .notInQueue
  | some queue =>
    if (s.event i).uid ≤ 0 then .ok s
    else
      .ok { s with
        queue
        event := update s.event i { s.event i with uid := -(s.event i).uid } }

def sched (s : Simulator) (i : ℕ) (delay : ℚ) : Except Abort Simulator :=
  if s.status i ≠ .idle then .error .couldntSchedule
  else (s.schedule i delay).map (fun s => s.setStatus i .pending)

def resched (s : Simulator) (i : ℕ) (delay : ℚ) : Except Abort Simulator :=
  (if s.status i = .pending then s.cancelEvent i else .ok s).bind (fun s =>
    (s.schedule i delay).map (fun s => s.setStatus i .pending))

def cancel (s : Simulator) (i : ℕ) : Except Abort Simulator :=
  if s.status i ≠ .pending then .error .notScheduled
  else (s.cancelEvent i).map (fun s => s.setStatus i .idle)

def forceCancel (s : Simulator) (i : ℕ) : Except Abort Simulator :=
  if s.status i = .pending then (s.cancelEvent i).map (fun s => s.setStatus i .idle)
  else .ok s

/-- `Scheduler::dispatch` of an event that has left the queue, up to the body of the handler: for
the timers, `TimerHandler::handle` up to the call of `expire`. -/
def handle (timers : ℕ → Bool) (s : Simulator) (e : Event) : Except Abort Simulator :=
  if e.time < s.clock then .error .goingBackwards
  else
    let s := { s with
      clock := e.time
      event := update s.event e.id { s.event e.id with uid := -(s.event e.id).uid } }
    if timers e.id then
      if s.status e.id ≠ .pending then .error .handleNotPending
      else .ok { s.setStatus e.id .handling with handling := e.id :: s.handling }
    else .ok s

/-- An iteration of `Scheduler::run`; when the queue is empty, there is nothing to do. -/
def dispatch (timers : ℕ → Bool) (s : Simulator) : Except Abort Simulator :=
  match ListScheduler.deque s.queue with
  | (_, none) => .ok s
  | (queue, some e) => { s with queue }.handle timers e

/-- The end of `handle`, when `expire` has returned. -/
def expired (s : Simulator) : Simulator :=
  match s.handling with
  | [] => s
  | i :: handling =>
    let s := { s with handling }
    if s.status i = .handling then s.setStatus i .idle else s

def start : Simulator :=
  { clock := 0, uid := 1, queue := [], event := fun i => { id := i, time := 0, uid := 0 },
    status := fun _ => .idle, handling := [] }

inductive Call where
  | sched (i : ℕ) (delay : ℚ)
  | resched (i : ℕ) (delay : ℚ)
  | cancel (i : ℕ)
  | forceCancel (i : ℕ)
  | other (i : ℕ) (delay : ℚ)
  | dispatch
  | expired

def call (timers : ℕ → Bool) (s : Simulator) : Call → Except Abort Simulator
  | .sched i delay => s.sched i delay
  | .resched i delay => s.resched i delay
  | .cancel i => s.cancel i
  | .forceCancel i => s.forceCancel i
  | .other i delay => s.schedule i delay
  | .dispatch => s.dispatch timers
  | .expired => .ok s.expired

/-- A step of a run; a simulator that has aborted stays so. -/
def step (timers : ℕ → Bool) (r : Except Abort Simulator) (c : Call) :
    Option (Except Abort Simulator × Unit) :=
  some (r.bind (fun s => s.call timers c), ())

/-- `sched` is only called on an idle timer and `cancel` on a pending one; the other handlers do not
schedule an event that is queued, and not that of a timer. -/
def Allowed (timers : ℕ → Bool) (s : Simulator) : Call → Prop
  | .sched i _ => timers i = true ∧ s.status i = .idle
  | .resched i _ => timers i = true
  | .cancel i => timers i = true ∧ s.status i = .pending
  | .forceCancel i => timers i = true
  | .other i _ => timers i = false ∧ (s.event i).uid ≤ 0
  | .dispatch => True
  | .expired => True

def AllowedIn (timers : ℕ → Bool) (r : Except Abort Simulator) (c : Call) : Prop :=
  ∀ s, r = .ok s → Allowed timers s c

instance (timers : ℕ → Bool) (s : Simulator) : ∀ c : Call, Decidable (Allowed timers s c)
  | .sched i _ => inferInstanceAs (Decidable (timers i = true ∧ s.status i = .idle))
  | .resched i _ => inferInstanceAs (Decidable (timers i = true))
  | .cancel i => inferInstanceAs (Decidable (timers i = true ∧ s.status i = .pending))
  | .forceCancel i => inferInstanceAs (Decidable (timers i = true))
  | .other i _ => inferInstanceAs (Decidable (timers i = false ∧ (s.event i).uid ≤ 0))
  | .dispatch => isTrue trivial
  | .expired => isTrue trivial

instance (timers : ℕ → Bool) : ∀ (r : Except Abort Simulator) (c : Call),
    Decidable (AllowedIn timers r c)
  | .error _, _ => isTrue (fun _ h => by cases h)
  | .ok s, c => decidable_of_iff (Allowed timers s c)
      ⟨fun h _ heq => by cases heq; exact h, fun h => h s rfl⟩

/-! ## Events and the queue -/

variable {s s' : Simulator} {timers : ℕ → Bool} {i j : ℕ} {delay : ℚ}

/-- The event at the address `i` is in the queue. -/
def Queued (s : Simulator) (i : ℕ) : Prop := i ∈ s.queue.map Event.id

instance (s : Simulator) (i : ℕ) : Decidable (s.Queued i) :=
  inferInstanceAs (Decidable (i ∈ s.queue.map Event.id))

/-- The events and the queue agree: an event is queued at most once, with its own fields, and its
`uid_` is positive exactly while it is queued. -/
structure Events (s : Simulator) : Prop where
  uid : s.uid ≠ 0
  id : ∀ i, (s.event i).id = i
  distinct : Distinct s.queue
  same : ∀ e ∈ s.queue, s.event e.id = e
  live : ∀ i, 0 < (s.event i).uid ↔ s.Queued i

theorem Events.mem (h : Events s) (hq : s.Queued i) : s.event i ∈ s.queue := by
  obtain ⟨e, he, rfl⟩ := mem_map.mp hq
  rw [h.same e he]
  exact he

theorem Events.schedule (h : Events s) (hq : ¬ s.Queued i) :
    s.schedule i delay = .error .uidSpaceExhausted ∨
      ∃ s', s.schedule i delay = .ok s' ∧ Events s' ∧ s'.status = s.status ∧
        s'.handling = s.handling ∧ ∀ j, s'.Queued j ↔ j = i ∨ s.Queued j := by
  have huid : ¬ 0 < (s.event i).uid := fun hpos => hq ((h.live i).mp hpos)
  rw [Simulator.schedule, if_neg huid]
  split
  case isTrue => exact Or.inl rfl
  case isFalse hneg =>
    have hpos : 0 < s.uid := lt_of_le_of_ne (not_lt.mp hneg) h.uid.symm
    generalize he : ({ id := i, time := s.clock + delay, uid := s.uid } : Event) = e
    have hid : e.id = i := by rw [← he]
    have hmem : ∀ x, x ∈ ListScheduler.insert s.queue e ↔ x = e ∨ x ∈ s.queue := by
      intro x
      rw [ListScheduler.insert_eq_insertLast]
      exact StableOrder.mem_insertLast
    have hqueued : ∀ j, j ∈ (ListScheduler.insert s.queue e).map Event.id ↔ j = i ∨ s.Queued j := by
      intro j
      simp only [Queued, mem_map, hmem]
      constructor
      · rintro ⟨x, rfl | hx, rfl⟩
        · exact Or.inl hid
        · exact Or.inr ⟨x, hx, rfl⟩
      · rintro (rfl | ⟨x, hx, rfl⟩)
        · exact ⟨e, Or.inl rfl, hid⟩
        · exact ⟨x, Or.inr hx, rfl⟩
    have hnot : ∀ x ∈ s.queue, x.id ≠ i := fun x hx heq => hq (mem_map.mpr ⟨x, hx, heq⟩)
    refine Or.inr ⟨_, rfl, ⟨?_, fun j => ?_, ?_, fun x hx => ?_, fun j => ?_⟩, rfl, rfl, hqueued⟩
    · show nextUid s.uid ≠ 0
      unfold nextUid
      split <;> omega
    · show (update s.event i e j).id = j
      by_cases hj : j = i
      · rw [hj, update_self, hid]
      · rw [update_of_ne hj, h.id]
    · exact ListScheduler.distinct_insert h.distinct (fun x hx => by rw [hid]; exact hnot x hx)
    · show update s.event i e x.id = x
      rcases (hmem x).mp hx with rfl | hx
      · rw [hid, update_self]
      · rw [update_of_ne (hnot x hx), h.same x hx]
    · show 0 < (update s.event i e j).uid ↔ j ∈ (ListScheduler.insert s.queue e).map Event.id
      rw [hqueued]
      by_cases hj : j = i
      · rw [hj, update_self, ← he]
        exact iff_of_true hpos (Or.inl rfl)
      · rw [update_of_ne hj, h.live, or_iff_right hj]

theorem Events.leave {queue : List Event} (h : Events s) (hq : s.Queued i)
    (hqueue : queue = remove (s.event i) s.queue)
    (hevent : s'.event = update s.event i { s.event i with uid := -(s.event i).uid })
    (hs' : s'.queue = queue) (huid : s'.uid = s.uid) :
    Events s' ∧ ∀ j, s'.Queued j ↔ j ≠ i ∧ s.Queued j := by
  have hqueued : ∀ j, s'.Queued j ↔ j ≠ i ∧ s.Queued j := by
    intro j
    simp only [Queued, hs', hqueue, mem_map, mem_remove, h.id]
    constructor
    · rintro ⟨x, ⟨hx, hne⟩, rfl⟩
      exact ⟨hne, x, hx, rfl⟩
    · rintro ⟨hne, x, hx, rfl⟩
      exact ⟨x, ⟨hx, hne⟩, rfl⟩
  have hpos : 0 < (s.event i).uid := (h.live i).mpr hq
  refine ⟨⟨by rw [huid]; exact h.uid, fun j => ?_, ?_, fun x hx => ?_, fun j => ?_⟩, hqueued⟩
  · rw [hevent]
    by_cases hj : j = i
    · rw [hj, update_self]
      exact h.id i
    · rw [update_of_ne hj, h.id]
  · rw [hs', hqueue]
    exact h.distinct.remove _
  · rw [hs', hqueue, mem_remove, h.id] at hx
    rw [hevent, update_of_ne hx.2, h.same x hx.1]
  · rw [hqueued, hevent]
    by_cases hj : j = i
    · rw [hj, update_self]
      exact iff_of_false (by show ¬ 0 < -(s.event i).uid; omega) (fun hn => hn.1 rfl)
    · rw [update_of_ne hj, h.live, and_iff_right hj]

theorem Events.cancelEvent (h : Events s) (hq : s.Queued i) :
    ∃ s', s.cancelEvent i = .ok s' ∧ Events s' ∧ s'.status = s.status ∧ s'.handling = s.handling ∧
      ∀ j, s'.Queued j ↔ j ≠ i ∧ s.Queued j := by
  have hpos : 0 < (s.event i).uid := (h.live i).mpr hq
  have hcancel := ListScheduler.cancel_eq h.distinct (fun _ => h.mem hq)
  rw [if_neg (not_le.mpr hpos)] at hcancel
  rw [Simulator.cancelEvent, hcancel]
  dsimp only
  rw [if_neg (not_le.mpr hpos)]
  obtain ⟨h', hqueued⟩ := @Events.leave s { s with
      queue := remove (s.event i) s.queue
      event := update s.event i { s.event i with uid := -(s.event i).uid } } i _ h hq rfl
    rfl rfl rfl
  exact ⟨_, rfl, h', rfl, rfl, hqueued⟩

/-! ## Timers and the queue -/

/-- **The timers and the queue agree**: a timer is pending exactly while its event is queued. -/
structure Agree (timers : ℕ → Bool) (s : Simulator) : Prop where
  events : Events s
  pending : ∀ i, timers i = true → (s.status i = .pending ↔ s.Queued i)

theorem agree_start (timers : ℕ → Bool) : Agree timers start := by
  refine ⟨⟨by decide, fun i => rfl, nodup_nil, ?_, fun i => ?_⟩, fun i _ => ?_⟩
  · intro e he
    cases he
  · exact iff_of_false (lt_irrefl 0) (not_mem_nil)
  · exact iff_of_false (by simp [start]) (not_mem_nil)

/-- What a call may do: it succeeds and the timers agree, or it aborts because the `uid_`s are used
up or time would run backwards. -/
def Fine (timers : ℕ → Bool) (r : Except Abort Simulator) : Prop :=
  r = .error .uidSpaceExhausted ∨ r = .error .goingBackwards ∨ ∃ s, r = .ok s ∧ Agree timers s

theorem Agree.setStatus {status : TimerStatus} {ev : Simulator} (h : Agree timers s)
    (hev : Events ev) (hst : ev.status = s.status)
    (hother : ∀ j, j ≠ i → (ev.Queued j ↔ s.Queued j))
    (hself : status = .pending ↔ ev.Queued i) : Agree timers (ev.setStatus i status) := by
  refine ⟨⟨hev.uid, hev.id, hev.distinct, hev.same, hev.live⟩, fun j hj => ?_⟩
  show update ev.status i status j = .pending ↔ ev.Queued j
  by_cases hji : j = i
  · rw [hji, update_self]
    exact hself
  · rw [update_of_ne hji, hst, hother j hji]
    exact h.pending j hj

theorem Agree.schedule (h : Agree timers s) {ev : Simulator} (hev : Events ev)
    (hst : ev.status = s.status) (hother : ∀ j, j ≠ i → (ev.Queued j ↔ s.Queued j))
    (hq : ¬ ev.Queued i) :
    Fine timers ((ev.schedule i delay).map (fun s => s.setStatus i .pending)) := by
  rcases hev.schedule hq with heq | ⟨s', heq, h', hst', -, hqueued⟩
  · rw [heq]
    exact Or.inl rfl
  · rw [heq]
    refine Or.inr (Or.inr ⟨_, rfl, h.setStatus h' (hst'.trans hst) (fun j hj => ?_) ?_⟩)
    · rw [hqueued, or_iff_right hj, hother j hj]
    · exact iff_of_true rfl ((hqueued i).mpr (Or.inl rfl))

theorem Agree.cancelEvent (h : Agree timers s) (hq : s.Queued i) :
    Fine timers ((s.cancelEvent i).map (fun s => s.setStatus i .idle)) := by
  obtain ⟨s', heq, h', hst, -, hqueued⟩ := h.events.cancelEvent hq
  rw [heq]
  refine Or.inr (Or.inr ⟨_, rfl, h.setStatus h' hst (fun j hj => ?_) ?_⟩)
  · rw [hqueued, and_iff_right hj]
  · exact iff_of_false (by decide) (fun hn => ((hqueued i).mp hn).1 rfl)

theorem Agree.resched (h : Agree timers s) (hi : timers i = true) :
    Fine timers (s.resched i delay) := by
  rw [Simulator.resched]
  split
  case isTrue hp =>
    obtain ⟨s', heq, h', hst, -, hqueued⟩ := h.events.cancelEvent ((h.pending i hi).mp hp)
    rw [heq]
    exact h.schedule h' hst (fun j hj => by rw [hqueued, and_iff_right hj])
      (fun hn => ((hqueued i).mp hn).1 rfl)
  case isFalse hp =>
    exact h.schedule h.events rfl (fun _ _ => Iff.rfl) (fun hq => hp ((h.pending i hi).mpr hq))

theorem Agree.dispatch (h : Agree timers s) : Fine timers (s.dispatch timers) := by
  rw [Simulator.dispatch]
  cases hqueue : s.queue with
  | nil => exact Or.inr (Or.inr ⟨s, rfl, h⟩)
  | cons e queue =>
    have hdist := h.events.distinct
    rw [hqueue] at hdist
    have hsame : s.event e.id = e := h.events.same e (by rw [hqueue]; simp)
    have hq : s.Queued e.id := by
      rw [Queued, hqueue]
      simp
    have hrest : queue = remove (s.event e.id) s.queue := by
      rw [hsame, hqueue, remove_cons_self hdist]
    have hleave : ∀ s' : Simulator,
        s'.event = update s.event e.id
          { s.event e.id with uid := -(s.event e.id).uid } →
        s'.queue = queue → s'.uid = s.uid → _ :=
      fun s' h1 h2 h3 => @Events.leave s s' e.id queue h.events hq hrest h1 h2 h3
    show Fine timers (Simulator.handle timers { s with queue } e)
    rw [Simulator.handle]
    dsimp only
    split
    · exact Or.inr (Or.inl rfl)
    split
    case isTrue htimer =>
      have hp : s.status e.id = .pending := (h.pending e.id htimer).mpr hq
      rw [if_neg (fun hne => hne hp)]
      obtain ⟨h', hqueued⟩ := hleave
        { s with
          queue
          clock := e.time
          event := update s.event e.id { s.event e.id with uid := -(s.event e.id).uid } }
        rfl rfl rfl
      have hagree := @Agree.setStatus s timers e.id .handling _ h h' rfl
        (fun j hj => by rw [hqueued, and_iff_right hj])
        (iff_of_false (by decide) (fun hn => ((hqueued e.id).mp hn).1 rfl))
      exact Or.inr (Or.inr ⟨_, rfl, ⟨hagree.events.uid, hagree.events.id, hagree.events.distinct,
        hagree.events.same, hagree.events.live⟩, hagree.pending⟩)
    case isFalse htimer =>
      -- the event of another handler
      obtain ⟨h', hqueued⟩ := hleave
        { s with
          queue
          clock := e.time
          event := update s.event e.id { s.event e.id with uid := -(s.event e.id).uid } }
        rfl rfl rfl
      refine Or.inr (Or.inr ⟨_, rfl, h', fun j hj => ?_⟩)
      have hne : j ≠ e.id := fun heq => htimer (heq ▸ hj)
      rw [hqueued, and_iff_right hne]
      exact h.pending j hj

theorem Agree.expired (h : Agree timers s) : Agree timers s.expired := by
  rw [Simulator.expired]
  split
  · exact h
  · rename_i i handling _
    dsimp only
    have hev : Events { s with handling } :=
      ⟨h.events.uid, h.events.id, h.events.distinct, h.events.same, h.events.live⟩
    have hkeep : Agree timers { s with handling } := ⟨hev, h.pending⟩
    split
    case isTrue hhandling =>
      refine ⟨⟨hev.uid, hev.id, hev.distinct, hev.same, hev.live⟩, fun j hj => ?_⟩
      show update s.status i .idle j = .pending ↔ s.Queued j
      by_cases hji : j = i
      · rw [hji, update_self]
        rw [hji] at hj
        have hstatus : s.status i = .handling := hhandling
        refine iff_of_false (by decide) (fun hq => ?_)
        have hp := (h.pending i hj).mpr hq
        rw [hstatus] at hp
        cases hp
      · rw [update_of_ne hji]
        exact h.pending j hj
    case isFalse => exact hkeep

theorem Agree.call (h : Agree timers s) (c : Call) (hok : Allowed timers s c) :
    Fine timers (s.call timers c) := by
  cases c with
  | sched i delay =>
    have hidle : ¬ s.status i ≠ .idle := fun hne => hne hok.2
    rw [Simulator.call, sched, if_neg hidle]
    refine h.schedule h.events rfl (fun _ _ => Iff.rfl) (fun hq => ?_)
    have hp := (h.pending i hok.1).mpr hq
    rw [hok.2] at hp
    cases hp
  | resched i delay => exact h.resched hok
  | cancel i =>
    have hp : ¬ s.status i ≠ .pending := fun hne => hne hok.2
    rw [Simulator.call, Simulator.cancel, if_neg hp]
    exact h.cancelEvent ((h.pending i hok.1).mp hok.2)
  | forceCancel i =>
    rw [Simulator.call, forceCancel]
    split
    case isTrue hp => exact h.cancelEvent ((h.pending i hok).mp hp)
    case isFalse => exact Or.inr (Or.inr ⟨s, rfl, h⟩)
  | other i delay =>
    have hq : ¬ s.Queued i := fun hq => absurd ((h.events.live i).mpr hq) (not_lt.mpr hok.2)
    rcases @Events.schedule s i delay h.events hq with heq | ⟨s', heq, h', hst, -, hqueued⟩
    · exact Or.inl heq
    · refine Or.inr (Or.inr ⟨s', heq, h', fun j hj => ?_⟩)
      have hne : j ≠ i := by
        rintro rfl
        rw [hok.1] at hj
        cases hj
      rw [hst, hqueued, or_iff_right hne]
      exact h.pending j hj
  | dispatch => exact h.dispatch
  | expired => exact Or.inr (Or.inr ⟨_, rfl, h.expired⟩)

/-- **Timers and the event queue agree.** In every run of the calls, a timer is pending if and only
if its event is in the queue, it is there at most once, and its `uid_` is positive exactly while it
is there. The simulator aborts only when the `uid_`s are used up or when an event was scheduled in
the past. -/
theorem timers_agree {timers : ℕ → Bool} {calls : List Call}
    (hok : Runs.Meets (step timers) (AllowedIn timers) (.ok start) calls) :
    ∃ r outs, Runs.run (step timers) (.ok start) calls = some (r, outs) ∧
      (∀ a, r = .error a → a = .uidSpaceExhausted ∨ a = .goingBackwards) ∧
      ∀ s, r = .ok s → ∀ i, timers i = true →
        (s.status i = .pending ↔ s.event i ∈ s.queue) ∧
        (s.queue.map Event.id).count i ≤ 1 ∧
        (0 < (s.event i).uid ↔ s.event i ∈ s.queue) := by
  obtain ⟨r, outs, hrun, h⟩ := @Runs.run_invariant _ _ _ (step timers) (AllowedIn timers) (.ok start)
    calls (fun _ _ r => Fine timers r)
    (fun _ _ r c h hc => by
      refine ⟨_, (), rfl, ?_⟩
      rcases h with rfl | rfl | ⟨s, rfl, h⟩
      · exact Or.inl rfl
      · exact Or.inr (Or.inl rfl)
      · exact h.call c (hc s rfl)) (Or.inr (Or.inr ⟨start, rfl, agree_start timers⟩)) hok
  refine ⟨r, outs, hrun, ?_, ?_⟩
  · rintro a rfl
    rcases h with h | h | ⟨s, h, -⟩
    · cases h
      exact Or.inl rfl
    · cases h
      exact Or.inr rfl
    · cases h
  · rintro s rfl i hi
    rcases h with h | h | ⟨s', h, hagree⟩
    · cases h
    · cases h
    · cases h
      have hmem : s.Queued i ↔ s.event i ∈ s.queue :=
        ⟨hagree.events.mem, fun hm => mem_map.mpr ⟨_, hm, hagree.events.id i⟩⟩
      rw [← hmem]
      exact ⟨hagree.pending i hi, nodup_iff_count_le_one.mp hagree.events.distinct i,
        hagree.events.live i⟩

/-- Two timers, 0 and 1; the body of the first `expire` reschedules and cancels its own timer and
reschedules the other one. -/
def reentrant : List Call :=
  [.sched 0 1, .resched 1 3, .other 5 2, .dispatch, .resched 0 1, .cancel 0, .sched 0 4, .resched 1 2,
    .forceCancel 0, .expired, .dispatch, .dispatch, .resched 1 1, .expired, .dispatch, .expired]

theorem timers_agree_reentrant :
    Runs.Meets (step (· < 2)) (AllowedIn (· < 2)) (.ok start) reentrant ∧
    ∃ r outs, Runs.run (step (· < 2)) (.ok start) reentrant = some (r, outs) ∧
      (∀ a, r = .error a → a = .uidSpaceExhausted ∨ a = .goingBackwards) ∧
      ∀ s, r = .ok s → ∀ i, decide (i < 2) = true →
        (s.status i = .pending ↔ s.event i ∈ s.queue) ∧
        (s.queue.map Event.id).count i ≤ 1 ∧
        (0 < (s.event i).uid ↔ s.event i ∈ s.queue) :=
  have hok : Runs.Meets (step (· < 2)) (AllowedIn (· < 2)) (.ok start) reentrant := by
    decide +kernel
  ⟨hok, timers_agree hok⟩

end Simulator

end NetSim
