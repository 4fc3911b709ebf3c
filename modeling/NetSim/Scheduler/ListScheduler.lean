import NetSim.Scheduler.Basic

/-! # The list scheduler

`ListScheduler` (`common/scheduler.cc`) keeps one list `queue_` sorted by time. It is the
reference the other schedulers are compared with. `arrivalQueue` says what such a queue is
for: it keeps the queued events in the order they were inserted and hands out, of the events
of minimal time, the one inserted first.
-/

namespace NetSim

open List StableOrder

namespace ListScheduler

/-- `ListScheduler::insert`: walk past every event whose time is at most `e`'s. -/
def insert : List Event → Event → List Event
  | [], e => [e]
  | p :: q, e => if e.time < p.time then e :: p :: q else p :: insert q e

/-- The walk of `ListScheduler::cancel`: unlink the node `e`, abort at the end of the list. -/
def unlink : List Event → Event → Option (List Event)
  | [], _ => none
  | p :: q, e => if p.id = e.id then some q else (unlink q e).map (p :: ·)

/-- `ListScheduler::cancel`. An event whose uid is not positive is not in the queue. -/
def cancel (q : List Event) (e : Event) : Option (List Event) :=
  if e.uid ≤ 0 then some q else unlink q e

def deque : List Event → List Event × Option Event
  | [] => ([], none)
  | e :: q => (q, some e)

def head (q : List Event) : Option Event := q.head?

end ListScheduler

def listScheduler : Scheduler (List Event) where
  insert q e := some (ListScheduler.insert q e)
  cancel := ListScheduler.cancel
  deque q := some (ListScheduler.deque q)
  head q := some (q, ListScheduler.head q)

/-- What a caller of a scheduler owes: times are not negative, an event is inserted only when
it is not queued, and an event with a positive uid is cancelled only while it is queued ("it is
an error to call this routine when the event is not actually in the queue"). -/
def CallOk (q : List Event) : Op → Prop
  | .insert e => 0 ≤ e.time ∧ ∀ x ∈ q, x.id ≠ e.id
  | .cancel e => 0 < e.uid → e ∈ q
  | .deque => True
  | .head => True

instance (q : List Event) : (op : Op) → Decidable (CallOk q op)
  | .insert e => inferInstanceAs (Decidable (0 ≤ e.time ∧ ∀ x ∈ q, x.id ≠ e.id))
  | .cancel e => inferInstanceAs (Decidable (0 < e.uid → e ∈ q))
  | .deque => inferInstanceAs (Decidable True)
  | .head => inferInstanceAs (Decidable True)

def remove (e : Event) (q : List Event) : List Event := q.filter (fun x => x.id ≠ e.id)

/-- **The purpose of a scheduler queue**, as a scheduler over the queued events in order of
insertion: hand out, of the events of minimal time, the one inserted first. -/
def arrivalQueue : Scheduler (List Event) where
  insert h e := some (h ++ [e])
  cancel h e := some (if e.uid ≤ 0 then h else remove e h)
  deque h :=
    match h.argmin Event.time with
    | none => some (h, none)
    | some e => some (remove e h, some e)
  head h := some (h, h.argmin Event.time)

/-! ## Addresses are distinct -/

/-- The addresses of the queued events are distinct. -/
def Distinct (q : List Event) : Prop := (q.map Event.id).Nodup

theorem Distinct.remove {q : List Event} (h : Distinct q) (e : Event) :
    Distinct (remove e q) := h.sublist (filter_sublist.map _)

theorem Distinct.perm {q h : List Event} (hq : Distinct q) (p : q.Perm h) : Distinct h :=
  (p.map Event.id).nodup_iff.mp hq

theorem mem_remove {e x : Event} {q : List Event} : x ∈ remove e q ↔ x ∈ q ∧ x.id ≠ e.id := by
  simp [remove]

theorem remove_eq_self {e : Event} {q : List Event} (h : ∀ x ∈ q, x.id ≠ e.id) :
    remove e q = q := by
  rw [remove, filter_eq_self]
  intro x hx
  simpa using h x hx

theorem remove_cons_self {e : Event} {q : List Event} (h : Distinct (e :: q)) :
    remove e (e :: q) = q := by
  have hq : ∀ x ∈ q, x.id ≠ e.id := by
    intro x hx heq
    have := (nodup_cons.mp h).1
    exact this (mem_map.mpr ⟨x, hx, heq⟩)
  have h1 : remove e (e :: q) = remove e q := by simp [remove]
  rw [h1, remove_eq_self hq]

theorem remove_append_cons {e : Event} {a b : List Event} (h : Distinct (a ++ e :: b)) :
    remove e (a ++ e :: b) = a ++ b := by
  induction a with
  | nil => exact remove_cons_self h
  | cons x a ih =>
    obtain ⟨hx, h'⟩ := nodup_cons.mp h
    have hid : x.id ≠ e.id := fun heq => hx (mem_map.mpr ⟨e, by simp, heq.symm⟩)
    have h1 : remove e (x :: (a ++ e :: b)) = x :: remove e (a ++ e :: b) := by
      simp [remove, hid]
    rw [cons_append, h1, ih h']
    rfl

theorem Distinct.eq_of_id {q : List Event} (h : Distinct q) {x y : Event} (hx : x ∈ q)
    (hy : y ∈ q) (hid : x.id = y.id) : x = y :=
  inj_on_of_nodup_map h hx hy hid

/-! ## The list operations -/

namespace ListScheduler

theorem insert_eq_insertLast (q : List Event) (e : Event) :
    insert q e = insertLast Event.time e q := by
  induction q with
  | nil => rfl
  | cons p q ih => simp only [insert, insertLast, ih]

theorem unlink_eq_remove {q : List Event} {e : Event} (hd : Distinct q) (he : e ∈ q) :
    unlink q e = some (remove e q) := by
  induction q with
  | nil => cases he
  | cons p q ih =>
    by_cases hp : p.id = e.id
    · have hpe : p = e := hd.eq_of_id (by simp) he hp
      subst hpe
      rw [unlink, if_pos rfl, remove_cons_self hd]
    · have he' : e ∈ q := by
        rcases mem_cons.mp he with rfl | h
        · exact absurd rfl hp
        · exact h
      have hd' : Distinct q := (nodup_cons.mp hd).2
      have h1 : remove e (p :: q) = p :: remove e q := by simp [remove, hp]
      rw [unlink, if_neg hp, ih hd' he', h1]
      rfl

theorem cancel_eq {q : List Event} {e : Event} (hd : Distinct q) (hok : CallOk q (.cancel e)) :
    cancel q e = some (if e.uid ≤ 0 then q else remove e q) := by
  by_cases hu : e.uid ≤ 0
  · rw [cancel, if_pos hu, if_pos hu]
  · rw [cancel, if_neg hu, if_neg hu, unlink_eq_remove hd (hok (by omega))]

theorem distinct_insert {q : List Event} {e : Event} (hd : Distinct q)
    (h : ∀ x ∈ q, x.id ≠ e.id) : Distinct (insert q e) := by
  have hsort : (insert q e).Perm (e :: q) := by
    rw [insert_eq_insertLast]
    induction q with
    | nil => exact List.Perm.refl _
    | cons p q ih =>
      by_cases hp : e.time < p.time
      · simp [insertLast, hp]
      · simp only [insertLast, hp]
        have := ih (nodup_cons.mp hd).2 (fun x hx => h x (by simp [hx]))
        exact (this.cons p).trans (List.Perm.swap e p q)
  refine Distinct.perm ?_ hsort.symm
  refine nodup_cons.mpr ⟨?_, hd⟩
  rintro hm
  obtain ⟨x, hx, hid⟩ := mem_map.mp hm
  exact h x hx hid

end ListScheduler

/-! ## The list scheduler hands out events in stable time order -/

/-- A `queue_` of `ListScheduler`: sorted by time, with distinct addresses. -/
structure QueueInv (q : List Event) : Prop where
  sorted : Sorted Event.time q
  distinct : Distinct q

theorem queueInv_nil : QueueInv [] := ⟨List.Pairwise.nil, nodup_nil⟩

theorem QueueInv.insert {q : List Event} (hq : QueueInv q) {e : Event}
    (h : ∀ x ∈ q, x.id ≠ e.id) : QueueInv (ListScheduler.insert q e) where
  sorted := by rw [ListScheduler.insert_eq_insertLast]; exact sorted_insertLast e hq.sorted
  distinct := ListScheduler.distinct_insert hq.distinct h

theorem QueueInv.remove {q : List Event} (hq : QueueInv q) (e : Event) :
    QueueInv (remove e q) where
  sorted := hq.sorted.filter _
  distinct := hq.distinct.remove e

theorem QueueInv.tail {e : Event} {q : List Event} (hq : QueueInv (e :: q)) : QueueInv q where
  sorted := hq.sorted.tail
  distinct := (nodup_cons.mp hq.distinct).2

structure ListRel (q h : List Event) : Prop where
  inv : QueueInv q
  agree : Agree Event.time q h

theorem ListRel.callOk {q h : List Event} (r : ListRel q h) {op : Op} :
    CallOk h op → CallOk q op := by
  cases op with
  | insert e => exact fun hok => ⟨hok.1, fun x hx => hok.2 x ((r.agree.mem_iff x).mp hx)⟩
  | cancel e => exact fun hok hu => (r.agree.mem_iff e).mpr (hok hu)
  | deque => exact id
  | head => exact id

theorem listScheduler_simulation :
    Scheduler.Simulation listScheduler arrivalQueue Scheduler.Always CallOk ListRel := by
  intro q h op r _ hok
  have hq := r.inv
  have hok' := r.callOk hok
  cases op with
  | insert e =>
    refine ⟨_, _, [], rfl, rfl, hq.insert hok'.2, ?_⟩
    rw [ListScheduler.insert_eq_insertLast]
    exact (agree_insertLast e hq.sorted).trans (r.agree.append (fun _ => rfl))
  | cancel e =>
    refine ⟨if e.uid ≤ 0 then q else remove e q, if e.uid ≤ 0 then h else remove e h, [],
      ?_, rfl, ?_⟩
    · simp only [Scheduler.step, listScheduler, ListScheduler.cancel_eq hq.distinct hok']
      rfl
    · by_cases hu : e.uid ≤ 0
      · simp only [hu]; exact r
      · simp only [hu]
        exact ⟨hq.remove e, r.agree.filter _⟩
  | deque =>
    have hmin := head?_eq_argmin hq.sorted r.agree
    cases q with
    | nil =>
      refine ⟨[], h, [none], rfl, ?_, r⟩
      simp only [Scheduler.step, arrivalQueue, ← hmin]
      rfl
    | cons e q =>
      refine ⟨q, remove e h, [some e], rfl, ?_, hq.tail, ?_⟩
      · simp only [Scheduler.step, arrivalQueue, ← hmin]
        rfl
      · have := r.agree.filter (fun x => x.id ≠ e.id)
        rwa [show (e :: q).filter (fun x => x.id ≠ e.id) = q from
          remove_cons_self hq.distinct] at this
  | head =>
    refine ⟨q, h, [q.head?], rfl, ?_, r⟩
    simp only [head?_eq_argmin hq.sorted r.agree]
    rfl

end NetSim
