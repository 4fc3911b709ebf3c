import NetSim.Lib.TailList
import NetSim.Aodv.Node

/-! # The send buffer of AODV

`aodv_rqueue` (`aodv/aodv_rqueue.cc`) keeps the packets that wait for a route on a list linked through
the packets themselves. A call answers `none` when an assertion fails, a null pointer is read or a loop
is out of fuel; `QDEBUG` is defined, so the calls check the list with `verifyQueue`.

The calls keep the list, answer in order and in time and never hold more than `limit` packets. They do
not conserve the packets: `purge` unlinks a packet that has timed out and neither returns it nor hands
it to `drop`. A run conserves the packets as long as it makes no call with such a packet in the queue
(`send_buffer_conserves`).
-/

namespace NetSim.Aodv

open Function List LinkedList

/-- Why `drop` gets a packet. -/
inductive QueueDrop
  | qfull
  | qtimeout
deriving DecidableEq

/-- `aodv_rqueue`, with the header fields of the packets that it reads. -/
structure Rqueue where
  list : TailList
  ts : ℕ → ℚ
  daddr : ℕ → ℤ
  limit : ℤ
  timeout : ℚ

namespace Rqueue

def init : Rqueue where
  list := .empty
  ts := fun _ => 0
  daddr := fun _ => 0
  limit := aodvRtqMaxLen
  timeout := aodvRtqTimeout

def findPacketWithDst (fuel : ℕ) (dst : ℤ) (q : Rqueue) : Option (Option (ℕ × Option ℕ)) :=
  q.list.search (fun p => q.daddr p = dst) fuel none q.list.head

def findAgedPacket (fuel : ℕ) (now : ℚ) (q : Rqueue) : Option (Option (ℕ × Option ℕ)) :=
  q.list.search (fun p => q.ts p < now) fuel none q.list.head

/-- The assertions of `verifyQueue`. -/
def verifyQueue (fuel : ℕ) (q : Rqueue) : Bool :=
  q.list.census fuel 0 none q.list.head = some (q.list.len, q.list.tail)

/-- `assert((p == head_ && prev == 0) || (prev->next_ == p))`. -/
def assertFound (p : ℕ) (prev : Option ℕ) (q : Rqueue) : Bool :=
  (q.list.head = some p ∧ prev = none) ∨ prev.bind q.list.next = some p

def removeHead (q : Rqueue) : Option (Option ℕ × Rqueue) :=
  q.list.removeHead.map (fun r => (r.1, { q with list := r.2 }))

/-- What `deque(dst)` and `purge` do with a packet that they have found. -/
def takeOff (fuel : ℕ) (p : ℕ) (prev : Option ℕ) (q : Rqueue) : Option Rqueue := do
  guard (q.assertFound p prev)
  let list ← q.list.unlink p prev
  let q := { q with list }
  guard (q.verifyQueue fuel)
  return q

/-- The loop of `purge`. What it unlinks is not handed to anybody. -/
def purgeLoop (fuel : ℕ) (now : ℚ) : ℕ → Rqueue → Option Rqueue
  | 0, _ => none
  | k + 1, q =>
    (q.findAgedPacket fuel now).bind (fun found =>
      found.elim (some q) (fun r => (q.takeOff fuel r.1 r.2).bind (purgeLoop fuel now k)))

def purge (fuel : ℕ) (now : ℚ) (q : Rqueue) : Option Rqueue := purgeLoop fuel now fuel q

/-- The head of a full queue makes room. -/
def makeRoom (now : ℚ) (q : Rqueue) : Option (Rqueue × List (ℕ × QueueDrop)) :=
  if q.list.len = q.limit then
    q.removeHead.bind (fun r =>
      r.1.map (fun p₀ => (r.2, [(p₀, if now < q.ts p₀ then .qfull else .qtimeout)])))
  else some (q, [])

def enque (fuel : ℕ) (now : ℚ) (p : ℕ) (q : Rqueue) : Option (Rqueue × List (ℕ × QueueDrop)) := do
  let q ← q.purge fuel now
  let q := { q with
    list := { q.list with next := update q.list.next p none }
    ts := update q.ts p (now + q.timeout) }
  let (q, dropped) ← q.makeRoom now
  let list ← q.list.pushBack p
  let q := { q with list }
  guard (q.verifyQueue fuel)
  return (q, dropped)

def deque (fuel : ℕ) (now : ℚ) (q : Rqueue) : Option (Option ℕ × Rqueue) := do
  let q ← q.purge fuel now
  let (p, q) ← q.removeHead
  guard (q.verifyQueue fuel)
  return (p, q)

def dequeDst (fuel : ℕ) (now : ℚ) (dst : ℤ) (q : Rqueue) : Option (Option ℕ × Rqueue) := do
  let q ← q.purge fuel now
  match ← q.findPacketWithDst fuel dst with
  | none => return (none, q)
  | some (p, prev) =>
    let q ← q.takeOff fuel p prev
    return (some p, q)

/-! ## What the calls do to the list -/

variable {q : Rqueue} {xs l r : List ℕ} {p fuel : ℕ} {now : ℚ}

def kept (now : ℚ) (q : Rqueue) (xs : List ℕ) : List ℕ := xs.filter (fun x => now ≤ q.ts x)

def aged (now : ℚ) (q : Rqueue) (xs : List ℕ) : List ℕ := xs.filter (fun x => q.ts x < now)

theorem aged_append_kept (q : Rqueue) (now : ℚ) (xs : List ℕ) :
    (q.aged now xs ++ q.kept now xs).Perm xs := by
  have hnot : q.kept now xs = xs.filter (fun x => !decide (q.ts x < now)) := by
    refine filter_congr (fun x _ => ?_)
    rw [← decide_not, decide_eq_decide, not_lt]
  rw [hnot]
  exact filter_append_perm _ xs

theorem mem_kept {x : ℕ} : x ∈ q.kept now xs ↔ x ∈ xs ∧ now ≤ q.ts x := by
  simp [kept]

theorem kept_sublist : (q.kept now xs).Sublist xs := filter_sublist

theorem verifyQueue_of_holds (h : q.list.Holds xs) (hf : xs.length < fuel) : q.verifyQueue fuel = true := by
  rw [verifyQueue, h.census hf]
  simp

theorem assertFound_of_holds (h : q.list.Holds (l ++ p :: r)) : q.assertFound p l.getLast? = true := by
  unfold assertFound
  rcases h.found with ⟨hhead, hlast⟩ | ⟨b, hlast, hnext⟩
  · simp [hhead, hlast]
  · simp [hlast, hnext]

theorem takeOff_spec (h : q.list.Holds (l ++ p :: r)) (hf : (l ++ p :: r).length < fuel) :
    ∃ L, q.takeOff fuel p l.getLast? = some { q with list := L } ∧ L.Holds (l ++ r) := by
  obtain ⟨L, hunlink, hL⟩ := h.unlink
  have hverify : ({ q with list := L } : Rqueue).verifyQueue fuel = true :=
    verifyQueue_of_holds hL (by simp at hf ⊢; omega)
  refine ⟨L, ?_, hL⟩
  simp [takeOff, assertFound_of_holds h, hunlink, hverify]

/-- By induction on the packets that are left: the expired ones are dropped, the others stay in order. -/
theorem purgeLoop_spec {k : ℕ} (h : q.list.Holds xs) (hf : xs.length < fuel) (hk : xs.length < k) :
    ∃ L, purgeLoop fuel now k q = some { q with list := L } ∧ L.Holds (q.kept now xs) := by
  induction k generalizing q xs with
  | zero => omega
  | succ k ih =>
    rw [purgeLoop]
    rcases h.search (c := fun p => q.ts p < now) hf with ⟨hall, hfind⟩ | ⟨l, p, r, rfl, hl, hp, hfind⟩
    · have hkept : q.kept now xs = xs := by
        refine filter_eq_self.mpr (fun x hx => ?_)
        simpa using hall x hx
      rw [findAgedPacket, hfind, Option.bind_some, Option.elim_none, hkept]
      exact ⟨q.list, rfl, h⟩
    · -- the packet is unlinked; the rest of the loop sees the list without it
      obtain ⟨L, htake, hL⟩ := takeOff_spec h hf
      have haged : ¬ now ≤ q.ts p := by simpa using hp
      have hkept : q.kept now (l ++ p :: r) = q.kept now (l ++ r) := by
        simp [kept, haged]
      obtain ⟨L', hloop, hL'⟩ := ih (q := { q with list := L }) hL (by simp at hf ⊢; omega)
        (by simp at hk ⊢; omega)
      rw [findAgedPacket, hfind, Option.bind_some, Option.elim_some, htake, Option.bind_some, hkept]
      exact ⟨L', hloop, hL'⟩

theorem purge_spec (h : q.list.Holds xs) (hf : xs.length < fuel) (now : ℚ) :
    ∃ L, q.purge fuel now = some { q with list := L } ∧ L.Holds (q.kept now xs) :=
  purgeLoop_spec h hf hf

/-- A full buffer drops its first packet. -/
theorem makeRoom_spec (h : q.list.Holds xs) (hlimit : (xs.length : ℤ) ≤ q.limit) (hpos : 0 < q.limit)
    (now : ℚ) :
    ∃ L dropped rest, q.makeRoom now = some ({ q with list := L }, dropped) ∧ L.Holds rest ∧
      L.next = q.list.next ∧ xs = dropped.map Prod.fst ++ rest ∧ (rest.length : ℤ) < q.limit := by
  by_cases hfull : q.list.len = q.limit
  · cases xs with
    | nil =>
      have hlen := h.len
      simp at hlen
      omega
    | cons p₀ rest =>
      obtain ⟨L, hremove, hL, hnext⟩ := h.removeHead
      refine ⟨L, [(p₀, if now < q.ts p₀ then .qfull else .qtimeout)], rest, ?_, hL, hnext, rfl, ?_⟩
      · rw [makeRoom, if_pos hfull, removeHead, hremove]
        rfl
      · simp at hlimit
        omega
  · refine ⟨q.list, [], xs, by rw [makeRoom, if_neg hfull], h, rfl, rfl, ?_⟩
    have hlen := h.len
    omega

/-- The packet is the last one, behind those that were not dropped. -/
theorem enque_spec (h : q.list.Holds xs) (hp : p ∉ xs) (hlimit : (xs.length : ℤ) ≤ q.limit)
    (hpos : 0 < q.limit) (hf : q.limit < fuel) (now : ℚ) :
    ∃ L dropped rest, q.enque fuel now p =
        some ({ q with list := L, ts := update q.ts p (now + q.timeout) }, dropped) ∧
      L.Holds (rest ++ [p]) ∧ q.kept now xs = dropped.map Prod.fst ++ rest ∧
      (rest.length : ℤ) < q.limit := by
  obtain ⟨L, hpurge, hL⟩ := purge_spec h (show xs.length < fuel by omega) now
  have hpk : p ∉ q.kept now xs := fun hmem => hp (mem_kept.mp hmem).1
  have hlen : (q.kept now xs).length ≤ xs.length := kept_sublist.length_le
  obtain ⟨L', dropped, rest, hroom, hL', hnext, hsplit, hlt⟩ :=
    makeRoom_spec
      (q := { q with
        list := { L with next := update L.next p none }
        ts := update q.ts p (now + q.timeout) })
      (hL.write hpk none) (by dsimp only; omega) hpos now
  have hpr : p ∉ rest := fun hmem => hpk (by rw [hsplit]; exact mem_append_right _ hmem)
  obtain ⟨L'', hpush, hL''⟩ := hL'.pushBack hpr (by rw [hnext]; exact update_self _ _ _)
  have hverify : ({ q with
      list := L''
      ts := update q.ts p (now + q.timeout) } : Rqueue).verifyQueue fuel = true := by
    refine verifyQueue_of_holds hL'' ?_
    rw [length_append, length_singleton]
    dsimp only at hlt
    omega
  refine ⟨L'', dropped, rest, ?_, hL'', hsplit, hlt⟩
  simp [enque, hpurge, hroom, hpush, hverify]

/-- The first packet that has not expired is returned. -/
theorem deque_spec (h : q.list.Holds xs) (hf : xs.length < fuel) (now : ℚ) :
    ∃ L out rest, q.deque fuel now = some (out, { q with list := L }) ∧ L.Holds rest ∧
      q.kept now xs = out.toList ++ rest := by
  obtain ⟨L, hpurge, hL⟩ := purge_spec h hf now
  have hlen : (q.kept now xs).length ≤ xs.length := kept_sublist.length_le
  cases hk : q.kept now xs with
  | nil =>
    rw [hk] at hL
    obtain ⟨L', hremove, hL'⟩ := hL.removeHead_nil
    have hverify : ({ q with list := L' } : Rqueue).verifyQueue fuel = true :=
      verifyQueue_of_holds hL' (by simp; omega)
    refine ⟨L', none, [], ?_, hL', rfl⟩
    simp [deque, hpurge, removeHead, hremove, hverify]
  | cons p rest =>
    rw [hk] at hL hlen
    obtain ⟨L', hremove, hL', -⟩ := hL.removeHead
    have hverify : ({ q with list := L' } : Rqueue).verifyQueue fuel = true :=
      verifyQueue_of_holds hL' (by simp at hlen; omega)
    refine ⟨L', some p, rest, ?_, hL', rfl⟩
    simp [deque, hpurge, removeHead, hremove, hverify]

/-- The first packet for the destination is returned; those before it stay. -/
theorem dequeDst_spec (h : q.list.Holds xs) (hf : xs.length < fuel) (now : ℚ) (dst : ℤ) :
    ∃ L out before rest, q.dequeDst fuel now dst = some (out, { q with list := L }) ∧
      L.Holds (before ++ rest) ∧ q.kept now xs = before ++ out.toList ++ rest ∧
      (∀ p ∈ out, q.daddr p = dst) ∧ (out.isSome → ∀ x ∈ before, q.daddr x ≠ dst) := by
  obtain ⟨L, hpurge, hL⟩ := purge_spec h hf now
  have hlen : (q.kept now xs).length ≤ xs.length := kept_sublist.length_le
  have hk : (q.kept now xs).length < fuel := by omega
  rcases hL.search (c := fun p => q.daddr p = dst) hk with ⟨-, hfind⟩ | ⟨l, p, r, hsplit, hl, hp, hfind⟩
  · refine ⟨L, none, q.kept now xs, [], ?_, by simpa using hL, by simp, by simp, by simp⟩
    simp [dequeDst, hpurge, findPacketWithDst, hfind]
  · rw [hsplit] at hL hk
    obtain ⟨L', htake, hL'⟩ := takeOff_spec (q := { q with list := L }) hL hk
    refine ⟨L', some p, l, r, ?_, hL', by simpa using hsplit, by simpa using hp, ?_⟩
    · simp [dequeDst, hpurge, findPacketWithDst, hfind, htake]
    · intro _ x hx
      simpa using hl x hx

end Rqueue

/-! ## Runs of calls -/

inductive Call
  | enque (p : ℕ) (dst : ℤ)
  | deque
  | dequeDst (dst : ℤ)
deriving DecidableEq

/-- A packet that a call returned: the number and the time of the call that had put it in, and the time
of its return. -/
structure Returned where
  packet : ℕ
  dst : ℤ
  number : ℕ
  since : ℚ
  time : ℚ
deriving DecidableEq

/-- A send buffer and what happened to the packets. The `enque` calls are numbered; `number` and `since`
tell the last one that put a packet in. -/
structure Buffer where
  queue : Rqueue
  now : ℚ
  enqueued : List ℕ
  returned : List Returned
  dropped : List (ℕ × QueueDrop)
  number : ℕ → ℕ
  since : ℕ → ℚ

namespace Buffer

def init (now : ℚ) : Buffer where
  queue := .init
  now := now
  enqueued := []
  returned := []
  dropped := []
  number := fun _ => 0
  since := fun _ => 0

def returns (b : Buffer) (now : ℚ) (p : ℕ) : Returned :=
  ⟨p, b.queue.daddr p, b.number p, b.since p, now⟩

/-- A `deque` has answered. -/
def answer (b : Buffer) (now : ℚ) (r : Option ℕ × Rqueue) : Buffer :=
  { b with queue := r.2, now, returned := b.returned ++ r.1.toList.map (b.returns now) }

/-- A call at the time `now`. A packet comes with its destination in the header. -/
def step (fuel : ℕ) (now : ℚ) (b : Buffer) : Call → Option Buffer
  | .enque p dst =>
    let q : Rqueue := { b.queue with daddr := update b.queue.daddr p dst }
    (q.enque fuel now p).map (fun r =>
      { b with
        queue := r.1
        now
        enqueued := b.enqueued ++ [p]
        dropped := b.dropped ++ r.2
        number := update b.number p b.enqueued.length
        since := update b.since p now })
  | .deque => (b.queue.deque fuel now).map (b.answer now)
  | .dequeDst dst => (b.queue.dequeDst fuel now dst).map (b.answer now)

def Queued (b : Buffer) (p : ℕ) : Prop := ∃ xs, b.queue.list.Holds xs ∧ p ∈ xs

/-- A packet is enqueued only when it is not in the queue. -/
def Admits (b : Buffer) : Call → Prop
  | .enque p _ => ¬ b.Queued p
  | _ => True

/-- No packet in the queue has timed out at the time `now`. -/
def Timely (b : Buffer) (now : ℚ) : Prop := ∀ p, b.Queued p → now ≤ b.queue.ts p

/-- The buffers that calls at non-decreasing times lead to, when every call meets the condition `C`. -/
inductive Reaches (fuel : ℕ) (C : Buffer → ℚ → Prop) : Buffer → Prop
  | init (now : ℚ) : Reaches fuel C (init now)
  | call {b b' : Buffer} {now : ℚ} {c : Call} (hb : Reaches fuel C b) (hnow : b.now ≤ now)
      (hc : b.Admits c) (hmeets : C b now) (hstep : b.step fuel now c = some b') : Reaches fuel C b'

/-- The packets that left the queue in the open. -/
def gone (b : Buffer) : List ℕ := b.returned.map Returned.packet ++ b.dropped.map Prod.fst

/-- **Every enqueued packet was returned or handed to `drop`, or is in the queue**, each time that it
was enqueued, and once. -/
def Conserves (b : Buffer) : Prop :=
  ∃ xs, b.queue.list.Holds xs ∧ b.enqueued.Perm (b.gone ++ xs)

def Ordered (b : Buffer) : Prop :=
  b.returned.Pairwise (fun r s => r.dst = s.dst → r.number < s.number)

/-- No returned packet has outlived its timeout. -/
def InTime (b : Buffer) : Prop := ∀ r ∈ b.returned, r.time ≤ r.since + b.queue.timeout

/-- What holds between the calls of a buffer that has the packets `xs`; `lost` are those that left it
unseen. -/
structure Inv (b : Buffer) (xs lost : List ℕ) : Prop where
  limit : b.queue.limit = aodvRtqMaxLen
  bound : (xs.length : ℤ) ≤ b.queue.limit
  stamped : ∀ x ∈ xs, b.queue.ts x = b.since x + b.queue.timeout
  sorted : xs.Pairwise (fun x y => b.number x < b.number y)
  numbered : ∀ x ∈ xs, b.number x < b.enqueued.length
  ordered : b.Ordered
  passed : ∀ r ∈ b.returned, r.number < b.enqueued.length ∧
    ∀ x ∈ xs, b.queue.daddr x = r.dst → r.number < b.number x
  inTime : b.InTime
  all : b.enqueued.Perm (lost ++ (b.gone ++ xs))

variable {b b' : Buffer} {xs lost l r ys : List ℕ} {p fuel : ℕ} {now : ℚ} {c : Call}

theorem inv_init (now : ℚ) : Inv (init now) [] [] where
  limit := rfl
  bound := Int.natCast_nonneg aodvRtqMaxLen
  stamped := by simp
  sorted := List.Pairwise.nil
  numbered := by simp
  ordered := List.Pairwise.nil
  passed := by simp [init]
  inTime := by simp [init, InTime]
  all := List.Perm.refl _

theorem queued_iff (hh : b.queue.list.Holds xs) : b.Queued p ↔ p ∈ xs := by
  constructor
  · rintro ⟨ys, hys, hp⟩
    rwa [hh.chain.unique hys.chain]
  · exact fun hp => ⟨xs, hh, hp⟩

theorem timely_iff (hh : b.queue.list.Holds xs) : b.Timely now ↔ b.queue.aged now xs = [] := by
  rw [Rqueue.aged, filter_eq_nil_iff]
  constructor
  · intro ht x hx
    simpa using ht x ((queued_iff hh).mpr hx)
  · intro hall p hp
    simpa using hall p ((queued_iff hh).mp hp)

theorem Inv.conserves (h : Inv b xs lost) (hh : b.queue.list.Holds xs) : b.Conserves ↔ lost = [] := by
  constructor
  · rintro ⟨ys, hys, hperm⟩
    rw [← hh.chain.unique hys.chain] at hperm
    have hlen := (h.all.symm.trans hperm).length_eq
    rw [length_append] at hlen
    exact length_eq_zero_iff.mp (by omega)
  · rintro rfl
    exact ⟨xs, hh, h.all⟩

/-! ## What the parts of a call do -/

theorem Inv.purge (h : Inv b xs lost) (now : ℚ) :
    Inv b (b.queue.kept now xs) (lost ++ b.queue.aged now xs) := by
  have hsub : (b.queue.kept now xs).Sublist xs := Rqueue.kept_sublist
  have hlen := hsub.length_le
  have hbound := h.bound
  refine ⟨h.limit, ?_, fun x hx => h.stamped x (hsub.subset hx), h.sorted.sublist hsub,
    fun x hx => h.numbered x (hsub.subset hx), h.ordered, fun r hr => ?_, h.inTime, ?_⟩
  · omega
  · exact ⟨(h.passed r hr).1, fun x hx => (h.passed r hr).2 x (hsub.subset hx)⟩
  · refine perm_iff_count.mpr (fun a => ?_)
    have hall := h.all.count_eq a
    have hsum := (b.queue.aged_append_kept now xs).count_eq a
    simp only [List.count_append] at hall hsum ⊢
    omega

theorem Inv.take (h : Inv b (l ++ p :: r) lost) (L : TailList) (hnow : now ≤ b.queue.ts p)
    (hfirst : ∀ x ∈ l, b.queue.daddr x ≠ b.queue.daddr p) :
    Inv (b.answer now (some p, { b.queue with list := L })) (l ++ r) lost := by
  have hsub : (l ++ r).Sublist (l ++ p :: r) := by simp
  have hlen := hsub.length_le
  have hbound := h.bound
  have hp : p ∈ l ++ p :: r := by simp
  have hafter : ∀ x ∈ r, b.number p < b.number x :=
    (pairwise_cons.mp (pairwise_append.mp h.sorted).2.1).1
  have hmem : ∀ s ∈ (b.answer now (some p, { b.queue with list := L })).returned,
      s ∈ b.returned ∨ s = b.returns now p := by
    intro s hs
    simpa [answer] using hs
  refine ⟨h.limit, ?_, fun x hx => h.stamped x (hsub.subset hx), h.sorted.sublist hsub,
    fun x hx => h.numbered x (hsub.subset hx), ?_, fun s hs => ?_, fun s hs => ?_, ?_⟩
  · show _ ≤ b.queue.limit
    omega
  · refine pairwise_append.mpr ⟨h.ordered, pairwise_singleton _ _, ?_⟩
    intro s hs t ht hst
    obtain rfl : t = b.returns now p := by simpa using ht
    exact (h.passed s hs).2 p hp hst.symm
  · rcases hmem s hs with hs | rfl
    · exact ⟨(h.passed s hs).1, fun x hx => (h.passed s hs).2 x (hsub.subset hx)⟩
    · refine ⟨h.numbered p hp, fun x hx hdst => ?_⟩
      rcases mem_append.mp hx with hx | hx
      · exact absurd hdst (hfirst x hx)
      · exact hafter x hx
  · rcases hmem s hs with hs | rfl
    · exact h.inTime s hs
    · exact hnow.trans (h.stamped p hp).le
  · refine perm_iff_count.mpr (fun a => ?_)
    have hall := h.all.count_eq a
    simp only [List.count_append, gone, List.count_cons] at hall
    simp only [List.count_append, gone, answer, returns, Option.toList_some, map_append,
      map_cons, map_nil, List.count_cons, List.count_nil]
    omega

theorem Inv.pass (h : Inv b xs lost) (now : ℚ) (L : TailList) :
    Inv (b.answer now (none, { b.queue with list := L })) xs lost := by
  have heq : b.answer now (none, { b.queue with list := L }) =
      { b with queue := { b.queue with list := L }, now } := by simp [answer]
  rw [heq]
  exact ⟨h.limit, h.bound, h.stamped, h.sorted, h.numbered, h.ordered, h.passed, h.inTime, h.all⟩

theorem Inv.drop {out : List (ℕ × QueueDrop)} (h : Inv b (out.map Prod.fst ++ ys) lost) :
    Inv { b with dropped := b.dropped ++ out } ys lost := by
  have hsub : ys.Sublist (out.map Prod.fst ++ ys) := sublist_append_right _ _
  have hlen := hsub.length_le
  have hbound := h.bound
  refine ⟨h.limit, ?_, fun x hx => h.stamped x (hsub.subset hx), h.sorted.sublist hsub,
    fun x hx => h.numbered x (hsub.subset hx), h.ordered, fun r hr => ?_, h.inTime, ?_⟩
  · dsimp only
    omega
  · exact ⟨(h.passed r hr).1, fun x hx => (h.passed r hr).2 x (hsub.subset hx)⟩
  · refine perm_iff_count.mpr (fun a => ?_)
    have hall := h.all.count_eq a
    simp only [List.count_append, gone, map_append] at hall ⊢
    omega

theorem Inv.push (h : Inv b xs lost) (hp : p ∉ xs) (hlt : (xs.length : ℤ) < b.queue.limit)
    (L : TailList) (now : ℚ) (dst : ℤ) :
    Inv
      { b with
        queue :=
          { b.queue with
            list := L
            ts := update b.queue.ts p (now + b.queue.timeout)
            daddr := update b.queue.daddr p dst }
        now
        enqueued := b.enqueued ++ [p]
        number := update b.number p b.enqueued.length
        since := update b.since p now }
      (xs ++ [p]) lost := by
  have hne : ∀ x ∈ xs, x ≠ p := fun x hx he => hp (he ▸ hx)
  have hnumber : ∀ x ∈ xs, update b.number p b.enqueued.length x = b.number x :=
    fun x hx => update_of_ne (hne x hx) _ _
  refine ⟨h.limit, ?_, fun x hx => ?_, ?_, fun x hx => ?_, h.ordered, fun r hr => ⟨?_, ?_⟩, h.inTime, ?_⟩
  · rw [length_append, length_singleton]
    dsimp only
    omega
  · rcases mem_append.mp hx with hx | hx
    · simp only [update_of_ne (hne x hx)]
      exact h.stamped x hx
    · rw [mem_singleton.mp hx]
      simp only [update_self]
  · refine pairwise_append.mpr ⟨?_, pairwise_singleton _ _, fun x hx y hy => ?_⟩
    · refine h.sorted.imp_of_mem (fun {x y} hx hy hxy => ?_)
      simp only [hnumber x hx, hnumber y hy]
      exact hxy
    · rw [mem_singleton.mp hy]
      simp only [hnumber x hx, update_self]
      exact h.numbered x hx
  · rw [length_append, length_singleton]
    rcases mem_append.mp hx with hx | hx
    · have hlt := h.numbered x hx
      simp only [hnumber x hx]
      omega
    · rw [mem_singleton.mp hx]
      simp only [update_self]
      omega
  · have hlt := (h.passed r hr).1
    rw [length_append, length_singleton]
    omega
  · intro x hx hdst
    rcases mem_append.mp hx with hx | hx
    · simp only [update_of_ne (hne x hx)] at hdst ⊢
      exact (h.passed r hr).2 x hx hdst
    · rw [mem_singleton.mp hx]
      simp only [update_self]
      exact (h.passed r hr).1
  · refine perm_iff_count.mpr (fun a => ?_)
    have hall := h.all.count_eq a
    simp only [List.count_append, gone] at hall ⊢
    omega

/-! ## Calls and runs -/

/-- **A call** goes through, and what it loses are the packets that have timed out. -/
theorem Inv.step (h : Inv b xs lost) (hh : b.queue.list.Holds xs) (hc : b.Admits c)
    (hf : aodvRtqMaxLen < fuel) (now : ℚ) :
    ∃ b' ys, b.step fuel now c = some b' ∧ b'.queue.list.Holds ys ∧
      Inv b' ys (lost ++ b.queue.aged now xs) := by
  have hlimit : b.queue.limit = (64 : ℕ) := h.limit
  have hbound := h.bound
  have hroom : (64 : ℕ) < fuel := hf
  have hlen : xs.length < fuel := by omega
  have hpurged := h.purge now
  cases c with
  | enque p dst =>
    have hp : p ∉ xs := fun hmem => hc ((queued_iff hh).mpr hmem)
    obtain ⟨L, dropped, rest, hcall, hL, hsplit, hlt⟩ :=
      @Rqueue.enque_spec { b.queue with daddr := update b.queue.daddr p dst } xs p fuel hh hp
        hbound (by dsimp only; omega) (by dsimp only; omega) now
    have hkept : b.queue.kept now xs = dropped.map Prod.fst ++ rest := hsplit
    have hpr : p ∉ rest := fun hmem =>
      hp (Rqueue.mem_kept.mp (by rw [hkept]; exact mem_append_right _ hmem)).1
    rw [hkept] at hpurged
    refine ⟨_, rest ++ [p], by rw [Buffer.step, hcall, Option.map_some], hL, ?_⟩
    exact hpurged.drop.push hpr hlt L now dst
  | deque =>
    obtain ⟨L, out, rest, hcall, hL, hsplit⟩ := Rqueue.deque_spec hh hlen now
    refine ⟨_, rest, by rw [Buffer.step, hcall, Option.map_some], hL, ?_⟩
    cases out with
    | none =>
      rw [hsplit] at hpurged
      exact hpurged.pass now L
    | some p =>
      have hp : p ∈ b.queue.kept now xs := by rw [hsplit]; simp
      rw [hsplit] at hpurged
      exact Inv.take (l := []) hpurged L (Rqueue.mem_kept.mp hp).2 (by simp)
  | dequeDst dst =>
    obtain ⟨L, out, before, rest, hcall, hL, hsplit, hdst, hfirst⟩ :=
      Rqueue.dequeDst_spec hh hlen now dst
    refine ⟨_, before ++ rest, by rw [Buffer.step, hcall, Option.map_some], hL, ?_⟩
    cases out with
    | none =>
      have hkept : b.queue.kept now xs = before ++ rest := by simpa using hsplit
      rw [hkept] at hpurged
      exact hpurged.pass now L
    | some p =>
      have hkept : b.queue.kept now xs = before ++ p :: rest := by simpa using hsplit
      have hp : p ∈ b.queue.kept now xs := by rw [hkept]; simp
      have hpdst : b.queue.daddr p = dst := hdst p rfl
      rw [hkept] at hpurged
      refine hpurged.take L (Rqueue.mem_kept.mp hp).2 (fun x hx => ?_)
      rw [hpdst]
      exact hfirst rfl x hx

theorem Reaches.inv {C : Buffer → ℚ → Prop} (hf : aodvRtqMaxLen < fuel) (h : Reaches fuel C b) :
    ∃ xs lost, b.queue.list.Holds xs ∧ Inv b xs lost := by
  induction h with
  | init now => exact ⟨[], [], TailList.holds_empty, inv_init now⟩
  | @call b b' now c _ _ hc _ hstep ih =>
    obtain ⟨xs, lost, hh, hinv⟩ := ih
    obtain ⟨b₁, ys, hcall, hh', hinv'⟩ := hinv.step hh hc hf now
    obtain rfl : b₁ = b' := Option.some.inj (hcall.symm.trans hstep)
    exact ⟨ys, _, hh', hinv'⟩

theorem Reaches.conserves_iff {C : Buffer → ℚ → Prop} (hf : aodvRtqMaxLen < fuel)
    (h : Reaches fuel C b) (hc : b.Admits c) (hstep : b.step fuel now c = some b') :
    b'.Conserves ↔ b.Conserves ∧ b.Timely now := by
  obtain ⟨xs, lost, hh, hinv⟩ := h.inv hf
  obtain ⟨b₁, ys, hcall, hh', hinv'⟩ := hinv.step hh hc hf now
  obtain rfl : b₁ = b' := Option.some.inj (hcall.symm.trans hstep)
  rw [hinv'.conserves hh', hinv.conserves hh, timely_iff hh]
  exact append_eq_nil_iff

theorem Reaches.conserves (hf : aodvRtqMaxLen < fuel) (h : Reaches fuel Timely b) : b.Conserves := by
  induction h with
  | init now => exact ((inv_init now).conserves TailList.holds_empty).mpr rfl
  | call hb _ hc htimely hstep ih => exact (hb.conserves_iff hf hc hstep).mpr ⟨ih, htimely⟩

/-- The queue is a list of at most `limit` packets that the three fields describe, and what it returned
came out in order and in time. -/
structure Sound (fuel : ℕ) (b : Buffer) : Prop where
  described : ∃ xs, b.queue.list.Holds xs ∧ (xs.length : ℤ) ≤ b.queue.limit
  verified : b.queue.verifyQueue fuel = true
  ordered : b.Ordered
  inTime : b.InTime
  served : ∀ now c, b.Admits c → (b.step fuel now c).isSome = true

theorem Reaches.sound {C : Buffer → ℚ → Prop} (hf : aodvRtqMaxLen < fuel) (h : Reaches fuel C b) :
    b.Sound fuel := by
  obtain ⟨xs, lost, hh, hinv⟩ := h.inv hf
  have hlimit : b.queue.limit = (64 : ℕ) := hinv.limit
  have hbound := hinv.bound
  have hroom : (64 : ℕ) < fuel := hf
  refine ⟨⟨xs, hh, hbound⟩, Rqueue.verifyQueue_of_holds hh (by omega), hinv.ordered, hinv.inTime, ?_⟩
  intro now c hc
  obtain ⟨b', ys, hcall, -⟩ := hinv.step hh hc hf now
  rw [hcall]
  rfl

/-- **The send buffer conserves the packets of a run whose calls find no packet in the queue that has
timed out**, and a call that finds one loses it. Whatever the calls find, they keep the queue, and its
order and its deadlines. -/
theorem send_buffer_conserves (hf : aodvRtqMaxLen < fuel) :
    (∀ b, Reaches fuel (fun _ _ => True) b → b.Sound fuel) ∧
    (∀ b, Reaches fuel Timely b → b.Conserves) ∧
    (∀ b b' now c, Reaches fuel (fun _ _ => True) b → b.Admits c → b.step fuel now c = some b' →
      (b'.Conserves ↔ b.Conserves ∧ b.Timely now)) :=
  ⟨fun _ h => h.sound hf, fun _ h => h.conserves hf,
    fun _ _ _ _ h hc hstep => h.conserves_iff hf hc hstep⟩

/-- A packet is enqueued at time 0. -/
def waiting : Option Buffer := (init 0).step 65 0 (.enque 7 1)

/-- A `deque` at the time `now`, after that. -/
def waitedUntil (now : ℚ) : Option Buffer := waiting.bind (fun b => b.step 65 now .deque)

theorem reaches_waiting {C : Buffer → ℚ → Prop} (hmeets : C (init 0) 0) (h : waiting = some b) :
    Reaches 65 C b :=
  .call (.init 0) le_rfl (fun hq => by simpa using (queued_iff TailList.holds_empty).mp hq) hmeets h

/-- After ten seconds the packet is returned. -/
theorem send_buffer_conserves_waiting :
    ∃ b ∈ waitedUntil 10, b.returned.map Returned.packet = [7] ∧ b.Conserves := by
  obtain ⟨b₁, hb₁⟩ : ∃ b, waiting = some b := Option.isSome_iff_exists.mp (by decide +kernel)
  obtain ⟨b, hb⟩ : ∃ b, waitedUntil 10 = some b := Option.isSome_iff_exists.mp (by decide +kernel)
  have hstart : waiting.map (fun b => (b.enqueued, b.gone, b.queue.ts 7, decide (b.now ≤ 10))) =
      some ([7], [], 30, true) := by decide +kernel
  have hend : (waitedUntil 10).map (fun b => b.returned.map Returned.packet) = some [7] := by decide +kernel
  rw [hb₁] at hstart
  rw [hb] at hend
  obtain ⟨henqueued, hgone, hts, hnow⟩ := by
    simpa only [Option.map_some, Option.some.injEq, Prod.mk.injEq, decide_eq_true_eq] using hstart
  have hconserves := (send_buffer_conserves (show aodvRtqMaxLen < 65 by decide)).2.1
  have hreach : Reaches 65 Timely b₁ := reaches_waiting ((timely_iff TailList.holds_empty).mpr rfl) hb₁
  obtain ⟨xs, hxs, hperm⟩ := hconserves b₁ hreach
  rw [henqueued, hgone, nil_append, perm_comm, perm_singleton] at hperm
  subst hperm
  have htimely : b₁.Timely 10 := by
    intro p hp
    rw [mem_singleton.mp ((queued_iff hxs).mp hp), hts]
    norm_num
  have hstep : b₁.step 65 10 .deque = some b := by
    rw [waitedUntil, hb₁, Option.bind_some] at hb
    exact hb
  exact ⟨b, hb, Option.some.inj hend, hconserves b (.call (c := .deque) hreach hnow trivial htimely hstep)⟩

/-- A packet waits for 31 seconds; the next `deque` unlinks it, and it is neither returned nor
dropped. -/
theorem purged_packet_lost : ∃ b, Reaches 65 (fun _ _ => True) b ∧ b.enqueued = [7] ∧
    b.returned = [] ∧ b.dropped = [] ∧ b.queue.list.head = none ∧ ¬ b.Conserves := by
  obtain ⟨b₁, hb₁⟩ : ∃ b, waiting = some b := Option.isSome_iff_exists.mp (by decide +kernel)
  obtain ⟨b, hb⟩ : ∃ b, waitedUntil 31 = some b := Option.isSome_iff_exists.mp (by decide +kernel)
  have hnow : waiting.map (fun b => decide (b.now ≤ 31)) = some true := by decide +kernel
  have hend : (waitedUntil 31).map (fun b => (b.enqueued, b.returned, b.dropped, b.queue.list.head)) =
      some ([7], [], [], none) := by decide +kernel
  rw [hb₁] at hnow
  rw [hb] at hend
  obtain ⟨henqueued, hreturned, hdropped, hhead⟩ := by
    simpa only [Option.map_some, Option.some.injEq, Prod.mk.injEq] using hend
  have hstep : b₁.step 65 31 .deque = some b := by
    rw [waitedUntil, hb₁, Option.bind_some] at hb
    exact hb
  refine ⟨b, .call (c := .deque) (reaches_waiting trivial hb₁) ?_ trivial trivial hstep, henqueued, hreturned, hdropped,
    hhead, ?_⟩
  · simpa using hnow
  · rintro ⟨xs, hxs, hperm⟩
    have hnil : xs = [] := head?_eq_none_iff.mp (hxs.head.symm.trans hhead)
    rw [hnil, henqueued, gone, hreturned, hdropped] at hperm
    exact absurd hperm.length_eq (by decide)

end Buffer

end NetSim.Aodv
