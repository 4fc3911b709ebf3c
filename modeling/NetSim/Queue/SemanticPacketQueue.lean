import Mathlib
import NetSim.Lib.ForwardList

/-! # A packet queue with semantics

`SemanticPacketQueue` (`queue/semantic-packetqueue.cc`) is a list of packets in their own memory, with counts
of the acknowledgements and of the marked packets. It can send acknowledgements first, and it can purge the
acknowledgements that a new one makes stale: the new one stays at the tail, or takes the place of the first
that is purged.

The operations follow the pointers of the source. A loop has a bound on its rounds and fails (`none`) when
it runs out of it, when a null pointer is followed, or where the source aborts.
-/

namespace NetSim

open Function List

structure FlowAddresses where
  saddr : ℤ
  sport : ℤ
  daddr : ℤ
  dport : ℤ
deriving DecidableEq

structure SemanticPacket where
  ip : FlowAddresses
  isAck : Bool
  seqno : ℤ
  size : ℤ
  isMarked : Bool

/-- The variables that set the policy of the queue. -/
structure SemanticPolicy where
  acksfirst : Bool
  filteracks : Bool
  replaceHead : Bool

/-- `SemanticPacketQueue`, with the `next_` of the packets and the list `free_` of the packets that were
freed. -/
structure SemanticPacketQueue where
  next : ℕ → Option ℕ
  free : Option ℕ
  head : Option ℕ
  tail : Option ℕ
  len : ℤ
  bytes : ℤ
  ackCount : ℤ
  dataCount : ℤ
  markedCount : ℤ
  unmarkedCount : ℤ

def compareFlows (ip1 ip2 : FlowAddresses) : Prop :=
  ip1.saddr = ip2.saddr ∧ ip1.sport = ip2.sport ∧ ip1.daddr = ip2.daddr ∧ ip1.dport = ip2.dport

instance (ip1 ip2 : FlowAddresses) : Decidable (compareFlows ip1 ip2) :=
  inferInstanceAs (Decidable (_ ∧ _))

namespace SemanticPacketQueue

def init : SemanticPacketQueue where
  next := fun _ => none
  free := none
  head := none
  tail := none
  len := 0
  bytes := 0
  ackCount := 0
  dataCount := 0
  markedCount := 0
  unmarkedCount := 0

variable (info : ℕ → SemanticPacket) (policy : SemanticPolicy)

def pushBack (s : SemanticPacketQueue) (p : ℕ) : SemanticPacketQueue :=
  let s :=
    match s.tail with
    | none => { s with head := some p, tail := some p }
    | some t => { s with next := update s.next t (some p), tail := some p }
  { s with
    next := update s.next p none
    len := s.len + 1
    bytes := s.bytes + (info p).size }

def popFront (s : SemanticPacketQueue) : SemanticPacketQueue × Option ℕ :=
  match s.head with
  | none => (s, none)
  | some p =>
    let s :=
      if s.tail = some p then { s with head := none, tail := none } else { s with head := s.next p }
    ({ s with len := s.len - 1, bytes := s.bytes - (info p).size }, some p)

/-- The packet `p` leaves its place behind `prev`. -/
def unlink (s : SemanticPacketQueue) (p prev : ℕ) : SemanticPacketQueue :=
  { s with
    next := update s.next prev (s.next p)
    tail := if s.tail = some p then some prev else s.tail
    len := s.len - 1
    bytes := s.bytes - (info p).size }

/-- `PacketQueue::remove` of a packet with the one before it. -/
def removeBehind (s : SemanticPacketQueue) (pkt prev : Option ℕ) : Option SemanticPacketQueue :=
  match pkt with
  | none => some s
  | some p => if s.head = some p then some (s.popFront info).1 else prev.map (s.unlink info p)

/-- The loop of `deque_acksfirst`: the first acknowledgement from `p` on, with the packet before it. -/
def findAck (s : SemanticPacketQueue) : ℕ → Option ℕ → Option ℕ → Option (Option ℕ × Option ℕ)
  | 0, _, _ => none
  | _ + 1, pp, none => some (none, pp)
  | fuel + 1, pp, some p =>
    if (info p).isAck then some (some p, pp) else findAck s fuel (some p) (s.next p)

def dequeAcksfirst (fuel : ℕ) (s : SemanticPacketQueue) : Option (SemanticPacketQueue × Option ℕ) :=
  if 0 < s.ackCount then
    (s.findAck info fuel none s.head).bind (fun r => (s.removeBehind info r.1 r.2).map (fun s => (s, r.1)))
  else some (s.popFront info)

/-- The counts of the kinds of packets after `p` has left. -/
def discount (s : SemanticPacketQueue) (p : ℕ) : SemanticPacketQueue :=
  let s :=
    if (info p).isAck then { s with ackCount := s.ackCount - 1 } else { s with dataCount := s.dataCount - 1 }
  if (info p).isMarked then { s with markedCount := s.markedCount - 1 }
  else { s with unmarkedCount := s.unmarkedCount - 1 }

def deque (fuel : ℕ) (s : SemanticPacketQueue) : Option (SemanticPacketQueue × Option ℕ) :=
  (if policy.acksfirst then s.dequeAcksfirst info fuel else some (s.popFront info)).map (fun r =>
    match r.2 with
    | none => r
    | some p => (r.1.discount info p, some p))

/-- The loop of `PacketQueue::remove`; the head is removed by the virtual `deque`. -/
def removeLoop (target fuel' : ℕ) (s : SemanticPacketQueue) :
    ℕ → Option ℕ → Option ℕ → Option SemanticPacketQueue
  | 0, _, _ => none
  | _ + 1, _, none => none
  | fuel + 1, pp, some p =>
    if p = target then
      match pp with
      | none => (s.deque info policy fuel').map Prod.fst
      | some pp => some (s.unlink info p pp)
    else removeLoop target fuel' s fuel (some p) (s.next p)

def removeTarget (fuel : ℕ) (s : SemanticPacketQueue) (target : ℕ) : Option SemanticPacketQueue :=
  s.removeLoop info policy target fuel fuel none s.head

def remove (fuel : ℕ) (s : SemanticPacketQueue) (p : ℕ) : Option SemanticPacketQueue :=
  (s.removeTarget info policy fuel p).map (fun s => s.discount info p)

def freePacket (s : SemanticPacketQueue) (p : ℕ) : SemanticPacketQueue :=
  { s with next := update s.next p s.free, free := some p }

/-- The queued packet `p` is an acknowledgement that the new one `pkt` makes stale. -/
def Stale (replaceHead : Bool) (pkt p : ℕ) : Prop :=
  compareFlows (info p).ip (info pkt).ip ∧ (info p).isAck = true ∧
    ((info p).seqno < (info pkt).seqno ∨ (replaceHead = true ∧ (info p).seqno = (info pkt).seqno))

instance (replaceHead : Bool) (pkt p : ℕ) : Decidable (Stale info replaceHead pkt p) :=
  inferInstanceAs (Decidable (_ ∧ _))

/-- The loop of `filterAcks` at `p`, with the packet `pp` before it. -/
def filterLoop (replaceHead : Bool) (pkt fuel' : ℕ) :
    ℕ → SemanticPacketQueue → Option ℕ → Option ℕ → Bool → Option SemanticPacketQueue
  | 0, _, _, _, _ => none
  | _ + 1, s, none, _, _ => some s
  | fuel + 1, s, some p, pp, done =>
    if Stale info replaceHead pkt p then
      if replaceHead ∧ pkt ≠ p ∧ ¬ done then
        -- the new acknowledgement moves before the first stale one
        (s.removeTarget info policy fuel' pkt).bind (fun s =>
          let s := { s with ackCount := s.ackCount - 1, next := update s.next pkt (some p) }
          let s :=
            match pp with
            | none => s
            | some pp => { s with next := update s.next pp (some pkt) }
          filterLoop replaceHead pkt fuel' fuel s (some p) (some pkt) true)
      else if done ∨ pkt ≠ p then
        let newP := s.next p
        (s.removeBehind info (some p) pp).bind (fun s =>
          let s := s.freePacket p
          filterLoop replaceHead pkt fuel' fuel { s with ackCount := s.ackCount - 1 } newP pp done)
      else filterLoop replaceHead pkt fuel' fuel s (s.next p) (some p) done
    else filterLoop replaceHead pkt fuel' fuel s (s.next p) (some p) done

def filterAcks (fuel : ℕ) (s : SemanticPacketQueue) (pkt : ℕ) (replaceHead : Bool) :
    Option SemanticPacketQueue :=
  filterLoop info policy replaceHead pkt fuel fuel s s.head s.head false

/-- The counts of the kinds of packets with `p`. -/
def count (s : SemanticPacketQueue) (p : ℕ) : SemanticPacketQueue :=
  let s :=
    if (info p).isAck then { s with ackCount := s.ackCount + 1 } else { s with dataCount := s.dataCount + 1 }
  if (info p).isMarked then { s with markedCount := s.markedCount + 1 }
  else { s with unmarkedCount := s.unmarkedCount + 1 }

/-- `SemanticPacketQueue::enque` without a reconstructor; it returns the packet that was the last. -/
def enque (fuel : ℕ) (s : SemanticPacketQueue) (pkt : ℕ) : Option (SemanticPacketQueue × Option ℕ) :=
  let pt := s.tail
  let s := (s.count info pkt).pushBack info pkt
  if policy.filteracks ∧ (info pkt).isAck then
    (s.filterAcks info policy fuel pkt policy.replaceHead).map (fun s => (s, pt))
  else some (s, pt)

inductive Call
  | enque (pkt : ℕ)
  | deque
  | remove (pkt : ℕ)

def step (fuel : ℕ) (s : SemanticPacketQueue) : Call → Option (SemanticPacketQueue × Option ℕ)
  | .enque pkt => s.enque info policy fuel pkt
  | .deque => s.deque info policy fuel
  | .remove pkt => (s.remove info policy fuel pkt).map (fun s => (s, none))

/-- The queue consists of the packets `l`, in this order. -/
structure Links (s : SemanticPacketQueue) (l : List ℕ) : Prop where
  chain : LinkedList.Chain s.next s.head l
  nodup : l.Nodup
  tail : s.tail = l.getLast?
  len : s.len = l.length
  bytes : s.bytes = (l.map (fun p => (info p).size)).sum

/-- The counts of the kinds of packets are those of `l`. -/
structure Counts (s : SemanticPacketQueue) (l : List ℕ) : Prop where
  acks : s.ackCount = l.countP (fun p => (info p).isAck)
  data : s.dataCount = l.countP (fun p => !(info p).isAck)
  marked : s.markedCount = l.countP (fun p => (info p).isMarked)
  unmarked : s.unmarkedCount = l.countP (fun p => !(info p).isMarked)

/-- The queue consists of the packets `l` and counts them. -/
structure Holds (s : SemanticPacketQueue) (l : List ℕ) : Prop extends Links info s l, Counts info s l

variable {info policy}
variable {s s' : SemanticPacketQueue} {l a r : List ℕ} {p pkt q fuel : ℕ}

theorem holds_init : Holds info init [] where
  chain := rfl
  nodup := nodup_nil
  tail := rfl
  len := rfl
  bytes := rfl
  acks := rfl
  data := rfl
  marked := rfl
  unmarked := rfl

theorem Links.head (h : Links info s l) : s.head = l.head? := h.chain.head_eq

/-! ## Counting -/

theorem countP_add_countP (f : ℕ → Bool) (l : List ℕ) :
    (l.countP f : ℤ) + l.countP (fun p => !f p) = l.length := by
  have hsum := length_eq_countP_add_countP f (l := l)
  have hneg : (fun p => decide ¬ f p = true) = fun p => !f p := by
    funext p
    cases f p <;> rfl
  rw [hneg] at hsum
  omega

theorem Counts.acks_data (h : Counts info s l) : s.ackCount + s.dataCount = l.length := by
  rw [h.acks, h.data]
  exact countP_add_countP _ l

theorem Counts.marked_unmarked (h : Counts info s l) : s.markedCount + s.unmarkedCount = l.length := by
  rw [h.marked, h.unmarked]
  exact countP_add_countP _ l

theorem Counts.perm (h : Counts info s l) (hperm : l.Perm r) : Counts info s r := by
  constructor
  · rw [h.acks, hperm.countP_eq]
  · rw [h.data, hperm.countP_eq]
  · rw [h.marked, hperm.countP_eq]
  · rw [h.unmarked, hperm.countP_eq]

theorem Counts.count (h : Counts info s l) (p : ℕ) : Counts info (s.count info p) (p :: l) := by
  obtain ⟨hacks, hdata, hmarked, hunmarked⟩ := h
  constructor <;> unfold SemanticPacketQueue.count <;>
    cases hack : (info p).isAck <;> cases hmark : (info p).isMarked <;>
    simp [hack, hmark, hacks, hdata, hmarked, hunmarked]

theorem Counts.discount (h : Counts info s (p :: l)) : Counts info (s.discount info p) l := by
  obtain ⟨hacks, hdata, hmarked, hunmarked⟩ := h
  constructor <;> unfold SemanticPacketQueue.discount <;>
    cases hack : (info p).isAck <;> cases hmark : (info p).isMarked <;>
    simp_all

theorem Links.count (h : Links info s l) (p : ℕ) : Links info (s.count info p) l := by
  unfold SemanticPacketQueue.count
  split_ifs <;> exact ⟨h.chain, h.nodup, h.tail, h.len, h.bytes⟩

theorem Links.discount (h : Links info s l) (p : ℕ) : Links info (s.discount info p) l := by
  unfold SemanticPacketQueue.discount
  split_ifs <;> exact ⟨h.chain, h.nodup, h.tail, h.len, h.bytes⟩

theorem Counts.of_eq (h : Counts info s l) (hacks : s'.ackCount = s.ackCount)
    (hdata : s'.dataCount = s.dataCount) (hmarked : s'.markedCount = s.markedCount)
    (hunmarked : s'.unmarkedCount = s.unmarkedCount) : Counts info s' l := by
  constructor
  · rw [hacks, h.acks]
  · rw [hdata, h.data]
  · rw [hmarked, h.marked]
  · rw [hunmarked, h.unmarked]

/-! ## The list operations -/

theorem Links.pushBack (h : Links info s l) (hp : p ∉ l) : Links info (s.pushBack info p) (l ++ [p]) := by
  have hnodup : (l ++ [p]).Nodup := by
    rw [nodup_append']
    exact ⟨h.nodup, nodup_singleton p, by simpa using hp⟩
  have hlen : s.len + 1 = ((l ++ [p]).length : ℤ) := by
    rw [h.len]
    simp
  have hbytes : s.bytes + (info p).size = ((l ++ [p]).map (fun p => (info p).size)).sum := by
    rw [h.bytes]
    simp
  unfold SemanticPacketQueue.pushBack
  rcases eq_nil_or_concat l with rfl | ⟨l, t, hl⟩
  · have htail : s.tail = none := h.tail
    rw [htail]
    exact ⟨⟨rfl, update_self ..⟩, hnodup, rfl, hlen, hbytes⟩
  · rw [concat_eq_append] at hl
    subst hl
    have htail : s.tail = some t := by
      rw [h.tail]
      simp
    have hne : p ≠ t := fun heq => hp (by simp [heq])
    rw [htail]
    dsimp only
    refine ⟨?_, hnodup, by simp, hlen, hbytes⟩
    rw [append_assoc]
    refine h.chain.insertAfter h.nodup hp (update_self ..) ?_ ?_
    · show update (update s.next t (some p)) p none t = some p
      rw [update_of_ne hne.symm, update_self]
    · intro x hxt hxp
      show update (update s.next t (some p)) p none x = s.next x
      rw [update_of_ne hxp, update_of_ne hxt]

theorem Links.popFront (h : Links info s (p :: l)) :
    ∃ s', s.popFront info = (s', some p) ∧ Links info s' l := by
  obtain ⟨hp, hnodup⟩ := nodup_cons.mp h.nodup
  have hlen : s.len - 1 = (l.length : ℤ) := by
    rw [h.len]
    simp
  have hbytes : s.bytes - (info p).size = (l.map (fun p => (info p).size)).sum := by
    rw [h.bytes]
    simp
  unfold SemanticPacketQueue.popFront
  rw [h.head, head?_cons]
  refine ⟨_, rfl, ?_⟩
  cases l with
  | nil =>
    have htail : s.tail = some p := h.tail
    rw [if_pos htail]
    exact ⟨rfl, hnodup, rfl, hlen, hbytes⟩
  | cons x l =>
    have htail : s.tail = (x :: l).getLast? := h.tail.trans getLast?_cons_cons
    have hne : s.tail ≠ some p := by
      rw [htail]
      intro heq
      exact hp (mem_of_getLast? heq)
    rw [if_neg hne]
    exact ⟨h.chain.tail, hnodup, htail, hlen, hbytes⟩

theorem Links.unlink (h : Links info s (a ++ q :: p :: r)) :
    Links info (s.unlink info p q) (a ++ q :: r) := by
  have hsub : (a ++ q :: r).Sublist (a ++ q :: p :: r) := by simp
  have hnodup := h.nodup
  refine ⟨?_, hnodup.sublist hsub, ?_, ?_, ?_⟩
  · exact h.chain.removeAfter hnodup (update_self ..) (fun x hx => update_of_ne hx _ _)
  · show (if s.tail = some p then some q else s.tail) = _
    have hp : p ∉ r := (nodup_cons.mp (nodup_cons.mp (List.nodup_append.mp hnodup).2.1).2).1
    rw [h.tail]
    cases r with
    | nil => simp
    | cons x r =>
      have htail : (a ++ q :: p :: x :: r).getLast? = (x :: r).getLast? := by
        rw [getLast?_append_cons, getLast?_cons_cons, getLast?_cons_cons]
      have hne : (x :: r).getLast? ≠ some p := by
        intro heq
        exact hp (mem_of_getLast? heq)
      rw [htail, if_neg hne, getLast?_append_cons, getLast?_cons_cons]
  · show s.len - 1 = _
    rw [h.len]
    simp
    ring
  · show s.bytes - (info p).size = _
    rw [h.bytes]
    simp
    ring

theorem Links.removeBehind (h : Links info s (a ++ p :: r)) :
    ∃ s', s.removeBehind info (some p) a.getLast? = some s' ∧ Links info s' (a ++ r) := by
  rcases eq_nil_or_concat a with rfl | ⟨a, q, ha⟩
  · obtain ⟨s', hpop, hlinks⟩ := Links.popFront h
    have hhead : s.head = some p := h.head
    refine ⟨s', ?_, hlinks⟩
    unfold SemanticPacketQueue.removeBehind
    dsimp only
    rw [if_pos hhead, hpop]
  · rw [concat_eq_append] at ha
    subst ha
    have hhead : s.head ≠ some p := by
      rw [h.head, head?_append_of_ne_nil _ (by simp)]
      intro heq
      have hmem := mem_of_head? heq
      exact (List.nodup_append.mp h.nodup).2.2 p hmem p mem_cons_self rfl
    rw [append_assoc, singleton_append] at h
    refine ⟨s.unlink info p q, ?_, ?_⟩
    · unfold SemanticPacketQueue.removeBehind
      dsimp only
      rw [if_neg hhead]
      simp
    · rw [append_assoc, singleton_append]
      exact h.unlink

end SemanticPacketQueue

end NetSim
