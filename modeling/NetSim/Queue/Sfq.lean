import NetSim.Lib.CyclicList
import NetSim.Lib.Runs

/-! # Stochastic fair queueing

`SFQ` (`queue/sfq.cc`) hashes the addresses of a packet to one of its buckets and serves the buckets that
are not empty in a circle, one packet each. The array of the buckets is allocated by the first arrival or
departure and freed by `clear`, when the number of buckets is changed.

The hash is computed in 32 bits, and a sum that does not fit wraps around.
-/

namespace NetSim

open Function

/-- The sum that both fair queues hash, with arithmetic shifts. -/
def mixAddress (k : BitVec 32) : ℤ := (k + k.sshiftRight 8 + ~~~(k.sshiftRight 4)).toInt

def InRange (buckets : ℕ) (i : ℤ) : Prop := 0 ≤ i ∧ i < buckets

instance (buckets : ℕ) (i : ℤ) : Decidable (InRange buckets i) := inferInstanceAs (Decidable (_ ∧ _))

structure SfqPacket where
  saddr : BitVec 32
  daddr : BitVec 32
deriving DecidableEq

/-- `PacketSFQ`; the links `prev` and `next` are kept by the queue. -/
structure PacketSFQ where
  queue : List SfqPacket
  pkts : ℕ

/-- `SFQ`. The array `bucket` is null or has a number of buckets. -/
structure Sfq where
  maxqueue : ℤ
  buckets : ℕ
  allocated : Option ℕ
  bucket : ℕ → PacketSFQ
  active : Option ℕ
  occupied : ℤ
  fairshare : ℤ
  prev : ℕ → ℕ
  next : ℕ → ℕ

/-- What stops the loop of `clear`: the exit for a bucket that is occupied, or a bucket outside of the
array. -/
inductive ClearStop
  | exit
  | outside
deriving DecidableEq

/-- The loop of `clear` with the counter `i` at bucket `q`: `pkts` are the packets of the buckets, `size`
is the length of the array and `count` is what a round does to the counter. It gives the buckets that were
looked at; `none` stands for a loop that still runs. -/
def clearLoop (pkts : ℕ → ℕ) (size : ℕ) (count : ℕ → ℕ) :
    ℕ → ℕ → ℕ → List ℕ → Option (Except ClearStop (List ℕ))
  | 0, _, _, _ => none
  | fuel + 1, i, q, seen =>
    if i = 0 then some (.ok seen)
    else if size ≤ q then some (.error .outside)
    else if pkts q ≠ 0 then some (.error .exit)
    else clearLoop pkts size count fuel (count i) (q + 1) (seen ++ [q])

namespace Sfq

def init (maxqueue : ℤ) (buckets : ℕ) : Sfq where
  maxqueue := maxqueue
  buckets := buckets
  allocated := none
  bucket := fun _ => ⟨[], 0⟩
  active := none
  occupied := 0
  fairshare := 0
  prev := fun _ => 0
  next := fun _ => 0

def initsfq (s : Sfq) : Sfq :=
  { s with
    allocated := some s.buckets
    bucket := fun _ => ⟨[], 0⟩
    active := none
    occupied := 0
    fairshare := s.maxqueue.tdiv s.buckets }

/-- The beginning of `enque` and `deque`. -/
def ready (s : Sfq) : Sfq :=
  match s.allocated with
  | none => s.initsfq
  | some _ => s

def hash (pkt : SfqPacket) : ℤ := (mixAddress (pkt.saddr + pkt.daddr)).tmod ((2 : ℤ) <<< 19 - 1)

def index (s : Sfq) (pkt : SfqPacket) : ℤ := (hash pkt).tmod s.buckets

/-- `PacketSFQ::activate`, with the head `active`, to which the result is assigned. -/
def activate (s : Sfq) (q : ℕ) : Sfq :=
  match s.active with
  | some head =>
    let prev := update s.prev q (s.prev head)
    let next := update s.next q head
    let next := update next (prev head) q
    let prev := update prev head q
    { s with prev, next }
  | none =>
    { s with
      prev := update s.prev q q
      next := update s.next q q
      active := some q }

/-- `PacketSFQ::idle` of the head; the result is assigned to `active`. -/
def idle (s : Sfq) (q : ℕ) : Sfq :=
  if s.next q = q then { s with active := none }
  else
    let prev := update s.prev (s.next q) (s.prev q)
    let next := update s.next (prev q) (s.next q)
    { s with prev, next, active := some (next q) }

/-- The test of `enque` that drops a packet for a bucket with `used` packets. -/
def full (s : Sfq) (used : ℤ) : Prop :=
  let left := s.maxqueue - s.occupied
  used ≥ left >>> 1 ∨ (left < s.buckets ∧ used > s.fairshare) ∨ left ≤ 0

instance (s : Sfq) (used : ℤ) : Decidable (s.full used) :=
  inferInstanceAs (Decidable (_ ∨ _))

def accept (s : Sfq) (q : ℕ) (pkt : SfqPacket) : Sfq :=
  let b := s.bucket q
  let b := { b with queue := b.queue ++ [pkt], pkts := b.pkts + 1 }
  let s := { s with bucket := update s.bucket q b, occupied := s.occupied + 1 }
  if b.pkts = 1 then s.activate q else s

/-- `SFQ::enque`, and whether the packet was dropped; `none` when the index is outside of the array. -/
def enque (s : Sfq) (pkt : SfqPacket) : Option (Sfq × Bool) :=
  let s := s.ready
  let which := s.index pkt
  if which < 0 ∨ s.allocated.getD 0 ≤ which then none
  else
    let q := which.toNat
    if s.full (s.bucket q).pkts then some (s, true) else some (s.accept q pkt, false)

/-- `SFQ::deque`; `none` when the active bucket has no packet. -/
def deque (s : Sfq) : Option (Sfq × Option (ℕ × SfqPacket)) :=
  let s := s.ready
  match s.active with
  | none => some (s, none)
  | some q =>
    let b := s.bucket q
    match b.queue with
    | [] => none
    | pkt :: rest =>
      let b := { b with pkts := b.pkts - 1, queue := rest }
      let s := { s with bucket := update s.bucket q b, occupied := s.occupied - 1 }
      let s := if b.pkts = 0 then s.idle q else { s with active := some (s.next q) }
      some (s, some (q, pkt))

/-- `SFQ::clear`: the loop does not change its counter. It gives the queue afterwards with the buckets
that were looked at. -/
def clear (s : Sfq) (fuel : ℕ) : Option (Except ClearStop (Sfq × List ℕ)) :=
  match s.allocated with
  | none => some (.ok (s, []))
  | some size =>
    (clearLoop (fun q => (s.bucket q).pkts) size id fuel s.buckets 0 []).map
      (fun r => r.map (fun seen => ({ s with allocated := none }, seen)))

end Sfq

end NetSim
