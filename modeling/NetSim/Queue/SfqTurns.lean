import NetSim.Lib.QueueTurns
import NetSim.Queue.FairHash

/-! # Stochastic fair queueing serves its buckets in turn

`SFQ` keeps its buckets in an array, with packet counters and a circle of links through those that are active.
In every run of arrivals and departures it does the same as queues that are served in turn
(`sfq_serves_in_turn`). So the packets of a bucket leave in the order in which they came, and none is lost but
those that are dropped as they arrive (`sfq_in_order`); and with `k` buckets that wait, each of them is among the
next `k` that are served, whatever arrives (`sfq_served_within`). `occupied` counts the packets that wait, stays
below `maxqueue_`, and a bucket never has more than a third of `maxqueue_ + 1` (`sfq_bounded`). An arrival whose
index is outside of the array (`Sfq.index_inRange_iff`) is left out.
-/

namespace NetSim.Sfq

open Function List

inductive Op (buckets : ℕ)
  | enque (pkt : SfqPacket) (h : InRange buckets ((hash pkt).tmod buckets))
  | deque
deriving DecidableEq

inductive Out
  | taken (q : ℕ) (pkt : SfqPacket)
  | dropped (pkt : SfqPacket)
  | sent (q : ℕ) (pkt : SfqPacket)
  | idle
deriving DecidableEq

def step {buckets : ℕ} (s : Sfq) : Op buckets → Option (Sfq × Out)
  | .enque pkt _ => (s.enque pkt).map (fun r =>
      (r.1, if r.2 then .dropped pkt else .taken (s.index pkt).toNat pkt))
  | .deque => s.deque.map (fun r => (r.1, r.2.elim .idle (fun x => .sent x.1 x.2)))

/-! ## The queues that are meant -/

abbrev Turns := QueueTurns ℕ SfqPacket

def turn (maxqueue : ℤ) (buckets : ℕ) (r : Turns) : Op buckets → Option (Turns × Out)
  | .enque pkt _ =>
    let q := ((hash pkt).tmod buckets).toNat
    let left := maxqueue - r.total
    let used : ℤ := (r.queue q).length
    if used ≥ left >>> 1 ∨ (left < buckets ∧ used > maxqueue.tdiv buckets) ∨ left ≤ 0 then
      some (r, .dropped pkt)
    else some (r.push q pkt, .taken q pkt)
  | .deque => some (r.pop.elim (r, .idle) (fun x => (x.1, .sent x.2.1 x.2.2)))

/-- The array of an `SFQ` that was used holds the queues. -/
structure Shows (maxqueue : ℤ) (buckets : ℕ) (s : Sfq) (r : Turns) : Prop where
  wf : r.Wf
  inside : ∀ f ∈ r.ring, f < buckets
  allocated : s.allocated = some buckets
  limit : s.maxqueue = maxqueue
  size : s.buckets = buckets
  fairshare : s.fairshare = maxqueue.tdiv buckets
  bucket : ∀ f, s.bucket f = ⟨r.queue f, (r.queue f).length⟩
  links : CyclicList.Holds s.next s.prev r.ring
  active : s.active = r.ring.head?
  occupied : s.occupied = r.total

variable {maxqueue : ℤ} {buckets q c : ℕ} {s s' : Sfq} {r r' : Turns} {pkt : SfqPacket} {t : List ℕ}
  {ops : List (Op buckets)} {outs : List Out}

theorem shows_init : Shows maxqueue buckets (init maxqueue buckets).ready .empty where
  wf := QueueTurns.wf_empty
  inside := by simp [QueueTurns.empty]
  allocated := rfl
  limit := rfl
  size := rfl
  fairshare := rfl
  bucket _ := rfl
  links := trivial
  active := rfl
  occupied := rfl

theorem Shows.ready (h : Shows maxqueue buckets s r) : Shows maxqueue buckets s.ready r := by
  unfold Sfq.ready
  rwa [h.allocated]

theorem Shows.bucket_update (h : Shows maxqueue buckets s r) (q : ℕ) (pkts : List SfqPacket) (f : ℕ) :
    update s.bucket q ⟨pkts, pkts.length⟩ f =
      ⟨update r.queue q pkts f, (update r.queue q pkts f).length⟩ := by
  rw [funext h.bucket]
  exact (apply_update (fun _ as => (⟨as, as.length⟩ : PacketSFQ)) r.queue q pkts f).symm

theorem Shows.full_iff {used : ℤ} (h : Shows maxqueue buckets s r) :
    s.full used ↔ used ≥ (maxqueue - r.total) >>> 1 ∨
      (maxqueue - r.total < buckets ∧ used > maxqueue.tdiv buckets) ∨ maxqueue - r.total ≤ 0 := by
  unfold full
  rw [h.limit, h.size, h.fairshare, h.occupied]

/-! ## The links -/

theorem activate_eq (s : Sfq) (q : ℕ) :
    s.activate q = { s with
      prev := (s.activate q).prev, next := (s.activate q).next, active := (s.activate q).active } := by
  unfold activate
  split <;> rfl

theorem idle_eq (s : Sfq) (q : ℕ) :
    s.idle q = { s with prev := (s.idle q).prev, next := (s.idle q).next, active := (s.idle q).active } := by
  unfold idle
  split <;> rfl

theorem activate_links (hlinks : CyclicList.Holds s.next s.prev t) (hactive : s.active = t.head?)
    (hq : q ∉ t) :
    CyclicList.Holds (s.activate q).next (s.activate q).prev (t ++ [q]) ∧
      (s.activate q).active = (t ++ [q]).head? := by
  unfold activate
  cases t with
  | nil =>
    rw [hactive]
    exact ⟨CyclicList.holds_single (update_self ..) (update_self ..), rfl⟩
  | cons c t =>
    have hcq : c ≠ q := fun heq => hq (heq ▸ mem_cons_self)
    rw [hactive]
    simp only [head?_cons, update_of_ne hcq]
    exact ⟨hlinks.insert hq, rfl⟩

theorem idle_links (hlinks : CyclicList.Holds s.next s.prev (c :: t)) :
    CyclicList.Holds (s.idle c).next (s.idle c).prev t ∧ (s.idle c).active = t.head? := by
  unfold idle
  cases t with
  | nil =>
    rw [if_pos hlinks.single.1]
    exact ⟨trivial, rfl⟩
  | cons d t =>
    have hne := hlinks.next_ne
    have hpc : s.prev c ≠ c := by
      intro heq
      have hlast := hlinks.prev_head
      rw [heq, getLast_cons (cons_ne_nil d t)] at hlast
      exact (nodup_cons.mp hlinks.1).1 (hlast ▸ getLast_mem _)
    rw [if_neg hne]
    simp only [update_of_ne (Ne.symm hne), update_of_ne (Ne.symm hpc)]
    exact ⟨hlinks.remove, congrArg some hlinks.next_head.1⟩

/-! ## Arrivals and departures -/

theorem Shows.accept (h : Shows maxqueue buckets s r) (hq : q < buckets) (pkt : SfqPacket) :
    Shows maxqueue buckets (s.accept q pkt) (r.push q pkt) := by
  have hoccupied : s.occupied + 1 = (r.push q pkt).total := by
    rw [h.occupied, h.wf.total_push, Nat.cast_add, Nat.cast_one]
  have hbucket := h.bucket_update q (r.queue q ++ [pkt])
  rw [length_append, length_singleton] at hbucket
  unfold Sfq.accept
  rw [h.bucket q]
  dsimp only
  by_cases hnew : r.queue q = []
  · -- the bucket goes behind the last active one
    have hring : (r.push q pkt).ring = r.ring ++ [q] := if_pos hnew
    rw [if_pos (by rw [hnew, length_nil]), activate_eq]
    obtain ⟨hlinks, hactive⟩ := activate_links (s := { s with
      bucket := update s.bucket q ⟨r.queue q ++ [pkt], (r.queue q).length + 1⟩
      occupied := s.occupied + 1 }) h.links h.active (h.wf.not_mem hnew)
    rw [← hring] at hlinks hactive
    refine ⟨h.wf.push q pkt, fun f hf => ?_, h.allocated, h.limit, h.size, h.fairshare, hbucket, hlinks,
      hactive, hoccupied⟩
    rcases mem_append.mp (hring ▸ hf) with hf | hf
    · exact h.inside f hf
    · rwa [mem_singleton.mp hf]
  · have hring : (r.push q pkt).ring = r.ring := if_neg hnew
    rw [if_neg (by simpa using hnew)]
    exact ⟨h.wf.push q pkt, hring ▸ h.inside, h.allocated, h.limit, h.size, h.fairshare, hbucket,
      hring ▸ h.links, hring ▸ h.active, hoccupied⟩

/-- The first active bucket sends a packet, and goes behind the others if it has more. -/
theorem Shows.deque (h : Shows maxqueue buckets s.ready r) (hring : r.ring = c :: t) :
    ∃ s' r' pkt, s.deque = some (s', some (c, pkt)) ∧ r.pop = some (r', c, pkt) ∧
      Shows maxqueue buckets s' r' := by
  obtain ⟨pkt, rest, hqueue, hpop⟩ := h.wf.pop_cons hring
  have hlinks := h.links
  have htotal := h.wf.total_pop hpop
  have hbucket := h.bucket_update c rest
  rw [hring] at hlinks
  unfold Sfq.deque
  dsimp only
  rw [h.active, hring]
  dsimp only [head?_cons]
  rw [h.bucket c, hqueue]
  dsimp only
  rw [length_cons, Nat.add_sub_cancel]
  refine ⟨_, _, pkt, rfl, hpop, ?_⟩
  have hwf := h.wf.pop hpop
  have hinside := h.inside
  rw [hring] at hinside
  have hoccupied' : s.ready.occupied - 1 =
      (⟨if rest = [] then t else t ++ [c], update r.queue c rest⟩ : Turns).total := by
    rw [h.occupied, ← htotal, Nat.cast_add, Nat.cast_one, Int.add_sub_cancel]
  by_cases hlast : rest = []
  · rw [if_pos (by rw [hlast, length_nil]), idle_eq]
    rw [if_pos hlast] at hwf hoccupied' ⊢
    obtain ⟨hlinks', hactive⟩ := idle_links (s := { s.ready with
      bucket := update s.ready.bucket c ⟨rest, rest.length⟩
      active := some c
      occupied := s.ready.occupied - 1 }) hlinks
    exact ⟨hwf, fun f hf => hinside f (mem_cons_of_mem c hf), h.allocated, h.limit, h.size, h.fairshare,
      hbucket, hlinks', hactive, hoccupied'⟩
  · rw [if_neg (by simpa using hlast)]
    rw [if_neg hlast] at hwf hoccupied' ⊢
    refine ⟨hwf, fun f hf => hinside f (perm_append_singleton c t |>.mem_iff.mp hf), h.allocated, h.limit,
      h.size, h.fairshare, hbucket, hlinks.rotate, ?_, hoccupied'⟩
    cases t with
    | nil => exact congrArg some hlinks.single.1
    | cons d t => exact congrArg some hlinks.next_head.1

theorem ready_buckets (s : Sfq) : s.ready.buckets = s.buckets := by
  unfold ready
  split <;> rfl

/-- The simulation: the circle and the abstract queues take the same step. -/
theorem Shows.step (h : Shows maxqueue buckets s.ready r) (op : Op buckets) :
    ∃ s' r' o, s.step op = some (s', o) ∧ turn maxqueue buckets r op = some (r', o) ∧
      Shows maxqueue buckets s'.ready r' := by
  cases op with
  | enque pkt hrange =>
    obtain ⟨hlow, hhigh⟩ := hrange
    have hindex : s.ready.index pkt = (hash pkt).tmod buckets := by rw [index, h.size]
    have hindex' : s.index pkt = (hash pkt).tmod buckets := by rw [index, ← ready_buckets, h.size]
    have hinside : ¬ ((hash pkt).tmod buckets < 0 ∨ (s.ready.allocated.getD 0 : ℤ) ≤ (hash pkt).tmod buckets) := by
      rw [h.allocated, Option.getD_some]
      omega
    unfold Sfq.step turn enque
    dsimp only
    rw [hindex, if_neg hinside, hindex', h.bucket]
    by_cases hfull : s.ready.full (r.queue ((hash pkt).tmod buckets).toNat).length
    · refine ⟨s.ready, r, .dropped pkt, ?_, if_pos (h.full_iff.mp hfull), h.ready⟩
      rw [if_pos hfull]
      rfl
    · have h' := h.accept (q := ((hash pkt).tmod buckets).toNat) (by omega) pkt
      refine ⟨s.ready.accept ((hash pkt).tmod buckets).toNat pkt, _, _, ?_,
        if_neg (h.full_iff.not.mp hfull), h'.ready⟩
      rw [if_neg hfull]
      rfl
  | deque =>
    cases hring : r.ring with
    | nil =>
      have hpop : r.pop = none := by
        unfold QueueTurns.pop
        rw [hring]
      have hnone : s.deque = some (s.ready, none) := by
        unfold Sfq.deque
        dsimp only
        rw [h.active, hring]
        rfl
      refine ⟨s.ready, r, .idle, ?_, ?_, h.ready⟩
      · rw [Sfq.step, hnone]
        rfl
      · rw [turn, hpop]
        rfl
    | cons c t =>
      obtain ⟨s', r', pkt, hdeque, hpop, h'⟩ := h.deque hring
      refine ⟨s', r', .sent c pkt, ?_, ?_, h'.ready⟩
      · rw [Sfq.step, hdeque]
        rfl
      · rw [turn, hpop]
        rfl

/-! ## Runs -/

theorem Shows.run (h : Shows maxqueue buckets s.ready r) (ops : List (Op buckets)) :
    ∃ s' r' outs, Runs.run Sfq.step s ops = some (s', outs) ∧
      Runs.run (turn maxqueue buckets) r ops = some (r', outs) ∧ Shows maxqueue buckets s'.ready r' := by
  induction ops generalizing s r with
  | nil => exact ⟨s, r, [], rfl, rfl, h⟩
  | cons op ops ih =>
    obtain ⟨s₁, r₁, o, hstep, hturn, h₁⟩ := h.step op
    obtain ⟨s', r', outs, hrun, hrun', h'⟩ := ih h₁
    refine ⟨s', r', o :: outs, ?_, ?_, h'⟩
    · rw [Runs.run_cons hstep, hrun]
      rfl
    · rw [Runs.run_cons hturn, hrun']
      rfl

/-- **The buckets are served in turn**: a run of arrivals and departures goes through and has the same outcome as
queues that are served in turn. There is a bucket: `fairshare` is a quotient by their number. -/
theorem sfq_serves_in_turn (maxqueue : ℤ) {n : ℕ} (ops : List (Op (n + 1))) :
    ∃ s r outs, Runs.run step (init maxqueue (n + 1)) ops = some (s, outs) ∧
      Runs.run (turn maxqueue (n + 1)) .empty ops = some (r, outs) ∧ Shows maxqueue (n + 1) s.ready r :=
  shows_init.run ops

theorem turn_cases {op : Op buckets} {o : Out} (h : turn maxqueue buckets r op = some (r', o)) :
    (∃ pkt h, op = .enque pkt h ∧ o = .dropped pkt ∧ r' = r) ∨
    (∃ q pkt h, op = .enque pkt h ∧ 2 * (r.queue q).length + 2 ≤ maxqueue - r.total ∧ o = .taken q pkt ∧
      r' = r.push q pkt) ∨
    (op = .deque ∧ r.pop = none ∧ o = .idle ∧ r' = r) ∨
    (∃ q pkt, op = .deque ∧ r.pop = some (r', q, pkt) ∧ o = .sent q pkt) := by
  cases op with
  | enque pkt hrange =>
    unfold turn at h
    dsimp only at h
    split at h
    · cases h
      exact .inl ⟨pkt, hrange, rfl, rfl, rfl⟩
    · rename_i hfits
      cases h
      have hhalf := (not_or.mp hfits).1
      rw [show (maxqueue - r.total) >>> (1 : ℤ) = (maxqueue - r.total) / 2 from
        (Int.shiftRight_natCast_right _ 1).trans (Int.shiftRight_eq_div_pow _ 1)] at hhalf
      exact .inr (.inl ⟨_, pkt, hrange, rfl, by omega, rfl, rfl⟩)
  | deque =>
    unfold turn at h
    dsimp only at h
    cases hpop : r.pop with
    | none =>
      rw [hpop] at h
      cases h
      exact .inr (.inr (.inl ⟨rfl, rfl, rfl, rfl⟩))
    | some x =>
      rw [hpop] at h
      cases h
      exact .inr (.inr (.inr ⟨_, _, rfl, rfl, rfl⟩))

/-! ## No packet is lost or overtaken -/

/-- The packet that bucket `f` takes. -/
def takes (f : ℕ) : Out → Option SfqPacket
  | .taken q pkt => if q = f then some pkt else none
  | _ => none

/-- The packet that bucket `f` sends. -/
def sends (f : ℕ) : Out → Option SfqPacket
  | .sent q pkt => if q = f then some pkt else none
  | _ => none

theorem turn_in_order {op : Op buckets} {o : Out} (f : ℕ) (h : turn maxqueue buckets r op = some (r', o)) :
    r.queue f ++ [o].filterMap (takes f) = [o].filterMap (sends f) ++ r'.queue f := by
  obtain ⟨pkt, -, -, rfl, rfl⟩ | ⟨q, pkt, -, -, -, rfl, rfl⟩ | ⟨-, -, rfl, rfl⟩ | ⟨q, pkt, -, hpop, rfl⟩ := turn_cases h
  · simp [takes, sends, filterMap_cons]
  · rw [QueueTurns.push_queue, update_apply]
    by_cases hf : f = q
    · subst hf
      simp [takes, sends, filterMap_cons]
    · simp [takes, sends, filterMap_cons, hf, Ne.symm hf]
  · simp [takes, sends, filterMap_cons]
  · obtain ⟨t, rest, -, hqueue, rfl⟩ := QueueTurns.pop_spec hpop
    dsimp only
    rw [update_apply]
    by_cases hf : f = q
    · subst hf
      simp [takes, sends, filterMap_cons, hqueue]
    · simp [takes, sends, filterMap_cons, hf, Ne.symm hf]

/-- **Each bucket is a queue**: at the end of a run, the packets a bucket has taken are those it has sent, in the
same order, and behind them those that it still has. -/
theorem sfq_in_order (maxqueue : ℤ) {n : ℕ} (ops : List (Op (n + 1))) :
    ∃ s outs, Runs.run step (init maxqueue (n + 1)) ops = some (s, outs) ∧
      ∀ f, outs.filterMap (takes f) = outs.filterMap (sends f) ++ (s.ready.bucket f).queue := by
  obtain ⟨s, r, outs, hrun, hturns, h⟩ := shows_init.run ops
  refine ⟨s, outs, hrun, fun f => ?_⟩
  rw [h.bucket f]
  refine @Runs.run_preserves Turns (Op (n + 1)) Out _ (fun _ _ => True) _ _ _ _ []
    (fun outs r => outs.filterMap (takes f) = outs.filterMap (sends f) ++ r.queue f) ?_ rfl
    (Runs.meets_of_forall (fun _ _ => trivial)) hturns
  intro outs r op r' o hinv _ hturn
  rw [filterMap_append, filterMap_append, hinv, append_assoc, turn_in_order f hturn, append_assoc]

/-! ## No bucket waits for ever -/

theorem turn_served {f : ℕ} (hwf : r.Wf) (hf : f ∈ r.ring)
    (hrun : Runs.run (turn maxqueue buckets) r ops = some (r', outs))
    (hcount : r.ring.idxOf f < ops.count .deque) : ∃ pkt, .sent f pkt ∈ outs := by
  induction ops generalizing r outs with
  | nil => cases hcount
  | cons op ops ih =>
    rw [Runs.run, Option.bind_eq_some_iff] at hrun
    obtain ⟨⟨r₁, o⟩, hturn, hrun⟩ := hrun
    obtain ⟨⟨r₂, outs'⟩, hrest, heq⟩ := Option.map_eq_some_iff.mp hrun
    cases heq
    obtain ⟨pkt, _, rfl, rfl, rfl⟩ | ⟨q, pkt, _, rfl, -, rfl, rfl⟩ | ⟨rfl, hpop, rfl, rfl⟩ | ⟨q, pkt, rfl, hpop, rfl⟩ :=
      turn_cases hturn
    · rw [count_cons_of_ne (by simp)] at hcount
      obtain ⟨pkt', hpkt⟩ := ih hwf hf hrest hcount
      exact ⟨pkt', mem_cons_of_mem _ hpkt⟩
    · obtain ⟨hf', hplace⟩ := QueueTurns.push_place (g := q) (a := pkt) hf
      rw [count_cons_of_ne (by simp), ← hplace] at hcount
      obtain ⟨pkt', hpkt⟩ := ih (hwf.push q pkt) hf' hrest hcount
      exact ⟨pkt', mem_cons_of_mem _ hpkt⟩
    · obtain ⟨c, t, hring⟩ := exists_cons_of_ne_nil (ne_nil_of_mem hf)
      obtain ⟨_, _, _, hsome⟩ := hwf.pop_cons hring
      rw [hpop] at hsome
      cases hsome
    · by_cases hq : f = q
      · exact ⟨pkt, hq ▸ mem_cons_self⟩
      · obtain ⟨hf', hplace⟩ := QueueTurns.pop_place hpop hf hq
        rw [count_cons_self] at hcount
        obtain ⟨pkt', hpkt⟩ := ih (hwf.pop hpop) hf' hrest (by omega)
        exact ⟨pkt', mem_cons_of_mem _ hpkt⟩

/-- The buckets that wait. -/
def waiting (buckets : ℕ) (s : Sfq) : List ℕ := (List.range buckets).filter (fun f => (s.bucket f).queue ≠ [])

theorem Shows.mem_waiting (h : Shows maxqueue buckets s r) {f : ℕ} : f ∈ r.ring ↔ f ∈ waiting buckets s := by
  rw [waiting, mem_filter, mem_range, h.bucket, decide_eq_true_eq, ← h.wf.mem]
  exact ⟨fun hf => ⟨h.inside f hf, hf⟩, fun hf => hf.2⟩

theorem Shows.perm_waiting (h : Shows maxqueue buckets s r) : r.ring ~ waiting buckets s :=
  (perm_ext_iff_of_nodup h.wf.nodup (nodup_range.filter _)).mpr (fun _ => h.mem_waiting)

/-- **No bucket waits for ever**: if `k` buckets wait at the end of a run, then each of them has sent a packet
after `k` more departures, whatever arrives meanwhile. -/
theorem sfq_served_within (maxqueue : ℤ) {n : ℕ} (ops later : List (Op (n + 1))) :
    ∃ s outs s' outs', Runs.run step (init maxqueue (n + 1)) ops = some (s, outs) ∧
      Runs.run step s later = some (s', outs') ∧
      ((waiting (n + 1) s.ready).length ≤ later.count .deque →
        ∀ f ∈ waiting (n + 1) s.ready, ∃ pkt, .sent f pkt ∈ outs') := by
  obtain ⟨s, r, outs, hrun, -, h⟩ := shows_init.run ops
  obtain ⟨s', r', outs', hlater, hturns, -⟩ := h.run later
  refine ⟨s, outs, s', outs', hrun, hlater, fun hcount f hf => ?_⟩
  have hring : f ∈ r.ring := h.mem_waiting.mpr hf
  have hplace := idxOf_lt_length_of_mem hring
  have hlength := h.perm_waiting.length_eq
  exact turn_served h.wf hring hturns (by omega)

/-! ## The bounds -/

structure Bounded (maxqueue : ℤ) (r : Turns) : Prop where
  wf : r.Wf
  total : r.total = 0 ∨ r.total < maxqueue
  bucket : ∀ f, r.queue f = [] ∨ 3 * (r.queue f).length ≤ maxqueue + 1

theorem Bounded.turn {op : Op buckets} {o : Out} (h : Bounded maxqueue r)
    (hturn : turn maxqueue buckets r op = some (r', o)) : Bounded maxqueue r' := by
  obtain ⟨pkt, -, -, -, rfl⟩ | ⟨q, pkt, -, -, hfits, -, rfl⟩ | ⟨-, -, -, rfl⟩ | ⟨q, pkt, -, hpop, -⟩ := turn_cases hturn
  · exact h
  · have hle := h.wf.length_le_total q
    refine ⟨h.wf.push q pkt, .inr ?_, fun f => ?_⟩
    · rw [h.wf.total_push]
      omega
    · rw [QueueTurns.push_queue, update_apply]
      split
      · rw [length_append, length_singleton]
        omega
      · exact h.bucket f
  · exact h
  · have htotal := h.wf.total_pop hpop
    have hbefore := h.total
    refine ⟨h.wf.pop hpop, by omega, fun f => ?_⟩
    obtain ⟨t, rest, -, hqueue, rfl⟩ := QueueTurns.pop_spec hpop
    dsimp only
    rw [update_apply]
    split
    · have hbound := (h.bucket q).resolve_left (by simp [hqueue])
      rw [hqueue, length_cons] at hbound
      omega
    · exact h.bucket f

/-- **No bucket takes the whole queue**: `occupied` counts the packets in the buckets that wait, and stays below
`maxqueue_`; and a bucket never has more than a third of `maxqueue_ + 1`. -/
theorem sfq_bounded (maxqueue : ℤ) {n : ℕ} (ops : List (Op (n + 1))) :
    ∃ s outs, Runs.run step (init maxqueue (n + 1)) ops = some (s, outs) ∧
      s.ready.occupied = ((waiting (n + 1) s.ready).map (fun f => (s.ready.bucket f).pkts)).sum ∧
      (s.ready.occupied = 0 ∨ s.ready.occupied < maxqueue) ∧
      ∀ f, (s.ready.bucket f).pkts = 0 ∨ 3 * (s.ready.bucket f).pkts ≤ maxqueue + 1 := by
  obtain ⟨s, r, outs, hrun, hturns, h⟩ := shows_init.run ops
  have hb : Bounded maxqueue r :=
    @Runs.run_preserves Turns (Op (n + 1)) Out _ (fun _ _ => True) _ _ _ _ []
      (fun _ => Bounded maxqueue) (fun _ _ _ _ _ hb _ => hb.turn)
      ⟨QueueTurns.wf_empty, .inl rfl, fun _ => .inl rfl⟩
      (Runs.meets_of_forall (fun _ _ => trivial)) hturns
  refine ⟨s, outs, hrun, ?_, ?_, fun f => ?_⟩
  · rw [h.occupied, ← (h.perm_waiting.map _).sum_eq, funext h.bucket]
    rfl
  · rw [h.occupied]
    exact hb.total.imp_left (congrArg Nat.cast)
  · rw [h.bucket f]
    exact (hb.bucket f).imp_left (congrArg length)

end NetSim.Sfq
