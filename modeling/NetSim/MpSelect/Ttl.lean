import Mathlib.Data.Bool.Count
import NetSim.MpSelect.Agent

/-! # The TTL of a packet

A packet in a network of core agents: each agent that receives it may forward it, and the network
carries it to the next one. `walk` lists the receptions at which `recv` hands the packet to
`forward_data`; `way` follows the same packet along its routes with the TTL left out. The TTL is
decremented for packets without the mpSelect header only, so it bounds the plain receptions and not the
others (`walk_eq`).
-/

namespace NetSim.MpSelect

open List

structure Transit where
  intfs : List (ℕ × MpSelect)
  forwards : ℕ
  core : ℕ

/-- The network: the time of the `k`-th reception, and where the packet sent then goes, which does
not depend on its TTL. `none`: it is lost. -/
structure Network where
  time : ℕ → ℚ
  carry : ℕ → Packet → Option Transit

def withTtl (p : Packet) (ttl : ℤ) : Packet := { p with ttl }

def Network.transport (net : Network) (k : ℕ) (p : Packet) : Option (ℕ × Packet) :=
  (net.carry k (withTtl p 0)).bind (fun tr =>
    (relays tr.intfs p).map (fun p => (tr.core, hop p tr.forwards)))

/-- The next reception, if the packet is sent on. -/
def Network.onward (net : Network) (k : ℕ) : Outcome → Option (ℕ × Packet)
  | .send p => net.transport k p
  | _ => none

/-- Whether `recv` hands the packet to `forward_data`, and if so, whether it was encapsulated. -/
def hands (a : MpSelect) (p : Packet) : Option Bool :=
  match a.receive p with
  | .plain _ => some false
  | .encapsulated _ => some true
  | _ => none

/-- The first `n` receptions, from the `k`-th on, at which the packet is handed to `forward_data`;
`true` for an encapsulated packet. The packet arrives at the agent `i`. -/
def walk (net : Network) : ℕ → ℕ → (ℕ → MpSelect) → ℕ → Packet → List Bool
  | 0, _, _, _, _ => []
  | n + 1, k, agents, i, p =>
    match (agents i).hands p with
    | none => []
    | some encapsulated =>
      let r := (agents i).recv p (net.time k)
      encapsulated ::
        match net.onward k r.2 with
        | none => []
        | some (j, q) => walk net n (k + 1) (Function.update agents i r.1) j q

/-- Where a packet goes from an agent, whatever its TTL: whether it goes on from the encapsulated packet,
and what becomes of it. -/
def follow (a : MpSelect) (p : Packet) (now : ℚ) : Option (Bool × MpSelect × Outcome) :=
  (a.prologue p).bind (fun q =>
    if q.ptype ≠ ptMpSelect then some (false, a.forwardData q now)
    else
      match a.selectType with
      | .core => if q.type = dataPkt then some (true, a.recvDataPkt q now) else none
      | .intf => none)

/-- The first `n` receptions on the way of a packet, from the `k`-th on; `true` for an encapsulated
packet. -/
def way (net : Network) : ℕ → ℕ → (ℕ → MpSelect) → ℕ → Packet → List Bool
  | 0, _, _, _, _ => []
  | n + 1, k, agents, i, p =>
    match (agents i).follow p (net.time k) with
    | none => []
    | some (encapsulated, a, o) =>
      encapsulated ::
        match net.onward k o with
        | none => []
        | some (j, q) => way net n (k + 1) (Function.update agents i a) j q

/-! ## The TTL decides nothing else -/

variable {a : MpSelect} {p q : Packet} {now : ℚ} {net : Network} {k : ℕ} {x : ℤ}

def Outcome.withTtl (x : ℤ) : Outcome → Outcome
  | .up p => .up (MpSelect.withTtl p x)
  | .send p => .send (MpSelect.withTtl p x)
  | o => o

theorem prologue_withTtl : a.prologue (withTtl p x) = (a.prologue p).map (withTtl · x) := by
  unfold prologue
  show (if p.saddr = a.raAddr then _ else _) = _
  split
  · show (if 0 < p.numForwards then _ else _) = _
    split
    · rfl
    · show (if p.numForwards = 0 then _ else _) = _
      split <;> rfl
  · rfl

theorem forwardData_withTtl :
    a.forwardData (withTtl p x) now =
      ((a.forwardData p now).1, Outcome.withTtl x (a.forwardData p now).2) := by
  have hdaddr : (withTtl p x).daddr = p.daddr := rfl
  have hdir : (withTtl p x).direction = p.direction := rfl
  unfold forwardData
  rw [hdir, hdaddr]
  split
  · rfl
  dsimp only
  split
  · rfl
  cases a.rtable.findMP p.daddr with
  | none => rfl
  | some mp =>
    cases mp with
    | true =>
      cases a.rtable.lookupMP p.daddr now with
      | none => rfl
      | some r =>
        obtain ⟨rtable, path⟩ := r
        cases path with
        | none => rfl
        | some path =>
          dsimp only
          split <;> rfl
    | false =>
      cases a.rtable.lookup p.daddr with
      | none => rfl
      | some nextHop =>
        dsimp only
        split <;> rfl

theorem recvDataPkt_withTtl :
    a.recvDataPkt (withTtl p x) now =
      ((a.recvDataPkt p now).1, Outcome.withTtl x (a.recvDataPkt p now).2) := by
  have hroute : a.rtable.updateRtime (withTtl p x).sSelect (withTtl p x).dIntf (withTtl p x).sIntf now =
      a.rtable.updateRtime p.sSelect p.dIntf p.sIntf now := rfl
  unfold recvDataPkt
  rw [hroute]
  cases a.rtable.updateRtime p.sSelect p.dIntf p.sIntf now with
  | none => rfl
  | some rtable =>
    have hrestore : a.restore (withTtl p x) = withTtl (a.restore p) x := rfl
    dsimp only
    rw [hrestore, forwardData_withTtl]

theorem forwardMpSPkt_withTtl :
    a.forwardMpSPkt (withTtl p x) = Outcome.withTtl x (a.forwardMpSPkt p) := by
  unfold forwardMpSPkt
  show (if p.daddr ≠ p.sIntf ∧ p.daddr ≠ p.dIntf then _ else
    if p.sSelect = a.raAddr then _ else _) = _
  split
  · rfl
  · split <;> rfl

theorem relay_plain (hpro : a.prologue p = some q) (hq : q.ptype ≠ ptMpSelect) :
    a.relay p = none := by
  rw [relay, receive, hpro]
  dsimp only
  rw [if_neg hq]
  by_cases hx : q.ttl - 1 < 0
  · simp only [if_pos hx]
  · simp only [if_neg hx]

theorem relay_withTtl : a.relay (withTtl p x) = (a.relay p).map (withTtl · x) := by
  have hpro' := @prologue_withTtl a p x
  cases hpro : a.prologue p with
  | none =>
    rw [hpro, Option.map_none] at hpro'
    rw [relay, relay, receive, receive, hpro, hpro']
    rfl
  | some q =>
    rw [hpro, Option.map_some] at hpro'
    by_cases hp : q.ptype = ptMpSelect
    · have hp' : (withTtl q x).ptype = ptMpSelect := hp
      rw [relay, relay, receive, receive, hpro, hpro']
      dsimp only
      rw [if_pos hp, if_pos hp']
      cases a.selectType with
      | core =>
        have htype : (withTtl q x).type = q.type := rfl
        rw [htype]
        by_cases hdata : q.type = dataPkt
        · simp only [if_pos hdata, Option.map_none]
        · simp only [if_neg hdata, Option.map_none]
      | intf =>
        dsimp only
        rw [forwardMpSPkt_withTtl]
        cases a.forwardMpSPkt q <;> rfl
    · rw [relay_plain hpro hp, relay_plain hpro' hp]
      rfl

theorem relays_withTtl (intfs : List (ℕ × MpSelect)) :
    relays intfs (withTtl p x) = (relays intfs p).map (withTtl · x) := by
  induction intfs generalizing p with
  | nil => rfl
  | cons i intfs ih =>
    have hhop : hop (withTtl p x) i.1 = withTtl (hop p i.1) x := rfl
    rw [relays, relays, hhop, relay_withTtl]
    cases i.2.relay (hop p i.1) with
    | none => rfl
    | some q => exact ih

theorem onward_withTtl (o : Outcome) :
    net.onward k (Outcome.withTtl x o) = (net.onward k o).map (fun r => (r.1, withTtl r.2 x)) := by
  cases o with
  | send p =>
    have hcarry : withTtl (withTtl p x) 0 = withTtl p 0 := rfl
    show net.transport k (withTtl p x) = (net.transport k p).map _
    rw [Network.transport, Network.transport, hcarry]
    cases net.carry k (withTtl p 0) with
    | none => rfl
    | some tr =>
      rw [Option.bind_some, Option.bind_some, relays_withTtl]
      cases relays tr.intfs p with
      | none => rfl
      | some q => rfl
  | up | drop | ping | fault => rfl

/-- What `recv` does with a packet, for every TTL: nothing, the plain branch, or the branch for
encapsulated packets. -/
theorem recv_cases (a : MpSelect) (p : Packet) :
    ((∀ x, a.hands (withTtl p x) = none) ∧ ∀ now, a.follow p now = none) ∨
    (∃ q, (∀ x, a.hands (withTtl p x) = (if x - 1 < 0 then none else some false) ∧
      (¬ x - 1 < 0 → ∀ now, a.recv (withTtl p x) now = a.forwardData (withTtl q (x - 1)) now)) ∧
      ∀ now, a.follow p now = some (false, a.forwardData q now)) ∨
    (∃ q, (∀ x, a.hands (withTtl p x) = some true ∧
      ∀ now, a.recv (withTtl p x) now = a.recvDataPkt (withTtl q x) now) ∧
      ∀ now, a.follow p now = some (true, a.recvDataPkt q now)) := by
  unfold follow
  cases hpro : a.prologue p with
  | none =>
    refine Or.inl ⟨fun x => ?_, fun now => rfl⟩
    rw [hands, receive, prologue_withTtl, hpro]
    rfl
  | some q =>
    by_cases hp : q.ptype = ptMpSelect
    · have hnot : ¬ q.ptype ≠ ptMpSelect := not_not.mpr hp
      cases htype : a.selectType with
      | intf =>
        have hreceive : ∀ x, a.receive (withTtl p x) = .relay (withTtl q x) := by
          intro x
          rw [receive, prologue_withTtl, hpro, htype]
          exact if_pos hp
        refine Or.inl ⟨fun x => ?_, fun now => if_neg hnot⟩
        rw [hands, hreceive]
      | core =>
        have hreceive : ∀ x, a.receive (withTtl p x) =
            if q.type = dataPkt then .encapsulated (withTtl q x) else .ping := by
          intro x
          rw [receive, prologue_withTtl, hpro, htype]
          exact if_pos hp
        by_cases hdata : q.type = dataPkt
        · refine Or.inr (Or.inr ⟨q, fun x => ⟨?_, fun now => ?_⟩, fun now => ?_⟩)
          · rw [hands, hreceive]
            simp only [if_pos hdata]
          · rw [recv, hreceive]
            simp only [if_pos hdata]
          · exact (if_neg hnot).trans (if_pos hdata)
        · refine Or.inl ⟨fun x => ?_, fun now => (if_neg hnot).trans (if_neg hdata)⟩
          rw [hands, hreceive]
          simp only [if_neg hdata]
    · have hreceive : ∀ x, a.receive (withTtl p x) =
          if x - 1 < 0 then .drop .ttl else .plain (withTtl q (x - 1)) := by
        intro x
        rw [receive, prologue_withTtl, hpro]
        exact if_neg hp
      refine Or.inr (Or.inl ⟨q, fun x => ⟨?_, fun hx now => ?_⟩, fun now => if_pos hp⟩)
      · rw [hands, hreceive]
        by_cases hx : x - 1 < 0
        · simp only [if_pos hx]
        · simp only [if_neg hx]
      · rw [recv, hreceive]
        simp only [if_neg hx]

/-! ## The bound -/

/-- The receptions up to the one at which the TTL is used up: `ttl` plain ones pass. -/
def truncate : ℕ → List Bool → List Bool
  | _, [] => []
  | ttl, true :: l => true :: truncate ttl l
  | 0, false :: _ => []
  | ttl + 1, false :: l => false :: truncate ttl l

theorem length_truncate_le (ttl : ℕ) (l : List Bool) :
    (truncate ttl l).length ≤ ttl + l.count true := by
  induction l generalizing ttl with
  | nil => simp [truncate]
  | cons b l ih =>
    cases b with
    | true =>
      have := ih ttl
      rw [truncate, length_cons, count_cons_self]
      omega
    | false =>
      cases ttl with
      | zero => simp [truncate]
      | succ ttl =>
        have := ih ttl
        rw [truncate, length_cons, count_cons_of_ne (by decide)]
        omega

theorem truncate_eq_self {ttl : ℕ} {l : List Bool} (h : l.count false ≤ ttl) : truncate ttl l = l := by
  induction l generalizing ttl with
  | nil => simp [truncate]
  | cons b l ih =>
    cases b with
    | true =>
      rw [truncate, ih h]
    | false =>
      rw [count_cons_self] at h
      cases ttl with
      | zero => omega
      | succ ttl => rw [truncate, ih (by omega)]

theorem length_truncate (ttl : ℕ) (l : List Bool) : (truncate ttl l).length ≤ l.length := by
  induction l generalizing ttl with
  | nil => simp [truncate]
  | cons b l ih =>
    cases b with
    | true =>
      have := ih ttl
      rw [truncate, length_cons, length_cons]
      omega
    | false =>
      cases ttl with
      | zero => simp [truncate]
      | succ ttl =>
        have := ih ttl
        rw [truncate, length_cons, length_cons]
        omega

theorem take_truncate (m ttl : ℕ) (l : List Bool) :
    (truncate ttl l).take m = truncate ttl (l.take m) := by
  induction l generalizing m ttl with
  | nil => simp [truncate]
  | cons b l ih =>
    cases m with
    | zero => simp [truncate]
    | succ m =>
      cases b with
      | true => rw [truncate, take_succ_cons, take_succ_cons, truncate, ih]
      | false =>
        cases ttl with
        | zero => rw [truncate, take_succ_cons, truncate, take_nil]
        | succ ttl => rw [truncate, take_succ_cons, take_succ_cons, truncate, ih]

/-- **The TTL cuts the way off**: at the first plain reception at which it is used up. -/
theorem walk_eq (net : Network) (n : ℕ) :
    ∀ (k : ℕ) (agents : ℕ → MpSelect) (i : ℕ) (p : Packet) (ttl : ℕ),
      walk net n k agents i (withTtl p ttl) = truncate ttl (way net n k agents i p) := by
  induction n with
  | zero =>
    intro k agents i p ttl
    simp [walk, way, truncate]
  | succ n ih =>
    intro k agents i p ttl
    rcases recv_cases (agents i) p with ⟨hnone, hfollow⟩ | ⟨q, hplain, hfollow⟩ | ⟨q, henc, hfollow⟩
    · simp only [walk, way, hnone, hfollow, truncate]
    · simp only [walk, way, hfollow]
      cases ttl with
      | zero =>
        have hzero := (hplain ((0 : ℕ) : ℤ)).1
        rw [if_pos (by decide)] at hzero
        simp only [hzero, truncate]
      | succ ttl =>
        obtain ⟨hhands, hrecv⟩ := hplain ((ttl + 1 : ℕ) : ℤ)
        have hnot : ¬ ((ttl + 1 : ℕ) : ℤ) - 1 < 0 := by omega
        rw [if_neg hnot] at hhands
        have hless : ((ttl + 1 : ℕ) : ℤ) - 1 = (ttl : ℤ) := by omega
        simp only [hhands, hrecv hnot, hless, forwardData_withTtl, onward_withTtl]
        cases net.onward k ((agents i).forwardData q (net.time k)).2 with
        | none => simp [truncate]
        | some r =>
          simp only [Option.map_some, truncate]
          rw [ih]
    · obtain ⟨hhands, hrecv⟩ := henc ttl
      simp only [walk, way, hhands, hrecv, hfollow, recvDataPkt_withTtl, onward_withTtl]
      cases net.onward k ((agents i).recvDataPkt q (net.time k)).2 with
      | none => simp [truncate]
      | some r =>
        simp only [Option.map_some, truncate]
        rw [ih]

theorem take_way (net : Network) (m n : ℕ) (h : m ≤ n) :
    ∀ (k : ℕ) (agents : ℕ → MpSelect) (i : ℕ) (p : Packet),
      (way net n k agents i p).take m = way net m k agents i p := by
  induction n generalizing m with
  | zero =>
    intro k agents i p
    obtain rfl : m = 0 := by omega
    rfl
  | succ n ih =>
    intro k agents i p
    cases m with
    | zero => rfl
    | succ m =>
      simp only [way]
      cases (agents i).follow p (net.time k) with
      | none => rfl
      | some r =>
        simp only [take_succ_cons]
        cases net.onward k r.2.2 with
        | none => simp
        | some t => simp only [ih m (by omega)]

theorem length_way_le (net : Network) (n k : ℕ) (agents : ℕ → MpSelect) (i : ℕ) (p : Packet) :
    (way net n k agents i p).length ≤ n := by
  have htake := congrArg List.length (take_way net n n le_rfl k agents i p)
  rw [length_take] at htake
  omega

/-- **The TTL bounds forwarding, exactly.** A packet arrives at the agent `i` of a network. The number of
times that `recv` hands it to `forward_data` is at most its TTL plus one, if and only if its way is
shorter than that, or has at most one reception of the encapsulated packet so far. -/
theorem ttl_bounds_forwarding (net : Network) (agents : ℕ → MpSelect) (i : ℕ) (p : Packet) (ttl : ℕ) :
    (∀ n : ℕ, (walk net n 0 agents i (withTtl p ttl)).length ≤ ttl + 1) ↔
      (way net (ttl + 2) 0 agents i p).length < ttl + 2 ∨
        (way net (ttl + 2) 0 agents i p).count true ≤ 1 := by
  constructor
  · intro h
    by_contra hnot
    obtain ⟨hlong, htwice⟩ := not_or.mp hnot
    -- the TTL lasts for all of these receptions
    have hlen := count_true_add_count_false (way net (ttl + 2) 0 agents i p)
    have hmax := length_way_le net (ttl + 2) 0 agents i p
    have hle := h (ttl + 2)
    rw [walk_eq, truncate_eq_self (by omega)] at hle
    omega
  · intro h n
    by_contra hlong
    rw [walk_eq] at hlong
    have hshort := length_truncate ttl (way net n 0 agents i p)
    have hmax := length_way_le net n 0 agents i p
    have htake := take_truncate (ttl + 2) ttl (way net n 0 agents i p)
    rw [take_way net (ttl + 2) n (by omega)] at htake
    have hlen := congrArg List.length htake
    rw [length_take] at hlen
    have hcount := length_truncate_le ttl (way net (ttl + 2) 0 agents i p)
    have hcut := length_truncate ttl (way net (ttl + 2) 0 agents i p)
    omega

/-- Two core agents whose multipath routes to 9 lead to each other, over interface agents on either
side. -/
def loopAgents (i : ℕ) : MpSelect := if i = 0 then coreTo 1 2 11 12 else coreTo 2 1 22 21

def loopNetwork : Network :=
  { time := fun _ => 10
    carry := fun _ p => some
      (if p.dSelect = 2 then { intfs := [(0, intfOf 1), (0, intfOf 2)], forwards := 0, core := 1 }
      else { intfs := [(0, intfOf 2), (0, intfOf 1)], forwards := 0, core := 0 }) }

/-- A packet from 5 with the TTL 1 in the loop: the TTL is decremented at the first reception only,
and the packet is handed to `forward_data` six times in the first six receptions, not twice. -/
theorem ttl_not_decremented :
    walk loopNetwork 6 0 loopAgents 0 (withTtl (dataTo9 5 1) 1) =
      [false, true, true, true, true, true] ∧
    ¬ (walk loopNetwork 6 0 loopAgents 0 (withTtl (dataTo9 5 1) 1)).length ≤ 1 + 1 := by
  have hwalk : walk loopNetwork 6 0 loopAgents 0 (withTtl (dataTo9 5 1) 1) =
      [false, true, true, true, true, true] := by
    decide +kernel
  rw [hwalk]
  exact ⟨rfl, by decide⟩

end NetSim.MpSelect
