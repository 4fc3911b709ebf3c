import NetSim.Aodv.Node

/-! # A network of AODV nodes

A network gives a node to every address. A packet of the protocol can be delivered once a node has sent
it, any number of times, to anyone or, if it is a reply, to its next hop; data packets may come up
anywhere. Timers fire, and the link layer reports failures, at any time, but for the timer of a local
repair, which has to be scheduled.
-/

namespace NetSim.Aodv

inductive Event
  | recv (p : Packet)
  | llFailed (p : Packet)
  | lrTimer (dst : ℕ)
  | nbPurge
  | rtPurge
  | idPurge
  | hello

namespace Node

def step (now : ℚ) (n : Node) : Event → Option Node
  | .recv p => n.recv now p
  | .llFailed p => n.rtLlFailed now p
  | .lrTimer dst => some (n.lrTimer dst)
  | .nbPurge => n.nbPurge now
  | .rtPurge => n.rtPurge now
  | .idPurge => some (n.idPurge now)
  | .hello => some n.sendHello

end Node

/-- The events that can happen at node `a`. -/
def Enabled (s : ℕ → Node) (a : ℕ) : Event → Prop
  | .recv p => p.body = .data ∨ (∃ b, p ∈ (s b).target) ∧ ∀ rp, p.body = .rrep rp → p.nextHop = a
  | .lrTimer dst => dst ∈ (s a).lrtimer
  | _ => True

/-- The states that a network reaches by events that meet a condition; the event comes with the node
at which it happens and the time. -/
inductive Reachable (ok : (ℕ → Node) → ℕ → ℚ → Event → Prop) : (ℕ → Node) → Prop
  | init : Reachable ok Node.init
  | step {s : ℕ → Node} {a : ℕ} {now : ℚ} {e : Event} {n' : Node} :
      Reachable ok s → Enabled s a e → ok s a now e → (s a).step now e = some n' →
      Reachable ok (Function.update s a n')

/-! ## Schedules

A schedule names the packet that is delivered by its sender and its place among the packets sent.
-/

inductive Choice
  | deliver (sender place : ℕ)
  | happen (e : Event)

def Choice.event (s : ℕ → Node) (a : ℕ) : Choice → Option Event
  | .deliver sender place =>
    ((s sender).target[place]?).bind (fun p =>
      match p.body with
      | .rrep _ => if p.nextHop = a then some (.recv p) else none
      | _ => some (.recv p))
  | .happen (.recv p) => if p.body = .data then some (.recv p) else none
  | .happen (.lrTimer dst) => if dst ∈ (s a).lrtimer then some (.lrTimer dst) else none
  | .happen e => some e

def follow (ok : (ℕ → Node) → ℕ → ℚ → Event → Prop) [∀ s a now e, Decidable (ok s a now e)] :
    List (ℕ × ℚ × Choice) → (ℕ → Node) → Option (ℕ → Node)
  | [], s => some s
  | (a, now, choice) :: rest, s =>
    (choice.event s a).bind (fun e =>
      if ok s a now e then
        ((s a).step now e).bind (fun n' => follow ok rest (Function.update s a n'))
      else none)

theorem Choice.enabled {s : ℕ → Node} {a : ℕ} {choice : Choice} {e : Event}
    (h : choice.event s a = some e) : Enabled s a e := by
  cases choice with
  | deliver sender place =>
    obtain ⟨p, hp, h⟩ := Option.bind_eq_some_iff.mp h
    have hmem := List.mem_of_getElem? hp
    split at h
    · obtain ⟨hnext, h⟩ := Option.ite_none_right_eq_some.mp h
      cases h
      exact Or.inr ⟨⟨sender, hmem⟩, fun _ _ => hnext⟩
    · rename_i hbody
      cases h
      exact Or.inr ⟨⟨sender, hmem⟩, fun rp hrp => absurd hrp (hbody rp)⟩
  | happen e' =>
    cases e' with
    | recv p =>
      obtain ⟨hdata, h⟩ := Option.ite_none_right_eq_some.mp h
      cases h
      exact Or.inl hdata
    | lrTimer dst =>
      obtain ⟨hmem, h⟩ := Option.ite_none_right_eq_some.mp h
      cases h
      exact hmem
    | llFailed p => cases h; trivial
    | nbPurge => cases h; trivial
    | rtPurge => cases h; trivial
    | idPurge => cases h; trivial
    | hello => cases h; trivial

theorem Reachable.follow {ok : (ℕ → Node) → ℕ → ℚ → Event → Prop}
    [∀ s a now e, Decidable (ok s a now e)] {schedule : List (ℕ × ℚ × Choice)} {s s' : ℕ → Node}
    (hs : Reachable ok s) (h : Aodv.follow ok schedule s = some s') : Reachable ok s' := by
  induction schedule generalizing s with
  | nil =>
    cases h
    exact hs
  | cons x rest ih =>
    obtain ⟨e, he, h⟩ := Option.bind_eq_some_iff.mp h
    obtain ⟨hok, h⟩ := Option.ite_none_right_eq_some.mp h
    obtain ⟨n', hn, h⟩ := Option.bind_eq_some_iff.mp h
    exact ih (hs.step (Choice.enabled he) hok hn) h

/-- A data packet from 0 to 3, which was forwarded `numForwards` times and goes to `nextHop`. -/
def dataPacket (numForwards nextHop : ℕ) : Packet :=
  { saddr := 0, daddr := some 3, ttl := networkDiameter, nextHop, numForwards, up := false
    body := .data }

/-- Node 0 finds a route to 3 through 1 and 2. -/
def discovery : List (ℕ × ℚ × Choice) :=
  [(0, 1, .happen (.recv (dataPacket 0 0))), (1, 11 / 10, .deliver 0 0), (2, 12 / 10, .deliver 1 0),
    (3, 13 / 10, .deliver 2 0), (2, 14 / 10, .deliver 3 0), (1, 15 / 10, .deliver 2 1),
    (0, 16 / 10, .deliver 1 1)]

end NetSim.Aodv
