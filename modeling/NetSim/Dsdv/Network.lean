import NetSim.Dsdv.Agent

/-! # A network of DSDV agents

Every address has an agent that was started. An update can be received once it was sent, any number of
times and in any order, by every other agent. Updates are sent, data packets come up, neighbours with a
timeout event time out and links are lost at any time.
-/

namespace NetSim.Dsdv

inductive Event
  | update (src : ℕ) (adverts : List Advert)
  | periodic
  | triggered
  | data (p : DataPacket)
  | timeout (hop : ℕ)
  | lostLink (p : DataPacket) (hop : ℕ)
deriving DecidableEq

namespace Agent

def step (n : Agent) (now : ℚ) : Event → Option Agent
  | .update src adverts => n.processUpdate now src adverts
  | .periodic => some (n.makeUpdate now true)
  | .triggered => some (n.makeUpdate now false)
  | .data p => some (n.recv now p)
  | .timeout hop => some (n.helperCallback now hop)
  | .lostLink p hop => some (n.lostLink now p hop)

end Agent

/-- The events that can happen at the agent `a`. -/
def Enabled (s : ℕ → Agent) (a : ℕ) : Event → Prop
  | .update src adverts => src ≠ a ∧ adverts ∈ (s src).updates
  | .timeout hop => ∃ e, (s a).table.getEntry hop = some e ∧ e.timeoutEvent
  | _ => True

/-- Every agent was started. -/
def Started (s : ℕ → Agent) : Prop :=
  ∀ a, ∃ now useMac diffSubnet baseStn alpha wst0,
    s a = Agent.startUp a now useMac diffSubnet baseStn alpha wst0

/-- The states that a network reaches by events that meet a condition. -/
inductive Reachable (ok : Agent → Event → Prop) (s₀ : ℕ → Agent) : (ℕ → Agent) → Prop
  | init : Reachable ok s₀ s₀
  | step {s : ℕ → Agent} {a : ℕ} {now : ℚ} {e : Event} {n' : Agent} :
      Reachable ok s₀ s → Enabled s a e → ok (s a) e → (s a).step now e = some n' →
      Reachable ok s₀ (Function.update s a n')

/-! ## Schedules

A schedule names the update that is delivered by its sender and its place among the updates sent.
-/

inductive Choice
  | deliver (sender place : ℕ)
  | happen (e : Event)

def Choice.event (s : ℕ → Agent) (a : ℕ) : Choice → Option Event
  | .deliver sender place =>
    if sender = a then none else ((s sender).updates[place]?).map (.update sender)
  | .happen (.update _ _) => none
  | .happen (.timeout hop) =>
    if ((s a).table.getEntry hop).any (·.timeoutEvent) then some (.timeout hop) else none
  | .happen e => some e

def follow (ok : Agent → Event → Prop) [∀ n e, Decidable (ok n e)] :
    List (ℕ × ℚ × Choice) → (ℕ → Agent) → Option (ℕ → Agent)
  | [], s => some s
  | (a, now, choice) :: rest, s =>
    (choice.event s a).bind (fun e =>
      if ok (s a) e then
        ((s a).step now e).bind (fun n' => follow ok rest (Function.update s a n'))
      else none)

theorem Choice.enabled {s : ℕ → Agent} {a : ℕ} {choice : Choice} {e : Event}
    (h : choice.event s a = some e) : Enabled s a e := by
  cases choice with
  | deliver sender place =>
    obtain ⟨hne, h⟩ := Option.ite_none_left_eq_some.mp h
    obtain ⟨adverts, hadverts, rfl⟩ := Option.map_eq_some_iff.mp h
    exact ⟨hne, List.mem_of_getElem? hadverts⟩
  | happen e' =>
    cases e' with
    | update src adverts => cases h
    | timeout hop =>
      obtain ⟨hany, h⟩ := Option.ite_none_right_eq_some.mp h
      cases h
      cases hget : (s a).table.getEntry hop with
      | none =>
        rw [hget] at hany
        cases hany
      | some e =>
        rw [hget] at hany
        exact ⟨e, hget, hany⟩
    | periodic => cases h; trivial
    | triggered => cases h; trivial
    | data p => cases h; trivial
    | lostLink p hop => cases h; trivial

theorem Reachable.follow {ok : Agent → Event → Prop} [∀ n e, Decidable (ok n e)]
    {schedule : List (ℕ × ℚ × Choice)} {s₀ s s' : ℕ → Agent} (hs : Reachable ok s₀ s)
    (h : Dsdv.follow ok schedule s = some s') : Reachable ok s₀ s' := by
  induction schedule generalizing s with
  | nil =>
    cases h
    exact hs
  | cons x rest ih =>
    obtain ⟨e, he, h⟩ := Option.bind_eq_some_iff.mp h
    obtain ⟨hok, h⟩ := Option.ite_none_right_eq_some.mp h
    obtain ⟨n', hn, h⟩ := Option.bind_eq_some_iff.mp h
    exact ih (hs.step (Choice.enabled he) hok hn) h

end NetSim.Dsdv
