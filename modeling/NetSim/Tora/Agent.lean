import Mathlib.Logic.Function.Basic
import NetSim.Tora.Dest

/-! # A network of TORA agents

A `toraAgent` (`tora/tora.cc`, `tora/tora_api.cc`) keeps a list of destinations. A message can be received
once it was sent, any number of times and in any order, by every other agent; links come up and go down at
any time. The neighbours that IMEP knows (`imepGetBiLinks`) are an input.
-/

namespace NetSim.Tora

/-- `toraAgent`, with the messages that it sent and the reference levels that it created. -/
structure Agent where
  ipaddr : ℤ
  dstlist : List TORADest
  sent : List Msg
  levels : List Height

inductive Event
  | recv (src : ℤ) (m : Msg)
  | data (dst : ℤ)
  | linkUp (nb : ℤ)
  | linkDn (nb : ℤ)
deriving DecidableEq

namespace Agent

def init (id : ℤ) : Agent where
  ipaddr := id
  dstlist := []
  sent := []
  levels := []

def dstFind (n : Agent) (id : ℤ) : Option TORADest := n.dstlist.find? (·.index = id)

def dstAdd (n : Agent) (now : ℚ) (biLinks : List ℤ) (id : ℤ) : Agent :=
  { n with dstlist := biLinks.foldl (fun td nb => td.nbAdd now nb) (TORADest.init id) :: n.dstlist }

/-- `dst_find`, and `dst_add` where it finds nothing. -/
def dstEnsure (n : Agent) (now : ℚ) (biLinks : List ℤ) (id : ℤ) : Agent :=
  match n.dstFind id with
  | some _ => n
  | none => n.dstAdd now biLinks id

def apply (n : Agent) (o : Outcome) : Agent :=
  { n with
    dstlist := n.dstlist.map (fun td => if td.index = o.td.index then o.td else td)
    sent := n.sent ++ o.sent
    levels := n.levels ++ o.levels }

def recvTORA (n : Agent) (now : ℚ) (biLinks : List ℤ) (src : ℤ) : Msg → Option Agent
  | .qry dst =>
    if dst = n.ipaddr then some n
    else
      let n := n.dstEnsure now biLinks dst
      (n.dstFind dst).map (fun td => n.apply (td.recvQRY now n.ipaddr src))
  | .upd dst h =>
    if dst = n.ipaddr then some n
    else
      let n := n.dstEnsure now biLinks dst
      ((n.dstFind dst).bind (fun td => td.recvUPD now n.ipaddr src h)).map n.apply
  | .clr dst tau oid =>
    if dst = n.ipaddr then some n
    else
      let n := n.dstEnsure now biLinks dst
      (n.dstFind dst).map (fun td => n.apply (td.recvCLR now n.ipaddr src tau oid))

def rtResolve (n : Agent) (now : ℚ) (biLinks : List ℤ) (dst : ℤ) : Option Agent :=
  let n := n.dstEnsure now biLinks dst
  (n.dstFind dst).map (fun td =>
    match td.nbFindNextHop with
    | some _ => n
    | none =>
      if td.rtReq then n else n.apply ⟨{ td with rtReq := true }, [.qry td.index], []⟩)

/-- The part of `toraAgent::rtNotifyLinkUP` for a destination. -/
def linkUp (now : ℚ) (nb : ℤ) (td : TORADest) : Outcome :=
  let td := if td.nbFind nb = none then td.nbAdd now nb else td
  ⟨td, if td.rtReq then [.qry td.index] else [], []⟩

/-- The part of `toraAgent::rtNotifyLinkDN` for a destination. -/
def linkDn (now : ℚ) (nb : ℤ) (td : TORADest) : Outcome :=
  let r := td.nbDel now nb
  ⟨r.1, if r.2.1 then [.upd r.1.index r.1.height] else [], r.2.2⟩

def applyAll (n : Agent) (f : TORADest → Outcome) : Agent :=
  { n with
    dstlist := n.dstlist.map (fun td => (f td).td)
    sent := n.sent ++ n.dstlist.flatMap (fun td => (f td).sent)
    levels := n.levels ++ n.dstlist.flatMap (fun td => (f td).levels) }

def step (n : Agent) (now : ℚ) (biLinks : List ℤ) : Event → Option Agent
  | .recv src m => n.recvTORA now biLinks src m
  | .data dst => n.rtResolve now biLinks dst
  | .linkUp nb => some (n.applyAll (linkUp now nb))
  | .linkDn nb => some (n.applyAll (linkDn now nb))

end Agent

/-- The events that can happen at the agent `a`: messages come from other agents, and data packets are for
other agents. -/
def Enabled (s : ℤ → Agent) (a : ℤ) : Event → Prop
  | .recv src m => src ≠ a ∧ m ∈ (s src).sent
  | .data dst => dst ≠ a
  | .linkUp _ => True
  | .linkDn _ => True

inductive Reachable (ok : Agent → Event → Prop) : (ℤ → Agent) → Prop
  | init : Reachable ok Agent.init
  | step {s : ℤ → Agent} {a : ℤ} {now : ℚ} {biLinks : List ℤ} {e : Event} {n' : Agent} :
      Reachable ok s → Enabled s a e → ok (s a) e → (s a).step now biLinks e = some n' →
      Reachable ok (Function.update s a n')

/-! ## Schedules

A schedule names the message that is delivered by its sender and its place among the messages sent.
-/

inductive Choice
  | deliver (sender : ℤ) (place : ℕ)
  | data (dst : ℤ)
  | linkUp (nb : ℤ)
  | linkDn (nb : ℤ)

def Choice.event (s : ℤ → Agent) (a : ℤ) : Choice → Option Event
  | .deliver sender place =>
    if sender = a then none else ((s sender).sent[place]?).map (.recv sender)
  | .data dst => if dst = a then none else some (.data dst)
  | .linkUp nb => some (.linkUp nb)
  | .linkDn nb => some (.linkDn nb)

def follow (ok : Agent → Event → Prop) [∀ n e, Decidable (ok n e)] :
    List (ℤ × ℚ × List ℤ × Choice) → (ℤ → Agent) → Option (ℤ → Agent)
  | [], s => some s
  | (a, now, biLinks, choice) :: rest, s =>
    (choice.event s a).bind (fun e =>
      if ok (s a) e then
        ((s a).step now biLinks e).bind (fun n' => follow ok rest (Function.update s a n'))
      else none)

theorem Choice.enabled {s : ℤ → Agent} {a : ℤ} {choice : Choice} {e : Event}
    (h : choice.event s a = some e) : Enabled s a e := by
  cases choice with
  | deliver sender place =>
    obtain ⟨hne, h⟩ := Option.ite_none_left_eq_some.mp h
    obtain ⟨m, hm, rfl⟩ := Option.map_eq_some_iff.mp h
    exact ⟨hne, List.mem_of_getElem? hm⟩
  | data dst =>
    obtain ⟨hne, h⟩ := Option.ite_none_left_eq_some.mp h
    cases h
    exact hne
  | linkUp nb => cases h; trivial
  | linkDn nb => cases h; trivial

theorem Reachable.follow {ok : Agent → Event → Prop} [∀ n e, Decidable (ok n e)]
    {schedule : List (ℤ × ℚ × List ℤ × Choice)} {s s' : ℤ → Agent} (hs : Reachable ok s)
    (h : Tora.follow ok schedule s = some s') : Reachable ok s' := by
  induction schedule generalizing s with
  | nil =>
    cases h
    exact hs
  | cons x rest ih =>
    obtain ⟨e, he, h⟩ := Option.bind_eq_some_iff.mp h
    obtain ⟨hok, h⟩ := Option.ite_none_right_eq_some.mp h
    obtain ⟨n', hn, h⟩ := Option.bind_eq_some_iff.mp h
    exact ih (hs.step (Choice.enabled he) hok hn) h

end NetSim.Tora
