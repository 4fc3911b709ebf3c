import Mathlib
import NetSim.Lib.Runs
import NetSim.Satellite.Hdlc

/-! # The reset timer of a go-back-N receiver

A go-back-N receiver sets `reset_timer_` when it rejects a frame (`goBackNMode` in `satellite/sat-hdlc.cc`);
when the timer expires, the connection is reset. A frame that arrives in order ends the reject, but does not
cancel the timer.
-/

namespace NetSim.Hdlc

/-- A receiver, the time at which `reset_timer_` expires when it is pending, and the time of the last reject,
as long as the frame that it asks for has not arrived. -/
structure Receiver where
  arq : ARQstate
  resetTimer : Option ℚ
  outstanding : Option ℚ

namespace Receiver

inductive Event
  | arrive (p : Numbered)
  | expire

def init (sabmeReq : ℤ) : Receiver := ⟨newEntry sabmeReq, none, none⟩

/-- An event at the time `now`, where `timeout` is `reset_timeout()`; `none` when the station resets, or the
timer does not expire at this time. -/
def step (cfg : Config) (timeout : ℚ) (x : Receiver) (e : ℚ × Event) : Option (Receiver × Unit) :=
  match e.2 with
  | .arrive p =>
    let a := x.arq.firstData p
    let x' := { x with arq := a.goBackNMode cfg p }
    some (if x.arq.sabmeReq = 1 then x
      else if p.sendSeqno = a.recvSeqno then { x' with outstanding := none }
      else if a.recvSeqno < p.sendSeqno ∧ a.sentREJ = false then
        { x' with resetTimer := some (e.1 + timeout), outstanding := some e.1 }
      else x', ())
  | .expire => none

def Waits (timeout : ℚ) (x : Receiver) : Prop :=
  ∀ d, x.resetTimer = some d → x.arq.sentREJ = true ∧ ∃ t, x.outstanding = some t ∧ d = t + timeout

/-- No frame arrives in order while the timer is pending; before the connection is set up, none is taken. -/
def Late (x : Receiver) (e : ℚ × Event) : Prop :=
  ∀ p, e.2 = .arrive p → x.arq.sabmeReq ≠ 1 → p.sendSeqno = (x.arq.firstData p).recvSeqno → x.resetTimer = none

variable {cfg : Config} {timeout : ℚ} {x x' : Receiver} {e : ℚ × Event} {es : List (ℚ × Event)}

theorem sentREJ_ack (cfg : Config) (a : ARQstate) : (a.ack cfg).sentREJ = a.sentREJ := by
  unfold ARQstate.ack
  split
  · split <;> rfl
  · rfl

theorem sentREJ_firstData (a : ARQstate) (p : Numbered) : (a.firstData p).sentREJ = a.sentREJ := by
  unfold ARQstate.firstData
  split <;> rfl

/-- What `goBackNMode` does to `sentREJ_`. -/
theorem sentREJ_goBackNMode (cfg : Config) (a : ARQstate) (p : Numbered) :
    (a.goBackNMode cfg p).sentREJ =
      if p.sendSeqno = a.recvSeqno then false else decide (a.recvSeqno < p.sendSeqno) || a.sentREJ := by
  unfold ARQstate.goBackNMode
  split_ifs with horder hdelay hahead hrej
  · rfl
  · exact sentREJ_ack cfg _
  · simp [hrej]
  · simp [hahead, ARQstate.sendDown]
  · simp [hahead, sentREJ_ack]

theorem waits_iff (h : x.Waits timeout) (hs : step cfg timeout x e = some (x', ())) :
    x'.Waits timeout ↔ x.Late e := by
  obtain ⟨now, e⟩ := e
  cases e with
  | expire => cases hs
  | arrive p =>
    have hrej := sentREJ_goBackNMode cfg (x.arq.firstData p) p
    have hfirst := sentREJ_firstData x.arq p
    cases hs
    by_cases hone : x.arq.sabmeReq = 1
    · rw [if_pos hone]
      exact iff_of_true h (fun p' hp hready => absurd hone hready)
    rw [if_neg hone]
    by_cases horder : p.sendSeqno = (x.arq.firstData p).recvSeqno
    · rw [if_pos horder] at hrej ⊢
      constructor
      · rintro hwaits p' ⟨⟩ - -
        cases htimer : x.resetTimer with
        | none => rfl
        | some d => exact absurd ((hwaits d htimer).1.symm.trans hrej) (by decide)
      · intro hlate d hd
        exact absurd (hd.symm.trans (hlate p rfl hone horder)) (by simp)
    · rw [if_neg horder] at hrej ⊢
      refine ⟨fun _ p' hp _ horder' => absurd (by cases hp; exact horder') horder, fun _ d hd => ?_⟩
      split_ifs at hd ⊢ with hahead
      · cases hd
        exact ⟨by simpa [hahead.1] using hrej, now, rfl, rfl⟩
      · obtain ⟨hsent, hwait⟩ := h d hd
        exact ⟨by simpa [hfirst, hsent] using hrej, hwait⟩

/-- **The reset timer** is pending only while a reject is outstanding, in all states of a run, if and only if
no frame arrives in order while it is pending. -/
theorem reset_timer_iff (cfg : Config) (timeout : ℚ) (sabmeReq : ℤ) (es : List (ℚ × Event)) :
    (∀ past x outs, past <+: es → Runs.run (step cfg timeout) (init sabmeReq) past = some (x, outs) →
      x.Waits timeout) ↔ Runs.Meets (step cfg timeout) Late (init sabmeReq) es := by
  have hinit : (init sabmeReq).Waits timeout := fun d hd => by cases hd
  constructor
  · intro hall
    refine Runs.meets_of_prefixes (fun past e r hpre _ hr => ?_)
    have hwaits := hall past r.1 r.2 ((List.prefix_append _ _).trans hpre) hr
    cases hs : step cfg timeout r.1 e with
    | none =>
      intro p hp
      simp [step, hp] at hs
    | some r' => exact (waits_iff hwaits hs).mp (hall _ r'.1 _ hpre (Runs.run_concat hr hs))
  · rintro hmeets past x outs ⟨rest, rfl⟩ hrun
    exact @Runs.run_preserves _ _ _ _ _ _ _ _ _ [] (fun _ x => x.Waits timeout)
      (fun _ x e x' _ h hlate hs => (waits_iff h hs).mpr hlate) hinit hmeets.append_left hrun

/-- The frame 1 is lost and rejected, and the frames 1 and 2 arrive: the connection is reset nevertheless. -/
theorem reset_in_order : ∃ x outs, Runs.run (step ⟨7, 10, 3, false, true⟩ 5) (init 2)
    [(0, .arrive ⟨0, ⟨0, 30⟩⟩), (1, .arrive ⟨2, ⟨2, 30⟩⟩), (2, .arrive ⟨1, ⟨1, 30⟩⟩), (3, .arrive ⟨2, ⟨2, 30⟩⟩)] =
      some (x, outs) ∧ ¬ x.Waits 5 := by
  refine ⟨_, _, rfl, fun hwaits => ?_⟩
  exact absurd (hwaits (1 + 5) rfl).1 (by decide)

end Receiver

end NetSim.Hdlc
