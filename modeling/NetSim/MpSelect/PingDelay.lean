import Mathlib.Tactic.Linarith
import NetSim.MpSelect.Ping

/-! # The delay that the pings measure

An agent with its ping timer: `start` fires it at once, `stop-ping` cancels it, and every expiry is a ping
round that sets it again. When the echo of an old ping arrives, `mpath::update_send_delay` reconstructs the
time at which it was sent from the time of the last one, as if the rounds had been `SEND_PING_INTERVAL`
apart. The delay is exact if they were (`ping_delay_exact`).
-/

namespace NetSim.Ping

open List

def sendPingInterval : ℚ := 1

def updateSendDelay (t : ℚ) (seq : ℕ) (path : PingItem) : PingItem :=
  if seq < path.pingSeq then
    { path with sendDelay := t + (path.pingSeq - seq - 1) * sendPingInterval - path.pingSendTime }
  else path

/-- The agent: the tables and the cursor as in a round, the time at which the timer expires, and the pings
that were sent. -/
structure Pinger where
  tables : Unit → PingTable
  cursor : Cursor Unit
  timer : Option ℚ
  clock : ℚ
  sent : List PingPkt

inductive Event where
  | start
  | stopPing
  | expire
  | back (pkt : PingPkt)

/-- What an event does at a time. `cancel` of a timer that is not pending aborts. -/
def handle (raAddr : NsAddr) (fuel : ℕ) (s : Pinger) (now : ℚ) : Event → Option Pinger
  | .start => some { s with timer := some now, clock := now }
  | .stopPing => s.timer.map (fun _ => { s with timer := none, clock := now })
  | .expire =>
    (sendPingHandler raAddr () now fuel fuel s.tables s.cursor).map (fun r =>
      { tables := r.1, cursor := r.2.1, timer := some (now + sendPingInterval), clock := now,
        sent := s.sent ++ r.2.2 })
  | .back pkt =>
    (onSelects (s.tables ()) fuel pkt.sSelect pkt.dIntf pkt.sIntf
      (updateSendDelay pkt.sendTime pkt.pingSeq)).map (fun t => { s with tables := fun _ => t, clock := now })

def pingStep (raAddr : NsAddr) (fuel : ℕ) (s : Pinger) (e : ℚ × Event) : Option (Pinger × Unit) :=
  (handle raAddr fuel s e.1 e.2).map (fun s => (s, ()))

def Occurs (s : Pinger) (e : ℚ × Event) : Prop :=
  s.clock ≤ e.1 ∧ (∀ d ∈ s.timer, e.1 ≤ d) ∧
    match e.2 with
    | .expire => s.timer = some e.1
    | _ => True

/-- The ping was sent on the path that the echo comes back on. -/
def Answers (pkt k : PingPkt) : Prop := k.dSelect = pkt.sSelect ∧ k.sIntf = pkt.dIntf ∧ k.dIntf = pkt.sIntf

instance (pkt k : PingPkt) : Decidable (Answers pkt k) :=
  inferInstanceAs (Decidable (k.dSelect = pkt.sSelect ∧ k.sIntf = pkt.dIntf ∧ k.dIntf = pkt.sIntf))

/-- The echo comes back on a configured path. -/
def OnPath (pkt : PingPkt) (p : NsAddr × PingItem) : Prop :=
  p.1 = pkt.sSelect ∧ p.2.sIntf = pkt.dIntf ∧ p.2.dIntf = pkt.sIntf

/-- **The measurement is exact**: the delay is the time in the echo less the time at which that ping was
sent on the path; the echo of a ping that was not sent changes nothing. -/
def Exact (fuel : ℕ) (s : Pinger) (pkt : PingPkt) (s' : Pinger) : Prop :=
  ∀ (i : ℕ) p p', (configured fuel (s.tables ()))[i]? = some p →
    (configured fuel (s'.tables ()))[i]? = some p' → OnPath pkt p →
      (∀ k ∈ s.sent, Answers pkt k → k.pingSeq = pkt.pingSeq → p'.2.sendDelay = pkt.sendTime - k.sendTime) ∧
        ((∀ k ∈ s.sent, Answers pkt k → k.pingSeq ≠ pkt.pingSeq) → p' = p)

/-- The condition on an echo: the last ping on the path was sent as many intervals after the one that is
answered as their numbers are apart. -/
def Regular (s : Pinger) (e : ℚ × Event) : Prop :=
  match e.2 with
  | .back pkt => ∀ k ∈ s.sent, ∀ l ∈ s.sent, Answers pkt k → Answers pkt l → k.pingSeq = pkt.pingSeq →
      (∀ j ∈ s.sent, Answers pkt j → j.pingSeq ≤ l.pingSeq) →
        l.sendTime - k.sendTime = (l.pingSeq - k.pingSeq) * sendPingInterval
  | _ => True

instance (s : Pinger) : ∀ e, Decidable (Regular s e)
  | (_, .back pkt) => inferInstanceAs (Decidable (∀ k ∈ s.sent, ∀ l ∈ s.sent, Answers pkt k → Answers pkt l →
      k.pingSeq = pkt.pingSeq → (∀ j ∈ s.sent, Answers pkt j → j.pingSeq ≤ l.pingSeq) →
        l.sendTime - k.sendTime = (l.pingSeq - k.pingSeq) * sendPingInterval))
  | (_, .start) => isTrue trivial
  | (_, .stopPing) => isTrue trivial
  | (_, .expire) => isTrue trivial

instance (s : Pinger) : ∀ e, Decidable (Occurs s e)
  | (now, .expire) =>
    inferInstanceAs (Decidable (s.clock ≤ now ∧ (∀ d ∈ s.timer, now ≤ d) ∧ s.timer = some now))
  | (now, .back _) => inferInstanceAs (Decidable (s.clock ≤ now ∧ (∀ d ∈ s.timer, now ≤ d) ∧ True))
  | (now, .start) => inferInstanceAs (Decidable (s.clock ≤ now ∧ (∀ d ∈ s.timer, now ≤ d) ∧ True))
  | (now, .stopPing) => inferInstanceAs (Decidable (s.clock ≤ now ∧ (∀ d ∈ s.timer, now ≤ d) ∧ True))

def AllExact (raAddr : NsAddr) (fuel : ℕ) (s₀ : Pinger) (ops : List (ℚ × Event)) : Prop :=
  ∀ past now pkt s outs s', past ++ [(now, .back pkt)] <+: ops →
    Runs.run (pingStep raAddr fuel) s₀ past = some (s, outs) →
      handle raAddr fuel s now (.back pkt) = some s' → Exact fuel s pkt s'

/-! ## The invariant -/

/-- After rounds at the times `ts`, every path has their number as its `ping_seq_` and the time of the last
one; and the pings that were sent are those of the rounds. -/
structure Rounds (raAddr : NsAddr) (ys : List ℕ) (zs : ℕ → List ℕ) (addr : ℕ → NsAddr)
    (item : ℕ → ℕ → PingItem) (s : Pinger) (ts : List ℚ) : Prop where
  holds : Holds (s.tables ()) ys zs addr item
  cursor : s.cursor = .null
  seq : ∀ y ∈ ys, ∀ z ∈ zs y, (item y z).pingSeq = ts.length
  last : ∀ y ∈ ys, ∀ z ∈ zs y, ∀ t ∈ ts.getLast?, (item y z).pingSendTime = t
  sent : ∀ k, k ∈ s.sent ↔ ∃ y ∈ ys, ∃ z ∈ zs y, ∃ t, ts[k.pingSeq]? = some t ∧
    k = ⟨(item y z).sIntf, (item y z).dIntf, raAddr, addr y, t, k.pingSeq⟩

variable {raAddr : NsAddr} {fuel : ℕ} {s s' s₀ : Pinger} {ys : List ℕ} {zs : ℕ → List ℕ} {addr : ℕ → NsAddr}
  {item : ℕ → ℕ → PingItem} {ts : List ℚ} {now : ℚ} {pkt k : PingPkt} {ops : List (ℚ × Event)} {e : ℚ × Event}

theorem keepsPair_updateSendDelay (t : ℚ) (seq : ℕ) : KeepsPair (updateSendDelay t seq) := by
  intro path
  unfold updateSendDelay
  split
  · exact ⟨rfl, rfl⟩
  · exact ⟨rfl, rfl⟩

theorem Rounds.expire (h : Rounds raAddr ys zs addr item s ts) (hlen : ys.length + 1 < fuel)
    (hlens : ∀ y ∈ ys, (zs y).length < fuel) (hall : (positions ys zs).length < fuel) :
    ∃ s', handle raAddr fuel s now .expire = some s' ∧
      Rounds raAddr ys zs addr (fun y z => bump now (item y z)) s' (ts ++ [now]) := by
  have hstart : Holds (s.tables ()) ys zs addr (pinged now (positions ys zs) item) :=
    h.holds.congr (fun y hy z hz => (if_pos (mem_positions.mpr ⟨hy, hz⟩)).symm)
  obtain ⟨t', hcall, hholds⟩ := @sendPingHandler_from _ _ _ _ _ _ _ _ _ _ _ raAddr _ _ hstart (Or.inl ⟨rfl, rfl⟩) hlen hlens hall
  rw [handle, h.cursor, hcall]
  refine ⟨_, rfl, ?_, rfl, fun y hy z hz => ?_, fun y hy z hz t ht => ?_, fun k => ?_⟩
  · exact (@NetSim.Ping.Holds.congr _ _ _ _ _ (fun y z => bump now (item y z)) hholds (fun y hy z hz => if_neg not_mem_nil))
  · rw [length_append, length_singleton]
    exact congrArg (· + 1) (h.seq y hy z hz)
  · rw [getLast?_append, getLast?_singleton] at ht
    cases ht
    rfl
  · rw [mem_append, h.sent, mem_map]
    constructor
    · rintro (⟨y, hy, z, hz, t, ht, hk⟩ | ⟨⟨y, z⟩, hpos, rfl⟩)
      · refine ⟨y, hy, z, hz, t, ?_, hk⟩
        rw [getElem?_append_left (List.getElem?_eq_some_iff.mp ht).1]
        exact ht
      · obtain ⟨hy, hz⟩ := mem_positions.mp hpos
        refine ⟨y, hy, z, hz, now, ?_, rfl⟩
        show (ts ++ [now])[(item y z).pingSeq]? = some now
        rw [h.seq y hy z hz, getElem?_append_right le_rfl, Nat.sub_self]
        rfl
    · rintro ⟨y, hy, z, hz, t, ht, hk⟩
      by_cases hlt : k.pingSeq < ts.length
      · rw [getElem?_append_left hlt] at ht
        exact Or.inl ⟨y, hy, z, hz, t, ht, hk⟩
      · have hseq : k.pingSeq = ts.length := by
          have hle := (List.getElem?_eq_some_iff.mp ht).1
          rw [length_append, length_singleton] at hle
          omega
        rw [hseq, getElem?_append_right le_rfl, Nat.sub_self] at ht
        cases ht
        refine Or.inr ⟨(y, z), mem_positions.mpr ⟨hy, hz⟩, ?_⟩
        rw [hk, packet, h.seq y hy z hz, ← hseq]
        rfl

theorem Rounds.back (h : Rounds raAddr ys zs addr item s ts) (hlen : ys.length < fuel)
    (hlens : ∀ y ∈ ys, (zs y).length < fuel) :
    ∃ s', handle raAddr fuel s now (.back pkt) = some s' ∧
      Rounds raAddr ys zs addr (changeAll addr pkt.sSelect pkt.dIntf pkt.sIntf
        (updateSendDelay pkt.sendTime pkt.pingSeq) item) s' ts := by
  obtain ⟨t', heq, hholds⟩ := @onSelects_holds _ _ _ _ _ _ pkt.dIntf pkt.sIntf pkt.sSelect _ h.holds hlen hlens (keepsPair_updateSendDelay pkt.sendTime pkt.pingSeq)
  have hfields : ∀ y z, (changeAll addr pkt.sSelect pkt.dIntf pkt.sIntf
      (updateSendDelay pkt.sendTime pkt.pingSeq) item y z).pingSeq = (item y z).pingSeq ∧
      (changeAll addr pkt.sSelect pkt.dIntf pkt.sIntf
        (updateSendDelay pkt.sendTime pkt.pingSeq) item y z).pingSendTime = (item y z).pingSendTime ∧
      (changeAll addr pkt.sSelect pkt.dIntf pkt.sIntf
        (updateSendDelay pkt.sendTime pkt.pingSeq) item y z).sIntf = (item y z).sIntf ∧
      (changeAll addr pkt.sSelect pkt.dIntf pkt.sIntf
        (updateSendDelay pkt.sendTime pkt.pingSeq) item y z).dIntf = (item y z).dIntf := by
    intro y z
    unfold changeAll change updateSendDelay
    split
    · split
      · split
        · exact ⟨rfl, rfl, rfl, rfl⟩
        · exact ⟨rfl, rfl, rfl, rfl⟩
      · exact ⟨rfl, rfl, rfl, rfl⟩
    · exact ⟨rfl, rfl, rfl, rfl⟩
  rw [handle, heq]
  refine ⟨_, rfl, hholds, h.cursor, fun y hy z hz => (hfields y z).1.trans (h.seq y hy z hz),
    fun y hy z hz t ht => (hfields y z).2.1.trans (h.last y hy z hz t ht), fun k => (h.sent k).trans ?_⟩
  simp only [fun y z => (hfields y z).2.2.1, fun y z => (hfields y z).2.2.2]

theorem Rounds.time (h : Rounds raAddr ys zs addr item s ts) (hk : k ∈ s.sent) :
    ts[k.pingSeq]? = some k.sendTime := by
  obtain ⟨y, -, z, -, t, ht, hk⟩ := (h.sent k).mp hk
  have htime : k.sendTime = t := by rw [hk]
  rw [htime]
  exact ht

theorem Rounds.ping (h : Rounds raAddr ys zs addr item s ts) {y z q : ℕ} {t : ℚ} (hy : y ∈ ys) (hz : z ∈ zs y)
    (ht : ts[q]? = some t) (hpath : OnPath pkt (addr y, item y z)) :
    ∃ k ∈ s.sent, Answers pkt k ∧ k.pingSeq = q ∧ k.sendTime = t :=
  ⟨⟨(item y z).sIntf, (item y z).dIntf, raAddr, addr y, t, q⟩, (h.sent _).mpr ⟨y, hy, z, hz, t, ht, rfl⟩, hpath,
    rfl, rfl⟩

theorem Rounds.exact_iff (h : Rounds raAddr ys zs addr item s ts) (hlen : ys.length < fuel)
    (hlens : ∀ y ∈ ys, (zs y).length < fuel) (hs : handle raAddr fuel s now (.back pkt) = some s') :
    Exact fuel s pkt s' ↔ Regular s (now, .back pkt) := by
  obtain ⟨s'', hs'', h'⟩ := @NetSim.Ping.Rounds.back _ _ _ _ _ _ _ _ now pkt h hlen hlens
  rw [hs] at hs''
  cases hs''
  have hconf := h.holds.configured hlen hlens
  have hconf' := h'.holds.configured hlen hlens
  -- the path that the echo comes back on, before and behind
  have hafter : ∀ y z, OnPath pkt (addr y, item y z) →
      changeAll addr pkt.sSelect pkt.dIntf pkt.sIntf (updateSendDelay pkt.sendTime pkt.pingSeq) item y z =
        updateSendDelay pkt.sendTime pkt.pingSeq (item y z) := by
    intro y z hpath
    rw [changeAll, if_pos hpath.1, change, if_pos hpath.2]
  constructor
  · intro hexact k hk l hl hak hal hseq hlast
    obtain ⟨y, hy, z, hz, t, ht, hkeq⟩ := (h.sent k).mp hk
    have hpath : OnPath pkt (addr y, item y z) := by
      rw [hkeq] at hak
      exact hak
    obtain ⟨i, hi, hget⟩ := getElem_of_mem (mem_positions.mpr ⟨hy, hz⟩)
    have hi' : (positions ys zs)[i]? = some (y, z) := by rw [getElem?_eq_getElem hi, hget]
    have hdelay := (hexact i (addr y, item y z) _ (by rw [hconf, getElem?_map, hi']; rfl)
      (by rw [hconf', getElem?_map, hi']; rfl) hpath).1 k hk hak hseq
    dsimp only at hdelay
    have hkt := h.time hk
    have hlt := h.time hl
    have hkn := (List.getElem?_eq_some_iff.mp hkt).1
    have hln := (List.getElem?_eq_some_iff.mp hlt).1
    -- `l` is the last ping on the path
    have hlseq : l.pingSeq = ts.length - 1 := by
      obtain ⟨t', ht'⟩ : ∃ t', ts[ts.length - 1]? = some t' :=
        ⟨_, getElem?_eq_getElem (show ts.length - 1 < ts.length by omega)⟩
      obtain ⟨j, hj, haj, hjseq, -⟩ := h.ping hy hz ht' hpath
      have hle := hlast j hj haj
      omega
    have hsend : (item y z).pingSendTime = l.sendTime := by
      refine h.last y hy z hz l.sendTime ?_
      rw [getLast?_eq_getElem?, ← hlseq]
      exact hlt
    rw [hafter y z hpath, updateSendDelay, h.seq y hy z hz, if_pos (by omega), hsend] at hdelay
    have hcast : (l.pingSeq : ℚ) = ts.length - 1 := by
      rw [hlseq, Nat.cast_sub (by omega), Nat.cast_one]
    rw [hcast, hseq]
    linarith
  · intro hreg i p p' hp hp' hpath
    rw [hconf, getElem?_map] at hp
    rw [hconf', getElem?_map] at hp'
    obtain ⟨⟨y, z⟩, hpos, rfl⟩ := Option.map_eq_some_iff.mp hp
    rw [hpos, Option.map_some] at hp'
    cases hp'
    obtain ⟨hy, hz⟩ := mem_positions.mp (mem_of_getElem? hpos)
    rw [hafter y z hpath, updateSendDelay, h.seq y hy z hz]
    refine ⟨fun k hk hak hseq => ?_, fun hnone => ?_⟩
    · have hkn := (List.getElem?_eq_some_iff.mp (h.time hk)).1
      obtain ⟨t', ht'⟩ : ∃ t', ts[ts.length - 1]? = some t' :=
        ⟨_, getElem?_eq_getElem (show ts.length - 1 < ts.length by omega)⟩
      obtain ⟨l, hl, hal, hlseq, hlt⟩ := h.ping hy hz ht' hpath
      have hmax : ∀ j ∈ s.sent, Answers pkt j → j.pingSeq ≤ l.pingSeq := by
        intro j hj _
        have hjn := (List.getElem?_eq_some_iff.mp (h.time hj)).1
        omega
      have hgap := hreg k hk l hl hak hal hseq hmax
      have hsend : (item y z).pingSendTime = l.sendTime := by
        refine h.last y hy z hz l.sendTime ?_
        rw [getLast?_eq_getElem?, hlt]
        exact ht'
      have hcast : (l.pingSeq : ℚ) = ts.length - 1 := by
        rw [hlseq, Nat.cast_sub (by omega), Nat.cast_one]
      rw [if_pos (by omega)]
      rw [hcast, hseq] at hgap
      linarith
    · have hge : ¬ pkt.pingSeq < ts.length := by
        intro hlt
        obtain ⟨k, hk, hak, hkseq, -⟩ := h.ping hy hz (getElem?_eq_getElem hlt) hpath
        exact hnone k hk hak hkseq
      rw [if_neg hge]

/-! ## Runs -/

/-- The agent at the beginning: no ping was sent on any path. -/
def Fresh (fuel : ℕ) (s : Pinger) : Prop :=
  s.cursor = .null ∧ s.sent = [] ∧ ∃ ys zs addr item, Holds (s.tables ()) ys zs addr item ∧ ys.length + 1 < fuel ∧
    (∀ y ∈ ys, (zs y).length < fuel) ∧ (positions ys zs).length < fuel ∧
    ∀ y ∈ ys, ∀ z ∈ zs y, (item y z).pingSeq = 0

/-- A round adds its time; other events leave the rounds as they are. -/
theorem Rounds.step (h : Rounds raAddr ys zs addr item s ts) (hlen : ys.length + 1 < fuel)
    (hlens : ∀ y ∈ ys, (zs y).length < fuel) (hall : (positions ys zs).length < fuel)
    (hs : handle raAddr fuel s now e.2 = some s') :
    ∃ item' ts', Rounds raAddr ys zs addr item' s' ts' := by
  obtain ⟨t, ev⟩ := e
  cases ev with
  | start =>
    cases hs
    exact ⟨item, ts, h.holds, h.cursor, h.seq, h.last, h.sent⟩
  | stopPing =>
    obtain ⟨d, -, rfl⟩ := Option.map_eq_some_iff.mp hs
    exact ⟨item, ts, h.holds, h.cursor, h.seq, h.last, h.sent⟩
  | expire =>
    obtain ⟨s'', hs'', h'⟩ := @NetSim.Ping.Rounds.expire _ _ _ _ _ _ _ _ now h hlen hlens hall
    have heq := hs''.symm.trans hs
    cases heq
    exact ⟨_, _, h'⟩
  | back pkt =>
    obtain ⟨s'', hs'', h'⟩ := @NetSim.Ping.Rounds.back _ _ _ _ _ _ _ _ now pkt h (show ys.length < fuel by omega) hlens
    have heq := hs''.symm.trans hs
    cases heq
    exact ⟨_, _, h'⟩

/-- **The measurement, exactly.** In a run of the timer, with echoes that arrive in any order, late, or not at
all, every echo is measured exactly if and only if at each of them the last ping on the path was sent as many
intervals after the ping that is answered as their numbers are apart. -/
theorem ping_delay_exact (raAddr : NsAddr) (fuel : ℕ) (s₀ : Pinger) (hfresh : Fresh fuel s₀)
    (ops : List (ℚ × Event)) :
    AllExact raAddr fuel s₀ ops ↔ Runs.Meets (pingStep raAddr fuel) Regular s₀ ops := by
  obtain ⟨hcursor, hsent, ys, zs, addr, item, hholds, h1, h2, h3, hzero⟩ := hfresh
  have hinv : ∀ past s outs, Runs.run (pingStep raAddr fuel) s₀ past = some (s, outs) →
      ∃ item ts, Rounds raAddr ys zs addr item s ts := by
    intro past s outs hrun
    refine @Runs.run_preserves _ _ _ _ (fun _ _ => True) _ _ _ _ [] (fun _ s => ∃ item ts, Rounds raAddr ys zs addr item s ts) (fun _ s e s' _ h _ hs => ?_) ⟨item, [], hholds, hcursor, hzero, fun _ _ _ _ t ht => (by cases ht), fun k => ?_⟩ (Runs.meets_of_forall (fun _ _ => trivial)) hrun
    · obtain ⟨item, ts, h⟩ := h
      obtain ⟨s'', hs'', heq⟩ := Option.map_eq_some_iff.mp hs
      cases heq
      exact h.step h1 h2 h3 hs''
    · rw [hsent]
      simp
  constructor
  · intro hexact
    refine Runs.meets_of_prefixes (fun past e r hpre _ hr => ?_)
    obtain ⟨now, ev⟩ := e
    cases ev with
    | back pkt =>
      obtain ⟨item, ts, h⟩ := hinv past r.1 r.2 hr
      obtain ⟨s', hs', -⟩ := @NetSim.Ping.Rounds.back _ _ _ _ _ _ _ _ now pkt h (show ys.length < fuel by omega) h2
      exact (h.exact_iff (by omega) h2 hs').mp (hexact past now pkt r.1 r.2 s' hpre hr hs')
    | start => trivial
    | stopPing => trivial
    | expire => trivial
  · intro hreg past now pkt s outs s' hpre hrun hs
    obtain ⟨rest, rfl⟩ := hpre
    obtain ⟨-, hlast⟩ := Runs.meets_concat.mp hreg.append_left
    obtain ⟨item, ts, h⟩ := hinv past s outs hrun
    exact (h.exact_iff (by omega) h2 hs).mpr (hlast _ hrun)

def pinger : Pinger := { tables := fun _ => twoSelects, cursor := .null, timer := none, clock := 0, sent := [] }

theorem pinger_fresh : Fresh 5 pinger :=
  ⟨rfl, rfl, _, _, _, _, twoSelects_holds, by decide, by decide, by decide, by decide⟩

/-- The echo of the ping number 0 on the path to the interface 12; it was echoed at the time 1 / 4. -/
def echo : PingPkt := { sIntf := 12, dIntf := 11, sSelect := 7, dSelect := 1, sendTime := 1 / 4, pingSeq := 0 }

/-- The timer is started once; the echo comes late, after a second round. -/
theorem ping_delay_exact_late : AllExact 1 5 pinger
    [(0, .start), (0, .expire), (1, .expire), (3 / 2, .back echo)] :=
  (ping_delay_exact 1 5 pinger pinger_fresh _).mpr (by decide +kernel)

/-- The timer is stopped, and started again at the time 5. The echo of the ping that was sent at the time 0
is taken for one of a ping sent at the time 4: the delay is 1 / 4 - 4. -/
theorem delay_wrong_after_restart :
    Fresh 5 pinger ∧
      Runs.Meets (pingStep 1 5) Occurs pinger [(0, .start), (0, .expire), (1 / 2, .stopPing), (5, .start),
        (5, .expire), (11 / 2, .back echo)] ∧
      ¬ AllExact 1 5 pinger [(0, .start), (0, .expire), (1 / 2, .stopPing), (5, .start), (5, .expire),
        (11 / 2, .back echo)] := by
  refine ⟨pinger_fresh, by decide +kernel, fun hexact => ?_⟩
  have hwrong : (Runs.run (pingStep 1 5) pinger [(0, .start), (0, .expire), (1 / 2, .stopPing), (5, .start),
      (5, .expire)]).any (fun r => (handle 1 5 r.1 (11 / 2) (.back echo)).any (fun s' =>
        (⟨11, 12, 1, 7, 0, 0⟩ : PingPkt) ∈ r.1.sent ∧
          (configured 5 (r.1.tables ()))[0]? = some (7, ⟨11, 12, 0, 5, 2⟩) ∧
          (configured 5 (s'.tables ()))[0]? = some (7, ⟨11, 12, 1 / 4 - 4, 5, 2⟩))) = true := by decide +kernel
  obtain ⟨r, hr, hwrong⟩ := Option.any_eq_true _ _ |>.mp hwrong
  obtain ⟨s', hs', hwrong⟩ := Option.any_eq_true _ _ |>.mp hwrong
  obtain ⟨hsent, hp, hp'⟩ := of_decide_eq_true hwrong
  have hdelay := (hexact _ _ echo r.1 r.2 s' (prefix_refl _) hr hs' 0 _ _ hp hp' ⟨rfl, rfl, rfl⟩).1 _ hsent
    (by decide) rfl
  exact absurd hdelay (by decide +kernel)

end NetSim.Ping
