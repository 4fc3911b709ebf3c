import NetSim.Lib.Runs
import NetSim.Pgm.Agent

/-! # Repair states of a PGM router

What an event does to the repair state of one session and number is one of eight changes (`Change`,
`step_change`). From them: the flag of a repair state and its timers agree, and an RDATA packet goes to
those who sent a NAK (`RepairOk`); and no NAK goes upstream for a while after an NCF, as long as no NAK
finds elimination switched off while the elimination timer runs (`Quiet`, `agent_repairs`).
-/

namespace NetSim.Pgm.Agent

open Function List Runs

variable {cfg : AgentConfig} {s s' : Agent} {key : NsAddr × ℤ} {e : ℚ × AgentEvent}
  {out : List AgentOutput} {r : RepairState} {tgt : Target}

/-! ## The repair states -/

theorem repairAt_setRepair {tsi : NsAddr} {state : StateInfo} {seqno : ℤ} {r? : Option RepairState}
    {t : RepairTimers} (hstate : s.states tsi = some state) :
    (s.setRepair tsi state seqno r? t).repairAt key = if key = (tsi, seqno) then r? else s.repairAt key := by
  obtain ⟨tsi', seqno'⟩ := key
  unfold repairAt setRepair
  dsimp only
  by_cases htsi : tsi' = tsi
  · subst htsi
    rw [update_self, hstate, Option.bind_some, Option.bind_some]
    dsimp only
    rw [update_apply]
    simp
  · rw [update_of_ne htsi, if_neg (fun heq => htsi (congrArg Prod.fst heq))]

theorem timers_setRepair {tsi : NsAddr} {state : StateInfo} {seqno : ℤ} {r? : Option RepairState}
    {t : RepairTimers} :
    (s.setRepair tsi state seqno r? t).timers key = if key = (tsi, seqno) then t else s.timers key :=
  update_apply ..

theorem repairAt_eq {state : StateInfo} (hstate : s.states key.1 = some state) :
    s.repairAt key = state.repair key.2 := by
  unfold repairAt
  rw [hstate, Option.bind_some]

def Repairing (key : NsAddr × ℤ) (s : Agent) : Prop := (s.repairAt key).isSome

def NakFrom (cfg : AgentConfig) (key : NsAddr × ℤ) (tgt : Target) (_ : Agent) (e : ℚ × AgentEvent) :
    Prop :=
  match e.2 with
  | .nak hp _ _ iface sport => (hp.tsi, hp.seqno) = key ∧ cfg.target iface sport = some tgt
  | _ => False

/-- The event is an NCF from upstream, at that time. -/
def NcfAt (key : NsAddr × ℤ) (t : ℚ) (s : Agent) (e : ℚ × AgentEvent) : Prop :=
  match e.2 with
  | .ncf hp _ _ iface =>
    (hp.tsi, hp.seqno) = key ∧ (s.states hp.tsi).map StateInfo.upstreamIface = some iface ∧ t = e.1
  | _ => False

def SendsNak (key : NsAddr × ℤ) (out : List AgentOutput) : Prop :=
  ∃ p, .nak p ∈ out ∧ (p.tsi, p.seqno) = key

theorem not_sendsNak_nil : ¬ SendsNak key [] := by
  rintro ⟨p, hp, -⟩
  exact absurd hp not_mem_nil

/-- **What an event does to a repair state**: the new state, its timers, and the packets. -/
inductive Change (cfg : AgentConfig) (s : Agent) (key : NsAddr × ℤ) (e : ℚ × AgentEvent) :
    Option RepairState → RepairTimers → List AgentOutput → Prop where
  | keep {out : List AgentOutput} (hnak : ∀ tgt, NakFrom cfg key tgt s e → s.repairAt key = none)
      (hncf : ∀ t, ¬ NcfAt key t s e) (hout : ¬ SendsNak key out) :
      Change cfg s key e (s.repairAt key) (s.timers key) out
  | created {out : List AgentOutput} {tgt : Target} {source group : NsAddr}
      (hnak : NakFrom cfg key tgt s e) (hnone : s.repairAt key = none) :
      Change cfg s key e (some ((RepairState.init key.2 source group).addTarget tgt))
        { RepairTimers.idle with
          nakRetrans := Timer.resched e.1 cfg.nakRetransIval
          nakRpt := Timer.resched e.1 cfg.nakRptIval } out
  | joined {out : List AgentOutput} {tgt : Target} {r : RepairState} (hnak : NakFrom cfg key tgt s e)
      (hr : s.repairAt key = some r) (helim : r.nakElimination = true) (hout : ¬ SendsNak key out) :
      Change cfg s key e (some (r.addTarget tgt)) (s.timers key) out
  | restarted {out : List AgentOutput} {tgt : Target} {r : RepairState} (hnak : NakFrom cfg key tgt s e)
      (hr : s.repairAt key = some r) (helim : r.nakElimination = false) (hout : SendsNak key out) :
      Change cfg s key e
        (some { r.addTarget tgt with nakState := .nakPending, nakElimination := true })
        { nakRetrans := Timer.resched e.1 cfg.nakRetransIval
          nakRpt := Timer.resched e.1 cfg.nakRptIval
          nakRdata := none
          nakElim := none } out
  | confirmed {out : List AgentOutput} {r : RepairState} (hncf : NcfAt key e.1 s e)
      (hr : s.repairAt key = some r ∨
        s.repairAt key = none ∧ ∃ src dst, r = RepairState.init key.2 src dst)
      (hout : ¬ SendsNak key out) :
      Change cfg s key e (some { r with nakState := .nakConfirmed })
        { nakRetrans := none
          nakRpt := none
          nakRdata := Timer.resched e.1 cfg.nakRdataIval
          nakElim := Timer.resched e.1 cfg.nakElimIval } out
  | removed {out : List AgentOutput} (hnak : ∀ tgt, ¬ NakFrom cfg key tgt s e)
      (hout : ¬ SendsNak key out) :
      Change cfg s key e none RepairTimers.idle out
  | retransmitted {out : List AgentOutput} {r : RepairState} (hr : s.repairAt key = some r)
      (htype : e.2 = .expire .nakRetrans key.1 key.2)
      (htimer : (s.timers key).nakRetrans = some e.1) :
      Change cfg s key e (some r)
        { s.timers key with nakRetrans := Timer.resched e.1 cfg.nakRetransIval } out
  | eliminated {out : List AgentOutput} {r : RepairState} (hr : s.repairAt key = some r)
      (htype : e.2 = .expire .nakElim key.1 key.2)
      (htimer : (s.timers key).nakElim = some e.1) (hout : ¬ SendsNak key out) :
      Change cfg s key e (some { r with nakElimination := false }) { s.timers key with nakElim := none }
        out

/-- The clock does not go back, an expiry is of a timer that is pending, and the node knows where a NAK
came from. -/
def Occurs (cfg : AgentConfig) (s : Agent) (e : ℚ × AgentEvent) : Prop :=
  s.clock ≤ e.1 ∧
    match e.2 with
    | .nak _ _ _ iface sport => (cfg.target iface sport).isSome
    | .expire type tsi seqno => (s.timers (tsi, seqno)).get type = some e.1
    | _ => True

instance (cfg : AgentConfig) (s : Agent) : (e : ℚ × AgentEvent) → Decidable (Occurs cfg s e)
  | (now, .nak _ _ _ iface sport) =>
    inferInstanceAs (Decidable (s.clock ≤ now ∧ (cfg.target iface sport).isSome))
  | (now, .expire type tsi seqno) =>
    inferInstanceAs (Decidable (s.clock ≤ now ∧ (s.timers (tsi, seqno)).get type = some now))
  | (now, .spm _ _ _) | (now, .odata _) | (now, .rdata _ _) | (now, .ncf _ _ _ _) =>
    inferInstanceAs (Decidable (s.clock ≤ now ∧ True))

theorem change_same {s₁ : Agent} (hrepair : ∀ key, s₁.repairAt key = s.repairAt key)
    (htimers : s₁.timers = s.timers)
    (hnak : ∀ key tgt, NakFrom cfg key tgt s e → s.repairAt key = none)
    (hncf : ∀ key t, ¬ NcfAt key t s e) (hout : ∀ key, ¬ SendsNak key out) (key : NsAddr × ℤ) :
    Change cfg s key e (s₁.repairAt key) (s₁.timers key) out := by
  rw [hrepair, htimers]
  exact .keep (hnak key) (hncf key) (hout key)

theorem change_setRepair {s₁ : Agent} {tsi : NsAddr} {state : StateInfo} {seqno : ℤ}
    {r? : Option RepairState} {t : RepairTimers} (hstates : s₁.states = s.states)
    (htimers : s₁.timers = s.timers) (hstate : s.states tsi = some state)
    (hself : Change cfg s (tsi, seqno) e r? t out)
    (hnak : ∀ key tgt, NakFrom cfg key tgt s e → key = (tsi, seqno))
    (hncf : ∀ key t, NcfAt key t s e → key = (tsi, seqno))
    (hout : ∀ key, SendsNak key out → key = (tsi, seqno)) (key : NsAddr × ℤ) :
    Change cfg s key e ((s₁.setRepair tsi state seqno r? t).repairAt key)
      ((s₁.setRepair tsi state seqno r? t).timers key) out := by
  have hrepair : s₁.repairAt key = s.repairAt key := by
    unfold repairAt
    rw [hstates]
  rw [repairAt_setRepair (hstates ▸ hstate), timers_setRepair, hrepair, htimers]
  by_cases hkey : key = (tsi, seqno)
  · rw [if_pos hkey, if_pos hkey, hkey]
    exact hself
  · rw [if_neg hkey, if_neg hkey]
    exact .keep (fun tgt h => absurd (hnak key tgt h) hkey) (fun t h => hkey (hncf key t h))
      (fun h => hkey (hout key h))

theorem handleSpm_clock {hp : Hdr} {spmPath : NsAddr} {iface : ℤ} :
    (s.handleSpm cfg hp spmPath iface).1.clock = s.clock := by
  unfold handleSpm
  split
  · rfl
  · split <;> rfl

theorem handleSpm_change {now : ℚ} {hp : Hdr} {spmPath : NsAddr} {iface : ℤ} (key : NsAddr × ℤ) :
    Change cfg s key (now, .spm hp spmPath iface)
      (({ s with clock := now }.handleSpm cfg hp spmPath iface).1.repairAt key)
      (({ s with clock := now }.handleSpm cfg hp spmPath iface).1.timers key)
      ({ s with clock := now }.handleSpm cfg hp spmPath iface).2 := by
  have hspm : ∀ key, ¬ SendsNak key [.spm hp cfg.here] := by
    rintro key ⟨p, hmem, -⟩
    cases mem_singleton.mp hmem
  have hnak : ∀ key tgt, ¬ NakFrom cfg key tgt s (now, .spm hp spmPath iface) := fun _ _ h => h
  have hncf : ∀ key t, ¬ NcfAt key t s (now, .spm hp spmPath iface) := fun _ _ h => h
  unfold handleSpm
  split
  · rename_i hnone
    refine change_same (fun key => ?_) (by exact rfl) (fun key tgt h => absurd h (hnak key tgt)) hncf
      hspm key
    unfold repairAt
    dsimp only
    rw [update_apply]
    split
    · rename_i heq
      rw [heq, hnone]
      rfl
    · rfl
  · rename_i state hstate
    split
    · refine change_same (fun key => ?_) (by exact rfl) (fun key tgt h => absurd h (hnak key tgt))
        hncf hspm key
      unfold repairAt
      dsimp only
      rw [update_apply]
      split
      · rename_i heq
        rw [heq, hstate]
        rfl
      · rfl
    · exact change_same (fun _ => rfl) rfl (fun key tgt h => absurd h (hnak key tgt)) hncf
        (fun _ => not_sendsNak_nil) key

def Sane (cfg : AgentConfig) (s : Agent) : Prop :=
  ∀ key r, s.repairAt key = some r → r.seqno = key.2 ∧ r.ifaceList.all cfg.hasLink = true

theorem not_sendsNak_forward {hp : Hdr} {dropped : Bool} {targets : List Target} :
    ¬ SendsNak key (forward hp dropped targets) := by
  rintro ⟨p, hmem, -⟩
  cases targets with
  | nil => exact absurd hmem not_mem_nil
  | cons tgt targets =>
    rcases mem_cons.mp hmem with heq | hmem
    · cases heq
    · obtain ⟨tgt', -, heq⟩ := mem_map.mp hmem
      split at heq <;> cases heq

theorem handleRdata_change {now : ℚ} {hp : Hdr} {dropped : Bool} (hsane : Sane cfg s) :
    ∃ s' out, { s with clock := now }.handleRdata cfg hp dropped = some (s', out) ∧ s'.clock = now ∧
      ∀ key, Change cfg s key (now, .rdata hp dropped) (s'.repairAt key) (s'.timers key) out := by
  have hnak : ∀ key tgt, ¬ NakFrom cfg key tgt s (now, .rdata hp dropped) := fun _ _ h => h
  have hncf : ∀ key t, ¬ NcfAt key t s (now, .rdata hp dropped) := fun _ _ h => h
  unfold handleRdata
  dsimp only
  split
  · exact ⟨_, _, rfl, rfl, fun key => change_same (fun _ => rfl) rfl (fun key tgt h => absurd h (hnak key tgt))
      hncf (fun _ => not_sendsNak_nil) key⟩
  rename_i state hstate
  split
  · exact ⟨_, _, rfl, rfl, fun key => change_same (fun _ => rfl) rfl (fun key tgt h => absurd h (hnak key tgt))
      hncf (fun _ => not_sendsNak_nil) key⟩
  rename_i r hr
  have hkey : s.repairAt (hp.tsi, hp.seqno) = some r := (repairAt_eq hstate).trans hr
  obtain ⟨hseqno, hlinks⟩ := hsane _ r hkey
  rw [if_pos hlinks]
  refine ⟨_, _, rfl, rfl, fun key => ?_⟩
  exact change_setRepair rfl rfl hstate (.removed (hnak _) not_sendsNak_forward)
    (fun key tgt h => absurd h (hnak key tgt)) (fun key t h => absurd h (hncf key t))
    (fun _ h => absurd h not_sendsNak_forward) key

theorem handleNak_change {now : ℚ} {hp : Hdr} {source group : NsAddr} {iface sport : ℤ}
    (htgt : (cfg.target iface sport).isSome) :
    ∃ s' out, { s with clock := now }.handleNak cfg now hp source group iface sport = some (s', out) ∧
      s'.clock = now ∧ ∀ key, Change cfg s key (now, .nak hp source group iface sport) (s'.repairAt key)
        (s'.timers key) out := by
  obtain ⟨tgt, htgt⟩ := Option.isSome_iff_exists.mp htgt
  have hno : ∀ key t, ¬ NcfAt key t s (now, .nak hp source group iface sport) := fun _ _ h => h
  have hncf : ∀ key t, NcfAt key t s (now, .nak hp source group iface sport) →
      key = (hp.tsi, hp.seqno) := fun _ _ h => False.elim h
  have hnak : ∀ key tgt, NakFrom cfg key tgt s (now, .nak hp source group iface sport) →
      key = (hp.tsi, hp.seqno) := fun _ _ h => h.1.symm
  have hself : NakFrom cfg (hp.tsi, hp.seqno) tgt s (now, .nak hp source group iface sport) := ⟨rfl, htgt⟩
  unfold handleNak
  dsimp only
  split
  · rename_i hnone
    refine ⟨_, _, rfl, rfl, fun key => change_same (fun _ => rfl) rfl (fun key tgt h => ?_)
      (fun key t h => hno key t h) (fun _ => not_sendsNak_nil) key⟩
    rw [hnak key tgt h]
    unfold repairAt
    rw [hnone]
    rfl
  rename_i state hstate
  rw [htgt, Option.map_some]
  have hsends : ∀ key, SendsNak key [.ncf tgt hp source group,
      .nak ⟨state.upstreamNode, hp.tsi, hp.seqno, source, group⟩] → key = (hp.tsi, hp.seqno) := by
    rintro key ⟨p, hmem, heq⟩
    simp only [mem_cons, reduceCtorEq, AgentOutput.nak.injEq, not_mem_nil, or_false,
      false_or] at hmem
    rw [← heq, hmem]
  have hsends' : SendsNak (hp.tsi, hp.seqno) [.ncf tgt hp source group,
      .nak ⟨state.upstreamNode, hp.tsi, hp.seqno, source, group⟩] :=
    ⟨⟨state.upstreamNode, hp.tsi, hp.seqno, source, group⟩, by simp, rfl⟩
  split
  · rename_i hnone
    have hkey : s.repairAt (hp.tsi, hp.seqno) = none := (repairAt_eq hstate).trans hnone
    exact ⟨_, _, rfl, rfl, fun key => change_setRepair rfl rfl hstate (.created hself hkey) hnak hncf
      hsends key⟩
  · rename_i r hr
    have hkey : s.repairAt (hp.tsi, hp.seqno) = some r := (repairAt_eq hstate).trans hr
    split
    · rename_i helim
      have helim' : r.nakElimination = false := by
        cases tgt <;> exact helim
      exact ⟨_, _, rfl, rfl, fun key => change_setRepair rfl rfl hstate
        (.restarted hself hkey helim' hsends') hnak hncf hsends key⟩
    · rename_i helim
      have helim' : r.nakElimination = true := by
        cases tgt <;> exact Bool.not_eq_false _ ▸ helim
      have hout : ∀ key, ¬ SendsNak key [AgentOutput.ncf tgt hp source group] := by
        rintro key ⟨p, hmem, -⟩
        cases mem_singleton.mp hmem
      exact ⟨_, _, rfl, rfl, fun key => change_setRepair rfl rfl hstate (.joined hself hkey helim' (hout _))
        hnak hncf (fun key h => absurd h (hout key)) key⟩

theorem handleNcf_change {now : ℚ} {hp : Hdr} {src dst : NsAddr} {iface : ℤ} (key : NsAddr × ℤ) :
    ({ s with clock := now }.handleNcf cfg now hp src dst iface).clock = now ∧
      Change cfg s key (now, .ncf hp src dst iface)
        (({ s with clock := now }.handleNcf cfg now hp src dst iface).repairAt key)
        (({ s with clock := now }.handleNcf cfg now hp src dst iface).timers key) [] := by
  have hnak : ∀ key tgt, ¬ NakFrom cfg key tgt s (now, .ncf hp src dst iface) := fun _ _ h => h
  unfold handleNcf
  dsimp only
  split
  · rename_i hnone
    refine ⟨rfl, change_same (fun _ => rfl) rfl (fun key tgt h => absurd h (hnak key tgt)) (fun key t h => ?_)
      (fun _ => not_sendsNak_nil) key⟩
    have hiface := h.2.1
    rw [hnone] at hiface
    cases hiface
  rename_i state hstate
  split
  · rename_i hne
    refine ⟨rfl, change_same (fun _ => rfl) rfl (fun key tgt h => absurd h (hnak key tgt)) (fun key t h => ?_)
      (fun _ => not_sendsNak_nil) key⟩
    have hiface := h.2.1
    rw [hstate] at hiface
    exact hne (Option.some.inj hiface).symm
  rename_i heq
  have hself : NcfAt (hp.tsi, hp.seqno) now s (now, .ncf hp src dst iface) := by
    refine ⟨rfl, ?_, rfl⟩
    rw [hstate, not_not.mp heq]
    rfl
  have hncf : ∀ key t, NcfAt key t s (now, .ncf hp src dst iface) → key = (hp.tsi, hp.seqno) :=
    fun _ _ h => h.1.symm
  split
  · rename_i hnone
    have hkey : s.repairAt (hp.tsi, hp.seqno) = none := (repairAt_eq hstate).trans hnone
    exact ⟨rfl, change_setRepair rfl rfl hstate
      (.confirmed hself (.inr ⟨hkey, src, dst, rfl⟩) not_sendsNak_nil) (fun key tgt h => absurd h (hnak key tgt)) hncf
      (fun _ h => absurd h not_sendsNak_nil) key⟩
  · rename_i r hr
    have hkey : s.repairAt (hp.tsi, hp.seqno) = some r := (repairAt_eq hstate).trans hr
    exact ⟨rfl, change_setRepair rfl rfl hstate (.confirmed hself (.inl hkey) not_sendsNak_nil)
      (fun key tgt h => absurd h (hnak key tgt)) hncf (fun _ h => absurd h not_sendsNak_nil) key⟩

theorem timeout_change {now : ℚ} {type : TimerType} {tsi : NsAddr} {seqno : ℤ} {state : StateInfo}
    (hsane : Sane cfg s) (hstate : s.states tsi = some state) (hr : state.repair seqno = some r)
    (htimer : (s.timers (tsi, seqno)).get type = some now) (key : NsAddr × ℤ) :
    ({ s with clock := now }.timeout cfg now type tsi state seqno r).1.clock = now ∧
      Change cfg s key (now, .expire type tsi seqno)
        (({ s with clock := now }.timeout cfg now type tsi state seqno r).1.repairAt key)
        (({ s with clock := now }.timeout cfg now type tsi state seqno r).1.timers key)
        ({ s with clock := now }.timeout cfg now type tsi state seqno r).2 := by
  have hkey : s.repairAt (tsi, seqno) = some r := (repairAt_eq hstate).trans hr
  have hseqno : r.seqno = seqno := (hsane _ r hkey).1
  have hnak : ∀ key tgt, ¬ NakFrom cfg key tgt s (now, .expire type tsi seqno) := fun _ _ h => h
  have hncf : ∀ key t, ¬ NcfAt key t s (now, .expire type tsi seqno) := fun _ _ h => h
  cases type with
  | nakRetrans =>
    refine ⟨rfl, change_setRepair rfl rfl hstate (.retransmitted hkey rfl (by exact htimer))
      (fun key tgt h => absurd h (hnak key tgt))
      (fun key t h => absurd h (hncf key t)) ?_ key⟩
    rintro key ⟨p, hmem, heq⟩
    cases mem_singleton.mp hmem
    rw [← heq, ← hseqno]
  | nakRpt =>
    exact ⟨rfl, change_setRepair rfl rfl hstate (.removed (hnak _) not_sendsNak_nil) (fun key tgt h => absurd h (hnak key tgt))
      (fun key t h => absurd h (hncf key t)) (fun _ h => absurd h not_sendsNak_nil) key⟩
  | nakRdata =>
    exact ⟨rfl, change_setRepair rfl rfl hstate (.removed (hnak _) not_sendsNak_nil) (fun key tgt h => absurd h (hnak key tgt))
      (fun key t h => absurd h (hncf key t)) (fun _ h => absurd h not_sendsNak_nil) key⟩
  | nakElim =>
    exact ⟨rfl, change_setRepair rfl rfl hstate (.eliminated hkey rfl (by exact htimer) not_sendsNak_nil)
      (fun key tgt h => absurd h (hnak key tgt))
      (fun key t h => absurd h (hncf key t)) (fun _ h => absurd h not_sendsNak_nil) key⟩

/-- **Every event** that can occur is handled, and each repair state changes in one of the eight ways. -/
theorem step_change (hsane : Sane cfg s) (hgone : ∀ key, s.repairAt key = none → s.timers key = .idle)
    (hocc : Occurs cfg s e) :
    ∃ s' out, step cfg s e = some (s', out) ∧ s'.clock = e.1 ∧
      ∀ key, Change cfg s key e (s'.repairAt key) (s'.timers key) out := by
  obtain ⟨now, ev⟩ := e
  unfold step
  cases ev with
  | spm hp spmPath iface =>
    exact ⟨_, _, rfl, handleSpm_clock, handleSpm_change⟩
  | odata hp =>
    have hnak : ∀ key tgt, ¬ NakFrom cfg key tgt s (now, .odata hp) := fun _ _ h => h
    have hncf : ∀ key t, ¬ NcfAt key t s (now, .odata hp) := fun _ _ h => h
    refine ⟨_, _, rfl, rfl, change_same (fun _ => rfl) rfl (fun key tgt h => absurd h (hnak key tgt))
      hncf ?_⟩
    rintro key ⟨p, hmem, -⟩
    cases mem_singleton.mp hmem
  | rdata hp dropped => exact handleRdata_change hsane
  | nak hp source group iface sport => exact handleNak_change hocc.2
  | ncf hp src dst iface =>
    exact ⟨_, _, rfl, (handleNcf_change (s := s) (hp.tsi, hp.seqno)).1, fun key => (handleNcf_change key).2⟩
  | expire type tsi seqno =>
    have htimer : (s.timers (tsi, seqno)).get type = some now := hocc.2
    cases hkey : s.repairAt (tsi, seqno) with
    | none =>
      rw [hgone _ hkey] at htimer
      cases type <;> cases htimer
    | some r =>
      obtain ⟨state, hstate, hr⟩ := Option.bind_eq_some_iff.mp hkey
      dsimp only at hstate hr ⊢
      rw [hstate, Option.bind_some, hr, Option.map_some]
      exact ⟨_, _, rfl, (timeout_change hsane hstate hr htimer (tsi, seqno)).1,
        fun key => (timeout_change hsane hstate hr htimer key).2⟩

/-! ## What holds of every repair state -/

/-- A NAK came from there since the repair state was created. -/
def Asked (cfg : AgentConfig) (key : NsAddr × ℤ) (tgt : Target) (past : List (ℚ × AgentEvent)) : Prop :=
  Since (step cfg) init (NakFrom cfg key tgt) (Repairing key) past

def NcfSince (cfg : AgentConfig) (key : NsAddr × ℤ) (t : ℚ) (past : List (ℚ × AgentEvent)) : Prop :=
  Since (step cfg) init (NcfAt key t) (Repairing key) past

/-- **The flag and the timers agree**: the NAK is repeated, or repair data is awaited. -/
def InPhase (r : RepairState) (t : RepairTimers) : Prop :=
  (r.nakState = .nakPending ∧ t.nakRetrans.isSome ∧ t.nakRpt.isSome ∧ t.nakRdata = none ∧
      t.nakElim = none) ∨
    (r.nakState = .nakConfirmed ∧ t.nakRdata.isSome ∧ t.nakRetrans = none ∧ t.nakRpt = none)

def HasTarget (r : RepairState) : Target → Prop
  | .iface i => i ∈ r.ifaceList
  | .agent a => a ∈ r.agentList

structure RepairOk (cfg : AgentConfig) (past : List (ℚ × AgentEvent)) (key : NsAddr × ℤ) (r : RepairState)
    (t : RepairTimers) : Prop where
  seqno : r.seqno = key.2
  links : r.ifaceList.all cfg.hasLink = true
  nodup : r.ifaceList.Nodup ∧ r.agentList.Nodup
  phase : InPhase r t
  targets : ∀ tgt, HasTarget r tgt ↔ Asked cfg key tgt past
  elim : ∀ x, t.nakElim = some x → NcfSince cfg key (x - cfg.nakElimIval) past

theorem hasTarget_addTarget {tgt' : Target} :
    HasTarget (r.addTarget tgt') tgt ↔ tgt' = tgt ∨ HasTarget r tgt := by
  cases tgt' with
  | iface i =>
    cases tgt with
    | iface j =>
      unfold HasTarget RepairState.addTarget
      dsimp only
      split
      · rename_i hmem
        rw [Target.iface.injEq]
        exact ⟨.inr, fun h => h.elim (fun heq => heq ▸ hmem) id⟩
      · rw [mem_append, mem_singleton, Target.iface.injEq, or_comm, eq_comm]
    | agent b =>
      unfold HasTarget RepairState.addTarget
      simp
  | agent a =>
    cases tgt with
    | iface j =>
      unfold HasTarget RepairState.addTarget
      simp
    | agent b =>
      unfold HasTarget RepairState.addTarget
      dsimp only
      split
      · rename_i hmem
        rw [Target.agent.injEq]
        exact ⟨.inr, fun h => h.elim (fun heq => heq ▸ hmem) id⟩
      · rw [mem_append, mem_singleton, Target.agent.injEq, or_comm, eq_comm]

theorem nodup_addNew {α : Type} [DecidableEq α] {l : List α} {a : α} (h : l.Nodup) :
    (if a ∈ l then l else l ++ [a]).Nodup := by
  split
  · exact h
  · rename_i hno
    refine List.nodup_append.mpr ⟨h, nodup_singleton a, fun b hb c hc => ?_⟩
    rw [mem_singleton.mp hc]
    exact ne_of_mem_of_not_mem hb hno

theorem nodup_addTarget (h : r.ifaceList.Nodup ∧ r.agentList.Nodup) :
    (r.addTarget tgt).ifaceList.Nodup ∧ (r.addTarget tgt).agentList.Nodup := by
  cases tgt with
  | iface i => exact ⟨nodup_addNew h.1, h.2⟩
  | agent a => exact ⟨h.1, nodup_addNew h.2⟩

theorem links_addTarget {iface sport : ℤ} (htgt : cfg.target iface sport = some tgt)
    (h : r.ifaceList.all cfg.hasLink = true) : (r.addTarget tgt).ifaceList.all cfg.hasLink = true := by
  unfold AgentConfig.target at htgt
  split at htgt
  · obtain ⟨a, -, rfl⟩ := Option.map_eq_some_iff.mp htgt
    exact h
  split at htgt
  · rename_i hlink
    cases htgt
    unfold RepairState.addTarget
    dsimp only
    split
    · exact h
    · rw [all_append, h, all_cons, hlink]
      rfl
  · cases htgt

theorem addTarget_same : (r.addTarget tgt).seqno = r.seqno ∧ (r.addTarget tgt).nakState = r.nakState := by
  cases tgt <;> exact ⟨rfl, rfl⟩

variable {past : List (ℚ × AgentEvent)} {r? : Option RepairState} {t : RepairTimers}

theorem NakFrom.links (h : NakFrom cfg key tgt s e) (hlinks : r.ifaceList.all cfg.hasLink = true) :
    (r.addTarget tgt).ifaceList.all cfg.hasLink = true := by
  obtain ⟨now, ev⟩ := e
  cases ev with
  | nak hp source group iface sport => exact links_addTarget h.2 hlinks
  | spm | odata | rdata | ncf | expire => exact absurd h id

theorem NakFrom.unique {tgt' : Target} (h : NakFrom cfg key tgt s e) (h' : NakFrom cfg key tgt' s e) :
    tgt = tgt' := by
  obtain ⟨now, ev⟩ := e
  cases ev with
  | nak hp source group iface sport => exact Option.some.inj (h.2.symm.trans h'.2)
  | spm | odata | rdata | ncf | expire => exact absurd h id

theorem NakFrom.not_ncf {x : ℚ} (h : NakFrom cfg key tgt s e) : ¬ NcfAt key x s e := by
  obtain ⟨now, ev⟩ := e
  cases ev with
  | nak hp source group iface sport => exact id
  | spm | odata | rdata | ncf | expire => exact absurd h id

theorem NcfAt.not_nak {x : ℚ} (h : NcfAt key x s e) : ¬ NakFrom cfg key tgt s e := fun h' => h'.not_ncf h

theorem NcfAt.time {x : ℚ} (h : NcfAt key x s e) : x = e.1 := by
  obtain ⟨now, ev⟩ := e
  cases ev with
  | ncf hp src dst iface => exact h.2.2
  | spm | odata | rdata | nak | expire => exact absurd h id

theorem not_nakFrom_expire {type : TimerType} {tsi : NsAddr} {seqno : ℤ}
    (htype : e.2 = .expire type tsi seqno) : ¬ NakFrom cfg key tgt s e := by
  unfold NakFrom
  rw [htype]
  exact id

theorem not_ncfAt_expire {type : TimerType} {tsi : NsAddr} {seqno : ℤ} {x : ℚ}
    (htype : e.2 = .expire type tsi seqno) : ¬ NcfAt key x s e := by
  unfold NcfAt
  rw [htype]
  exact id

theorem Change.repairOk (hc : Change cfg s key e r? t out)
    (hok : ∀ r, s.repairAt key = some r → RepairOk cfg past key r (s.timers key))
    (hasked : ∀ tgt, Asked cfg key tgt (past ++ [e]) ↔
      r?.isSome ∧ (NakFrom cfg key tgt s e ∨ Asked cfg key tgt past))
    (hncf : ∀ x, NcfSince cfg key x (past ++ [e]) ↔
      r?.isSome ∧ (NcfAt key x s e ∨ NcfSince cfg key x past))
    (hrepairing : ∀ tgt, Asked cfg key tgt past → (s.repairAt key).isSome)
    {r' : RepairState} (hr' : r? = some r') : RepairOk cfg (past ++ [e]) key r' t := by
  have hasked' : ∀ tgt, Asked cfg key tgt (past ++ [e]) ↔
      NakFrom cfg key tgt s e ∨ Asked cfg key tgt past := by
    intro tgt
    rw [hasked, hr', Option.isSome_some]
    simp
  have hncf' : ∀ x, NcfSince cfg key x past → NcfSince cfg key x (past ++ [e]) := by
    intro x hx
    rw [hncf, hr']
    exact ⟨rfl, .inr hx⟩
  cases hc with
  | keep hnak hncf hout =>
    have h := hok r' hr'
    refine ⟨h.seqno, h.links, h.nodup, h.phase, fun tgt => ?_, fun x hx => hncf' _ (h.elim x hx)⟩
    rw [hasked', h.targets tgt, or_iff_right]
    intro hfrom
    rw [hnak tgt hfrom] at hr'
    cases hr'
  | @created _ tgt source group hnak hnone =>
    -- nobody can have asked before: whoever asked is in a repair state
    cases hr'
    refine ⟨addTarget_same.1, hnak.links rfl, nodup_addTarget ⟨nodup_nil, nodup_nil⟩,
      .inl ⟨addTarget_same.2, rfl, rfl, rfl, rfl⟩, fun tgt' => ?_, fun x hx => ?_⟩
    · have hno : ¬ Asked cfg key tgt' past := fun h => by
        have hsome := hrepairing tgt' h
        rw [hnone] at hsome
        cases hsome
      have hinit : ¬ HasTarget (RepairState.init key.2 source group) tgt' := by
        cases tgt' <;> exact not_mem_nil
      rw [hasked', hasTarget_addTarget, or_iff_left hno, or_iff_left hinit]
      exact ⟨fun heq => heq ▸ hnak, fun h => hnak.unique h⟩
    · cases hx
  | @joined _ tgt r hnak hr helim hout =>
    cases hr'
    have h := hok r hr
    refine ⟨addTarget_same.1.trans h.seqno, hnak.links h.links, nodup_addTarget h.nodup, ?_,
      fun tgt' => ?_, fun x hx => hncf' _ (h.elim x hx)⟩
    · unfold InPhase
      rw [addTarget_same.2]
      exact h.phase
    · rw [hasked', hasTarget_addTarget, h.targets]
      exact or_congr_left ⟨fun heq => heq ▸ hnak, fun h => hnak.unique h⟩
  | @restarted _ tgt r hnak hr helim hout =>
    cases hr'
    have h := hok r hr
    refine ⟨addTarget_same.1.trans h.seqno, hnak.links h.links, nodup_addTarget h.nodup,
      .inl ⟨rfl, rfl, rfl, rfl, rfl⟩, fun tgt' => ?_, fun x hx => ?_⟩
    · have hadd := @hasTarget_addTarget r tgt' tgt
      rw [hasked', ← h.targets]
      refine Iff.trans ?_ (hadd.trans (or_congr_left ⟨fun heq => heq ▸ hnak, fun h => hnak.unique h⟩))
      cases tgt' <;> exact Iff.rfl
    · cases hx
  | @confirmed _ r hncfAt hr hout =>
    cases hr'
    have hinit : r.seqno = key.2 ∧ r.ifaceList.all cfg.hasLink = true ∧
        (r.ifaceList.Nodup ∧ r.agentList.Nodup) ∧ ∀ tgt, HasTarget r tgt ↔ Asked cfg key tgt past := by
      -- the NCF arrives at a repair state or makes one without targets
      rcases hr with hr | ⟨hnone, src, dst, rfl⟩
      · have h := hok r hr
        exact ⟨h.seqno, h.links, h.nodup, h.targets⟩
      · refine ⟨rfl, rfl, ⟨nodup_nil, nodup_nil⟩, fun tgt => ?_⟩
        have hno : ¬ Asked cfg key tgt past := fun h => by
          have hsome := hrepairing tgt h
          rw [hnone] at hsome
          cases hsome
        refine iff_of_false ?_ hno
        cases tgt <;> exact not_mem_nil
    obtain ⟨hseqno, hlinks, hnodup, htargets⟩ := hinit
    refine ⟨hseqno, hlinks, hnodup, .inr ⟨rfl, rfl, rfl, rfl⟩, fun tgt => ?_, fun x hx => ?_⟩
    · rw [hasked', or_iff_right hncfAt.not_nak, ← htargets]
      cases tgt <;> exact Iff.rfl
    · cases hx
      rw [add_sub_cancel_right, hncf]
      exact ⟨rfl, .inl hncfAt⟩
  | removed hnak hout => cases hr'
  | @retransmitted _ r hr htype htimer =>
    cases hr'
    have h := hok r' hr
    have hphase := h.phase
    refine ⟨h.seqno, h.links, h.nodup, ?_, fun tgt => ?_, fun x hx => hncf' _ (h.elim x hx)⟩
    · rcases hphase with ⟨hstate, -, hrpt, hrdata, helim⟩ | ⟨-, -, hnone, -⟩
      · exact .inl ⟨hstate, rfl, hrpt, hrdata, helim⟩
      · rw [hnone] at htimer
        cases htimer
    · rw [hasked', or_iff_right (not_nakFrom_expire htype), h.targets]
  | @eliminated _ r hr htype htimer hout =>
    cases hr'
    have h := hok r hr
    refine ⟨h.seqno, h.links, h.nodup, ?_, fun tgt => ?_, fun x hx => ?_⟩
    · rcases h.phase with ⟨-, -, -, -, hnone⟩ | hconf
      · rw [hnone] at htimer
        cases htimer
      · exact .inr hconf
    · rw [hasked', or_iff_right (not_nakFrom_expire htype), ← h.targets]
      cases tgt <;> exact Iff.rfl
    · cases hx

theorem Change.gone (hc : Change cfg s key e r? t out)
    (hgone : s.repairAt key = none → s.timers key = .idle) (hnone : r? = none) : t = .idle := by
  cases hc with
  | keep => exact hgone hnone
  | removed => rfl
  | created | joined | restarted | confirmed | retransmitted | eliminated => cases hnone

structure Inv (cfg : AgentConfig) (past : List (ℚ × AgentEvent)) (s : Agent) : Prop where
  run : ∃ outs, Runs.run (step cfg) init past = some (s, outs)
  gone : ∀ key, s.repairAt key = none → s.timers key = .idle
  repair : ∀ key r, s.repairAt key = some r → RepairOk cfg past key r (s.timers key)

theorem Inv.init (cfg : AgentConfig) : Inv cfg [] Agent.init where
  run := ⟨[], rfl⟩
  gone _ _ := rfl
  repair _ _ h := by cases h

theorem Inv.sane (h : Inv cfg past s) : Sane cfg s := fun key r hr =>
  ⟨(h.repair key r hr).seqno, (h.repair key r hr).links⟩

/-- The step lemma, with what the event does to every repair state. -/
theorem Inv.step (h : Inv cfg past s) (hocc : Occurs cfg s e) :
    ∃ s' out, Agent.step cfg s e = some (s', out) ∧ Inv cfg (past ++ [e]) s' ∧ s'.clock = e.1 ∧
      ∀ key, Change cfg s key e (s'.repairAt key) (s'.timers key) out := by
  obtain ⟨s', out, hs', hclock, hchange⟩ := step_change h.sane h.gone hocc
  obtain ⟨outs, hrun⟩ := h.run
  refine ⟨s', out, hs', ⟨⟨_, run_concat hrun hs'⟩, fun key => (hchange key).gone (h.gone key),
    fun key r hr => ?_⟩, hclock, hchange⟩
  exact (hchange key).repairOk (h.repair key) (fun tgt => since_concat hrun hs')
    (fun x => since_concat hrun hs') (fun tgt hasked => hasked.kept hrun) hr

/-! ## RDATA -/

/-- The packet is not freed while copies of it are made: a link gets it first and keeps it, or nobody else
gets one. -/
def Spared (s : Agent) (hp : Hdr) (dropped : Bool) : Prop :=
  ∀ r ∈ s.repairAt (hp.tsi, hp.seqno), (r.ifaceList ≠ [] ∧ dropped = false) ∨ r.targets.length ≤ 1

instance (s : Agent) (hp : Hdr) (dropped : Bool) : Decidable (Spared s hp dropped) :=
  inferInstanceAs (Decidable (∀ r ∈ s.repairAt (hp.tsi, hp.seqno), _))

/-- **An RDATA packet is forwarded** once to each of those who sent a NAK. -/
def Forwarded (cfg : AgentConfig) (past : List (ℚ × AgentEvent)) (hp : Hdr) (out : List AgentOutput) : Prop :=
  out.Nodup ∧ ∀ o, o ∈ out ↔ ∃ tgt, o = .rdata tgt hp ∧ Asked cfg (hp.tsi, hp.seqno) tgt past

theorem mem_targets : tgt ∈ r.targets ↔ HasTarget r tgt := by
  unfold RepairState.targets
  rw [mem_append, mem_map, mem_map]
  cases tgt with
  | iface i => simp [HasTarget]
  | agent a => simp [HasTarget]

theorem nodup_targets (h : r.ifaceList.Nodup ∧ r.agentList.Nodup) : r.targets.Nodup := by
  refine List.nodup_append.mpr ⟨h.1.map ?_, h.2.map ?_, ?_⟩
  · exact fun i j heq => Target.iface.inj heq
  · exact fun a b heq => Target.agent.inj heq
  · intro tgt htgt tgt' htgt' heq
    obtain ⟨i, -, rfl⟩ := mem_map.mp htgt
    obtain ⟨a, -, rfl⟩ := mem_map.mp htgt'
    cases heq

/-- The first of the targets frees the packet, unless an interface was asked for it whose link keeps it. -/
theorem frees_head {dropped : Bool} {targets : List Target} (h : r.targets = tgt :: targets) :
    tgt.frees dropped = false ↔ r.ifaceList ≠ [] ∧ dropped = false := by
  unfold RepairState.targets at h
  cases hiface : r.ifaceList with
  | nil =>
    rw [hiface, map_nil, nil_append] at h
    obtain ⟨a, -, rfl⟩ := mem_map.mp (h ▸ mem_cons_self : tgt ∈ r.agentList.map Target.agent)
    simp [Target.frees]
  | cons i is =>
    rw [hiface, map_cons, cons_append] at h
    cases h
    simp [Target.frees]

theorem rdata_injective (hp : Hdr) : Injective (fun tgt => AgentOutput.rdata tgt hp) :=
  fun _ _ heq => (AgentOutput.rdata.inj heq).1

/-- The packets are copies of the one that came exactly if it is not freed at first, or is not copied. -/
theorem forward_eq_iff {hp : Hdr} {dropped : Bool} {targets : List Target} :
    (∀ o ∈ forward hp dropped targets, ∃ tgt, o = .rdata tgt hp) ↔
      (∀ tgt ∈ targets.head?, tgt.frees dropped = false) ∨ targets.length ≤ 1 := by
  cases targets with
  | nil => simp [forward]
  | cons tgt targets =>
    cases targets with
    | nil => simp [forward]
    | cons tgt' targets =>
      cases hfrees : tgt.frees dropped <;> simp [forward, hfrees]

theorem forward_spared {hp : Hdr} {dropped : Bool} {targets : List Target}
    (h : ∀ o ∈ forward hp dropped targets, ∃ tgt, o = .rdata tgt hp) :
    forward hp dropped targets = targets.map (fun tgt => .rdata tgt hp) := by
  cases targets with
  | nil => rfl
  | cons tgt targets =>
    apply congrArg (AgentOutput.rdata tgt hp :: ·)
    apply map_congr_left
    intro tgt' htgt'
    obtain ⟨tgt'', heq⟩ := h _ (mem_cons_of_mem _ (mem_map_of_mem htgt'))
    split at heq
    · cases heq
    · rename_i hfrees
      rw [if_neg hfrees]

theorem spared_iff {hp : Hdr} {dropped : Bool} (hr : s.repairAt (hp.tsi, hp.seqno) = some r) :
    Spared s hp dropped ↔ ∀ o ∈ forward hp dropped r.targets, ∃ tgt, o = .rdata tgt hp := by
  rw [forward_eq_iff]
  unfold Spared
  rw [hr]
  simp only [Option.mem_some_iff, forall_eq']
  cases htargets : r.targets with
  | nil => simp
  | cons tgt targets => simp [frees_head htargets]

theorem RepairOk.forwarded_iff {past : List (ℚ × AgentEvent)} {hp : Hdr} {dropped : Bool} {t : RepairTimers}
    (hok : RepairOk cfg past (hp.tsi, hp.seqno) r t) (hr : s.repairAt (hp.tsi, hp.seqno) = some r) :
    Forwarded cfg past hp (forward hp dropped r.targets) ↔ Spared s hp dropped := by
  rw [spared_iff hr]
  constructor
  · intro h o ho
    obtain ⟨tgt, heq, -⟩ := (h.2 o).mp ho
    exact ⟨tgt, heq⟩
  · intro h
    rw [forward_spared h]
    refine ⟨(nodup_targets hok.nodup).map (rdata_injective hp), fun o => ?_⟩
    rw [mem_map]
    constructor
    · rintro ⟨tgt, htgt, rfl⟩
      exact ⟨tgt, rfl, (hok.targets tgt).mp (mem_targets.mp htgt)⟩
    · rintro ⟨tgt, rfl, hasked⟩
      exact ⟨tgt, mem_targets.mpr ((hok.targets tgt).mpr hasked), rfl⟩

/-- **An RDATA packet** removes the repair state with its timers; it is forwarded to those who sent a NAK
exactly if it is not freed while copies of it are made. -/
theorem Inv.rdata (h : Inv cfg past s) (now : ℚ) (hp : Hdr) (dropped : Bool) :
    ∃ s' out, Agent.step cfg s (now, .rdata hp dropped) = some (s', out) ∧
      (Forwarded cfg past hp out ↔ Spared s hp dropped) ∧
      s'.repairAt (hp.tsi, hp.seqno) = none ∧ s'.timers (hp.tsi, hp.seqno) = .idle := by
  obtain ⟨outs, hrun⟩ := h.run
  unfold Agent.step
  dsimp only
  cases hkey : s.repairAt (hp.tsi, hp.seqno) with
  | none =>
    have hno : ∀ tgt, ¬ Asked cfg (hp.tsi, hp.seqno) tgt past := by
      intro tgt hasked
      have hsome : (s.repairAt (hp.tsi, hp.seqno)).isSome := hasked.kept hrun
      rw [hkey] at hsome
      cases hsome
    have hout : Forwarded cfg past hp [] ↔ Spared s hp dropped := by
      refine iff_of_true ⟨nodup_nil, fun o => iff_of_false not_mem_nil ?_⟩ ?_
      · rintro ⟨tgt, -, hasked⟩
        exact hno tgt hasked
      · intro r hr
        rw [hkey] at hr
        cases hr
    unfold handleRdata
    split
    · exact ⟨_, [], rfl, hout, hkey, h.gone _ hkey⟩
    · rename_i state hstate
      have hr : state.repair hp.seqno = none := (repairAt_eq hstate).symm.trans hkey
      rw [hr]
      exact ⟨_, [], rfl, hout, hkey, h.gone _ hkey⟩
  | some r =>
    obtain ⟨state, hstate, hr⟩ := Option.bind_eq_some_iff.mp hkey
    have hok := h.repair _ r hkey
    have hseqno : r.seqno = hp.seqno := hok.seqno
    unfold handleRdata
    rw [hstate]
    dsimp only
    rw [hr]
    dsimp only
    rw [if_pos hok.links]
    refine ⟨_, _, rfl, hok.forwarded_iff hkey, ?_, ?_⟩
    · unfold removeRepairState
      rw [repairAt_setRepair (by exact hstate), if_pos (by rw [hseqno])]
    · unfold removeRepairState
      rw [timers_setRepair, if_pos (by rw [hseqno])]

/-! ## NAKs after an NCF -/

def InTime (s : Agent) (e : ℚ × AgentEvent) : Prop :=
  match e.2 with
  | .nak hp _ _ _ _ =>
    ∀ r ∈ s.repairAt (hp.tsi, hp.seqno), r.nakElimination = false →
      ∀ x ∈ (s.timers (hp.tsi, hp.seqno)).nakElim, x ≤ e.1
  | _ => True

instance (s : Agent) : (e : ℚ × AgentEvent) → Decidable (InTime s e)
  | (now, .nak hp _ _ _ _) =>
    inferInstanceAs (Decidable (∀ r ∈ s.repairAt (hp.tsi, hp.seqno), r.nakElimination = false →
      ∀ x ∈ (s.timers (hp.tsi, hp.seqno)).nakElim, x ≤ now))
  | (_, .spm _ _ _) | (_, .odata _) | (_, .rdata _ _) | (_, .ncf _ _ _ _) | (_, .expire _ _ _) =>
    isTrue trivial

/-- Since an NCF at the time `x`, the elimination timer runs, or its interval is over. -/
def QuietAt (cfg : AgentConfig) (x clock : ℚ) (r? : Option RepairState) (t : RepairTimers) : Prop :=
  x ≤ clock ∧
    ((∃ r y, r? = some r ∧ r.nakState = .nakConfirmed ∧ t.nakElim = some y ∧ x + cfg.nakElimIval ≤ y) ∨
      x + cfg.nakElimIval ≤ clock)

theorem InTime.le (h : InTime s e) (hnak : NakFrom cfg key tgt s e) (hr : s.repairAt key = some r)
    (helim : r.nakElimination = false) {y : ℚ} (hy : (s.timers key).nakElim = some y) : y ≤ e.1 := by
  obtain ⟨now, ev⟩ := e
  cases ev with
  | nak hp source group iface sport =>
    obtain ⟨rfl, -⟩ := hnak
    exact h r hr helim y hy
  | spm | odata | rdata | ncf | expire => exact absurd hnak id

theorem Change.restarts (hc : Change cfg s key e r? t out) (hnak : NakFrom cfg key tgt s e)
    (hr : s.repairAt key = some r) (helim : r.nakElimination = false) : SendsNak key out := by
  cases hc with
  | keep hno _ _ =>
    rw [hno tgt hnak] at hr
    cases hr
  | created _ hnone =>
    rw [hnone] at hr
    cases hr
  | joined _ hr' helim' _ =>
    rw [hr'] at hr
    cases hr
    rw [helim'] at helim
    cases helim
  | restarted _ _ _ hout => exact hout
  | confirmed hncf _ _ => exact absurd hnak hncf.not_nak
  | removed hno _ => exact absurd hnak (hno tgt)
  | retransmitted _ htype _ => exact absurd hnak (not_nakFrom_expire htype)
  | eliminated _ htype _ _ => exact absurd hnak (not_nakFrom_expire htype)

theorem Change.sends (hc : Change cfg s key e r? t out) (hsends : SendsNak key out)
    (hphase : ∀ r, s.repairAt key = some r → InPhase r (s.timers key)) (hintime : InTime s e)
    (hclock : s.clock ≤ e.1) {x : ℚ} (hsome : (s.repairAt key).isSome)
    (hquiet : QuietAt cfg x s.clock (s.repairAt key) (s.timers key)) : x + cfg.nakElimIval ≤ e.1 := by
  obtain ⟨-, ⟨r', y, hr', hstate, hy, hle⟩ | hle⟩ := hquiet
  · cases hc with
    | keep _ _ hout => exact absurd hsends hout
    | created _ hnone =>
      rw [hnone] at hsome
      cases hsome
    | joined _ _ _ hout => exact absurd hsends hout
    | restarted hnak hr helim _ => exact hle.trans (hintime.le hnak hr helim hy)
    | confirmed _ _ hout => exact absurd hsends hout
    | removed _ hout => exact absurd hsends hout
    | retransmitted hr htype htimer =>
      -- the NAK is not repeated any more
      rcases hphase r' hr' with ⟨hpending, -⟩ | ⟨-, -, hnone, -⟩
      · rw [hpending] at hstate
        cases hstate
      · rw [hnone] at htimer
        cases htimer
    | eliminated _ _ _ hout => exact absurd hsends hout
  · exact hle.trans hclock

theorem Change.quiet (hc : Change cfg s key e r? t out) (hsome : r?.isSome) (hintime : InTime s e)
    (hclock : s.clock ≤ e.1) {x : ℚ}
    (hx : NcfAt key x s e ∨ (s.repairAt key).isSome ∧ QuietAt cfg x s.clock (s.repairAt key) (s.timers key)) :
    QuietAt cfg x e.1 r? t := by
  rcases hx with hncf | ⟨hbefore, hle, hquiet⟩
  · cases hc with
    | keep _ hno _ => exact absurd hncf (hno x)
    | created hnak _ => exact absurd hncf hnak.not_ncf
    | joined hnak _ _ _ => exact absurd hncf hnak.not_ncf
    | restarted hnak _ _ _ => exact absurd hncf hnak.not_ncf
    | confirmed _ _ _ =>
      rw [hncf.time]
      exact ⟨le_refl _, .inl ⟨_, _, rfl, rfl, rfl, le_refl _⟩⟩
    | removed _ _ => cases hsome
    | retransmitted _ htype _ => exact absurd hncf (not_ncfAt_expire htype)
    | eliminated _ htype _ _ => exact absurd hncf (not_ncfAt_expire htype)
  · refine ⟨hle.trans hclock, ?_⟩
    rcases hquiet with ⟨r', y, hr', hstate, hy, hley⟩ | hover
    · cases hc with
      | keep _ _ _ => exact .inl ⟨r', y, hr', hstate, hy, hley⟩
      | created _ hnone =>
        rw [hnone] at hbefore
        cases hbefore
      | joined _ hr _ _ =>
        rw [hr] at hr'
        cases hr'
        exact .inl ⟨_, y, rfl, addTarget_same.2.trans hstate, hy, hley⟩
      | restarted hnak hr helim _ => exact .inr (hley.trans (hintime.le hnak hr helim hy))
      | confirmed _ _ _ =>
        exact .inl ⟨_, _, rfl, rfl, rfl, add_le_add_left (hle.trans hclock) _⟩
      | removed _ _ => cases hsome
      | retransmitted hr htype htimer =>
        rw [hr] at hr'
        cases hr'
        exact .inl ⟨_, y, rfl, hstate, hy, hley⟩
      | eliminated hr htype htimer _ =>
        rw [hy] at htimer
        cases htimer
        exact .inr hley
    · exact .inr (hover.trans hclock)

def Quiet (cfg : AgentConfig) (past : List (ℚ × AgentEvent)) (s : Agent) : Prop :=
  ∀ key x, NcfSince cfg key x past → QuietAt cfg x s.clock (s.repairAt key) (s.timers key)

/-- No NAK gets upstream while the elimination timer runs. -/
theorem Quiet.step (hinv : Inv cfg past s) (h : Quiet cfg past s) (hocc : Occurs cfg s e)
    (hintime : InTime s e) :
    ∃ s' out, Agent.step cfg s e = some (s', out) ∧ Inv cfg (past ++ [e]) s' ∧
      Quiet cfg (past ++ [e]) s' := by
  obtain ⟨s', out, hs', hinv', hclock, hchange⟩ := hinv.step hocc
  obtain ⟨outs, hrun⟩ := hinv.run
  refine ⟨s', out, hs', hinv', fun key x hx => ?_⟩
  obtain ⟨hsome, hor⟩ := (since_concat hrun hs').mp hx
  rw [hclock]
  refine (hchange key).quiet hsome hintime hocc.1 ?_
  exact hor.imp_right (fun hsince => ⟨hsince.kept hrun, h key x hsince⟩)

/-- **After an NCF** no NAK for the number goes upstream for the elimination interval, unless the repair
state was removed in between. -/
def NaksDiscarded (cfg : AgentConfig) (events : List (ℚ × AgentEvent)) : Prop :=
  ∀ past e s outs s' out, past ++ [e] <+: events → Runs.run (step cfg) init past = some (s, outs) →
    step cfg s e = some (s', out) → ∀ key x, NcfSince cfg key x past → SendsNak key out →
      x + cfg.nakElimIval ≤ e.1

/-! ## Runs -/

variable {events : List (ℚ × AgentEvent)}

/-- By induction on the events. -/
theorem run_inv (hocc : Runs.Meets (step cfg) (Occurs cfg) init events) :
    ∃ s outs, Runs.run (step cfg) init events = some (s, outs) ∧ Inv cfg events s :=
  Runs.run_invariant (fun past _ s _ (h : Inv cfg past s) hok =>
    let ⟨s', out, hs', hinv', _⟩ := h.step hok
    ⟨s', out, hs', hinv'⟩) (Inv.init cfg) hocc

theorem run_quiet (hocc : Runs.Meets (step cfg) (Occurs cfg) init events)
    (hintime : Runs.Meets (step cfg) InTime init events) :
    ∃ s outs, Runs.run (step cfg) init events = some (s, outs) ∧ Inv cfg events s ∧
      Quiet cfg events s :=
  Runs.run_invariant (fun past _ s _ (h : Inv cfg past s ∧ Quiet cfg past s) hok =>
    Quiet.step h.1 h.2 hok.1 hok.2)
    ⟨Inv.init cfg, fun _ _ h => absurd h not_since_nil⟩ (hocc.and hintime)

theorem Inv.too_early (h : Inv cfg past s) (hocc : Occurs cfg s e) (hlate : ¬ InTime s e) :
    ∃ s' out key x, Agent.step cfg s e = some (s', out) ∧ NcfSince cfg key x past ∧ SendsNak key out ∧
      e.1 < x + cfg.nakElimIval := by
  obtain ⟨s', out, hs', -, -, hchange⟩ := h.step hocc
  obtain ⟨now, ev⟩ := e
  cases ev with
  | nak hp source group iface sport =>
    unfold InTime at hlate
    dsimp only at hlate
    push Not at hlate
    obtain ⟨r, hr, helim, y, hy, hlt⟩ := hlate
    have hr' : s.repairAt (hp.tsi, hp.seqno) = some r := hr
    have hok := h.repair _ r hr'
    refine ⟨s', out, (hp.tsi, hp.seqno), y - cfg.nakElimIval, hs', hok.elim y hy, ?_, ?_⟩
    · have hc := hchange (hp.tsi, hp.seqno)
      obtain ⟨tgt, htgt⟩ := Option.isSome_iff_exists.mp hocc.2
      have hnak : NakFrom cfg (hp.tsi, hp.seqno) tgt s (now, .nak hp source group iface sport) :=
        ⟨rfl, htgt⟩
      exact hc.restarts hnak hr' helim
    · rw [sub_add_cancel]
      exact hlt
  | spm | odata | rdata | ncf | expire => exact absurd trivial hlate

/-- **The repair state machine.** In every run, the flag of each repair state and its timers agree, and an
RDATA packet leaves no timer pending; it goes once to everyone who sent a NAK since the repair state was
created exactly when it is not freed while copies of it are made. After an NCF the NAKs for its number are
discarded for the elimination interval exactly when no NAK of the run finds elimination switched off while
the elimination timer runs. -/
theorem agent_repairs (cfg : AgentConfig) (events : List (ℚ × AgentEvent))
    (hocc : Runs.Meets (step cfg) (Occurs cfg) init events) :
    (∃ s outs, Runs.run (step cfg) init events = some (s, outs) ∧
      (∀ key r, s.repairAt key = some r → InPhase r (s.timers key)) ∧
      ∀ now hp dropped, ∃ s' out, step cfg s (now, .rdata hp dropped) = some (s', out) ∧
        (Forwarded cfg events hp out ↔ Spared s hp dropped) ∧
        s'.repairAt (hp.tsi, hp.seqno) = none ∧ s'.timers (hp.tsi, hp.seqno) = .idle) ∧
    (NaksDiscarded cfg events ↔ Runs.Meets (step cfg) InTime init events) := by
  refine ⟨?_, ?_, ?_⟩
  · obtain ⟨s, outs, hrun, hinv⟩ := run_inv hocc
    exact ⟨s, outs, hrun, fun key r hr => (hinv.repair key r hr).phase, hinv.rdata⟩
  · intro hdiscarded
    refine Runs.meets_of_prefixes (fun past e t hpre _ ht => ?_)
    obtain ⟨rest, rfl⟩ := hpre
    have hocc' := Runs.meets_concat.mp hocc.append_left
    obtain ⟨s, outs, hrun, hinv⟩ := run_inv hocc'.1
    rw [ht] at hrun
    cases hrun
    by_contra hlate
    obtain ⟨s', out, key, x, hs', hx, hsends, hlt⟩ := hinv.too_early (hocc'.2 _ ht) hlate
    have hle := hdiscarded past e s outs s' out (prefix_append _ _) ht hs' key x hx hsends
    exact absurd hlt (not_lt_of_ge hle)
  · rintro hmeets past e s outs s' out ⟨rest, rfl⟩ hrun hs' key x hx hsends
    have hocc' := Runs.meets_concat.mp hocc.append_left
    have hmeets' := Runs.meets_concat.mp hmeets.append_left
    obtain ⟨t, outs', hrun', hinv, hquiet⟩ := run_quiet hocc'.1 hmeets'.1
    rw [hrun] at hrun'
    cases hrun'
    obtain ⟨s₁, out₁, hs₁, -, -, hchange⟩ := hinv.step (hocc'.2 _ hrun)
    rw [hs'] at hs₁
    cases hs₁
    exact (hchange key).sends hsends (fun r hr => (hinv.repair key r hr).phase) (hmeets'.2 _ hrun)
      (hocc'.2 _ hrun).1 (hx.kept hrun) (hquiet key x hx)

def tsi : NsAddr := ⟨1, 5⟩

/-- A node with the upstream interface 0, interfaces for the receivers, and two local agents. -/
def node : AgentConfig where
  here := ⟨7, 0⟩
  nakRetransIval := 2
  nakRptIval := 5
  nakRdataIval := 10
  nakElimIval := 1
  hasLink := fun _ => true
  agentAt := fun port => if port = 3 then some 8 else if port = 4 then some 9 else none

/-- An SPM, NAKs from an interface and from a local agent, an NCF; one more NAK is suppressed, and another
one is not, when the elimination timer has expired. -/
def twoNaks : List (ℚ × AgentEvent) :=
  [(0, .spm ⟨tsi, 0⟩ ⟨2, 0⟩ 0), (1, .nak ⟨tsi, 5⟩ tsi ⟨9, 9⟩ 1 0), (3 / 2, .nak ⟨tsi, 5⟩ tsi ⟨9, 9⟩ (-1) 3),
    (2, .ncf ⟨tsi, 5⟩ tsi ⟨9, 9⟩ 0), (5 / 2, .nak ⟨tsi, 5⟩ tsi ⟨9, 9⟩ 2 0), (3, .expire .nakElim tsi 5),
    (4, .nak ⟨tsi, 5⟩ tsi ⟨9, 9⟩ 1 0), (6, .expire .nakRetrans tsi 5)]

/-- What follows for these. -/
theorem agent_repairs_twoNaks :
    (∃ s outs, Runs.run (step node) init twoNaks = some (s, outs) ∧
      ∃ s' out, step node s (7, .rdata ⟨tsi, 5⟩ false) = some (s', out) ∧
        Forwarded node twoNaks ⟨tsi, 5⟩ out ∧ s'.timers (tsi, 5) = .idle) ∧
      NaksDiscarded node twoNaks := by
  obtain ⟨⟨s, outs, hrun, -, hrdata⟩, hiff⟩ := agent_repairs node twoNaks (by decide +kernel)
  have hspared : ∀ p ∈ Runs.run (step node) init twoNaks, Spared p.1 ⟨tsi, 5⟩ false := by decide +kernel
  obtain ⟨s', out, hs', hforwarded, -, htimers⟩ := hrdata 7 ⟨tsi, 5⟩ false
  exact ⟨⟨s, outs, hrun, s', out, hs', hforwarded.mpr (hspared _ hrun), htimers⟩,
    hiff.mpr (by decide +kernel)⟩

/-- A second NCF at the time 4, when the elimination timer of the first one has expired: a NAK goes upstream
at the time 9 / 2, though elimination lasts until 5. And two local receivers ask for a packet: the second one
gets a cleared packet. -/
theorem late_nak_and_cleared_copy :
    node.nakElimIval < node.nakRdataIval ∧
      Runs.Meets (step node) (Occurs node) init
        [(0, .spm ⟨tsi, 0⟩ ⟨2, 0⟩ 0), (1, .nak ⟨tsi, 5⟩ tsi ⟨9, 9⟩ 1 0),
          (2, .ncf ⟨tsi, 5⟩ tsi ⟨9, 9⟩ 0), (3, .expire .nakElim tsi 5), (4, .ncf ⟨tsi, 5⟩ tsi ⟨9, 9⟩ 0),
          (9 / 2, .nak ⟨tsi, 5⟩ tsi ⟨9, 9⟩ 2 0)] ∧
      ¬ NaksDiscarded node
        [(0, .spm ⟨tsi, 0⟩ ⟨2, 0⟩ 0), (1, .nak ⟨tsi, 5⟩ tsi ⟨9, 9⟩ 1 0),
          (2, .ncf ⟨tsi, 5⟩ tsi ⟨9, 9⟩ 0), (3, .expire .nakElim tsi 5), (4, .ncf ⟨tsi, 5⟩ tsi ⟨9, 9⟩ 0),
          (9 / 2, .nak ⟨tsi, 5⟩ tsi ⟨9, 9⟩ 2 0)] ∧
      Runs.Meets (step node) (Occurs node) init
        [(0, .spm ⟨tsi, 0⟩ ⟨2, 0⟩ 0), (1, .nak ⟨tsi, 5⟩ tsi ⟨9, 9⟩ (-1) 3),
          (2, .nak ⟨tsi, 5⟩ tsi ⟨9, 9⟩ (-1) 4), (3, .rdata ⟨tsi, 5⟩ false)] ∧
      (Runs.run (step node) init
        [(0, .spm ⟨tsi, 0⟩ ⟨2, 0⟩ 0), (1, .nak ⟨tsi, 5⟩ tsi ⟨9, 9⟩ (-1) 3),
          (2, .nak ⟨tsi, 5⟩ tsi ⟨9, 9⟩ (-1) 4), (3, .rdata ⟨tsi, 5⟩ false)]).map (fun p => p.2.getLast?) =
        some (some [.rdata (.agent 8) ⟨tsi, 5⟩, .cleared (.agent 9)]) := by
  refine ⟨by decide +kernel, by decide +kernel, fun h => ?_, by decide +kernel, by decide +kernel⟩
  have hncf : NcfSince node (tsi, 5) 4 ([(0, .spm ⟨tsi, 0⟩ ⟨2, 0⟩ 0), (1, .nak ⟨tsi, 5⟩ tsi ⟨9, 9⟩ 1 0),
      (2, .ncf ⟨tsi, 5⟩ tsi ⟨9, 9⟩ 0), (3, .expire .nakElim tsi 5)] ++ [(4, .ncf ⟨tsi, 5⟩ tsi ⟨9, 9⟩ 0)]) :=
    .here rfl rfl ⟨rfl, rfl, rfl⟩ rfl
  have hle := h _ _ _ _ _ _ (prefix_refl _) rfl rfl (tsi, 5) 4 hncf
    ⟨⟨⟨2, 0⟩, tsi, 5, tsi, ⟨9, 9⟩⟩, by decide +kernel, rfl⟩
  exact absurd hle (by decide +kernel)

end NetSim.Pgm.Agent
