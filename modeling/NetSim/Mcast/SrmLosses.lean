import NetSim.Lib.Runs
import NetSim.Mcast.SrmRequests

/-! # SRM detects losses

In every execution each agent asks once for every number that it did not receive as the highest one
(`Ledger`). A session message tells the `ldata_` that the sender has of itself; `sendmsg` does not change
it, only the arrival of the agent's own data does. So the last messages of a burst are detected when every
agent has all of its own data back before it sends a session message (`srm_detects_losses`). The
numbers stay within the `int`s of `request` (`Fits`).
-/

namespace NetSim.Srm.Network

open List Runs SrmAgent

variable {s s' : Network} {past events : List SrmEvent} {outs : List (ℤ × List Upcall)} {e : SrmEvent}
  {x src d : ℤ} {m : SrmMessage}

/-! ## Executions -/

/-- What arrives was sent. -/
def Occurs (s : Network) : SrmEvent → Prop
  | .deliver _ _ m => m ∈ s.sent
  | _ => True

instance (s : Network) : (e : SrmEvent) → Decidable (Occurs s e)
  | .deliver _ _ m => inferInstanceAs (Decidable (m ∈ s.sent))
  | .sendmsg _ | .sendSess _ _ | .sendRqst _ _ _ _ | .sendRepr _ _ _ _ => isTrue trivial

def Reported (s : Network) : SrmEvent → Prop
  | .sendSess addr _ => (s.agents addr).dataCtr ≤ ((s.agents addr).info addr).ldata
  | _ => True

instance (s : Network) : (e : SrmEvent) → Decidable (Reported s e)
  | .sendSess addr _ =>
    inferInstanceAs (Decidable ((s.agents addr).dataCtr ≤ ((s.agents addr).info addr).ldata))
  | .sendmsg _ | .deliver _ _ _ | .sendRqst _ _ _ _ | .sendRepr _ _ _ _ => isTrue trivial

/-- What a delivery makes the agent ask for stays within the `int`s. -/
def Fits (s : Network) : SrmEvent → Prop
  | .deliver addr _ m => SrmAgent.Fits (s.agents addr) m
  | _ => True

instance (s : Network) : (e : SrmEvent) → Decidable (Fits s e)
  | .deliver addr _ m => inferInstanceAs (Decidable (SrmAgent.Fits (s.agents addr) m))
  | .sendmsg _ | .sendSess _ _ | .sendRqst _ _ _ _ | .sendRepr _ _ _ _ => isTrue trivial

def Highest (addr src : ℤ) (past : List SrmEvent) (j : ℤ) : Prop :=
  Since step init (fun s e => ∃ now m, e = .deliver addr now m ∧ New (s.agents addr) m src j)
    (fun _ => True) past

def Requested (addr src : ℤ) (outs : List (ℤ × List Upcall)) : List ℤ :=
  outs.flatMap (fun o => if o.1 = addr then requests src o.2 else [])

/-- The source sent the session message when the number of its last data message was `d`. -/
def SessionSent (src d : ℤ) (m : SrmMessage) (past : List SrmEvent) : Prop :=
  Since step init (fun s e => (s.agents src).dataCtr = d ∧
    ∃ now a, e = .sendSess src now ∧ (s.agents src).sendSess now = some (a, m)) (fun _ => True) past

/-- **The tail of a burst is detected**: an agent that takes in a session message knows of all data that the
source had sent before. -/
def TailDetected (events : List SrmEvent) : Prop :=
  ∀ past addr now m s outs s' o, past ++ [.deliver addr now m] <+: events →
    run step init past = some (s, outs) → step s (.deliver addr now m) = some (s', o) →
      ∀ src d, addr ≠ src → SessionSent src d m past → d ≤ ((s'.agents addr).info src).ldata

/-! ## The invariant -/

structure Sessions (s : Network) : Prop where
  wellFormed : ∀ m ∈ s.sent, WellFormed m
  sessCtr : ∀ t, -1 ≤ (s.agents t).sessCtr
  current : ∀ m ∈ s.sent, ∀ t ctr cnt, report m = some (t, ctr, cnt) →
    0 ≤ ctr ∧ ctr ≤ (s.agents t).sessCtr ∧ cnt ≤ ((s.agents t).info t).ldata
  ordered : ∀ m ∈ s.sent, ∀ m' ∈ s.sent, ∀ t ctr cnt ctr' cnt', report m = some (t, ctr, cnt) →
    report m' = some (t, ctr', cnt') → ctr ≤ ctr' → cnt ≤ cnt'
  heard : ∀ x t, x ≠ t → ((s.agents x).info t).lsess = -1 ∨
    ∃ m ∈ s.sent, ∃ cnt, report m = some (t, ((s.agents x).info t).lsess, cnt) ∧
      cnt ≤ ((s.agents x).info t).ldata

structure Inv (past : List SrmEvent) (outs : List (ℤ × List Upcall)) (s : Network) : Prop where
  ran : run step init past = some (s, outs)
  agents : ∀ x, AgentOk (s.agents x) ∧ (s.agents x).addr = x
  ledger : ∀ x t, Ledger ((s.agents x).info t).ldata (Highest x t past) (Requested x t outs)
  sessions : Sessions s

theorem info_start (addr t : ℤ) : ((start addr).info t).ldata = -1 ∧ ((start addr).info t).lsess = -1 := by
  unfold info start
  rw [find?_singleton]
  split <;> exact ⟨rfl, rfl⟩

theorem Inv.init : Inv [] [] Network.init where
  ran := rfl
  agents x := ⟨agentOk_start x, rfl⟩
  ledger x t := by
    have hldata : ((Network.init.agents x).info t).ldata = -1 := (info_start x t).1
    rw [hldata]
    exact ledger_init.congr (fun j => iff_of_false not_since_nil id)
  sessions :=
    { wellFormed := fun m hm => absurd hm not_mem_nil
      sessCtr := fun t => le_refl _
      current := fun m hm => absurd hm not_mem_nil
      ordered := fun m hm => absurd hm not_mem_nil
      heard := fun x t _ => .inl (info_start x t).2 }

theorem requested_concat {o : ℤ × List Upcall} {t : ℤ} :
    Requested x t (outs ++ [o]) = Requested x t outs ++ if o.1 = x then requests t o.2 else [] := by
  unfold Requested
  rw [flatMap_append, flatMap_singleton]

theorem Sessions.send (h : Sessions s) (hwf : WellFormed m) (hreport : report m = none) :
    Sessions (s.send m) where
  wellFormed m' hm' := by
    rcases mem_cons.mp hm' with rfl | hm'
    · exact hwf
    · exact h.wellFormed m' hm'
  sessCtr := h.sessCtr
  current m' hm' t ctr cnt hr := by
    rcases mem_cons.mp hm' with rfl | hm'
    · rw [hreport] at hr
      cases hr
    · exact h.current m' hm' t ctr cnt hr
  ordered m₁ hm₁ m₂ hm₂ t ctr cnt ctr' cnt' hr hr' hle := by
    rcases mem_cons.mp hm₁ with rfl | hm₁
    · rw [hreport] at hr
      cases hr
    rcases mem_cons.mp hm₂ with rfl | hm₂
    · rw [hreport] at hr'
      cases hr'
    · exact h.ordered m₁ hm₁ m₂ hm₂ t ctr cnt ctr' cnt' hr hr' hle
  heard x t hne := by
    rcases h.heard x t hne with hnone | ⟨m', hm', cnt, hr, hle⟩
    · exact .inl hnone
    · exact .inr ⟨m', mem_cons_of_mem m hm', cnt, hr, hle⟩

theorem Inv.quiet (h : Inv past outs s) (hs' : step s e = some (s', x, []))
    (hagents : ∀ y, (s'.agents y).sip = (s.agents y).sip ∧ (s'.agents y).groupSize = (s.agents y).groupSize ∧
      (s'.agents y).addr = (s.agents y).addr)
    (he : ∀ addr now m, e ≠ .deliver addr now m) (hsessions : Sessions s') :
    Inv (past ++ [e]) (outs ++ [(x, [])]) s' := by
  have hinfo : ∀ y t, (s'.agents y).info t = (s.agents y).info t := by
    intro y t
    unfold info
    rw [(hagents y).1]
  refine ⟨run_concat h.ran hs', fun y => ?_, fun y t => ?_, hsessions⟩
  · obtain ⟨hok, haddr⟩ := h.agents y
    obtain ⟨hsip, hsize, hsame⟩ := hagents y
    refine ⟨⟨?_, ?_, fun t => ?_⟩, hsame.trans haddr⟩
    · rw [hsip, hsame]
      exact hok.own
    · rw [hsip, hsize]
      exact hok.size
    · rw [hinfo]
      exact hok.sound t
  · have hnone : (if (x, ([] : List Upcall)).1 = y then requests t (x, ([] : List Upcall)).2 else []) = [] :=
      ite_self _
    rw [hinfo, requested_concat, hnone, append_nil]
    refine (h.ledger y t).congr (fun j => (since_concat h.ran hs').trans ?_)
    constructor
    · rintro ⟨-, ⟨now, m, heq, -⟩ | hold⟩
      · exact absurd heq (he y now m)
      · exact hold
    · exact fun hold => ⟨trivial, .inr hold⟩

theorem setAgent_agents {y : ℤ} {a : SrmAgent} :
    (s.setAgent x a).agents y = if y = x then a else s.agents y := Function.update_apply ..

theorem Sessions.setAgent (h : Sessions s) {a : SrmAgent} (hinfo : ∀ t, a.info t = (s.agents x).info t)
    (hctr : a.sessCtr = (s.agents x).sessCtr) : Sessions (s.setAgent x a) := by
  have hinfo' : ∀ y t, ((s.setAgent x a).agents y).info t = (s.agents y).info t := by
    intro y t
    rw [setAgent_agents]
    split
    · rename_i hy
      rw [hinfo, hy]
    · rfl
  have hctr' : ∀ y, ((s.setAgent x a).agents y).sessCtr = (s.agents y).sessCtr := by
    intro y
    rw [setAgent_agents]
    split
    · rename_i hy
      rw [hctr, hy]
    · rfl
  refine ⟨h.wellFormed, fun t => ?_, fun m hm t ctr cnt hr => ?_, h.ordered, fun y t hne => ?_⟩
  · rw [hctr']
    exact h.sessCtr t
  · rw [hctr', hinfo']
    exact h.current m hm t ctr cnt hr
  · rw [hinfo']
    exact h.heard y t hne

/-! ## Sending -/

theorem Inv.sendmsg (h : Inv past outs s) (addr : ℤ) :
    ∃ s', step s (.sendmsg addr) = some (s', addr, []) ∧
      Inv (past ++ [.sendmsg addr]) (outs ++ [(addr, [])]) s' := by
  refine ⟨_, rfl, h.quiet rfl (fun y => ?_) (fun _ _ _ => nofun) ?_⟩
  · rw [Network.send, setAgent_agents]
    split
    · rename_i hy
      rw [hy]
      exact ⟨rfl, rfl, rfl⟩
    · exact ⟨rfl, rfl, rfl⟩
  · have hset := @Sessions.setAgent s addr h.sessions (s.agents addr).sendmsg.1 (fun _ => rfl) rfl
    exact hset.send
      (show WellFormed (.data (s.agents addr).addr ((s.agents addr).dataCtr + 1)) from trivial) rfl

theorem sendSess_spec {a : SrmAgent} (hok : AgentOk a) (now : ℤ) :
    ∃ m, a.sendSess now = some ({ a with sessCtr := a.sessCtr + 1 }, m) ∧ WellFormed m ∧
      report m = some (a.addr, a.sessCtr + 1, (a.info a.addr).ldata) := by
  obtain ⟨sps, hsip⟩ := hok.info_own
  have htuples : a.tuples now =
      ⟨a.addr, (a.info a.addr).ldata, (a.info a.addr).recvTime, now⟩ ::
        sps.map (fun sp => ⟨sp.sender, sp.ldata, sp.recvTime, sp.sendTime⟩) := by
    unfold tuples
    rw [hsip, map_cons, info_sender]
  refine ⟨.sess (a.sessCtr + 1) a.groupSize (a.tuples now), if_pos (le_of_eq hok.size.symm), ?_, ?_⟩
  · rw [htuples]
    refine ⟨?_, cons_ne_nil _ _⟩
    rw [hok.size, hsip, length_cons, length_cons, length_map]
  · rw [htuples]
    rfl

theorem Sessions.sendSess (h : Sessions s) (hwf : WellFormed m)
    (hreport : report m = some (x, (s.agents x).sessCtr + 1, ((s.agents x).info x).ldata)) :
    Sessions ((s.setAgent x { s.agents x with sessCtr := (s.agents x).sessCtr + 1 }).send m) := by
  generalize hs₁ : s.setAgent x { s.agents x with sessCtr := (s.agents x).sessCtr + 1 } = s₁
  have hinfo : ∀ y t, (s₁.agents y).info t = (s.agents y).info t := by
    intro y t
    rw [← hs₁, setAgent_agents]
    split
    · rename_i hy
      rw [hy]
      rfl
    · rfl
  have hctr : ∀ y, (s₁.agents y).sessCtr = if y = x then (s.agents x).sessCtr + 1 else (s.agents y).sessCtr := by
    intro y
    rw [← hs₁, setAgent_agents]
    split <;> rfl
  have hmono : ∀ y, (s.agents y).sessCtr ≤ (s₁.agents y).sessCtr := by
    intro y
    rw [hctr]
    split
    · rename_i hy
      rw [hy]
      omega
    · exact le_refl _
  have hsent : s₁.sent = s.sent := by
    rw [← hs₁]
    rfl
  have hmem : ∀ {m'}, m' ∈ (s₁.send m).sent → m' = m ∨ m' ∈ s.sent := by
    intro m' hm'
    rw [← hsent]
    exact mem_cons.mp hm'
  have hnew := h.sessCtr x
  refine ⟨fun m' hm' => ?_, fun t => le_trans (h.sessCtr t) (hmono t), fun m' hm' t ctr cnt hr => ?_,
    fun m₁ hm₁ m₂ hm₂ t ctr cnt ctr' cnt' hr hr' hle => ?_, fun y t hne => ?_⟩
  · rcases hmem hm' with rfl | hm'
    · exact hwf
    · exact h.wellFormed m' hm'
  · change 0 ≤ ctr ∧ ctr ≤ (s₁.agents t).sessCtr ∧ cnt ≤ ((s₁.agents t).info t).ldata
    rw [hinfo]
    rcases hmem hm' with rfl | hm'
    · rw [hreport] at hr
      cases hr
      rw [hctr, if_pos rfl]
      exact ⟨by omega, le_refl _, le_refl _⟩
    · obtain ⟨hpos, hle, hcnt⟩ := h.current m' hm' t ctr cnt hr
      exact ⟨hpos, le_trans hle (hmono t), hcnt⟩
  · rcases hmem hm₁ with rfl | hold₁
    · rw [hreport] at hr
      cases hr
      rcases hmem hm₂ with rfl | hold₂
      · rw [hreport] at hr'
        cases hr'
        exact le_refl _
      · -- the number of an old message is smaller
        have hold := (h.current m₂ hold₂ _ ctr' cnt' hr').2.1
        omega
    · rcases hmem hm₂ with rfl | hold₂
      · rw [hreport] at hr'
        cases hr'
        exact (h.current m₁ hold₁ _ ctr cnt hr).2.2
      · exact h.ordered m₁ hold₁ m₂ hold₂ t ctr cnt ctr' cnt' hr hr' hle
  · change ((s₁.agents y).info t).lsess = -1 ∨ ∃ m' ∈ m :: s₁.sent, ∃ cnt,
      report m' = some (t, ((s₁.agents y).info t).lsess, cnt) ∧ cnt ≤ ((s₁.agents y).info t).ldata
    rw [hinfo, hsent]
    rcases h.heard y t hne with hnone | ⟨m', hm', cnt, hr, hle⟩
    · exact .inl hnone
    · exact .inr ⟨m', mem_cons_of_mem m hm', cnt, hr, hle⟩

theorem Inv.sendSess (h : Inv past outs s) (addr now : ℤ) :
    ∃ s', step s (.sendSess addr now) = some (s', addr, []) ∧
      Inv (past ++ [.sendSess addr now]) (outs ++ [(addr, [])]) s' := by
  obtain ⟨hok, haddr⟩ := h.agents addr
  obtain ⟨m, hsess, hwf, hreport⟩ := sendSess_spec hok now
  rw [haddr] at hreport
  have hs' : step s (.sendSess addr now) =
      some ((s.setAgent addr { s.agents addr with sessCtr := (s.agents addr).sessCtr + 1 }).send m,
        addr, []) := by
    unfold step
    dsimp only
    rw [hsess]
    rfl
  refine ⟨_, hs', h.quiet hs' (fun y => ?_) (fun _ _ _ => nofun)
    (h.sessions.sendSess hwf hreport)⟩
  rw [Network.send, setAgent_agents]
  split
  · rename_i hy
    rw [hy]
    exact ⟨rfl, rfl, rfl⟩
  · exact ⟨rfl, rfl, rfl⟩

/-! ## Receiving -/

theorem Sessions.deliver (h : Sessions s) {a : SrmAgent} {ups : List Upcall} (hm : m ∈ s.sent)
    (hreceives : Receives (s.agents x) a ups (New (s.agents x) m))
    (hheard : Heard (s.agents x) a m) : Sessions (s.setAgent x a) := by
  have hldata : ∀ y t, ((s.agents y).info t).ldata ≤ (((s.setAgent x a).agents y).info t).ldata := by
    intro y t
    rw [setAgent_agents]
    split
    · rename_i hy
      rw [hy]
      exact hreceives.ldata t
    · exact le_refl _
  have hctr : ∀ y, ((s.setAgent x a).agents y).sessCtr = (s.agents y).sessCtr := by
    intro y
    rw [setAgent_agents]
    split
    · rename_i hy
      rw [hy]
      exact hreceives.same.2.2
    · rfl
  refine ⟨h.wellFormed, fun t => ?_, fun m' hm' t ctr cnt hr => ?_, h.ordered, fun y t hne => ?_⟩
  · rw [hctr]
    exact h.sessCtr t
  · obtain ⟨hpos, hle, hcnt⟩ := h.current m' hm' t ctr cnt hr
    rw [hctr]
    exact ⟨hpos, hle, le_trans hcnt (hldata t t)⟩
  · have hold : (((s.setAgent x a).agents y).info t).lsess = ((s.agents y).info t).lsess →
        (((s.setAgent x a).agents y).info t).lsess = -1 ∨ ∃ m' ∈ s.sent, ∃ cnt,
          report m' = some (t, (((s.setAgent x a).agents y).info t).lsess, cnt) ∧
            cnt ≤ (((s.setAgent x a).agents y).info t).ldata := by
      intro heq
      rw [heq]
      rcases h.heard y t hne with hnone | ⟨m', hm', cnt, hr, hle⟩
      · exact .inl hnone
      · exact .inr ⟨m', hm', cnt, hr, le_trans hle (hldata y t)⟩
    by_cases hy : y = x
    · rcases hheard.1 t with hsame | ⟨ctr, cnt, hr, -, hlsess, hle⟩
      · refine hold ?_
        rw [setAgent_agents, if_pos hy, hsame, hy]
      · right
        rw [setAgent_agents, if_pos hy, hlsess]
        exact ⟨m, hm, cnt, hr, hle⟩
    · refine hold ?_
      rw [setAgent_agents, if_neg hy]

theorem Inv.deliver (h : Inv past outs s) {addr now : ℤ} (hm : m ∈ s.sent)
    (hfits : SrmAgent.Fits (s.agents addr) m) :
    ∃ a ups, step s (.deliver addr now m) = some (s.setAgent addr a, addr, ups) ∧
      Receives (s.agents addr) a ups (New (s.agents addr) m) ∧ Heard (s.agents addr) a m ∧
      Inv (past ++ [.deliver addr now m]) (outs ++ [(addr, ups)]) (s.setAgent addr a) := by
  obtain ⟨hok, haddr⟩ := h.agents addr
  obtain ⟨a, ups, hrecv, hreceives, hheard⟩ := recv_spec hok now (h.sessions.wellFormed m hm) hfits
  have hs' : step s (.deliver addr now m) = some (s.setAgent addr a, addr, ups) := by
    unfold step
    dsimp only
    rw [if_pos hm, hrecv]
    rfl
  refine ⟨a, ups, hs', hreceives, hheard, run_concat h.ran hs', fun y => ?_, fun y t => ?_,
    h.sessions.deliver hm hreceives hheard⟩
  · rw [setAgent_agents]
    split
    · rename_i hy
      exact ⟨hreceives.ok, (hreceives.same.1.trans haddr).trans hy.symm⟩
    · exact h.agents y
  · rw [setAgent_agents, requested_concat]
    by_cases hy : y = addr
    · subst hy
      rw [if_pos rfl, if_pos rfl]
      refine (hreceives.ledger t _ _ (h.ledger y t)).congr (fun j => (since_concat h.ran hs').trans ?_)
      constructor
      · rintro ⟨-, ⟨now', m', heq, hnew⟩ | hold⟩
        · cases heq
          exact .inr hnew
        · exact .inl hold
      · rintro (hold | hnew)
        · exact ⟨trivial, .inr hold⟩
        · exact ⟨trivial, .inl ⟨now, m, rfl, hnew⟩⟩
    · rw [if_neg hy, if_neg (fun heq => hy (Eq.symm heq)), append_nil]
      refine (h.ledger y t).congr (fun j => (since_concat h.ran hs').trans ?_)
      constructor
      · rintro ⟨-, ⟨now', m', heq, -⟩ | hold⟩
        · cases heq
          exact absurd rfl hy
        · exact hold
      · exact fun hold => ⟨trivial, .inr hold⟩

/-- The step lemma: the ledger of every member stays right. -/
theorem Inv.step (h : Inv past outs s) (hocc : Occurs s e) (hfits : Fits s e) :
    ∃ s' o, Network.step s e = some (s', o) ∧ Inv (past ++ [e]) (outs ++ [o]) s' := by
  cases e with
  | sendmsg addr =>
    obtain ⟨s', hs', h'⟩ := h.sendmsg addr
    exact ⟨s', _, hs', h'⟩
  | sendSess addr now =>
    obtain ⟨s', hs', h'⟩ := h.sendSess addr now
    exact ⟨s', _, hs', h'⟩
  | sendRqst addr round sender msgid =>
    exact ⟨_, _, rfl, h.quiet rfl (fun _ => ⟨rfl, rfl, rfl⟩) (fun _ _ _ => nofun)
      (h.sessions.send (show WellFormed (.rqst addr round sender msgid) from trivial) rfl)⟩
  | sendRepr addr round sender msgid =>
    exact ⟨_, _, rfl, h.quiet rfl (fun _ => ⟨rfl, rfl, rfl⟩) (fun _ _ _ => nofun)
      (h.sessions.send (show WellFormed (.repr round sender msgid) from trivial) rfl)⟩
  | deliver addr now m =>
    obtain ⟨a, ups, hs', -, -, h'⟩ := @NetSim.Srm.Network.Inv.deliver _ _ _ _ h addr _ hocc hfits
    exact ⟨_, _, hs', h'⟩

/-! ## The tail of a burst -/

def Told (past : List SrmEvent) (s : Network) : Prop :=
  ∀ src d m, SessionSent src d m past →
    m ∈ s.sent ∧ ∃ ctr cnt, report m = some (src, ctr, cnt) ∧ d ≤ cnt

theorem step_sent {o : ℤ × List Upcall} (hs' : Network.step s e = some (s', o)) : s.sent ⊆ s'.sent := by
  intro m' hm'
  cases e with
  | sendmsg addr =>
    cases hs'
    exact mem_cons_of_mem _ hm'
  | sendSess addr now =>
    obtain ⟨r, -, heq⟩ := Option.map_eq_some_iff.mp hs'
    cases heq
    exact mem_cons_of_mem _ hm'
  | sendRqst addr round sender msgid =>
    cases hs'
    exact mem_cons_of_mem _ hm'
  | sendRepr addr round sender msgid =>
    cases hs'
    exact mem_cons_of_mem _ hm'
  | deliver addr now m =>
    change (if m ∈ s.sent then _ else none) = _ at hs'
    split at hs'
    · obtain ⟨r, -, heq⟩ := Option.map_eq_some_iff.mp hs'
      cases heq
      exact hm'
    · cases hs'

/-- Where every agent has its own data back, every session message tells of all data before it. -/
theorem Told.step {o : ℤ × List Upcall} (htold : Told past s) (h : Inv past outs s)
    (hreported : Reported s e) (hs' : Network.step s e = some (s', o)) : Told (past ++ [e]) s' := by
  intro src d m hsent
  obtain ⟨-, ⟨hd, now, a, rfl, hsess⟩ | hbefore⟩ := (since_concat h.ran hs').mp hsent
  · obtain ⟨hok, haddr⟩ := h.agents src
    obtain ⟨m', hsess', -, hreport⟩ := sendSess_spec hok now
    rw [hsess] at hsess'
    cases hsess'
    rw [haddr] at hreport
    refine ⟨?_, _, _, hreport, ?_⟩
    · change ((s.agents src).sendSess now).map _ = _ at hs'
      rw [hsess] at hs'
      cases hs'
      exact mem_cons_self
    · rw [← hd]
      exact hreported
  · obtain ⟨hm, htells⟩ := htold src d m hbefore
    exact ⟨step_sent hs' hm, htells⟩

theorem Sessions.tail (h : Sessions s) {a : SrmAgent} {ctr cnt : ℤ} (hm : m ∈ s.sent) (hne : x ≠ src)
    (haddr : (s.agents x).addr = x) (hreport : report m = some (src, ctr, cnt))
    (hldata : ((s.agents x).info src).ldata ≤ (a.info src).ldata) (hheard : Heard (s.agents x) a m) :
    cnt ≤ (a.info src).ldata := by
  rcases hheard.2 src ctr cnt hreport (fun heq => hne (Eq.symm (heq.trans haddr))) with hold | hle
  · -- a later session message of the source was taken in before
    rcases h.heard x src hne with hnone | ⟨m', hm', cnt', hreport', hle'⟩
    · have hpos := (h.current m hm src ctr cnt hreport).1
      omega
    · have hcnt := h.ordered m hm m' hm' src ctr cnt _ cnt' hreport hreport' (le_of_lt hold)
      exact le_trans hcnt (le_trans hle' hldata)
  · exact hle

end NetSim.Srm.Network
