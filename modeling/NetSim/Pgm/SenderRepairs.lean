import NetSim.Lib.Runs
import NetSim.Pgm.Sender

/-! # Repairs of a PGM sender

`send_rdata` gives its packet away and then reads from it which repair to erase. A link still has the packet
at that time, so a repair for interfaces only is complete (`hand_links`). An agent has freed it: the number
that is read is 0 (`hand_agents_bits`). Hence every repair is complete exactly in the runs in which no agent of
the node asks, except one alone for the number 0 (`sender_repairs_iff`).
-/

namespace NetSim.Pgm

open List

variable {cfg : SenderConfig} {s s' : Sender} {past : List (ℚ × SenderEvent)} {e : ℚ × SenderEvent}
  {k : ℤ} {item : RdataItem} {tgt : Target} {p p' : Pool PktBits} {pkt a : ℕ} {out : List Handed}
  {tgts : List Target} {now : ℚ} {seqno : ℤ}

/-! ## What is promised -/

def NakOf (cfg : SenderConfig) (k : ℤ) (tgt : Target) (e : ℚ × SenderEvent) : Prop :=
  match e.2 with
  | .nak _ hp iface sport => hp.tsi = cfg.here ∧ hp.seqno = k ∧ cfg.target iface sport = some tgt
  | _ => False

def Asked (cfg : SenderConfig) (past : List (ℚ × SenderEvent)) (k : ℤ) (tgt : Target) : Prop :=
  ∃ before e after, past = before ++ e :: after ∧ NakOf cfg k tgt e ∧ ∀ e' ∈ after, e'.2 ≠ .expire k

def PktBits.IsRdata (cfg : SenderConfig) (k : ℤ) (b : PktBits) : Prop :=
  b.ptype = ptPgm ∧ b.type = pgmRdata ∧ b.tsi = cfg.here ∧ b.seqno = k

def RdataItem.targets (item : RdataItem) : List Target :=
  item.ifaceList.map .iface ++ item.agentList.map .agent

/-- What a sender promises: when a timer expires, all who have asked get an RDATA packet of their own, and the
repair is over; a NAK is behind a repair whose timer runs, a new one if there was none. -/
def Sender.Repairs (cfg : SenderConfig) (past : List (ℚ × SenderEvent)) (e : ℚ × SenderEvent) (s s' : Sender)
    (out : List Handed) : Prop :=
  match e.2 with
  | .expire k =>
    (∀ tgt, Asked cfg past k tgt → out.countP (·.tgt = tgt) = 1) ∧
      (∀ h ∈ out, Asked cfg past k h.tgt ∧ h.bits.IsRdata cfg k) ∧ (out.map (·.pkt)).Nodup ∧
      s'.pendingRdata.find? k = none
  | .nak _ hp iface sport =>
    hp.tsi = cfg.here → ∀ tgt, cfg.target iface sport = some tgt →
      ∃ item, s'.pendingRdata.find? hp.seqno = some item ∧ tgt ∈ item.targets ∧ item.rdataTimer.isSome ∧
        (s.pendingRdata.find? hp.seqno = none → item.targets = [tgt] ∧
          item.rdataTimer = some (e.1 + cfg.rdataDelay))
  | _ => True

def Sender.Holds (s : Sender) (pkt : ℕ) : Prop := ∃ e ∈ s.pendingRdata.entries, e.2.rdataPkt = pkt

instance (s : Sender) (pkt : ℕ) : Decidable (s.Holds pkt) := inferInstanceAs (Decidable (∃ e ∈ _, _))

def SenderAllowed (cfg : SenderConfig) (s : Sender) (e : ℚ × SenderEvent) : Prop :=
  match e.2 with
  | .nak pkt hp iface sport =>
    s.pool.Live pkt ∧ ¬ s.Holds pkt ∧ (hp.tsi = cfg.here → (cfg.target iface sport).isSome)
  | .expire k => ∃ e' ∈ s.pendingRdata.entries, e'.1 = k ∧ e'.2.rdataTimer = some e.1
  | .alloc => True
  | .free pkt => s.pool.Live pkt ∧ ¬ s.Holds pkt

instance (cfg : SenderConfig) (s : Sender) (e : ℚ × SenderEvent) : Decidable (SenderAllowed cfg s e) := by
  unfold SenderAllowed
  cases e.2 <;> infer_instance

/-- No agent has asked, or one alone for the number 0. -/
def RdataItem.Fits (item : RdataItem) : Prop :=
  item.agentList = [] ∨ item.seqno = 0 ∧ item.ifaceList = [] ∧ item.agentList.length = 1

instance (item : RdataItem) : Decidable item.Fits := inferInstanceAs (Decidable (_ ∨ _))

/-- The repairs whose timers expire fit. -/
def Sender.Fits (s : Sender) (e : ℚ × SenderEvent) : Prop :=
  match e.2 with
  | .expire k => ∀ e' ∈ s.pendingRdata.entries, e'.1 = k → e'.2.Fits
  | _ => True

instance (s : Sender) (e : ℚ × SenderEvent) : Decidable (s.Fits e) := by
  unfold Sender.Fits
  cases e.2 <;> infer_instance

/-! ## Handing packets out -/

theorem hand_first : Sender.hand pkt p false (tgt :: tgts) =
    ((Sender.hand pkt (tgt.take p pkt) true tgts).1,
      ⟨tgt, pkt, p.bits pkt⟩ :: (Sender.hand pkt (tgt.take p pkt) true tgts).2) :=
  rfl

theorem hand_more : Sender.hand pkt p true (tgt :: tgts) =
    ((Sender.hand pkt (tgt.take (p.copy pkt).1 (p.copy pkt).2) true tgts).1,
      ⟨tgt, (p.copy pkt).2, (p.copy pkt).1.bits (p.copy pkt).2⟩ ::
        (Sender.hand pkt (tgt.take (p.copy pkt).1 (p.copy pkt).2) true tgts).2) :=
  rfl

/-- The packets go to the targets, in their order. -/
theorem hand_tgts (p : Pool PktBits) (flag : Bool) :
    ((Sender.hand pkt p flag tgts).2).map (·.tgt) = tgts := by
  induction tgts generalizing p flag with
  | nil => rfl
  | cons tgt tgts ih =>
    rw [Sender.hand]
    dsimp only
    rw [map_cons, ih]

/-- **Links get copies**: new packets with the same header; the packets that were live stay so. -/
theorem hand_copies (h : p.Wf) (hpkt : p.Live pkt) (is : List ℤ) :
    (Sender.hand pkt p true (is.map .iface)).1.Wf ∧
      (∀ c, p.Live c → (Sender.hand pkt p true (is.map .iface)).1.Live c ∧
        (Sender.hand pkt p true (is.map .iface)).1.bits c = p.bits c) ∧
      (∀ h ∈ (Sender.hand pkt p true (is.map .iface)).2, ¬ p.Live h.pkt ∧ h.bits = p.bits pkt) ∧
      ((Sender.hand pkt p true (is.map .iface)).2.map (·.pkt)).Nodup := by
  induction is generalizing p with
  | nil => exact ⟨h, fun c hc => ⟨hc, rfl⟩, fun _ hh => absurd hh not_mem_nil, nodup_nil⟩
  | cons i is ih =>
    obtain ⟨hwf, hdead, hkeep, hlive, hbits⟩ := h.copy_spec hpkt
    obtain ⟨hwf', hkeep', hout, hnd⟩ := ih hwf (hkeep pkt hpkt).1
    rw [map_cons, hand_more]
    dsimp only [Target.take]
    refine ⟨hwf', fun c hc => ?_, fun x hx => ?_, ?_⟩
    · obtain ⟨hc', hcb⟩ := hkeep c hc
      obtain ⟨hc'', hcb'⟩ := hkeep' c hc'
      exact ⟨hc'', hcb'.trans hcb⟩
    · rcases mem_cons.mp hx with rfl | hx
      · exact ⟨hdead, hbits⟩
      · obtain ⟨hx', hxb⟩ := hout x hx
        exact ⟨fun hc => hx' (hkeep _ hc).1, hxb.trans (hkeep pkt hpkt).2⟩
    · rw [map_cons, nodup_cons]
      refine ⟨fun hmem => ?_, hnd⟩
      obtain ⟨x, hx, hxeq⟩ := mem_map.mp hmem
      exact (hout x hx).1 (hxeq ▸ hlive)

/-- **The interfaces of a repair** get the packet and copies of it, and it keeps its header. -/
theorem hand_links (h : p.Wf) (hpkt : p.Live pkt) (is : List ℤ) :
    (Sender.hand pkt p false (is.map .iface)).1.Wf ∧
      (∀ c, p.Live c → (Sender.hand pkt p false (is.map .iface)).1.Live c ∧
        (Sender.hand pkt p false (is.map .iface)).1.bits c = p.bits c) ∧
      (∀ h ∈ (Sender.hand pkt p false (is.map .iface)).2, h.bits = p.bits pkt) ∧
      ((Sender.hand pkt p false (is.map .iface)).2.map (·.pkt)).Nodup := by
  cases is with
  | nil => exact ⟨h, fun c hc => ⟨hc, rfl⟩, fun _ hh => absurd hh not_mem_nil, nodup_nil⟩
  | cons i is =>
    obtain ⟨hwf, hkeep, hout, hnd⟩ := hand_copies h hpkt is
    rw [map_cons, hand_first]
    dsimp only [Target.take]
    refine ⟨hwf, hkeep, fun x hx => ?_, ?_⟩
    · rcases mem_cons.mp hx with rfl | hx
      · rfl
      · exact (hout x hx).2
    · rw [map_cons, nodup_cons]
      refine ⟨fun hmem => ?_, hnd⟩
      obtain ⟨x, hx, hxeq⟩ := mem_map.mp hmem
      exact (hout x hx).1 (hxeq ▸ hpkt)

/-- A cleared packet stays cleared, whoever gets copies of it. -/
theorem hand_bits_eq_zero (h : p.bits pkt = 0) (tgts : List Target) :
    (Sender.hand pkt p true tgts).1.bits pkt = 0 := by
  induction tgts generalizing p with
  | nil => exact h
  | cons tgt tgts ih =>
    have hcopy : (p.copy pkt).1.bits pkt = 0 := Pool.bits_copy_eq_zero h
    rw [hand_more]
    apply ih
    cases tgt with
    | iface i => exact hcopy
    | agent a => exact Pool.bits_release_eq_zero hcopy

/-- **The agents of a repair** leave the packet cleared. -/
theorem hand_agents_bits (hpkt : p.Live pkt) (a : ℕ) (as : List ℕ) :
    (Sender.hand pkt p false ((a :: as).map .agent)).1.bits pkt = 0 := by
  rw [map_cons, hand_first]
  exact hand_bits_eq_zero (Pool.bits_release_self hpkt) _

/-- A second agent gets the packet again: it is the one that the first agent has freed. -/
theorem hand_agents_twice (hpkt : p.Live pkt) (a c : ℕ) (as : List ℕ) :
    ¬ ((Sender.hand pkt p false ((a :: c :: as).map .agent)).2.map (·.pkt)).Nodup := by
  have hagain : ((p.release pkt).copy pkt).2 = pkt := Pool.alloc_release hpkt
  rw [map_cons, map_cons, hand_first, hand_more]
  dsimp only [Target.take]
  rw [map_cons, map_cons, hagain, nodup_cons]
  exact fun hnd => hnd.1 mem_cons_self

/-! ## Who has asked -/

theorem asked_concat : Asked cfg (past ++ [e]) k tgt ↔
    NakOf cfg k tgt e ∨ e.2 ≠ .expire k ∧ Asked cfg past k tgt := by
  constructor
  · rintro ⟨before, e', after, heq, hnak, hafter⟩
    rcases eq_nil_or_concat after with rfl | ⟨after, x, rfl⟩
    · obtain ⟨-, hlast⟩ := append_inj' heq rfl
      cases hlast
      exact .inl hnak
    · rw [concat_eq_append, ← cons_append, ← append_assoc] at heq
      obtain ⟨hpast, hlast⟩ := append_inj' heq rfl
      cases hlast
      refine .inr ⟨hafter e (by simp), before, e', after, hpast, hnak, fun y hy => hafter y (by simp [hy])⟩
  · rintro (hnak | ⟨hne, before, e', after, rfl, hnak, hafter⟩)
    · exact ⟨past, e, [], rfl, hnak, fun _ h => absurd h not_mem_nil⟩
    · refine ⟨before, e', after ++ [e], by simp, hnak, fun y hy => ?_⟩
      rcases mem_append.mp hy with hy | hy
      · exact hafter y hy
      · rw [mem_singleton.mp hy]
        exact hne

theorem not_asked_nil : ¬ Asked cfg [] k tgt := by
  rintro ⟨before, e, after, heq, -⟩
  exact absurd heq (by simp)

/-- An event that is no NAK of the session and no timer does not change who has asked. -/
theorem asked_other (hnak : ¬ NakOf cfg k tgt e) (hexp : e.2 ≠ .expire k) :
    Asked cfg (past ++ [e]) k tgt ↔ Asked cfg past k tgt := by
  rw [asked_concat, or_iff_right hnak]
  exact and_iff_right hexp

/-! ## The repairs -/

theorem mem_targets : tgt ∈ item.targets ↔
    match tgt with
    | .iface i => i ∈ item.ifaceList
    | .agent a => a ∈ item.agentList := by
  unfold RdataItem.targets
  cases tgt <;> simp

theorem mem_addTarget {t : Target} : t ∈ (item.addTarget tgt).targets ↔ t = tgt ∨ t ∈ item.targets := by
  cases tgt with
  | iface i =>
    cases t with
    | iface j =>
      rw [mem_targets, mem_targets]
      dsimp only [RdataItem.addTarget]
      split
      · rename_i hi
        refine ⟨.inr, fun h => h.elim (fun heq => ?_) id⟩
        cases heq
        exact hi
      · simp [or_comm]
    | agent c => simp [mem_targets, RdataItem.addTarget]
  | agent a =>
    cases t with
    | iface j => simp [mem_targets, RdataItem.addTarget]
    | agent c =>
      rw [mem_targets, mem_targets]
      dsimp only [RdataItem.addTarget]
      split
      · rename_i ha
        refine ⟨.inr, fun h => h.elim (fun heq => ?_) id⟩
        cases heq
        exact ha
      · simp [or_comm]

structure RdataItem.Distinct (item : RdataItem) : Prop where
  ifaces : item.ifaceList.Nodup
  agents : item.agentList.Nodup

theorem RdataItem.Distinct.nodup (h : item.Distinct) : item.targets.Nodup := by
  unfold RdataItem.targets
  refine nodup_append.mpr ⟨h.ifaces.map (fun _ _ heq => Target.iface.inj heq),
    h.agents.map (fun _ _ heq => Target.agent.inj heq), fun x hx y hy hxy => ?_⟩
  obtain ⟨i, -, rfl⟩ := mem_map.mp hx
  obtain ⟨a, -, rfl⟩ := mem_map.mp hy
  cases hxy

theorem nodup_add {α : Type} [DecidableEq α] {xs : List α} (h : xs.Nodup) (x : α) :
    (if x ∈ xs then xs else xs ++ [x]).Nodup := by
  split
  · exact h
  · rename_i hx
    exact nodup_append.mpr ⟨h, nodup_singleton x, fun y hy z hz heq => hx (by
      rw [mem_singleton.mp hz] at heq
      exact heq ▸ hy)⟩

theorem RdataItem.Distinct.addTarget (h : item.Distinct) (tgt : Target) : (item.addTarget tgt).Distinct := by
  cases tgt with
  | iface i => exact ⟨nodup_add h.ifaces i, h.agents⟩
  | agent a => exact ⟨h.ifaces, nodup_add h.agents a⟩

structure ItemOk (cfg : SenderConfig) (past : List (ℚ × SenderEvent)) (p : Pool PktBits) (k : ℤ)
    (item : RdataItem) : Prop where
  seqno : item.seqno = k
  timer : item.rdataTimer.isSome
  live : p.Live item.rdataPkt
  bits : (p.bits item.rdataPkt).IsRdata cfg k
  distinct : item.Distinct
  targets : ∀ tgt, tgt ∈ item.targets ↔ Asked cfg past k tgt

structure SenderOk (cfg : SenderConfig) (past : List (ℚ × SenderEvent)) (s : Sender) : Prop where
  pool : s.pool.Wf
  item : ∀ k item, s.pendingRdata.find? k = some item → ItemOk cfg past s.pool k item
  apart : ∀ k k' item item', s.pendingRdata.find? k = some item → s.pendingRdata.find? k' = some item' →
    item.rdataPkt = item'.rdataPkt → k = k'
  idle : ∀ k, s.pendingRdata.find? k = none → ∀ tgt, ¬ Asked cfg past k tgt

theorem holds_of_find (hfind : s.pendingRdata.find? k = some item) : s.Holds item.rdataPkt :=
  ⟨(k, item), OrderedMap.find?_eq_some.mp hfind, rfl⟩

/-- The packets that are live in `p` stay so, with their headers. -/
structure Keeps (p q : Pool PktBits) : Prop where
  wf : q.Wf
  keep : ∀ c, p.Live c → q.Live c ∧ q.bits c = p.bits c

theorem Keeps.trans {q q' : Pool PktBits} (h : Keeps p q) (h' : Keeps q q') : Keeps p q' where
  wf := h'.wf
  keep c hc := by
    obtain ⟨hq, hbits⟩ := h.keep c hc
    obtain ⟨hq', hbits'⟩ := h'.keep c hq
    exact ⟨hq', hbits'.trans hbits⟩

theorem allocpkt_spec (h : p.Wf) (b : PktBits) : Keeps p (Sender.allocpkt p b).1 ∧
    ¬ p.Live (Sender.allocpkt p b).2 ∧ (Sender.allocpkt p b).1.Live (Sender.allocpkt p b).2 ∧
    (Sender.allocpkt p b).1.bits (Sender.allocpkt p b).2 = b := by
  obtain ⟨hwf, hdead, hlive, hbits⟩ := h.alloc_spec
  unfold Sender.allocpkt
  refine ⟨⟨hwf.write, fun c hc => ⟨(hlive c).mpr (.inl hc), ?_⟩⟩, hdead, (hlive _).mpr (.inr rfl),
    Pool.bits_write_self⟩
  rw [Pool.bits_write_of_ne (fun heq : c = p.alloc.2 => hdead (heq ▸ hc)), hbits c hc]

theorem keeps_release {q : Pool PktBits} (h : Keeps p q) (ha : q.Live a) (hdead : ¬ p.Live a) :
    Keeps p (q.release a) where
  wf := h.wf.release ha
  keep c hc := by
    have hne : c ≠ a := fun heq => hdead (heq ▸ hc)
    obtain ⟨hlive, hbits⟩ := Pool.release_of_ne (p := q) hne
    rw [hlive, hbits]
    exact h.keep c hc

/-- **The NCF** does not touch a live packet, also if an agent frees it. -/
theorem sendNcf_spec (h : s.pool.Wf) : Keeps s.pool (s.sendNcf cfg seqno tgt).1.pool ∧
    (s.sendNcf cfg seqno tgt).1.pendingRdata = s.pendingRdata := by
  obtain ⟨hkeep, hdead, hlive, -⟩ := allocpkt_spec h (Sender.ncfBits cfg seqno)
  unfold Sender.sendNcf
  refine ⟨?_, rfl⟩
  cases tgt with
  | iface i => exact hkeep
  | agent a => exact keeps_release hkeep hlive hdead

/-- What is not about the repairs. -/
theorem SenderOk.other {past' : List (ℚ × SenderEvent)} (h : SenderOk cfg past s)
    (hpend : s'.pendingRdata = s.pendingRdata) (hwf : s'.pool.Wf)
    (hkeep : ∀ c, s.pool.Live c → s.Holds c → s'.pool.Live c ∧ s'.pool.bits c = s.pool.bits c)
    (hask : ∀ k tgt, Asked cfg past' k tgt ↔ Asked cfg past k tgt) : SenderOk cfg past' s' where
  pool := hwf
  item k item hfind := by
    rw [hpend] at hfind
    have hok := h.item k item hfind
    obtain ⟨hlive, hbits⟩ := hkeep _ hok.live (holds_of_find hfind)
    exact ⟨hok.seqno, hok.timer, hlive, hbits ▸ hok.bits, hok.distinct,
      fun tgt => (hok.targets tgt).trans (hask k tgt).symm⟩
  apart k k' item item' hfind hfind' heq := by
    rw [hpend] at hfind hfind'
    exact h.apart k k' item item' hfind hfind' heq
  idle k hfind tgt hasked := by
    rw [hpend] at hfind
    exact h.idle k hfind tgt ((hask k tgt).mp hasked)

/-- A packet that belongs to no repair is freed. -/
theorem SenderOk.release (h : SenderOk cfg past s) (hlive : s.pool.Live pkt) (hno : ¬ s.Holds pkt) :
    (s.pool.release pkt).Wf ∧ ∀ c, s.pool.Live c → s.Holds c →
      (s.pool.release pkt).Live c ∧ (s.pool.release pkt).bits c = s.pool.bits c := by
  refine ⟨h.pool.release hlive, fun c hc hholds => ?_⟩
  have hne : c ≠ pkt := fun heq => hno (heq ▸ hholds)
  obtain ⟨hiff, hbits⟩ := Pool.release_of_ne (p := s.pool) hne
  exact ⟨hiff.mpr hc, hbits⟩

/-! ## A NAK -/

@[simp] theorem addTarget_seqno : (item.addTarget tgt).seqno = item.seqno := by cases tgt <;> rfl

@[simp] theorem addTarget_rdataPkt : (item.addTarget tgt).rdataPkt = item.rdataPkt := by cases tgt <;> rfl

@[simp] theorem addTarget_rdataTimer : (item.addTarget tgt).rdataTimer = item.rdataTimer := by
  cases tgt <;> rfl

/-- A repair is put in its place; the others stay. -/
theorem SenderOk.set (h : SenderOk cfg past s) (hkeep : Keeps s.pool s'.pool)
    (hpend : s'.pendingRdata = s.pendingRdata.set seqno item)
    (hitem : ItemOk cfg (past ++ [e]) s'.pool seqno item)
    (hpkt : ∀ k item', k ≠ seqno → s.pendingRdata.find? k = some item' → item'.rdataPkt ≠ item.rdataPkt)
    (hask : ∀ k ≠ seqno, ∀ tgt, Asked cfg (past ++ [e]) k tgt ↔ Asked cfg past k tgt) :
    SenderOk cfg (past ++ [e]) s' where
  pool := hkeep.wf
  item k item' hk := by
    rw [hpend, OrderedMap.find?_set] at hk
    split at hk
    · rename_i heq
      cases hk
      exact heq ▸ hitem
    · rename_i hne
      have hok := h.item k item' hk
      obtain ⟨hlive, hbits⟩ := hkeep.keep _ hok.live
      exact ⟨hok.seqno, hok.timer, hlive, hbits ▸ hok.bits, hok.distinct,
        fun t => (hok.targets t).trans (hask k hne t).symm⟩
  apart k k' x y hx hy heq := by
    rw [hpend, OrderedMap.find?_set] at hx hy
    split at hx
    · rename_i hk
      split at hy
      · rename_i hk'
        rw [hk, hk']
      · rename_i hk'
        cases hx
        exact absurd heq.symm (hpkt k' y hk' hy)
    · rename_i hk
      split at hy
      · cases hy
        exact absurd heq (hpkt k x hk hx)
      · exact h.apart k k' x y hx hy heq
  idle k hk t hasked := by
    rw [hpend, OrderedMap.find?_set] at hk
    split at hk
    · cases hk
    · rename_i hne
      exact h.idle k hk t ((hask k hne t).mp hasked)

/-- **The repair behind a NAK**: a new one with a new packet, or the one that there is, and the target among
its targets. -/
theorem SenderOk.queueRdata (h : SenderOk cfg past s) (hkeep : Keeps s.pool s'.pool)
    (hpend : s'.pendingRdata = s.pendingRdata)
    (hask : ∀ t, Asked cfg (past ++ [e]) seqno t ↔ t = tgt ∨ Asked cfg past seqno t) :
    ∃ item, (s'.queueRdata cfg now seqno tgt).pendingRdata = s.pendingRdata.set seqno item ∧
      Keeps s'.pool (s'.queueRdata cfg now seqno tgt).pool ∧
      ItemOk cfg (past ++ [e]) (s'.queueRdata cfg now seqno tgt).pool seqno item ∧
      (s'.pool.Live item.rdataPkt →
        ∃ item₀, s.pendingRdata.find? seqno = some item₀ ∧ item₀.rdataPkt = item.rdataPkt) ∧
      (s.pendingRdata.find? seqno = none →
        item.targets = [tgt] ∧ item.rdataTimer = some (now + cfg.rdataDelay)) := by
  unfold Sender.queueRdata
  rw [hpend]
  cases hfind : s.pendingRdata.find? seqno with
  | none =>
    obtain ⟨hkeep', hdead, hlive, hbits⟩ := allocpkt_spec hkeep.wf (s'.rdataBits cfg seqno)
    refine ⟨_, rfl, hkeep', ⟨addTarget_seqno, ?_, ?_, ?_, ?_, fun t => ?_⟩, fun hl => ?_, fun _ => ⟨?_, ?_⟩⟩
    · rw [addTarget_rdataTimer]
      rfl
    · rw [addTarget_rdataPkt]
      exact hlive
    · rw [addTarget_rdataPkt, hbits]
      exact ⟨rfl, rfl, rfl, rfl⟩
    · exact RdataItem.Distinct.addTarget ⟨nodup_nil, nodup_nil⟩ tgt
    · rw [mem_addTarget, hask]
      exact or_congr_right (iff_of_false not_mem_nil (h.idle seqno hfind t))
    · rw [addTarget_rdataPkt] at hl
      exact absurd hl hdead
    · cases tgt <;> rfl
    · rw [addTarget_rdataTimer]
      rfl
  | some item₀ =>
    have hok := h.item seqno item₀ hfind
    obtain ⟨hlive, hbits⟩ := hkeep.keep _ hok.live
    refine ⟨_, rfl, ⟨hkeep.wf, fun c hc => ⟨hc, rfl⟩⟩,
      ⟨addTarget_seqno.trans hok.seqno, ?_, ?_, ?_, hok.distinct.addTarget tgt, fun t => ?_⟩,
      fun _ => ⟨item₀, rfl, addTarget_rdataPkt.symm⟩, fun hno => ?_⟩
    · rw [addTarget_rdataTimer]
      exact hok.timer
    · rw [addTarget_rdataPkt]
      exact hlive
    · rw [addTarget_rdataPkt, hbits]
      exact hok.bits
    · rw [mem_addTarget, hask, hok.targets]
    · cases hno

/-- **A NAK** of the session is behind a repair whose timer runs. -/
theorem SenderOk.nak (h : SenderOk cfg past s) {hp : Hdr} {iface sport : ℤ}
    (ha : SenderAllowed cfg s (now, .nak pkt hp iface sport)) :
    ∃ s' out, s.recv cfg now pkt hp iface sport = some (s', out) ∧
      Sender.Repairs cfg past (now, .nak pkt hp iface sport) s s' out ∧
      SenderOk cfg (past ++ [(now, .nak pkt hp iface sport)]) s' := by
  obtain ⟨hpktLive, hpktFree, htarget⟩ := ha
  unfold Sender.recv Sender.handleNak
  by_cases htsi : hp.tsi = cfg.here
  · obtain ⟨tgt, htgt⟩ := Option.isSome_iff_exists.mp (htarget htsi)
    rw [if_neg (not_not.mpr htsi), htgt, Option.map_some, Option.map_some]
    have hcount : (s.sendNcf cfg hp.seqno tgt).1.pool =
        (Sender.sendNcf cfg { s with numNaksReceived := s.numNaksReceived + 1 } hp.seqno tgt).1.pool := rfl
    obtain ⟨hkeep, hpend⟩ := @sendNcf_spec cfg s tgt hp.seqno h.pool
    rw [hcount] at hkeep
    have hask : ∀ k t, Asked cfg (past ++ [(now, .nak pkt hp iface sport)]) k t ↔
        k = hp.seqno ∧ t = tgt ∨ Asked cfg past k t := by
      intro k t
      rw [asked_concat]
      have hexp : (SenderEvent.nak pkt hp iface sport) ≠ .expire k := fun heq => by cases heq
      refine or_congr ⟨?_, ?_⟩ (and_iff_right hexp)
      · rintro ⟨-, hk, ht⟩
        rw [htgt] at ht
        exact ⟨hk.symm, (Option.some.inj ht).symm⟩
      · rintro ⟨rfl, rfl⟩
        exact ⟨htsi, rfl, htgt⟩
    obtain ⟨item, hset, hkeep', hitem, horigin, hnew⟩ := @SenderOk.queueRdata _ _ _ _ _ tgt now _ h hkeep hpend
      (fun t => (hask hp.seqno t).trans (or_congr_left (and_iff_right rfl)))
    generalize hs₁ : Sender.queueRdata cfg (Sender.sendNcf cfg
      { s with numNaksReceived := s.numNaksReceived + 1 } hp.seqno tgt).1 now hp.seqno tgt = s₁ at *
    have hfirst : ∀ c, s.pool.Live c → c = item.rdataPkt →
        ∃ item₀, s.pendingRdata.find? hp.seqno = some item₀ ∧ item₀.rdataPkt = c := by
      rintro c hc rfl
      exact horigin (hkeep.keep _ hc).1
    have hqueued := h.set (hkeep.trans hkeep') hset hitem
      (fun k x hk hx heq => by
        obtain ⟨item₀, hfind, heq'⟩ := hfirst _ (h.item k x hx).live heq
        exact hk (h.apart k hp.seqno x item₀ hx hfind heq'.symm))
      (fun k hk t => (hask k t).trans (or_iff_right (fun hc => hk hc.1)))
    -- the NAK itself is freed last
    have hno : ¬ s₁.Holds pkt := by
      rintro ⟨x, hx, hxeq⟩
      have hget := OrderedMap.find?_eq_some.mpr hx
      rw [hset, OrderedMap.find?_set] at hget
      split at hget
      · cases hget
        obtain ⟨item₀, hfind, heq'⟩ := hfirst pkt hpktLive hxeq.symm
        exact hpktFree (heq' ▸ holds_of_find hfind)
      · exact hpktFree (hxeq ▸ holds_of_find hget)
    obtain ⟨hwf, hkeepr⟩ := hqueued.release ((hkeep.trans hkeep').keep pkt hpktLive).1 hno
    refine ⟨{ s₁ with pool := s₁.pool.release pkt }, _, by rw [← hs₁], fun _ tgt' htgt' => ?_,
      hqueued.other rfl hwf hkeepr (fun _ _ => Iff.rfl)⟩
    rw [htgt] at htgt'
    cases htgt'
    refine ⟨item, ?_, (hitem.targets tgt).mpr ((hask _ _).mpr (.inl ⟨rfl, rfl⟩)), hitem.timer, hnew⟩
    dsimp only
    rw [hset]
    exact OrderedMap.find?_set_self
  · rw [if_pos htsi]
    obtain ⟨hwf, hkeep⟩ := h.release hpktLive hpktFree
    refine ⟨_, _, rfl, fun heq => absurd heq htsi, h.other rfl hwf hkeep (fun k t => ?_)⟩
    exact asked_other (fun hnak => htsi hnak.1) (fun heq => by cases heq)

/-! ## The timer of a repair -/

theorem noteReply_frame : (s.noteReply seqno).pool = s.pool ∧
    (s.noteReply seqno).pendingRdata = s.pendingRdata := by
  unfold Sender.noteReply
  split <;> exact ⟨rfl, rfl⟩

/-- What goes out when the timer of the repair expires, and what stays. -/
theorem expire_eq (hfind : s.pendingRdata.find? k = some item) : ∃ s',
    s.expire k = some (s', (Sender.hand item.rdataPkt s.pool false (item.ifaceList.map .iface)).2 ++
      (Sender.hand item.rdataPkt (Sender.hand item.rdataPkt s.pool false (item.ifaceList.map .iface)).1 false
        (item.agentList.map .agent)).2) ∧
    s'.pool = (Sender.hand item.rdataPkt
      (Sender.hand item.rdataPkt s.pool false (item.ifaceList.map .iface)).1 false
        (item.agentList.map .agent)).1 ∧
    s'.pendingRdata = (s.pendingRdata.set k { item with rdataTimer := none }).erase
      (s'.pool.bits item.rdataPkt).seqno := by
  have hpool : ∀ s : Sender, (s.noteReply item.seqno).pool = s.pool := fun s => noteReply_frame.1
  have hpend : ∀ s : Sender, (s.noteReply item.seqno).pendingRdata = s.pendingRdata :=
    fun s => noteReply_frame.2
  unfold Sender.expire Sender.sendRdata
  rw [hfind, Option.map_some]
  dsimp only
  rw [hpool, hpend]
  exact ⟨_, rfl, rfl, rfl⟩

/-- **The number to erase** is 0 when an agent has had the packet. -/
theorem read_zero (h : SenderOk cfg past s) (hfind : s.pendingRdata.find? k = some item)
    (hagents : item.agentList ≠ []) :
    ((Sender.hand item.rdataPkt (Sender.hand item.rdataPkt s.pool false (item.ifaceList.map .iface)).1 false
      (item.agentList.map .agent)).1.bits item.rdataPkt).seqno = 0 := by
  have hok := h.item k item hfind
  obtain ⟨-, hkeep, -, -⟩ := hand_links h.pool hok.live item.ifaceList
  obtain ⟨a, as, has⟩ := exists_cons_of_ne_nil hagents
  rw [has, hand_agents_bits (hkeep _ hok.live).1]
  rfl

/-- The repairs behind a timer, when that of its number is erased. -/
theorem SenderOk.erased (h : SenderOk cfg past s) (hfind : s.pendingRdata.find? k = some item)
    (hpend : s'.pendingRdata = (s.pendingRdata.set k { item with rdataTimer := none }).erase k)
    (hwf : s'.pool.Wf)
    (hkeep : ∀ c, c ≠ item.rdataPkt → s.pool.Live c → s'.pool.Live c ∧ s'.pool.bits c = s.pool.bits c) :
    SenderOk cfg (past ++ [(now, .expire k)]) s' := by
  have hget : ∀ j, s'.pendingRdata.find? j = if j = k then none else s.pendingRdata.find? j := by
    intro j
    rw [hpend]
    split
    · rename_i heq
      rw [heq]
      exact OrderedMap.find?_erase_self
    · rename_i hne
      rw [OrderedMap.find?_erase_of_ne hne, OrderedMap.find?_set_of_ne hne]
  have hask : ∀ j t, Asked cfg (past ++ [(now, .expire k)]) j t ↔ j ≠ k ∧ Asked cfg past j t := by
    intro j t
    rw [asked_concat, or_iff_right (show ¬ NakOf cfg j t (now, .expire k) from id)]
    refine and_congr_left (fun _ => not_congr ⟨fun heq => ?_, fun heq => ?_⟩)
    · exact (SenderEvent.expire.inj heq).symm
    · rw [heq]
  refine ⟨hwf, fun j x hj => ?_, fun j j' x y hj hj' heq => ?_, fun j hj t hasked => ?_⟩
  · rw [hget] at hj
    split at hj
    · cases hj
    · rename_i hne
      have hok := h.item j x hj
      have hpkt : x.rdataPkt ≠ item.rdataPkt := fun heq => hne (h.apart j k x item hj hfind heq)
      obtain ⟨hlive, hbits⟩ := hkeep _ hpkt hok.live
      exact ⟨hok.seqno, hok.timer, hlive, hbits ▸ hok.bits, hok.distinct,
        fun t => (hok.targets t).trans ((hask j t).trans (and_iff_right hne)).symm⟩
  · rw [hget] at hj hj'
    split at hj
    · cases hj
    · split at hj'
      · cases hj'
      · exact h.apart j j' x y hj hj' heq
  · obtain ⟨hne, hold⟩ := (hask j t).mp hasked
    rw [hget, if_neg hne] at hj
    exact h.idle j hj t hold

/-- Packets to distinct targets: each gets one. -/
theorem countP_handed (hout : out.map (·.tgt) = item.targets) (hd : item.Distinct)
    (htgt : tgt ∈ item.targets) : out.countP (·.tgt = tgt) = 1 := by
  have hcount : out.countP (·.tgt = tgt) = (out.map (·.tgt)).count tgt := by
    rw [count_eq_countP, countP_map]
    rfl
  rw [hcount, hout]
  exact count_eq_one_of_mem hd.nodup htgt

/-- **The timer of a repair that fits** completes it. -/
theorem SenderOk.complete (h : SenderOk cfg past s) (hfind : s.pendingRdata.find? k = some item)
    (hfits : item.Fits) : ∃ s' out, s.expire k = some (s', out) ∧
      Sender.Repairs cfg past (now, .expire k) s s' out ∧
      SenderOk cfg (past ++ [(now, .expire k)]) s' := by
  have hok := h.item k item hfind
  obtain ⟨s', hexp, hpool, hpend⟩ := expire_eq hfind
  refine ⟨s', _, hexp, ?_⟩
  have hfirst : ∀ {s' : Sender} {out : List Handed}, out.map (·.tgt) = item.targets →
      (∀ h ∈ out, h.bits = s.pool.bits item.rdataPkt) → (out.map (·.pkt)).Nodup →
      s'.pendingRdata = (s.pendingRdata.set k { item with rdataTimer := none }).erase k →
      Sender.Repairs cfg past (now, .expire k) s s' out := by
    intro s' out htgts hbits hnd hpend
    refine ⟨fun t ht => ?_, fun x hx => ⟨?_, ?_⟩, hnd, ?_⟩
    · exact countP_handed htgts hok.distinct ((hok.targets t).mpr ht)
    · exact (hok.targets _).mp (htgts ▸ mem_map_of_mem hx)
    · rw [hbits x hx]
      exact hok.bits
    · rw [hpend]
      exact OrderedMap.find?_erase_self
  rcases hfits with hnil | ⟨hzero, hnil, hone⟩
  · -- the links still have the packet
    obtain ⟨hwf, hkeep, hbits, hnd⟩ := hand_links h.pool hok.live item.ifaceList
    have htgts : item.targets = item.ifaceList.map .iface := by
      unfold RdataItem.targets
      rw [hnil, map_nil, append_nil]
    rw [hnil, map_nil] at hpool ⊢
    have hread : (s'.pool.bits item.rdataPkt).seqno = k := by
      rw [hpool]
      exact (congrArg PktBits.seqno (hkeep _ hok.live).2).trans hok.bits.2.2.2
    rw [hread] at hpend
    refine ⟨hfirst ?_ ?_ ?_ hpend, h.erased hfind hpend ?_ (fun c _ hc => ?_)⟩
    · rw [Sender.hand, append_nil, htgts]
      exact hand_tgts _ _
    · rw [Sender.hand, append_nil]
      exact hbits
    · rw [Sender.hand, append_nil]
      exact hnd
    · rw [hpool]
      exact hwf
    · rw [hpool]
      exact hkeep c hc
  · -- the agent has freed the packet, and the number that is read is right
    obtain ⟨a, ha⟩ := length_eq_one_iff.mp hone
    have hread := read_zero h hfind (by rw [ha]; exact cons_ne_nil _ _)
    have hk : (0 : ℤ) = k := hzero.symm.trans hok.seqno
    rw [← hpool, hk] at hread
    rw [hread] at hpend
    have htgts : item.targets = [.agent a] := by
      unfold RdataItem.targets
      rw [hnil, ha]
      rfl
    rw [hnil, ha] at hpool ⊢
    refine ⟨hfirst ?_ ?_ ?_ hpend, h.erased hfind hpend ?_ (fun c hne hc => ?_)⟩
    · rw [htgts]
      rfl
    · intro x hx
      rw [mem_singleton.mp hx]
      rfl
    · exact nodup_singleton _
    · rw [hpool]
      exact h.pool.release hok.live
    · rw [hpool]
      obtain ⟨hiff, hbits⟩ := Pool.release_of_ne (p := s.pool) hne
      exact ⟨hiff.mpr hc, hbits⟩

/-- **The timer of any other repair** does not complete it: a packet goes to two, or the wrong number is
read. -/
theorem SenderOk.incomplete (h : SenderOk cfg past s) (hfind : s.pendingRdata.find? k = some item)
    (hfits : ¬ item.Fits) (hexp : s.expire k = some (s', out)) :
    ¬ Sender.Repairs cfg past (now, .expire k) s s' out := by
  have hok := h.item k item hfind
  obtain ⟨s₁, hexp₁, hpool, hpend⟩ := expire_eq hfind
  rw [hexp] at hexp₁
  cases hexp₁
  rintro ⟨-, -, hnd, hgone⟩
  have hagents : item.agentList ≠ [] := fun hnil => hfits (.inl hnil)
  obtain ⟨a, as, has⟩ := exists_cons_of_ne_nil hagents
  have hread := read_zero h hfind hagents
  rw [← hpool] at hread
  cases hif : item.ifaceList with
  | cons i is =>
    -- the first link and the first agent get the same packet
    rw [hif, has, map_cons, map_cons, hand_first, hand_first, map_append, map_cons, map_cons] at hnd
    have hdisj := (nodup_append.mp hnd).2.2
    exact hdisj _ mem_cons_self _ mem_cons_self rfl
  | nil =>
    by_cases hk : k = 0
    · cases as with
      | nil => exact hfits (.inr ⟨hok.seqno.trans hk, hif, by rw [has]; rfl⟩)
      | cons c as =>
        rw [hif, has, map_nil, Sender.hand, nil_append] at hnd
        exact hand_agents_twice hok.live a c as hnd
    · -- the repair is not found under the number 0
      rw [hpend, hread, OrderedMap.find?_erase_of_ne hk, OrderedMap.find?_set_self] at hgone
      cases hgone

/-! ## Runs -/

theorem fits_iff (hfind : s.pendingRdata.find? k = some item) : s.Fits (now, .expire k) ↔ item.Fits := by
  constructor
  · exact fun hall => hall (k, item) (OrderedMap.find?_eq_some.mp hfind) rfl
  · rintro hitem ⟨j, x⟩ hx rfl
    have hget := OrderedMap.find?_eq_some.mpr hx
    rw [hfind] at hget
    cases hget
    exact hitem

/-- **Every event** repairs what it should just when it fits. -/
theorem SenderOk.step (h : SenderOk cfg past s) (ha : SenderAllowed cfg s e) :
    ∃ s' out, s.step cfg e = some (s', out) ∧ (Sender.Repairs cfg past e s s' out ↔ s.Fits e) ∧
      (s.Fits e → SenderOk cfg (past ++ [e]) s') := by
  obtain ⟨now, e⟩ := e
  cases e with
  | nak pkt hp iface sport =>
    obtain ⟨s', out, hs, hrep, h'⟩ := h.nak ha
    exact ⟨s', out, hs, iff_of_true hrep trivial, fun _ => h'⟩
  | expire k =>
    obtain ⟨⟨j, item⟩, hmem, rfl, -⟩ := ha
    have hfind := OrderedMap.find?_eq_some.mpr hmem
    rw [fits_iff hfind]
    by_cases hfits : item.Fits
    · obtain ⟨s', out, hs, hrep, h'⟩ := @SenderOk.complete _ _ _ _ _ now h hfind hfits
      exact ⟨s', out, hs, iff_of_true hrep hfits, fun _ => h'⟩
    · obtain ⟨s', hs, -⟩ := expire_eq hfind
      exact ⟨s', _, hs, iff_of_false (h.incomplete hfind hfits hs) hfits, fun hf => absurd hf hfits⟩
  | alloc =>
    obtain ⟨hwf, -, hlive, hbits⟩ := h.pool.alloc_spec
    refine ⟨_, _, rfl, iff_of_true trivial trivial, fun _ => h.other rfl hwf (fun c hc _ => ?_) (fun k t => ?_)⟩
    · exact ⟨(hlive c).mpr (.inl hc), hbits c hc⟩
    · exact asked_other id (fun heq => by cases heq)
  | free pkt =>
    obtain ⟨hwf, hkeep⟩ := h.release ha.1 ha.2
    refine ⟨_, _, rfl, iff_of_true trivial trivial, fun _ => h.other rfl hwf hkeep (fun k t => ?_)⟩
    exact asked_other id (fun heq => by cases heq)

theorem senderOk_nil (hpend : s.pendingRdata = .empty) (hpool : s.pool.Wf) : SenderOk cfg [] s where
  pool := hpool
  item k item hk := by
    rw [hpend] at hk
    cases hk
  apart k k' x y hx := by
    rw [hpend] at hx
    cases hx
  idle k _ t := not_asked_nil

/-- **A sender answers all NAKs in exactly these runs.** Every timer that expires sends an RDATA packet of its
own to everyone who has asked for the number, and ends the repair, and every NAK is behind a repair whose timer
runs, just when every repair whose timer expires was asked for by no agent of the node, or is that of the number
0, asked for by one agent alone. -/
theorem sender_repairs_iff (cfg : SenderConfig) (s : Sender) (events : List (ℚ × SenderEvent))
    (hpend : s.pendingRdata = .empty) (hpool : s.pool.Wf)
    (hok : Runs.Meets (Sender.step cfg) (SenderAllowed cfg) s events) :
    (∀ past e, past ++ [e] <+: events → ∃ s₁ outs s₂ out,
      Runs.run (Sender.step cfg) s past = some (s₁, outs) ∧ s₁.step cfg e = some (s₂, out) ∧
        Sender.Repairs cfg past e s₁ s₂ out) ↔
      Runs.Meets (Sender.step cfg) Sender.Fits s events := by
  refine Runs.run_exact_total (fun past s e h ha => ?_) (@senderOk_nil cfg s hpend hpool) hok
  exact SenderOk.step h ha

/-- A node with links to two neighbours and one agent. -/
def senderNode : SenderConfig where
  here := ⟨1, 2⟩
  rdataDelay := 3
  hasLink i := i = 0 ∨ i = 1
  agentAt port := if port = 7 then some 0 else none

/-- The packets of two NAKs. -/
def twoNaks : Pool PktBits := ⟨fun _ => 0, [], 2⟩

/-- Two links ask for a packet, and its timer expires. -/
def linkNaks : List (ℚ × SenderEvent) :=
  [(1, .nak 0 ⟨⟨1, 2⟩, 5⟩ 0 0), (2, .nak 1 ⟨⟨1, 2⟩, 5⟩ 1 0), (4, .expire 5)]

theorem sender_repairs_iff_links :
    Runs.Meets (Sender.step senderNode) Sender.Fits (.init twoNaks) linkNaks ∧
      ∀ past e, past ++ [e] <+: linkNaks → ∃ s₁ outs s₂ out,
        Runs.run (Sender.step senderNode) (.init twoNaks) past = some (s₁, outs) ∧
          s₁.step senderNode e = some (s₂, out) ∧ Sender.Repairs senderNode past e s₁ s₂ out := by
  have hfits : Runs.Meets (Sender.step senderNode) Sender.Fits (.init twoNaks) linkNaks := by decide +kernel
  refine ⟨hfits, (sender_repairs_iff senderNode (.init twoNaks) linkNaks rfl
    ⟨nodup_nil, fun _ h => absurd h not_mem_nil⟩ ?_).mpr hfits⟩
  decide +kernel

/-- An agent of the node asks for a packet: the repair stays behind its timer. -/
theorem agent_repair_stays :
    Runs.Meets (Sender.step senderNode) (SenderAllowed senderNode) (.init twoNaks)
        [(1, .nak 0 ⟨⟨1, 2⟩, 5⟩ (-1) 7), (4, .expire 5)] ∧
      ¬ ∃ s₁ outs s₂ out,
        Runs.run (Sender.step senderNode) (.init twoNaks) [(1, .nak 0 ⟨⟨1, 2⟩, 5⟩ (-1) 7)] = some (s₁, outs) ∧
          s₁.step senderNode (4, .expire 5) = some (s₂, out) ∧
          Sender.Repairs senderNode [(1, .nak 0 ⟨⟨1, 2⟩, 5⟩ (-1) 7)] (4, .expire 5) s₁ s₂ out := by
  refine ⟨by decide +kernel, ?_⟩
  rintro ⟨s₁, outs, s₂, out, hrun, hs, -, -, -, hgone⟩
  have hstays : (Runs.run (Sender.step senderNode) (.init twoNaks) [(1, .nak 0 ⟨⟨1, 2⟩, 5⟩ (-1) 7)]).bind
      (fun t => (t.1.step senderNode (4, .expire 5)).map (fun u => (u.1.pendingRdata.find? 5).isSome)) =
      some true := by
    decide +kernel
  rw [hrun, Option.bind_some, hs, Option.map_some, hgone] at hstays
  exact absurd hstays (by decide)

end NetSim.Pgm
