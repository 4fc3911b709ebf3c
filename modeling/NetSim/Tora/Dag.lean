import Mathlib
import NetSim.Lib.Acyclic
import NetSim.Tora.Agent

/-! # TORA heights form a DAG

Along the links that are marked as downstream the heights get lower, so that the next hops to a destination
have no cycle when every node knows the heights of its neighbours (`tora_dag`). A node signs its heights
with its own address, and so no two nodes have equal heights, as long as no node creates a reference level
when its last downstream link goes down: there `nb_del` signs with the address of the destination
(`link_down_signs_destination`).
-/

namespace NetSim.Tora

open List

open TORADest (recount)

variable {h h' own : Height} {tn tn' : TORANeighbor} {td : TORADest} {ip d src : ℤ} {now : ℚ}

/-! ## The order of heights -/

/-- The lexicographic order of heights. -/
def Height.key (h : Height) : ℚ ×ₗ ℤ ×ₗ ℤ ×ₗ ℤ ×ₗ ℤ :=
  toLex (h.tau, toLex (h.oid, toLex (h.r, toLex (h.delta, h.id))))

theorem key_lt_iff : h.key < h'.key ↔ h.tau < h'.tau ∨ h.tau = h'.tau ∧ (h.oid < h'.oid ∨
    h.oid = h'.oid ∧ (h.r < h'.r ∨ h.r = h'.r ∧ (h.delta < h'.delta ∨
      h.delta = h'.delta ∧ h.id < h'.id))) := by
  unfold Height.key
  rw [Prod.Lex.toLex_lt_toLex, Prod.Lex.toLex_lt_toLex, Prod.Lex.toLex_lt_toLex,
    Prod.Lex.toLex_lt_toLex]

theorem compare_cases (h h' : Height) :
    h.key < h'.key ∧ 0 < h.compare h' ∨ h'.key < h.key ∧ h.compare h' < 0 ∨
      h = h' ∧ h.compare h' = 0 := by
  rw [key_lt_iff, key_lt_iff]
  unfold Height.compare
  rcases lt_trichotomy h.tau h'.tau with hlt | htau | hlt
  · rw [if_pos hlt]
    exact .inl ⟨.inl hlt, by decide⟩
  swap
  · rw [if_neg hlt.le.not_gt, if_pos hlt]
    exact .inr (.inl ⟨.inl hlt, by decide⟩)
  rw [if_neg (not_lt.mpr htau.ge), if_neg (not_lt.mpr htau.le)]
  rcases lt_trichotomy h.oid h'.oid with hlt | hoid | hlt
  · rw [if_pos hlt]
    exact .inl ⟨.inr ⟨htau, .inl hlt⟩, by decide⟩
  swap
  · rw [if_neg hlt.le.not_gt, if_pos hlt]
    exact .inr (.inl ⟨.inr ⟨htau.symm, .inl hlt⟩, by decide⟩)
  rw [if_neg (not_lt.mpr hoid.ge), if_neg (not_lt.mpr hoid.le)]
  rcases lt_trichotomy h.r h'.r with hlt | hr | hlt
  · rw [if_pos hlt]
    exact .inl ⟨.inr ⟨htau, .inr ⟨hoid, .inl hlt⟩⟩, by decide⟩
  swap
  · rw [if_neg hlt.le.not_gt, if_pos hlt]
    exact .inr (.inl ⟨.inr ⟨htau.symm, .inr ⟨hoid.symm, .inl hlt⟩⟩, by decide⟩)
  rw [if_neg (not_lt.mpr hr.ge), if_neg (not_lt.mpr hr.le)]
  rcases lt_trichotomy h.delta h'.delta with hlt | hdelta | hlt
  · rw [if_pos hlt]
    exact .inl ⟨.inr ⟨htau, .inr ⟨hoid, .inr ⟨hr, .inl hlt⟩⟩⟩, by decide⟩
  swap
  · rw [if_neg hlt.le.not_gt, if_pos hlt]
    exact .inr (.inl ⟨.inr ⟨htau.symm, .inr ⟨hoid.symm, .inr ⟨hr.symm, .inl hlt⟩⟩⟩, by decide⟩)
  rw [if_neg (not_lt.mpr hdelta.ge), if_neg (not_lt.mpr hdelta.le)]
  rcases lt_trichotomy h.id h'.id with hlt | hid | hlt
  · rw [if_pos hlt]
    exact .inl ⟨.inr ⟨htau, .inr ⟨hoid, .inr ⟨hr, .inr ⟨hdelta, hlt⟩⟩⟩⟩, by decide⟩
  · rw [if_neg (not_lt.mpr hid.ge), if_neg (not_lt.mpr hid.le)]
    refine .inr (.inr ⟨?_, rfl⟩)
    cases h
    cases h'
    simp_all
  · rw [if_neg hlt.le.not_gt, if_pos hlt]
    exact .inr (.inl ⟨.inr ⟨htau.symm, .inr ⟨hoid.symm, .inr ⟨hr.symm, .inr ⟨hdelta.symm, hlt⟩⟩⟩⟩,
      by decide⟩)

theorem isNull_null (h : Height) : h.null.isNull = true := by
  unfold Height.null Height.isNull
  simp

/-! ## The invariant of a destination -/

/-- What a node with the address `ip` and the height `own` for the destination `d` knows of a neighbour:
the heights of other nodes are signed by them, and lower ones are downstream. -/
structure NbOk (ip d : ℤ) (own : Height) (tn : TORANeighbor) : Prop where
  signed : tn.index = d ∨ tn.height.isNull ∨ tn.height.id = tn.index
  self : tn.index = ip → tn.height.isNull
  down : tn.lnkStat = .dn → tn.index = d ∨ own.isNull ∨ tn.height.key < own.key

structure DestOk (ip : ℤ) (td : TORADest) : Prop where
  other : td.index ≠ ip
  signed : td.height.isNull ∨ td.height.id = ip
  nbs : ∀ tn ∈ td.nblist, NbOk ip td.index td.height tn

theorem NbOk.updateLinkStatus (hsigned : tn.index = d ∨ tn.height.isNull ∨ tn.height.id = tn.index)
    (hself : tn.index = ip → tn.height.isNull) (hown : own.isNull ∨ own.id = ip) :
    NbOk ip d own (tn.updateLinkStatus own) := by
  unfold TORANeighbor.updateLinkStatus
  by_cases hnull : tn.height.isNull
  · rw [if_pos hnull]
    exact ⟨hsigned, hself, fun hdn => LinkStatus.noConfusion hdn⟩
  rw [if_neg hnull]
  by_cases hnull' : own.isNull
  · rw [if_pos hnull']
    exact ⟨hsigned, hself, fun _ => .inr (.inl hnull')⟩
  rw [if_neg hnull']
  rcases compare_cases tn.height own with ⟨hlt, hpos⟩ | ⟨-, hneg⟩ | ⟨heq, hzero⟩
  · rw [if_pos hpos]
    exact ⟨hsigned, hself, fun _ => .inr (.inr hlt)⟩
  · rw [if_neg (by omega), if_pos hneg]
    exact ⟨hsigned, hself, fun hdn => LinkStatus.noConfusion hdn⟩
  · -- only the destination can have the height of the node
    rw [if_neg (by omega), if_neg (by omega)]
    refine ⟨hsigned, hself, fun _ => ?_⟩
    rcases hsigned with hindex | hnull'' | hid
    · exact .inl hindex
    · exact absurd hnull'' hnull
    · rw [heq, hown.resolve_left hnull'] at hid
      exact absurd (hself hid.symm) hnull

theorem NbOk.clear : NbOk ip d own tn.clear :=
  ⟨.inr (.inl (isNull_null _)), fun _ => isNull_null _, fun hdn => LinkStatus.noConfusion hdn⟩

theorem DestOk.updateHeight (htd : DestOk ip td) (hh : h.isNull ∨ h.id = ip) :
    DestOk ip (td.updateHeight h) := by
  refine ⟨htd.other, hh, fun x hx => ?_⟩
  obtain ⟨tn, htn, rfl⟩ := mem_map.mp hx
  exact NbOk.updateLinkStatus (htd.nbs tn htn).signed (htd.nbs tn htn).self hh

theorem DestOk.nblist {td' : TORADest} (htd : DestOk ip td) (hindex : td'.index = td.index)
    (hheight : td'.height = td.height)
    (hnbs : ∀ tn ∈ td'.nblist, NbOk ip td.index td.height tn) : DestOk ip td' := by
  refine ⟨hindex ▸ htd.other, hheight ▸ htd.signed, ?_⟩
  rw [hindex, hheight]
  exact hnbs

theorem DestOk.init (hd : d ≠ ip) : DestOk ip (TORADest.init d) := by
  refine ⟨hd, .inl ?_, fun tn htn => absurd htn not_mem_nil⟩
  unfold TORADest.init Height.init Height.isNull
  simp

theorem DestOk.nbAdd (htd : DestOk ip td) (nb : ℤ) : DestOk ip (td.nbAdd now nb) := by
  unfold TORADest.nbAdd
  split
  · rename_i heq
    refine htd.nblist rfl rfl (fun tn htn => ?_)
    rcases mem_cons.mp htn with rfl | htn
    · exact ⟨.inl heq, fun hself => absurd (heq.symm.trans hself) htd.other, fun _ => .inl heq⟩
    · exact htd.nbs tn htn
  · refine htd.nblist rfl rfl (fun tn htn => ?_)
    rcases mem_cons.mp htn with rfl | htn
    · exact @NbOk.clear _ (TORANeighbor.init nb now) _ _
    · exact htd.nbs tn htn

theorem DestOk.updateHeightNb (htd : DestOk ip td) (hsrc : tn.index ≠ ip)
    (hh : h.isNull ∨ h.id = tn.index) : DestOk ip (td.updateHeightNb tn h) := by
  refine htd.nblist rfl rfl (fun x hx => ?_)
  obtain ⟨y, hy, rfl⟩ := mem_map.mp hx
  split
  · exact NbOk.updateLinkStatus (.inr hh) (fun hself => absurd hself hsrc) htd.signed
  · exact htd.nbs y hy

theorem DestOk.noHeight (htd : DestOk ip td) : DestOk ip { td with height := td.height.null } :=
  ⟨htd.other, .inl (isNull_null _), fun tn htn =>
    ⟨(htd.nbs tn htn).signed, (htd.nbs tn htn).self, fun _ => .inr (.inl (isNull_null _))⟩⟩

theorem DestOk.erase (htd : DestOk ip td) : DestOk ip td.erase := by
  refine ⟨htd.other, .inl (isNull_null _), fun x hx => ?_⟩
  obtain ⟨tn, htn, rfl⟩ := mem_map.mp hx
  split
  · rename_i heq
    exact ⟨.inl heq, fun hself => absurd (heq.symm.trans hself) htd.other, fun _ => .inl heq⟩
  · exact NbOk.clear

/-! ## The invariant of a change -/

/-- A node signs the heights that it sends. -/
def MsgOk (ip : ℤ) : Msg → Prop
  | .qry _ => True
  | .upd _ h => h.isNull ∨ h.id = ip
  | .clr _ _ _ => True

/-- A reference level that the node created. -/
def LevelOk (ip : ℤ) (h : Height) : Prop := h.oid = ip ∧ h.r = 0 ∧ h.delta = 0 ∧ h.id = ip

structure OutcomeOk (ip : ℤ) (o : Outcome) : Prop where
  dest : DestOk ip o.td
  sent : ∀ m ∈ o.sent, MsgOk ip m
  levels : ∀ h ∈ o.levels, LevelOk ip h

theorem OutcomeOk.quiet (htd : DestOk ip td) : OutcomeOk ip ⟨td, [], []⟩ :=
  ⟨htd, fun _ hm => absurd hm not_mem_nil, fun _ hh => absurd hh not_mem_nil⟩

theorem OutcomeOk.tell {levels : List Height} (htd : DestOk ip td)
    (hlevels : ∀ h ∈ levels, LevelOk ip h) :
    OutcomeOk ip ⟨td, [.upd td.index td.height], levels⟩ := by
  refine ⟨htd, fun m hm => ?_, hlevels⟩
  rw [mem_singleton.mp hm]
  exact htd.signed

theorem OutcomeOk.adopt (htd : DestOk ip td) (hh : h.isNull ∨ h.id = ip) :
    OutcomeOk ip (td.adopt now h) := by
  have htd' := htd.updateHeight hh
  exact OutcomeOk.tell ⟨htd'.other, htd'.signed, htd'.nbs⟩ (fun h hh => absurd hh not_mem_nil)

theorem OutcomeOk.giveUp (htd : DestOk ip td) : OutcomeOk ip (td.giveUp now) := by
  have htd' := htd.noHeight
  exact OutcomeOk.tell ⟨htd'.other, htd'.signed, htd'.nbs⟩ (fun h hh => absurd hh not_mem_nil)

theorem OutcomeOk.restart (htd : DestOk ip td) : OutcomeOk ip (td.restart now ip) := by
  have htd' := htd.updateHeight (h := ⟨now, ip, 0, 0, ip⟩) (.inr rfl)
  refine OutcomeOk.tell ⟨htd'.other, htd'.signed, htd'.nbs⟩ (fun h hh => ?_)
  rw [mem_singleton.mp hh]
  exact ⟨rfl, rfl, rfl, rfl⟩

/-! ## The messages -/

theorem OutcomeOk.recvQRY (htd : DestOk ip td) : OutcomeOk ip (td.recvQRY now ip src) := by
  unfold TORADest.recvQRY
  split
  · exact OutcomeOk.quiet htd
  split
  · split
    · split
      · exact OutcomeOk.tell ⟨htd.other, htd.signed, htd.nbs⟩
          (fun h hh => absurd hh not_mem_nil)
      · exact OutcomeOk.quiet htd
    · exact OutcomeOk.quiet htd
  · split
    · exact OutcomeOk.adopt htd (.inr rfl)
    · refine ⟨⟨htd.other, htd.signed, htd.nbs⟩, fun m hm => ?_, fun h hh => absurd hh not_mem_nil⟩
      split at hm
      · rw [mem_singleton.mp hm]
        trivial
      · exact absurd hm not_mem_nil

theorem OutcomeOk.react {o : Outcome} (htd : DestOk ip td) (ho : td.react now ip = some o) :
    OutcomeOk ip o := by
  unfold TORADest.react at ho
  split at ho
  · cases ho
    split
    · exact OutcomeOk.quiet htd
    · exact OutcomeOk.giveUp htd
  split at ho
  · split at ho
    · cases ho
      exact OutcomeOk.adopt htd (.inr rfl)
    split at ho
    · cases ho
      refine ⟨htd.erase, fun m hm => ?_, fun h hh => absurd hh not_mem_nil⟩
      rw [mem_singleton.mp hm]
      trivial
    · cases ho
      exact OutcomeOk.restart htd
  · obtain ⟨n, -, ho⟩ := Option.bind_eq_some_iff.mp ho
    obtain ⟨m, -, rfl⟩ := Option.map_eq_some_iff.mp ho
    exact OutcomeOk.adopt htd (.inr rfl)

theorem nbFind_index (htn : td.nbFind src = some tn) : tn.index = src := by
  have hdec := find?_some htn
  exact of_decide_eq_true hdec

theorem OutcomeOk.recvUPD {o : Outcome} (htd : DestOk ip td) (hsrc : src ≠ ip)
    (hh : h.isNull ∨ h.id = src) (ho : td.recvUPD now ip src h = some o) : OutcomeOk ip o := by
  unfold TORADest.recvUPD at ho
  split at ho
  · cases ho
    exact OutcomeOk.quiet htd
  rename_i tn htn
  have hindex := nbFind_index htn
  have htd' : DestOk ip (td.updateHeightNb tn h) :=
    htd.updateHeightNb (hindex.symm ▸ hsrc) (hindex.symm ▸ hh)
  dsimp only at ho
  split at ho
  · cases ho
    exact OutcomeOk.adopt ⟨htd'.other, htd'.signed, htd'.nbs⟩ (.inr rfl)
  split at ho
  · exact OutcomeOk.react htd' ho
  · cases ho
    exact OutcomeOk.quiet htd'

theorem OutcomeOk.recvCLR {tau : ℚ} {oid : ℤ} (htd : DestOk ip td) :
    OutcomeOk ip (td.recvCLR now ip src tau oid) := by
  unfold TORADest.recvCLR
  split
  · refine ⟨htd.erase, fun m hm => ?_, fun h hh => absurd hh not_mem_nil⟩
    split at hm
    · rw [mem_singleton.mp hm]
      trivial
    · exact absurd hm not_mem_nil
  split
  · exact OutcomeOk.quiet htd
  rename_i tn htn
  generalize htd' : ({ td with
    nblist := td.nblist.map (fun x =>
      if x.index = tn.index ∨ x.height.tau = tau ∧ x.height.oid = oid ∧ x.height.r = 1 then x.clear
      else x) } : TORADest) = td'
  have hok : DestOk ip td' := by
    rw [← htd']
    refine htd.nblist rfl rfl (fun x hx => ?_)
    obtain ⟨y, hy, rfl⟩ := mem_map.mp hx
    split
    · exact NbOk.clear
    · exact htd.nbs y hy
  dsimp only
  split
  · split
    · split
      · exact OutcomeOk.quiet hok
      · exact OutcomeOk.giveUp hok
    · exact OutcomeOk.restart hok
  · exact OutcomeOk.quiet hok

theorem OutcomeOk.resolve (htd : DestOk ip td) :
    OutcomeOk ip ⟨{ td with rtReq := true }, [.qry td.index], []⟩ := by
  refine ⟨⟨htd.other, htd.signed, htd.nbs⟩, fun m hm => ?_, fun h hh => absurd hh not_mem_nil⟩
  rw [mem_singleton.mp hm]
  trivial

/-! ## The links -/

/-- Without the link to a neighbour there is an upstream link but no downstream link. -/
def TORADest.losesLastDown (td : TORADest) (nb : ℤ) : Bool :=
  match td.nbFind nb with
  | none => false
  | some tn => recount td.numDown .dn tn.lnkStat .un = 0 ∧ 0 < recount td.numUp .up tn.lnkStat .un

theorem OutcomeOk.linkUp (htd : DestOk ip td) (nb : ℤ) :
    OutcomeOk ip (Agent.linkUp now nb td) := by
  have htd' : DestOk ip (if td.nbFind nb = none then td.nbAdd now nb else td) := by
    split
    · exact htd.nbAdd nb
    · exact htd
  refine ⟨htd', fun m hm => ?_, fun h hh => absurd hh not_mem_nil⟩
  unfold Agent.linkUp at hm
  dsimp only at hm
  split at hm
  all_goals
    split at hm
    · rw [mem_singleton.mp hm]
      trivial
    · exact absurd hm not_mem_nil

/-- A node that keeps a downstream link, or has no upstream link either, creates no reference level. -/
theorem OutcomeOk.linkDn {nb : ℤ} (htd : DestOk ip td) (hlast : td.losesLastDown nb = false) :
    OutcomeOk ip (Agent.linkDn now nb td) := by
  unfold Agent.linkDn TORADest.nbDel
  unfold TORADest.losesLastDown at hlast
  split
  · exact OutcomeOk.quiet htd
  rename_i tn htn
  rw [htn] at hlast
  have hcreate := of_decide_eq_false hlast
  have hok : DestOk ip { td with
      nblist := td.nblist.eraseP (·.index = nb)
      numActive := td.numActive - 1
      numDown := recount td.numDown .dn tn.lnkStat .un
      numUp := recount td.numUp .up tn.lnkStat .un } :=
    htd.nblist rfl rfl (fun x hx => htd.nbs x (mem_of_mem_eraseP hx))
  by_cases hdown : recount td.numDown .dn tn.lnkStat .un = 0
  · rw [if_pos hdown, if_neg (fun hup => hcreate ⟨hdown, hup⟩)]
    exact OutcomeOk.tell (hok.updateHeight (.inl rfl)) (fun h hh => absurd hh not_mem_nil)
  · rw [if_neg hdown]
    exact OutcomeOk.quiet hok

/-! ## The invariant of a network -/

structure AgentOk (n : Agent) : Prop where
  dests : ∀ td ∈ n.dstlist, DestOk n.ipaddr td
  sent : ∀ m ∈ n.sent, MsgOk n.ipaddr m
  levels : ∀ h ∈ n.levels, LevelOk n.ipaddr h

theorem AgentOk.init (id : ℤ) : AgentOk (Agent.init id) :=
  ⟨fun _ h => absurd h not_mem_nil, fun _ h => absurd h not_mem_nil,
    fun _ h => absurd h not_mem_nil⟩

theorem AgentOk.apply {n : Agent} {o : Outcome} (hn : AgentOk n) (ho : OutcomeOk n.ipaddr o) :
    AgentOk (n.apply o) := by
  refine ⟨fun x hx => ?_, fun m hm => ?_, fun h hh => ?_⟩
  · obtain ⟨td, htd, rfl⟩ := mem_map.mp hx
    split
    · exact ho.dest
    · exact hn.dests td htd
  · exact (mem_append.mp hm).elim (hn.sent m) (ho.sent m)
  · exact (mem_append.mp hh).elim (hn.levels h) (ho.levels h)

theorem AgentOk.applyAll {n : Agent} {f : TORADest → Outcome} (hn : AgentOk n)
    (hf : ∀ td ∈ n.dstlist, OutcomeOk n.ipaddr (f td)) : AgentOk (n.applyAll f) := by
  refine ⟨fun x hx => ?_, fun m hm => ?_, fun h hh => ?_⟩
  · obtain ⟨td, htd, rfl⟩ := mem_map.mp hx
    exact (hf td htd).dest
  · rcases mem_append.mp hm with hm | hm
    · exact hn.sent m hm
    · obtain ⟨td, htd, hm⟩ := mem_flatMap.mp hm
      exact (hf td htd).sent m hm
  · rcases mem_append.mp hh with hh | hh
    · exact hn.levels h hh
    · obtain ⟨td, htd, hh⟩ := mem_flatMap.mp hh
      exact (hf td htd).levels h hh

theorem AgentOk.dstEnsure {n : Agent} {biLinks : List ℤ} (hn : AgentOk n) (hd : d ≠ n.ipaddr) :
    AgentOk (n.dstEnsure now biLinks d) ∧ (n.dstEnsure now biLinks d).ipaddr = n.ipaddr := by
  unfold Agent.dstEnsure
  split
  · exact ⟨hn, rfl⟩
  · refine ⟨⟨fun td htd => ?_, hn.sent, hn.levels⟩, rfl⟩
    rcases mem_cons.mp htd with rfl | htd
    · -- the neighbours are added one by one
      have hnew : ∀ (nbs : List ℤ) (td : TORADest), DestOk n.ipaddr td →
          DestOk n.ipaddr (nbs.foldl (fun td nb => td.nbAdd now nb) td) := by
        intro nbs
        induction nbs with
        | nil => exact fun td htd => htd
        | cons nb nbs ih => exact fun td htd => ih _ (htd.nbAdd nb)
      exact hnew biLinks _ (DestOk.init hd)
    · exact hn.dests td htd

theorem dstFind_mem {n : Agent} (htd : n.dstFind d = some td) : td ∈ n.dstlist ∧ td.index = d := by
  have hdec := find?_some htd
  exact ⟨mem_of_find?_eq_some htd, of_decide_eq_true hdec⟩

theorem AgentOk.recvTORA {n n' : Agent} {biLinks : List ℤ} {m : Msg} (hn : AgentOk n)
    (hsrc : src ≠ n.ipaddr) (hm : MsgOk src m) (h : n.recvTORA now biLinks src m = some n') :
    AgentOk n' ∧ n'.ipaddr = n.ipaddr := by
  cases m with
  | qry d =>
    unfold Agent.recvTORA at h
    dsimp only at h
    split at h
    · cases h
      exact ⟨hn, rfl⟩
    rename_i hd
    obtain ⟨hok, hip⟩ := @NetSim.Tora.AgentOk.dstEnsure _ now _ biLinks hn hd
    obtain ⟨td, htd, rfl⟩ := Option.map_eq_some_iff.mp h
    exact ⟨hok.apply (OutcomeOk.recvQRY (hok.dests td (dstFind_mem htd).1)), hip⟩
  | upd d height =>
    unfold Agent.recvTORA at h
    dsimp only at h
    split at h
    · cases h
      exact ⟨hn, rfl⟩
    rename_i hd
    obtain ⟨hok, hip⟩ := @NetSim.Tora.AgentOk.dstEnsure _ now _ biLinks hn hd
    obtain ⟨o, ho, rfl⟩ := Option.map_eq_some_iff.mp h
    obtain ⟨td, htd, ho⟩ := Option.bind_eq_some_iff.mp ho
    exact ⟨hok.apply (OutcomeOk.recvUPD (hok.dests td (dstFind_mem htd).1) (hip ▸ hsrc) hm ho), hip⟩
  | clr d tau oid =>
    unfold Agent.recvTORA at h
    dsimp only at h
    split at h
    · cases h
      exact ⟨hn, rfl⟩
    rename_i hd
    obtain ⟨hok, hip⟩ := @NetSim.Tora.AgentOk.dstEnsure _ now _ biLinks hn hd
    obtain ⟨td, htd, rfl⟩ := Option.map_eq_some_iff.mp h
    exact ⟨hok.apply (OutcomeOk.recvCLR (hok.dests td (dstFind_mem htd).1)), hip⟩

theorem AgentOk.rtResolve {n n' : Agent} {biLinks : List ℤ} (hn : AgentOk n) (hd : d ≠ n.ipaddr)
    (h : n.rtResolve now biLinks d = some n') : AgentOk n' ∧ n'.ipaddr = n.ipaddr := by
  obtain ⟨hok, hip⟩ := @NetSim.Tora.AgentOk.dstEnsure _ now _ biLinks hn hd
  obtain ⟨td, htd, rfl⟩ := Option.map_eq_some_iff.mp h
  split
  · exact ⟨hok, hip⟩
  split
  · exact ⟨hok, hip⟩
  · exact ⟨hok.apply (OutcomeOk.resolve (hok.dests td (dstFind_mem htd).1)), hip⟩

/-- No event is the loss of a last downstream link where an upstream link is left. -/
def Careful (n : Agent) : Event → Prop
  | .recv _ _ => True
  | .data _ => True
  | .linkUp _ => True
  | .linkDn nb => ∀ td ∈ n.dstlist, td.losesLastDown nb = false

def NetOk (s : ℤ → Agent) : Prop := ∀ a, AgentOk (s a) ∧ (s a).ipaddr = a

/-- The step lemma: what a node records, sends and creates stays sound. -/
theorem NetOk.step {s : ℤ → Agent} {a : ℤ} {biLinks : List ℤ} {e : Event} {n' : Agent}
    (hs : NetOk s) (he : Enabled s a e) (hok : Careful (s a) e)
    (h : (s a).step now biLinks e = some n') : AgentOk n' ∧ n'.ipaddr = a := by
  obtain ⟨hn, hip⟩ := hs a
  cases e with
  | recv src m =>
    obtain ⟨hsrc, hm⟩ := he
    have hmsg : MsgOk src m := (hs src).2 ▸ (hs src).1.sent m hm
    obtain ⟨hn', hip'⟩ := hn.recvTORA (hip.symm ▸ hsrc) hmsg h
    exact ⟨hn', hip'.trans hip⟩
  | data d =>
    obtain ⟨hn', hip'⟩ := hn.rtResolve (hip.symm ▸ he) h
    exact ⟨hn', hip'.trans hip⟩
  | linkUp nb =>
    cases h
    exact ⟨hn.applyAll (fun td htd => OutcomeOk.linkUp (hn.dests td htd) nb), hip⟩
  | linkDn nb =>
    cases h
    exact ⟨hn.applyAll (fun td htd => OutcomeOk.linkDn (hn.dests td htd) (hok td htd)), hip⟩

/-- By induction on the run. -/
theorem Reachable.netOk {s : ℤ → Agent} (h : Reachable Careful s) : NetOk s := by
  induction h with
  | init => exact fun a => ⟨AgentOk.init a, rfl⟩
  | @step s a now biLinks e n' _ he hok hstep ih =>
    intro b
    by_cases hb : b = a
    · subst hb
      rw [Function.update_self]
      exact ih.step he hok hstep
    · rw [Function.update_of_ne hb]
      exact ih b

/-! ## The graph of next hops -/

/-- The height of a node for a destination: `ZERO` at the destination, and `NULL` where there is no
record. -/
def heightOf (s : ℤ → Agent) (d a : ℤ) : Height :=
  if a = d then (Height.init d).zero
  else
    match (s a).dstFind d with
    | some td => td.height
    | none => Height.init d

def Consistent (s : ℤ → Agent) (d : ℤ) : Prop :=
  ∀ a td, (s a).dstFind d = some td → ∀ tn ∈ td.nblist,
    tn.height = heightOf s d tn.index ∨ tn.height.isNull ∧ (heightOf s d tn.index).isNull

def NextHop (s : ℤ → Agent) (d a b : ℤ) : Prop :=
  ∃ td tn, (s a).dstFind d = some td ∧ td.nbFindNextHop = some tn ∧ tn.index = b

theorem lowest_mem {l : List TORANeighbor} (h : TORADest.lowest l = some tn) : tn ∈ l := by
  have hfold : ∀ (l : List TORANeighbor) (start : Option TORANeighbor) (tn : TORANeighbor),
      l.foldl (fun tnMin tn =>
        match tnMin with
        | none => some tn
        | some m => if m.height.compare tn.height < 0 then some tn else some m) start = some tn →
      tn ∈ l ∨ start = some tn := by
    intro l
    induction l with
    | nil => exact fun start tn h => .inr h
    | cons x l ih =>
      intro start tn h
      rcases ih _ _ h with hmem | hstart
      · exact .inl (mem_cons_of_mem x hmem)
      cases start with
      | none =>
        cases hstart
        exact .inl mem_cons_self
      | some m =>
        dsimp only at hstart
        split at hstart
        · cases hstart
          exact .inl mem_cons_self
        · exact .inr hstart
  exact (hfold l none tn h).resolve_right (by simp)

/-- Heights upside down, with `NULL` below all of them. -/
def upside (h : Height) : (WithTop (ℚ ×ₗ ℤ ×ₗ ℤ ×ₗ ℤ ×ₗ ℤ))ᵒᵈ :=
  OrderDual.toDual (if h.isNull then ⊤ else (h.key : WithTop _))

theorem upside_lt (hnull : ¬ h.isNull) (hlt : h'.isNull ∨ h.key < h'.key) :
    upside h' < upside h := by
  unfold upside
  rw [OrderDual.toDual_lt_toDual, if_neg hnull]
  by_cases hnull' : h'.isNull
  · rw [if_pos hnull']
    exact WithTop.coe_lt_top _
  · rw [if_neg hnull']
    exact WithTop.coe_lt_coe.mpr (hlt.resolve_left hnull')

theorem NextHop.down {s : ℤ → Agent} {a b : ℤ} (hs : NetOk s) (hcons : Consistent s d)
    (h : NextHop s d a b) : b = d ∨ upside (heightOf s d a) < upside (heightOf s d b) := by
  obtain ⟨td, tn, htd, htn, rfl⟩ := h
  obtain ⟨hmem, hindex⟩ := dstFind_mem htd
  obtain ⟨hn, hip⟩ := hs a
  have hdest := hn.dests td hmem
  obtain ⟨htn, hdn⟩ := mem_filter.mp (lowest_mem htn)
  obtain ⟨hnull, hstat⟩ := of_decide_eq_true hdn
  have hnb := hdest.nbs tn htn
  by_cases hd : tn.index = d
  · exact .inl hd
  have hown : heightOf s d a = td.height := by
    unfold heightOf
    rw [if_neg (fun had => hdest.other (hindex.trans (had.symm.trans hip.symm))), htd]
  have hheight : tn.height = heightOf s d tn.index :=
    (hcons a td htd tn htn).resolve_right (fun hboth => hnull hboth.1)
  rw [hown, ← hheight]
  exact .inr (upside_lt hnull ((hnb.down hstat).resolve_left (hindex ▸ hd)))

theorem NextHop.not_sink {s : ℤ → Agent} (hs : NetOk s) (b : ℤ) : ¬ NextHop s d d b := by
  rintro ⟨td, -, htd, -⟩
  obtain ⟨hmem, hindex⟩ := dstFind_mem htd
  obtain ⟨hn, hip⟩ := hs d
  exact (hn.dests td hmem).other (hindex.trans hip.symm)

/-- **TORA heights form a DAG** as long as no link goes down that is the last downstream link of a node
with upstream links. -/
theorem tora_dag {s : ℤ → Agent} (h : Reachable Careful s) :
    (∀ i, ∀ td ∈ (s i).dstlist, td.height.isNull ∨ td.height.id = i) ∧
    (∀ i, ∀ level ∈ (s i).levels, level.oid = i ∧ level.r = 0 ∧ level.delta = 0) ∧
    (∀ i j, i ≠ j → ∀ td ∈ (s i).dstlist, ∀ td' ∈ (s j).dstlist, td.index = td'.index →
      ¬ td.height.isNull → td.height ≠ td'.height) ∧
    ∀ d, Consistent s d → ∀ a, ¬ Relation.TransGen (NextHop s d) a a := by
  have hs := h.netOk
  have hsigned : ∀ i, ∀ td ∈ (s i).dstlist, td.height.isNull ∨ td.height.id = i := by
    intro i td htd
    obtain ⟨hn, hip⟩ := hs i
    have hsig := (hn.dests td htd).signed
    rwa [hip] at hsig
  refine ⟨hsigned, fun i level hlevel => ?_, fun i j hij td htd td' htd' _ hnull heq => ?_,
    fun d hcons a => ?_⟩
  · obtain ⟨hn, hip⟩ := hs i
    obtain ⟨hoid, hr, hdelta, -⟩ := hn.levels level hlevel
    exact ⟨hoid.trans hip, hr, hdelta⟩
  · have hi := (hsigned i td htd).resolve_left hnull
    have hj := (hsigned j td' htd').resolve_left (heq ▸ hnull)
    exact hij (hi.symm.trans (heq ▸ hj))
  · exact Acyclic.acyclic_of_rank (fun b => upside (heightOf s d b))
      (fun _ _ hstep => hstep.down hs hcons) (NextHop.not_sink hs) a

instance (n : Agent) (e : Event) : Decidable (Careful n e) := by
  unfold Careful
  cases e <;> infer_instance

/-- 1 and 3 have links to 9, and 2 asks for a route to 9 and gets one through them. -/
def search : List (ℤ × ℚ × List ℤ × Choice) :=
  [(2, 1, [1, 3], .data 9), (1, 2, [2, 9], .deliver 2 0), (3, 2, [2, 9], .deliver 2 0),
    (2, 3, [1, 3], .deliver 1 0), (1, 4, [2, 9], .deliver 2 1), (3, 4, [2, 9], .deliver 2 1)]

/-- 1 and 3 have equal heights, signed by 9, after both links to 9 went down. -/
def loss : List (ℤ × ℚ × List ℤ × Choice) := [(1, 5, [2], .linkDn 9), (3, 5, [2], .linkDn 9)]

theorem tora_dag_search :
    ∃ s, follow Careful (search ++ [(1, 5, [9], .linkDn 2)]) Agent.init = some s ∧
      (Consistent s 9 → ∀ a, ¬ Relation.TransGen (NextHop s 9) a a) ∧
      ∀ td ∈ (s 1).dstlist, td.height.isNull ∨ td.height.id = 1 := by
  obtain ⟨s, hs⟩ := Option.isSome_iff_exists.mp
    (show (follow Careful (search ++ [(1, 5, [9], .linkDn 2)]) Agent.init).isSome by decide +kernel)
  have hdag := tora_dag (Reachable.init.follow hs)
  exact ⟨s, hs, hdag.2.2.2 9, hdag.1 1⟩

/-- **The loss of a link** leaves two nodes with the same height, which neither of them recognises as its
own. -/
theorem link_down_signs_destination :
    ∃ s, Reachable (fun _ _ => True) s ∧
      (s 1).dstlist.map (fun td => (td.index, td.height)) = [(9, ⟨5, 9, 0, 0, 9⟩)] ∧
      (s 3).dstlist.map (fun td => (td.index, td.height)) = [(9, ⟨5, 9, 0, 0, 9⟩)] ∧
      (s 1).levels = [⟨5, 9, 0, 0, 9⟩] := by
  have hrun : ((follow (fun _ _ => True) (search ++ loss) Agent.init).map (fun s =>
      ((s 1).dstlist.map (fun td => (td.index, td.height)),
        (s 3).dstlist.map (fun td => (td.index, td.height)), (s 1).levels))) =
      some ([(9, ⟨5, 9, 0, 0, 9⟩)], [(9, ⟨5, 9, 0, 0, 9⟩)], [⟨5, 9, 0, 0, 9⟩]) := by
    decide +kernel
  obtain ⟨s, hs, hheights⟩ := Option.map_eq_some_iff.mp hrun
  have h₁ := congrArg (·.1) hheights
  have h₃ := congrArg (·.2.1) hheights
  have hlevels := congrArg (·.2.2) hheights
  exact ⟨s, Reachable.init.follow hs, h₁, h₃, hlevels⟩

end NetSim.Tora
