import Mathlib
import NetSim.Lib.Runs
import NetSim.Tora.Dest

/-! # The counters of links

A destination counts its neighbours, and those whose links are downstream and upstream (`num_active`,
`num_down` and `num_up` in `tora/tora_dest.cc`). Some of the functions that change links change the counters,
or count again; `erase` and `recvCLR` do not always.
-/

namespace NetSim.Tora.TORADest

open List

def count (st : LinkStatus) (l : List TORANeighbor) : ℕ := l.countP (·.lnkStat = st)

structure Exact (td : TORADest) : Prop where
  active : td.numActive = td.nblist.length
  down : td.numDown = count .dn td.nblist
  up : td.numUp = count .up td.nblist

/-- `nb_del` starts route maintenance exactly when it leaves no downstream link, also where there was none
before. -/
def Maintained (td : TORADest) : Prop :=
  ∀ now id, (td.nbDel now id).2.1 = true ↔
    td.nbFind id ≠ none ∧ ∀ tn ∈ td.nblist.eraseP (·.index = id), tn.lnkStat ≠ .dn

inductive Change
  | nbAdd (id : ℤ)
  | nbDel (id : ℤ)
  | recvQRY (src : ℤ)
  | recvUPD (src : ℤ) (h : Height)
  | recvCLR (src : ℤ) (tau : ℚ) (oid : ℤ)

/-- The agent with the address `ipaddr` adds only neighbours that are not there. -/
def step (ipaddr : ℤ) (td : TORADest) (e : ℚ × Change) : Option (TORADest × Unit) :=
  Option.map (fun td' => (td', ())) (match e.2 with
  | .nbAdd id => some (if td.nbFind id = none then td.nbAdd e.1 id else td)
  | .nbDel id => some (td.nbDel e.1 id).1
  | .recvQRY src => some (td.recvQRY e.1 ipaddr src).td
  | .recvUPD src h => (td.recvUPD e.1 ipaddr src h).map Outcome.td
  | .recvCLR src tau oid => some (td.recvCLR e.1 ipaddr src tau oid).td)

def indices (td : TORADest) : List ℤ := td.nblist.map (·.index)

def Erases (ipaddr : ℤ) (td : TORADest) : Prop :=
  td.numUp ≠ 0 ∧ td.nbCheckSameRef ∧ td.nbFindMinHeight 0 = none ∧ td.height.oid = ipaddr

/-- Heights are erased only where the destination is no neighbour, and the links that `recvCLR` clears
otherwise are undirected, or are counted again. -/
def Regular (ipaddr : ℤ) (td : TORADest) (e : ℚ × Change) : Prop :=
  match e.2 with
  | .recvUPD src h =>
    ∀ tn ∈ td.nbFind src, ¬ (td.rtReq ∧ h.r = 0) → (td.updateHeightNb tn h).numDown = 0 →
      Erases ipaddr (td.updateHeightNb tn h) → td.index ∉ td.indices
  | .recvCLR src tau oid =>
    if td.height.tau = tau ∧ td.height.oid = oid ∧ td.height.r = 1 then td.index ∉ td.indices
    else ∀ tn ∈ td.nbFind src, td.numDown = 0 ∧ td.numUp ≠ 0 ∨
      ∀ x ∈ td.nblist, x.index = tn.index ∨ x.height.tau = tau ∧ x.height.oid = oid ∧ x.height.r = 1 →
        x.lnkStat = .un
  | _ => True

instance (ipaddr : ℤ) (td : TORADest) : Decidable (Erases ipaddr td) := inferInstanceAs (Decidable (_ ∧ _ ∧ _ ∧ _))

instance (ipaddr : ℤ) (td : TORADest) : (e : ℚ × Change) → Decidable (Regular ipaddr td e)
  | (_, .recvUPD src h) =>
    inferInstanceAs (Decidable (∀ tn ∈ td.nbFind src, ¬ (td.rtReq ∧ h.r = 0) →
      (td.updateHeightNb tn h).numDown = 0 → Erases ipaddr (td.updateHeightNb tn h) → td.index ∉ td.indices))
  | (_, .recvCLR src tau oid) =>
    inferInstanceAs (Decidable (if td.height.tau = tau ∧ td.height.oid = oid ∧ td.height.r = 1 then _ else
      ∀ tn ∈ td.nbFind src, td.numDown = 0 ∧ td.numUp ≠ 0 ∨
        ∀ x ∈ td.nblist, x.index = tn.index ∨ x.height.tau = tau ∧ x.height.oid = oid ∧ x.height.r = 1 →
          x.lnkStat = .un))
  | (_, .nbAdd _) | (_, .nbDel _) | (_, .recvQRY _) => isTrue trivial

/-! ## Counting -/

variable {td td' : TORADest} {l : List TORANeighbor} {tn tn' : TORANeighbor} {st : LinkStatus}
  {ipaddr id src : ℤ} {now : ℚ} {h : Height}

theorem count_write (htn : tn ∈ l) (hnd : (l.map (·.index)).Nodup) (tn' : TORANeighbor) (st : LinkStatus) :
    (count st (l.map (fun x => if x.index = tn.index then tn' else x)) : ℤ) =
      recount (count st l) st tn.lnkStat tn'.lnkStat := by
  obtain ⟨a, b, rfl⟩ := append_of_mem htn
  rw [map_append, map_cons, List.nodup_middle, nodup_cons, ← map_append] at hnd
  have hkeep : ∀ m : List TORANeighbor, (∀ x ∈ m, x ∈ a ++ b) →
      m.map (fun x => if x.index = tn.index then tn' else x) = m := by
    intro m hm
    refine (map_congr_left (fun x hx => if_neg (fun he => hnd.1 ?_))).trans (map_id m)
    exact he ▸ mem_map_of_mem (hm x hx)
  rw [map_append, map_cons, hkeep a (fun _ => mem_append_left b),
    hkeep b (fun _ => mem_append_right a), if_pos rfl]
  simp only [count, recount, countP_append, countP_cons, decide_eq_true_eq]
  split_ifs <;> push_cast <;> omega

theorem count_erase (htn : l.find? (·.index = id) = some tn) (hst : st ≠ .un) :
    (count st (l.eraseP (·.index = id)) : ℤ) = recount (count st l) st tn.lnkStat .un := by
  obtain ⟨hid, a, b, rfl, ha⟩ := find?_eq_some_iff_append.mp htn
  have herase : (tn :: b).eraseP (·.index = id) = b := eraseP_cons_of_pos hid
  rw [List.eraseP_append_right _ (by simpa using ha), herase]
  simp only [count, recount, countP_append, countP_cons, decide_eq_true_eq, if_neg hst.symm]
  split_ifs <;> push_cast <;> omega

/-! ## The functions of a destination -/

theorem Exact.updateHeight (td : TORADest) (h : Height) : (td.updateHeight h).Exact := ⟨rfl, rfl, rfl⟩

theorem index_updateLinkStatus (tn : TORANeighbor) (h : Height) : (tn.updateLinkStatus h).index = tn.index := by
  unfold TORANeighbor.updateLinkStatus
  split_ifs <;> rfl

theorem indices_updateHeight (td : TORADest) (h : Height) : (td.updateHeight h).indices = td.indices := by
  simp [indices, TORADest.updateHeight, index_updateLinkStatus]

theorem Exact.nbAdd (htd : td.Exact) (now : ℚ) (id : ℤ) : (td.nbAdd now id).Exact := by
  obtain ⟨ha, hd, hu⟩ := htd
  unfold TORADest.nbAdd
  dsimp only
  split_ifs
  · exact ⟨by simp [ha], by simp [hd, count], by simp [hu, count]⟩
  · exact ⟨by simp [ha], by simp [hd, count, TORANeighbor.init], by simp [hu, count, TORANeighbor.init]⟩

theorem indices_nbAdd (td : TORADest) (now : ℚ) (id : ℤ) : (td.nbAdd now id).indices = id :: td.indices := by
  unfold TORADest.nbAdd
  dsimp only
  split_ifs <;> rfl

/-- The destination without the neighbour, as `nb_del` has it first. -/
def without (td : TORADest) (tn : TORANeighbor) (id : ℤ) : TORADest :=
  { td with
    nblist := td.nblist.eraseP (·.index = id)
    numActive := td.numActive - 1
    numDown := recount td.numDown .dn tn.lnkStat .un
    numUp := recount td.numUp .up tn.lnkStat .un }

theorem Exact.without (htd : td.Exact) (htn : td.nbFind id = some tn) : (td.without tn id).Exact := by
  refine ⟨?_, ?_, ?_⟩
  · have hmem := mem_of_find?_eq_some htn
    have hlen := length_eraseP_of_mem hmem (find?_some htn)
    have hpos := length_pos_of_mem hmem
    have hactive := htd.active
    simp only [TORADest.without, hlen]
    omega
  · exact (congrArg (recount · .dn _ _) htd.down).trans (count_erase htn (by decide)).symm
  · exact (congrArg (recount · .up _ _) htd.up).trans (count_erase htn (by decide)).symm

/-- **`nb_del`** keeps the counters, and starts route maintenance when no link is downstream. -/
theorem nbDel_spec (htd : td.Exact) (now : ℚ) (id : ℤ) :
    (td.nbDel now id).1.Exact ∧ ((td.nbDel now id).1.indices).Sublist td.indices ∧
      ((td.nbDel now id).2.1 = true ↔
        td.nbFind id ≠ none ∧ ∀ tn ∈ td.nblist.eraseP (·.index = id), tn.lnkStat ≠ .dn) := by
  unfold nbDel
  cases hf : td.nbFind id with
  | none => exact ⟨htd, .refl _, by simp⟩
  | some tn =>
    have hexact := htd.without hf
    have hsub : (td.without tn id).indices.Sublist td.indices := eraseP_sublist.map _
    have hfresh : ∀ h, ((td.without tn id).updateHeight h).indices.Sublist td.indices := by
      intro h
      rw [indices_updateHeight]
      exact hsub
    have hzero : (td.without tn id).numDown = 0 ↔
        ∀ tn ∈ td.nblist.eraseP (·.index = id), tn.lnkStat ≠ .dn := by
      rw [hexact.down, Nat.cast_eq_zero, count, countP_eq_zero]
      simp [TORADest.without]
    dsimp only
    split_ifs with hdown hup
    · exact ⟨.updateHeight _ _, hfresh _, by simpa using hzero.mp hdown⟩
    · exact ⟨.updateHeight _ _, hfresh _, by simpa using hzero.mp hdown⟩
    · exact ⟨hexact, hsub, by simp, fun hall => absurd (hzero.mpr hall.2) hdown⟩

theorem Exact.maintained (htd : td.Exact) : td.Maintained := fun now id => (nbDel_spec htd now id).2.2

theorem recvQRY_spec (htd : td.Exact) (now : ℚ) (ipaddr src : ℤ) :
    (td.recvQRY now ipaddr src).td.Exact ∧ (td.recvQRY now ipaddr src).td.indices = td.indices := by
  have hkeep : ∀ t b, ({ td with timeUpd := t, rtReq := b } : TORADest).Exact :=
    fun _ _ => ⟨htd.active, htd.down, htd.up⟩
  unfold TORADest.recvQRY
  repeat' split
  · exact ⟨htd, rfl⟩
  · exact ⟨hkeep _ _, rfl⟩
  · exact ⟨htd, rfl⟩
  · exact ⟨htd, rfl⟩
  · exact ⟨⟨rfl, rfl, rfl⟩, indices_updateHeight td _⟩
  all_goals exact ⟨hkeep _ _, rfl⟩

theorem Exact.updateHeightNb (htd : td.Exact) (hnd : td.indices.Nodup) (htn : td.nbFind src = some tn)
    (h : Height) : (td.updateHeightNb tn h).Exact := by
  have hmem : tn ∈ td.nblist := mem_of_find?_eq_some htn
  refine ⟨by simp [TORADest.updateHeightNb, htd.active], ?_, ?_⟩
  · exact (congrArg (recount · .dn _ _) htd.down).trans (count_write hmem hnd _ .dn).symm
  · exact (congrArg (recount · .up _ _) htd.up).trans (count_write hmem hnd _ .up).symm

/-- The link to the destination is downstream behind `erase`, and is not counted. -/
theorem Exact.erase (htd : td.Exact) (hno : td.index ∉ td.indices) : td.erase.Exact := by
  have hnone : ∀ st, st ≠ .un → count st td.erase.nblist = 0 := by
    intro st hst
    simp only [count, TORADest.erase, List.countP_map, countP_eq_zero]
    intro tn htn
    have hindex : tn.index ≠ td.index := fun he => hno (he ▸ mem_map_of_mem htn)
    simp [hindex, TORANeighbor.clear, hst.symm]
  exact ⟨by simp [TORADest.erase, htd.active], by rw [hnone .dn (by decide)]; rfl,
    by rw [hnone .up (by decide)]; rfl⟩

theorem indices_erase (td : TORADest) : td.erase.indices = td.indices := by
  simp only [indices, TORADest.erase, map_map]
  refine map_congr_left (fun tn _ => ?_)
  by_cases hindex : tn.index = td.index <;> simp [hindex, TORANeighbor.clear]

/-- What the rules for a node without downstream links do. -/
theorem react_spec {o : Outcome} (htd : td.Exact) (ho : td.react now ipaddr = some o)
    (hno : Erases ipaddr td → td.index ∉ td.indices) : o.td.Exact ∧ o.td.indices = td.indices := by
  have hfresh : ∀ h t b, ({ td.updateHeight h with timeUpd := t, rtReq := b } : TORADest).Exact ∧
      (td.updateHeight h).indices = td.indices :=
    fun h _ _ => ⟨⟨rfl, rfl, rfl⟩, indices_updateHeight td h⟩
  unfold react at ho
  by_cases hup : td.numUp = 0
  · rw [if_pos hup] at ho
    split_ifs at ho <;> cases ho
    · exact ⟨htd, rfl⟩
    · exact ⟨⟨htd.active, htd.down, htd.up⟩, rfl⟩
  rw [if_neg hup] at ho
  by_cases hsame : td.nbCheckSameRef
  · rw [if_pos hsame] at ho
    cases hmin : td.nbFindMinHeight 0 with
    | none =>
      rw [hmin] at ho
      dsimp only at ho
      split_ifs at ho with hoid <;> cases ho
      · exact ⟨htd.erase (hno ⟨hup, hsame, hmin, hoid⟩), indices_erase td⟩
      · exact hfresh _ _ _
    | some tn =>
      rw [hmin] at ho
      cases ho
      exact hfresh _ _ _
  · rw [if_neg hsame] at ho
    obtain ⟨n, -, hm⟩ := Option.bind_eq_some_iff.mp ho
    obtain ⟨m, -, rfl⟩ := Option.map_eq_some_iff.mp hm
    exact hfresh _ _ _

theorem indices_updateHeightNb (td : TORADest) (tn : TORANeighbor) (h : Height) :
    (td.updateHeightNb tn h).indices = td.indices := by
  simp only [indices, TORADest.updateHeightNb, map_map]
  refine map_congr_left (fun x _ => ?_)
  by_cases hindex : x.index = tn.index <;> simp [hindex, index_updateLinkStatus]

/-- An UPD records the height of its sender, and the counters follow. -/
theorem recvUPD_spec {o : Outcome} (htd : td.Exact) (hnd : td.indices.Nodup)
    (ho : td.recvUPD now ipaddr src h = some o) (hregular : Regular ipaddr td (now, .recvUPD src h)) :
    o.td.Exact ∧ o.td.indices = td.indices := by
  unfold recvUPD at ho
  cases hf : td.nbFind src with
  | none =>
    rw [hf] at ho
    cases ho
    exact ⟨htd, rfl⟩
  | some tn =>
    rw [hf] at ho
    have hnb := htd.updateHeightNb hnd hf h
    have hindices := indices_updateHeightNb td tn h
    dsimp only at ho
    split_ifs at ho with hgoal hdown
    · cases ho
      exact ⟨⟨rfl, rfl, rfl⟩, (indices_updateHeight _ _).trans hindices⟩
    · obtain ⟨hexact, hind⟩ := react_spec hnb ho (by rw [hindices]; exact hregular tn hf hgoal hdown)
      exact ⟨hexact, hind.trans hindices⟩
    · cases ho
      exact ⟨hnb, hindices⟩

/-- Links are cleared, and the counters are left as they are. -/
def cleared (td : TORADest) (c : TORANeighbor → Prop) [DecidablePred c] : TORADest :=
  { td with nblist := td.nblist.map (fun x => if c x then x.clear else x) }

variable {c : TORANeighbor → Prop} [DecidablePred c]

theorem Exact.cleared (htd : td.Exact) (hall : ∀ x ∈ td.nblist, c x → x.lnkStat = .un) :
    (td.cleared c).Exact := by
  have hcount : ∀ st, count st (td.cleared c).nblist = count st td.nblist := by
    intro st
    simp only [count, TORADest.cleared, List.countP_map]
    refine List.countP_congr (fun x hx => ?_)
    by_cases hc : c x
    · simp [hc, hall x hx hc, TORANeighbor.clear]
    · simp [hc]
  exact ⟨by simp [TORADest.cleared, htd.active], by rw [hcount]; exact htd.down, by rw [hcount]; exact htd.up⟩

theorem indices_cleared (td : TORADest) : (td.cleared c).indices = td.indices := by
  simp only [indices, TORADest.cleared, map_map]
  refine map_congr_left (fun x _ => ?_)
  by_cases hc : c x <;> simp [hc, TORANeighbor.clear]

theorem recvCLR_spec {tau : ℚ} {oid : ℤ} (htd : td.Exact)
    (hregular : Regular ipaddr td (now, .recvCLR src tau oid)) :
    (td.recvCLR now ipaddr src tau oid).td.Exact ∧
      (td.recvCLR now ipaddr src tau oid).td.indices = td.indices := by
  unfold Regular at hregular
  dsimp only at hregular
  unfold recvCLR
  by_cases hown : td.height.tau = tau ∧ td.height.oid = oid ∧ td.height.r = 1
  · rw [if_pos hown] at hregular ⊢
    exact ⟨htd.erase hregular, indices_erase td⟩
  rw [if_neg hown] at hregular ⊢
  cases hf : td.nbFind src with
  | none => exact ⟨htd, rfl⟩
  | some tn =>
    have hindices := @indices_cleared (fun x => x.index = tn.index ∨ x.height.tau = tau ∧ x.height.oid = oid ∧
      x.height.r = 1) _ td
    have hcl := fun hno : ¬ (td.numDown = 0 ∧ td.numUp ≠ 0) =>
      htd.cleared ((hregular tn hf).resolve_left hno)
    dsimp only
    split_ifs with hdown hup hnull
    · exact ⟨hcl (fun h => h.2 hup), hindices⟩
    · have hexact := hcl (fun h => h.2 hup)
      exact ⟨⟨hexact.active, hexact.down, hexact.up⟩, hindices⟩
    · exact ⟨⟨rfl, rfl, rfl⟩, (indices_updateHeight _ _).trans hindices⟩
    · exact ⟨hcl (fun h => hdown h.1), hindices⟩

/-! ## Runs -/

/-- The step lemma: the counters stay the numbers of links they stand for. -/
theorem step_spec {e : ℚ × Change} (htd : td.Exact) (hnd : td.indices.Nodup) (hregular : Regular ipaddr td e)
    (hs : step ipaddr td e = some (td', ())) : td'.Exact ∧ td'.indices.Nodup := by
  obtain ⟨now, e⟩ := e
  obtain ⟨td'', hs, heq⟩ := Option.map_eq_some_iff.mp hs
  cases heq
  cases e with
  | nbAdd id =>
    cases hs
    dsimp only
    split_ifs with hnone
    · refine ⟨htd.nbAdd now id, ?_⟩
      rw [indices_nbAdd, nodup_cons]
      exact ⟨by simpa [nbFind, indices] using hnone, hnd⟩
    · exact ⟨htd, hnd⟩
  | nbDel id =>
    cases hs
    obtain ⟨hexact, hsub, -⟩ := nbDel_spec htd now id
    exact ⟨hexact, hnd.sublist hsub⟩
  | recvQRY src =>
    cases hs
    obtain ⟨hexact, hindices⟩ := recvQRY_spec htd now ipaddr src
    exact ⟨hexact, hindices ▸ hnd⟩
  | recvUPD src h =>
    obtain ⟨o, ho, rfl⟩ := Option.map_eq_some_iff.mp hs
    obtain ⟨hexact, hindices⟩ := recvUPD_spec htd hnd ho hregular
    exact ⟨hexact, hindices ▸ hnd⟩
  | recvCLR src tau oid =>
    cases hs
    obtain ⟨hexact, hindices⟩ := recvCLR_spec htd hregular
    exact ⟨hexact, hindices ▸ hnd⟩

/-- **The counters are exact**, and route maintenance starts when it should, in all states of the runs in
which heights are erased only where the destination is no neighbour, and the links that are cleared otherwise
were undirected, or are counted again. -/
theorem counters_exact (ipaddr id : ℤ) (es past : List (ℚ × Change)) (td : TORADest) (outs : List Unit)
    (hmeets : Runs.Meets (step ipaddr) (Regular ipaddr) (TORADest.init id) es) (hpast : past <+: es)
    (hrun : Runs.run (step ipaddr) (TORADest.init id) past = some (td, outs)) : td.Exact ∧ td.Maintained := by
  obtain ⟨rest, rfl⟩ := hpast
  have hinv := @Runs.run_preserves _ _ _ _ _ _ _ _ _ [] (fun _ td => td.Exact ∧ td.indices.Nodup)
    (fun _ td e td' _ h hregular hs => step_spec h.1 h.2 hregular hs) ⟨⟨rfl, rfl, rfl⟩, nodup_nil⟩
    hmeets.append_left hrun
  exact ⟨hinv.1, hinv.1.maintained⟩

/-- A neighbour sends its height, another one asks for a route and clears its height, and the link to the
first one goes down. -/
theorem counters_exact_deleted : ∃ td outs, Runs.run (step 1) (TORADest.init 9)
    [(0, .nbAdd 3), (1, .nbAdd 4), (2, .recvUPD 3 ⟨0, 0, 0, 1, 3⟩), (3, .recvQRY 4), (4, .recvCLR 4 5 5),
      (5, .nbDel 3)] = some (td, outs) ∧ td.Exact ∧ td.Maintained := by
  obtain ⟨⟨td, outs⟩, hrun⟩ := Option.isSome_iff_exists.mp (show (Runs.run (step 1) (TORADest.init 9)
    [(0, .nbAdd 3), (1, .nbAdd 4), (2, .recvUPD 3 ⟨0, 0, 0, 1, 3⟩), (3, .recvQRY 4), (4, .recvCLR 4 5 5),
      (5, .nbDel 3)]).isSome by decide +kernel)
  exact ⟨td, outs, hrun, counters_exact 1 9 _ _ td outs (by decide +kernel) (prefix_refl _) hrun⟩

/-- A neighbour sends its height, and clears it: its link stays counted as downstream, and when it is deleted,
no route maintenance starts. -/
theorem cleared_link_counted : ∃ td outs, Runs.run (step 1) (TORADest.init 9)
    [(0, .nbAdd 3), (1, .recvUPD 3 ⟨0, 0, 0, 1, 3⟩), (2, .recvCLR 3 5 5)] = some (td, outs) ∧
      ¬ td.Exact ∧ ¬ td.Maintained := by
  refine ⟨⟨9, ⟨-1, -1, -1, -1, 9⟩, false, 0, [⟨3, ⟨-1, -1, -1, -1, 3⟩, .un, 0⟩], 1, 1, 0⟩, [(), (), ()],
    by decide +kernel, fun hexact => ?_, fun hmaintained => ?_⟩
  · exact absurd hexact.down (by decide)
  · exact absurd ((hmaintained 3 3).mpr (by decide +kernel)) (by decide +kernel)

end NetSim.Tora.TORADest
