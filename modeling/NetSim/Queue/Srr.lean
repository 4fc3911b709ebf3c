import Mathlib.Data.Finset.Insert
import Mathlib.Data.List.Nodup
import Mathlib.Logic.Function.Basic
import NetSim.Queue.Wss

/-! # The weight matrix of SRR

Column `c` of the weight matrix lists the queues whose weight has bit `c`. `getNextNode` walks along a
column and, at its end, takes terms from the weight spread sequence until it finds a column that is not
empty. It finds one among the next two terms, since every second term is 1 and stands for the greatest
column (`again_spec`). A full pass over the terms visits every queue as often as its weight says
(`srr_serves_in_proportion`).
-/

namespace NetSim

open Function List

/-- A node of the weight matrix, by its place in a column. -/
structure WmPos where
  col : ℕ
  idx : ℕ

/-- The weight matrix of `SRR` with its pointers; a column is the list of the queues of its nodes. -/
structure Srr where
  bytecnt : ℕ
  flwcnt : ℕ
  columns : ℕ → List ℕ
  pwmCurr : Option WmPos
  wmEmptyFlag : Bool
  maxColumn : ℕ
  currMaxColumn : ℤ
  wss : Wss

namespace Srr

/-- The constructor, for a scheduler whose greatest column is `maxColumn`. -/
def empty (maxColumn : ℕ) : Srr where
  bytecnt := 0
  flwcnt := 0
  columns := fun _ => []
  pwmCurr := none
  wmEmptyFlag := true
  maxColumn := maxColumn
  currMaxColumn := -1
  wss := Wss.init 16

/-- `currMaxColumn + 1`. -/
def order (s : Srr) : ℕ := (s.currMaxColumn + 1).toNat

/-- A new node of column `i`: before `pwmCurr` when that is in the column, and else at its end. -/
def addNode (queueid i : ℕ) (s : Srr) : Srr :=
  let pNode := (s.columns i).length
  let s : Srr :=
    match s.pwmCurr with
    | some p =>
      if p.col = i then
        { s with
          columns := update s.columns i
            ((s.columns i).take p.idx ++ queueid :: (s.columns i).drop p.idx)
          pwmCurr := some { p with idx := p.idx + 1 } }
      else { s with columns := update s.columns i (s.columns i ++ [queueid]) }
    | none => { s with columns := update s.columns i (s.columns i ++ [queueid]) }
  let s := if s.currMaxColumn < i then { s with currMaxColumn := i } else s
  if s.wmEmptyFlag then
    { s with
      wmEmptyFlag := false
      pwmCurr := match s.pwmCurr with
        | none => some { col := i, idx := pNode }
        | some p => some p }
  else s

/-- The loop of `add_to_WM`, over the columns below `i`. -/
def addLoop (queueid weight : ℕ) : ℕ → Srr → Srr
  | 0, s => s
  | i + 1, s => addLoop queueid weight i (if weight.testBit i then addNode queueid i s else s)

/-- `add_to_WM`. `none` stands for the exit on a weight that is zero or too large. -/
def addToWM (queueid weight : ℕ) (s : Srr) : Option Srr :=
  if weight = 0 then none
  else if (1 <<< (s.maxColumn + 1)) - 1 < weight then none
  else
    let oldColno := s.currMaxColumn
    let s := addLoop queueid weight (s.maxColumn + 1) s
    let pc := (s.wss.ptr + 1) <<< (s.currMaxColumn - oldColno).toNat
    let s :=
      if oldColno < s.currMaxColumn then
        if 0 ≤ oldColno then { s with wss := { s.wss with ptr := pc - 1 } } else s
      else s
    some { s with flwcnt := s.flwcnt + 1 }

/-- The search of `getNextNode` for a column that is not empty, with a bound on the terms it takes. -/
def again : ℕ → Srr → Option Srr
  | 0, _ => none
  | fuel + 1, s =>
    (s.wss.get s.order).bind (fun r =>
      let s := { s with wss := r.2.incPtr s.order }
      if s.order < r.1 then none
      else if s.columns (s.order - r.1) ≠ [] then
        some { s with pwmCurr := some { col := s.order - r.1, idx := 0 } }
      else again fuel s)

/-- How `getNextNode` moves `pwmCurr`. -/
def advance (s : Srr) (p : WmPos) : Option Srr :=
  if p.idx + 1 < (s.columns p.col).length then
    some { s with pwmCurr := some { p with idx := p.idx + 1 } }
  else if s.currMaxColumn = -1 then none
  else again 2 s

/-- The queue of the node at `pwmCurr`. -/
def currQueue (s : Srr) : Option ℕ := s.pwmCurr.bind (fun p => (s.columns p.col)[p.idx]?)

/-- `getNextNode`: the state, and the queue of the node returned. `none` stands for an exit, for a search
that goes on, and for a null pointer that is followed; with no bytes in the queues the result is
`NULL`. -/
def getNextNode (s : Srr) : Option (Srr × Option ℕ) :=
  if s.bytecnt = 0 then some (s, none)
  else (s.pwmCurr.bind (advance s)).map (fun s => (s, s.currQueue))

/-- Call `getNextNode` `n` times: the queues visited. -/
def serve : ℕ → Srr → Option (Srr × List ℕ)
  | 0, s => some (s, [])
  | n + 1, s =>
    (getNextNode s).bind (fun r =>
      r.2.bind (fun q => (serve n r.1).map (fun t => (t.1, q :: t.2))))

/-- The table is that of order 16, `pwmCurr` points to a node, the greatest column is not empty, and the
pointer into the sequence is within its order. -/
structure Ready (s : Srr) : Prop where
  items : s.wss.items = 2 ^ 16 - 1
  terms : ∀ j, s.wss.pwss j = term (j + 1)
  order_le : s.order ≤ 16
  nonneg : 0 ≤ s.currMaxColumn
  top : s.columns (s.order - 1) ≠ []
  ptr : s.wss.ptr + 2 ≤ 2 ^ s.order
  curr : ∃ p, s.pwmCurr = some p ∧ p.idx < (s.columns p.col).length

/-- The weights of the active queues are recorded: a node in column `c` for every bit `c`, and
`currMaxColumn` is the greatest column with a node. -/
structure Recorded (s : Srr) (active : Finset ℕ) (weight : ℕ → ℕ) : Prop where
  ready : s.Ready
  weights : ∀ q ∈ active, 1 ≤ weight q ∧ weight q < 2 ^ 16
  nodup : ∀ c, (s.columns c).Nodup
  nodes : ∀ c q, q ∈ s.columns c ↔ q ∈ active ∧ (weight q).testBit c = true
  above : ∀ c, s.order ≤ c → s.columns c = []

/-- `pwmCurr` points to the last node of its column: the next call takes a term. -/
def AtEnd (s : Srr) : Prop := ∃ p, s.pwmCurr = some p ∧ p.idx + 1 = (s.columns p.col).length

variable {s s' : Srr} {active : Finset ℕ} {weight : ℕ → ℕ} {p : WmPos} {m n fuel : ℕ}

/-! ## Taking a term -/

def bump (s : Srr) : Srr :=
  { s with wss := { s.wss with
      currOrder := s.order
      ptr := if s.wss.ptr + 2 = 2 ^ s.order then 0 else s.wss.ptr + 1 } }

def nextCol (s : Srr) : ℕ := s.order - term (s.wss.ptr + 1)

theorem two_pow_le (h : s.Ready) : 2 ^ s.order ≤ 2 ^ 16 :=
  Nat.pow_le_pow_right (by norm_num) h.order_le

theorem Ready.order_pos (h : s.Ready) : 1 ≤ s.order := by
  have := h.nonneg
  unfold order
  omega

theorem again_succ (h : s.Ready) :
    again (fuel + 1) s =
      if s.columns s.nextCol ≠ [] then some { s.bump with pwmCurr := some { col := s.nextCol, idx := 0 } }
      else again fuel s.bump := by
  have hptr := h.ptr
  have hpow := two_pow_le h
  have hpowZ : (1 : ℤ) <<< s.order = (2 ^ s.order : ℕ) := by
    rw [Int.shiftLeft_eq]
    push_cast
    ring
  have hget : s.wss.get s.order = some (term (s.wss.ptr + 1), { s.wss with currOrder := s.order }) := by
    unfold Wss.get
    rw [hpowZ, if_neg (by omega), if_neg (by rw [h.items]; omega), h.terms]
  have hinc : ({ s.wss with currOrder := s.order } : Wss).incPtr s.order = s.bump.wss := by
    unfold Wss.incPtr bump
    simp only
    by_cases hlast : s.wss.ptr + 2 = 2 ^ s.order
    · rw [if_pos (by omega), if_pos hlast]
    · rw [if_neg (by omega), if_neg hlast]
  have hterm : term (s.wss.ptr + 1) ≤ s.order :=
    term_le (Nat.succ_pos _) (by omega) h.order_le
  rw [again, hget, Option.bind_some]
  simp only [hinc]
  exact if_neg (Nat.not_lt.mpr hterm)

theorem Ready.bump (h : s.Ready) : s.bump.Ready := by
  refine ⟨h.items, h.terms, h.order_le, h.nonneg, h.top, ?_, h.curr⟩
  have hptr := h.ptr
  show (if s.wss.ptr + 2 = 2 ^ s.order then 0 else s.wss.ptr + 1) + 2 ≤ 2 ^ s.order
  split <;> omega

theorem nextCol_of_even (h : s.Ready) (heven : s.wss.ptr % 2 = 0) : s.columns s.nextCol ≠ [] := by
  have hptr := h.ptr
  have hpow := two_pow_le h
  have hterm : term (s.wss.ptr + 1) = 1 := by
    rw [show s.wss.ptr + 1 = 2 * (s.wss.ptr / 2) + 1 from by omega]
    exact term_odd (by omega)
  unfold nextCol
  rw [hterm]
  exact h.top

theorem bump_of_empty (h : s.Ready) (hempty : s.columns s.nextCol = []) :
    s.bump.wss.ptr = s.wss.ptr + 1 ∧ s.bump.wss.ptr % 2 = 0 := by
  have hodd : s.wss.ptr % 2 = 1 := by
    by_contra hne
    exact nextCol_of_even h (by omega) hempty
  have hpow : 2 ^ s.order % 2 = 0 := by
    have := h.order_pos
    rw [← Nat.sub_add_cancel this, pow_succ]
    omega
  have hptr : s.bump.wss.ptr = s.wss.ptr + 1 := by
    show (if s.wss.ptr + 2 = 2 ^ s.order then 0 else s.wss.ptr + 1) = _
    rw [if_neg (by omega)]
  exact ⟨hptr, by omega⟩

theorem again_of_empty (h : s.Ready) (hempty : s.columns s.nextCol = []) :
    again 2 s = again 2 s.bump := by
  have hnext := nextCol_of_even h.bump (bump_of_empty h hempty).2
  rw [again_succ h, if_neg (by simp [hempty]), again_succ h.bump, again_succ h.bump, if_pos hnext,
    if_pos hnext]

/-- **The search ends** at the first node of a column, after two terms at most. -/
theorem again_spec (h : s.Ready) :
    ∃ s', again 2 s = some s' ∧ s'.Ready ∧ s'.columns = s.columns ∧ s'.order = s.order ∧
      s'.bytecnt = s.bytecnt := by
  have hfirst : ∀ t : Srr, t.Ready → t.columns t.nextCol ≠ [] →
      ({ t.bump with pwmCurr := some { col := t.nextCol, idx := 0 } } : Srr).Ready := by
    intro t ht hne
    exact ⟨ht.bump.items, ht.bump.terms, ht.bump.order_le, ht.bump.nonneg, ht.bump.top, ht.bump.ptr,
      ⟨_, rfl, length_pos_iff.mpr hne⟩⟩
  by_cases hne : s.columns s.nextCol ≠ []
  · rw [again_succ h, if_pos hne]
    exact ⟨_, rfl, hfirst s h hne, rfl, rfl, rfl⟩
  · have hempty := not_not.mp hne
    have hnext := nextCol_of_even h.bump (bump_of_empty h hempty).2
    rw [again_of_empty h hempty, again_succ h.bump, if_pos hnext]
    exact ⟨_, rfl, hfirst s.bump h.bump hnext, rfl, rfl, rfl⟩

/-! ## Calls of getNextNode -/

theorem getNextNode_eq (hbytes : s.bytecnt ≠ 0) (hcurr : s.pwmCurr = some p) :
    getNextNode s = (advance s p).map (fun s => (s, s.currQueue)) := by
  unfold getNextNode
  rw [if_neg hbytes, hcurr, Option.bind_some]

theorem getNextNode_atEnd (h : s.Ready) (hbytes : s.bytecnt ≠ 0) (hend : s.AtEnd) :
    getNextNode s = (again 2 s).map (fun s => (s, s.currQueue)) := by
  obtain ⟨p, hcurr, hlen⟩ := hend
  have hnonneg := h.nonneg
  rw [getNextNode_eq hbytes hcurr]
  unfold advance
  rw [if_neg (by omega), if_neg (by omega)]

theorem getNextNode_spec (h : s.Ready) (hbytes : s.bytecnt ≠ 0) :
    ∃ s' q, getNextNode s = some (s', some q) ∧ s'.Ready ∧ s'.columns = s.columns ∧
      s'.order = s.order ∧ s'.bytecnt = s.bytecnt := by
  obtain ⟨p, hcurr, hidx⟩ := h.curr
  have hqueue : ∀ t : Srr, t.Ready → ∃ q, t.currQueue = some q := by
    intro t ht
    obtain ⟨p, hcurr, hidx⟩ := ht.curr
    unfold currQueue
    rw [hcurr, Option.bind_some]
    exact ⟨_, getElem?_eq_getElem hidx⟩
  by_cases hend : p.idx + 1 < (s.columns p.col).length
  · have hready : ({ s with pwmCurr := some { p with idx := p.idx + 1 } } : Srr).Ready :=
      ⟨h.items, h.terms, h.order_le, h.nonneg, h.top, h.ptr, ⟨_, rfl, hend⟩⟩
    obtain ⟨q, hq⟩ := hqueue _ hready
    refine ⟨_, q, ?_, hready, rfl, rfl, rfl⟩
    rw [getNextNode_eq hbytes hcurr]
    unfold advance
    rw [if_pos hend, Option.map_some, hq]
  · obtain ⟨s', hrun, hready, hcols, horder, hb⟩ := again_spec h
    obtain ⟨q, hq⟩ := hqueue _ hready
    refine ⟨s', q, ?_, hready, hcols, horder, hb⟩
    rw [getNextNode_atEnd h hbytes ⟨p, hcurr, by omega⟩, hrun, Option.map_some, hq]

theorem serve_succ {q : ℕ} (h : getNextNode s = some (s', some q)) :
    serve (n + 1) s = (serve n s').map (fun t => (t.1, q :: t.2)) := by
  rw [serve, h]
  rfl

theorem serve_append {qs : List ℕ} (h : serve m s = some (s', qs)) :
    serve (m + n) s = (serve n s').map (fun t => (t.1, qs ++ t.2)) := by
  induction m generalizing s qs with
  | zero =>
    cases h
    simp
  | succ m ih =>
    rw [serve, Option.bind_eq_some_iff] at h
    obtain ⟨r, hr, h⟩ := h
    rw [Option.bind_eq_some_iff] at h
    obtain ⟨q, hq, h⟩ := h
    obtain ⟨t, ht, heq⟩ := Option.map_eq_some_iff.mp h
    cases heq
    have hstep : getNextNode s = some (r.1, some q) := by
      rw [hr, ← hq]
    rw [show m + 1 + n = m + n + 1 from by omega, serve_succ hstep, ih ht]
    cases serve n t.1 <;> rfl

theorem serve_total (h : s.Ready) (hbytes : s.bytecnt ≠ 0) (n : ℕ) :
    ∃ s' qs, serve n s = some (s', qs) ∧ s'.Ready ∧ s'.columns = s.columns ∧ s'.order = s.order := by
  induction n generalizing s with
  | zero => exact ⟨s, [], rfl, h, rfl, rfl⟩
  | succ n ih =>
    obtain ⟨s₁, q, hstep, h₁, hcols, horder, hb⟩ := getNextNode_spec h hbytes
    obtain ⟨s', qs, hrun, h', hcols', horder'⟩ := ih h₁ (by rwa [hb])
    refine ⟨s', q :: qs, ?_, h', hcols'.trans hcols, horder'.trans horder⟩
    rw [serve_succ hstep, hrun]
    rfl

/-! ## A pass -/

theorem serve_column (hbytes : s.bytecnt ≠ 0) (hcurr : s.pwmCurr = some p)
    (hlen : p.idx + 1 + n = (s.columns p.col).length) :
    serve n s = some ({ s with pwmCurr := some { p with idx := p.idx + n } },
      (s.columns p.col).drop (p.idx + 1)) := by
  induction n generalizing s p with
  | zero =>
    rw [drop_of_length_le (by omega)]
    have hs : { s with pwmCurr := some { p with idx := p.idx + 0 } } = s := by
      rw [Nat.add_zero, ← hcurr]
    rw [hs]
    rfl
  | succ n ih =>
    have hlt : p.idx + 1 < (s.columns p.col).length := by omega
    have hstep : getNextNode s = some ({ s with pwmCurr := some { p with idx := p.idx + 1 } },
        some (s.columns p.col)[p.idx + 1]) := by
      rw [getNextNode_eq hbytes hcurr]
      unfold advance
      rw [if_pos hlt, Option.map_some, ← getElem?_eq_getElem hlt]
      rfl
    have hrest := @ih { s with pwmCurr := some { p with idx := p.idx + 1 } }
      { p with idx := p.idx + 1 } hbytes rfl (by simp only; omega)
    rw [serve_succ hstep, hrest, Option.map_some, drop_eq_getElem_cons hlt]
    simp only [show p.idx + 1 + n = p.idx + (n + 1) from by omega]

theorem serve_block (h : s.Ready) (hbytes : s.bytecnt ≠ 0) (hend : s.AtEnd)
    (hne : s.columns s.nextCol ≠ []) :
    ∃ s', serve (s.columns s.nextCol).length s = some (s', s.columns s.nextCol) ∧ s'.Ready ∧
      s'.AtEnd ∧ s'.columns = s.columns ∧ s'.order = s.order ∧ s'.bytecnt = s.bytecnt ∧
      s'.wss = s.bump.wss := by
  have hpos : 0 < (s.columns s.nextCol).length := length_pos_iff.mpr hne
  obtain ⟨n, hn⟩ := Nat.exists_eq_add_of_lt hpos
  have hstep : getNextNode s =
      some ({ s.bump with pwmCurr := some { col := s.nextCol, idx := 0 } },
        some (s.columns s.nextCol)[0]) := by
    rw [getNextNode_atEnd h hbytes hend, again_succ h, if_pos hne, Option.map_some,
      ← getElem?_eq_getElem hpos]
    rfl
  have hrest := @serve_column { s.bump with pwmCurr := some { col := s.nextCol, idx := 0 } }
    { col := s.nextCol, idx := 0 } n hbytes rfl (by show 0 + 1 + n = (s.columns s.nextCol).length; omega)
  rw [show (s.columns s.nextCol).length = n + 1 from by omega, serve_succ hstep, hrest]
  refine ⟨{ s.bump with pwmCurr := some { col := s.nextCol, idx := 0 + n } }, ?_, ?_, ?_,
    rfl, rfl, rfl, rfl⟩
  · refine congrArg (fun qs => some (_, qs)) ?_
    exact getElem_cons_drop hpos
  · exact ⟨h.bump.items, h.bump.terms, h.bump.order_le, h.bump.nonneg, h.bump.top, h.bump.ptr,
      ⟨_, rfl, by show 0 + n < (s.columns s.nextCol).length; omega⟩⟩
  · exact ⟨_, rfl, by show 0 + n + 1 = (s.columns s.nextCol).length; omega⟩

theorem serve_passFrom (h : s.Ready) (hbytes : s.bytecnt ≠ 0) (hend : s.AtEnd)
    (hn : s.wss.ptr + (n + 1) = 2 ^ s.order - 1) :
    ∃ s', serve (passFrom s.columns s.order s.wss.ptr (n + 1)).length s =
        some (s', passFrom s.columns s.order s.wss.ptr (n + 1)) ∧ s'.Ready ∧ s'.AtEnd ∧
      s'.columns = s.columns ∧ s'.order = s.order ∧ s'.bytecnt = s.bytecnt ∧ s'.wss.ptr = 0 := by
  have hpow : 2 ^ s.order % 2 = 0 := by
    rw [← Nat.sub_add_cancel h.order_pos, pow_succ]
    omega
  induction n generalizing s with
  | zero =>
    -- the last place is even: its column is the greatest one
    have hne := nextCol_of_even h (by omega)
    obtain ⟨s', hrun, hready, hend', hcols, horder, hb, hwss⟩ := serve_block h hbytes hend hne
    rw [passFrom_succ, show passFrom s.columns s.order (s.wss.ptr + 1) 0 = [] from rfl,
      append_nil]
    refine ⟨s', hrun, hready, hend', hcols, horder, hb, ?_⟩
    rw [hwss]
    exact if_pos (by omega)
  | succ n ih =>
    have hptr : s.bump.wss.ptr = s.wss.ptr + 1 := if_neg (by omega)
    rw [passFrom_succ]
    by_cases hne : s.columns s.nextCol ≠ []
    · obtain ⟨s₁, hrun, hready, hend₁, hcols, horder, hb, hwss⟩ := serve_block h hbytes hend hne
      have hptr₁ : s₁.wss.ptr = s.wss.ptr + 1 := by
        rw [hwss, hptr]
      have hrest := ih hready (by rwa [hb]) hend₁ (by rw [horder, hptr₁]; omega)
        (by rwa [horder])
      rw [hptr₁, hcols, horder, hb] at hrest
      obtain ⟨s', hrun', hready', hend', hcols', horder', hb', hptr'⟩ := hrest
      refine ⟨s', ?_, hready', hend', hcols', horder', hb', hptr'⟩
      rw [length_append]
      show serve ((s.columns s.nextCol).length + _) s = _
      rw [serve_append hrun, hrun']
      rfl
    · -- an empty column is skipped by the same call
      have hempty := not_not.mp hne
      have hend₁ : s.bump.AtEnd := hend
      have hrest := ih h.bump hbytes hend₁ (by show s.bump.wss.ptr + _ = 2 ^ s.order - 1; omega) hpow
      obtain ⟨s', hrun', hready', hend', hcols', horder', hb', hptr'⟩ := hrest
      refine ⟨s', ?_, hready', hend', hcols', horder', hb', hptr'⟩
      have hcolumn : s.columns (s.order - term (s.wss.ptr + 1)) = [] := hempty
      have hpass : passFrom s.columns s.order (s.wss.ptr + 1) (n + 1) =
          passFrom s.bump.columns s.bump.order s.bump.wss.ptr (n + 1) := by
        rw [hptr]
        rfl
      have hnext := nextCol_of_even h.bump (bump_of_empty h hempty).2
      have hpos : 0 < (passFrom s.bump.columns s.bump.order s.bump.wss.ptr (n + 1)).length := by
        rw [passFrom_succ, length_append]
        exact Nat.add_pos_left (length_pos_iff.mpr hnext) _
      rw [hcolumn, nil_append, hpass, ← hrun']
      obtain ⟨m, hm⟩ := Nat.exists_eq_add_of_lt hpos
      rw [hm, serve, serve, getNextNode_atEnd h hbytes hend, getNextNode_atEnd h.bump hbytes hend₁,
        again_of_empty h hempty]

/-! ## Recording a weight -/

/-- `pwmCurr` points to a node, if anywhere. -/
def CurrValid (s : Srr) : Prop := ∀ p, s.pwmCurr = some p → p.idx < (s.columns p.col).length

/-- What a new node, or all the nodes of one queue, change: the columns `cols` get a node of the queue
`q`, and everything else stays. -/
structure Adds (q : ℕ) (cols : ℕ → Prop) (s s' : Srr) : Prop where
  nodes : ∀ c x, x ∈ s'.columns c ↔ x ∈ s.columns c ∨ x = q ∧ cols c
  nodup : (∀ c, (s.columns c).Nodup) → ∀ c, (s'.columns c).Nodup
  le_max : s.currMaxColumn ≤ s'.currMaxColumn
  max_le : ∀ c, cols c → (c : ℤ) ≤ s'.currMaxColumn
  max : s'.currMaxColumn = s.currMaxColumn ∨ ∃ c, cols c ∧ s'.currMaxColumn = c
  valid : s.CurrValid → s'.CurrValid
  curr : s.pwmCurr ≠ none ∨ (s.wmEmptyFlag = true ∧ ∃ c, cols c) → s'.pwmCurr ≠ none
  flag : s'.pwmCurr = none → s'.wmEmptyFlag = s.wmEmptyFlag
  wss : s'.wss = s.wss
  bytecnt : s'.bytecnt = s.bytecnt
  maxColumn : s'.maxColumn = s.maxColumn

theorem Adds.refl (q : ℕ) {cols : ℕ → Prop} (hnone : ∀ c, ¬ cols c) (s : Srr) : Adds q cols s s where
  nodes c x := by simp [hnone c]
  nodup h := h
  le_max := le_rfl
  max_le c hc := absurd hc (hnone c)
  max := Or.inl rfl
  valid h := h
  curr h := by
    rcases h with h | ⟨-, c, hc⟩
    · exact h
    · exact absurd hc (hnone c)
  flag _ := rfl
  wss := rfl
  bytecnt := rfl
  maxColumn := rfl

theorem Adds.trans {q : ℕ} {cols cols' : ℕ → Prop} {s₁ s₂ s₃ : Srr} (h : Adds q cols s₁ s₂)
    (h' : Adds q cols' s₂ s₃) : Adds q (fun c => cols c ∨ cols' c) s₁ s₃ where
  nodes c x := by
    rw [h'.nodes, h.nodes]
    tauto
  nodup hnodup := h'.nodup (h.nodup hnodup)
  le_max := h.le_max.trans h'.le_max
  max_le c hc := by
    rcases hc with hc | hc
    · exact (h.max_le c hc).trans h'.le_max
    · exact h'.max_le c hc
  max := by
    rcases h'.max with heq | ⟨c, hc, heq⟩
    · rcases h.max with heq' | ⟨c, hc, heq'⟩
      · exact Or.inl (heq.trans heq')
      · exact Or.inr ⟨c, Or.inl hc, heq.trans heq'⟩
    · exact Or.inr ⟨c, Or.inr hc, heq⟩
  valid hvalid := h'.valid (h.valid hvalid)
  curr hcurr := by
    by_cases hmid : s₂.pwmCurr = none
    · refine h'.curr (Or.inr ⟨?_, ?_⟩)
      · rw [h.flag hmid]
        rcases hcurr with hne | ⟨hflag, -⟩
        · exact absurd hmid (h.curr (Or.inl hne))
        · exact hflag
      · rcases hcurr with hne | ⟨hflag, c, hc | hc⟩
        · exact absurd hmid (h.curr (Or.inl hne))
        · exact absurd hmid (h.curr (Or.inr ⟨hflag, c, hc⟩))
        · exact ⟨c, hc⟩
    · exact h'.curr (Or.inl hmid)
  flag hnone := by
    have hmid : s₂.pwmCurr = none := by
      by_contra hmid
      exact h'.curr (Or.inl hmid) hnone
    rw [h'.flag hnone, h.flag hmid]
  wss := h'.wss.trans h.wss
  bytecnt := h'.bytecnt.trans h.bytecnt
  maxColumn := h'.maxColumn.trans h.maxColumn

/-- The list of column `i` after a new node. -/
def grown (s : Srr) (queueid i : ℕ) : List ℕ :=
  match s.pwmCurr with
  | some p =>
    if p.col = i then (s.columns i).take p.idx ++ queueid :: (s.columns i).drop p.idx
    else s.columns i ++ [queueid]
  | none => s.columns i ++ [queueid]

/-- Where `pwmCurr` points after a new node. -/
def shifted (s : Srr) (i : ℕ) : Option WmPos :=
  match s.pwmCurr with
  | some p => if p.col = i then some { p with idx := p.idx + 1 } else some p
  | none => if s.wmEmptyFlag then some { col := i, idx := (s.columns i).length } else none

theorem addNode_eq (queueid i : ℕ) (s : Srr) :
    addNode queueid i s =
      { s with
        columns := update s.columns i (s.grown queueid i)
        pwmCurr := s.shifted i
        wmEmptyFlag := false
        currMaxColumn := if s.currMaxColumn < i then (i : ℤ) else s.currMaxColumn } := by
  unfold addNode grown shifted
  cases hcurr : s.pwmCurr with
  | none =>
    cases hflag : s.wmEmptyFlag <;> by_cases hmax : s.currMaxColumn < (i : ℤ) <;>
      simp [hmax]
  | some p =>
    by_cases hcol : p.col = i <;> cases hflag : s.wmEmptyFlag <;>
      by_cases hmax : s.currMaxColumn < (i : ℤ) <;> simp [hcol, hmax]

theorem perm_grown (s : Srr) (queueid i : ℕ) : (s.grown queueid i).Perm (queueid :: s.columns i) := by
  have happend : (s.columns i ++ [queueid]).Perm (queueid :: s.columns i) :=
    perm_append_comm
  unfold grown
  cases s.pwmCurr with
  | none => exact happend
  | some p =>
    by_cases hcol : p.col = i
    · simp only [if_pos hcol]
      refine perm_middle.trans (List.Perm.cons _ ?_)
      rw [take_append_drop]
    · simp only [if_neg hcol]
      exact happend

theorem adds_addNode {queueid i : ℕ} (hq : queueid ∉ s.columns i) :
    Adds queueid (fun c => c = i) s (addNode queueid i s) := by
  have hperm := perm_grown s queueid i
  rw [addNode_eq]
  constructor
  · intro c x
    by_cases hc : c = i
    · subst hc
      simp only [update_self]
      rw [hperm.mem_iff, mem_cons]
      tauto
    · simp only [update_of_ne hc]
      tauto
  · intro hnodup c
    by_cases hc : c = i
    · subst hc
      simp only [update_self]
      exact hperm.nodup_iff.mpr (nodup_cons.mpr ⟨hq, hnodup c⟩)
    · simp only [update_of_ne hc]
      exact hnodup c
  · simp only
    split <;> omega
  · rintro c rfl
    simp only
    split <;> omega
  · split
    · exact Or.inr ⟨i, rfl, rfl⟩
    · exact Or.inl rfl
  -- the pass pointer stays valid: only the column that grew can move it
  · intro hvalid p hp
    have hlen : (s.grown queueid i).length = (s.columns i).length + 1 := by
      rw [hperm.length_eq, length_cons]
    unfold shifted at hp
    simp only at hp ⊢
    cases hcurr : s.pwmCurr with
    | none =>
      rw [hcurr] at hp
      by_cases hflag : s.wmEmptyFlag = true
      · simp only [if_pos hflag, Option.some.injEq] at hp
        subst hp
        simp [hlen]
      · simp [hflag] at hp
    | some r =>
      have hr := hvalid r hcurr
      rw [hcurr] at hp
      by_cases hcol : r.col = i
      · simp only [if_pos hcol, Option.some.injEq] at hp
        subst hp
        rw [hcol] at hr ⊢
        simp only [update_self]
        omega
      · simp only [if_neg hcol, Option.some.injEq] at hp
        subst hp
        rwa [update_of_ne hcol]
  · intro h
    unfold shifted
    cases hcurr : s.pwmCurr with
    | none =>
      rcases h with h | ⟨hflag, -⟩
      · exact absurd hcurr h
      · simp [hflag]
    | some r =>
      simp only
      split <;> simp
  · intro hnone
    unfold shifted at hnone
    cases hcurr : s.pwmCurr with
    | none =>
      cases hflag : s.wmEmptyFlag with
      | false => rfl
      | true => simp [hcurr, hflag] at hnone
    | some r =>
      rw [hcurr] at hnone
      simp only at hnone
      split at hnone <;> cases hnone
  · rfl
  · rfl
  · rfl

theorem adds_addLoop {queueid wt i : ℕ} (hq : ∀ c, queueid ∉ s.columns c) :
    Adds queueid (fun c => c < i ∧ wt.testBit c = true) s (addLoop queueid wt i s) := by
  -- the columns below `i` have no node of the queue yet
  have key : ∀ s : Srr, (∀ c < i, queueid ∉ s.columns c) →
      Adds queueid (fun c => c < i ∧ wt.testBit c = true) s (addLoop queueid wt i s) := by
    induction i with
    | zero =>
      intro s _
      exact Adds.refl queueid (fun c hc => absurd hc.1 (Nat.not_lt_zero c)) s
    | succ i ih =>
      intro s hs
      unfold addLoop
      by_cases hbit : wt.testBit i = true
      · rw [if_pos hbit]
        have hfirst := @adds_addNode s queueid i (hs i (Nat.lt_succ_self i))
        have hrest := ih (addNode queueid i s) (by
          intro c hc hmem
          rcases (hfirst.nodes c queueid).mp hmem with hmem | ⟨-, heq⟩
          · exact hs c (by omega) hmem
          · omega)
        have hall := hfirst.trans hrest
        have hcols : (fun c => c = i ∨ (c < i ∧ wt.testBit c = true)) =
            (fun c => c < i + 1 ∧ wt.testBit c = true) := by
          funext c
          rw [eq_iff_iff]
          constructor
          · rintro (rfl | ⟨hc, hb⟩)
            · exact ⟨Nat.lt_succ_self c, hbit⟩
            · exact ⟨by omega, hb⟩
          · rintro ⟨hc, hb⟩
            rcases Nat.lt_succ_iff_lt_or_eq.mp hc with hc | hc
            · exact Or.inr ⟨hc, hb⟩
            · exact Or.inl hc
        rwa [hcols] at hall
      · rw [if_neg hbit]
        have hrest := ih s (fun c hc => hs c (by omega))
        have hcols : (fun c => c < i ∧ wt.testBit c = true) =
            (fun c => c < i + 1 ∧ wt.testBit c = true) := by
          funext c
          rw [eq_iff_iff]
          constructor
          · exact fun hc => ⟨by omega, hc.2⟩
          · rintro ⟨hc, hb⟩
            rcases Nat.lt_succ_iff_lt_or_eq.mp hc with hc | rfl
            · exact ⟨hc, hb⟩
            · exact absurd hb hbit
        rwa [hcols] at hrest
  exact key s (fun c _ => hq c)

/-- No queue is active. -/
structure Idle (s : Srr) : Prop where
  columns : ∀ c, s.columns c = []
  curr : s.pwmCurr = none
  flag : s.wmEmptyFlag = true
  max : s.currMaxColumn = -1
  items : s.wss.items = 2 ^ 16 - 1
  terms : ∀ j, s.wss.pwss j = term (j + 1)
  ptr : s.wss.ptr = 0

theorem grown_ptr_le {ptr k d : ℕ} (h : ptr + 2 ≤ 2 ^ k) :
    (ptr + 1) <<< d - 1 + 2 ≤ 2 ^ (k + d) := by
  have hd : 1 ≤ 2 ^ d := Nat.one_le_two_pow
  rw [Nat.shiftLeft_eq, pow_add]
  have hone : 1 ≤ (ptr + 1) * 2 ^ d := Nat.mul_pos (Nat.succ_pos ptr) hd
  have hmul : (ptr + 2) * 2 ^ d ≤ 2 ^ k * 2 ^ d := Nat.mul_le_mul_right _ h
  have hsplit : (ptr + 2) * 2 ^ d = (ptr + 1) * 2 ^ d + 2 ^ d := by ring
  omega

/-- The weights are recorded, of no queue perhaps. -/
structure Recording (s : Srr) (active : Finset ℕ) (weight : ℕ → ℕ) : Prop where
  weights : ∀ q ∈ active, 1 ≤ weight q ∧ weight q < 2 ^ 16
  nodup : ∀ c, (s.columns c).Nodup
  nodes : ∀ c q, q ∈ s.columns c ↔ q ∈ active ∧ (weight q).testBit c = true
  above : ∀ c : ℕ, s.currMaxColumn < c → s.columns c = []
  top : 0 ≤ s.currMaxColumn → s.columns s.currMaxColumn.toNat ≠ []
  range : -1 ≤ s.currMaxColumn ∧ s.currMaxColumn ≤ 15
  items : s.wss.items = 2 ^ 16 - 1
  terms : ∀ j, s.wss.pwss j = term (j + 1)
  ptr : (0 ≤ s.currMaxColumn → s.wss.ptr + 2 ≤ 2 ^ s.order) ∧ (s.currMaxColumn < 0 → s.wss.ptr = 0)
  valid : s.CurrValid
  curr : s.pwmCurr ≠ none ∨ s.wmEmptyFlag = true

theorem Idle.recording (h : s.Idle) (weight : ℕ → ℕ) : Recording s ∅ weight where
  weights q hq := absurd hq (Finset.notMem_empty q)
  nodup c := by
    rw [h.columns c]
    exact nodup_nil
  nodes c q := by simp [h.columns c]
  above c _ := h.columns c
  top hnonneg := by
    have := h.max
    omega
  range := by
    have := h.max
    omega
  items := h.items
  terms := h.terms
  ptr := ⟨fun hnonneg => by have := h.max; omega, fun _ => h.ptr⟩
  valid p hp := by
    rw [h.curr] at hp
    cases hp
  curr := Or.inr h.flag

theorem Recorded.recording (h : Recorded s active weight) : Recording s active weight where
  weights := h.weights
  nodup := h.nodup
  nodes := h.nodes
  above c hc := by
    apply h.above
    unfold order
    omega
  top hnonneg := by
    have htop := h.ready.top
    rwa [show s.order - 1 = s.currMaxColumn.toNat from by unfold order; omega] at htop
  range := by
    have h1 := h.ready.nonneg
    have h2 := h.ready.order_le
    unfold order at h2
    omega
  items := h.ready.items
  terms := h.ready.terms
  ptr := ⟨fun _ => h.ready.ptr, fun hneg => by have := h.ready.nonneg; omega⟩
  valid p hp := by
    obtain ⟨p', hp', hlen⟩ := h.ready.curr
    rw [hp'] at hp
    cases hp
    exact hlen
  curr := by
    obtain ⟨p, hp, -⟩ := h.ready.curr
    exact Or.inl (by simp [hp])

theorem Recording.recorded (h : Recording s active weight) (hnonneg : 0 ≤ s.currMaxColumn)
    (hcurr : s.pwmCurr ≠ none) : Recorded s active weight where
  ready := by
    obtain ⟨p, hp⟩ := Option.ne_none_iff_exists'.mp hcurr
    refine ⟨h.items, h.terms, ?_, hnonneg, ?_, h.ptr.1 hnonneg, p, hp, h.valid p hp⟩
    · have := h.range
      unfold order
      omega
    · rw [show s.order - 1 = s.currMaxColumn.toNat from by unfold order; omega]
      exact h.top hnonneg
  weights := h.weights
  nodup := h.nodup
  nodes := h.nodes
  above c hc := by
    apply h.above
    unfold order at hc
    omega

theorem Recording.add {q wt : ℕ} (h : Recording s active weight) (hq : q ∉ active) (hpos : 1 ≤ wt)
    (hlt : wt < 2 ^ 16) (hadds : Adds q (fun c => wt.testBit c = true) s s') {ptr : ℕ}
    (hptr : ptr + 2 ≤ 2 ^ s'.order) :
    Recorded { s' with flwcnt := s'.flwcnt + 1, wss := { s'.wss with ptr := ptr } }
      (insert q active) (update weight q wt) := by
  obtain ⟨b, hb⟩ := Nat.exists_testBit_of_ne_zero (show wt ≠ 0 by omega)
  have hbits : ∀ c, wt.testBit c = true → c ≤ 15 := by
    intro c hc
    by_contra hge
    rw [Nat.testBit_lt_two_pow (hlt.trans_le (Nat.pow_le_pow_right (by norm_num) (by omega)))] at hc
    cases hc
  have hnonneg : 0 ≤ s'.currMaxColumn := (Int.natCast_nonneg b).trans (hadds.max_le b hb)
  have hold : ∀ x, x ∈ active → update weight q wt x = weight x := by
    intro x hx
    apply update_of_ne
    rintro rfl
    exact hq hx
  apply Recording.recorded
  · constructor
    · intro x hx
      rcases Finset.mem_insert.mp hx with rfl | hx
      · rw [update_self]
        exact ⟨hpos, hlt⟩
      · rw [hold x hx]
        exact h.weights x hx
    · exact hadds.nodup h.nodup
    · intro c x
      rw [hadds.nodes, h.nodes, Finset.mem_insert]
      by_cases hxq : x = q
      · subst hxq
        rw [update_self]
        tauto
      · rw [update_of_ne hxq]
        tauto
    · intro c hc
      have hc : s'.currMaxColumn < (c : ℤ) := hc
      have hle := hadds.le_max
      apply eq_nil_iff_forall_not_mem.mpr
      intro x hx
      rcases (hadds.nodes c x).mp hx with hx | ⟨-, hbit⟩
      · rw [h.above c (by omega)] at hx
        exact not_mem_nil hx
      · have := hadds.max_le c hbit
        omega
    · intro _
      rcases hadds.max with heq | ⟨c, hc, heq⟩
      · obtain ⟨x, hx⟩ := exists_mem_of_ne_nil _ (h.top (heq ▸ hnonneg))
        rw [heq]
        exact ne_nil_of_mem ((hadds.nodes _ x).mpr (Or.inl hx))
      · rw [heq, Int.toNat_natCast]
        exact ne_nil_of_mem ((hadds.nodes c q).mpr (Or.inr ⟨rfl, hc⟩))
    · show -1 ≤ s'.currMaxColumn ∧ s'.currMaxColumn ≤ 15
      have hrange := h.range
      rcases hadds.max with heq | ⟨c, hc, heq⟩
      · omega
      · have := hbits c hc
        omega
    · rw [hadds.wss]
      exact h.items
    · rw [hadds.wss]
      exact h.terms
    · exact ⟨fun _ => hptr, fun hneg => absurd hneg (not_lt.mpr hnonneg)⟩
    · exact hadds.valid h.valid
    · refine Or.inl (hadds.curr ?_)
      exact h.curr.imp_right (fun hflag => ⟨hflag, b, hb⟩)
  · exact hnonneg
  · exact hadds.curr (h.curr.imp_right (fun hflag => ⟨hflag, b, hb⟩))

/-- **`add_to_WM` records the weight** of a queue that becomes active. -/
theorem addToWM_records {q wt : ℕ} (h : Recording s active weight) (hmax : s.maxColumn ≤ 15)
    (hq : q ∉ active) (hpos : 1 ≤ wt) (hlt : wt < 2 ^ (s.maxColumn + 1)) :
    ∃ s', addToWM q wt s = some s' ∧
      Recorded s' (insert q active) (update weight q wt) ∧
      s'.bytecnt = s.bytecnt ∧ s'.maxColumn = s.maxColumn := by
  have hadds := @adds_addLoop s q wt (s.maxColumn + 1) (fun c hmem => hq ((h.nodes c q).mp hmem).1)
  have hcols : (fun c => c < s.maxColumn + 1 ∧ wt.testBit c = true) =
      (fun c => wt.testBit c = true) := by
    funext c
    rw [eq_iff_iff]
    refine ⟨fun hc => hc.2, fun hc => ⟨?_, hc⟩⟩
    by_contra hge
    rw [Nat.testBit_lt_two_pow (hlt.trans_le (Nat.pow_le_pow_right (by norm_num) (by omega)))] at hc
    cases hc
  rw [hcols] at hadds
  have hlt16 : wt < 2 ^ 16 := hlt.trans_le (Nat.pow_le_pow_right (by norm_num) (by omega))
  obtain ⟨b, hb⟩ := Nat.exists_testBit_of_ne_zero (show wt ≠ 0 by omega)
  have hnonneg := (Int.natCast_nonneg b).trans (hadds.max_le b hb)
  have hle := hadds.le_max
  unfold addToWM
  rw [if_neg (by omega), if_neg (by omega)]
  generalize addLoop q wt (s.maxColumn + 1) s = s₁ at *
  refine ⟨_, rfl, ?_⟩
  by_cases hgrow : s.currMaxColumn < s₁.currMaxColumn
  · by_cases hold : 0 ≤ s.currMaxColumn
    · -- the order grows: the pointer is scaled
      rw [if_pos hgrow, if_pos hold]
      refine ⟨h.add hq hpos hlt16 hadds ?_, hadds.bytecnt, hadds.maxColumn⟩
      rw [hadds.wss, show s₁.order = s.order + (s₁.currMaxColumn - s.currMaxColumn).toNat from by
        unfold order; omega]
      exact grown_ptr_le (h.ptr.1 hold)
    · -- the first queue
      rw [if_pos hgrow, if_neg hold]
      refine ⟨@Recording.add s s₁ active weight q wt h hq hpos hlt16 hadds s₁.wss.ptr ?_,
        hadds.bytecnt, hadds.maxColumn⟩
      rw [hadds.wss, h.ptr.2 (by omega)]
      calc 0 + 2 = 2 ^ 1 := rfl
        _ ≤ 2 ^ s₁.order := Nat.pow_le_pow_right (by norm_num) (by unfold order; omega)
  · rw [if_neg hgrow]
    refine ⟨@Recording.add s s₁ active weight q wt h hq hpos hlt16 hadds s₁.wss.ptr ?_,
      hadds.bytecnt, hadds.maxColumn⟩
    rw [hadds.wss, show s₁.order = s.order from by unfold order; omega]
    exact h.ptr.1 (by omega)

theorem idle_empty (maxColumn bytecnt : ℕ) : ({ empty maxColumn with bytecnt } : Srr).Idle where
  columns _ := rfl
  curr := rfl
  flag := rfl
  max := rfl
  items := rfl
  terms _ := rfl
  ptr := rfl

end Srr

open Srr

/-- **SRR serves queues in proportion to their weights.** With the weights of the active queues in the
matrix, no call of `getNextNode` fails. From the start of the sequence, at the end of a column, the
calls of a full pass visit the nodes of the columns that its terms stand for, every queue as often as
its weight says, and come back to the start. -/
theorem srr_serves_in_proportion {s : Srr} {active : Finset ℕ} {weight : ℕ → ℕ}
    (h : Recorded s active weight) (hbytes : s.bytecnt ≠ 0) :
    (∀ n, ∃ s' qs, serve n s = some (s', qs) ∧ Recorded s' active weight) ∧
    (s.wss.ptr = 0 → s.AtEnd →
      ∃ s', serve (pass s.columns s.order).length s = some (s', pass s.columns s.order) ∧
        (∀ q, (pass s.columns s.order).count q = if q ∈ active then weight q else 0) ∧
        Recorded s' active weight ∧ s'.wss.ptr = 0 ∧ s'.AtEnd) := by
  -- only the columns and the order matter for what is recorded
  have hkeep : ∀ s' : Srr, s'.Ready → s'.columns = s.columns → s'.order = s.order →
      Recorded s' active weight := by
    intro s' hready hcols horder
    exact ⟨hready, h.weights, hcols ▸ h.nodup, hcols ▸ h.nodes, horder ▸ hcols ▸ h.above⟩
  have hpow : 2 ≤ 2 ^ s.order := by
    calc 2 = 2 ^ 1 := rfl
      _ ≤ 2 ^ s.order := Nat.pow_le_pow_right (by norm_num) h.ready.order_pos
  constructor
  · intro n
    obtain ⟨s', qs, hrun, hready, hcols, horder⟩ := serve_total h.ready hbytes n
    exact ⟨s', qs, hrun, hkeep s' hready hcols horder⟩
  · intro hptr hend
    have hpass : pass s.columns s.order = passFrom s.columns s.order s.wss.ptr (2 ^ s.order - 2 + 1) := by
      unfold pass
      rw [hptr, show 2 ^ s.order - 2 + 1 = 2 ^ s.order - 1 from by omega]
    obtain ⟨s', hrun, hready, hend', hcols, horder, -, hptr'⟩ :=
      @serve_passFrom s (2 ^ s.order - 2) h.ready hbytes hend (by omega)
    rw [← hpass] at hrun
    refine ⟨s', hrun, ?_, hkeep s' hready hcols horder, hptr', hend'⟩
    intro q
    by_cases hq : q ∈ active
    · rw [if_pos hq]
      have hcount : ∀ c, (s.columns c).count q = ((weight q).testBit c).toNat := by
        intro c
        by_cases hbit : (weight q).testBit c = true
        · rw [hbit, count_eq_one_of_mem (h.nodup c) ((h.nodes c q).mpr ⟨hq, hbit⟩)]
          rfl
        · rw [count_eq_zero_of_not_mem (fun hmem => hbit ((h.nodes c q).mp hmem).2),
            Bool.eq_false_iff.mpr hbit]
          rfl
      -- the weight has no bits above the greatest column
      have hlt : weight q < 2 ^ s.order := by
        apply Nat.lt_pow_two_of_testBit
        intro c hc
        by_contra hbit
        have hmem := (h.nodes c q).mpr ⟨hq, Bool.eq_true_of_not_eq_false hbit⟩
        rw [h.above c hc] at hmem
        exact not_mem_nil hmem
      rw [count_pass s.columns q (weight q) hcount h.ready.order_le, Nat.mod_eq_of_lt hlt]
    · rw [if_neg hq]
      apply count_eq_zero_of_not_mem
      intro hmem
      obtain ⟨t, -, ht⟩ := mem_flatMap.mp hmem
      exact hq ((h.nodes _ q).mp ht).1

/-- Two queues of the weights 5 and 6, added to an idle scheduler: a pass of 11 visits. -/
theorem srr_serves_five_and_six :
    ∃ s s', ((addToWM 7 5 { empty 3 with bytecnt := 1000 }).bind (addToWM 4 6)) = some s ∧
      serve (pass s.columns s.order).length s = some (s', pass s.columns s.order) ∧
      (pass s.columns s.order).count 7 = 5 ∧ (pass s.columns s.order).count 4 = 6 := by
  obtain ⟨s₁, hrun₁, h₁, hb₁, hm₁⟩ := @addToWM_records _ ∅ (fun _ => 0) 7 5
    ((idle_empty 3 1000).recording _) (by decide) (by decide) (by decide) (by decide)
  obtain ⟨s, hrun, h, hb, -⟩ := @addToWM_records s₁ _ _ 4 6 h₁.recording
    (by rw [hm₁]; decide) (by decide) (by decide) (by rw [hm₁]; decide)
  have hall : (addToWM 7 5 { empty 3 with bytecnt := 1000 }).bind (addToWM 4 6) = some s := by
    rw [hrun₁, Option.bind_some, hrun]
  have hptr : ((addToWM 7 5 { empty 3 with bytecnt := 1000 }).bind (addToWM 4 6)).map
      (fun s => s.wss.ptr) = some 0 := by decide
  have hpos : ((addToWM 7 5 { empty 3 with bytecnt := 1000 }).bind (addToWM 4 6)).bind
      (fun s => s.pwmCurr.map (fun p => (p.idx + 1, (s.columns p.col).length))) = some (2, 2) := by
    decide
  rw [hall] at hptr hpos
  have hend : s.AtEnd := by
    obtain ⟨p, hp, heq⟩ := Option.map_eq_some_iff.mp hpos
    exact ⟨p, hp, (congrArg Prod.fst heq).trans (congrArg Prod.snd heq).symm⟩
  obtain ⟨s', hserve, hcount, -⟩ := (srr_serves_in_proportion h (by rw [hb, hb₁]; decide)).2
    (Option.some.inj hptr) hend
  refine ⟨s, s', hall, hserve, ?_, ?_⟩
  · rw [hcount]
    decide
  · rw [hcount]
    decide

end NetSim
