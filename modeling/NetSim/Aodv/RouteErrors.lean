import Mathlib
import NetSim.Lib.LinkedList
import NetSim.Aodv.Node

/-! # Route errors

`handle_link_failure` and `recvError` of `AODV` with the route error packets as they are: an 8-bit
counter and two arrays of `AODV_MAX_ERRORS` cells, which the counter indexes. A handler answers `none`
when an assertion fails or an array is accessed behind its last cell.

The handlers list exactly the lost destinations when the routes that they take down are up, with even
sequence numbers, and fit into the arrays (`route_errors_exact_iff`). There is no check for the size of
the arrays, and a route under local repair keeps its next hop and fails the assertion.
-/

namespace NetSim.Aodv

open List hiding Vector

/-! ## The packets -/

abbrev aodvMaxErrors : ℕ := 100

structure ErrorHdr where
  destCount : BitVec 8
  unreachableDst : Vector ℕ aodvMaxErrors
  unreachableDstSeqno : Vector ℕ aodvMaxErrors

namespace ErrorHdr

/-- A new packet, with `DestCount = 0`. -/
def new : ErrorHdr where
  destCount := 0
  unreachableDst := .replicate _ 0
  unreachableDstSeqno := .replicate _ 0

/-- Write the cells at `DestCount` and count them. -/
def add (dst seqno : ℕ) (re : ErrorHdr) : Option ErrorHdr :=
  if h : re.destCount.toNat < aodvMaxErrors then
    some
      { destCount := re.destCount + 1
        unreachableDst := re.unreachableDst.set re.destCount.toNat dst h
        unreachableDstSeqno := re.unreachableDstSeqno.set re.destCount.toNat seqno h }
  else none

/-- The cells at `i`. -/
def unreachable (re : ErrorHdr) (i : ℕ) : Option (ℕ × ℕ) :=
  if h : i < aodvMaxErrors then
    some (re.unreachableDst.get ⟨i, h⟩, re.unreachableDstSeqno.get ⟨i, h⟩)
  else none

def listed (re : ErrorHdr) : List (ℕ × ℕ) :=
  (re.unreachableDst.toList.zip re.unreachableDstSeqno.toList).take re.destCount.toNat

theorem listed_new : new.listed = [] := rfl

theorem take_zip_set {α β : Type} {xs : List α} {ys : List β} {k : ℕ} (hx : k < xs.length)
    (hy : k < ys.length) (a : α) (b : β) :
    ((xs.set k a).zip (ys.set k b)).take (k + 1) = (xs.zip ys).take k ++ [(a, b)] := by
  induction k generalizing xs ys with
  | zero =>
    cases xs with
    | nil => exact absurd hx (by simp)
    | cons x xs =>
      cases ys with
      | nil => exact absurd hy (by simp)
      | cons y ys => simp
  | succ k ih =>
    cases xs with
    | nil => exact absurd hx (by simp)
    | cons x xs =>
      cases ys with
      | nil => exact absurd hy (by simp)
      | cons y ys =>
        have hrest := @ih xs ys (by simpa using hx) (by simpa using hy)
        simpa using hrest

variable {re re' : ErrorHdr} {dst seqno : ℕ}

/-- The packets that count no more destinations than they have room for list what can be read. -/
theorem listed_eq_filterMap (h : re.destCount.toNat ≤ 100) :
    re.listed = (List.range re.destCount.toNat).filterMap re.unreachable := by
  suffices hk : ∀ k ≤ 100, (re.unreachableDst.toList.zip re.unreachableDstSeqno.toList).take k =
      (List.range k).filterMap re.unreachable from hk _ h
  intro k hk
  induction k with
  | zero => rfl
  | succ k ih =>
    have hlt : k < aodvMaxErrors := hk
    have hlen : k < (re.unreachableDst.toList.zip re.unreachableDstSeqno.toList).length := by
      rw [length_zip, Vector.length_toList, Vector.length_toList, Nat.min_self]
      exact hlt
    rw [range_succ, filterMap_append, ← ih (by omega), ← take_concat_get' _ k hlen]
    have hread : re.unreachable k =
        some (re.unreachableDst.get ⟨k, hlt⟩, re.unreachableDstSeqno.get ⟨k, hlt⟩) := dif_pos hlt
    rw [filterMap_cons_some hread, filterMap_nil, getElem_zip]
    rfl

/-- **An addition** goes through as long as there is a free cell, and appends to the list. -/
theorem add_spec (h : re.destCount.toNat < 100) (dst seqno : ℕ) :
    ∃ re', re.add dst seqno = some re' ∧ re'.destCount.toNat = re.destCount.toNat + 1 ∧
      re'.listed = re.listed ++ [(dst, seqno)] := by
  have hcount : (re.destCount + 1).toNat = re.destCount.toNat + 1 := by
    exact Nat.mod_eq_of_lt (by simp; omega)
  refine ⟨_, dif_pos h, hcount, ?_⟩
  unfold listed
  rw [hcount, Vector.toList_set, Vector.toList_set, take_zip_set]
  · rw [Vector.length_toList]
    exact h
  · rw [Vector.length_toList]
    exact h

theorem of_add (h : re.add dst seqno = some re') :
    re.destCount.toNat < 100 ∧ re'.destCount.toNat = re.destCount.toNat + 1 ∧
      re'.listed = re.listed ++ [(dst, seqno)] := by
  have hlt : re.destCount.toNat < 100 := by
    by_contra hfull
    cases h.symm.trans (dif_neg hfull)
  obtain ⟨re₁, hadd, hspec⟩ := add_spec hlt dst seqno
  obtain rfl : re₁ = re' := Option.some.inj (hadd.symm.trans h)
  exact ⟨hlt, hspec⟩

end ErrorHdr

/-! ## The routing table -/

/-- `aodv_rtable`. A destination has one entry: `rt_add` asserts that it has none before. -/
structure RTable where
  entries : List RtEntry
  distinct : (entries.map RtEntry.rtDst).Nodup

namespace RtEntry

/-- `(rt->rt_hops != INFINITY2) && (rt->rt_nexthop == id)`: the route goes through a neighbour. -/
def Through (id : ℕ) (rt : RtEntry) : Prop := rt.rtHops ≠ infinity2 ∧ rt.rtNexthop = id

instance (id : ℕ) (rt : RtEntry) : Decidable (rt.Through id) := inferInstanceAs (Decidable (_ ∧ _))

def Ready (rt : RtEntry) : Prop := rt.rtFlags = .up ∧ rt.rtSeqno % 2 = 0

instance (rt : RtEntry) : Decidable rt.Ready := inferInstanceAs (Decidable (_ ∧ _))

/-- The route taken down, with a new sequence number. -/
def takenDown (seqno : ℕ) (rt : RtEntry) : RtEntry :=
  { rt with
    rtSeqno := seqno
    rtLastHopCount := rt.rtHops
    rtHops := infinity2
    rtFlags := .down
    rtNexthop := 0
    rtExpire := 0 }

variable {rt : RtEntry}

theorem rtDown_eq (h : rt.Ready) (seqno : ℕ) :
    ({ rt with rtSeqno := seqno } : RtEntry).rtDown = rt.takenDown seqno := by
  have hflags : rt.rtFlags ≠ .down := by rw [h.1]; decide
  exact if_neg hflags

end RtEntry

theorem assert_pos {p : Prop} [Decidable p] (h : p) : assert p = some () := if_pos h

theorem assert_neg {p : Prop} [Decidable p] (h : ¬ p) : assert p = none := if_neg h

theorem of_assert {p : Prop} [Decidable p] {x : Unit} (h : assert p = some x) : p := by
  by_contra hnot
  cases h.symm.trans (assert_neg hnot)

/-! ## Link failures -/

/-- The body of the loop of `handle_link_failure`. -/
def failEntry (id : ℕ) (rt : RtEntry) (re : ErrorHdr) : Option (RtEntry × ErrorHdr) :=
  if rt.Through id then do
    assert (rt.rtFlags = .up)
    assert (rt.rtSeqno % 2 = 0)
    let rt := { rt with rtSeqno := rt.rtSeqno + 1 }
    let re ← re.add rt.rtDst rt.rtSeqno
    return (rt.rtDown.pcDelete id, re)
  else
    -- the lost neighbour is removed from all precursor lists
    return (rt.pcDelete id, re)

/-- The loop of `handle_link_failure`. -/
def failEntries (id : ℕ) : List RtEntry → ErrorHdr → Option (List RtEntry × ErrorHdr)
  | [], re => some ([], re)
  | rt :: l, re => do
    let (rt, re) ← failEntry id rt re
    let (l, re) ← failEntries id l re
    return (rt :: l, re)

def sentError (re : ErrorHdr) : Option ErrorHdr := if 0 < re.destCount.toNat then some re else none

/-- `handle_link_failure`: the table and the packet for `sendError`. -/
def handleFailure (id : ℕ) (t : RTable) : Option (List RtEntry × Option ErrorHdr) :=
  (failEntries id t.entries .new).map (fun r => (r.1, sentError r.2))

def failed (id : ℕ) (rt : RtEntry) : RtEntry :=
  if rt.Through id then { rt.takenDown (rt.rtSeqno + 1) with rtPclist := rt.rtPclist.erase id }
  else { rt with rtPclist := rt.rtPclist.erase id }

def lostVia (id : ℕ) (l : List RtEntry) : List (ℕ × ℕ) :=
  (l.filter (fun rt => rt.Through id)).map (fun rt => (rt.rtDst, rt.rtSeqno + 1))

variable {id saddr : ℕ} {rt : RtEntry} {re re' : ErrorHdr} {l : List RtEntry} {t : RTable}

theorem failEntry_other (h : ¬ rt.Through id) : failEntry id rt re = some (failed id rt, re) := by
  unfold failEntry failed
  rw [if_neg h, if_neg h]
  rfl

theorem failEntry_through (h : rt.Through id) (hready : rt.Ready) :
    failEntry id rt re = (re.add rt.rtDst (rt.rtSeqno + 1)).map (fun re => (failed id rt, re)) := by
  unfold failEntry failed
  rw [if_pos h, if_pos h, assert_pos hready.1, assert_pos hready.2]
  simp only [Option.bind_eq_bind]
  rw [RtEntry.rtDown_eq hready]
  cases re.add rt.rtDst (rt.rtSeqno + 1) <;> rfl

theorem failEntry_abort (h : rt.Through id) (hready : ¬ rt.Ready) : failEntry id rt re = none := by
  unfold failEntry
  rw [if_pos h]
  by_cases hup : rt.rtFlags = .up
  · have hodd : ¬ rt.rtSeqno % 2 = 0 := fun he => hready ⟨hup, he⟩
    rw [assert_pos hup, assert_neg hodd]
    rfl
  · rw [assert_neg hup]
    rfl

theorem failEntry_cases {rt' : RtEntry} (h : failEntry id rt re = some (rt', re')) :
    rt' = failed id rt ∧ (rt.Through id ∧ rt.Ready ∧ re.add rt.rtDst (rt.rtSeqno + 1) = some re' ∨
      ¬ rt.Through id ∧ re' = re) := by
  by_cases hthrough : rt.Through id
  · have hready : rt.Ready := by
      by_contra hnot
      rw [failEntry_abort hthrough hnot] at h
      cases h
    rw [failEntry_through hthrough hready, Option.map_eq_some_iff] at h
    obtain ⟨re₁, hadd, heq⟩ := h
    cases heq
    exact ⟨rfl, .inl ⟨hthrough, hready, hadd⟩⟩
  · rw [failEntry_other hthrough] at h
    cases h
    exact ⟨rfl, .inr ⟨hthrough, rfl⟩⟩

def AllReady (id : ℕ) (l : List RtEntry) : Prop := ∀ rt ∈ l, rt.Through id → rt.Ready

/-- **The loop** goes through when the routes are ready and there are cells for them. -/
theorem failEntries_spec (hready : AllReady id l)
    (hroom : re.destCount.toNat + (lostVia id l).length ≤ 100) :
    ∃ re', failEntries id l re = some (l.map (failed id), re') ∧
      re'.destCount.toNat = re.destCount.toNat + (lostVia id l).length ∧
      re'.listed = re.listed ++ lostVia id l := by
  induction l generalizing re with
  | nil => exact ⟨re, rfl, rfl, (append_nil _).symm⟩
  | cons rt l ih =>
    have hrest : AllReady id l := fun x hx => hready x (mem_cons_of_mem rt hx)
    by_cases h : rt.Through id
    · have hlost : lostVia id (rt :: l) = (rt.rtDst, rt.rtSeqno + 1) :: lostVia id l := by
        simp [lostVia, h]
      rw [hlost, length_cons] at hroom
      obtain ⟨re₁, hadd, hcount, hlisted⟩ :=
        ErrorHdr.add_spec (show re.destCount.toNat < 100 by omega) rt.rtDst (rt.rtSeqno + 1)
      obtain ⟨re', hloop, hcount', hlisted'⟩ := @ih re₁ hrest (by omega)
      refine ⟨re', ?_, ?_, ?_⟩
      · rw [failEntries, failEntry_through h (hready rt mem_cons_self h), hadd]
        simp [hloop]
      · rw [hcount', hcount, hlost, length_cons]
        omega
      · rw [hlisted', hlisted, hlost, append_assoc, singleton_append]
    · have hlost : lostVia id (rt :: l) = lostVia id l := by simp [lostVia, h]
      rw [hlost] at hroom ⊢
      obtain ⟨re', hloop, hcount, hlisted⟩ := ih hrest hroom
      refine ⟨re', ?_, hcount, hlisted⟩
      rw [failEntries, failEntry_other h]
      simp [hloop]

theorem ready_of_failEntries {r : List RtEntry × ErrorHdr} (h : failEntries id l re = some r)
    (hfit : re.destCount.toNat ≤ 100) :
    AllReady id l ∧ re.destCount.toNat + (lostVia id l).length ≤ 100 := by
  induction l generalizing re r with
  | nil => exact ⟨by simp [AllReady], by simpa [lostVia] using hfit⟩
  | cons rt l ih =>
    rw [failEntries, Option.bind_eq_bind, Option.bind_eq_some_iff] at h
    obtain ⟨⟨rt', re₁⟩, hentry, h⟩ := h
    obtain ⟨r', hloop, -⟩ := Option.bind_eq_some_iff.mp h
    obtain ⟨-, ⟨hthrough, hready, hadd⟩ | ⟨hother, rfl⟩⟩ := failEntry_cases hentry
    · have hlost : lostVia id (rt :: l) = (rt.rtDst, rt.rtSeqno + 1) :: lostVia id l := by
        simp [lostVia, hthrough]
      obtain ⟨hlt, hcount, -⟩ := ErrorHdr.of_add hadd
      obtain ⟨hrest, hroom⟩ := ih hloop (by omega)
      refine ⟨?_, ?_⟩
      · exact forall_mem_cons.mpr ⟨fun _ => hready, hrest⟩
      · rw [hlost, length_cons]
        omega
    · have hlost : lostVia id (rt :: l) = lostVia id l := by simp [lostVia, hother]
      obtain ⟨hrest, hroom⟩ := ih hloop hfit
      rw [hlost]
      exact ⟨forall_mem_cons.mpr ⟨fun h => absurd h hother, hrest⟩, hroom⟩

/-- What the packet for `sendError` lists; no packet lists nothing. -/
def reported (sent : Option ErrorHdr) : List (ℕ × ℕ) := sent.elim [] ErrorHdr.listed

theorem reported_sentError (re : ErrorHdr) : reported (sentError re) = re.listed := by
  unfold sentError
  by_cases h : 0 < re.destCount.toNat
  · rw [if_pos h]
    rfl
  · have hzero : re.destCount.toNat = 0 := by omega
    rw [if_neg h, ErrorHdr.listed, hzero, take_zero]
    rfl

/-- **The failure of a neighbour is reported exactly**: the routes through it are taken down, with a new
sequence number, no others are, and the packet lists every one of their destinations once. -/
def FailureExact (id : ℕ) (t : RTable) : Prop :=
  ∃ sent, handleFailure id t = some (t.entries.map (failed id), sent) ∧
    reported sent = lostVia id t.entries ∧ ((reported sent).map Prod.fst).Nodup

theorem lostVia_nodup (id : ℕ) (t : RTable) : ((lostVia id t.entries).map Prod.fst).Nodup := by
  have hsub : ((lostVia id t.entries).map Prod.fst).Sublist (t.entries.map RtEntry.rtDst) := by
    rw [lostVia, map_map]
    exact filter_sublist.map RtEntry.rtDst
  exact t.distinct.sublist hsub

theorem failureExact_iff :
    FailureExact id t ↔ AllReady id t.entries ∧ (lostVia id t.entries).length ≤ 100 := by
  have hzero : ErrorHdr.new.destCount.toNat = 0 := rfl
  constructor
  · rintro ⟨sent, hcall, -⟩
    obtain ⟨r, hloop, -⟩ := Option.map_eq_some_iff.mp hcall
    have := ready_of_failEntries hloop (by omega)
    rwa [hzero, Nat.zero_add] at this
  · rintro ⟨hready, hroom⟩
    obtain ⟨re, hloop, -, hlisted⟩ := @failEntries_spec id .new t.entries hready (by omega)
    rw [ErrorHdr.listed_new, nil_append] at hlisted
    refine ⟨sentError re, by rw [handleFailure, hloop]; rfl, ?_, ?_⟩
    · rw [reported_sentError, hlisted]
    · rw [reported_sentError, hlisted]
      exact lostVia_nodup id t

/-! ## Received errors -/

/-- What the loop of `recvError` works on: the table, the interface queue with what is dropped from it,
and the packet that it fills. -/
structure ErrorState where
  entries : List RtEntry
  ifqueue : List Packet
  dropped : List Packet
  nre : ErrorHdr

/-- `while ((pkt = ifqueue->filter(saddr))) drop(pkt, …)`. -/
def ErrorState.dropQueued (saddr : ℕ) (st : ErrorState) : ErrorState :=
  { st with
    ifqueue := st.ifqueue.filter (fun p => p.nextHop ≠ saddr)
    dropped := st.dropped ++ st.ifqueue.filter (fun p => p.nextHop = saddr) }

/-- The body of the loop of `recvError`. -/
def errorEntry (saddr : ℕ) (st : ErrorState) (u : ℕ × ℕ) : Option ErrorState :=
  match st.entries.find? (fun rt => rt.rtDst = u.1) with
  | none => some st
  | some rt =>
    if rt.Through saddr ∧ rt.rtSeqno ≤ u.2 then do
      assert (rt.rtFlags = .up)
      assert (rt.rtSeqno % 2 = 0)
      let rt := { rt with rtSeqno := u.2 }.rtDown
      let st := st.dropQueued saddr
      if rt.rtPclist = [] then
        return { st with entries := modifyEntry u.1 (fun _ => rt) st.entries }
      else do
        let nre ← st.nre.add rt.rtDst rt.rtSeqno
        return { st with
          entries := modifyEntry u.1 (fun _ => { rt with rtPclist := [] }) st.entries
          nre }
    else some st

/-- `recvError`: what it leaves and the packet for `sendError`. -/
def recvErrorHdr (saddr : ℕ) (re : ErrorHdr) (ifqueue : List Packet) (t : RTable) :
    Option (ErrorState × Option ErrorHdr) :=
  let st : ErrorState := { entries := t.entries, ifqueue, dropped := [], nre := .new }
  let loop := (List.range re.destCount.toNat).foldlM
    (fun st i => (re.unreachable i).bind (errorEntry saddr st)) st
  loop.map (fun st => (st, sentError st.nre))

/-- The sequence number with which a list of unreachable destinations takes a route down. -/
def lostBy (saddr : ℕ) (l : List (ℕ × ℕ)) (rt : RtEntry) : Option ℕ :=
  if rt.Through saddr then (l.find? (fun u => u.1 = rt.rtDst ∧ rt.rtSeqno ≤ u.2)).map Prod.snd else none

def struck (saddr : ℕ) (l : List (ℕ × ℕ)) (rt : RtEntry) : RtEntry :=
  (lostBy saddr l rt).elim rt (fun seqno => { rt.takenDown seqno with rtPclist := [] })

/-- What a route error propagates: the lost routes with precursors. -/
def Propagates (saddr : ℕ) (l : List (ℕ × ℕ)) (t : RTable) (u : ℕ × ℕ) : Prop :=
  ∃ rt ∈ t.entries, rt.rtDst = u.1 ∧ lostBy saddr l rt = some u.2 ∧ rt.rtPclist ≠ []

/-- The routes that a list takes down can be taken down. -/
def StruckReady (saddr : ℕ) (l : List (ℕ × ℕ)) (t : RTable) : Prop :=
  ∀ rt ∈ t.entries, (lostBy saddr l rt).isSome → rt.Ready

/-- The state of the loop after the destinations `l`. -/
structure ErrorInv (saddr : ℕ) (t : RTable) (l : List (ℕ × ℕ)) (st : ErrorState) : Prop where
  entries : st.entries = t.entries.map (struck saddr l)
  listed : ∀ u, u ∈ st.nre.listed ↔ Propagates saddr l t u
  nodup : (st.nre.listed.map Prod.fst).Nodup
  count : st.nre.destCount.toNat ≤ l.length

variable {u : ℕ × ℕ} {us : List (ℕ × ℕ)} {st st' : ErrorState}

theorem lostBy_append (rt : RtEntry) :
    lostBy saddr (us ++ [u]) rt = (lostBy saddr us rt).or
      (if rt.Through saddr ∧ u.1 = rt.rtDst ∧ rt.rtSeqno ≤ u.2 then some u.2 else none) := by
  unfold lostBy
  by_cases hthrough : rt.Through saddr
  · rw [if_pos hthrough, if_pos hthrough, find?_append]
    cases us.find? (fun u => u.1 = rt.rtDst ∧ rt.rtSeqno ≤ u.2) with
    | some v => rfl
    | none =>
      by_cases hu : u.1 = rt.rtDst ∧ rt.rtSeqno ≤ u.2
      · simp [hthrough]
      · simp [hu]
  · simp [hthrough]

@[simp] theorem struck_dst (saddr : ℕ) (l : List (ℕ × ℕ)) (rt : RtEntry) :
    (struck saddr l rt).rtDst = rt.rtDst := by
  unfold struck
  cases lostBy saddr l rt <;> rfl

theorem struck_of_none (h : lostBy saddr us rt = none) : struck saddr us rt = rt := by
  rw [struck, h]
  rfl

theorem not_through_struck (h : (lostBy saddr us rt).isSome) : ¬ (struck saddr us rt).Through saddr := by
  obtain ⟨s, hs⟩ := Option.isSome_iff_exists.mp h
  rw [struck, hs]
  exact fun hthrough => hthrough.1 rfl

theorem modifyEntry_map {g : RtEntry → RtEntry} {f : RtEntry → RtEntry} {d : ℕ}
    (hg : ∀ rt, (g rt).rtDst = rt.rtDst) (hnd : (l.map RtEntry.rtDst).Nodup) :
    modifyEntry d f (l.map g) = l.map (fun rt => if rt.rtDst = d then f (g rt) else g rt) := by
  induction l with
  | nil => rfl
  | cons rt l ih =>
    obtain ⟨hrt, hnd'⟩ := nodup_cons.mp hnd
    rw [map_cons, modifyEntry, hg, map_cons]
    by_cases hd : rt.rtDst = d
    · rw [if_pos hd, if_pos hd]
      refine congrArg _ (map_congr_left (fun x hx => ?_))
      have hne : x.rtDst ≠ d := fun he => hrt (mem_map.mpr ⟨x, hx, he.trans hd.symm⟩)
      rw [if_neg hne]
    · rw [if_neg hd, if_neg hd, ih hnd']

theorem find_struck (hinv : ErrorInv saddr t us st) (d : ℕ) :
    st.entries.find? (fun rt => rt.rtDst = d) =
      (t.entries.find? (fun rt => rt.rtDst = d)).map (struck saddr us) := by
  rw [hinv.entries, find?_map]
  simp only [Function.comp_def, struck_dst]

theorem eq_of_dst {rt' : RtEntry} (h : rt ∈ t.entries) (h' : rt' ∈ t.entries)
    (he : rt.rtDst = rt'.rtDst) : rt = rt' :=
  inj_on_of_nodup_map t.distinct h h' he

theorem ErrorInv.skip (hinv : ErrorInv saddr t us st)
    (hmiss : ∀ rt ∈ t.entries, lostBy saddr us rt = none →
      ¬ (rt.Through saddr ∧ u.1 = rt.rtDst ∧ rt.rtSeqno ≤ u.2)) :
    errorEntry saddr st u = some st ∧ ErrorInv saddr t (us ++ [u]) st ∧
      ∀ rt ∈ t.entries, lostBy saddr (us ++ [u]) rt = lostBy saddr us rt := by
  have hsame : ∀ rt ∈ t.entries, lostBy saddr (us ++ [u]) rt = lostBy saddr us rt := by
    intro rt hrt
    rw [lostBy_append]
    cases hlost : lostBy saddr us rt with
    | some s => rfl
    | none => rw [if_neg (hmiss rt hrt hlost)]; rfl
  refine ⟨?_, ⟨?_, fun v => ?_, hinv.nodup, ?_⟩, hsame⟩
  · unfold errorEntry
    rw [find_struck hinv]
    cases hfind : t.entries.find? (fun rt => rt.rtDst = u.1) with
    | none => rfl
    | some rt =>
      have hmem : rt ∈ t.entries := mem_of_find?_eq_some hfind
      have hdst : rt.rtDst = u.1 := by simpa using find?_some hfind
      have hnot : ¬ ((struck saddr us rt).Through saddr ∧ (struck saddr us rt).rtSeqno ≤ u.2) := by
        cases hlost : lostBy saddr us rt with
        | some s => exact fun h => not_through_struck (by rw [hlost]; rfl) h.1
        | none =>
          rw [struck_of_none hlost]
          exact fun h => hmiss rt hmem hlost ⟨h.1, hdst.symm, h.2⟩
      exact if_neg hnot
  · rw [hinv.entries]
    refine map_congr_left (fun rt hrt => ?_)
    rw [struck, struck, hsame rt hrt]
  · rw [hinv.listed]
    refine exists_congr (fun rt => and_congr_right (fun hrt => ?_))
    rw [hsame rt hrt]
  · have := hinv.count
    rw [length_append, length_singleton]
    omega

theorem find_dst (hmem : rt ∈ t.entries) :
    t.entries.find? (fun x => x.rtDst = rt.rtDst) = some rt := by
  obtain ⟨x, hx⟩ := Option.isSome_iff_exists.mp
    (find?_isSome.mpr ⟨rt, hmem, by simp⟩ :
      (t.entries.find? (fun x => x.rtDst = rt.rtDst)).isSome = true)
  have hdst : x.rtDst = rt.rtDst := by simpa using find?_some hx
  rw [hx, eq_of_dst (mem_of_find?_eq_some hx) hmem hdst]

/-- The destination `u` takes down the route `rt`, which no destination before it took down. -/
structure Hit (saddr : ℕ) (t : RTable) (us : List (ℕ × ℕ)) (u : ℕ × ℕ) (rt : RtEntry) : Prop where
  mem : rt ∈ t.entries
  fresh : lostBy saddr us rt = none
  through : rt.Through saddr
  dst : u.1 = rt.rtDst
  seqno : rt.rtSeqno ≤ u.2

theorem Hit.find (h : Hit saddr t us u rt) (hinv : ErrorInv saddr t us st) :
    st.entries.find? (fun x => x.rtDst = u.1) = some rt := by
  rw [find_struck hinv, h.dst, find_dst h.mem, Option.map_some, struck_of_none h.fresh]

theorem Hit.abort (h : Hit saddr t us u rt) (hinv : ErrorInv saddr t us st) (hready : ¬ rt.Ready) :
    errorEntry saddr st u = none := by
  unfold errorEntry
  rw [h.find hinv]
  dsimp only
  rw [if_pos ⟨h.through, h.seqno⟩]
  by_cases hup : rt.rtFlags = .up
  · have hodd : ¬ rt.rtSeqno % 2 = 0 := fun he => hready ⟨hup, he⟩
    rw [assert_pos hup, assert_neg hodd]
    rfl
  · rw [assert_neg hup]
    rfl

theorem Hit.lostBy (h : Hit saddr t us u rt) {x : RtEntry} (hx : x ∈ t.entries) :
    lostBy saddr (us ++ [u]) x = if x = rt then some u.2 else lostBy saddr us x := by
  rw [lostBy_append]
  by_cases he : x = rt
  · subst he
    rw [h.fresh, if_pos ⟨h.through, h.dst, h.seqno⟩, if_pos rfl]
    rfl
  · have hne : ¬ (x.Through saddr ∧ u.1 = x.rtDst ∧ x.rtSeqno ≤ u.2) :=
      fun hc => he (eq_of_dst hx h.mem (hc.2.1.symm.trans h.dst))
    rw [if_neg hne, if_neg he, Option.or_none]

theorem Hit.modify (h : Hit saddr t us u rt) (hinv : ErrorInv saddr t us st) :
    modifyEntry u.1 (fun _ => { rt.takenDown u.2 with rtPclist := [] }) st.entries =
      t.entries.map (struck saddr (us ++ [u])) := by
  rw [hinv.entries, modifyEntry_map (struck_dst saddr us) t.distinct]
  refine map_congr_left (fun x hx => ?_)
  rw [struck, struck, h.lostBy hx, h.dst]
  by_cases he : x = rt
  · subst he
    rw [if_pos rfl, if_pos rfl]
    rfl
  · have hne : x.rtDst ≠ rt.rtDst := fun hdst => he (eq_of_dst hx h.mem hdst)
    rw [if_neg hne, if_neg he]

theorem Hit.propagates (h : Hit saddr t us u rt) (v : ℕ × ℕ) :
    Propagates saddr (us ++ [u]) t v ↔ Propagates saddr us t v ∨ v = u ∧ rt.rtPclist ≠ [] := by
  constructor
  · rintro ⟨x, hx, hdst, hlost, hpc⟩
    rw [h.lostBy hx] at hlost
    by_cases he : x = rt
    · subst he
      rw [if_pos rfl] at hlost
      exact Or.inr ⟨Prod.ext (hdst.symm.trans h.dst.symm) (Option.some.inj hlost).symm, hpc⟩
    · rw [if_neg he] at hlost
      exact Or.inl ⟨x, hx, hdst, hlost, hpc⟩
  · rintro (⟨x, hx, hdst, hlost, hpc⟩ | ⟨rfl, hpc⟩)
    · refine ⟨x, hx, hdst, ?_, hpc⟩
      have hne : x ≠ rt := by
        rintro rfl
        rw [h.fresh] at hlost
        exact absurd hlost (by simp)
      rw [h.lostBy hx, if_neg hne, hlost]
    · exact ⟨rt, h.mem, h.dst.symm, by rw [h.lostBy h.mem, if_pos rfl], hpc⟩

theorem ErrorInv.strike (hinv : ErrorInv saddr t us st) (h : Hit saddr t us u rt) (hready : rt.Ready)
    (hroom : us.length < 100) :
    ∃ st', errorEntry saddr st u = some st' ∧ ErrorInv saddr t (us ++ [u]) st' := by
  have hcount := hinv.count
  have hlen : (us ++ [u]).length = us.length + 1 := length_append
  have hmodify := h.modify hinv
  have hfresh : u.1 ∉ st.nre.listed.map Prod.fst := by
    intro hmem
    obtain ⟨v, hv, hvu⟩ := mem_map.mp hmem
    obtain ⟨x, hx, hdst, hlost, -⟩ := (hinv.listed v).mp hv
    obtain rfl := eq_of_dst hx h.mem (hdst.trans (hvu.trans h.dst))
    rw [h.fresh] at hlost
    exact absurd hlost (by simp)
  unfold errorEntry
  rw [h.find hinv]
  dsimp only
  rw [if_pos ⟨h.through, h.seqno⟩, assert_pos hready.1, assert_pos hready.2, RtEntry.rtDown_eq hready]
  simp only [Option.bind_eq_bind]
  by_cases hpc : rt.rtPclist = []
  · have hsame : { rt.takenDown u.2 with rtPclist := [] } = rt.takenDown u.2 := by
      unfold RtEntry.takenDown
      rw [hpc]
    rw [hsame] at hmodify
    have hpc' : (rt.takenDown u.2).rtPclist = [] := hpc
    rw [if_pos hpc']
    refine ⟨_, rfl, hmodify, fun v => ?_, hinv.nodup, ?_⟩
    · rw [h.propagates]
      simp only [hpc, ne_eq, not_true_eq_false, and_false, or_false]
      exact hinv.listed v
    · show st.nre.destCount.toNat ≤ _
      omega
  · have hpc' : ¬ (rt.takenDown u.2).rtPclist = [] := hpc
    obtain ⟨nre, hadd, hnre, hlisted⟩ :=
      ErrorHdr.add_spec (show st.nre.destCount.toNat < 100 by omega) rt.rtDst u.2
    have hadd' : (st.dropQueued saddr).nre.add (rt.takenDown u.2).rtDst (rt.takenDown u.2).rtSeqno =
        some nre := hadd
    have hpair : (rt.rtDst, u.2) = u := Prod.ext h.dst.symm rfl
    rw [hpair] at hlisted
    rw [if_neg hpc', hadd', Option.bind_some]
    refine ⟨_, rfl, hmodify, fun v => ?_, ?_, ?_⟩
    · rw [h.propagates]
      rw [hlisted, mem_append, mem_singleton, hinv.listed]
      exact or_congr_right (and_iff_left hpc).symm
    · rw [hlisted, map_append]
      refine List.nodup_append.mpr ⟨hinv.nodup, nodup_singleton _, ?_⟩
      rintro a ha b hb rfl
      rw [mem_singleton.mp hb] at ha
      exact hfresh ha
    · dsimp only
      omega

theorem errorInv_start (ifqueue : List Packet) :
    ErrorInv saddr t [] { entries := t.entries, ifqueue, dropped := [], nre := .new } where
  entries := by
    have hid : struck saddr [] = id := by
      funext rt
      exact struck_of_none (by simp [lostBy])
    rw [hid, map_id]
  listed := by
    intro u
    constructor
    · exact fun h => absurd h not_mem_nil
    · rintro ⟨rt, -, -, hlost, -⟩
      exact absurd hlost (by simp [lostBy])
  nodup := by
    exact nodup_nil
  count := le_rfl

theorem isSome_lostBy_append (rt : RtEntry) (h : (lostBy saddr us rt).isSome) (ws : List (ℕ × ℕ)) :
    (lostBy saddr (us ++ ws) rt).isSome := by
  induction ws generalizing us with
  | nil => rwa [append_nil]
  | cons w ws ih =>
    have hone : (lostBy saddr (us ++ [w]) rt).isSome := by
      rw [lostBy_append]
      obtain ⟨s, hs⟩ := Option.isSome_iff_exists.mp h
      rw [hs]
      rfl
    have hrest := ih hone
    rwa [append_assoc, singleton_append] at hrest

/-- **The loop** goes through exactly when the routes that it takes down are ready. -/
theorem errorLoop_iff (ws : List (ℕ × ℕ)) (hinv : ErrorInv saddr t us st)
    (hroom : us.length + ws.length ≤ 100) (hready : StruckReady saddr us t) :
    (StruckReady saddr (us ++ ws) t → ∃ st', ws.foldlM (errorEntry saddr) st = some st' ∧
      ErrorInv saddr t (us ++ ws) st') ∧
    ((ws.foldlM (errorEntry saddr) st).isSome → StruckReady saddr (us ++ ws) t) := by
  induction ws generalizing us st with
  | nil =>
    rw [append_nil]
    exact ⟨fun _ => ⟨st, rfl, hinv⟩, fun _ => hready⟩
  | cons u ws ih =>
    have hshape : us ++ u :: ws = (us ++ [u]) ++ ws := by simp
    have hroom' : (us ++ [u]).length + ws.length ≤ 100 := by
      simp at hroom ⊢
      omega
    rw [hshape, foldlM_cons]
    by_cases hhit : ∃ rt, Hit saddr t us u rt
    · obtain ⟨rt, hhit⟩ := hhit
      by_cases hr : rt.Ready
      · obtain ⟨st', hstep, hinv'⟩ := hinv.strike hhit hr (by simp at hroom; omega)
        rw [hstep, Option.bind_eq_bind, Option.bind_some]
        refine ih hinv' hroom' (fun x hx hlost => ?_)
        rw [hhit.lostBy hx] at hlost
        by_cases he : x = rt
        · exact he ▸ hr
        · rw [if_neg he] at hlost
          exact hready x hx hlost
      · rw [hhit.abort hinv hr]
        constructor
        · intro hall
          refine absurd (hall rt hhit.mem (isSome_lostBy_append rt ?_ ws)) hr
          rw [hhit.lostBy hhit.mem, if_pos rfl]
          rfl
        · exact fun h => absurd h (by simp)
    · have hmiss : ∀ rt ∈ t.entries, lostBy saddr us rt = none →
          ¬ (rt.Through saddr ∧ u.1 = rt.rtDst ∧ rt.rtSeqno ≤ u.2) :=
        fun rt hrt hnone hc => hhit ⟨rt, hrt, hnone, hc.1, hc.2.1, hc.2.2⟩
      obtain ⟨hstep, hinv', hsame⟩ := hinv.skip hmiss
      rw [hstep, Option.bind_eq_bind, Option.bind_some]
      refine ih hinv' hroom' (fun x hx hlost => ?_)
      rw [hsame x hx] at hlost
      exact hready x hx hlost

theorem foldlM_read {σ : Type} {g : ℕ → Option (ℕ × ℕ)} {f : σ → ℕ × ℕ → Option σ} (is : List ℕ)
    (hg : ∀ i ∈ is, (g i).isSome) (s : σ) :
    is.foldlM (fun s i => (g i).bind (f s)) s = (is.filterMap g).foldlM f s := by
  induction is generalizing s with
  | nil => rfl
  | cons i is ih =>
    obtain ⟨u, hu⟩ := Option.isSome_iff_exists.mp (hg i mem_cons_self)
    rw [foldlM_cons, filterMap_cons_some hu, foldlM_cons, hu, Option.bind_some]
    exact congrArg _ (funext (ih (fun j hj => hg j (mem_cons_of_mem i hj))))

theorem readable_of_foldlM {σ : Type} {g : ℕ → Option (ℕ × ℕ)} {f : σ → ℕ × ℕ → Option σ} (is : List ℕ)
    {s : σ} (h : (is.foldlM (fun s i => (g i).bind (f s)) s).isSome) : ∀ i ∈ is, (g i).isSome := by
  induction is generalizing s with
  | nil => exact fun i hi => absurd hi not_mem_nil
  | cons i is ih =>
    rw [foldlM_cons] at h
    cases hu : g i with
    | none =>
      rw [hu] at h
      exact absurd h (by simp)
    | some u =>
      rw [hu, Option.bind_some] at h
      cases hs : f s u with
      | none =>
        rw [hs] at h
        exact absurd h (by simp)
      | some s' =>
        rw [hs] at h
        intro j hj
        rcases mem_cons.mp hj with rfl | hj
        · rw [hu]
          rfl
        · exact ih h j hj

/-- **A route error is handled exactly**: the routes to listed destinations that go through the sender
and have no newer sequence number are taken down, no others are, and the packet that is sent on lists
once every one of their destinations that had precursors. -/
def ErrorExact (saddr : ℕ) (re : ErrorHdr) (ifqueue : List Packet) (t : RTable) : Prop :=
  ∃ st sent, recvErrorHdr saddr re ifqueue t = some (st, sent) ∧
    st.entries = t.entries.map (struck saddr re.listed) ∧
    (∀ u, u ∈ reported sent ↔ Propagates saddr re.listed t u) ∧ ((reported sent).map Prod.fst).Nodup

theorem errorExact_iff {ifqueue : List Packet} :
    ErrorExact saddr re ifqueue t ↔ re.destCount.toNat ≤ 100 ∧ StruckReady saddr re.listed t := by
  have hstart : StruckReady saddr [] t := by
    intro rt _ hlost
    exact absurd hlost (by simp [lostBy])
  have hread : ∀ i, (re.unreachable i).isSome ↔ i < 100 := by
    intro i
    unfold ErrorHdr.unreachable
    by_cases h : i < aodvMaxErrors
    · rw [dif_pos h]
      exact iff_of_true rfl h
    · rw [dif_neg h]
      exact iff_of_false (by simp) h
  have hfits : re.destCount.toNat ≤ 100 → ∀ i ∈ List.range re.destCount.toNat,
      (re.unreachable i).isSome := by
    intro hcount i hi
    have := mem_range.mp hi
    exact (hread i).mpr (by omega)
  have hloop : re.destCount.toNat ≤ 100 → ∀ st : ErrorState,
      (List.range re.destCount.toNat).foldlM
          (fun st i => (re.unreachable i).bind (errorEntry saddr st)) st =
        re.listed.foldlM (errorEntry saddr) st := by
    intro hcount st
    rw [ErrorHdr.listed_eq_filterMap hcount]
    exact foldlM_read _ (hfits hcount) st
  have hlen : re.listed.length ≤ 100 := by
    rw [ErrorHdr.listed, length_take, length_zip, Vector.length_toList, Vector.length_toList,
      Nat.min_self]
    exact Nat.min_le_right _ _
  have hiff := errorLoop_iff re.listed (errorInv_start ifqueue) (by simpa using hlen) hstart
  constructor
  · rintro ⟨st, sent, hcall, -⟩
    obtain ⟨st', hrun, -⟩ := Option.map_eq_some_iff.mp hcall
    have hcount : re.destCount.toNat ≤ 100 := by
      by_contra hbig
      have hread' := readable_of_foldlM (List.range re.destCount.toNat) (by rw [hrun]; rfl) 100
        (mem_range.mpr (by omega))
      exact absurd ((hread 100).mp hread') (by omega)
    rw [hloop hcount] at hrun
    exact ⟨hcount, hiff.2 (by rw [hrun]; rfl)⟩
  · rintro ⟨hcount, hready⟩
    obtain ⟨st, hrun, hinv⟩ := hiff.1 hready
    refine ⟨st, sentError st.nre, ?_, hinv.entries, ?_, ?_⟩
    · rw [recvErrorHdr, hloop hcount, hrun]
      rfl
    · rw [reported_sentError]
      exact hinv.listed
    · rw [reported_sentError]
      exact hinv.nodup

/-! ## The handlers of a node

The handlers of `Node` fill lists instead of arrays; as long as the arrays suffice, they do the same.
-/

theorem modifyEntry_append {pre : List RtEntry} {f : RtEntry → RtEntry}
    (hpre : rt.rtDst ∉ pre.map RtEntry.rtDst) :
    modifyEntry rt.rtDst f (pre ++ rt :: l) = pre ++ f rt :: l := by
  induction pre with
  | nil => exact if_pos rfl
  | cons x pre ih =>
    rw [map_cons, mem_cons, not_or] at hpre
    have hne : ¬ x.rtDst = rt.rtDst := fun he => hpre.1 he.symm
    rw [cons_append, modifyEntry, if_neg hne, ih hpre.2, cons_append]

theorem append_of_find {d : ℕ} (h : l.find? (fun x => x.rtDst = d) = some rt) :
    rt.rtDst = d ∧ ∃ pre post, l = pre ++ rt :: post ∧ rt.rtDst ∉ pre.map RtEntry.rtDst := by
  obtain ⟨hd, pre, post, hl, hpre⟩ := find?_eq_some_iff_append.mp h
  obtain rfl : rt.rtDst = d := by simpa using hd
  exact ⟨rfl, pre, post, hl, by simpa using hpre⟩

theorem Node.modify_append {pre : List RtEntry} {n : Node} (hn : n.rtable = pre ++ rt :: l)
    (hpre : rt.rtDst ∉ pre.map RtEntry.rtDst) (f : RtEntry → RtEntry) :
    n.modify rt.rtDst f = { n with rtable := pre ++ f rt :: l } := by
  rw [Node.modify, hn, modifyEntry_append hpre]

theorem linkFailed_of_failEntry {pre : List RtEntry} {n : Node} {rt' : RtEntry}
    (h : failEntry id rt re = some (rt', re')) (hn : n.rtable = pre ++ rt :: l)
    (hpre : rt.rtDst ∉ pre.map RtEntry.rtDst) :
    Node.linkFailed id (n, re.listed) rt.rtDst =
      some ({ n with rtable := pre ++ rt' :: l }, re'.listed) := by
  have hlookup : n.rtLookup rt.rtDst = some rt := by
    have hnone : pre.find? (fun x => x.rtDst = rt.rtDst) = none :=
      find?_eq_none.mpr (fun x hx hd => hpre (mem_map.mpr ⟨x, hx, by simpa using hd⟩))
    rw [Node.rtLookup, hn, find?_append, hnone, Option.none_or, find?_cons_of_pos (by simp)]
  unfold Node.linkFailed
  dsimp only
  rw [hlookup]
  simp only [Option.bind_eq_bind, Option.bind_some]
  obtain ⟨rfl, ⟨hthrough, hready, hadd⟩ | ⟨hother, rfl⟩⟩ := failEntry_cases h
  · have hdown := RtEntry.rtDown_eq hready (rt.rtSeqno + 1)
    have hagain := @Node.modify_append (rt.takenDown (rt.rtSeqno + 1)) l pre
      { n with rtable := pre ++ rt.takenDown (rt.rtSeqno + 1) :: l } rfl hpre (·.pcDelete id)
    rw [if_pos (show rt.rtHops ≠ infinity2 ∧ rt.rtNexthop = id from hthrough), assert_pos hready.1,
      assert_pos hready.2, Node.modify_append hn hpre, hdown, (ErrorHdr.of_add hadd).2.2, failed, if_pos hthrough]
    exact congrArg (fun n => some (n, _)) hagain
  · rw [if_neg (show ¬ (rt.rtHops ≠ infinity2 ∧ rt.rtNexthop = id) from hother),
      Node.modify_append hn hpre, failed, if_neg hother]
    rfl

theorem linkFailed_of_failEntries {pre l' : List RtEntry} {n : Node}
    (h : failEntries id l re = some (l', re')) (hn : n.rtable = pre ++ l)
    (hnd : ((pre ++ l).map RtEntry.rtDst).Nodup) :
    (l.map RtEntry.rtDst).foldlM (Node.linkFailed id) (n, re.listed) =
      some ({ n with rtable := pre ++ l' }, re'.listed) := by
  induction l generalizing pre l' n re with
  | nil =>
    obtain ⟨rfl, rfl⟩ := Prod.mk.inj (Option.some.inj h)
    rw [← hn]
    rfl
  | cons rt l ih =>
    rw [failEntries, Option.bind_eq_bind, Option.bind_eq_some_iff] at h
    obtain ⟨⟨rt', re₁⟩, hentry, h⟩ := h
    obtain ⟨⟨l₁, re₂⟩, hloop, h⟩ := Option.bind_eq_some_iff.mp h
    obtain ⟨rfl, rfl⟩ := Prod.mk.inj (Option.some.inj h)
    have hpre : rt.rtDst ∉ pre.map RtEntry.rtDst := by
      rw [map_append, map_cons] at hnd
      exact (LinkedList.nodup_middle hnd).2.2.1
    have hdst : rt'.rtDst = rt.rtDst := by
      rw [(failEntry_cases hentry).1, failed]
      split <;> rfl
    have hrest := @ih re₁ (pre ++ [rt']) l₁ { n with rtable := pre ++ rt' :: l } hloop (by simp)
      (by simpa [hdst] using hnd)
    rw [map_cons, foldlM_cons, linkFailed_of_failEntry hentry hn hpre,
      Option.bind_eq_bind, Option.bind_some, hrest]
    simp

/-- **A link failure** leaves the node with the table and sends the packet. -/
theorem handleLinkFailure_of_handleFailure {n : Node} {entries : List RtEntry} {sent : Option ErrorHdr}
    (h : handleFailure id t = some (entries, sent)) (hn : n.rtable = t.entries) :
    n.handleLinkFailure id = some ({ n with rtable := entries }.sendError (reported sent)) := by
  obtain ⟨⟨l', re⟩, hloop, heq⟩ := Option.map_eq_some_iff.mp h
  obtain ⟨rfl, rfl⟩ := Prod.mk.inj heq
  have hrun := linkFailed_of_failEntries hloop (show n.rtable = [] ++ t.entries from hn) t.distinct
  rw [ErrorHdr.listed_new] at hrun
  rw [Node.handleLinkFailure, hn, hrun, reported_sentError]
  rfl

theorem routeError_of_errorEntry {n : Node} (h : errorEntry saddr st u = some st')
    (hn : n.rtable = st.entries) :
    Node.routeError saddr (n, st.nre.listed) u =
      some ({ n with rtable := st'.entries }, st'.nre.listed) := by
  obtain ⟨dst, seqno⟩ := u
  unfold errorEntry at h
  unfold Node.routeError Node.rtLookup
  dsimp only at h ⊢
  rw [hn]
  cases hfind : st.entries.find? (fun rt => rt.rtDst = dst) with
  | none =>
    rw [hfind] at h
    obtain rfl := Option.some.inj h
    rw [← hn]
  | some rt =>
    rw [hfind] at h
    dsimp only at h ⊢
    obtain ⟨rfl, pre, post, hpost, hpre⟩ := append_of_find hfind
    by_cases hhit : rt.Through saddr ∧ rt.rtSeqno ≤ seqno
    · have hhit' : rt.rtHops ≠ infinity2 ∧ rt.rtNexthop = saddr ∧ rt.rtSeqno ≤ seqno :=
        ⟨hhit.1.1, hhit.1.2, hhit.2⟩
      rw [if_pos hhit] at h
      rw [if_pos hhit']
      obtain ⟨_, hup, h⟩ := Option.bind_eq_some_iff.mp h
      obtain ⟨_, heven, h⟩ := Option.bind_eq_some_iff.mp h
      have hready : rt.Ready := ⟨of_assert hup, of_assert heven⟩
      rw [RtEntry.rtDown_eq hready] at h
      rw [hup, heven, Node.modify_append (hn.trans hpost) hpre, RtEntry.rtDown_eq hready]
      have hpc : (rt.takenDown seqno).rtPclist = rt.rtPclist := rfl
      have hwrite : ∀ f, modifyEntry rt.rtDst f (st.dropQueued saddr).entries = pre ++ f rt :: post :=
        fun f => (congrArg (modifyEntry _ f) hpost).trans (modifyEntry_append hpre)
      rw [hpc, hwrite, hwrite] at h
      by_cases hempty : rt.rtPclist = []
      · rw [if_pos hempty] at h ⊢
        obtain rfl := Option.some.inj h
        rfl
      · rw [if_neg hempty] at h ⊢
        obtain ⟨nre, hadd, h⟩ := Option.bind_eq_some_iff.mp h
        obtain rfl := Option.some.inj h
        have hagain := @Node.modify_append (rt.takenDown seqno) post pre
          { n with rtable := pre ++ rt.takenDown seqno :: post } rfl hpre ({ · with rtPclist := [] })
        rw [(ErrorHdr.of_add hadd).2.2]
        exact congrArg (fun n => some (n, _)) hagain
    · have hhit' : ¬ (rt.rtHops ≠ infinity2 ∧ rt.rtNexthop = saddr ∧ rt.rtSeqno ≤ seqno) :=
        fun hc => hhit ⟨⟨hc.1, hc.2.1⟩, hc.2.2⟩
      rw [if_neg hhit] at h
      obtain rfl := Option.some.inj h
      rw [if_neg hhit', ← hn]

theorem routeErrors_of_errorEntries {n : Node} {us : List (ℕ × ℕ)}
    (h : us.foldlM (errorEntry saddr) st = some st') (hn : n.rtable = st.entries) :
    us.foldlM (Node.routeError saddr) (n, st.nre.listed) =
      some ({ n with rtable := st'.entries }, st'.nre.listed) := by
  induction us generalizing st n with
  | nil =>
    obtain rfl := Option.some.inj h
    rw [← hn]
    rfl
  | cons u us ih =>
    rw [foldlM_cons, Option.bind_eq_bind, Option.bind_eq_some_iff] at h
    obtain ⟨st₁, hentry, hloop⟩ := h
    rw [foldlM_cons, routeError_of_errorEntry hentry hn]
    exact ih hloop rfl

/-- **A received error** leaves the node with the table and sends the packet. -/
theorem recvError_of_recvErrorHdr {n : Node} {p : Packet} {ifqueue : List Packet}
    {sent : Option ErrorHdr} (hcount : re.destCount.toNat ≤ aodvMaxErrors)
    (h : recvErrorHdr p.saddr re ifqueue t = some (st, sent)) (hn : n.rtable = t.entries) :
    n.recvError p re.listed = some ({ n with rtable := st.entries }.sendError (reported sent)) := by
  have hread : ∀ i ∈ List.range re.destCount.toNat, (re.unreachable i).isSome := by
    intro i hi
    have hlt : i < aodvMaxErrors := lt_of_lt_of_le (mem_range.mp hi) hcount
    rw [ErrorHdr.unreachable, dif_pos hlt]
    rfl
  obtain ⟨st₁, hloop, heq⟩ := Option.map_eq_some_iff.mp h
  obtain ⟨rfl, rfl⟩ := Prod.mk.inj heq
  rw [foldlM_read _ hread, ← ErrorHdr.listed_eq_filterMap hcount] at hloop
  have hrun := routeErrors_of_errorEntries hloop hn
  rw [ErrorHdr.listed_new] at hrun
  rw [Node.recvError, hrun, reported_sentError]
  rfl

/-- **The handlers with arrays refine those of a node**: from the same table they leave the same table, and the
packet they fill lists what the node sends. -/
theorem error_handlers_refine (t : RTable) (n : Node) (hn : n.rtable = t.entries) :
    (∀ id entries sent, handleFailure id t = some (entries, sent) →
      n.handleLinkFailure id = some ({ n with rtable := entries }.sendError (reported sent))) ∧
    ∀ p re ifqueue st sent, re.destCount.toNat ≤ aodvMaxErrors →
      recvErrorHdr p.saddr re ifqueue t = some (st, sent) →
        n.recvError p re.listed = some ({ n with rtable := st.entries }.sendError (reported sent)) :=
  ⟨fun _ _ _ h => handleLinkFailure_of_handleFailure h hn,
    fun _ _ _ _ _ hcount h => recvError_of_recvErrorHdr hcount h hn⟩

/-- A node with a route through neighbour 5, which node 8 uses. -/
def throughFive : RTable where
  entries := [{ RtEntry.new 6 with rtSeqno := 2, rtHops := 2, rtNexthop := 5, rtFlags := .up, rtPclist := [8] }]
  distinct := by decide

/-- A route error for the destination 6. -/
def sixLost : ErrorHdr where
  destCount := 1
  unreachableDst := (Vector.replicate aodvMaxErrors 0).set 0 6 (by decide)
  unreachableDstSeqno := (Vector.replicate aodvMaxErrors 0).set 0 4 (by decide)

/-- Neighbour 5 fails, or it reports that its route is lost: the destination 6 is reported with the next sequence
number, or with the reported one. -/
theorem error_handlers_refine_five :
    ({ Node.init 1 with rtable := throughFive.entries } : Node).handleLinkFailure 5 =
      some (({ Node.init 1 with rtable := throughFive.entries.map (failed 5) } : Node).sendError [(6, 3)]) ∧
    ∃ entries, ({ Node.init 1 with rtable := throughFive.entries } : Node).recvError
        ⟨5, none, 1, 0, 0, true, .rerr [(6, 4)]⟩ [(6, 4)] =
      some (({ Node.init 1 with rtable := entries } : Node).sendError [(6, 4)]) := by
  obtain ⟨hfail, hreceive⟩ := error_handlers_refine throughFive { Node.init 1 with rtable := throughFive.entries } rfl
  refine ⟨hfail 5 _ _ rfl, ?_⟩
  obtain ⟨⟨st, sent⟩, hrun⟩ : ∃ r, recvErrorHdr 5 sixLost [] throughFive = some r :=
    Option.isSome_iff_exists.mp (by decide +kernel)
  have hreported : (recvErrorHdr 5 sixLost [] throughFive).map (fun r => reported r.2) = some [(6, 4)] := by
    decide +kernel
  rw [hrun] at hreported
  have hsent : reported sent = [(6, 4)] := Option.some.inj hreported
  have hlisted : sixLost.listed = [(6, 4)] := by decide +kernel
  have hrefines := hreceive ⟨5, none, 1, 0, 0, true, .rerr [(6, 4)]⟩ sixLost [] st sent (by decide) hrun
  rw [hlisted, hsent] at hrefines
  exact ⟨st.entries, hrefines⟩

/-- **The route errors list exactly the lost destinations** when the routes that are taken down pass
the assertions and the arrays have room: for a failed neighbour, as many cells as routes go through it,
and for a received error, as many as it counts. -/
theorem route_errors_exact_iff (t : RTable) :
    (∀ id, FailureExact id t ↔
      (∀ rt ∈ t.entries, rt.Through id → rt.Ready) ∧
        (t.entries.filter (fun rt => rt.Through id)).length ≤ aodvMaxErrors) ∧
    (∀ saddr re ifqueue, ErrorExact saddr re ifqueue t ↔
      re.destCount.toNat ≤ aodvMaxErrors ∧ StruckReady saddr re.listed t) := by
  refine ⟨fun id => ?_, fun saddr re ifqueue => errorExact_iff⟩
  have hlen : (t.entries.filter (fun rt => rt.Through id)).length = (lostVia id t.entries).length := by
    rw [lostVia, length_map]
  rw [hlen]
  exact failureExact_iff

/-- A hundred and one routes through neighbour 5. -/
def manyRoutes : RTable where
  entries := (List.range 101).map
    (fun d => { RtEntry.new (d + 6) with rtHops := 2, rtNexthop := 5, rtFlags := .up })
  distinct := by decide +kernel

/-- One more route than the arrays have cells, and a route under local repair. -/
theorem error_arrays_overflow :
    (handleFailure 5 manyRoutes).isNone ∧ ¬ FailureExact 5 manyRoutes ∧
      ¬ FailureExact 5 ⟨[{ RtEntry.new 6 with rtHops := 2, rtNexthop := 5, rtFlags := .inRepair }],
        by decide⟩ := by
  refine ⟨by decide +kernel, fun h => ?_, fun h => ?_⟩
  · exact absurd (failureExact_iff.mp h).2 (by decide +kernel)
  · exact absurd ((failureExact_iff.mp h).1 _ mem_cons_self (by decide)) (by decide)

end NetSim.Aodv
