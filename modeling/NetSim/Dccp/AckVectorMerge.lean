import NetSim.Dccp.AckVectorWire

/-! # Merging two ack vectors

`mergeWith` walks the packets of the other vector from the oldest to the newest and adds each of
them. The states are merged by `ackv_cons_`, and a packet that is older than the vector is passed
over (`mergeWith_states`). The result, though, is never set to true on this path: it is right just
when the ring has no room for the merged packets (`mergeWith_right`).

How many cells a merge needs is a matter of the run lengths alone (`mergeCells`).
-/

namespace NetSim.DccpAckVector

open List

variable {v v' : DccpAckVector} {bs l r : List ℕ} {b s n lo hi : ℕ} {st : PacketState}

/-! ## The merge -/

/-- The number of packets that a walk returns: `seq_p_walk_` wraps on its way to `seq_head_`. -/
def walkLength (v : DccpAckVector) : ℕ := u32 ((v.seqHead : ℤ) - v.seqTail) + 1

/-- The loop of `mergeWith`: the vector, and `result`. -/
def mergeLoop (ackv : DccpAckVector) (result : Bool) :
    ℕ → PacketWalk → DccpAckVector → DccpAckVector × Bool
  | 0, _, v => (v, result)
  | fuel + 1, w, v =>
    match ackv.prevPacket w with
    | none => (v, result)
    | some ((seqnum, state), w) =>
      let r := addPacket seqnum state v.growths v
      if r.2 = false ∧ r.1.seqTail ≤ seqnum then (r.1, false)
      else mergeLoop ackv result fuel w r.1

/-- `mergeWith`; `none` stands for `NULL`. -/
def mergeWith (v : DccpAckVector) : Option DccpAckVector → DccpAckVector × Bool
  | none => (v, false)
  | some ackv =>
    let result := false
    if ackv.size = 0 then (v, true)
    else if v.size = 0 then
      let r := ackv.getAckVector ackv.size
      if 0 < r.1 then
        let r := setAckVector r.2.1 r.2.2 ackv.seqHead ackv.ene v.growths v
        if r.2 then (r.1, true) else (r.1, result)
      else (v, result)
    else mergeLoop ackv result ackv.walkLength ackv.startReversePacketWalk v

/-! ## What the merge is for -/

/-- The packets of a vector, from the oldest to the newest. -/
def packets (v : DccpAckVector) : List (ℕ × PacketState) :=
  (ascending v.seqTail v.seqHead).map (fun s => (s, (v.getState s).getD .notRecv))

/-- Every packet that is not older than the vector is added. -/
def Fits : DccpAckVector → List (ℕ × PacketState) → Prop
  | _, [] => True
  | v, (s, st) :: ps =>
    ((addPacket s st v.growths v).2 = true ∨ s < v.seqTail) ∧
      Fits (addPacket s st v.growths v).1 ps

/-- The state of a packet in the merge of `v` and `ackv`. -/
def mergedState (v ackv : DccpAckVector) (s : ℕ) : Option PacketState :=
  match v.getState s, ackv.getState s with
  | some old, some new => some (old.cons new)
  | some old, none => some old
  | none, some new => if v.seqHead < s then some new else none
  | none, none => if v.seqHead < s ∧ s < ackv.seqTail then some .notRecv else none

/-- The result of `mergeWith` is whether every packet was added, and when it is true then the states
are merged and the nonce echo is as it was. -/
def MergeRight (v ackv : DccpAckVector) : Prop :=
  ((v.mergeWith (some ackv)).2 = true ↔ Fits v ackv.packets) ∧
    ((v.mergeWith (some ackv)).2 = true →
      (∀ s, (v.mergeWith (some ackv)).1.getState s = mergedState v ackv s) ∧
        (v.mergeWith (some ackv)).1.ene = v.ene)

/-- The bytes after packets are added, those older than `lo` passed over. -/
def mergeCells (lo : ℕ) : ℕ → List ℕ → List (ℕ × PacketState) → List ℕ
  | _, bs, [] => bs
  | hi, bs, (s, st) :: ps =>
    if s < lo then mergeCells lo hi bs ps
    else mergeCells lo (max hi s) (addCells hi bs s st) ps

/-! ## The walk and the list -/

/-- The merge of a list of packets. -/
def mergeList (result : Bool) : List (ℕ × PacketState) → DccpAckVector → DccpAckVector × Bool
  | [], v => (v, result)
  | p :: ps, v =>
    let r := addPacket p.1 p.2 v.growths v
    if r.2 = false ∧ r.1.seqTail ≤ p.1 then (r.1, false) else mergeList result ps r.1

theorem mergeLoop_eq (ackv : DccpAckVector) (result : Bool) (fuel : ℕ) (w : PacketWalk)
    (v : DccpAckVector) :
    mergeLoop ackv result fuel w v = mergeList result (collect ackv.prevPacket fuel w) v := by
  induction fuel generalizing w v with
  | zero => rfl
  | succ fuel ih =>
    rw [mergeLoop, collect]
    cases hnext : ackv.prevPacket w with
    | none => rfl
    | some p =>
      dsimp only
      rw [mergeList, ih]

theorem mergeList_false (ps : List (ℕ × PacketState)) (v : DccpAckVector) :
    (mergeList false ps v).2 = false := by
  induction ps generalizing v with
  | nil => rfl
  | cons p ps ih =>
    rw [mergeList]
    split
    · rfl
    · exact ih _

theorem Shows.tells (h : Shows v bs) : Tells v bs (fun s => (v.getState s).getD .notRecv) := by
  intro s h1 h2
  have hcount := h.count
  have hlt : v.seqHead - s < (expand bs).length := by omega
  have hstate : v.getState s = some (expand bs)[v.seqHead - s] := by
    rw [getState_spec h h1 h2, getElem?_eq_getElem hlt]
  show _ = some ((v.getState s).getD .notRecv)
  rw [hstate, getElem?_eq_getElem hlt]
  rfl

theorem Shows.holding (h : Shows v bs) :
    Holding v (fun s => (v.getState s).getD .notRecv) v.seqTail v.seqHead := by
  refine ⟨⟨bs, h, h.tells⟩, rfl, rfl, fun s hs => ?_⟩
  rw [getState_none (by omega)]
  rfl

/-- **The merge** of two vectors that are not empty adds the packets of the other one. -/
theorem mergeWith_eq {ackv : DccpAckVector} {bs' : List ℕ} (h : Shows v bs) (h' : Shows ackv bs') :
    v.mergeWith (some ackv) = mergeList false ackv.packets v := by
  have hsize := h.size
  have hpos := h.size_pos
  have hsize' := h'.size
  have hpos' := h'.size_pos
  have hle := h'.tail_le
  have hlt := h'.seqLt
  have hlen : ackv.walkLength = ackv.seqHead + 1 - ackv.seqTail := by
    have := u32_eq (x := (ackv.seqHead : ℤ) - ackv.seqTail) (by omega) (by omega)
    rw [walkLength]
    omega
  rw [mergeWith]
  rw [if_neg (by omega), if_neg (by omega), mergeLoop_eq, ascending_walk h' h'.tells hlen.ge]
  rfl

/-! ## Room -/

theorem length_mergeCells_ge (ps : List (ℕ × PacketState)) (hi : ℕ) (bs : List ℕ) :
    bs.length ≤ (mergeCells lo hi bs ps).length := by
  induction ps generalizing hi bs with
  | nil => exact le_rfl
  | cons p ps ih =>
    rw [mergeCells]
    split
    · exact ih _ _
    · exact length_addCells_ge.trans (ih _ _)

/-- The packets of a list are in order, and near the vector. -/
structure Close (v : DccpAckVector) (ps : List (ℕ × PacketState)) : Prop where
  sorted : ps.Pairwise (fun p q => p.1 < q.1)
  bounded : ∀ p ∈ ps, p.1 < 2 ^ 32
  ahead : ∀ p ∈ ps, p.1 < v.seqTail + 2 ^ 31
  behind : ∀ p ∈ ps, v.seqHead ≤ p.1 + 2 ^ 31

theorem Close.tail {p : ℕ × PacketState} {ps : List (ℕ × PacketState)} (h : Close v (p :: ps))
    (htail : v'.seqTail = v.seqTail) (hhead : v'.seqHead ≤ max v.seqHead p.1) : Close v' ps := by
  obtain ⟨hs, hb, ha, hd⟩ := h
  obtain ⟨hfirst, hsorted⟩ := pairwise_cons.mp hs
  refine ⟨hsorted, fun q hq => hb q (mem_cons_of_mem _ hq), fun q hq => ?_, fun q hq => ?_⟩
  · rw [htail]
    exact ha q (mem_cons_of_mem _ hq)
  · have := hfirst q hq
    have := hd q (mem_cons_of_mem _ hq)
    omega

theorem fits_iff {ps : List (ℕ × PacketState)} (h : Shows v bs) (hps : Close v ps) :
    Fits v ps ↔ (mergeCells v.seqTail v.seqHead bs ps).length ≤ dccpMaxAckvSize := by
  induction ps generalizing v bs with
  | nil => exact ⟨fun _ => h.le.trans h.maxLe, fun _ => trivial⟩
  | cons p ps ih =>
    obtain ⟨s, st⟩ := p
    have hmem : (s, st) ∈ (s, st) :: ps := mem_cons_self
    have hbehind : v.seqHead ≤ s + 2 ^ 31 := hps.behind _ hmem
    have hahead : s < v.seqTail + 2 ^ 31 := hps.ahead _ hmem
    have hle := h.tail_le
    rw [Fits, mergeCells]
    rcases Nat.lt_or_ge s v.seqTail with hold | hin
    · -- older than the vector: nothing happens
      obtain ⟨k, hk⟩ : ∃ k, v.growths = k + 1 :=
        Nat.exists_eq_add_one_of_ne_zero (growths_pos h.maxLe).ne'
      rw [if_pos hold, hk, addPacket_removed h hold hbehind, and_iff_right (Or.inr hold)]
      exact ih h (hps.tail rfl (Nat.le_max_left _ _))
    · rw [if_neg (by omega)]
      rcases @addPacket_room v bs s st h (hps.bounded _ hmem) hin (by omega) hbehind with
        ⟨ht, hs', hhead, htail⟩ | ⟨hlong, hf, -⟩
      · rw [and_iff_right (Or.inl ht), ih hs' (hps.tail htail hhead.le), hhead, htail]
      · have hge := @length_mergeCells_ge v.seqTail ps (max v.seqHead s)
          (addCells v.seqHead bs s st)
        constructor
        · rintro ⟨ht | hlt, -⟩
          · rw [hf] at ht
            cases ht
          · omega
        · intro hfits
          omega

/-! ## The states -/

/-- What the merge of a list leaves: the packets up to the newest, with the states merged. -/
theorem mergeList_holding {f q : ℕ → PacketState} {keys : List ℕ} (h : Holding v f lo hi)
    (hkeys : Close v (keys.map (fun s => (s, q s))))
    (hfits : Fits v (keys.map (fun s => (s, q s)))) :
    ∃ hi', Holding (mergeList false (keys.map (fun s => (s, q s))) v).1
        (fun s => if s ∈ keys ∧ lo ≤ s then (f s).cons (q s) else f s) lo hi' ∧
      ∀ s, s ≤ hi' ↔ s ≤ hi ∨ ∃ k ∈ keys, s ≤ k := by
  induction keys generalizing v f hi with
  | nil => exact ⟨hi, by simpa [mergeList] using h, fun s => by simp⟩
  | cons s keys ih =>
    obtain ⟨hadded, hrest⟩ := hfits
    have hmem : (s, q s) ∈ (s :: keys).map (fun s => (s, q s)) := by simp
    have hbehind : v.seqHead ≤ s + 2 ^ 31 := hkeys.behind _ hmem
    have hahead : s < v.seqTail + 2 ^ 31 := hkeys.ahead _ hmem
    have hbound : s < 2 ^ 32 := hkeys.bounded _ hmem
    have hlo := h.seqTail
    have hhi := h.seqHead
    obtain ⟨bs, hshows, -⟩ := h.bytes
    have hle := hshows.tail_le
    have hfirst : ∀ k ∈ keys, s < k := by
      intro k hk
      exact (pairwise_cons.mp hkeys.sorted).1 (k, q k) (mem_map_of_mem hk)
    have hnew : s ∉ keys := fun hin => Nat.lt_irrefl s (hfirst s hin)
    -- the packet is added, or older than the vector
    have hstep : ∃ hi₁, Holding (addPacket s (q s) v.growths v).1
        (fun s' => if s = s' ∧ lo ≤ s then (f s').cons (q s') else f s') lo hi₁ ∧
        (∀ s', s' ≤ hi₁ ↔ s' ≤ hi ∨ s' ≤ s) ∧
        mergeList false ((s :: keys).map (fun s => (s, q s))) v =
          mergeList false (keys.map (fun s => (s, q s))) (addPacket s (q s) v.growths v).1 := by
      rcases Nat.lt_or_ge s lo with hold | hin
      · obtain ⟨k, hk⟩ : ∃ k, v.growths = k + 1 :=
          Nat.exists_eq_add_one_of_ne_zero (growths_pos hshows.maxLe).ne'
        have hskip := @addPacket_removed v bs s (q s) k hshows (by omega) hbehind
        rw [← hk] at hskip
        rw [hskip, map_cons, mergeList]
        rw [hskip, if_neg (by dsimp only; omega)]
        refine ⟨hi, ?_, fun s' => by omega, rfl⟩
        have hsame : (fun s' => if s = s' ∧ lo ≤ s then (f s').cons (q s') else f s') = f := by
          funext s'
          exact if_neg (by omega)
        rw [hsame]
        exact h
      · have hg : ∀ s', (if s = s' ∧ lo ≤ s then (f s').cons (q s') else f s') =
            if s = s' then (f s').cons (q s) else f s' := by
          intro s'
          by_cases heq : s = s'
          · rw [if_pos ⟨heq, hin⟩, if_pos heq, heq]
          · rw [if_neg (fun hc => heq hc.1), if_neg heq]
        rcases h.add hg hbound (by omega) (by omega) with ⟨ht, -, hnext⟩ | ⟨-, hf, -⟩
        · rw [map_cons, mergeList]
          rw [if_neg (by rw [ht]; simp)]
          exact ⟨_, hnext, fun s' => le_max_iff, rfl⟩
        · rcases hadded with ht | hold
          · rw [hf] at ht
            cases ht
          · omega
    obtain ⟨hi₁, hhold, hhi₁, heq⟩ := hstep
    have hmax : hi₁ ≤ max hi s := le_max_iff.mpr ((hhi₁ hi₁).mp le_rfl)
    have hkeys' := @Close.tail v (addPacket s (q s) v.growths v).1 (s, q s)
      (keys.map (fun s => (s, q s))) hkeys (hhold.seqTail.trans hlo.symm)
      (by rw [hhold.seqHead, hhi]; exact hmax)
    obtain ⟨hi', hfinal, hhi'⟩ := ih hhold hkeys' hrest
    refine ⟨hi', ?_, fun s' => ?_⟩
    · rw [heq]
      have hfun : (fun s' => if s' ∈ s :: keys ∧ lo ≤ s' then (f s').cons (q s') else f s') =
          fun s' => if s' ∈ keys ∧ lo ≤ s' then
            (if s = s' ∧ lo ≤ s then (f s').cons (q s') else f s').cons (q s')
            else if s = s' ∧ lo ≤ s then (f s').cons (q s') else f s' := by
        funext s'
        by_cases hs : s = s'
        · subst hs
          by_cases hin : lo ≤ s
          · rw [if_pos ⟨mem_cons_self, hin⟩, if_neg (fun hc => hnew hc.1),
              if_pos ⟨rfl, hin⟩]
          · rw [if_neg (fun hc => hin hc.2), if_neg (fun hc => hin hc.2),
              if_neg (fun hc => hin hc.2)]
        · rw [if_neg (fun hc : s = s' ∧ lo ≤ s => hs hc.1)]
          simp only [mem_cons, Ne.symm hs, false_or]
      rw [hfun]
      exact hfinal
    · rw [hhi', hhi₁]
      simp only [mem_cons, exists_eq_or_imp]
      tauto

theorem mem_ascending {lo hi s : ℕ} : s ∈ ascending lo hi ↔ lo ≤ s ∧ s ≤ hi := by
  rw [ascending, mem_map]
  constructor
  · rintro ⟨k, hk, rfl⟩
    have := mem_range.mp hk
    omega
  · rintro ⟨h1, h2⟩
    exact ⟨s - lo, mem_range.mpr (by omega), by omega⟩

theorem ascending_sorted (lo hi : ℕ) : (ascending lo hi).Pairwise (· < ·) := by
  rw [ascending, pairwise_map]
  exact pairwise_lt_range.imp (fun h => by omega)

theorem Shows.close {ackv : DccpAckVector} {bs' : List ℕ} (h' : Shows ackv bs')
    (hahead : ackv.seqHead < v.seqTail + 2 ^ 31) (hbehind : v.seqHead < ackv.seqTail + 2 ^ 31) :
    Close v ackv.packets := by
  have hlt := h'.seqLt
  refine ⟨?_, ?_, ?_, ?_⟩
  · rw [packets, pairwise_map]
    exact ascending_sorted _ _
  all_goals
    intro p hp
    obtain ⟨s, hs, rfl⟩ := mem_map.mp hp
    have := mem_ascending.mp hs
    omega

theorem mergeWith_states {ackv : DccpAckVector} {bs' : List ℕ} (h : Shows v bs)
    (h' : Shows ackv bs') (hahead : ackv.seqHead < v.seqTail + 2 ^ 31)
    (hbehind : v.seqHead < ackv.seqTail + 2 ^ 31) (hfits : Fits v ackv.packets) (s : ℕ) :
    (v.mergeWith (some ackv)).1.getState s = mergedState v ackv s := by
  have hle := h.tail_le
  have hle' := h'.tail_le
  obtain ⟨hi', hhold, hhi'⟩ := mergeList_holding h.holding (h'.close hahead hbehind) hfits
  have hget := hhold.agrees.getState s
  have hmerge := mergeWith_eq h h'
  have hnewest : (∃ k ∈ ascending ackv.seqTail ackv.seqHead, s ≤ k) ↔ s ≤ ackv.seqHead := by
    constructor
    · rintro ⟨k, hk, hsk⟩
      exact hsk.trans (mem_ascending.mp hk).2
    · intro hs
      exact ⟨_, mem_ascending.mpr ⟨hle', le_rfl⟩, hs⟩
  have hup : s ≤ hi' ↔ s ≤ v.seqHead ∨ s ≤ ackv.seqHead := by rw [hhi', hnewest]
  rw [packets] at hmerge
  rw [hmerge, hget]
  simp only [mem_ascending]
  rw [mergedState]
  have hv := h.holding.agrees.getState s
  have ha := h'.holding.agrees.getState s
  by_cases h1 : v.seqTail ≤ s ∧ s ≤ v.seqHead
  · rw [if_pos h1] at hv
    rw [if_pos ⟨h1.1, hup.mpr (Or.inl h1.2)⟩]
    by_cases h2 : ackv.seqTail ≤ s ∧ s ≤ ackv.seqHead
    · rw [if_pos h2] at ha
      rw [if_pos ⟨h2, h1.1⟩, hv, ha]
      rfl
    · rw [if_neg h2] at ha
      rw [if_neg (fun hc => h2 hc.1), hv, ha]
      rfl
  · rw [if_neg h1] at hv
    by_cases h2 : ackv.seqTail ≤ s ∧ s ≤ ackv.seqHead
    · rw [if_pos h2] at ha
      rw [hv, ha]
      dsimp only
      by_cases hnewer : v.seqHead < s
      · rw [if_pos ⟨by omega, hup.mpr (Or.inr h2.2)⟩, if_pos ⟨h2, by omega⟩, if_pos hnewer]
        rfl
      · rw [if_neg (by omega), if_neg hnewer]
    · rw [if_neg h2] at ha
      rw [hv, ha]
      by_cases hbetween : v.seqHead < s ∧ s < ackv.seqTail
      · rw [if_pos ⟨by omega, hup.mpr (Or.inr (by omega))⟩, if_neg (fun hc => h2 hc.1), if_pos hbetween]
        rfl
      · rw [if_neg (by omega), if_neg hbetween]

theorem mergeList_ene (result : Bool) (ps : List (ℕ × PacketState)) (v : DccpAckVector) :
    (mergeList result ps v).1.ene = v.ene := by
  induction ps generalizing v with
  | nil => rfl
  | cons p ps ih =>
    rw [mergeList]
    split
    · exact addPacket_ene
    · rw [ih, addPacket_ene]

/-- **When the merge is right.** For two vectors that are not empty, with sequence numbers within
`2 ^ 31` of each other, the result is right just when the merged packets need more cells than the
largest ring has. When there is room for them, the states are merged as they should be and the nonce
echo is kept, and only the result is wrong. -/
theorem mergeWith_right {v ackv : DccpAckVector} {bs bs' : List ℕ} (h : Shows v bs)
    (h' : Shows ackv bs') (hahead : ackv.seqHead < v.seqTail + 2 ^ 31)
    (hbehind : v.seqHead < ackv.seqTail + 2 ^ 31) :
    (MergeRight v ackv ↔
        dccpMaxAckvSize < (mergeCells v.seqTail v.seqHead v.cells ackv.packets).length) ∧
      ((mergeCells v.seqTail v.seqHead v.cells ackv.packets).length ≤ dccpMaxAckvSize →
        (∀ s, (v.mergeWith (some ackv)).1.getState s = mergedState v ackv s) ∧
          (v.mergeWith (some ackv)).1.ene = v.ene) := by
  have hfits := fits_iff h (h'.close hahead hbehind)
  have hfalse : (v.mergeWith (some ackv)).2 = false := by
    rw [mergeWith_eq h h', mergeList_false]
  have hene : (v.mergeWith (some ackv)).1.ene = v.ene := by
    rw [mergeWith_eq h h', mergeList_ene]
  rw [h.bytes]
  refine ⟨?_, fun hroom => ⟨mergeWith_states h h' hahead hbehind (hfits.mpr hroom), hene⟩⟩
  rw [MergeRight, hfalse]
  constructor
  · rintro ⟨hright, -⟩
    rw [hfits] at hright
    by_contra hroom
    exact absurd (hright.mpr (by omega)) (by simp)
  · intro hroom
    refine ⟨⟨fun hno => absurd hno (by simp), fun hyes => ?_⟩, fun hno => absurd hno (by simp)⟩
    rw [hfits] at hyes
    omega

/-- A vector of twenty cells with one packet that was received. -/
def single (s : ℕ) : DccpAckVector := (addPacket s .recv (init 20).growths (init 20)).1

/-- A vector with packet 5, merged with one that has packet 6: packet 6 is added, and the result is
false. -/
theorem merge_not_reported : ¬ MergeRight (single 5) (single 6) := by
  have hadded : (addPacket 6 .recv (single 5).growths (single 5)).2 = true := by decide +kernel
  have hresult : ((single 5).mergeWith (some (single 6))).2 = false := by decide +kernel
  intro h
  have hfits : Fits (single 5) (single 6).packets := by
    exact ⟨Or.inl hadded, trivial⟩
  rw [h.1.mpr hfits] at hresult
  cases hresult

theorem mergeWith_right_single :
    (∀ s, ((single 5).mergeWith (some (single 8))).1.getState s =
        mergedState (single 5) (single 8) s) ∧
      ((single 5).mergeWith (some (single 8))).1.ene = 0 ∧
      mergedState (single 5) (single 8) 7 = some .notRecv := by
  have h5 := (@addPacket_first (init 20) 5 .recv 65515 rfl (by decide) (by decide) (by decide)).2.1
  have h8 := (@addPacket_first (init 20) 8 .recv 65515 rfl (by decide) (by decide) (by decide)).2.1
  have hright := (mergeWith_right h5 h8 (by decide +kernel) (by decide +kernel)).2
    (by decide +kernel)
  exact ⟨hright.1, hright.2.trans (by decide +kernel), by decide +kernel⟩

end NetSim.DccpAckVector
