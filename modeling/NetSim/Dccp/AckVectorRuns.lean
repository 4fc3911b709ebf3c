import Mathlib.Data.List.Induction
import NetSim.Dccp.AckVectorAlter
import NetSim.Dccp.AckVectorWalk

/-! # The ack vector is a map from sequence numbers to states

A run calls `addPacket`, `alterState` and `removePackets` in any order. The packets that the vector
holds, and the state of each, are folds over the calls that succeeded (`rangeOf`, `stateOf`), and
everything that can be read from the vector agrees with them (`ackVector_refines`).
-/

namespace NetSim.DccpAckVector

open List

variable {v v' : DccpAckVector} {bs l r items : List ℕ} {b s n : ℕ} {st : PacketState}

/-! ## Adding a packet -/

theorem i32_eq {x : ℤ} (h1 : -2 ^ 31 ≤ x) (h2 : x < 2 ^ 31) : i32 x = x := by
  rw [i32, Int.emod_eq_of_lt (by omega) (by omega)]
  omega

theorem addItems_fits {runlen count : ℕ} (h : Shows v bs) (hn : runlen < 64)
    (hroom : bs.length + count ≤ dccpMaxAckvSize)
    (hseq : v.seqHead + (runlen + 1) * count < 2 ^ 32) :
    (addItems st runlen count v.growths v).2 = true ∧
      Fronted v (addItems st runlen count v.growths v).1
        (List.replicate count (item st runlen)) bs := by
  rcases addItems_spec h hn le_rfl hseq with hf | ⟨hlong, -, -⟩
  · exact hf
  · omega

def extendCells (st : PacketState) : List ℕ → List ℕ
  | [] => [item st 0]
  | b :: r => if runlen b < 63 ∧ stateBits b = st then (b + 1) :: r else item st 0 :: b :: r

def frontCells (hi : ℕ) (bs : List ℕ) (s : ℕ) (st : PacketState) : List ℕ :=
  if s = hi + 1 then extendCells st bs
  else
    item st 0 :: item .notRecv ((s - hi - 2) % 64) ::
      (List.replicate ((s - hi - 2) / 64) (item .notRecv 63) ++ bs)

theorem decode_succ (hrun : runlen b < 63) : decode (b + 1) = stateBits b :: decode b := by
  have hrunlen : runlen (b + 1) = runlen b + 1 := by
    rw [runlen] at hrun ⊢
    rw [runlen]
    omega
  have hstate : stateBits (b + 1) = stateBits b := by
    rw [runlen] at hrun
    rw [stateBits, stateBits, show (b + 1) / 64 = b / 64 by omega]
  rw [decode, decode, hrunlen, hstate]
  rfl

theorem expand_frontCells {hi : ℕ} (hs : hi < s) :
    expand (frontCells hi bs s st) =
      st :: (List.replicate (s - hi - 1) .notRecv ++ expand bs) := by
  have hone : decode (item st 0) = [st] := decode_item st (by omega)
  rw [frontCells]
  split
  · next hnext =>
      rw [hnext, Nat.add_sub_cancel_left, Nat.sub_self, replicate_zero, nil_append]
      cases bs with
      | nil => rw [extendCells, expand_cons, hone, singleton_append]
      | cons b r =>
        rw [extendCells]
        split
        · next hrun => rw [expand_cons, decode_succ hrun.1, hrun.2, cons_append, expand_cons]
        · rw [expand_cons, hone, singleton_append]
  · next hgap =>
      have hlast : (s - hi - 2) % 64 < 64 := Nat.mod_lt _ (by omega)
      have hcount : (s - hi - 2) % 64 + 1 + (63 + 1) * ((s - hi - 2) / 64) = s - hi - 1 := by omega
      rw [expand_cons, hone, expand_cons, decode_item _ hlast, expand_append,
        expand_replicate _ (by omega), ← append_assoc (List.replicate _ _),
        ← replicate_add, hcount, singleton_append]

theorem length_frontCells_le {hi : ℕ} :
    bs.length ≤ (frontCells hi bs s st).length ∧
      (frontCells hi bs s st).length ≤ bs.length + (s - hi) / 64 + 2 := by
  rw [frontCells]
  split
  · cases bs with
    | nil => simp [extendCells]
    | cons b r =>
      rw [extendCells]
      split
      · simp only [length_cons]
        omega
      · simp only [length_cons]
        omega
  · simp only [length_cons, length_append, length_replicate]
    omega

/-- What a call does that puts the packet `s` in front, byte by byte. -/
structure Grown (v v' : DccpAckVector) (bs : List ℕ) (s : ℕ) (st : PacketState) : Prop where
  shows : Shows v' (frontCells v.seqHead bs s st)
  seqHead : v'.seqHead = s
  seqTail : v'.seqTail = v.seqTail

theorem Fronted.grown (h : Fronted v v' items bs) (hs : v.seqHead < s)
    (hitems : items ++ bs = frontCells v.seqHead bs s st) : Grown v v' bs s st := by
  refine ⟨hitems ▸ h.shows, ?_, h.seqTail⟩
  have hexp := @expand_frontCells bs s st v.seqHead hs
  rw [← hitems, expand_append] at hexp
  have hlen := congrArg List.length hexp
  rw [length_append, length_cons, length_append, length_replicate] at hlen
  rw [h.seqHead]
  omega

theorem extend_head (h : Shows v (b :: r)) (hrun : runlen b < 63) (hs : s = v.seqHead + 1)
    (hlt : s < 2 ^ 32) :
    Grown v { v with vector := Function.update v.vector v.head (b + 1), seqHead := s } (b :: r) s
      (stateBits b) := by
  have hfront : frontCells v.seqHead (b :: r) s (stateBits b) = (b + 1) :: r := by
    rw [frontCells, if_pos hs, extendCells, if_pos ⟨hrun, rfl⟩]
  have hexp : expand ((b + 1) :: r) = stateBits b :: expand (b :: r) := by
    rw [expand_cons, expand_cons, decode_succ hrun]
    rfl
  have hspan := h.span
  refine ⟨?_, rfl, rfl⟩
  rw [hfront]
  refine ⟨by simp, h.two, h.maxLe, h.headLt, ?_, h.size, h.le, h.tail, ?_, hlt⟩
  · have hhead : v.head = (v.head + ([] : List ℕ).length) % v.maxSize :=
      (Nat.mod_eq_of_lt h.headLt).symm
    have hstore := @Ring.Holds.store ℕ v.head v.maxSize v.vector r [] [b + 1] trivial h.cells.2
      (by have := h.le; rw [length_cons] at this; simp; omega)
    rw [← hhead] at hstore
    exact hstore
  · show v.seqTail + _ = s + 1
    rw [hexp, length_cons]
    omega

theorem gap_spec {numFulls lastRunlen : ℕ} (h : Shows v bs) (hlast : lastRunlen < 64)
    (hroom : bs.length + numFulls + 2 ≤ dccpMaxAckvSize)
    (hs : s = v.seqHead + 64 * numFulls + lastRunlen + 2) (hlt : s < 2 ^ 32) :
    let v₁ := if 0 < numFulls then (addItems .notRecv 63 numFulls v.growths v).1 else v
    let v₂ := (addItems .notRecv lastRunlen 1 v₁.growths v₁).1
    (addItems st 0 1 v₂.growths v₂).2 = true ∧
      Grown v (addItems st 0 1 v₂.growths v₂).1 bs s st := by
  intro v₁ v₂
  have h₁ : Fronted v v₁ (List.replicate numFulls (item .notRecv 63)) bs := by
    by_cases hpos : 0 < numFulls
    · rw [show v₁ = (addItems .notRecv 63 numFulls v.growths v).1 from if_pos hpos]
      exact (addItems_fits h (by omega) (by omega) (by omega)).2
    · rw [show v₁ = v from if_neg hpos, show numFulls = 0 by omega]
      exact ⟨h, rfl, rfl⟩
  have hlen₁ : (List.replicate numFulls (item .notRecv 63) ++ bs).length = numFulls + bs.length := by
    simp
  have hhead₁ := h₁.seqHead
  rw [expand_replicate _ (by omega), length_replicate] at hhead₁
  have h₂ : Fronted v₁ v₂ [item .notRecv lastRunlen] _ :=
    (addItems_fits h₁.shows hlast (by omega) (by omega)).2
  have hhead₂ := h₂.seqHead
  rw [expand_cons, expand_nil, append_nil, decode_item _ hlast, length_replicate] at hhead₂
  have h₃ := @addItems_fits v₂ _ st 0 1 h₂.shows (by omega) (by simp; omega) (by omega)
  have h₄ : Fronted v (addItems st 0 1 v₂.growths v₂).1
      ([item st 0] ++ ([item .notRecv lastRunlen] ++ List.replicate numFulls (item .notRecv 63)))
      bs := by
    refine (h₁.trans h₂).trans ?_
    exact h₃.2
  refine ⟨h₃.1, h₄.grown (by omega) ?_⟩
  rw [frontCells, if_neg (by omega), show (s - v.seqHead - 2) % 64 = lastRunlen by omega,
    show (s - v.seqHead - 2) / 64 = numFulls by omega]
  rfl

theorem Grown.double (h : Shows v bs) (hmax : v.maxSize ≠ dccpMaxAckvSize)
    (hg : Grown v.doubleMaxSize.1 v' bs s st) : Grown v v' bs s st := by
  have hsame := (h.double hmax).2.2.1
  exact ⟨hsame.head ▸ hg.shows, hg.seqHead, hg.seqTail.trans hsame.tail⟩

/-- **A newer packet**, byte by byte, with any number of missing packets before it: only a ring at
its maximum, without room for the new cells, refuses it. -/
theorem addPacket_cells {fuel : ℕ} (h : Shows v bs) (h1 : v.seqHead < s)
    (h2 : s < v.seqHead + 2 ^ 31) (hs : s < 2 ^ 32) (hfuel : v.growths ≤ fuel) :
    ((addPacket s st fuel v).2 = true ∧ Grown v (addPacket s st fuel v).1 bs s st) ∨
      (dccpMaxAckvSize < (frontCells v.seqHead bs s st).length ∧
        (addPacket s st fuel v).2 = false ∧ Kept v (addPacket s st fuel v).1 bs) := by
  induction fuel generalizing v with
  | zero =>
    have := growths_pos h.maxLe
    omega
  | succ fuel ih =>
    have hpos := h.size_pos
    have hsize := h.size
    have hmaxLe := h.maxLe
    have hdist : i32 (s - v.seqHead) = s - v.seqHead := i32_eq (by omega) (by omega)
    rw [addPacket, hdist]
    rw [if_neg (by omega)]
    by_cases hgap : (1 : ℤ) < s - v.seqHead
    · have hlen : (frontCells v.seqHead bs s st).length =
          v.size + (s - v.seqHead - 2) / 64 + 1 + 1 := by
        rw [frontCells, if_neg (by omega)]
        simp only [length_cons, length_append, length_replicate]
        omega
      rw [if_pos hgap, show ((s : ℤ) - v.seqHead - 2).toNat = s - v.seqHead - 2 by omega]
      by_cases hfull : v.maxSize < v.size + (s - v.seqHead - 2) / 64 + 1 + 1
      · rw [if_pos hfull]
        by_cases hmax : v.maxSize = dccpMaxAckvSize
        · rw [show v.doubleMaxSize = (v, false) by rw [doubleMaxSize, if_pos hmax],
            if_neg (by simp)]
          exact Or.inr ⟨by omega, rfl, h, SameSeq.refl v⟩
        · obtain ⟨htrue, hshows, hsame, hlt⟩ := h.double hmax
          rw [if_pos htrue]
          have hgrow : v.doubleMaxSize.1.growths ≤ fuel := by
            rw [growths] at hfuel ⊢
            omega
          rcases ih hshows (hsame.head ▸ h1) (hsame.head ▸ h2) hgrow with
            ⟨ht, ha⟩ | ⟨hlong, hf, hk⟩
          · exact Or.inl ⟨ht, ha.double h hmax⟩
          · exact Or.inr ⟨hsame.head ▸ hlong, hf, hk.double h hmax⟩
      · rw [if_neg hfull]
        exact Or.inl (gap_spec h (Nat.mod_lt _ (by omega)) (by omega)
          (by omega) hs)
    · have hnext : s = v.seqHead + 1 := by omega
      rw [if_neg hgap, if_pos (by omega)]
      cases bs with
      | nil => exact absurd rfl h.ne
      | cons b r =>
        have hbyte : v.vector v.head = b := by
          have := h.cells.1
          rwa [Nat.mod_eq_of_lt h.headLt] at this
        rw [hbyte]
        by_cases hrun : runlen b < 63 ∧ stateBits b = st
        · have := extend_head h hrun.1 hnext hs
          rw [hrun.2] at this
          rw [if_pos hrun]
          exact Or.inl ⟨rfl, this⟩
        · have hfront : frontCells v.seqHead (b :: r) s st = item st 0 :: b :: r := by
            rw [frontCells, if_pos hnext, extendCells, if_neg hrun]
          rw [if_neg hrun]
          rcases @addItems_spec v (b :: r) st 0 1 v.growths h (by omega) le_rfl (by omega) with
            ⟨ht, hf⟩ | ⟨hlong, hf, hk⟩
          · exact Or.inl ⟨ht, hf.grown h1 hfront.symm⟩
          · rw [hfront]
            exact Or.inr ⟨hlong, hf, hk⟩

/-- What a call does that adds the packet `s`, newer than all others. -/
def Advanced (v v' : DccpAckVector) (bs : List ℕ) (s : ℕ) (st : PacketState) : Prop :=
  ∃ bs', Shows v' bs' ∧ v'.seqHead = s ∧ v'.seqTail = v.seqTail ∧
    expand bs' = st :: (List.replicate (s - v.seqHead - 1) .notRecv ++ expand bs)

theorem Grown.advanced (h : Grown v v' bs s st) (hs : v.seqHead < s) : Advanced v v' bs s st :=
  ⟨_, h.shows, h.seqHead, h.seqTail, expand_frontCells hs⟩

/-- **A newer packet**, with any number of missing packets before it. -/
theorem addPacket_newer {fuel : ℕ} (h : Shows v bs) (h1 : v.seqHead < s)
    (h2 : s < v.seqHead + 2 ^ 31) (hs : s < 2 ^ 32) (hfuel : v.growths ≤ fuel) :
    ((addPacket s st fuel v).2 = true ∧ Advanced v (addPacket s st fuel v).1 bs s st) ∨
      (dccpMaxAckvSize < bs.length + (s - v.seqHead) / 64 + 2 ∧ (addPacket s st fuel v).2 = false ∧
        Kept v (addPacket s st fuel v).1 bs) := by
  obtain ⟨-, hlen⟩ := @length_frontCells_le bs s st v.seqHead
  rcases @addPacket_cells v bs s st fuel h h1 h2 hs hfuel with ⟨ht, hg⟩ | ⟨hlong, hf, hk⟩
  · exact Or.inl ⟨ht, hg.advanced h1⟩
  · exact Or.inr ⟨by omega, hf, hk⟩

theorem addPacket_older {fuel : ℕ} (h : Shows v bs) (h1 : v.seqTail ≤ s) (h2 : s ≤ v.seqHead)
    (h3 : v.seqHead ≤ s + 2 ^ 31) :
    ∃ curr, (expand bs)[v.seqHead - s]? = some curr ∧
      addPacket s st (fuel + 1) v = alterState s (curr.cons st) v.growths v := by
  have hpos := h.size_pos
  have hsize := h.size
  have hdist : i32 (s - v.seqHead) = s - v.seqHead := i32_eq (by omega) (by omega)
  have hspan := h.span
  obtain ⟨curr, hcurr⟩ : ∃ curr, (expand bs)[v.seqHead - s]? = some curr :=
    ⟨_, getElem?_eq_getElem (by omega)⟩
  refine ⟨curr, hcurr, ?_⟩
  rw [addPacket, hdist]
  rw [if_neg (by omega), if_neg (by omega), if_neg (by omega), getState_spec h h1 h2, hcurr]

theorem addPacket_removed {fuel : ℕ} (h : Shows v bs) (h1 : s < v.seqTail)
    (h3 : v.seqHead ≤ s + 2 ^ 31) : addPacket s st (fuel + 1) v = (v, false) := by
  have hpos := h.size_pos
  have hsize := h.size
  have htail := h.tail_le
  have hdist : i32 (s - v.seqHead) = s - v.seqHead := i32_eq (by omega) (by omega)
  rw [addPacket, hdist]
  rw [if_neg (by omega), if_neg (by omega), if_neg (by omega), getState_none (by omega)]

/-! ## Room for a packet -/

def addCells (hi : ℕ) (bs : List ℕ) (s : ℕ) (st : PacketState) : List ℕ :=
  if s ≤ hi then setCells (((expand bs).getD (hi - s) .notRecv).cons st) (hi - s) bs
  else frontCells hi bs s st

theorem length_setCells_ge (st : PacketState) (d : ℕ) (bs : List ℕ) :
    bs.length ≤ (setCells st d bs).length := by
  induction bs generalizing d with
  | nil => exact Nat.zero_le _
  | cons b bs ih =>
    rw [setCells]
    split
    · split
      · exact le_rfl
      · have hlen := (length_alteredItems b (runlen b - d) (runlen b) 0 st).1
        rw [length_append, length_cons]
        omega
    · exact Nat.succ_le_succ (ih _)

theorem length_addCells_ge {hi : ℕ} : bs.length ≤ (addCells hi bs s st).length := by
  rw [addCells]
  split
  · exact length_setCells_ge _ _ _
  · exact length_frontCells_le.1

/-- **Adding a packet** that is not older than the vector, byte by byte: only a ring at its maximum,
without room for the new cells, refuses it. -/
theorem addPacket_room (h : Shows v bs) (hs : s < 2 ^ 32) (h1 : v.seqTail ≤ s)
    (h2 : s < v.seqHead + 2 ^ 31) (h3 : v.seqHead ≤ s + 2 ^ 31) :
    ((addPacket s st v.growths v).2 = true ∧
        Shows (addPacket s st v.growths v).1 (addCells v.seqHead bs s st) ∧
        (addPacket s st v.growths v).1.seqHead = max v.seqHead s ∧
        (addPacket s st v.growths v).1.seqTail = v.seqTail) ∨
      (dccpMaxAckvSize < (addCells v.seqHead bs s st).length ∧
        (addPacket s st v.growths v).2 = false ∧ Kept v (addPacket s st v.growths v).1 bs) := by
  rcases Nat.lt_or_ge v.seqHead s with hnewer | hle
  · rw [addCells, if_neg (by omega), Nat.max_eq_right hnewer.le]
    rcases @addPacket_cells v bs s st v.growths h hnewer h2 hs le_rfl with ⟨ht, hg⟩ | hno
    · exact Or.inl ⟨ht, hg.shows, hg.seqHead, hg.seqTail⟩
    · exact Or.inr hno
  · obtain ⟨k, hk⟩ : ∃ k, v.growths = k + 1 :=
      Nat.exists_eq_add_one_of_ne_zero (growths_pos h.maxLe).ne'
    obtain ⟨curr, hcurr, hadd⟩ := @addPacket_older v bs s st k h h1 hle h3
    have hget : (expand bs).getD (v.seqHead - s) .notRecv = curr := by
      rw [getD_eq_getElem?_getD, hcurr]
      rfl
    rw [← hk] at hadd
    rw [addCells, if_pos hle, Nat.max_eq_left hle, hget, hadd]
    rcases @alterState_cells v bs s (curr.cons st) v.growths h h1 hle le_rfl with
      ⟨ht, hs', hq⟩ | hno
    · exact Or.inl ⟨ht, hs', hq.head, hq.tail⟩
    · exact Or.inr hno

/-! ## The nonce echo -/

theorem doubleMaxSize_ene : v.doubleMaxSize.1.ene = v.ene := by
  rw [doubleMaxSize]
  split <;> rfl

theorem replace_ene {pos : ℕ} : (v.replace pos items).ene = v.ene := by
  rw [replace]
  split
  · rfl
  · split <;> rfl

theorem addItems_ene {runlen count fuel : ℕ} : (addItems st runlen count fuel v).1.ene = v.ene := by
  induction fuel generalizing v with
  | zero => rfl
  | succ fuel ih =>
    have hdouble := @doubleMaxSize_ene v
    rw [addItems]
    split
    · dsimp only
      split
      · rw [ih, hdouble]
      · exact hdouble
    · rfl

theorem alterState_ene {fuel : ℕ} : (alterState s st fuel v).1.ene = v.ene := by
  induction fuel generalizing v with
  | zero => rfl
  | succ fuel ih =>
    have hdouble := @doubleMaxSize_ene v
    rw [alterState]
    split
    · rfl
    · dsimp only
      split
      · rfl
      · split
        · rfl
        · split
          · split
            · rw [ih, hdouble]
            · exact hdouble
          · exact replace_ene

theorem addPacket_ene {fuel : ℕ} : (addPacket s st fuel v).1.ene = v.ene := by
  induction fuel generalizing v with
  | zero => rfl
  | succ fuel ih =>
    have hdouble := @doubleMaxSize_ene v
    rw [addPacket]
    dsimp only
    split
    · exact addItems_ene
    · split
      · split
        · split
          · rw [ih, hdouble]
          · exact hdouble
        · rw [addItems_ene, addItems_ene]
          split
          · exact addItems_ene
          · rfl
      · split
        · split
          · rfl
          · exact addItems_ene
        · split
          · rfl
          · exact alterState_ene

/-! ## Calls -/

inductive Call where
  | add (seqnum : ℕ) (state : PacketState)
  | alter (seqnum : ℕ) (newstate : PacketState)
  | remove (seqnum : ℕ)
  deriving DecidableEq

def step (v : DccpAckVector) : Call → Option (DccpAckVector × Bool)
  | .add seqnum state => some (addPacket seqnum state v.growths v)
  | .alter seqnum newstate => some (alterState seqnum newstate v.growths v)
  | .remove seqnum => some (v.removePackets seqnum, true)

/-- The call does not empty the vector. -/
def KeepsPackets (v : DccpAckVector) : Call → Prop
  | .remove seqnum => v.size = 0 ∨ seqnum < v.seqHead
  | _ => True

instance decidableKeepsPackets (v : DccpAckVector) : (c : Call) → Decidable (KeepsPackets v c)
  | .add _ _ => isTrue trivial
  | .alter _ _ => isTrue trivial
  | .remove seqnum => inferInstanceAs (Decidable (v.size = 0 ∨ seqnum < v.seqHead))

/-- The sequence numbers of the packets that are added are 32 bits wide and within `2 ^ 31` of each
other. -/
def Near (calls : List Call) : Prop :=
  ∀ s st s' st', Call.add s st ∈ calls → Call.add s' st' ∈ calls → s < 2 ^ 32 ∧ s < s' + 2 ^ 31

def accepted (calls : List Call) (oks : List Bool) : List Call :=
  (calls.zip oks).filterMap (fun p => if p.2 then some p.1 else none)

/-- What a call says about the packet `s`. -/
def report (s : ℕ) (old : PacketState) : Call → PacketState
  | .add s' state => if s' = s then old.cons state else old
  | .alter s' newstate => if s' = s then newstate else old
  | .remove _ => old

/-- The state of the packet `s`: all that was reported about it, in order. -/
def stateOf (calls : List Call) (s : ℕ) : PacketState := calls.foldl (report s) .notRecv

/-- How a call changes the packets that are held, from the oldest to the newest. -/
def moveRange : Option (ℕ × ℕ) → Call → Option (ℕ × ℕ)
  | none, .add s _ => some (s, s)
  | none, _ => none
  | some (lo, hi), .add s _ => some (lo, max hi s)
  | some range, .alter _ _ => some range
  | some (lo, hi), .remove s => some (max lo (s + 1), hi)

def rangeOf (calls : List Call) : Option (ℕ × ℕ) := calls.foldl moveRange none

variable {calls acc : List Call} {oks : List Bool} {c : Call} {lo hi : ℕ} {f : ℕ → PacketState}

theorem accepted_concat (h : calls.length = oks.length) (ok : Bool) :
    accepted (calls ++ [c]) (oks ++ [ok]) =
      accepted calls oks ++ if ok then [c] else [] := by
  rw [accepted, zip_append h, filterMap_append, accepted]
  cases ok <;> rfl

theorem stateOf_concat (acc : List Call) (c : Call) (s : ℕ) :
    stateOf (acc ++ [c]) s = report s (stateOf acc s) c := by
  rw [stateOf, foldl_append]
  rfl

theorem rangeOf_concat (acc : List Call) (c : Call) :
    rangeOf (acc ++ [c]) = moveRange (rangeOf acc) c := by
  rw [rangeOf, foldl_append]
  rfl

/-! ## What is kept -/

/-- The bytes of the vector hold the packets `lo` to `hi` with the states `f`; newer packets are not
received yet. -/
structure Holding (v : DccpAckVector) (f : ℕ → PacketState) (lo hi : ℕ) : Prop where
  bytes : ∃ bs, Shows v bs ∧ Tells v bs f
  seqTail : v.seqTail = lo
  seqHead : v.seqHead = hi
  newer : ∀ s, hi < s → f s = .notRecv

/-- What holds for a vector after calls of which `acc` succeeded. -/
def Tracks (v : DccpAckVector) (acc : List Call) : Option (ℕ × ℕ) → Prop
  | none => (v.size = 0 ∧ 2 ≤ v.maxSize ∧ v.maxSize ≤ dccpMaxAckvSize) ∧
      ∀ s, stateOf acc s = .notRecv
  | some (lo, hi) => Holding v (stateOf acc) lo hi

theorem Kept.holding (hf : Tells v bs f) (htail : v.seqTail = lo) (hhead : v.seqHead = hi)
    (hnew : ∀ s, hi < s → f s = .notRecv) (hk : Kept v v' bs) : Holding v' f lo hi := by
  refine ⟨⟨bs, hk.shows, ?_⟩, hk.same.tail.trans htail, hk.same.head.trans hhead, hnew⟩
  intro s h1 h2
  rw [hk.same.tail] at h1
  rw [hk.same.head] at h2 ⊢
  exact hf s h1 h2

theorem first_tracks (h : Shows v [item st 0]) (hhead : v.seqHead = s) (htail : v.seqTail = s)
    (hf : ∀ s', stateOf acc s' = .notRecv) :
    Holding v (stateOf (acc ++ [.add s st])) s s := by
  refine ⟨⟨_, h, ?_⟩, htail, hhead, ?_⟩
  · intro s' h1 h2
    rw [expand_cons, decode_item st (by omega), expand_nil, stateOf_concat, report,
      if_pos (by omega), hf, show v.seqHead - s' = 0 by omega]
    rfl
  · intro s' hs'
    rw [stateOf_concat, report, if_neg (by omega), hf]

theorem Advanced.holding {g : ℕ → PacketState} (hf : Tells v bs f) (htail : v.seqTail = lo)
    (hhead : v.seqHead = hi) (hnew : ∀ s, hi < s → f s = .notRecv) (hs : hi < s)
    (hg : ∀ s', g s' = if s = s' then st else f s') (ha : Advanced v v' bs s st) :
    Holding v' g lo s := by
  obtain ⟨bs', hshows, hhead', htail', hexp⟩ := ha
  refine ⟨⟨bs', hshows, ?_⟩, htail'.trans htail, hhead', ?_⟩
  · intro s' h1 h2
    rw [hexp, hhead', hg]
    rcases Nat.lt_or_ge hi s' with hnewer | holder
    · by_cases heq : s = s'
      · rw [if_pos heq, heq, Nat.sub_self]
        rfl
      · -- one of the missing packets
        rw [if_neg heq, hnew s' hnewer, show s - s' = (s - s' - 1) + 1 by omega,
          getElem?_cons_succ, getElem?_append_left (by rw [length_replicate]; omega),
          getElem?_replicate]
        exact if_pos (by omega)
    · rw [if_neg (by omega), show s - s' = (s - hi - 1 + (hi - s')) + 1 by omega,
        getElem?_cons_succ, getElem?_append_right (by rw [length_replicate]; omega),
        length_replicate, hhead, Nat.add_sub_cancel_left, ← hhead]
      exact hf s' (by omega) (by omega)
  · intro s' hs'
    rw [hg, if_neg (by omega), hnew s' (by omega)]

theorem Altered.holding {g : ℕ → PacketState} (hf : Tells v bs f) (htail : v.seqTail = lo)
    (hhead : v.seqHead = hi) (hnew : ∀ s, hi < s → f s = .notRecv) (hs : s ≤ hi)
    (hg : ∀ s', g s' = if s = s' then st else f s') (ha : Altered v v' bs s st) :
    Holding v' g lo hi := by
  obtain ⟨bs', hshows, hsame, hexp⟩ := ha
  refine ⟨⟨bs', hshows, ?_⟩, hsame.tail.trans htail, hsame.head.trans hhead, ?_⟩
  · intro s' h1 h2
    rw [hsame.tail] at h1
    rw [hsame.head] at h2 ⊢
    have hold := hf s' h1 h2
    rw [hexp, hg]
    by_cases heq : s = s'
    · subst heq
      rw [if_pos rfl, getElem?_set_self]
      exact (List.getElem?_eq_some_iff.mp hold).1
    · rw [if_neg heq, getElem?_set_ne (by omega), hold]
  · intro s' hs'
    rw [hg, if_neg (by omega), hnew s' hs']

/-! ## Steps -/

theorem Holding.remove (h : Holding v f lo hi) (hs : s < hi) :
    Holding (v.removePackets s) f (max lo (s + 1)) hi := by
  obtain ⟨⟨bs, hshows, hf⟩, htail, hhead, hnew⟩ := h
  rcases Nat.lt_or_ge s lo with hold | hin
  · rw [removePackets_old (by omega), Nat.max_eq_left (by omega)]
    exact ⟨⟨bs, hshows, hf⟩, htail, hhead, hnew⟩
  · obtain ⟨bs', hshows', hexp, hhead', htail'⟩ := removePackets_spec hshows (htail ▸ hin) (hhead ▸ hs)
    rw [Nat.max_eq_right (by omega)]
    refine ⟨⟨bs', hshows', ?_⟩, htail', hhead'.trans hhead, hnew⟩
    intro s' h1 h2
    rw [hhead'] at h2 ⊢
    rw [hexp, getElem?_take, if_pos (by omega)]
    exact hf s' (by omega) h2

theorem Holding.add {g : ℕ → PacketState} (h : Holding v f lo hi)
    (hg : ∀ s', g s' = if s = s' then (f s').cons st else f s') (hs1 : s < 2 ^ 32)
    (hs2 : s < hi + 2 ^ 31) (hs3 : hi ≤ s + 2 ^ 31) :
    ((addPacket s st v.growths v).2 = true ∧ lo ≤ s ∧
        Holding (addPacket s st v.growths v).1 g lo (max hi s)) ∨
      ((s < lo ∨ dccpMaxAckvSize < v.size + (s - hi) / 64 + 2) ∧
        (addPacket s st v.growths v).2 = false ∧
        Holding (addPacket s st v.growths v).1 f lo hi) := by
  obtain ⟨⟨bs, hshows, hf⟩, htail, hhead, hnew⟩ := h
  have hle' := hshows.tail_le
  obtain ⟨k, hk⟩ : ∃ k, v.growths = k + 1 :=
    Nat.exists_eq_add_one_of_ne_zero (growths_pos hshows.maxLe).ne'
  rcases Nat.lt_or_ge hi s with hnewer | hle
  · rw [Nat.max_eq_right hnewer.le]
    rcases @addPacket_newer v bs s st v.growths hshows (hhead ▸ hnewer) (hhead ▸ hs2) hs1 le_rfl with
      ⟨ht, ha⟩ | ⟨hlong, hf', hk⟩
    · refine Or.inl ⟨ht, by omega, ha.holding hf htail hhead hnew hnewer (fun s' => ?_)⟩
      rw [hg]
      by_cases heq : s = s'
      · rw [if_pos heq, if_pos heq, hnew s' (heq ▸ hnewer)]
        rfl
      · rw [if_neg heq, if_neg heq]
    · refine Or.inr ⟨Or.inr ?_, hf', hk.holding hf htail hhead hnew⟩
      rw [hshows.size, ← hhead]
      exact hlong
  · rw [Nat.max_eq_left hle]
    rcases Nat.lt_or_ge s lo with hold | hin
    · rw [hk, addPacket_removed hshows (htail ▸ hold) (hhead ▸ hs3)]
      exact Or.inr ⟨Or.inl hold, rfl, ⟨bs, hshows, hf⟩, htail, hhead, hnew⟩
    · obtain ⟨curr, hcurr, hadd⟩ := @addPacket_older v bs s st k hshows (htail ▸ hin) (hhead ▸ hle)
        (hhead ▸ hs3)
      have hstate := hf s (htail ▸ hin) (hhead ▸ hle)
      rw [hcurr] at hstate
      have hcurrEq : curr = f s := Option.some.inj hstate
      rw [← hk] at hadd
      rw [hadd]
      rcases @alterState_spec v bs s (curr.cons st) v.growths hshows (htail ▸ hin) (hhead ▸ hle)
        le_rfl with ⟨ht, ha⟩ | ⟨hlong, hf', hk⟩
      · refine Or.inl ⟨ht, hin, ha.holding hf htail hhead hnew hle (fun s' => ?_)⟩
        rw [hg]
        by_cases heq : s = s'
        · rw [if_pos heq, if_pos heq, hcurrEq, heq]
        · rw [if_neg heq, if_neg heq]
      · refine Or.inr ⟨Or.inr ?_, hf', hk.holding hf htail hhead hnew⟩
        rw [hshows.size]
        omega

theorem report_add (acc : List Call) (s s' : ℕ) (st : PacketState) :
    stateOf (acc ++ [.add s st]) s' =
      if s = s' then (stateOf acc s').cons st else stateOf acc s' := by
  rw [stateOf_concat, report]

theorem Holding.alter (h : Holding v (stateOf acc) lo hi) :
    ((alterState s st v.growths v).2 = true ∧
        Holding (alterState s st v.growths v).1 (stateOf (acc ++ [.alter s st])) lo hi) ∨
      ((s < lo ∨ hi < s ∨ dccpMaxAckvSize < v.size + 2) ∧ (alterState s st v.growths v).2 = false ∧
        Holding (alterState s st v.growths v).1 (stateOf acc) lo hi) := by
  obtain ⟨⟨bs, hshows, hf⟩, htail, hhead, hnew⟩ := h
  by_cases hin : v.seqTail ≤ s ∧ s ≤ v.seqHead
  · rcases @alterState_spec v bs s st v.growths hshows hin.1 hin.2 le_rfl with
      ⟨ht, ha⟩ | ⟨hlong, hf', hk⟩
    · refine Or.inl ⟨ht, ha.holding hf htail hhead hnew (hhead ▸ hin.2) (fun s' => ?_)⟩
      rw [stateOf_concat, report]
    · refine Or.inr ⟨Or.inr (Or.inr ?_), hf', hk.holding hf htail hhead hnew⟩
      rw [hshows.size]
      exact hlong
  · rw [alterState_none hin]
    exact Or.inr ⟨by omega, rfl, ⟨bs, hshows, hf⟩, htail, hhead, hnew⟩

theorem alterState_empty {fuel : ℕ} (h : v.size = 0) : alterState s st fuel v = (v, false) := by
  cases fuel with
  | zero => rfl
  | succ fuel => rw [alterState, findSeqNum, if_pos (Or.inl h)]

theorem removePackets_empty (h : v.size = 0) : v.removePackets s = v := by
  rw [removePackets, if_pos (Or.inl h)]

/-- What is kept along a run of calls from `all`. -/
structure Inv (all past : List Call) (oks : List Bool) (v : DccpAckVector) : Prop where
  sub : ∀ c ∈ past, c ∈ all
  length : past.length = oks.length
  tracks : Tracks v (accepted past oks) (rangeOf (accepted past oks))
  newest : ∀ lo hi, rangeOf (accepted past oks) = some (lo, hi) → ∃ st, Call.add hi st ∈ past

theorem Inv.refused {all past : List Call} (h : Inv all past oks v) (hc : c ∈ all)
    (htracks : Tracks v' (accepted past oks) (rangeOf (accepted past oks))) :
    Inv all (past ++ [c]) (oks ++ [false]) v' := by
  have hacc : accepted (past ++ [c]) (oks ++ [false]) = accepted past oks := by
    rw [accepted_concat h.length]
    exact append_nil _
  refine ⟨?_, by simp [h.length], hacc ▸ htracks, fun lo hi hrange => ?_⟩
  · intro c' hc'
    rcases mem_append.mp hc' with hpast | hlast
    · exact h.sub c' hpast
    · rwa [mem_singleton.mp hlast]
  · obtain ⟨st, hst⟩ := h.newest lo hi (hacc ▸ hrange)
    exact ⟨st, mem_append_left _ hst⟩

theorem Inv.succeeded {all past : List Call} (h : Inv all past oks v) (hc : c ∈ all)
    (htracks : Tracks v' (accepted past oks ++ [c]) (moveRange (rangeOf (accepted past oks)) c))
    (hnewest : ∀ lo hi, moveRange (rangeOf (accepted past oks)) c = some (lo, hi) →
      ∃ st, Call.add hi st ∈ past ++ [c]) :
    Inv all (past ++ [c]) (oks ++ [true]) v' := by
  have hacc : accepted (past ++ [c]) (oks ++ [true]) =
      accepted past oks ++ [c] := by
    rw [accepted_concat h.length]
    rfl
  refine ⟨?_, by simp [h.length], ?_, ?_⟩
  · intro c' hc'
    rcases mem_append.mp hc' with hpast | hlast
    · exact h.sub c' hpast
    · rwa [mem_singleton.mp hlast]
  · rw [hacc, rangeOf_concat]
    exact htracks
  · rw [hacc, rangeOf_concat]
    exact hnewest

/-- One packet more: the runs of the ring still tell what arrived. -/
theorem Inv.step {all past : List Call} (hnear : Near all) (h : Inv all past oks v) (hc : c ∈ all)
    (hkeep : KeepsPackets v c) :
    ∃ v' ok, DccpAckVector.step v c = some (v', ok) ∧ Inv all (past ++ [c]) (oks ++ [ok]) v' := by
  have htracks := h.tracks
  have hnewest := h.newest
  cases hrange : rangeOf (accepted past oks) with
  | none =>
    rw [hrange] at htracks
    obtain ⟨⟨hsize, htwo, hmax⟩, hstate⟩ := htracks
    cases c with
    | add s st =>
      obtain ⟨g, hg⟩ : ∃ g, v.growths = g + 1 :=
        Nat.exists_eq_add_one_of_ne_zero (growths_pos hmax).ne'
      obtain ⟨ht, hshows, hhead, htail⟩ := @addPacket_first v s st g hsize htwo hmax
        (hnear s st s st hc hc).1
      rw [← hg] at ht hshows hhead htail
      refine ⟨(addPacket s st v.growths v).1, true, ?_, h.succeeded hc ?_ ?_⟩
      · rw [← ht]
        rfl
      · rw [hrange]
        exact first_tracks hshows hhead htail hstate
      · rw [hrange]
        intro lo hi heq
        cases heq
        exact ⟨st, by simp⟩
    -- a vector without packets has nothing to alter or remove
    | alter s st =>
      refine ⟨v, false, by rw [DccpAckVector.step, alterState_empty hsize], h.refused hc ?_⟩
      rw [hrange]
      exact ⟨⟨hsize, htwo, hmax⟩, hstate⟩
    | remove s =>
      refine ⟨v, true, by rw [DccpAckVector.step, removePackets_empty hsize],
        h.succeeded hc ?_ ?_⟩
      · rw [hrange]
        refine ⟨⟨hsize, htwo, hmax⟩, fun s' => ?_⟩
        rw [stateOf_concat]
        exact hstate s'
      · rw [hrange]
        intro lo hi heq
        cases heq
  | some range =>
    obtain ⟨lo, hi⟩ := range
    rw [hrange] at htracks
    obtain ⟨stHi, hmem⟩ := hnewest lo hi hrange
    have hold : Holding v (stateOf (accepted past oks)) lo hi := htracks
    cases c with
    | add s st =>
      have hfar := hnear s st hi stHi hc (h.sub _ hmem)
      have hfar' := hnear hi stHi s st (h.sub _ hmem) hc
      rcases hold.add (fun s' => report_add _ s s' st) hfar.1 hfar.2 hfar'.2.le with
        ⟨ht, -, hnew⟩ | ⟨-, hf, hkept⟩
      · refine ⟨(addPacket s st v.growths v).1, true, ?_, h.succeeded hc ?_ ?_⟩
        · rw [← ht]
          rfl
        · rw [hrange]
          exact hnew
        · rw [hrange]
          intro lo' hi' heq
          cases heq
          rcases Nat.le_total hi s with hle | hle
          · exact ⟨st, by simp [Nat.max_eq_right hle]⟩
          · exact ⟨stHi, by simp [Nat.max_eq_left hle, hmem]⟩
      · refine ⟨(addPacket s st v.growths v).1, false, ?_, h.refused hc ?_⟩
        · rw [← hf]
          rfl
        · rw [hrange]
          exact hkept
    | alter s st =>
      rcases @Holding.alter v s st _ lo hi hold with ⟨ht, hnew⟩ | ⟨-, hf, hkept⟩
      · refine ⟨(alterState s st v.growths v).1, true, ?_, h.succeeded hc ?_ ?_⟩
        · rw [← ht]
          rfl
        · rw [hrange]
          exact hnew
        · rw [hrange]
          intro lo' hi' heq
          cases heq
          exact ⟨stHi, mem_append_left _ hmem⟩
      · refine ⟨(alterState s st v.growths v).1, false, ?_, h.refused hc ?_⟩
        · rw [← hf]
          rfl
        · rw [hrange]
          exact hkept
    | remove s =>
      obtain ⟨bs, hshows, -⟩ := hold.bytes
      have hpos := hshows.size_pos
      have hsize := hshows.size
      -- a removal up to the newest packet would empty the vector, which the condition excludes
      have hlt : s < hi := by
        rcases hkeep with hzero | hlt
        · omega
        · rw [← hold.seqHead]
          exact hlt
      refine ⟨v.removePackets s, true, rfl, h.succeeded hc ?_ ?_⟩
      · rw [hrange]
        have hrem := hold.remove hlt
        have hsame : stateOf (accepted past oks ++ [.remove s]) =
            stateOf (accepted past oks) := by
          funext s'
          rw [stateOf_concat]
          rfl
        show Holding _ (stateOf _) _ _
        rw [hsame]
        exact hrem
      · rw [hrange]
        intro lo' hi' heq
        cases heq
        exact ⟨stHi, mem_append_left _ hmem⟩

/-! ## Runs -/

/-- All that can be read from the vector says that it holds the packets `lo` to `hi` with the states
`f`. -/
structure Agrees (v : DccpAckVector) (lo hi : ℕ) (f : ℕ → PacketState) : Prop where
  le : lo ≤ hi
  seqTail : v.seqTail = lo
  seqHead : v.seqHead = hi
  getState : ∀ s, v.getState s = if lo ≤ s ∧ s ≤ hi then some (f s) else none
  descending : ∀ fuel, hi + 1 - lo ≤ fuel →
    collect v.nextPacket fuel v.startPacketWalk =
      (descending lo hi).map (fun s => (s, f s))
  ascending : ∀ fuel, hi + 1 - lo ≤ fuel →
    collect v.prevPacket fuel v.startReversePacketWalk =
      (ascending lo hi).map (fun s => (s, f s))
  intervals : ∀ fuel, v.size ≤ fuel →
    (collect v.nextInterval fuel v.startIntervalWalk).flatMap intervalPackets =
      (DccpAckVector.descending lo hi).map (fun s => (s, f s))
  cells : v.size = (v.tail + v.maxSize - v.head) % v.maxSize + 1
  runs : ((List.range v.size).map
    (fun k => runlen (v.vector ((v.head + k) % v.maxSize)) + 1)).sum = hi + 1 - lo

/-- The vector shows the packets of the range, and is empty when there is none. -/
def Refines (v : DccpAckVector) (f : ℕ → PacketState) : Option (ℕ × ℕ) → Prop
  | none => v.size = 0
  | some (lo, hi) => Agrees v lo hi f

theorem sum_runlen (bs : List ℕ) : (bs.map (fun b => runlen b + 1)).sum = (expand bs).length := by
  induction bs with
  | nil => rfl
  | cons b bs ih =>
    rw [map_cons, sum_cons, ih, expand_cons, length_append, length_decode]

def cells (v : DccpAckVector) : List ℕ :=
  (List.range v.size).map (fun k => v.vector ((v.head + k) % v.maxSize))

theorem Shows.bytes (h : Shows v bs) : v.cells = bs := by
  refine ext_getElem (by simp [DccpAckVector.cells, h.size]) (fun k h1 h2 => ?_)
  simp only [DccpAckVector.cells, getElem_map, getElem_range]
  exact Ring.holds_iff.mp h.cells k h2

theorem Holding.agrees (h : Holding v f lo hi) : Agrees v lo hi f := by
  obtain ⟨⟨bs, hshows, hf⟩, rfl, rfl, -⟩ := h
  have hpos := hshows.size_pos
  have hsize := hshows.size
  have hle := hshows.le
  refine ⟨hshows.tail_le, rfl, rfl, fun s => ?_, fun _ hfuel => descending_walk hshows hf hfuel,
    fun _ hfuel => ascending_walk hshows hf hfuel,
    fun _ hfuel => (interval_walk hshows hf hfuel).1, ?_, ?_⟩
  · by_cases hin : v.seqTail ≤ s ∧ s ≤ v.seqHead
    · rw [if_pos hin, getState_spec hshows hin.1 hin.2, hf s hin.1 hin.2]
    · rw [if_neg hin, getState_none hin]
  · rw [hshows.tail, show v.head + bs.length - 1 = v.head + (bs.length - 1) by omega,
      mod_sub_head hshows.headLt (by omega)]
    omega
  · rw [hshows.count, ← sum_runlen bs]
    conv_rhs => rw [← hshows.bytes, cells, map_map]
    rfl

/-- The call finds the packet, or room for it: at most one cell for each 64 missing packets and two
more. -/
def Room (v : DccpAckVector) : Call → Prop
  | .add s _ => v.size = 0 ∨
      (v.seqTail ≤ s ∧ v.size + (s - v.seqHead) / 64 + 2 ≤ dccpMaxAckvSize)
  | .alter s _ => v.size ≠ 0 ∧ v.seqTail ≤ s ∧ s ≤ v.seqHead ∧ v.size + 2 ≤ dccpMaxAckvSize
  | .remove _ => True

theorem Inv.succeeds {past : List Call} (h : Inv past past oks v) (hnear : Near (past ++ [c]))
    (hroom : Room v c) : (DccpAckVector.step v c).map Prod.snd = some true := by
  have hc : c ∈ past ++ [c] := by simp
  have htracks := h.tracks
  have hnewest := h.newest
  cases hrange : rangeOf (accepted past oks) with
  | none =>
    rw [hrange] at htracks
    obtain ⟨⟨hsize, htwo, hmax⟩, -⟩ := htracks
    cases c with
    | add s st =>
      obtain ⟨g, hg⟩ : ∃ g, v.growths = g + 1 :=
        Nat.exists_eq_add_one_of_ne_zero (growths_pos hmax).ne'
      have hfirst := @addPacket_first v s st g hsize htwo hmax (hnear s st s st hc hc).1
      rw [DccpAckVector.step, hg, Option.map_some, hfirst.1]
    | alter s st => exact absurd hsize hroom.1
    | remove s => rfl
  | some range =>
    obtain ⟨lo, hi⟩ := range
    rw [hrange] at htracks
    obtain ⟨stHi, hmem⟩ := hnewest lo hi hrange
    have hold : Holding v (stateOf (accepted past oks)) lo hi := htracks
    obtain ⟨bs, hshows, -⟩ := hold.bytes
    have hpos := hshows.size_pos
    have hsize := hshows.size
    have hhead := hold.seqHead
    have htail := hold.seqTail
    cases c with
    | add s st =>
      have hfar := hnear s st hi stHi hc (mem_append_left _ hmem)
      have hfar' := hnear hi stHi s st (mem_append_left _ hmem) hc
      have hin : v.seqTail ≤ s ∧ v.size + (s - v.seqHead) / 64 + 2 ≤ dccpMaxAckvSize := by
        rcases hroom with hzero | hin
        · omega
        · exact hin
      rcases hold.add (fun s' => report_add _ s s' st) hfar.1 hfar.2 hfar'.2.le with
        ⟨ht, -⟩ | ⟨hno, -, -⟩
      · rw [DccpAckVector.step, Option.map_some, ht]
      · rw [hhead, htail] at hin
        omega
    | alter s st =>
      obtain ⟨-, h1, h2, h3⟩ := hroom
      rcases @Holding.alter v s st _ lo hi hold with ⟨ht, -⟩ | ⟨hno, -, -⟩
      · rw [DccpAckVector.step, Option.map_some, ht]
      · omega
    | remove s => rfl

/-- **The ack vector refines a map.** After every run of calls that does not empty the vector, it
shows the packets and states that the successful calls reported, and a further call succeeds when
there is room for it. -/
theorem ackVector_refines (initialSize : ℕ) (htwo : 2 ≤ initialSize)
    (hmax : initialSize ≤ dccpMaxAckvSize) (calls : List Call) (hnear : Near calls)
    (hkeep : Runs.Meets step KeepsPackets (init initialSize) calls) :
    ∃ v oks, Runs.run step (init initialSize) calls = some (v, oks) ∧
      Refines v (stateOf (accepted calls oks)) (rangeOf (accepted calls oks)) ∧
      ∀ c, Near (calls ++ [c]) → Room v c → (step v c).map Prod.snd = some true := by
  have hinit : Inv calls [] [] (init initialSize) :=
    ⟨by simp, rfl, ⟨⟨rfl, htwo, hmax⟩, fun _ => rfl⟩, fun lo hi heq => by cases heq⟩
  obtain ⟨v, oks, hrun, hinv⟩ := Runs.run_invariant
    (fun past oks v c h (hc : KeepsPackets v c ∧ c ∈ calls) => h.step hnear hc.2 hc.1) hinit
    (hkeep.and_forall (fun c hc => hc))
  refine ⟨v, oks, hrun, ?_, fun c hnear' hroom => hinv.succeeds hnear' hroom⟩
  have htracks := hinv.tracks
  cases hrange : rangeOf (accepted calls oks) with
  | none =>
    rw [hrange] at htracks
    exact htracks.1.1
  | some range =>
    rw [hrange] at htracks
    exact Holding.agrees htracks

/-- A ring of two cells grows twice: packets are missing, one comes late, and one is reported
twice. -/
theorem ackVector_refines_late :
    ∃ v oks, Runs.run step (init 2)
        [.add 5 .recv, .add 9 .recv, .alter 7 .ecn, .add 6 .recv, .add 6 .ecn, .remove 5] =
          some (v, oks) ∧
      Refines v (stateOf (accepted [.add 5 .recv, .add 9 .recv, .alter 7 .ecn, .add 6 .recv,
        .add 6 .ecn, .remove 5] oks)) (some (6, 9)) ∧ v.maxSize = 8 := by
  have hnear : Near [.add 5 .recv, .add 9 .recv, .alter 7 .ecn, .add 6 .recv, .add 6 .ecn,
      .remove 5] := by
    intro s st s' st' h h'
    simp only [mem_cons, Call.add.injEq, reduceCtorEq, not_mem_nil, or_false,
      false_or] at h h'
    omega
  obtain ⟨v, oks, hrun, href, -⟩ := ackVector_refines 2 le_rfl (by decide)
    [.add 5 .recv, .add 9 .recv, .alter 7 .ecn, .add 6 .recv, .add 6 .ecn, .remove 5] hnear
    (by decide +kernel)
  have hfinal : ∀ r ∈ Runs.run step (init 2)
      [.add 5 .recv, .add 9 .recv, .alter 7 .ecn, .add 6 .recv, .add 6 .ecn, .remove 5],
      rangeOf (accepted [.add 5 .recv, .add 9 .recv, .alter 7 .ecn, .add 6 .recv, .add 6 .ecn,
        .remove 5] r.2) = some (6, 9) ∧ r.1.maxSize = 8 := by
    decide +kernel
  obtain ⟨hrange, hmax⟩ := hfinal (v, oks) hrun
  rw [hrange] at href
  exact ⟨v, oks, hrun, href, hmax⟩

end NetSim.DccpAckVector
