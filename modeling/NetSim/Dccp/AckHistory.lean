import NetSim.Dccp.AckVectorMerge

/-! # The ack history of an ack vector

When an ack vector is sent, `addToAckHistory` keeps the number of the packet that carries it and the
newest packet that it reports; when that packet is acknowledged, `ackRecv` drops what it reported. A
packet that was dropped must not come back. It can, when the vector is empty: then `addPacket` starts
afresh from whatever packet arrives next, and the history survives (`acked_packet_returns`). In a run
in which an emptied vector only takes newer packets the law holds (`acked_stays_acked`).
-/

namespace NetSim

open List

inductive EcnCodepoint where
  | ect0
  | ect1
  | notEct
  | ce
  deriving DecidableEq

def EcnCodepoint.toNat : EcnCodepoint → ℕ
  | .ect0 => 0
  | .ect1 => 1
  | .notEct => 2
  | .ce => 3

namespace DccpAckVector

variable {v v' : DccpAckVector} {bs l r : List ℕ} {b s n a lo hi : ℕ} {st : PacketState}
  {f : ℕ → PacketState}

/-! ## The operations -/

/-- `addPacket` with a codepoint. -/
def addPacketEcn (seqnum : ℕ) (ecn : EcnCodepoint) (addNonce : Bool) (v : DccpAckVector) :
    DccpAckVector × Bool :=
  let state := if ecn = .ce then .ecn else .recv
  let r := addPacket seqnum state v.growths v
  if r.2 = true ∧ addNonce = true ∧ (ecn = .ect0 ∨ ecn = .ect1) then
    ({ r.1 with ene := r.1.ene ^^^ ecn.toNat }, r.2)
  else r

/-- `sendAckVector` into an array of `size` bytes: the history and the result of `getAckVector`, or
`none` for `abort`. -/
def sendAckVectorArray (v : DccpAckVector) (hist : List AckHistEntry) (seqnum acknum size : ℕ) :
    Option (List AckHistEntry × ℤ × List ℕ × ℕ) :=
  if acknum ≠ v.seqHead then none
  else
    let result := v.getAckVector size
    if 0 < result.1 then (v.addToAckHistory seqnum hist).map (fun hist => (hist, result))
    else some (hist, result)

/-- The packet that carried an entry of the history is acknowledged. -/
def acknowledges (acknum : ℕ) (ackv : Option DccpAckVector) (elm : AckHistEntry) : Bool :=
  match ackv with
  | none => acknum = elm.seqSent
  | some ackv =>
    ackv.getState elm.seqSent = some .recv ∨ ackv.getState elm.seqSent = some .ecn

/-- `ackRecv`. The newest entry that is acknowledged is dropped with all older ones. -/
def ackRecv (v : DccpAckVector) (hist : List AckHistEntry) (acknum : ℕ)
    (ackv : Option DccpAckVector) : DccpAckVector × List AckHistEntry :=
  match hist.dropWhile (fun elm => !acknowledges acknum ackv elm) with
  | [] => (v, hist)
  | elm :: _ =>
    ({ v with ene := v.ene ^^^ elm.ene }.removePackets elm.ackNum,
      (hist.takeWhile (fun elm => !acknowledges acknum ackv elm)).map
        (fun later => { later with ene := later.ene ^^^ elm.ene }))

/-! ## Runs -/

/-- The calls. An ack vector is always sent with `getFirstSeqNum` as its acknowledgement number. -/
inductive HistCall where
  | addPacket (seqnum : ℕ) (state : PacketState)
  | addPacketEcn (seqnum : ℕ) (ecn : EcnCodepoint) (addNonce : Bool)
  | sendAckVectorArray (seqnum size : ℕ)
  | sendAckVector (seqnum : ℕ) (options : DccpOptions)
  | ackRecv (acknum : ℕ) (ackv : Option DccpAckVector)

/-- A vector with its history. The other fields say what happened so far: the last number with which
the vector was sent, the largest `ack_num_` that was acknowledged, and the codepoint with which each
packet was received that the vector holds. -/
structure Session where
  vector : DccpAckVector
  hist : List AckHistEntry
  lastSent : Option ℕ
  cleared : Option ℕ
  codepoint : ℕ → EcnCodepoint

def Session.init (initialSize : ℕ) : Session :=
  { vector := DccpAckVector.init initialSize, hist := [], lastSent := none, cleared := none,
    codepoint := fun _ => .notEct }

/-- The state of a packet; one that the vector does not hold is not received. -/
def stateAt (v : DccpAckVector) (s : ℕ) : PacketState := (v.getState s).getD .notRecv

/-- The session after a packet was added or refused. The packet is received now if it was not. -/
def Session.added (t : Session) (seqnum : ℕ) (ecn : EcnCodepoint) (r : DccpAckVector × Bool) :
    Session × Bool :=
  ({ t with
      vector := r.1
      codepoint :=
        if r.2 = true ∧ t.vector.stateAt seqnum = .notRecv then
          Function.update t.codepoint seqnum ecn
        else t.codepoint }, r.2)

/-- The largest `ack_num_` that was acknowledged. -/
def maxCleared (cleared : Option ℕ) (ackNum : ℕ) : Option ℕ := some (max (cleared.getD 0) ackNum)

def Session.acked (t : Session) (acknum : ℕ) (ackv : Option DccpAckVector) : Session :=
  { t with
    vector := (t.vector.ackRecv t.hist acknum ackv).1
    hist := (t.vector.ackRecv t.hist acknum ackv).2
    cleared :=
      match t.hist.dropWhile (fun elm => !acknowledges acknum ackv elm) with
      | [] => t.cleared
      | elm :: _ => maxCleared t.cleared elm.ackNum }

/-- One call; for a packet, whether it was added. `none` stands for `abort`. -/
def Session.step (t : Session) : HistCall → Option (Session × Bool)
  | .addPacket seqnum state =>
    some (t.added seqnum .notEct (addPacket seqnum state t.vector.growths t.vector))
  | .addPacketEcn seqnum ecn addNonce =>
    some (t.added seqnum ecn (addPacketEcn seqnum ecn addNonce t.vector))
  | .sendAckVectorArray seqnum size =>
    (t.vector.sendAckVectorArray t.hist seqnum t.vector.seqHead size).map
      (fun r => ({ t with hist := r.1, lastSent := some seqnum }, true))
  | .sendAckVector seqnum options =>
    (t.vector.sendAckVector t.hist seqnum t.vector.seqHead options).map
      (fun r => ({ t with hist := r.2, lastSent := some seqnum }, true))
  | .ackRecv acknum ackv => some (t.acked acknum ackv, true)

/-! ## Sequence numbers that do not wrap -/

/-- The packet does not run around the sequence numbers to the head of the vector: it is at most
`2 ^ 31` behind the head, or so far that the ring has no cells for the packets between. -/
def NoWrap (v : DccpAckVector) (s : ℕ) : Prop :=
  v.seqHead ≤ s + 2 ^ 31 ∨
    (1 < s + 2 ^ 32 - v.seqHead ∧
      dccpMaxAckvSize < v.size + (s + 2 ^ 32 - v.seqHead - 2) / 64 + 2)

instance decidableNoWrap (v : DccpAckVector) (s : ℕ) : Decidable (NoWrap v s) :=
  inferInstanceAs (Decidable (_ ∨ _))

theorem i32_wrapped {x : ℤ} (h1 : -2 ^ 32 < x) (h2 : x < -2 ^ 31) : i32 x = x + 2 ^ 32 := by
  rw [i32]
  omega

theorem i32_far {x : ℤ} (h1 : 2 ^ 31 ≤ x) (h2 : x < 2 ^ 32) : i32 x = x - 2 ^ 32 := by
  rw [i32]
  omega

theorem addPacket_ahead {fuel : ℕ} (h : Shows v bs) (h1 : v.seqHead + 2 ^ 31 ≤ s)
    (hs : s < 2 ^ 32) : addPacket s st (fuel + 1) v = (v, false) := by
  have hpos := h.size_pos
  have hsize := h.size
  have hdist : i32 (s - v.seqHead) = s - v.seqHead - 2 ^ 32 := i32_far (by omega) (by omega)
  rw [addPacket, hdist]
  rw [if_neg (by omega), if_neg (by omega), if_neg (by omega), getState_none (by omega)]

/-- A packet so far behind that it is taken for a newer one is refused when there is no room for the
packets between. -/
theorem addPacket_wrapped {fuel : ℕ} (h : Shows v bs) (h1 : s + 2 ^ 31 < v.seqHead)
    (h2 : 1 < s + 2 ^ 32 - v.seqHead)
    (hroom : dccpMaxAckvSize < v.size + (s + 2 ^ 32 - v.seqHead - 2) / 64 + 2)
    (hfuel : v.growths ≤ fuel) :
    (addPacket s st fuel v).2 = false ∧ Kept v (addPacket s st fuel v).1 bs := by
  induction fuel generalizing v with
  | zero =>
    have := growths_pos h.maxLe
    omega
  | succ fuel ih =>
    have hpos := h.size_pos
    have hsize := h.size
    have hmaxLe := h.maxLe
    have hdist : i32 (s - v.seqHead) = s - v.seqHead + 2 ^ 32 := i32_wrapped (by omega) (by omega)
    have hgap : Int.toNat ((s : ℤ) - v.seqHead + 2 ^ 32 - 2) = s + 2 ^ 32 - v.seqHead - 2 := by
      omega
    rw [addPacket, hdist]
    dsimp only
    rw [if_neg (by omega), if_pos (by omega), hgap, if_pos (by omega)]
    by_cases hmax : v.maxSize = dccpMaxAckvSize
    · rw [show v.doubleMaxSize = (v, false) by rw [doubleMaxSize, if_pos hmax],
        if_neg (by simp)]
      exact ⟨rfl, h, SameSeq.refl v⟩
    · obtain ⟨htrue, hshows, hsame, hlt⟩ := h.double hmax
      rw [if_pos htrue]
      have hgrow : v.doubleMaxSize.1.growths ≤ fuel := by
        rw [growths] at hfuel ⊢
        omega
      have hsize' : v.doubleMaxSize.1.size = v.size := hshows.size.trans hsize.symm
      obtain ⟨hf, hk⟩ := ih hshows (hsame.head ▸ h1) (hsame.head ▸ h2)
        (by rw [hsize', hsame.head]; exact hroom) hgrow
      exact ⟨hf, hk.double h hmax⟩

/-! ## One call -/

/-- A vector that is empty, or a ring that holds bytes. -/
def Sound (v : DccpAckVector) : Prop :=
  (v.size = 0 ∧ 2 ≤ v.maxSize ∧ v.maxSize ≤ dccpMaxAckvSize ∧ v.seqHead < 2 ^ 32) ∨
    ∃ bs, Shows v bs

structure SameView (v v' : DccpAckVector) : Prop where
  seqHead : v'.seqHead = v.seqHead
  seqTail : v'.seqTail = v.seqTail
  size : v'.size = v.size
  stateAt : ∀ s, v'.stateAt s = v.stateAt s

theorem Shows.size_ne (h : Shows v bs) : v.size ≠ 0 := by
  have := h.size
  have := h.size_pos
  omega

theorem stateAt_empty (h : v.size = 0) (s : ℕ) : v.stateAt s = .notRecv := by
  rw [stateAt, getState, if_pos (Or.inl h)]
  rfl

theorem Holding.stateAt (h : Holding v f lo hi) (hs : lo ≤ s) : v.stateAt s = f s := by
  rw [DccpAckVector.stateAt, h.agrees.getState s]
  by_cases hle : s ≤ hi
  · rw [if_pos ⟨hs, hle⟩]
    rfl
  · rw [if_neg (fun hc => hle hc.2), h.newer s (by omega)]
    rfl

theorem stateAt_older (h : s < v.seqTail) : v.stateAt s = .notRecv := by
  rw [stateAt, getState_none (by omega)]
  rfl

theorem stateAt_newer (h : v.seqHead < s) : v.stateAt s = .notRecv := by
  rw [stateAt, getState_none (by omega)]
  rfl

theorem Kept.sameView (h : Shows v bs) (hk : Kept v v' bs) : SameView v v' := by
  refine ⟨hk.same.head, hk.same.tail, hk.shows.size.trans h.size.symm, fun s => ?_⟩
  by_cases hin : v.seqTail ≤ s ∧ s ≤ v.seqHead
  · rw [stateAt, stateAt, getState_spec h hin.1 hin.2,
      getState_spec hk.shows (hk.same.tail ▸ hin.1) (hk.same.head ▸ hin.2), hk.same.head]
  · rw [stateAt, stateAt, getState_none hin,
      getState_none (by rw [hk.same.tail, hk.same.head]; exact hin)]

/-- The vector has room for the packet. -/
def Takes (v : DccpAckVector) (s : ℕ) (st : PacketState) : Prop :=
  v.size = 0 ∨
    (v.seqTail ≤ s ∧ (addCells v.seqHead v.cells s st).length ≤ dccpMaxAckvSize)

instance decidableTakes (v : DccpAckVector) (s : ℕ) (st : PacketState) :
    Decidable (Takes v s st) := inferInstanceAs (Decidable (_ ∨ _))

structure Added (v v' : DccpAckVector) (s : ℕ) (st : PacketState) : Prop where
  takes : Takes v s st
  size : v'.size ≠ 0
  first : v.size = 0 → v'.seqHead = s ∧ v'.seqTail = s
  next : v.size ≠ 0 → v.seqTail ≤ s ∧ v'.seqHead = max v.seqHead s ∧ v'.seqTail = v.seqTail
  stateAt : ∀ s', v'.stateAt s' = if s = s' then (v.stateAt s').cons st else v.stateAt s'

theorem addPacket_sound (h : Sound v) (hs : s < 2 ^ 32) (hwrap : v.size ≠ 0 → NoWrap v s) :
    Sound (addPacket s st v.growths v).1 ∧
      (((addPacket s st v.growths v).2 = true ∧ Added v (addPacket s st v.growths v).1 s st) ∨
        ((addPacket s st v.growths v).2 = false ∧
          SameView v (addPacket s st v.growths v).1)) := by
  rcases h with ⟨hsize, htwo, hmax, -⟩ | ⟨bs, h⟩
  · -- the vector is empty
    obtain ⟨k, hk⟩ : ∃ k, v.growths = k + 1 :=
      Nat.exists_eq_add_one_of_ne_zero (growths_pos hmax).ne'
    obtain ⟨ht, hshows, hhead, htail⟩ := @addPacket_first v s st k hsize htwo hmax hs
    rw [← hk] at ht hshows hhead htail
    refine ⟨Or.inr ⟨_, hshows⟩, Or.inl ⟨ht, Or.inl hsize, hshows.size_ne, fun _ => ⟨hhead, htail⟩,
      fun hne => absurd hsize hne, fun s' => ?_⟩⟩
    rw [stateAt_empty hsize]
    by_cases heq : s = s'
    · subst heq
      rw [if_pos rfl, stateAt, getState_spec hshows htail.le hhead.ge, hhead, Nat.sub_self,
        expand_cons, decode_item st (by omega)]
      rfl
    · rw [if_neg heq, stateAt, getState_none (by omega)]
      rfl
  · have hpos := h.size_ne
    obtain ⟨k, hk⟩ : ∃ k, v.growths = k + 1 :=
      Nat.exists_eq_add_one_of_ne_zero (growths_pos h.maxLe).ne'
    have hkept : ∀ {v'}, Kept v v' bs → Sound v' ∧ SameView v v' :=
      fun hk => ⟨Or.inr ⟨_, hk.shows⟩, hk.sameView h⟩
    have hrefused : addPacket s st v.growths v = (v, false) → Sound (addPacket s st v.growths v).1 ∧
        (((addPacket s st v.growths v).2 = true ∧ Added v (addPacket s st v.growths v).1 s st) ∨
        ((addPacket s st v.growths v).2 = false ∧
          SameView v (addPacket s st v.growths v).1)) := by
      intro heq
      rw [heq]
      exact ⟨Or.inr ⟨bs, h⟩, Or.inr ⟨rfl, rfl, rfl, rfl, fun _ => rfl⟩⟩
    by_cases hnear : v.seqHead ≤ s + 2 ^ 31
    · rcases Nat.lt_or_ge s v.seqTail with hold | hin
      · exact hrefused (by rw [hk, addPacket_removed h hold hnear])
      · rcases Nat.lt_or_ge s (v.seqHead + 2 ^ 31) with hclose | hfar
        · rcases @addPacket_room v bs s st h hs hin hclose hnear with
            ⟨ht, hshows, -⟩ | ⟨-, hf, hk⟩
          · have hroom := hshows.le.trans hshows.maxLe
            rcases @Holding.add v s st _ _ _ _ h.holding (fun _ => rfl) hs hclose hnear with
              ⟨-, -, hhold⟩ | ⟨-, hf, -⟩
            · refine ⟨Or.inr ⟨_, hshows⟩, Or.inl ⟨ht, Or.inr ⟨hin, by rw [h.bytes]; exact hroom⟩,
                hshows.size_ne, fun hz => absurd hz hpos,
                fun _ => ⟨hin, hhold.seqHead, hhold.seqTail⟩, fun s' => ?_⟩⟩
              rcases Nat.lt_or_ge s' v.seqTail with hold | hin'
              · rw [stateAt_older (by rw [hhold.seqTail]; exact hold), stateAt_older hold,
                  if_neg (by omega)]
              · exact hhold.stateAt hin'
            · rw [hf] at ht
              cases ht
          · exact ⟨(hkept hk).1, Or.inr ⟨hf, (hkept hk).2⟩⟩
        · exact hrefused (by rw [hk, addPacket_ahead h hfar hs])
    · rcases hwrap hpos with hle' | ⟨hone, hroom⟩
      · omega
      · obtain ⟨hf, hk⟩ := @addPacket_wrapped v bs s st v.growths h (by omega) hone hroom le_rfl
        exact ⟨(hkept hk).1, Or.inr ⟨hf, (hkept hk).2⟩⟩

/-- What `removePackets` does: the packets up to `a` are gone. The echo is kept, or it is zero since
the vector is empty. -/
structure Removed (v v' : DccpAckVector) (a : ℕ) : Prop where
  seqHead : v'.seqHead = v.seqHead
  left : v'.size ≠ 0 → v.size ≠ 0 ∧ v.seqTail ≤ v'.seqTail ∧ a < v'.seqTail
  stateAt : ∀ s, v'.stateAt s = if s ≤ a then .notRecv else v.stateAt s
  ene : v'.ene = v.ene ∨ v'.ene = 0 ∧ v.seqHead ≤ a

theorem Shows.findSeqNum_head (h : Shows v bs) :
    ∃ seqEnd, v.findSeqNum v.seqHead = some (v.head, v.seqHead, seqEnd) := by
  obtain ⟨pos, seqStart, seqEnd, l, b, r, hfind, hc⟩ := findSeqNum_spec h h.tail_le le_rfl
  have hstart := hc.start
  have hge := hc.ge
  have hl : l = [] := by
    by_contra hne
    have := length_expand_pos hne
    omega
  have hpos : pos = v.head := by
    have hsplit := h
    rw [hc.split] at hsplit
    exact hsplit.pos_eq_head.mpr hl ▸ hc.posEq
  refine ⟨seqEnd, ?_⟩
  rw [hfind, hpos, show seqStart = v.seqHead by omega]

theorem removePackets_all (h : Shows v bs) (ha : v.seqHead ≤ a) :
    v.removePackets a = { v with size := 0, seqTail := v.seqHead, tail := v.head, ene := 0 } := by
  have hpos := h.size_ne
  have hle := h.tail_le
  rw [removePackets, if_neg (by omega)]
  by_cases hlt : v.seqHead < a
  · rw [if_pos hlt]
  · obtain ⟨seqEnd, hfind⟩ := h.findSeqNum_head
    have heq : a = v.seqHead := by omega
    rw [if_neg hlt, heq, hfind]
    dsimp only
    rw [if_neg (fun hc => hc.2 rfl), if_pos rfl]

theorem removePackets_ene (h : (v.removePackets a).size ≠ 0) :
    (v.removePackets a).ene = v.ene := by
  revert h
  rw [removePackets]
  split
  · exact fun _ => rfl
  · split
    · exact fun h => absurd rfl h
    · split
      · exact fun _ => rfl
      · split
        · exact fun _ => rfl
        · split
          · exact fun h => absurd rfl h
          · exact fun _ => rfl

theorem removePackets_sound (h : Sound v) (a : ℕ) :
    Sound (v.removePackets a) ∧ Removed v (v.removePackets a) a := by
  rcases h with ⟨hsize, htwo, hmax, hlt⟩ | ⟨bs, h⟩
  · rw [removePackets_empty hsize]
    refine ⟨Or.inl ⟨hsize, htwo, hmax, hlt⟩, rfl, fun hne => absurd hsize hne, fun s => ?_,
      Or.inl rfl⟩
    rw [stateAt_empty hsize, ite_self]
  · have hpos := h.size_ne
    rcases Nat.lt_or_ge a v.seqTail with hold | hin
    · -- the packets are gone already
      rw [removePackets_old hold]
      refine ⟨Or.inr ⟨bs, h⟩, rfl, fun _ => ⟨hpos, le_rfl, hold⟩, fun s => ?_, Or.inl rfl⟩
      split
      · exact stateAt_older (by omega)
      · rfl
    · rcases Nat.lt_or_ge a v.seqHead with hmid | hall
      · obtain ⟨bs', hshows, -, hhead, htail⟩ := removePackets_spec h hin hmid
        refine ⟨Or.inr ⟨bs', hshows⟩, hhead, fun _ => ⟨hpos, by omega, by omega⟩, fun s => ?_,
          Or.inl (removePackets_ene hshows.size_ne)⟩
        have hhold := h.holding.remove hmid
        split
        · exact stateAt_older (by omega)
        · next hs =>
            rcases Nat.lt_or_ge s v.seqTail with hs' | hs'
            · omega
            · exact hhold.stateAt (by omega)
      · rw [removePackets_all h hall]
        refine ⟨Or.inl ⟨rfl, h.two, h.maxLe, h.seqLt⟩, rfl, fun hne => absurd rfl hne,
          fun s => ?_, Or.inr ⟨rfl, hall⟩⟩
        split
        · rfl
        · exact (stateAt_newer (by omega)).symm

theorem Sound.withEne (h : Sound v) (ene : ℕ) : Sound { v with ene } := by
  rcases h with hempty | ⟨bs, h⟩
  · exact Or.inl hempty
  · exact Or.inr ⟨bs, h.ne, h.two, h.maxLe, h.headLt, h.cells, h.size, h.le, h.tail, h.span,
      h.seqLt⟩

theorem findLoop_ene (ene seqnum stop fuel pos seqStart : ℕ) :
    findLoop { v with ene } seqnum stop fuel pos seqStart =
      findLoop v seqnum stop fuel pos seqStart := by
  induction fuel generalizing pos seqStart with
  | zero => rfl
  | succ fuel ih => simp only [findLoop, ih]

theorem stateAt_ene (ene s : ℕ) : ({ v with ene } : DccpAckVector).stateAt s = v.stateAt s := by
  rw [stateAt, stateAt, getState, getState, findSeqNum, findSeqNum, findLoop_ene]

theorem ackRecv_cases (v : DccpAckVector) (hist : List AckHistEntry) (acknum : ℕ)
    (ackv : Option DccpAckVector) :
    (hist.dropWhile (fun elm => !acknowledges acknum ackv elm) = [] ∧
        v.ackRecv hist acknum ackv = (v, hist)) ∨
      ∃ later elm older, hist = later ++ elm :: older ∧
        hist.dropWhile (fun elm => !acknowledges acknum ackv elm) = elm :: older ∧
        v.ackRecv hist acknum ackv =
          ({ v with ene := v.ene ^^^ elm.ene }.removePackets elm.ackNum,
            later.map (fun e => { e with ene := e.ene ^^^ elm.ene })) := by
  cases hdrop : hist.dropWhile (fun elm => !acknowledges acknum ackv elm) with
  | nil =>
    refine Or.inl ⟨rfl, ?_⟩
    rw [ackRecv, hdrop]
  | cons elm older =>
    refine Or.inr ⟨hist.takeWhile (fun elm => !acknowledges acknum ackv elm), elm, older, ?_, rfl,
      ?_⟩
    · rw [← hdrop, takeWhile_append_dropWhile]
    · rw [ackRecv, hdrop]

theorem sendAckVectorArray_hist {hist : List AckHistEntry} {seqnum acknum size : ℕ}
    {r : List AckHistEntry × ℤ × List ℕ × ℕ}
    (h : v.sendAckVectorArray hist seqnum acknum size = some r) :
    r.1 = hist ∨ (v.size ≠ 0 ∧ v.addToAckHistory seqnum hist = some r.1) := by
  rw [sendAckVectorArray] at h
  split at h
  · cases h
  · dsimp only at h
    split at h
    · next hpos =>
        obtain ⟨hist', hadd, rfl⟩ := Option.map_eq_some_iff.mp h
        refine Or.inr ⟨fun hzero => ?_, hadd⟩
        rw [getAckVector, if_pos hzero] at hpos
        exact absurd hpos (by show ¬ (0 : ℤ) < -1; decide)
    · cases h
      exact Or.inl rfl

theorem sendAckVector_hist {hist : List AckHistEntry} {seqnum acknum : ℕ} {options : DccpOptions}
    {r : DccpOptions × List AckHistEntry}
    (h : v.sendAckVector hist seqnum acknum options = some r) :
    v.size ≠ 0 ∧ v.addToAckHistory seqnum hist = some r.2 := by
  rw [sendAckVector] at h
  split at h
  · cases h
  · split at h
    · cases h
    · next hne =>
        dsimp only at h
        split at h
        · split at h
          · obtain ⟨hist', hadd, rfl⟩ := Option.map_eq_some_iff.mp h
            exact ⟨hne, hadd⟩
          · cases h
        · cases h

/-! ## The law -/

def Welcome (t : Session) (s : ℕ) : Prop :=
  s < 2 ^ 32 ∧
    if t.vector.size = 0 then t.cleared = none ∨ t.vector.seqHead < s else NoWrap t.vector s

def Regular (t : Session) : HistCall → Prop
  | .addPacket seqnum _ => Welcome t seqnum
  | .addPacketEcn seqnum _ _ => Welcome t seqnum
  | .sendAckVectorArray seqnum _ => ∀ m ∈ t.lastSent, m < seqnum
  | .sendAckVector seqnum _ => ∀ m ∈ t.lastSent, m < seqnum
  | .ackRecv _ _ => True

instance decidableWelcome (t : Session) (s : ℕ) : Decidable (Welcome t s) :=
  inferInstanceAs (Decidable (_ ∧ _))

instance decidableRegular (t : Session) : (call : HistCall) → Decidable (Regular t call)
  | .addPacket seqnum _ => inferInstanceAs (Decidable (Welcome t seqnum))
  | .addPacketEcn seqnum _ _ => inferInstanceAs (Decidable (Welcome t seqnum))
  | .sendAckVectorArray seqnum _ => inferInstanceAs (Decidable (∀ m ∈ t.lastSent, m < seqnum))
  | .sendAckVector seqnum _ => inferInstanceAs (Decidable (∀ m ∈ t.lastSent, m < seqnum))
  | .ackRecv _ _ => isTrue trivial

def HistCall.packet : HistCall → Option ℕ
  | .addPacket seqnum _ => some seqnum
  | .addPacketEcn seqnum _ _ => some seqnum
  | _ => none

/-- What holds in every state of a regular run. -/
structure Kempt (t : Session) : Prop where
  sound : Sound t.vector
  fresh : t.vector.size = 0 → t.cleared = none → t.hist = [] ∧ t.vector.seqHead = 0
  sent : ∀ e ∈ t.hist, ∃ m ∈ t.lastSent, e.seqSent ≤ m
  below : ∀ e ∈ t.hist, e.ackNum ≤ t.vector.seqHead
  cleared : ∀ c ∈ t.cleared, c ≤ t.vector.seqHead ∧ (t.vector.size ≠ 0 → c < t.vector.seqTail)

/-- What one call does to the packets. -/
structure Onward (t t' : Session) (call : HistCall) (ok : Bool) : Prop where
  seqHead : t.vector.seqHead ≤ t'.vector.seqHead
  refused : ∀ s ∈ call.packet, ∀ c ∈ t.cleared, s ≤ c → ok = false

theorem Kempt.init {initialSize : ℕ} (htwo : 2 ≤ initialSize)
    (hmax : initialSize ≤ dccpMaxAckvSize) : Kempt (Session.init initialSize) :=
  ⟨Or.inl ⟨rfl, htwo, hmax, Nat.two_pow_pos 32⟩, fun _ _ => ⟨rfl, rfl⟩, by simp [Session.init],
    by simp [Session.init], by simp [Session.init]⟩

theorem Kempt.added {t : Session} {r : DccpAckVector × Bool} {ecn : EcnCodepoint} (h : Kempt t)
    (hs : Welcome t s) (hsound : Sound r.1)
    (hr : (r.2 = true ∧ Added t.vector r.1 s st) ∨ (r.2 = false ∧ SameView t.vector r.1)) :
    Kempt (t.added s ecn r).1 ∧ t.vector.seqHead ≤ r.1.seqHead ∧
      ∀ c ∈ t.cleared, s ≤ c → r.2 = false := by
  obtain ⟨hlt, hwelcome⟩ := hs
  rcases hr with ⟨-, hadd⟩ | ⟨hf, hsame⟩
  · by_cases hsize : t.vector.size = 0
    · -- the vector starts afresh
      rw [if_pos hsize] at hwelcome
      obtain ⟨hhead, htail⟩ := hadd.first hsize
      have hle : t.vector.seqHead ≤ s := by
        rcases hwelcome with hnone | hnewer
        · rw [(h.fresh hsize hnone).2]
          exact Nat.zero_le s
        · exact hnewer.le
      have hcleared : ∀ c ∈ t.cleared, c < s := by
        intro c hc
        rcases hwelcome with hnone | hnewer
        · rw [hnone] at hc
          cases hc
        · exact (h.cleared c hc).1.trans_lt hnewer
      refine ⟨⟨hsound, fun hz => absurd hz hadd.size, h.sent, fun e he => ?_, fun c hc => ?_⟩,
        hhead ▸ hle, fun c hc hsc => ?_⟩
      · exact (h.below e he).trans (hhead ▸ hle)
      · have := hcleared c hc
        exact ⟨hhead ▸ this.le, fun _ => htail ▸ this⟩
      · have := hcleared c hc
        omega
    · obtain ⟨hin, hhead, htail⟩ := hadd.next hsize
      have hle : t.vector.seqHead ≤ r.1.seqHead := hhead ▸ Nat.le_max_left _ _
      refine ⟨⟨hsound, fun hz => absurd hz hadd.size, h.sent, fun e he => ?_, fun c hc => ?_⟩,
        hle, fun c hc hsc => ?_⟩
      · exact (h.below e he).trans hle
      · obtain ⟨h1, h2⟩ := h.cleared c hc
        exact ⟨h1.trans hle, fun _ => htail ▸ h2 hsize⟩
      · have := (h.cleared c hc).2 hsize
        omega
  · refine ⟨⟨hsound, fun hz hnone => ?_, h.sent, fun e he => ?_, fun c hc => ?_⟩,
      hsame.seqHead.ge, fun _ _ _ => hf⟩
    · obtain ⟨h1, h2⟩ := h.fresh (hsame.size ▸ hz) hnone
      exact ⟨h1, hsame.seqHead.trans h2⟩
    · exact hsame.seqHead ▸ h.below e he
    · obtain ⟨h1, h2⟩ := h.cleared c hc
      exact ⟨hsame.seqHead ▸ h1, fun hne => hsame.seqTail ▸ h2 (hsame.size ▸ hne)⟩

theorem addPacketEcn_sound {ecn : EcnCodepoint} {addNonce : Bool} (h : Sound v) (hs : s < 2 ^ 32)
    (hwrap : v.size ≠ 0 → NoWrap v s) :
    Sound (addPacketEcn s ecn addNonce v).1 ∧
      (((addPacketEcn s ecn addNonce v).2 = true ∧
          Added v (addPacketEcn s ecn addNonce v).1 s (if ecn = .ce then .ecn else .recv)) ∨
        ((addPacketEcn s ecn addNonce v).2 = false ∧
          SameView v (addPacketEcn s ecn addNonce v).1)) := by
  obtain ⟨hsound, hcases⟩ := @addPacket_sound v s (if ecn = .ce then .ecn else .recv) h hs hwrap
  rw [addPacketEcn]
  generalize (if ecn = .ce then PacketState.ecn else .recv) = st at hsound hcases ⊢
  split
  · next hnonce =>
      refine ⟨hsound.withEne _, ?_⟩
      rcases hcases with ⟨ht, hadd⟩ | ⟨hf, -⟩
      · exact Or.inl ⟨ht, hadd.takes, hadd.size, hadd.first, hadd.next,
          fun s' => (stateAt_ene _ s').trans (hadd.stateAt s')⟩
      · rw [hf] at hnonce
        cases hnonce.1
  · exact ⟨hsound, hcases⟩

theorem Kempt.send {t : Session} {seqnum : ℕ} {hist : List AckHistEntry} (h : Kempt t)
    (hseq : ∀ m ∈ t.lastSent, m < seqnum)
    (hr : hist = t.hist ∨
      (t.vector.size ≠ 0 ∧ t.vector.addToAckHistory seqnum t.hist = some hist)) :
    Kempt { t with hist, lastSent := some seqnum } := by
  have hsent : ∀ e ∈ t.hist, e.seqSent ≤ seqnum := by
    intro e he
    obtain ⟨m, hm, hle⟩ := h.sent e he
    exact hle.trans (hseq m hm).le
  rcases hr with rfl | ⟨hsize, hadd⟩
  · exact ⟨h.sound, h.fresh, fun e he => ⟨seqnum, rfl, hsent e he⟩, h.below, h.cleared⟩
  · rw [addToAckHistory] at hadd
    split at hadd
    · cases hadd
      refine ⟨h.sound, fun hz => absurd hz hsize, fun e he => ?_, fun e he => ?_, h.cleared⟩
      · rcases mem_cons.mp he with rfl | he
        · exact ⟨seqnum, rfl, le_rfl⟩
        · exact ⟨seqnum, rfl, hsent e he⟩
      · rcases mem_cons.mp he with rfl | he
        · exact le_rfl
        · exact h.below e he
    · cases hadd

theorem Kempt.acked {t : Session} {acknum : ℕ} {ackv : Option DccpAckVector} (h : Kempt t) :
    Kempt (t.acked acknum ackv) ∧ (t.acked acknum ackv).vector.seqHead = t.vector.seqHead := by
  rcases ackRecv_cases t.vector t.hist acknum ackv with
    ⟨hdrop, heq⟩ | ⟨later, elm, older, hhist, hdrop, heq⟩
  · rw [Session.acked, heq, hdrop]
    exact ⟨h, rfl⟩
  · rw [Session.acked, heq, hdrop]
    obtain ⟨hsound, hrem⟩ :=
      removePackets_sound (h.sound.withEne (t.vector.ene ^^^ elm.ene)) elm.ackNum
    generalize ({ t.vector with ene := t.vector.ene ^^^ elm.ene }.removePackets elm.ackNum) = v'
      at hsound hrem ⊢
    have hhead : v'.seqHead = t.vector.seqHead := hrem.seqHead
    have helm : elm.ackNum ≤ t.vector.seqHead := h.below elm (by simp [hhist])
    refine ⟨⟨hsound, fun _ hnone => (by cases hnone), fun e he => ?_, fun e he => ?_,
      fun c hc => ?_⟩, hhead⟩
    · obtain ⟨e', he', rfl⟩ := mem_map.mp he
      exact h.sent e' (by simp [hhist, he'])
    · obtain ⟨e', he', rfl⟩ := mem_map.mp he
      rw [hhead]
      exact h.below e' (by simp [hhist, he'])
    · have hc' : c = max (t.cleared.getD 0) elm.ackNum := (Option.some.inj hc).symm
      show c ≤ v'.seqHead ∧ (v'.size ≠ 0 → c < v'.seqTail)
      have hold : t.cleared.getD 0 ≤ t.vector.seqHead ∧
          (v'.size ≠ 0 → t.cleared.getD 0 < v'.seqTail) := by
        cases hcleared : t.cleared with
        | none =>
          refine ⟨Nat.zero_le _, fun hne => ?_⟩
          have := (hrem.left hne).2.2
          show 0 < v'.seqTail
          omega
        | some c₀ =>
          obtain ⟨h1, h2⟩ := h.cleared c₀ hcleared
          refine ⟨h1, fun hne => ?_⟩
          obtain ⟨hne', hle, -⟩ := hrem.left hne
          have h3 : t.vector.seqTail ≤ v'.seqTail := hle
          exact (h2 hne').trans_le h3
      refine ⟨by omega, fun hne => ?_⟩
      have h2 := (hrem.left hne).2.2
      omega

/-- The step lemma for regular calls. -/
theorem Kempt.step {t t' : Session} {call : HistCall} {ok : Bool} (h : Kempt t)
    (hcall : Regular t call) (hstep : t.step call = some (t', ok)) :
    Kempt t' ∧ Onward t t' call ok := by
  have hwrap : ∀ {s}, Welcome t s → t.vector.size ≠ 0 → NoWrap t.vector s := by
    intro s hs hne
    have := hs.2
    rwa [if_neg hne] at this
  cases call with
  | addPacket s st =>
    obtain ⟨hsound, hr⟩ := @addPacket_sound t.vector s st h.sound hcall.1 (hwrap hcall)
    obtain ⟨hkempt, hhead, hno⟩ := @Kempt.added s st t _ .notEct h hcall hsound hr
    cases hstep
    refine ⟨hkempt, hhead, fun s' hs' => ?_⟩
    cases hs'
    exact hno
  | addPacketEcn s ecn addNonce =>
    obtain ⟨hsound, hr⟩ :=
      @addPacketEcn_sound t.vector s ecn addNonce h.sound hcall.1 (hwrap hcall)
    obtain ⟨hkempt, hhead, hno⟩ := @Kempt.added s _ t _ ecn h hcall hsound hr
    cases hstep
    refine ⟨hkempt, hhead, fun s' hs' => ?_⟩
    cases hs'
    exact hno
  | sendAckVectorArray seqnum size =>
    obtain ⟨r, hr, heq⟩ := Option.map_eq_some_iff.mp hstep
    cases heq
    exact ⟨h.send hcall (sendAckVectorArray_hist hr), le_rfl, fun s hs => by cases hs⟩
  | sendAckVector seqnum options =>
    obtain ⟨r, hr, heq⟩ := Option.map_eq_some_iff.mp hstep
    cases heq
    exact ⟨h.send hcall (Or.inr (sendAckVector_hist hr)), le_rfl, fun s hs => by cases hs⟩
  | ackRecv acknum ackv =>
    obtain ⟨hkempt, hhead⟩ := @Kempt.acked t acknum ackv h
    cases hstep
    exact ⟨hkempt, hhead.ge, fun s hs => by cases hs⟩

theorem Kempt.addToAckHistory {t : Session} {seqnum : ℕ} (h : Kempt t)
    (hseq : ∀ m ∈ t.lastSent, m < seqnum) :
    (t.vector.addToAckHistory seqnum t.hist).isSome = true := by
  have hok : HistOk t.vector seqnum t.hist := by
    cases hhist : t.hist with
    | nil => trivial
    | cons e es =>
      obtain ⟨m, hm, hle⟩ := h.sent e (by simp [hhist])
      exact ⟨hle.trans_lt (hseq m hm), h.below e (by simp [hhist])⟩
  rw [DccpAckVector.addToAckHistory, if_pos hok]
  rfl

/-- **An acknowledged packet stays out.** In a run in which an emptied vector only takes packets that
are newer than its head, and in which no packet runs around the sequence numbers: `addToAckHistory`
would not abort for any greater number, and no further call lets the head go back or adds a packet
at or below what was acknowledged. -/
theorem acked_stays_acked (initialSize : ℕ) (htwo : 2 ≤ initialSize)
    (hmax : initialSize ≤ dccpMaxAckvSize) (calls : List HistCall)
    (hcalls : Runs.Meets Session.step Regular (Session.init initialSize) calls) (t : Session)
    (oks : List Bool) (hrun : Runs.run Session.step (Session.init initialSize) calls = some (t, oks)) :
    (∀ seqnum, (∀ m ∈ t.lastSent, m < seqnum) →
        (t.vector.addToAckHistory seqnum t.hist).isSome = true) ∧
      ∀ call t' ok, Regular t call → t.step call = some (t', ok) → Onward t t' call ok := by
  have hkempt : Kempt t :=
    @Runs.run_preserves _ _ _ _ _ _ _ _ _ [] (fun _ t => Kempt t)
      (fun _ t call t' ok h hcall hstep => (h.step hcall hstep).1) (Kempt.init htwo hmax) hcalls
      hrun
  exact ⟨fun seqnum hseq => hkempt.addToAckHistory hseq,
    fun call t' ok hcall hstep => (hkempt.step hcall hstep).2⟩

/-- Packet 5 is received, reported twice and acknowledged once. -/
def ackedOnce : List HistCall :=
  [.addPacket 5 .recv, .sendAckVectorArray 1 20, .sendAckVectorArray 2 20, .ackRecv 1 none]

/-- An old copy of packet 3 comes to the emptied vector: it is added, the head goes back from 5 to 3,
and the next time that the vector is sent `addToAckHistory` aborts. -/
theorem acked_packet_returns :
    ∃ r ∈ Runs.run Session.step (Session.init 20) ackedOnce,
      r.1.cleared = some 5 ∧ r.1.lastSent = some 2 ∧ r.1.vector.seqHead = 5 ∧
        ∃ r' ∈ r.1.step (.addPacket 3 .recv),
          r'.2 = true ∧ r'.1.vector.seqHead = 3 ∧
            (r'.1.vector.addToAckHistory 3 r'.1.hist).isSome = false := by
  decide +kernel

theorem acked_stays_acked_newer :
    ∃ r ∈ Runs.run Session.step (Session.init 20) (ackedOnce ++ [.addPacket 7 .recv]),
      (r.1.vector.addToAckHistory 3 r.1.hist).isSome = true ∧
        ∀ t' ok, r.1.step (.addPacket 4 .recv) = some (t', ok) → ok = false := by
  have hcalls : Runs.Meets Session.step Regular (Session.init 20)
      (ackedOnce ++ [.addPacket 7 .recv]) := by
    decide +kernel
  have hlast : ∃ r ∈ Runs.run Session.step (Session.init 20) (ackedOnce ++ [.addPacket 7 .recv]),
      r.1.lastSent = some 2 ∧ r.1.cleared = some 5 ∧ Welcome r.1 4 := by
    decide +kernel
  obtain ⟨⟨t, oks⟩, hrun, hsent, hcleared, hwelcome⟩ := hlast
  obtain ⟨habort, hnext⟩ := acked_stays_acked 20 (by decide) (by decide) _ hcalls t oks hrun
  refine ⟨(t, oks), hrun, habort 3 (fun m hm => ?_), fun t' ok hstep => ?_⟩
  · rw [Option.mem_def.mp hm] at hsent
    cases hsent
    decide
  · exact (hnext (.addPacket 4 .recv) t' ok hwelcome hstep).refused 4 rfl 5 hcleared (by decide)

end DccpAckVector

end NetSim
