import NetSim.Dccp.AckHistory
import NetSim.Lib.XorSum

/-! # The ECN nonce echo

`ene_` should be the exclusive or of the nonces of the packets that the vector reports as received.
`addPacket` adds the nonce of a packet each time it is added, and `ackRecv` subtracts what was sent
with the acknowledged vector. So the sum is wrong after a packet is received twice
(`nonce_counted_twice`), and after a packet that came late, below the head of a vector that was sent
before, is dropped. In a run without such packets it is right (`ene_is_nonceSum`).
-/

namespace NetSim

open Function List

/-- The nonce of a codepoint: `ECN_ECT1` is the only one that counts. -/
def EcnCodepoint.nonce : EcnCodepoint → ℕ
  | .ect1 => 1
  | _ => 0

namespace DccpAckVector

open XorSum

variable {v v' : DccpAckVector} {t t' : Session} {s : ℕ} {ecn : EcnCodepoint}

/-! ## The sum -/

def weight (v : DccpAckVector) (codepoint : ℕ → EcnCodepoint) (s : ℕ) : ℕ :=
  if v.stateAt s = .recv then (codepoint s).nonce else 0

/-- **The sum of the nonces** of the packets that the vector reports as received. -/
def nonceSum (v : DccpAckVector) (codepoint : ℕ → EcnCodepoint) : ℕ :=
  ((ascending v.seqTail v.seqHead).map (weight v codepoint)).foldr (· ^^^ ·) 0

def CountsNonces : HistCall → Prop
  | .addPacket _ _ => False
  | .addPacketEcn _ _ addNonce => addNonce = true
  | _ => True

/-- The packet adds its nonce once: when it has one, it was not received before, and it is newer than
all that was sent and not acknowledged yet. A packet that the vector does not take is harmless. -/
def Single (t : Session) (s : ℕ) (ecn : EcnCodepoint) : Prop :=
  ecn = .ect1 → Takes t.vector s .recv →
    t.vector.stateAt s = .notRecv ∧ ∀ e ∈ t.hist, e.ackNum < s

def Counted (t : Session) : HistCall → Prop
  | .addPacketEcn seqnum ecn _ =>
    seqnum < 2 ^ 32 ∧ (t.vector.size ≠ 0 → NoWrap t.vector seqnum) ∧ Single t seqnum ecn
  | _ => True

instance decidableSingle (t : Session) (s : ℕ) (ecn : EcnCodepoint) : Decidable (Single t s ecn) :=
  inferInstanceAs (Decidable (_ → _))

instance decidableCounted (t : Session) : (call : HistCall) → Decidable (Counted t call)
  | .addPacketEcn _ _ _ => inferInstanceAs (Decidable (_ ∧ _))
  | .addPacket _ _ => isTrue trivial
  | .sendAckVectorArray _ _ => isTrue trivial
  | .sendAckVector _ _ => isTrue trivial
  | .ackRecv _ _ => isTrue trivial

theorem weight_newer {codepoint : ℕ → EcnCodepoint} (h : v.seqHead < s) :
    weight v codepoint s = 0 := by
  rw [weight, stateAt_newer h]
  rfl

theorem weight_older {codepoint : ℕ → EcnCodepoint} (h : s < v.seqTail) :
    weight v codepoint s = 0 := by
  rw [weight, stateAt_older h]
  rfl

theorem nonceSum_eq (v : DccpAckVector) (codepoint : ℕ → EcnCodepoint) :
    nonceSum v codepoint = xorSum (weight v codepoint) (v.seqHead + 1) := by
  rw [nonceSum, ascending, map_map]
  rcases Nat.lt_or_ge (v.seqHead + 1) v.seqTail with hempty | hle
  · rw [xorSum_zero (fun k hk => weight_older (by omega)),
      show v.seqHead + 1 - v.seqTail = 0 by omega]
    rfl
  · rw [xorSum_start hle (fun k hk => weight_older hk)]
    exact foldr_range _ _

/-- The nonces of the packets up to `a`. -/
def sumTo (t : Session) (a : ℕ) : ℕ := xorSum (weight t.vector t.codepoint) (a + 1)

/-- What holds in every state of a run in which every packet adds its nonce once: the echo is the sum
of the nonces, and an entry of the history holds the sum up to its `ack_num_`. -/
structure Echo (t : Session) : Prop where
  sound : Sound t.vector
  sorted : t.hist.Pairwise (fun e e' => e'.ackNum ≤ e.ackNum)
  ene : t.vector.ene = sumTo t t.vector.seqHead
  hist : ∀ e ∈ t.hist, e.ene = sumTo t e.ackNum

theorem sumTo_newer {a : ℕ} (h : t.vector.seqHead ≤ a) : sumTo t a = sumTo t t.vector.seqHead :=
  xorSum_stop (by omega) (fun _ hk => weight_newer (by omega))

theorem Echo.init {initialSize : ℕ} (htwo : 2 ≤ initialSize)
    (hmax : initialSize ≤ dccpMaxAckvSize) : Echo (Session.init initialSize) := by
  refine ⟨Or.inl ⟨rfl, htwo, hmax, Nat.two_pow_pos 32⟩, List.Pairwise.nil, ?_, ?_⟩
  · refine (xorSum_zero (fun k _ => ?_)).symm
    rfl
  · exact fun e he => absurd he not_mem_nil

/-! ## The calls -/

theorem cons_held {old : PacketState} (h : old ≠ .notRecv) :
    old.cons (if ecn = .ce then .ecn else .recv) = old := by
  cases old with
  | recv => split <;> rfl
  | ecn => split <;> rfl
  | reserved => rfl
  | notRecv => exact absurd rfl h

theorem addPacketEcn_ene :
    (addPacketEcn s ecn true v).1.ene =
      if (addPacketEcn s ecn true v).2 = true then v.ene ^^^ ecn.nonce else v.ene := by
  have hene : (addPacket s (if ecn = .ce then .ecn else .recv) v.growths v).1.ene = v.ene :=
    addPacket_ene
  rw [addPacketEcn]
  generalize (if ecn = .ce then PacketState.ecn else .recv) = st at hene ⊢
  split
  · next hnonce =>
      rw [if_pos hnonce.1, hene]
      rcases hnonce.2.2 with rfl | rfl <;> rfl
  · next hno =>
      rw [hene]
      split
      · next hadded =>
          have hzero : ecn.nonce = 0 := by
            cases ecn with
            | ect0 => rfl
            | ect1 => exact absurd ⟨hadded, rfl, Or.inr rfl⟩ hno
            | notEct => rfl
            | ce => rfl
          rw [hzero, Nat.xor_zero]
      · rfl

theorem sumTo_empty (h : t.vector.size = 0) (a : ℕ) : sumTo t a = 0 := by
  refine xorSum_zero (fun k _ => ?_)
  rw [weight, stateAt_empty h]
  rfl

theorem Echo.shift {x : ℕ} (h : Echo t) (hsound : Sound t'.vector) (hhist : t'.hist = t.hist)
    (hx : weight t'.vector t'.codepoint s = weight t.vector t.codepoint s ^^^ x)
    (hother : ∀ k, k ≠ s → weight t'.vector t'.codepoint k = weight t.vector t.codepoint k)
    (hene : t'.vector.ene = t.vector.ene ^^^ x)
    (hhead : t.vector.size = 0 ∨ t.vector.seqHead ≤ t'.vector.seqHead)
    (hs : x = 0 ∨ (s ≤ t'.vector.seqHead ∧ ∀ e ∈ t.hist, e.ackNum < s)) : Echo t' := by
  have hsum : sumTo t t'.vector.seqHead = sumTo t t.vector.seqHead := by
    rcases hhead with hsize | hle
    · rw [sumTo_empty hsize, sumTo_empty hsize]
    · exact sumTo_newer hle
  rcases hs with rfl | ⟨hle, hlater⟩
  · -- nothing changes
    have hweight : ∀ a, sumTo t' a = sumTo t a := by
      intro a
      refine xorSum_congr (fun k _ => ?_)
      by_cases hk : k = s
      · rw [hk, hx, Nat.xor_zero]
      · exact hother k hk
    refine ⟨hsound, hhist ▸ h.sorted, ?_, fun e he => ?_⟩
    · rw [hene, Nat.xor_zero, hweight, hsum, h.ene]
    · rw [hweight]
      exact h.hist e (hhist ▸ he)
  · refine ⟨hsound, hhist ▸ h.sorted, ?_, fun e he => ?_⟩
    · calc t'.vector.ene
          = sumTo t t'.vector.seqHead ^^^ x := by rw [hene, h.ene, hsum]
        _ = sumTo t' t'.vector.seqHead := (xorSum_update (by omega) hx hother).symm
    · have he' : e ∈ t.hist := hhist ▸ he
      have hlt := hlater e he'
      calc e.ene
          = sumTo t e.ackNum := h.hist e he'
        _ = sumTo t' e.ackNum := xorSum_congr (fun k hk => (hother k (by omega)).symm)

theorem Echo.added (h : Echo t) (hlt : s < 2 ^ 32)
    (hwrap : t.vector.size ≠ 0 → NoWrap t.vector s) (hsingle : Single t s ecn) :
    Echo (t.added s ecn (addPacketEcn s ecn true t.vector)).1 := by
  obtain ⟨hsound, hcases⟩ := @addPacketEcn_sound t.vector s ecn true h.sound hlt hwrap
  have hene := @addPacketEcn_ene t.vector s ecn
  obtain ⟨r, hr⟩ : ∃ r, r = addPacketEcn s ecn true t.vector := ⟨_, rfl⟩
  rw [← hr] at hsound hcases hene ⊢
  rcases hcases with ⟨ht, hadd⟩ | ⟨hf, hsame⟩
  · rw [if_pos ht] at hene
    have hhead : t.vector.size = 0 ∨ t.vector.seqHead ≤ r.1.seqHead := by
      by_cases hsize : t.vector.size = 0
      · exact Or.inl hsize
      · exact Or.inr ((hadd.next hsize).2.1 ▸ Nat.le_max_left _ _)
    have hle : s ≤ r.1.seqHead := by
      by_cases hsize : t.vector.size = 0
      · exact (hadd.first hsize).1.ge
      · exact (hadd.next hsize).2.1 ▸ Nat.le_max_right _ _
    have hone : ecn = .ect1 → t.vector.stateAt s = .notRecv ∧ ∀ e ∈ t.hist, e.ackNum < s := by
      intro hect
      have htakes := hadd.takes
      rw [hect] at htakes
      exact hsingle hect htakes
    have hnonce : ecn ≠ .ect1 → ecn.nonce = 0 := by
      intro hne
      cases ecn with
      | ect1 => exact absurd rfl hne
      | _ => rfl
    by_cases hheld : t.vector.stateAt s = .notRecv
    · -- the packet is received now
      refine @Echo.shift t _ s ecn.nonce h hsound rfl ?_ (fun k hk => ?_) hene hhead ?_
      · show weight r.1 (if r.2 = true ∧ t.vector.stateAt s = .notRecv then
          update t.codepoint s ecn else t.codepoint) s = _
        have hbefore : weight t.vector t.codepoint s = 0 := by
          rw [weight, hheld]
          rfl
        rw [if_pos ⟨ht, hheld⟩, weight, hadd.stateAt, if_pos rfl, hheld, update_self,
          hbefore, Nat.zero_xor]
        cases ecn <;> rfl
      · show weight r.1 (if r.2 = true ∧ t.vector.stateAt s = .notRecv then
          update t.codepoint s ecn else t.codepoint) k = _
        rw [if_pos ⟨ht, hheld⟩, weight, hadd.stateAt, if_neg (Ne.symm hk),
          update_of_ne hk]
        rfl
      · by_cases hect : ecn = .ect1
        · exact Or.inr ⟨hle, (hone hect).2⟩
        · exact Or.inl (hnonce hect)
    · -- it was received before, and has no nonce
      have hect : ecn ≠ .ect1 := fun hect => hheld (hone hect).1
      have hweight : ∀ k, weight r.1 (if r.2 = true ∧ t.vector.stateAt s = .notRecv then
          update t.codepoint s ecn else t.codepoint) k =
          weight t.vector t.codepoint k := by
        intro k
        rw [if_neg (fun hc => hheld hc.2), weight, weight, hadd.stateAt]
        split
        · next heq =>
            subst heq
            rw [cons_held hheld]
        · rfl
      refine @Echo.shift t _ s 0 h hsound rfl ?_ (fun k _ => hweight k) ?_ hhead (Or.inl rfl)
      · rw [Nat.xor_zero]
        exact hweight s
      · rw [Nat.xor_zero]
        show r.1.ene = t.vector.ene
        rw [hene, hnonce hect, Nat.xor_zero]
  -- the packet was refused, so the nonce and the states stay
  · rw [if_neg (by rw [hf]; simp)] at hene
    have hweight : ∀ k, weight r.1 (if r.2 = true ∧ t.vector.stateAt s = .notRecv then
        update t.codepoint s ecn else t.codepoint) k =
        weight t.vector t.codepoint k := by
      intro k
      rw [if_neg (fun hc => by rw [hf] at hc; cases hc.1), weight, weight, hsame.stateAt]
    refine @Echo.shift t _ s 0 h hsound rfl ?_ (fun k _ => hweight k) ?_
      (Or.inr hsame.seqHead.ge) (Or.inl rfl)
    · rw [Nat.xor_zero]
      exact hweight s
    · rw [Nat.xor_zero]
      exact hene

theorem Echo.send {seqnum : ℕ} {hist : List AckHistEntry} (h : Echo t)
    (hr : hist = t.hist ∨
      (t.vector.size ≠ 0 ∧ t.vector.addToAckHistory seqnum t.hist = some hist)) :
    Echo { t with hist, lastSent := some seqnum } := by
  rcases hr with rfl | ⟨-, hadd⟩
  · exact ⟨h.sound, h.sorted, h.ene, h.hist⟩
  · rw [addToAckHistory] at hadd
    split at hadd
    · next hok =>
        cases hadd
        have hbelow : ∀ e ∈ t.hist, e.ackNum ≤ t.vector.seqHead := by
          have hsorted := h.sorted
          cases hhist : t.hist with
          | nil => exact fun e he => absurd he not_mem_nil
          | cons newest older =>
            rw [hhist] at hok hsorted
            intro e he
            rcases mem_cons.mp he with rfl | he
            · exact hok.2
            · exact ((pairwise_cons.mp hsorted).1 e he).trans hok.2
        refine ⟨h.sound, pairwise_cons.mpr ⟨hbelow, h.sorted⟩, h.ene, fun e he => ?_⟩
        rcases mem_cons.mp he with rfl | he
        · exact h.ene
        · exact h.hist e he
    · cases hadd

/-- **An acknowledgement** subtracts what was sent with the acknowledged vector. -/
theorem Echo.acked {acknum : ℕ} {ackv : Option DccpAckVector} (h : Echo t) :
    Echo (t.acked acknum ackv) := by
  rcases ackRecv_cases t.vector t.hist acknum ackv with
    ⟨hdrop, heq⟩ | ⟨later, elm, older, hhist, hdrop, heq⟩
  · rw [Session.acked, heq, hdrop]
    exact ⟨h.sound, h.sorted, h.ene, h.hist⟩
  · rw [Session.acked, heq, hdrop]
    obtain ⟨hsound, hrem⟩ :=
      removePackets_sound (h.sound.withEne (t.vector.ene ^^^ elm.ene)) elm.ackNum
    have helm : elm.ene = sumTo t elm.ackNum := h.hist elm (by simp [hhist])
    have hsorted := h.sorted
    rw [hhist, pairwise_append, pairwise_cons] at hsorted
    obtain ⟨hlater, -, hnewer⟩ := hsorted
    have hweight : ∀ k, weight ({ t.vector with ene := t.vector.ene ^^^ elm.ene }.removePackets
        elm.ackNum) t.codepoint k =
        if k ≤ elm.ackNum then 0 else weight t.vector t.codepoint k := by
      intro k
      rw [weight, hrem.stateAt, stateAt_ene]
      split
      · rfl
      · rfl
    have hhead := hrem.seqHead
    have hkeep := hrem.ene
    generalize ({ t.vector with ene := t.vector.ene ^^^ elm.ene }.removePackets elm.ackNum) = v'
      at hsound hweight hhead hkeep ⊢
    have hhead' : v'.seqHead = t.vector.seqHead := hhead
    -- beyond the acknowledged packets, a sum loses what was sent with them
    have hdropSum : ∀ a, elm.ackNum ≤ a →
        xorSum (weight v' t.codepoint) (a + 1) = sumTo t a ^^^ sumTo t elm.ackNum := by
      intro a ha
      refine xorSum_drop (by omega) (fun k hk => ?_) (fun k hk => ?_)
      · rw [hweight, if_pos (by omega)]
      · rw [hweight, if_neg (by omega)]
    refine ⟨hsound, ?_, ?_, fun e he => ?_⟩
    · rw [pairwise_map]
      exact hlater
    · show v'.ene = xorSum (weight v' t.codepoint) (v'.seqHead + 1)
      rw [hhead']
      rcases Nat.lt_or_ge elm.ackNum t.vector.seqHead with hlt | hge
      · rw [hdropSum _ hlt.le]
        rcases hkeep with hkeep | ⟨-, hall⟩
        · rw [hkeep, ← h.ene, ← helm]
        · omega
      · have hzero : xorSum (weight v' t.codepoint) (t.vector.seqHead + 1) = 0 :=
          xorSum_zero (fun k hk => by rw [hweight, if_pos (by omega)])
        rw [hzero]
        rcases hkeep with hkeep | ⟨hkeep, -⟩
        · rw [hkeep]
          rw [h.ene, helm, sumTo_newer hge, Nat.xor_self]
        · exact hkeep
    · obtain ⟨e', he', rfl⟩ := mem_map.mp he
      show e'.ene ^^^ elm.ene = xorSum (weight v' t.codepoint) (e'.ackNum + 1)
      rw [hdropSum _ (hnewer e' he' elm mem_cons_self), ← helm,
        ← h.hist e' (by simp [hhist, he'])]

/-- The step lemma: a counted packet changes the echo and the sum by its nonce. -/
theorem Echo.step {call : HistCall} {ok : Bool} (h : Echo t) (hcounts : CountsNonces call)
    (hcall : Counted t call) (hstep : t.step call = some (t', ok)) : Echo t' := by
  cases call with
  | addPacket s st => exact absurd hcounts id
  | addPacketEcn s ecn addNonce =>
    have hnonce : addNonce = true := hcounts
    subst hnonce
    cases hstep
    exact h.added hcall.1 hcall.2.1 hcall.2.2
  | sendAckVectorArray seqnum size =>
    obtain ⟨r, hr, heq⟩ := Option.map_eq_some_iff.mp hstep
    cases heq
    exact h.send (sendAckVectorArray_hist hr)
  | sendAckVector seqnum options =>
    obtain ⟨r, hr, heq⟩ := Option.map_eq_some_iff.mp hstep
    cases heq
    exact h.send (Or.inr (sendAckVector_hist hr))
  | ackRecv acknum ackv =>
    cases hstep
    exact h.acked

/-- **The echo is the sum of the nonces.** In a run in which every packet adds its nonce once, the
echo is, in every state, the exclusive or of the nonces of the packets that the vector reports as
received; and so is what a vector that is sent then carries. -/
theorem ene_is_nonceSum (initialSize : ℕ) (htwo : 2 ≤ initialSize)
    (hmax : initialSize ≤ dccpMaxAckvSize) (calls : List HistCall)
    (hcounts : ∀ call ∈ calls, CountsNonces call)
    (hcalls : Runs.Meets Session.step Counted (Session.init initialSize) calls) (t : Session)
    (oks : List Bool)
    (hrun : Runs.run Session.step (Session.init initialSize) calls = some (t, oks)) :
    t.vector.ene = nonceSum t.vector t.codepoint ∧
      t.vector.ackVectorType =
        if nonceSum t.vector t.codepoint = 0 then optAckVectorN0 else optAckVectorN1 := by
  have hecho : Echo t :=
    @Runs.run_preserves _ _ _ _ _ _ _ _ _ [] (fun _ t => Echo t)
      (fun _ t call t' ok h hcall hstep => h.step hcall.2 hcall.1 hstep) (Echo.init htwo hmax)
      (hcalls.and_forall hcounts) hrun
  have hene : t.vector.ene = nonceSum t.vector t.codepoint := by
    rw [nonceSum_eq]
    exact hecho.ene
  exact ⟨hene, by rw [ackVectorType, hene]⟩

/-- A packet with a nonce is received twice: the vector reports it, and the echo is zero. -/
theorem nonce_counted_twice :
    ∃ r ∈ Runs.run Session.step (Session.init 20)
        [.addPacketEcn 5 .ect1 true, .addPacketEcn 5 .ect1 true],
      r.1.vector.getState 5 = some .recv ∧ nonceSum r.1.vector r.1.codepoint = 1 ∧
        r.1.vector.ene = 0 := by
  decide +kernel

theorem ene_is_nonceSum_gap :
    ∃ r ∈ Runs.run Session.step (Session.init 20)
        [.addPacketEcn 4 .ect1 true, .addPacketEcn 6 .ce true, .sendAckVectorArray 1 20,
          .addPacketEcn 6 .ect0 true, .addPacketEcn 8 .ect1 true, .ackRecv 1 none],
      r.1.vector.seqTail = 7 ∧ r.1.vector.ene = nonceSum r.1.vector r.1.codepoint := by
  have hcalls : Runs.Meets Session.step Counted (Session.init 20)
      [.addPacketEcn 4 .ect1 true, .addPacketEcn 6 .ce true, .sendAckVectorArray 1 20,
        .addPacketEcn 6 .ect0 true, .addPacketEcn 8 .ect1 true, .ackRecv 1 none] := by
    decide +kernel
  have hlast : ∃ r ∈ Runs.run Session.step (Session.init 20)
      [.addPacketEcn 4 .ect1 true, .addPacketEcn 6 .ce true, .sendAckVectorArray 1 20,
        .addPacketEcn 6 .ect0 true, .addPacketEcn 8 .ect1 true, .ackRecv 1 none],
      r.1.vector.seqTail = 7 := by
    decide +kernel
  obtain ⟨⟨t, oks⟩, hrun, htail⟩ := hlast
  exact ⟨(t, oks), hrun, htail,
    (ene_is_nonceSum 20 (by decide) (by decide) _ (by simp [CountsNonces]) hcalls t oks hrun).1⟩

end DccpAckVector

end NetSim
