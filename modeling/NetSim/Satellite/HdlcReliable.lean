import NetSim.Lib.ReliableLink
import NetSim.Satellite.Hdlc

/-! # HDLC delivers exactly once and in order

Each direction of a connection is a reliable link: what the receiver passed up is a prefix of what the sender
accepted, and covers everything that is acknowledged (`hdlc_exactly_once`). The link of a station carries
its own I frames, and acknowledges and requests those of the peer.
-/

namespace NetSim.Hdlc

open Function List ReliableLink

/-! ## Frames -/

def codec : Codec Frame Packet where
  item
    | .iframe p _ => some (p.sendSeqno, p.strip)
    | _ => none
  ack
    | .iframe _ v => some v
    | .rr v => some v
    | _ => none
  request
    | .srej i => some i
    | _ => none

/-! ## The invariant -/

structure SendOk (a : ARQstate) : Prop where
  count : a.seqno = a.accepted.length
  ack_ge : -1 ≤ a.highestAck
  copies : ∀ p ∈ a.sendBuf, 0 ≤ p.sendSeqno ∧ a.accepted[p.sendSeqno.toNat]? = some p.strip
  kept : ∀ k, a.highestAck < k → k < a.accepted.length → ∃ p ∈ a.sendBuf, p.sendSeqno = k

/-- What a station knows of the packets of its peer: the next number that it expects, and the packets that
it holds in `seen_`. -/
structure RecvOk (cfg : Config) (accepted : List Packet) (a : ARQstate) : Prop where
  goBackN : cfg.selRepeat = false →
    a.recvSeqno = a.passedUp.length ∨ a.recvSeqno = -1 ∧ a.passedUp = []
  selRepeat : cfg.selRepeat = true → a.nextpkt = a.passedUp.length ∧
    Reorder mws accepted a.nextpkt a.maxseen a.seen

def ConnOk (a : ARQstate) : Prop :=
  a.sabmeReq = 2 ∨ a.sabmeReq = 1 ∨ a.sabmeReq = 0 ∧ a.recvSeqno = -1

structure StationOk (cfg : Config) (accepted : List Packet) (a : ARQstate) : Prop where
  send : SendOk a
  recv : RecvOk cfg accepted a
  conn : ConnOk a

/-- The invariant of a station `x` and its peer `y`. -/
structure PairOk (cx cy : Config) (x y : ARQstate) : Prop where
  here : StationOk cx y.accepted x
  there : StationOk cy x.accepted y
  out : Ok codec cx.wnd x.accepted (x.highestAck + 1) y.passedUp x.link y.link
  back : Ok codec cy.wnd y.accepted (y.highestAck + 1) x.passedUp y.link x.link

variable {cx cy : Config} {x y : ARQstate} {p : Numbered} {f : Frame}

theorem PairOk.symm (h : PairOk cx cy x y) : PairOk cy cx y x := ⟨h.there, h.here, h.back, h.out⟩

/-- The fields that the invariant of a station is about. -/
def ARQstate.core (a : ARQstate) :=
  ((a.seqno, a.highestAck, a.sendBuf, a.accepted), (a.recvSeqno, a.nextpkt, a.maxseen, a.seen),
    a.passedUp, a.sabmeReq)

theorem StationOk.of_core {cfg : Config} {accepted : List Packet} {a a' : ARQstate}
    (h : StationOk cfg accepted a) (hcore : a'.core = a.core) : StationOk cfg accepted a' := by
  unfold ARQstate.core at hcore
  simp only [Prod.mk.injEq] at hcore
  obtain ⟨⟨hseqno, hack, hbuf, hacc⟩, ⟨hrecv, hnext, hmax, hseen⟩, hpassed, hsabme⟩ := hcore
  refine ⟨⟨?_, ?_, ?_, ?_⟩, ⟨?_, ?_⟩, ?_⟩
  · rw [hseqno, hacc]
    exact h.send.count
  · rw [hack]
    exact h.send.ack_ge
  · rw [hbuf, hacc]
    exact h.send.copies
  · rw [hbuf, hacc, hack]
    exact h.send.kept
  · rw [hrecv, hpassed]
    exact h.recv.goBackN
  · rw [hnext, hpassed, hmax, hseen]
    exact h.recv.selRepeat
  · unfold ConnOk
    rw [hsabme, hrecv]
    exact h.conn

theorem PairOk.of_core {x' : ARQstate} (h : PairOk cx cy x y) (hcore : x'.core = x.core)
    (hlink : x'.link = x.link) : PairOk cx cy x' y := by
  have hhere := h.here.of_core hcore
  have hthere := h.there
  have hout := h.out
  have hback := h.back
  unfold ARQstate.core at hcore
  simp only [Prod.mk.injEq] at hcore
  obtain ⟨⟨-, hack, -, hacc⟩, -, hpassed, -⟩ := hcore
  rw [← hacc] at hthere hout
  rw [← hack, ← hlink] at hout
  rw [← hpassed, ← hlink] at hback
  exact ⟨hhere, hthere, hout, hback⟩

theorem RecvOk.ackSeqno_le {cfg : Config} {accepted : List Packet} (h : RecvOk cfg accepted x) :
    x.ackSeqno cfg ≤ x.passedUp.length := by
  unfold ARQstate.ackSeqno
  by_cases hsel : cfg.selRepeat = true
  · rw [if_pos hsel]
    exact le_of_eq (h.selRepeat hsel).1
  · rw [if_neg hsel]
    rcases h.goBackN (Bool.eq_false_iff.mpr hsel) with heq | ⟨heq, -⟩
    · exact le_of_eq heq
    · omega

theorem getPkt_some {buffer : List Numbered} {k : ℤ} (h : getPkt buffer k = some p) :
    p ∈ buffer ∧ p.sendSeqno = k := by
  have hdec := find?_some h
  exact ⟨mem_of_find?_eq_some h, of_decide_eq_true hdec⟩

theorem getPkt_isSome {buffer : List Numbered} {k : ℤ} (h : ∃ p ∈ buffer, p.sendSeqno = k) :
    ∃ p, getPkt buffer k = some p := by
  obtain ⟨p, hp, hk⟩ := h
  have hsome : (buffer.find? (·.sendSeqno = k)).isSome := by
    rw [find?_isSome]
    exact ⟨p, hp, decide_eq_true hk⟩
  exact Option.isSome_iff_exists.mp hsome

/-! ## Frames sent -/

theorem PairOk.sendDown (h : PairOk cx cy x y) (hitem : codec.item f = none)
    (hack : ∀ v, codec.ack f = some v → v ≤ x.passedUp.length)
    (hrequest : ∀ i, codec.request f = some i →
      (x.passedUp.length : ℤ) ≤ i ∧ i < y.accepted.length ∧ i < y.highestAck + 1 + cy.wnd) :
    PairOk cx cy (x.sendDown f) y where
  here := h.here.of_core rfl
  there := h.there
  out := h.out.send (fun k z hz => by rw [hitem] at hz; cases hz)
  back := h.back.reply hack hrequest

theorem PairOk.output (h : PairOk cx cy x y) (hp : p ∈ x.sendBuf)
    (hwnd : p.sendSeqno ≤ x.highestAck + cx.wnd) (seqno : ℤ) :
    PairOk cx cy (x.output cx p seqno) y where
  here := h.here.of_core rfl
  there := h.there
  out := by
    refine h.out.send (fun k z hz => ?_)
    cases hz
    obtain ⟨hk, hget⟩ := h.here.send.copies p hp
    exact ⟨hk, hget, by omega⟩
  back := by
    refine h.back.reply (fun v hv => ?_) (fun i hi => by cases hi)
    cases hv
    exact h.here.recv.ackSeqno_le

theorem dataToSend_some {a : ARQstate} (h : a.dataToSend cx = some p) :
    p ∈ a.sendBuf ∧ p.sendSeqno = a.tSeqno ∧ a.tSeqno ≤ a.highestAck + cx.wnd := by
  unfold ARQstate.dataToSend at h
  split at h
  · rename_i hwnd
    obtain ⟨hp, hseq⟩ := getPkt_some h
    exact ⟨hp, hseq, hwnd⟩
  · cases h

theorem PairOk.outputNext (h : PairOk cx cy x y) (hp : x.dataToSend cx = some p) :
    PairOk cx cy (x.outputNext cx p) y := by
  obtain ⟨hmem, hseq, hwnd⟩ := dataToSend_some hp
  exact (h.output hmem (hseq ▸ hwnd) x.tSeqno).of_core rfl rfl

theorem PairOk.sendMuchLoop (n : ℕ) (h : PairOk cx cy x y) :
    PairOk cx cy (ARQstate.sendMuchLoop cx n x) y := by
  induction n generalizing x with
  | zero => exact h
  | succ n ih =>
    unfold ARQstate.sendMuchLoop
    split
    · rename_i p hp
      exact ih (h.outputNext hp)
    · exact h

theorem PairOk.sendMuch (h : PairOk cx cy x y) : PairOk cx cy (x.sendMuch cx) y := h.sendMuchLoop _

theorem sendMuch_done (a : ARQstate) : (a.sendMuch cx).dataToSend cx = none := by
  have hloop : ∀ (n : ℕ) (a : ARQstate), a.highestAck + cx.wnd + 1 - a.tSeqno ≤ n →
      (ARQstate.sendMuchLoop cx n a).dataToSend cx = none := by
    intro n
    induction n with
    | zero =>
      intro a hn
      unfold ARQstate.sendMuchLoop ARQstate.dataToSend
      rw [if_neg (by omega)]
    | succ n ih =>
      intro a hn
      unfold ARQstate.sendMuchLoop
      split
      · rename_i p hp
        refine ih (a.outputNext cx p) ?_
        change a.highestAck + cx.wnd + 1 - (a.tSeqno + 1) ≤ n
        omega
      · assumption
  exact hloop _ a (Int.self_le_toNat _)

theorem PairOk.sendRR (h : PairOk cx cy x y) : PairOk cx cy (x.sendRR cx) y := by
  refine h.sendDown rfl (fun v hv => ?_) (fun i hi => by cases hi)
  cases hv
  exact h.here.recv.ackSeqno_le

theorem PairOk.ack (h : PairOk cx cy x y) : PairOk cx cy (x.ack cx) y := by
  unfold ARQstate.ack
  split
  · split
    · rename_i p hp
      exact h.outputNext hp
    · exact h.sendRR
  · exact h.sendRR

/-! ## Packets queued -/

theorem PairOk.requestConnection (h : PairOk cx cy x y) : PairOk cx cy x.requestConnection y := by
  unfold ARQstate.requestConnection
  split
  · have hsent := h.sendDown (f := .sabme) rfl (fun v hv => by cases hv) (fun i hi => by cases hi)
    have hsend := hsent.here.send
    have hrecv := hsent.here.recv
    exact ⟨⟨⟨hsend.count, hsend.ack_ge, hsend.copies, hsend.kept⟩,
      ⟨hrecv.goBackN, hrecv.selRepeat⟩, .inr (.inl rfl)⟩, hsent.there, hsent.out, hsent.back⟩
  · exact h

theorem PairOk.inSendBuffer (h : PairOk cx cy x y) (pkt : Packet) :
    PairOk cx cy (x.inSendBuffer cx pkt) y := by
  unfold ARQstate.inSendBuffer
  split
  · exact h
  have hstrip : (⟨x.seqno, { pkt with size := pkt.size + hdrLen }⟩ : Numbered).strip = pkt := by
    unfold Numbered.strip
    simp
  have hcount := h.here.send.count
  refine ⟨⟨⟨?_, h.here.send.ack_ge, ?_, ?_⟩, ⟨h.here.recv.goBackN, h.here.recv.selRepeat⟩,
    h.here.conn⟩, ⟨h.there.send, ⟨h.there.recv.goBackN, ?_⟩, h.there.conn⟩, h.out.accept pkt, ?_⟩
  · rw [length_append, length_singleton, hcount]
    rfl
  · intro p hp
    rcases mem_append.mp hp with hp | hp
    · obtain ⟨hk, hget⟩ := h.here.send.copies p hp
      refine ⟨hk, ?_⟩
      rw [getElem?_append_left (List.getElem?_eq_some_iff.mp hget).1]
      exact hget
    · rw [mem_singleton.mp hp, hstrip]
      rw [hcount]
      exact ⟨Int.natCast_nonneg _, getElem?_concat_length⟩
  · intro k hack hk
    rw [length_append, length_singleton] at hk
    by_cases hnew : k = x.seqno
    · exact ⟨_, mem_append_right _ mem_cons_self, hnew.symm⟩
    · obtain ⟨p, hp, hseq⟩ := h.here.send.kept k hack (by omega)
      exact ⟨p, mem_append_left _ hp, hseq⟩
  · intro hsel
    obtain ⟨hnext, hreorder⟩ := h.there.recv.selRepeat hsel
    exact ⟨hnext, hreorder.accept pkt⟩
  · exact h.back

theorem PairOk.recvOutgoing (h : PairOk cx cy x y) (pkt : Packet) :
    PairOk cx cy (x.recvOutgoing cx pkt) y := by
  unfold ARQstate.recvOutgoing
  have haccept := h.requestConnection.inSendBuffer pkt
  dsimp only
  split
  · exact haccept.sendMuch
  · exact haccept

/-! ## Timers -/

theorem PairOk.delayTimeout (h : PairOk cx cy x y) : PairOk cx cy (x.delayTimeout cx) y :=
  h.ack.of_core rfl rfl

theorem PairOk.timeout {x' : ARQstate} (h : PairOk cx cy x y) (hx : x.timeout cx = some x') :
    PairOk cx cy x' y := by
  unfold ARQstate.timeout at hx
  dsimp only at hx
  split at hx
  · cases hx
  split at hx
  · obtain ⟨p, -, rfl⟩ := Option.map_eq_some_iff.mp hx
    have hsent := h.sendDown (f := .sabme) rfl (fun v hv => by cases hv) (fun i hi => by cases hi)
    exact hsent.of_core rfl rfl
  split at hx
  · cases hx
    exact h.of_core rfl rfl
  · cases hx
    exact PairOk.sendMuch (h.of_core rfl rfl)

/-! ## Acknowledgements -/

variable {rest : List Frame} {v : ℤ}

theorem PairOk.pop (h : PairOk cx cy x y) (hlink : y.link = f :: rest) :
    PairOk cx cy x { y with link := rest } := by
  have hsub : rest.Sublist y.link := by
    rw [hlink]
    exact sublist_cons_self f rest
  exact ⟨h.here, h.there.of_core rfl, h.out.sublist (List.Sublist.refl _) hsub,
    h.back.sublist hsub (List.Sublist.refl _)⟩

theorem PairOk.acked (h : PairOk cx cy x y) (hlink : y.link = f :: rest)
    (hv : codec.ack f = some v) (hnew : x.highestAck < v - 1) :
    (∃ p, getPkt x.sendBuf (v - 1) = some p) ∧
      PairOk cx cy (x.removeAcked (v - 1)) { y with link := rest } := by
  have hsend := h.here.send
  have hpassed : v ≤ y.passedUp.length :=
    h.out.acks f (hlink ▸ mem_cons_self) v hv
  have hlength := h.out.delivered_prefix.length_le
  have hout := h.out
  rw [hlink] at hout
  have hacked := hout.acknowledge hv (by omega)
  refine ⟨getPkt_isSome (hsend.kept (v - 1) hnew (by omega)),
    ⟨⟨hsend.count, ?_, ?_, ?_⟩, ⟨h.here.recv.goBackN, h.here.recv.selRepeat⟩, h.here.conn⟩,
    h.there.of_core rfl, ?_, (h.pop hlink).back⟩
  · have hge := hsend.ack_ge
    change -1 ≤ v - 1
    omega
  · intro p hp
    exact hsend.copies p (mem_of_mem_eraseP hp)
  · -- only the acknowledged packet is removed
    intro k hk hlt
    obtain ⟨p, hp, hseq⟩ := hsend.kept k (lt_trans hnew hk) hlt
    refine ⟨p, (mem_eraseP_of_neg ?_).mpr hp, hseq⟩
    have hne : p.sendSeqno ≠ v - 1 := by
      rw [hseq]
      exact ne_of_gt hk
    simpa using hne
  · change Ok codec cx.wnd x.accepted (v - 1 + 1) y.passedUp x.link rest
    rw [Int.sub_add_cancel]
    exact hacked

theorem PairOk.handlePiggyAck (h : PairOk cx cy x y) (hlink : y.link = f :: rest)
    (hv : codec.ack f = some v) :
    ∃ x', x.handlePiggyAck v = some x' ∧ PairOk cx cy x' { y with link := rest } ∧
      x'.sabmeReq = x.sabmeReq := by
  unfold ARQstate.handlePiggyAck
  dsimp only
  split
  · rename_i hnew
    obtain ⟨⟨p, hp⟩, hpair⟩ := h.acked hlink hv hnew
    rw [hp, Option.map_some]
    exact ⟨_, rfl, hpair.of_core rfl rfl, rfl⟩
  · exact ⟨_, rfl, (h.pop hlink).of_core rfl rfl, rfl⟩

theorem PairOk.handleRR (h : PairOk cx cy x y) (hlink : y.link = .rr v :: rest) :
    PairOk cx cy (x.handleRR cx v) { y with link := rest } := by
  unfold ARQstate.handleRR
  split
  · exact h.pop hlink
  dsimp only
  split
  · rename_i hnew
    obtain ⟨⟨p, hp⟩, hpair⟩ := h.acked hlink rfl hnew
    rw [hp]
    exact PairOk.sendMuch (hpair.of_core rfl rfl)
  · exact PairOk.sendMuch ((h.pop hlink).of_core rfl rfl)

theorem PairOk.handleREJ (h : PairOk cx cy x y) (seqno : ℤ) :
    PairOk cx cy (x.handleREJ cx seqno) y := by
  unfold ARQstate.handleREJ
  split
  · exact h
  · exact PairOk.sendMuch (h.of_core rfl rfl)

theorem PairOk.handleSREJ {i : ℤ} (h : PairOk cx cy x y) (hlink : y.link = .srej i :: rest) :
    ∃ x', x.handleSREJ cx i = some x' ∧ PairOk cx cy x' { y with link := rest } := by
  unfold ARQstate.handleSREJ
  split
  · exact ⟨x, rfl, h.pop hlink⟩
  obtain ⟨hacked, hlt, hwnd⟩ := h.out.requests _ (hlink ▸ mem_cons_self) i rfl
  obtain ⟨p, hp⟩ := getPkt_isSome (h.here.send.kept i (by omega) hlt)
  obtain ⟨hmem, hseq⟩ := getPkt_some hp
  rw [hp, Option.map_some]
  exact ⟨_, rfl, (h.pop hlink).output hmem (by omega) i⟩

/-! ## Data packets -/

/-- What is known of a data packet that arrives from the peer. -/
def Arrived (cy : Config) (y : ARQstate) (p : Numbered) : Prop :=
  0 ≤ p.sendSeqno ∧ y.accepted[p.sendSeqno.toNat]? = some p.strip ∧
    p.sendSeqno < y.highestAck + 1 + cy.wnd

theorem ack_passedUp (a : ARQstate) (l : List Packet) :
    { a.ack cx with passedUp := (a.ack cx).passedUp ++ l } =
      ARQstate.ack cx { a with passedUp := a.passedUp ++ l } := by
  have hdata : ARQstate.dataToSend cx { a with passedUp := a.passedUp ++ l } = a.dataToSend cx := rfl
  unfold ARQstate.ack
  rw [hdata]
  split
  · split <;> rfl
  · rfl

theorem PairOk.goBackNMode (h : PairOk cx cy x y) (hp : Arrived cy y p)
    (hsel : cx.selRepeat = false) : PairOk cx cy (x.goBackNMode cx p) y := by
  obtain ⟨hge, hget, -⟩ := hp
  unfold ARQstate.goBackNMode
  split
  · rename_i heq
    have hrecv : x.recvSeqno = x.passedUp.length := by
      rcases h.here.recv.goBackN hsel with hlen | ⟨hneg, -⟩
      · exact hlen
      · omega
    have hnext : y.accepted[x.passedUp.length]? = some p.strip := by
      rw [heq, hrecv, Int.toNat_natCast] at hget
      exact hget
    have hpassed : PairOk cx cy { x with
        sentREJ := false, recvSeqno := x.recvSeqno + 1, passedUp := x.passedUp ++ [p.strip] } y := by
      have hsend := h.here.send
      refine ⟨⟨⟨hsend.count, hsend.ack_ge, hsend.copies, hsend.kept⟩, ⟨fun _ => .inl ?_, ?_⟩, ?_⟩,
        h.there, h.out, h.back.deliver hnext⟩
      · rw [length_append, length_singleton, hrecv]
        rfl
      · intro hsel'
        rw [hsel] at hsel'
        cases hsel'
      · rcases h.here.conn with htwo | hone | ⟨-, hneg⟩
        · exact .inl htwo
        · exact .inr (.inl hone)
        · omega
    split
    · exact hpassed.of_core rfl rfl
    · rw [ack_passedUp]
      exact hpassed.ack
  split
  · split
    · exact h
    · exact PairOk.sendDown (h.of_core rfl rfl) rfl (fun v hv => by cases hv)
        (fun i hi => by cases hi)
  · exact h.ack

theorem PairOk.sendAll {frames : List Frame} (h : PairOk cx cy x y)
    (hplain : ∀ f ∈ frames, codec.item f = none ∧ codec.ack f = none)
    (hrequest : ∀ f ∈ frames, ∀ i, codec.request f = some i →
      (x.passedUp.length : ℤ) ≤ i ∧ i < y.accepted.length ∧ i < y.highestAck + 1 + cy.wnd) :
    PairOk cx cy { x with link := x.link ++ frames } y := by
  induction frames generalizing x with
  | nil => exact h.of_core rfl (append_nil _)
  | cons f frames ih =>
    obtain ⟨hitem, hack⟩ := hplain f mem_cons_self
    have hsent := h.sendDown hitem (fun v hv => by rw [hack] at hv; cases hv)
      (hrequest f mem_cons_self)
    have hall := ih hsent (fun g hg => hplain g (mem_cons_of_mem f hg))
      (fun g hg => hrequest g (mem_cons_of_mem f hg))
    refine hall.of_core rfl ?_
    change x.link ++ f :: frames = x.link ++ [f] ++ frames
    rw [append_assoc, singleton_append]

theorem PairOk.reorder {maxseen : ℤ} {seen : ℤ → Option Packet} (h : PairOk cx cy x y)
    (hsel : cx.selRepeat = true) (hseen : Reorder mws y.accepted x.nextpkt maxseen seen) :
    PairOk cx cy { x with maxseen := maxseen, seen := seen } y := by
  have hsend := h.here.send
  refine ⟨⟨⟨hsend.count, hsend.ack_ge, hsend.copies, hsend.kept⟩, ⟨h.here.recv.goBackN, ?_⟩,
    h.here.conn⟩, h.there, h.out, h.back⟩
  exact fun _ => ⟨(h.here.recv.selRepeat hsel).1, hseen⟩

theorem PairOk.requestMissing (h : PairOk cx cy x y) (hp : Arrived cy y p)
    (hsel : cx.selRepeat = true) (hwnd : cy.wnd ≤ mws) (hseq : x.maxseen < p.sendSeqno) :
    PairOk cx cy (x.requestMissing p.sendSeqno p.strip) y := by
  obtain ⟨hge, hget, hlt⟩ := hp
  obtain ⟨hnext, hreorder⟩ := h.here.recv.selRepeat hsel
  have hle := hreorder.next_le
  have hacked := h.back.acked_le
  have hlength := (List.getElem?_eq_some_iff.mp hget).1
  have hsent := @NetSim.Hdlc.PairOk.sendAll _ _ _ _ ((List.range (p.sendSeqno - x.maxseen - 1).toNat).map
    (fun (i : ℕ) => .srej (x.maxseen + 1 + i))) h (fun f hf => ?_) (fun f hf i hi => ?_)
  · exact hsent.reorder hsel (hreorder.put (by omega) (by omega) (le_refl _) (le_of_lt hseq) hget)
  · obtain ⟨i, -, rfl⟩ := mem_map.mp hf
    exact ⟨rfl, rfl⟩
  · obtain ⟨j, hj, rfl⟩ := mem_map.mp hf
    have hj := mem_range.mp hj
    cases hi
    exact ⟨by omega, by omega, by omega⟩

theorem PairOk.passUpLoop (n : ℕ) (h : PairOk cx cy x y) (hsel : cx.selRepeat = true) :
    PairOk cx cy (ARQstate.passUpLoop n x) y := by
  induction n generalizing x with
  | zero => exact h
  | succ n ih =>
    unfold ARQstate.passUpLoop
    split
    · rename_i pkt hpkt
      obtain ⟨hnext, hreorder⟩ := h.here.recv.selRepeat hsel
      obtain ⟨hget, htaken⟩ := hreorder.take hpkt
      rw [hnext, Int.toNat_natCast] at hget
      have hsend := h.here.send
      refine ih ⟨⟨⟨hsend.count, hsend.ack_ge, hsend.copies, hsend.kept⟩, ⟨?_, fun _ => ⟨?_, htaken⟩⟩,
        h.here.conn⟩, h.there, h.out, h.back.deliver hget⟩
      · intro hsel'
        rw [hsel] at hsel'
        cases hsel'
      · rw [length_append, length_singleton, hnext]
        rfl
    · exact h

theorem PairOk.selectiveRepeatMode (h : PairOk cx cy x y) (hp : Arrived cy y p)
    (hsel : cx.selRepeat = true) (hwnd : cy.wnd ≤ mws) :
    PairOk cx cy (x.selectiveRepeatMode cx p) y := by
  unfold ARQstate.selectiveRepeatMode
  dsimp only
  generalize hx' : (if decide (x.maxseen < p.sendSeqno) = true then
    x.requestMissing p.sendSeqno p.strip else x) = x'
  have h' : PairOk cx cy x' y := by
    rw [← hx']
    split
    · rename_i hseq
      exact h.requestMissing hp hsel hwnd (of_decide_eq_true hseq)
    · exact h
  split
  · exact h'.ack
  split
  · rename_i hrange
    split
    · exact h'.ack
    · obtain ⟨hge, hget, hlt⟩ := hp
      obtain ⟨hnext, hreorder⟩ := h'.here.recv.selRepeat hsel
      have hacked := h'.back.acked_le
      have hput := @ReliableLink.Reorder.put _ _ _ _ _ _ _ _ hreorder x'.maxseen hrange.1 (by omega) hrange.2 (le_refl _) hget
      exact ((h'.reorder hsel hput).passUpLoop _ hsel).ack
  · exact h'

theorem passUp_done (a : ARQstate) :
    (ARQstate.passUpLoop mws.toNat a).seen
      ((ARQstate.passUpLoop mws.toNat a).nextpkt % mws) = none := by
  -- after `j` packets the slots of the last `j` numbers are empty
  have hloop : ∀ (n j : ℕ) (a : ARQstate), n + j = mws.toNat →
      (∀ i : ℤ, 0 < i → i ≤ j → a.seen ((a.nextpkt - i) % mws) = none) →
      (ARQstate.passUpLoop n a).seen ((ARQstate.passUpLoop n a).nextpkt % mws) = none := by
    intro n
    induction n with
    | zero =>
      intro j a hj hempty
      have hslot : (a.nextpkt - mws) % mws = a.nextpkt % mws := Int.sub_emod_right _ _
      have hturn := hempty mws (by decide) (by omega)
      rw [hslot] at hturn
      exact hturn
    | succ n ih =>
      intro j a hj hempty
      unfold ARQstate.passUpLoop
      split
      · refine ih (j + 1) _ (by omega) (fun i hpos hi => ?_)
        dsimp only
        by_cases hone : i = 1
        · rw [hone, Int.add_sub_cancel, update_self]
        · have hback : a.nextpkt + 1 - i = a.nextpkt - (i - 1) := by omega
          rw [hback, update_apply]
          split
          · rfl
          · exact hempty (i - 1) (by omega) (by omega)
      · assumption
  exact hloop mws.toNat 0 a rfl (fun i hpos hi => by omega)

/-! ## I frames -/

theorem ack_sabmeReq (a : ARQstate) : (a.ack cx).sabmeReq = a.sabmeReq := by
  unfold ARQstate.ack
  split
  · split <;> rfl
  · rfl

theorem goBackNMode_sabmeReq (a : ARQstate) : (a.goBackNMode cx p).sabmeReq = a.sabmeReq := by
  unfold ARQstate.goBackNMode
  split
  · split
    · rfl
    · exact ack_sabmeReq _
  split
  · split <;> rfl
  · exact ack_sabmeReq a

theorem passUpLoop_sabmeReq (n : ℕ) (a : ARQstate) :
    (ARQstate.passUpLoop n a).sabmeReq = a.sabmeReq := by
  induction n generalizing a with
  | zero => rfl
  | succ n ih =>
    unfold ARQstate.passUpLoop
    split
    · exact ih _
    · rfl

theorem selectiveRepeatMode_sabmeReq (a : ARQstate) :
    (a.selectiveRepeatMode cx p).sabmeReq = a.sabmeReq := by
  unfold ARQstate.selectiveRepeatMode
  dsimp only
  generalize ha' : (if decide (a.maxseen < p.sendSeqno) = true then
    a.requestMissing p.sendSeqno p.strip else a) = a'
  have hsame : a'.sabmeReq = a.sabmeReq := by
    rw [← ha']
    split <;> rfl
  split
  · rw [ack_sabmeReq, hsame]
  split
  · split
    · rw [ack_sabmeReq, hsame]
    · rw [ack_sabmeReq, passUpLoop_sabmeReq, hsame]
  · exact hsame

theorem PairOk.thirdLeg (h : PairOk cx cy x y) (hone : x.sabmeReq ≠ 1) :
    PairOk cx cy x.thirdLeg y ∧ x.thirdLeg.sabmeReq = 2 := by
  unfold ARQstate.thirdLeg
  split
  · have hsend := h.here.send
    exact ⟨⟨⟨⟨hsend.count, hsend.ack_ge, hsend.copies, hsend.kept⟩,
      ⟨h.here.recv.goBackN, h.here.recv.selRepeat⟩, .inl rfl⟩, h.there, h.out, h.back⟩, rfl⟩
  · rename_i hset
    rcases h.here.conn with htwo | hone' | ⟨hzero, hrecv⟩
    · exact ⟨h, htwo⟩
    · exact absurd hone' hone
    · exact absurd ⟨hrecv, hzero⟩ hset

theorem PairOk.firstData (h : PairOk cx cy x y) (htwo : x.sabmeReq = 2) :
    PairOk cx cy (x.firstData p) y ∧ (x.firstData p).sabmeReq = 2 := by
  unfold ARQstate.firstData
  split
  · have hsend := h.here.send
    refine ⟨⟨⟨⟨hsend.count, hsend.ack_ge, hsend.copies, hsend.kept⟩,
      ⟨fun hsel => ?_, h.here.recv.selRepeat⟩, .inl htwo⟩, h.there, h.out, h.back⟩, htwo⟩
    rcases h.here.recv.goBackN hsel with hlen | ⟨-, hempty⟩
    · omega
    · rw [hempty]
      exact .inl rfl
  · exact ⟨h, htwo⟩

theorem PairOk.recvData (h : PairOk cx cy x y) (hp : Arrived cy y p) (hwnd : cy.wnd ≤ mws) :
    PairOk cx cy (if cx.selRepeat then x.selectiveRepeatMode cx p else x.goBackNMode cx p) y := by
  split
  · rename_i hsel
    exact h.selectiveRepeatMode hp hsel hwnd
  · rename_i hsel
    exact h.goBackNMode hp (Bool.eq_false_iff.mpr hsel)

theorem PairOk.recvIframe {rseq : ℤ} (h : PairOk cx cy x y)
    (hlink : y.link = .iframe p rseq :: rest) (hwnd : cy.wnd ≤ mws) :
    ∃ x', x.recvIframe cx p rseq = some x' ∧ PairOk cx cy x' { y with link := rest } := by
  have hp : Arrived cy y p := h.back.items _ (hlink ▸ mem_cons_self) _ _ rfl
  unfold ARQstate.recvIframe
  split
  · exact ⟨x, rfl, h.pop hlink⟩
  rename_i hone
  obtain ⟨hleg, htwo⟩ := h.thirdLeg hone
  have hpiggy : ∃ x₁, (if -1 < rseq then x.thirdLeg.handlePiggyAck rseq else some x.thirdLeg) = some x₁ ∧
      PairOk cx cy x₁ { y with link := rest } ∧ x₁.sabmeReq = 2 := by
    split
    · obtain ⟨x₁, hx₁, hpair, hsame⟩ := hleg.handlePiggyAck hlink rfl
      exact ⟨x₁, hx₁, hpair, hsame.trans htwo⟩
    · exact ⟨_, rfl, hleg.pop hlink, htwo⟩
  obtain ⟨x₁, hx₁, hpair, htwo₁⟩ := hpiggy
  dsimp only
  rw [hx₁, Option.bind_some]
  obtain ⟨hfirst, htwo₂⟩ := hpair.firstData (p := p) htwo₁
  have hdata := hfirst.recvData hp hwnd
  have htwo₃ : (if cx.selRepeat then (x₁.firstData p).selectiveRepeatMode cx p
      else (x₁.firstData p).goBackNMode cx p).sabmeReq = 2 := by
    split
    · rw [selectiveRepeatMode_sabmeReq, htwo₂]
    · rw [goBackNMode_sabmeReq, htwo₂]
  split
  · exact ⟨_, rfl, hdata.sendMuch⟩
  · exact ⟨_, rfl, hdata⟩

/-- **A frame arrives** that is not the request of a new connection: no packet is missing that is needed. -/
theorem PairOk.recvIncoming (h : PairOk cx cy x y) (hlink : y.link = f :: rest) (hf : f ≠ .sabme)
    (hwnd : cy.wnd ≤ mws) :
    ∃ x', x.recvIncoming cx f = some x' ∧ PairOk cx cy x' { y with link := rest } := by
  cases f with
  | iframe p rseq => exact h.recvIframe hlink hwnd
  | rr v => exact ⟨_, rfl, h.handleRR hlink⟩
  | rej v => exact ⟨_, rfl, (h.pop hlink).handleREJ v⟩
  | srej i => exact h.handleSREJ hlink
  | sabme => exact absurd rfl hf

/-! ## Runs -/

def ConnectionOk (cfg : Bool → Config) (s : Bool → ARQstate) : Prop :=
  ∀ x, PairOk (cfg x) (cfg !x) (s x) (s !x)

theorem newEntry_ok (sabmeReq sabmeReq' : ℤ) (hreq : sabmeReq = 2 ∨ sabmeReq = 0)
    (hreq' : sabmeReq' = 2 ∨ sabmeReq' = 0) :
    PairOk cx cy (newEntry sabmeReq) (newEntry sabmeReq') := by
  have hstation : ∀ (cfg : Config) (r : ℤ), r = 2 ∨ r = 0 → StationOk cfg [] (newEntry r) := by
    intro cfg r hr
    refine ⟨⟨rfl, le_refl _, fun p hp => absurd hp not_mem_nil, ?_⟩,
      ⟨fun _ => .inr ⟨rfl, rfl⟩, fun _ => ⟨rfl, (by decide : (0 : ℤ) ≤ 0 + 1), fun slot z hz => by cases hz⟩⟩, ?_⟩
    · intro k hk hlt
      change -1 < k at hk
      change k < 0 at hlt
      omega
    · rcases hr with hr | hr
      · exact .inl hr
      · exact .inr (.inr ⟨hr, rfl⟩)
  exact ⟨hstation cx sabmeReq hreq, hstation cy sabmeReq' hreq', Ok.start, Ok.start⟩

theorem ConnectionOk.start (cfg : Bool → Config) (opener : Bool) :
    ConnectionOk cfg (start opener) := by
  have hreq : ∀ x : Bool, (if x = opener then (2 : ℤ) else 0) = 2 ∨
      (if x = opener then (2 : ℤ) else 0) = 0 := by
    intro x
    split
    · exact .inl rfl
    · exact .inr rfl
  exact fun x => newEntry_ok _ _ (hreq x) (hreq !x)

theorem ConnectionOk.update {cfg : Bool → Config} {s : Bool → ARQstate} {b : Bool} {a a' : ARQstate}
    (h : PairOk (cfg b) (cfg !b) a a') :
    ConnectionOk cfg (Function.update (Function.update s (!b) a') b a) := by
  have hne : (!b) ≠ b := by cases b <;> decide
  intro x
  by_cases hx : x = b
  · rw [hx, update_self, update_of_ne hne, update_self]
    exact h
  · have hx' : x = !b := Bool.eq_not_of_ne hx
    rw [hx', Bool.not_not, update_of_ne hne, update_self,
      update_self]
    have hsymm := h.symm
    exact hsymm

/-- Both directions of the link stay sound, whichever station the event is at. -/
theorem ConnectionOk.step {cfg : Bool → Config} {s s' : Bool → ARQstate} {e : Event}
    (hwnd : ∀ x, (cfg x).wnd ≤ mws) (h : ConnectionOk cfg s) (hstep : Hdlc.step cfg s e = some s') :
    ConnectionOk cfg s' := by
  -- only one station changes
  have hone : ∀ (b : Bool) (a : ARQstate), PairOk (cfg b) (cfg !b) a (s !b) →
      ConnectionOk cfg (Function.update s b a) := by
    intro b a hpair
    have hupdate := ConnectionOk.update (s := s) hpair
    rwa [Function.update_eq_self] at hupdate
  cases e with
  | queue b pkt =>
    cases hstep
    exact hone b _ ((h b).recvOutgoing pkt)
  | arrive b =>
    unfold Hdlc.step at hstep
    dsimp only at hstep
    split at hstep
    · cases hstep
    rename_i f rest hlink
    obtain ⟨a, ha, rfl⟩ := Option.map_eq_some_iff.mp hstep
    have hf : f ≠ .sabme := by
      intro heq
      rw [heq] at ha
      cases ha
    obtain ⟨x', hx', hpair⟩ := (h b).recvIncoming hlink hf (hwnd _)
    rw [ha] at hx'
    cases hx'
    exact ConnectionOk.update hpair
  | lose b place =>
    cases hstep
    have hsub := eraseIdx_sublist (s b).link place
    exact hone b _ ⟨(h b).here.of_core rfl, (h b).there,
      (h b).out.sublist hsub (List.Sublist.refl _), (h b).back.sublist (List.Sublist.refl _) hsub⟩
  | timeout b =>
    unfold Hdlc.step at hstep
    dsimp only at hstep
    split at hstep
    · obtain ⟨a, ha, rfl⟩ := Option.map_eq_some_iff.mp hstep
      exact hone b a ((h b).timeout ha)
    · cases hstep
  | delayTimeout b =>
    unfold Hdlc.step at hstep
    dsimp only at hstep
    split at hstep
    · cases hstep
      exact hone b _ (h b).delayTimeout
    · cases hstep

/-- By induction on the run. -/
theorem Reachable.connectionOk {cfg : Bool → Config} {opener : Bool} {s : Bool → ARQstate}
    (hwnd : ∀ x, (cfg x).wnd ≤ mws) (h : Reachable cfg opener s) : ConnectionOk cfg s := by
  induction h with
  | start => exact ConnectionOk.start cfg opener
  | step e _ hstep ih => exact ih.step hwnd hstep

/-- **HDLC delivers exactly once and in order**: what the peer passed up is a prefix of what a station
accepted, it covers everything that is acknowledged, and no packet is missing when a frame arrives. -/
theorem hdlc_exactly_once {cfg : Bool → Config} {opener : Bool} {s : Bool → ARQstate}
    (hwnd : ∀ x, (cfg x).wnd ≤ mws) (h : Reachable cfg opener s) (x : Bool) :
    (s !x).passedUp <+: (s x).accepted ∧
    (s x).highestAck < (s !x).passedUp.length ∧
    ∀ f rest, (s !x).link = f :: rest → f ≠ .sabme → ((s x).recvIncoming (cfg x) f).isSome := by
  have hok := h.connectionOk hwnd x
  refine ⟨hok.out.delivered_prefix, hok.out.acked_le, fun f rest hlink hf => ?_⟩
  obtain ⟨x', hx', -⟩ := hok.recvIncoming hlink hf (hwnd _)
  rw [hx']
  rfl

/-- Three packets one way, of which the second is lost, and one the other way. -/
def exchange : List Event :=
  [.queue true ⟨1, 10⟩, .arrive false, .arrive true, .queue true ⟨2, 20⟩, .lose true 0,
    .queue true ⟨3, 30⟩, .queue false ⟨4, 40⟩, .arrive false, .arrive true, .arrive true, .arrive false]

theorem hdlc_exactly_once_exchange :
    ∃ s, run (fun _ => ⟨4, 10, 3, true, false⟩) exchange (start true) = some s ∧
      (s false).passedUp <+: (s true).accepted ∧ (s true).highestAck < (s false).passedUp.length ∧
      (s true).passedUp <+: (s false).accepted := by
  obtain ⟨s, hs⟩ := Option.isSome_iff_exists.mp
    (show (run (fun _ => ⟨4, 10, 3, true, false⟩) exchange (start true)).isSome by
      decide +kernel)
  have hreach := Reachable.start.run hs
  have hforth := hdlc_exactly_once (fun _ => (by decide : (4 : ℤ) ≤ mws)) hreach true
  have hback := hdlc_exactly_once (fun _ => (by decide : (4 : ℤ) ≤ mws)) hreach false
  exact ⟨s, hs, hforth.1, hforth.2.1, hback.1⟩

end NetSim.Hdlc
