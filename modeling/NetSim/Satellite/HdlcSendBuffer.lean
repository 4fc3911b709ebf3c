import Mathlib
import NetSim.Lib.Runs
import NetSim.Satellite.HdlcReliable

/-! # The send buffer of an HDLC station

An acknowledgement removes the packet that it names from `sendBuf_` (`handlePiggyAck` and `handleRR` in
`satellite/sat-hdlc.cc`), and not the packets before it.
-/

namespace NetSim.Hdlc

open List

/-- The packets with their numbers, from `n` on. -/
def numberedFrom : ℤ → List Packet → List Numbered
  | _, [] => []
  | n, p :: l => ⟨n, { p with size := p.size + hdrLen }⟩ :: numberedFrom (n + 1) l

namespace ARQstate

/-- The loop of `HDLC::reset` that purges the send buffer. -/
def purgeLoop : ℕ → ℤ → List Numbered → List Numbered
  | 0, _, buf => buf
  | k + 1, n, buf =>
    match getPkt buf n with
    | some _ => purgeLoop k (n + 1) (buf.eraseP (·.sendSeqno = n))
    | none => buf

/-- What `HDLC::reset` leaves in the send buffer. -/
def purge (a : ARQstate) : List Numbered := purgeLoop a.sendBuf.length (a.highestAck + 1) a.sendBuf

def unacked (a : ARQstate) : List Packet := a.accepted.drop (a.highestAck + 1).toNat

/-- **The send buffer** has exactly the packets that are not acknowledged; a packet is dropped only when these
fill the queue, and a reset purges all of them. -/
structure Freed (a : ARQstate) : Prop where
  exact : a.sendBuf = numberedFrom (a.highestAck + 1) a.unacked
  drops : ∀ cfg p, (a.inSendBuffer cfg p).accepted = a.accepted → cfg.queueSize ≤ a.unacked.length
  purges : a.purge = []

inductive Input
  | queue (p : Packet)
  | receive (f : Frame)
  | timeout
  | delayTimeout

def step (cfg : Config) (a : ARQstate) (e : Input) : Option (ARQstate × Unit) :=
  Option.map (fun a' => (a', ())) (match e with
  | .queue p => some (a.recvOutgoing cfg p)
  | .receive f => a.recvIncoming cfg f
  | .timeout => a.timeout cfg
  | .delayTimeout => some (a.delayTimeout cfg))

def ackOf (a : ARQstate) : Frame → Option ℤ
  | .iframe _ v => if a.sabmeReq = 1 then none else some v
  | .rr v => if a.sabmeReq = 2 then some v else none
  | _ => none

def OneByOne (a : ARQstate) (e : Input) : Prop :=
  ∀ f, e = .receive f → ∀ v ∈ a.ackOf f, v - 1 ≤ a.highestAck + 1 ∨ a.seqno ≤ v - 1

instance (a : ARQstate) : (e : Input) → Decidable (a.OneByOne e)
  | .receive f =>
    decidable_of_iff (∀ v ∈ a.ackOf f, v - 1 ≤ a.highestAck + 1 ∨ a.seqno ≤ v - 1)
      ⟨fun h f' hf => by cases hf; exact h, fun h => h f rfl⟩
  | .queue _ | .timeout | .delayTimeout => isTrue (fun _ hf => by cases hf)

variable {cfg : Config} {a a' : ARQstate} {n k : ℤ} {l : List Packet} {p : Packet} {e : Input}

/-! ## Numbered packets -/

theorem numberedFrom_append (n : ℤ) (l : List Packet) (p : Packet) :
    numberedFrom n (l ++ [p]) = numberedFrom n l ++ [⟨n + l.length, { p with size := p.size + hdrLen }⟩] := by
  induction l generalizing n with
  | nil => simp [numberedFrom]
  | cons q l ih =>
    rw [cons_append, numberedFrom, ih, numberedFrom, cons_append, length_cons]
    push_cast
    rw [add_assoc, add_comm (1 : ℤ)]

theorem length_numberedFrom (n : ℤ) (l : List Packet) : (numberedFrom n l).length = l.length := by
  induction l generalizing n with
  | nil => rfl
  | cons p l ih => rw [numberedFrom, length_cons, ih, length_cons]

theorem mem_numberedFrom {q : Numbered} (h : q ∈ numberedFrom n l) :
    n ≤ q.sendSeqno ∧ q.sendSeqno < n + l.length := by
  induction l generalizing n with
  | nil => cases h
  | cons p l ih =>
    rw [length_cons]
    rcases mem_cons.mp h with rfl | h
    · dsimp only
      omega
    · have := ih h
      omega

theorem purgeLoop_eq (n : ℤ) (l : List Packet) (k : ℕ) (hk : l.length ≤ k) :
    purgeLoop k n (numberedFrom n l) = [] := by
  induction l generalizing n k with
  | nil => cases k <;> rfl
  | cons p l ih =>
    cases k with
    | zero => simp at hk
    | succ k =>
      simp only [purgeLoop, numberedFrom, getPkt, find?_cons, decide_true, List.eraseP_cons]
      exact ih (n + 1) k (by simpa using hk)

/-! ## The buffer of a station -/

structure Tidy (a : ARQstate) : Prop where
  buffer : a.sendBuf = numberedFrom (a.highestAck + 1) a.unacked
  count : a.seqno = a.accepted.length
  ge : -1 ≤ a.highestAck
  lt : a.highestAck < a.accepted.length

theorem Tidy.length (h : a.Tidy) : (a.unacked.length : ℤ) = a.seqno - (a.highestAck + 1) := by
  have hge := h.ge
  have hlt := h.lt
  have hcount := h.count
  rw [unacked, length_drop]
  omega

theorem Tidy.freed (h : a.Tidy) : a.Freed := by
  refine ⟨h.buffer, fun cfg p hsame => ?_, ?_⟩
  · by_contra hroom
    have hlen : ¬ cfg.queueSize ≤ a.sendBuf.length := by rwa [h.buffer, length_numberedFrom]
    rw [inSendBuffer, if_neg hlen] at hsame
    simp at hsame
  · rw [purge, h.buffer, length_numberedFrom]
    exact purgeLoop_eq _ _ _ le_rfl

theorem Tidy.inSendBuffer (h : a.Tidy) (cfg : Config) (p : Packet) : (a.inSendBuffer cfg p).Tidy := by
  unfold ARQstate.inSendBuffer
  split
  · exact h
  · have hge := h.ge
    have hlt := h.lt
    have hlen := h.length
    have hdrop : (a.accepted ++ [p]).drop (a.highestAck + 1).toNat = a.unacked ++ [p] :=
      List.drop_append_of_le_length (by omega)
    refine ⟨?_, ?_, hge, ?_⟩
    · have hnum : a.highestAck + 1 + a.unacked.length = a.seqno := by omega
      rw [unacked, hdrop, numberedFrom_append, hnum, ← h.buffer]
    · simp [h.count]
    · simp only [length_append, length_singleton]
      push_cast
      omega

theorem Tidy.getPkt_lt (h : a.Tidy) (hget : (getPkt a.sendBuf k).isSome) : k < a.seqno := by
  obtain ⟨q, hq⟩ := Option.isSome_iff_exists.mp hget
  obtain ⟨hmem, rfl⟩ := getPkt_some hq
  rw [h.buffer] at hmem
  have hlt := (mem_numberedFrom hmem).2
  have hlen := h.length
  omega

/-- **An acknowledgement for the next packet** removes it. -/
theorem Tidy.removeAcked (h : a.Tidy) (hget : (getPkt a.sendBuf k).isSome)
    (hone : k ≤ a.highestAck + 1 ∨ a.seqno ≤ k) (hnew : a.highestAck < k) : (a.removeAcked k).Tidy := by
  have hlt := h.getPkt_lt hget
  have hge := h.ge
  have hcount := h.count
  obtain rfl : k = a.highestAck + 1 := by omega
  have hm : (a.highestAck + 1).toNat < a.accepted.length := by omega
  have hnext : (a.highestAck + 1 + 1).toNat = (a.highestAck + 1).toNat + 1 := by omega
  refine ⟨?_, hcount, ?_, ?_⟩
  · have hbuf := h.buffer
    rw [unacked, drop_eq_getElem_cons hm, numberedFrom] at hbuf
    simp only [ARQstate.removeAcked, hbuf, unacked, hnext, List.eraseP_cons, decide_true,
      cond_true]
  · simp only [ARQstate.removeAcked]
    omega
  · simp only [ARQstate.removeAcked]
    omega

/-! ## The other functions -/

/-- The fields that the buffer depends on. -/
def sender (a : ARQstate) := (a.seqno, a.highestAck, a.sendBuf, a.accepted)

theorem Tidy.of_sender (h : a.Tidy) (heq : a'.sender = a.sender) : a'.Tidy := by
  simp only [sender, Prod.mk.injEq] at heq
  obtain ⟨hseqno, hack, hbuf, hacc⟩ := heq
  have hun : a'.unacked = a.unacked := by rw [unacked, hack, hacc, unacked]
  refine ⟨?_, ?_, ?_, ?_⟩
  · rw [hbuf, hack, hun]
    exact h.buffer
  · rw [hseqno, hacc]
    exact h.count
  · rw [hack]
    exact h.ge
  · rw [hack, hacc]
    exact h.lt

theorem sender_sendMuch (cfg : Config) (a : ARQstate) : (a.sendMuch cfg).sender = a.sender := by
  have hloop : ∀ n a, (sendMuchLoop cfg n a).sender = a.sender := by
    intro n
    induction n with
    | zero => exact fun _ => rfl
    | succ n ih =>
      intro a
      rw [sendMuchLoop]
      split
      · exact ih _
      · rfl
  exact hloop _ a

theorem sender_ack (cfg : Config) (a : ARQstate) : (a.ack cfg).sender = a.sender := by
  unfold ack
  split
  · split <;> rfl
  · rfl

theorem sender_goBackNMode (cfg : Config) (a : ARQstate) (p : Numbered) :
    (a.goBackNMode cfg p).sender = a.sender := by
  unfold goBackNMode
  split_ifs
  · rfl
  · exact sender_ack cfg _
  · rfl
  · rfl
  · exact sender_ack cfg a

theorem sender_selectiveRepeatMode (cfg : Config) (a : ARQstate) (p : Numbered) :
    (a.selectiveRepeatMode cfg p).sender = a.sender := by
  have hpass : ∀ n a, (passUpLoop n a).sender = a.sender := by
    intro n
    induction n with
    | zero => exact fun _ => rfl
    | succ n ih =>
      intro a
      rw [passUpLoop]
      split
      · exact ih _
      · rfl
  unfold selectiveRepeatMode
  dsimp only
  split_ifs <;> first | rfl | exact sender_ack cfg _ | exact (sender_ack cfg _).trans (hpass _ _)

theorem Tidy.timeout (h : a.Tidy) (ht : a.timeout cfg = some a') : a'.Tidy := by
  unfold ARQstate.timeout at ht
  dsimp only at ht
  split_ifs at ht
  · obtain ⟨_, -, rfl⟩ := Option.map_eq_some_iff.mp ht
    exact h.of_sender rfl
  · cases ht
    exact h.of_sender rfl
  · cases ht
    exact h.of_sender (sender_sendMuch cfg _)

theorem Tidy.handlePiggyAck (h : a.Tidy) (hone : k - 1 ≤ a.highestAck + 1 ∨ a.seqno ≤ k - 1)
    (hp : a.handlePiggyAck k = some a') : a'.Tidy := by
  unfold ARQstate.handlePiggyAck at hp
  dsimp only at hp
  split_ifs at hp with hnew
  · obtain ⟨q, hq, rfl⟩ := Option.map_eq_some_iff.mp hp
    exact (h.removeAcked (Option.isSome_of_mem hq) hone hnew).of_sender rfl
  · cases hp
    exact h.of_sender rfl

theorem Tidy.handleRR (h : a.Tidy) (hone : a.sabmeReq = 2 → k - 1 ≤ a.highestAck + 1 ∨ a.seqno ≤ k - 1) :
    (a.handleRR cfg k).Tidy := by
  unfold ARQstate.handleRR
  by_cases hconn : a.sabmeReq = 2
  · rw [if_neg (not_not.mpr hconn)]
    refine Tidy.of_sender ?_ (sender_sendMuch cfg _)
    dsimp only
    split_ifs with hnew
    · cases hget : getPkt a.sendBuf (k - 1) with
      | none => exact h.of_sender rfl
      | some q => exact (h.removeAcked (Option.isSome_of_mem hget) (hone hconn) hnew).of_sender rfl
    · exact h.of_sender rfl
  · rw [if_pos hconn]
    exact h

theorem Tidy.recvIframe {q : Numbered} (h : a.Tidy)
    (hone : a.sabmeReq ≠ 1 → k - 1 ≤ a.highestAck + 1 ∨ a.seqno ≤ k - 1)
    (hr : a.recvIframe cfg q k = some a') : a'.Tidy := by
  unfold ARQstate.recvIframe at hr
  by_cases hwait : a.sabmeReq = 1
  · rw [if_pos hwait] at hr
    cases hr
    exact h
  rw [if_neg hwait] at hr
  have hleg : a.thirdLeg.sender = a.sender := by
    unfold thirdLeg
    split <;> rfl
  obtain ⟨a₁, hack, hr⟩ := Option.bind_eq_some_iff.mp hr
  have h₁ : a₁.Tidy := by
    split_ifs at hack
    · refine (h.of_sender hleg).handlePiggyAck ?_ hack
      simp only [sender, Prod.mk.injEq] at hleg
      rw [hleg.1, hleg.2.1]
      exact hone hwait
    · cases hack
      exact h.of_sender hleg
  have hfirst : (a₁.firstData q).sender = a₁.sender := by
    unfold firstData
    split <;> rfl
  have h₂ := h₁.of_sender hfirst
  have h₃ : (if cfg.selRepeat then (a₁.firstData q).selectiveRepeatMode cfg q
      else (a₁.firstData q).goBackNMode cfg q).Tidy := by
    split_ifs
    · exact h₂.of_sender (sender_selectiveRepeatMode cfg _ q)
    · exact h₂.of_sender (sender_goBackNMode cfg _ q)
  dsimp only at hr
  generalize (if cfg.selRepeat then (a₁.firstData q).selectiveRepeatMode cfg q
    else (a₁.firstData q).goBackNMode cfg q) = a₂ at h₃ hr
  split_ifs at hr <;> cases hr
  · exact h₃.of_sender (sender_sendMuch cfg a₂)
  · exact h₃

/-! ## Runs -/

/-- The step lemma: the buffer stays the packets behind the highest acknowledged one. -/
theorem Tidy.step (h : a.Tidy) (hone : a.OneByOne e) (hs : step cfg a e = some (a', ())) : a'.Tidy := by
  obtain ⟨a'', hs, heq⟩ := Option.map_eq_some_iff.mp hs
  cases heq
  cases e with
  | queue p =>
    cases hs
    have hreq : a.requestConnection.sender = a.sender := by
      unfold requestConnection
      split <;> rfl
    have hqueue := (h.of_sender hreq).inSendBuffer cfg p
    unfold recvOutgoing
    dsimp only
    split_ifs
    · exact hqueue.of_sender (sender_sendMuch cfg _)
    · exact hqueue
  | receive f =>
    cases f with
    | iframe q v =>
      exact h.recvIframe (fun hwait => hone _ rfl v (by simp [ackOf, hwait])) hs
    | rr v =>
      cases hs
      exact h.handleRR (fun hconn => hone _ rfl v (by simp [ackOf, hconn]))
    | rej v =>
      cases hs
      unfold handleREJ
      split_ifs
      · exact h
      · exact h.of_sender (sender_sendMuch cfg _)
    | srej v =>
      simp only [recvIncoming, handleSREJ] at hs
      split_ifs at hs
      · cases hs
        exact h
      · obtain ⟨q, -, rfl⟩ := Option.map_eq_some_iff.mp hs
        exact h.of_sender rfl
    | sabme => cases hs
  | timeout => exact h.timeout hs
  | delayTimeout =>
    cases hs
    exact h.of_sender (sender_ack cfg a)

/-- **Acknowledgements free the send buffer**, in all states of the runs in which every acknowledgement of a
queued packet is for one packet more at most. -/
theorem acknowledgements_free (cfg : Config) (sabmeReq : ℤ) (es past : List Input) (a : ARQstate)
    (outs : List Unit) (hmeets : Runs.Meets (ARQstate.step cfg) OneByOne (newEntry sabmeReq) es)
    (hpast : past <+: es) (hrun : Runs.run (ARQstate.step cfg) (newEntry sabmeReq) past = some (a, outs)) :
    a.Freed := by
  obtain ⟨rest, rfl⟩ := hpast
  have htidy := @Runs.run_preserves _ _ _ _ _ _ _ _ _ [] (fun _ a => a.Tidy)
    (fun _ a e a' _ h hone hs => h.step hone hs) ⟨rfl, rfl, le_rfl, by simp [newEntry]⟩ hmeets.append_left hrun
  exact htidy.freed

/-- Three packets are queued, and two of them are acknowledged one by one. -/
theorem acknowledgements_free_one : ∃ a outs, Runs.run (ARQstate.step ⟨7, 10, 3, false, false⟩) (newEntry 2)
    [.queue ⟨0, 30⟩, .queue ⟨1, 30⟩, .queue ⟨2, 30⟩, .receive (.rr 1), .receive (.rr 2)] = some (a, outs) ∧
      a.Freed :=
  ⟨_, _, rfl, acknowledgements_free ⟨7, 10, 3, false, false⟩ 2
    [.queue ⟨0, 30⟩, .queue ⟨1, 30⟩, .queue ⟨2, 30⟩, .receive (.rr 1), .receive (.rr 2)] _ _ [(), (), (), (), ()]
    (by decide +kernel) (prefix_refl _) rfl⟩

/-- Two packets are acknowledged at once: the first one stays in the buffer, and a queue of one packet is full
for ever. -/
theorem merged_ack_leaks : ∃ a outs, Runs.run (ARQstate.step ⟨7, 2, 3, false, false⟩) (newEntry 2)
    [.queue ⟨0, 30⟩, .queue ⟨1, 30⟩, .receive (.rr 2)] = some (a, outs) ∧ ¬ a.Freed := by
  refine ⟨_, _, rfl, fun hfreed => ?_⟩
  have hlen := congrArg List.length hfreed.exact
  exact absurd hlen (by decide)

end ARQstate

end NetSim.Hdlc
