import NetSim.Lib.Runs
import NetSim.Tcp.FullTcp
import NetSim.Tcp.ReassemblyQueueFlags
import NetSim.Tcp.ReassemblyQueueSacks

/-! # FullTcp: the receiving side

`Stream q xs R` says that the reassembly queue stands for the received sequence numbers `R`: from
`rcv_nxt_` on they are the ones that its blocks cover, and all blocks lie above `rcv_nxt_`. A
segment in order, one that fills a hole and one out of order keep it (`Stream.inOrder`,
`Stream.fillsHole`, `Stream.outOfOrder`). So `recv` delivers a stream of bytes in order and once,
whatever order the segments arrive in (`byte_stream`).
-/

namespace NetSim

open LinkedList IntervalList ReassemblyQueue

/-! ## The queue of a receiver -/

section Queue

variable {q : ReassemblyQueue} {xs : List ℕ} {R R' : ℤ → Prop} {s e : ℤ}

/-- The queue of a receiver that has received `R`. -/
structure Stream (q : ReassemblyQueue) (xs : List ℕ) (R : ℤ → Prop) : Prop where
  solid : Solid q xs
  above : ∀ b ∈ q.blocks xs, q.rcvNxt < b.start
  covers : ∀ x, q.rcvNxt ≤ x → (R x ↔ Covers (q.blocks xs) x)

theorem Stream.congr (h : Stream q xs R) (hR : ∀ x, q.rcvNxt ≤ x → (R' x ↔ R x)) :
    Stream q xs R' where
  solid := h.solid
  above := h.above
  covers x hx := (hR x hx).trans (h.covers x hx)

theorem Stream.missing (h : Stream q xs R) : ¬ R q.rcvNxt := by
  rw [h.covers _ le_rfl]
  rintro ⟨b, hb, h1, -⟩
  exact absurd (h.above b hb) (not_lt.mpr h1)

theorem ReassemblyQueue.IsEmpty.stream (h : q.IsEmpty) (hR : ∀ x, q.rcvNxt ≤ x → ¬ R x) :
    Stream q [] R where
  solid := h.solid
  above := by simp
  covers x hx := iff_of_false (hR x hx) covers_nil

theorem Stream.inOrder (h : Stream q xs R) (hempty : q.fifo.head = none) {n : ℤ} (hn : 0 ≤ n) :
    Stream { q with rcvNxt := q.rcvNxt + n } [] (fun x => R x ∨ (q.rcvNxt ≤ x ∧ x < q.rcvNxt + n)) := by
  obtain ⟨ys, fs, hrep⟩ := h.solid.valid.rep
  rw [hrep.fifo.head, List.head?_eq_none_iff] at hempty
  subst hempty
  have hvalid : Valid { q with rcvNxt := q.rcvNxt + n } [] :=
    ⟨⟨ys, fs, hrep.congr rfl rfl rfl rfl⟩, separated_nil, h.solid.valid.total⟩
  refine ⟨⟨hvalid, by simp⟩, by simp, ?_⟩
  intro x hx
  have hx' : q.rcvNxt + n ≤ x := hx
  have hnot : ¬ R x := by
    rw [h.covers x (by omega)]
    exact covers_nil
  refine iff_of_false ?_ covers_nil
  rintro (hr | hr)
  · exact hnot hr
  · omega

theorem Stream.add (h : Stream q xs R) (hse : s < e) (tiflags : ℕ) :
    ∃ q' flags xs', q.add s e tiflags 0 = some (q', flags) ∧ Solid q' xs' ∧
      Extends (q.blocks xs) s e (q'.blocks xs') ∧
      Advances (q.blocks xs) s (q'.blocks xs') q.rcvNxt q'.rcvNxt ∧
      ∀ x, q.rcvNxt ≤ x → (R x ∨ (s ≤ x ∧ x < e) ↔ Covers (q'.blocks xs') x) := by
  obtain ⟨q', flags, xs', hadd, hs', hext, hadv⟩ := h.solid.add hse tiflags 0
  refine ⟨q', flags, xs', hadd, hs', hext, hadv, fun x hx => ?_⟩
  rw [hext.covers, h.covers x hx]

theorem Stream.outOfOrder (h : Stream q xs R) (hs : q.rcvNxt < s) (hse : s < e) (tiflags : ℕ) :
    ∃ q' flags xs', q.add s e tiflags 0 = some (q', flags) ∧
      Stream q' xs' (fun x => R x ∨ (s ≤ x ∧ x < e)) ∧ q'.rcvNxt = q.rcvNxt := by
  obtain ⟨q', flags, xs', hadd, hs', hext, hadv, hcov⟩ := h.add hse tiflags
  have habove : ∀ b ∈ q'.blocks xs', q.rcvNxt < b.start := by
    intro b hb
    rcases hext.start b hb with heq | ⟨a, ha, heq⟩
    · rwa [heq]
    · rw [← heq]
      exact h.above a ha
  have hrcv : q'.rcvNxt = q.rcvNxt := by
    rcases hadv.moves with hmove | ⟨b, hb, hle, -⟩
    · exact hmove
    · exact absurd (habove b hb) (not_lt.mpr hle)
  refine ⟨q', flags, xs', hadd, ⟨hs', ?_, ?_⟩, hrcv⟩
  · rw [hrcv]
    exact habove
  · rw [hrcv]
    exact hcov

/-- A segment that fills the hole at `rcv_nxt_`: `rcv_nxt_` moves to the end of the block that it
becomes part of, and `cleartonxt` removes this block. -/
theorem Stream.fillsHole (h : Stream q xs R) (hs : s = q.rcvNxt) (hse : s < e) (tiflags : ℕ) :
    ∃ q₁ flags q' flags' xs', q.add s e tiflags 0 = some (q₁, flags) ∧
      q₁.cleartonxt = some (q', flags') ∧ Stream q' xs' (fun x => R x ∨ (s ≤ x ∧ x < e)) ∧
      q.rcvNxt < q'.rcvNxt ∧
      ∀ x, q.rcvNxt ≤ x → x < q'.rcvNxt → R x ∨ (s ≤ x ∧ x < e) := by
  obtain ⟨q₁, flags, xs₁, hadd, hs₁, hext, hadv, hcov⟩ := h.add hse tiflags
  obtain ⟨b, hb, hbstart, hbstop⟩ := hadv.inOrder h.above hs
  obtain ⟨q', flags', xs', hclear, hs', hcov', hrcv⟩ := hs₁.clearto q₁.rcvNxt
  have hlt : q.rcvNxt < q'.rcvNxt := by
    rw [hrcv, hbstop, ← hbstart]
    exact hs₁.nonempty b hb
  have habove : ∀ c ∈ q'.blocks xs', q'.rcvNxt < c.start := by
    intro c hc
    obtain ⟨⟨a, ha, h1, h2⟩, hge⟩ := (hcov' _).mp (hs'.covers_start hc)
    refine lt_of_le_of_ne (hrcv.le.trans hge) (fun heq => ?_)
    -- the end of the removed block is not covered
    have hmeet : a = b :=
      hs₁.valid.separated.eq_of_meet ha hb (by omega) (by omega)
    rw [hmeet] at h2
    omega
  refine ⟨q₁, flags, q', flags', xs', hadd, hclear, ⟨hs', habove, ?_⟩, hlt, ?_⟩
  · intro x hx
    rw [hcov x (by omega), hcov', ← hrcv]
    exact ⟨fun hx' => ⟨hx', hx⟩, fun hx' => hx'.1⟩
  · intro x hx hx'
    rw [hcov x hx]
    refine ⟨b, hb, by omega, ?_⟩
    rwa [hrcv, hbstop] at hx'

end Queue

namespace FullTcp

variable {c : Config} {a a' : FullTcp} {pkt : Segment} {env : Env} {r0 : ℤ}

/-! ## Flags -/

/-- Flags without `TH_FIN`. -/
def NoFin (flags : ℕ) : Prop := flags &&& thFin = 0

theorem noFin_zero : NoFin 0 := rfl

theorem noFin_or {f g : ℕ} (hf : NoFin f) (hg : NoFin g) : NoFin (f ||| g) := by
  unfold NoFin at *
  rw [Nat.and_or_distrib_right, hf, hg]
  rfl

theorem noFin_iff {f : ℕ} : NoFin f ↔ hasFlag f thFin = false := by
  simp [NoFin, hasFlag]

theorem clearFlag_of_not {f bits : ℕ} (h : hasFlag f bits = false) : clearFlag f bits = f := by
  have hzero : f &&& bits = 0 := by simpa [hasFlag] using h
  rw [clearFlag, hzero, Nat.xor_zero]

/-! ## Trimming -/

theorem trim_eq (hsyn : hasFlag pkt.flags thSyn = false) (hfin : hasFlag pkt.flags thFin = false) :
    trim a pkt =
      if 0 < wrap (a.rcvNxt - pkt.seqno) ∧ 0 < pkt.datalen then
        if pkt.datalen ≤ wrap (a.rcvNxt - pkt.seqno) then
          ⟨pkt.seqno + pkt.datalen, 0, 0, pkt.flags, true⟩
        else
          ⟨pkt.seqno + wrap (a.rcvNxt - pkt.seqno), pkt.datalen - wrap (a.rcvNxt - pkt.seqno),
            pkt.datalen - wrap (a.rcvNxt - pkt.seqno), pkt.flags, false⟩
      else ⟨pkt.seqno, pkt.datalen, pkt.datalen, pkt.flags, false⟩ := by
  have hle : ∀ n d : ℤ, (d < n ∨ n = d) ↔ d ≤ n := by omega
  simp only [trim, hsyn, clearFlag_of_not hsyn, clearFlag_of_not hfin, hfin, Bool.false_eq_true,
    if_false, false_or, sub_zero, add_zero, sub_self, Bool.not_false, and_true, hle]

/-- The bytes of the segment, and how far it lies below `rcv_nxt_`, are `int`s. -/
def FitsInt (a : FullTcp) (pkt : Segment) : Prop :=
  (-2 ^ 31 ≤ pkt.seqno ∧ pkt.seqno + pkt.datalen < 2 ^ 31) ∧
    -2 ^ 31 ≤ a.rcvNxt - pkt.seqno ∧ a.rcvNxt - pkt.seqno < 2 ^ 31

instance (a : FullTcp) (pkt : Segment) : Decidable (FitsInt a pkt) :=
  inferInstanceAs (Decidable ((_ ∧ _) ∧ _ ∧ _))

/-- The segment that is left is the part of the received one from `rcv_nxt_` on. -/
structure Trims (a : FullTcp) (pkt : Segment) (t : Trimmed) : Prop where
  tiflags : t.tiflags = pkt.flags
  size : t.size = t.datalen
  nonneg : 0 ≤ t.datalen
  dataful : 0 < t.datalen → 0 < pkt.datalen
  seqno : 0 < t.datalen → a.rcvNxt ≤ t.seqno
  low : 0 < t.datalen → -2 ^ 31 ≤ t.seqno
  high : 0 < t.datalen → t.seqno + t.datalen < 2 ^ 31
  bytes : ∀ x, a.rcvNxt ≤ x → (pkt.seqno ≤ x ∧ x < pkt.seqno + pkt.datalen ↔
    t.seqno ≤ x ∧ x < t.seqno + t.datalen)

theorem trim_spec (hint : FitsInt a pkt) (hsyn : hasFlag pkt.flags thSyn = false)
    (hfin : hasFlag pkt.flags thFin = false) : Trims a pkt (trim a pkt) := by
  obtain ⟨⟨hlow, hhigh⟩, hdist⟩ := hint
  rw [trim_eq hsyn hfin, wrap_eq hdist.1 hdist.2]
  split
  case isTrue htodrop =>
    split
    case isTrue hdup =>
      -- a complete duplicate: nothing is left
      refine ⟨rfl, rfl, le_rfl, by simp, by simp, by simp, by simp, fun x hx => ?_⟩
      simp only
      omega
    case isFalse hdup =>
      refine ⟨rfl, rfl, ?_, fun _ => htodrop.2, fun _ => ?_, fun _ => ?_, fun _ => ?_, fun x hx => ?_⟩
      all_goals
        simp only
        omega
  case isFalse htodrop =>
    refine ⟨rfl, rfl, ?_, ?_, ?_, fun _ => hlow, fun _ => hhigh, fun x _ => Iff.rfl⟩
    all_goals
      simp only
      omega

/-! ## Acknowledgments leave the receiving side alone -/

theorem dupAck_fullTcpAgent (s : Sender) (t : Trimmed) :
    ∃ s' next, dupAck c fullTcpAgent s pkt t env = (s', [], next) ∧ s'.maxseq = s.maxseq ∧
      (t.datalen ≠ 0 → next = .step6) := by
  unfold dupAck
  split
  case isTrue hpure =>
    have hdata : t.datalen = 0 := hpure.1
    split
    · exact ⟨_, _, rfl, rfl, fun h => absurd hdata h⟩
    dsimp only
    split
    · refine ⟨_, .drop, Prod.ext rfl (Prod.ext ?_ rfl), ?_, fun h => absurd hdata h⟩
      · simp only [fullTcpAgent, dupackAction]
        split <;> rfl
      · simp only [fullTcpAgent, dupackAction]
        split <;> rfl
    split
    · exact ⟨_, _, rfl, rfl, fun h => absurd hdata h⟩
    · exact ⟨_, _, rfl, rfl, fun h => absurd hdata h⟩
  case isFalse hpure =>
    split
    · exact ⟨_, _, rfl, rfl, fun _ => rfl⟩
    · exact ⟨_, _, rfl, rfl, fun _ => rfl⟩

theorem newAck_fullTcpAgent (s : Sender) :
    ∃ s', newAck c fullTcpAgent s pkt = some s' ∧ s'.maxseq = s.maxseq := by
  simp only [newAck]
  split
  · exact ⟨_, rfl, rfl⟩
  · exact ⟨_, rfl, rfl⟩

theorem processAck_fullTcpAgent (s : Sender) (t : Trimmed) :
    ∃ s' next, processAck c fullTcpAgent s pkt t env = some (s', [], next) ∧
      s'.maxseq = s.maxseq ∧ (t.datalen ≠ 0 → pkt.ackno ≤ s.maxseq → next = .step6) := by
  have hsack : (if pkt.sacks = [] then some s else fullTcpAgent.processSack c s pkt) = some s := by
    split <;> rfl
  unfold processAck
  rw [hsack]
  simp only [Option.bind_some]
  split
  · obtain ⟨s', next, heq, hmax, hnext⟩ := @dupAck_fullTcpAgent c pkt env { s with
      pipe := if s.fastrecov ∧ (t.datalen = 0 ∨ s.highestAck < pkt.ackno) then s.pipe - c.maxseg
        else s.pipe } t
    exact ⟨s', next, by rw [heq], hmax, fun h _ => hnext h⟩
  split
  case isTrue hbig => exact ⟨_, _, rfl, rfl, fun _ hle => absurd hbig (not_lt.mpr hle)⟩
  case isFalse hok =>
    obtain ⟨s', heq, hmax⟩ := @newAck_fullTcpAgent c pkt { s with
      pipe := if s.fastrecov ∧ (t.datalen = 0 ∨ s.highestAck < pkt.ackno) then s.pipe - c.maxseg
        else s.pipe }
    exact ⟨s', .step6, by rw [heq]; rfl, hmax, fun _ _ => rfl⟩

/-! ## What has been received -/

def State.receiving : State → Bool
  | .established | .finWait1 | .finWait2 => true
  | _ => false

theorem State.receiving_close {st : State} (h : st.receiving) : st.close.receiving := by
  cases st <;> simp_all [State.close, State.receiving]

theorem State.receiving_finAcked {st : State} (h : st.receiving) : st.finAcked.receiving := by
  cases st <;> simp_all [State.finAcked, State.receiving]

/-- The sequence number `x` is in one of the segments that arrived. -/
def Received (ins : List Input) (x : ℤ) : Prop :=
  ∃ pkt env, .segment pkt env ∈ ins ∧ pkt.seqno ≤ x ∧ x < pkt.seqno + pkt.datalen

theorem received_append {ins js : List Input} (x : ℤ) :
    Received (ins ++ js) x ↔ Received ins x ∨ Received js x := by
  constructor
  · rintro ⟨pkt, env, hmem, hx⟩
    rcases List.mem_append.mp hmem with hmem | hmem
    · exact Or.inl ⟨pkt, env, hmem, hx⟩
    · exact Or.inr ⟨pkt, env, hmem, hx⟩
  · rintro (⟨pkt, env, hmem, hx⟩ | ⟨pkt, env, hmem, hx⟩)
    · exact ⟨pkt, env, by simp [hmem], hx⟩
    · exact ⟨pkt, env, by simp [hmem], hx⟩

theorem received_segment (pkt : Segment) (env : Env) (x : ℤ) :
    Received [.segment pkt env] x ↔ pkt.seqno ≤ x ∧ x < pkt.seqno + pkt.datalen := by
  constructor
  · rintro ⟨pkt', env', hmem, hx⟩
    cases List.mem_singleton.mp hmem
    exact hx
  · exact fun hx => ⟨pkt, env, by simp, hx⟩

/-- The bytes handed to the application. -/
def delivered (outs : List (List Event)) : ℤ :=
  (outs.flatten.map (fun ev => match ev with | .recvBytes n => n | .pipe _ => 0)).sum

theorem delivered_append (outs outs' : List (List Event)) :
    delivered (outs ++ outs') = delivered outs + delivered outs' := by
  simp [delivered]

/-! ## Delivering data -/

/-- The receiving side has taken in the sequence numbers `S`, on top of `R`. -/
structure Takes (a a' : FullTcp) (R S : ℤ → Prop) (evs : List Event) : Prop where
  stream : ∃ xs, Stream a'.rq xs (fun x => R x ∨ S x)
  noFin : Flagged NoFin a'.rq
  le : a.rcvNxt ≤ a'.rcvNxt
  between : ∀ x, a.rcvNxt ≤ x → x < a'.rcvNxt → R x ∨ S x
  bytes : delivered [evs] = a'.rcvNxt - a.rcvNxt

theorem Takes.nothing {R S : ℤ → Prop} {xs : List ℕ} (h : Stream a.rq xs R)
    (hf : Flagged NoFin a.rq) (hrq : a'.rq = a.rq)
    (hS : ∀ x, a.rcvNxt ≤ x → ¬ S x) : Takes a a' R S [] where
  stream := by
    rw [hrq]
    exact ⟨xs, h.congr (fun x hx => or_iff_left (hS x hx))⟩
  noFin := by rwa [hrq]
  le := by rw [rcvNxt, rcvNxt, hrq]
  between x hx hx' := by
    rw [rcvNxt, hrq] at hx'
    exact absurd hx (not_le.mpr hx')
  bytes := by simp [rcvNxt, hrq, delivered]

/-- The segment goes to the queue, and what has become contiguous is passed up. -/
theorem reass_spec {R : ℤ → Prop} {xs : List ℕ} {t : Trimmed} (h : Stream a.rq xs R)
    (hstate : a.state ≠ .closed) (hf : Flagged NoFin a.rq) (hflags : NoFin pkt.flags)
    (hsize : t.size = t.datalen) (hdata : 0 < t.datalen) (hseq : a.rcvNxt ≤ t.seqno)
    (hlow : -2 ^ 31 ≤ t.seqno) (hhigh : t.seqno + t.datalen < 2 ^ 31) :
    ∃ a' flags, reass a pkt t = some (a', flags) ∧ a'.state = a.state ∧ NoFin flags ∧
      Takes a a' R (fun x => t.seqno ≤ x ∧ x < t.seqno + t.datalen)
        (if a.rcvNxt < a'.rcvNxt then [.recvBytes (a'.rcvNxt - a.rcvNxt)] else []) := by
  have hlt : t.seqno < t.seqno + t.size := by omega
  have hne : ¬ (t.seqno = t.seqno + t.size ∧ !hasFlag pkt.flags thFin) := fun hh => hlt.ne hh.1
  have hwrap : wrap (t.seqno + t.size) = t.seqno + t.size :=
    wrap_eq (by omega) (by omega)
  unfold reass
  simp only [hwrap, if_neg hne]
  rcases hseq.eq_or_lt with heq | hgt
  · -- the segment fills the hole
    obtain ⟨q₁, f₁, q', f₂, xs', hadd, hclear, hstream, hrcv, hbetween⟩ :=
      h.fillsHole heq.symm hlt pkt.flags
    obtain ⟨⟨xs₁, hv₁⟩, hq₁, hf₁⟩ := add_flagged (fun _ _ => noFin_or) h.solid.valid hlt.le
      (h.solid.not_swallows _ _) hf hflags hadd
    obtain ⟨hq', hf₂⟩ := clearto_flagged (fun _ _ => noFin_or) hv₁ hq₁ noFin_zero hclear
    have hcond : ¬ (a.state = .closed ∨ ¬ t.seqno = a.rcvNxt) := by
      rintro (hh | hh)
      · exact hstate hh
      · exact hh heq.symm
    rw [hsize] at hstream hbetween
    refine ⟨{ a with rq := q' }, f₁ ||| f₂, ?_, rfl, noFin_or hf₁ hf₂, ?_⟩
    · simp only [hadd, Option.bind_some, if_neg hcond, hclear, Option.map_some]
    · have hrcv' : a.rcvNxt < ({ a with rq := q' } : FullTcp).rcvNxt := hrcv
      rw [if_pos hrcv']
      exact ⟨⟨xs', hstream⟩, hq', hrcv.le, hbetween, by simp [delivered]⟩
  · -- the segment lies behind a hole
    obtain ⟨q', f, xs', hadd, hstream, hrcv⟩ := h.outOfOrder hgt hlt pkt.flags
    obtain ⟨-, hq', -⟩ := add_flagged (fun _ _ => noFin_or) h.solid.valid hlt.le
      (h.solid.not_swallows _ _) hf hflags hadd
    have hcond : a.state = .closed ∨ ¬ t.seqno = a.rcvNxt := Or.inr hgt.ne'
    have hrcv' : ({ a with rq := q' } : FullTcp).rcvNxt = a.rcvNxt := hrcv
    rw [hsize] at hstream
    refine ⟨{ a with rq := q' }, 0, ?_, rfl, noFin_zero, ?_⟩
    · simp only [hadd, Option.bind_some, if_pos hcond]
    · refine ⟨⟨xs', hstream⟩, hq', hrcv'.ge, fun x hx hx' => ?_, ?_⟩
      · rw [hrcv'] at hx'
        exact absurd hx (not_le.mpr hx')
      · simp [delivered, hrcv']

/-- In order and with an empty queue the data is passed up at once, otherwise through the queue. -/
theorem deliver_spec {R : ℤ → Prop} {xs : List ℕ} {t : Trimmed} (h : Stream a.rq xs R)
    (hstate : a.state.receiving) (hf : Flagged NoFin a.rq) (hflags : NoFin pkt.flags)
    (htrim : Trims a pkt t) :
    ∃ a' flags evs, deliver a pkt t = some (a', flags, evs) ∧ a'.state = a.state ∧ NoFin flags ∧
      Takes a a' R (fun x => t.seqno ≤ x ∧ x < t.seqno + t.datalen) evs := by
  have htf : hasFlag t.tiflags thFin = false := by
    rw [htrim.tiflags]
    exact noFin_iff.mp hflags
  have hrcvd : a.state.haveRcvdFin = false := by
    cases hst : a.state <;> simp_all [State.receiving, State.haveRcvdFin]
  have hclosed : a.state ≠ .closed := by
    intro hst
    simp [hst, State.receiving] at hstate
  unfold deliver
  rcases htrim.nonneg.eq_or_lt with hzero | hpos
  · -- nothing is left of the segment
    have hcond : ¬ ((0 < t.datalen ∨ hasFlag t.tiflags thFin) ∧ !a.state.haveRcvdFin) := by
      rw [htf, ← hzero]
      simp
    rw [if_neg hcond, clearFlag_of_not htf]
    refine ⟨a, t.tiflags, [], rfl, rfl, noFin_iff.mpr htf, Takes.nothing h hf rfl (fun x _ => ?_)⟩
    omega
  · have hcond : (0 < t.datalen ∨ hasFlag t.tiflags thFin) ∧ !a.state.haveRcvdFin := by
      simp [hpos, hrcvd]
    rw [if_pos hcond]
    split
    case isTrue hin =>
      obtain ⟨hseq, hempty⟩ := hin
      have hstream := h.inOrder hempty hpos.le
      have hne : t.datalen ≠ 0 := hpos.ne'
      have hwrap : wrap (a.rcvNxt + t.datalen) = a.rcvNxt + t.datalen := by
        have hlow := htrim.low hpos
        have hhigh := htrim.high hpos
        exact wrap_eq (by omega) (by omega)
      have hand : NoFin (pkt.flags &&& thFin) := by
        rw [show pkt.flags &&& thFin = 0 from hflags]
        exact noFin_zero
      rw [show a.rq.rcvNxt = t.seqno from hseq.symm] at hstream
      refine ⟨_, _, _, rfl, rfl, hand, ⟨[], ?_⟩, hf, ?_, fun x hx hx' => ?_, ?_⟩
      · rw [advance, hwrap, ← hseq]
        exact hstream
      · rw [advance, hwrap]
        show a.rcvNxt ≤ a.rcvNxt + t.datalen
        omega
      · rw [advance, hwrap] at hx'
        simp only [rcvNxt] at hx hx' hseq
        exact Or.inr ⟨by omega, by omega⟩
      · rw [advance, hwrap]
        simp [rcvNxt, delivered, hne]
    case isFalse hin =>
      obtain ⟨a', flags, hreass, hst, hfl, htakes⟩ :=
        reass_spec h hclosed hf hflags htrim.size hpos (htrim.seqno hpos) (htrim.low hpos)
          (htrim.high hpos)
      exact ⟨a', flags, _, by rw [hreass]; rfl, hst, hfl, htakes⟩

theorem fin_of_noFin {flags : ℕ} (h : NoFin flags) (a : FullTcp) : fin a flags = a := by
  rw [fin, noFin_iff.mp h]
  rfl

theorem step6_spec {R : ℤ → Prop} {xs : List ℕ} {t : Trimmed} (h : Stream a.rq xs R)
    (hstate : a.state.receiving) (hf : Flagged NoFin a.rq) (hflags : NoFin pkt.flags)
    (htrim : Trims a pkt t) :
    ∃ a' evs, step6 a pkt t env = some (a', evs) ∧ a'.state.receiving ∧
      Takes a a' R (fun x => t.seqno ≤ x ∧ x < t.seqno + t.datalen) evs := by
  obtain ⟨a', flags, evs, hdel, hst, hfl, htakes⟩ := deliver_spec h hstate hf hflags htrim
  refine ⟨a'.sendMuch env.sent, evs, ?_, ?_, ?_⟩
  · rw [step6, hdel, Option.map_some, fin_of_noFin hfl]
  · simp only [sendMuch]
    split
    · exact State.receiving_close (hst ▸ hstate)
    · exact hst ▸ hstate
  · exact ⟨htakes.stream, htakes.noFin, htakes.le, htakes.between, htakes.bytes⟩

/-! ## A segment arrives -/

/-- Segments without `SYN` and `FIN`; one with data reaches one of the three branches that take it
in, that is, it has an `ACK` of data that has been sent and is not too old. Its bytes are `int`s. -/
def Accepts (a : FullTcp) : Input → Prop
  | .segment pkt env =>
    FitsInt a pkt ∧ hasFlag pkt.flags thSyn = false ∧ hasFlag pkt.flags thFin = false ∧
      (0 < pkt.datalen →
        hasFlag pkt.flags thAck = true ∧ env.paws = false ∧ pkt.ackno ≤ a.snd.maxseq)
  | _ => True

instance (a : FullTcp) : ∀ i, Decidable (Accepts a i)
  | .segment _ _ => inferInstanceAs (Decidable (_ ∧ _ ∧ _ ∧ (_ → _)))
  | .timeout _ => isTrue trivial
  | .send _ => isTrue trivial

theorem receiving_sendMuch (h : a.state.receiving) (sent : Sent) :
    (a.sendMuch sent).state.receiving := by
  simp only [sendMuch]
  split
  · exact State.receiving_close h
  · exact h

/-- The slow path: trim, process the acknowledgement, deliver. -/
theorem slowPath_spec {R : ℤ → Prop} {xs : List ℕ} (h : Stream a.rq xs R)
    (hstate : a.state.receiving) (hf : Flagged NoFin a.rq)
    (hok : Accepts a (.segment pkt env)) :
    ∃ a' evs, slowPath c fullTcpAgent a pkt env = some (a', evs) ∧ a'.state.receiving ∧
      Takes a a' R (fun x => pkt.seqno ≤ x ∧ x < pkt.seqno + pkt.datalen) evs := by
  obtain ⟨hint, hsyn, hfin, hdata⟩ := hok
  have htrim := @trim_spec a pkt hint hsyn hfin
  have hflags : NoFin pkt.flags := noFin_iff.mpr hfin
  -- a segment without data brings nothing
  have hnothing : ¬ 0 < pkt.datalen → ∀ x, a.rcvNxt ≤ x →
      ¬ (pkt.seqno ≤ x ∧ x < pkt.seqno + pkt.datalen) := by
    intro hz x _
    omega
  have hsame : ∀ {a' : FullTcp}, a'.rq = a.rq → (trim a pkt).datalen = 0 →
      Takes a a' R (fun x => pkt.seqno ≤ x ∧ x < pkt.seqno + pkt.datalen) [] := by
    intro a' hrq hz
    refine Takes.nothing h hf hrq (fun x hx hx' => ?_)
    have := (htrim.bytes x hx).mp hx'
    omega
  have hlast : ¬ (a.state = .lastAck ∧ hasFlag pkt.flags thFin) := by
    rintro ⟨hst, -⟩
    simp [hst, State.receiving] at hstate
  unfold slowPath
  rw [if_neg hlast]
  split
  case isTrue hpaws =>
    refine ⟨_, [], rfl, receiving_sendMuch hstate env.sent, ?_⟩
    refine Takes.nothing h hf rfl (hnothing (fun hpos => ?_))
    rw [(hdata hpos).2.1] at hpaws
    cases hpaws
  case isFalse hpaws =>
    have hts : hasFlag (trim a pkt).tiflags thSyn = false := by rw [htrim.tiflags, hsyn]
    simp only [hts, Bool.false_eq_true, if_false]
    split
    case isTrue hack =>
      refine ⟨a, [], rfl, hstate, Takes.nothing h hf rfl (hnothing (fun hpos => ?_))⟩
      rw [htrim.tiflags, (hdata hpos).1] at hack
      cases hack
    case isFalse hack =>
      obtain ⟨s', next, hproc, hmax, hnext⟩ :=
        @processAck_fullTcpAgent c pkt env a.snd (trim a pkt)
      rw [hproc]
      simp only [Option.bind_some]
      have hzero : next ≠ .step6 → (trim a pkt).datalen = 0 := by
        intro hne
        by_contra hpos
        have hpos' : 0 < pkt.datalen := htrim.dataful (htrim.nonneg.lt_of_ne' hpos)
        exact hne (hnext hpos (hdata hpos').2.2)
      have htakes : ∀ {a'' : FullTcp} {evs : List Event},
          Takes a a'' R (fun x => (trim a pkt).seqno ≤ x ∧
            x < (trim a pkt).seqno + (trim a pkt).datalen) evs →
          Takes a a'' R (fun x => pkt.seqno ≤ x ∧ x < pkt.seqno + pkt.datalen) evs := by
        intro a'' evs ht
        obtain ⟨xs', hs⟩ := ht.stream
        have hiff : ∀ x, a.rcvNxt ≤ x → (R x ∨ (pkt.seqno ≤ x ∧ x < pkt.seqno + pkt.datalen) ↔
            R x ∨ ((trim a pkt).seqno ≤ x ∧ x < (trim a pkt).seqno + (trim a pkt).datalen)) :=
          fun x hx => or_congr_right (htrim.bytes x hx)
        exact ⟨⟨xs', hs.congr (fun x hx => hiff x (ht.le.trans hx))⟩, ht.noFin, ht.le,
          fun x hx hx' => (hiff x hx).mpr (ht.between x hx hx'), ht.bytes⟩
      cases next with
      | drop => exact ⟨_, [], rfl, receiving_sendMuch hstate env.sent, hsame rfl (hzero (by simp))⟩
      | dropafterack =>
        exact ⟨_, [], rfl, receiving_sendMuch hstate env.sent, hsame rfl (hzero (by simp))⟩
      | step6 =>
        have hst6 : a.state ≠ .lastAck := by
          intro hst
          simp [hst, State.receiving] at hstate
        simp only [if_neg hst6]
        split
        · obtain ⟨a', evs, hs6, hst, ht⟩ := @step6_spec
            { a with snd := s', state := a.state.finAcked } pkt env R xs (trim a pkt) h
            (State.receiving_finAcked hstate) hf hflags
            ⟨htrim.tiflags, htrim.size, htrim.nonneg, htrim.dataful, htrim.seqno, htrim.low,
              htrim.high, htrim.bytes⟩
          refine ⟨a', evs, by rw [hs6]; rfl, hst, htakes ?_⟩
          exact ⟨ht.stream, ht.noFin, ht.le, ht.between, ht.bytes⟩
        · obtain ⟨a', evs, hs6, hst, ht⟩ := @step6_spec
            { a with snd := s' } pkt env R xs (trim a pkt) h hstate hf hflags
            ⟨htrim.tiflags, htrim.size, htrim.nonneg, htrim.dataful, htrim.seqno, htrim.low,
              htrim.high, htrim.bytes⟩
          refine ⟨a', evs, by rw [hs6]; rfl, hst, htakes ?_⟩
          exact ⟨ht.stream, ht.noFin, ht.le, ht.between, ht.bytes⟩

/-- A segment goes through header prediction or the slow path. -/
theorem recv_spec {R : ℤ → Prop} {xs : List ℕ} (h : Stream a.rq xs R)
    (hstate : a.state.receiving) (hf : Flagged NoFin a.rq)
    (hok : Accepts a (.segment pkt env)) :
    ∃ a' evs, recv c fullTcpAgent a pkt env = some (a', evs) ∧ a'.state.receiving ∧
      Takes a a' R (fun x => pkt.seqno ≤ x ∧ x < pkt.seqno + pkt.datalen) evs := by
  have hclosed : a.state ≠ .closed := by
    intro hst
    simp [hst, State.receiving] at hstate
  unfold recv
  rw [if_neg hclosed]
  split
  case isTrue hack =>
    -- a pure acknowledgment
    have hzero : pkt.datalen = 0 := by
      simp only [predictsAck, decide_eq_true_eq] at hack
      exact hack.2.2.1
    refine ⟨_, [], rfl, receiving_sendMuch hstate env.sent, Takes.nothing h hf rfl (fun x _ => ?_)⟩
    omega
  case isFalse hack =>
    split
    case isTrue hdata =>
      -- the next data segment
      obtain ⟨hseq, hpos, hempty⟩ :
          pkt.seqno = a.rcvNxt ∧ 0 < pkt.datalen ∧ a.rq.fifo.head = none := by
        simp only [predictsData, predictOk, decide_eq_true_eq] at hdata
        exact ⟨hdata.2.1.2.2.2.2.1, Nat.pos_of_ne_zero hdata.2.2.1, hdata.2.2.2.2⟩
      have hstream := h.inOrder hempty (show (0 : ℤ) ≤ pkt.datalen by omega)
      have hwrap : wrap (a.rcvNxt + pkt.datalen) = a.rcvNxt + pkt.datalen := by
        obtain ⟨⟨hlow, hhigh⟩, -⟩ := hok
        exact wrap_eq (by omega) (by omega)
      rw [show a.rq.rcvNxt = pkt.seqno from hseq.symm] at hstream
      refine ⟨_, _, rfl, receiving_sendMuch (a := a.advance pkt.datalen) hstate env.sent, ⟨[], ?_⟩,
        hf, ?_, fun x hx hx' => ?_, ?_⟩
      · rw [advance, hwrap, ← hseq]
        exact hstream
      · rw [advance, hwrap]
        simp only [sendMuch, rcvNxt]
        omega
      · rw [advance, hwrap] at hx'
        simp only [sendMuch, rcvNxt] at hx hx' hseq
        exact Or.inr ⟨by omega, by omega⟩
      · rw [advance, hwrap]
        simp [sendMuch, rcvNxt, delivered]
    case isFalse hdata => exact slowPath_spec h hstate hf hok

/-! ## Runs -/

/-- What holds of an agent that started at `r0`, after the inputs `past` and with the outputs
`outs`. -/
structure Receives (r0 : ℤ) (past : List Input) (outs : List (List Event)) (a : FullTcp) :
    Prop where
  receiving : a.state.receiving
  stream : ∃ xs, Stream a.rq xs (Received past)
  noFin : Flagged NoFin a.rq
  le : r0 ≤ a.rcvNxt
  below : ∀ x, r0 ≤ x → x < a.rcvNxt → Received past x
  bytes : delivered outs = a.rcvNxt - r0

theorem Receives.takes {past : List Input} {outs : List (List Event)} {i : Input}
    {evs : List Event} (h : Receives r0 past outs a) (hst : a'.state.receiving)
    (ht : Takes a a' (Received past) (Received [i]) evs) :
    Receives r0 (past ++ [i]) (outs ++ [evs]) a' where
  receiving := hst
  stream := by
    obtain ⟨xs, hs⟩ := ht.stream
    exact ⟨xs, hs.congr (fun x _ => received_append x)⟩
  noFin := ht.noFin
  le := h.le.trans ht.le
  below x hx hx' := by
    rw [received_append]
    rcases lt_or_ge x a.rcvNxt with hlt | hge
    · exact Or.inl (h.below x hx hlt)
    · exact ht.between x hge hx'
  bytes := by
    calc delivered (outs ++ [evs]) = delivered outs + delivered [evs] := delivered_append _ _
      _ = (a.rcvNxt - r0) + (a'.rcvNxt - a.rcvNxt) := by rw [h.bytes, ht.bytes]
      _ = a'.rcvNxt - r0 := by omega

/-- The step lemma: what is passed up is the next part of the stream. -/
theorem Receives.step {past : List Input} {outs : List (List Event)} (i : Input)
    (h : Receives r0 past outs a) (hok : Accepts a i) :
    ∃ a' evs, step c fullTcpAgent a i = some (a', evs) ∧
      Receives r0 (past ++ [i]) (outs ++ [evs]) a' := by
  obtain ⟨xs, hs⟩ := h.stream
  cases i with
  | segment pkt env =>
    obtain ⟨a', evs, hrecv, hst, ht⟩ := recv_spec hs h.receiving h.noFin hok
    refine ⟨a', evs, hrecv, h.takes hst ?_⟩
    have heq : Received [.segment pkt env] =
        fun x => pkt.seqno ≤ x ∧ x < pkt.seqno + pkt.datalen :=
      funext (fun x => propext (received_segment pkt env x))
    rw [heq]
    exact ht
  | timeout sent =>
    refine ⟨_, [], rfl, h.takes (receiving_sendMuch (a := { a with snd := _ }) h.receiving sent) ?_⟩
    refine Takes.nothing hs h.noFin rfl ?_
    rintro x - ⟨pkt, env, hmem, -⟩
    simp at hmem
  | send sent =>
    refine ⟨_, [], rfl, h.takes (receiving_sendMuch h.receiving sent) ?_⟩
    refine Takes.nothing hs h.noFin rfl ?_
    rintro x - ⟨pkt, env, hmem, -⟩
    simp at hmem

theorem Receives.isLeast {past : List Input} {outs : List (List Event)}
    (h : Receives r0 past outs a) : IsLeast {x | r0 ≤ x ∧ ¬ Received past x} a.rcvNxt := by
  obtain ⟨xs, hs⟩ := h.stream
  refine ⟨⟨h.le, hs.missing⟩, ?_⟩
  rintro x ⟨hx, hnot⟩
  by_contra hlt
  exact hnot (h.below x hx (not_le.mp hlt))

/-- By induction on the inputs. -/
theorem receives_run {ins : List Input} (hstate : a.state = .established) (hempty : a.rq.IsEmpty)
    (hok : Runs.Meets (step c fullTcpAgent) Accepts a ins) :
    ∃ a' outs, Runs.run (step c fullTcpAgent) a ins = some (a', outs) ∧
      Receives a.rcvNxt ins outs a' := by
  have hnone : ∀ x, ¬ Received [] x := by
    rintro x ⟨pkt, env, hmem, -⟩
    cases hmem
  have hinit : Receives a.rcvNxt [] [] a := by
    refine ⟨by rw [hstate]; rfl, ⟨[], hempty.stream (fun x _ => hnone x)⟩, hempty.flagged, le_rfl, ?_, ?_⟩
    · exact fun x hx hx' => absurd hx (not_le.mpr hx')
    · simp [delivered]
  exact Runs.run_invariant (fun past outs a i h hi => h.step i hi) hinit hok

/-- A configuration with header prediction on. -/
def plainConfig : Config :=
  { nopredict := false, ecn := false, bugFix := true, dupsegFix := true, dupackReset := false,
    clearOnTimeout := true, tcprexmtthresh := 3, maxSackBlocks := 3, maxseg := 1, iss := 0 }

/-- An agent in `ESTABLISHED` that has sent nothing and expects `rcvnxt`. -/
def fresh (rcvnxt : ℤ) : FullTcp :=
  { state := .established, flags := 0, rq := init rcvnxt,
    snd := { highestAck := 0, maxseq := 0, tSeqno := 0, recover := 0, dupacks := 0,
             fastrecov := false, pipectrl := false, pipe := 0, hSeqno := -1, sq := init (-1) } }

/-- A call in which nothing is sent and no timer is set. -/
def quiet : Env :=
  { tsok := true, paws := false, ecnecho := false, cwndFull := false, rtxPending := false,
    lastActionEcn := false, lastActionDupack := false,
    sent := { more := 0, tSeqno := 0, pipe := 0, hSeqno := -1, flags := 0, close := false } }

/-- Three segments: one out of order, one that overlaps it, and the first one. -/
def shuffled : List Input :=
  [.segment ⟨4, 3, 0, thAck, []⟩ quiet, .segment ⟨2, 4, 0, thAck, []⟩ quiet,
    .segment ⟨1, 1, 0, thAck, []⟩ quiet]

end FullTcp

end NetSim
