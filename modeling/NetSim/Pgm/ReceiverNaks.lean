import NetSim.Mcast.RcvBufferRefines
import NetSim.Pgm.Receiver

/-! # A PGM receiver asks for what it misses

Original data that arrives beyond `nextpkt_` creates a request for every number that it skips. Repair data
does not: when a repair arrives beyond `nextpkt_`, the receive buffer notes a gap that nothing asks for,
and `nextpkt_` has passed it. In the runs without such a repair the requests are those for the missing
numbers (`receiver_asks`).
-/

namespace NetSim.Pgm.Receiver

open Function List RcvBuffer

variable {cfg : ReceiverConfig} {s s' : Receiver} {now : ℚ} {tsi : NsAddr} {i j : ℤ}

/-! ## The handlers on the requests -/

theorem setNak_naks {nitem : NakItem} :
    (s.setNak i nitem).naks j = if j = i then some nitem else s.naks j :=
  update_apply ..

theorem cancelNak_eq : s.cancelNak i = { s with naks := update s.naks i none } := by
  unfold cancelNak
  split
  · rename_i hnone
    rw [← hnone, update_eq_self]
  · rfl

theorem cancelNak_naks : (s.cancelNak i).naks j = if j = i then none else s.naks j := by
  rw [cancelNak_eq]
  dsimp only
  rw [update_apply]

/-- A request that waits for a timer. -/
def Waits (nitem : NakItem) (j : ℤ) : Prop := nitem.seqno = j ∧ ∃ t, nitem.nakTimer = some t

/-- What `generate_Nak` leaves alone. -/
structure SameButNaks (s s' : Receiver) : Prop where
  haveTsiState : s'.haveTsiState = s.haveTsiState
  tsi : s'.tsi = s.tsi
  rcvbuf : s'.rcvbuf = s.rcvbuf

theorem SameButNaks.refl (s : Receiver) : SameButNaks s s := ⟨rfl, rfl, rfl⟩

theorem SameButNaks.trans {s'' : Receiver} (h : SameButNaks s s') (h' : SameButNaks s' s'') :
    SameButNaks s s'' :=
  ⟨h'.haveTsiState.trans h.haveTsiState, h'.tsi.trans h.tsi, h'.rcvbuf.trans h.rcvbuf⟩

theorem setNak_same {nitem : NakItem} : SameButNaks s (s.setNak i nitem) := ⟨rfl, rfl, rfl⟩

theorem cancelNak_same : SameButNaks s (s.cancelNak i) := by
  rw [cancelNak_eq]
  exact ⟨rfl, rfl, rfl⟩

theorem generateNak_same {q : ℚ} : SameButNaks s (s.generateNak now i q) := by
  unfold generateNak
  split
  · exact SameButNaks.refl s
  · exact setNak_same

theorem generateNak_naks {q : ℚ} (hnone : s.naks i = none) :
    (s.generateNak now i q).naks j =
      if j = i then some { NakItem.init i with nakTimer := Timer.resched now q } else s.naks j := by
  unfold generateNak
  rw [hnone]
  exact setNak_naks

/-- **The loop of `handle_odata`** creates a request for each number. -/
theorem generateNaks_spec (now : ℚ) (backoff : ℤ → ℚ) (s : Receiver) (i : ℤ) (n : ℕ)
    (hnone : ∀ j, i ≤ j → s.naks j = none) :
    SameButNaks s (generateNaks now backoff s i n) ∧
      (∀ j, j < i → (generateNaks now backoff s i n).naks j = s.naks j) ∧
      (∀ j, i ≤ j → j < i + n → ∃ nitem, (generateNaks now backoff s i n).naks j = some nitem ∧
        Waits nitem j) ∧
      ∀ j, i + n ≤ j → (generateNaks now backoff s i n).naks j = none := by
  induction n generalizing s i with
  | zero =>
    refine ⟨SameButNaks.refl s, fun j _ => rfl, fun j hj hj' => ?_, fun j hj => hnone j ?_⟩
    · omega
    · omega
  | succ n ih =>
    have hfirst := hnone i (le_refl i)
    have hrest : ∀ j, i + 1 ≤ j → (s.generateNak now i (backoff i)).naks j = none := by
      intro j hj
      rw [generateNak_naks hfirst, if_neg (by omega)]
      exact hnone j (by omega)
    obtain ⟨hsame, hbelow, hnew, habove⟩ := ih (s.generateNak now i (backoff i)) (i + 1) hrest
    rw [generateNaks]
    refine ⟨generateNak_same.trans hsame, fun j hj => ?_, fun j hj hj' => ?_, fun j hj => ?_⟩
    · rw [hbelow j (by omega), generateNak_naks hfirst, if_neg (by omega)]
    · by_cases hji : j = i
      · subst hji
        refine ⟨_, (hbelow j (by omega)).trans ((generateNak_naks hfirst).trans (if_pos rfl)), ?_⟩
        exact ⟨rfl, _, rfl⟩
      · exact hnew j (by omega) (by omega)
    · exact habove j (by omega)

/-! ## The invariant -/

/-- The packet that an event adds to the receive buffer. -/
def arrival (tsi : NsAddr) (e : ℚ × ReceiverEvent) : Option (ℤ × ℚ) :=
  match e.2 with
  | .odata hp _ => if hp.tsi = tsi then some (hp.seqno, e.1) else none
  | .rdata hp => if hp.tsi = tsi then some (hp.seqno, e.1) else none
  | _ => none

def Received (tsi : NsAddr) (past : List (ℚ × ReceiverEvent)) (j : ℤ) : Prop :=
  Added (past.filterMap (arrival tsi)) j

instance (past : List (ℚ × ReceiverEvent)) : Decidable (Received tsi past j) :=
  inferInstanceAs (Decidable (Added _ _))

def GivenUp (outs : List (List ReceiverOutput)) (j : ℤ) : Prop := .stopped j ∈ outs.flatten

instance (outs : List (List ReceiverOutput)) : Decidable (GivenUp outs j) :=
  inferInstanceAs (Decidable (_ ∈ _))

/-- **The requests are for the missing numbers**: every request is for one and waits for a timer, and every
missing number is asked for, or was until the request was given up. -/
structure Asks (tsi : NsAddr) (past : List (ℚ × ReceiverEvent)) (outs : List (List ReceiverOutput))
    (s : Receiver) : Prop where
  asked : ∀ j nitem, s.naks j = some nitem →
    0 ≤ j ∧ j < s.rcvbuf.nextpkt ∧ ¬ Received tsi past j ∧ ∃ t, nitem.nakTimer = some t
  missing : ∀ j, 0 ≤ j → j < s.rcvbuf.nextpkt → ¬ Received tsi past j →
    (∃ nitem, s.naks j = some nitem) ∨ GivenUp outs j

/-- With the receive buffer, and the session that the first SPM told. -/
structure Inv (tsi : NsAddr) (past : List (ℚ × ReceiverEvent)) (outs : List (List ReceiverOutput))
    (s : Receiver) : Prop where
  have_tsi : s.haveTsiState = true
  tsi_eq : s.tsi = tsi
  tracks : ∃ xs, Tracks (past.filterMap (arrival tsi)) s.rcvbuf xs
  asks : Asks tsi past outs s
  seqno : ∀ j nitem, s.naks j = some nitem → nitem.seqno = j
  given : ∀ j, GivenUp outs j → j < s.rcvbuf.nextpkt

variable {past : List (ℚ × ReceiverEvent)} {outs : List (List ReceiverOutput)} {e : ℚ × ReceiverEvent}
  {os : List ReceiverOutput}

theorem received_concat_none (h : arrival tsi e = none) :
    Received tsi (past ++ [e]) j ↔ Received tsi past j := by
  unfold Received
  rw [filterMap_append, filterMap_cons_none h, filterMap_nil, append_nil]

theorem received_concat {a : ℤ × ℚ} (h : arrival tsi e = some a) :
    Received tsi (past ++ [e]) j ↔ Received tsi past j ∨ j = a.1 := by
  unfold Received
  rw [filterMap_append, filterMap_cons_some h, filterMap_nil]
  exact added_concat

theorem givenUp_concat : GivenUp (outs ++ [os]) j ↔ GivenUp outs j ∨ .stopped j ∈ os := by
  unfold GivenUp
  rw [flatten_append, mem_append, flatten_singleton]

theorem Inv.request (h : Inv tsi past outs s) (he : arrival tsi e = none) (hsame : SameButNaks s s')
    (hold : ∀ j, j ≠ i → s'.naks j = s.naks j)
    (hi : ∀ nitem, s'.naks i = some nitem → Waits nitem i ∧ ∃ nitem', s.naks i = some nitem')
    (hgone : ∀ nitem, s.naks i = some nitem → s'.naks i = none → .stopped i ∈ os)
    (hos : ∀ j, .stopped j ∈ os → ∃ nitem, s.naks j = some nitem) :
    Inv tsi (past ++ [e]) (outs ++ [os]) s' := by
  obtain ⟨xs, htracks⟩ := h.tracks
  refine ⟨hsame.haveTsiState.trans h.have_tsi, hsame.tsi.trans h.tsi_eq, ⟨xs, ?_⟩, ⟨?_, ?_⟩, ?_, ?_⟩
  · rw [filterMap_append, filterMap_cons_none he, filterMap_nil, append_nil,
      hsame.rcvbuf]
    exact htracks
  · intro j nitem hj
    rw [received_concat_none he, hsame.rcvbuf]
    by_cases hji : j = i
    · subst hji
      obtain ⟨⟨-, htimer⟩, nitem', hj'⟩ := hi nitem hj
      obtain ⟨hpos, hlt, hno, -⟩ := h.asks.asked j nitem' hj'
      exact ⟨hpos, hlt, hno, htimer⟩
    · exact h.asks.asked j nitem ((hold j hji).symm.trans hj)
  · intro j hpos hlt hno
    rw [received_concat_none he] at hno
    rw [hsame.rcvbuf] at hlt
    rw [givenUp_concat]
    rcases h.asks.missing j hpos hlt hno with ⟨nitem, hj⟩ | hgiven
    · by_cases hji : j = i
      · subst hji
        cases hs' : s'.naks j with
        | none => exact .inr (.inr (hgone nitem hj hs'))
        | some nitem' => exact .inl ⟨nitem', rfl⟩
      · exact .inl ⟨nitem, (hold j hji).trans hj⟩
    · exact .inr (.inl hgiven)
  · intro j nitem hj
    by_cases hji : j = i
    · subst hji
      exact (hi nitem hj).1.1
    · exact h.seqno j nitem ((hold j hji).symm.trans hj)
  · intro j hj
    rw [hsame.rcvbuf]
    rcases givenUp_concat.mp hj with hj | hj
    · exact h.given j hj
    · obtain ⟨nitem, hs⟩ := hos j hj
      exact (h.asks.asked j nitem hs).2.1

theorem Inv.same (h : Inv tsi past outs s) (he : arrival tsi e = none) (hsame : SameButNaks s s')
    (hold : s'.naks = s.naks) : Inv tsi (past ++ [e]) (outs ++ [[]]) s' := by
  refine h.request (i := -1) he hsame (fun j _ => congrFun hold j) (fun nitem hi => ?_)
    (fun nitem hi hi' => ?_) (fun j hj => absurd hj not_mem_nil)
  · rw [hold] at hi
    exact ⟨⟨h.seqno _ nitem hi, (h.asks.asked _ nitem hi).2.2.2⟩, nitem, hi⟩
  · rw [hold, hi] at hi'
    cases hi'

theorem Inv.set (h : Inv tsi past outs s) (he : arrival tsi e = none) {nitem nitem' : NakItem}
    (hs : s.naks i = some nitem)
    (hnew : nitem'.seqno = nitem.seqno ∧ ∃ t, nitem'.nakTimer = some t) {s₁ : Receiver}
    (hsame : SameButNaks s s₁) (hnaks : s₁.naks = s.naks) (hos : ∀ j, .stopped j ∉ os) :
    Inv tsi (past ++ [e]) (outs ++ [os]) (s₁.setNak i nitem') := by
  refine h.request (i := i) he (hsame.trans setNak_same) (fun j hj => ?_) (fun n hn => ?_)
    (fun n hn hn' => ?_) (fun j hj => absurd hj (hos j))
  · rw [setNak_naks, if_neg hj, hnaks]
  · rw [setNak_naks, if_pos rfl] at hn
    cases hn
    exact ⟨⟨hnew.1.trans (h.seqno i nitem hs), hnew.2⟩, nitem, hs⟩
  · rw [setNak_naks, if_pos rfl] at hn'
    cases hn'

theorem Inv.arrive (h : Inv tsi past outs s) {b' : RcvBuffer} {t : ℚ}
    (he : arrival tsi e = some (i, t)) (hi : 0 ≤ i)
    {xs : List ℕ} (htracks : Tracks (past.filterMap (arrival tsi) ++ [(i, t)]) b' xs)
    (hs' : s'.haveTsiState = s.haveTsiState ∧ s'.tsi = s.tsi ∧ s'.rcvbuf = b')
    (hnone : s'.naks i = none) (hold : ∀ j, j ≠ i → j < s.rcvbuf.nextpkt → s'.naks j = s.naks j)
    (hnew : ∀ j, s.rcvbuf.nextpkt ≤ j → j < i → ∃ nitem, s'.naks j = some nitem ∧ Waits nitem j)
    (habove : ∀ j, s.rcvbuf.nextpkt ≤ j → i ≤ j → s'.naks j = none) :
    Inv tsi (past ++ [e]) (outs ++ [[]]) s' := by
  obtain ⟨xs₀, htracks₀⟩ := h.tracks
  obtain ⟨hhave, htsi, hbuf⟩ := hs'
  have hnext : b'.nextpkt = max s.rcvbuf.nextpkt (i + 1) := htracks₀.nextpkt_concat htracks
  have hnext₀ : 0 ≤ s.rcvbuf.nextpkt := by
    rcases htracks₀.top with hzero | ⟨hlt, -⟩ <;> omega
  -- what is beyond `nextpkt_` was not received
  have hbelow : ∀ j, s.rcvbuf.nextpkt ≤ j → ¬ Received tsi past j := by
    intro j hj hrec
    have hlt := (htracks₀.below j hrec).2
    omega
  refine ⟨hhave.trans h.have_tsi, htsi.trans h.tsi_eq, ⟨xs, ?_⟩, ⟨?_, ?_⟩, ?_, ?_⟩
  · rw [filterMap_append, filterMap_cons_some he, filterMap_nil, hbuf]
    exact htracks
  · intro j nitem hj
    rw [received_concat he, hbuf, hnext]
    have hji : j ≠ i := by
      rintro rfl
      rw [hnone] at hj
      cases hj
    by_cases hlow : j < s.rcvbuf.nextpkt
    · rw [hold j hji hlow] at hj
      obtain ⟨hpos, -, hno, htimer⟩ := h.asks.asked j nitem hj
      exact ⟨hpos, by omega, fun hor => hor.elim hno hji, htimer⟩
    · by_cases hlt : j < i
      · obtain ⟨nitem', hj', hwaits⟩ := hnew j (by omega) hlt
        rw [hj] at hj'
        cases hj'
        exact ⟨by omega, by omega, fun hor => hor.elim (hbelow j (by omega)) hji, hwaits.2⟩
      · rw [habove j (by omega) (by omega)] at hj
        cases hj
  · intro j hpos hlt hno
    rw [received_concat he, not_or] at hno
    obtain ⟨hno, hji⟩ := hno
    rw [hbuf, hnext] at hlt
    rw [givenUp_concat]
    by_cases hlow : j < s.rcvbuf.nextpkt
    · rw [hold j hji hlow]
      rcases h.asks.missing j hpos hlow hno with hasked | hgiven
      · exact .inl hasked
      · exact .inr (.inl hgiven)
    · obtain ⟨nitem, hj, -⟩ := hnew j (by omega) (by omega)
      exact .inl ⟨nitem, hj⟩
  · intro j nitem hj
    have hji : j ≠ i := by
      rintro rfl
      rw [hnone] at hj
      cases hj
    by_cases hlow : j < s.rcvbuf.nextpkt
    · exact h.seqno j nitem ((hold j hji hlow).symm.trans hj)
    · by_cases hlt : j < i
      · obtain ⟨nitem', hj', hwaits⟩ := hnew j (by omega) hlt
        rw [hj] at hj'
        cases hj'
        exact hwaits.1
      · rw [habove j (by omega) (by omega)] at hj
        cases hj
  · intro j hj
    rw [hbuf, hnext]
    rcases givenUp_concat.mp hj with hj | hj
    · have hlt := h.given j hj
      omega
    · exact absurd hj not_mem_nil

/-! ## The events -/

def Occurs (s : Receiver) (e : ℚ × ReceiverEvent) : Prop :=
  match e.2 with
  | .odata hp _ => 0 ≤ hp.seqno
  | .rdata hp => 0 ≤ hp.seqno
  | .expire seqno _ => (s.naks seqno).bind NakItem.nakTimer = some e.1
  | _ => True

instance (s : Receiver) : (e : ℚ × ReceiverEvent) → Decidable (Occurs s e)
  | (_, .odata hp _) => inferInstanceAs (Decidable (0 ≤ hp.seqno))
  | (_, .rdata hp) => inferInstanceAs (Decidable (0 ≤ hp.seqno))
  | (now, .expire seqno _) =>
    inferInstanceAs (Decidable ((s.naks seqno).bind NakItem.nakTimer = some now))
  | (_, .spm _ _ _ _ _) | (_, .nak _) | (_, .ncf _) => isTrue trivial

/-- No repair of the session is beyond `nextpkt_`. -/
def NotAhead (s : Receiver) (e : ℚ × ReceiverEvent) : Prop :=
  match e.2 with
  | .rdata hp => hp.tsi = s.tsi → hp.seqno ≤ s.rcvbuf.nextpkt
  | _ => True

instance (s : Receiver) : (e : ℚ × ReceiverEvent) → Decidable (NotAhead s e)
  | (_, .rdata hp) => inferInstanceAs (Decidable (hp.tsi = s.tsi → hp.seqno ≤ s.rcvbuf.nextpkt))
  | (_, .spm _ _ _ _ _) | (_, .odata _ _) | (_, .nak _) | (_, .ncf _) | (_, .expire _ _) =>
    isTrue trivial

theorem Inv.incorrectTsi_iff (h : Inv tsi past outs s) {hp : Hdr} :
    s.incorrectTsi hp = true ↔ hp.tsi ≠ tsi := by
  unfold incorrectTsi
  rw [h.have_tsi, h.tsi_eq]
  simp

theorem Inv.naks_above (h : Inv tsi past outs s) (hj : s.rcvbuf.nextpkt ≤ j) : s.naks j = none := by
  cases hs : s.naks j with
  | none => rfl
  | some nitem =>
    have hlt := (h.asks.asked j nitem hs).2.1
    omega

theorem Inv.spm (h : Inv tsi past outs s) {hp : Hdr} {src dst spmPath : NsAddr} {iface : ℤ} :
    Inv tsi (past ++ [(now, .spm hp src dst spmPath iface)]) (outs ++ [[]])
      (s.handleSpm hp src dst spmPath iface) := by
  unfold handleSpm
  rw [if_neg (by rw [h.have_tsi]; decide)]
  split
  · exact h.same rfl (SameButNaks.refl s) rfl
  split
  · exact h.same rfl (SameButNaks.refl s) rfl
  · exact h.same rfl ⟨rfl, rfl, rfl⟩ rfl

theorem Inv.odata (h : Inv tsi past outs s) {hp : Hdr} {backoff : ℤ → ℚ} (hpos : 0 ≤ hp.seqno) :
    ∃ s', s.handleOdata now hp backoff = some s' ∧
      Inv tsi (past ++ [(now, .odata hp backoff)]) (outs ++ [[]]) s' := by
  unfold handleOdata
  by_cases htsi : hp.tsi = tsi
  · rw [if_neg (mt h.incorrectTsi_iff.mp (not_not_intro htsi))]
    dsimp only
    rw [if_pos h.have_tsi]
    obtain ⟨hsame, hbelow, hnew, habove⟩ := generateNaks_spec now backoff s s.rcvbuf.nextpkt
      (hp.seqno - s.rcvbuf.nextpkt).toNat (fun j hj => h.naks_above hj)
    obtain ⟨xs, htracks⟩ := h.tracks
    obtain ⟨b', xs', hb', htracks'⟩ := htracks.addPkt (a := (hp.seqno, now)) hpos
    rw [hsame.rcvbuf, hb', Option.map_some]
    have harrival : arrival tsi (now, .odata hp backoff) = some (hp.seqno, now) := if_pos htsi
    refine ⟨_, rfl, h.arrive harrival hpos htracks' ?_ ?_ (fun j hj hlow => ?_) (fun j hj hj' => ?_)
      (fun j hj hj' => ?_)⟩
    · rw [cancelNak_eq]
      exact ⟨hsame.haveTsiState, hsame.tsi, rfl⟩
    · rw [cancelNak_naks, if_pos rfl]
    · rw [cancelNak_naks, if_neg hj]
      exact hbelow j hlow
    · rw [cancelNak_naks, if_neg (by omega)]
      exact hnew j hj (by omega)
    · rw [cancelNak_naks]
      split
      · rfl
      · exact habove j (by omega)
  · rw [if_pos (h.incorrectTsi_iff.mpr htsi)]
    exact ⟨s, rfl, h.same (if_neg htsi) (SameButNaks.refl s) rfl⟩

theorem Inv.handleRdata_eq (h : Inv tsi past outs s) {hp : Hdr} (hpos : 0 ≤ hp.seqno)
    (htsi : hp.tsi = tsi) :
    ∃ b' xs', Tracks (past.filterMap (arrival tsi) ++ [(hp.seqno, now)]) b' xs' ∧
      s.handleRdata now hp = some { s with
        rcvbuf := b'
        naks := update s.naks hp.seqno none } := by
  obtain ⟨xs, htracks⟩ := h.tracks
  obtain ⟨b', xs', hb', htracks'⟩ := htracks.addPkt (a := (hp.seqno, now)) hpos
  refine ⟨b', xs', htracks', ?_⟩
  unfold handleRdata
  rw [if_neg (mt h.incorrectTsi_iff.mp (not_not_intro htsi))]
  dsimp only at hb' ⊢
  split
  · rw [cancelNak_eq]
    rw [hb']
    rfl
  · rename_i hnot
    -- there is no request that could be cancelled
    have hnone : s.naks hp.seqno = none := by
      cases hs : s.naks hp.seqno with
      | none => rfl
      | some nitem =>
        obtain ⟨-, hlt, hno, -⟩ := h.asks.asked _ nitem hs
        refine absurd ⟨hlt, Bool.eq_false_iff.mpr (fun hex => ?_)⟩ hnot
        exact hno ((htracks.existsPkt_iff hpos).mp hex)
    rw [hb', ← hnone, update_eq_self]
    rfl

theorem Inv.rdata (h : Inv tsi past outs s) {hp : Hdr} (hpos : 0 ≤ hp.seqno)
    (hahead : hp.tsi = s.tsi → hp.seqno ≤ s.rcvbuf.nextpkt) :
    ∃ s', s.handleRdata now hp = some s' ∧
      Inv tsi (past ++ [(now, .rdata hp)]) (outs ++ [[]]) s' := by
  by_cases htsi : hp.tsi = tsi
  · obtain ⟨b', xs', htracks', hs'⟩ := @Inv.handleRdata_eq s now tsi past outs h hp hpos htsi
    have hle := hahead (htsi.trans h.tsi_eq.symm)
    have harrival : arrival tsi (now, .rdata hp) = some (hp.seqno, now) := if_pos htsi
    refine ⟨_, hs', h.arrive harrival hpos htracks' ⟨rfl, rfl, rfl⟩ ?_ (fun j hj _ => ?_)
      (fun j hj hj' => ?_) (fun j hj _ => ?_)⟩
    · exact update_self ..
    · exact update_of_ne hj _ _
    · omega
    · dsimp only
      rw [update_apply, h.naks_above hj]
      exact ite_self none
  · unfold handleRdata
    rw [if_pos (h.incorrectTsi_iff.mpr htsi)]
    exact ⟨s, rfl, h.same (if_neg htsi) (SameButNaks.refl s) rfl⟩

theorem Inv.nak (h : Inv tsi past outs s) {hp : Hdr} :
    Inv tsi (past ++ [(now, .nak hp)]) (outs ++ [[]]) (s.handleNak cfg now hp) := by
  unfold handleNak
  split
  · exact h.same rfl (SameButNaks.refl s) rfl
  split
  · exact h.same rfl (SameButNaks.refl s) rfl
  · rename_i nitem hs
    split
    · exact h.set rfl hs (by exact ⟨rfl, _, rfl⟩) (SameButNaks.refl s) rfl (by simp)
    · exact h.set rfl hs (by exact ⟨rfl, _, rfl⟩) (SameButNaks.refl s) rfl (by simp)
    · exact h.set rfl hs (by exact ⟨rfl, _, rfl⟩) (SameButNaks.refl s) rfl (by simp)

theorem Inv.ncf (h : Inv tsi past outs s) {hp : Hdr} :
    Inv tsi (past ++ [(now, .ncf hp)]) (outs ++ [[]]) (s.handleNcf cfg now hp) := by
  unfold handleNcf
  split
  · exact h.same rfl (SameButNaks.refl s) rfl
  split
  · exact h.same rfl (SameButNaks.refl s) rfl
  · rename_i nitem hs
    exact h.set rfl hs (by exact ⟨rfl, _, rfl⟩) (SameButNaks.refl s) rfl (by simp)

theorem Inv.giveUp (h : Inv tsi past outs s) (he : arrival tsi e = none) {nitem : NakItem}
    (hs : s.naks i = some nitem) :
    Inv tsi (past ++ [e]) (outs ++ [[.stopped nitem.seqno]]) (s.cancelNak nitem.seqno) := by
  rw [h.seqno i nitem hs]
  refine h.request (i := i) he cancelNak_same (fun j hj => ?_) (fun n hn => ?_) (fun n _ _ => ?_)
    (fun j hj => ?_)
  · rw [cancelNak_naks, if_neg hj]
  · rw [cancelNak_naks, if_pos rfl] at hn
    cases hn
  · exact mem_singleton.mpr rfl
  · cases mem_singleton.mp hj
    exact ⟨nitem, hs⟩

theorem Inv.timeoutNak (h : Inv tsi past outs s) {nitem : NakItem} {q : ℚ}
    (hs : s.naks i = some nitem) :
    Inv tsi (past ++ [(now, .expire i q)]) (outs ++ [(s.timeoutNak cfg now i nitem q).2])
      (s.timeoutNak cfg now i nitem q).1 := by
  unfold Receiver.timeoutNak
  split
  · exact h.set rfl hs (by exact ⟨rfl, _, rfl⟩) ⟨rfl, rfl, rfl⟩ rfl (by simp)
  · split
    · exact h.giveUp rfl hs
    · exact h.set rfl hs (by exact ⟨rfl, _, rfl⟩) (SameButNaks.refl s) rfl (by simp)
  · split
    · exact h.giveUp rfl hs
    · exact h.set rfl hs (by exact ⟨rfl, _, rfl⟩) (SameButNaks.refl s) rfl (by simp)

/-- The step lemma: the NAKs under way are those for numbers that are missing. -/
theorem Inv.step (h : Inv tsi past outs s) (hocc : Occurs s e) (hahead : NotAhead s e) :
    ∃ s' os, s.step cfg e = some (s', os) ∧ Inv tsi (past ++ [e]) (outs ++ [os]) s' := by
  obtain ⟨now, ev⟩ := e
  cases ev with
  | spm hp src dst spmPath iface => exact ⟨_, [], rfl, h.spm⟩
  | odata hp backoff =>
    obtain ⟨s', hs', hinv⟩ := @NetSim.Pgm.Receiver.Inv.odata _ now _ _ _ h _ backoff hocc
    refine ⟨s', [], ?_, hinv⟩
    unfold Receiver.step
    dsimp only
    rw [hs']
    rfl
  | rdata hp =>
    obtain ⟨s', hs', hinv⟩ := @NetSim.Pgm.Receiver.Inv.rdata _ now _ _ _ h _ hocc hahead
    refine ⟨s', [], ?_, hinv⟩
    unfold Receiver.step
    dsimp only
    rw [hs']
    rfl
  | nak hp => exact ⟨_, [], rfl, h.nak⟩
  | ncf hp => exact ⟨_, [], rfl, h.ncf⟩
  | expire seqno q =>
    obtain ⟨nitem, hs, htimer⟩ := Option.bind_eq_some_iff.mp hocc
    refine ⟨(s.timeoutNak cfg now seqno nitem q).1, (s.timeoutNak cfg now seqno nitem q).2, ?_,
      h.timeoutNak hs⟩
    unfold Receiver.step
    dsimp only
    rw [hs, Option.bind_some, if_pos htimer]

/-! ## Runs -/

theorem Inv.init (hp : Hdr) (src dst spmPath : NsAddr) (iface : ℤ) :
    Inv hp.tsi [] [] (Receiver.init.handleSpm hp src dst spmPath iface) where
  have_tsi := rfl
  tsi_eq := rfl
  tracks := ⟨[], Tracks.init⟩
  asks :=
    { asked := fun j nitem hj => by cases hj
      missing := fun j hpos hlt _ => absurd hpos (not_le_of_gt hlt) }
  seqno j nitem hj := by cases hj
  given j hj := absurd hj not_mem_nil

theorem Inv.run {events : List (ℚ × ReceiverEvent)} (h : Inv tsi [] [] s)
    (hocc : Runs.Meets (Receiver.step cfg) Occurs s events)
    (hahead : Runs.Meets (Receiver.step cfg) NotAhead s events) :
    ∃ s' outs, Runs.run (Receiver.step cfg) s events = some (s', outs) ∧ Inv tsi events outs s' :=
  Runs.run_invariant (fun _ _ _ _ (h : Inv tsi _ _ _) hok => h.step hok.1 hok.2) h (hocc.and hahead)

/-- **A repair beyond `nextpkt_`** leaves a number that nothing asks for. -/
theorem Inv.not_asks (h : Inv tsi past outs s) (hocc : Occurs s e) (hahead : ¬ NotAhead s e)
    (hs' : s.step cfg e = some (s', os)) : ¬ Asks tsi (past ++ [e]) (outs ++ [os]) s' := by
  obtain ⟨now, ev⟩ := e
  cases ev with
  | rdata hp =>
    unfold NotAhead at hahead
    dsimp only at hahead
    push Not at hahead
    obtain ⟨htsi, hlt⟩ := hahead
    rw [h.tsi_eq] at htsi
    obtain ⟨b', xs', htracks', heq⟩ := @Inv.handleRdata_eq s now tsi past outs h hp hocc htsi
    unfold Receiver.step at hs'
    dsimp only at hs'
    rw [heq] at hs'
    cases hs'
    obtain ⟨xs, htracks⟩ := h.tracks
    have hnext : b'.nextpkt = max s.rcvbuf.nextpkt (hp.seqno + 1) := htracks.nextpkt_concat htracks'
    have hnext₀ : 0 ≤ s.rcvbuf.nextpkt := by
      rcases htracks.top with hzero | ⟨hpos, -⟩ <;> omega
    have hno : ¬ Received tsi (past ++ [(now, .rdata hp)]) s.rcvbuf.nextpkt := by
      have harrival : arrival tsi (now, .rdata hp) = some (hp.seqno, now) := if_pos htsi
      rw [received_concat harrival]
      rintro (hrec | heq')
      · exact absurd (htracks.below _ hrec).2 (lt_irrefl _)
      · exact absurd heq' (ne_of_lt hlt)
    intro hasks
    rcases hasks.missing s.rcvbuf.nextpkt hnext₀ (by dsimp only; omega) hno with
      ⟨nitem, hasked⟩ | hgiven
    · -- the number is not asked for
      dsimp only at hasked
      rw [update_of_ne (ne_of_lt hlt), h.naks_above (le_refl _)] at hasked
      cases hasked
    · rcases givenUp_concat.mp hgiven with hgiven | hmem
      · exact absurd (h.given _ hgiven) (lt_irrefl _)
      · exact absurd hmem not_mem_nil
  | spm hp src dst spmPath iface => exact absurd trivial hahead
  | odata hp backoff => exact absurd trivial hahead
  | nak hp => exact absurd trivial hahead
  | ncf hp => exact absurd trivial hahead
  | expire seqno q => exact absurd trivial hahead

/-- **The receiver asks for what it misses**, in every state that a run from the first SPM reaches, exactly
when no repair of the run is beyond `nextpkt_` at its arrival. -/
theorem receiver_asks (cfg : ReceiverConfig) (hp : Hdr) (src dst spmPath : NsAddr) (iface : ℤ)
    (events : List (ℚ × ReceiverEvent))
    (hocc : Runs.Meets (Receiver.step cfg) Occurs (Receiver.init.handleSpm hp src dst spmPath iface)
      events) :
    (∀ past, past <+: events → ∃ s outs,
      Runs.run (Receiver.step cfg) (Receiver.init.handleSpm hp src dst spmPath iface) past =
        some (s, outs) ∧ Asks hp.tsi past outs s) ↔
    Runs.Meets (Receiver.step cfg) NotAhead (Receiver.init.handleSpm hp src dst spmPath iface)
      events := by
  have hinit := Inv.init hp src dst spmPath iface
  constructor
  · intro hall
    refine Runs.meets_of_prefixes (fun past e r hpre hmeets hr => ?_)
    obtain ⟨rest, rfl⟩ := hpre
    have hocc' := Runs.meets_concat.mp hocc.append_left
    obtain ⟨s, outs, hrun, hinv⟩ := hinit.run hocc'.1 hmeets
    rw [hr] at hrun
    cases hrun
    obtain ⟨s', outs', hrun', hasks⟩ := hall (past ++ [e]) (prefix_append _ _)
    by_contra hahead
    -- the last step
    cases hs' : Receiver.step cfg s e with
    | none =>
      rw [Runs.run_concat_none hr hs'] at hrun'
      cases hrun'
    | some t =>
      rw [Runs.run_concat hr hs'] at hrun'
      cases hrun'
      exact hinv.not_asks (hocc'.2 _ hr) hahead hs' hasks
  · rintro hmeets past ⟨rest, rfl⟩
    obtain ⟨s, outs, hrun, hinv⟩ := hinit.run hocc.append_left hmeets.append_left
    exact ⟨s, outs, hrun, hinv.asks⟩

def session : NsAddr := ⟨1, 5⟩

def someConfig : ReceiverConfig where
  maxNakNcfRetries := 5
  maxNakDataRetries := 5
  nakRptIvl := 2
  nakRdataIvl := 10

/-- The receiver after the first SPM of the session. -/
def started : Receiver := Receiver.init.handleSpm ⟨session, 0⟩ session ⟨7, 0⟩ ⟨2, 5⟩ 0

/-- A loss, its NAK, an NCF, two repairs, one of them the next packet. -/
theorem receiver_asks_repaired :
    Runs.Meets (Receiver.step someConfig) NotAhead started
        [(1, .odata ⟨session, 2⟩ (fun _ => 1 / 2)), (3 / 2, .expire 0 0), (2, .ncf ⟨session, 1⟩),
          (3, .rdata ⟨session, 0⟩), (4, .rdata ⟨session, 3⟩)] ∧
      ∃ s outs, Runs.run (Receiver.step someConfig) started
          [(1, .odata ⟨session, 2⟩ (fun _ => 1 / 2)), (3 / 2, .expire 0 0), (2, .ncf ⟨session, 1⟩),
            (3, .rdata ⟨session, 0⟩), (4, .rdata ⟨session, 3⟩)] = some (s, outs) ∧
        Asks session [(1, .odata ⟨session, 2⟩ (fun _ => 1 / 2)), (3 / 2, .expire 0 0),
          (2, .ncf ⟨session, 1⟩), (3, .rdata ⟨session, 0⟩), (4, .rdata ⟨session, 3⟩)] outs s := by
  have hmeets : Runs.Meets (Receiver.step someConfig) NotAhead started
      [(1, .odata ⟨session, 2⟩ (fun _ => 1 / 2)), (3 / 2, .expire 0 0), (2, .ncf ⟨session, 1⟩),
        (3, .rdata ⟨session, 0⟩), (4, .rdata ⟨session, 3⟩)] := by
    decide +kernel
  exact ⟨hmeets, (receiver_asks someConfig ⟨session, 0⟩ session ⟨7, 0⟩ ⟨2, 5⟩ 0 _ (by decide +kernel)).mpr
    hmeets _ (prefix_refl _)⟩

/-- A repair for another receiver arrives first: packet 0 is missing, and nothing asks for it. -/
theorem rdata_ahead_not_asked :
    ∃ s outs, Runs.Meets (Receiver.step someConfig) Occurs started [(1, .rdata ⟨session, 1⟩)] ∧
      Runs.run (Receiver.step someConfig) started [(1, .rdata ⟨session, 1⟩)] = some (s, outs) ∧
      0 < s.rcvbuf.nextpkt ∧ ¬ Received session [(1, .rdata ⟨session, 1⟩)] 0 ∧ s.naks 0 = none ∧
      ¬ GivenUp outs 0 ∧ ¬ Asks session [(1, .rdata ⟨session, 1⟩)] outs s := by
  refine ⟨_, _, by decide +kernel, rfl, by decide +kernel, by decide +kernel, by decide +kernel,
    by decide +kernel, fun hasks => ?_⟩
  rcases hasks.missing 0 (by decide +kernel) (by decide +kernel) (by decide +kernel) with
    ⟨nitem, hasked⟩ | hgiven
  · cases hasked
  · exact absurd hgiven (by decide +kernel)

end NetSim.Pgm.Receiver
