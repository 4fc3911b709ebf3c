import NetSim.Lib.Runs
import NetSim.Lib.Tiling
import NetSim.Mcast.Lms
import NetSim.Mcast.RcvBufferRefines

/-! # The outstanding NAKs are the gaps

The list of NAKs and the gaps of the receive buffer are kept by separate code. After any events the ranges
of the NAKs tile the set of missing packets (`naks_are_gaps`): a packet beyond the next one adds a tile, a
retransmission cuts its number out of one tile (`splitNak_spec`), and a timer changes no range. Since the
tiles are disjoint, `find_nak` finds the NAK of a timer by its range.
-/

namespace NetSim.Lms

open List RcvBuffer

variable {r r' : LmsReceiver} {n m : LmsNak} {past : List (ℤ × ℚ)} {sent : List Request} {S : Set ℤ}
  {b b' : RcvBuffer} {gs gs' : List ℕ} {lo hi i j : ℤ} {now : ℚ}

def Event.arrival? (e : ℚ × Event) : Option (ℤ × ℚ) :=
  match e.2 with
  | .data rseq _ => some (rseq, e.1)
  | _ => none

def arrivals (events : List (ℚ × Event)) : List (ℤ × ℚ) := events.filterMap Event.arrival?

def Sent.request? : Sent → Option Request
  | .nak _ _ rq => some rq
  | _ => none

def naksOf (outs : List (List Sent)) : List Request := outs.flatten.filterMap Sent.request?

def Allowed (r : LmsReceiver) (e : ℚ × Event) : Prop :=
  match e.2 with
  | .data rseq _ => 0 ≤ rseq
  | .request _ => True
  | .lms pkt => pkt ≠ .other
  | .nakTimer a => ∃ n ∈ r.nak, n.addr = a ∧ n.nakTimer = some e.1

instance (r : LmsReceiver) (e : ℚ × Event) : Decidable (Allowed r e) := by
  unfold Allowed
  cases e.2 <;> infer_instance

/-- Nothing was received yet; the other fields are arbitrary. -/
structure LmsReceiver.Fresh (r : LmsReceiver) : Prop where
  rcvbuf : r.rcvbuf = RcvBuffer.init
  nak : r.nak = []
  sampled : r.lsLastRq ≤ r.reqSent

/-! ## The list of NAKs -/

def LmsNak.span (n : LmsNak) : Set ℤ := Set.Icc n.lo n.hi

/-- Every timer is pending, and the addresses are distinct and lie between `a` and `c`. -/
structure Armed (xs : List LmsNak) (a c : ℕ) : Prop where
  pending : ∀ n ∈ xs, n.nakTimer.isSome
  addr : ∀ n ∈ xs, a ≤ n.addr ∧ n.addr < c
  distinct : xs.Pairwise (fun m n => m.addr ≠ n.addr)

theorem Armed.nil {a c : ℕ} : Armed [] a c :=
  ⟨fun _ h => absurd h not_mem_nil, fun _ h => absurd h not_mem_nil, Pairwise.nil⟩

theorem Armed.append {xs ys : List LmsNak} {a c d : ℕ} (h : Armed xs c d) (h' : Armed ys a c) (hac : a ≤ c)
    (hcd : c ≤ d) : Armed (xs ++ ys) a d where
  pending n hn := (mem_append.mp hn).elim (h.pending n) (h'.pending n)
  addr n hn := by
    rcases mem_append.mp hn with hn | hn
    · exact ⟨hac.trans (h.addr n hn).1, (h.addr n hn).2⟩
    · exact ⟨(h'.addr n hn).1, (h'.addr n hn).2.trans_le hcd⟩
  distinct := by
    refine pairwise_append.mpr ⟨h.distinct, h'.distinct, fun m hm n hn heq => ?_⟩
    have hlt := (h'.addr n hn).2
    have hle := (h.addr m hm).1
    omega

theorem Armed.sublist {xs ys : List LmsNak} {a c : ℕ} (h : Armed xs a c) (hs : ys.Sublist xs) :
    Armed ys a c :=
  ⟨fun n hn => h.pending n (hs.subset hn), fun n hn => h.addr n (hs.subset hn), h.distinct.sublist hs⟩

theorem armed_newNak : Armed [r.newNak now lo hi] r.made (r.made + 1) where
  pending n hn := by
    rw [mem_singleton.mp hn]
    rfl
  addr n hn := by
    rw [mem_singleton.mp hn]
    exact ⟨le_rfl, Nat.lt_succ_self _⟩
  distinct := pairwise_singleton _ _

/-- An address belongs to one NAK. -/
theorem Armed.unique {xs : List LmsNak} {a c : ℕ} (h : Armed xs a c) (hm : m ∈ xs) (hn : n ∈ xs)
    (heq : m.addr = n.addr) : m = n := by
  by_contra hne
  have : Std.Symm (fun m n : LmsNak => m.addr ≠ n.addr) := ⟨fun _ _ h => h.symm⟩
  exact h.distinct.forall hm hn hne heq

theorem Armed.find_addr {xs : List LmsNak} {a c : ℕ} (h : Armed xs a c) (hn : n ∈ xs) :
    xs.find? (fun x => decide (x.addr = n.addr)) = some n := by
  cases hfind : xs.find? (fun x => decide (x.addr = n.addr)) with
  | none => simpa using find?_eq_none.mp hfind n hn
  | some m =>
    have heq : m.addr = n.addr := by simpa using find?_some hfind
    rw [h.unique (mem_of_find?_eq_some hfind) hn heq]

theorem Armed.perm_eraseP {xs : List LmsNak} {a c : ℕ} (h : Armed xs a c) (hn : n ∈ xs) :
    xs.Perm (n :: xs.eraseP (fun x => decide (x.addr = n.addr))) := by
  have hself : decide (n.addr = n.addr) = true := decide_eq_true rfl
  obtain ⟨m, l₁, l₂, -, hm, hsplit, heq⟩ :=
    @exists_of_eraseP _ (fun x : LmsNak => decide (x.addr = n.addr)) xs n hn hself
  have hmn : m = n := h.unique (hsplit ▸ by simp) hn (by simpa using hm)
  rw [heq, hsplit, hmn]
  exact perm_middle

theorem span_newNak : (r.newNak now lo hi).span = Set.Icc lo hi := rfl

theorem mem_span : i ∈ n.span ↔ n.lo ≤ i ∧ i ≤ n.hi := Iff.rfl

/-- **`find_nak`** finds the only NAK whose range has the number. -/
theorem findNak_eq (h : Tiles (r.nak.map LmsNak.span) S) (hn : n ∈ r.nak) (hi : i ∈ n.span) :
    r.findNak i = some n := by
  unfold LmsReceiver.findNak
  cases hfind : r.nak.find? (fun n => decide (n.lo ≤ i ∧ i ≤ n.hi)) with
  | none =>
    have hno := find?_eq_none.mp hfind n hn
    exact absurd (mem_span.mp hi) (by simpa using hno)
  | some m =>
    have him : i ∈ m.span := mem_span.mpr (by simpa using find?_some hfind)
    rw [h.unique (mem_of_find?_eq_some hfind) hn him hi]

/-! ## A retransmission -/

/-- **The parts of a NAK** are new NAKs, for its range without the number. -/
theorem splitNak_spec (hi : i ∈ n.span) : ∃ parts c,
    r.splitNak now n i = { r with nak := parts ++ r.nak, made := c } ∧ Armed parts r.made c ∧ r.made ≤ c ∧
      Tiles (parts.map LmsNak.span) (n.span \ {i}) := by
  have hle := mem_span.mp hi
  have hcut := Int.Icc_sdiff_singleton n.lo n.hi i hi
  have htile : ∀ (r : LmsReceiver) (lo hi : ℤ), lo ≤ hi →
      Tiles ([r.newNak now lo hi].map LmsNak.span) (Set.Icc lo hi) :=
    fun r lo hi h => Tiles.singleton ⟨lo, le_rfl, h⟩
  have hempty : ∀ lo hi : ℤ, hi < lo → Set.Icc lo hi = ∅ := fun lo hi h => Set.Icc_eq_empty (not_le.mpr h)
  unfold LmsNak.span LmsReceiver.splitNak
  rw [hcut]
  split
  · -- the number is the whole range
    rename_i hone
    refine ⟨[], r.made, rfl, Armed.nil, le_rfl, ?_⟩
    rw [hempty n.lo (i - 1) (by omega), hempty (i + 1) n.hi (by omega), Set.union_empty]
    exact Tiles.nil
  split
  · rename_i hone hfirst
    refine ⟨[r.newNak now (i + 1) n.hi], r.made + 1, rfl, armed_newNak, Nat.le_succ _, ?_⟩
    rw [hempty n.lo (i - 1) (by omega), Set.empty_union]
    exact htile r _ _ (by omega)
  split
  · rename_i hone hfirst hlast
    refine ⟨[r.newNak now n.lo (i - 1)], r.made + 1, rfl, armed_newNak, Nat.le_succ _, ?_⟩
    rw [hempty (i + 1) n.hi (by omega), Set.union_empty]
    exact htile r _ _ (by omega)
  · rename_i hone hfirst hlast
    refine ⟨[(r.createNak now n.lo (i - 1)).newNak now (i + 1) n.hi] ++ [r.newNak now n.lo (i - 1)],
      r.made + 1 + 1, rfl, ?_, by omega, ?_⟩
    · exact armed_newNak.append armed_newNak (Nat.le_succ _) (Nat.le_succ _)
    · rw [map_append, Set.union_comm]
      refine (htile _ _ _ (by omega)).append (htile r _ _ (by omega)) ?_
      exact (Int.Icc_disjoint_of_lt (by omega)).symm

/-- **`delete_nak`** takes out the NAK behind its parts. -/
theorem deleteNak_eq {parts xs : List LmsNak} {a c : ℕ} (hparts : Armed parts a c) (h : Armed xs 0 a)
    (hn : n ∈ xs) :
    LmsReceiver.deleteNak { r with nak := parts ++ xs, made := c } n =
      some { r with nak := parts ++ xs.eraseP (fun x => decide (x.addr = n.addr)), made := c } := by
  unfold LmsReceiver.deleteNak
  rw [if_pos (h.pending n hn)]
  dsimp only
  rw [eraseP_append_right]
  intro m hm
  have hle := (hparts.addr m hm).1
  have hlt := (h.addr n hn).2
  exact fun heq => by
    have := of_decide_eq_true heq
    omega

/-! ## The invariant -/

/-- A NAK that was sent is about a range of which a packet has arrived, or of an outstanding NAK, with at
most its number. -/
def Settled (past : List (ℤ × ℚ)) (nak : List LmsNak) (rq : Request) : Prop :=
  (∃ j ∈ Set.Icc rq.lo rq.hi, Added past j) ∨ ∃ n ∈ nak, n.lo = rq.lo ∧ n.hi = rq.hi ∧ rq.nakSeqn ≤ n.seqn

/-- After the arrivals `past`, with the NAKs `sent`. -/
structure Good (past : List (ℤ × ℚ)) (sent : List Request) (r : LmsReceiver) : Prop where
  tracks : ∃ gs, Tracks past r.rcvbuf gs
  tiles : Tiles (r.nak.map LmsNak.span) {j | Missing past r.rcvbuf.nextpkt j}
  armed : Armed r.nak 0 r.made
  sampled : r.lsLastRq ≤ r.reqSent
  settled : ∀ rq ∈ sent, Settled past r.nak rq

/-- What an arrival changes about the missing packets. -/
theorem missing_concat {a : ℤ × ℚ} (h : Tracks past b gs) (h' : Tracks (past ++ [a]) b' gs') :
    Missing (past ++ [a]) b'.nextpkt j ↔
      (Missing past b.nextpkt j ∨ b.nextpkt ≤ j ∧ j < a.1) ∧ j ≠ a.1 := by
  have hnext := h.nextpkt_concat h'
  have hpos : 0 ≤ b.nextpkt := by
    rcases h.top with hzero | ⟨hlt, -⟩ <;> omega
  have hbelow := h.below j
  unfold Missing
  rw [hnext, added_concat, not_or]
  constructor
  · rintro ⟨hj, hlt, hno, hne⟩
    refine ⟨?_, hne⟩
    by_cases hold : j < b.nextpkt
    · exact .inl ⟨hj, hold, hno⟩
    · exact .inr ⟨by omega, by omega⟩
  · rintro ⟨⟨hj, hlt, hno⟩ | ⟨hle, hlt⟩, hne⟩
    · exact ⟨hj, lt_max_of_lt_left hlt, hno, hne⟩
    · refine ⟨by omega, by omega, fun hadd => ?_, hne⟩
      exact absurd (hbelow hadd).2 (not_lt.mpr hle)

theorem Good.init (h : r.Fresh) : Good [] [] r where
  tracks := ⟨[], h.rcvbuf ▸ Tracks.init⟩
  tiles := by
    rw [h.nak]
    refine Tiles.nil.congr (fun j => iff_of_false ?_ (Set.notMem_empty j))
    rintro ⟨hj, hlt, -⟩
    rw [h.rcvbuf] at hlt
    exact absurd hlt (not_lt.mpr hj)
  armed := by
    rw [h.nak]
    exact Armed.nil
  sampled := h.sampled
  settled _ hrq := absurd hrq not_mem_nil

/-- The invariant looks at these fields only. -/
theorem Good.congr (h : Good past sent r) (hbuf : r'.rcvbuf = r.rcvbuf) (hnak : r'.nak = r.nak)
    (hmade : r'.made = r.made) (hsampled : r'.lsLastRq ≤ r'.reqSent) : Good past sent r' where
  tracks := hbuf ▸ h.tracks
  tiles := by
    rw [hbuf, hnak]
    exact h.tiles
  armed := by
    rw [hnak, hmade]
    exact h.armed
  sampled := hsampled
  settled := hnak ▸ h.settled

/-- **The loss sample** is defined, since the number of requests has not decreased. -/
theorem sampleLoss_spec (h : r.lsLastRq ≤ r.reqSent) : ∃ r' o, r.sampleLoss = some (r', o) ∧
    r'.rcvbuf = r.rcvbuf ∧ r'.nak = r.nak ∧ r'.made = r.made ∧ r'.lsLastRq ≤ r'.reqSent ∧
      o.filterMap Sent.request? = [] := by
  unfold LmsReceiver.sampleLoss
  split
  · exact ⟨r, [], rfl, rfl, rfl, rfl, h, rfl⟩
  dsimp only
  split
  · exact ⟨_, [], rfl, rfl, rfl, rfl, h, rfl⟩
  split
  · rename_i hneg
    exact absurd h (by omega)
  split
  · refine ⟨_, _, rfl, rfl, rfl, rfl, ?_, rfl⟩
    dsimp only
    split
    · exact le_rfl
    · exact h
  · exact ⟨_, _, rfl, rfl, rfl, rfl, h, rfl⟩

/-! ## The events -/

/-- What `recv` does to the NAKs: the state behind the gap or the retransmission, before the buffer takes
the packet. -/
theorem Good.recvGap (h : Good past sent r) {rseq : ℤ} (hpos : 0 ≤ rseq) :
    ∃ r₁ o, r.recvGap now rseq = some (r₁, o) ∧ r₁.rcvbuf = r.rcvbuf ∧ Armed r₁.nak 0 r₁.made ∧
      r₁.lsLastRq ≤ r₁.reqSent ∧
      Tiles (r₁.nak.map LmsNak.span)
        {j | (Missing past r.rcvbuf.nextpkt j ∨ r.rcvbuf.nextpkt ≤ j ∧ j < rseq) ∧ j ≠ rseq} ∧
      ∀ rq ∈ sent ++ o.filterMap Sent.request?, Settled (past ++ [(rseq, now)]) r₁.nak rq := by
  obtain ⟨gs, htracks⟩ := h.tracks
  have hkeep : ∀ nak rq, Settled past nak rq → Settled (past ++ [(rseq, now)]) nak rq := by
    rintro nak rq (⟨j, hj, hadd⟩ | hnak)
    · exact .inl ⟨j, hj, added_concat.mpr (.inl hadd)⟩
    · exact .inr hnak
  unfold LmsReceiver.recvGap
  split
  · -- a gap: a new tile
    rename_i hgap
    have hdisj : Disjoint (Set.Icc r.rcvbuf.nextpkt (rseq - 1)) {j | Missing past r.rcvbuf.nextpkt j} :=
      Set.disjoint_left.mpr (fun j hj hmiss => absurd hmiss.2.1 (not_lt.mpr hj.1))
    refine ⟨_, _, rfl, rfl, armed_newNak.append h.armed (Nat.zero_le _) (Nat.le_succ _), ?_, ?_, ?_⟩
    · exact h.sampled.trans (Int.le_add_one le_rfl)
    · have hnew : (Set.Icc r.rcvbuf.nextpkt (rseq - 1)).Nonempty :=
        ⟨r.rcvbuf.nextpkt, le_rfl, Int.le_sub_one_of_lt hgap⟩
      refine Tiles.congr (h.tiles.cons hnew hdisj) (fun j => ?_)
      simp only [span_newNak, Set.mem_ofPred_eq, Set.mem_union, Set.mem_Icc]
      constructor
      · rintro ⟨hmiss | ⟨hle, hlt⟩, -⟩
        · exact .inr hmiss
        · exact .inl ⟨hle, by omega⟩
      · rintro (⟨hle, hlt⟩ | hmiss)
        · exact ⟨.inr ⟨hle, by omega⟩, by omega⟩
        · exact ⟨.inl hmiss, by have := hmiss.2.1; omega⟩
    · intro rq hrq
      rcases mem_append.mp hrq with hrq | hrq
      · rcases hkeep _ rq (h.settled rq hrq) with hadd | ⟨n, hn, hnak⟩
        · exact .inl hadd
        · exact .inr ⟨n, mem_cons_of_mem _ hn, hnak⟩
      · rw [mem_singleton.mp hrq]
        exact .inr ⟨_, mem_cons_self, rfl, rfl, le_rfl⟩
  rename_i hgap
  split
  · -- a retransmission: a number leaves its tile
    rename_i hrec
    have hno : ¬ Added past rseq := by
      rw [← htracks.existsPkt_iff hpos, hrec.2]
      decide
    obtain ⟨s, hs, hmem⟩ := (h.tiles.mem_iff rseq).mp ⟨hpos, hrec.1, hno⟩
    obtain ⟨n, hn, rfl⟩ := mem_map.mp hs
    obtain ⟨parts, c, hsplit, harmed, hle, htiles⟩ :=
      @splitNak_spec (r.addRdl rseq now) n rseq now hmem
    have haddRdl : (r.addRdl rseq now).nak = r.nak ∧ (r.addRdl rseq now).made = r.made ∧
        (r.addRdl rseq now).rcvbuf = r.rcvbuf ∧ (r.addRdl rseq now).lsLastRq = r.lsLastRq ∧
        (r.addRdl rseq now).reqSent = r.reqSent := by
      unfold LmsReceiver.addRdl
      dsimp only
      split <;> exact ⟨rfl, rfl, rfl, rfl, rfl⟩
    obtain ⟨hnak, hmade, hbuf, hlast, hreq⟩ := haddRdl
    have hfind : (r.addRdl rseq now).findNak rseq = some n :=
      findNak_eq (hnak ▸ h.tiles) (hnak ▸ hn) hmem
    rw [hmade] at harmed hle
    have hdelete := @deleteNak_eq (r.addRdl rseq now) n parts r.nak r.made c harmed h.armed hn
    have hperm := h.armed.perm_eraseP hn
    dsimp only
    rw [hfind, Option.bind_some, hsplit, hnak, hdelete]
    refine ⟨_, _, rfl, hbuf, ?_, ?_, ?_, ?_⟩
    · exact harmed.append (h.armed.sublist eraseP_sublist) (Nat.zero_le _) hle
    · dsimp only
      rw [hlast, hreq]
      exact h.sampled
    · have hcut := Tiles.cut_out (h.tiles.perm (hperm.map LmsNak.span)) hmem htiles
      rw [← map_append] at hcut
      refine hcut.congr (fun j => ?_)
      simp only [Set.mem_ofPred_eq, Set.mem_sdiff, Set.mem_singleton_iff]
      refine and_congr_left (fun _ => or_iff_left ?_)
      rintro ⟨hle, hlt⟩
      omega
    · intro rq hrq
      rw [filterMap_nil, append_nil] at hrq
      rcases hkeep _ rq (h.settled rq hrq) with hadd | ⟨m, hm, hlo, hhi, hseqn⟩
      · exact .inl hadd
      · rcases mem_cons.mp (hperm.mem_iff.mp hm) with rfl | hm
        · -- the NAK whose packet has arrived
          refine .inl ⟨rseq, ?_, added_concat.mpr (.inr rfl)⟩
          rw [← hlo, ← hhi]
          exact hmem
        · exact .inr ⟨m, mem_append_right _ hm, hlo, hhi, hseqn⟩
  · rename_i hrec
    refine ⟨r, [], rfl, rfl, h.armed, h.sampled, ?_, fun rq hrq => ?_⟩
    · refine h.tiles.congr (fun j => ?_)
      simp only [Set.mem_ofPred_eq]
      constructor
      · rintro ⟨hmiss | ⟨hle, hlt⟩, -⟩
        · exact hmiss
        · omega
      · intro hmiss
        refine ⟨.inl hmiss, ?_⟩
        rintro rfl
        -- it is missing, so this would have been a retransmission
        have hex : r.rcvbuf.existsPkt j = false :=
          Bool.eq_false_iff.mpr (fun hex => hmiss.2.2 ((htracks.existsPkt_iff hpos).mp hex))
        exact hrec ⟨hmiss.2.1, hex⟩
    · rw [filterMap_nil, append_nil] at hrq
      exact hkeep _ rq (h.settled rq hrq)

theorem Good.recv (h : Good past sent r) {rseq size : ℤ} (hpos : 0 ≤ rseq) :
    ∃ r' o, r.recv now rseq size = some (r', o) ∧
      Good (past ++ [(rseq, now)]) (sent ++ o.filterMap Sent.request?) r' := by
  have h₀ : Good past sent { r with dataSize := size } := h.congr rfl rfl rfl h.sampled
  obtain ⟨r₁, o₁, hgap, hbuf, harmed, hsampled, htiles, hsettled⟩ := @Good.recvGap _ _ _ now h₀ rseq hpos
  obtain ⟨gs, htracks⟩ := h.tracks
  obtain ⟨b', gs', hadd, htracks'⟩ := @Tracks.addPkt _ _ _ htracks (rseq, now) hpos
  have h₁ : Good (past ++ [(rseq, now)]) (sent ++ o₁.filterMap Sent.request?) { r₁ with rcvbuf := b' } :=
    { tracks := ⟨gs', htracks'⟩
      tiles := htiles.congr (fun j => missing_concat htracks htracks')
      armed := harmed
      sampled := hsampled
      settled := hsettled }
  obtain ⟨r', o₂, hloss, hbuf', hnak, hmade, hsampled', hno⟩ := sampleLoss_spec h₁.sampled
  refine ⟨r', o₁ ++ o₂, ?_, ?_⟩
  · have hbuf₁ : r₁.rcvbuf = r.rcvbuf := hbuf
    rw [LmsReceiver.recv, hgap, Option.bind_some, hbuf₁, hadd, Option.bind_some, hloss]
    rfl
  · rw [filterMap_append, hno, append_nil]
    exact h₁.congr hbuf' hnak hmade hsampled'

theorem Good.recvRequest (h : Good past sent r) (rq : Request) :
    Good past (sent ++ (r.recvRequest rq).2.filterMap Sent.request?) (r.recvRequest rq).1 := by
  unfold LmsReceiver.recvRequest
  dsimp only
  split
  · have hno : ∀ is : List ℤ, ∀ r : LmsReceiver,
        (is.map (fun i => r.sendDmcast rq i 3)).filterMap Sent.request? = [] := by
      intro is r
      rw [filterMap_map]
      exact filterMap_eq_nil_iff.mpr (fun _ _ => rfl)
    rw [hno, append_nil]
    exact h.congr rfl rfl rfl h.sampled
  · rw [filterMap_nil, append_nil]
    exact h.congr rfl rfl rfl h.sampled

theorem Good.recvLms (h : Good past sent r) {pkt : LmsPkt} (hpkt : pkt ≠ .other) :
    ∃ r' o, r.recvLms now pkt = some (r', o) ∧ Good past (sent ++ o.filterMap Sent.request?) r' := by
  have hsent : sent ++ [] = sent := append_nil sent
  cases pkt with
  | setup saddr daddr lhFrom ts cost =>
    exact ⟨_, _, rfl, hsent.symm ▸ h.congr rfl rfl rfl h.sampled⟩
  | spm path => exact ⟨_, _, rfl, hsent.symm ▸ h.congr rfl rfl rfl h.sampled⟩
  | links => exact ⟨_, _, rfl, hsent.symm ▸ h⟩
  | srcRefresh => exact ⟨_, _, rfl, hsent.symm ▸ h⟩
  | other => exact absurd rfl hpkt

/-- **The timer of a NAK** sends the NAK of its range again, and changes this NAK only. -/
theorem Good.expire_eq (h : Good past sent r) (hn : n ∈ r.nak) :
    r.expire now n.addr =
      some ({ r with nak := r.nak.map (fun x => if x.addr = n.addr then n.resend now else x) },
        [r.sendNak (n.seqn + 1) n.lo n.hi]) := by
  have hspan : n.lo ∈ n.span := by
    obtain ⟨j, hj⟩ := h.tiles.nonempty n.span (mem_map_of_mem hn)
    exact mem_span.mpr ⟨le_rfl, hj.1.trans hj.2⟩
  have hfind := findNak_eq h.tiles hn hspan
  -- `find_nak` does not look at the timers
  have hidle : LmsReceiver.findNak
      { r with nak := r.nak.map (fun x => if x.addr = n.addr then { x with nakTimer := none } else x) } n.lo =
      some { n with nakTimer := none } := by
    unfold LmsReceiver.findNak at hfind ⊢
    dsimp only
    have hcomp : (fun m : LmsNak => decide (m.lo ≤ n.lo ∧ n.lo ≤ m.hi)) ∘
        (fun x : LmsNak => if x.addr = n.addr then { x with nakTimer := none } else x) =
        fun m => decide (m.lo ≤ n.lo ∧ n.lo ≤ m.hi) := by
      funext x
      by_cases hx : x.addr = n.addr <;> simp [hx]
    rw [find?_map, hcomp, hfind, Option.map_some, if_pos rfl]
  unfold LmsReceiver.expire LmsReceiver.timeout
  rw [h.armed.find_addr hn, Option.bind_some, hidle, Option.map_some, map_map]
  refine congrArg some (Prod.ext ?_ rfl)
  have hmap : r.nak.map ((fun x : LmsNak => if x.addr = n.addr then n.resend now else x) ∘
      fun x => if x.addr = n.addr then { x with nakTimer := none } else x) =
      r.nak.map (fun x => if x.addr = n.addr then n.resend now else x) := by
    apply map_congr_left
    intro x _
    by_cases hx : x.addr = n.addr <;> simp [hx]
  exact congrArg (fun nak => { r with nak := nak }) hmap

theorem Good.expire (h : Good past sent r) (hn : n ∈ r.nak) :
    Good past (sent ++ [r.sendNak (n.seqn + 1) n.lo n.hi].filterMap Sent.request?)
      { r with nak := r.nak.map (fun x => if x.addr = n.addr then n.resend now else x) } := by
  have hother : ∀ x ∈ r.nak, x.addr = n.addr → x = n := fun x hx heq => h.armed.unique hx hn heq
  have hspan : r.nak.map (LmsNak.span ∘ fun x => if x.addr = n.addr then n.resend now else x) =
      r.nak.map LmsNak.span := by
    apply map_congr_left
    intro x hx
    dsimp only [Function.comp]
    split
    · rename_i heq
      rw [hother x hx heq]
      rfl
    · rfl
  have haddr : ∀ x, (if x.addr = n.addr then n.resend now else x).addr = x.addr := by
    intro x
    split
    · rename_i heq
      exact heq.symm
    · rfl
  refine ⟨h.tracks, ?_, ⟨?_, ?_, ?_⟩, h.sampled, ?_⟩
  · rw [map_map, hspan]
    exact h.tiles
  · intro m hm
    obtain ⟨x, hx, rfl⟩ := mem_map.mp hm
    split
    · rfl
    · exact h.armed.pending x hx
  · intro m hm
    obtain ⟨x, hx, rfl⟩ := mem_map.mp hm
    rw [haddr]
    exact h.armed.addr x hx
  · refine pairwise_map.mpr (h.armed.distinct.imp (fun {x y} hne => ?_))
    rw [haddr, haddr]
    exact hne
  · have hmem : n.resend now ∈ r.nak.map (fun x => if x.addr = n.addr then n.resend now else x) :=
      mem_map.mpr ⟨n, hn, if_pos rfl⟩
    intro rq hrq
    rcases mem_append.mp hrq with hrq | hrq
    · rcases h.settled rq hrq with hadd | ⟨x, hx, hlo, hhi, hseqn⟩
      · exact .inl hadd
      · by_cases heq : x.addr = n.addr
        · have hxn := hother x hx heq
          subst hxn
          exact .inr ⟨_, hmem, hlo, hhi, hseqn.trans (Nat.le_succ _)⟩
        · exact .inr ⟨x, mem_map.mpr ⟨x, hx, if_neg heq⟩, hlo, hhi, hseqn⟩
    · rw [mem_singleton.mp hrq]
      exact .inr ⟨_, hmem, rfl, rfl, le_rfl⟩

/-- **Every event** succeeds, and keeps the NAKs in step with the buffer. -/
theorem Good.step (h : Good past sent r) {e : ℚ × Event} (ha : Allowed r e) :
    ∃ r' o, r.step e = some (r', o) ∧
      Good (past ++ (Event.arrival? e).toList) (sent ++ o.filterMap Sent.request?) r' := by
  obtain ⟨now, e⟩ := e
  cases e with
  | data rseq size => exact h.recv ha
  | request rq =>
    refine ⟨_, _, rfl, ?_⟩
    rw [Event.arrival?, Option.toList_none, append_nil]
    exact h.recvRequest rq
  | lms pkt =>
    rw [Event.arrival?, Option.toList_none, append_nil]
    exact h.recvLms ha
  | nakTimer a =>
    obtain ⟨n, hn, rfl, -⟩ := ha
    rw [Event.arrival?, Option.toList_none, append_nil]
    exact ⟨_, _, h.expire_eq hn, h.expire hn⟩

/-! ## Runs -/

theorem arrivals_concat (events : List (ℚ × Event)) (e : ℚ × Event) :
    arrivals (events ++ [e]) = arrivals events ++ (Event.arrival? e).toList := by
  unfold arrivals
  rw [filterMap_append, filterMap_cons, filterMap_nil]
  cases Event.arrival? e <;> rfl

theorem naksOf_concat (outs : List (List Sent)) (o : List Sent) :
    naksOf (outs ++ [o]) = naksOf outs ++ o.filterMap Sent.request? := by
  unfold naksOf
  rw [flatten_append, filterMap_append, flatten_singleton]

/-- A run does not abort, and ends in a state that knows what was received and sent. -/
theorem run_good {events : List (ℚ × Event)} (hr : r.Fresh)
    (hok : Runs.Meets LmsReceiver.step Allowed r events) :
    ∃ r' outs, Runs.run LmsReceiver.step r events = some (r', outs) ∧
      Good (arrivals events) (naksOf outs) r' := by
  have hstep : ∀ past outs s e, Good (arrivals past) (naksOf outs) s → Allowed s e →
      ∃ s' o, s.step e = some (s', o) ∧ Good (arrivals (past ++ [e])) (naksOf (outs ++ [o])) s' := by
    intro past outs s e h ha
    rw [arrivals_concat]
    obtain ⟨s', o, hs, h'⟩ := h.step ha
    exact ⟨s', o, hs, naksOf_concat outs o ▸ h'⟩
  exact @Runs.run_invariant _ _ _ _ _ _ _ (fun past outs s => Good (arrivals past) (naksOf outs) s) hstep
    (Good.init hr) hok

end NetSim.Lms
