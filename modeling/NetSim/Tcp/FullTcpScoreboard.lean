import NetSim.Tcp.FullTcpReceiver

/-! # FullTcp: the scoreboard of the SACK sender

`Scoreboard s xs` says that `sq_` covers only sequence numbers from `highest_ack_` up to `maxseq_`,
and everything from `highest_ack_` to `sack_min_`. An acknowledgment keeps it when the data that it
acknowledges is pruned, or there is none (`Sound`), and then `pipe_` is not negative
(`scoreboard_run`). `old_sack_stays` is an old acknowledgment that puts acknowledged data into the
scoreboard.
-/

namespace NetSim

open List LinkedList IntervalList ReassemblyQueue

namespace FullTcp

variable {c : Config} {s s' : Sender} {a a' : FullTcp} {pkt : Segment} {env : Env} {t : Trimmed}
  {xs xs' : List ℕ}

/-! ## The invariant -/

structure Scoreboard (s : Sender) (xs : List ℕ) : Prop where
  solid : Solid s.sq xs
  le : s.highestAck ≤ s.maxseq
  range : ∀ x, Covers (s.sq.blocks xs) x → s.highestAck ≤ x ∧ x < s.maxseq
  filled : ∀ x, s.highestAck ≤ x → x < s.sackMin → Covers (s.sq.blocks xs) x

theorem Scoreboard.above (h : Scoreboard s xs) {b : Block} (hb : b ∈ s.sq.blocks xs) :
    s.highestAck ≤ b.start := (h.range _ (h.solid.covers_start hb)).1

theorem Scoreboard.total_le (h : Scoreboard s xs) : s.sq.total ≤ s.maxseq - s.highestAck := by
  rw [h.solid.valid.total]
  refine size_le_of_range h.solid.valid.separated h.le (fun b hb => h.above hb) (fun b hb => ?_)
  have := (h.range _ (h.solid.covers_last hb)).2
  omega

theorem Scoreboard.congr (h : Scoreboard s xs) (hack : s'.highestAck = s.highestAck)
    (hmax : s.maxseq ≤ s'.maxseq) (hsq : s'.sq = s.sq) : Scoreboard s' xs where
  solid := by rw [hsq]; exact h.solid
  le := by
    have := h.le
    omega
  range x hx := by
    rw [hsq] at hx
    have := h.range x hx
    omega
  filled x hx hx' := by
    rw [Sender.sackMin, hsq] at hx'
    rw [hsq]
    exact h.filled x (by omega) hx'

/-! ## SACK blocks -/

/-- The blocks that a segment reports and `process_sack` takes. -/
def told (c : Config) (pkt : Segment) : List (ℤ × ℤ) :=
  if c.maxSackBlocks ≤ 0 then [] else pkt.sacks.filter (fun b => b.1 < b.2)

/-- Without illegal blocks under a `FIN`, the loop of `process_sack` adds the legal ones. -/
theorem addSacks_eq (q : ReassemblyQueue) {flags : ℕ} {sacks : List (ℤ × ℤ)}
    (hfin : hasFlag flags thFin → ∀ b ∈ sacks, b.1 < b.2) :
    addSacks flags q sacks = addBlocks q (sacks.filter (fun b => b.1 < b.2)) := by
  induction sacks generalizing q with
  | nil => rfl
  | cons b rest ih =>
    obtain ⟨left, right⟩ := b
    have hrest : hasFlag flags thFin → ∀ b ∈ rest, b.1 < b.2 :=
      fun hf b hb => hfin hf b (by simp [hb])
    by_cases hlt : left < right
    · have hcond : ¬ (!hasFlag flags thFin ∧ right ≤ left) := fun h => absurd h.2 (not_le.mpr hlt)
      rw [addSacks, if_neg hcond, filter_cons_of_pos (by simpa using hlt), addBlocks]
      congr 1
      funext r
      exact ih r.1 hrest
    · have hcond : !hasFlag flags thFin ∧ right ≤ left := by
        refine ⟨?_, not_lt.mp hlt⟩
        by_contra hf
        exact hlt (hfin (by simpa using hf) (left, right) (by simp))
      rw [addSacks, if_pos hcond, filter_cons_of_neg (by simpa using hlt)]
      exact ih q hrest

theorem processSack_spec (h : Solid s.sq xs)
    (hfin : hasFlag pkt.flags thFin → ∀ b ∈ pkt.sacks, b.1 < b.2) :
    ∃ sq xs', sackProcessSack c s pkt = some { s with sq } ∧
      AddsAll s.sq xs (told c pkt) sq xs' := by
  unfold sackProcessSack told
  split
  · exact ⟨s.sq, xs, rfl, AddsAll.refl h⟩
  · have hlt : ∀ b ∈ pkt.sacks.filter (fun b => b.1 < b.2), b.1 < b.2 :=
      fun b hb => by simpa using (mem_filter.mp hb).2
    obtain ⟨sq, xs', hadd, hall⟩ := addBlocks_spec h hlt
    refine ⟨sq, xs', ?_, hall⟩
    rw [addSacks_eq s.sq hfin, hadd]
    rfl

/-! ## Acknowledgments -/

/-- The blocks of the scoreboard together with those that a segment reports. -/
def known (c : Config) (s : Sender) (pkt : Segment) : List Block :=
  s.sq.stored ++ (told c pkt).map (fun b => ⟨b.1, b.2⟩)

/-- The acknowledgments that leave no acknowledged data in the scoreboard. The reported blocks are
legal and were sent. If the acknowledgment does not advance `highest_ack_`, they lie above it. If
it does, there is a hole between `sack_min_` and the new `highest_ack_`, so that the scoreboard is
pruned, or nothing to prune. -/
def SoundAck (c : Config) (s : Sender) (pkt : Segment) : Prop :=
  (hasFlag pkt.flags thFin → ∀ b ∈ pkt.sacks, b.1 < b.2) ∧
  (∀ b ∈ told c pkt, b.2 ≤ s.maxseq) ∧
  if s.highestAck < pkt.ackno ∧ pkt.ackno ≤ s.maxseq then
    (∃ x ∈ Finset.Ico s.sackMin pkt.ackno, ¬ Covers (known c s pkt) x) ∨
      ∀ b ∈ known c s pkt, pkt.ackno ≤ b.start
  else ∀ b ∈ told c pkt, s.highestAck ≤ b.1

/-- What `process_sack` leaves, before the acknowledgment number is looked at. -/
structure Hears (c : Config) (s : Sender) (xs : List ℕ) (pkt : Segment) (s' : Sender)
    (xs' : List ℕ) : Prop where
  highestAck : s'.highestAck = s.highestAck
  maxseq : s'.maxseq = s.maxseq
  adds : AddsAll s.sq xs (told c pkt) s'.sq xs'

theorem Hears.covers_known (h : Hears c s xs pkt s' xs') (hv : Valid s.sq xs) (x : ℤ) :
    Covers (s'.sq.blocks xs') x ↔ Covers (known c s pkt) x := by
  rw [h.adds.covers, known, covers_append, hv.stored_eq]
  refine or_congr_right ?_
  constructor
  · rintro ⟨b, hb, hx⟩
    exact ⟨⟨b.1, b.2⟩, mem_map.mpr ⟨b, hb, rfl⟩, hx⟩
  · rintro ⟨b, hb, hx⟩
    obtain ⟨b', hb', rfl⟩ := mem_map.mp hb
    exact ⟨b', hb', hx⟩

theorem Hears.below_maxseq (h : Hears c s xs pkt s' xs') (hs : Scoreboard s xs)
    (hsent : ∀ b ∈ told c pkt, b.2 ≤ s.maxseq) {x : ℤ} (hx : Covers (s'.sq.blocks xs') x) :
    x < s.maxseq := by
  rcases (h.adds.covers x).mp hx with hx | ⟨b, hb, hx⟩
  · exact (hs.range x hx).2
  · exact hx.2.trans_le (hsent b hb)

theorem Hears.stays (h : Hears c s xs pkt s' xs') (hs : Scoreboard s xs)
    (hsent : ∀ b ∈ told c pkt, b.2 ≤ s.maxseq) (habove : ∀ b ∈ told c pkt, s.highestAck ≤ b.1) :
    Scoreboard s' xs' ∧ s.sackMin ≤ s'.sackMin := by
  have hlow : ∀ x, Covers (s'.sq.blocks xs') x → s.highestAck ≤ x := by
    intro x hx
    rcases (h.adds.covers x).mp hx with hx | ⟨b, hb, hx⟩
    · exact (hs.range x hx).1
    · exact (habove b hb).trans hx.1
  refine ⟨⟨h.adds.solid, ?_, fun x hx => ?_, ?_⟩, h.adds.mono _ hlow hs.filled⟩
  · rw [h.highestAck, h.maxseq]
    exact hs.le
  · rw [h.highestAck, h.maxseq]
    exact ⟨hlow x hx, h.below_maxseq hs hsent hx⟩
  · rw [h.highestAck]
    exact h.adds.filled _ hs.filled

theorem pruneSacks_spec (h : Solid s.sq xs) :
    ∃ s' xs', pruneSacks s = some s' ∧ s'.highestAck = s.highestAck ∧ s'.maxseq = s.maxseq ∧
      Solid s'.sq xs' ∧
      ((s.sackMin < s.highestAck ∧ s'.sackMin = s.highestAck ∧
          ∀ x, Covers (s'.sq.blocks xs') x ↔ Covers (s.sq.blocks xs) x ∧ s.highestAck ≤ x) ∨
        ((xs = [] ∨ s.highestAck ≤ s.sackMin) ∧ s'.sackMin = s.sackMin ∧
          ∀ x, Covers (s'.sq.blocks xs') x ↔ Covers (s.sq.blocks xs) x)) := by
  obtain ⟨ys, fs, hrep⟩ := h.valid.rep
  unfold pruneSacks
  split
  case isTrue hcond =>
    obtain ⟨q', flag, xs', hclear, hs', hcov, hrcv⟩ :=
      (h.setRcvNxt s.highestAck).clearto s.highestAck
    refine ⟨{ s with sq := q' }, xs', ?_, rfl, rfl, hs', Or.inl ⟨hcond.2, hrcv, hcov⟩⟩
    rw [cleartonxt, hclear]
    rfl
  case isFalse hcond =>
    refine ⟨s, xs, rfl, rfl, rfl, h, Or.inr ⟨?_, rfl, fun x => Iff.rfl⟩⟩
    rcases not_and_or.mp hcond with hnil | hle
    · rw [not_not, hrep.fifo.head, head?_eq_none_iff] at hnil
      exact Or.inl hnil
    · exact Or.inr (not_lt.mp hle)

theorem Hears.advances (h : Hears c s xs pkt s' xs') (hs : Scoreboard s xs) (hok : SoundAck c s pkt)
    (hnew : s.highestAck < pkt.ackno) (hmax : pkt.ackno ≤ s.maxseq) {s₁ : Sender}
    (hack : s₁.highestAck = pkt.ackno) (hmaxseq : s₁.maxseq = s.maxseq) (hsq : s₁.sq = s'.sq) :
    ∃ s₂ xs₂, pruneSacks s₁ = some s₂ ∧ s₂.maxseq = s.maxseq ∧ Scoreboard s₂ xs₂ ∧
      s.sackMin ≤ s₂.sackMin := by
  obtain ⟨-, hsent, hprune⟩ := hok
  rw [if_pos ⟨hnew, hmax⟩] at hprune
  have hknown := h.covers_known hs.solid.valid
  have hfilled := h.adds.filled _ hs.filled
  have hmin : s₁.sackMin = s'.sackMin := by rw [Sender.sackMin, hsq]; rfl
  have hsolid : Solid s₁.sq xs' := by rw [hsq]; exact h.adds.solid
  -- a hole keeps the left edge below the new acknowledgment
  have hhole : (∃ x ∈ Finset.Ico s.sackMin pkt.ackno, ¬ Covers (known c s pkt) x) →
      s.sackMin < pkt.ackno ∧ s'.sackMin < pkt.ackno := by
    rintro ⟨x, hx, hnot⟩
    obtain ⟨hx1, hx2⟩ := Finset.mem_Ico.mp hx
    refine ⟨hx1.trans_lt hx2, lt_of_not_ge (fun hge => hnot ?_)⟩
    rw [← hknown]
    exact h.adds.filled s.sackMin (fun y hy hy' => absurd hy (not_le.mpr hy')) x hx1
      (hx2.trans_le hge)
  -- without anything to prune, the left edge was not above the old acknowledgment
  have hlow : (∀ b ∈ known c s pkt, pkt.ackno ≤ b.start) →
      (∀ x, Covers (s'.sq.blocks xs') x → pkt.ackno ≤ x) ∧ s.sackMin ≤ s.highestAck := by
    intro hall
    have hcov : ∀ x, Covers (s'.sq.blocks xs') x → pkt.ackno ≤ x := by
      intro x hx
      obtain ⟨b, hb, hx', -⟩ := (hknown x).mp hx
      exact (hall b hb).trans hx'
    refine ⟨hcov, le_of_not_gt (fun hgt => ?_)⟩
    have := hcov _ ((h.adds.covers _).mpr (Or.inl (hs.filled _ le_rfl hgt)))
    omega
  obtain ⟨s₂, xs₂, heq, hack₂, hmax₂, hsolid₂, hcase⟩ := pruneSacks_spec hsolid
  rw [hmaxseq] at hmax₂
  rw [hmin, hsq] at hcase
  refine ⟨s₂, xs₂, heq, hmax₂, ?_⟩
  rcases hcase with ⟨hlt, hmin₂, hcov⟩ | ⟨hedge, hmin₂, hcov⟩
  · -- pruned up to the acknowledgment
    refine ⟨⟨hsolid₂, by omega, fun x hx => ?_, fun x hx hx' => ?_⟩, ?_⟩
    · obtain ⟨hx1, hx2⟩ := (hcov x).mp hx
      have := h.below_maxseq hs hsent hx1
      omega
    · omega
    · rcases hprune with hp | hp
      · have := hhole hp
        omega
      · have := (hlow hp).2
        omega
  · -- not pruned
    have hcases : (∀ x, Covers (s'.sq.blocks xs') x → pkt.ackno ≤ x) ∧ s.sackMin ≤ s'.sackMin := by
      rcases hedge with rfl | hge
      · have hnone : ∀ x, ¬ Covers (s'.sq.blocks []) x := fun x => covers_nil
        exact ⟨fun x hx => absurd hx (hnone x),
          h.adds.mono s.sackMin (fun x hx => absurd hx (hnone x)) (fun x h1 h2 => absurd h1 (not_le.mpr h2))⟩
      · rcases hprune with hp | hp
        · have := hhole hp
          omega
        · have := hlow hp
          exact ⟨this.1, by omega⟩
    refine ⟨⟨hsolid₂, by omega, fun x hx => ?_, fun x hx hx' => ?_⟩, ?_⟩
    · have hx' := (hcov x).mp hx
      have h1 := hcases.1 x hx'
      have h2 := h.below_maxseq hs hsent hx'
      omega
    · rw [hcov]
      exact hfilled x (by omega) (by rw [hmin₂] at hx'; exact hx')
    · rw [hmin₂]
      exact hcases.2

/-- The senders agree in what the scoreboard is about. -/
structure SameBoard (s s' : Sender) : Prop where
  highestAck : s'.highestAck = s.highestAck
  maxseq : s'.maxseq = s.maxseq
  sq : s'.sq = s.sq

theorem SameBoard.scoreboard (h : SameBoard s s') (hs : Scoreboard s xs) : Scoreboard s' xs :=
  hs.congr h.highestAck h.maxseq.ge h.sq

theorem SameBoard.sackMin (h : SameBoard s s') : s'.sackMin = s.sackMin := by
  rw [Sender.sackMin, h.sq]
  rfl

theorem sackDupackAction_same (c : Config) (env : Env) (s : Sender) :
    SameBoard s (sackDupackAction c env s).1 ∧
      (sackDupackAction c env s).2 = [.pipe (s.maxseq - s.highestAck - s.sq.total)] := by
  unfold sackDupackAction
  split
  · exact ⟨⟨rfl, rfl, rfl⟩, rfl⟩
  split
  · exact ⟨⟨rfl, rfl, rfl⟩, rfl⟩
  split
  · exact ⟨⟨rfl, rfl, rfl⟩, rfl⟩
  · exact ⟨⟨rfl, rfl, rfl⟩, rfl⟩

/-- A duplicate acknowledgment does not touch the scoreboard, and computes `pipe_` from it. -/
theorem dupAck_same (c : Config) (s : Sender) (pkt : Segment) (t : Trimmed) (env : Env) :
    SameBoard s (dupAck c sackFullTcpAgent s pkt t env).1 ∧
      ∀ n, .pipe n ∈ (dupAck c sackFullTcpAgent s pkt t env).2.1 →
        n = s.maxseq - s.highestAck - s.sq.total := by
  unfold dupAck
  split
  · split
    · exact ⟨⟨rfl, rfl, rfl⟩, by simp⟩
    dsimp only
    split
    · obtain ⟨hsame, hevs⟩ := sackDupackAction_same c env { s with dupacks := s.dupacks + 1 }
      refine ⟨⟨hsame.highestAck, hsame.maxseq, hsame.sq⟩, fun n hn => ?_⟩
      rw [show sackFullTcpAgent.dupackAction = sackDupackAction from rfl, hevs] at hn
      simpa using hn
    split
    · exact ⟨⟨rfl, rfl, rfl⟩, by simp⟩
    · exact ⟨⟨rfl, rfl, rfl⟩, by simp⟩
  split
  · exact ⟨⟨rfl, rfl, rfl⟩, by simp⟩
  · exact ⟨⟨rfl, rfl, rfl⟩, by simp⟩

theorem Hears.newAck (h : Hears c s xs pkt s' xs') (hs : Scoreboard s xs) (hok : SoundAck c s pkt)
    (hnew : s.highestAck < pkt.ackno) (hmax : pkt.ackno ≤ s.maxseq) :
    ∃ s₂ xs₂, newAck c sackFullTcpAgent s' pkt = some s₂ ∧ s₂.maxseq = s.maxseq ∧
      Scoreboard s₂ xs₂ ∧ s.sackMin ≤ s₂.sackMin := by
  have hnew' : s'.highestAck < pkt.ackno := by rwa [h.highestAck]
  have hack : (newack s' pkt.ackno).highestAck = pkt.ackno := by
    simp only [newack, if_pos hnew']
  unfold FullTcp.newAck
  dsimp only
  split
  · -- a partial acknowledgment
    obtain ⟨s₂, xs₂, heq, hmaxseq, hboard, hle⟩ :=
      h.advances hs hok hnew hmax hack h.maxseq rfl
    refine ⟨raiseHSeqno { s₂ with pipe := s₂.pipe - c.maxseg }, xs₂, ?_, hmaxseq, ?_, hle⟩
    · simp only [sackFullTcpAgent, sackPackAction, heq, Option.map_some]
    · exact hboard.congr rfl le_rfl rfl
  · obtain ⟨s₂, xs₂, heq, hmaxseq, hboard, hle⟩ := @Hears.advances c s s' pkt xs xs' h hs hok hnew
      hmax { newack s' pkt.ackno with fastrecov := false, pipectrl := false } hack h.maxseq rfl
    refine ⟨raiseHSeqno { s₂ with dupacks := 0 }, xs₂, ?_, hmaxseq, ?_, hle⟩
    · simp only [sackFullTcpAgent, sackAckAction, heq, Option.map_some]
    · exact hboard.congr rfl le_rfl rfl

/-- **An acknowledgment keeps the scoreboard**, when no acknowledged data can stay in it. -/
theorem processAck_sack (hs : Scoreboard s xs) (hok : SoundAck c s pkt) :
    ∃ s' evs next xs', processAck c sackFullTcpAgent s pkt t env = some (s', evs, next) ∧
      Scoreboard s' xs' ∧ s.sackMin ≤ s'.sackMin ∧ s'.maxseq = s.maxseq ∧
      ∀ n, .pipe n ∈ evs → 0 ≤ n := by
  obtain ⟨s₁, xs₁, hheard, hhears⟩ : ∃ s₁ xs₁,
      (if pkt.sacks = [] then some s else sackFullTcpAgent.processSack c s pkt) = some s₁ ∧
        Hears c s xs pkt s₁ xs₁ := by
    split
    case isTrue hnil =>
      have htold : told c pkt = [] := by
        rw [told, hnil]
        split <;> rfl
      refine ⟨s, xs, rfl, rfl, rfl, ?_⟩
      rw [htold]
      exact AddsAll.refl hs.solid
    case isFalse hnil =>
      obtain ⟨sq, xs₁, heq, hadds⟩ := @processSack_spec c s pkt xs hs.solid hok.1
      exact ⟨_, xs₁, heq, rfl, rfl, hadds⟩
  unfold processAck
  rw [hheard, Option.bind_some]
  dsimp only
  -- `pipe_` does not matter for the scoreboard
  have hhears' : ∀ p : ℤ, Hears c s xs pkt { s₁ with pipe := p } xs₁ :=
    fun p => ⟨hhears.highestAck, hhears.maxseq, hhears.adds⟩
  generalize (if s₁.fastrecov ∧ (t.datalen = 0 ∨ s₁.highestAck < pkt.ackno) then
    s₁.pipe - c.maxseg else s₁.pipe) = p
  have hstay : ¬ (s.highestAck < pkt.ackno ∧ pkt.ackno ≤ s.maxseq) →
      Scoreboard { s₁ with pipe := p } xs₁ ∧ s.sackMin ≤ s₁.sackMin := by
    intro hcond
    have habove := hok.2.2
    rw [if_neg hcond] at habove
    exact (hhears' p).stays hs hok.2.1 habove
  split
  case isTrue hold =>
    rw [hhears.highestAck] at hold
    obtain ⟨hboard, hle⟩ := hstay (fun h => absurd h.1 (not_lt.mpr hold))
    obtain ⟨hsame, hpipe⟩ := dupAck_same c { s₁ with pipe := p } pkt t env
    generalize dupAck c sackFullTcpAgent { s₁ with pipe := p } pkt t env = r at hsame hpipe ⊢
    obtain ⟨s₂, evs, next⟩ := r
    refine ⟨s₂, evs, next, xs₁, rfl, hsame.scoreboard hboard, ?_, ?_, fun n hn => ?_⟩
    · rw [hsame.sackMin]
      exact hle
    · rw [hsame.maxseq]
      exact hhears.maxseq
    · rw [hpipe n hn]
      have := hboard.total_le
      omega
  case isFalse hold =>
    rw [hhears.highestAck] at hold
    split
    case isTrue hbig =>
      rw [hhears.maxseq] at hbig
      obtain ⟨hboard, hle⟩ := hstay (fun h => absurd h.2 (not_le.mpr hbig))
      exact ⟨_, _, _, xs₁, rfl, hboard, hle, hhears.maxseq, by simp⟩
    case isFalse hbig =>
      rw [hhears.maxseq] at hbig
      obtain ⟨s₂, xs₂, heq, hmaxseq, hboard, hle⟩ :=
        (hhears' p).newAck hs hok (not_le.mp hold) (not_lt.mp hbig)
      refine ⟨s₂, [], .step6, xs₂, ?_, hboard, hle, hmaxseq, by simp⟩
      rw [heq]
      rfl

/-! ## Data does not touch the sending side -/

theorem reass_snd {flags : ℕ} (h : reass a pkt t = some (a', flags)) : a'.snd = a.snd := by
  unfold reass at h
  dsimp only at h
  split at h
  · cases h
  · obtain ⟨r, -, hr⟩ := Option.bind_eq_some_iff.mp h
    split at hr
    · cases hr
      rfl
    · obtain ⟨r', -, heq⟩ := Option.map_eq_some_iff.mp hr
      cases heq
      rfl

theorem deliver_snd {flags : ℕ} {evs : List Event} (h : deliver a pkt t = some (a', flags, evs)) :
    a'.snd = a.snd ∧ ∀ n, .pipe n ∉ evs := by
  unfold deliver at h
  split at h
  · split at h
    · cases h
      refine ⟨rfl, fun n => ?_⟩
      split <;> simp
    · obtain ⟨r, hr, heq⟩ := Option.map_eq_some_iff.mp h
      cases heq
      refine ⟨reass_snd hr, fun n => ?_⟩
      split <;> simp
  · cases h
    exact ⟨rfl, by simp⟩

theorem fin_snd (a : FullTcp) (flags : ℕ) : (fin a flags).snd = a.snd := by
  unfold fin
  split
  · split <;> rfl
  · rfl

theorem step6_snd {evs : List Event} (h : step6 a pkt t env = some (a', evs)) :
    a'.snd = (a.sendMuch env.sent).snd ∧ ∀ n, .pipe n ∉ evs := by
  obtain ⟨r, hr, heq⟩ := Option.map_eq_some_iff.mp h
  cases heq
  obtain ⟨hsnd, hpipe⟩ := deliver_snd hr
  refine ⟨?_, hpipe⟩
  simp only [sendMuch, fin_snd, hsnd]

/-! ## One step -/

/-- The segment's acknowledgment is processed on the slow path. -/
def takesAck (c : Config) (a : FullTcp) (pkt : Segment) (env : Env) : Bool :=
  a.state ≠ .closed ∧ !predictsAck c a pkt env ∧ !predictsData c a pkt env ∧
    ¬ (a.state = .lastAck ∧ hasFlag pkt.flags thFin) ∧ !env.paws ∧
    !hasFlag (trim a pkt).tiflags thSyn ∧ hasFlag (trim a pkt).tiflags thAck

/-- The condition on a step: an acknowledgment leaves no acknowledged data behind. Header
prediction does not prune, so there is nothing to prune when it takes an acknowledgment; and a
timeout that clears the scoreboard does not find `sack_min_` above `highest_ack_`. -/
def Sound (c : Config) (a : FullTcp) : Input → Prop
  | .segment pkt env =>
    if predictsAck c a pkt env then ∀ b ∈ a.snd.sq.stored, pkt.ackno ≤ b.start
    else takesAck c a pkt env → SoundAck c a.snd pkt
  | .timeout _ => c.clearOnTimeout → a.snd.sackMin ≤ a.snd.highestAck
  | .send _ => True

noncomputable instance (c : Config) (s : Sender) (pkt : Segment) : Decidable (SoundAck c s pkt) :=
  inferInstanceAs (Decidable (_ ∧ _ ∧ _))

noncomputable instance (c : Config) (a : FullTcp) : ∀ i, Decidable (Sound c a i)
  | .segment pkt env =>
    inferInstanceAs (Decidable (if predictsAck c a pkt env then
      ∀ b ∈ a.snd.sq.stored, pkt.ackno ≤ b.start
    else takesAck c a pkt env → SoundAck c a.snd pkt))
  | .timeout _ => inferInstanceAs (Decidable (_ → _))
  | .send _ => isTrue trivial

/-- What a step does to the scoreboard. `sack_min_` goes back only when the connection ends and
the agent is reset. -/
structure Keeps (a a' : FullTcp) (evs : List Event) : Prop where
  board : ∃ xs, Scoreboard a'.snd xs
  mono : (a.state = .lastAck ∧ a'.state = .closed) ∨ a.snd.sackMin ≤ a'.snd.sackMin
  pipes : ∀ n, .pipe n ∈ evs → 0 ≤ n

theorem Keeps.sends {s' : Sender} {evs : List Event} (hs : Scoreboard s' xs)
    (hle : a.snd.sackMin ≤ s'.sackMin) (hpipes : ∀ n, .pipe n ∈ evs → 0 ≤ n) {sent : Sent}
    (hsnd : a'.snd = ({ a with snd := s' }.sendMuch sent).snd) : Keeps a a' evs := by
  refine ⟨⟨xs, hs.congr ?_ ?_ ?_⟩, Or.inr ?_, hpipes⟩
  · rw [hsnd]
    rfl
  · rw [hsnd]
    simp only [sendMuch]
    omega
  · rw [hsnd]
    rfl
  · rw [hsnd]
    exact hle

theorem Keeps.same {evs : List Event} (hs : Scoreboard a.snd xs) (hsnd : a'.snd = a.snd)
    (hpipes : ∀ n, .pipe n ∉ evs) : Keeps a a' evs :=
  ⟨⟨xs, by rw [hsnd]; exact hs⟩, Or.inr (by rw [hsnd]), fun n hn => absurd hn (hpipes n)⟩

theorem reset_board (hs : Scoreboard a.snd xs) (h : reset c a = some a') :
    Scoreboard a'.snd [] ∧ a'.state = a.state := by
  obtain ⟨rq, -, hrq⟩ := Option.bind_eq_some_iff.mp h
  obtain ⟨sq, hsq, heq⟩ := Option.map_eq_some_iff.mp hrq
  obtain ⟨sq', hclear, hempty, -⟩ := clear_spec hs.solid.valid
  cases hsq.symm.trans hclear
  cases heq
  have hempty' : IsEmpty { sq with rcvNxt := -1 } :=
    ⟨hempty.head, hempty.tail, hempty.top, hempty.bottom, hempty.free, hempty.total⟩
  refine ⟨⟨hempty'.solid, le_rfl, by simp, fun x hx hx' => ?_⟩, rfl⟩
  exact absurd hx (not_le.mpr hx')

theorem slowPath_keeps {evs : List Event} (hs : Scoreboard a.snd xs)
    (hok : takesAck c a pkt env → SoundAck c a.snd pkt) (hclosed : a.state ≠ .closed)
    (hack : predictsAck c a pkt env = false) (hdata : predictsData c a pkt env = false)
    (h : slowPath c sackFullTcpAgent a pkt env = some (a', evs)) : Keeps a a' evs := by
  unfold slowPath at h
  split at h
  case isTrue => cases h; exact Keeps.same hs rfl (by simp)
  case isFalse hlast =>
  split at h
  case isTrue => cases h; exact Keeps.sends hs le_rfl (by simp) rfl
  case isFalse hpaws =>
  dsimp only at h
  split at h
  case isTrue => cases h; exact Keeps.same hs rfl (by simp)
  case isFalse hsyn =>
  split at h
  case isTrue => cases h; exact Keeps.same hs rfl (by simp)
  case isFalse hnoack =>
    have htakes : takesAck c a pkt env = true := by
      simp only [takesAck, decide_eq_true_eq, hack, hdata]
      refine ⟨hclosed, rfl, rfl, hlast, ?_, ?_, ?_⟩
      · simpa using hpaws
      · simpa using hsyn
      · simpa using hnoack
    obtain ⟨s', evs', next, xs', hproc, hboard, hle, hmax, hpipes⟩ :=
      @processAck_sack c a.snd pkt env (trim a pkt) xs hs (hok htakes)
    rw [hproc, Option.bind_some] at h
    cases next with
    | drop => cases h; exact Keeps.sends hboard hle hpipes rfl
    | dropafterack => cases h; exact Keeps.sends hboard hle hpipes rfl
    | step6 =>
      -- the rest of `recv` only sends, or resets the agent
      have hrest : ∀ {st : State} {r : FullTcp × List Event},
          step6 { a with snd := s', state := st } pkt (trim a pkt) env = some r →
          (r.1, evs' ++ r.2) = (a', evs) → Keeps a a' evs := by
        intro st r hr heq
        obtain ⟨hsnd, hno⟩ := step6_snd hr
        cases heq
        refine Keeps.sends hboard hle (fun n hn => ?_) hsnd
        rcases mem_append.mp hn with hn | hn
        · exact hpipes n hn
        · exact absurd hn (hno n)
      dsimp only at h
      split at h
      · split at h
        case isTrue hst =>
          obtain ⟨a₁, ha₁, heq⟩ := Option.map_eq_some_iff.mp h
          cases heq
          have hboard' : Scoreboard ({ a with snd := s', state := .closed } : FullTcp).snd xs' :=
            hboard
          obtain ⟨hb, hst'⟩ := reset_board hboard' ha₁
          exact ⟨⟨[], hb⟩, Or.inl ⟨hst, hst'⟩, hpipes⟩
        case isFalse hst =>
          obtain ⟨r, hr, heq⟩ := Option.map_eq_some_iff.mp h
          exact hrest hr heq
      · obtain ⟨r, hr, heq⟩ := Option.map_eq_some_iff.mp h
        exact @hrest a.state r hr heq

theorem recv_keeps {evs : List Event} (hs : Scoreboard a.snd xs)
    (hok : Sound c a (.segment pkt env))
    (h : recv c sackFullTcpAgent a pkt env = some (a', evs)) : Keeps a a' evs := by
  unfold recv at h
  split at h
  case isTrue hclosed =>
    cases h
    split
    · exact Keeps.sends hs le_rfl (by simp) rfl
    · exact Keeps.same hs rfl (by simp)
  case isFalse hclosed =>
  split at h
  case isTrue hack =>
    -- header prediction: nothing is pruned
    have hall : ∀ b ∈ a.snd.sq.stored, pkt.ackno ≤ b.start := by
      simpa only [Sound, if_pos hack] using hok
    obtain ⟨hnew, hmax⟩ : a.snd.highestAck < pkt.ackno ∧ pkt.ackno < a.snd.maxseq := by
      simp only [predictsAck, decide_eq_true_eq] at hack
      exact ⟨hack.2.2.2.1, hack.2.2.2.2.1⟩
    rw [hs.solid.valid.stored_eq] at hall
    have hhigh : (newack a.snd pkt.ackno).highestAck = pkt.ackno := by
      simp only [newack, if_pos hnew]
    have hboard : Scoreboard (newack a.snd pkt.ackno) xs := by
      refine ⟨hs.solid, ?_, fun x hx => ⟨?_, (hs.range x hx).2⟩, fun x hx hx' => ?_⟩
      · rw [hhigh]
        exact hmax.le
      · obtain ⟨b, hb, hx1, -⟩ := hx
        rw [hhigh]
        exact (hall b hb).trans hx1
      · rw [hhigh] at hx
        exact hs.filled x (hnew.le.trans hx) hx'
    cases h
    exact Keeps.sends hboard le_rfl (by simp) rfl
  case isFalse hack =>
  split at h
  case isTrue hdata =>
    cases h
    exact Keeps.sends hs le_rfl (by simp) rfl
  case isFalse hdata =>
    have hok' : takesAck c a pkt env → SoundAck c a.snd pkt := by
      simpa only [Sound, if_neg hack] using hok
    exact slowPath_keeps hs hok' hclosed (by simpa using hack) (by simpa using hdata) h

theorem timeout_board (hs : Scoreboard a.snd xs)
    (hok : c.clearOnTimeout → a.snd.sackMin ≤ a.snd.highestAck) :
    ∃ s' xs', sackTimeoutAction c a.snd = some s' ∧ Scoreboard s' xs' ∧
      a.snd.sackMin ≤ s'.sackMin := by
  have hbase : Scoreboard (timeoutAction c a.snd) xs := hs.congr rfl le_rfl rfl
  unfold sackTimeoutAction
  dsimp only
  split
  case isTrue hclear =>
    obtain ⟨sq, heq, hempty, -⟩ := clear_spec hbase.solid.valid
    have hempty' : IsEmpty { sq with rcvNxt := a.snd.highestAck } :=
      ⟨hempty.head, hempty.tail, hempty.top, hempty.bottom, hempty.free, hempty.total⟩
    refine ⟨{ timeoutAction c a.snd with sq := { sq with rcvNxt := a.snd.highestAck } }, [], ?_,
      ⟨hempty'.solid, hs.le, by simp, fun x hx hx' => ?_⟩, hok hclear⟩
    · rw [heq]
      rfl
    · exact absurd hx (not_le.mpr hx')
  case isFalse hclear => exact ⟨_, xs, rfl, hbase, le_rfl⟩

/-- What one input does to the scoreboard and to the data under way. -/
theorem step_keeps {i : Input} {evs : List Event} (hs : Scoreboard a.snd xs) (hok : Sound c a i)
    (h : step c sackFullTcpAgent a i = some (a', evs)) : Keeps a a' evs := by
  cases i with
  | segment pkt env => exact recv_keeps hs hok h
  | timeout sent =>
    obtain ⟨s', xs', heq, hboard, hle⟩ := timeout_board hs hok
    simp only [step, timeout, sackFullTcpAgent, heq] at h
    obtain ⟨rfl, rfl⟩ := h
    exact Keeps.sends hboard hle (by simp) rfl
  | send sent =>
    cases h
    exact Keeps.sends hs le_rfl (by simp) rfl

/-! ## Acknowledgments without data are processed -/

/-- Inputs that bring no data, no `SYN` and no `FIN`. -/
def Dataless : Input → Prop
  | .segment pkt _ =>
    pkt.datalen = 0 ∧ hasFlag pkt.flags thSyn = false ∧ hasFlag pkt.flags thFin = false
  | _ => True

theorem step6_dataless (hz : t.datalen = 0) (hfin : hasFlag t.tiflags thFin = false)
    (a : FullTcp) (pkt : Segment) (env : Env) :
    step6 a pkt t env = some (a.sendMuch env.sent, []) := by
  have hdel : deliver a pkt t = some (a, t.tiflags, []) := by
    rw [deliver, if_neg (by simp [hz, hfin]), clearFlag_of_not hfin]
  rw [step6, hdel, Option.map_some, fin_of_noFin (noFin_iff.mpr hfin)]

theorem slowPath_dataless (hs : Scoreboard a.snd xs)
    (hok : takesAck c a pkt env → SoundAck c a.snd pkt) (hst : a.state.receiving)
    (hack : predictsAck c a pkt env = false) (hdata : predictsData c a pkt env = false)
    (hz : pkt.datalen = 0) (hsyn : hasFlag pkt.flags thSyn = false)
    (hfin : hasFlag pkt.flags thFin = false) :
    ∃ a' evs, slowPath c sackFullTcpAgent a pkt env = some (a', evs) ∧ a'.state.receiving := by
  have htrim : trim a pkt = ⟨pkt.seqno, 0, 0, pkt.flags, false⟩ := by
    rw [trim_eq hsyn hfin, if_neg (by omega), hz]
    rfl
  have hlast : a.state ≠ .lastAck := by
    intro h
    simp [h, State.receiving] at hst
  have hclosed : a.state ≠ .closed := by
    intro h
    simp [h, State.receiving] at hst
  unfold slowPath
  rw [if_neg (fun h => hlast h.1)]
  split
  case isTrue => exact ⟨_, _, rfl, receiving_sendMuch hst env.sent⟩
  case isFalse hpaws =>
  dsimp only
  split
  case isTrue => exact ⟨_, _, rfl, hst⟩
  case isFalse hsyn' =>
  split
  case isTrue => exact ⟨_, _, rfl, hst⟩
  case isFalse hnoack =>
    have htakes : takesAck c a pkt env = true := by
      simp only [takesAck, decide_eq_true_eq, hack, hdata]
      refine ⟨hclosed, rfl, rfl, fun h => hlast h.1, ?_, ?_, ?_⟩
      · simpa using hpaws
      · simpa using hsyn'
      · simpa using hnoack
    obtain ⟨s', evs', next, xs', hproc, -, -, -, -⟩ :=
      @processAck_sack c a.snd pkt env (trim a pkt) xs hs (hok htakes)
    have hstep6 : ∀ a₁ : FullTcp, step6 a₁ pkt (trim a pkt) env =
        some (a₁.sendMuch env.sent, []) := by
      intro a₁
      apply step6_dataless
      · rw [htrim]
      · rw [htrim]
        exact hfin
    rw [hproc, Option.bind_some]
    cases next with
    | drop => exact ⟨_, _, rfl, receiving_sendMuch (a := { a with snd := s' }) hst env.sent⟩
    | dropafterack =>
      exact ⟨_, _, rfl, receiving_sendMuch (a := { a with snd := s' }) hst env.sent⟩
    | step6 =>
      simp only [hstep6]
      split
      · exact ⟨_, _, rfl, receiving_sendMuch (a := { a with snd := s', state := a.state.finAcked })
          (State.receiving_finAcked hst) env.sent⟩
      · exact ⟨_, _, rfl, receiving_sendMuch (a := { a with snd := s' }) hst env.sent⟩

theorem step_dataless {i : Input} (hs : Scoreboard a.snd xs) (hok : Sound c a i)
    (hst : a.state.receiving) (hi : Dataless i) :
    ∃ a' evs, step c sackFullTcpAgent a i = some (a', evs) ∧ a'.state.receiving := by
  cases i with
  | segment pkt env =>
    have hclosed : a.state ≠ .closed := by
      intro h
      simp [h, State.receiving] at hst
    show ∃ a' evs, recv c sackFullTcpAgent a pkt env = some (a', evs) ∧ a'.state.receiving
    unfold recv
    rw [if_neg hclosed]
    split
    case isTrue =>
      exact ⟨_, _, rfl, receiving_sendMuch (a := { a with snd := _ }) hst env.sent⟩
    case isFalse hack =>
      split
      case isTrue =>
        exact ⟨_, _, rfl, receiving_sendMuch (a := a.advance pkt.datalen) hst env.sent⟩
      case isFalse hdata =>
        have hok' : takesAck c a pkt env → SoundAck c a.snd pkt := by
          simpa only [Sound, if_neg hack] using hok
        exact slowPath_dataless hs hok' hst (by simpa using hack) (by simpa using hdata) hi.1
          hi.2.1 hi.2.2
  | timeout sent =>
    obtain ⟨s', xs', heq, -, -⟩ := timeout_board hs hok
    refine ⟨{ a with snd := s' }.sendMuch sent, [], ?_, receiving_sendMuch hst sent⟩
    simp only [step, timeout, sackFullTcpAgent, heq, Option.map_some]
  | send sent => exact ⟨_, _, rfl, receiving_sendMuch hst sent⟩

/-! ## Runs -/

/-- What holds of an agent with the outputs `outs`. -/
def Boarded (outs : List (List Event)) (a : FullTcp) : Prop :=
  (∃ xs, Scoreboard a.snd xs) ∧ ∀ n, .pipe n ∈ outs.flatten → 0 ≤ n

/-- The step lemma for the scoreboard and the pipes. -/
theorem Boarded.step {outs : List (List Event)} {i : Input} {evs : List Event}
    (h : Boarded outs a) (hok : Sound c a i)
    (hstep : FullTcp.step c sackFullTcpAgent a i = some (a', evs)) :
    Boarded (outs ++ [evs]) a' := by
  obtain ⟨⟨xs, hs⟩, hpipes⟩ := h
  have hkeeps := step_keeps hs hok hstep
  refine ⟨hkeeps.board, fun n hn => ?_⟩
  rw [flatten_append, mem_append] at hn
  rcases hn with hn | hn
  · exact hpipes n hn
  · exact hkeeps.pipes n (by simpa using hn)

/-- **The scoreboard never holds acknowledged data**, in a run whose steps are sound. In every
state that is reached, the blocks in `sq_` lie at or above `highest_ack_`, and their total is at
most what is outstanding; the next step does not move `sack_min_` back unless it resets the agent;
and every `pipe_` that `dupack_action` has computed is not negative. A run without data does not
fail. -/
theorem scoreboard_run {ins : List Input} (hempty : a.snd.sq.IsEmpty)
    (hmin : a.snd.sackMin ≤ a.snd.highestAck) (hmax : a.snd.highestAck ≤ a.snd.maxseq)
    (hok : Runs.Meets (step c sackFullTcpAgent) (Sound c) a ins) :
    (∀ a' outs, Runs.run (step c sackFullTcpAgent) a ins = some (a', outs) →
      (∃ xs, a'.snd.sq.fifo.Holds xs ∧ ∀ b ∈ a'.snd.sq.blocks xs, a'.snd.highestAck ≤ b.start) ∧
      a'.snd.sq.total ≤ a'.snd.maxseq - a'.snd.highestAck ∧
      (∀ i a'' evs, Sound c a' i → step c sackFullTcpAgent a' i = some (a'', evs) →
        (a'.state = .lastAck ∧ a''.state = .closed) ∨ a'.snd.sackMin ≤ a''.snd.sackMin) ∧
      ∀ n, .pipe n ∈ outs.flatten → 0 ≤ n) ∧
    (a.state = .established → (∀ i ∈ ins, Dataless i) →
      ∃ a' outs, Runs.run (step c sackFullTcpAgent) a ins = some (a', outs)) := by
  have hinit : Scoreboard a.snd [] :=
    ⟨hempty.solid, hmax, by simp, fun x hx hx' => absurd (hmin.trans hx) (not_le.mpr hx')⟩
  constructor
  · intro a' outs hrun
    obtain ⟨⟨xs, hboard⟩, hpipes⟩ : Boarded ([] ++ outs) a' :=
      Runs.run_preserves (fun outs a i a' evs h hi hstep => Boarded.step h hi hstep)
        ⟨⟨[], hinit⟩, by simp⟩ hok hrun
    obtain ⟨ys, fs, hrep⟩ := hboard.solid.valid.rep
    exact ⟨⟨xs, hrep.fifo, fun b hb => hboard.above hb⟩, hboard.total_le,
      fun i a'' evs hi hstep => (step_keeps hboard hi hstep).mono, hpipes⟩
  · intro hst hdata
    have hrec : a.state.receiving := by
      rw [hst]
      rfl
    obtain ⟨a', outs, hrun, -⟩ := @Runs.run_invariant _ _ _ (step c sackFullTcpAgent)
      (fun a i => Sound c a i ∧ Dataless i) a ins
      (fun _ _ a => (∃ xs, Scoreboard a.snd xs) ∧ a.state.receiving)
      (fun _ _ a i hinv hi => by
        obtain ⟨⟨xs, hs⟩, hrec⟩ := hinv
        obtain ⟨a', evs, hstep, hrec'⟩ := step_dataless hs hi.1 hrec hi.2
        exact ⟨a', evs, hstep, (step_keeps hs hi.1 hstep).board, hrec'⟩)
      ⟨⟨[], hinit⟩, hrec⟩ (hok.and_forall hdata)
    exact ⟨a', outs, hrun⟩

/-- A sender in `ESTABLISHED` with the data from `highestAck` to `maxseq` outstanding. -/
def sending (highestAck maxseq : ℤ) : FullTcp :=
  { state := .established, flags := 0, rq := init 1,
    snd := { highestAck, maxseq, tSeqno := maxseq, recover := 0, dupacks := 0, fastrecov := false,
             pipectrl := false, pipe := 0, hSeqno := -1, sq := init (-1) } }

/-- Timers are pending, and nothing more is sent up to `maxseq`. -/
def waiting (maxseq : ℤ) : Env :=
  { tsok := true, paws := false, ecnecho := false, cwndFull := false, rtxPending := true,
    lastActionEcn := false, lastActionDupack := false,
    sent := { more := 0, tSeqno := maxseq, pipe := 0, hSeqno := -1, flags := 0, close := false } }

/-- Three duplicate acknowledgments that report a block, and one that acknowledges all but the
last byte. -/
def recovery : List Input :=
  [.segment ⟨1, 0, 10, thAck, [(12, 15)]⟩ (waiting 20), .segment ⟨1, 0, 10, thAck, [(12, 15)]⟩ (waiting 20),
    .segment ⟨1, 0, 10, thAck, [(12, 16)]⟩ (waiting 20), .segment ⟨1, 0, 19, thAck, []⟩ (waiting 20)]

theorem scoreboard_run_recovery :
    Runs.Meets (step plainConfig sackFullTcpAgent) (Sound plainConfig) (sending 10 20) recovery ∧
    (∀ a' outs, Runs.run (step plainConfig sackFullTcpAgent) (sending 10 20) recovery =
        some (a', outs) →
      (∃ xs, a'.snd.sq.fifo.Holds xs ∧ ∀ b ∈ a'.snd.sq.blocks xs, a'.snd.highestAck ≤ b.start) ∧
      a'.snd.sq.total ≤ a'.snd.maxseq - a'.snd.highestAck ∧
      (∀ i a'' evs, Sound plainConfig a' i →
        step plainConfig sackFullTcpAgent a' i = some (a'', evs) →
        (a'.state = .lastAck ∧ a''.state = .closed) ∨ a'.snd.sackMin ≤ a''.snd.sackMin) ∧
      ∀ n, .pipe n ∈ outs.flatten → 0 ≤ n) ∧
    ((sending 10 20).state = .established → (∀ i ∈ recovery, Dataless i) →
      ∃ a' outs, Runs.run (step plainConfig sackFullTcpAgent) (sending 10 20) recovery =
        some (a', outs)) :=
  have hok : Runs.Meets (step plainConfig sackFullTcpAgent) (Sound plainConfig) (sending 10 20)
      recovery := by
    decide +kernel
  ⟨hok, scoreboard_run (isEmpty_init (-1)) (by decide) (by decide) hok⟩

/-- An old acknowledgment of `5` that reports the block `[7, 8)`, when all up to `10` has been
acknowledged: the block stays in the scoreboard, below `highest_ack_`. -/
theorem old_sack_stays :
    ∃ a' outs, Runs.run (step plainConfig sackFullTcpAgent) (sending 10 20)
        [.segment ⟨1, 0, 5, thAck, [(7, 8)]⟩ (waiting 20)] = some (a', outs) ∧
      a'.snd.highestAck = 10 ∧
      ∃ xs, a'.snd.sq.fifo.Holds xs ∧ ∃ b ∈ a'.snd.sq.blocks xs, b.start < a'.snd.highestAck := by
  obtain ⟨r, hr⟩ : ∃ r, Runs.run (step plainConfig sackFullTcpAgent) (sending 10 20)
      [.segment ⟨1, 0, 5, thAck, [(7, 8)]⟩ (waiting 20)] = some r :=
    Option.isSome_iff_exists.mp (by decide +kernel)
  have hfinal : ∀ r' ∈ Runs.run (step plainConfig sackFullTcpAgent) (sending 10 20)
      [.segment ⟨1, 0, 5, thAck, [(7, 8)]⟩ (waiting 20)], r'.1.snd.highestAck = 10 ∧
        r'.1.snd.sq.startseq 0 = 7 ∧ r'.1.snd.sq.fifo.head = some 0 ∧
        r'.1.snd.sq.fifo.tail = some 0 ∧ r'.1.snd.sq.fifo.prev 0 = none ∧
        r'.1.snd.sq.fifo.next 0 = none := by
    decide +kernel
  obtain ⟨hack, hstart, hhead, htail, hprev, hnext⟩ := hfinal r hr
  refine ⟨r.1, r.2, hr, hack, [0], ⟨hhead, htail, hprev, hnext, trivial⟩,
    r.1.snd.sq.block 0, by simp [blocks], ?_⟩
  show r.1.snd.sq.startseq 0 < r.1.snd.highestAck
  omega

end FullTcp

end NetSim
