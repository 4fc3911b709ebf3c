import NetSim.Lib.Runs
import NetSim.Tcp.ReassemblyQueueSacks

/-! # The scoreboard over a reassembly queue

`ScoreBoardRQ` of `tcp/scoreboard-rq.cc` keeps the SACK blocks in a reassembly queue. `sack_min` is
the reference `rcv_nxt_` of the queue, so it is one field here, `rq.rcvNxt`, and `add` moves it.
The edge of the scoreboard stays at `last_ack + 1` as long as no block takes it away
(`addBlocks_edge`); then `GetNextRetran` proposes only packets that are missing
(`proposes_missing`).
-/

namespace NetSim

open LinkedList IntervalList

structure ScoreBoardRQ where
  hSeqno : ℤ
  rq : ReassemblyQueue
  changed : Bool

namespace ScoreBoardRQ

open ReassemblyQueue

/-- `sack_min`, the reference that the queue was constructed with. -/
def sackMin (b : ScoreBoardRQ) : ℤ := b.rq.rcvNxt

def init : ScoreBoardRQ := { hSeqno := -1, rq := ReassemblyQueue.init (-1), changed := false }

/-- `ClearScoreBoard`. It does not touch `sack_min`. -/
def clearScoreBoard (b : ScoreBoardRQ) : Option ScoreBoardRQ :=
  b.rq.clear.map (fun rq => { b with rq, hSeqno := -1 })

def getNextRetran (b : ScoreBoardRQ) : Option (ScoreBoardRQ × ℤ) :=
  let h := if b.hSeqno < b.sackMin then b.sackMin else b.hSeqno
  (b.rq.nexthole h).map (fun r =>
    let seq := r.2.1
    let fcnt := r.2.2.1
    if 0 < seq then
      if fcnt ≤ 0 then ({ b with hSeqno := h, rq := r.1 }, -1)
      else ({ b with hSeqno := if h < seq then seq else h, rq := r.1 }, seq)
    else ({ b with hSeqno := h, rq := r.1 }, -1))

/-- `MarkRetran`; the variant with `snd_nxt` does the same. -/
def markRetran (b : ScoreBoardRQ) (retranSeqno : ℤ) : ScoreBoardRQ :=
  if b.hSeqno ≤ retranSeqno then { b with hSeqno := retranSeqno + 1 } else b

/-- The beginning of `UpdateScoreBoard`: the queue starts one beyond `last_ack`. The flag is
`changed_`. -/
def prune (b : ScoreBoardRQ) (lastAck : ℤ) : Option (ReassemblyQueue × Bool) :=
  if b.sackMin ≤ lastAck then
    let rq : ReassemblyQueue := { b.rq with rcvNxt := lastAck + 1 }
    if rq.fifo.head = none then some (rq, false) else rq.cleartonxt.map (fun r => (r.1, true))
  else some (b.rq, false)

def updateScoreBoard (b : ScoreBoardRQ) (lastAck : ℤ) (sacks : List (ℤ × ℤ)) :
    Option ScoreBoardRQ :=
  (b.prune lastAck).bind (fun r =>
    (addBlocks r.1 sacks).map (fun rq =>
      { b with rq, changed := r.2 || decide (b.rq.total ≠ rq.total) }))

variable {b b' : ScoreBoardRQ} {q q' : ReassemblyQueue} {xs xs' : List ℕ}
  {bs bs' : List Block} {sacks rest : List (ℤ × ℤ)} {lo x : ℤ}

/-! ## The edge -/

/-- `lo` is not covered, and what is covered below it reaches up to it. -/
structure Edge (lo : ℤ) (bs : List Block) : Prop where
  missing : ¬ Covers bs lo
  joined : ∀ x y, Covers bs x → x ≤ y → y < lo → Covers bs y

theorem edge_nil (lo : ℤ) : Edge lo [] := ⟨by simp, by simp⟩

theorem Edge.stop_eq (h : Edge lo bs) (hsep : Separated bs) {a : Block} (ha : a ∈ bs)
    (hne : a.start < a.stop) (hle : a.start ≤ lo) : a.stop = lo := by
  have hcov : ∀ x, a.start ≤ x → x < lo → Covers bs x :=
    fun x hx hx' => h.joined a.start x ⟨a, ha, le_rfl, hne⟩ hx hx'
  have hge : lo ≤ a.stop := hsep.le_stop ha hne le_rfl hcov
  have hnot : ¬ lo < a.stop := fun hlt => h.missing ⟨a, ha, hle, hlt⟩
  omega

/-- The blocks, added in this order to `bs`, do not move the edge `lo`: each one lies above it, or
below it and joined to it by what is covered already. -/
def Harmless (lo : ℤ) : List Block → List (ℤ × ℤ) → Prop
  | _, [] => True
  | bs, (left, right) :: rest =>
    (lo < left ∨ (right ≤ lo ∧ ∀ x ∈ Finset.Ico right lo, Covers bs x)) ∧
      Harmless lo (⟨left, right⟩ :: bs) rest

noncomputable instance decidableHarmless (lo : ℤ) : ∀ bs sacks, Decidable (Harmless lo bs sacks)
  | _, [] => isTrue trivial
  | bs, (left, right) :: rest =>
    have := decidableHarmless lo (⟨left, right⟩ :: bs) rest
    inferInstanceAs (Decidable (_ ∧ _))

theorem Edge.extend {left right : ℤ} (h : Edge lo bs) (hext : Extends bs left right bs')
    (hbk : lo < left ∨ (right ≤ lo ∧ ∀ x, right ≤ x → x < lo → Covers bs x)) : Edge lo bs' := by
  constructor
  · rw [hext.covers]
    rintro (hc | ⟨h1, h2⟩)
    · exact h.missing hc
    · rcases hbk with hlt | ⟨hle, -⟩ <;> omega
  · intro x y hx hxy hy
    rw [hext.covers] at hx ⊢
    rcases hx with hx | ⟨h1, h2⟩
    · exact Or.inl (h.joined x y hx hxy hy)
    · rcases hbk with hlt | ⟨-, hjoin⟩
      · omega
      · by_cases hyr : y < right
        · exact Or.inr ⟨by omega, hyr⟩
        · exact Or.inl (hjoin y (by omega) hy)

theorem addBlocks_edge (hs : Solid q xs) (he : Edge q.rcvNxt (q.blocks xs))
    (hbs : ∀ x, x < q.rcvNxt → (Covers bs x ↔ Covers (q.blocks xs) x))
    (hsacks : ∀ b ∈ sacks, b.1 < b.2) (hharm : Harmless q.rcvNxt bs sacks) :
    ∃ q' xs', addBlocks q sacks = some q' ∧ AddsAll q xs sacks q' xs' ∧ q'.rcvNxt = q.rcvNxt ∧
      Edge q'.rcvNxt (q'.blocks xs') := by
  induction sacks generalizing q xs bs with
  | nil => exact ⟨q, xs, rfl, AddsAll.refl hs, rfl, he⟩
  | cons b rest ih =>
    obtain ⟨left, right⟩ := b
    obtain ⟨q₁, flags, xs₁, hadd, hs₁, hext, hadv⟩ := hs.add (hsacks (left, right) (by simp)) 0 0
    obtain ⟨hblock, hrest⟩ := hharm
    have he₁ : Edge q.rcvNxt (q₁.blocks xs₁) := by
      refine he.extend hext (hblock.imp_right (fun h => ⟨h.1, fun x hx hx' => ?_⟩))
      exact (hbs x hx').mp (h.2 x (Finset.mem_Ico.mpr ⟨hx, hx'⟩))
    have hrcv : q₁.rcvNxt = q.rcvNxt := by
      rcases hadv.moves with heq | ⟨a, ha, hle, heq⟩
      · exact heq
      · rw [heq]
        exact he₁.stop_eq hs₁.valid.separated ha (hs₁.nonempty a ha) hle
    rw [← hrcv] at he₁ hrest
    have hbs₁ : ∀ x, x < q₁.rcvNxt →
        (Covers (⟨left, right⟩ :: bs) x ↔ Covers (q₁.blocks xs₁) x) := by
      intro x hx
      rw [hext.covers, covers_cons, hbs x (by omega), or_comm]
    obtain ⟨q', xs', hq', hall, hrcv', he'⟩ :=
      ih hs₁ he₁ hbs₁ (fun b hb => hsacks b (by simp [hb])) hrest
    refine ⟨q', xs', ?_, AddsAll.cons hs₁ hext hadv hall, hrcv'.trans hrcv, he'⟩
    rw [addBlocks, hadd, Option.bind_some, hq']

/-! ## What the operations do -/

theorem prune_spec {lastAck : ℤ} (hs : Solid b.rq xs) (he : Edge b.sackMin (b.rq.blocks xs))
    (hle : b.sackMin ≤ lastAck + 1) (hmiss : ¬ Covers (b.rq.blocks xs) (lastAck + 1)) :
    ∃ q changed xs', b.prune lastAck = some (q, changed) ∧ Solid q xs' ∧
      q.rcvNxt = lastAck + 1 ∧ Edge q.rcvNxt (q.blocks xs') ∧
      ∀ x, Covers (q.blocks xs') x ↔
        Covers (b.rq.blocks xs) x ∧ (b.sackMin ≤ lastAck → lastAck < x) := by
  unfold prune
  split
  case isTrue hlt =>
    obtain ⟨q, flag, xs', hclear, hs', hcov, hrcv⟩ :=
      (hs.setRcvNxt (lastAck + 1)).clearto (lastAck + 1)
    have hedge : Edge (lastAck + 1) (q.blocks xs') := by
      refine ⟨fun h => hmiss ((hcov _).mp h).1, fun x y hx hxy hy => ?_⟩
      have := ((hcov x).mp hx).2
      omega
    have hcov' : ∀ x, Covers (q.blocks xs') x ↔
        Covers (b.rq.blocks xs) x ∧ (b.sackMin ≤ lastAck → lastAck < x) := by
      intro x
      rw [hcov x]
      exact and_congr_right (fun _ => ⟨fun h _ => Int.lt_of_add_one_le h, fun h => h hlt⟩)
    dsimp only
    split
    case isTrue hnil =>
      obtain ⟨ys, fs, hrep⟩ := hs.valid.rep
      have hxs : xs = [] := List.head?_eq_none_iff.mp (hrep.fifo.head.symm.trans hnil)
      subst hxs
      exact ⟨_, _, [], rfl, hs.setRcvNxt (lastAck + 1), rfl, edge_nil _, fun x => by simp [blocks]⟩
    case isFalse =>
      refine ⟨q, true, xs', ?_, hs', hrcv, hrcv ▸ hedge, hcov'⟩
      rw [cleartonxt, hclear]
      rfl
  case isFalse hlt =>
    have heq : b.rq.rcvNxt = lastAck + 1 := le_antisymm hle (not_le.mp hlt)
    refine ⟨b.rq, false, xs, rfl, hs, heq, he, fun x => ?_⟩
    exact ⟨fun h => ⟨h, fun h' => absurd h' hlt⟩, fun h => h.1⟩

/-- The blocks below the edge that pruning leaves. -/
def behind (b : ScoreBoardRQ) (lastAck : ℤ) : List Block :=
  if b.sackMin ≤ lastAck then [] else b.rq.stored

/-- **The updates that keep the scoreboard sound.** The edge has not gone past `last_ack + 1`,
neither before a `ClearScoreBoard` nor by a block; no stored block covers `last_ack + 1`; and the
reported blocks, which are not empty, do not move the edge. -/
def SoundUpdate (b : ScoreBoardRQ) (lastAck : ℤ) (sacks : List (ℤ × ℤ)) : Prop :=
  b.sackMin ≤ lastAck + 1 ∧ ¬ Covers b.rq.stored (lastAck + 1) ∧ (∀ s ∈ sacks, s.1 < s.2) ∧
    Harmless (lastAck + 1) (b.behind lastAck) sacks

noncomputable instance (b : ScoreBoardRQ) (lastAck : ℤ) (sacks : List (ℤ × ℤ)) :
    Decidable (SoundUpdate b lastAck sacks) :=
  inferInstanceAs (Decidable (_ ∧ _ ∧ _ ∧ _))

theorem updateScoreBoard_spec {lastAck : ℤ} (hs : Solid b.rq xs)
    (he : Edge b.sackMin (b.rq.blocks xs)) (hok : SoundUpdate b lastAck sacks) :
    ∃ b' xs', b.updateScoreBoard lastAck sacks = some b' ∧ Solid b'.rq xs' ∧
      b'.sackMin = lastAck + 1 ∧ Edge b'.sackMin (b'.rq.blocks xs') ∧ b'.hSeqno = b.hSeqno ∧
      ∀ x, Covers (b'.rq.blocks xs') x ↔
        (Covers (b.rq.blocks xs) x ∧ (b.sackMin ≤ lastAck → lastAck < x)) ∨
          ∃ s ∈ sacks, s.1 ≤ x ∧ x < s.2 := by
  obtain ⟨hle, hmiss, hsacks, hharm⟩ := hok
  rw [hs.valid.stored_eq] at hmiss
  obtain ⟨q, changed, xs₁, hprune, hs₁, hrcv, he₁, hcov⟩ := prune_spec hs he hle hmiss
  have hbehind : ∀ x, x < q.rcvNxt →
      (Covers (b.behind lastAck) x ↔ Covers (q.blocks xs₁) x) := by
    intro x hx
    rw [hcov x, behind]
    split
    case isTrue hlt =>
      refine iff_of_false covers_nil (fun h => ?_)
      omega
    case isFalse hlt =>
      rw [hs.valid.stored_eq]
      exact ⟨fun h => ⟨h, fun h' => absurd h' hlt⟩, fun h => h.1⟩
  rw [← hrcv] at hharm
  obtain ⟨q', xs', hadd, hall, hrcv', he'⟩ := addBlocks_edge hs₁ he₁ hbehind hsacks hharm
  refine ⟨{ b with rq := q', changed := changed || decide (b.rq.total ≠ q'.total) }, xs', ?_,
    hall.solid, hrcv'.trans hrcv, he', rfl, fun x => ?_⟩
  · rw [updateScoreBoard, hprune, Option.bind_some, hadd]
    rfl
  · rw [hall.covers, hcov]

theorem getNextRetran_spec (hs : Solid b.rq xs) :
    ∃ b' s, b.getNextRetran = some (b', s) ∧ Solid b'.rq xs ∧ b'.rq.blocks xs = b.rq.blocks xs ∧
      b'.sackMin = b.sackMin ∧ b.hSeqno ≤ b'.hSeqno ∧
      (0 ≤ s → b.hSeqno ≤ s ∧ b.sackMin ≤ s ∧ ¬ Covers (b.rq.blocks xs) s ∧
        ∃ x, s < x ∧ Covers (b.rq.blocks xs) x) := by
  unfold getNextRetran
  generalize hh : (if b.hSeqno < b.sackMin then b.sackMin else b.hSeqno) = h
  have hmax : b.hSeqno ≤ h ∧ b.sackMin ≤ h := by
    rw [← hh]
    split <;> omega
  obtain ⟨seq, fcnt, fbytes, hnext, hhole⟩ := nexthole_spec hs.valid h
  have hs' := hs.setHint b.rq.fifo.head
  dsimp only
  rw [hnext, Option.map_some]
  dsimp only
  split
  · split
    · exact ⟨_, _, rfl, hs', rfl, rfl, hmax.1, fun h => absurd h (by decide)⟩
    · rename_i hpos hcnt
      obtain ⟨hge, hmiss, -, a, ha, hlt⟩ := hhole (not_le.mp hcnt)
      refine ⟨_, _, rfl, hs', rfl, rfl, ?_, fun _ => ⟨by omega, by omega, hmiss, a.start, hlt, ?_⟩⟩
      · dsimp only
        split <;> omega
      · exact hs.covers_start ha
  · exact ⟨_, _, rfl, hs', rfl, rfl, hmax.1, fun h => absurd h (by decide)⟩

/-! ## Runs -/

inductive Op where
  | update (lastAck : ℤ) (sacks : List (ℤ × ℤ))
  | clear
  | getNextRetran
  | markRetran (seqno : ℤ)
  deriving DecidableEq

/-- One call; the answer is that of `GetNextRetran`. -/
def step (b : ScoreBoardRQ) : Op → Option (ScoreBoardRQ × Option ℤ)
  | .update lastAck sacks => (b.updateScoreBoard lastAck sacks).map (fun b => (b, none))
  | .clear => b.clearScoreBoard.map (fun b => (b, none))
  | .getNextRetran => b.getNextRetran.map (fun r => (r.1, some r.2))
  | .markRetran seqno => some (b.markRetran seqno, none)

/-- The calls since the last `ClearScoreBoard`. -/
def since (ops : List Op) : List Op := ops.rtakeWhile (· ≠ .clear)

/-- The argument of the last `UpdateScoreBoard`. -/
def lastAck : List Op → Option ℤ :=
  List.foldl (fun last op => match op with | .update lastAck _ => some lastAck | _ => last) none

/-- `x` was covered by a SACK block since the last clear. -/
def Reported (ops : List Op) (x : ℤ) : Prop :=
  ∃ lastAck sacks, .update lastAck sacks ∈ since ops ∧ ∃ s ∈ sacks, s.1 ≤ x ∧ x < s.2

/-- `x` was marked retransmitted since the last clear. -/
def Marked (ops : List Op) (x : ℤ) : Prop := .markRetran x ∈ since ops

def Sound (b : ScoreBoardRQ) : Op → Prop
  | .update lastAck sacks => SoundUpdate b lastAck sacks
  | _ => True

noncomputable instance (b : ScoreBoardRQ) : ∀ op, Decidable (Sound b op)
  | .update lastAck sacks => inferInstanceAs (Decidable (SoundUpdate b lastAck sacks))
  | .clear | .getNextRetran | .markRetran _ => isTrue trivial

variable {ops : List Op}

theorem since_clear (ops : List Op) : since (ops ++ [.clear]) = [] := by
  simp [since]

theorem mem_since_append {op op' : Op} (h : op ≠ .clear) :
    op' ∈ since (ops ++ [op]) ↔ op' ∈ since ops ∨ op' = op := by
  rw [since, List.rtakeWhile_concat_pos _ _ _ (by simpa using h)]
  simp [since]

/-- What holds after the calls `past`. -/
structure Tracks (past : List Op) (b : ScoreBoardRQ) (xs : List ℕ) : Prop where
  solid : Solid b.rq xs
  edge : Edge b.sackMin (b.rq.blocks xs)
  sackMin : ∀ la ∈ lastAck past, b.sackMin = la + 1
  sound : ∀ x, Covers (b.rq.blocks xs) x → Reported past x
  complete : ∀ x, b.sackMin ≤ x → Reported past x → Covers (b.rq.blocks xs) x
  marked : ∀ x, Marked past x → x < b.hSeqno

theorem reported_update {la x : ℤ} :
    Reported (ops ++ [.update la sacks]) x ↔
      Reported ops x ∨ ∃ s ∈ sacks, s.1 ≤ x ∧ x < s.2 := by
  constructor
  · rintro ⟨la', sacks', hmem, hx⟩
    rcases (mem_since_append (by simp)).mp hmem with hmem | heq
    · exact Or.inl ⟨la', sacks', hmem, hx⟩
    · cases heq
      exact Or.inr hx
  · rintro (⟨la', sacks', hmem, hx⟩ | hx)
    · exact ⟨la', sacks', (mem_since_append (by simp)).mpr (Or.inl hmem), hx⟩
    · exact ⟨la, sacks, (mem_since_append (by simp)).mpr (Or.inr rfl), hx⟩

theorem reported_other {op : Op} (hclear : op ≠ .clear) (hupd : ∀ la sacks, op ≠ .update la sacks)
    (x : ℤ) : Reported (ops ++ [op]) x ↔ Reported ops x := by
  have hmem : ∀ la sacks, .update la sacks ∈ since (ops ++ [op]) ↔ .update la sacks ∈ since ops := by
    intro la sacks
    rw [mem_since_append hclear]
    exact or_iff_left (fun h => hupd la sacks h.symm)
  simp only [Reported, hmem]

theorem Tracks.update {la : ℤ} (h : Tracks ops b xs) (hok : SoundUpdate b la sacks) :
    ∃ b' xs', b.updateScoreBoard la sacks = some b' ∧ Tracks (ops ++ [.update la sacks]) b' xs' := by
  obtain ⟨b', xs', heq, hs', hmin, he', hh, hcov⟩ := updateScoreBoard_spec h.solid h.edge hok
  refine ⟨b', xs', heq, hs', he', ?_, fun x hx => ?_, fun x hx hrep => ?_, fun x hx => ?_⟩
  · simpa [lastAck] using hmin
  · rw [reported_update]
    exact ((hcov x).mp hx).imp_left (fun hx => h.sound x hx.1)
  · rw [hcov x]
    have hle := hok.1
    exact (reported_update.mp hrep).imp_left
      (fun hrep => ⟨h.complete x (by omega) hrep, fun _ => by omega⟩)
  · rw [hh]
    refine h.marked x (((mem_since_append (by simp)).mp hx).resolve_right (by simp))

theorem Tracks.clear (h : Tracks ops b xs) :
    ∃ b', b.clearScoreBoard = some b' ∧ Tracks (ops ++ [.clear]) b' [] := by
  obtain ⟨rq, hclear, hempty, hrcv⟩ := clear_spec h.solid.valid
  refine ⟨{ b with rq, hSeqno := -1 }, by rw [clearScoreBoard, hclear]; rfl, hempty.solid,
    edge_nil _, fun la hla => ?_, fun x hx => ?_, fun x _ hx => ?_, fun x hx => ?_⟩
  · rw [lastAck, List.foldl_append] at hla
    exact hrcv.trans (h.sackMin la hla)
  · exact absurd hx covers_nil
  · obtain ⟨_, _, hmem, -⟩ := hx
    rw [since_clear] at hmem
    cases hmem
  · rw [Marked, since_clear] at hx
    cases hx

theorem Tracks.same {op : Op} (h : Tracks ops b xs) (hclear : op ≠ .clear)
    (hupd : ∀ la sacks, op ≠ .update la sacks) (hs : Solid b'.rq xs)
    (hblocks : b'.rq.blocks xs = b.rq.blocks xs) (hmin : b'.sackMin = b.sackMin)
    (hmark : ∀ x, x < b.hSeqno ∨ op = .markRetran x → x < b'.hSeqno) : Tracks (ops ++ [op]) b' xs := by
  have hlast : lastAck (ops ++ [op]) = lastAck ops := by
    rw [lastAck, List.foldl_append]
    cases op with
    | update la sacks => exact absurd rfl (hupd la sacks)
    | clear | getNextRetran | markRetran _ => rfl
  refine ⟨hs, ?_, fun la hla => ?_, fun x hx => ?_, fun x hx hrep => ?_, fun x hx => ?_⟩
  · rw [hblocks, hmin]
    exact h.edge
  · rw [hlast] at hla
    exact hmin.trans (h.sackMin la hla)
  · rw [reported_other hclear hupd]
    rw [hblocks] at hx
    exact h.sound x hx
  · rw [reported_other hclear hupd] at hrep
    rw [hmin] at hx
    rw [hblocks]
    exact h.complete x hx hrep
  · rcases (mem_since_append hclear).mp hx with hx | heq
    · exact hmark x (Or.inl (h.marked x hx))
    · exact hmark x (Or.inr heq.symm)

/-- The step lemma: what the queue covers was reported, and all of that above the edge is covered. -/
theorem Tracks.step (h : Tracks ops b xs) (op : Op) (hok : Sound b op) :
    ∃ b' out, b.step op = some (b', out) ∧ ∃ xs', Tracks (ops ++ [op]) b' xs' := by
  cases op with
  | update la sacks =>
    obtain ⟨b', xs', heq, h'⟩ := h.update hok
    exact ⟨b', none, by rw [ScoreBoardRQ.step, heq]; rfl, xs', h'⟩
  | clear =>
    obtain ⟨b', heq, h'⟩ := h.clear
    exact ⟨b', none, by rw [ScoreBoardRQ.step, heq]; rfl, [], h'⟩
  | getNextRetran =>
    obtain ⟨b', s, heq, hs', hblocks, hmin, hle, -⟩ := getNextRetran_spec h.solid
    refine ⟨b', some s, by rw [ScoreBoardRQ.step, heq]; rfl, xs,
      h.same (by simp) (by simp) hs' hblocks hmin (fun x hx => ?_)⟩
    have := hx.resolve_right (by simp)
    omega
  | markRetran seqno =>
    refine ⟨_, _, rfl, xs, h.same (by simp) (by simp) ?_ ?_ ?_ (fun x hx => ?_)⟩
    · unfold markRetran
      split <;> exact h.solid
    · unfold markRetran
      split <;> rfl
    · unfold markRetran
      split <;> rfl
    · simp only [Op.markRetran.injEq] at hx
      unfold markRetran
      split
      · show x < seqno + 1
        omega
      · omega

/-- **Only missing packets are proposed**, in a run whose updates are sound. No call fails;
`sack_min` is `last_ack + 1`; and a sequence number that `GetNextRetran` returns in the state that
is reached lies above `last_ack`, was covered by no SACK block since the last clear while some
packet above it was, and has not been marked. -/
theorem proposes_missing (hok : Runs.Meets step Sound init ops) :
    ∃ b outs, Runs.run step init ops = some (b, outs) ∧
      (∀ la ∈ lastAck ops, b.sackMin = la + 1) ∧
      ∃ b' s, b.getNextRetran = some (b', s) ∧
        (0 ≤ s → (∀ la ∈ lastAck ops, la < s) ∧ ¬ Reported ops s ∧
          (∃ x, s < x ∧ Reported ops x) ∧ ¬ Marked ops s) := by
  have hinit : Tracks [] init [] := by
    refine ⟨(isEmpty_init (-1)).solid, edge_nil _, by simp [lastAck], by simp [blocks], ?_, ?_⟩
    · rintro x - ⟨_, _, hmem, -⟩
      cases hmem
    · intro x hx
      cases hx
  obtain ⟨b, outs, hrun, xs, h⟩ := @Runs.run_invariant _ _ _ step Sound init ops
    (fun past _ b => ∃ xs, Tracks past b xs)
    (by
      rintro past outs b op ⟨xs, h⟩ hop
      exact h.step op hop)
    ⟨[], hinit⟩ hok
  obtain ⟨b', s, hget, -, -, -, -, hs⟩ := getNextRetran_spec h.solid
  refine ⟨b, outs, hrun, h.sackMin, b', s, hget, fun h0 => ?_⟩
  obtain ⟨hge, hmin, hmiss, x, hlt, hx⟩ := hs h0
  refine ⟨fun la hla => ?_, fun hrep => hmiss (h.complete s hmin hrep), ⟨x, hlt, h.sound x hx⟩,
    fun hmark => absurd (h.marked s hmark) (not_lt.mpr hge)⟩
  have := h.sackMin la hla
  omega

/-- Two updates with a D-SACK of the last packet, a retransmission, and a clear after which the
numbers go on. -/
def recovery : List Op :=
  [.update 3 [(6, 8)], .update 4 [(4, 5), (6, 9)], .getNextRetran, .markRetran 5, .clear,
    .update 9 [(12, 13)]]

theorem proposes_missing_recovery :
    Runs.Meets step Sound init recovery ∧
    ∃ b outs, Runs.run step init recovery = some (b, outs) ∧
      (∀ la ∈ lastAck recovery, b.sackMin = la + 1) ∧
      ∃ b' s, b.getNextRetran = some (b', s) ∧
        (0 ≤ s → (∀ la ∈ lastAck recovery, la < s) ∧ ¬ Reported recovery s ∧
          (∃ x, s < x ∧ Reported recovery x) ∧ ¬ Marked recovery s) :=
  have hok : Runs.Meets step Sound init recovery := by decide +kernel
  ⟨hok, proposes_missing hok⟩

/-- With `last_ack` 10, a D-SACK block `[5, 6)` moves `sack_min` back to 6, and `GetNextRetran`
proposes packet 6, which has been acknowledged. -/
theorem dsack_moves_edge :
    ∃ b outs, Runs.run step init [.update 10 [(5, 6), (15, 20)]] = some (b, outs) ∧
      lastAck [.update 10 [(5, 6), (15, 20)]] = some 10 ∧ b.sackMin = 6 ∧
      ∃ b', b.getNextRetran = some (b', 6) := by
  obtain ⟨r, hr⟩ : ∃ r, Runs.run step init [.update 10 [(5, 6), (15, 20)]] = some r :=
    Option.isSome_iff_exists.mp (by decide +kernel)
  have hfinal : ∀ r' ∈ Runs.run step init [.update 10 [(5, 6), (15, 20)]],
      r'.1.sackMin = 6 ∧ r'.1.getNextRetran.map (fun r => r.2) = some 6 := by
    decide +kernel
  obtain ⟨hmin, hget⟩ := hfinal r hr
  obtain ⟨r', hr', heq⟩ := Option.map_eq_some_iff.mp hget
  exact ⟨r.1, r.2, hr, rfl, hmin, r'.1, by rw [hr', ← heq]⟩

end ScoreBoardRQ

end NetSim
