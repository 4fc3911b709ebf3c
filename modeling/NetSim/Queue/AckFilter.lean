import NetSim.Queue.SemanticPacketQueue

/-! # Purging acknowledgements

What a queue with semantics should do to its list of packets (`after`), and when it does
(`semantic_queue_iff`): as long as no acknowledgement arrives that makes another one stale, and no call
removes the packet at the head.

`filterAcks` leaves the counts of marked and unmarked packets alone when it purges, and with `replaceHead`
it takes the new acknowledgement out of the counts for good. `PacketQueue::remove` takes the head off with
the virtual `deque`, which counts the packet off, and `SemanticPacketQueue::remove` counts it off again.
-/

namespace NetSim.SemanticPacketQueue

open List

/-! ## The calls as they should be -/

section Abstract

variable (info : ℕ → SemanticPacket) (policy : SemanticPolicy)

/-- The packet that `deque` takes. -/
def taken (l : List ℕ) : Option ℕ :=
  if policy.acksfirst then (l.find? (fun p => (info p).isAck)).or l.head? else l.head?

/-- The packets after the acknowledgement `pkt` came and the stale ones were purged. -/
def purged (pkt : ℕ) (l : List ℕ) : List ℕ :=
  let fresh := fun p => decide ¬ Stale info policy.replaceHead pkt p
  if policy.replaceHead = true ∧ ∃ p ∈ l, Stale info policy.replaceHead pkt p then
    l.takeWhile fresh ++ pkt :: (l.dropWhile fresh).filter fresh
  else l.filter fresh ++ [pkt]

def after (l : List ℕ) : Call → List ℕ
  | .enque pkt =>
    if policy.filteracks = true ∧ (info pkt).isAck = true then purged info policy pkt l else l ++ [pkt]
  | .deque =>
    match taken info policy l with
    | none => l
    | some p => l.erase p
  | .remove pkt => l.erase pkt

def returned (l : List ℕ) : Call → Option ℕ
  | .enque _ => l.getLast?
  | .deque => taken info policy l
  | .remove _ => none

def Allowed (l : List ℕ) : Call → Prop
  | .enque pkt => pkt ∉ l
  | .deque => True
  | .remove pkt => pkt ∈ l

/-- The queue holds the packets `l` and goes on holding what it should while it is called. -/
def Consistent : SemanticPacketQueue → List ℕ → List Call → Prop
  | s, l, [] => Holds info s l
  | s, l, c :: calls =>
    Holds info s l ∧ (Allowed l c → ∃ fuel s',
      s.step info policy fuel c = some (s', returned info policy l c) ∧
        Consistent s' (after info policy l c) calls)

/-- The call purges nothing and does not remove the head. -/
def Safe (l : List ℕ) : Call → Prop
  | .enque pkt =>
    ¬ (policy.filteracks = true ∧ (info pkt).isAck = true ∧
      ∃ p ∈ l, Stale info policy.replaceHead pkt p)
  | .deque => True
  | .remove pkt => l.head? ≠ some pkt

def SafeCalls : List ℕ → List Call → Prop
  | _, [] => True
  | l, c :: calls => Allowed l c → Safe info policy l c ∧ SafeCalls (after info policy l c) calls

end Abstract

variable {info : ℕ → SemanticPacket} {policy : SemanticPolicy}
variable {s s' : SemanticPacketQueue} {l a m r : List ℕ} {p pkt q fuel fuel' : ℕ} {pp : Option ℕ}
  {replaceHead done : Bool}

/-! ## What leaves the counts alone -/

/-- The four counts of the kinds of packets. -/
def SameCounts (s s' : SemanticPacketQueue) : Prop :=
  s'.ackCount = s.ackCount ∧ s'.dataCount = s.dataCount ∧
    s'.markedCount = s.markedCount ∧ s'.unmarkedCount = s.unmarkedCount

/-- The counts of the marks. -/
def SameMarks (s s' : SemanticPacketQueue) : Prop :=
  s'.markedCount = s.markedCount ∧ s'.unmarkedCount = s.unmarkedCount

theorem SameMarks.trans {s'' : SemanticPacketQueue} (h : SameMarks s s') (h' : SameMarks s' s'') :
    SameMarks s s'' :=
  ⟨h'.1.trans h.1, h'.2.trans h.2⟩

theorem popFront_counts (info : ℕ → SemanticPacket) (s : SemanticPacketQueue) :
    SameCounts s (s.popFront info).1 := by
  unfold popFront
  cases s.head with
  | none => exact ⟨rfl, rfl, rfl, rfl⟩
  | some p =>
    dsimp only
    split_ifs <;> exact ⟨rfl, rfl, rfl, rfl⟩

theorem removeBehind_counts {pkt : Option ℕ} (h : s.removeBehind info pkt pp = some s') :
    SameCounts s s' := by
  unfold removeBehind at h
  cases pkt with
  | none =>
    cases h
    exact ⟨rfl, rfl, rfl, rfl⟩
  | some p =>
    dsimp only at h
    split_ifs at h
    · cases h
      exact popFront_counts info s
    · obtain ⟨q, -, rfl⟩ := Option.map_eq_some_iff.mp h
      exact ⟨rfl, rfl, rfl, rfl⟩

theorem removeLoop_marks {o : Option ℕ}
    (h : s.removeLoop info policy pkt fuel' fuel (some q) o = some s') : SameMarks s s' := by
  induction fuel generalizing q o with
  | zero => cases h
  | succ fuel ih =>
    cases o with
    | none => cases h
    | some p =>
      unfold removeLoop at h
      split_ifs at h
      · cases h
        exact ⟨rfl, rfl⟩
      · exact ih h

theorem removeTarget_marks (hhead : s.head ≠ some pkt)
    (h : s.removeTarget info policy fuel pkt = some s') : SameMarks s s' := by
  unfold removeTarget at h
  cases fuel with
  | zero => cases h
  | succ fuel =>
    cases hs : s.head with
    | none =>
      rw [hs] at h
      cases h
    | some p =>
      rw [hs] at h hhead
      unfold removeLoop at h
      rw [if_neg (fun heq => hhead (congrArg some heq))] at h
      exact removeLoop_marks h

/-- **Purging forgets the marks**, whatever it does to the list. The new acknowledgement is taken out of the
list once at most, and it is not the head then. -/
theorem filterLoop_marks {o : Option ℕ} (hpkt : replaceHead = true → done = false → s.head ≠ some pkt)
    (h : filterLoop info policy replaceHead pkt fuel' fuel s o pp done = some s') : SameMarks s s' := by
  induction fuel generalizing s o pp done with
  | zero => cases h
  | succ fuel ih =>
    cases o with
    | none =>
      cases h
      exact ⟨rfl, rfl⟩
    | some p =>
      unfold filterLoop at h
      split_ifs at h with hstale hmove hpurge
      · obtain ⟨s₁, hremove, h⟩ := Option.bind_eq_some_iff.mp h
        have hdone : done = false := by simpa using hmove.2.2
        have hmarks := removeTarget_marks (hpkt hmove.1 hdone) hremove
        apply hmarks.trans
        cases pp with
        | none =>
          have hrest := ih (by simp) h
          exact hrest
        | some q =>
          have hrest := ih (by simp) h
          exact hrest
      · obtain ⟨s₁, hremove, h⟩ := Option.bind_eq_some_iff.mp h
        have hmarks : SameMarks s s₁ := (removeBehind_counts hremove).2.2
        -- the list changes here, but then nothing is moved any more
        have hlast : replaceHead = true → done = false →
            ({ s₁.freePacket p with ackCount := (s₁.freePacket p).ackCount - 1 } :
              SemanticPacketQueue).head ≠ some pkt := by
          intro hreplace hdone
          have hne : pkt ≠ p := by
            rcases hpurge with hd | hne
            · rw [hdone] at hd
              cases hd
            · exact hne
          exact absurd ⟨hreplace, hne, by simp [hdone]⟩ hmove
        have hrest := ih hlast h
        exact hmarks.trans hrest
      · exact ih hpkt h
      · exact ih hpkt h

/-! ## Walks along the list -/

theorem filterLoop_walk {o : Option ℕ} (h : LinkedList.Chain s.next o (a ++ r))
    (hfresh : ∀ q ∈ r, q ≠ pkt → ¬ Stale info replaceHead pkt q) (hf : r.length < fuel) :
    filterLoop info policy replaceHead pkt fuel' fuel s r.head? pp false = some s := by
  induction r generalizing a fuel pp with
  | nil =>
    obtain ⟨fuel, rfl⟩ : ∃ k, fuel = k + 1 := ⟨fuel - 1, by omega⟩
    rfl
  | cons x r ih =>
    obtain ⟨fuel, rfl⟩ : ∃ k, fuel = k + 1 := ⟨fuel - 1, by simp at hf; omega⟩
    have hnext : s.next x = r.head? := h.next_eq
    have h' : LinkedList.Chain s.next o ((a ++ [x]) ++ r) := by simpa using h
    have hrest : ∀ pp, filterLoop info policy replaceHead pkt fuel' fuel s r.head? pp false = some s :=
      fun _ => ih h' (fun q hq => hfresh q (mem_cons_of_mem x hq)) (by simpa using hf)
    rw [head?_cons]
    unfold filterLoop
    by_cases hstale : Stale info replaceHead pkt x
    · have hx : pkt = x := by
        by_contra hne
        exact hfresh x mem_cons_self (Ne.symm hne) hstale
      rw [if_pos hstale, if_neg (by simp [hx]), if_neg (by simp [hx]), hnext, hrest]
    · rw [if_neg hstale, hnext, hrest]

theorem findAck_walk {o : Option ℕ} (h : LinkedList.Chain s.next o (a ++ (m ++ p :: r)))
    (hm : ∀ q ∈ m, (info q).isAck = false) (hp : (info p).isAck = true) (hf : m.length < fuel) :
    s.findAck info fuel a.getLast? (m ++ p :: r).head? = some (some p, (a ++ m).getLast?) := by
  induction m generalizing a fuel with
  | nil =>
    obtain ⟨fuel, rfl⟩ : ∃ k, fuel = k + 1 := ⟨fuel - 1, by omega⟩
    rw [nil_append, head?_cons, append_nil]
    unfold findAck
    rw [if_pos hp]
  | cons x m ih =>
    obtain ⟨fuel, rfl⟩ : ∃ k, fuel = k + 1 := ⟨fuel - 1, by simp at hf; omega⟩
    have hx := hm x mem_cons_self
    have hnext : s.next x = (m ++ p :: r).head? := LinkedList.Chain.next_eq h
    have h' : LinkedList.Chain s.next o ((a ++ [x]) ++ (m ++ p :: r)) := by simpa using h
    have hrest := ih h' (fun q hq => hm q (mem_cons_of_mem x hq)) (by simpa using hf)
    rw [cons_append, head?_cons]
    unfold findAck
    rw [if_neg (by simp [hx]), hnext]
    simpa using hrest

theorem findAck_isSome {o : Option ℕ} {t : Option ℕ × Option ℕ} (h : LinkedList.Chain s.next o r)
    (hack : ∃ q ∈ r, (info q).isAck = true) (hrun : s.findAck info fuel pp o = some t) :
    t.1 ≠ none := by
  induction r generalizing o fuel pp with
  | nil => simp at hack
  | cons x r ih =>
    obtain ⟨rfl, h⟩ := h
    cases fuel with
    | zero => cases hrun
    | succ fuel =>
      unfold findAck at hrun
      split_ifs at hrun with hx
      · cases hrun
        simp
      · refine ih h ?_ hrun
        obtain ⟨q, hq, hqack⟩ := hack
        rcases mem_cons.mp hq with rfl | hq
        · exact absurd hqack hx
        · exact ⟨q, hq, hqack⟩

theorem removeLoop_walk {o : Option ℕ} (h : LinkedList.Chain s.next o (a ++ (m ++ q :: p :: r)))
    (hp : p ∉ m ++ [q]) (hf : m.length + 1 < fuel) :
    s.removeLoop info policy p fuel' fuel pp (m ++ q :: p :: r).head? = some (s.unlink info p q) := by
  induction m generalizing a fuel pp with
  | nil =>
    obtain ⟨fuel, rfl⟩ : ∃ k, fuel = k + 2 := ⟨fuel - 2, by simp at hf; omega⟩
    have hqp : q ≠ p := fun heq => hp (by simp [heq])
    have hnext : s.next q = some p := LinkedList.Chain.next_eq h
    rw [nil_append, head?_cons]
    unfold removeLoop
    rw [if_neg hqp, hnext]
    unfold removeLoop
    rw [if_pos rfl]
  | cons x m ih =>
    obtain ⟨fuel, rfl⟩ : ∃ k, fuel = k + 1 := ⟨fuel - 1, by simp at hf; omega⟩
    have hxp : x ≠ p := fun heq => hp (by simp [heq])
    have hnext : s.next x = (m ++ q :: p :: r).head? := LinkedList.Chain.next_eq h
    have h' : LinkedList.Chain s.next o ((a ++ [x]) ++ (m ++ q :: p :: r)) := by simpa using h
    rw [cons_append, head?_cons]
    unfold removeLoop
    rw [if_neg hxp, hnext]
    exact ih h' (fun hmem => hp (mem_cons_of_mem x hmem)) (by simpa using hf)

/-! ## The calls -/

theorem Counts.of_same (h : Counts info s l) (hsame : SameCounts s s') : Counts info s' l :=
  h.of_eq hsame.1 hsame.2.1 hsame.2.2.1 hsame.2.2.2

theorem erase_middle (h : (a ++ p :: r).Nodup) : (a ++ p :: r).erase p = a ++ r := by
  have hp : p ∉ a := fun hmem => (List.nodup_append.mp h).2.2 p hmem p mem_cons_self rfl
  rw [erase_append_right _ hp, erase_cons_head]

theorem Holds.take (h : Holds info s l) (policy : SemanticPolicy) (hne : l ≠ []) :
    ∃ a p r s' fuel, l = a ++ p :: r ∧ taken info policy l = some p ∧
      (if policy.acksfirst then s.dequeAcksfirst info fuel else some (s.popFront info)) =
        some (s', some p) ∧ Links info s' (a ++ r) ∧ SameCounts s s' := by
  obtain ⟨x, t, rfl⟩ := exists_cons_of_ne_nil hne
  obtain ⟨s₁, hpop, hlinks⟩ := h.toLinks.popFront
  have hcounts : SameCounts s s₁ := by
    have := popFront_counts info s
    rwa [hpop] at this
  unfold taken
  by_cases hfirst : policy.acksfirst = true
  · simp only [if_pos hfirst]
    unfold dequeAcksfirst
    cases hfind : (x :: t).find? (fun p => (info p).isAck) with
    | none =>
      -- there is no acknowledgement
      have hnone : ¬ 0 < s.ackCount := by
        rw [h.acks, countP_eq_zero.mpr (find?_eq_none.mp hfind)]
        simp
      exact ⟨[], x, t, s₁, 0, rfl, rfl, by rw [if_neg hnone, hpop], hlinks, hcounts⟩
    | some p =>
      obtain ⟨hp, m, r, hsplit, hm⟩ := find?_eq_some_iff_append.mp hfind
      have hm : ∀ q ∈ m, (info q).isAck = false := by
        intro q hq
        simpa using hm q hq
      have hpos : 0 < s.ackCount := by
        rw [h.acks, hsplit, Nat.cast_pos, countP_pos_iff]
        exact ⟨p, by simp, hp⟩
      have hfound : s.findAck info (m.length + 1) none s.head = some (some p, m.getLast?) := by
        have hchain := h.chain
        rw [hsplit] at hchain
        rw [h.toLinks.head, hsplit]
        exact findAck_walk (a := []) hchain hm hp (Nat.lt_succ_self _)
      have hlinks' := h.toLinks
      rw [hsplit] at hlinks'
      obtain ⟨s₂, hremove, hlinks₂⟩ := hlinks'.removeBehind
      refine ⟨m, p, r, s₂, m.length + 1, hsplit, rfl, ?_, hlinks₂, removeBehind_counts hremove⟩
      rw [if_pos hpos, hfound, Option.bind_some]
      dsimp only
      rw [hremove, Option.map_some]
  · simp only [if_neg hfirst]
    exact ⟨[], x, t, s₁, 0, rfl, rfl, by rw [hpop], hlinks, hcounts⟩

theorem Holds.deque (h : Holds info s l) :
    ∃ fuel s', s.deque info policy fuel = some (s', taken info policy l) ∧
      Holds info s' (after info policy l .deque) := by
  cases l with
  | nil =>
    have hhead : s.head = none := h.toLinks.head
    have hacks : ¬ 0 < s.ackCount := by
      rw [h.acks]
      simp
    have hpop : s.popFront info = (s, none) := by
      unfold popFront
      rw [hhead]
    refine ⟨0, s, ?_, ?_⟩
    · unfold SemanticPacketQueue.deque dequeAcksfirst taken
      rw [if_neg hacks, hpop]
      split_ifs <;> rfl
    · have hnone : taken info policy [] = none := by
        unfold taken
        split_ifs <;> rfl
      unfold after
      rw [hnone]
      exact h
  | cons x t =>
    obtain ⟨a, p, r, s₁, fuel, hsplit, htaken, hrun, hlinks, hcounts⟩ :=
      h.take policy (cons_ne_nil x t)
    refine ⟨fuel, s₁.discount info p, ?_, ?_⟩
    · unfold SemanticPacketQueue.deque
      rw [hrun, htaken]
      rfl
    · have hnodup := h.nodup
      have hold := h.toCounts.of_same hcounts
      unfold after
      rw [htaken]
      dsimp only
      rw [hsplit] at hnodup hold ⊢
      rw [erase_middle hnodup]
      exact ⟨hlinks.discount p, (hold.perm perm_middle).discount⟩

theorem discount_acks_data (s : SemanticPacketQueue) (p : ℕ) :
    (s.discount info p).ackCount + (s.discount info p).dataCount = s.ackCount + s.dataCount - 1 := by
  unfold SemanticPacketQueue.discount
  split_ifs <;> dsimp only <;> ring

theorem Holds.deque_counts {t : SemanticPacketQueue × Option ℕ} (h : Holds info s l) (hne : l ≠ [])
    (hrun : s.deque info policy fuel = some t) :
    t.1.ackCount + t.1.dataCount = s.ackCount + s.dataCount - 1 := by
  unfold SemanticPacketQueue.deque at hrun
  obtain ⟨⟨s₁, o⟩, hinner, rfl⟩ := Option.map_eq_some_iff.mp hrun
  obtain ⟨x, rest, rfl⟩ := exists_cons_of_ne_nil hne
  have hpop : (s.popFront info).2 ≠ none := by
    obtain ⟨s', hpop, -⟩ := h.toLinks.popFront
    rw [hpop]
    simp
  have htake : SameCounts s s₁ ∧ o ≠ none := by
    split_ifs at hinner with hfirst
    · unfold dequeAcksfirst at hinner
      split_ifs at hinner with hpos
      · obtain ⟨u, hfind, hinner⟩ := Option.bind_eq_some_iff.mp hinner
        obtain ⟨s₂, hremove, hinner⟩ := Option.map_eq_some_iff.mp hinner
        have hack : ∃ q ∈ x :: rest, (info q).isAck = true := by
          rw [h.acks, Nat.cast_pos, countP_pos_iff] at hpos
          exact hpos
        have hsome := findAck_isSome h.chain hack hfind
        cases hinner
        exact ⟨removeBehind_counts hremove, hsome⟩
      · have hpair := Option.some.inj hinner
        rw [hpair] at hpop
        have hcounts := popFront_counts info s
        rw [hpair] at hcounts
        exact ⟨hcounts, hpop⟩
    · have hpair := Option.some.inj hinner
      rw [hpair] at hpop
      have hcounts := popFront_counts info s
      rw [hpair] at hcounts
      exact ⟨hcounts, hpop⟩
  obtain ⟨⟨hacks, hdata, -, -⟩, hsome⟩ := htake
  cases o with
  | none => exact absurd rfl hsome
  | some p =>
    dsimp only
    rw [discount_acks_data, hacks, hdata]

theorem Holds.remove (h : Holds info s l) (policy : SemanticPolicy) (hp : p ∈ l) (hhead : l.head? ≠ some p) :
    ∃ fuel s', s.remove info policy fuel p = some s' ∧ Holds info s' (l.erase p) := by
  obtain ⟨a, r, rfl⟩ := append_of_mem hp
  rcases eq_nil_or_concat a with rfl | ⟨a, q, ha⟩
  · exact absurd rfl hhead
  · rw [concat_eq_append] at ha
    subst ha
    have hnodup := h.nodup
    have hshape : (a ++ [q]) ++ p :: r = a ++ q :: p :: r := by simp
    have hpa : p ∉ a ++ [q] :=
      fun hmem => (List.nodup_append.mp hnodup).2.2 p hmem p mem_cons_self rfl
    refine ⟨a.length + 2, (s.unlink info p q).discount info p, ?_, ?_⟩
    · unfold SemanticPacketQueue.remove removeTarget
      have hchain := h.chain
      rw [hshape] at hchain
      have hloop := @removeLoop_walk info policy s [] a r p q (a.length + 2) (a.length + 2) none s.head
        hchain hpa (Nat.lt_succ_self _)
      have hstart : s.head = (a ++ q :: p :: r).head? := by rw [h.toLinks.head, hshape]
      rw [hstart, hloop, Option.map_some]
    · rw [erase_middle hnodup]
      have hcounts : Counts info (s.unlink info p q) (a ++ [q] ++ p :: r) :=
        h.toCounts.of_eq rfl rfl rfl rfl
      have hlinks := h.toLinks
      rw [hshape] at hlinks
      refine ⟨?_, (hcounts.perm perm_middle).discount⟩
      rw [append_assoc, singleton_append]
      exact hlinks.unlink.discount p

theorem Holds.remove_head_counts (h : Holds info s l) (hhead : l.head? = some p)
    (hrun : s.remove info policy fuel p = some s') :
    s'.ackCount + s'.dataCount = l.length - 2 := by
  have hne : l ≠ [] := by
    rintro rfl
    simp at hhead
  unfold SemanticPacketQueue.remove removeTarget at hrun
  obtain ⟨s₁, hloop, rfl⟩ := Option.map_eq_some_iff.mp hrun
  rw [h.toLinks.head, hhead] at hloop
  cases fuel with
  | zero => cases hloop
  | succ fuel =>
    unfold removeLoop at hloop
    rw [if_pos rfl] at hloop
    obtain ⟨t, hdeque, rfl⟩ := Option.map_eq_some_iff.mp hloop
    have hcounts := h.deque_counts hne hdeque
    have htotal := h.toCounts.acks_data
    rw [discount_acks_data, hcounts, htotal]
    ring

/-! ## Arrivals -/

theorem pushed (h : Holds info s l) (hp : pkt ∉ l) :
    Holds info ((s.count info pkt).pushBack info pkt) (l ++ [pkt]) := by
  have hcounts : Counts info ((s.count info pkt).pushBack info pkt) (pkt :: l) := by
    apply (h.toCounts.count pkt).of_eq
    all_goals
      unfold pushBack
      cases (s.count info pkt).tail <;> rfl
  have hperm : (pkt :: l).Perm (l ++ [pkt]) := by
    show ([pkt] ++ l).Perm (l ++ [pkt])
    exact perm_append_comm
  exact ⟨(h.toLinks.count pkt).pushBack hp, hcounts.perm hperm⟩

theorem purged_fresh (h : ¬ ∃ p ∈ l, Stale info policy.replaceHead pkt p) :
    purged info policy pkt l = l ++ [pkt] := by
  unfold purged
  dsimp only
  rw [if_neg (fun hall => h hall.2)]
  congr 1
  rw [filter_eq_self]
  intro q hq
  rw [decide_eq_true_eq]
  exact fun hstale => h ⟨q, hq, hstale⟩

theorem purged_length (h : ∃ p ∈ l, Stale info policy.replaceHead pkt p) :
    (purged info policy pkt l).length ≤ l.length := by
  obtain ⟨p, hp, hstale⟩ := h
  unfold purged
  dsimp only
  have hstale' : ¬ (decide ¬ Stale info policy.replaceHead pkt p) = true := by simpa using hstale
  have hless : ∀ l : List ℕ, p ∈ l →
      (l.filter (fun q => decide ¬ Stale info policy.replaceHead pkt q)).length < l.length := by
    intro l hp
    exact length_filter_lt_length_iff_exists.mpr ⟨p, hp, hstale'⟩
  split_ifs with hreplace
  · -- the first stale packet is the first of the rest
    have hsplit := takeWhile_append_dropWhile
      (p := fun q => decide ¬ Stale info policy.replaceHead pkt q) (l := l)
    have hrest : p ∈ l.dropWhile (fun q => decide ¬ Stale info policy.replaceHead pkt q) := by
      rw [← hsplit] at hp
      rcases mem_append.mp hp with hp | hp
      · exact absurd (mem_takeWhile_imp hp) hstale'
      · exact hp
    have hlt := hless _ hrest
    have hlen := congrArg List.length hsplit
    rw [length_append] at hlen ⊢
    rw [length_cons]
    omega
  · have hlt := hless l hp
    rw [length_append, length_singleton]
    omega

/-- One call keeps the queue consistent exactly if it is safe. -/
theorem step_iff {c : Call} (h : Holds info s l) (hc : Allowed l c) :
    (∃ fuel s', s.step info policy fuel c = some (s', returned info policy l c) ∧
      Holds info s' (after info policy l c)) ↔ Safe info policy l c := by
  cases c with
  | enque pkt =>
    have hpush := pushed h hc
    have htail : s.tail = l.getLast? := h.tail
    unfold Safe
    by_cases hfilter : policy.filteracks = true ∧ (info pkt).isAck = true
    · by_cases hstale : ∃ p ∈ l, Stale info policy.replaceHead pkt p
      · refine iff_of_false ?_ (fun hsafe => hsafe ⟨hfilter.1, hfilter.2, hstale⟩)
        rintro ⟨fuel, s', hrun, h'⟩
        unfold step enque at hrun
        dsimp only at hrun
        rw [if_pos hfilter] at hrun
        obtain ⟨s₁, hloop, heq⟩ := Option.map_eq_some_iff.mp hrun
        obtain rfl : s₁ = s' := congrArg Prod.fst heq
        unfold after at h'
        dsimp only at h'
        rw [if_pos hfilter] at h'
        -- the marks count one packet too many
        have hhead : ((s.count info pkt).pushBack info pkt).head ≠ some pkt := by
          obtain ⟨p, hp, -⟩ := hstale
          rw [hpush.toLinks.head, head?_append_of_ne_nil _ (ne_nil_of_mem hp)]
          intro heq
          exact hc (mem_of_head? heq)
        have hmarks := filterLoop_marks (fun _ _ => hhead) hloop
        have hold := hpush.toCounts.marked_unmarked
        have hnew := h'.toCounts.marked_unmarked
        have hlen := purged_length hstale
        rw [hmarks.1, hmarks.2, hold, length_append, length_singleton] at hnew
        omega
      · refine iff_of_true ?_ (fun hall => hstale hall.2.2)
        refine ⟨l.length + 2, (s.count info pkt).pushBack info pkt, ?_, ?_⟩
        · have hfresh : ∀ q ∈ l ++ [pkt], q ≠ pkt → ¬ Stale info policy.replaceHead pkt q := by
            intro q hq hne hq'
            rcases mem_append.mp hq with hq | hq
            · exact hstale ⟨q, hq, hq'⟩
            · exact hne (mem_singleton.mp hq)
          have hloop := @filterLoop_walk info policy ((s.count info pkt).pushBack info pkt) []
            (l ++ [pkt]) pkt (l.length + 2) (l.length + 2)
            ((s.count info pkt).pushBack info pkt).head policy.replaceHead
            ((s.count info pkt).pushBack info pkt).head hpush.chain hfresh (by simp)
          rw [← hpush.toLinks.head] at hloop
          unfold step enque returned
          dsimp only
          rw [if_pos hfilter]
          unfold filterAcks
          rw [hloop, htail]
          rfl
        · unfold after
          dsimp only
          rw [if_pos hfilter, purged_fresh hstale]
          exact hpush
    · refine iff_of_true ?_ (fun hall => hfilter ⟨hall.1, hall.2.1⟩)
      refine ⟨0, (s.count info pkt).pushBack info pkt, ?_, ?_⟩
      · unfold step enque returned
        dsimp only
        rw [if_neg hfilter, htail]
      · unfold after
        dsimp only
        rw [if_neg hfilter]
        exact hpush
  | deque => exact iff_of_true h.deque trivial
  | remove pkt =>
    unfold Safe
    by_cases hhead : l.head? = some pkt
    · refine iff_of_false ?_ (fun hsafe => hsafe hhead)
      rintro ⟨fuel, s', hrun, h'⟩
      unfold step at hrun
      obtain ⟨s₁, hremove, heq⟩ := Option.map_eq_some_iff.mp hrun
      obtain rfl : s₁ = s' := congrArg Prod.fst heq
      have hcounts := h.remove_head_counts hhead hremove
      have hnew := h'.toCounts.acks_data
      have hlen : (l.erase pkt).length = l.length - 1 := length_erase_of_mem hc
      have hpos : 0 < l.length := length_pos_of_mem hc
      unfold after at hnew
      dsimp only at hnew
      rw [hcounts, hlen] at hnew
      omega
    · refine iff_of_true ?_ hhead
      obtain ⟨fuel, s', hrun, h'⟩ := h.remove policy hc hhead
      refine ⟨fuel, s', ?_, h'⟩
      unfold step
      dsimp only
      rw [hrun]
      rfl

/-- **A queue with semantics** is consistent through all calls exactly if every call is safe. -/
theorem semantic_queue_iff (info : ℕ → SemanticPacket) (policy : SemanticPolicy) (calls : List Call) :
    Consistent info policy init [] calls ↔ SafeCalls info policy [] calls := by
  have hall : ∀ (calls : List Call) (s : SemanticPacketQueue) (l : List ℕ), Holds info s l →
      (Consistent info policy s l calls ↔ SafeCalls info policy l calls) := by
    intro calls
    induction calls with
    | nil => exact fun s l h => iff_of_true h trivial
    | cons c calls ih =>
      intro s l h
      constructor
      · rintro ⟨-, hcall⟩ hc
        obtain ⟨fuel, s', hrun, hrest⟩ := hcall hc
        have h' : Holds info s' (after info policy l c) := by
          cases calls with
          | nil => exact hrest
          | cons c' calls => exact hrest.1
        exact ⟨(step_iff h hc).mp ⟨fuel, s', hrun, h'⟩, (ih s' _ h').mp hrest⟩
      · intro hsafe
        refine ⟨h, fun hc => ?_⟩
        obtain ⟨hcall, hrest⟩ := hsafe hc
        obtain ⟨fuel, s', hrun, h'⟩ := (step_iff h hc).mpr hcall
        exact ⟨fuel, s', hrun, (ih s' _ h').mpr hrest⟩
  exact hall calls init [] holds_init

/-- The second acknowledgement of a connection purges the first one, and the marks still count it. -/
theorem second_ack_miscounted :
    ¬ Consistent (fun p => ⟨⟨1, 2, 3, 4⟩, true, p, 40, false⟩) ⟨false, true, false⟩ init []
      [.enque 1, .enque 2] := by
  rintro ⟨-, hfirst⟩
  obtain ⟨fuel, s, -, hholds, hsecond⟩ := hfirst (by simp [Allowed])
  have hafter : after (fun p => ⟨⟨1, 2, 3, 4⟩, true, p, 40, false⟩) ⟨false, true, false⟩ [] (.enque 1) = [1] := by
    decide
  rw [hafter] at hholds hsecond
  have hallowed : Allowed [1] (.enque 2) := by simp [Allowed]
  obtain ⟨fuel', s', hrun, hholds'⟩ := hsecond hallowed
  have hsafe := (step_iff hholds hallowed).mp ⟨fuel', s', hrun, hholds'⟩
  exact hsafe ⟨rfl, rfl, 1, mem_singleton_self 1, by decide⟩

end NetSim.SemanticPacketQueue
