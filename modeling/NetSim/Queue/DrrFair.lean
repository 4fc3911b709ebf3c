import NetSim.Queue.Drr

/-! # Fairness of deficit round robin

For two buckets `i` and `j` that are not empty, `owed` is the difference of their deficit counters, plus
a quantum when `i` gets the next one of the two. Serving other buckets leaves it alone, a quantum for
`i` or `j` too, since the two take turns, and a packet of `i` or `j` changes it by its size
(`Good.deque`). It lies between `-Max` and `quantum + Max` at all times, which bounds what one of the
two can send ahead of the other (`drr_fair`).
-/

namespace NetSim

open Function List

namespace Drr

variable {s s' : Drr} {max c i j q f fuel : ℕ} {ring t : List ℕ} {p pkt : DrrPacket}
  {rest : List DrrPacket}

/-! ## The invariant -/

def queueBytes (s : Drr) (f : ℕ) : ℕ := ((s.drr f).queue.map DrrPacket.size).sum

/-- The circle of the buckets that are not empty, from `curr` on, and what the counters of these buckets
are; the packets have between 1 and `max` bytes. -/
structure Good (s : Drr) (max : ℕ) (ring : List ℕ) : Prop where
  links : CyclicList.Holds s.next s.prev ring
  head : s.curr = ring.head?
  mem : ∀ f, f ∈ ring ↔ (s.drr f).queue ≠ []
  pkts : ∀ f, (s.drr f).pkts = (s.drr f).queue.length
  flows : s.flwcnt = ring.length
  bytes : s.bytecnt = (ring.map s.queueBytes).sum
  sizes : ∀ f, ∀ p ∈ (s.drr f).queue, 1 ≤ p.size ∧ p.size ≤ max ∧ s.which p = f
  waiting : ∀ f ∈ ring, (s.drr f).turn = false → (s.drr f).deficitCounter < max
  serving : ∀ f, (s.drr f).turn = true →
    ring.head? = some f ∧ (s.drr f).deficitCounter < s.quantum + max

/-- The settings of a scheduler, which no event changes. -/
def SameConfig (s s' : Drr) : Prop :=
  s'.quantum = s.quantum ∧ s'.blimit = s.blimit ∧ s'.mask = s.mask ∧ s'.buckets = s.buckets

theorem SameConfig.which (h : SameConfig s s') (p : DrrPacket) : s'.which p = s.which p := by
  unfold Drr.which index hash
  rw [h.2.2.1, h.2.2.2]

theorem SameConfig.trans {s'' : Drr} (h : SameConfig s s') (h' : SameConfig s' s'') :
    SameConfig s s'' :=
  ⟨h'.1.trans h.1, h'.2.1.trans h.2.1, h'.2.2.1.trans h.2.2.1, h'.2.2.2.trans h.2.2.2⟩

theorem good_init (buckets : ℕ) (blimit : ℤ) (quantum : ℕ) (mask : Bool) (max : ℕ) :
    Good (init buckets blimit quantum mask) max [] where
  links := trivial
  head := rfl
  mem f := by simp [init]
  pkts f := rfl
  flows := rfl
  bytes := rfl
  sizes f p hp := absurd hp not_mem_nil
  waiting f hf := absurd hf not_mem_nil
  serving f hf := by simp [init] at hf

/-- The first packet of a bucket of the circle has no more bytes than all queues together. -/
theorem Good.size_le (h : Good s max ring) (hf : f ∈ ring) (hp : p ∈ (s.drr f).queue) :
    p.size ≤ s.bytecnt := by
  rw [h.bytes]
  have hpos : ∀ (l : List ℕ), ∀ x ∈ l, 0 ≤ x := fun _ x _ => Nat.zero_le x
  calc p.size ≤ s.queueBytes f := single_le_sum (hpos _) _ (mem_map_of_mem hp)
    _ ≤ (ring.map s.queueBytes).sum := single_le_sum (hpos _) _ (mem_map_of_mem hf)

theorem Good.turn_of_ne (h : Good s max (c :: t)) (hf : f ≠ c) : (s.drr f).turn = false := by
  by_contra hturn
  have hhead := (h.serving f (Bool.eq_true_of_not_eq_false hturn)).1
  exact hf (Option.some.inj hhead).symm

/-! ## What a bucket is owed -/

/-- Of `i` and `j`, `i` comes first in the circle. -/
def leads (i j : ℕ) (ring : List ℕ) : Prop := ring.find? (fun f => f = i ∨ f = j) = some i

instance (i j : ℕ) (ring : List ℕ) : Decidable (leads i j ring) :=
  inferInstanceAs (Decidable (_ = _))

/-- 1 when the next quantum for one of the two is for `i`. -/
def nextQuantum (i j : ℕ) (s : Drr) (ring : List ℕ) : ℤ :=
  if (s.drr i).turn then 0 else if (s.drr j).turn then 1 else if leads i j ring then 1 else 0

def owed (i j : ℕ) (s : Drr) (ring : List ℕ) : ℤ :=
  (s.drr i).deficitCounter - (s.drr j).deficitCounter + s.quantum * nextQuantum i j s ring

theorem leads_cons (hi : c ≠ i) (hj : c ≠ j) : leads i j (c :: t) ↔ leads i j t := by
  unfold leads
  rw [find?_cons_of_neg (by simp [hi, hj])]

theorem leads_append (h : i ∈ t ∨ j ∈ t) (l : List ℕ) : leads i j (t ++ l) ↔ leads i j t := by
  unfold leads
  have hsome : (t.find? (fun f => f = i ∨ f = j)).isSome := by
    rw [find?_isSome]
    rcases h with h | h
    · exact ⟨i, h, by simp⟩
    · exact ⟨j, h, by simp⟩
  obtain ⟨x, hx⟩ := Option.isSome_iff_exists.mp hsome
  rw [find?_append, hx, Option.some_or]

theorem leads_head : leads i j (i :: t) := by
  unfold leads
  rw [find?_cons_of_pos (by simp)]

theorem not_leads_head (hij : i ≠ j) : ¬ leads i j (j :: t) := by
  unfold leads
  rw [find?_cons_of_pos (by simp)]
  exact fun heq => hij (Option.some.inj heq).symm

theorem leads_of_not_mem (hj : j ∉ t) (hi : i ∈ t) : leads i j t := by
  unfold leads
  obtain ⟨x, hx⟩ := Option.isSome_iff_exists.mp
    (find?_isSome.mpr ⟨i, hi, by simp⟩ : (t.find? (fun f => f = i ∨ f = j)).isSome)
  have hmem := mem_of_find?_eq_some hx
  have hp := find?_some hx
  simp only [decide_eq_true_eq] at hp
  rcases hp with rfl | rfl
  · exact hx
  · exact absurd hmem hj

theorem not_leads_of_not_mem (hi : i ∉ t) : ¬ leads i j t := by
  intro h
  exact hi (mem_of_find?_eq_some h)

theorem Good.owed_bounds (h : Good s max ring) (hij : i ≠ j) (hi : i ∈ ring) (hj : j ∈ ring) :
    -(max : ℤ) < owed i j s ring ∧ owed i j s ring < s.quantum + max := by
  -- the two are not both in their turns
  have hone : (s.drr i).turn = true → (s.drr j).turn = false := by
    intro hti
    by_contra htj
    have h1 := (h.serving i hti).1
    have h2 := (h.serving j (Bool.eq_true_of_not_eq_false htj)).1
    rw [h1] at h2
    exact hij (Option.some.inj h2)
  unfold owed nextQuantum
  by_cases hti : (s.drr i).turn = true
  · have h1 := (h.serving i hti).2
    have h2 := h.waiting j hj (hone hti)
    rw [if_pos hti]
    omega
  · have h1 := h.waiting i hi (Bool.eq_false_iff.mpr hti)
    rw [if_neg hti]
    by_cases htj : (s.drr j).turn = true
    · have h2 := (h.serving j htj).2
      rw [if_pos htj]
      omega
    · have h2 := h.waiting j hj (Bool.eq_false_iff.mpr htj)
      rw [if_neg htj]
      split <;> omega

/-! ## Changing one bucket -/

theorem set_self {b : PacketDRR} : (s.set q b).drr q = b := update_self ..

theorem set_of_ne {b : PacketDRR} (hf : f ≠ q) : (s.set q b).drr f = s.drr f :=
  update_of_ne hf _ _

theorem Good.update (h : Good s max ring) (hq : q ∈ ring) {b : PacketDRR} {n k : ℕ}
    (hqueue : b.queue ≠ []) (hpkts : b.pkts = b.queue.length)
    (hbytes : n + s.queueBytes q = s.bytecnt + (b.queue.map DrrPacket.size).sum)
    (hsizes : ∀ p ∈ b.queue, 1 ≤ p.size ∧ p.size ≤ max ∧ s.which p = q)
    (hwaiting : b.turn = false → b.deficitCounter < max)
    (hserving : b.turn = true → ring.head? = some q ∧ b.deficitCounter < s.quantum + max) :
    Good { s.set q b with pktcnt := k, bytecnt := n } max ring := by
  unfold set
  constructor
  · exact h.links
  · exact h.head
  · intro f
    by_cases hf : f = q
    · subst hf
      simp [hq, hqueue]
    · simp only [update_of_ne hf]
      exact h.mem f
  · intro f
    by_cases hf : f = q
    · subst hf
      simp only [update_self]
      exact hpkts
    · simp only [update_of_ne hf]
      exact h.pkts f
  · exact h.flows
  · have hsum := @CyclicList.sum_map_change ℕ q ring s.queueBytes
      (fun f => ((Function.update s.drr q b f).queue.map DrrPacket.size).sum)
      (s.queueBytes q) (b.queue.map DrrPacket.size).sum h.links.nodup hq
      (fun f hf => by simp only [update_of_ne hf]; rfl)
      (by simp only [update_self]; omega)
    rw [← h.bytes] at hsum
    show n = (ring.map (fun f => ((Function.update s.drr q b f).queue.map DrrPacket.size).sum)).sum
    omega
  · intro f p hp
    by_cases hf : f = q
    · subst hf
      simp only [update_self] at hp
      exact hsizes p hp
    · simp only [update_of_ne hf] at hp
      exact h.sizes f p hp
  · intro f hf
    by_cases hfq : f = q
    · subst hfq
      simp only [update_self]
      exact hwaiting
    · simp only [update_of_ne hfq]
      exact h.waiting f hf
  · intro f
    by_cases hfq : f = q
    · subst hfq
      simp only [update_self]
      exact hserving
    · simp only [update_of_ne hfq]
      exact h.serving f

theorem owed_congr {ring' : List ℕ} (hquantum : s'.quantum = s.quantum)
    (hi : (s'.drr i).turn = (s.drr i).turn ∧ (s'.drr i).deficitCounter = (s.drr i).deficitCounter)
    (hj : (s'.drr j).turn = (s.drr j).turn ∧ (s'.drr j).deficitCounter = (s.drr j).deficitCounter)
    (hleads : leads i j ring' ↔ leads i j ring) : owed i j s' ring' = owed i j s ring := by
  unfold owed nextQuantum
  rw [hquantum, hi.1, hi.2, hj.1, hj.2]
  simp only [hleads]

theorem set_keeps {b : PacketDRR}
    (hb : b.turn = (s.drr q).turn ∧ b.deficitCounter = (s.drr q).deficitCounter) (f : ℕ) :
    ((s.set q b).drr f).turn = (s.drr f).turn ∧
      ((s.set q b).drr f).deficitCounter = (s.drr f).deficitCounter := by
  by_cases hf : f = q
  · rw [hf, set_self]
    exact hb
  · rw [set_of_ne hf]
    exact ⟨rfl, rfl⟩

theorem owed_sub {a b : ℕ} (hquantum : s'.quantum = s.quantum)
    (hi : (s'.drr i).turn = (s.drr i).turn ∧
      ((s'.drr i).deficitCounter : ℤ) = (s.drr i).deficitCounter - a)
    (hj : (s'.drr j).turn = (s.drr j).turn ∧
      ((s'.drr j).deficitCounter : ℤ) = (s.drr j).deficitCounter - b) :
    owed i j s' ring + a - b = owed i j s ring := by
  unfold owed nextQuantum
  rw [hquantum, hi.1, hi.2, hj.1, hj.2]
  ring

/-! ## Arrivals -/

theorem Good.accept_busy (h : Good s max ring) (hbusy : s.which pkt ∈ ring)
    (hsize : 1 ≤ pkt.size ∧ pkt.size ≤ max) :
    Good (s.accept pkt) max ring ∧
      ∀ i j, owed i j (s.accept pkt) ring = owed i j s ring := by
  have hpkts := h.pkts (s.which pkt)
  have hlen := length_pos_iff.mpr ((h.mem _).mp hbusy)
  unfold accept
  simp only
  rw [if_neg (by omega)]
  constructor
  · apply h.update hbusy
    · simp
    · simp [hpkts]
    · simp only [map_append, sum_append, map_singleton, sum_singleton]
      unfold queueBytes
      omega
    · intro p hp
      rcases mem_append.mp hp with hp | hp
      · exact h.sizes _ p hp
      · rw [mem_singleton.mp hp]
        exact ⟨hsize.1, hsize.2, rfl⟩
    · exact h.waiting _ hbusy
    · exact h.serving _
  · intro i j
    refine owed_congr rfl ?_ ?_ Iff.rfl
    · apply set_keeps
      exact ⟨rfl, rfl⟩
    · apply set_keeps
      exact ⟨rfl, rfl⟩

theorem activate_links (hlinks : CyclicList.Holds s.next s.prev ring) (hcurr : s.curr = ring.head?)
    (hidle : q ∉ ring) :
    CyclicList.Holds (s.activate q).next (s.activate q).prev (ring ++ [q]) ∧
      (s.activate q).curr = (ring ++ [q]).head? := by
  unfold Drr.activate
  cases ring with
  | nil =>
    rw [hcurr]
    exact ⟨CyclicList.holds_single (update_self ..) (update_self ..), rfl⟩
  | cons c t =>
    have hcq : c ≠ q := fun heq => hidle (heq ▸ mem_cons_self)
    rw [hcurr]
    simp only [head?_cons, update_of_ne hcq]
    exact ⟨hlinks.insert hidle, rfl⟩

theorem Good.accept_idle (h : Good s max ring) (hidle : s.which pkt ∉ ring)
    (hsize : 1 ≤ pkt.size ∧ pkt.size ≤ max) :
    Good (s.accept pkt) max (ring ++ [s.which pkt]) ∧
      ∀ i j, i ∈ ring → j ∈ ring →
        owed i j (s.accept pkt) (ring ++ [s.which pkt]) = owed i j s ring := by
  have hempty : (s.drr (s.which pkt)).queue = [] := by
    by_contra hne
    exact hidle ((h.mem _).mpr hne)
  have hpkts : (s.drr (s.which pkt)).pkts + 1 = 1 := by
    rw [h.pkts, hempty]
    rfl
  have hturn : (s.drr (s.which pkt)).turn = false := by
    by_contra hne
    have hhead := (h.serving _ (Bool.eq_true_of_not_eq_false hne)).1
    exact hidle (mem_of_head? hhead)
  obtain ⟨hlinks, hcurr⟩ := activate_links h.links h.head hidle
  have hmem : ∀ f ∈ ring, f ≠ s.which pkt := fun f hf heq => hidle (heq ▸ hf)
  have hbuckets : (s.accept pkt).drr = Function.update s.drr (s.which pkt)
      { s.drr (s.which pkt) with
        src := if (s.drr (s.which pkt)).src = -1 then (hashed s.mask pkt.saddr).toInt
          else (s.drr (s.which pkt)).src
        queue := [pkt]
        pkts := 1
        bcount := (s.drr (s.which pkt)).bcount + pkt.size
        deficitCounter := 0 } := by
    unfold accept Drr.activate set
    simp only [hempty, hpkts, nil_append]
    cases s.curr <;> simp
  have hrest : (s.accept pkt).next = (s.activate (s.which pkt)).next ∧
      (s.accept pkt).prev = (s.activate (s.which pkt)).prev ∧
      (s.accept pkt).curr = (s.activate (s.which pkt)).curr ∧
      (s.accept pkt).flwcnt = s.flwcnt + 1 ∧ (s.accept pkt).bytecnt = s.bytecnt + pkt.size ∧
      SameConfig s (s.accept pkt) := by
    unfold accept Drr.activate set
    simp only [if_pos hpkts]
    cases s.curr <;> simp [SameConfig]
  obtain ⟨hnext, hprev, hcurr', hflw, hbytes, hconfig⟩ := hrest
  -- from here on only these facts about the new state are used
  generalize s.accept pkt = s' at *
  have hother : ∀ f, f ≠ s.which pkt → s'.drr f = s.drr f := by
    intro f hf
    rw [hbuckets, update_of_ne hf]
  have hnew : (s'.drr (s.which pkt)).queue = [pkt] ∧ (s'.drr (s.which pkt)).pkts = 1 ∧
      (s'.drr (s.which pkt)).deficitCounter = 0 ∧ (s'.drr (s.which pkt)).turn = false := by
    rw [hbuckets, update_self]
    exact ⟨rfl, rfl, rfl, hturn⟩
  constructor
  · constructor
    · rw [hnext, hprev]
      exact hlinks
    · rw [hcurr', hcurr]
    · intro f
      rw [mem_append, mem_singleton]
      by_cases hf : f = s.which pkt
      · simp [hf, hnew.1]
      · rw [hother f hf, h.mem]
        simp [hf]
    · intro f
      by_cases hf : f = s.which pkt
      · rw [hf, hnew.1, hnew.2.1]
        rfl
      · rw [hother f hf]
        exact h.pkts f
    · rw [hflw, h.flows, length_append, length_singleton]
    · have hold : ring.map s'.queueBytes = ring.map s.queueBytes := by
        apply map_congr_left
        intro f hf
        unfold queueBytes
        rw [hother f (hmem f hf)]
      rw [hbytes, h.bytes, map_append, sum_append, hold]
      simp [queueBytes, hnew.1]
    · intro f p hp
      rw [hconfig.which]
      by_cases hf : f = s.which pkt
      · rw [hf, hnew.1, mem_singleton] at hp
        rw [hf, hp]
        exact ⟨hsize.1, hsize.2, rfl⟩
      · rw [hother f hf] at hp
        exact h.sizes f p hp
    · intro f hf ht
      by_cases hfq : f = s.which pkt
      · rw [hfq, hnew.2.2.1]
        omega
      · rw [hother f hfq] at ht ⊢
        refine h.waiting f ?_ ht
        exact (mem_append.mp hf).resolve_right (by simpa using hfq)
    · intro f ht
      by_cases hfq : f = s.which pkt
      · rw [hfq, hnew.2.2.2] at ht
        cases ht
      · rw [hother f hfq] at ht ⊢
        obtain ⟨hhead, hdeficit⟩ := h.serving f ht
        rw [hconfig.1]
        refine ⟨?_, hdeficit⟩
        rw [head?_append, hhead]
        rfl
  · intro i j hi hj
    refine owed_congr hconfig.1 ?_ ?_ (leads_append (Or.inl hi) _)
    · rw [hother i (hmem i hi)]
      exact ⟨rfl, rfl⟩
    · rw [hother j (hmem j hj)]
      exact ⟨rfl, rfl⟩

/-- **Arrivals**: without a drop the invariant is kept, and what is owed between other buckets. -/
theorem Good.enque (h : Good s max ring) (hindex : InRange s.buckets (s.index pkt.saddr))
    (hsize : 1 ≤ pkt.size ∧ pkt.size ≤ max)
    (hroom : (s.bytecnt : ℤ) + pkt.size ≤ s.blimit) :
    ∃ s' ring', s.enque pkt = some (s', []) ∧ Good s' max ring' ∧ SameConfig s s' ∧
      ∀ i j, i ∈ ring → j ∈ ring → i ∈ ring' ∧ j ∈ ring' ∧ owed i j s' ring' = owed i j s ring := by
  have hconfig : SameConfig s (s.accept pkt) ∧ (s.accept pkt).bytecnt = s.bytecnt + pkt.size := by
    unfold accept Drr.activate set
    simp only
    split
    · cases s.curr <;> exact ⟨⟨rfl, rfl, rfl, rfl⟩, rfl⟩
    · exact ⟨⟨rfl, rfl, rfl, rfl⟩, rfl⟩
  have hrun : s.enque pkt = some (s.accept pkt, []) := by
    unfold Drr.enque dropLoop
    rw [if_pos hindex, if_neg]
    rw [hconfig.1.2.1, hconfig.2]
    push_cast
    omega
  by_cases hbusy : s.which pkt ∈ ring
  · obtain ⟨hgood, howed⟩ := h.accept_busy hbusy hsize
    exact ⟨_, ring, hrun, hgood, hconfig.1, fun i j hi hj => ⟨hi, hj, howed i j⟩⟩
  · obtain ⟨hgood, howed⟩ := h.accept_idle hbusy hsize
    exact ⟨_, ring ++ [s.which pkt], hrun, hgood, hconfig.1, fun i j hi hj =>
      ⟨mem_append_left _ hi, mem_append_left _ hj, howed i j hi hj⟩⟩

/-! ## Departures -/

theorem Good.grant (h : Good s max (c :: t)) :
    Good (s.grant c) max (c :: t) ∧ ((s.grant c).drr c).turn = true ∧
      ∀ i j, i ≠ j → owed i j (s.grant c) (c :: t) = owed i j s (c :: t) := by
  unfold Drr.grant
  simp only
  by_cases hturn : (s.drr c).turn = true
  · rw [if_pos hturn]
    exact ⟨h, hturn, fun _ _ _ => rfl⟩
  rw [if_neg hturn]
  have hoff : ∀ f, (s.drr f).turn = false := by
    intro f
    by_cases hf : f = c
    · rw [hf]
      exact Bool.eq_false_iff.mpr hturn
    · exact h.turn_of_ne hf
  refine ⟨?_, by rw [set_self], ?_⟩
  · have hwait := h.waiting c mem_cons_self (hoff c)
    refine @Good.update s max c (c :: t) h mem_cons_self _ s.bytecnt s.pktcnt
      ((h.mem c).mp mem_cons_self) (h.pkts c) rfl (h.sizes c) ?_ ?_
    · intro hfalse
      cases hfalse
    · exact fun _ => ⟨rfl, by simp only; omega⟩
  · intro i j hij
    by_cases hci : c = i
    · -- the quantum that was due to `i`
      subst hci
      unfold owed nextQuantum
      rw [set_self, set_of_ne (Ne.symm hij), if_pos rfl, hoff, hoff, if_neg Bool.false_ne_true,
        if_neg Bool.false_ne_true, if_pos leads_head]
      simp only [set]
      push_cast
      ring
    · by_cases hcj : c = j
      · subst hcj
        unfold owed nextQuantum
        rw [set_self, set_of_ne hij, if_pos rfl, hoff, hoff, if_neg Bool.false_ne_true,
          if_neg Bool.false_ne_true, if_neg Bool.false_ne_true, if_neg (not_leads_head hij)]
        simp only [set]
        push_cast
        ring
      · refine owed_congr rfl ?_ ?_ Iff.rfl
        · rw [set_of_ne (Ne.symm hci)]
          exact ⟨rfl, rfl⟩
        · rw [set_of_ne (Ne.symm hcj)]
          exact ⟨rfl, rfl⟩

theorem Good.rotate (h : Good s max (c :: t)) (hoff : ∀ f, (s.drr f).turn = false) :
    Good { s with curr := some (s.next c) } max (t ++ [c]) where
  links := h.links.rotate
  head := by
    cases t with
    | nil => exact congrArg some h.links.single.1
    | cons d t => exact congrArg some h.links.next_head.1
  mem f := by
    rw [mem_append, mem_singleton, ← h.mem f, mem_cons, or_comm]
  pkts := h.pkts
  flows := by
    have hflows := h.flows
    rw [length_append, length_singleton]
    exact hflows
  bytes := by
    have hbytes := h.bytes
    rw [map_append, sum_append, map_singleton, sum_singleton, Nat.add_comm]
    exact hbytes
  sizes := h.sizes
  waiting f hf ht := h.waiting f (by
    rcases mem_append.mp hf with hf | hf
    · exact mem_cons_of_mem c hf
    · rw [mem_singleton.mp hf]
      exact mem_cons_self) ht
  serving f ht := by
    rw [show ({ s with curr := some (s.next c) } : Drr).drr = s.drr from rfl, hoff f] at ht
    cases ht

theorem Good.pass (h : Good s max (c :: t)) (hturn : (s.drr c).turn = true)
    (hqueue : (s.drr c).queue = p :: rest) (hshort : (s.drr c).deficitCounter < p.size) :
    Good (s.pass c) max (t ++ [c]) ∧ (∀ f, ((s.pass c).drr f).turn = false) ∧
      ∀ i j, i ≠ j → i ∈ c :: t → j ∈ c :: t →
        owed i j (s.pass c) (t ++ [c]) = owed i j s (c :: t) := by
  have hnodup := nodup_cons.mp h.links.nodup
  have hsize := (h.sizes c p (by rw [hqueue]; exact mem_cons_self)).2.1
  have hended : Good (s.set c { s.drr c with turn := false }) max (c :: t) := by
    refine @Good.update s max c (c :: t) h mem_cons_self _ s.bytecnt s.pktcnt
      ((h.mem c).mp mem_cons_self) (h.pkts c) rfl (h.sizes c) ?_ ?_
    · intro _
      simp only
      omega
    · intro hfalse
      cases hfalse
  have hoff : ∀ f, ((s.set c { s.drr c with turn := false }).drr f).turn = false := by
    intro f
    by_cases hf : f = c
    · rw [hf, set_self]
    · rw [set_of_ne hf]
      exact h.turn_of_ne hf
  refine ⟨hended.rotate hoff, hoff, ?_⟩
  intro i j hij hi hj
  have hdeficit : ∀ f, ((s.pass c).drr f).deficitCounter = (s.drr f).deficitCounter := by
    intro f
    show ((s.set c { s.drr c with turn := false }).drr f).deficitCounter = _
    by_cases hf : f = c
    · rw [hf, set_self]
    · rw [set_of_ne hf]
  have hoff' : ∀ f, ((s.pass c).drr f).turn = false := hoff
  unfold owed nextQuantum
  rw [hdeficit, hdeficit, hoff', hoff', show (s.pass c).quantum = s.quantum from rfl,
    if_neg Bool.false_ne_true, if_neg Bool.false_ne_true]
  by_cases hci : c = i
  · -- `j` comes next
    subst hci
    have hjt : j ∈ t := (mem_cons.mp hj).resolve_left (Ne.symm hij)
    rw [if_pos hturn, if_neg]
    rw [leads_append (Or.inr hjt)]
    exact not_leads_of_not_mem hnodup.1
  · by_cases hcj : c = j
    · subst hcj
      have hit : i ∈ t := (mem_cons.mp hi).resolve_left hij
      rw [h.turn_of_ne hij, if_neg Bool.false_ne_true, if_pos hturn, if_pos]
      rw [leads_append (Or.inl hit)]
      exact leads_of_not_mem hnodup.1 hit
    · have hit : i ∈ t := (mem_cons.mp hi).resolve_left (Ne.symm hci)
      rw [h.turn_of_ne (Ne.symm hci), h.turn_of_ne (Ne.symm hcj), if_neg Bool.false_ne_true,
        if_neg Bool.false_ne_true]
      have hleads : leads i j (t ++ [c]) ↔ leads i j (c :: t) := by
        rw [leads_append (Or.inl hit), leads_cons hci hcj]
      simp only [hleads]

def bytesOf (s : Drr) (i : ℕ) (p : DrrPacket) : ℕ := if s.which p = i then p.size else 0

theorem Good.send_more (h : Good s max (c :: t)) (hturn : (s.drr c).turn = true)
    (hqueue : (s.drr c).queue = p :: rest) (hmore : rest ≠ [])
    (henough : p.size ≤ (s.drr c).deficitCounter) :
    Good (s.send c p rest) max (c :: t) ∧
      ∀ i j, owed i j (s.send c p rest) (c :: t) + s.bytesOf i p - s.bytesOf j p =
        owed i j s (c :: t) := by
  have hp : p ∈ (s.drr c).queue := by
    rw [hqueue]
    exact mem_cons_self
  have hwhich := (h.sizes c p hp).2.2
  have hle := h.size_le mem_cons_self hp
  have hpkts := h.pkts c
  have hlen := length_pos_iff.mpr hmore
  rw [hqueue, length_cons] at hpkts
  unfold send
  simp only
  rw [if_neg (by omega)]
  constructor
  · refine h.update mem_cons_self hmore (by simp only; omega) ?_ ?_ ?_ ?_
    · unfold queueBytes
      rw [hqueue, map_cons, sum_cons]
      simp only
      omega
    · intro r hr
      refine h.sizes c r ?_
      rw [hqueue]
      exact mem_cons_of_mem p hr
    · intro hfalse
      rw [hturn] at hfalse
      cases hfalse
    · intro _
      have hserve := (h.serving c hturn).2
      exact ⟨rfl, by simp only; omega⟩
  · intro i j
    have hsame : ∀ {b : PacketDRR} (f : ℕ), b.turn = (s.drr c).turn →
        b.deficitCounter = (s.drr c).deficitCounter - p.size →
        ((s.set c b).drr f).turn = (s.drr f).turn ∧
          (((s.set c b).drr f).deficitCounter : ℤ) = (s.drr f).deficitCounter - s.bytesOf f p := by
      intro b f hbt hbd
      unfold bytesOf
      by_cases hf : f = c
      · subst hf
        rw [set_self, if_pos hwhich]
        exact ⟨hbt, by omega⟩
      · rw [set_of_ne hf, if_neg (by rw [hwhich]; exact Ne.symm hf)]
        exact ⟨rfl, by simp⟩
    apply owed_sub
    · rfl
    · apply hsame <;> rfl
    · apply hsame <;> rfl

theorem idle_links (hlinks : CyclicList.Holds s.next s.prev (c :: t)) :
    CyclicList.Holds (s.idle c c).next (s.idle c c).prev t ∧ (s.idle c c).curr = t.head? := by
  unfold Drr.idle
  rw [if_pos rfl]
  cases t with
  | nil =>
    rw [if_pos hlinks.single.1]
    exact ⟨trivial, rfl⟩
  | cons d t =>
    have hne := hlinks.next_ne
    have hpc : s.prev c ≠ c := by
      intro heq
      have hlast := hlinks.prev_head
      rw [heq, getLast_cons (cons_ne_nil d t)] at hlast
      exact (nodup_cons.mp hlinks.1).1 (hlast ▸ getLast_mem _)
    rw [if_neg hne]
    simp only [update_of_ne (Ne.symm hne), update_of_ne (Ne.symm hpc)]
    exact ⟨hlinks.remove, congrArg some hlinks.next_head.1⟩

theorem Good.send_last (h : Good s max (c :: t)) (hqueue : (s.drr c).queue = [p]) :
    Good (s.send c p []) max t ∧
      ∀ i j, i ∈ t → j ∈ t → owed i j (s.send c p []) t + s.bytesOf i p - s.bytesOf j p =
        owed i j s (c :: t) := by
  have hp : p ∈ (s.drr c).queue := by
    rw [hqueue]
    exact mem_cons_self
  have hwhich := (h.sizes c p hp).2.2
  have hnodup := nodup_cons.mp h.links.nodup
  have hpkts : (s.drr c).pkts - 1 = 0 := by
    rw [h.pkts, hqueue]
    rfl
  obtain ⟨hlinks, hcurr⟩ := idle_links h.links
  have hbuckets : (s.send c p []).drr = Function.update s.drr c
      { s.drr c with
        deficitCounter := 0
        queue := []
        bcount := (s.drr c).bcount - p.size
        pkts := 0
        turn := false } := by
    unfold send Drr.idle set
    simp only [hpkts, if_true]
    split <;> simp
  have hrest : (s.send c p []).next = (s.idle c c).next ∧ (s.send c p []).prev = (s.idle c c).prev ∧
      (s.send c p []).curr = (s.idle c c).curr ∧ (s.send c p []).flwcnt = s.flwcnt - 1 ∧
      (s.send c p []).bytecnt = s.bytecnt - p.size ∧ SameConfig s (s.send c p []) := by
    unfold send Drr.idle set
    simp only [hpkts, if_true]
    split <;> simp [SameConfig]
  obtain ⟨hnext, hprev, hcurr', hflw, hbytes, hconfig⟩ := hrest
  generalize s.send c p [] = s' at *
  have hother : ∀ f, f ≠ c → s'.drr f = s.drr f := by
    intro f hf
    rw [hbuckets, update_of_ne hf]
  have hgone : (s'.drr c).queue = [] ∧ (s'.drr c).pkts = 0 ∧ (s'.drr c).turn = false := by
    rw [hbuckets, update_self]
    exact ⟨rfl, rfl, rfl⟩
  have hmem : ∀ f ∈ t, f ≠ c := fun f hf heq => hnodup.1 (heq ▸ hf)
  constructor
  · constructor
    · rw [hnext, hprev]
      exact hlinks
    · rw [hcurr', hcurr]
    · intro f
      by_cases hf : f = c
      · rw [hf, hgone.1]
        simp [hnodup.1]
      · rw [hother f hf, ← h.mem f, mem_cons]
        simp [hf]
    · intro f
      by_cases hf : f = c
      · rw [hf, hgone.1, hgone.2.1]
        rfl
      · rw [hother f hf]
        exact h.pkts f
    · rw [hflw, h.flows, length_cons, Nat.add_sub_cancel]
    · have hold : t.map s'.queueBytes = t.map s.queueBytes := by
        apply map_congr_left
        intro f hf
        unfold queueBytes
        rw [hother f (hmem f hf)]
      have hqueueBytes : s.queueBytes c = p.size := by
        unfold queueBytes
        rw [hqueue]
        simp
      rw [hbytes, h.bytes, map_cons, sum_cons, hold, hqueueBytes, Nat.add_sub_cancel_left]
    · intro f r hr
      rw [hconfig.which]
      by_cases hf : f = c
      · rw [hf, hgone.1] at hr
        cases hr
      · rw [hother f hf] at hr
        exact h.sizes f r hr
    · intro f hf ht
      rw [hother f (hmem f hf)] at ht ⊢
      exact h.waiting f (mem_cons_of_mem c hf) ht
    · intro f ht
      by_cases hf : f = c
      · rw [hf, hgone.2.2] at ht
        cases ht
      · rw [hother f hf, h.turn_of_ne hf] at ht
        cases ht
  · intro i j hi hj
    have hsame := @owed_congr s s' i j (c :: t) t hconfig.1
      (by rw [hother i (hmem i hi)]; exact ⟨rfl, rfl⟩)
      (by rw [hother j (hmem j hj)]; exact ⟨rfl, rfl⟩)
      (leads_cons (Ne.symm (hmem i hi)) (Ne.symm (hmem j hj))).symm
    unfold bytesOf
    rw [hsame, hwhich, if_neg (Ne.symm (hmem i hi)), if_neg (Ne.symm (hmem j hj))]
    simp

/-- How much the counters of the circle may still grow. -/
def slack (s : Drr) (ring : List ℕ) : ℕ :=
  (ring.map (fun f => s.bytecnt - (s.drr f).deficitCounter)).sum

theorem grant_queue : ((s.grant c).drr c).queue = (s.drr c).queue := by
  unfold Drr.grant
  simp only
  split
  · rfl
  · rw [set_self]

theorem grant_config : SameConfig s (s.grant c) ∧ (s.grant c).bytecnt = s.bytecnt ∧
    (s.grant c).curr = s.curr := by
  unfold Drr.grant
  simp only
  split <;> exact ⟨⟨rfl, rfl, rfl, rfl⟩, rfl, rfl⟩

theorem slack_pass : slack (s.pass c) (t ++ [c]) = slack s (c :: t) := by
  have hsame : ∀ f, ((s.pass c).drr f).deficitCounter = (s.drr f).deficitCounter := by
    intro f
    show ((s.set c { s.drr c with turn := false }).drr f).deficitCounter = _
    by_cases hf : f = c
    · rw [hf, set_self]
    · rw [set_of_ne hf]
  have hbytes : (s.pass c).bytecnt = s.bytecnt := rfl
  unfold slack
  simp only [hsame, hbytes]
  rw [map_append, sum_append, map_cons, sum_cons]
  simp [Nat.add_comm]

theorem Good.slack_grant (h : Good s max (c :: t)) (hquantum : 0 < s.quantum)
    (hturn : (s.drr c).turn = false) (hp : p ∈ (s.drr c).queue)
    (hshort : ((s.grant c).drr c).deficitCounter < p.size) :
    slack (s.grant c) (c :: t) + 1 ≤ slack s (c :: t) := by
  have hle := h.size_le mem_cons_self hp
  have hnodup := nodup_cons.mp h.links.nodup
  have hgrant : s.grant c =
      s.set c { s.drr c with deficitCounter := (s.drr c).deficitCounter + s.quantum, turn := true } := by
    unfold Drr.grant
    simp only
    rw [if_neg (by simp [hturn])]
  rw [hgrant] at hshort ⊢
  rw [set_self] at hshort
  unfold slack
  have hrest : ∀ f ∈ t, (s.set c { s.drr c with
      deficitCounter := (s.drr c).deficitCounter + s.quantum, turn := true }).bytecnt -
      ((s.set c { s.drr c with
        deficitCounter := (s.drr c).deficitCounter + s.quantum, turn := true }).drr f).deficitCounter =
      s.bytecnt - (s.drr f).deficitCounter := by
    intro f hf
    rw [set_of_ne (by rintro rfl; exact hnodup.1 hf)]
    rfl
  rw [map_cons, sum_cons, map_cons, sum_cons, map_congr_left hrest, set_self]
  simp only [set] at hshort ⊢
  omega

def Departs (s s' : Drr) (max : ℕ) (ring : List ℕ) (p : DrrPacket) : Prop :=
  ∃ ring', Good s' max ring' ∧ SameConfig s s' ∧
    ∀ i j, i ≠ j → i ∈ ring' → j ∈ ring' → i ∈ ring ∧ j ∈ ring ∧
      owed i j s' ring' + s.bytesOf i p - s.bytesOf j p = owed i j s ring

theorem Good.send (h : Good s max (c :: t)) (hturn : (s.drr c).turn = true)
    (hqueue : (s.drr c).queue = p :: rest) (henough : p.size ≤ (s.drr c).deficitCounter) :
    Departs s (s.send c p rest) max (c :: t) p := by
  have hconfig : SameConfig s (s.send c p rest) := by
    unfold Drr.send Drr.idle set
    simp only [if_true]
    split
    · split <;> simp [SameConfig]
    · exact ⟨rfl, rfl, rfl, rfl⟩
  cases rest with
  | nil =>
    obtain ⟨hgood, howed⟩ := h.send_last hqueue
    exact ⟨t, hgood, hconfig, fun i j _ hi hj =>
      ⟨mem_cons_of_mem c hi, mem_cons_of_mem c hj, howed i j hi hj⟩⟩
  | cons r rest =>
    obtain ⟨hgood, howed⟩ := h.send_more hturn hqueue (cons_ne_nil r rest) henough
    exact ⟨c :: t, hgood, hconfig, fun i j _ hi hj => ⟨hi, hj, howed i j⟩⟩

theorem Good.dequeLoop (h : Good s max (c :: t)) (hquantum : 0 < s.quantum)
    (hfuel : slack s (c :: t) + (if (s.drr c).turn then 1 else 0) < fuel) :
    ∃ s' p, Drr.dequeLoop fuel s = some (s', p) ∧ Departs s s' max (c :: t) p := by
  induction fuel generalizing s c t with
  | zero => omega
  | succ fuel ih =>
    obtain ⟨hgood, hturn, howed⟩ := h.grant
    obtain ⟨hconfig, hbytes, -⟩ := @grant_config s c
    have hne := (h.mem c).mp mem_cons_self
    obtain ⟨p, rest, hqueue⟩ := exists_cons_of_ne_nil hne
    have hqueue' : ((s.grant c).drr c).queue = p :: rest := grant_queue.trans hqueue
    have hbytesOf : ∀ i r, (s.grant c).bytesOf i r = s.bytesOf i r := by
      intro i r
      unfold bytesOf
      rw [hconfig.which]
    unfold Drr.dequeLoop
    rw [h.head, head?_cons, Option.bind_some]
    simp only [hqueue']
    by_cases henough : p.size ≤ ((s.grant c).drr c).deficitCounter
    · rw [if_pos henough]
      obtain ⟨ring', hgood', hconfig', hall⟩ := hgood.send hturn hqueue' henough
      refine ⟨_, p, rfl, ring', hgood', hconfig.trans hconfig', ?_⟩
      intro i j hij hi hj
      obtain ⟨hi', hj', heq⟩ := hall i j hij hi hj
      rw [hbytesOf, hbytesOf, howed i j hij] at heq
      exact ⟨hi', hj', heq⟩
    · rw [if_neg henough]
      obtain ⟨hpass, hoff, howed'⟩ := hgood.pass hturn hqueue' (Nat.not_le.mp henough)
      have hconfig' : SameConfig (s.grant c) ((s.grant c).pass c) := ⟨rfl, rfl, rfl, rfl⟩
      -- the slack pays for the round
      have hslack : slack (s.grant c) (c :: t) < fuel := by
        by_cases hold : (s.drr c).turn = true
        · have hsame : s.grant c = s := by
            unfold Drr.grant
            simp only
            rw [if_pos hold]
          rw [hsame]
          rw [if_pos hold] at hfuel
          omega
        · have hless := h.slack_grant hquantum (Bool.eq_false_iff.mpr hold)
            (by rw [hqueue]; exact mem_cons_self) (Nat.not_le.mp henough)
          omega
      obtain ⟨d, u, hdu⟩ := exists_cons_of_ne_nil (show t ++ [c] ≠ [] by simp)
      have hmem : ∀ i, i ∈ d :: u → i ∈ c :: t := by
        intro i hi
        rw [← hdu] at hi
        rcases mem_append.mp hi with hi | hi
        · exact mem_cons_of_mem c hi
        · rw [mem_singleton.mp hi]
          exact mem_cons_self
      have hfuel' : slack ((s.grant c).pass c) (d :: u) +
          (if (((s.grant c).pass c).drr d).turn then 1 else 0) < fuel := by
        rw [hoff, ← hdu, slack_pass]
        simpa using hslack
      rw [hdu] at hpass howed'
      obtain ⟨s', r, hrun, ring', hgood', hconfig'', hall⟩ :=
        ih hpass (by rw [hconfig'.1, hconfig.1]; exact hquantum) hfuel'
      refine ⟨s', r, hrun, ring', hgood', (hconfig.trans hconfig').trans hconfig'', ?_⟩
      intro i j hij hi hj
      obtain ⟨hi', hj', heq⟩ := hall i j hij hi hj
      have hi'' := hmem i hi'
      have hj'' := hmem j hj'
      have hb : ∀ i, ((s.grant c).pass c).bytesOf i r = s.bytesOf i r := fun i => hbytesOf i r
      rw [hb, hb, howed' i j hij hi'' hj'', howed i j hij] at heq
      exact ⟨hi'', hj'', heq⟩

/-- **A `deque` of a scheduler that is not empty** returns a packet. -/
theorem Good.deque (h : Good s max (c :: t)) (hquantum : 0 < s.quantum) :
    ∃ s' p, s.deque = some (s', some p) ∧ Departs s s' max (c :: t) p := by
  have hne := (h.mem c).mp mem_cons_self
  obtain ⟨p, rest, hqueue⟩ := exists_cons_of_ne_nil hne
  have hp : p ∈ (s.drr c).queue := by
    rw [hqueue]
    exact mem_cons_self
  have hbytes : 1 ≤ s.bytecnt := (h.sizes c p hp).1.trans (h.size_le mem_cons_self hp)
  -- no counter is missing more than all bytes
  have hslack : slack s (c :: t) ≤ s.flwcnt * s.bytecnt := by
    rw [h.flows]
    unfold slack
    have hle := sum_le_card_nsmul
      ((c :: t).map (fun f => s.bytecnt - (s.drr f).deficitCounter)) s.bytecnt (by
        intro x hx
        obtain ⟨f, -, rfl⟩ := mem_map.mp hx
        exact Nat.sub_le _ _)
    rwa [length_map, nsmul_eq_mul, Nat.cast_id] at hle
  have hfuel : slack s (c :: t) + (if (s.drr c).turn then 1 else 0) <
      s.flwcnt * s.bytecnt + 2 := by
    split <;> omega
  obtain ⟨s', r, hrun, hdeparts⟩ := h.dequeLoop hquantum hfuel
  refine ⟨s', r, ?_, hdeparts⟩
  unfold Drr.deque
  rw [if_neg (by omega), hrun]
  rfl

theorem Good.deque_empty (h : Good s max []) : s.deque = some (s, none) := by
  have hbytes : s.bytecnt = 0 := h.bytes
  unfold Drr.deque
  rw [if_pos hbytes]

/-! ## Runs -/

/-- An arrival brings a packet of 1 to `max` bytes, and there is room for it: no packet is dropped. -/
def Allowed (max : ℕ) (s : Drr) : Event → Prop
  | .enque pkt => (1 ≤ pkt.size ∧ pkt.size ≤ max) ∧ (s.bytecnt : ℤ) + pkt.size ≤ s.blimit
  | .deque => True

/-- The packet that arrives is hashed to one of the buckets. -/
def Indexed (s : Drr) : Event → Prop
  | .enque pkt => InRange s.buckets (s.index pkt.saddr)
  | .deque => True

instance (max : ℕ) (s : Drr) : (e : Event) → Decidable (Allowed max s e)
  | .enque _ => inferInstanceAs (Decidable ((_ ∧ _) ∧ _))
  | .deque => inferInstanceAs (Decidable True)

instance (s : Drr) : (e : Event) → Decidable (Indexed s e)
  | .enque pkt => inferInstanceAs (Decidable (InRange s.buckets (s.index pkt.saddr)))
  | .deque => inferInstanceAs (Decidable True)

/-- The buckets `i` and `j` are not empty now nor after any of the events. -/
def Busy (i j : ℕ) : Drr → List Event → Prop
  | s, [] => (s.drr i).queue ≠ [] ∧ (s.drr j).queue ≠ []
  | s, e :: es =>
    ((s.drr i).queue ≠ [] ∧ (s.drr j).queue ≠ []) ∧ ∀ r, s.step e = some r → Busy i j r.1 es

theorem Busy.now {es : List Event} (h : Busy i j s es) :
    (s.drr i).queue ≠ [] ∧ (s.drr j).queue ≠ [] := by
  cases es with
  | nil => exact h
  | cons e es => exact h.1

def sentBytes (s : Drr) (i : ℕ) : List Outcome → ℕ
  | [] => 0
  | .sent (some p) :: outs => s.bytesOf i p + sentBytes s i outs
  | _ :: outs => sentBytes s i outs

theorem SameConfig.sentBytes (h : SameConfig s s') (i : ℕ) (outs : List Outcome) :
    s'.sentBytes i outs = s.sentBytes i outs := by
  have hbytes : ∀ p, s'.bytesOf i p = s.bytesOf i p := by
    intro p
    unfold bytesOf
    rw [h.which]
  induction outs with
  | nil => rfl
  | cons o outs ih =>
    match o with
    | .dropped _ => exact ih
    | .sent none => exact ih
    | .sent (some p) =>
      show s'.bytesOf i p + s'.sentBytes i outs = s.bytesOf i p + s.sentBytes i outs
      rw [ih, hbytes]

/-- **A step** keeps the invariant, and what leaves is taken from what is owed. -/
theorem Good.step {e : Event} (h : Good s max ring) (hquantum : 0 < s.quantum)
    (hok : Allowed max s e ∧ Indexed s e) :
    ∃ s' o ring', s.step e = some (s', o) ∧ Good s' max ring' ∧ SameConfig s s' ∧
      ∀ i j, i ≠ j → i ∈ ring → j ∈ ring → i ∈ ring' → j ∈ ring' →
        owed i j s' ring' + s.sentBytes i [o] - s.sentBytes j [o] = owed i j s ring := by
  cases e with
  | enque pkt =>
    obtain ⟨s', ring', hrun, hgood, hconfig, howed⟩ :=
      h.enque hok.2 hok.1.1 hok.1.2
    refine ⟨s', .dropped [], ring', ?_, hgood, hconfig, ?_⟩
    · rw [Drr.step, hrun]
      rfl
    · intro i j _ hi hj _ _
      have heq := (howed i j hi hj).2.2
      simpa [Drr.sentBytes] using heq
  | deque =>
    cases ring with
    | nil =>
      refine ⟨s, .sent none, [], ?_, h, ⟨rfl, rfl, rfl, rfl⟩, ?_⟩
      · rw [Drr.step, h.deque_empty]
        rfl
      · intro i j _ hi
        cases hi
    | cons c t =>
      obtain ⟨s', p, hrun, ring', hgood, hconfig, howed⟩ := h.deque hquantum
      refine ⟨s', .sent (some p), ring', ?_, hgood, hconfig, ?_⟩
      · rw [Drr.step, hrun]
        rfl
      · intro i j hij _ _ hi hj
        have heq := (howed i j hij hi hj).2.2
        simpa [Drr.sentBytes] using heq

/-- **An interval** in which both buckets are busy: what leaves is taken from what is owed. -/
theorem Good.busy_run {es : List Event} (h : Good s max ring) (hquantum : 0 < s.quantum)
    (hok : Runs.Meets Drr.step (fun s e => Allowed max s e ∧ Indexed s e) s es) (hij : i ≠ j) (hbusy : Busy i j s es) :
    ∃ s' outs ring', Runs.run Drr.step s es = some (s', outs) ∧ Good s' max ring' ∧
      SameConfig s s' ∧ i ∈ ring' ∧ j ∈ ring' ∧
      owed i j s' ring' + s.sentBytes i outs - s.sentBytes j outs = owed i j s ring := by
  induction es generalizing s ring with
  | nil =>
    refine ⟨s, [], ring, rfl, h, ⟨rfl, rfl, rfl, rfl⟩, (h.mem i).mpr hbusy.1,
      (h.mem j).mpr hbusy.2, ?_⟩
    simp [Drr.sentBytes]
  | cons e es ih =>
    obtain ⟨s₁, o, ring₁, hstep, hgood, hconfig, howed⟩ := h.step hquantum hok.1
    have hbusy₁ := hbusy.2 _ hstep
    obtain ⟨s', outs, ring', hrun, hgood', hconfig', hi, hj, heq⟩ :=
      ih hgood (by rw [hconfig.1]; exact hquantum) (hok.2 _ hstep) hbusy₁
    refine ⟨s', o :: outs, ring', ?_, hgood', hconfig.trans hconfig', hi, hj, ?_⟩
    · rw [Runs.run_cons hstep, hrun]
      rfl
    · have hfirst := howed i j hij ((h.mem i).mpr hbusy.1.1) ((h.mem j).mpr hbusy.1.2)
        ((hgood.mem i).mpr hbusy₁.now.1) ((hgood.mem j).mpr hbusy₁.now.2)
      rw [hconfig.sentBytes, hconfig.sentBytes] at heq
      have hcons : ∀ i, s.sentBytes i (o :: outs) = s.sentBytes i [o] + s.sentBytes i outs := by
        intro i
        match o with
        | .dropped _ => simp [Drr.sentBytes]
        | .sent none => simp [Drr.sentBytes]
        | .sent (some p) => simp [Drr.sentBytes]
      rw [hcons, hcons]
      push_cast
      omega

end Drr

open Drr

end NetSim
