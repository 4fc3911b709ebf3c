import NetSim.Lib.IntervalGaps
import NetSim.Lib.Runs
import NetSim.Mcast.RcvBuffer

/-! # The receive buffer is the set of received packets

After any sequence of `add_pkt` calls the gaps are the maximal runs of the numbers that are missing, and
the counters count repeated and recovered packets (`rcvBuffer_refines`). A recovered packet takes one number
out of one gap (`Removes`): the first number of the first gap, the first number of a later one, or a last
or inner number of any gap.
-/

namespace NetSim

open Function List LinkedList IntervalList

namespace RcvBuffer

variable {b b' : RcvBuffer} {xs xs' l r : List ℕ} {g pg : ℕ} {i j : ℤ} {tnow : ℚ}

/-! ## The gaps -/

def block (b : RcvBuffer) (g : ℕ) : Block := ⟨b.start g, b.stop g + 1⟩

def blocks (b : RcvBuffer) (xs : List ℕ) : List Block := xs.map b.block

/-- The list consists of the gaps `xs`, and `maxpkt_` is in step with the first one. -/
structure GapsOk (b : RcvBuffer) (xs : List ℕ) : Prop where
  chain : Chain b.next b.gap xs
  tail : b.tail = xs.getLast?
  nodup : xs.Nodup
  alloc : ∀ a ∈ xs, a < b.allocated
  proper : Proper (b.blocks xs)
  lead : b.maxpkt + 1 = xs.head?.elim b.nextpkt b.start

theorem block_congr {a : ℕ} (hstart : b'.start a = b.start a) (hstop : b'.stop a = b.stop a) :
    b'.block a = b.block a := by
  unfold block
  rw [hstart, hstop]

theorem blocks_congr (h : ∀ a ∈ xs, b'.block a = b.block a) : b'.blocks xs = b.blocks xs :=
  map_congr_left h

theorem blocks_split : b.blocks (l ++ g :: r) = b.blocks l ++ b.block g :: b.blocks r := by
  unfold blocks
  rw [map_append, map_cons]

theorem blocks_update (hnd : (l ++ g :: r).Nodup) (h : ∀ a, a ≠ g → b'.block a = b.block a) :
    b'.blocks (l ++ g :: r) = b.blocks l ++ b'.block g :: b.blocks r := by
  obtain ⟨-, -, hgl, hgr, -⟩ := nodup_middle hnd
  rw [blocks_split, blocks_congr (fun a ha => h a (ne_of_mem_of_not_mem ha hgl)),
    blocks_congr (fun a ha => h a (ne_of_mem_of_not_mem ha hgr))]

theorem GapsOk.length_lt_fuel (h : GapsOk b xs) : xs.length < b.fuel := by
  have hsub : xs ⊆ List.range b.allocated := fun a ha => mem_range.mpr (h.alloc a ha)
  have hle := (subperm_of_subset h.nodup hsub).length_le
  rw [length_range] at hle
  unfold fuel
  omega

theorem inGap_iff : b.inGap i g = true ↔ (b.block g).start ≤ i ∧ i < (b.block g).stop := by
  unfold inGap block
  rw [decide_eq_true_iff]
  dsimp only
  omega

theorem covers_blocks : Covers (b.blocks xs) i ↔ ∃ a ∈ xs, b.inGap i a := by
  constructor
  · rintro ⟨c, hc, hin⟩
    obtain ⟨a, ha, rfl⟩ := mem_map.mp hc
    exact ⟨a, ha, inGap_iff.mpr hin⟩
  · rintro ⟨a, ha, hin⟩
    exact ⟨b.block a, mem_map.mpr ⟨a, ha, rfl⟩, inGap_iff.mp hin⟩

/-- **`exists_pkt`** finds the number below `nextpkt_` that is in no gap. -/
theorem existsPkt_iff (h : GapsOk b xs) :
    b.existsPkt i = true ↔ i ≤ b.maxpkt ∨ i < b.nextpkt ∧ ¬ Covers (b.blocks xs) i := by
  have hloop : ∀ (ys : List ℕ) (a : Option ℕ) (fuel : ℕ), Chain b.next a ys → ys.length < fuel →
      (b.notInGaps i fuel a = true ↔ ¬ ∃ g ∈ ys, b.inGap i g) := by
    intro ys
    induction ys with
    | nil =>
      intro a fuel hchain hfuel
      obtain ⟨fuel, rfl⟩ : ∃ k, fuel = k + 1 := ⟨fuel - 1, by omega⟩
      rw [hchain.head_eq, head?_nil, notInGaps]
      simp
    | cons x ys ih =>
      intro a fuel hchain hfuel
      obtain ⟨fuel, rfl⟩ : ∃ k, fuel = k + 1 := ⟨fuel - 1, by omega⟩
      rw [hchain.head_eq, head?_cons, notInGaps]
      by_cases hin : b.inGap i x
      · rw [if_pos hin]
        simp [hin]
      · rw [if_neg hin, ih _ fuel hchain.tail (by simpa using hfuel)]
        simp [hin]
  unfold existsPkt
  split
  · rename_i hle
    exact iff_of_true rfl (.inl hle)
  rename_i hle
  split
  · exact iff_of_false (by decide) (by omega)
  · rw [hloop xs b.gap b.fuel h.chain h.length_lt_fuel, covers_blocks]
    constructor
    · exact fun hno => .inr ⟨by omega, hno⟩
    · rintro (hle' | ⟨-, hno⟩)
      · exact absurd hle' hle
      · exact hno

/-! ## A number leaves a gap -/

/-- The gaps of `b'` are those of `b` without the number `i`; they keep their times. -/
structure Removes (b b' : RcvBuffer) (xs xs' : List ℕ) (i : ℤ) : Prop where
  gaps : GapsOk b' xs'
  without : Without (b.blocks xs) i (b'.blocks xs')
  nextpkt : b'.nextpkt = b.nextpkt
  times : ∀ a' ∈ xs', ∃ a ∈ xs, b'.time a' = b.time a ∧ b.start a ≤ b'.start a' ∧
    b'.stop a' ≤ b.stop a
  stats : (b'.pktsRecovered, b'.duplicates, b'.delaySum) = (b.pktsRecovered, b.duplicates, b.delaySum)

theorem Removes.intro {bs : List Block} (hwithout : Without (b.blocks xs) i bs)
    (hblocks : b'.blocks xs' = bs) (hchain : Chain b'.next b'.gap xs')
    (htail : b'.tail = xs'.getLast?) (hnd : xs'.Nodup) (halloc : ∀ a ∈ xs', a < b'.allocated)
    (hlead : b'.maxpkt + 1 = xs'.head?.elim b'.nextpkt b'.start) (hnext : b'.nextpkt = b.nextpkt)
    (htimes : ∀ a' ∈ xs', ∃ a ∈ xs, b'.time a' = b.time a ∧ b.start a ≤ b'.start a' ∧
      b'.stop a' ≤ b.stop a)
    (hstats : (b'.pktsRecovered, b'.duplicates, b'.delaySum) =
      (b.pktsRecovered, b.duplicates, b.delaySum)) : Removes b b' xs xs' i :=
  ⟨⟨hchain, htail, hnd, halloc, hblocks ▸ hwithout.proper, hlead⟩, hblocks ▸ hwithout, hnext, htimes,
    hstats⟩

theorem update_start_le (a : ℕ) : b.start a ≤ update b.start g (b.start g + 1) a := by
  rw [update_apply]
  split
  · rename_i heq
    rw [heq]
    omega
  · exact le_refl _

theorem GapsOk.advance (h : GapsOk b (g :: r)) :
    ∃ xs', Removes b (b.advance g) (g :: r) xs' (b.start g) := by
  obtain ⟨hgr, hnd⟩ := nodup_cons.mp h.nodup
  have hproper : Proper ([] ++ b.block g :: b.blocks r) := h.proper
  have hlead : b.maxpkt + 1 = b.start g := h.lead
  have hlt : b.start g < b.stop g + 1 := hproper.middle.1
  have hself : update b.start g (b.start g + 1) g = b.start g + 1 := update_self ..
  have hother : ∀ a ∈ r, update b.start g (b.start g + 1) a = b.start a := fun a ha =>
    update_of_ne (ne_of_mem_of_not_mem ha hgr) _ _
  have hchain := h.chain.tail
  unfold RcvBuffer.advance
  dsimp only
  split
  · -- the gap disappears
    have hwithout := hproper.without_only (x := b.start g) rfl (by unfold block; dsimp only; omega)
    cases r with
    | nil =>
      have hnext : b.next g = none := hchain
      rw [hnext]
      refine ⟨[], Removes.intro hwithout rfl rfl rfl nodup_nil ?_ ?_ rfl ?_ rfl⟩
      · exact fun a ha => absurd ha not_mem_nil
      · exact Int.sub_add_cancel _ _
      · exact fun a ha => absurd ha not_mem_nil
    | cons x r =>
      have hnext : b.next g = some x := hchain.head_eq
      rw [hnext] at hchain ⊢
      refine ⟨x :: r, Removes.intro hwithout ?_ hchain ?_ hnd ?_ ?_ rfl ?_ rfl⟩
      · refine blocks_congr (fun a ha => ?_)
        exact block_congr (hother a ha) rfl
      · exact h.tail.trans getLast?_cons_cons
      · exact fun a ha => h.alloc a (mem_cons_of_mem g ha)
      · exact Int.sub_add_cancel _ _
      · exact fun a ha => ⟨a, mem_cons_of_mem g ha, rfl, update_start_le a, le_refl _⟩
  · have hwithout := hproper.without_first (x := b.start g) rfl (by unfold block; dsimp only; omega)
    refine ⟨g :: r, Removes.intro hwithout ?_ h.chain h.tail h.nodup h.alloc ?_ rfl ?_ rfl⟩
    · refine (blocks_update (b := b) (l := []) h.nodup (fun a ha => ?_)).trans ?_
      · exact block_congr (update_of_ne ha _ _) rfl
      · unfold block
        dsimp only
        rw [hself]
        rfl
    · exact (congrArg (· + 1) hlead).trans hself.symm
    · exact fun a ha => ⟨a, ha, rfl, update_start_le a, le_refl _⟩

theorem GapsOk.dropFirst (h : GapsOk b (l ++ pg :: g :: r)) :
    ∃ xs', Removes b (b.dropFirst pg g) (l ++ pg :: g :: r) xs' (b.start g) := by
  have hsplit : l ++ pg :: g :: r = (l ++ [pg]) ++ g :: r := by simp
  have hnd : ((l ++ [pg]) ++ g :: r).Nodup := hsplit ▸ h.nodup
  have hproper : Proper (b.blocks (l ++ [pg]) ++ b.block g :: b.blocks r) := by
    rw [← blocks_split, ← hsplit]
    exact h.proper
  obtain ⟨-, -, hgl, hgr, -⟩ := nodup_middle hnd
  have hlt : b.start g < b.stop g + 1 := hproper.middle.1
  have hself : update b.start g (b.start g + 1) g = b.start g + 1 := update_self ..
  have hother : ∀ a ∈ (l ++ [pg]) ++ r, update b.start g (b.start g + 1) a = b.start a := by
    intro a ha
    refine update_of_ne (fun heq => ?_) _ _
    rcases mem_append.mp ha with ha | ha
    · exact hgl (heq ▸ ha)
    · exact hgr (heq ▸ ha)
  -- the first gap is another one
  have hhead : ∃ a ∈ l ++ [pg], ∀ t, (l ++ pg :: t).head? = some a := by
    cases l with
    | nil => exact ⟨pg, mem_cons_self, fun t => rfl⟩
    | cons a l => exact ⟨a, mem_cons_self, fun t => rfl⟩
  obtain ⟨a₀, ha₀, hhead⟩ := hhead
  have hlead : b.maxpkt + 1 = update b.start g (b.start g + 1) a₀ := by
    rw [h.lead, hhead, hother a₀ (mem_append_left r ha₀)]
    rfl
  unfold RcvBuffer.dropFirst
  dsimp only
  split
  · -- the gap disappears
    have hwithout := hproper.without_only (x := b.start g) rfl (by unfold block; dsimp only; omega)
    rw [← blocks_split, ← hsplit] at hwithout
    have hsub : ∀ a ∈ l ++ pg :: r, a ∈ l ++ pg :: g :: r := by
      intro a ha
      simp only [mem_append, mem_cons] at ha ⊢
      tauto
    refine ⟨l ++ pg :: r, Removes.intro hwithout ?_ ?_ ?_ ?_ ?_ ?_ rfl ?_ rfl⟩
    · have hsplit' : l ++ pg :: r = (l ++ [pg]) ++ r := by simp
      rw [hsplit']
      unfold blocks
      rw [map_append]
      refine congrArg₂ (· ++ ·) (map_congr_left (fun a ha => ?_))
        (map_congr_left (fun a ha => ?_))
      · exact block_congr (hother a (mem_append_left r ha)) rfl
      · exact block_congr (hother a (mem_append_right _ ha)) rfl
    · exact h.chain.removeAfter h.nodup (update_self ..)
        (fun x hx => update_of_ne hx _ _)
    · rw [h.tail]
      cases r with
      | nil =>
        simp
      | cons x r =>
        have hne : (l ++ pg :: g :: x :: r).getLast? ≠ some g := by
          intro heq
          have hlast : (x :: r).getLast? = some g := by simpa using heq
          exact hgr (mem_of_getLast? hlast)
        rw [if_neg hne]
        simp
    · exact h.nodup.sublist (List.Sublist.append_left ((sublist_cons_self g r).cons_cons pg) l)
    · exact fun a ha => h.alloc a (hsub a ha)
    · rw [hhead]
      exact hlead
    · exact fun a ha => ⟨a, hsub a ha, rfl, update_start_le a, le_refl _⟩
  · have hwithout := hproper.without_first (x := b.start g) rfl (by unfold block; dsimp only; omega)
    rw [← blocks_split, ← hsplit] at hwithout
    refine ⟨l ++ pg :: g :: r, Removes.intro hwithout ?_ h.chain h.tail h.nodup h.alloc ?_ rfl ?_ rfl⟩
    · rw [hsplit]
      refine (blocks_update (b := b) hnd (fun a ha => ?_)).trans ?_
      · exact block_congr (update_of_ne ha _ _) rfl
      · unfold block
        dsimp only
        rw [hself]
    · rw [hhead]
      exact hlead
    · exact fun a ha => ⟨a, ha, rfl, update_start_le a, le_refl _⟩

theorem GapsOk.nodup_new (h : GapsOk b (l ++ g :: r)) : (l ++ g :: b.allocated :: r).Nodup := by
  have hnew : b.allocated ∉ l ++ g :: r := fun hmem => lt_irrefl _ (h.alloc _ hmem)
  have hperm : (b.allocated :: (l ++ g :: r)).Perm (l ++ g :: b.allocated :: r) := by
    have hmid : (b.allocated :: ((l ++ [g]) ++ r)).Perm ((l ++ [g]) ++ b.allocated :: r) :=
      perm_middle.symm
    simpa using hmid
  exact hperm.nodup_iff.mp (nodup_cons.mpr ⟨hnew, h.nodup⟩)

/-- The gap keeps what is below the packet, and the new one has what is above it. -/
theorem GapsOk.blocks_upper (h : GapsOk b (l ++ g :: r)) (hstart : b'.start = update b.start b.allocated (i + 1))
    (hstop : b'.stop = update (update b.stop b.allocated (b.stop g)) g (i - 1)) :
    b'.blocks (l ++ g :: b.allocated :: r) =
      b.blocks l ++ ⟨b.start g, i⟩ :: ⟨i + 1, b.stop g + 1⟩ :: b.blocks r := by
  have hne : ∀ a ∈ l ++ g :: r, a ≠ b.allocated := fun a ha => ne_of_lt (h.alloc a ha)
  have hg : g ≠ b.allocated := hne g (by simp)
  obtain ⟨-, -, hgl, hgr, -⟩ := nodup_middle h.nodup
  have hold : ∀ a, a ∈ l ++ r → b'.block a = b.block a := by
    intro a ha
    have hag : a ≠ g := by
      rintro rfl
      exact (mem_append.mp ha).elim hgl hgr
    have haa : a ≠ b.allocated := hne a (by
      rcases mem_append.mp ha with ha | ha <;> simp [ha])
    refine block_congr ?_ ?_
    · rw [hstart, update_of_ne haa]
    · rw [hstop, update_of_ne hag, update_of_ne haa]
  rw [blocks_split]
  refine congrArg₂ (· ++ ·) (blocks_congr (fun a ha => ?_)) (congrArg₂ List.cons ?_
    (congrArg₂ List.cons ?_ (blocks_congr (fun a ha => ?_))))
  · exact hold a (mem_append_left r ha)
  · unfold block
    rw [hstart, hstop, update_self, update_of_ne hg, Int.sub_add_cancel]
  · unfold block
    rw [hstart, hstop, update_self, update_of_ne hg.symm, update_self]
  · exact hold a (mem_append_right l ha)

theorem GapsOk.shrink_last (h : GapsOk b (l ++ g :: r)) (hin : b.inGap i g) (hfirst : b.start g ≠ i)
    (hlast : b.stop g = i) : ∃ xs', Removes b (b.shrink g i) (l ++ g :: r) xs' i := by
  obtain ⟨hge, hlt⟩ := inGap_iff.mp hin
  change b.start g ≤ i at hge
  change i < b.stop g + 1 at hlt
  have hproper : Proper (b.blocks l ++ b.block g :: b.blocks r) := by
    rw [← blocks_split]
    exact h.proper
  unfold RcvBuffer.shrink
  rw [if_pos hlast]
  have hwithout := hproper.without_last (x := i) (lt_of_le_of_ne hge hfirst)
    (by unfold block; dsimp only; omega)
  rw [← blocks_split] at hwithout
  refine ⟨l ++ g :: r, Removes.intro hwithout ?_ h.chain h.tail h.nodup h.alloc h.lead rfl ?_ rfl⟩
  · refine (blocks_update (b := b) h.nodup (fun a ha => ?_)).trans ?_
    · exact block_congr rfl (update_of_ne ha _ _)
    · unfold block
      dsimp only
      rw [update_self, hlast, Int.sub_add_cancel]
  · refine fun a ha => ⟨a, ha, rfl, le_refl _, ?_⟩
    dsimp only
    rw [update_apply]
    split
    · rename_i heq
      rw [heq]
      omega
    · exact le_refl _

theorem GapsOk.shrink_middle (h : GapsOk b (l ++ g :: r)) (hin : b.inGap i g) (hfirst : b.start g ≠ i)
    (hlast : b.stop g ≠ i) : ∃ xs', Removes b (b.shrink g i) (l ++ g :: r) xs' i := by
  obtain ⟨hge, hlt⟩ := inGap_iff.mp hin
  change b.start g ≤ i at hge
  change i < b.stop g + 1 at hlt
  have hproper : Proper (b.blocks l ++ b.block g :: b.blocks r) := by
    rw [← blocks_split]
    exact h.proper
  obtain ⟨-, -, hgl, hgr, -⟩ := nodup_middle h.nodup
  unfold RcvBuffer.shrink
  rw [if_neg hlast]
  have hwithout := hproper.without_middle (x := i) (lt_of_le_of_ne hge hfirst)
    (by unfold block; dsimp only; omega)
  rw [← blocks_split] at hwithout
  have hne : ∀ a ∈ l ++ g :: r, a ≠ b.allocated := fun a ha => ne_of_lt (h.alloc a ha)
  have hnew : b.allocated ∉ l ++ g :: r := fun hmem => hne _ hmem rfl
  have hg : g ≠ b.allocated := hne g (by simp)
  have hmem : ∀ a ∈ l ++ g :: b.allocated :: r, a = b.allocated ∨ a ∈ l ++ g :: r := by
    intro a ha
    simp only [mem_append, mem_cons] at ha ⊢
    tauto
  refine ⟨l ++ g :: b.allocated :: r, Removes.intro hwithout (h.blocks_upper rfl rfl) ?_ ?_ h.nodup_new ?_ ?_ rfl ?_ rfl⟩
  · refine h.chain.insertAfter h.nodup hnew ?_ (update_self ..) (fun x hx hx' => ?_)
    · unfold newGap
      dsimp only
      rw [update_of_ne hg.symm, update_self, h.chain.next_eq]
    · unfold newGap
      dsimp only
      rw [update_of_ne hx, update_of_ne hx']
  · dsimp only
    rw [h.tail]
    cases r with
    | nil =>
      simp
    | cons x r =>
      have hne' : (l ++ g :: x :: r).getLast? ≠ some g := by
        intro heq
        have hlast' : (x :: r).getLast? = some g := by simpa using heq
        exact hgr (mem_of_getLast? hlast')
      rw [if_neg hne']
      simp
  · intro a ha
    rcases hmem a ha with rfl | ha
    · exact Nat.lt_succ_self _
    · exact Nat.lt_succ_of_lt (h.alloc a ha)
  · refine h.lead.trans ?_
    cases l with
    | nil =>
      change b.start g = update b.start b.allocated (i + 1) g
      rw [update_of_ne hg]
    | cons a l =>
      change b.start a = update b.start b.allocated (i + 1) a
      rw [update_of_ne (hne a (by simp))]
  · intro a ha
    by_cases hnewa : a = b.allocated
    · -- the new gap is the upper part of the old one
      subst hnewa
      refine ⟨g, by simp, ?_, ?_, ?_⟩
      · exact update_self ..
      · change b.start g ≤ update b.start b.allocated (i + 1) b.allocated
        rw [update_self]
        omega
      · change update (update b.stop b.allocated (b.stop g)) g (i - 1) b.allocated ≤ _
        rw [update_of_ne hg.symm, update_self]
    · have hold := (hmem a ha).resolve_left hnewa
      refine ⟨a, hold, ?_, ?_, ?_⟩
      · exact update_of_ne hnewa _ _
      · change b.start a ≤ update b.start b.allocated (i + 1) a
        rw [update_of_ne hnewa]
      · change update (update b.stop b.allocated (b.stop g)) g (i - 1) a ≤ b.stop a
        rw [update_apply]
        split
        · rename_i heq
          rw [heq]
          omega
        · rw [update_of_ne hnewa]

theorem GapsOk.shrink (h : GapsOk b (l ++ g :: r)) (hin : b.inGap i g) (hfirst : b.start g ≠ i) :
    ∃ xs', Removes b (b.shrink g i) (l ++ g :: r) xs' i := by
  by_cases hlast : b.stop g = i
  · exact h.shrink_last hin hfirst hlast
  · exact h.shrink_middle hin hfirst hlast

/-! ## A gap is opened -/

theorem GapsOk.openGap (h : GapsOk b xs) (hi : b.nextpkt < i)
    (hbelow : ∀ c ∈ b.blocks xs, c.stop < b.nextpkt) (tnow : ℚ) :
    ∃ b', b.openGap i tnow = some b' ∧ GapsOk b' (xs ++ [b.allocated]) ∧
      b'.blocks (xs ++ [b.allocated]) = b.blocks xs ++ [⟨b.nextpkt, i⟩] ∧ b'.nextpkt = i + 1 ∧
      b'.time = update b.time b.allocated tnow ∧
      (b'.pktsRecovered, b'.duplicates, b'.delaySum) =
        (b.pktsRecovered, b.duplicates, b.delaySum) := by
  have hne : ∀ a ∈ xs, a ≠ b.allocated := fun a ha => ne_of_lt (h.alloc a ha)
  have hnew : b.allocated ∉ xs := fun hmem => hne _ hmem rfl
  have hnd : (xs ++ [b.allocated]).Nodup := by
    refine List.nodup_append.mpr ⟨h.nodup, nodup_singleton _, ?_⟩
    intro a ha c hc
    rw [mem_singleton.mp hc]
    exact hne a ha
  have halloc : ∀ a ∈ xs ++ [b.allocated], a < b.allocated + 1 := by
    intro a ha
    rcases mem_append.mp ha with ha | ha
    · exact Nat.lt_succ_of_lt (h.alloc a ha)
    · rw [mem_singleton.mp ha]
      exact Nat.lt_succ_self _
  have hproper : Proper (b.blocks xs ++ [⟨b.nextpkt, i⟩]) := h.proper.concat hi hbelow
  have hblocks : ∀ b' : RcvBuffer, b'.start = update b.start b.allocated b.nextpkt →
      b'.stop = update b.stop b.allocated (i - 1) →
      b'.blocks (xs ++ [b.allocated]) = b.blocks xs ++ [⟨b.nextpkt, i⟩] := by
    intro b' hstart hstop
    unfold blocks
    rw [map_append]
    refine congrArg₂ (· ++ ·) (map_congr_left (fun a ha => block_congr ?_ ?_)) ?_
    · rw [hstart, update_of_ne (hne a ha)]
    · rw [hstop, update_of_ne (hne a ha)]
    · unfold block
      rw [map_singleton, hstart, hstop, update_self, update_self,
        Int.sub_add_cancel]
  rcases eq_nil_or_concat xs with rfl | ⟨l, t, hlt⟩
  · have hgap : b.gap = none := h.chain
    unfold RcvBuffer.openGap
    rw [hgap]
    have hb := hblocks { b.newGap b.nextpkt (i - 1) tnow none with
      nextpkt := i + 1, gap := some b.allocated, tail := some b.allocated } rfl rfl
    refine ⟨_, rfl, ⟨⟨rfl, ?_⟩, rfl, hnd, halloc, ?_, ?_⟩, hb, rfl, rfl, rfl⟩
    · exact update_self ..
    · exact hb ▸ hproper
    · exact h.lead.trans (update_self b.allocated b.nextpkt b.start).symm
  · rw [concat_eq_append] at hlt
    subst hlt
    obtain ⟨g₀, hgap⟩ : ∃ g₀, b.gap = some g₀ := by
      rw [h.chain.head_eq]
      cases l <;> exact ⟨_, rfl⟩
    have htail : b.tail = some t := by
      rw [h.tail]
      simp
    have ht : t ≠ b.allocated := hne t (by simp)
    unfold RcvBuffer.openGap
    rw [hgap, htail]
    have hb := hblocks { b.newGap b.nextpkt (i - 1) tnow none with
      nextpkt := i + 1, tail := some b.allocated,
      next := update (b.newGap b.nextpkt (i - 1) tnow none).next t (some b.allocated) } rfl rfl
    refine ⟨_, rfl, ⟨?_, ?_, hnd, halloc, ?_, ?_⟩, hb, rfl, rfl, rfl⟩
    · have hinsert := @LinkedList.Chain.insertAfter _ (update (b.newGap b.nextpkt (i - 1) tnow none).next t (some b.allocated)) _ _ [] _ b.allocated h.chain h.nodup hnew ?_ (update_self ..) ?_
      · rw [append_assoc]
        exact hinsert
      · rw [update_of_ne ht.symm]
        exact update_self ..
      · intro x hx hx'
        rw [update_of_ne hx]
        exact update_of_ne hx' _ _
    · simp
    · exact hb ▸ hproper
    · refine h.lead.trans ?_
      cases l with
      | nil => exact (update_of_ne ht b.nextpkt b.start).symm
      | cons a l => exact (update_of_ne (hne a (by simp)) b.nextpkt b.start).symm

/-! ## The calls so far -/

/-- The packet `j` was received. -/
def Added (past : List (ℤ × ℚ)) (j : ℤ) : Prop := ∃ a ∈ past, a.1 = j

instance (past : List (ℤ × ℚ)) (j : ℤ) : Decidable (Added past j) :=
  inferInstanceAs (Decidable (∃ a ∈ past, a.1 = j))

/-- When it became known that the packet `j` is missing: the first time that a later one was received. -/
def detected (past : List (ℤ × ℚ)) (j : ℤ) : Option ℚ := (past.find? (fun a => j < a.1)).map (·.2)

def Recovers (past : List (ℤ × ℚ)) (a : ℤ × ℚ) : Prop := ¬ Added past a.1 ∧ ∃ c ∈ past, a.1 < c.1

instance (past : List (ℤ × ℚ)) (a : ℤ × ℚ) : Decidable (Recovers past a) :=
  inferInstanceAs (Decidable (_ ∧ _))

/-- Add up a value of each call, which depends on the calls before it. -/
def overCalls {M : Type} [AddMonoid M] (f : List (ℤ × ℚ) → ℤ × ℚ → M) :
    List (ℤ × ℚ) → List (ℤ × ℚ) → M
  | _, [] => 0
  | past, a :: rest => f past a + overCalls f (past ++ [a]) rest

theorem overCalls_concat {M : Type} [AddMonoid M] (f : List (ℤ × ℚ) → ℤ × ℚ → M)
    (past rest : List (ℤ × ℚ)) (a : ℤ × ℚ) :
    overCalls f past (rest ++ [a]) = overCalls f past rest + f (past ++ rest) a := by
  induction rest generalizing past with
  | nil => simp [overCalls]
  | cons c rest ih =>
    rw [cons_append, overCalls, ih, overCalls, add_assoc, append_assoc]
    rfl

def repeats (calls : List (ℤ × ℚ)) : ℤ := overCalls (fun past a => if Added past a.1 then 1 else 0) [] calls

def recoveries (calls : List (ℤ × ℚ)) : ℤ :=
  overCalls (fun past a => if Recovers past a then 1 else 0) [] calls

def delays (calls : List (ℤ × ℚ)) : ℚ :=
  overCalls (fun past a => if Recovers past a then a.2 - (detected past a.1).getD 0 else 0) [] calls

theorem added_concat {past : List (ℤ × ℚ)} {a : ℤ × ℚ} :
    Added (past ++ [a]) j ↔ Added past j ∨ j = a.1 := by
  constructor
  · rintro ⟨c, hc, rfl⟩
    rcases mem_append.mp hc with hc | hc
    · exact .inl ⟨c, hc, rfl⟩
    · rw [mem_singleton.mp hc]
      exact .inr rfl
  · rintro (⟨c, hc, rfl⟩ | rfl)
    · exact ⟨c, mem_append_left _ hc, rfl⟩
    · exact ⟨a, by simp, rfl⟩

theorem detected_concat {past : List (ℤ × ℚ)} {a : ℤ × ℚ} {t : ℚ} (h : detected past j = some t) :
    detected (past ++ [a]) j = some t := by
  unfold detected at h ⊢
  obtain ⟨c, hc, ht⟩ := Option.map_eq_some_iff.mp h
  rw [find?_append, hc]
  exact congrArg some ht

theorem detected_new {past : List (ℤ × ℚ)} {a : ℤ × ℚ} (hpast : ∀ c ∈ past, c.1 ≤ j) (ha : j < a.1) :
    detected (past ++ [a]) j = some a.2 := by
  unfold detected
  have hnone : past.find? (fun c => decide (j < c.1)) = none := by
    rw [find?_eq_none]
    intro c hc
    simpa using hpast c hc
  rw [find?_append, hnone, find?_cons_of_pos (by simpa using ha)]
  rfl

/-! ## Runs -/

/-- The buffer after the calls: its gaps are what is missing, since it was known to be. -/
structure Tracks (past : List (ℤ × ℚ)) (b : RcvBuffer) (xs : List ℕ) : Prop where
  gaps : GapsOk b xs
  covers : ∀ j, Covers (b.blocks xs) j ↔ 0 ≤ j ∧ j < b.nextpkt ∧ ¬ Added past j
  below : ∀ j, Added past j → 0 ≤ j ∧ j < b.nextpkt
  top : b.nextpkt = 0 ∨ 0 < b.nextpkt ∧ Added past (b.nextpkt - 1)
  times : ∀ a ∈ xs, ∀ j, b.start a ≤ j → j ≤ b.stop a → detected past j = some (b.time a)
  stats : (b.pktsRecovered, b.duplicates, b.delaySum) = (recoveries past, repeats past, delays past)

variable {past : List (ℤ × ℚ)}

theorem stats_concat (a : ℤ × ℚ) :
    (recoveries (past ++ [a]), repeats (past ++ [a]), delays (past ++ [a])) =
      (recoveries past + (if Recovers past a then 1 else 0),
        repeats past + (if Added past a.1 then 1 else 0),
        delays past + (if Recovers past a then a.2 - (detected past a.1).getD 0 else 0)) := by
  unfold recoveries repeats delays
  rw [overCalls_concat, overCalls_concat, overCalls_concat]
  rfl

/-- The number that `maxpkt_` stands for: everything up to it was received, and the next was not. -/
theorem Tracks.maxpkt_spec (h : Tracks past b xs) :
    -1 ≤ b.maxpkt ∧ b.maxpkt < b.nextpkt ∧ (∀ j, 0 ≤ j → j ≤ b.maxpkt → Added past j) ∧
      ¬ Added past (b.maxpkt + 1) := by
  have hlead := h.gaps.lead
  cases xs with
  | nil =>
    change b.maxpkt + 1 = b.nextpkt at hlead
    have hnext : 0 ≤ b.nextpkt := by
      rcases h.top with heq | ⟨hlt, -⟩ <;> omega
    refine ⟨by omega, by omega, fun j hj hle => ?_, fun hadd => ?_⟩
    · by_contra hno
      exact covers_nil ((h.covers j).mpr ⟨hj, by omega, hno⟩)
    · have hlt := (h.below _ hadd).2
      omega
  | cons g r =>
    change b.maxpkt + 1 = b.start g at hlead
    have hproper : Proper ([] ++ b.block g :: b.blocks r) := h.gaps.proper
    obtain ⟨hlt, -, -, -, hgap, -⟩ := hproper.middle
    have hcov : Covers (b.blocks (g :: r)) (b.start g) := ⟨b.block g, mem_cons_self, le_refl _, hlt⟩
    obtain ⟨hge, hnext, hno⟩ := (h.covers _).mp hcov
    refine ⟨by omega, by omega, fun j hj hle => ?_, fun hadd => hno (hlead ▸ hadd)⟩
    by_contra hno'
    -- everything below the first gap is in no gap
    obtain ⟨c, hc, hcj, -⟩ := (h.covers j).mpr ⟨hj, by omega, hno'⟩
    rcases mem_cons.mp hc with rfl | hc
    · change b.start g ≤ j at hcj
      omega
    · have hbehind := hgap c hc
      have hstart : (b.block g).start = b.start g := rfl
      omega

theorem Tracks.existsPkt_iff (h : Tracks past b xs) (hj : 0 ≤ j) :
    b.existsPkt j = true ↔ Added past j := by
  obtain ⟨-, hmax, hall, -⟩ := h.maxpkt_spec
  rw [RcvBuffer.existsPkt_iff h.gaps, h.covers]
  constructor
  · rintro (hle | ⟨hlt, hno⟩)
    · exact hall j hj hle
    · by_contra hno'
      exact hno ⟨hj, hlt, hno'⟩
  · intro hadd
    exact .inr ⟨(h.below j hadd).2, fun hc => hc.2.2 hadd⟩

theorem Tracks.repeated (h : Tracks past b xs) {a : ℤ × ℚ} (ha : Added past a.1) :
    Tracks (past ++ [a]) { b with duplicates := b.duplicates + 1 } xs := by
  have hsame : ∀ j, Added (past ++ [a]) j ↔ Added past j := by
    intro j
    rw [added_concat, or_iff_left_of_imp]
    rintro rfl
    exact ha
  refine ⟨⟨h.gaps.chain, h.gaps.tail, h.gaps.nodup, h.gaps.alloc, h.gaps.proper, h.gaps.lead⟩,
    fun j => ?_, fun j hj => h.below j ((hsame j).mp hj), ?_,
    fun c hc j hj hj' => detected_concat (h.times c hc j hj hj'), ?_⟩
  · rw [hsame]
    exact h.covers j
  · rw [hsame]
    exact h.top
  · have hrec : ¬ Recovers past a := fun hr => hr.1 ha
    rw [stats_concat, if_neg hrec, if_pos ha, if_neg hrec, add_zero, add_zero]
    have hstats := h.stats
    simp only [Prod.mk.injEq] at hstats ⊢
    exact ⟨hstats.1, congrArg (· + 1) hstats.2.1, hstats.2.2⟩

theorem Tracks.stats_fresh (h : Tracks past b xs) {a : ℤ × ℚ} (ha : b.nextpkt ≤ a.1) :
    (b.pktsRecovered, b.duplicates, b.delaySum) =
      (recoveries (past ++ [a]), repeats (past ++ [a]), delays (past ++ [a])) := by
  have hnew : ¬ Added past a.1 := by
    intro hadd
    have hlt := (h.below _ hadd).2
    omega
  have hrec : ¬ Recovers past a := by
    rintro ⟨-, c, hc, hlt⟩
    have hbelow := (h.below c.1 ⟨c, hc, rfl⟩).2
    omega
  rw [stats_concat, if_neg hrec, if_neg hnew, if_neg hrec, add_zero, add_zero, add_zero]
  exact h.stats

theorem Tracks.next (h : Tracks past b xs) {a : ℤ × ℚ} (ha : a.1 = b.nextpkt) :
    Tracks (past ++ [a]) { b with
      nextpkt := b.nextpkt + 1
      maxpkt := if a.1 = b.maxpkt + 1 then b.maxpkt + 1 else b.maxpkt } xs := by
  have hnext : 0 ≤ b.nextpkt := by
    rcases h.top with heq | ⟨hlt, -⟩ <;> omega
  refine ⟨⟨h.gaps.chain, h.gaps.tail, h.gaps.nodup, h.gaps.alloc, h.gaps.proper, ?_⟩, fun j => ?_,
    fun j hj => ?_, .inr ⟨?_, ?_⟩, fun c hc j hj hj' => detected_concat (h.times c hc j hj hj'),
    h.stats_fresh ha.ge⟩
  · have hlead := h.gaps.lead
    cases xs with
    | nil =>
      rw [if_pos (ha.trans hlead.symm), hlead]
      rfl
    | cons g r =>
      change b.maxpkt + 1 = b.start g at hlead
      have hcov : Covers (b.blocks (g :: r)) (b.start g) :=
        ⟨b.block g, mem_cons_self, le_refl _, h.gaps.proper.lt _ mem_cons_self⟩
      have hlt := ((h.covers _).mp hcov).2.1
      rw [if_neg (by omega)]
      exact hlead
  · rw [added_concat]
    constructor
    · intro hc
      obtain ⟨hj, hlt, hno⟩ := (h.covers j).mp hc
      change 0 ≤ j ∧ j < b.nextpkt + 1 ∧ _
      refine ⟨hj, by omega, ?_⟩
      rintro (hadd | rfl)
      · exact hno hadd
      · omega
    · rintro ⟨hj, hlt, hno⟩
      change j < b.nextpkt + 1 at hlt
      refine (h.covers j).mpr ⟨hj, ?_, fun hadd => hno (.inl hadd)⟩
      omega
  · change 0 ≤ j ∧ j < b.nextpkt + 1
    rcases added_concat.mp hj with hadd | rfl
    · have hlt := h.below j hadd
      omega
    · omega
  · change 0 < b.nextpkt + 1
    omega
  · rw [added_concat]
    right
    change b.nextpkt + 1 - 1 = a.1
    omega

theorem Tracks.skip (h : Tracks past b xs) {a : ℤ × ℚ} (ha : b.nextpkt < a.1) :
    ∃ b' xs', b.openGap a.1 a.2 = some b' ∧ Tracks (past ++ [a]) b' xs' := by
  have hnext : 0 ≤ b.nextpkt := by
    rcases h.top with heq | ⟨hlt, -⟩ <;> omega
  have hbelow : ∀ c ∈ b.blocks xs, c.stop < b.nextpkt := by
    intro c hc
    have hlt := h.gaps.proper.lt c hc
    have hlast : Covers (b.blocks xs) (c.stop - 1) := ⟨c, hc, by omega, by omega⟩
    have hin := ((h.covers _).mp hlast).2.1
    -- the last number below `nextpkt_` was received
    have hne : c.stop ≠ b.nextpkt := by
      intro heq
      rcases h.top with hzero | ⟨-, hadd⟩
      · have hge := ((h.covers _).mp hlast).1
        omega
      · exact ((h.covers _).mp hlast).2.2 (heq ▸ hadd)
    omega
  obtain ⟨b', hb', hgaps, hblocks, hnext', htime, hstats⟩ := h.gaps.openGap ha hbelow a.2
  refine ⟨b', xs ++ [b.allocated], hb', hgaps, fun j => ?_, fun j hj => ?_, .inr ⟨by omega, ?_⟩,
    fun c hc j hj hj' => ?_, hstats.trans (h.stats_fresh ha.le)⟩
  · rw [hblocks, covers_append, covers_singleton, h.covers, hnext', added_concat]
    dsimp only
    constructor
    · rintro (⟨hj, hlt, hno⟩ | ⟨hge, hlt⟩)
      · refine ⟨hj, by omega, ?_⟩
        rintro (hadd | rfl)
        · exact hno hadd
        · omega
      · refine ⟨by omega, by omega, ?_⟩
        rintro (hadd | rfl)
        · have hlt' := (h.below j hadd).2
          omega
        · omega
    · rintro ⟨hj, hlt, hno⟩
      by_cases hlow : j < b.nextpkt
      · exact .inl ⟨hj, hlow, fun hadd => hno (.inl hadd)⟩
      · exact .inr ⟨by omega, by omega⟩
  · rcases added_concat.mp hj with hadd | rfl
    · have hlt := h.below j hadd
      omega
    · omega
  · rw [added_concat, hnext']
    right
    omega
  · -- the old gaps are what they were
    have hsplit := hblocks
    unfold blocks at hsplit
    rw [map_append, map_singleton] at hsplit
    obtain ⟨hold, hnew⟩ := append_inj hsplit (by simp)
    rw [htime]
    rcases mem_append.mp hc with hc | hc
    · have hne : c ≠ b.allocated := ne_of_lt (h.gaps.alloc c hc)
      have hsame := Block.mk.inj (map_inj_left.mp hold c hc)
      rw [update_of_ne hne]
      exact detected_concat (h.times c hc j (by omega) (by omega))
    · have hsame := Block.mk.inj (singleton_inj.mp hnew)
      rw [mem_singleton.mp hc] at hj hj' ⊢
      rw [update_self]
      refine detected_new (fun d hd => ?_) (by omega)
      have hlt := (h.below d.1 ⟨d, hd, rfl⟩).2
      omega

theorem GapsOk.recovered (h : GapsOk b xs) (d : ℚ) : GapsOk (b.recovered d) xs :=
  ⟨h.chain, h.tail, h.nodup, h.alloc, h.proper, h.lead⟩

theorem Tracks.removed (h : Tracks past b xs) {a : ℤ × ℚ} (hg : g ∈ xs) (hin : b.inGap a.1 g)
    (hr : Removes (b.recovered (a.2 - b.time g)) b' xs xs' a.1) : Tracks (past ++ [a]) b' xs' := by
  obtain ⟨hpos, hlt, hno⟩ := (h.covers a.1).mp (covers_blocks.mpr ⟨g, hg, hin⟩)
  have hnext : b'.nextpkt = b.nextpkt := hr.nextpkt
  have htop : 0 < b.nextpkt ∧ Added past (b.nextpkt - 1) := h.top.resolve_left (by omega)
  refine ⟨hr.gaps, fun j => ?_, fun j hj => ?_, .inr ?_, fun c hc j hj hj' => ?_, ?_⟩
  · have hcov : Covers ((b.recovered (a.2 - b.time g)).blocks xs) j ↔ _ := h.covers j
    rw [hr.without.covers, hcov, hnext, added_concat]
    tauto
  · rw [hnext]
    rcases added_concat.mp hj with hadd | rfl
    · exact h.below j hadd
    · exact ⟨hpos, hlt⟩
  · rw [hnext]
    exact ⟨htop.1, added_concat.mpr (.inl htop.2)⟩
  · obtain ⟨d, hd, htime, hstart, hstop⟩ := hr.times c hc
    rw [htime]
    exact detected_concat (h.times d hd j (le_trans hstart hj) (le_trans hj' hstop))
  · -- a later packet was received before
    have hne : a.1 ≠ b.nextpkt - 1 := fun heq => hno (heq ▸ htop.2)
    have hrec : Recovers past a := by
      obtain ⟨c, hc, heq⟩ := htop.2
      exact ⟨hno, c, hc, by omega⟩
    have hin' := inGap_iff.mp hin
    have hdet := h.times g hg a.1 hin'.1 (Int.lt_add_one_iff.mp hin'.2)
    rw [hr.stats, stats_concat, if_pos hrec, if_neg hno, if_pos hrec, hdet, Option.getD_some,
      add_zero]
    have hstats := h.stats
    simp only [Prod.mk.injEq] at hstats
    change (b.pktsRecovered + 1, b.duplicates, b.delaySum + (a.2 - b.time g)) = _
    rw [hstats.1, hstats.2.1, hstats.2.2]

theorem Tracks.recover (h : Tracks past b xs) {a : ℤ × ℚ} (hpos : 0 ≤ a.1) (hlt : a.1 < b.nextpkt)
    (hno : ¬ Added past a.1) :
    ∃ b' xs', b.recover a.1 a.2 = some b' ∧ Tracks (past ++ [a]) b' xs' := by
  obtain ⟨c, hc, hin⟩ := covers_blocks.mp ((h.covers a.1).mpr ⟨hpos, hlt, hno⟩)
  cases xs with
  | nil => exact absurd hc not_mem_nil
  | cons g₀ r =>
    have hgap : b.gap = some g₀ := h.gaps.chain.head_eq
    have hlead : b.maxpkt + 1 = b.start g₀ := h.gaps.lead
    have hok := h.gaps.recovered
    unfold RcvBuffer.recover
    rw [hgap, Option.bind_some]
    by_cases hin₀ : b.inGap a.1 g₀
    · -- the first gap
      rw [if_pos hin₀]
      by_cases hfirst : a.1 = b.maxpkt + 1
      · obtain ⟨xs', hr⟩ := (hok (a.2 - b.time g₀)).advance
        have hstart : (b.recovered (a.2 - b.time g₀)).start g₀ = a.1 := (hfirst.trans hlead).symm
        rw [hstart] at hr
        refine ⟨_, xs', ?_, h.removed mem_cons_self hin₀ hr⟩
        exact congrArg some (if_pos hfirst)
      · have hne : b.start g₀ ≠ a.1 := fun heq => hfirst (heq.symm.trans hlead.symm)
        obtain ⟨xs', hr⟩ := (hok (a.2 - b.time g₀)).shrink (l := []) hin₀ hne
        refine ⟨_, xs', ?_, h.removed mem_cons_self hin₀ hr⟩
        exact congrArg some (if_neg hfirst)
    · rw [if_neg hin₀]
      have hcr : c ∈ r := by
        rcases mem_cons.mp hc with rfl | hc
        · exact absurd hin hin₀
        · exact hc
      have hchain : Chain b.next b.gap ([] ++ g₀ :: r) := h.gaps.chain
      have hfuel := h.gaps.length_lt_fuel
      obtain ⟨m, q, g, t, hsplit, hing, hfind⟩ := hchain.findFrom ⟨c, hcr, hin⟩
        (lt_of_lt_of_le (Nat.lt_succ_self _) (le_of_lt hfuel))
      have hsplit' : g₀ :: r = m ++ q :: g :: t := hsplit
      rw [hchain.next_eq, hfind, Option.map_some]
      rw [hsplit'] at hok h
      have hg : g ∈ m ++ q :: g :: t := by simp
      by_cases hfirst : b.start g = a.1
      · obtain ⟨xs', hr⟩ := (hok (a.2 - b.time g)).dropFirst
        have hstart : (b.recovered (a.2 - b.time g)).start g = a.1 := hfirst
        rw [hstart] at hr
        refine ⟨_, xs', ?_, h.removed hg hing hr⟩
        exact congrArg some (if_pos hfirst)
      · have hsplit₂ : m ++ q :: g :: t = (m ++ [q]) ++ g :: t := by simp
        rw [hsplit₂] at hok h hg
        -- any gap but the first loses its last or an inner number as the first one does
        obtain ⟨xs', hr⟩ := (hok (a.2 - b.time g)).shrink hing hfirst
        refine ⟨_, xs', ?_, h.removed hg hing hr⟩
        exact congrArg some (if_neg hfirst)

/-- One call of `add_pkt`. -/
def addStep (b : RcvBuffer) (a : ℤ × ℚ) : Option (RcvBuffer × Unit) := (b.addPkt a.1 a.2).map (·, ())

theorem Tracks.init : Tracks [] RcvBuffer.init [] where
  gaps := ⟨rfl, rfl, nodup_nil, fun _ ha => absurd ha not_mem_nil, proper_nil, rfl⟩
  covers j := by
    refine iff_of_false covers_nil ?_
    rintro ⟨hj, hlt, -⟩
    exact absurd hlt (not_lt_of_ge hj)
  below j := by
    rintro ⟨a, ha, -⟩
    exact absurd ha not_mem_nil
  top := .inl rfl
  times _ ha := absurd ha not_mem_nil
  stats := rfl

theorem Tracks.addPkt (h : Tracks past b xs) {a : ℤ × ℚ} (ha : 0 ≤ a.1) :
    ∃ b' xs', b.addPkt a.1 a.2 = some b' ∧ Tracks (past ++ [a]) b' xs' := by
  unfold RcvBuffer.addPkt
  split
  · rename_i hex
    exact ⟨_, xs, rfl, h.repeated ((h.existsPkt_iff ha).mp hex)⟩
  rename_i hex
  have hno : ¬ Added past a.1 := fun hadd => hex ((h.existsPkt_iff ha).mpr hadd)
  split
  · rename_i heq
    exact ⟨_, xs, rfl, h.next heq⟩
  split
  · rename_i hlt
    exact h.skip hlt
  · exact h.recover ha (by omega) hno

theorem Tracks.nextpkt_concat {a : ℤ × ℚ} (h : Tracks past b xs) (h' : Tracks (past ++ [a]) b' xs') :
    b'.nextpkt = max b.nextpkt (a.1 + 1) := by
  have hnew := h'.below a.1 (added_concat.mpr (.inr rfl))
  have hold : b.nextpkt ≤ b'.nextpkt := by
    rcases h.top with hzero | ⟨-, hadd⟩
    · omega
    · have hlt := (h'.below _ (added_concat.mpr (.inl hadd))).2
      omega
  have htop := h'.top.resolve_left (by omega)
  rcases added_concat.mp htop.2 with hadd | heq
  · have hlt := (h.below _ hadd).2
    omega
  · omega

/-- The numbers below `n` that were not received. -/
def Missing (calls : List (ℤ × ℚ)) (n j : ℤ) : Prop := 0 ≤ j ∧ j < n ∧ ¬ Added calls j

end RcvBuffer

end NetSim
