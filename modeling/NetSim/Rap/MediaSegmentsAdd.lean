import NetSim.Lib.Runs
import NetSim.Rap.MediaSegments

/-! # Media segments: adding

`Inv m xs` says that the list of `m` consists of the elements `xs`, that their segments are in order with
gaps between them, and that `length` counts their bytes. `add` takes the union with a new segment exactly
when that segment meets at most one other and does not properly contain one (`Fits`): else it drops the
segment, or finds its own byte count wrong and aborts (`media_segments`).
-/

namespace NetSim

open Function List LinkedList IntervalList

/-! ## `DoubleList` -/

section DoubleList

variable {L : DLinks ℕ} {l r : List ℕ} {e n q : ℕ}

theorem detach_holds (h : L.Holds (l ++ e :: r)) (hnd : (l ++ e :: r).Nodup) :
    (detach L e).Holds (l ++ r) := by
  have hremove := h.remove hnd
  obtain ⟨-, -, hel, her, -⟩ := nodup_middle hnd
  have hmem {a : ℕ} (ha : a ∈ l ++ r) : a ≠ e := by
    rintro rfl
    exact (mem_append.mp ha).elim hel her
  have hnext : setField L.next (L.prev e) (L.next e) e = L.next e := by
    rw [h.prev_eq]
    exact setField_of_ne _ _ (fun heq => hel (mem_of_getLast? heq))
  constructor
  · unfold detach
    dsimp only
    rw [h.head, h.next_eq]
    cases l with
    | nil => simp
    | cons a l =>
      have hae : a ≠ e := hmem (by simp)
      simp [hae]
  · unfold detach
    dsimp only
    rw [h.tail, h.prev_eq]
    rcases eq_nil_or_concat r with rfl | ⟨r', a, hr⟩
    · simp
    · rw [concat_eq_append] at hr
      subst hr
      have hae : a ≠ e := hmem (by simp)
      have hlast : (l ++ e :: (r' ++ [a])).getLast? = some a := by
        rw [getLast?_append, getLast?_cons]
        simp
      have hlast' : (l ++ (r' ++ [a])).getLast? = some a := by
        rw [getLast?_append]
        simp
      rw [hlast, hlast', if_neg (fun heq => hae (Option.some.inj heq))]
  · refine hremove.path.congr ?_ ?_
    · intro a ha
      exact update_of_ne (hmem ha) ..
    · intro a ha
      unfold detach DLinks.remove
      dsimp only
      rw [update_of_ne (hmem ha), hnext]

theorem insertBefore_holds (h : L.Holds (l ++ q :: r)) (hnd : (l ++ n :: q :: r).Nodup) :
    (insertBefore L n q).Holds (l ++ n :: q :: r) := by
  have hlink := h.link hnd
  have hq : q ∉ l := by
    intro hl
    exact (nodup_middle hnd).2.2.2.2 q hl (by simp)
  have heq : insertBefore L n q = L.link l.getLast? n (some q) := by
    unfold insertBefore DLinks.link
    rw [h.prev_eq, h.head]
    cases l with
    | nil => simp [setField]
    | cons a l =>
      have haq : a ≠ q := fun heq => hq (by simp [heq])
      simp [setField, haq, getLast?_cons]
  rw [heq]
  exact hlink

theorem appendAfter_holds (h : L.Holds (l ++ [q])) (hnd : (l ++ [q] ++ [n]).Nodup) :
    (appendAfter L n q).Holds (l ++ [q] ++ [n]) := by
  have hlink := DLinks.Holds.link (r := []) (by simpa using h) hnd
  have heq : appendAfter L n q = L.link (some q) n none := by
    unfold appendAfter DLinks.link
    rw [h.next_eq, h.tail]
    simp [setField]
  rw [heq]
  simpa using hlink

end DoubleList

/-! ## Segments -/

namespace MediaSegment

variable {s t : MediaSegment}

def block (t : MediaSegment) : Block := ⟨t.start, t.stop⟩

theorem overlap_eq (h : s.start ≤ s.stop) :
    t.overlap s = some (decide (t.start ≤ s.stop ∧ s.start ≤ t.stop)) :=
  if_pos h

/-- Two segments that touch become their hull; the overlap is what they share. -/
theorem merge_spec (ht : t.start ≤ t.stop) (hs : s.start ≤ s.stop) (h₁ : t.start ≤ s.stop)
    (h₂ : s.start ≤ t.stop) :
    ∃ t' overlapping, t.merge s = some (t', overlapping) ∧
      t'.block = ⟨min t.start s.start, max t.stop s.stop⟩ ∧
      overlapping = (t.stop - t.start) + (s.stop - s.start)
        - (max t.stop s.stop - min t.start s.start) := by
  have hstart : (if s.start < t.start then s.start else t.start) = min t.start s.start := by
    split <;> omega
  have hstop : (if t.stop < s.stop then s.stop else t.stop) = max t.stop s.stop := by
    split <;> omega
  unfold merge
  rw [if_neg (by omega)]
  simp only [datasize, hstart, hstop]
  rw [if_pos (by omega)]
  exact ⟨_, _, rfl, rfl, rfl⟩

end MediaSegment

namespace MediaSegmentList

variable {m m' : MediaSegmentList} {xs l r : List ℕ} {p q t : ℕ} {s : MediaSegment}

/-! ## The elements of a list -/

structure Rep (m : MediaSegmentList) (xs : List ℕ) : Prop where
  links : m.links.Holds xs
  nodup : xs.Nodup
  alloc : ∀ p ∈ xs, p < m.allocated

def blocks (m : MediaSegmentList) (xs : List ℕ) : List Block := xs.map (fun p => (m.seg p).block)

@[simp] theorem blocks_nil : m.blocks [] = [] := rfl

@[simp] theorem blocks_cons : m.blocks (p :: xs) = (m.seg p).block :: m.blocks xs := rfl

@[simp] theorem blocks_append : m.blocks (l ++ r) = m.blocks l ++ m.blocks r := map_append

theorem blocks_congr (h : ∀ p ∈ xs, m'.seg p = m.seg p) : m'.blocks xs = m.blocks xs := by
  apply map_congr_left
  intro p hp
  rw [h p hp]

theorem mem_blocks {b : Block} : b ∈ m.blocks xs ↔ ∃ p ∈ xs, (m.seg p).block = b := mem_map

theorem Rep.fuel (h : Rep m xs) : xs.length < m.fuel := by
  have hsub : xs ⊆ List.range m.allocated := by
    intro p hp
    exact mem_range.mpr (h.alloc p hp)
  have hle := (subperm_of_subset h.nodup hsub).length_le
  rw [length_range] at hle
  unfold MediaSegmentList.fuel
  omega

theorem sizeFrom_spec (h : m.links.Holds (l ++ r)) {fuel : ℕ} (hfuel : r.length < fuel) :
    m.sizeFrom fuel r.head? = some (size (m.blocks r)) := by
  induction r generalizing l fuel with
  | nil =>
    cases fuel with
    | zero => omega
    | succ fuel => rfl
  | cons p r ih =>
    cases fuel with
    | zero => omega
    | succ fuel =>
      have hnext : m.links.next p = r.head? := h.next_eq
      have hrest := ih (l := l ++ [p]) (by simpa using h) (Nat.lt_of_succ_lt_succ hfuel)
      rw [head?_cons, sizeFrom, hnext, hrest, blocks_cons, size_cons]
      rfl

theorem Rep.getsize (h : Rep m xs) : m.getsize = some (size (m.blocks xs)) := by
  unfold MediaSegmentList.getsize
  rw [h.links.head]
  exact sizeFrom_spec (l := []) h.links h.fuel

theorem Rep.checked (h : Rep m xs) :
    m.checked = if size (m.blocks xs) = m.length then some m else none := by
  unfold MediaSegmentList.checked
  rw [h.getsize, Option.bind_some]

theorem Rep.congr (h : Rep m xs) (hlinks : m'.links = m.links)
    (halloc : m'.allocated = m.allocated) : Rep m' xs where
  links := hlinks ▸ h.links
  nodup := h.nodup
  alloc := halloc ▸ h.alloc

theorem Rep.detach (h : Rep m (l ++ q :: r)) (hlinks : m'.links = NetSim.detach m.links q)
    (halloc : m'.allocated = m.allocated) : Rep m' (l ++ r) where
  links := hlinks ▸ detach_holds h.links h.nodup
  nodup := h.nodup.sublist (List.Sublist.append_left (sublist_cons_self q r) l)
  alloc := by
    intro p hp
    rw [halloc]
    apply h.alloc
    rcases mem_append.mp hp with hp | hp
    · exact mem_append_left _ hp
    · exact mem_append_right _ (mem_cons_of_mem _ hp)

/-- One segment takes over the other, which is unlinked and freed. -/
theorem absorb_spec (m : MediaSegmentList) (ht : (m.seg t).start ≤ (m.seg t).stop)
    (hq : (m.seg q).start ≤ (m.seg q).stop) (h₁ : (m.seg t).start ≤ (m.seg q).stop)
    (h₂ : (m.seg q).start ≤ (m.seg t).stop) :
    ∃ m', m.absorb t q = some m' ∧ m'.links = NetSim.detach m.links q ∧
      m'.allocated = m.allocated ∧ m'.length = m.length ∧ (∀ p, p ≠ t → m'.seg p = m.seg p) ∧
      (m'.seg t).block =
        ⟨min (m.seg t).start (m.seg q).start, max (m.seg t).stop (m.seg q).stop⟩ := by
  obtain ⟨t', overlapping, hmerge, hblock, -⟩ := MediaSegment.merge_spec ht hq h₁ h₂
  refine ⟨{ m with seg := update m.seg t t', links := NetSim.detach m.links q },
    by rw [absorb, hmerge, Option.map_some], rfl, rfl, rfl, ?_, ?_⟩
  · intro p hp
    exact update_of_ne hp ..
  · dsimp only
    rw [update_self, hblock]

/-- The element `q`, which touches `t`, is merged into it. -/
theorem Rep.absorb {l₀ r₀ : List ℕ} (h : Rep m xs) (hxs : xs = l₀ ++ q :: r₀) (hrest : l₀ ++ r₀ = l ++ t :: r)
    (ht : (m.seg t).start ≤ (m.seg t).stop) (hq : (m.seg q).start ≤ (m.seg q).stop)
    (h₁ : (m.seg t).start ≤ (m.seg q).stop) (h₂ : (m.seg q).start ≤ (m.seg t).stop) :
    ∃ m', m.absorb t q = some m' ∧ Rep m' (l ++ t :: r) ∧ m'.length = m.length ∧
      (∀ p ∈ l ++ r, p ∈ xs ∧ m'.seg p = m.seg p) ∧ (m'.seg t).start = min (m.seg t).start (m.seg q).start ∧
      (m'.seg t).stop = max (m.seg t).stop (m.seg q).stop := by
  obtain ⟨m', habsorb, hlinks, halloc, hlength, hseg, hblock⟩ := absorb_spec m ht hq h₁ h₂
  have hrep : Rep m' (l ++ t :: r) := hrest ▸ Rep.detach (hxs ▸ h) hlinks halloc
  obtain ⟨-, -, htl, htr, -⟩ := nodup_middle hrep.nodup
  rw [MediaSegment.block, Block.mk.injEq] at hblock
  refine ⟨m', habsorb, hrep, hlength, fun p hp => ⟨?_, hseg p ?_⟩, hblock⟩
  · have hmem : p ∈ l₀ ++ r₀ := by
      rw [hrest]
      rcases mem_append.mp hp with hp | hp <;> simp [hp]
    rw [hxs]
    rcases mem_append.mp hmem with hp | hp <;> simp [hp]
  · rintro rfl
    exact (mem_append.mp hp).elim htl htr

/-! ## Merging -/

def Nonempty (m : MediaSegmentList) (xs : List ℕ) : Prop :=
  ∀ p ∈ xs, (m.seg p).start < (m.seg p).stop

/-- The element `t` may touch its neighbours; otherwise there are gaps. -/
structure Loose (m : MediaSegmentList) (l : List ℕ) (t : ℕ) (r : List ℕ) : Prop where
  rep : Rep m (l ++ t :: r)
  nonempty : Nonempty m (l ++ t :: r)
  left : Separated (m.blocks l)
  right : Separated (m.blocks r)
  before : ∀ p ∈ l, (m.seg p).stop ≤ (m.seg t).start
  after : ∀ p ∈ r, (m.seg t).stop ≤ (m.seg p).start

/-- The same bytes and the same count in another list. -/
structure Same (m : MediaSegmentList) (xs : List ℕ) (m' : MediaSegmentList) (xs' : List ℕ) :
    Prop where
  covers : ∀ x, Covers (m'.blocks xs') x ↔ Covers (m.blocks xs) x
  size : size (m'.blocks xs') = size (m.blocks xs)
  length : m'.length = m.length

theorem Same.refl : Same m xs m xs := ⟨fun _ => Iff.rfl, rfl, rfl⟩

theorem Same.trans {m'' : MediaSegmentList} {xs' xs'' : List ℕ} (h : Same m xs m' xs')
    (h' : Same m' xs' m'' xs'') : Same m xs m'' xs'' where
  covers x := (h'.covers x).trans (h.covers x)
  size := h'.size.trans h.size
  length := h'.length.trans h.length

theorem Loose.of_seg (hrep : Rep m' (l ++ t :: r)) (hseg : ∀ p ∈ l ++ r, m'.seg p = m.seg p)
    (hne : Nonempty m (l ++ r)) (htne : (m'.seg t).start < (m'.seg t).stop)
    (hleft : Separated (m.blocks l)) (hright : Separated (m.blocks r))
    (hbefore : ∀ p ∈ l, (m.seg p).stop ≤ (m'.seg t).start)
    (hafter : ∀ p ∈ r, (m'.seg t).stop ≤ (m.seg p).start) : Loose m' l t r := by
  have hl : ∀ p ∈ l, m'.seg p = m.seg p := fun p hp => hseg p (mem_append_left _ hp)
  have hr : ∀ p ∈ r, m'.seg p = m.seg p := fun p hp => hseg p (mem_append_right _ hp)
  constructor
  case rep => exact hrep
  case nonempty =>
    intro p hp
    rcases mem_append.mp hp with hp | hp
    · rw [hl p hp]
      exact hne p (mem_append_left _ hp)
    rcases mem_cons.mp hp with rfl | hp
    · exact htne
    · rw [hr p hp]
      exact hne p (mem_append_right _ hp)
  case left =>
    rw [blocks_congr hl]
    exact hleft
  case right =>
    rw [blocks_congr hr]
    exact hright
  case before =>
    intro p hp
    rw [hl p hp]
    exact hbefore p hp
  case after =>
    intro p hp
    rw [hr p hp]
    exact hafter p hp

theorem Same.of_seg {mid : List ℕ} (hseg : ∀ p ∈ l ++ r, m'.seg p = m.seg p)
    (hcovers : ∀ x, ((m'.seg t).start ≤ x ∧ x < (m'.seg t).stop) ↔ Covers (m.blocks mid) x)
    (hsize : (m'.seg t).stop - (m'.seg t).start = IntervalList.size (m.blocks mid))
    (hlength : m'.length = m.length) : Same m (l ++ mid ++ r) m' (l ++ t :: r) := by
  have hl : m'.blocks l = m.blocks l :=
    blocks_congr (fun p hp => hseg p (mem_append_left _ hp))
  have hr : m'.blocks r = m.blocks r :=
    blocks_congr (fun p hp => hseg p (mem_append_right _ hp))
  constructor
  case covers =>
    intro x
    rw [blocks_append, blocks_append, blocks_append, blocks_cons, hl, hr, covers_append,
      covers_cons, covers_append, covers_append, ← hcovers, or_assoc]
    rfl
  case size =>
    rw [blocks_append, blocks_append, blocks_append, blocks_cons, hl, hr, size_append, size_cons,
      size_append, size_append, ← hsize, add_assoc]
    rfl
  case length => exact hlength

/-- The elements `mid`, which are `t` and `q`, touch and become one. -/
theorem Rep.absorbTouching {l₀ r₀ mid : List ℕ} (h : Rep m (l ++ mid ++ r)) (hne : Nonempty m (l ++ mid ++ r))
    (hxs : l ++ mid ++ r = l₀ ++ q :: r₀) (hrest : l₀ ++ r₀ = l ++ t :: r)
    (hmid : mid = [t, q] ∧ (m.seg t).stop = (m.seg q).start ∨ mid = [q, t] ∧ (m.seg q).stop = (m.seg t).start)
    (hleft : Separated (m.blocks l)) (hright : Separated (m.blocks r))
    (hbefore : ∀ p ∈ l, (m.seg p).stop ≤ min (m.seg t).start (m.seg q).start)
    (hafter : ∀ p ∈ r, max (m.seg t).stop (m.seg q).stop ≤ (m.seg p).start) :
    ∃ m', m.absorb t q = some m' ∧ Loose m' l t r ∧ Same m (l ++ mid ++ r) m' (l ++ t :: r) ∧
      (m'.seg t).start = min (m.seg t).start (m.seg q).start ∧
      (m'.seg t).stop = max (m.seg t).stop (m.seg q).stop ∧ ∀ p ∈ l ++ r, m'.seg p = m.seg p := by
  have hboth : t ∈ l ++ mid ++ r ∧ q ∈ l ++ mid ++ r := by
    rcases hmid with ⟨rfl, -⟩ | ⟨rfl, -⟩ <;> simp
  have htne := hne t hboth.1
  have hqne := hne q hboth.2
  obtain ⟨m', habsorb, hrep, hlength, hseg, hstart, hstop⟩ :=
    h.absorb hxs hrest htne.le hqne.le (by omega) (by omega)
  have hkeep : ∀ p ∈ l ++ r, m'.seg p = m.seg p := fun p hp => (hseg p hp).2
  refine ⟨m', habsorb, Loose.of_seg hrep hkeep (fun p hp => hne p (hseg p hp).1) (by omega) hleft hright ?_ ?_,
    Same.of_seg hkeep ?_ ?_ hlength, hstart, hstop, hkeep⟩
  · rwa [hstart]
  · rwa [hstop]
  · intro x
    rcases hmid with ⟨rfl, htouch⟩ | ⟨rfl, htouch⟩ <;>
    · simp only [blocks_cons, blocks_nil, covers_cons, covers_nil, MediaSegment.block, hstart, hstop, or_false]
      omega
  · rcases hmid with ⟨rfl, htouch⟩ | ⟨rfl, htouch⟩ <;>
    · simp only [blocks_cons, blocks_nil, size_cons, size_nil, MediaSegment.block, hstart, hstop]
      omega

theorem Loose.absorbNext (h : Loose m l t (q :: r)) (htouch : (m.seg t).stop = (m.seg q).start) :
    ∃ m', m.absorb t q = some m' ∧ Loose m' l t r ∧ Same m (l ++ t :: q :: r) m' (l ++ t :: r) ∧
      ∀ p ∈ r, (m'.seg t).stop < (m'.seg p).start := by
  have htne := h.nonempty t (by simp)
  have hqne := h.nonempty q (by simp)
  have hgap : ∀ p ∈ r, (m.seg q).stop < (m.seg p).start := fun p hp =>
    (separated_cons.mp h.right).2.2 _ (mem_blocks.mpr ⟨p, hp, rfl⟩)
  have hxs : l ++ [t, q] ++ r = l ++ t :: q :: r := by simp
  obtain ⟨m', habsorb, hloose, hsame, -, hstop, hkeep⟩ := @Rep.absorbTouching m l r q t (l ++ [t]) r [t, q]
    (hxs ▸ h.rep) (hxs ▸ h.nonempty) (by simp) (by simp) (.inl ⟨rfl, htouch⟩) h.left
    (separated_cons.mp h.right).2.1 (fun p hp => by have := h.before p hp; omega)
    (fun p hp => by have := hgap p hp; omega)
  refine ⟨m', habsorb, hloose, hxs ▸ hsame, fun p hp => ?_⟩
  have hp' := hgap p hp
  rw [hkeep p (mem_append_right _ hp), hstop]
  omega

theorem Loose.absorbPrev (h : Loose m (l ++ [q]) t r)
    (htouch : (m.seg q).stop = (m.seg t).start) :
    ∃ m', m.absorb t q = some m' ∧ Loose m' l t r ∧
      Same m (l ++ [q] ++ t :: r) m' (l ++ t :: r) ∧
      (∀ p ∈ l, (m'.seg p).stop < (m'.seg t).start) ∧ (m'.seg t).stop = (m.seg t).stop ∧
      ∀ p ∈ r, m'.seg p = m.seg p := by
  have htne := h.nonempty t (by simp)
  have hqne := h.nonempty q (by simp)
  have hleft := h.left
  rw [blocks_append] at hleft
  have hgap : ∀ p ∈ l, (m.seg p).stop < (m.seg q).start := fun p hp =>
    (separated_append.mp hleft).2.2 _ (mem_blocks.mpr ⟨p, hp, rfl⟩) (m.seg q).block (by simp)
  have hxs : l ++ [q, t] ++ r = l ++ [q] ++ t :: r := by simp
  obtain ⟨m', habsorb, hloose, hsame, hstart, hstop, hkeep⟩ := @Rep.absorbTouching m l r q t l (t :: r) [q, t]
    (hxs ▸ h.rep) (hxs ▸ h.nonempty) (by simp) rfl (.inr ⟨rfl, htouch⟩) (separated_append.mp hleft).1 h.right
    (fun p hp => by have := hgap p hp; omega) (fun p hp => by have := h.after p hp; omega)
  refine ⟨m', habsorb, hloose, hxs ▸ hsame, fun p hp => ?_, by omega,
    fun p hp => hkeep p (mem_append_right _ hp)⟩
  have hp' := hgap p hp
  rw [hkeep p (mem_append_left _ hp), hstart]
  omega

theorem mergeNext_stop (h : Rep m (l ++ t :: r)) (ht : (m.seg t).start ≤ (m.seg t).stop)
    (hgap : ∀ p ∈ r, (m.seg t).stop < (m.seg p).start) (fuel : ℕ) :
    mergeNext t (fuel + 1) m = some m := by
  have hnext : m.links.next t = r.head? := h.links.next_eq
  rw [mergeNext, hnext]
  cases r with
  | nil => rfl
  | cons q r =>
    have hq := hgap q mem_cons_self
    rw [head?_cons]
    dsimp only
    rw [MediaSegment.overlap_eq ht, Option.bind_some, if_neg]
    simp only [decide_eq_true_eq]
    omega

theorem mergePrev_stop (h : Rep m (l ++ t :: r)) (ht : (m.seg t).start ≤ (m.seg t).stop)
    (hgap : ∀ p ∈ l, (m.seg p).stop < (m.seg t).start) (fuel : ℕ) :
    mergePrev t (fuel + 1) m = some m := by
  have hprev : m.links.prev t = l.getLast? := h.links.prev_eq
  rw [mergePrev, hprev]
  cases hlast : l.getLast? with
  | none => rfl
  | some q =>
    have hq := hgap q (mem_of_getLast? hlast)
    dsimp only
    rw [MediaSegment.overlap_eq ht, Option.bind_some, if_neg]
    simp only [decide_eq_true_eq]
    omega

theorem Loose.mergeNext (h : Loose m l t r) (fuel : ℕ) :
    ∃ m' r', mergeNext t (fuel + 2) m = some m' ∧ Loose m' l t r' ∧
      Same m (l ++ t :: r) m' (l ++ t :: r') ∧
      ∀ p ∈ r', (m'.seg t).stop < (m'.seg p).start := by
  have htne := h.nonempty t (by simp)
  by_cases hgap : ∀ p ∈ r, (m.seg t).stop < (m.seg p).start
  · exact ⟨m, r, mergeNext_stop h.rep htne.le hgap _, h, Same.refl, hgap⟩
  · cases r with
    | nil => exact absurd (fun p hp => absurd hp not_mem_nil) hgap
    | cons q r =>
      have hqne := h.nonempty q (by simp)
      have hle := h.after q (by simp)
      have htouch : (m.seg t).stop = (m.seg q).start := by
        by_contra hne
        apply hgap
        intro p hp
        rcases mem_cons.mp hp with rfl | hp
        · omega
        · have hpq : (m.seg q).stop < (m.seg p).start :=
            (separated_cons.mp h.right).2.2 _ (mem_blocks.mpr ⟨p, hp, rfl⟩)
          omega
      obtain ⟨m', habsorb, hloose, hsame, hgap'⟩ := h.absorbNext htouch
      have hnext : m.links.next t = some q := h.rep.links.next_eq
      have htne' := hloose.nonempty t (by simp)
      refine ⟨m', r, ?_, hloose, hsame, hgap'⟩
      rw [MediaSegmentList.mergeNext, hnext]
      dsimp only
      rw [MediaSegment.overlap_eq htne.le, Option.bind_some, if_pos (by simp; omega),
        if_neg (by omega), habsorb, Option.bind_some]
      exact mergeNext_stop hloose.rep htne'.le hgap' fuel

theorem Loose.mergePrev (h : Loose m l t r)
    (hgap : ∀ p ∈ r, (m.seg t).stop < (m.seg p).start) (fuel : ℕ) :
    ∃ m' l', mergePrev t (fuel + 2) m = some m' ∧ Loose m' l' t r ∧
      Same m (l ++ t :: r) m' (l' ++ t :: r) ∧
      (∀ p ∈ l', (m'.seg p).stop < (m'.seg t).start) ∧
      ∀ p ∈ r, (m'.seg t).stop < (m'.seg p).start := by
  have htne := h.nonempty t (by simp)
  by_cases hgapl : ∀ p ∈ l, (m.seg p).stop < (m.seg t).start
  · exact ⟨m, l, mergePrev_stop h.rep htne.le hgapl _, h, Same.refl, hgapl, hgap⟩
  · rcases eq_nil_or_concat l with rfl | ⟨l', q, hl⟩
    · exact absurd (fun p hp => absurd hp not_mem_nil) hgapl
    · rw [concat_eq_append] at hl
      subst hl
      have hqne := h.nonempty q (by simp)
      have hle := h.before q (by simp)
      have hleft := h.left
      rw [blocks_append] at hleft
      have htouch : (m.seg q).stop = (m.seg t).start := by
        by_contra hne
        apply hgapl
        intro p hp
        rcases mem_append.mp hp with hp | hp
        · have hpq : (m.seg p).stop < (m.seg q).start :=
            (separated_append.mp hleft).2.2 _ (mem_blocks.mpr ⟨p, hp, rfl⟩) (m.seg q).block
              (by simp)
          omega
        · rw [mem_singleton.mp hp]
          omega
      obtain ⟨m', habsorb, hloose, hsame, hgap', hstop, hseg⟩ := h.absorbPrev htouch
      have hprev : m.links.prev t = some q := by
        rw [h.rep.links.prev_eq]
        simp
      have htail : m.links.tail ≠ some q := by
        rw [h.rep.links.tail]
        intro htail
        have hmem : q ∈ t :: r := by
          rw [getLast?_append, getLast?_cons] at htail
          simp only [Option.some_or, Option.some.injEq] at htail
          rw [← htail]
          cases hr : r.getLast? with
          | none => simp
          | some c => simp [mem_of_getLast? hr]
        exact (nodup_middle h.rep.nodup).2.2.1 (by
          rcases mem_cons.mp hmem with rfl | hmem
          · simp
          · exact absurd hmem ((nodup_middle h.rep.nodup).2.2.2.2 q (by simp)))
      have htne' := hloose.nonempty t (by simp)
      refine ⟨m', l', ?_, hloose, hsame, hgap', ?_⟩
      · rw [MediaSegmentList.mergePrev, hprev]
        dsimp only
        rw [MediaSegment.overlap_eq htne.le, Option.bind_some, if_pos (by simp; omega),
          if_neg htail, habsorb, Option.bind_some]
        exact mergePrev_stop hloose.rep htne'.le hgap' fuel
      · intro p hp
        rw [hstop, hseg p hp]
        exact hgap p hp

/-- **Merging closes the gaps of length zero** and keeps the bytes. -/
theorem Loose.mergeSeg (h : Loose m l t r) :
    ∃ m' xs', m.mergeSeg t = some m' ∧ Rep m' xs' ∧ Nonempty m' xs' ∧
      Separated (m'.blocks xs') ∧ Same m (l ++ t :: r) m' xs' := by
  have hfuel {m : MediaSegmentList} {l r : List ℕ} (h : Loose m l t r) :
      ∃ fuel, m.fuel = fuel + 2 := by
    have hlt := h.rep.fuel
    rw [length_append, length_cons] at hlt
    exact ⟨m.fuel - 2, by omega⟩
  obtain ⟨fuel₁, hfuel₁⟩ := hfuel h
  obtain ⟨m₁, r', hnext, hloose₁, hsame₁, hgap⟩ := h.mergeNext fuel₁
  obtain ⟨fuel₂, hfuel₂⟩ := hfuel hloose₁
  obtain ⟨m₂, l', hprev, hloose₂, hsame₂, hgapl, hgapr⟩ := hloose₁.mergePrev hgap fuel₂
  refine ⟨m₂, l' ++ t :: r', ?_, hloose₂.rep, hloose₂.nonempty, ?_, hsame₁.trans hsame₂⟩
  · unfold MediaSegmentList.mergeSeg
    rw [hfuel₁, hnext, Option.bind_some, hfuel₂, hprev]
  · have htne := hloose₂.nonempty t (by simp)
    rw [blocks_append, blocks_cons, separated_append, separated_cons]
    refine ⟨hloose₂.left, ⟨htne.le, hloose₂.right, ?_⟩, ?_⟩
    · intro b hb
      obtain ⟨p, hp, rfl⟩ := mem_blocks.mp hb
      exact hgapr p hp
    · intro a ha b hb
      obtain ⟨p, hp, rfl⟩ := mem_blocks.mp ha
      have hpt := hgapl p hp
      rcases mem_cons.mp hb with rfl | hb
      · exact hpt
      · obtain ⟨c, hc, rfl⟩ := mem_blocks.mp hb
        have htc := hgapr c hc
        simp only [MediaSegment.block]
        omega

/-! ## Merging segments that overlap -/

/-- The list `xs'` has no more bytes than `xs`, the count is the same. -/
structure Shrunk (m : MediaSegmentList) (xs : List ℕ) (m' : MediaSegmentList) (xs' : List ℕ) :
    Prop where
  rep : Rep m' xs'
  nonempty : Nonempty m' xs'
  size : size (m'.blocks xs') ≤ size (m.blocks xs)
  length : m'.length = m.length

theorem Shrunk.trans {m'' : MediaSegmentList} {xs' xs'' : List ℕ} (h : Shrunk m xs m' xs')
    (h' : Shrunk m' xs' m'' xs'') : Shrunk m xs m'' xs'' :=
  ⟨h'.rep, h'.nonempty, h'.size.trans h.size, h'.length.trans h.length⟩

theorem absorb_shrinks {l₀ r₀ : List ℕ} (hrep : Rep m xs) (hne : Nonempty m xs) (hxs : xs = l₀ ++ q :: r₀)
    (hrest : l₀ ++ r₀ = l ++ t :: r) (ht : t ∈ xs)
    (htouch : (m.seg q).start ≤ (m.seg t).stop ∧ (m.seg t).start ≤ (m.seg q).stop)
    (habsorb : m.absorb t q = some m') :
    Rep m' (l ++ t :: r) ∧ Nonempty m' (l ++ t :: r) ∧ m'.length = m.length ∧
      size (m'.blocks (l ++ t :: r)) = size (m.blocks xs) -
        (min (m.seg t).stop (m.seg q).stop - max (m.seg t).start (m.seg q).start) := by
  have htne := hne t ht
  have hqne := hne q (by simp [hxs])
  obtain ⟨m₁, habsorb₁, hrep₁, hlength, hseg, hstart, hstop⟩ :=
    hrep.absorb hxs hrest htne.le hqne.le htouch.2 htouch.1
  obtain rfl : m₁ = m' := Option.some.inj (habsorb₁.symm.trans habsorb)
  have hl : ∀ p ∈ l, m₁.seg p = m.seg p := fun p hp => (hseg p (mem_append_left _ hp)).2
  have hr : ∀ p ∈ r, m₁.seg p = m.seg p := fun p hp => (hseg p (mem_append_right _ hp)).2
  refine ⟨hrep₁, fun p hp => ?_, hlength, ?_⟩
  · by_cases hpt : p = t
    · rw [hpt]
      omega
    · have hp' : p ∈ l ++ r := by simpa [hpt] using hp
      rw [(hseg p hp').2]
      exact hne p (hseg p hp').1
  · have hsum : size (m.blocks xs) = size (m.blocks (l ++ t :: r)) + ((m.seg q).stop - (m.seg q).start) := by
      rw [← hrest, hxs]
      simp only [blocks_append, blocks_cons, size_append, size_cons, MediaSegment.block]
      omega
    rw [hsum, blocks_append, blocks_append, blocks_cons, blocks_cons, blocks_congr hl, blocks_congr hr]
    simp only [size_append, size_cons, MediaSegment.block]
    omega

theorem mergeNext_shrinks (fuel : ℕ) (hrep : Rep m (l ++ t :: r))
    (hne : Nonempty m (l ++ t :: r)) (heq : mergeNext t fuel m = some m') :
    ∃ r', Shrunk m (l ++ t :: r) m' (l ++ t :: r') := by
  induction fuel generalizing m r with
  | zero => cases heq
  | succ fuel ih =>
    have hnext : m.links.next t = r.head? := hrep.links.next_eq
    rw [mergeNext, hnext] at heq
    cases r with
    | nil =>
      cases heq
      exact ⟨[], hrep, hne, le_rfl, rfl⟩
    | cons q r =>
      have htne := hne t (by simp)
      have hqne := hne q (by simp)
      rw [head?_cons] at heq
      dsimp only at heq
      rw [MediaSegment.overlap_eq htne.le, Option.bind_some] at heq
      by_cases htouch : (m.seg q).start ≤ (m.seg t).stop ∧ (m.seg t).start ≤ (m.seg q).stop
      · rw [if_pos (by simpa using htouch)] at heq
        split at heq
        · cases heq
        · obtain ⟨m₁, habsorb, hrest⟩ := Option.bind_eq_some_iff.mp heq
          obtain ⟨hrep₁, hne₁, hlength, hsize⟩ := @absorb_shrinks m m₁ (l ++ t :: q :: r) l r q t (l ++ [t]) r
            hrep hne (by simp) (by simp) (by simp) htouch habsorb
          obtain ⟨r', hshrunk⟩ := ih hrep₁ hne₁ hrest
          exact ⟨r', Shrunk.trans ⟨hrep₁, hne₁, by omega, hlength⟩ hshrunk⟩
      · rw [if_neg (by simpa using htouch)] at heq
        cases heq
        exact ⟨q :: r, hrep, hne, le_rfl, rfl⟩

theorem mergePrev_shrinks (fuel : ℕ) (hrep : Rep m (l ++ t :: r))
    (hne : Nonempty m (l ++ t :: r)) (heq : mergePrev t fuel m = some m') :
    ∃ l', Shrunk m (l ++ t :: r) m' (l' ++ t :: r) := by
  induction fuel generalizing m l with
  | zero => cases heq
  | succ fuel ih =>
    have hprev : m.links.prev t = l.getLast? := hrep.links.prev_eq
    rw [mergePrev, hprev] at heq
    rcases eq_nil_or_concat l with rfl | ⟨l', q, hl⟩
    · cases heq
      exact ⟨[], hrep, hne, le_rfl, rfl⟩
    · rw [concat_eq_append] at hl
      subst hl
      have htne := hne t (by simp)
      have hqne := hne q (by simp)
      rw [getLast?_append, getLast?_singleton, Option.some_or] at heq
      dsimp only at heq
      rw [MediaSegment.overlap_eq htne.le, Option.bind_some] at heq
      by_cases htouch : (m.seg q).start ≤ (m.seg t).stop ∧ (m.seg t).start ≤ (m.seg q).stop
      · rw [if_pos (by simpa using htouch)] at heq
        split at heq
        · cases heq
        · obtain ⟨m₁, habsorb, hrest⟩ := Option.bind_eq_some_iff.mp heq
          obtain ⟨hrep₁, hne₁, hlength, hsize⟩ := @absorb_shrinks m m₁ (l' ++ [q] ++ t :: r) l' r q t l' (t :: r)
            hrep hne (by simp) rfl (by simp) htouch habsorb
          obtain ⟨l'', hshrunk⟩ := ih hrep₁ hne₁ hrest
          exact ⟨l'', Shrunk.trans ⟨hrep₁, hne₁, by omega, hlength⟩ hshrunk⟩
      · rw [if_neg (by simpa using htouch)] at heq
        cases heq
        exact ⟨l' ++ [q], hrep, hne, le_rfl, rfl⟩

/-- **Where `t` shares bytes with the next segment, the count is wrong after merging.** -/
theorem mergeSeg_overlap (hrep : Rep m (l ++ t :: q :: r)) (hne : Nonempty m (l ++ t :: q :: r))
    (hlength : m.length = size (m.blocks (l ++ t :: q :: r)))
    (h₁ : (m.seg q).start < (m.seg t).stop) (h₂ : (m.seg t).start < (m.seg q).stop) :
    (m.mergeSeg t).bind checked = none := by
  have htne := hne t (by simp)
  have hqne := hne q (by simp)
  have hnext : m.links.next t = some q := hrep.links.next_eq
  rw [Option.bind_eq_none_iff]
  intro m' hmerge
  obtain ⟨m₁, hfirst, hprev⟩ := Option.bind_eq_some_iff.mp hmerge
  have hfuel : m.fuel = m.allocated + 1 := rfl
  rw [hfuel, mergeNext, hnext] at hfirst
  dsimp only at hfirst
  rw [MediaSegment.overlap_eq htne.le, Option.bind_some, if_pos (by simp; omega)] at hfirst
  split at hfirst
  · cases hfirst
  obtain ⟨m₂, habsorb, hrest⟩ := Option.bind_eq_some_iff.mp hfirst
  obtain ⟨hrep₁, hne₁, hlength₁, hsize⟩ := @absorb_shrinks m m₂ (l ++ t :: q :: r) l r q t (l ++ [t]) r
    hrep hne (by simp) (by simp) (by simp) ⟨h₁.le, h₂.le⟩ habsorb
  obtain ⟨r', hshrunk⟩ := mergeNext_shrinks m.allocated hrep₁ hne₁ hrest
  obtain ⟨l', hshrunk'⟩ := mergePrev_shrinks m₁.fuel hshrunk.rep hshrunk.nonempty hprev
  have hall := hshrunk.trans hshrunk'
  have hle := hall.size
  rw [hall.rep.checked, if_neg]
  rw [hall.length, hlength₁, hlength]
  omega

/-! ## When a segment fits -/

/-- The segment has bytes in the block. -/
def Meets (b s : Block) : Prop := b.start < s.stop ∧ s.start < b.stop

structure Fits (bs : List Block) (s : Block) : Prop where
  contains : ∀ b ∈ bs, s.start ≤ b.start → b.stop ≤ s.stop → b = s
  single : ∀ b ∈ bs, ∀ c ∈ bs, Meets b s → Meets c s → b = c

instance (b s : Block) : Decidable (Meets b s) := inferInstanceAs (Decidable (_ ∧ _))

instance (bs : List Block) (s : Block) : Decidable (Fits bs s) :=
  decidable_of_iff (_ ∧ _) ⟨fun h => ⟨h.1, h.2⟩, fun h => ⟨h.contains, h.single⟩⟩

theorem fits_of_before {bs : List Block} {s : Block} (hne : ∀ b ∈ bs, b.start < b.stop)
    (h : ∀ b ∈ bs, b.stop ≤ s.start) : Fits bs s where
  contains b hb hstart _ := by
    have := hne b hb
    have := h b hb
    omega
  single b hb _ _ hmeets _ := absurd hmeets.2 (not_lt.mpr (h b hb))

theorem fits_iff {bl br : List Block} {b s : Block} (hsep : Separated (bl ++ b :: br))
    (hne : ∀ c ∈ bl ++ b :: br, c.start < c.stop) (hs : s.start < s.stop)
    (hl : ∀ a ∈ bl, a.stop ≤ s.start) (hb : s.start < b.stop) :
    Fits (bl ++ b :: br) s ↔
      if s.start ≤ b.start ∧ b.stop ≤ s.stop then b = s else ∀ c ∈ br, s.stop ≤ c.start := by
  have hmem : b ∈ bl ++ b :: br := by simp
  have hgap : ∀ c ∈ br, b.stop < c.start :=
    (separated_cons.mp (separated_append.mp hsep).2.1).2.2
  -- only `b` and the blocks behind it can meet the segment
  have hcases {c : Block} (hc : c ∈ bl ++ b :: br) (hmeets : Meets c s) : c = b ∨ c ∈ br := by
    rcases mem_append.mp hc with hc | hc
    · exact absurd hmeets.2 (not_lt.mpr (hl c hc))
    · exact mem_cons.mp hc
  split
  case isTrue hwithin =>
    constructor
    · intro hfits
      exact hfits.contains b hmem hwithin.1 hwithin.2
    · rintro rfl
      have honly {c : Block} (hc : c ∈ bl ++ b :: br) (hmeets : Meets c b) : c = b := by
        rcases hcases hc hmeets with heq | hc
        · exact heq
        · have hlt := hgap c hc
          have hlt' := hmeets.1
          omega
      constructor
      · intro c hc hstart hstop
        have hcne := hne c hc
        exact honly hc ⟨by omega, by omega⟩
      · intro c hc d hd hmc hmd
        rw [honly hc hmc, honly hd hmd]
  case isFalse hwithin =>
    constructor
    · intro hfits c hc
      by_contra hlt
      have hbc := hgap c hc
      have hbne := hne b hmem
      have hcne := hne c (by simp [hc])
      have heq := hfits.single b hmem c (by simp [hc]) ⟨by omega, hb⟩ ⟨by omega, by omega⟩
      rw [← heq] at hbc
      omega
    · intro hbr
      have honly {c : Block} (hc : c ∈ bl ++ b :: br) (hmeets : Meets c s) : c = b := by
        rcases hcases hc hmeets with heq | hc
        · exact heq
        · exact absurd hmeets.1 (not_lt.mpr (hbr c hc))
      constructor
      · intro c hc hstart hstop
        have hcne := hne c hc
        obtain rfl := honly hc ⟨by omega, by omega⟩
        exact absurd ⟨hstart, hstop⟩ hwithin
      · intro c hc d hd hmc hmd
        rw [honly hc hmc, honly hd hmd]

/-! ## Adding -/

structure Inv (m : MediaSegmentList) (xs : List ℕ) : Prop where
  rep : Rep m xs
  nonempty : Nonempty m xs
  separated : Separated (m.blocks xs)
  length : m.length = size (m.blocks xs)

theorem Inv.blocks_nonempty (h : Inv m xs) {b : Block} (hb : b ∈ m.blocks xs) :
    b.start < b.stop := by
  obtain ⟨p, hp, rfl⟩ := mem_blocks.mp hb
  exact h.nonempty p hp

theorem Rep.seek (h : Rep m xs) (s : MediaSegment) :
    ∃ l r, xs = l ++ r ∧ m.seek s = some r.head? ∧ (∀ p ∈ l, (m.seg p).stop ≤ s.start) ∧
      ∀ t ∈ r.head?, s.start < (m.seg t).stop := by
  have hwalk := DLinks.Holds.walkNext (l := []) h.links (fun p => (m.seg p).before s) h.fuel
  refine ⟨xs.takeWhile (fun p => (m.seg p).before s), xs.dropWhile (fun p => (m.seg p).before s),
    takeWhile_append_dropWhile.symm, ?_, ?_, ?_⟩
  · rw [MediaSegmentList.seek, h.links.head, hwalk]
  · intro p hp
    have hbefore := mem_takeWhile_imp hp
    simpa [MediaSegment.before] using hbefore
  · intro t ht
    have hnot := head?_dropWhile_not (fun p => (m.seg p).before s) xs
    rw [Option.mem_def.mp ht] at hnot
    simpa [MediaSegment.before] using hnot

theorem Rep.new (h : Rep m xs) (s : MediaSegment) :
    Rep (m.new s) xs ∧ m.allocated ∉ xs ∧ (∀ p ∈ xs, (m.new s).seg p = m.seg p) ∧
      (m.new s).seg m.allocated = s := by
  have hfresh : m.allocated ∉ xs := fun hmem => lt_irrefl _ (h.alloc _ hmem)
  have hother {p : ℕ} (hp : p ∈ xs) : p ≠ m.allocated := fun heq => hfresh (heq ▸ hp)
  refine ⟨⟨⟨h.links.head, h.links.tail, h.links.path.congr ?_ ?_⟩, h.nodup, ?_⟩, hfresh, ?_, ?_⟩
  · exact fun p hp => update_of_ne (hother hp) ..
  · exact fun p hp => update_of_ne (hother hp) ..
  · exact fun p hp => Nat.lt_succ_of_lt (h.alloc p hp)
  · exact fun p hp => update_of_ne (hother hp) ..
  · exact update_self ..

theorem Rep.appendNew (h : Rep m xs) (s : MediaSegment) :
    ∃ m', m.appendNew s = some m' ∧ Rep m' (xs ++ [m.allocated]) ∧
      (∀ p ∈ xs, m'.seg p = m.seg p) ∧ m'.seg m.allocated = s ∧ m'.length = m.length := by
  obtain ⟨hnew, hfresh, hseg, hself⟩ := h.new s
  have hnd : (xs ++ [m.allocated]).Nodup :=
    nodup_append_comm.mp (nodup_cons.mpr ⟨hfresh, h.nodup⟩)
  have halloc : ∀ p ∈ xs ++ [m.allocated], p < m.allocated + 1 := by
    intro p hp
    rcases mem_append.mp hp with hp | hp
    · exact Nat.lt_succ_of_lt (h.alloc p hp)
    · rw [mem_singleton.mp hp]
      exact Nat.lt_succ_self _
  unfold MediaSegmentList.appendNew
  dsimp only
  rcases eq_nil_or_concat xs with rfl | ⟨l, q, hl⟩
  · have hhead : (m.new s).links.head = none := hnew.links.head
    rw [if_pos hhead]
    refine ⟨_, rfl, ⟨⟨rfl, rfl, ?_⟩, hnd, halloc⟩, hseg, hself, rfl⟩
    refine ⟨?_, ?_, trivial⟩
    · exact update_self ..
    · exact update_self ..
  · rw [concat_eq_append] at hl
    subst hl
    have htail : (m.new s).links.tail = some q := by
      rw [hnew.links.tail]
      simp
    have hhead : (m.new s).links.head ≠ none := by
      rw [hnew.links.head]
      simp
    rw [if_neg hhead, htail]
    exact ⟨_, rfl, ⟨appendAfter_holds hnew.links hnd, hnd, halloc⟩, hseg, hself, rfl⟩

/-- The list `xs'` holds the bytes of `xs` and those of `s`. -/
structure Added (m : MediaSegmentList) (xs : List ℕ) (s : MediaSegment) (m' : MediaSegmentList)
    (xs' : List ℕ) : Prop where
  inv : Inv m' xs'
  covers : ∀ x, Covers (m'.blocks xs') x ↔
    Covers (m.blocks xs) x ∨ (s.start ≤ x ∧ x < s.stop)

theorem Added.checked {xs' : List ℕ} (h : Added m xs s m' xs') : m'.checked = some m' := by
  rw [h.inv.rep.checked, if_pos h.inv.length.symm]

theorem Inv.addTail (h : Inv m xs) (hs : s.start < s.stop)
    (hbefore : ∀ p ∈ xs, (m.seg p).stop ≤ s.start) :
    ∃ m' xs', m.addTail s = some m' ∧ Added m xs s m' xs' := by
  -- without a gap of length zero a new element is appended
  have hnew (hgap : ∀ p ∈ xs, (m.seg p).stop < s.start) :
      ∃ m' xs', ({ m with length := m.length + s.datasize } : MediaSegmentList).appendNew s =
        some m' ∧ Added m xs s m' xs' := by
    have hrep : Rep { m with length := m.length + s.datasize } xs := h.rep.congr rfl rfl
    obtain ⟨m', happend, hrep', hseg, hself, hlength⟩ := hrep.appendNew s
    have hblocks : m'.blocks (xs ++ [m.allocated]) = m.blocks xs ++ [s.block] := by
      rw [blocks_append, blocks_congr hseg, blocks_cons, hself]
      rfl
    refine ⟨m', xs ++ [m.allocated], happend, ⟨hrep', ?_, ?_, ?_⟩, ?_⟩
    · intro p hp
      rcases mem_append.mp hp with hp | hp
      · rw [hseg p hp]
        exact h.nonempty p hp
      · rw [mem_singleton.mp hp, hself]
        exact hs
    · rw [hblocks, separated_append, separated_cons]
      refine ⟨h.separated, ⟨hs.le, separated_nil, by simp⟩, ?_⟩
      intro a ha b hb
      obtain ⟨p, hp, rfl⟩ := mem_blocks.mp ha
      rw [mem_singleton.mp hb]
      exact hgap p hp
    · rw [hlength, hblocks, size_append, size_cons, size_nil, add_zero, ← h.length]
      rfl
    · intro x
      rw [hblocks, covers_append, covers_cons, iff_false_intro covers_nil, or_false]
      rfl
  unfold MediaSegmentList.addTail
  dsimp only
  rcases eq_nil_or_concat xs with rfl | ⟨l, q, hl⟩
  · have htail : m.links.tail = none := h.rep.links.tail
    rw [htail]
    exact hnew (fun p hp => absurd hp not_mem_nil)
  · rw [concat_eq_append] at hl
    subst hl
    have htail : m.links.tail = some q := by
      rw [h.rep.links.tail]
      simp
    have hqne := h.nonempty q (by simp)
    have hq := hbefore q (by simp)
    have hsep := h.separated
    rw [blocks_append] at hsep
    have hgap : ∀ p ∈ l, (m.seg p).stop < (m.seg q).start := fun p hp =>
      (separated_append.mp hsep).2.2 _ (mem_blocks.mpr ⟨p, hp, rfl⟩) (m.seg q).block (by simp)
    rw [htail]
    dsimp only
    rw [MediaSegment.overlap_eq hs.le, Option.bind_some]
    by_cases htouch : s.start ≤ (m.seg q).stop
    · rw [if_pos (by simp; omega)]
      obtain ⟨t', overlapping, hmerge, hblock, -⟩ :=
        MediaSegment.merge_spec hqne.le hs.le (by omega) htouch
      rw [hmerge, Option.map_some]
      have hnot : q ∉ l := (nodup_middle h.rep.nodup).2.2.1
      have hseg : ∀ p ∈ l, update m.seg q t' p = m.seg p := by
        intro p hp
        apply update_of_ne
        rintro rfl
        exact hnot hp
      have hblock' : t'.block = ⟨(m.seg q).start, s.stop⟩ := by
        rw [hblock, Block.mk.injEq]
        omega
      generalize hm' : ({ m with
        length := m.length + s.datasize, seg := update m.seg q t' } :
          MediaSegmentList) = m'
      have hblocks : m'.blocks (l ++ [q]) = m.blocks l ++ [⟨(m.seg q).start, s.stop⟩] := by
        subst hm'
        rw [blocks_append, blocks_congr (m := m) hseg, blocks_cons, blocks_nil]
        dsimp only
        rw [update_self, hblock']
      refine ⟨m', l ++ [q], rfl, ⟨?_, ?_, ?_, ?_⟩, ?_⟩
      · subst hm'
        exact h.rep.congr rfl rfl
      · intro p hp
        have hmem : (m'.seg p).block ∈ m'.blocks (l ++ [q]) := mem_blocks.mpr ⟨p, hp, rfl⟩
        rw [hblocks] at hmem
        rcases mem_append.mp hmem with hmem | hmem
        · exact h.blocks_nonempty (b := (m'.seg p).block) (by rw [blocks_append]; simp [hmem])
        · have heq := mem_singleton.mp hmem
          rw [MediaSegment.block, Block.mk.injEq] at heq
          omega
      · rw [hblocks, separated_append, separated_cons]
        refine ⟨(separated_append.mp hsep).1, ⟨by dsimp only; omega, separated_nil, by simp⟩, ?_⟩
        intro a ha b hb
        obtain ⟨p, hp, rfl⟩ := mem_blocks.mp ha
        rw [mem_singleton.mp hb]
        exact hgap p hp
      · have hlength := h.length
        rw [blocks_append] at hlength
        rw [hblocks]
        subst hm'
        simp only [blocks_cons, blocks_nil, size_append, size_cons, size_nil, MediaSegment.block,
          MediaSegment.datasize] at hlength ⊢
        omega
      · intro x
        rw [hblocks, blocks_append]
        simp only [blocks_cons, blocks_nil, covers_append, covers_cons, covers_nil,
          MediaSegment.block, or_false, or_assoc]
        have hmid : ((m.seg q).start ≤ x ∧ x < s.stop) ↔
            ((m.seg q).start ≤ x ∧ x < (m.seg q).stop) ∨ (s.start ≤ x ∧ x < s.stop) := by omega
        rw [hmid]
    · rw [if_neg (by simp; omega)]
      apply hnew
      intro p hp
      rcases mem_append.mp hp with hp | hp
      · have hpq := hgap p hp
        omega
      · rw [mem_singleton.mp hp]
        omega

structure Placed (m : MediaSegmentList) (xs : List ℕ) (s : MediaSegment) (m' : MediaSegmentList)
    (xs' : List ℕ) : Prop where
  rep : Rep m' xs'
  nonempty : Nonempty m' xs'
  length : m'.length = size (m'.blocks xs')
  covers : ∀ x, Covers (m'.blocks xs') x ↔
    Covers (m.blocks xs) x ∨ (s.start ≤ x ∧ x < s.stop)

theorem Inv.placeMerge (h : Inv m (l ++ t :: r)) (hs : s.start < s.stop)
    (hb : s.start < (m.seg t).stop) (ht : (m.seg t).start ≤ s.stop) :
    ∃ m', m.place t s = some (m', t) ∧ Placed m (l ++ t :: r) s m' (l ++ t :: r) ∧
      (∀ p, p ≠ t → m'.seg p = m.seg p) ∧
      (m'.seg t).block = ⟨min (m.seg t).start s.start, max (m.seg t).stop s.stop⟩ := by
  have htne := h.nonempty t (by simp)
  obtain ⟨t', overlapping, hmerge, hblock, hover⟩ :=
    MediaSegment.merge_spec htne.le hs.le ht hb.le
  obtain ⟨-, -, htl, htr, -⟩ := nodup_middle h.rep.nodup
  have hl : ∀ p ∈ l, update m.seg t t' p = m.seg p := by
    intro p hp
    apply update_of_ne
    rintro rfl
    exact htl hp
  have hr : ∀ p ∈ r, update m.seg t t' p = m.seg p := by
    intro p hp
    apply update_of_ne
    rintro rfl
    exact htr hp
  generalize hm' : ({ m with
    seg := update m.seg t t'
    length := m.length + (s.datasize - overlapping) } : MediaSegmentList) = m'
  have hself : m'.seg t = t' := by
    subst hm'
    exact update_self ..
  have hblocks : m'.blocks (l ++ t :: r) = m.blocks l ++
      ⟨min (m.seg t).start s.start, max (m.seg t).stop s.stop⟩ :: m.blocks r := by
    have hbl : m'.blocks l = m.blocks l := by
      subst hm'
      exact blocks_congr hl
    have hbr : m'.blocks r = m.blocks r := by
      subst hm'
      exact blocks_congr hr
    rw [blocks_append, blocks_cons, hself, hblock, hbl, hbr]
  refine ⟨m', ?_, ⟨?_, ?_, ?_, ?_⟩, ?_, ?_⟩
  · unfold MediaSegmentList.place
    rw [MediaSegment.overlap_eq hs.le, Option.bind_some, if_pos (by simp; omega), hmerge,
      Option.map_some, hm']
  · subst hm'
    exact h.rep.congr rfl rfl
  · intro p hp
    have hmem : (m'.seg p).block ∈ m'.blocks (l ++ t :: r) := mem_blocks.mpr ⟨p, hp, rfl⟩
    rw [hblocks] at hmem
    have hold (hmem : (m'.seg p).block ∈ m.blocks (l ++ t :: r)) :
        (m'.seg p).start < (m'.seg p).stop := h.blocks_nonempty hmem
    rw [blocks_append] at hold
    rcases mem_append.mp hmem with hmem | hmem
    · exact hold (mem_append_left _ hmem)
    rcases mem_cons.mp hmem with heq | hmem
    · rw [MediaSegment.block, Block.mk.injEq] at heq
      omega
    · exact hold (by simp [hmem])
  · have hlength := h.length
    rw [hblocks]
    subst hm'
    simp only [blocks_append, blocks_cons, size_append, size_cons, MediaSegment.block,
      MediaSegment.datasize] at hlength ⊢
    omega
  · intro x
    rw [hblocks, blocks_append, blocks_cons]
    simp only [covers_append, covers_cons, MediaSegment.block]
    have hmid : (min (m.seg t).start s.start ≤ x ∧ x < max (m.seg t).stop s.stop) ↔
        ((m.seg t).start ≤ x ∧ x < (m.seg t).stop) ∨ (s.start ≤ x ∧ x < s.stop) := by omega
    rw [hmid]
    tauto
  · intro p hp
    subst hm'
    exact update_of_ne hp ..
  · rw [hself, hblock]

theorem Inv.placeNew (h : Inv m (l ++ t :: r)) (hs : s.start < s.stop)
    (ht : s.stop < (m.seg t).start) :
    ∃ m' p, m.place t s = some (m', p) ∧ Placed m (l ++ t :: r) s m' (l ++ p :: t :: r) ∧
      (∀ q ∈ l ++ t :: r, m'.seg q = m.seg q) ∧ m'.seg p = s := by
  obtain ⟨hnew, hfresh, hseg, hself⟩ := h.rep.new s
  have hnd : (l ++ m.allocated :: t :: r).Nodup :=
    List.nodup_middle.mpr (nodup_cons.mpr ⟨hfresh, h.rep.nodup⟩)
  generalize hm' : ({ m.new s with
    links := insertBefore (m.new s).links m.allocated t
    length := m.length + s.datasize } : MediaSegmentList) = m'
  have hsegm : m'.seg = (m.new s).seg := by rw [← hm']
  have hl : ∀ p ∈ l, m'.seg p = m.seg p := by
    intro p hp
    rw [hsegm]
    exact hseg p (by simp [hp])
  have hr : ∀ p ∈ t :: r, m'.seg p = m.seg p := by
    intro p hp
    rw [hsegm]
    exact hseg p (mem_append_right _ hp)
  have hblocks : m'.blocks (l ++ m.allocated :: t :: r) =
      m.blocks l ++ s.block :: m.blocks (t :: r) := by
    rw [blocks_append, blocks_cons, hsegm, hself, blocks_congr hl, blocks_congr hr]
  refine ⟨m', m.allocated, ?_, ⟨?_, ?_, ?_, ?_⟩, ?_, ?_⟩
  · unfold MediaSegmentList.place
    rw [MediaSegment.overlap_eq hs.le, Option.bind_some, if_neg (by simp; omega)]
    dsimp only
    rw [← hm']
    rfl
  · rw [← hm']
    refine ⟨insertBefore_holds hnew.links hnd, hnd, ?_⟩
    intro p hp
    rcases mem_append.mp hp with hp | hp
    · exact hnew.alloc p (by simp [hp])
    rcases mem_cons.mp hp with rfl | hp
    · exact Nat.lt_succ_self _
    · exact hnew.alloc p (mem_append_right _ hp)
  · intro p hp
    rcases mem_append.mp hp with hp | hp
    · rw [hl p hp]
      exact h.nonempty p (by simp [hp])
    rcases mem_cons.mp hp with rfl | hp
    · rw [hsegm, hself]
      exact hs
    · rw [hr p hp]
      exact h.nonempty p (mem_append_right _ hp)
  · have hlength := h.length
    rw [hblocks, ← hm']
    simp only [blocks_append, blocks_cons, size_append, size_cons, MediaSegment.block,
      MediaSegment.datasize] at hlength ⊢
    omega
  · intro x
    rw [hblocks, blocks_append, covers_append, covers_cons, covers_append]
    simp only [MediaSegment.block]
    tauto
  · intro q hq
    rw [hsegm]
    exact hseg q hq
  · rw [hsegm, hself]

theorem Placed.finish {m₁ : MediaSegmentList} (h : Placed m xs s m₁ (l ++ t :: r))
    (hloose : Loose m₁ l t r) :
    ∃ m' xs', (m₁.checked.bind fun m₁ => (m₁.mergeSeg t).bind MediaSegmentList.checked) = some m' ∧
      Added m xs s m' xs' := by
  obtain ⟨m', xs', hmerge, hrep, hne, hsep, hsame⟩ := hloose.mergeSeg
  have hadded : Added m xs s m' xs' :=
    { inv := ⟨hrep, hne, hsep, by rw [hsame.length, h.length, hsame.size]⟩
      covers := fun x => (hsame.covers x).trans (h.covers x) }
  refine ⟨m', xs', ?_, hadded⟩
  rw [h.rep.checked, if_pos h.length.symm, Option.bind_some, hmerge, Option.bind_some,
    hadded.checked]

theorem Inv.add_fits (h : Inv m xs) (hs : s.start < s.stop) (hfits : Fits (m.blocks xs) s.block) :
    ∃ m' xs', m.add s = some m' ∧ Added m xs s m' xs' := by
  obtain ⟨l, r, rfl, hseek, hbefore, hhead⟩ := h.rep.seek s
  unfold MediaSegmentList.add
  rw [hseek, Option.bind_some]
  cases r with
  | nil =>
    rw [append_nil] at h ⊢
    obtain ⟨m', xs', hadd, hadded⟩ := h.addTail hs hbefore
    refine ⟨m', xs', ?_, hadded⟩
    rw [head?_nil]
    dsimp only
    rw [hadd, Option.bind_some, hadded.checked]
  | cons t r =>
    have hb : s.start < (m.seg t).stop := hhead t rfl
    have htne := h.nonempty t (by simp)
    have hsep := h.separated
    rw [blocks_append, blocks_cons] at hsep hfits
    have hbl : ∀ a ∈ m.blocks l, a.stop ≤ s.block.start := by
      intro a ha
      obtain ⟨p, hp, rfl⟩ := mem_blocks.mp ha
      exact hbefore p hp
    rw [fits_iff hsep
      (fun c hc => h.blocks_nonempty (by rwa [blocks_append, blocks_cons])) hs hbl hb] at hfits
    have hleft : Separated (m.blocks l) := (separated_append.mp hsep).1
    have hright : Separated (m.blocks r) :=
      (separated_cons.mp (separated_append.mp hsep).2.1).2.1
    have hlt : ∀ p ∈ l, (m.seg p).stop < (m.seg t).start := fun p hp =>
      (separated_append.mp hsep).2.2 _ (mem_blocks.mpr ⟨p, hp, rfl⟩) _ mem_cons_self
    have hrt : ∀ p ∈ r, (m.seg t).stop < (m.seg p).start := fun p hp =>
      (separated_cons.mp (separated_append.mp hsep).2.1).2.2 _ (mem_blocks.mpr ⟨p, hp, rfl⟩)
    rw [head?_cons]
    dsimp only
    by_cases hwithin : s.start ≤ (m.seg t).start ∧ (m.seg t).stop ≤ s.stop
    · -- the segment is there already
      rw [if_pos (by simpa [MediaSegment.within] using hwithin)]
      rw [if_pos (show s.block.start ≤ (m.seg t).block.start ∧
        (m.seg t).block.stop ≤ s.block.stop from hwithin)] at hfits
      refine ⟨m, l ++ t :: r, rfl, h, fun x => ⟨Or.inl, fun hx => hx.elim id (fun hx => ?_)⟩⟩
      exact ⟨(m.seg t).block, mem_blocks.mpr ⟨t, by simp, rfl⟩, by rw [hfits]; exact hx⟩
    · rw [if_neg (by simpa [MediaSegment.within] using hwithin)]
      rw [if_neg (show ¬ (s.block.start ≤ (m.seg t).block.start ∧
        (m.seg t).block.stop ≤ s.block.stop) from hwithin)] at hfits
      have hrs : ∀ p ∈ r, s.stop ≤ (m.seg p).start := fun p hp =>
        hfits _ (mem_blocks.mpr ⟨p, hp, rfl⟩)
      -- the segment grows the one it meets, or becomes one before it
      by_cases htouch : (m.seg t).start ≤ s.stop
      · obtain ⟨m₁, hplace, hplaced, hseg, hblock⟩ := h.placeMerge hs hb htouch
        rw [MediaSegment.block, Block.mk.injEq] at hblock
        obtain ⟨-, -, htl, htr, -⟩ := nodup_middle h.rep.nodup
        have hloose : Loose m₁ l t r := by
          refine Loose.of_seg (m := m) hplaced.rep ?_ ?_ (by omega) hleft hright ?_ ?_
          · intro p hp
            apply hseg
            rintro rfl
            exact (mem_append.mp hp).elim htl htr
          · intro p hp
            apply h.nonempty
            rcases mem_append.mp hp with hp | hp
            · simp [hp]
            · simp [hp]
          · intro p hp
            have h₁ := hbefore p hp
            have h₂ := hlt p hp
            omega
          · intro p hp
            have h₁ := hrs p hp
            have h₂ := hrt p hp
            omega
        obtain ⟨m', xs', hfinish, hadded⟩ := hplaced.finish hloose
        exact ⟨m', xs', by rw [hplace, Option.bind_some, hfinish], hadded⟩
      · obtain ⟨m₁, p, hplace, hplaced, hseg, hself⟩ := h.placeNew hs (by omega)
        have hloose : Loose m₁ l p (t :: r) := by
          refine Loose.of_seg (m := m) hplaced.rep hseg h.nonempty (by rw [hself]; exact hs)
            hleft (separated_append.mp hsep).2.1 ?_ ?_
          · intro q hq
            rw [hself]
            exact hbefore q hq
          · intro q hq
            rw [hself]
            rcases mem_cons.mp hq with rfl | hq
            · omega
            · exact hrs q hq
        obtain ⟨m', xs', hfinish, hadded⟩ := hplaced.finish hloose
        exact ⟨m', xs', by rw [hplace, Option.bind_some, hfinish], hadded⟩

/-- **A segment that does not fit is dropped or makes the list abort.** -/
theorem Inv.add_unfit (h : Inv m xs) (hs : s.start < s.stop)
    (hfits : ¬ Fits (m.blocks xs) s.block) (hadd : m.add s = some m') :
    m' = m ∧ ∃ x, s.start ≤ x ∧ x < s.stop ∧ ¬ Covers (m.blocks xs) x := by
  obtain ⟨l, r, rfl, hseek, hbefore, hhead⟩ := h.rep.seek s
  unfold MediaSegmentList.add at hadd
  rw [hseek, Option.bind_some] at hadd
  cases r with
  | nil =>
    refine absurd (fits_of_before (fun b hb => h.blocks_nonempty hb) ?_) hfits
    intro b hb
    obtain ⟨p, hp, rfl⟩ := mem_blocks.mp hb
    rw [append_nil] at hp
    exact hbefore p hp
  | cons t r =>
    have hb : s.start < (m.seg t).stop := hhead t rfl
    have htne := h.nonempty t (by simp)
    have hsep := h.separated
    rw [blocks_append, blocks_cons] at hsep hfits
    have hbl : ∀ a ∈ m.blocks l, a.stop ≤ s.block.start := by
      intro a ha
      obtain ⟨p, hp, rfl⟩ := mem_blocks.mp ha
      exact hbefore p hp
    rw [fits_iff hsep
      (fun c hc => h.blocks_nonempty (by rwa [blocks_append, blocks_cons])) hs hbl hb] at hfits
    have hrt : ∀ c ∈ m.blocks r, (m.seg t).stop < c.start :=
      (separated_cons.mp (separated_append.mp hsep).2.1).2.2
    rw [head?_cons] at hadd
    dsimp only at hadd
    by_cases hwithin : s.start ≤ (m.seg t).start ∧ (m.seg t).stop ≤ s.stop
    · rw [if_pos (by simpa [MediaSegment.within] using hwithin)] at hadd
      rw [if_pos (show s.block.start ≤ (m.seg t).block.start ∧
        (m.seg t).block.stop ≤ s.block.stop from hwithin)] at hfits
      refine ⟨(Option.some.inj hadd).symm, ?_⟩
      -- a byte right before or right behind `t` is missing
      have hmissing {x : ℤ} (hx : s.start ≤ x) (hout : x < (m.seg t).start ∨ x = (m.seg t).stop) :
          ¬ Covers (m.blocks (l ++ t :: r)) x := by
        rintro ⟨c, hc, h₁, h₂⟩
        rw [blocks_append, blocks_cons] at hc
        rcases mem_append.mp hc with hc | hc
        · have hcl : c.stop ≤ s.start := hbl c hc
          omega
        rcases mem_cons.mp hc with rfl | hc
        · simp only [MediaSegment.block] at h₁ h₂
          omega
        · have hcr := hrt c hc
          omega
      by_cases hstart : s.start < (m.seg t).start
      · exact ⟨s.start, le_rfl, hs, hmissing le_rfl (Or.inl hstart)⟩
      · have hstop : (m.seg t).stop < s.stop := by
          by_contra hge
          apply hfits
          rw [MediaSegment.block, MediaSegment.block, Block.mk.injEq]
          omega
        exact ⟨(m.seg t).stop, by omega, hstop, hmissing (by omega) (Or.inr rfl)⟩
    · rw [if_neg (by simpa [MediaSegment.within] using hwithin)] at hadd
      rw [if_neg (show ¬ (s.block.start ≤ (m.seg t).block.start ∧
        (m.seg t).block.stop ≤ s.block.stop) from hwithin)] at hfits
      push Not at hfits
      obtain ⟨c, hc, hcs⟩ := hfits
      -- the segment reaches into the block behind `t`
      cases r with
      | nil => cases hc
      | cons q r =>
        have hqne := h.nonempty q (by simp)
        have hqt : (m.seg t).stop < (m.seg q).start :=
          hrt (m.seg q).block (by simp)
        have hqs : (m.seg q).start < s.stop := by
          rw [blocks_cons] at hc
          rcases mem_cons.mp hc with rfl | hc
          · exact hcs
          · have hqc : (m.seg q).stop < c.start :=
              (separated_cons.mp (separated_cons.mp (separated_append.mp hsep).2.1).2.1).2.2 c hc
            have hcs' : c.start < s.stop := hcs
            omega
        obtain ⟨m₁, hplace, hplaced, hseg, hblock⟩ := h.placeMerge hs hb (by omega)
        rw [MediaSegment.block, Block.mk.injEq] at hblock
        have hqseg : m₁.seg q = m.seg q := hseg q (by rintro rfl; omega)
        have hnone := mergeSeg_overlap hplaced.rep hplaced.nonempty hplaced.length
          (by rw [hqseg]; omega) (by rw [hqseg]; omega)
        rw [hplace, Option.bind_some, hplaced.rep.checked, if_pos hplaced.length.symm,
          Option.bind_some, hnone] at hadd
        cases hadd

theorem Inv.contains (h : Inv m xs) (hs : s.start < s.stop) :
    m.contains s = some true ↔ ∀ x, s.start ≤ x → x < s.stop → Covers (m.blocks xs) x := by
  obtain ⟨l, r, rfl, hseek, hbefore, hhead⟩ := h.rep.seek s
  have hleft {x : ℤ} (hx : s.start ≤ x) : ¬ Covers (m.blocks l) x := by
    rintro ⟨c, hc, -, h₂⟩
    obtain ⟨p, hp, rfl⟩ := mem_blocks.mp hc
    exact absurd h₂ (not_lt.mpr ((hbefore p hp).trans hx))
  unfold MediaSegmentList.contains
  rw [hseek, Option.map_some]
  cases r with
  | nil =>
    rw [append_nil]
    refine iff_of_false (by simp) (fun hall => ?_)
    exact hleft le_rfl (hall s.start le_rfl hs)
  | cons t r =>
    have hb : s.start < (m.seg t).stop := hhead t rfl
    have hsep := h.separated
    rw [blocks_append, blocks_cons] at hsep
    have hright {x : ℤ} (hx : x ≤ (m.seg t).stop) : ¬ Covers (m.blocks r) x := by
      rintro ⟨c, hc, h₁, -⟩
      have hgap : (m.seg t).stop < c.start :=
        (separated_cons.mp (separated_append.mp hsep).2.1).2.2 c hc
      omega
    rw [head?_cons, blocks_append, blocks_cons]
    simp only [Option.some.injEq, MediaSegment.within, decide_eq_true_eq]
    constructor
    · rintro ⟨hstart, hstop⟩ x hx hx'
      refine ⟨(m.seg t).block, by simp, ?_⟩
      simp only [MediaSegment.block]
      omega
    · intro hall
      have honly {x : ℤ} (hx : s.start ≤ x) (hx' : x < s.stop) (hxt : x ≤ (m.seg t).stop) :
          (m.seg t).start ≤ x ∧ x < (m.seg t).stop := by
        have hcov := hall x hx hx'
        rw [covers_append, covers_cons] at hcov
        exact (hcov.resolve_left (hleft hx)).resolve_right (hright hxt)
      refine ⟨(honly le_rfl hs hb.le).1, ?_⟩
      by_contra hlt
      exact lt_irrefl _ (honly (x := (m.seg t).stop) hb.le (by omega) le_rfl).2

/-! ## Runs -/

/-- What the list is for: it is in order, with gaps between the segments, and has the bytes of the added
segments; `length` counts them, the ends are the first and the last element. -/
structure Sound (added : List MediaSegment) (m : MediaSegmentList) (xs : List ℕ) : Prop where
  links : m.links.Holds xs
  nonempty : Nonempty m xs
  separated : Separated (m.blocks xs)
  covers : ∀ x, Covers (m.blocks xs) x ↔ ∃ s ∈ added, s.start ≤ x ∧ x < s.stop
  length : m.length = (points (m.blocks xs)).card
  last : ∀ s ∈ added.getLast?, m.contains s = some true

def step (m : MediaSegmentList) (s : MediaSegment) : Option (MediaSegmentList × Unit) :=
  (m.add s).map (fun m => (m, ()))

def Correct (added : List MediaSegment) : Prop :=
  ∀ past, past <+: added → ∃ m os xs, Runs.run step init past = some (m, os) ∧ Sound past m xs

/-- The segment fits into the list in which it arrives. -/
def Fitting (m : MediaSegmentList) (s : MediaSegment) : Prop :=
  ∀ xs, m.links.Holds xs → Fits (m.blocks xs) s.block

theorem run_fitting {added : List MediaSegment} (hne : ∀ s ∈ added, s.start < s.stop)
    (hok : Runs.Meets step Fitting init added) :
    ∃ m os, Runs.run step init added = some (m, os) ∧
      ∃ xs, Inv m xs ∧ Sound added m xs := by
  refine @Runs.run_invariant _ _ _ _ _ _ _ (fun past _ m => ∃ xs, Inv m xs ∧ Sound past m xs) ?_ ?_ (hok.and_forall hne)
  · rintro past os m s ⟨xs, hinv, hsound⟩ ⟨hfits, hs⟩
    obtain ⟨m', xs', hadd, hadded⟩ := hinv.add_fits hs (hfits xs hinv.rep.links)
    refine ⟨m', (), by rw [step, hadd, Option.map_some], xs', hadded.inv, hadded.inv.rep.links,
      hadded.inv.nonempty, hadded.inv.separated, ?_, ?_, ?_⟩
    · intro x
      rw [hadded.covers, hsound.covers]
      simp only [mem_append, mem_singleton, or_and_right, exists_or, exists_eq_left]
    · rw [hadded.inv.length, size_eq_card hadded.inv.separated]
    · intro s' hs'
      rw [getLast?_concat, Option.mem_some_iff] at hs'
      subst hs'
      rw [hadded.inv.contains hs]
      intro x hx hx'
      exact (hadded.covers x).mpr (Or.inr ⟨hx, hx'⟩)
  · have hlinks : init.links.Holds [] := DLinks.holds_nil rfl rfl
    have hinv : Inv init [] :=
      ⟨⟨hlinks, nodup_nil, fun p hp => absurd hp not_mem_nil⟩,
        fun p hp => absurd hp not_mem_nil, separated_nil, rfl⟩
    exact ⟨[], hinv, hlinks, hinv.nonempty, separated_nil, fun x => by simp, rfl,
      fun s hs => absurd hs (by simp)⟩

end MediaSegmentList

end NetSim
