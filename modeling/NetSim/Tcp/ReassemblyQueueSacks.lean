import NetSim.Tcp.ReassemblyQueueClear
import NetSim.Tcp.ReassemblyQueuePlaces

/-! # The reassembly queue as a scoreboard

A sender keeps the SACK blocks that it hears of in a reassembly queue, whose reference `rcv_nxt_`
then stands for the left edge of the scoreboard. The blocks are not empty, so `add` never fails
(`addBlocks_spec`), and the left edge moves through covered sequence numbers only
(`AddsAll.filled`, `AddsAll.mono`).
-/

namespace NetSim

open LinkedList IntervalList

namespace ReassemblyQueue

variable {q q' : ReassemblyQueue} {xs xs' : List ℕ} {s e : ℤ} {sacks rest : List (ℤ × ℤ)}

/-! ## The blocks of a queue, read off its links -/

def nodesFrom (q : ReassemblyQueue) : ℕ → Option ℕ → List ℕ
  | 0, _ => []
  | _ + 1, none => []
  | fuel + 1, some p => p :: q.nodesFrom fuel (q.fifo.next p)

def stored (q : ReassemblyQueue) : List Block := q.blocks (q.nodesFrom q.fuel q.fifo.head)

theorem nodesFrom_eq {l r : List ℕ} (h : q.fifo.Holds (l ++ r)) {fuel : ℕ}
    (hfuel : r.length < fuel) : q.nodesFrom fuel r.head? = r := by
  induction r generalizing l fuel with
  | nil =>
    obtain ⟨fuel, rfl⟩ : ∃ k, fuel = k + 1 := ⟨fuel - 1, by simp at hfuel; omega⟩
    rfl
  | cons a r ih =>
    obtain ⟨fuel, rfl⟩ : ∃ k, fuel = k + 1 := ⟨fuel - 1, by simp at hfuel; omega⟩
    have h' : q.fifo.Holds ((l ++ [a]) ++ r) := by simpa using h
    rw [List.head?_cons, nodesFrom, h.next_eq, ih h' (by simpa using hfuel)]

theorem Valid.stored_eq (hv : Valid q xs) : q.stored = q.blocks xs := by
  obtain ⟨ys, fs, hrep⟩ := hv.rep
  have hnodes := nodesFrom_eq (show q.fifo.Holds ([] ++ xs) from hrep.fifo) hrep.length_lt_fuel
  rw [stored, hrep.fifo.head, hnodes]

/-! ## Queues without empty blocks -/

/-- A valid queue without empty blocks. -/
structure Solid (q : ReassemblyQueue) (xs : List ℕ) : Prop where
  valid : Valid q xs
  nonempty : ∀ b ∈ q.blocks xs, b.start < b.stop

theorem IsEmpty.solid (h : q.IsEmpty) : Solid q [] := ⟨h.valid, by simp⟩

theorem Solid.setRcvNxt (h : Solid q xs) (n : ℤ) : Solid { q with rcvNxt := n } xs := by
  obtain ⟨ys, fs, hrep⟩ := h.valid.rep
  exact ⟨⟨⟨ys, fs, hrep.congr rfl rfl rfl rfl⟩, h.valid.separated, h.valid.total⟩, h.nonempty⟩

theorem Solid.setHint (h : Solid q xs) (p : Option ℕ) : Solid { q with hint := p } xs := by
  obtain ⟨ys, fs, hrep⟩ := h.valid.rep
  exact ⟨⟨⟨ys, fs, hrep.congr rfl rfl rfl rfl⟩, h.valid.separated, h.valid.total⟩, h.nonempty⟩

theorem Solid.not_swallows (h : Solid q xs) (s e : ℤ) : q.swallowsHead s e = false := by
  obtain ⟨ys, fs, hrep⟩ := h.valid.rep
  unfold swallowsHead
  split
  case h_1 a t ha ht =>
    have hmem : a ∈ xs := List.mem_of_head? (hrep.fifo.head.symm.trans ha)
    have hlt : q.startseq a < q.endseq a := h.nonempty (q.block a) (List.mem_map.mpr ⟨a, hmem, rfl⟩)
    rw [decide_eq_false_iff_not]
    rintro ⟨-, -, h1, h2, -⟩
    omega
  case h_2 => rfl

theorem Solid.add (h : Solid q xs) (hse : s < e) (tiflags rqflags : ℕ) :
    ∃ q' flags xs', q.add s e tiflags rqflags = some (q', flags) ∧ Solid q' xs' ∧
      Extends (q.blocks xs) s e (q'.blocks xs') ∧
      Advances (q.blocks xs) s (q'.blocks xs') q.rcvNxt q'.rcvNxt := by
  obtain ⟨q', flags, xs', hadd, hv', hext, hadv⟩ :=
    add_spec h.valid hse.le (h.not_swallows s e) tiflags rqflags
  exact ⟨q', flags, xs', hadd, ⟨hv', hext.nonempty h.nonempty hse⟩, hext, hadv⟩

theorem Solid.covers_start (h : Solid q xs) {b : Block} (hb : b ∈ q.blocks xs) :
    Covers (q.blocks xs) b.start := ⟨b, hb, le_rfl, h.nonempty b hb⟩

theorem Solid.covers_last (h : Solid q xs) {b : Block} (hb : b ∈ q.blocks xs) :
    Covers (q.blocks xs) (b.stop - 1) := by
  have := h.nonempty b hb
  exact ⟨b, hb, by omega, by omega⟩

theorem Solid.clearto (h : Solid q xs) (seq : ℤ) :
    ∃ q' flag xs', q.clearto seq = some (q', flag) ∧ Solid q' xs' ∧
      (∀ x, Covers (q'.blocks xs') x ↔ Covers (q.blocks xs) x ∧ seq ≤ x) ∧
      q'.rcvNxt = q.rcvNxt := by
  obtain ⟨q', flag, xs', hclear, hv', hblocks, hrcv⟩ := clearto_spec h.valid seq
  refine ⟨q', flag, xs', hclear, ⟨hv', fun b hb => ?_⟩, fun x => ?_, hrcv⟩
  · rw [hblocks] at hb
    exact nonempty_truncate h.valid.separated h.nonempty hb
  · rw [hblocks, covers_truncate h.valid.separated]

/-! ## Adding a list of blocks -/

def addBlocks : ReassemblyQueue → List (ℤ × ℤ) → Option ReassemblyQueue
  | q, [] => some q
  | q, (left, right) :: rest => (q.add left right 0 0).bind (fun r => addBlocks r.1 rest)

structure AddsAll (q : ReassemblyQueue) (xs : List ℕ) (sacks : List (ℤ × ℤ))
    (q' : ReassemblyQueue) (xs' : List ℕ) : Prop where
  solid : Solid q' xs'
  covers : ∀ x, Covers (q'.blocks xs') x ↔
    Covers (q.blocks xs) x ∨ ∃ b ∈ sacks, b.1 ≤ x ∧ x < b.2
  filled : ∀ lo, (∀ x, lo ≤ x → x < q.rcvNxt → Covers (q.blocks xs) x) →
    ∀ x, lo ≤ x → x < q'.rcvNxt → Covers (q'.blocks xs') x
  mono : ∀ lo, (∀ x, Covers (q'.blocks xs') x → lo ≤ x) →
    (∀ x, lo ≤ x → x < q.rcvNxt → Covers (q.blocks xs) x) → q.rcvNxt ≤ q'.rcvNxt

theorem AddsAll.refl (h : Solid q xs) : AddsAll q xs [] q xs where
  solid := h
  covers x := by simp
  filled _ hf := hf
  mono _ _ _ := le_rfl

theorem AddsAll.cons {q₁ : ReassemblyQueue} {xs₁ : List ℕ} (h₁ : Solid q₁ xs₁)
    (hext : Extends (q.blocks xs) s e (q₁.blocks xs₁))
    (hadv : Advances (q.blocks xs) s (q₁.blocks xs₁) q.rcvNxt q₁.rcvNxt)
    (h : AddsAll q₁ xs₁ rest q' xs') : AddsAll q xs ((s, e) :: rest) q' xs' := by
  have hsub : ∀ x, Covers (q.blocks xs) x → Covers (q₁.blocks xs₁) x :=
    fun x hx => (hext.covers x).mpr (Or.inl hx)
  -- the left edge moves to the end of a block that it reaches
  have hfilled : ∀ lo, (∀ x, lo ≤ x → x < q.rcvNxt → Covers (q.blocks xs) x) →
      ∀ x, lo ≤ x → x < q₁.rcvNxt → Covers (q₁.blocks xs₁) x := by
    intro lo hf x hx hx'
    by_cases hlt : x < q.rcvNxt
    · exact hsub x (hf x hx hlt)
    · rcases hadv.moves with heq | ⟨b, hb, hle, heq⟩
      · omega
      · exact ⟨b, hb, by omega, by omega⟩
  refine ⟨h.solid, fun x => ?_, fun lo hf => h.filled lo (hfilled lo hf), fun lo hlo hf => ?_⟩
  · rw [h.covers, hext.covers]
    simp only [List.mem_cons, exists_eq_or_imp]
    exact or_assoc
  · have hlo₁ : ∀ x, Covers (q₁.blocks xs₁) x → lo ≤ x :=
      fun x hx => hlo x ((h.covers x).mpr (Or.inl hx))
    have hstep : q.rcvNxt ≤ q₁.rcvNxt := by
      rcases hadv.moves with heq | ⟨b, hb, hle, heq⟩
      · exact heq.ge
      · rw [heq]
        exact h₁.valid.separated.le_stop hb (h₁.nonempty b hb) (hlo₁ _ (h₁.covers_start hb))
          (fun x hx hx' => hsub x (hf x hx hx'))
    exact hstep.trans (h.mono lo hlo (hfilled lo hf))

theorem addBlocks_spec (h : Solid q xs) (hsacks : ∀ b ∈ sacks, b.1 < b.2) :
    ∃ q' xs', addBlocks q sacks = some q' ∧ AddsAll q xs sacks q' xs' := by
  induction sacks generalizing q xs with
  | nil => exact ⟨q, xs, rfl, AddsAll.refl h⟩
  | cons b rest ih =>
    obtain ⟨left, right⟩ := b
    obtain ⟨q₁, flags, xs₁, hadd, h₁, hext, hadv⟩ := h.add (hsacks (left, right) (by simp)) 0 0
    obtain ⟨q', xs', hrest, hall⟩ := ih h₁ (fun b hb => hsacks b (by simp [hb]))
    refine ⟨q', xs', ?_, AddsAll.cons h₁ hext hadv hall⟩
    rw [addBlocks, hadd, Option.bind_some, hrest]

end ReassemblyQueue

end NetSim
