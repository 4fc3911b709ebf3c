import NetSim.Tcp.ReassemblyQueueClear
import NetSim.Tcp.ReassemblyQueuePlaces

/-! # The reassembly queue: flags

The flags of the blocks, and the flags that `add` and `clearto` return, are unions of flags of
segments. So a property of flags that holds of `0` and of unions holds of all of them when it holds
of the flags of every segment (`add_flagged`, `clearto_flagged`): for instance, no segment with a
`FIN` means no `FIN` in the queue.
-/

namespace NetSim.ReassemblyQueue

open List LinkedList

/-- The blocks in the queue have flags with the property `P`. -/
def Flagged (P : ℕ → Prop) (q : ReassemblyQueue) : Prop := ∀ xs, q.fifo.Holds xs → ∀ a ∈ xs, P (q.pflags a)

variable {P : ℕ → Prop} {q q' : ReassemblyQueue} {xs ys fs u gone : List ℕ} {x : ℕ} {s e : ℤ}
  {tiflags rqflags flags : ℕ}

theorem IsEmpty.flagged (h : q.IsEmpty) : Flagged P q := by
  obtain ⟨ys, fs, hrep⟩ := h.valid.rep
  intro xs hxs a ha
  rw [hxs.unique hrep.fifo] at ha
  exact absurd ha not_mem_nil

variable (hor : ∀ a b, P a → P b → P (a ||| b))
include hor

theorem union_flagged {f : ℕ → ℕ} (hxs : ∀ a ∈ xs, P (f a)) (ht : P tiflags) :
    P (xs.foldl (fun g a => g ||| f a) tiflags) := by
  induction xs generalizing tiflags with
  | nil => exact ht
  | cons a xs ih =>
    exact ih (fun b hb => hxs b (mem_cons_of_mem a hb)) (hor _ _ ht (hxs a mem_cons_self))

theorem Placed.flagged (h : Placed q q' xs ys s e tiflags u gone x) (hxs : ∀ a ∈ xs, P (q.pflags a))
    (ht : P tiflags) : Flagged P q' ∧ P (q'.pflags x) := by
  have hx : P (q'.pflags x) := by
    rw [h.pflags]
    split
    · exact ht
    · rename_i hu
      rcases h.node with ⟨hnil, -⟩ | ⟨-, hmem, -⟩
      · exact absurd hnil hu
      · exact hor _ _ (hxs x hmem) ht
  refine ⟨fun xs₁ hfifo₁ a ha => ?_, hx⟩
  obtain ⟨xs', hfifo, hmem⟩ := h.fifo
  rw [hfifo₁.unique hfifo, hmem] at ha
  by_cases hax : a = x
  · rw [hax]
    exact hx
  · obtain ⟨hold, hstays⟩ := ha.resolve_left hax
    rw [(h.same a hold hstays hax).2]
    exact hxs a hold

theorem add_flagged (hv : Valid q xs) (hse : s ≤ e) (hsw : q.swallowsHead s e = false) (h : Flagged P q)
    (ht : P tiflags) (hadd : q.add s e tiflags rqflags = some (q', flags)) :
    (∃ xs', Valid q' xs') ∧ Flagged P q' ∧ P flags := by
  obtain ⟨q'', flags', xs', hadd', hv', -⟩ := add_spec hv hse hsw tiflags rqflags
  rw [hadd] at hadd'
  cases hadd'
  refine ⟨⟨xs', hv'⟩, ?_⟩
  obtain ⟨ys, fs, hrep⟩ := hv.rep
  have hxs := h xs hrep.fifo
  obtain ⟨q₁, hclear, hends⟩ := add_ends hv hrep hse hsw tiflags rqflags
  have hstay : ∀ a ∈ q.remaining xs s e, P (q₁.pflags a) := by
    intro a ha
    rw [hclear.pflags]
    exact hxs a (mem_filter.mp ha).1
  have hcollected : P (q.collected xs s e tiflags) :=
    union_flagged hor (fun a ha => hxs a (mem_filter.mp ha).1) ht
  rw [hadd] at hends
  cases hends with
  | lost =>
    refine ⟨fun xs₁ hfifo₁ => ?_, hcollected⟩
    obtain ⟨fs', hrep'⟩ := hclear.rep
    rw [DLinks.Holds.unique hfifo₁ hrep'.fifo]
    exact hstay
  | inner _ _ _ hplaced => exact ⟨(hplaced.flagged hor hstay hcollected).1, hcollected⟩
  | placed _ _ hplaced => exact hplaced.flagged hor hstay hcollected

theorem clearto_flagged (hv : Valid q xs) (h : Flagged P q) (h0 : P 0) {seq : ℤ}
    (hclear : q.clearto seq = some (q', flags)) : Flagged P q' ∧ P flags := by
  obtain ⟨ys, fs, hrep⟩ := hv.rep
  have hxs := h xs hrep.fifo
  obtain ⟨q₁, flag, ys', fs', hblocks, hrep₁, -, hpflags, hflag⟩ := clearBlocks_spec hrep hrep.length_lt_fuel seq 0
  have hflags : P flag := by
    rw [hflag]
    exact union_flagged hor (fun a ha => hxs a (takeWhile_subset _ ha)) h0
  have hrest : ∀ a ∈ xs.dropWhile (fun a => q.endseq a ≤ seq), P (q₁.pflags a) := by
    intro a ha
    rw [hpflags]
    exact hxs a ((dropWhile_suffix _).subset ha)
  have hq₁ : Flagged P q₁ := by
    intro xs₁ hfifo₁
    rw [DLinks.Holds.unique hfifo₁ hrep₁.fifo]
    exact hrest
  unfold clearto at hclear
  rw [hrep.fifo.head, hblocks] at hclear
  cases hhead : (xs.dropWhile (fun a => q.endseq a ≤ seq)).head? with
  | none =>
    rw [hhead] at hclear
    cases hclear
    exact ⟨hq₁, hflags⟩
  | some p =>
    rw [hhead] at hclear
    dsimp only at hclear
    split at hclear
    · cases hclear
      exact ⟨hq₁, hor _ _ hflags (hrest p (mem_of_head? hhead))⟩
    · cases hclear
      exact ⟨hq₁, hflags⟩

end NetSim.ReassemblyQueue
