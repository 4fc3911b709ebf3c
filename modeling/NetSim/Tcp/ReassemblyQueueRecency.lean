import NetSim.Tcp.ReassemblyQueueRuns
import NetSim.Tcp.ReassemblyQueueSacks

/-! # The reassembly queue: the order of SACK blocks

`gensack` reports the blocks from the top of the LIFO, so that the block with the latest segment should be on
top. A new node is pushed there, but a block that takes the segment over stays where it is: the latest block
comes first exactly when no other block that stays is above it (`sack_stack`).
-/

namespace NetSim

open List LinkedList IntervalList

namespace ReassemblyQueue

variable {q q' : ReassemblyQueue} {xs ys fs u gone : List ℕ} {x : ℕ} {s e : ℤ} {tiflags rqflags : ℕ}

/-! ## The nodes of a queue -/

def nodes (q : ReassemblyQueue) : List ℕ := q.nodesFrom q.fuel q.fifo.head

def stackFrom (q : ReassemblyQueue) : ℕ → Option ℕ → List ℕ
  | 0, _ => []
  | _ + 1, none => []
  | fuel + 1, some p => p :: q.stackFrom fuel (q.lifo.next p)

def stack (q : ReassemblyQueue) : List ℕ := q.stackFrom q.fuel q.lifo.head

theorem stackFrom_eq {l r : List ℕ} (h : q.lifo.Holds (l ++ r)) {fuel : ℕ} (hfuel : r.length < fuel) :
    q.stackFrom fuel r.head? = r := by
  induction r generalizing l fuel with
  | nil =>
    obtain ⟨fuel, rfl⟩ : ∃ k, fuel = k + 1 := ⟨fuel - 1, by simp at hfuel; omega⟩
    rfl
  | cons a r ih =>
    obtain ⟨fuel, rfl⟩ : ∃ k, fuel = k + 1 := ⟨fuel - 1, by simp at hfuel; omega⟩
    have h' : q.lifo.Holds ((l ++ [a]) ++ r) := by simpa using h
    rw [head?_cons, stackFrom, h.next_eq, ih h' (by simpa using hfuel)]

theorem Rep.nodes_eq (h : Rep q xs ys fs) : q.nodes = xs := by
  have hnodes := nodesFrom_eq (show q.fifo.Holds ([] ++ xs) from h.fifo) h.length_lt_fuel
  rw [nodes, h.fifo.head, hnodes]

theorem Rep.stack_eq (h : Rep q xs ys fs) : q.stack = ys := by
  have hlen : ys.length < q.fuel := by
    rw [h.perm.length_eq]
    exact h.length_lt_fuel
  have hstack := stackFrom_eq (show q.lifo.Holds ([] ++ ys) from h.lifo) hlen
  rw [stack, h.lifo.head, hstack]

/-! ## `gensack` -/

def sacksFrom (q : ReassemblyQueue) : ℕ → Option ℕ → List (ℤ × ℤ)
  | 0, _ => []
  | _ + 1, none => []
  | maxsblock + 1, some p =>
    (q.startseq p, q.endseq p) :: q.sacksFrom maxsblock (q.lifo.next p)

def gensack (q : ReassemblyQueue) (maxsblock : ℕ) : List (ℤ × ℤ) := q.sacksFrom maxsblock q.lifo.head

/-- The first block that `gensack` produces contains the segment. -/
def LeadsWith (q : ReassemblyQueue) (s e : ℤ) : Prop :=
  ∀ maxsblock, ∃ b ∈ (q.gensack (maxsblock + 1)).head?, b.1 ≤ s ∧ e ≤ b.2

theorem leadsWith_iff : q.LeadsWith s e ↔ ∃ x ∈ q.lifo.head, q.startseq x ≤ s ∧ e ≤ q.endseq x := by
  have hhead : ∀ maxsblock, (q.gensack (maxsblock + 1)).head? =
      q.lifo.head.map (fun x => (q.startseq x, q.endseq x)) := by
    intro maxsblock
    unfold gensack
    cases q.lifo.head with
    | none => rfl
    | some x => rfl
  constructor
  · intro h
    obtain ⟨b, hb, hs, he⟩ := h 0
    rw [hhead] at hb
    obtain ⟨x, hx, rfl⟩ := Option.map_eq_some_iff.mp hb
    exact ⟨x, hx, hs, he⟩
  · rintro ⟨x, hx, hs, he⟩ maxsblock
    refine ⟨(q.startseq x, q.endseq x), ?_, hs, he⟩
    rw [hhead]
    exact Option.map_eq_some_iff.mpr ⟨x, hx, rfl⟩

/-! ## The block on top -/

def StaysOnTop (q : ReassemblyQueue) (s e : ℤ) : Prop :=
  match q.touching (q.remaining q.nodes s e) s e with
  | [] => True
  | x :: gone => (q.stack.filter (fun a => a ∉ q.killed q.nodes s e ∧ a ∉ gone)).head? = some x

instance (q : ReassemblyQueue) (s e : ℤ) : Decidable (q.StaysOnTop s e) := by
  unfold StaysOnTop
  split <;> infer_instance

theorem Valid.contains_unique (hv : Valid q xs) {a b : ℕ} (ha : a ∈ xs) (hb : b ∈ xs)
    (ha' : q.startseq a ≤ s ∧ e ≤ q.endseq a) (hb' : q.startseq b ≤ s ∧ e ≤ q.endseq b) (hse : s ≤ e) :
    a = b := by
  by_contra hne
  obtain ⟨l, r, rfl⟩ := append_of_mem ha
  have hv' : Valid q ((l ++ [a]) ++ r) := by simpa using hv
  rcases mem_append.mp hb with hb | hb
  · have := hv.stop_lt_start hb (show a ∈ a :: r by simp)
    omega
  · have := hv'.stop_lt_start (show a ∈ l ++ [a] by simp) ((mem_cons.mp hb).resolve_left (Ne.symm hne))
    omega

/-- The first block of the LIFO contains the segment when it is the block where the segment was placed. -/
theorem Placed.leadsWith_iff {q₁ : ReassemblyQueue} {xs' : List ℕ}
    (h : Placed q₁ q' xs ys s e tiflags u gone x) (hv : Valid q' xs') (hse : s ≤ e) :
    q'.LeadsWith s e ↔ ((if u = [] then [x] else []) ++ ys.filter (fun a => a ∉ gone)).head? = some x := by
  obtain ⟨ys', fs', hrep⟩ := hv.rep
  have hys : ys' = (if u = [] then [x] else []) ++ ys.filter (fun a => a ∉ gone) :=
    DLinks.Holds.unique hrep.lifo h.lifo
  obtain ⟨xs'', hfifo, hmem⟩ := h.fifo
  have hxs : xs' = xs'' := DLinks.Holds.unique hrep.fifo hfifo
  have hx : x ∈ xs' := hxs ▸ (hmem x).mpr (.inl rfl)
  rw [ReassemblyQueue.leadsWith_iff, h.lifo.head, ← hys]
  constructor
  · rintro ⟨y, hy, hcontains⟩
    have hy' : y ∈ xs' := hrep.perm.mem_iff.mp (mem_of_head? hy)
    rw [hv.contains_unique hx hy' h.contains hcontains hse]
    exact hy
  · exact fun htop => ⟨x, htop, h.contains⟩

/-- **The latest block comes first** exactly when no other block that stays is above it. -/
theorem recent_iff (hv : Valid q xs) (hse : s < e) (hsw : q.swallowsHead s e = false) {flags : ℕ}
    (hadd : q.add s e tiflags rqflags = some (q', flags)) : q'.LeadsWith s e ↔ q.StaysOnTop s e := by
  obtain ⟨ys, fs, hrep⟩ := hv.rep
  obtain ⟨q'', flags', xs', hadd', hv', -, -⟩ := add_spec hv hse.le hsw tiflags rqflags
  rw [hadd] at hadd'
  cases hadd'
  obtain ⟨q₁, hclear, hends⟩ := add_ends hv hrep hse.le hsw tiflags rqflags
  have htouching : ∀ zs, q₁.touching zs s e = q.touching zs s e := by
    intro zs
    unfold touching
    rw [hclear.startseq, hclear.endseq]
  rw [hadd] at hends
  unfold StaysOnTop
  rw [hrep.nodes_eq, hrep.stack_eq]
  have hfilter : ∀ gone : List ℕ, (ys.filter (fun a => a ∉ q.killed xs s e)).filter (fun a => a ∉ gone) =
      ys.filter (fun a => a ∉ q.killed xs s e ∧ a ∉ gone) := by
    intro gone
    rw [filter_filter]
    refine filter_congr (fun a _ => ?_)
    rw [← Bool.decide_and, decide_eq_decide]
    exact and_comm
  generalize hres : some (q', flags) = res at hends
  cases hends with
  | lost hlost => exact absurd hlost.1 (ne_of_lt hse)
  | @inner q₂ b _ _ hu hplaced =>
    cases hres
    rw [htouching] at hu
    rw [hplaced.leadsWith_iff hv' hse.le, hu, if_neg (cons_ne_nil b []), nil_append, hfilter]
  | @placed q₂ x _ _ hplaced =>
    cases hres
    rw [htouching] at hplaced
    rw [hplaced.leadsWith_iff hv' hse.le]
    cases hu : q.touching (q.remaining xs s e) s e with
    | nil => exact iff_of_true rfl trivial
    | cons a gone =>
      have hax : a = x := by
        rw [hu] at hplaced
        rcases hplaced.node with ⟨hnil, -⟩ | ⟨hhead, -⟩
        · cases hnil
        · exact Option.some.inj hhead
      rw [if_neg (cons_ne_nil a gone), nil_append, tail_cons, hfilter, hax]

/-! ## Runs -/

/-- The LIFO has the nodes of the FIFO, each once. -/
def SameNodes (q : ReassemblyQueue) : Prop :=
  ∃ xs ys, q.fifo.Holds xs ∧ q.lifo.Holds ys ∧ ys.Perm xs ∧ ys.Nodup

/-- **The SACK blocks.** In every run of `add` and `clearto` in which no `add` swallows the first block, the
LIFO has the nodes of the FIFO; and behind every `add` of a segment that is not empty, `gensack` starts with
the block of that segment exactly when no other block that stays was above it. -/
theorem sack_stack {ops : List Op} (hq : q.IsEmpty) (hops : Runs.Meets ReassemblyQueue.step Sound q ops) :
    (∃ q' flags, Runs.run ReassemblyQueue.step q ops = some (q', flags) ∧ q'.SameNodes) ∧
    ∀ past start stop tiflags rqflags q₁ outs q₂ flags, past ++ [.add start stop tiflags rqflags] <+: ops →
      start < stop → Runs.run ReassemblyQueue.step q past = some (q₁, outs) →
      q₁.add start stop tiflags rqflags = some (q₂, flags) →
      (q₂.LeadsWith start stop ↔ q₁.StaysOnTop start stop) := by
  have hinit : Tracks [] q :=
    ⟨[], hq.valid, fun x => iff_of_false covers_nil (not_remains_nil x)⟩
  have htracks : ∀ ops, Runs.Meets ReassemblyQueue.step Sound q ops → ∃ q' flags,
      Runs.run ReassemblyQueue.step q ops = some (q', flags) ∧ Tracks ops q' := fun ops hops =>
    @Runs.run_invariant _ _ _ ReassemblyQueue.step Sound q ops (fun past _ q => Tracks past q)
      (fun past _ q op h hop => h.step op hop) hinit hops
  constructor
  · obtain ⟨q', flags, hrun, xs, hv, -⟩ := htracks ops hops
    obtain ⟨ys, fs, hrep⟩ := hv.rep
    exact ⟨q', flags, hrun, xs, ys, hrep.fifo, hrep.lifo, hrep.perm, hrep.perm.nodup_iff.mpr hrep.nodupFifo⟩
  · rintro past start stop tiflags rqflags q₁ outs q₂ flags ⟨rest, rfl⟩ hlt hrun hadd
    have hmeets := hops.append_left
    obtain ⟨q', flags', hrun', xs, hv, -⟩ := htracks past hmeets.append_left
    rw [hrun] at hrun'
    cases hrun'
    have hsound := (Runs.meets_concat.mp hmeets).2 _ hrun
    exact recent_iff hv hlt hsound.2 hadd

/-- Two segments, one that extends the second of them, and a `clearto` up to the end of the first. -/
theorem sack_stack_extended :
    ∃ q₁ outs q₂ flags, Runs.run step (init 0) [.add 1 2 0 0, .add 5 6 0 0] = some (q₁, outs) ∧
      q₁.add 6 7 0 0 = some (q₂, flags) ∧ (q₂.LeadsWith 6 7 ↔ q₁.StaysOnTop 6 7) := by
  obtain ⟨⟨q₁, outs⟩, hrun⟩ : ∃ r, Runs.run step (init 0) [.add 1 2 0 0, .add 5 6 0 0] = some r :=
    Option.isSome_iff_exists.mp (by decide +kernel)
  obtain ⟨⟨q₂, flags⟩, hadd⟩ : ∃ r, q₁.add 6 7 0 0 = some r := by
    have hall : ∀ r ∈ Runs.run step (init 0) [.add 1 2 0 0, .add 5 6 0 0], (r.1.add 6 7 0 0).isSome = true := by
      decide +kernel
    exact Option.isSome_iff_exists.mp (hall _ hrun)
  exact ⟨q₁, outs, q₂, flags, hrun, hadd, (@sack_stack (init 0)
    [.add 1 2 0 0, .add 5 6 0 0, .add 6 7 0 0, .clearto 2] (isEmpty_init 0) (by decide +kernel)).2
    [.add 1 2 0 0, .add 5 6 0 0] 6 7 0 0 q₁ outs q₂ flags ⟨[.clearto 2], rfl⟩ (by decide) hrun hadd⟩

/-- The segment `[2, 3)` joins the block `[1, 2)`, and `gensack` still starts with `[5, 6)`. -/
theorem old_block_stays_first :
    Runs.Meets step Sound (init 0) [.add 1 2 0 0, .add 5 6 0 0, .add 2 3 0 0] ∧
    ∃ q' flags, Runs.run step (init 0) [.add 1 2 0 0, .add 5 6 0 0, .add 2 3 0 0] = some (q', flags) ∧
      q'.rcvNxt < 2 ∧ ¬ q'.LeadsWith 2 3 ∧ q'.gensack 2 = [(5, 6), (1, 3)] := by
  refine ⟨by decide +kernel, ?_⟩
  obtain ⟨⟨q', flags⟩, hrun⟩ : ∃ r,
      Runs.run step (init 0) [.add 1 2 0 0, .add 5 6 0 0, .add 2 3 0 0] = some r :=
    Option.isSome_iff_exists.mp (by decide +kernel)
  have hall : ∀ r ∈ Runs.run step (init 0) [.add 1 2 0 0, .add 5 6 0 0, .add 2 3 0 0],
      r.1.rcvNxt < 2 ∧ r.1.gensack 1 = [(5, 6)] ∧ r.1.gensack 2 = [(5, 6), (1, 3)] := by
    decide +kernel
  obtain ⟨hrcv, hone, htwo⟩ := hall _ hrun
  refine ⟨q', flags, hrun, hrcv, fun hleads => ?_, htwo⟩
  obtain ⟨b, hb, hs, -⟩ := hleads 0
  have hone' : q'.gensack (0 + 1) = [(5, 6)] := hone
  rw [hone'] at hb
  cases hb
  exact absurd hs (by decide)

end ReassemblyQueue

end NetSim
