import NetSim.Tcp.ReassemblyQueueSpec

/-! # The reassembly queue: clearing and reading

`clearto` truncates the set of sequence numbers (`clearto_spec`), `clear` empties it
(`clear_spec`), and `nexthole` finds the first sequence number that is missing
(`nexthole_spec`).
-/

namespace NetSim

open Function List LinkedList IntervalList

namespace ReassemblyQueue

variable {q q' : ReassemblyQueue} {xs ys fs : List ℕ} {b : ℕ} {s e : ℤ}

/-! ## Clearing -/

theorem clearBlocks_spec (hrep : Rep q xs ys fs) {fuel : ℕ} (hfuel : xs.length < fuel) (seq : ℤ)
    (flag : ℕ) :
    ∃ q' flag' ys' fs',
      clearBlocks seq fuel q xs.head? flag =
        some (q', (xs.dropWhile (fun a => q.endseq a ≤ seq)).head?, flag') ∧
      Rep q' (xs.dropWhile (fun a => q.endseq a ≤ seq)) ys' fs' ∧
      Trimmed q q' (xs.takeWhile (fun a => q.endseq a ≤ seq)) ∧ q'.pflags = q.pflags ∧
      flag' = (xs.takeWhile (fun a => q.endseq a ≤ seq)).foldl (fun f a => f ||| q.pflags a) flag := by
  induction xs generalizing q ys fs fuel flag with
  | nil =>
    obtain ⟨fuel, rfl⟩ : ∃ k, fuel = k + 1 := ⟨fuel - 1, by simp at hfuel; omega⟩
    exact ⟨q, flag, ys, fs, rfl, hrep, ⟨rfl, rfl, by simp, rfl⟩, rfl, rfl⟩
  | cons a xs ih =>
    obtain ⟨fuel, rfl⟩ : ∃ k, fuel = k + 1 := ⟨fuel - 1, by simp at hfuel; omega⟩
    have hrep' : Rep q ([] ++ a :: xs) ys fs := hrep
    by_cases ha : q.endseq a ≤ seq
    · have htrim : Rep (q.trim a) xs (ys.erase a) (a :: fs) := hrep'.trim
      obtain ⟨q', flag', ys', fs', h1, h2, h3, hpflags, hflag⟩ := ih htrim (by simpa using hfuel)
        (flag ||| q.pflags a)
      have hnext : q.fifo.next a = xs.head? := hrep'.fifo.next_eq
      refine ⟨q', flag', ys', fs', ?_, ?_, ?_, hpflags, ?_⟩
      · rw [dropWhile_cons_of_pos (by simpa using ha)]
        simp only [head?_cons, clearBlocks, if_pos ha, hnext]
        exact h1
      · rw [dropWhile_cons_of_pos (by simpa using ha)]
        exact h2
      · rw [takeWhile_cons_of_pos (by simpa using ha)]
        exact (trimmed_trim q a).trans h3
      · rw [takeWhile_cons_of_pos (by simpa using ha), foldl_cons]
        exact hflag
    · refine ⟨q, flag, ys, fs, ?_, ?_, ?_, rfl, ?_⟩
      · rw [dropWhile_cons_of_neg (by simpa using ha)]
        simp only [head?_cons, clearBlocks, if_neg ha]
      · rw [dropWhile_cons_of_neg (by simpa using ha)]
        exact hrep
      · rw [takeWhile_cons_of_neg (by simpa using ha)]
        exact ⟨rfl, rfl, by simp, rfl⟩
      · rw [takeWhile_cons_of_neg (by simpa using ha), foldl_nil]

theorem truncate_eq_dropWhile (c : ℤ) (bs : List Block) :
    IntervalList.truncate c bs =
      match bs.dropWhile (fun b => b.stop ≤ c) with
      | [] => []
      | b :: bs => if b.start ≤ c then ⟨c, b.stop⟩ :: bs else b :: bs := by
  induction bs with
  | nil => rfl
  | cons b bs ih =>
    by_cases h : b.stop ≤ c
    · simp [IntervalList.truncate, h, ih]
    · simp [IntervalList.truncate, h]

theorem blocks_head {rest : List ℕ} {seq total : ℤ} (hnd : (b :: rest).Nodup) :
    blocks { q with total := total, startseq := update q.startseq b seq } (b :: rest) =
      ⟨seq, q.endseq b⟩ :: q.blocks rest := by
  have hb := (nodup_cons.mp hnd).1
  have hrest : ∀ a ∈ rest, block { q with
      total := total, startseq := update q.startseq b seq } a = q.block a := by
    intro a ha
    have hne : a ≠ b := ne_of_mem_of_not_mem ha hb
    simp only [block, update_of_ne hne]
  rw [blocks_cons, blocks_congr hrest]
  simp only [block, update_self]

/-- The queue loses what lies below the number. -/
theorem clearto_spec (hv : Valid q xs) (seq : ℤ) :
    ∃ q' flag xs', q.clearto seq = some (q', flag) ∧ Valid q' xs' ∧
      q'.blocks xs' = IntervalList.truncate seq (q.blocks xs) ∧ q'.rcvNxt = q.rcvNxt := by
  obtain ⟨ys, fs, hrep⟩ := hv.rep
  obtain ⟨q₁, flag, ys', fs', hclear, hrep₁, htrim, -⟩ :=
    clearBlocks_spec hrep hrep.length_lt_fuel seq 0
  have hdrop : (q.blocks xs).dropWhile (fun b => b.stop ≤ seq) =
      q.blocks (xs.dropWhile (fun a => q.endseq a ≤ seq)) := by
    rw [blocks, dropWhile_map]
    rfl
  have hsplit := @takeWhile_append_dropWhile _ (fun a => decide (q.endseq a ≤ seq)) xs
  have htotal : q₁.total = size (q₁.blocks (xs.dropWhile (fun a => q.endseq a ≤ seq))) := by
    rw [htrim.total, htrim.blocks, hv.total]
    nth_rewrite 1 [← hsplit]
    rw [blocks_append, size_append]
    omega
  have hstop : ∀ b rest, xs.dropWhile (fun a => q.endseq a ≤ seq) = b :: rest →
      seq < q.endseq b := by
    intro b rest h
    have := head?_dropWhile_not (fun a => decide (q.endseq a ≤ seq)) xs
    rw [h] at this
    simpa using this
  have htrunc := separated_truncate hv.separated seq
  have heq := truncate_eq_dropWhile seq (q.blocks xs)
  rw [hdrop] at heq
  unfold clearto
  rw [hrep.fifo.head, hclear]
  cases hd : xs.dropWhile (fun a => q.endseq a ≤ seq) with
  | nil =>
    rw [hd] at hrep₁ htotal heq
    refine ⟨q₁, flag, [], rfl, ⟨⟨ys', fs', hrep₁⟩, separated_nil, htotal⟩, ?_, htrim.rcvNxt⟩
    rw [heq]
    rfl
  | cons b rest =>
    rw [hd] at hrep₁ htotal heq
    have hb := hstop b rest hd
    simp only [head?_cons]
    by_cases hs : q.startseq b ≤ seq
    · -- the first block that stays is trimmed
      have hcond : q₁.startseq b ≤ seq ∧ seq < q₁.endseq b := by
        rw [htrim.startseq, htrim.endseq]
        exact ⟨hs, hb⟩
      rw [if_pos hcond]
      have hblocks : blocks { q₁ with
          total := q₁.total - (seq - q₁.startseq b)
          startseq := update q₁.startseq b seq } (b :: rest) =
          IntervalList.truncate seq (q.blocks xs) := by
        rw [blocks_head hrep₁.nodupFifo, heq, htrim.blocks, htrim.endseq]
        exact (if_pos hs).symm
      refine ⟨_, _, b :: rest, rfl, ⟨⟨ys', fs', hrep₁.congr rfl rfl rfl rfl⟩, ?_, ?_⟩, hblocks,
        htrim.rcvNxt⟩
      · rw [hblocks]
        exact htrunc
      · rw [blocks_head hrep₁.nodupFifo, size_cons]
        rw [blocks_cons, size_cons] at htotal
        simp only [block] at htotal ⊢
        omega
    · have hcond : ¬ (q₁.startseq b ≤ seq ∧ seq < q₁.endseq b) := by
        rw [htrim.startseq]
        exact fun h => hs h.1
      have hblocks : q₁.blocks (b :: rest) = IntervalList.truncate seq (q.blocks xs) := by
        rw [heq, htrim.blocks]
        exact (if_neg hs).symm
      rw [if_neg hcond]
      exact ⟨q₁, flag, b :: rest, rfl, ⟨⟨ys', fs', hrep₁⟩, hblocks ▸ htrunc, htotal⟩, hblocks,
        htrim.rcvNxt⟩

/-! ## Clearing everything -/

/-- No block, and the freed nodes in a chain. -/
structure IsEmpty (q : ReassemblyQueue) : Prop where
  head : q.fifo.head = none
  tail : q.fifo.tail = none
  top : q.lifo.head = none
  bottom : q.lifo.tail = none
  free : ∃ fs, Chain q.fifo.next q.freelist fs ∧ fs.Nodup ∧ ∀ a ∈ fs, a < q.allocated
  total : q.total = 0

theorem isEmpty_init (rcvnxt : ℤ) : (init rcvnxt).IsEmpty :=
  ⟨rfl, rfl, rfl, rfl, ⟨[], rfl, nodup_nil, by simp⟩, rfl⟩

theorem IsEmpty.valid (h : q.IsEmpty) : Valid q [] := by
  obtain ⟨fs, hfree, hnd, halloc⟩ := h.free
  refine ⟨⟨[], fs, ?_⟩, separated_nil, h.total⟩
  exact ⟨DLinks.holds_nil h.head h.tail, DLinks.holds_nil h.top h.bottom, hfree, hnd, List.Perm.nil,
    halloc⟩

theorem freeAll_spec {fuel : ℕ} (hhead : Chain q.fifo.next q.fifo.head xs)
    (hfree : Chain q.fifo.next q.freelist fs) (hnd : (xs ++ fs).Nodup)
    (halloc : ∀ a ∈ xs ++ fs, a < q.allocated) (hfuel : xs.length < fuel) :
    ∃ q' fs', freeAll fuel q = some q' ∧ q'.fifo.head = none ∧ q'.lifo = q.lifo ∧
      q'.rcvNxt = q.rcvNxt ∧ Chain q'.fifo.next q'.freelist fs' ∧ fs'.Nodup ∧
      ∀ a ∈ fs', a < q'.allocated := by
  induction xs generalizing q fs fuel with
  | nil =>
    obtain ⟨fuel, rfl⟩ : ∃ k, fuel = k + 1 := ⟨fuel - 1, by simp at hfuel; omega⟩
    have hnone : q.fifo.head = none := hhead
    refine ⟨q, fs, ?_, hnone, rfl, rfl, hfree, hnd, halloc⟩
    rw [freeAll, hnone]
  | cons p xs ih =>
    obtain ⟨fuel, rfl⟩ : ∃ k, fuel = k + 1 := ⟨fuel - 1, by simp at hfuel; omega⟩
    obtain ⟨hp, hxs⟩ := hhead
    obtain ⟨hpn, hnd'⟩ := nodup_cons.mp hnd
    have hperm : (xs ++ p :: fs).Perm (p :: (xs ++ fs)) := perm_middle
    have hother : ∀ a ∈ xs ++ fs, update q.fifo.next p q.freelist a = q.fifo.next a := by
      intro a ha
      have hne : a ≠ p := ne_of_mem_of_not_mem ha hpn
      exact update_of_ne hne _ _
    rw [freeAll, hp]
    refine @ih ({ q with fifo := { q.fifo with head := q.fifo.next p } }.deleteseginfo p) (p :: fs)
      fuel ?_ ?_ ?_ ?_ ?_
    · exact hxs.congr (fun a ha => hother a (by simp [ha]))
    · refine ⟨rfl, ?_⟩
      simp only [deleteseginfo, update_self]
      exact hfree.congr (fun a ha => hother a (by simp [ha]))
    · exact hperm.nodup_iff.mpr hnd
    · intro a ha
      exact halloc a (hperm.mem_iff.mp ha)
    · simpa using hfuel

theorem clear_spec (hv : Valid q xs) :
    ∃ q', q.clear = some q' ∧ q'.IsEmpty ∧ q'.rcvNxt = q.rcvNxt := by
  obtain ⟨ys, fs, hrep⟩ := hv.rep
  have hchain : Chain q.fifo.next q.fifo.head xs := by
    rw [hrep.fifo.head]
    exact hrep.fifo.path.chain
  obtain ⟨q', fs', hq', hhead, hlifo, hrcv, hfree, hnd, halloc⟩ :=
    @freeAll_spec { q with
      fifo := { q.fifo with tail := none }
      lifo := { q.lifo with head := none, tail := none }
      hint := none } xs fs q.fuel hchain hrep.free hrep.nodup hrep.alloc hrep.length_lt_fuel
  have hclear : q.clear = some { q' with fifo := { q'.fifo with tail := none }, total := 0 } := by
    rw [clear, hq']
    rfl
  refine ⟨_, hclear, ⟨hhead, rfl, ?_, ?_, ⟨fs', hfree, hnd, halloc⟩, rfl⟩, hrcv⟩
  · simp only [hlifo]
  · simp only [hlifo]

/-! ## Looking for a hole -/

theorem cnts_spec {l r : List ℕ} (h : q.fifo.Holds (l ++ r)) {fuel : ℕ} (hfuel : r.length < fuel) :
    q.cnts fuel r.head? = some (↑r.length, size (q.blocks r)) := by
  induction r generalizing l fuel with
  | nil =>
    obtain ⟨fuel, rfl⟩ : ∃ k, fuel = k + 1 := ⟨fuel - 1, by simp at hfuel; omega⟩
    rfl
  | cons a r ih =>
    obtain ⟨fuel, rfl⟩ : ∃ k, fuel = k + 1 := ⟨fuel - 1, by simp at hfuel; omega⟩
    have h' : q.fifo.Holds ((l ++ [a]) ++ r) := by simpa using h
    have hr := ih h' (by simpa using hfuel)
    rw [head?_cons, cnts, h.next_eq, hr]
    simp [block]

/-- `hole` is the first sequence number from `seq` on that is missing, and a block lies above. -/
structure Hole (bs : List Block) (seq hole : ℤ) : Prop where
  le : seq ≤ hole
  missing : ¬ Covers bs hole
  first : ∀ x, seq ≤ x → x < hole → Covers bs x
  above : ∃ b ∈ bs, hole < b.start

theorem not_covers_blocks {l r : List ℕ} {x : ℤ} (hl : ∀ a ∈ l, q.endseq a ≤ x)
    (hr : ∀ a ∈ r, x < q.startseq a) : ¬ Covers (q.blocks (l ++ r)) x := by
  rintro ⟨b, hb, h1, h2⟩
  obtain ⟨a, ha, rfl⟩ := mem_map.mp hb
  rcases mem_append.mp ha with ha | ha
  · exact absurd h2 (not_lt.mpr (hl a ha))
  · exact absurd h1 (not_le.mpr (hr a ha))

/-- By induction on the blocks behind the cursor. -/
theorem findHole_spec {l r : List ℕ} (hv : Valid q (l ++ r)) {seq : ℤ}
    (hl : ∀ a ∈ l, q.endseq a < seq) {fuel : ℕ} (hfuel : r.length < fuel) :
    ∃ hole cnt bytes, q.findHole seq fuel r.head? = some (hole, cnt, bytes) ∧
      (0 < cnt → Hole (q.blocks (l ++ r)) seq hole) := by
  obtain ⟨ys, fs, hrep⟩ := hv.rep
  induction r generalizing l fuel with
  | nil =>
    obtain ⟨fuel, rfl⟩ : ∃ k, fuel = k + 1 := ⟨fuel - 1, by simp at hfuel; omega⟩
    exact ⟨-1, -1, -1, rfl, by omega⟩
  | cons a r ih =>
    obtain ⟨fuel, rfl⟩ : ∃ k, fuel = k + 1 := ⟨fuel - 1, by simp at hfuel; omega⟩
    have hassoc : l ++ a :: r = (l ++ [a]) ++ r := by simp
    have hlen : (l ++ a :: r).length < q.fuel := hrep.length_lt_fuel
    have hfifo := hrep.fifo
    have hgap : ∀ b ∈ r, q.endseq a < q.startseq b := fun b hb =>
      Valid.gap (hassoc ▸ hv) (show a ∈ l ++ [a] by simp) hb
    have hle := hv.start_le_stop (show a ∈ l ++ a :: r by simp)
    rw [head?_cons, findHole]
    split
    case isTrue hseq =>
      -- before the block
      have hc := cnts_spec hfifo (show (a :: r).length < q.fuel by simp at hlen ⊢; omega)
      rw [head?_cons] at hc
      refine ⟨seq, _, _, by rw [hc]; rfl, fun _ => ⟨le_rfl, ?_, by omega, ?_⟩⟩
      · refine not_covers_blocks (fun c hc => (hl c hc).le) (fun c hc => ?_)
        rcases mem_cons.mp hc with rfl | hc
        · exact hseq
        · have := hgap c hc
          omega
      · exact ⟨q.block a, by simp, hseq⟩
    case isFalse hseq =>
      split
      case isTrue hin =>
        -- inside the block: the hole is at its end
        rw [hfifo.next_eq]
        cases r with
        | nil => exact ⟨q.endseq a, -1, -1, rfl, by omega⟩
        | cons b r =>
          have hc := cnts_spec (hassoc ▸ hfifo)
            (show (b :: r).length < q.fuel by simp at hlen ⊢; omega)
          rw [head?_cons] at hc
          refine ⟨q.endseq a, _, _, by rw [head?_cons]; simp only [hc]; rfl,
            fun _ => ⟨hin.2, ?_, ?_, ?_⟩⟩
          · rw [hassoc]
            refine not_covers_blocks (fun c hc => ?_) hgap
            rcases mem_append.mp hc with hc | hc
            · have := hl c hc
              omega
            · rw [mem_singleton.mp hc]
          · intro x hx1 hx2
            exact ⟨q.block a, by simp, by simp only [block]; omega⟩
          · exact ⟨q.block b, by simp, hgap b (by simp)⟩
      case isFalse hin =>
        rw [hfifo.next_eq, hassoc]
        refine ih (hassoc ▸ hv) ?_ (by simpa using hfuel) (hassoc ▸ hrep)
        intro c hc
        rcases mem_append.mp hc with hc | hc
        · exact hl c hc
        · rw [mem_singleton.mp hc]
          omega

/-- **`nexthole` finds the first missing sequence number** below a block, if there is one. -/
theorem nexthole_spec (hv : Valid q xs) (seq : ℤ) :
    ∃ hole cnt bytes, q.nexthole seq = some ({ q with hint := q.fifo.head }, hole, cnt, bytes) ∧
      (0 < cnt → Hole (q.blocks xs) seq hole) := by
  obtain ⟨ys, fs, hrep⟩ := hv.rep
  obtain ⟨hole, cnt, bytes, hfind, hhole⟩ :=
    @findHole_spec q [] xs hv seq (by simp) q.fuel hrep.length_lt_fuel
  refine ⟨hole, cnt, bytes, ?_, hhole⟩
  rw [nexthole, hrep.fifo.head, hfind]
  rfl

end ReassemblyQueue

end NetSim
