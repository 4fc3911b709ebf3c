import NetSim.Scheduler.Heap
import NetSim.Scheduler.ListScheduler

/-! # Stability of the heap, and the heap scheduler

A run of calls on a `Heap` is compared with `QueueStep`, which says what the calls are for over
the list of the stored elements in order of insertion. The tie-break counter `h_s_key` wraps, so
the comparison needs `Fresh`: when an element is inserted, every stored element of the same key
has a secondary key below the counter. `freshRun_init` shows that the first `2 ^ 32`
insertions are always fresh; `heap_wraps` is a run in which the next one is not.
-/

namespace NetSim

open List BinaryHeap StableOrder

namespace Heap

variable {α : Type}

/-! ## Calls and their purpose -/

inductive HeapOp (α : Type) where
  | insert (key : ℚ) (elem : α)
  | extractMin
  | delete (elem : α)

/-- What a call returns: nothing, the minimum or null, or the return code of `heap_delete`. -/
inductive HeapOut (α : Type) where
  | unit
  | min (elem : Option α)
  | code (n : ℕ)
deriving DecidableEq

def Fresh (h : Heap α) (key : ℚ) : Prop := ∀ x ∈ h.stored, x.key = key → x.sKey < h.sKey

/-- **The purpose of the heap**, over the keyed elements in order of insertion: `extract_min`
takes, of the elements of minimal key, the one inserted first; `delete` takes one occurrence of
its argument, or returns 0 when there is none. -/
inductive QueueStep : List (ℚ × α) → HeapOp α → HeapOut α → List (ℚ × α) → Prop where
  | insert (l : List (ℚ × α)) (key : ℚ) (elem : α) :
      QueueStep l (.insert key elem) .unit (l ++ [(key, elem)])
  | extractEmpty : QueueStep [] .extractMin (.min none) []
  | extract (pre : List (ℚ × α)) (key : ℚ) (elem : α) (post : List (ℚ × α)) :
      (∀ y ∈ pre, key < y.1) → (∀ y ∈ post, key ≤ y.1) →
      QueueStep (pre ++ (key, elem) :: post) .extractMin (.min (some elem)) (pre ++ post)
  | deleteAbsent (l : List (ℚ × α)) (elem : α) :
      (∀ y ∈ l, y.2 ≠ elem) → QueueStep l (.delete elem) (.code 0) l
  | delete (pre : List (ℚ × α)) (key : ℚ) (elem : α) (post : List (ℚ × α)) :
      QueueStep (pre ++ (key, elem) :: post) (.delete elem) (.code 1) (pre ++ post)

/-- A run of `QueueStep`. -/
inductive QueueRun : List (ℚ × α) → List (HeapOp α) → List (HeapOut α) → List (ℚ × α) → Prop where
  | nil (l : List (ℚ × α)) : QueueRun l [] [] l
  | cons {l l' l'' : List (ℚ × α)} {op : HeapOp α} {out : HeapOut α} {ops : List (HeapOp α)}
      {outs : List (HeapOut α)} :
      QueueStep l op out l' → QueueRun l' ops outs l'' → QueueRun l (op :: ops) (out :: outs) l''

theorem QueueStep.insert_inv {l l' : List (ℚ × α)} {out : HeapOut α} {key : ℚ} {elem : α}
    (h : QueueStep l (.insert key elem) out l') : l' = l ++ [(key, elem)] := by
  cases h
  rfl

theorem QueueStep.extract_inv {l l' : List (ℚ × α)} {op : HeapOp α} {out : HeapOut α} {elem : α}
    (h : QueueStep l op out l') (hop : op = .extractMin) (hout : out = .min (some elem)) :
    ∃ pre key post, l = pre ++ (key, elem) :: post ∧ l' = pre ++ post ∧ ∀ y ∈ pre, key < y.1 := by
  cases h with
  | insert => cases hop
  | extractEmpty => cases hout
  | extract pre key e post hpre _ =>
    cases hout
    exact ⟨pre, key, post, rfl, rfl, hpre⟩
  | deleteAbsent => cases hop
  | delete => cases hop

/-! ## The elements in order of insertion -/

/-- `es` lists the stored elements so that equal keys stand in the order of the counter. -/
structure Holds (h : Heap α) (es : List (HeapElem α)) : Prop where
  inv : Inv h
  perm : es.Perm h.stored
  ties : es.Pairwise (fun x y => x.key = y.key → x.sKey < y.sKey)

/-- What a caller of the heap knows about an element. -/
def keyed (x : HeapElem α) : ℚ × α := (x.key, x.elem)

theorem Holds.remove {h h' : Heap α} {es : List (HeapElem α)} (hh : Holds h es) {x : HeapElem α}
    (hi : Inv h') (hp : h.stored.Perm (x :: h'.stored)) :
    ∃ pre post, es = pre ++ x :: post ∧ Holds h' (pre ++ post) := by
  have hx : x ∈ es := hh.perm.mem_iff.mpr (hp.mem_iff.mpr (by simp))
  obtain ⟨pre, post, rfl⟩ := append_of_mem hx
  refine ⟨pre, post, rfl, hi, ?_, ?_⟩
  · have h1 := (perm_middle.symm.trans hh.perm).trans hp
    exact h1.cons_inv
  · exact hh.ties.sublist ((List.Sublist.refl pre).append (sublist_cons_self x post))

theorem Holds.extract {h : Heap α} {es : List (HeapElem α)} (hh : Holds h es) :
    (es = [] ∧ h.heapExtractMin = (h, none)) ∨
    ∃ pre x post, es = pre ++ x :: post ∧ (∀ y ∈ pre, x.key < y.key) ∧
      (∀ y ∈ post, x.key ≤ y.key) ∧ h.heapExtractMin.2 = some x.elem ∧
      Holds h.heapExtractMin.1 (pre ++ post) := by
  rcases Nat.eq_zero_or_pos h.size with h0 | hpos
  · left
    refine ⟨?_, by rw [heapExtractMin, if_pos h0]⟩
    have : h.stored = [] := by simp [stored, slots, h0]
    exact List.Perm.eq_nil (this ▸ hh.perm)
  · right
    obtain ⟨h1, h2, -⟩ :=
      extract_of_hole (hh.inv.ordered.hole 0) hh.inv.fits hh.inv.room hpos
    obtain ⟨pre, post, hes, hh'⟩ := hh.remove h1 h2
    -- the root has the least rank, and ranks break ties by the counter
    have hmin : ∀ y ∈ es, rank (h.elems 0) ≤ rank y := by
      intro y hy
      obtain ⟨i, hi, rfl⟩ := mem_slots.mp (hh.perm.mem_iff.mp hy)
      exact hh.inv.ordered.root_le i hi
    have hle : ∀ y ∈ es, (h.elems 0).key ≤ y.key := by
      intro y hy
      have := hmin y hy
      rcases Prod.Lex.toLex_le_toLex.mp this with hlt | ⟨heq, -⟩
      · exact hlt.le
      · exact heq.le
    refine ⟨pre, h.elems 0, post, hes, ?_, ?_, ?_, hh'⟩
    · intro y hy
      have hmem : y ∈ es := by rw [hes]; simp [hy]
      refine lt_of_le_of_ne (hle y hmem) (fun heq => ?_)
      have htie : y.sKey < (h.elems 0).sKey := by
        have := hh.ties
        rw [hes] at this
        exact (pairwise_append.mp this).2.2 y hy (h.elems 0) (by simp) heq.symm
      rcases Prod.Lex.toLex_le_toLex.mp (hmin y hmem) with hlt | ⟨-, hsk⟩
      · exact absurd heq (ne_of_lt hlt)
      · omega
    · intro y hy
      exact hle y (by rw [hes]; simp [hy])
    · rw [heapExtractMin, if_neg (by omega)]

theorem holds_init [Inhabited α] {n : ℕ} (hn : 0 < n) : Holds (init n : Heap α) [] :=
  ⟨inv_init hn, List.Perm.refl _, List.Pairwise.nil⟩

theorem Holds.insert [Inhabited α] {h : Heap α} {es : List (HeapElem α)} (hh : Holds h es) {key : ℚ}
    (hf : Fresh h key) (elem : α) :
    Holds (h.heapInsert key elem) (es ++ [⟨key, h.sKey, elem⟩]) := by
  obtain ⟨h1, h2, -⟩ := heapInsert_spec hh.inv key elem
  refine ⟨h1, ?_, ?_⟩
  · exact ((perm_append_singleton _ _).trans (hh.perm.cons _)).trans h2.symm
  · refine pairwise_append.mpr ⟨hh.ties, pairwise_singleton _ _, ?_⟩
    intro x hx y hy hk
    obtain rfl := mem_singleton.mp hy
    exact hf x (hh.perm.mem_iff.mp hx) hk

theorem Holds.delete [DecidableEq α] {h : Heap α} {es : List (HeapElem α)} (hh : Holds h es) (elem : α) :
    ((∀ y ∈ es, y.elem ≠ elem) ∧ h.heapDelete elem = (h, 0)) ∨
    ∃ pre x post, es = pre ++ x :: post ∧ x.elem = elem ∧ (h.heapDelete elem).2 = 1 ∧
      Holds (h.heapDelete elem).1 (pre ++ post) := by
  by_cases hin : ∃ x ∈ h.stored, x.elem = elem
  · right
    obtain ⟨h1, h2, -, x, hx, h3⟩ := heapDelete_present hh.inv hin
    obtain ⟨pre, post, hes, hh'⟩ := hh.remove h2 h3
    exact ⟨pre, x, post, hes, hx, h1, hh'⟩
  · left
    have hno : ∀ x ∈ h.stored, x.elem ≠ elem := fun x hx he => hin ⟨x, hx, he⟩
    exact ⟨fun y hy => hno y (hh.perm.mem_iff.mp hy), heapDelete_absent hno⟩

/-! ## Runs of the code -/

variable [DecidableEq α] [Inhabited α]

def step (h : Heap α) : HeapOp α → Heap α × HeapOut α
  | .insert key elem => (h.heapInsert key elem, .unit)
  | .extractMin => (h.heapExtractMin.1, .min h.heapExtractMin.2)
  | .delete elem => ((h.heapDelete elem).1, .code (h.heapDelete elem).2)

def run (h : Heap α) : List (HeapOp α) → Heap α × List (HeapOut α)
  | [] => (h, [])
  | op :: ops => ((run (h.step op).1 ops).1, (h.step op).2 :: (run (h.step op).1 ops).2)

/-- Every insertion of the run is fresh. -/
def FreshRun (h : Heap α) : List (HeapOp α) → Prop
  | [] => True
  | op :: ops =>
    (match op with
      | .insert key _ => Fresh h key
      | .extractMin => True
      | .delete _ => True) ∧ FreshRun (h.step op).1 ops

/-- **The heap does what it is for** along every run whose insertions are fresh. -/
theorem Holds.run {h : Heap α} {es : List (HeapElem α)} (hh : Holds h es) (ops : List (HeapOp α))
    (hf : FreshRun h ops) :
    ∃ es', Holds (h.run ops).1 es' ∧
      QueueRun (es.map keyed) ops (h.run ops).2 (es'.map keyed) := by
  induction ops generalizing h es with
  | nil => exact ⟨es, hh, .nil _⟩
  | cons op ops ih =>
    obtain ⟨hop, hrest⟩ := hf
    cases op with
    | insert key elem =>
      obtain ⟨es', h1, h2⟩ := ih (hh.insert hop elem) hrest
      have h2' : QueueRun (es.map keyed ++ [(key, elem)]) ops
          ((h.heapInsert key elem).run ops).2 (es'.map keyed) := by simpa [keyed] using h2
      exact ⟨es', h1, .cons (.insert _ key elem) h2'⟩
    | extractMin =>
      rcases hh.extract with ⟨rfl, he⟩ | ⟨pre, x, post, rfl, hpre, hpost, hout, hh'⟩
      · have hstep : h.step .extractMin = (h, .min none) := by simp only [step, he]
        rw [hstep] at hrest
        obtain ⟨es', h1, h2⟩ := ih hh hrest
        refine ⟨es', by rw [Heap.run, hstep]; exact h1, ?_⟩
        rw [Heap.run, hstep]
        exact .cons .extractEmpty h2
      · obtain ⟨es', h1, h2⟩ := ih hh' hrest
        refine ⟨es', h1, ?_⟩
        have hq : QueueStep ((pre ++ x :: post).map keyed) .extractMin
            (.min h.heapExtractMin.2) ((pre ++ post).map keyed) := by
          rw [hout, map_append, map_cons, map_append]
          refine .extract _ x.key x.elem _ ?_ ?_
          · intro y hy
            obtain ⟨z, hz, rfl⟩ := mem_map.mp hy
            exact hpre z hz
          · intro y hy
            obtain ⟨z, hz, rfl⟩ := mem_map.mp hy
            exact hpost z hz
        exact .cons hq h2
    | delete elem =>
      rcases hh.delete elem with ⟨hno, he⟩ | ⟨pre, x, post, rfl, hx, hout, hh'⟩
      · have hstep : h.step (.delete elem) = (h, .code 0) := by simp only [step, he]
        rw [hstep] at hrest
        obtain ⟨es', h1, h2⟩ := ih hh hrest
        refine ⟨es', by rw [Heap.run, hstep]; exact h1, ?_⟩
        rw [Heap.run, hstep]
        refine .cons (.deleteAbsent _ elem ?_) h2
        intro y hy
        obtain ⟨z, hz, rfl⟩ := mem_map.mp hy
        exact hno z hz
      · obtain ⟨es', h1, h2⟩ := ih hh' hrest
        refine ⟨es', h1, ?_⟩
        have hq : QueueStep ((pre ++ x :: post).map keyed) (.delete elem)
            (.code (h.heapDelete elem).2) ((pre ++ post).map keyed) := by
          rw [hout, map_append, map_cons, map_append, ← hx]
          exact .delete _ x.key x.elem _
        exact .cons hq h2

/-! ## The first `2 ^ 32` insertions are fresh -/

def inserts : List (HeapOp α) → ℕ
  | [] => 0
  | .insert _ _ :: ops => inserts ops + 1
  | .extractMin :: ops => inserts ops
  | .delete _ :: ops => inserts ops

theorem freshRun_of_inserts_le (ops : List (HeapOp α)) :
    ∀ (h : Heap α) (n : ℕ), Inv h → h.sKey = n % uintRange → (∀ x ∈ h.stored, x.sKey < n) →
      n + inserts ops ≤ uintRange → FreshRun h ops := by
  induction ops with
  | nil => intro h n _ _ _ _; trivial
  | cons op ops ih =>
    intro h n hi hs hlt hn
    cases op with
    | insert key elem =>
      simp only [inserts] at hn
      have hsn : h.sKey = n := by rw [hs, Nat.mod_eq_of_lt (by omega)]
      obtain ⟨h1, h2, h3⟩ := heapInsert_spec hi key elem
      refine ⟨fun x hx _ => by rw [hsn]; exact hlt x hx, ih _ (n + 1) h1 ?_ ?_ (by omega)⟩
      · show (h.heapInsert key elem).sKey = (n + 1) % uintRange
        rw [h3, hsn]
      · intro x hx
        rcases mem_cons.mp (h2.mem_iff.mp hx) with rfl | hx'
        · show h.sKey < n + 1
          omega
        · have := hlt x hx'
          omega
    | extractMin =>
      refine ⟨trivial, ?_⟩
      rcases Nat.eq_zero_or_pos h.size with h0 | hpos
      · have hstep : (h.step .extractMin).1 = h := by
          simp only [step, heapExtractMin, h0, if_true]
        rw [hstep]
        exact ih h n hi hs hlt hn
      · obtain ⟨h1, h2, h3⟩ := extract_of_hole (hi.ordered.hole 0) hi.fits hi.room hpos
        refine ih _ n h1 (h3.trans hs) (fun x hx => ?_) hn
        exact hlt x (h2.mem_iff.mpr (mem_cons_of_mem _ hx))
    | delete elem =>
      refine ⟨trivial, ?_⟩
      by_cases hin : ∃ x ∈ h.stored, x.elem = elem
      · obtain ⟨_, h1, h2, x, _, h3⟩ := heapDelete_present hi hin
        refine ih _ n h1 (h2.trans hs) (fun y hy => ?_) hn
        exact hlt y (h3.mem_iff.mpr (mem_cons_of_mem _ hy))
      · have hno : ∀ x ∈ h.stored, x.elem ≠ elem := fun x hx he => hin ⟨x, hx, he⟩
        have hstep : (h.step (.delete elem)).1 = h := by
          simp only [step, heapDelete_absent hno]
        rw [hstep]
        exact ih h n hi hs hlt hn

theorem freshRun_init {n : ℕ} (hn : 0 < n) {ops : List (HeapOp α)}
    (h : inserts ops ≤ uintRange) : FreshRun (init n : Heap α) ops :=
  freshRun_of_inserts_le ops _ 0 (inv_init hn) rfl
    (by intro x hx; simp [stored, slots, init] at hx) (by omega)

/-! ## A run in which the counter wraps between two equal keys -/

/-- `n` times: insert an element and take it out again. -/
def turnOver : ℕ → List (HeapOp ℕ)
  | 0 => []
  | n + 1 => .insert 0 0 :: .extractMin :: turnOver n

/-- What those calls return. -/
def turnOverOuts : ℕ → List (HeapOut ℕ)
  | 0 => []
  | n + 1 => .unit :: .min (some 0) :: turnOverOuts n

theorem run_turnOver (ops : List (HeapOp ℕ)) :
    ∀ (n : ℕ) (h : Heap ℕ), h.size = 0 → 0 < h.maxsize → h.sKey < uintRange →
      ∃ h' : Heap ℕ, h'.size = 0 ∧ 0 < h'.maxsize ∧ h'.sKey = (h.sKey + n) % uintRange ∧
        (h.run (turnOver n ++ ops)).2 = turnOverOuts n ++ (h'.run ops).2 := by
  intro n
  induction n with
  | zero =>
    intro h h0 hm hs
    exact ⟨h, h0, hm, (Nat.mod_eq_of_lt hs).symm, rfl⟩
  | succ n ih =>
    intro h h0 hm _
    have hne : h.maxsize ≠ 0 := by omega
    have hins : h.heapInsert 0 0 = { h with
        elems := Function.update h.elems 0 ⟨0, h.sKey, 0⟩
        sKey := (h.sKey + 1) % uintRange
        size := 1 } := by
      simp [heapInsert, h0, hne, siftUp]
    have hpos : 0 < uintRange := by norm_num [uintRange]
    obtain ⟨h', a1, a2, a3, a4⟩ := ih
      (((h.step (.insert 0 0)).1).step .extractMin).1
      (by simp [step, hins, heapExtractMin]) (by simpa [step, hins, heapExtractMin] using hm)
      (by simpa [step, hins, heapExtractMin] using Nat.mod_lt _ hpos)
    refine ⟨h', a1, a2, ?_, ?_⟩
    · have hk : (((h.step (.insert 0 0)).1).step .extractMin).1.sKey
          = (h.sKey + 1) % uintRange := by simp [step, hins, heapExtractMin]
      rw [a3, hk, Nat.mod_add_mod]
      congr 1
      omega
    · simp only [turnOver, turnOverOuts, cons_append, Heap.run, a4]
      simp [step, hins, heapExtractMin]

/-- The heap is emptied `2 ^ 32 - 1` times, and then two elements of one key are inserted. -/
def wrapRun : List (HeapOp ℕ) :=
  turnOver (uintRange - 1) ++ [.insert 0 1, .insert 0 2, .extractMin]

theorem run_at_wrap (h : Heap ℕ) (h0 : h.size = 0) (hm : 0 < h.maxsize)
    (hs : h.sKey = uintRange - 1) :
    (h.run [.insert 0 1, .insert 0 2, .extractMin]).2 = [.unit, .unit, .min (some 2)] := by
  have hne : h.maxsize ≠ 0 := by omega
  have hpos : 0 < uintRange - 1 := by norm_num [uintRange]
  have hwrap : (uintRange - 1 + 1) % uintRange = 0 := by norm_num [uintRange]
  have hins : h.heapInsert 0 1 = { h with
      elems := Function.update h.elems 0 ⟨0, uintRange - 1, 1⟩
      sKey := 0
      size := 1 } := by
    simp [heapInsert, h0, hne, siftUp, hs, hwrap]
  -- the new element has secondary key 0 and climbs past the one inserted before it
  have hmin : ((h.heapInsert 0 1).heapInsert 0 2).heapExtractMin.2 = some 2 := by
    rw [hins]
    by_cases hg : h.maxsize = 1
    · simp [heapInsert, heapExtractMin, siftUp, keyLessThan, parent, grow, hg, hpos]
    · simp [heapInsert, heapExtractMin, siftUp, keyLessThan, parent, hg, hpos]
  simp only [Heap.run, step, hmin]

theorem queueRun_turnOver {n : ℕ} {ops : List (HeapOp ℕ)} {outs : List (HeapOut ℕ)}
    {l : List (ℚ × ℕ)} (h : QueueRun [] (turnOver n ++ ops) (turnOverOuts n ++ outs) l) :
    QueueRun [] ops outs l := by
  induction n with
  | zero => exact h
  | succ n ih =>
    cases h with
    | cons h1 h2 =>
      obtain rfl := h1.insert_inv
      cases h2 with
      | cons h3 h4 =>
        obtain ⟨pre, key, post, hl, rfl, -⟩ := h3.extract_inv rfl rfl
        have hlen := congrArg List.length hl
        simp only [length_cons, length_nil, length_append]
          at hlen
        obtain rfl : pre = [] := eq_nil_of_length_eq_zero (by omega)
        obtain rfl : post = [] := eq_nil_of_length_eq_zero (by omega)
        exact ih h4

/-- **The tie-break counter wraps.** In `wrapRun` the two elements of key 0 that are stored at the
end come out in the wrong order: the answers are not those of a stable queue. -/
theorem heap_wraps :
    ¬ ∃ l, QueueRun [] wrapRun ((init 32 : Heap ℕ).run wrapRun).2 l := by
  rintro ⟨l, hrun⟩
  have hpos : 0 < uintRange := by norm_num [uintRange]
  obtain ⟨h', h0, hm, hs, hout⟩ := run_turnOver [.insert 0 1, .insert 0 2, .extractMin]
    (uintRange - 1) (init 32) rfl (by simp [init]) hpos
  have hs' : h'.sKey = uintRange - 1 := by
    rw [hs, show (init 32 : Heap ℕ).sKey = 0 from rfl, Nat.zero_add, Nat.mod_eq_of_lt (by omega)]
  rw [wrapRun, hout, run_at_wrap h' h0 hm hs'] at hrun
  cases queueRun_turnOver hrun with
  | cons h1 h2 =>
    obtain rfl := h1.insert_inv
    cases h2 with
    | cons h3 h4 =>
      obtain rfl := h3.insert_inv
      cases h4 with
      | cons h5 h6 =>
        obtain ⟨pre, key, post, hl, -, hpre⟩ := h5.extract_inv rfl rfl
        -- `2` is the second element, and the first has the same key
        rcases pre with _ | ⟨y, pre⟩
        · simp at hl
        · obtain ⟨hy, hrest⟩ := List.cons.inj hl
          have hk := hpre y (by simp)
          rcases pre with _ | ⟨z, pre⟩
          · have hkey := (List.cons.inj hrest).1
            rw [← hy, ← (Prod.mk.inj hkey).1] at hk
            exact absurd hk (lt_irrefl _)
          · simp at hrest

end Heap

/-! ## The heap scheduler -/

instance : Inhabited Event := ⟨⟨0, 0, 0⟩⟩

def heapDefaultSize : ℕ := 32

/-- `HeapScheduler`: `hp_` holds the addresses of the queued events, keyed by their time. -/
def heapScheduler : Scheduler (Heap Event) where
  insert h e := some (h.heapInsert e.time e)
  cancel h e := some (if e.uid ≤ 0 then h else (h.heapDelete e).1)
  deque h := some (h.heapExtractMin.1, h.heapExtractMin.2)
  head h := some (h, h.heapMin)

/-- The insertions of a scheduler run are fresh. -/
def FreshCall (h : Heap Event) : Op → Prop
  | .insert e => Heap.Fresh h e.time
  | .cancel _ => True
  | .deque => True
  | .head => True

structure HeapRel (h : Heap Event) (q : List Event) : Prop where
  distinct : Distinct q
  holds : ∃ es, Heap.Holds h es ∧ (∀ x ∈ es, x.key = x.elem.time) ∧ es.map HeapElem.elem = q

theorem argmin_of_extract {pre post : List (HeapElem Event)} {x : HeapElem Event}
    (hkey : ∀ y ∈ pre ++ x :: post, y.key = y.elem.time) (hpre : ∀ y ∈ pre, x.key < y.key)
    (hpost : ∀ y ∈ post, x.key ≤ y.key) :
    ((pre ++ x :: post).map HeapElem.elem).argmin Event.time = some x.elem := by
  have hx : x.key = x.elem.time := hkey x (by simp)
  rw [map_append, map_cons]
  refine argmin_append_cons ?_ ?_
  · intro e he
    obtain ⟨y, hy, rfl⟩ := mem_map.mp he
    rw [← hx, ← hkey y (by simp [hy])]
    exact hpre y hy
  · intro e he
    obtain ⟨y, hy, rfl⟩ := mem_map.mp he
    rw [← hx, ← hkey y (by simp [hy])]
    exact hpost y hy

theorem heapRel_remove {h' : Heap Event} {pre post : List (HeapElem Event)} {x : HeapElem Event}
    (hd : Distinct ((pre ++ x :: post).map HeapElem.elem))
    (hkey : ∀ y ∈ pre ++ x :: post, y.key = y.elem.time) (hh : Heap.Holds h' (pre ++ post)) :
    HeapRel h' (remove x.elem ((pre ++ x :: post).map HeapElem.elem)) := by
  have hrem : remove x.elem ((pre ++ x :: post).map HeapElem.elem)
      = (pre ++ post).map HeapElem.elem := by
    rw [map_append, map_cons] at hd ⊢
    rw [remove_append_cons hd, map_append]
  refine ⟨hd.remove x.elem, pre ++ post, hh, fun y hy => hkey y ?_, hrem.symm⟩
  rcases mem_append.mp hy with hy | hy
  · simp [hy]
  · simp [hy]

theorem heapMin_eq (h : Heap Event) : h.heapMin = h.heapExtractMin.2 := by
  rcases Nat.eq_zero_or_pos h.size with h0 | hpos
  · simp [Heap.heapMin, Heap.heapExtractMin, h0]
  · have hne : h.size ≠ 0 := by omega
    simp [Heap.heapMin, Heap.heapExtractMin, hne]

/-- `HeapScheduler` does what a scheduler queue is for, while its insertions are fresh. -/
theorem heapScheduler_simulation :
    Scheduler.Simulation heapScheduler arrivalQueue FreshCall CallOk HeapRel := by
  rintro h q op ⟨hd, es, hh, hkey, rfl⟩ hfresh hok
  cases op with
  | insert e =>
    refine ⟨_, _, [], rfl, rfl, ?_, es ++ [⟨e.time, h.sKey, e⟩], hh.insert hfresh e, ?_, ?_⟩
    · show ((es.map HeapElem.elem ++ [e]).map Event.id).Nodup
      rw [map_append]
      refine List.nodup_append.mpr ⟨hd, by simp, ?_⟩
      rintro i hi j hj rfl
      obtain ⟨x, hx, hxi⟩ := mem_map.mp hi
      rw [map_singleton, mem_singleton] at hj
      exact hok.2 x hx (hxi.trans hj)
    · intro x hx
      rcases mem_append.mp hx with hx | hx
      · exact hkey x hx
      · rw [mem_singleton.mp hx]
    · simp
  | cancel e =>
    by_cases hu : e.uid ≤ 0
    · refine ⟨h, es.map HeapElem.elem, [], ?_, ?_, hd, es, hh, hkey, rfl⟩
      · simp [Scheduler.step, heapScheduler, hu]
      · simp [Scheduler.step, arrivalQueue, hu]
    · refine ⟨(h.heapDelete e).1, remove e (es.map HeapElem.elem), [], ?_, ?_, ?_⟩
      · simp [Scheduler.step, heapScheduler, hu]
      · simp [Scheduler.step, arrivalQueue, hu]
      · rcases hh.delete e with ⟨hno, -⟩ | ⟨pre, x, post, rfl, rfl, -, hh'⟩
        · obtain ⟨x, hx, hxe⟩ := mem_map.mp (hok (by omega))
          exact absurd hxe (hno x hx)
        · exact heapRel_remove hd hkey hh'
  | deque =>
    rcases hh.extract with ⟨rfl, he⟩ | ⟨pre, x, post, rfl, hpre, hpost, hout, hh'⟩
    · refine ⟨h, [], [none], ?_, rfl, hd, [], hh, hkey, rfl⟩
      simp [Scheduler.step, heapScheduler, he]
    · refine ⟨h.heapExtractMin.1, remove x.elem ((pre ++ x :: post).map HeapElem.elem),
        [some x.elem], ?_, ?_, heapRel_remove hd hkey hh'⟩
      · simp [Scheduler.step, heapScheduler, hout]
      · simp only [Scheduler.step, arrivalQueue, argmin_of_extract hkey hpre hpost]
        rfl
  | head =>
    refine ⟨h, es.map HeapElem.elem, [h.heapExtractMin.2], ?_, ?_, hd, es, hh, hkey, rfl⟩
    · simp [Scheduler.step, heapScheduler, heapMin_eq]
    · rcases hh.extract with ⟨rfl, he⟩ | ⟨pre, x, post, rfl, hpre, hpost, hout, -⟩
      · simp [Scheduler.step, arrivalQueue, he]
      · simp only [Scheduler.step, arrivalQueue, argmin_of_extract hkey hpre hpost, hout]
        rfl

theorem heapRel_init : HeapRel (Heap.init heapDefaultSize) [] :=
  ⟨nodup_nil, [], Heap.holds_init (by decide), by simp, rfl⟩

open Heap in
/-- **The heap is a stable priority queue while its counter has not wrapped between equal keys.**
Along every run whose insertions are fresh the heap answers as a stable queue and holds that
queue's elements; `heap_delete` of an element that is not stored changes nothing; and
`HeapScheduler` returns the events that `ListScheduler` returns. -/
theorem heap_stable_queue {α : Type} [DecidableEq α] [Inhabited α] :
    (∀ (size : ℕ) (ops : List (HeapOp α)), 0 < size → FreshRun (init size) ops →
      ∃ l, QueueRun [] ops ((init size).run ops).2 l ∧
        (((init size).run ops).1.stored.map keyed).Perm l) ∧
    (∀ (h : Heap α) (elem : α), (∀ x ∈ h.stored, x.elem ≠ elem) → h.heapDelete elem = (h, 0)) ∧
    (∀ ops : List Op,
      Scheduler.Admissible heapScheduler FreshCall (init heapDefaultSize) ops →
      Scheduler.Admissible arrivalQueue CallOk [] ops →
      ∃ h q outs, heapScheduler.run (init heapDefaultSize) ops = some (h, outs) ∧
        listScheduler.run [] ops = some (q, outs)) := by
  refine ⟨?_, fun h elem hno => heapDelete_absent hno, ?_⟩
  · intro size ops hsize hfresh
    obtain ⟨es, hh, hrun⟩ := (holds_init hsize).run ops hfresh
    exact ⟨es.map keyed, hrun, (hh.perm.map keyed).symm⟩
  · intro ops hfresh hok
    obtain ⟨h, q, outs, h1, h2, -⟩ :=
      heapScheduler_simulation.run ops _ _ heapRel_init hfresh hok
    obtain ⟨l, q', outs', h3, h4, -⟩ := listScheduler_simulation.run ops [] []
      ⟨queueInv_nil, fun _ => rfl⟩ (Scheduler.admissible_always _ _ _) hok
    have hout : outs' = outs := by
      have := h4.symm.trans h2
      simpa using congrArg (Option.map Prod.snd) this
    exact ⟨h, l, outs, h1, hout ▸ h3⟩

open Heap in
/-- Three insertions into an array of one slot, with a tie, a deletion and an extraction; and a
scheduler that is given one event and asked for it. -/
theorem heap_stable_queue_small_run :
    (∃ l, QueueRun [] [.insert 1 10, .insert 1 20, .insert 1 30, .delete 10, .extractMin]
        [.unit, .unit, .unit, .code 1, .min (some 20)] l) ∧
    (∃ hp, heapScheduler.run (init heapDefaultSize) [.insert ⟨7, 3, 1⟩, .deque]
        = some (hp, [some ⟨7, 3, 1⟩])) := by
  have h := @heap_stable_queue ℕ _ _
  constructor
  · obtain ⟨l, hl, -⟩ := h.1 1 [.insert 1 10, .insert 1 20, .insert 1 30, .delete 10, .extractMin]
      (by decide) (freshRun_init (by decide) (by norm_num [inserts, uintRange]))
    have hout : ((init 1 : Heap ℕ).run
        [.insert 1 10, .insert 1 20, .insert 1 30, .delete 10, .extractMin]).2
        = [.unit, .unit, .unit, .code 1, .min (some 20)] := by decide
    exact ⟨l, hout ▸ hl⟩
  · have hfresh : Scheduler.Admissible heapScheduler FreshCall (init heapDefaultSize)
        [.insert ⟨7, 3, 1⟩, .deque] := by
      refine ⟨fun x hx => ?_, fun _ _ _ => ⟨trivial, fun _ _ _ => trivial⟩⟩
      simp [stored, slots, init] at hx
    have hok : Scheduler.Admissible arrivalQueue CallOk [] [.insert ⟨7, 3, 1⟩, .deque] :=
      ⟨by decide, fun _ _ _ => ⟨trivial, fun _ _ _ => trivial⟩⟩
    obtain ⟨hp, q, outs, h1, h2⟩ := h.2.2 _ hfresh hok
    have hlist : listScheduler.run [] [.insert ⟨7, 3, 1⟩, .deque] = some ([], [some ⟨7, 3, 1⟩]) := by
      decide
    obtain ⟨rfl, rfl⟩ := Prod.mk.inj (Option.some.inj (h2.symm.trans hlist))
    exact ⟨hp, h1⟩

end NetSim
