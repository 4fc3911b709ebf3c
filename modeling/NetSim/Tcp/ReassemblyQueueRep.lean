import NetSim.Tcp.ReassemblyQueue

/-! # The reassembly queue: what its pointers stand for

`Rep q xs ys fs` says that the FIFO of `q` consists of the nodes `xs`, its LIFO of the nodes `ys`
(the same ones), and its free list of the nodes `fs`. Allocating, linking, unlinking and freeing
nodes are list operations on these (`Rep.linkNew`, `Rep.drop`), and the blocks of the nodes that
stay are not touched.
-/

namespace NetSim

open Function List LinkedList IntervalList

namespace ReassemblyQueue

variable {q q' : ReassemblyQueue} {xs ys fs l r : List ℕ} {p n : ℕ}

/-- The lists of a reassembly queue. -/
structure Rep (q : ReassemblyQueue) (xs ys fs : List ℕ) : Prop where
  fifo : q.fifo.Holds xs
  lifo : q.lifo.Holds ys
  free : Chain q.fifo.next q.freelist fs
  nodup : (xs ++ fs).Nodup
  perm : ys.Perm xs
  alloc : ∀ a ∈ xs ++ fs, a < q.allocated

def block (q : ReassemblyQueue) (a : ℕ) : Block := ⟨q.startseq a, q.endseq a⟩

def blocks (q : ReassemblyQueue) (xs : List ℕ) : List Block := xs.map q.block

@[simp] theorem blocks_nil : q.blocks [] = [] := rfl

@[simp] theorem blocks_cons (a : ℕ) : q.blocks (a :: xs) = q.block a :: q.blocks xs := rfl

@[simp] theorem blocks_append : q.blocks (l ++ r) = q.blocks l ++ q.blocks r := map_append

theorem Rep.congr (h : Rep q xs ys fs) (hf : q'.fifo = q.fifo) (hl : q'.lifo = q.lifo)
    (hfree : q'.freelist = q.freelist) (ha : q'.allocated = q.allocated) : Rep q' xs ys fs := by
  obtain ⟨h1, h2, h3, h4, h5, h6⟩ := h
  exact ⟨hf ▸ h1, hl ▸ h2, by rw [hf, hfree]; exact h3, h4, h5, by rw [ha]; exact h6⟩

theorem Rep.nodupFifo (h : Rep q xs ys fs) : xs.Nodup := (List.nodup_append.mp h.nodup).1

theorem Rep.length_lt_fuel (h : Rep q xs ys fs) : xs.length < q.fuel := by
  have hsub : xs ⊆ List.range q.allocated := by
    intro a ha
    exact mem_range.mpr (h.alloc a (by simp [ha]))
  have hle := (subperm_of_subset h.nodupFifo hsub).length_le
  rw [length_range] at hle
  unfold fuel
  omega

theorem blocks_congr (h : ∀ a ∈ xs, q'.block a = q.block a) : q'.blocks xs = q.blocks xs :=
  map_congr_left h

theorem blocks_middle (h : ∀ a, a ≠ p → q'.block a = q.block a) (hnd : (l ++ p :: r).Nodup) :
    q'.blocks (l ++ p :: r) = q.blocks l ++ q'.block p :: q.blocks r := by
  obtain ⟨-, -, hpl, hpr, -⟩ := nodup_middle hnd
  rw [blocks_append, blocks_cons,
    blocks_congr (fun a ha => h a (ne_of_mem_of_not_mem ha hpl)),
    blocks_congr (fun a ha => h a (ne_of_mem_of_not_mem ha hpr))]

/-! ## Freeing a node -/

/-- Unlink a node from both lists and free it. -/
def drop (q : ReassemblyQueue) (p : ℕ) : ReassemblyQueue :=
  ((q.fremove p).sremove p).deleteseginfo p

@[simp] theorem drop_block (a : ℕ) : (q.drop p).block a = q.block a := rfl

theorem Rep.drop (h : Rep q (l ++ p :: r) ys fs) :
    Rep (q.drop p) (l ++ r) (ys.erase p) (p :: fs) := by
  have hnd := h.nodupFifo
  obtain ⟨hl, hr, hpl, hpr, hlr⟩ := nodup_middle hnd
  have hfs : ∀ a ∈ fs, a ∉ l ++ p :: r := by
    intro a ha hx
    exact (List.nodup_append.mp h.nodup).2.2 a hx a ha rfl
  have hp : p ∉ l ++ r := by simp [hpl, hpr]
  obtain ⟨yl, yr, hy⟩ := append_of_mem (h.perm.mem_iff.mpr (show p ∈ l ++ p :: r by simp))
  have hynd : ys.Nodup := h.perm.nodup_iff.mpr hnd
  have hyerase : ys.erase p = yl ++ yr := by
    subst hy
    have hpyl := (nodup_middle hynd).2.2.1
    rw [erase_append_right _ hpyl, erase_cons_head]
  have hfifo := h.fifo.remove hnd
  refine ⟨?_, ?_, ?_, ?_, ?_, ?_⟩
  · refine ⟨hfifo.head, hfifo.tail, hfifo.path.congr (fun a ha => ?_) (fun _ _ => rfl)⟩
    have hne : a ≠ p := fun he => hp (he ▸ ha)
    exact update_of_ne hne _ _
  · rw [hyerase]
    exact (hy ▸ h.lifo).remove (hy ▸ hynd)
  · refine ⟨rfl, ?_⟩
    simp only [ReassemblyQueue.drop, deleteseginfo, update_self]
    refine h.free.congr (fun a ha => ?_)
    have hne : a ≠ p := fun he => hfs a ha (by simp [he])
    rw [update_of_ne hne]
    exact h.fifo.remove_next (fun hal => hfs a ha (by simp [hal]))
  · have hperm : (l ++ r ++ p :: fs).Perm (l ++ p :: r ++ fs) := by
      simp only [append_assoc, cons_append]
      refine List.Perm.append_left l ?_
      exact perm_middle
    exact hperm.nodup_iff.mpr h.nodup
  · have := h.perm.erase p
    have hx : (l ++ p :: r).erase p = l ++ r := by
      rw [erase_append_right _ hpl, erase_cons_head]
    rwa [hx] at this
  · intro a ha
    apply h.alloc
    simp only [mem_append, mem_cons] at ha ⊢
    tauto

/-! ## Allocating a node -/

theorem Rep.newseginfo (h : Rep q xs ys fs) :
    q.newseginfo.1.fifo = q.fifo ∧ q.newseginfo.1.lifo = q.lifo ∧
      ∃ fs', Chain q.fifo.next q.newseginfo.1.freelist fs' ∧
        (xs ++ q.newseginfo.2 :: fs').Nodup ∧
        ∀ a ∈ xs ++ q.newseginfo.2 :: fs', a < q.newseginfo.1.allocated := by
  unfold ReassemblyQueue.newseginfo
  cases fs with
  | nil =>
    rw [show q.freelist = none from h.free]
    refine ⟨rfl, rfl, [], rfl, ?_, ?_⟩
    · have hnot : q.allocated ∉ xs := by
        intro hm
        exact absurd (h.alloc _ (by simp [hm])) (lt_irrefl _)
      simp only
      rw [List.nodup_append]
      refine ⟨h.nodupFifo, by simp, ?_⟩
      rintro a ha b hb rfl
      exact hnot (mem_singleton.mp hb ▸ ha)
    · intro a ha
      simp only [mem_append, mem_cons, not_mem_nil, or_false] at ha
      rcases ha with ha | rfl
      · exact Nat.lt_succ_of_lt (h.alloc a (by simp [ha]))
      · exact Nat.lt_succ_self _
  | cons s fs =>
    rw [h.free.1]
    exact ⟨rfl, rfl, fs, h.free.2, h.nodup, h.alloc⟩

theorem Rep.linkNew (h : Rep q (l ++ r) ys fs) (start stop : ℤ) (tiflags : ℕ)
    (rqflags : ℕ) (initcnt : ℤ) :
    q.newseginfo.2 ∉ l ++ r ∧
      ∃ fs', Rep (q.linkNew l.getLast? r.head? start stop tiflags rqflags initcnt)
        (l ++ q.newseginfo.2 :: r) (q.newseginfo.2 :: ys) fs' := by
  obtain ⟨hfifo, hlifo, fs', hfree, hnd, halloc⟩ := h.newseginfo
  have hn : q.newseginfo.2 ∉ l ++ r := (nodup_middle hnd).2.2.1
  have hnfs : q.newseginfo.2 ∉ fs' := (nodup_middle hnd).2.2.2.1
  have hperm : (l ++ q.newseginfo.2 :: r ++ fs').Perm (l ++ r ++ q.newseginfo.2 :: fs') := by
    simp only [append_assoc, cons_append]
    refine List.Perm.append_left l ?_
    exact perm_middle.symm
  have hnd' : (l ++ q.newseginfo.2 :: r ++ fs').Nodup := hperm.nodup_iff.mpr hnd
  refine ⟨hn, fs', ?_, ?_, ?_, hnd', ?_, ?_⟩
  · simp only [ReassemblyQueue.linkNew, push, fill, hfifo]
    exact h.fifo.link (List.nodup_append.mp hnd').1
  · simp only [ReassemblyQueue.linkNew, push, fill, hlifo, h.lifo.head]
    have hy : ([] ++ q.newseginfo.2 :: ys).Nodup := by
      have hny : q.newseginfo.2 ∉ ys := fun hm => hn (h.perm.mem_iff.mp hm)
      exact nodup_cons.mpr ⟨hny, h.perm.nodup_iff.mpr h.nodupFifo⟩
    exact DLinks.Holds.link (show q.lifo.Holds ([] ++ ys) from h.lifo) hy
  · simp only [ReassemblyQueue.linkNew, push, fill, hfifo]
    refine hfree.congr (fun a ha => ?_)
    refine DLinks.link_next_of_ne (fun he => hnfs (he ▸ ha)) (fun he => ?_)
    exact (nodup_middle hnd).2.2.2.2 a (by simp [mem_of_getLast? he]) ha
  · exact ((h.perm.cons _).trans perm_middle.symm)
  · intro a ha
    exact halloc a (hperm.mem_iff.mp ha)

theorem linkNew_block {a : ℕ} (ha : a ≠ q.newseginfo.2) (p r : Option ℕ) (start stop : ℤ)
    (tiflags : ℕ) (rqflags : ℕ) (initcnt : ℤ) :
    (q.linkNew p r start stop tiflags rqflags initcnt).block a = q.block a := by
  have h1 : q.newseginfo.1.startseq = q.startseq := by
    unfold newseginfo; cases q.freelist <;> rfl
  have h2 : q.newseginfo.1.endseq = q.endseq := by
    unfold newseginfo; cases q.freelist <;> rfl
  simp only [block, linkNew, push, fill, update_of_ne ha, h1, h2]

theorem linkNew_block_self (p r : Option ℕ) (start stop : ℤ) (tiflags : ℕ)
    (rqflags : ℕ) (initcnt : ℤ) :
    (q.linkNew p r start stop tiflags rqflags initcnt).block q.newseginfo.2 = ⟨start, stop⟩ := by
  simp only [block, linkNew, push, fill, update_self]

theorem linkNew_rcvNxt (p r : Option ℕ) (start stop : ℤ) (tiflags : ℕ)
    (rqflags : ℕ) (initcnt : ℤ) :
    (q.linkNew p r start stop tiflags rqflags initcnt).rcvNxt = q.rcvNxt := by
  simp only [linkNew, push, fill]
  unfold newseginfo
  cases q.freelist <;> rfl

end ReassemblyQueue

end NetSim
