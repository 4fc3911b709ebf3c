import NetSim.Scheduler.ListScheduler

/-! # The splay-tree scheduler

`SplayScheduler` (`common/splay-scheduler.cc`) keeps the queued events in a binary tree threaded
through `Event::prev_` (left) and `Event::next_` (right). `insert` is the top-down splay with the
new event as the new root, `deque` rotates on the way down to the leftmost event, and `cancel`
searches by time and uid.

The tree is an inductive type. The two side trees that `insert` grows while it walks down are
kept as the lists of their spine nodes: `LINK_LEFT` pushes a node whose right child is still
open, `LINK_RIGHT` one whose left child is still open, and the assembly closes both spines.
-/

namespace NetSim

open List StableOrder

/-- The event tree: left child `prev_`, event, right child `next_`. -/
inductive EventTree where
  | leaf
  | node (left : EventTree) (e : Event) (right : EventTree)
deriving DecidableEq

namespace EventTree

def inorder : EventTree → List Event
  | leaf => []
  | node l e r => l.inorder ++ e :: r.inorder

/-- Close a left spine: the open right child of its last node becomes `t`. -/
def closeLeft : List (EventTree × Event) → EventTree → EventTree
  | [], t => t
  | (l, e) :: spine, t => closeLeft spine (node l e t)

/-- Close a right spine: the open left child of its last node becomes `t`. -/
def closeRight : List (Event × EventTree) → EventTree → EventTree
  | [], t => t
  | (e, r) :: spine, t => closeRight spine (node t e r)

/-- The loop of `SplayScheduler::insert` on the remaining tree `t`, with the spines of the left
and the right tree: the two side trees when it breaks out. -/
def splayLoop (time : ℚ) :
    EventTree → List (EventTree × Event) → List (Event × EventTree) → EventTree × EventTree
  | leaf, l, r => (closeLeft l leaf, closeRight r leaf)
  | node tl e tr, l, r =>
    if time < e.time then
      match tl with
      | leaf => (closeLeft l leaf, closeRight r (node leaf e tr))
      | node xl x xr =>
        if time < x.time then
          -- ROTATE_RIGHT, then LINK_RIGHT
          splayLoop time xl l ((x, node xr e tr) :: r)
        else
          splayLoop time (node xl x xr) l ((e, tr) :: r)
    else
      match tr with
      | leaf => (closeLeft l (node tl e leaf), closeRight r leaf)
      | node xl x xr =>
        if x.time ≤ time then
          -- ROTATE_LEFT, then LINK_LEFT
          splayLoop time xr ((node tl e xl, x) :: l) r
        else
          splayLoop time (node xl x xr) ((tl, e) :: l) r

/-- The loop of `SplayScheduler::head`: follow the left children. -/
def leftmost : EventTree → Option Event
  | leaf => none
  | node leaf e _ => some e
  | node (node a b c) _ _ => leftmost (node a b c)

/-- The loop of `SplayScheduler::deque` on the left subtree of the node `t` it has reached: the
new left subtree of that node and the leftmost event. A leaf is never passed. -/
def dequeLoop : EventTree → EventTree × Option Event
  | leaf => (leaf, none)
  | node leaf e r => (r, some e)
  | node (node leaf ll llr) e r => (node llr e r, some ll)
  | node (node (node a b c) ll llr) e r =>
    -- zig-zig: rotate `l` with `ll` and go on below `ll`
    let rest := dequeLoop (node a b c)
    (node rest.1 ll (node llr e r), rest.2)

/-- Unlink the leftmost event of a tree, as `SplayScheduler::cancel` does with the successor. -/
def popLeftmost : EventTree → EventTree × Option Event
  | leaf => (leaf, none)
  | node leaf e r => (r, some e)
  | node (node a b c) e r =>
    let rest := popLeftmost (node a b c)
    (node rest.1 e r, rest.2)

/-- The tree that replaces a node with children `l` and `r` once its event is cancelled. -/
def join (l r : EventTree) : EventTree :=
  match l, r with
  | l, leaf => l
  | leaf, r => r
  | l, node leaf p pr => node l p pr
  | l, r =>
    match popLeftmost r with
    | (r', some q) => node l q r'
    | (_, none) => l

/-- The search of `SplayScheduler::cancel` by time and uid, and the removal of the node it finds.
`none` is the abort "did not find it". -/
def cancel : EventTree → Event → Option EventTree
  | leaf, _ => none
  | node l x r, e =>
    if x.id = e.id then some (join l r)
    else if x.time < e.time ∨ (e.time = x.time ∧ x.uid < e.uid) then
      (cancel r e).map (fun r' => node l x r')
    else (cancel l e).map (fun l' => node l' x r)

end EventTree

structure SplayScheduler where
  root : EventTree
  qsize : Int
deriving DecidableEq

namespace SplayScheduler

def init : SplayScheduler := ⟨.leaf, 0⟩

/-- `SplayScheduler::insert`. The left tree hangs off `RIGHT(n)` and the right tree off `LEFT(n)`
until the two are swapped at the end. -/
def insert (s : SplayScheduler) (n : Event) : SplayScheduler :=
  match s.root with
  | .leaf => ⟨.node .leaf n .leaf, s.qsize + 1⟩
  | t =>
    let sides := EventTree.splayLoop n.time t [] []
    ⟨.node sides.1 n sides.2, s.qsize + 1⟩

def head (s : SplayScheduler) : Option Event := s.root.leftmost

def deque (s : SplayScheduler) : SplayScheduler × Option Event :=
  match s.root with
  | .leaf => (s, none)
  | .node .leaf e r => (⟨r, s.qsize - 1⟩, some e)
  | .node l e r =>
    let rest := EventTree.dequeLoop l
    (⟨.node rest.1 e r, s.qsize - 1⟩, rest.2)

def cancel (s : SplayScheduler) (e : Event) : Option SplayScheduler :=
  if e.uid ≤ 0 then some s
  else (s.root.cancel e).map (fun t => ⟨t, s.qsize - 1⟩)

end SplayScheduler

/-! ## The traversal under the three operations -/

namespace EventTree

/-- The events of a left spine, in order. -/
def leftEvents : List (EventTree × Event) → List Event
  | [] => []
  | (l, e) :: spine => leftEvents spine ++ (l.inorder ++ [e])

/-- The events of a right spine, in order. -/
def rightEvents : List (Event × EventTree) → List Event
  | [] => []
  | (e, r) :: spine => (e :: r.inorder) ++ rightEvents spine

theorem inorder_closeLeft (spine : List (EventTree × Event)) (t : EventTree) :
    (closeLeft spine t).inorder = leftEvents spine ++ t.inorder := by
  induction spine generalizing t with
  | nil => rfl
  | cons f spine ih =>
    simp [closeLeft, leftEvents, ih, inorder]

theorem inorder_closeRight (spine : List (Event × EventTree)) (t : EventTree) :
    (closeRight spine t).inorder = t.inorder ++ rightEvents spine := by
  induction spine generalizing t with
  | nil => simp [closeRight, rightEvents]
  | cons f spine ih =>
    simp [closeRight, rightEvents, ih, inorder]

/-- What the splay loop makes of the rest `t` of the tree: it cuts the traversal of `t` at `time`
and appends the two parts to the side trees. -/
def Splits (time : ℚ) (t : EventTree) (l : List (EventTree × Event))
    (r : List (Event × EventTree)) (sides : EventTree × EventTree) : Prop :=
  ∃ pre post, t.inorder = pre ++ post ∧
    (∀ x ∈ pre, x.time ≤ time) ∧ (∀ y ∈ post, time < y.time) ∧
    sides.1.inorder = leftEvents l ++ pre ∧ sides.2.inorder = post ++ rightEvents r

theorem sorted_node {l r : EventTree} {e : Event} :
    Sorted Event.time (node l e r).inorder ↔
      Sorted Event.time l.inorder ∧ Sorted Event.time r.inorder ∧
      (∀ x ∈ l.inorder, x.time ≤ e.time) ∧ (∀ y ∈ r.inorder, e.time ≤ y.time) := by
  simp only [inorder, Sorted, pairwise_append, pairwise_cons, mem_cons]
  constructor
  · rintro ⟨hl, ⟨her, hr⟩, hlr⟩
    exact ⟨hl, hr, fun x hx => hlr x hx e (Or.inl rfl), her⟩
  · rintro ⟨hl, hr, hle, her⟩
    refine ⟨hl, ⟨her, hr⟩, ?_⟩
    rintro x hx y (rfl | hy)
    · exact hle x hx
    · exact (hle x hx).trans (her y hy)

/-- Once `time` is before the root's event, all of the root's right side is behind `time`. -/
theorem lt_right_of_lt {time : ℚ} {l r : EventTree} {e : Event} (h : time < e.time)
    (hs : Sorted Event.time (node l e r).inorder) : ∀ y ∈ e :: r.inorder, time < y.time := by
  intro y hy
  rcases mem_cons.mp hy with rfl | hy
  · exact h
  · exact h.trans_le ((sorted_node.mp hs).2.2.2 y hy)

/-- Once `time` is not before the root's event, neither is it before the root's left side. -/
theorem left_le_of_le {time : ℚ} {l r : EventTree} {e : Event} (h : e.time ≤ time)
    (hs : Sorted Event.time (node l e r).inorder) :
    ∀ x ∈ l.inorder ++ [e], x.time ≤ time := by
  intro x hx
  rcases mem_append.mp hx with hx | hx
  · exact ((sorted_node.mp hs).2.2.1 x hx).trans h
  · rw [mem_singleton.mp hx]; exact h

theorem splayLoop_splits (time : ℚ) (t : EventTree) (l : List (EventTree × Event))
    (r : List (Event × EventTree)) (hs : Sorted Event.time t.inorder) :
    Splits time t l r (splayLoop time t l r) := by
  fun_induction splayLoop time t l r with
  | case1 l r =>
    refine ⟨[], [], rfl, by simp, by simp, ?_, ?_⟩
    · rw [inorder_closeLeft]; rfl
    · rw [inorder_closeRight]; rfl
  | case2 e tr l r h =>
    refine ⟨[], (node leaf e tr).inorder, rfl, by simp, lt_right_of_lt h hs, ?_, ?_⟩
    · rw [inorder_closeLeft]; rfl
    · rw [inorder_closeRight]
  | case3 e tr l r h xl x xr hx ih =>
    have hl := (sorted_node.mp hs).1
    obtain ⟨pre, post, hsplit, hpre, hpost, h1, h2⟩ := ih (sorted_node.mp hl).1
    refine ⟨pre, post ++ (x :: xr.inorder) ++ (e :: tr.inorder), ?_, hpre, ?_, h1, ?_⟩
    · simp [inorder, hsplit]
    · intro y hy
      simp only [append_assoc, mem_append] at hy
      rcases hy with hy | hy | hy
      · exact hpost y hy
      · exact lt_right_of_lt hx hl y hy
      · exact lt_right_of_lt h hs y hy
    · simp [h2, rightEvents, inorder]
  | case4 e tr l r h xl x xr hx ih =>
    obtain ⟨pre, post, hsplit, hpre, hpost, h1, h2⟩ := ih (sorted_node.mp hs).1
    refine ⟨pre, post ++ (e :: tr.inorder), ?_, hpre, ?_, h1, ?_⟩
    · rw [inorder, hsplit, append_assoc]
    · intro y hy
      rcases mem_append.mp hy with hy | hy
      · exact hpost y hy
      · exact lt_right_of_lt h hs y hy
    · simp [h2, rightEvents]
  | case5 tl e l r h =>
    refine ⟨(node tl e leaf).inorder, [], by simp, left_le_of_le (not_lt.mp h) hs, by simp,
      ?_, ?_⟩
    · rw [inorder_closeLeft]
    · rw [inorder_closeRight]; rfl
  | case6 tl e l r h xl x xr hx ih =>
    have hr := (sorted_node.mp hs).2.1
    obtain ⟨pre, post, hsplit, hpre, hpost, h1, h2⟩ := ih (sorted_node.mp hr).2.1
    refine ⟨(tl.inorder ++ [e]) ++ (xl.inorder ++ [x]) ++ pre, post, ?_, ?_, hpost, ?_, h2⟩
    · simp [inorder, hsplit]
    · intro y hy
      simp only [mem_append] at hy
      rcases hy with (hy | hy) | hy
      · exact left_le_of_le (not_lt.mp h) hs y (mem_append.mpr hy)
      · exact left_le_of_le hx hr y (mem_append.mpr hy)
      · exact hpre y hy
    · simp [h1, leftEvents, inorder]
  | case7 tl e l r h xl x xr hx ih =>
    obtain ⟨pre, post, hsplit, hpre, hpost, h1, h2⟩ := ih (sorted_node.mp hs).2.1
    refine ⟨(tl.inorder ++ [e]) ++ pre, post, ?_, ?_, hpost, ?_, h2⟩
    · rw [inorder, hsplit]; simp
    · intro y hy
      rcases mem_append.mp hy with hy | hy
      · exact left_le_of_le (not_lt.mp h) hs y hy
      · exact hpre y hy
    · simp [h1, leftEvents]

theorem inorder_dequeLoop (t : EventTree) (ht : t ≠ leaf) :
    ∃ e, (dequeLoop t).2 = some e ∧ t.inorder = e :: (dequeLoop t).1.inorder := by
  fun_induction dequeLoop t with
  | case1 => exact absurd rfl ht
  | case2 e r => exact ⟨e, rfl, rfl⟩
  | case3 ll llr e r => exact ⟨ll, rfl, by simp [inorder]⟩
  | case4 a b c ll llr e r rest ih =>
    obtain ⟨x, hx, hin⟩ := ih (by simp)
    refine ⟨x, hx, ?_⟩
    show ((node a b c).inorder ++ ll :: llr.inorder) ++ e :: r.inorder
      = x :: (rest.1.inorder ++ ll :: (llr.inorder ++ e :: r.inorder))
    rw [hin]
    simp [rest]

theorem inorder_popLeftmost (t : EventTree) (ht : t ≠ leaf) :
    ∃ e, (popLeftmost t).2 = some e ∧ t.inorder = e :: (popLeftmost t).1.inorder := by
  fun_induction popLeftmost t with
  | case1 => exact absurd rfl ht
  | case2 e r => exact ⟨e, rfl, rfl⟩
  | case3 a b c e r rest ih =>
    obtain ⟨x, hx, hin⟩ := ih (by simp)
    refine ⟨x, hx, ?_⟩
    rw [inorder, hin]
    rfl

theorem inorder_join (l r : EventTree) : (join l r).inorder = l.inorder ++ r.inorder := by
  cases r with
  | leaf => simp [join, inorder]
  | node rl p pr =>
    cases l with
    | leaf => simp [join, inorder]
    | node ll x lr =>
      cases rl with
      | leaf => simp [join, inorder]
      | node a b c =>
        obtain ⟨q, hq, hin⟩ := inorder_popLeftmost (node (node a b c) p pr) (by simp)
        have hpop : popLeftmost (node (node a b c) p pr)
            = ((popLeftmost (node (node a b c) p pr)).1, some q) := Prod.ext rfl hq
        rw [join, hpop, hin]
        · rfl
        · simp
        · simp
        · simp

end EventTree

/-- The order of the traversal: by time, then by uid. -/
def Before (a b : Event) : Prop := a.time < b.time ∨ (a.time = b.time ∧ a.uid < b.uid)

instance (a b : Event) : Decidable (Before a b) := by unfold Before; infer_instance

theorem Before.asymm {a b : Event} (h : Before a b) : ¬ Before b a := by
  rintro (h' | ⟨h', hu'⟩)
  · rcases h with h | ⟨h, _⟩
    · exact lt_asymm h h'
    · exact absurd h' (by rw [h]; exact lt_irrefl _)
  · rcases h with h | ⟨_, hu⟩
    · exact absurd h (by rw [h']; exact lt_irrefl _)
    · omega

theorem Before.time_le {a b : Event} (h : Before a b) : a.time ≤ b.time := by
  rcases h with h | ⟨h, _⟩
  · exact h.le
  · exact h.le

/-- **Cancelling a queued event finds it.** In a tree whose traversal is ordered by time and uid
the search reaches `e`, and the tree left holds the other events in their order. -/
theorem EventTree.cancel_inorder {t : EventTree} {e : Event}
    (ho : t.inorder.Pairwise Before) (hd : Distinct t.inorder) (he : e ∈ t.inorder) :
    ∃ t', t.cancel e = some t' ∧ t'.inorder = remove e t.inorder := by
  induction t with
  | leaf => cases he
  | node l x r ihl ihr =>
    obtain ⟨hol, hor, hlr⟩ := pairwise_append.mp ho
    obtain ⟨hxr, hor'⟩ := pairwise_cons.mp hor
    have hdl : Distinct l.inorder := hd.sublist ((sublist_append_left _ _).map _)
    have hdr : Distinct r.inorder :=
      hd.sublist (((sublist_cons_self x _).trans (sublist_append_right _ _)).map _)
    have hne : ∀ {y z : Event}, y ∈ l.inorder ++ x :: r.inorder →
        z ∈ l.inorder ++ x :: r.inorder → y ≠ z → y.id ≠ z.id :=
      fun hy hz hyz hid => hyz (hd.eq_of_id hy hz hid)
    have hsplit : remove e (l.inorder ++ x :: r.inorder)
        = remove e l.inorder ++ remove e (x :: r.inorder) := by simp [remove]
    by_cases hid : x.id = e.id
    · have hxe : x = e := hd.eq_of_id (by simp [inorder]) he hid
      subst hxe
      refine ⟨join l r, by rw [cancel, if_pos rfl], ?_⟩
      have hl : remove x l.inorder = l.inorder := by
        refine remove_eq_self (fun y hy => hne (by simp [hy]) (by simp) ?_)
        rintro rfl
        exact (hlr y hy y (by simp)).asymm (hlr y hy y (by simp))
      have hr : remove x (x :: r.inorder) = r.inorder :=
        remove_cons_self (hd.sublist ((sublist_append_right _ _).map _))
      rw [inorder_join, inorder, hsplit, hl, hr]
    · have hx : remove e (x :: r.inorder) = x :: remove e r.inorder := by simp [remove, hid]
      rcases mem_append.mp he with hel | her
      · -- `e` is in the left subtree, so it is before `x` and the search turns left
        have hturn : ¬ (x.time < e.time ∨ (e.time = x.time ∧ x.uid < e.uid)) := by
          intro h
          refine (hlr e hel x (by simp)).asymm ?_
          rcases h with h | ⟨h, hu⟩
          · exact Or.inl h
          · exact Or.inr ⟨h.symm, hu⟩
        obtain ⟨l', hl', hin⟩ := ihl hol hdl hel
        refine ⟨node l' x r, by rw [cancel, if_neg hid, if_neg hturn, hl']; rfl, ?_⟩
        have hr : remove e r.inorder = r.inorder := by
          refine remove_eq_self (fun y hy => hne (by simp [hy]) (by simp [hel]) ?_)
          rintro rfl
          exact (hlr y hel y (by simp [hy])).asymm (hlr y hel y (by simp [hy]))
        rw [inorder, inorder, hsplit, hin, hx, hr]
      · have her' : e ∈ r.inorder := by
          rcases mem_cons.mp her with rfl | h
          · exact absurd rfl hid
          · exact h
        have hturn : x.time < e.time ∨ (e.time = x.time ∧ x.uid < e.uid) := by
          rcases hxr e her' with h | ⟨h, hu⟩
          · exact Or.inl h
          · exact Or.inr ⟨h.symm, hu⟩
        obtain ⟨r', hr', hin⟩ := ihr hor' hdr her'
        refine ⟨node l x r', by rw [cancel, if_neg hid, if_pos hturn, hr']; rfl, ?_⟩
        have hl : remove e l.inorder = l.inorder := by
          refine remove_eq_self (fun y hy => hne (by simp [hy]) (by simp [her']) ?_)
          rintro rfl
          exact (hlr y hy y (by simp [her'])).asymm (hlr y hy y (by simp [her']))
        rw [inorder, inorder, hsplit, hin, hx, hl]

/-! ## Every reachable state -/

namespace SplayScheduler

/-- The queued events, as the tree lists them. -/
def queue (s : SplayScheduler) : List Event := s.root.inorder

/-- The states reached by `insert`, `deque` and `cancel`, with the largest uid handed out so far.
`Scheduler::schedule` gives each event it inserts a larger uid than all before (the first is 1)
and refuses an event that is still queued; `cancel` is called on queued events, and returns at
once for an event whose uid is not positive. -/
inductive Reachable : SplayScheduler → Int → Prop where
  | init : Reachable init 0
  | insert {s : SplayScheduler} {u : Int} (e : Event) :
      Reachable s u → u < e.uid → (∀ x ∈ s.queue, x.id ≠ e.id) → Reachable (s.insert e) e.uid
  | deque {s : SplayScheduler} {u : Int} : Reachable s u → Reachable s.deque.1 u
  | cancel {s s' : SplayScheduler} {u : Int} (e : Event) :
      Reachable s u → (0 < e.uid → e ∈ s.queue) → s.cancel e = some s' → Reachable s' u

structure Inv (s : SplayScheduler) (u : Int) : Prop where
  ordered : s.queue.Pairwise Before
  distinct : Distinct s.queue
  uids : ∀ e ∈ s.queue, 0 < e.uid ∧ e.uid ≤ u
  nonneg : 0 ≤ u
  qsize : s.qsize = s.queue.length

theorem sorted_of_ordered {q : List Event} (h : q.Pairwise Before) : Sorted Event.time q :=
  h.imp Before.time_le

theorem queue_insert (s : SplayScheduler) (e : Event) (hs : Sorted Event.time s.queue) :
    (s.insert e).queue = ListScheduler.insert s.queue e := by
  rw [ListScheduler.insert_eq_insertLast]
  obtain ⟨root, n⟩ := s
  cases root with
  | leaf => rfl
  | node l x r =>
    obtain ⟨pre, post, hsplit, hpre, hpost, h1, h2⟩ :=
      EventTree.splayLoop_splits e.time (.node l x r) [] [] hs
    show (EventTree.node _ e _).inorder = insertLast Event.time e (EventTree.node l x r).inorder
    rw [hsplit, insertLast_append e hpre hpost, EventTree.inorder, h1, h2]
    simp [EventTree.leftEvents, EventTree.rightEvents]

theorem qsize_insert (s : SplayScheduler) (e : Event) : (s.insert e).qsize = s.qsize + 1 := by
  obtain ⟨root, n⟩ := s
  cases root <;> rfl

theorem deque_spec (s : SplayScheduler) :
    s.deque.2 = s.queue.head? ∧ s.deque.1.queue = s.queue.tail ∧
      s.deque.1.qsize = s.qsize - (if s.queue = [] then 0 else 1) := by
  obtain ⟨root, n⟩ := s
  cases root with
  | leaf => simp [deque, queue, EventTree.inorder]
  | node l x r =>
    cases l with
    | leaf => simp [deque, queue, EventTree.inorder]
    | node a b c =>
      obtain ⟨e, he, hin⟩ := EventTree.inorder_dequeLoop (.node a b c) (by simp)
      have hq : (EventTree.node (.node a b c) x r).inorder
          = e :: ((EventTree.dequeLoop (.node a b c)).1.inorder ++ x :: r.inorder) := by
        rw [EventTree.inorder, hin]; rfl
      refine ⟨?_, ?_, ?_⟩
      · show (EventTree.dequeLoop (.node a b c)).2 = (EventTree.node (.node a b c) x r).inorder.head?
        rw [hq, he]; rfl
      · show (EventTree.node (EventTree.dequeLoop (.node a b c)).1 x r).inorder
          = (EventTree.node (.node a b c) x r).inorder.tail
        rw [hq]; rfl
      · show n - 1 = n - (if (EventTree.node (.node a b c) x r).inorder = [] then 0 else 1)
        rw [hq]; rfl

theorem cancel_spec {s : SplayScheduler} {u : Int} (h : Inv s u) {e : Event} (he : e ∈ s.queue) :
    ∃ s', s.cancel e = some s' ∧ s'.queue = remove e s.queue ∧ s'.qsize = s.qsize - 1 := by
  obtain ⟨t', ht, hin⟩ := EventTree.cancel_inorder h.ordered h.distinct he
  have hu : ¬ e.uid ≤ 0 := by have := (h.uids e he).1; omega
  exact ⟨⟨t', s.qsize - 1⟩, by rw [cancel, if_neg hu, ht]; rfl, hin, rfl⟩

theorem length_remove {q : List Event} (hd : Distinct q) {e : Event} (he : e ∈ q) :
    ((remove e q).length : Int) = q.length - 1 := by
  obtain ⟨a, b, rfl⟩ := append_of_mem he
  rw [remove_append_cons hd]
  simp
  omega

theorem ordered_insert {q : List Event} {e : Event} (ho : q.Pairwise Before)
    (hu : ∀ x ∈ q, x.uid < e.uid) : (ListScheduler.insert q e).Pairwise Before := by
  induction q with
  | nil => simp [ListScheduler.insert]
  | cons p q ih =>
    obtain ⟨hp, ho'⟩ := pairwise_cons.mp ho
    by_cases ht : e.time < p.time
    · rw [ListScheduler.insert, if_pos ht]
      refine pairwise_cons.mpr ⟨fun x hx => Or.inl ?_, ho⟩
      rcases mem_cons.mp hx with rfl | hx
      · exact ht
      · exact ht.trans_le (hp x hx).time_le
    · rw [ListScheduler.insert, if_neg ht]
      refine pairwise_cons.mpr ⟨fun x hx => ?_, ih ho' (fun x hx => hu x (by simp [hx]))⟩
      rw [ListScheduler.insert_eq_insertLast] at hx
      rcases mem_insertLast.mp hx with rfl | hx
      · rcases lt_or_eq_of_le (not_lt.mp ht) with h | h
        · exact Or.inl h
        · exact Or.inr ⟨h, hu p (by simp)⟩
      · exact hp x hx

theorem inv_insert {s : SplayScheduler} {u : Int} (h : Inv s u) {e : Event} (hu : u < e.uid)
    (hid : ∀ x ∈ s.queue, x.id ≠ e.id) : Inv (s.insert e) e.uid := by
  have hq := queue_insert s e (sorted_of_ordered h.ordered)
  have hmem : ∀ x, x ∈ (s.insert e).queue ↔ x = e ∨ x ∈ s.queue := by
    intro x
    rw [hq, ListScheduler.insert_eq_insertLast, mem_insertLast]
  constructor
  · rw [hq]
    exact ordered_insert h.ordered (fun x hx => by have := (h.uids x hx).2; omega)
  · rw [hq]; exact ListScheduler.distinct_insert h.distinct hid
  · intro x hx
    have h0 := h.nonneg
    rcases (hmem x).mp hx with rfl | hx
    · omega
    · have := h.uids x hx; omega
  · have := h.nonneg; omega
  · have hl : (ListScheduler.insert s.queue e).length = s.queue.length + 1 := by
      rw [ListScheduler.insert_eq_insertLast]
      simpa using ((agree_insertLast e (sorted_of_ordered h.ordered)).perm).length_eq
    rw [qsize_insert, hq, hl, h.qsize]
    push_cast
    ring

theorem inv_deque {s : SplayScheduler} {u : Int} (h : Inv s u) : Inv s.deque.1 u := by
  obtain ⟨-, hq, hn⟩ := deque_spec s
  have hsub : s.queue.tail.Sublist s.queue := tail_sublist _
  constructor
  · rw [hq]; exact h.ordered.sublist hsub
  · rw [hq]; exact h.distinct.sublist (hsub.map _)
  · intro x hx
    rw [hq] at hx
    exact h.uids x (hsub.subset hx)
  · exact h.nonneg
  · rw [hn, hq, h.qsize, length_tail]
    cases hs : s.queue with
    | nil => simp
    | cons a q => simp

theorem inv_cancel {s s' : SplayScheduler} {u : Int} (h : Inv s u) {e : Event}
    (he : 0 < e.uid → e ∈ s.queue) (hc : s.cancel e = some s') : Inv s' u := by
  by_cases hu : e.uid ≤ 0
  · rw [cancel, if_pos hu] at hc
    exact Option.some.inj hc ▸ h
  · have hmem := he (by omega)
    obtain ⟨s'', hc', hq, hn⟩ := cancel_spec h hmem
    obtain rfl : s'' = s' := Option.some.inj (hc'.symm.trans hc)
    have hsub : (remove e s.queue).Sublist s.queue := filter_sublist
    constructor
    · rw [hq]; exact h.ordered.sublist hsub
    · rw [hq]; exact h.distinct.remove e
    · intro x hx
      rw [hq] at hx
      exact h.uids x (hsub.subset hx)
    · exact h.nonneg
    · rw [hn, hq, length_remove h.distinct hmem, h.qsize]

/-- By induction on the calls. -/
theorem Reachable.inv {s : SplayScheduler} {u : Int} (r : Reachable s u) : Inv s u := by
  induction r with
  | init =>
    refine ⟨List.Pairwise.nil, nodup_nil, ?_, le_refl _, rfl⟩
    intro e he
    cases he
  | insert e _ hu hid ih => exact inv_insert ih hu hid
  | deque _ ih => exact inv_deque ih
  | cancel e _ he hc ih => exact inv_cancel ih he hc

/-- **The splay tree is a stable priority queue with a correct cancel.** In every reachable state
the traversal is ordered by time and uid and `qsize_` counts the nodes; `deque` removes and returns
the first event; `cancel` of a queued event finds it and removes exactly that event; and `insert`
adds the new event without reordering the others. -/
theorem splay_stable_queue {s : SplayScheduler} {u : Int} (r : Reachable s u) :
    s.queue.Pairwise Before ∧ s.qsize = s.queue.length ∧
    (s.deque.2 = s.queue.head? ∧ s.deque.1.queue = s.queue.tail) ∧
    (∀ e ∈ s.queue, ∃ s', s.cancel e = some s' ∧
      ∃ before after, s.queue = before ++ e :: after ∧ s'.queue = before ++ after) ∧
    (∀ e, ∃ before after, s.queue = before ++ after ∧
      (s.insert e).queue = before ++ e :: after) := by
  have h := r.inv
  have hsort := sorted_of_ordered h.ordered
  obtain ⟨hout, hrest, -⟩ := deque_spec s
  refine ⟨h.ordered, h.qsize, ⟨hout, hrest⟩, ?_, ?_⟩
  · intro e he
    obtain ⟨s', hc, hq, -⟩ := cancel_spec h he
    obtain ⟨before, after, hsplit⟩ := append_of_mem he
    refine ⟨s', hc, before, after, hsplit, ?_⟩
    rw [hq, hsplit, remove_append_cons (hsplit ▸ h.distinct)]
  · intro e
    rw [queue_insert s e hsort, ListScheduler.insert_eq_insertLast]
    exact exists_insertLast e s.queue

/-- Two events of one time and a later one, inserted out of order. -/
theorem splay_stable_queue_three_events :
    let s := ((init.insert ⟨1, 2, 1⟩).insert ⟨2, 1, 2⟩).insert ⟨3, 1, 3⟩
    s.queue = [⟨2, 1, 2⟩, ⟨3, 1, 3⟩, ⟨1, 2, 1⟩] ∧ s.qsize = s.queue.length ∧
      s.deque.2 = some ⟨2, 1, 2⟩ := by
  have r1 : Reachable (init.insert ⟨1, 2, 1⟩) 1 :=
    Reachable.init.insert ⟨1, 2, 1⟩ (by decide) (by decide)
  have r2 := r1.insert ⟨2, 1, 2⟩ (by decide) (by decide)
  have r3 := r2.insert ⟨3, 1, 3⟩ (by decide) (by decide)
  have h := splay_stable_queue r3
  exact ⟨by decide, h.2.1, h.2.2.1.1.trans (by decide)⟩

end SplayScheduler
end NetSim
