import NetSim.Dccp.AckVectorSpec

/-! # Altering and removing packets

Altering one packet splits its byte into two or three (`alteredItems`), and the cells between the
head and the byte, or the byte itself, move to make room (`replace_spec`). Removing packets cuts the
list of bytes behind a cell, or within it (`removePackets_spec`).
-/

namespace NetSim.DccpAckVector

open Function List

variable {v v' : DccpAckVector} {bs l r items : List ℕ} {b s n pos seqStart seqEnd : ℕ}
  {st : PacketState}

/-! ## Moving cells -/

/-- The loop moves the cells of `l` by `more` positions, and leaves those behind alone. -/
theorem moveLoop_spec {more fuel i : ℕ} {vector : ℕ → ℕ} {p : List ℕ}
    (hp : Ring.Holds n vector i p) (hl : Ring.Holds n vector (i + p.length + more) l)
    (hr : Ring.Holds n vector (i + p.length + more + l.length + 1) r)
    (hlen : p.length + more + l.length + 1 + r.length ≤ n) (hfuel : l.length ≤ fuel) :
    Ring.Holds n (moveLoop n ((i + p.length + more + l.length) % n) fuel
        ((i + p.length + more) % n) ((i + p.length) % n) vector) i (p ++ l) ∧
      Ring.Holds n (moveLoop n ((i + p.length + more + l.length) % n) fuel
        ((i + p.length + more) % n) ((i + p.length) % n) vector)
        (i + p.length + more + l.length + 1) r := by
  induction l generalizing fuel vector p with
  | nil =>
    rw [length_nil, Nat.add_zero] at hr ⊢
    have hstop : moveLoop n ((i + p.length + more) % n) fuel ((i + p.length + more) % n)
        ((i + p.length) % n) vector = vector := by
      cases fuel with
      | zero => rfl
      | succ fuel => rw [moveLoop, if_pos rfl]
    rw [hstop, append_nil]
    exact ⟨hp, hr⟩
  | cons a l ih =>
    rw [length_cons] at hr hlen hfuel ⊢
    cases fuel with
    | zero => omega
    | succ fuel =>
      obtain ⟨ha, hl⟩ := hl
      have hne : (i + p.length + more) % n ≠ (i + p.length + more + (l.length + 1)) % n :=
        Ring.mod_ne (by omega) (by omega)
      rw [moveLoop, if_neg hne, ha, Nat.mod_add_mod, Nat.mod_add_mod]
      -- the written cell is the one before the list, once around the ring
      have hmod : (i + p.length) % n = (i + p.length + n) % n := by rw [Nat.add_mod_right]
      have hlen' : (p ++ [a]).length = p.length + 1 := by simp
      have hp' : Ring.Holds n (update vector ((i + p.length) % n) a) i (p ++ [a]) :=
        (hp.update le_rfl (by omega) a).concat (update_self _ _ _)
      have hl' : Ring.Holds n (update vector ((i + p.length) % n) a)
          (i + (p ++ [a]).length + more) l := by
        rw [hlen', show i + (p.length + 1) + more = i + p.length + more + 1 by omega, hmod]
        exact hl.update (by omega) (by omega) a
      have hr' : Ring.Holds n (update vector ((i + p.length) % n) a)
          (i + (p ++ [a]).length + more + l.length + 1) r := by
        rw [hlen', show i + (p.length + 1) + more + l.length + 1 =
          i + p.length + more + (l.length + 1) + 1 by omega, hmod]
        exact hr.update (by omega) (by omega) a
      have h := @ih fuel _ _ hp' hl' hr' (by omega) (by omega)
      rw [hlen', show i + (p.length + 1) + more = i + p.length + more + 1 by omega,
        show i + (p.length + 1) = i + p.length + 1 by omega,
        show i + p.length + more + 1 + l.length = i + p.length + more + (l.length + 1) by omega,
        show p ++ [a] ++ l = p ++ a :: l by simp] at h
      exact h

/-! ## Replacing a cell -/

theorem Shows.pos_eq_tail (h : Shows v (l ++ b :: r)) :
    (v.head + l.length) % v.maxSize = v.tail ↔ r = [] := by
  have hlen := h.le
  rw [length_append, length_cons] at hlen
  rw [h.tail, length_append, length_cons,
    show v.head + (l.length + (r.length + 1)) - 1 = v.head + l.length + r.length by omega]
  constructor
  · intro heq
    by_contra hne
    have := length_pos_of_ne_nil hne
    exact Ring.mod_ne (by omega) (by omega) heq
  · rintro rfl
    rfl

theorem Shows.pos_eq_head (h : Shows v (l ++ b :: r)) :
    (v.head + l.length) % v.maxSize = v.head ↔ l = [] := by
  have hlen := h.le
  rw [length_append, length_cons] at hlen
  constructor
  · intro heq
    by_contra hne
    have := length_pos_of_ne_nil hne
    rw [← Nat.mod_eq_of_lt h.headLt, Nat.mod_add_mod] at heq
    exact Ring.mod_ne (by omega) (by omega) heq.symm
  · rintro rfl
    exact Nat.mod_eq_of_lt h.headLt

theorem back_add {head more : ℕ} (hmore : more ≤ n) (k : ℕ) :
    ((head + n - more) % n + more + k) % n = (head + k) % n := by
  rw [Nat.add_assoc, Nat.mod_add_mod, show head + n - more + (more + k) = head + k + n by omega,
    Nat.add_mod_right]

theorem mod_back {head more : ℕ} (hmore : more ≤ n) (k : ℕ) :
    ((head + k) % n + n - more) % n = ((head + n - more) % n + k) % n := by
  rw [Nat.mod_add_mod, Nat.add_sub_assoc hmore, Nat.mod_add_mod]
  congr 1
  omega

/-- What has to be shown for a vector in which a cell is replaced by items that stand for as many
packets. -/
theorem Shows.replaced (h : Shows v (l ++ b :: r)) (hitems : items ≠ [])
    (hexp : (expand items).length = runlen b + 1)
    (hroom : l.length + items.length + r.length ≤ v.maxSize) (hsame : SameSeq v v')
    (hmax : v'.maxSize = v.maxSize) (hsize : v'.size = v.size + (items.length - 1))
    (hhead : v'.head < v.maxSize)
    (htail : v'.tail = (v'.head + (l.length + items.length + r.length) - 1) % v.maxSize)
    (hcells : Ring.Holds v.maxSize v'.vector v'.head (l ++ items ++ r)) :
    Shows v' (l ++ items ++ r) := by
  have hmore := length_pos_of_ne_nil hitems
  have hold := h.size
  have hspan := h.span
  have hlen : (l ++ items ++ r).length = l.length + items.length + r.length := by
    rw [length_append, length_append]
  rw [length_append, length_cons] at hold
  rw [expand_append, expand_cons, length_append, length_append, length_decode] at hspan
  refine ⟨by simp [hitems], hmax ▸ h.two, hmax ▸ h.maxLe, hmax ▸ hhead, hmax ▸ hcells, ?_, ?_, ?_, ?_,
    hsame.head ▸ h.seqLt⟩
  · omega
  · omega
  · rw [hlen, hmax]
    exact htail
  · rw [hsame.tail, hsame.head, expand_append, expand_append, length_append,
      length_append, hexp]
    omega

theorem replace_tail (h : Shows v (l ++ [b])) (hpos : pos = (v.head + l.length) % v.maxSize)
    (hitems : items ≠ []) (hexp : (expand items).length = runlen b + 1)
    (hroom : l.length + items.length ≤ v.maxSize) :
    Shows (v.replace pos items) (l ++ items ++ []) ∧ SameSeq v (v.replace pos items) := by
  have hmore := length_pos_of_ne_nil hitems
  have htail := h.tail
  rw [length_append, length_singleton] at htail
  rw [replace, if_pos (hpos.trans (h.pos_eq_tail.mpr rfl))]
  refine ⟨h.replaced hitems hexp hroom ⟨rfl, rfl, rfl⟩ rfl rfl h.headLt ?_ ?_, ⟨rfl, rfl, rfl⟩⟩
  · show (v.tail + (items.length - 1)) % v.maxSize =
      (v.head + (l.length + items.length + 0) - 1) % v.maxSize
    rw [htail, Nat.mod_add_mod]
    congr 1
    omega
  · rw [hpos]
    exact (Ring.holds_append.mp h.cells).1.store trivial hroom

theorem replace_front (h : Shows v (l ++ b :: r)) (hpos : pos = (v.head + l.length) % v.maxSize)
    (hr : r ≠ []) (hitems : items ≠ []) (hexp : (expand items).length = runlen b + 1)
    (hroom : l.length + items.length + r.length ≤ v.maxSize) :
    Shows (v.replace pos items) (l ++ items ++ r) ∧ SameSeq v (v.replace pos items) := by
  have hmore := length_pos_of_ne_nil hitems
  have hmore' : items.length - 1 ≤ v.maxSize := by omega
  have htail := h.tail
  rw [length_append, length_cons] at htail
  obtain ⟨hcl, -, hcr⟩ := Ring.holds_append.mp h.cells
  -- the old cells, seen from the new head
  set head' := (v.head + v.maxSize - (items.length - 1)) % v.maxSize with hhead'
  have hshift : ∀ k, (head' + (items.length - 1) + k) % v.maxSize = (v.head + k) % v.maxSize :=
    fun k => back_add hmore' k
  have hlt : head' < v.maxSize := Nat.mod_lt _ (by omega)
  have hcl' : Ring.Holds v.maxSize v.vector (head' + ([] : List ℕ).length + (items.length - 1)) l :=
    (Ring.holds_mod (hshift 0)).mpr hcl
  have hcr' : Ring.Holds v.maxSize v.vector (head' + l.length + items.length) r := by
    refine (Ring.holds_mod ?_).mp hcr
    rw [show head' + l.length + items.length = head' + (items.length - 1) + (l.length + 1) by omega,
      hshift, Nat.add_assoc]
  have htail' : v.tail = (head' + (l.length + items.length + r.length) - 1) % v.maxSize := by
    rw [htail, show head' + (l.length + items.length + r.length) - 1 =
      head' + (items.length - 1) + (l.length + r.length) by omega, hshift]
    congr 1
  have hnotTail : pos ≠ v.tail := fun heq => hr (h.pos_eq_tail.mp (hpos ▸ heq))
  rw [replace, if_neg hnotTail]
  by_cases hatHead : pos = v.head
  · have hnil : l = [] := h.pos_eq_head.mp (hpos ▸ hatHead)
    subst hnil
    rw [if_pos hatHead]
    refine ⟨h.replaced hitems hexp hroom ⟨rfl, rfl, rfl⟩ rfl rfl hlt htail' ?_, ⟨rfl, rfl, rfl⟩⟩
    have hstore := @Ring.Holds.store ℕ head' v.maxSize v.vector r [] items trivial hcr' hroom
    rw [length_nil, Nat.add_zero, Nat.mod_eq_of_lt hlt] at hstore
    exact hstore
  · rw [if_neg hatHead]
    refine ⟨h.replaced hitems hexp hroom ⟨rfl, rfl, rfl⟩ rfl rfl hlt htail' ?_, ⟨rfl, rfl, rfl⟩⟩
    have hend : head' + (items.length - 1) + l.length + 1 = head' + l.length + items.length := by
      omega
    have hsrc : (head' + (items.length - 1)) % v.maxSize = v.head :=
      (hshift 0).trans (Nat.mod_eq_of_lt h.headLt)
    have hmove := @moveLoop_spec l r v.maxSize (items.length - 1) v.maxSize head' v.vector []
      trivial hcl' (hend ▸ hcr') (by rw [length_nil]; omega) (by omega)
    simp only [length_nil, Nat.add_zero] at hmove
    rw [hsrc, hshift, ← hpos, Nat.mod_eq_of_lt hlt, hend] at hmove
    rw [hpos, mod_back hmore', ← hhead', ← hpos]
    exact hmove.1.store hmove.2 hroom

/-- One byte is replaced by bytes with the same total run length. -/
theorem replace_spec (h : Shows v (l ++ b :: r)) (hpos : pos = (v.head + l.length) % v.maxSize)
    (hitems : items ≠ []) (hexp : (expand items).length = runlen b + 1)
    (hroom : l.length + items.length + r.length ≤ v.maxSize) :
    Shows (v.replace pos items) (l ++ items ++ r) ∧ SameSeq v (v.replace pos items) := by
  cases r with
  | nil => exact replace_tail h hpos hitems hexp hroom
  | cons a r => exact replace_front h hpos (cons_ne_nil a r) hitems hexp hroom

/-! ## Altering a packet -/

theorem expand_alteredItems (hc : Cell v bs s pos seqStart seqEnd l b r) :
    expand (alteredItems b s seqStart seqEnd st) = (decode b).set (seqStart - s) st := by
  have hlt := runlen_lt b
  obtain ⟨hidx, hk⟩ := hc.index
  have hstop := hc.stop
  have hge := hc.ge
  rw [length_decode] at hk
  have hset : (decode b).set (seqStart - s) st =
      List.replicate (seqStart - s) (stateBits b) ++
        st :: List.replicate (runlen b - (seqStart - s)) (stateBits b) := by
    rw [set_eq_take_append_cons_drop, length_decode, if_pos hk, decode, take_replicate,
      drop_replicate, Nat.min_eq_left (by omega), Nat.add_sub_add_right]
  have hone : decode (item st 0) = [st] := decode_item st (by omega)
  rw [hset, alteredItems]
  split
  · next hzero =>
      rw [expand_cons, expand_nil, hone, show seqStart - s = 0 by omega, hzero]
      rfl
  · next hzero =>
      split
      · next hfirst =>
          rw [expand_cons, expand_cons, expand_nil, hone, decode_item _ (by omega),
            show seqStart - s = 0 by omega, Nat.sub_zero, Nat.sub_add_cancel (by omega)]
          simp
      · next hfirst =>
          split
          · next hlast =>
              rw [expand_cons, expand_cons, expand_nil, hone, decode_item _ (by omega),
                show seqStart - s = runlen b by omega, Nat.sub_self,
                Nat.sub_add_cancel (by omega)]
              rfl
          · next hlast =>
              rw [expand_cons, expand_cons, expand_cons, expand_nil, hone, decode_item _ (by omega),
                decode_item _ (by omega), show runlen b - 1 - (s - seqEnd) + 1 = seqStart - s by omega,
                show runlen b - 1 - (seqStart - s) + 1 = runlen b - (seqStart - s) by omega]
              simp

theorem length_alteredItems (b s seqStart seqEnd : ℕ) (st : PacketState) :
    0 < (alteredItems b s seqStart seqEnd st).length ∧
      (alteredItems b s seqStart seqEnd st).length ≤ 3 := by
  rw [alteredItems]
  split_ifs <;> simp

theorem Cell.expand_set (hc : Cell v bs s pos seqStart seqEnd l b r)
    (hitems : expand items = (decode b).set (seqStart - s) st) :
    expand (l ++ items ++ r) = (expand bs).set (v.seqHead - s) st := by
  obtain ⟨hidx, hk⟩ := hc.index
  rw [hc.split, expand_append, expand_append, expand_append, expand_cons, hitems, hidx,
    set_append_right _ _ (by omega), Nat.add_sub_cancel_left, set_append_left _ _ hk,
    append_assoc]

/-- The bytes after the packet that is `d` behind the newest is set to `st`. -/
def setCells (st : PacketState) : ℕ → List ℕ → List ℕ
  | _, [] => []
  | d, b :: bs =>
    if d ≤ runlen b then
      if stateBits b = st then b :: bs
      else alteredItems b (runlen b - d) (runlen b) 0 st ++ bs
    else b :: setCells st (d - (runlen b + 1)) bs

theorem setCells_append {d : ℕ} (hd : d ≤ runlen b) :
    setCells st ((expand l).length + d) (l ++ b :: r) =
      l ++ (if stateBits b = st then [b] else alteredItems b (runlen b - d) (runlen b) 0 st) ++
        r := by
  induction l with
  | nil =>
    rw [expand_nil, length_nil, Nat.zero_add, nil_append, nil_append, setCells,
      if_pos hd]
    split <;> rfl
  | cons a l ih =>
    rw [expand_cons, length_append, length_decode, cons_append, setCells,
      if_neg (by omega), show runlen a + 1 + (expand l).length + d - (runlen a + 1) =
        (expand l).length + d by omega, ih]
    rfl

theorem Cell.alteredItems_eq (hc : Cell v bs s pos seqStart seqEnd l b r) :
    alteredItems b (runlen b - (seqStart - s)) (runlen b) 0 st =
      alteredItems b s seqStart seqEnd st := by
  have hstop := hc.stop
  have hle := hc.le
  have hge := hc.ge
  rw [alteredItems, alteredItems]
  split
  · rfl
  · split
    · rw [if_pos (by omega)]
    · rw [if_neg (by omega : ¬ s = seqStart)]
      split
      · rw [if_pos (by omega)]
      · rw [if_neg (by omega : ¬ s = seqEnd),
          show runlen b - (seqStart - s) - 0 = s - seqEnd by omega,
          show runlen b - (runlen b - (seqStart - s)) = seqStart - s by omega]

theorem Cell.setCells_eq (hc : Cell v bs s pos seqStart seqEnd l b r) :
    setCells st (v.seqHead - s) bs =
      l ++ (if stateBits b = st then [b] else alteredItems b s seqStart seqEnd st) ++ r := by
  obtain ⟨hidx, hk⟩ := hc.index
  rw [length_decode] at hk
  rw [hidx, hc.split, setCells_append (by omega), hc.alteredItems_eq]

theorem overwrite_spec (h : Shows v bs) (hc : Cell v bs s pos seqStart seqEnd l b r)
    (hzero : runlen b = 0) :
    Shows { v with vector := update v.vector pos (item st 0) }
      (l ++ [item st 0] ++ r) := by
  have hitems : expand [item st 0] = (decode b).set (seqStart - s) st := by
    have := @expand_alteredItems v bs l r b s pos seqStart seqEnd st hc
    rw [alteredItems, if_pos hzero] at this
    exact this
  have hsplit := h
  rw [hc.split] at hsplit
  have hle := hsplit.le
  rw [length_append, length_cons] at hle
  have htail := hsplit.tail
  rw [length_append, length_cons] at htail
  obtain ⟨hcl, -, hcr⟩ := Ring.holds_append.mp hsplit.cells
  refine hsplit.replaced (by simp) ?_ ?_ ⟨rfl, rfl, rfl⟩ rfl rfl h.headLt ?_ ?_
  · rw [hitems, length_set, length_decode]
  · rw [length_singleton]
    omega
  · show v.tail = (v.head + (l.length + 1 + r.length) - 1) % v.maxSize
    rw [htail]
    congr 1
    omega
  · rw [hc.posEq]
    exact @Ring.Holds.store ℕ v.head v.maxSize v.vector r l [item st 0] hcl hcr
      (by rw [length_singleton]; omega)

/-- **Altering a packet**, byte by byte: only a ring at its maximum, without room for the new cells,
refuses it. -/
theorem alterState_cells {fuel : ℕ} (h : Shows v bs) (h1 : v.seqTail ≤ s) (h2 : s ≤ v.seqHead)
    (hfuel : v.growths ≤ fuel) :
    ((alterState s st fuel v).2 = true ∧
        Shows (alterState s st fuel v).1 (setCells st (v.seqHead - s) bs) ∧
        SameSeq v (alterState s st fuel v).1) ∨
      (dccpMaxAckvSize < (setCells st (v.seqHead - s) bs).length ∧
        (alterState s st fuel v).2 = false ∧ Kept v (alterState s st fuel v).1 bs) := by
  induction fuel generalizing v with
  | zero =>
    have := growths_pos h.maxLe
    omega
  | succ fuel ih =>
    obtain ⟨pos, seqStart, seqEnd, l, b, r, hfind, hc⟩ := findSeqNum_spec h h1 h2
    have hcells := @Cell.setCells_eq v bs l r b s pos seqStart seqEnd st hc
    rw [alterState, hfind]
    dsimp only
    rw [hc.byte]
    by_cases hsame : stateBits b = st
    · rw [if_pos hsame] at hcells ⊢
      rw [hcells, append_assoc, singleton_append, ← hc.split]
      exact Or.inl ⟨rfl, h, SameSeq.refl v⟩
    · rw [if_neg hsame] at hcells ⊢
      by_cases hzero : runlen b = 0
      · rw [if_pos hzero, hcells, alteredItems, if_pos hzero]
        exact Or.inl ⟨rfl, overwrite_spec h hc hzero, rfl, rfl, rfl⟩
      · rw [if_neg hzero]
        have hsize := h.size
        obtain ⟨hlen1, hlen2⟩ := length_alteredItems b s seqStart seqEnd st
        have hitems := @expand_alteredItems v bs l r b s pos seqStart seqEnd st hc
        have hlong : (setCells st (v.seqHead - s) bs).length =
            v.size + ((alteredItems b s seqStart seqEnd st).length - 1) := by
          rw [hcells, hsize, hc.split, length_append, length_append,
            length_append, length_cons]
          omega
        by_cases hfull : v.maxSize < v.size + ((alteredItems b s seqStart seqEnd st).length - 1)
        · rw [if_pos hfull]
          by_cases hmax : v.maxSize = dccpMaxAckvSize
          · rw [show v.doubleMaxSize = (v, false) by rw [doubleMaxSize, if_pos hmax],
              if_neg (by simp)]
            exact Or.inr ⟨by omega, rfl, h, SameSeq.refl v⟩
          · obtain ⟨htrue, hshows, hseq, hlt⟩ := h.double hmax
            rw [if_pos htrue]
            have hgrow : v.doubleMaxSize.1.growths ≤ fuel := by
              rw [growths] at hfuel ⊢
              omega
            have hgrown := ih hshows (hseq.tail ▸ h1) (hseq.head ▸ h2) hgrow
            rw [hseq.head] at hgrown
            rcases hgrown with ⟨ht, hs', hq⟩ | ⟨hlong', hf, hk⟩
            · exact Or.inl ⟨ht, hs', hseq.trans hq⟩
            · exact Or.inr ⟨hlong', hf, hk.double h hmax⟩
        · rw [if_neg hfull]
          have hsplit := h
          rw [hc.split] at hsplit hsize
          rw [length_append, length_cons] at hsize
          have hrep := replace_spec hsplit hc.posEq (ne_nil_of_length_pos hlen1)
            (by rw [hitems, length_set, length_decode]) (by omega)
          rw [hcells]
          exact Or.inl ⟨rfl, hrep⟩

theorem Shows.expand_setCells (h : Shows v bs) (h1 : v.seqTail ≤ s) (h2 : s ≤ v.seqHead) :
    expand (setCells st (v.seqHead - s) bs) = (expand bs).set (v.seqHead - s) st ∧
      bs.length ≤ (setCells st (v.seqHead - s) bs).length ∧
      (setCells st (v.seqHead - s) bs).length ≤ bs.length + 2 := by
  obtain ⟨pos, seqStart, seqEnd, l, b, r, -, hc⟩ := findSeqNum_spec h h1 h2
  have hlen : bs.length = l.length + (r.length + 1) := by
    rw [hc.split, length_append, length_cons]
  rw [hc.setCells_eq]
  by_cases hsame : stateBits b = st
  · rw [if_pos hsame, append_assoc, singleton_append, ← hc.split]
    refine ⟨?_, le_rfl, by omega⟩
    obtain ⟨hlt, heq⟩ := List.getElem?_eq_some_iff.mp hc.getElem?
    rw [← hsame, ← heq, set_getElem_self]
  · obtain ⟨hlen1, hlen2⟩ := length_alteredItems b s seqStart seqEnd st
    rw [if_neg hsame, length_append, length_append]
    exact ⟨hc.expand_set (expand_alteredItems hc), by omega, by omega⟩

def Altered (v v' : DccpAckVector) (bs : List ℕ) (s : ℕ) (st : PacketState) : Prop :=
  ∃ bs', Shows v' bs' ∧ SameSeq v v' ∧ expand bs' = (expand bs).set (v.seqHead - s) st

/-- **Altering a packet** sets its state, and only a ring at its maximum refuses it. -/
theorem alterState_spec {fuel : ℕ} (h : Shows v bs) (h1 : v.seqTail ≤ s) (h2 : s ≤ v.seqHead)
    (hfuel : v.growths ≤ fuel) :
    ((alterState s st fuel v).2 = true ∧ Altered v (alterState s st fuel v).1 bs s st) ∨
      (dccpMaxAckvSize < bs.length + 2 ∧ (alterState s st fuel v).2 = false ∧
        Kept v (alterState s st fuel v).1 bs) := by
  obtain ⟨hexp, -, hlen⟩ := @Shows.expand_setCells v bs s st h h1 h2
  rcases @alterState_cells v bs s st fuel h h1 h2 hfuel with ⟨ht, hs, hq⟩ | ⟨hlong, hf, hk⟩
  · exact Or.inl ⟨ht, _, hs, hq, hexp⟩
  · exact Or.inr ⟨by omega, hf, hk⟩

theorem alterState_none {fuel : ℕ} (h : ¬ (v.seqTail ≤ s ∧ s ≤ v.seqHead)) :
    alterState s st fuel v = (v, false) := by
  cases fuel with
  | zero => rfl
  | succ fuel => rw [alterState, findSeqNum_none h]

/-! ## Removing packets -/

theorem Shows.cut {bs' : List ℕ} (h : Shows v bs) (hne : bs' ≠ []) (hlen : bs'.length ≤ bs.length)
    (hmax : v'.maxSize = v.maxSize) (hhead : v'.head = v.head) (hseq : v'.seqHead = v.seqHead)
    (hcells : Ring.Holds v.maxSize v'.vector v.head bs') (hsize : v'.size = bs'.length)
    (htail : v'.tail = (v.head + bs'.length - 1) % v.maxSize)
    (hspan : v'.seqTail + (expand bs').length = v.seqHead + 1) : Shows v' bs' := by
  have hle := h.le
  refine ⟨hne, hmax ▸ h.two, hmax ▸ h.maxLe, ?_, ?_, hsize, ?_, ?_, ?_, ?_⟩
  · rw [hhead, hmax]
    exact h.headLt
  · rw [hhead, hmax]
    exact hcells
  · omega
  · rw [hhead, hmax]
    exact htail
  · omega
  · rw [hseq]
    exact h.seqLt

theorem mod_sub_head {head k : ℕ} (hhead : head < n) (hk : k < n) :
    ((head + k) % n + n - head) % n = k := by
  have h := @mod_back n head head hhead.le k
  rw [Nat.add_sub_cancel_left, Nat.mod_self, Nat.zero_add, Nat.mod_eq_of_lt hk] at h
  exact h

theorem decode_sub {k : ℕ} (hk : k ≤ runlen b) :
    decode (b - k) = (decode b).take (runlen b + 1 - k) := by
  have hdiv : (b - k) / 64 = b / 64 := by
    rw [runlen] at hk
    omega
  have hmod : runlen (b - k) = runlen b - k := by
    rw [runlen] at hk ⊢
    rw [runlen]
    omega
  rw [decode, decode, take_replicate, Nat.min_eq_left (by omega), hmod, stateBits, stateBits,
    hdiv, show runlen b - k + 1 = runlen b + 1 - k by omega]

/-- **Removing packets** keeps those that are newer than the given one. -/
theorem removePackets_spec (h : Shows v bs) (h1 : v.seqTail ≤ s) (h2 : s < v.seqHead) :
    ∃ bs', Shows (v.removePackets s) bs' ∧ expand bs' = (expand bs).take (v.seqHead - s) ∧
      (v.removePackets s).seqHead = v.seqHead ∧ (v.removePackets s).seqTail = s + 1 := by
  obtain ⟨pos, seqStart, seqEnd, l, b, r, hfind, hc⟩ := findSeqNum_spec h h1 h2.le
  have hsize := h.size
  have hseqLt := h.seqLt
  have hle := h.le
  have hstart := hc.start
  have hstop := hc.stop
  have hle' := hc.le
  have hge := hc.ge
  have hsplit := h
  rw [hc.split] at hsplit
  have hlen : bs.length = l.length + (r.length + 1) := by
    rw [hc.split, length_append, length_cons]
  have hcl := (Ring.holds_append.mp hsplit.cells).1
  have hu : u32 (s + 1) = s + 1 := by
    have := u32_eq (x := (s : ℤ) + 1) (by omega) (by omega)
    omega
  rw [removePackets, if_neg (by omega), if_neg (by omega), hfind]
  dsimp only
  by_cases hin : 0 < seqStart - seqEnd ∧ seqStart ≠ s
  · -- the cell is cut
    rw [if_pos hin, hc.byte]
    have hk : s - seqEnd + 1 ≤ runlen b := by omega
    have hexp : expand (l ++ [b - (s - seqEnd + 1)]) = (expand bs).take (v.seqHead - s) := by
      rw [hc.split, expand_append, expand_append, expand_cons, expand_cons, expand_nil,
        append_nil, decode_sub hk,
        show v.seqHead - s = (expand l).length + (runlen b + 1 - (s - seqEnd + 1)) by omega,
        take_length_add_append, take_append_of_le_length (by rw [length_decode]; omega)]
    refine ⟨l ++ [b - (s - seqEnd + 1)], h.cut (by simp) (by simp; omega) rfl rfl rfl ?_ ?_ ?_ ?_,
      hexp, rfl, hu⟩
    · rw [hc.posEq]
      have := @Ring.Holds.store ℕ v.head v.maxSize v.vector [] l [b - (s - seqEnd + 1)] hcl trivial
        (by rw [length_singleton, length_nil]; omega)
      rw [append_nil] at this
      exact this
    · rw [hc.posEq, mod_sub_head h.headLt (by omega)]
      simp
    · rw [hc.posEq, length_append, length_singleton]
      rfl
    · show u32 (s + 1) + _ = _
      have := h.span
      rw [hexp, length_take, hu, Nat.min_eq_left (by omega)]
      omega
  · -- the cell is dropped
    have hl : l ≠ [] := by
      rintro rfl
      rw [expand_nil, length_nil] at hstart
      omega
    have hlpos := length_pos_of_ne_nil hl
    have hnotHead : pos ≠ v.head := fun heq => hl (hsplit.pos_eq_head.mp (hc.posEq ▸ heq))
    rw [if_neg hin, if_neg hnotHead]
    have hprev : (pos + v.maxSize - 1) % v.maxSize = (v.head + (l.length - 1)) % v.maxSize := by
      rw [hc.posEq, Nat.add_sub_assoc (by omega), Nat.mod_add_mod,
        show v.head + l.length + (v.maxSize - 1) = v.head + (l.length - 1) + v.maxSize by omega,
        Nat.add_mod_right]
    have hexp : expand l = (expand bs).take (v.seqHead - s) := by
      rw [hc.split, expand_append, take_left' (by omega)]
    refine ⟨l, h.cut hl (by omega) rfl rfl rfl hcl ?_ ?_ ?_, hexp, rfl, hu⟩
    · show ((pos + v.maxSize - 1) % v.maxSize + v.maxSize - v.head) % v.maxSize + 1 = _
      rw [hprev, mod_sub_head h.headLt (by omega)]
      omega
    · show (pos + v.maxSize - 1) % v.maxSize = _
      rw [hprev]
      congr 1
      omega
    · show u32 (s + 1) + _ = _
      omega

theorem removePackets_old (h : s < v.seqTail) : v.removePackets s = v := by
  rw [removePackets, if_pos (Or.inr h)]

end NetSim.DccpAckVector
