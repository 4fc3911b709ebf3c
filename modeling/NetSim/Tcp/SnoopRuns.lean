import NetSim.Tcp.SnoopCache

/-! # Runs of the Snoop agent

The agent keeps its cache sound in every run in which it never makes room in a full cache
(`snoop_sorted_window`).
-/

namespace NetSim.Snoop

open Function List Ring

variable {s s' : Agent} {c l r : List Pkt} {p : Pkt} {n i j k fuel : ℕ} {seq ack thresh : ℤ} {now : ℚ}

/-! ## Acknowledgements -/

theorem Holds.leave {pkts : ℕ → Option Pkt} (hi : i < n) (hlen : (p :: c).length ≤ n)
    (h : Holds n pkts i (cells n (p :: c))) :
    Holds n (update pkts i none) ((i + 1) % n) (cells n c) := by
  rw [length_cons] at hlen
  have hset := h.set (le_of_eq (length_cells hlen)) (k := 0) (by rw [length_cells hlen]; omega) none
  rw [Nat.add_zero, Nat.mod_eq_of_lt hi, cells_cons, set_cons_zero,
    holds_rotate (by rw [length_cells (by omega)]; omega), ← cells_concat (by omega)] at hset
  exact (holds_mod (Nat.mod_mod _ _)).mpr hset

/-- What `snoop_cleanbufs_` changes when it frees the packets `l`. -/
def cleaned (s : Agent) (l : List Pkt) (pkts : ℕ → Option Pkt) : Agent :=
  { s with
    pkts := pkts
    freed := (l.map (·.id)).reverse ++ s.freed
    fstate := if l = [] then s.fstate else s.fstate &&& ~~~ snoopFull }

theorem cleanFrom_leave {sndTime : ℚ} (hslot : s.pkts i = some p) (hack : p.seqno ≤ ack) :
    Agent.cleanFrom ack (fuel + 1) i sndTime s =
      if (i + 1) % s.maxbufs ≠ s.bufhead then
        Agent.cleanFrom ack fuel ((i + 1) % s.maxbufs) p.sndTime
          (cleaned s [p] (update s.pkts i none))
      else some (cleaned s [p] (update s.pkts i none), (i + 1) % s.maxbufs, p.sndTime) := by
  rw [Agent.cleanFrom, hslot, Option.bind_some, if_pos hack, Agent.free, hslot]
  rfl

theorem cleaned_cleaned (pkts pkts' : ℕ → Option Pkt) :
    cleaned (cleaned s [p] pkts) l pkts' = cleaned s (p :: l) pkts' := by
  have hfreed : (l.map (·.id)).reverse ++ ([p.id] ++ s.freed) =
      ((p :: l).map (·.id)).reverse ++ s.freed := by simp
  cases l with
  | nil => rfl
  | cons q l =>
    unfold cleaned
    rw [if_neg (cons_ne_nil _ _), if_neg (cons_ne_nil _ _),
      if_neg (cons_ne_nil _ _), and_not_and_not, ← hfreed]
    rfl

theorem cleanFrom_spec {sndTime : ℚ} (hi : i < s.maxbufs) (hlen : c.length ≤ s.maxbufs)
    (hne : c ≠ []) (hring : Holds s.maxbufs s.pkts i (cells s.maxbufs c))
    (hout : ∀ k, s.maxbufs ≤ k → s.pkts k = none)
    (hhead : s.bufhead = (i + c.length) % s.maxbufs)
    (hsorted : c.Pairwise (fun p q => p.seqno < q.seqno)) (hfuel : c.length ≤ fuel) :
    ∃ l r pkts t, c = l ++ r ∧ (∀ p ∈ r, ack < p.seqno) ∧
      Agent.cleanFrom ack fuel i sndTime s =
        some (cleaned s l pkts, (i + l.length) % s.maxbufs, t) ∧
      Holds s.maxbufs pkts ((i + l.length) % s.maxbufs) (cells s.maxbufs r) ∧
      ∀ k, s.maxbufs ≤ k → pkts k = none := by
  induction c generalizing i s fuel sndTime with
  | nil => exact absurd rfl hne
  | cons p c ih =>
    have hslot : s.pkts i = some p := by
      have hfirst := hring.1
      rw [Nat.mod_eq_of_lt hi] at hfirst
      exact hfirst
    obtain ⟨m, rfl⟩ : ∃ m, fuel = m + 1 := ⟨fuel - 1, by rw [length_cons] at hfuel; omega⟩
    by_cases hack : p.seqno ≤ ack
    · -- the packet is freed, and the loop goes on unless it was the last one
      have hleave := Holds.leave hi hlen hring
      have hout' : ∀ k, s.maxbufs ≤ k → update s.pkts i none k = none := by
        intro k hk
        rw [update_of_ne (by omega)]
        exact hout k hk
      rw [cleanFrom_leave hslot hack]
      rw [length_cons] at hlen hhead hfuel
      have hlt : (i + 1) % s.maxbufs < s.maxbufs := Nat.mod_lt _ (by omega)
      have hhead' : s.bufhead = ((i + 1) % s.maxbufs + c.length) % s.maxbufs := by
        rw [hhead, Nat.mod_add_mod]
        congr 1
        omega
      have hnext : (i + 1) % s.maxbufs = s.bufhead ↔ c = [] := by
        rw [hhead', eq_comm, add_mod_eq hlt (by omega), ← length_eq_zero_iff]
        omega
      by_cases hc : c = []
      · rw [if_neg (not_not.mpr (hnext.mpr hc))]
        rw [hc] at hleave ⊢
        refine ⟨[p], [], _, p.sndTime, rfl, by simp, rfl, ?_, hout'⟩
        exact hleave
      · rw [if_pos (fun heq => hc (hnext.mp heq))]
        obtain ⟨l, r, pkts, t, heq, habove, hclean, hring', hout''⟩ :=
          @ih (cleaned s [p] (update s.pkts i none)) _ _ p.sndTime hlt
            (show c.length ≤ s.maxbufs by omega) hc hleave hout' hhead'
            (pairwise_cons.mp hsorted).2 (show c.length ≤ m by omega)
        have hend : ((i + 1) % s.maxbufs + l.length) % s.maxbufs =
            (i + (l.length + 1)) % s.maxbufs := by
          rw [Nat.mod_add_mod]
          congr 1
          omega
        refine ⟨p :: l, r, pkts, t, by rw [heq, cons_append], habove, ?_, ?_, hout''⟩
        · rw [hclean, cleaned_cleaned, length_cons]
          change some (_, ((i + 1) % s.maxbufs + l.length) % s.maxbufs, t) = _
          rw [hend]
        · rw [length_cons, ← hend]
          exact hring'
    · -- the first packet that stays
      rw [Agent.cleanFrom, hslot, Option.bind_some, if_neg hack]
      refine ⟨[], p :: c, s.pkts, sndTime, rfl, ?_, ?_, ?_, hout⟩
      · intro q hq
        rcases mem_cons.mp hq with rfl | hq
        · exact not_le.mp hack
        · exact (not_le.mp hack).trans ((pairwise_cons.mp hsorted).1 q hq)
      · rw [length_nil, Nat.add_zero, Nat.mod_eq_of_lt hi]
        rfl
      · rw [length_nil, Nat.add_zero, Nat.mod_eq_of_lt hi]
        exact hring

theorem Cache.raise (h : Cache s c) (hc : ∀ p ∈ c, ack < p.seqno) :
    Cache { s with lastAck := ack } c :=
  ⟨h.two, h.len, h.ring, h.outside, h.tail, h.head, h.sorted, h.seen, hc, h.full, h.notClosed,
    h.copies⟩

/-- The state of the cache after the loop of `snoop_cleanbufs_`. -/
def settle (s : Agent) (i : ℕ) : Agent :=
  if i ≠ s.buftail ∨ s.bufhead ≠ s.buftail then
    { s with fstate := s.fstate &&& ~~~ snoopFull, buftail := i }
  else s

theorem settle_eq (s : Agent) (i : ℕ) :
    settle s i = { s with
      fstate := if i ≠ s.buftail ∨ s.bufhead ≠ s.buftail then s.fstate &&& ~~~ snoopFull else s.fstate
      buftail := i } := by
  unfold settle
  split
  · rfl
  · rename_i h
    push Not at h
    rw [h.1]

theorem Cache.cleaned {pkts : ℕ → Option Pkt} (h : Cache s (l ++ r)) (hne : l ++ r ≠ [])
    (hi : i = (s.buftail + l.length) % s.maxbufs)
    (hring : Holds s.maxbufs pkts i (cells s.maxbufs r))
    (hout : ∀ k, s.maxbufs ≤ k → pkts k = none) : Cache (settle (cleaned s l pkts) i) r := by
  have htwo := h.two
  have hlen := h.len
  rw [length_append] at hlen
  have hstate : ∃ f, (settle (Snoop.cleaned s l pkts) i).fstate = f ∧
      (f = s.fstate &&& ~~~ snoopFull ∧ r.length < s.maxbufs ∨ f = s.fstate ∧ l = []) := by
    rw [settle_eq]
    refine ⟨_, rfl, ?_⟩
    unfold Snoop.cleaned
    dsimp only
    by_cases hl : l = []
    · rw [hl, length_nil, Nat.add_zero, Nat.mod_eq_of_lt h.tail] at hi
      split
      · rename_i hor
        have hmoved : s.bufhead ≠ s.buftail := hor.resolve_left (not_not.mpr hi)
        rw [h.head, Ne, add_mod_eq h.tail h.len, length_append] at hmoved
        exact .inl ⟨rfl, by omega⟩
      · exact .inr ⟨rfl, hl⟩
    · have hllen : 0 < l.length := length_pos_iff.mpr hl
      rw [if_neg hl, and_not_and_not, ite_self]
      exact .inl ⟨rfl, by omega⟩
  obtain ⟨f, hf, hstate⟩ := hstate
  rw [settle_eq] at hf ⊢
  refine ⟨h.two, (by omega : r.length ≤ s.maxbufs), hring, hout, ?_, ?_, ?_, ?_, ?_, ?_, ?_, ?_⟩
  · rw [hi]
    exact Nat.mod_lt _ (by omega)
  · change s.bufhead = (i + r.length) % s.maxbufs
    rw [h.head, hi, Nat.mod_add_mod, length_append]
    congr 1
    omega
  · exact (pairwise_append.mp h.sorted).2.1
  · exact fun p hp => h.seen p (mem_append_right _ hp)
  · exact fun p hp => h.above p (mem_append_right _ hp)
  · unfold Agent.has
    rw [hf]
    rcases hstate with ⟨rfl, hlt⟩ | ⟨rfl, rfl⟩
    · rw [and_not_and_self]
      exact iff_of_false (by simp) (ne_of_lt hlt)
    · exact h.full
  · rw [← h.notClosed]
    refine has_congr ?_
    rw [hf]
    rcases hstate with ⟨rfl, -⟩ | ⟨rfl, -⟩
    · exact and_not_and_other (by decide)
    · rfl
  · refine List.Perm.trans ?_ h.copies
    change (r.map (·.id) ++ ((l.map (·.id)).reverse ++ s.freed)).Perm _
    rw [map_append, ← append_assoc]
    refine List.Perm.append_right _ ?_
    exact ((reverse_perm _).append_left _).trans perm_append_comm

/-- The copies up to the acknowledgement are freed, and the rest of the cache stays. -/
theorem cleanbufs_spec (h : Cache s c) (ht : Timed s c) :
    ∃ s' t r, s.snoopCleanbufs ack = some (s', t) ∧ Cache { s' with lastAck := ack } r ∧
      Timed s' r ∧ Same s s' := by
  have hcancel := h.cancel
  have hsame := cancel_same s
  obtain ⟨hsched, htout⟩ := cancel_spec ht
  unfold Agent.snoopCleanbufs
  generalize s.cancel = u at hcancel hsame hsched htout
  dsimp only
  by_cases hc : c = []
  · rw [if_pos (hcancel.empty_iff.mpr hc)]
    rw [hc] at hcancel
    exact ⟨u, -1, [], rfl, hcancel.raise (by simp), Timed.none hsched htout, hsame⟩
  · rw [if_neg (fun he => hc (hcancel.empty_iff.mp he))]
    obtain ⟨l, r, pkts, t, rfl, habove, hclean, hring, hout⟩ :=
      @cleanFrom_spec _ _ _ u.maxbufs ack (-1) hcancel.tail hcancel.len hc hcancel.ring hcancel.outside hcancel.head hcancel.sorted hcancel.len
    rw [hclean, Option.bind_some]
    have hsettle := hcancel.cleaned hc rfl hring hout
    have heq := settle_eq (cleaned u l pkts) ((u.buftail + l.length) % u.maxbufs)
    have hsched' : (settle (cleaned u l pkts) ((u.buftail + l.length) % u.maxbufs)).scheduled = [] := by
      rw [heq]
      exact hsched
    have htout' :
        (settle (cleaned u l pkts) ((u.buftail + l.length) % u.maxbufs)).toutPending = none := by
      rw [heq]
      exact htout
    have hsame' : Same u (settle (cleaned u l pkts) ((u.buftail + l.length) % u.maxbufs)) := by
      rw [heq]
      exact ⟨rfl, rfl⟩
    obtain ⟨s', hs', hcache, htimed, hsame''⟩ := hsettle.start hsched' htout'
    refine ⟨s', t, r, ?_, hcache.raise habove, htimed,
      hsame''.1.trans (hsame'.1.trans hsame.1), hsame''.2.trans (hsame'.2.trans hsame.2)⟩
    unfold settle at hs'
    rw [hs']
    rfl

theorem Sound.congr (h : Sound s) (hmax : s'.maxbufs = s.maxbufs) (hpkts : s'.pkts = s.pkts)
    (htail : s'.buftail = s.buftail) (hhead : s'.bufhead = s.bufhead)
    (hseen : s.lastSeen ≤ s'.lastSeen) (hack : s'.lastAck = s.lastAck)
    (hfull : s'.has snoopFull = s.has snoopFull) (hclosed : s'.has snoopClosed = s.has snoopClosed)
    (hfreed : s'.freed = s.freed) (hcopies : s'.copies = s.copies)
    (hsched : s'.scheduled = s.scheduled) (htout : s'.toutPending = s.toutPending) : Sound s' := by
  obtain ⟨c, hcache, htimed⟩ := h
  refine ⟨c, hcache.congr hmax hpkts htail hhead hseen hack hfull hclosed hfreed hcopies, ?_, ?_⟩
  · rw [hsched, htout]
    exact htimed.scheduled
  · rw [htout]
    exact htimed.cached

/-- A duplicate acknowledgement retransmits at most the copy at the tail. -/
theorem dupack_spec (h : Cache s (p :: c)) (ht : Timed s (p :: c)) (sh : Pkt) :
    ∃ s' v, s.dupack now thresh sh = some (s', v) ∧ Sound s' ∧ Same s s' := by
  have hsound : Sound s := ⟨_, h, ht⟩
  unfold Agent.dupack
  split
  · split
    · exact ⟨s, _, rfl, hsound, rfl, rfl⟩
    split
    · exact ⟨s, _, rfl, hsound, rfl, rfl⟩
    split
    · exact rxmit_spec (h.congr rfl rfl rfl rfl le_rfl rfl rfl rfl rfl rfl) ⟨ht.scheduled, ht.cached⟩
    · exact ⟨_, _, rfl, hsound.congr rfl rfl rfl rfl le_rfl rfl rfl rfl rfl rfl rfl rfl, rfl, rfl⟩
  split
  · exact ⟨_, _, rfl, hsound.congr rfl rfl rfl rfl le_rfl rfl rfl rfl rfl rfl rfl rfl, rfl, rfl⟩
  split
  · split
    · exact rxmit_spec h ht
    · exact ⟨s, _, rfl, hsound, rfl, rfl⟩
  · exact ⟨s, _, rfl, hsound, rfl, rfl⟩

/-- New and duplicate acknowledgements keep the cache sound. -/
theorem ack_spec (h : Cache s c) (ht : Timed s c) :
    ∃ s' v, s.snoopAck now ack thresh = some (s', v) ∧ Sound s' ∧ Same s s' := by
  have hsound : Sound s := ⟨c, h, ht⟩
  unfold Agent.snoopAck
  split
  · exact ⟨s, _, rfl, hsound, rfl, rfl⟩
  split
  · cases hslot : s.pkts s.buftail with
    | none => exact ⟨s, _, rfl, hsound, rfl, rfl⟩
    | some sh =>
      dsimp only
      split
      · exact ⟨s, _, rfl, hsound, rfl, rfl⟩
      · rw [h.slot_tail] at hslot
        rw [eq_cons_of_mem_head? hslot] at h ht
        exact dupack_spec h ht sh
  · -- a new acknowledgement
    have hstate : ∀ m : BitVec 16, ~~~snoopNoack &&& m = m →
        Agent.has { s with fstate := s.fstate &&& ~~~ snoopNoack } m = s.has m :=
      fun m hm => has_congr (and_not_and_other hm)
    have hcache : Cache { s with fstate := s.fstate &&& ~~~ snoopNoack } c :=
      h.congr rfl rfl rfl rfl le_rfl rfl (hstate _ (by decide)) (hstate _ (by decide)) rfl rfl
    obtain ⟨s', t, r, hs', hcache', htimed', hsame⟩ :=
      @cleanbufs_spec _ _ ack hcache ⟨ht.scheduled, ht.cached⟩
    rw [hs', Option.map_some]
    exact ⟨_, _, rfl, ⟨r, hcache'.congr rfl rfl rfl rfl le_rfl rfl rfl rfl rfl rfl,
      htimed'.scheduled, htimed'.cached⟩, hsame⟩

/-! ## Data packets -/

def idsOf (pkts : ℕ → Option Pkt) (slots : List ℕ) : List ℕ :=
  slots.filterMap (fun k => (pkts k).map (·.id))

theorem resetFrom_eq (n i : ℕ) (s : Agent) :
    Agent.resetFrom n i s = { s with
      pkts := fun k => if i ≤ k ∧ k < i + n then none else s.pkts k
      freed := (idsOf s.pkts (List.range' i n)).reverse ++ s.freed } := by
  induction n generalizing i s with
  | zero =>
    have hpkts : (fun k => if i ≤ k ∧ k < i + 0 then none else s.pkts k) = s.pkts := by
      funext k
      rw [if_neg (by omega)]
    rw [hpkts]
    rfl
  | succ n ih =>
    -- the slots behind `i` do not see what happens to the slot `i`
    have hids : ∀ a, idsOf (update s.pkts i a) (List.range' (i + 1) n) =
        idsOf s.pkts (List.range' (i + 1) n) := by
      intro a
      refine filterMap_congr (fun k hk => ?_)
      rw [mem_range'_1] at hk
      rw [update_of_ne (by omega)]
    have hpkts : (fun k => if i ≤ k ∧ k < i + (n + 1) then none else s.pkts k) =
        fun k => if i + 1 ≤ k ∧ k < i + 1 + n then none
          else update s.pkts i none k := by
      funext k
      by_cases hk : k = i
      · rw [hk, if_pos (by omega), if_neg (by omega), update_self]
      · rw [update_of_ne hk]
        exact if_congr (by omega) rfl rfl
    rw [Agent.resetFrom, ih, hpkts, range'_succ]
    unfold Agent.free
    cases hslot : s.pkts i with
    | none =>
      have hfree : idsOf s.pkts (i :: List.range' (i + 1) n) =
          idsOf s.pkts (List.range' (i + 1) n) := by
        unfold idsOf
        rw [filterMap_cons, hslot]
        rfl
      rw [hfree, ← hslot, update_eq_self, hslot]
      rfl
    | some p =>
      have hfree : idsOf s.pkts (i :: List.range' (i + 1) n) =
          p.id :: idsOf s.pkts (List.range' (i + 1) n) := by
        unfold idsOf
        rw [filterMap_cons, hslot]
        rfl
      rw [hfree, reverse_cons, append_assoc, ← hids none]
      rfl

theorem Cache.idsOf_slots (h : Cache s c) (hmax : s.maxbufs ≤ snoopMaxwind) :
    (idsOf s.pkts (List.range snoopMaxwind)).Perm (c.map (·.id)) := by
  have hnone : ∀ k, s.maxbufs ≤ k → (s.pkts k).map (·.id) = none := by
    intro k hk
    rw [h.outside k hk]
    rfl
  have hring : idsOf s.pkts (List.range snoopMaxwind) = idsOf s.pkts (List.range s.maxbufs) := by
    obtain ⟨m, hm⟩ : ∃ m, snoopMaxwind = s.maxbufs + m := ⟨_, (Nat.add_sub_cancel' hmax).symm⟩
    unfold idsOf
    rw [hm, range_add, filterMap_append, filterMap_map]
    have hrest : (List.range m).filterMap ((fun k => (s.pkts k).map (·.id)) ∘ (s.maxbufs + ·)) = [] :=
      filterMap_eq_nil_iff.mpr (fun k _ => hnone _ (Nat.le_add_right _ k))
    rw [hrest, append_nil]
  have hcells : ((cells s.maxbufs c).filterMap (fun x => x.map (·.id))) = c.map (·.id) := by
    unfold cells
    rw [filterMap_append, filterMap_map]
    have hrest : (List.replicate (s.maxbufs - c.length) (none : Option Pkt)).filterMap
        (fun x => x.map (·.id)) = [] :=
      filterMap_eq_nil_iff.mpr (fun x hx => by rw [eq_of_mem_replicate hx]; rfl)
    rw [hrest, append_nil]
    change c.filterMap (some ∘ fun p => p.id) = _
    rw [filterMap_eq_map]
  have hperm := (h.ring.perm (length_cells h.len)).filterMap (fun x => x.map (·.id))
  rw [hcells, filterMap_map] at hperm
  rw [hring]
  exact hperm.symm

theorem has_zero {m : BitVec 16} (h : s.fstate = 0) : s.has m = false := by
  unfold Agent.has
  rw [h]
  simp

theorem reset_spec (h : Cache s c) (hmax : s.maxbufs ≤ snoopMaxwind) (ht : Timed s c) :
    Cache s.reset [] ∧ Timed s.reset [] ∧ Same s s.reset := by
  have hcancel := h.cancel
  have hsame := cancel_same s
  obtain ⟨hsched, htout⟩ := cancel_spec ht
  unfold Agent.reset
  rw [resetFrom_eq]
  have hmax' : s.cancel.maxbufs ≤ snoopMaxwind := hsame.1.symm ▸ hmax
  generalize s.cancel = u at hcancel hsame hsched htout hmax'
  dsimp only
  refine ⟨?_, Timed.none hsched htout, hsame⟩
  have htwo := hcancel.two
  have hempty : (fun k => if 0 ≤ k ∧ k < 0 + snoopMaxwind then none else u.pkts k) =
      fun _ => none := by
    funext k
    by_cases hk : k < snoopMaxwind
    · rw [if_pos ⟨Nat.zero_le _, by omega⟩]
    · rw [if_neg (by omega), hcancel.outside k (by omega)]
  rw [hempty]
  refine ⟨htwo, Nat.zero_le _, ?_, fun _ _ => rfl, by dsimp only; omega, ?_, List.Pairwise.nil, by simp, by simp, ?_,
    has_zero rfl, ?_⟩
  · refine holds_iff.mpr (fun k hk => ?_)
    unfold cells
    simp
  · rw [length_nil, Nat.add_zero, Nat.zero_mod]
  · rw [has_zero rfl, length_nil]
    exact iff_of_false Bool.false_ne_true (by dsimp only; omega)
  · refine List.Perm.trans ?_ hcancel.copies
    exact ((reverse_perm _).trans (hcancel.idsOf_slots hmax')).append_right _

theorem Hole.sound {t : Agent} (h : Hole t seq l r i) (ht : Timed s (l ++ r))
    (hsched : t.scheduled = s.scheduled) (htout : t.toutPending = s.toutPending) (hsame : Same s t) :
    (∃ c, Cache (t.save now seq i).1 c ∧ Timed (t.save now seq i).1 c) ∧
      Same s (t.save now seq i).1 := by
  obtain ⟨p, hcache, -, -, htout', hsched', hmax, hlru⟩ := @NetSim.Snoop.Hole.save _ _ _ _ _ now h
  refine ⟨⟨l ++ p :: r, hcache, ?_, ?_⟩, hmax.trans hsame.1, hlru.trans hsame.2⟩
  · rw [hsched', hsched, htout', htout]
    exact ht.scheduled
  · rw [htout', htout]
    intro e he
    have hmem := ht.cached e he
    rw [map_append, mem_append] at hmem ⊢
    rw [map_cons, mem_cons]
    exact hmem.imp_right .inr

/-- A packet goes to the head, to the tail or into the middle, or is there already. -/
theorem insert_spec (h : Cache s c) (ht : Timed s c)
    (hroom : s.lastAck < seq → s.has snoopFull = false) :
    ∃ r, s.snoopInsert now seq = some r ∧ (∃ c, Cache r.1 c ∧ Timed r.1 c) ∧ Same s r.1 := by
  unfold Agent.snoopInsert
  by_cases hack : seq ≤ s.lastAck
  · rw [if_pos hack]
    exact ⟨_, rfl, ⟨c, h, ht⟩, rfl, rfl⟩
  rw [not_le] at hack
  have hfull := hroom hack
  have hlen : c.length < s.maxbufs := by
    refine lt_of_le_of_ne h.len (fun heq => ?_)
    rw [h.full.mpr heq] at hfull
    cases hfull
  have hmake : s.makeRoom = some s := by
    unfold Agent.makeRoom
    rw [hfull]
    rfl
  have htc : Timed s (c ++ []) := by
    rw [append_nil]
    exact ht
  rw [if_neg (not_le.mpr hack), hmake, Option.bind_some, h.slot_tail]
  cases c with
  | nil => exact ⟨_, rfl, (h.atHead hlen hack (by simp)).sound htc rfl rfl ⟨rfl, rfl⟩⟩
  | cons p c =>
    dsimp only [head?_cons]
    by_cases hseen : s.lastSeen < seq
    · rw [if_pos hseen]
      have hhole := h.atHead hlen hack (fun q hq => lt_of_le_of_lt (h.seen q hq) hseen)
      exact ⟨_, rfl, hhole.sound htc rfl rfl ⟨rfl, rfl⟩⟩
    rw [if_neg hseen]
    by_cases hlt : seq < p.seqno
    · rw [if_pos hlt]
      have hbehind : ∀ q ∈ p :: c, seq < q.seqno := by
        intro q hq
        rcases mem_cons.mp hq with rfl | hq
        · exact hlt
        · exact hlt.trans ((pairwise_cons.mp h.sorted).1 q hq)
      exact ⟨_, rfl, (h.atTail hlen hack hbehind).sound ht rfl rfl ⟨rfl, rfl⟩⟩
    rw [if_neg hlt]
    have hsearch := @Cache.search _ [] _ (s.maxbufs + 1) seq h hlen (by simp) (by omega)
    rw [length_nil, Nat.add_zero s.buftail, Nat.mod_eq_of_lt h.tail] at hsearch
    obtain ⟨place, hplace, hcases⟩ := hsearch
    rw [hplace, Option.map_some]
    cases place with
    | cached i =>
      obtain ⟨l, q, r, heq, -, hi⟩ := hcases
      rw [nil_append] at heq
      rw [heq] at h ht
      refine ⟨_, rfl, ⟨_, h.mark hi rfl rfl, ht.scheduled, ?_⟩, rfl, rfl⟩
      have hids := ht.cached
      rw [map_append, map_cons] at hids ⊢
      exact hids
    | before i =>
      obtain ⟨l, q, r, heq, hl, hq, hi⟩ := hcases
      rw [nil_append] at heq
      rw [heq] at h ht hlen
      have hr : ∀ q' ∈ q :: r, seq < q'.seqno := by
        intro q' hq'
        rcases mem_cons.mp hq' with rfl | hq'
        · exact hq
        · exact hq.trans ((pairwise_cons.mp (pairwise_append.mp h.sorted).2.1).1 q' hq')
      exact ⟨_, rfl, (h.inMiddle hlen hack hl hr hi).sound ht rfl rfl ⟨rfl, rfl⟩⟩
    | behind =>
      exact ⟨_, rfl, (h.atHead hlen hack hcases).sound htc rfl rfl ⟨rfl, rfl⟩⟩

/-- The packet finds room in the cache, or is not cached. -/
def Room (s : Agent) : Event → Prop
  | .data _ seq room =>
    s.has snoopFull → s.lru → room → seq ≤ s.lastAck ∨ (s.has snoopAlive ∧ seq = 0)
  | _ => True

instance (s : Agent) (e : Event) : Decidable (Room s e) := by
  unfold Room
  cases e <;> infer_instance

theorem arrive_spec {room : Bool} (h : Cache s c) (ht : Timed s c)
    (hroom : s.has snoopFull → s.lru → room → seq ≤ s.lastAck) :
    ∃ s', (if s.has snoopFull ∧ ¬ s.lru then some { s with lastSeen := max s.lastSeen seq }
      else if room then (s.snoopInsert now seq).bind (fun r => r.1.restart r.2)
      else s.restart false) = some s' ∧ Sound s' ∧ Same s s' := by
  split
  · exact ⟨_, rfl, ⟨c, h.congr rfl rfl rfl rfl (le_max_left _ _) rfl rfl rfl rfl rfl,
      ht.scheduled, ht.cached⟩, rfl, rfl⟩
  rename_i hfull
  split
  · rename_i hr
    have hins : s.lastAck < seq → s.has snoopFull = false := by
      intro hack
      rw [← Bool.not_eq_true]
      intro hf
      have hlru : s.lru = true := by
        by_contra hlru
        exact hfull ⟨hf, hlru⟩
      exact absurd (hroom hf hlru hr) (not_le.mpr hack)
    obtain ⟨r, hr', ⟨d, hcache', htimed'⟩, hsame⟩ := @insert_spec _ _ _ now h ht hins
    obtain ⟨s', hs', hsound, hsame'⟩ := restart_spec (b := r.2) hcache' htimed'
    rw [hr', Option.bind_some, hs']
    exact ⟨s', rfl, hsound, hsame'.1.trans hsame.1, hsame'.2.trans hsame.2⟩
  · exact restart_spec h ht

/-- A data packet is cached at its place, after a reset when it is the first one. -/
theorem data_spec {room : Bool} (h : Cache s c) (hmax : s.maxbufs ≤ snoopMaxwind) (ht : Timed s c)
    (hroom : Room s (.data now seq room)) :
    ∃ s', s.snoopData now seq room = some s' ∧ Sound s' ∧ Same s s' := by
  -- the state after a reset
  obtain ⟨u, c', hu, hcache, htimed, hsame, hroom'⟩ : ∃ u c',
      (if s.has snoopAlive ∧ seq = 0 then s.reset else s) = u ∧ Cache u c' ∧ Timed u c' ∧ Same s u ∧
      (u.has snoopFull → u.lru → room → seq ≤ u.lastAck) := by
    by_cases hreset : s.has snoopAlive ∧ seq = 0
    · obtain ⟨hcache, htimed, hsame⟩ := reset_spec h hmax ht
      rw [if_pos hreset]
      refine ⟨_, [], rfl, hcache, htimed, hsame, fun hfull => ?_⟩
      have hlen := hcache.full.mp hfull
      have htwo := hcache.two
      rw [length_nil] at hlen
      omega
    · rw [if_neg hreset]
      exact ⟨s, c, rfl, h, ht, ⟨rfl, rfl⟩, fun hfull hlru hr =>
        (hroom hfull hlru hr).resolve_right hreset⟩
  have hstate : ∀ m : BitVec 16, snoopAlive &&& m = 0 →
      Agent.has { u with fstate := u.fstate ||| snoopAlive } m = u.has m :=
    fun m hm => has_congr (or_and_other hm)
  have hcache' : Cache { u with fstate := u.fstate ||| snoopAlive } c' :=
    hcache.congr rfl rfl rfl rfl le_rfl rfl (hstate _ (by decide)) (hstate _ (by decide)) rfl rfl
  rw [← hstate snoopFull (by decide)] at hroom'
  obtain ⟨s', hs', hsound, hsame'⟩ :=
    @arrive_spec _ _ _ now _ hcache' ⟨htimed.scheduled, htimed.cached⟩ hroom'
  unfold Agent.snoopData
  rw [hu]
  exact ⟨s', hs', hsound, hsame'.1.trans hsame.1, hsame'.2.trans hsame.2⟩

/-! ## Runs -/

/-- Every handler keeps the cache sound while the buffers do not run out. -/
theorem step_sound {e : Event} (h : Sound s) (hmax : s.maxbufs ≤ snoopMaxwind) (hroom : Room s e) :
    ∃ s' o, step s e = some (s', o) ∧ Sound s' ∧ Same s s' := by
  obtain ⟨c, hcache, htimed⟩ := h
  unfold step
  cases e with
  | data now seq room =>
    obtain ⟨s', hs', hsound, hsame⟩ := data_spec hcache hmax htimed hroom
    exact ⟨s', (), by dsimp only; rw [hs']; rfl, hsound, hsame⟩
  | ack now ack thresh =>
    obtain ⟨s', v, hs', hsound, hsame⟩ := @ack_spec _ _ ack thresh now hcache htimed
    exact ⟨s', (), by dsimp only; rw [hs']; rfl, hsound, hsame⟩
  | timeout now =>
    cases hsched : s.scheduled with
    | nil => exact ⟨s, (), rfl, ⟨c, hcache, htimed⟩, rfl, rfl⟩
    | cons e rest =>
      -- the only event is `toutPending_`
      have hrest : rest = [] := by
        have hone := htimed.scheduled
        rw [hsched] at hone
        cases htout : s.toutPending with
        | none =>
          rw [htout] at hone
          cases hone
        | some e' =>
          rw [htout] at hone
          exact (List.cons.inj hone).2
      have hcache' : Cache { s with scheduled := rest } c :=
        hcache.congr rfl rfl rfl rfl le_rfl rfl rfl rfl rfl rfl
      obtain ⟨s', hs', hsound, hsame⟩ := @handle_spec _ _ now hcache' hrest
      exact ⟨s', (), by dsimp only; rw [hs']; rfl, hsound, hsame⟩

theorem init_cache {maxbufs : ℕ} (lru : Bool) (htwo : 2 ≤ maxbufs) :
    Cache (Agent.init maxbufs lru) [] := by
  have hmod : (Agent.init maxbufs lru).buftail % maxbufs = 0 := Nat.zero_mod _
  refine ⟨htwo, Nat.zero_le _, holds_iff.mpr (fun k hk => by unfold cells; simp [Agent.init]),
    fun _ _ => rfl, Nat.lt_of_lt_of_le Nat.zero_lt_two htwo, hmod.symm, List.Pairwise.nil,
    by simp, by simp, ?_, has_zero rfl, List.Perm.nil⟩
  rw [has_zero rfl, length_nil]
  change _ ↔ 0 = maxbufs
  exact iff_of_false Bool.false_ne_true (by omega)

/-- **The Snoop cache is a sorted window**: whatever the data packets, the acknowledgements and the
timeouts, as long as no packet has to make room in a full cache. -/
theorem snoop_sorted_window (maxbufs : ℕ) (lru : Bool) (es : List Event) (htwo : 2 ≤ maxbufs)
    (hmax : maxbufs ≤ snoopMaxwind) (hroom : Runs.Meets step Room (Agent.init maxbufs lru) es) :
    ∃ s os c, Runs.run step (Agent.init maxbufs lru) es = some (s, os) ∧ s.maxbufs = maxbufs ∧
      Cache s c ∧ Timed s c := by
  have hinv := @Runs.run_invariant _ _ _ _ _ _ _ (fun (_ : List Event) (_ : List Unit) s => s.maxbufs = maxbufs ∧ Sound s) ?_ ⟨rfl, [], init_cache lru htwo, Timed.none rfl rfl⟩ hroom
  · obtain ⟨s, os, hrun, hsize, c, hcache, htimed⟩ := hinv
    exact ⟨s, os, c, hrun, hsize, hcache, htimed⟩
  · intro past outs s e ⟨hsize, hsound⟩ hok
    obtain ⟨s', o, hs', hsound', hsame⟩ := step_sound hsound (hsize ▸ hmax) hok
    exact ⟨s', o, hs', hsame.1.trans hsize, hsound'⟩

/-- Packets in and out of order, a new and a duplicate acknowledgement, and a timeout. -/
theorem snoop_sorted_window_two :
    ∃ s os c, Runs.run step (Agent.init 3 true) [.data 0 1 true, .data 1 0 true, .data 2 1 true,
        .ack 3 0 0, .data 4 3 true, .data 5 2 true, .timeout 6, .ack 7 0 1] = some (s, os) ∧
      s.maxbufs = 3 ∧ Cache s c ∧ Timed s c :=
  snoop_sorted_window 3 true _ (by decide) (by decide) (by decide +kernel)

/-- The third packet makes room in a cache of two: the agent is closed, and the first packet is
freed while it is the event of the timeout. -/
theorem snoop_closes :
    ∃ s os, Runs.run step (Agent.init 2 true)
        [.data 0 0 true, .data 1 1 true, .data 2 2 true] = some (s, os) ∧
      s.has snoopClosed = true ∧ s.freed = [0] ∧ s.scheduled = [0] ∧
      ¬ ∃ c, Cache s c ∧ Timed s c := by
  have hsome : (Runs.run step (Agent.init 2 true)
      [.data 0 0 true, .data 1 1 true, .data 2 2 true]).map
        (fun r => (r.1.has snoopClosed, r.1.freed, r.1.scheduled)) = some (true, [0], [0]) := by
    decide +kernel
  obtain ⟨r, hrun, hr⟩ := Option.map_eq_some_iff.mp hsome
  obtain ⟨hclosed, hrest⟩ := Prod.mk.inj hr
  obtain ⟨hfreed, hsched⟩ := Prod.mk.inj hrest
  refine ⟨r.1, r.2, hrun, hclosed, hfreed, hsched, fun ⟨c, hcache, _⟩ => ?_⟩
  rw [hcache.notClosed] at hclosed
  cases hclosed

end NetSim.Snoop
