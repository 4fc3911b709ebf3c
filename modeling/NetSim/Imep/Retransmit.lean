import NetSim.Imep.Rexmit
import NetSim.Lib.Runs
import Mathlib.Algebra.Order.Ring.Rat
import Mathlib.Data.List.Nodup
import Mathlib.Data.List.Perm.Basic

/-! # IMEP: retransmission until everyone has acknowledged

What an agent did is a log of actions. A packet is in the retransmission queue as long as a neighbour
owes an acknowledgement, its response list holds the neighbours that do, and their links are taken down
after the last transmission (`imep_retransmits`), unless the agent runs into one of these defects: the
test behind the search of a response list reads the word behind the list, which a packet that was
acknowledged twice or a link that was purged twice may find there; the loop that takes the links down
runs over a list that each of its steps shortens; `ob_num_responses` has 5 bits, and `ob_sequence` 8.
-/

namespace NetSim.Imep

open Function List

/-! ## The response list of a packet -/

/-- The word behind the response list is not taken for `index`. -/
def Rexent.Clear (r : Rexent) (index : ℕ) : Prop :=
  index ∈ r.responses ∨ r.resp r.numResponses ≠ index

variable {r r' : Rexent} {q q' : List Rexent} {n p index seqno src : ℕ} {l : List ℕ}

theorem Rexent.length_responses (r : Rexent) : r.responses.length = r.numResponses := by
  unfold responses
  rw [length_map, length_range]

theorem swap_last (f : ℕ → ℕ) {i m : ℕ} (hi : i ≤ m) (hnodup : ((List.range (m + 1)).map f).Nodup) :
    ((List.range m).map (update f i (f m))).Perm
      (((List.range (m + 1)).map f).erase (f i)) := by
  have hlen : ((List.range m).map f).length = m := by
    rw [length_map, length_range]
  rw [range_succ, map_append, map_singleton] at hnodup ⊢
  have hlast : f m ∉ (List.range m).map f := by
    intro hmem
    exact (List.nodup_append.mp hnodup).2.2 _ hmem _ (mem_singleton_self _) rfl
  rcases Nat.lt_or_eq_of_le hi with hlt | rfl
  · have hset : (List.range m).map (update f i (f m)) =
        ((List.range m).map f).set i (f m) := by
      refine ext_getElem (by simp) ?_
      intro k hk hk'
      rw [getElem_map, getElem_range, getElem_set, getElem_map,
        getElem_range]
      by_cases hki : i = k
      · rw [if_pos hki, ← hki, update_self]
      · rw [if_neg hki, update_of_ne (Ne.symm hki)]
    have hlt' : i < ((List.range m).map f).length := by rw [hlen]; exact hlt
    have hget : ((List.range m).map f)[i] = f i := by simp
    have hmem : f i ∈ (List.range m).map f := mem_map_of_mem (mem_range.mpr hlt)
    have herase : ((List.range m).map f).erase (f i) = ((List.range m).map f).eraseIdx i := by
      rw [← hget]
      exact (List.nodup_append.mp hnodup).1.erase_getElem ..
    rw [hset, erase_append_left _ hmem, herase]
    refine (set_perm_cons_eraseIdx (by rw [hlen]; exact hlt) (f m)).trans ?_
    exact (perm_append_singleton (f m) _).symm
  · rw [erase_append_right _ hlast, erase_cons_head, append_nil]
    refine List.Perm.of_eq (map_congr_left ?_)
    intro k hk
    exact update_of_ne (ne_of_lt (mem_range.mp hk)) ..

/-- The neighbour owes no acknowledgement any more; the packet goes with the last one. -/
theorem removeResponse_spec (hpos : 0 < r.numResponses) (hnodup : r.responses.Nodup)
    (hclear : r.Clear index) :
    r.removeResponse index = none ∧ r.responses.erase index = [] ∨
      ∃ r', r.removeResponse index = some r' ∧ r'.number = r.number ∧
        r'.rexmitsLeft = r.rexmitsLeft ∧ r'.responses.Perm (r.responses.erase index) ∧
        0 < r'.numResponses := by
  obtain ⟨m, hm⟩ : ∃ m, r.numResponses = m + 1 := ⟨r.numResponses - 1, by omega⟩
  unfold Rexent.removeResponse
  cases hfind : (List.range r.numResponses).find? (fun i => r.resp i = index) with
  | none =>
    -- the neighbour is not on the list
    have hnot : index ∉ r.responses := by
      intro hmem
      obtain ⟨i, hi, heq⟩ := mem_map.mp hmem
      rw [find?_eq_none] at hfind
      exact hfind i hi (by simpa using heq)
    have hword : r.resp r.numResponses ≠ index := hclear.resolve_left hnot
    rw [Option.getD_none, if_pos hword, erase_of_not_mem hnot]
    exact Or.inr ⟨r, rfl, rfl, rfl, List.Perm.refl _, hpos⟩
  | some i =>
    have hi : i < r.numResponses := mem_range.mp (mem_of_find?_eq_some hfind)
    have heq : r.resp i = index := by simpa using find?_some hfind
    rw [Option.getD_some, if_neg (not_not.mpr heq)]
    have hlist : r.responses = (List.range (m + 1)).map r.resp := by
      unfold Rexent.responses
      rw [hm]
    have hswap := swap_last r.resp (show i ≤ m by omega) (hlist ▸ hnodup)
    rw [heq, ← hlist] at hswap
    split
    · refine Or.inl ⟨rfl, ?_⟩
      have hm0 : m = 0 := by omega
      rw [hm0] at hswap
      exact hswap.symm.eq_nil
    · refine Or.inr ⟨_, rfl, rfl, rfl, ?_, by dsimp only; omega⟩
      have hm' : r.numResponses - 1 = m := by omega
      rw [hm']
      exact hswap

/-! ## The queue -/

/-- Every packet in the queue has a number of its own and someone on its list, each once. -/
structure Orderly (q : List Rexent) : Prop where
  seqs : (q.map Rexent.obSequence).Nodup
  list : ∀ r ∈ q, 0 < r.numResponses ∧ r.responses.Nodup

/-- The packet `p` was sent again `c` times and the neighbours `l` owe an acknowledgement; without
one, the packet is not in the queue. -/
def Owed (q : List Rexent) (p : ℕ) (l : List ℕ) (c : ℕ) : Prop :=
  (∃ r ∈ q, r.number = p ∧ r.responses.Perm l ∧ r.rexmitsLeft + c = maxRexmits) ∨
    (∀ r ∈ q, r.number ≠ p) ∧ l = []

theorem Orderly.eq (h : Orderly q) (hr : r ∈ q) (hr' : r' ∈ q) (heq : r.number = r'.number) :
    r = r' := by
  refine inj_on_of_nodup_map h.seqs hr hr' ?_
  unfold Rexent.obSequence
  rw [heq]

section filterMap

variable {f : Rexent → Option Rexent} {g : Rexent → List ℕ}

/-- What is taken off the lists of the packets. -/
def Takes (f : Rexent → Option Rexent) (g : Rexent → List ℕ) (r : Rexent) : Prop :=
  f r = none ∧ g r = [] ∨
    ∃ r', f r = some r' ∧ r'.number = r.number ∧ r'.rexmitsLeft = r.rexmitsLeft ∧
      r'.responses.Perm (g r) ∧ 0 < r'.numResponses

theorem Takes.mem (h : ∀ r ∈ q, Takes f g r) (hr : r' ∈ q.filterMap f) :
    ∃ r ∈ q, f r = some r' ∧ r'.number = r.number ∧ r'.responses.Perm (g r) ∧
      0 < r'.numResponses := by
  obtain ⟨r, hr, hf⟩ := mem_filterMap.mp hr
  rcases h r hr with ⟨hnone, -⟩ | ⟨r'', hf', hnum, -, hperm, hpos⟩
  · rw [hf] at hnone
    cases hnone
  · rw [hf] at hf'
    cases hf'
    exact ⟨r, hr, hf, hnum, hperm, hpos⟩

theorem Orderly.filterMap (h : Orderly q) (hf : ∀ r ∈ q, Takes f g r)
    (hg : ∀ r ∈ q, (g r).Nodup) : Orderly (q.filterMap f) := by
  constructor
  · have hsub : ((q.filterMap f).map Rexent.obSequence).Sublist (q.map Rexent.obSequence) := by
      clear h hg
      induction q with
      | nil => exact List.Sublist.refl _
      | cons r q ih =>
        have ih := ih (fun r' hr' => hf r' (mem_cons_of_mem _ hr'))
        rcases hf r mem_cons_self with ⟨hnone, -⟩ | ⟨r', hsome, hnum, -⟩
        · rw [filterMap_cons_none hnone]
          exact ih.cons _
        · rw [filterMap_cons_some hsome, map_cons, map_cons]
          unfold Rexent.obSequence at ih ⊢
          rw [hnum]
          exact ih.cons_cons _
    exact h.seqs.sublist hsub
  · intro r' hr'
    obtain ⟨r, hr, -, -, hperm, hpos⟩ := Takes.mem hf hr'
    exact ⟨hpos, hperm.nodup_iff.mpr (hg r hr)⟩

theorem Owed.filterMap {c : ℕ} {l' : List ℕ} (h : Owed q p l c) (hq : Orderly q)
    (hf : ∀ r ∈ q, Takes f g r) (hl : ∀ r ∈ q, r.number = p → r.responses.Perm l → (g r).Perm l')
    (hnil : l = [] → l' = []) : Owed (q.filterMap f) p l' c := by
  rcases h with ⟨r, hr, hnum, hperm, hleft⟩ | ⟨hnone, hempty⟩
  · have hl' := hl r hr hnum hperm
    rcases hf r hr with ⟨hgone, hg⟩ | ⟨r', hsome, hnum', hleft', hperm', -⟩
    · refine Or.inr ⟨?_, ?_⟩
      · intro r'' hr'' heq
        obtain ⟨r₂, hr₂, hf₂, hnum₂, -⟩ := Takes.mem hf hr''
        have : r₂ = r := hq.eq hr₂ hr (by rw [← hnum₂, heq, hnum])
        rw [this, hgone] at hf₂
        cases hf₂
      · rw [hg] at hl'
        exact hl'.symm.eq_nil
    · exact Or.inl ⟨r', mem_filterMap.mpr ⟨r, hr, hsome⟩, hnum'.trans hnum, hperm'.trans hl',
        by rw [hleft', hleft]⟩
  · refine Or.inr ⟨?_, hnil hempty⟩
    intro r'' hr'' heq
    obtain ⟨r₂, hr₂, -, hnum₂, -⟩ := Takes.mem hf hr''
    exact hnone r₂ hr₂ (by rw [← hnum₂, heq])

end filterMap

theorem takes_removeResponse (hq : Orderly q) (hclear : ∀ r ∈ q, r.Clear index) :
    ∀ r ∈ q, Takes (·.removeResponse index) (·.responses.erase index) r := by
  intro r hr
  obtain ⟨hpos, hnodup⟩ := hq.list r hr
  exact removeResponse_spec hpos hnodup (hclear r hr)

theorem removeObjectResponse_eq (hseqs : (q.map Rexent.obSequence).Nodup) :
    removeObjectResponse seqno src q =
      q.filterMap (fun r => if r.obSequence = seqno then r.removeResponse src else some r) := by
  induction q with
  | nil => rfl
  | cons r q ih =>
    rw [map_cons, nodup_cons] at hseqs
    rw [removeObjectResponse]
    by_cases hseq : r.obSequence = seqno
    · have hrest : q.filterMap
          (fun r => if r.obSequence = seqno then r.removeResponse src else some r) = q := by
        refine (filterMap_congr (g := some) ?_).trans filterMap_some
        intro r' hr'
        refine if_neg (fun heq => hseqs.1 ?_)
        rw [hseq, ← heq]
        exact mem_map_of_mem hr'
      rw [if_pos hseq, filterMap_cons, if_pos hseq, hrest]
      cases r.removeResponse src <;> rfl
    · rw [if_neg hseq, filterMap_cons_some (by rw [if_neg hseq]), ih hseqs.2]

theorem takes_removeObjectResponse (hq : Orderly q)
    (hclear : ∀ r ∈ q, r.obSequence = seqno → r.Clear src) :
    ∀ r ∈ q, Takes (fun r => if r.obSequence = seqno then r.removeResponse src else some r)
      (fun r => if r.obSequence = seqno then r.responses.erase src else r.responses) r := by
  intro r hr
  obtain ⟨hpos, hnodup⟩ := hq.list r hr
  unfold Takes
  dsimp only
  by_cases hseq : r.obSequence = seqno
  · rw [if_pos hseq, if_pos hseq]
    exact removeResponse_spec hpos hnodup (hclear r hr hseq)
  · rw [if_neg hseq, if_neg hseq]
    exact Or.inr ⟨r, rfl, rfl, rfl, List.Perm.refl _, hpos⟩

theorem insertRexent_perm (r : Rexent) (q : List Rexent) : (insertRexent r q).Perm (r :: q) := by
  induction q with
  | nil => exact List.Perm.refl _
  | cons i q ih =>
    rw [insertRexent]
    split
    · exact List.Perm.refl _
    · exact (ih.cons i).trans (List.Perm.swap r i q)

theorem Orderly.perm (h : Orderly q) (hperm : q'.Perm q) : Orderly q' :=
  ⟨(hperm.map _).nodup_iff.mpr h.seqs, fun r hr => h.list r (hperm.mem_iff.mp hr)⟩

theorem Owed.perm {c : ℕ} (h : Owed q p l c) (hperm : q'.Perm q) : Owed q' p l c := by
  rcases h with ⟨r, hr, hrest⟩ | ⟨hnone, hempty⟩
  · exact Or.inl ⟨r, hperm.mem_iff.mpr hr, hrest⟩
  · exact Or.inr ⟨fun r hr => hnone r (hperm.mem_iff.mp hr), hempty⟩

/-! ## Links -/

structure Linked (a : Sender) : Prop where
  uniq : (a.imepLinkHead.map (·.index)).Nodup
  bi : ∀ r ∈ a.rexmitq, ∀ n ∈ r.responses, ∃ k ∈ a.imepLinkHead, k.index = n ∧ k.status = linkBi

variable {a a' : Sender} {now : ℚ} {f : ImepLink → ImepLink}

theorem updateLink_index (hf : ∀ k, (f k).index = k.index) :
    (a.updateLink index f).imepLinkHead.map (·.index) = a.imepLinkHead.map (·.index) := by
  unfold Sender.updateLink
  rw [map_map]
  refine map_congr_left ?_
  intro k hk
  simp only [comp_apply]
  split
  · exact hf k
  · rfl

theorem Linked.updateLink (h : Linked a) (hf : ∀ k, (f k).index = k.index)
    (hbi : ∀ k, k.status = linkBi → (f k).status = linkBi) : Linked (a.updateLink index f) := by
  refine ⟨by rw [updateLink_index hf]; exact h.uniq, ?_⟩
  intro r hr n hn
  obtain ⟨k, hk, hkn, hks⟩ := h.bi r hr n hn
  refine ⟨if k.index = index then f k else k, mem_map_of_mem hk, ?_, ?_⟩
  · split
    · rw [hf, hkn]
    · exact hkn
  · split
    · exact hbi k hks
    · exact hks

theorem findLink_none (h : a.findLink index = none) : index ∉ a.imepLinkHead.map (·.index) := by
  intro hmem
  obtain ⟨k, hk, heq⟩ := mem_map.mp hmem
  unfold Sender.findLink at h
  rw [find?_eq_none] at h
  exact h k hk (by simpa using heq)

theorem findLink_some (h : (a.imepLinkHead.map (·.index)).Nodup) {k : ImepLink} (hk : k ∈ a.imepLinkHead) :
    a.findLink k.index = some k := by
  cases hfind : a.findLink k.index with
  | none => exact absurd (mem_map_of_mem hk) (findLink_none hfind)
  | some k' =>
    have hk' := mem_of_find?_eq_some hfind
    have heq : k'.index = k.index := by simpa using find?_some hfind
    rw [inj_on_of_nodup_map h hk' hk heq]

theorem Linked.setLinkIn (h : Linked a) : Linked (a.imepSetLinkInStatus now index) := by
  refine Linked.updateLink ?_ (fun _ => rfl) ?_
  · split
    · rename_i hnone
      refine ⟨?_, ?_⟩
      · rw [map_cons, nodup_cons]
        exact ⟨findLink_none (Option.isNone_iff_eq_none.mp hnone), h.uniq⟩
      · intro r hr n hn
        obtain ⟨k, hk, hrest⟩ := h.bi r hr n hn
        exact ⟨k, mem_cons_of_mem _ hk, hrest⟩
    · exact h
  · intro k hk
    rw [hk]
    rfl

theorem Linked.setLinkBi (h : Linked a) : Linked (a.imepSetLinkBiStatus now index) := by
  refine h.setLinkIn.updateLink (fun _ => rfl) ?_
  intro k hk
  rw [hk]
  rfl

theorem setLinkIn_rexmitq : (a.imepSetLinkInStatus now index).rexmitq = a.rexmitq := by
  unfold Sender.imepSetLinkInStatus
  split <;> rfl

theorem setLinkIn_controlSequence :
    (a.imepSetLinkInStatus now index).controlSequence = a.controlSequence := by
  unfold Sender.imepSetLinkInStatus
  split <;> rfl

theorem setLinkBi_rexmitq : (a.imepSetLinkBiStatus now index).rexmitq = a.rexmitq :=
  @setLinkIn_rexmitq index a now

theorem setLinkBi_controlSequence :
    (a.imepSetLinkBiStatus now index).controlSequence = a.controlSequence :=
  @setLinkIn_controlSequence index a now

theorem Linked.filterMap {f : Rexent → Option Rexent} {g : Rexent → List ℕ} (h : Linked a)
    (hlinks : a'.imepLinkHead = a.imepLinkHead) (hq : a'.rexmitq = a.rexmitq.filterMap f)
    (hf : ∀ r ∈ a.rexmitq, Takes f g r) (hg : ∀ r ∈ a.rexmitq, ∀ n ∈ g r, n ∈ r.responses) :
    Linked a' := by
  refine ⟨hlinks ▸ h.uniq, ?_⟩
  intro r' hr' n hn
  rw [hq] at hr'
  obtain ⟨r, hr, -, -, hperm, -⟩ := Takes.mem hf hr'
  rw [hlinks]
  exact h.bi r hr n (hg r hr n (hperm.mem_iff.mp hn))

/-- **A link is taken down**: nobody waits for its neighbour any more. -/
theorem setLinkDown_spec (huniq : (a.imepLinkHead.map (·.index)).Nodup)
    (hbi : ∀ r ∈ a.rexmitq, ∀ n ∈ r.responses, n ≠ index →
      ∃ k ∈ a.imepLinkHead, k.index = n ∧ k.status = linkBi) (hq : Orderly a.rexmitq)
    (hclear : ∀ r ∈ a.rexmitq, r.Clear index) {k : ImepLink} (hk : k ∈ a.imepLinkHead)
    (hindex : k.index = index) :
    (a.imepSetLinkDownStatus index).2 = [.down index] ∧
      (a.imepSetLinkDownStatus index).1.rexmitq =
        a.rexmitq.filterMap (·.removeResponse index) ∧
      (a.imepSetLinkDownStatus index).1.controlSequence = a.controlSequence ∧
      Linked (a.imepSetLinkDownStatus index).1 ∧
      ∀ r ∈ (a.imepSetLinkDownStatus index).1.rexmitq, index ∉ r.responses := by
  have hfind := findLink_some huniq hk
  rw [hindex] at hfind
  unfold Sender.imepSetLinkDownStatus
  rw [hfind, Option.isNone_some, if_neg Bool.false_ne_true]
  have htakes := takes_removeResponse hq hclear
  have hgone : ∀ r ∈ a.rexmitq.filterMap (·.removeResponse index), index ∉ r.responses := by
    intro r' hr' hmem
    obtain ⟨r, hr, -, -, hperm, -⟩ := Takes.mem htakes hr'
    exact (hq.list r hr).2.not_mem_erase (hperm.mem_iff.mp hmem)
  refine ⟨rfl, rfl, rfl, ⟨?_, ?_⟩, hgone⟩
  · have hip := @updateLink_index index a
      (fun k => { k with status := linkDown, inExpire := -1, outExpire := -1 }) (fun _ => rfl)
    exact hip.symm ▸ huniq
  · intro r' hr' n hn
    have hne : n ≠ index := fun heq => hgone r' hr' (heq ▸ hn)
    obtain ⟨r, hr, -, -, hperm, -⟩ := Takes.mem htakes hr'
    obtain ⟨k', hk', hkn, hks⟩ := hbi r hr n (mem_of_mem_erase (hperm.mem_iff.mp hn)) hne
    refine ⟨k', mem_map.mpr ⟨k', hk', ?_⟩, hkn, hks⟩
    rw [if_neg (by rw [hkn]; exact hne)]

/-! ## The log -/

/-- The neighbours of the list `l` that still owe an acknowledgement of `seqno` after the actions of the
log. -/
def owes (seqno : ℕ) (l : List ℕ) (log : List Action) : List ℕ :=
  log.foldl (fun l o =>
    match o with
    | .acked s src => if s = seqno then l.erase src else l
    | .down index => l.erase index
    | _ => l) l

theorem owes_append (seqno : ℕ) (l : List ℕ) (log log' : List Action) :
    owes seqno l (log ++ log') = owes seqno (owes seqno l log) log' :=
  foldl_append

/-- What the log says about the packet `p` since it was sent to `l`. -/
structure Track (a : Sender) (p : ℕ) (l : List ℕ) (log : List Action) : Prop where
  owed : Owed a.rexmitq p (owes (p % 256) l log) (log.count (.rexmit p))
  old : p ≤ a.controlSequence
  timeout : ∀ mid ns rest, log = mid ++ .timeout p ns :: rest →
    ns.Perm (owes (p % 256) l mid) ∧ mid.count (.rexmit p) = maxRexmits ∧ ns.map .down <+: rest

structure Sound (a : Sender) : Prop where
  linked : Linked a
  orderly : Orderly a.rexmitq
  old : ∀ r ∈ a.rexmitq, r.number ≤ a.controlSequence

variable {log o : List Action}

theorem Track.concat (h : Track a p l log) {x : Action}
    (howed : Owed a'.rexmitq p (owes (p % 256) (owes (p % 256) l log) [x])
      (log.count (.rexmit p) + [x].count (.rexmit p)))
    (hseq : a.controlSequence ≤ a'.controlSequence) (hx : ∀ ns, x ≠ .timeout p ns) :
    Track a' p l (log ++ [x]) := by
  refine ⟨?_, h.old.trans hseq, ?_⟩
  · rw [owes_append, List.count_append]
    exact howed
  · intro mid ns rest heq
    rcases eq_nil_or_concat rest with rfl | ⟨rest', y, rfl⟩
    · have hlast := congrArg List.getLast? heq
      rw [getLast?_concat, getLast?_append, getLast?_singleton] at hlast
      exact absurd (Option.some.inj hlast) (hx ns)
    · rw [concat_eq_append, ← cons_append, ← append_assoc] at heq
      obtain ⟨hlog, -⟩ := append_inj' heq rfl
      obtain ⟨hperm, hcount, hstart⟩ := h.timeout mid ns rest' hlog
      refine ⟨hperm, hcount, hstart.trans ?_⟩
      rw [concat_eq_append]
      exact prefix_append ..

theorem Track.congr (h : Track a p l log) (hq : a'.rexmitq = a.rexmitq)
    (hseq : a'.controlSequence = a.controlSequence) : Track a' p l log :=
  ⟨hq ▸ h.owed, hseq ▸ h.old, h.timeout⟩

theorem Track.down (h : Track a p l log) (ha : Sound a) (hclear : ∀ r ∈ a.rexmitq, r.Clear index)
    (hq : a'.rexmitq = a.rexmitq.filterMap (·.removeResponse index))
    (hseq : a'.controlSequence = a.controlSequence) : Track a' p l (log ++ [.down index]) := by
  refine h.concat ?_ (le_of_eq hseq.symm) (fun ns => nofun)
  rw [hq]
  exact h.owed.filterMap ha.orderly (takes_removeResponse ha.orderly hclear)
    (fun r hr hnum hperm => hperm.erase index) (fun hnil => by rw [hnil]; rfl)

theorem Track.acked (h : Track a p l log) (ha : Sound a)
    (hclear : ∀ r ∈ a.rexmitq, r.obSequence = seqno → r.Clear src)
    (hq : a'.rexmitq = removeObjectResponse seqno src a.rexmitq)
    (hseq : a'.controlSequence = a.controlSequence) : Track a' p l (log ++ [.acked seqno src]) := by
  refine h.concat ?_ (le_of_eq hseq.symm) (fun ns => nofun)
  rw [hq, removeObjectResponse_eq ha.orderly.seqs]
  refine h.owed.filterMap ha.orderly (takes_removeObjectResponse ha.orderly hclear) ?_ ?_
  · intro r hr hnum hperm
    unfold Rexent.obSequence owes
    rw [hnum, foldl_cons, foldl_nil]
    dsimp only
    by_cases heq : p % 256 = seqno
    · rw [if_pos heq, if_pos heq.symm]
      exact hperm.erase src
    · rw [if_neg heq, if_neg (Ne.symm heq)]
      exact hperm
  · intro hnil
    rw [hnil]
    unfold owes
    rw [foldl_cons, foldl_nil]
    dsimp only
    split <;> rfl

theorem Sound.filterMap {f : Rexent → Option Rexent} {g : Rexent → List ℕ} (h : Sound a)
    (hlinked : Linked a') (hq : a'.rexmitq = a.rexmitq.filterMap f)
    (hseq : a'.controlSequence = a.controlSequence) (hf : ∀ r ∈ a.rexmitq, Takes f g r)
    (hg : ∀ r ∈ a.rexmitq, (g r).Nodup) : Sound a' := by
  refine ⟨hlinked, hq ▸ h.orderly.filterMap hf hg, ?_⟩
  intro r' hr'
  rw [hq] at hr'
  obtain ⟨r, hr, -, hnum, -⟩ := Takes.mem hf hr'
  rw [hnum, hseq]
  exact h.old r hr

/-! ## Events -/

/-- The step from `a` to `a'` with the actions `o` keeps the agent sound and the log true. -/
structure Advance (a a' : Sender) (o : List Action) : Prop where
  sound : Sound a'
  track : ∀ p l log, Track a p l log → Track a' p l (log ++ o)
  sent : ∀ p l, .sent p l ∈ o → o = [.sent p l] ∧ Track a' p l []

theorem Advance.quiet (hlinked : Linked a') (ha : Sound a) (hq : a'.rexmitq = a.rexmitq)
    (hseq : a'.controlSequence = a.controlSequence) : Advance a a' [] := by
  refine ⟨⟨hlinked, hq ▸ ha.orderly, by rw [hq, hseq]; exact ha.old⟩, ?_, by simp⟩
  intro p l log h
  rw [append_nil]
  exact h.congr hq hseq

theorem responses_send (list : List ℕ) (behind : ℕ → ℕ) :
    (List.range list.length).map (fun i => list.getD i (behind (i - list.length))) = list := by
  refine ext_getElem (by simp) ?_
  intro i hi hi'
  rw [getElem_map, getElem_range, getD_eq_getElem?_getD,
    getElem?_eq_getElem hi', Option.getD_some]

/-- **A packet is sent** to fewer than 32 neighbours, with a sequence number that is free. -/
theorem send_spec {behind : ℕ → ℕ} (ha : Sound a)
    (hlen : (a.imepLinkHead.filter (·.status = linkBi)).length < 32)
    (hfree : ∀ r ∈ a.rexmitq, r.obSequence ≠ (a.controlSequence + 1) % 256) :
    Advance a (a.send now behind).1 (a.send now behind).2 := by
  unfold Sender.send
  generalize hlist : (a.imepLinkHead.filter (·.status = linkBi)).map (·.index) = list
  have hlen' : list.length < 32 := by
    rw [← hlist, length_map]
    exact hlen
  have hbi : ∀ n ∈ list, ∃ k ∈ a.imepLinkHead, k.index = n ∧ k.status = linkBi := by
    intro n hn
    rw [← hlist] at hn
    obtain ⟨k, hk, hkn⟩ := mem_map.mp hn
    obtain ⟨hk, hks⟩ := mem_filter.mp hk
    exact ⟨k, hk, hkn, by simpa using hks⟩
  have hnodup : list.Nodup := by
    rw [← hlist]
    exact ha.linked.uniq.sublist (filter_sublist.map _)
  have hnew : ∀ r ∈ a.rexmitq, r.number ≠ a.controlSequence + 1 := by
    intro r hr heq
    have hle := ha.old r hr
    omega
  dsimp only
  rw [Nat.mod_eq_of_lt hlen']
  by_cases hnil : list.length > 0
  · -- the packet waits for acknowledgements
    rw [if_pos hnil]
    have hperm := insertRexent_perm ⟨now + retransPeriod, maxRexmits, a.controlSequence + 1,
      list.length, fun i => list.getD i (behind (i - list.length))⟩ a.rexmitq
    have hresp := responses_send list behind
    refine ⟨⟨⟨ha.linked.uniq, ?_⟩, Orderly.perm ⟨?_, ?_⟩ hperm, ?_⟩, ?_, ?_⟩
    · intro r hr n hn
      rcases mem_cons.mp (hperm.mem_iff.mp hr) with rfl | hr
      · exact hbi n (hresp ▸ hn)
      · exact ha.linked.bi r hr n hn
    · rw [map_cons, nodup_cons]
      refine ⟨?_, ha.orderly.seqs⟩
      intro hmem
      obtain ⟨r, hr, heq⟩ := mem_map.mp hmem
      exact hfree r hr heq
    · intro r hr
      rcases mem_cons.mp hr with rfl | hr
      · exact ⟨hnil, by rw [← hresp] at hnodup; exact hnodup⟩
      · exact ha.orderly.list r hr
    · intro r hr
      rcases mem_cons.mp (hperm.mem_iff.mp hr) with rfl | hr
      · exact le_rfl
      · exact Nat.le_succ_of_le (ha.old r hr)
    · intro p l log h
      refine h.concat (Owed.perm ?_ hperm) (Nat.le_succ _) (fun ns => nofun)
      rcases h.owed with ⟨r, hr, hrest⟩ | ⟨hnone, hempty⟩
      · exact Or.inl ⟨r, mem_cons_of_mem _ hr, hrest⟩
      · refine Or.inr ⟨?_, hempty⟩
        intro r hr
        rcases mem_cons.mp hr with rfl | hr
        · have hold := h.old
          dsimp only
          omega
        · exact hnone r hr
    · intro p l hmem
      obtain ⟨rfl, rfl⟩ := Action.sent.inj (mem_singleton.mp hmem)
      refine ⟨rfl, Owed.perm (Or.inl ⟨_, mem_cons_self, rfl, ?_, rfl⟩) hperm, le_rfl, by simp⟩
      exact List.Perm.of_eq hresp
  · -- there is nobody to acknowledge it
    rw [if_neg hnil]
    have hempty : list = [] := length_eq_zero_iff.mp (by omega)
    refine ⟨⟨⟨ha.linked.uniq, ha.linked.bi⟩, ha.orderly, ?_⟩, ?_, ?_⟩
    · intro r hr
      exact Nat.le_succ_of_le (ha.old r hr)
    · intro p l log h
      exact h.concat h.owed (Nat.le_succ _) (fun ns => nofun)
    · intro p l hmem
      obtain ⟨rfl, rfl⟩ := Action.sent.inj (mem_singleton.mp hmem)
      exact ⟨rfl, Or.inr ⟨hnew, hempty⟩, le_rfl, by simp⟩

theorem removeObjectResponse_none (h : ∀ r ∈ q, r.obSequence ≠ seqno) :
    removeObjectResponse seqno src q = q := by
  induction q with
  | nil => rfl
  | cons r q ih =>
    rw [removeObjectResponse, if_neg (h r mem_cons_self),
      ih (fun r' hr' => h r' (mem_cons_of_mem _ hr'))]

/-- An acknowledgement takes its sender off one response list. -/
theorem ack_spec (ha : Sound a) (hclear : ∀ r ∈ a.rexmitq, r.obSequence = seqno → r.Clear src) :
    Advance a (a.imepAckInput now seqno src).1 (a.imepAckInput now seqno src).2 := by
  have htakes := takes_removeObjectResponse ha.orderly hclear
  have hnodup : ∀ r ∈ a.rexmitq,
      (if r.obSequence = seqno then r.responses.erase src else r.responses).Nodup := by
    intro r hr
    have hlist := (ha.orderly.list r hr).2
    split
    · exact hlist.erase src
    · exact hlist
  have heq := @removeObjectResponse_eq a.rexmitq seqno src ha.orderly.seqs
  unfold Sender.imepAckInput
  split
  · have hlinked : Linked { a with rexmitq := removeObjectResponse seqno src a.rexmitq } := by
      refine ha.linked.filterMap rfl heq htakes ?_
      intro r hr n hn
      split at hn
      · exact mem_of_mem_erase hn
      · exact hn
    have hq : (Sender.imepSetLinkBiStatus
        { a with rexmitq := removeObjectResponse seqno src a.rexmitq } now src).rexmitq =
          removeObjectResponse seqno src a.rexmitq := setLinkBi_rexmitq
    have hseq : (Sender.imepSetLinkBiStatus
        { a with rexmitq := removeObjectResponse seqno src a.rexmitq } now src).controlSequence =
          a.controlSequence := setLinkBi_controlSequence
    refine ⟨ha.filterMap hlinked.setLinkBi (hq.trans heq) hseq htakes hnodup, ?_, by simp⟩
    intro p l log h
    exact h.acked ha hclear hq hseq
  · rename_i hany
    have hnone : ∀ r ∈ a.rexmitq, r.obSequence ≠ seqno := by
      intro r hr hseq
      refine hany (any_eq_true.mpr ⟨r, hr, ?_⟩)
      simpa using hseq
    refine ⟨ha, ?_, by simp⟩
    intro p l log h
    exact h.acked ha hclear (removeObjectResponse_none hnone).symm rfl

/-- A neighbour whose link is down is taken off all response lists. -/
theorem linkDown_spec (ha : Sound a)
    (hclear : (a.findLink index).isSome → ∀ r ∈ a.rexmitq, r.Clear index) :
    Advance a (a.imepSetLinkDownStatus index).1 (a.imepSetLinkDownStatus index).2 := by
  cases hfind : a.findLink index with
  | none =>
    unfold Sender.imepSetLinkDownStatus
    rw [hfind, Option.isNone_none, if_pos rfl]
    exact Advance.quiet ha.linked ha rfl rfl
  | some k =>
    have hk := mem_of_find?_eq_some hfind
    have hindex : k.index = index := by simpa using find?_some hfind
    have hclear := hclear (by rw [hfind]; rfl)
    obtain ⟨ho, hq, hseq, hlinked, -⟩ := setLinkDown_spec ha.linked.uniq
      (fun r hr n hn _ => ha.linked.bi r hr n hn) ha.orderly hclear hk hindex
    rw [ho]
    refine ⟨ha.filterMap hlinked hq hseq (takes_removeResponse ha.orderly hclear) ?_, ?_, by simp⟩
    · intro r hr
      exact (ha.orderly.list r hr).2.erase index
    · intro p l log h
      exact h.down ha hclear hq hseq

theorem purgeLink_spec (ha : Sound a) (hclear : ∀ k ∈ a.imepLinkHead, k.index = index →
      k.status = linkBi → (k.inExpire < now ∨ k.outExpire < now) → ∀ r ∈ a.rexmitq, r.Clear index) :
    Advance a (a.purgeLink now index).1 (a.purgeLink now index).2 := by
  unfold Sender.purgeLink
  cases hfind : a.findLink index with
  | none => exact Advance.quiet ha.linked ha rfl rfl
  | some k =>
    have hk := mem_of_find?_eq_some hfind
    have hindex : k.index = index := by simpa using find?_some hfind
    dsimp only
    generalize hst : (⟨k.status.linkIn && !decide (k.inExpire < now),
      k.status.linkOut && !decide (k.outExpire < now)⟩ : LinkStatus) = st
    generalize hf : (fun l : ImepLink => { l with status := st }) = f
    have hfi : ∀ k, (f k).index = k.index := by
      intro k
      rw [← hf]
    have hfs : ∀ k, (f k).status = st := by
      intro k
      rw [← hf]
    have huniq : ((a.updateLink index f).imepLinkHead.map (·.index)).Nodup := by
      rw [updateLink_index hfi]
      exact ha.linked.uniq
    -- the other links stay as they are
    have hother : ∀ r ∈ a.rexmitq, ∀ n ∈ r.responses, n ≠ index →
        ∃ k ∈ (a.updateLink index f).imepLinkHead, k.index = n ∧ k.status = linkBi := by
      intro r hr n hn hne
      obtain ⟨k', hk', hkn, hks⟩ := ha.linked.bi r hr n hn
      refine ⟨k', mem_map.mpr ⟨k', hk', ?_⟩, hkn, hks⟩
      rw [if_neg (by rw [hkn]; exact hne)]
    have hkf : f k ∈ (a.updateLink index f).imepLinkHead :=
      mem_map.mpr ⟨k, hk, by rw [if_pos hindex]⟩
    -- a link that is down is forgotten
    have hkeep : ∀ {b : Sender}, (b.imepLinkHead.map (·.index)).Nodup →
        (∀ r ∈ b.rexmitq, ∀ n ∈ r.responses,
          ∃ k ∈ b.imepLinkHead, k.index = n ∧ k.status = linkBi) →
        Linked { b with imepLinkHead :=
          b.imepLinkHead.filter (fun l => ¬ (l.index = index ∧ l.status = linkDown)) } := by
      intro b hb hbi
      refine ⟨hb.sublist (filter_sublist.map _), ?_⟩
      intro r hr n hn
      obtain ⟨k', hk', hkn, hks⟩ := hbi r hr n hn
      refine ⟨k', mem_filter.mpr ⟨hk', ?_⟩, hkn, hks⟩
      rw [hks]
      simp [linkBi, linkDown]
    by_cases hdown : k.status = linkBi ∧ st ≠ linkBi
    · rw [if_pos hdown]
      have hexpired : k.inExpire < now ∨ k.outExpire < now := by
        by_contra hnot
        push Not at hnot
        refine hdown.2 ?_
        rw [← hst, hdown.1, decide_eq_false (not_lt.mpr hnot.1),
          decide_eq_false (not_lt.mpr hnot.2)]
        rfl
      have hclear := hclear k hk hindex hdown.1 hexpired
      obtain ⟨ho, hq, hseq, hlinked, hgone⟩ :=
        setLinkDown_spec huniq hother ha.orderly hclear hkf ((hfi k).trans hindex)
      rw [ho]
      refine ⟨ha.filterMap (hkeep hlinked.uniq hlinked.bi) hq hseq
        (takes_removeResponse ha.orderly hclear) ?_, ?_, by simp⟩
      · intro r hr
        exact (ha.orderly.list r hr).2.erase index
      · intro p l log h
        exact h.down ha hclear hq hseq
    · rw [if_neg hdown]
      refine Advance.quiet (hkeep huniq ?_) ha rfl rfl
      intro r hr n hn
      by_cases hne : n = index
      · -- the neighbour waits, so its link was and is of both directions
        obtain ⟨k', hk', hkn, hks⟩ := ha.linked.bi r hr n hn
        obtain rfl : k' = k :=
          inj_on_of_nodup_map ha.linked.uniq hk' hk (by rw [hkn, hne, hindex])
        refine ⟨f k', hkf, (hfi k').trans hkn, ?_⟩
        rw [hfs]
        by_contra hst'
        exact hdown ⟨hks, hst'⟩
      · exact hother r hr n hn hne

theorem Orderly.replace {rs : List Rexent} (h : Orderly (r :: rs)) (hnum : r'.number = r.number)
    (hlist : r'.responses = r.responses) : Orderly (r' :: rs) := by
  obtain ⟨hseqs, hrest⟩ := h
  refine ⟨?_, ?_⟩
  · rw [map_cons] at hseqs ⊢
    unfold Rexent.obSequence at hseqs ⊢
    rw [hnum]
    exact hseqs
  · intro r'' hr''
    rcases mem_cons.mp hr'' with rfl | hr''
    · have hr := hrest r mem_cons_self
      rw [← Rexent.length_responses, hlist, Rexent.length_responses]
      exact hr
    · exact hrest r'' (mem_cons_of_mem _ hr'')

/-- The first packet is sent once more and goes to its new place. -/
theorem rexmit_spec {rs : List Rexent} (ha : Sound a) (hq : a.rexmitq = r :: rs)
    (hleft : r.rexmitsLeft ≠ 0) (hnum : r'.number = r.number) (hlist : r'.responses = r.responses)
    (hleft' : r'.rexmitsLeft = r.rexmitsLeft - 1) (hlinks : a'.imepLinkHead = a.imepLinkHead)
    (hq' : a'.rexmitq.Perm (r' :: rs)) (hseq : a'.controlSequence = a.controlSequence) :
    Advance a a' [.rexmit r.number] := by
  have horderly := ha.orderly
  rw [hq] at horderly
  have hmem : ∀ r'' ∈ a'.rexmitq, r'' = r' ∨ r'' ∈ rs := fun r'' hr'' =>
    mem_cons.mp (hq'.mem_iff.mp hr'')
  have hrs : ∀ r'' ∈ rs, r'' ∈ a.rexmitq := by
    intro r'' hr''
    rw [hq]
    exact mem_cons_of_mem _ hr''
  have hr : r ∈ a.rexmitq := by
    rw [hq]
    exact mem_cons_self
  refine ⟨⟨⟨hlinks ▸ ha.linked.uniq, ?_⟩, (horderly.replace hnum hlist).perm hq', ?_⟩, ?_, by simp⟩
  · intro r'' hr'' n hn
    rw [hlinks]
    rcases hmem r'' hr'' with rfl | hr''
    · exact ha.linked.bi r hr n (hlist ▸ hn)
    · exact ha.linked.bi r'' (hrs r'' hr'') n hn
  · intro r'' hr''
    rw [hseq]
    rcases hmem r'' hr'' with rfl | hr''
    · rw [hnum]
      exact ha.old r hr
    · exact ha.old r'' (hrs r'' hr'')
  · intro p l log h
    refine h.concat ?_ (le_of_eq hseq.symm) (fun ns => nofun)
    refine Owed.perm ?_ hq'
    rcases h.owed with ⟨r₀, hr₀, hnum₀, hperm, hcount⟩ | ⟨hnone, hempty⟩
    · by_cases hp : r.number = p
      · obtain rfl : r₀ = r := ha.orderly.eq hr₀ hr (hnum₀.trans hp.symm)
        refine Or.inl ⟨r', mem_cons_self, hnum.trans hp, hlist ▸ hperm, ?_⟩
        rw [hp, count_singleton_self]
        omega
      · rw [hq] at hr₀
        rcases mem_cons.mp hr₀ with rfl | hr₀
        · exact absurd hnum₀ hp
        · refine Or.inl ⟨r₀, mem_cons_of_mem _ hr₀, hnum₀, hperm, ?_⟩
          rw [count_singleton, if_neg (by simpa using hp)]
          exact hcount
    · refine Or.inr ⟨?_, hempty⟩
      intro r'' hr''
      rcases mem_cons.mp hr'' with rfl | hr''
      · rw [hnum]
        exact hnone r hr
      · exact hnone r'' (hrs r'' hr'')

theorem Track.timeout_down {n : ℕ} (h : Track a p l log) (ha : Sound a) (hr : r ∈ a.rexmitq)
    (hleft : r.rexmitsLeft = 0) (hlist : r.responses = [n])
    (hclear : ∀ r ∈ a.rexmitq, r.Clear n)
    (hq : a'.rexmitq = a.rexmitq.filterMap (·.removeResponse n))
    (hseq : a'.controlSequence = a.controlSequence) :
    Track a' p l (log ++ [.timeout r.number [n], .down n]) := by
  have howed := (h.down ha hclear hq hseq).owed
  rw [owes_append] at howed
  refine ⟨?_, by rw [hseq]; exact h.old, ?_⟩
  · rw [owes_append]
    have hcount : (log ++ [Action.timeout r.number [n], .down n]).count (.rexmit p) =
        (log ++ [Action.down n]).count (.rexmit p) := by
      rw [List.count_append, List.count_append]
      rfl
    rw [hcount]
    exact howed
  · intro mid ns rest heq
    rcases eq_nil_or_concat rest with rfl | ⟨rest', y, rfl⟩
    · have hlast := congrArg List.getLast? heq
      rw [getLast?_append, getLast?_append] at hlast
      cases hlast
    rw [concat_eq_append, ← cons_append, ← append_assoc,
      show log ++ [Action.timeout r.number [n], .down n] =
        (log ++ [.timeout r.number [n]]) ++ [.down n] by simp] at heq
    obtain ⟨hlog, hy⟩ := append_inj' heq rfl
    rcases eq_nil_or_concat rest' with rfl | ⟨rest'', y', rfl⟩
    · obtain ⟨rfl, hx⟩ := append_inj' hlog rfl
      obtain ⟨hnum, rfl⟩ := Action.timeout.inj (singleton_inj.mp hx)
      refine ⟨?_, ?_, ?_⟩
      · rcases h.owed with ⟨r₀, hr₀, hnum₀, hperm, -⟩ | ⟨hnone, -⟩
        · rw [ha.orderly.eq hr₀ hr (hnum₀.trans hnum.symm), hlist] at hperm
          exact hperm
        · exact absurd hnum (hnone r hr)
      · rcases h.owed with ⟨r₀, hr₀, hnum₀, -, hcount⟩ | ⟨hnone, -⟩
        · rw [ha.orderly.eq hr₀ hr (hnum₀.trans hnum.symm), hleft] at hcount
          omega
        · exact absurd hnum (hnone r hr)
      · rw [← singleton_inj.mp hy]
        exact prefix_refl _
    · rw [concat_eq_append, ← cons_append, ← append_assoc] at hlog
      obtain ⟨hlog, -⟩ := append_inj' hlog rfl
      obtain ⟨hperm, hcount, hstart⟩ := h.timeout mid ns rest'' hlog
      refine ⟨hperm, hcount, hstart.trans ?_⟩
      rw [concat_eq_append, concat_eq_append, append_assoc]
      exact prefix_append ..

namespace Rexmit

/-- The event does not run into the defects: a word behind a response list is not taken for a neighbour,
only one neighbour is left when a packet times out, and a packet is sent to fewer than 32 neighbours,
with a sequence number that no packet in the queue has. -/
def Safe (a : Sender) : Event → Prop
  | .send _ _ => (a.imepLinkHead.filter (·.status = linkBi)).length < 32 ∧
      ∀ r ∈ a.rexmitq, r.obSequence ≠ (a.controlSequence + 1) % 256
  | .ack _ seqno src => ∀ r ∈ a.rexmitq, r.obSequence = seqno → r.Clear src
  | .linkIn _ _ => True
  | .linkBi _ _ => True
  | .linkDown index => (a.findLink index).isSome → ∀ r ∈ a.rexmitq, r.Clear index
  | .purgeLink now index => ∀ k ∈ a.imepLinkHead, k.index = index → k.status = linkBi →
      (k.inExpire < now ∨ k.outExpire < now) → ∀ r ∈ a.rexmitq, r.Clear index
  | .rexmitTimer _ => ∀ r ∈ a.rexmitq.head?, r.rexmitsLeft = 0 →
      r.numResponses = 1 ∧ ∀ r' ∈ a.rexmitq, r'.Clear (r.resp 0)

end Rexmit

open Rexmit

/-- An expiry sends again what is due, and gives up what was sent often enough. -/
theorem rexmitTimer_spec (ha : Sound a) (hsafe : Rexmit.Safe a (.rexmitTimer now)) :
    Advance a (a.handlerReXmitTimer now).1 (a.handlerReXmitTimer now).2 := by
  unfold Sender.handlerReXmitTimer
  cases hq : a.rexmitq with
  | nil => exact Advance.quiet ha.linked ha rfl rfl
  | cons r rs =>
    have hr : r ∈ a.rexmitq := by
      rw [hq]
      exact mem_cons_self
    have hsafe := hsafe r (by rw [hq]; exact head?_cons)
    dsimp only
    split
    · -- the last neighbour is given up
      rename_i hleft
      obtain ⟨hone, hclear⟩ := hsafe hleft
      have hlist : r.responses = [r.resp 0] := by
        unfold Rexent.responses
        rw [hone]
        rfl
      obtain ⟨k, hk, hkn, -⟩ := ha.linked.bi r hr (r.resp 0)
        (hlist ▸ mem_singleton_self _)
      obtain ⟨ho, hq', hseq, hlinked, -⟩ := setLinkDown_spec ha.linked.uniq
        (fun r hr n hn _ => ha.linked.bi r hr n hn) ha.orderly hclear hk hkn
      have hfind : a.rexmitq.find? (·.number = r.number) = some r := by
        rw [hq]
        exact find?_cons_of_pos (by simp)
      have hpunt : Sender.punt r.number r.numResponses 0 a =
          ((a.imepSetLinkDownStatus (r.resp 0)).1, [r.resp 0], [.down (r.resp 0)]) := by
        rw [hone, Sender.punt, hfind]
        dsimp only
        rw [if_pos (by omega), ho]
        rfl
      rw [hpunt]
      refine ⟨ha.filterMap hlinked hq' hseq (takes_removeResponse ha.orderly hclear) ?_, ?_,
        by simp⟩
      · intro r' hr'
        exact (ha.orderly.list r' hr').2.erase _
      · intro p l log h
        exact h.timeout_down ha hr hleft hlist hclear hq' hseq
    split
    · rename_i hleft hat
      refine rexmit_spec ha hq hleft ?_ ?_ ?_ rfl (insertRexent_perm _ _) rfl
      · rfl
      · rfl
      · rfl
    · exact Advance.quiet ha.linked ha rfl rfl

/-- The step lemma: what the handlers do to the queue is what the log says. -/
theorem step_advance {e : Rexmit.Event} (ha : Sound a) (hsafe : Rexmit.Safe a e) (hstep : Rexmit.step a e = some (a', o)) :
    Advance a a' o := by
  cases e with
  | send now behind =>
    have hadv := @send_spec a now behind ha hsafe.1 hsafe.2
    rwa [Option.some.inj hstep] at hadv
  | ack now seqno src =>
    have hadv := @ack_spec seqno src a now ha hsafe
    rwa [Option.some.inj hstep] at hadv
  | linkIn now index =>
    obtain ⟨rfl, rfl⟩ := Prod.mk.inj (Option.some.inj hstep)
    exact Advance.quiet ha.linked.setLinkIn ha setLinkIn_rexmitq setLinkIn_controlSequence
  | linkBi now index =>
    obtain ⟨rfl, rfl⟩ := Prod.mk.inj (Option.some.inj hstep)
    exact Advance.quiet ha.linked.setLinkBi ha setLinkBi_rexmitq setLinkBi_controlSequence
  | linkDown index =>
    have hadv := linkDown_spec ha hsafe
    rwa [Option.some.inj hstep] at hadv
  | purgeLink now index =>
    have hadv := purgeLink_spec ha hsafe
    rwa [Option.some.inj hstep] at hadv
  | rexmitTimer now =>
    have hadv := rexmitTimer_spec ha hsafe
    rwa [Option.some.inj hstep] at hadv

/-! ## Runs -/

def Sender.init : Sender := { imepLinkHead := [], rexmitq := [], controlSequence := 0 }

/-- What the log promises about every packet `p` that was sent to `l`: while a neighbour owes an
acknowledgement, the packet is in the queue and lists those that do; otherwise it has left. A packet
times out after `MAX_REXMITS` transmissions, and the links that are taken down are those of the neighbours
that owe an acknowledgement then. -/
def Retransmits (a : Sender) (log : List Action) : Prop :=
  ∀ before p l after, log = before ++ .sent p l :: after →
    ((∃ r ∈ a.rexmitq, r.number = p ∧ r.responses.Perm (owes (p % 256) l after) ∧
        r.numResponses = (owes (p % 256) l after).length ∧ owes (p % 256) l after ≠ []) ∨
      (∀ r ∈ a.rexmitq, r.number ≠ p) ∧ owes (p % 256) l after = []) ∧
    ∀ mid ns rest, after = mid ++ .timeout p ns :: rest →
      ns.Perm (owes (p % 256) l mid) ∧ mid.count (.rexmit p) = maxRexmits ∧
        ns.map .down <+: rest

/-- The state and the log between two events. -/
structure Tracked (os : List (List Action)) (a : Sender) : Prop where
  sound : Sound a
  track : ∀ before p l after, os.flatten = before ++ .sent p l :: after → Track a p l after

theorem Tracked.init : Tracked [] Sender.init := by
  refine ⟨⟨⟨nodup_nil, by nofun⟩, ⟨nodup_nil, by nofun⟩, by nofun⟩, ?_⟩
  intro before p l after h
  rw [flatten_nil, nil_eq_append_iff] at h
  cases h.2

theorem Tracked.advance {os : List (List Action)} (h : Tracked os a) (hadv : Advance a a' o) :
    Tracked (os ++ [o]) a' := by
  refine ⟨hadv.sound, ?_⟩
  intro before p l after heq
  rw [flatten_append, flatten_singleton, append_eq_append_iff] at heq
  rcases heq with ⟨new, hbefore, ho⟩ | ⟨old, hflat, hnew⟩
  · -- the packet was sent in this step
    obtain ⟨hone, htrack⟩ := hadv.sent p l (by rw [ho]; simp)
    rw [hone] at ho
    have hlen := congrArg List.length ho
    rw [length_singleton, length_append, length_cons] at hlen
    obtain rfl : after = [] := length_eq_zero_iff.mp (by omega)
    exact htrack
  · cases old with
    | nil =>
      rw [nil_append] at hnew
      obtain ⟨hone, htrack⟩ := hadv.sent p l (by rw [← hnew]; exact mem_cons_self)
      rw [hone] at hnew
      obtain ⟨-, rfl⟩ := List.cons.inj hnew
      exact htrack
    | cons x old =>
      obtain ⟨rfl, rfl⟩ := List.cons.inj hnew
      exact hadv.track p l old (h.track before p l old hflat)

theorem Tracked.retransmits {os : List (List Action)} (h : Tracked os a) :
    Retransmits a os.flatten := by
  intro before p l after heq
  obtain ⟨howed, -, htimeout⟩ := h.track before p l after heq
  refine ⟨?_, htimeout⟩
  rcases howed with ⟨r, hr, hnum, hperm, -⟩ | hgone
  · have hlen : r.numResponses = (owes (p % 256) l after).length := by
      rw [← r.length_responses, hperm.length_eq]
    refine Or.inl ⟨r, hr, hnum, hperm, hlen, ?_⟩
    rw [← length_pos_iff, ← hlen]
    exact (h.sound.orderly.list r hr).1
  · exact Or.inr hgone

/-- **IMEP retransmits until everyone has acknowledged**, in every run that does not run into the
defects. -/
theorem imep_retransmits {evs : List Rexmit.Event} {os : List (List Action)}
    (hok : Runs.Meets Rexmit.step Rexmit.Safe Sender.init evs)
    (hrun : Runs.run Rexmit.step Sender.init evs = some (a, os)) : Retransmits a os.flatten := by
  have h := @Runs.run_preserves _ _ _ Rexmit.step Rexmit.Safe Sender.init a evs os [] Tracked
    (fun os a e a' o h hok hstep => h.advance (step_advance h.sound hok hstep)) Tracked.init hok hrun
  exact h.retransmits

instance (r : Rexent) (index : ℕ) : Decidable (r.Clear index) :=
  inferInstanceAs (Decidable (index ∈ r.responses ∨ r.resp r.numResponses ≠ index))

instance decidableRexmitSafe (a : Sender) : ∀ e, Decidable (Rexmit.Safe a e)
  | .send _ _ => inferInstanceAs (Decidable
      ((a.imepLinkHead.filter (·.status = linkBi)).length < 32 ∧
        ∀ r ∈ a.rexmitq, r.obSequence ≠ (a.controlSequence + 1) % 256))
  | .ack _ seqno src => inferInstanceAs (Decidable
      (∀ r ∈ a.rexmitq, r.obSequence = seqno → r.Clear src))
  | .linkIn _ _ => inferInstanceAs (Decidable True)
  | .linkBi _ _ => inferInstanceAs (Decidable True)
  | .linkDown index => inferInstanceAs (Decidable
      ((a.findLink index).isSome → ∀ r ∈ a.rexmitq, r.Clear index))
  | .purgeLink now index => inferInstanceAs (Decidable
      (∀ k ∈ a.imepLinkHead, k.index = index → k.status = linkBi →
        (k.inExpire < now ∨ k.outExpire < now) → ∀ r ∈ a.rexmitq, r.Clear index))
  | .rexmitTimer _ => inferInstanceAs (Decidable
      (∀ r ∈ a.rexmitq.head?, r.rexmitsLeft = 0 →
        r.numResponses = 1 ∧ ∀ r' ∈ a.rexmitq, r'.Clear (r.resp 0)))

/-- Two of three neighbours acknowledge a packet, the third is taken down in the end. -/
theorem imep_retransmits_three :
    ∃ a os, Runs.run Rexmit.step Sender.init [.linkBi 0 1, .linkBi 0 2, .linkBi 0 3, .send 0 (fun _ => 0),
        .ack 0 1 2, .rexmitTimer (1 / 2), .rexmitTimer 1, .ack 1 1 3, .rexmitTimer (3 / 2)] =
        some (a, os) ∧
      os.flatten = [.sent 1 [3, 2, 1], .acked 1 2, .rexmit 1, .rexmit 1, .acked 1 3, .timeout 1 [1],
        .down 1] ∧
      Retransmits a os.flatten := by
  have hrun : (Runs.run Rexmit.step Sender.init [.linkBi 0 1, .linkBi 0 2, .linkBi 0 3,
      .send 0 (fun _ => 0), .ack 0 1 2, .rexmitTimer (1 / 2), .rexmitTimer 1, .ack 1 1 3,
      .rexmitTimer (3 / 2)]).map (fun r => r.2.flatten) =
        some [.sent 1 [3, 2, 1], .acked 1 2, .rexmit 1, .rexmit 1, .acked 1 3, .timeout 1 [1],
          .down 1] := by
    decide +kernel
  obtain ⟨⟨a, os⟩, heq, hlog⟩ := Option.map_eq_some_iff.mp hrun
  exact ⟨a, os, heq, hlog, imep_retransmits (by decide +kernel) heq⟩

/-- A neighbour acknowledges twice, and the packet leaves the queue although the other one did not. Two
neighbours do not answer, and only one link is taken down. There are 32 neighbours, and nobody has to
acknowledge. -/
theorem leaves_or_stays :
    (∃ a os, Runs.run Rexmit.step Sender.init [.linkBi 0 1, .linkBi 0 2, .send 0 (fun _ => 0), .ack 0 1 1,
        .ack 0 1 1] = some (a, os) ∧ ¬ Retransmits a os.flatten) ∧
    (∃ a os, Runs.run Rexmit.step Sender.init [.linkBi 0 1, .linkBi 0 2, .send 0 (fun _ => 0),
        .rexmitTimer (1 / 2), .rexmitTimer 1, .rexmitTimer (3 / 2)] = some (a, os) ∧
      ¬ Retransmits a os.flatten) ∧
    ∃ a os, Runs.run Rexmit.step Sender.init ((List.range 32).map (Rexmit.Event.linkBi 0) ++
        [.send 0 (fun _ => 0)]) = some (a, os) ∧ ¬ Retransmits a os.flatten := by
  refine ⟨?_, ?_, ?_⟩
  · have hrun : (Runs.run Rexmit.step Sender.init [.linkBi 0 1, .linkBi 0 2, .send 0 (fun _ => 0),
        .ack 0 1 1, .ack 0 1 1]).map (fun r => (r.2.flatten, r.1.rexmitq.length)) =
          some ([.sent 1 [2, 1], .acked 1 1, .acked 1 1], 0) := by decide +kernel
    obtain ⟨⟨a, os⟩, heq, hlog⟩ := Option.map_eq_some_iff.mp hrun
    obtain ⟨hlog, hq⟩ := Prod.mk.inj hlog
    refine ⟨a, os, heq, fun h => ?_⟩
    rcases (h [] 1 [2, 1] [.acked 1 1, .acked 1 1] hlog).1 with ⟨r, hr, -⟩ | ⟨-, howes⟩
    · rw [length_eq_zero_iff.mp hq] at hr
      cases hr
    · exact absurd howes (by decide)
  · have hrun : (Runs.run Rexmit.step Sender.init [.linkBi 0 1, .linkBi 0 2, .send 0 (fun _ => 0),
        .rexmitTimer (1 / 2), .rexmitTimer 1, .rexmitTimer (3 / 2)]).map (fun r => r.2.flatten) =
          some [.sent 1 [2, 1], .rexmit 1, .rexmit 1, .timeout 1 [2], .down 2] := by decide +kernel
    obtain ⟨⟨a, os⟩, heq, hlog⟩ := Option.map_eq_some_iff.mp hrun
    refine ⟨a, os, heq, fun h => ?_⟩
    have htimeout := (h [] 1 [2, 1] [.rexmit 1, .rexmit 1, .timeout 1 [2], .down 2] hlog).2
    exact absurd (htimeout [.rexmit 1, .rexmit 1] [2] [.down 2] rfl).1.length_eq (by decide)
  · have hrun : (Runs.run Rexmit.step Sender.init ((List.range 32).map (Rexmit.Event.linkBi 0) ++
        [.send 0 (fun _ => 0)])).map (fun r => (r.2.flatten, r.1.rexmitq.length)) =
          some ([.sent 1 (List.range 32).reverse], 0) := by decide +kernel
    obtain ⟨⟨a, os⟩, heq, hlog⟩ := Option.map_eq_some_iff.mp hrun
    obtain ⟨hlog, hq⟩ := Prod.mk.inj hlog
    refine ⟨a, os, heq, fun h => ?_⟩
    rcases (h [] 1 (List.range 32).reverse [] hlog).1 with ⟨r, hr, -⟩ | ⟨-, howes⟩
    · rw [length_eq_zero_iff.mp hq] at hr
      cases hr
    · exact absurd howes (by decide)

end NetSim.Imep
