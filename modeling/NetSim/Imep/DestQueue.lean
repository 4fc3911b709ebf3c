import NetSim.Imep.Incoming
import Mathlib.Algebra.Order.Ring.Rat
import Mathlib.Data.List.Basic

/-! # IMEP: the resequencing queue

What the operations of the resequencing queue do to the entry of one destination.
-/

namespace NetSim.Imep

open List

/-! ## The entry of a destination -/

/-- The entry of the destination `i`. -/
def look (q : List Dstent) (i : ℕ) : Option Dstent := q.find? (·.ipaddr = i)

/-- The packets that wait for the destination `i`. -/
def txents (q : List Dstent) (i : ℕ) : List Txent := ((look q i).map (·.txents)).getD []

/-- The start of the chain that the timer follows for the destination `i`. -/
def chainSeq (q : List Dstent) (i : ℕ) : ℕ := ((look q i).map (·.seqno)).getD illegalSeq

variable {q q' : List Dstent} {d d' : Dstent} {ds : List Dstent} {i j dst s : ℕ} {t : Txent}
  {f : Dstent → Dstent} {now : ℚ}

theorem look_cons_self (h : d.ipaddr = i) : look (d :: ds) i = some d := by
  unfold look
  rw [find?_cons_of_pos (by simpa using h)]

theorem look_cons_other (h : d.ipaddr ≠ i) : look (d :: ds) i = look ds i := by
  unfold look
  rw [find?_cons_of_neg (by simpa using h)]

theorem look_eq_none (h : i ∉ q.map (·.ipaddr)) : look q i = none := by
  unfold look
  rw [find?_eq_none]
  intro d hd
  simp only [decide_eq_true_eq]
  rintro rfl
  exact h (mem_map_of_mem hd)

theorem updateDst_ipaddr (hf : ∀ d, (f d).ipaddr = d.ipaddr) :
    (updateDst dst f q).map (·.ipaddr) = q.map (·.ipaddr) := by
  induction q with
  | nil => rfl
  | cons d q ih =>
    rw [updateDst]
    split
    · rw [map_cons, map_cons, hf]
    · rw [map_cons, map_cons, ih]

theorem look_updateDst_self (hf : ∀ d, (f d).ipaddr = d.ipaddr) :
    look (updateDst dst f q) dst = (look q dst).map f := by
  induction q with
  | nil => rfl
  | cons d q ih =>
    rw [updateDst]
    by_cases h : d.ipaddr = dst
    · rw [if_pos h, look_cons_self ((hf d).trans h), look_cons_self h, Option.map_some]
    · rw [if_neg h, look_cons_other h, look_cons_other h, ih]

theorem look_updateDst_other (hf : ∀ d, (f d).ipaddr = d.ipaddr) (h : dst ≠ i) :
    look (updateDst dst f q) i = look q i := by
  induction q with
  | nil => rfl
  | cons d q ih =>
    rw [updateDst]
    by_cases hd : d.ipaddr = dst
    · have hi : d.ipaddr ≠ i := fun heq => h (hd.symm.trans heq)
      rw [if_pos hd, look_cons_other (by rwa [hf]), look_cons_other hi]
    · rw [if_neg hd]
      by_cases hi : d.ipaddr = i
      · rw [look_cons_self hi, look_cons_self hi]
      · rw [look_cons_other hi, look_cons_other hi, ih]

/-! ## Operations on the queue -/

theorem getPacket_spec {p : Packet} (h : getPacket q dst s = some (p, q')) :
    q'.map (·.ipaddr) = q.map (·.ipaddr) ∧ (∀ j, dst ≠ j → look q' j = look q j) ∧
      chainSeq q' dst = chainSeq q dst ∧ txents q' dst = (txents q dst).eraseP (·.seqno = s) ∧
      ∃ t, (txents q dst).find? (·.seqno = s) = some t ∧ t.pkt = p := by
  obtain ⟨d, hd, h⟩ := Option.bind_eq_some_iff.mp h
  obtain ⟨t, ht, heq⟩ := Option.map_eq_some_iff.mp h
  cases heq
  have hlook : look q dst = some d := hd
  have hself := @look_updateDst_self q dst
    (fun d => { d with txents := d.txents.eraseP (·.seqno = s) }) (fun _ => rfl)
  refine ⟨updateDst_ipaddr (fun _ => rfl), fun j hj => look_updateDst_other (fun _ => rfl) hj,
    ?_, ?_, t, ?_, rfl⟩
  · unfold chainSeq
    rw [hself, hlook]
    rfl
  · unfold txents
    rw [hself, hlook]
    rfl
  · unfold txents
    rw [hlook]
    exact ht

theorem getPacket_none (h : getPacket q dst s = none) : ∀ t ∈ txents q dst, t.seqno ≠ s := by
  intro t ht heq
  unfold txents at ht
  unfold getPacket at h
  cases hlook : look q dst with
  | none =>
    rw [hlook] at ht
    exact absurd ht not_mem_nil
  | some d =>
    rw [hlook] at ht
    have hfind : q.find? (·.ipaddr = dst) = some d := hlook
    rw [hfind, Option.bind_some, Option.map_eq_none_iff] at h
    unfold Dstent.findEntry at h
    rw [find?_eq_none] at h
    exact h t ht (by simpa using heq)

/-- A packet is added to its destination only, unless its number is there. -/
theorem addEntry_spec (q : List Dstent) (dst : ℕ) (t : Txent) :
    ((q.map (·.ipaddr)).Nodup → ((addEntry q dst t).map (·.ipaddr)).Nodup) ∧
      (∀ j, dst ≠ j → look (addEntry q dst t) j = look q j) ∧
      chainSeq (addEntry q dst t) dst = chainSeq q dst ∧
      (txents (addEntry q dst t) dst = txents q dst ∧ (∃ u ∈ txents q dst, u.seqno = t.seqno) ∨
        txents (addEntry q dst t) dst = insertEntry t (txents q dst) ∧
          ∀ u ∈ txents q dst, u.seqno ≠ t.seqno) := by
  have hip : ∀ d : Dstent, (d.addEntry t).ipaddr = d.ipaddr := by
    intro d
    unfold Dstent.addEntry
    split <;> rfl
  have hseq : ∀ d : Dstent, (d.addEntry t).seqno = d.seqno := by
    intro d
    unfold Dstent.addEntry
    split <;> rfl
  have hadd : ∀ d : Dstent,
      (d.addEntry t).txents = d.txents ∧ (∃ u ∈ d.txents, u.seqno = t.seqno) ∨
        (d.addEntry t).txents = insertEntry t d.txents ∧ ∀ u ∈ d.txents, u.seqno ≠ t.seqno := by
    intro d
    unfold Dstent.addEntry Dstent.findEntry
    split
    · rename_i hsome
      rw [find?_isSome] at hsome
      obtain ⟨u, hu, heq⟩ := hsome
      exact Or.inl ⟨rfl, u, hu, by simpa using heq⟩
    · rename_i hnone
      rw [find?_isSome] at hnone
      exact Or.inr ⟨rfl, fun u hu heq => hnone ⟨u, hu, by simpa using heq⟩⟩
  unfold addEntry
  split
  · rename_i hsome
    obtain ⟨d, hd⟩ := Option.isSome_iff_exists.mp hsome
    have hlook : look q dst = some d := hd
    have hself := @look_updateDst_self q dst (·.addEntry t) hip
    refine ⟨fun h => by rwa [updateDst_ipaddr hip], fun j hj => look_updateDst_other hip hj, ?_, ?_⟩
    · unfold chainSeq
      rw [hself, hlook]
      exact hseq d
    · unfold txents
      rw [hself, hlook]
      exact hadd d
  · rename_i hnone
    have hlook : look q dst = none := Option.not_isSome_iff_eq_none.mp hnone
    have hself : look (({ ipaddr := dst, txents := [], seqno := illegalSeq } : Dstent).addEntry t ::
        q) dst = some (({ ipaddr := dst, txents := [], seqno := illegalSeq } : Dstent).addEntry t) :=
      look_cons_self (hip _)
    refine ⟨?_, fun j hj => look_cons_other (by rwa [hip]), ?_, ?_⟩
    · intro h
      rw [map_cons, nodup_cons, hip]
      refine ⟨?_, h⟩
      intro hmem
      obtain ⟨d, hd, heq⟩ := mem_map.mp hmem
      unfold look at hlook
      rw [find?_eq_none] at hlook
      exact hlook d hd (by simpa using heq)
    · unfold chainSeq
      rw [hself, hlook]
      exact hseq _
    · unfold txents
      rw [hself, hlook]
      exact hadd _

theorem foldl_expire {α : Type} (f : α → ℚ) (xs : List α) (min : ℚ) :
    let r := xs.foldl (fun min x => if min = 0 ∨ (f x ≠ 0 ∧ f x < min) then f x else min) min
    (r = min ∨ ∃ x ∈ xs, r = f x) ∧ (min ≠ 0 → r ≠ 0 ∧ r ≤ min) ∧
      ∀ x ∈ xs, f x ≠ 0 → r ≠ 0 ∧ r ≤ f x := by
  induction xs generalizing min with
  | nil => exact ⟨Or.inl rfl, fun h => ⟨h, le_rfl⟩, fun x hx => by cases hx⟩
  | cons y ys ih =>
    simp only [foldl_cons]
    obtain ⟨hmem, hmin, hall⟩ := ih (if min = 0 ∨ (f y ≠ 0 ∧ f y < min) then f y else min)
    refine ⟨?_, ?_, ?_⟩
    · rcases hmem with heq | ⟨x, hx, heq⟩
      · rw [heq]
        split
        · exact Or.inr ⟨y, mem_cons_self, rfl⟩
        · exact Or.inl rfl
      · exact Or.inr ⟨x, mem_cons_of_mem _ hx, heq⟩
    · intro hne
      split at hmin
      · rename_i hc
        obtain ⟨hy, hlt⟩ := hc.resolve_left hne
        obtain ⟨hr, hle⟩ := hmin hy
        rw [if_pos (Or.inr ⟨hy, hlt⟩)]
        exact ⟨hr, hle.trans (le_of_lt hlt)⟩
      · rename_i hc
        rw [if_neg hc]
        exact hmin hne
    · intro x hx hne
      rcases mem_cons.mp hx with rfl | hx
      · split at hmin
        · rename_i hc
          rw [if_pos hc]
          exact hmin hne
        · rename_i hc
          rw [if_neg hc]
          push Not at hc
          obtain ⟨hr, hle⟩ := hmin hc.1
          exact ⟨hr, hle.trans (hc.2 hne)⟩
      · exact hall x hx hne

theorem expire_mem (h : d.expire ≠ 0) : ∃ e ∈ d.txents, d.expire = e.expire :=
  (foldl_expire Txent.expire d.txents 0).1.resolve_left h

theorem expire_le {e : Txent} (he : e ∈ d.txents) (hne : e.expire ≠ 0) :
    d.expire ≠ 0 ∧ d.expire ≤ e.expire :=
  (foldl_expire Txent.expire d.txents 0).2.2 e he hne

theorem getNextExpire_le {e : Txent} (he : e ∈ txents q i) (hne : e.expire ≠ 0) :
    getNextExpire q ≠ 0 ∧ getNextExpire q ≤ e.expire := by
  unfold txents at he
  cases hlook : look q i with
  | none =>
    rw [hlook] at he
    cases he
  | some d =>
    rw [hlook] at he
    obtain ⟨hd, hle⟩ := expire_le (d := d) he hne
    obtain ⟨hq, hle'⟩ := (foldl_expire Dstent.expire q 0).2.2 d (mem_of_find?_eq_some hlook) hd
    exact ⟨hq, hle'.trans hle⟩

/-- A packet leaves a destination when one there has expired, or as the next one of its chain. -/
theorem pull_spec {r : Option Txent} (h : d.pull now = some (d', r)) :
    d'.ipaddr = d.ipaddr ∧
      (r = none → d'.txents = d.txents ∧ d'.seqno = illegalSeq) ∧
      ∀ t, r = some t → d.txents = t :: d'.txents ∧
        (d'.seqno = t.seqno ∨ d'.seqno = illegalSeq) ∧
        ((∃ e ∈ d.txents, e.expire ≤ now) ∨
          d.seqno ≠ illegalSeq ∧ t.seqno = (d.seqno + 1) % 256) := by
  unfold Dstent.pull at h
  cases hts : d.txents with
  | nil =>
    rw [hts] at h
    cases h
    exact ⟨rfl, fun _ => ⟨rfl, rfl⟩, fun t ht => by cases ht⟩
  | cons t ts =>
    rw [hts] at h
    dsimp only at h
    split at h
    · cases h
    rename_i hzero
    obtain ⟨e, he, hmin⟩ := expire_mem hzero
    rw [hts] at he
    split at h
    · rename_i hlater
      cases h
      exact ⟨rfl, fun _ => ⟨hts, hlater.2⟩, fun t ht => by cases ht⟩
    rename_i hnow
    split at h
    · rename_i hexp
      cases h
      refine ⟨rfl, (fun hnone => by cases hnone), ?_⟩
      rintro u ⟨⟩
      exact ⟨rfl, Or.inl rfl, Or.inl ⟨t, mem_cons_self, hexp⟩⟩
    split at h
    · rename_i hillegal
      cases h
      refine ⟨rfl, (fun hnone => by cases hnone), ?_⟩
      rintro u ⟨⟩
      refine ⟨rfl, Or.inr hillegal, Or.inl ⟨e, he, ?_⟩⟩
      rw [← hmin]
      exact not_lt.mp (fun hlt => hnow ⟨hlt, hillegal⟩)
    rename_i hlegal
    split at h
    · cases h
      exact ⟨rfl, fun _ => ⟨rfl, rfl⟩, fun t ht => by cases ht⟩
    · rename_i hnext
      cases h
      refine ⟨rfl, (fun hnone => by cases hnone), ?_⟩
      rintro u ⟨⟩
      exact ⟨rfl, Or.inl rfl, Or.inr ⟨hlegal, not_not.mp hnext⟩⟩

/-- What is handed up next, and that no chain goes on when there is nothing. -/
theorem getNextPacket_spec {r : Option (ℕ × Txent)} (hnodup : (q.map (·.ipaddr)).Nodup)
    (h : getNextPacket now q = some (q', r)) :
    q'.map (·.ipaddr) = q.map (·.ipaddr) ∧
      ((∀ t, r ≠ some (i, t)) → txents q' i = txents q i ∧
        (chainSeq q' i = chainSeq q i ∨ chainSeq q' i = illegalSeq)) ∧
      (r = none → chainSeq q' i = illegalSeq) ∧
      ∀ t, r = some (i, t) → txents q i = t :: txents q' i ∧
        (chainSeq q' i = t.seqno ∨ chainSeq q' i = illegalSeq) ∧
        ((∃ e ∈ txents q i, e.expire ≤ now) ∨
          chainSeq q i ≠ illegalSeq ∧ t.seqno = (chainSeq q i + 1) % 256) := by
  induction q generalizing q' with
  | nil =>
    cases h
    exact ⟨rfl, fun _ => ⟨rfl, Or.inl rfl⟩, fun _ => rfl, fun t ht => by cases ht⟩
  | cons d ds ih =>
    rw [map_cons, nodup_cons] at hnodup
    obtain ⟨⟨d', r'⟩, hpull, h⟩ := Option.bind_eq_some_iff.mp h
    obtain ⟨hip, hnone, hsome⟩ := pull_spec hpull
    cases r' with
    | some t =>
      cases h
      obtain ⟨htx, hseq, hwhy⟩ := hsome t rfl
      refine ⟨by rw [map_cons, map_cons, hip], ?_, (fun hr => by cases hr), ?_⟩
      · intro hne
        have hdi : d.ipaddr ≠ i := fun heq => hne t (by rw [heq])
        unfold txents chainSeq
        rw [look_cons_other hdi, look_cons_other (by rwa [hip])]
        exact ⟨rfl, Or.inl rfl⟩
      · intro u hu
        obtain ⟨hdi, rfl⟩ := Prod.mk.inj (Option.some.inj hu)
        unfold txents chainSeq
        rw [look_cons_self hdi, look_cons_self (hip.trans hdi)]
        exact ⟨htx, hseq, hwhy⟩
    | none =>
      obtain ⟨⟨ds', r''⟩, hrest, heq⟩ := Option.map_eq_some_iff.mp h
      cases heq
      obtain ⟨htx, hseq⟩ := hnone rfl
      obtain ⟨hips, hother, hend, hfound⟩ := ih hnodup.2 hrest
      refine ⟨by rw [map_cons, map_cons, hip, hips], ?_⟩
      by_cases hdi : d.ipaddr = i
      · have hnot : i ∉ ds'.map (·.ipaddr) := by
          rw [hips, ← hdi]
          exact hnodup.1
        have hchain : chainSeq (d' :: ds') i = illegalSeq := by
          unfold chainSeq
          rw [look_cons_self (hip.trans hdi)]
          exact hseq
        refine ⟨fun _ => ⟨?_, Or.inr hchain⟩, fun _ => hchain, ?_⟩
        · unfold txents
          rw [look_cons_self hdi, look_cons_self (hip.trans hdi)]
          exact htx
        · intro t ht
          have hnil : txents ds i = [] := by
            unfold txents
            rw [look_eq_none (hips ▸ hnot)]
            rfl
          have hfirst := (hfound t ht).1
          rw [hnil] at hfirst
          cases hfirst
      · unfold txents chainSeq at *
        rw [look_cons_other hdi, look_cons_other (by rwa [hip])]
        exact ⟨hother, hend, hfound⟩

end NetSim.Imep
