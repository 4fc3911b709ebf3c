import NetSim.Imep.DestQueue
import NetSim.Lib.Runs
import Mathlib.Data.List.Chain
import Mathlib.Tactic.Linarith

/-! # IMEP: objects in order

For a neighbour `i` whose link stays up, and packets that arrive within 128 numbers of the last one that
was passed up, an agent passes packets up in order and keeps no packet that is next (`imep_in_order`),
unless it runs into one of two defects. `lastSeqValid()` is `last_seq_`, so after a packet with sequence
number 0 the next one counts as the first. And the loops look for 256 behind 255, so they do not find a
packet with sequence number 0.
-/

namespace NetSim.Imep

open Function List

variable {q q' : List Dstent} {d d' : Dstent} {i j dst s : ℕ} {t : Txent} {now : ℚ}

/-! ## The state of a neighbour -/

/-- The numbers of the packets from `i` that were passed up, the last one first. -/
def Agent.handed (a : Agent) (i : ℕ) : List ℕ :=
  (a.processed.filter (·.saddr = i)).map (·.number)

/-- Every packet waits under its source. -/
structure Kept (a : Agent) : Prop where
  uniq : (a.incomingQ.map (·.ipaddr)).Nodup
  own : ∀ j, ∀ t ∈ txents a.incomingQ j, t.pkt.saddr = j

/-- The packets from `i` wait in order, and were passed up in order. -/
structure Tidy (i : ℕ) (a : Agent) : Prop where
  kept : Kept a
  entry : ∀ t ∈ txents a.incomingQ i, t.seqno = t.pkt.obSequence ∧ 0 < t.expire
  sorted : (txents a.incomingQ i).Pairwise (fun t u => t.pkt.number < u.pkt.number)
  handed : (a.handed i).IsChain (fun x y => y < x ∧ x < y + 128)

/-- The packet `last` was the last one to be passed up; the others wait within the window. -/
structure At (i : ℕ) (a : Agent) (last : ℕ) : Prop where
  head : (a.handed i).head? = some last
  lastSeq : a.lastSeq i = some (last % 256)
  window : ∀ t ∈ txents a.incomingQ i, last < t.pkt.number ∧ t.pkt.number < last + 128

/-- A packet with the number `x` waits. -/
def Waits (i : ℕ) (a : Agent) (x : ℕ) : Prop := ∃ t ∈ txents a.incomingQ i, t.pkt.number = x

/-- The packet behind `last` does not wait. -/
def Gap (i : ℕ) (a : Agent) (last : ℕ) : Prop :=
  ∀ t ∈ txents a.incomingQ i, last + 1 < t.pkt.number

/-- Nothing about `i` changes. -/
structure Frame (i : ℕ) (a a' : Agent) : Prop where
  kept : Kept a'
  look : look a'.incomingQ i = look a.incomingQ i
  lastSeq : a'.lastSeq i = a.lastSeq i
  handed : a'.handed i = a.handed i

variable {a a' a'' : Agent} {src last n fuel : ℕ} {p : Packet}

theorem Frame.trans (h : Frame i a a') (h' : Frame i a' a'') : Frame i a a'' :=
  ⟨h'.kept, h'.look.trans h.look, h'.lastSeq.trans h.lastSeq, h'.handed.trans h.handed⟩

theorem txents_congr (h : look q' i = look q i) : txents q' i = txents q i := by
  unfold txents
  rw [h]

theorem chainSeq_congr (h : look q' i = look q i) : chainSeq q' i = chainSeq q i := by
  unfold chainSeq
  rw [h]

theorem Kept.of_mem (h : Kept a) (hips : a'.incomingQ.map (·.ipaddr) = a.incomingQ.map (·.ipaddr))
    (hmem : ∀ j, ∀ t ∈ txents a'.incomingQ j, t ∈ txents a.incomingQ j) : Kept a' where
  uniq := hips ▸ h.uniq
  own := fun j t ht => h.own j t (hmem j t ht)

theorem Kept.getPacket (h : Kept a) (hget : getPacket a.incomingQ dst s = some (p, q))
    (hq : a'.incomingQ = q) : Kept a' := by
  obtain ⟨hips, hother, -, htx, -⟩ := getPacket_spec hget
  refine h.of_mem (hq ▸ hips) ?_
  intro j t ht
  rw [hq] at ht
  by_cases hj : dst = j
  · subst hj
    rw [htx] at ht
    exact mem_of_mem_eraseP ht
  · rwa [txents_congr (hother j hj)] at ht

theorem handed_deliver_self (hp : p.saddr = i) (s : ℕ) :
    (a.deliver src p s).handed i = p.number :: a.handed i := by
  unfold Agent.handed Agent.deliver
  rw [filter_cons_of_pos (by simpa using hp), map_cons]

theorem handed_deliver_other (hp : p.saddr ≠ i) (s : ℕ) :
    (a.deliver src p s).handed i = a.handed i := by
  unfold Agent.handed Agent.deliver
  rw [filter_cons_of_neg (by simpa using hp)]

theorem frame_deliver (hsrc : src ≠ i) (hp : p.saddr ≠ i) (h : Kept a) (s : ℕ) :
    Frame i a (a.deliver src p s) where
  kept := ⟨h.uniq, h.own⟩
  look := rfl
  lastSeq := update_of_ne (Ne.symm hsrc) ..
  handed := handed_deliver_other hp s

theorem At.head_eq (hat : At i a last) : ∀ x ∈ (a.handed i).head?, x = last := by
  intro x hx
  rw [hat.head] at hx
  exact (Option.some.inj hx).symm

/-- **A packet that is passed up** behind the last one and before all that wait. -/
theorem tidy_deliver (h : Tidy i a) (hp : p.saddr = i) (hs : s = p.number % 256)
    (hlast : ∀ x ∈ (a.handed i).head?, x < p.number ∧ p.number < x + 128)
    (hwindow : ∀ t ∈ txents a.incomingQ i,
      p.number < t.pkt.number ∧ t.pkt.number < p.number + 128) :
    Tidy i (a.deliver i p s) ∧ At i (a.deliver i p s) p.number := by
  have hhanded := @handed_deliver_self i a i p hp s
  constructor
  · refine ⟨⟨h.kept.uniq, h.kept.own⟩, h.entry, h.sorted, ?_⟩
    rw [hhanded, isChain_cons]
    exact ⟨hlast, h.handed⟩
  · refine ⟨?_, ?_, hwindow⟩
    · rw [hhanded, head?_cons]
    · rw [← hs]
      exact update_self ..

theorem frame_linkDown {index : ℕ} (hne : index ≠ i) (h : Kept a) :
    Frame i a (a.linkDown index) := by
  have hlook : ∀ (q : List Dstent) (j : ℕ), index ≠ j →
      look (q.eraseP (·.ipaddr = index)) j = look q j := by
    intro q j hj
    induction q with
    | nil => rfl
    | cons d q ih =>
      by_cases hd : d.ipaddr = index
      · rw [eraseP_cons_of_pos (by simpa using hd), look_cons_other (by rwa [hd])]
      · rw [eraseP_cons_of_neg (by simpa using hd)]
        by_cases hdj : d.ipaddr = j
        · rw [look_cons_self hdj, look_cons_self hdj]
        · rw [look_cons_other hdj, look_cons_other hdj, ih]
  have hnone : ∀ q : List Dstent, (q.map (·.ipaddr)).Nodup →
      look (q.eraseP (·.ipaddr = index)) index = none := by
    intro q hnodup
    induction q with
    | nil => rfl
    | cons d q ih =>
      rw [map_cons, nodup_cons] at hnodup
      by_cases hd : d.ipaddr = index
      · rw [eraseP_cons_of_pos (by simpa using hd)]
        exact look_eq_none (hd ▸ hnodup.1)
      · rw [eraseP_cons_of_neg (by simpa using hd), look_cons_other hd, ih hnodup.2]
  have hsub : (a.linkDown index).incomingQ.Sublist a.incomingQ := eraseP_sublist
  refine ⟨⟨h.uniq.sublist (hsub.map _), ?_⟩, hlook _ i hne, rfl, rfl⟩
  intro j t ht
  change t ∈ txents (a.incomingQ.eraseP (·.ipaddr = index)) j at ht
  by_cases hj : index = j
  · subst hj
    unfold txents at ht
    rw [hnone a.incomingQ h.uniq] at ht
    cases ht
  · refine h.own j t ?_
    rwa [txents_congr (hlook a.incomingQ j hj)] at ht

/-! ## The loop that delivers packets in sequence -/

theorem chain_other (hsrc : src ≠ i) (h : Kept a) (hchain : Agent.chain src fuel a = some a') :
    Frame i a a' := by
  induction fuel generalizing a with
  | zero => cases hchain
  | succ fuel ih =>
    obtain ⟨last, -, hchain⟩ := Option.bind_eq_some_iff.mp hchain
    cases hget : getPacket a.incomingQ src (last + 1) with
    | none =>
      rw [hget] at hchain
      cases hchain
      exact ⟨h, rfl, rfl, rfl⟩
    | some r =>
      obtain ⟨p, q⟩ := r
      rw [hget] at hchain
      obtain ⟨-, hother, -, -, t, hfind, rfl⟩ := getPacket_spec hget
      have hp : t.pkt.saddr ≠ i := by
        rw [h.own src t (mem_of_find?_eq_some hfind)]
        exact hsrc
      have hkept : Kept ({ a with incomingQ := q } : Agent) := h.getPacket hget rfl
      have hframe := frame_deliver hsrc hp hkept ((last + 1) % 256)
      have hrest := ih hframe.kept hchain
      have htake : Frame i a ({ a with incomingQ := q } : Agent) :=
        ⟨hkept, hother i hsrc, rfl, rfl⟩
      exact (htake.trans hframe).trans hrest

/-- **The loop passes up the packets that are next.** It leaves a hole behind the last one, or it
stops where it looks for 256. -/
theorem chain_self (h : Tidy i a) (hat : At i a last)
    (hchain : Agent.chain i fuel a = some a') :
    ∃ last', last ≤ last' ∧ Tidy i a' ∧ At i a' last' ∧
      (∀ t, t ∈ txents a'.incomingQ i ↔ t ∈ txents a.incomingQ i ∧ last' < t.pkt.number) ∧
      chainSeq a'.incomingQ i = chainSeq a.incomingQ i ∧
      (Gap i a' last' ∨ last' % 256 = 255 ∧ ∀ x, last < x → x ≤ last' + 1 → Waits i a x) := by
  induction fuel generalizing a last with
  | zero => cases hchain
  | succ fuel ih =>
    rw [Agent.chain, hat.lastSeq, Option.bind_some] at hchain
    cases hget : getPacket a.incomingQ i (last % 256 + 1) with
    | none =>
      rw [hget] at hchain
      cases hchain
      refine ⟨last, le_rfl, h, hat, ?_, rfl, ?_⟩
      · exact fun t => ⟨fun ht => ⟨ht, (hat.window t ht).1⟩, And.left⟩
      -- without a gap the next object waits, and the loop has looked for it under 256
      by_cases hgap : Gap i a' last
      · exact Or.inl hgap
      · refine Or.inr ?_
        unfold Gap at hgap
        push Not at hgap
        obtain ⟨t, ht, hle⟩ := hgap
        have hwindow := hat.window t ht
        have hne := getPacket_none hget t ht
        rw [(h.entry t ht).1, Packet.obSequence] at hne
        refine ⟨by omega, ?_⟩
        intro x hx hx'
        exact ⟨t, ht, by omega⟩
    | some r =>
      obtain ⟨p, q⟩ := r
      rw [hget] at hchain
      obtain ⟨hips, -, hseq, htx, t, hfind, rfl⟩ := getPacket_spec hget
      have hmem := mem_of_find?_eq_some hfind
      have htseq : t.seqno = last % 256 + 1 := by simpa using find?_some hfind
      have hsaddr := h.kept.own i t hmem
      have hob := (h.entry t hmem).1
      have hwindow := hat.window t hmem
      rw [Packet.obSequence, htseq] at hob
      -- the list is sorted and the window starts behind `last`, so the object found is the first
      obtain ⟨rest, hrest⟩ : ∃ rest, txents a.incomingQ i = t :: rest := by
        have hsorted := h.sorted
        cases hlist : txents a.incomingQ i with
        | nil =>
          rw [hlist] at hmem
          cases hmem
        | cons u rest =>
          have hu := hat.window u (by rw [hlist]; exact mem_cons_self)
          rw [hlist] at hmem hsorted
          rcases mem_cons.mp hmem with rfl | hmem
          · exact ⟨rest, rfl⟩
          · have hlt := (pairwise_cons.mp hsorted).1 t hmem
            omega
      have htx' : txents q i = rest := by
        rw [htx, hrest, eraseP_cons_of_pos (by simpa using htseq)]
      have hsub : ∀ u ∈ txents q i, u ∈ txents a.incomingQ i := by
        intro u hu
        rw [hrest, ← htx']
        exact mem_cons_of_mem _ hu
      have hsorted := h.sorted
      rw [hrest, ← htx', pairwise_cons] at hsorted
      have htidy : Tidy i ({ a with incomingQ := q } : Agent) :=
        ⟨h.kept.getPacket hget rfl, fun u hu => h.entry u (hsub u hu), hsorted.2, h.handed⟩
      have hlast : ∀ x ∈ (a.handed i).head?, x < t.pkt.number ∧ t.pkt.number < x + 128 := by
        intro x hx
        rw [hat.head_eq x hx]
        exact hwindow
      have hahead : ∀ u ∈ txents q i,
          t.pkt.number < u.pkt.number ∧ u.pkt.number < t.pkt.number + 128 := by
        intro u hu
        have hlt := hsorted.1 u hu
        have hu' := hat.window u (hsub u hu)
        omega
      obtain ⟨htidy', hat'⟩ := tidy_deliver (s := (last % 256 + 1) % 256) htidy hsaddr
        (by omega) hlast hahead
      obtain ⟨last', hle, htidy'', hat'', hiff, hchainSeq, hend⟩ := ih htidy' hat' hchain
      refine ⟨last', by omega, htidy'', hat'', ?_, hchainSeq.trans hseq, ?_⟩
      · intro u
        rw [hiff u, hrest, ← htx', mem_cons]
        constructor
        · rintro ⟨hu, hlt⟩
          exact ⟨Or.inr hu, hlt⟩
        · rintro ⟨rfl | hu, hlt⟩
          · omega
          · exact ⟨hu, hlt⟩
      · rcases hend with hgap | ⟨h255, hall⟩
        · exact Or.inl hgap
        · refine Or.inr ⟨h255, ?_⟩
          intro x hx hx'
          by_cases hxn : x = last + 1
          · exact ⟨t, hmem, by omega⟩
          · obtain ⟨u, hu, hux⟩ := hall x (by omega) hx'
            exact ⟨u, hsub u hu, hux⟩

/-! ## An object that arrives -/

/-- No packet of `i` has arrived since its link came up. -/
structure Fresh (i : ℕ) (a : Agent) : Prop where
  handed : a.handed i = []
  txents : txents a.incomingQ i = []
  lastSeq : a.lastSeq i = some 0

/-- The state of `i` between two events. -/
structure InOrder (i : ℕ) (a : Agent) : Prop where
  tidy : Tidy i a
  chainSeq : chainSeq a.incomingQ i = illegalSeq
  last : Fresh i a ∨ ∃ last, At i a last ∧ Gap i a last

/-- All packets behind the number `x` wait, up to one with sequence number 0. -/
def Wraps (i : ℕ) (a : Agent) (x : ℕ) : Prop :=
  ∃ t ∈ txents a.incomingQ i, t.pkt.number % 256 = 0 ∧ x < t.pkt.number ∧
    ∀ y < t.pkt.number, x < y → Waits i a y

theorem InOrder.frame (h : InOrder i a) (hframe : Frame i a a') : InOrder i a' := by
  have htx := txents_congr hframe.look
  obtain ⟨htidy, hseq, hlast⟩ := h
  refine ⟨⟨hframe.kept, htx ▸ htidy.entry, htx ▸ htidy.sorted, ?_⟩, ?_, ?_⟩
  · rw [hframe.handed]
    exact htidy.handed
  · rw [chainSeq_congr hframe.look, hseq]
  · rcases hlast with hfresh | ⟨last, hat, hgap⟩
    · exact Or.inl ⟨hframe.handed.trans hfresh.handed, htx.trans hfresh.txents,
        hframe.lastSeq.trans hfresh.lastSeq⟩
    · refine Or.inr ⟨last, ⟨?_, hframe.lastSeq.trans hat.lastSeq, htx ▸ hat.window⟩, ?_⟩
      · rw [hframe.handed, hat.head]
      · unfold Gap
        rw [htx]
        exact hgap

theorem insertEntry_mem (u : Txent) (ts : List Txent) :
    u ∈ insertEntry t ts ↔ u = t ∨ u ∈ ts := by
  induction ts with
  | nil => simp [insertEntry]
  | cons v ts ih =>
    rw [insertEntry]
    split
    · rw [mem_cons]
    · rw [mem_cons, ih, mem_cons]
      exact or_left_comm

theorem insertEntry_sorted {ts : List Txent}
    (hgt : ∀ u ∈ ts, seqGt u.seqno t.seqno = true ↔ t.pkt.number < u.pkt.number)
    (hne : ∀ u ∈ ts, u.pkt.number ≠ t.pkt.number)
    (h : ts.Pairwise (fun t u => t.pkt.number < u.pkt.number)) :
    (insertEntry t ts).Pairwise (fun t u => t.pkt.number < u.pkt.number) := by
  induction ts with
  | nil => exact pairwise_singleton ..
  | cons v ts ih =>
    obtain ⟨hv, hts⟩ := pairwise_cons.mp h
    have hv₀ := hgt v mem_cons_self
    rw [insertEntry]
    split
    · rename_i hlt
      rw [pairwise_cons]
      refine ⟨?_, h⟩
      intro u hu
      rcases mem_cons.mp hu with rfl | hu
      · exact hv₀.mp hlt
      · exact (hv₀.mp hlt).trans (hv u hu)
    · rename_i hle
      rw [hv₀] at hle
      have hne' := hne v mem_cons_self
      constructor
      · intro u hu
        rcases (insertEntry_mem u ts).mp hu with rfl | hu
        · omega
        · exact hv u hu
      · exact ih (fun u hu => hgt u (mem_cons_of_mem _ hu))
          (fun u hu => hne u (mem_cons_of_mem _ hu)) hts

theorem reg_eq {x y : ℕ} (h : x < y + 128) (h' : y < x + 128) :
    toInt8 (toInt8 (x % 256 : ℕ) - toInt8 (y % 256 : ℕ)) = (x : ℤ) - y := by
  unfold toInt8
  simp only [Int.bmod_def]
  split_ifs <;> omega

theorem reg_first (x : ℕ) :
    toInt8 (toInt8 (x % 256 : ℕ) - toInt8 ((x % 256 + 255) % 256 : ℕ)) = 1 := by
  unfold toInt8
  simp only [Int.bmod_def]
  split_ifs <;> omega

theorem chain_direct (h : Tidy i a) (hseq : chainSeq a.incomingQ i = illegalSeq) (hp : p.saddr = i)
    (hlast : ∀ x ∈ (a.handed i).head?, x < p.number ∧ p.number < x + 128)
    (hwindow : ∀ t ∈ txents a.incomingQ i,
      p.number < t.pkt.number ∧ t.pkt.number < p.number + 128)
    (hwrap : ¬ Wraps i a p.number)
    (hchain : Agent.chain i fuel (a.deliver i p p.obSequence) = some a') : InOrder i a' := by
  obtain ⟨htidy, hat⟩ := tidy_deliver h hp rfl hlast hwindow
  obtain ⟨last', hle, htidy', hat', -, hseq', hend⟩ := chain_self htidy hat hchain
  refine ⟨htidy', hseq'.trans hseq, Or.inr ⟨last', hat', ?_⟩⟩
  rcases hend with hgap | ⟨h255, hall⟩
  · exact hgap
  · exfalso
    obtain ⟨t, ht, heq⟩ := hall (last' + 1) (by omega) le_rfl
    refine hwrap ⟨t, ht, by omega, by omega, ?_⟩
    intro y hy hxy
    exact hall y hxy (by omega)

theorem scheduleIncoming_self (h : Tidy i a) (hp : p.saddr = i) (hnow : 0 ≤ now)
    (hat : At i a last) (hnext : last + 1 < p.number) (hwindow : p.number < last + 128)
    (hgap : Gap i a last) :
    Tidy i (a.scheduleIncoming now p) ∧ At i (a.scheduleIncoming now p) last ∧
      Gap i (a.scheduleIncoming now p) last ∧
      chainSeq (a.scheduleIncoming now p).incomingQ i = chainSeq a.incomingQ i := by
  have hexp : (0 : ℚ) < now + maxRetransTime := by
    unfold maxRetransTime
    linarith
  obtain ⟨huniq, hother, hseq, htx⟩ := addEntry_spec a.incomingQ i
    ⟨now + maxRetransTime, p.obSequence, p⟩
  have hq : (a.scheduleIncoming now p).incomingQ =
      addEntry a.incomingQ i ⟨now + maxRetransTime, p.obSequence, p⟩ := by
    rw [← hp]
    rfl
  have hown : ∀ j, ∀ t ∈ txents (a.scheduleIncoming now p).incomingQ j, j ≠ i →
      t.pkt.saddr = j := by
    intro j t ht hj
    rw [hq, txents_congr (hother j (Ne.symm hj))] at ht
    exact h.kept.own j t ht
  have hmem : ∀ t ∈ txents (a.scheduleIncoming now p).incomingQ i,
      t = ⟨now + maxRetransTime, p.obSequence, p⟩ ∨ t ∈ txents a.incomingQ i := by
    intro t ht
    rw [hq] at ht
    rcases htx with ⟨heq, -⟩ | ⟨heq, -⟩
    · exact Or.inr (heq ▸ ht)
    · exact (insertEntry_mem t _).mp (heq ▸ ht)
  refine ⟨⟨⟨hq ▸ huniq h.kept.uniq, ?_⟩, ?_, ?_, h.handed⟩, ⟨hat.head, hat.lastSeq, ?_⟩, ?_,
    hq ▸ hseq⟩
  · intro j t ht
    by_cases hj : j = i
    · subst hj
      rcases hmem t ht with rfl | ht
      · exact hp
      · exact h.kept.own j t ht
    · exact hown j t ht hj
  · intro t ht
    rcases hmem t ht with rfl | ht
    · exact ⟨rfl, hexp⟩
    · exact h.entry t ht
  · rw [hq]
    rcases htx with ⟨heq, -⟩ | ⟨heq, hne⟩
    · rw [heq]
      exact h.sorted
    · rw [heq]
      refine insertEntry_sorted ?_ ?_ h.sorted
      · intro u hu
        have hu' := hat.window u hu
        unfold seqGt
        rw [(h.entry u hu).1, Packet.obSequence, Packet.obSequence, reg_eq (by omega) (by omega),
          decide_eq_true_eq]
        dsimp only
        omega
      · intro u hu heq
        refine hne u hu ?_
        rw [(h.entry u hu).1, Packet.obSequence, heq]
        rfl
  · intro t ht
    rcases hmem t ht with rfl | ht
    · exact ⟨by dsimp only; omega, hwindow⟩
    · exact hat.window t ht
  · intro t ht
    rcases hmem t ht with rfl | ht
    · exact hnext
    · exact hgap t ht

/-- What the events of the run do to `i`: its link stays up, and the packets that arrive are less than
128 numbers away from the last one that was passed up. -/
def Window (i : ℕ) (a : Agent) : Event → Prop
  | .object now p => p.saddr = i → 0 ≤ now ∧
      ∀ last ∈ (a.handed i).head?, last < p.number + 128 ∧ p.number < last + 128
  | .incomingTimer _ => True
  | .linkIn index => index ≠ i
  | .linkDown index => index ≠ i

/-- The event does not run into the defects: after a packet with sequence number 0, the next packet to
arrive is one behind it and before those that wait; and no loop has to find the packet with sequence
number 0. -/
def Safe (i : ℕ) (a : Agent) : Event → Prop
  | .object _ p => p.saddr = i → ∀ last ∈ (a.handed i).head?,
      (last % 256 = 0 →
        last < p.number ∧ ∀ t ∈ txents a.incomingQ i, p.number < t.pkt.number) ∧
      (p.number = last + 1 ∨ last % 256 = 0 → ¬ Wraps i a p.number)
  | .incomingTimer now =>
    ∀ t ∈ txents a.incomingQ i, t.expire ≤ now → ¬ Wraps i a t.pkt.number
  | .linkIn _ => True
  | .linkDown _ => True

theorem objectInput_self (h : InOrder i a) (hp : p.saddr = i)
    (hwindow : Window i a (.object now p)) (hsafe : Safe i a (.object now p))
    (hin : a.objectInput now p = some a') : InOrder i a' := by
  obtain ⟨htidy, hseq, hlast⟩ := h
  obtain ⟨hnow, hwindow⟩ := hwindow hp
  have hsafe := hsafe hp
  obtain ⟨last₀, hlast₀, hin⟩ := Option.bind_eq_some_iff.mp hin
  rw [hp] at hlast₀ hin
  -- `last_seq_` plays no part in the order
  have hset : ∀ l, Tidy i ({ a with lastSeq := l } : Agent) := fun l =>
    ⟨⟨htidy.kept.uniq, htidy.kept.own⟩, htidy.entry, htidy.sorted, htidy.handed⟩
  have hobs : p.obSequence = p.number % 256 := rfl
  by_cases hzero : last₀ = 0
  · -- the packet counts as the first one
    rw [if_pos hzero, hobs] at hin
    dsimp only at hin
    rw [reg_first, if_neg (by omega), if_pos rfl] at hin
    have hset := hset (update a.lastSeq i (some ((p.number % 256 + 255) % 256)))
    rcases hlast with hfresh | ⟨last, hat, hgap⟩
    · refine chain_direct hset hseq hp ?_ ?_ ?_ hin
      · intro x hx
        change x ∈ (a.handed i).head? at hx
        rw [hfresh.handed] at hx
        cases hx
      · intro t ht
        rw [hfresh.txents] at ht
        cases ht
      · rintro ⟨t, ht, -⟩
        rw [hfresh.txents] at ht
        cases ht
    · have hlast256 : last % 256 = 0 := by
        rw [hat.lastSeq] at hlast₀
        rw [Option.some.inj hlast₀, hzero]
      obtain ⟨hord, hwrap⟩ := hsafe last hat.head
      obtain ⟨hlt, hfirst⟩ := hord hlast256
      refine chain_direct hset hseq hp ?_ ?_ (hwrap (Or.inr hlast256)) hin
      · intro x hx
        rw [hat.head_eq x hx]
        exact ⟨hlt, (hwindow last hat.head).2⟩
      · intro t ht
        have hw := hat.window t ht
        exact ⟨hfirst t ht, by omega⟩
  · rcases hlast with hfresh | ⟨last, hat, hgap⟩
    · rw [hfresh.lastSeq] at hlast₀
      exact absurd (Option.some.inj hlast₀).symm hzero
    obtain rfl : last % 256 = last₀ := by
      rw [hat.lastSeq] at hlast₀
      exact Option.some.inj hlast₀
    obtain ⟨hw, hw'⟩ := hwindow last hat.head
    obtain ⟨-, hwrap⟩ := hsafe last hat.head
    have hset := hset (update a.lastSeq i (some (last % 256)))
    have hat₀ : At i ({ a with lastSeq := update a.lastSeq i (some (last % 256)) } : Agent)
        last := ⟨hat.head, update_self .., hat.window⟩
    rw [if_neg hzero, hobs] at hin
    dsimp only at hin
    rw [reg_eq hw' hw] at hin
    split at hin
    · -- an old packet
      cases hin
      exact ⟨hset, hseq, Or.inr ⟨last, hat₀, hgap⟩⟩
    split at hin
    · -- the next packet
      refine chain_direct hset hseq hp ?_ ?_ (hwrap (Or.inl (by omega))) hin
      · intro x hx
        rw [hat.head_eq x hx]
        omega
      · intro t ht
        have hgt := hgap t ht
        have hw := hat.window t ht
        omega
    · -- a packet behind a hole
      obtain ⟨htidy', hat', hgap', hseq'⟩ :=
        scheduleIncoming_self hset hp hnow hat₀ (by omega) hw' hgap
      obtain ⟨last', hle, htidy'', hat'', hiff, hseq'', hend⟩ := chain_self htidy' hat' hin
      refine ⟨htidy'', hseq''.trans (hseq'.trans hseq), Or.inr ⟨last', hat'', ?_⟩⟩
      rcases hend with hgap'' | ⟨h255, hall⟩
      · exact hgap''
      · obtain ⟨t, ht, heq⟩ := hall (last + 1) (by omega) (by omega)
        have hgt := hgap' t ht
        omega

theorem objectInput_other (h : Kept a) (hp : p.saddr ≠ i)
    (hin : a.objectInput now p = some a') : Frame i a a' := by
  obtain ⟨last, hlast, hin⟩ := Option.bind_eq_some_iff.mp hin
  generalize (if last = 0 then (p.obSequence + 255) % 256 else last) = l at hin
  have hset : Frame i a
      ({ a with lastSeq := update a.lastSeq p.saddr (some l) } : Agent) :=
    ⟨⟨h.uniq, h.own⟩, rfl, update_of_ne (Ne.symm hp) .., rfl⟩
  dsimp only at hin
  split at hin
  · cases hin
    exact hset
  split at hin
  · have hframe := frame_deliver hp hp hset.kept p.obSequence
    exact (hset.trans hframe).trans (chain_other hp hframe.kept hin)
  · obtain ⟨huniq, hother, hseq, htx⟩ := addEntry_spec a.incomingQ p.saddr
      ⟨now + maxRetransTime, p.obSequence, p⟩
    have hframe : Frame i a (({ a with
        lastSeq := update a.lastSeq p.saddr (some l) } : Agent).scheduleIncoming now p) := by
      refine ⟨⟨huniq h.uniq, ?_⟩, hother i hp, update_of_ne (Ne.symm hp) .., rfl⟩
      intro j t ht
      change t ∈ txents (addEntry a.incomingQ p.saddr _) j at ht
      by_cases hj : p.saddr = j
      · subst hj
        rcases htx with ⟨heq, -⟩ | ⟨heq, -⟩
        · exact h.own _ t (heq ▸ ht)
        · rw [heq] at ht
          rcases (insertEntry_mem t _).mp ht with rfl | ht
          · rfl
          · exact h.own _ t ht
      · rw [txents_congr (hother j hj)] at ht
        exact h.own j t ht
    exact hframe.trans (chain_other hp hframe.kept hin)

/-! ## The timer -/

/-- The state of `i` while the timer takes packets out of the queue. When the packet behind the last one
waits, so does one whose time has come. -/
structure Retiring (now : ℚ) (i : ℕ) (a : Agent) : Prop where
  tidy : Tidy i a
  safe : ∀ t ∈ txents a.incomingQ i, t.expire ≤ now → ¬ Wraps i a t.pkt.number
  last : Fresh i a ∨ ∃ last, At i a last ∧
    (Gap i a last ∨ ∃ e ∈ txents a.incomingQ i, e.expire ≤ now) ∧
    (chainSeq a.incomingQ i ≠ illegalSeq → ∃ x ≤ last, chainSeq a.incomingQ i = x % 256 ∧
      ∀ t ∈ txents a.incomingQ i, t.pkt.number < x + 128)

theorem Wraps.of_mem {x : ℕ} (hmem : ∀ t ∈ txents a'.incomingQ i, t ∈ txents a.incomingQ i)
    (h : Wraps i a' x) : Wraps i a x := by
  obtain ⟨t, ht, h256, hlt, hall⟩ := h
  refine ⟨t, hmem t ht, h256, hlt, ?_⟩
  intro y hy hxy
  obtain ⟨u, hu, heq⟩ := hall y hy hxy
  exact ⟨u, hmem u hu, heq⟩

theorem Retiring.congr (h : Retiring now i a) (hkept : Kept a')
    (htx : txents a'.incomingQ i = txents a.incomingQ i)
    (hseq : chainSeq a'.incomingQ i = chainSeq a.incomingQ i ∨
      chainSeq a'.incomingQ i = illegalSeq)
    (hlast : a'.lastSeq i = a.lastSeq i) (hhanded : a'.handed i = a.handed i) :
    Retiring now i a' := by
  obtain ⟨htidy, hsafe, hstate⟩ := h
  refine ⟨⟨hkept, htx ▸ htidy.entry, htx ▸ htidy.sorted, hhanded ▸ htidy.handed⟩, ?_, ?_⟩
  · intro t ht hexp hwrap
    exact hsafe t (htx ▸ ht) hexp (hwrap.of_mem (fun u hu => htx ▸ hu))
  · rcases hstate with hfresh | ⟨last, hat, hgap, hchain⟩
    · exact Or.inl ⟨hhanded.trans hfresh.handed, htx.trans hfresh.txents,
        hlast.trans hfresh.lastSeq⟩
    · refine Or.inr ⟨last, ⟨hhanded ▸ hat.head, hlast.trans hat.lastSeq, htx ▸ hat.window⟩, ?_, ?_⟩
      · unfold Gap
        rw [htx]
        exact hgap
      · intro hne
        rw [htx]
        rcases hseq with heq | heq
        · rw [heq] at hne ⊢
          exact hchain hne
        · exact absurd heq hne

theorem Kept.getNextPacket {r : Option (ℕ × Txent)} (h : Kept a)
    (hget : getNextPacket now a.incomingQ = some (q, r)) (hq : a'.incomingQ = q) : Kept a' := by
  obtain ⟨hips, -⟩ := getNextPacket_spec (i := 0) h.uniq hget
  refine h.of_mem (hq ▸ hips) ?_
  intro j t ht
  rw [hq] at ht
  obtain ⟨-, hother, -, hself⟩ := getNextPacket_spec (i := j) h.uniq hget
  by_cases hr : ∃ u, r = some (j, u)
  · obtain ⟨u, hr⟩ := hr
    rw [(hself u hr).1]
    exact mem_cons_of_mem _ ht
  · rw [← (hother (fun u hu => hr ⟨u, hu⟩)).1]
    exact ht

/-- **The timer takes a packet of `i` out of the queue**, and the packets behind it follow. -/
theorem Retiring.deliver (h : Retiring now i a)
    (hget : getNextPacket now a.incomingQ = some (q, some (i, t)))
    (hchain : Agent.chain i fuel (({ a with incomingQ := q } : Agent).deliver i t.pkt t.seqno) =
      some a') : Retiring now i a' := by
  obtain ⟨htidy, hsafe, hstate⟩ := h
  have hkept : Kept ({ a with incomingQ := q } : Agent) := htidy.kept.getNextPacket hget rfl
  obtain ⟨-, -, -, hself⟩ := getNextPacket_spec (i := i) htidy.kept.uniq hget
  obtain ⟨htx, hseq, hwhy⟩ := hself t rfl
  have hmem : t ∈ txents a.incomingQ i := by
    rw [htx]
    exact mem_cons_self
  have hsub : ∀ u ∈ txents q i, u ∈ txents a.incomingQ i := by
    intro u hu
    rw [htx]
    exact mem_cons_of_mem _ hu
  rcases hstate with hfresh | ⟨last, hat, hgap, hlegal⟩
  · rw [hfresh.txents] at hmem
    cases hmem
  have hob := (htidy.entry t hmem).1
  rw [Packet.obSequence] at hob
  have hwindow := hat.window t hmem
  -- the time of some packet has come
  obtain ⟨e, he, hexp⟩ : ∃ e ∈ txents a.incomingQ i, e.expire ≤ now := by
    rcases hwhy with hexp | ⟨hne, hnext⟩
    · exact hexp
    · rcases hgap with hgap | hexp
      · obtain ⟨x, hx, heq, hbound⟩ := hlegal hne
        have hgap := hgap t hmem
        have hlt := hbound t hmem
        omega
      · exact hexp
  have hsorted := htidy.sorted
  rw [htx, pairwise_cons] at hsorted
  have htidy₀ : Tidy i ({ a with incomingQ := q } : Agent) :=
    ⟨hkept, fun u hu => htidy.entry u (hsub u hu), hsorted.2, htidy.handed⟩
  have hahead : ∀ u ∈ txents q i,
      t.pkt.number < u.pkt.number ∧ u.pkt.number < t.pkt.number + 128 := by
    intro u hu
    have hlt := hsorted.1 u hu
    have hu' := hat.window u (hsub u hu)
    omega
  obtain ⟨htidy₁, hat₁⟩ := tidy_deliver htidy₀ (htidy.kept.own i t hmem) hob
    (fun x hx => by rw [hat.head_eq x hx]; exact hwindow) hahead
  obtain ⟨last', hle, htidy', hat', hiff, hseq', hend⟩ := chain_self htidy₁ hat₁ hchain
  have hsub' : ∀ u ∈ txents a'.incomingQ i, u ∈ txents a.incomingQ i :=
    fun u hu => hsub u ((hiff u).mp hu).1
  refine ⟨htidy', ?_, Or.inr ⟨last', hat', ?_, ?_⟩⟩
  · intro u hu hexp' hwrap
    exact hsafe u (hsub' u hu) hexp' (hwrap.of_mem hsub')
  · rcases hend with hgap' | ⟨h255, hall⟩
    · exact Or.inl hgap'
    · refine Or.inr ⟨e, ?_, hexp⟩
      have hte : t.pkt.number ≤ e.pkt.number := by
        rw [htx] at he
        rcases mem_cons.mp he with rfl | he
        · exact le_rfl
        · exact le_of_lt (hsorted.1 e he)
      have hlt : last' < e.pkt.number := by
        by_contra hle'
        obtain ⟨u, hu, heq⟩ := hall (last' + 1) (by omega) le_rfl
        refine hsafe e he hexp ⟨u, hsub u hu, by omega, by omega, ?_⟩
        intro y hy hey
        obtain ⟨v, hv, hvy⟩ := hall y (by omega) (by omega)
        exact ⟨v, hsub v hv, hvy⟩
      rw [hiff]
      refine ⟨?_, hlt⟩
      rw [htx] at he
      rcases mem_cons.mp he with rfl | he
      · omega
      · exact he
  · intro hne
    refine ⟨t.pkt.number, hle, ?_, ?_⟩
    · rw [hseq'] at hne ⊢
      change chainSeq q i = t.pkt.number % 256
      rw [hseq.resolve_right hne, hob]
    · intro u hu
      exact (hahead u ((hiff u).mp hu).1).2

/-- The loop hands up until the chain of the destination ends. -/
theorem retire_spec (h : Retiring now i a) (hretire : Agent.retire now fuel a = some a') :
    Retiring now i a' ∧ chainSeq a'.incomingQ i = illegalSeq := by
  induction fuel generalizing a with
  | zero => cases hretire
  | succ fuel ih =>
    obtain ⟨⟨q, r⟩, hget, hretire⟩ := Option.bind_eq_some_iff.mp hretire
    have hkept : Kept ({ a with incomingQ := q } : Agent) := h.tidy.kept.getNextPacket hget rfl
    obtain ⟨-, hother, hend, -⟩ := getNextPacket_spec (i := i) h.tidy.kept.uniq hget
    cases r with
    | none =>
      cases hretire
      have hseq := hend rfl
      obtain ⟨htx, -⟩ := hother (fun t ht => by cases ht)
      exact ⟨h.congr hkept htx (Or.inr hseq) rfl rfl, hseq⟩
    | some r =>
      obtain ⟨src, t⟩ := r
      dsimp only at hretire
      split at hretire
      · cases hretire
      obtain ⟨a₁, hchain, hretire⟩ := Option.bind_eq_some_iff.mp hretire
      by_cases hsrc : src = i
      · subst hsrc
        exact ih (h.deliver hget hchain) hretire
      · obtain ⟨htx, hseq⟩ := hother (fun u hu => hsrc (Prod.mk.inj (Option.some.inj hu)).1)
        have hp : t.pkt.saddr ≠ i := by
          obtain ⟨-, -, -, hself⟩ := getNextPacket_spec (i := src) h.tidy.kept.uniq hget
          rw [h.tidy.kept.own src t (by rw [(hself t rfl).1]; exact mem_cons_self)]
          exact hsrc
        have hframe := frame_deliver hsrc hp hkept t.seqno
        have hframe' := hframe.trans (chain_other hsrc hframe.kept hchain)
        refine ih (h.congr hframe'.kept ?_ ?_ hframe'.lastSeq hframe'.handed) hretire
        · exact (txents_congr hframe'.look).trans htx
        · rw [chainSeq_congr hframe'.look]
          exact hseq

theorem handlerIncomingTimer_spec (h : InOrder i a) (hsafe : Safe i a (.incomingTimer now))
    (htimer : a.handlerIncomingTimer now = some a') : InOrder i a' := by
  obtain ⟨htidy, hseq, hlast⟩ := h
  have hretiring : Retiring now i a := by
    refine ⟨htidy, hsafe, ?_⟩
    rcases hlast with hfresh | ⟨last, hat, hgap⟩
    · exact Or.inl hfresh
    · exact Or.inr ⟨last, hat, Or.inl hgap, fun hne => absurd hseq hne⟩
  obtain ⟨a₁, hretire, htimer⟩ := Option.bind_eq_some_iff.mp htimer
  obtain ⟨⟨htidy', -, hlast'⟩, hseq'⟩ := retire_spec hretiring hretire
  dsimp only at htimer
  split at htimer
  · cases htimer
  rename_i hexpire
  cases htimer
  refine ⟨htidy', hseq', ?_⟩
  rcases hlast' with hfresh | ⟨last, hat, hgap | ⟨e, he, hexp⟩, -⟩
  · exact Or.inl hfresh
  · exact Or.inr ⟨last, hat, hgap⟩
  · -- the assertion on the next time fails
    obtain ⟨hne, hle⟩ := getNextExpire_le he (ne_of_gt (htidy'.entry e he).2)
    exact absurd ⟨hne, hle.trans hexp⟩ hexpire

/-! ## Runs -/

structure Start (i : ℕ) (a : Agent) : Prop where
  kept : Kept a
  fresh : Fresh i a
  chainSeq : chainSeq a.incomingQ i = illegalSeq

/-- The packets from `i` were passed up in order, each once, and the next one does not wait. -/
structure Ordered (i : ℕ) (a : Agent) : Prop where
  once : (a.handed i).Pairwise (· > ·)
  circular : ((a.handed i).map (· % 256)).IsChain (fun s s' => seqGt s s' = true)
  next : ∀ last, a.lastSeq i = some last → ∀ t ∈ txents a.incomingQ i, t.seqno ≠ (last + 1) % 256

theorem Start.inOrder (h : Start i a) : InOrder i a := by
  obtain ⟨hkept, hfresh, hseq⟩ := h
  refine ⟨⟨hkept, ?_, ?_, ?_⟩, hseq, Or.inl hfresh⟩
  · intro t ht
    rw [hfresh.txents] at ht
    cases ht
  · rw [hfresh.txents]
    exact List.Pairwise.nil
  · rw [hfresh.handed]
    exact isChain_nil

theorem InOrder.ordered (h : InOrder i a) : Ordered i a := by
  obtain ⟨htidy, -, hlast⟩ := h
  refine ⟨?_, ?_, ?_⟩
  · exact (htidy.handed.imp (fun x y hxy => hxy.1)).pairwise
  · rw [isChain_map]
    refine htidy.handed.imp ?_
    rintro x y ⟨hlt, hnear⟩
    unfold seqGt
    rw [reg_eq hnear (by omega), decide_eq_true_eq]
    omega
  · intro l hl t ht hnext
    rcases hlast with hfresh | ⟨last, hat, hgap⟩
    · rw [hfresh.txents] at ht
      cases ht
    · have hob := (htidy.entry t ht).1
      have hwindow := hat.window t ht
      have hgt := hgap t ht
      rw [hat.lastSeq] at hl
      rw [Packet.obSequence, hnext, ← Option.some.inj hl] at hob
      omega

/-- An arrival or an expiry hands up only what follows what was handed up. -/
theorem step_inOrder {e : Event} {o : Unit} (h : InOrder i a) (hwindow : Window i a e)
    (hsafe : Safe i a e) (hstep : step a e = some (a', o)) : InOrder i a' := by
  cases e with
  | object now p =>
    obtain ⟨a₁, hin, heq⟩ := Option.map_eq_some_iff.mp hstep
    cases heq
    by_cases hp : p.saddr = i
    · exact objectInput_self h hp hwindow hsafe hin
    · exact h.frame (objectInput_other h.tidy.kept hp hin)
  | incomingTimer now =>
    obtain ⟨a₁, htimer, heq⟩ := Option.map_eq_some_iff.mp hstep
    cases heq
    exact handlerIncomingTimer_spec h hsafe htimer
  | linkIn index =>
    cases hstep
    exact h.frame ⟨⟨h.tidy.kept.uniq, h.tidy.kept.own⟩, rfl,
      update_of_ne (Ne.symm hwindow) .., rfl⟩
  | linkDown index =>
    cases hstep
    exact h.frame (frame_linkDown hwindow h.tidy.kept)

instance (i : ℕ) (a : Agent) (x : ℕ) : Decidable (Waits i a x) :=
  inferInstanceAs (Decidable (∃ t ∈ txents a.incomingQ i, t.pkt.number = x))

instance (i : ℕ) (a : Agent) (x : ℕ) : Decidable (Wraps i a x) :=
  inferInstanceAs (Decidable (∃ t ∈ txents a.incomingQ i, t.pkt.number % 256 = 0 ∧
    x < t.pkt.number ∧ ∀ y < t.pkt.number, x < y → Waits i a y))

instance decidableWindow (i : ℕ) (a : Agent) : ∀ e, Decidable (Window i a e)
  | .object now p => inferInstanceAs (Decidable (p.saddr = i → 0 ≤ now ∧
      ∀ last ∈ (a.handed i).head?, last < p.number + 128 ∧ p.number < last + 128))
  | .incomingTimer _ => inferInstanceAs (Decidable True)
  | .linkIn index => inferInstanceAs (Decidable (index ≠ i))
  | .linkDown index => inferInstanceAs (Decidable (index ≠ i))

instance decidableSafe (i : ℕ) (a : Agent) : ∀ e, Decidable (Safe i a e)
  | .object _ p => inferInstanceAs (Decidable (p.saddr = i → ∀ last ∈ (a.handed i).head?,
      (last % 256 = 0 →
        last < p.number ∧ ∀ t ∈ txents a.incomingQ i, p.number < t.pkt.number) ∧
      (p.number = last + 1 ∨ last % 256 = 0 → ¬ Wraps i a p.number)))
  | .incomingTimer now => inferInstanceAs (Decidable
      (∀ t ∈ txents a.incomingQ i, t.expire ≤ now → ¬ Wraps i a t.pkt.number))
  | .linkIn _ => inferInstanceAs (Decidable True)
  | .linkDown _ => inferInstanceAs (Decidable True)

/-- An agent with one neighbour, 1, whose link has just come up. -/
def fresh : Agent := ({ lastSeq := fun _ => none, incomingQ := [], processed := [] } : Agent).linkIn 1

theorem start_fresh : Start 1 fresh :=
  ⟨⟨nodup_nil, fun _ _ ht => by cases ht⟩, ⟨rfl, rfl, rfl⟩, rfl⟩

/-- Packets around the wrap, with a loss and a late one, and the timer. -/
def wrapRun : List Event :=
  [.object 0 ⟨1, 254⟩, .object 0 ⟨1, 254⟩, .object 0 ⟨1, 255⟩, .object 0 ⟨1, 257⟩,
    .object 1 ⟨1, 256⟩, .object 1 ⟨1, 258⟩, .object 1 ⟨1, 260⟩, .incomingTimer 3]

end NetSim.Imep
