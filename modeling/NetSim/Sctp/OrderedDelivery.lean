import NetSim.Sctp.InStreams

/-! # Ordered delivery

A sender numbers the chunks of each stream modulo `2 ^ 16`. As long as no chunk arrives whose number
has wrapped around before the next one of its stream (`Wrapped`), the numbers of the buffered chunks
are in the order in which the chunks were sent (`Buffers`), and every stream is delivered in that
order (`ordered_delivery`). `wrapped_chunk_stuck` is a run with such a chunk.
-/

namespace NetSim.Sctp

open Function List

variable {c0 : ℤ} {s s' : Receiver} {i k : ℕ} {ks : List ℕ}

/-! ## The chunks of a sender -/

/-- The ordered chunks that are sent on `num` streams: `sent i k` is chunk `k` of the stream `i`.
The stream sequence numbers count modulo `2 ^ 16`, and no two chunks have the same TSN. -/
structure Sender (c0 : ℤ) (num : ℕ) where
  sent : ℕ → ℕ → DataChunk
  usStreamId : ∀ i k, (sent i k).usStreamId = i
  usStreamSeqNum : ∀ i k, (sent i k).usStreamSeqNum = k % 2 ^ 16
  ordered : ∀ i k, (sent i k).unordered = false
  tsn_inj : ∀ i k i' k', i < num → i' < num →
    (sent i k).uiTsn = (sent i' k').uiTsn → i = i' ∧ k = k'
  lt_tsn : ∀ i k, c0 < (sent i k).uiTsn

variable {num n : ℕ} {S : Sender c0 num} {P : ℕ → Prop} {stream : InStream} {p : ℕ × ℕ}

/-- The chunks that a stream has delivered, and those that it buffers: chunk `n` is next, and the
numbers of the buffered chunks `ks` have not wrapped around since. `P` tells which chunks have been
processed. -/
structure Buffers (S : Sender c0 num) (i : ℕ) (P : ℕ → Prop) (stream : InStream) (n : ℕ)
    (ks : List ℕ) : Prop where
  mode : stream.eMode = .reliable ∨ ks = []
  next : stream.usNextStreamSeqNum = n % 2 ^ 16
  buffered : stream.sBufferedChunkList = ks.map (S.sent i)
  sorted : ks.Pairwise (· < ·)
  le : ∀ k ∈ ks, n ≤ k
  block : ∀ k ∈ ks, k / 2 ^ 16 = n / 2 ^ 16
  processed : ∀ k, P k ↔ k < n ∨ k ∈ ks

theorem Buffers.insert (h : Buffers S i P stream n ks) (hmode : stream.eMode = .reliable)
    (hle : n ≤ k) (hblock : k / 2 ^ 16 = n / 2 ^ 16) :
    Buffers S i (fun j => P j ∨ j = k)
      { stream with
        sBufferedChunkList := insertInStreamBuffer (S.sent i k) stream.sBufferedChunkList } n
      (insertByKey id k ks) := by
  have hmap : insertInStreamBuffer (S.sent i k) stream.sBufferedChunkList =
      (insertByKey id k ks).map (S.sent i) := by
    rw [insertInStreamBuffer, h.buffered]
    refine insertByKey_map (fun j hj => ?_) (fun j hj => ?_)
    · have hb := h.block j hj
      rw [S.usStreamSeqNum, S.usStreamSeqNum]
      omega
    · have hb := h.block j hj
      rw [S.usStreamSeqNum, S.usStreamSeqNum]
      omega
  refine ⟨Or.inl hmode, h.next, hmap, sorted_insertByKey h.sorted, fun j hj => ?_, fun j hj => ?_,
    fun j => ?_⟩
  · rcases mem_insertByKey.mp hj with rfl | hj
    · exact hle
    · exact h.le j hj
  · rcases mem_insertByKey.mp hj with rfl | hj
    · exact hblock
    · exact h.block j hj
  · rw [h.processed j, mem_insertByKey]
    tauto

/-- **Draining** delivers the chunks from `n` on, up to the first one that is missing. -/
theorem drain_spec {cum : ℤ} (hsorted : ks.Pairwise (· < ·)) (hle : ∀ k ∈ ks, n ≤ k)
    (hblock : ∀ k ∈ ks, k / 2 ^ 16 = n / 2 ^ 16) :
    ∃ m rest, n ≤ m ∧ ks = List.range' n (m - n) ++ rest ∧ (∀ k ∈ rest, m < k) ∧
      (∀ k ∈ rest, k / 2 ^ 16 = m / 2 ^ 16) ∧
      drain cum .reliable (n % 2 ^ 16) (ks.map (S.sent i)) =
        (m % 2 ^ 16, (List.range' n (m - n)).map (S.sent i), rest.map (S.sent i)) := by
  induction ks generalizing n with
  | nil => exact ⟨n, [], le_rfl, by simp, by simp, by simp, by simp [drain]⟩
  | cons k ks ih =>
    obtain ⟨hk, hks⟩ := pairwise_cons.mp hsorted
    have hnk := hle k mem_cons_self
    have hbk := hblock k mem_cons_self
    rw [map_cons, drain, if_neg (fun hc => absurd hc.1 (by decide)), S.usStreamSeqNum]
    by_cases heq : k = n
    · rw [if_pos (by rw [heq]), Nat.mod_add_mod]
      obtain ⟨m, rest, hnm, hsplit, hlt, hbm, hdrain⟩ := @ih (n + 1) hks
        (fun j hj => by have := hk j hj; omega)
        (fun j hj => by
          have := hk j hj
          have := hblock j (mem_cons_of_mem k hj)
          omega)
      refine ⟨m, rest, by omega, ?_, hlt, hbm, ?_⟩
      · rw [show m - n = m - (n + 1) + 1 by omega, range'_succ, cons_append, ← hsplit,
          heq]
      · rw [hdrain, show m - n = m - (n + 1) + 1 by omega, range'_succ, map_cons, heq]
    · rw [if_neg (by omega)]
      refine ⟨n, k :: ks, le_rfl, by simp, fun j hj => ?_, hblock, by simp⟩
      rcases mem_cons.mp hj with rfl | hj
      · omega
      · have := hk j hj
        omega

theorem Buffers.drain (h : Buffers S i P stream n ks) (cum : ℤ) :
    ∃ m rest, n ≤ m ∧ (∀ k ∈ rest, m < k) ∧
      (Sctp.drain cum stream.eMode stream.usNextStreamSeqNum stream.sBufferedChunkList).2.1 =
        (List.range' n (m - n)).map (S.sent i) ∧
      Buffers S i P
        { eMode := stream.eMode
          usNextStreamSeqNum :=
            (Sctp.drain cum stream.eMode stream.usNextStreamSeqNum stream.sBufferedChunkList).1
          sBufferedChunkList :=
            (Sctp.drain cum stream.eMode stream.usNextStreamSeqNum stream.sBufferedChunkList).2.2 }
        m rest := by
  rcases h.mode with hmode | hnil
  · obtain ⟨m, rest, hnm, hsplit, hlt, hbm, hdrain⟩ :=
      @drain_spec c0 i ks num n S cum h.sorted h.le h.block
    rw [h.buffered, h.next, hmode, hdrain]
    refine ⟨m, rest, hnm, hlt, rfl, Or.inl rfl, rfl, rfl, ?_, fun k hk => (hlt k hk).le, hbm,
      fun k => ?_⟩
    · have hs := h.sorted
      rw [hsplit] at hs
      exact (pairwise_append.mp hs).2.1
    · rw [h.processed k, hsplit, mem_append, mem_range'_1, ← or_assoc]
      refine or_congr_left ?_
      omega
  · subst hnil
    rw [h.buffered, map_nil, Sctp.drain]
    refine ⟨n, [], le_rfl, by simp, by simp, Or.inr rfl, h.next, rfl, List.Pairwise.nil, by simp,
      by simp, h.processed⟩

/-! ## Arrivals -/

/-- Chunk `p.2` of the stream `p.1` arrives. -/
def arrivalStep (S : Sender c0 num) (s : Receiver) (p : ℕ × ℕ) : Option (Receiver × Handling) :=
  some (processDataChunk (S.sent p.1 p.2) s)

/-- The arrivals that `ProcessDataChunk` processed, that is, neither dropped nor took for
duplicates. -/
def processed (past : List (ℕ × ℕ)) (outs : List Handling) : List (ℕ × ℕ) :=
  (past.zip outs).filterMap (fun q => if q.2 = .passed then some q.1 else none)

/-- The chunks of the stream `i` that were passed to the upper layer, in order. -/
def deliveredOn (s : Receiver) (i : ℕ) : List DataChunk :=
  s.upperLayer.filter (fun c => c.usStreamId = i)

/-- The chunk belongs to a reliable in-stream, and fewer than `2 ^ 15` chunks of it are
undelivered. -/
def InWindow (s : Receiver) (p : ℕ × ℕ) : Prop :=
  p.1 < s.iNumInStreams ∧ (s.spInStreams p.1).eMode = .reliable ∧
    p.2 < (deliveredOn s p.1).length + 2 ^ 15

/-- The stream sequence number of the undelivered chunk has wrapped around, while the next one of
the stream has not. -/
def Wrapped (s : Receiver) (p : ℕ × ℕ) : Prop :=
  (deliveredOn s p.1).length ≤ p.2 ∧ p.2 % 2 ^ 16 < (s.spInStreams p.1).usNextStreamSeqNum

instance : Decidable (InWindow s p) := inferInstanceAs (Decidable (_ ∧ _ ∧ _))

instance : Decidable (Wrapped s p) := inferInstanceAs (Decidable (_ ∧ _))

structure Delivers (S : Sender c0 num) (rwnd : ℕ) (past : List (ℕ × ℕ)) (outs : List Handling)
    (s : Receiver) : Prop where
  length : past.length = outs.length
  numStreams : s.iNumInStreams = num
  valid : ∀ p ∈ processed past outs, p.1 < num
  tsn : Inv c0 (fun x => x ≤ c0 ∨ ∃ p ∈ processed past outs, (S.sent p.1 p.2).uiTsn = x) s
  highest : c0 ≤ s.uiHighestRecvTsn ∧
    ∀ p ∈ processed past outs, (S.sent p.1 p.2).uiTsn ≤ s.uiHighestRecvTsn
  streams : ∀ i < num, ∃ n ks,
    Buffers S i (fun k => (i, k) ∈ processed past outs) (s.spInStreams i) n ks ∧
      (∀ k ∈ ks, n < k) ∧ deliveredOn s i = (List.range n).map (S.sent i)
  window : s.uiMyRwnd + bufferedBytes s = rwnd

variable {rwnd : ℕ} {past : List (ℕ × ℕ)} {outs : List Handling}

theorem processed_concat (h : past.length = outs.length) (o : Handling) :
    processed (past ++ [p]) (outs ++ [o]) =
      processed past outs ++ if o = .passed then [p] else [] := by
  rw [processed, zip_append h, filterMap_append, processed]
  cases o <;> rfl

theorem Delivers.arrived_iff (h : Delivers S rwnd past outs s) (hp : p.1 < num) :
    ((S.sent p.1 p.2).uiTsn ≤ c0 ∨
        ∃ q ∈ processed past outs, (S.sent q.1 q.2).uiTsn = (S.sent p.1 p.2).uiTsn) ↔
      p ∈ processed past outs := by
  constructor
  · rintro (hle | ⟨q, hq, heq⟩)
    · have := S.lt_tsn p.1 p.2
      omega
    · obtain ⟨h1, h2⟩ := S.tsn_inj _ _ _ _ (h.valid q hq) hp heq
      rwa [← Prod.ext h1 h2]
  · exact fun hmem => Or.inr ⟨p, hmem, rfl⟩

theorem Delivers.not_skipped (h : Delivers S rwnd past outs s) (chunk : DataChunk) :
    ¬ Skipped s chunk := by
  rintro ⟨hlt, hle⟩
  rcases h.tsn.upto_cum le_rfl with hcum | ⟨q, hq, hcum⟩
  · have := h.highest.1
    omega
  · have := h.highest.2 q hq
    omega

theorem Delivers.refused (h : Delivers S rwnd past outs s) {o : Handling} (ho : o ≠ .passed)
    (htsn : SameTsn { s with sDupTsnList := s'.sDupTsnList } s')
    (hnum : s'.iNumInStreams = s.iNumInStreams) (hstreams : s'.spInStreams = s.spInStreams)
    (hupper : s'.upperLayer = s.upperLayer) (hrwnd : s'.uiMyRwnd = s.uiMyRwnd) :
    Delivers S rwnd (past ++ [p]) (outs ++ [o]) s' := by
  have hproc : processed (past ++ [p]) (outs ++ [o]) = processed past outs := by
    rw [processed_concat h.length, if_neg ho, append_nil]
  have htsn' : Inv c0 (fun x => x ≤ c0 ∨ ∃ p ∈ processed past outs, (S.sent p.1 p.2).uiTsn = x)
      { s with sDupTsnList := s'.sDupTsnList } :=
    ⟨h.tsn.sep, h.tsn.nonempty, h.tsn.mem, h.tsn.base, h.tsn.highest⟩
  refine ⟨by simp [h.length], hnum.trans h.numStreams, by rw [hproc]; exact h.valid, ?_, ?_, ?_, ?_⟩
  · rw [hproc]
    exact htsn'.same htsn
  · rw [hproc, htsn.highest]
    exact h.highest
  · rw [hproc, hstreams]
    simp only [deliveredOn, hupper]
    exact h.streams
  · rw [hrwnd, bufferedBytes, hnum, hstreams]
    exact h.window

theorem sum_map_grow {f g : ℕ → ℕ} {l : List ℕ} {d : ℕ} (hl : l.Nodup) (hi : i ∈ l)
    (hother : ∀ j, j ≠ i → g j = f j) (hself : g i = f i + d) :
    (l.map g).sum = (l.map f).sum + d := by
  induction l with
  | nil => cases hi
  | cons j l ih =>
    obtain ⟨hj, hl⟩ := nodup_cons.mp hl
    rw [map_cons, map_cons, sum_cons, sum_cons]
    rcases mem_cons.mp hi with rfl | hi
    · have hrest : l.map g = l.map f :=
        map_congr_left (fun j hjl => hother j (fun heq => hj (heq ▸ hjl)))
      rw [hrest, hself]
      omega
    · rw [ih hl hi, hother j (fun heq => hj (heq ▸ hi))]
      omega

theorem filter_flatMap {f : ℕ → List DataChunk} {l : List ℕ} (hl : l.Nodup) (hi : i ∈ l)
    (hf : ∀ j ∈ l, ∀ c ∈ f j, c.usStreamId = j) :
    (l.flatMap f).filter (fun c => c.usStreamId = i) = f i := by
  -- none of them is left where the stream is not among the ones drained
  have hnone : ∀ l : List ℕ, (∀ j ∈ l, ∀ c ∈ f j, c.usStreamId = j) → i ∉ l →
      (l.flatMap f).filter (fun c => c.usStreamId = i) = [] := by
    intro l hf hi
    refine filter_eq_nil_iff.mpr (fun c hc => ?_)
    obtain ⟨j, hj, hc⟩ := mem_flatMap.mp hc
    have hcj := hf j hj c hc
    exact fun heq => hi (by rw [← of_decide_eq_true heq, hcj]; exact hj)
  induction l with
  | nil => cases hi
  | cons j l ih =>
    obtain ⟨hj, hl⟩ := nodup_cons.mp hl
    rw [flatMap_cons, filter_append]
    rcases mem_cons.mp hi with rfl | hi
    · rw [hnone l (fun j hj => hf j (mem_cons_of_mem _ hj)) hj, append_nil]
      exact filter_eq_self.mpr (fun c hc => decide_eq_true (hf i mem_cons_self c hc))
    · have hij : i ≠ j := fun heq => hj (heq ▸ hi)
      have hfirst : (f j).filter (fun c => c.usStreamId = i) = [] := by
        refine filter_eq_nil_iff.mpr (fun c hc heq => hij ?_)
        rw [← of_decide_eq_true heq, hf j mem_cons_self c hc]
      rw [hfirst, nil_append]
      exact ih hl hi (fun j hj => hf j (mem_cons_of_mem _ hj))

theorem Buffers.swept {Q : ℕ → ℕ → Prop}
    (hb : ∀ i < s.iNumInStreams, ∃ n ks, Buffers S i (Q i) (s.spInStreams i) n ks ∧
      deliveredOn s i = (List.range n).map (S.sent i)) :
    ∀ i < s.iNumInStreams, ∃ n ks, Buffers S i (Q i) ((updateAllStreams s).spInStreams i) n ks ∧
      (∀ k ∈ ks, n < k) ∧ deliveredOn (updateAllStreams s) i = (List.range n).map (S.sent i) := by
  intro i hi
  have hswept := updateAllStreams_swept s
  have hmem := mem_range.mpr hi
  obtain ⟨n, ks, hbuf, hdel⟩ := hb i hi
  obtain ⟨m, rest, hnm, hlt, hdrain, hbuf'⟩ := hbuf.drain s.uiCumAck
  refine ⟨m, rest, ?_, hlt, ?_⟩
  · rw [hswept.stream hmem]
    exact hbuf'
  · have hids : ∀ j ∈ List.range s.iNumInStreams, ∀ c ∈ (drained s j).2.1, c.usStreamId = j := by
      intro j hj c hc
      obtain ⟨n', ks', hbuf', -⟩ := hb j (mem_range.mp hj)
      obtain ⟨m', rest', -, -, hdrain', -⟩ := hbuf'.drain s.uiCumAck
      rw [drained, hdrain'] at hc
      obtain ⟨k, -, rfl⟩ := mem_map.mp hc
      exact S.usStreamId j k
    have hrange : (List.range m).map (S.sent i) =
        (List.range n).map (S.sent i) ++ (List.range' n (m - n)).map (S.sent i) := by
      rw [← map_append, range_eq_range', range_eq_range']
      congr 1
      have := @range'_append 0 n (m - n) 1
      rw [Nat.one_mul, Nat.zero_add] at this
      rw [this]
      congr 1
      omega
    rw [deliveredOn, hswept.upper, filter_append, filter_flatMap nodup_range hmem hids,
      hrange, ← hdrain, ← hdel]
    rfl

/-- **A new chunk** is put into the buffer of its stream, and every stream is drained. -/
theorem Delivers.passed (h : Delivers S rwnd past outs s) (hwin : InWindow s p)
    (hwrap : ¬ Wrapped s p) (hfit : (S.sent p.1 p.2).usLength ≤ s.uiMyRwnd)
    (hnew : p ∉ processed past outs) :
    (processDataChunk (S.sent p.1 p.2) s).2 = .passed ∧
      Delivers S rwnd (past ++ [p]) (outs ++ [.passed])
        (processDataChunk (S.sent p.1 p.2) s).1 := by
  obtain ⟨hid, hmode, hundelivered⟩ := hwin
  obtain ⟨s₁, hinv, hrwnd, hnum, hstreams, hupper, hhigh, heq⟩ := processDataChunk_new h.tsn hfit
    (fun hR => hnew ((h.arrived_iff (h.numStreams ▸ hid)).mp hR))
  rw [heq]
  refine ⟨rfl, ?_⟩
  have hproc : ∀ q, q ∈ processed (past ++ [p]) (outs ++ [.passed]) ↔
      q ∈ processed past outs ∨ q = p := by
    intro q
    rw [processed_concat h.length, if_pos rfl, mem_append, mem_singleton]
  -- the chunk in the buffer of its stream
  set s₂ := passToStream (S.sent p.1 p.2) s₁ with hs₂
  have hpass : s₂ = { s₁ with
      spInStreams := update s.spInStreams p.1
        { s.spInStreams p.1 with
          sBufferedChunkList := insertInStreamBuffer (S.sent p.1 p.2)
            (s.spInStreams p.1).sBufferedChunkList } } := by
    rw [hs₂, passToStream, S.ordered, if_neg (by simp), S.usStreamId, hstreams]
  have hnum₂ : s₂.iNumInStreams = num := by
    rw [hpass]
    exact hnum.trans h.numStreams
  have hupper₂ : s₂.upperLayer = s.upperLayer := by
    rw [hpass]
    exact hupper
  have hself : s₂.spInStreams p.1 = { s.spInStreams p.1 with
      sBufferedChunkList := insertInStreamBuffer (S.sent p.1 p.2)
        (s.spInStreams p.1).sBufferedChunkList } := by
    rw [hpass]
    exact update_self _ _ _
  have hother : ∀ i, i ≠ p.1 → s₂.spInStreams i = s.spInStreams i := by
    intro i hi
    rw [hpass]
    exact update_of_ne hi _ _
  have hsame := (SameTsn.passToStream (S.sent p.1 p.2) s₁).trans (SameTsn.updateAllStreams s₂)
  obtain ⟨n, ks, hbuf, hlt, hdel⟩ := h.streams p.1 (h.numStreams ▸ hid)
  have hlen : (deliveredOn s p.1).length = n := by
    rw [hdel, length_map, length_range]
  have hmissing : ¬ (p.2 < n ∨ p.2 ∈ ks) := fun hc => hnew ((hbuf.processed p.2).mpr hc)
  rw [not_or, not_lt] at hmissing
  have hblock : p.2 / 2 ^ 16 = n / 2 ^ 16 := by
    have hge : ¬ p.2 % 2 ^ 16 < n % 2 ^ 16 := by
      intro hc
      refine hwrap ⟨?_, ?_⟩
      · rw [hlen]
        exact hmissing.1
      · rw [hbuf.next]
        exact hc
    omega
  refine ⟨by simp [h.length], ?_, fun q hq => ?_, ?_, ?_, ?_, ?_⟩
  · rw [(updateAllStreams_swept s₂).num, hnum₂]
  · rcases (hproc q).mp hq with hq | rfl
    · exact h.valid q hq
    · exact h.numStreams ▸ hid
  · refine (hinv.same hsame).congr (fun x => ?_)
    constructor
    · rintro (hx | ⟨q, hq, hx⟩)
      · exact Or.inl (Or.inl hx)
      · rcases (hproc q).mp hq with hq | rfl
        · exact Or.inl (Or.inr ⟨q, hq, hx⟩)
        · exact Or.inr hx.symm
    · rintro ((hx | ⟨q, hq, hx⟩) | hx)
      · exact Or.inl hx
      · exact Or.inr ⟨q, (hproc q).mpr (Or.inl hq), hx⟩
      · exact Or.inr ⟨p, (hproc p).mpr (Or.inr rfl), hx.symm⟩
  · have hmax : (updateAllStreams s₂).uiHighestRecvTsn =
        max s.uiHighestRecvTsn (S.sent p.1 p.2).uiTsn := hsame.highest.trans hhigh
    rw [hmax]
    refine ⟨h.highest.1.trans (le_max_left _ _), fun q hq => ?_⟩
    rcases (hproc q).mp hq with hq | rfl
    · exact (h.highest.2 q hq).trans (le_max_left _ _)
    · exact le_max_right _ _
  · suffices hb : ∀ i < s₂.iNumInStreams, ∃ n ks,
        Buffers S i (fun k => (i, k) ∈ processed (past ++ [p]) (outs ++ [.passed]))
          (s₂.spInStreams i) n ks ∧
        deliveredOn s₂ i = (List.range n).map (S.sent i) by
      intro i hi
      have hswept := Buffers.swept hb i
      rw [hnum₂] at hswept
      exact hswept hi
    intro i hi
    have hdelEq : deliveredOn s₂ i = deliveredOn s i := by
      rw [deliveredOn, hupper₂]
      rfl
    by_cases hip : i = p.1
    · subst hip
      refine ⟨n, insertByKey id p.2 ks, ?_, hdelEq.trans hdel⟩
      rw [hself]
      have hins := hbuf.insert hmode hmissing.1 hblock
      refine ⟨hins.mode, hins.next, hins.buffered, hins.sorted, hins.le, hins.block, fun k => ?_⟩
      rw [← hins.processed k, hproc]
      refine or_congr_right ?_
      constructor
      · exact fun hc => congrArg Prod.snd hc
      · exact fun hc => Prod.ext rfl hc
    · obtain ⟨n', ks', hbuf', -, hdel'⟩ := h.streams i (by rw [← hnum₂]; exact hi)
      refine ⟨n', ks', ?_, hdelEq.trans hdel'⟩
      rw [hother i hip]
      refine ⟨hbuf'.mode, hbuf'.next, hbuf'.buffered, hbuf'.sorted, hbuf'.le, hbuf'.block,
        fun k => ?_⟩
      rw [← hbuf'.processed k, hproc]
      exact ⟨fun hc => hc.elim id (fun hc => absurd (congrArg Prod.fst hc) hip), Or.inl⟩
  · rw [window_updateAllStreams]
    have hgrow : bufferedBytes s₂ = bufferedBytes s + (S.sent p.1 p.2).usLength := by
      rw [bufferedBytes, bufferedBytes, hnum₂, h.numStreams]
      refine sum_map_grow nodup_range (mem_range.mpr (h.numStreams ▸ hid))
        (fun j hj => ?_) ?_
      · rw [hother j hj]
      · rw [hself]
        have hins := (hbuf.insert hmode hmissing.1 hblock).buffered
        rw [hins, hbuf.buffered]
        have hperm := (perm_insertByKey hmissing.2).map (DataChunk.usLength ∘ S.sent p.1)
        rw [bytes, bytes, map_map, map_map, hperm.sum_eq, map_cons, sum_cons]
        exact Nat.add_comm _ _
    have hrwnd₂ : s₂.uiMyRwnd = s.uiMyRwnd - (S.sent p.1 p.2).usLength := by
      rw [hpass]
      exact hrwnd
    have hwindow := h.window
    omega

/-- The step lemma: what a chunk makes deliverable is delivered, in order. -/
theorem Delivers.step (h : Delivers S rwnd past outs s) (hwin : InWindow s p)
    (hwrap : ¬ Wrapped s p) :
    ∃ s' o, arrivalStep S s p = some (s', o) ∧ Delivers S rwnd (past ++ [p]) (outs ++ [o]) s' := by
  by_cases hfit : (S.sent p.1 p.2).usLength ≤ s.uiMyRwnd
  · by_cases hold : p ∈ processed past outs
    · refine ⟨_, .duplicate, congrArg some (processDataChunk_duplicate h.tsn hfit
        ((h.arrived_iff (h.numStreams ▸ hwin.1)).mpr hold) (h.not_skipped _)), ?_⟩
      exact h.refused (by decide) ⟨rfl, rfl, rfl, rfl⟩ rfl rfl rfl rfl
    · obtain ⟨hpassed, hnext⟩ := h.passed hwin hwrap hfit hold
      refine ⟨_, .passed, ?_, hnext⟩
      rw [arrivalStep, ← hpassed]
  · have hdrop : processDataChunk (S.sent p.1 p.2) s =
        ({ s with eSackChunkNeeded := false }, .dropped) := by
      rw [processDataChunk, if_neg hfit]
    refine ⟨_, .dropped, congrArg some hdrop, ?_⟩
    exact h.refused (by decide) ⟨rfl, rfl, rfl, rfl⟩ rfl rfl rfl rfl

theorem Delivers.init (S : Sender c0 num) (rwnd : ℕ) (mode : ℕ → StreamMode) :
    Delivers S rwnd [] [] (Receiver.init c0 rwnd num mode) := by
  refine ⟨rfl, rfl, by simp [processed], (Inv.init c0 rwnd num mode).congr (fun x => ?_),
    ⟨le_rfl, by simp [processed]⟩, fun i _ => ⟨0, [], ?_, by simp, rfl⟩, ?_⟩
  · simp [Arrived, processed]
  · exact ⟨Or.inr rfl, rfl, rfl, List.Pairwise.nil, by simp, by simp, by simp [processed]⟩
  · simp [bufferedBytes, Receiver.init]

/-! ## Runs -/

/-- The chunks of the stream `i` were passed up exactly once and in the order in which they were
sent, up to the first one that has not been processed; what is buffered comes after that one. -/
def InOrder (S : Sender c0 num) (processed : List (ℕ × ℕ)) (s : Receiver) (i : ℕ) : Prop :=
  ∃ n, deliveredOn s i = (List.range n).map (S.sent i) ∧ (i, n) ∉ processed ∧
    (∀ c ∈ (s.spInStreams i).sBufferedChunkList, ∃ k, n < k ∧ c = S.sent i k) ∧
    ∀ k, (i, k) ∈ processed ↔ k < n ∨ S.sent i k ∈ (s.spInStreams i).sBufferedChunkList

theorem Delivers.inOrder (h : Delivers S rwnd past outs s) (hi : i < num) :
    InOrder S (processed past outs) s i := by
  obtain ⟨n, ks, hbuf, hlt, hdel⟩ := h.streams i hi
  have hmem : ∀ k, S.sent i k ∈ (s.spInStreams i).sBufferedChunkList ↔ k ∈ ks := by
    intro k
    rw [hbuf.buffered, mem_map]
    constructor
    · rintro ⟨j, hj, heq⟩
      rwa [← (S.tsn_inj i j i k hi hi (by rw [heq])).2]
    · exact fun hk => ⟨k, hk, rfl⟩
  refine ⟨n, hdel, fun hc => ?_, fun c hc => ?_, fun k => ?_⟩
  · rcases (hbuf.processed n).mp hc with hc | hc
    · omega
    · have := hlt n hc
      omega
  · rw [hbuf.buffered] at hc
    obtain ⟨k, hk, rfl⟩ := mem_map.mp hc
    exact ⟨k, hlt k hk, rfl⟩
  · rw [hmem]
    exact hbuf.processed k

/-- One stream: chunk `k` has 10 bytes and the TSN `k + 1`. -/
def oneStream : Sender 0 1 where
  sent i k := ⟨k + 1, 10, i, k % 2 ^ 16, false⟩
  usStreamId _ _ := rfl
  usStreamSeqNum _ _ := rfl
  ordered _ _ := rfl
  tsn_inj i k i' k' hi hi' heq := by
    dsimp only at heq
    omega
  lt_tsn i k := by
    dsimp only
    omega

/-- **Ordered delivery and window conservation**, after every run of arrivals in which no chunk has
wrapped around before the next one of its stream. A further chunk that fits is processed once. -/
theorem ordered_delivery (S : Sender c0 num) (rwnd : ℕ) (mode : ℕ → StreamMode)
    (arrivals : List (ℕ × ℕ))
    (hok : Runs.Meets (arrivalStep S) (fun s p => InWindow s p ∧ ¬ Wrapped s p)
      (Receiver.init c0 rwnd num mode) arrivals) :
    ∃ s outs, Runs.run (arrivalStep S) (Receiver.init c0 rwnd num mode) arrivals = some (s, outs) ∧
      (∀ i < num, InOrder S (processed arrivals outs) s i) ∧
      s.uiMyRwnd + bufferedBytes s = rwnd ∧
      ∀ p : ℕ × ℕ, InWindow s p → ¬ Wrapped s p → (S.sent p.1 p.2).usLength ≤ s.uiMyRwnd →
        ((processDataChunk (S.sent p.1 p.2) s).2 = .passed ↔ p ∉ processed arrivals outs) := by
  obtain ⟨s, outs, hrun, h⟩ := Runs.run_invariant
    (fun past outs s p (h : Delivers S rwnd past outs s) hp => h.step hp.1 hp.2)
    (Delivers.init S rwnd mode) hok
  refine ⟨s, outs, hrun, fun i hi => h.inOrder hi, h.window, fun p hwin hwrap hfit => ?_⟩
  constructor
  · intro hpassed hold
    rw [processDataChunk_duplicate h.tsn hfit
      ((h.arrived_iff (h.numStreams ▸ hwin.1)).mpr hold) (h.not_skipped _)] at hpassed
    cases hpassed
  · exact fun hnew => (h.passed hwin hwrap hfit hnew).1

theorem ordered_delivery_reordered :
    ∃ s outs, Runs.run (arrivalStep oneStream) (Receiver.init 0 100 1 (fun _ => .reliable))
        [(0, 1), (0, 2), (0, 0), (0, 1), (0, 4)] = some (s, outs) ∧
      outs = [.passed, .passed, .passed, .duplicate, .passed] ∧
      deliveredOn s 0 = (List.range 3).map (oneStream.sent 0) ∧
      (s.spInStreams 0).sBufferedChunkList = [oneStream.sent 0 4] ∧
      (∀ i < 1, InOrder oneStream (processed [(0, 1), (0, 2), (0, 0), (0, 1), (0, 4)] outs) s i) ∧
      s.uiMyRwnd + bufferedBytes s = 100 := by
  obtain ⟨s, outs, hrun, horder, hwindow, -⟩ := ordered_delivery oneStream 100 (fun _ => .reliable)
    [(0, 1), (0, 2), (0, 0), (0, 1), (0, 4)] (by decide +kernel)
  have hfinal : ∀ r ∈ Runs.run (arrivalStep oneStream) (Receiver.init 0 100 1 (fun _ => .reliable))
      [(0, 1), (0, 2), (0, 0), (0, 1), (0, 4)],
      r.2 = [.passed, .passed, .passed, .duplicate, .passed] ∧
        deliveredOn r.1 0 = (List.range 3).map (oneStream.sent 0) ∧
        (r.1.spInStreams 0).sBufferedChunkList = [oneStream.sent 0 4] := by
    decide +kernel
  obtain ⟨houts, hdel, hbuffered⟩ := hfinal (s, outs) hrun
  exact ⟨s, outs, hrun, houts, hdel, hbuffered, horder, hwindow⟩

/-! ## A wrapped chunk -/

/-- A receiver that has processed the first `m` chunks of its stream has delivered them. -/
theorem Delivers.caught_up {m : ℕ} (h : Delivers S rwnd past outs s) (hi : i < num)
    (hproc : ∀ k, (i, k) ∈ processed past outs ↔ k < m) :
    deliveredOn s i = (List.range m).map (S.sent i) ∧
      (s.spInStreams i).usNextStreamSeqNum = m % 2 ^ 16 ∧
      (s.spInStreams i).sBufferedChunkList = [] := by
  obtain ⟨n, ks, hbuf, hlt, hdel⟩ := h.streams i hi
  have hmem : ∀ k, k < m ↔ k < n ∨ k ∈ ks := fun k => (hproc k).symm.trans (hbuf.processed k)
  have hn : ¬ n < m := by
    intro hc
    rcases (hmem n).mp hc with hc | hc
    · omega
    · exact absurd (hlt n hc) (lt_irrefl n)
  have hm : ¬ m < n := fun hc => absurd ((hmem m).mpr (Or.inl hc)) (lt_irrefl m)
  have heq : n = m := by omega
  have hks : ks = [] := by
    refine eq_nil_iff_forall_not_mem.mpr (fun k hk => ?_)
    have h1 := hlt k hk
    have h2 := (hmem k).mpr (Or.inr hk)
    omega
  subst heq
  rw [hbuf.buffered, hks]
  exact ⟨hdel, hbuf.next, rfl⟩

/-- A new chunk of a receiver with one stream, when the chunk that is first in the buffer then is
not the next one. -/
theorem processDataChunk_stuck {R : ℤ → Prop} {chunk first : DataChunk} {rest : List DataChunk}
    (h : Inv c0 R s) (hfit : chunk.usLength ≤ s.uiMyRwnd) (hR : ¬ R chunk.uiTsn)
    (hnum : s.iNumInStreams = 1) (hmode : (s.spInStreams 0).eMode = .reliable)
    (hid : chunk.usStreamId = 0) (hordered : chunk.unordered = false)
    (hbuffered : insertInStreamBuffer chunk (s.spInStreams 0).sBufferedChunkList = first :: rest)
    (hfirst : first.usStreamSeqNum ≠ (s.spInStreams 0).usNextStreamSeqNum) :
    ∃ s', processDataChunk chunk s = (s', .passed) ∧ Inv c0 (fun x => R x ∨ x = chunk.uiTsn) s' ∧
      s'.uiMyRwnd = s.uiMyRwnd - chunk.usLength ∧ s'.iNumInStreams = 1 ∧
      s'.upperLayer = s.upperLayer ∧
      s'.spInStreams 0 = { s.spInStreams 0 with sBufferedChunkList := first :: rest } := by
  obtain ⟨s₁, hinv, hrwnd, hnum₁, hstreams, hupper, -, heq⟩ := processDataChunk_new h hfit hR
  have hpass : passToStream chunk s₁ = { s₁ with
      spInStreams := update s.spInStreams 0
        { s.spInStreams 0 with sBufferedChunkList := first :: rest } } := by
    rw [passToStream, hordered, if_neg (by simp), hid, hstreams]
    dsimp only
    rw [hbuffered]
  have hsame :=
    (SameTsn.passToStream chunk s₁).trans (SameTsn.updateAllStreams (passToStream chunk s₁))
  -- nothing is drained
  have hstream : (passToStream chunk s₁).spInStreams 0 =
      { s.spInStreams 0 with sBufferedChunkList := first :: rest } := by
    rw [hpass]
    dsimp only
    rw [update_self]
  have hdrain : drained (passToStream chunk s₁) 0 =
      ((s.spInStreams 0).usNextStreamSeqNum, [], first :: rest) := by
    rw [drained, hstream, drain, if_neg (fun hc => absurd (hmode.symm.trans hc.1) (by decide)),
      if_neg hfirst]
  have hone : (passToStream chunk s₁).iNumInStreams = 1 := by
    rw [hpass]
    exact hnum₁.trans hnum
  have hswept := updateAllStreams_swept (passToStream chunk s₁)
  rw [hone] at hswept
  refine ⟨_, heq, hinv.same hsame, ?_, hswept.num.trans hone, ?_, ?_⟩
  · rw [hswept.rwnd, range_one, map_singleton, hdrain, hpass]
    simpa using hrwnd
  · rw [hswept.upper, range_one, flatMap_singleton, hdrain, hpass]
    simpa using hupper
  · rw [hswept.stream (by simp), hdrain, hstream]

theorem oneStream_inOrder {m : ℕ} (hm : m < 2 ^ 16) :
    ∃ s outs, Runs.run (arrivalStep oneStream) (Receiver.init 0 100 1 (fun _ => .reliable))
        ((List.range m).map (Prod.mk 0)) = some (s, outs) ∧
      Runs.Meets (arrivalStep oneStream) InWindow (Receiver.init 0 100 1 (fun _ => .reliable))
        ((List.range m).map (Prod.mk 0)) ∧
      Delivers oneStream 100 ((List.range m).map (Prod.mk 0)) outs s ∧
      (∀ k, (0, k) ∈ processed ((List.range m).map (Prod.mk 0)) outs ↔ k < m) ∧
      (s.spInStreams 0).eMode = .reliable ∧ s.uiMyRwnd = 100 := by
  induction m with
  | zero =>
    exact ⟨_, [], rfl, trivial, Delivers.init oneStream 100 _, by simp [processed], rfl, rfl⟩
  | succ m ih =>
    obtain ⟨s, outs, hrun, hmeets, h, hproc, hmode, hrwnd⟩ := ih (by omega)
    obtain ⟨hdel, hnext, hnil⟩ := h.caught_up (by decide : 0 < 1) hproc
    have hlen : (deliveredOn s 0).length = m := by
      rw [hdel, length_map, length_range]
    have hwin : InWindow s (0, m) := by
      refine ⟨by rw [h.numStreams]; exact Nat.one_pos, hmode, ?_⟩
      rw [hlen]
      omega
    have hwrap : ¬ Wrapped s (0, m) := by
      rintro ⟨-, hc⟩
      rw [hnext] at hc
      exact absurd hc (lt_irrefl _)
    have hnew : (0, m) ∉ processed ((List.range m).map (Prod.mk 0)) outs := by
      rw [hproc]
      exact lt_irrefl m
    obtain ⟨hpassed, hnext'⟩ := h.passed hwin hwrap
      (by rw [hrwnd]; exact (by decide : 10 ≤ 100)) hnew
    have hproc' : ∀ k, (0, k) ∈ processed ((List.range m).map (Prod.mk 0) ++ [(0, m)])
        (outs ++ [.passed]) ↔ k < m + 1 := by
      intro k
      rw [processed_concat h.length, if_pos rfl, mem_append, hproc, mem_singleton,
        Prod.mk_right_inj]
      omega
    have hup := hnext'.caught_up (by decide : 0 < 1) hproc'
    rw [range_succ, map_append, map_singleton]
    refine ⟨_, _, Runs.run_concat hrun ?_, Runs.meets_concat.mpr ⟨hmeets, fun r hr => ?_⟩, hnext',
      hproc', ?_, ?_⟩
    · rw [arrivalStep, ← hpassed]
    · rw [hrun] at hr
      cases hr
      exact hwin
    · rw [processDataChunk_mode]
      exact hmode
    · have hw := hnext'.window
      rw [bufferedBytes, hnext'.numStreams, range_one, map_singleton, hup.2.2] at hw
      simpa using hw

/-- **Counterexample**: chunk 65536 has stream sequence number 0 and is put in front of chunk 65535,
which is missing. When that one arrives, the loop stops at chunk 65536, and none of them is ever
passed up. -/
theorem wrapped_chunk_stuck :
    ∃ s outs, Runs.run (arrivalStep oneStream) (Receiver.init 0 100 1 (fun _ => .reliable))
        ((List.range 65535).map (Prod.mk 0) ++ [(0, 65536), (0, 65535)]) = some (s, outs) ∧
      Runs.Meets (arrivalStep oneStream) InWindow (Receiver.init 0 100 1 (fun _ => .reliable))
        ((List.range 65535).map (Prod.mk 0) ++ [(0, 65536), (0, 65535)]) ∧
      (∀ k < 65537, (0, k) ∈
        processed ((List.range 65535).map (Prod.mk 0) ++ [(0, 65536), (0, 65535)]) outs) ∧
      deliveredOn s 0 = (List.range 65535).map (oneStream.sent 0) ∧
      ¬ InOrder oneStream
        (processed ((List.range 65535).map (Prod.mk 0) ++ [(0, 65536), (0, 65535)]) outs) s 0 := by
  have hstart := @oneStream_inOrder 65535 (by decide)
  generalize (List.range 65535).map (Prod.mk 0) = past at hstart ⊢
  obtain ⟨s, outs, hrun, hmeets, h, hproc, hmode, hrwnd⟩ := hstart
  obtain ⟨hdel, hnext, hnil⟩ := h.caught_up Nat.one_pos hproc
  have hwin : ∀ s' : Receiver, s'.iNumInStreams = 1 → s'.upperLayer = s.upperLayer →
      (s'.spInStreams 0).eMode = .reliable → ∀ k < 65537, InWindow s' (0, k) := by
    intro s' hnum hupper hmode' k hk
    refine ⟨by rw [hnum]; exact Nat.one_pos, hmode', ?_⟩
    rw [deliveredOn, hupper, ← deliveredOn, hdel, length_map, length_range]
    omega
  -- chunk 65536
  obtain ⟨s₁, hstep₁, hinv₁, hrwnd₁, hnum₁, hupper₁, hstream₁⟩ :=
    @processDataChunk_stuck _ s _ (oneStream.sent 0 65536) (oneStream.sent 0 65536) [] h.tsn
      (by rw [hrwnd]; exact (by decide : 10 ≤ 100))
      (by
        intro hc
        have hmem := (h.arrived_iff (p := (0, 65536)) Nat.one_pos).mp hc
        rw [hproc] at hmem
        omega)
      h.numStreams hmode rfl rfl (by rw [hnil]; rfl)
      (by rw [hnext]; decide)
  -- chunk 65535
  obtain ⟨s₂, hstep₂, -, -, hnum₂, hupper₂, hstream₂⟩ :=
    @processDataChunk_stuck _ s₁ _ (oneStream.sent 0 65535) (oneStream.sent 0 65536)
      [oneStream.sent 0 65535] hinv₁
      (by rw [hrwnd₁, hrwnd]; exact (by decide : 10 ≤ 100 - 10))
      (by
        rintro (hc | hc)
        · have hmem := (h.arrived_iff (p := (0, 65535)) Nat.one_pos).mp hc
          rw [hproc] at hmem
          omega
        · exact absurd hc (by decide))
      hnum₁ (by rw [hstream₁]; exact hmode) rfl rfl (by rw [hstream₁]; rfl)
      (by rw [hstream₁]; rw [hnext]; decide)
  have hrun₁ := Runs.run_concat hrun
    (show arrivalStep oneStream s (0, 65536) = some (s₁, .passed) from congrArg some hstep₁)
  have hrun₂ := Runs.run_concat hrun₁
    (show arrivalStep oneStream s₁ (0, 65535) = some (s₂, .passed) from congrArg some hstep₂)
  have hlen : (past ++ [(0, 65536)]).length = (outs ++ [Handling.passed]).length := by
    simp [h.length]
  have hall : ∀ k, k < 65537 →
      (0, k) ∈
        processed (past ++ [(0, 65536)] ++ [(0, 65535)]) (outs ++ [.passed] ++ [.passed]) := by
    intro k hk
    rw [processed_concat hlen, processed_concat h.length, if_pos rfl, if_pos rfl]
    simp only [mem_append, mem_singleton, Prod.mk_right_inj, hproc]
    omega
  have hdel₂ : deliveredOn s₂ 0 = (List.range 65535).map (oneStream.sent 0) := by
    rw [deliveredOn, hupper₂, hupper₁]
    exact hdel
  have hassoc : past ++ [(0, 65536), (0, 65535)] = past ++ [(0, 65536)] ++ [(0, 65535)] := by simp
  rw [hassoc]
  refine ⟨s₂, _, hrun₂, ?_, hall, hdel₂, ?_⟩
  · refine Runs.meets_concat.mpr ⟨Runs.meets_concat.mpr ⟨hmeets, fun r hr => ?_⟩, fun r hr => ?_⟩
    · rw [hrun] at hr
      cases hr
      exact hwin s h.numStreams rfl hmode 65536 (by decide)
    · rw [hrun₁] at hr
      cases hr
      exact hwin s₁ hnum₁ hupper₁ (by rw [hstream₁]; exact hmode) 65535 (by decide)
  · rintro ⟨n, hn, hmissing, -⟩
    have heq : n = 65535 := by
      have := congrArg List.length (hn.symm.trans hdel₂)
      rwa [length_map, length_map, length_range, length_range] at this
    exact hmissing (heq ▸ hall 65535 (by decide))

end NetSim.Sctp
