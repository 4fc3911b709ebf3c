import NetSim.Sctp.Sender

/-! # Outstanding bytes

`iOutstandingBytes` of a destination counts the chunks in the send buffer that were last sent to it
and are neither gap acked nor given up (`Accounted`). Inside `ProcessSackChunk` it still counts what
the SACK has newly acknowledged, so there the balance is one of `pending`. Every function keeps the
balance of the chunk it works on, and the loops keep the balance of the buffer (`walk_balance`),
except where a SACK takes back the acknowledgement of a chunk that was given up (`Forgets`).
-/

namespace NetSim.Sctp

open Function List Walk

variable {n : ℕ} {cfg : SenderConfig} {s s' : SendState n} {node : SendBufferNode n}
  {d : Fin n} {p : ℕ → Prop}

/-! ## Quantities -/

def outstanding (s : SendState n) (d : Fin n) : ℤ := (s.sDestList d).iOutstandingBytes

def newlyAcked (s : SendState n) (d : Fin n) : ℤ := (s.sDestList d).iNumNewlyAckedBytes

def pending (s : SendState n) (d : Fin n) : ℤ := outstanding s d - newlyAcked s d

/-- The bytes of a chunk that count for the destination `d`. -/
def weight (node : SendBufferNode n) (d : Fin n) : ℤ :=
  if node.spDest = d ∧ node.eGapAcked = false ∧ node.eAdvancedAcked = false then node.usLength
  else 0

/-- **The accounting**: what is outstanding on a destination is the sum over the chunks in the send
buffer that were last sent to it and are neither gap acked nor given up. -/
def Accounted (s : SendState n) : Prop := ∀ d, outstanding s d = total weight s.sSendBuffer d

theorem weight_nonneg (node : SendBufferNode n) (d : Fin n) : 0 ≤ weight node d := by
  rw [weight]
  split
  · exact Int.natCast_nonneg _
  · exact Int.le_refl 0

@[simp] theorem outstanding_addOutstanding (s : SendState n) (e : Fin n) (b : ℤ) (d : Fin n) :
    outstanding (s.addOutstanding e b) d = outstanding s d + if e = d then b else 0 := by
  unfold outstanding SendState.addOutstanding SendState.setDest
  by_cases h : e = d
  · subst h
    simp
  · simp [update_of_ne (Ne.symm h), h]

@[simp] theorem newlyAcked_addOutstanding (s : SendState n) (e : Fin n) (b : ℤ) (d : Fin n) :
    newlyAcked (s.addOutstanding e b) d = newlyAcked s d := by
  unfold newlyAcked SendState.addOutstanding SendState.setDest
  by_cases h : e = d
  · subst h
    simp
  · simp [update_of_ne (Ne.symm h)]

theorem pending_addOutstanding (s : SendState n) (e : Fin n) (b : ℤ) (d : Fin n) :
    pending (s.addOutstanding e b) d = pending s d + if e = d then b else 0 := by
  rw [pending, pending, outstanding_addOutstanding, newlyAcked_addOutstanding]
  omega

theorem outstanding_setDest {f : Dest → Dest} (e : Fin n)
    (hout : ∀ dest, (f dest).iOutstandingBytes = dest.iOutstandingBytes) (d : Fin n) :
    outstanding (s.setDest e f) d = outstanding s d := by
  unfold outstanding SendState.setDest
  by_cases h : e = d
  · subst h
    simp [hout]
  · simp [update_of_ne (Ne.symm h)]

theorem newlyAcked_setDest {f : Dest → Dest} {b : ℤ} (e : Fin n)
    (hnew : ∀ dest, (f dest).iNumNewlyAckedBytes = dest.iNumNewlyAckedBytes + b) (d : Fin n) :
    newlyAcked (s.setDest e f) d = newlyAcked s d + if e = d then b else 0 := by
  unfold newlyAcked SendState.setDest
  by_cases h : e = d
  · subst h
    simp [hnew]
  · simp [update_of_ne (Ne.symm h), h]

/-! ## Chunks -/

/-- A chunk that is marked for retransmission is neither gap acked nor given up; `p` holds of its
length. -/
structure Sound (p : ℕ → Prop) (node : SendBufferNode n) : Prop where
  marked : node.eMarkedForRtx ≠ .noRtx → node.eGapAcked = false ∧ node.eAdvancedAcked = false
  length : p node.usLength

structure Consistent (p : ℕ → Prop) (s : SendState n) : Prop where
  accounted : Accounted s
  sound : ∀ node ∈ s.sSendBuffer, Sound p node

theorem Consistent.setPending (hs : Consistent p s) (b : Bool) :
    Consistent p { s with eMarkedChunksPending := b } :=
  ⟨hs.accounted, hs.sound⟩

def weightUnmarked (node : SendBufferNode n) (d : Fin n) : ℤ :=
  if node.eMarkedForRtx ≠ .noRtx then 0 else weight node d

/-! ## Retransmission -/

/-- **`MarkChunkForRtx`**: a chunk that is given up is not outstanding any more. -/
theorem markChunkForRtx_spec (cfg : SenderConfig) (kind : MarkedForRtx) (s : SendState n)
    (hgap : node.eGapAcked = false) (hadv : node.eAdvancedAcked = false) (hp : p node.usLength) :
    (∀ d, outstanding (markChunkForRtx cfg kind node s).2 d -
        weight (markChunkForRtx cfg kind node s).1 d = outstanding s d - weight node d) ∧
      (∀ d, newlyAcked (markChunkForRtx cfg kind node s).2 d = newlyAcked s d) ∧
      Sound p (markChunkForRtx cfg kind node s).1 ∧
      (markChunkForRtx cfg kind node s).1.eGapAcked = false := by
  rw [markChunkForRtx]
  by_cases hup : cfg.spOutStreams node.usStreamId = .unreliable ∧ node.iUnrelRtxLimit < node.iNumTxs
  · rw [if_pos hup]
    rw [if_neg (fun hc => hc rfl)]
    refine ⟨fun d => ?_, fun d => newlyAcked_addOutstanding s _ _ d, ⟨fun hc => absurd rfl hc, hp⟩,
      hgap⟩
    rw [outstanding_addOutstanding, weight, weight]
    by_cases hd : node.spDest = d
    · simp [hd, hgap, hadv, Int.sub_eq_add_neg]
    · simp [hd]
  · rw [if_neg hup]
    have hsound : Sound p { node with eMarkedForRtx := kind } := ⟨fun _ => ⟨hgap, hadv⟩, hp⟩
    split
    · exact ⟨fun _ => rfl, fun _ => rfl, hsound, hgap⟩
    · exact ⟨fun _ => rfl, fun _ => rfl, hsound, hgap⟩

theorem countMarked_spec (sign : ℤ) (node : SendBufferNode n) (s : SendState n) (d : Fin n) :
    outstanding (countMarked sign node s).2 d = outstanding s d +
        (if node.eMarkedForRtx ≠ .noRtx ∧ node.spDest = d then sign * node.usLength else 0) ∧
      (countMarked sign node s).1 = node := by
  rw [countMarked]
  by_cases hm : node.eMarkedForRtx ≠ .noRtx
  · rw [if_pos hm]
    exact ⟨by simp [hm], rfl⟩
  · rw [if_neg hm]
    exact ⟨by simp [hm], rfl⟩

theorem Sound.weight_eq (h : Sound p node) (d : Fin n) :
    weight node d = weightUnmarked node d +
      if node.eMarkedForRtx ≠ .noRtx ∧ node.spDest = d then (node.usLength : ℤ) else 0 := by
  rw [weightUnmarked]
  by_cases hm : node.eMarkedForRtx ≠ .noRtx
  · obtain ⟨hgap, hadv⟩ := h.marked hm
    simp [weight, hm, hgap, hadv]
  · simp [hm]

theorem walk_countMarked (sign : ℤ) {l : List (SendBufferNode n)} (s : SendState n) :
    (walk (countMarked sign) l s).1 = l := by
  induction l generalizing s with
  | nil => rfl
  | cons node l ih => rw [walk, ih, (countMarked_spec sign node s node.spDest).2]

/-- **One packet** keeps the balance of the unmarked chunks: what is sent is outstanding on the
destination of the retransmission. -/
theorem fillPacket_spec (spRtxDest : Fin n) {l : List (SendBufferNode n)} (size : ℕ)
    (hl : ∀ node ∈ l, Sound p node) :
    (∀ d, outstanding (fillPacket cfg spRtxDest l size s).state d -
        total weightUnmarked ((fillPacket cfg spRtxDest l size s).passed ++
          (fillPacket cfg spRtxDest l size s).rest) d =
        outstanding s d - total weightUnmarked l d) ∧
      ∀ node ∈ (fillPacket cfg spRtxDest l size s).passed ++
        (fillPacket cfg spRtxDest l size s).rest, Sound p node := by
  induction l generalizing size s with
  | nil => exact ⟨fun _ => rfl, by simp [fillPacket]⟩
  | cons node l ih =>
    have hnode := hl node mem_cons_self
    have hrest : ∀ c ∈ l, Sound p c := fun c hc => hl c (mem_cons_of_mem node hc)
    rw [fillPacket]
    by_cases hm : node.eMarkedForRtx ≠ .noRtx
    · rw [if_pos hm]
      obtain ⟨hgap, hadv⟩ := hnode.marked hm
      by_cases hfit : cfg.uiMaxPayloadSize < size + node.usLength
      · rw [if_pos hfit]
        exact ⟨fun _ => rfl, hl⟩
      · rw [if_neg hfit]
        dsimp only
        obtain ⟨hbal, hsound⟩ := @ih (s.addOutstanding spRtxDest node.usLength)
          (size + paddedSize node.usLength) hrest
        refine ⟨fun d => ?_, fun c hc => ?_⟩
        · have h := hbal d
          rw [outstanding_addOutstanding] at h
          rw [cons_append, total_cons, total_cons]
          have hnew : weightUnmarked { node with
              spDest := spRtxDest
              iNumTxs := node.iNumTxs + 1
              eMarkedForRtx := .noRtx } d = if spRtxDest = d then (node.usLength : ℤ) else 0 := by
            simp [weightUnmarked, weight, hgap, hadv]
          have hold : weightUnmarked node d = 0 := by
            rw [weightUnmarked, if_pos hm]
          omega
        · rcases mem_cons.mp hc with rfl | hc
          · exact ⟨fun hc => absurd rfl hc, hnode.length⟩
          · exact hsound c hc
    · rw [if_neg hm]
      obtain ⟨hbal, hsound⟩ := @ih s size hrest
      refine ⟨fun d => ?_, fun c hc => ?_⟩
      · have h := hbal d
        rw [cons_append, total_cons, total_cons]
        dsimp only
        omega
      · rcases mem_cons.mp hc with rfl | hc
        · exact hnode
        · exact hsound c hc

@[simp] theorem outstanding_burstReached (cfg : SenderConfig) (s : SendState n) (d : Fin n) :
    outstanding (burstReached cfg s).1 d = outstanding s d := by
  rw [burstReached]
  split
  · split <;> rfl
  · rfl

theorem rtxLoop_spec {eLimit : RtxLimit} {spRtxDest : Fin n} {fuel sent : ℕ}
    {l l' : List (SendBufferNode n)} (hl : ∀ node ∈ l, Sound p node)
    (h : rtxLoop cfg eLimit spRtxDest fuel sent l s = some (l', s')) :
    (∀ d, outstanding s' d - total weightUnmarked l' d =
        outstanding s d - total weightUnmarked l d) ∧ ∀ node ∈ l', Sound p node := by
  induction fuel generalizing sent l l' s s' with
  | zero => cases h
  | succ fuel ih =>
    rw [rtxLoop] at h
    by_cases hmore : l ≠ [] ∧ rtxAllowed eLimit spRtxDest sent s
    · rw [if_pos hmore] at h
      obtain ⟨hbal, hsound⟩ := @fillPacket_spec n cfg s p spRtxDest l 0 hl
      generalize fillPacket cfg spRtxDest l 0 s = r at h hbal hsound
      have hpassed : ∀ node ∈ r.passed, Sound p node :=
        fun node hn => hsound node (mem_append.mpr (Or.inl hn))
      have hrest : ∀ node ∈ r.rest, Sound p node :=
        fun node hn => hsound node (mem_append.mpr (Or.inr hn))
      -- the rest of the buffer after this packet
      have hnext : ∀ (sent : ℕ) (s₁ : SendState n),
          (∀ d, outstanding s₁ d = outstanding r.state d) →
          (rtxLoop cfg eLimit spRtxDest fuel sent r.rest s₁).map
            (fun t => (r.passed ++ t.1, t.2)) = some (l', s') →
          (∀ d, outstanding s' d - total weightUnmarked l' d =
            outstanding s d - total weightUnmarked l d) ∧ ∀ node ∈ l', Sound p node := by
        intro sent s₁ hs₁ h
        obtain ⟨⟨l₂, s₂⟩, hrun, heq⟩ := Option.map_eq_some_iff.mp h
        cases heq
        obtain ⟨hbal₂, hsound₂⟩ := ih hrest hrun
        refine ⟨fun d => ?_, fun node hn => ?_⟩
        · have h1 := hbal d
          have h2 := hbal₂ d
          rw [hs₁] at h2
          rw [total_append] at h1 ⊢
          dsimp only at h2 ⊢
          omega
        · rcases mem_append.mp hn with hn | hn
          · exact hpassed node hn
          · exact hsound₂ node hn
      dsimp only at h
      split at h
      · split at h
        · cases h
          exact ⟨fun d => by rw [outstanding_burstReached]; exact hbal d, hsound⟩
        · exact hnext _ _ (outstanding_burstReached cfg r.state) h
      · exact hnext _ _ (fun _ => rfl) h
    · rw [if_neg hmore] at h
      cases h
      exact ⟨fun _ => rfl, hl⟩

theorem rtxMarkedChunks_spec {eLimit : RtxLimit} (hs : Consistent p s)
    (h : rtxMarkedChunks cfg eLimit s = some s') : Consistent p s' := by
  rw [rtxMarkedChunks] at h
  dsimp only at h
  split at h
  · split at h
    · cases h
    · cases h
      exact ⟨hs.accounted, hs.sound⟩
  · rw [walk_countMarked] at h
    obtain ⟨⟨l, s₁⟩, hrun, heq⟩ := Option.map_eq_some_iff.mp h
    cases heq
    obtain ⟨hbal, hsound⟩ := rtxLoop_spec hs.sound hrun
    have hout : ∀ d, outstanding (walk (countMarked (-1)) s.sSendBuffer
        { s with uiBurstLength := 0 }).2 d - total weightUnmarked s.sSendBuffer d =
        outstanding s d - total weight s.sSendBuffer d := by
      intro d
      have hw := walk_balance (v := outstanding) (w := weight) (u := weightUnmarked)
        (f := countMarked (-1)) (P := Sound p) (s := { s with uiBurstLength := 0 })
        (fun c s₂ hc d => ?_) hs.sound d
      · rw [walk_countMarked] at hw
        exact hw
      · obtain ⟨h1, h2⟩ := countMarked_spec (-1) c s₂ d
        rw [h1, h2, hc.weight_eq d]
        split <;> omega
    have hin : ∀ d, outstanding (walk (countMarked 1) l s₁).2 d - total weight l d =
        outstanding s₁ d - total weightUnmarked l d := by
      intro d
      have hw := walk_balance (v := outstanding) (w := weightUnmarked) (u := weight)
        (f := countMarked 1) (P := Sound p) (s := s₁) (fun c s₂ hc d => ?_) hsound d
      · rw [walk_countMarked] at hw
        exact hw
      · obtain ⟨h1, h2⟩ := countMarked_spec 1 c s₂ d
        rw [h1, h2, hc.weight_eq d]
        split <;> omega
    refine ⟨fun d => ?_, ?_⟩
    · dsimp only
      rw [walk_countMarked]
      have h0 := hs.accounted d
      have h1 := hout d
      have h2 := hbal d
      have h3 := hin d
      have hstate : outstanding { (walk (countMarked 1) l s₁).2 with
          sSendBuffer := l, eMarkedChunksPending := anyMarkedChunks l } d =
          outstanding (walk (countMarked 1) l s₁).2 d := rfl
      rw [hstate]
      omega
    · rw [walk_countMarked]
      exact hsound

/-! ## Termination -/

theorem fillPacket_rest_le (spRtxDest : Fin n) (l : List (SendBufferNode n)) (size : ℕ)
    (s : SendState n) : (fillPacket cfg spRtxDest l size s).rest.length ≤ l.length := by
  induction l generalizing size s with
  | nil => exact le_rfl
  | cons node l ih =>
    rw [fillPacket]
    split
    · split
      · exact le_rfl
      · exact (ih _ _).trans (Nat.le_succ _)
    · exact (ih _ _).trans (Nat.le_succ _)

theorem fillPacket_rest_lt (spRtxDest : Fin n) {l : List (SendBufferNode n)} (s : SendState n)
    (hne : l ≠ []) (hl : ∀ node ∈ l, Sound (· ≤ cfg.uiMaxPayloadSize) node) :
    (fillPacket cfg spRtxDest l 0 s).rest.length < l.length := by
  cases l with
  | nil => exact absurd rfl hne
  | cons node l =>
    have hlen := (hl node mem_cons_self).length
    rw [fillPacket]
    split
    · rw [if_neg (by omega)]
      exact Nat.lt_succ_of_le (fillPacket_rest_le _ _ _ _)
    · exact Nat.lt_succ_of_le (fillPacket_rest_le _ _ _ _)

theorem rtxLoop_total {eLimit : RtxLimit} {spRtxDest : Fin n} {fuel sent : ℕ}
    {l : List (SendBufferNode n)} (hfuel : l.length < fuel)
    (hl : ∀ node ∈ l, Sound (· ≤ cfg.uiMaxPayloadSize) node) :
    ∃ r, rtxLoop cfg eLimit spRtxDest fuel sent l s = some r := by
  induction fuel generalizing sent l s with
  | zero => omega
  | succ fuel ih =>
    rw [rtxLoop]
    by_cases hmore : l ≠ [] ∧ rtxAllowed eLimit spRtxDest sent s
    · rw [if_pos hmore]
      dsimp only
      have hlt := fillPacket_rest_lt spRtxDest s hmore.1 hl
      have hsound := (@fillPacket_spec n cfg s _ spRtxDest l 0 hl).2
      have hnext : ∀ sent s₁, ∃ r, rtxLoop cfg eLimit spRtxDest fuel sent
          (fillPacket cfg spRtxDest l 0 s).rest s₁ = some r :=
        fun sent s₁ => ih (by omega)
          (fun node hn => hsound node (mem_append.mpr (Or.inr hn)))
      split
      · split
        · exact ⟨_, rfl⟩
        · obtain ⟨r, hr⟩ :=
            hnext (sent + 1) (burstReached cfg (fillPacket cfg spRtxDest l 0 s).state).1
          exact ⟨_, congrArg (Option.map _) hr⟩
      · obtain ⟨r, hr⟩ := hnext sent (fillPacket cfg spRtxDest l 0 s).state
        exact ⟨_, congrArg (Option.map _) hr⟩
    · rw [if_neg hmore]
      exact ⟨_, rfl⟩

theorem rtxMarkedChunks_total {eLimit : RtxLimit}
    (hs : Consistent (· ≤ cfg.uiMaxPayloadSize) s)
    (hlimit : eLimit = .cwnd → anyMarkedChunks s.sSendBuffer = true) :
    ∃ s', rtxMarkedChunks cfg eLimit s = some s' := by
  rw [rtxMarkedChunks]
  dsimp only
  split
  case h_1 hnone =>
    by_cases hc : eLimit = .cwnd
    · have hany := hlimit hc
      rw [anyMarkedChunks, any_eq_true] at hany
      obtain ⟨node, hmem, hmarked⟩ := hany
      exact absurd hmarked (find?_eq_none.mp hnone node hmem)
    · rw [if_neg hc]
      exact ⟨_, rfl⟩
  case h_2 node _ =>
    rw [walk_countMarked]
    obtain ⟨r, hr⟩ := @rtxLoop_total n cfg (walk (countMarked (-1)) s.sSendBuffer
      { s with uiBurstLength := 0 }).2 eLimit (rtxDestOf cfg { s with uiBurstLength := 0 } node)
      (s.sSendBuffer.length + 1) 0 s.sSendBuffer (Nat.lt_succ_self _) hs.sound
    exact ⟨_, congrArg (Option.map _) hr⟩

/-! ## Timeouts and fast retransmission -/

/-- The counter of every destination changes with the weight of the chunk. -/
theorem timeoutChunk_spec (spDest : Fin n) (s : SendState n) (h : Sound p node) :
    (∀ d, outstanding (timeoutChunk cfg spDest node s).2 d -
        weight (timeoutChunk cfg spDest node s).1 d = outstanding s d - weight node d) ∧
      Sound p (timeoutChunk cfg spDest node s).1 := by
  rw [timeoutChunk]
  by_cases hc : node.spDest = spDest ∧ node.eGapAcked = false ∧ node.eAdvancedAcked = false
  · rw [if_pos hc]
    obtain ⟨hbal, -, hsound, -⟩ := markChunkForRtx_spec cfg .timeoutRtx s hc.2.1 hc.2.2 h.length
    exact ⟨hbal, hsound.marked, hsound.length⟩
  · rw [if_neg hc]
    exact ⟨fun _ => rfl, h⟩

theorem timeoutRtx_marked (spDest : Fin n) (hs : Consistent p s) :
    Consistent p { (walk (timeoutChunk cfg spDest) s.sSendBuffer s).2 with
      sSendBuffer := (walk (timeoutChunk cfg spDest) s.sSendBuffer s).1 } := by
  refine ⟨fun d => ?_, ?_⟩
  · have hw := walk_balance (v := outstanding) (w := weight) (u := weight)
      (f := timeoutChunk cfg spDest) (P := Sound p) (s := s)
      (fun c s₁ hc => (timeoutChunk_spec spDest s₁ hc).1) hs.sound d
    have hacc := hs.accounted d
    change outstanding (walk (timeoutChunk cfg spDest) s.sSendBuffer s).2 d = _
    dsimp only
    omega
  · exact walk_cells (fun c s₁ hc => (timeoutChunk_spec spDest s₁ hc).2) hs.sound

/-- A timeout keeps the accounting: chunks are marked, and some are sent again. -/
theorem timeoutRtx_spec {spDest : Fin n} (hs : Consistent p s)
    (h : timeoutRtx cfg spDest s = some s') : Consistent p s' := by
  have hmarked := @timeoutRtx_marked n cfg s _ spDest hs
  rw [timeoutRtx] at h
  split at h
  · exact rtxMarkedChunks_spec hmarked h
  · cases h
    exact hmarked

theorem timeoutRtx_total (spDest : Fin n) (hs : Consistent (· ≤ cfg.uiMaxPayloadSize) s) :
    ∃ s', timeoutRtx cfg spDest s = some s' := by
  have hmarked := @timeoutRtx_marked n cfg s _ spDest hs
  rw [timeoutRtx]
  split
  · exact rtxMarkedChunks_total hmarked (fun hc => by cases hc)
  · exact ⟨_, rfl⟩

theorem getHighestOutstandingTsn_spec (buffer : List (SendBufferNode n)) (s : SendState n) :
    (getHighestOutstandingTsn buffer s).2.sDestList = s.sDestList ∧
      (getHighestOutstandingTsn buffer s).2.sSendBuffer = s.sSendBuffer := by
  unfold getHighestOutstandingTsn
  dsimp only
  split
  · split <;> exact ⟨rfl, rfl⟩
  · split <;> exact ⟨rfl, rfl⟩

theorem cutCwnd_spec (buffer : List (SendBufferNode n)) (s : SendState n)
    (node : SendBufferNode n) :
    (∀ d, outstanding (cutCwnd cfg buffer s node) d = outstanding s d) ∧
      (cutCwnd cfg buffer s node).sSendBuffer = s.sSendBuffer := by
  rw [cutCwnd]
  split
  · generalize hcut : s.setDest node.spDest _ = s₁
    obtain ⟨hdest, hbuf⟩ := getHighestOutstandingTsn_spec buffer s₁
    refine ⟨fun d => ?_, ?_⟩
    · have hout : outstanding s₁ d = outstanding s d := by
        rw [← hcut]
        apply outstanding_setDest
        exact fun _ => rfl
      rw [← hout, outstanding, outstanding]
      exact congrArg (fun l => (l d).iOutstandingBytes) hdest
    · refine hbuf.trans ?_
      rw [← hcut]
      rfl
  · exact ⟨fun _ => rfl, rfl⟩

theorem foldl_cutCwnd (buffer l : List (SendBufferNode n)) (s : SendState n) :
    (∀ d, outstanding (l.foldl (cutCwnd cfg buffer) s) d = outstanding s d) ∧
      (l.foldl (cutCwnd cfg buffer) s).sSendBuffer = s.sSendBuffer := by
  induction l generalizing s with
  | nil => exact ⟨fun _ => rfl, rfl⟩
  | cons node l ih =>
    obtain ⟨hout, hbuf⟩ := ih (cutCwnd cfg buffer s node)
    obtain ⟨hout₁, hbuf₁⟩ := @cutCwnd_spec n cfg buffer s node
    exact ⟨fun d => (hout d).trans (hout₁ d), hbuf.trans hbuf₁⟩

theorem fastRtx_cut (hs : Consistent p s) :
    Consistent p (s.sSendBuffer.foldl (cutCwnd cfg s.sSendBuffer)
      { s with sDestList := fun d => { s.sDestList d with eCcApplied := false } }) := by
  obtain ⟨hout, hbuf⟩ := @foldl_cutCwnd n cfg s.sSendBuffer s.sSendBuffer
    { s with sDestList := fun d => { s.sDestList d with eCcApplied := false } }
  refine ⟨fun d => ?_, ?_⟩
  · rw [hout, hbuf]
    exact hs.accounted d
  · rw [hbuf]
    exact hs.sound

/-- A fast retransmission keeps the accounting. -/
theorem fastRtx_spec (hs : Consistent p s) (h : fastRtx cfg s = some s') : Consistent p s' := by
  have hcut := @fastRtx_cut n cfg s _ hs
  rw [fastRtx] at h
  split at h
  · exact rtxMarkedChunks_spec hcut h
  · cases h
    exact hcut

theorem fastRtx_total (hs : Consistent (· ≤ cfg.uiMaxPayloadSize) s) :
    ∃ s', fastRtx cfg s = some s' := by
  have hcut := @fastRtx_cut n cfg s _ hs
  rw [fastRtx]
  split
  · exact rtxMarkedChunks_total hcut (fun hc => by cases hc)
  · exact ⟨_, rfl⟩

/-! ## Acknowledged chunks -/

@[simp] theorem clearErrors_spec (e : Fin n) (s : SendState n) (d : Fin n) :
    outstanding (clearErrors e s) d = outstanding s d ∧
      newlyAcked (clearErrors e s) d = newlyAcked s d := by
  have hset : outstanding (s.setDest e
      (fun dest => { dest with iErrorCount := 0, eStatus := .active })) d = outstanding s d := by
    apply outstanding_setDest
    exact fun _ => rfl
  have hnew : newlyAcked (s.setDest e
      (fun dest => { dest with iErrorCount := 0, eStatus := .active })) d = newlyAcked s d := by
    refine (newlyAcked_setDest (b := 0) e ?_ d).trans ?_
    · exact fun dest => (Int.add_zero _).symm
    · rw [ite_self, Int.add_zero]
  rw [clearErrors]
  split
  · exact ⟨hset, hnew⟩
  · exact ⟨hset, hnew⟩

theorem pending_clearErrors (e : Fin n) (s : SendState n) (d : Fin n) :
    pending (clearErrors e s) d = pending s d := by
  rw [pending, pending, (clearErrors_spec e s d).1, (clearErrors_spec e s d).2]

theorem pending_setDest {f : Dest → Dest} {b : ℤ} (e : Fin n)
    (hout : ∀ dest, (f dest).iOutstandingBytes = dest.iOutstandingBytes)
    (hnew : ∀ dest, (f dest).iNumNewlyAckedBytes = dest.iNumNewlyAckedBytes + b) (d : Fin n) :
    pending (s.setDest e f) d = pending s d - if e = d then b else 0 := by
  rw [pending, pending, outstanding_setDest e hout, newlyAcked_setDest e hnew]
  omega

theorem dequeueChunk_spec (node : SendBufferNode n) (s : SendState n) (d : Fin n) :
    pending (dequeueChunk node s) d = pending s d - weight node d := by
  rw [dequeueChunk]
  generalize hs₁ : (if node.eGapAcked = false ∧ node.eAdvancedAcked = false then _ else s) = s₁
  have hack : pending s₁ d = pending s d - weight node d := by
    rw [← hs₁]
    by_cases hun : node.eGapAcked = false ∧ node.eAdvancedAcked = false
    · rw [if_pos hun]
      refine (pending_setDest (b := node.usLength) node.spDest ?_ ?_ d).trans ?_
      · exact fun _ => rfl
      · exact fun _ => rfl
      · simp only [weight, hun.1, hun.2, and_true]
        rfl
    · rw [if_neg hun, weight, if_neg (fun hc => hun hc.2), Int.sub_zero]
  have hburst : ∀ s₂ : SendState n, s₂.sDestList = s₁.sDestList → pending s₂ d = pending s₁ d := by
    intro s₂ h
    unfold pending outstanding newlyAcked
    rw [h]
  rw [← hack]
  generalize hs₂ : (if node.eIneligibleForFastRtx = true then { s₁ with eApplyMaxBurst := true }
    else s₁) = s₂
  have hsame := hburst s₂ (by rw [← hs₂]; split <;> rfl)
  split
  · rw [pending_clearErrors, hsame]
  · exact hsame

/-- **`SendBufferDequeueUpTo`**: what leaves the buffer is newly acknowledged. -/
theorem dequeueLoop_spec (uiTsn : ℤ) (l : List (SendBufferNode n)) (s : SendState n) :
    (dequeueLoop uiTsn l s).1 = l.dropWhile (fun node => node.uiTsn ≤ uiTsn) ∧
      ∀ d, pending (dequeueLoop uiTsn l s).2 d - total weight (dequeueLoop uiTsn l s).1 d =
        pending s d - total weight l d := by
  induction l generalizing s with
  | nil => exact ⟨rfl, fun _ => rfl⟩
  | cons node l ih =>
    rw [dequeueLoop]
    by_cases hle : node.uiTsn ≤ uiTsn
    · obtain ⟨hdrop, hbal⟩ := ih (dequeueChunk node s)
      rw [if_pos hle]
      refine ⟨?_, fun d => ?_⟩
      · rw [hdrop, dropWhile_cons_of_pos (by simpa using hle)]
      · rw [hbal, dequeueChunk_spec, total_cons]
        omega
    · rw [if_neg hle]
      exact ⟨(dropWhile_cons_of_neg (by simpa using hle)).symm, fun _ => rfl⟩

/-- **A chunk in a gap ack block** is newly acknowledged, unless it was so before. -/
theorem gapAck_spec (eNewCumAck : Bool) (s : SendState n) (h : Sound p node) :
    (∀ d, pending (gapAck eNewCumAck node s).2 d - weight (gapAck eNewCumAck node s).1 d =
        pending s d - weight node d) ∧ Sound p (gapAck eNewCumAck node s).1 := by
  rw [gapAck]
  by_cases hgap : node.eGapAcked = false
  · rw [if_pos hgap]
    dsimp only
    refine ⟨fun d => ?_, fun hc => absurd rfl hc, h.length⟩
    generalize hs₁ : (if node.eAdvancedAcked = false then _
      else { s with uiHighestTsnNewlyAcked := max s.uiHighestTsnNewlyAcked node.uiTsn }) = s₁
    have hack : pending s₁ d = pending s d - weight node d := by
      rw [← hs₁]
      by_cases hadv : node.eAdvancedAcked = false
      · rw [if_pos hadv]
        refine (pending_setDest (b := node.usLength) node.spDest ?_ ?_ d).trans ?_
        · exact fun _ => rfl
        · exact fun _ => rfl
        · simp only [weight, hgap, hadv, and_true]
          rfl
      · rw [if_neg hadv, weight, if_neg (fun hc => hadv hc.2.2), Int.sub_zero]
        rfl
    have hpartial : ∀ (c : Prop) [Decidable c], pending (if c then
        s₁.setDest node.spDest (fun dest =>
          { dest with iPartialBytesAcked := dest.iPartialBytesAcked + node.usLength })
        else s₁) d = pending s₁ d := by
      intro c _
      split
      · refine (pending_setDest (b := 0) node.spDest ?_ ?_ d).trans ?_
        · exact fun _ => rfl
        · exact fun dest => (Int.add_zero _).symm
        · rw [ite_self, Int.sub_zero]
      · rfl
    have hclear : ∀ (c : Prop) [Decidable c] (s₂ : SendState n),
        pending (if c then clearErrors node.spDest s₂ else s₂) d = pending s₂ d := by
      intro c _ s₂
      split
      · exact pending_clearErrors node.spDest s₂ d
      · rfl
    have hzero : ∀ added, weight { node with
        eGapAcked := true, eAddedToPartialBytesAcked := added, eMarkedForRtx := .noRtx } d = 0 := by
      intro added
      simp [weight]
    rw [hzero, Int.sub_zero, hclear, hpartial, hack]
  · rw [if_neg hgap]
    exact ⟨fun _ => rfl, h⟩

/-- **A chunk that the SACK does not acknowledge any more** is outstanding again. This is right
unless it was given up. -/
theorem unGapAck_spec (s : SendState n) (h : Sound p node)
    (hup : ¬ (node.eGapAcked = true ∧ node.eAdvancedAcked = true)) :
    (∀ d, pending (unGapAck node s).2 d - weight (unGapAck node s).1 d =
        pending s d - weight node d) ∧ Sound p (unGapAck node s).1 := by
  rw [unGapAck]
  by_cases hgap : node.eGapAcked = true
  · have hadv : node.eAdvancedAcked = false := by
      rw [← Bool.not_eq_true]
      exact fun hc => hup ⟨hgap, hc⟩
    rw [if_pos hgap]
    refine ⟨fun d => ?_, fun hm => absurd (h.marked hm).1 (by simp [hgap]), h.length⟩
    rw [pending_addOutstanding]
    simp only [weight, hadv, hgap]
    by_cases hd : node.spDest = d
    · simp [hd]
    · simp [hd]
  · rw [if_neg hgap]
    exact ⟨fun _ => rfl, h⟩

/-! ## Gap ack blocks -/

/-- The chunks that `ProcessGapAckBlocks` finds in no gap ack block when it goes through the send
buffer and the blocks side by side. -/
def missed (uiCumAck : ℤ) :
    List GapAckBlock → List (SendBufferNode n) → List (SendBufferNode n)
  | block :: blocks, node :: rest =>
    if node.uiTsn < uiCumAck + block.usStartOffset then
      node :: missed uiCumAck (block :: blocks) rest
    else if node.uiTsn ≤ uiCumAck + block.usEndOffset then
      missed uiCumAck (block :: blocks) rest
    else node :: missed uiCumAck blocks rest
  | [], nodes => nodes
  | _, [] => []

/-- The SACK takes back the acknowledgement of a chunk that was given up. -/
def Forgets (s : SendState n) : SendEvent n → Prop
  | .sack sack =>
    s.uiCumAckPoint ≤ sack.uiCumAck ∧ sack.gapAckBlocks ≠ [] ∧
      ∃ node ∈ missed sack.uiCumAck sack.gapAckBlocks
          (if s.uiCumAckPoint < sack.uiCumAck then
            s.sSendBuffer.dropWhile (fun node => node.uiTsn ≤ sack.uiCumAck)
          else s.sSendBuffer),
        node.eGapAcked = true ∧ node.eAdvancedAcked = true
  | _ => False

instance (s : SendState n) (e : SendEvent n) : Decidable (Forgets s e) :=
  match e with
  | .sack sack =>
    inferInstanceAs (Decidable (s.uiCumAckPoint ≤ sack.uiCumAck ∧ sack.gapAckBlocks ≠ [] ∧
      ∃ node ∈ missed sack.uiCumAck sack.gapAckBlocks
          (if s.uiCumAckPoint < sack.uiCumAck then
            s.sSendBuffer.dropWhile (fun node => node.uiTsn ≤ sack.uiCumAck)
          else s.sSendBuffer),
        node.eGapAcked = true ∧ node.eAdvancedAcked = true))
  | .newChunk .. => isFalse id
  | .timeout _ => isFalse id
  | .path .. => isFalse id

/-- **The walk over the gap ack blocks** keeps the balance, by induction on the buffer. -/
theorem gapAckLoop_spec {uiCumAck : ℤ} {eNewCumAck : Bool} {blocks : List GapAckBlock}
    {l : List (SendBufferNode n)} {high : ℤ} (hl : ∀ node ∈ l, Sound p node)
    (hup : ∀ node ∈ missed uiCumAck blocks l,
      ¬ (node.eGapAcked = true ∧ node.eAdvancedAcked = true)) :
    (∀ d, pending (gapAckLoop uiCumAck eNewCumAck blocks l s high).2.1 d -
        total weight (gapAckLoop uiCumAck eNewCumAck blocks l s high).1 d =
        pending s d - total weight l d) ∧
      ∀ node ∈ (gapAckLoop uiCumAck eNewCumAck blocks l s high).1, Sound p node := by
  induction l generalizing blocks s high with
  | nil =>
    cases blocks with
    | nil => exact ⟨fun _ => rfl, by simp [gapAckLoop, walk]⟩
    | cons block blocks => exact ⟨fun _ => rfl, by simp [gapAckLoop]⟩
  | cons node l ih =>
    have hnode := hl node mem_cons_self
    have hrest : ∀ c ∈ l, Sound p c := fun c hc => hl c (mem_cons_of_mem node hc)
    cases blocks with
    | nil =>
      have hboth : ∀ c ∈ node :: l,
          Sound p c ∧ ¬ (c.eGapAcked = true ∧ c.eAdvancedAcked = true) :=
        fun c hc => ⟨hl c hc, hup c hc⟩
      exact ⟨walk_balance (fun c s₁ hc => (unGapAck_spec s₁ hc.1 hc.2).1) hboth,
        walk_cells (fun c s₁ hc => (unGapAck_spec s₁ hc.1 hc.2).2) hboth⟩
    | cons block blocks =>
      -- a step on the chunk, and the walk over the rest of the buffer
      have hcons : ∀ (r : SendBufferNode n × SendState n) (blocks : List GapAckBlock)
          (high : ℤ),
          (∀ d, pending r.2 d - weight r.1 d = pending s d - weight node d) ∧ Sound p r.1 →
          (∀ node ∈ missed uiCumAck blocks l,
            ¬ (node.eGapAcked = true ∧ node.eAdvancedAcked = true)) →
          (∀ d, pending (gapAckLoop uiCumAck eNewCumAck blocks l r.2 high).2.1 d -
              total weight (r.1 :: (gapAckLoop uiCumAck eNewCumAck blocks l r.2 high).1) d =
              pending s d - total weight (node :: l) d) ∧
            ∀ c ∈ r.1 :: (gapAckLoop uiCumAck eNewCumAck blocks l r.2 high).1, Sound p c := by
        intro r blocks high hr hmissed
        obtain ⟨hbal, hsound⟩ := @ih r.2 blocks high hrest hmissed
        refine ⟨fun d => ?_, fun c hc => ?_⟩
        · have h1 := hr.1 d
          have h2 := hbal d
          rw [total_cons, total_cons]
          omega
        · rcases mem_cons.mp hc with rfl | hc
          · exact hr.2
          · exact hsound c hc
      rw [missed] at hup
      rw [gapAckLoop]
      by_cases hbefore : node.uiTsn < uiCumAck + block.usStartOffset
      · rw [if_pos hbefore] at hup ⊢
        exact hcons _ _ _ (unGapAck_spec s hnode (hup node mem_cons_self))
          (fun c hc => hup c (mem_cons_of_mem node hc))
      · rw [if_neg hbefore] at hup ⊢
        by_cases hin : node.uiTsn ≤ uiCumAck + block.usEndOffset
        · rw [if_pos hin] at hup ⊢
          exact hcons _ _ _ (gapAck_spec eNewCumAck s hnode) hup
        · rw [if_neg hin] at hup ⊢
          exact hcons _ _ _ (unGapAck_spec s hnode (hup node mem_cons_self))
            (fun c hc => hup c (mem_cons_of_mem node hc))

/-- A missing report changes the counters only where it marks the chunk. -/
theorem reportMissing_spec (eNewCumAck : Bool) (high : ℤ) (r : SendState n × Bool)
    (h : Sound p node) :
    (∀ d, pending (reportMissing cfg eNewCumAck high node r).2.1 d -
        weight (reportMissing cfg eNewCumAck high node r).1 d =
        pending r.1 d - weight node d) ∧
      Sound p (reportMissing cfg eNewCumAck high node r).1 := by
  rw [reportMissing]
  dsimp only
  split
  case isTrue hreport =>
    split
    case isTrue hmark =>
      obtain ⟨hout, hnew, hsound, -⟩ := @markChunkForRtx_spec n
        { node with iNumMissingReports := node.iNumMissingReports + 1 } p cfg .fastRtx r.1
        hreport.1 hmark.2.2 h.length
      generalize markChunkForRtx cfg .fastRtx
        { node with iNumMissingReports := node.iNumMissingReports + 1 } r.1 = m
        at hout hnew hsound ⊢
      refine ⟨fun d => ?_, hsound.marked, hsound.length⟩
      have h1 : outstanding m.2 d - weight m.1 d = outstanding r.1 d - weight node d := hout d
      have h2 := hnew d
      change pending m.2 d - weight m.1 d = pending r.1 d - weight node d
      rw [pending, pending, h2]
      omega
    case isFalse => exact ⟨fun _ => rfl, h.marked, h.length⟩
  case isFalse => exact ⟨fun _ => rfl, h⟩

/-- The gap acks and the missing reports move the counters with the weights. -/
theorem processGapAckBlocks_spec {sack : SackChunk} {eNewCumAck : Bool}
    (hbal : ∀ d, pending s d = total weight s.sSendBuffer d)
    (hsound : ∀ node ∈ s.sSendBuffer, Sound p node)
    (hup : ∀ node ∈ missed sack.uiCumAck sack.gapAckBlocks s.sSendBuffer,
      ¬ (node.eGapAcked = true ∧ node.eAdvancedAcked = true)) :
    (∀ d, pending (processGapAckBlocks cfg sack eNewCumAck s).1 d =
        total weight (processGapAckBlocks cfg sack eNewCumAck s).1.sSendBuffer d) ∧
      ∀ node ∈ (processGapAckBlocks cfg sack eNewCumAck s).1.sSendBuffer, Sound p node := by
  rw [processGapAckBlocks]
  by_cases hnil : s.sSendBuffer = []
  · rw [if_pos hnil]
    exact ⟨hbal, hsound⟩
  · rw [if_neg hnil]
    obtain ⟨hgap, hsound₁⟩ := @gapAckLoop_spec n s p sack.uiCumAck eNewCumAck sack.gapAckBlocks
      s.sSendBuffer s.uiHighestTsnNewlyAcked hsound hup
    generalize gapAckLoop sack.uiCumAck eNewCumAck sack.gapAckBlocks s.sSendBuffer s
      s.uiHighestTsnNewlyAcked = g at hgap hsound₁ ⊢
    have hmark := walk_balance (v := fun (r : SendState n × Bool) d => pending r.1 d)
      (w := weight) (u := weight) (f := reportMissing cfg eNewCumAck g.2.2) (s := (g.2.1, false))
      (fun c r hc => (reportMissing_spec eNewCumAck g.2.2 r hc).1) hsound₁
    refine ⟨fun d => ?_, ?_⟩
    · have h1 := hbal d
      have h2 := hgap d
      have h3 := hmark d
      change pending (walk (reportMissing cfg eNewCumAck g.2.2) g.1 (g.2.1, false)).2.1 d = _
      dsimp only at h3 ⊢
      omega
    · exact walk_cells (fun c r hc => (reportMissing_spec eNewCumAck g.2.2 r hc).2) hsound₁

/-! ## SACK chunks -/

/-- **Acknowledging**: what is pending is the sum over the chunks that are left. -/
theorem ackChunks_spec {sack : SackChunk} (hs : Consistent p s)
    (hcum : s.uiCumAckPoint ≤ sack.uiCumAck) (hup : ¬ Forgets s (.sack sack)) :
    (∀ d, pending (ackChunks cfg sack s).1 d =
        total weight (ackChunks cfg sack s).1.sSendBuffer d) ∧
      ∀ node ∈ (ackChunks cfg sack s).1.sSendBuffer, Sound p node := by
  rw [ackChunks]
  generalize hs₁ : (if decide (s.uiCumAckPoint < sack.uiCumAck) = true then _ else
    { s with sDestList := fun d => { s.sDestList d with iNumNewlyAckedBytes := 0 } }) = s₁
  -- the buffer and the balance after the cumulative ack
  have hclear : ∀ d, pending { s with
      sDestList := fun d => { s.sDestList d with iNumNewlyAckedBytes := 0 } } d =
      total weight s.sSendBuffer d := by
    intro d
    rw [← hs.accounted d]
    exact Int.sub_zero _
  have hcums : s₁.sSendBuffer = (if s.uiCumAckPoint < sack.uiCumAck then
        s.sSendBuffer.dropWhile (fun node => node.uiTsn ≤ sack.uiCumAck)
      else s.sSendBuffer) ∧
      (∀ d, pending s₁ d = total weight s₁.sSendBuffer d) := by
    rw [← hs₁]
    by_cases hlt : s.uiCumAckPoint < sack.uiCumAck
    · rw [if_pos (decide_eq_true hlt), if_pos hlt]
      obtain ⟨hdrop, hbal⟩ := dequeueLoop_spec sack.uiCumAck s.sSendBuffer
        { s with sDestList := fun d => { s.sDestList d with iNumNewlyAckedBytes := 0 } }
      refine ⟨hdrop, fun d => ?_⟩
      have hzero := hbal d
      rw [hclear d, Int.sub_self] at hzero
      exact Int.sub_eq_zero.mp hzero
    · rw [if_neg (by simpa using hlt), if_neg hlt]
      exact ⟨rfl, hclear⟩
  obtain ⟨hbuf, hbal⟩ := hcums
  have hsound : ∀ node ∈ s₁.sSendBuffer, Sound p node := by
    intro node hn
    rw [hbuf] at hn
    split at hn
    · exact hs.sound node ((dropWhile_sublist _).subset hn)
    · exact hs.sound node hn
  by_cases hgaps : sack.gapAckBlocks ≠ []
  · rw [if_pos hgaps]
    refine processGapAckBlocks_spec hbal hsound
      (fun node hn hboth => hup ⟨hcum, hgaps, node, ?_, hboth⟩)
    rw [← hbuf]
    exact hn
  · rw [if_neg hgaps]
    exact ⟨hbal, hsound⟩

/-- **The clamp is not needed**: a SACK acknowledges at most what is outstanding. -/
theorem newlyAcked_le {sack : SackChunk} (hs : Consistent p s)
    (hcum : s.uiCumAckPoint ≤ sack.uiCumAck) (hup : ¬ Forgets s (.sack sack)) (d : Fin n) :
    newlyAcked (ackChunks cfg sack s).1 d ≤ outstanding (ackChunks cfg sack s).1 d := by
  have h := (@ackChunks_spec n cfg s p sack hs hcum hup).1 d
  have hnonneg := total_nonneg weight_nonneg (ackChunks cfg sack s).1.sSendBuffer d
  rw [pending] at h
  omega

theorem settleDest_outstanding (cfg : SenderConfig) (adjust : Bool) (dest : Dest)
    (hle : dest.iNumNewlyAckedBytes ≤ dest.iOutstandingBytes) :
    (settleDest cfg adjust dest).iOutstandingBytes =
      dest.iOutstandingBytes - dest.iNumNewlyAckedBytes := by
  have hcwnd : (adjustCwnd cfg dest).iOutstandingBytes = dest.iOutstandingBytes ∧
      (adjustCwnd cfg dest).iNumNewlyAckedBytes = dest.iNumNewlyAckedBytes := by
    unfold adjustCwnd
    split
    · split <;> exact ⟨rfl, rfl⟩
    · split <;> exact ⟨rfl, rfl⟩
  rw [settleDest]
  generalize hd : (if adjust = true ∧ 0 < dest.iNumNewlyAckedBytes then adjustCwnd cfg dest
    else dest) = dest₁
  have hdest : dest₁.iOutstandingBytes = dest.iOutstandingBytes ∧
      dest₁.iNumNewlyAckedBytes = dest.iNumNewlyAckedBytes := by
    rw [← hd]
    split
    · exact hcwnd
    · exact ⟨rfl, rfl⟩
  rw [hdest.1, hdest.2, if_pos hle]
  split <;> rfl

theorem settled {sack : SackChunk} (adjust : Bool) (hs : Consistent p s)
    (hcum : s.uiCumAckPoint ≤ sack.uiCumAck) (hup : ¬ Forgets s (.sack sack)) :
    Consistent p (advancePeerAckPoint { (ackChunks cfg sack s).1 with
      sDestList := fun d => settleDest cfg adjust ((ackChunks cfg sack s).1.sDestList d) }) := by
  obtain ⟨hbal, hsound⟩ := @ackChunks_spec n cfg s p sack hs hcum hup
  refine ⟨fun d => ?_, hsound⟩
  have hle := @newlyAcked_le n cfg s p sack hs hcum hup d
  exact (settleDest_outstanding cfg adjust _ hle).trans (hbal d)

/-- A SACK changes the counters by the chunks that it acknowledges. -/
theorem processSackChunk_spec {sack : SackChunk} (hs : Consistent p s)
    (hup : ¬ Forgets s (.sack sack)) (h : processSackChunk cfg sack s = some s') :
    Consistent p s' := by
  rw [processSackChunk] at h
  by_cases hold : sack.uiCumAck < s.uiCumAckPoint
  · rw [if_pos hold] at h
    cases h
    exact ⟨hs.accounted, hs.sound⟩
  · rw [if_neg hold] at h
    dsimp only at h
    have hset := @settled n cfg s p sack
      (decide (s.uiCumAckPoint < sack.uiCumAck) &&
        decide ((ackChunks cfg sack s).1.uiRecover ≤ sack.uiCumAck)) hs (by omega) hup
    split at h
    · exact fastRtx_spec hset h
    · split at h
      · exact rtxMarkedChunks_spec (hset.setPending _) h
      · cases h
        exact hset.setPending _

theorem processSackChunk_total {sack : SackChunk}
    (hs : Consistent (· ≤ cfg.uiMaxPayloadSize) s) (hup : ¬ Forgets s (.sack sack)) :
    ∃ s', processSackChunk cfg sack s = some s' := by
  rw [processSackChunk]
  by_cases hold : sack.uiCumAck < s.uiCumAckPoint
  · rw [if_pos hold]
    exact ⟨_, rfl⟩
  · rw [if_neg hold]
    dsimp only
    have hset := @settled n cfg s _ sack
      (decide (s.uiCumAckPoint < sack.uiCumAck) &&
        decide ((ackChunks cfg sack s).1.uiRecover ≤ sack.uiCumAck)) hs (by omega) hup
    split
    · exact fastRtx_total hset
    · split
      case isTrue hany =>
        exact rtxMarkedChunks_total (hset.setPending _) (fun _ => hany)
      case isFalse => exact ⟨_, rfl⟩

/-! ## Runs -/

/-- A new chunk fits into a packet. -/
def FitsPacket (cfg : SenderConfig) : SendEvent n → Prop
  | .newChunk usLength _ _ => usLength ≤ cfg.uiMaxPayloadSize
  | _ => True

theorem Consistent.newChunk {usLength usStreamId : ℕ} {uiReliability : ℤ} (hs : Consistent p s)
    (hp : p usLength) : Consistent p (genOneDataChunk usLength usStreamId uiReliability s) := by
  refine ⟨fun d => ?_, fun node hn => ?_⟩
  · rw [genOneDataChunk, outstanding_addOutstanding]
    change outstanding s d + _ = total weight (s.sSendBuffer ++ [_]) d
    rw [hs.accounted d, total_append, total_cons, total_nil, Int.add_zero]
    simp [weight]
  · rcases mem_append.mp hn with hn | hn
    · exact hs.sound node hn
    · rw [mem_singleton.mp hn]
      exact ⟨fun hc => absurd rfl hc, hp⟩

theorem Consistent.init (p : ℕ → Prop) (cfg : SenderConfig) (iInitialSsthresh : ℤ)
    (spPrimaryDest : Fin n) : Consistent p (SendState.init cfg iInitialSsthresh spPrimaryDest) :=
  ⟨fun _ => rfl, by simp [SendState.init]⟩

/-- The step lemma: the counters change by what the chunks do. -/
theorem Consistent.step {e : SendEvent n} {o : Unit} (hs : Consistent p s)
    (hp : ∀ usLength usStreamId uiReliability,
      e = .newChunk usLength usStreamId uiReliability → p usLength)
    (hup : ¬ Forgets s e) (h : sendStep cfg s e = some (s', o)) : Consistent p s' := by
  cases e with
  | newChunk usLength usStreamId uiReliability =>
    cases h
    exact hs.newChunk (hp _ _ _ rfl)
  | sack chunk =>
    obtain ⟨s₁, hrun, heq⟩ := Option.map_eq_some_iff.mp h
    cases heq
    exact processSackChunk_spec hs hup hrun
  | timeout spDest =>
    obtain ⟨s₁, hrun, heq⟩ := Option.map_eq_some_iff.mp h
    cases heq
    exact timeoutRtx_spec hs hrun
  | path spDest =>
    cases h
    refine ⟨fun d => ?_, hs.sound⟩
    refine (outstanding_setDest spDest ?_ d).trans (hs.accounted d)
    exact fun _ => rfl

theorem Consistent.total {e : SendEvent n} (hs : Consistent (· ≤ cfg.uiMaxPayloadSize) s)
    (hup : ¬ Forgets s e) : ∃ s' o, sendStep cfg s e = some (s', o) := by
  cases e with
  | newChunk usLength usStreamId uiReliability => exact ⟨_, _, rfl⟩
  | sack chunk =>
    obtain ⟨s', h⟩ := processSackChunk_total hs hup
    exact ⟨s', (), congrArg (Option.map (·, ())) h⟩
  | timeout spDest =>
    obtain ⟨s', h⟩ := timeoutRtx_total spDest hs
    exact ⟨s', (), congrArg (Option.map (·, ())) h⟩
  | path => exact ⟨_, _, rfl⟩

/-- **Outstanding bytes are accounted for** after every run in which no SACK takes back the
acknowledgement of a chunk that was given up, and the next SACK of this kind needs no clamp. The run
does not get stuck when every chunk fits into a packet. -/
theorem outstanding_accounted (cfg : SenderConfig) (iInitialSsthresh : ℤ) (spPrimaryDest : Fin n)
    (events : List (SendEvent n))
    (hok : Runs.Meets (sendStep cfg) (fun s e => ¬ Forgets s e)
      (SendState.init cfg iInitialSsthresh spPrimaryDest) events) :
    (∀ s outs, Runs.run (sendStep cfg) (SendState.init cfg iInitialSsthresh spPrimaryDest) events =
        some (s, outs) →
      Accounted s ∧ (∀ d, 0 ≤ outstanding s d) ∧
        ∀ sack, s.uiCumAckPoint ≤ sack.uiCumAck → ¬ Forgets s (.sack sack) →
          ∀ d, newlyAcked (ackChunks cfg sack s).1 d ≤ outstanding (ackChunks cfg sack s).1 d) ∧
      ((∀ e ∈ events, FitsPacket cfg e) →
        ∃ s outs, Runs.run (sendStep cfg) (SendState.init cfg iInitialSsthresh spPrimaryDest)
          events = some (s, outs)) := by
  constructor
  · intro s outs hrun
    have hs : Consistent (fun _ => True) s :=
      @Runs.run_preserves _ _ _ (sendStep cfg) _ _ s events outs []
        (fun _ s => Consistent (fun _ => True) s)
        (fun _ _ _ _ _ hs hup h => hs.step (fun _ _ _ _ => trivial) hup h)
        (Consistent.init _ cfg iInitialSsthresh spPrimaryDest) hok hrun
    refine ⟨hs.accounted, fun d => ?_, fun sack hcum hup d => newlyAcked_le hs hcum hup d⟩
    rw [hs.accounted d]
    exact total_nonneg weight_nonneg _ d
  · intro hfits
    have hstep : ∀ (past : List (SendEvent n)) (outs : List Unit) (s : SendState n)
        (e : SendEvent n),
        Consistent (· ≤ cfg.uiMaxPayloadSize) s → ¬ Forgets s e ∧ FitsPacket cfg e →
        ∃ s' o, sendStep cfg s e = some (s', o) ∧ Consistent (· ≤ cfg.uiMaxPayloadSize) s' := by
      intro _ _ s e hs hok
      obtain ⟨s', o, h⟩ := hs.total hok.1
      refine ⟨s', o, h, hs.step (fun usLength usStreamId uiReliability he => ?_) hok.1 h⟩
      have hfit := hok.2
      rw [he] at hfit
      exact hfit
    obtain ⟨s, outs, hrun, -⟩ := Runs.run_invariant hstep
      (Consistent.init _ cfg iInitialSsthresh spPrimaryDest) (hok.and_forall hfits)
    exact ⟨s, outs, hrun⟩

/-- Stream 0 is unreliable, the others are reliable. -/
def oneUnreliable : SenderConfig :=
  { uiMaxDataSize := 1468
    uiMaxPayloadSize := 1480
    iFastRtxTrigger := 4
    eUseMaxBurst := true
    eRtxToAlt := .on
    eDormantAction := .hop
    spOutStreams := fun i => if i = 0 then .unreliable else .reliable }

theorem outstanding_accounted_alternate :
    ∃ s outs, Runs.run (sendStep oneUnreliable) (SendState.init oneUnreliable 65536 (0 : Fin 2))
        [.newChunk 100 1 0, .newChunk 200 0 0, .newChunk 300 1 0, .timeout 0,
          .sack ⟨0, [⟨2, 2⟩]⟩, .newChunk 400 1 0, .sack ⟨2, []⟩] = some (s, outs) ∧
      Accounted s ∧ outstanding s 0 = 400 ∧ outstanding s 1 = 300 := by
  obtain ⟨hrun, htotal⟩ := outstanding_accounted oneUnreliable 65536 (0 : Fin 2)
    [.newChunk 100 1 0, .newChunk 200 0 0, .newChunk 300 1 0, .timeout 0,
      .sack ⟨0, [⟨2, 2⟩]⟩, .newChunk 400 1 0, .sack ⟨2, []⟩] (by decide +kernel)
  obtain ⟨s, outs, hs⟩ := htotal (by simp [FitsPacket, oneUnreliable])
  have hfinal : ∀ r ∈ Runs.run (sendStep oneUnreliable)
      (SendState.init oneUnreliable 65536 (0 : Fin 2))
      [.newChunk 100 1 0, .newChunk 200 0 0, .newChunk 300 1 0, .timeout 0,
        .sack ⟨0, [⟨2, 2⟩]⟩, .newChunk 400 1 0, .sack ⟨2, []⟩],
      outstanding r.1 0 = 400 ∧ outstanding r.1 1 = 300 := by
    decide +kernel
  exact ⟨s, outs, hs, (hrun s outs hs).1, hfinal (s, outs) hs⟩

/-- **Counterexample**: chunk 2 is given up at the timeout and gap acked when it arrives late. An
older SACK takes this back, and the chunk is counted as outstanding although it was given up. -/
theorem given_up_chunk_outstanding :
    ∃ s outs, Runs.run (sendStep oneUnreliable) (SendState.init oneUnreliable 65536 (0 : Fin 1))
        [.newChunk 100 1 0, .newChunk 100 0 0, .newChunk 100 1 0, .timeout 0,
          .sack ⟨0, [⟨2, 3⟩]⟩, .sack ⟨0, [⟨3, 3⟩]⟩] = some (s, outs) ∧
      outstanding s 0 = 200 ∧ total weight s.sSendBuffer 0 = 100 ∧ ¬ Accounted s := by
  obtain ⟨⟨s, outs⟩, hrun⟩ : ∃ r, Runs.run (sendStep oneUnreliable)
      (SendState.init oneUnreliable 65536 (0 : Fin 1))
      [.newChunk 100 1 0, .newChunk 100 0 0, .newChunk 100 1 0, .timeout 0,
        .sack ⟨0, [⟨2, 3⟩]⟩, .sack ⟨0, [⟨3, 3⟩]⟩] = some r :=
    Option.isSome_iff_exists.mp (by decide +kernel)
  have hfinal : ∀ r ∈ Runs.run (sendStep oneUnreliable)
      (SendState.init oneUnreliable 65536 (0 : Fin 1))
      [.newChunk 100 1 0, .newChunk 100 0 0, .newChunk 100 1 0, .timeout 0,
        .sack ⟨0, [⟨2, 3⟩]⟩, .sack ⟨0, [⟨3, 3⟩]⟩],
      outstanding r.1 0 = 200 ∧ total weight r.1.sSendBuffer 0 = 100 := by
    decide +kernel
  obtain ⟨hout, htotal⟩ := hfinal (s, outs) hrun
  refine ⟨s, outs, hrun, hout, htotal, fun hacc => ?_⟩
  have heq := hacc 0
  rw [hout, htotal] at heq
  exact absurd heq (by decide)

end NetSim.Sctp
