import NetSim.Sctp.RecvTsn

/-! # The in-streams

`InsertInStreamBuffer` is an insertion into a list that is sorted by stream sequence number, and
`UpdateAllStreams` drains the streams one after another: what it takes from a buffer is passed up
and credited to the window (`updateAllStreams_swept`, `window_updateAllStreams`).
-/

namespace NetSim.Sctp

open Function List

variable {s s' : Receiver} {i : ℕ}

/-! ## Sorted insertion -/

section InsertByKey

variable {a : ℕ} {l : List ℕ}

theorem mem_insertByKey {x : ℕ} : x ∈ insertByKey id a l ↔ x = a ∨ x ∈ l := by
  induction l with
  | nil => simp [insertByKey]
  | cons b l ih =>
    rw [insertByKey]
    by_cases hle : id a ≤ id b
    · rw [if_pos hle]
      by_cases hne : id a ≠ id b
      · rw [if_pos hne, mem_cons]
      · have heq : a = b := not_not.mp hne
        rw [if_neg hne, heq, mem_cons]
        exact ⟨Or.inr, fun h => h.elim Or.inl id⟩
    · rw [if_neg hle, mem_cons, ih, mem_cons]
      exact or_left_comm

theorem sorted_insertByKey (h : l.Pairwise (· < ·)) : (insertByKey id a l).Pairwise (· < ·) := by
  induction l with
  | nil => simp [insertByKey]
  | cons b l ih =>
    obtain ⟨hb, hl⟩ := pairwise_cons.mp h
    rw [insertByKey]
    by_cases hle : id a ≤ id b
    · rw [if_pos hle]
      by_cases hne : id a ≠ id b
      · rw [if_pos hne]
        have hlt : a < b := lt_of_le_of_ne hle hne
        refine pairwise_cons.mpr ⟨fun x hx => ?_, h⟩
        rcases mem_cons.mp hx with rfl | hx
        · exact hlt
        · exact hlt.trans (hb x hx)
      · rw [if_neg hne]
        exact h
    · rw [if_neg hle]
      refine pairwise_cons.mpr ⟨fun x hx => ?_, ih hl⟩
      rcases mem_insertByKey.mp hx with rfl | hx
      · exact not_le.mp hle
      · exact hb x hx

theorem perm_insertByKey (ha : a ∉ l) : (insertByKey id a l).Perm (a :: l) := by
  induction l with
  | nil => exact List.Perm.refl _
  | cons b l ih =>
    rw [insertByKey]
    by_cases hle : id a ≤ id b
    · have hne : id a ≠ id b := fun heq => ha (mem_cons.mpr (Or.inl heq))
      rw [if_pos hle, if_pos hne]
    · rw [if_neg hle]
      exact ((ih (fun hm => ha (mem_cons_of_mem b hm))).cons b).trans (List.Perm.swap a b l)

theorem insertByKey_map {α κ : Type} [LE κ] [DecidableLE κ] [DecidableEq κ] {key : α → κ}
    {f : ℕ → α}
    (hle : ∀ b ∈ l, (key (f a) ≤ key (f b) ↔ a ≤ b))
    (heq : ∀ b ∈ l, (key (f a) = key (f b) ↔ a = b)) :
    insertByKey key (f a) (l.map f) = (insertByKey id a l).map f := by
  induction l with
  | nil => rfl
  | cons b l ih =>
    have ih' := ih (fun x hx => hle x (mem_cons_of_mem b hx))
      (fun x hx => heq x (mem_cons_of_mem b hx))
    rw [map_cons, insertByKey, insertByKey]
    have h1 := hle b mem_cons_self
    have h2 := heq b mem_cons_self
    by_cases hab : a ≤ b
    · rw [if_pos (h1.mpr hab), if_pos (show id a ≤ id b from hab)]
      by_cases hne : a = b
      · rw [if_neg (fun hc => hc (h2.mpr hne)), if_neg (fun hc => hc hne)]
        rfl
      · rw [if_pos (fun hc => hne (h2.mp hc)), if_pos (show id a ≠ id b from hne)]
        rfl
    · rw [if_neg (fun hc => hab (h1.mp hc)), if_neg (show ¬ id a ≤ id b from hab), ih']
      rfl

end InsertByKey

/-! ## Draining -/

def bytes (l : List DataChunk) : ℕ := (l.map DataChunk.usLength).sum

@[simp] theorem bytes_nil : bytes [] = 0 := rfl

@[simp] theorem bytes_append (l r : List DataChunk) : bytes (l ++ r) = bytes l + bytes r := by
  simp [bytes]

theorem drain_append (cum : ℤ) (mode : StreamMode) (next : ℕ) (l : List DataChunk) :
    (drain cum mode next l).2.1 ++ (drain cum mode next l).2.2 = l := by
  induction l generalizing next with
  | nil => rfl
  | cons c l ih =>
    rw [drain]
    split
    · exact congrArg (c :: ·) (ih _)
    · split
      · exact congrArg (c :: ·) (ih _)
      · rfl

/-- The result of the inner loop for the stream `i`. -/
def drained (s : Receiver) (i : ℕ) : ℕ × List DataChunk × List DataChunk :=
  drain s.uiCumAck (s.spInStreams i).eMode (s.spInStreams i).usNextStreamSeqNum
    (s.spInStreams i).sBufferedChunkList

theorem foldl_passToUpperLayer (l : List DataChunk) (s : Receiver) :
    l.foldl passToUpperLayer s =
      { s with uiMyRwnd := s.uiMyRwnd + bytes l, upperLayer := s.upperLayer ++ l } := by
  induction l generalizing s with
  | nil => simp [bytes]
  | cons c l ih =>
    rw [foldl_cons, ih, passToUpperLayer]
    simp [bytes, Nat.add_assoc]

theorem updateStream_eq (s : Receiver) (i : ℕ) :
    updateStream s i =
      { s with
        uiMyRwnd := s.uiMyRwnd + bytes (drained s i).2.1
        upperLayer := s.upperLayer ++ (drained s i).2.1
        spInStreams := update s.spInStreams i
          { eMode := (s.spInStreams i).eMode
            usNextStreamSeqNum := (drained s i).1
            sBufferedChunkList := (drained s i).2.2 } } :=
  foldl_passToUpperLayer _ _

/-- What the outer loop does when it has drained the streams of `l`. -/
structure Swept (l : List ℕ) (s s' : Receiver) : Prop where
  rwnd : s'.uiMyRwnd = s.uiMyRwnd + (l.map (fun i => bytes (drained s i).2.1)).sum
  upper : s'.upperLayer = s.upperLayer ++ l.flatMap (fun i => (drained s i).2.1)
  mode : ∀ i, (s'.spInStreams i).eMode = (s.spInStreams i).eMode
  next : ∀ i ∈ l, (s'.spInStreams i).usNextStreamSeqNum = (drained s i).1
  buffered : ∀ i ∈ l, (s'.spInStreams i).sBufferedChunkList = (drained s i).2.2
  other : ∀ i, i ∉ l → s'.spInStreams i = s.spInStreams i
  num : s'.iNumInStreams = s.iNumInStreams

theorem Swept.stream {l : List ℕ} (h : Swept l s s') (hi : i ∈ l) :
    s'.spInStreams i =
      { eMode := (s.spInStreams i).eMode
        usNextStreamSeqNum := (drained s i).1
        sBufferedChunkList := (drained s i).2.2 } := by
  have hmode := h.mode i
  have hnext := h.next i hi
  have hbuffered := h.buffered i hi
  cases hst : s'.spInStreams i
  rw [hst] at hmode hnext hbuffered
  dsimp only at hmode hnext hbuffered
  rw [hmode, hnext, hbuffered]

theorem foldl_updateStream {l : List ℕ} (hl : l.Nodup) (s : Receiver) :
    Swept l s (l.foldl updateStream s) := by
  induction l generalizing s with
  | nil => exact ⟨by simp, by simp, fun _ => rfl, by simp, by simp, fun _ _ => rfl, rfl⟩
  | cons j l ih =>
    obtain ⟨hj, hl⟩ := nodup_cons.mp hl
    have h := ih hl (updateStream s j)
    have hself : ((updateStream s j).spInStreams j) =
        { eMode := (s.spInStreams j).eMode
          usNextStreamSeqNum := (drained s j).1
          sBufferedChunkList := (drained s j).2.2 } := by
      rw [updateStream_eq]
      exact update_self _ _ _
    have hne : ∀ i, i ≠ j → (updateStream s j).spInStreams i = s.spInStreams i := by
      intro i hij
      rw [updateStream_eq]
      exact update_of_ne hij _ _
    -- the other streams are drained as before
    have hother : ∀ i ∈ l, drained (updateStream s j) i = drained s i := by
      intro i hi
      rw [drained, hne i (fun heq => hj (heq ▸ hi)), (SameTsn.updateStream s j).cum]
      rfl
    rw [foldl_cons]
    refine ⟨?_, ?_, fun i => ?_, fun i hi => ?_, fun i hi => ?_, fun i hi => ?_, ?_⟩
    · have hmap : l.map (fun i => bytes (drained (updateStream s j) i).2.1) =
          l.map (fun i => bytes (drained s i).2.1) :=
        map_congr_left (fun i hi => by rw [hother i hi])
      rw [h.rwnd, hmap, map_cons, sum_cons, updateStream_eq, Nat.add_assoc]
    · have hflat : l.flatMap (fun i => (drained (updateStream s j) i).2.1) =
          l.flatMap (fun i => (drained s i).2.1) :=
        flatMap_congr (fun i hi => by rw [hother i hi])
      rw [h.upper, hflat, flatMap_cons, updateStream_eq, append_assoc]
    · rw [h.mode]
      by_cases hij : i = j
      · rw [hij, hself]
      · rw [hne i hij]
    · rcases mem_cons.mp hi with rfl | hi
      · rw [h.other i hj, hself]
      · rw [h.next i hi, hother i hi]
    · rcases mem_cons.mp hi with rfl | hi
      · rw [h.other i hj, hself]
      · rw [h.buffered i hi, hother i hi]
    · rw [h.other i (fun hm => hi (mem_cons_of_mem j hm)),
        hne i (fun heq => hi (mem_cons.mpr (Or.inl heq)))]
    · rw [h.num, updateStream_eq]

theorem updateAllStreams_swept (s : Receiver) :
    Swept (List.range s.iNumInStreams) s (updateAllStreams s) :=
  foldl_updateStream nodup_range s

def bufferedBytes (s : Receiver) : ℕ :=
  ((List.range s.iNumInStreams).map (fun i => bytes (s.spInStreams i).sBufferedChunkList)).sum

theorem window_updateAllStreams (s : Receiver) :
    (updateAllStreams s).uiMyRwnd + bufferedBytes (updateAllStreams s) =
      s.uiMyRwnd + bufferedBytes s := by
  have h := updateAllStreams_swept s
  have hafter : (List.range s.iNumInStreams).map
      (fun i => bytes ((updateAllStreams s).spInStreams i).sBufferedChunkList) =
      (List.range s.iNumInStreams).map (fun i => bytes (drained s i).2.2) :=
    map_congr_left (fun i hi => by rw [h.buffered i hi])
  have hbefore : (List.range s.iNumInStreams).map
      (fun i => bytes (s.spInStreams i).sBufferedChunkList) =
      (List.range s.iNumInStreams).map
        (fun i => bytes (drained s i).2.1 + bytes (drained s i).2.2) := by
    refine map_congr_left (fun i _ => ?_)
    rw [← bytes_append, drained, drain_append]
  rw [bufferedBytes, bufferedBytes, h.num, hafter, hbefore, h.rwnd, sum_map_add]
  omega

theorem processDataChunk_mode (chunk : DataChunk) (s : Receiver) (i : ℕ) :
    ((processDataChunk chunk s).1.spInStreams i).eMode = (s.spInStreams i).eMode := by
  have hpass : ∀ s : Receiver,
      ((passToStream chunk s).spInStreams i).eMode = (s.spInStreams i).eMode := by
    intro s
    rw [passToStream]
    split
    · rfl
    · by_cases hi : i = chunk.usStreamId
      · rw [hi]
        simp
      · simp [update_of_ne hi]
  have hhigh :
      ((updateHighestTsn chunk.uiTsn s).1.spInStreams i).eMode = (s.spInStreams i).eMode := by
    rw [updateHighestTsn]
    split <;> rfl
  rw [processDataChunk]
  split
  · dsimp only
    split
    · exact hhigh
    · rw [(updateAllStreams_swept _).mode, hpass]
      exact hhigh
  · rfl

end NetSim.Sctp
