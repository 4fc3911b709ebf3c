import NetSim.LinkState.Routing

/-! # What the message center keeps

All nodes share one store of messages of bounded size, and a new message takes the place of the one
with the smallest id, whoever still refers to that. `references` are the ids of the messages that
someone refers to: the pointers of the send buffers, the records of unacknowledged messages and the
packets in flight that carry an LSA or a topology map. `Kept` is the invariant that these are in the
store; a step keeps it when no message that it makes takes the place of one that is referred to
(`Careful`, `step_kept`).
-/

namespace NetSim.LinkState

open List

/-! ## References -/

def LsUnackPeer.ids (u : LsUnackPeer) : List UInt32T :=
  (if u.tpmSeq = lsInvalidMessageId then [] else [u.tpmSeq]) ++
    u.lsaMap.entries.map (fun e => e.2.msgId)

/-- The ids that a node refers to. -/
def LsRouting.references (r : LsRouting) : List UInt32T :=
  r.messageBuffer.map IdMsgPtr.msgPtr ++ r.ackManager.entries.flatMap (fun e => e.2.ids)

/-- The message that the next LSA or topology map takes the place of. -/
def LsMessageCenter.recycled (c : LsMessageCenter) : Option UInt32T :=
  if c.ready.maxSize ≤ c.lsaMessages.size then c.lsaMessages.begin? else none

namespace LsSystem

def references (s : LsSystem) : List UInt32T :=
  s.nodes.entries.flatMap (fun e => e.2.routing.references) ++
    (s.packets.map Packet.msgId).filter LsMessageCenter.isLsa

/-- The message that is recycled next is one that nobody refers to. -/
def Spare (s : LsSystem) : Prop := ∀ id ∈ s.center.recycled, id ∉ s.references

/-- `sendLinkStates` makes a message. -/
def advertises (s : LsSystem) (n : ℤ) : Bool :=
  match s.routing? n with
  | none => false
  | some r => r.peerIdList ≠ [] ∧ (r.linkStateDatabase.find? n).getD [] ≠ []

end LsSystem

open LsSystem

-- not the instance for all numbers of 32 bits
instance (s : LsSystem) : Decidable s.Spare := Option.decidableForallMem s.center.recycled

/-- A turn of the loop of `linkStateChanged` that makes a message does so with room for it. -/
def SpareTurn (s : LsSystem) (link : LsLinkState × LsLinkState) : Prop :=
  ¬ (link.1.status = .down ∨ link.2.status = .up) → s.Spare

instance (s : LsSystem) (link : LsLinkState × LsLinkState) : Decidable (SpareTurn s link) :=
  inferInstanceAs (Decidable (_ → _))

/-- A turn of the loop of `receiveTopo` that makes a message does so with room for it. -/
def SpareRecord (n : ℤ) (s : LsSystem) (rec : ℤ × List LsLinkState) : Prop :=
  ∀ r ∈ s.routing? n, ∀ first ∈ rec.2.head?, rec.1 ≠ n →
    outdated (r.linkStateDatabase.find? rec.1) first = true → s.Spare

instance (n : ℤ) (s : LsSystem) (rec : ℤ × List LsLinkState) : Decidable (SpareRecord n s rec) :=
  inferInstanceAs (Decidable (∀ r ∈ s.routing? n, ∀ first ∈ rec.2.head?, rec.1 ≠ n →
    outdated (r.linkStateDatabase.find? rec.1) first = true → s.Spare))

/-- `linkStateChanged` makes each of its messages with room for it. -/
def SpareChange (s : LsSystem) (n : ℤ) : Prop :=
  ∀ r ∈ s.routing? n, ∀ oldlsl ∈ r.linkStateDatabase.find? n,
    ((r.linkStateDatabase.update n n r.linkStateList).2 = true → r.peerIdList ≠ [] → s.Spare) ∧
      ∀ s' ∈ updateOwn s n r,
        Runs.Meets (linkTurn n) SpareTurn s' (r.linkStateList.zip oldlsl)

instance (s : LsSystem) (n : ℤ) : Decidable (SpareChange s n) :=
  inferInstanceAs (Decidable (∀ r ∈ s.routing? n, ∀ oldlsl ∈ r.linkStateDatabase.find? n,
    ((r.linkStateDatabase.update n n r.linkStateList).2 = true → r.peerIdList ≠ [] → s.Spare) ∧
      ∀ s' ∈ updateOwn s n r,
        Runs.Meets (linkTurn n) SpareTurn s' (r.linkStateList.zip oldlsl)))

/-- The node whose map a message points to. -/
def LsContent.node? : LsContent → Option ℤ
  | .topo node => some node
  | .null => none
  | .lsl _ => none

/-- `receiveTopo` makes each of the messages that it sends on with room for it. -/
def SpareTopo (s : LsSystem) (n neighborId : ℤ) (msg : LsMessage) : Prop :=
  ∀ t ∈ openTopo s n neighborId msg, t.2 = true → ∀ node ∈ msg.content.node?,
    ∀ sender ∈ t.1.routing? node,
      Runs.Meets (topoRecord n neighborId msg.messageId) (SpareRecord n) t.1
        sender.linkStateDatabase.entries

instance (s : LsSystem) (n neighborId : ℤ) (msg : LsMessage) :
    Decidable (SpareTopo s n neighborId msg) :=
  inferInstanceAs (Decidable (∀ t ∈ openTopo s n neighborId msg, t.2 = true →
    ∀ node ∈ msg.content.node?, ∀ sender ∈ t.1.routing? node,
      Runs.Meets (topoRecord n neighborId msg.messageId) (SpareRecord n) t.1
        sender.linkStateDatabase.entries))

/-- The packet `k` is a topology map and `receiveTopo` has room for what it sends on. -/
def SpareRecv (s : LsSystem) (k : ℕ) : Prop :=
  ∀ p ∈ s.packets[k]?, ∀ e ∈ s.nodes.entries.find? (fun e => e.2.here = p.dst),
    ∀ msg ∈ s.center.retrieveMessagePtr p.msgId, msg.type = .tpm →
      SpareTopo { s with packets := s.packets.eraseIdx k } e.1 (e.2.findPeerNodeId p.src) msg

instance (s : LsSystem) (k : ℕ) : Decidable (SpareRecv s k) :=
  inferInstanceAs (Decidable (∀ p ∈ s.packets[k]?,
    ∀ e ∈ s.nodes.entries.find? (fun e => e.2.here = p.dst),
      ∀ msg ∈ s.center.retrieveMessagePtr p.msgId, msg.type = .tpm →
        SpareTopo { s with packets := s.packets.eraseIdx k } e.1 (e.2.findPeerNodeId p.src) msg))

/-- Each LSA and topology map that the event makes takes the place of a message that nobody refers
to, or of none. -/
def Careful (s : LsSystem) : Event → Prop
  | .sendUpdates n => s.advertises n = true → s.Spare
  | .intfChanged n links =>
    SpareChange (s.modifyRouting n (fun r => { r with linkStateList := links })) n
  | .recv k => SpareRecv s k
  | .setNodeNumber _ => True
  | .initNode _ _ _ _ _ => True
  | .sendBufferedMessages _ => True
  | .lose _ => True
  | .expire _ _ => True

instance (s : LsSystem) : ∀ event, Decidable (Careful s event)
  | .sendUpdates n => inferInstanceAs (Decidable (s.advertises n = true → s.Spare))
  | .intfChanged n links => inferInstanceAs (Decidable
      (SpareChange (s.modifyRouting n (fun r => { r with linkStateList := links })) n))
  | .recv k => inferInstanceAs (Decidable (SpareRecv s k))
  | .setNodeNumber _ => isTrue trivial
  | .initNode _ _ _ _ _ => isTrue trivial
  | .sendBufferedMessages _ => isTrue trivial
  | .lose _ => isTrue trivial
  | .expire _ _ => isTrue trivial

/-! ## References of a changed node -/

theorem mem_ids {u : LsUnackPeer} {id : UInt32T} :
    id ∈ u.ids ↔ (u.tpmSeq ≠ lsInvalidMessageId ∧ id = u.tpmSeq) ∨
      ∃ o e, u.lsaMap.find? o = some e ∧ e.msgId = id := by
  unfold LsUnackPeer.ids
  rw [mem_append, mem_map]
  constructor
  · rintro (h | ⟨⟨o, e⟩, hmem, rfl⟩)
    · split_ifs at h with htpm
      · cases h
      · exact .inl ⟨htpm, mem_singleton.mp h⟩
    · exact .inr ⟨o, e, OrderedMap.find?_eq_some.mpr hmem, rfl⟩
  · rintro (⟨htpm, rfl⟩ | ⟨o, e, hfind, rfl⟩)
    · rw [if_neg htpm]
      exact .inl (mem_singleton.mpr rfl)
    · exact .inr ⟨(o, e), OrderedMap.find?_eq_some.mp hfind, rfl⟩

theorem mem_references {r : LsRouting} {id : UInt32T} :
    id ∈ r.references ↔ (∃ b ∈ r.messageBuffer, b.msgPtr = id) ∨
      ∃ peer u, r.ackManager.find? peer = some u ∧ id ∈ u.ids := by
  unfold LsRouting.references
  rw [mem_append, mem_map, mem_flatMap]
  apply or_congr Iff.rfl
  constructor
  · rintro ⟨⟨peer, u⟩, hmem, hid⟩
    exact ⟨peer, u, OrderedMap.find?_eq_some.mpr hmem, hid⟩
  · rintro ⟨peer, u, hfind, hid⟩
    exact ⟨(peer, u), OrderedMap.find?_eq_some.mp hfind, hid⟩

theorem references_set {r : LsRouting} {peer : ℤ} {u : LsUnackPeer} {id : UInt32T}
    (h : id ∈ { r with ackManager := r.ackManager.set peer u }.references) :
    id ∈ r.references ∨ id ∈ u.ids := by
  rw [mem_references] at h ⊢
  rcases h with h | ⟨peer', u', hfind, hid⟩
  · exact .inl (.inl h)
  · rw [OrderedMap.find?_set] at hfind
    split_ifs at hfind with heq
    · cases hfind
      exact .inr hid
    · exact .inl (.inr ⟨peer', u', hfind, hid⟩)

theorem references_of_find {r : LsRouting} {peer : ℤ} {u : LsUnackPeer} {id : UInt32T}
    (hu : r.ackManager.find? peer = some u) (h : id ∈ u.ids) : id ∈ r.references :=
  mem_references.mpr (.inr ⟨peer, u, hu, h⟩)

theorem ids_fresh : LsUnackPeer.fresh.ids = [] := rfl

theorem ids_record {u : LsUnackPeer} {msg : LsMessage} {id : UInt32T}
    (h : id ∈ (LsRetransmissionManager.record u msg).ids) :
    id ∈ u.ids ∨ (msg.type = .lsa ∧ id = msg.messageId) ∨
      (msg.type = .tpm ∧ id = msg.sequenceNumber) := by
  unfold LsRetransmissionManager.record at h
  rw [mem_ids] at h ⊢
  split at h
  · rename_i htype
    rcases h with ⟨hne, rfl⟩ | h
    · exact .inr (.inr ⟨htype, rfl⟩)
    · exact .inl (.inr h)
  · rename_i htype
    rcases h with h | ⟨o, e, hfind, rfl⟩
    · exact .inl (.inl h)
    · rw [OrderedMap.find?_set] at hfind
      split_ifs at hfind with heq
      · cases hfind
        exact .inr (.inl ⟨htype, rfl⟩)
      · exact .inl (.inr ⟨o, e, hfind, rfl⟩)
  · exact .inl h
  · exact .inl h

theorem ids_clearRecord {u : LsUnackPeer} {msg : LsMessage} {id : UInt32T}
    (h : id ∈ (LsRetransmissionManager.clearRecord u msg).ids) : id ∈ u.ids := by
  unfold LsRetransmissionManager.clearRecord at h
  rw [mem_ids] at h ⊢
  split at h
  · split_ifs at h
    · rcases h with ⟨hne, -⟩ | h
      · exact absurd rfl hne
      · exact .inr h
    · exact h
  · split_ifs at h
    · rcases h with h | ⟨o, e, hfind, rfl⟩
      · exact .inl h
      · exact .inr ⟨o, e, OrderedMap.find?_of_erase hfind, rfl⟩
    · exact h
  · exact h
  · exact h

namespace LsSystem

variable {s : LsSystem} {n : ℤ} {id : UInt32T}

theorem mem_references :
    id ∈ s.references ↔ (∃ n r, s.routing? n = some r ∧ id ∈ r.references) ∨
      ∃ p ∈ s.packets, p.msgId = id ∧ LsMessageCenter.isLsa id = true := by
  unfold references
  rw [mem_append, mem_flatMap, mem_filter, mem_map]
  apply or_congr
  · constructor
    · rintro ⟨⟨n, p⟩, hmem, hid⟩
      exact ⟨n, p.routing, by rw [routing?, OrderedMap.find?_eq_some.mpr hmem, Option.map_some], hid⟩
    · rintro ⟨n, r, hr, hid⟩
      obtain ⟨p, hp, rfl⟩ := Option.map_eq_some_iff.mp hr
      exact ⟨(n, p), OrderedMap.find?_eq_some.mp hp, hid⟩
  · constructor
    · rintro ⟨⟨p, hp, rfl⟩, hlsa⟩
      exact ⟨p, hp, rfl, hlsa⟩
    · rintro ⟨p, hp, rfl, hlsa⟩
      exact ⟨⟨p, hp, rfl⟩, hlsa⟩

theorem references_modifyRouting {f : LsRouting → LsRouting}
    (h : id ∈ (s.modifyRouting n f).references) :
    id ∈ s.references ∨ ∃ r, s.routing? n = some r ∧ id ∈ (f r).references := by
  rw [mem_references] at h
  rcases h with ⟨m, r, hr, hid⟩ | ⟨p, hp, heq, hlsa⟩
  · rw [routing?_modifyRouting] at hr
    split_ifs at hr with hm
    · obtain ⟨r₀, hr₀, rfl⟩ := Option.map_eq_some_iff.mp hr
      exact .inr ⟨r₀, hr₀, hid⟩
    · exact .inl (mem_references.mpr (.inl ⟨m, r, hr, hid⟩))
  · rw [packets_modifyRouting] at hp
    exact .inl (mem_references.mpr (.inr ⟨p, hp, heq, hlsa⟩))

theorem references_routing {r : LsRouting} (hr : s.routing? n = some r) (h : id ∈ r.references) :
    id ∈ s.references := mem_references.mpr (.inl ⟨n, r, hr, h⟩)

theorem references_sendMessage {destId : ℤ} {msgId : UInt32T}
    (h : id ∈ (s.sendMessage n destId msgId).references) :
    id ∈ s.references ∨ (id = msgId ∧ LsMessageCenter.isLsa id = true) := by
  rw [mem_references] at h
  rcases h with ⟨m, r, hr, hid⟩ | ⟨p, hp, heq, hlsa⟩
  · rw [routing?_sendMessage] at hr
    exact .inl (references_routing hr hid)
  · unfold sendMessage at hp
    split at hp
    · exact .inl (mem_references.mpr (.inr ⟨p, hp, heq, hlsa⟩))
    · split at hp
      · exact .inl (mem_references.mpr (.inr ⟨p, hp, heq, hlsa⟩))
      · rcases mem_append.mp hp with hp | hp
        · exact .inl (mem_references.mpr (.inr ⟨p, hp, heq, hlsa⟩))
        · rw [mem_singleton] at hp
          subst hp
          exact .inr ⟨heq.symm, hlsa⟩

end LsSystem

/-! ## The invariant -/

/-- Every message that someone refers to is in the store. The message's own fields agree with its
key, and a topology map has its id as its number. -/
structure Kept (s : LsSystem) : Prop where
  references : ∀ id ∈ s.references,
    LsMessageCenter.isLsa id = true ∧ (s.center.lsaMessages.find? id).isSome
  lsa : ∀ id msg, s.center.lsaMessages.find? id = some msg →
    LsMessageCenter.isLsa id = true ∧ msg.messageId = id ∧
      (msg.type = .lsa ∨ (msg.type = .tpm ∧ msg.sequenceNumber = id))
  other : ∀ id msg, s.center.otherMessages.find? id = some msg →
    LsMessageCenter.isLsa id = false ∧ msg.messageId = id ∧ (msg.type = .lsaAck ∨ msg.type = .tpmAck)
  odd : LsMessageCenter.isLsa s.center.currentLsaId = true
  even : LsMessageCenter.isLsa s.center.currentOtherId = false

def Stored (s : LsSystem) (id : UInt32T) : Prop :=
  LsMessageCenter.isLsa id = true ∧ (s.center.lsaMessages.find? id).isSome

theorem Kept.of_references {s s' : LsSystem} (h : Kept s) (hc : s'.center = s.center)
    (href : ∀ id ∈ s'.references, id ∈ s.references ∨ Stored s id) : Kept s' where
  references := by
    intro id hid
    rw [hc]
    rcases href id hid with hid | hid
    · exact h.references id hid
    · exact hid
  lsa := by rw [hc]; exact h.lsa
  other := by rw [hc]; exact h.other
  odd := by rw [hc]; exact h.odd
  even := by rw [hc]; exact h.even

theorem Kept.modifyRouting {s : LsSystem} {n : ℤ} {f : LsRouting → LsRouting} (h : Kept s)
    (hf : ∀ r id, s.routing? n = some r → id ∈ (f r).references → id ∈ r.references ∨ Stored s id) :
    Kept (s.modifyRouting n f) := by
  apply h.of_references center_modifyRouting
  intro id hid
  rcases references_modifyRouting hid with hid | ⟨r, hr, hid⟩
  · exact .inl hid
  · exact (hf r id hr hid).imp_left (references_routing hr)

theorem Kept.modifyOther {s : LsSystem} {n : ℤ} {f : LsRouting → LsRouting} (h : Kept s)
    (hf : ∀ r, (f r).references = r.references) : Kept (s.modifyRouting n f) :=
  h.modifyRouting (fun r id _ hid => .inl (by rwa [hf] at hid))

theorem Kept.run {ι ω : Type} {step : LsSystem → ι → Option (LsSystem × ω)} {ok : LsSystem → ι → Prop}
    {s s' : LsSystem} {is : List ι} {os : List ω}
    (hstep : ∀ t i t' o, Kept t → ok t i → step t i = some (t', o) → Kept t') (h : Kept s)
    (hok : Runs.Meets step ok s is) (hrun : Runs.run step s is = some (s', os)) : Kept s' :=
  @Runs.run_preserves LsSystem ι ω step ok s s' is os [] (fun _ t => Kept t) (fun _ => hstep) h hok hrun

theorem Kept.sendMessage {s : LsSystem} {n destId : ℤ} {msgId : UInt32T} (h : Kept s)
    (hid : LsMessageCenter.isLsa msgId = true → Stored s msgId) :
    Kept (s.sendMessage n destId msgId) := by
  apply h.of_references center_sendMessage
  intro id hmem
  rcases references_sendMessage hmem with hmem | ⟨rfl, hlsa⟩
  · exact .inl hmem
  · exact .inr (hid hlsa)

theorem Kept.bufferedSend {s : LsSystem} {n peer : ℤ} {mp : UInt32T} (h : Kept s)
    (hid : Stored s mp) : Kept (s.bufferedSend n peer mp) := by
  apply h.modifyRouting
  intro r id _ hmem
  rw [LinkState.mem_references] at hmem ⊢
  rcases hmem with ⟨b, hb, rfl⟩ | hrec
  · rcases mem_append.mp hb with hb | hb
    · exact .inl (.inl ⟨b, hb, rfl⟩)
    · rw [mem_singleton.mp hb]
      exact .inr hid
  · exact .inl (.inr hrec)

theorem Kept.messageOut {s : LsSystem} {msg : LsMessage} (h : Kept s) (n peer : ℤ)
    (hmsg : s.center.lsaMessages.find? msg.messageId = some msg) : Kept (s.messageOut n peer msg) := by
  obtain ⟨hlsa, -, htype⟩ := h.lsa _ _ hmsg
  have hstored : Stored s msg.messageId := ⟨hlsa, by rw [hmsg]; rfl⟩
  apply h.modifyRouting
  intro r id _ hmem
  rcases references_set hmem with hmem | hmem
  · exact .inl hmem
  · rcases ids_record hmem with hmem | ⟨-, rfl⟩ | ⟨htpm, rfl⟩
    · cases hfind : r.ackManager.find? peer with
      | none =>
        rw [hfind, Option.getD_none, ids_fresh] at hmem
        cases hmem
      | some u =>
        rw [hfind, Option.getD_some] at hmem
        exact .inl (references_of_find hfind hmem)
    · exact .inr hstored
    · rcases htype with htype | ⟨-, hseq⟩
      · rw [htype] at htpm
        cases htpm
      · rw [hseq]
        exact .inr hstored

/-! ### New messages -/

theorem isLsa_next {id : UInt32T} :
    LsMessageCenter.isLsa (LsMessageCenter.nextId id) = LsMessageCenter.isLsa id := by
  unfold LsMessageCenter.nextId LsMessageCenter.isLsa
  rw [decide_eq_decide]
  have htwo : ∀ i : UInt32T, (i + 2).val = (i.val + 2) % 2 ^ 32 := fun i => rfl
  split_ifs
  · omega
  · rw [htwo]
    omega

theorem ready_messages {c : LsMessageCenter} :
    c.ready.lsaMessages = c.lsaMessages ∧ c.ready.otherMessages = c.otherMessages ∧
      c.ready.currentLsaId = c.currentLsaId ∧ c.ready.currentOtherId = c.currentOtherId := by
  unfold LsMessageCenter.ready LsMessageCenter.init
  split_ifs <;> exact ⟨rfl, rfl, rfl, rfl⟩

theorem find?_recycle {maxSize : ℕ} {storage : OrderedMap UInt32T LsMessage} {id : UInt32T}
    {msg : LsMessage} (h : (LsMessageCenter.recycle maxSize storage).find? id = some msg) :
    storage.find? id = some msg := by
  unfold LsMessageCenter.recycle at h
  split_ifs at h
  · exact OrderedMap.find?_of_eraseBegin h
  · exact h

theorem find?_recycle_of_ne {c : LsMessageCenter} {id : UInt32T} (h : ∀ id' ∈ c.recycled, id ≠ id') :
    (LsMessageCenter.recycle c.ready.maxSize c.ready.lsaMessages).find? id =
      c.lsaMessages.find? id := by
  rw [ready_messages.1]
  unfold LsMessageCenter.recycle
  unfold LsMessageCenter.recycled at h
  split_ifs with hfull
  · rw [if_pos hfull] at h
    exact OrderedMap.find?_eraseBegin_of_ne (fun heq => h id heq rfl)
  · rfl

/-- **A new LSA or topology map** that takes the place of a message that nobody refers to. Its fields
may be written before it is sent. -/
theorem Kept.newLsa {s : LsSystem} {nodeId : ℤ} {type : LsMessageType} {c : LsMessageCenter}
    {msg : LsMessage} (h : Kept s) (msg' : LsMessage) (hspare : s.Spare)
    (htype : type = .lsa ∨ type = .tpm) (hnew : s.center.newMessage nodeId type = some (c, msg))
    (hid : msg'.messageId = msg.messageId) (htype' : msg'.type = type)
    (hseq : type = .tpm → msg'.sequenceNumber = msg.messageId) :
    Kept { s with center := c.write msg' } ∧
      (c.write msg').lsaMessages.find? msg'.messageId = some msg' := by
  unfold LsMessageCenter.newMessage at hnew
  rw [if_pos htype] at hnew
  obtain ⟨store, hstore, heq⟩ := Option.map_eq_some_iff.mp hnew
  obtain ⟨hfree, rfl⟩ := OrderedMap.insert_eq_some.mp hstore
  cases heq
  obtain ⟨hlsa, hother, hcur, hcur'⟩ := @ready_messages s.center
  dsimp only at hid hseq
  rw [hcur] at hid hseq
  have hfind : ∀ id, id ≠ s.center.currentLsaId →
      ((((LsMessageCenter.recycle s.center.ready.maxSize s.center.ready.lsaMessages).set
        s.center.ready.currentLsaId
          ⟨type, s.center.ready.currentLsaId, s.center.ready.currentLsaId, nodeId, .null⟩).set
            msg'.messageId msg').find? id) =
        (LsMessageCenter.recycle s.center.ready.maxSize s.center.ready.lsaMessages).find? id := by
    intro id hne
    rw [OrderedMap.find?_set_of_ne (hid ▸ hne), OrderedMap.find?_set_of_ne (hcur ▸ hne)]
  have hwrite : (type = .lsa ∨ type = .tpm) := htype
  unfold LsMessageCenter.write
  rw [if_pos (htype' ▸ hwrite)]
  refine ⟨⟨?_, ?_, ?_, ?_, ?_⟩, OrderedMap.find?_set_self⟩
  · intro id hmem
    have hmem' : id ∈ s.references := hmem
    obtain ⟨hodd, hsome⟩ := h.references id hmem'
    refine ⟨hodd, ?_⟩
    by_cases hcurr : id = s.center.currentLsaId
    · rw [hcurr, ← hid, OrderedMap.find?_set_self]
      rfl
    · rw [hfind id hcurr, find?_recycle_of_ne (fun id' hid' heq => hspare id' hid' (heq ▸ hmem'))]
      exact hsome
  · intro id m hm
    by_cases hcurr : id = s.center.currentLsaId
    · rw [hcurr, ← hid, OrderedMap.find?_set_self] at hm
      cases hm
      refine ⟨hcurr ▸ h.odd, hcurr ▸ hid, ?_⟩
      rcases htype with htype | htype
      · exact .inl (htype'.trans htype)
      · exact .inr ⟨htype'.trans htype, by rw [hseq htype, hcurr]⟩
    · rw [hfind id hcurr] at hm
      have hm' := find?_recycle hm
      rw [hlsa] at hm'
      exact h.lsa id m hm'
  · intro id m hm
    rw [hother] at hm
    exact h.other id m hm
  · rw [isLsa_next, hcur]
    exact h.odd
  · rw [hcur']
    exact h.even

theorem Kept.newAck {s : LsSystem} {nodeId : ℤ} {type : LsMessageType} {c : LsMessageCenter}
    {msg : LsMessage} (h : Kept s) (origin : ℤ) (seq : UInt32T) (htype : type = .lsaAck ∨ type = .tpmAck)
    (hnew : s.center.newMessage nodeId type = some (c, msg)) :
    Kept { s with center := c.write { msg with originNodeId := origin, sequenceNumber := seq } } ∧
      LsMessageCenter.isLsa msg.messageId = false ∧
      (c.write { msg with originNodeId := origin, sequenceNumber := seq }).lsaMessages =
        s.center.lsaMessages := by
  have hnot : ¬ (type = .lsa ∨ type = .tpm) := by
    rcases htype with rfl | rfl <;> simp
  unfold LsMessageCenter.newMessage at hnew
  rw [if_neg hnot] at hnew
  obtain ⟨store, hstore, heq⟩ := Option.map_eq_some_iff.mp hnew
  obtain ⟨hfree, rfl⟩ := OrderedMap.insert_eq_some.mp hstore
  cases heq
  obtain ⟨hlsa, hother, hcur, hcur'⟩ := @ready_messages s.center
  unfold LsMessageCenter.write
  rw [if_neg hnot]
  refine ⟨⟨?_, ?_, ?_, ?_, ?_⟩, ?_, hlsa⟩
  · intro id hmem
    rw [hlsa]
    exact h.references id hmem
  · intro id m hm
    rw [hlsa] at hm
    exact h.lsa id m hm
  · intro id m hm
    rw [OrderedMap.find?_set] at hm
    split_ifs at hm with heq
    · cases hm
      refine ⟨?_, heq.symm, htype⟩
      rw [heq, hcur']
      exact h.even
    · rw [OrderedMap.find?_set_of_ne heq] at hm
      have hm' := find?_recycle hm
      rw [hother] at hm'
      exact h.other id m hm'
  · rw [hcur]
    exact h.odd
  · rw [isLsa_next, hcur']
    exact h.even
  · rw [hcur']
    exact h.even

/-! ### Handlers -/

section Handlers

variable {s s' : LsSystem} {n : ℤ}

theorem Kept.sendAck {nbrId origin : ℤ} {type : LsMessageType} {seq : UInt32T} (h : Kept s)
    (htype : type = .lsaAck ∨ type = .tpmAck)
    (hs : s.sendAck n nbrId type origin seq = some s') :
    Kept s' ∧ s'.center.lsaMessages = s.center.lsaMessages := by
  obtain ⟨⟨c, msg⟩, hnew, rfl⟩ := Option.map_eq_some_iff.mp hs
  obtain ⟨hk, heven, hsame⟩ := h.newAck origin seq htype hnew
  constructor
  · apply hk.sendMessage
    intro hlsa
    rw [heven] at hlsa
    cases hlsa
  · rw [center_sendMessage]
    exact hsame

theorem Kept.sendToPeers {peers : List ℤ} {test : ℤ → Bool} {send : LsSystem → ℤ → LsSystem}
    (h : Kept s) (msg : LsMessage) (hmsg : s.center.lsaMessages.find? msg.messageId = some msg)
    (hsend : ∀ t peer, Kept t → t.center.lsaMessages.find? msg.messageId = some msg →
      Kept (send t peer) ∧ (send t peer).center = t.center) :
    Kept (s.sendToPeers peers test send) := by
  refine (sendToPeers_keeps (P := fun t => Kept t ∧
    t.center.lsaMessages.find? msg.messageId = some msg) ⟨h, hmsg⟩ ?_).1
  rintro t peer ⟨ht, hm⟩
  obtain ⟨hk, hc⟩ := hsend t peer ht hm
  exact ⟨hk, by rw [hc]; exact hm⟩

theorem Kept.stored {msg : LsMessage} (h : Kept s)
    (hmsg : s.center.lsaMessages.find? msg.messageId = some msg) : Stored s msg.messageId :=
  ⟨(h.lsa _ _ hmsg).1, by rw [hmsg]; rfl⟩

theorem Kept.sendLinkStates {buffer : Bool} (h : Kept s)
    (hspare : s.advertises n = true → s.Spare) (hs : s.sendLinkStates n buffer = some s') :
    Kept s' := by
  obtain ⟨r, hr, hs⟩ := Option.bind_eq_some_iff.mp hs
  by_cases hpeers : r.peerIdList = []
  · rw [if_pos hpeers] at hs
    cases hs
    exact h
  rw [if_neg hpeers] at hs
  split at hs
  · cases hs
    exact h
  · cases hs
    exact h
  rename_i first rest hlsl
  have hadv : s.advertises n = true := by
    unfold advertises
    rw [hr]
    simp [hpeers, hlsl]
  obtain ⟨⟨c, msg⟩, hnew, rfl⟩ := Option.map_eq_some_iff.mp hs
  have htype : msg.type = .lsa := by
    obtain ⟨store, -, heq⟩ := Option.map_eq_some_iff.mp hnew
    cases heq
    rfl
  obtain ⟨hk, hfind⟩ := h.newLsa { msg with content := .lsl ((first :: rest).map
    (fun l => { l with sequenceNumber := msg.sequenceNumber })) } (hspare hadv) (.inl rfl) hnew rfl
    htype (fun ht => by cases ht)
  refine Kept.sendToPeers ?_ { msg with content := .lsl ((first :: rest).map
    (fun l => { l with sequenceNumber := msg.sequenceNumber })) } ?_ ?_
  · exact hk.modifyOther (fun r => rfl)
  · rw [center_modifyRouting]
    exact hfind
  · intro t peer ht hm
    split_ifs with hb
    · exact ⟨ht.bufferedSend (ht.stored hm), center_bufferedSend⟩
    · refine ⟨(ht.sendMessage (fun _ => ht.stored hm)).messageOut _ _ ?_, ?_⟩
      · rw [center_sendMessage]
        exact hm
      · rw [center_messageOut, center_sendMessage]

theorem Kept.sendTopo {neighborId : ℤ} (h : Kept s) (hspare : s.Spare)
    (hs : s.sendTopo n neighborId = some s') : Kept s' := by
  obtain ⟨⟨c, msg⟩, hnew, rfl⟩ := Option.map_eq_some_iff.mp hs
  have hmade : msg.type = .tpm ∧ msg.sequenceNumber = msg.messageId := by
    obtain ⟨store, -, heq⟩ := Option.map_eq_some_iff.mp hnew
    cases heq
    exact ⟨rfl, rfl⟩
  obtain ⟨hk, hfind⟩ := h.newLsa { msg with content := .topo n } hspare (.inr rfl) hnew rfl
    hmade.1 (fun _ => hmade.2)
  exact hk.bufferedSend (hk.stored hfind)

theorem Kept.regenAndSend {exception origin : ℤ} {lsl : List LsLinkState} (h : Kept s)
    (hspare : s.Spare) (hs : s.regenAndSend n exception origin lsl = some s') : Kept s' := by
  unfold LsSystem.regenAndSend at hs
  split at hs
  · cases hs
  rename_i first rest
  obtain ⟨r, hr, hs⟩ := Option.bind_eq_some_iff.mp hs
  obtain ⟨⟨c, msg⟩, hnew, rfl⟩ := Option.map_eq_some_iff.mp hs
  have htype : msg.type = .lsa := by
    obtain ⟨store, -, heq⟩ := Option.map_eq_some_iff.mp hnew
    cases heq
    rfl
  obtain ⟨hk, hfind⟩ := h.newLsa { msg with
    sequenceNumber := first.sequenceNumber, originNodeId := origin } hspare (.inl rfl) hnew rfl
    htype (fun ht => by cases ht)
  apply Kept.sendToPeers hk _ hfind
  intro t peer ht hm
  exact ⟨ht.bufferedSend (ht.stored hm), center_bufferedSend⟩

theorem Kept.cancelTimer {nbrId : ℤ} (h : Kept s) :
    Kept (s.modifyRouting n (fun r => { r with ackManager := r.ackManager.cancelTimer nbrId })) := by
  apply h.modifyRouting
  intro r id _ hmem
  unfold LsRetransmissionManager.cancelTimer at hmem
  split at hmem
  · exact .inl hmem
  · rcases references_set hmem with hmem | hmem
    · exact .inl hmem
    · cases hmem

theorem Kept.linkTurn {link : LsLinkState × LsLinkState} {o : Unit} (h : Kept s)
    (hspare : SpareTurn s link) (hs : linkTurn n s link = some (s', o)) : Kept s' := by
  unfold LsSystem.linkTurn at hs
  split_ifs at hs with hne hdown hskip hskip
  · cases hs
    exact h.cancelTimer
  · exact absurd (.inl hdown) hskip
  · cases hs
    exact h
  · obtain ⟨t, ht, heq⟩ := Option.map_eq_some_iff.mp hs
    cases heq
    exact h.sendTopo (hspare hskip) ht

theorem Kept.updateOwn {r : LsRouting} (h : Kept s) (hr : s.routing? n = some r)
    (hspare : (r.linkStateDatabase.update n n r.linkStateList).2 = true → r.peerIdList ≠ [] → s.Spare)
    (hs : updateOwn s n r = some s') : Kept s' := by
  unfold LsSystem.updateOwn at hs
  have hk : Kept (s.modifyRouting n (fun r' => { r' with
      linkStateDatabase := (r.linkStateDatabase.update n n r.linkStateList).1 })) :=
    h.modifyOther (fun r => rfl)
  dsimp only at hs
  split_ifs at hs with hchanged
  · apply hk.sendLinkStates _ hs
    intro hadv
    have hpeers : r.peerIdList ≠ [] := by
      unfold advertises at hadv
      rw [routing?_modifyRouting, if_pos rfl, hr] at hadv
      intro heq
      simp [heq] at hadv
    intro id hid hmem
    rw [center_modifyRouting] at hid
    apply hspare hchanged hpeers id hid
    rcases references_modifyRouting hmem with hmem | ⟨r', hr', hmem⟩
    · exact hmem
    · exact references_routing hr' hmem
  · cases hs
    exact hk

theorem Kept.linkStateChanged (h : Kept s) (hspare : SpareChange s n)
    (hs : s.linkStateChanged n = some s') : Kept s' := by
  obtain ⟨r, hr, hs⟩ := Option.bind_eq_some_iff.mp hs
  obtain ⟨oldlsl, hold, hs⟩ := Option.bind_eq_some_iff.mp hs
  split_ifs at hs
  obtain ⟨t, ht, hs⟩ := Option.bind_eq_some_iff.mp hs
  obtain ⟨⟨t', outs⟩, hrun, rfl⟩ := Option.map_eq_some_iff.mp hs
  obtain ⟨hfirst, hloop⟩ := hspare r hr oldlsl hold
  exact Kept.run (fun _ _ _ _ hk hok hstep => hk.linkTurn hok hstep) (h.updateOwn hr hfirst ht) (hloop t ht)
    hrun

theorem Kept.forward {msg : LsMessage} (h : Kept s) (n : ℤ) (peers : List ℤ) (test : ℤ → Bool)
    (hmsg : s.center.lsaMessages.find? msg.messageId = some msg) :
    Kept (s.sendToPeers peers test
      (fun s peer => (s.messageOut n peer msg).sendMessage n peer msg.messageId)) := by
  apply h.sendToPeers msg hmsg
  intro t peer ht hm
  have hk := ht.messageOut n peer hm
  have hm' : (t.messageOut n peer msg).center.lsaMessages.find? msg.messageId = some msg := by
    rw [center_messageOut]
    exact hm
  refine ⟨hk.sendMessage (fun _ => hk.stored hm'), ?_⟩
  rw [center_sendMessage, center_messageOut]

theorem Kept.receiveLSA {senderId : ℤ} {msg : LsMessage} {changed : Bool} (h : Kept s)
    (hmsg : s.center.lsaMessages.find? msg.messageId = some msg)
    (hs : s.receiveLSA n senderId msg = some (s', changed)) : Kept s' := by
  obtain ⟨t, ht, hs⟩ := Option.bind_eq_some_iff.mp hs
  obtain ⟨hk, hsame⟩ := h.sendAck (.inl rfl) ht
  obtain ⟨r, hr, hs⟩ := Option.bind_eq_some_iff.mp hs
  split_ifs at hs with horigin
  · cases hs
    exact hk
  dsimp only at hs
  split_ifs at hs
  · cases hs
    exact hk
  have hk' : Kept (t.modifyRouting n (fun r' => { r' with
      lsaHistory := (r.lsaHistory.isNewMessage msg).1 })) := hk.modifyOther (fun r => rfl)
  have hforward := hk'.forward n r.peerIdList
    (fun peer => peer ≠ msg.originNodeId ∧ peer ≠ senderId ∧ r.isUp peer)
    (by rw [center_modifyRouting, hsame]; exact hmsg)
  split at hs
  · cases hs
    exact hforward
  · cases hs
  · cases hs
    exact hforward.modifyOther (fun r => rfl)

theorem Kept.topoRecord {neighborId : ℤ} {msgId : UInt32T} {rec : ℤ × List LsLinkState} {o : Bool}
    (h : Kept s) (hspare : SpareRecord n s rec)
    (hs : topoRecord n neighborId msgId s rec = some (s', o)) : Kept s' := by
  unfold LsSystem.topoRecord at hs
  split_ifs at hs with hown
  · cases hs
    exact h
  split at hs
  · cases hs
  rename_i first rest hlsl
  obtain ⟨r, hr, hs⟩ := Option.bind_eq_some_iff.mp hs
  split_ifs at hs with hold
  · obtain ⟨t, ht, hs⟩ := Option.bind_eq_some_iff.mp hs
    split_ifs at hs
    cases hs
    have hk : Kept (s.modifyRouting n (fun r => { r with
        linkStateDatabase := r.linkStateDatabase.set rec.1 rec.2 })) := h.modifyOther (fun r => rfl)
    apply hk.regenAndSend _ ht
    intro id hid hmem
    rw [center_modifyRouting] at hid
    apply hspare r hr first (by rw [hlsl]; rfl) hown hold id hid
    rcases references_modifyRouting hmem with hmem | ⟨r', hr', hmem⟩
    · exact hmem
    · exact references_routing hr' hmem
  · cases hs
    exact h

theorem Kept.openTopo {neighborId : ℤ} {msg : LsMessage} {new : Bool} (h : Kept s)
    (hs : openTopo s n neighborId msg = some (s', new)) : Kept s' := by
  obtain ⟨t, ht, hs⟩ := Option.bind_eq_some_iff.mp hs
  obtain ⟨hk, -⟩ := h.sendAck (.inr rfl) ht
  obtain ⟨r, hr, heq⟩ := Option.map_eq_some_iff.mp hs
  cases heq
  exact hk.modifyOther (fun r => rfl)

theorem Kept.receiveTopo {neighborId : ℤ} {msg : LsMessage} {changed : Bool} (h : Kept s)
    (hspare : SpareTopo s n neighborId msg)
    (hs : s.receiveTopo n neighborId msg = some (s', changed)) : Kept s' := by
  obtain ⟨⟨t, new⟩, ht, hs⟩ := Option.bind_eq_some_iff.mp hs
  have hk := h.openTopo ht
  split_ifs at hs with hnew
  · cases hs
    exact hk
  split at hs
  · cases hs
    exact hk
  · cases hs
  rename_i node hnode
  obtain ⟨sender, hsender, hs⟩ := Option.bind_eq_some_iff.mp hs
  obtain ⟨⟨t', outs⟩, hrun, heq⟩ := Option.map_eq_some_iff.mp hs
  cases heq
  rw [Bool.not_eq_false] at hnew
  subst hnew
  have hspare' := hspare _ ht rfl node (by rw [hnode]; rfl) sender hsender
  exact Kept.run (fun _ _ _ _ hk hok hstep => hk.topoRecord hok hstep) hk hspare' hrun

theorem Kept.receiveAck {neighborId : ℤ} {msg : LsMessage} (h : Kept s)
    (hs : s.receiveAck n neighborId msg = some s') : Kept s' := by
  obtain ⟨r, hr, hs⟩ := Option.bind_eq_some_iff.mp hs
  obtain ⟨m, hm, rfl⟩ := Option.map_eq_some_iff.mp hs
  have hk : Kept (s.modifyRouting n (fun r => { r with ackManager := m })) := by
    apply h.modifyRouting
    intro r' id hr' hmem
    rw [hr] at hr'
    cases hr'
    left
    unfold LsRetransmissionManager.ackIn at hm
    split at hm
    · cases hm
      exact hmem
    rename_i u hu
    dsimp only at hm
    have hclear : ∀ u', u'.ids = (LsRetransmissionManager.clearRecord u msg).ids →
        m = r.ackManager.set neighborId u' → id ∈ r.references := by
      rintro u' hids rfl
      rcases references_set hmem with hmem | hmem
      · exact hmem
      · rw [hids] at hmem
        exact references_of_find hu (ids_clearRecord hmem)
    split_ifs at hm
    · cases hm
      exact hmem
    · cases hm
      exact hclear { LsRetransmissionManager.clearRecord u msg with pending := false } rfl rfl
    · cases hm
      exact hclear _ rfl rfl
  exact
    { references := hk.references
      lsa := hk.lsa
      other := fun id m hm => hk.other id m (OrderedMap.find?_of_erase hm)
      odd := hk.odd
      even := hk.even }

theorem Kept.receiveMessage {senderId : ℤ} {msgId : UInt32T} {changed : Bool} (h : Kept s)
    (hspare : ∀ msg, s.center.retrieveMessagePtr msgId = some msg → msg.type = .tpm →
      SpareTopo s n senderId msg)
    (hs : s.receiveMessage n senderId msgId = some (s', changed)) : Kept s' := by
  unfold LsSystem.receiveMessage at hs
  split_ifs at hs
  · cases hs
    exact h
  split at hs
  · cases hs
    exact h
  rename_i msg hmsg
  have hlsa : msg.type = .lsa → s.center.lsaMessages.find? msg.messageId = some msg := by
    intro htype
    unfold LsMessageCenter.retrieveMessagePtr at hmsg
    split_ifs at hmsg
    · rw [(h.lsa _ _ hmsg).2.1]
      exact hmsg
    · rcases (h.other _ _ hmsg).2.2 with htype' | htype' <;> (rw [htype] at htype'; cases htype')
  split at hs
  · rename_i htype
    exact h.receiveTopo (hspare msg hmsg htype) hs
  · rename_i htype
    exact h.receiveLSA (hlsa htype) hs
  · obtain ⟨t, ht, heq⟩ := Option.map_eq_some_iff.mp hs
    cases heq
    exact h.receiveAck ht
  · obtain ⟨t, ht, heq⟩ := Option.map_eq_some_iff.mp hs
    cases heq
    exact h.receiveAck ht

theorem Kept.sendBuffered {bs : List IdMsgPtr} (h : Kept s)
    (hs : bs.foldlM (sendBuffered n) s = some s') : Kept s' := by
  induction bs generalizing s with
  | nil =>
    cases hs
    exact h
  | cons b bs ih =>
    obtain ⟨t, ht, hs⟩ := Option.bind_eq_some_iff.mp hs
    obtain ⟨msg, hmsg, rfl⟩ := Option.map_eq_some_iff.mp ht
    have hmsg' : s.center.lsaMessages.find? msg.messageId = some msg := by
      rw [(h.lsa _ _ hmsg).2.1]
      exact hmsg
    have hk := h.messageOut n b.peerId hmsg'
    refine ih (hk.sendMessage (fun _ => hk.stored ?_)) hs
    rw [center_messageOut]
    exact hmsg'

theorem Kept.sendBufferedMessages (h : Kept s) (hs : s.sendBufferedMessages n = some s') :
    Kept s' := by
  obtain ⟨r, hr, hs⟩ := Option.bind_eq_some_iff.mp hs
  obtain ⟨t, ht, rfl⟩ := Option.map_eq_some_iff.mp hs
  apply (h.sendBuffered ht).modifyRouting
  intro r' id _ hmem
  rw [LinkState.mem_references] at hmem ⊢
  rcases hmem with ⟨b, hb, -⟩ | hmem
  · cases hb
  · exact .inl (.inr hmem)

theorem Kept.sendMessages {es : List (ℤ × LsIdSeq)} (h : Kept s) (n peer : ℤ)
    (hes : ∀ e ∈ es, e.2.msgId ∈ s.references) :
    Kept (es.foldl (fun s e => s.sendMessage n peer e.2.msgId) s) ∧
      ∀ id ∈ s.references, id ∈ (es.foldl (fun s e => s.sendMessage n peer e.2.msgId) s).references := by
  induction es generalizing s with
  | nil => exact ⟨h, fun id hid => hid⟩
  | cons e es ih =>
    have hgrow : ∀ id ∈ s.references, id ∈ (s.sendMessage n peer e.2.msgId).references := by
      intro id hid
      rw [LsSystem.mem_references] at hid ⊢
      simp only [routing?_sendMessage]
      refine hid.imp_right ?_
      rintro ⟨p, hp, hrest⟩
      refine ⟨p, ?_, hrest⟩
      unfold LsSystem.sendMessage
      split
      · exact hp
      · split
        · exact hp
        · exact mem_append_left _ hp
    have hk := @Kept.sendMessage s n peer e.2.msgId h
      (fun _ => h.references _ (hes e mem_cons_self))
    obtain ⟨hk', hgrow'⟩ := ih hk (fun e' he => hgrow _ (hes e' (mem_cons_of_mem _ he)))
    exact ⟨hk', fun id hid => hgrow' id (hgrow id hid)⟩

theorem Kept.resendMessages {peerId : ℤ} (h : Kept s) (hs : s.resendMessages n peerId = some s') :
    Kept s' := by
  unfold LsSystem.resendMessages at hs
  obtain ⟨r, hr, hs⟩ := Option.bind_eq_some_iff.mp hs
  obtain ⟨u, hu, rfl⟩ := Option.map_eq_some_iff.mp hs
  have hids : ∀ id ∈ u.ids, id ∈ s.references :=
    fun id hid => references_routing hr (references_of_find hu hid)
  -- the topology map goes first
  have hfirst : ∃ es, (es = [] ∨ es = [((0 : ℤ), (⟨u.tpmSeq, u.tpmSeq⟩ : LsIdSeq))]) ∧
      (if u.tpmSeq ≠ lsInvalidMessageId then s.sendMessage n peerId u.tpmSeq else s) =
        es.foldl (fun s e => s.sendMessage n peerId e.2.msgId) s ∧
      ∀ e ∈ es, e.2.msgId ∈ s.references := by
    by_cases htpm : u.tpmSeq = lsInvalidMessageId
    · refine ⟨[], .inl rfl, by rw [if_neg (not_not.mpr htpm)]; rfl, fun e he => by cases he⟩
    · refine ⟨_, .inr rfl, by rw [if_pos htpm]; rfl, fun e he => ?_⟩
      rw [mem_singleton.mp he]
      exact hids _ (mem_ids.mpr (.inl ⟨htpm, rfl⟩))
  obtain ⟨es, -, heq, hes⟩ := hfirst
  rw [heq]
  obtain ⟨hk, hgrow⟩ := h.sendMessages n peerId hes
  obtain ⟨hk', hgrow'⟩ := hk.sendMessages n peerId (show ∀ e ∈ u.lsaMap.entries, _ by
    rintro ⟨o, e⟩ he
    exact hgrow _ (hids _ (mem_ids.mpr (.inr ⟨o, e, OrderedMap.find?_eq_some.mpr he, rfl⟩))))
  apply hk'.modifyRouting
  intro r' id _ hmem
  rcases references_set hmem with hmem | hmem
  · exact .inl hmem
  · exact .inr (hk'.references id (hgrow' id (hgrow id (hids id hmem))))

theorem ids_initTimeout {delays : List ℤ} {m : LsRetransmissionManager} {peer : ℤ} {u : LsUnackPeer}
    (hm : ∀ peer u, m.find? peer = some u → u.ids = [])
    (hu : (m.initTimeout delays).find? peer = some u) : u.ids = [] := by
  induction delays generalizing m with
  | nil => exact hm peer u hu
  | cons id delays ih =>
    refine ih ?_ hu
    intro peer u hu
    dsimp only at hu
    cases hins : m.insert id LsUnackPeer.fresh with
    | none =>
      rw [hins, Option.getD_none] at hu
      exact hm peer u hu
    | some m' =>
      rw [hins, Option.getD_some] at hu
      obtain ⟨-, rfl⟩ := OrderedMap.insert_eq_some.mp hins
      rw [OrderedMap.find?_set] at hu
      split_ifs at hu
      · cases hu
        exact ids_fresh
      · exact hm peer u hu

theorem Kept.initNode {here : NsAddr} {peers : List (ℤ × NsAddr)} {links : List LsLinkState}
    {delays : List ℤ} (h : Kept s) (hs : s.initNode n here peers links delays = some s') :
    Kept s' := by
  obtain ⟨nodes, hnodes, rfl⟩ := Option.map_eq_some_iff.mp hs
  obtain ⟨-, rfl⟩ := OrderedMap.insert_eq_some.mp hnodes
  refine Kept.of_references h rfl ?_
  intro id hmem
  left
  rw [LsSystem.mem_references] at hmem ⊢
  refine hmem.imp_left ?_
  rintro ⟨m, r, hr, hid⟩
  obtain ⟨p, hp, rfl⟩ := Option.map_eq_some_iff.mp hr
  rw [OrderedMap.find?_set] at hp
  split_ifs at hp
  · cases hp
    rcases LinkState.mem_references.mp hid with ⟨b, hb, -⟩ | ⟨peer, u, hu, hid⟩
    · cases hb
    · rw [ids_initTimeout (fun peer u hu => by cases hu) hu] at hid
      cases hid
  · exact ⟨m, p.routing, by rw [routing?, hp, Option.map_some], hid⟩

theorem Kept.eraseIdx {k : ℕ} (h : Kept s) : Kept { s with packets := s.packets.eraseIdx k } := by
  refine @Kept.of_references s { s with packets := s.packets.eraseIdx k } h rfl ?_
  intro id hmem
  left
  rw [LsSystem.mem_references] at hmem ⊢
  refine hmem.imp_right ?_
  rintro ⟨p, hp, hrest⟩
  exact ⟨p, mem_of_mem_eraseIdx hp, hrest⟩

/-- No message that someone refers to is recycled by a careful event. -/
theorem step_kept {event : Event} {flag : Bool} (h : Kept s) (hok : Careful s event)
    (hs : step s event = some (s', flag)) : Kept s' := by
  cases event with
  | setNodeNumber numberOfNodes =>
    cases hs
    exact ⟨h.references, h.lsa, h.other, h.odd, h.even⟩
  | initNode n here peers links delays =>
    obtain ⟨t, ht, heq⟩ := Option.map_eq_some_iff.mp hs
    cases heq
    exact h.initNode ht
  | intfChanged n links =>
    obtain ⟨t, ht, heq⟩ := Option.map_eq_some_iff.mp hs
    cases heq
    refine Kept.linkStateChanged ?_ hok ht
    exact h.modifyOther (fun r => rfl)
  | sendUpdates n =>
    obtain ⟨t, ht, heq⟩ := Option.map_eq_some_iff.mp hs
    cases heq
    exact h.sendLinkStates hok ht
  | sendBufferedMessages n =>
    obtain ⟨t, ht, heq⟩ := Option.map_eq_some_iff.mp hs
    cases heq
    exact h.sendBufferedMessages ht
  | recv k =>
    obtain ⟨p, hp, hs⟩ := Option.bind_eq_some_iff.mp hs
    unfold LsSystem.recv at hs
    split at hs
    · cases hs
      exact h.eraseIdx
    · rename_i e he
      refine Kept.receiveMessage (s := { s with packets := s.packets.eraseIdx k }) h.eraseIdx ?_ hs
      exact fun msg hmsg htype => hok p hp e he msg hmsg htype
  | lose k =>
    obtain ⟨p, hp, heq⟩ := Option.map_eq_some_iff.mp hs
    cases heq
    exact h.eraseIdx
  | expire n peerId =>
    obtain ⟨t, ht, heq⟩ := Option.map_eq_some_iff.mp hs
    cases heq
    obtain ⟨r, hr, ht⟩ := Option.bind_eq_some_iff.mp ht
    obtain ⟨u, hu, ht⟩ := Option.bind_eq_some_iff.mp ht
    split_ifs at ht
    exact h.resendMessages ht

end Handlers

theorem start_kept : Kept LsSystem.start where
  references := fun id hid => by cases hid
  lsa := fun id msg hm => by cases hm
  other := fun id msg hm => by cases hm
  odd := rfl
  even := rfl

/-- **The store keeps every message still needed while no new message takes the place of one.** In
every state that such a run reaches, each pointer of a send buffer, each id of a pending record and
each LSA or topology map in flight denotes a message of the store. -/
theorem store_keeps_needed {events : List Event} {s : LsSystem} {outs : List Bool}
    (hok : Runs.Meets step Careful LsSystem.start events)
    (h : Runs.run step LsSystem.start events = some (s, outs)) :
    (∀ n r, s.routing? n = some r →
      (∀ b ∈ r.messageBuffer, (s.center.retrieveMessagePtr b.msgPtr).isSome) ∧
      ∀ peer u, r.ackManager.find? peer = some u →
        (u.tpmSeq ≠ lsInvalidMessageId → (s.center.retrieveMessagePtr u.tpmSeq).isSome) ∧
        ∀ o e, u.lsaMap.find? o = some e → (s.center.retrieveMessagePtr e.msgId).isSome) ∧
    ∀ p ∈ s.packets, LsMessageCenter.isLsa p.msgId = true →
      (s.center.retrieveMessagePtr p.msgId).isSome := by
  have hk : Kept s := Kept.run (fun _ _ _ _ hk hok hstep => step_kept hk hok hstep) start_kept hok h
  have hretrieve : ∀ id ∈ s.references, (s.center.retrieveMessagePtr id).isSome := by
    intro id hid
    obtain ⟨hlsa, hsome⟩ := hk.references id hid
    unfold LsMessageCenter.retrieveMessagePtr
    rw [if_pos hlsa]
    exact hsome
  refine ⟨fun n r hr => ⟨fun b hb => ?_, fun peer u hu => ⟨fun htpm => ?_, fun o e he => ?_⟩⟩,
    fun p hp hlsa => ?_⟩
  · exact hretrieve _ (references_routing hr (mem_references.mpr (.inl ⟨b, hb, rfl⟩)))
  · exact hretrieve _ (references_routing hr
      (references_of_find hu (mem_ids.mpr (.inl ⟨htpm, rfl⟩))))
  · exact hretrieve _ (references_routing hr
      (references_of_find hu (mem_ids.mpr (.inr ⟨o, e, he, rfl⟩))))
  · exact hretrieve _ (LsSystem.mem_references.mpr (.inr ⟨p, hp, rfl, hlsa⟩))

/-! ## A record that loses its message -/

def linkUp : List Event :=
  [.initNode 0 ⟨0, 0⟩ [(1, ⟨1, 0⟩)] [⟨1, .down, 1, 0⟩] [1], .setNodeNumber 2,
    .initNode 1 ⟨1, 0⟩ [(0, ⟨0, 0⟩)] [⟨0, .down, 1, 0⟩] [0],
    .intfChanged 0 [⟨1, .up, 1, 0⟩], .sendBufferedMessages 0, .lose 0, .lose 0]

theorem store_keeps_needed_link_up :
    ∃ s outs, Runs.run step LsSystem.start linkUp = some (s, outs) ∧
      (∃ r u, s.routing? 0 = some r ∧ r.ackManager.find? 1 = some u ∧
        u.tpmSeq = 3 ∧ (s.center.retrieveMessagePtr u.tpmSeq).isSome) := by
  have hok : Runs.Meets step Careful LsSystem.start linkUp := by decide +kernel
  obtain ⟨⟨s, outs⟩, hrun⟩ := Option.isSome_iff_exists.mp
    (show (Runs.run step LsSystem.start linkUp).isSome by decide +kernel)
  have hkeeps := store_keeps_needed hok hrun
  have hstate : (Runs.run step LsSystem.start linkUp).map (fun t => (t.1.routing? 0).bind
      (fun r => (r.ackManager.find? 1).map LsUnackPeer.tpmSeq)) = some (some 3) := by decide +kernel
  rw [hrun, Option.map_some, Option.some_inj] at hstate
  obtain ⟨r, hr, hu⟩ := Option.bind_eq_some_iff.mp hstate
  obtain ⟨u, hu, htpm⟩ := Option.map_eq_some_iff.mp hu
  exact ⟨s, outs, hrun, r, u, hr, hu, htpm,
    ((hkeeps.1 0 r hr).2 1 u hu).1 (by rw [htpm]; decide)⟩

/-- Eight updates of the node 0 later the map is no longer in the store, but is still to be sent
again. -/
theorem pending_record_dangles :
    (Runs.run step LsSystem.start (linkUp ++ List.replicate 8 (.sendUpdates 0))).map
      (fun t => ((t.1.routing? 0).bind
        (fun r => (r.ackManager.find? 1).map (fun u => (u.pending, u.tpmSeq))),
        t.1.center.retrieveMessagePtr 3)) = some (some (true, 3), none) := by
  decide +kernel

end NetSim.LinkState
