import Mathlib.Algebra.Order.Field.Rat
import Mathlib.Data.List.Basic
import Mathlib.Logic.Function.Basic

/-! # IMEP: objects that are sent

An `imepAgent` (`imep/imep.cc`) keeps an object packet that it broadcast in a queue
(`imep/rxmit_queue.cc`), with the neighbours that have to acknowledge it, and sends it again until they
all did or their links are taken down. The neighbours are an array in the packet: here `resp` is the
memory from the response list on, of which the first `numResponses` words are the list.
-/

namespace NetSim.Imep

/-- `status_`, the two flags `LINK_IN` and `LINK_OUT`. -/
structure LinkStatus where
  linkIn : Bool
  linkOut : Bool
deriving DecidableEq

def linkDown : LinkStatus := ⟨false, false⟩

def linkBi : LinkStatus := ⟨true, true⟩

structure ImepLink where
  index : ℕ
  status : LinkStatus
  inExpire : ℚ
  outExpire : ℚ
deriving DecidableEq

/-- `rexent`, with the number of the object packet and its response list. -/
structure Rexent where
  rexmitAt : ℚ
  rexmitsLeft : ℕ
  number : ℕ
  numResponses : ℕ
  resp : ℕ → ℕ

def retransPeriod : ℚ := 1 / 2

def maxRexmits : ℕ := 2

def maxBeaconTime : ℚ := 3

/-- The part of an `imepAgent` that sends objects. -/
structure Sender where
  imepLinkHead : List ImepLink
  rexmitq : List Rexent
  controlSequence : ℕ

inductive Action
  | sent (number : ℕ) (responses : List ℕ)
  | rexmit (number : ℕ)
  | acked (seqno src : ℕ)
  | down (index : ℕ)
  | timeout (number : ℕ) (indices : List ℕ)
deriving DecidableEq

/-! ## `rxmit_queue.cc` -/

def insertRexent (r : Rexent) : List Rexent → List Rexent
  | [] => [r]
  | i :: is => if r.rexmitAt < i.rexmitAt then r :: i :: is else i :: insertRexent r is

namespace Rexent

def obSequence (r : Rexent) : ℕ := r.number % 256

def responses (r : Rexent) : List ℕ := (List.range r.numResponses).map r.resp

/-- The part that `removeObjectResponse` and `purgeReXmitQ` share: the packet without `index` on its
response list, or `none` where it leaves the queue. -/
def removeResponse (r : Rexent) (index : ℕ) : Option Rexent :=
  let i := ((List.range r.numResponses).find? (fun i => r.resp i = index)).getD r.numResponses
  if r.resp i ≠ index then some r
  else if r.numResponses = 1 then none
  else some { r with
    resp := Function.update r.resp i (r.resp (r.numResponses - 1))
    numResponses := r.numResponses - 1 }

end Rexent

/-- `findObjectSequence` and, for the packet it finds, `removeObjectResponse`. -/
def removeObjectResponse (seqno index : ℕ) : List Rexent → List Rexent
  | [] => []
  | r :: rs =>
    if r.obSequence = seqno then (r.removeResponse index).toList ++ rs
    else r :: removeObjectResponse seqno index rs

/-! ## `imep_api.cc` -/

namespace Sender

def findLink (a : Sender) (index : ℕ) : Option ImepLink :=
  a.imepLinkHead.find? (·.index = index)

def updateLink (a : Sender) (index : ℕ) (f : ImepLink → ImepLink) : Sender :=
  { a with imepLinkHead := a.imepLinkHead.map (fun l => if l.index = index then f l else l) }

def imepSetLinkInStatus (a : Sender) (now : ℚ) (index : ℕ) : Sender :=
  let a :=
    if (a.findLink index).isNone then
      { a with imepLinkHead := ⟨index, linkDown, 0, 0⟩ :: a.imepLinkHead }
    else a
  a.updateLink index (fun l =>
    { l with
      outExpire := if l.status = linkDown then -1 else l.outExpire
      status := { l.status with linkIn := true }
      inExpire := now + maxBeaconTime })

def imepSetLinkOutStatus (a : Sender) (now : ℚ) (index : ℕ) : Sender :=
  a.updateLink index (fun l =>
    { l with status := { l.status with linkOut := true }, outExpire := now + maxBeaconTime })

def imepSetLinkBiStatus (a : Sender) (now : ℚ) (index : ℕ) : Sender :=
  (a.imepSetLinkInStatus now index).imepSetLinkOutStatus now index

def purgeReXmitQ (a : Sender) (index : ℕ) : Sender :=
  { a with rexmitq := a.rexmitq.filterMap (·.removeResponse index) }

def imepSetLinkDownStatus (a : Sender) (index : ℕ) : Sender × List Action :=
  if (a.findLink index).isNone then (a, [])
  else
    ((a.updateLink index (fun l =>
      { l with status := linkDown, inExpire := -1, outExpire := -1 })).purgeReXmitQ index,
      [.down index])

/-- The body of the loop of `purgeLink`. -/
def purgeLink (a : Sender) (now : ℚ) (index : ℕ) : Sender × List Action :=
  match a.findLink index with
  | none => (a, [])
  | some l =>
    let status : LinkStatus :=
      ⟨l.status.linkIn && !decide (l.inExpire < now),
        l.status.linkOut && !decide (l.outExpire < now)⟩
    let a := a.updateLink index (fun l => { l with status := status })
    let r :=
      if l.status = linkBi ∧ status ≠ linkBi then a.imepSetLinkDownStatus index else (a, [])
    ({ r.1 with imepLinkHead :=
        r.1.imepLinkHead.filter (fun l => ¬ (l.index = index ∧ l.status = linkDown)) }, r.2)

/-! ## `imep.cc` -/

/-- The part of `aggregateObjectBlock` that concerns the response list: `createResponseList`, where
`ob_num_responses` has 5 bits, and `scheduleReXmit`. The words `behind` are what the memory of the packet
holds behind the list. -/
def send (a : Sender) (now : ℚ) (behind : ℕ → ℕ) : Sender × List Action :=
  let list := (a.imepLinkHead.filter (·.status = linkBi)).map (·.index)
  let number := a.controlSequence + 1
  let r : Rexent :=
    { rexmitAt := now + retransPeriod
      rexmitsLeft := maxRexmits
      number := number
      numResponses := list.length % 32
      resp := fun i => list.getD i (behind (i - list.length)) }
  ({ a with
    controlSequence := number
    rexmitq := if r.numResponses > 0 then insertRexent r a.rexmitq else a.rexmitq },
    [.sent number list])

/-- `imep_ack_input`, for an acknowledgement that names this node. -/
def imepAckInput (a : Sender) (now : ℚ) (seqno src : ℕ) : Sender × List Action :=
  if a.rexmitq.any (·.obSequence = seqno) then
    (({ a with rexmitq := removeObjectResponse seqno src a.rexmitq }).imepSetLinkBiStatus now src,
      [.acked seqno src])
  else (a, [.acked seqno src])

/-- The loop of `handlerReXmitTimer` over the response list of the packet `number`; the neighbours whose
links it takes down. Where the packet leaves the queue, its `ob_num_responses` is 1 and stays so, and the
loop ends. -/
def punt (number : ℕ) : ℕ → ℕ → Sender → Sender × List ℕ × List Action
  | 0, _, a => (a, [], [])
  | fuel + 1, i, a =>
    match a.rexmitq.find? (·.number = number) with
    | none => (a, [], [])
    | some r =>
      if i < r.numResponses then
        let down := a.imepSetLinkDownStatus (r.resp i)
        let rest := punt number fuel (i + 1) down.1
        (rest.1, r.resp i :: rest.2.1, down.2 ++ rest.2.2)
      else (a, [], [])

def handlerReXmitTimer (a : Sender) (now : ℚ) : Sender × List Action :=
  match a.rexmitq with
  | [] => (a, [])
  | r :: rs =>
    if r.rexmitsLeft = 0 then
      let rest := punt r.number r.numResponses 0 a
      (rest.1, .timeout r.number rest.2.1 :: rest.2.2)
    else if r.rexmitAt ≤ now then
      let again := { r with rexmitAt := now + retransPeriod, rexmitsLeft := r.rexmitsLeft - 1 }
      ({ a with rexmitq := insertRexent again rs }, [.rexmit r.number])
    else (a, [])

end Sender

namespace Rexmit

inductive Event
  | send (now : ℚ) (behind : ℕ → ℕ)
  | ack (now : ℚ) (seqno src : ℕ)
  | linkIn (now : ℚ) (index : ℕ)
  | linkBi (now : ℚ) (index : ℕ)
  | linkDown (index : ℕ)
  | purgeLink (now : ℚ) (index : ℕ)
  | rexmitTimer (now : ℚ)

def step (a : Sender) : Event → Option (Sender × List Action)
  | .send now behind => some (a.send now behind)
  | .ack now seqno src => some (a.imepAckInput now seqno src)
  | .linkIn now index => some (a.imepSetLinkInStatus now index, [])
  | .linkBi now index => some (a.imepSetLinkBiStatus now index, [])
  | .linkDown index => some (a.imepSetLinkDownStatus index)
  | .purgeLink now index => some (a.purgeLink now index)
  | .rexmitTimer now => some (a.handlerReXmitTimer now)

end Rexmit

end NetSim.Imep
