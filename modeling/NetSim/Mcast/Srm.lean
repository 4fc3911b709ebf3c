import Mathlib.Algebra.Order.Field.Rat
import Mathlib.Data.Nat.Log
import NetSim.Lib.Doubling

/-! # Scalable reliable multicast

`SRMAgent` (`mcast/srm.cc`, `mcast/srm.h`) and the state `SRMinfo` that it keeps of every source
(`mcast/srm-state.h`), in a network that may lose, repeat and reorder messages. A failed assertion, a read
of memory that was not written, a write behind the end of a buffer, and the size of a buffer that is no
`int` have the result `none`. The text that `request` builds is the list of its numbers here, with the
number of characters that they take.
-/

namespace NetSim.Srm

open Doubling

/-! ## Sources -/

/-- `class SRMinfo`; a bit of `received_` that was not written is `none`, and `recvmax_` is -1 as long as
there is no bit vector. -/
structure SrmInfo where
  sender : ℤ
  lsess : ℤ
  sendTime : ℤ
  recvTime : ℤ
  distance : ℚ
  ldata : ℤ
  recvmax : ℤ
  received : ℕ → Option Bool

namespace SrmInfo

def init (sender : ℤ) : SrmInfo where
  sender := sender
  lsess := -1
  sendTime := 0
  recvTime := 0
  distance := 1
  ldata := -1
  recvmax := -1
  received := fun _ => none

def bitvecSizeDefault : ℕ := 256

variable (sp : SrmInfo)

/-- The first allocation of `resize`. -/
def allocate : SrmInfo :=
  if sp.recvmax < 0 then
    { sp with
      recvmax := bitvecSizeDefault
      received := fun i => if i / 8 < bitvecSizeDefault then some false else none }
  else sp

/-- The new bit vector: the old bytes, as many behind them set to 0, and what `new` left in the others. -/
def grown (osize : ℕ) : ℕ → Option Bool := fun i =>
  if i / 8 < osize then sp.received i
  else if i / 8 < osize + osize then some false
  else none

def resize (id : ℕ) : Option SrmInfo :=
  let sp := sp.allocate
  if sp.recvmax ≤ id then
    (double id rounds sp.recvmax).map (fun nsize =>
      { sp with recvmax := nsize, received := sp.grown sp.recvmax.toNat })
  else some sp

def ifReceived (id : ℤ) : Option (SrmInfo × Bool) :=
  if id < 0 then none
  else
    (if sp.recvmax ≤ id then sp.resize id.toNat else some sp).bind (fun sp =>
      (sp.received id.toNat).map (fun bit => (sp, bit)))

def setReceived (id : ℤ) : Option SrmInfo :=
  (sp.ifReceived id).map (fun r =>
    { r.1 with received := Function.update r.1.received id.toNat (some true) })

/-- The loop of `request`, for the `n` numbers from `i` on: those that were not received. -/
def missing : ℕ → ℤ → SrmInfo → Option (SrmInfo × List ℤ)
  | 0, _, sp => some (sp, [])
  | n + 1, i, sp =>
    (sp.ifReceived i).bind (fun r =>
      (missing n (i + 1) r.1).map (fun t => (t.1, if r.2 then t.2 else i :: t.2)))

def digits (i : ℤ) : ℕ := Nat.log 10 i.toNat + 1

def chars (msgids : List ℤ) : ℕ := (msgids.map (fun i => 1 + digits i)).sum

/-- `maxsize` of `request`: a blank and as many digits as `hi + 1` has, for each number. -/
def maxsize (hi : ℤ) : ℕ := (Nat.log 10 (hi + 1).toNat + 2) * (hi - sp.ldata).toNat

/-- `SRMAgent::request`: the numbers that are passed to the upcall. -/
def request (hi : ℤ) : Option (SrmInfo × List ℤ) :=
  if hi ≤ sp.ldata then some (sp, [])
  else if 2 ^ 31 ≤ sp.maxsize hi then none
  else
    (sp.missing (hi - sp.ldata).toNat (sp.ldata + 1)).bind (fun r =>
      if r.2 = [] ∨ sp.maxsize hi < chars r.2 then none else some r)

/-- `ldata_` goes up to a number that was sent. -/
def upTo (dataCnt : ℤ) : SrmInfo := if sp.ldata < dataCnt then { sp with ldata := dataCnt } else sp

end SrmInfo

/-! ## Agents -/

structure SessBlock where
  sender : ℤ
  dataCnt : ℤ
  rtime : ℤ
  stime : ℤ
  deriving DecidableEq

inductive SrmMessage where
  | data (sender msgid : ℤ)
  | rqst (requestor round sender msgid : ℤ)
  | repr (round sender msgid : ℤ)
  | sess (sessCtr cnt : ℤ) (blocks : List SessBlock)
  deriving DecidableEq

inductive Upcall where
  | request (sender : ℤ) (msgids : List ℤ)
  | data (sender msgid : ℤ)
  | rqst (requestor round sender msgid : ℤ)
  | repr (round sender msgid : ℤ)
  deriving DecidableEq

/-- `class SRMAgent`; the list `sip_` begins with the agent itself. -/
structure SrmAgent where
  addr : ℤ
  dataCtr : ℤ
  sessCtr : ℤ
  groupSize : ℤ
  sip : List SrmInfo

namespace SrmAgent

def start (addr : ℤ) : SrmAgent where
  addr := addr
  dataCtr := -1
  sessCtr := -1
  groupSize := 1
  sip := [{ SrmInfo.init addr with distance := 0 }]

variable (a : SrmAgent)

/-- The state of a source; it is made when it is asked for (`getState`). -/
def info (sender : ℤ) : SrmInfo :=
  (a.sip.find? (fun sp => sp.sender = sender)).getD (SrmInfo.init sender)

/-- `SRMAgent::get_state`: a new source stands behind the agent itself. -/
def getState (sender : ℤ) : SrmAgent :=
  if a.sip.any (fun sp => sp.sender = sender) then a
  else
    { a with
      groupSize := a.groupSize + 1
      sip := a.sip.take 1 ++ SrmInfo.init sender :: a.sip.drop 1 }

def setInfo (sp : SrmInfo) : SrmAgent :=
  { a with sip := a.sip.map (fun x => if x.sender = sp.sender then sp else x) }

/-- The upcall of `request`, if there is one. -/
def upcall (sender : ℤ) (msgids : List ℤ) : List Upcall :=
  if msgids = [] then [] else [.request sender msgids]

def newData (sender msgid : ℤ) : Option (SrmAgent × List Upcall) :=
  (((a.info sender).request (msgid - 1)).bind (fun r =>
    (r.1.setReceived msgid).map (fun sp =>
      (a.setInfo { sp with ldata := msgid }, upcall sender r.2))))

def recvData (sender msgid : ℤ) : Option (SrmAgent × List Upcall) :=
  let a := a.getState sender
  if (a.info sender).ldata < msgid then a.newData sender msgid
  else some (a, [.data sender msgid])

def recvRqst (requestor round sender msgid : ℤ) : Option (SrmAgent × List Upcall) :=
  let a := a.getState sender
  if (a.info sender).ldata < msgid then
    ((a.info sender).request msgid).map (fun r =>
      (a.setInfo { r.1 with ldata := msgid }, upcall sender r.2))
  else some (a, [.rqst requestor round sender msgid])

def recvRepr (round sender msgid : ℤ) : Option (SrmAgent × List Upcall) :=
  let a := a.getState sender
  if (a.info sender).ldata < msgid then a.newData sender msgid
  else some (a, [.repr round sender msgid])

/-- A tuple of a session message: everything up to `dataCnt` was sent. -/
def learn (sender dataCnt : ℤ) (sp : SrmInfo) : Option (SrmAgent × List Upcall) :=
  (sp.request dataCnt).map (fun r => (a.setInfo (r.1.upTo dataCnt), upcall sender r.2))

/-- The loop of `recv_sess`, for the `n` tuples behind the first one. -/
def recvTuples (now sentBy sentAt : ℤ) :
    ℕ → List SessBlock → SrmAgent → Option (SrmAgent × List Upcall)
  | 0, _, a => some (a, [])
  | _ + 1, [], _ => none
  | n + 1, b :: bs, a =>
    if b.sender = a.addr ∧ now ≠ 0 then
      let rtt := (now - sentAt) + (b.rtime - b.stime)
      let a := a.getState sentBy
      recvTuples now sentBy sentAt n bs (a.setInfo { a.info sentBy with distance := (rtt : ℚ) / 2 / 1000 })
    else
      let a := a.getState b.sender
      (a.learn b.sender b.dataCnt (a.info b.sender)).bind (fun r =>
        (recvTuples now sentBy sentAt n bs r.1).map (fun t => (t.1, r.2 ++ t.2)))

/-- `SRMAgent::recv_sess`; `now` is in milliseconds. -/
def recvSess (now sessCtr cnt : ℤ) : List SessBlock → Option (SrmAgent × List Upcall)
  | [] => none
  | b :: bs =>
    if b.sender = a.addr then some (a, [])
    else
      let a := a.getState b.sender
      let sp := a.info b.sender
      if sessCtr < sp.lsess then some (a, [])
      else
        let sp := { sp with lsess := sessCtr, recvTime := now, sendTime := b.stime }
        (a.learn b.sender b.dataCnt sp).bind (fun r =>
          (recvTuples now b.sender b.stime (cnt - 1).toNat bs r.1).map (fun t => (t.1, r.2 ++ t.2)))

def recv (now : ℤ) : SrmMessage → Option (SrmAgent × List Upcall)
  | .data sender msgid => a.recvData sender msgid
  | .rqst requestor round sender msgid => a.recvRqst requestor round sender msgid
  | .repr round sender msgid => a.recvRepr round sender msgid
  | .sess sessCtr cnt blocks => a.recvSess now sessCtr cnt blocks

/-- `SRMAgent::sendmsg`, and `SRMAgent::recv` for a packet of the application. -/
def sendmsg : SrmAgent × SrmMessage :=
  ({ a with dataCtr := a.dataCtr + 1 }, .data a.addr (a.dataCtr + 1))

/-- The tuples that `send_sess` writes; the first one has the time of sending. -/
def tuples (now : ℤ) : List SessBlock :=
  match a.sip.map (fun sp => (⟨sp.sender, sp.ldata, sp.recvTime, sp.sendTime⟩ : SessBlock)) with
  | [] => []
  | b :: bs => { b with stime := now } :: bs

/-- `SRMAgent::send_sess`; the message has room for `groupSize_` tuples. -/
def sendSess (now : ℤ) : Option (SrmAgent × SrmMessage) :=
  if (a.sip.length : ℤ) ≤ a.groupSize then
    some ({ a with sessCtr := a.sessCtr + 1 }, .sess (a.sessCtr + 1) a.groupSize (a.tuples now))
  else none

end SrmAgent

/-! ## The network -/

structure Network where
  agents : ℤ → SrmAgent
  sent : List SrmMessage

/-- What happens in the network. A message that was sent may arrive at any time, at any agent and more than
once, or never; `send_ctrl` is called by the requests and repairs of the agents. -/
inductive SrmEvent where
  | sendmsg (addr : ℤ)
  | sendSess (addr now : ℤ)
  | sendRqst (addr round sender msgid : ℤ)
  | sendRepr (addr round sender msgid : ℤ)
  | deliver (addr now : ℤ) (m : SrmMessage)
  deriving DecidableEq

namespace Network

def init : Network where
  agents := SrmAgent.start
  sent := []

variable (s : Network)

def setAgent (addr : ℤ) (a : SrmAgent) : Network :=
  { s with agents := Function.update s.agents addr a }

def send (m : SrmMessage) : Network := { s with sent := m :: s.sent }

def step (e : SrmEvent) : Option (Network × (ℤ × List Upcall)) :=
  match e with
  | .sendmsg addr =>
    let r := (s.agents addr).sendmsg
    some ((s.setAgent addr r.1).send r.2, addr, [])
  | .sendSess addr now =>
    ((s.agents addr).sendSess now).map (fun r => ((s.setAgent addr r.1).send r.2, addr, []))
  | .sendRqst addr round sender msgid => some (s.send (.rqst addr round sender msgid), addr, [])
  | .sendRepr addr round sender msgid => some (s.send (.repr round sender msgid), addr, [])
  | .deliver addr now m =>
    if m ∈ s.sent then
      ((s.agents addr).recv now m).map (fun r => (s.setAgent addr r.1, addr, r.2))
    else none

end Network

end NetSim.Srm
