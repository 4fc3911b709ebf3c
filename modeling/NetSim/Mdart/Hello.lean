import NetSim.Lib.Decimal
import NetSim.Lib.OrderedMap
import NetSim.Lib.StringScan

/-! # Hello messages of M-DART

`RoutingTable::getUpdate` (`mdart/mdart_table.cc`), `NeighborTable::update` (`mdart/mdart_neighbor.cc`) and the
hello messages of `NDP` (`mdart/mdart_ndp.cc`). A message is a text: for each level, from the highest down, the
network id, the hop number, the ETX metric and the route log of a selected entry, then `-` and the qualities of
the neighbours. A `double` is kept as the text that a stream prints for it, and stands for the number that the
text says. The neighbours are kept by their ids, the entries of a level in the order of their set; times and the
received hellos of a neighbour are left out. A substring outside of its string and a write outside of an array
have the result `none`.
-/

namespace NetSim.Mdart

open List StringScan Decimal

def addrSize : ℕ := 16

def infinito : ℕ := 0xFFFF

/-- A printed `double`. -/
structure Printed where
  text : List Char
  text_ne_nil : text ≠ []
  plain : ∀ c ∈ text, c.isDigit = true ∨ c = '.' ∨ c = 'e' ∨ c = '+' ∨ c = '-'

def Printed.value (x : Printed) : ℚ := atof x.text

structure EtxMetric extends Printed where
  unsigned : '-' ∉ text

def rtrEtxMax : EtxMetric where
  text := ['5', '1', '2']
  text_ne_nil := by simp
  plain := by simp [Char.isDigit]
  unsigned := by simp

structure RoutingEntry where
  networkId : ℤ
  hopNumber : ℕ
  etxMetric : EtxMetric
  routeLog : BitVec 16

abbrev RoutingTable := Fin addrSize → List RoutingEntry

/-- A level of a `NeighborTable`. -/
structure LevelEntry where
  networkId : ℤ
  hopNumber : ℕ
  etxMetric : ℚ
  routeLog : BitVec 16
deriving DecidableEq

abbrev NeighborTable := Fin addrSize → LevelEntry

structure Neighbor where
  address : ℤ
  forLinkQuality : ℚ
  table : NeighborTable

/-- `NDP`, with the id and the metric of its node. -/
structure Ndp where
  id : ℤ
  etxMetric : Bool
  neighbors : OrderedMap ℤ Neighbor

/-! ## Hello messages are sent -/

/-- What a level without an entry advertises. -/
def noEntry : RoutingEntry := ⟨infinito, infinito, rtrEtxMax, 0⟩

/-- The comparison of `RoutingTable::getUpdate`. -/
def better (etxMetric : Bool) (e best : RoutingEntry) : Bool :=
  e.networkId < best.networkId ||
    (e.networkId = best.networkId &&
      ((etxMetric = true && e.etxMetric.value < best.etxMetric.value) ||
        (etxMetric = false && e.hopNumber < best.hopNumber)))

/-- The loop of `RoutingTable::getUpdate` over the entries of a level. -/
def selectEntry (etxMetric : Bool) (es : List RoutingEntry) : RoutingEntry :=
  es.foldl (fun best e => if better etxMetric e best then e else best) noEntry

/-- What `RoutingTable::getUpdate` writes for a level, without the semicolon. -/
def entryText (e : RoutingEntry) : List Char :=
  showInt e.networkId ++ ',' :: (showInt e.hopNumber ++ ',' :: (e.etxMetric.text ++ ',' :: showInt e.routeLog.toNat))

/-- The loop of `RoutingTable::getUpdate` over the levels below `i`, from the highest down. -/
def levelsText (etxMetric : Bool) (table : RoutingTable) : (i : ℕ) → i ≤ addrSize → List Char
  | 0, _ => []
  | i + 1, h =>
    entryText (selectEntry etxMetric (table ⟨i, h⟩)) ++ ';' :: levelsText etxMetric table i (Nat.le_of_succ_le h)

def getUpdate (etxMetric : Bool) (table : RoutingTable) : List Char := levelsText etxMetric table addrSize le_rfl

/-- What `NDP::getNeighborQuality` writes for a neighbour, without the semicolon. -/
def qualityText (x : ℤ × Printed) : List Char := showInt x.1 ++ ',' :: x.2.text

/-- `NDP::getNeighborQuality`, for the neighbours with their qualities. -/
def getNeighborQuality (neighbors : List (ℤ × Printed)) : List Char :=
  neighbors.flatMap (fun x => qualityText x ++ [';'])

def helloText (update quality : List Char) : List Char := update ++ '-' :: quality

def sendHello (etxMetric : Bool) (table : RoutingTable) (neighbors : List (ℤ × Printed)) : List Char :=
  helloText (getUpdate etxMetric table) (if etxMetric then getNeighborQuality neighbors else [])

/-! ## Hello messages are received -/

def readEntry (entry : List Char) : Option LevelEntry :=
  let networkIdPos := tokenEnd entry ',' (some 0)
  let hopPos := tokenEnd entry ',' networkIdPos
  let qualityPos := tokenEnd entry ',' hopPos
  (token entry ',' (some 0)).bind (fun networkId =>
    (token entry ',' networkIdPos).bind (fun hopNumber =>
      (token entry ',' hopPos).bind (fun etxMetric =>
        (token entry ',' qualityPos).map (fun routeLog =>
          ⟨atoi networkId, (atoi hopNumber % 2 ^ 32).toNat, atof etxMetric, BitVec.ofInt 16 (atoi routeLog)⟩))))

/-- The body of the loop of `NeighborTable::update`, which counts the levels down. -/
def updateLevel (s : ℕ × NeighborTable) (entry : List Char) : Option (ℕ × NeighborTable) :=
  (readEntry entry).bind (fun level =>
    match s.1 with
    | 0 => none
    | i + 1 => if h : i < addrSize then some (i, Function.update s.2 ⟨i, h⟩ level) else none)

def NeighborTable.update (table : NeighborTable) (str : List Char) : Option NeighborTable :=
  (scanTokens str ';' updateLevel str.length (some 0) (addrSize, table)).map (·.2)

/-- The body of the loop of `NDP::recvHello` over the qualities. -/
def readQuality (id : ℤ) (forQuality : ℚ) (neighbor : List Char) : Option ℚ :=
  (token neighbor ',' (some 0)).bind (fun text =>
    if atoi text = id then (token neighbor ',' (tokenEnd neighbor ',' (some 0))).map atof else some forQuality)

/-- A new `Neighbor`, whose network ids are not initialized. -/
def newNeighbor (address : ℤ) (fresh : Fin addrSize → ℤ) : Neighbor :=
  ⟨address, 0, fun i => ⟨fresh i, infinito, rtrEtxMax.value, 0⟩⟩

def neighborInsert (neighbors : OrderedMap ℤ Neighbor) (id address : ℤ) (table : List Char) (quality : ℚ)
    (fresh : Fin addrSize → ℤ) : Option (OrderedMap ℤ Neighbor) :=
  let neighbor :=
    match neighbors.find? id with
    | none => newNeighbor address fresh
    | some neighbor => { neighbor with address := address }
  (neighbor.table.update table).map (fun table =>
    neighbors.set id { neighbor with forLinkQuality := quality, table := table })

/-- `NDP::recvHello`, for a message from the node `srcId` with the address `srcAdd`. The data are a C string. -/
def recvHello (ndp : Ndp) (srcId srcAdd : ℤ) (data : List Char) (fresh : Fin addrSize → ℤ) : Option Ndp :=
  let string := data.takeWhile (fun c => c ≠ Char.ofNat 0)
  let start := findFirstNotOf string '-' (some 0)
  let stop := findFirstOf string '-' start
  (substr string start stop).bind (fun table =>
    let forQuality : Option ℚ :=
      if ndp.etxMetric then
        (substr string (next stop) (sub (some string.length) (next stop))).bind (fun quality =>
          scanTokens quality ';' (readQuality ndp.id) quality.length (some 0) 0)
      else some 0
    forQuality.bind (fun forQuality =>
      (neighborInsert ndp.neighbors srcId srcAdd table forQuality fresh).map (fun neighbors =>
        { ndp with neighbors := neighbors })))

end NetSim.Mdart
