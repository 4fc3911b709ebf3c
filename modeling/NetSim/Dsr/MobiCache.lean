import NetSim.Dsr.RouteRequest

/-! # DSR: the route cache

A `MobiCache` (`dsr/mobicache.cc`) keeps the paths that the node uses or wants to keep in a primary cache,
and the paths that it only saw in use in a secondary one. An empty path is a free slot. The times, the
kinds and the owners of the ids are not modelled: only traces read them.
-/

namespace NetSim.Dsr

/-- `Path`, with the invariants of its representation. -/
structure Path where
  ids : List ID
  index : ℤ
  short : ids.length ≤ maxSRLen
  bounds : -1 ≤ index ∧ index ≤ ids.length

structure Cache where
  cache : List (List ID)
  victimPtr : ℕ

namespace Cache

def init (size : ℕ) : Cache where
  cache := List.replicate size []
  victimPtr := 0

/-- The number of ids at the front in which two paths agree. -/
def commonPrefix : List ID → List ID → ℕ
  | a :: p, b :: path => if a = b then commonPrefix p path + 1 else 0
  | _, _ => 0

/-- The loop of `Cache::addRoute`, with `common_prefix_len`: the first path that is a prefix of the new one
is extended, unless a path before it contains the new one. -/
def extend (path : List ID) : List (List ID) → Option (List (List ID) × ℕ)
  | [] => none
  | p :: rest =>
    let n := commonPrefix p path
    if n = p.length then some ((p ++ path.drop n) :: rest, n)
    else if n = path.length then some (p :: rest, n)
    else (extend path rest).map (fun r => (p :: r.1, r.2))

def pickVictim (c : Cache) : ℕ × Cache :=
  match c.cache.findIdx? (·.isEmpty) with
  | some i => (i, c)
  | none =>
    (c.victimPtr,
      { c with victimPtr := if c.victimPtr + 1 = c.cache.length then 0 else c.victimPtr + 1 })

def addRoute (c : Cache) (path : List ID) : Cache × ℕ :=
  match extend path c.cache with
  | some (cache, n) => ({ c with cache := cache }, n)
  | none =>
    let (victim, c) := c.pickVictim
    ({ c with cache := c.cache.set victim path }, 0)

/-- The first place of the link from `src` to `dst`. -/
def findLink (src dst : ID) : List ID → Option ℕ
  | a :: b :: p => if a = src ∧ b = dst then some 0 else (findLink src dst (b :: p)).map (· + 1)
  | _ => none

/-- What `Cache::noticeDeadLink` leaves of a path. -/
def truncate (src dst : ID) (p : List ID) : List ID :=
  match findLink src dst p with
  | none => p
  | some 0 => []
  | some (n + 1) => p.take (n + 1 + 1)

def noticeDeadLink (c : Cache) (src dst : ID) : Cache :=
  { c with cache := c.cache.map (truncate src dst) }

/-- The loop of `Cache::searchRoute`, for the paths from the slot `index` on. -/
def searchFrom (dest : ID) : List (List ID) → ℕ → Option (ℕ × List ID × ℕ)
  | [], _ => none
  | p :: rest, index =>
    match p.idxOf? dest with
    | some i => some (i, p, index)
    | none => searchFrom dest rest (index + 1)

/-- `Cache::searchRoute`: the place of `dest` in a path, the path and its slot. -/
def searchRoute (c : Cache) (dest : ID) (index : ℕ) : Option (ℕ × List ID × ℕ) :=
  searchFrom dest (c.cache.drop index) index

end Cache

inductive MinCache
  | none | secondary | primary
deriving DecidableEq

/-- The variables of `MobiCache::findRoute`. -/
structure Found where
  minIndex : Option ℕ
  minLength : ℕ
  minCache : MinCache
  route : List ID

/-- `MobiCache`, with the two global switches. -/
structure MobiCache where
  netId : ID
  MACId : ID
  cacheIgnoreHints : Bool
  cacheUseOverheardRoutes : Bool
  primaryCache : Cache
  secondaryCache : Cache

namespace MobiCache

def init (netId MACId : ID) (cacheIgnoreHints cacheUseOverheardRoutes : Bool) : MobiCache where
  netId := netId
  MACId := MACId
  cacheIgnoreHints := cacheIgnoreHints
  cacheUseOverheardRoutes := cacheUseOverheardRoutes
  primaryCache := Cache.init 30
  secondaryCache := Cache.init 64

def isOwn (m : MobiCache) (id : ID) : Bool := id = m.netId ∨ id = m.MACId

/-- `RouteCache::pre_addRoute`, `none` where it stops the processing. -/
def preAddRoute (m : MobiCache) (route : Path) : Option (List ID) :=
  if route.ids.length < 2 then none
  else if ¬ route.ids.head?.any m.isOwn then none
  else some route.ids

/-- `MobiCache::addRoute`. The outer `none` is an assertion that fails. -/
def addRoute (m : MobiCache) (route : Path) : Option MobiCache :=
  if m.netId = invalidAddr then none
  else
    match m.preAddRoute route with
    | none => some m
    | some rt => some { m with primaryCache := (m.primaryCache.addRoute rt).1 }

/-- The loop that appends ids to `stub` while it is not full. -/
def fill (stub : List ID) : List ID → List ID
  | [] => stub
  | id :: p => if full stub then stub else fill (stub ++ [id]) p

/-- `RouteCache::pre_noticeRouteUsed`, where `some none` stops the processing and `none` is an assertion
that fails. -/
def preNoticeRouteUsed (m : MobiCache) (p : Path) : Option (Option (List ID)) :=
  let c := p.ids.findIdx m.isOwn
  if p.ids.length < 2 then some none
  else if m.cacheIgnoreHints then some none
  else if c = p.ids.length - 1 then some none
  else if c = p.ids.length then
    if m.cacheUseOverheardRoutes then
      if p.index = 0 then some none
      else if p.index - 1 < 0 then none
      else some (some (fill [m.netId] (p.ids.drop (p.index - 1).toNat)))
    else some none
  else some (some (p.ids.drop c))

def noticeRouteUsed (m : MobiCache) (p : Path) : Option MobiCache :=
  (m.preNoticeRouteUsed p).map (fun stub =>
    match stub with
    | none => m
    | some stub => { m with secondaryCache := (m.secondaryCache.addRoute stub).1 })

def noticeDeadLink (m : MobiCache) (src dst : ID) : MobiCache :=
  { m with
    primaryCache := m.primaryCache.noticeDeadLink src dst
    secondaryCache := m.secondaryCache.noticeDeadLink src dst }

/-- A path of the primary cache has `dest` at the place `len`. -/
def hitPrimary (f : Found) (len : ℕ) (path : List ID) (_ : ℕ) : Found :=
  let f := { f with minCache := .primary }
  if len < f.minLength then { f with minLength := len, route := path } else f

/-- A path of the secondary cache has `dest` at the place `len`. -/
def hitSecondary (f : Found) (len : ℕ) (path : List ID) (index : ℕ) : Found :=
  if len < f.minLength then
    { f with minIndex := some index, minCache := .secondary, minLength := len, route := path }
  else f

/-- The loops of `findRoute` over a cache. -/
def searchAll (hit : Found → ℕ → List ID → ℕ → Found) (c : Cache) (dest : ID) :
    ℕ → ℕ → Found → Found
  | 0, _, f => f
  | fuel + 1, index, f =>
    match c.searchRoute dest index with
    | none => f
    | some (len, path, index) => searchAll hit c dest fuel (index + 1) (hit f len path index)

def search (m : MobiCache) (dest : ID) : Found :=
  searchAll hitSecondary m.secondaryCache dest (m.secondaryCache.cache.length + 1) 0
    (searchAll hitPrimary m.primaryCache dest (m.primaryCache.cache.length + 1) 0
      ⟨none, maxSRLen + 1, .none, []⟩)

def promote (m : MobiCache) (i : ℕ) : MobiCache :=
  { m with
    primaryCache := (m.primaryCache.addRoute (m.secondaryCache.cache.getD i [])).1
    secondaryCache := { m.secondaryCache with cache := m.secondaryCache.cache.set i [] } }

def findRoute (m : MobiCache) (dest : ID) (forMe : Bool) : Option (MobiCache × Option (List ID)) :=
  if m.netId = invalidAddr then none
  else
    let f := m.search dest
    let m :=
      match f.minCache, f.minIndex with
      | .secondary, some i => if forMe then m.promote i else m
      | _, _ => m
    some (m, if f.minCache = .none then none else some (f.route.take (f.minLength + 1)))

end MobiCache

inductive Call
  | addRoute (route : Path)
  | noticeRouteUsed (p : Path)
  | noticeDeadLink (src dst : ID)
  | findRoute (dest : ID) (forMe : Bool)

def MobiCache.step (m : MobiCache) : Call → Option (MobiCache × Option (List ID))
  | .addRoute route => (m.addRoute route).map (·, none)
  | .noticeRouteUsed p => (m.noticeRouteUsed p).map (·, none)
  | .noticeDeadLink src dst => some (m.noticeDeadLink src dst, none)
  | .findRoute dest forMe => m.findRoute dest forMe

end NetSim.Dsr
