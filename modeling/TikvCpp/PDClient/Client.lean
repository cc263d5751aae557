import TikvCpp.PDClient.Answers
import TikvCpp.Transition.Program
import TikvCpp.Transition.Run
import TikvCpp.Utils

/-! The client of PD, `pd_client.cc`: its member pool, the leader it knows and the stub it
sends queries on. A call is a program over these that asks PD and a random generator;
it records the stubs it makes, drops and sends on. The lock, the buffered channel and
the maps of channels and stubs are left out, since nothing reads them, and so are the
texts logged and the pause between two tries. So are the assertions: `btree.h`, which is
included first, defines `NDEBUG`, and none of them is compiled. -/

namespace TikvCpp

open Data Transition Transition.Program

/-- `pdpb::PD::Stub`: the address it was made for, and the one its channel dials. -/
structure Stub where
  addr : Str
  target : Str
  deriving DecidableEq

/-- `PD::NewStub` on a channel to `strip_url(addr)`. -/
def newStub (addr : Str) : Stub := { addr := addr, target := stripUrl addr }

structure PDClient where
  members : OrdMap UInt64 PDServerInfo := ∅
  leader : PDServerInfo := {}
  leaderStub : Option Stub := none
  clusterId : UInt64

namespace PDClient

/-- The messages of the four queries, with the cluster id in their headers. -/
inductive Request
  | getRegion (clusterId : UInt64) (regionKey : Str)
  | getRegionById (clusterId regionId : UInt64)
  | getStore (clusterId storeId : UInt64)
  | getAllStores (clusterId : UInt64)
  deriving DecidableEq

/-- What a call does outside its own variables. -/
inductive Event
  /-- `select_randomly` on a range of this many elements -/
  | select (distance : ℕ)
  /-- `leader_stub_.reset()` -/
  | discard
  /-- a `GetMembers` and its outcome -/
  | getMembers (stub : Stub) (outcome : Except Error Pdpb.GetMembersResponse)
  /-- a new `leader_stub_` -/
  | connect (stub : Stub)
  /-- a query is sent -/
  | send (stub : Stub) (req : Request)
  /-- the status of that query -/
  | status (ok : Bool)

/-- An event that belongs to a query rather than to the search for the leader. -/
def Event.isQuery : Event → Bool
  | .send _ _ => true
  | .status _ => true
  | _ => false

/-- What the random generator yields and how the RPCs of each kind end, in order. -/
structure Environment where
  picks : List ℕ := []
  members : List (Except Error Pdpb.GetMembersResponse) := []
  regions : List (Except Error Pdpb.GetRegionResponse) := []
  stores : List (Except Error Pdpb.GetStoreResponse) := []
  allStores : List (Except Error Pdpb.GetAllStoresResponse) := []

namespace Environment

/-- The first of some answers, and the environment that has the others left. -/
def pop {α : Type} (answers : List α) (left : List α → Environment) : Option (α × Environment) :=
  match answers with
  | [] => none
  | a :: rest => some (a, left rest)

variable (env : Environment)

def nextPick : Option (ℕ × Environment) := pop env.picks fun rest => { env with picks := rest }

def nextMembers : Option (Except Error Pdpb.GetMembersResponse × Environment) :=
  pop env.members fun rest => { env with members := rest }

def nextRegion : Option (Except Error Pdpb.GetRegionResponse × Environment) :=
  pop env.regions fun rest => { env with regions := rest }

def nextStore : Option (Except Error Pdpb.GetStoreResponse × Environment) :=
  pop env.stores fun rest => { env with stores := rest }

def nextAllStores : Option (Except Error Pdpb.GetAllStoresResponse × Environment) :=
  pop env.allStores fun rest => { env with allStores := rest }

theorem pop_eq_some {α : Type} {answers : List α} {left : List α → Environment} {a : α} {env' : Environment}
    (h : pop answers left = some (a, env')) : ∃ rest, answers = a :: rest ∧ env' = left rest := by
  cases answers with
  | nil => contradiction
  | cons b rest =>
    obtain ⟨rfl, rfl⟩ := Prod.mk.inj (Option.some.inj h)
    exact ⟨rest, rfl, rfl⟩

theorem pop_eq_none {α : Type} {answers : List α} {left : List α → Environment} (h : pop answers left = none) :
    answers = [] := by
  cases answers with
  | nil => rfl
  | cons b rest => contradiction

end Environment

abbrev ClientSession := Session PDClient Environment Event

abbrev ClientM := Program PDClient Environment Event

/-! ### The leader -/

/-- `select_randomly`: some element, and no defined result on an empty range. -/
def selectRandomly {α : Type} (range : List α) : ClientM α := do
  emit (.select range.length)
  if h : 0 < range.length then
    let n ← ask Environment.nextPick
    return range.get ⟨n % range.length, Nat.mod_lt _ h⟩
  else stop .undefined

/-- `get_pd_members_inner`. -/
def askMembers (stub : Stub) : ClientM (Except Error ((OrdMap UInt64 PDServerInfo × PDServerInfo) × UInt64)) := do
  let outcome ← ask Environment.nextMembers
  emit (.getMembers stub outcome)
  return getPdMembersInner outcome

/-- The entry the scan of `update_leader` ends at. -/
def flaggedMember (c : PDClient) : Option (UInt64 × PDServerInfo) :=
  c.members.toList.find? fun it => it.2.isLeader && (it.2.id != c.leader.id || c.leaderStub.isNone)

/-- The scan of `update_leader`, and what it does with the entry it finds. -/
def connectLeader : ClientM Bool := do
  let c ← state
  match flaggedMember c with
  | some it =>
    modifyState fun c => { c with leader := it.2 }
    let addr ← selectRandomly it.2.clientUrls
    modifyState fun c => { c with leaderStub := some (newStub addr) }
    emit (.connect (newStub addr))
    return true
  | none => return false

def updateLeader (stub : Stub) : ClientM Bool := do
  let r ← askMembers stub
  match r with
  | .ok ((members, leader), clusterId) =>
    modifyState fun c => { c with members := members, leader := leader, clusterId := clusterId }
    connectLeader
  | .error _ => return false

/-- One round of the loop in `get_leader_stub`. -/
def tryMember : ClientM Unit := do
  let c ← state
  let member ← selectRandomly c.members.toList
  let addr ← selectRandomly member.2.clientUrls
  let _ ← updateLeader (newStub addr)
  return ()

/-- `get_leader_stub`; each round of its loop asks for the members once. -/
def getLeaderStub (force : Bool) : ClientM (Option Stub) := do
  let c ← state
  if c.leaderStub.isNone || force then
    modifyState fun c => { c with leaderStub := none }
    emit .discard
    loop (fun env : Environment => env.members.length) tryMember fun c => c.leaderStub.isNone
    let c ← state
    return c.leaderStub
  else return c.leaderStub

/-! ### The calls -/

def init (pdaddr : Str) : ClientM Bool := updateLeader (newStub pdaddr)

/-- The part the four `_inner` functions share: the request, with the cluster id that the
client has, and its status. A null stub is dereferenced. -/
def query {β : Type} (stub : Option Stub) (req : UInt64 → Request)
    (take : Environment → Option (Except Error β × Environment)) : ClientM (Except Error β) := do
  let c ← state
  match stub with
  | some s =>
    emit (.send s (req c.clusterId))
    let outcome ← ask take
    emit (.status outcome.isOk)
    return outcome
  | none => stop .undefined

/-- `get_region_inner`. -/
def askRegion (key : Str) (stub : Option Stub) : ClientM (Except Error (Region × Peer)) := do
  let rpc ← query stub (fun clusterId => .getRegion clusterId key) Environment.nextRegion
  return getRegionInner rpc

/-- `get_region_by_id_inner`. -/
def askRegionById (regionId : UInt64) (stub : Option Stub) : ClientM (Except Error (Region × Peer)) := do
  let rpc ← query stub (fun clusterId => .getRegionById clusterId regionId) Environment.nextRegion
  return getRegionInner rpc

/-- `get_store_by_id_inner`. -/
def askStoreById (storeId : UInt64) (stub : Option Stub) : ClientM (Except Error Store) := do
  let rpc ← query stub (fun clusterId => .getStore clusterId storeId) Environment.nextStore
  return getStoreByIdInner rpc

/-- `get_all_stores_inner`. -/
def askAllStores (stub : Option Stub) : ClientM (Except Error (List Store)) := do
  let rpc ← query stub .getAllStores Environment.nextAllStores
  return getAllStoresInner rpc

/-- A query on a stub, and where it fails the same query on what `get_leader_stub` then gives. -/
def queryTwice {β : Type} (force : Bool) (inner : Option Stub → ClientM (Except Error β)) (stub : Option Stub) :
    ClientM (Except Error β) := do
  let r ← inner stub
  match r with
  | .ok b => return .ok b
  | .error _ =>
    let stub ← getLeaderStub force
    inner stub

/-- What the four queries share. -/
def withRetry {β : Type} (force : Bool) (inner : Option Stub → ClientM (Except Error β)) :
    ClientM (Except Error β) := do
  let stub ← getLeaderStub false
  queryTwice force inner stub

def getRegion (key : Str) : ClientM (Except Error (Region × Peer)) := withRetry true (askRegion key)

/-- `get_region_by_id`, whose second `get_leader_stub` is not a forced one. -/
def getRegionById (regionId : UInt64) : ClientM (Except Error (Region × Peer)) :=
  withRetry false (askRegionById regionId)

def getStoreById (storeId : UInt64) : ClientM (Except Error Store) := withRetry true (askStoreById storeId)

def getAllStores : ClientM (Except Error (List Store)) := withRetry true askAllStores

/-! ### Runs -/

inductive Call
  | init (pdaddr : Str)
  | getRegion (key : Str)
  | getRegionById (regionId : UInt64)
  | getStoreById (storeId : UInt64)
  | getAllStores

inductive Return
  | ready (ok : Bool)
  | region (r : Except Error (Region × Peer))
  | store (r : Except Error Store)
  | stores (r : Except Error (List Store))

def Call.exec : Call → ClientM Return
  | .init pdaddr => return .ready (← PDClient.init pdaddr)
  | .getRegion key => return .region (← PDClient.getRegion key)
  | .getRegionById regionId => return .region (← PDClient.getRegionById regionId)
  | .getStoreById storeId => return .store (← PDClient.getStoreById storeId)
  | .getAllStores => return .stores (← PDClient.getAllStores)

def Return.isErr : Return → Bool
  | .ready _ => false
  | .region r => !r.isOk
  | .store r => !r.isOk
  | .stores r => !r.isOk

/-- A client before its constructor has called `init`. Nothing sets its cluster id. -/
def fresh (clusterId : UInt64) : PDClient := { clusterId := clusterId }

/-- What a call comes to, and where: it returns or it stops. -/
def perform (c : PDClient) (call : Call) (env : Environment) :
    EStateM.Result Stop (ClientSession) Return :=
  call.exec { state := c, inputs := env }

/-- The client after a call that returns. -/
def step (c : PDClient) (a : Call × Environment) : Option PDClient :=
  match c.perform a.1 a.2 with
  | .ok _ w => some w.state
  | .error _ _ => none

/-- Where a call ends or stops. -/
def final (c : PDClient) (a : Call × Environment) : ClientSession :=
  match c.perform a.1 a.2 with
  | .ok _ w => w
  | .error _ w => w

/-- Whether a call returns an error. -/
def failed (c : PDClient) (a : Call × Environment) : Bool :=
  match c.perform a.1 a.2 with
  | .ok r _ => r.isErr
  | .error _ _ => false

/-- What a call did, finished or not. -/
def record (c : PDClient) (a : Call × Environment) : List Event := (c.final a).log

theorem final_of_meets {c : PDClient} {call : Call} {env : Environment}
    {P : Bool → ClientSession → Prop}
    (h : Meets call.exec (fun r w => P r.isErr w) (fun _ w => P false w) { state := c, inputs := env }) :
    P (c.failed (call, env)) (c.final (call, env)) := by
  unfold failed final perform
  unfold Meets at h
  cases hrun : call.exec { state := c, inputs := env } with
  | ok r w =>
    rw [hrun] at h
    exact h
  | error e w =>
    rw [hrun] at h
    exact h

theorem step_of_meets {c c' : PDClient} {a : Call × Environment} {P : ClientSession → Prop}
    (h : Meets a.1.exec (fun _ w => P w) (fun _ _ => True) { state := c, inputs := a.2 })
    (hstep : c.step a = some c') : c' = (c.final a).state ∧ P (c.final a) := by
  unfold step perform at hstep
  unfold final perform
  unfold Meets at h
  cases hrun : a.1.exec { state := c, inputs := a.2 } with
  | ok r w =>
    rw [hrun] at h hstep
    exact ⟨(Option.some.inj hstep).symm, h⟩
  | error e w =>
    rw [hrun] at hstep
    contradiction

end PDClient

end TikvCpp
