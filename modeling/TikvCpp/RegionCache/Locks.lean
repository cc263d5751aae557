import TikvCpp.RegionCache.Clients
import TikvCpp.Sync.Threads

/-! The operations of `RegionCache` statement by statement, with `region_lock_` and
`store_lock_`. Shared holds are taken and released by hand on each branch; a
`unique_lock` is released where its scope ends. All branches are balanced but one:
`get_store_addr` that does not find its store calls `reload_store_addr` without
having released `store_lock_`. `dump_cache` takes no lock and is left out. The locks
grant a shared request while an exclusive one waits, which the real ones refuse: all that
is true in every state here is true there, and `Waits` has the locks that refuse it. -/

namespace TikvCpp.RegionCache.Locks

open Data Transition PDClient Sync

inductive Lock
  | region | store
  deriving DecidableEq

/-- What an access may take from outside: readings of the clock, and answers of PD. -/
structure Input where
  t : Time
  now : Time
  region : Except Error Pdpb.GetRegionResponse
  store : Except Error Pdpb.GetStoreResponse

/-- The accesses to the maps, and the requests to PD. -/
inductive Access
  | searchCache (key : Str)
  | getRegion (key : Str)
  | insertRegionToCache (r : Region)
  | getCachedRegion (verId : RegionVerID)
  | findStore (storeId : UInt64)
  | getStoreById (storeId : UInt64)
  | writeStore (storeId : UInt64) (store : Store)
  | dropRegionFromCache (verId : RegionVerID)
  | updateRegionLeader (verId : RegionVerID) (leaderStoreId : UInt16)

abbrev LockCode (α : Type) := Code Lock RegionCache Input Access α

/-! ### The operations -/

/-- The scope of the `unique_lock` in `locate_key`. -/
def insertRegion (region : Region) : LockCode (Except Error KeyLoc × Option Bool) :=
  .lock .region <|
  .access (.insertRegionToCache region) (fun e rc => rc.insertRegionToCache region e.now) fun _ _ =>
  .unlock .region <|
  .ret (.ok region.keyLoc, some false)

/-- `locate_key` once the search has missed. -/
def loadRegion (key : Str) : LockCode (Except Error KeyLoc × Option Bool) :=
  .access (.getRegion key) (fun _ rc => rc) fun e _ =>
    match loadRegionFromPd (getRegionInner e.region) with
    | .ok region => insertRegion region
    | .error err => .ret (.error err, none)

/-- `locate_key`, and what it writes to `cache_hit`. -/
def locateKey (key : Str) : LockCode (Except Error KeyLoc × Option Bool) :=
  .lockShared .region <|
  .access (.searchCache key) (fun e rc => (rc.searchCache key e.t e.now).2) fun e rc =>
    match (rc.searchCache key e.t e.now).1 with
    | some cached =>
      .unlockShared .region <|
      .ret (.ok cached.keyLoc, some true)
    | none =>
      .unlockShared .region <|
      loadRegion key

/-- The scope of the `unique_lock` in `reload_store_addr`. -/
def writeStore (storeId : UInt64) (store : Store) : LockCode (Except Error Str) :=
  .lock .store <|
  .access (.writeStore storeId store)
    (fun _ rc => { rc with stores := rc.stores.insert storeId store }) fun _ _ =>
  .unlock .store <|
  .ret (.ok store.addr)

/-- `reload_store_addr`. -/
def reloadStoreAddr (storeId : UInt64) : LockCode (Except Error Str) :=
  .access (.getStoreById storeId) (fun _ rc => rc) fun e _ =>
    match getStoreByIdInner e.store with
    | .ok store => writeStore storeId store
    | .error err => .ret (.error err)

/-- `get_store_addr`. -/
def getStoreAddr (storeId : UInt64) : LockCode (Except Error Str) :=
  .lockShared .store <|
  .access (.findStore storeId) (fun _ rc => rc) fun _ rc =>
    match rc.stores[storeId]? with
    | some it =>
      .unlockShared .store <|
      .ret (.ok it.addr)
    -- the source has no `unlock_shared` on this path
    | none => reloadStoreAddr storeId

/-- `drop_region`. -/
def dropRegion (verId : RegionVerID) : LockCode Unit :=
  .lock .region <|
  .access (.dropRegionFromCache verId) (fun _ rc => rc.dropRegionFromCache verId) fun _ _ =>
  .unlock .region <|
  .ret ()

/-- `update_region_leader`. -/
def updateRegionLeader (verId : RegionVerID) (leaderStoreId : UInt16) : LockCode Unit :=
  .lock .region <|
  .access (.updateRegionLeader verId leaderStoreId)
    (fun e rc => rc.updateRegionLeader verId leaderStoreId e.t e.now) fun _ _ =>
  .unlock .region <|
  .ret ()

/-- `get_rpc_context` once `get_store_addr` has returned `ret`. -/
def rpcContext (verId : RegionVerID) (ri : Region) (ret : Except Error Str) :
    LockCode (Except Error RpcContext) :=
  match ret with
  | .ok addr =>
    if addr.length = 0 then (dropRegion verId).bind fun _ => .ret (.error outOfDate)
    else .ret (.ok (rpcContextOf ri addr))
  | .error err => .ret (.error err)

/-- `get_rpc_context`. -/
def getRpcContext (verId : RegionVerID) : LockCode (Except Error RpcContext) :=
  .lockShared .region <|
  .access (.getCachedRegion verId) (fun e rc => (rc.getCachedRegion verId e.t e.now).2) fun e rc =>
    match (rc.getCachedRegion verId e.t e.now).1 with
    | none =>
      .unlockShared .region <|
      .ret (.error outOfDate)
    | some ri =>
      .unlockShared .region <|
      (getStoreAddr ri.leader.storeId).bind (rpcContext verId ri)

inductive Op
  | locateKey (key : Str)
  | getRpcContext (verId : RegionVerID)
  | dropRegion (verId : RegionVerID)
  | updateRegionLeader (verId : RegionVerID) (leaderStoreId : UInt16)
  | getStoreAddr (storeId : UInt64)
  | reloadStoreAddr (storeId : UInt64)

/-- The code of a call. -/
def start : Op → LockCode (Option Return)
  | .locateKey key =>
    (locateKey key).bind fun ret => .ret (some (.locateKey key ret.1 ret.2))
  | .getRpcContext verId =>
    (getRpcContext verId).bind fun ret => .ret (some (.getRpcContext verId ret))
  | .dropRegion verId => (dropRegion verId).bind fun _ => .ret (some .void)
  | .updateRegionLeader verId leaderStoreId =>
    (updateRegionLeader verId leaderStoreId).bind fun _ => .ret (some .void)
  | .getStoreAddr storeId =>
    (getStoreAddr storeId).bind fun ret => .ret (some (.getStoreAddr storeId ret))
  | .reloadStoreAddr storeId =>
    (reloadStoreAddr storeId).bind fun ret => .ret (some (.getStoreAddr storeId ret))

/-- Clients of one `RegionCache` with its two locks. -/
abbrev System (ι : Type) := Threads ι Lock RegionCache Input Access (Option Return)

def init (ι : Type) : System ι := Threads.init ι Lock {} none

/-! ### Balance -/

/-- The maps are read under a shared hold of their lock and written under an exclusive
one, and PD is asked with no lock held, as long as store lookups find their store. -/
def rules : Rules Lock RegionCache Input Access where
  admits
    | .findStore storeId, _, rc => rc.stores[storeId]?.isSome
    | _, _, _ => True
  guard
    | .searchCache _, .region | .getCachedRegion _, .region | .findStore _, .store => .reader
    | .insertRegionToCache _, .region | .dropRegionFromCache _, .region
    | .updateRegionLeader _ _, .region | .writeStore _ _, .store => .writer
    | _, _ => .free

theorem guard_region {g : Access} {x : Hold} (h : rules.guard g .region = x)
    (h' : rules.guard g .store = .free) :
    rules.guard g = Function.update (fun _ => .free) .region x := by
  funext l
  cases l with
  | region => exact h
  | store => exact h'

theorem guard_store {g : Access} {x : Hold} (h : rules.guard g .store = x)
    (h' : rules.guard g .region = .free) :
    rules.guard g = Function.update (fun _ => .free) .store x := by
  funext l
  cases l with
  | region => exact h'
  | store => exact h

theorem insertRegion_balanced (region : Region) : (insertRegion region).Balanced rules := by
  apply Code.balanced_scope _ (Code.balanced_ret _)
  exact guard_region rfl rfl

theorem loadRegion_balanced (key : Str) : (loadRegion key).Balanced rules := by
  apply Code.balanced_access rfl
  intro e _ _
  cases loadRegionFromPd (getRegionInner e.region) with
  | ok region => exact insertRegion_balanced region
  | error err => exact Code.balanced_ret _

theorem locateKey_balanced (key : Str) : (locateKey key).Balanced rules := by
  apply Code.balanced_shared
  · exact guard_region rfl rfl
  · intro e rc _
    cases (rc.searchCache key e.t e.now).1 with
    | some cached => exact ⟨_, rfl, Code.balanced_ret _⟩
    | none => exact ⟨_, rfl, loadRegion_balanced key⟩

theorem writeStore_balanced (storeId : UInt64) (store : Store) :
    (writeStore storeId store).Balanced rules := by
  apply Code.balanced_scope _ (Code.balanced_ret _)
  exact guard_store rfl rfl

theorem reloadStoreAddr_balanced (storeId : UInt64) : (reloadStoreAddr storeId).Balanced rules := by
  apply Code.balanced_access rfl
  intro e _ _
  cases getStoreByIdInner e.store with
  | ok store => exact writeStore_balanced storeId store
  | error err => exact Code.balanced_ret _

/-- The lookup is balanced on its only admitted branch. -/
theorem getStoreAddr_balanced (storeId : UInt64) : (getStoreAddr storeId).Balanced rules := by
  apply Code.balanced_shared
  · exact guard_store rfl rfl
  · intro e rc hfound
    obtain ⟨it, hs⟩ := Option.isSome_iff_exists.mp hfound
    rw [hs]
    exact ⟨_, rfl, Code.balanced_ret _⟩

theorem dropRegion_balanced (verId : RegionVerID) : (dropRegion verId).Balanced rules := by
  apply Code.balanced_scope _ (Code.balanced_ret _)
  exact guard_region rfl rfl

theorem updateRegionLeader_balanced (verId : RegionVerID) (leaderStoreId : UInt16) :
    (updateRegionLeader verId leaderStoreId).Balanced rules := by
  apply Code.balanced_scope _ (Code.balanced_ret _)
  exact guard_region rfl rfl

theorem rpcContext_balanced (verId : RegionVerID) (ri : Region) (ret : Except Error Str) :
    (rpcContext verId ri ret).Balanced rules := by
  unfold rpcContext
  cases ret with
  | error err => exact Code.balanced_ret _
  | ok addr =>
    dsimp only
    split_ifs
    · exact (dropRegion_balanced verId).bind fun _ => Code.balanced_ret _
    · exact Code.balanced_ret _

theorem getRpcContext_balanced (verId : RegionVerID) : (getRpcContext verId).Balanced rules := by
  apply Code.balanced_shared
  · exact guard_region rfl rfl
  · intro e rc _
    cases (rc.getCachedRegion verId e.t e.now).1 with
    | none => exact ⟨_, rfl, Code.balanced_ret _⟩
    | some ri =>
      exact ⟨_, rfl, (getStoreAddr_balanced ri.leader.storeId).bind (rpcContext_balanced verId ri)⟩

theorem start_balanced (op : Op) : (start op).Balanced rules := by
  cases op with
  | locateKey key => exact (locateKey_balanced key).bind fun _ => Code.balanced_ret _
  | getRpcContext verId => exact (getRpcContext_balanced verId).bind fun _ => Code.balanced_ret _
  | dropRegion verId => exact (dropRegion_balanced verId).bind fun _ => Code.balanced_ret _
  | updateRegionLeader verId leaderStoreId =>
    exact (updateRegionLeader_balanced verId leaderStoreId).bind fun _ => Code.balanced_ret _
  | getStoreAddr storeId => exact (getStoreAddr_balanced storeId).bind fun _ => Code.balanced_ret _
  | reloadStoreAddr storeId =>
    exact (reloadStoreAddr_balanced storeId).bind fun _ => Code.balanced_ret _

/-! ### Runs -/

variable {ι : Type}

/-- The store that code standing at the lookup of `get_store_addr` looks up. -/
def lookup {α : Type} : LockCode α → Option UInt64
  | .access (.findStore storeId) _ _ => some storeId
  | _ => none

/-- If the event is a lookup of `get_store_addr`, then `stores_` has the store. -/
def Finds (s : System ι) : Threads.Event ι Op Input → Prop
  | .call _ _ => True
  | .step i _ => ∀ storeId ∈ lookup (s.code i), s.state.stores[storeId]?.isSome

instance instDecidableFinds (s : System ι) : ∀ ev : Threads.Event ι Op Input, Decidable (Finds s ev)
  | .call _ _ => .isTrue trivial
  | .step i _ => Option.decidableForallMem (lookup (s.code i))

theorem Finds.admits {s : System ι} {ev : Threads.Event ι Op Input} (h : Finds s ev) :
    s.Admits rules ev := by
  cases ev with
  | call i op => trivial
  | step i e =>
    intro g w k hc
    cases g with
    | findStore storeId =>
      apply h storeId
      rw [hc]
      rfl
    | _ => trivial

variable [DecidableEq ι]

/-- Every lookup of `get_store_addr` in the run finds its store. -/
def LookupsFind (tr : List (Threads.Event ι Op Input)) : Prop :=
  Along (Threads.step start) Finds (init ι) tr

instance instDecidableLookupsFind (tr : List (Threads.Event ι Op Input)) :
    Decidable (LookupsFind tr) :=
  inferInstanceAs (Decidable (Along _ _ _ _))

theorem kept {tr : List (Threads.Event ι Op Input)} {s : System ι}
    (h : run (Threads.step start) (init ι) tr = some s) (hf : LookupsFind tr) : s.Kept rules :=
  Threads.kept_of_run start_balanced h (hf.mono fun _ _ => Finds.admits)

/-- Lock discipline: in every state of a run whose store lookups find their stores,
clients outside an operation hold nothing, no client requests a lock that it holds,
and a client that is alone in an operation is not blocked. -/
theorem lock_discipline {tr : List (Threads.Event ι Op Input)} {s : System ι}
    (h : run (Threads.step start) (init ι) tr = some s) (hf : LookupsFind tr) : s.Disciplined :=
  (kept h hf).disciplined

/-- In such a run an access that writes maps under their lock excludes all other accesses
under that lock. -/
theorem no_race {tr : List (Threads.Event ι Op Input)} {s : System ι}
    (h : run (Threads.step start) (init ι) tr = some s) (hf : LookupsFind tr) {i j : ι} (hij : j ≠ i)
    {g g' : Access} {w w' : Input → RegionCache → RegionCache}
    {k k' : Input → RegionCache → LockCode (Option Return)} (hi : s.code i = .access g w k)
    (hj : s.code j = .access g' w' k') {l : Lock} (hg : rules.guard g l = .writer) :
    rules.guard g' l = .free :=
  (kept h hf).no_race hij hi hj hg

def failed : Input := ⟨5, 5, .error ⟨"unavailable"⟩, .error ⟨"unavailable"⟩⟩

def answered : Input := ⟨5, 5, .error ⟨"unavailable"⟩, .ok {}⟩

/-- One client reloads the address of store 1, and another looks it up meanwhile. -/
def reloadAndFind : List (Threads.Event Bool Op Input) :=
  [.call true (.reloadStoreAddr 1), .step true answered, .step true answered, .step true answered,
    .call false (.getStoreAddr 1), .step true answered, .step false failed, .step false failed,
    .step false failed]

theorem lock_discipline_reloadAndFind :
    ∃ s : System Bool, run (Threads.step start) (init Bool) reloadAndFind = some s ∧
      s.code false = .ret (some (.getStoreAddr 1 (.ok []))) ∧ s.Disciplined := by
  have hf : LookupsFind reloadAndFind := by decide
  exact ⟨_, rfl, rfl, lock_discipline rfl hf⟩

/-- `reload_store_addr` called with a hold of `store_lock_` ends the discipline whatever
PD answers: with a store the client waits for itself, with an error it returns with
the hold. -/
theorem reloadStoreAddr_breaks {s : System ι} {i : ι} {storeId : UInt64}
    {f : Except Error Str → LockCode (Option Return)} (hc : s.code i = (reloadStoreAddr storeId).bind f)
    (hheld : s.holds i .store ≠ .free) (hf : ∀ err, ∃ ret, f (.error err) = .ret ret) (e : Input) :
    ∃ s', Threads.step start s (.step i e) = some s' ∧ ¬ s'.Disciplined := by
  refine ⟨_, Threads.step_access hc e, ?_⟩
  intro hd
  apply hheld
  cases he : getStoreByIdInner e.store with
  | ok store =>
    apply hd.request i .store
    left
    simp only [Threads.setState_code_self, he]
    rfl
  | error err =>
    obtain ⟨ret, hret⟩ := hf err
    have hholds : s.holds i = fun _ => .free := by
      apply hd.returned i ret
      simp only [Threads.setState_code_self, he]
      exact hret
    exact congrFun hholds .store

/-- So a lookup that does not find its store ends the discipline once PD answers. -/
theorem getStoreAddr_breaks {s : System ι} {i : ι} {storeId : UInt64}
    {f : Except Error Str → LockCode (Option Return)}
    (hc : .lockShared .store (s.code i) = (getStoreAddr storeId).bind f)
    (hheld : s.holds i .store ≠ .free) (hmiss : s.state.stores[storeId]? = none)
    (hf : ∀ err, ∃ ret, f (.error err) = .ret ret) (e e' : Input) :
    ∃ s', run (Threads.step start) s [.step i e, .step i e'] = some s' ∧ ¬ s'.Disciplined := by
  have hstep : Threads.step start s (.step i e) =
      some (s.setState i s.state ((reloadStoreAddr storeId).bind f)) := by
    rw [Threads.step_access (Code.lockShared.inj hc).2 e]
    simp only [hmiss]
  obtain ⟨t, ht, hbroken⟩ :=
    reloadStoreAddr_breaks (Threads.setState_code_self s i s.state _) hheld hf e'
  refine ⟨t, ?_, hbroken⟩
  rw [run_cons, hstep, Option.bind_some, run_cons, ht]
  rfl

/-- `get_store_addr(1)` on an empty cache, up to the answer of PD. -/
def missTrace (e : Input) : List (Threads.Event Bool Op Input) :=
  [.call true (.getStoreAddr 1), .step true e, .step true e, .step true e]

/-- PD fails: the call returns with `store_lock_` still held shared. PD answers: the call
waits for the exclusive lock that its own shared hold keeps from being granted, forever,
although no other client is in an operation. -/
theorem undisciplined_miss :
    (∃ s : System Bool, run (Threads.step start) (init Bool) (missTrace failed) = some s ∧
      (∃ ret, s.code true = .ret ret) ∧ s.holds true .store = .reader) ∧
    (∃ s : System Bool, run (Threads.step start) (init Bool) (missTrace answered) = some s ∧
      (∃ ret, s.code false = .ret ret) ∧ s.holds true .store = .reader ∧
      ∀ (tr : List (Threads.Event Bool Op Input)) (s' : System Bool),
        run (Threads.step start) s tr = some s' → ∃ k, s'.code true = .lock .store k) ∧
    ¬ ∀ (tr : List (Threads.Event Bool Op Input)) (s : System Bool),
      run (Threads.step start) (init Bool) tr = some s → s.Disciplined := by
  refine ⟨⟨_, rfl, ⟨_, rfl⟩, by decide⟩, ⟨_, rfl, ⟨_, rfl⟩, by decide, ?_⟩, ?_⟩
  · intro tr s' h
    exact ⟨_, Threads.waits_of_run h rfl (by decide)⟩
  · intro h
    have hd := h (missTrace failed) _ rfl
    have hr := congrFun (hd.returned true _ rfl) .store
    revert hr
    decide

end TikvCpp.RegionCache.Locks
