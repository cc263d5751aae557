import TikvCpp.PDClient.Answers

/-! The data of `RegionCache` and the functions of `region_cache.cc` on it, locks
aside. Each reading of `::time(NULL)` is an argument, and so is each result of
the PD client. A function that may write the cache returns the cache it leaves. -/

namespace TikvCpp

open Data

/-- A reading of `::time(NULL)`: seconds in the non-negative half of `time_t`. -/
structure Time where
  secs : ℕ
  secs_lt : secs < 2 ^ 63
  deriving DecidableEq

instance instOfNatTime (n : ℕ) : OfNat Time n := ⟨⟨n % 2 ^ 63, Nat.mod_lt n (by decide)⟩⟩

/-- The reading converted to `uint64_t`. -/
def Time.toUInt64 (t : Time) : UInt64 := UInt64.ofNat t.secs

theorem Time.toNat_toUInt64 (t : Time) : t.toUInt64.toNat = t.secs := by
  have := t.secs_lt
  simp only [Time.toUInt64, UInt64.toNat_ofNat']
  omega

structure CachedRegion where
  region : Region := {}
  leader : Peer := {}
  lastAccess : UInt64 := 0
  deriving DecidableEq

def kDefaultRegionCacheTTL : UInt64 := 10 * 60

/-- `cached_region::is_valid` at clock reading `t`; the subtraction wraps. -/
def CachedRegion.isValid (c : CachedRegion) (t : Time) : Bool :=
  decide (t.toUInt64 - c.lastAccess < kDefaultRegionCacheTTL)

/-- A region cached at a clock reading is valid from then on for the TTL; an
earlier clock makes the difference wrap to at least `2 ^ 63`. -/
theorem CachedRegion.isValid_iff {c : CachedRegion} {t₀ t : Time} (h : c.lastAccess = t₀.toUInt64) :
    c.isValid t = true ↔ t₀.secs ≤ t.secs ∧ t.secs < t₀.secs + 600 := by
  have h₀ := t₀.secs_lt
  have h₁ := t.secs_lt
  simp only [isValid, decide_eq_true_eq, UInt64.lt_iff_toNat_lt, UInt64.toNat_sub, h,
    Time.toNat_toUInt64, show kDefaultRegionCacheTTL.toNat = 600 from rfl]
  omega

structure KeyLoc where
  startKey : Str := []
  endKey : Str := []
  regionVerId : RegionVerID := {}
  deriving DecidableEq

/-- `key_loc::contains`. -/
def KeyLoc.contains (loc : KeyLoc) (key : Str) : Bool :=
  decide (loc.startKey ≤ key) && (decide (key < loc.endKey) || loc.endKey.length == 0)

/-- The `key_loc` that `locate_key` fills from a region. -/
def Region.keyLoc (r : Region) : KeyLoc :=
  { startKey := r.startKey, endKey := r.endKey, regionVerId := r.verId }

/-- `rpc_context`; `meta` is a keyword here, so that member is `regionMeta`. -/
structure RpcContext where
  regionVerId : RegionVerID := {}
  regionMeta : Region := {}
  peer : Peer := {}
  addr : Str := []
  deriving DecidableEq

/-- The maps of `RegionCache`: regions by end key, cached regions by version, stores by id. -/
structure RegionCache where
  sorted : OrdMap Str Region := ∅
  cachedRegions : OrdMap RegionVerID CachedRegion := ∅
  stores : OrdMap UInt64 Store := ∅

namespace RegionCache

/-! ### Lookups -/

/-- The value `std::atomic_compare_exchange_strong` leaves in the object. -/
def compareExchangeStrong (obj expected desired : UInt64) : UInt64 :=
  if obj = expected then desired else obj

/-- `get_cached_region`: `t` is the reading in `is_valid`, `now` the one after it. -/
def getCachedRegion (rc : RegionCache) (verId : RegionVerID) (t now : Time) :
    Option Region × RegionCache :=
  match rc.cachedRegions[verId]? with
  | some it =>
    if it.isValid t then
      let it := { it with lastAccess := compareExchangeStrong it.lastAccess now.toUInt64 now.toUInt64 }
      (some it.region, { rc with cachedRegions := rc.cachedRegions.insert verId it })
    else (none, rc)
  | none => (none, rc)

/-- `search_cache`. -/
def searchCache (rc : RegionCache) (key : Str) (t now : Time) : Option Region × RegionCache :=
  match rc.sorted.upperBound key with
  | some (_, r) => if r.contains key then rc.getCachedRegion r.verId t now else (none, rc)
  | none => (none, rc)

/-- The exchange writes the reading only over the same reading, so a lookup
leaves every access time as it was. -/
theorem compareExchangeStrong_self (obj now : UInt64) : compareExchangeStrong obj now now = obj := by
  unfold compareExchangeStrong
  split_ifs with h
  · exact h.symm
  · rfl

theorem getCachedRegion_eq (rc : RegionCache) (verId : RegionVerID) (t now : Time) :
    rc.getCachedRegion verId t now =
      ((rc.cachedRegions[verId]?.filter (·.isValid t)).map CachedRegion.region, rc) := by
  unfold getCachedRegion
  cases h : rc.cachedRegions[verId]? with
  | none => rfl
  | some it =>
    by_cases hv : it.isValid t
    · simp [compareExchangeStrong_self, OrdMap.insert_of_get h, hv]
    · simp [hv]

@[simp] theorem getCachedRegion_snd (rc : RegionCache) (verId : RegionVerID) (t now : Time) :
    (rc.getCachedRegion verId t now).2 = rc := by
  rw [getCachedRegion_eq]

theorem getCachedRegion_eq_some {rc : RegionCache} {verId : RegionVerID} {t now : Time} {r : Region} :
    (rc.getCachedRegion verId t now).1 = some r ↔
      ∃ c, rc.cachedRegions[verId]? = some c ∧ c.isValid t = true ∧ c.region = r := by
  simp [getCachedRegion_eq, Option.filter_eq_some_iff, and_assoc]

@[simp] theorem searchCache_snd (rc : RegionCache) (key : Str) (t now : Time) :
    (rc.searchCache key t now).2 = rc := by
  unfold searchCache
  split
  · split_ifs <;> simp
  · rfl

theorem searchCache_eq_some {rc : RegionCache} {key : Str} {t now : Time} {r : Region} :
    (rc.searchCache key t now).1 = some r ↔
      ∃ e s, rc.sorted.upperBound key = some (e, s) ∧ s.contains key = true ∧
        (rc.getCachedRegion s.verId t now).1 = some r := by
  unfold searchCache
  cases h : rc.sorted.upperBound key with
  | none => simp
  | some e =>
    by_cases hc : e.2.contains key = true <;> simp [hc, Prod.ext_iff, and_assoc]

/-! ### Updates -/

/-- `insert_region_to_cache` at clock reading `now`. -/
def insertRegionToCache (rc : RegionCache) (r : Region) (now : Time) : RegionCache :=
  let cachedRegions := match rc.sorted[r.endKey]? with
    | some it => rc.cachedRegions.erase it.verId
    | none => rc.cachedRegions
  let cr : CachedRegion := { region := r, lastAccess := now.toUInt64 }
  { rc with
    sorted := rc.sorted.insert r.endKey r
    cachedRegions := cachedRegions.insert r.verId cr }

theorem insertRegionToCache_sorted (rc : RegionCache) (r : Region) (now : Time) (e : Str) :
    (rc.insertRegionToCache r now).sorted[e]? = if r.endKey = e then some r else rc.sorted[e]? :=
  OrdMap.get_insert _ _ _ _

/-- The version stored under the inserted end key leaves `cached_regions_`, and
the inserted one enters it. -/
theorem insertRegionToCache_cachedRegions (rc : RegionCache) (r : Region) (now : Time)
    (v : RegionVerID) :
    (rc.insertRegionToCache r now).cachedRegions[v]? =
      if r.verId = v then some { region := r, lastAccess := now.toUInt64 }
      else if (rc.sorted[r.endKey]?.map Region.verId) = some v then none
      else rc.cachedRegions[v]? := by
  simp only [insertRegionToCache, OrdMap.get_insert]
  cases rc.sorted[r.endKey]? with
  | none => simp
  | some it => simp [OrdMap.get_erase]

@[simp] theorem insertRegionToCache_stores (rc : RegionCache) (r : Region) (now : Time) :
    (rc.insertRegionToCache r now).stores = rc.stores := rfl

/-- `drop_region_from_cache`. -/
def dropRegionFromCache (rc : RegionCache) (verId : RegionVerID) : RegionCache :=
  match rc.cachedRegions[verId]? with
  | some it =>
    { rc with
      sorted := rc.sorted.erase it.region.endKey
      cachedRegions := rc.cachedRegions.erase verId }
  | none => rc

theorem dropRegionFromCache_sorted (rc : RegionCache) (v : RegionVerID) (e : Str) :
    (rc.dropRegionFromCache v).sorted[e]? =
      if (rc.cachedRegions[v]?.map (·.region.endKey)) = some e then none else rc.sorted[e]? := by
  unfold dropRegionFromCache
  cases rc.cachedRegions[v]? with
  | none => simp
  | some it => simp [OrdMap.get_erase]

theorem dropRegionFromCache_cachedRegions (rc : RegionCache) (v w : RegionVerID) :
    (rc.dropRegionFromCache v).cachedRegions[w]? = if v = w then none else rc.cachedRegions[w]? := by
  unfold dropRegionFromCache
  cases h : rc.cachedRegions[v]? with
  | none =>
    split_ifs with hw
    · rw [← hw, h]
    · rfl
  | some it => simp [OrdMap.get_erase]

@[simp] theorem dropRegionFromCache_stores (rc : RegionCache) (v : RegionVerID) :
    (rc.dropRegionFromCache v).stores = rc.stores := by
  unfold dropRegionFromCache
  split <;> rfl

/-- `update_region_leader`: the store id arrives as a `uint16_t`, and the region
that `get_cached_region` returns by reference is changed in place. -/
def updateRegionLeader (rc : RegionCache) (verId : RegionVerID) (leaderStoreId : UInt16)
    (t now : Time) : RegionCache :=
  match rc.getCachedRegion verId t now with
  | (some r, rc) =>
    { rc with
      cachedRegions := rc.cachedRegions.modify verId fun it =>
        { it with region := r.switchLeader leaderStoreId.toUInt64 } }
  | (none, rc) => rc

@[simp] theorem updateRegionLeader_sorted (rc : RegionCache) (v : RegionVerID) (s : UInt16)
    (t now : Time) : (rc.updateRegionLeader v s t now).sorted = rc.sorted := by
  rw [updateRegionLeader, getCachedRegion_eq]
  split <;> simp_all

@[simp] theorem updateRegionLeader_stores (rc : RegionCache) (v : RegionVerID) (s : UInt16)
    (t now : Time) : (rc.updateRegionLeader v s t now).stores = rc.stores := by
  rw [updateRegionLeader, getCachedRegion_eq]
  split <;> simp_all

/-- Only the leader of a valid region under the given version changes. -/
theorem updateRegionLeader_cachedRegions (rc : RegionCache) (v w : RegionVerID) (s : UInt16)
    (t now : Time) :
    (rc.updateRegionLeader v s t now).cachedRegions[w]? = rc.cachedRegions[w]?.map fun c =>
      if v = w ∧ c.isValid t = true then { c with region := c.region.switchLeader s.toUInt64 }
      else c := by
  rw [updateRegionLeader, getCachedRegion_eq]
  by_cases hw : v = w
  · subst hw
    cases h : rc.cachedRegions[v]? with
    | none => simp [h]
    | some c => by_cases hv : c.isValid t = true <;> simp [h, hv, Option.filter_some]
  · cases h : rc.cachedRegions[v]? with
    | none => simp [hw]
    | some c =>
      by_cases hv : c.isValid t = true <;>
        simp [hw, hv, Option.filter_some, Std.ExtTreeMap.getElem?_modify]

/-- One line of `dump_cache`: the range of a region and the store of its leader. -/
structure DumpLine where
  startKey : Str
  endKey : Str
  leaderStoreId : UInt64

/-- The body of the loop in `dump_cache`: `cached_regions_[...]` creates a missing entry. -/
def dumpEntry (acc : List DumpLine × RegionCache) (it : Str × Region) :
    List DumpLine × RegionCache :=
  let cr := acc.2.cachedRegions.getD it.2.verId {}
  (acc.1 ++ [⟨cr.region.startKey, cr.region.endKey, cr.region.leader.storeId⟩],
    { acc.2 with cachedRegions := acc.2.cachedRegions.insertIfNew it.2.verId {} })

/-- `dump_cache`. -/
def dumpCache (rc : RegionCache) : List DumpLine × RegionCache :=
  rc.sorted.toList.foldl dumpEntry ([], rc)

/-! ### Loads from PD -/

/-- What both loaders do with the pair PD's client returns: a region without
peers is refused, and a leader with non-zero ids is switched to by its store. -/
def acceptRegion (ret : Except Error (Region × Peer)) : Except Error Region :=
  match ret with
  | .error e => .error e
  | .ok (r, leader) =>
    if r.peers.length = 0 then .error ⟨"this region has no peers"⟩
    else if leader.id > 0 ∧ leader.storeId > 0 then .ok (r.switchLeader leader.storeId)
    else .ok r

/-- `load_region_from_pd`, given what `PDClient::get_region` returned. -/
def loadRegionFromPd (ret : Except Error (Region × Peer)) : Except Error Region := acceptRegion ret

/-- `load_region_from_pd_by_id`, given what `PDClient::get_region_by_id` returned. -/
def loadRegionFromPdById (ret : Except Error (Region × Peer)) : Except Error Region := acceptRegion ret

/-! ### Calls

Each public call run without interruption. `ret` is what the PD client returns
to the call, if the call asks it. -/

/-- `locate_key`: on a miss the region loaded from PD is inserted at reading
`insertedAt`. The out-parameter `cache_hit` keeps its value on an error. -/
def locateKey (rc : RegionCache) (key : Str) (cacheHit : Bool) (t now : Time)
    (ret : Except Error (Region × Peer)) (insertedAt : Time) :
    (Except Error KeyLoc × Bool) × RegionCache :=
  match rc.searchCache key t now with
  | (some cached, rc) => ((.ok cached.keyLoc, true), rc)
  | (none, rc) =>
    match loadRegionFromPd ret with
    | .ok region => ((.ok region.keyLoc, false), rc.insertRegionToCache region insertedAt)
    | .error e => ((.error e, cacheHit), rc)

/-- `reload_store_addr`. -/
def reloadStoreAddr (rc : RegionCache) (storeId : UInt64) (ret : Except Error Store) :
    Except Error Str × RegionCache :=
  match ret with
  | .ok store => (.ok store.addr, { rc with stores := rc.stores.insert storeId store })
  | .error e => (.error e, rc)

/-- `get_store_addr`. -/
def getStoreAddr (rc : RegionCache) (storeId : UInt64) (ret : Except Error Store) :
    Except Error Str × RegionCache :=
  match rc.stores[storeId]? with
  | some it => (.ok it.addr, rc)
  | none => rc.reloadStoreAddr storeId ret

/-- The error of a context whose region is not, or no longer, cached. -/
def outOfDate : Error := ⟨"region info out-of-date"⟩

/-- The context `get_rpc_context` assembles; it sets every member but the version. -/
def rpcContextOf (ri : Region) (addr : Str) : RpcContext :=
  { addr := addr, regionMeta := ri, peer := ri.leader }

/-- `get_rpc_context`. -/
def getRpcContext (rc : RegionCache) (verId : RegionVerID) (t now : Time)
    (ret : Except Error Store) : Except Error RpcContext × RegionCache :=
  match rc.getCachedRegion verId t now with
  | (none, rc) => (.error outOfDate, rc)
  | (some ri, rc) =>
    match rc.getStoreAddr ri.leader.storeId ret with
    | (.ok addr, rc) =>
      if addr.length = 0 then (.error outOfDate, rc.dropRegionFromCache verId)
      else (.ok (rpcContextOf ri addr), rc)
    | (.error e, rc) => (.error e, rc)

end RegionCache

end TikvCpp
