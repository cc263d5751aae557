import TikvCpp.RegionCache.Cache
import TikvCpp.Transition.Run
import Mathlib.Logic.Function.Basic

/-! Any number of clients calling one `RegionCache`. A call is cut where the code
holds no lock: the search, the PD request and the insert of `locate_key` are
separate steps, and so are the region read, the store lookup, the store request,
the store write and the drop of `get_rpc_context`. A step is atomic because its
lock is held throughout; the locks themselves are modelled over this file. An
event records what a step reads from the clock or from PD and what it commits. -/

namespace TikvCpp.RegionCache

open Transition PDClient

/-- What a call gave back to its client. `locate_key` also says what it wrote to
`cache_hit`, if anything. -/
inductive Return
  | locateKey (key : Str) (res : Except Error KeyLoc) (cacheHit : Option Bool)
  | getRpcContext (verId : RegionVerID) (res : Except Error RpcContext)
  | getStoreAddr (storeId : UInt64) (res : Except Error Str)
  | void

/-- Who waits for a store address. -/
inductive Caller
  | client
  | getRpcContext (verId : RegionVerID) (ri : Region)

/-- Where a client stands. -/
inductive Phase
  /-- Outside any call; the result of the last call, if there was one. -/
  | idle (last : Option Return)
  /-- `locate_key` has missed. -/
  | missed (key : Str)
  /-- `locate_key` has a region from PD. -/
  | loaded (key : Str) (r : Region)
  /-- `get_rpc_context` has copied the cached region. -/
  | context (verId : RegionVerID) (ri : Region)
  /-- `get_store_addr` has missed. -/
  | reloading (storeId : UInt64) (caller : Caller)
  /-- `reload_store_addr` has a store from PD. -/
  | fetched (storeId : UInt64) (store : Store) (caller : Caller)
  /-- `get_rpc_context` has obtained an empty address. -/
  | dropping (verId : RegionVerID)

structure Sys (ι : Type) where
  cache : RegionCache
  phase : ι → Phase

/-- An empty cache and no call in progress. -/
def Sys.init (ι : Type) : Sys ι := ⟨{}, fun _ => .idle none⟩

inductive Event (ι : Type)
  | search (i : ι) (key : Str) (t now : Time)
  | request (i : ι) (key : Str) (answer : Except Error Pdpb.GetRegionResponse)
  | insert (i : ι) (r : Region) (now : Time)
  | readRegion (i : ι) (verId : RegionVerID) (t now : Time)
  | findStore (i : ι) (storeId : UInt64)
  | requestStore (i : ι) (storeId : UInt64) (answer : Except Error Pdpb.GetStoreResponse)
  | writeStore (i : ι) (storeId : UInt64) (store : Store)
  | dropContext (i : ι) (verId : RegionVerID)
  | dropRegion (i : ι) (verId : RegionVerID)
  | updateRegionLeader (i : ι) (verId : RegionVerID) (leaderStoreId : UInt16) (t now : Time)

/-- Where a caller goes once it has the result of `get_store_addr`. -/
def Caller.resume (storeId : UInt64) (res : Except Error Str) : Caller → Phase
  | .client => .idle (some (.getStoreAddr storeId res))
  | .getRpcContext verId ri =>
    match res with
    | .ok addr =>
      if addr.length = 0 then .dropping verId
      else .idle (some (.getRpcContext verId (.ok (rpcContextOf ri addr))))
    | .error e => .idle (some (.getRpcContext verId (.error e)))

/-- A caller resumes outside any call or drops its region. -/
theorem Caller.resume_eq (storeId : UInt64) (res : Except Error Str) (caller : Caller) :
    (∃ ret, caller.resume storeId res = .idle (some ret) ∧ ∀ k l h, ret ≠ .locateKey k l h) ∨
      ∃ verId, caller.resume storeId res = .dropping verId := by
  cases caller with
  | client => exact .inl ⟨_, rfl, fun _ _ _ => nofun⟩
  | getRpcContext verId ri =>
    cases res with
    | error e => exact .inl ⟨_, rfl, fun _ _ _ => nofun⟩
    | ok addr =>
      by_cases ha : addr.length = 0
      · exact .inr ⟨verId, by simp only [resume, ha, if_true]⟩
      · exact .inl ⟨.getRpcContext verId (.ok (rpcContextOf ri addr)),
          by simp only [resume, ha, if_false], fun _ _ _ => nofun⟩

/-! ### Events -/

variable {ι : Type}

/-- The client that makes the step. -/
def Event.client : Event ι → ι
  | .search i _ _ _ | .request i _ _ | .insert i _ _ | .readRegion i _ _ _ | .findStore i _
  | .requestStore i _ _ | .writeStore i _ _ | .dropContext i _ | .dropRegion i _
  | .updateRegionLeader i _ _ _ _ => i

/-- What an event commits to the cache. -/
def Event.commit : Event ι → RegionCache → RegionCache
  | .insert _ r now, rc => rc.insertRegionToCache r now
  | .writeStore _ storeId store, rc => { rc with stores := rc.stores.insert storeId store }
  | .dropContext _ verId, rc => rc.dropRegionFromCache verId
  | .dropRegion _ verId, rc => rc.dropRegionFromCache verId
  | .updateRegionLeader _ verId leaderStoreId t now, rc =>
    rc.updateRegionLeader verId leaderStoreId t now
  | _, rc => rc

/-- The regions PD answered, in order, those the loader refuses included. -/
def regionAnswers (tr : List (Event ι)) : List Region :=
  tr.filterMap fun
    | .request _ _ (.ok resp) => some (parseGetRegionResult resp).1
    | _ => none

@[simp] theorem regionAnswers_append (tr tr' : List (Event ι)) :
    regionAnswers (tr ++ tr') = regionAnswers tr ++ regionAnswers tr' := List.filterMap_append

theorem mem_regionAnswers {tr : List (Event ι)} {a : Region} :
    a ∈ regionAnswers tr ↔
      ∃ i key resp, .request i key (.ok resp) ∈ tr ∧ (parseGetRegionResult resp).1 = a := by
  simp only [regionAnswers, List.mem_filterMap]
  constructor
  · rintro ⟨e, he, ha⟩
    split at ha
    · next i key resp => exact ⟨i, key, resp, he, Option.some.inj ha⟩
    · contradiction
  · rintro ⟨i, key, resp, he, rfl⟩
    exact ⟨_, he, rfl⟩

/-! ### Steps -/

variable [DecidableEq ι]

/-- Client `i` leaves the given cache and phase. -/
def Sys.goto (s : Sys ι) (i : ι) (cache : RegionCache) (p : Phase) : Sys ι :=
  ⟨cache, Function.update s.phase i p⟩

/-- The caller of a store lookup for `storeId` that a client may start in phase `p`:
the client itself, or `get_rpc_context` for the leader's store of its region. -/
def Phase.caller (storeId : UInt64) : Phase → Option Caller
  | .idle _ => some .client
  | .context verId ri =>
    if storeId = ri.leader.storeId then some (.getRpcContext verId ri) else none
  | _ => none

/-- The caller of a store request: a lookup that has missed, or a direct call of
`reload_store_addr`. -/
def Phase.reloader (storeId : UInt64) : Phase → Option Caller
  | .idle _ => some .client
  | .reloading id caller => if storeId = id then some caller else none
  | _ => none

/-- One step of one client; nothing if the client is not at that step. -/
def step (s : Sys ι) : Event ι → Option (Sys ι)
  | .search i key t now =>
    match s.phase i with
    | .idle _ =>
      match s.cache.searchCache key t now with
      | (some r, cache) =>
        some (s.goto i cache (.idle (some (.locateKey key (.ok r.keyLoc) (some true)))))
      | (none, cache) => some (s.goto i cache (.missed key))
    | _ => none
  | .request i key answer =>
    match s.phase i with
    | .missed key' =>
      if key = key' then
        match loadRegionFromPd (getRegionInner answer) with
        | .ok r => some (s.goto i s.cache (.loaded key r))
        | .error e => some (s.goto i s.cache (.idle (some (.locateKey key (.error e) none))))
      else none
    | _ => none
  | .insert i r now =>
    match s.phase i with
    | .loaded key r' =>
      if r = r' then
        some (s.goto i (s.cache.insertRegionToCache r now)
          (.idle (some (.locateKey key (.ok r.keyLoc) (some false)))))
      else none
    | _ => none
  | .readRegion i verId t now =>
    match s.phase i with
    | .idle _ =>
      match s.cache.getCachedRegion verId t now with
      | (some ri, cache) => some (s.goto i cache (.context verId ri))
      | (none, cache) =>
        some (s.goto i cache (.idle (some (.getRpcContext verId (.error outOfDate)))))
    | _ => none
  | .findStore i storeId =>
    (s.phase i).caller storeId |>.map fun caller =>
      match s.cache.stores[storeId]? with
      | some it => s.goto i s.cache (caller.resume storeId (.ok it.addr))
      | none => s.goto i s.cache (.reloading storeId caller)
  | .requestStore i storeId answer =>
    (s.phase i).reloader storeId |>.map fun caller =>
      match getStoreByIdInner answer with
      | .ok store => s.goto i s.cache (.fetched storeId store caller)
      | .error e => s.goto i s.cache (caller.resume storeId (.error e))
  | .writeStore i storeId store =>
    match s.phase i with
    | .fetched id store' caller =>
      if storeId = id ∧ store = store' then
        some (s.goto i { s.cache with stores := s.cache.stores.insert storeId store }
          (caller.resume storeId (.ok store.addr)))
      else none
    | _ => none
  | .dropContext i verId =>
    match s.phase i with
    | .dropping verId' =>
      if verId = verId' then
        some (s.goto i (s.cache.dropRegionFromCache verId)
          (.idle (some (.getRpcContext verId (.error outOfDate)))))
      else none
    | _ => none
  | .dropRegion i verId =>
    match s.phase i with
    | .idle _ => some (s.goto i (s.cache.dropRegionFromCache verId) (.idle (some .void)))
    | _ => none
  | .updateRegionLeader i verId leaderStoreId t now =>
    match s.phase i with
    | .idle _ =>
      some (s.goto i (s.cache.updateRegionLeader verId leaderStoreId t now) (.idle (some .void)))
    | _ => none

@[simp] theorem Sys.goto_cache (s : Sys ι) (i : ι) (cache : RegionCache) (p : Phase) :
    (s.goto i cache p).cache = cache := rfl

@[simp] theorem Sys.goto_phase_self (s : Sys ι) (i : ι) (cache : RegionCache) (p : Phase) :
    (s.goto i cache p).phase i = p := by simp [goto]

theorem Sys.goto_phase (s : Sys ι) (i j : ι) (cache : RegionCache) (p : Phase) :
    (s.goto i cache p).phase j = if j = i then p else s.phase j := by
  simp [goto, Function.update_apply]

@[simp] theorem Sys.goto_goto (s : Sys ι) (i : ι) (c c' : RegionCache) (p p' : Phase) :
    (s.goto i c p).goto i c' p' = s.goto i c' p' := by
  simp [goto, Function.update_idem]

/-! ### What a step can do -/

/-- The steps, one rule for each way a call goes on. -/
inductive Step (s : Sys ι) : Event ι → Sys ι → Prop
  | searchHit {i key t now r last} (hp : s.phase i = .idle last)
      (hit : (s.cache.searchCache key t now).1 = some r) :
      Step s (.search i key t now)
        (s.goto i s.cache (.idle (some (.locateKey key (.ok r.keyLoc) (some true)))))
  | searchMiss {i key t now last} (hp : s.phase i = .idle last)
      (miss : (s.cache.searchCache key t now).1 = none) :
      Step s (.search i key t now) (s.goto i s.cache (.missed key))
  | requestOk {i key answer r} (hp : s.phase i = .missed key)
      (ok : loadRegionFromPd (getRegionInner answer) = .ok r) :
      Step s (.request i key answer) (s.goto i s.cache (.loaded key r))
  | requestErr {i key answer e} (hp : s.phase i = .missed key)
      (err : loadRegionFromPd (getRegionInner answer) = .error e) :
      Step s (.request i key answer)
        (s.goto i s.cache (.idle (some (.locateKey key (.error e) none))))
  | insert {i key r now} (hp : s.phase i = .loaded key r) :
      Step s (.insert i r now) (s.goto i (s.cache.insertRegionToCache r now)
        (.idle (some (.locateKey key (.ok r.keyLoc) (some false)))))
  | readHit {i verId t now ri last} (hp : s.phase i = .idle last)
      (hit : (s.cache.getCachedRegion verId t now).1 = some ri) :
      Step s (.readRegion i verId t now) (s.goto i s.cache (.context verId ri))
  | readMiss {i verId t now last} (hp : s.phase i = .idle last)
      (miss : (s.cache.getCachedRegion verId t now).1 = none) :
      Step s (.readRegion i verId t now)
        (s.goto i s.cache (.idle (some (.getRpcContext verId (.error outOfDate)))))
  | findHit {i storeId caller it} (hp : (s.phase i).caller storeId = some caller)
      (hit : s.cache.stores[storeId]? = some it) :
      Step s (.findStore i storeId) (s.goto i s.cache (caller.resume storeId (.ok it.addr)))
  | findMiss {i storeId caller} (hp : (s.phase i).caller storeId = some caller)
      (miss : s.cache.stores[storeId]? = none) :
      Step s (.findStore i storeId) (s.goto i s.cache (.reloading storeId caller))
  | requestStoreOk {i storeId answer caller store}
      (hp : (s.phase i).reloader storeId = some caller)
      (ok : getStoreByIdInner answer = .ok store) :
      Step s (.requestStore i storeId answer) (s.goto i s.cache (.fetched storeId store caller))
  | requestStoreErr {i storeId answer caller e}
      (hp : (s.phase i).reloader storeId = some caller)
      (err : getStoreByIdInner answer = .error e) :
      Step s (.requestStore i storeId answer)
        (s.goto i s.cache (caller.resume storeId (.error e)))
  | writeStore {i storeId store caller} (hp : s.phase i = .fetched storeId store caller) :
      Step s (.writeStore i storeId store)
        (s.goto i { s.cache with stores := s.cache.stores.insert storeId store }
          (caller.resume storeId (.ok store.addr)))
  | dropContext {i verId} (hp : s.phase i = .dropping verId) :
      Step s (.dropContext i verId) (s.goto i (s.cache.dropRegionFromCache verId)
        (.idle (some (.getRpcContext verId (.error outOfDate)))))
  | dropRegion {i verId last} (hp : s.phase i = .idle last) :
      Step s (.dropRegion i verId)
        (s.goto i (s.cache.dropRegionFromCache verId) (.idle (some .void)))
  | updateRegionLeader {i verId leaderStoreId t now last} (hp : s.phase i = .idle last) :
      Step s (.updateRegionLeader i verId leaderStoreId t now)
        (s.goto i (s.cache.updateRegionLeader verId leaderStoreId t now) (.idle (some .void)))

theorem step_cases {s s' : Sys ι} {e : Event ι} (h : step s e = some s') : Step s e s' := by
  cases e with
  | search i key t now =>
    have hc := s.cache.searchCache_snd key t now
    simp only [step] at h
    split at h
    · next hp =>
      split at h <;> next hs =>
        obtain rfl := Option.some.inj h
        rw [hs] at hc
        obtain rfl := hc
        first
        | exact .searchHit hp (by rw [hs])
        | exact .searchMiss hp (by rw [hs])
    · contradiction
  | request i key answer =>
    simp only [step] at h
    split at h
    · next hp =>
      split_ifs at h with hk
      subst hk
      split at h <;> next hl =>
        obtain rfl := Option.some.inj h
        first
        | exact .requestOk hp hl
        | exact .requestErr hp hl
    · contradiction
  | insert i r now =>
    simp only [step] at h
    split at h
    · next hp =>
      split_ifs at h with hr
      subst hr
      obtain rfl := Option.some.inj h
      exact .insert hp
    · contradiction
  | readRegion i verId t now =>
    have hc := s.cache.getCachedRegion_snd verId t now
    simp only [step] at h
    split at h
    · next hp =>
      split at h <;> next hs =>
        obtain rfl := Option.some.inj h
        rw [hs] at hc
        obtain rfl := hc
        first
        | exact .readHit hp (by rw [hs])
        | exact .readMiss hp (by rw [hs])
    · contradiction
  | findStore i storeId =>
    obtain ⟨caller, hp, hs⟩ := Option.map_eq_some_iff.mp h
    split at hs <;> next hf =>
      subst hs
      first
      | exact .findHit hp hf
      | exact .findMiss hp hf
  | requestStore i storeId answer =>
    obtain ⟨caller, hp, hs⟩ := Option.map_eq_some_iff.mp h
    split at hs <;> next ha =>
      subst hs
      first
      | exact .requestStoreOk hp ha
      | exact .requestStoreErr hp ha
  | writeStore i storeId store =>
    simp only [step] at h
    split at h
    · next hp =>
      split_ifs at h with hr
      obtain ⟨rfl, rfl⟩ := hr
      obtain rfl := Option.some.inj h
      exact .writeStore hp
    · contradiction
  | dropContext i verId =>
    simp only [step] at h
    split at h
    · next hp =>
      split_ifs at h with hv
      subst hv
      obtain rfl := Option.some.inj h
      exact .dropContext hp
    · contradiction
  | dropRegion i verId =>
    simp only [step] at h
    split at h
    · next hp => obtain rfl := Option.some.inj h; exact .dropRegion hp
    · contradiction
  | updateRegionLeader i verId leaderStoreId t now =>
    simp only [step] at h
    split at h
    · next hp => obtain rfl := Option.some.inj h; exact .updateRegionLeader hp
    · contradiction

/-! ### What a step leaves -/

/-- A step moves its own client only. -/
theorem Step.phase_of_ne {s s' : Sys ι} {e : Event ι} (h : Step s e s') {j : ι} (hj : e.client ≠ j) :
    s'.phase j = s.phase j := by
  cases h <;> exact (s.goto_phase _ j _ _).trans (if_neg (Ne.symm hj))

/-- What brings client `j` into a phase within a call. -/
def Event.Enters (s : Sys ι) (j : ι) (e : Event ι) : Phase → Prop
  | .missed key => ∃ t now, e = .search j key t now ∧ (s.cache.searchCache key t now).1 = none
  | .loaded key r => ∃ answer, e = .request j key answer ∧ loadRegionFromPd (getRegionInner answer) = .ok r
  | .context verId ri =>
    ∃ t now, e = .readRegion j verId t now ∧ (s.cache.getCachedRegion verId t now).1 = some ri
  | .reloading storeId _ => e = .findStore j storeId ∧ s.cache.stores[storeId]? = none
  | .fetched storeId store _ =>
    ∃ answer, e = .requestStore j storeId answer ∧ getStoreByIdInner answer = .ok store
  | .idle _ | .dropping _ => True

/-- A client either does not move, or its step brings it where it is. -/
theorem Step.enters {s s' : Sys ι} {e : Event ι} (h : Step s e s') (j : ι) :
    (e.client ≠ j ∧ s'.phase j = s.phase j) ∨ (e.client = j ∧ e.Enters s j (s'.phase j)) := by
  by_cases hj : e.client = j
  · right
    subst hj
    refine ⟨rfl, ?_⟩
    cases h <;> simp only [Event.client, Sys.goto_phase_self]
    case searchMiss miss => exact ⟨_, _, rfl, miss⟩
    case requestOk ok => exact ⟨_, rfl, ok⟩
    case readHit hit => exact ⟨_, _, rfl, hit⟩
    case findMiss miss => exact ⟨rfl, miss⟩
    case requestStoreOk ok => exact ⟨_, rfl, ok⟩
    case findHit caller _ _ _ | requestStoreErr caller _ _ _ | writeStore caller _ =>
      rcases caller.resume_eq _ _ with ⟨ret, hr, _⟩ | ⟨v, hr⟩ <;> rw [hr] <;> trivial
    all_goals trivial
  · exact .inl ⟨hj, h.phase_of_ne hj⟩

theorem Step.cache {s s' : Sys ι} {e : Event ι} (h : Step s e s') :
    s'.cache = e.commit s.cache := by
  cases h <;> rfl

/-- The cache after a run is made by the commits of its trace, in order. -/
theorem run_cache {s s' : Sys ι} {tr : List (Event ι)} (h : run step s tr = some s') :
    s'.cache = tr.foldl (fun rc e => e.commit rc) s.cache := by
  refine run_induction (P := fun tr s' => s'.cache = tr.foldl (fun rc e => e.commit rc) s.cache)
    rfl (fun tr m e s' _ ih he => ?_) h
  rw [List.foldl_append, ← ih, (step_cases he).cache]
  rfl

end TikvCpp.RegionCache
