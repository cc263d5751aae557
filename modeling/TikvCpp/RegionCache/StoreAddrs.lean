import TikvCpp.RegionCache.Calls
import TikvCpp.RegionCache.Provenance
import TikvCpp.RegionCache.Waits

/-! The addresses in `stores_`. `get_rpc_context` takes an empty address for a sign
of something wrong, but `reload_store_addr` has stored it by then, and `stores_` has
no expiry and no removal: from the first empty answer on, the address stays empty
until someone asks PD again outside `get_rpc_context`. -/

namespace TikvCpp.RegionCache

open Data Transition PDClient

/-- Every cached store has an address. -/
def NonemptyAddrs (rc : RegionCache) : Prop :=
  ∀ (id : UInt64) (st : Store), rc.stores[id]? = some st → st.addr ≠ []

section Runs

variable {ι : Type}

/-- A store in `stores_` after an event was there before it and is not overwritten, or
is what the event writes. -/
theorem commit_stores {e : Event ι} {rc : RegionCache} {id : UInt64} {st : Store}
    (h : (e.commit rc).stores[id]? = some st) :
    (rc.stores[id]? = some st ∧ ∀ i st', e ≠ .writeStore i id st') ∨ ∃ i, e = .writeStore i id st := by
  cases e with
  | writeStore i storeId store =>
    simp only [Event.commit, OrdMap.get_insert] at h
    split_ifs at h with hid
    · rw [hid, Option.some.inj h]
      exact .inr ⟨i, rfl⟩
    · refine .inl ⟨h, fun j st' he => hid ?_⟩
      exact (Event.writeStore.inj he).2.1
  | insert | dropContext | dropRegion | updateRegionLeader =>
    exact .inl ⟨by simpa [Event.commit] using h, by simp⟩
  | search | request | readRegion | findStore | requestStore => exact .inl ⟨h, by simp⟩

variable [DecidableEq ι] {tr : List (Event ι)} {s : Sys ι}

/-- All stores written so far have addresses. -/
def WritesAddrs (tr : List (Event ι)) : Prop :=
  ∀ i id st, .writeStore i id st ∈ tr → st.addr ≠ []

theorem nonemptyAddrs (h : run step (Sys.init ι) tr = some s) (hw : WritesAddrs tr) :
    NonemptyAddrs s.cache := by
  refine run_induction (P := fun tr s => WritesAddrs tr → NonemptyAddrs s.cache) ?_ ?_ h hw
  · intro _ id st hst
    simp [Sys.init] at hst
  · intro tr m e m' _ ih he hw id st hst
    rw [(step_cases he).cache] at hst
    rcases commit_stores hst with ⟨hst, _⟩ | ⟨i, rfl⟩
    · exact ih (fun i id st hmem => hw i id st (List.mem_append_left _ hmem)) id st hst
    · exact hw i id st (by simp)

/-- A write leaves its store in `stores_`. -/
theorem stores_of_write {m m' : Sys ι} {i : ι} {id : UInt64} {st : Store}
    (he : step m (.writeStore i id st) = some m') : m'.cache.stores[id]? = some st := by
  rw [(step_cases he).cache]
  exact OrdMap.get_insert_self _ _ _

/-- PD has answered the store to a client that is about to write it. -/
theorem Step.fetched {s s' : Sys ι} {e : Event ι} (h : Step s e s') {j : ι} {id : UInt64} {st : Store}
    {caller : Caller} (hp : s'.phase j = .fetched id st caller) : s.phase j = .fetched id st caller ∨
      ∃ answer, e = .requestStore j id answer ∧ getStoreByIdInner answer = .ok st := by
  rcases h.enters j with ⟨_, hsame⟩ | ⟨_, hin⟩
  · exact .inl (hsame.symm.trans hp)
  · right
    rw [hp] at hin
    exact hin

theorem fetched_of_phase (h : run step (Sys.init ι) tr = some s) {i : ι} {id : UInt64} {st : Store}
    {caller : Caller} (hp : s.phase i = .fetched id st caller) :
    ∃ resp, .requestStore i id (.ok resp) ∈ tr ∧ resp.store.address = st.addr := by
  refine run_induction (P := fun tr s => s.phase i = .fetched id st caller →
    ∃ resp, .requestStore i id (.ok resp) ∈ tr ∧ resp.store.address = st.addr) ?_ ?_ h hp
  · intro hp
    simp [Sys.init] at hp
  · intro tr m e m' _ ih he hp
    rcases (step_cases he).fetched hp with hp | ⟨answer, rfl, hok⟩
    · obtain ⟨resp, hmem, ha⟩ := ih hp
      exact ⟨resp, List.mem_append_left _ hmem, ha⟩
    · cases answer with
      | error e => contradiction
      | ok resp =>
        obtain rfl := Except.ok.inj hok
        exact ⟨resp, by simp, (convertFromPb_addr _ _).symm⟩

/-- The address of every store written is one that PD answered. -/
theorem answer_of_write (h : run step (Sys.init ι) tr = some s) {i : ι} {id : UInt64} {st : Store}
    (hmem : .writeStore i id st ∈ tr) :
    ∃ resp, .requestStore i id (.ok resp) ∈ tr ∧ resp.store.address = st.addr := by
  obtain ⟨pre, post, rfl⟩ := List.append_of_mem hmem
  obtain ⟨m, m', hm, hstep, _⟩ := step_of_run h
  cases step_cases hstep with
  | writeStore hp =>
    obtain ⟨resp, hreq, ha⟩ := fetched_of_phase hm hp
    exact ⟨resp, List.mem_append_left _ hreq, ha⟩

end Runs

/-! ### Calls of `get_rpc_context` -/

/-- A call that asks PD and fails leaves `stores_` as it was, unless PD answered an
empty address. -/
theorem getRpcContext_error_stores {rc : RegionCache} {v : RegionVerID} {c : CachedRegion}
    {t now : Time} {ret : Except Error Store} {e : Error} (hc : rc.cachedRegions[v]? = some c)
    (hv : c.isValid t = true) (hst : rc.stores[c.region.leader.storeId]? = none)
    (h : (rc.getRpcContext v t now ret).1 = .error e) :
    (rc.getRpcContext v t now ret).2.stores = rc.stores ↔ ∀ store, ret = .ok store → store.addr ≠ [] := by
  rw [getRpcContext, getCachedRegion_eq, hc] at h ⊢
  simp only [Option.filter_some, hv, if_true, Option.map_some, getStoreAddr, hst] at h ⊢
  cases ret with
  | error e' => simp [reloadStoreAddr]
  | ok store =>
    by_cases ha : store.addr = []
    · -- the empty address has entered `stores_` where nothing was
      have hin : (rc.stores.insert c.region.leader.storeId store)[c.region.leader.storeId]? ≠
          rc.stores[c.region.leader.storeId]? := by
        rw [OrdMap.get_insert_self, hst]
        exact Option.some_ne_none store
      have hne : rc.stores.insert c.region.leader.storeId store ≠ rc.stores := fun heq => hin (by rw [heq])
      simp [reloadStoreAddr, ha, hne]
    · simp [reloadStoreAddr, ha] at h

/-- A call for a cached unexpired region whose leader's store is not cached asks PD,
and returns the address PD reports. -/
theorem getRpcContext_ok {rc : RegionCache} {v : RegionVerID} {c : CachedRegion} {t now : Time}
    {store : Store} (hc : rc.cachedRegions[v]? = some c) (hv : c.isValid t = true)
    (hst : rc.stores[c.region.leader.storeId]? = none) (ha : store.addr ≠ []) :
    (rc.getRpcContext v t now (.ok store)).1 = .ok (rpcContextOf c.region store.addr) := by
  simp [getRpcContext, getCachedRegion_eq, hc, hv, Option.filter_some, getStoreAddr, hst,
    reloadStoreAddr, ha]

/-! ### Runs without empty addresses -/

section Runs

variable {ι : Type} [DecidableEq ι] {tr : List (Event ι)} {s : Sys ι}

/-- The addresses in `stores_` are non-empty all along a run exactly if no empty one is
written; none is as long as PD answers none. A `get_rpc_context` that asks PD and fails
leaves `stores_` as it was exactly if PD did not answer an empty address, and while
the leader's store is not cached, a call returns the address that PD reports. -/
theorem stores_addr_iff (h : run step (Sys.init ι) tr = some s) :
    ((∀ pre s', pre <+: tr → run step (Sys.init ι) pre = some s' → NonemptyAddrs s'.cache) ↔
      WritesAddrs tr) ∧
    ((∀ i id resp, .requestStore i id (.ok resp) ∈ tr → resp.store.address ≠ []) → WritesAddrs tr) ∧
    (∀ (v : RegionVerID) (c : CachedRegion) (t now : Time) (ret : Except Error Store) (e : Error),
      s.cache.cachedRegions[v]? = some c → c.isValid t = true →
      s.cache.stores[c.region.leader.storeId]? = none →
      (s.cache.getRpcContext v t now ret).1 = .error e →
        ((s.cache.getRpcContext v t now ret).2.stores = s.cache.stores ↔
          ∀ store, ret = .ok store → store.addr ≠ [])) ∧
    (∀ (v : RegionVerID) (c : CachedRegion) (t now : Time) (store : Store),
      s.cache.cachedRegions[v]? = some c → c.isValid t = true →
      s.cache.stores[c.region.leader.storeId]? = none → store.addr ≠ [] →
        (s.cache.getRpcContext v t now (.ok store)).1 = .ok (rpcContextOf c.region store.addr)) := by
  refine ⟨⟨fun hall i id st hmem => ?_, fun hw pre s' hpre hs' => ?_⟩, fun ha i id st hmem => ?_,
    fun v c t now ret e hc hv hst he => getRpcContext_error_stores hc hv hst he,
    fun v c t now store hc hv hst ha => getRpcContext_ok hc hv hst ha⟩
  · obtain ⟨pre, post, rfl⟩ := List.append_of_mem hmem
    obtain ⟨m, m', hm, hstep, _⟩ := step_of_run h
    have hrun : run step (Sys.init ι) (pre ++ [.writeStore i id st]) = some m' :=
      run_snoc_eq_some.mpr ⟨m, hm, hstep⟩
    have hpre : pre ++ [.writeStore i id st] <+: pre ++ .writeStore i id st :: post := ⟨post, by simp⟩
    exact hall _ m' hpre hrun id st (stores_of_write hstep)
  · obtain ⟨post, rfl⟩ := hpre
    exact nonemptyAddrs hs' fun i id st hmem => hw i id st (List.mem_append_left _ hmem)
  · obtain ⟨resp, hreq, haddr⟩ := answer_of_write h hmem
    rw [← haddr]
    exact ha i id resp hreq

/-- Store 1 as PD reports it, with an address or not yet. -/
def answerStore (address : Str) : Pdpb.GetStoreResponse where
  store := { id := 1, address := address }

def storeAt (address : Str) : Store := { id := 1, state := .up, addr := address }

/-- A client loads a region and asks for its context while PD has `address` for the
leader's store. -/
def loadContext (address : Str) : List (Event Bool) :=
  [.search true [0x62] 5 5, .request true [0x62] (.ok answerAM),
    .insert true regionAM 5, .readRegion true regionAM.verId 6 6,
    .findStore true 1, .requestStore true 1 (.ok (answerStore address)), .writeStore true 1 (storeAt address)]

theorem loadContext_isSome : (run step (Sys.init Bool) (loadContext [0x78])).isSome := by decide

theorem stores_addr_iff_loadContext :
    WritesAddrs (loadContext [0x78]) ∧ ∃ s, run step (Sys.init Bool) (loadContext [0x78]) = some s ∧
      ∀ pre s', pre <+: loadContext [0x78] → run step (Sys.init Bool) pre = some s' →
        NonemptyAddrs s'.cache := by
  have h := (Option.some_get loadContext_isSome).symm
  have hw : WritesAddrs (loadContext [0x78]) := by
    refine (stores_addr_iff h).2.1 fun i id resp hmem => ?_
    simp only [loadContext, List.mem_cons, reduceCtorEq, Event.requestStore.injEq, false_or, or_false,
      List.not_mem_nil] at hmem
    obtain ⟨_, _, hr⟩ := hmem
    obtain rfl := Except.ok.inj hr
    decide
  exact ⟨hw, _, h, (stores_addr_iff h).1.mpr hw⟩

/-- PD has no address for the store yet; the failed call drops the region, and the
region is loaded again. -/
def loadWithoutAddr : List (Event Bool) :=
  loadContext [] ++
    [.dropContext true regionAM.verId, .search true [0x62] 7 7,
      .request true [0x62] (.ok answerAM), .insert true regionAM 7]

theorem loadWithoutAddr_isSome : (run step (Sys.init Bool) loadWithoutAddr).isSome := by decide

/-- The empty address stays in `stores_`, so the next call fails although PD has one by now. -/
theorem stores_addr_empty :
    ∃ s, run step (Sys.init Bool) loadWithoutAddr = some s ∧ ¬ NonemptyAddrs s.cache ∧
      (∃ c : CachedRegion, s.cache.cachedRegions[regionAM.verId]? = some c ∧
        c.isValid 8 = true ∧ c.region.leader.storeId = 1) ∧
      (s.cache.getRpcContext regionAM.verId 8 8 (.ok (storeAt [0x78]))).1 =
        .error outOfDate := by
  have h := (Option.some_get loadWithoutAddr_isSome).symm
  refine ⟨_, h, fun ha => ?_, ⟨_, rfl, by decide, rfl⟩, rfl⟩
  exact ha 1 (storeAt []) rfl rfl

/-- A client reloads the address of store 1 while PD has `address` for it, loads a region
led by the store, and asks for its context. The lookup finds the store. -/
def reloadContext (address : Str) : List (Event Bool) :=
  [.requestStore true 1 (.ok (answerStore address)), .writeStore true 1 (storeAt address),
    .search true [0x62] 5 5, .request true [0x62] (.ok answerAM),
    .insert true regionAM 5, .readRegion true regionAM.verId 6 6, .findStore true 1]

/-- The failed call drops the region, and the region is loaded again. -/
def reloadWithoutAddr : List (Event Bool) :=
  reloadContext [] ++
    [.dropContext true regionAM.verId, .search true [0x62] 7 7,
      .request true [0x62] (.ok answerAM), .insert true regionAM 7]

theorem reloadWithoutAddr_isSome : (run step (Sys.init Bool) reloadWithoutAddr).isSome := by decide

/-- The same calls under the locks, and the next one, for which PD has an address. -/
def reloadWithoutAddrCalls : List (Sync.Waiters.Event Bool Locks.Op Locks.Input) :=
  let e : Locks.Input := ⟨5, 5, .ok answerAM, .ok (answerStore [])⟩
  Locks.atOnce true (.reloadStoreAddr 1) 4 e ++ Locks.atOnce true (.locateKey [0x62]) 7 e ++
    Locks.atOnce true (.getRpcContext regionAM.verId) 9 e ++ Locks.atOnce true (.locateKey [0x62]) 7 e ++
    Locks.atOnce true (.getRpcContext regionAM.verId) 9 ⟨5, 5, .ok answerAM, .ok (answerStore [0x78])⟩

/-- It is the same if a call of `reload_store_addr` has stored the empty address. Then no lookup
of the run misses, and the locks let it pass. -/
theorem stores_addr_empty_reloaded :
    (∃ s, run step (Sys.init Bool) reloadWithoutAddr = some s ∧ ¬ NonemptyAddrs s.cache ∧
      (∃ c : CachedRegion, s.cache.cachedRegions[regionAM.verId]? = some c ∧
        c.isValid 8 = true ∧ c.region.leader.storeId = 1) ∧
      (s.cache.getRpcContext regionAM.verId 8 8 (.ok (storeAt [0x78]))).1 =
        .error outOfDate) ∧
    ∃ w, run (Sync.Waiters.step Locks.start) (Locks.initWaiting Bool) reloadWithoutAddrCalls = some w ∧
      ¬ NonemptyAddrs w.threads.state ∧
      w.threads.code true = .ret (some (.getRpcContext regionAM.verId (.error outOfDate))) := by
  have h := (Option.some_get reloadWithoutAddr_isSome).symm
  refine ⟨⟨_, h, fun ha => ?_, ⟨_, rfl, by decide, rfl⟩, rfl⟩, _, rfl, fun ha => ?_, rfl⟩
  · exact ha 1 (storeAt []) rfl rfl
  · exact ha 1 (storeAt []) rfl rfl

end Runs

end TikvCpp.RegionCache
