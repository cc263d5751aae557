import TikvCpp.RegionCache.Clients

/-! A call that no other client interrupts. The steps of one client, taken in a
row from outside any call, compute what the function of that call computes. -/

namespace TikvCpp.RegionCache

open Data Transition PDClient

variable {ι : Type} [DecidableEq ι] {s : Sys ι} {i : ι} {last : Option Return}

/-- `locate_key` in a row. -/
theorem run_locateKey (hp : s.phase i = .idle last) (key : Str) (cacheHit : Bool) (t now : Time)
    (answer : Except Error Pdpb.GetRegionResponse) (insertedAt : Time) :
    ∃ tr hit, (∀ e ∈ tr, e.client = i) ∧
      let call := s.cache.locateKey key cacheHit t now (getRegionInner answer) insertedAt
      run step s tr = some (s.goto i call.2 (.idle (some (.locateKey key call.1.1 hit)))) ∧
        call.1.2 = hit.getD cacheHit := by
  cases hs : s.cache.searchCache key t now with
  | mk found cache =>
    have hcache : cache = s.cache := by simpa [hs] using s.cache.searchCache_snd key t now
    subst hcache
    cases found with
    | some cached =>
      refine ⟨[.search i key t now], some true, by simp [Event.client], ?_⟩
      simp [locateKey, step, hp, hs]
    | none =>
      cases hl : loadRegionFromPd (getRegionInner answer) with
      | ok r =>
        refine ⟨[.search i key t now, .request i key answer, .insert i r insertedAt], some false,
          by simp [Event.client], ?_⟩
        simp [locateKey, step, hp, hs, hl]
      | error e =>
        refine ⟨[.search i key t now, .request i key answer], none, by simp [Event.client], ?_⟩
        simp [locateKey, step, hp, hs, hl]

/-- `get_rpc_context` in a row. -/
theorem run_getRpcContext (hp : s.phase i = .idle last) (verId : RegionVerID) (t now : Time)
    (answer : Except Error Pdpb.GetStoreResponse) :
    ∃ tr, (∀ e ∈ tr, e.client = i) ∧
      let call := s.cache.getRpcContext verId t now (getStoreByIdInner answer)
      run step s tr = some (s.goto i call.2 (.idle (some (.getRpcContext verId call.1)))) := by
  cases hg : s.cache.getCachedRegion verId t now with
  | mk found cache =>
    have hcache : cache = s.cache := by simpa [hg] using s.cache.getCachedRegion_snd verId t now
    subst hcache
    cases found with
    | none =>
      refine ⟨[.readRegion i verId t now], by simp [Event.client], ?_⟩
      simp [getRpcContext, step, hp, hg]
    | some ri =>
      cases hst : s.cache.stores[ri.leader.storeId]? with
      | some it =>
        by_cases ha : it.addr = []
        · refine ⟨[.readRegion i verId t now, .findStore i ri.leader.storeId, .dropContext i verId],
            by simp [Event.client], ?_⟩
          simp [getRpcContext, getStoreAddr, step, hp, hg, hst, Phase.caller, Caller.resume, ha]
        · refine ⟨[.readRegion i verId t now, .findStore i ri.leader.storeId], by simp [Event.client], ?_⟩
          simp [getRpcContext, getStoreAddr, step, hp, hg, hst, Phase.caller, Caller.resume, ha]
      | none =>
        cases hret : getStoreByIdInner answer with
        | error e =>
          refine ⟨[.readRegion i verId t now, .findStore i ri.leader.storeId,
            .requestStore i ri.leader.storeId answer], by simp [Event.client], ?_⟩
          simp [getRpcContext, getStoreAddr, reloadStoreAddr, step, hp, hg, hst, hret, Phase.caller,
            Phase.reloader, Caller.resume]
        | ok store =>
          by_cases ha : store.addr = []
          · refine ⟨[.readRegion i verId t now, .findStore i ri.leader.storeId,
              .requestStore i ri.leader.storeId answer, .writeStore i ri.leader.storeId store,
              .dropContext i verId], by simp [Event.client], ?_⟩
            simp [getRpcContext, getStoreAddr, reloadStoreAddr, step, hp, hg, hst, hret, Phase.caller,
              Phase.reloader, Caller.resume, ha]
          · refine ⟨[.readRegion i verId t now, .findStore i ri.leader.storeId,
              .requestStore i ri.leader.storeId answer, .writeStore i ri.leader.storeId store],
              by simp [Event.client], ?_⟩
            simp [getRpcContext, getStoreAddr, reloadStoreAddr, step, hp, hg, hst, hret, Phase.caller,
              Phase.reloader, Caller.resume, ha]

end TikvCpp.RegionCache
