import TikvCpp.RegionCache.Leaders
import TikvCpp.RegionCache.Waits

/-! The store that `update_region_leader` switches to. Peers and `switch_leader` have
64-bit store ids, but `update_region_leader` takes a `uint16_t`: what it looks for among
the peers is the store id modulo 2^16. From 2^16 on it misses the store, or finds the
store of another peer. Either is harmless only if the region has the right leader
already. Nothing but the leader of the one region changes. The next context for the
region has the address of the new leader's store as soon as `stores_` has one. -/

namespace TikvCpp

namespace Region

/-- The last peer that a scan matches. -/
def lastMatch (r : Region) (f : Peer → Bool) : Option Peer := (r.peers.filter f).getLast?

/-- The scan ends at the last match, or leaves the leader alone. -/
theorem switchLeaderTo_leader_eq (r : Region) (f : Peer → Bool) :
    (r.switchLeaderTo f).leader = (r.lastMatch f).getD r.leader := by
  simp only [switchLeaderTo, lastMatch]
  induction r.peers using List.reverseRecOn with
  | nil => rfl
  | append_singleton ps p ih =>
    simp only [List.foldl_append, List.foldl_cons, List.foldl_nil, List.filter_append, ih]
    by_cases hp : f p = true <;> simp [hp]

theorem lastMatch_eq_none {r : Region} {f : Peer → Bool} :
    r.lastMatch f = none ↔ ∀ p ∈ r.peers, f p = false := by
  simp [lastMatch]

theorem mem_of_lastMatch {r : Region} {f : Peer → Bool} {p : Peer} (h : r.lastMatch f = some p) :
    p ∈ r.peers ∧ f p = true := List.mem_filter.mp (List.mem_of_getLast? h)

end Region

namespace RegionCache

open Data Transition

/-- The store id that `update_region_leader` searches for when it is called with `storeId`. -/
def narrowed (storeId : UInt64) : UInt64 := storeId.toUInt16.toUInt64

theorem narrowed_eq_iff {storeId : UInt64} : narrowed storeId = storeId ↔ storeId.toNat < 2 ^ 16 := by
  rw [← UInt64.toNat_inj]
  show storeId.toNat % 2 ^ 16 = storeId.toNat ↔ _
  omega

/-- The last peer of the region on a store. -/
def lastPeerOn (R : Region) (storeId : UInt64) : Option Peer := R.lastMatch fun p => p.storeId == storeId

theorem lastPeerOn_eq_none {R : Region} {storeId : UInt64} :
    lastPeerOn R storeId = none ↔ ∀ p ∈ R.peers, p.storeId ≠ storeId := by
  simp [lastPeerOn, Region.lastMatch_eq_none]

theorem mem_of_lastPeerOn {R : Region} {storeId : UInt64} {p : Peer} (h : lastPeerOn R storeId = some p) :
    p ∈ R.peers ∧ p.storeId = storeId := by simpa using Region.mem_of_lastMatch h

theorem switchLeader_leader (R : Region) (storeId : UInt64) :
    (R.switchLeader storeId).leader = (lastPeerOn R storeId).getD R.leader :=
  R.switchLeaderTo_leader_eq _

section Steps

variable {ι : Type} [DecidableEq ι] {s s' : Sys ι}

/-- The next `get_rpc_context`, made by any client and finding `v` unexpired, returns the address
that `stores_` has for this store, and does not ask PD. -/
structure Resolves (s : Sys ι) (v : RegionVerID) (storeId : UInt64) : Prop where
  returns : ∀ j last t now ri, s.phase j = .idle last → (s.cache.getCachedRegion v t now).1 = some ri →
    ∃ (it : Store) (ctx : RpcContext), s.cache.stores[storeId]? = some it ∧ ctx.addr = it.addr ∧
      run step s [.readRegion j v t now, .findStore j ri.leader.storeId] =
        some (s.goto j s.cache (.idle (some (.getRpcContext v (.ok ctx)))))
  /-- So it does under the locks, whenever this is the cache and no client is in a call. -/
  unlocked : ∀ tr (w : Locks.Waiting ι) j (e : Locks.Input) ri,
    run (Sync.Waiters.step Locks.start) (Locks.initWaiting ι) tr = some w → w.threads.state = s.cache →
    (∀ i, ∃ ret, w.threads.code i = .ret ret) → (s.cache.getCachedRegion v e.t e.now).1 = some ri →
      ∃ (it : Store) (ctx : RpcContext) (w' : Locks.Waiting ι), s.cache.stores[storeId]? = some it ∧
        ctx.addr = it.addr ∧
        run (Sync.Waiters.step Locks.start) w (Locks.atOnce j (.getRpcContext v) 6 e) = some w' ∧
        w'.threads.code j = .ret (some (.getRpcContext v (.ok ctx)))

/-- A store is in `stores_`, and has an address there. -/
def HasAddr (rc : RegionCache) (storeId : UInt64) : Prop :=
  ∃ it : Store, rc.stores[storeId]? = some it ∧ it.addr ≠ []

/-- The update to a store of the region `R` cached under `v`, as its caller means it. -/
structure LeaderExact (s s' : Sys ι) (v : RegionVerID) (R : Region) (storeId : UInt64) : Prop where
  moved : (∃ p ∈ R.peers, p.storeId = storeId) →
    (∃ c : CachedRegion, s'.cache.cachedRegions[v]? = some c ∧ c.region.leader ∈ R.peers ∧
      c.region.leader.storeId = storeId) ∧ Resolves s' v storeId
  unmoved : (∀ p ∈ R.peers, p.storeId ≠ storeId) →
    ∃ c : CachedRegion, s'.cache.cachedRegions[v]? = some c ∧ c.region.leader = R.leader
  region : ∃ c : CachedRegion, s'.cache.cachedRegions[v]? = some c ∧ c.region.keyLoc = R.keyLoc ∧
    c.region.peers = R.peers
  sorted : s'.cache.sorted = s.cache.sorted
  others : ∀ w, w ≠ v → s'.cache.cachedRegions[w]? = s.cache.cachedRegions[w]?

/-- The conversion to `uint16_t` does not show: the store id fits, or no peer is on the
narrowed store and the leader is on the wanted one if any peer is, or no peer is on the
wanted store and the last one on the narrowed store leads already. -/
def NarrowingHarmless (R : Region) (storeId : UInt64) : Prop :=
  storeId.toNat < 2 ^ 16 ∨
  ((∀ p ∈ R.peers, p.storeId ≠ narrowed storeId) ∧
    ((∃ p ∈ R.peers, p.storeId = storeId) → R.leader ∈ R.peers ∧ R.leader.storeId = storeId)) ∨
  (∀ p ∈ R.peers, p.storeId ≠ storeId) ∧ lastPeerOn R (narrowed storeId) = some R.leader

/-- The two steps of a call whose store is in `stores_`, or the first two of one that misses it. -/
theorem run_readFind {j : ι} {last : Option Return} (hp : s.phase j = .idle last) {v : RegionVerID} {t now : Time}
    {ri : Region} (hread : (s.cache.getCachedRegion v t now).1 = some ri) :
    run step s [.readRegion j v t now, .findStore j ri.leader.storeId] = some (s.goto j s.cache
      (match s.cache.stores[ri.leader.storeId]? with
        | some it => (Caller.getRpcContext v ri).resume ri.leader.storeId (.ok it.addr)
        | none => .reloading ri.leader.storeId (.getRpcContext v ri))) := by
  have hfound : s.cache.getCachedRegion v t now = (some ri, s.cache) :=
    Prod.ext hread (s.cache.getCachedRegion_snd v t now)
  have hcopied : step s (.readRegion j v t now) = some (s.goto j s.cache (.context v ri)) := by
    simp only [step, hp, hfound]
  rw [run_cons, hcopied, Option.bind_some, run_cons]
  simp only [step, Sys.goto_phase_self, Phase.caller, if_true, Option.map_some, Sys.goto_cache]
  cases s.cache.stores[ri.leader.storeId]? with
  | some it =>
    dsimp only
    rw [Sys.goto_goto]
    rfl
  | none =>
    dsimp only
    rw [Sys.goto_goto]
    rfl

/-- While `stores_` has an address for the leader's store, the next call returns it. -/
theorem resolves_of_addr {v : RegionVerID} {c : CachedRegion} (hc : s.cache.cachedRegions[v]? = some c)
    (haddr : HasAddr s.cache c.region.leader.storeId) : Resolves s v c.region.leader.storeId := by
  obtain ⟨it, hit, hne⟩ := haddr
  have hread_region : ∀ {t now : Time} {ri : Region}, (s.cache.getCachedRegion v t now).1 = some ri → ri = c.region := by
    intro t now ri hread
    obtain ⟨d, hd, -, rfl⟩ := getCachedRegion_eq_some.mp hread
    rw [Option.some.inj (hd.symm.trans hc)]
  constructor
  · intro j last t now ri hp hread
    obtain rfl := hread_region hread
    refine ⟨it, rpcContextOf c.region it.addr, hit, rfl, ?_⟩
    have hlen : it.addr.length ≠ 0 := fun h => hne (List.length_eq_zero_iff.mp h)
    rw [run_readFind hp hread, hit]
    simp only [Caller.resume, hlen, if_false]
  · intro tr w j e ri hrun hcache hout hread
    obtain rfl := hread_region hread
    rw [← hcache] at hread hit
    obtain ⟨w', hcall, hret⟩ := Locks.getRpcContext_answers hrun hout j hread hit hne
    exact ⟨it, rpcContextOf c.region it.addr, w', hcache ▸ hit, rfl, hcall, hret⟩

/-- It returns an address only if `stores_` has one that is not empty. -/
theorem Resolves.hasAddr {v : RegionVerID} {storeId : UInt64} (h : Resolves s v storeId) {c : CachedRegion}
    (hc : s.cache.cachedRegions[v]? = some c) {t : Time} (hv : c.isValid t = true)
    (hleader : c.region.leader.storeId = storeId) {i : ι} {last : Option Return} (hp : s.phase i = .idle last) :
    HasAddr s.cache storeId := by
  have hread : (s.cache.getCachedRegion v t t).1 = some c.region :=
    getCachedRegion_eq_some.mpr ⟨c, hc, hv, rfl⟩
  obtain ⟨it, ctx, hit, -, hrun⟩ := h.returns i last t t c.region hp hread
  refine ⟨it, hit, fun hempty => ?_⟩
  -- with an empty address the call would go on to drop its region
  rw [run_readFind hp hread, hleader, hit] at hrun
  have hphase := congrArg (fun s' : Sys ι => s'.phase i) (Option.some.inj hrun)
  simp [Sys.goto_phase_self, Caller.resume, hempty] at hphase

/-- What is cached after the update. -/
theorem cachedRegions_of_update {i : ι} {v : RegionVerID} {st : UInt16} {t now : Time} {c : CachedRegion}
    (hc : s.cache.cachedRegions[v]? = some c) (hv : c.isValid t = true)
    (hs : step s (.updateRegionLeader i v st t now) = some s') :
    s'.cache.cachedRegions[v]? = some { c with region := c.region.switchLeader st.toUInt64 } := by
  rw [(step_cases hs).cache]
  simp only [Event.commit, updateRegionLeader_cachedRegions, hc, Option.map_some, hv, and_self, if_true]

/-- The frame of the update holds for every store id, so all turns on the leader and its address. -/
theorem leaderExact_iff {i : ι} {v : RegionVerID} {st : UInt64} {t now : Time} {c : CachedRegion}
    (hc : s.cache.cachedRegions[v]? = some c) (hv : c.isValid t = true)
    (hs : step s (.updateRegionLeader i v st.toUInt16 t now) = some s') :
    LeaderExact s s' v c.region st ↔
      (((∃ p ∈ c.region.peers, p.storeId = st) → ((lastPeerOn c.region (narrowed st)).getD c.region.leader) ∈
        c.region.peers ∧ ((lastPeerOn c.region (narrowed st)).getD c.region.leader).storeId = st) ∧
      ((∀ p ∈ c.region.peers, p.storeId ≠ st) →
        (lastPeerOn c.region (narrowed st)).getD c.region.leader = c.region.leader)) ∧
      ((∃ p ∈ c.region.peers, p.storeId = st) → HasAddr s.cache st) := by
  have hafter := cachedRegions_of_update hc hv hs
  have hleader := switchLeader_leader c.region (narrowed st)
  have hstores : s'.cache.stores = s.cache.stores := by
    rw [(step_cases hs).cache]
    exact s.cache.updateRegionLeader_stores _ _ _ _
  constructor
  · intro h
    refine ⟨⟨fun hp => ?_, fun hp => ?_⟩, fun hp => ?_⟩
    · obtain ⟨⟨d, hd, hmem, hst⟩, _⟩ := h.moved hp
      obtain rfl := Option.some.inj (hafter.symm.trans hd)
      rw [← hleader]
      exact ⟨hmem, hst⟩
    · obtain ⟨d, hd, heq⟩ := h.unmoved hp
      obtain rfl := Option.some.inj (hafter.symm.trans hd)
      rw [← hleader]
      exact heq
    · obtain ⟨⟨d, hd, _, hst⟩, hres⟩ := h.moved hp
      obtain rfl := Option.some.inj (hafter.symm.trans hd)
      obtain ⟨last, hidle⟩ : ∃ last, s'.phase i = .idle last := by
        cases step_cases hs
        exact ⟨_, Sys.goto_phase_self _ _ _ _⟩
      have haddr := hres.hasAddr hafter hv hst hidle
      unfold HasAddr at haddr
      rwa [hstores] at haddr
  · rintro ⟨⟨hmoved, hunmoved⟩, haddr⟩
    rw [← hleader] at hmoved hunmoved
    refine ⟨fun hp => ?_, fun hp => ⟨_, hafter, hunmoved hp⟩, ⟨_, hafter, rfl, rfl⟩, ?_, fun w hw => ?_⟩
    · obtain ⟨hmem, hst⟩ := hmoved hp
      have haddr' : HasAddr s'.cache (c.region.switchLeader (narrowed st)).leader.storeId := by
        unfold HasAddr
        rw [hstores, hst]
        exact haddr hp
      have hres := resolves_of_addr hafter haddr'
      exact ⟨⟨_, hafter, hmem, hst⟩, hst ▸ hres⟩
    · rw [(step_cases hs).cache]
      exact updateRegionLeader_sorted _ _ _ _ _
    · rw [(step_cases hs).cache]
      simp only [Event.commit, updateRegionLeader_cachedRegions, Ne.symm hw, false_and, if_false,
        Option.map_id']

/-- Where the scan ends at the right leader. -/
theorem narrowingHarmless_iff (R : Region) (st : UInt64) :
    (((∃ p ∈ R.peers, p.storeId = st) → ((lastPeerOn R (narrowed st)).getD R.leader) ∈ R.peers ∧
        ((lastPeerOn R (narrowed st)).getD R.leader).storeId = st) ∧
      ((∀ p ∈ R.peers, p.storeId ≠ st) → (lastPeerOn R (narrowed st)).getD R.leader = R.leader)) ↔
      NarrowingHarmless R st := by
  rw [NarrowingHarmless, ← narrowed_eq_iff]
  by_cases hfit : narrowed st = st
  · rw [hfit]
    refine iff_of_true ⟨fun ⟨p, hp, hst⟩ => ?_, fun hp => ?_⟩ (.inl rfl)
    · cases hl : lastPeerOn R st with
      | none => exact absurd hst (lastPeerOn_eq_none.mp hl p hp)
      | some q => exact mem_of_lastPeerOn hl
    · rw [lastPeerOn_eq_none.mpr hp, Option.getD_none]
  · simp only [hfit, false_or]
    cases hl : lastPeerOn R (narrowed st) with
    | none =>
      -- the scan misses and the leader stays
      have hnone := lastPeerOn_eq_none.mp hl
      simp only [Option.getD_none, reduceCtorEq, and_false, or_false, implies_true, and_true]
      exact ⟨fun h => ⟨hnone, h⟩, And.right⟩
    | some q =>
      -- the scan finds a peer, and not on the wanted store
      obtain ⟨hmem, hst⟩ := mem_of_lastPeerOn hl
      have hne : q.storeId ≠ st := hst ▸ hfit
      have hon : ¬ ∀ p ∈ R.peers, p.storeId ≠ narrowed st := fun h => h q hmem hst
      simp only [Option.getD_some, hne, and_false, hon, false_and, false_or, Option.some.injEq]
      constructor
      · rintro ⟨h, h'⟩
        have hall : ∀ p ∈ R.peers, p.storeId ≠ st := fun p hp hp' => h ⟨p, hp, hp'⟩
        exact ⟨hall, h' hall⟩
      · rintro ⟨hall, heq⟩
        exact ⟨fun ⟨p, hp, hp'⟩ => hall p hp hp', fun _ => heq⟩

/-- PD's region of the keys from `a` to `m` with a peer on a store beyond 2^16, led by the other. -/
def answerWide : Pdpb.GetRegionResponse where
  region :=
    { id := 2, startKey := [0x61], endKey := [0x6d], regionEpoch := { confVer := 1, version := 1 }
      peers := [{ id := 21, storeId := 65537 }, { id := 22, storeId := 4 }] }
  leader := { id := 22, storeId := 4 }

def regionWide : Region where
  verId := { id := 2, confVer := 1, ver := 1 }
  startKey := [0x61]
  endKey := [0x6d]
  peers := [{ id := 21, storeId := 65537 }, { id := 22, storeId := 4 }]
  leader := { id := 22, storeId := 4 }

def loadWide : List (Event Bool) :=
  [.search true [0x62] 5 5, .request true [0x62] (.ok answerWide), .insert true regionWide 5]

theorem loadWide_isSome : (run step (Sys.init Bool) loadWide).isSome := by decide

end Steps

end RegionCache

end TikvCpp
