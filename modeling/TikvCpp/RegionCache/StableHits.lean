import TikvCpp.RegionCache.SplitCluster

/-! Stable hits in front of a cluster that only splits. What keeps a loaded bounded
region in reach of the search is that no entry of `sorted_` ends strictly inside it.
At the load this holds because all entries end at boundaries of the cluster; later it
holds because every region of the cluster lies inside or outside the loaded range, a
load happens only after a miss, and a key inside the range does not miss. -/

namespace TikvCpp.RegionCache

open Data Transition PDClient

variable {ι : Type} [DecidableEq ι]

/-! ### Boundaries -/

/-- All entries end at a boundary of the cluster or are unbounded. -/
def Boundaries (d : Deployment ι) : Prop :=
  ∀ (e : Str) (R : Region), d.sys.cache.sorted[e]? = some R →
    e = [] ∨ ∃ (a : UInt64) (r : Region), d.cluster.regions[a]? = some r ∧ r.startKey = e

omit [DecidableEq ι] in
/-- What the loader accepts from an answer served is a region of the cluster that
holds the key. -/
theorem served_region {c : Cluster} {key : Str} {answer : Except Error Pdpb.GetRegionResponse}
    (hs : c.Serves key answer = true) {r : Region}
    (hr : loadRegionFromPd (getRegionInner answer) = .ok r) :
    r.contains key = true ∧ ∃ (a : UInt64) (q : Region), c.regions[a]? = some q ∧ q.keyLoc = r.keyLoc := by
  obtain ⟨resp, rfl, hk⟩ := loadRegionFromPd_ok hr
  simp only [Cluster.Serves, Bool.and_eq_true, decide_eq_true_eq] at hs
  refine ⟨by rw [← contains_of_keyLoc_eq hk]; exact hs.2, ?_⟩
  rw [hk] at hs
  exact Cluster.mem_locs.mp hs.1

theorem Boundaries.step {d d' : Deployment ι} {op : Op ι} (hb : Boundaries d) (hc : d.cluster.Cuts)
    (h : d.step op = some d') : Boundaries d' := by
  intro e R hR
  cases Deployment.step_cases h with
  | @split i j key _ _ c r old new hinto =>
    rcases hb e R hR with he | ⟨a, q, hq, hqe⟩
    · exact .inl he
    right
    -- the region that begins at the boundary still does
    by_cases hi : i = a
    · refine ⟨i, old, hinto.get_old, ?_⟩
      obtain rfl : q = r := Option.some.inj (hq.symm.trans (hi ▸ hinto.region))
      rw [hinto.old_eq, ← hqe]
      rfl
    · have hj : j ≠ a := by
        intro hj
        rw [← hj, hinto.fresh] at hq
        contradiction
      exact ⟨a, q, by rw [hinto.get_other hj hi, hq], hqe⟩
  | locateKey hserves _ hsys =>
    cases (locateKey_spec hsys).1 with
    | hit found => exact hb e R hR
    | error missed err => exact hb e R hR
    | @load r missed ok =>
      rw [Sys.goto_cache, insertRegionToCache_sorted] at hR
      split_ifs at hR with he
      · obtain ⟨_, a, q, hq, hqr⟩ := served_region hserves ok
        obtain ⟨_, _, hqe⟩ := keyLoc_eq_iff.mp hqr
        by_cases hempty : e = []
        · exact .inl hempty
        · rw [← he, ← hqe] at hempty ⊢
          exact .inr (hc.end_is_start hq hempty)
      · exact hb e R hR
  | other _ _ hsys =>
    rw [(step_cases hsys).cache] at hR
    rcases commit_sorted hR with ⟨hR, _⟩ | ⟨i, now, rfl, _⟩
    · exact hb e R hR
    · contradiction

theorem boundaries {c : Cluster} (hc : c.Cuts) {tr : List (Op ι)} {d : Deployment ι}
    (h : run Deployment.step (Deployment.init ι c) tr = some d) : Boundaries d := by
  refine run_induction (P := fun _ d => Boundaries d) ?_ ?_ h
  · intro e R hR
    simp [Deployment.init, Sys.init] at hR
  · intro tr m op m' hrun ih hs
    exact ih.step (sound hc hrun).cuts hs

/-! ### A range in reach -/

/-- The clock does not go back. -/
theorem clock_le {d d' : Deployment ι} {op : Op ι} (h : d.step op = some d') : d.clock ≤ d'.clock := by
  cases Deployment.step_cases h with
  | split _ => exact le_rfl
  | locateKey _ hclock _ => exact (advance_eq_some hclock).1
  | other _ hclock _ => exact (advance_eq_some hclock).1

/-- The operation drops version `v`. -/
def Op.Drops (v : RegionVerID) : Op ι → Prop
  | .other e => e.Drops v
  | _ => False

/-- The range loaded at `t` is cached under its version since then, no entry ends
strictly inside it, and the regions of the cluster lie inside or outside it. -/
structure InReach (loc : KeyLoc) (t : Time) (rc : RegionCache) (cl : Cluster) : Prop where
  start_mem : loc.contains loc.startKey = true
  cached : ∃ c : CachedRegion, rc.cachedRegions[loc.regionVerId]? = some c ∧ c.region.keyLoc = loc ∧
    c.lastAccess = t.toUInt64
  clear : ∀ (e : Str) (R : Region), rc.sorted[e]? = some R → ¬ (loc.startKey < e ∧ e < loc.endKey)
  nested : ∀ (a : UInt64) (r : Region), cl.regions[a]? = some r →
    (∀ k, r.contains k = true → loc.contains k = true) ∨ ∀ k, r.contains k = true → ¬ loc.contains k = true

variable {loc : KeyLoc} {t : Time} {d d' : Deployment ι}

/-- The search finds a range in reach, until it expires. -/
theorem InReach.hit {rc : RegionCache} {cl : Cluster} (h : InReach loc t rc cl) (ho : Owned rc)
    (hb : loc.endKey ≠ []) {key : Str} (hk : loc.contains key = true) {t' : Time}
    (ht : t.secs ≤ t'.secs ∧ t'.secs < t.secs + 600) (now : Time) :
    ∃ R, (rc.searchCache key t' now).1 = some R ∧ R.keyLoc = loc := by
  obtain ⟨c, hc, rfl, hla⟩ := h.cached
  obtain ⟨R, hR, hRc⟩ := ho.cached_sorted _ c hc
  have hin := KeyLoc.contains_iff.mp hk
  have hlt : key < c.region.endKey := hin.2.resolve_right hb
  have hub : rc.sorted.upperBound key = some (c.region.endKey, R) := by
    refine OrdMap.upperBound_eq_some.mpr ⟨hR, hlt, fun e S hS hke => ?_⟩
    by_contra hle
    exact h.clear e S hS ⟨hin.1.trans_lt hke, not_le.mp hle⟩
  have hcached : rc.cachedRegions[R.verId]? = some c := by
    rw [(keyLoc_eq_iff.mp hRc).1]
    exact hc
  have hkey : R.contains key = true := by
    rw [contains_of_keyLoc_eq hRc]
    exact hk
  have hvalid := (CachedRegion.isValid_iff hla).mpr ht
  exact ⟨c.region, searchCache_found.mpr ⟨c.region.endKey, R, c, hub, hkey, hcached, hvalid, rfl⟩, rfl⟩

omit [DecidableEq ι] in
/-- A region just loaded from the cluster is in reach. -/
theorem inReach_of_load (hs : Sound d) (hbd : Boundaries d) {key : Str}
    {answer : Except Error Pdpb.GetRegionResponse} (hserves : d.cluster.Serves key answer = true)
    {r : Region} (ok : loadRegionFromPd (getRegionInner answer) = .ok r) (t : Time) :
    InReach r.keyLoc t (d.sys.cache.insertRegionToCache r t) d.cluster := by
  obtain ⟨_, a, q, hq, hqr⟩ := served_region hserves ok
  obtain ⟨_, hqs, hqe⟩ := keyLoc_eq_iff.mp hqr
  refine ⟨?_, ⟨{ region := r, lastAccess := t.toUInt64 }, ?_, rfl, rfl⟩, fun e R hR hin => ?_, fun b r' hr' => ?_⟩
  · have hstart := hs.cuts.start_mem a q hq
    rw [contains_of_keyLoc_eq hqr, hqs] at hstart
    exact hstart
  · rw [insertRegionToCache_cachedRegions]
    exact if_pos rfl
  · rw [insertRegionToCache_sorted] at hR
    split_ifs at hR with he
    · exact absurd hin.2 (he ▸ lt_irrefl _)
    · rcases hbd e R hR with rfl | ⟨b, r', hr', hre⟩
      · exact not_lt_bot hin.1
      · rw [← hre] at hin
        have hlo : q.startKey < r'.startKey := hqs ▸ hin.1
        have hhi : r'.startKey < q.endKey := hqe ▸ hin.2
        exact hs.cuts.no_start_inside hq hr' hlo hhi
  · by_cases hab : a = b
    · left
      intro k hk
      rw [Region.keyLoc_contains, ← contains_of_keyLoc_eq hqr]
      rw [← hab, hq] at hr'
      rw [Option.some.inj hr']
      exact hk
    · right
      intro k hk hk'
      rw [Region.keyLoc_contains, ← contains_of_keyLoc_eq hqr] at hk'
      exact hab (hs.cuts.unique a b q r' k hq hr' hk' hk)

omit [DecidableEq ι] in
/-- A load of a region outside a range leaves the range in reach. -/
theorem InReach.load (h : InReach loc t d.sys.cache d.cluster) (hs : Sound d)
    {key : Str} {answer : Except Error Pdpb.GetRegionResponse}
    (hserves : d.cluster.Serves key answer = true) {r : Region}
    (ok : loadRegionFromPd (getRegionInner answer) = .ok r) (hk : ¬ loc.contains key = true) (now : Time) :
    InReach loc t (d.sys.cache.insertRegionToCache r now) d.cluster := by
  obtain ⟨hkey, a, q, hq, hqr⟩ := served_region hserves ok
  obtain ⟨c, hc, hcl, hla⟩ := h.cached
  have hout : ∀ k, r.contains k = true → ¬ loc.contains k = true := by
    intro k hk'
    rw [← contains_of_keyLoc_eq hqr] at hkey hk'
    rcases h.nested a q hq with hin | hout
    · exact absurd (hin key hkey) hk
    · exact hout k hk'
  have hver : r.verId ≠ loc.regionVerId := by
    intro hv
    have hloc := hs.range _ c r hc (Cluster.mem_locs.mpr ⟨a, q, hq, hqr⟩) hv.symm
    rw [hcl] at hloc
    rw [hloc] at hk
    exact hk hkey
  have hin := Region.contains_iff.mp hkey
  -- so the loaded region ends neither strictly inside the range nor where it ends
  have hends : ¬ (loc.startKey < r.endKey ∧ r.endKey < loc.endKey) := by
    rintro ⟨hlo, hhi⟩
    have hstart := KeyLoc.contains_iff.mp h.start_mem
    obtain ⟨y, hy, hy'⟩ := Order.exists_common_of_end_inside hstart hin hlo (.inl hhi.le)
    exact hout y (Region.contains_iff.mpr hy') (KeyLoc.contains_iff.mpr hy)
  have hend : r.endKey ≠ c.region.endKey := by
    intro he
    have hce : c.region.endKey = loc.endKey := congrArg KeyLoc.endKey hcl
    have hstart := KeyLoc.contains_iff.mp h.start_mem
    rw [← hce, ← he] at hstart
    obtain ⟨y, hy, hy'⟩ := Order.exists_common_of_same_end hstart hin
    rw [he, hce] at hy
    exact hout y (Region.contains_iff.mpr hy') (KeyLoc.contains_iff.mpr hy)
  have hkept := hs.agreement.commit_kept (e := .insert () r now) hc id fun i r' t' hins _ => by
    obtain ⟨_, rfl, _⟩ := Event.insert.inj hins
    exact hend
  refine ⟨h.start_mem, ?_, fun e R hR hbetween => ?_, h.nested⟩
  · obtain ⟨c', hc', ⟨hloc, hla'⟩ | ⟨i, t', hins⟩⟩ := hkept
    · exact ⟨c', hc', hloc.trans hcl, hla'.trans hla⟩
    · obtain ⟨_, hr, _⟩ := Event.insert.inj hins
      have hver' := (hs.agreement.toOwned.insert r now).cached_ver _ c' hc'
      exact absurd (hr ▸ hver') hver
  · rw [insertRegionToCache_sorted] at hR
    split_ifs at hR with he
    · exact hends (he ▸ hbetween)
    · exact h.clear e R hR hbetween

/-- A range in reach stays so until it is dropped or expires. -/
theorem InReach.step {op : Op ι} (h : InReach loc t d.sys.cache d.cluster) (hs : Sound d)
    (hb : loc.endKey ≠ []) (hstep : d.step op = some d') (hdrop : ¬ op.Drops loc.regionVerId)
    (hclock : t.secs ≤ d.clock) (httl : d'.clock < t.secs + 600) :
    InReach loc t d'.sys.cache d'.cluster := by
  cases Deployment.step_cases hstep with
  | split hinto =>
    refine ⟨h.start_mem, h.cached, h.clear, fun a r' hr' => ?_⟩
    -- a region after the split lies where the one it lies in does
    obtain ⟨q, hq, hsub⟩ := hinto.parent hr'
    rcases h.nested _ q hq with hin | hout
    · exact .inl fun k hk => hin k (hsub k hk)
    · exact .inr fun k hk => hout k (hsub k hk)
  | @locateKey i key t' now answer insertedAt clock sys hserves hadv hsys =>
    cases (locateKey_spec hsys).1 with
    | hit found => exact h
    | error missed err => exact h
    | load missed ok =>
      have hread := (advance_eq_some hadv).2 t' List.mem_cons_self
      have hk : ¬ loc.contains key = true := by
        intro hk
        obtain ⟨R, hfound, _⟩ := h.hit hs.agreement.toOwned hb hk
          ⟨hclock.trans hread.1, hread.2.trans_lt httl⟩ now
        rw [missed] at hfound
        contradiction
      exact h.load hs hserves ok hk insertedAt
  | @other e ts clock sys hts _ hsys =>
    have hcache := (step_cases hsys).cache
    have hno : ∀ i r now, e ≠ .insert i r now := by
      rintro i r now rfl
      contradiction
    obtain ⟨c, hc, hcl, hla⟩ := h.cached
    refine ⟨h.start_mem, ?_, fun k R hR => ?_, h.nested⟩
    · obtain ⟨c', hc', ⟨hloc, hla'⟩ | ⟨i, now, hins⟩⟩ :=
        hs.agreement.commit_kept hc hdrop fun i r now hins => absurd hins (hno i r now)
      · exact ⟨c', hcache ▸ hc', hloc.trans hcl, hla'.trans hla⟩
      · exact absurd hins (hno _ _ _)
    · have hR' : (e.commit d.sys.cache).sorted[k]? = some R := hcache ▸ hR
      rcases commit_sorted hR' with ⟨hR', _⟩ | ⟨i, now, hins, _⟩
      · exact h.clear k R hR'
      · exact absurd hins (hno _ _ _)

/-! ### Along runs -/

/-- A `locate_key` that loads leaves its range in reach, at the reading of the insert. -/
theorem inReach_of_locateKey {c : Cluster} (hc : c.Cuts) {pre : List (Op ι)} {i : ι} {key : Str}
    {t₀ now₀ t : Time} {answer : Except Error Pdpb.GetRegionResponse}
    (h : run Deployment.step (Deployment.init ι c) (pre ++ [.locateKey i key t₀ now₀ answer t]) = some d)
    (hloc : d.sys.phase i = .idle (some (.locateKey key (.ok loc) (some false)))) :
    InReach loc t d.sys.cache d.cluster ∧ d.clock = t.secs := by
  obtain ⟨m, hm, hstep⟩ := run_snoc_eq_some.mp h
  cases Deployment.step_cases hstep with
  | @locateKey _ _ _ _ _ _ clock sys hserves hadv hsys =>
    have hclock : clock = t.secs :=
      advance_getLast (show advance m.clock ([t₀, now₀] ++ [t]) = some clock from hadv)
    cases (locateKey_spec hsys).1 with
    | hit found =>
      rw [Sys.goto_phase_self] at hloc
      cases hloc
    | error missed err =>
      rw [Sys.goto_phase_self] at hloc
      cases hloc
    | load missed ok =>
      rw [Sys.goto_phase_self] at hloc
      cases hloc
      exact ⟨inReach_of_load (sound hc hm) (boundaries hc hm) hserves ok t, hclock⟩

/-- It stays in reach as long as it is not dropped and the TTL lasts. -/
theorem inReach_of_run {c : Cluster} (hc : c.Cuts) {pre post : List (Op ι)}
    (hpre : run Deployment.step (Deployment.init ι c) pre = some d)
    (h : InReach loc t d.sys.cache d.cluster) (hclock : d.clock = t.secs) (hb : loc.endKey ≠ [])
    (hpost : run Deployment.step d post = some d') (hdrop : ∀ op ∈ post, ¬ op.Drops loc.regionVerId)
    (httl : d'.clock < t.secs + 600) : InReach loc t d'.sys.cache d'.cluster ∧ t.secs ≤ d'.clock := by
  refine run_induction (P := fun post d' => (∀ op ∈ post, ¬ op.Drops loc.regionVerId) →
    d'.clock < t.secs + 600 → InReach loc t d'.sys.cache d'.cluster ∧ t.secs ≤ d'.clock)
    (fun _ _ => ⟨h, hclock.ge⟩) ?_ hpost hdrop httl
  intro tr m op m' hrun ih hstep hdrop httl
  have hle := clock_le hstep
  have hs : Sound m := sound hc (run_append_eq_some.mpr ⟨d, hpre, hrun⟩)
  obtain ⟨hreach, ht⟩ := ih (fun op hop => hdrop op (List.mem_append_left _ hop)) (hle.trans_lt httl)
  exact ⟨hreach.step hs hb hstep (hdrop op (by simp)) ht httl, ht.trans hle⟩

/-- While a cluster only splits, `locate_key` calls are not interrupted and the clock does
not go back: once a `locate_key` has loaded a bounded range at `t`, any later one for a key
of the range at a time below `t + 600` hits and returns this range and version, whatever
was split, looked up or switched in between, unless the version was dropped. -/
theorem stable_hits {c : Cluster} {regionId leaderPeerId : UInt64} {storeIds peerIds : List UInt64}
    (hboot : Cluster.bootstrap {} regionId storeIds peerIds leaderPeerId = some c)
    {pre post : List (Op ι)} {i j : ι} {key key' : Str} {t₀ now₀ t t' now' t'' : Time}
    {answer answer' : Except Error Pdpb.GetRegionResponse} {d₁ d : Deployment ι} {loc : KeyLoc}
    (hload : run Deployment.step (Deployment.init ι c) (pre ++ [.locateKey i key t₀ now₀ answer t]) = some d₁)
    (hloc : d₁.sys.phase i = .idle (some (.locateKey key (.ok loc) (some false))))
    (hb : loc.endKey ≠ []) (hdrop : ∀ op ∈ post, ¬ op.Drops loc.regionVerId)
    (hrun : run Deployment.step d₁ (post ++ [.locateKey j key' t' now' answer' t'']) = some d)
    (hk : loc.startKey ≤ key' ∧ key' < loc.endKey) (ht : t'.secs < t.secs + 600) :
    d.sys.phase j = .idle (some (.locateKey key' (.ok loc) (some true))) := by
  have hc := Cluster.cuts_bootstrap hboot
  obtain ⟨hreach, hclock⟩ := inReach_of_locateKey hc hload hloc
  obtain ⟨m, hm, hstep⟩ := run_snoc_eq_some.mp hrun
  have hs : Sound m := sound hc (run_append_eq_some.mpr ⟨d₁, hload, hm⟩)
  cases Deployment.step_cases hstep with
  | @locateKey _ _ _ _ _ _ clock sys _ hadv hsys =>
    have hread := (advance_eq_some hadv).2 t' List.mem_cons_self
    obtain ⟨hreach', hle⟩ := inReach_of_run hc hload hreach hclock hb hm hdrop (hread.1.trans_lt ht)
    have hkey : loc.contains key' = true := KeyLoc.contains_iff.mpr ⟨hk.1, .inl hk.2⟩
    obtain ⟨R, hfound, hR⟩ := hreach'.hit hs.agreement.toOwned hb hkey ⟨hle.trans hread.1, ht⟩ now'
    cases (locateKey_spec hsys).1 with
    | hit found =>
      obtain rfl := Option.some.inj (found.symm.trans hfound)
      rw [Sys.goto_phase_self, hR]
    | load missed ok =>
      rw [missed] at hfound
      contradiction
    | error missed err =>
      rw [missed] at hfound
      contradiction

/-- A cluster of two stores that has been bootstrapped. -/
def bootstrapped : Cluster where
  regions := (∅ : OrdMap UInt64 Region).insert 1
    { verId := { id := 1 }, peers := [{ id := 11, storeId := 1 }, { id := 12, storeId := 2 }]
      leader := { id := 11, storeId := 1 } }

/-- PD's region of the keys below `h` after the first split. -/
def answerBelowH : Pdpb.GetRegionResponse where
  region :=
    { id := 1, endKey := [0x68], regionEpoch := { version := 1 }
      peers := [{ id := 11, storeId := 1 }, { id := 12, storeId := 2 }] }
  leader := { id := 11, storeId := 1 }

def locBelowH : KeyLoc := { endKey := [0x68], regionVerId := { id := 1, ver := 1 } }

/-- The cluster splits at `h`, and a client loads the first half. -/
def loadBelowH : List (Op Bool) :=
  [.split 1 2 [0x68] [21, 22] 21] ++ [.locateKey true [0x61] 5 5 (.ok answerBelowH) 6]

/-- That half splits at `c`, and its cached leader is switched. -/
def splitBelowH : List (Op Bool) :=
  [.split 1 3 [0x63] [31, 32] 32, .other (.updateRegionLeader true locBelowH.regionVerId 2 7 7)]

/-- Another client looks up `d` while PD is unavailable. -/
def locateD : Op Bool := .locateKey false [0x64] 605 605 (.error ⟨"unavailable"⟩) 605

theorem loadBelowH_isSome : (run Deployment.step (Deployment.init Bool bootstrapped) loadBelowH).isSome := by
  decide

theorem locateD_isSome :
    (run Deployment.step (Deployment.init Bool bootstrapped) (loadBelowH ++ (splitBelowH ++ [locateD]))).isSome := by
  decide

theorem stable_hits_locateD :
    ∃ d, run Deployment.step (Deployment.init Bool bootstrapped) (loadBelowH ++ (splitBelowH ++ [locateD])) =
        some d ∧ d.sys.phase false = .idle (some (.locateKey [0x64] (.ok locBelowH) (some true))) := by
  have hboot : Cluster.bootstrap {} 1 [1, 2] [11, 12] 11 = some bootstrapped := rfl
  have h := (Option.some_get locateD_isSome).symm
  obtain ⟨d₁, hload, hrun⟩ := run_append_eq_some.mp h
  have hloc : d₁.sys.phase true = .idle (some (.locateKey [0x61] (.ok locBelowH) (some false))) := by
    rw [← Option.some.inj ((Option.some_get loadBelowH_isSome).trans hload)]
    rfl
  have hdrop : ∀ op ∈ splitBelowH, ¬ op.Drops locBelowH.regionVerId := by
    simp [splitBelowH, Op.Drops, Event.Drops]
  exact ⟨_, h, stable_hits hboot hload hloc (by decide) hdrop hrun ⟨by decide, by decide⟩ (by decide)⟩

end TikvCpp.RegionCache
