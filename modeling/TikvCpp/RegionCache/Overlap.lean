import TikvCpp.RegionCache.World
import TikvCpp.RegionCache.Search

/-! Overlapping ranges in the cache. An insert evicts only what is stored under its
own end key, so after a split or a merge the cache may hold ranges that overlap. Of
two such regions one was obsolete when PD answered the other. An obsolete entry that
ends inside a freshly loaded region comes first in the search and hides the keys of
that region below its own end. -/

namespace TikvCpp.RegionCache

open Data Transition PDClient

variable {ι : Type} [DecidableEq ι] {p₀ : Partition} {tr : List (WorldEvent ι)} {w : World ι}

/-- PD answered `new` at a time when it did not have `old`, which it had answered before. -/
def Obsolete (p₀ : Partition) (tr : List (WorldEvent ι)) (old new : Region) : Prop :=
  ∃ pre i key resp post w, tr = pre ++ .client (.request i key (.ok resp)) :: post ∧
    run World.step (World.init ι p₀) pre = some w ∧ (parseGetRegionResult resp).1.keyLoc = new.keyLoc ∧
    new.keyLoc ∈ w.pd.regions ∧ old.keyLoc ∉ w.pd.regions ∧ Answered (clientTrace pre) old

/-- Where in a history PD answered a region, it had that region. -/
theorem exists_request (h : run World.step (World.init ι p₀) tr = some w) {r : Region}
    (hr : Answered (clientTrace tr) r) : ∃ pre i key resp post w',
      tr = pre ++ .client (.request i key (.ok resp)) :: post ∧
        run World.step (World.init ι p₀) pre = some w' ∧
        (parseGetRegionResult resp).1.keyLoc = r.keyLoc ∧ r.keyLoc ∈ w'.pd.regions := by
  obtain ⟨a, ha, hk⟩ := hr
  obtain ⟨i, key, resp, hmem, rfl⟩ := mem_regionAnswers.mp ha
  have hin : WorldEvent.client (.request i key (.ok resp)) ∈ tr := by
    obtain ⟨e, he, hreq⟩ := List.mem_filterMap.mp hmem
    cases e with
    | change p => contradiction
    | client e => rw [← Option.some.inj hreq]; exact he
  obtain ⟨pre, post, rfl⟩ := List.append_of_mem hin
  obtain ⟨w', w'', hw', hstep, _⟩ := step_of_run h
  have hans := (World.step_client hstep).1
  have hp : (parseGetRegionResult resp).1.keyLoc ∈ w'.pd.regions := (of_decide_eq_true hans).1
  exact ⟨pre, i, key, resp, post, w', rfl, hw', hk, hk ▸ hp⟩

omit [DecidableEq ι] in
theorem answered_of_request {pre post : List (WorldEvent ι)} {i : ι} {key : Str}
    {resp : Pdpb.GetRegionResponse} {r : Region} (hk : (parseGetRegionResult resp).1.keyLoc = r.keyLoc) :
    Answered (clientTrace (pre ++ .client (.request i key (.ok resp)) :: post)) r := by
  refine ⟨_, mem_regionAnswers.mpr ⟨i, key, resp, ?_, rfl⟩, hk⟩
  simp

/-- Of two answered regions that share a key one was obsolete when PD answered the other. -/
theorem obsolete_of_common_key (h : run World.step (World.init ι p₀) tr = some w) {r r' : Region}
    (hr : Answered (clientTrace tr) r) (hr' : Answered (clientTrace tr) r') (hne : r.keyLoc ≠ r'.keyLoc)
    {key : Str} (hk : r.contains key = true) (hk' : r'.contains key = true) :
    Obsolete p₀ tr r r' ∨ Obsolete p₀ tr r' r := by
  obtain ⟨pre, i, k, resp, post, m, htr, hm, hloc, hin⟩ := exists_request h hr
  obtain ⟨pre', i', k', resp', post', m', htr', hm', hloc', hin'⟩ := exists_request h hr'
  rcases append_cons_eq_append_cons (htr.symm.trans htr') with ⟨_, hreq, _⟩ | ⟨mid, rfl, _⟩ | ⟨mid, rfl, _⟩
  · obtain ⟨_, _, hresp⟩ := Event.request.inj (WorldEvent.client.inj hreq)
    obtain rfl := Except.ok.inj hresp
    exact absurd (hloc.symm.trans hloc') hne
  · refine .inl ⟨_, i', k', resp', post', m', htr', hm', hloc', hin', fun hin => ?_, answered_of_request hloc⟩
    exact hne (m'.pd.unique _ hin _ hin' key hk hk')
  · refine .inr ⟨_, i, k, resp, post, m, htr, hm, hloc, hin, fun hin' => ?_, answered_of_request hloc'⟩
    exact hne (m.pd.unique _ hin _ hin' key hk hk')

/-! ### Right after an insert -/

/-- An insert leaves one entry under its end key, in both maps. -/
theorem insert_evicts {rc : RegionCache} (ho : Owned rc) (r : Region) (t : Time) :
    (rc.insertRegionToCache r t).sorted[r.endKey]? = some r ∧
      ∀ (v : RegionVerID) (c : CachedRegion), (rc.insertRegionToCache r t).cachedRegions[v]? = some c →
        c.region.endKey = r.endKey → v = r.verId ∧ c.region = r := by
  have hself : (rc.insertRegionToCache r t).cachedRegions[r.verId]? =
      some { region := r, lastAccess := t.toUInt64 } := by
    rw [insertRegionToCache_cachedRegions, if_pos rfl]
  refine ⟨by rw [insertRegionToCache_sorted, if_pos rfl], fun v c hc he => ?_⟩
  have hv : v = r.verId := (ho.insert r t).ver_eq_of_end_eq hc hself he
  rw [hv, hself] at hc
  rw [← Option.some.inj hc]
  exact ⟨hv, rfl⟩

/-- A region just inserted is found by a key below its end key if no entry ends
between the two, and only then. -/
theorem searchCache_after_insert {rc : RegionCache} {r : Region} {t : Time}
    (ha : Agreement (rc.insertRegionToCache r t)) (hb : r.endKey ≠ []) {key : Str}
    (hk : r.contains key = true) {t' now : Time} (ht : t.secs ≤ t'.secs ∧ t'.secs < t.secs + 600) :
    ((rc.insertRegionToCache r t).searchCache key t' now).1 = some r ↔
      ∀ (e : Str) (R : Region), (rc.insertRegionToCache r t).sorted[e]? = some R →
        ¬ (key < e ∧ e < r.endKey) := by
  have hself : (rc.insertRegionToCache r t).sorted[r.endKey]? = some r := by
    rw [insertRegionToCache_sorted, if_pos rfl]
  have hcached : (rc.insertRegionToCache r t).cachedRegions[r.verId]? =
      some { region := r, lastAccess := t.toUInt64 } := by
    rw [insertRegionToCache_cachedRegions, if_pos rfl]
  have hlt : key < r.endKey := (Region.contains_iff.mp hk).2.resolve_right hb
  constructor
  · intro hfound e R hR hbetween
    obtain ⟨e', S, c, hub, _, hc, _, hcr⟩ := searchCache_found.mp hfound
    obtain ⟨hS, _, hmin⟩ := OrdMap.upperBound_eq_some.mp hub
    -- the first entry leads to the inserted region, so it is the entry of that region
    have hend : e' = r.endKey := by
      rw [← ha.sorted_end e' S hS, ← (keyLoc_eq_iff.mp (ha.keyLoc_eq hS hc)).2.2, hcr]
    have hle := hmin e R hR hbetween.1
    rw [hend] at hle
    exact absurd hbetween.2 (not_lt.mpr hle)
  · intro hnone
    have hub : (rc.insertRegionToCache r t).sorted.upperBound key = some (r.endKey, r) := by
      refine OrdMap.upperBound_eq_some.mpr ⟨hself, hlt, fun e R hR hke => ?_⟩
      by_contra hlt'
      exact hnone e R hR ⟨hke, not_le.mp hlt'⟩
    exact searchCache_found.mpr
      ⟨r.endKey, r, _, hub, hk, hcached, (CachedRegion.isValid_iff rfl).mpr ht, rfl⟩

/-! ### Along runs -/

/-- What the caches hold of overlapping ranges while PD changes its regions. Two cached
regions that share a key have different end keys, and one was obsolete when PD answered
the other; so two cached regions that PD still has share no key. An insert leaves no
other entry under its end key. The inserted region, if bounded, is found by each of its
keys until it expires, except by the keys with an entry between them and its end key;
and such an entry shares a key with it. -/
theorem overlap_obsolete (h : run World.step (World.init ι p₀) tr = some w) :
    (∀ (v v' : RegionVerID) (c c' : CachedRegion) (key : Str), w.sys.cache.cachedRegions[v]? = some c →
      w.sys.cache.cachedRegions[v']? = some c' → v ≠ v' → c.region.contains key = true →
      c'.region.contains key = true →
        c.region.endKey ≠ c'.region.endKey ∧
          (Obsolete p₀ tr c.region c'.region ∨ Obsolete p₀ tr c'.region c.region)) ∧
    (∀ (v v' : RegionVerID) (c c' : CachedRegion) (key : Str), w.sys.cache.cachedRegions[v]? = some c →
      w.sys.cache.cachedRegions[v']? = some c' → c.region.keyLoc ∈ w.pd.regions →
      c'.region.keyLoc ∈ w.pd.regions → c.region.contains key = true →
      c'.region.contains key = true → v = v') ∧
    ∀ pre i r t, tr = pre ++ [.client (.insert i r t)] →
      w.sys.cache.sorted[r.endKey]? = some r ∧
      (∀ (v : RegionVerID) (c : CachedRegion), w.sys.cache.cachedRegions[v]? = some c →
        c.region.endKey = r.endKey → v = r.verId ∧ c.region = r) ∧
      ∀ (key : Str) (t' now : Time), r.endKey ≠ [] → r.contains key = true →
        t.secs ≤ t'.secs ∧ t'.secs < t.secs + 600 →
          ((w.sys.cache.searchCache key t' now).1 = some r ↔
            ∀ (e : Str) (R : Region), w.sys.cache.sorted[e]? = some R → ¬ (key < e ∧ e < r.endKey)) ∧
          ∀ (e : Str) (R : Region), w.sys.cache.sorted[e]? = some R → key < e → e < r.endKey →
            ∃ k, R.contains k = true ∧ r.contains k = true := by
  have hrun := run_sys h
  have ho := owned hrun
  have hsrc := sourced hrun
  refine ⟨fun v v' c c' key hc hc' hne hk hk' => ?_, fun v v' c c' key hc hc' hp hp' hk hk' => ?_,
    fun pre i r t htr => ?_⟩
  · have hne' : c.region.keyLoc ≠ c'.region.keyLoc := by
      intro heq
      apply hne
      rw [← ho.cached_ver v c hc, ← ho.cached_ver v' c' hc']
      exact (keyLoc_eq_iff.mp heq).1
    refine ⟨fun he => hne (ho.ver_eq_of_end_eq hc hc' he), ?_⟩
    exact obsolete_of_common_key h (hsrc.cached v c hc) (hsrc.cached v' c' hc') hne' hk hk'
  · have heq := w.pd.unique _ hp _ hp' key hk hk'
    rw [← ho.cached_ver v c hc, ← ho.cached_ver v' c' hc']
    exact (keyLoc_eq_iff.mp heq).1
  · subst htr
    obtain ⟨m, hm, hstep⟩ := run_snoc_eq_some.mp h
    obtain ⟨_, sys, hs, rfl⟩ := World.step_client hstep
    have hcache : sys.cache = m.sys.cache.insertRegionToCache r t := (step_cases hs).cache
    have ha := agreement hrun (consistent_of_world h)
    have hev := insert_evicts (owned (run_sys hm)) r t
    simp only [hcache] at ha ⊢
    refine ⟨hev.1, hev.2, fun key t' now hb hk ht => ⟨searchCache_after_insert ha hb hk ht, ?_⟩⟩
    intro e R hR hke her
    obtain ⟨_, x, hx⟩ := answer_of_history h (hsrc.sorted e R (hcache.symm ▸ hR))
    have hRe := ha.sorted_end e R hR
    obtain ⟨y, hy, hy'⟩ := Order.exists_common_of_end_inside (Region.contains_iff.mp hk)
      (Region.contains_iff.mp hx) (hRe ▸ hke) (.inl (hRe ▸ her.le))
    exact ⟨y, Region.contains_iff.mpr hy', Region.contains_iff.mpr hy⟩

/-! ### A merge -/

/-- PD's region `A` of the keys below `b` and `B` from `b` to `d`, and `A` after it took
over the keys of `B`. -/
def answerA : Pdpb.GetRegionResponse where
  region := { id := 1, endKey := [0x62], regionEpoch := { version := 1 }, peers := [{ id := 11, storeId := 1 }] }

def answerMerged : Pdpb.GetRegionResponse where
  region := { id := 1, endKey := [0x64], regionEpoch := { version := 2 }, peers := [{ id := 11, storeId := 1 }] }

def regionA : Region where
  verId := { id := 1, ver := 1 }
  endKey := [0x62]
  peers := [{ id := 11, storeId := 1 }]

def regionMerged : Region where
  verId := { id := 1, ver := 2 }
  endKey := [0x64]
  peers := [{ id := 11, storeId := 1 }]

def beforeMerge : Partition :=
  .ofTiles [regionA.keyLoc, { startKey := [0x62], endKey := [0x64], regionVerId := { id := 2, ver := 1 } },
    { startKey := [0x64], regionVerId := { id := 3, ver := 1 } }] (by decide) (by decide)

def afterMerge : Partition :=
  .ofTiles [regionMerged.keyLoc, { startKey := [0x64], regionVerId := { id := 3, ver := 1 } }]
    (by decide) (by decide)

/-- A client loads `A`; the regions merge; the client loads the merged region for `c`. -/
def loadMerged : List (WorldEvent Bool) :=
  [.client (.search true [0x61] 5 5), .client (.request true [0x61] (.ok answerA)),
    .client (.insert true regionA 5), .change afterMerge, .client (.search true [0x63] 6 6),
    .client (.request true [0x63] (.ok answerMerged)), .client (.insert true regionMerged 6)]

theorem loadMerged_isSome : (run World.step (World.init Bool beforeMerge) loadMerged).isSome := by decide

theorem overlap_obsolete_loadMerged :
    Obsolete beforeMerge loadMerged regionA regionMerged ∨
      Obsolete beforeMerge loadMerged regionMerged regionA := by
  have h := (Option.some_get loadMerged_isSome).symm
  exact ((overlap_obsolete h).1 regionA.verId regionMerged.verId { region := regionA, lastAccess := 5 }
    { region := regionMerged, lastAccess := 6 } [0x61] rfl rfl (by decide) (by decide) (by decide)).2

/-- Both regions are cached and unexpired, and a lookup of a key of the region just
loaded finds the obsolete one. -/
theorem overlap_after_merge :
    ∃ w, run World.step (World.init Bool beforeMerge) loadMerged = some w ∧
      w.sys.cache.cachedRegions[regionA.verId]? = some { region := regionA, lastAccess := 5 } ∧
      w.sys.cache.cachedRegions[regionMerged.verId]? = some { region := regionMerged, lastAccess := 6 } ∧
      regionA.contains [0x61] = true ∧ regionMerged.contains [0x61] = true ∧
      (w.sys.cache.searchCache [0x61] 7 7).1 = some regionA :=
  ⟨_, (Option.some_get loadMerged_isSome).symm, rfl, rfl, by decide, by decide, rfl⟩

end TikvCpp.RegionCache
