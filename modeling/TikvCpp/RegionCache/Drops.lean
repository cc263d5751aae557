import TikvCpp.RegionCache.Provenance

/-! What `drop_region` removes. The drop erases the entry of `sorted_` under the end
key of the cached region, and that entry is owned by the dropped version: nothing
else goes, and the search for a key that met another version still meets it. A
version that another one has superseded under its end key is not cached any more, so
dropping it changes nothing. -/

namespace TikvCpp.RegionCache

open Data Transition

/-! ### The frame of a drop -/

namespace Owned

variable {rc : RegionCache} {v : RegionVerID}

theorem drop_sorted (h : Owned rc) {e : Str} {R : Region} (hv : R.verId ≠ v) :
    (rc.dropRegionFromCache v).sorted[e]? = some R ↔ rc.sorted[e]? = some R := by
  rw [dropRegionFromCache_sorted]
  split_ifs with hd
  · -- the entry under the end key of the dropped region has the dropped version
    obtain ⟨c, hc, he⟩ := Option.map_eq_some_iff.mp hd
    obtain ⟨S, hS, hSc⟩ := h.cached_sorted v c hc
    have hSv : S.verId = v := (keyLoc_eq_iff.mp hSc).1.trans (h.cached_ver v c hc)
    have hne : rc.sorted[e]? ≠ some R := by
      intro hR
      rw [← he, hS] at hR
      exact hv (Option.some.inj hR ▸ hSv)
    exact iff_of_false (by simp) hne
  · rfl

/-- A key that the search has found in another version is still found there. -/
theorem drop_searchCache (h : Owned rc) {key : Str} {t now : Time} {R : Region}
    (hs : (rc.searchCache key t now).1 = some R) (hv : R.verId ≠ v) :
    ((rc.dropRegionFromCache v).searchCache key t now).1 = some R := by
  obtain ⟨e, S, hub, hk, hg⟩ := searchCache_eq_some.mp hs
  obtain ⟨c, hc, hvalid, rfl⟩ := getCachedRegion_eq_some.mp hg
  have hSv : S.verId ≠ v := by rwa [h.cached_ver S.verId c hc] at hv
  obtain ⟨hS, hlt, hmin⟩ := OrdMap.upperBound_eq_some.mp hub
  refine searchCache_eq_some.mpr ⟨e, S, ?_, hk, ?_⟩
  · refine OrdMap.upperBound_eq_some.mpr ⟨(h.drop_sorted hSv).mpr hS, hlt, fun b S' hb hkb => ?_⟩
    -- what the drop leaves was there before
    rw [dropRegionFromCache_sorted] at hb
    split_ifs at hb
    exact hmin b S' hb hkb
  · refine getCachedRegion_eq_some.mpr ⟨c, ?_, hvalid, rfl⟩
    rw [dropRegionFromCache_cachedRegions, if_neg (Ne.symm hSv), hc]

end Owned

/-! ### Versions that are not cached -/

section Runs

variable {ι : Type}

/-- Only an insert of a version brings it into `cached_regions_`. -/
theorem commit_cachedRegions_none {e : Event ι} {rc : RegionCache} {v : RegionVerID}
    (h : rc.cachedRegions[v]? = none) (hi : ∀ i r now, e = .insert i r now → r.verId ≠ v) :
    (e.commit rc).cachedRegions[v]? = none := by
  cases e with
  | insert i r now =>
    simp only [Event.commit, insertRegionToCache_cachedRegions, if_neg (hi i r now rfl), h, ite_self]
  | dropContext i w | dropRegion i w =>
    simp only [Event.commit, dropRegionFromCache_cachedRegions, h, ite_self]
  | updateRegionLeader => simp only [Event.commit, updateRegionLeader_cachedRegions, h, Option.map_none]
  | search | request | readRegion | findStore | requestStore | writeStore => exact h

/-- Another version was inserted under the end key of `v` after the last insert of `v`. -/
def Superseded (v : RegionVerID) (tr : List (Event ι)) : Prop :=
  ∃ pre i r t post, tr = pre ++ .insert i r t :: post ∧ r.verId = v ∧ NotInserted v post ∧
    ∃ j r' t', .insert j r' t' ∈ post ∧ r'.endKey = r.endKey

variable [DecidableEq ι] {tr : List (Event ι)} {s s' : Sys ι} {v : RegionVerID}

theorem run_notInserted {post : List (Event ι)} (h : run step s post = some s')
    (hv : s.cache.cachedRegions[v]? = none) (hpost : NotInserted v post) :
    s'.cache.cachedRegions[v]? = none := by
  refine run_induction (P := fun post s' => NotInserted v post → s'.cache.cachedRegions[v]? = none)
    (fun _ => hv) ?_ h hpost
  intro post m e m' _ ih he hpost
  rw [(step_cases he).cache]
  refine commit_cachedRegions_none (ih fun i r now hmem => hpost i r now (by simp [hmem])) ?_
  rintro i r now rfl
  exact hpost i r now (by simp)

/-- A version that was superseded, or never inserted, is not cached. -/
theorem not_cached (h : run step (Sys.init ι) tr = some s) (hv : NotInserted v tr ∨ Superseded v tr) :
    s.cache.cachedRegions[v]? = none := by
  rw [Option.eq_none_iff_forall_ne_some]
  intro c hc
  rcases hv with hv | ⟨pre, i, r, t, post, htr, rfl, hlast, j, r', t', hmem, hend⟩
  · obtain ⟨pre, i, r, t, post, htr, hr, _⟩ := inserted h hc
    exact hv i r t (by rw [htr]; simp) hr
  · exact ((inserted_last h htr hlast hc).1.inserts j r' t' hmem).2 hend

/-- After `drop_region` of a version no lookup yields it until it is inserted again.
Every other version keeps its entries in both maps, and every key that was found in
another version still is. The drop of a version that was never inserted, or that was
superseded under its end key, leaves both maps as they were. -/
theorem dropRegion_exact (h : run step (Sys.init ι) tr = some s) {i : ι}
    (hd : step s (.dropRegion i v) = some s') :
    (∀ post s'', run step s' post = some s'' → NotInserted v post → ∀ t now,
      (s''.cache.getCachedRegion v t now).1 = none ∧
        ∀ key R, (s''.cache.searchCache key t now).1 = some R → R.verId ≠ v) ∧
    (∀ w, w ≠ v → s'.cache.cachedRegions[w]? = s.cache.cachedRegions[w]? ∧
      ∀ (e : Str) (R : Region), R.verId = w →
        (s'.cache.sorted[e]? = some R ↔ s.cache.sorted[e]? = some R)) ∧
    (∀ key t now R, (s.cache.searchCache key t now).1 = some R → R.verId ≠ v →
      (s'.cache.searchCache key t now).1 = some R) ∧
    (NotInserted v tr ∨ Superseded v tr →
      s'.cache.sorted = s.cache.sorted ∧ s'.cache.cachedRegions = s.cache.cachedRegions) := by
  have ho := owned h
  have hcache : s'.cache = s.cache.dropRegionFromCache v := (step_cases hd).cache
  have hgone : s'.cache.cachedRegions[v]? = none := by
    rw [hcache, dropRegionFromCache_cachedRegions, if_pos rfl]
  refine ⟨fun post s'' hpost hno t now => ?_, fun w hw => ⟨?_, fun e R hR => ?_⟩,
    fun key t now R hs hR => ?_, fun hv => ?_⟩
  · have hrun : run step (Sys.init ι) (tr ++ .dropRegion i v :: post) = some s'' :=
      run_append_eq_some.mpr ⟨s, h, by rw [run_cons, hd, Option.bind_some, hpost]⟩
    have hnone := run_notInserted hpost hgone hno
    have hyields : ∀ R, ¬ Yields s''.cache v t now R := by
      intro R hy
      obtain ⟨c, hc, _⟩ := (owned hrun).cached_of_yields hy
      rw [hnone] at hc
      contradiction
    refine ⟨Option.eq_none_iff_forall_ne_some.mpr fun R hR => hyields R (.inl hR), ?_⟩
    exact fun key R hR hv => hyields R (.inr ⟨key, hR, hv⟩)
  · rw [hcache, dropRegionFromCache_cachedRegions, if_neg (Ne.symm hw)]
  · rw [hcache]
    exact ho.drop_sorted (hR ▸ hw)
  · rw [hcache]
    exact ho.drop_searchCache hs hR
  · have hsame : s'.cache = s.cache := by
      rw [hcache, dropRegionFromCache, not_cached h hv]
    rw [hsame]
    exact ⟨rfl, rfl⟩

theorem dropRegion_exact_twoLoads : ∃ s s', run step (Sys.init Bool) twoLoads = some s ∧
    step s (.dropRegion false regionAM.verId) = some s' ∧
      (∃ R, (s.cache.getCachedRegion regionAM.verId 9 9).1 = some R) ∧
      (s'.cache.getCachedRegion regionAM.verId 9 9).1 = none := by
  have h := (Option.some_get twoLoads_isSome).symm
  have hgone := (dropRegion_exact (i := false) (v := regionAM.verId) h rfl).1
  exact ⟨_, _, h, rfl, ⟨_, rfl⟩, (hgone [] _ rfl (by simp [NotInserted]) 9 9).1⟩

end Runs

end TikvCpp.RegionCache
