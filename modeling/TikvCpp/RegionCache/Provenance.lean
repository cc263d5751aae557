import TikvCpp.RegionCache.IndexAgreement

/-! Where a cached region comes from. Whatever PD answers and however the clock
moves, the region cached under a version is the one the last insert of that
version put there: no drop of the version and no insert of another version under
its end key came since. Only its leader may have been switched, and its access
time is still the reading of that insert, because no lookup moves it. -/

namespace TikvCpp.RegionCache

open Data Transition

variable {ι : Type}

/-- The event drops version `v`, for `drop_region` or for `get_rpc_context`. -/
def Event.Drops (v : RegionVerID) : Event ι → Prop
  | .dropContext _ w | .dropRegion _ w => w = v
  | _ => False

/-- After its insert the region `r` was not dropped, not inserted again, and not
evicted by a region of another version under its end key. -/
structure Kept (r : Region) (post : List (Event ι)) : Prop where
  drops : ∀ e ∈ post, ¬ e.Drops r.verId
  inserts : ∀ i r' now, .insert i r' now ∈ post → r'.verId ≠ r.verId ∧ r'.endKey ≠ r.endKey

theorem Kept.nil (r : Region) : Kept r ([] : List (Event ι)) := ⟨by simp, by simp⟩

theorem Kept.snoc {r : Region} {post : List (Event ι)} {e : Event ι} (h : Kept r post)
    (hd : ¬ e.Drops r.verId)
    (hi : ∀ i r' now, e = .insert i r' now → r'.verId ≠ r.verId ∧ r'.endKey ≠ r.endKey) :
    Kept r (post ++ [e]) where
  drops := forall_mem_snoc h.drops hd
  inserts i r' now hmem := by
    rcases List.mem_append.mp hmem with hmem | hmem
    · exact h.inserts i r' now hmem
    · exact hi i r' now (List.mem_singleton.mp hmem).symm

/-- What an event makes of the region cached under `v` since reading `t₀`: the
leader is switched if `update_region_leader` still finds the version valid. -/
def Event.switch (v : RegionVerID) (t₀ : Time) (r : Region) : Event ι → Region
  | .updateRegionLeader _ w leaderStoreId t _ =>
    if w = v ∧ t₀.secs ≤ t.secs ∧ t.secs < t₀.secs + 600 then r.switchLeader leaderStoreId.toUInt64
    else r
  | _ => r

/-- The region inserted at `t₀` after the leader switches of later events. -/
def switches (r : Region) (t₀ : Time) (post : List (Event ι)) : Region :=
  post.foldl (fun R e => e.switch r.verId t₀ R) r

theorem switches_snoc (r : Region) (t₀ : Time) (post : List (Event ι)) (e : Event ι) :
    switches r t₀ (post ++ [e]) = e.switch r.verId t₀ (switches r t₀ post) := by
  simp [switches]

theorem Event.switch_keyLoc (v : RegionVerID) (t₀ : Time) (r : Region) (e : Event ι) :
    (e.switch v t₀ r).keyLoc = r.keyLoc := by
  cases e with
  | updateRegionLeader i w s t now => simp only [switch]; split_ifs <;> rfl
  | _ => rfl

/-- Leader switches change neither the version nor the range. -/
theorem switches_keyLoc (r : Region) (t₀ : Time) (post : List (Event ι)) :
    (switches r t₀ post).keyLoc = r.keyLoc := by
  induction post using List.reverseRecOn with
  | nil => rfl
  | append_singleton post e ih => rw [switches_snoc, Event.switch_keyLoc, ih]

/-- What is cached under a version after an event: the region just inserted, or
what was there before, neither dropped nor evicted, up to a leader switch. -/
theorem Owned.commit_cached {rc : RegionCache} (ho : Owned rc) {e : Event ι} {v : RegionVerID}
    {c : CachedRegion} (h : (e.commit rc).cachedRegions[v]? = some c) :
    (∃ i r now, e = .insert i r now ∧ r.verId = v ∧ c = { region := r, lastAccess := now.toUInt64 }) ∨
      ∃ d : CachedRegion, rc.cachedRegions[v]? = some d ∧ c.lastAccess = d.lastAccess ∧
        (∀ t₀ : Time, d.lastAccess = t₀.toUInt64 → c.region = e.switch v t₀ d.region) ∧
        ¬ e.Drops v ∧
        ∀ i r now, e = .insert i r now → r.verId ≠ v ∧ r.endKey ≠ d.region.endKey := by
  cases e with
  | insert i r now =>
    simp only [Event.commit, insertRegionToCache_cachedRegions] at h
    split_ifs at h with hv hev
    · exact .inl ⟨i, r, now, rfl, hv, (Option.some.inj h).symm⟩
    · refine .inr ⟨c, h, rfl, fun _ _ => rfl, id, ?_⟩
      rintro _ _ _ ⟨⟩
      refine ⟨hv, fun he => hev ?_⟩
      -- the cached version owns the entry under the inserted end key
      obtain ⟨S, hS, hSc⟩ := ho.cached_sorted v c h
      rw [he, hS, Option.map_some, (keyLoc_eq_iff.mp hSc).1, ho.cached_ver v c h]
  | dropContext i w | dropRegion i w =>
    simp only [Event.commit, dropRegionFromCache_cachedRegions] at h
    split_ifs at h with hw
    exact .inr ⟨c, h, rfl, fun _ _ => rfl, hw, by simp⟩
  | updateRegionLeader i w s t now =>
    simp only [Event.commit, updateRegionLeader_cachedRegions] at h
    obtain ⟨d, hd, hcd⟩ := Option.map_eq_some_iff.mp h
    refine .inr ⟨d, hd, by rw [← hcd]; split_ifs <;> rfl, fun t₀ ht₀ => ?_, id, by simp⟩
    rw [← hcd]
    simp only [Event.switch, CachedRegion.isValid_iff ht₀]
    split_ifs <;> rfl
  | search | request | readRegion | findStore | requestStore | writeStore =>
    exact .inr ⟨c, h, rfl, fun _ _ => rfl, id, by simp⟩

/-- The history of a cached region: its last insert, with its access time and
the leader switches since. -/
def Inserted (tr : List (Event ι)) (v : RegionVerID) (c : CachedRegion) : Prop :=
  ∃ pre i r t₀ post, tr = pre ++ .insert i r t₀ :: post ∧ r.verId = v ∧ Kept r post ∧
    c.region = switches r t₀ post ∧ c.lastAccess = t₀.toUInt64

variable [DecidableEq ι]

theorem inserted {tr : List (Event ι)} {s : Sys ι} (h : run step (Sys.init ι) tr = some s)
    {v : RegionVerID} {c : CachedRegion} (hc : s.cache.cachedRegions[v]? = some c) :
    Inserted tr v c := by
  refine run_induction (P := fun tr s => ∀ (v : RegionVerID) (c : CachedRegion),
    s.cache.cachedRegions[v]? = some c → Inserted tr v c) ?_ ?_ h v c hc
  · intro v c hc
    simp [Sys.init] at hc
  · intro tr s e s' hrun ih he v c hc
    rw [(step_cases he).cache] at hc
    rcases (owned hrun).commit_cached hc with ⟨i, r, now, rfl, hv, rfl⟩ | ⟨d, hd, hla, hsw, hdrop, hins⟩
    · exact ⟨tr, i, r, now, [], rfl, hv, Kept.nil r, rfl, rfl⟩
    · obtain ⟨pre, i, r, t₀, post, htr, hv, hkept, hreg, hla'⟩ := ih v d hd
      have hend : d.region.endKey = r.endKey := by
        rw [hreg]
        exact (keyLoc_eq_iff.mp (switches_keyLoc r t₀ post)).2.2
      refine ⟨pre, i, r, t₀, post ++ [e], by simp [htr], hv, ?_, ?_, hla.trans hla'⟩
      · exact hkept.snoc (hv ▸ hdrop) fun j r' now hi => by rw [hv, ← hend]; exact hins j r' now hi
      · rw [switches_snoc, hsw t₀ hla', hreg, hv]

/-- Version `v` was not inserted. -/
def NotInserted (v : RegionVerID) (tr : List (Event ι)) : Prop :=
  ∀ i r now, .insert i r now ∈ tr → r.verId ≠ v

/-- If the version is cached, its last insert tells all of it. -/
theorem inserted_last {tr : List (Event ι)} {s : Sys ι} (h : run step (Sys.init ι) tr = some s)
    {pre post : List (Event ι)} {i : ι} {r : Region} {t₀ : Time} (htr : tr = pre ++ .insert i r t₀ :: post)
    (hlast : NotInserted r.verId post) {c : CachedRegion}
    (hc : s.cache.cachedRegions[r.verId]? = some c) :
    Kept r post ∧ c.region = switches r t₀ post ∧ c.lastAccess = t₀.toUInt64 := by
  obtain ⟨pre', j, r', t', post', htr', hv, hkept, hreg, hla⟩ := inserted h hc
  rcases append_cons_eq_append_cons (htr.symm.trans htr') with ⟨_, he, rfl⟩ | ⟨m, _, rfl⟩ | ⟨m, _, rfl⟩
  · obtain ⟨_, rfl, rfl⟩ := Event.insert.inj he
    exact ⟨hkept, hreg, hla⟩
  · exact absurd hv (hlast j r' t' (by simp))
  · exact absurd hv.symm (hkept.inserts i r t₀ (by simp)).1

/-- A lookup by version or by key yields the region of version `v`. -/
def Yields (rc : RegionCache) (v : RegionVerID) (t now : Time) (R : Region) : Prop :=
  (rc.getCachedRegion v t now).1 = some R ∨
    ∃ key, (rc.searchCache key t now).1 = some R ∧ R.verId = v

/-- Both lookups read the region cached under the version, unexpired. -/
theorem Owned.cached_of_yields {rc : RegionCache} (h : Owned rc) {v : RegionVerID} {t now : Time}
    {R : Region} (hy : Yields rc v t now R) :
    ∃ c : CachedRegion, rc.cachedRegions[v]? = some c ∧ c.isValid t = true ∧ c.region = R := by
  rcases hy with hg | ⟨key, hs, rfl⟩
  · exact getCachedRegion_eq_some.mp hg
  · obtain ⟨e, S, _, _, hg⟩ := searchCache_eq_some.mp hs
    obtain ⟨c, hc, hvalid, rfl⟩ := getCachedRegion_eq_some.mp hg
    exact ⟨c, by rw [h.cached_ver _ c hc]; exact hc, hvalid, rfl⟩

/-- Whatever PD answered and whatever the clock read, a region that a lookup yields
under version `v` at `t` was put there by a last insert of `v`, with no drop of `v`
and no insert of another version under its end key since. It is that region up to
the leader switches since, and `t` lies within the TTL from the reading of the insert. -/
theorem provenance {tr : List (Event ι)} {s : Sys ι} (h : run step (Sys.init ι) tr = some s)
    {v : RegionVerID} {t now : Time} {R : Region} (hy : Yields s.cache v t now R) :
    ∃ pre i r t₀ post, tr = pre ++ .insert i r t₀ :: post ∧ r.verId = v ∧ Kept r post ∧
      R = switches r t₀ post ∧ t₀.secs ≤ t.secs ∧ t.secs < t₀.secs + 600 := by
  obtain ⟨c, hc, hvalid, rfl⟩ := (owned h).cached_of_yields hy
  obtain ⟨pre, i, r, t₀, post, htr, hv, hkept, hreg, hla⟩ := inserted h hc
  exact ⟨pre, i, r, t₀, post, htr, hv, hkept, hreg, (CachedRegion.isValid_iff hla).mp hvalid⟩

theorem provenance_twoLoads :
    ∃ pre i r t₀ post, twoLoads = pre ++ .insert i r t₀ :: post ∧ r.verId = regionAM.verId ∧
      Kept r post ∧ regionAM.switchLeader 4 = switches r t₀ post ∧ t₀.secs ≤ 10 ∧ 10 < t₀.secs + 600 := by
  have h := (Option.some_get twoLoads_isSome).symm
  have hy : Yields ((run step (Sys.init Bool) twoLoads).get twoLoads_isSome).cache regionAM.verId
      10 10 (regionAM.switchLeader 4) := .inl rfl
  exact provenance h hy

end TikvCpp.RegionCache
