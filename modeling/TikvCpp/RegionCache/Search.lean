import TikvCpp.RegionCache.Partition

/-! The ordered search against a scan of the cached regions. The search looks at
one entry of `sorted_` only, the first whose end key is above the key. While the
cached ranges are disjoint this entry speaks for the region that holds the key,
unless that region has no upper bound: an empty end key sorts before every key,
so the search never sees the last region of the key space. -/

namespace TikvCpp.RegionCache

open Data Transition PDClient

/-- A scan finds the region: it is cached, unexpired at `t`, and holds the key. -/
def Scanned (rc : RegionCache) (key : Str) (t : Time) (R : Region) : Prop :=
  ∃ (v : RegionVerID) (c : CachedRegion), rc.cachedRegions[v]? = some c ∧ c.isValid t = true ∧
    c.region.contains key = true ∧ c.region = R

/-- The search finds what a scan finds. -/
def SearchAgrees (rc : RegionCache) (key : Str) (t now : Time) : Prop :=
  ∀ R, (rc.searchCache key t now).1 = some R ↔ Scanned rc key t R

/-- No key lies in two cached regions. -/
def DisjointRanges (rc : RegionCache) : Prop :=
  ∀ (v w : RegionVerID) (c d : CachedRegion) (key : Str), rc.cachedRegions[v]? = some c →
    rc.cachedRegions[w]? = some d → c.region.contains key = true → d.region.contains key = true → v = w

/-- The first entry above the key leads to the unexpired cached region that holds
the key, if there is one, and to no other. -/
structure FirstEntryLeads (rc : RegionCache) (key : Str) (t : Time) : Prop where
  there : ∀ (v : RegionVerID) (c : CachedRegion), rc.cachedRegions[v]? = some c → c.isValid t = true →
    c.region.contains key = true →
      ∃ e S, rc.sorted.upperBound key = some (e, S) ∧ S.contains key = true ∧ S.verId = v
  only : ∀ (e : Str) (S : Region) (c : CachedRegion), rc.sorted.upperBound key = some (e, S) →
    S.contains key = true → rc.cachedRegions[S.verId]? = some c → c.isValid t = true →
      c.region.contains key = true

/-- The search finds a region exactly through the first entry above the key. -/
theorem searchCache_found {rc : RegionCache} {key : Str} {t now : Time} {R : Region} :
    (rc.searchCache key t now).1 = some R ↔
      ∃ e S c, rc.sorted.upperBound key = some (e, S) ∧ S.contains key = true ∧
        rc.cachedRegions[S.verId]? = some c ∧ c.isValid t = true ∧ c.region = R := by
  simp only [searchCache_eq_some, getCachedRegion_eq_some]
  constructor
  · rintro ⟨e, S, hub, hk, c, hc⟩
    exact ⟨e, S, c, hub, hk, hc⟩
  · rintro ⟨e, S, c, hub, hk, hc⟩
    exact ⟨e, S, hub, hk, c, hc⟩

namespace Owned

variable {rc : RegionCache}

theorem searchAgrees_iff (h : Owned rc) (key : Str) (t now : Time) :
    SearchAgrees rc key t now ↔ FirstEntryLeads rc key t := by
  constructor
  · intro hs
    refine ⟨fun v c hc hv hk => ?_, fun e S c hub hS hc hv => ?_⟩
    · have hfound := (hs c.region).mpr ⟨v, c, hc, hv, hk, rfl⟩
      obtain ⟨e, S, d, hub, hS, hd, _, hdc⟩ := searchCache_found.mp hfound
      refine ⟨e, S, hub, hS, ?_⟩
      rw [← h.cached_ver _ d hd, hdc, h.cached_ver v c hc]
    · have hfound : (rc.searchCache key t now).1 = some c.region :=
        searchCache_found.mpr ⟨e, S, c, hub, hS, hc, hv, rfl⟩
      obtain ⟨_, d, _, _, hk, hdc⟩ := (hs c.region).mp hfound
      rw [← hdc]
      exact hk
  · intro hl R
    constructor
    · intro hfound
      obtain ⟨e, S, c, hub, hS, hc, hv, rfl⟩ := searchCache_found.mp hfound
      exact ⟨S.verId, c, hc, hv, hl.only e S c hub hS hc hv, rfl⟩
    · rintro ⟨v, c, hc, hv, hk, rfl⟩
      obtain ⟨e, S, hub, hS, rfl⟩ := hl.there v c hc hv hk
      exact searchCache_found.mpr ⟨e, S, c, hub, hS, hc, hv, rfl⟩

end Owned

/-- A region the scan finds can be found by the search: it has an upper bound, and
no cached region with an empty range ends between the key and this bound. -/
def Findable (rc : RegionCache) (key : Str) (R : Region) : Prop :=
  R.endKey ≠ [] ∧ ∀ (w : RegionVerID) (d : CachedRegion), rc.cachedRegions[w]? = some d →
    d.region.endKey ≤ d.region.startKey → ¬ (key < d.region.endKey ∧ d.region.endKey < R.endKey)

namespace Agreement

variable {rc : RegionCache}

/-- The cached region an entry names has the version and range of the entry. -/
theorem keyLoc_eq (h : Agreement rc) {e : Str} {S : Region} {c : CachedRegion}
    (hS : rc.sorted[e]? = some S) (hc : rc.cachedRegions[S.verId]? = some c) :
    c.region.keyLoc = S.keyLoc := by
  obtain ⟨d, hd, hdS⟩ := h.sorted_cached e S hS
  rw [← hdS, Option.some.inj (hc.symm.trans hd)]

/-- With disjoint ranges the first entry above a key belongs to the bounded region
that holds the key, or to a region with an empty range. -/
theorem upperBound_of_contains (h : Agreement rc) (hd : DisjointRanges rc) {key : Str}
    {v : RegionVerID} {c : CachedRegion} (hc : rc.cachedRegions[v]? = some c)
    (hk : c.region.contains key = true) (hb : c.region.endKey ≠ []) :
    ∃ e S, rc.sorted.upperBound key = some (e, S) ∧
      (S.keyLoc = c.region.keyLoc ∨ S.endKey ≤ S.startKey ∧ key < S.endKey ∧ S.endKey < c.region.endKey) := by
  obtain ⟨R, hR, hRc⟩ := h.cached_sorted v c hc
  have hin := Region.contains_iff.mp hk
  obtain ⟨e, S, hub, hle⟩ := OrdMap.exists_upperBound hR (hin.2.resolve_right hb)
  obtain ⟨hS, hlt, _⟩ := OrdMap.upperBound_eq_some.mp hub
  refine ⟨e, S, hub, ?_⟩
  have hSe := h.sorted_end e S hS
  rcases hle.eq_or_lt with heq | hlt'
  · left
    rw [← hRc]
    exact congrArg Region.keyLoc (Option.some.inj (hS.symm.trans (heq ▸ hR)))
  · right
    refine ⟨?_, hSe ▸ hlt, hSe ▸ hlt'⟩
    by_contra hne
    obtain ⟨d, hdv, hdS⟩ := h.sorted_cached e S hS
    -- the start key of the entry's range would put the range of the entry across that of the region
    have hstart : S.startKey ∈ Order.span S.startKey S.endKey := ⟨le_rfl, .inl (not_le.mp hne)⟩
    obtain ⟨y, hy, hy'⟩ := Order.exists_common_of_end_inside hin hstart (hSe ▸ hlt) (.inl (hSe ▸ hlt'.le))
    have hdy : d.region.contains y = true := by
      rw [contains_of_keyLoc_eq hdS]
      exact Region.contains_iff.mpr hy'
    have hv := hd v S.verId c d y hc hdv (Region.contains_iff.mpr hy) hdy
    obtain rfl := Option.some.inj (hc.symm.trans (hv ▸ hdv))
    rw [(keyLoc_eq_iff.mp hdS).2.2, hSe] at hlt'
    exact lt_irrefl e hlt'

theorem searchAgrees_iff (h : Agreement rc) (hd : DisjointRanges rc) (key : Str) (t now : Time) :
    SearchAgrees rc key t now ↔ ∀ R, Scanned rc key t R → Findable rc key R := by
  rw [h.toOwned.searchAgrees_iff]
  constructor
  · rintro hl R ⟨v, c, hc, hv, hk, rfl⟩
    obtain ⟨e, S, hub, hS, hSv⟩ := hl.there v c hc hv hk
    obtain ⟨hSe, hlt, hmin⟩ := OrdMap.upperBound_eq_some.mp hub
    have hend : c.region.endKey = e := by
      rw [(keyLoc_eq_iff.mp (h.keyLoc_eq hSe (hSv ▸ hc))).2.2, h.sorted_end e S hSe]
    refine ⟨hend ▸ Order.upperBound_ne_bot hub, fun w d hw _ hbetween => ?_⟩
    obtain ⟨T, hT, _⟩ := h.cached_sorted w d hw
    exact absurd (hmin _ T hT hbetween.1) (not_le.mpr (hend ▸ hbetween.2))
  · intro hf
    refine ⟨fun v c hc hv hk => ?_, fun e S c hub hS hc _ => ?_⟩
    · obtain ⟨hb, hempty⟩ := hf c.region ⟨v, c, hc, hv, hk, rfl⟩
      obtain ⟨e, S, hub, hS | ⟨hle, hlt, hlt'⟩⟩ := h.upperBound_of_contains hd hc hk hb
      · refine ⟨e, S, hub, by rw [contains_of_keyLoc_eq hS]; exact hk, ?_⟩
        rw [(keyLoc_eq_iff.mp hS).1, h.cached_ver v c hc]
      · obtain ⟨d, hdv, hdS⟩ := h.sorted_cached e S (OrdMap.upperBound_eq_some.mp hub).1
        obtain ⟨_, hs, he⟩ := keyLoc_eq_iff.mp hdS
        exact absurd ⟨he ▸ hlt, he ▸ hlt'⟩ (hempty S.verId d hdv (by rw [hs, he]; exact hle))
    · rw [contains_of_keyLoc_eq (h.keyLoc_eq (OrdMap.upperBound_eq_some.mp hub).1 hc)]
      exact hS

end Agreement

/-! ### A fixed partition -/

section Runs

variable {ι : Type}

/-- A version cached before an event that neither drops it nor inserts another
version under its end key is cached after it. -/
theorem Agreement.commit_kept {rc : RegionCache} (h : Agreement rc) {e : Event ι} {v : RegionVerID}
    {c : CachedRegion} (hc : rc.cachedRegions[v]? = some c) (hd : ¬ e.Drops v)
    (hi : ∀ i r now, e = .insert i r now → r.verId ≠ v → r.endKey ≠ c.region.endKey) :
    ∃ c' : CachedRegion, (e.commit rc).cachedRegions[v]? = some c' ∧
      ((c'.region.keyLoc = c.region.keyLoc ∧ c'.lastAccess = c.lastAccess) ∨
        ∃ i now, e = .insert i c'.region now) := by
  cases e with
  | insert i r now =>
    simp only [Event.commit, insertRegionToCache_cachedRegions]
    split_ifs with hv hev
    · exact ⟨_, rfl, .inr ⟨i, now, rfl⟩⟩
    · -- the evicted version would own the entry under the inserted end key
      obtain ⟨S, hS, rfl⟩ := Option.map_eq_some_iff.mp hev
      refine absurd ?_ (hi i r now rfl hv)
      rw [(keyLoc_eq_iff.mp (h.keyLoc_eq hS hc)).2.2, h.sorted_end _ S hS]
    · exact ⟨c, hc, .inl ⟨rfl, rfl⟩⟩
  | dropContext i w | dropRegion i w =>
    simp only [Event.commit, dropRegionFromCache_cachedRegions, if_neg (show ¬ w = v from hd)]
    exact ⟨c, hc, .inl ⟨rfl, rfl⟩⟩
  | updateRegionLeader i w s t now =>
    simp only [Event.commit, updateRegionLeader_cachedRegions, hc, Option.map_some]
    refine ⟨_, rfl, .inl ?_⟩
    split_ifs <;> exact ⟨rfl, rfl⟩
  | search | request | readRegion | findStore | requestStore | writeStore =>
    exact ⟨c, hc, .inl ⟨rfl, rfl⟩⟩

variable [DecidableEq ι] {tr : List (Event ι)} {s : Sys ι} {p : Partition}

/-- Under a fixed partition the cached ranges are disjoint and none is empty. -/
theorem disjointRanges_of_servedBy (h : run step (Sys.init ι) tr = some s) (hp : ServedBy p tr) :
    DisjointRanges s.cache := by
  intro v w c d key hc hd hk hk'
  have hsrc := sourced h
  have ho := owned h
  have heq := p.unique _ (hp.mem (hsrc.cached v c hc)).1 _ (hp.mem (hsrc.cached w d hd)).1 key hk hk'
  rw [← ho.cached_ver v c hc, ← ho.cached_ver w d hd]
  exact (keyLoc_eq_iff.mp heq).1

/-- Under a fixed partition the search misses regions without upper bound, and no others. -/
theorem searchAgrees_iff_of_servedBy (h : run step (Sys.init ι) tr = some s) (hp : ServedBy p tr)
    (key : Str) (t now : Time) :
    SearchAgrees s.cache key t now ↔ ∀ R, Scanned s.cache key t R → R.endKey ≠ [] := by
  rw [(agreement h hp.consistent).searchAgrees_iff (disjointRanges_of_servedBy h hp)]
  refine ⟨fun hf R hR => (hf R hR).1, fun hb R hR => ⟨hb R hR, fun w d hw hle hbetween => ?_⟩⟩
  obtain ⟨x, hx⟩ := (hp.mem ((sourced h).cached w d hw)).2
  have hlt := Order.lower_lt_of_mem (Region.contains_iff.mp hx) (bot_le.trans_lt hbetween.1).ne'
  exact absurd hle (not_le.mpr hlt)

/-- Under a fixed partition a loaded region stays cached until it is dropped. -/
theorem cached_of_insert (h : run step (Sys.init ι) tr = some s) (hp : ServedBy p tr)
    {pre post : List (Event ι)} {i : ι} {r : Region} {t₀ : Time}
    (htr : tr = pre ++ .insert i r t₀ :: post) (hd : ∀ e ∈ post, ¬ e.Drops r.verId) :
    ∃ c : CachedRegion, s.cache.cachedRegions[r.verId]? = some c ∧ c.region.keyLoc = r.keyLoc := by
  refine run_induction (P := fun tr s => ServedBy p tr → ∀ post, tr = pre ++ .insert i r t₀ :: post →
    (∀ e ∈ post, ¬ e.Drops r.verId) →
    ∃ c : CachedRegion, s.cache.cachedRegions[r.verId]? = some c ∧ c.region.keyLoc = r.keyLoc)
    ?_ ?_ h hp post htr hd
  · intro _ post htr
    simp at htr
  · intro tr m e m' hrun ih he hp post htr hd
    have hstep := step_cases he
    have hp' : ServedBy p tr := ServedBy.of_append hp
    have hsrc := sourced hrun
    rw [hstep.cache]
    rcases snoc_eq_append_cons htr with ⟨rfl, rfl, rfl⟩ | ⟨post, rfl, rfl⟩
    · exact ⟨_, by rw [Event.commit, insertRegionToCache_cachedRegions, if_pos rfl], rfl⟩
    · obtain ⟨c, hc, hcr⟩ := ih hp' post rfl fun e he => hd e (by simp [he])
      have hmem := hp'.mem (hsrc.cached _ c hc)
      have hins : ∀ j r' now, e = .insert j r' now → r'.keyLoc ∈ p.regions ∧
          ∃ key, r'.contains key = true := by
        rintro j r' now rfl
        cases hstep with | insert hl => exact hp'.mem (hsrc.answered hl)
      obtain ⟨c', hc', ⟨hk, _⟩ | ⟨j, now, rfl⟩⟩ := (agreement hrun hp'.consistent).commit_kept hc
        (hd e (by simp)) fun j r' now hj hv hend => by
          obtain ⟨hr', k', hk'⟩ := hins j r' now hj
          obtain ⟨k, hk⟩ := hmem.2
          have heq := p.eq_of_end_eq hr' hmem.1 hk' hk hend
          exact hv ((keyLoc_eq_iff.mp (heq.trans hcr)).1)
      · exact ⟨c', hc', hk.trans hcr⟩
      · have hv := ((owned hrun).commit (.insert j c'.region now)).cached_ver _ c' hc'
        refine ⟨c', hc', p.ids _ (hins j _ now rfl).1 _ (hcr ▸ hmem.1) ?_⟩
        exact congrArg RegionVerID.id hv

/-- How far the ordered search agrees with the scan, in every state that any number
of clients reach. Whatever PD answers, exactly where the first entry above the key
leads to the region that holds it; with disjoint ranges, if PD never gives one version
two ranges, exactly where every region the scan finds is findable. Under a
fixed partition these are the regions with an upper bound: a loaded region stays
cached until it is dropped, and until it expires a second lookup of any of its keys
hits if and only if its end key is not empty. -/
theorem searchCache_agrees_iff (h : run step (Sys.init ι) tr = some s) (key : Str) (t now : Time) :
    (SearchAgrees s.cache key t now ↔ FirstEntryLeads s.cache key t) ∧
    (DisjointRanges s.cache → Consistent (regionAnswers tr) →
      (SearchAgrees s.cache key t now ↔ ∀ R, Scanned s.cache key t R → Findable s.cache key R)) ∧
    ∀ p, ServedBy p tr →
      (SearchAgrees s.cache key t now ↔ ∀ R, Scanned s.cache key t R → R.endKey ≠ []) ∧
      ∀ pre i r t₀ post, tr = pre ++ .insert i r t₀ :: post → (∀ e ∈ post, ¬ e.Drops r.verId) →
        ∃ c : CachedRegion, s.cache.cachedRegions[r.verId]? = some c ∧ c.region.keyLoc = r.keyLoc ∧
          (c.isValid t = true → r.contains key = true →
            ((s.cache.searchCache key t now).1 = some c.region ↔ r.endKey ≠ [])) := by
  refine ⟨(owned h).searchAgrees_iff key t now, fun hd hc => (agreement h hc).searchAgrees_iff hd key t now,
    fun p hp => ⟨searchAgrees_iff_of_servedBy h hp key t now, fun pre i r t₀ post htr hdrop => ?_⟩⟩
  obtain ⟨c, hc, hk⟩ := cached_of_insert h hp htr hdrop
  refine ⟨c, hc, hk, fun hv hkey => ?_⟩
  have hend : c.region.endKey = r.endKey := (keyLoc_eq_iff.mp hk).2.2
  rw [← contains_of_keyLoc_eq hk] at hkey
  have hscan : Scanned s.cache key t c.region := ⟨r.verId, c, hc, hv, hkey, rfl⟩
  rw [← hend]
  constructor
  · intro hfound
    obtain ⟨e, S, d, hub, _, hd, _, hdc⟩ := searchCache_found.mp hfound
    have ha := agreement h hp.consistent
    have hS := (OrdMap.upperBound_eq_some.mp hub).1
    rw [← hdc, (keyLoc_eq_iff.mp (ha.keyLoc_eq hS hd)).2.2, ha.sorted_end e S hS]
    exact Order.upperBound_ne_bot hub
  · intro hb
    -- the key lies in this cached region only, so all regions the scan finds are bounded
    have hall : ∀ R, Scanned s.cache key t R → R.endKey ≠ [] := by
      rintro R ⟨w, d, hd, _, hk', rfl⟩
      obtain rfl := disjointRanges_of_servedBy h hp _ _ _ _ key hc hd hkey hk'
      rw [← Option.some.inj (hc.symm.trans hd)]
      exact hb
    exact ((searchAgrees_iff_of_servedBy h hp key t now).mpr hall _).mpr hscan

/-- Three regions, the middle one `regionAM`. -/
def threeRegions : Partition :=
  .ofTiles [{ endKey := [0x61], regionVerId := ⟨1, 1, 1⟩ }, regionAM.keyLoc,
    { startKey := [0x6d], regionVerId := ⟨3, 1, 1⟩ }] (by decide) (by decide)

theorem servedBy_twoLoads : ServedBy threeRegions twoLoads := by
  intro i key resp hmem
  simp only [twoLoads, List.mem_cons, reduceCtorEq, Event.request.injEq, false_or, or_false,
    List.not_mem_nil] at hmem
  rcases hmem with ⟨_, rfl, hr⟩ | ⟨_, rfl, hr⟩ <;> obtain rfl := Except.ok.inj hr <;>
    exact ⟨by decide, by decide⟩

theorem searchCache_agrees_iff_twoLoads :
    ∃ s, run step (Sys.init Bool) twoLoads = some s ∧ ∃ c : CachedRegion,
      s.cache.cachedRegions[regionAM.verId]? = some c ∧
        (c.isValid 10 = true →
          (s.cache.searchCache [0x64] 10 10).1 = some c.region) := by
  have h := (Option.some_get twoLoads_isSome).symm
  obtain ⟨c, hc, _, hit⟩ := ((searchCache_agrees_iff h [0x64] 10 10).2.2
    threeRegions servedBy_twoLoads).2 (twoLoads.take 5) false regionAM 7
    (twoLoads.drop 6) rfl (by simp [twoLoads, Event.Drops])
  exact ⟨_, h, c, hc, fun hv => (hit hv (by decide)).mpr (by decide)⟩

/-- PD's only region, over the whole key space. -/
def answerAll : Pdpb.GetRegionResponse where
  region := { id := 2, regionEpoch := { confVer := 1, version := 1 }, peers := [{ id := 3, storeId := 1 }] }
  leader := { id := 3, storeId := 1 }

def regionAll : Region where
  verId := { id := 2, confVer := 1, ver := 1 }
  peers := [{ id := 3, storeId := 1 }]
  leader := { id := 3, storeId := 1 }

def wholeSpace : Partition := .ofTiles [regionAll.keyLoc] (by decide) (by decide)

/-- A client looks up `hello` and loads the only region. -/
def loadHello : List (Event Bool) :=
  [.search true [0x68, 0x65, 0x6c, 0x6c, 0x6f] 5 5,
    .request true [0x68, 0x65, 0x6c, 0x6c, 0x6f] (.ok answerAll), .insert true regionAll 5]

theorem loadHello_isSome : (run step (Sys.init Bool) loadHello).isSome := by decide

theorem servedBy_loadHello : ServedBy wholeSpace loadHello := by
  intro i key resp hmem
  simp only [loadHello, List.mem_cons, reduceCtorEq, Event.request.injEq, false_or, or_false,
    List.not_mem_nil] at hmem
  obtain ⟨_, rfl, hr⟩ := hmem
  obtain rfl := Except.ok.inj hr
  exact ⟨by decide, by decide⟩

/-- The second lookup of a key of the last region misses, at the very time it was loaded. -/
theorem searchCache_misses_last :
    ∃ s, run step (Sys.init Bool) loadHello = some s ∧ ServedBy wholeSpace loadHello ∧
      DisjointRanges s.cache ∧
      Scanned s.cache [0x68, 0x65, 0x6c, 0x6c, 0x6f] 5 regionAll ∧
      (s.cache.searchCache [0x68, 0x65, 0x6c, 0x6c, 0x6f] 5 5).1 = none ∧
      ¬ SearchAgrees s.cache [0x68, 0x65, 0x6c, 0x6c, 0x6f] 5 5 := by
  have h := (Option.some_get loadHello_isSome).symm
  have hscan : Scanned ((run step (Sys.init Bool) loadHello).get loadHello_isSome).cache
      [0x68, 0x65, 0x6c, 0x6c, 0x6f] 5 regionAll :=
    ⟨regionAll.verId, { region := regionAll, lastAccess := 5 }, rfl, by decide, by decide, rfl⟩
  refine ⟨_, h, servedBy_loadHello, disjointRanges_of_servedBy h servedBy_loadHello, hscan, rfl, ?_⟩
  intro hs
  have hfound := (hs regionAll).mpr hscan
  contradiction

end Runs

end TikvCpp.RegionCache
