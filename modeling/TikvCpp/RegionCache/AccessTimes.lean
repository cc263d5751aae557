import TikvCpp.RegionCache.Provenance

/-! The access time of a cached region. `get_cached_region` means to set it to the time
of the lookup, but its exchange expects the very value that it would write: it writes
only where nothing changes. So the access time stays the reading of the insert, the
TTL runs from there, and a lookup prolongs the life of a region only if it comes in
the second of the insert. -/

namespace TikvCpp

/-- The conversion of clock readings loses nothing. -/
theorem Time.toUInt64_inj {t u : Time} : t.toUInt64 = u.toUInt64 ↔ t.secs = u.secs := by
  rw [← UInt64.toNat_inj, Time.toNat_toUInt64, Time.toNat_toUInt64]

namespace RegionCache

open Data Transition

variable {ι : Type}

/-- The event is a successful lookup of version `v` by `locate_key` or `get_rpc_context`,
tested at `t` and to be recorded at `now`. -/
def Event.Looks (rc : RegionCache) (v : RegionVerID) (t now : Time) : Event ι → Prop
  | .search _ key t' now' =>
    t' = t ∧ now' = now ∧ ∃ R, (rc.searchCache key t now).1 = some R ∧ R.verId = v
  | .readRegion _ w t' now' =>
    t' = t ∧ now' = now ∧ w = v ∧ ∃ R, (rc.getCachedRegion v t now).1 = some R
  | _ => False

theorem Event.Looks.yields {rc : RegionCache} {v : RegionVerID} {t now : Time} {e : Event ι}
    (h : e.Looks rc v t now) : ∃ R, Yields rc v t now R := by
  cases e with
  | search i key t' now' =>
    obtain ⟨_, _, R, hs, hv⟩ := h
    exact ⟨R, .inr ⟨key, hs, hv⟩⟩
  | readRegion i w t' now' =>
    obtain ⟨_, _, _, R, hg⟩ := h
    exact ⟨R, .inl hg⟩
  | request | insert | findStore | requestStore | writeStore | dropContext | dropRegion
  | updateRegionLeader => exact h.elim

/-- The region under `v` is served at every time from `now` on for the TTL. -/
def ServedFrom (rc : RegionCache) (v : RegionVerID) (now : Time) : Prop :=
  ∀ t t' : Time, now.secs ≤ t.secs → t.secs < now.secs + 600 →
    ∃ R, (rc.getCachedRegion v t t').1 = some R

/-- A region cached at `t₀` is served for the whole TTL from `now` on only if the TTL
from `t₀` on ends no earlier, or time does. -/
theorem servedFrom_iff {rc : RegionCache} {v : RegionVerID} {c : CachedRegion} {t₀ now : Time}
    (hc : rc.cachedRegions[v]? = some c) (hla : c.lastAccess = t₀.toUInt64) (hle : t₀.secs ≤ now.secs) :
    ServedFrom rc v now ↔ now.secs = t₀.secs ∨ 2 ^ 63 ≤ t₀.secs + 600 := by
  have hserved : ∀ t t' : Time, (∃ R, (rc.getCachedRegion v t t').1 = some R) ↔
      t₀.secs ≤ t.secs ∧ t.secs < t₀.secs + 600 := by
    intro t t'
    rw [← CachedRegion.isValid_iff hla]
    constructor
    · rintro ⟨R, hR⟩
      obtain ⟨d, hd, hvalid, _⟩ := getCachedRegion_eq_some.mp hR
      rwa [Option.some.inj (hc.symm.trans hd)]
    · exact fun hvalid => ⟨_, getCachedRegion_eq_some.mpr ⟨c, hc, hvalid, rfl⟩⟩
  simp only [ServedFrom, hserved]
  have hnow := now.secs_lt
  constructor
  · intro h
    by_contra hno
    -- the first second after the TTL of the insert
    have hlt : max now.secs (t₀.secs + 600) < 2 ^ 63 := by omega
    have := h ⟨_, hlt⟩ now (le_max_left _ _) (by simp only; omega)
    simp only at this
    omega
  · intro h t _ ht ht'
    have := t.secs_lt
    omega

section Runs

variable [DecidableEq ι] {tr : List (Event ι)} {s : Sys ι}

/-- A cached region that was last inserted at `t₀`: a successful lookup leaves its
reading as the access time exactly if it reads `t₀`, and after a successful lookup at
`now` the region is served for the whole TTL exactly if `now` is `t₀`, or the clock
ends within the TTL. -/
theorem access_extends_iff (h : run step (Sys.init ι) tr = some s) {pre post : List (Event ι)} {i : ι}
    {r : Region} {t₀ : Time} (htr : tr = pre ++ .insert i r t₀ :: post)
    (hlast : NotInserted r.verId post) {c : CachedRegion}
    (hc : s.cache.cachedRegions[r.verId]? = some c) :
    (∀ t now R, (s.cache.getCachedRegion r.verId t now).1 = some R →
      (((s.cache.getCachedRegion r.verId t now).2.cachedRegions[r.verId]?).map CachedRegion.lastAccess =
        some now.toUInt64 ↔ now.secs = t₀.secs)) ∧
    ∀ mid e rest m t now, post = mid ++ e :: rest →
      run step (Sys.init ι) (pre ++ .insert i r t₀ :: mid) = some m → e.Looks m.cache r.verId t now →
      t.secs ≤ now.secs →
        (ServedFrom s.cache r.verId now ↔ now.secs = t₀.secs ∨ 2 ^ 63 ≤ t₀.secs + 600) := by
  obtain ⟨_, _, hla⟩ := inserted_last h htr hlast hc
  refine ⟨fun t now R _ => ?_, fun mid e rest m t now hpost hm hlook hle => ?_⟩
  · rw [getCachedRegion_snd, hc, Option.map_some, hla, Option.some.injEq, Time.toUInt64_inj]
    exact eq_comm
  · -- the lookup was within the TTL from the insert
    obtain ⟨R, hy⟩ := hlook.yields
    obtain ⟨d, hd, hvalid, _⟩ := (owned hm).cached_of_yields hy
    have hlast' : NotInserted r.verId mid := fun j r' t' hmem => hlast j r' t' (by simp [hpost, hmem])
    obtain ⟨_, _, hla'⟩ := inserted_last hm rfl hlast' hd
    have hfrom := ((CachedRegion.isValid_iff hla').mp hvalid).1
    exact servedFrom_iff hc hla (hfrom.trans hle)

/-- Inserted last at 7 and looked up at 9. -/
theorem access_extends_iff_twoLoads : ∃ s, run step (Sys.init Bool) twoLoads = some s ∧
    (ServedFrom s.cache regionAM.verId 9 ↔ (9 : Time).secs = (7 : Time).secs ∨
      2 ^ 63 ≤ (7 : Time).secs + 600) := by
  have h := (Option.some_get twoLoads_isSome).symm
  have htr : twoLoads = [.search true [0x62] 5 5, .search false [0x63] 5 5,
      .request true [0x62] (.ok answerAM), .request false [0x63] (.ok answerAM),
      .insert true regionAM 6] ++ .insert false regionAM 7 ::
        ([.updateRegionLeader true regionAM.verId 4 8 8] ++ .search true [0x64] 9 9 :: []) := rfl
  exact ⟨_, h, (access_extends_iff h htr (by simp [NotInserted]) rfl).2 _ _ [] _ 9 9 rfl rfl
    ⟨rfl, rfl, _, rfl, rfl⟩ le_rfl⟩

/-- A region inserted at 5 and found at 500. -/
def loadAndFind : List (Event Bool) :=
  [.search true [0x62] 5 5, .request true [0x62] (.ok answerAM), .insert true regionAM 5,
    .search true [0x64] 500 500]

theorem loadAndFind_isSome : (run step (Sys.init Bool) loadAndFind).isSome := by decide

/-- At 700, 200 seconds after it was found, it is served no more. -/
theorem access_does_not_extend : ∃ s, run step (Sys.init Bool) loadAndFind = some s ∧
    s.phase true = .idle (some (.locateKey [0x64] (.ok regionAM.keyLoc) (some true))) ∧
    (s.cache.cachedRegions[regionAM.verId]?).isSome = true ∧
    (s.cache.getCachedRegion regionAM.verId 700 700).1 = none ∧
    ¬ ServedFrom s.cache regionAM.verId 500 := by
  have h := (Option.some_get loadAndFind_isSome).symm
  refine ⟨_, h, rfl, rfl, rfl, fun hserved => ?_⟩
  obtain ⟨R, hR⟩ := hserved 700 700 (by decide) (by decide)
  contradiction

end Runs

end RegionCache

end TikvCpp
