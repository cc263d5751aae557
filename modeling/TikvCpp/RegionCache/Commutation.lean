import TikvCpp.RegionCache.Epochs

/-! Independent updates of the cache. Two updates that concern different versions,
and different end keys if both insert, lead to one cache in either order, although
each of them touches both maps and an insert evicts a third version. What this rests
on is that a cached version owns its entry of `sorted_`, so a drop and an insert under
one end key meet in one entry, and that a version has one range, so an insert never
evicts the version that the other one inserts. -/

namespace TikvCpp.RegionCache

open Data Transition

/-- An update of the cache, with what it reads from the clock. -/
inductive Update
  | insert (r : Region) (now : Time)
  | drop (verId : RegionVerID)
  | updateLeader (verId : RegionVerID) (leaderStoreId : UInt16) (t now : Time)

namespace Update

def apply : Update → RegionCache → RegionCache
  | .insert r now, rc => rc.insertRegionToCache r now
  | .drop verId, rc => rc.dropRegionFromCache verId
  | .updateLeader verId leaderStoreId t now, rc => rc.updateRegionLeader verId leaderStoreId t now

/-- The version that the update concerns. -/
def verId : Update → RegionVerID
  | .insert r _ => r.verId
  | .drop v | .updateLeader v _ _ _ => v

/-- The regions that the update brings in. -/
def regions : Update → List Region
  | .insert r _ => [r]
  | .drop _ | .updateLeader _ _ _ _ => []

end Update

/-- The updates concern different versions, and two inserts different end keys. -/
def Independent (u u' : Update) : Prop :=
  u.verId ≠ u'.verId ∧ ∀ r ∈ u.regions, ∀ r' ∈ u'.regions, r.endKey ≠ r'.endKey

instance instDecidableIndependent (u u' : Update) : Decidable (Independent u u') :=
  inferInstanceAs (Decidable (_ ∧ ∀ r ∈ u.regions, ∀ r' ∈ u'.regions, _))

theorem Independent.symm {u u' : Update} (h : Independent u u') : Independent u' u :=
  ⟨h.1.symm, fun r hr r' hr' => (h.2 r' hr' r hr).symm⟩

/-- Caches with the same entries are the same. -/
theorem eq_of_get {a b : RegionCache} (hs : ∀ e : Str, a.sorted[e]? = b.sorted[e]?)
    (hc : ∀ v : RegionVerID, a.cachedRegions[v]? = b.cachedRegions[v]?) (hst : a.stores = b.stores) :
    a = b := by
  cases a
  cases b
  congr
  · exact Std.ExtTreeMap.ext_getElem? hs
  · exact Std.ExtTreeMap.ext_getElem? hc

/-! ### Pairs of updates -/

variable {rc : RegionCache}

/-- Neither insert evicts the version of the other. -/
theorem insert_insert_comm {r r' : Region} {now now' : Time} (hv : r.verId ≠ r'.verId)
    (he : r.endKey ≠ r'.endKey) (hr : ∀ S : Region, rc.sorted[r.endKey]? = some S → S.verId ≠ r'.verId)
    (hr' : ∀ S : Region, rc.sorted[r'.endKey]? = some S → S.verId ≠ r.verId) :
    (rc.insertRegionToCache r now).insertRegionToCache r' now' =
      (rc.insertRegionToCache r' now').insertRegionToCache r now := by
  refine eq_of_get (fun e => ?_) (fun v => ?_) rfl
  · simp only [insertRegionToCache_sorted]
    split_ifs with h' h
    · exact absurd (h.trans h'.symm) he
    · rfl
    · rfl
    · rfl
  · have hev : (rc.sorted[r.endKey]?).map Region.verId ≠ some r'.verId := by
      intro h
      obtain ⟨S, hS, hSv⟩ := Option.map_eq_some_iff.mp h
      exact hr S hS hSv
    have hev' : (rc.sorted[r'.endKey]?).map Region.verId ≠ some r.verId := by
      intro h
      obtain ⟨S, hS, hSv⟩ := Option.map_eq_some_iff.mp h
      exact hr' S hS hSv
    simp only [insertRegionToCache_cachedRegions, insertRegionToCache_sorted, if_neg he, if_neg he.symm]
    by_cases h : r.verId = v
    · have h' : r'.verId ≠ v := fun h' => hv (h.trans h'.symm)
      rw [h] at hev'
      simp only [h, h', hev', if_true, if_false]
    · by_cases h' : r'.verId = v
      · rw [h'] at hev
        simp only [h, h', hev, if_true, if_false]
      · simp only [h, h', if_false]
        split_ifs <;> rfl

/-- The insert evicts the dropped version or leaves its entry alone. -/
theorem insert_drop_comm (ho : Owned rc) {r : Region} {now : Time} {v : RegionVerID} (hv : r.verId ≠ v)
    (hr : ∀ (S : Region) (c : CachedRegion), rc.sorted[r.endKey]? = some S → S.verId = v →
      rc.cachedRegions[v]? = some c → c.region.endKey = r.endKey) :
    (rc.insertRegionToCache r now).dropRegionFromCache v =
      (rc.dropRegionFromCache v).insertRegionToCache r now := by
  -- the dropped version has the inserted end key exactly if the insert evicts it
  have howns : (rc.cachedRegions[v]?).map (·.region.endKey) = some r.endKey →
      (rc.sorted[r.endKey]?).map Region.verId = some v := by
    intro h
    obtain ⟨c, hc, he⟩ := Option.map_eq_some_iff.mp h
    obtain ⟨S, hS, hSc⟩ := ho.cached_sorted v c hc
    rw [← he, hS, Option.map_some, (keyLoc_eq_iff.mp hSc).1, ho.cached_ver v c hc]
  refine eq_of_get (fun e => ?_) (fun w => ?_) (by simp)
  · simp only [dropRegionFromCache_sorted, insertRegionToCache_sorted, insertRegionToCache_cachedRegions,
      if_neg hv]
    by_cases hev : (rc.sorted[r.endKey]?).map Region.verId = some v
    · have hend : r.endKey ≠ e → (rc.cachedRegions[v]?).map (·.region.endKey) ≠ some e := by
        intro hne h
        obtain ⟨S, hS, hSv⟩ := Option.map_eq_some_iff.mp hev
        obtain ⟨c, hc, he⟩ := Option.map_eq_some_iff.mp h
        exact hne ((hr S c hS hSv hc).symm.trans he)
      by_cases he : r.endKey = e
      · subst he
        simp only [hev, if_true, Option.map_none, reduceCtorEq, if_false]
      · simp only [hev, he, hend he, if_true, if_false, Option.map_none, reduceCtorEq]
    · by_cases he : r.endKey = e
      · subst he
        have hne : (rc.cachedRegions[v]?).map (·.region.endKey) ≠ some r.endKey := fun h => hev (howns h)
        simp only [hev, hne, if_true, if_false]
      · simp only [hev, he, if_false]
  · simp only [dropRegionFromCache_sorted, dropRegionFromCache_cachedRegions,
      insertRegionToCache_cachedRegions]
    by_cases hw : v = w
    · subst hw
      simp only [hv, if_true, if_false, ite_self]
    · by_cases hd : (rc.cachedRegions[v]?).map (·.region.endKey) = some r.endKey
      · have hne : (rc.sorted[r.endKey]?).map Region.verId ≠ some w := by
          rw [howns hd]
          exact fun h => hw (Option.some.inj h)
        simp [hw, hd, hne]
      · simp only [hw, hd, if_false]

theorem insert_updateLeader_comm {r : Region} {now t now' : Time} {v : RegionVerID} {st : UInt16}
    (hv : r.verId ≠ v) : (rc.insertRegionToCache r now).updateRegionLeader v st t now' =
      (rc.updateRegionLeader v st t now').insertRegionToCache r now := by
  refine eq_of_get (fun e => ?_) (fun w => ?_) (by simp)
  · simp only [updateRegionLeader_sorted, insertRegionToCache_sorted]
  · simp only [updateRegionLeader_cachedRegions, insertRegionToCache_cachedRegions, updateRegionLeader_sorted]
    by_cases hw : r.verId = w
    · have hne : v ≠ w := fun h => hv (hw.trans h.symm)
      simp only [hw, hne, if_true, false_and, if_false, Option.map_some]
    · simp only [hw, if_false]
      split_ifs <;> rfl

theorem drop_drop_comm (v w : RegionVerID) (hv : v ≠ w) :
    (rc.dropRegionFromCache v).dropRegionFromCache w = (rc.dropRegionFromCache w).dropRegionFromCache v := by
  refine eq_of_get (fun e => ?_) (fun u => ?_) (by simp)
  · simp only [dropRegionFromCache_sorted, dropRegionFromCache_cachedRegions, if_neg hv, if_neg hv.symm]
    split_ifs <;> rfl
  · simp only [dropRegionFromCache_cachedRegions]
    split_ifs <;> rfl

theorem drop_updateLeader_comm {v w : RegionVerID} {st : UInt16} {t now : Time} :
    (rc.dropRegionFromCache v).updateRegionLeader w st t now =
      (rc.updateRegionLeader w st t now).dropRegionFromCache v := by
  refine eq_of_get (fun e => ?_) (fun u => ?_) (by simp)
  · have hend : ((rc.updateRegionLeader w st t now).cachedRegions[v]?).map (·.region.endKey) =
        (rc.cachedRegions[v]?).map (·.region.endKey) := by
      rw [updateRegionLeader_cachedRegions, Option.map_map]
      congr 1
      funext c
      simp only [Function.comp_apply]
      split_ifs <;> rfl
    simp only [updateRegionLeader_sorted, dropRegionFromCache_sorted, hend]
  · simp only [updateRegionLeader_cachedRegions, dropRegionFromCache_cachedRegions]
    split_ifs <;> rfl

theorem updateLeader_updateLeader_comm {v w : RegionVerID} {st st' : UInt16} {t now t' now' : Time}
    (hv : v ≠ w) : (rc.updateRegionLeader v st t now).updateRegionLeader w st' t' now' =
      (rc.updateRegionLeader w st' t' now').updateRegionLeader v st t now := by
  refine eq_of_get (fun e => by simp) (fun u => ?_) (by simp)
  simp only [updateRegionLeader_cachedRegions, Option.map_map]
  congr 1
  funext c
  simp only [Function.comp_apply]
  by_cases hu : v = u
  · have hne : w ≠ u := fun h => hv (hu.trans h.symm)
    simp only [hne, false_and, if_false]
  · simp only [hu, false_and, if_false]

/-! ### Reachable caches -/

section Runs

variable {ι : Type}

/-- The regions inserted so far, in order. -/
def insertedRegions (tr : List (Event ι)) : List Region :=
  tr.filterMap fun
    | .insert _ r _ => some r
    | _ => none

theorem mem_insertedRegions {tr : List (Event ι)} {i : ι} {r : Region} {now : Time}
    (h : .insert i r now ∈ tr) : r ∈ insertedRegions tr := List.mem_filterMap.mpr ⟨_, h, rfl⟩

variable [DecidableEq ι] {tr : List (Event ι)} {s : Sys ι}

theorem insertedRegions_of_sorted (h : run step (Sys.init ι) tr = some s) {e : Str} {R : Region}
    (hR : s.cache.sorted[e]? = some R) : R ∈ insertedRegions tr := by
  obtain ⟨pre, i, t, post, htr, _⟩ := sorted_inserted h hR
  have hmem : .insert i R t ∈ tr := by rw [htr]; simp
  exact mem_insertedRegions hmem

theorem insertedRegions_of_cached (h : run step (Sys.init ι) tr = some s) {v : RegionVerID}
    {c : CachedRegion} (hc : s.cache.cachedRegions[v]? = some c) :
    ∃ r ∈ insertedRegions tr, r.keyLoc = c.region.keyLoc := by
  obtain ⟨pre, i, r, t, post, htr, _, _, hreg, _⟩ := inserted h hc
  have hmem : .insert i r t ∈ tr := by rw [htr]; simp
  exact ⟨r, mem_insertedRegions hmem, by rw [hreg, switches_keyLoc]⟩

/-- If the regions inserted so far and the new ones never give one version two ranges,
two independent updates of a reached cache lead to the same maps, and to the same
result of every search, in either order. -/
theorem updates_commute (h : run step (Sys.init ι) tr = some s) {u w : Update}
    (hc : Consistent (insertedRegions tr ++ (u.regions ++ w.regions))) (hi : Independent u w) :
    (w.apply (u.apply s.cache)).sorted = (u.apply (w.apply s.cache)).sorted ∧
    (w.apply (u.apply s.cache)).cachedRegions = (u.apply (w.apply s.cache)).cachedRegions ∧
    ∀ key t now, ((w.apply (u.apply s.cache)).searchCache key t now).1 =
      ((u.apply (w.apply s.cache)).searchCache key t now).1 := by
  have ho := owned h
  -- an insert under one end key does not evict a version inserted under another
  have hins : ∀ {r r' S : Region}, r' ∈ u.regions ++ w.regions → r.endKey ≠ r'.endKey →
      s.cache.sorted[r.endKey]? = some S → S.verId ≠ r'.verId := by
    intro r r' S hr' hne hS hv
    have hmem := List.mem_append_left (u.regions ++ w.regions) (insertedRegions_of_sorted h hS)
    have hend := (hc S hmem r' (List.mem_append_right _ hr') hv).2
    exact hne ((ho.sorted_end _ S hS).symm.trans hend)
  -- an insert that evicts a cached version evicts it under its end key
  have hev : ∀ {r : Region} {v : RegionVerID} (S : Region) (c : CachedRegion),
      s.cache.sorted[r.endKey]? = some S → S.verId = v → s.cache.cachedRegions[v]? = some c →
        c.region.endKey = r.endKey := by
    intro r v S c hS hv hcv
    obtain ⟨q, hq, hqc⟩ := insertedRegions_of_cached h hcv
    have hmem := List.mem_append_left (u.regions ++ w.regions) (insertedRegions_of_sorted h hS)
    have hqv : q.verId = S.verId := by rw [(keyLoc_eq_iff.mp hqc).1, ho.cached_ver v c hcv, hv]
    have hend := (hc q (List.mem_append_left _ hq) S hmem hqv).2
    rw [← (keyLoc_eq_iff.mp hqc).2.2, hend, ho.sorted_end _ S hS]
  have heq : w.apply (u.apply s.cache) = u.apply (w.apply s.cache) := by
    obtain ⟨hv, he⟩ := hi
    cases u with
    | insert r now =>
      cases w with
      | insert r' now' =>
        have hne : r.endKey ≠ r'.endKey := he r (by simp [Update.regions]) r' (by simp [Update.regions])
        exact insert_insert_comm hv hne (fun _ => hins (by simp [Update.regions]) hne)
          fun _ => hins (by simp [Update.regions]) hne.symm
      | drop v => exact insert_drop_comm ho hv hev
      | updateLeader v st t now' => exact insert_updateLeader_comm hv
    | drop v =>
      cases w with
      | insert r' now' => exact (insert_drop_comm ho hv.symm hev).symm
      | drop v' => exact drop_drop_comm v v' hv
      | updateLeader v' st t now' => exact drop_updateLeader_comm
    | updateLeader v st t now =>
      cases w with
      | insert r' now' => exact (insert_updateLeader_comm hv.symm).symm
      | drop v' => exact drop_updateLeader_comm.symm
      | updateLeader v' st' t' now' => exact updateLeader_updateLeader_comm hv
  rw [heq]
  exact ⟨rfl, rfl, fun _ _ _ => rfl⟩

/-- PD's region of the keys from `a` to `m` after a split at `g`. -/
def regionAG : Region where
  verId := { id := 2, confVer := 1, ver := 2 }
  startKey := [0x61]
  endKey := [0x67]
  peers := regionAM.peers
  leader := regionAM.leader

theorem updates_commute_twoLoads : ∃ s, run step (Sys.init Bool) twoLoads = some s ∧
    ((s.cache.insertRegionToCache regionAG 9).dropRegionFromCache regionAM.verId).sorted =
      ((s.cache.dropRegionFromCache regionAM.verId).insertRegionToCache regionAG 9).sorted := by
  have h := (Option.some_get twoLoads_isSome).symm
  exact ⟨_, h, (updates_commute (u := .insert regionAG 9) (w := .drop regionAM.verId) h (by decide)
    (by decide)).1⟩

end Runs

end TikvCpp.RegionCache
