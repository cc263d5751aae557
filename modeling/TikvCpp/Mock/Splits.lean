import TikvCpp.Mock.History
import TikvCpp.Order.Tiling

/-! Splits of a cluster with any arguments. `Cluster::split` checks only the number of
peers: the region may be missing, the key may lie outside it, and the new id may be taken.
The regions keep tiling the key space in exactly the cases of `KeepsTiling`. -/

namespace TikvCpp.Cluster

open Data Transition TikvCpp.Order

/-- The ranges of the regions by their ids. -/
def ranges (c : Cluster) (i : UInt64) : Option (Str × Str) :=
  (c.regions[i]?).map fun r => (r.startKey, r.endKey)

/-- Every key lies in exactly one region, and no region is empty. -/
structure Tiled (c : Cluster) : Prop where
  covers : ∀ key, ∃ (i : UInt64) (r : Region), c.regions[i]? = some r ∧ r.contains key = true
  unique : ∀ (i j : UInt64) (r r' : Region) (key : Str), c.regions[i]? = some r →
    c.regions[j]? = some r' → r.contains key = true → r'.contains key = true → i = j
  start_mem : ∀ (i : UInt64) (r : Region), c.regions[i]? = some r → r.contains r.startKey = true

theorem ranges_eq_some {c : Cluster} {i : UInt64} {s : Str × Str} :
    c.ranges i = some s ↔ ∃ r, c.regions[i]? = some r ∧ (r.startKey, r.endKey) = s :=
  Option.map_eq_some_iff

theorem ranges_of_region {c : Cluster} {i : UInt64} {r : Region} (h : c.regions[i]? = some r) :
    c.ranges i = some (r.startKey, r.endKey) :=
  ranges_eq_some.mpr ⟨r, h, rfl⟩

theorem tiled_iff {c : Cluster} : c.Tiled ↔ Tiles c.ranges := by
  constructor
  · intro h
    constructor
    · intro key
      obtain ⟨i, r, hr, hkey⟩ := h.covers key
      exact ⟨i, _, ranges_of_region hr, Region.contains_iff.mp hkey⟩
    · intro i j s t key hs ht hkey hkey'
      obtain ⟨r, hr, rfl⟩ := ranges_eq_some.mp hs
      obtain ⟨r', hr', rfl⟩ := ranges_eq_some.mp ht
      exact h.unique i j r r' key hr hr' (Region.contains_iff.mpr hkey) (Region.contains_iff.mpr hkey')
    · intro i s hs
      obtain ⟨r, hr, rfl⟩ := ranges_eq_some.mp hs
      exact Region.contains_iff.mp (h.start_mem i r hr)
  · intro h
    constructor
    · intro key
      obtain ⟨i, s, hs, hkey⟩ := h.covers key
      obtain ⟨r, hr, rfl⟩ := ranges_eq_some.mp hs
      exact ⟨i, r, hr, Region.contains_iff.mpr hkey⟩
    · intro i j r r' key hr hr' hkey hkey'
      exact h.unique i j _ _ key (ranges_of_region hr) (ranges_of_region hr')
        (Region.contains_iff.mp hkey) (Region.contains_iff.mp hkey')
    · intro i r hr
      exact Region.contains_iff.mpr (h.start_mem i _ (ranges_of_region hr))

theorem Cuts.tiled {c : Cluster} (h : c.Cuts) : c.Tiled := ⟨h.covers, h.unique, h.start_mem⟩

/-- `Cluster::split` as a step, with whatever arguments it is given. -/
def splitAny (c : Cluster) (a : SplitCall) : Option Cluster :=
  c.split a.regionId a.newRegionId a.key a.peerIds a.leaderId

/-- The split cuts the range of the region, or the whole key space if the region is missing. -/
theorem splitAny_ranges {c c' : Cluster} {a : SplitCall} (h : c.splitAny a = some c') :
    c'.ranges = cutAt c.ranges a.regionId a.newRegionId ((c.ranges a.regionId).getD ([], [])) a.key := by
  obtain ⟨⟨old, new⟩, hsplit, rfl⟩ := Option.map_eq_some_iff.mp h
  unfold Region.split at hsplit
  split_ifs at hsplit
  obtain ⟨rfl, rfl⟩ := Prod.mk.inj (Option.some.inj hsplit)
  have hrange : (c.ranges a.regionId).getD ([], []) =
      ((c.regions.getD a.regionId {}).startKey, (c.regions.getD a.regionId {}).endKey) := by
    rw [ranges, Std.ExtTreeMap.getD_eq_getD_getElem?]
    cases c.regions[a.regionId]? <;> rfl
  rw [hrange]
  funext i
  simp only [ranges, OrdMap.get_insert]
  by_cases hj : i = a.newRegionId
  · rw [if_pos hj.symm, hj, cutAt_upper]
    rfl
  · rw [if_neg (Ne.symm hj)]
    by_cases hi : i = a.regionId
    · rw [if_pos hi.symm, hi, cutAt_lower (hi ▸ hj)]
      rfl
    · rw [if_neg (Ne.symm hi), cutAt_other hi hj, ranges]

/-- A split that keeps the key space tiled: strictly inside a region and under a fresh id;
or of a region at its start key, onto itself; or of a missing region, with an upper part
that takes the id of the only region. -/
def KeepsTiling (c : Cluster) (a : SplitCall) : Prop :=
  match c.regions[a.regionId]? with
  | some r =>
    (r.contains a.key = true ∧ a.key ≠ r.startKey ∧ c.regions[a.newRegionId]? = none) ∨
      (a.newRegionId = a.regionId ∧ a.key = r.startKey)
  | none => a.key ≠ [] ∧ c.regions.keys.all (· == a.newRegionId) = true

instance (c : Cluster) (a : SplitCall) : Decidable (c.KeepsTiling a) := by
  unfold KeepsTiling
  cases c.regions[a.regionId]? <;> infer_instance

theorem tiled_step {c c' : Cluster} {a : SplitCall} (hc : c.Tiled) (h : c.splitAny a = some c') :
    c'.Tiled ↔ c.KeepsTiling a := by
  have htiles := tiled_iff.mp hc
  rw [tiled_iff, splitAny_ranges h]
  cases hr : c.regions[a.regionId]? with
  | some r =>
    have hget := ranges_of_region hr
    have hnone : c.ranges a.newRegionId = none ↔ c.regions[a.newRegionId]? = none := Option.map_eq_none_iff
    simp only [KeepsTiling, hr]
    rw [hget, Option.getD_some, htiles.cutAt_iff hget, hnone, Region.contains_iff]
  | none =>
    have hget : c.ranges a.regionId = none := Option.map_eq_none_iff.mpr hr
    simp only [KeepsTiling, hr]
    rw [hget, Option.getD_none]
    refine (htiles.cutAt_whole_iff hget).trans (and_congr_right fun _ => ?_)
    simp only [List.all_eq_true, beq_iff_eq]
    constructor
    · intro hall i hi
      obtain ⟨r, hr⟩ := OrdMap.mem_keys_toFinset.mp (List.mem_toFinset.mpr hi)
      exact hall i _ (ranges_of_region hr)
    · intro hall i s hs
      obtain ⟨r, hr, -⟩ := ranges_eq_some.mp hs
      exact hall i (List.mem_toFinset.mp (OrdMap.mem_keys_toFinset.mpr ⟨r, hr⟩))

variable {c₀ c : Cluster} {regionId leaderPeerId : UInt64} {storeIds peerIds : List UInt64}
  {splits : List SplitCall}

/-- A bootstrapped cluster that is split with any arguments is tiled in every state exactly
when every split of the run is one of those in `KeepsTiling`. -/
theorem tiled_run (hb : Cluster.bootstrap {} regionId storeIds peerIds leaderPeerId = some c₀)
    (h : run splitAny c₀ splits = some c) :
    (∀ l m, l <+: splits → run splitAny c₀ l = some m → m.Tiled) ↔ Along splitAny KeepsTiling c₀ splits :=
  forall_prefix_iff_along (cuts_bootstrap hb).tiled (fun _ _ _ => tiled_step) h

/-- Region 2 is split at its start key, under a fresh id: region 2 is left without keys. -/
def atStart : List SplitCall :=
  [{ regionId := 1, newRegionId := 2, key := [0x68], peerIds := [4, 5, 6], leaderId := 4 },
    { regionId := 2, newRegionId := 3, key := [0x68], peerIds := [7, 8, 9], leaderId := 7 }]

theorem tiled_run_atStart :
    (∀ l m, l <+: twoSplits → run splitAny threeStores l = some m → m.Tiled) ∧
      ¬ ∀ l m, l <+: atStart → run splitAny threeStores l = some m → m.Tiled := by
  have hb : Cluster.bootstrap {} 1 [11, 22, 33] [1, 2, 3] 1 = some threeStores := rfl
  have h : (run splitAny threeStores twoSplits).isSome := by decide
  have h' : (run splitAny threeStores atStart).isSome := by decide
  constructor
  · exact (tiled_run hb (Option.some_get h).symm).mpr (by decide)
  · exact fun hall => absurd ((tiled_run hb (Option.some_get h').symm).mp hall) (by decide)

end TikvCpp.Cluster
