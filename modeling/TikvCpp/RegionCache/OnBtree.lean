import TikvCpp.Btree.Verify
import TikvCpp.RegionCache.IndexAgreement

/-! `RegionCache` with `sorted_` as the source has it: a `btree_map`, searched through its iterators.
Every sequence of accesses to the maps gives the results that it gives with `sorted_` as an
ordered map, and no assertion of the tree fails. -/

namespace TikvCpp.RegionCache

open Data Transition Btree

/-- The maps of `RegionCache`, with the tree for `sorted_`. -/
structure TreeCache where
  sorted : BtreeMap Str Region := {}
  cachedRegions : OrdMap RegionVerID CachedRegion := ∅
  stores : OrdMap UInt64 Store := ∅

namespace TreeCache

/-- `get_cached_region`. -/
def getCachedRegion (tc : TreeCache) (verId : RegionVerID) (t now : Time) : Option Region × TreeCache :=
  match tc.cachedRegions[verId]? with
  | some it =>
    if it.isValid t then
      let it := { it with lastAccess := compareExchangeStrong it.lastAccess now.toUInt64 now.toUInt64 }
      (some it.region, { tc with cachedRegions := tc.cachedRegions.insert verId it })
    else (none, tc)
  | none => (none, tc)

/-- `search_cache`; here and below nothing where an assertion of the tree fails, or an iterator
without a value is read. -/
def searchCache (tc : TreeCache) (key : Str) (t now : Time) : Option (Option Region × TreeCache) :=
  match tc.sorted.upperBound key with
  | some it => it.2.value.map fun e => if e.2.contains key then tc.getCachedRegion e.2.verId t now else (none, tc)
  | none => some (none, tc)

/-- `insert_region_to_cache`. -/
def insertRegionToCache (kNodeValues : ℕ) (tc : TreeCache) (r : Region) (now : Time) : Option TreeCache := do
  let cachedRegions ← match tc.sorted.find r.endKey with
    | some it => it.2.value.map fun e => tc.cachedRegions.erase e.2.verId
    | none => some tc.cachedRegions
  let sorted ← tc.sorted.assign kNodeValues r.endKey r
  let cr : CachedRegion := { region := r, lastAccess := now.toUInt64 }
  some { tc with sorted := sorted, cachedRegions := cachedRegions.insert r.verId cr }

/-- `drop_region_from_cache`. -/
def dropRegionFromCache (kNodeValues : ℕ) (tc : TreeCache) (verId : RegionVerID) : Option TreeCache :=
  match tc.cachedRegions[verId]? with
  | some it => do
    let (_, sorted) ← tc.sorted.eraseUnique kNodeValues it.region.endKey
    some { tc with sorted := sorted, cachedRegions := tc.cachedRegions.erase verId }
  | none => some tc

/-- `update_region_leader`. -/
def updateRegionLeader (tc : TreeCache) (verId : RegionVerID) (leaderStoreId : UInt16) (t now : Time) : TreeCache :=
  match tc.getCachedRegion verId t now with
  | (some r, tc) =>
    { tc with
      cachedRegions := tc.cachedRegions.modify verId fun it =>
        { it with region := r.switchLeader leaderStoreId.toUInt64 } }
  | (none, tc) => tc

/-- The body of the loop in `dump_cache`. -/
def dumpEntry (acc : List DumpLine × TreeCache) (it : Str × Region) : List DumpLine × TreeCache :=
  let cr := acc.2.cachedRegions.getD it.2.verId {}
  (acc.1 ++ [⟨cr.region.startKey, cr.region.endKey, cr.region.leader.storeId⟩],
    { acc.2 with cachedRegions := acc.2.cachedRegions.insertIfNew it.2.verId {} })

/-- `dump_cache`: the loop from `begin` to `end`, which a bound on its rounds does not cut. -/
def dumpCache (tc : TreeCache) : List DumpLine × TreeCache :=
  (walk tc.sorted.size tc.sorted.begin).foldl dumpEntry ([], tc)

end TreeCache

/-! ### Accesses -/

/-- An access to the maps, with the readings of the clock and the answers of PD it takes. -/
inductive MapAccess
  | search (key : Str) (t now : Time)
  | read (verId : RegionVerID) (t now : Time)
  | insert (r : Region) (now : Time)
  | drop (verId : RegionVerID)
  | updateLeader (verId : RegionVerID) (leaderStoreId : UInt16) (t now : Time)
  | findStore (storeId : UInt64)
  | writeStore (storeId : UInt64) (store : Store)
  | dump

/-- What an access reads. -/
inductive Reading
  | region (r : Option Region)
  | store (st : Option Store)
  | dump (lines : List DumpLine)
  | nothing

/-- The access, and what was read before it and by it. -/
def access (s : List Reading × RegionCache) : MapAccess → List Reading × RegionCache
  | .search key t now =>
    let (r, rc) := s.2.searchCache key t now
    (s.1 ++ [.region r], rc)
  | .read verId t now =>
    let (r, rc) := s.2.getCachedRegion verId t now
    (s.1 ++ [.region r], rc)
  | .insert r now => (s.1 ++ [.nothing], s.2.insertRegionToCache r now)
  | .drop verId => (s.1 ++ [.nothing], s.2.dropRegionFromCache verId)
  | .updateLeader verId leaderStoreId t now => (s.1 ++ [.nothing], s.2.updateRegionLeader verId leaderStoreId t now)
  | .findStore storeId => (s.1 ++ [.store s.2.stores[storeId]?], s.2)
  | .writeStore storeId store => (s.1 ++ [.nothing], { s.2 with stores := s.2.stores.insert storeId store })
  | .dump =>
    let (lines, rc) := s.2.dumpCache
    (s.1 ++ [.dump lines], rc)

/-- The same on the tree. -/
def TreeCache.access (kNodeValues : ℕ) (s : List Reading × TreeCache) : MapAccess → Option (List Reading × TreeCache)
  | .search key t now => (s.2.searchCache key t now).map fun p => (s.1 ++ [.region p.1], p.2)
  | .read verId t now =>
    let (r, tc) := s.2.getCachedRegion verId t now
    some (s.1 ++ [.region r], tc)
  | .insert r now => (s.2.insertRegionToCache kNodeValues r now).map fun tc => (s.1 ++ [.nothing], tc)
  | .drop verId => (s.2.dropRegionFromCache kNodeValues verId).map fun tc => (s.1 ++ [.nothing], tc)
  | .updateLeader verId leaderStoreId t now =>
    some (s.1 ++ [.nothing], s.2.updateRegionLeader verId leaderStoreId t now)
  | .findStore storeId => some (s.1 ++ [.store s.2.stores[storeId]?], s.2)
  | .writeStore storeId store =>
    some (s.1 ++ [.nothing], { s.2 with stores := s.2.stores.insert storeId store })
  | .dump =>
    let (lines, tc) := s.2.dumpCache
    some (s.1 ++ [.dump lines], tc)

/-! ### The tree implements the ordered map -/

/-- The same entries in all three maps. -/
structure Implements (kNodeValues : ℕ) (tc : TreeCache) (rc : RegionCache) : Prop where
  valid : tc.sorted.Valid kNodeValues
  sorted : tc.sorted.toList = rc.sorted.toList
  cachedRegions : tc.cachedRegions = rc.cachedRegions
  stores : tc.stores = rc.stores

namespace Implements

variable {kNodeValues : ℕ} {tc : TreeCache} {rc : RegionCache}

theorem getCachedRegion (h : Implements kNodeValues tc rc) (v : RegionVerID) (t now : Time) :
    (tc.getCachedRegion v t now).1 = (rc.getCachedRegion v t now).1 ∧
      Implements kNodeValues (tc.getCachedRegion v t now).2 (rc.getCachedRegion v t now).2 := by
  unfold TreeCache.getCachedRegion RegionCache.getCachedRegion
  rw [h.cachedRegions]
  cases rc.cachedRegions[v]? with
  | none => exact ⟨rfl, h⟩
  | some it =>
    dsimp only
    split_ifs
    · exact ⟨rfl, h.valid, h.sorted, rfl, h.stores⟩
    · exact ⟨rfl, h⟩

theorem searchCache (h : Implements kNodeValues tc rc) (key : Str) (t now : Time) :
    ∃ r tc', tc.searchCache key t now = some (r, tc') ∧ r = (rc.searchCache key t now).1 ∧
      Implements kNodeValues tc' (rc.searchCache key t now).2 := by
  have hbound := BtreeMap.upperBound_value h.valid h.sorted key
  unfold TreeCache.searchCache RegionCache.searchCache
  cases hupper : rc.sorted.upperBound key with
  | none =>
    rw [hupper, Option.map_none, Option.map_eq_none_iff] at hbound
    rw [hbound]
    exact ⟨none, tc, rfl, rfl, h⟩
  | some e =>
    rw [hupper, Option.map_some] at hbound
    obtain ⟨it, hit, hvalue⟩ := Option.map_eq_some_iff.mp hbound
    rw [hit]
    dsimp only
    rw [hvalue, Option.map_some]
    split_ifs with hcontains
    · obtain ⟨hr, h'⟩ := h.getCachedRegion e.2.verId t now
      exact ⟨_, _, rfl, hr, h'⟩
    · exact ⟨none, tc, rfl, rfl, h⟩

theorem insertRegionToCache (hk : 3 ≤ kNodeValues) (h : Implements kNodeValues tc rc) (r : Region) (now : Time) :
    ∃ tc', tc.insertRegionToCache kNodeValues r now = some tc' ∧
      Implements kNodeValues tc' (rc.insertRegionToCache r now) := by
  have hfind := BtreeMap.find_value h.valid h.sorted r.endKey
  obtain ⟨sorted, hassign, hvalid, hsorted⟩ := BtreeMap.assign_spec h.valid hk h.sorted r.endKey r
  unfold TreeCache.insertRegionToCache RegionCache.insertRegionToCache
  rw [hassign]
  cases hget : rc.sorted[r.endKey]? with
  | none =>
    rw [hget, Option.map_none, Option.map_eq_none_iff] at hfind
    rw [hfind]
    refine ⟨_, rfl, hvalid, hsorted, ?_, h.stores⟩
    show tc.cachedRegions.insert _ _ = _
    rw [h.cachedRegions]
  | some old =>
    rw [hget, Option.map_some] at hfind
    obtain ⟨it, hit, hvalue⟩ := Option.map_eq_some_iff.mp hfind
    rw [hit]
    dsimp only
    rw [hvalue]
    refine ⟨_, rfl, hvalid, hsorted, ?_, h.stores⟩
    show (tc.cachedRegions.erase _).insert _ _ = _
    rw [h.cachedRegions]

theorem dropRegionFromCache (hk : 3 ≤ kNodeValues) (h : Implements kNodeValues tc rc) (v : RegionVerID) :
    ∃ tc', tc.dropRegionFromCache kNodeValues v = some tc' ∧ Implements kNodeValues tc' (rc.dropRegionFromCache v) := by
  unfold TreeCache.dropRegionFromCache RegionCache.dropRegionFromCache
  rw [h.cachedRegions]
  cases rc.cachedRegions[v]? with
  | none => exact ⟨tc, rfl, h⟩
  | some it =>
    obtain ⟨sorted, herase, hvalid, hsorted⟩ := BtreeMap.eraseUnique_spec h.valid hk h.sorted it.region.endKey
    dsimp only
    rw [herase]
    exact ⟨_, rfl, hvalid, hsorted, rfl, h.stores⟩

theorem updateRegionLeader (h : Implements kNodeValues tc rc) (v : RegionVerID) (s : UInt16) (t now : Time) :
    Implements kNodeValues (tc.updateRegionLeader v s t now) (rc.updateRegionLeader v s t now) := by
  obtain ⟨hr, h'⟩ := h.getCachedRegion v t now
  unfold TreeCache.updateRegionLeader RegionCache.updateRegionLeader
  generalize tc.getCachedRegion v t now = p at *
  generalize rc.getCachedRegion v t now = q at *
  obtain ⟨r, tc'⟩ := p
  obtain ⟨r', rc'⟩ := q
  obtain rfl : r = r' := hr
  cases r with
  | none => exact h'
  | some r =>
    refine ⟨h'.valid, h'.sorted, ?_, h'.stores⟩
    show tc'.cachedRegions.modify _ _ = _
    rw [h'.cachedRegions]

theorem dumpEntry (h : Implements kNodeValues tc rc) (lines : List DumpLine) (e : Str × Region) :
    (TreeCache.dumpEntry (lines, tc) e).1 = (RegionCache.dumpEntry (lines, rc) e).1 ∧
      Implements kNodeValues (TreeCache.dumpEntry (lines, tc) e).2 (RegionCache.dumpEntry (lines, rc) e).2 := by
  unfold TreeCache.dumpEntry RegionCache.dumpEntry
  dsimp only
  rw [h.cachedRegions]
  exact ⟨rfl, h.valid, h.sorted, rfl, h.stores⟩

theorem dumpCache (h : Implements kNodeValues tc rc) :
    tc.dumpCache.1 = rc.dumpCache.1 ∧ Implements kNodeValues tc.dumpCache.2 rc.dumpCache.2 := by
  unfold TreeCache.dumpCache RegionCache.dumpCache
  rw [BtreeMap.walk_begin h.valid (Nat.le_refl _), h.sorted]
  generalize ([] : List DumpLine) = lines
  generalize rc.sorted.toList = es
  induction es generalizing lines tc rc with
  | nil => exact ⟨rfl, h⟩
  | cons e es ih =>
    obtain ⟨hlines, h'⟩ := h.dumpEntry lines e
    rw [List.foldl_cons, List.foldl_cons]
    generalize TreeCache.dumpEntry (lines, tc) e = p at *
    generalize RegionCache.dumpEntry (lines, rc) e = q at *
    obtain ⟨plines, ptc⟩ := p
    obtain ⟨qlines, qrc⟩ := q
    obtain rfl : plines = qlines := hlines
    exact ih h' plines

theorem access (hk : 3 ≤ kNodeValues) (h : Implements kNodeValues tc rc) (rs : List Reading) (a : MapAccess) :
    ∃ tc', TreeCache.access kNodeValues (rs, tc) a = some ((RegionCache.access (rs, rc) a).1, tc') ∧
      Implements kNodeValues tc' (RegionCache.access (rs, rc) a).2 := by
  cases a with
  | search key t now =>
    obtain ⟨r, tc', heq, hr, h'⟩ := h.searchCache key t now
    refine ⟨tc', ?_, h'⟩
    rw [TreeCache.access, heq, hr]
    rfl
  | read verId t now =>
    obtain ⟨hr, h'⟩ := h.getCachedRegion verId t now
    refine ⟨(tc.getCachedRegion verId t now).2, ?_, h'⟩
    show some (rs ++ [.region (tc.getCachedRegion verId t now).1], (tc.getCachedRegion verId t now).2) = _
    rw [hr]
    rfl
  | insert r now =>
    obtain ⟨tc', heq, h'⟩ := h.insertRegionToCache hk r now
    refine ⟨tc', ?_, h'⟩
    rw [TreeCache.access, heq]
    rfl
  | drop verId =>
    obtain ⟨tc', heq, h'⟩ := h.dropRegionFromCache hk verId
    refine ⟨tc', ?_, h'⟩
    rw [TreeCache.access, heq]
    rfl
  | updateLeader verId leaderStoreId t now =>
    exact ⟨_, rfl, h.updateRegionLeader verId leaderStoreId t now⟩
  | findStore storeId =>
    refine ⟨tc, ?_, h⟩
    rw [TreeCache.access, h.stores]
    rfl
  | writeStore storeId store =>
    refine ⟨_, rfl, h.valid, h.sorted, h.cachedRegions, ?_⟩
    show tc.stores.insert _ _ = rc.stores.insert _ _
    rw [h.stores]
  | dump =>
    obtain ⟨hlines, h'⟩ := h.dumpCache
    refine ⟨tc.dumpCache.2, ?_, h'⟩
    show some (rs ++ [.dump tc.dumpCache.1], tc.dumpCache.2) = _
    rw [hlines]
    rfl

theorem empty : Implements kNodeValues {} {} := ⟨BtreeMap.valid_empty, rfl, rfl, rfl⟩

theorem run (hk : 3 ≤ kNodeValues) (h : Implements kNodeValues tc rc) (rs : List Reading) (as : List MapAccess) :
    ∃ tc', Transition.run (TreeCache.access kNodeValues) (rs, tc) as =
        some ((as.foldl RegionCache.access (rs, rc)).1, tc') ∧
      Implements kNodeValues tc' (as.foldl RegionCache.access (rs, rc)).2 := by
  have hstep : ∀ (s : List Reading × RegionCache) (t : List Reading × TreeCache) (a : MapAccess),
      s.1 = t.1 ∧ Implements kNodeValues t.2 s.2 →
      ∃ t', TreeCache.access kNodeValues t a = some t' ∧
        (RegionCache.access s a).1 = t'.1 ∧ Implements kNodeValues t'.2 (RegionCache.access s a).2 := by
    rintro s ⟨rs, tc⟩ a ⟨hrs, h⟩
    obtain ⟨tc', heq, h'⟩ := h.access hk s.1 a
    obtain rfl : s.1 = rs := hrs
    exact ⟨_, heq, rfl, h'⟩
  obtain ⟨s', hrun, hrs, h'⟩ := run_foldl hstep (s := (rs, rc)) (t := (rs, tc)) ⟨rfl, h⟩ as
  exact ⟨s'.2, by rw [hrun, hrs], h'⟩

end Implements

/-- Every sequence of accesses, whoever makes them, runs on the tree without a failed assertion,
reads what it reads with an ordered map for `sorted_`, and leaves a tree that passes `verify` and
has the entries of the map. -/
theorem tree_run {kNodeValues : ℕ} (hk : 3 ≤ kNodeValues) (as : List MapAccess) :
    ∃ tc, run (TreeCache.access kNodeValues) ([], {}) as = some ((as.foldl access ([], {})).1, tc) ∧
      tc.sorted.verify = true ∧ tc.sorted.toList = (as.foldl access ([], {})).2.sorted.toList ∧
      tc.cachedRegions = (as.foldl access ([], {})).2.cachedRegions ∧
      tc.stores = (as.foldl access ([], {})).2.stores := by
  obtain ⟨tc, hrun, h⟩ := Implements.empty.run hk [] as
  exact ⟨tc, hrun, BtreeMap.verify_eq h.valid, h.sorted, h.cachedRegions, h.stores⟩

/-- Two regions cached and searched for, one of them dropped, and all that is left dumped. -/
def someAccesses : List MapAccess :=
  [.insert { verId := { id := 1 }, endKey := [109] } 5,
    .insert { verId := { id := 2 }, startKey := [109], endKey := [122] } 5,
    .search [110] 6 6, .drop { id := 1 }, .search [104] 7 7, .dump]

theorem tree_run_someAccesses : 3 ≤ 3 ∧ ∃ tc,
    run (TreeCache.access 3) ([], {}) someAccesses = some ((someAccesses.foldl access ([], {})).1, tc) ∧
      tc.sorted.verify = true := by
  obtain ⟨tc, hrun, hverify, -⟩ := tree_run (Nat.le_refl 3) someAccesses
  exact ⟨Nat.le_refl 3, tc, hrun, hverify⟩

/-! ### Runs of the clients -/

variable {ι : Type}

/-- The access that a step of a client makes; a request to PD makes none. -/
def Event.access : Event ι → Option MapAccess
  | .search _ key t now => some (.search key t now)
  | .insert _ r now => some (.insert r now)
  | .readRegion _ verId t now => some (.read verId t now)
  | .findStore _ storeId => some (.findStore storeId)
  | .writeStore _ storeId store => some (.writeStore storeId store)
  | .dropContext _ verId => some (.drop verId)
  | .dropRegion _ verId => some (.drop verId)
  | .updateRegionLeader _ verId leaderStoreId t now => some (.updateLeader verId leaderStoreId t now)
  | .request _ _ _ | .requestStore _ _ _ => none

theorem Event.foldl_access (e : Event ι) (s : List Reading × RegionCache) :
    (e.access.toList.foldl RegionCache.access s).2 = e.commit s.2 := by
  cases e with
  | search i key t now => exact s.2.searchCache_snd key t now
  | readRegion i verId t now => exact s.2.getCachedRegion_snd verId t now
  | _ => rfl

theorem foldl_access (tr : List (Event ι)) (s : List Reading × RegionCache) :
    ((tr.flatMap fun e => e.access.toList).foldl access s).2 = tr.foldl (fun rc e => e.commit rc) s.2 := by
  induction tr generalizing s with
  | nil => rfl
  | cons e tr ih => rw [List.flatMap_cons, List.foldl_append, ih, e.foldl_access, List.foldl_cons]

variable [DecidableEq ι]

theorem twoLoads_runs : (run step (Sys.init Bool) twoLoads).isSome := by decide

end TikvCpp.RegionCache
