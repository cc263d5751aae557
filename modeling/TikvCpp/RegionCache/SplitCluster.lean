import TikvCpp.RegionCache.Search
import TikvCpp.RegionCache.World
import TikvCpp.Mock.Cluster

/-! A cache in front of a cluster that only splits. PD serves the regions of the
cluster, the clock never goes back, and each `locate_key` runs its three steps with
nothing in between; splits and the steps of other calls come between calls. The
boundaries of all cached ranges are then boundaries of the cluster, and the regions
of the cluster lie inside or outside each range that was ever loaded. So nothing that
is loaded later ends inside a bounded range while its keys hit, and they hit for the
whole TTL. -/

namespace TikvCpp

open Data PDClient

namespace Cluster

/-- The regions of the cluster by version and range. -/
def locs (c : Cluster) : List KeyLoc := c.regions.toList.map fun e => e.2.keyLoc

theorem mem_locs {c : Cluster} {loc : KeyLoc} :
    loc ∈ c.locs ↔ ∃ (a : UInt64) (r : Region), c.regions[a]? = some r ∧ r.keyLoc = loc := by
  simp only [locs, List.mem_map, Prod.exists, Std.ExtTreeMap.mem_toList_iff_getElem?_eq_some]

/-- The partition that a cluster serves. -/
def partition (c : Cluster) (h : c.Cuts) : Partition where
  regions := c.locs
  covers key := by
    obtain ⟨a, r, hr, hk⟩ := h.covers key
    exact ⟨r.keyLoc, mem_locs.mpr ⟨a, r, hr, rfl⟩, hk⟩
  unique loc hl loc' hl' key hk hk' := by
    obtain ⟨a, r, hr, rfl⟩ := mem_locs.mp hl
    obtain ⟨b, r', hr', rfl⟩ := mem_locs.mp hl'
    obtain rfl := h.unique a b r r' key hr hr' hk hk'
    rw [Option.some.inj (hr.symm.trans hr')]
  ids loc hl loc' hl' hid := by
    obtain ⟨a, r, hr, rfl⟩ := mem_locs.mp hl
    obtain ⟨b, r', hr', rfl⟩ := mem_locs.mp hl'
    have hab : a = b := (h.id_eq a r hr).symm.trans (hid.trans (h.id_eq b r' hr'))
    subst hab
    rw [Option.some.inj (hr.symm.trans hr')]

/-- PD's answer: the region of the cluster that holds the key, or an error. -/
def Serves (c : Cluster) (key : Str) : Except Error Pdpb.GetRegionResponse → Bool
  | .ok resp => decide ((parseGetRegionResult resp).1.keyLoc ∈ c.locs) &&
      (parseGetRegionResult resp).1.contains key
  | .error _ => true

/-- A bounded region ends where another one begins. -/
theorem Cuts.end_is_start {c : Cluster} (h : c.Cuts) {a : UInt64} {r : Region}
    (hr : c.regions[a]? = some r) (hb : r.endKey ≠ []) :
    ∃ (b : UInt64) (r' : Region), c.regions[b]? = some r' ∧ r'.startKey = r.endKey := by
  obtain ⟨b, r', hr', hk⟩ := h.covers r.endKey
  refine ⟨b, r', hr', ?_⟩
  have hin := Region.contains_iff.mp hk
  rcases hin.1.eq_or_lt with heq | hlt
  · exact heq
  · -- a region that begins earlier would share a key with the one that ends here
    exfalso
    have hstart := Region.contains_iff.mp (h.start_mem a r hr)
    have hmax : max r.startKey r'.startKey < r.endKey := max_lt (Order.lower_lt_of_mem hstart hb) hlt
    have hk₁ : r.contains (max r.startKey r'.startKey) = true :=
      Region.contains_iff.mpr ⟨le_max_left _ _, .inl hmax⟩
    have hk₂ : r'.contains (max r.startKey r'.startKey) = true :=
      Region.contains_iff.mpr ⟨le_max_right _ _, hin.2.imp_left hmax.trans⟩
    obtain rfl := h.unique a b r r' _ hr hr' hk₁ hk₂
    obtain rfl := Option.some.inj (hr.symm.trans hr')
    exact lt_irrefl _ ((Region.contains_iff.mp hk).2.resolve_right hb)

/-- No region begins strictly inside another. -/
theorem Cuts.no_start_inside {c : Cluster} (h : c.Cuts) {a b : UInt64} {r r' : Region}
    (hr : c.regions[a]? = some r) (hr' : c.regions[b]? = some r') (hlt : r.startKey < r'.startKey)
    (hlt' : r'.startKey < r.endKey) : False := by
  have hk : r.contains r'.startKey = true := Region.contains_iff.mpr ⟨hlt.le, .inl hlt'⟩
  obtain rfl := h.unique a b r r' _ hr hr' hk (h.start_mem b r' hr')
  obtain rfl := Option.some.inj (hr.symm.trans hr')
  exact lt_irrefl _ hlt

end Cluster

namespace RegionCache

open Transition

/-! ### The system -/

/-- The cluster, the clients, and the last reading of the clock. -/
structure Deployment (ι : Type) where
  cluster : Cluster
  sys : Sys ι
  clock : ℕ

/-- A cluster, an empty cache, and no call in progress. -/
def Deployment.init (ι : Type) (c : Cluster) : Deployment ι := ⟨c, Sys.init ι, 0⟩

/-- A split of the cluster, a whole `locate_key`, or a step of another call. A
`locate_key` that hits uses neither the answer nor the reading for the insert. -/
inductive Op (ι : Type)
  | split (regionId newRegionId : UInt64) (key : Str) (peerIds : List UInt64) (leaderId : UInt64)
  | locateKey (i : ι) (key : Str) (t now : Time) (answer : Except Error Pdpb.GetRegionResponse)
      (insertedAt : Time)
  | other (e : Event ι)

/-- The clock after some readings, none of which goes back. -/
def advance : ℕ → List Time → Option ℕ
  | clock, [] => some clock
  | clock, t :: ts => if clock ≤ t.secs then advance t.secs ts else none

/-- The clock readings of a step of a call other than `locate_key`. -/
def Event.readings {ι : Type} : Event ι → Option (List Time)
  | .search _ _ _ _ | .request _ _ _ | .insert _ _ _ => none
  | .readRegion _ _ t now | .updateRegionLeader _ _ _ t now => some [t, now]
  | .findStore _ _ | .requestStore _ _ _ | .writeStore _ _ _ | .dropContext _ _ | .dropRegion _ _ => some []

variable {ι : Type} [DecidableEq ι]

/-- The steps of one `locate_key` in a row. -/
def Sys.locateKey (s : Sys ι) (i : ι) (key : Str) (t now : Time)
    (answer : Except Error Pdpb.GetRegionResponse) (insertedAt : Time) : Option (Sys ι) := do
  let s ← step s (.search i key t now)
  match s.phase i with
  | .missed _ =>
    let s ← step s (.request i key answer)
    match s.phase i with
    | .loaded _ r => step s (.insert i r insertedAt)
    | _ => return s
  | _ => return s

def Deployment.step (d : Deployment ι) : Op ι → Option (Deployment ι)
  | .split regionId newRegionId key peerIds leaderId =>
    if d.cluster.Splittable regionId newRegionId key peerIds then
      (d.cluster.split regionId newRegionId key peerIds leaderId).map fun c => { d with cluster := c }
    else none
  | .locateKey i key t now answer insertedAt =>
    if d.cluster.Serves key answer then do
      let clock ← advance d.clock [t, now, insertedAt]
      let sys ← d.sys.locateKey i key t now answer insertedAt
      return { d with sys := sys, clock := clock }
    else none
  | .other e => do
    let clock ← advance d.clock (← e.readings)
    let sys ← RegionCache.step d.sys e
    return { d with sys := sys, clock := clock }

/-! ### What an operation does -/

theorem advance_eq_some {clock clock' : ℕ} {ts : List Time} (h : advance clock ts = some clock') :
    clock ≤ clock' ∧ ∀ t ∈ ts, clock ≤ t.secs ∧ t.secs ≤ clock' := by
  induction ts generalizing clock with
  | nil =>
    obtain rfl := Option.some.inj h
    simp
  | cons t ts ih =>
    simp only [advance] at h
    split_ifs at h with ht
    have hrest := ih h
    refine ⟨ht.trans hrest.1, fun t' hmem => ?_⟩
    rcases List.mem_cons.mp hmem with rfl | hmem
    · exact ⟨ht, hrest.1⟩
    · have := hrest.2 t' hmem
      exact ⟨ht.trans this.1, this.2⟩

/-- The last reading is the clock. -/
theorem advance_getLast {clock clock' : ℕ} {ts : List Time} {t : Time}
    (h : advance clock (ts ++ [t]) = some clock') : clock' = t.secs := by
  induction ts generalizing clock with
  | nil =>
    simp only [List.nil_append, advance] at h
    split_ifs at h
    exact (Option.some.inj h).symm
  | cons t' ts ih =>
    simp only [List.cons_append, advance] at h
    split_ifs at h
    exact ih h

/-- The outcomes of a whole `locate_key`: a hit, a load, or an error. -/
inductive Located (s : Sys ι) (i : ι) (key : Str) (t now : Time)
    (answer : Except Error Pdpb.GetRegionResponse) (insertedAt : Time) : Sys ι → Prop
  | hit {r} (found : (s.cache.searchCache key t now).1 = some r) :
      Located s i key t now answer insertedAt
        (s.goto i s.cache (.idle (some (.locateKey key (.ok r.keyLoc) (some true)))))
  | load {r} (missed : (s.cache.searchCache key t now).1 = none)
      (ok : loadRegionFromPd (getRegionInner answer) = .ok r) :
      Located s i key t now answer insertedAt (s.goto i (s.cache.insertRegionToCache r insertedAt)
        (.idle (some (.locateKey key (.ok r.keyLoc) (some false)))))
  | error {e} (missed : (s.cache.searchCache key t now).1 = none)
      (err : loadRegionFromPd (getRegionInner answer) = .error e) :
      Located s i key t now answer insertedAt
        (s.goto i s.cache (.idle (some (.locateKey key (.error e) none))))

/-- A whole `locate_key` is a run of its client's steps. -/
theorem locateKey_spec {s s' : Sys ι} {i : ι} {key : Str} {t now insertedAt : Time}
    {answer : Except Error Pdpb.GetRegionResponse}
    (h : s.locateKey i key t now answer insertedAt = some s') :
    Located s i key t now answer insertedAt s' ∧
      ∃ tr, run step s tr = some s' ∧ ∀ e ∈ tr, ∀ j key' answer', e = .request j key' answer' →
        key' = key ∧ answer' = answer := by
  obtain ⟨s₁, h₁, hrest⟩ := Option.bind_eq_some_iff.mp h
  cases step_cases h₁ with
  | @searchHit _ _ _ _ r _ hp hit =>
    simp only [Sys.goto_phase_self] at hrest
    obtain rfl := Option.some.inj hrest
    exact ⟨.hit hit, [.search i key t now], by simp [h₁], by simp⟩
  | searchMiss hp miss =>
    simp only [Sys.goto_phase_self] at hrest
    obtain ⟨s₂, h₂, hrest⟩ := Option.bind_eq_some_iff.mp hrest
    cases step_cases h₂ with
    | @requestErr _ _ _ e _ err =>
      simp only [Sys.goto_phase_self] at hrest
      obtain rfl := Option.some.inj hrest
      have herr : Located s i key t now answer insertedAt _ := .error miss err
      refine ⟨?_, [.search i key t now, .request i key answer], by simp [h₁, h₂], by simp⟩
      simpa using herr
    | @requestOk _ _ _ r _ ok =>
      simp only [Sys.goto_phase_self] at hrest
      have hload : Located s i key t now answer insertedAt _ := .load miss ok
      have hrun : run step s [.search i key t now, .request i key answer, .insert i r insertedAt] = some s' := by
        rw [run_cons, h₁, Option.bind_some, run_cons, h₂, Option.bind_some, run_cons, hrest]
        rfl
      refine ⟨?_, _, hrun, by simp⟩
      cases step_cases hrest with
      | @insert _ key' _ _ hp' =>
        rw [Sys.goto_phase_self] at hp'
        cases hp'
        simpa using hload

/-- The operations of a deployment, by what each of them does. -/
inductive Deployment.Step (d : Deployment ι) : Op ι → Deployment ι → Prop
  | split {i j key peerIds leaderId c r old new} (into : d.cluster.SplitInto c i j key r old new) :
      Deployment.Step d (.split i j key peerIds leaderId) { d with cluster := c }
  | locateKey {i key t now answer insertedAt clock sys} (serves : d.cluster.Serves key answer = true)
      (clocked : advance d.clock [t, now, insertedAt] = some clock)
      (located : d.sys.locateKey i key t now answer insertedAt = some sys) :
      Deployment.Step d (.locateKey i key t now answer insertedAt) { d with sys := sys, clock := clock }
  | other {e ts clock sys} (readings : e.readings = some ts) (clocked : advance d.clock ts = some clock)
      (stepped : RegionCache.step d.sys e = some sys) :
      Deployment.Step d (.other e) { d with sys := sys, clock := clock }

theorem Deployment.step_cases {d d' : Deployment ι} {op : Op ι} (h : d.step op = some d') :
    d.Step op d' := by
  cases op with
  | split i j key peerIds leaderId =>
    simp only [Deployment.step] at h
    split_ifs at h with hok
    obtain ⟨c, hc, rfl⟩ := Option.map_eq_some_iff.mp h
    obtain ⟨r, old, new, hinto⟩ := Cluster.split_spec hok hc
    exact .split hinto
  | locateKey i key t now answer insertedAt =>
    simp only [Deployment.step] at h
    split_ifs at h with hserves
    obtain ⟨clock, hclock, h⟩ := Option.bind_eq_some_iff.mp h
    obtain ⟨sys, hsys, h⟩ := Option.bind_eq_some_iff.mp h
    obtain rfl := Option.some.inj h
    exact .locateKey hserves hclock hsys
  | other e =>
    obtain ⟨ts, hts, h⟩ := Option.bind_eq_some_iff.mp h
    obtain ⟨clock, hclock, h⟩ := Option.bind_eq_some_iff.mp h
    obtain ⟨sys, hsys, h⟩ := Option.bind_eq_some_iff.mp h
    obtain rfl := Option.some.inj h
    exact .other hts hclock hsys

/-! ### The cluster as a changing partition -/

/-- The world of a deployment: its clients, its regions as PD's partition, and no id
ever had a version that it has not now or a smaller one. -/
structure Refines (d : Deployment ι) (w : World ι) : Prop where
  sys : w.sys = d.sys
  cuts : d.cluster.Cuts
  pd : w.pd = d.cluster.partition cuts
  raised : ∀ q ∈ w.history, ∀ loc ∈ q.regions, ∃ r : Region, d.cluster.regions[loc.regionVerId.id]? = some r ∧
    (r.keyLoc = loc ∨ loc.regionVerId.ver < r.verId.ver)

omit [DecidableEq ι] in
theorem Refines.answerable {d : Deployment ι} {w : World ι} (h : Refines d w) {key : Str}
    {answer : Except Error Pdpb.GetRegionResponse} (hs : d.cluster.Serves key answer = true) {e : Event ι}
    (he : ∀ j key' answer', e = .request j key' answer' → key' = key ∧ answer' = answer) :
    e.Answerable w.pd = true := by
  cases e with
  | request j key' answer' =>
    obtain ⟨rfl, rfl⟩ := he j key' answer' rfl
    cases answer' with
    | error _ => rfl
    | ok resp =>
      simp only [Cluster.Serves, Bool.and_eq_true, decide_eq_true_eq] at hs
      rw [Event.Answerable, decide_eq_true_eq, Partition.Answers, h.pd]
      exact hs
  | _ => rfl

/-- Client steps that ask PD nothing but the key served run in the world too. -/
theorem Refines.run_clients {d : Deployment ι} {w : World ι} (h : Refines d w) {key : Str}
    {answer : Except Error Pdpb.GetRegionResponse} (hs : d.cluster.Serves key answer = true)
    {tr : List (Event ι)} {sys : Sys ι} (hrun : run step w.sys tr = some sys)
    (he : ∀ e ∈ tr, ∀ j key' answer', e = .request j key' answer' → key' = key ∧ answer' = answer) :
    run World.step w (tr.map .client) = some { w with sys := sys } := by
  induction tr generalizing w d with
  | nil =>
    obtain rfl := Option.some.inj hrun
    rfl
  | cons e tr ih =>
    obtain ⟨m, hm, hrest⟩ := Option.bind_eq_some_iff.mp (run_cons w.sys e tr ▸ hrun)
    have hstep : World.step w (.client e) = some { w with sys := m } := by
      rw [World.step, if_pos (h.answerable hs (he e List.mem_cons_self)), hm]
      rfl
    have hnext : Refines { d with sys := m } { w with sys := m } := ⟨rfl, h.cuts, h.pd, h.raised⟩
    rw [List.map_cons, run_cons, hstep, Option.bind_some]
    exact ih hnext hs hrest fun e he' => he e (List.mem_cons_of_mem _ he')

omit [DecidableEq ι] in
/-- A split takes the cluster's partition to one that is raised. -/
theorem Refines.split {d : Deployment ι} {w : World ι} (h : Refines d w) {c : Cluster} {i j : UInt64}
    {key : Str} {r old new : Region} (hs : d.cluster.SplitInto c i j key r old new) :
    (∀ q ∈ w.history, q.RaisedTo (c.partition (h.cuts.split hs))) ∧
      Refines { d with cluster := c }
        { past := w.history, pd := c.partition (h.cuts.split hs), sys := w.sys } := by
  have hver : r.verId.ver < old.verId.ver := by
    rw [UInt64.lt_iff_toNat_lt, h.cuts.ver_old hs]
    omega
  -- a region id of an earlier partition names a raised region, or the region as it was
  have hraised : ∀ q ∈ w.history, ∀ loc ∈ q.regions, ∃ r' : Region,
      c.regions[loc.regionVerId.id]? = some r' ∧ (r'.keyLoc = loc ∨ loc.regionVerId.ver < r'.verId.ver) := by
    intro q hq loc hloc
    obtain ⟨r', hr', hor⟩ := h.raised q hq loc hloc
    have hj : j ≠ loc.regionVerId.id := by
      intro hj
      rw [← hj, hs.fresh] at hr'
      contradiction
    by_cases hi : i = loc.regionVerId.id
    · refine ⟨old, hi ▸ hs.get_old, .inr ?_⟩
      obtain rfl : r' = r := Option.some.inj (hr'.symm.trans (hi ▸ hs.region))
      rcases hor with rfl | hlt
      · exact hver
      · exact hlt.trans hver
    · exact ⟨r', by rw [hs.get_other hj hi, hr'], hor⟩
  refine ⟨fun q hq loc hloc loc' hloc' hid => ?_, h.sys, h.cuts.split hs, rfl, fun q hq loc hloc => ?_⟩
  · obtain ⟨r', hr', hor⟩ := hraised q hq loc hloc
    obtain ⟨a, r'', hr'', rfl⟩ := Cluster.mem_locs.mp hloc'
    have ha : a = loc.regionVerId.id := by
      rw [hid]
      exact ((h.cuts.split hs).id_eq a r'' hr'').symm
    obtain rfl : r' = r'' := Option.some.inj (hr'.symm.trans (ha ▸ hr''))
    rcases hor with rfl | hlt
    · exact .inl ⟨rfl, rfl⟩
    · exact .inr hlt
  · rcases List.mem_cons.mp hq with rfl | hq
    · obtain ⟨a, r', hr', rfl⟩ := Cluster.mem_locs.mp hloc
      have ha : a = r'.verId.id := ((h.cuts.split hs).id_eq a r' hr').symm
      exact ⟨r', ha ▸ hr', .inl rfl⟩
    · exact hraised q hq loc hloc

theorem Refines.step {d d' : Deployment ι} {w : World ι} {op : Op ι} (h : Refines d w)
    (hs : d.step op = some d') : ∃ tr w', run World.step w tr = some w' ∧ Refines d' w' := by
  cases Deployment.step_cases hs with
  | @split _ _ _ _ _ c _ _ _ hinto =>
    have hsplit := h.split hinto
    refine ⟨[.change (c.partition (h.cuts.split hinto))], _, ?_, hsplit.2⟩
    rw [run_cons, World.step, if_pos hsplit.1]
    rfl
  | locateKey hserves hclock hsys =>
    obtain ⟨_, tr, hrun, hreq⟩ := locateKey_spec hsys
    rw [← h.sys] at hrun
    exact ⟨tr.map .client, _, h.run_clients hserves hrun hreq, rfl, h.cuts, h.pd, h.raised⟩
  | @other e ts clock sys hts hclock hsys =>
    have hans : e.Answerable w.pd = true := by
      cases e with
      | request => contradiction
      | _ => rfl
    refine ⟨[.client e], { w with sys := sys }, ?_, rfl, h.cuts, h.pd, h.raised⟩
    rw [run_cons, World.step, if_pos hans, h.sys, hsys]
    rfl

/-- Every run of a deployment is a run of a world. -/
theorem simulated {c : Cluster} (hc : c.Cuts) {tr : List (Op ι)} {d : Deployment ι}
    (h : run Deployment.step (Deployment.init ι c) tr = some d) : ∃ wtr w,
      run World.step (World.init ι (c.partition hc)) wtr = some w ∧ Refines d w := by
  refine run_simulation (R := Refines) (fun d w op d' hR hs => hR.step hs) ?_ h
  refine ⟨rfl, hc, rfl, fun q hq loc hloc => ?_⟩
  obtain rfl := List.mem_singleton.mp hq
  obtain ⟨a, r, hr, rfl⟩ := Cluster.mem_locs.mp hloc
  exact ⟨r, (hc.id_eq a r hr).symm ▸ hr, .inl rfl⟩

/-- What is true of the cache and the cluster in every reachable state: the maps agree,
the cluster is a partition, and a cached version has the range of that version in the
cluster. -/
structure Sound (d : Deployment ι) : Prop where
  agreement : Agreement d.sys.cache
  cuts : d.cluster.Cuts
  range : ∀ (v : RegionVerID) (c : CachedRegion) (r : Region), d.sys.cache.cachedRegions[v]? = some c →
    r.keyLoc ∈ d.cluster.locs → v = r.verId → c.region.keyLoc = r.keyLoc

theorem sound {c : Cluster} (hc : c.Cuts) {tr : List (Op ι)} {d : Deployment ι}
    (h : run Deployment.step (Deployment.init ι c) tr = some d) : Sound d := by
  obtain ⟨wtr, w, hw, href⟩ := simulated hc h
  have hrun := run_sys hw
  have ha := RegionCache.agreement hrun (consistent_of_world hw)
  rw [href.sys] at ha
  refine ⟨ha, href.cuts, fun v c r hv hr hver => ?_⟩
  have hans := (sourced hrun).cached v c (href.sys ▸ hv)
  have hin : r.keyLoc ∈ w.pd.regions := by
    rw [href.pd]
    exact hr
  exact keyLoc_eq_of_answered hw hans List.mem_cons_self hin ((ha.cached_ver v c hv).trans hver)

end RegionCache

end TikvCpp
