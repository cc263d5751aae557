import TikvCpp.Mock.Cluster
import TikvCpp.Transition.Run

/-! The history of a cluster: one bootstrap and any number of splits. Splits strictly
inside a region keep the key space partitioned, and no split moves a replica to
another store. Wherever the splits cut, the version of a region grows with each split of
it, and its range changes with no other step: so a version names one range for ever. -/

namespace TikvCpp

open Data Transition

namespace Region

theorem makePeers_storeId {peerIds storeIds : List UInt64} (h : peerIds.length = storeIds.length) :
    (makePeers peerIds storeIds).map Peer.storeId = storeIds := by
  rw [makePeers, List.map_zipWith, ← List.map_uncurry_zip_eq_zipWith]
  exact List.map_snd_zip h.ge

end Region

namespace Cluster

/-- The arguments of a `Cluster::split`. -/
structure SplitCall where
  regionId : UInt64
  newRegionId : UInt64
  key : Str
  peerIds : List UInt64
  leaderId : UInt64

/-- A split of an existing region under an id that no region has had. Regions are never
removed, so these are the ids that none has. -/
def step (c : Cluster) (a : SplitCall) : Option Cluster :=
  if (c.regions[a.regionId]?).isSome ∧ (c.regions[a.newRegionId]?).isNone then
    c.split a.regionId a.newRegionId a.key a.peerIds a.leaderId
  else none

/-- What a split does, wherever it cuts. -/
structure StepInto (c c' : Cluster) (a : SplitCall) (r old new : Region) : Prop where
  region : c.regions[a.regionId]? = some r
  fresh : c.regions[a.newRegionId]? = none
  old_verId : old.verId = { r.verId with ver := r.verId.ver + 1 }
  old_peers : old.peers = r.peers
  new_verId : new.verId = { id := a.newRegionId, ver := 1 }
  new_stores : new.peers.map Peer.storeId = r.peers.map Peer.storeId
  regions_eq : c'.regions = (c.regions.insert a.regionId old).insert a.newRegionId new

theorem step_spec {c c' : Cluster} {a : SplitCall} (h : c.step a = some c') :
    ∃ r old new, c.StepInto c' a r old new := by
  unfold step at h
  split_ifs at h with hok
  obtain ⟨hsome, hnone⟩ := hok
  obtain ⟨r, hr⟩ := Option.isSome_iff_exists.mp hsome
  have hget : c.regions.getD a.regionId {} = r := by
    rw [Std.ExtTreeMap.getD_eq_getD_getElem?, hr, Option.getD_some]
  simp only [Cluster.split, hget, Region.split] at h
  split_ifs at h with hlen
  · simp only [Option.map_some, Option.some.injEq] at h
    have hregions := (congrArg Cluster.regions h).symm
    refine ⟨r, _, _, hr, Option.isNone_iff_eq_none.mp hnone, ?_, ?_, ?_, ?_, hregions⟩
    · rfl
    · rfl
    · rfl
    · exact Region.makePeers_storeId (by simpa using hlen)
  · simp at h

namespace StepInto

variable {c c' : Cluster} {a : SplitCall} {r old new : Region}

theorem ids_ne (h : c.StepInto c' a r old new) : a.regionId ≠ a.newRegionId := by
  intro heq
  have hr := h.region
  rw [heq, h.fresh] at hr
  contradiction

theorem get (h : c.StepInto c' a r old new) (i : UInt64) :
    c'.regions[i]? =
      if a.newRegionId = i then some new else if a.regionId = i then some old else c.regions[i]? := by
  rw [h.regions_eq, OrdMap.get_insert, OrdMap.get_insert]

theorem size_eq (h : c.StepInto c' a r old new) : c'.regions.size = c.regions.size + 1 := by
  have hnew : (c.regions.insert a.regionId old)[a.newRegionId]? = none := by
    rw [OrdMap.get_insert, if_neg h.ids_ne, h.fresh]
  rw [h.regions_eq, OrdMap.size_insert_of_none hnew, OrdMap.size_insert_of_some h.region]

/-- A property of the regions that both halves take over from the region they come from. -/
theorem all_regions {P : UInt64 → Region → Prop} (h : c.StepInto c' a r old new)
    (hP : ∀ i q, c.regions[i]? = some q → P i q) (hold : P a.regionId r → P a.regionId old)
    (hnew : P a.regionId r → P a.newRegionId new) {i : UInt64} {q : Region}
    (hq : c'.regions[i]? = some q) : P i q := by
  rw [h.get] at hq
  split_ifs at hq with hi hi'
  · obtain rfl := Option.some.inj hq
    exact hi ▸ hnew (hP _ r h.region)
  · obtain rfl := Option.some.inj hq
    exact hi' ▸ hold (hP _ r h.region)
  · exact hP i q hq

end StepInto

/-! ### Versions -/

/-- Every region is stored under its own id, and has seen fewer splits than there are
regions, so its version has not wrapped. -/
structure Versioned (c : Cluster) : Prop where
  id_eq : ∀ (i : UInt64) (r : Region), c.regions[i]? = some r → r.verId.id = i
  ver_lt : ∀ (i : UInt64) (r : Region), c.regions[i]? = some r → r.verId.ver.toNat < c.regions.size

theorem Cuts.versioned {c : Cluster} (h : c.Cuts) : c.Versioned := ⟨h.id_eq, h.ver_lt⟩

/-- Every region of `c` is in `c'` as it was, or with a greater version. -/
def Grows (c c' : Cluster) : Prop :=
  ∀ (i : UInt64) (r : Region), c.regions[i]? = some r →
    ∃ r', c'.regions[i]? = some r' ∧ (r' = r ∨ r.verId < r'.verId)

theorem Grows.refl (c : Cluster) : Grows c c := fun _ r hr => ⟨r, hr, .inl rfl⟩

theorem Grows.trans {c d e : Cluster} (h : Grows c d) (h' : Grows d e) : Grows c e := by
  intro i r hr
  obtain ⟨r₁, hr₁, h₁⟩ := h i r hr
  obtain ⟨r₂, hr₂, h₂⟩ := h' i r₁ hr₁
  refine ⟨r₂, hr₂, ?_⟩
  rcases h₁ with rfl | hlt
  · exact h₂
  · rcases h₂ with rfl | hlt'
    · exact .inr hlt
    · exact .inr (hlt.trans hlt')

namespace Versioned

variable {c c' : Cluster} {a : SplitCall} {r old new : Region}

/-- The raised version has not wrapped. -/
theorem ver_old (hc : c.Versioned) (h : c.StepInto c' a r old new) :
    old.verId.ver.toNat = r.verId.ver.toNat + 1 := by
  have hlt := hc.ver_lt _ r h.region
  have hle := size_le c'.regions
  rw [h.size_eq] at hle
  rw [h.old_verId]
  show (r.verId.ver + 1).toNat = r.verId.ver.toNat + 1
  rw [UInt64.toNat_add, UInt64.toNat_one]
  omega

theorem verId_lt (hc : c.Versioned) (h : c.StepInto c' a r old new) : r.verId < old.verId := by
  have hver := hc.ver_old h
  show r.verId.less old.verId = true
  have hlt : r.verId.ver < old.verId.ver := UInt64.lt_iff_toNat_lt.mpr (by omega)
  have hid : r.verId.id = old.verId.id := by rw [h.old_verId]
  simp only [RegionVerID.less, hid, if_true, hlt.ne, if_false, hlt, decide_true]

theorem step (hc : c.Versioned) (h : c.StepInto c' a r old new) : c'.Versioned := by
  refine ⟨fun i q hq => ?_, fun i q hq => ?_⟩
  · refine h.all_regions (P := fun i q => q.verId.id = i) hc.id_eq (fun hr => ?_) (fun _ => ?_) hq
    · rw [h.old_verId]
      exact hr
    · rw [h.new_verId]
  · rw [h.size_eq]
    have hpos := hc.ver_lt _ r h.region
    refine h.all_regions (P := fun _ q => q.verId.ver.toNat < c.regions.size + 1)
      (fun i q hq => (hc.ver_lt i q hq).trans (Nat.lt_succ_self _)) (fun _ => ?_) (fun _ => ?_) hq
    · rw [hc.ver_old h]
      omega
    · rw [h.new_verId]
      show (1 : UInt64).toNat < c.regions.size + 1
      rw [UInt64.toNat_one]
      omega

theorem grows (hc : c.Versioned) (h : c.StepInto c' a r old new) : Grows c c' := by
  intro i q hq
  by_cases hi : a.regionId = i
  · subst hi
    obtain rfl := Option.some.inj (h.region.symm.trans hq)
    refine ⟨old, ?_, .inr (hc.verId_lt h)⟩
    rw [h.get, if_neg h.ids_ne.symm, if_pos rfl]
  · have hj : a.newRegionId ≠ i := by
      intro hj
      rw [← hj, h.fresh] at hq
      contradiction
    exact ⟨q, by rw [h.get, if_neg hj, if_neg hi, hq], .inl rfl⟩

end Versioned

/-! ### Runs -/

variable {c₀ c : Cluster} {regionId leaderPeerId : UInt64} {storeIds peerIds : List UInt64}
  {splits : List SplitCall}

theorem run_grows (hc : c₀.Versioned) (h : run step c₀ splits = some c) : c.Versioned ∧ Grows c₀ c := by
  refine run_rel Grows.refl (fun _ _ _ => Grows.trans) (fun m a m' hm he => ?_) hc h
  obtain ⟨r, old, new, hstep⟩ := step_spec he
  exact ⟨hm.step hstep, hm.grows hstep⟩

/-- Between two states of a run a version keeps its region. -/
theorem eq_of_verId_eq (hc : c₀.Versioned) (h : run step c₀ splits = some c) {i j : UInt64} {r r' : Region}
    (hr : c₀.regions[i]? = some r) (hr' : c.regions[j]? = some r') (hv : r.verId = r'.verId) : r = r' := by
  obtain ⟨hver, hgrows⟩ := run_grows hc h
  have hij : i = j := by rw [← hc.id_eq i r hr, hv, hver.id_eq j r' hr']
  subst hij
  obtain ⟨q, hq, hsame⟩ := hgrows i r hr
  obtain rfl := Option.some.inj (hr'.symm.trans hq)
  rcases hsame with heq | hlt
  · exact heq.symm
  · exact absurd hlt (hv ▸ lt_irrefl _)

/-! ### The key space under splits -/

/-- A split as `Splittable` wants it cuts the region strictly inside, and its new half has
a replica on each store of the region. -/
theorem cuts_stores_step {m m' : Cluster} {a : SplitCall}
    (hm : m.Cuts ∧ ∀ (i : UInt64) (q : Region), m.regions[i]? = some q → q.peers.map Peer.storeId = storeIds)
    (hok : m.Splittable a.regionId a.newRegionId a.key a.peerIds = true) (h : m.step a = some m') :
    m'.Cuts ∧ ∀ (i : UInt64) (q : Region), m'.regions[i]? = some q → q.peers.map Peer.storeId = storeIds := by
  obtain ⟨hcuts, hstores⟩ := hm
  constructor
  · have hsplit : m.split a.regionId a.newRegionId a.key a.peerIds a.leaderId = some m' := by
      unfold step at h
      split_ifs at h
      exact h
    obtain ⟨r, old, new, hinto⟩ := split_spec hok hsplit
    exact hcuts.split hinto
  · obtain ⟨r, old, new, hinto⟩ := step_spec h
    intro i q hq
    refine hinto.all_regions (P := fun _ q => q.peers.map Peer.storeId = storeIds) hstores ?_ ?_ hq
    · intro hr
      rw [hinto.old_peers]
      exact hr
    · intro hr
      rw [hinto.new_stores]
      exact hr

/-- The first region has a replica on each of the given stores. -/
theorem bootstrap_stores (hb : Cluster.bootstrap {} regionId storeIds peerIds leaderPeerId = some c₀)
    {i : UInt64} {q : Region} (hq : c₀.regions[i]? = some q) : q.peers.map Peer.storeId = storeIds := by
  obtain ⟨r, hr, hc⟩ := Option.map_eq_some_iff.mp hb
  unfold Region.ofPeers at hr
  split_ifs at hr with hlen
  rw [← hc] at hq
  simp only [OrdMap.get_insert] at hq
  split_ifs at hq
  · rw [← Option.some.inj hq, ← Option.some.inj hr]
    exact Region.makePeers_storeId hlen.symm
  · simp at hq

/-- A bootstrapped cluster whose regions are split strictly inside keeps every key in
exactly one region, every region under its own id, and every region on the stores of
the first one, in the same order. -/
theorem partition_run (hb : Cluster.bootstrap {} regionId storeIds peerIds leaderPeerId = some c₀)
    (h : run step c₀ splits = some c)
    (hin : Along step (fun m a => m.Splittable a.regionId a.newRegionId a.key a.peerIds = true) c₀ splits) :
    (∀ key, ∃! i : UInt64, ∃ r : Region, c.regions[i]? = some r ∧ r.contains key = true) ∧
      ∀ (i : UInt64) (r : Region), c.regions[i]? = some r →
        r.verId.id = i ∧ r.peers.map Peer.storeId = storeIds := by
  obtain ⟨hcuts, hstores⟩ := run_along ⟨cuts_bootstrap hb, fun _ _ => bootstrap_stores hb⟩
    (fun _ _ _ hm hok he => cuts_stores_step hm hok he) h hin
  refine ⟨fun key => ?_, fun i r hr => ⟨hcuts.id_eq i r hr, hstores i r hr⟩⟩
  obtain ⟨i, r, hr, hkey⟩ := hcuts.covers key
  refine ⟨i, ⟨r, hr, hkey⟩, ?_⟩
  rintro j ⟨q, hq, hkey'⟩
  exact hcuts.unique j i q r key hq hr hkey' hkey

/-- Three replicas, the first one leading. -/
def threeStores : Cluster where
  regions := (∅ : OrdMap UInt64 Region).insert 1
    { verId := { id := 1 }
      peers := [{ id := 1, storeId := 11 }, { id := 2, storeId := 22 }, { id := 3, storeId := 33 }]
      leader := { id := 1, storeId := 11 } }

/-- Region 1 is cut at `h`, and the new half at `t`. -/
def twoSplits : List SplitCall :=
  [{ regionId := 1, newRegionId := 2, key := [0x68], peerIds := [4, 5, 6], leaderId := 4 },
    { regionId := 2, newRegionId := 3, key := [0x74], peerIds := [7, 8, 9], leaderId := 7 }]

theorem twoSplits_isSome : (run step threeStores twoSplits).isSome := by decide

theorem partition_run_twoSplits :
    ∃ c, run step threeStores twoSplits = some c ∧
      (∀ key, ∃! i : UInt64, ∃ r : Region, c.regions[i]? = some r ∧ r.contains key = true) ∧
      ∀ (i : UInt64) (r : Region), c.regions[i]? = some r →
        r.verId.id = i ∧ r.peers.map Peer.storeId = [11, 22, 33] := by
  have hb : Cluster.bootstrap {} 1 [11, 22, 33] [1, 2, 3] 1 = some threeStores := rfl
  have h := (Option.some_get twoSplits_isSome).symm
  exact ⟨_, h, partition_run hb h (by decide)⟩

/-! ### Versions name ranges -/

/-- What the splits of one run do to a region's version: each split raises that of the
region it cuts, and no other. -/
theorem verId_step (hc : c.Versioned) {c' : Cluster} {a : SplitCall} (h : c.step a = some c') :
    (∃ r r', c.regions[a.regionId]? = some r ∧ c'.regions[a.regionId]? = some r' ∧ r.verId < r'.verId) ∧
      ∀ (i : UInt64) (r : Region), i ≠ a.regionId → c.regions[i]? = some r →
        ∃ r', c'.regions[i]? = some r' ∧ r'.verId = r.verId := by
  obtain ⟨r, old, new, hstep⟩ := step_spec h
  constructor
  · refine ⟨r, old, hstep.region, ?_, hc.verId_lt hstep⟩
    rw [hstep.get, if_neg hstep.ids_ne.symm, if_pos rfl]
  · intro i q hi hq
    have hj : a.newRegionId ≠ i := by
      intro hj
      rw [← hj, hstep.fresh] at hq
      contradiction
    exact ⟨q, by rw [hstep.get, if_neg hj, if_neg hi.symm, hq], rfl⟩

/-- In a bootstrapped cluster that is split in any way, regions of one version have one
range, whichever states of the run they are taken from. Each split raises the version
of the region it cuts, and leaves those of the others. -/
theorem verId_range (hb : Cluster.bootstrap {} regionId storeIds peerIds leaderPeerId = some c₀) :
    (∀ (l₁ l₂ : List SplitCall) (c₁ c₂ : Cluster) (i j : UInt64) (r₁ r₂ : Region),
      l₁ <+: splits → l₂ <+: splits → run step c₀ l₁ = some c₁ → run step c₀ l₂ = some c₂ →
      c₁.regions[i]? = some r₁ → c₂.regions[j]? = some r₂ →
      ¬ r₁.verId < r₂.verId → ¬ r₂.verId < r₁.verId →
      r₁.startKey = r₂.startKey ∧ r₁.endKey = r₂.endKey) ∧
    ∀ (pre post : List SplitCall) (a : SplitCall) (m m' : Cluster),
      splits = pre ++ a :: post → run step c₀ pre = some m → m.step a = some m' →
      (∃ r r', m.regions[a.regionId]? = some r ∧ m'.regions[a.regionId]? = some r' ∧ r.verId < r'.verId) ∧
        ∀ (i : UInt64) (r : Region), i ≠ a.regionId → m.regions[i]? = some r →
          ∃ r', m'.regions[i]? = some r' ∧ r'.verId = r.verId := by
  have hv := (cuts_bootstrap hb).versioned
  -- a state of the run, and one that a further part of the run reaches from it
  have hle : ∀ (l m : List SplitCall) (c₁ c₂ : Cluster) (i j : UInt64) (r₁ r₂ : Region),
      run step c₀ l = some c₁ → run step c₀ (l ++ m) = some c₂ → c₁.regions[i]? = some r₁ →
      c₂.regions[j]? = some r₂ → r₁.verId = r₂.verId → r₁ = r₂ := by
    intro l m c₁ c₂ i j r₁ r₂ h₁ h₂ hr₁ hr₂ heq
    obtain ⟨d, hd, hm⟩ := run_append_eq_some.mp h₂
    obtain rfl := Option.some.inj (h₁.symm.trans hd)
    exact eq_of_verId_eq (run_grows hv h₁).1 hm hr₁ hr₂ heq
  refine ⟨?_, fun pre post a m m' _ hpre hstep => verId_step (run_grows hv hpre).1 hstep⟩
  intro l₁ l₂ c₁ c₂ i j r₁ r₂ hl₁ hl₂ h₁ h₂ hr₁ hr₂ hnlt hngt
  have heq : r₁.verId = r₂.verId := le_antisymm (not_lt.mp hngt) (not_lt.mp hnlt)
  have hr : r₁ = r₂ := by
    rcases List.prefix_or_prefix_of_prefix hl₁ hl₂ with ⟨m, rfl⟩ | ⟨m, rfl⟩
    · exact hle l₁ m c₁ c₂ i j r₁ r₂ h₁ h₂ hr₁ hr₂ heq
    · exact (hle l₂ m c₂ c₁ j i r₂ r₁ h₂ h₁ hr₂ hr₁ heq.symm).symm
  rw [hr]
  exact ⟨rfl, rfl⟩

/-- The state between the two splits, with region 1 as the first one left it. -/
theorem oneSplit_region : ((run step threeStores (twoSplits.take 1)).bind (·.regions[(1 : UInt64)]?)).isSome := by
  decide

theorem twoSplits_region : ((run step threeStores twoSplits).bind (·.regions[(1 : UInt64)]?)).isSome := by
  decide

theorem verId_range_twoSplits :
    ∃ (c₁ c₂ : Cluster) (r₁ r₂ : Region), run step threeStores (twoSplits.take 1) = some c₁ ∧
      run step threeStores twoSplits = some c₂ ∧ c₁.regions[(1 : UInt64)]? = some r₁ ∧
      c₂.regions[(1 : UInt64)]? = some r₂ ∧ r₁.startKey = r₂.startKey ∧ r₁.endKey = r₂.endKey := by
  have hb : Cluster.bootstrap {} 1 [11, 22, 33] [1, 2, 3] 1 = some threeStores := rfl
  obtain ⟨c₁, h₁, hr₁⟩ := Option.bind_eq_some_iff.mp (Option.some_get oneSplit_region).symm
  obtain ⟨c₂, h₂, hr₂⟩ := Option.bind_eq_some_iff.mp (Option.some_get twoSplits_region).symm
  refine ⟨c₁, c₂, _, _, h₁, h₂, hr₁, hr₂, ?_⟩
  exact (verId_range hb).1 _ _ c₁ c₂ 1 1 _ _ (List.take_prefix 1 twoSplits) (List.prefix_refl _) h₁ h₂ hr₁ hr₂
    (by decide) (by decide)

end Cluster

end TikvCpp
