import TikvCpp.Meta
import Mathlib.Data.Finset.Range

/-! The cluster of `mocktikv.cc` and the parts of `Region` that only it uses. A
cluster is bootstrapped with one region over the whole key space and evolves by
splits. Its stores and its id counter are left out: no split reads them. Splits at
keys strictly inside a region, under fresh region ids, keep the key space cut into
regions, each stored under its own id, and raise the versions of both halves. -/

namespace TikvCpp

open Data

namespace Region

/-- The peers that both constructors of a region build from two lists. -/
def makePeers (peerIds storeIds : List UInt64) : List Peer :=
  List.zipWith (fun id storeId => { id := id, storeId := storeId }) peerIds storeIds

/-- The constructor of a first region, with its assertion on the lengths. -/
def ofPeers (regionId : UInt64) (storeIds peerIds : List UInt64) (leaderPeerId : UInt64) : Option Region :=
  if storeIds.length = peerIds.length then
    let r : Region := { verId := { id := regionId }, peers := makePeers peerIds storeIds }
    some (r.switchLeaderByPeerId leaderPeerId)
  else none

/-- `incr_ver`; the version wraps. -/
def incrVer (r : Region) : Region := { r with verId := { r.verId with ver := r.verId.ver + 1 } }

/-- `update_key_range`. -/
def updateKeyRange (r : Region) (startKey endKey : Str) : Region :=
  { r with startKey := startKey, endKey := endKey }.incrVer

/-- `Region::split`, with its assertion: the region left and the new one, which gets
the keys from `splitKey` on. -/
def split (r : Region) (newRegionId : UInt64) (peerIds : List UInt64) (leaderId : UInt64) (splitKey : Str) :
    Option (Region × Region) :=
  if peerIds.length = r.peers.length then
    let storeIds := r.peers.map Peer.storeId
    let new : Region := { verId := { id := newRegionId }, peers := makePeers peerIds storeIds }
    let new := (new.switchLeaderByPeerId leaderId).updateKeyRange splitKey r.endKey
    some (r.updateKeyRange r.startKey splitKey, new)
  else none

end Region

/-- `Cluster`: its regions by id. -/
structure Cluster where
  regions : OrdMap UInt64 Region := ∅

namespace Cluster

/-- `Cluster::bootstrap`. -/
def bootstrap (c : Cluster) (regionId : UInt64) (storeIds peerIds : List UInt64) (leaderPeerId : UInt64) :
    Option Cluster :=
  (Region.ofPeers regionId storeIds peerIds leaderPeerId).map fun r =>
    { c with regions := c.regions.insert regionId r }

/-- `Cluster::split`; `regions_[region_id]` creates a missing region. -/
def split (c : Cluster) (regionId newRegionId : UInt64) (key : Str) (peerIds : List UInt64)
    (leaderId : UInt64) : Option Cluster :=
  ((c.regions.getD regionId {}).split newRegionId peerIds leaderId key).map fun (old, new) =>
    { c with regions := (c.regions.insert regionId old).insert newRegionId new }

/-- A split as a caller may ask for: of an existing region, at a key strictly inside
it, under a fresh id, with as many peers as the region has. -/
def Splittable (c : Cluster) (regionId newRegionId : UInt64) (key : Str) (peerIds : List UInt64) : Bool :=
  match c.regions[regionId]? with
  | some r => r.contains key && decide (key ≠ r.startKey) && decide (peerIds.length = r.peers.length) &&
      (c.regions[newRegionId]?).isNone
  | none => false

/-- What a split makes of the regions. -/
structure SplitInto (c c' : Cluster) (regionId newRegionId : UInt64) (key : Str) (r old new : Region) :
    Prop where
  region : c.regions[regionId]? = some r
  fresh : c.regions[newRegionId]? = none
  inside : r.contains key = true
  key_ne : key ≠ r.startKey
  old_eq : old = r.updateKeyRange r.startKey key
  new_id : new.verId = { id := newRegionId, ver := 1 }
  new_start : new.startKey = key
  new_end : new.endKey = r.endKey
  regions_eq : c'.regions = (c.regions.insert regionId old).insert newRegionId new

theorem split_spec {c c' : Cluster} {regionId newRegionId leaderId : UInt64} {key : Str}
    {peerIds : List UInt64} (hok : c.Splittable regionId newRegionId key peerIds = true)
    (h : c.split regionId newRegionId key peerIds leaderId = some c') :
    ∃ r old new, c.SplitInto c' regionId newRegionId key r old new := by
  unfold Splittable at hok
  split at hok
  · next r hr =>
    simp only [Bool.and_eq_true, decide_eq_true_eq, Option.isNone_iff_eq_none] at hok
    obtain ⟨⟨⟨hin, hne⟩, hlen⟩, hfresh⟩ := hok
    have hget : c.regions.getD regionId {} = r := by
      rw [Std.ExtTreeMap.getD_eq_getD_getElem?, hr, Option.getD_some]
    simp only [split, hget, Region.split, if_pos hlen, Option.map_some, Option.some.injEq] at h
    have hregions := (congrArg Cluster.regions h).symm
    refine ⟨r, _, _, hr, hfresh, hin, hne, rfl, ?_, ?_, ?_, hregions⟩ <;> rfl
  · contradiction

namespace SplitInto

variable {c c' : Cluster} {i j : UInt64} {key : Str} {r old new : Region}

theorem ids_ne (h : c.SplitInto c' i j key r old new) : i ≠ j := by
  intro hij
  have hr := h.region
  rw [hij, h.fresh] at hr
  contradiction

/-- The regions after a split. -/
theorem get (h : c.SplitInto c' i j key r old new) (a : UInt64) :
    c'.regions[a]? = if j = a then some new else if i = a then some old else c.regions[a]? := by
  rw [h.regions_eq, OrdMap.get_insert, OrdMap.get_insert]

theorem get_new (h : c.SplitInto c' i j key r old new) : c'.regions[j]? = some new := by
  rw [h.get, if_pos rfl]

theorem get_old (h : c.SplitInto c' i j key r old new) : c'.regions[i]? = some old := by
  rw [h.get, if_neg h.ids_ne.symm, if_pos rfl]

theorem get_other (h : c.SplitInto c' i j key r old new) {a : UInt64} (hj : j ≠ a) (hi : i ≠ a) :
    c'.regions[a]? = c.regions[a]? := by
  rw [h.get, if_neg hj, if_neg hi]

theorem old_range (h : c.SplitInto c' i j key r old new) (k : Str) :
    old.contains k = true ↔ k ∈ Order.span r.startKey key := by
  rw [Region.contains_iff, h.old_eq]
  rfl

theorem new_range (h : c.SplitInto c' i j key r old new) (k : Str) :
    new.contains k = true ↔ k ∈ Order.span key r.endKey := by
  rw [Region.contains_iff, h.new_start, h.new_end]

/-- The two halves have the keys of the region that was split. -/
theorem contains_iff (h : c.SplitInto c' i j key r old new) (k : Str) :
    r.contains k = true ↔ old.contains k = true ∨ new.contains k = true := by
  rw [h.old_range, h.new_range, Region.contains_iff]
  exact Order.mem_span_cut (Region.contains_iff.mp h.inside) h.key_ne k

theorem disjoint (h : c.SplitInto c' i j key r old new) {k : Str} (hk : old.contains k = true) :
    ¬ new.contains k = true := by
  rw [h.old_range] at hk
  rw [h.new_range]
  exact Order.not_mem_both_of_cut (lt_of_le_of_ne (Region.contains_iff.mp h.inside).1 h.key_ne.symm) hk

/-- Every region after the split lies in one before it: the halves in the region that
was split, the others in themselves. -/
theorem parent (h : c.SplitInto c' i j key r old new) {a : UInt64} {r' : Region}
    (hr' : c'.regions[a]? = some r') : ∃ q, c.regions[if j = a then i else a]? = some q ∧
      ∀ k, r'.contains k = true → q.contains k = true := by
  by_cases hj : j = a
  · rw [if_pos hj]
    rw [← hj, h.get_new] at hr'
    refine ⟨r, h.region, fun k hk => (h.contains_iff k).mpr (.inr ?_)⟩
    rw [Option.some.inj hr']
    exact hk
  · rw [if_neg hj]
    by_cases hi : i = a
    · rw [← hi, h.get_old] at hr'
      refine ⟨r, hi ▸ h.region, fun k hk => (h.contains_iff k).mpr (.inl ?_)⟩
      rw [Option.some.inj hr']
      exact hk
    · rw [h.get_other hj hi] at hr'
      exact ⟨r', hr', fun _ => id⟩

theorem size_eq (h : c.SplitInto c' i j key r old new) : c'.regions.size = c.regions.size + 1 := by
  have hj : (c.regions.insert i old)[j]? = none := by
    rw [OrdMap.get_insert, if_neg h.ids_ne, h.fresh]
  rw [h.regions_eq, OrdMap.size_insert_of_none hj, OrdMap.size_insert_of_some h.region]

end SplitInto

/-! ### The key space stays cut into regions -/

/-- The regions cut the key space: every key lies in exactly one of them, each is
stored under its own id and holds a key, and no version has seen more splits than
there are further regions. -/
structure Cuts (c : Cluster) : Prop where
  id_eq : ∀ (a : UInt64) (r : Region), c.regions[a]? = some r → r.verId.id = a
  covers : ∀ key, ∃ (a : UInt64) (r : Region), c.regions[a]? = some r ∧ r.contains key = true
  unique : ∀ (a b : UInt64) (r r' : Region) (key : Str), c.regions[a]? = some r →
    c.regions[b]? = some r' → r.contains key = true → r'.contains key = true → a = b
  start_mem : ∀ (a : UInt64) (r : Region), c.regions[a]? = some r → r.contains r.startKey = true
  ver_lt : ∀ (a : UInt64) (r : Region), c.regions[a]? = some r → r.verId.ver.toNat < c.regions.size

/-- There are no more regions than ids. -/
theorem size_le (m : OrdMap UInt64 Region) : m.size ≤ 2 ^ 64 := by
  rw [← OrdMap.card_keys, ← Finset.card_range (2 ^ 64)]
  refine Finset.card_le_card_of_injOn UInt64.toNat (fun a _ => ?_) fun a _ b _ hab => UInt64.toNat_inj.mp hab
  exact Finset.mem_coe.mpr (Finset.mem_range.mpr a.toNat_lt)

/-- A bootstrapped cluster has one region, over the whole key space. -/
theorem bootstrap_spec {c : Cluster} {regionId leaderPeerId : UInt64} {storeIds peerIds : List UInt64}
    (h : Cluster.bootstrap {} regionId storeIds peerIds leaderPeerId = some c) :
    ∃ r : Region, c.regions = (∅ : OrdMap UInt64 Region).insert regionId r ∧
      r.verId = { id := regionId } ∧ r.startKey = [] ∧ r.endKey = [] := by
  obtain ⟨r, hr, hc⟩ := Option.map_eq_some_iff.mp h
  unfold Region.ofPeers at hr
  split_ifs at hr
  rw [← hc, ← Option.some.inj hr]
  exact ⟨_, rfl, rfl, rfl, rfl⟩

theorem cuts_bootstrap {c : Cluster} {regionId leaderPeerId : UInt64} {storeIds peerIds : List UInt64}
    (h : Cluster.bootstrap {} regionId storeIds peerIds leaderPeerId = some c) : c.Cuts := by
  obtain ⟨r, hc, hv, hs, he⟩ := bootstrap_spec h
  have hall : ∀ key, r.contains key = true := fun key =>
    Region.contains_iff.mpr ⟨by rw [hs]; exact bot_le, .inr he⟩
  have hget : ∀ (a : UInt64) (r' : Region), c.regions[a]? = some r' → regionId = a ∧ r' = r := by
    intro a r' hr'
    rw [hc, OrdMap.get_insert] at hr'
    split_ifs at hr' with ha
    · exact ⟨ha, (Option.some.inj hr').symm⟩
    · simp at hr'
  have hsize : c.regions.size = 1 := by
    rw [hc, OrdMap.size_insert_of_none (by simp)]
    rfl
  constructor
  · intro a r' hr'
    obtain ⟨ha, rfl⟩ := hget a r' hr'
    rw [hv, ← ha]
  · intro key
    exact ⟨regionId, r, by rw [hc, OrdMap.get_insert_self], hall key⟩
  · intro a b r₁ r₂ key h₁ h₂ _ _
    exact (hget a r₁ h₁).1.symm.trans (hget b r₂ h₂).1
  · intro a r' hr'
    rw [(hget a r' hr').2]
    exact hall _
  · intro a r' hr'
    rw [(hget a r' hr').2, hv, hsize]
    show (0 : UInt64).toNat < 1
    decide

variable {c c' : Cluster} {i j : UInt64} {key : Str} {r old new : Region}

/-- A version that is raised does not wrap. -/
theorem Cuts.ver_old (hc : c.Cuts) (h : c.SplitInto c' i j key r old new) :
    old.verId.ver.toNat = r.verId.ver.toNat + 1 := by
  have hlt := hc.ver_lt i r h.region
  have hle := size_le c'.regions
  rw [h.size_eq] at hle
  rw [h.old_eq]
  show (r.verId.ver + 1).toNat = r.verId.ver.toNat + 1
  rw [UInt64.toNat_add, UInt64.toNat_one]
  omega

theorem Cuts.split (hc : c.Cuts) (h : c.SplitInto c' i j key r old new) : c'.Cuts where
  id_eq a r' hr' := by
    rw [h.get] at hr'
    split_ifs at hr' with hj hi
    · rw [← Option.some.inj hr', h.new_id, ← hj]
    · rw [← Option.some.inj hr', h.old_eq, ← hi]
      exact hc.id_eq i r h.region
    · exact hc.id_eq a r' hr'
  covers k := by
    obtain ⟨a, q, hq, hk⟩ := hc.covers k
    by_cases hi : i = a
    · obtain rfl : q = r := Option.some.inj (hq.symm.trans (hi ▸ h.region))
      rcases (h.contains_iff k).mp hk with hk | hk
      · exact ⟨i, old, h.get_old, hk⟩
      · exact ⟨j, new, h.get_new, hk⟩
    · have hj : j ≠ a := by
        intro hj
        rw [← hj, h.fresh] at hq
        contradiction
      exact ⟨a, q, by rw [h.get_other hj hi, hq], hk⟩
  unique a b r₁ r₂ k h₁ h₂ hk₁ hk₂ := by
    obtain ⟨q₁, hq₁, hsub₁⟩ := h.parent h₁
    obtain ⟨q₂, hq₂, hsub₂⟩ := h.parent h₂
    -- both have the key of one region before the split
    have hpar := hc.unique _ _ q₁ q₂ k hq₁ hq₂ (hsub₁ k hk₁) (hsub₂ k hk₂)
    by_cases ha : j = a <;> by_cases hb : j = b
    · exact ha.symm.trans hb
    · rw [if_pos ha, if_neg hb] at hpar
      rw [← ha, h.get_new] at h₁
      rw [← hpar, h.get_old] at h₂
      obtain rfl := Option.some.inj h₁
      obtain rfl := Option.some.inj h₂
      exact absurd hk₁ (h.disjoint hk₂)
    · rw [if_neg ha, if_pos hb] at hpar
      rw [hpar, h.get_old] at h₁
      rw [← hb, h.get_new] at h₂
      obtain rfl := Option.some.inj h₁
      obtain rfl := Option.some.inj h₂
      exact absurd hk₂ (h.disjoint hk₁)
    · rw [if_neg ha, if_neg hb] at hpar
      exact hpar
  start_mem a r' hr' := by
    rw [h.get] at hr'
    split_ifs at hr' with hj hi
    · obtain rfl := Option.some.inj hr'
      rw [h.new_range, h.new_start]
      exact ⟨le_rfl, (Region.contains_iff.mp h.inside).2⟩
    · obtain rfl := Option.some.inj hr'
      rw [h.old_range, h.old_eq]
      exact ⟨le_rfl, .inl (lt_of_le_of_ne (Region.contains_iff.mp h.inside).1 h.key_ne.symm)⟩
    · exact hc.start_mem a r' hr'
  ver_lt a r' hr' := by
    rw [h.size_eq]
    rw [h.get] at hr'
    have hlt := hc.ver_lt i r h.region
    split_ifs at hr' with hj hi
    · rw [← Option.some.inj hr', h.new_id]
      show (1 : UInt64).toNat < c.regions.size + 1
      rw [UInt64.toNat_one]
      omega
    · rw [← Option.some.inj hr', hc.ver_old h]
      omega
    · have := hc.ver_lt a r' hr'
      omega

end Cluster

end TikvCpp
