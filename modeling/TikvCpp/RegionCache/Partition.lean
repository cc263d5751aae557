import TikvCpp.RegionCache.Provenance

/-! What PD serves at one moment: regions, each with its version and range, that
cut the key space without gaps or overlaps. PD answers a key with the region that
holds it; peers and leader are not constrained. -/

namespace TikvCpp

open PDClient

namespace KeyLoc

theorem contains_iff {loc : KeyLoc} {key : Str} :
    loc.contains key = true ↔ key ∈ Order.span loc.startKey loc.endKey := by
  simp [contains, Order.mem_span]

end KeyLoc

@[simp] theorem Region.keyLoc_contains (r : Region) (key : Str) :
    r.keyLoc.contains key = r.contains key := rfl

/-- The regions PD knows at one moment: every key lies in exactly one of them,
and a region id names one of them. -/
structure Partition where
  regions : List KeyLoc
  covers : ∀ key, ∃ loc ∈ regions, loc.contains key = true
  unique : ∀ loc ∈ regions, ∀ loc' ∈ regions, ∀ key,
    loc.contains key = true → loc'.contains key = true → loc = loc'
  ids : ∀ loc ∈ regions, ∀ loc' ∈ regions, loc.regionVerId.id = loc'.regionVerId.id → loc = loc'

namespace Partition

variable (p : Partition)

/-- The answer is the region that holds the key. -/
def Answers (key : Str) (resp : Pdpb.GetRegionResponse) : Prop :=
  (parseGetRegionResult resp).1.keyLoc ∈ p.regions ∧ (parseGetRegionResult resp).1.contains key = true

/-- Regions that hold keys and have one end key are one. -/
theorem eq_of_end_eq {loc loc' : KeyLoc} (h : loc ∈ p.regions) (h' : loc' ∈ p.regions) {k k' : Str}
    (hk : loc.contains k = true) (hk' : loc'.contains k' = true) (he : loc.endKey = loc'.endKey) :
    loc = loc' := by
  rw [KeyLoc.contains_iff] at hk hk'
  obtain ⟨y, hy, hy'⟩ := Order.exists_common_of_same_end hk (he ▸ hk')
  exact p.unique loc h loc' h' y (KeyLoc.contains_iff.mpr hy) (KeyLoc.contains_iff.mpr (he ▸ hy'))

/-! ### Partitions from their list of ranges -/

/-- The ranges follow one another from `lo` to the end of the key space. -/
def tiles (lo : Str) : List KeyLoc → Bool
  | [] => false
  | [loc] => loc.startKey == lo && loc.endKey == []
  | loc :: rest => loc.startKey == lo && decide (lo < loc.endKey) && tiles loc.endKey rest

theorem le_of_tiles {lo : Str} {locs : List KeyLoc} (h : tiles lo locs = true) :
    ∀ loc ∈ locs, lo ≤ loc.startKey := by
  fun_induction tiles lo locs with
  | case1 => contradiction
  | case2 lo loc =>
    simp only [Bool.and_eq_true, beq_iff_eq] at h
    simp [h.1]
  | case3 lo loc rest _ ih =>
    simp only [Bool.and_eq_true, beq_iff_eq, decide_eq_true_eq] at h
    obtain ⟨⟨hs, hlt⟩, hrest⟩ := h
    intro loc' hmem
    rcases List.mem_cons.mp hmem with rfl | hmem
    · exact hs.ge
    · exact hlt.le.trans (ih hrest loc' hmem)

theorem covers_of_tiles {lo : Str} {locs : List KeyLoc} (h : tiles lo locs = true) {key : Str}
    (hk : lo ≤ key) : ∃ loc ∈ locs, loc.contains key = true := by
  fun_induction tiles lo locs with
  | case1 => contradiction
  | case2 lo loc =>
    simp only [Bool.and_eq_true, beq_iff_eq] at h
    exact ⟨loc, List.mem_singleton_self loc, KeyLoc.contains_iff.mpr ⟨h.1 ▸ hk, .inr h.2⟩⟩
  | case3 lo loc rest _ ih =>
    simp only [Bool.and_eq_true, beq_iff_eq, decide_eq_true_eq] at h
    obtain ⟨⟨hs, hlt⟩, hrest⟩ := h
    rcases lt_or_ge key loc.endKey with hke | hke
    · exact ⟨loc, List.mem_cons_self, KeyLoc.contains_iff.mpr ⟨hs ▸ hk, .inl hke⟩⟩
    · obtain ⟨loc', hmem, hc⟩ := ih hrest hke
      exact ⟨loc', List.mem_cons_of_mem _ hmem, hc⟩

theorem pairwise_of_tiles {lo : Str} {locs : List KeyLoc} (h : tiles lo locs = true) :
    locs.Pairwise fun loc loc' => ∀ key, loc.contains key = true → ¬ loc'.contains key = true := by
  fun_induction tiles lo locs with
  | case1 => contradiction
  | case2 lo loc => exact List.pairwise_singleton _ _
  | case3 lo loc rest _ ih =>
    simp only [Bool.and_eq_true, beq_iff_eq, decide_eq_true_eq] at h
    obtain ⟨⟨hs, hlt⟩, hrest⟩ := h
    refine List.pairwise_cons.mpr ⟨fun loc' hmem key hk hk' => ?_, ih hrest⟩
    -- the first range ends where the others have not begun
    have hne : loc.endKey ≠ [] := (bot_le.trans_lt hlt).ne'
    have hlt' := (KeyLoc.contains_iff.mp hk).2.resolve_right hne
    have hle := (le_of_tiles hrest loc' hmem).trans (KeyLoc.contains_iff.mp hk').1
    exact absurd hlt' (not_lt.mpr hle)

/-- The partition into ranges that follow one another. -/
def ofTiles (locs : List KeyLoc) (h : tiles [] locs = true)
    (ids : ∀ loc ∈ locs, ∀ loc' ∈ locs, loc.regionVerId.id = loc'.regionVerId.id → loc = loc') :
    Partition where
  regions := locs
  covers key := covers_of_tiles h bot_le
  unique loc hl loc' hl' key hk hk' := by
    by_contra hne
    have hsymm : Std.Symm fun loc loc' : KeyLoc =>
        ∀ key, loc.contains key = true → ¬ loc'.contains key = true :=
      ⟨fun _ _ hd key hk hk' => hd key hk' hk⟩
    exact (pairwise_of_tiles h).forall hl hl' hne key hk hk'
  ids := ids

end Partition

namespace RegionCache

open Transition

variable {ι : Type}

/-- Every answer is the region of the partition that holds the key asked for. -/
def ServedBy (p : Partition) (tr : List (Event ι)) : Prop :=
  ∀ i key resp, .request i key (.ok resp) ∈ tr → p.Answers key resp

theorem ServedBy.of_append {p : Partition} {tr tr' : List (Event ι)} (h : ServedBy p (tr ++ tr')) :
    ServedBy p tr := fun i key resp hmem => h i key resp (List.mem_append_left _ hmem)

theorem ServedBy.consistent {p : Partition} {tr : List (Event ι)} (h : ServedBy p tr) :
    Consistent (regionAnswers tr) := by
  intro a ha b hb hv
  obtain ⟨i, key, resp, hmem, rfl⟩ := mem_regionAnswers.mp ha
  obtain ⟨j, key', resp', hmem', rfl⟩ := mem_regionAnswers.mp hb
  have hloc := p.ids _ (h i key resp hmem).1 _ (h j key' resp' hmem').1 (congrArg RegionVerID.id hv)
  exact (keyLoc_eq_iff.mp hloc).2

/-- What has the version and range of an answer is in the partition and holds a key. -/
theorem ServedBy.mem {p : Partition} {tr : List (Event ι)} (h : ServedBy p tr) {r : Region}
    (hr : Answered tr r) : r.keyLoc ∈ p.regions ∧ ∃ key, r.contains key = true := by
  obtain ⟨a, ha, hk⟩ := hr
  obtain ⟨i, key, resp, hmem, rfl⟩ := mem_regionAnswers.mp ha
  obtain ⟨hp, hc⟩ := h i key resp hmem
  exact ⟨hk ▸ hp, key, by rw [← contains_of_keyLoc_eq hk]; exact hc⟩

end RegionCache

end TikvCpp
