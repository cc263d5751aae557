import TikvCpp.RegionCache.Partition

/-! The clients of a cache and a PD whose regions change. PD serves a partition of
the key space, and may go over to another one at any time, by splits, merges or in
any other way, provided that the version of a region is raised whenever its range
changes. It answers a key with the region that holds it at that time. -/

namespace TikvCpp

open PDClient

/-- Each region id that names a region of both partitions names the same range in
both, or a greater version in the second. -/
def Partition.RaisedTo (p q : Partition) : Prop :=
  ∀ loc ∈ p.regions, ∀ loc' ∈ q.regions, loc.regionVerId.id = loc'.regionVerId.id →
    (loc.startKey = loc'.startKey ∧ loc.endKey = loc'.endKey) ∨ loc.regionVerId.ver < loc'.regionVerId.ver

instance instDecidableRaisedTo (p q : Partition) : Decidable (p.RaisedTo q) :=
  inferInstanceAs (Decidable (∀ loc ∈ p.regions, ∀ loc' ∈ q.regions, _ = _ → (_ ∧ _) ∨ _))

instance instDecidableAnswers (p : Partition) (key : Str) (resp : Pdpb.GetRegionResponse) :
    Decidable (p.Answers key resp) :=
  inferInstanceAs (Decidable (_ ∧ _))

namespace RegionCache

open Transition

variable {ι : Type}

/-- PD's partition, the ones it had before, latest first, and the clients. -/
structure World (ι : Type) where
  past : List Partition
  pd : Partition
  sys : Sys ι

/-- PD starts with some partition, the cache empty. -/
def World.init (ι : Type) (p : Partition) : World ι := ⟨[], p, Sys.init ι⟩

/-- All partitions PD has had, latest first. -/
def World.history (w : World ι) : List Partition := w.pd :: w.past

inductive WorldEvent (ι : Type)
  | change (p : Partition)
  | client (e : Event ι)

/-- PD can make the answer of the event now. -/
def Event.Answerable (p : Partition) : Event ι → Bool
  | .request _ key (.ok resp) => decide (p.Answers key resp)
  | _ => true

/-- The steps of the clients in a history of the world. -/
def clientTrace (tr : List (WorldEvent ι)) : List (Event ι) :=
  tr.filterMap fun
    | .client e => some e
    | .change _ => none

@[simp] theorem clientTrace_append (tr tr' : List (WorldEvent ι)) :
    clientTrace (tr ++ tr') = clientTrace tr ++ clientTrace tr' := List.filterMap_append

@[simp] theorem clientTrace_client (e : Event ι) (tr : List (WorldEvent ι)) :
    clientTrace (.client e :: tr) = e :: clientTrace tr := rfl

@[simp] theorem clientTrace_change (p : Partition) (tr : List (WorldEvent ι)) :
    clientTrace (.change p :: tr) = clientTrace tr := rfl

variable [DecidableEq ι]

/-- PD changes its regions, or a client makes a step. -/
def World.step (w : World ι) : WorldEvent ι → Option (World ι)
  | .change p =>
    if ∀ q ∈ w.history, q.RaisedTo p then some { past := w.history, pd := p, sys := w.sys } else none
  | .client e =>
    if e.Answerable w.pd then (RegionCache.step w.sys e).map fun sys => { w with sys := sys } else none

theorem World.step_change {w w' : World ι} {p : Partition} (h : w.step (.change p) = some w') :
    (∀ q ∈ w.history, q.RaisedTo p) ∧ w' = { past := w.history, pd := p, sys := w.sys } := by
  simp only [World.step] at h
  split_ifs at h with hp
  exact ⟨hp, (Option.some.inj h).symm⟩

theorem World.step_client {w w' : World ι} {e : Event ι} (h : w.step (.client e) = some w') :
    e.Answerable w.pd = true ∧ ∃ sys, RegionCache.step w.sys e = some sys ∧ w' = { w with sys := sys } := by
  simp only [World.step] at h
  split_ifs at h with he
  obtain ⟨sys, hs, hw⟩ := Option.map_eq_some_iff.mp h
  exact ⟨he, sys, hs, hw.symm⟩

variable {p₀ : Partition} {tr : List (WorldEvent ι)} {w : World ι}

/-- The clients of a world run on their own. -/
theorem run_sys (h : run World.step (World.init ι p₀) tr = some w) :
    run step (Sys.init ι) (clientTrace tr) = some w.sys := by
  refine run_induction (P := fun tr w => run step (Sys.init ι) (clientTrace tr) = some w.sys) rfl ?_ h
  intro tr m e m' _ ih he
  rw [clientTrace_append]
  cases e with
  | change p =>
    obtain ⟨_, rfl⟩ := World.step_change he
    simpa [clientTrace] using ih
  | client e =>
    obtain ⟨_, sys, hs, rfl⟩ := World.step_client he
    exact run_snoc_eq_some.mpr ⟨m.sys, ih, hs⟩

/-- Earlier partitions are raised to later ones. -/
theorem history_pairwise (h : run World.step (World.init ι p₀) tr = some w) :
    w.history.Pairwise fun later earlier => earlier.RaisedTo later := by
  refine run_induction (P := fun _ w => w.history.Pairwise fun later earlier => earlier.RaisedTo later)
    (List.pairwise_singleton _ _) ?_ h
  intro tr m e m' _ ih he
  cases e with
  | change p =>
    obtain ⟨hp, rfl⟩ := World.step_change he
    exact List.pairwise_cons.mpr ⟨hp, ih⟩
  | client e =>
    obtain ⟨_, sys, _, rfl⟩ := World.step_client he
    exact ih

/-- Over all the history a version has one range. -/
theorem loc_eq_of_history (h : run World.step (World.init ι p₀) tr = some w) {p q : Partition}
    (hp : p ∈ w.history) (hq : q ∈ w.history) {loc loc' : KeyLoc} (hloc : loc ∈ p.regions)
    (hloc' : loc' ∈ q.regions) (hv : loc.regionVerId = loc'.regionVerId) : loc = loc' := by
  let OneRange (p q : Partition) : Prop := ∀ loc ∈ p.regions, ∀ loc' ∈ q.regions,
    loc.regionVerId = loc'.regionVerId → loc = loc'
  have hsymm : Std.Symm OneRange := ⟨fun p q hpq loc hl loc' hl' hv => (hpq loc' hl' loc hl hv.symm).symm⟩
  have hone : w.history.Pairwise OneRange := by
    refine (history_pairwise h).imp fun {later earlier} hraised loc hl loc' hl' hv => ?_
    have hid := congrArg RegionVerID.id hv
    rcases hraised loc' hl' loc hl hid.symm with ⟨hs, he⟩ | hlt
    · cases loc
      cases loc'
      simp_all
    · rw [hv] at hlt
      exact absurd hlt (lt_irrefl _)
  have hself : ∀ p ∈ w.history, OneRange p p := fun p _ loc hl loc' hl' hv =>
    p.ids loc hl loc' hl' (congrArg RegionVerID.id hv)
  exact hone.forall_of_forall hself hp hq loc hloc loc' hloc' hv

/-- Every answer is a region of a partition PD has had, and holds a key. -/
theorem answer_of_history (h : run World.step (World.init ι p₀) tr = some w) {r : Region}
    (hr : Answered (clientTrace tr) r) :
    (∃ p ∈ w.history, r.keyLoc ∈ p.regions) ∧ ∃ key, r.contains key = true := by
  have hall : ∀ a ∈ regionAnswers (clientTrace tr),
      (∃ p ∈ w.history, a.keyLoc ∈ p.regions) ∧ ∃ key, a.contains key = true := by
    refine run_induction (P := fun tr w => ∀ a ∈ regionAnswers (clientTrace tr),
      (∃ p ∈ w.history, a.keyLoc ∈ p.regions) ∧ ∃ key, a.contains key = true) ?_ ?_ h
    · simp [regionAnswers, clientTrace]
    · intro tr m e m' _ ih he a ha
      rw [clientTrace_append, regionAnswers_append] at ha
      cases e with
      | change p =>
        obtain ⟨_, rfl⟩ := World.step_change he
        obtain ⟨⟨q, hq, hqa⟩, hkey⟩ := ih a (by simpa [clientTrace, regionAnswers] using ha)
        exact ⟨⟨q, List.mem_cons_of_mem _ hq, hqa⟩, hkey⟩
      | client e =>
        obtain ⟨hans, sys, _, rfl⟩ := World.step_client he
        rcases List.mem_append.mp ha with ha | ha
        · exact ih a ha
        · obtain ⟨i, key, resp, hmem, rfl⟩ := mem_regionAnswers.mp ha
          obtain rfl := List.mem_singleton.mp hmem
          obtain ⟨hin, hkey⟩ := of_decide_eq_true hans
          exact ⟨⟨m.pd, List.mem_cons_self, hin⟩, key, hkey⟩
  obtain ⟨a, ha, hk⟩ := hr
  obtain ⟨⟨p, hp, hpa⟩, key, hkey⟩ := hall a ha
  exact ⟨⟨p, hp, hk ▸ hpa⟩, key, by rw [← contains_of_keyLoc_eq hk]; exact hkey⟩

/-- A version that PD answered has the range it has in any partition of the history. -/
theorem keyLoc_eq_of_answered (h : run World.step (World.init ι p₀) tr = some w) {r r' : Region}
    {p : Partition} (hr : Answered (clientTrace tr) r) (hp : p ∈ w.history) (hr' : r'.keyLoc ∈ p.regions)
    (hv : r.verId = r'.verId) : r.keyLoc = r'.keyLoc := by
  obtain ⟨⟨q, hq, hqr⟩, _⟩ := answer_of_history h hr
  exact loc_eq_of_history h hq hp hqr hr' hv

theorem consistent_of_world (h : run World.step (World.init ι p₀) tr = some w) :
    Consistent (regionAnswers (clientTrace tr)) := by
  intro a ha b hb hv
  obtain ⟨⟨p, hp, hpb⟩, _⟩ := answer_of_history h ⟨b, hb, rfl⟩
  have heq := keyLoc_eq_of_answered h ⟨a, ha, rfl⟩ hp hpb hv
  exact (keyLoc_eq_iff.mp heq).2

end RegionCache

end TikvCpp
