import TikvCpp.RegionCache.Clients

/-! The two region maps as one index. Whatever PD answers, every cached version
owns the entry of `sorted_` under its end key. If PD never gives one version two
ranges, every entry of `sorted_` is owned in turn, so the maps correspond entry
by entry, and what `locate_key` answers from one map is covered by the other. -/

namespace TikvCpp.RegionCache

open Data Transition PDClient

/-- Every cached version owns the entry under its end key: the entry has the
same version and range. -/
structure Owned (rc : RegionCache) : Prop where
  sorted_end : ∀ (e : Str) (R : Region), rc.sorted[e]? = some R → R.endKey = e
  cached_ver : ∀ (v : RegionVerID) (c : CachedRegion), rc.cachedRegions[v]? = some c → c.region.verId = v
  cached_sorted : ∀ (v : RegionVerID) (c : CachedRegion), rc.cachedRegions[v]? = some c →
    ∃ R : Region, rc.sorted[c.region.endKey]? = some R ∧ R.keyLoc = c.region.keyLoc

/-- Both maps hold the same versions with the same ranges. -/
structure Agreement (rc : RegionCache) : Prop extends Owned rc where
  sorted_cached : ∀ (e : Str) (R : Region), rc.sorted[e]? = some R →
    ∃ c : CachedRegion, rc.cachedRegions[R.verId]? = some c ∧ c.region.keyLoc = R.keyLoc

theorem keyLoc_eq_iff {a b : Region} :
    a.keyLoc = b.keyLoc ↔ a.verId = b.verId ∧ a.startKey = b.startKey ∧ a.endKey = b.endKey := by
  simp only [Region.keyLoc, KeyLoc.mk.injEq]
  tauto

@[simp] theorem keyLoc_switchLeader (r : Region) (storeId : UInt64) :
    (r.switchLeader storeId).keyLoc = r.keyLoc := rfl

theorem contains_of_keyLoc_eq {a b : Region} (h : a.keyLoc = b.keyLoc) (key : Str) :
    a.contains key = b.contains key := by
  obtain ⟨_, hs, he⟩ := keyLoc_eq_iff.mp h
  simp only [Region.contains, hs, he]

/-! ### The updates keep ownership -/

namespace Owned

variable {rc : RegionCache}

/-- Two cached regions with one end key are one entry. -/
theorem ver_eq_of_end_eq (h : Owned rc) {v w : RegionVerID} {c d : CachedRegion}
    (hc : rc.cachedRegions[v]? = some c) (hd : rc.cachedRegions[w]? = some d)
    (he : c.region.endKey = d.region.endKey) : v = w := by
  obtain ⟨R, hR, hRc⟩ := h.cached_sorted v c hc
  obtain ⟨S, hS, hSd⟩ := h.cached_sorted w d hd
  obtain rfl : R = S := Option.some.inj (hR.symm.trans (he ▸ hS))
  rw [← h.cached_ver v c hc, ← h.cached_ver w d hd]
  exact (keyLoc_eq_iff.mp (hRc.symm.trans hSd)).1

theorem insert (h : Owned rc) (r : Region) (now : Time) : Owned (rc.insertRegionToCache r now) where
  sorted_end e R hR := by
    rw [insertRegionToCache_sorted] at hR
    split_ifs at hR with he
    · rw [← Option.some.inj hR, he]
    · exact h.sorted_end e R hR
  cached_ver v c hc := by
    rw [insertRegionToCache_cachedRegions] at hc
    split_ifs at hc with hv _
    · rw [← Option.some.inj hc]; exact hv
    · exact h.cached_ver v c hc
  cached_sorted v c hc := by
    rw [insertRegionToCache_cachedRegions] at hc
    split_ifs at hc with hv hev
    · obtain rfl := Option.some.inj hc
      exact ⟨r, by rw [insertRegionToCache_sorted, if_pos rfl], rfl⟩
    · obtain ⟨R, hR, hRc⟩ := h.cached_sorted v c hc
      refine ⟨R, ?_, hRc⟩
      -- an older version under the inserted end key would have been evicted
      have hne : r.endKey ≠ c.region.endKey := by
        intro he
        apply hev
        rw [he, hR, Option.map_some, (keyLoc_eq_iff.mp hRc).1, h.cached_ver v c hc]
      rw [insertRegionToCache_sorted, if_neg hne, hR]

theorem drop (h : Owned rc) (v : RegionVerID) : Owned (rc.dropRegionFromCache v) where
  sorted_end e R hR := by
    rw [dropRegionFromCache_sorted] at hR
    split_ifs at hR
    exact h.sorted_end e R hR
  cached_ver w c hc := by
    rw [dropRegionFromCache_cachedRegions] at hc
    split_ifs at hc
    exact h.cached_ver w c hc
  cached_sorted w c hc := by
    rw [dropRegionFromCache_cachedRegions] at hc
    split_ifs at hc with hv
    obtain ⟨R, hR, hRc⟩ := h.cached_sorted w c hc
    refine ⟨R, ?_, hRc⟩
    rw [dropRegionFromCache_sorted, if_neg, hR]
    intro hd
    obtain ⟨d, hd, he⟩ := Option.map_eq_some_iff.mp hd
    exact hv (h.ver_eq_of_end_eq hd hc he)

theorem updateLeader (h : Owned rc) (v : RegionVerID) (s : UInt16) (t now : Time) :
    Owned (rc.updateRegionLeader v s t now) := by
  -- the region cached under a version keeps its version and range
  have hkl : ∀ (w : RegionVerID) (c : CachedRegion), (rc.updateRegionLeader v s t now).cachedRegions[w]? = some c →
      ∃ d : CachedRegion, rc.cachedRegions[w]? = some d ∧ d.region.keyLoc = c.region.keyLoc := by
    intro w c hc
    rw [updateRegionLeader_cachedRegions] at hc
    obtain ⟨d, hd, rfl⟩ := Option.map_eq_some_iff.mp hc
    exact ⟨d, hd, by split_ifs <;> simp⟩
  refine ⟨fun e R hR => h.sorted_end e R (by simpa using hR), fun w c hc => ?_, fun w c hc => ?_⟩
  · obtain ⟨d, hd, hdc⟩ := hkl w c hc
    rw [← (keyLoc_eq_iff.mp hdc).1, h.cached_ver w d hd]
  · obtain ⟨d, hd, hdc⟩ := hkl w c hc
    obtain ⟨R, hR, hRd⟩ := h.cached_sorted w d hd
    refine ⟨R, ?_, hRd.trans hdc⟩
    rw [updateRegionLeader_sorted, ← (keyLoc_eq_iff.mp hdc).2.2, hR]

end Owned

/-! ### The updates keep agreement -/

namespace Agreement

variable {rc : RegionCache}

/-- An insert keeps the maps in agreement if a cached region of the inserted
version has the inserted end key. -/
theorem insert (h : Agreement rc) (r : Region) (now : Time)
    (hr : ∀ c : CachedRegion, rc.cachedRegions[r.verId]? = some c → c.region.endKey = r.endKey) :
    Agreement (rc.insertRegionToCache r now) where
  toOwned := h.toOwned.insert r now
  sorted_cached e R hR := by
    rw [insertRegionToCache_sorted] at hR
    split_ifs at hR with he
    · obtain rfl := Option.some.inj hR
      exact ⟨_, by rw [insertRegionToCache_cachedRegions, if_pos rfl], rfl⟩
    · obtain ⟨c, hc, hcR⟩ := h.sorted_cached e R hR
      have hce : c.region.endKey = e := by
        rw [(keyLoc_eq_iff.mp hcR).2.2, h.sorted_end e R hR]
      refine ⟨c, ?_, hcR⟩
      rw [insertRegionToCache_cachedRegions, if_neg, if_neg, hc]
      · intro hev
        obtain ⟨S, hS, hSv⟩ := Option.map_eq_some_iff.mp hev
        obtain ⟨d, hd, hdS⟩ := h.sorted_cached _ S hS
        obtain rfl : d = c := Option.some.inj (hd.symm.trans (hSv ▸ hc))
        rw [← h.sorted_end _ S hS, ← (keyLoc_eq_iff.mp hdS).2.2] at he
        exact he hce
      · intro hv
        exact he ((hr c (hv ▸ hc)).symm.trans hce)

theorem drop (h : Agreement rc) (v : RegionVerID) : Agreement (rc.dropRegionFromCache v) where
  toOwned := h.toOwned.drop v
  sorted_cached e R hR := by
    rw [dropRegionFromCache_sorted] at hR
    split_ifs at hR with hd
    obtain ⟨c, hc, hcR⟩ := h.sorted_cached e R hR
    refine ⟨c, ?_, hcR⟩
    rw [dropRegionFromCache_cachedRegions, if_neg, hc]
    rintro rfl
    exact hd (by rw [hc, Option.map_some, (keyLoc_eq_iff.mp hcR).2.2, h.sorted_end e R hR])

theorem updateLeader (h : Agreement rc) (v : RegionVerID) (s : UInt16) (t now : Time) :
    Agreement (rc.updateRegionLeader v s t now) where
  toOwned := h.toOwned.updateLeader v s t now
  sorted_cached e R hR := by
    obtain ⟨c, hc, hcR⟩ := h.sorted_cached e R (by simpa using hR)
    refine ⟨_, by rw [updateRegionLeader_cachedRegions, hc, Option.map_some], ?_⟩
    split_ifs <;> simpa using hcR

/-- Following an entry into the other map and back leads to that entry. -/
theorem size_eq (h : Agreement rc) : rc.sorted.size = rc.cachedRegions.size := by
  apply le_antisymm
  · refine OrdMap.size_le_of_pointers Region.verId (fun c => c.region.endKey) fun e R hR => ?_
    obtain ⟨c, hc, hcR⟩ := h.sorted_cached e R hR
    exact ⟨c, hc, by rw [(keyLoc_eq_iff.mp hcR).2.2, h.sorted_end e R hR]⟩
  · refine OrdMap.size_le_of_pointers (fun c => c.region.endKey) Region.verId fun v c hc => ?_
    obtain ⟨R, hR, hRc⟩ := h.cached_sorted v c hc
    exact ⟨R, hR, by rw [(keyLoc_eq_iff.mp hRc).1, h.cached_ver v c hc]⟩

end Agreement

/-- The dump looks up cached versions only, so it creates no entry. -/
theorem dumpCache_snd {rc : RegionCache}
    (h : ∀ (e : Str) (R : Region), rc.sorted[e]? = some R → (rc.cachedRegions[R.verId]?).isSome) :
    rc.dumpCache.2 = rc := by
  have hmem : ∀ it ∈ rc.sorted.toList, it.2.verId ∈ rc.cachedRegions := by
    intro it hit
    rw [Std.ExtTreeMap.mem_iff_isSome_getElem?]
    exact h it.1 it.2 (Std.ExtTreeMap.mem_toList_iff_getElem?_eq_some.mp hit)
  have hsame : ∀ v ∈ rc.cachedRegions, rc.cachedRegions.insertIfNew v {} = rc.cachedRegions := by
    intro v hv
    refine Std.ExtTreeMap.ext_getElem? fun w => ?_
    rw [Std.ExtTreeMap.getElem?_insertIfNew, if_neg (by rintro ⟨_, hn⟩; exact hn hv)]
  have hloop : ∀ l : List (Str × Region), (∀ it ∈ l, it.2.verId ∈ rc.cachedRegions) →
      ∀ acc : List DumpLine × RegionCache, acc.2 = rc → (l.foldl dumpEntry acc).2 = rc := by
    intro l
    induction l with
    | nil => exact fun _ _ hacc => hacc
    | cons it l ih =>
      rintro hl ⟨lines, _⟩ rfl
      refine ih (fun it' h' => hl it' (List.mem_cons_of_mem _ h')) _ ?_
      simp only [dumpEntry, hsame _ (hl it List.mem_cons_self)]
  exact hloop _ hmem _ rfl

/-! ### Where cached regions come from -/

section Runs

variable {ι : Type}

/-- What `sorted_` holds under an end key after an event was there before it, and no
other region was inserted under that end key, or is what the event inserts. -/
theorem commit_sorted {e : Event ι} {rc : RegionCache} {k : Str} {R : Region}
    (h : (e.commit rc).sorted[k]? = some R) :
    (rc.sorted[k]? = some R ∧ ∀ i r now, e = .insert i r now → r.endKey ≠ k) ∨
      ∃ i now, e = .insert i R now ∧ R.endKey = k := by
  cases e with
  | insert i r now =>
    simp only [Event.commit, insertRegionToCache_sorted] at h
    split_ifs at h with he
    · obtain rfl := Option.some.inj h
      exact .inr ⟨i, now, rfl, he⟩
    · refine .inl ⟨h, fun j r' now' hins => ?_⟩
      obtain ⟨_, rfl, _⟩ := Event.insert.inj hins
      exact he
  | dropContext i v | dropRegion i v =>
    simp only [Event.commit, dropRegionFromCache_sorted] at h
    split_ifs at h
    exact .inl ⟨h, by simp⟩
  | updateRegionLeader => exact .inl ⟨by simpa [Event.commit] using h, by simp⟩
  | search | request | readRegion | findStore | requestStore | writeStore => exact .inl ⟨h, by simp⟩

/-- A cached region stays, up to its leader, or is the inserted one. -/
theorem commit_cachedRegions {e : Event ι} {rc : RegionCache} {v : RegionVerID} {c : CachedRegion}
    (h : (e.commit rc).cachedRegions[v]? = some c) :
    (∃ d : CachedRegion, rc.cachedRegions[v]? = some d ∧ d.region.keyLoc = c.region.keyLoc) ∨
      ∃ i now, e = .insert i c.region now := by
  cases e with
  | insert i r now =>
    simp only [Event.commit, insertRegionToCache_cachedRegions] at h
    split_ifs at h
    · obtain rfl := Option.some.inj h; exact .inr ⟨i, now, rfl⟩
    · exact .inl ⟨c, h, rfl⟩
  | dropContext i w | dropRegion i w =>
    simp only [Event.commit, dropRegionFromCache_cachedRegions] at h
    split_ifs at h; exact .inl ⟨c, h, rfl⟩
  | updateRegionLeader =>
    simp only [Event.commit, updateRegionLeader_cachedRegions] at h
    obtain ⟨d, hd, rfl⟩ := Option.map_eq_some_iff.mp h
    exact .inl ⟨d, hd, by split_ifs <;> simp⟩
  | search | request | readRegion | findStore | requestStore | writeStore => exact .inl ⟨c, h, rfl⟩

/-- The region `r` has the version and range of an answer of PD. -/
def Answered (tr : List (Event ι)) (r : Region) : Prop :=
  ∃ a ∈ regionAnswers tr, a.keyLoc = r.keyLoc

theorem Answered.append {tr : List (Event ι)} {r : Region} (h : Answered tr r) (tr' : List (Event ι)) :
    Answered (tr ++ tr') r := by
  obtain ⟨a, ha, hk⟩ := h
  exact ⟨a, by rw [regionAnswers_append]; exact List.mem_append_left _ ha, hk⟩

/-- The loader accepts only what PD answered, and changes at most its leader. -/
theorem loadRegionFromPd_ok {answer : Except Error Pdpb.GetRegionResponse} {r : Region}
    (h : loadRegionFromPd (getRegionInner answer) = .ok r) :
    ∃ resp, answer = .ok resp ∧ (parseGetRegionResult resp).1.keyLoc = r.keyLoc := by
  cases answer with
  | error e => contradiction
  | ok resp =>
    refine ⟨resp, rfl, ?_⟩
    simp only [loadRegionFromPd, acceptRegion, getRegionInner, Except.map] at h
    split_ifs at h <;> obtain rfl := Except.ok.inj h <;> rfl

/-- PD has answered client `i` the region `r`, and the client has made no step since. -/
def Requested (tr : List (Event ι)) (i : ι) (key : Str) (r : Region) : Prop :=
  ∃ pre resp post, tr = pre ++ .request i key (.ok resp) :: post ∧
    loadRegionFromPd (getRegionInner (.ok resp)) = .ok r ∧ ∀ e ∈ post, e.client ≠ i

theorem Requested.exists_answer {tr : List (Event ι)} {i : ι} {key : Str} {r : Region}
    (h : Requested tr i key r) : ∃ resp, .request i key (.ok resp) ∈ tr ∧
      loadRegionFromPd (getRegionInner (.ok resp)) = .ok r ∧
      (parseGetRegionResult resp).1.keyLoc = r.keyLoc := by
  obtain ⟨pre, resp, post, rfl, hok, _⟩ := h
  obtain ⟨_, hr, hk⟩ := loadRegionFromPd_ok hok
  obtain rfl := Except.ok.inj hr
  exact ⟨resp, by simp, hok, hk⟩

theorem Requested.answered {tr : List (Event ι)} {i : ι} {key : Str} {r : Region}
    (h : Requested tr i key r) : Answered tr r := by
  obtain ⟨resp, hmem, _, hk⟩ := h.exists_answer
  exact ⟨_, mem_regionAnswers.mpr ⟨i, key, resp, hmem, rfl⟩, hk⟩

/-- Whatever PD answers, what the cache holds has the version and range of some
answer, and what is about to be inserted is an answer the loader accepted. -/
structure Sourced (tr : List (Event ι)) (s : Sys ι) : Prop where
  sorted : ∀ (e : Str) (R : Region), s.cache.sorted[e]? = some R → Answered tr R
  cached : ∀ (v : RegionVerID) (c : CachedRegion), s.cache.cachedRegions[v]? = some c →
    Answered tr c.region
  loaded : ∀ i key r, s.phase i = .loaded key r → Requested tr i key r

theorem Sourced.answered {tr : List (Event ι)} {s : Sys ι} (h : Sourced tr s) {i : ι} {key : Str}
    {r : Region} (hp : s.phase i = .loaded key r) : Answered tr r := (h.loaded i key r hp).answered

/-- No version comes with two ranges. -/
def Consistent (rs : List Region) : Prop :=
  ∀ a ∈ rs, ∀ b ∈ rs, a.verId = b.verId → a.startKey = b.startKey ∧ a.endKey = b.endKey

instance (rs : List Region) : Decidable (Consistent rs) :=
  inferInstanceAs (Decidable (∀ a ∈ rs, ∀ b ∈ rs, a.verId = b.verId → _ ∧ _))

theorem Consistent.keyLoc_eq {rs : List Region} (h : Consistent rs) {a b : Region} (ha : a ∈ rs)
    (hb : b ∈ rs) (hv : a.verId = b.verId) : a.keyLoc = b.keyLoc :=
  keyLoc_eq_iff.mpr ⟨hv, h a ha b hb hv⟩

theorem Answered.keyLoc_eq {tr : List (Event ι)} (hc : Consistent (regionAnswers tr)) {r r' : Region}
    (h : Answered tr r) (h' : Answered tr r') (hv : r.verId = r'.verId) : r.keyLoc = r'.keyLoc := by
  obtain ⟨a, ha, hak⟩ := h
  obtain ⟨b, hb, hbk⟩ := h'
  rw [← hak, ← hbk]
  refine hc.keyLoc_eq ha hb ?_
  rw [(keyLoc_eq_iff.mp hak).1, hv, (keyLoc_eq_iff.mp hbk).1]

theorem Owned.commit {rc : RegionCache} (h : Owned rc) (e : Event ι) : Owned (e.commit rc) := by
  cases e with
  | insert i r now => exact h.insert r now
  | dropContext i v | dropRegion i v => exact h.drop v
  | updateRegionLeader i v st t now => exact h.updateLeader v st t now
  | writeStore => exact ⟨h.sorted_end, h.cached_ver, h.cached_sorted⟩
  | search | request | readRegion | findStore | requestStore => exact h

/-! ### What a run has loaded -/

variable [DecidableEq ι]

/-- A load in flight after a step was in flight before it or is PD's answer. -/
theorem Step.loaded {s s' : Sys ι} {e : Event ι} (h : Step s e s') {j : ι} {key : Str} {r : Region}
    (hl : s'.phase j = .loaded key r) : (e.client ≠ j ∧ s.phase j = .loaded key r) ∨
      ∃ resp, e = .request j key (.ok resp) ∧ loadRegionFromPd (getRegionInner (.ok resp)) = .ok r := by
  rcases h.enters j with ⟨hj, hsame⟩ | ⟨_, hin⟩
  · exact .inl ⟨hj, hsame.symm.trans hl⟩
  · right
    rw [hl] at hin
    obtain ⟨answer, rfl, ok⟩ := hin
    obtain ⟨resp, rfl, _⟩ := loadRegionFromPd_ok ok
    exact ⟨resp, rfl, ok⟩

theorem Sourced.step {tr : List (Event ι)} {s s' : Sys ι} {e : Event ι} (h : Sourced tr s)
    (hs : Step s e s') : Sourced (tr ++ [e]) s' where
  sorted k R hR := by
    rw [hs.cache] at hR
    rcases commit_sorted hR with ⟨hR, _⟩ | ⟨i, now, rfl, _⟩
    · exact (h.sorted k R hR).append _
    · cases hs with | insert hp => exact (h.answered hp).append _
  cached v c hc := by
    rw [hs.cache] at hc
    rcases commit_cachedRegions hc with ⟨d, hd, hk⟩ | ⟨i, now, rfl⟩
    · obtain ⟨a, ha, hak⟩ := (h.cached v d hd).append [e]
      exact ⟨a, ha, hak.trans hk⟩
    · cases hs with | insert hp => exact (h.answered hp).append _
  loaded i key r hp := by
    rcases hs.loaded hp with ⟨hne, hp⟩ | ⟨resp, rfl, hok⟩
    · obtain ⟨pre, resp, post, rfl, hok, hpost⟩ := h.loaded i key r hp
      exact ⟨pre, resp, post ++ [e], by simp, hok, forall_mem_snoc hpost hne⟩
    · exact ⟨tr, resp, [], rfl, hok, by simp⟩

theorem sourced {tr : List (Event ι)} {s : Sys ι} (h : run step (Sys.init ι) tr = some s) :
    Sourced tr s := by
  refine run_induction ?_ (fun tr s e s' _ ih he => ih.step (step_cases he)) h
  exact ⟨by simp [Sys.init], by simp [Sys.init], by simp [Sys.init]⟩

/-- Every inserted region is an answer to its client that the loader accepted,
and the client has made no step between the answer and the insert. -/
theorem requested_of_insert {tr : List (Event ι)} {s : Sys ι} (h : run step (Sys.init ι) tr = some s)
    {pre post : List (Event ι)} {i : ι} {r : Region} {t₀ : Time}
    (htr : tr = pre ++ .insert i r t₀ :: post) : ∃ key, Requested pre i key r := by
  subst htr
  obtain ⟨m, m', hm, hstep, _⟩ := step_of_run h
  cases step_cases hstep with
  | @insert _ key _ _ hp => exact ⟨key, (sourced hm).loaded i key r hp⟩

/-! ### Agreement along runs -/

/-- In every run every cached version owns its entry, whatever PD answers. -/
theorem owned {tr : List (Event ι)} {s : Sys ι} (h : run step (Sys.init ι) tr = some s) :
    Owned s.cache := by
  refine run_induction (P := fun _ s => Owned s.cache) ?_ (fun _ _ _ _ _ ih he => ?_) h
  · exact ⟨by simp [Sys.init], by simp [Sys.init], by simp [Sys.init]⟩
  · rw [(step_cases he).cache]; exact ih.commit _

/-- While PD never gives one version two ranges, the maps agree. -/
theorem agreement {tr : List (Event ι)} {s : Sys ι} (h : run step (Sys.init ι) tr = some s)
    (hc : Consistent (regionAnswers tr)) : Agreement s.cache := by
  refine run_induction
    (P := fun tr s => Consistent (regionAnswers tr) → Agreement s.cache) ?_ ?_ h hc
  · exact fun _ => ⟨⟨by simp [Sys.init], by simp [Sys.init], by simp [Sys.init]⟩, by simp [Sys.init]⟩
  · intro tr s e s' hrun ih he hc
    have hc' : Consistent (regionAnswers tr) := fun a ha b hb =>
      hc a (by simp [ha]) b (by simp [hb])
    have hs := step_cases he
    have hsrc := sourced hrun
    specialize ih hc'
    rw [hs.cache]
    cases hs with
    | insert hp =>
      refine ih.insert _ _ fun c hcv => ?_
      exact (keyLoc_eq_iff.mp ((hsrc.cached _ c hcv).keyLoc_eq hc' (hsrc.answered hp)
        (ih.cached_ver _ c hcv))).2.2
    | dropContext | dropRegion => exact ih.drop _
    | updateRegionLeader => exact ih.updateLeader _ _ _ _
    | writeStore => exact ⟨⟨ih.sorted_end, ih.cached_ver, ih.cached_sorted⟩, ih.sorted_cached⟩
    | _ => exact ih

/-- Along every run of any number of clients, while PD never gives one version
two ranges, `sorted_` and `cached_regions_` correspond entry by entry. So they
have one size, and the dump of a reached cache creates no entry. -/
theorem index_agreement {tr : List (Event ι)} {s : Sys ι}
    (h : run step (Sys.init ι) tr = some s) (hc : Consistent (regionAnswers tr)) :
    (∀ (e : Str) (R : Region), s.cache.sorted[e]? = some R → R.endKey = e ∧
      ∃ c : CachedRegion, s.cache.cachedRegions[R.verId]? = some c ∧ c.region.verId = R.verId ∧
        c.region.startKey = R.startKey ∧ c.region.endKey = R.endKey) ∧
    (∀ (v : RegionVerID) (c : CachedRegion), s.cache.cachedRegions[v]? = some c →
      c.region.verId = v ∧
        ∃ R : Region, s.cache.sorted[c.region.endKey]? = some R ∧ R.verId = v) ∧
    s.cache.sorted.size = s.cache.cachedRegions.size ∧
    s.cache.dumpCache.2 = s.cache := by
  have ha := agreement h hc
  refine ⟨fun e R hR => ?_, fun v c hv => ?_, ha.size_eq, dumpCache_snd fun e R hR => ?_⟩
  · obtain ⟨c, hcv, hk⟩ := ha.sorted_cached e R hR
    exact ⟨ha.sorted_end e R hR, c, hcv, keyLoc_eq_iff.mp hk⟩
  · obtain ⟨R, hR, hk⟩ := ha.cached_sorted v c hv
    exact ⟨ha.cached_ver v c hv, R, hR, by rw [(keyLoc_eq_iff.mp hk).1, ha.cached_ver v c hv]⟩
  · obtain ⟨c, hcv, _⟩ := ha.sorted_cached e R hR
    rw [hcv]; rfl

/-- PD's region of the keys from `a` to `m`, led by its first peer. -/
def answerAM : Pdpb.GetRegionResponse where
  region :=
    { id := 2, startKey := [0x61], endKey := [0x6d], regionEpoch := { confVer := 1, version := 1 }
      peers := [{ id := 21, storeId := 1 }, { id := 22, storeId := 4 }] }
  leader := { id := 21, storeId := 1 }

def regionAM : Region where
  verId := { id := 2, confVer := 1, ver := 1 }
  startKey := [0x61]
  endKey := [0x6d]
  peers := [{ id := 21, storeId := 1 }, { id := 22, storeId := 4 }]
  leader := { id := 21, storeId := 1 }

/-- Two clients miss on the same region and both load it; one then finds it cached. -/
def twoLoads : List (Event Bool) :=
  [.search true [0x62] 5 5, .search false [0x63] 5 5,
    .request true [0x62] (.ok answerAM), .request false [0x63] (.ok answerAM),
    .insert true regionAM 6, .insert false regionAM 7,
    .updateRegionLeader true regionAM.verId 4 8 8,
    .search true [0x64] 9 9]

theorem twoLoads_isSome : (run step (Sys.init Bool) twoLoads).isSome := by decide

theorem index_agreement_twoLoads :
    ∃ s, run step (Sys.init Bool) twoLoads = some s ∧
      s.cache.sorted.size = s.cache.cachedRegions.size ∧ s.cache.dumpCache.2 = s.cache := by
  have h := (Option.some_get twoLoads_isSome).symm
  exact ⟨_, h, (index_agreement h (by decide)).2.2⟩

/-! ### What `locate_key` answers -/

/-- PD answers a key with a region that contains it. -/
def Containing (tr : List (Event ι)) : Prop :=
  ∀ i key resp, .request i key (.ok resp) ∈ tr → (parseGetRegionResult resp).1.contains key = true

/-- A region found by the search has the version and range of an indexed one
that contains the key. -/
theorem searchCache_sound {rc : RegionCache} (h : Agreement rc) {key : Str} {t now : Time}
    {r : Region} (hs : (rc.searchCache key t now).1 = some r) :
    ∃ (e : Str) (R : Region), rc.sorted[e]? = some R ∧ R.contains key = true ∧ R.keyLoc = r.keyLoc := by
  obtain ⟨e, R, hub, hk, hg⟩ := searchCache_eq_some.mp hs
  obtain ⟨c, hc, _, rfl⟩ := getCachedRegion_eq_some.mp hg
  have hR := (OrdMap.upperBound_eq_some.mp hub).1
  obtain ⟨d, hd, hdR⟩ := h.sorted_cached e R hR
  obtain rfl : d = c := Option.some.inj (hd.symm.trans hc)
  exact ⟨e, R, hR, hk, hdR.symm⟩

/-- A client that has a location after a step had it before, has found it in the
cache, or has inserted its region. -/
theorem Step.located {s s' : Sys ι} {e : Event ι} (h : Step s e s') {j : ι} {key : Str}
    {loc : KeyLoc} {hit : Option Bool}
    (hl : s'.phase j = .idle (some (.locateKey key (.ok loc) hit))) :
    s.phase j = .idle (some (.locateKey key (.ok loc) hit)) ∨
      (∃ t now r, (s.cache.searchCache key t now).1 = some r ∧ r.keyLoc = loc) ∨
      ∃ r, s.phase j = .loaded key r ∧ r.keyLoc = loc := by
  cases h with
  | @searchHit i key' t now r last hp hit =>
    rw [Sys.goto_phase] at hl
    split_ifs at hl
    · cases hl; exact .inr (.inl ⟨t, now, r, hit, rfl⟩)
    · exact .inl hl
  | @insert i key' r now hp =>
    rw [Sys.goto_phase] at hl
    split_ifs at hl with hj
    · cases hl; exact .inr (.inr ⟨r, hj ▸ hp, rfl⟩)
    · exact .inl hl
  | @findHit _ storeId caller it | @requestStoreErr _ storeId _ caller e | @writeStore _ storeId store caller =>
    rw [Sys.goto_phase] at hl
    split_ifs at hl
    · rcases caller.resume_eq storeId _ with ⟨ret, hr, hne⟩ | ⟨v, hr⟩ <;> rw [hr] at hl
      · exact absurd (Option.some.inj (Phase.idle.inj hl)) (hne _ _ _)
      · contradiction
    · exact .inl hl
  | _ =>
    rw [Sys.goto_phase] at hl
    split_ifs at hl <;> first | exact .inl hl | cases hl

/-- Whenever `locate_key` returns a location for a key, from the cache or from PD,
the location contains the key and is the version and range of a region PD answered. -/
theorem locateKey_sound {tr : List (Event ι)} {s : Sys ι} (h : run step (Sys.init ι) tr = some s)
    (hc : Consistent (regionAnswers tr)) (hk : Containing tr) {i : ι} {key : Str} {loc : KeyLoc}
    {hit : Option Bool} (hl : s.phase i = .idle (some (.locateKey key (.ok loc) hit))) :
    loc.contains key = true ∧
      ∃ a ∈ regionAnswers tr, a.verId = loc.regionVerId ∧ a.startKey = loc.startKey ∧
        a.endKey = loc.endKey := by
  -- a region with the key and the version and range of an answer gives a sound location
  have hgood : ∀ {tr : List (Event ι)} {R : Region}, Answered tr R → R.contains key = true →
      R.keyLoc.contains key = true ∧ ∃ a ∈ regionAnswers tr,
        a.verId = R.keyLoc.regionVerId ∧ a.startKey = R.keyLoc.startKey ∧ a.endKey = R.keyLoc.endKey :=
    fun ⟨a, ha, hak⟩ hR => ⟨hR, a, ha, keyLoc_eq_iff.mp hak⟩
  refine run_induction (P := fun tr s => Consistent (regionAnswers tr) → Containing tr →
    s.phase i = .idle (some (.locateKey key (.ok loc) hit)) → loc.contains key = true ∧
      ∃ a ∈ regionAnswers tr, a.verId = loc.regionVerId ∧ a.startKey = loc.startKey ∧
        a.endKey = loc.endKey) ?_ ?_ h hc hk hl
  · exact fun _ _ hl => by simp [Sys.init] at hl
  · intro tr s e s' hrun ih he hc hk hl
    have hc' : Consistent (regionAnswers tr) := fun a ha b hb =>
      hc a (by simp [ha]) b (by simp [hb])
    have hk' : Containing tr := fun i key resp hmem => hk i key resp (List.mem_append_left _ hmem)
    have hsrc := sourced hrun
    rcases (step_cases he).located hl with hl | ⟨t, now, r, hs, rfl⟩ | ⟨r, hp, rfl⟩
    · obtain ⟨hcont, a, ha, hloc⟩ := ih hc' hk' hl
      exact ⟨hcont, a, by simp [ha], hloc⟩
    · obtain ⟨k, R, hR, hkey, hRr⟩ := searchCache_sound (agreement hrun hc') hs
      rw [← hRr]
      exact hgood ((hsrc.sorted k R hR).append _) hkey
    · obtain ⟨resp, hmem, _, hak⟩ := (hsrc.loaded i key r hp).exists_answer
      have hkey := hk' i key resp hmem
      rw [contains_of_keyLoc_eq hak] at hkey
      exact hgood ((hsrc.answered hp).append _) hkey

theorem locateKey_sound_twoLoads :
    regionAM.keyLoc.contains [0x64] = true ∧ ∃ a ∈ regionAnswers twoLoads,
      a.verId = regionAM.verId ∧ a.startKey = [0x61] ∧ a.endKey = [0x6d] := by
  have h := (Option.some_get twoLoads_isSome).symm
  have hk : Containing twoLoads := by
    intro i key resp hmem
    simp only [twoLoads, List.mem_cons, reduceCtorEq, Event.request.injEq, false_or, or_false,
      List.not_mem_nil] at hmem
    rcases hmem with ⟨_, rfl, hr⟩ | ⟨_, rfl, hr⟩ <;> obtain rfl := Except.ok.inj hr <;> decide
  have hl : ((run step (Sys.init Bool) twoLoads).get twoLoads_isSome).phase true =
      .idle (some (.locateKey [0x64] (.ok regionAM.keyLoc) (some true))) := rfl
  exact locateKey_sound h (by decide) hk hl

end Runs

end TikvCpp.RegionCache
