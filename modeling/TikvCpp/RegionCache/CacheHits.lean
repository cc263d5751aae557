import TikvCpp.RegionCache.Clients
import TikvCpp.PDClient.Rules

/-! What `locate_key` says of where its answer comes from. A hit asks nothing of PD and sets
`cache_hit`, and a load asks PD and clears it. A call that fails has asked PD too, but it
leaves the variable as it was, so a caller that passes `true` is told of a hit. The cache
is as before wherever a call fails. -/

namespace TikvCpp.RegionCache

open Data Transition Transition.Program PDClient

/-! ### A call and its PD client -/

/-- A region cache with its `PDClient_`. -/
structure Node where
  cache : RegionCache
  pd : PDClient

abbrev NodeM := Program Node PDClient.Environment PDClient.Event

/-- A message to PD. -/
def isRequest : PDClient.Event → Bool
  | .getMembers _ _ => true
  | .send _ _ => true
  | .select _ | .discard | .connect _ | .status _ => false

namespace Node

/-- `load_region_from_pd`. -/
def loadRegionFromPd (key : Str) : NodeM (Except Error Region) := do
  let ret ← zoom Node.pd (fun pd s => { s with pd := pd }) (PDClient.getRegion key)
  return RegionCache.loadRegionFromPd ret

/-- `locate_key`, and the value it leaves in `cache_hit`. The clock is read twice in the
search and once more on an insert. -/
def locateKey (key : Str) (cacheHit : Bool) (t now insertedAt : Time) : NodeM (Except Error KeyLoc × Bool) := do
  let s ← state
  let found := s.cache.searchCache key t now
  modifyState fun s => { s with cache := found.2 }
  match found.1 with
  | some cached => return (.ok cached.keyLoc, true)
  | none =>
    let r ← loadRegionFromPd key
    match r with
    | .ok region =>
      modifyState fun s => { s with cache := s.cache.insertRegionToCache region insertedAt }
      return (.ok region.keyLoc, false)
    | .error e => return (.error e, cacheHit)

section

variable {s : Node} {env : PDClient.Environment} {key : Str} {cacheHit : Bool} {t now insertedAt : Time}
  {Q : Except Error KeyLoc × Bool → Session Node PDClient.Environment PDClient.Event → Prop}
  {E : Stop → Session Node PDClient.Environment PDClient.Event → Prop}

/-- A call returns what the cache has, or what the PD client makes of the miss. -/
theorem locateKey_meets
    (hhit : ∀ r, (s.cache.searchCache key t now).1 = some r →
      Q (.ok r.keyLoc, true) { state := s, inputs := env })
    (hmiss : (s.cache.searchCache key t now).1 = none → Meets (PDClient.getRegion key)
      (fun ret w => match RegionCache.loadRegionFromPd ret with
        | .ok r => Q (.ok r.keyLoc, false)
          { state := ⟨s.cache.insertRegionToCache r insertedAt, w.state⟩, inputs := w.inputs, log := w.log }
        | .error e => Q (.error e, cacheHit) { state := ⟨s.cache, w.state⟩, inputs := w.inputs, log := w.log })
      (fun e w => E e { state := ⟨s.cache, w.state⟩, inputs := w.inputs, log := w.log })
      { state := s.pd, inputs := env }) :
    Meets (locateKey key cacheHit t now insertedAt) Q E { state := s, inputs := env } := by
  have hsame := s.cache.searchCache_snd key t now
  unfold locateKey
  rw [meets_bind, meets_state]
  refine meets_bind.mpr (meets_modifyState.mpr ?_)
  cases hs : (s.cache.searchCache key t now).1 with
  | some r =>
    rw [hsame]
    exact meets_pure.mpr (hhit r hs)
  | none =>
    rw [hsame]
    refine meets_bind.mpr (meets_bind.mpr (meets_zoom.mpr ((hmiss hs).mono (fun ret w hw => ?_) fun _ _ => id)))
    refine meets_pure.mpr ?_
    cases hl : RegionCache.loadRegionFromPd ret with
    | ok r =>
      rw [hl] at hw
      exact meets_bind.mpr (meets_modifyState.mpr (meets_pure.mpr hw))
    | error e =>
      rw [hl] at hw
      exact meets_pure.mpr hw

/-- A call that returns has done what `RegionCache.locateKey` does with what the PD client has
returned to it; one that stops has left the cache alone. -/
theorem locateKey_cache :
    Meets (locateKey key cacheHit t now insertedAt)
      (fun r w => ∃ ret, (r, w.state.cache) = s.cache.locateKey key cacheHit t now ret insertedAt)
      (fun _ w => w.state.cache = s.cache) { state := s, inputs := env } := by
  have hsame := s.cache.searchCache_snd key t now
  refine locateKey_meets (fun r hr => ?_) fun hnone => Meets.intro (fun ret w => ?_) fun e w => rfl
  · refine ⟨.error outOfDate, ?_⟩
    have hfound : s.cache.searchCache key t now = (some r, s.cache) := Prod.ext hr hsame
    simp only [RegionCache.locateKey, hfound]
  · have hmiss : s.cache.searchCache key t now = (none, s.cache) := Prod.ext hnone hsame
    cases hl : RegionCache.loadRegionFromPd ret with
    | ok r =>
      refine ⟨ret, ?_⟩
      simp only [RegionCache.locateKey, hmiss, hl]
    | error e =>
      refine ⟨ret, ?_⟩
      simp only [RegionCache.locateKey, hmiss, hl]

end

end Node

/-! ### What PD is asked -/

/-- An outcome of `GetRegion` that the loader makes no region of. -/
def Refuses : Except Error Pdpb.GetRegionResponse → Prop
  | .error _ => True
  | .ok resp => resp.region.peers = []

/-- Of the outcomes that `get_region` meets, one after an error, the last one is refused. -/
def RefusedBy : List (Except Error Pdpb.GetRegionResponse) → Prop
  | .error _ :: outcome :: _ => Refuses outcome
  | .ok resp :: _ => Refuses (.ok resp)
  | _ => False

theorem refuses_iff {outcome : Except Error Pdpb.GetRegionResponse} :
    Refuses outcome ↔ ∃ err, loadRegionFromPd (getRegionInner outcome) = .error err := by
  cases outcome with
  | error err => exact iff_of_true trivial ⟨err, rfl⟩
  | ok resp =>
    have hpeers : (parseGetRegionResult resp).1.peers.length = 0 ↔ resp.region.peers = [] := by
      simp [parseGetRegionResult, Region.switchLeaderByPeerId]
    simp only [Refuses, loadRegionFromPd, acceptRegion, getRegionInner, Except.map, hpeers]
    split_ifs <;> simp_all

/-- A query that returns has been sent, and has used the next outcome. -/
theorem askRegion_next (key : Str) (stub : Option Stub) (w : ClientSession) :
    Meets (askRegion key stub) (fun ret w' => w'.log.any isRequest = true ∧
      ∃ outcome, w.inputs.regions = outcome :: w'.inputs.regions ∧ ret = getRegionInner outcome)
      (fun _ _ => True) w := by
  unfold askRegion
  rw [meets_bind]
  refine query_meets (fun _ => trivial) (fun _ _ _ => trivial) ?_
  intro s inputs outcome _ hnext
  obtain ⟨rest, hregions, rfl⟩ := Environment.pop_eq_some hnext
  exact meets_pure.mpr ⟨by simp [isRequest], outcome, hregions, rfl⟩

/-- A `get_region` that returns has asked PD, and returns what its last outcome says. -/
theorem getRegion_asked (key : Str) (w : ClientSession) :
    Meets (PDClient.getRegion key) (fun ret w' => w'.log.any isRequest = true ∧
      ((∃ err, loadRegionFromPd ret = .error err) ↔ RefusedBy w.inputs.regions)) (fun _ _ => True) w := by
  have hregions : ∀ {w w' : ClientSession}, w'.inputs.queries = w.inputs.queries →
      w'.inputs.regions = w.inputs.regions := fun h => congrArg Prod.fst h
  unfold PDClient.getRegion withRetry queryTwice
  refine meets_bind.mpr ((getLeaderStub_queries false).mono (fun stub w₁ hw₁ => meets_bind.mpr ?_) fun _ _ => id)
  refine (askRegion_next key stub w₁).mono (fun r w₂ hw₂ => ?_) fun _ _ => id
  obtain ⟨hasked, outcome, hfirst, rfl⟩ := hw₂
  rw [hregions hw₁] at hfirst
  cases outcome with
  | ok resp =>
    have hok : Refuses (.ok resp) ↔ _ := refuses_iff
    refine meets_pure.mpr ⟨hasked, ?_⟩
    rw [hfirst]
    exact hok.symm
  | error err =>
    refine meets_bind.mpr ((getLeaderStub_queries true).mono (fun stub' w₃ hw₃ => ?_) fun _ _ => id)
    refine (askRegion_next key stub' w₃).mono (fun r' w₄ hw₄ => ?_) fun _ _ => id
    obtain ⟨hasked', outcome', hsecond, rfl⟩ := hw₄
    rw [hregions hw₃] at hsecond
    rw [hfirst, hsecond]
    exact ⟨hasked', refuses_iff.symm⟩

/-! ### Returns -/

/-- What a return of `locate_key` is to say and to leave: `cache_hit` is set exactly if there
is a result for which PD was not asked, and without a result all is as before. -/
structure Truthful (res : Except Error KeyLoc) (cacheHit asked : Bool) (kept : Prop) : Prop where
  hit : cacheHit = true ↔ res.isOk = true ∧ asked = false
  kept : res.isOk = false → kept

section

variable {loc : KeyLoc} {err : Error} {cacheHit : Bool} {kept : Prop}

theorem truthful_hit : Truthful (.ok loc) true false kept :=
  ⟨by simp, by simp⟩

theorem truthful_load : Truthful (.ok loc) false true kept :=
  ⟨by simp, by simp⟩

/-- A failed call is reported as it should if the variable happens to be clear. -/
theorem truthful_error_iff (hkept : kept) : Truthful (.error err) cacheHit true kept ↔ cacheHit = false := by
  constructor
  · intro h
    have := h.hit
    simpa using this
  · rintro rfl
    exact ⟨by simp, fun _ => hkept⟩

end

/-- A miss that PD does not make good: its client is left with an error, or a region without
peers. -/
def Node.Refused (s : Node) (env : PDClient.Environment) (key : Str) (t now : Time) : Prop :=
  (s.cache.searchCache key t now).1 = none ∧ RefusedBy env.regions

/-- A call with its PD client reports as it should unless it is refused while the caller's
variable is set. -/
theorem Node.locateKey_truthful (s : Node) (env : PDClient.Environment) (key : Str) (cacheHit : Bool)
    (t now insertedAt : Time) :
    Meets (Node.locateKey key cacheHit t now insertedAt)
      (fun r w => (Truthful r.1 r.2 (w.log.any isRequest) (w.state.cache = s.cache) ↔
        (cacheHit = true → ¬ s.Refused env key t now)) ∧ (r.1.isOk = false → w.state.cache = s.cache))
      (fun _ _ => True) { state := s, inputs := env } := by
  refine Node.locateKey_meets (fun r hr => ?_) fun hnone => ?_
  · refine ⟨iff_of_true truthful_hit fun _ hrefused => ?_, by simp⟩
    exact absurd (hr.symm.trans hrefused.1) (Option.some_ne_none r)
  · refine (getRegion_asked key _).mono (fun ret w hw => ?_) fun _ _ _ => trivial
    obtain ⟨hasked, hret⟩ := hw
    have hrefused : s.Refused env key t now ↔ ∃ err, RegionCache.loadRegionFromPd ret = .error err :=
      (and_iff_right hnone).trans hret.symm
    cases hl : RegionCache.loadRegionFromPd ret with
    | ok r =>
      show (Truthful _ _ (w.log.any isRequest) _ ↔ _) ∧ _
      rw [hasked, hrefused, hl]
      exact ⟨iff_of_true truthful_load (by simp), by simp⟩
    | error e =>
      show (Truthful _ _ (w.log.any isRequest) _ ↔ _) ∧ _
      rw [hasked, hrefused, hl]
      refine ⟨(truthful_error_iff rfl).trans ?_, fun _ => rfl⟩
      simp

/-! ### Calls among others -/

section

variable {ι : Type}

def Event.isSearch : Event ι → Bool
  | .search _ _ _ _ => true
  | _ => false

/-- The step in which a load asks PD. -/
def Event.asksPd : Event ι → Bool
  | .request _ _ _ => true
  | _ => false

/-- The loader refuses what PD has answered. -/
def Event.Refused : Event ι → Prop
  | .request _ _ answer => Refuses answer
  | _ => False

variable [DecidableEq ι]

/-- The steps of client `i` since it has last searched the cache, the search included. -/
def ownSteps (i : ι) (tr : List (Event ι)) : List (Event ι) :=
  tr.foldl (fun own e => if e.client = i then if e.isSearch then [e] else own ++ [e] else own) []

theorem ownSteps_snoc (i : ι) (tr : List (Event ι)) (e : Event ι) :
    ownSteps i (tr ++ [e]) =
      if e.client = i then if e.isSearch then [e] else ownSteps i tr ++ [e] else ownSteps i tr := by
  simp [ownSteps]

/-- What a client has done of the `locate_key` it is in. -/
def LocatesBy (own : List (Event ι)) (i : ι) : Phase → Prop
  | .missed key => ∃ t now, own = [.search i key t now]
  | .loaded key _ => ∃ t now answer, own = [.search i key t now, .request i key answer]
  | _ => True

theorem locatesBy {tr : List (Event ι)} {s : Sys ι} (h : run step (Sys.init ι) tr = some s) (i : ι) :
    LocatesBy (ownSteps i tr) i (s.phase i) := by
  refine run_induction (P := fun tr s => LocatesBy (ownSteps i tr) i (s.phase i)) ?_ ?_ h
  · trivial
  intro tr s e s' _ ih he
  rw [ownSteps_snoc]
  rcases (step_cases he).enters i with ⟨hne, hphase⟩ | ⟨hi, henters⟩
  · rw [hphase, if_neg hne]
    exact ih
  rw [if_pos hi]
  cases hp : s'.phase i with
  | missed key =>
    rw [hp] at henters
    obtain ⟨t, now, rfl, _⟩ := henters
    exact ⟨t, now, rfl⟩
  | loaded key r =>
    rw [hp] at henters
    obtain ⟨answer, rfl, _⟩ := henters
    cases step_cases he with
    | requestOk hmissed _ =>
      rw [hmissed] at ih
      obtain ⟨t, now, hown⟩ := ih
      rw [hown]
      exact ⟨t, now, answer, rfl⟩
    | requestErr hmissed _ =>
      rw [Sys.goto_phase_self] at hp
      contradiction
  | _ => trivial

/-- The steps with which `locate_key` returns. -/
theorem Step.returned {s s' : Sys ι} {e : Event ι} (h : Step s e s') {key : Str} {res : Except Error KeyLoc}
    {hit : Option Bool} (hr : s'.phase e.client = .idle (some (.locateKey key res hit))) :
    (∃ i t now loc, e = .search i key t now ∧ res = .ok loc ∧ hit = some true) ∨
      (∃ i answer err, e = .request i key answer ∧ s.phase i = .missed key ∧
        loadRegionFromPd (getRegionInner answer) = .error err ∧ res = .error err ∧ hit = none) ∨
      ∃ i r now, e = .insert i r now ∧ s.phase i = .loaded key r ∧ res = .ok r.keyLoc ∧ hit = some false := by
  cases h with
  | searchHit hp found =>
    rw [Event.client, Sys.goto_phase_self] at hr
    cases hr
    exact .inl ⟨_, _, _, _, rfl, rfl, rfl⟩
  | requestErr hp refused =>
    rw [Event.client, Sys.goto_phase_self] at hr
    cases hr
    exact .inr (.inl ⟨_, _, _, rfl, hp, refused, rfl, rfl⟩)
  | insert hp =>
    rw [Event.client, Sys.goto_phase_self] at hr
    cases hr
    exact .inr (.inr ⟨_, _, _, rfl, hp, rfl, rfl⟩)
  | findHit | requestStoreErr | writeStore =>
    rw [Event.client, Sys.goto_phase_self] at hr
    rcases Caller.resume_eq _ _ _ with ⟨ret, hret, hne⟩ | ⟨v, hret⟩
    · rw [hret] at hr
      exact absurd (Option.some.inj (Phase.idle.inj hr)) (hne _ _ _)
    · rw [hret] at hr
      contradiction
  | _ =>
    rw [Event.client, Sys.goto_phase_self] at hr
    cases hr

/-- A call among those of other clients reports as it should, unless its answer is refused
while the caller's variable is set; where it fails none of its steps changes the cache. -/
theorem locateKey_truthful {tr : List (Event ι)} {e : Event ι} {s : Sys ι} {key : Str}
    {res : Except Error KeyLoc} {hit : Option Bool} (h : run step (Sys.init ι) (tr ++ [e]) = some s)
    (hr : s.phase e.client = .idle (some (.locateKey key res hit))) (cacheHit : Bool) :
    (Truthful res (hit.getD cacheHit) ((ownSteps e.client (tr ++ [e])).any Event.asksPd)
        (∀ x ∈ ownSteps e.client (tr ++ [e]), ∀ rc, x.commit rc = rc) ↔ (cacheHit = true → ¬ e.Refused)) ∧
      (res.isOk = false → ∀ x ∈ ownSteps e.client (tr ++ [e]), ∀ rc, x.commit rc = rc) := by
  obtain ⟨m, hm, he⟩ := run_snoc_eq_some.mp h
  rcases (step_cases he).returned hr with ⟨i, t, now, loc, rfl, rfl, rfl⟩ | ⟨i, answer, err, rfl, hp, hrefused, rfl, rfl⟩ |
    ⟨i, r, now, rfl, hp, rfl, rfl⟩
  · have hown : ownSteps i (tr ++ [.search i key t now]) = [.search i key t now] := by
      simp [ownSteps_snoc, Event.client, Event.isSearch]
    rw [Event.client, hown]
    exact ⟨iff_of_true truthful_hit fun _ => id, by simp⟩
  · have hdone := locatesBy hm i
    rw [hp] at hdone
    obtain ⟨t, now, hsearch⟩ := hdone
    have hown : ownSteps i (tr ++ [.request i key answer]) = [.search i key t now, .request i key answer] := by
      simp [ownSteps_snoc, Event.client, Event.isSearch, hsearch]
    have hkept : ∀ x ∈ ([.search i key t now, .request i key answer] : List (Event ι)), ∀ rc, x.commit rc = rc := by
      simp [Event.commit]
    have hcond : (cacheHit = true → ¬ Event.Refused (.request i key answer)) ↔ cacheHit = false := by
      have : Event.Refused (.request i key answer) := refuses_iff.mpr ⟨err, hrefused⟩
      simp [this]
    rw [Event.client, hown, hcond]
    exact ⟨truthful_error_iff hkept, fun _ => hkept⟩
  · have hdone := locatesBy hm i
    rw [hp] at hdone
    obtain ⟨t, now', answer, hsteps⟩ := hdone
    have hown : ownSteps i (tr ++ [.insert i r now]) =
        [.search i key t now', .request i key answer, .insert i r now] := by
      simp [ownSteps_snoc, Event.client, Event.isSearch, hsteps]
    rw [Event.client, hown]
    exact ⟨iff_of_true truthful_load fun _ => id, by simp⟩

/-- Whatever the state, the outcomes of the RPCs and the other clients: `locate_key` reports as
it should unless it is refused while the caller's variable is set, and it changes nothing
where it fails. -/
theorem cacheHit_truthful_iff :
    (∀ (s : Node) (env : PDClient.Environment) (key : Str) (cacheHit : Bool) (t now insertedAt : Time)
        (res : Except Error KeyLoc) (hit : Bool) (w : Session Node PDClient.Environment PDClient.Event),
      Node.locateKey key cacheHit t now insertedAt { state := s, inputs := env } = .ok (res, hit) w →
        (Truthful res hit (w.log.any isRequest) (w.state.cache = s.cache) ↔
          (cacheHit = true → ¬ s.Refused env key t now)) ∧ (res.isOk = false → w.state.cache = s.cache)) ∧
      ∀ (tr : List (Event ι)) (e : Event ι) (s : Sys ι) (key : Str) (res : Except Error KeyLoc)
        (hit : Option Bool) (cacheHit : Bool), run step (Sys.init ι) (tr ++ [e]) = some s →
        s.phase e.client = .idle (some (.locateKey key res hit)) →
        (Truthful res (hit.getD cacheHit) ((ownSteps e.client (tr ++ [e])).any Event.asksPd)
            (∀ x ∈ ownSteps e.client (tr ++ [e]), ∀ rc, x.commit rc = rc) ↔ (cacheHit = true → ¬ e.Refused)) ∧
          (res.isOk = false → ∀ x ∈ ownSteps e.client (tr ++ [e]), ∀ rc, x.commit rc = rc) := by
  constructor
  · intro s env key cacheHit t now insertedAt res hit w hrun
    exact (Node.locateKey_truthful s env key cacheHit t now insertedAt).of_ok hrun
  · intro tr e s key res hit cacheHit h hr
    exact locateKey_truthful h hr cacheHit

end

/-- Both tries of `get_region` fail. -/
def outage : PDClient.Environment where
  picks := [0, 0, 0]
  members := [.ok (ledBy 1 urlB)]
  regions := [.error ⟨"unavailable"⟩, .error ⟨"unavailable"⟩]

/-- The only client of an empty cache asks for a key, and PD answers a region without peers. -/
def locateNothing : List (Event Unit) := [.search () [] 5 5] ++ [.request () [] (.ok {})]

theorem cacheHit_truthful_iff_outage :
    (∃ w, Node.locateKey [] false 5 5 5 { state := ⟨{}, clientOfB⟩, inputs := outage } =
        .ok (.error ⟨"unavailable"⟩, false) w ∧
      Truthful (.error ⟨"unavailable"⟩) false (w.log.any isRequest) (w.state.cache = {})) ∧
    ∃ s, run step (Sys.init Unit) locateNothing = some s ∧
      s.phase () = .idle (some (.locateKey [] (.error ⟨"this region has no peers"⟩) none)) ∧
      Truthful (.error ⟨"this region has no peers"⟩) false ((ownSteps () locateNothing).any Event.asksPd)
        (∀ x ∈ ownSteps () locateNothing, ∀ rc, x.commit rc = rc) := by
  constructor
  · refine ⟨_, rfl, ?_⟩
    exact ((cacheHit_truthful_iff (ι := Unit)).1 ⟨{}, clientOfB⟩ outage [] false 5 5 5 _ _ _ rfl).1.mpr (by simp)
  · refine ⟨_, rfl, rfl, ?_⟩
    exact ((cacheHit_truthful_iff (ι := Unit)).2 [.search () [] 5 5] (.request () [] (.ok {})) _ [] _ none false
      rfl rfl).1.mpr (by simp)

/-- The failure is reported as a hit. -/
theorem locateKey_reports_hit :
    ∃ w, Node.locateKey [] true 5 5 5 { state := ⟨{}, clientOfB⟩, inputs := outage } =
        .ok (.error ⟨"unavailable"⟩, true) w ∧
      ¬ Truthful (.error ⟨"unavailable"⟩) true (w.log.any isRequest) (w.state.cache = {}) := by
  refine ⟨_, rfl, fun h => ?_⟩
  exact absurd (h.hit.mp rfl).1 (by simp)

end TikvCpp.RegionCache
