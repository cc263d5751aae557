import TikvCpp.RegionCache.CacheHits
import TikvCpp.RegionCache.Dump
import TikvCpp.PDClient.Replay

/-! A region cache over its PD client, as one thread runs them: each call down to the answers
of PD, the clock and the random generator. A thread gives `region_lock_` back before a call
returns, but not every shared hold of `store_lock_`. What its calls do to the cache, one of
the clients does, and what they do to the PD client, calls of the PD client do. -/

namespace TikvCpp.RegionCache

open Data Transition Transition.Program PDClient

/-- The thread's cache and PD client, and the shared holds of `store_lock_` that it has. -/
structure Process where
  node : Node
  storeShared : ℕ := 0

abbrev ProcessM := Program Process PDClient.Environment PDClient.Event

namespace Process

def onPd {α : Type} (p : PDClient.ClientM α) : ProcessM α :=
  zoom (fun s : Process => s.node.pd) (fun pd s => { s with node := { s.node with pd := pd } }) p

def onNode {α : Type} (p : NodeM α) : ProcessM α := zoom Process.node (fun node s => { s with node := node }) p

def modifyCache (f : RegionCache → RegionCache) : ProcessM Unit :=
  modifyState fun s => { s with node := { s.node with cache := f s.node.cache } }

/-- `store_lock_.lock_shared()` -/
def lockShared : ProcessM Unit := modifyState fun s => { s with storeShared := s.storeShared + 1 }

/-- `store_lock_.unlock_shared()` -/
def unlockShared : ProcessM Unit := modifyState fun s => { s with storeShared := s.storeShared - 1 }

/-- A `boost::unique_lock` on `store_lock_`, for which a thread with a shared hold waits for ever. -/
def lockUnique : ProcessM Unit := do
  let s ← state
  if s.storeShared = 0 then return () else stop .waiting

/-! ### The functions -/

def locateKey (key : Str) (cacheHit : Bool) (t now insertedAt : Time) : ProcessM (Except Error KeyLoc × Bool) :=
  onNode (Node.locateKey key cacheHit t now insertedAt)

def reloadStoreAddr (storeId : UInt64) : ProcessM (Except Error Str) := do
  let ret ← onPd (PDClient.getStoreById storeId)
  match ret with
  | .ok store =>
    lockUnique
    modifyCache fun rc => { rc with stores := rc.stores.insert storeId store }
    return .ok store.addr
  | .error e => return .error e

/-- `get_store_addr`, which keeps its hold where the store is not there. -/
def getStoreAddr (storeId : UInt64) : ProcessM (Except Error Str) := do
  lockShared
  let s ← state
  match s.node.cache.stores[storeId]? with
  | some it =>
    unlockShared
    return .ok it.addr
  | none => reloadStoreAddr storeId

def dropRegion (verId : RegionVerID) : ProcessM Unit := modifyCache fun rc => rc.dropRegionFromCache verId

def getRpcContext (verId : RegionVerID) (t now : Time) : ProcessM (Except Error RpcContext) := do
  let s ← state
  let r := s.node.cache.getCachedRegion verId t now
  modifyCache fun _ => r.2
  match r.1 with
  | none => return .error outOfDate
  | some ri =>
    let ret ← getStoreAddr ri.leader.storeId
    match ret with
    | .ok addr =>
      if addr.length = 0 then
        dropRegion verId
        return .error outOfDate
      else return .ok (rpcContextOf ri addr)
    | .error e => return .error e

def updateRegionLeader (verId : RegionVerID) (leaderStoreId : UInt16) (t now : Time) : ProcessM Unit :=
  modifyCache fun rc => rc.updateRegionLeader verId leaderStoreId t now

def dumpCache : ProcessM (List DumpLine) := do
  let s ← state
  let dump := s.node.cache.dumpCache
  modifyCache fun _ => dump.2
  return dump.1

/-! ### Runs -/

inductive Call
  | locateKey (key : Str) (cacheHit : Bool) (t now insertedAt : Time)
  | getRpcContext (verId : RegionVerID) (t now : Time)
  | getStoreAddr (storeId : UInt64)
  | reloadStoreAddr (storeId : UInt64)
  | dropRegion (verId : RegionVerID)
  | updateRegionLeader (verId : RegionVerID) (leaderStoreId : UInt16) (t now : Time)
  | dumpCache

/-- A call, and what it gives back; `locate_key` has written `cache_hit` only where it succeeds. -/
def Call.exec : Call → ProcessM Return
  | .locateKey key cacheHit t now insertedAt => do
    let r ← Process.locateKey key cacheHit t now insertedAt
    return .locateKey key r.1 (if r.1.isOk then some r.2 else none)
  | .getRpcContext verId t now => return .getRpcContext verId (← Process.getRpcContext verId t now)
  | .getStoreAddr storeId => return .getStoreAddr storeId (← Process.getStoreAddr storeId)
  | .reloadStoreAddr storeId => return .getStoreAddr storeId (← Process.reloadStoreAddr storeId)
  | .dropRegion verId => do
    Process.dropRegion verId
    return .void
  | .updateRegionLeader verId leaderStoreId t now => do
    Process.updateRegionLeader verId leaderStoreId t now
    return .void
  | .dumpCache => do
    let _ ← Process.dumpCache
    return .void

/-- An empty cache over a PD client. -/
def init (pd : PDClient) : Process := { node := { cache := {}, pd := pd } }

def perform (p : Process) (a : Call × Environment) :
    EStateM.Result Stop (Session Process Environment PDClient.Event) Return :=
  a.1.exec { state := p, inputs := a.2 }

/-- The thread after a call that returns. -/
def step (p : Process) (a : Call × Environment) : Option Process :=
  match p.perform a with
  | .ok _ w => some w.state
  | .error _ _ => none

/-! ### What the PD client does for a call -/

/-- A call of the PD client took it there, with what the call did on record, or there was no such call. -/
def Drives (c : PDClient) (env : Environment) (c' : PDClient) (log : List PDClient.Event) : Prop :=
  (c' = c ∧ log = []) ∨ ∃ call, c' = (c.final (call, env)).state ∧ log = c.record (call, env)

/-- The same of a call that returns. -/
def Drove (c : PDClient) (env : Environment) (c' : PDClient) (log : List PDClient.Event) : Prop :=
  (c' = c ∧ log = []) ∨ ∃ call, c.step (call, env) = some c' ∧ log = c.record (call, env)

section

variable {c : PDClient} {env : Environment} {β ρ : Type} {answers : Environment → List (Except Error ρ)}
  {f : Except Error ρ → Except Error β}

/-- A query that returns has taken the next of these answers, and returns what `f` makes of it. -/
def Answers (answers : Environment → List (Except Error ρ)) (f : Except Error ρ → Except Error β)
    (inner : Option Stub → PDClient.ClientM (Except Error β)) : Prop :=
  ∀ stub (w : PDClient.ClientSession), Meets (inner stub) (fun r w' => ∃ outcome,
    answers w.inputs = outcome :: answers w'.inputs ∧ f outcome = r) (fun _ _ => True) w

/-- With its retry, it returns what `f` makes of one of them. -/
theorem withRetry_answers {inner : Option Stub → PDClient.ClientM (Except Error β)} (h : Answers answers f inner)
    (hkeeps : ∀ env env' : Environment, env'.queries = env.queries → answers env' = answers env) (force : Bool)
    (w : PDClient.ClientSession) :
    Meets (PDClient.withRetry force inner) (fun r _ => ∃ outcome ∈ answers w.inputs, f outcome = r)
      (fun _ _ => True) w := by
  unfold PDClient.withRetry queryTwice
  refine meets_bind.mpr ((getLeaderStub_queries false).mono (fun stub w₁ hw₁ => meets_bind.mpr ?_) fun _ _ => id)
  refine (h stub w₁).mono (fun r w₂ hw₂ => ?_) fun _ _ => id
  obtain ⟨outcome, hfirst, hr⟩ := hw₂
  rw [hkeeps _ _ hw₁] at hfirst
  cases r with
  | ok b =>
    rw [hfirst]
    exact meets_pure.mpr ⟨outcome, List.mem_cons_self, hr⟩
  | error err =>
    refine meets_bind.mpr ((getLeaderStub_queries force).mono (fun stub' w₃ hw₃ => ?_) fun _ _ => id)
    refine (h stub' w₃).mono (fun r' w₄ hw₄ => ?_) fun _ _ => id
    obtain ⟨outcome', hsecond, hr'⟩ := hw₄
    rw [hkeeps _ _ hw₃] at hsecond
    rw [hfirst, hsecond]
    exact ⟨outcome', List.mem_cons_of_mem _ List.mem_cons_self, hr'⟩

theorem askStoreById_answers (storeId : UInt64) : Answers Environment.stores getStoreByIdInner (askStoreById storeId) := by
  intro stub w
  unfold askStoreById
  rw [meets_bind]
  refine query_meets (fun _ => trivial) (fun _ _ _ => trivial) ?_
  intro s inputs outcome _ hnext
  obtain ⟨rest, hstores, rfl⟩ := Environment.pop_eq_some hnext
  exact meets_pure.mpr ⟨outcome, hstores, rfl⟩

theorem askRegion_answers (key : Str) : Answers Environment.regions getRegionInner (askRegion key) := by
  intro stub w
  refine (askRegion_next key stub w).mono (fun r w' hw' => ?_) fun _ _ => id
  obtain ⟨-, outcome, hregions, rfl⟩ := hw'
  exact ⟨outcome, hregions, rfl⟩

/-- A query of the PD client returns one of its outcomes, converted. -/
theorem withRetry_drives {inner : Option Stub → PDClient.ClientM (Except Error β)} (h : Answers answers f inner)
    (hkeeps : ∀ env env' : Environment, env'.queries = env.queries → answers env' = answers env) {force : Bool}
    (call : PDClient.Call) {g : Except Error β → PDClient.Return}
    (hcall : call.exec = PDClient.withRetry force inner >>= fun r => pure (g r)) :
    Meets (PDClient.withRetry force inner)
      (fun ret w => (∃ answer ∈ answers env, f answer = ret) ∧ Drove c env w.state w.log)
      (fun _ w => Drives c env w.state w.log) { state := c, inputs := env } := by
  have hbind (w : PDClient.ClientSession) :
      call.exec w = EStateM.bind (PDClient.withRetry force inner) (fun r => pure (g r)) w := congrFun hcall w
  refine Meets.mono (Meets.and_run (withRetry_answers h hkeeps force _)) (fun ret w hw => ?_) fun e w hw => ?_
  · have hrun : c.perform call env = .ok (g ret) w := by
      rw [PDClient.perform, hbind, EStateM.bind, hw.2]
      rfl
    refine ⟨hw.1, .inr ⟨call, ?_, ?_⟩⟩
    · rw [PDClient.step, hrun]
    · rw [PDClient.record, PDClient.final, hrun]
  · have hrun : c.perform call env = .error e w := by
      rw [PDClient.perform, hbind, EStateM.bind, hw.2]
    refine .inr ⟨call, ?_, ?_⟩
    · rw [PDClient.final, hrun]
    · rw [PDClient.record, PDClient.final, hrun]

theorem getRegion_drives (key : Str) :
    Meets (PDClient.getRegion key)
      (fun ret w => (∃ answer ∈ env.regions, getRegionInner answer = ret) ∧ Drove c env w.state w.log)
      (fun _ w => Drives c env w.state w.log) { state := c, inputs := env } :=
  withRetry_drives (askRegion_answers key) (fun _ _ h => congrArg Prod.fst h) (.getRegion key) rfl

theorem getStoreById_drives (storeId : UInt64) :
    Meets (PDClient.getStoreById storeId)
      (fun ret w => (∃ answer ∈ env.stores, getStoreByIdInner answer = ret) ∧ Drove c env w.state w.log)
      (fun _ w => Drives c env w.state w.log) { state := c, inputs := env } :=
  withRetry_drives (askStoreById_answers storeId) (fun _ _ h => congrArg (fun q => q.2.1) h) (.getStoreById storeId) rfl

theorem Drove.drives {c' : PDClient} {log : List PDClient.Event} (h : Drove c env c' log) : Drives c env c' log := by
  rcases h with h | ⟨call, hstep, hlog⟩
  · exact .inl h
  · exact .inr ⟨call, step_eq_final hstep, hlog⟩

end

/-! ### The steps of a client -/

/-- The answer in a step is one that the environment of the call has, and a key is that of the call. -/
def Supplied (a : Call × Environment) : Event Unit → Prop
  | .request _ key answer =>
    answer ∈ a.2.regions ∧ ∃ cacheHit t now insertedAt, a.1 = .locateKey key cacheHit t now insertedAt
  | .requestStore _ _ answer => answer ∈ a.2.stores
  | _ => True

/-- A client has steps from `s` to there, with answers of the call. -/
def Steps (a : Call × Environment) (s : Sys Unit) (cache : RegionCache) (ph : Phase) : Prop :=
  ∃ tr, (∀ e ∈ tr, Supplied a e) ∧ run RegionCache.step s tr = some (s.goto () cache ph)

section

variable {a : Call × Environment} {s : Sys Unit} {p : Process}

theorem Steps.single {cache : RegionCache} {ph : Phase} {e : Event Unit} (he : Supplied a e)
    (h : RegionCache.step s e = some (s.goto () cache ph)) : Steps a s cache ph := by
  refine ⟨[e], List.forall_mem_singleton.mpr he, ?_⟩
  rw [run_cons, h]
  rfl

theorem Steps.trans {cache cache' : RegionCache} {ph ph' : Phase} (h : Steps a s cache ph)
    (h' : Steps a (s.goto () cache ph) cache' ph') : Steps a s cache' ph' := by
  obtain ⟨tr, hsupplied, hrun⟩ := h
  obtain ⟨tr', hsupplied', hrun'⟩ := h'
  rw [Sys.goto_goto] at hrun'
  exact ⟨tr ++ tr', List.forall_mem_append.mpr ⟨hsupplied, hsupplied'⟩, run_append_eq_some.mpr ⟨_, hrun, hrun'⟩⟩

/-- What a part of a call leaves that ends with its client in phase `ph`. -/
def Leaves (a : Call × Environment) (s : Sys Unit) (p : Process) (ph : Phase)
    (w : Session Process Environment PDClient.Event) : Prop :=
  Steps a s w.state.node.cache ph ∧ Drove p.node.pd a.2 w.state.node.pd w.log

/-- What a call leaves that stops. -/
def Stops (a : Call × Environment) (p : Process) (w : Session Process Environment PDClient.Event) : Prop :=
  w.state.node.cache = p.node.cache ∧ Drives p.node.pd a.2 w.state.node.pd w.log

theorem reloadStoreAddr_meets (hs : s.cache = p.node.cache) {storeId : UInt64} {caller : Caller}
    (hp : (s.phase ()).reloader storeId = some caller) :
    Meets (reloadStoreAddr storeId) (fun ret w => Leaves a s p (caller.resume storeId ret) w) (fun _ w => Stops a p w)
      { state := p, inputs := a.2 } := by
  unfold reloadStoreAddr
  refine meets_bind.mpr (meets_zoom.mpr ((getStoreById_drives storeId).mono (fun ret w hw => ?_)
    fun _ w hw => ⟨rfl, hw⟩))
  obtain ⟨⟨answer, hmem, hret⟩, hdrove⟩ := hw
  cases ret with
  | ok store =>
    refine meets_bind.mpr (meets_bind.mpr (meets_state.mpr ?_))
    split_ifs
    · refine meets_pure.mpr (meets_bind.mpr (meets_modifyState.mpr (meets_pure.mpr ⟨?_, hdrove⟩)))
      have hasked : Steps a s s.cache (.fetched storeId store caller) := by
        refine Steps.single (e := .requestStore () storeId answer) hmem ?_
        simp only [RegionCache.step, hp, hret, Option.map_some]
      refine hasked.trans (Steps.single (e := .writeStore () storeId store) trivial ?_)
      simp only [RegionCache.step, Sys.goto_phase_self, Sys.goto_cache, hs, and_self, if_true]
    · exact meets_stop.mpr ⟨rfl, hdrove.drives⟩
  | error e =>
    refine meets_pure.mpr ⟨Steps.single (e := .requestStore () storeId answer) hmem ?_, hdrove⟩
    simp only [RegionCache.step, hp, hret, Option.map_some, hs]

theorem getStoreAddr_meets (hs : s.cache = p.node.cache) {storeId : UInt64} {caller : Caller}
    (hp : (s.phase ()).caller storeId = some caller) :
    Meets (getStoreAddr storeId) (fun ret w => Leaves a s p (caller.resume storeId ret) w) (fun _ w => Stops a p w)
      { state := p, inputs := a.2 } := by
  unfold getStoreAddr
  refine meets_bind.mpr (meets_modifyState.mpr (meets_bind.mpr (meets_state.mpr ?_)))
  cases hst : p.node.cache.stores[storeId]? with
  | some it =>
    dsimp only
    refine meets_bind.mpr (meets_modifyState.mpr (meets_pure.mpr
      ⟨Steps.single (e := .findStore () storeId) trivial ?_, ?_⟩))
    swap
    · exact .inl ⟨rfl, rfl⟩
    simp only [RegionCache.step, hp, hs, hst, Option.map_some]
  | none =>
    dsimp only
    have hmissed : Steps a s s.cache (.reloading storeId caller) := by
      refine Steps.single (e := .findStore () storeId) trivial ?_
      simp only [RegionCache.step, hp, hs, hst, Option.map_some]
    have hp' : ((s.goto () s.cache (.reloading storeId caller)).phase ()).reloader storeId = some caller := by
      rw [Sys.goto_phase_self]
      exact if_pos rfl
    refine (reloadStoreAddr_meets (s := s.goto () s.cache (.reloading storeId caller))
      (p := { p with storeShared := p.storeShared + 1 }) hs hp').mono (fun ret w hw => ?_) fun _ w hw => hw
    exact ⟨hmissed.trans hw.1, hw.2⟩

theorem getRpcContext_meets (hs : s.cache = p.node.cache) {last : Option Return} (hp : s.phase () = .idle last)
    (verId : RegionVerID) (t now : Time) :
    Meets (getRpcContext verId t now) (fun ret w => Leaves a s p (.idle (some (.getRpcContext verId ret))) w)
      (fun _ w => Stops a p w) { state := p, inputs := a.2 } := by
  have hsame := p.node.cache.getCachedRegion_snd verId t now
  unfold getRpcContext
  refine meets_bind.mpr (meets_state.mpr (meets_bind.mpr (meets_modifyState.mpr ?_)))
  rw [hsame]
  cases hread : (p.node.cache.getCachedRegion verId t now).1 with
  | none =>
    have hfound : s.cache.getCachedRegion verId t now = (none, s.cache) := by rw [hs]; exact Prod.ext hread hsame
    refine meets_pure.mpr ⟨Steps.single (e := .readRegion () verId t now) trivial ?_, .inl ⟨rfl, rfl⟩⟩
    simp only [RegionCache.step, hp, hfound, ← hs]
  | some ri =>
    have hfound : s.cache.getCachedRegion verId t now = (some ri, s.cache) := by rw [hs]; exact Prod.ext hread hsame
    have hcopied : Steps a s s.cache (.context verId ri) := by
      refine Steps.single (e := .readRegion () verId t now) trivial ?_
      simp only [RegionCache.step, hp, hfound]
    have hp' : ((s.goto () s.cache (.context verId ri)).phase ()).caller ri.leader.storeId =
        some (.getRpcContext verId ri) := by
      rw [Sys.goto_phase_self]
      exact if_pos rfl
    refine meets_bind.mpr ((getStoreAddr_meets (s := s.goto () s.cache (.context verId ri)) (p := p) hs hp').mono
      (fun ret w hw => ?_) fun _ w hw => hw)
    have hlooked := hcopied.trans hw.1
    cases ret with
    | error e => exact meets_pure.mpr ⟨hlooked, hw.2⟩
    | ok addr =>
      show Meets (if addr.length = 0 then _ else _) _ _ _
      rw [Caller.resume] at hlooked
      split_ifs at hlooked ⊢ with haddr
      · unfold dropRegion modifyCache
        refine meets_bind.mpr (meets_modifyState.mpr (meets_pure.mpr ⟨?_, hw.2⟩))
        refine hlooked.trans (Steps.single (e := .dropContext () verId) trivial ?_)
        simp only [RegionCache.step, Sys.goto_phase_self, Sys.goto_cache, if_true]
      · exact meets_pure.mpr ⟨hlooked, hw.2⟩

theorem locateKey_meets (hs : s.cache = p.node.cache) {last : Option Return} (hp : s.phase () = .idle last)
    {key : Str} {cacheHit : Bool} {t now insertedAt : Time} (ha : a.1 = .locateKey key cacheHit t now insertedAt) :
    Meets (locateKey key cacheHit t now insertedAt)
      (fun r w => Leaves a s p (.idle (some (.locateKey key r.1 (if r.1.isOk then some r.2 else none)))) w)
      (fun _ w => Stops a p w) { state := p, inputs := a.2 } := by
  have hsame := p.node.cache.searchCache_snd key t now
  unfold locateKey onNode
  refine meets_zoom.mpr (Node.locateKey_meets (fun r hr => ?_) fun hnone => ?_)
  · have hfound : s.cache.searchCache key t now = (some r, s.cache) := by rw [hs]; exact Prod.ext hr hsame
    refine ⟨Steps.single (e := .search () key t now) trivial ?_, .inl ⟨rfl, rfl⟩⟩
    simp only [RegionCache.step, hp, hfound, ← hs, Except.isOk, Except.toBool, if_true]
  · have hmiss : s.cache.searchCache key t now = (none, s.cache) := by rw [hs]; exact Prod.ext hnone hsame
    have hmissed : Steps a s s.cache (.missed key) := by
      refine Steps.single (e := .search () key t now) trivial ?_
      simp only [RegionCache.step, hp, hmiss]
    refine (getRegion_drives key).mono (fun ret w hw => ?_) fun _ w hw => ⟨rfl, hw⟩
    obtain ⟨⟨answer, hmem, rfl⟩, hdrove⟩ := hw
    have hsupplied : Supplied a (.request () key answer) := ⟨hmem, cacheHit, t, now, insertedAt, ha⟩
    cases hload : RegionCache.loadRegionFromPd (getRegionInner answer) with
    | ok r =>
      have hasked : Steps a (s.goto () s.cache (.missed key)) s.cache (.loaded key r) := by
        refine Steps.single hsupplied ?_
        simp only [RegionCache.step, Sys.goto_phase_self, Sys.goto_cache, if_true, hload]
      refine ⟨(hmissed.trans hasked).trans (Steps.single (e := .insert () r insertedAt) trivial ?_), hdrove⟩
      · simp only [RegionCache.step, Sys.goto_phase_self, Sys.goto_cache, if_true, ← hs, Except.isOk, Except.toBool]
    | error e =>
      refine ⟨hmissed.trans (Steps.single hsupplied ?_), hdrove⟩
      simp only [RegionCache.step, Sys.goto_phase_self, Sys.goto_cache, if_true, hload, ← hs, Except.isOk, Except.toBool,
        Bool.false_eq_true, if_false]

/-- A call, if it is no dump, leaves what a client of the same call leaves, with answers that the PD
client has got. -/
theorem exec_meets (hs : s.cache = p.node.cache) {last : Option Return} (hp : s.phase () = .idle last)
    (hdump : a.1 ≠ .dumpCache) :
    Meets a.1.exec (fun ret w => Leaves a s p (.idle (some ret)) w) (fun _ w => Stops a p w)
      { state := p, inputs := a.2 } := by
  have hcaller : ∀ storeId, (s.phase ()).caller storeId = some .client := by
    intro storeId
    rw [hp]
    rfl
  have hreloader : ∀ storeId, (s.phase ()).reloader storeId = some .client := by
    intro storeId
    rw [hp]
    rfl
  cases hcall : a.1 with
  | locateKey key cacheHit t now insertedAt =>
    exact meets_bind.mpr ((locateKey_meets hs hp hcall).mono (fun _ _ hw => meets_pure.mpr hw) fun _ _ => id)
  | getRpcContext verId t now =>
    exact meets_bind.mpr ((getRpcContext_meets hs hp verId t now).mono (fun _ _ hw => meets_pure.mpr hw) fun _ _ => id)
  | getStoreAddr storeId =>
    exact meets_bind.mpr ((getStoreAddr_meets hs (hcaller storeId)).mono (fun _ _ hw => meets_pure.mpr hw) fun _ _ => id)
  | reloadStoreAddr storeId =>
    exact meets_bind.mpr
      ((reloadStoreAddr_meets hs (hreloader storeId)).mono (fun _ _ hw => meets_pure.mpr hw) fun _ _ => id)
  | dropRegion verId =>
    unfold Call.exec Process.dropRegion modifyCache
    refine meets_bind.mpr (meets_modifyState.mpr (meets_pure.mpr ⟨?_, .inl ⟨rfl, rfl⟩⟩))
    refine Steps.single (e := .dropRegion () verId) trivial ?_
    simp only [RegionCache.step, hp, hs]
  | updateRegionLeader verId leaderStoreId t now =>
    unfold Call.exec Process.updateRegionLeader modifyCache
    refine meets_bind.mpr (meets_modifyState.mpr (meets_pure.mpr ⟨?_, .inl ⟨rfl, rfl⟩⟩))
    refine Steps.single (e := .updateRegionLeader () verId leaderStoreId t now) trivial ?_
    simp only [RegionCache.step, hp, hs]
  | dumpCache => exact absurd hcall hdump

end

/-- A dump changes nothing where the maps agree. -/
theorem perform_dumpCache {p : Process} (h : Agreement p.node.cache) (env : Environment) :
    p.perform (.dumpCache, env) = .ok .void { state := p, inputs := env } := by
  obtain ⟨lines, hdump, -⟩ := dumpCache_eq h
  show EStateM.Result.ok Return.void _ = _
  rw [hdump]

/-! ### What the thread is told -/

/-- The regions in the outcomes that an environment has, those a call does not come to included. -/
def answered (env : Environment) : List Region :=
  env.regions.filterMap fun
    | .ok resp => some (parseGetRegionResult resp).1
    | .error _ => none

def answeredIn (calls : List (Call × Environment)) : List Region := calls.flatMap fun a => answered a.2

theorem mem_answered {env : Environment} {r : Region} :
    r ∈ answered env ↔ ∃ resp, .ok resp ∈ env.regions ∧ (parseGetRegionResult resp).1 = r := by
  simp only [answered, List.mem_filterMap]
  constructor
  · rintro ⟨outcome, hmem, hr⟩
    cases outcome with
    | ok resp => exact ⟨resp, hmem, Option.some.inj hr⟩
    | error e => contradiction
  · rintro ⟨resp, hmem, rfl⟩
    exact ⟨.ok resp, hmem, rfl⟩

/-- With a dump among the calls, no version comes with two ranges. -/
def Dumpable (calls : List (Call × Environment)) : Prop :=
  (∃ a ∈ calls, a.1 = .dumpCache) → Consistent (answeredIn calls)

theorem consistent_snoc {calls : List (Call × Environment)} {a : Call × Environment}
    (h : Consistent (answeredIn (calls ++ [a]))) : Consistent (answeredIn calls) := by
  have hmem : ∀ r ∈ answeredIn calls, r ∈ answeredIn (calls ++ [a]) := by
    intro r hr
    rw [answeredIn, List.flatMap_append]
    exact List.mem_append_left _ hr
  exact fun r hr r' hr' => h r (hmem r hr) r' (hmem r' hr')

theorem Dumpable.before {calls : List (Call × Environment)} {a : Call × Environment} (h : Dumpable (calls ++ [a])) :
    Dumpable calls := fun ⟨b, hb, hdump⟩ => consistent_snoc (h ⟨b, List.mem_append_left _ hb, hdump⟩)

/-! ### Runs of the thread -/

/-- A run of one client, and one of the PD client, with answers of the calls. -/
structure Follows (pd : PDClient) (calls : List (Call × Environment)) (p : Process) (tr : List (Event Unit)) (s : Sys Unit)
    (pdCalls : List (PDClient.Call × Environment)) : Prop where
  client : run RegionCache.step (Sys.init Unit) tr = some s
  cache : s.cache = p.node.cache
  idle : ∃ last, s.phase () = .idle last
  supplied : ∀ e ∈ tr, ∃ a ∈ calls, Supplied a e
  pd : run PDClient.step pd pdCalls = some p.node.pd
  environments : ∀ b ∈ pdCalls, ∃ a ∈ calls, b.2 = a.2

variable {pd : PDClient} {calls : List (Call × Environment)} {a : Call × Environment} {p : Process}

theorem mem_of_supplied {tr : List (Event Unit)} (h : ∀ e ∈ tr, ∃ a ∈ calls, Supplied a e) {r : Region}
    (hr : r ∈ regionAnswers tr) : r ∈ answeredIn calls := by
  obtain ⟨i, key, resp, hmem, hresp⟩ := mem_regionAnswers.mp hr
  obtain ⟨a, ha, hsupplied⟩ := h _ hmem
  exact List.mem_flatMap.mpr ⟨a, ha, mem_answered.mpr ⟨resp, hsupplied.1, hresp⟩⟩

/-- While no version comes with two ranges, the maps of the client agree, and so do the thread's. -/
theorem Follows.agreement {tr : List (Event Unit)} {s : Sys Unit} {pdCalls : List (PDClient.Call × Environment)}
    (h : Follows pd calls p tr s pdCalls) (hc : Consistent (answeredIn calls)) : Agreement p.node.cache := by
  have hmem : ∀ r ∈ regionAnswers tr, r ∈ answeredIn calls := fun r hr => mem_of_supplied h.supplied hr
  rw [← h.cache]
  exact RegionCache.agreement h.client fun r hr r' hr' => hc r (hmem r hr) r' (hmem r' hr')

theorem leaves_of_ok {s : Sys Unit} (hs : s.cache = p.node.cache) {last : Option Return} (hp : s.phase () = .idle last)
    (hdump : a.1 ≠ .dumpCache) {ret : Return} {w : Session Process Environment PDClient.Event} (h : p.perform a = .ok ret w) :
    Leaves a s p (.idle (some ret)) w := by
  have hexec := exec_meets (a := a) hs hp hdump
  exact hexec.of_ok h

theorem stops_of_error {s : Sys Unit} (hs : s.cache = p.node.cache) {last : Option Return} (hp : s.phase () = .idle last)
    {e : Stop} {w : Session Process Environment PDClient.Event} (h : p.perform a = .error e w) : Stops a p w := by
  have hdump : a.1 ≠ .dumpCache := by
    intro hdump
    rw [perform, hdump] at h
    contradiction
  have hexec := exec_meets (a := a) hs hp hdump
  unfold Meets at hexec
  rw [show a.1.exec { state := p, inputs := a.2 } = _ from h] at hexec
  exact hexec

theorem Follows.step {p' : Process} {tr : List (Event Unit)} {s : Sys Unit} {pdCalls : List (PDClient.Call × Environment)}
    (h : Follows pd calls p tr s pdCalls) (hd : Dumpable (calls ++ [a])) (hstep : step p a = some p') :
    ∃ tr' s' pdCalls', Follows pd (calls ++ [a]) p' tr' s' pdCalls' := by
  obtain ⟨last, hlast⟩ := h.idle
  have hold : ∀ {P : Call × Environment → Prop}, (∃ b ∈ calls, P b) → ∃ b ∈ calls ++ [a], P b :=
    fun ⟨b, hb, hP⟩ => ⟨b, List.mem_append_left _ hb, hP⟩
  by_cases hdump : a.1 = .dumpCache
  · -- a dump of maps that agree, and no step of the client
    have hc := hd ⟨a, List.mem_append_right _ List.mem_cons_self, hdump⟩
    have hsame := perform_dumpCache (h.agreement (consistent_snoc hc)) a.2
    rw [← hdump] at hsame
    rw [Process.step, hsame] at hstep
    obtain rfl := Option.some.inj hstep
    exact ⟨tr, s, pdCalls, { h with
      supplied := fun e he => hold (h.supplied e he)
      environments := fun b hb => hold (h.environments b hb) }⟩
  unfold Process.step at hstep
  cases hrun : p.perform a with
  | error e w =>
    rw [hrun] at hstep
    contradiction
  | ok ret w =>
    rw [hrun] at hstep
    obtain rfl := Option.some.inj hstep
    obtain ⟨⟨tr', hsupplied, htr'⟩, hdrove⟩ := leaves_of_ok h.cache hlast hdump hrun
    have hnew : ∀ {P : Call × Environment → Prop}, P a → ∃ b ∈ calls ++ [a], P b :=
      fun hP => ⟨a, List.mem_append_right _ List.mem_cons_self, hP⟩
    have hclient := run_append_eq_some.mpr ⟨s, h.client, htr'⟩
    have hall : ∀ e ∈ tr ++ tr', ∃ b ∈ calls ++ [a], Supplied b e :=
      List.forall_mem_append.mpr ⟨fun e he => hold (h.supplied e he), fun e he => hnew (hsupplied e he)⟩
    have hidle : ∃ last, (s.goto () w.state.node.cache (.idle (some ret))).phase () = .idle last :=
      ⟨some ret, Sys.goto_phase_self _ _ _ _⟩
    rcases hdrove with ⟨hpd, -⟩ | ⟨call, hpd, -⟩
    · exact ⟨_, _, pdCalls, hclient, rfl, hidle, hall, hpd ▸ h.pd, fun b hb => hold (h.environments b hb)⟩
    · refine ⟨_, _, pdCalls ++ [(call, a.2)], hclient, rfl, hidle, hall, run_snoc_eq_some.mpr ⟨_, h.pd, hpd⟩, ?_⟩
      exact forall_mem_snoc (fun b hb => hold (h.environments b hb)) (hnew rfl)

theorem follows (h : run step (init pd) calls = some p) (hd : Dumpable calls) :
    ∃ tr s pdCalls, Follows pd calls p tr s pdCalls := by
  refine run_induction (P := fun calls p => Dumpable calls → ∃ tr s pdCalls, Follows pd calls p tr s pdCalls) ?_ ?_ h hd
  · intro _
    have hclient : run RegionCache.step (Sys.init Unit) [] = some (Sys.init Unit) := rfl
    exact ⟨[], _, [], hclient, rfl, ⟨none, rfl⟩, by simp, rfl, by simp⟩
  · intro calls m a m' _ ih hstep hd
    obtain ⟨tr, s, pdCalls, hm⟩ := ih hd.before
    exact hm.step hd hstep

/-- Whatever calls a thread has made, one client has made the cache it has, and calls of the PD client
have made its PD client, all with answers of these calls; a dump may be among them as long as no version
comes with two ranges. The next call goes on like this if it returns, leaves the cache as it is if it does
not, and changes nothing if it is such a dump. -/
theorem process_refines (h : run step (init pd) calls = some p) (hd : Dumpable calls) :
    ∃ tr s pdCalls, Follows pd calls p tr s pdCalls ∧
      (∀ a ret w, a.1 ≠ .dumpCache → p.perform a = .ok ret w →
        ∃ tr', run RegionCache.step (Sys.init Unit) (tr ++ tr') =
            some (s.goto () w.state.node.cache (.idle (some ret))) ∧
          (∀ e ∈ tr', Supplied a e) ∧ Drove p.node.pd a.2 w.state.node.pd w.log) ∧
      (∀ a e w, p.perform a = .error e w → Stops a p w) ∧
      (Consistent (answeredIn calls) →
        ∀ env, p.perform (.dumpCache, env) = .ok .void { state := p, inputs := env }) := by
  obtain ⟨tr, s, pdCalls, hfollows⟩ := follows h hd
  obtain ⟨last, hlast⟩ := hfollows.idle
  refine ⟨tr, s, pdCalls, hfollows, fun a ret w hdump hrun => ?_, fun a e w hrun => ?_, fun hc env => ?_⟩
  · obtain ⟨⟨tr', hsupplied, htr'⟩, hdrove⟩ := leaves_of_ok hfollows.cache hlast hdump hrun
    exact ⟨tr', run_append_eq_some.mpr ⟨s, hfollows.client, htr'⟩, hsupplied, hdrove⟩
  · exact stops_of_error hfollows.cache hlast hrun
  · exact perform_dumpCache (hfollows.agreement hc) env

/-- The thread locates a key that PD's region of `a` to `m` has. -/
def load : Call × Environment := (.locateKey [0x62] false 5 5 6, { regions := [.ok answerAM] })

/-- It locates another one. -/
def locate : Call × Environment := (.locateKey [0x64] true 7 7 7, {})

/-- What the first of them leaves. -/
def loaded : Process := { node := { cache := ({} : RegionCache).insertRegionToCache regionAM 6, pd := clientOfB } }

theorem run_load : run step (init clientOfB) [load] = some loaded := rfl

/-- The cache is dumped after that. -/
theorem run_dump : run step (init clientOfB) [load, (.dumpCache, {})] = some loaded := rfl

theorem process_refines_load : ∃ tr s pdCalls, Follows clientOfB [load, (.dumpCache, {})] loaded tr s pdCalls := by
  have hc : Consistent (answeredIn [load, (.dumpCache, {})]) := by decide
  obtain ⟨tr, s, pdCalls, hfollows, -⟩ := process_refines run_dump fun _ => hc
  exact ⟨tr, s, pdCalls, hfollows⟩

/-! ### What the thread returns -/

/-- While no version comes with two ranges, the maps agree and hold what PD has answered. -/
theorem sound (h : run step (init pd) calls = some p) (hc : Consistent (answeredIn calls)) :
    Agreement p.node.cache ∧
      ∀ (e : Str) (R : Region), p.node.cache.sorted[e]? = some R → ∃ r ∈ answeredIn calls, r.keyLoc = R.keyLoc := by
  obtain ⟨tr, s, pdCalls, hfollows⟩ := follows h fun _ => hc
  refine ⟨hfollows.agreement hc, fun e R hR => ?_⟩
  rw [← hfollows.cache] at hR
  obtain ⟨r, hr, hkey⟩ := (sourced hfollows.client).sorted e R hR
  exact ⟨r, mem_of_supplied hfollows.supplied hr, hkey⟩

/-- Where a location comes from: an indexed region that contains the key, or an outcome of the call. -/
theorem locateKey_located {key : Str} {cacheHit : Bool} {t now insertedAt : Time} (hagree : Agreement p.node.cache)
    (env : Environment) :
    Meets (locateKey key cacheHit t now insertedAt)
      (fun r _ => ∀ loc, r.1 = .ok loc →
        (∃ (e : Str) (R : Region), p.node.cache.sorted[e]? = some R ∧ R.contains key = true ∧ R.keyLoc = loc) ∨
          ∃ resp, .ok resp ∈ env.regions ∧ (parseGetRegionResult resp).1.keyLoc = loc)
      (fun _ _ => True) { state := p, inputs := env } := by
  unfold locateKey onNode
  refine meets_zoom.mpr (Node.locateKey_meets (fun r hr loc hloc => ?_) fun _ => ?_)
  · obtain ⟨e, R, hR, hcontains, hkey⟩ := searchCache_sound hagree hr
    exact .inl ⟨e, R, hR, hcontains, hkey.trans (Except.ok.inj hloc)⟩
  · refine (getRegion_drives key).mono (fun ret w hw => ?_) fun _ _ _ => trivial
    obtain ⟨⟨answer, hmem, rfl⟩, -⟩ := hw
    cases hload : RegionCache.loadRegionFromPd (getRegionInner answer) with
    | ok r =>
      intro loc hloc
      obtain ⟨resp, rfl, hkey⟩ := loadRegionFromPd_ok hload
      exact .inr ⟨resp, hmem, hkey.trans (Except.ok.inj hloc)⟩
    | error e => exact fun loc hloc => nomatch hloc

/-- While no version comes with two ranges, a location returned for a key contains it and is that of a
region in PD's answers, if the answers to this call contain the key. -/
theorem perform_locateKey {key : Str} {cacheHit : Bool} {t now insertedAt : Time} {env : Environment}
    (h : run step (init pd) calls = some p) (hc : Consistent (answeredIn calls ++ answered env))
    (hk : ∀ r ∈ answered env, r.contains key = true) {loc : KeyLoc} {hit : Option Bool}
    {w : Session Process Environment PDClient.Event}
    (hret : p.perform (.locateKey key cacheHit t now insertedAt, env) = .ok (.locateKey key (.ok loc) hit) w) :
    loc.contains key = true ∧ ∃ r ∈ answeredIn calls ++ answered env, r.keyLoc = loc := by
  obtain ⟨hagree, hsources⟩ := sound h fun r hr r' hr' =>
    hc r (List.mem_append_left _ hr) r' (List.mem_append_left _ hr')
  have hexec : Meets (Call.exec (.locateKey key cacheHit t now insertedAt))
      (fun ret _ => ∀ loc hit, ret = .locateKey key (.ok loc) hit →
        (∃ (e : Str) (R : Region), p.node.cache.sorted[e]? = some R ∧ R.contains key = true ∧ R.keyLoc = loc) ∨
          ∃ resp, .ok resp ∈ env.regions ∧ (parseGetRegionResult resp).1.keyLoc = loc)
      (fun _ _ => True) { state := p, inputs := env } := by
    refine meets_bind.mpr ((locateKey_located hagree env).mono (fun r w hw => meets_pure.mpr ?_) fun _ _ => id)
    intro loc hit hr
    exact hw loc (Return.locateKey.inj hr).2.1
  rcases hexec.of_ok hret loc hit rfl with ⟨e, R, hR, hcontains, rfl⟩ | ⟨resp, hmem, rfl⟩
  · obtain ⟨r, hr, hkey⟩ := hsources e R hR
    exact ⟨hcontains, r, List.mem_append_left _ hr, hkey⟩
  · have hr : (parseGetRegionResult resp).1 ∈ answered env := mem_answered.mpr ⟨resp, hmem, rfl⟩
    exact ⟨hk _ hr, _, List.mem_append_right _ hr, rfl⟩

theorem perform_locateKey_locate :
    loaded.perform locate = .ok (.locateKey [0x64] (.ok regionAM.keyLoc) (some true)) { state := loaded, inputs := {} } ∧
      regionAM.keyLoc.contains [0x64] = true := by
  have hret : loaded.perform locate =
    .ok (.locateKey [0x64] (.ok regionAM.keyLoc) (some true)) { state := loaded, inputs := {} } := rfl
  exact ⟨hret, (perform_locateKey run_load (by decide) (by decide) hret).1⟩

/-! ### The dump -/

/-- While no version comes with two ranges, a dump prints one line for each cached region, in the order
of their end keys, and changes nothing. -/
theorem dumpCache_prints (h : run step (init pd) calls = some p) (hc : Consistent (answeredIn calls)) (env : Environment) :
    ∃ lines, dumpCache { state := p, inputs := env } = .ok lines { state := p, inputs := env } ∧
      lines.Pairwise (fun line line' => line.endKey < line'.endKey) ∧
      ∀ line, line ∈ lines ↔
        ∃ (v : RegionVerID) (c : CachedRegion), p.node.cache.cachedRegions[v]? = some c ∧ dumpLine c = line := by
  obtain ⟨lines, hdump, hlines⟩ := dumpCache_eq (sound h hc).1
  refine ⟨lines, ?_, hlines⟩
  show EStateM.Result.ok p.node.cache.dumpCache.1 _ = _
  rw [hdump]

theorem dumpCache_prints_load :
    ∃ lines, dumpCache { state := loaded, inputs := {} } = .ok lines { state := loaded, inputs := {} } := by
  obtain ⟨lines, hdump, -⟩ := dumpCache_prints run_load (by decide) {}
  exact ⟨lines, hdump⟩

/-- Two dumps with the same text are of caches with the same ranges and leader stores. -/
theorem dump_determines {pd' : PDClient} {calls' : List (Call × Environment)} {p' : Process}
    (h : run step (init pd) calls = some p) (hc : Consistent (answeredIn calls)) (h' : run step (init pd') calls' = some p')
    (hc' : Consistent (answeredIn calls')) {text : Str} (ht : dumpText p.node.cache.dumpCache.1 = some text)
    (ht' : dumpText p'.node.cache.dumpCache.1 = some text) (line : DumpLine) :
    (∃ (v : RegionVerID) (c : CachedRegion), p.node.cache.cachedRegions[v]? = some c ∧ dumpLine c = line) ↔
      ∃ (v : RegionVerID) (c : CachedRegion), p'.node.cache.cachedRegions[v]? = some c ∧ dumpLine c = line := by
  obtain ⟨lines, hdump, -, hlines⟩ := dumpCache_eq (sound h hc).1
  obtain ⟨lines', hdump', -, hlines'⟩ := dumpCache_eq (sound h' hc').1
  rw [hdump] at ht
  rw [hdump'] at ht'
  obtain rfl := dumpText_inj ht ht'
  exact (hlines line).symm.trans (hlines' line)

theorem dump_determines_load : ∃ text, dumpText loaded.node.cache.dumpCache.1 = some text ∧
    ((∃ (v : RegionVerID) (c : CachedRegion), loaded.node.cache.cachedRegions[v]? = some c ∧
        dumpLine c = ⟨[0x61], [0x6d], 1⟩) ↔
      ∃ (v : RegionVerID) (c : CachedRegion), loaded.node.cache.cachedRegions[v]? = some c ∧
        dumpLine c = ⟨[0x61], [0x6d], 1⟩) := by
  have hsome : (dumpText loaded.node.cache.dumpCache.1).isSome = true := by decide
  have hc : Consistent (answeredIn [load]) := by decide
  obtain ⟨text, htext⟩ := Option.isSome_iff_exists.mp hsome
  exact ⟨text, htext, dump_determines run_load hc run_load hc htext htext _⟩

end Process

end TikvCpp.RegionCache
