import TikvCpp.PDClient.Rules

/-! The record of a client as the only account of its state. Read from the client before a call,
the record of the call gives the client after it, also where the call stops, and a query is always
recorded on the stub that the client then has and under the cluster id that it then has. -/

namespace TikvCpp.PDClient

open Data Transition Transition.Program

/-- The cluster id in the header of a query. -/
def Request.clusterId : Request → UInt64
  | .getRegion clusterId _ | .getRegionById clusterId _ | .getStore clusterId _ | .getAllStores clusterId => clusterId

/-- What an event says of the client, or nothing where it cannot come from this one. -/
def observe (c : PDClient) : Event → Option PDClient
  | .select _ | .status _ | .getMembers _ (.error _) => some c
  | .discard => some c.discarded
  | .getMembers _ (.ok resp) => some (c.answered resp)
  | .connect s =>
    if c.leaderStub = none ∧ ∃ url ∈ c.leader.clientUrls, s = newStub url then some (c.connected s) else none
  | .send s req => if c.leaderStub = some s ∧ req.clusterId = c.clusterId then some c else none

/-- The session is what its record says, read from `c`. -/
def Replays (c : PDClient) (w : ClientSession) : Prop := run observe c w.log = some w.state

section

variable {c : PDClient} {w : ClientSession}

theorem Replays.emit (h : Replays c w) {log : List Event} {s : PDClient} (hlog : run observe w.state log = some s)
    (inputs : Environment) : Replays c { state := s, inputs := inputs, log := w.log ++ log } :=
  run_append_eq_some.mpr ⟨w.state, h, hlog⟩

/-- An answer and a stub for its leader. -/
theorem observe_renewed {s : PDClient} (hs : s.leaderStub = none) (t : Stub) {resp : Pdpb.GetMembersResponse} {url : Str}
    (hurl : url ∈ resp.leader.clientUrls) (n : ℕ) :
    run observe s [.getMembers t (.ok resp), .select n, .connect (newStub url)] =
      some ((s.answered resp).connected (newStub url)) := by
  have hguard : (s.answered resp).leaderStub = none ∧
      ∃ u ∈ (s.answered resp).leader.clientUrls, newStub url = newStub u :=
    ⟨hs, url, hurl, rfl⟩
  show (observe (s.answered resp) (.connect (newStub url))).bind _ = _
  rw [observe, if_pos hguard]
  rfl

theorem updateLeader_replays (s : Stub) (h : Replays c w) :
    Meets (updateLeader s) (fun _ w' => Replays c w' ∧ w'.inputs.members.length < w.inputs.members.length)
      (fun _ w' => Replays c w') w := by
  have hless : ∀ {o : Except Error Pdpb.GetMembersResponse} {inputs : Environment},
      w.inputs.members = o :: inputs.members → inputs.members.length < w.inputs.members.length := by
    intro o inputs heq
    rw [heq]
    exact Nat.lt_succ_self _
  refine updateLeader_meets (fun _ => h) ?_ ?_ ?_ ?_
  · intro err inputs heq
    exact ⟨h.emit rfl inputs, hless heq⟩
  · intro resp inputs heq _
    exact ⟨h.emit rfl inputs, hless heq⟩
  · intro e resp inputs _ _ _
    exact h.emit rfl inputs
  · intro resp inputs url hurl heq hstub
    exact ⟨h.emit (observe_renewed hstub s hurl _) inputs, hless heq⟩

theorem tryMember_replays (h : Replays c w) :
    Meets tryMember (fun _ w' => Replays c w' ∧ w'.inputs.members.length < w.inputs.members.length)
      (fun _ w' => Replays c w') w := by
  unfold tryMember
  rw [meets_bind, meets_state, meets_bind]
  refine selectRandomly_meets (fun _ _ _ => h.emit rfl _) fun member _ picks₁ => ?_
  rw [meets_bind]
  refine selectRandomly_meets (fun _ _ _ => (h.emit rfl _).emit rfl _) fun url _ picks₂ => ?_
  rw [meets_bind]
  refine (updateLeader_replays (newStub url) ((h.emit rfl _).emit rfl _)).mono (fun _ _ hw' => ?_) fun _ _ => id
  exact meets_pure.mpr hw'

/-- The stub that `get_leader_stub` gives is the one that the client then has. -/
theorem getLeaderStub_replays (force : Bool) (h : Replays c w) :
    Meets (getLeaderStub force) (fun stub w' => Replays c w' ∧ stub = w'.state.leaderStub)
      (fun _ w' => Replays c w') w := by
  unfold getLeaderStub
  rw [meets_bind, meets_state]
  split_ifs
  · rw [meets_bind, meets_modifyState, meets_bind, meets_emit, meets_bind]
    refine Meets.loop (I := Replays c) (fun w' hw' => ?_) (h.emit rfl w.inputs)
    refine (tryMember_replays hw').mono (fun _ w'' hw'' => ⟨hw''.2, ?_⟩) fun _ _ => id
    split_ifs
    · exact hw''.1
    · exact meets_bind.mpr (meets_state.mpr (meets_pure.mpr ⟨hw''.1, rfl⟩))
  · exact meets_pure.mpr ⟨h, rfl⟩

/-- A query on the stub of the client. -/
theorem query_replays {β : Type} {req : UInt64 → Request} (hreq : ∀ clusterId, (req clusterId).clusterId = clusterId)
    (take : Environment → Option (Except Error β × Environment)) (h : Replays c w) {stub : Option Stub}
    (hstub : stub = w.state.leaderStub) :
    Meets (query stub req take) (fun _ w' => Replays c w') (fun _ w' => Replays c w') w := by
  unfold query
  rw [meets_bind, meets_state]
  cases stub with
  | none => exact meets_stop.mpr h
  | some s =>
    have hsend : run observe w.state [.send s (req w.state.clusterId)] = some w.state := by
      show (observe w.state (.send s (req w.state.clusterId))).bind _ = _
      rw [observe, if_pos ⟨hstub.symm, hreq _⟩]
      rfl
    have hsent := h.emit hsend w.inputs
    refine meets_bind.mpr (meets_emit.mpr (meets_bind.mpr ?_))
    refine Meets.ask (fun _ => hsent) fun outcome inputs _ => ?_
    rw [meets_bind, meets_emit, meets_pure]
    exact hsent.emit rfl inputs

/-- An `_inner` function: given the stub of the client it keeps the record true. -/
def ReplaysInner {β : Type} (inner : Option Stub → ClientM (Except Error β)) : Prop :=
  ∀ (c : PDClient) (w : ClientSession), Replays c w →
    Meets (inner w.state.leaderStub) (fun _ w' => Replays c w') (fun _ w' => Replays c w') w

theorem replays_convert {β γ : Type} {req : UInt64 → Request} (hreq : ∀ clusterId, (req clusterId).clusterId = clusterId)
    (take : Environment → Option (Except Error β × Environment)) (f : Except Error β → Except Error γ) :
    ReplaysInner fun stub => query stub req take >>= fun rpc => pure (f rpc) := by
  intro c w h
  refine meets_bind.mpr ((query_replays hreq take h rfl).mono (fun rpc w' hw' => ?_) fun _ _ => id)
  exact meets_pure.mpr hw'

theorem withRetry_replays {β : Type} {inner : Option Stub → ClientM (Except Error β)} (hinner : ReplaysInner inner)
    (force : Bool) (h : Replays c w) :
    Meets (withRetry force inner) (fun _ w' => Replays c w') (fun _ w' => Replays c w') w := by
  unfold withRetry queryTwice
  rw [meets_bind]
  refine (getLeaderStub_replays false h).mono (fun stub w₁ hw₁ => ?_) fun _ _ => id
  obtain ⟨hw₁, rfl⟩ := hw₁
  rw [meets_bind]
  refine (hinner c w₁ hw₁).mono (fun r w₂ hw₂ => ?_) fun _ _ => id
  cases r with
  | ok b => exact meets_pure.mpr hw₂
  | error err =>
    refine meets_bind.mpr ((getLeaderStub_replays force hw₂).mono (fun stub w₃ hw₃ => ?_) fun _ _ => id)
    obtain ⟨hw₃, rfl⟩ := hw₃
    exact hinner c w₃ hw₃

theorem exec_replays (call : Call) (h : Replays c w) :
    Meets call.exec (fun _ w' => Replays c w') (fun _ w' => Replays c w') w := by
  have hret : ∀ {α : Type} {p : ClientM α} (f : α → Return),
      Meets p (fun _ w' => Replays c w') (fun _ w' => Replays c w') w →
      Meets (p >>= fun a => pure (f a)) (fun _ w' => Replays c w') (fun _ w' => Replays c w') w :=
    fun f hp => meets_bind.mpr (hp.mono (fun _ _ hw' => meets_pure.mpr hw') fun _ _ => id)
  cases call with
  | init pdaddr =>
    exact hret _ ((updateLeader_replays (newStub pdaddr) h).mono (fun _ _ hw' => hw'.1) fun _ _ => id)
  | getRegion key => exact hret _ (withRetry_replays (replays_convert (fun _ => rfl) _ _) true h)
  | getRegionById regionId => exact hret _ (withRetry_replays (replays_convert (fun _ => rfl) _ _) false h)
  | getStoreById storeId => exact hret _ (withRetry_replays (replays_convert (fun _ => rfl) _ _) true h)
  | getAllStores => exact hret _ (withRetry_replays (replays_convert (fun _ => rfl) _ _) true h)

end

/-- A call, also one that stops, leaves the client that its record gives. -/
theorem record_replays (c : PDClient) (a : Call × Environment) : run observe c (c.record a) = some (c.final a).state := by
  obtain ⟨call, env⟩ := a
  have h : Replays c { state := c, inputs := env, log := [] } := rfl
  exact final_of_meets (P := fun _ w => Replays c w) (exec_replays call h)

/-! ### Runs -/

/-- What all calls of a run did, the call included in which it may have stopped. -/
def history : PDClient → List (Call × Environment) → List Event
  | _, [] => []
  | c, a :: calls =>
    match c.step a with
    | some c' => c.record a ++ history c' calls
    | none => c.record a

theorem history_of_step {c c' : PDClient} {a : Call × Environment} (h : c.step a = some c')
    (calls : List (Call × Environment)) :
    history c (a :: calls) = c.record a ++ history c' calls := by
  rw [history, h]

theorem history_of_stop {c : PDClient} {a : Call × Environment} (h : c.step a = none) (calls : List (Call × Environment)) :
    history c (a :: calls) = c.record a := by
  rw [history, h]

theorem history_single (c : PDClient) (a : Call × Environment) : history c [a] = c.record a := by
  cases h : c.step a with
  | none => exact history_of_stop h []
  | some c' => rw [history_of_step h, history, List.append_nil]

theorem step_eq_final {c c' : PDClient} {a : Call × Environment} (h : c.step a = some c') : c' = (c.final a).state := by
  unfold step at h
  unfold final
  cases hrun : c.perform a.1 a.2 with
  | ok r w =>
    rw [hrun] at h
    exact (Option.some.inj h).symm
  | error e w =>
    rw [hrun] at h
    contradiction

/-- The history of a run, and where it ends. -/
theorem history_replays (c : PDClient) (calls : List (Call × Environment)) :
    (∃ c', run observe c (history c calls) = some c') ∧
      ∀ c', run step c calls = some c' → run observe c (history c calls) = some c' := by
  induction calls generalizing c with
  | nil => exact ⟨⟨c, rfl⟩, fun c' h => h⟩
  | cons a calls ih =>
    have hrecord := record_replays c a
    cases hstep : c.step a with
    | none =>
      rw [history_of_stop hstep]
      refine ⟨⟨_, hrecord⟩, fun c' h => ?_⟩
      rw [run_cons, hstep] at h
      contradiction
    | some m =>
      rw [← step_eq_final hstep] at hrecord
      obtain ⟨⟨c', hc'⟩, hrun⟩ := ih m
      rw [history_of_step hstep]
      refine ⟨⟨c', run_append_eq_some.mpr ⟨m, hrecord, hc'⟩⟩, fun c' h => ?_⟩
      rw [run_cons, hstep] at h
      exact run_append_eq_some.mpr ⟨m, hrecord, hrun c' h⟩

/-! ### Where a query goes -/

/-- The answer that a `GetMembers` brought. -/
def Event.answer : Event → Option Pdpb.GetMembersResponse
  | .getMembers _ (.ok resp) => some resp
  | _ => none

def lastAnswer (log : List Event) : Option Pdpb.GetMembersResponse := (log.filterMap Event.answer).getLast?

/-- An event after which the client has another stub, or none. -/
def Event.renews : Event → Bool
  | .discard | .connect _ => true
  | _ => false

/-- The last stub made was this one, for the leader of the last answer before it, and was not discarded since. -/
def ConnectedTo (log : List Event) (s : Stub) : Prop :=
  ∃ before after resp url, log = before ++ .connect s :: after ∧ (∀ e ∈ after, e.renews = false) ∧
    lastAnswer before = some resp ∧ url ∈ resp.leader.clientUrls ∧ s = newStub url

theorem lastAnswer_snoc (log : List Event) (e : Event) :
    lastAnswer (log ++ [e]) = e.answer.or (lastAnswer log) := by
  unfold lastAnswer
  rw [List.filterMap_append, List.getLast?_append]
  cases h : e.answer with
  | none => simp [h]
  | some resp => simp [h]

theorem lastAnswer_append (log log' : List Event) : lastAnswer (log ++ log') = (lastAnswer log').or (lastAnswer log) := by
  unfold lastAnswer
  rw [List.filterMap_append, List.getLast?_append]

theorem ConnectedTo.snoc {log : List Event} {s : Stub} {e : Event} (h : ConnectedTo log s) (he : e.renews = false) :
    ConnectedTo (log ++ [e]) s := by
  obtain ⟨before, after, resp, url, rfl, hafter, hlast, hurl, hs⟩ := h
  refine ⟨before, after ++ [e], resp, url, ?_, forall_mem_snoc hafter he, hlast, hurl, hs⟩
  rw [List.append_assoc, List.cons_append]

/-- What the record so far tells of the client, if the last answer gave its leader and cluster id. -/
structure Told (clusterId : UInt64) (log : List Event) (c : PDClient) : Prop where
  clientUrls : c.leader.clientUrls = (lastAnswer log).elim [] fun resp => resp.leader.clientUrls
  clusterId : c.clusterId = (lastAnswer log).elim clusterId fun resp => resp.header.clusterId
  leaderStub : ∀ s, c.leaderStub = some s → ConnectedTo log s

/-- An event that is no answer and leaves leader and cluster id as they were. -/
theorem Told.keep {clusterId : UInt64} {log : List Event} {c c' : PDClient} {e : Event} (h : Told clusterId log c)
    (he : e.answer = none) (hleader : c'.leader = c.leader) (hid : c'.clusterId = c.clusterId)
    (hstub : ∀ s, c'.leaderStub = some s → ConnectedTo (log ++ [e]) s) : Told clusterId (log ++ [e]) c' := by
  have hlast : lastAnswer (log ++ [e]) = lastAnswer log := by rw [lastAnswer_snoc, he, Option.none_or]
  constructor
  · rw [hleader, hlast]
    exact h.clientUrls
  · rw [hid, hlast]
    exact h.clusterId
  · exact hstub

theorem Told.observe {clusterId : UInt64} {log : List Event} {c c' : PDClient} {e : Event} (h : Told clusterId log c)
    (hstep : observe c e = some c') : Told clusterId (log ++ [e]) c' := by
  have hsame : ∀ {e : Event}, e.answer = none → e.renews = false → Told clusterId (log ++ [e]) c :=
    fun hanswer hrenews => h.keep hanswer rfl rfl fun s hs => (h.leaderStub s hs).snoc hrenews
  cases e with
  | select n =>
    obtain rfl := Option.some.inj hstep
    exact hsame rfl rfl
  | status ok =>
    obtain rfl := Option.some.inj hstep
    exact hsame rfl rfl
  | discard =>
    obtain rfl := Option.some.inj hstep
    exact h.keep rfl rfl rfl nofun
  | getMembers t o =>
    cases o with
    | error err =>
      obtain rfl := Option.some.inj hstep
      exact hsame rfl rfl
    | ok resp =>
      obtain rfl := Option.some.inj hstep
      have hlast : lastAnswer (log ++ [.getMembers t (.ok resp)]) = some resp := lastAnswer_snoc log _
      constructor
      · rw [hlast]
        rfl
      · rw [hlast]
        rfl
      · exact fun s hs => (h.leaderStub s hs).snoc rfl
  | connect s =>
    obtain ⟨⟨-, url, hurl, rfl⟩, hc'⟩ := Option.ite_none_right_eq_some.mp hstep
    obtain rfl := Option.some.inj hc'
    refine h.keep rfl rfl rfl fun s hs => ?_
    obtain rfl : newStub url = s := Option.some.inj hs
    rw [h.clientUrls] at hurl
    cases hlast : lastAnswer log with
    | none =>
      rw [hlast] at hurl
      contradiction
    | some resp =>
      rw [hlast] at hurl
      exact ⟨log, [], resp, url, rfl, fun _ he => absurd he List.not_mem_nil, hlast, hurl, rfl⟩
  | send s req =>
    obtain ⟨-, hc'⟩ := Option.ite_none_right_eq_some.mp hstep
    obtain rfl := Option.some.inj hc'
    exact hsame rfl rfl

theorem told_of_run {clusterId : UInt64} {log : List Event} {c : PDClient} (h : run observe (fresh clusterId) log = some c) :
    Told clusterId log c := by
  have hfresh : Told clusterId [] (fresh clusterId) := ⟨rfl, rfl, nofun⟩
  refine run_induction hfresh ?_ h
  intro tr m e m' _ hm hstep
  exact hm.observe hstep

/-- Every query goes out on the stub last made, which was not discarded since and was made for the
leader in the last answer before, and under the cluster id of the last answer before the query. -/
theorem query_session {clusterId : UInt64} {calls : List (Call × Environment)} {pre post : List Event} {s : Stub}
    {req : Request} (h : history (fresh clusterId) calls = pre ++ .send s req :: post) :
    ConnectedTo pre s ∧ ∃ resp, lastAnswer pre = some resp ∧ req.clusterId = resp.header.clusterId := by
  obtain ⟨⟨c', hc'⟩, -⟩ := history_replays (fresh clusterId) calls
  obtain ⟨m, m', hm, hstep, -⟩ := step_of_run (h ▸ hc')
  have htold := told_of_run hm
  obtain ⟨⟨hstub, hreq⟩, -⟩ := Option.ite_none_right_eq_some.mp hstep
  have hconnected := htold.leaderStub s hstub
  refine ⟨hconnected, ?_⟩
  obtain ⟨before, after, resp, url, rfl, -, hbefore, -, -⟩ := hconnected
  obtain ⟨resp', hlast⟩ : ∃ resp', lastAnswer (before ++ .connect s :: after) = some resp' := by
    rw [lastAnswer_append, hbefore]
    cases lastAnswer (.connect s :: after) with
    | none => exact ⟨resp, rfl⟩
    | some resp' => exact ⟨resp', rfl⟩
  have hcluster : m.clusterId = resp'.header.clusterId := by
    rw [htold.clusterId, hlast]
    rfl
  exact ⟨resp', hlast, hreq.trans hcluster⟩

/-- A query fails on the stub for `pd://b`, and the retry finds PD led by `pd://a`. -/
def movedLeader : Call × Environment :=
  (.getRegion [], {
    picks := [0, 0, 0], members := [.ok (ledBy 1 urlA)]
    regions := [.error { error := "" }, .error { error := "" }] })

theorem query_session_movedLeader : ∃ pre post, ConnectedTo pre (newStub urlA) ∧
    history (fresh 0) [constructed, movedLeader] = pre ++ .send (newStub urlA) (.getRegion 6 []) :: post := by
  obtain ⟨pre, hpre⟩ : ∃ pre, clientOfB.record movedLeader =
    pre ++ .send (newStub urlA) (.getRegion 6 []) :: [.status false] :=
    ⟨[.send (newStub urlB) (.getRegion 6 []), .status false, .discard, .select 1, .select 1,
      .getMembers (newStub urlB) (.ok (ledBy 1 urlA)), .select 1, .connect (newStub urlA)], rfl⟩
  have h : history (fresh 0) [constructed, movedLeader] =
      ((fresh 0).record constructed ++ pre) ++ .send (newStub urlA) (.getRegion 6 []) :: [.status false] := by
    rw [history_of_step step_constructed, history_single, hpre, List.append_assoc]
  exact ⟨_, _, (query_session h).1, h⟩

end TikvCpp.PDClient
