import TikvCpp.PDClient.Rules

/-! Random picks. `select_randomly` has no result on an empty range, and its ranges are the
member pool and the addresses of a server, which earlier answers have left behind. Once PD
has answered, and as long as its answers give a pool whose servers all have addresses, no
range is empty. A client whose pool is empty, or has a server without an address, can come
to an empty pick in its next query. -/

namespace TikvCpp.PDClient

open Data Transition Transition.Program

/-- No element was asked of an empty range. -/
def Safe (log : List Event) : Prop := ∀ n, .select n ∈ log → 0 < n

/-- Every server of the pool has an address. -/
def Addressed (c : PDClient) : Prop :=
  ∀ (id : UInt64) (info : PDServerInfo), c.members[id]? = some info → info.clientUrls ≠ []

/-- An answer with an address of each server in the pool it gives: of the leader, and of each
member that the leader does not overwrite. -/
def Complete (resp : Pdpb.GetMembersResponse) : Prop :=
  ∀ (id : UInt64) (info : PDServerInfo), (pdMembers resp).1[id]? = some info → info.clientUrls ≠ []

/-- The answers that PD gave in the record are complete. -/
def AnswersComplete (log : List Event) : Prop := ∀ t resp, .getMembers t (.ok resp) ∈ log → Complete resp

/-- A query waits for a first answer of PD, and the answers that a call gets are complete. -/
structure Served (c : PDClient) (a : Call × Environment) : Prop where
  known : (∀ pdaddr, a.1 ≠ .init pdaddr) → c.members.size ≠ 0
  complete : AnswersComplete (c.record a)

theorem safe_append {log tail : List Event} (h : Safe log) (htail : Safe tail) : Safe (log ++ tail) := by
  intro n hn
  rcases List.mem_append.mp hn with hn | hn
  · exact h n hn
  · exact htail n hn

theorem AnswersComplete.before {log tail : List Event} (h : AnswersComplete (log ++ tail)) : AnswersComplete log :=
  fun t resp hmem => h t resp (List.mem_append_left _ hmem)

theorem Complete.leader {resp : Pdpb.GetMembersResponse} (h : Complete resp) : resp.leader.clientUrls ≠ [] :=
  h _ _ (pdMembers_get_leader resp)

theorem complete_of_members {resp : Pdpb.GetMembersResponse} (hleader : resp.leader.clientUrls ≠ [])
    (hmembers : ∀ it ∈ resp.members, it.memberId ≠ resp.leader.memberId → it.clientUrls ≠ []) : Complete resp := by
  intro id info hget
  rcases pdMembers_get hget with ⟨-, rfl⟩ | ⟨hid, it, hit, rfl, rfl⟩
  · exact hleader
  · exact hmembers it hit hid

theorem addressed_answered (c : PDClient) {resp : Pdpb.GetMembersResponse} (h : Complete resp) :
    Addressed (c.answered resp) := h

theorem answered_size (c : PDClient) (resp : Pdpb.GetMembersResponse) : (c.answered resp).members.size ≠ 0 := by
  have hmem := Std.ExtTreeMap.mem_toList_iff_getElem?_eq_some.mpr (pdMembers_get_leader resp)
  have hpos := List.length_pos_of_mem hmem
  rw [Std.ExtTreeMap.length_toList] at hpos
  exact hpos.ne'

/-- The picks of a round whose members do not answer. -/
theorem safe_tries {c : PDClient} {tries : List Event} (hsize : c.members.size ≠ 0) (hc : Addressed c)
    (h : ∀ t ∈ tries, Tried c t) : Safe (.discard :: tries) := by
  intro n hn
  rcases List.mem_cons.mp hn with hn | hn
  · contradiction
  · cases h _ hn with
    | member => exact Nat.pos_of_ne_zero hsize
    | url hget => exact List.length_pos_iff.mpr (hc _ _ hget)

/-! ### The calls -/

/-- A session whose pool and record are in order. -/
structure InOrder (w : ClientSession) : Prop where
  size : w.state.members.size ≠ 0
  addressed : Addressed w.state
  safe : Safe w.log

/-- A session that is in order if the answers so far have been complete. -/
def Ready (w : ClientSession) : Prop := AnswersComplete w.log → InOrder w

theorem getLeaderStub_ready (force : Bool) (w : ClientSession) (hw : Ready w) :
    Meets (getLeaderStub force) (fun _ w' => Ready w') (fun _ w' => AnswersComplete w'.log → Safe w'.log) w := by
  have hanswered : ∀ {tries : List Event} {t : Stub} {resp : Pdpb.GetMembersResponse} (connects : List Event),
      (∀ t ∈ tries, Tried w.state t) → (∀ t ∈ connects, ∀ n, t ≠ .select n) →
      AnswersComplete (w.log ++ .discard :: (tries ++ .getMembers t (.ok resp) ::
        .select resp.leader.clientUrls.length :: connects)) →
      Complete resp ∧ Safe (w.log ++ .discard :: (tries ++ .getMembers t (.ok resp) ::
        .select resp.leader.clientUrls.length :: connects)) := by
    intro tries t resp connects htries hconnects hcomplete
    have hresp : Complete resp := hcomplete t resp (by simp)
    obtain ⟨hsize, haddressed, hsafe⟩ := hw hcomplete.before
    refine ⟨hresp, ?_⟩
    rw [← List.cons_append]
    refine safe_append hsafe (safe_append (safe_tries hsize haddressed htries) fun n hn => ?_)
    rcases List.mem_cons.mp hn with hn | hn
    · contradiction
    rcases List.mem_cons.mp hn with hn | hn
    · rw [Event.select.inj hn]
      exact List.length_pos_iff.mpr hresp.leader
    · exact absurd rfl (hconnects _ hn n)
  refine getLeaderStub_meets (fun s _ _ => hw) ?_ ?_ ?_
  · intro e w' _ hw' _ hcomplete
    obtain ⟨tries, hlog, htries⟩ := hw'.log_eq
    rw [hlog] at hcomplete ⊢
    obtain ⟨hsize, haddressed, hsafe⟩ := hw hcomplete.before
    exact safe_append hsafe (safe_tries hsize haddressed htries)
  · intro e resp w' _ hw' _ hcomplete
    obtain ⟨tries, t, htries, hlog⟩ := hw'.log_eq
    rw [hlog] at hcomplete ⊢
    exact (hanswered [] htries (by simp) hcomplete).2
  · intro resp url w' _ hw' hcomplete
    obtain ⟨tries, t, htries, hlog⟩ := hw'.log_eq
    rw [hlog] at hcomplete
    obtain ⟨hresp, hsafe⟩ := hanswered [.connect (newStub url)] htries (by simp) hcomplete
    constructor
    · rw [hw'.state_eq]
      exact answered_size w.state.discarded resp
    · rw [hw'.state_eq]
      exact hresp
    · rw [hlog]
      exact hsafe

theorem ready_queryProof : QueryProof Ready := by
  intro w inputs queries hw _ hqueries hcomplete
  obtain ⟨hsize, haddressed, hsafe⟩ := hw hcomplete.before
  refine ⟨hsize, haddressed, safe_append hsafe fun n hn => ?_⟩
  have := hqueries _ hn
  contradiction

/-- A call that gets complete answers makes no empty pick, and leaves addresses to pick from. -/
theorem exec_ready {c : PDClient} {a : Call × Environment} (hc : Addressed c)
    (hknown : (∀ pdaddr, a.1 ≠ .init pdaddr) → c.members.size ≠ 0) :
    Meets a.1.exec (fun _ w => AnswersComplete w.log → Addressed w.state ∧ Safe w.log)
      (fun _ w => AnswersComplete w.log → Safe w.log) { state := c, inputs := a.2 } := by
  obtain ⟨call, env⟩ := a
  by_cases hcall : ∀ pdaddr, call ≠ .init pdaddr
  · have hready : Ready { state := c, inputs := env, log := [] } :=
      fun _ => ⟨hknown hcall, hc, by simp [Safe]⟩
    refine (exec_keeps hcall ready_queryProof (fun _ _ hw hcomplete => (hw hcomplete).safe) getLeaderStub_ready
      hready).mono (fun _ w hw hcomplete => ?_) fun _ _ => id
    exact ⟨(hw hcomplete).addressed, (hw hcomplete).safe⟩
  · obtain ⟨pdaddr, rfl⟩ : ∃ pdaddr, call = .init pdaddr := by simpa using hcall
    refine meets_bind.mpr (updateLeader_meets (by simp [Safe]) ?_ ?_ ?_ ?_)
    · intro err inputs _
      exact meets_pure.mpr fun _ => ⟨hc, by simp [Safe]⟩
    · intro resp inputs _ _
      exact meets_pure.mpr fun hcomplete => ⟨hcomplete (newStub pdaddr) resp (by simp), by simp [Safe]⟩
    · intro e resp inputs _ _ _ hcomplete
      have hresp : Complete resp := hcomplete (newStub pdaddr) resp (by simp)
      have := List.length_pos_iff.mpr hresp.leader
      simpa [Safe] using this
    · intro resp inputs url _ _ _
      refine meets_pure.mpr fun hcomplete => ?_
      have hresp : Complete resp := hcomplete (newStub pdaddr) resp (by simp)
      have := List.length_pos_iff.mpr hresp.leader
      exact ⟨hresp, by simpa [Safe] using this⟩

theorem record_safe {c : PDClient} {a : Call × Environment} (hc : Addressed c) (hserved : Served c a) :
    Safe (c.record a) :=
  final_of_meets (P := fun _ w => AnswersComplete w.log → Safe w.log)
    ((exec_ready hc hserved.known).mono (fun _ _ hw hcomplete => (hw hcomplete).2) fun _ _ => id) hserved.complete

theorem step_addressed {c c' : PDClient} {a : Call × Environment} (hc : Addressed c) (hserved : Served c a)
    (h : c.step a = some c') : Addressed c' := by
  have hmeets := (exec_ready hc hserved.known).mono (fun _ _ => id) fun _ _ _ => trivial
  obtain ⟨rfl, hfinal⟩ :=
    step_of_meets (P := fun w => AnswersComplete w.log → Addressed w.state ∧ Safe w.log) hmeets h
  exact (hfinal hserved.complete).1

theorem addressed_fresh (clusterId : UInt64) : Addressed (fresh clusterId) := by
  intro id info hget
  simp [fresh] at hget

/-- No call of a run makes an empty pick, finished or not, if up to there and in it queries
have waited for an answer of PD and the answers PD gave have been complete. -/
theorem picks_nonempty {clusterId : UInt64} {calls pre post : List (Call × Environment)}
    {a : Call × Environment} {m : PDClient} (hserved : Along step Served (fresh clusterId) calls)
    (hcalls : calls = pre ++ a :: post) (hpre : run step (fresh clusterId) pre = some m) : Safe (m.record a) := by
  rw [hcalls] at hserved
  obtain ⟨hbefore, hat⟩ := along_append_cons hpre hserved
  have hm : Addressed m := run_along (addressed_fresh clusterId)
    (fun _ _ _ hc hs he => step_addressed hc hs he) hpre hbefore
  exact record_safe hm hat

/-- The client is set up, and a query goes through. PD lists member 2 without an address,
but the leader takes its place. -/
def lookUp : Call × Environment :=
  (.getRegion [], {
    picks := [3, 1, 2], members := [.ok { ledBy 2 urlA with members := [{ memberId := 2 }] }]
    regions := [.error ⟨"unavailable"⟩, .ok {}] })

theorem picks_nonempty_lookUp :
    run step (fresh 0) [constructed] = some clientOfB ∧ Safe (clientOfB.record lookUp) := by
  have hconstructed : Served (fresh 0) constructed := by
    refine ⟨fun h => absurd rfl (h urlA), fun t resp hmem => ?_⟩
    have hrecord : (fresh 0).record constructed =
      [.getMembers (newStub urlA) (.ok (ledBy 1 urlB)), .select 1, .connect (newStub urlB)] := rfl
    rw [hrecord] at hmem
    obtain ⟨rfl, rfl⟩ : t = newStub urlA ∧ resp = ledBy 1 urlB := by simpa using hmem
    exact complete_of_members (by simp [ledBy]) (by simp [ledBy])
  have hlookUp : Served clientOfB lookUp := by
    refine ⟨fun _ => by decide, fun t resp hmem => ?_⟩
    have hrecord : clientOfB.record lookUp =
      [.send (newStub urlB) (.getRegion 6 []), .status false, .discard, .select 1, .select 1,
        .getMembers (newStub urlB) (.ok { ledBy 2 urlA with members := [{ memberId := 2 }] }), .select 1,
        .connect (newStub urlA), .send (newStub urlA) (.getRegion 6 []), .status true] := rfl
    rw [hrecord] at hmem
    obtain ⟨-, rfl⟩ : t = newStub urlB ∧ resp = { ledBy 2 urlA with members := [{ memberId := 2 }] } := by
      simpa using hmem
    exact complete_of_members (by simp [ledBy]) (by simp [ledBy])
  have hserved : Along step Served (fresh 0) ([constructed] ++ lookUp :: []) :=
    Along.cons hconstructed step_constructed (Along.single hlookUp)
  exact ⟨rfl, picks_nonempty hserved rfl rfl⟩

/-! ### What an empty pick takes -/

section

variable {w : ClientSession} {Q : Unit → ClientSession → Prop}

theorem not_safe {log : List Event} (h : .select 0 ∈ log) : ¬ Safe log := fun hs => lt_irrefl 0 (hs 0 h)

theorem selectRandomly_empty {α : Type} {range : List α} {Q : α → ClientSession → Prop}
    {E : Stop → ClientSession → Prop} (h : range.length = 0)
    (hstop : E .undefined { w with log := w.log ++ [.select 0] }) : Meets (selectRandomly range) Q E w := by
  unfold selectRandomly
  rw [meets_bind, meets_emit, dif_neg (by omega), meets_stop, h]
  exact hstop

/-- A round stops at an empty pool. -/
theorem tryMember_empty (h : w.state.members.size = 0) :
    Meets tryMember Q (fun _ w' => w'.log = w.log ++ [.select 0]) w := by
  unfold tryMember
  rw [meets_bind, meets_state, meets_bind]
  exact selectRandomly_empty (Std.ExtTreeMap.length_toList.trans h) rfl

/-- A round stops where the random number leads to a server without an address. -/
theorem tryMember_gap (n : ℕ) (id : UInt64) {info : PDServerInfo}
    (hn : w.state.members.toList[n]? = some (id, info)) (hurl : info.clientUrls = [])
    (hpick : w.inputs.picks = [n]) :
    Meets tryMember Q (fun _ w' => w'.log = w.log ++ [.select w.state.members.size, .select 0]) w := by
  obtain ⟨hlt, hget⟩ := List.getElem?_eq_some_iff.mp hn
  have hsize : w.state.members.toList.length = w.state.members.size := Std.ExtTreeMap.length_toList
  unfold tryMember
  rw [meets_bind, meets_state, meets_bind]
  unfold selectRandomly
  rw [meets_bind, meets_emit, dif_pos (by omega), meets_bind]
  refine Meets.ask (fun hnext => ?_) fun k inputs hnext => ?_
  · simp [Environment.nextPick, Environment.pop, hpick] at hnext
  obtain ⟨rest, hpicks, rfl⟩ := Environment.pop_eq_some hnext
  obtain ⟨rfl, _⟩ := List.cons.inj (hpick.symm.trans hpicks)
  rw [meets_pure, meets_bind]
  have hmember : w.state.members.toList.get ⟨n % w.state.members.toList.length, Nat.mod_lt _ (by omega)⟩ =
      (id, info) := by
    simp only [List.get_eq_getElem, Nat.mod_eq_of_lt hlt, hget]
  rw [hmember]
  refine selectRandomly_empty (by rw [hurl]; rfl) ?_
  rw [hsize, List.append_assoc]
  rfl

/-- A refresh stops where its first round does. -/
theorem getLeaderStub_stops {force : Bool} {P : List Event → Prop}
    {Q : Option Stub → ClientSession → Prop}
    (hrefresh : w.state.leaderStub = none ∨ force = true)
    (h : Meets tryMember (fun _ _ => False) (fun _ w' => P w'.log)
      { state := w.state.discarded, inputs := w.inputs, log := w.log ++ [.discard] }) :
    Meets (getLeaderStub force) Q (fun _ w' => P w'.log) w := by
  unfold getLeaderStub
  rw [meets_bind, meets_state, if_pos (by simpa using hrefresh)]
  refine meets_bind.mpr (meets_modifyState.mpr (meets_bind.mpr (meets_emit.mpr (meets_bind.mpr ?_))))
  refine Meets.loop (I := (· = { state := w.state.discarded, inputs := w.inputs, log := w.log ++ [.discard] }))
    (fun w' hw' => ?_) rfl
  rw [hw']
  exact h.mono (fun _ _ => False.elim) fun _ _ => id

end

/-- Whatever PD would answer now, a query picks from the empty pool of a client without a stub. -/
theorem record_empty_pool {c : PDClient} {call : Call} {env : Environment} (hsize : c.members.size = 0)
    (hstub : c.leaderStub = none) (hcall : ∀ pdaddr, call ≠ .init pdaddr) :
    c.record (call, env) = [.discard, .select 0] := by
  have hretry : ∀ {β : Type} {force : Bool} {inner : Option Stub → ClientM (Except Error β)},
      Meets (withRetry force inner) (fun _ w => w.log = [.discard, .select 0])
        (fun _ w => w.log = [.discard, .select 0]) { state := c, inputs := env } := by
    intro β force inner
    unfold withRetry
    rw [meets_bind]
    exact getLeaderStub_stops (P := (· = [.discard, .select 0])) (.inl hstub) (tryMember_empty hsize)
  refine final_of_meets (P := fun _ w => w.log = [.discard, .select 0]) ?_
  cases call with
  | init pdaddr => exact absurd rfl (hcall pdaddr)
  | getRegion key => exact meets_bind.mpr hretry
  | getRegionById regionId => exact meets_bind.mpr hretry
  | getStoreById storeId => exact meets_bind.mpr hretry
  | getAllStores => exact meets_bind.mpr hretry

/-- An answer without an address of the leader leads to an empty pick at once, where there
is no stub. -/
theorem init_urlless_leader {c : PDClient} {pdaddr : Str} {env : Environment}
    {resp : Pdpb.GetMembersResponse} {rest : List (Except Error Pdpb.GetMembersResponse)}
    (hstub : c.leaderStub = none) (hresp : env.members = .ok resp :: rest) (hurl : resp.leader.clientUrls = []) :
    ¬ Safe (c.record (.init pdaddr, env)) := by
  refine not_safe (final_of_meets (P := fun _ w => .select 0 ∈ w.log) (meets_bind.mpr ?_))
  unfold init updateLeader askMembers
  rw [meets_bind, meets_bind]
  refine Meets.ask (fun hnext => ?_) fun outcome inputs hnext => ?_
  · have := Environment.pop_eq_none hnext
    rw [hresp] at this
    contradiction
  obtain ⟨rfl, _⟩ := List.cons.inj (hresp.symm.trans (nextMembers_eq_some hnext))
  rw [meets_bind, meets_emit, meets_pure]
  refine meets_bind.mpr (meets_modifyState.mpr (connectLeader_meets (c := c) rfl (absurd hstub) ?_ ?_))
  · intro e inputs' _ _ _
    simp [hurl]
  · intro inputs' url hmem _ _
    rw [hurl] at hmem
    contradiction

/-- A server without an address in the pool of a connected client can be picked as soon as
the leader is lost. -/
theorem exists_urlless_pick {c : PDClient} {s : Stub} {id : UInt64} {info : PDServerInfo} (key : Str)
    (hstub : c.leaderStub = some s) (hget : c.members[id]? = some info) (hurl : info.clientUrls = []) :
    ∃ env, c.record (.getRegion key, env) =
      [.send s (.getRegion c.clusterId key), .status false, .discard, .select c.members.size, .select 0] := by
  obtain ⟨n, hn⟩ := List.mem_iff_getElem?.mp (Std.ExtTreeMap.mem_toList_iff_getElem?_eq_some.mpr hget)
  refine ⟨{ picks := [n], regions := [.error ⟨"unavailable"⟩] },
    final_of_meets (P := fun _ w => w.log = [.send s (.getRegion c.clusterId key), .status false, .discard,
      .select c.members.size, .select 0]) (meets_bind.mpr ?_)⟩
  unfold getRegion withRetry
  rw [meets_bind]
  refine getLeaderStub_meets (fun s' hs' _ => ?_) (by simp [hstub]) (by simp [hstub]) (by simp [hstub])
  obtain rfl := Option.some.inj (hstub.symm.trans hs')
  unfold queryTwice askRegion query
  rw [meets_bind, meets_bind, meets_bind, meets_state]
  refine meets_bind.mpr (meets_emit.mpr (meets_bind.mpr (Meets.ask (fun hnext => by contradiction) ?_)))
  intro outcome inputs hnext
  obtain ⟨rest, hregions, rfl⟩ := Environment.pop_eq_some hnext
  obtain ⟨rfl, _⟩ := List.cons.inj hregions
  refine meets_bind.mpr (meets_emit.mpr (meets_bind.mpr ?_))
  exact getLeaderStub_stops (P := (· = [.send s (.getRegion c.clusterId key), .status false, .discard,
    .select c.members.size, .select 0])) (.inr rfl) (tryMember_gap n id hn hurl rfl)

/-- A client has a stub from the first answer of PD on. -/
def Started (c : PDClient) : Prop := c.leaderStub = none ↔ c.members.size = 0

theorem started_of {c : PDClient} (hstub : c.leaderStub ≠ none) (hsize : c.members.size ≠ 0) : Started c :=
  iff_of_false hstub hsize

theorem exec_started {c : PDClient} {a : Call × Environment} (hc : Started c) :
    Meets a.1.exec (fun _ w => Started w.state) (fun _ _ => True) { state := c, inputs := a.2 } := by
  obtain ⟨call, env⟩ := a
  by_cases hcall : ∀ pdaddr, call ≠ .init pdaddr
  · refine exec_keeps (J := fun w => Started w.state) hcall (fun _ _ _ hw _ _ => hw) (fun _ _ _ => trivial) ?_ hc
    intro force w hw
    refine getLeaderStub_meets (fun _ _ _ => hw) (by simp) (by simp) fun resp url w' _ hw' => ?_
    rw [hw'.state_eq]
    exact started_of (Option.some_ne_none _) (answered_size w.state.discarded resp)
  · obtain ⟨pdaddr, rfl⟩ : ∃ pdaddr, call = .init pdaddr := by simpa using hcall
    refine meets_bind.mpr (updateLeader_meets (by simp) ?_ ?_ (by simp) ?_)
    · exact fun _ _ _ => meets_pure.mpr hc
    · exact fun resp _ _ hstub => meets_pure.mpr (started_of hstub (answered_size c resp))
    · exact fun resp _ _ _ _ _ => meets_pure.mpr (started_of (Option.some_ne_none _) (answered_size c resp))

theorem run_started {clusterId : UInt64} {calls : List (Call × Environment)} {c : PDClient}
    (h : run step (fresh clusterId) calls = some c) : Started c := by
  refine run_induction (P := fun _ c => Started c) (by simp [Started, fresh]) (fun _ m a c _ hm hstep => ?_) h
  obtain ⟨rfl, hc⟩ := step_of_meets (exec_started hm) hstep
  exact hc

/-- In every state that a run reaches the condition on the pool is exact: no query that gets only
complete answers makes an empty pick, whatever the random numbers and the other outcomes, if and
only if the pool is not empty and its servers have addresses. -/
theorem queries_safe_iff {clusterId : UInt64} {calls : List (Call × Environment)} {c : PDClient}
    (h : run step (fresh clusterId) calls = some c) :
    (∀ call env, (∀ pdaddr, call ≠ .init pdaddr) → AnswersComplete (c.record (call, env)) →
      Safe (c.record (call, env))) ↔ c.members.size ≠ 0 ∧ Addressed c := by
  constructor
  · intro hall
    have hsize : c.members.size ≠ 0 := by
      intro hsize
      have hquery : ∀ pdaddr, Call.getAllStores ≠ .init pdaddr := by simp
      have hrecord : c.record (.getAllStores, {}) = [.discard, .select 0] :=
        record_empty_pool hsize ((run_started h).mpr hsize) hquery
      refine not_safe ?_ (hall .getAllStores {} hquery fun t resp hmem => ?_)
      · simp [hrecord]
      · simp [hrecord] at hmem
    refine ⟨hsize, fun id info hget hurl => ?_⟩
    obtain ⟨s, hs⟩ := Option.ne_none_iff_exists'.mp fun hstub => hsize ((run_started h).mp hstub)
    obtain ⟨env, hrecord⟩ := exists_urlless_pick [] hs hget hurl
    refine not_safe ?_ (hall (.getRegion []) env (by simp) fun t resp hmem => ?_)
    · simp [hrecord]
    · simp [hrecord] at hmem
  · rintro ⟨hsize, haddressed⟩ call env _ hcomplete
    exact record_safe haddressed ⟨fun _ => hsize, hcomplete⟩

/-- PD does not answer the constructor, and the first query then has no member to pick. -/
theorem unanswered_not_safe :
    ∃ c, run step (fresh 0) [(.init urlA, { members := [.error ⟨"unavailable"⟩] })] = some c ∧
      ¬ Safe (c.record (.getRegion [], { members := [.ok (ledBy 1 urlB)], picks := [0, 0, 0], regions := [.ok {}] })) := by
  refine ⟨fresh 0, rfl, not_safe ?_⟩
  rw [record_empty_pool rfl rfl (by simp)]
  simp

end TikvCpp.PDClient
