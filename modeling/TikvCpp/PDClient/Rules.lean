import TikvCpp.PDClient.Client

/-! What the functions of the PD client do, as rules for `Meets`: every way a function
ends or stops, with the client, the answers it has used and its record. -/

namespace TikvCpp.PDClient

open Data Transition Transition.Program

/-- The client once `update_leader` has stored an answer. -/
def answered (c : PDClient) (resp : Pdpb.GetMembersResponse) : PDClient :=
  { c with members := (pdMembers resp).1, leader := (pdMembers resp).2, clusterId := resp.header.clusterId }

/-- The client without its leader stub. -/
def discarded (c : PDClient) : PDClient := { c with leaderStub := none }

def connected (c : PDClient) (s : Stub) : PDClient := { c with leaderStub := some s }

theorem nextMembers_eq_some {env env' : Environment} {a : Except Error Pdpb.GetMembersResponse}
    (h : env.nextMembers = some (a, env')) : env.members = a :: env'.members := by
  obtain ⟨rest, hmembers, rfl⟩ := Environment.pop_eq_some h
  exact hmembers

/-- Answers of other kinds leave those about the members. -/
theorem pop_members {β : Type} {env env' : Environment} {answers : List β} {left : List β → Environment} {a : β}
    (h : Environment.pop answers left = some (a, env')) (hleft : ∀ rest, (left rest).members = env.members) :
    env'.members = env.members := by
  obtain ⟨rest, _, rfl⟩ := Environment.pop_eq_some h
  exact hleft rest

/-- The scan finds the leader just stored, where there is no stub. -/
theorem flaggedMember_answered (c : PDClient) (resp : Pdpb.GetMembersResponse) :
    (c.answered resp).flaggedMember =
      if c.leaderStub = none then some (resp.leader.memberId, serverInfo resp.leader true) else none := by
  have hflag : ∀ it ∈ (c.answered resp).members.toList, it.2.isLeader = true →
      it = (resp.leader.memberId, serverInfo resp.leader true) := by
    intro it hit hleader
    have hget := Std.ExtTreeMap.mem_toList_iff_getElem?_eq_some.mp hit
    obtain ⟨hid, hinfo⟩ := pdMembers_flagged.mp ⟨hget, hleader⟩
    exact Prod.ext hid hinfo
  unfold flaggedMember
  split_ifs with hstub
  · cases hfind : (c.answered resp).members.toList.find? fun it =>
        it.2.isLeader && (it.2.id != (c.answered resp).leader.id || (c.answered resp).leaderStub.isNone) with
    | none =>
      have hmem : (resp.leader.memberId, serverInfo resp.leader true) ∈ (c.answered resp).members.toList :=
        Std.ExtTreeMap.mem_toList_iff_getElem?_eq_some.mpr (pdMembers_get_leader resp)
      have := List.find?_eq_none.mp hfind _ hmem
      simp [answered, hstub, serverInfo] at this
    | some it =>
      have hit := List.find?_some hfind
      simp only [Bool.and_eq_true] at hit
      rw [hflag it (List.mem_of_find?_eq_some hfind) hit.1]
  · refine List.find?_eq_none.mpr fun it hit => ?_
    by_cases hleader : it.2.isLeader = true
    · rw [hflag it hit hleader]
      have hsome : c.leaderStub.isNone = false := by
        rw [Option.isNone_eq_false_iff, Option.isSome_iff_ne_none]
        exact hstub
      simp [answered, hsome, serverInfo]
    · simp [hleader]

variable {α : Type} {E : Stop → ClientSession → Prop}
  {w : ClientSession}

theorem selectRandomly_meets {range : List α} {Q : α → ClientSession → Prop}
    (hstop : ∀ e, (e = .undefined → range = []) → (e = .waiting → w.inputs.picks = []) →
      E e { w with log := w.log ++ [.select range.length] })
    (hpick : ∀ a ∈ range, ∀ picks, Q a { state := w.state, inputs := { w.inputs with picks := picks }
                                         log := w.log ++ [.select range.length] }) :
    Meets (selectRandomly range) Q E w := by
  unfold selectRandomly
  rw [meets_bind, meets_emit]
  split_ifs with hlen
  · rw [meets_bind]
    refine Meets.ask (fun hnext => hstop .waiting (by simp) fun _ => Environment.pop_eq_none hnext) ?_
    intro n inputs hnext
    obtain ⟨picks, _, rfl⟩ := Environment.pop_eq_some hnext
    exact meets_pure.mpr (hpick _ (List.get_mem _ _) picks)
  · rw [meets_stop]
    exact hstop .undefined (fun _ => List.length_eq_zero_iff.mp (Nat.eq_zero_of_not_pos hlen)) (by simp)

/-- The scan makes a stub for the leader of the answer just stored, if there is none. -/
theorem connectLeader_meets {c : PDClient} {resp : Pdpb.GetMembersResponse}
    {Q : Bool → ClientSession → Prop} (hw : w.state = c.answered resp)
    (hheld : c.leaderStub ≠ none → Q false w)
    (hstop : ∀ e inputs, c.leaderStub = none → (e = .undefined → resp.leader.clientUrls = []) →
      (e = .waiting → w.inputs.picks = []) →
      E e { state := c.answered resp, inputs := inputs
            log := w.log ++ [.select resp.leader.clientUrls.length] })
    (hnew : ∀ inputs, ∀ url ∈ resp.leader.clientUrls, inputs.members = w.inputs.members → c.leaderStub = none →
      Q true { state := (c.answered resp).connected (newStub url), inputs := inputs
               log := w.log ++ [.select resp.leader.clientUrls.length, .connect (newStub url)] }) :
    Meets connectLeader Q E w := by
  unfold connectLeader
  rw [meets_bind, meets_state, hw, flaggedMember_answered]
  split_ifs with hstub
  · rw [meets_bind, meets_modifyState, meets_bind, hw]
    refine selectRandomly_meets (fun e he hpicks => hstop e _ hstub he hpicks) fun url hurl picks => ?_
    rw [meets_bind, meets_modifyState, meets_bind, meets_emit, meets_pure, List.append_assoc]
    exact hnew _ url hurl rfl hstub
  · exact hheld hstub

/-- `get_pd_members_inner` uses the next answer about the members. -/
theorem askMembers_meets {s : Stub}
    {Q : Except Error ((OrdMap UInt64 PDServerInfo × PDServerInfo) × UInt64) → ClientSession → Prop}
    (hwait : w.inputs.members = [] → E .waiting w)
    (hdone : ∀ outcome rest, w.inputs.members = outcome :: rest → Q (getPdMembersInner outcome)
      { state := w.state, inputs := { w.inputs with members := rest }
        log := w.log ++ [.getMembers s outcome] }) :
    Meets (askMembers s) Q E w := by
  unfold askMembers
  rw [meets_bind]
  refine Meets.ask (fun hnext => hwait (Environment.pop_eq_none hnext)) fun outcome inputs hnext => ?_
  obtain ⟨rest, hmembers, rfl⟩ := Environment.pop_eq_some hnext
  exact meets_bind.mpr (meets_emit.mpr (meets_pure.mpr (hdone outcome rest hmembers)))

/-- `update_leader` stores an answer, and where there is no stub it makes one for the
leader of that answer. -/
theorem updateLeader_meets {s : Stub} {Q : Bool → ClientSession → Prop}
    (hwait : w.inputs.members = [] → E .waiting w)
    (hfail : ∀ err inputs, w.inputs.members = .error err :: inputs.members →
      Q false { state := w.state, inputs := inputs, log := w.log ++ [.getMembers s (.error err)] })
    (hheld : ∀ resp inputs, w.inputs.members = .ok resp :: inputs.members → w.state.leaderStub ≠ none →
      Q false { state := w.state.answered resp, inputs := inputs, log := w.log ++ [.getMembers s (.ok resp)] })
    (hstop : ∀ e resp inputs, .ok resp ∈ w.inputs.members → w.state.leaderStub = none →
      (e = .undefined → resp.leader.clientUrls = []) →
      E e { state := w.state.answered resp, inputs := inputs
            log := w.log ++ [.getMembers s (.ok resp), .select resp.leader.clientUrls.length] })
    (hnew : ∀ resp inputs, ∀ url ∈ resp.leader.clientUrls,
      w.inputs.members = .ok resp :: inputs.members → w.state.leaderStub = none →
      Q true { state := (w.state.answered resp).connected (newStub url), inputs := inputs
               log := w.log ++ [.getMembers s (.ok resp), .select resp.leader.clientUrls.length,
                 .connect (newStub url)] }) :
    Meets (updateLeader s) Q E w := by
  unfold updateLeader
  rw [meets_bind]
  refine askMembers_meets hwait fun outcome rest hmembers => ?_
  cases outcome with
  | error err => exact hfail err _ hmembers
  | ok resp =>
    refine meets_bind.mpr (meets_modifyState.mpr ?_)
    refine connectLeader_meets (c := w.state) rfl (hheld resp _ hmembers) ?_ ?_
    · intro e inputs' hstub he _
      rw [List.append_assoc]
      exact hstop e resp inputs' (by rw [hmembers]; exact List.mem_cons_self) hstub he
    · intro inputs' url hurl hinputs' hstub
      rw [List.append_assoc]
      exact hnew resp inputs' url hurl (hinputs' ▸ hmembers) hstub

/-- What the loop of `get_leader_stub` records while no member answers. -/
inductive Tried (c : PDClient) : Event → Prop
  | member : Tried c (.select c.members.size)
  | url {id : UInt64} {info : PDServerInfo} (h : c.members[id]? = some info) :
      Tried c (.select info.clientUrls.length)
  | failed {id : UInt64} {info : PDServerInfo} {url : Str} (err : Error) (h : c.members[id]? = some info)
      (hurl : url ∈ info.clientUrls) : Tried c (.getMembers (newStub url) (.error err))

/-- A range of the pool that has no element to pick. -/
def PoolGap (c : PDClient) : Prop :=
  c.members.size = 0 ∨ ∃ (id : UInt64) (info : PDServerInfo), c.members[id]? = some info ∧ info.clientUrls = []

/-- A session that has tried the members of `c` in vain since the record was `log`. -/
structure Trying (c : PDClient) (members : List (Except Error Pdpb.GetMembersResponse)) (log : List Event)
    (w : ClientSession) : Prop where
  state_eq : w.state = c.discarded
  members_suffix : w.inputs.members <:+ members
  log_eq : ∃ tries, w.log = log ++ .discard :: tries ∧ ∀ t ∈ tries, Tried c t

theorem Trying.emit {c : PDClient} {members : List (Except Error Pdpb.GetMembersResponse)} {log : List Event}
    (h : Trying c members log w) {t : Event} (ht : Tried c t) {inputs : Environment}
    (hinputs : inputs.members <:+ w.inputs.members) :
    Trying c members log { state := w.state, inputs := inputs, log := w.log ++ [t] } where
  state_eq := h.state_eq
  members_suffix := hinputs.trans h.members_suffix
  log_eq := by
    obtain ⟨tries, hlog, htries⟩ := h.log_eq
    exact ⟨tries ++ [t], by simp [hlog], forall_mem_snoc htries ht⟩

/-- A session that has stored the answer `resp`, the first one since then, and has no stub
for its leader yet. -/
structure Answered (c : PDClient) (members : List (Except Error Pdpb.GetMembersResponse)) (log : List Event)
    (resp : Pdpb.GetMembersResponse) (w : ClientSession) : Prop where
  state_eq : w.state = c.discarded.answered resp
  resp_mem : .ok resp ∈ members
  log_eq : ∃ tries s, (∀ t ∈ tries, Tried c t) ∧ w.log = log ++ .discard ::
    (tries ++ [.getMembers s (.ok resp), .select resp.leader.clientUrls.length])

/-- A session that has a stub for the leader of `resp`, the first answer since then. -/
structure Renewed (c : PDClient) (members : List (Except Error Pdpb.GetMembersResponse)) (log : List Event)
    (resp : Pdpb.GetMembersResponse) (url : Str) (w : ClientSession) : Prop where
  state_eq : w.state = (c.discarded.answered resp).connected (newStub url)
  url_mem : url ∈ resp.leader.clientUrls
  resp_mem : .ok resp ∈ members
  members_suffix : w.inputs.members <:+ members
  log_eq : ∃ tries s, (∀ t ∈ tries, Tried c t) ∧ w.log = log ++ .discard ::
    (tries ++ [.getMembers s (.ok resp), .select resp.leader.clientUrls.length, .connect (newStub url)])

section

variable {c : PDClient} {members : List (Except Error Pdpb.GetMembersResponse)} {log : List Event}

/-- A member is asked in vain, or its answer gives the stub. -/
theorem askMember_meets {Q : Unit → ClientSession → Prop} {id : UInt64}
    {info : PDServerInfo} {url : Str} (hget : c.members[id]? = some info) (hurl : url ∈ info.clientUrls)
    (hw : Trying c members log w) (hwait : E .waiting w)
    (hstop : ∀ e resp w', Answered c members log resp w' → (e = .undefined → resp.leader.clientUrls = []) →
      E e w')
    (hfail : ∀ w', Trying c members log w' → w'.inputs.members.length < w.inputs.members.length → Q () w')
    (hnew : ∀ resp url w', Renewed c members log resp url w' →
      w'.inputs.members.length < w.inputs.members.length → Q () w') :
    Meets (updateLeader (newStub url)) (fun _ w' => Q () w') E w := by
  obtain ⟨tries, hlog, htries⟩ := hw.log_eq
  refine updateLeader_meets (fun _ => hwait) ?_ ?_ ?_ ?_
  · intro err inputs hinputs
    have hsuffix : inputs.members <:+ w.inputs.members := by
      rw [hinputs]
      exact List.suffix_cons _ _
    refine hfail _ (hw.emit (.failed err hget hurl) hsuffix) ?_
    rw [hinputs]
    exact Nat.lt_succ_self _
  · -- the stub has been discarded
    intro resp inputs _ hstub
    rw [hw.state_eq] at hstub
    contradiction
  · intro e resp inputs hresp _ he
    refine hstop e resp _ ⟨by rw [hw.state_eq], hw.members_suffix.subset hresp, tries, newStub url, htries, ?_⟩ he
    rw [hlog, List.append_assoc, List.cons_append]
  · intro resp inputs url' hurl' hinputs _
    have hsuffix : inputs.members <:+ w.inputs.members := by
      rw [hinputs]
      exact List.suffix_cons _ _
    have hresp : .ok resp ∈ w.inputs.members := by
      rw [hinputs]
      exact List.mem_cons_self
    refine hnew resp url' _ ⟨by rw [hw.state_eq], hurl', hw.members_suffix.subset hresp,
      hsuffix.trans hw.members_suffix, tries, newStub url, htries, ?_⟩ ?_
    · rw [hlog, List.append_assoc, List.cons_append]
    · rw [hinputs]
      exact Nat.lt_succ_self _

/-- A round of the loop in `get_leader_stub`. -/
theorem tryMember_meets {Q : Unit → ClientSession → Prop} (hw : Trying c members log w)
    (htrying : ∀ e w', Trying c members log w' → (e = .undefined → c.PoolGap) → E e w')
    (hstop : ∀ e resp w', Answered c members log resp w' → (e = .undefined → resp.leader.clientUrls = []) →
      E e w')
    (hfail : ∀ w', Trying c members log w' → w'.inputs.members.length < w.inputs.members.length → Q () w')
    (hnew : ∀ resp url w', Renewed c members log resp url w' →
      w'.inputs.members.length < w.inputs.members.length → Q () w') :
    Meets tryMember Q E w := by
  unfold tryMember
  have hsize : c.discarded.members.toList.length = c.members.size := Std.ExtTreeMap.length_toList
  have hleft : ∀ (w : ClientSession) picks,
      ({ w.inputs with picks := picks } : Environment).members <:+ w.inputs.members :=
    fun _ _ => List.suffix_rfl
  rw [meets_bind, meets_state, meets_bind, hw.state_eq]
  refine selectRandomly_meets (fun e he _ => ?_) fun member hmember picks₁ => ?_
  · rw [hsize]
    refine htrying e _ (hw.emit .member List.suffix_rfl) fun hundef => .inl ?_
    rw [← hsize, he hundef, List.length_nil]
  have hget : c.members[member.1]? = some member.2 := Std.ExtTreeMap.mem_toList_iff_getElem?_eq_some.mp hmember
  have hw₁ := hw.emit .member (hleft w picks₁)
  rw [hsize, meets_bind]
  refine selectRandomly_meets (fun e he _ => ?_) fun url hurl picks₂ => ?_
  · exact htrying e _ (hw₁.emit (.url hget) List.suffix_rfl) fun hundef => .inr ⟨_, _, hget, he hundef⟩
  have hw₂ := hw₁.emit (.url hget) (hleft _ picks₂)
  rw [meets_bind]
  exact askMember_meets hget hurl hw₂ (htrying .waiting _ hw₂ (by simp)) hstop hfail hnew

end

/-- `get_leader_stub` gives the stub there is, or tries members until one answers. -/
theorem getLeaderStub_meets {force : Bool} {Q : Option Stub → ClientSession → Prop}
    (hheld : ∀ s, w.state.leaderStub = some s → force = false → Q (some s) w)
    (htrying : ∀ e w', (w.state.leaderStub = none ∨ force = true) →
      Trying w.state w.inputs.members w.log w' → (e = .undefined → w.state.PoolGap) → E e w')
    (hstop : ∀ e resp w', (w.state.leaderStub = none ∨ force = true) →
      Answered w.state w.inputs.members w.log resp w' → (e = .undefined → resp.leader.clientUrls = []) → E e w')
    (hnew : ∀ resp url w', (w.state.leaderStub = none ∨ force = true) →
      Renewed w.state w.inputs.members w.log resp url w' → Q (some (newStub url)) w') :
    Meets (getLeaderStub force) Q E w := by
  unfold getLeaderStub
  rw [meets_bind, meets_state]
  split_ifs with hrefresh
  · have hcond : w.state.leaderStub = none ∨ force = true := by
      simpa using hrefresh
    rw [meets_bind, meets_modifyState, meets_bind, meets_emit, meets_bind]
    have hstart : Trying w.state w.inputs.members w.log
        { state := w.state.discarded, inputs := w.inputs, log := w.log ++ [.discard] } :=
      ⟨rfl, List.suffix_rfl, [], by simp, by simp⟩
    refine Meets.loop (I := Trying w.state w.inputs.members w.log) (fun w' hw' => ?_) hstart
    refine tryMember_meets hw' (fun e w'' => htrying e w'' hcond) (fun e resp w'' => hstop e resp w'' hcond) ?_ ?_
    · intro w'' hw'' hlt
      refine ⟨hlt, ?_⟩
      rw [hw''.state_eq]
      exact hw''
    · intro resp url w'' hw'' hlt
      refine ⟨hlt, ?_⟩
      rw [if_neg (by simp [hw''.state_eq, connected]), meets_bind, meets_state, meets_pure]
      have hstub : w''.state.leaderStub = some (newStub url) := by rw [hw''.state_eq]; rfl
      rw [hstub]
      exact hnew resp url w'' hcond hw''
  · simp only [Bool.or_eq_true, not_or, Bool.not_eq_true, Option.isNone_eq_false_iff] at hrefresh
    obtain ⟨s, hs⟩ := Option.isSome_iff_exists.mp hrefresh.1
    rw [meets_pure, hs]
    exact hheld s hs hrefresh.2

/-! ### Answers left for the queries -/

/-- The answers that only queries use. -/
def Environment.queries (env : Environment) : List (Except Error Pdpb.GetRegionResponse) ×
    List (Except Error Pdpb.GetStoreResponse) × List (Except Error Pdpb.GetAllStoresResponse) :=
  (env.regions, env.stores, env.allStores)

theorem selectRandomly_queries (range : List α) :
    Meets (selectRandomly range) (fun _ w' => w'.inputs.members = w.inputs.members ∧
      w'.inputs.queries = w.inputs.queries) (fun _ _ => True) w :=
  selectRandomly_meets (fun _ _ _ => trivial) fun _ _ _ => ⟨rfl, rfl⟩

theorem connectLeader_queries :
    Meets connectLeader (fun _ w' => w'.inputs.members = w.inputs.members ∧
      w'.inputs.queries = w.inputs.queries) (fun _ _ => True) w := by
  unfold connectLeader
  rw [meets_bind, meets_state]
  cases flaggedMember w.state with
  | none => exact ⟨rfl, rfl⟩
  | some it =>
    refine meets_bind.mpr (meets_modifyState.mpr (meets_bind.mpr ?_))
    refine (selectRandomly_queries it.2.clientUrls).mono (fun addr w' hw' => ?_) fun _ _ _ => trivial
    exact meets_bind.mpr (meets_modifyState.mpr (meets_bind.mpr (meets_emit.mpr (meets_pure.mpr hw'))))

/-- An update takes one answer about the members and none for a query. -/
theorem updateLeader_queries (s : Stub) :
    Meets (updateLeader s) (fun _ w' => w'.inputs.members.length < w.inputs.members.length ∧
      w'.inputs.queries = w.inputs.queries) (fun _ _ => True) w := by
  unfold updateLeader
  rw [meets_bind]
  refine askMembers_meets (fun _ => trivial) fun outcome rest hmembers => ?_
  have hlt : rest.length < w.inputs.members.length := by
    rw [hmembers]
    exact Nat.lt_succ_self _
  cases outcome with
  | error err => exact ⟨hlt, rfl⟩
  | ok resp =>
    refine meets_bind.mpr (meets_modifyState.mpr (connectLeader_queries.mono (fun _ w' hw' => ?_) fun _ _ _ => trivial))
    refine ⟨?_, hw'.2⟩
    rw [hw'.1]
    exact hlt

theorem tryMember_queries :
    Meets tryMember (fun _ w' => w'.inputs.members.length < w.inputs.members.length ∧
      w'.inputs.queries = w.inputs.queries) (fun _ _ => True) w := by
  unfold tryMember
  rw [meets_bind, meets_state, meets_bind]
  refine (selectRandomly_queries w.state.members.toList).mono (fun member w₁ hw₁ => ?_) fun _ _ => id
  rw [meets_bind]
  refine (selectRandomly_queries member.2.clientUrls).mono (fun addr w₂ hw₂ => ?_) fun _ _ => id
  rw [meets_bind]
  refine (updateLeader_queries (newStub addr)).mono (fun _ w₃ hw₃ => meets_pure.mpr ?_) fun _ _ => id
  rw [← hw₁.1, ← hw₁.2, ← hw₂.1, ← hw₂.2]
  exact hw₃

/-- The search for the leader leaves the answers to the queries. -/
theorem getLeaderStub_queries (force : Bool) :
    Meets (getLeaderStub force) (fun _ w' => w'.inputs.queries = w.inputs.queries) (fun _ _ => True) w := by
  unfold getLeaderStub
  rw [meets_bind, meets_state]
  split_ifs
  · rw [meets_bind, meets_modifyState, meets_bind, meets_emit, meets_bind]
    refine Meets.loop (I := fun w' => w'.inputs.queries = w.inputs.queries) (fun w' hw' => ?_) rfl
    refine tryMember_queries.mono (fun _ w'' hw'' => ⟨hw''.1, ?_⟩) fun _ _ => id
    have hqueries : w''.inputs.queries = w.inputs.queries := hw''.2.trans hw'
    split_ifs
    · exact hqueries
    · exact meets_bind.mpr (meets_state.mpr (meets_pure.mpr hqueries))
  · exact meets_pure.mpr rfl

/-! ### Queries -/

/-- A query on a stub: it has none, or it is sent, and it returns once it is answered. -/
def SendsOnce {β : Type} (inner : Option Stub → ClientM (Except Error β)) : Prop :=
  ∀ (stub : Option Stub) (w : ClientSession)
    (Q : Except Error β → ClientSession → Prop)
    (E : Stop → ClientSession → Prop),
    (stub = none → E .undefined w) →
    (∀ s req, stub = some s → E .waiting { w with log := w.log ++ [.send s req] }) →
    (∀ s req inputs r, stub = some s → inputs.members = w.inputs.members →
      Q r { state := w.state, inputs := inputs, log := w.log ++ [.send s req, .status r.isOk] }) →
    Meets (inner stub) Q E w

theorem query_meets {β : Type} {stub : Option Stub} {req : UInt64 → Request}
    {take : Environment → Option (Except Error β × Environment)}
    {Q : Except Error β → ClientSession → Prop} (hnull : stub = none → E .undefined w)
    (hwait : ∀ s, stub = some s → take w.inputs = none →
      E .waiting { w with log := w.log ++ [.send s (req w.state.clusterId)] })
    (hdone : ∀ s inputs outcome, stub = some s → take w.inputs = some (outcome, inputs) → Q outcome
      { state := w.state, inputs := inputs
        log := w.log ++ [.send s (req w.state.clusterId), .status outcome.isOk] }) :
    Meets (query stub req take) Q E w := by
  unfold query
  rw [meets_bind, meets_state]
  cases stub with
  | none => exact meets_stop.mpr (hnull rfl)
  | some s =>
    refine meets_bind.mpr (meets_emit.mpr (meets_bind.mpr ?_))
    refine Meets.ask (hwait s rfl) fun outcome inputs hnext => ?_
    rw [meets_bind, meets_emit, meets_pure, List.append_assoc]
    exact hdone s inputs outcome rfl hnext

/-- A query whose answer is converted to `v`. -/
theorem sendsOnce_convert {β γ : Type} {req : UInt64 → Request}
    {take : Environment → Option (Except Error β × Environment)} (v : β → γ)
    (htake : ∀ env a env', take env = some (a, env') → env'.members = env.members) :
    SendsOnce fun stub => query stub req take >>= fun rpc => pure (rpc.map v) := by
  intro stub w Q E hnull hwait hdone
  rw [meets_bind]
  refine query_meets hnull (fun s hs _ => hwait s _ hs) fun s inputs outcome hs hnext => ?_
  have hinputs := htake _ _ _ hnext
  cases outcome with
  | error err => exact meets_pure.mpr (hdone s _ inputs (.error err) hs hinputs)
  | ok resp => exact meets_pure.mpr (hdone s _ inputs (.ok (v resp)) hs hinputs)

theorem sendsOnce_askRegion (key : Str) : SendsOnce (askRegion key) :=
  sendsOnce_convert parseGetRegionResult fun _ _ _ h => pop_members h fun _ => rfl

theorem sendsOnce_askRegionById (regionId : UInt64) : SendsOnce (askRegionById regionId) :=
  sendsOnce_convert parseGetRegionResult fun _ _ _ h => pop_members h fun _ => rfl

theorem sendsOnce_askStoreById (storeId : UInt64) : SendsOnce (askStoreById storeId) :=
  sendsOnce_convert (fun resp : Pdpb.GetStoreResponse => convertFromPb resp.store {}) fun _ _ _ h => pop_members h fun _ => rfl

theorem sendsOnce_askAllStores : SendsOnce askAllStores :=
  sendsOnce_convert (fun resp : Pdpb.GetAllStoresResponse => resp.stores.map fun it => convertFromPb it {})
    fun _ _ _ h => pop_members h fun _ => rfl

/-! ### What all calls keep -/

section

variable {β : Type} {J : ClientSession → Prop}

/-- A condition that no query breaks. -/
def QueryProof (J : ClientSession → Prop) : Prop :=
  ∀ (w : ClientSession) (inputs : Environment) (queries : List Event), J w →
    inputs.members = w.inputs.members → (∀ t ∈ queries, t.isQuery = true) →
    J { state := w.state, inputs := inputs, log := w.log ++ queries }

theorem sendsOnce_keeps {inner : Option Stub → ClientM (Except Error β)} (h : SendsOnce inner)
    (hJ : QueryProof J) (hE : ∀ e w, J w → E e w) (hw : J w) (stub : Option Stub) :
    Meets (inner stub) (fun _ w' => J w') E w := by
  refine h stub w _ _ (fun _ => hE _ _ hw) ?_ ?_
  · intro s req _
    exact hE _ _ (hJ w w.inputs _ hw rfl (by simp [Event.isQuery]))
  · intro s req inputs r _ hinputs
    exact hJ w inputs _ hw hinputs (by simp [Event.isQuery])

/-- What neither the search for the leader nor a query breaks, no retry breaks. -/
theorem withRetry_keeps {inner : Option Stub → ClientM (Except Error β)} {force : Bool} (h : SendsOnce inner)
    (hJ : QueryProof J) (hE : ∀ e w, J w → E e w)
    (hstub : ∀ force w, J w → Meets (getLeaderStub force) (fun _ w' => J w') E w) (hw : J w) :
    Meets (withRetry force inner) (fun _ w' => J w') E w := by
  unfold withRetry queryTwice
  rw [meets_bind]
  refine (hstub false w hw).mono (fun stub w₁ hw₁ => ?_) fun _ _ => id
  rw [meets_bind]
  refine (sendsOnce_keeps h hJ hE hw₁ stub).mono (fun r w₂ hw₂ => ?_) fun _ _ => id
  cases r with
  | ok b => exact meets_pure.mpr hw₂
  | error err =>
    refine meets_bind.mpr ((hstub force w₂ hw₂).mono (fun stub' w₃ hw₃ => ?_) fun _ _ => id)
    exact sendsOnce_keeps h hJ hE hw₃ stub'

/-- Nor does a call other than `init`. -/
theorem exec_keeps {call : Call} (hcall : ∀ pdaddr, call ≠ .init pdaddr) (hJ : QueryProof J)
    (hE : ∀ e w, J w → E e w)
    (hstub : ∀ force w, J w → Meets (getLeaderStub force) (fun _ w' => J w') E w) (hw : J w) :
    Meets call.exec (fun _ w' => J w') E w := by
  cases call with
  | init pdaddr => exact absurd rfl (hcall pdaddr)
  | getRegion key => exact meets_bind.mpr (withRetry_keeps (sendsOnce_askRegion key) hJ hE hstub hw)
  | getRegionById regionId =>
    exact meets_bind.mpr (withRetry_keeps (sendsOnce_askRegionById regionId) hJ hE hstub hw)
  | getStoreById storeId => exact meets_bind.mpr (withRetry_keeps (sendsOnce_askStoreById storeId) hJ hE hstub hw)
  | getAllStores => exact meets_bind.mpr (withRetry_keeps sendsOnce_askAllStores hJ hE hstub hw)

end

/-! ### An example -/

/-- PD with one member, which leads. -/
def ledBy (memberId : UInt64) (url : Str) : Pdpb.GetMembersResponse where
  header := { clusterId := 6 }
  members := [{ memberId := memberId, clientUrls := [url] }]
  leader := { memberId := memberId, clientUrls := [url] }

/-- `pd://a` -/
def urlA : Str := [0x70, 0x64, 0x3a, 0x2f, 0x2f, 0x61]

/-- `pd://b` -/
def urlB : Str := [0x70, 0x64, 0x3a, 0x2f, 0x2f, 0x62]

/-- The constructor, when PD at `pd://a` is led by its member at `pd://b`. -/
def constructed : Call × Environment := (.init urlA, { picks := [0], members := [.ok (ledBy 1 urlB)] })

/-- The client it gives. -/
def clientOfB : PDClient := ((fresh 0).answered (ledBy 1 urlB)).connected (newStub urlB)

theorem step_constructed : step (fresh 0) constructed = some clientOfB := rfl

end TikvCpp.PDClient
