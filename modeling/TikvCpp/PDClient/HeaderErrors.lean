import TikvCpp.PDClient.Refresh

/-! Errors in the headers of PD's answers. Only the status of an RPC makes it fail: no
handler reads the error that the header of an answer carries. An answer with an error is
taken as any other one, and each call does the same on answers without the errors. -/

namespace TikvCpp.PDClient

open Data Transition Transition.Program

/-! ### Answers without their errors -/

def withoutError (header : Pdpb.ResponseHeader) : Pdpb.ResponseHeader := { header with error := {} }

def clearMembers (o : Except Error Pdpb.GetMembersResponse) : Except Error Pdpb.GetMembersResponse :=
  o.map fun resp => { resp with header := withoutError resp.header }

def clearRegion (o : Except Error Pdpb.GetRegionResponse) : Except Error Pdpb.GetRegionResponse :=
  o.map fun resp => { resp with header := withoutError resp.header }

def clearStore (o : Except Error Pdpb.GetStoreResponse) : Except Error Pdpb.GetStoreResponse :=
  o.map fun resp => { resp with header := withoutError resp.header }

def clearAllStores (o : Except Error Pdpb.GetAllStoresResponse) : Except Error Pdpb.GetAllStoresResponse :=
  o.map fun resp => { resp with header := withoutError resp.header }

def Environment.clear (env : Environment) : Environment where
  picks := env.picks
  members := env.members.map clearMembers
  regions := env.regions.map clearRegion
  stores := env.stores.map clearStore
  allStores := env.allStores.map clearAllStores

def Event.clear : Event → Event
  | .getMembers stub outcome => .getMembers stub (clearMembers outcome)
  | .select n => .select n
  | .discard => .discard
  | .connect s => .connect s
  | .send s req => .send s req
  | .status ok => .status ok

section

variable {α β : Type}

/-- A program that does not look at the errors in headers. -/
abbrev Blind (h : α → α) (p : ClientM α) : Prop := Mirrors Environment.clear Event.clear h p p

theorem pop_clear {answers : List α} {left : List α → Environment} {h : α → α}
    {left' : List α → Environment} (hleft : ∀ rest, left' (rest.map h) = (left rest).clear) :
    Environment.pop (answers.map h) left' =
      (Environment.pop answers left).map (Prod.map h Environment.clear) := by
  cases answers with
  | nil => rfl
  | cons a rest =>
    show some (h a, left' (rest.map h)) = some (h a, (left rest).clear)
    rw [hleft]

theorem selectRandomly_blind (range : List α) : Blind id (selectRandomly range) := by
  unfold selectRandomly
  refine (mirrors_emit _).bind fun _ => ?_
  split_ifs
  · refine (mirrors_ask fun env => ?_).bind fun n => mirrors_pure _
    show env.clear.nextPick = _
    unfold Environment.nextPick
    cases hpicks : env.picks with
    | nil => simp [Environment.clear, Environment.pop, hpicks]
    | cons n rest => simp [Environment.clear, Environment.pop, hpicks]
  · exact mirrors_stop _

theorem getPdMembersInner_clear (o : Except Error Pdpb.GetMembersResponse) :
    getPdMembersInner (clearMembers o) = getPdMembersInner o := by
  cases o <;> rfl

theorem askMembers_blind (stub : Stub) : Blind id (askMembers stub) := by
  unfold askMembers
  refine (mirrors_ask (h := clearMembers) fun env => ?_).bind fun o => ?_
  · exact pop_clear fun _ => rfl
  · refine (mirrors_emit (Event.getMembers stub o)).bind fun _ => ?_
    rw [getPdMembersInner_clear]
    exact mirrors_pure _

theorem connectLeader_blind : Blind id connectLeader := by
  unfold connectLeader
  refine mirrors_state.bind fun c => ?_
  rw [id]
  cases flaggedMember c with
  | none => exact mirrors_pure _
  | some it =>
    refine (mirrors_modifyState _).bind fun _ => (selectRandomly_blind _).bind fun addr => ?_
    exact (mirrors_modifyState _).bind fun _ => (mirrors_emit _).bind fun _ => mirrors_pure _

theorem updateLeader_blind (stub : Stub) : Blind id (updateLeader stub) := by
  unfold updateLeader
  refine (askMembers_blind stub).bind fun r => ?_
  cases r with
  | error err => exact mirrors_pure _
  | ok r => exact (mirrors_modifyState _).bind fun _ => connectLeader_blind

theorem tryMember_blind : Blind id tryMember := by
  unfold tryMember
  refine mirrors_state.bind fun c => (selectRandomly_blind _).bind fun member => ?_
  exact (selectRandomly_blind _).bind fun addr => (updateLeader_blind _).bind fun _ => mirrors_pure _

theorem getLeaderStub_blind (force : Bool) : Blind id (getLeaderStub force) := by
  unfold getLeaderStub
  refine mirrors_state.bind fun c => ?_
  show Blind id (if (c.leaderStub.isNone || force) = true then _ else _)
  split_ifs
  · refine (mirrors_modifyState _).bind fun _ => (mirrors_emit _).bind fun _ => ?_
    refine (Mirrors.loop (fun env => ?_) tryMember_blind).bind fun _ => mirrors_state.bind fun c => mirrors_pure _
    exact List.length_map _
  · exact mirrors_pure _

theorem query_blind {stub : Option Stub} {req : UInt64 → Request}
    {take : Environment → Option (Except Error β × Environment)} {h : Except Error β → Except Error β}
    (htake : ∀ env, take env.clear = (take env).map (Prod.map h Environment.clear))
    (hok : ∀ o, (h o).isOk = o.isOk) : Blind h (query stub req take) := by
  unfold query
  refine mirrors_state.bind fun c => ?_
  cases stub with
  | none => exact mirrors_stop _
  | some s =>
    refine (mirrors_emit _).bind fun _ => (mirrors_ask htake).bind fun o => ?_
    rw [hok]
    exact (mirrors_emit _).bind fun _ => mirrors_pure _

/-- A query whose answer is converted without its header. -/
theorem convert_blind {ρ : Type} {stub : Option Stub} {req : UInt64 → Request}
    {take : Environment → Option (Except Error ρ × Environment)} {f : Except Error ρ → Except Error β}
    {h : Except Error ρ → Except Error ρ}
    (htake : ∀ env, take env.clear = (take env).map (Prod.map h Environment.clear))
    (hok : ∀ o, (h o).isOk = o.isOk) (hf : ∀ o, f (h o) = f o) :
    Blind id (query stub req take >>= fun rpc => pure (f rpc)) := by
  refine (query_blind htake hok).bind fun rpc => ?_
  rw [hf]
  exact mirrors_pure _

theorem askRegion_blind (key : Str) (stub : Option Stub) : Blind id (askRegion key stub) :=
  convert_blind (h := clearRegion) (fun _ => pop_clear fun _ => rfl) (fun o => by cases o <;> rfl)
    fun o => by cases o <;> rfl

theorem askRegionById_blind (regionId : UInt64) (stub : Option Stub) : Blind id (askRegionById regionId stub) :=
  convert_blind (h := clearRegion) (fun _ => pop_clear fun _ => rfl) (fun o => by cases o <;> rfl)
    fun o => by cases o <;> rfl

theorem askStoreById_blind (storeId : UInt64) (stub : Option Stub) : Blind id (askStoreById storeId stub) :=
  convert_blind (h := clearStore) (fun _ => pop_clear fun _ => rfl) (fun o => by cases o <;> rfl)
    fun o => by cases o <;> rfl

theorem askAllStores_blind (stub : Option Stub) : Blind id (askAllStores stub) :=
  convert_blind (h := clearAllStores) (fun _ => pop_clear fun _ => rfl) (fun o => by cases o <;> rfl)
    fun o => by cases o <;> rfl

theorem withRetry_blind {inner : Option Stub → ClientM (Except Error β)} (force : Bool)
    (h : ∀ stub, Blind id (inner stub)) : Blind id (withRetry force inner) := by
  unfold withRetry queryTwice
  refine (getLeaderStub_blind false).bind fun stub => (h stub).bind fun r => ?_
  cases r with
  | ok b => exact mirrors_pure _
  | error err => exact (getLeaderStub_blind force).bind h

end

theorem exec_blind (call : Call) : Blind id call.exec := by
  cases call with
  | init pdaddr => exact (updateLeader_blind _).bind fun _ => mirrors_pure _
  | getRegion key => exact (withRetry_blind true (askRegion_blind key)).bind fun _ => mirrors_pure _
  | getRegionById regionId =>
    exact (withRetry_blind false (askRegionById_blind regionId)).bind fun _ => mirrors_pure _
  | getStoreById storeId => exact (withRetry_blind true (askStoreById_blind storeId)).bind fun _ => mirrors_pure _
  | getAllStores => exact (withRetry_blind true askAllStores_blind).bind fun _ => mirrors_pure _

/-! ### Answers with errors -/

/-- What a query comes to when its RPC is answered by a message of value `b`. -/
def Taken {β : Type} (w : ClientSession) (inputs : Environment) (s : Stub) (req : Request) (b : β) :
    EStateM.Result Stop ClientSession (Except Error β) :=
  .ok (.ok b) { state := w.state, inputs := inputs, log := w.log ++ [.send s req, .status true] }

/-- A query on an answer with OK status, whatever its header: the value is made of the
contents, and there is no second RPC. -/
def TakesAnswers {β ρ : Type} (inner : Option Stub → ClientM (Except Error β))
    (take : Environment → Option (Except Error ρ × Environment)) (value : ρ → β) : Prop :=
  ∀ (w : ClientSession) (s : Stub) (resp : ρ) (inputs : Environment),
    take w.inputs = some (.ok resp, inputs) → ∃ req, inner (some s) w = Taken w inputs s req (value resp) ∧
      ∀ force, queryTwice force inner (some s) w = Taken w inputs s req (value resp)

theorem query_answered {ρ : Type} {w : ClientSession} {s : Stub} {req : UInt64 → Request} {resp : ρ}
    {take : Environment → Option (Except Error ρ × Environment)} {inputs : Environment}
    (hnext : take w.inputs = some (.ok resp, inputs)) :
    query (some s) req take w = Taken w inputs s (req w.state.clusterId) resp := by
  have hmeets : Meets (query (some s) req take) (fun r w' => r = .ok resp ∧ w' =
      { state := w.state, inputs := inputs, log := w.log ++ [.send s (req w.state.clusterId), .status true] })
      (fun _ _ => False) w := by
    refine query_meets (by simp) (fun _ _ hnone => ?_) fun s' inputs' outcome hs hsome => ?_
    · rw [hnext] at hnone
      contradiction
    · obtain rfl := Option.some.inj hs
      obtain ⟨rfl, rfl⟩ := Prod.mk.inj (Option.some.inj (hnext.symm.trans hsome))
      exact ⟨rfl, rfl⟩
  obtain ⟨r, w', hrun, rfl, rfl⟩ := hmeets.exists_ok
  exact hrun

theorem takesAnswers_convert {β ρ : Type} {req : UInt64 → Request}
    (take : Environment → Option (Except Error ρ × Environment)) (value : ρ → β) :
    TakesAnswers (fun stub => query stub req take >>= fun rpc => pure (rpc.map value)) take value := by
  intro w s resp inputs hnext
  have hinner : (query (some s) req take >>= fun rpc => pure (rpc.map value)) w =
      Taken w inputs s (req w.state.clusterId) (value resp) := by
    show EStateM.bind _ _ w = _
    unfold EStateM.bind
    rw [query_answered hnext]
    rfl
  refine ⟨req w.state.clusterId, hinner, fun force => ?_⟩
  show EStateM.bind _ _ w = _
  unfold EStateM.bind
  rw [hinner]
  rfl

/-- `update_leader` on an answer, whatever its header: the answer is stored. A stub that is held
stays; where none is, one is made for an address of the leader, and only the pick of that address
can stop the call: the leader has none, or the random numbers have run out. -/
def StoresAnswers : Prop :=
  ∀ (w : ClientSession) (s : Stub) (resp : Pdpb.GetMembersResponse) (inputs : Environment),
    w.inputs.nextMembers = some (.ok resp, inputs) →
      (w.state.leaderStub ≠ none →
        Meets (updateLeader s) (fun _ w' => w'.state = w.state.answered resp) (fun _ _ => False) w) ∧
      (w.state.leaderStub = none →
        Meets (updateLeader s)
          (fun _ w' => ∃ url ∈ resp.leader.clientUrls, w'.state = (w.state.answered resp).connected (newStub url))
          (fun e w' => w'.state = w.state.answered resp ∧ (e = .undefined → resp.leader.clientUrls = []) ∧
            (e = .waiting → w.inputs.picks = [])) w)

theorem storesAnswers : StoresAnswers := by
  intro w s resp inputs hnext
  have hmembers := nextMembers_eq_some hnext
  constructor
  · intro hheld
    unfold updateLeader
    rw [meets_bind]
    refine askMembers_next hmembers (meets_bind.mpr (meets_modifyState.mpr ?_))
    exact connectLeader_meets (c := w.state) rfl (fun _ => rfl) (fun _ _ hnone => absurd hnone hheld)
      fun _ _ _ _ hnone => absurd hnone hheld
  · intro hnone
    unfold updateLeader
    rw [meets_bind]
    refine askMembers_next hmembers (meets_bind.mpr (meets_modifyState.mpr ?_))
    exact connectLeader_meets (c := w.state) rfl (absurd hnone) (fun _ _ _ hempty hpicks => ⟨rfl, hempty, hpicks⟩)
      fun _ url hurl _ _ => ⟨url, hurl, rfl⟩

/-- An answer with OK status is taken for what its contents say, whatever error its header
carries: a query makes its value of it and is not sent again, and `update_leader` stores it.
Without the errors in their headers the answers lead each call to the same result, client
and record. -/
theorem header_errors_ignored :
    (∀ key, TakesAnswers (askRegion key) Environment.nextRegion parseGetRegionResult) ∧
      (∀ regionId, TakesAnswers (askRegionById regionId) Environment.nextRegion parseGetRegionResult) ∧
      (∀ storeId, TakesAnswers (askStoreById storeId) Environment.nextStore
        fun resp => convertFromPb resp.store {}) ∧
      TakesAnswers askAllStores Environment.nextAllStores (fun resp => resp.stores.map fun it => convertFromPb it {}) ∧
      StoresAnswers ∧
      ∀ (c : PDClient) (call : Call) (env : Environment), c.perform call env.clear =
        changeResult Environment.clear Event.clear id (c.perform call env) := by
  refine ⟨fun key => ?_, fun regionId => ?_, fun storeId => ?_, ?_, storesAnswers, fun c call env => ?_⟩
  · exact takesAnswers_convert Environment.nextRegion parseGetRegionResult
  · exact takesAnswers_convert Environment.nextRegion parseGetRegionResult
  · exact takesAnswers_convert Environment.nextStore fun resp => convertFromPb resp.store {}
  · exact takesAnswers_convert Environment.nextAllStores fun resp => resp.stores.map fun it => convertFromPb it {}
  · exact exec_blind call { state := c, inputs := env }

/-- PD does not know the store, and says so in the header only. -/
def tombstone : Pdpb.GetStoreResponse where
  header := { clusterId := 6, error := { type := .storeTombstone } }

/-- A PD that has no cluster yet, and says so in the header only. -/
def bootless : Pdpb.GetMembersResponse where
  header := { error := { type := .notBootstrapped } }

/-- The store that is not there is returned as a store without an address, after one RPC, and
the PD without a cluster leaves the client without one, led by the member 0. -/
theorem header_errors_taken :
    tombstone.header.error.type ≠ .ok ∧ bootless.header.error.type ≠ .ok ∧
      clientOfB.perform (.getStoreById 4) { stores := [.ok tombstone] } = .ok (.store (.ok { state := .up }))
        { state := clientOfB, inputs := {}, log := [.send (newStub urlB) (.getStore 6 4), .status true] } ∧
      step clientOfB (.init urlA, { members := [.ok bootless] }) = some (clientOfB.answered bootless) ∧
      (clientOfB.answered bootless).leader.id = 0 ∧ (clientOfB.answered bootless).clusterId = 0 :=
  ⟨by simp [tombstone], by simp [bootless], rfl, rfl, rfl, rfl⟩

end TikvCpp.PDClient
