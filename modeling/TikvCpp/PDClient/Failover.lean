import TikvCpp.PDClient.Rules

/-! The failover of the four queries. After a failed first RPC the stub is to be dropped and
PD asked who leads before the query is sent again. Three of the queries do so in every
state and for every outcome of their RPCs. `get_region_by_id` does not: its second
`get_leader_stub` is not forced, so it sends again on the stub that has just failed. -/

namespace TikvCpp.PDClient

open Data Transition Transition.Program

/-- What a call did after its first RPC had failed; nothing if that RPC did not fail. -/
def afterFailure : List Event → Option (List Event)
  | [] => none
  | .status ok :: rest => if ok then none else some rest
  | .select _ :: rest | .discard :: rest | .getMembers _ _ :: rest | .connect _ :: rest | .send _ _ :: rest =>
    afterFailure rest

/-- The stub was dropped, then PD answered who leads, then `s` was made for that leader. -/
def Renewal (log : List Event) (s : Stub) : Prop :=
  ∃ (dropped asked made : List Event) (t : Stub) (resp : Pdpb.GetMembersResponse),
    log = dropped ++ .discard :: (asked ++ .getMembers t (.ok resp) :: made) ∧ .connect s ∈ made ∧
      ∃ url ∈ resp.leader.clientUrls, s = newStub url

/-- What a call is to do once its first RPC has failed, where `log` is what it did since,
`stub` the one it leaves and `err` whether it returned an error. -/
structure Failover (log : List Event) (stub : Option Stub) (err : Bool) : Prop where
  /-- the query is sent again on a renewed stub only -/
  resent : ∀ mid s req post, log = mid ++ .send s req :: post → Renewal mid s
  /-- it returns an error only if the leader named since has failed too -/
  failed : err = true → ∃ mid s req, log = mid ++ [.send s req, .status false] ∧ Renewal mid s
  /-- it leaves no stub but a renewed one -/
  bound : ∀ s, stub = some s → Renewal log s
  /-- the first member to answer is the last to be asked -/
  settled : ∀ mid t resp post, log = mid ++ .getMembers t (.ok resp) :: post →
    ∀ t' outcome, .getMembers t' outcome ∉ post

/-- A session whose call has failed over as it should, `err` telling how it ended. -/
def FailedOver (err : Bool) (w : ClientSession) : Prop :=
  ∀ log, afterFailure w.log = some log → Failover log w.state.leaderStub err

/-- An error is to answer the next query for a region. -/
def ErrorNext (w : ClientSession) : Prop := ∃ err rest, w.inputs.regions = .error err :: rest

/-- The first RPC of a `get_region_by_id` fails: where `get_leader_stub` gives a stub an
error comes next. -/
def FirstFails (c : PDClient) (env : Environment) : Prop :=
  Meets (getLeaderStub false) (fun _ w => ErrorNext w) (fun _ _ => False) { state := c, inputs := env }

theorem Renewal.append {log : List Event} {s : Stub} (h : Renewal log s) (tail : List Event) :
    Renewal (log ++ tail) s := by
  obtain ⟨dropped, asked, made, t, resp, rfl, hmade, hurl⟩ := h
  exact ⟨dropped, asked, made ++ tail, t, resp, by simp, List.mem_append_left _ hmade, hurl⟩

/-- A record without a query. -/
def Quiet (log : List Event) : Prop := ∀ t ∈ log, t.isQuery = false

theorem afterFailure_quiet {log : List Event} (h : Quiet log) (tail : List Event) :
    afterFailure (log ++ tail) = afterFailure tail := by
  induction log with
  | nil => rfl
  | cons t log ih =>
    have ih := ih fun t ht => h t (List.mem_cons_of_mem _ ht)
    have ht := h t List.mem_cons_self
    cases t <;> first | exact ih | contradiction

theorem Tried.quiet {c : PDClient} {t : Event} (h : Tried c t) : t.isQuery = false := by
  cases h <;> rfl

theorem Tried.not_answered {c : PDClient} {s : Stub} {resp : Pdpb.GetMembersResponse} :
    ¬ Tried c (.getMembers s (.ok resp)) := by
  intro h
  cases h

theorem quiet_tries {c : PDClient} {tries : List Event} (h : ∀ t ∈ tries, Tried c t) :
    Quiet (.discard :: tries) := by
  intro t ht
  rcases List.mem_cons.mp ht with rfl | ht
  · rfl
  · exact (h t ht).quiet

/-- The one event of its kind in a record is where any such event is found. -/
theorem eq_of_first {pre mid tail post : List Event} {a b : Event} {P : Event → Prop} (ha : P b)
    (hpre : ∀ t ∈ pre, ¬ P t) (htail : ∀ t ∈ tail, ¬ P t) (h : pre ++ a :: tail = mid ++ b :: post) :
    mid = pre ∧ a = b ∧ tail = post := by
  rcases append_cons_eq_append_cons h with hsame | ⟨m, _, rfl⟩ | ⟨m, rfl, _⟩
  · exact ⟨hsame.1.symm, hsame.2⟩
  · exact absurd ha (htail b (by simp))
  · exact absurd ha (hpre b (by simp))

/-! ### Forced refreshes -/

section

variable {c : PDClient} {tries : List Event} {stub : Option Stub}

/-- No member has answered yet. -/
theorem failover_trying (h : ∀ t ∈ tries, Tried c t) : Failover (.discard :: tries) none false where
  resent mid s req post heq := by
    have := quiet_tries h (.send s req) (by rw [heq]; simp)
    contradiction
  failed herr := by contradiction
  bound s hs := by contradiction
  settled mid t resp post heq := by
    have hmem : .getMembers t (.ok resp) ∈ Event.discard :: tries := by rw [heq]; simp
    rcases List.mem_cons.mp hmem with h' | h'
    · contradiction
    · exact absurd (h _ h') Tried.not_answered

/-- What follows a renewal: the query is sent, and it is not answered or it is. -/
inductive Sent (s : Stub) : List Event → Bool → Prop
  | waiting (req : Request) : Sent s [.send s req] false
  | answered (req : Request) (ok : Bool) : Sent s [.send s req, .status ok] (!ok)

theorem Sent.not_getMembers {s : Stub} {sent : List Event} {err : Bool} (h : Sent s sent err) (t : Stub)
    (o : Except Error Pdpb.GetMembersResponse) : .getMembers t o ∉ sent := by
  cases h <;> simp

/-- The one query that is sent is sent on the new stub. -/
theorem Sent.send_eq {s s' : Stub} {log sent mid post : List Event} {err : Bool} {req : Request}
    (h : Sent s sent err) (hlog : Quiet log) (heq : log ++ sent = mid ++ .send s' req :: post) :
    mid = log ∧ s' = s := by
  have hsend : ∀ t ∈ log, ¬ ∃ s r, t = .send s r := by
    rintro t ht ⟨s, r, rfl⟩
    have := hlog _ ht
    contradiction
  cases h with
  | waiting req' =>
    obtain ⟨hmid, hev, _⟩ := eq_of_first (P := fun t => ∃ s r, t = .send s r) ⟨s', req, rfl⟩ hsend (by simp) heq
    cases hev
    exact ⟨hmid, rfl⟩
  | answered req' ok =>
    obtain ⟨hmid, hev, _⟩ := eq_of_first (P := fun t => ∃ s r, t = .send s r) ⟨s', req, rfl⟩ hsend (by simp) heq
    cases hev
    exact ⟨hmid, rfl⟩

variable {t : Stub} {resp : Pdpb.GetMembersResponse} {sent : List Event} {err : Bool}

/-- The first answer to the search, and nothing but the new stub after it. -/
theorem settled_answered (h : ∀ t ∈ tries, Tried c t) (made : List Event)
    (hmade : ∀ m ∈ made, ∀ t' o, m ≠ .getMembers t' o)
    {mid post : List Event} {t' : Stub} {resp' : Pdpb.GetMembersResponse}
    (heq : .discard :: (tries ++ .getMembers t (.ok resp) :: made) = mid ++ .getMembers t' (.ok resp') :: post)
    (u : Stub) (o : Except Error Pdpb.GetMembersResponse) : .getMembers u o ∉ post := by
  have hpre : ∀ m ∈ Event.discard :: tries, ¬ ∃ s r, m = .getMembers s (.ok r) := by
    rintro m hm ⟨s, r, rfl⟩
    rcases List.mem_cons.mp hm with hm | hm
    · contradiction
    · exact Tried.not_answered (h _ hm)
  have htail : ∀ m ∈ made, ¬ ∃ s r, m = .getMembers s (.ok r) := by
    rintro m hm ⟨s, r, rfl⟩
    exact hmade _ hm s _ rfl
  obtain ⟨_, _, rfl⟩ := eq_of_first (P := fun m => ∃ s r, m = .getMembers s (.ok r)) ⟨t', resp', rfl⟩ hpre htail heq
  exact fun hu => hmade _ hu u o rfl

theorem quiet_answered (h : ∀ t ∈ tries, Tried c t) {made : List Event} (hmade : Quiet made) :
    Quiet (.discard :: (tries ++ .getMembers t (.ok resp) :: made)) := by
  intro m hm
  rw [← List.cons_append, List.mem_append] at hm
  rcases hm with hm | hm
  · exact quiet_tries h m hm
  · rcases List.mem_cons.mp hm with rfl | hm
    · rfl
    · exact hmade m hm

/-- A member has answered, but there is no stub for its leader yet. -/
theorem failover_answered (h : ∀ t ∈ tries, Tried c t) (n : ℕ) :
    Failover (.discard :: (tries ++ [.getMembers t (.ok resp), .select n])) none false where
  resent mid s req post heq := by
    have hmade : Quiet [.select n] := by simp [Quiet, Event.isQuery]
    have := quiet_answered h hmade (.send s req) (by rw [heq]; simp)
    contradiction
  failed herr := by contradiction
  bound s hs := by contradiction
  settled mid t' resp' post heq := settled_answered h [.select n] (by simp) heq

/-- A member has answered, and there is a stub for its leader. -/
theorem failover_renewed (h : ∀ t ∈ tries, Tried c t) (n : ℕ) {url : Str} (hurl : url ∈ resp.leader.clientUrls)
    (hsent : Sent (newStub url) sent err) :
    Failover (.discard :: (tries ++ [.getMembers t (.ok resp), .select n, .connect (newStub url)]) ++ sent)
      (some (newStub url)) err := by
  set log := Event.discard :: (tries ++ [.getMembers t (.ok resp), .select n, .connect (newStub url)]) with hlog
  have hmade : Quiet [.select n, .connect (newStub url)] := by simp [Quiet, Event.isQuery]
  have hquiet : Quiet log := quiet_answered h hmade
  have hrenewal : Renewal log (newStub url) :=
    ⟨[], tries, [.select n, .connect (newStub url)], t, resp, rfl, by simp, url, hurl, rfl⟩
  constructor
  · intro mid s req post heq
    obtain ⟨rfl, rfl⟩ := hsent.send_eq hquiet heq
    exact hrenewal
  · intro herr
    cases hsent with
    | waiting req => contradiction
    | answered req ok =>
      obtain rfl : ok = false := by simpa using herr
      exact ⟨log, _, req, rfl, hrenewal⟩
  · intro s hs
    rw [← Option.some.inj hs]
    exact hrenewal.append sent
  · intro mid t' resp' post heq
    refine settled_answered h ([.select n, .connect (newStub url)] ++ sent) ?_ (by simpa [hlog] using heq)
    intro m hm t'' o hm'
    rcases List.mem_append.mp hm with hm | hm
    · subst hm'
      simp at hm
    · subst hm'
      exact hsent.not_getMembers _ _ hm

end

/-! ### The queries -/

section

variable {β : Type} {inner : Option Stub → ClientM (Except Error β)}
  {w : ClientSession} {s : Stub}

theorem afterFailure_failed {log : List Event} (h : Quiet log) (req : Request) (rest : List Event) :
    afterFailure (log ++ [.send s req, .status false] ++ rest) = some rest := by
  rw [List.append_assoc, afterFailure_quiet h]
  rfl

/-- The search for the leader is quiet, whatever it comes to. -/
theorem getLeaderStub_quiet {Q : Option Stub → ClientSession → Prop}
    {E : Stop → ClientSession → Prop} (hw : Quiet w.log)
    (hstop : ∀ e w', Quiet w'.log → E e w')
    (hstub : ∀ s w', Quiet w'.log → w'.state.leaderStub = some s → Q (some s) w') :
    Meets (getLeaderStub false) Q E w := by
  have happend : ∀ extra, Quiet extra → Quiet (w.log ++ extra) :=
    fun extra hextra => List.forall_mem_append.mpr ⟨hw, hextra⟩
  refine getLeaderStub_meets (fun s hs _ => hstub s w hw hs) ?_ ?_ ?_
  · intro e w' _ hw' _
    obtain ⟨tries, hlog, htries⟩ := hw'.log_eq
    exact hstop e w' (hlog ▸ happend _ (quiet_tries htries))
  · intro e resp w' _ hw' _
    obtain ⟨tries, t, htries, hlog⟩ := hw'.log_eq
    exact hstop e w' (hlog ▸ happend _ (quiet_answered htries (by simp [Quiet, Event.isQuery])))
  · intro resp url w' _ hw'
    obtain ⟨tries, t, htries, hlog⟩ := hw'.log_eq
    refine hstub _ w' (hlog ▸ happend _ (quiet_answered htries (by simp [Quiet, Event.isQuery]))) ?_
    rw [hw'.state_eq]
    rfl

/-- Before its first RPC has failed a call has nothing to fail over. -/
theorem afterFailure_none {log : List Event} (h : Quiet log) : afterFailure log = none := by
  rw [← List.append_nil log, afterFailure_quiet h]
  rfl

/-- Up to the outcome of its first RPC every query does the same. -/
theorem queryTwice_first {P : Bool → ClientSession → Prop} {force : Bool} (h : SendsOnce inner)
    (hunfailed : ∀ err inputs log, afterFailure log = none →
      P err { state := w.state, inputs := inputs, log := w.log ++ log })
    (hretry : ∀ s' req inputs,
      Meets (getLeaderStub force >>= inner) (fun r w' => P (!r.isOk) w') (fun _ w' => P false w')
        { state := w.state, inputs := inputs, log := w.log ++ [.send s' req, .status false] }) :
    Meets (queryTwice force inner (some s)) (fun r w' => P (!r.isOk) w') (fun _ w' => P false w') w := by
  unfold queryTwice
  rw [meets_bind]
  refine h (some s) w _ _ (by simp) (fun s' req _ => hunfailed false _ _ rfl) ?_
  intro s' req inputs r _ _
  cases r with
  | ok b => exact meets_pure.mpr (hunfailed false _ _ rfl)
  | error err => exact hretry s' req inputs

/-- Without a forced refresh a stub that is held is used again. -/
theorem retry_held {P : Bool → ClientSession → Prop} (h : SendsOnce inner) (hs : w.state.leaderStub = some s)
    (hsent : ∀ err inputs req rest,
      P err { state := w.state, inputs := inputs, log := w.log ++ .send s req :: rest }) :
    Meets (getLeaderStub false >>= inner) (fun r w' => P (!r.isOk) w') (fun _ w' => P false w') w := by
  have hheld : ¬ (w.state.leaderStub = none ∨ false = true) := by simp [hs]
  refine meets_bind.mpr (getLeaderStub_meets ?_ (fun e w' hcond => absurd hcond hheld)
    (fun e resp w' hcond => absurd hcond hheld) fun resp url w' hcond => absurd hcond hheld)
  intro s' hs' _
  obtain rfl : s = s' := Option.some.inj (hs.symm.trans hs')
  refine h (some s) w _ _ (by simp) ?_ ?_
  · intro s' req hs'
    rw [← Option.some.inj hs']
    exact hsent false _ req _
  · intro s' req inputs r hs' _
    rw [← Option.some.inj hs']
    exact hsent _ inputs req _

/-- With a forced refresh the second RPC is sent on a renewed stub. -/
theorem queryTwice_failover (h : SendsOnce inner) (hw : Quiet w.log) :
    Meets (queryTwice true inner (some s))
      (fun r w' => FailedOver (!r.isOk) w') (fun _ w' => FailedOver false w') w := by
  refine queryTwice_first (P := FailedOver) h ?_ ?_
  · intro err inputs extra hextra log hlog
    rw [afterFailure_quiet hw, hextra] at hlog
    contradiction
  intro s' req inputs
  have hfailed := afterFailure_failed (s := s') hw req
  refine meets_bind.mpr (getLeaderStub_meets (by simp) ?_ ?_ ?_)
  · intro e w' _ hw' _ log hlog
    obtain ⟨tries, hlog', htries⟩ := hw'.log_eq
    obtain rfl := Option.some.inj ((hfailed _).symm.trans (hlog' ▸ hlog))
    rw [hw'.state_eq]
    exact failover_trying htries
  · intro e resp w' _ hw' _ log hlog
    obtain ⟨tries, t, htries, hlog'⟩ := hw'.log_eq
    obtain rfl := Option.some.inj ((hfailed _).symm.trans (hlog' ▸ hlog))
    rw [hw'.state_eq]
    exact failover_answered htries _
  · intro resp url w' _ hw'
    obtain ⟨tries, t, htries, hlog'⟩ := hw'.log_eq
    have hstub : w'.state.leaderStub = some (newStub url) := by
      rw [hw'.state_eq]
      rfl
    have hsent : ∀ (sent : List Event) (err : Bool), Sent (newStub url) sent err →
        ∀ log, afterFailure (w'.log ++ sent) = some log → Failover log w'.state.leaderStub err := by
      intro sent err hsent log hlog
      rw [hlog', List.append_assoc] at hlog
      obtain rfl := Option.some.inj ((hfailed _).symm.trans hlog)
      rw [hstub]
      exact failover_renewed htries _ hw'.url_mem hsent
    refine h (some (newStub url)) w' _ _ (by simp) ?_ ?_
    · intro s'' req' hs''
      obtain rfl := Option.some.inj hs''
      exact hsent _ _ (.waiting req')
    · intro s'' req' inputs' r hs'' _
      obtain rfl := Option.some.inj hs''
      exact hsent _ _ (.answered req' r.isOk)

/-- A query that is sent again at once has not failed over. -/
theorem not_failover_send {req : Request} {rest : List Event} {stub : Option Stub} {err : Bool} :
    ¬ Failover (.send s req :: rest) stub err := by
  intro h
  obtain ⟨dropped, asked, made, t, resp, hmid, _⟩ := h.resent [] s req rest rfl
  simp at hmid

/-- Without a forced refresh the second RPC is sent on the stub of the first. -/
theorem queryTwice_unforced (h : SendsOnce inner) (hw : Quiet w.log) (hs : w.state.leaderStub = some s) :
    Meets (queryTwice false inner (some s))
      (fun r w' => ∀ log, afterFailure w'.log = some log → ¬ Failover log w'.state.leaderStub (!r.isOk))
      (fun _ w' => ∀ log, afterFailure w'.log = some log → ¬ Failover log w'.state.leaderStub false) w := by
  refine queryTwice_first (P := fun err w' => ∀ log, afterFailure w'.log = some log →
    ¬ Failover log w'.state.leaderStub err) h ?_ ?_
  · intro err inputs extra hextra log hlog
    rw [afterFailure_quiet hw, hextra] at hlog
    contradiction
  · intro s' req inputs
    refine retry_held (P := fun err w' => ∀ log, afterFailure w'.log = some log →
      ¬ Failover log w'.state.leaderStub err) h hs ?_
    intro err inputs' req' rest log hlog
    obtain rfl := Option.some.inj ((afterFailure_failed (s := s') hw req _).symm.trans hlog)
    exact not_failover_send

/-- Nor does a query do anything of note before it has found a stub. -/
theorem withRetry_first {P : Bool → ClientSession → Prop} {force : Bool} {c : PDClient} {env : Environment}
    (hquiet : ∀ w, Quiet w.log → P false w)
    (hquery : ∀ s w, Quiet w.log → w.state.leaderStub = some s →
      Meets (queryTwice force inner (some s)) (fun r w' => P (!r.isOk) w') (fun _ w' => P false w') w) :
    Meets (withRetry force inner) (fun r w' => P (!r.isOk) w') (fun _ w' => P false w')
      { state := c, inputs := env } := by
  unfold withRetry
  rw [meets_bind]
  exact getLeaderStub_quiet (by simp [Quiet]) (fun _ => hquiet) hquery

theorem withRetry_failover (h : SendsOnce inner) (c : PDClient) (env : Environment) :
    Meets (withRetry true inner)
      (fun r w' => FailedOver (!r.isOk) w') (fun _ w' => FailedOver false w') { state := c, inputs := env } := by
  refine withRetry_first (P := FailedOver) ?_ fun s w hw _ => queryTwice_failover h hw
  intro w hw log hlog
  rw [afterFailure_none hw] at hlog
  contradiction

theorem withRetry_unforced (h : SendsOnce inner) (c : PDClient) (env : Environment) :
    Meets (withRetry false inner)
      (fun r w' => ∀ log, afterFailure w'.log = some log → ¬ Failover log w'.state.leaderStub (!r.isOk))
      (fun _ w' => ∀ log, afterFailure w'.log = some log → ¬ Failover log w'.state.leaderStub false)
      { state := c, inputs := env } := by
  refine withRetry_first (P := fun err w' => ∀ log, afterFailure w'.log = some log →
    ¬ Failover log w'.state.leaderStub err) ?_ fun s w hw hs => queryTwice_unforced h hw hs
  intro w hw log hlog
  rw [afterFailure_none hw] at hlog
  contradiction

end

/-! ### The first RPC of a query by id -/

section

variable {w : ClientSession} {s : Stub} {regionId : UInt64}

/-- On a stub the first RPC fails exactly if it is sent and an error answers it. -/
theorem queryTwice_fails (hw : Quiet w.log) (hs : w.state.leaderStub = some s) :
    Meets (queryTwice false (askRegionById regionId) (some s))
      (fun _ w' => afterFailure w'.log = none ↔ ¬ ErrorNext w)
      (fun _ w' => afterFailure w'.log = none ↔ ¬ ErrorNext w) w := by
  unfold queryTwice
  rw [meets_bind]
  unfold askRegionById
  rw [meets_bind]
  refine query_meets (by simp) ?_ ?_
  · intro s' _ hnext
    simp [ErrorNext, Environment.pop_eq_none hnext, afterFailure_quiet hw, afterFailure]
  · intro s' inputs outcome _ hnext
    obtain ⟨rest, hregions, _⟩ := Environment.pop_eq_some hnext
    rw [meets_pure]
    cases outcome with
    | ok resp =>
      refine meets_pure.mpr ?_
      simp [ErrorNext, hregions, afterFailure_quiet hw, afterFailure]
    | error err =>
      refine retry_held (P := fun _ w' => afterFailure w'.log = none ↔ ¬ ErrorNext w)
        (sendsOnce_askRegionById regionId) hs ?_
      intro err' inputs' req' rest'
      have hsome := afterFailure_failed (s := s') hw (.getRegionById w.state.clusterId regionId) (.send s req' :: rest')
      refine iff_of_false (fun hnone => ?_) (not_not_intro ⟨err, rest, hregions⟩)
      exact absurd (hsome.symm.trans hnone) (Option.some_ne_none _)

theorem afterFailure_getRegionById (regionId : UInt64) (c : PDClient) (env : Environment) :
    afterFailure (c.record (.getRegionById regionId, env)) = none ↔ ¬ FirstFails c env := by
  refine final_of_meets (P := fun _ w => afterFailure w.log = none ↔ ¬ FirstFails c env) (meets_bind.mpr ?_)
  unfold PDClient.getRegionById withRetry
  rw [meets_bind]
  have hstub : Meets (getLeaderStub false)
      (fun stub w => ∃ s, stub = some s ∧ Quiet w.log ∧ w.state.leaderStub = some s) (fun _ w => Quiet w.log)
      { state := c, inputs := env } :=
    getLeaderStub_quiet (by simp [Quiet]) (fun _ _ => id) fun s w hw hs => ⟨s, rfl, hw, hs⟩
  refine hstub.and_run.mono ?_ ?_
  · rintro _ w ⟨⟨s, rfl, hw, hs⟩, hrun⟩
    have hfirst : FirstFails c env ↔ ErrorNext w := by
      unfold FirstFails Meets
      rw [hrun]
    rw [hfirst]
    exact queryTwice_fails hw hs
  · rintro e w ⟨hw, hrun⟩
    have hfirst : ¬ FirstFails c env := by
      unfold FirstFails Meets
      rw [hrun]
      exact id
    exact iff_of_true (afterFailure_none hw) hfirst

/-- Where there is a stub the first RPC is sent at once. -/
theorem firstFails_held {c : PDClient} {env : Environment} (hs : c.leaderStub = some s) :
    FirstFails c env ↔ ∃ err rest, env.regions = .error err :: rest := by
  unfold FirstFails getLeaderStub
  rw [meets_bind, meets_state, if_neg (by simp [hs]), meets_pure, ErrorNext]

end

/-! ### All calls -/

/-- `init` sends no query. -/
theorem init_quiet (c : PDClient) (pdaddr : Str) (env : Environment) :
    Meets (init pdaddr) (fun _ w => Quiet w.log) (fun _ w => Quiet w.log) { state := c, inputs := env } := by
  unfold init
  refine updateLeader_meets ?_ ?_ ?_ ?_ ?_ <;> simp [Quiet, Event.isQuery]

/-- From every client a call fails over as it should, whatever its RPCs come to, unless it
is a `get_region_by_id` whose first RPC fails. -/
theorem failover_iff (c : PDClient) (call : Call) (env : Environment) :
    FailedOver (c.failed (call, env)) (c.final (call, env)) ↔
      ∀ regionId, call = .getRegionById regionId → ¬ FirstFails c env := by
  have hforced : ∀ {call : Call}, (∀ regionId, call ≠ .getRegionById regionId) →
      Meets call.exec (fun r w => FailedOver r.isErr w) (fun _ w => FailedOver false w)
        { state := c, inputs := env } →
      (FailedOver (c.failed (call, env)) (c.final (call, env)) ↔
        ∀ regionId, call = .getRegionById regionId → ¬ FirstFails c env) := by
    intro call hne hmeets
    exact iff_of_true (final_of_meets hmeets) fun regionId h => absurd h (hne regionId)
  cases call with
  | init pdaddr =>
    refine hforced (by simp) (meets_bind.mpr ((init_quiet c pdaddr env).mono ?_ ?_))
    · intro r w hw
      refine meets_pure.mpr fun log hlog => ?_
      rw [afterFailure_none hw] at hlog
      contradiction
    · intro e w hw log hlog
      rw [afterFailure_none hw] at hlog
      contradiction
  | getRegion key =>
    exact hforced (by simp) (meets_bind.mpr (withRetry_failover (sendsOnce_askRegion key) c env))
  | getStoreById storeId =>
    exact hforced (by simp) (meets_bind.mpr (withRetry_failover (sendsOnce_askStoreById storeId) c env))
  | getAllStores =>
    exact hforced (by simp) (meets_bind.mpr (withRetry_failover sendsOnce_askAllStores c env))
  | getRegionById regionId =>
    have hnever : ∀ log, afterFailure (c.record (.getRegionById regionId, env)) = some log →
        ¬ Failover log (c.final (.getRegionById regionId, env)).state.leaderStub
          (c.failed (.getRegionById regionId, env)) :=
      final_of_meets (P := fun err w => ∀ log, afterFailure w.log = some log →
        ¬ Failover log w.state.leaderStub err)
        (meets_bind.mpr (withRetry_unforced (sendsOnce_askRegionById regionId) c env))
    have hfirst := afterFailure_getRegionById regionId c env
    constructor
    · intro hall _ _
      refine hfirst.mp ?_
      cases hlog : afterFailure (c.record (.getRegionById regionId, env)) with
      | none => rfl
      | some log => exact absurd (hall log hlog) (hnever log hlog)
    · intro hfails log hlog
      have hnone := hfirst.mpr (hfails regionId rfl)
      unfold record at hnone
      rw [hnone] at hlog
      contradiction

/-! ### Queries by id keep the client -/

theorem queryTwice_keeps {β : Type} {inner : Option Stub → ClientM (Except Error β)} (h : SendsOnce inner)
    {w : ClientSession} {s : Stub} (hs : w.state.leaderStub = some s) :
    Meets (queryTwice false inner (some s)) (fun _ w' => w'.state = w.state) (fun _ w' => w'.state = w.state) w := by
  refine queryTwice_first (P := fun _ w' => w'.state = w.state) h (fun _ _ _ _ => rfl) ?_
  intro s' req inputs
  exact retry_held (P := fun _ w' => w'.state = w.state) h hs fun _ _ _ _ => rfl

theorem step_getRegionById {c c' : PDClient} {s : Stub} {regionId : UInt64} {env : Environment}
    (hs : c.leaderStub = some s) (h : c.step (.getRegionById regionId, env) = some c') : c' = c := by
  suffices hmeets : Meets (PDClient.getRegionById regionId) (fun _ w => w.state = c) (fun _ _ => True)
      { state := c, inputs := env } by
    obtain ⟨hfinal, hkept⟩ := step_of_meets (P := fun w => w.state = c) (meets_bind.mpr hmeets) h
    exact hfinal.trans hkept
  unfold PDClient.getRegionById withRetry
  rw [meets_bind]
  refine getLeaderStub_meets ?_ (by simp) (by simp) (by simp [hs])
  intro s' hs' _
  exact (queryTwice_keeps (sendsOnce_askRegionById regionId) hs').mono (fun _ _ => id) (by simp)

/-- However often regions are asked for by id and whatever the RPCs come to, a client
that has a stub keeps it, though the server it was made for be dead. -/
theorem run_getRegionById {c c' : PDClient} {s : Stub} (hs : c.leaderStub = some s)
    {calls : List (UInt64 × Environment)}
    (h : run step c (calls.map fun a => (.getRegionById a.1, a.2)) = some c') : c' = c := by
  induction calls with
  | nil => exact (Option.some.inj h).symm
  | cons a calls ih =>
    rw [List.map_cons, run_cons] at h
    obtain ⟨m, hm, hrest⟩ := Option.bind_eq_some_iff.mp h
    obtain rfl := step_getRegionById hs hm
    exact ih hrest

/-- The leader is gone: two RPCs fail, while the member asked would answer. -/
def leaderGone : Environment where
  picks := [0, 0, 0]
  members := [.ok (ledBy 1 urlB)]
  regions := [.error ⟨"unavailable"⟩, .error ⟨"unavailable"⟩]

/-- The query by id fails twice on the stub it has, and asks no member. -/
theorem getRegionById_resends :
    run step (fresh 0) [constructed] = some clientOfB ∧
      clientOfB.record (.getRegionById 7, leaderGone) = [.send (newStub urlB) (.getRegionById 6 7), .status false,
        .send (newStub urlB) (.getRegionById 6 7), .status false] ∧
      ¬ FailedOver (clientOfB.failed (.getRegionById 7, leaderGone))
        (clientOfB.final (.getRegionById 7, leaderGone)) := by
  refine ⟨rfl, rfl, fun h => ?_⟩
  exact not_failover_send (h _ rfl)

end TikvCpp.PDClient
