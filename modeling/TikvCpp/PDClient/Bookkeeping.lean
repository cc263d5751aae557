import TikvCpp.PDClient.Rules

/-! The three views of the leader: the flagged entry of the pool, `leader_` and the stub.
Where there is no stub `update_leader` makes all three agree. Where there is one, it stores
the answer and keeps the stub, since the entry it then compares with `leader_` is the one
just stored there. Only `init` can come upon a stub, so the views agree through every run
whose later calls of `init` find the leader of the stub still leading. -/

namespace TikvCpp.PDClient

open Data Transition Transition.Program

/-- The pool flags exactly the leader, under its own id, and the stub was made for one of
the addresses of the leader. -/
structure Bookkept (c : PDClient) : Prop where
  flagged : ∀ s, c.leaderStub = some s → ∀ (id : UInt64) (info : PDServerInfo),
    (c.members[id]? = some info ∧ info.isLeader = true) ↔ (id = c.leader.id ∧ info = c.leader)
  stub : ∀ s, c.leaderStub = some s → ∃ url ∈ c.leader.clientUrls, s = newStub url

/-- Each answer that names another leader than was known is followed by a new stub, which
is made for the leader it names. -/
def Replaces : UInt64 → List Event → Prop
  | _, [] => True
  | known, .getMembers _ (.ok resp) :: rest =>
    (resp.leader.memberId ≠ known → ∃ n url more, rest = .select n :: .connect (newStub url) :: more ∧
      url ∈ resp.leader.clientUrls) ∧ Replaces resp.leader.memberId rest
  | known, _ :: rest => Replaces known rest

/-- A later call of `init` that PD answers finds the leader known and its address. -/
def KeepsLeader (c : PDClient) (a : Call × Environment) : Prop :=
  ∀ pdaddr resp rest s, a.1 = .init pdaddr → a.2.members = .ok resp :: rest → c.leaderStub = some s →
    resp.leader.memberId = c.leader.id ∧ ∃ url ∈ resp.leader.clientUrls, s = newStub url

theorem bookkept_fresh (clusterId : UInt64) : Bookkept (fresh clusterId) where
  flagged _ hs := by contradiction
  stub _ hs := by contradiction

/-- An answer makes the pool and the leader agree. -/
theorem bookkept_answered {c : PDClient} {resp : Pdpb.GetMembersResponse}
    (hstub : ∀ s, c.leaderStub = some s → ∃ url ∈ resp.leader.clientUrls, s = newStub url) :
    Bookkept (c.answered resp) where
  flagged _ _ _ _ := pdMembers_flagged
  stub := hstub

theorem bookkept_connected {c : PDClient} {resp : Pdpb.GetMembersResponse} {url : Str}
    (hurl : url ∈ resp.leader.clientUrls) : Bookkept ((c.answered resp).connected (newStub url)) where
  flagged _ _ _ _ := pdMembers_flagged
  stub _ hs := ⟨url, hurl, (Option.some.inj hs).symm⟩

/-! ### Records in which every answer is followed by a stub -/

theorem replaces_append {known : UInt64} {log : List Event}
    (h : ∀ t ∈ log, ∀ s resp, t ≠ .getMembers s (.ok resp)) (rest : List Event) :
    Replaces known (log ++ rest) ↔ Replaces known rest := by
  induction log with
  | nil => rfl
  | cons t log ih =>
    have ih := ih fun t ht => h t (List.mem_cons_of_mem _ ht)
    cases t with
    | getMembers s outcome =>
      cases outcome with
      | error err => exact ih
      | ok resp => exact absurd rfl (h _ List.mem_cons_self s resp)
    | _ => exact ih

/-- A record whose answers have all been followed by a stub, whatever is recorded next. -/
def Replaced (known : UInt64) (log : List Event) : Prop :=
  ∀ rest, (∀ known', Replaces known' rest) → Replaces known (log ++ rest)

theorem Replaced.replaces {known : UInt64} {log : List Event} (h : Replaced known log) : Replaces known log := by
  have := h [] fun _ => trivial
  rwa [List.append_nil] at this

theorem replaced_nil (known : UInt64) : Replaced known [] := fun _ hrest => hrest known

theorem Replaced.append {known : UInt64} {log tail : List Event} (h : Replaced known log)
    (htail : ∀ known', Replaced known' tail) : Replaced known (log ++ tail) := by
  intro rest hrest
  rw [List.append_assoc]
  exact h _ fun known' => htail known' rest hrest

theorem replaced_of_unanswered {known : UInt64} {log : List Event}
    (h : ∀ t ∈ log, ∀ s resp, t ≠ .getMembers s (.ok resp)) : Replaced known log :=
  fun rest hrest => (replaces_append h rest).mpr (hrest known)

/-- An answer and the stub made from it. -/
theorem replaced_renewed {known : UInt64} {t : Stub} {resp : Pdpb.GetMembersResponse} {n : ℕ} {url : Str}
    (hurl : url ∈ resp.leader.clientUrls) :
    Replaced known [.getMembers t (.ok resp), .select n, .connect (newStub url)] :=
  fun rest hrest => ⟨fun _ => ⟨n, url, rest, rfl, hurl⟩, hrest _⟩

/-! ### The calls -/

section

variable {known : UInt64}

/-- A session that has kept the books. -/
structure Kept (known : UInt64) (w : ClientSession) : Prop where
  bookkept : Bookkept w.state
  replaced : Replaced known w.log

theorem getLeaderStub_kept (force : Bool) (w : ClientSession) (hw : Kept known w) :
    Meets (getLeaderStub force) (fun _ w' => Kept known w') (fun _ _ => True) w := by
  refine getLeaderStub_meets (fun s _ _ => hw) (by simp) (by simp) ?_
  intro resp url w' _ hw'
  obtain ⟨tries, t, htries, hlog⟩ := hw'.log_eq
  constructor
  · rw [hw'.state_eq]
    exact bookkept_connected hw'.url_mem
  · have htried : ∀ known', Replaced known' (.discard :: tries) := by
      intro known'
      refine replaced_of_unanswered fun t ht s resp heq => ?_
      subst heq
      rcases List.mem_cons.mp ht with ht | ht
      · contradiction
      · cases htries _ ht
    rw [hlog, ← List.cons_append, ← List.append_assoc]
    exact (hw.replaced.append htried).append fun known' => replaced_renewed hw'.url_mem

theorem kept_queryProof : QueryProof (Kept known) := by
  intro w inputs queries hw _ hqueries
  refine ⟨hw.bookkept, hw.replaced.append fun known' => replaced_of_unanswered fun t ht s resp heq => ?_⟩
  subst heq
  have := hqueries _ ht
  contradiction

/-- A call that keeps the leader keeps the books. -/
theorem exec_kept {c : PDClient} {a : Call × Environment} (hc : Bookkept c) (hkeep : KeepsLeader c a) :
    Meets a.1.exec (fun _ w => Bookkept w.state ∧ Replaces c.leader.id w.log) (fun _ _ => True)
      { state := c, inputs := a.2 } := by
  have hend : ∀ w, Kept c.leader.id w → Bookkept w.state ∧ Replaces c.leader.id w.log :=
    fun w hw => ⟨hw.bookkept, hw.replaced.replaces⟩
  obtain ⟨call, env⟩ := a
  by_cases hcall : ∀ pdaddr, call ≠ .init pdaddr
  · have hstart : Kept c.leader.id { state := c, inputs := env, log := [] } := ⟨hc, replaced_nil _⟩
    exact (exec_keeps hcall kept_queryProof (fun _ _ _ => trivial) getLeaderStub_kept hstart).mono
      (fun _ w => hend w) fun _ _ => id
  · obtain ⟨pdaddr, rfl⟩ : ∃ pdaddr, call = .init pdaddr := by simpa using hcall
    refine meets_bind.mpr (updateLeader_meets (by simp) ?_ ?_ (by simp) ?_)
    · intro err inputs _
      exact meets_pure.mpr (hend _ ⟨hc, replaced_of_unanswered (by simp)⟩)
    · intro resp inputs hinputs hstub
      obtain ⟨s, hs⟩ := Option.ne_none_iff_exists'.mp hstub
      obtain ⟨hid, hurl⟩ := hkeep pdaddr resp inputs.members s rfl hinputs hs
      refine meets_pure.mpr ⟨bookkept_answered fun s' hs' => ?_, fun hne => absurd hid hne, trivial⟩
      rw [← Option.some.inj (hs.symm.trans hs')]
      exact hurl
    · intro resp inputs url hurl _ _
      exact meets_pure.mpr (hend _ ⟨bookkept_connected hurl, replaced_renewed hurl⟩)

end

theorem step_kept {c c' : PDClient} {a : Call × Environment} (hc : Bookkept c) (hkeep : KeepsLeader c a)
    (h : c.step a = some c') : Bookkept c' ∧ Replaces c.leader.id (c.record a) := by
  obtain ⟨rfl, hfinal⟩ := step_of_meets (P := fun w => Bookkept w.state ∧ Replaces c.leader.id w.log)
    (exec_kept hc hkeep) h
  exact hfinal

/-- The three views agree after every run of calls that keep the leader, and each call of
the run replaces the stub where an answer names another leader. -/
theorem bookkept_run {clusterId : UInt64} {pdaddr : Str} {env : Environment} {calls : List (Call × Environment)}
    {c : PDClient} (h : run step (fresh clusterId) ((.init pdaddr, env) :: calls) = some c)
    (hkeep : Along step KeepsLeader (fresh clusterId) ((.init pdaddr, env) :: calls)) :
    Bookkept c ∧ ∀ pre a post m, (.init pdaddr, env) :: calls = pre ++ a :: post →
      run step (fresh clusterId) pre = some m → Replaces m.leader.id (m.record a) := by
  have hrun : ∀ {tr c}, run step (fresh clusterId) tr = some c → Along step KeepsLeader (fresh clusterId) tr →
      Bookkept c := fun hr ha =>
    run_along (bookkept_fresh clusterId) (fun _ _ _ hc hkeep he => (step_kept hc hkeep he).1) hr ha
  refine ⟨hrun h hkeep, fun pre a post m hcalls hpre => ?_⟩
  rw [hcalls] at h hkeep
  obtain ⟨hbefore, hat⟩ := along_append_cons hpre hkeep
  obtain ⟨m₁, m₂, hm₁, hstep, _⟩ := step_of_run h
  obtain rfl := Option.some.inj (hpre.symm.trans hm₁)
  exact (step_kept (hrun hpre hbefore) hat hstep).2

/-- The client is set up once more, and the leader is still the same. -/
def initAgain : Call × Environment := (.init urlA, { members := [.ok (ledBy 1 urlB)] })

theorem bookkept_run_initAgain :
    ∃ c, run step (fresh 0) [constructed, initAgain] = some c ∧ c.leaderStub = some (newStub urlB) ∧
      Bookkept c := by
  have hkeep : Along step KeepsLeader (fresh 0) [constructed, initAgain] := by
    refine Along.cons (fun _ _ _ _ _ _ hs => by contradiction) step_constructed (Along.single ?_)
    intro pdaddr resp rest s _ hmembers hs
    obtain ⟨hresp, _⟩ := List.cons.inj hmembers
    obtain rfl := Except.ok.inj hresp
    exact ⟨rfl, urlB, List.mem_cons_self, (Option.some.inj hs).symm⟩
  exact ⟨_, rfl, rfl, (bookkept_run rfl hkeep).1⟩

/-- The leadership has passed to another member, and the client is set up once more. -/
def initAfterChange : Call × Environment := (.init urlA, { members := [.ok (ledBy 2 urlA)] })

/-- The client then names the new leader, but its stub is still for the old one. -/
theorem initAfterChange_not_bookkept :
    ∃ c, run step (fresh 0) [constructed, initAfterChange] = some c ∧ c.leaderStub = some (newStub urlB) ∧
      c.leader = serverInfo { memberId := 2, clientUrls := [urlA] } true ∧ ¬ Bookkept c := by
  refine ⟨_, rfl, rfl, rfl, fun h => ?_⟩
  obtain ⟨url, hurl, hs⟩ := h.stub _ rfl
  obtain rfl := List.mem_singleton.mp hurl
  exact absurd hs (by decide)

end TikvCpp.PDClient
