import TikvCpp.PDClient.Rules

/-! The addresses a client dials. Each is one that `init` was given or that an answer of PD
named, and the target of the channel is what `strip_url` leaves of it: the address behind
the scheme, and the empty string for an address without a scheme. -/

namespace TikvCpp.PDClient

open Data Transition Transition.Program

/-- The stub whose channel an event dials; queries use one that has been dialed before. -/
def Event.dial : Event → Option Stub
  | .getMembers stub _ => some stub
  | .connect stub => some stub
  | .select _ | .discard | .send _ _ | .status _ => none

def dials (log : List Event) : List Stub := log.filterMap Event.dial

/-- The addresses in an answer. -/
def advertised (resp : Pdpb.GetMembersResponse) : List Str :=
  resp.leader.clientUrls ++ resp.members.flatMap Pdpb.Member.clientUrls

/-- An address that a call is given or that an answer to it names. -/
def Names (a : Call × Environment) (addr : Str) : Prop :=
  a.1 = .init addr ∨ ∃ resp, .ok resp ∈ a.2.members ∧ addr ∈ advertised resp

section

variable {K : Str → Prop}

/-- All stubs are made for addresses in `K`. -/
def MadeFor (K : Str → Prop) (stubs : List Stub) : Prop := ∀ s ∈ stubs, ∃ addr, K addr ∧ s = newStub addr

/-- The members of the pool have their addresses from `K`. -/
def PoolIn (K : Str → Prop) (c : PDClient) : Prop :=
  ∀ (id : UInt64) (info : PDServerInfo), c.members[id]? = some info → ∀ addr ∈ info.clientUrls, K addr

/-- A session that has its addresses from `K`, now and later. -/
structure Knows (K : Str → Prop) (w : ClientSession) : Prop where
  pool : PoolIn K w.state
  answers : ∀ resp, .ok resp ∈ w.inputs.members → ∀ addr ∈ advertised resp, K addr
  made : MadeFor K (dials w.log)

theorem madeFor_append {log log' : List Event} (h : MadeFor K (dials log)) (h' : MadeFor K (dials log')) :
    MadeFor K (dials (log ++ log')) := by
  intro s hs
  rw [dials, List.filterMap_append, List.mem_append] at hs
  exact hs.elim (h s) (h' s)

theorem madeFor_cons {addr : Str} {stubs : List Stub} (haddr : K addr) (h : MadeFor K stubs) :
    MadeFor K (newStub addr :: stubs) := by
  intro s hs
  rcases List.mem_cons.mp hs with rfl | hs
  · exact ⟨addr, haddr, rfl⟩
  · exact h s hs

theorem madeFor_nil : MadeFor K [] := fun _ hs => absurd hs List.not_mem_nil

variable {w : ClientSession} {resp : Pdpb.GetMembersResponse}

theorem poolIn_answered (c : PDClient) (h : ∀ addr ∈ advertised resp, K addr) : PoolIn K (c.answered resp) := by
  intro id info hget addr haddr
  refine h addr (List.mem_append.mpr ?_)
  rcases pdMembers_get hget with ⟨_, rfl⟩ | ⟨-, it, hit, -, rfl⟩
  · exact .inl haddr
  · exact .inr (List.mem_flatMap.mpr ⟨it, hit, haddr⟩)

/-- More dials of known addresses, and fewer answers left. -/
theorem Knows.more (h : Knows K w) {c : PDClient} (hc : PoolIn K c) {inputs : Environment}
    (hinputs : inputs.members <:+ w.inputs.members) {log : List Event} (hlog : MadeFor K (dials log)) :
    Knows K { state := c, inputs := inputs, log := w.log ++ log } :=
  ⟨hc, fun resp hresp => h.answers resp (hinputs.subset hresp), madeFor_append h.made hlog⟩

/-- `update_leader` on a known address learns and dials known addresses only. -/
theorem updateLeader_knows {addr : Str} (haddr : K addr) (h : Knows K w) :
    Meets (updateLeader (newStub addr))
      (fun _ w' => Knows K w' ∧ w'.inputs.members.length < w.inputs.members.length)
      (fun _ w' => MadeFor K (dials w'.log)) w := by
  have hrest : ∀ {o : Except Error Pdpb.GetMembersResponse} {inputs : Environment},
      w.inputs.members = o :: inputs.members →
      inputs.members <:+ w.inputs.members ∧ inputs.members.length < w.inputs.members.length := by
    intro o inputs heq
    rw [heq]
    exact ⟨List.suffix_cons _ _, Nat.lt_succ_self _⟩
  have hasked : MadeFor K [newStub addr] := madeFor_cons haddr madeFor_nil
  refine updateLeader_meets (fun _ => h.made) ?_ ?_ ?_ ?_
  · intro err inputs heq
    exact ⟨h.more h.pool (hrest heq).1 hasked, (hrest heq).2⟩
  · intro resp inputs heq _
    have hanswer := h.answers resp (by rw [heq]; exact List.mem_cons_self)
    exact ⟨h.more (poolIn_answered _ hanswer) (hrest heq).1 hasked, (hrest heq).2⟩
  · intro e resp inputs _ _ _
    exact madeFor_append h.made hasked
  · intro resp inputs url hurl heq _
    have hanswer := h.answers resp (by rw [heq]; exact List.mem_cons_self)
    have hleader : K url := hanswer url (List.mem_append_left _ hurl)
    have hpool : PoolIn K ((w.state.answered resp).connected (newStub url)) := poolIn_answered w.state hanswer
    exact ⟨h.more hpool (hrest heq).1 (madeFor_cons haddr (madeFor_cons hleader madeFor_nil)), (hrest heq).2⟩

/-- A round of the loop dials an address of the pool. -/
theorem tryMember_knows (h : Knows K w) :
    Meets tryMember (fun _ w' => Knows K w' ∧ w'.inputs.members.length < w.inputs.members.length)
      (fun _ w' => MadeFor K (dials w'.log)) w := by
  unfold tryMember
  have hpicked : ∀ {w : ClientSession} (n : ℕ) (picks : List ℕ), Knows K w →
      Knows K { state := w.state, inputs := { w.inputs with picks := picks }, log := w.log ++ [.select n] } := by
    intro w n picks hw
    have hleft : ({ w.inputs with picks := picks } : Environment).members <:+ w.inputs.members := List.suffix_rfl
    have hselect : MadeFor K (dials [.select n]) := madeFor_nil
    exact hw.more hw.pool hleft hselect
  rw [meets_bind, meets_state, meets_bind]
  refine selectRandomly_meets (fun _ _ _ => (hpicked _ w.inputs.picks h).made) fun member hmember picks₁ => ?_
  have hget : w.state.members[member.1]? = some member.2 :=
    Std.ExtTreeMap.mem_toList_iff_getElem?_eq_some.mp hmember
  have h₁ := hpicked w.state.members.toList.length picks₁ h
  rw [meets_bind]
  refine selectRandomly_meets (fun _ _ _ => (hpicked _ picks₁ h₁).made) fun url hurl picks₂ => ?_
  have h₂ := hpicked member.2.clientUrls.length picks₂ h₁
  rw [meets_bind]
  exact (updateLeader_knows (h.pool _ _ hget url hurl) h₂).mono (fun _ _ hw' => meets_pure.mpr hw') fun _ _ => id

theorem getLeaderStub_knows (force : Bool) (w : ClientSession) (h : Knows K w) :
    Meets (getLeaderStub force) (fun _ w' => Knows K w') (fun _ w' => MadeFor K (dials w'.log)) w := by
  unfold getLeaderStub
  rw [meets_bind, meets_state]
  split_ifs
  · rw [meets_bind, meets_modifyState, meets_bind, meets_emit, meets_bind]
    have hpool : PoolIn K w.state.discarded := h.pool
    have hstart : Knows K { state := w.state.discarded, inputs := w.inputs, log := w.log ++ [.discard] } :=
      h.more hpool List.suffix_rfl madeFor_nil
    refine Meets.loop (I := Knows K) (fun w' hw' => ?_) hstart
    refine (tryMember_knows hw').mono (fun _ w'' hw'' => ⟨hw''.2, ?_⟩) fun _ _ => id
    split_ifs
    · exact hw''.1
    · exact meets_bind.mpr (meets_state.mpr (meets_pure.mpr hw''.1))
  · exact meets_pure.mpr h

theorem knows_queryProof : QueryProof (Knows K) := by
  intro w inputs queries hw hinputs hqueries
  refine hw.more hw.pool (by rw [hinputs]) ?_
  have hnone : dials queries = [] := by
    refine List.filterMap_eq_nil_iff.mpr fun t ht => ?_
    have := hqueries t ht
    cases t <;> first | rfl | contradiction
  rw [hnone]
  exact madeFor_nil

/-! ### Runs -/

/-- A call that is given known addresses only, and answered by them. -/
theorem exec_knows {c : PDClient} {a : Call × Environment} (hc : PoolIn K c) (ha : ∀ addr, Names a addr → K addr) :
    Meets a.1.exec (fun _ w => PoolIn K w.state ∧ MadeFor K (dials w.log)) (fun _ w => MadeFor K (dials w.log))
      { state := c, inputs := a.2 } := by
  obtain ⟨call, env⟩ := a
  have hstart : Knows K { state := c, inputs := env, log := [] } :=
    ⟨hc, fun resp hresp addr haddr => ha addr (.inr ⟨resp, hresp, haddr⟩), madeFor_nil⟩
  by_cases hcall : ∀ pdaddr, call ≠ .init pdaddr
  · exact (exec_keeps hcall knows_queryProof (fun _ _ hw => hw.made) getLeaderStub_knows hstart).mono
      (fun _ _ hw => ⟨hw.pool, hw.made⟩) fun _ _ => id
  · obtain ⟨pdaddr, rfl⟩ : ∃ pdaddr, call = .init pdaddr := by simpa using hcall
    refine meets_bind.mpr ((updateLeader_knows (ha pdaddr (.inl rfl)) hstart).mono (fun _ w hw => ?_) fun _ _ => id)
    exact meets_pure.mpr ⟨hw.1.pool, hw.1.made⟩

theorem run_poolIn {clusterId : UInt64} {calls : List (Call × Environment)} {c : PDClient}
    (h : run step (fresh clusterId) calls = some c) (hK : ∀ a ∈ calls, ∀ addr, Names a addr → K addr) :
    PoolIn K c := by
  revert hK
  refine run_induction (P := fun calls c => (∀ a ∈ calls, ∀ addr, Names a addr → K addr) → PoolIn K c) ?_ ?_ h
  · intro _ id info hget
    simp [fresh] at hget
  · intro calls m a c' _ ih hstep hK
    have hm := ih fun b hb => hK b (List.mem_append_left _ hb)
    have hmeets := (exec_knows hm (hK a (by simp))).mono (fun _ _ => id) fun _ _ _ => trivial
    obtain ⟨rfl, hfinal⟩ := step_of_meets (P := fun w => PoolIn K w.state ∧ MadeFor K (dials w.log)) hmeets hstep
    exact hfinal.1

end

/-- Every dial of a run is made for an address that the run has named before. -/
theorem dials_named {clusterId : UInt64} {calls : List (Call × Environment)} {c : PDClient}
    (h : run step (fresh clusterId) calls = some c) (a : Call × Environment) :
    MadeFor (fun addr => ∃ b ∈ calls ++ [a], Names b addr) (dials (c.record a)) := by
  have hpool : PoolIn (fun addr => ∃ b ∈ calls ++ [a], Names b addr) c :=
    run_poolIn h fun b hb addr haddr => ⟨b, List.mem_append_left _ hb, haddr⟩
  exact final_of_meets (P := fun _ w => MadeFor _ (dials w.log))
    ((exec_knows hpool fun addr haddr => ⟨a, by simp, haddr⟩).mono (fun _ _ hw => hw.2) fun _ _ => id)

/-! ### Targets -/

/-- A stub that reaches the address it is made for, if that has no scheme. -/
def Reaches (s : Stub) : Prop := s.addr ≠ [] → ¬ schemeEnd <:+: s.addr → s.target = s.addr ∧ s.target ≠ []

theorem reaches_newStub {addr : Str} : Reaches (newStub addr) ↔ schemeEnd <:+: addr ∨ addr = [] := by
  constructor
  · intro h
    by_contra hplain
    obtain ⟨hscheme, hne⟩ := not_or.mp hplain
    exact (h hne hscheme).2 (stripUrl_schemeless hscheme)
  · rintro (hscheme | rfl) hne hplain
    · exact absurd hscheme hplain
    · exact absurd rfl hne

/-- `strip_url` leaves what is to be dialed of an address exactly if that has a scheme or is
empty. Nothing else comes between the addresses named in a run and the targets dialed, so a
dial goes wrong exactly where the address has no scheme. -/
theorem dials_stripped_iff {clusterId : UInt64} {calls : List (Call × Environment)} {c : PDClient}
    (h : run step (fresh clusterId) calls = some c) (a : Call × Environment) :
    (∀ addr, Stripped addr ↔ schemeEnd <:+: addr ∨ addr = []) ∧
      ∀ s ∈ dials (c.record a), (∃ b ∈ calls ++ [a], Names b s.addr) ∧ s.target = stripUrl s.addr ∧
        (Reaches s ↔ schemeEnd <:+: s.addr ∨ s.addr = []) := by
  refine ⟨fun _ => stripped_iff, fun s hs => ?_⟩
  obtain ⟨addr, hnamed, rfl⟩ := dials_named h a s hs
  exact ⟨hnamed, rfl, reaches_newStub⟩

/-- The client of `pd://b` loses its leader; the first member to be asked has the address
`h:2`. -/
def bareMember : Call × Environment := (.getRegion [], { regions := [.error ⟨"unavailable"⟩, .ok {}]
                                                         picks := [0, 0, 0]
                                                         members := [.ok (ledBy 2 [0x68, 0x3a, 0x32])] })

theorem dials_stripped_iff_bareMember :
    (∀ addr, Stripped addr ↔ schemeEnd <:+: addr ∨ addr = []) ∧
      ∀ s ∈ dials (clientOfB.record bareMember), (∃ b ∈ [constructed] ++ [bareMember], Names b s.addr) ∧
        s.target = stripUrl s.addr ∧ (Reaches s ↔ schemeEnd <:+: s.addr ∨ s.addr = []) :=
  dials_stripped_iff (h := (rfl : run step (fresh 0) [constructed] = some clientOfB)) bareMember

/-- A client given `h:2` dials the empty target. -/
theorem init_dials_empty :
    stripUrl [0x68, 0x3a, 0x32] = [] ∧ ¬ Stripped [0x68, 0x3a, 0x32] ∧
      dials ((fresh 0).record (.init [0x68, 0x3a, 0x32], { members := [.error ⟨"unavailable"⟩] })) =
        [{ addr := [0x68, 0x3a, 0x32], target := [] }] := by
  refine ⟨by decide, fun h => ?_, rfl⟩
  exact absurd (h.plain (by decide)) (by decide)

end TikvCpp.PDClient
