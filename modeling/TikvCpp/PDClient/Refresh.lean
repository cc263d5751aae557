import TikvCpp.PDClient.Picks

/-! The loop of `get_leader_stub`. A round whose `GetMembers` fails leaves everything but
the answers and random numbers it has used. A round whose `GetMembers` is answered is the
last one: the stub has been dropped before the loop, so the scan of `update_leader` finds
the leader of the answer and makes a stub for it. -/

namespace TikvCpp.PDClient

open Data Transition Transition.Program

def Event.outcome : Event → Option (Except Error Pdpb.GetMembersResponse)
  | .getMembers _ outcome => some outcome
  | .select _ | .discard | .connect _ | .send _ _ | .status _ => none

/-- The outcomes of the `GetMembers` in a record. -/
def outcomes (log : List Event) : List (Except Error Pdpb.GetMembersResponse) := log.filterMap Event.outcome

/-- A client that is led as the answer says: its stub is for one of the leader's addresses,
the leader is the one flagged member of the pool, and the cluster id is that of the header. -/
structure LedAs (resp : Pdpb.GetMembersResponse) (c : PDClient) : Prop where
  stub : ∃ url ∈ resp.leader.clientUrls, c.leaderStub = some (newStub url)
  leader : c.leader = serverInfo resp.leader true
  flagged : ∀ id info, (c.members[id]? = some info ∧ info.isLeader = true) ↔
    id = resp.leader.memberId ∧ info = c.leader
  clusterId : c.clusterId = resp.header.clusterId

variable {w : ClientSession}

/-- A range that is not empty, and a random number for it. -/
theorem selectRandomly_picks {α : Type} {range : List α} {Q : α → ClientSession → Prop}
    {E : Stop → ClientSession → Prop} {n : ℕ} {picks : List ℕ} (hrange : range ≠ [])
    (hpicks : w.inputs.picks = n :: picks)
    (h : ∀ a ∈ range, Q a { state := w.state, inputs := { w.inputs with picks := picks }
                            log := w.log ++ [.select range.length] }) :
    Meets (selectRandomly range) Q E w := by
  unfold selectRandomly
  rw [meets_bind, meets_emit, dif_pos (List.length_pos_iff.mpr hrange), meets_bind]
  refine Meets.ask (fun hnone => ?_) fun k inputs hnext => ?_
  · have := Environment.pop_eq_none hnone
    rw [hpicks] at this
    contradiction
  · obtain ⟨rest, heq, rfl⟩ := Environment.pop_eq_some hnext
    obtain ⟨rfl, rfl⟩ := List.cons.inj (hpicks.symm.trans heq)
    exact meets_pure.mpr (h _ (List.get_mem _ _))

/-- `get_pd_members_inner` on the next outcome. -/
theorem askMembers_next {stub : Stub}
    {Q : Except Error ((OrdMap UInt64 PDServerInfo × PDServerInfo) × UInt64) → ClientSession → Prop}
    {E : Stop → ClientSession → Prop} {o : Except Error Pdpb.GetMembersResponse}
    {rest : List (Except Error Pdpb.GetMembersResponse)} (hmembers : w.inputs.members = o :: rest)
    (h : Q (getPdMembersInner o) { state := w.state, inputs := { w.inputs with members := rest }
                                   log := w.log ++ [.getMembers stub o] }) :
    Meets (askMembers stub) Q E w := by
  refine askMembers_meets (fun hnone => ?_) fun o' rest' heq => ?_
  · rw [hmembers] at hnone
    contradiction
  · obtain ⟨rfl, rfl⟩ := List.cons.inj (hmembers.symm.trans heq)
    exact h

/-- The scan of `update_leader` on the answer just stored, while there is no stub. -/
theorem connectLeader_picks {c : PDClient} {resp : Pdpb.GetMembersResponse} {Q : Bool → ClientSession → Prop}
    {E : Stop → ClientSession → Prop} {n : ℕ} {picks : List ℕ} (hw : w.state = c.answered resp)
    (hstub : c.leaderStub = none) (hurl : resp.leader.clientUrls ≠ []) (hpicks : w.inputs.picks = n :: picks)
    (h : ∀ url ∈ resp.leader.clientUrls, Q true
      { state := (c.answered resp).connected (newStub url), inputs := { w.inputs with picks := picks }
        log := w.log ++ [.select resp.leader.clientUrls.length] ++ [.connect (newStub url)] }) :
    Meets connectLeader Q E w := by
  unfold connectLeader
  rw [meets_bind, meets_state, hw, flaggedMember_answered, if_pos hstub]
  refine meets_bind.mpr (meets_modifyState.mpr (meets_bind.mpr ?_))
  rw [hw]
  refine selectRandomly_picks hurl hpicks fun url hmem => ?_
  exact meets_bind.mpr (meets_modifyState.mpr (meets_bind.mpr (meets_emit.mpr (meets_pure.mpr (h url hmem)))))

/-- The random numbers of a round, and what it does with the address they lead to. -/
theorem tryMember_picks {Q : Unit → ClientSession → Prop} {E : Stop → ClientSession → Prop} {n k : ℕ}
    {picks : List ℕ} (hsize : w.state.members.size ≠ 0) (haddr : Addressed w.state)
    (hpicks : w.inputs.picks = n :: k :: picks)
    (h : ∀ (d d' : ℕ) (url : Str), Meets (updateLeader (newStub url)) (fun _ w' => Q () w') E
      { state := w.state, inputs := { w.inputs with picks := picks }
        log := w.log ++ [.select d] ++ [.select d'] }) :
    Meets tryMember Q E w := by
  unfold tryMember
  have hpool : w.state.members.toList ≠ [] := by
    rw [← List.length_pos_iff, Std.ExtTreeMap.length_toList]
    exact Nat.pos_of_ne_zero hsize
  rw [meets_bind, meets_state, meets_bind]
  refine selectRandomly_picks hpool hpicks fun member hmember => ?_
  have hurls := haddr _ _ (Std.ExtTreeMap.mem_toList_iff_getElem?_eq_some.mp hmember)
  rw [meets_bind]
  refine selectRandomly_picks hurls rfl fun url _ => ?_
  exact meets_bind.mpr (h _ _ url)

/-- A round whose `GetMembers` fails. -/
theorem tryMember_failed {err : Error} {rest : List (Except Error Pdpb.GetMembersResponse)} {n k : ℕ}
    {picks : List ℕ} (hsize : w.state.members.size ≠ 0) (haddr : Addressed w.state)
    (hmembers : w.inputs.members = .error err :: rest) (hpicks : w.inputs.picks = n :: k :: picks) :
    ∃ w', tryMember w = .ok () w' ∧ w'.state = w.state ∧
      w'.inputs = { w.inputs with members := rest, picks := picks } ∧
      outcomes w'.log = outcomes w.log ++ [.error err] := by
  have hmeets : Meets tryMember (fun _ w' => w'.state = w.state ∧
      w'.inputs = { w.inputs with members := rest, picks := picks } ∧
      outcomes w'.log = outcomes w.log ++ [.error err]) (fun _ _ => False) w := by
    refine tryMember_picks hsize haddr hpicks fun d d' url => ?_
    unfold updateLeader
    rw [meets_bind]
    refine askMembers_next hmembers (meets_pure.mpr ⟨rfl, rfl, ?_⟩)
    simp [outcomes, Event.outcome, List.filterMap_cons]
  obtain ⟨⟨⟩, w', hrun, hw'⟩ := hmeets.exists_ok
  exact ⟨w', hrun, hw'⟩

/-- A round whose `GetMembers` is answered, while there is no stub. -/
theorem tryMember_answered {resp : Pdpb.GetMembersResponse} {rest : List (Except Error Pdpb.GetMembersResponse)}
    {n k i : ℕ} {picks : List ℕ} (hsize : w.state.members.size ≠ 0) (haddr : Addressed w.state)
    (hstub : w.state.leaderStub = none) (hmembers : w.inputs.members = .ok resp :: rest)
    (hpicks : w.inputs.picks = n :: k :: i :: picks) (hurl : resp.leader.clientUrls ≠ []) :
    ∃ w', tryMember w = .ok () w' ∧ outcomes w'.log = outcomes w.log ++ [.ok resp] ∧
      ∃ url ∈ resp.leader.clientUrls, w'.state = (w.state.answered resp).connected (newStub url) := by
  have hmeets : Meets tryMember (fun _ w' => outcomes w'.log = outcomes w.log ++ [.ok resp] ∧
      ∃ url ∈ resp.leader.clientUrls, w'.state = (w.state.answered resp).connected (newStub url))
      (fun _ _ => False) w := by
    refine tryMember_picks hsize haddr hpicks fun d d' url => ?_
    unfold updateLeader
    rw [meets_bind]
    refine askMembers_next hmembers (meets_bind.mpr (meets_modifyState.mpr ?_))
    refine connectLeader_picks (c := w.state) rfl hstub hurl rfl fun url' hurl' => ⟨?_, url', hurl', rfl⟩
    simp [outcomes, Event.outcome, List.filterMap_cons]
  obtain ⟨⟨⟩, w', hrun, hw'⟩ := hmeets.exists_ok
  exact ⟨w', hrun, hw'⟩

theorem ledAs_answered (c : PDClient) {resp : Pdpb.GetMembersResponse} {url : Str}
    (hurl : url ∈ resp.leader.clientUrls) : LedAs resp ((c.answered resp).connected (newStub url)) where
  stub := ⟨url, hurl, rfl⟩
  leader := rfl
  flagged _ _ := pdMembers_flagged
  clusterId := rfl

theorem exists_two {picks : List ℕ} (h : 2 ≤ picks.length) : ∃ n k rest, picks = n :: k :: rest := by
  obtain ⟨n, left, rfl⟩ := List.exists_cons_of_length_pos (Nat.lt_of_succ_lt h)
  obtain ⟨k, rest, rfl⟩ := List.exists_cons_of_length_pos (Nat.le_of_succ_le_succ h)
  exact ⟨n, k, rest, rfl⟩

/-- The rounds of the loop, from where the stub has been dropped. -/
abbrev RefreshRounds (c : PDClient) (env : Environment) : ℕ → ClientSession → Prop :=
  Rounds tryMember (fun c => c.leaderStub.isNone) { state := c.discarded, inputs := env, log := [.discard] }

/-- As long as `GetMembers` fails the loop goes on and changes nothing. -/
theorem refresh_failing {c : PDClient} {env : Environment} {failures : List Error}
    {tail : List (Except Error Pdpb.GetMembersResponse)} (hsize : c.members.size ≠ 0) (haddr : Addressed c)
    (hmembers : env.members = failures.map .error ++ tail) (hpicks : 2 * failures.length ≤ env.picks.length) :
    ∃ m, RefreshRounds c env failures.length m ∧ m.state = c.discarded ∧
      m.inputs = { env with members := tail, picks := env.picks.drop (2 * failures.length) } ∧
      outcomes m.log = failures.map .error := by
  induction failures using List.reverseRecOn generalizing tail with
  | nil =>
    obtain rfl : env.members = tail := hmembers
    exact ⟨_, .start, rfl, rfl, rfl⟩
  | append_singleton failures err ih =>
    rw [List.map_append, List.append_assoc] at hmembers
    rw [List.length_append, List.length_singleton] at hpicks ⊢
    obtain ⟨m, hrounds, hstate, hinputs, hlog⟩ := ih hmembers (by omega)
    have hlen : 2 ≤ (env.picks.drop (2 * failures.length)).length := by
      rw [List.length_drop]
      omega
    obtain ⟨n, k, picks, hdrop⟩ := exists_two hlen
    have hleft : env.picks.drop (2 * (failures.length + 1)) = picks := by
      rw [Nat.mul_succ, ← List.drop_drop, hdrop]
      rfl
    have hsize' : m.state.members.size ≠ 0 := by rw [hstate]; exact hsize
    have haddr' : Addressed m.state := by rw [hstate]; exact haddr
    have hnext : m.inputs.members = .error err :: tail := by rw [hinputs]; rfl
    have hleft' : m.inputs.picks = n :: k :: picks := by rw [hinputs]; exact hdrop
    obtain ⟨w', hrun, hstate', hinputs', hlog'⟩ := tryMember_failed hsize' haddr' hnext hleft'
    refine ⟨w', .round hrounds hrun (by rw [hstate', hstate]; rfl), hstate'.trans hstate, ?_, ?_⟩
    · rw [hinputs', hinputs, hleft]
    · rw [hlog', hlog, List.map_append]
      rfl

/-- The loop of `get_leader_stub`, from a client whose pool has an address for each of its
members, whatever the random numbers: up to the first answered `GetMembers` each round
fails and changes nothing, and the round of that answer is the last and leaves the client
led as the answer says. -/
theorem refresh_ends {c : PDClient} {env : Environment} {force : Bool} {failures : List Error}
    {tail : List (Except Error Pdpb.GetMembersResponse)} (hrefresh : c.leaderStub = none ∨ force = true)
    (hsize : c.members.size ≠ 0) (haddr : Addressed c) (hmembers : env.members = failures.map .error ++ tail)
    (hpicks : 2 * failures.length ≤ env.picks.length) :
    (∀ k ≤ failures.length, ∃ m, RefreshRounds c env k m ∧ m.state = c.discarded ∧
      outcomes m.log = (failures.take k).map .error) ∧
    ∀ resp rest, tail = .ok resp :: rest → resp.leader.clientUrls ≠ [] → 2 * failures.length + 3 ≤ env.picks.length →
      ∃ m w' stub, RefreshRounds c env failures.length m ∧ tryMember m = .ok () w' ∧
        getLeaderStub force { state := c, inputs := env } = .ok (some stub) w' ∧
        outcomes w'.log = failures.map .error ++ [.ok resp] ∧ w'.state.leaderStub = some stub ∧
        LedAs resp w'.state := by
  constructor
  · intro k hk
    have hsplit : env.members = (failures.take k).map .error ++ ((failures.drop k).map .error ++ tail) := by
      rw [← List.append_assoc, ← List.map_append, List.take_append_drop, hmembers]
    have hlen : (failures.take k).length = k := List.length_take_of_le hk
    obtain ⟨m, hrounds, hstate, _, hlog⟩ := refresh_failing hsize haddr hsplit (by omega)
    exact ⟨m, hlen ▸ hrounds, hstate, hlog⟩
  · rintro resp rest rfl hurl hpicks'
    obtain ⟨m, hrounds, hstate, hinputs, hlog⟩ := refresh_failing hsize haddr hmembers hpicks
    have hlen : 3 ≤ (env.picks.drop (2 * failures.length)).length := by
      rw [List.length_drop]
      omega
    obtain ⟨n, k, left, hdrop⟩ := exists_two (by omega : 2 ≤ (env.picks.drop (2 * failures.length)).length)
    rw [hdrop] at hlen
    obtain ⟨i, picks, rfl⟩ := List.exists_cons_of_length_pos (Nat.le_of_succ_le_succ (Nat.le_of_succ_le_succ hlen))
    have hsize' : m.state.members.size ≠ 0 := by rw [hstate]; exact hsize
    have haddr' : Addressed m.state := by rw [hstate]; exact haddr
    have hdropped : m.state.leaderStub = none := by rw [hstate]; rfl
    have hnext : m.inputs.members = .ok resp :: rest := by rw [hinputs]
    have hleft : m.inputs.picks = n :: k :: i :: picks := by rw [hinputs]; exact hdrop
    obtain ⟨w', hrun, hlog', url, hmem, hstate'⟩ := tryMember_answered hsize' haddr' hdropped hnext hleft hurl
    have hstub : w'.state.leaderStub = some (newStub url) := by
      rw [hstate']
      rfl
    refine ⟨m, w', newStub url, hrounds, hrun, ?_, by rw [hlog', hlog], hstub, ?_⟩
    · have hloop : loop (fun env : Environment => env.members.length) tryMember (fun c => c.leaderStub.isNone)
          { state := c.discarded, inputs := env, log := [.discard] } = .ok () w' := by
        refine hrounds.loop_eq hrun (by rw [hstub]; rfl) ?_
        rw [hmembers, List.length_append, List.length_map]
        exact Nat.le_add_right _ _
      have hmeets : Meets (getLeaderStub force) (fun stub w => stub = some (newStub url) ∧ w = w') (fun _ _ => False)
          { state := c, inputs := env } := by
        unfold getLeaderStub
        rw [meets_bind, meets_state, if_pos (by simpa using hrefresh)]
        refine meets_bind.mpr (meets_modifyState.mpr (meets_bind.mpr (meets_emit.mpr (meets_bind.mpr ?_))))
        refine Meets.of_run hloop ?_
        exact meets_bind.mpr (meets_state.mpr (meets_pure.mpr ⟨hstub, rfl⟩))
      obtain ⟨stub, _, hrun', rfl, rfl⟩ := hmeets.exists_ok
      exact hrun'
    · rw [hstate']
      exact ledAs_answered m.state hmem

/-- The first member asked does not answer, the second one names a new leader. -/
def lateAnswer : Environment where
  picks := [3, 1, 4, 1, 5]
  members := [.error ⟨"unavailable"⟩, .ok (ledBy 2 urlA)]

theorem refresh_ends_lateAnswer :
    ∃ m w' stub, RefreshRounds clientOfB lateAnswer 1 m ∧ tryMember m = .ok () w' ∧
      getLeaderStub true { state := clientOfB, inputs := lateAnswer } = .ok (some stub) w' ∧
      outcomes w'.log = [.error ⟨"unavailable"⟩, .ok (ledBy 2 urlA)] ∧ w'.state.leaderStub = some stub ∧
      LedAs (ledBy 2 urlA) w'.state := by
  have hcomplete : Complete (ledBy 1 urlB) := complete_of_members (by simp [ledBy]) (by simp [ledBy])
  have haddr : Addressed clientOfB := addressed_answered (fresh 0) hcomplete
  have hmembers : lateAnswer.members = [⟨"unavailable"⟩].map .error ++ [.ok (ledBy 2 urlA)] := rfl
  exact (refresh_ends (.inr rfl) (by decide) haddr hmembers (by decide)).2 _ _ rfl (by simp [ledBy]) (by decide)

end TikvCpp.PDClient
