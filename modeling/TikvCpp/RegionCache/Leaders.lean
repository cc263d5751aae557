import TikvCpp.RegionCache.Provenance

/-! The leader of a cached region. PD's leader is looked up twice among the peers,
by its id and, if it is set, by its store. Either scan leaves the leader alone
when no peer matches, and the loaders accept a region whose leader was never
found: its leader stays the unset peer, whose ids are zero. Nothing that happens
in the cache makes the leader anything else than a peer or that unset peer. -/

namespace TikvCpp

namespace Region

/-- A scan that some peer matches ends at a peer. -/
theorem switchLeaderTo_mem {r : Region} {f : Peer → Bool}
    (h : r.leader ∈ r.peers ∨ ∃ p ∈ r.peers, f p = true) : (r.switchLeaderTo f).leader ∈ r.peers := by
  rcases r.switchLeaderTo_leader f with ⟨hmem, _⟩ | ⟨heq, hnone⟩
  · exact hmem
  · rcases h with hl | ⟨p, hp, hf⟩
    · exact heq ▸ hl
    · rw [hnone p hp] at hf
      contradiction

/-- A scan that no peer matches changes nothing. -/
theorem switchLeaderTo_of_none {r : Region} {f : Peer → Bool} (h : ∀ p ∈ r.peers, f p = false) :
    (r.switchLeaderTo f).leader = r.leader := by
  rcases r.switchLeaderTo_leader f with ⟨hmem, hf⟩ | ⟨heq, _⟩
  · rw [h _ hmem] at hf
    contradiction
  · exact heq

/-- A scan that one peer alone matches ends at this peer. -/
theorem switchLeaderTo_unique {r : Region} {f : Peer → Bool} {p : Peer} (hp : p ∈ r.peers)
    (hf : f p = true) (hu : ∀ q ∈ r.peers, f q = true → q = p) : (r.switchLeaderTo f).leader = p := by
  rcases r.switchLeaderTo_leader f with ⟨hmem, hfl⟩ | ⟨_, hnone⟩
  · exact hu _ hmem hfl
  · rw [hnone p hp] at hf
    contradiction

end Region

namespace RegionCache

open Transition PDClient

/-! ### The leader of an accepted answer -/

/-- The region of a PD answer before any leader is set. -/
def answeredPeers (resp : Pdpb.GetRegionResponse) : List Peer := (parseGetRegionResult resp).1.peers

/-- PD's leader as a peer. -/
def answeredLeader (resp : Pdpb.GetRegionResponse) : Peer := (parseGetRegionResult resp).2

/-- One of the two scans finds a peer: one has the id of PD's leader, or PD's leader
is set and one lives on its store. -/
def LeaderFound (resp : Pdpb.GetRegionResponse) : Prop :=
  (∃ p ∈ answeredPeers resp, p.id = (answeredLeader resp).id) ∨
    (0 < (answeredLeader resp).id ∧ 0 < (answeredLeader resp).storeId) ∧
      ∃ p ∈ answeredPeers resp, p.storeId = (answeredLeader resp).storeId

/-- What the loaders accept: the parsed region, switched to the store of PD's leader
if both ids of that leader are set. -/
theorem acceptRegion_eq_ok {resp : Pdpb.GetRegionResponse} {r : Region} :
    acceptRegion (getRegionInner (.ok resp)) = .ok r ↔ answeredPeers resp ≠ [] ∧
      r = if 0 < (answeredLeader resp).id ∧ 0 < (answeredLeader resp).storeId
        then (parseGetRegionResult resp).1.switchLeader (answeredLeader resp).storeId
        else (parseGetRegionResult resp).1 := by
  simp only [acceptRegion, getRegionInner, Except.map, answeredPeers, answeredLeader, gt_iff_lt,
    List.length_eq_zero_iff]
  by_cases hp : (parseGetRegionResult resp).1.peers = []
  · simp [hp]
  · by_cases hl : 0 < (parseGetRegionResult resp).2.id ∧ 0 < (parseGetRegionResult resp).2.storeId <;>
      simp only [hp, hl, if_true, if_false, Except.ok.injEq, ne_eq, not_false_eq_true, true_and, and_self] <;>
      exact eq_comm

theorem peers_of_accept {resp : Pdpb.GetRegionResponse} {r : Region}
    (h : acceptRegion (getRegionInner (.ok resp)) = .ok r) : r.peers = answeredPeers resp := by
  obtain ⟨_, rfl⟩ := acceptRegion_eq_ok.mp h
  split_ifs <;> rfl

/-- The leader after the scan by id. -/
theorem parse_leader (resp : Pdpb.GetRegionResponse) :
    ((parseGetRegionResult resp).1.leader ∈ answeredPeers resp ∧
        (parseGetRegionResult resp).1.leader.id = (answeredLeader resp).id) ∨
      ((parseGetRegionResult resp).1.leader = {} ∧
        ∀ p ∈ answeredPeers resp, p.id ≠ (answeredLeader resp).id) := by
  have h := Region.switchLeaderTo_leader
    { verId := ⟨resp.region.id, resp.region.regionEpoch.confVer, resp.region.regionEpoch.version⟩
      startKey := resp.region.startKey, endKey := resp.region.endKey
      peers := resp.region.peers.map fun it => { id := it.id, storeId := it.storeId } }
    fun p => p.id == resp.leader.id
  simpa [parseGetRegionResult, Region.switchLeaderByPeerId, answeredPeers, answeredLeader] using h

theorem leader_mem_or_unset {resp : Pdpb.GetRegionResponse} {r : Region}
    (h : acceptRegion (getRegionInner (.ok resp)) = .ok r) : r.leader ∈ r.peers ∨ r.leader = {} := by
  rw [peers_of_accept h]
  obtain ⟨_, rfl⟩ := acceptRegion_eq_ok.mp h
  have hparse : (parseGetRegionResult resp).1.leader ∈ answeredPeers resp ∨
      (parseGetRegionResult resp).1.leader = {} := (parse_leader resp).imp And.left And.left
  split_ifs
  · rcases (parseGetRegionResult resp).1.switchLeaderTo_leader
      (fun p => p.storeId == (answeredLeader resp).storeId) with ⟨hmem, _⟩ | ⟨heq, _⟩
    · exact .inl hmem
    · rw [Region.switchLeader, heq]
      exact hparse
  · exact hparse

/-- The leader of an accepted region is a peer exactly when a scan finds one, or when
the unset peer is itself listed. -/
theorem leader_mem_iff {resp : Pdpb.GetRegionResponse} {r : Region}
    (h : acceptRegion (getRegionInner (.ok resp)) = .ok r) :
    r.leader ∈ r.peers ↔ LeaderFound resp ∨ ({} : Peer) ∈ r.peers := by
  have hunset := leader_mem_or_unset h
  rw [peers_of_accept h] at hunset ⊢
  obtain ⟨_, rfl⟩ := acceptRegion_eq_ok.mp h
  constructor
  · intro hmem
    by_contra hno
    obtain ⟨hfound, hlisted⟩ := not_or.mp hno
    obtain ⟨hid, hstore⟩ := not_or.mp hfound
    have hparse : (parseGetRegionResult resp).1.leader = {} := by
      rcases parse_leader resp with ⟨hp, hpid⟩ | ⟨heq, _⟩
      · exact absurd ⟨_, hp, hpid⟩ hid
      · exact heq
    apply hlisted
    split_ifs at hmem with hset
    · rw [Region.switchLeader, Region.switchLeaderTo_of_none, hparse] at hmem
      · exact hmem
      · intro p hp
        simpa using fun heq => hstore ⟨hset, p, hp, heq⟩
    · exact hparse ▸ hmem
  · rintro ((⟨p, hp, hid⟩ | ⟨hset, p, hp, hst⟩) | hlisted)
    · have hparse : (parseGetRegionResult resp).1.leader ∈ answeredPeers resp := by
        rcases parse_leader resp with ⟨hmem, _⟩ | ⟨_, hnone⟩
        · exact hmem
        · exact absurd hid (hnone p hp)
      split_ifs
      · exact Region.switchLeaderTo_mem (.inl hparse)
      · exact hparse
    · rw [if_pos hset]
      exact Region.switchLeaderTo_mem (.inr ⟨p, hp, by simpa using hst⟩)
    · rcases hunset with hmem | heq
      · exact hmem
      · rw [heq]
        exact hlisted

/-- Among peers with distinct ids and distinct stores PD's leader is found as it is. -/
theorem leader_eq {resp : Pdpb.GetRegionResponse} {r : Region}
    (h : acceptRegion (getRegionInner (.ok resp)) = .ok r)
    (hid : (r.peers.map Peer.id).Nodup) (hst : (r.peers.map Peer.storeId).Nodup)
    (hl : answeredLeader resp ∈ r.peers) : r.leader = answeredLeader resp := by
  rw [peers_of_accept h] at hid hst hl
  obtain ⟨_, rfl⟩ := acceptRegion_eq_ok.mp h
  have hparse : (parseGetRegionResult resp).1.leader = answeredLeader resp := by
    rcases parse_leader resp with ⟨hmem, heq⟩ | ⟨_, hnone⟩
    · exact List.inj_on_of_nodup_map hid hmem hl heq
    · exact absurd rfl (hnone _ hl)
  split_ifs
  · refine Region.switchLeaderTo_unique hl (by simp) fun q hq hqs => ?_
    exact List.inj_on_of_nodup_map hst hq hl (by simpa using hqs)
  · exact hparse

/-! ### The leaders of cached regions -/

section Runs

variable {ι : Type} {P : Region → Prop}

/-- What leader switches keep, the switches since an insert keep. -/
theorem switches_of (hsw : ∀ r storeId, P r → P (r.switchLeader storeId)) {r : Region} (hr : P r)
    (t₀ : Time) (post : List (Event ι)) : P (switches r t₀ post) := by
  induction post using List.reverseRecOn with
  | nil => exact hr
  | append_singleton post e ih =>
    rw [switches_snoc]
    cases e with
    | updateRegionLeader i w storeId t now =>
      simp only [Event.switch]
      split_ifs
      · exact hsw _ _ ih
      · exact ih
    | _ => exact ih

/-- The property holds of every region that the loader accepted from an answer of the history. -/
def Accepted (P : Region → Prop) (tr : List (Event ι)) : Prop :=
  ∀ i key resp r, .request i key (.ok resp) ∈ tr →
    loadRegionFromPd (getRegionInner (.ok resp)) = .ok r → P r

variable [DecidableEq ι] {tr : List (Event ι)} {s : Sys ι}

/-- What holds of the accepted regions and is kept by leader switches holds of the
cached regions. -/
theorem cached_of_accepted (hsw : ∀ r storeId, P r → P (r.switchLeader storeId))
    (h : run step (Sys.init ι) tr = some s) (hP : Accepted P tr) {v : RegionVerID} {c : CachedRegion}
    (hc : s.cache.cachedRegions[v]? = some c) : P c.region := by
  obtain ⟨pre, i, r, t₀, post, htr, _, _, hreg, _⟩ := inserted h hc
  obtain ⟨key, hreq⟩ := requested_of_insert h htr
  obtain ⟨resp, hmem, hok, _⟩ := hreq.exists_answer
  rw [hreg]
  refine switches_of hsw (hP i key resp r ?_ hok) t₀ post
  rw [htr]
  exact List.mem_append_left _ hmem

/-- A context holds a region that it held before the step, or that is cached. -/
theorem Step.context {s s' : Sys ι} {e : Event ι} (h : Step s e s') {j : ι} {v : RegionVerID}
    {ri : Region} (hp : s'.phase j = .context v ri) : s.phase j = .context v ri ∨
      ∃ c : CachedRegion, s.cache.cachedRegions[v]? = some c ∧ c.region = ri := by
  rcases h.enters j with ⟨_, hsame⟩ | ⟨_, hin⟩
  · exact .inl (hsame.symm.trans hp)
  · right
    rw [hp] at hin
    obtain ⟨t, now, _, hit⟩ := hin
    obtain ⟨c, hc, _, hr⟩ := getCachedRegion_eq_some.mp hit
    exact ⟨c, hc, hr⟩

/-- And it holds of the regions that `get_rpc_context` has copied. -/
theorem context_of_accepted (hsw : ∀ r storeId, P r → P (r.switchLeader storeId))
    (h : run step (Sys.init ι) tr = some s) (hP : Accepted P tr) {i : ι} {v : RegionVerID}
    {ri : Region} (hp : s.phase i = .context v ri) : P ri := by
  refine run_induction (P := fun tr s => Accepted P tr → s.phase i = .context v ri → P ri)
    ?_ ?_ h hP hp
  · intro _ hp
    simp [Sys.init] at hp
  · intro tr m e m' hrun ih he hP hp
    have hP' : Accepted P tr := fun j key resp r hmem => hP j key resp r (List.mem_append_left _ hmem)
    rcases (step_cases he).context hp with hp | ⟨c, hc, rfl⟩
    · exact ih hP' hp
    · exact cached_of_accepted hsw hrun hP' hc

/-- A store lookup made for `get_rpc_context` is for the leader's store. -/
theorem findStore_of_context {s s' : Sys ι} {i : ι} {v : RegionVerID} {ri : Region} {storeId : UInt64}
    (hp : s.phase i = .context v ri) (h : step s (.findStore i storeId) = some s') :
    storeId = ri.leader.storeId := by
  simp only [step, hp, Phase.caller] at h
  by_contra hne
  simp [hne] at h

/-- The leader is one of the peers. -/
def LeaderIsPeer (r : Region) : Prop := r.leader ∈ r.peers

theorem leaderIsPeer_switchLeader {r : Region} (storeId : UInt64) (h : LeaderIsPeer r) :
    LeaderIsPeer (r.switchLeader storeId) := Region.switchLeaderTo_mem (.inl h)

theorem leaderIsPeer_or_unset_switchLeader {r : Region} (storeId : UInt64)
    (h : LeaderIsPeer r ∨ r.leader = {}) :
    LeaderIsPeer (r.switchLeader storeId) ∨ (r.switchLeader storeId).leader = {} := by
  rcases r.switchLeaderTo_leader (fun p => p.storeId == storeId) with ⟨hmem, _⟩ | ⟨heq, _⟩
  · exact .inl hmem
  · rw [LeaderIsPeer, Region.switchLeader, heq]
    exact h

/-- The leader of a region that the loaders accept is one of its peers or unset; it is
a peer exactly when one of the two scans finds PD's leader or the unset peer is
listed, and it is PD's leader if that is a peer and ids and stores are distinct.
In every reachable state so is the leader of every cached region, and
`get_rpc_context` looks up the store of a peer or store 0; it is always a peer if
a scan found the leader in every answer accepted so far. -/
theorem leader_of_accepted (h : run step (Sys.init ι) tr = some s) :
    (∀ resp r, loadRegionFromPd (getRegionInner (.ok resp)) = .ok r ∨
        loadRegionFromPdById (getRegionInner (.ok resp)) = .ok r →
      (LeaderIsPeer r ∨ r.leader = {}) ∧
      (LeaderIsPeer r ↔ LeaderFound resp ∨ ({} : Peer) ∈ r.peers) ∧
      ((r.peers.map Peer.id).Nodup → (r.peers.map Peer.storeId).Nodup →
        answeredLeader resp ∈ r.peers → r.leader = answeredLeader resp)) ∧
    (∀ (v : RegionVerID) (c : CachedRegion), s.cache.cachedRegions[v]? = some c →
      LeaderIsPeer c.region ∨ c.region.leader = {}) ∧
    (∀ i v ri storeId s', s.phase i = .context v ri → step s (.findStore i storeId) = some s' →
      (∃ p ∈ ri.peers, p.storeId = storeId) ∨ storeId = 0) ∧
    ((∀ i key resp, .request i key (.ok resp) ∈ tr → answeredPeers resp ≠ [] → LeaderFound resp) →
      (∀ (v : RegionVerID) (c : CachedRegion), s.cache.cachedRegions[v]? = some c →
        LeaderIsPeer c.region) ∧
      ∀ i v ri storeId s', s.phase i = .context v ri → step s (.findStore i storeId) = some s' →
        ∃ p ∈ ri.peers, p.storeId = storeId) := by
  have hknown : Accepted (fun r => LeaderIsPeer r ∨ r.leader = {}) tr :=
    fun i key resp r _ hok => leader_mem_or_unset hok
  refine ⟨fun resp r hr => ?_, fun v c hc => ?_, fun i v ri storeId s' hp hs => ?_, fun hfound => ?_⟩
  · have hok : acceptRegion (getRegionInner (.ok resp)) = .ok r := hr.elim id id
    exact ⟨leader_mem_or_unset hok, leader_mem_iff hok, leader_eq hok⟩
  · exact cached_of_accepted (fun _ storeId => leaderIsPeer_or_unset_switchLeader storeId) h hknown hc
  · obtain rfl := findStore_of_context hp hs
    rcases context_of_accepted (fun _ storeId => leaderIsPeer_or_unset_switchLeader storeId) h hknown hp
      with hmem | hunset
    · exact .inl ⟨ri.leader, hmem, rfl⟩
    · exact .inr (by rw [hunset])
  · have hpeer : Accepted LeaderIsPeer tr := fun i key resp r hmem hok =>
      (leader_mem_iff hok).mpr (.inl (hfound i key resp hmem (acceptRegion_eq_ok.mp hok).1))
    refine ⟨fun v c hc => cached_of_accepted (fun _ => leaderIsPeer_switchLeader) h hpeer hc, ?_⟩
    intro i v ri storeId s' hp hs
    obtain rfl := findStore_of_context hp hs
    exact ⟨ri.leader, context_of_accepted (fun _ => leaderIsPeer_switchLeader) h hpeer hp, rfl⟩

theorem leader_of_accepted_twoLoads :
    ∃ s, run step (Sys.init Bool) twoLoads = some s ∧
      ∀ (v : RegionVerID) (c : CachedRegion), s.cache.cachedRegions[v]? = some c →
        LeaderIsPeer c.region ∨ c.region.leader = {} := by
  have h := (Option.some_get twoLoads_isSome).symm
  exact ⟨_, h, (leader_of_accepted h).2.1⟩

/-- A region whose leader PD does not know. -/
def answerLeaderless : Pdpb.GetRegionResponse where
  region := { id := 2, endKey := [0x6d], peers := [{ id := 21, storeId := 1 }] }

/-- The loader accepts it, and its leader is no peer. -/
theorem leader_unset :
    ∃ r, loadRegionFromPd (getRegionInner (.ok answerLeaderless)) = .ok r ∧ ¬ LeaderIsPeer r ∧
      r.leader.storeId = 0 :=
  ⟨_, rfl, by unfold LeaderIsPeer; decide, rfl⟩

end Runs

end RegionCache

end TikvCpp
