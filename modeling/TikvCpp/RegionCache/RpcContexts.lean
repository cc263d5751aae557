import TikvCpp.RegionCache.StoreAddrs

/-! What `get_rpc_context` returns. A call reads the region, obtains the address of its
leader's store from `stores_` or from PD, and assembles the context from both; other
clients may step in between. Region, peer and address of the context belong together
whatever happens meanwhile. Its version does not: `get_rpc_context` never sets it, so it
is the default one. A call that fails leaves the region maps alone, unless it has
obtained an empty address: then it drops the version. -/

namespace TikvCpp.RegionCache

open Data Transition PDClient

variable {ι : Type}

/-- A step of a store lookup, which commits nothing to the region maps. -/
def Event.IsStoreStep : Event ι → Prop
  | .findStore _ _ | .requestStore _ _ _ | .writeStore _ _ _ => True
  | _ => False

theorem Event.IsStoreStep.commit {e : Event ι} (h : e.IsStoreStep) (rc : RegionCache) :
    (e.commit rc).sorted = rc.sorted ∧ (e.commit rc).cachedRegions = rc.cachedRegions := by
  cases e with
  | findStore | requestStore | writeStore => exact ⟨rfl, rfl⟩
  | search | request | insert | readRegion | dropContext | dropRegion | updateRegionLeader =>
    exact h.elim

/-- PD has answered the store `st` for the id, and it is what was last written under it. -/
def LastRecorded (tr : List (Event ι)) (id : UInt64) (st : Store) : Prop :=
  ∃ pre j post, tr = pre ++ .writeStore j id st :: post ∧ (∀ k st', .writeStore k id st' ∉ post) ∧
    ∃ resp, .requestStore j id (.ok resp) ∈ pre ∧ resp.store.address = st.addr

variable [DecidableEq ι]

/-! ### The steps of a call -/

/-- Client `i` is in a call of `get_rpc_context` that has read the region `ri` under `v`
and has made only steps of a store lookup since. -/
def ReadIn (tr : List (Event ι)) (i : ι) (v : RegionVerID) (ri : Region) : Prop :=
  ∃ pre t now mid q, tr = pre ++ .readRegion i v t now :: mid ∧ run step (Sys.init ι) pre = some q ∧
    (q.cache.getCachedRegion v t now).1 = some ri ∧ ∀ e ∈ mid, e.client = i → e.IsStoreStep

/-- The last step of client `i` has obtained the address for the store, from `stores_` or
from PD. -/
def Obtained (tr : List (Event ι)) (i : ι) (id : UInt64) (addr : Str) : Prop :=
  ∃ pre e mid q, tr = pre ++ e :: mid ∧ run step (Sys.init ι) pre = some q ∧ (∀ x ∈ mid, x.client ≠ i) ∧
    ∃ st : Store, st.addr = addr ∧
      (e = .findStore i id ∧ q.cache.stores[id]? = some st ∨ e = .writeStore i id st)

/-- Where a client is in a call of `get_rpc_context`, by what it has done. -/
def InCall (tr : List (Event ι)) (i : ι) : Phase → Prop
  | .context v ri => ReadIn tr i v ri
  | .reloading id (.getRpcContext v ri) | .fetched id _ (.getRpcContext v ri) =>
    id = ri.leader.storeId ∧ ReadIn tr i v ri
  | .dropping v => ∃ ri, ReadIn tr i v ri ∧ Obtained tr i ri.leader.storeId []
  | _ => True

theorem ReadIn.snoc {tr : List (Event ι)} {i : ι} {v : RegionVerID} {ri : Region} (h : ReadIn tr i v ri)
    {e : Event ι} (he : e.client = i → e.IsStoreStep) : ReadIn (tr ++ [e]) i v ri := by
  obtain ⟨pre, t, now, mid, q, rfl, hq, hread, hmid⟩ := h
  exact ⟨pre, t, now, mid ++ [e], q, by simp, hq, hread, forall_mem_snoc hmid he⟩

theorem Obtained.snoc {tr : List (Event ι)} {i : ι} {id : UInt64} {addr : Str} (h : Obtained tr i id addr)
    {e : Event ι} (he : e.client ≠ i) : Obtained (tr ++ [e]) i id addr := by
  obtain ⟨pre, x, mid, q, rfl, hq, hmid, hst⟩ := h
  exact ⟨pre, x, mid ++ [e], q, by simp, hq, forall_mem_snoc hmid he, hst⟩

/-- The steps of other clients do not move a call. -/
theorem InCall.snoc {tr : List (Event ι)} {i : ι} {p : Phase} (h : InCall tr i p) {e : Event ι}
    (he : e.client ≠ i) : InCall (tr ++ [e]) i p := by
  have hstore : e.client = i → e.IsStoreStep := fun heq => absurd heq he
  cases p with
  | context v ri => exact ReadIn.snoc h hstore
  | reloading id caller | fetched id _ caller =>
    cases caller with
    | client => trivial
    | getRpcContext v ri => exact ⟨h.1, h.2.snoc hstore⟩
  | dropping v =>
    obtain ⟨ri, hread, hobt⟩ := h
    exact ⟨ri, hread.snoc hstore, hobt.snoc he⟩
  | idle | missed | loaded => trivial

/-- What a store lookup for `get_rpc_context` starts from: the region was read, and the
store is the leader's. -/
def Caller.Asks (tr : List (Event ι)) (i : ι) (id : UInt64) : Caller → Prop
  | .client => True
  | .getRpcContext v ri => id = ri.leader.storeId ∧ ReadIn tr i v ri

theorem InCall.caller {tr : List (Event ι)} {i : ι} {p : Phase} (h : InCall tr i p) {id : UInt64}
    {caller : Caller} (hc : p.caller id = some caller) : caller.Asks tr i id := by
  cases p with
  | idle last => obtain rfl := Option.some.inj hc; trivial
  | context v ri =>
    simp only [Phase.caller] at hc
    split_ifs at hc with hid
    obtain rfl := Option.some.inj hc
    exact ⟨hid, h⟩
  | missed | loaded | reloading | fetched | dropping => contradiction

theorem InCall.reloader {tr : List (Event ι)} {i : ι} {p : Phase} (h : InCall tr i p) {id : UInt64}
    {caller : Caller} (hc : p.reloader id = some caller) : caller.Asks tr i id := by
  cases p with
  | idle last => obtain rfl := Option.some.inj hc; trivial
  | reloading id' caller' =>
    simp only [Phase.reloader] at hc
    split_ifs at hc with hid
    obtain rfl := Option.some.inj hc
    cases caller' with
    | client => trivial
    | getRpcContext v ri => exact hid ▸ h
  | missed | loaded | context | fetched | dropping => contradiction

theorem InCall.fetcher {tr : List (Event ι)} {i : ι} {id : UInt64} {st : Store} {caller : Caller}
    (h : InCall tr i (.fetched id st caller)) : caller.Asks tr i id := by
  cases caller with
  | client => trivial
  | getRpcContext v ri => exact h

theorem Caller.Asks.snoc {tr : List (Event ι)} {i : ι} {id : UInt64} {caller : Caller}
    (h : caller.Asks tr i id) {e : Event ι} (he : e.IsStoreStep) : caller.Asks (tr ++ [e]) i id := by
  cases caller with
  | client => trivial
  | getRpcContext v ri => exact ⟨h.1, h.2.snoc fun _ => he⟩

/-- Resumed with an address, a call returns or has obtained an empty one. -/
theorem Caller.Asks.resume {tr : List (Event ι)} {i : ι} {id : UInt64} {caller : Caller} {addr : Str}
    (h : caller.Asks tr i id) (ho : Obtained tr i id addr) : InCall tr i (caller.resume id (.ok addr)) := by
  cases caller with
  | client => trivial
  | getRpcContext v ri =>
    simp only [Caller.resume]
    split_ifs with ha
    · obtain rfl := List.length_eq_zero_iff.mp ha
      exact ⟨ri, h.2, h.1 ▸ ho⟩
    · trivial

theorem inCall {tr : List (Event ι)} {s : Sys ι} (h : run step (Sys.init ι) tr = some s) (j : ι) :
    InCall tr j (s.phase j) := by
  refine run_induction (P := fun tr s => ∀ j, InCall tr j (s.phase j)) ?_ ?_ h j
  · intro j
    trivial
  intro tr s e s' hrun ih he j
  by_cases hj : e.client = j
  · subst hj
    specialize ih e.client
    cases step_cases he with
    | readHit hp hit =>
      rw [Event.client, Sys.goto_phase_self]
      exact ⟨tr, _, _, [], s, rfl, hrun, hit, by simp⟩
    | @findHit i id caller it hp hit =>
      rw [Event.client, Sys.goto_phase_self]
      have hasks := (InCall.caller ih hp).snoc (e := .findStore i id) trivial
      exact hasks.resume
        ⟨tr, .findStore i id, [], s, rfl, hrun, by simp, it, rfl, .inl ⟨rfl, hit⟩⟩
    | @findMiss i id caller hp miss =>
      rw [Event.client, Sys.goto_phase_self]
      have hasks := (InCall.caller ih hp).snoc (e := .findStore i id) trivial
      cases caller with
      | client => trivial
      | getRpcContext v ri => exact hasks
    | @requestStoreOk i id answer caller st hp ok =>
      rw [Event.client, Sys.goto_phase_self]
      have hasks := (InCall.reloader ih hp).snoc (e := .requestStore i id answer) trivial
      cases caller with
      | client => trivial
      | getRpcContext v ri => exact hasks
    | @requestStoreErr i id answer caller err hp _ =>
      rw [Event.client, Sys.goto_phase_self]
      cases caller <;> trivial
    | @writeStore i id st caller hp =>
      rw [Event.client, Sys.goto_phase_self]
      rw [Event.client, hp] at ih
      have hasks := (InCall.fetcher ih).snoc (e := .writeStore i id st) trivial
      exact hasks.resume
        ⟨tr, .writeStore i id st, [], s, rfl, hrun, by simp, st, rfl, .inr rfl⟩
    | _ =>
      rw [Event.client, Sys.goto_phase_self]
      trivial
  · rw [(step_cases he).phase_of_ne hj]
    exact (ih j).snoc hj

theorem lastRecorded {tr : List (Event ι)} {s : Sys ι} (h : run step (Sys.init ι) tr = some s) {id : UInt64}
    {st : Store} (hst : s.cache.stores[id]? = some st) : LastRecorded tr id st := by
  refine run_induction (P := fun tr s => ∀ st, s.cache.stores[id]? = some st → LastRecorded tr id st)
    ?_ ?_ h st hst
  · intro st hst
    simp [Sys.init] at hst
  · intro tr s e s' hrun ih he st hst
    rw [(step_cases he).cache] at hst
    rcases commit_stores hst with ⟨hst, hne⟩ | ⟨i, rfl⟩
    · obtain ⟨pre, j, post, rfl, hpost, hreq⟩ := ih st hst
      refine ⟨pre, j, post ++ [e], by simp, fun k st' hmem => ?_, hreq⟩
      rcases List.mem_append.mp hmem with hmem | hmem
      · exact hpost k st' hmem
      · exact hne k st' (List.mem_singleton.mp hmem).symm
    · cases step_cases he with
      | writeStore hp => exact ⟨tr, i, [], rfl, by simp, fetched_of_phase hrun hp⟩

/-! ### What a call returns -/

/-- A context as it belongs together, whatever its version: the region is the one that
this call has read under `v`, the peer its leader, and the address the one that PD gave
in the answer last recorded for the leader's store. -/
structure ContextOf (tr : List (Event ι)) (i : ι) (rc : RegionCache) (v : RegionVerID) (ctx : RpcContext) :
    Prop where
  read : ReadIn tr i v ctx.regionMeta
  ver : ctx.regionMeta.verId = v
  peer : ctx.peer = ctx.regionMeta.leader
  addr_ne : ctx.addr ≠ []
  addr : ∃ st : Store, rc.stores[ctx.peer.storeId]? = some st ∧ st.addr = ctx.addr ∧
    LastRecorded tr ctx.peer.storeId st

/-- How the last step `e` of a call for `v` fails: the version is not cached, PD has
refused the store, or the address obtained is empty. Only the last drops the version. -/
def FailsBy (tr : List (Event ι)) (e : Event ι) (rc rc' : RegionCache) (v : RegionVerID) : Prop :=
  (rc' = rc ∧ ∃ t now, e = .readRegion e.client v t now ∧ (rc.getCachedRegion v t now).1 = none) ∨
  (rc' = rc ∧ ∃ ri answer err, ReadIn tr e.client v ri ∧
    e = .requestStore e.client ri.leader.storeId answer ∧ getStoreByIdInner answer = .error err) ∨
  (rc' = rc.dropRegionFromCache v ∧ e = .dropContext e.client v ∧
    ∃ ri, ReadIn tr e.client v ri ∧ Obtained tr e.client ri.leader.storeId [])

theorem ReadIn.verId {tr : List (Event ι)} {i : ι} {v : RegionVerID} {ri : Region} (h : ReadIn tr i v ri) :
    ri.verId = v := by
  obtain ⟨pre, t, now, mid, q, _, hq, hread, _⟩ := h
  obtain ⟨c, hc, _, rfl⟩ := getCachedRegion_eq_some.mp hread
  exact (owned hq).cached_ver v c hc

/-- A caller that returns a context has been given its address. -/
theorem Caller.Asks.returned {tr : List (Event ι)} {i : ι} {id : UInt64} {caller : Caller}
    (h : caller.Asks tr i id) {rc : RegionCache} {st : Store} (hst : rc.stores[id]? = some st)
    (hlast : LastRecorded tr id st) {v : RegionVerID} {ctx : RpcContext}
    (hr : caller.resume id (.ok st.addr) = .idle (some (.getRpcContext v (.ok ctx)))) :
    ctx.regionVerId = {} ∧ ContextOf tr i rc v ctx := by
  cases caller with
  | client => simp [Caller.resume] at hr
  | getRpcContext w ri =>
    simp only [Caller.resume] at hr
    split_ifs at hr with ha
    simp only [Phase.idle.injEq, Option.some.injEq, Return.getRpcContext.injEq, Except.ok.injEq] at hr
    obtain ⟨rfl, rfl⟩ := hr
    obtain ⟨rfl, hread⟩ := h
    have haddr : st.addr ≠ [] := fun h => ha (List.length_eq_zero_iff.mpr h)
    exact ⟨rfl, hread, hread.verId, rfl, haddr, st, hst, rfl, hlast⟩

variable {tr : List (Event ι)} {s s' : Sys ι} {e : Event ι} {v : RegionVerID}

theorem returned_ok (h : run step (Sys.init ι) (tr ++ [e]) = some s') {ctx : RpcContext}
    (hr : s'.phase e.client = .idle (some (.getRpcContext v (.ok ctx)))) :
    ctx.regionVerId = {} ∧ ContextOf (tr ++ [e]) e.client s'.cache v ctx := by
  obtain ⟨s, hrun, he⟩ := run_snoc_eq_some.mp h
  have hin := inCall hrun e.client
  cases step_cases he with
  | @findHit i id caller it hp hit =>
    have hasks := (InCall.caller hin hp).snoc (e := .findStore i id) trivial
    rw [Event.client, Sys.goto_phase_self] at hr
    exact hasks.returned hit (lastRecorded h hit) hr
  | @writeStore i id st caller hp =>
    rw [Event.client, hp] at hin
    have hasks := (InCall.fetcher hin).snoc (e := .writeStore i id st) trivial
    have hst := stores_of_write he
    rw [Event.client, Sys.goto_phase_self] at hr
    exact hasks.returned hst (lastRecorded h hst) hr
  | @requestStoreErr i id answer caller err hp _ =>
    rw [Event.client, Sys.goto_phase_self] at hr
    cases caller <;> simp [Caller.resume] at hr
  | _ =>
    rw [Event.client, Sys.goto_phase_self] at hr
    simp at hr

theorem returned_error (h : run step (Sys.init ι) tr = some s) (he : step s e = some s') {err : Error}
    (hr : s'.phase e.client = .idle (some (.getRpcContext v (.error err)))) :
    FailsBy tr e s.cache s'.cache v := by
  have hin := inCall h e.client
  cases step_cases he with
  | readMiss hp miss =>
    rw [Event.client, Sys.goto_phase_self] at hr
    simp only [Phase.idle.injEq, Option.some.injEq, Return.getRpcContext.injEq] at hr
    obtain ⟨rfl, _⟩ := hr
    exact .inl ⟨rfl, _, _, rfl, miss⟩
  | @findHit i id caller it hp hit =>
    rw [Event.client, Sys.goto_phase_self] at hr
    cases caller with
    | client => simp [Caller.resume] at hr
    | getRpcContext w ri =>
      simp only [Caller.resume] at hr
      split_ifs at hr
      simp at hr
  | @writeStore i id st caller hp =>
    rw [Event.client, Sys.goto_phase_self] at hr
    cases caller with
    | client => simp [Caller.resume] at hr
    | getRpcContext w ri =>
      simp only [Caller.resume] at hr
      split_ifs at hr
      simp at hr
  | @requestStoreErr i id answer caller err hp hans =>
    rw [Event.client, Sys.goto_phase_self] at hr
    have hasks := InCall.reloader hin hp
    cases caller with
    | client => simp [Caller.resume] at hr
    | getRpcContext w ri =>
      simp only [Caller.resume, Phase.idle.injEq, Option.some.injEq, Return.getRpcContext.injEq] at hr
      obtain ⟨rfl, _⟩ := hr
      obtain ⟨rfl, hread⟩ := hasks
      exact .inr (.inl ⟨rfl, ri, answer, err, hread, rfl, hans⟩)
  | dropContext hp =>
    rw [Event.client, Sys.goto_phase_self] at hr
    simp only [Phase.idle.injEq, Option.some.injEq, Return.getRpcContext.injEq] at hr
    obtain ⟨rfl, _⟩ := hr
    rw [Event.client, hp] at hin
    exact .inr (.inr ⟨rfl, rfl, hin⟩)
  | _ =>
    rw [Event.client, Sys.goto_phase_self] at hr
    simp at hr

/-! ### A call that no other client interrupts -/

/-- The version is cached and unexpired, and the address for its leader's store is empty. -/
def AddrEmpty (rc : RegionCache) (v : RegionVerID) (t now : Time) (ret : Except Error Store) : Prop :=
  ∃ ri, (rc.getCachedRegion v t now).1 = some ri ∧ (rc.getStoreAddr ri.leader.storeId ret).1 = .ok []

/-- A store lookup changes only `stores_`. -/
theorem getStoreAddr_snd (rc : RegionCache) (id : UInt64) (ret : Except Error Store) :
    ∃ stores, (rc.getStoreAddr id ret).2 = { rc with stores := stores } := by
  unfold getStoreAddr
  split
  · exact ⟨rc.stores, rfl⟩
  · cases ret with
    | ok store => exact ⟨_, rfl⟩
    | error err => exact ⟨rc.stores, rfl⟩

/-- The call fails and drops the version if the address is empty, and leaves the region
maps as they were if not. -/
theorem getRpcContext_regions (rc : RegionCache) (v : RegionVerID) (t now : Time) (ret : Except Error Store) :
    (AddrEmpty rc v t now ret → (rc.getRpcContext v t now ret).1 = .error outOfDate ∧
      (rc.getRpcContext v t now ret).2.sorted = (rc.dropRegionFromCache v).sorted ∧
      (rc.getRpcContext v t now ret).2.cachedRegions = (rc.dropRegionFromCache v).cachedRegions) ∧
    (¬ AddrEmpty rc v t now ret → (rc.getRpcContext v t now ret).2.sorted = rc.sorted ∧
      (rc.getRpcContext v t now ret).2.cachedRegions = rc.cachedRegions) := by
  have hsnd := rc.getCachedRegion_snd v t now
  unfold getRpcContext AddrEmpty
  cases hg : rc.getCachedRegion v t now with
  | mk found cache =>
    obtain rfl : cache = rc := by simpa [hg] using hsnd
    cases found with
    | none => simp
    | some ri =>
      obtain ⟨stores, hstores⟩ := cache.getStoreAddr_snd ri.leader.storeId ret
      cases ha : cache.getStoreAddr ri.leader.storeId ret with
      | mk res cache' =>
        obtain rfl : cache' = { cache with stores := stores } := by simpa [ha] using hstores
        cases res with
        | error err => simp [ha]
        | ok addr =>
          by_cases hempty : addr = []
          · subst hempty
            simp only [ha, List.length_nil, if_true]
            refine ⟨fun _ => ⟨trivial, ?_⟩, fun hno => absurd ⟨ri, rfl, by rw [ha]⟩ hno⟩
            simp only [dropRegionFromCache]
            split <;> exact ⟨rfl, rfl⟩
          · have hlen : addr.length ≠ 0 := fun h => hempty (List.length_eq_zero_iff.mp h)
            simp [ha, hempty]

/-! ### Any interleaving -/

/-- Whatever the clients do meanwhile: a call that returns a context for `v` is coherent in
everything but the version of the context, which is right exactly for the zero version.
A call that fails leaves the region maps as they were in each of its steps, unless the
address it has obtained is empty: then its last step drops `v`. -/
theorem getRpcContext_coherent_iff (h : run step (Sys.init ι) (tr ++ [e]) = some s') :
    (∀ ctx, s'.phase e.client = .idle (some (.getRpcContext v (.ok ctx))) →
      (ctx.regionVerId = v ∧ ContextOf (tr ++ [e]) e.client s'.cache v ctx ↔ v = {}) ∧
        ContextOf (tr ++ [e]) e.client s'.cache v ctx) ∧
    (∀ err s, run step (Sys.init ι) tr = some s →
      s'.phase e.client = .idle (some (.getRpcContext v (.error err))) →
        FailsBy tr e s.cache s'.cache v) ∧
    (∀ x : Event ι, x.IsStoreStep → ∀ rc, (x.commit rc).sorted = rc.sorted ∧
      (x.commit rc).cachedRegions = rc.cachedRegions) ∧
    ∀ t now ret, (AddrEmpty s'.cache v t now ret →
        (s'.cache.getRpcContext v t now ret).2.sorted = (s'.cache.dropRegionFromCache v).sorted ∧
        (s'.cache.getRpcContext v t now ret).2.cachedRegions = (s'.cache.dropRegionFromCache v).cachedRegions) ∧
      (¬ AddrEmpty s'.cache v t now ret → (s'.cache.getRpcContext v t now ret).2.sorted = s'.cache.sorted ∧
        (s'.cache.getRpcContext v t now ret).2.cachedRegions = s'.cache.cachedRegions) := by
  refine ⟨fun ctx hr => ?_, fun err s hs hr => ?_, fun x hx => hx.commit, fun t now ret => ?_⟩
  · obtain ⟨hver, hctx⟩ := returned_ok h hr
    rw [hver]
    exact ⟨⟨fun hv => hv.1.symm, fun hv => ⟨hv.symm, hctx⟩⟩, hctx⟩
  · obtain ⟨m, hm, he⟩ := run_snoc_eq_some.mp h
    obtain rfl := Option.some.inj (hs.symm.trans hm)
    exact returned_error hs he hr
  · have hregions := s'.cache.getRpcContext_regions v t now ret
    exact ⟨fun ha => (hregions.1 ha).2, hregions.2⟩

theorem reloadContext_isSome : (run step (Sys.init Bool) (reloadContext [0x78])).isSome := by decide

theorem getRpcContext_coherent_iff_reloadContext : ∃ s ctx,
    run step (Sys.init Bool) (reloadContext [0x78]) = some s ∧
      s.phase true = .idle (some (.getRpcContext regionAM.verId (.ok ctx))) ∧
      ContextOf (reloadContext [0x78]) true s.cache regionAM.verId ctx := by
  have h : run step (Sys.init Bool) ((reloadContext [0x78]).dropLast ++ [.findStore true 1]) = some _ :=
    (Option.some_get reloadContext_isSome).symm
  exact ⟨_, _, h, rfl, ((getRpcContext_coherent_iff h).1 _ rfl).2⟩

/-- The same three calls under the locks. -/
def reloadContextCalls (address : Str) : List (Sync.Waiters.Event Bool Locks.Op Locks.Input) :=
  let e : Locks.Input := ⟨5, 5, .ok answerAM, .ok (answerStore address)⟩
  Locks.atOnce true (.reloadStoreAddr 1) 4 e ++ Locks.atOnce true (.locateKey [0x62]) 7 e ++
    Locks.atOnce true (.getRpcContext regionAM.verId) 6 e

/-- The context of a version that is not zero is returned under the zero version, as much
with the locks as without them. -/
theorem getRpcContext_zero_version : ∃ s ctx, run step (Sys.init Bool) (reloadContext [0x78]) = some s ∧
    s.phase true = .idle (some (.getRpcContext regionAM.verId (.ok ctx))) ∧
      ctx.regionVerId ≠ regionAM.verId ∧
      ∃ w, run (Sync.Waiters.step Locks.start) (Locks.initWaiting Bool) (reloadContextCalls [0x78]) = some w ∧
        w.threads.code true = .ret (some (.getRpcContext regionAM.verId (.ok ctx))) := by
  have h := (Option.some_get reloadContext_isSome).symm
  exact ⟨_, _, h, rfl, by decide, _, rfl, rfl⟩

end TikvCpp.RegionCache
