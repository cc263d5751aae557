import TikvCpp.RegionCache.Locks

/-! What remains of a call when its lock statements are left out are its accesses, and
they are the steps of the clients. So each run of the operations with their locks is
one of the clients, and whatever holds of the cache in all runs of the clients holds
of it under the locks, in the runs that end in a deadlock too. -/

namespace TikvCpp.RegionCache.Locks

open Data Transition PDClient Sync

/-- What a caller does with the result of `get_store_addr`. -/
def resume (storeId : UInt64) : Caller → Except Error Str → LockCode (Option Return)
  | .client, ret => .ret (some (.getStoreAddr storeId ret))
  | .getRpcContext verId ri, ret =>
    (rpcContext verId ri ret).bind fun ret => .ret (some (.getRpcContext verId ret))

/-- The code that a client in a phase has still to execute. -/
def rest : Phase → LockCode (Option Return)
  | .idle last => .ret last
  | .missed key => (loadRegion key).bind fun ret => .ret (some (.locateKey key ret.1 ret.2))
  | .loaded key r => (insertRegion r).bind fun ret => .ret (some (.locateKey key ret.1 ret.2))
  | .context verId ri =>
    (getStoreAddr ri.leader.storeId).bind (resume ri.leader.storeId (.getRpcContext verId ri))
  | .reloading storeId caller => (reloadStoreAddr storeId).bind (resume storeId caller)
  | .fetched storeId store caller => (writeStore storeId store).bind (resume storeId caller)
  | .dropping verId =>
    (dropRegion verId).bind fun _ => .ret (some (.getRpcContext verId (.error outOfDate)))

theorem resume_erase (storeId : UInt64) (caller : Caller) (ret : Except Error Str) :
    (resume storeId caller ret).erase = (rest (caller.resume storeId ret)).erase := by
  cases caller with
  | client => rfl
  | getRpcContext verId ri =>
    cases ret with
    | error err => rfl
    | ok addr =>
      by_cases ha : addr.length = 0 <;>
        simp only [resume, rpcContext, Caller.resume, ha, if_true, if_false] <;> rfl

variable {ι : Type} [DecidableEq ι]

/-- The clients have the cache of the threads, and each client has to do what its thread
has to do, lock statements aside. -/
structure Follows (t : Sys ι) (s : System ι) : Prop where
  cache : t.cache = s.state
  code : ∀ i, (s.code i).erase = (rest (t.phase i)).erase ∨
    ∃ op last, t.phase i = .idle last ∧ (s.code i).erase = (start op).erase

theorem Follows.goto {s : System ι} {t : Sys ι} (hR : Follows t s) {i : ι} {rc : RegionCache}
    {k : LockCode (Option Return)} {p : Phase} (hk : k.erase = (rest p).erase) :
    Follows (t.goto i rc p) (s.setState i rc k) := by
  refine ⟨rfl, ?_⟩
  intro j
  rw [Sys.goto_phase]
  by_cases hj : j = i
  · subst hj
    rw [if_pos rfl, Threads.setState_code_self]
    exact .inl hk
  · rw [if_neg hj]
    rw [s.setState_code_of_ne hj]
    exact hR.code j

/-- The lookup of a store, from outside a call or within `get_rpc_context`. -/
theorem Follows.lookup {s : System ι} {t : Sys ι} (hR : Follows t s) {i : ι} {g : Access}
    {w : Input → RegionCache → RegionCache} {k : Input → RegionCache → LockCode (Option Return)}
    {storeId : UInt64} {caller : Caller} (hp : (t.phase i).caller storeId = some caller)
    (hc : (Code.access g w k).erase = ((getStoreAddr storeId).bind (resume storeId caller)).erase)
    (e : Input) :
    ∃ ev t', step t ev = some t' ∧ Follows t' (s.setState i (w e s.state) (k e s.state)) := by
  simp only [getStoreAddr, Code.bind, Code.erase, Code.access.injEq] at hc
  obtain ⟨rfl, rfl, hk⟩ := hc
  have hk := congrFun (congrFun hk e) s.state
  refine ⟨.findStore i storeId, ?_⟩
  simp only [step, hp, Option.map_some, hR.cache]
  cases hs : s.state.stores[storeId]? with
  | some it =>
    rw [hs] at hk
    refine ⟨_, rfl, hR.goto ?_⟩
    rw [hk, ← resume_erase]
    rfl
  | none =>
    rw [hs] at hk
    exact ⟨_, rfl, hR.goto hk⟩

/-- The request for a store, by a call of `reload_store_addr` or after a lookup. -/
theorem Follows.reload {s : System ι} {t : Sys ι} (hR : Follows t s) {i : ι} {g : Access}
    {w : Input → RegionCache → RegionCache} {k : Input → RegionCache → LockCode (Option Return)}
    {storeId : UInt64} {caller : Caller} (hp : (t.phase i).reloader storeId = some caller)
    (hc : (Code.access g w k).erase = ((reloadStoreAddr storeId).bind (resume storeId caller)).erase)
    (e : Input) :
    ∃ ev t', step t ev = some t' ∧ Follows t' (s.setState i (w e s.state) (k e s.state)) := by
  simp only [reloadStoreAddr, Code.bind, Code.erase, Code.access.injEq] at hc
  obtain ⟨rfl, rfl, hk⟩ := hc
  have hk := congrFun (congrFun hk e) s.state
  refine ⟨.requestStore i storeId e.store, ?_⟩
  simp only [step, hp, Option.map_some, hR.cache]
  cases hs : getStoreByIdInner e.store with
  | ok store =>
    rw [hs] at hk
    exact ⟨_, rfl, hR.goto hk⟩
  | error err =>
    rw [hs] at hk
    refine ⟨_, rfl, hR.goto ?_⟩
    rw [hk, ← resume_erase]
    rfl

/-- An access that begins a call. -/
theorem Follows.access_start {s : System ι} {t : Sys ι} (hR : Follows t s) {i : ι} {g : Access}
    {w : Input → RegionCache → RegionCache} {k : Input → RegionCache → LockCode (Option Return)}
    {op : Op} {last : Option Return} (hp : t.phase i = .idle last)
    (hc : (Code.access g w k).erase = (start op).erase) (e : Input) :
    ∃ ev t', step t ev = some t' ∧ Follows t' (s.setState i (w e s.state) (k e s.state)) := by
  cases op with
  | locateKey key =>
    simp only [start, locateKey, Code.bind, Code.erase, Code.access.injEq] at hc
    obtain ⟨rfl, rfl, hk⟩ := hc
    have hk := congrFun (congrFun hk e) s.state
    refine ⟨.search i key e.t e.now, ?_⟩
    simp only [step, hp, hR.cache]
    rcases hs : s.state.searchCache key e.t e.now with ⟨_ | cached, rc⟩ <;> rw [hs] at hk <;>
      exact ⟨_, rfl, hR.goto hk⟩
  | getRpcContext verId =>
    simp only [start, getRpcContext, Code.bind, Code.erase, Code.access.injEq] at hc
    obtain ⟨rfl, rfl, hk⟩ := hc
    have hk := congrFun (congrFun hk e) s.state
    refine ⟨.readRegion i verId e.t e.now, ?_⟩
    simp only [step, hp, hR.cache]
    rcases hs : s.state.getCachedRegion verId e.t e.now with ⟨_ | ri, rc⟩ <;> rw [hs] at hk
    · exact ⟨_, rfl, hR.goto hk⟩
    · refine ⟨_, rfl, hR.goto ?_⟩
      rw [hk]
      simp only [Code.bind, Code.erase, Code.bind_assoc]
      rfl
  | dropRegion verId =>
    simp only [start, dropRegion, Code.bind, Code.erase, Code.access.injEq] at hc
    obtain ⟨rfl, rfl, hk⟩ := hc
    refine ⟨.dropRegion i verId, ?_⟩
    simp only [step, hp, hR.cache]
    exact ⟨_, rfl, hR.goto (congrFun (congrFun hk e) s.state)⟩
  | updateRegionLeader verId leaderStoreId =>
    simp only [start, updateRegionLeader, Code.bind, Code.erase, Code.access.injEq] at hc
    obtain ⟨rfl, rfl, hk⟩ := hc
    refine ⟨.updateRegionLeader i verId leaderStoreId e.t e.now, ?_⟩
    simp only [step, hp, hR.cache]
    exact ⟨_, rfl, hR.goto (congrFun (congrFun hk e) s.state)⟩
  | getStoreAddr storeId => exact hR.lookup (by rw [hp]; rfl) hc e
  | reloadStoreAddr storeId => exact hR.reload (by rw [hp]; rfl) hc e

/-- An access within a call. -/
theorem Follows.access_rest {s : System ι} {t : Sys ι} (hR : Follows t s) {i : ι} {g : Access}
    {w : Input → RegionCache → RegionCache} {k : Input → RegionCache → LockCode (Option Return)}
    {p : Phase} (hp : t.phase i = p) (hc : (Code.access g w k).erase = (rest p).erase) (e : Input) :
    ∃ ev t', step t ev = some t' ∧ Follows t' (s.setState i (w e s.state) (k e s.state)) := by
  cases p with
  | idle last => simp [rest, Code.erase] at hc
  | missed key =>
    simp only [rest, loadRegion, Code.bind, Code.erase, Code.access.injEq] at hc
    obtain ⟨rfl, rfl, hk⟩ := hc
    have hk := congrFun (congrFun hk e) s.state
    refine ⟨.request i key e.region, ?_⟩
    simp only [step, hp, if_true, hR.cache]
    cases hl : loadRegionFromPd (getRegionInner e.region) <;> rw [hl] at hk <;>
      exact ⟨_, rfl, hR.goto hk⟩
  | loaded key r =>
    simp only [rest, insertRegion, Code.bind, Code.erase, Code.access.injEq] at hc
    obtain ⟨rfl, rfl, hk⟩ := hc
    refine ⟨.insert i r e.now, ?_⟩
    simp only [step, hp, if_true, hR.cache]
    exact ⟨_, rfl, hR.goto (congrFun (congrFun hk e) s.state)⟩
  | context verId ri =>
    apply hR.lookup _ hc e
    rw [hp]
    exact if_pos rfl
  | reloading storeId caller =>
    apply hR.reload _ hc e
    rw [hp]
    exact if_pos rfl
  | fetched storeId store caller =>
    simp only [rest, writeStore, Code.bind, Code.erase, Code.access.injEq] at hc
    obtain ⟨rfl, rfl, hk⟩ := hc
    refine ⟨.writeStore i storeId store, ?_⟩
    simp only [step, hp, and_self, if_true, hR.cache]
    refine ⟨_, rfl, hR.goto ?_⟩
    rw [← resume_erase]
    exact congrFun (congrFun hk e) s.state
  | dropping verId =>
    simp only [rest, dropRegion, Code.bind, Code.erase, Code.access.injEq] at hc
    obtain ⟨rfl, rfl, hk⟩ := hc
    refine ⟨.dropContext i verId, ?_⟩
    simp only [step, hp, if_true, hR.cache]
    exact ⟨_, rfl, hR.goto (congrFun (congrFun hk e) s.state)⟩

omit [DecidableEq ι] in
/-- A client whose thread has returned is outside any call. -/
theorem Follows.idle {s : System ι} {t : Sys ι} (hR : Follows t s) {i : ι} {ret : Option Return}
    (hc : s.code i = .ret ret) : ∃ last, t.phase i = .idle last := by
  rcases hR.code i with hrest | ⟨op, last, hp, _⟩
  · rw [hc] at hrest
    cases hp : t.phase i with
    | idle last => exact ⟨last, rfl⟩
    | _ =>
      rw [hp] at hrest
      simp [rest, loadRegion, insertRegion, getStoreAddr, reloadStoreAddr, writeStore, dropRegion,
        Code.bind, Code.erase] at hrest
  · exact ⟨last, hp⟩

/-- A lock statement is no step of the clients. -/
theorem Follows.setLock {s : System ι} {t : Sys ι} (hR : Follows t s) {i : ι} (l : Lock)
    (m : RWLock ι) {k : LockCode (Option Return)} (hk : k.erase = (s.code i).erase) :
    Follows t (s.setLock i l m k) := by
  refine ⟨hR.cache, ?_⟩
  intro j
  rw [s.setLock_erase l m hk]
  exact hR.code j

theorem Follows.step {s s' : System ι} {t : Sys ι} {ev : Threads.Event ι Op Input}
    (hR : Follows t s) (h : Threads.step start s ev = some s') :
    ∃ tr t', run step t tr = some t' ∧ Follows t' s' := by
  cases Threads.step_cases h with
  | @call i op a hc =>
    refine ⟨[], t, rfl, hR.cache, ?_⟩
    intro j
    by_cases hj : j = i
    · subst hj
      obtain ⟨last, hp⟩ := hR.idle hc
      exact .inr ⟨op, last, hp, by rw [Threads.setState_code_self]⟩
    · rw [s.setState_code_of_ne hj]
      exact hR.code j
  | lockShared hc hm => exact ⟨[], t, rfl, hR.setLock _ _ (by rw [hc]; rfl)⟩
  | unlockShared hc => exact ⟨[], t, rfl, hR.setLock _ _ (by rw [hc]; rfl)⟩
  | lock hc hm => exact ⟨[], t, rfl, hR.setLock _ _ (by rw [hc]; rfl)⟩
  | unlock hc => exact ⟨[], t, rfl, hR.setLock _ _ (by rw [hc]; rfl)⟩
  | @access i e g w k hc =>
    have hone : ∃ ev t', RegionCache.step t ev = some t' ∧
        Follows t' (s.setState i (w e s.state) (k e s.state)) := by
      rcases hR.code i with hrest | ⟨op, last, hp, hstart⟩
      · rw [hc] at hrest
        exact hR.access_rest rfl hrest e
      · rw [hc] at hstart
        exact hR.access_start hp hstart e
    obtain ⟨ev, t', ht, hR'⟩ := hone
    refine ⟨[ev], t', ?_, hR'⟩
    rw [run_cons, ht]
    rfl

/-- Every run of the operations with their locks is a run of the clients that leaves
the same cache. -/
theorem refines {tr : List (Threads.Event ι Op Input)} {s : System ι}
    (h : run (Threads.step start) (init ι) tr = some s) :
    ∃ tr' t, run RegionCache.step (Sys.init ι) tr' = some t ∧ Follows t s := by
  have hinit : Follows (Sys.init ι) (init ι) := ⟨rfl, fun _ => .inl rfl⟩
  exact run_simulation (R := fun s t => Follows t s) (fun s t ev s' hR => hR.step) hinit h

/-- What every run of the clients keeps true of the cache is true of it under the locks. -/
theorem of_clients {P : RegionCache → Prop}
    (hP : ∀ tr (t : Sys ι), run RegionCache.step (Sys.init ι) tr = some t → P t.cache)
    {tr : List (Threads.Event ι Op Input)} {s : System ι}
    (h : run (Threads.step start) (init ι) tr = some s) : P s.state := by
  obtain ⟨tr', t, ht, hR⟩ := refines h
  rw [← hR.cache]
  exact hP tr' t ht

end TikvCpp.RegionCache.Locks
