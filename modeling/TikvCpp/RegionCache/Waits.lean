import TikvCpp.RegionCache.LockRefinement
import TikvCpp.RegionCache.StoreLock
import TikvCpp.Sync.Waiters

/-! Who waits for whom. The two locks are of a kind that lets waiting writers go first: while an exclusive
request waits, shared ones are refused. Clients outside a call keep nobody waiting. Clients in a call
keep each other waiting for a while only, unless a lookup of a store has missed: then whoever wants
`store_lock_` exclusively waits for ever, and behind it everybody who wants it at all. -/

namespace TikvCpp.RegionCache.Locks

open Data Transition PDClient Sync

/-- Clients of one `RegionCache` with its two locks, on which writers wait. -/
abbrev Waiting (ι : Type) := Waiters ι Lock RegionCache Input Access (Option Return)

variable {ι : Type} [DecidableEq ι]

/-- Nobody has called anything yet. -/
def initWaiting (ι : Type) : Waiting ι := Waiters.init (init ι)

/-- The lookups of each client that have missed in a run. -/
def missesIn (tr : List (Waiters.Event ι Op Input)) : ι → ℕ := misses (Waiters.executed tr)

/-- A client that is not granted a lock waits for another one that holds it and can go on, or the lock is
`store_lock_`, some lookup of a store has missed, and the client wants it exclusively or waits behind one
that does. So the clients never get stuck with one of them in a call, unless all that are wait like this. -/
theorem progress {tr : List (Waiters.Event ι Op Input)} {s : Waiting ι}
    (h : run (Waiters.step start) (initWaiting ι) tr = some s) :
    (∀ i l k, s.threads.code i = .lock l k ∨ s.threads.code i = .lockShared l k →
      s.Ready start i ∨ (∃ j, j ≠ i ∧ s.threads.holds j l ≠ .free ∧ s.Ready start j) ∨
        l = .store ∧ (∃ j, 0 < missesIn tr j) ∧ (s.threads.code i = .lock l k ∨
          s.blocked l = true ∧ ∃ j k', s.threads.code j = .lock l k')) ∧
    ((∃ i, s.Ready start i) ∨
      ∀ i, (∃ ret, s.threads.code i = .ret ret) ∨ (∃ j, 0 < missesIn tr j) ∧
        ((∃ k, s.threads.code i = .lock .store k) ∨ (∃ k, s.threads.code i = .lockShared .store k) ∧
          s.blocked .store = true ∧ ∃ j k, s.threads.code j = .lock .store k)) := by
  have hrun := Waiters.run_threads h
  have hs : s.Blocks := Waiters.blocks_of_run h
  have hwaits : ∀ i l k, s.threads.code i = .lock l k ∨ s.threads.code i = .lockShared l k →
      s.Ready start i ∨ (∃ j, j ≠ i ∧ s.threads.holds j l ≠ .free ∧ s.Ready start j) ∨
        l = .store ∧ (∃ j, 0 < missesIn tr j) ∧ (s.threads.code i = .lock l k ∨
          s.blocked l = true ∧ ∃ j k', s.threads.code j = .lock l k') := by
    intro i l k hc
    cases l with
    | region =>
      rcases Waiters.waits_for (accounted_region hrun) hs hc with hgo | hother | ⟨⟨j, hj⟩, -⟩
      · exact .inl hgo
      · exact .inr (.inl hother)
      · exact absurd hj (Nat.lt_irrefl 0)
    | store =>
      rcases Waiters.waits_for (accounted hrun) hs hc with hgo | hother | hmissed
      · exact .inl hgo
      · exact .inr (.inl hother)
      · exact .inr (.inr ⟨rfl, hmissed⟩)
  refine ⟨hwaits, or_iff_not_imp_left.mpr fun hstuck i => ?_⟩
  have hnone : ∀ j, ¬ s.Ready start j := fun j hj => hstuck ⟨j, hj⟩
  have hrequest : ∀ l k, s.threads.code i = .lock l k ∨ s.threads.code i = .lockShared l k →
      l = .store ∧ (∃ j, 0 < missesIn tr j) ∧ (s.threads.code i = .lock l k ∨
        s.blocked l = true ∧ ∃ j k', s.threads.code j = .lock l k') := by
    intro l k hc
    rcases hwaits i l k hc with hgo | ⟨j, -, -, hgo⟩ | hmissed
    · exact absurd hgo (hnone i)
    · exact absurd hgo (hnone j)
    · exact hmissed
  cases hc : s.threads.code i with
  | ret ret => exact .inl ⟨ret, rfl⟩
  | lock l k =>
    obtain ⟨rfl, hmissed, -⟩ := hrequest l k (.inl hc)
    exact .inr ⟨hmissed, .inl ⟨k, rfl⟩⟩
  | lockShared l k =>
    obtain ⟨rfl, hmissed, hlock | hblocked⟩ := hrequest l k (.inr hc)
    · rw [hc] at hlock
      contradiction
    · exact .inr ⟨hmissed, .inr ⟨⟨k, rfl⟩, hblocked⟩⟩
  | unlock l k | unlockShared l k | access g w k =>
    -- these statements are never refused
    refine absurd (Waiters.ready_of (fun e => ?_) fun l' k' hc' => ?_) (hnone i)
    · rw [Threads.advance, hc]
      rfl
    · rw [hc] at hc'
      contradiction

/-- PD answers the client that missed, which waits for itself, and the other one waits behind it. -/
def waitBehind : List (Waiters.Event Bool Op Input) :=
  (missTrace answered).map .thread ++ [.wait true, .thread (.call false (.getStoreAddr 1))]

theorem progress_waitBehind :
    ∃ s : Waiting Bool, run (Waiters.step start) (initWaiting Bool) waitBehind = some s ∧
      (∃ k, s.threads.code false = .lockShared .store k) ∧ s.blocked .store = true ∧
      ((∃ i, s.Ready start i) ∨
        ∀ i, (∃ ret, s.threads.code i = .ret ret) ∨ (∃ j, 0 < missesIn waitBehind j) ∧
          ((∃ k, s.threads.code i = .lock .store k) ∨ (∃ k, s.threads.code i = .lockShared .store k) ∧
            s.blocked .store = true ∧ ∃ j k, s.threads.code j = .lock .store k)) := by
  have hrun : run (Waiters.step start) (initWaiting Bool) waitBehind = some _ := rfl
  exact ⟨_, hrun, ⟨_, rfl⟩, rfl, (progress hrun).2⟩

/-- Once a lookup of a store has missed and a client waits exclusively for `store_lock_`, nobody is
granted that lock any more, in any continuation. -/
theorem store_lock_blocked {tr tr' : List (Waiters.Event ι Op Input)} {s s' : Waiting ι}
    (h : run (Waiters.step start) (initWaiting ι) tr = some s) {i : ι} (hi : 0 < missesIn tr i)
    (hb : s.blocked .store = true) (h' : run (Waiters.step start) s tr' = some s') :
    s'.blocked .store = true ∧ ∀ j k, s.threads.code j = .lock .store k ∨ s.threads.code j = .lockShared .store k →
      s'.threads.code j = s.threads.code j :=
  Waiters.blocked_of_run (D := policy .store) h' (accounted (Waiters.run_threads h)) (start_obeys .store) hi hb

/-! ### A call that nobody keeps waiting -/

/-- In a run whose store lookups find their stores, a client that is alone in a call goes on. -/
theorem ready_of_alone {tr : List (Waiters.Event ι Op Input)} {s : Waiting ι}
    (h : run (Waiters.step start) (initWaiting ι) tr = some s) (hf : LookupsFind (Waiters.executed tr)) {i : ι}
    (hothers : ∀ j, j ≠ i → ∃ ret, s.threads.code j = .ret ret) :
    (∃ ret, s.threads.code i = .ret ret) ∨ s.Ready start i := by
  have hdisciplined : s.threads.Disciplined := (kept (Waiters.run_threads h) hf).disciplined
  have hs : s.Blocks := Waiters.blocks_of_run h
  refine (hdisciplined.unblocked i hothers).imp_right fun hgo => Waiters.ready_of hgo fun l k hc => ?_
  apply eq_false_of_ne_true
  intro hblocked
  obtain ⟨-, j, k', hwaits⟩ := hs l hblocked
  by_cases hj : j = i
  · subst hj
    rw [hc] at hwaits
    contradiction
  · obtain ⟨ret, hret⟩ := hothers j hj
    rw [hret] at hwaits
    contradiction

/-- A lookup that finds its store goes on with the address, if nobody holds `store_lock_` exclusively. -/
theorem run_getStoreAddr {s : System ι} {j : ι} {storeId : UInt64} {f : Except Error Str → LockCode (Option Return)}
    (hc : s.code j = (getStoreAddr storeId).bind f) (hlock : (s.lock .store).exclusive = none) {it : Store}
    (hit : s.state.stores[storeId]? = some it) (e : Input) :
    run (Threads.step start) s [.step j e, .step j e, .step j e] = some (s.setState j s.state (f (.ok it.addr))) := by
  refine Threads.run_shared hc hlock ?_
  simp only [hit, Code.bind]

/-- A call that finds its region and its store returns the context of both, if nobody holds a
lock exclusively. -/
theorem run_getRpcContext {s : System ι} {j : ι} {last : Option Return} (hc : s.code j = .ret last)
    (hlock : ∀ l, (s.lock l).exclusive = none) {verId : RegionVerID} {e : Input} {ri : Region}
    (hread : (s.state.getCachedRegion verId e.t e.now).1 = some ri) {it : Store}
    (hit : s.state.stores[ri.leader.storeId]? = some it) (haddr : it.addr ≠ []) :
    run (Threads.step start) s (.call j (.getRpcContext verId) :: List.replicate 6 (.step j e)) =
      some (s.setState j s.state (.ret (some (.getRpcContext verId (.ok (rpcContextOf ri it.addr)))))) := by
  have hlen : it.addr.length ≠ 0 := fun h => haddr (List.length_eq_zero_iff.mp h)
  have hcall : Threads.step start s (.call j (.getRpcContext verId)) =
      some (s.setState j s.state (start (.getRpcContext verId))) := by
    simp only [Threads.step, hc]
  have hregion : run (Threads.step start) (s.setState j s.state (start (.getRpcContext verId)))
      [.step j e, .step j e, .step j e] = some ((s.setState j s.state (start (.getRpcContext verId))).setState j
        (s.state.getCachedRegion verId e.t e.now).2
        ((getStoreAddr ri.leader.storeId).bind (resume ri.leader.storeId (.getRpcContext verId ri)))) := by
    refine Threads.run_shared (s.setState_code_self j s.state _) (hlock .region) ?_
    simp only [Threads.setState, hread, Code.bind, Code.bind_assoc]
    rfl
  rw [getCachedRegion_snd, Threads.setState_setState] at hregion
  have hstore := run_getStoreAddr (f := resume ri.leader.storeId (.getRpcContext verId ri))
    (s.setState_code_self j s.state _) (hlock .store) hit e
  simp only [Threads.setState_setState, resume, rpcContext, hlen, if_false, Code.bind] at hstore
  rw [run_cons, hcall, Option.bind_some]
  exact run_append_eq_some.mpr ⟨_, hregion, hstore⟩

/-- A call of `n` statements, executed one after the other. -/
def atOnce (i : ι) (op : Op) (n : ℕ) (e : Input) : List (Waiters.Event ι Op Input) :=
  (.call i op :: List.replicate n (.step i e)).map .thread

/-- In every run, as long as the other clients are outside a call, a call that finds its region and its
store returns the context of both, however many lookups have missed. -/
theorem getRpcContext_answers {tr : List (Waiters.Event ι Op Input)} {s : Waiting ι}
    (h : run (Waiters.step start) (initWaiting ι) tr = some s) (hout : ∀ i, ∃ ret, s.threads.code i = .ret ret)
    (j : ι) {verId : RegionVerID} {e : Input} {ri : Region}
    (hread : (s.threads.state.getCachedRegion verId e.t e.now).1 = some ri) {it : Store}
    (hit : s.threads.state.stores[ri.leader.storeId]? = some it) (haddr : it.addr ≠ []) :
    ∃ s', run (Waiters.step start) s (atOnce j (.getRpcContext verId) 6 e) = some s' ∧
      s'.threads.code j = .ret (some (.getRpcContext verId (.ok (rpcContextOf ri it.addr)))) := by
  have hlock : ∀ l, (s.threads.lock l).exclusive = none := by
    intro l
    by_contra hne
    obtain ⟨i, hi⟩ := Option.ne_none_iff_exists'.mp hne
    obtain ⟨ret, hc⟩ := hout i
    obtain ⟨hregion, hstore⟩ := holds_of_returned (Waiters.run_threads h) hc
    have hx : (s.threads.holds i l).exclusive = true := decide_eq_true hi
    cases l with
    | region =>
      rw [hregion] at hx
      contradiction
    | store =>
      rw [hstore] at hx
      contradiction
  have hs : s.Blocks := Waiters.blocks_of_run h
  have hunblocked := hs.unblocked fun i l k hc => by
    obtain ⟨ret, hret⟩ := hout i
    exact nomatch hret.symm.trans hc
  obtain ⟨ret, hc⟩ := hout j
  refine ⟨_, Waiters.run_of_threads (run_getRpcContext hc hlock hread hit haddr) hunblocked, ?_⟩
  exact s.threads.setState_code_self j _ _

end TikvCpp.RegionCache.Locks
