import TikvCpp.RegionCache.Locks
import TikvCpp.Sync.Abandoned

/-! What becomes of the locks. Every operation holds one lock at a time, for one access to the maps, and
asks PD with none. But a lookup of `get_store_addr` that misses abandons its shared hold of `store_lock_`,
and that is the only hold that any operation abandons. From the first miss on nobody gets this lock
exclusively, so `stores_` stays as it is then. -/

namespace TikvCpp.RegionCache.Locks

open Data Transition PDClient Sync

/-- The maps that a lock is for are the same. -/
def Same : Lock → RegionCache → RegionCache → Prop
  | .region, rc, rc' => rc'.sorted = rc.sorted ∧ rc'.cachedRegions = rc.cachedRegions
  | .store, rc, rc' => rc'.stores = rc.stores

theorem Same.refl (l : Lock) (rc : RegionCache) : Same l rc rc := by cases l <;> simp [Same]

theorem Same.trans {l : Lock} {rc rc' rc'' : RegionCache} (h : Same l rc rc') (h' : Same l rc' rc'') :
    Same l rc rc'' := by
  cases l with
  | region => exact ⟨h'.1.trans h.1, h'.2.trans h.2⟩
  | store => exact Eq.trans h' h

/-- The lookup of a store that is not there keeps its hold of `store_lock_`. -/
def abandons : Lock → Access → RegionCache → Bool
  | .store, .findStore storeId, rc => rc.stores[storeId]?.isNone
  | _, _, _ => false

/-- A hold that is not abandoned is given back after one access. -/
def policy (l : Lock) : Policy Lock RegionCache Access := ⟨l, Same l, Same.refl l, Same.trans, abandons l, 2⟩

theorem insertRegion_obeys (l : Lock) (region : Region) : (insertRegion region).Obeys (policy l) .free 0 := by
  apply Code.obeys_scope (show 1 < 2 by decide)
  · cases l with
    | region => exact .inl rfl
    | store => exact .inr fun _ _ => rfl
  · intro rc
    cases l <;> rfl
  · exact Code.obeys_ret _

theorem loadRegion_obeys (l : Lock) (key : Str) : (loadRegion key).Obeys (policy l) .free 0 := by
  apply Code.obeys_access
  · exact fun _ => Same.refl l
  · intro rc
    cases l <;> rfl
  · intro e _
    cases loadRegionFromPd (getRegionInner e.region) with
    | ok region => exact insertRegion_obeys l region
    | error err => exact Code.obeys_ret _

theorem locateKey_obeys (l : Lock) (key : Str) : (locateKey key).Obeys (policy l) .free 0 := by
  apply Code.obeys_shared (show 1 < 2 by decide)
  · intro e rc
    rw [searchCache_snd]
    exact Same.refl l rc
  · intro e rc
    refine .inl ⟨by cases l <;> rfl, ?_⟩
    cases (rc.searchCache key e.t e.now).1 with
    | some cached => exact ⟨_, rfl, Code.obeys_ret _⟩
    | none => exact ⟨_, rfl, loadRegion_obeys l key⟩

theorem writeStore_obeys (l : Lock) (storeId : UInt64) (store : Store) :
    (writeStore storeId store).Obeys (policy l) .free 0 := by
  apply Code.obeys_scope (show 1 < 2 by decide)
  · cases l with
    | region => exact .inr fun _ _ => ⟨rfl, rfl⟩
    | store => exact .inl rfl
  · intro rc
    cases l <;> rfl
  · exact Code.obeys_ret _

theorem reloadStoreAddr_obeys (l : Lock) (storeId : UInt64) : (reloadStoreAddr storeId).Obeys (policy l) .free 0 := by
  apply Code.obeys_access
  · exact fun _ => Same.refl l
  · intro rc
    cases l <;> rfl
  · intro e _
    cases getStoreByIdInner e.store with
    | ok store => exact writeStore_obeys l storeId store
    | error err => exact Code.obeys_ret _

theorem getStoreAddr_obeys (l : Lock) (storeId : UInt64) : (getStoreAddr storeId).Obeys (policy l) .free 0 := by
  apply Code.obeys_shared (show 1 < 2 by decide)
  · exact fun _ => Same.refl l
  · intro e rc
    cases hs : rc.stores[storeId]? with
    | some it =>
      refine .inl ⟨?_, _, rfl, Code.obeys_ret _⟩
      cases l with
      | region => rfl
      | store =>
        show rc.stores[storeId]?.isNone = false
        rw [hs]
        rfl
    | none =>
      refine .inr ⟨?_, reloadStoreAddr_obeys l storeId⟩
      cases l with
      | region => rfl
      | store =>
        show rc.stores[storeId]?.isNone = true
        rw [hs]
        rfl

theorem dropRegion_obeys (l : Lock) (verId : RegionVerID) : (dropRegion verId).Obeys (policy l) .free 0 := by
  apply Code.obeys_scope (show 1 < 2 by decide)
  · cases l with
    | region => exact .inl rfl
    | store => exact .inr fun _ rc => rc.dropRegionFromCache_stores verId
  · intro rc
    cases l <;> rfl
  · exact Code.obeys_ret _

theorem updateRegionLeader_obeys (l : Lock) (verId : RegionVerID) (leaderStoreId : UInt16) :
    (updateRegionLeader verId leaderStoreId).Obeys (policy l) .free 0 := by
  apply Code.obeys_scope (show 1 < 2 by decide)
  · cases l with
    | region => exact .inl rfl
    | store => exact .inr fun e rc => rc.updateRegionLeader_stores verId leaderStoreId e.t e.now
  · intro rc
    cases l <;> rfl
  · exact Code.obeys_ret _

theorem rpcContext_obeys (l : Lock) (verId : RegionVerID) (ri : Region) (ret : Except Error Str) :
    (rpcContext verId ri ret).Obeys (policy l) .free 0 := by
  unfold rpcContext
  cases ret with
  | error err => exact Code.obeys_ret _
  | ok addr =>
    dsimp only
    split_ifs
    · exact (dropRegion_obeys l verId).bind fun _ => Code.obeys_ret _
    · exact Code.obeys_ret _

theorem getRpcContext_obeys (l : Lock) (verId : RegionVerID) : (getRpcContext verId).Obeys (policy l) .free 0 := by
  apply Code.obeys_shared (show 1 < 2 by decide)
  · intro e rc
    rw [getCachedRegion_snd]
    exact Same.refl l rc
  · intro e rc
    refine .inl ⟨by cases l <;> rfl, ?_⟩
    cases (rc.getCachedRegion verId e.t e.now).1 with
    | none => exact ⟨_, rfl, Code.obeys_ret _⟩
    | some ri => exact ⟨_, rfl, (getStoreAddr_obeys l ri.leader.storeId).bind (rpcContext_obeys l verId ri)⟩

theorem start_obeys (l : Lock) (op : Op) : (start op).Obeys (policy l) .free 0 := by
  cases op with
  | locateKey key => exact (locateKey_obeys l key).bind fun _ => Code.obeys_ret _
  | getRpcContext verId => exact (getRpcContext_obeys l verId).bind fun _ => Code.obeys_ret _
  | dropRegion verId => exact (dropRegion_obeys l verId).bind fun _ => Code.obeys_ret _
  | updateRegionLeader verId leaderStoreId =>
    exact (updateRegionLeader_obeys l verId leaderStoreId).bind fun _ => Code.obeys_ret _
  | getStoreAddr storeId => exact (getStoreAddr_obeys l storeId).bind fun _ => Code.obeys_ret _
  | reloadStoreAddr storeId => exact (reloadStoreAddr_obeys l storeId).bind fun _ => Code.obeys_ret _

/-! ### What clients hold -/

variable {ι : Type} [DecidableEq ι]

/-- The lookups of each client that have missed in a run. -/
def misses (tr : List (Threads.Event ι Op Input)) : ι → ℕ :=
  Threads.keptAlong (policy .store) start (init ι) (fun _ => 0) tr

theorem accounted {tr : List (Threads.Event ι Op Input)} {s : System ι}
    (h : run (Threads.step start) (init ι) tr = some s) : s.Accounted (policy .store) (misses tr) := by
  have hinit : (init ι).Accounted (policy .store) fun _ => 0 := Threads.accounted_init ({} : RegionCache) none
  exact hinit.run h (start_obeys .store)

theorem accounted_region {tr : List (Threads.Event ι Op Input)} {s : System ι}
    (h : run (Threads.step start) (init ι) tr = some s) : s.Accounted (policy .region) fun _ => 0 := by
  have hinit : (init ι).Accounted (policy .region) fun _ => 0 := Threads.accounted_init ({} : RegionCache) none
  have hrun := hinit.run h (start_obeys .region)
  rw [Threads.keptAlong_of_never fun _ _ => rfl] at hrun
  exact hrun

/-- In every run a client outside a call holds `region_lock_` not at all, and `store_lock_` shared,
as many times as its lookups of stores have missed so far. -/
theorem holds_of_returned {tr : List (Threads.Event ι Op Input)} {s : System ι}
    (h : run (Threads.step start) (init ι) tr = some s) {i : ι} {ret : Option Return} (hc : s.code i = .ret ret) :
    s.holds i .region = .free ∧ s.holds i .store = ⟨false, misses tr i⟩ := by
  constructor
  · obtain ⟨x, n, hobeys, hholds, -⟩ := accounted_region h i
    rw [hc] at hobeys
    obtain rfl : x = .free := hobeys
    exact hholds
  · obtain ⟨x, n, hobeys, hholds, -⟩ := accounted h i
    rw [hc] at hobeys
    obtain rfl : x = .free := hobeys
    rw [show s.holds i .store = _ from hholds, Hold.share]
    congr 1
    exact Nat.zero_add _

theorem holds_of_returned_missTrace :
    ∃ s : System Bool, run (Threads.step start) (init Bool) (missTrace failed) = some s ∧
      s.holds true .store = ⟨false, misses (missTrace failed) true⟩ ∧ misses (missTrace failed) true = 1 := by
  have hrun : run (Threads.step start) (init Bool) (missTrace failed) = some _ := rfl
  exact ⟨_, hrun, (holds_of_returned hrun rfl).2, rfl⟩

/-- In every interleaving, while a client makes two steps there is a point at which it does not hold
`region_lock_`, and one at which it holds `store_lock_` only as many times as its lookups have missed. -/
theorem gives_back {tr tr' : List (Threads.Event ι Op Input)} {s s' : System ι}
    (h : run (Threads.step start) (init ι) tr = some s) (h' : run (Threads.step start) s tr' = some s') {i : ι}
    (hi : 2 ≤ (tr'.map Threads.Event.thread).count i) :
    (∃ pre post m, tr' = pre ++ post ∧ run (Threads.step start) s pre = some m ∧ m.holds i .region = .free) ∧
      ∃ pre post m, tr' = pre ++ post ∧ run (Threads.step start) s pre = some m ∧
        m.holds i .store = ⟨false, misses (tr ++ pre) i⟩ := by
  constructor
  · obtain ⟨x, n, ho⟩ := accounted_region h i
    obtain ⟨pre, post, m, htr, hpre, hholds⟩ := ho.released h' (start_obeys .region) (ho.left.trans hi)
    refine ⟨pre, post, m, htr, hpre, ?_⟩
    rw [Threads.keptAlong_of_never fun _ _ => rfl] at hholds
    exact hholds
  · obtain ⟨x, n, ho⟩ := accounted h i
    obtain ⟨pre, post, m, htr, hpre, hholds⟩ := ho.released h' (start_obeys .store) (ho.left.trans hi)
    refine ⟨pre, post, m, htr, hpre, ?_⟩
    rw [misses, Threads.keptAlong_append h, ← Nat.zero_add (Threads.keptAlong _ _ _ _ pre i)]
    exact hholds

theorem gives_back_missTrace :
    ∃ (s s' : System Bool) (pre : List (Threads.Event Bool Op Input)) (m : System Bool),
      run (Threads.step start) (init Bool) ((missTrace failed).take 1) = some s ∧
        run (Threads.step start) s ((missTrace failed).drop 1) = some s' ∧
        run (Threads.step start) s pre = some m ∧ m.holds true .region = .free := by
  have hall : run (Threads.step start) (init Bool) ((missTrace failed).take 1 ++ (missTrace failed).drop 1) =
      some _ := rfl
  obtain ⟨s, h, h'⟩ := run_append_eq_some.mp hall
  obtain ⟨⟨pre, post, m, -, hpre, hfree⟩, -⟩ := gives_back h h' (i := true) (by decide)
  exact ⟨s, _, pre, m, h, h', hpre, hfree⟩

/-! ### The stores after a miss -/

omit [DecidableEq ι] in
/-- The steps that abandon a hold are the lookups that miss. -/
theorem abandons_iff (s : System ι) (ev : Threads.Event ι Op Input) :
    s.abandons (policy .store) ev = true ↔ ¬ Finds s ev := by
  cases ev with
  | call i op =>
    constructor
    · intro h
      contradiction
    · intro h
      exact absurd trivial h
  | step i e =>
    unfold Threads.abandons Finds lookup
    cases hc : s.code i with
    | access g w k => cases g <;> simp [hc, policy, abandons]
    | _ => simp [hc]

theorem same_stable (rc : RegionCache) : ∀ rc₁ rc₂, Same .store rc rc₁ → (policy .store).keeps rc₁ rc₂ →
    Same .store rc rc₂ := fun _ _ => Same.trans

theorem closed_of_miss {tr : List (Threads.Event ι Op Input)} {s s' : System ι} {ev : Threads.Event ι Op Input}
    (h : run (Threads.step start) (init ι) tr = some s) (hmiss : ¬ Finds s ev)
    (hstep : Threads.step start s ev = some s') :
    ∃ kept, 0 < kept ev.thread ∧ s'.Closed (policy .store) (Same .store s.state) (fun _ _ => True) kept :=
  (accounted h).closed ((abandons_iff s ev).mpr hmiss) (Threads.step_cases hstep) (start_obeys .store)

/-- Once a lookup of a store has missed, `stores_` stays as it was then in every continuation of the
run, the client that missed keeps a shared hold of `store_lock_`, and no client that waits for that
lock exclusively ever gets it. -/
theorem stores_frozen {tr tr' : List (Threads.Event ι Op Input)} {s s' : System ι} {i : ι} {e : Input}
    (h : run (Threads.step start) (init ι) tr = some s) (hmiss : ¬ Finds s (.step i e))
    (h' : run (Threads.step start) s (.step i e :: tr') = some s') :
    s'.state.stores = s.state.stores ∧ 0 < (s'.holds i .store).shared ∧
      ∀ j k tr'' s'', s'.code j = .lock .store k → run (Threads.step start) s' tr'' = some s'' →
        s''.code j = .lock .store k := by
  obtain ⟨m, hm, hrest⟩ := Option.bind_eq_some_iff.mp (run_cons s _ tr' ▸ h')
  obtain ⟨kept, hi, hclosed⟩ := closed_of_miss h hmiss hm
  obtain ⟨kept', hi', hclosed', -⟩ := hclosed.run_abandoned hi hrest (start_obeys .store) (same_stable s.state)
  refine ⟨hclosed'.during, hclosed'.accounted.shared_pos hi', fun j k tr'' s'' hc hrun => ?_⟩
  obtain ⟨-, -, -, hwaits⟩ := hclosed'.run_abandoned hi' hrun (start_obeys .store) (same_stable s.state)
  exact hwaits j k hc

/-- A client asks for store 1, which is not there. -/
def asked : List (Threads.Event Bool Op Input) := [.call true (.getStoreAddr 1), .step true answered]

theorem stores_frozen_asked :
    ∃ s s' : System Bool, run (Threads.step start) (init Bool) asked = some s ∧ ¬ Finds s (.step true answered) ∧
      run (Threads.step start) s [.step true answered, .step true answered] = some s' ∧
      (∃ k, s'.code true = .lock .store k) ∧ s'.state.stores = s.state.stores ∧ 0 < (s'.holds true .store).shared := by
  obtain ⟨s, hs⟩ : ∃ s, s = (run (Threads.step start) (init Bool) asked).get rfl := ⟨_, rfl⟩
  have hrun : run (Threads.step start) (init Bool) asked = some s := by rw [hs]; rfl
  have hmiss : ¬ Finds s (.step true answered) := by rw [hs]; decide
  obtain ⟨s', hrest, hcode⟩ : ∃ s', run (Threads.step start) s [.step true answered, .step true answered] = some s' ∧
      ∃ k, s'.code true = .lock .store k := by rw [hs]; exact ⟨_, rfl, _, rfl⟩
  obtain ⟨hstores, hheld, -⟩ := stores_frozen hrun hmiss hrest
  exact ⟨s, s', hrun, hmiss, hrest, hcode, hstores, hheld⟩

/-! ### What calls answer after a miss -/

/-- The address that a call returned is that of its store in `stores`. -/
def AnswersFrom (stores : OrdMap UInt64 Store) : Option Return → Prop
  | some (.getStoreAddr storeId (.ok addr)) => ∃ it, stores[storeId]? = some it ∧ it.addr = addr
  | some (.getRpcContext _ (.ok ctx)) => ∃ it, stores[ctx.peer.storeId]? = some it ∧ it.addr = ctx.addr
  | _ => True

variable {P : RegionCache → Prop} {stores : OrdMap UInt64 Store}

omit [DecidableEq ι] in
theorem ends_of_unlocked {α β : Type} {Q : β → Prop} {c : LockCode α} {f : α → LockCode β} {b : Bool}
    (hc : c.Ends (policy .store) P (fun _ => True) b) (hf : ∀ a b, (f a).Ends (policy .store) P Q b) :
    (c.bind f).Ends (policy .store) P Q b := hc.bind fun a b _ => hf a b

theorem dropRegion_ends (verId : RegionVerID) (b : Bool) :
    (dropRegion verId).Ends (policy .store) P (fun _ => True) b :=
  Code.ends_scope (by decide) fun _ => trivial

theorem updateRegionLeader_ends (verId : RegionVerID) (leaderStoreId : UInt16) (b : Bool) :
    (updateRegionLeader verId leaderStoreId).Ends (policy .store) P (fun _ => True) b :=
  Code.ends_scope (by decide) fun _ => trivial

theorem loadRegion_ends (key : Str) (b : Bool) : (loadRegion key).Ends (policy .store) P (fun _ => True) b := by
  apply Code.ends_access
  intro e _ _
  cases loadRegionFromPd (getRegionInner e.region) with
  | ok region => exact Code.ends_scope (by decide) fun _ => trivial
  | error err => trivial

theorem locateKey_ends (key : Str) (b : Bool) : (locateKey key).Ends (policy .store) P (fun _ => True) b := by
  apply Code.ends_shared
  intro e rc _
  cases (rc.searchCache key e.t e.now).1 with
  | some cached => trivial
  | none => exact loadRegion_ends key _

theorem writeStore_ends (storeId : UInt64) (store : Store) (Q : Except Error Str → Prop) :
    (writeStore storeId store).Ends (policy .store) P Q true := by
  unfold writeStore Code.Ends
  rw [if_pos (show Lock.store = (policy .store).lock from rfl)]

/-- A reload comes to wait for the lock, or fails. -/
theorem reloadStoreAddr_ends (storeId : UInt64) {Q : Except Error Str → Prop} (hQ : ∀ err, Q (.error err)) :
    (reloadStoreAddr storeId).Ends (policy .store) P Q true := by
  apply Code.ends_access
  intro e _ _
  cases getStoreByIdInner e.store with
  | ok store => exact writeStore_ends storeId store Q
  | error err => exact hQ err

theorem getStoreAddr_ends (hP : ∀ rc, P rc → rc.stores = stores) (storeId : UInt64) (b : Bool) :
    (getStoreAddr storeId).Ends (policy .store) P
      (fun ret => ∀ addr, ret = .ok addr → ∃ it, stores[storeId]? = some it ∧ it.addr = addr) b := by
  apply Code.ends_shared
  intro e rc hrc
  rw [← hP rc hrc]
  cases hs : rc.stores[storeId]? with
  | some it =>
    rintro addr ⟨⟩
    exact ⟨it, rfl, rfl⟩
  | none =>
    have hmiss : (policy .store).abandons (.findStore storeId) rc = true := by
      show rc.stores[storeId]?.isNone = true
      rw [hs]
      rfl
    rw [hmiss, Bool.or_true]
    exact reloadStoreAddr_ends storeId fun err addr h => nomatch h

theorem rpcContext_ends (verId : RegionVerID) (ri : Region) {ret : Except Error Str}
    (hret : ∀ addr, ret = .ok addr → ∃ it, stores[ri.leader.storeId]? = some it ∧ it.addr = addr) (b : Bool) :
    (rpcContext verId ri ret).Ends (policy .store) P
      (fun res => AnswersFrom stores (some (.getRpcContext verId res))) b := by
  unfold rpcContext
  cases ret with
  | error err => trivial
  | ok addr =>
    dsimp only
    split_ifs
    · exact ends_of_unlocked (dropRegion_ends verId b) fun _ _ => trivial
    · exact hret addr rfl

theorem getRpcContext_ends (hP : ∀ rc, P rc → rc.stores = stores) (verId : RegionVerID) (b : Bool) :
    (getRpcContext verId).Ends (policy .store) P (fun res => AnswersFrom stores (some (.getRpcContext verId res))) b := by
  apply Code.ends_shared
  intro e rc _
  cases (rc.getCachedRegion verId e.t e.now).1 with
  | none => trivial
  | some ri => exact (getStoreAddr_ends hP ri.leader.storeId _).bind fun ret b hret => rpcContext_ends verId ri hret b

/-- A call answers from `stores` as long as the stores are these; a direct reload has to find the
lock closed. -/
theorem start_ends (hP : ∀ rc, P rc → rc.stores = stores) {op : Op} {b : Bool}
    (hop : (∀ storeId, op ≠ .reloadStoreAddr storeId) ∨ b = true) :
    (start op).Ends (policy .store) P (AnswersFrom stores) b := by
  cases op with
  | locateKey key => exact ends_of_unlocked (locateKey_ends key b) fun _ _ => trivial
  | getRpcContext verId => exact (getRpcContext_ends hP verId b).bind fun _ _ hres => hres
  | dropRegion verId => exact ends_of_unlocked (dropRegion_ends verId b) fun _ _ => trivial
  | updateRegionLeader verId leaderStoreId =>
    exact ends_of_unlocked (updateRegionLeader_ends verId leaderStoreId b) fun _ _ => trivial
  | getStoreAddr storeId =>
    refine (getStoreAddr_ends hP storeId b).bind fun ret _ hret => ?_
    cases ret with
    | ok addr => exact hret addr rfl
    | error err => trivial
  | reloadStoreAddr storeId =>
    rcases hop with hop | rfl
    · exact absurd rfl (hop storeId)
    · refine (reloadStoreAddr_ends storeId (Q := fun ret => ∃ err, ret = .error err) fun err => ⟨err, rfl⟩).bind ?_
      rintro ret _ ⟨err, rfl⟩
      trivial

/-- Every call begun after a lookup of a store has missed that returns an address, by itself or in a
context, returns the one that the store had in `stores_` when the lookup missed. -/
theorem answers_after_miss {tr tr₁ tr₂ : List (Threads.Event ι Op Input)} {s s' : System ι} {i j : ι} {e : Input}
    {op : Op} {ret : Option Return} (h : run (Threads.step start) (init ι) tr = some s) (hmiss : ¬ Finds s (.step i e))
    (h' : run (Threads.step start) s (.step i e :: tr₁ ++ .call j op :: tr₂) = some s') (hc : s'.code j = .ret ret) :
    AnswersFrom s.state.stores ret := by
  obtain ⟨m, hm, hrest⟩ := Option.bind_eq_some_iff.mp (run_cons s _ _ ▸ h')
  obtain ⟨m', hm', hcall⟩ := run_append_eq_some.mp hrest
  obtain ⟨kept, hi, hclosed⟩ := closed_of_miss h hmiss hm
  obtain ⟨kept', hi', hclosed', -⟩ := hclosed.run_abandoned hi hm' (start_obeys .store) (same_stable s.state)
  apply hclosed'.returns hi' hcall (start_obeys .store) (same_stable s.state) _ hc
  intro op
  exact start_ends (fun _ hrc => hrc) (.inr rfl)

/-- Store 1 is loaded and a lookup of store 2 misses; PD fails, and the other client asks for store 1. -/
def loadedAndAsked : List (Threads.Event Bool Op Input) :=
  [.call true (.reloadStoreAddr 1), .step true answered, .step true answered, .step true answered, .step true answered,
    .call true (.getStoreAddr 2), .step true failed]

def afterLookup : List (Threads.Event Bool Op Input) :=
  .step true failed :: [.step true failed] ++ .call false (.getStoreAddr 1) ::
    [.step false failed, .step false failed, .step false failed]

theorem answers_after_miss_asked :
    ∃ s s' : System Bool, run (Threads.step start) (init Bool) loadedAndAsked = some s ∧
      ¬ Finds s (.step true failed) ∧ run (Threads.step start) s afterLookup = some s' ∧
      s'.code false = .ret (some (.getStoreAddr 1 (.ok []))) ∧
      AnswersFrom s.state.stores (some (.getStoreAddr 1 (.ok []))) := by
  obtain ⟨s, hs⟩ : ∃ s, s = (run (Threads.step start) (init Bool) loadedAndAsked).get rfl := ⟨_, rfl⟩
  obtain ⟨s', hs'⟩ : ∃ s', s' = (run (Threads.step start) s afterLookup).get (by rw [hs]; rfl) := ⟨_, rfl⟩
  have hrun : run (Threads.step start) (init Bool) loadedAndAsked = some s := by rw [hs]; rfl
  have hmiss : ¬ Finds s (.step true failed) := by rw [hs]; decide
  have hrest : run (Threads.step start) s afterLookup = some s' := by rw [hs', Option.some_get]
  have hret : s'.code false = .ret (some (.getStoreAddr 1 (.ok []))) := by subst hs; rw [hs']; rfl
  exact ⟨s, s', hrun, hmiss, hrest, hret, answers_after_miss hrun hmiss hrest hret⟩

/-- As long as no client calls `reload_store_addr` itself, `stores_` stays empty, and neither
`get_store_addr` nor `get_rpc_context` ever returns an address. -/
theorem no_answer {tr : List (Threads.Event ι Op Input)} {s : System ι}
    (h : run (Threads.step start) (init ι) tr = some s) (hno : ∀ j storeId, .call j (.reloadStoreAddr storeId) ∉ tr) :
    s.state.stores = ∅ ∧ (∀ i storeId addr, s.code i ≠ .ret (some (.getStoreAddr storeId (.ok addr)))) ∧
      ∀ i verId ctx, s.code i ≠ .ret (some (.getRpcContext verId (.ok ctx))) := by
  have hinit : (init ι).Closed (policy .store) (Same .store {}) (fun _ => AnswersFrom ∅) fun _ => 0 :=
    ⟨Threads.accounted_init ({} : RegionCache) none, rfl, rfl, fun _ => ⟨false, trivial, nofun⟩⟩
  obtain ⟨hclosed, -, -⟩ := hinit.run h (start_obeys .store) (same_stable {}) fun j op hmem => by
    refine ⟨false, start_ends (fun _ hrc => hrc) (.inl fun storeId hop => ?_), nofun⟩
    rw [hop] at hmem
    exact hno j storeId hmem
  have hanswers : ∀ i ret, s.code i = .ret ret → AnswersFrom ∅ ret := by
    intro i ret hc
    obtain ⟨b, hret, -⟩ := hclosed.ends i
    rw [hc] at hret
    exact hret
  refine ⟨hclosed.during, fun i storeId addr hc => ?_, fun i verId ctx hc => ?_⟩
  · obtain ⟨it, hit, -⟩ := hanswers i _ hc
    simp at hit
  · obtain ⟨it, hit, -⟩ := hanswers i _ hc
    simp at hit

theorem no_answer_missTrace :
    ∃ s : System Bool, run (Threads.step start) (init Bool) (missTrace failed) = some s ∧
      (∀ j storeId, .call j (.reloadStoreAddr storeId) ∉ missTrace failed) ∧ s.state.stores = ∅ := by
  have hrun : run (Threads.step start) (init Bool) (missTrace failed) = some _ := rfl
  have hno : ∀ j storeId, .call j (.reloadStoreAddr storeId) ∉ missTrace failed := by simp [missTrace]
  exact ⟨_, hrun, hno, (no_answer hrun hno).1⟩

end TikvCpp.RegionCache.Locks
