import TikvCpp.Sync.Abandoned

/-! Waiting writers. A thread that is not granted a lock exclusively blocks it: until the exclusive hold or
the last shared one is given back, shared requests are refused as well. So a run with waiting writers is a
run of the threads in which fewer requests are granted, and what is true in every state of those is true
here. Who waits for whom is not: a thread may also wait because another one does. -/

namespace TikvCpp.Sync

open Transition

/-- Threads, and which locks a waiting exclusive request blocks. -/
structure Waiters (ι L σ In G α : Type) where
  threads : Threads ι L σ In G α
  blocked : L → Bool

namespace Waiters

variable {ι L σ In G α Op : Type}

/-- A call or a statement of a thread, or a thread that requests a lock exclusively begins to wait. -/
inductive Event (ι Op In : Type)
  | thread (ev : Threads.Event ι Op In)
  | wait (i : ι)

def Event.thread? : Event ι Op In → Option (Threads.Event ι Op In)
  | .thread ev => some ev
  | .wait _ => none

/-- The calls and statements of a run. -/
def executed (tr : List (Event ι Op In)) : List (Threads.Event ι Op In) := tr.filterMap Event.thread?

/-- No lock is blocked. -/
def init (t : Threads ι L σ In G α) : Waiters ι L σ In G α := ⟨t, fun _ => false⟩

/-- The event is a shared request of a blocked lock. -/
def refused (s : Waiters ι L σ In G α) : Threads.Event ι Op In → Bool
  | .call _ _ => false
  | .step i _ =>
    match s.threads.code i with
    | .lockShared l _ => s.blocked l
    | _ => false

variable [DecidableEq ι] [DecidableEq L]

/-- What is blocked after the event: the end of the exclusive hold unblocks a lock, and the end of the
last shared one. -/
def unblock (s : Waiters ι L σ In G α) : Threads.Event ι Op In → L → Bool
  | .call _ _ => s.blocked
  | .step i _ =>
    match s.threads.code i with
    | .unlock l _ => Function.update s.blocked l false
    | .unlockShared l _ =>
      if ((s.threads.lock l).unlockShared i).shared = 0 then Function.update s.blocked l false else s.blocked
    | _ => s.blocked

def step (start : Op → Code L σ In G α) (s : Waiters ι L σ In G α) :
    Event ι Op In → Option (Waiters ι L σ In G α)
  | .thread ev =>
    if s.refused ev then none else (Threads.step start s.threads ev).map fun t => ⟨t, s.unblock ev⟩
  | .wait i =>
    match s.threads.code i with
    | .lock l _ =>
      if ((s.threads.lock l).lock i).isNone then some ⟨s.threads, Function.update s.blocked l true⟩ else none
    | _ => none

variable {start : Op → Code L σ In G α} {s s' : Waiters ι L σ In G α}

/-- The steps, one rule for each kind of event. -/
inductive Step (start : Op → Code L σ In G α) (s : Waiters ι L σ In G α) :
    Event ι Op In → Waiters ι L σ In G α → Prop
  | thread {ev t} (hno : s.refused ev = false) (ht : Threads.step start s.threads ev = some t) :
      Step start s (.thread ev) ⟨t, s.unblock ev⟩
  | wait {i l k} (hc : s.threads.code i = .lock l k) (hm : (s.threads.lock l).lock i = none) :
      Step start s (.wait i) ⟨s.threads, Function.update s.blocked l true⟩

theorem step_cases {ev : Event ι Op In} (h : step start s ev = some s') : Step start s ev s' := by
  cases ev with
  | thread ev =>
    simp only [step] at h
    split_ifs at h with hno
    obtain ⟨t, ht, rfl⟩ := Option.map_eq_some_iff.mp h
    exact .thread (eq_false_of_ne_true hno) ht
  | wait i =>
    simp only [step] at h
    split at h
    · next l k hc =>
      split_ifs at h with hm
      obtain rfl := Option.some.inj h
      exact .wait hc (Option.isNone_iff_eq_none.mp hm)
    · contradiction

/-- An event leaves a lock as blocked as it was, or it is one of the two ends that unblock it. -/
theorem unblock_cases (s : Waiters ι L σ In G α) (ev : Threads.Event ι Op In) (l : L) :
    s.unblock ev l = s.blocked l ∨ s.unblock ev l = false ∧ ∃ k, s.threads.code ev.thread = .unlock l k ∨
      s.threads.code ev.thread = .unlockShared l k ∧ ((s.threads.lock l).unlockShared ev.thread).shared = 0 := by
  cases ev with
  | call i op => exact .inl rfl
  | step i e =>
    simp only [unblock, Threads.Event.thread]
    cases hc : s.threads.code i with
    | unlock l' k =>
      by_cases hl : l = l'
      · subst hl
        exact .inr ⟨Function.update_self .., k, .inl rfl⟩
      · exact .inl (Function.update_of_ne hl ..)
    | unlockShared l' k =>
      dsimp only
      split_ifs with hlast
      · by_cases hl : l = l'
        · subst hl
          exact .inr ⟨Function.update_self .., k, .inr ⟨rfl, hlast⟩⟩
        · exact .inl (Function.update_of_ne hl ..)
      · exact .inl rfl
    | ret | lockShared | lock | access => exact .inl rfl

/-- Executing a statement blocks nothing. -/
theorem blocked_of_unblock {ev : Threads.Event ι Op In} {l : L} (h : s.unblock ev l = true) :
    s.blocked l = true := by
  rcases s.unblock_cases ev l with hsame | ⟨hfalse, -⟩
  · rw [← hsame]
    exact h
  · rw [hfalse] at h
    contradiction

omit [DecidableEq ι] [DecidableEq L] in
theorem not_refused {i : ι} (e : In) (h : ∀ l k, s.threads.code i = .lockShared l k → s.blocked l = false) :
    s.refused (.step i e : Threads.Event ι Op In) = false := by
  cases hc : s.threads.code i with
  | lockShared l k =>
    simp only [refused, hc]
    exact h l k hc
  | _ => simp only [refused, hc]

/-- What a run executes is a run of the threads. -/
theorem run_threads {tr : List (Event ι Op In)} (h : run (step start) s tr = some s') :
    run (Threads.step start) s.threads (executed tr) = some s'.threads := by
  induction tr generalizing s with
  | nil =>
    obtain rfl := Option.some.inj h
    rfl
  | cons ev tr ih =>
    obtain ⟨m, hm, hrest⟩ := Option.bind_eq_some_iff.mp (run_cons s ev tr ▸ h)
    cases step_cases hm with
    | thread hno ht =>
      show run (Threads.step start) s.threads (_ :: executed tr) = _
      rw [run_cons, ht]
      exact ih hrest
    | wait hc hnone =>
      have hsame := ih hrest
      exact hsame

/-- A run of the threads in which nobody begins to wait is possible while no lock is blocked. -/
theorem run_of_threads {tr : List (Threads.Event ι Op In)} {t : Threads ι L σ In G α}
    (h : run (Threads.step start) s.threads tr = some t) (hs : s.blocked = fun _ => false) :
    run (step start) s (tr.map .thread) = some (init t) := by
  induction tr generalizing s with
  | nil =>
    obtain rfl := Option.some.inj h
    show some s = _
    rw [init, ← hs]
  | cons ev tr ih =>
    obtain ⟨m, hm, hrest⟩ := Option.bind_eq_some_iff.mp (run_cons s.threads ev tr ▸ h)
    have hno : s.refused ev = false := by
      cases ev with
      | call i op => rfl
      | step i e => exact not_refused e fun l _ _ => congrFun hs l
    have hunblock : s.unblock ev = fun _ => false := by
      funext l
      apply eq_false_of_ne_true
      intro hl
      have hblocked := blocked_of_unblock hl
      rw [hs] at hblocked
      contradiction
    rw [List.map_cons, run_cons, step, hno, hm]
    exact ih hrest hunblock

/-! ### Blocked locks -/

/-- A lock that stays blocked stays held. -/
theorem held_of_unblock {ev : Threads.Event ι Op In} {t : Threads ι L σ In G α}
    (ht : Threads.step start s.threads ev = some t) {l : L} (hb : s.unblock ev l = true)
    (hheld : ∃ j, s.threads.holds j l ≠ .free) : ∃ j, t.holds j l ≠ .free := by
  have hsame : ∀ (i : ι) (l' : L) (m : RWLock ι) (k : Code L σ In G α), l ≠ l' →
      ∃ j, (s.threads.setLock i l' m k).holds j l ≠ .free := by
    intro i l' m k hl
    obtain ⟨j, hj⟩ := hheld
    refine ⟨j, ?_⟩
    rw [Threads.setLock_holds_of_ne hl]
    exact hj
  have hnew : ∀ (i : ι) (m : RWLock ι) (k : Code L σ In G α), (∃ j, m.hold j ≠ .free) →
      ∃ j, (s.threads.setLock i l m k).holds j l ≠ .free := by
    rintro i m k ⟨j, hj⟩
    refine ⟨j, ?_⟩
    show (Function.update s.threads.lock l m l).hold j ≠ .free
    rw [Function.update_self]
    exact hj
  cases Threads.step_cases ht with
  | call hc | access hc => exact hheld
  | @lockShared i e l' k m hc hm =>
    by_cases hl : l = l'
    · subst hl
      refine hnew i m k ⟨i, fun hfree => ?_⟩
      rw [RWLock.hold_lockShared hm, Function.update_self] at hfree
      exact absurd (congrArg Hold.shared hfree) (Nat.succ_ne_zero _)
    · exact hsame i l' m k hl
  | @lock i e l' k m hc hm =>
    by_cases hl : l = l'
    · subst hl
      refine hnew i m k ⟨i, ?_⟩
      rw [RWLock.hold_lock hm, Function.update_self]
      decide
    · exact hsame i l' m k hl
  | @unlockShared i e l' k hc =>
    by_cases hl : l = l'
    · subst hl
      simp only [unblock, hc] at hb
      split_ifs at hb with hlast
      · rw [Function.update_self] at hb
        contradiction
      · exact hnew i _ k (RWLock.exists_hold_of_shared hlast)
    · exact hsame i l' _ k hl
  | @unlock i e l' k hc =>
    by_cases hl : l = l'
    · subst hl
      simp only [unblock, hc, Function.update_self] at hb
      contradiction
    · exact hsame i l' _ k hl

/-- A blocked lock is held, and some thread waits for it exclusively. -/
def Blocks (s : Waiters ι L σ In G α) : Prop :=
  ∀ l, s.blocked l = true → (∃ j, s.threads.holds j l ≠ .free) ∧ ∃ i k, s.threads.code i = .lock l k

theorem Step.blocks {ev : Event ι Op In} (h : Step start s ev s') (hs : s.Blocks) : s'.Blocks := by
  intro l hl
  cases h with
  | @thread ev t hno ht =>
    obtain ⟨⟨j, hj⟩, i, k, hc⟩ := hs l (blocked_of_unblock hl)
    refine ⟨held_of_unblock ht hl ⟨j, hj⟩, i, k, ?_⟩
    -- the waiting thread has made no step
    have hi : i ≠ ev.thread := Threads.thread_ne_of_held ht hc hj
    rw [((Threads.step_cases ht).others hi).1]
    exact hc
  | @wait i l' k hc hm =>
    by_cases heq : l = l'
    · subst heq
      exact ⟨RWLock.exists_hold_of_lock_eq_none hm, i, k, hc⟩
    · apply hs l
      have hsame : Function.update s.blocked l' true l = s.blocked l := Function.update_of_ne heq ..
      exact hsame.symm.trans hl

/-- In every run. -/
theorem blocks_of_run {t : Threads ι L σ In G α} {tr : List (Event ι Op In)}
    (h : run (step start) (init t) tr = some s) : s.Blocks := by
  refine run_induction (P := fun _ s => s.Blocks) (fun l hl => nomatch hl) ?_ h
  intro tr m ev m' _ ih he
  exact (step_cases he).blocks ih

omit [DecidableEq L] in
/-- While nobody requests a lock exclusively, none is blocked. -/
theorem Blocks.unblocked (hs : s.Blocks) (h : ∀ i l k, s.threads.code i ≠ .lock l k) : s.blocked = fun _ => false := by
  funext l
  apply eq_false_of_ne_true
  intro hl
  obtain ⟨-, i, k, hc⟩ := hs l hl
  exact h i l k hc

/-! ### Who waits for whom -/

/-- The next statement of thread `i` is not waited for. -/
def Ready (start : Op → Code L σ In G α) (s : Waiters ι L σ In G α) (i : ι) : Prop :=
  ∀ e, (step start s (.thread (.step i e))).isSome

theorem ready_of {i : ι} (h : ∀ e, (s.threads.advance i e).isSome)
    (hno : ∀ l k, s.threads.code i = .lockShared l k → s.blocked l = false) : s.Ready start i := by
  intro e
  rw [step, not_refused e hno, if_neg Bool.false_ne_true, Option.isSome_map]
  exact h e

variable {D : Policy L σ G} {kept : ι → ℕ}

/-- A thread waits for the lock only while another one holds it, which is not waiting, or because of an
abandoned hold: it requests the lock exclusively itself, or it waits behind a thread that does. -/
theorem waits_for (ha : s.threads.Accounted D kept) (hs : s.Blocks) {i : ι} {k : Code L σ In G α}
    (hc : s.threads.code i = .lock D.lock k ∨ s.threads.code i = .lockShared D.lock k) :
    s.Ready start i ∨ (∃ j, j ≠ i ∧ s.threads.holds j D.lock ≠ .free ∧ s.Ready start j) ∨
      (∃ j, 0 < kept j) ∧ (s.threads.code i = .lock D.lock k ∨
        s.blocked D.lock = true ∧ ∃ j k', s.threads.code j = .lock D.lock k') := by
  by_cases hall : ∀ j, s.threads.holds j D.lock = Hold.free.share (kept j)
  · have hkept : (∃ j, s.threads.holds j D.lock ≠ .free) → ∃ j, 0 < kept j := by
      rintro ⟨j, hj⟩
      refine ⟨j, Nat.pos_of_ne_zero fun hzero => hj ?_⟩
      rw [hall j, hzero]
      rfl
    rcases hc with hc | hc
    · cases hm : (s.threads.lock D.lock).lock i with
      | none => exact .inr (.inr ⟨hkept (RWLock.exists_hold_of_lock_eq_none hm), .inl hc⟩)
      | some m =>
        refine .inl (ready_of (fun e => ?_) fun l k' hc' => nomatch hc.symm.trans hc')
        rw [Threads.advance, hc, Option.isSome_map, hm]
        rfl
    · by_cases hblocked : s.blocked D.lock = true
      · obtain ⟨hheld, hwaits⟩ := hs D.lock hblocked
        exact .inr (.inr ⟨hkept hheld, .inr ⟨hblocked, hwaits⟩⟩)
      · refine .inl (ready_of (fun e => ?_) fun l k' hc' => ?_)
        · rw [Threads.advance, hc, Option.isSome_map]
          exact RWLock.lockShared_isSome_of_shared i fun j => congrArg Hold.exclusive (hall j)
        · obtain ⟨rfl, -⟩ := Code.lockShared.inj (hc.symm.trans hc')
          exact eq_false_of_ne_true hblocked
  · obtain ⟨j, hj⟩ := not_forall.mp hall
    obtain ⟨hgo, hno⟩ := ha.goes_on hj
    refine .inr (.inl ⟨j, ?_, ha.ne_free hj, ready_of hgo fun l k' hc' => absurd hc' (hno l k')⟩)
    rintro rfl
    exact hj (ha.holds_of_request hc)

/-! ### A lock that stays blocked -/

/-- With an abandoned hold, no release is the one that unblocks the lock. -/
theorem unblock_of_kept (ha : s.threads.Accounted D kept) {i : ι} (hi : 0 < kept i) (hb : s.blocked D.lock = true)
    (ev : Threads.Event ι Op In) : s.unblock ev D.lock = true := by
  obtain ⟨x, n, hobeys, hholds, -⟩ := ha ev.thread
  rcases s.unblock_cases ev D.lock with hsame | ⟨-, k, hc | ⟨hc, hlast⟩⟩
  · rw [hsame]
    exact hb
  · -- nobody has an exclusive hold to give back
    rw [hc] at hobeys
    have hx : (s.threads.holds ev.thread D.lock).exclusive = true := by
      rw [hholds]
      exact hobeys.2.1 rfl
    unfold Threads.holds RWLock.hold at hx
    rw [RWLock.exclusive_of_shared (ha.shared_pos hi)] at hx
    contradiction
  · -- the abandoned hold is left
    rw [hc] at hobeys
    have hleft : (((s.threads.lock D.lock).unlockShared ev.thread).hold i).shared = 0 := by
      rw [RWLock.hold, hlast]
      rfl
    rw [RWLock.hold_unlockShared] at hleft
    by_cases hij : i = ev.thread
    · subst hij
      rw [Function.update_self, show (s.threads.lock D.lock).hold _ = _ from hholds] at hleft
      have hpos : 0 < x.shared := hobeys.2.1 rfl
      have hzero : x.shared + kept ev.thread - 1 = 0 := hleft
      omega
    · rw [Function.update_of_ne hij] at hleft
      exact absurd hleft (ha.shared_pos hi).ne'

/-- The thread of a step does not request a lock that is blocked and has an abandoned hold. -/
theorem Step.not_request {ev : Threads.Event ι Op In} (h : Step start s (.thread ev) s')
    (ha : s.threads.Accounted D kept) {i : ι} (hi : 0 < kept i) (hb : s.blocked D.lock = true) {j : ι}
    {k : Code L σ In G α} (hc : s.threads.code j = .lock D.lock k ∨ s.threads.code j = .lockShared D.lock k) :
    j ≠ ev.thread := by
  cases h with
  | @thread _ t hno ht =>
    rcases hc with hc | hc
    · apply Threads.thread_ne_of_held (j := i) ht hc
      intro hfree
      have hzero : ((s.threads.lock D.lock).hold i).shared = 0 := congrArg Hold.shared hfree
      exact (ha.shared_pos hi).ne' hzero
    · rintro rfl
      cases ev with
      | call j op =>
        have hc' : s.threads.code j = .lockShared D.lock k := hc
        rw [Threads.step, hc'] at ht
        contradiction
      | step j e =>
        have hc' : s.threads.code j = .lockShared D.lock k := hc
        simp only [refused, hc', hb] at hno
        contradiction

/-- From the moment a lock with an abandoned hold is blocked it stays so, and whoever requests it in
either way waits for ever. -/
theorem blocked_of_run {tr : List (Event ι Op In)} (h : run (step start) s tr = some s')
    (ha : s.threads.Accounted D kept) (hstart : ∀ op, (start op).Obeys D .free 0) {i : ι} (hi : 0 < kept i)
    (hb : s.blocked D.lock = true) :
    s'.blocked D.lock = true ∧ ∀ j k, s.threads.code j = .lock D.lock k ∨ s.threads.code j = .lockShared D.lock k →
      s'.threads.code j = s.threads.code j := by
  induction tr generalizing s kept with
  | nil =>
    obtain rfl := Option.some.inj h
    exact ⟨hb, fun _ _ _ => rfl⟩
  | cons ev tr ih =>
    obtain ⟨m, hm, hrest⟩ := Option.bind_eq_some_iff.mp (run_cons s ev tr ▸ h)
    have hstep := step_cases hm
    cases hstep with
    | @thread ev t hno ht =>
      have hts := Threads.step_cases ht
      obtain ⟨hblocked, hsame⟩ := ih hrest (hts.accounted ha hstart)
        (Nat.lt_of_lt_of_le hi (Threads.kept_le_keptAfter ev i)) (unblock_of_kept ha hi hb ev)
      refine ⟨hblocked, fun j k hc => ?_⟩
      have hj := Step.not_request (.thread hno ht) ha hi hb hc
      have hcode : t.code j = s.threads.code j := (hts.others hj).1
      rw [hsame j k (by rw [hcode]; exact hc)]
      exact hcode
    | @wait j l k hc hnone =>
      have hblocked : Function.update s.blocked l true D.lock = true := by
        by_cases hl : D.lock = l
        · rw [hl, Function.update_self]
        · rw [Function.update_of_ne hl]
          exact hb
      have hsame := ih hrest ha hi hblocked
      exact hsame

end Waiters

end TikvCpp.Sync
