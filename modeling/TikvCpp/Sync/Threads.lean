import TikvCpp.Sync.RWLock
import TikvCpp.Transition.Run
import Mathlib.Logic.Function.Basic

/-! Threads over a shared state and a family of reader-writer locks. The code of a
thread is the tree of statements it may execute; an access takes an input from
outside, may change the state, and goes on by what it reads. Rules say which
accesses are admitted and which holds each of them is made under. Code that keeps
the rules requests no lock it holds and releases what it took, and this is checked
by following the code; what it means for all threads together is derived once. -/

namespace TikvCpp.Sync

open Transition

/-- The code of an operation. Accesses are labelled. -/
inductive Code (L σ In G α : Type)
  | ret (a : α)
  | lockShared (l : L) (k : Code L σ In G α)
  | unlockShared (l : L) (k : Code L σ In G α)
  | lock (l : L) (k : Code L σ In G α)
  | unlock (l : L) (k : Code L σ In G α)
  | access (g : G) (w : In → σ → σ) (k : In → σ → Code L σ In G α)

namespace Code

variable {L σ In G α β : Type}

/-- A call: `f` goes on with what the code returns. -/
def bind : Code L σ In G α → (α → Code L σ In G β) → Code L σ In G β
  | ret a, f => f a
  | lockShared l k, f => lockShared l (k.bind f)
  | unlockShared l k, f => unlockShared l (k.bind f)
  | lock l k, f => lock l (k.bind f)
  | unlock l k, f => unlock l (k.bind f)
  | access g w k, f => access g w fun e s => (k e s).bind f

theorem bind_assoc {γ : Type} (c : Code L σ In G α) (f : α → Code L σ In G β)
    (g : β → Code L σ In G γ) : (c.bind f).bind g = c.bind fun a => (f a).bind g := by
  induction c with
  | ret a => rfl
  | lockShared l k ih | unlockShared l k ih | lock l k ih | unlock l k ih =>
    simp only [bind, ih]
  | access g w k ih =>
    simp only [bind]
    congr 1
    funext e s
    exact ih e s

/-- The code without its lock statements. -/
def erase : Code L σ In G α → Code L σ In G α
  | ret a => ret a
  | lockShared _ k | unlockShared _ k | lock _ k | unlock _ k => k.erase
  | access g w k => access g w fun e s => (k e s).erase

end Code

/-! ### Rules for code -/

/-- Which accesses are admitted, and what a thread holds when it makes one. -/
structure Rules (L σ In G : Type) where
  admits : G → In → σ → Prop
  guard : G → L → Hold

namespace Code

variable {L σ In G α β : Type} [DecidableEq L] (D : Rules L σ In G)

/-- With holds `h`, and as long as its accesses are admitted, the code requests a lock
only while it does not hold it, releases a lock as it holds it, makes every access
under the guard, and returns with what `Q` allows. -/
def Keeps : Code L σ In G α → (L → Hold) → (α → (L → Hold) → Prop) → Prop
  | ret a, h, Q => Q a h
  | lockShared l k, h, Q => h l = .free ∧ k.Keeps (Function.update h l .reader) Q
  | unlockShared l k, h, Q => h l = .reader ∧ k.Keeps (Function.update h l .free) Q
  | lock l k, h, Q => h l = .free ∧ k.Keeps (Function.update h l .writer) Q
  | unlock l k, h, Q => h l = .writer ∧ k.Keeps (Function.update h l .free) Q
  | access g _ k, h, Q => h = D.guard g ∧ ∀ e s, D.admits g e s → (k e s).Keeps h Q

/-- Begun with nothing held, the code keeps the rules and ends with nothing held. -/
def Balanced (c : Code L σ In G α) : Prop :=
  c.Keeps D (fun _ => .free) fun _ h => h = fun _ => .free

variable {D}

/-- The rule of calls. -/
theorem Keeps.bind {c : Code L σ In G α} {f : α → Code L σ In G β} {h : L → Hold}
    {P : α → (L → Hold) → Prop} {Q : β → (L → Hold) → Prop} (hc : c.Keeps D h P)
    (hf : ∀ a h', P a h' → (f a).Keeps D h' Q) : (c.bind f).Keeps D h Q := by
  induction c generalizing h with
  | ret a => exact hf a h hc
  | lockShared l k ih | unlockShared l k ih | lock l k ih | unlock l k ih =>
    exact ⟨hc.1, ih hc.2⟩
  | access g w k ih => exact ⟨hc.1, fun e s he => ih e s (hc.2 e s he)⟩

theorem Balanced.bind {c : Code L σ In G α} {f : α → Code L σ In G β} (hc : c.Balanced D)
    (hf : ∀ a, (f a).Balanced D) : (c.bind f).Balanced D := by
  apply Keeps.bind hc
  intro a h' hh
  rw [hh]
  exact hf a

theorem balanced_ret (a : α) : (ret a : Code L σ In G α).Balanced D := rfl

/-- The rule of accesses made with nothing held. -/
theorem balanced_access {g : G} {w : In → σ → σ} {k : In → σ → Code L σ In G α}
    (hg : D.guard g = fun _ => .free) (hk : ∀ e s, D.admits g e s → (k e s).Balanced D) :
    (access g w k).Balanced D := ⟨hg.symm, hk⟩

theorem update_free (l : L) (x : Hold) :
    Function.update (Function.update (fun _ => Hold.free) l x) l .free = fun _ => .free := by
  rw [Function.update_idem]
  exact Function.update_eq_self l fun _ => Hold.free

/-- The rule of an access under a shared hold that every branch releases first. -/
theorem balanced_shared {l : L} {g : G} {w : In → σ → σ} {k : In → σ → Code L σ In G α}
    (hg : D.guard g = Function.update (fun _ => .free) l .reader)
    (hk : ∀ e s, D.admits g e s → ∃ c, k e s = unlockShared l c ∧ c.Balanced D) :
    (lockShared l (access g w k)).Balanced D := by
  refine ⟨rfl, hg.symm, ?_⟩
  intro e s he
  obtain ⟨c, hc, hb⟩ := hk e s he
  rw [hc]
  refine ⟨Function.update_self .., ?_⟩
  rw [update_free]
  exact hb

/-- The rule of an access in the scope of an exclusive hold. -/
theorem balanced_scope {l : L} {g : G} {w : In → σ → σ} {c : Code L σ In G α}
    (hg : D.guard g = Function.update (fun _ => .free) l .writer) (hc : c.Balanced D) :
    (lock l (access g w fun _ _ => unlock l c)).Balanced D := by
  refine ⟨rfl, hg.symm, ?_⟩
  intro e s _
  refine ⟨Function.update_self .., ?_⟩
  rw [update_free]
  exact hc

end Code

/-! ### Threads -/

/-- The shared state, the locks, and the code each thread has still to execute. -/
structure Threads (ι L σ In G α : Type) where
  state : σ
  lock : L → RWLock ι
  code : ι → Code L σ In G α

namespace Threads

variable {ι L σ In G α Op : Type}

/-- A thread that has returned calls an operation, or a thread executes a statement. -/
inductive Event (ι Op In : Type)
  | call (i : ι) (op : Op)
  | step (i : ι) (e : In)

/-- No thread is in an operation, and no lock is held. -/
def init (ι L : Type) {σ In G α : Type} (state : σ) (a : α) : Threads ι L σ In G α :=
  ⟨state, fun _ => RWLock.unheld ι, fun _ => .ret a⟩

/-- What thread `i` holds of each lock. -/
def holds [DecidableEq ι] (s : Threads ι L σ In G α) (i : ι) (l : L) : Hold := (s.lock l).hold i

variable [DecidableEq ι] [DecidableEq L]

/-- Thread `i` leaves lock `l` as `m`. -/
def setLock (s : Threads ι L σ In G α) (i : ι) (l : L) (m : RWLock ι) (k : Code L σ In G α) :
    Threads ι L σ In G α :=
  ⟨s.state, Function.update s.lock l m, Function.update s.code i k⟩

/-- Thread `i` leaves the given state. -/
def setState (s : Threads ι L σ In G α) (i : ι) (state : σ) (k : Code L σ In G α) :
    Threads ι L σ In G α :=
  ⟨state, s.lock, Function.update s.code i k⟩

/-- The next statement of thread `i`; nothing while the thread waits for a lock. -/
def advance (s : Threads ι L σ In G α) (i : ι) (e : In) : Option (Threads ι L σ In G α) :=
  match s.code i with
  | .ret _ => none
  | .lockShared l k => ((s.lock l).lockShared i).map fun m => s.setLock i l m k
  | .unlockShared l k => some (s.setLock i l ((s.lock l).unlockShared i) k)
  | .lock l k => ((s.lock l).lock i).map fun m => s.setLock i l m k
  | .unlock l k => some (s.setLock i l ((s.lock l).unlock i) k)
  | .access _ w k => some (s.setState i (w e s.state) (k e s.state))

def step (start : Op → Code L σ In G α) (s : Threads ι L σ In G α) :
    Event ι Op In → Option (Threads ι L σ In G α)
  | .call i op =>
    match s.code i with
    | .ret _ => some (s.setState i s.state (start op))
    | _ => none
  | .step i e => s.advance i e

omit [DecidableEq L] in
@[simp] theorem setState_code_self (s : Threads ι L σ In G α) (i : ι) (state : σ)
    (k : Code L σ In G α) : (s.setState i state k).code i = k := by
  unfold setState
  exact Function.update_self i k s.code

omit [DecidableEq L] in
theorem setState_code_of_ne (s : Threads ι L σ In G α) {i j : ι} (hj : j ≠ i) (state : σ)
    (k : Code L σ In G α) : (s.setState i state k).code j = s.code j := by
  unfold setState
  exact Function.update_of_ne hj k s.code

omit [DecidableEq L] in
@[simp] theorem setState_setState (s : Threads ι L σ In G α) (i : ι) (state state' : σ)
    (k k' : Code L σ In G α) : (s.setState i state k).setState i state' k' = s.setState i state' k' := by
  unfold setState
  simp only [Function.update_idem]

theorem setLock_erase (s : Threads ι L σ In G α) {i : ι} (l : L) (m : RWLock ι)
    {k : Code L σ In G α} (hk : k.erase = (s.code i).erase) (j : ι) :
    ((s.setLock i l m k).code j).erase = (s.code j).erase := by
  unfold setLock
  by_cases hj : j = i
  · subst hj
    simpa using hk
  · simp [hj]

theorem step_access {start : Op → Code L σ In G α} {s : Threads ι L σ In G α} {i : ι} {g : G}
    {w : In → σ → σ} {k : In → σ → Code L σ In G α} (hc : s.code i = .access g w k) (e : In) :
    step start s (.step i e) = some (s.setState i (w e s.state) (k e s.state)) := by
  simp only [step, advance, hc]

/-- A thread that is granted a shared hold, makes an access and gives the hold back. -/
theorem run_shared {start : Op → Code L σ In G α} {s : Threads ι L σ In G α} {i : ι} {l : L} {g : G}
    {w : In → σ → σ} {k : In → σ → Code L σ In G α} {c : Code L σ In G α} {e : In}
    (hc : s.code i = .lockShared l (.access g w k)) (hl : (s.lock l).exclusive = none)
    (hk : k e s.state = .unlockShared l c) :
    run (step start) s [.step i e, .step i e, .step i e] = some (s.setState i (w e s.state) c) := by
  obtain ⟨m, hm⟩ : ∃ m, (s.lock l).lockShared i = some m := ⟨_, if_pos hl⟩
  have hback := RWLock.unlockShared_of_lockShared hm
  simp only [run_cons, run_nil, step, advance, hc, hm, Option.map_some, Option.bind_some, setLock, setState,
    Function.update_self, hk, Function.update_idem, hback, Function.update_eq_self]

/-- The steps, one rule for each statement. -/
inductive Step (start : Op → Code L σ In G α) (s : Threads ι L σ In G α) :
    Event ι Op In → Threads ι L σ In G α → Prop
  | call {i op a} (hc : s.code i = .ret a) :
      Step start s (.call i op) (s.setState i s.state (start op))
  | lockShared {i e l k m} (hc : s.code i = .lockShared l k)
      (hm : (s.lock l).lockShared i = some m) : Step start s (.step i e) (s.setLock i l m k)
  | unlockShared {i e l k} (hc : s.code i = .unlockShared l k) :
      Step start s (.step i e) (s.setLock i l ((s.lock l).unlockShared i) k)
  | lock {i e l k m} (hc : s.code i = .lock l k)
      (hm : (s.lock l).lock i = some m) : Step start s (.step i e) (s.setLock i l m k)
  | unlock {i e l k} (hc : s.code i = .unlock l k) :
      Step start s (.step i e) (s.setLock i l ((s.lock l).unlock i) k)
  | access {i e g w k} (hc : s.code i = .access g w k) :
      Step start s (.step i e) (s.setState i (w e s.state) (k e s.state))

theorem step_cases {start : Op → Code L σ In G α} {s s' : Threads ι L σ In G α}
    {ev : Event ι Op In} (h : step start s ev = some s') : Step start s ev s' := by
  cases ev with
  | call i op =>
    simp only [step] at h
    split at h
    · next hc => obtain rfl := Option.some.inj h; exact .call hc
    · contradiction
  | step i e =>
    simp only [step, advance] at h
    cases hc : s.code i with
    | ret a => simp [hc] at h
    | lockShared l k =>
      rw [hc] at h
      obtain ⟨m, hm, rfl⟩ := Option.map_eq_some_iff.mp h
      exact .lockShared hc hm
    | unlockShared l k =>
      rw [hc] at h
      obtain rfl := Option.some.inj h
      exact .unlockShared hc
    | lock l k =>
      rw [hc] at h
      obtain ⟨m, hm, rfl⟩ := Option.map_eq_some_iff.mp h
      exact .lock hc hm
    | unlock l k =>
      rw [hc] at h
      obtain rfl := Option.some.inj h
      exact .unlock hc
    | access g w k =>
      rw [hc] at h
      obtain rfl := Option.some.inj h
      exact .access hc

/-! ### Holds -/

omit [DecidableEq L] in
@[simp] theorem holds_init (state : σ) (a : α) (i : ι) :
    (init ι L state a : Threads ι L σ In G α).holds i = fun _ => .free := rfl

theorem holds_setLock {s : Threads ι L σ In G α} {i : ι} {l : L} {m : RWLock ι} {x : Hold}
    {k : Code L σ In G α} (hm : m.hold = Function.update (s.lock l).hold i x) :
    (s.setLock i l m k).holds = Function.update s.holds i (Function.update (s.holds i) l x) := by
  funext j l'
  unfold holds setLock
  by_cases hl : l' = l
  · subst hl
    by_cases hj : j = i
    · subst hj
      simp [hm]
    · simp [hm, hj]
  · by_cases hj : j = i
    · subst hj
      simp [hl]
    · simp [hl, hj]

theorem setLock_holds_of_ne {s : Threads ι L σ In G α} {i : ι} {l l' : L} (hl : l' ≠ l) (m : RWLock ι)
    (k : Code L σ In G α) (j : ι) : (s.setLock i l m k).holds j l' = s.holds j l' := by
  show (Function.update s.lock l m l').hold j = (s.lock l').hold j
  rw [Function.update_of_ne hl]

theorem setLock_others {s : Threads ι L σ In G α} {i j : ι} {l : L} {m : RWLock ι} {x : Hold}
    {k : Code L σ In G α} (hm : m.hold = Function.update (s.lock l).hold i x) (hj : j ≠ i) :
    (s.setLock i l m k).code j = s.code j ∧ (s.setLock i l m k).holds j = s.holds j := by
  constructor
  · unfold setLock
    exact Function.update_of_ne hj k s.code
  · rw [holds_setLock hm, Function.update_of_ne hj]

/-- The thread that makes the step. -/
def Event.thread : Event ι Op In → ι
  | .call i _ | .step i _ => i

/-- A step leaves the code and the holds of all other threads. -/
theorem Step.others {start : Op → Code L σ In G α} {s s' : Threads ι L σ In G α}
    {ev : Event ι Op In} (h : Step start s ev s') {j : ι} (hj : j ≠ ev.thread) :
    s'.code j = s.code j ∧ s'.holds j = s.holds j := by
  cases h with
  | call hc => exact ⟨s.setState_code_of_ne hj _ _, rfl⟩
  | lockShared hc hm => exact setLock_others (RWLock.hold_lockShared hm) hj
  | unlockShared hc => exact setLock_others (RWLock.hold_unlockShared _ _) hj
  | lock hc hm => exact setLock_others (RWLock.hold_lock hm) hj
  | unlock hc => exact setLock_others (RWLock.hold_unlock _ _) hj
  | access hc => exact ⟨s.setState_code_of_ne hj _ _, rfl⟩

/-- A thread that requests exclusively what a thread holds makes no step. -/
theorem thread_ne_of_held {start : Op → Code L σ In G α} {s s' : Threads ι L σ In G α}
    {ev : Event ι Op In} (h : step start s ev = some s') {i j : ι} {l : L} {k : Code L σ In G α}
    (hc : s.code i = .lock l k) (hheld : s.holds j l ≠ .free) : i ≠ ev.thread := by
  rintro rfl
  cases ev with
  | call i op =>
    rw [step, show s.code i = .lock l k from hc] at h
    contradiction
  | step i e =>
    have hnone : (s.lock l).lock i = none := RWLock.lock_eq_none_of_hold hheld
    rw [step, advance, show s.code i = .lock l k from hc] at h
    simp only [hnone, Option.map_none] at h
    contradiction

/-- A thread that requests exclusively what it holds waits for itself. -/
theorem step_waits {start : Op → Code L σ In G α} {s s' : Threads ι L σ In G α}
    {ev : Event ι Op In} (h : step start s ev = some s') {i : ι} {l : L} {k : Code L σ In G α}
    (hc : s.code i = .lock l k) (hheld : s.holds i l ≠ .free) :
    s'.code i = .lock l k ∧ s'.holds i l ≠ .free := by
  have hothers := (step_cases h).others (thread_ne_of_held h hc hheld)
  rw [hothers.1, hothers.2]
  exact ⟨hc, hheld⟩

/-- And it does so forever. -/
theorem waits_of_run {start : Op → Code L σ In G α} {s s' : Threads ι L σ In G α}
    {tr : List (Event ι Op In)} (h : run (step start) s tr = some s') {i : ι} {l : L}
    {k : Code L σ In G α} (hc : s.code i = .lock l k) (hheld : s.holds i l ≠ .free) :
    s'.code i = .lock l k := by
  have hboth : s'.code i = .lock l k ∧ s'.holds i l ≠ .free := by
    refine run_induction (P := fun _ s' => s'.code i = .lock l k ∧ s'.holds i l ≠ .free) ⟨hc, hheld⟩
      ?_ h
    intro tr m ev m' _ ih hstep
    exact step_waits hstep ih.1 ih.2
  exact hboth.1

/-- Everybody's holds and remaining code keep the rules. -/
def Kept (D : Rules L σ In G) (s : Threads ι L σ In G α) : Prop :=
  ∀ i, (s.code i).Keeps D (s.holds i) fun _ h => h = fun _ => .free

/-- A step of thread `i` that leaves the holds of the others keeps the rules if the
new code of `i` keeps them with the new holds of `i`. -/
theorem Kept.update {D : Rules L σ In G} {s s' : Threads ι L σ In G α} {i : ι}
    {k : Code L σ In G α} {h : L → Hold} (hk : s.Kept D)
    (hcode : s'.code = Function.update s.code i k) (hholds : s'.holds = Function.update s.holds i h)
    (hi : k.Keeps D h fun _ h => h = fun _ => .free) : s'.Kept D := by
  intro j
  rw [hcode, hholds]
  by_cases hj : j = i
  · subst hj
    simpa using hi
  · simpa [hj] using hk j

theorem Kept.setState {D : Rules L σ In G} {s : Threads ι L σ In G α} {i : ι} {state : σ}
    {k : Code L σ In G α} (hk : s.Kept D)
    (hi : k.Keeps D (s.holds i) fun _ h => h = fun _ => .free) : (s.setState i state k).Kept D :=
  hk.update rfl (Function.update_eq_self i s.holds).symm hi

/-- The access that an event makes is admitted. -/
def Admits (D : Rules L σ In G) (s : Threads ι L σ In G α) : Event ι Op In → Prop
  | .call _ _ => True
  | .step i e => ∀ g w k, s.code i = .access g w k → D.admits g e s.state

theorem Step.kept {D : Rules L σ In G} {start : Op → Code L σ In G α}
    {s s' : Threads ι L σ In G α} {ev : Event ι Op In} (h : Step start s ev s') (hk : s.Kept D)
    (hstart : ∀ op, (start op).Balanced D) (hok : s.Admits D ev) : s'.Kept D := by
  cases h with
  | @call i op a hc =>
    have hi := hk i
    rw [hc] at hi
    apply hk.setState
    rw [show s.holds i = fun _ => .free from hi]
    exact hstart op
  | @lockShared i e l k m hc hm =>
    have hi := hk i
    rw [hc] at hi
    have hl : (s.lock l).hold i = .free := hi.1
    have hx := RWLock.hold_lockShared hm
    rw [hl] at hx
    exact hk.update rfl (holds_setLock hx) hi.2
  | @unlockShared i e l k hc =>
    have hi := hk i
    rw [hc] at hi
    have hl : (s.lock l).hold i = .reader := hi.1
    have hx := (s.lock l).hold_unlockShared i
    rw [hl] at hx
    exact hk.update rfl (holds_setLock hx) hi.2
  | @lock i e l k m hc hm =>
    have hi := hk i
    rw [hc] at hi
    exact hk.update rfl (holds_setLock (RWLock.hold_lock hm)) hi.2
  | @unlock i e l k hc =>
    have hi := hk i
    rw [hc] at hi
    have hl : (s.lock l).hold i = .writer := hi.1
    have hx := (s.lock l).hold_unlock i
    rw [hl] at hx
    exact hk.update rfl (holds_setLock hx) hi.2
  | @access i e g w k hc =>
    have hi := hk i
    rw [hc] at hi
    exact hk.setState (hi.2 e s.state (hok g w k hc))

/-- In a run whose accesses are all admitted, everybody keeps the rules. -/
theorem kept_of_run {D : Rules L σ In G} {start : Op → Code L σ In G α}
    (hstart : ∀ op, (start op).Balanced D) {state : σ} {a : α} {tr : List (Event ι Op In)}
    {s : Threads ι L σ In G α} (h : run (step start) (init ι L state a) tr = some s)
    (hok : Along (step start) (Admits D) (init ι L state a) tr) : s.Kept D := by
  refine run_along ?_ ?_ h hok
  · intro i
    rfl
  · intro m ev m' hk hadm hstep
    exact (step_cases hstep).kept hk hstart hadm

/-! ### Discipline -/

/-- Outside an operation a thread holds nothing; it requests a lock only while it does
not hold it; and while no other thread is in an operation, the next statement of a
thread, should it be a request or not, is not waited for. -/
structure Disciplined (s : Threads ι L σ In G α) : Prop where
  returned : ∀ i a, s.code i = .ret a → s.holds i = fun _ => .free
  request : ∀ i l k, s.code i = .lock l k ∨ s.code i = .lockShared l k → s.holds i l = .free
  unblocked : ∀ i, (∀ j, j ≠ i → ∃ a, s.code j = .ret a) →
    (∃ a, s.code i = .ret a) ∨ ∀ e, (s.advance i e).isSome

theorem Kept.disciplined {D : Rules L σ In G} {s : Threads ι L σ In G α} (hk : s.Kept D) :
    s.Disciplined := by
  have returned : ∀ i a, s.code i = .ret a → s.holds i = fun _ => .free := by
    intro i a hc
    have hi := hk i
    rw [hc] at hi
    exact hi
  have request : ∀ i l k, s.code i = .lock l k ∨ s.code i = .lockShared l k →
      s.holds i l = .free := by
    intro i l k hc
    have hi := hk i
    rcases hc with hc | hc <;> rw [hc] at hi <;> exact hi.1
  refine ⟨returned, request, ?_⟩
  intro i hothers
  -- the others hold nothing, and the thread does not hold what it requests
  have free : ∀ l k, s.code i = .lock l k ∨ s.code i = .lockShared l k →
      ∀ j, (s.lock l).hold j = .free := by
    intro l k hc j
    by_cases hj : j = i
    · rw [hj]
      exact request i l k hc
    · obtain ⟨a, ha⟩ := hothers j hj
      exact congrFun (returned j a ha) l
  unfold advance
  cases hc : s.code i with
  | ret a => exact .inl ⟨a, rfl⟩
  | lockShared l k =>
    right
    intro e
    rw [Option.isSome_map]
    exact RWLock.lockShared_isSome i (free l k (.inr hc))
  | lock l k =>
    right
    intro e
    rw [Option.isSome_map]
    exact RWLock.lock_isSome i (free l k (.inl hc))
  | unlockShared l k | unlock l k | access g w k => exact .inr fun _ => rfl

/-- While a thread is at an access that its rules guard by an exclusive hold, no other
is at an access guarded by the same lock. -/
theorem Kept.no_race {D : Rules L σ In G} {s : Threads ι L σ In G α} (hk : s.Kept D) {i j : ι}
    (hij : j ≠ i) {g g' : G} {w w' : In → σ → σ} {k k' : In → σ → Code L σ In G α}
    (hi : s.code i = .access g w k) (hj : s.code j = .access g' w' k') {l : L}
    (hg : D.guard g l = .writer) : D.guard g' l = .free := by
  have ki := hk i
  have kj := hk j
  rw [hi] at ki
  rw [hj] at kj
  have hx : ((s.lock l).hold i).exclusive = true := by
    show (s.holds i l).exclusive = true
    rw [ki.1, hg]
    rfl
  rw [← kj.1]
  exact RWLock.hold_of_exclusive hx hij

end Threads

end TikvCpp.Sync
