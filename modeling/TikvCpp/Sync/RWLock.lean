import Mathlib.Data.Multiset.AddSub

/-! A reader-writer lock: one exclusive holder, or any number of shared holds.
Shared holds are counted per thread, so a hold that is never released stays in
sight. A request that is not granted gives nothing, and its thread waits. A lock that
makes shared requests wait for a waiting exclusive one has fewer runs than this: what
is true in every state carries over to it, but who waits for whom does not. -/

namespace TikvCpp.Sync

/-- What one thread holds of one lock. -/
structure Hold where
  exclusive : Bool
  shared : ℕ
  deriving DecidableEq

def Hold.free : Hold := ⟨false, 0⟩

def Hold.reader : Hold := ⟨false, 1⟩

def Hold.writer : Hold := ⟨true, 0⟩

/-- The exclusive holder and the shared holds; they exclude each other. -/
@[ext] structure RWLock (ι : Type*) where
  exclusive : Option ι
  shared : Multiset ι
  exclusion : exclusive ≠ none → shared = 0

namespace RWLock

variable {ι : Type*} [DecidableEq ι]

omit [DecidableEq ι] in
theorem no_readers (o : Option ι) : o ≠ none → (0 : Multiset ι) = 0 := fun _ => rfl

omit [DecidableEq ι] in
theorem no_writer (s : Multiset ι) : (none : Option ι) ≠ none → s = 0 := fun h => absurd rfl h

/-- Held by no one. -/
def unheld (ι : Type*) : RWLock ι := ⟨none, 0, no_readers none⟩

/-- Granted while no one holds the lock. -/
def lock (m : RWLock ι) (i : ι) : Option (RWLock ι) :=
  if m.exclusive = none ∧ m.shared = 0 then some ⟨some i, 0, no_readers (some i)⟩ else none

/-- Granted while no one holds the lock exclusively. -/
def lockShared (m : RWLock ι) (i : ι) : Option (RWLock ι) :=
  if m.exclusive = none then some ⟨none, i ::ₘ m.shared, no_writer _⟩ else none

/-- Gives back the exclusive hold of `i`. -/
def unlock (m : RWLock ι) (i : ι) : RWLock ι :=
  if m.exclusive = some i then ⟨none, m.shared, no_writer _⟩ else m

omit [DecidableEq ι] in
theorem exclusion_of_le {m : RWLock ι} {s : Multiset ι} (hs : s ≤ m.shared) :
    m.exclusive ≠ none → s = 0 := by
  intro h
  rw [m.exclusion h] at hs
  exact Multiset.le_zero.mp hs

/-- Gives back one shared hold of `i`. -/
def unlockShared (m : RWLock ι) (i : ι) : RWLock ι :=
  ⟨m.exclusive, m.shared.erase i, exclusion_of_le (Multiset.erase_le i m.shared)⟩

/-- What thread `i` holds. -/
def hold (m : RWLock ι) (i : ι) : Hold := ⟨decide (m.exclusive = some i), m.shared.count i⟩

@[simp] theorem hold_unheld (i : ι) : (unheld ι).hold i = .free := rfl

/-- Nobody else holds a lock that is held exclusively. -/
theorem hold_of_exclusive {m : RWLock ι} {i j : ι} (h : (m.hold i).exclusive = true) (hj : j ≠ i) :
    m.hold j = .free := by
  have hi : m.exclusive = some i := of_decide_eq_true h
  have hs : m.shared = 0 := by
    apply m.exclusion
    rw [hi]
    exact Option.some_ne_none i
  have hne : m.exclusive ≠ some j := by
    rw [hi]
    intro he
    exact hj (Option.some.inj he).symm
  simp only [hold, hs, Multiset.count_zero, hne, decide_false]
  rfl

/-- A lock that no thread holds is unheld. -/
theorem eq_unheld {m : RWLock ι} (h : ∀ i, m.hold i = .free) : m = unheld ι := by
  apply RWLock.ext
  · cases he : m.exclusive with
    | none => rfl
    | some i =>
      have hi := congrArg Hold.exclusive (h i)
      simp [hold, he, Hold.free] at hi
  · apply Multiset.ext.mpr
    intro i
    have hi : m.shared.count i = 0 := congrArg Hold.shared (h i)
    rw [hi]
    rfl

/-! ### What a request and a release do to the holds -/

/-- Only an unheld lock is granted exclusively. -/
theorem unheld_of_lock {m m' : RWLock ι} {i : ι} (h : m.lock i = some m') : m = unheld ι := by
  unfold lock at h
  split_ifs at h with hm
  exact RWLock.ext hm.1 hm.2

theorem hold_lock {m m' : RWLock ι} {i : ι} (h : m.lock i = some m') :
    m'.hold = Function.update m.hold i .writer := by
  obtain rfl := unheld_of_lock h
  obtain rfl := Option.some.inj h
  funext j
  by_cases hj : j = i
  · subst hj
    simp [hold, Hold.writer]
  · have hij : i ≠ j := Ne.symm hj
    simp [hold, unheld, hj, hij]

theorem hold_lockShared {m m' : RWLock ι} {i : ι} (h : m.lockShared i = some m') :
    m'.hold = Function.update m.hold i ⟨(m.hold i).exclusive, (m.hold i).shared + 1⟩ := by
  unfold lockShared at h
  split_ifs at h with hm
  obtain rfl := Option.some.inj h
  funext j
  by_cases hj : j = i
  · subst hj
    simp [hold, hm]
  · simp [hold, hj, hm]

theorem hold_unlock (m : RWLock ι) (i : ι) :
    (m.unlock i).hold = Function.update m.hold i ⟨false, (m.hold i).shared⟩ := by
  unfold unlock
  funext j
  by_cases hm : m.exclusive = some i
  · by_cases hj : j = i
    · subst hj
      simp [hold, hm]
    · have hij : i ≠ j := Ne.symm hj
      simp [hold, hm, hj, hij]
  · by_cases hj : j = i
    · subst hj
      simp [hold, hm]
    · simp [hm, hj]

theorem hold_unlockShared (m : RWLock ι) (i : ι) :
    (m.unlockShared i).hold =
      Function.update m.hold i ⟨(m.hold i).exclusive, (m.hold i).shared - 1⟩ := by
  unfold unlockShared
  funext j
  by_cases hj : j = i
  · subst hj
    simp [hold]
  · simp [hold, hj]

/-- A shared hold that is given back leaves no trace. -/
theorem unlockShared_of_lockShared {m m' : RWLock ι} {i : ι} (h : m.lockShared i = some m') : m'.unlockShared i = m := by
  unfold lockShared at h
  split_ifs at h with hm
  obtain rfl := Option.some.inj h
  exact RWLock.ext hm.symm (Multiset.erase_cons_head i m.shared)

/-- A request waits for the holds of others only: it is granted while no one holds
what excludes it. -/
theorem lock_isSome {m : RWLock ι} (i : ι) (h : ∀ j, m.hold j = .free) : (m.lock i).isSome := by
  rw [eq_unheld h]
  rfl

theorem lockShared_isSome {m : RWLock ι} (i : ι) (h : ∀ j, m.hold j = .free) :
    (m.lockShared i).isSome := by
  rw [eq_unheld h]
  rfl

/-- A shared request waits for an exclusive hold only. -/
theorem lockShared_isSome_of_shared {m : RWLock ι} (i : ι) (h : ∀ j, (m.hold j).exclusive = false) :
    (m.lockShared i).isSome := by
  have hnone : m.exclusive = none := by
    cases he : m.exclusive with
    | none => rfl
    | some j =>
      have hj := h j
      simp [hold, he] at hj
  unfold lockShared
  rw [if_pos hnone]
  rfl

/-- A lock that a thread holds in any way is granted to nobody exclusively. -/
theorem lock_eq_none_of_hold {m : RWLock ι} {i j : ι} (h : m.hold i ≠ .free) : m.lock j = none := by
  cases hm : m.lock j with
  | none => rfl
  | some m' =>
    rw [unheld_of_lock hm] at h
    exact absurd (hold_unheld i) h

/-- A lock that is not granted exclusively is held. -/
theorem exists_hold_of_lock_eq_none {m : RWLock ι} {i : ι} (h : m.lock i = none) : ∃ j, m.hold j ≠ .free := by
  by_contra hno
  simp only [not_exists, ne_eq, not_not] at hno
  have hgranted := lock_isSome i hno
  rw [h] at hgranted
  contradiction

theorem exists_hold_of_shared {m : RWLock ι} (h : m.shared ≠ 0) : ∃ j, m.hold j ≠ .free := by
  obtain ⟨j, hj⟩ := Multiset.exists_mem_of_ne_zero h
  refine ⟨j, fun hfree => ?_⟩
  have hzero : m.shared.count j = 0 := congrArg Hold.shared hfree
  exact Multiset.count_eq_zero.mp hzero hj

/-- A lock with a shared hold has no exclusive holder. -/
theorem exclusive_of_shared {m : RWLock ι} {i : ι} (h : 0 < (m.hold i).shared) : m.exclusive = none := by
  by_contra he
  have hs : m.shared = 0 := m.exclusion he
  have hi : 0 < m.shared.count i := h
  rw [hs, Multiset.count_zero] at hi
  omega

end RWLock

end TikvCpp.Sync
