import TikvCpp.Sync.Threads

/-! Code that abandons shared holds of a lock: after some of its accesses it has a hold that no
branch gives back. The holds of a thread are those its code accounts for, which it gives back within a
number of statements, and the abandoned ones. A thread with more than its abandoned holds is not waiting;
these stay for good, and with one the lock is granted exclusively no more. -/

namespace TikvCpp.Sync

open Transition

/-- The same with `n` more shared holds. -/
def Hold.share (h : Hold) (n : ℕ) : Hold := ⟨h.exclusive, h.shared + n⟩

/-- How code treats one lock. -/
structure Policy (L σ G : Type) where
  lock : L
  /-- What an access may do to the state outside an exclusive hold of the lock. -/
  keeps : σ → σ → Prop
  refl : ∀ s, keeps s s
  trans : ∀ {s s' s''}, keeps s s' → keeps s' s'' → keeps s s''
  /-- The accesses after which a shared hold is not given back. -/
  abandons : G → σ → Bool
  /-- The statements within which any other hold is given back. -/
  length : ℕ

namespace Code

variable {L σ In G α β : Type} [DecidableEq L] (D : Policy L σ G)

/-- With `h` of the lock to account for, and `m` statements left until it is given back, the code
changes the state under an exclusive hold only, gives back the shared holds it has taken, save one for
each access that abandons one, and requests a lock or returns with nothing to account for. -/
def Obeys : Code L σ In G α → Hold → ℕ → Prop
  | ret _, h, _ => h = .free
  | lockShared l k, h, _ => h = .free ∧ k.Obeys (if l = D.lock then .reader else .free) D.length
  | unlockShared l k, h, m =>
    (h = .free ∨ 0 < m) ∧ (l = D.lock → 0 < h.shared) ∧
      k.Obeys (if l = D.lock then ⟨h.exclusive, h.shared - 1⟩ else h) (m - 1)
  | lock l k, h, _ => h = .free ∧ k.Obeys (if l = D.lock then .writer else .free) D.length
  | unlock l k, h, m =>
    (h = .free ∨ 0 < m) ∧ (l = D.lock → h.exclusive = true) ∧
      k.Obeys (if l = D.lock then ⟨false, h.shared⟩ else h) (m - 1)
  | access g w k, h, m =>
    (h = .free ∨ 0 < m) ∧ (h.exclusive = false → ∀ e s, D.keeps s (w e s)) ∧ ∀ e s,
      if D.abandons g s then 0 < h.shared ∧ (k e s).Obeys ⟨h.exclusive, h.shared - 1⟩ (m - 1)
      else (k e s).Obeys h (m - 1)

/-- In states where `P` holds the code returns what `Q` allows, unless it comes to request the lock
exclusively, and it does so only once a hold is abandoned; `b` says whether one is. -/
def Ends (P : σ → Prop) (Q : α → Prop) : Code L σ In G α → Bool → Prop
  | ret a, _ => Q a
  | lockShared _ k, b | unlockShared _ k, b | unlock _ k, b => k.Ends P Q b
  | lock l k, b => if l = D.lock then b = true else k.Ends P Q b
  | access g _ k, b => ∀ e s, P s → (k e s).Ends P Q (b || D.abandons g s)

variable {D} {P : σ → Prop}

/-- With nothing to account for, nothing has to be given back in time. -/
theorem Obeys.of_free {c : Code L σ In G α} {m : ℕ} (hc : c.Obeys D .free m) (m' : ℕ) : c.Obeys D .free m' := by
  induction c generalizing m m' with
  | ret a => rfl
  | lockShared l k ih | lock l k ih => exact ⟨rfl, hc.2⟩
  | unlockShared l k ih =>
    obtain ⟨-, hpos, hk⟩ := hc
    refine ⟨.inl rfl, hpos, ?_⟩
    have hl : l ≠ D.lock := fun hl => absurd (hpos hl) (by decide)
    rw [if_neg hl] at hk ⊢
    exact ih hk _
  | unlock l k ih =>
    obtain ⟨-, hx, hk⟩ := hc
    refine ⟨.inl rfl, hx, ?_⟩
    have hfree : (if l = D.lock then ⟨false, Hold.free.shared⟩ else Hold.free : Hold) = .free := by split_ifs <;> rfl
    rw [hfree] at hk ⊢
    exact ih hk _
  | access g w k ih =>
    obtain ⟨-, hw, hk⟩ := hc
    refine ⟨.inl rfl, hw, fun e s => ?_⟩
    have hes := hk e s
    split_ifs at hes ⊢
    · exact absurd hes.1 (by decide)
    · exact ih e s hes _

/-- The rules of calls. -/
theorem Obeys.bind {c : Code L σ In G α} {f : α → Code L σ In G β} {h : Hold} {m : ℕ} (hc : c.Obeys D h m)
    (hf : ∀ a, (f a).Obeys D .free 0) : (c.bind f).Obeys D h m := by
  induction c generalizing h m with
  | ret a =>
    obtain rfl : h = .free := hc
    exact (hf a).of_free m
  | lockShared l k ih | lock l k ih => exact ⟨hc.1, ih hc.2⟩
  | unlockShared l k ih | unlock l k ih => exact ⟨hc.1, hc.2.1, ih hc.2.2⟩
  | access g w k ih =>
    refine ⟨hc.1, hc.2.1, fun e s => ?_⟩
    have hk := hc.2.2 e s
    split_ifs at hk ⊢
    · exact ⟨hk.1, ih e s hk.2⟩
    · exact ih e s hk

theorem obeys_ret (a : α) : (ret a : Code L σ In G α).Obeys D .free 0 := rfl

/-- The rule of accesses that leave the state and abandon nothing. -/
theorem obeys_access {g : G} {w : In → σ → σ} {k : In → σ → Code L σ In G α} (hw : ∀ e s, D.keeps s (w e s))
    (hg : ∀ s, D.abandons g s = false) (hk : ∀ e s, (k e s).Obeys D .free 0) : (access g w k).Obeys D .free 0 := by
  refine ⟨.inl rfl, fun _ => hw, fun e s => ?_⟩
  rw [hg s, if_neg Bool.false_ne_true]
  exact hk e s

/-- The rule of an access under a shared hold: each branch releases the hold first, or it abandons
it where the hold is of the lock. -/
theorem obeys_shared {l : L} {g : G} {w : In → σ → σ} {k : In → σ → Code L σ In G α} (hlength : 1 < D.length)
    (hw : ∀ e s, D.keeps s (w e s))
    (hk : ∀ e s, (D.abandons g s = false ∧ ∃ c, k e s = unlockShared l c ∧ c.Obeys D .free 0) ∨
      D.abandons g s = decide (l = D.lock) ∧ (k e s).Obeys D .free 0) :
    (lockShared l (access g w k)).Obeys D .free 0 := by
  have hpos : 0 < D.length := Nat.zero_lt_of_lt hlength
  have hleft : 0 < D.length - 1 := Nat.sub_pos_of_lt hlength
  by_cases hl : l = D.lock
  · refine ⟨rfl, ?_⟩
    rw [if_pos hl]
    refine ⟨.inr hpos, fun _ => hw, fun e s => ?_⟩
    rcases hk e s with ⟨hg, c, hc, hobeys⟩ | ⟨hg, hobeys⟩
    · rw [hg, hc, if_neg Bool.false_ne_true]
      refine ⟨.inr hleft, fun _ => Nat.one_pos, ?_⟩
      rw [if_pos hl]
      exact hobeys.of_free _
    · rw [hg, if_pos (decide_eq_true hl)]
      exact ⟨Nat.one_pos, hobeys.of_free _⟩
  · refine ⟨rfl, ?_⟩
    rw [if_neg hl]
    refine ⟨.inl rfl, fun _ => hw, fun e s => ?_⟩
    rcases hk e s with ⟨hg, c, hc, hobeys⟩ | ⟨hg, hobeys⟩
    · rw [hg, hc, if_neg Bool.false_ne_true]
      refine ⟨.inl rfl, fun h => absurd h hl, ?_⟩
      rw [if_neg hl]
      exact hobeys.of_free _
    · rw [hg, if_neg (by rw [decide_eq_true_iff]; exact hl)]
      exact hobeys.of_free _

/-- The rule of an access in the scope of an exclusive hold. -/
theorem obeys_scope {l : L} {g : G} {w : In → σ → σ} {c : Code L σ In G α} (hlength : 1 < D.length)
    (hw : l = D.lock ∨ ∀ e s, D.keeps s (w e s)) (hg : ∀ s, D.abandons g s = false) (hc : c.Obeys D .free 0) :
    (lock l (access g w fun _ _ => unlock l c)).Obeys D .free 0 := by
  have hpos : 0 < D.length := Nat.zero_lt_of_lt hlength
  have hleft : 0 < D.length - 1 := Nat.sub_pos_of_lt hlength
  refine ⟨rfl, .inr hpos, fun hx => ?_, fun e s => ?_⟩
  · rcases hw with hl | hw
    · rw [if_pos hl] at hx
      exact absurd hx (by decide)
    · exact hw
  · rw [hg s, if_neg Bool.false_ne_true]
    refine ⟨.inr hleft, fun hl => by rw [if_pos hl]; rfl, ?_⟩
    by_cases hl : l = D.lock
    · rw [if_pos hl, if_pos hl]
      exact hc.of_free _
    · rw [if_neg hl, if_neg hl]
      exact hc.of_free _

theorem Ends.bind {Q : α → Prop} {R : β → Prop} {c : Code L σ In G α} {f : α → Code L σ In G β} {b : Bool}
    (hc : c.Ends D P Q b) (hf : ∀ a b, Q a → (f a).Ends D P R b) : (c.bind f).Ends D P R b := by
  induction c generalizing b with
  | ret a => exact hf a b hc
  | lockShared l k ih | unlockShared l k ih | unlock l k ih => exact ih hc
  | lock l k ih =>
    have hk : if l = D.lock then b = true else k.Ends D P Q b := hc
    show if l = D.lock then b = true else (k.bind f).Ends D P R b
    split_ifs at hk ⊢
    · exact hk
    · exact ih hk
  | access g w k ih => exact fun e s hs => ih e s (hc e s hs)

theorem ends_access {Q : α → Prop} {g : G} {w : In → σ → σ} {k : In → σ → Code L σ In G α} {b : Bool}
    (hk : ∀ e s, P s → (k e s).Ends D P Q (b || D.abandons g s)) : (access g w k).Ends D P Q b := hk

theorem ends_shared {l : L} {Q : α → Prop} {g : G} {w : In → σ → σ} {k : In → σ → Code L σ In G α} {b : Bool}
    (hk : ∀ e s, P s → (k e s).Ends D P Q (b || D.abandons g s)) : (lockShared l (access g w k)).Ends D P Q b := hk

/-- The rule of a scope of another lock. -/
theorem ends_scope {l : L} (hl : l ≠ D.lock) {Q : α → Prop} {g : G} {w : In → σ → σ} {c : Code L σ In G α}
    {b : Bool} (hc : ∀ b, c.Ends D P Q b) : (lock l (access g w fun _ _ => unlock l c)).Ends D P Q b := by
  unfold Ends
  rw [if_neg hl]
  exact fun _ _ _ => hc _

/-- Once a hold is abandoned, code may do what it likes. -/
theorem ends_trivial (c : Code L σ In G α) : c.Ends D P (fun _ => True) true := by
  induction c with
  | ret a => trivial
  | lockShared l k ih | unlockShared l k ih | unlock l k ih => exact ih
  | lock l k ih =>
    unfold Ends
    split_ifs
    · rfl
    · exact ih
  | access g w k ih => exact fun e s _ => ih e s

end Code

namespace Threads

variable {ι L σ In G α Op : Type} {D : Policy L σ G} {kept : ι → ℕ}

/-- The event is an access that abandons a hold. -/
def abandons (D : Policy L σ G) (s : Threads ι L σ In G α) : Event ι Op In → Bool
  | .call _ _ => false
  | .step i _ =>
    match s.code i with
    | .access g _ _ => D.abandons g s.state
    | _ => false

variable [DecidableEq ι]

/-- The abandoned holds of each thread after one more event. -/
def keptAfter (D : Policy L σ G) (s : Threads ι L σ In G α) (kept : ι → ℕ) (ev : Event ι Op In) (j : ι) : ℕ :=
  if j = ev.thread ∧ s.abandons D ev = true then kept j + 1 else kept j

/-- The abandoned holds of each thread after a run. -/
def keptAlong [DecidableEq L] (D : Policy L σ G) (start : Op → Code L σ In G α) :
    Threads ι L σ In G α → (ι → ℕ) → List (Event ι Op In) → ι → ℕ
  | _, kept, [] => kept
  | s, kept, ev :: tr =>
    match step start s ev with
    | some m => keptAlong D start m (s.keptAfter D kept ev) tr
    | none => kept

/-- Thread `j` holds `h`, for which its code accounts within `m` statements, and what it has abandoned. -/
structure Owes [DecidableEq L] (D : Policy L σ G) (kept : ι → ℕ) (s : Threads ι L σ In G α) (j : ι) (h : Hold)
    (m : ℕ) : Prop where
  obeys : (s.code j).Obeys D h m
  holds : s.holds j D.lock = h.share (kept j)
  left : m ≤ D.length

/-- Each thread holds what its code accounts for and what it has abandoned. -/
def Accounted [DecidableEq L] (D : Policy L σ G) (kept : ι → ℕ) (s : Threads ι L σ In G α) : Prop :=
  ∀ j, ∃ h m, s.Owes D kept j h m

theorem kept_le_keptAfter {s : Threads ι L σ In G α} (ev : Event ι Op In) (j : ι) :
    kept j ≤ s.keptAfter D kept ev j := by
  unfold keptAfter
  split_ifs <;> omega

theorem keptAfter_of_not {s : Threads ι L σ In G α} {ev : Event ι Op In} {j : ι}
    (h : j ≠ ev.thread ∨ s.abandons D ev = false) : s.keptAfter D kept ev j = kept j := by
  unfold keptAfter
  apply if_neg
  rintro ⟨rfl, ha⟩
  rcases h with h | h
  · exact h rfl
  · rw [h] at ha
    contradiction

omit [DecidableEq ι] in
theorem not_abandons {s : Threads ι L σ In G α} {i : ι} (h : ∀ g w k, s.code i ≠ .access g w k) (e : In) :
    s.abandons D (.step i e : Event ι Op In) = false := by
  unfold abandons
  cases hc : s.code i with
  | access g w k => exact absurd hc (h g w k)
  | _ => simp only [hc]

/-- An exclusive hold is granted to a thread that holds nothing. -/
theorem free_of_lock {m m' : RWLock ι} {i : ι} (h : m.lock i = some m') : m.hold i = .free := by
  rw [RWLock.unheld_of_lock h]
  rfl

variable [DecidableEq L] {start : Op → Code L σ In G α} {s s' : Threads ι L σ In G α}

/-- What an access does to the account of its thread. -/
theorem Owes.access {i : ι} {h : Hold} {n : ℕ} (ho : s.Owes D kept i h n) (e : In) {g : G} {w : In → σ → σ}
    {k : In → σ → Code L σ In G α} (hc : s.code i = .access g w k) :
    ∃ h', (k e s.state).Obeys D h' (n - 1) ∧
      s.holds i D.lock = h'.share (s.keptAfter D kept (.step i e : Event ι Op In) i) := by
  obtain ⟨hobeys, hholds, -⟩ := ho
  rw [hc] at hobeys
  have hk := hobeys.2.2 e s.state
  have habandons : s.abandons D (.step i e : Event ι Op In) = D.abandons g s.state := by
    unfold abandons
    simp only [hc]
  unfold keptAfter
  rw [habandons]
  split_ifs at hk with hg
  · refine ⟨_, hk.2, ?_⟩
    have hpos := hk.1
    rw [if_pos ⟨rfl, hg⟩, hholds, Hold.share, Hold.share]
    congr 1
    show h.shared + kept i = h.shared - 1 + (kept i + 1)
    omega
  · refine ⟨h, hk, ?_⟩
    rw [if_neg fun h => hg h.2]
    exact hholds

/-- What a lock statement does to the account: on the lock of the policy the hold becomes `x`. -/
theorem Owes.setLock {i : ι} {e : In} {l : L} {m : RWLock ι} {k : Code L σ In G α} {h x h' : Hold} {n n' : ℕ}
    (ho : s.Owes D kept i h n) (hnot : ∀ g w c, s.code i ≠ .access g w c)
    (hm : m.hold = Function.update (s.lock l).hold i x) (hk : k.Obeys D (if l = D.lock then h' else h) n')
    (hx : l = D.lock → (s.lock l).hold i = h.share (kept i) → x = h'.share (kept i)) (hn : n' ≤ D.length) :
    ∃ h, (s.setLock i l m k).Owes D (s.keptAfter D kept (.step i e : Event ι Op In)) i h n' := by
  have hcode : (s.setLock i l m k).code i = k := by
    unfold Threads.setLock
    exact Function.update_self i k s.code
  have hnew : (s.setLock i l m k).holds i = Function.update (s.holds i) l x := by
    rw [holds_setLock hm]
    exact Function.update_self i _ s.holds
  refine ⟨_, by rw [hcode]; exact hk, ?_, hn⟩
  rw [hnew, keptAfter_of_not (.inr (not_abandons hnot e))]
  by_cases hl : l = D.lock
  · subst hl
    rw [if_pos rfl, Function.update_self]
    exact hx rfl ho.holds
  · rw [if_neg hl, Function.update_of_ne (Ne.symm hl)]
    exact ho.holds

/-- A step of a thread that has something to account for leaves it a statement less. -/
theorem Step.owes {ev : Event ι Op In} {x : Hold} {n : ℕ} (h : Step start s ev s') (ho : s.Owes D kept ev.thread x n)
    (hstart : ∀ op, (start op).Obeys D .free 0) :
    ∃ x' n', s'.Owes D (s.keptAfter D kept ev) ev.thread x' n' ∧ (x = .free ∨ n' < n) := by
  have hless : x = .free ∨ 0 < n → x = .free ∨ n - 1 < n := fun h => h.imp_right fun h => Nat.sub_lt h Nat.one_pos
  cases h with
  | @call i op a hc =>
    change s.Owes D kept i x n at ho
    have hobeys := ho.obeys
    rw [hc] at hobeys
    obtain rfl : x = .free := hobeys
    refine ⟨.free, 0, ⟨?_, ?_, Nat.zero_le _⟩, .inl rfl⟩
    · show ((s.setState i s.state (start op)).code i).Obeys D .free 0
      rw [setState_code_self]
      exact hstart op
    · rw [keptAfter_of_not (.inr rfl)]
      exact ho.holds
  | @access i e g w k hc =>
    change s.Owes D kept i x n at ho
    have hobeys := ho.obeys
    rw [hc] at hobeys
    obtain ⟨h', hk, hx⟩ : ∃ h', (k e s.state).Obeys D h' (n - 1) ∧
        s.holds i D.lock = h'.share (s.keptAfter D kept (.step i e : Event ι Op In) i) := ho.access e hc
    refine ⟨h', n - 1, ⟨?_, hx, (Nat.sub_le n 1).trans ho.left⟩, hless hobeys.1⟩
    show ((s.setState i (w e s.state) (k e s.state)).code i).Obeys D h' (n - 1)
    rw [setState_code_self]
    exact hk
  | @lockShared i e l k m hc hm =>
    change s.Owes D kept i x n at ho
    have hobeys := ho.obeys
    have hnot : ∀ g w c, s.code i ≠ .access g w c := by rw [hc]; exact fun _ _ _ => nofun
    rw [hc] at hobeys
    obtain ⟨rfl, hk⟩ := hobeys
    have hx : (s.lock l).hold i = Hold.free.share (kept i) →
        Hold.mk ((s.lock l).hold i).exclusive (((s.lock l).hold i).shared + 1) = Hold.reader.share (kept i) := by
      intro hl
      rw [hl]
      show Hold.mk false (0 + kept i + 1) = Hold.mk false (1 + kept i)
      congr 1
      omega
    obtain ⟨h', hnew⟩ := ho.setLock hnot (RWLock.hold_lockShared hm) hk (fun _ => hx) (Nat.le_refl _)
    exact ⟨h', _, hnew, .inl rfl⟩
  | @unlockShared i e l k hc =>
    change s.Owes D kept i x n at ho
    have hobeys := ho.obeys
    have hnot : ∀ g w c, s.code i ≠ .access g w c := by rw [hc]; exact fun _ _ _ => nofun
    rw [hc] at hobeys
    obtain ⟨hleft, hpos, hk⟩ := hobeys
    have hx : l = D.lock → (s.lock l).hold i = x.share (kept i) →
        Hold.mk ((s.lock l).hold i).exclusive (((s.lock l).hold i).shared - 1) =
          Hold.share ⟨x.exclusive, x.shared - 1⟩ (kept i) := by
      intro hd hl
      rw [hl]
      show Hold.mk x.exclusive (x.shared + kept i - 1) = Hold.mk x.exclusive (x.shared - 1 + kept i)
      rw [Nat.sub_add_comm (hpos hd)]
    obtain ⟨h', hnew⟩ := ho.setLock hnot (RWLock.hold_unlockShared _ i) hk hx ((Nat.sub_le n 1).trans ho.left)
    exact ⟨h', _, hnew, hless hleft⟩
  | @lock i e l k m hc hm =>
    change s.Owes D kept i x n at ho
    have hobeys := ho.obeys
    have hnot : ∀ g w c, s.code i ≠ .access g w c := by rw [hc]; exact fun _ _ _ => nofun
    rw [hc] at hobeys
    obtain ⟨rfl, hk⟩ := hobeys
    -- the lock was granted, so nothing had been abandoned
    have hx : (s.lock l).hold i = Hold.free.share (kept i) → Hold.writer = Hold.writer.share (kept i) := by
      intro hl
      have hfree : Hold.free = Hold.free.share (kept i) := (free_of_lock hm).symm.trans hl
      have hkept : 0 = 0 + kept i := congrArg Hold.shared hfree
      have hzero : kept i = 0 := by omega
      rw [hzero]
      rfl
    obtain ⟨h', hnew⟩ := ho.setLock hnot (RWLock.hold_lock hm) hk (fun _ => hx) (Nat.le_refl _)
    exact ⟨h', _, hnew, .inl rfl⟩
  | @unlock i e l k hc =>
    change s.Owes D kept i x n at ho
    have hobeys := ho.obeys
    have hnot : ∀ g w c, s.code i ≠ .access g w c := by rw [hc]; exact fun _ _ _ => nofun
    rw [hc] at hobeys
    obtain ⟨hleft, -, hk⟩ := hobeys
    have hx : (s.lock l).hold i = x.share (kept i) →
        Hold.mk false ((s.lock l).hold i).shared = Hold.share ⟨false, x.shared⟩ (kept i) := by
      intro hl
      rw [hl]
      rfl
    obtain ⟨h', hnew⟩ := ho.setLock hnot (RWLock.hold_unlock _ i) hk (fun _ => hx) ((Nat.sub_le n 1).trans ho.left)
    exact ⟨h', _, hnew, hless hleft⟩

theorem Step.owes_other {ev : Event ι Op In} {j : ι} {x : Hold} {n : ℕ} (h : Step start s ev s') (hj : j ≠ ev.thread)
    (ho : s.Owes D kept j x n) : s'.Owes D (s.keptAfter D kept ev) j x n := by
  obtain ⟨hcode, hholds⟩ := h.others hj
  refine ⟨by rw [hcode]; exact ho.obeys, ?_, ho.left⟩
  rw [hholds, keptAfter_of_not (.inl hj)]
  exact ho.holds

/-- A step keeps the account. -/
theorem Step.accounted {ev : Event ι Op In} (h : Step start s ev s') (ha : s.Accounted D kept)
    (hstart : ∀ op, (start op).Obeys D .free 0) : s'.Accounted D (s.keptAfter D kept ev) := by
  intro j
  obtain ⟨x, n, ho⟩ := ha j
  by_cases hj : j = ev.thread
  · subst hj
    obtain ⟨x', n', ho', -⟩ := h.owes ho hstart
    exact ⟨x', n', ho'⟩
  · exact ⟨x, n, h.owes_other hj ho⟩

theorem keptAlong_cons {ev : Event ι Op In} (h : step start s ev = some s') (tr : List (Event ι Op In)) :
    keptAlong D start s kept (ev :: tr) = keptAlong D start s' (s.keptAfter D kept ev) tr := by
  simp only [keptAlong, h]

/-- In every run each thread holds what its code accounts for and what it has abandoned. -/
theorem Accounted.run {tr : List (Event ι Op In)} (ha : s.Accounted D kept)
    (h : Transition.run (step start) s tr = some s') (hstart : ∀ op, (start op).Obeys D .free 0) :
    s'.Accounted D (keptAlong D start s kept tr) := by
  induction tr generalizing s kept with
  | nil =>
    obtain rfl := Option.some.inj h
    exact ha
  | cons ev tr ih =>
    obtain ⟨m, hm, hrest⟩ := Option.bind_eq_some_iff.mp (run_cons s ev tr ▸ h)
    rw [keptAlong_cons hm]
    exact ih ((step_cases hm).accounted ha hstart) hrest

theorem keptAlong_append {tr : List (Event ι Op In)} (h : Transition.run (step start) s tr = some s')
    (tr' : List (Event ι Op In)) :
    keptAlong D start s kept (tr ++ tr') = keptAlong D start s' (keptAlong D start s kept tr) tr' := by
  induction tr generalizing s kept with
  | nil =>
    obtain rfl := Option.some.inj h
    rfl
  | cons ev tr ih =>
    obtain ⟨m, hm, hrest⟩ := Option.bind_eq_some_iff.mp (run_cons s ev tr ▸ h)
    rw [List.cons_append, keptAlong_cons hm, keptAlong_cons hm, ih hrest]

theorem accounted_init (state : σ) (a : α) :
    (init ι L state a : Threads ι L σ In G α).Accounted D fun _ => 0 :=
  fun _ => ⟨.free, 0, rfl, rfl, Nat.zero_le _⟩

theorem keptAlong_of_never (hD : ∀ g s, D.abandons g s = false) (s : Threads ι L σ In G α)
    (tr : List (Event ι Op In)) : keptAlong D start s kept tr = kept := by
  induction tr generalizing s with
  | nil => rfl
  | cons ev tr ih =>
    have hnot : s.abandons D ev = false := by
      unfold abandons
      split
      · rfl
      · split
        · exact hD _ _
        · rfl
    have hkept : s.keptAfter D kept ev = kept := by
      funext j
      exact keptAfter_of_not (.inr hnot)
    unfold keptAlong
    rw [hkept]
    cases step start s ev with
    | some m => exact ih m
    | none => rfl

theorem kept_le_keptAlong (s : Threads ι L σ In G α) (tr : List (Event ι Op In)) (j : ι) :
    kept j ≤ keptAlong D start s kept tr j := by
  induction tr generalizing s kept with
  | nil => exact Nat.le_refl _
  | cons ev tr ih =>
    unfold keptAlong
    cases step start s ev with
    | some m => exact (kept_le_keptAfter ev j).trans (ih m)
    | none => exact Nat.le_refl _

/-! ### Threads that do not wait -/

/-- A thread that holds more than it has abandoned is not waiting: its next statement requests no lock. -/
theorem Accounted.goes_on (ha : s.Accounted D kept) {j : ι} (hj : s.holds j D.lock ≠ Hold.free.share (kept j)) :
    (∀ e, (s.advance j e).isSome) ∧ ∀ l k, s.code j ≠ .lockShared l k := by
  obtain ⟨h, n, hobeys, hholds, -⟩ := ha j
  have hne : h ≠ .free := by
    rintro rfl
    exact hj hholds
  unfold advance
  cases hc : s.code j with
  | ret a =>
    rw [hc] at hobeys
    exact absurd hobeys hne
  | lockShared l k | lock l k =>
    rw [hc] at hobeys
    exact absurd hobeys.1 hne
  | unlockShared l k | unlock l k | access g w k => exact ⟨fun _ => rfl, fun _ _ => nofun⟩

/-- And it holds the lock. -/
theorem Accounted.ne_free (ha : s.Accounted D kept) {j : ι} (hj : s.holds j D.lock ≠ Hold.free.share (kept j)) :
    s.holds j D.lock ≠ .free := by
  intro hfree
  obtain ⟨h, n, ho⟩ := ha j
  have hzero : 0 = h.shared + kept j := congrArg Hold.shared (hfree.symm.trans ho.holds)
  have hkept : kept j = 0 := by omega
  rw [hkept] at hj
  exact hj hfree

/-- A thread that requests a lock holds only what it has abandoned. -/
theorem Accounted.holds_of_request (ha : s.Accounted D kept) {i : ι} {l : L} {k : Code L σ In G α}
    (hc : s.code i = .lock l k ∨ s.code i = .lockShared l k) : s.holds i D.lock = Hold.free.share (kept i) := by
  obtain ⟨h, n, hobeys, hholds, -⟩ := ha i
  rcases hc with hc | hc <;>
  · rw [hc] at hobeys
    rw [hholds, hobeys.1]

/-! ### Holds are given back -/

/-- A thread with something to account for has a statement left. -/
theorem Owes.left_pos {i : ι} {x : Hold} {n : ℕ} (ho : s.Owes D kept i x n) (hx : x ≠ .free) : 0 < n := by
  have hobeys := ho.obeys
  cases hc : s.code i with
  | ret a =>
    rw [hc] at hobeys
    exact absurd hobeys hx
  | lockShared l k | lock l k =>
    rw [hc] at hobeys
    exact absurd hobeys.1 hx
  | unlockShared l k | unlock l k | access g w k =>
    rw [hc] at hobeys
    exact hobeys.1.resolve_left hx

/-- A thread that makes as many steps as it has statements left holds, at some point meanwhile, only
what it has abandoned. -/
theorem Owes.released {tr : List (Event ι Op In)} {i : ι} {x : Hold} {n : ℕ} (ho : s.Owes D kept i x n)
    (h : Transition.run (step start) s tr = some s') (hstart : ∀ op, (start op).Obeys D .free 0)
    (hcount : n ≤ (tr.map Event.thread).count i) :
    ∃ pre post m, tr = pre ++ post ∧ Transition.run (step start) s pre = some m ∧
      m.holds i D.lock = Hold.free.share (keptAlong D start s kept pre i) := by
  induction tr generalizing s kept x n with
  | nil =>
    refine ⟨[], [], s, rfl, rfl, ?_⟩
    have hx : x = .free := by
      by_contra hx
      exact absurd hcount (not_le.mpr (ho.left_pos hx))
    rw [ho.holds, hx]
    rfl
  | cons ev tr ih =>
    by_cases hx : x = .free
    · refine ⟨[], ev :: tr, s, rfl, rfl, ?_⟩
      rw [ho.holds, hx]
      rfl
    obtain ⟨m, hm, hrest⟩ := Option.bind_eq_some_iff.mp (run_cons s ev tr ▸ h)
    have hgo : ∀ x' n', m.Owes D (s.keptAfter D kept ev) i x' n' → n' ≤ (tr.map Event.thread).count i →
        ∃ pre post m, ev :: tr = pre ++ post ∧ Transition.run (step start) s pre = some m ∧
          m.holds i D.lock = Hold.free.share (keptAlong D start s kept pre i) := by
      intro x' n' ho' hn'
      obtain ⟨pre, post, m', rfl, hpre, hholds⟩ := ih ho' hrest hn'
      refine ⟨ev :: pre, post, m', rfl, ?_, ?_⟩
      · rw [run_cons, hm]
        exact hpre
      · rw [keptAlong_cons hm]
        exact hholds
    rw [List.map_cons, List.count_cons] at hcount
    by_cases hi : ev.thread = i
    · subst hi
      obtain ⟨x', n', ho', hless⟩ := (step_cases hm).owes ho hstart
      have hlt := hless.resolve_left hx
      rw [beq_self_eq_true, if_pos rfl] at hcount
      exact hgo x' n' ho' (by omega)
    · rw [if_neg (by simpa using hi)] at hcount
      exact hgo x n ((step_cases hm).owes_other (Ne.symm hi) ho) hcount

/-! ### The lock is closed -/

theorem Accounted.shared_pos (ha : s.Accounted D kept) {i : ι} (hi : 0 < kept i) :
    0 < ((s.lock D.lock).hold i).shared := by
  obtain ⟨h, n, ho⟩ := ha i
  show 0 < (s.holds i D.lock).shared
  rw [ho.holds]
  show 0 < h.shared + kept i
  omega

/-- Nobody has the lock exclusively or will: the code of each thread requests it only once a hold
is abandoned. -/
structure Closed (D : Policy L σ G) (P : σ → Prop) (Q : ι → α → Prop) (kept : ι → ℕ)
    (s : Threads ι L σ In G α) : Prop where
  accounted : s.Accounted D kept
  during : P s.state
  exclusive : (s.lock D.lock).exclusive = none
  ends : ∀ j, ∃ b, (s.code j).Ends D P (Q j) b ∧ (b = true → ∃ i, 0 < kept i)

variable {P : σ → Prop} {Q : ι → α → Prop}

theorem Closed.not_granted (hs : s.Closed D P Q kept) {j : ι} {k : Code L σ In G α} (hc : s.code j = .lock D.lock k)
    (j' : ι) : (s.lock D.lock).lock j' = none := by
  obtain ⟨b, hends, hb⟩ := hs.ends j
  rw [hc, Code.Ends, if_pos rfl] at hends
  obtain ⟨i, hi⟩ := hb hends
  have hpos := hs.accounted.shared_pos hi
  apply RWLock.lock_eq_none_of_hold (i := i)
  intro hfree
  rw [hfree] at hpos
  exact absurd hpos (Nat.lt_irrefl 0)

theorem Closed.keeps (hs : s.Closed D P Q kept) {ev : Event ι Op In} (h : Step start s ev s') :
    D.keeps s.state s'.state := by
  cases h with
  | @access i e g w k hc =>
    obtain ⟨h, n, hobeys, hholds, -⟩ := hs.accounted i
    rw [hc] at hobeys
    apply hobeys.2.1
    show (h.share (kept i)).exclusive = false
    rw [← hholds]
    show decide ((s.lock D.lock).exclusive = some i) = false
    rw [hs.exclusive]
    rfl
  | _ => exact D.refl s.state

theorem setLock_exclusive {i : ι} {l l' : L} {m : RWLock ι} {k : Code L σ In G α} (hl : (s.lock l').exclusive = none)
    (hm : l = l' → m.exclusive = none) : ((s.setLock i l m k).lock l').exclusive = none := by
  show (Function.update s.lock l m l').exclusive = none
  by_cases h : l = l'
  · subst h
    rw [Function.update_self]
    exact hm rfl
  · rw [Function.update_of_ne (Ne.symm h)]
    exact hl

theorem Closed.exclusive_step (hs : s.Closed D P Q kept) {ev : Event ι Op In} (h : Step start s ev s') :
    (s'.lock D.lock).exclusive = none := by
  cases h with
  | call hc | access hc => exact hs.exclusive
  | @lockShared i e l k m hc hm =>
    refine setLock_exclusive hs.exclusive fun _ => ?_
    unfold RWLock.lockShared at hm
    split_ifs at hm
    rw [← Option.some.inj hm]
  | @unlockShared i e l k hc =>
    refine setLock_exclusive hs.exclusive ?_
    rintro rfl
    exact hs.exclusive
  | @lock i e l k m hc hm =>
    refine setLock_exclusive hs.exclusive ?_
    rintro rfl
    rw [hs.not_granted hc] at hm
    contradiction
  | @unlock i e l k hc =>
    refine setLock_exclusive hs.exclusive ?_
    rintro rfl
    unfold RWLock.unlock
    split_ifs
    · rfl
    · exact hs.exclusive

/-- What is left of the code of a thread after a statement of its own. -/
theorem Closed.ends_step (hs : s.Closed D P Q kept) {ev : Event ι Op In} (h : Step start s ev s')
    (hcall : ∀ j op, ev = .call j op → ∃ b, (start op).Ends D P (Q j) b ∧ (b = true → ∃ i, 0 < kept i))
    (j : ι) : ∃ b, (s'.code j).Ends D P (Q j) b ∧ (b = true → ∃ i, 0 < s.keptAfter D kept ev i) := by
  have hmore : (∃ i, 0 < kept i) → ∃ i, 0 < s.keptAfter D kept ev i := by
    rintro ⟨i, hi⟩
    exact ⟨i, Nat.lt_of_lt_of_le hi (kept_le_keptAfter ev i)⟩
  by_cases hj : j = ev.thread
  · subst hj
    obtain ⟨b, hends, hb⟩ := hs.ends ev.thread
    have hlock : ∀ l m k, k.Ends D P (Q ev.thread) b → ∃ b, ((s.setLock ev.thread l m k).code ev.thread).Ends D P
        (Q ev.thread) b ∧ (b = true → ∃ i, 0 < s.keptAfter D kept ev i) := by
      intro l m k hk
      refine ⟨b, ?_, fun h => hmore (hb h)⟩
      show (Function.update s.code ev.thread k ev.thread).Ends D P (Q ev.thread) b
      rw [Function.update_self]
      exact hk
    cases h with
    | @call i op a hc =>
      obtain ⟨b', hends', hb'⟩ := hcall i op rfl
      refine ⟨b', ?_, fun h => hmore (hb' h)⟩
      show ((s.setState i s.state (start op)).code i).Ends D P (Q i) b'
      rw [setState_code_self]
      exact hends'
    | @access i e g w k hc =>
      change (s.code i).Ends D P (Q i) b at hends
      rw [hc] at hends
      refine ⟨b || D.abandons g s.state, ?_, ?_⟩
      · show ((s.setState i (w e s.state) (k e s.state)).code i).Ends D P (Q i) _
        rw [setState_code_self]
        exact hends e s.state hs.during
      · intro h
        rcases Bool.or_eq_true_iff.mp h with h | h
        · exact hmore (hb h)
        · have habandons : s.abandons D (.step i e : Event ι Op In) = true := by
            unfold abandons
            simp only [hc, h]
          refine ⟨i, ?_⟩
          unfold keptAfter
          rw [if_pos ⟨rfl, habandons⟩]
          omega
    | @lockShared i e l k m hc hm =>
      change (s.code i).Ends D P (Q i) b at hends
      rw [hc] at hends
      exact hlock _ _ _ hends
    | @unlockShared i e l k hc =>
      change (s.code i).Ends D P (Q i) b at hends
      rw [hc] at hends
      exact hlock _ _ _ hends
    | @unlock i e l k hc =>
      change (s.code i).Ends D P (Q i) b at hends
      rw [hc] at hends
      exact hlock _ _ _ hends
    | @lock i e l k m hc hm =>
      change (s.code i).Ends D P (Q i) b at hends
      have hl : l ≠ D.lock := by
        rintro rfl
        rw [hs.not_granted hc] at hm
        contradiction
      rw [hc, Code.Ends, if_neg hl] at hends
      exact hlock _ _ _ hends
  · obtain ⟨b, hends, hb⟩ := hs.ends j
    rw [(h.others hj).1]
    exact ⟨b, hends, fun h => hmore (hb h)⟩

theorem Closed.step (hs : s.Closed D P Q kept) {ev : Event ι Op In} (h : Step start s ev s')
    (hstart : ∀ op, (start op).Obeys D .free 0) (hP : ∀ s s', P s → D.keeps s s' → P s')
    (hcall : ∀ j op, ev = .call j op → ∃ b, (start op).Ends D P (Q j) b ∧ (b = true → ∃ i, 0 < kept i)) :
    s'.Closed D P Q (s.keptAfter D kept ev) :=
  ⟨h.accounted hs.accounted hstart, hP _ _ hs.during (hs.keeps h), hs.exclusive_step h, hs.ends_step h hcall⟩

/-- A thread that waits for the lock goes on waiting. -/
theorem Closed.waits (hs : s.Closed D P Q kept) {ev : Event ι Op In} (h : Step start s ev s') {j : ι}
    {k : Code L σ In G α} (hc : s.code j = .lock D.lock k) : s'.code j = .lock D.lock k := by
  have hj : j ≠ ev.thread := by
    rintro rfl
    cases h with
    | call hc' | lockShared hc' | unlockShared hc' | unlock hc' | access hc' => exact absurd (hc.symm.trans hc') nofun
    | @lock i e l k' m hc' hm =>
      obtain ⟨rfl, -⟩ := Code.lock.inj (hc.symm.trans hc')
      rw [hs.not_granted hc] at hm
      contradiction
  rw [(h.others hj).1]
  exact hc

/-- From a closed state on, the state changes only as the accesses outside exclusive holds may change
it, who waits for the lock goes on waiting, and what has been called returns what it may. -/
theorem Closed.run {tr : List (Event ι Op In)} (hs : s.Closed D P Q kept)
    (h : Transition.run (Threads.step start) s tr = some s') (hstart : ∀ op, (start op).Obeys D .free 0)
    (hP : ∀ s s', P s → D.keeps s s' → P s')
    (hcall : ∀ j op, .call j op ∈ tr → ∃ b, (start op).Ends D P (Q j) b ∧ (b = true → ∃ i, 0 < kept i)) :
    s'.Closed D P Q (keptAlong D start s kept tr) ∧ D.keeps s.state s'.state ∧
      ∀ j k, s.code j = .lock D.lock k → s'.code j = .lock D.lock k := by
  induction tr generalizing s kept with
  | nil =>
    obtain rfl := Option.some.inj h
    exact ⟨hs, D.refl s.state, fun _ _ hc => hc⟩
  | cons ev tr ih =>
    obtain ⟨m, hm, hrest⟩ := Option.bind_eq_some_iff.mp (run_cons s ev tr ▸ h)
    have hstep := step_cases hm
    have hs' := hs.step hstep hstart hP fun j op hev => hcall j op (hev ▸ List.mem_cons_self)
    have hlater : ∀ j op, .call j op ∈ tr →
        ∃ b, (start op).Ends D P (Q j) b ∧ (b = true → ∃ i, 0 < s.keptAfter D kept ev i) := by
      intro j op hmem
      obtain ⟨b, hends, hb⟩ := hcall j op (List.mem_cons_of_mem ev hmem)
      refine ⟨b, hends, fun h => ?_⟩
      obtain ⟨i, hi⟩ := hb h
      exact ⟨i, Nat.lt_of_lt_of_le hi (kept_le_keptAfter ev i)⟩
    obtain ⟨hclosed, hkeeps, hwaits⟩ := ih hs' hrest hlater
    unfold keptAlong
    simp only [hm]
    exact ⟨hclosed, D.trans (hs.keeps hstep) hkeeps, fun j k hc => hwaits j k (hs.waits hstep hc)⟩

/-- Once a hold is abandoned, closed states stay closed whatever is called. -/
theorem Closed.run_abandoned {tr : List (Event ι Op In)} (hs : s.Closed D P (fun _ _ => True) kept) {i : ι}
    (hi : 0 < kept i) (h : Transition.run (Threads.step start) s tr = some s') (hstart : ∀ op, (start op).Obeys D .free 0)
    (hP : ∀ s s', P s → D.keeps s s' → P s') :
    ∃ kept', 0 < kept' i ∧ s'.Closed D P (fun _ _ => True) kept' ∧
      ∀ j k, s.code j = .lock D.lock k → s'.code j = .lock D.lock k := by
  obtain ⟨hclosed, -, hwaits⟩ :=
    hs.run h hstart hP fun j op _ => ⟨true, Code.ends_trivial (start op), fun _ => ⟨i, hi⟩⟩
  exact ⟨_, Nat.lt_of_lt_of_le hi (kept_le_keptAlong s tr i), hclosed, hwaits⟩

/-- What a call begun after that may return. -/
theorem Closed.returns {tr : List (Event ι Op In)} (hs : s.Closed D P (fun _ _ => True) kept) {i j : ι} (hi : 0 < kept i)
    {op : Op} (h : Transition.run (Threads.step start) s (.call j op :: tr) = some s')
    (hstart : ∀ op, (start op).Obeys D .free 0) (hP : ∀ s s', P s → D.keeps s s' → P s') {R : α → Prop}
    (hR : ∀ op, (start op).Ends D P R true) {a : α} (hc : s'.code j = .ret a) : R a := by
  obtain ⟨m, hm, hrest⟩ := Option.bind_eq_some_iff.mp (run_cons s _ tr ▸ h)
  have hi' := Nat.lt_of_lt_of_le hi (kept_le_keptAfter (s := s) (D := D) (.call j op : Event ι Op In) i)
  have hm' := hs.step (step_cases hm) hstart hP fun _ op _ => ⟨true, Code.ends_trivial (start op), fun _ => ⟨i, hi⟩⟩
  generalize s.keptAfter D kept (.call j op : Event ι Op In) = kept at hi' hm'
  -- from here on thread `j` is held to `R`
  obtain ⟨Q, hQj, hQ⟩ : ∃ Q : ι → α → Prop, Q j = R ∧ ∀ j', j' ≠ j → Q j' = fun _ => True :=
    ⟨fun j' => if j' = j then R else fun _ => True, if_pos rfl, fun _ hj => if_neg hj⟩
  have hcode : m.code j = start op := by
    cases step_cases hm
    exact setState_code_self ..
  have hends : ∀ j' (c : Code L σ In G α), (j' = j → c.Ends D P R true) →
      ∃ b, c.Ends D P (Q j') b ∧ (b = true → ∃ i, 0 < kept i) := by
    intro j' c hc
    refine ⟨true, ?_, fun _ => ⟨i, hi'⟩⟩
    by_cases hj : j' = j
    · rw [hj, hQj]
      exact hc hj
    · rw [hQ j' hj]
      exact Code.ends_trivial c
  have hQs : m.Closed D P Q kept := by
    refine { hm' with ends := fun j' => hends j' _ ?_ }
    rintro rfl
    rw [hcode]
    exact hR op
  obtain ⟨hclosed, -, -⟩ := hQs.run hrest hstart hP fun j' op _ => hends j' _ fun _ => hR op
  obtain ⟨b, hret, -⟩ := hclosed.ends j
  rw [hc, hQj] at hret
  exact hret

/-- With an abandoned hold the lock is closed. -/
theorem Accounted.closed_of_kept (ha : s.Accounted D kept) {i : ι} (hi : 0 < kept i) (hP : P s.state) :
    s.Closed D P (fun _ _ => True) kept :=
  ⟨ha, hP, RWLock.exclusive_of_shared (ha.shared_pos hi), fun _ => ⟨true, Code.ends_trivial _, fun _ => ⟨i, hi⟩⟩⟩

/-- The step that abandons a hold closes the lock. -/
theorem Accounted.closed (ha : s.Accounted D kept) {ev : Event ι Op In} (hab : s.abandons D ev = true)
    (h : Step start s ev s') (hstart : ∀ op, (start op).Obeys D .free 0) :
    ∃ kept', 0 < kept' ev.thread ∧ s'.Closed D (D.keeps s.state) (fun _ _ => True) kept' := by
  have ha' := h.accounted ha hstart
  have hpos : 0 < s.keptAfter D kept ev ev.thread := by
    unfold keptAfter
    rw [if_pos ⟨rfl, hab⟩]
    omega
  refine ⟨_, hpos, ha'.closed_of_kept hpos ?_⟩
  cases h with
  | @access i e g w k hc =>
    obtain ⟨x, n, hobeys, hholds, -⟩ := ha i
    rw [hc] at hobeys
    have hg : D.abandons g s.state = true := by
      unfold abandons at hab
      simpa only [hc] using hab
    -- it has a shared hold to abandon, so nobody has an exclusive one
    have hshared := hobeys.2.2 e s.state
    rw [if_pos hg] at hshared
    apply hobeys.2.1
    have hone : 0 < ((s.lock D.lock).hold i).shared := by
      show 0 < (s.holds i D.lock).shared
      rw [hholds]
      exact Nat.lt_of_lt_of_le hshared.1 (Nat.le_add_right _ _)
    have hexclusive : (s.holds i D.lock).exclusive = false := by
      show decide ((s.lock D.lock).exclusive = some i) = false
      rw [RWLock.exclusive_of_shared hone]
      rfl
    rw [hholds] at hexclusive
    exact hexclusive
  | _ => exact D.refl s.state

end Threads

end TikvCpp.Sync
