import Mathlib.Data.List.Basic
import Mathlib.Data.List.Induction

/-! Runs of a system given by a partial step function: `step s e` is the state
after event `e`, or nothing when `e` is disabled in `s`. The events carry all
nondeterminism, so a run is determined by its first state and its trace, and an
invariant may mention the trace as the history of the state. -/

namespace TikvCpp.Transition

variable {σ ε τ δ : Type*} {step : σ → ε → Option σ} {step' : τ → δ → Option τ}

/-- Execute the events of a trace from left to right. -/
def run (step : σ → ε → Option σ) (s : σ) (tr : List ε) : Option σ := tr.foldlM step s

@[simp] theorem run_nil (s : σ) : run step s [] = some s := rfl

@[simp] theorem run_cons (s : σ) (e : ε) (tr : List ε) :
    run step s (e :: tr) = (step s e).bind fun m => run step m tr := by
  simp [run]

theorem run_append (s : σ) (tr₁ tr₂ : List ε) :
    run step s (tr₁ ++ tr₂) = (run step s tr₁).bind fun m => run step m tr₂ := by
  simp [run]

theorem run_append_eq_some {s s' : σ} {tr₁ tr₂ : List ε} :
    run step s (tr₁ ++ tr₂) = some s' ↔
      ∃ m, run step s tr₁ = some m ∧ run step m tr₂ = some s' := by
  rw [run_append, Option.bind_eq_some_iff]

theorem run_snoc_eq_some {s s' : σ} {tr : List ε} {e : ε} :
    run step s (tr ++ [e]) = some s' ↔ ∃ m, run step s tr = some m ∧ step m e = some s' := by
  simp [run_append_eq_some]

/-- What holds of every event of a history and of the next one. -/
theorem forall_mem_snoc {P : ε → Prop} {tr : List ε} {e : ε} (h : ∀ x ∈ tr, P x) (he : P e) :
    ∀ x ∈ tr ++ [e], P x :=
  List.forall_mem_append.mpr ⟨h, List.forall_mem_singleton.mpr he⟩

/-- A position in a history grown by one event is the new one or an old one. -/
theorem snoc_eq_append_cons {tr pre post : List ε} {e a : ε} (h : tr ++ [e] = pre ++ a :: post) :
    (tr = pre ∧ e = a ∧ post = []) ∨ ∃ post', post = post' ++ [e] ∧ tr = pre ++ a :: post' := by
  rcases List.eq_nil_or_concat' post with rfl | ⟨post', e', rfl⟩
  · obtain ⟨rfl, he⟩ := List.append_inj' h rfl
    exact .inl ⟨rfl, List.singleton_inj.mp he, rfl⟩
  · rw [← List.cons_append, ← List.append_assoc] at h
    obtain ⟨rfl, he⟩ := List.append_inj' h rfl
    exact .inr ⟨post', by rw [List.singleton_inj.mp he], rfl⟩

/-- Two positions in one history are the same, or one comes before the other. -/
theorem append_cons_eq_append_cons {p₁ p₂ q₁ q₂ : List ε} {x y : ε} (h : p₁ ++ x :: p₂ = q₁ ++ y :: q₂) :
    (p₁ = q₁ ∧ x = y ∧ p₂ = q₂) ∨ (∃ m, q₁ = p₁ ++ x :: m ∧ p₂ = m ++ y :: q₂) ∨
      ∃ m, p₁ = q₁ ++ y :: m ∧ q₂ = m ++ x :: p₂ := by
  rcases List.append_eq_append_iff.mp h with ⟨m, hq, hp⟩ | ⟨m, hp, hq⟩
  · rcases List.cons_eq_append_iff.mp hp with ⟨rfl, hm⟩ | ⟨m, rfl, hp₂⟩
    · obtain ⟨hy, hp₂⟩ := List.cons.inj hm
      exact .inl ⟨by rw [hq, List.append_nil], hy.symm, hp₂.symm⟩
    · exact .inr (.inl ⟨m, hq, hp₂⟩)
  · rcases List.cons_eq_append_iff.mp hq with ⟨rfl, hm⟩ | ⟨m, rfl, hq₂⟩
    · obtain ⟨hx, hp₂⟩ := List.cons.inj hm
      exact .inl ⟨by rw [hp, List.append_nil], hx, hp₂⟩
    · exact .inr (.inr ⟨m, hp, hq₂⟩)

/-- The state before and the state after an event of a run. -/
theorem step_of_run {s s' : σ} {pre post : List ε} {e : ε} (h : run step s (pre ++ e :: post) = some s') :
    ∃ m m', run step s pre = some m ∧ step m e = some m' ∧ run step m' post = some s' := by
  obtain ⟨m, hm, hrest⟩ := run_append_eq_some.mp h
  obtain ⟨m', hstep, hpost⟩ := Option.bind_eq_some_iff.mp (run_cons m e post ▸ hrest)
  exact ⟨m, m', hm, hstep, hpost⟩

/-- What holds of the empty history and is kept by every further event holds of
every state a run reaches, together with its history. -/
theorem run_induction {s₀ : σ} {P : List ε → σ → Prop} (nil : P [] s₀)
    (snoc : ∀ tr s e s', run step s₀ tr = some s → P tr s → step s e = some s' → P (tr ++ [e]) s')
    {tr : List ε} {s : σ} (h : run step s₀ tr = some s) : P tr s := by
  induction tr using List.reverseRecOn generalizing s with
  | nil => simpa using (Option.some.inj h) ▸ nil
  | append_singleton tr e ih =>
    obtain ⟨m, hm, he⟩ := run_snoc_eq_some.mp h
    exact snoc tr m e s hm (ih hm) he

/-- Every step of the run from `s` meets `P` in the state before it. -/
def Along (step : σ → ε → Option σ) (P : σ → ε → Prop) : σ → List ε → Prop
  | _, [] => True
  | s, e :: tr => P s e ∧ match step s e with
    | some m => Along step P m tr
    | none => True

instance instDecidableAlong {P : σ → ε → Prop} [∀ s e, Decidable (P s e)] :
    ∀ (s : σ) (tr : List ε), Decidable (Along step P s tr)
  | _, [] => .isTrue trivial
  | s, e :: tr =>
    have : Decidable (match step s e with | some m => Along step P m tr | none => True) :=
      match step s e with
      | some m => instDecidableAlong m tr
      | none => .isTrue trivial
    inferInstanceAs (Decidable (P s e ∧ _))

theorem Along.cons {P : σ → ε → Prop} {s m : σ} {e : ε} {tr : List ε} (he : P s e) (hs : step s e = some m)
    (htr : Along step P m tr) : Along step P s (e :: tr) := by
  refine ⟨he, ?_⟩
  simp only [hs]
  exact htr

theorem Along.single {P : σ → ε → Prop} {s : σ} {e : ε} (he : P s e) : Along step P s [e] := by
  refine ⟨he, ?_⟩
  cases step s e <;> trivial

theorem Along.mono {P Q : σ → ε → Prop} (hPQ : ∀ s e, P s e → Q s e) {s : σ} {tr : List ε}
    (ha : Along step P s tr) : Along step Q s tr := by
  induction tr generalizing s with
  | nil => trivial
  | cons e tr ih =>
    refine ⟨hPQ s e ha.1, ?_⟩
    have htail := ha.2
    cases hs : step s e with
    | none => trivial
    | some m =>
      rw [hs] at htail
      exact ih htail

/-- The steps before a state of the run meet `P`, and so does the step taken there. -/
theorem along_append_cons {P : σ → ε → Prop} {s m : σ} {tr post : List ε} {e : ε} (h : run step s tr = some m)
    (ha : Along step P s (tr ++ e :: post)) : Along step P s tr ∧ P m e := by
  induction tr generalizing s with
  | nil =>
    obtain rfl := Option.some.inj h
    exact ⟨trivial, ha.1⟩
  | cons a tr ih =>
    obtain ⟨m', hm', hrest⟩ := Option.bind_eq_some_iff.mp (run_cons s a tr ▸ h)
    have htail := ha.2
    simp only [hm'] at htail
    have := ih hrest htail
    refine ⟨⟨ha.1, ?_⟩, this.2⟩
    simp only [hm']
    exact this.1

/-- What holds at first and is kept by the steps that meet `P` holds at the end of
every run whose steps all meet `P`. -/
theorem run_along {P : σ → ε → Prop} {I : σ → Prop} {s s' : σ} {tr : List ε} (hs : I s)
    (hstep : ∀ m e m', I m → P m e → step m e = some m' → I m') (h : run step s tr = some s')
    (ha : Along step P s tr) : I s' := by
  revert ha
  refine run_induction (P := fun tr s' => Along step P s tr → I s') (fun _ => hs) ?_ h
  intro tr m e m' hm ih he ha
  have hsnoc := along_append_cons hm ha
  exact hstep m e m' (ih hsnoc.1) hsnoc.2 he

/-- If a step from where `I` holds keeps `I` exactly when it meets `P`, then `I` holds in
every state of a run exactly when every step of the run meets `P`. -/
theorem forall_prefix_iff_along {P : σ → ε → Prop} {I : σ → Prop} {s s' : σ} {tr : List ε} (hs : I s)
    (hstep : ∀ m e m', I m → step m e = some m' → (I m' ↔ P m e)) (h : run step s tr = some s') :
    (∀ l m, l <+: tr → run step s l = some m → I m) ↔ Along step P s tr := by
  induction tr generalizing s with
  | nil =>
    refine iff_of_true (fun l m hl hm => ?_) trivial
    obtain rfl := List.prefix_nil.mp hl
    exact Option.some.inj hm ▸ hs
  | cons e tr ih =>
    obtain ⟨m₁, hm₁, hrest⟩ := Option.bind_eq_some_iff.mp (run_cons s e tr ▸ h)
    have hkeep := hstep s e m₁ hs hm₁
    constructor
    · intro hall
      have hI := hall [e] m₁ ⟨tr, rfl⟩ (by rw [run_cons, hm₁]; rfl)
      refine .cons (hkeep.mp hI) hm₁ ((ih hI hrest).mp fun l m hl hm => ?_)
      exact hall (e :: l) m ((List.prefix_cons_inj e).mpr hl) (by rw [run_cons, hm₁]; exact hm)
    · intro ha l m hl hm
      have htail := ha.2
      rw [hm₁] at htail
      have hI := hkeep.mpr ha.1
      cases l with
      | nil => exact Option.some.inj hm ▸ hs
      | cons e' l =>
        obtain ⟨rfl, hl'⟩ := List.cons_prefix_cons.mp hl
        rw [run_cons, hm₁] at hm
        exact (ih hI hrest).mpr htail l m hl' hm

/-- If each step from where `I` holds keeps `I` and relates the state before it to the
state after it, each run relates its first state to its last. -/
theorem run_rel {I : σ → Prop} {R : σ → σ → Prop} (refl : ∀ s, R s s)
    (trans : ∀ s m s', R s m → R m s' → R s s') (hstep : ∀ m e m', I m → step m e = some m' → I m' ∧ R m m')
    {s s' : σ} {tr : List ε} (hs : I s) (h : run step s tr = some s') : I s' ∧ R s s' := by
  refine run_induction (P := fun _ s' => I s' ∧ R s s') ⟨hs, refl s⟩ ?_ h
  intro tr m e m' _ ih he
  have hm := hstep m e m' ih.1 he
  exact ⟨hm.1, trans s m m' ih.2 hm.2⟩

/-- Forward simulation: if each step is matched by a run of the other system
between related states, so is each run. -/
theorem run_simulation {R : σ → τ → Prop}
    (sim : ∀ s t e s', R s t → step s e = some s' →
      ∃ tr' t', run step' t tr' = some t' ∧ R s' t')
    {s s' : σ} {t : τ} {tr : List ε} (hR : R s t) (h : run step s tr = some s') :
    ∃ tr' t', run step' t tr' = some t' ∧ R s' t' := by
  induction tr generalizing s t with
  | nil => exact ⟨[], t, rfl, (Option.some.inj h) ▸ hR⟩
  | cons e tr ih =>
    obtain ⟨m, hm, hrest⟩ := Option.bind_eq_some_iff.mp (run_cons s e tr ▸ h)
    obtain ⟨tr₁, u, hu, hRu⟩ := sim s t e m hR hm
    obtain ⟨tr₂, t', ht', hR'⟩ := ih hRu hrest
    exact ⟨tr₁ ++ tr₂, t', run_append_eq_some.mpr ⟨u, hu, ht'⟩, hR'⟩

/-- If each event, whatever it is, is possible and does to related states what a function does,
then every trace is a run and does what the function does over the trace. -/
theorem run_foldl {f : σ → δ → σ} {R : σ → τ → Prop}
    (sim : ∀ s t e, R s t → ∃ t', step' t e = some t' ∧ R (f s e) t') {s : σ} {t : τ} (hR : R s t) (tr : List δ) :
    ∃ t', run step' t tr = some t' ∧ R (tr.foldl f s) t' := by
  induction tr generalizing s t with
  | nil => exact ⟨t, rfl, hR⟩
  | cons e tr ih =>
    obtain ⟨u, hu, hRu⟩ := sim s t e hR
    rw [run_cons, hu]
    exact ih hRu

end TikvCpp.Transition
