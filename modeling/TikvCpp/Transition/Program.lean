import Mathlib.Tactic.SplitIfs
import Mathlib.Data.Nat.Notation

/-! Programs that change a state, ask an environment and record what they do. The
environment is a supply of answers; a program that asks for more than is there waits.
`Meets` is the weakest precondition of a program for what holds where it ends and what
holds where it stops, and the rules below follow the statements of a program. -/

namespace TikvCpp.Transition

/-- Why a program stops before its end: it waits for an answer, or what it does next is
undefined. -/
inductive Stop
  | waiting | undefined
  deriving DecidableEq, Repr

/-- A state, the answers still to come and the record of what was done. -/
structure Session (σ ι ε : Type) where
  state : σ
  inputs : ι
  log : List ε := []

abbrev Program (σ ι ε : Type) := EStateM Stop (Session σ ι ε)

namespace Program

variable {σ ι ε α β : Type}

def state : Program σ ι ε σ := fun w => .ok w.state w

def modifyState (f : σ → σ) : Program σ ι ε Unit := fun w => .ok () { w with state := f w.state }

/-- Record an event. -/
def emit (e : ε) : Program σ ι ε Unit := fun w => .ok () { w with log := w.log ++ [e] }

/-- Ask the environment. -/
def ask (take : ι → Option (α × ι)) : Program σ ι ε α := fun w =>
  match take w.inputs with
  | some (a, inputs) => .ok a { w with inputs := inputs }
  | none => .error .waiting w

def stop (e : Stop) : Program σ ι ε α := fun w => .error e w

/-- At most `n` rounds of a loop that tests after its body whether to go on. -/
def doWhile (body : Program σ ι ε Unit) (again : σ → Bool) : ℕ → Program σ ι ε Unit
  | 0 => stop .waiting
  | n + 1 => do
    body
    let s ← state
    if again s then doWhile body again n else pure ()

/-- A loop whose body uses up answers, so that `size` of them bounds its rounds. -/
def loop (size : ι → ℕ) (body : Program σ ι ε Unit) (again : σ → Bool) : Program σ ι ε Unit := fun w =>
  doWhile body again (size w.inputs + 1) w

/-- The program from `w` ends where `Q` holds or stops where `E` holds. -/
def Meets (p : Program σ ι ε α) (Q : α → Session σ ι ε → Prop) (E : Stop → Session σ ι ε → Prop)
    (w : Session σ ι ε) : Prop :=
  match p w with
  | .ok a w' => Q a w'
  | .error e w' => E e w'

variable {p : Program σ ι ε α} {f : α → Program σ ι ε β} {Q Q' : α → Session σ ι ε → Prop}
  {R : β → Session σ ι ε → Prop} {E E' : Stop → Session σ ι ε → Prop} {w : Session σ ι ε}

theorem meets_pure {a : α} : Meets (pure a) Q E w ↔ Q a w := Iff.rfl

theorem meets_bind : Meets (p >>= f) R E w ↔ Meets p (fun a => Meets (f a) R E) E w := by
  unfold Meets
  show (match EStateM.bind p f w with | .ok b w' => R b w' | .error e w' => E e w') ↔ _
  unfold EStateM.bind
  cases p w <;> rfl

theorem meets_state {Q : σ → Session σ ι ε → Prop} : Meets state Q E w ↔ Q w.state w := Iff.rfl

theorem meets_modifyState {g : σ → σ} {Q : Unit → Session σ ι ε → Prop} :
    Meets (modifyState g) Q E w ↔ Q () { w with state := g w.state } := Iff.rfl

theorem meets_emit {e : ε} {Q : Unit → Session σ ι ε → Prop} :
    Meets (emit e) Q E w ↔ Q () { w with log := w.log ++ [e] } := Iff.rfl

theorem meets_stop {e : Stop} : Meets (stop e) Q E w ↔ E e w := Iff.rfl

theorem Meets.ask {take : ι → Option (α × ι)} (hwait : take w.inputs = none → E .waiting w)
    (h : ∀ a inputs, take w.inputs = some (a, inputs) → Q a { w with inputs := inputs }) :
    Meets (ask take) Q E w := by
  unfold Meets Program.ask
  cases htake : take w.inputs with
  | none => exact hwait htake
  | some a => exact h a.1 a.2 htake

theorem Meets.mono (h : Meets p Q E w) (hQ : ∀ a w', Q a w' → Q' a w') (hE : ∀ e w', E e w' → E' e w') :
    Meets p Q' E' w := by
  unfold Meets at *
  cases hp : p w with
  | ok a w' =>
    rw [hp] at h
    exact hQ a w' h
  | error e w' =>
    rw [hp] at h
    exact hE e w' h

/-- A program ends or stops where its run does. -/
theorem Meets.and_run (h : Meets p Q E w) :
    Meets p (fun a w' => Q a w' ∧ p w = .ok a w') (fun e w' => E e w' ∧ p w = .error e w') w := by
  unfold Meets at *
  cases hp : p w with
  | ok a w' =>
    rw [hp] at h
    exact ⟨h, rfl⟩
  | error e w' =>
    rw [hp] at h
    exact ⟨h, rfl⟩

theorem Meets.of_run {a : α} {w' : Session σ ι ε} (hp : p w = .ok a w') (h : Q a w') : Meets p Q E w := by
  unfold Meets
  rw [hp]
  exact h

theorem Meets.of_ok {a : α} {w' : Session σ ι ε} (h : Meets p Q E w) (hp : p w = .ok a w') : Q a w' := by
  unfold Meets at h
  rw [hp] at h
  exact h

/-- A program that stops nowhere ends. -/
theorem Meets.exists_ok (h : Meets p Q (fun _ _ => False) w) : ∃ a w', p w = .ok a w' ∧ Q a w' := by
  unfold Meets at h
  cases hp : p w with
  | ok a w' =>
    rw [hp] at h
    exact ⟨a, w', rfl, h⟩
  | error e w' =>
    rw [hp] at h
    exact h.elim

/-- The rule for loops: each round starts where `I` holds and uses up answers, so the loop
ends. -/
theorem Meets.loop {size : ι → ℕ} {body : Program σ ι ε Unit} {again : σ → Bool} {I : Session σ ι ε → Prop}
    {Q : Unit → Session σ ι ε → Prop} (hbody : ∀ w, I w → Meets body
      (fun _ w' => size w'.inputs < size w.inputs ∧ if again w'.state = true then I w' else Q () w') E w)
    (h : I w) : Meets (loop size body again) Q E w := by
  have hrounds : ∀ n w, I w → size w.inputs < n → Meets (doWhile body again n) Q E w := by
    intro n
    induction n with
    | zero =>
      intro w _ hn
      omega
    | succ n ih =>
      intro w hw hn
      rw [doWhile, meets_bind]
      refine (hbody w hw).mono (fun _ w' hw' => ?_) fun _ _ => id
      obtain ⟨hsize, hw'⟩ := hw'
      rw [meets_bind, meets_state]
      split_ifs at hw' ⊢
      · exact ih w' hw' (by omega)
      · exact hw'
  exact hrounds _ w h (Nat.lt_succ_self _)

theorem Meets.intro (h : ∀ a w', Q a w') (hE : ∀ e w', E e w') : Meets p Q E w := by
  unfold Meets
  cases p w with
  | ok a w' => exact h a w'
  | error e w' => exact hE e w'

/-- From `w` to `m` in `n` rounds of a loop, none of which is the last. -/
inductive Rounds (body : Program σ ι ε Unit) (again : σ → Bool) (w : Session σ ι ε) : ℕ → Session σ ι ε → Prop
  | start : Rounds body again w 0 w
  | round {n : ℕ} {m w' : Session σ ι ε} (h : Rounds body again w n m) (hbody : body m = .ok () w')
      (hagain : again w'.state = true) : Rounds body again w (n + 1) w'

variable {body : Program σ ι ε Unit} {again : σ → Bool} {m w' : Session σ ι ε} {n : ℕ}

theorem doWhile_succ (hbody : body w = .ok () w') (k : ℕ) :
    doWhile body again (k + 1) w = if again w'.state then doWhile body again k w' else .ok () w' := by
  rw [doWhile]
  show EStateM.bind body _ w = _
  unfold EStateM.bind
  rw [hbody]
  show (if again w'.state = true then doWhile body again k else pure ()) w' = _
  split_ifs <;> rfl

theorem Rounds.doWhile_eq (h : Rounds body again w n m) (k : ℕ) :
    doWhile body again (k + n) w = doWhile body again k m := by
  induction h generalizing k with
  | start => rfl
  | round _ hbody hagain ih =>
    rw [Nat.add_succ, ← Nat.succ_add, ih, doWhile_succ hbody, if_pos hagain]

/-- A loop ends with the first round after which it is not to go on. -/
theorem Rounds.loop_eq {size : ι → ℕ} (h : Rounds body again w n m) (hbody : body m = .ok () w')
    (hagain : again w'.state = false) (hn : n ≤ size w.inputs) : loop size body again w = .ok () w' := by
  have hsplit : size w.inputs + 1 = (size w.inputs - n + 1) + n := by omega
  unfold loop
  rw [hsplit, h.doWhile_eq, doWhile_succ hbody, if_neg (by simp [hagain])]

/-! ### Parts of a state -/

section

variable {τ : Type} {get : τ → σ} {set : σ → τ → τ}

/-- A program on a part of the state. -/
def zoom (get : τ → σ) (set : σ → τ → τ) (p : Program σ ι ε α) : Program τ ι ε α := fun w =>
  match p { state := get w.state, inputs := w.inputs, log := w.log } with
  | .ok a w' => .ok a { state := set w'.state w.state, inputs := w'.inputs, log := w'.log }
  | .error e w' => .error e { state := set w'.state w.state, inputs := w'.inputs, log := w'.log }

theorem meets_zoom {w : Session τ ι ε} {Q : α → Session τ ι ε → Prop} {E : Stop → Session τ ι ε → Prop} :
    Meets (zoom get set p) Q E w ↔
      Meets p (fun a w' => Q a { state := set w'.state w.state, inputs := w'.inputs, log := w'.log })
        (fun e w' => E e { state := set w'.state w.state, inputs := w'.inputs, log := w'.log })
        { state := get w.state, inputs := w.inputs, log := w.log } := by
  unfold Meets zoom
  cases p { state := get w.state, inputs := w.inputs, log := w.log } <;> rfl

end

/-! ### Programs on changed inputs -/

section

variable {γ : Type} {f : ι → ι} {g : ε → ε}

/-- A session with its inputs and its record changed. -/
def change (f : ι → ι) (g : ε → ε) (w : Session σ ι ε) : Session σ ι ε :=
  { state := w.state, inputs := f w.inputs, log := w.log.map g }

/-- A result with its value and its session changed. -/
def changeResult (f : ι → ι) (g : ε → ε) (h : α → β) :
    EStateM.Result Stop (Session σ ι ε) α → EStateM.Result Stop (Session σ ι ε) β
  | .ok a w => .ok (h a) (change f g w)
  | .error e w => .error e (change f g w)

/-- On changed inputs `q` does what `p` does, up to the change. -/
def Mirrors (f : ι → ι) (g : ε → ε) (h : α → β) (p : Program σ ι ε α) (q : Program σ ι ε β) : Prop :=
  ∀ w, q (change f g w) = changeResult f g h (p w)

theorem mirrors_pure {h : α → β} (a : α) :
    Mirrors f g h (pure a : Program σ ι ε α) (pure (h a)) := fun _ => rfl

theorem mirrors_stop {h : α → β} (e : Stop) : Mirrors f g h (stop e : Program σ ι ε α) (stop e) := fun _ => rfl

theorem mirrors_state : Mirrors f g id (state : Program σ ι ε σ) state := fun _ => rfl

theorem mirrors_modifyState (k : σ → σ) :
    Mirrors f g id (modifyState k : Program σ ι ε Unit) (modifyState k) := fun _ => rfl

theorem mirrors_emit (e : ε) : Mirrors f g id (emit e : Program σ ι ε Unit) (emit (g e)) := by
  intro w
  simp [emit, change, changeResult]

theorem mirrors_ask {h : α → α} {take : ι → Option (α × ι)}
    (htake : ∀ i, take (f i) = (take i).map (Prod.map h f)) :
    Mirrors f g h (ask take : Program σ ι ε α) (ask take) := by
  intro w
  simp only [ask, change, htake]
  cases take w.inputs <;> rfl

theorem Mirrors.bind {γ' : Type} {h : α → γ} {h' : β → γ'} {q : Program σ ι ε γ} {k : α → Program σ ι ε β}
    {k' : γ → Program σ ι ε γ'} (hp : Mirrors f g h p q) (hk : ∀ a, Mirrors f g h' (k a) (k' (h a))) :
    Mirrors f g h' (p >>= k) (q >>= k') := by
  intro w
  show EStateM.bind q k' (change f g w) = changeResult f g h' (EStateM.bind p k w)
  unfold EStateM.bind
  rw [hp w]
  cases p w with
  | ok a w' => exact hk a w'
  | error e w' => rfl

theorem Mirrors.loop {size : ι → ℕ} (hsize : ∀ i, size (f i) = size i) (hbody : Mirrors f g id body body) :
    Mirrors f g id (loop size body again) (loop size body again) := by
  have hrounds : ∀ n, Mirrors f g id (doWhile body again n) (doWhile body again n) := by
    intro n
    induction n with
    | zero => exact mirrors_stop .waiting
    | succ n ih =>
      rw [doWhile]
      refine hbody.bind fun _ => mirrors_state.bind fun s => ?_
      show Mirrors f g id (if again s = true then _ else _) (if again s = true then _ else _)
      split_ifs
      · exact ih
      · exact mirrors_pure ()
  intro w
  have hlen : size (change f g w).inputs = size w.inputs := hsize w.inputs
  unfold Program.loop
  rw [hlen]
  exact hrounds _ w

end

end Program

end TikvCpp.Transition
