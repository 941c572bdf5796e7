import ServoPulse.Width

/-!
# Computations that may trap

Times, counts and pin numbers have a fixed width. What happens when a result
leaves its width depends on how the program was built:

* in the `debug` profile the operation **traps**, and assertions are checked;
* in the `release` profile the result wraps around, and assertions are skipped.

Two kinds of computation run under a profile. A `Checked` value reads nothing but
its arguments and may trap. An `Action σ` also has a state `σ`; when it traps, the
state stays as it stood at that moment, so whoever goes on afterwards sees the
half-done operation. `Action.zoom` runs an action on a part of a larger state.

The equations `Action.run_*` compute an action step by step, and
`Action.run_bind_eq_ok_iff` takes a successful run of a sequence apart.
-/

namespace ServoPulse

/-- How a result beyond its width is treated. -/
inductive Profile where
  /-- Leaving the width traps, and assertions are checked. -/
  | debug
  /-- Leaving the width wraps around, and assertions are skipped. -/
  | release
  deriving DecidableEq

/-- What can end an operation early in the `debug` profile. -/
inductive Trap where
  /-- Servo `servo` was named while only `configured` channels exist. -/
  | servoOutOfRange (servo configured : Nat)
  /-- A pin bank was built from more outputs than its level mask has bits. -/
  | bankTooLarge
  | addOverflow
  | subOverflow
  | mulOverflow
  deriving DecidableEq

/-- The text reported for a trap. -/
def Trap.message : Trap → String
  | servoOutOfRange servo configured =>
    s!"servo {servo} out of range ({configured} configured)"
  | bankTooLarge => "pin bank is limited to 32 outputs"
  | addOverflow => "attempt to add with overflow"
  | subOverflow => "attempt to subtract with overflow"
  | mulOverflow => "attempt to multiply with overflow"

/-! ### Values that may trap -/

/-- A value computed under a profile, or a trap. -/
abbrev Checked : Type → Type := ReaderT Profile (Except Trap)

namespace Checked

/-- The outcome of `x` under the profile `p`. -/
def run {α : Type} (x : Checked α) (p : Profile) : Except Trap α := x p

/-- The number `n` in the width `w`: beyond it it traps, or keeps its low bits. -/
def fit (w : Width) (trap : Trap) (n : Nat) : Checked Nat
  | .debug => if n < w.size then .ok n else .error trap
  | .release => .ok (n % w.size)

/-- The sum of two numbers of the width `w`. -/
def add (w : Width) (a b : Nat) : Checked Nat := fit w .addOverflow (a + b)

/-- The product of two numbers of the width `w`. -/
def mul (w : Width) (a b : Nat) : Checked Nat := fit w .mulOverflow (a * b)

/-- The difference of two numbers of the width `w`; below zero it traps, or counts
down from the top. -/
def sub (w : Width) (a b : Nat) : Checked Nat
  | .debug => if b ≤ a then .ok (a - b) else .error .subOverflow
  | .release => .ok ((a + w.size - b) % w.size)

/-- A condition that the `debug` profile checks and the `release` profile trusts. -/
def require (cond : Bool) (trap : Trap) : Checked Unit
  | .debug => if cond then .ok () else .error trap
  | .release => .ok ()

variable {α β : Type}

@[simp] theorem run_pure (a : α) (p : Profile) : run (pure a) p = .ok a := rfl

@[simp] theorem run_bind (x : Checked α) (f : α → Checked β) (p : Profile) :
    run (x >>= f) p = match run x p with
      | .ok a => run (f a) p
      | .error t => .error t := by
  change (x p >>= fun a => f a p) = match x p with
    | .ok a => f a p
    | .error t => .error t
  cases x p <;> rfl

@[simp] theorem run_map (f : α → β) (x : Checked α) (p : Profile) :
    run (f <$> x) p = match run x p with
      | .ok a => .ok (f a)
      | .error t => .error t := by
  change f <$> x p = match x p with
    | .ok a => .ok (f a)
    | .error t => .error t
  cases x p <;> rfl

/-- A result within its width is the same under both profiles. -/
theorem run_fit_of_lt {w : Width} {n : Nat} (h : n < w.size) (trap : Trap) (p : Profile) :
    run (fit w trap n) p = .ok n := by
  cases p <;> simp [run, fit, h, Nat.mod_eq_of_lt h]

theorem run_add_of_lt {w : Width} {a b : Nat} (h : a + b < w.size) (p : Profile) :
    run (add w a b) p = .ok (a + b) :=
  run_fit_of_lt h _ p

theorem run_mul_of_lt {w : Width} {a b : Nat} (h : a * b < w.size) (p : Profile) :
    run (mul w a b) p = .ok (a * b) :=
  run_fit_of_lt h _ p

theorem run_sub_of_le {w : Width} {a b : Nat} (hb : b ≤ a) (ha : a < w.size) (p : Profile) :
    run (sub w a b) p = .ok (a - b) := by
  cases p with
  | debug => simp [run, sub, hb]
  | release =>
    have h : (a + w.size - b) % w.size = a - b := by
      rw [show a + w.size - b = a - b + w.size by omega, Nat.add_mod_right,
        Nat.mod_eq_of_lt (by omega)]
    simp [run, sub, h]

end Checked

/-! ### Actions on a state -/

/-- A computation on a state `σ` under a profile. A trap leaves the state as it
stood when the trap arose. -/
abbrev Action (σ : Type) : Type → Type := ReaderT Profile (EStateM Trap σ)

namespace Action

variable {σ τ α β : Type}

/-- The outcome of `x` under the profile `p` from the state `s`. -/
def run (x : Action σ α) (p : Profile) (s : σ) : EStateM.Result Trap σ α := x p s

/-- A checked value, as an action that leaves the state alone. -/
def ofChecked (x : Checked α) : Action σ α := fun p s =>
  match x p with
  | .ok a => .ok a s
  | .error t => .error t s

instance : MonadLift Checked (Action σ) := ⟨ofChecked⟩

/-- Runs `x` on the part of the state that `part` reads and `put` writes back, also
when `x` traps. -/
def zoom (part : σ → τ) (put : τ → σ → σ) (x : Action τ α) : Action σ α := fun p s =>
  match x p (part s) with
  | .ok a t => .ok a (put t s)
  | .error e t => .error e (put t s)

/-- Runs `x` until it answers `false`, at most `fuel` times. -/
def repeatWhile (x : Action σ Bool) : (fuel : Nat) → Action σ Unit
  | 0 => pure ()
  | fuel + 1 => do if ← x then repeatWhile x fuel

@[simp] theorem run_pure (a : α) (p : Profile) (s : σ) :
    run (pure a) p s = .ok a s := rfl

@[simp] theorem run_bind (x : Action σ α) (f : α → Action σ β) (p : Profile) (s : σ) :
    run (x >>= f) p s = match run x p s with
      | .ok a s' => run (f a) p s'
      | .error t s' => .error t s' := by
  change EStateM.bind (x p) (fun a => f a p) s = match x p s with
    | .ok a s' => f a p s'
    | .error t s' => .error t s'
  unfold EStateM.bind
  cases x p s <;> rfl

@[simp] theorem run_map (f : α → β) (x : Action σ α) (p : Profile) (s : σ) :
    run (f <$> x) p s = match run x p s with
      | .ok a s' => .ok (f a) s'
      | .error t s' => .error t s' := by
  change EStateM.map f (x p) s = match x p s with
    | .ok a s' => .ok (f a) s'
    | .error t s' => .error t s'
  unfold EStateM.map
  cases x p s <;> rfl

@[simp] theorem run_get (p : Profile) (s : σ) :
    run (get : Action σ σ) p s = .ok s s := rfl

@[simp] theorem run_set (s' : σ) (p : Profile) (s : σ) :
    run (set s' : Action σ PUnit) p s = .ok ⟨⟩ s' := rfl

@[simp] theorem run_modify (f : σ → σ) (p : Profile) (s : σ) :
    run (modify f : Action σ PUnit) p s = .ok ⟨⟩ (f s) := rfl

@[simp] theorem run_modifyGet (f : σ → α × σ) (p : Profile) (s : σ) :
    run (modifyGet f : Action σ α) p s = .ok (f s).1 (f s).2 := rfl

@[simp] theorem run_ite (c : Prop) [Decidable c] (x y : Action σ α) (p : Profile) (s : σ) :
    run (if c then x else y) p s = if c then run x p s else run y p s := by
  split <;> rfl

@[simp] theorem run_ofChecked (x : Checked α) (p : Profile) (s : σ) :
    run (ofChecked x) p s = match Checked.run x p with
      | .ok a => .ok a s
      | .error t => .error t s := rfl

@[simp] theorem run_liftM (x : Checked α) (p : Profile) (s : σ) :
    run (liftM x : Action σ α) p s = match Checked.run x p with
      | .ok a => .ok a s
      | .error t => .error t s := rfl

@[simp] theorem run_zoom (part : σ → τ) (put : τ → σ → σ) (x : Action τ α)
    (p : Profile) (s : σ) :
    run (zoom part put x) p s = match run x p (part s) with
      | .ok a t => .ok a (put t s)
      | .error e t => .error e (put t s) := rfl

/-- A sequence succeeds exactly when both its parts do, the second from where the
first ended. -/
theorem run_bind_eq_ok_iff {x : Action σ α} {f : α → Action σ β} {p : Profile}
    {s s'' : σ} {b : β} :
    run (x >>= f) p s = .ok b s'' ↔
      ∃ a s', run x p s = .ok a s' ∧ run (f a) p s' = .ok b s'' := by
  rw [run_bind]
  cases run x p s with
  | ok a s' =>
    constructor
    · exact fun h => ⟨a, s', rfl, h⟩
    · rintro ⟨_, _, ⟨⟩, h⟩
      exact h
  | error => simp

end Action

end ServoPulse
