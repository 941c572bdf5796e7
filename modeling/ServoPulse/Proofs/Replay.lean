import ServoPulse.Proofs.Scope
import ServoPulse.Proofs.Steps

/-!
# Replaying a run

A run written down as a list of operations, and a function that replays it. Where the
replay succeeds, its states are those of a run (`steps_of_replay?`), so a concrete run is
checked by evaluation.
-/

namespace ServoPulse

deriving instance DecidableEq for Bench, Engine, Scope

/-- The value and the state that an action returns, if it does not trap. -/
def Action.result? {σ α : Type} (x : Action σ α) (p : Profile) (s : σ) : Option (α × σ) :=
  match x.run p s with
  | .ok a s' => some (a, s')
  | .error _ _ => none

theorem Action.run_eq_ok_of_result? {σ α : Type} {x : Action σ α} {p : Profile} {s s' : σ} {a : α}
    (h : x.result? p s = some (a, s')) : x.run p s = .ok a s' := by
  rw [result?] at h
  cases h_run : x.run p s with
  | ok b t =>
    rw [h_run] at h
    cases h
    rfl
  | error trap t =>
    -- a trap gives no result
    rw [h_run] at h
    cases h

namespace Engine

/-- A step other than a stop, written down. -/
inductive Op where
  | advance (ticks : Nat)
  | interrupt
  | start (pins? : Option (List Nat))
  | command (k : Command)

variable {P : Type} [PinBank P] [DecidableEq P] {p : Profile} {e e' : Engine (Bench P)}

/-- The value and the state that an action returns under both profiles, if they agree. -/
def agreed? {α : Type} [DecidableEq α] (x : Action (Engine (Bench P)) α) (e : Engine (Bench P)) :
    Option (α × Engine (Bench P)) :=
  if x.result? .debug e = x.result? .release e then x.result? .debug e else none

omit [PinBank P] in
theorem run_of_agreed? {α : Type} [DecidableEq α] {x : Action (Engine (Bench P)) α} {a : α}
    (h : agreed? x e = some (a, e')) (p : Profile) : x.run p e = .ok a e' := by
  rw [agreed?] at h
  split at h
  · -- both profiles gave this result
    rename_i h_same
    cases p with
    | debug => exact Action.run_eq_ok_of_result? h
    | release => exact Action.run_eq_ok_of_result? (h_same ▸ h)
  · cases h

/-- The state after an operation, if it returns. -/
def Op.next? (p : Profile) (e : Engine (Bench P)) : Op → Option (Engine (Bench P))
  | advance ticks => (agreed? (Engine.advance ticks) e).map Prod.snd
  | interrupt => (agreed? Engine.interrupt e).map Prod.snd
  | start pins? => ((Engine.start pins?).result? p e).map Prod.snd
  | command k => (k.exec.result? p e).map Prod.snd

/-- The state after some operations, if they return. -/
def replay? (p : Profile) (ops : List Op) (e : Engine (Bench P)) : Option (Engine (Bench P)) :=
  ops.foldlM (Op.next? p) e

theorem step_of_next? {op : Op} (h : op.next? p e = some e') (cuts : Bool) : Step p cuts e e' := by
  -- one kind of step for each operation
  cases op with
  | advance ticks =>
    obtain ⟨⟨event, t⟩, h_result, rfl⟩ := Option.map_eq_some_iff.1 h
    exact .moment (.advance (run_of_agreed? h_result))
  | interrupt =>
    obtain ⟨⟨⟨⟩, t⟩, h_result, rfl⟩ := Option.map_eq_some_iff.1 h
    exact .moment (.interrupt (run_of_agreed? h_result))
  | start pins? =>
    obtain ⟨⟨r, t⟩, h_result, rfl⟩ := Option.map_eq_some_iff.1 h
    exact .start (Action.run_eq_ok_of_result? h_result)
  | command k =>
    obtain ⟨⟨⟨⟩, t⟩, h_result, rfl⟩ := Option.map_eq_some_iff.1 h
    exact .command (.inl ⟨⟨⟩, Action.run_eq_ok_of_result? h_result⟩)

/-- What was replayed is a run. -/
theorem steps_of_replay? {ops : List Op} (h : replay? p ops e = some e') (cuts : Bool) :
    Steps p cuts e e' := by
  -- induction on the operations
  induction ops generalizing e with
  | nil =>
    cases h
    exact .refl
  | cons op ops ih =>
    obtain ⟨t, h_first, h_rest⟩ := Option.bind_eq_some_iff.1 h
    exact .head (step_of_next? h_first cuts) (ih h_rest)

end Engine

end ServoPulse
