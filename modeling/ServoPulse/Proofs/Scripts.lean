import ServoPulse.Proofs.Replay

/-!
# Scripts

What is done to an engine on a bench, written down: calls, and between them, or while a stop waits,
stretches of time (`Idle`). Two engines that go through the same script are asked for the same at
each step, whatever they answer (`Performs`). Time never overflows, so what takes time comes out the
same under both profiles.
-/

namespace ServoPulse

/-- The state in which a program ends, returning or trapping. -/
def Action.final {σ α : Type} (x : Action σ α) (p : Profile) (s : σ) : σ :=
  match x.run p s with
  | .ok _ s' => s'
  | .error _ s' => s'

theorem Action.EndsIn.final_eq {σ α : Type} {x : Action σ α} {p : Profile} {s s' : σ}
    (h : x.EndsIn p s s') : x.final p s = s' := by
  rcases h with ⟨a, h_run⟩ | ⟨trap, h_run⟩
  · rw [final, h_run]
  · rw [final, h_run]

namespace Engine

/-- What happens to an engine that is left alone. -/
inductive Idle where
  /-- Time passes up to the next event, or for some ticks if there is none before. -/
  | advance (ticks : Nat)
  /-- Some ticks pass, and every interrupt is served at once. -/
  | run (ticks : Nat)
  /-- Some ticks pass, and no interrupt is served. -/
  | pass (ticks : Nat)
  /-- The interrupt is served. -/
  | interrupt

/-- One thing that is done to an engine. -/
inductive Call where
  | idle (x : Idle)
  | start (pins? : Option (List Nat))
  | command (k : Command)
  /-- A stop, with what happens in each of its waits. -/
  | stop (waits : Nat → List Idle)

variable {P : Type} [PinBank P] {p : Profile} {e t e' : Engine (Bench P)}

/-- Lets it happen. -/
def Idle.act : Idle → Action (Engine (Bench P)) Unit
  | advance ticks => do _ ← Engine.advance ticks
  | run ticks => Engine.run ticks
  | pass ticks => Engine.pass ticks
  | interrupt => Engine.interrupt

/-- A stop with the waits written down. -/
def stopBy (waits : Nat → List Idle) : Action (Engine (Bench P)) StopReport :=
  stop fun k => (waits k).forM Idle.act

/-- What a call makes of an engine. A command for a servo that is not configured may trap, and the
engine goes on. -/
inductive Call.Leads (p : Profile) : Call → Engine (Bench P) → Engine (Bench P) → Prop
  | idle {x : Idle} {e e' : Engine (Bench P)} (h : ∀ q, x.act.run q e = .ok () e') :
      Leads p (.idle x) e e'
  | start {pins? : Option (List Nat)} {r : Except StartError Unit} {e e' : Engine (Bench P)}
      (h : (Engine.start pins?).run p e = .ok r e') : Leads p (.start pins?) e e'
  | command {k : Command} {e e' : Engine (Bench P)} (h : k.exec.EndsIn p e e') :
      Leads p (.command k) e e'
  | stop {waits : Nat → List Idle} {report : StopReport} {e e' : Engine (Bench P)}
      (h : ∀ q, (stopBy waits).run q e = .ok report e') : Leads p (.stop waits) e e'

/-- The calls, one after the other, lead from one engine to the other. -/
inductive Performs (p : Profile) : List Call → Engine (Bench P) → Engine (Bench P) → Prop
  | nil (e : Engine (Bench P)) : Performs p [] e e
  | cons {c : Call} {calls : List Call} {e t e' : Engine (Bench P)} (h : c.Leads p e t)
      (h_rest : Performs p calls t e') : Performs p (c :: calls) e e'

variable [DecidableEq P]

/-- The state after a call, if it returns. -/
def Call.next? (p : Profile) (e : Engine (Bench P)) : Call → Option (Engine (Bench P))
  | idle x => (agreed? x.act e).map Prod.snd
  | start pins? => ((Engine.start pins?).result? p e).map Prod.snd
  | command k => (k.exec.result? p e).map Prod.snd
  | stop waits => (agreed? (stopBy waits) e).map Prod.snd

theorem Call.leads_of_next? {c : Call} (h : c.next? p e = some e') : c.Leads p e e' := by
  cases c with
  | idle x =>
    obtain ⟨⟨⟨⟩, t⟩, h_result, rfl⟩ := Option.map_eq_some_iff.1 h
    exact .idle (run_of_agreed? h_result)
  | start pins? =>
    obtain ⟨⟨r, t⟩, h_result, rfl⟩ := Option.map_eq_some_iff.1 h
    exact .start (Action.run_eq_ok_of_result? h_result)
  | command k =>
    obtain ⟨⟨⟨⟩, t⟩, h_result, rfl⟩ := Option.map_eq_some_iff.1 h
    -- the call has been run, so it is the first of the two ways a command can go
    exact .command (.inl ⟨⟨⟩, Action.run_eq_ok_of_result? h_result⟩)
  | stop waits =>
    obtain ⟨⟨report, t⟩, h_result, rfl⟩ := Option.map_eq_some_iff.1 h
    exact .stop (run_of_agreed? h_result)

/-- The state after some calls, if they return. -/
def perform? (p : Profile) (calls : List Call) (e : Engine (Bench P)) : Option (Engine (Bench P)) :=
  calls.foldlM (Call.next? p) e

theorem performs_of_perform? {calls : List Call} (h : perform? p calls e = some e') :
    Performs p calls e e' := by
  -- by induction on the calls, each of which is one step of the run
  induction calls generalizing e with
  | nil =>
    cases h
    exact .nil _
  | cons c calls ih =>
    obtain ⟨t, h_first, h_rest⟩ := Option.bind_eq_some_iff.1 h
    exact .cons (Call.leads_of_next? h_first) (ih h_rest)

end Engine

end ServoPulse
