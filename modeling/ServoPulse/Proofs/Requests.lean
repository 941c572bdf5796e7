import ServoPulse.Proofs.Prediction
import ServoPulse.Proofs.Returning
import ServoPulse.Proofs.Strays

/-!
# What recorded pins foretell

Everything that is asked of an engine on a bench, written down (`Request`), with the answers to a
list of requests (`answers`) and the engine after them (`afterAll`). A request that traps is
answered by the trap, and the next one finds the engine as the trap left it.

The same requests are made to two engines with the same configuration and the same timer, one on
recorded pins and one on a bank of digital outputs for the same six pins. All answers are the same,
and the engines look the same after each request (`bank_as_predicted`), in whatever order the bank
lists the pins and whichever of its outputs fail. What carries this is that the pins of the channels
are outputs, so that the recorder refuses a rise only of a pin that is high already, and refuses a
fall only of a pin that is low (`PinRecorder.Predicts`).

There is one thing that a bank cannot do and the recorder can: count its violations. With more
violations than a number of 32 bits can count, the recorder traps in the `debug` profile. It takes a
start or a stop to bring about six more of them (`ends_act`), so this is beyond any run with fewer
than some seven hundred million starts and stops.
-/

namespace ServoPulse

/-- What an action answers, a value or a trap. -/
def Action.answer {σ α : Type} (x : Action σ α) (p : Profile) (s : σ) : Except Trap α :=
  match x.run p s with
  | .ok a _ => .ok a
  | .error trap _ => .error trap

/-- Actions that mirror each other answer the same and end in states that correspond, unless the
first one traps where nothing is said of the other. -/
theorem Action.Mirrors.answer {σ τ α : Type} {p : Profile} {R : σ → τ → Prop} {X : σ → Prop}
    {x : Action σ α} {y : Action τ α} (h : Action.Mirrors R X p (· = p) x y) {s : σ} {t : τ}
    (h_rel : R s t) :
    (y.answer p t = x.answer p s ∧ R (x.final p s) (y.final p t)) ∨
      ∃ trap s', x.run p s = .error trap s' ∧ X s' := by
  have h_run := h h_rel
  unfold Action.answer Action.final
  cases h_x : x.run p s with
  | ok a s' =>
    -- both return, with the same answer
    rw [h_x] at h_run
    obtain ⟨h_y, h_rel'⟩ := h_run
    rw [h_y p rfl]
    exact .inl ⟨rfl, h_rel'⟩
  | error trap s' =>
    -- both trap alike, or the first one alone
    rw [h_x] at h_run
    cases h_run with
    | error h_y h_rel' =>
      rw [h_y p rfl]
      exact .inl ⟨rfl, h_rel'⟩
    | lost h_lost => exact .inr ⟨trap, s', rfl, h_lost⟩

theorem Action.Ends.final {σ α : Type} {p : Profile} {x : Action σ α} {s : σ} {E : σ → Prop}
    (h : Action.Ends p x s (fun _ => E) E) : E (x.final p s) := by
  unfold Action.Ends at h
  unfold Action.final
  cases h_run : x.run p s with
  | ok a t =>
    rw [h_run] at h
    exact h
  | error trap t =>
    rw [h_run] at h
    exact h

namespace Engine

/-- Something that is asked of an engine on a bench. -/
inductive Request where
  /-- The next event, or some ticks if there is none before. -/
  | advance (ticks : Nat)
  | idle (x : Idle)
  /-- Some more periods, with every interrupt served. -/
  | periods (goal : Nat)
  | start (pins? : Option (List Nat))
  | command (k : Command)
  /-- A stop, with what happens in each of its waits. -/
  | stop (waits : Nat → List Idle)
  /-- A number of a channel. -/
  | read (servo : Nat) (field : Channel → Nat)

/-- The answer to a request. -/
inductive Answer where
  | done
  /-- Whether an event came. -/
  | event (came : Bool)
  | number (n : Nat)
  | started (r : Except StartError Unit)
  | stopped (report : StopReport)

section Bench

variable {P : Type} [PinBank P]

/-- Does what is asked. -/
def Request.act : Request → Action (Engine (Bench P)) Answer
  | advance ticks => do return .event (← Engine.advance ticks)
  | idle x => do
    x.act
    return .done
  | periods goal => do return .number (← countPeriods (runPeriods goal))
  | start pins? => do return .started (← Engine.start pins?)
  | command k => do
    k.exec
    return .done
  | stop waits => do return .stopped (← stopBy waits)
  | read servo field => do return .number (← (← get).readChannel servo field)

/-- The answers to requests that are made one after the other. -/
def answers (p : Profile) : List Request → Engine (Bench P) → List (Except Trap Answer)
  | [], _ => []
  | r :: requests, e => r.act.answer p e :: answers p requests (r.act.final p e)

/-- The engine after the requests. -/
def afterAll (p : Profile) (requests : List Request) (e : Engine (Bench P)) : Engine (Bench P) :=
  requests.foldl (fun e r => r.act.final p e) e

end Bench

/-- Whether the pending falls may be forgotten. -/
def Request.forgets : Request → Bool
  | start _ | stop _ => true
  | _ => false

/-- What two engines show alike. -/
structure LookAlike (e : Engine (Bench PinRecorder)) (t : Engine (Bench OutputBank)) : Prop where
  table_eq : t.table = e.table
  started_eq : t.started = e.started
  moving_eq : t.moving = e.moving
  phase_eq : t.phase = e.phase
  periods_eq : t.periods = e.periods
  clock_eq : t.clock = e.clock
  level_eq : ∀ pin, t.pins.isHigh pin = e.pins.isHigh pin

variable {p : Profile} {e : Engine (Bench PinRecorder)} {t : Engine (Bench OutputBank)}

theorem Predicts.lookAlike (h : Predicts p e t) : LookAlike e t := by
  obtain ⟨ready, ⟨c, h_rel, rfl⟩, -⟩ := h
  exact ⟨rfl, rfl, rfl, rfl, rfl, h_rel.clock_eq, h_rel.pins.level_eq⟩

/-- **Requests.** From benches that the prediction ties, a request comes to the same answer or trap
on the bench with the bank as on the one with recorded pins, unless those trap because their
violations cannot be counted any further. -/
theorem mirrors_act (r : Request) : Action.Mirrors (Predicts p) (Full p) p (· = p) r.act r.act := by
  cases r with
  | advance ticks => exact .bind (mirrors_advance ticks) fun _ => .pure _
  | idle x => exact .bind (mirrors_idle x) fun _ => .pure _
  | periods goal =>
    exact .bind (mirrors_countPeriods (mirrors_runPeriods goal)) fun _ => .pure _
  | start pins? => exact .bind (mirrors_start pins?) fun _ => .pure _
  | command k => exact .bind (mirrors_predicted fun _ => mirrors_exec k) fun _ => .pure _
  | stop waits => exact .bind (mirrors_stopBy waits) fun _ => .pure _
  | read servo field =>
    -- a read looks at the channels, which are the same
    refine .get_liftM_bind ?_ fun _ _ _ _ => .pure _
    rintro e t ⟨ready, ⟨c, -, rfl⟩, -⟩
    exact .inl fun q hq => hq ▸ rfl

theorem preserves_act {n : Nat} {r : Request} (h : r.forgets = false) :
    Action.Preserves (Owes n) p r.act := by
  cases r with
  | advance ticks => exact .bind (Owes.preserves_advance ticks) fun _ => .pure _
  | idle x => exact .bind (Owes.preserves_idle x) fun _ => .pure _
  | periods goal => exact .bind (Owes.preserves_countPeriods goal) fun _ => .pure _
  | command k => exact .bind (Owes.preserves_exec k) fun _ => .pure _
  | read servo field => exact .get_bind fun _ => .liftM_bind fun _ => .pure _
  | start pins? => cases h
  | stop waits => cases h

/-- **Violations.** Only a request that forgets pending falls adds to what is owed, whatever becomes
of it. -/
theorem ends_act {n : Nat} (h : Owes n e) (r : Request) :
    Action.Ends p r.act e (fun _ => Owes (n + if r.forgets then maxServos else 0))
      (Owes (n + if r.forgets then maxServos else 0)) := by
  cases h_forgets : r.forgets with
  | false => exact preserves_act h_forgets e h
  | true =>
    cases r with
    | start pins? => exact (h.ends_start pins?).bind fun _ _ h_t => h_t
    | stop waits =>
      exact (Owes.ends_stop (fun k => .forM fun x _ => Owes.preserves_idle x) h).bind
        fun _ _ h_t => h_t
    | advance | idle | periods | command | read => cases h_forgets

/-- Some request traps since the recorder can count no further violation, and up to it all was
alike. -/
def Exhausts (p : Profile) (requests : List Request) (e : Engine (Bench PinRecorder))
    (t : Engine (Bench OutputBank)) : Prop :=
  ∃ earlier r later, requests = earlier ++ r :: later ∧
    answers p earlier t = answers p earlier e ∧
    LookAlike (afterAll p earlier e) (afterAll p earlier t) ∧
    ∃ trap e', r.act.run p (afterAll p earlier e) = .error trap e' ∧
      Width.bits32.size ≤ e'.pins.violations + 1

/-- What holds before the requests holds after them, unless the recorder has to count too many
violations, which takes many requests that forget pending falls. -/
theorem Predicts.requests {n : Nat} (h : Predicts p e t) (h_owes : Owes n e)
    (requests : List Request) :
    (answers p requests t = answers p requests e ∧
      Predicts p (afterAll p requests e) (afterAll p requests t)) ∨
    p = .debug ∧ Width.bits32.size ≤ n + maxServos * requests.countP Request.forgets + 1 ∧
      Exhausts p requests e t := by
  induction requests generalizing e t n with
  | nil => exact .inl ⟨rfl, h⟩
  | cons r requests ih =>
    have h_ends := ends_act (p := p) h_owes r
    have h_count : maxServos * (r :: requests).countP Request.forgets =
        (if r.forgets then maxServos else 0) + maxServos * requests.countP Request.forgets := by
      rw [List.countP_cons, Nat.mul_add, Nat.add_comm]
      split <;> rfl
    rw [h_count, ← Nat.add_assoc]
    rcases (mirrors_act r).answer h with ⟨h_answer, h_next⟩ | ⟨trap, e', h_run, h_debug, h_full⟩
    · rcases ih h_next h_ends.final with ⟨h_answers, h_last⟩ | ⟨h_debug, h_many, h_exhausts⟩
      · refine .inl ⟨?_, h_last⟩
        rw [answers, answers, h_answer, h_answers]
      · obtain ⟨earlier, s, later, rfl, h_answers, h_alike, h_trap⟩ := h_exhausts
        refine .inr ⟨h_debug, h_many, r :: earlier, s, later, rfl, ?_, h_alike, h_trap⟩
        rw [answers, answers, h_answer, h_answers]
    · have h_violations := (h_ends.of_endsIn (.inr ⟨trap, h_run⟩)).violations_le
      refine .inr ⟨h_debug, ?_, [], r, requests, rfl, rfl, h.lookAlike, trap, e', h_run, h_full⟩
      exact Nat.le_trans h_full (Nat.add_le_add_right (Nat.le_add_right_of_le h_violations) 1)

section Fresh

variable {ids failing : List Nat} {config : Config} {lag now : Nat}

/-- New pins are low on both sides, and there are no channels. -/
theorem predicts_fresh (h_ids : ids.Perm PinRecorder.eligiblePins) :
    Predicts p (freshRecorded config lag now)
      (fresh config lag now ({ ids, failing } : OutputBank)) := by
  refine ⟨fun _ => False, ⟨_, ⟨rfl, rfl, ?_⟩, rfl⟩, fun channel h_channel => ?_⟩
  · exact {
      ids := h_ids
      level_eq := fun pin =>
        (OutputBank.isHigh_new ids failing pin).trans (PinRecorder.isHigh_new pin).symm
      output := nofun
      rose_le := fun _ => (PinRecorder.hasRoom_new now).rose_le }
  · change channel ∈ List.take 0 _ at h_channel
    rw [List.take_zero] at h_channel
    exact absurd h_channel List.not_mem_nil

/-- **Prediction.** Two new engines with the same configuration, lag and time, one on recorded pins
and one on a bank with slots for the same pins in any order, of which any outputs may fail, answer
every list of requests alike and look alike after it, and so after each request. Only a recorder
that checks its arithmetic can come to a violation too many to count, and it takes a sixth as many
starts and stops to get there. -/
theorem bank_as_predicted (p : Profile) (config : Config) (lag now : Nat)
    (h_ids : ids.Perm PinRecorder.eligiblePins) (failing : List Nat) (requests : List Request) :
    (answers p requests (fresh config lag now ({ ids, failing } : OutputBank)) =
        answers p requests (freshRecorded config lag now) ∧
      LookAlike (afterAll p requests (freshRecorded config lag now))
        (afterAll p requests (fresh config lag now ({ ids, failing } : OutputBank)))) ∨
    p = .debug ∧ Width.bits32.size ≤ maxServos * requests.countP Request.forgets + 1 ∧
      Exhausts p requests (freshRecorded config lag now)
        (fresh config lag now ({ ids, failing } : OutputBank)) := by
  have h_fresh : Predicts p (freshRecorded config lag now)
      (fresh config lag now ({ ids, failing } : OutputBank)) := predicts_fresh h_ids
  have h_run := h_fresh.requests (owes_fresh config lag now) requests
  rw [Nat.zero_add] at h_run
  exact h_run.imp_left fun h => ⟨h.1, h.2.lookAlike⟩

end Fresh

/-- A pulse is in flight on pin 2 while the channels are replaced, and the stop gives up waiting. -/
def orphanRequests : List Request :=
  [.start (some [2]), .command (.targetTicks 0 36000), .advance 65536, .idle .interrupt,
    .start (some [3]), .stop fun _ => []]

/-- Pin 2 stays high, and the bank in reverse order, of which the second output fails, agrees. -/
theorem bank_as_predicted_orphanRequests :
    (afterAll .release orphanRequests (freshRecorded {} 0 0)).pins.isHigh 2 = true ∧
      answers .release orphanRequests
          (fresh {} 0 0 ({ ids := [12, 11, 10, 4, 3, 2], failing := [1] } : OutputBank)) =
        answers .release orphanRequests (freshRecorded {} 0 0) ∧
      LookAlike (afterAll .release orphanRequests (freshRecorded {} 0 0))
        (afterAll .release orphanRequests
          (fresh {} 0 0 ({ ids := [12, 11, 10, 4, 3, 2], failing := [1] } : OutputBank))) := by
  refine ⟨by decide +kernel, ?_⟩
  have h_ids : [12, 11, 10, 4, 3, 2].Perm PinRecorder.eligiblePins := by decide
  rcases bank_as_predicted .release {} 0 0 h_ids [1] orphanRequests with h_alike | ⟨h_debug, -⟩
  · exact h_alike
  · cases h_debug

end Engine

end ServoPulse
