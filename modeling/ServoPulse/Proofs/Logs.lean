import ServoPulse.Proofs.Panel

/-!
# Logs of runs

What a run of an engine did to its channels is told by its log: the periods that began, each with
the channels that it found, the starts with their answers, and the commands (`Entry`). Time, stops
and whatever the board does by itself are part of the run and leave nothing in the log (`Logged`).

The channels at the end follow from those at the beginning by the log alone (`Logged.follows`), so a
result about channels over all runs of all engines is an induction over a list, with one case for
each kind of entry (`Entry.Changes`). It holds on any board. The one thing by which a board reaches
the channels is the list of its eligible pins, which starts look at, and an interrupt does not ask
for it (`interrupt_withEligible`), so what is known of interrupts where the eligible pins are fixed
is known everywhere.

A stop is a number of waits and the shutting down after them. Its waits may do what may happen
between the calls, and so a stop logs periods and nothing else (`exists_logged_of_stop`).
-/

namespace ServoPulse

/-- The board, said to have other eligible pins. -/
abbrev Board.withEligible {β : Type} (board : Board β) (pins : List Nat) : Board β :=
  { board with eligible := fun _ => pins }

/-- The pins that a board is said to have stay the same. -/
theorem fixedPins_withEligible {β : Type} (board : Board β) (pins : List Nat) :
    @FixedPins β (board.withEligible pins) :=
  letI := board.withEligible pins
  have h_fixed {α : Type} (p : Profile) (x : Action β α) : Action.Leaves Board.eligible p x :=
    fun _ => Action.ends_iff_forall_endsIn.2 fun _ _ => rfl
  { startTimer := fun p => h_fixed p _
    stopTimer := fun _ => rfl
    armCompare := fun p _ => h_fixed p _
    disarmCompare := fun _ => rfl
    takeOverflow := fun _ => rfl
    takeCompare := fun _ => rfl
    configureOutput := fun _ _ => rfl
    setHigh := fun p _ => h_fixed p _
    setLow := fun p _ => h_fixed p _ }

/-! ### Entries -/

/-- One entry of a log. -/
inductive Entry where
  /-- A period began and found these channels. -/
  | period (found : ChannelTable)
  /-- A start was answered. -/
  | start (pins? : Option (List Nat)) (answer : Except StartError Unit)
  /-- A command was given. -/
  | command (k : Command)

namespace Entry

/-- Whether the entry is a period. -/
def isPeriod : Entry → Bool
  | period _ => true
  | _ => false

/-- What happens to the channels where this is logged. -/
inductive Changes : Entry → ChannelTable → ChannelTable → Prop
  | period (t : ChannelTable) : Changes (.period t) t t.step
  | list {t : ChannelTable} {pins : List Nat} (h_length : pins.length ≤ maxServos) :
      Changes (.start (some pins) (.ok ())) t (.assign pins)
  | resume {t : ChannelTable} : Changes (.start none (.ok ())) t t
  | refuse {t : ChannelTable} {pins? : Option (List Nat)} {error : StartError} :
      Changes (.start pins? (.error error)) t t
  | command {t : ChannelTable} (k : Command) : Changes (.command k) t (t.modify k.servo k.write)

end Entry

namespace ChannelTable

theorem modify_of_get?_eq_none {t : ChannelTable} {n : Nat} {f : Channel → Channel}
    (h : t.get? n = none) : t.modify n f = t := by
  unfold modify
  by_cases h_n : n < maxServos
  · have h_count : ¬n < t.count := fun h_count => by simp [get?, h_count, h_n] at h
    rw [dif_pos h_n, if_neg h_count]
  · rw [dif_neg h_n]

theorem get?_step (t : ChannelTable) (n : Nat) : t.step.get? n = (t.get? n).map Channel.step := by
  rw [← getElem?_active, active_step, List.getElem?_map, getElem?_active]

/-- The last table follows from the first by the log. -/
inductive Follows : ChannelTable → List Entry → ChannelTable → Prop
  | refl (t : ChannelTable) : Follows t [] t
  | cons {t t' t'' : ChannelTable} {x : Entry} {log : List Entry} (h : x.Changes t t')
      (h_rest : Follows t' log t'') : Follows t (x :: log) t''

end ChannelTable

namespace Engine

variable {β : Type} [board : Board β] {p : Profile} {e e' : Engine β} {log : List Entry}

/-! ### What the calls do to the channels -/

omit board in
/-- An interrupt does the same where other pins are said to be eligible. -/
theorem interrupt_withEligible (board : Board β) (pins : List Nat) :
    @interrupt β (board.withEligible pins) = @interrupt β board := by
  -- each of the loops does the same for every item, so the equation goes through them by induction
  have h_lowerAll (events : List Fall) :
      @lowerAll β (board.withEligible pins) events = @lowerAll β board events := by
    induction events with
    | nil => rfl
    | cons f rest ih =>
      exact congrArg (fun x : Action (Engine β) Unit => lower f rest >>= fun _ => x) ih
  have h_settle (now : Nat) (events : List Fall) :
      @settle β (board.withEligible pins) now events = @settle β board now events := by
    induction events generalizing now with
    | nil => rfl
    | cons f rest ih =>
      unfold settle
      simp only [ih]
      rfl
  -- the table is stepped by a function that the board has no part in
  have h_turn : @turn β (board.withEligible pins) = @turn β board := by
    unfold turn beginPeriod
    simp only [h_lowerAll]
    rfl
  unfold interrupt fallDue
  simp only [h_turn, h_settle]
  rfl

/-- What the interrupt from `e` to `e'` logs. It began a period if it counted one, or if a trap
ended it after it had moved the channels. -/
def periodLog (e e' : Engine β) : List Entry :=
  if e'.periods = e.periods ∧ e'.table = e.table then [] else [.period e.table]

/-- **The interrupt.** Where it logs a period, it has moved the channels once. -/
theorem table_of_interrupt (h : interrupt.EndsIn p e e') :
    periodLog e e' = [] ∧ e'.table = e.table ∨
      periodLog e e' = [.period e.table] ∧ e'.table = e.table.step := by
  have h_fixed := fixedPins_withEligible board []
  -- the period count tells the two kinds of interrupt apart, and the table goes with it
  have h_table : e'.periods = e.periods ∧ e'.table = e.table ∨ e'.table = e.table.step := by
    rw [← interrupt_withEligible board []] at h
    let _ := board.withEligible []
    refine Action.Ends.of_endsIn (E := fun t => t.periods = e.periods ∧ t.table = e.table ∨
      t.table = e.table.step) ((ends_interrupt e).mono (fun _ t h_t => ?_) fun t h_t => ?_) h
    · -- also when it traps, the interrupt has stepped the table once or not at all
      rcases h_t with h_t | ⟨-, h_t⟩
      · exact .inl ⟨congrArg Panel.periods h_t, congrArg Panel.table h_t⟩
      · exact .inr (congrArg Panel.table h_t)
    · rcases h_t with h_t | ⟨-, h_t | h_t⟩
      · exact .inl ⟨congrArg Panel.periods h_t, congrArg Panel.table h_t⟩
      · exact .inr (congrArg Panel.table h_t)
      · exact .inr (congrArg Panel.table h_t)
  unfold periodLog
  -- the log has no entry only where neither the count nor the table has changed
  by_cases h_same : e'.periods = e.periods ∧ e'.table = e.table
  · exact .inl ⟨if_pos h_same, h_same.2⟩
  · exact .inr ⟨if_neg h_same, h_table.resolve_left h_same⟩

omit board in
theorem run_servo?_of_some {servo : Nat} {c : Channel} (h : e.channel? servo = some c) :
    (e.servo? servo).run p = .ok (some c) := by
  unfold servo?
  rw [h]
  cases p <;> rfl

omit board in
/-- Naming a servo without a channel traps in one profile, and finds nothing in the other. -/
theorem run_servo?_of_none {servo : Nat} (h : e.channel? servo = none) :
    (e.servo? servo).run p = match p with
      | .debug => .error (.servoOutOfRange servo e.servoCount)
      | .release => .ok none := by
  unfold servo?
  rw [h]
  cases p <;> rfl

omit board in
/-- A write that is made if a servo is found is not made where there is none. -/
theorem eq_of_servo?_of_none {servo : Nat} {f : Engine β → Engine β}
    (h : (do if (← (← get).servo? servo).isSome then modify f :
      Action (Engine β) Unit).EndsIn p e e')
    (h_none : e.channel? servo = none) : e' = e := by
  rw [endsIn_servo?_iff.1 h, run_servo?_of_none h_none]
  cases p <;> rfl

omit board in
/-- A command to a servo that is not configured changes nothing. -/
theorem eq_of_exec_of_none {k : Command} (h : k.exec.EndsIn p e e')
    (h_none : e.channel? k.servo = none) : e' = e := by
  cases k <;> exact eq_of_servo?_of_none h h_none

omit board in
/-- A write that is made if a servo is found. -/
theorem table_of_servo? {servo : Nat} {f : Engine β → Engine β} {g : Channel → Channel}
    (h : (do if (← (← get).servo? servo).isSome then modify f :
      Action (Engine β) Unit).EndsIn p e e')
    (h_f : (f e).table = e.table.modify servo g) : e'.table = e.table.modify servo g := by
  cases h_c : e.channel? servo with
  | some c =>
    rw [endsIn_servo?_iff.1 h, run_servo?_of_some h_c]
    exact h_f
  | none => rw [eq_of_servo?_of_none h h_c, ChannelTable.modify_of_get?_eq_none h_c]

omit board in
/-- **Commands.** A command writes to its channel, if there is one. -/
theorem table_of_exec {k : Command} (h : k.exec.EndsIn p e e') :
    e'.table = e.table.modify k.servo k.write := by
  -- a target is clamped, aimed at, and then said to move or not
  have h_target {servo ticks : Nat} (h : (setTargetTicks servo ticks).EndsIn p e e') :
      e'.table = e.table.modify servo (·.aim (clampTicks ticks)) := by
    refine table_of_servo? h ?_
    obtain ⟨moving, h_moving⟩ := refreshMoving_eq servo
      { e with table := e.table.modify servo (·.aim (clampTicks ticks)) }
    rw [h_moving]
  cases k with
  | targetTicks servo ticks => exact h_target h
  | targetUs servo us => exact h_target h
  | speed servo limit => exact table_of_servo? h rfl

theorem leaves_table_launch : Action.Leaves (σ := Engine β) table p launch :=
  .bind (.bind (.modify fun _ => rfl) fun _ => leaves_table_onBoard _) fun _ => .modify fun _ => rfl

theorem leaves_table_configureOutputs :
    Action.Leaves (σ := Engine β) table p configureOutputs :=
  .get_bind fun _ => .forM fun _ _ => .get_bind fun _ => .ite (.pure _) (.modify fun _ => rfl)

/-- **Starting.** What is logged of a start happens to the channels. -/
theorem changes_of_start {pins? : Option (List Nat)} {answer : Except StartError Unit}
    (h : (start pins?).run p e = .ok answer e') :
    (Entry.start pins? answer).Changes e.table e'.table := by
  -- the launch changes no table, so the entry is that of the list
  have h_launch {t : Engine β} (h_t : (Entry.start pins? (.ok ())).Changes e.table t.table) :
      Action.Ends p launch t
        (fun _ e' => (Entry.start pins? (.ok ())).Changes e.table e'.table) fun _ => True :=
    (leaves_table_launch t).mono (fun _ u h_u => by rwa [h_u]) fun _ _ => trivial
  have h_ends : Action.Ends p (start pins?) e
      (fun answer e' => (Entry.start pins? answer).Changes e.table e'.table) fun _ => True := by
    refine .get_bind ?_
    cases h_check : e.checkStart pins? with
    | error error =>
      -- refused with the error, and the table is as it was
      exact .pure .refuse
    | ok _ =>
      cases pins? with
      | none =>
        -- resumed with the channels it had
        refine .ite (fun _ => .pure .resume) fun _ => .modify_bind ?_
        exact .bind (h_launch .resume) fun _ t h_t => .pure h_t
      | some pins =>
        -- the list passed the check, so its length is known
        have h_length : pins.length ≤ maxServos :=
          (checkPins_ok ((checkStart_ok h_check).2 pins rfl)).1
        have h_list {t : Engine β} (h_t : t.table = .assign pins) :
            (Entry.start (some pins) (.ok ())).Changes e.table t.table := h_t ▸ .list h_length
        -- the table is assigned first; preparing the pins and launching leave it alone
        refine .bind (Q := fun _ t => t.table = .assign pins) (.modify_bind ?_) fun _ t h_t =>
          .ite (fun _ => .pure (h_list h_t)) fun _ => ?_
        · refine .bind ((leaves_table_configureOutputs _).mono (fun _ _ h => h) fun _ _ => trivial)
            fun _ t h_t => ?_
          exact h_t
        · exact .bind (h_launch (h_list h_t)) fun _ u h_u => .pure h_u
  exact h_ends.of_run h

theorem leaves_table_shutDown : Action.Leaves (σ := Engine β) table p shutDown := by
  refine .bind ?_ fun _ => .modify fun _ => rfl
  refine .bind (.modify fun _ => rfl) fun _ => .bind (.modify fun _ => rfl) fun _ => ?_
  refine .get_bind fun e => .bind (.forM fun c _ => leaves_table_onBoard _) fun _ => ?_
  exact .modify fun _ => rfl

/-! ### Logged runs -/

/-- A run of an engine with its log: the board changes by itself, as it does when time passes, the
interrupt is served, starts are answered and commands given, and a stop that has waited shuts the
engine down. A trap does not end the run, unless it is in a start. -/
inductive Logged (p : Profile) : Engine β → List Entry → Engine β → Prop
  | refl (e : Engine β) : Logged p e [] e
  | board {e e' : Engine β} {log : List Entry} (b : β)
      (h_rest : Logged p { e with board := b } log e') : Logged p e log e'
  | interrupt {e t e' : Engine β} {log : List Entry} (h : interrupt.EndsIn p e t)
      (h_rest : Logged p t log e') : Logged p e (periodLog e t ++ log) e'
  | start {e t e' : Engine β} {log : List Entry} {pins? : Option (List Nat)}
      {answer : Except StartError Unit} (h : (start pins?).run p e = .ok answer t)
      (h_rest : Logged p t log e') : Logged p e (.start pins? answer :: log) e'
  | command {e t e' : Engine β} {log : List Entry} {k : Command} (h : k.exec.EndsIn p e t)
      (h_rest : Logged p t log e') : Logged p e (.command k :: log) e'
  | shutDown {e t e' : Engine β} {log : List Entry} (h : shutDown.EndsIn p e t)
      (h_rest : Logged p t log e') : Logged p e log e'

namespace Logged

/-- **Logs.** The channels at the end follow from those at the beginning by the log. -/
theorem follows (h : Logged p e log e') : e.table.Follows log e'.table := by
  -- induction on the log, with the first entry of each case taken from the lemma above
  induction h with
  | refl e => exact .refl _
  | board _ _ ih => exact ih
  | interrupt h _ ih =>
    rcases table_of_interrupt h with ⟨h_log, h_table⟩ | ⟨h_log, h_table⟩
    · rwa [h_log, ← h_table]
    · rw [h_log]
      exact .cons (.period _) (h_table ▸ ih)
  | start h _ ih => exact .cons (changes_of_start h) ih
  | command h _ ih => exact .cons (.command _) (table_of_exec h ▸ ih)
  | shutDown h _ ih =>
    -- the shutdown writes no entry and changes no table
    have h_table := (Action.ends_iff_forall_endsIn.1 (leaves_table_shutDown _)) _ h
    rwa [h_table] at ih

theorem trans {t : Engine β} {log' : List Entry} (h : Logged p e log t)
    (h' : Logged p t log' e') : Logged p e (log ++ log') e' := by
  -- induction on the first log, which is put before the second one
  induction h with
  | refl e => exact h'
  | board b _ ih => exact .board b (ih h')
  | interrupt h _ ih =>
    rw [List.append_assoc]
    exact .interrupt h (ih h')
  | start h _ ih => exact .start h (ih h')
  | command h _ ih => exact .command h (ih h')
  | shutDown h _ ih => exact .shutDown h (ih h')

end Logged

/-- The engine gets from `e` to `e'` and logs nothing but periods. -/
def LogsPeriods (p : Profile) (e e' : Engine β) : Prop :=
  ∃ log, Logged p e log e' ∧ ∀ x ∈ log, x.isPeriod

namespace LogsPeriods

theorem refl (e : Engine β) : LogsPeriods p e e := ⟨[], .refl e, nofun⟩

theorem trans {t : Engine β} (h : LogsPeriods p e t) (h' : LogsPeriods p t e') :
    LogsPeriods p e e' := by
  obtain ⟨log, h_log, h_period⟩ := h
  obtain ⟨log', h_log', h_period'⟩ := h'
  refine ⟨log ++ log', h_log.trans h_log', fun x h_x => ?_⟩
  exact (List.mem_append.1 h_x).elim (h_period x) (h_period' x)

theorem of_between (h : Between p e e') : LogsPeriods p e e' := by
  cases h with
  | board h => exact ⟨[], .board _ (.refl _), nofun⟩
  | interrupt h =>
    refine ⟨_, .interrupt h (.refl _), fun x h_x => ?_⟩
    rw [List.append_nil] at h_x
    -- one entry at most, and that one a period
    rcases table_of_interrupt h with ⟨h_log, -⟩ | ⟨h_log, -⟩
    · rw [h_log] at h_x
      cases h_x
    · rw [h_log, List.mem_singleton] at h_x
      rw [h_x]
      rfl

theorem of_lull (h : Relation.ReflTransGen (Between p) e e') : LogsPeriods p e e' := by
  induction h with
  | refl => exact .refl e
  | tail _ h_last ih => exact ih.trans (.of_between h_last)

end LogsPeriods

/-- **Stopping.** A stop logs the periods that begin while it waits, and nothing else. -/
theorem exists_logged_of_stop {wait : Nat → Action (Engine β) Unit}
    (h_wait : ∀ k s s', (wait k).EndsIn p s s' → Relation.ReflTransGen (Between p) s s')
    (h : (stop wait).EndsIn p e e') : LogsPeriods p e e' := by
  -- the shutdown ends the wait and writes nothing into the log
  have h_down {t : Engine β} (h_t : LogsPeriods p e t) :
      Action.Ends p shutDown t (fun _ => LogsPeriods p e) (LogsPeriods p e) :=
    Action.ends_iff_forall_endsIn.2 fun u h_u =>
      h_t.trans ⟨[], .shutDown h_u (.refl u), nofun⟩
  -- induction on the fuel of the wait, with the log so far in hand
  have h_await {poll timeout fuel polls waited : Nat} {t : Engine β} (h_t : LogsPeriods p e t) :
      Action.Ends p (awaitFalls wait poll timeout fuel polls waited) t
        (fun _ => LogsPeriods p e) (LogsPeriods p e) := by
    induction fuel generalizing polls waited t with
    | zero => exact .bind (h_down h_t) fun _ u h_u => .pure h_u
    | succ fuel ih =>
      refine .get_bind (.ite (fun _ => ?_) fun _ => .bind (h_down h_t) fun _ u h_u => .pure h_u)
      refine .bind (Action.ends_iff_forall_endsIn.2 fun u h_u => ?_) fun _ u h_u => ih h_u
      exact h_t.trans (.of_lull (h_wait polls t u h_u))
  refine Action.Ends.of_endsIn (E := LogsPeriods p e) (.get_bind ?_) h
  exact .ite (fun _ => h_await (.refl e)) fun _ => .pure (.refl e)

/-- **Runs.** Every run has a log. -/
theorem Events.exists_logged (h : Events p e e') : ∃ log, Logged p e log e' := by
  induction h with
  | refl => exact ⟨[], .refl _⟩
  | tail _ h_last ih =>
    -- the log grows behind with each event
    obtain ⟨log, h_log⟩ := ih
    cases h_last with
    | between h =>
      obtain ⟨log', h_log', -⟩ := LogsPeriods.of_between h
      exact ⟨log ++ log', h_log.trans h_log'⟩
    | start h => exact ⟨_, h_log.trans (.start h (.refl _))⟩
    | command h => exact ⟨_, h_log.trans (.command h (.refl _))⟩
    | stop h_wait h =>
      obtain ⟨log', h_log', -⟩ := exists_logged_of_stop h_wait h
      exact ⟨log ++ log', h_log.trans h_log'⟩

/-! ### Replaying a run with its log -/

section Replay

variable {P : Type} [PinBank P] {e e' : Engine (Bench P)}

/-- What happens in a logged run, written down. -/
inductive LogOp where
  | op (op : Op)
  | shutDown

/-- What is logged of an operation, and the state after it, if it returns. -/
def LogOp.logged? (p : Profile) (e : Engine (Bench P)) :
    LogOp → Option (List Entry × Engine (Bench P))
  | op (.advance ticks) => ((Engine.advance ticks).result? p e).map fun (_, e') => ([], e')
  | op .interrupt => (Engine.interrupt.result? p e).map fun (_, e') => (periodLog e e', e')
  | op (.start pins?) =>
    ((Engine.start pins?).result? p e).map fun (answer, e') => ([.start pins? answer], e')
  | op (.command k) => (k.exec.result? p e).map fun (_, e') => ([.command k], e')
  | shutDown => (Engine.shutDown.result? p e).map fun (_, e') => ([], e')

/-- The log of some operations, and the state after them, if they return. -/
def replayLog? (p : Profile) :
    List LogOp → Engine (Bench P) → Option (List Entry × Engine (Bench P))
  | [], e => some ([], e)
  | op :: ops, e => do
    let (first, t) ← op.logged? p e
    let (log, e') ← replayLog? p ops t
    return (first ++ log, e')

theorem logged_of_logged? {op : LogOp} (h : op.logged? p e = some (log, e')) :
    Logged p e log e' := by
  -- each operation is one constructor of the log, with the entry it writes
  cases op with
  | shutDown =>
    obtain ⟨⟨⟨⟩, t⟩, h_result, ⟨⟩⟩ := Option.map_eq_some_iff.1 h
    exact .shutDown (.inl ⟨⟨⟩, Action.run_eq_ok_of_result? h_result⟩) (.refl e')
  | op op =>
    cases op with
    | advance ticks =>
      obtain ⟨⟨event, t⟩, h_result, ⟨⟩⟩ := Option.map_eq_some_iff.1 h
      obtain ⟨limit, clock, -, rfl⟩ := run_advance_eq_ok (Action.run_eq_ok_of_result? h_result)
      exact .board _ (.refl _)
    | interrupt =>
      obtain ⟨⟨⟨⟩, t⟩, h_result, ⟨⟩⟩ := Option.map_eq_some_iff.1 h
      rw [← List.append_nil (periodLog e e')]
      exact .interrupt (.inl ⟨⟨⟩, Action.run_eq_ok_of_result? h_result⟩) (.refl e')
    | start pins? =>
      obtain ⟨⟨answer, t⟩, h_result, ⟨⟩⟩ := Option.map_eq_some_iff.1 h
      exact .start (Action.run_eq_ok_of_result? h_result) (.refl e')
    | command k =>
      obtain ⟨⟨⟨⟩, t⟩, h_result, ⟨⟩⟩ := Option.map_eq_some_iff.1 h
      exact .command (.inl ⟨⟨⟩, Action.run_eq_ok_of_result? h_result⟩) (.refl e')

/-- What was replayed is a run with this log. -/
theorem logged_of_replayLog? {ops : List LogOp} {out : List Entry × Engine (Bench P)}
    (h : replayLog? p ops e = some out) : Logged p e out.1 out.2 := by
  -- induction on the operations, whose logs are put one behind the other
  induction ops generalizing e out with
  | nil =>
    cases h
    exact .refl _
  | cons op ops ih =>
    obtain ⟨⟨first, t⟩, h_first, h⟩ := Option.bind_eq_some_iff.1 h
    obtain ⟨⟨rest, u⟩, h_rest, ⟨⟩⟩ := Option.bind_eq_some_iff.1 h
    exact (logged_of_logged? h_first).trans (ih h_rest)

end Replay

end Engine

end ServoPulse
