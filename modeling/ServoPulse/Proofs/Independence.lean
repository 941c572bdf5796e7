import ServoPulse.Proofs.Arrivals
import ServoPulse.Proofs.Logs
import ServoPulse.Proofs.Observation

/-!
# Channels that do not influence each other

Two runs of an engine without lag that serve every event at once and differ in the commands to one
servo only (`Beside`). All channels share one queue and one compare channel, so the two runs serve
different events at different times, and there is no relation between their queues to carry along.
What they share is the schedule. Each run by itself makes exactly the level changes of its schedule,
and the schedules agree but for that servo: a period begins in both runs or in neither
(`Paced.periodStart_le_iff`), and the tables in force where it begins agree off the servo, since one
run alone, between two of their meetings, steps the other channels and does nothing else to them
(`Aside.tables`).

The level changes are those of the pulses, and a pulse goes on where its pin is taken away from its
servo. So one pulse of the servo that is commanded may end on a pin that is another's by then
(`not_forall_falls_agree`). All other changes of the pins of the other servos are the same
(`channels_apart`).
-/

namespace ServoPulse

namespace ChannelTable

/-- The tables have the same channels but for that of servo `j`, which has the same pin. -/
structure AgreeOff (j : Nat) (t u : ChannelTable) : Prop where
  get?_eq : ∀ n ≠ j, u.get? n = t.get? n
  pin_eq : (u.get? j).map Channel.pin = (t.get? j).map Channel.pin

namespace AgreeOff

variable {j : Nat} {t u v : ChannelTable}

theorem refl (t : ChannelTable) : AgreeOff j t t := ⟨fun _ _ => rfl, rfl⟩

theorem symm (h : AgreeOff j t u) : AgreeOff j u t :=
  ⟨fun n h_n => (h.get?_eq n h_n).symm, h.pin_eq.symm⟩

theorem trans (h : AgreeOff j t u) (h' : AgreeOff j u v) : AgreeOff j t v :=
  ⟨fun n h_n => (h'.get?_eq n h_n).trans (h.get?_eq n h_n), h'.pin_eq.trans h.pin_eq⟩

theorem step (h : AgreeOff j t u) : AgreeOff j t.step u.step where
  get?_eq n h_n := by rw [get?_step, get?_step, h.get?_eq n h_n]
  pin_eq := by
    rw [get?_step, get?_step, Option.map_map, Option.map_map]
    exact h.pin_eq

theorem iterate_step (h : AgreeOff j t u) (k : Nat) :
    AgreeOff j (ChannelTable.step^[k] t) (ChannelTable.step^[k] u) := by
  induction k with
  | zero => exact h
  | succ k ih =>
    rw [Function.iterate_succ_apply', Function.iterate_succ_apply']
    exact ih.step

/-- A command to servo `j` does not show. -/
theorem write (t : ChannelTable) {k : Command} (h : k.servo = j) :
    AgreeOff j t (t.modify k.servo k.write) where
  get?_eq n h_n := by rw [get?_modify, if_neg fun h_eq => h_n (h_eq.symm.trans h)]
  pin_eq := by
    rw [get?_modify, if_pos h, Option.map_map]
    exact congrArg (fun f => (t.get? j).map f) (funext k.write_pin)

/-- A command to another servo keeps the tables in agreement. -/
theorem both (h : AgreeOff j t u) {k : Command} (h_k : k.servo ≠ j) :
    AgreeOff j (t.modify k.servo k.write) (u.modify k.servo k.write) where
  get?_eq n h_n := by rw [get?_modify, get?_modify, h.get?_eq n h_n]
  pin_eq := by rw [get?_modify, get?_modify, if_neg h_k, if_neg h_k, h.pin_eq]

/-- The same start, with the same answer, keeps the tables in agreement. -/
theorem start {t' u' : ChannelTable} {pins? : Option (List Nat)} {answer : Except StartError Unit}
    (h : AgreeOff j t u) (h_t : (Entry.start pins? answer).Changes t t')
    (h_u : (Entry.start pins? answer).Changes u u') : AgreeOff j t' u' := by
  cases h_t with
  | list =>
    -- the new table depends on the pins alone
    cases h_u
    exact .refl _
  | resume =>
    -- the channels stay, and so does what they agree on
    cases h_u
    exact h
  | refuse =>
    -- a refused start changes nothing
    cases h_u
    exact h

/-- The pulses of the other servos are the same. -/
theorem mem_falls (h : AgreeOff j t u) {f : Fall} (h_f : f.servo ≠ j) :
    f ∈ u.falls ↔ f ∈ t.falls := by
  simp only [ChannelTable.mem_falls, getElem?_active]
  refine exists_congr fun c => exists_congr fun servo => ?_
  constructor
  · rintro ⟨h_c, h_pulse, rfl⟩
    exact ⟨h.get?_eq servo h_f ▸ h_c, h_pulse, rfl⟩
  · rintro ⟨h_c, h_pulse, rfl⟩
    exact ⟨(h.get?_eq servo h_f).symm ▸ h_c, h_pulse, rfl⟩

end AgreeOff

end ChannelTable

/-- Two servos of a sound table are on different pins. -/
theorem ChannelTable.Sound.servo_inj {eligible : List Nat} {t : ChannelTable} {i j pin : Nat}
    (h : t.Sound eligible) (h_i : (t.get? i).map Channel.pin = some pin)
    (h_j : (t.get? j).map Channel.pin = some pin) : i = j := by
  rw [← getElem?_active, ← List.getElem?_map] at h_i h_j
  have h_lt := (List.getElem?_eq_some_iff.1 h_i).1
  exact (List.getElem?_inj h_lt h.pins_nodup).1 (h_i.trans h_j.symm)

namespace Engine

open ChannelTable (AgreeOff)

/-! ### One run by itself -/

section Aside

variable {P : Type} [PinBank P] {p : Profile} {j wraps origin m : Nat}
  {older older' : List (Engine (Bench P))} {e e' e₀ : Engine (Bench P)}

/-- A run goes on by itself: it serves events at once, and gives commands to servo `j` alone. -/
inductive Aside (p : Profile) (j : Nat) (older : List (Engine (Bench P))) (e : Engine (Bench P)) :
    List (Engine (Bench P)) → Engine (Bench P) → Prop
  | refl : Aside p j older e older e
  | serve {older' : List (Engine (Bench P))} {t t' : Engine (Bench P)} {limit : UInt64}
      {event : Bool} (h : Aside p j older e older' t)
      (h_run : ∀ q, (serveNext limit.toNat).run q t = .ok event t') :
      Aside p j older e (t :: older') t'
  | command {older' : List (Engine (Bench P))} {t t' : Engine (Bench P)} {k : Command}
      (h : Aside p j older e older' t) (h_servo : k.servo = j) (h_end : k.exec.EndsIn p t t') :
      Aside p j older e (t :: older') t'

theorem Aside.trans {older'' : List (Engine (Bench P))} {e'' : Engine (Bench P)}
    (h : Aside p j older e older' e') (h' : Aside p j older' e' older'' e'') :
    Aside p j older e older'' e'' := by
  induction h' with
  | refl => exact h
  | serve _ h_run ih => exact .serve ih h_run
  | command _ h_servo h_end ih => exact .command ih h_servo h_end

theorem PromptRun.aside (h : PromptRun p e₀ older e) (h_aside : Aside p j older e older' e') :
    PromptRun p e₀ older' e' := by
  induction h_aside with
  | refl => exact h
  | serve _ h_run ih => exact .serve ih h_run
  | command _ _ h_end ih => exact .command ih h_end

omit [PinBank P] in
/-- The table in force where a period began stays the same when the run goes on. -/
theorem Paced.tableInForce_cons (h : Paced wraps origin m e) {k : Nat} (h_k : k < m)
    (older : List (Engine (Bench P))) :
    tableInForce (e :: older) (periodStart wraps origin k) =
      tableInForce older (periodStart wraps origin k) :=
  (renewed_tableInForce e older).old _ ((h.periodStart_le_iff k).2 h_k)

omit [PinBank P] in
/-- The table of the last state is the one in force until the next period begins. -/
theorem Paced.tableInForce_next (h : Paced wraps origin m e) (older : List (Engine (Bench P))) :
    tableInForce (e :: older) (periodStart wraps origin m) = e.table := by
  refine (renewed_tableInForce e older).new _ (Nat.lt_of_not_le fun h_le => ?_)
  exact Nat.lt_irrefl m ((h.periodStart_le_iff m).1 h_le)

omit [PinBank P] in
/-- What is known of the tables in force where `m + d` periods began stays known after a state that
has seen no fewer begin. -/
theorem Paced.tables_cons {m' d : Nat} {t : ChannelTable} {inForce : Nat → ChannelTable}
    (h : Paced wraps origin m' e) (h_le : m + d ≤ m')
    (h_old : ∀ k < m, tableInForce older (periodStart wraps origin k) = inForce k)
    (h_new : ∀ i < d, AgreeOff j (ChannelTable.step^[i] t)
      (tableInForce older (periodStart wraps origin (m + i)))) :
    (∀ k < m, tableInForce (e :: older) (periodStart wraps origin k) = inForce k) ∧
      ∀ i < d, AgreeOff j (ChannelTable.step^[i] t)
        (tableInForce (e :: older) (periodStart wraps origin (m + i))) := by
  refine ⟨fun k h_k => ?_, fun i h_i => ?_⟩
  · -- the earlier starts are too early for the new state to be the one in force
    rw [h.tableInForce_cons (by omega)]
    exact h_old k h_k
  · rw [h.tableInForce_cons (by omega)]
    exact h_new i h_i

/-- **One run by itself.** While `d` periods begin, the other channels are stepped `d` times. -/
theorem Aside.tables [FixedBank P] (h : Aside p j older e older' e')
    (h_e : Paced wraps origin m e) :
    ∃ d, Paced wraps origin (m + d) e' ∧ AgreeOff j (ChannelTable.step^[d] e.table) e'.table ∧
      (∀ k < m, tableInForce (e' :: older') (periodStart wraps origin k) =
        tableInForce (e :: older) (periodStart wraps origin k)) ∧
      ∀ i < d, AgreeOff j (ChannelTable.step^[i] e.table)
        (tableInForce (e' :: older') (periodStart wraps origin (m + i))) := by
  -- induction on what the run does alone; the number of new starts grows with each that it meets
  induction h with
  | refl => exact ⟨0, h_e, .refl _, fun _ _ => rfl, nofun⟩
  | @serve older' t t' limit event h h_run ih =>
    obtain ⟨d, h_t, h_table, h_old, h_new⟩ := ih
    rcases h_t.serve (h_run .debug) with ⟨h_t', h_same⟩ | ⟨h_t', h_begun, -⟩
    · -- no period begins, and the table stays
      refine ⟨d, h_t', ?_, h_t'.tables_cons (Nat.le_refl _) h_old h_new⟩
      rw [show t'.table = t.table from congrArg Panel.table h_same]
      exact h_table
    · -- a period begins, with a step of the table
      obtain ⟨h_old', h_new'⟩ := h_t'.tables_cons (Nat.le_succ _) h_old h_new
      refine ⟨d + 1, h_t', ?_, h_old', fun i h_i => ?_⟩
      · rw [show t'.table = t.table.step from congrArg Panel.table h_begun,
          Function.iterate_succ_apply']
        exact h_table.step
      · -- the start that was just met looks at the table before the step
        rcases Nat.lt_succ_iff_lt_or_eq.1 h_i with h_i | rfl
        · exact h_new' i h_i
        · rw [h_t'.tableInForce_cons (by omega), h_t.tableInForce_next]
          exact h_table
  | @command older' t t' k h h_servo h_end ih =>
    obtain ⟨d, h_t, h_table, h_old, h_new⟩ := ih
    have h_t' := (h_t.command h_end).1
    refine ⟨d, h_t', ?_, h_t'.tables_cons (Nat.le_refl _) h_old h_new⟩
    -- the command is for servo `j`, off which the tables go on to agree
    rw [table_of_exec h_end]
    exact h_table.trans (.write _ h_servo)

end Aside

/-! ### Two runs side by side -/

section Unstarted

variable {P : Type} [PinBank P] {p : Profile} {config : Config} {lag now : Nat} {pins : P}
  {e₀ e : Engine (Bench P)}

/-- What may happen before the first start that is not refused. -/
inductive Unstarted (p : Profile) (e₀ : Engine (Bench P)) : Engine (Bench P) → Prop
  | new : Unstarted p e₀ e₀
  | serve {t t' : Engine (Bench P)} {limit : UInt64} {event : Bool} (h : Unstarted p e₀ t)
      (h_run : ∀ q, (serveNext limit.toNat).run q t = .ok event t') : Unstarted p e₀ t'
  | command {t t' : Engine (Bench P)} {k : Command} (h : Unstarted p e₀ t)
      (h_end : k.exec.EndsIn p t t') : Unstarted p e₀ t'
  | refuse {t t' : Engine (Bench P)} {pins? : Option (List Nat)} {error : StartError}
      (h : Unstarted p e₀ t) (h_run : (Engine.start pins?).run p t = .ok (.error error) t') :
      Unstarted p e₀ t'

/-- Before that, a new engine stays a new engine, and only its clock moves. -/
theorem Unstarted.exists_fresh (h : Unstarted p (fresh config lag now pins) e) :
    ∃ now', e = fresh config lag now' pins := by
  -- induction on the steps, none of which changes anything but the clock
  induction h with
  | new => exact ⟨now, rfl⟩
  | @serve _ _ limit event _ h_run ih =>
    obtain ⟨now', rfl⟩ := ih
    obtain ⟨clock, h_advance, h_rest⟩ := run_serveNext_eq_ok (h_run .debug)
    obtain ⟨rfl, h_fresh⟩ := exists_fresh_of_advanceUntil h_advance
    -- the clock of an engine at rest has no event
    rcases h_rest with ⟨-, rfl⟩ | ⟨h_event, -⟩
    · exact h_fresh
    · exact Bool.noConfusion h_event
  | command _ h_end ih =>
    -- a command finds no channel to change
    obtain ⟨now', rfl⟩ := ih
    exact ⟨now', eq_of_exec_of_none h_end rfl⟩
  | refuse _ h_run ih =>
    obtain ⟨now', rfl⟩ := ih
    -- a start that was accepted is none that this run may take
    rcases run_start_eq_ok h_run with ⟨-, rfl⟩ | ⟨h_ok, -⟩
    · exact ⟨now', rfl⟩
    · exact absurd h_ok nofun

end Unstarted

section Beside

variable {P : Type} [PinBank P] {p : Profile} {j wraps origin m : Nat}
  {older₁ older₂ : List (Engine (Bench P))} {e₀ e₁ e₂ : Engine (Bench P)}

/-- Two runs with the same start calls and the same commands to all servos but `j`, at the points
where they meet; the states before the last one stand from the last to the first. They begin with
the same successful start of `e₀` and serve every event at once. Between two points each of them
goes on by itself, and gives commands to servo `j` where it likes, until both show the same time. -/
inductive Beside (p : Profile) (j : Nat) (e₀ : Engine (Bench P)) :
    List (Engine (Bench P)) → Engine (Bench P) → List (Engine (Bench P)) → Engine (Bench P) → Prop
  | first {pins? : Option (List Nat)} {e : Engine (Bench P)}
      (h : (Engine.start pins?).run p e₀ = .ok (.ok ()) e) : Beside p j e₀ [] e [] e
  | aside {older₁ older₂ older₁' older₂' : List (Engine (Bench P))}
      {e₁ e₂ e₁' e₂' : Engine (Bench P)} (h : Beside p j e₀ older₁ e₁ older₂ e₂)
      (h₁ : Aside p j older₁ e₁ older₁' e₁') (h₂ : Aside p j older₂ e₂ older₂' e₂')
      (h_now : e₂'.clock.now = e₁'.clock.now) : Beside p j e₀ older₁' e₁' older₂' e₂'
  | command {older₁ older₂ : List (Engine (Bench P))} {e₁ e₂ e₁' e₂' : Engine (Bench P)}
      {k : Command} (h : Beside p j e₀ older₁ e₁ older₂ e₂) (h_servo : k.servo ≠ j)
      (h₁ : k.exec.EndsIn p e₁ e₁') (h₂ : k.exec.EndsIn p e₂ e₂') :
      Beside p j e₀ (e₁ :: older₁) e₁' (e₂ :: older₂) e₂'
  | start {older₁ older₂ : List (Engine (Bench P))} {e₁ e₂ e₁' e₂' : Engine (Bench P)}
      {pins? : Option (List Nat)} {r₁ r₂ : Except StartError Unit}
      (h : Beside p j e₀ older₁ e₁ older₂ e₂) (h₁ : (Engine.start pins?).run p e₁ = .ok r₁ e₁')
      (h₂ : (Engine.start pins?).run p e₂ = .ok r₂ e₂') :
      Beside p j e₀ (e₁ :: older₁) e₁' (e₂ :: older₂) e₂'

/-- What two such runs have in common where they meet: as many periods have begun, and the tables
agree off the servo, now and where each of these periods began. -/
structure Abreast (p : Profile) (j wraps origin m : Nat) (e₀ : Engine (Bench P))
    (older₁ : List (Engine (Bench P))) (e₁ : Engine (Bench P))
    (older₂ : List (Engine (Bench P))) (e₂ : Engine (Bench P)) : Prop where
  left : PromptRun p e₀ older₁ e₁
  right : PromptRun p e₀ older₂ e₂
  paced_left : Paced wraps origin m e₁
  paced_right : Paced wraps origin m e₂
  now_eq : e₂.clock.now = e₁.clock.now
  table : AgreeOff j e₁.table e₂.table
  tables : ∀ k < m, AgreeOff j (tableInForce (e₁ :: older₁) (periodStart wraps origin k))
    (tableInForce (e₂ :: older₂) (periodStart wraps origin k))

/-- No step changes the configuration or the eligible pins. -/
theorem PromptRun.setup_eq [FixedBank P] {older : List (Engine (Bench P))} {e : Engine (Bench P)}
    (h : PromptRun p e₀ older e) :
    e.config = e₀.config ∧ Board.eligible e.board = Board.eligible e₀.board := by
  have h_setup {t t' : Panel} (h : Panel.Steps t t') :
      t'.config = t.config ∧ t'.eligible = t.eligible := by
    induction h with
    | refl => exact ⟨rfl, rfl⟩
    | tail _ h_last ih => cases h_last <;> exact ih
  exact h_setup h.events.panel_steps

namespace Abreast

theorem symm (h : Abreast p j wraps origin m e₀ older₁ e₁ older₂ e₂) :
    Abreast p j wraps origin m e₀ older₂ e₂ older₁ e₁ :=
  ⟨h.right, h.left, h.paced_right, h.paced_left, h.now_eq.symm, h.table.symm,
    fun k h_k => (h.tables k h_k).symm⟩

/-- A call in both runs that takes no time and keeps the tables in agreement. -/
theorem call {e₁' e₂' : Engine (Bench P)}
    (h : Abreast p j wraps origin m e₀ older₁ e₁ older₂ e₂)
    (h_left : PromptRun p e₀ (e₁ :: older₁) e₁') (h_right : PromptRun p e₀ (e₂ :: older₂) e₂')
    (h_paced₁ : Paced wraps origin m e₁') (h_paced₂ : Paced wraps origin m e₂')
    (h_now : e₂'.clock.now = e₁'.clock.now) (h_table : AgreeOff j e₁'.table e₂'.table) :
    Abreast p j wraps origin m e₀ (e₁ :: older₁) e₁' (e₂ :: older₂) e₂' where
  left := h_left
  right := h_right
  paced_left := h_paced₁
  paced_right := h_paced₂
  now_eq := h_now
  table := h_table
  tables k h_k := by
    -- both runs look at the same links for the starts that were met
    rw [h_paced₁.tableInForce_cons h_k, h_paced₂.tableInForce_cons h_k]
    exact h.tables k h_k

/-- **Meeting again.** While each run goes on by itself, the same periods begin in both. -/
theorem aside [FixedBank P] {older₁' older₂' : List (Engine (Bench P))}
    {e₁' e₂' : Engine (Bench P)} (h : Abreast p j wraps origin m e₀ older₁ e₁ older₂ e₂)
    (h₁ : Aside p j older₁ e₁ older₁' e₁') (h₂ : Aside p j older₂ e₂ older₂' e₂')
    (h_now : e₂'.clock.now = e₁'.clock.now) :
    ∃ m', Abreast p j wraps origin m' e₀ older₁' e₁' older₂' e₂' := by
  obtain ⟨d, h_paced₁, h_table₁, h_old₁, h_new₁⟩ := h₁.tables h.paced_left
  obtain ⟨d', h_paced₂, h_table₂, h_old₂, h_new₂⟩ := h₂.tables h.paced_right
  -- the clocks agree, and so do the numbers of the periods that have begun
  have h_same (k : Nat) : k < m + d ↔ k < m + d' := by
    rw [← h_paced₁.periodStart_le_iff, ← h_paced₂.periodStart_le_iff, h_now]
  obtain rfl : d = d' := by
    have h_lt := h_same (m + d)
    have h_gt := h_same (m + d')
    omega
  refine ⟨m + d, h.left.aside h₁, h.right.aside h₂, h_paced₁, h_paced₂, h_now,
    h_table₁.symm.trans ((h.table.iterate_step d).trans h_table₂), fun k h_k => ?_⟩
  -- the periods before this stretch, and those that both runs met during it
  rcases Nat.lt_or_ge k m with h_before | h_after
  · rw [h_old₁ k h_before, h_old₂ k h_before]
    exact h.tables k h_before
  · obtain ⟨i, rfl⟩ := Nat.exists_eq_add_of_le h_after
    exact (h_new₁ i (by omega)).symm.trans ((h.table.iterate_step i).trans (h_new₂ i (by omega)))

end Abreast

/-- **Side by side.** Two such runs have this in common wherever they meet. -/
theorem Beside.abreast [FixedBank P] (h : Beside p j e₀ older₁ e₁ older₂ e₂)
    (h_lag : e₀.board.lag = 0) (h_off : e₀.started = false) :
    ∃ m, Abreast p j e₀.config.wrapsPerPeriod.toNat e₀.clock.now m e₀ older₁ e₁ older₂ e₂ := by
  -- induction on the pair of runs; only `aside` meets new period starts
  induction h with
  | first h =>
    obtain ⟨m, h_paced, -⟩ := paced_of_promptRun h_lag h_off (.first h)
    exact ⟨m, .first h, .first h, h_paced, h_paced, rfl, .refl _, fun _ _ => .refl _⟩
  | aside _ h₁ h₂ h_now ih =>
    obtain ⟨m, h⟩ := ih
    exact h.aside h₁ h₂ h_now
  | command _ h_servo h₁ h₂ ih =>
    -- a command of another servo, or one of servo `j` in both runs: the tables keep agreeing
    obtain ⟨m, h⟩ := ih
    have h_now {t t' : Engine (Bench P)} {k : Command} (h : k.exec.EndsIn p t t') :
        t'.clock.now = t.clock.now := by
      rcases endsIn_exec h with rfl | ⟨moving, rfl⟩ <;> rfl
    refine ⟨m, h.call (.command h.left h₁) (.command h.right h₂) (h.paced_left.command h₁).1
      (h.paced_right.command h₂).1 ?_ ?_⟩
    · rw [h_now h₁, h_now h₂, h.now_eq]
    · rw [table_of_exec h₁, table_of_exec h₂]
      exact h.table.both h_servo
  | @start _ _ t₁ t₂ t₁' t₂' pins? r₁ r₂ _ h₁ h₂ ih =>
    obtain ⟨m, h⟩ := ih
    -- the answer looks at the configuration and the eligible pins, which are those of the start
    have h_answer : r₂ = r₁ := by
      obtain ⟨h_config₁, h_eligible₁⟩ := h.left.setup_eq
      obtain ⟨h_config₂, h_eligible₂⟩ := h.right.setup_eq
      rw [answer_of_run_start h₁, answer_of_run_start h₂]
      unfold checkStart
      rw [h_config₁, h_config₂, h_eligible₁, h_eligible₂]
    obtain rfl := h_answer
    refine ⟨m, h.call (.start h.left h₁) (.start h.right h₂) (h.paced_left.start h₁).1
      (h.paced_right.start h₂).1 ?_ ?_⟩
    · rw [now_of_run_start h₁, now_of_run_start h₂, h.now_eq]
    · exact h.table.start (changes_of_start h₁) (changes_of_start h₂)

end Beside

/-! ### The level changes -/

section Observed

variable {p : Profile} {j now m : Nat} {config : Config}
  {older older₁ older₂ : List (Engine (Bench (Scope PinRecorder)))}
  {e e' e₁ e₂ : Engine (Bench (Scope PinRecorder))}

/-- Where a level change belongs in a run without lag: to the fall of a servo in the table in force
where some period begins, with its time in that period, and at its start if it is a rise. -/
structure BelongsTo (wraps origin k : Nat) (inForce : Nat → ChannelTable) (f : Fall) (x : Edge) :
    Prop where
  mem : f ∈ (inForce (periodStart wraps origin k)).step.falls
  pin_eq : f.pin = x.pin
  time : ∃ T, x.time? = some T ∧ periodStart wraps origin k ≤ T ∧
    T < periodStart wraps origin (k + 1) ∧ (x.rising = true → T = periodStart wraps origin k)

/-- **Level changes side by side.** Each change of the one run belongs to a fall, and is a change of
the other run as well unless the fall is one of servo `j`. -/
theorem Abreast.exists_belongsTo {wraps : Nat} (h_wraps : config.wrapsPerPeriod.toNat = wraps)
    (h : Abreast p j wraps now m (freshObserved config 0 now) older₁ e₁ older₂ e₂) {x : Edge}
    (hx : x ∈ e₁.edges) :
    ∃ k < m, ∃ f, BelongsTo wraps now k (tableInForce (e₁ :: older₁)) f x ∧
      (f.servo ≠ j → x ∈ e₂.edges) := by
  subst h_wraps
  obtain ⟨late, h_time⟩ := onTime_of_promptRun (Nat.zero_le _) h.left
  obtain ⟨late₂, h_time₂⟩ := onTime_of_promptRun (Nat.zero_le _) h.right
  have h_late := h_time.timely.late_eq_zero h.paced_left.lag_eq
  have h_late₂ := h_time₂.timely.late_eq_zero h.paced_right.lag_eq
  -- the edge comes from a fall of some period that has begun
  obtain ⟨k, f, hf, h_x⟩ := (h_time.timely.edges_iff x).1 hx
  rw [h_late] at h_x
  have h_begun : periodStart config.wrapsPerPeriod.toNat now k ≤ e₁.clock.now := by omega
  have h_k : k < m := (h.paced_left.periodStart_le_iff k).1 h_begun
  -- a pulse is shorter than a wrap, so its edges stay inside their period
  have h_short := Fall.due_lt_ticksPerWrap (h_time.timely.short _ f hf)
  have h_length : ticksPerWrap ≤ config.wrapsPerPeriod.toNat * ticksPerWrap :=
    Nat.le_mul_of_pos_left _ h_time.steady.wraps_pos
  have h_next := periodStart_add config.wrapsPerPeriod.toNat now k 1
  refine ⟨k, h_k, f, ⟨hf, ?_, ?_⟩, fun h_servo => ?_⟩
  · -- a rise at the start, or a fall after it by the position
    rcases h_x with ⟨rfl, -⟩ | ⟨rfl, -⟩ <;> rfl
  · rcases h_x with ⟨rfl, -⟩ | ⟨rfl, -⟩
    · exact ⟨_, rfl, Nat.le_refl _, by omega, fun _ => rfl⟩
    · exact ⟨_, rfl, by omega, by omega, fun h_rising => Bool.noConfusion h_rising⟩
  · -- the other run has the same fall, unless it is one of servo `j`
    refine (h_time₂.timely.edges_iff x).2 ⟨k, f, ((h.tables k h_k).step.mem_falls h_servo).2 hf, ?_⟩
    rw [h_late₂, h.now_eq]
    exact h_x

/-- A level change that belongs to no fall of servo `j` happens in both runs or in neither. -/
theorem Abreast.mem_edges_iff {wraps : Nat} (h_wraps : config.wrapsPerPeriod.toNat = wraps)
    (h : Abreast p j wraps now m (freshObserved config 0 now) older₁ e₁ older₂ e₂) {x : Edge}
    (h₁ : ∀ k < m, ∀ f, BelongsTo wraps now k (tableInForce (e₁ :: older₁)) f x → f.servo ≠ j)
    (h₂ : ∀ k < m, ∀ f, BelongsTo wraps now k (tableInForce (e₂ :: older₂)) f x → f.servo ≠ j) :
    x ∈ e₁.edges ↔ x ∈ e₂.edges := by
  constructor
  · intro hx
    obtain ⟨k, h_k, f, h_f, h_other⟩ := h.exists_belongsTo h_wraps hx
    exact h_other (h₁ k h_k f h_f)
  · intro hx
    obtain ⟨k, h_k, f, h_f, h_other⟩ := h.symm.exists_belongsTo h_wraps hx
    exact h_other (h₂ k h_k f h_f)

/-- The pin of a level change is that of the servo it belongs to. -/
theorem BelongsTo.map_pin_eq {wraps origin k : Nat} {inForce : Nat → ChannelTable} {f : Fall}
    {x : Edge} (h : BelongsTo wraps origin k inForce f x) :
    ((inForce (periodStart wraps origin k)).get? f.servo).map Channel.pin = some x.pin := by
  obtain ⟨c, servo, h_c, -, h_f⟩ := ChannelTable.mem_falls.1 h.mem
  rw [← h.pin_eq, h_f]
  rw [ChannelTable.getElem?_active, ChannelTable.get?_step] at h_c
  obtain ⟨d, h_d, rfl⟩ := Option.map_eq_some_iff.1 h_c
  rw [h_d]
  rfl

/-- A rise on the pin of another servo than `j` belongs to no fall of servo `j`, as two servos of
one table are not on the same pin. -/
theorem BelongsTo.servo_ne_of_rise {wraps origin k i T : Nat} {inForce : Nat → ChannelTable}
    {f : Fall} {c : Channel} (h : BelongsTo wraps origin k inForce f (.rise T c.pin)) (h_i : i ≠ j)
    (h_c : T = periodStart wraps origin k →
      (inForce (periodStart wraps origin k)).get? i = some c)
    (h_sound : (inForce (periodStart wraps origin k)).Sound PinRecorder.eligiblePins) :
    f.servo ≠ j := by
  obtain ⟨S, h_S, -, -, h_start⟩ := h.time
  obtain rfl : T = S := Option.some.inj h_S
  -- one servo has the pin, as the table is sound
  have h_servo := h_sound.servo_inj h.map_pin_eq
    (congrArg (Option.map Channel.pin) (h_c (h_start rfl)))
  exact h_servo ▸ h_i

/-- A level change on a pin that servo `j` did not have as the period began belongs to no fall of
servo `j`. -/
theorem BelongsTo.servo_ne_of_pin {wraps origin k T pin : Nat} {inForce : Nat → ChannelTable}
    {f : Fall} {x : Edge} (h : BelongsTo wraps origin k inForce f x) (h_x : x.time? = some T)
    (h_pin : x.pin = pin)
    (h_free : periodStart wraps origin k ≤ T → T < periodStart wraps origin (k + 1) →
      ((inForce (periodStart wraps origin k)).get? j).map Channel.pin ≠ some pin) :
    f.servo ≠ j := by
  obtain ⟨S, h_S, h_from, h_to, -⟩ := h.time
  obtain rfl : S = T := Option.some.inj (h_S.symm.trans h_x)
  -- were it servo `j`, its channel would have the pin in that period
  rintro rfl
  exact h_free h_from h_to (h.map_pin_eq.trans (congrArg some h_pin))

/-- Every state of a prompt run is one of a run. -/
theorem PromptRun.forall_events {P : Type} [PinBank P] {e₀ e : Engine (Bench P)}
    {older : List (Engine (Bench P))} (h : PromptRun p e₀ older e) :
    ∀ t ∈ e :: older, Events p e₀ t := by
  induction h with
  | first h => exact List.forall_mem_singleton.2 (PromptRun.first h).events
  | serve h_run h ih => exact List.forall_mem_cons.2 ⟨(h_run.serve h).events, ih⟩
  | command h_run h ih => exact List.forall_mem_cons.2 ⟨(h_run.command h).events, ih⟩
  | start h_run h ih => exact List.forall_mem_cons.2 ⟨(h_run.start h).events, ih⟩

/-- In a prompt run every table in force is sound. -/
theorem PromptRun.sound_tableInForce (h : PromptRun p (freshObserved config 0 now) older e)
    (T : Nat) : (tableInForce (e :: older) T).Sound PinRecorder.eligiblePins := by
  -- each state of the run has a table that is sound, as every run of panel steps has
  have h_each (t : Engine (Bench (Scope PinRecorder))) (h_t : t ∈ e :: older) :
      t.table.Sound PinRecorder.eligiblePins := by
    have h_steps := (h.forall_events t h_t).panel_steps
    exact h_steps.sound (.new _)
  unfold tableInForce
  cases h_find : (e :: older).find? fun t => t.clock.now < T with
  | none => exact .new _
  | some t => exact h_each t (List.mem_of_find?_eq_some h_find)

/-! ### Running for some ticks -/

/-- Whatever states came before, `e'` comes after `e` in a run that goes on by itself. -/
def AsideOn (p : Profile) (j : Nat) (e e' : Engine (Bench (Scope PinRecorder))) : Prop :=
  e.clock.now < Clock.instants →
    (∀ older, ∃ older', Aside p j older e older' e') ∧ e'.clock.now < Clock.instants

instance : IsPreorder (Engine (Bench (Scope PinRecorder))) (AsideOn p j) where
  refl _ h_now := ⟨fun older => ⟨older, .refl⟩, h_now⟩
  trans e₁ e₂ e₃ h₁₂ h₂₃ h_now := by
    obtain ⟨h_first, h_mid⟩ := h₁₂ h_now
    obtain ⟨h_rest, h_end⟩ := h₂₃ h_mid
    refine ⟨fun older => ?_, h_end⟩
    obtain ⟨older₂, h_older₂⟩ := h_first older
    obtain ⟨older₃, h_older₃⟩ := h_rest older₂
    exact ⟨older₃, h_older₂.trans h_older₃⟩

/-- **Running.** A run of some ticks, which serves every event at once, is one that goes on by
itself. -/
theorem exists_aside_of_run {ticks : Nat} (h_run : (run ticks).run .debug e = .ok () e')
    (older : List (Engine (Bench (Scope PinRecorder)))) :
    ∃ older', Aside p j older e older' e' := by
  obtain ⟨limit, h_limit, h_run⟩ := Action.run_liftM_bind_eq_ok_iff.1 h_run
  obtain ⟨h_lt, rfl⟩ := Checked.run_add_debug_iff.1 h_limit
  have h_each : Action.Keeps (AsideOn p j) .debug (serveNext (e.clock.now + ticks)) := by
    -- what the debug run served, every profile serves
    intro t event t' h_next h_now
    have h_tracks := tracks_serveNext (Scope.pinsTrack_self PinRecorder.pinsTrack) (.of_lt h_lt)
    obtain ⟨h_all, h_now'⟩ := run_of_run_debug h_tracks h_now h_next
    rw [← UInt64.toNat_ofNat_of_lt' h_lt] at h_all
    exact ⟨fun older => ⟨_, .serve .refl h_all⟩, h_now'⟩
  exact (h_each.repeatWhile _ h_run (Nat.lt_of_le_of_lt (Nat.le_add_right _ _) h_lt)).1 older

/-- Two runs side by side that run for the same ticks. -/
theorem Beside.run {ticks : Nat} {e₁' e₂' : Engine (Bench (Scope PinRecorder))}
    (h : Beside p j (freshObserved config 0 now) older₁ e₁ older₂ e₂)
    (h₁ : (Engine.run ticks).run .debug e₁ = .ok () e₁')
    (h₂ : (Engine.run ticks).run .debug e₂ = .ok () e₂') :
    ∃ older₁' older₂', Beside p j (freshObserved config 0 now) older₁' e₁' older₂' e₂' := by
  -- each run goes on alone for the same time
  obtain ⟨older₁', h_aside₁⟩ := exists_aside_of_run h₁ older₁
  obtain ⟨older₂', h_aside₂⟩ := exists_aside_of_run h₂ older₂
  obtain ⟨m, h_abreast⟩ := h.abreast rfl rfl
  refine ⟨older₁', older₂', h.aside h_aside₁ h_aside₂ ?_⟩
  rw [now_of_run h_abreast.paced_left.lag_eq h₁, now_of_run h_abreast.paced_right.lag_eq h₂,
    h_abreast.now_eq]

/-! ### What two runs have in common -/

/-- **Channels apart.** Two runs without lag that begin with the same start of a new engine, serve
every event at once and differ in the commands to servo `j` alone. Wherever they meet, every other
channel is the same in both, with its pin, its target, its position and its speed. While another
servo has a pin, the pin rises at the same times in both runs. And every pin, whoever has it, rises
and falls at the same times in both runs, but for those of a period that found servo `j` on it. -/
theorem channels_apart
    (h : Beside p j (freshObserved config 0 now) older₁ e₁ older₂ e₂) :
    (∀ i ≠ j, e₂.channel? i = e₁.channel? i) ∧
      (∀ i ≠ j, ∀ T c, (tableInForce (e₁ :: older₁) T).get? i = some c →
        (.rise T c.pin ∈ e₁.edges ↔ .rise T c.pin ∈ e₂.edges)) ∧
      ∀ T pin, (∀ k, periodStart config.wrapsPerPeriod.toNat now k ≤ T →
          T < periodStart config.wrapsPerPeriod.toNat now (k + 1) →
          ((tableInForce (e₁ :: older₁) (periodStart config.wrapsPerPeriod.toNat now k)).get? j).map
            Channel.pin ≠ some pin) →
        (.rise T pin ∈ e₁.edges ↔ .rise T pin ∈ e₂.edges) ∧
          (.fall T pin ∈ e₁.edges ↔ .fall T pin ∈ e₂.edges) := by
  obtain ⟨m, h⟩ : ∃ m, Abreast p j config.wrapsPerPeriod.toNat now m (freshObserved config 0 now)
      older₁ e₁ older₂ e₂ := h.abreast rfl rfl
  generalize h_wraps : config.wrapsPerPeriod.toNat = wraps at h ⊢
  refine ⟨fun i h_i => h.table.get?_eq i h_i, fun i h_i T c h_c => ?_, fun T pin h_T => ?_⟩
  · -- the servo has its pin in both runs, and no rise on it is one of servo `j`
    refine h.mem_edges_iff h_wraps (fun k h_k f h_f => ?_) fun k h_k f h_f => ?_
    · exact h_f.servo_ne_of_rise h_i (fun h_T => h_T ▸ h_c) (h.left.sound_tableInForce _)
    · refine h_f.servo_ne_of_rise h_i (fun h_T => ?_) (h.right.sound_tableInForce _)
      exact ((h.tables k h_k).get?_eq i h_i).trans (h_T ▸ h_c)
  · -- the pin is not that of servo `j` in the period of the change, in either run
    have h_iff {x : Edge} (h_x : x.time? = some T) (h_pin : x.pin = pin) :
        x ∈ e₁.edges ↔ x ∈ e₂.edges := by
      refine h.mem_edges_iff h_wraps (fun k h_k f h_f => ?_) fun k h_k f h_f => ?_
      · exact h_f.servo_ne_of_pin h_x h_pin (h_T k)
      · refine h_f.servo_ne_of_pin h_x h_pin ?_
        rw [(h.tables k h_k).pin_eq]
        exact h_T k
    exact ⟨h_iff rfl rfl, h_iff rfl rfl⟩

/-! ### Two runs, written down -/

/-- Whether a step may be taken by one run alone. -/
def PromptOp.isAside (j : Nat) : PromptOp → Bool
  | serve _ => true
  | command k => k.servo = j
  | start _ => false

/-- A run that goes on by itself is replayed like any other. -/
theorem aside_of_replayPrompt? {ops : List PromptOp}
    {s s' : List (Engine (Bench (Scope PinRecorder))) × Engine (Bench (Scope PinRecorder))}
    (h : Aside p j older e s.1 s.2) (h_ops : ops.all (PromptOp.isAside j) = true)
    (h_replay : replayPrompt? p ops s = some s') : Aside p j older e s'.1 s'.2 := by
  -- induction on the list of operations
  induction ops generalizing s with
  | nil =>
    cases h_replay
    exact h
  | cons op ops ih =>
    obtain ⟨h_op, h_ops⟩ := Bool.and_eq_true_iff.1 h_ops
    obtain ⟨t, h_first, h_rest⟩ := Option.bind_eq_some_iff.1 h_replay
    obtain ⟨e, h_next, rfl⟩ := Option.map_eq_some_iff.1 h_first
    refine ih ?_ h_ops h_rest
    -- the flag of the operation says which of them are aside
    cases op with
    | serve limit =>
      obtain ⟨⟨event, t⟩, h_result, rfl⟩ := Option.map_eq_some_iff.1 h_next
      exact .serve h (run_of_agreed? h_result)
    | command k =>
      obtain ⟨⟨⟨⟩, t⟩, h_result, rfl⟩ := Option.map_eq_some_iff.1 h_next
      exact .command h (of_decide_eq_true h_op)
        (.inl ⟨⟨⟩, Action.run_eq_ok_of_result? h_result⟩)
    | start pins? => cases h_op

/-- The states of two runs, each from the last to the first. -/
abbrev TwoRuns : Type :=
  (List (Engine (Bench (Scope PinRecorder))) × Engine (Bench (Scope PinRecorder))) ×
    (List (Engine (Bench (Scope PinRecorder))) × Engine (Bench (Scope PinRecorder)))

/-- What happens to two runs side by side, written down. -/
inductive BesideOp where
  /-- Each run goes on by itself. -/
  | aside (left right : List PromptOp)
  /-- The same call in both. -/
  | both (op : PromptOp)

/-- The two runs one step on, if it returns in both, is one that they may take and lets them meet.
-/
def BesideOp.next? (p : Profile) (j : Nat) (s : TwoRuns) : BesideOp → Option TwoRuns
  | aside left right => do
    let s₁ ← replayPrompt? p left s.1
    let s₂ ← replayPrompt? p right s.2
    if left.all (PromptOp.isAside j) && right.all (PromptOp.isAside j) &&
      s₂.2.clock.now == s₁.2.clock.now then some (s₁, s₂) else none
  | both op => do
    let e₁ ← op.next? p s.1.2
    let e₂ ← op.next? p s.2.2
    if op.isAside j then none else some ((s.1.2 :: s.1.1, e₁), (s.2.2 :: s.2.1, e₂))

/-- The two runs after some steps. -/
def replayBeside? (p : Profile) (j : Nat) (ops : List BesideOp) (s : TwoRuns) : Option TwoRuns :=
  ops.foldlM (BesideOp.next? p j) s

theorem beside_of_next? {e₀ : Engine (Bench (Scope PinRecorder))} {op : BesideOp} {s s' : TwoRuns}
    (h : Beside p j e₀ s.1.1 s.1.2 s.2.1 s.2.2) (h_next : op.next? p j s = some s') :
    Beside p j e₀ s'.1.1 s'.1.2 s'.2.1 s'.2.2 := by
  -- what the two runs do is checked when they are written down
  cases op with
  | aside left right =>
    obtain ⟨s₁, h_left, h_next⟩ := Option.bind_eq_some_iff.1 h_next
    obtain ⟨s₂, h_right, h_next⟩ := Option.bind_eq_some_iff.1 h_next
    obtain ⟨h_may, ⟨⟩⟩ := Option.ite_none_right_eq_some.1 h_next
    obtain ⟨h_may, h_now⟩ := Bool.and_eq_true_iff.1 h_may
    obtain ⟨h_may₁, h_may₂⟩ := Bool.and_eq_true_iff.1 h_may
    exact h.aside (aside_of_replayPrompt? .refl h_may₁ h_left)
      (aside_of_replayPrompt? .refl h_may₂ h_right) (eq_of_beq h_now)
  | both op =>
    obtain ⟨e₁, h_left, h_next⟩ := Option.bind_eq_some_iff.1 h_next
    obtain ⟨e₂, h_right, h_next⟩ := Option.bind_eq_some_iff.1 h_next
    obtain ⟨h_may, ⟨⟩⟩ := Option.ite_none_left_eq_some.1 h_next
    -- a wait never is a step of both
    cases op with
    | serve limit => exact absurd rfl h_may
    | command k =>
      obtain ⟨⟨⟨⟩, t₁⟩, h_result₁, rfl⟩ := Option.map_eq_some_iff.1 h_left
      obtain ⟨⟨⟨⟩, t₂⟩, h_result₂, rfl⟩ := Option.map_eq_some_iff.1 h_right
      exact h.command (fun h_servo => h_may (decide_eq_true h_servo))
        (.inl ⟨⟨⟩, Action.run_eq_ok_of_result? h_result₁⟩)
        (.inl ⟨⟨⟩, Action.run_eq_ok_of_result? h_result₂⟩)
    | start pins? =>
      obtain ⟨⟨r₁, t₁⟩, h_result₁, rfl⟩ := Option.map_eq_some_iff.1 h_left
      obtain ⟨⟨r₂, t₂⟩, h_result₂, rfl⟩ := Option.map_eq_some_iff.1 h_right
      exact h.start (Action.run_eq_ok_of_result? h_result₁) (Action.run_eq_ok_of_result? h_result₂)

theorem beside_of_replayBeside? {e₀ : Engine (Bench (Scope PinRecorder))} {ops : List BesideOp}
    {s s' : TwoRuns} (h : Beside p j e₀ s.1.1 s.1.2 s.2.1 s.2.2)
    (h_replay : replayBeside? p j ops s = some s') :
    Beside p j e₀ s'.1.1 s'.1.2 s'.2.1 s'.2.2 := by
  induction ops generalizing s with
  | nil =>
    cases h_replay
    exact h
  | cons op ops ih =>
    obtain ⟨t, h_first, h_rest⟩ := Option.bind_eq_some_iff.1 h_replay
    exact ih (beside_of_next? h h_first) h_rest

/-- Two runs on pins 2 and 3, in which servo 0 is given targets of 20000 and of 30000 ticks and
servo 1 one of 25000, until the pulses of one period are over. -/
def shortAndLong : Option TwoRuns :=
  replayBeside? .debug 0
    [.both (.command (.targetTicks 1 25000)),
      .aside [.command (.targetTicks 0 20000), .serve 70000]
        [.serve 40000, .command (.targetTicks 0 30000), .serve 70000],
      .aside [.serve 100000, .serve 100000, .serve 100000]
        [.serve 100000, .serve 100000, .serve 100000]]
    (([], twoPins), ([], twoPins))

theorem isSome_shortAndLong : shortAndLong.isSome = true := by decide +kernel

theorem channels_apart_shortAndLong :
    ∃ older₁ e₁ older₂ e₂,
      Beside .debug 0 (freshObserved { wrapsPerPeriod := 1 } 0 100) older₁ e₁ older₂ e₂ ∧
      e₁.edges = [.rise 65636 2, .rise 65636 3, .fall 85636 2, .fall 90636 3] ∧
      e₂.edges = [.rise 65636 2, .rise 65636 3, .fall 90636 3, .fall 95636 2] ∧
      e₂.channel? 1 = e₁.channel? 1 ∧
      (.fall 90636 3 ∈ e₁.edges ↔ .fall 90636 3 ∈ e₂.edges) := by
  have h := beside_of_replayBeside? (s := (([], twoPins), ([], twoPins))) (.first run_start_twoPins)
    (Option.some_get isSome_shortAndLong).symm
  -- the theorem gives the channels and the fall, and the edges are computed
  obtain ⟨h_channel, -, h_edges⟩ := channels_apart h
  refine ⟨_, _, _, _, h, by decide +kernel, by decide +kernel, h_channel 1 (by decide), ?_⟩
  refine (h_edges 90636 3 fun k h_from h_to => ?_).2
  -- the change is one of the first period, in which servo 0 is on pin 2
  obtain rfl : k = 0 := by
    change 100 + 65536 * (1 + k * 1) ≤ 90636 at h_from
    omega
  decide +kernel

/-- Two runs on pins 2 and 3, in which servo 0 is given targets of 20000 and of 30000 ticks. In the
middle of its pulse, the servos change their pins. -/
def handedOver : Option TwoRuns :=
  replayBeside? .debug 0
    [.aside [.command (.targetTicks 0 20000), .serve 70000]
        [.command (.targetTicks 0 30000), .serve 70000],
      .both (.start (some [3, 2])), .aside [.serve 90000, .serve 90000] [.serve 90000]]
    (([], twoPins), ([], twoPins))

theorem isSome_handedOver : handedOver.isSome = true := by decide +kernel

/-- **Pins handed over.** A pin that a start gives to another servo in the middle of a pulse still
falls when the pulse ends, which the commands to the servo that had it before have decided. So the
pins of the other servos need not fall at the same times in both runs. -/
theorem not_forall_channels_apart :
    ¬∀ {p : Profile} {j now : Nat} {config : Config}
      {older₁ older₂ : List (Engine (Bench (Scope PinRecorder)))}
      {e₁ e₂ : Engine (Bench (Scope PinRecorder))},
      Beside p j (freshObserved config 0 now) older₁ e₁ older₂ e₂ → ∀ i ≠ j,
        e₂.channel? i = e₁.channel? i ∧
        ∀ T c, (tableInForce (e₁ :: older₁) T).get? i = some c →
          (.rise T c.pin ∈ e₁.edges ↔ .rise T c.pin ∈ e₂.edges) ∧
            (.fall T c.pin ∈ e₁.edges ↔ .fall T c.pin ∈ e₂.edges) := by
  intro h_all
  have h := beside_of_replayBeside? (s := (([], twoPins), ([], twoPins))) (.first run_start_twoPins)
    (Option.some_get isSome_handedOver).symm
  -- for servo 1 it would carry the fall over to the other run
  have h_fall := ((h_all h 1 (by decide)).2 85636 { pin := 2 } (by decide +kernel)).2
  have h_left : .fall 85636 2 ∈ (handedOver.get isSome_handedOver).1.2.edges := by decide +kernel
  have h_right : .fall 85636 2 ∉ (handedOver.get isSome_handedOver).2.2.edges := by decide +kernel
  exact h_right (h_fall.1 h_left)

end Observed

end Engine

end ServoPulse
