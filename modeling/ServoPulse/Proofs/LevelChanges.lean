import ServoPulse.Proofs.PendingFalls
import ServoPulse.Proofs.Scope

/-!
# Level changes of a run

The level changes that a scope sees while an engine runs. Every step only adds changes, each
of them stamped with a time at or after the start of the step (`Extends`). A pin rises in an
interrupt that begins a period and nowhere else, so each rise of a run can be traced back to
the interrupt that made it (`exists_interrupt_of_rise`).
-/

namespace ServoPulse

namespace Engine

variable {P : Type} [PinBank P] {p : Profile} {e e' : Engine (Bench (Scope P))}

/-- The level changes so far. -/
abbrev edges (e : Engine (Bench (Scope P))) : List Edge := e.pins.edges

/-- A new engine on new recorded pins under observation. -/
def freshObserved (config : Config) (lag now : Nat) : Engine (Bench (Scope PinRecorder)) :=
  fresh config lag now { pins := {} }

/-- A change that is stamped with the time `s` or a later one. -/
def StampedFrom (s : Nat) (x : Edge) : Prop := ∃ t, x.time? = some t ∧ s ≤ t

/-- A pin that goes low at the time `s` or a later one. -/
def FallFrom (s : Nat) (x : Edge) : Prop := StampedFrom s x ∧ x.rising = false

theorem StampedFrom.mono {s t : Nat} {x : Edge} (h : StampedFrom t x) (hst : s ≤ t) :
    StampedFrom s x := by
  obtain ⟨u, hu, htu⟩ := h
  exact ⟨u, hu, Nat.le_trans hst htu⟩

/-- Time has gone on, and what changed since is stamped with a time since. -/
structure Extends (e e' : Engine (Bench (Scope P))) : Prop where
  now_le : e.clock.now ≤ e'.clock.now
  adds : Adds (StampedFrom e.clock.now) e.edges e'.edges

omit [PinBank P] in
theorem Extends.of_eq (h_now : e.clock.now ≤ e'.clock.now) (h_edges : e'.edges = e.edges) :
    Extends e e' :=
  ⟨h_now, .of_eq h_edges⟩

omit [PinBank P] in
theorem Extends.trans {e₁ e₂ e₃ : Engine (Bench (Scope P))} (h₁₂ : Extends e₁ e₂)
    (h₂₃ : Extends e₂ e₃) : Extends e₁ e₃ where
  now_le := Nat.le_trans h₁₂.now_le h₂₃.now_le
  adds := h₁₂.adds.trans (h₂₃.adds.mono fun _ hx => hx.mono h₁₂.now_le)

variable [LawfulPinBank P]

/-! ### The interrupt -/

theorem lower_adds {f : Fall} {rest : List Fall} (h : Tied e) (h_queue : e.queue.events = f :: rest)
    (h_run : (lower f rest).run p e = .ok () e') :
    Adds (fun x => x = .fall e.clock.now f.pin) e.edges e'.edges := by
  have h_out : LawfulPinBank.isOutput e.pins f.pin :=
    h.pending_output f.pin (by rw [h_queue, List.map_cons]; exact List.mem_cons_self)
  obtain ⟨pins, h_pins, rfl⟩ := run_lower_eq_ok_iff.1 h_run
  change Adds _ e.edges pins.edges
  rw [Scope.drive_edges h_out h_pins]
  -- the pin was low already and nothing is recorded, or its fall is
  split
  · exact .refl _
  · exact ⟨_, rfl, fun x hx => List.mem_singleton.1 hx⟩

/-- Settling lowers pins, and leaves the channels and the timer alone. -/
structure SettledFrom (e e' : Engine (Bench (Scope P))) : Prop where
  now_le : e.clock.now ≤ e'.clock.now
  adds : Adds (FallFrom e.clock.now) e.edges e'.edges
  table_eq : e'.table = e.table
  origin_eq : e'.clock.origin = e.clock.origin

theorem settledFrom_of_run_fallDue (h : Tied e) (h_run : fallDue.run .debug e = .ok () e') :
    SettledFrom e e' := by
  have h_stable : SettleStable fun t => Tied t ∧ SettledFrom e t := by
    -- what settling may do: lower the first fall, or let the clock pass for the lag
    refine ⟨fun {t t' f rest} ⟨h_tied, h_from⟩ h_queue _ _ h_lower =>
      ⟨h_tied.lower h_queue h_lower, ?_⟩,
      fun {t f rest limit clock} ⟨h_tied, h_from⟩ _ _ _ _ h_pass =>
      ⟨h_tied.of_time _ _ _, ?_⟩⟩
    · have h_adds := lower_adds h_tied h_queue h_lower
      obtain ⟨pins, -, rfl⟩ := run_lower_eq_ok_iff.1 h_lower
      refine ⟨h_from.now_le, h_from.adds.trans (h_adds.mono fun x hx => ?_), h_from.table_eq,
        h_from.origin_eq⟩
      -- the fall carries an instant of this interrupt
      rw [hx]
      exact ⟨⟨_, rfl, h_from.now_le⟩, rfl⟩
    · have h_passes := Clock.keeps_passUntil limit h_pass
      exact ⟨Nat.le_trans h_from.now_le h_passes.now_le, h_from.adds, h_from.table_eq,
        h_passes.origin_eq.trans h_from.origin_eq⟩
  obtain ⟨e₁, ⟨-, h₁⟩, h_end⟩ :=
    settled_of_run_fallDue h_stable ⟨h, Nat.le_refl _, .refl _, rfl, rfl⟩ h_run
  -- all three ends leave clock and pins as they are
  cases h_end <;> exact ⟨h₁.now_le, h₁.adds, h₁.table_eq, h₁.origin_eq⟩

/-- A period begins with falls and then rises, all at once. -/
theorem beginPeriod_adds (h : Tied e) (h_run : beginPeriod.run p e = .ok () e') :
    ∃ low : Scope P, Adds (FallFrom e.clock.now) e.edges low.edges ∧
      Adds (fun x => ∃ f ∈ e.table.step.falls, x = .rise e.clock.now f.pin) low.edges e'.edges := by
  obtain ⟨low, high, h_low, h_high, rfl⟩ := run_beginPeriod_eq_ok h_run
  -- the pins that rise have channels, so they are outputs
  have h_sublist := e.table.step.map_pin_falls_sublist
  rw [e.table.map_pin_step] at h_sublist
  have h_out : ∀ pin ∈ e.table.step.falls.map Fall.pin, LawfulPinBank.isOutput low pin :=
    fun pin h_pin => (PinBank.driveAll_isOutput h_low pin).2
      (h.prepared.output pin (h_sublist.subset h_pin))
  -- the old falls are recorded first, the rises after them
  refine ⟨low, (Scope.driveAll_adds h.pending_output h_low).mono ?_,
    (Scope.driveAll_adds h_out h_high).mono ?_⟩
  · rintro x ⟨pin, -, rfl⟩
    exact ⟨⟨_, rfl, Nat.le_refl _⟩, rfl⟩
  · rintro x ⟨pin, h_pin, rfl⟩
    obtain ⟨f, hf, rfl⟩ := List.mem_map.1 h_pin
    exact ⟨f, hf, rfl⟩

/-- The engine in which the interrupt begins a period. -/
def opening (e : Engine (Bench P)) : Engine (Bench P) := { e.quiet with wrap := 0 }

/-- An interrupt only lowers pins, unless it begins a period. -/
theorem interrupt_cases (h : Orderly e) (h_run : interrupt.run .debug e = .ok () e') :
    (e.clock.now ≤ e'.clock.now ∧ Adds (FallFrom e.clock.now) e.edges e'.edges) ∨
      ∃ mid, e.clock.overflowPending = true ∧ Tied e.opening ∧
        beginPeriod.run .debug e.opening = .ok () mid ∧ fallDue.run .debug mid = .ok () e' := by
  have h_quiet : Tied e.quiet := h.tied.of_time _ _ _
  rcases run_interrupt_eq_ok h_run with
    ⟨-, rfl⟩ | ⟨-, -, h_fall⟩ | ⟨-, h_overflow, e₁, h_turn, h_fall⟩
  · -- nothing to serve
    exact .inl ⟨Nat.le_refl _, .refl _⟩
  · -- a match alone: the falls that are due
    have h_from := settledFrom_of_run_fallDue h_quiet h_fall
    exact .inl ⟨h_from.now_le, h_from.adds⟩
  · rcases run_turn_eq_ok h_turn with ⟨-, rfl⟩ | ⟨-, h_begin⟩
    · -- a turn inside the period, and then the falls that are due
      have h_later : Tied { e.quiet with wrap := min (e.quiet.wrap + 1) 255 } :=
        h_quiet.of_time _ _ _
      have h_from := settledFrom_of_run_fallDue h_later h_fall
      exact .inl ⟨h_from.now_le, h_from.adds⟩
    · -- the turn ends the period
      exact .inr ⟨e₁, h_overflow, h.tied.of_time _ _ _, h_begin, h_fall⟩

theorem extends_interrupt (h : Orderly e) (h_run : interrupt.run .debug e = .ok () e') :
    Extends e e' := by
  rcases interrupt_cases h h_run with ⟨h_now, h_adds⟩ | ⟨mid, -, h_opening, h_begin, h_fall⟩
  · exact ⟨h_now, h_adds.mono fun _ => And.left⟩
  · -- the left-over falls come first, then the rises, and then what has come due since
    have h_from := settledFrom_of_run_fallDue (h_opening.beginPeriod h_begin).1 h_fall
    obtain ⟨low, h_low, h_high⟩ := beginPeriod_adds h_opening h_begin
    have h_clock := (periodBegun_of_run h_begin).clock_eq
    have h_now := h_from.now_le
    have h_falls := h_from.adds
    rw [h_clock] at h_now h_falls
    refine ⟨h_now, (h_low.mono fun _ => And.left).trans ((h_high.mono ?_).trans
      (h_falls.mono fun _ => And.left))⟩
    rintro x ⟨f, -, rfl⟩
    exact ⟨_, rfl, Nat.le_refl _⟩

/-! ### The other steps -/

theorem edges_relist (h_list : Relisted e e') : e'.edges = e.edges := by
  cases h_list with
  | resume moving => rfl
  | list _ _ h_eligible => exact Scope.prepareAll_edges h_eligible

/-- A start makes pins outputs and launches the timer, and changes no level. -/
theorem edges_start {pins? : Option (List Nat)} {answer : Except StartError Unit}
    (h_run : (start pins?).run p e = .ok answer e') : e'.edges = e.edges := by
  rcases run_start_eq_ok h_run with ⟨-, rfl⟩ | ⟨-, -, t, h_list, ⟨-, rfl⟩ | ⟨-, starts, rfl⟩⟩
  · rfl
  · exact edges_relist h_list
  · have h_edges : t.edges = e.edges := edges_relist h_list
    exact h_edges

omit [PinBank P] [LawfulPinBank P] in
theorem edges_exec {k : Command} (h_run : k.exec.EndsIn p e e') : e'.edges = e.edges := by
  rcases endsIn_exec h_run with rfl | ⟨moving, rfl⟩ <;> rfl

/-- A shutdown only lowers pins. -/
theorem shutDown_adds (h : Prepared e) (h_run : shutDown.run p e = .ok () e') :
    e'.clock.now = e.clock.now ∧ Adds (FallFrom e.clock.now) e.edges e'.edges := by
  obtain ⟨pins, h_pins, rfl⟩ := run_shutDown_eq_ok h_run
  refine ⟨rfl, (Scope.driveAll_adds h.output h_pins).mono ?_⟩
  rintro x ⟨pin, -, rfl⟩
  exact ⟨⟨_, rfl, Nat.le_refl _⟩, rfl⟩

theorem extends_stableUnder (e₀ : Engine (Bench (Scope P))) :
    StableUnder p false Orderly (Extends e₀) where
  advance {e limit event clock} _ h h_run := by
    have h_now : e.clock.now ≤ clock.now := (Clock.keeps_advanceUntil limit h_run).now_le
    exact h.trans (.of_eq h_now rfl)
  interrupt h_orderly h h_run := h.trans (extends_interrupt h_orderly h_run)
  relist {e e'} _ h h_list := by
    -- a new list changes no level
    have h_now : e.clock.now ≤ e'.clock.now := by
      cases h_list <;> exact Nat.le_refl _
    exact h.trans (.of_eq h_now (edges_relist h_list))
  launch _ h _ := h.trans (.of_eq (Nat.le_refl _) rfl)
  command _ h := h.trans (.of_eq (Nat.le_refl _) rfl)
  shutDown h_orderly h _ h_run := by
    obtain ⟨h_now, h_adds⟩ := shutDown_adds h_orderly.tied.prepared h_run
    exact h.trans ⟨Nat.le_of_eq h_now.symm, h_adds.mono fun _ => And.left⟩

theorem Orderly.extends (h : Orderly e) (h_steps : Steps p false e e') : Extends e e' :=
  ((Orderly.stable.and (extends_stableUnder e)).steps ⟨h, .of_eq (Nat.le_refl _) rfl⟩ h_steps).2

/-! ### Rises -/

omit [PinBank P] [LawfulPinBank P] in
/-- A place past the end of a list that gains no rises holds no rise. -/
theorem not_rise_of_adds {old new : List Edge} {s n : Nat} {x : Edge} (h_rising : x.rising = true)
    (h : Adds (FallFrom s) old new) (h_new : old.length ≤ n) : new[n]? ≠ some x :=
  fun h_x => absurd (h_rising.symm.trans (h.of_getElem h_x h_new).2) nofun

theorem exists_interrupt_of_moments {n : Nat} {x : Edge} (h : Orderly e) (h_moments : Moments e e')
    (h_rising : x.rising = true) (h_rise : e'.edges[n]? = some x) (h_new : e.edges.length ≤ n) :
    ∃ e₁ e₂, Moments e e₁ ∧ (∀ q, interrupt.run q e₁ = .ok () e₂) ∧ Moments e₂ e' ∧
      e₁.edges.length ≤ n ∧ n < e₂.edges.length := by
  induction h_moments with
  | refl =>
    -- nothing was added
    exact absurd h_rise (not_rise_of_adds (s := 0) h_rising (.refl _) h_new)
  | @tail b c h_before h_last ih =>
    -- either the rise was there before the last moment, or that moment made it
    by_cases h_old : n < b.edges.length
    · have h_b := (Orderly.stable (p := .debug)).moments h h_before
      have h_c := h_b.extends (p := .debug) (Moments.steps (.single h_last))
      rw [h_c.adds.getElem?_eq h_old] at h_rise
      obtain ⟨e₁, e₂, h_first, h_run, h_rest, h_place⟩ := ih h_rise
      exact ⟨e₁, e₂, h_first, h_run, h_rest.tail h_last, h_place⟩
    · have h_place := Nat.le_of_not_lt h_old
      -- a rise comes from an interrupt, never from time alone
      cases h_last with
      | advance h_run =>
        obtain ⟨limit, clock, -, rfl⟩ := run_advance_eq_ok (h_run .debug)
        exact absurd h_rise (not_rise_of_adds (s := 0) h_rising (.refl _) h_place)
      | interrupt h_run =>
        refine ⟨b, c, h_before, h_run, .refl, h_place, ?_⟩
        exact (List.getElem?_eq_some_iff.1 h_rise).1

/-- A stop only lowers pins when it shuts the engine down, so a pin that rises in it rises
while it waits. -/
theorem exists_interrupt_of_stop {n : Nat} {x : Edge}
    {wait : Nat → Action (Engine (Bench (Scope P))) Unit} {report : StopReport} (h : Orderly e)
    (h_wait : ∀ k, Action.Keeps Moments p (wait k)) (h_forced : report.forced = false)
    (h_run : (stop wait).run p e = .ok report e') (h_rising : x.rising = true)
    (h_rise : e'.edges[n]? = some x) (h_new : e.edges.length ≤ n) :
    ∃ e₁ e₂, Moments e e₁ ∧ (∀ q, interrupt.run q e₁ = .ok () e₂) ∧ Steps p false e₂ e' ∧
      e₁.edges.length ≤ n ∧ n < e₂.edges.length := by
  -- a stop that waits does so by moments, and shuts down when nothing is in flight
  rcases run_stop_of_not_forced h_wait h.tied.prepared.valid h_forced h_run with
    rfl | ⟨mid, h_moments, h_on, h_flight, h_down⟩
  · exact absurd h_rise (not_rise_of_adds (s := 0) h_rising (.refl _) h_new)
  have h_mid := Orderly.stable.moments (p := p) h h_moments
  have h_adds := (shutDown_adds h_mid.tied.prepared h_down).2
  -- the shutdown adds no rise, so this one was there before
  have h_waited : n < mid.edges.length := by
    by_contra h_late
    exact not_rise_of_adds h_rising h_adds (Nat.le_of_not_lt h_late) h_rise
  rw [h_adds.getElem?_eq h_waited] at h_rise
  obtain ⟨e₁, e₂, h_first, h_serve, h_rest, h_place⟩ :=
    exists_interrupt_of_moments h h_moments h_rising h_rise h_new
  have h_stop : (stop wait).run p mid = .ok ⟨0, false⟩ e' :=
    run_stop_of_shutDown h_on h_flight h_down
  exact ⟨e₁, e₂, h_first, h_serve, (Moments.steps h_rest).tail (.stop h_wait h_stop nofun), h_place⟩

/-- **Rises.** A pin that rises in a run rises in one of its interrupts. -/
theorem exists_interrupt_of_rise {n : Nat} {x : Edge} (h : Orderly e)
    (h_steps : Steps p false e e') (h_rising : x.rising = true) (h_rise : e'.edges[n]? = some x)
    (h_new : e.edges.length ≤ n) :
    ∃ e₁ e₂, Steps p false e e₁ ∧ (∀ q, interrupt.run q e₁ = .ok () e₂) ∧ Steps p false e₂ e' ∧
      e₁.edges.length ≤ n ∧ n < e₂.edges.length := by
  induction h_steps with
  | refl => exact absurd h_rise (not_rise_of_adds (s := 0) h_rising (.refl _) h_new)
  | @tail b c h_before h_last ih =>
    -- either the rise was there before the last step, or that step made it
    have h_b := Orderly.stable.steps h h_before
    by_cases h_old : n < b.edges.length
    · rw [(h_b.extends (.single h_last)).adds.getElem?_eq h_old] at h_rise
      obtain ⟨e₁, e₂, h_first, h_run, h_rest, h_place⟩ := ih h_rise
      exact ⟨e₁, e₂, h_first, h_run, h_rest.tail h_last, h_place⟩
    have h_place := Nat.le_of_not_lt h_old
    -- a step that changes no level has not made the rise
    have h_same (h_edges : c.edges = b.edges) : False := by
      rw [h_edges] at h_rise
      exact not_rise_of_adds (s := 0) h_rising (.refl _) h_place h_rise
    cases h_last with
    | moment h_moment =>
      -- the moments are looked through in their own right
      obtain ⟨e₁, e₂, h_first, h_run, h_rest, h_place⟩ :=
        exists_interrupt_of_moments h_b (.single h_moment) h_rising h_rise h_place
      exact ⟨e₁, e₂, h_before.trans (Moments.steps h_first), h_run, Moments.steps h_rest, h_place⟩
    | start h_run => exact (h_same (edges_start h_run)).elim
    | command h_run => exact (h_same (edges_exec h_run)).elim
    | @stop wait report h_wait h_run h_cuts =>
      -- the run has no forced stop, so this one waited
      have h_forced := Bool.eq_false_iff.2 fun h_cut => Bool.noConfusion (h_cuts h_cut)
      obtain ⟨e₁, e₂, h_first, h_serve, h_rest, h_place⟩ :=
        exists_interrupt_of_stop h_b h_wait h_forced h_run h_rising h_rise h_place
      exact ⟨e₁, e₂, h_before.trans (Moments.steps h_first), h_serve, h_rest, h_place⟩

end Engine

end ServoPulse
