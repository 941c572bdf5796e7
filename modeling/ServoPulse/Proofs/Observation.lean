import ServoPulse.Proofs.BenchTracking
import ServoPulse.Proofs.LevelChanges

/-!
# Runs under observation

A scope is not noticed by the engine on the pins it watches. So every run of an engine on
plain recorded pins is, but for the scope, a run of the engine on the same pins under a scope
(`exists_observed_steps`, `exists_observed_promptRun`), and what a scope sees in every run
holds of the level changes of plain runs.
-/

namespace ServoPulse

variable {p : Profile} {Q : Profile → Prop}

/-- **Scopes are not noticed.** Pins under a scope do what they do without it. -/
theorem Scope.pinsTrack {P : Type} [PinBank P] (h : PinsTrack (fun r : P => r) p Q) :
    PinsTrack (Scope.pins (P := P)) p Q := by
  -- a scope sees what its bank does and adds what it saw; the bank below is the same
  have h_see {x : Action P Unit} {see : P → Scope P → Scope P} (h_pins : ∀ r s, (see r s).pins = r)
      (h : Action.Tracks (fun r s => r = s) p Q x x) :
      Action.Tracks (fun r s => r = s.pins) p Q x (Action.zoom Scope.pins see x) := by
    rintro _ s rfl a r h_run
    obtain ⟨_, h_all, rfl⟩ := h rfl h_run
    refine ⟨see r s, fun q hq => ?_, (h_pins r s).symm⟩
    exact Action.run_zoom_eq_ok_iff.2 ⟨r, h_all q hq, rfl⟩
  exact
    { eligible := fun _ => rfl
      configureOutput := fun _ _ => rfl
      setHigh := fun h_time pin => h_see (fun _ _ => rfl) (h.setHigh h_time pin)
      setLow := fun h_time pin => h_see (fun _ _ => rfl) (h.setLow h_time pin)
      isHigh := fun _ _ => rfl }

/-- Under a scope, pins that track themselves still do. -/
theorem Scope.pinsTrack_self {P : Type} [PinBank P] (h : PinsTrack (fun r : P => r) p Q) :
    PinsTrack (fun s : Scope P => s) p Q := by
  -- both banks are seen by the same scope, so it records the same
  have h_see {x : Action P Unit} (see : P → Scope P → Scope P)
      (h : Action.Tracks (fun r s => r = s) p Q x x) :
      Action.Tracks (fun r s => r = s) p Q (Action.zoom Scope.pins see x)
        (Action.zoom Scope.pins see x) :=
    h.zoom (fun _ _ h_eq => congrArg Scope.pins h_eq) fun _ _ _ _ h_eq h_pins =>
      congrArg₂ see h_pins h_eq
  exact
    { eligible := fun _ => rfl
      configureOutput := fun _ _ => rfl
      setHigh := fun h_time pin => h_see _ (h.setHigh h_time pin)
      setLow := fun h_time pin => h_see _ (h.setLow h_time pin)
      isHigh := fun _ _ => rfl }

theorem PinRecorder.scopeTracks : PinsTrack (Scope.pins (P := PinRecorder)) p Q :=
  Scope.pinsTrack PinRecorder.pinsTrack

namespace Engine

/-- The engine without the scope on its pins. -/
abbrev bare {P : Type} (t : Engine (Bench (Scope P))) : Engine (Bench P) := t.mapPins Scope.pins

variable {t : Engine (Bench (Scope PinRecorder))} {e e' : Engine (Bench PinRecorder)}

theorem exists_moment_of_bare (h_now : t.clock.now < Clock.instants) (h : Moment t.bare e') :
    ∃ t', Moment t t' ∧ t'.bare = e' ∧ t'.clock.now < Clock.instants := by
  have h_time := InTime.of_lt h_now
  -- either moment is one of the board alone, on which nothing was watched
  cases h with
  | @advance ticks event h =>
    obtain ⟨t', h_all, h_bare, h_time'⟩ :=
      exists_run_of_mapPins (tracks_advance ticks) h_time (h .debug)
    exact ⟨t', .advance fun q => h_all q trivial, h_bare, h_time'.lt⟩
  | interrupt h =>
    obtain ⟨t', h_all, h_bare, h_time'⟩ :=
      exists_run_of_mapPins PinRecorder.scopeTracks.board.interrupt h_time
        (h .debug)
    exact ⟨t', .interrupt fun q => h_all q trivial, h_bare, h_time'.lt⟩

theorem exists_moments_of_bare (h_now : t.clock.now < Clock.instants) (h : Moments t.bare e') :
    ∃ t', Moments t t' ∧ t'.bare = e' ∧ t'.clock.now < Clock.instants := by
  induction h with
  | refl => exact ⟨t, .refl, rfl, h_now⟩
  | tail _ h_last ih =>
    obtain ⟨t₁, h_first, rfl, h_now₁⟩ := ih
    obtain ⟨t₂, h_moment, h_bare, h_now₂⟩ := exists_moment_of_bare h_now₁ h_last
    exact ⟨t₂, h_first.tail h_moment, h_bare, h_now₂⟩

theorem now_of_run_start {P : Type} [PinBank P] {e e' : Engine (Bench P)}
    {pins? : Option (List Nat)} {r : Except StartError Unit}
    (h : (start pins?).run p e = .ok r e') : e'.clock.now = e.clock.now := by
  -- a start takes no time, whatever it does
  rcases run_start_eq_ok h with ⟨-, rfl⟩ | ⟨-, -, e₁, h_list, h_rest⟩
  · rfl
  have h_listed : e₁.clock.now = e.clock.now := by cases h_list <;> rfl
  rcases h_rest with ⟨-, rfl⟩ | ⟨-, starts, rfl⟩
  · exact h_listed
  · exact h_listed

/-- A call of the engine on plain pins is a call of the engine under observation. -/
theorem exists_start_of_bare {pins? : Option (List Nat)} {r : Except StartError Unit}
    (h : (start pins?).run p t.bare = .ok r e') :
    ∃ t', (start pins?).run p t = .ok r t' ∧ t'.bare = e' := by
  obtain ⟨t', h_all, h_bare, -⟩ :=
    exists_run_of_mapPins (PinRecorder.scopeTracks.board.start pins?)
      (.inl fun _ => id) h
  exact ⟨t', h_all p rfl, h_bare⟩

theorem exists_command_of_bare {k : Command} (h : k.exec.EndsIn p t.bare e') :
    ∃ t', k.exec.EndsIn p t t' ∧ t'.bare = e' := by
  refine ⟨e'.onto t.board, endsIn_exec_onto h t.board, ?_⟩
  rcases endsIn_exec h with rfl | ⟨moving, rfl⟩
  · rfl
  · rfl

/-- **Stops.** Waiting is a run of moments, and the engine that has waited is shut down. -/
theorem exists_stop_of_bare {wait : Nat → Action (Engine (Bench PinRecorder)) Unit}
    {report : StopReport} (h_now : t.clock.now < Clock.instants) (h_ready : Prepared t.bare)
    (h_wait : ∀ k, Action.Keeps Moments p (wait k)) (h_forced : report.forced = false)
    (h : (stop wait).run p t.bare = .ok report e') :
    ∃ t', Steps p false t t' ∧ t'.bare = e' ∧ t'.clock.now < Clock.instants := by
  -- off already, or the wait was made of moments and the rest is the shutdown
  rcases run_stop_of_not_forced h_wait h_ready.valid h_forced h with
    rfl | ⟨e₁, h_moments, h_on, h_flight, h_down⟩
  · exact ⟨t, .refl, rfl, h_now⟩
  obtain ⟨t₁, h_first, rfl, h_now₁⟩ := exists_moments_of_bare h_now h_moments
  -- the shutdown is the same under the scope, as it does not look at the time
  obtain ⟨t₂, h_all, h_bare, -⟩ :=
    exists_run_of_mapPins PinRecorder.scopeTracks.board.shutDown (.inl fun _ => id) h_down
  have h_shut := h_all p rfl
  -- the scope sees a stop that need not wait, after the moments of the wait
  have h_stop : (stop fun _ => pure ()).run p t₁ = .ok ⟨0, false⟩ t₂ :=
    run_stop_of_shutDown h_on h_flight h_shut
  refine ⟨t₂, (Moments.steps h_first).tail (.stop (fun _ => .pure _) h_stop nofun), h_bare, ?_⟩
  obtain ⟨pins, -, rfl⟩ := run_shutDown_eq_ok h_shut
  exact h_now₁

theorem exists_steps_of_bare (h_now : t.clock.now < Clock.instants) (h_ready : Prepared t.bare)
    (h : Steps p false t.bare e') :
    ∃ t', Steps p false t t' ∧ t'.bare = e' ∧ t'.clock.now < Clock.instants := by
  -- induction on the steps, with the time inside its range at each of them
  induction h with
  | refl => exact ⟨t, .refl, rfl, h_now⟩
  | tail h_before h_last ih =>
    obtain ⟨t₁, h_first, rfl, h_now₁⟩ := ih
    cases h_last with
    | moment h =>
      obtain ⟨t₂, h_moment, h_bare, h_now₂⟩ := exists_moment_of_bare h_now₁ h
      exact ⟨t₂, h_first.tail (.moment h_moment), h_bare, h_now₂⟩
    | start h =>
      obtain ⟨t₂, h_start, h_bare⟩ := exists_start_of_bare h
      exact ⟨t₂, h_first.tail (.start h_start), h_bare, (now_of_run_start h_start).symm ▸ h_now₁⟩
    | command h =>
      obtain ⟨t₂, h_command, h_bare⟩ := exists_command_of_bare h
      refine ⟨t₂, h_first.tail (.command h_command), h_bare, ?_⟩
      rcases endsIn_exec h_command with rfl | ⟨moving, rfl⟩
      · exact h_now₁
      · exact h_now₁
    | stop h_wait h h_cuts =>
      -- the wait ends, since an engine that runs is prepared for it
      have h_ready₁ := (Prepared.stable (p := p) false).steps h_ready h_before
      have h_forced := Bool.eq_false_iff.2 fun h_cut => Bool.noConfusion (h_cuts h_cut)
      obtain ⟨t₂, h_rest, h_bare, h_now₂⟩ :=
        exists_stop_of_bare h_now₁ h_ready₁ h_wait h_forced h
      exact ⟨t₂, h_first.trans h_rest, h_bare, h_now₂⟩

/-- **Runs under observation.** Every run of an engine on plain recorded pins, in which no stop
gives up waiting, is seen by a scope: but for the scope, it is a run under observation. -/
theorem exists_observed_steps {config : Config} {lag now : Nat} (h_now : now < Clock.instants)
    (h : Steps p false (freshRecorded config lag now) e) :
    ∃ t, Steps p false (freshObserved config lag now) t ∧ t.bare = e := by
  obtain ⟨t, h_steps, h_bare, -⟩ := exists_steps_of_bare (t := freshObserved config lag now) h_now
    (.initial config lag now _) h
  exact ⟨t, h_steps, h_bare⟩

/-- A run that serves every event at once is seen by a scope as well, with all its history. -/
theorem exists_observed_promptRun {config : Config} {lag now : Nat}
    {older : List (Engine (Bench PinRecorder))} (h_now : now < Clock.instants)
    (h : PromptRun p (freshRecorded config lag now) older e) :
    ∃ older' t, PromptRun p (freshObserved config lag now) older' t ∧ older'.map bare = older ∧
      t.bare = e ∧ t.clock.now < Clock.instants := by
  -- the whole list of states is watched as it goes along
  induction h with
  | first h =>
    obtain ⟨t, h_start, h_bare⟩ := exists_start_of_bare (t := freshObserved config lag now) h
    exact ⟨[], t, .first h_start, rfl, h_bare, (now_of_run_start h_start).symm ▸ h_now⟩
  | @serve older e e' limit event _ h ih =>
    obtain ⟨older', t, h_run, rfl, rfl, h_now⟩ := ih
    -- a limit is a number of the clock, so it is in range
    have h_limit := InTime.of_lt limit.toNat_lt
    obtain ⟨t', h_all, h_bare, h_time⟩ :=
      exists_run_of_mapPins (tracks_serveNext PinRecorder.scopeTracks h_limit)
        (.of_lt h_now) (h .debug)
    exact ⟨t :: older', t', .serve h_run fun q => h_all q trivial, rfl, h_bare,
      h_time.lt⟩
  | command _ h ih =>
    obtain ⟨older', t, h_run, rfl, rfl, h_now⟩ := ih
    obtain ⟨t', h_command, h_bare⟩ := exists_command_of_bare h
    -- a command leaves the clock alone
    refine ⟨t :: older', t', .command h_run h_command, rfl, h_bare, ?_⟩
    rcases endsIn_exec h_command with rfl | ⟨moving, rfl⟩
    · exact h_now
    · exact h_now
  | start _ h ih =>
    obtain ⟨older', t, h_run, rfl, rfl, h_now⟩ := ih
    obtain ⟨t', h_start, h_bare⟩ := exists_start_of_bare h
    exact ⟨t :: older', t', .start h_run h_start, rfl, h_bare,
      (now_of_run_start h_start).symm ▸ h_now⟩

end Engine

end ServoPulse
