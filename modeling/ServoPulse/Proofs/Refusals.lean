import Mathlib.Data.List.Nodup
import ServoPulse.Proofs.Endings
import ServoPulse.Stm32.Chip

/-!
# What a start refuses

A start names the first of its checks that fails: the configuration before the list, its fields in
order, then the length of the list, then its entries in order (`Refuses`). A list is refused by none
of them exactly if the configuration is valid and the list is in order (`not_refuses_iff`), so the
two together say what becomes of every start.

A start that is not refused returns, but for one thing: in the `debug` profile the simulated timer
traps when it has been started too often for the 32 bits in which it counts that (`CountsStarts`).
-/

namespace ServoPulse

/-! ### Configurations -/

namespace Config

/-- The first check that a configuration fails. -/
inductive Fails (c : Config) : Error → Prop
  | wraps (h : c.wrapsPerPeriod.toNat = 0) : Fails c .zeroWrapsPerPeriod
  | timeout (h_wraps : c.wrapsPerPeriod.toNat ≠ 0)
      (h : c.stopTimeoutUs.toNat < maxTargetMicroseconds) : Fails c .stopTimeoutTooShort
  | poll (h_wraps : c.wrapsPerPeriod.toNat ≠ 0)
      (h_timeout : maxTargetMicroseconds ≤ c.stopTimeoutUs.toNat) (h : c.stopPollUs.toNat = 0) :
    Fails c .zeroPollInterval

theorem validate_eq_error_iff {c : Config} {error : Error} :
    c.validate = .error error ↔ c.Fails error := by
  have h_wraps : c.wrapsPerPeriod = 0 ↔ c.wrapsPerPeriod.toNat = 0 := by
    simp [← UInt8.toNat_inj]
  have h_poll : c.stopPollUs = 0 ↔ c.stopPollUs.toNat = 0 := by
    simp [← UInt32.toNat_inj]
  constructor
  · -- the three checks are made in this order, and each fault says that those before it passed
    intro h
    simp only [validate, h_wraps, h_poll] at h
    split at h
    · obtain rfl := Except.error.inj h
      exact .wraps ‹_›
    split at h
    · obtain rfl := Except.error.inj h
      exact .timeout ‹_› ‹_›
    split at h
    · obtain rfl := Except.error.inj h
      exact .poll ‹_› (Nat.le_of_not_lt ‹_›) ‹_›
    · cases h
  · intro h
    simp only [validate, h_wraps, h_poll]
    cases h with
    | wraps h => rw [if_pos h]
    | timeout h_wraps h => rw [if_neg h_wraps, if_pos h]
    | poll h_wraps h_timeout h => rw [if_neg h_wraps, if_neg (Nat.not_lt.2 h_timeout), if_pos h]

theorem not_fails_iff {c : Config} : (∀ error, ¬c.Fails error) ↔ c.validate = .ok () := by
  simp only [← validate_eq_error_iff]
  cases c.validate with
  | ok _ => simp
  | error error => simp

end Config

/-! ### Lists of pins -/

section List

variable {eligible pins seen rest : List Nat} {i : Nat} {error : StartError}

/-- What is wrong with the entry at `i`: it is not eligible, or equal to an earlier one. -/
inductive BadEntry (eligible pins : List Nat) (i : Nat) : StartError → Prop
  | ineligible {pin : Nat} (h : pins[i]? = some pin) (h_not : pin ∉ eligible) :
    BadEntry eligible pins i (.ineligiblePin pin)
  | duplicate {pin j : Nat} (h : pins[i]? = some pin) (h_lt : j < i)
      (h_same : pins[j]? = some pin) :
    BadEntry eligible pins i (.duplicatePin pin)

/-- What is wrong with the first bad entry, which is at `i`. -/
structure FirstBad (eligible pins : List Nat) (i : Nat) (error : StartError) : Prop where
  bad : BadEntry eligible pins i error
  fine : ∀ j < i, ∀ other, ¬BadEntry eligible pins j other

/-- There is only one thing wrong with the first bad entry: where it is equal to an earlier one, it
is eligible, since that one was fine. -/
theorem FirstBad.unique {j : Nat} {other : StartError} (h : FirstBad eligible pins i error)
    (h_other : FirstBad eligible pins j other) : other = error := by
  -- the first bad entries stand at one place, as neither stands before the other
  obtain rfl : j = i := by
    rcases Nat.lt_trichotomy i j with h_lt | h_eq | h_lt
    · exact absurd h.bad (h_other.fine i h_lt error)
    · exact h_eq.symm
    · exact absurd h_other.bad (h.fine j h_lt other)
  -- an entry before the bad one would be bad itself if it were not eligible
  have h_eligible {pin k : Nat} (h_lt : k < j) (h_same : pins[k]? = some pin) : pin ∈ eligible :=
    by_contra fun h_not => h.fine k h_lt _ (.ineligible h_same h_not)
  rcases h.bad with ⟨h_pin, h_not⟩ | ⟨h_pin, h_lt, h_same⟩ <;>
    rcases h_other.bad with ⟨h_pin', h_not'⟩ | ⟨h_pin', h_lt', h_same'⟩ <;>
    obtain rfl := Option.some.inj (h_pin.symm.trans h_pin')
  · rfl
  · exact absurd (h_eligible h_lt' h_same') h_not
  · exact absurd (h_eligible h_lt h_same) h_not'
  · -- both are duplicates of one pin
    rfl

/-- Nothing is wrong with a list of eligible pins, no two of them equal. -/
theorem not_badEntry (h_eligible : ∀ pin ∈ pins, pin ∈ eligible) (h_nodup : pins.Nodup) :
    ¬BadEntry eligible pins i error := by
  intro h
  cases h with
  | ineligible h_pin h_not => exact h_not (h_eligible _ (List.mem_of_getElem? h_pin))
  | duplicate h_pin h_lt h_same =>
    obtain ⟨h_i, -⟩ := List.getElem?_eq_some_iff.1 h_pin
    exact List.nodup_iff_getElem?_ne_getElem?.1 h_nodup _ _ h_lt h_i (h_same.trans h_pin.symm)

/-- An eligible entry that is none of those before it is not bad. -/
theorem not_badEntry_of_new {pin : Nat} (h_pin : pins[i]? = some pin) (h_eligible : pin ∈ eligible)
    (h_new : ∀ j < i, pins[j]? ≠ some pin) : ¬BadEntry eligible pins i error := by
  rintro (⟨h_entry, h_not⟩ | ⟨h_entry, h_lt, h_same⟩) <;>
    obtain rfl := Option.some.inj (h_pin.symm.trans h_entry)
  · exact h_not h_eligible
  · exact h_new _ h_lt h_same

/-- The pins that were seen are the entries before the rest of the list, from the last one back. -/
theorem firstBad_of_checkEach (h_pins : pins = seen.reverse ++ rest)
    (h_seen : ∀ j < seen.length, ∀ other, ¬BadEntry eligible pins j other)
    (h : checkEach eligible seen rest = .error error) : ∃ i, FirstBad eligible pins i error := by
  induction rest generalizing seen with
  | nil => cases h
  | cons pin rest ih =>
    -- what is still to be checked begins behind what was seen
    have h_pin : pins[seen.length]? = some pin := by
      rw [h_pins, List.getElem?_append_right (Nat.le_of_eq List.length_reverse),
        List.length_reverse, Nat.sub_self, List.getElem?_cons_zero]
    have h_before {j : Nat} : j < seen.length → pins[j]? = seen.reverse[j]? := by
      intro h_lt
      rw [h_pins, List.getElem?_append_left (by rwa [List.length_reverse])]
    unfold checkEach at h
    split at h
    · -- the pin is not eligible
      rename_i h_not
      obtain rfl := Except.error.inj h
      exact ⟨_, .ineligible h_pin h_not, h_seen⟩
    rename_i h_eligible
    split at h
    · -- what was seen before stands at an earlier place of the list
      rename_i h_mem
      obtain rfl := Except.error.inj h
      obtain ⟨j, h_j⟩ := List.mem_iff_getElem?.1 (List.mem_reverse.2 h_mem)
      have h_lt : j < seen.length := by
        obtain ⟨h_len, -⟩ := List.getElem?_eq_some_iff.1 h_j
        rwa [List.length_reverse] at h_len
      exact ⟨_, .duplicate h_pin h_lt ((h_before h_lt).trans h_j), h_seen⟩
    -- the entry is fine, and joins those that were seen
    rename_i h_new
    have h_next : pins = (pin :: seen).reverse ++ rest := by
      rw [h_pins, List.reverse_cons, List.append_assoc, List.singleton_append]
    refine ih h_next (fun j h_j other => ?_) h
    rcases Nat.lt_succ_iff_lt_or_eq.1 h_j with h_j | rfl
    · -- the entries before it are fine by hypothesis
      exact h_seen j h_j other
    · refine not_badEntry_of_new h_pin (not_not.1 h_eligible) fun k h_k h_same => h_new ?_
      exact List.mem_reverse.1 (List.mem_of_getElem? ((h_before h_k).symm.trans h_same))

/-- A check of the entries names what is wrong with the first bad one. -/
theorem checkEach_eq_error_iff :
    checkEach eligible [] pins = .error error ↔ ∃ i, FirstBad eligible pins i error := by
  have h_first {error : StartError} (h : checkEach eligible [] pins = .error error) :
      ∃ i, FirstBad eligible pins i error := by
    have h_all : pins = [].reverse ++ pins := rfl
    exact firstBad_of_checkEach h_all nofun h
  refine ⟨h_first, fun ⟨i, h_bad⟩ => ?_⟩
  -- the check names something, and what it names is the one thing that is wrong
  cases h : checkEach eligible [] pins with
  | ok _ =>
    -- no error was found, and so no entry is bad
    obtain ⟨h_nodup, h_each⟩ := Engine.checkEach_ok h
    exact absurd h_bad.bad (not_badEntry (fun pin h_pin => (h_each pin h_pin).1) h_nodup)
  | error other =>
    obtain ⟨j, h_other⟩ := h_first h
    rw [h_bad.unique h_other]

end List

/-! ### Starts -/

/-- What a start has against a list of pins, or against resuming without one. -/
inductive Refuses (config : Config) (eligible : List Nat) : Option (List Nat) → StartError → Prop
  | invalidConfig {pins? : Option (List Nat)} {error : Config.Error} (h : config.Fails error) :
    Refuses config eligible pins? (.invalidConfig error)
  | tooManyServos {pins : List Nat} (h_valid : config.validate = .ok ())
      (h : maxServos < pins.length) : Refuses config eligible (some pins) .tooManyServos
  | entry {pins : List Nat} {i : Nat} {error : StartError} (h_valid : config.validate = .ok ())
      (h_length : pins.length ≤ maxServos) (h : FirstBad eligible pins i error) :
    Refuses config eligible (some pins) error

/-- A configuration and a list of pins that an engine can be started with. -/
structure Acceptable (config : Config) (eligible pins : List Nat) : Prop where
  valid : config.validate = .ok ()
  length_le : pins.length ≤ maxServos
  mem_eligible : ∀ pin ∈ pins, pin ∈ eligible
  nodup : pins.Nodup

/-- A list is refused unless it is acceptable. -/
theorem not_refuses_iff {config : Config} {eligible pins : List Nat} :
    (∀ error, ¬Refuses config eligible (some pins) error) ↔ Acceptable config eligible pins := by
  constructor
  · intro h
    have h_valid := Config.not_fails_iff.1 fun error h_fails => h _ (.invalidConfig h_fails)
    have h_length : pins.length ≤ maxServos :=
      Nat.le_of_not_lt fun h_long => h _ (.tooManyServos h_valid h_long)
    -- a bad entry would make a first one, and so the check of the entries finds none
    cases h_check : checkEach eligible [] pins with
    | ok _ =>
      obtain ⟨h_nodup, h_each⟩ := Engine.checkEach_ok h_check
      exact ⟨h_valid, h_length, fun pin h_pin => (h_each pin h_pin).1, h_nodup⟩
    | error error =>
      obtain ⟨i, h_first⟩ := checkEach_eq_error_iff.1 h_check
      exact absurd (.entry h_valid h_length h_first) (h error)
  · -- each of the three refusals contradicts a part of what is acceptable
    rintro ⟨h_valid, h_length, h_eligible, h_nodup⟩ error h
    cases h with
    | invalidConfig h_fails => exact Config.not_fails_iff.2 h_valid _ h_fails
    | tooManyServos _ h_long => exact absurd h_long (Nat.not_lt.2 h_length)
    | entry _ _ h_first => exact not_badEntry h_eligible h_nodup h_first.bad

namespace Engine

variable {β : Type} [Board β] {p : Profile} {e e' : Engine β} {pins? : Option (List Nat)}

/-- With a valid configuration, what a start has against a list is what the check of the list
finds. -/
theorem checkPins_eq_error_iff {config : Config} {eligible pins : List Nat} {error : StartError}
    (h_valid : config.validate = .ok ()) :
    checkPins eligible pins = .error error ↔ Refuses config eligible (some pins) error := by
  have h_none := Config.not_fails_iff.2 h_valid
  unfold checkPins
  split
  · -- the length comes before the entries
    rename_i h_long
    constructor
    · rintro ⟨⟩
      exact .tooManyServos h_valid h_long
    · rintro (h_fails | ⟨-, -⟩ | ⟨-, h_length, -⟩)
      · exact absurd h_fails (h_none _)
      · rfl
      · exact absurd h_long (Nat.not_lt.2 h_length)
  · rename_i h_length
    rw [checkEach_eq_error_iff]
    constructor
    · rintro ⟨i, h_first⟩
      exact .entry h_valid (Nat.le_of_not_lt h_length) h_first
    · rintro (h_fails | ⟨-, h_long⟩ | ⟨-, -, h_first⟩)
      · exact absurd h_fails (h_none _)
      · exact absurd h_long h_length
      · exact ⟨_, h_first⟩

theorem checkStart_eq_error_iff {error : StartError} :
    e.checkStart pins? = .error error ↔ Refuses e.config (Board.eligible e.board) pins? error := by
  unfold checkStart
  cases h_config : e.config.validate with
  | error fault =>
    -- the fault of the configuration is named, whatever the list is
    have h_fails := Config.validate_eq_error_iff.1 h_config
    constructor
    · rintro ⟨⟩
      exact .invalidConfig h_fails
    · rintro (h | ⟨h_valid, -⟩ | ⟨h_valid, -, -⟩)
      · rw [← Config.validate_eq_error_iff, h_config] at h
        rw [Except.error.inj h]
      · exact absurd (h_config.symm.trans h_valid) nofun
      · exact absurd (h_config.symm.trans h_valid) nofun
  | ok _ =>
    cases pins? with
    | none =>
      -- without a list only the configuration can be refused
      refine ⟨nofun, fun h => ?_⟩
      cases h with
      | invalidConfig h_fails => exact absurd h_fails (Config.not_fails_iff.2 h_config _)
    | some pins => exact checkPins_eq_error_iff h_config

/-- The check passes where it finds nothing to refuse. -/
theorem checkStart_eq_ok_iff {pins : List Nat} :
    e.checkStart (some pins) = .ok () ↔ Acceptable e.config (Board.eligible e.board) pins := by
  simp only [← not_refuses_iff, ← checkStart_eq_error_iff]
  cases e.checkStart (some pins) with
  | ok _ => simp
  | error error => simp

/-- A start is refused for what the check finds, and then nothing has changed. -/
theorem run_start_eq_error_iff {error : StartError} :
    (start pins?).run p e = .ok (.error error) e' ↔
      Refuses e.config (Board.eligible e.board) pins? error ∧ e' = e := by
  rw [← checkStart_eq_error_iff]
  refine ⟨fun h => ?_, fun ⟨h_check, h_same⟩ => h_same ▸ start_eq_of_error h_check p⟩
  have h_check : e.checkStart pins? = .error error := (answer_of_run_start h).symm
  rw [start_eq_of_error h_check] at h
  exact ⟨h_check, (EStateM.Result.ok.inj h).2.symm⟩

/-! ### Counted starts -/

end Engine

/-- A board that counts how often its timer was started. In the `debug` profile the count has to fit
in 32 bits, and nothing else keeps the timer from being started. -/
class CountsStarts (β : Type) [Board β] where
  /-- How often the timer was started. -/
  starts : β → Nat
  starts_configureOutput : ∀ pin (b : β), starts (Board.configureOutput pin b) = starts b
  returns_startTimer_iff : ∀ {p : Profile} {b : β},
    (∃ b', (Board.startTimer : Action β Unit).run p b = .ok () b') ↔
      p = .release ∨ starts b + 1 < Width.bits32.size

theorem Clock.returns_start_iff {p : Profile} {c : Clock} :
    (∃ c', Clock.start.run p c = .ok () c') ↔ p = .release ∨ c.starts + 1 < Width.bits32.size := by
  -- the timer counts its starts in 32 bits, and only debug traps there
  have h_count : (∃ n, (Checked.add .bits32 c.starts 1).run p = .ok n) ↔
      p = .release ∨ c.starts + 1 < Width.bits32.size := by
    cases p with
    | release => exact ⟨fun _ => .inl rfl, fun _ => ⟨_, rfl⟩⟩
    | debug => simp [Checked.run_add_debug_iff]
  rw [← h_count]
  simp only [Clock.start, Action.run_bind, Action.run_modify, Action.run_get, Action.run_liftM]
  cases (Checked.add .bits32 c.starts 1).run p with
  | ok n => simp
  | error trap => simp

instance {P : Type} [PinBank P] : CountsStarts (Bench P) where
  starts b := b.clock.starts
  starts_configureOutput _ _ := rfl
  returns_startTimer_iff {p b} := by
    rw [← Clock.returns_start_iff]
    -- the start of a board is that of its clock
    constructor
    · rintro ⟨b', h⟩
      obtain ⟨clock, h_clock, -⟩ := Action.run_zoom_eq_ok_iff.1 h
      exact ⟨clock, h_clock⟩
    · rintro ⟨clock, h_clock⟩
      exact ⟨{ b with clock }, Action.run_zoom_eq_ok_iff.2 ⟨clock, h_clock, rfl⟩⟩

/-- The timer of the chip can be started any number of times. -/
instance : CountsStarts Chip where
  starts _ := 0
  starts_configureOutput _ _ := rfl
  returns_startTimer_iff {p c} := by
    refine ⟨fun _ => .inr (by decide), fun _ => ⟨_, rfl⟩⟩

namespace Engine

variable {β : Type} [Board β] [CountsStarts β] {p : Profile} {e e' : Engine β}
  {pins? : Option (List Nat)}

open CountsStarts

theorem returns_launch_iff : (∃ e', launch.run p e = .ok () e') ↔
    p = .release ∨ starts e.board + 1 < Width.bits32.size := by
  rw [← returns_startTimer_iff]
  simp only [launch, startPulses, onBoard, Action.run_bind, Action.run_modify, Action.run_zoom]
  cases (Board.startTimer : Action β Unit).run p e.board with
  | ok _ b => simp
  | error trap b => simp

/-- Making the pins of channels outputs takes no start of the timer. -/
theorem run_configureEach_eq_ok (channels : List Channel) (p : Profile) (e : Engine β) :
    ∃ b, Action.run (channels.forM fun c => (do
        unless Board.isHigh (← get).board c.pin do changeBoard (Board.configureOutput c.pin)
          : Action (Engine β) Unit)) p e = .ok () { e with board := b } ∧
      starts b = starts e.board := by
  -- induction on the channels; making a pin an output leaves the count of starts
  induction channels generalizing e with
  | nil => exact ⟨e.board, rfl, rfl⟩
  | cons c channels ih =>
    -- a pin that is high is left alone
    cases h_high : Board.isHigh e.board c.pin with
    | true =>
      obtain ⟨b, h_run, h_starts⟩ := ih e
      refine ⟨b, Action.run_forM_cons_eq_ok_iff.2 ⟨e, ?_, h_run⟩, h_starts⟩
      rw [Action.run_get_bind, h_high]
      rfl
    | false =>
      obtain ⟨b, h_run, h_starts⟩ := ih { e with board := Board.configureOutput c.pin e.board }
      refine ⟨b, Action.run_forM_cons_eq_ok_iff.2 ⟨_, ?_, h_run⟩,
        h_starts.trans (starts_configureOutput c.pin e.board)⟩
      rw [Action.run_get_bind, h_high]
      rfl

theorem run_reconfigure_eq_ok (pins : List Nat) (p : Profile) (e : Engine β) :
    ∃ t, (reconfigure pins).run p e = .ok () t ∧ t.started = e.started ∧
      starts t.board = starts e.board := by
  obtain ⟨b, h_run, h_starts⟩ := run_configureEach_eq_ok
    (ChannelTable.assign pins).active p { e with table := .assign pins }
  refine ⟨{ e with table := .assign pins, board := b, moving := false }, ?_, rfl, h_starts⟩
  rw [reconfigure, Action.run_modify_bind, Action.run_bind, configureOutputs, Action.run_get_bind,
    h_run]
  rfl

/-- A start with a list that is not refused succeeds, unless the timer has to be started and
cannot. -/
theorem run_start_of_checkStart {pins : List Nat} (h_check : e.checkStart (some pins) = .ok ()) :
    (∃ e', (start (some pins)).run p e = .ok (.ok ()) e') ↔
      e.started = true ∨ p = .release ∨ starts e.board + 1 < Width.bits32.size := by
  obtain ⟨t, h_list, h_started, h_starts⟩ := run_reconfigure_eq_ok pins p e
  -- past the check there are the new channels, and then perhaps a launch
  have h_run : (start (some pins)).run p e =
      Action.run (do
        unless e.started do launch
        return .ok () : Action (Engine β) (Except StartError Unit)) p t := by
    rw [start, Action.run_get_bind, h_check]
    dsimp only
    rw [Action.run_bind, h_list]
  rw [h_run, ← h_started, ← h_starts, ← returns_launch_iff]
  cases t.started with
  | true =>
    -- no launch, and so nothing that can fail
    exact ⟨fun _ => .inl rfl, fun _ => ⟨t, rfl⟩⟩
  | false =>
    simp only [Bool.false_eq_true, if_false, false_or, Action.run_bind]
    cases launch.run p t with
    | ok a u => simp
    | error trap u => simp

/-- **Starting.** On any board and in any state, a start with a list succeeds exactly if the list is
acceptable, as long as the timer is on or can still be started. It is refused exactly if the list is
not acceptable, for what the first failing check finds, and then, as when it is refused without a
list, nothing in the state of the engine or its board has changed. -/
theorem start_accepts_exactly (p : Profile) (e : Engine β) :
    (∀ pins, (∃ e', (start (some pins)).run p e = .ok (.ok ()) e') ↔
      Acceptable e.config (Board.eligible e.board) pins ∧
        (e.started = true ∨ p = .release ∨ starts e.board + 1 < Width.bits32.size)) ∧
      (∀ pins, (∃ error e', (start (some pins)).run p e = .ok (.error error) e') ↔
        ¬Acceptable e.config (Board.eligible e.board) pins) ∧
      ∀ pins? error e', (start pins?).run p e = .ok (.error error) e' ↔
        Refuses e.config (Board.eligible e.board) pins? error ∧ e' = e := by
  refine ⟨fun pins => ⟨fun h => ?_, fun ⟨h_list, h_timer⟩ => ?_⟩, fun pins => ?_,
    fun _ _ _ => run_start_eq_error_iff⟩
  · -- the answer of a start that succeeds is what the check found
    obtain ⟨e', h_run⟩ := h
    have h_check : e.checkStart (some pins) = .ok () := (answer_of_run_start h_run).symm
    exact ⟨checkStart_eq_ok_iff.1 h_check, (run_start_of_checkStart h_check).1 ⟨e', h_run⟩⟩
  · exact (run_start_of_checkStart (checkStart_eq_ok_iff.2 h_list)).2 h_timer
  · -- refused means that some refusal applies
    rw [← not_refuses_iff, not_forall]
    simp only [run_start_eq_error_iff, not_not]
    exact exists_congr fun error => ⟨fun ⟨e', h, _⟩ => h, fun h => ⟨e, h, rfl⟩⟩

end Engine

end ServoPulse
