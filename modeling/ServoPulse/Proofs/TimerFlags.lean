import ServoPulse.Proofs.ChipTracking
import ServoPulse.Proofs.Endings

/-!
# The flags of TIM3

On plain memory a flag of TIM3 reads back as it was last written. The hardware does otherwise: a
flag of SR that is written zero goes down, and one that is written one stays as it is, so what is
left of the flags by a call are those that were up and were not written zero (`Tim3.rcW0`). With
this rule TIM3 and the simulated timer are in step.

A `Tandem` run makes the same calls to both, in any order, and raises the same flags on both in
between. All along the registers show the simulated timer (`Tim3.Shows`), so every call has the same
answer on both (`timer_flags`); in particular no call that lowers one flag loses the other.
-/

namespace ServoPulse

/-! ### Calls -/

/-- A call to a timer. -/
inductive TimerCall where
  | start
  | stop
  | arm (value : Count)
  | disarm
  | takeOverflow
  | takeCompare

/-- The call to the simulated timer, with its answer if it has one. -/
def TimerCall.onClock : TimerCall → Action Clock (Option Bool)
  | start => do
    Clock.start
    return none
  | stop => modifyGet fun c => (none, c.stop)
  | arm value => modifyGet fun c => (none, c.arm value)
  | disarm => modifyGet fun c => (none, c.disarm)
  | takeOverflow => modifyGet fun c => (some c.takeOverflow.1, c.takeOverflow.2)
  | takeCompare => modifyGet fun c => (some c.takeCompare.1, c.takeCompare.2)

/-- What the driver of TIM3 answers and writes for the call. -/
def TimerCall.onDriver (prescaler : BitVec 16) (m : Memory) : TimerCall → Option Bool × Memory
  | start => (none, Tim3.start prescaler m)
  | stop => (none, Tim3.stop m)
  | arm value => (none, Tim3.arm value m)
  | disarm => (none, Tim3.disarm m)
  | takeOverflow => (some (Tim3.takeFlag Tim3.update m).1, (Tim3.takeFlag Tim3.update m).2)
  | takeCompare => (some (Tim3.takeFlag Tim3.cc1 m).1, (Tim3.takeFlag Tim3.cc1 m).2)

namespace Tim3

/-- The registers after a call that found them as `before` and left them as `after`: writing zero to
a flag lowers it, and writing one does nothing. -/
def rcW0 (before after : Memory) : Memory := after.write sr (before.read sr &&& after.read sr)

end Tim3

/-- What TIM3 answers to the call, and what the call makes of its registers. -/
def TimerCall.onTim3 (prescaler : BitVec 16) (k : TimerCall) (m : Memory) : Option Bool × Memory :=
  ((k.onDriver prescaler m).1, Tim3.rcW0 m (k.onDriver prescaler m).2)

/-! ### What the calls do to the flags -/

namespace Tim3

variable {m before after : Memory} {c c' : Clock}

theorem read_rcW0 {address : Nat} (h : address ≠ sr) :
    (rcW0 before after).read address = after.read address := by
  rw [rcW0, Memory.read_write, if_neg (Ne.symm h)]

theorem flag_rcW0 (flag : Nat) :
    ((rcW0 before after).read sr).getLsbD flag =
      ((before.read sr).getLsbD flag && (after.read sr).getLsbD flag) := by
  rw [rcW0, Memory.read_write, if_pos rfl, BitVec.getLsbD_and]

theorem read_sr_start (prescaler : BitVec 16) : (start prescaler m).read sr = 0 := by
  simp [start, sr, cr1, dier]

theorem read_sr_stop : (stop m).read sr = 0 := by
  simp [stop]

theorem read_sr_arm (value : Count) : (arm value m).read sr = m.read sr := by
  simp [arm, sr, dier, ccr1]

/-- Lowering a flag writes a one to every other one. -/
theorem flag_lowerFlag {flag other : Nat} (h : other < 32) :
    ((lowerFlag flag m).read sr).getLsbD other = decide (other ≠ flag) := by
  rw [lowerFlag, Memory.read_write, if_pos rfl, Word.getLsbD_setBit]
  by_cases h_eq : other = flag
  · rw [if_pos ⟨h_eq, h_eq ▸ h⟩, decide_eq_false (not_not_intro h_eq)]
  · rw [if_neg fun h_and => h_eq h_and.1, decide_eq_true h_eq, BitVec.getLsbD_allOnes,
      decide_eq_true h]

/-- A flag that is taken is down afterwards, and the others are as they were. -/
theorem flag_takeFlag {flag other : Nat} (h : other < 32) :
    ((rcW0 m (takeFlag flag m).2).read sr).getLsbD other =
      (decide (other ≠ flag) && (m.read sr).getLsbD other) := by
  rw [flag_rcW0]
  unfold takeFlag
  cases h_flag : (m.read sr).getLsbD flag with
  | true => rw [if_pos rfl, flag_lowerFlag h, Bool.and_comm]
  | false =>
    -- a flag that is not up is down already, and nothing is written
    rw [if_neg Bool.false_ne_true, Bool.and_self]
    by_cases h_eq : other = flag
    · rw [h_eq, h_flag, Bool.and_false]
    · rw [decide_eq_true h_eq, Bool.true_and]

theorem flag_disarm {other : Nat} (h : other < 32) :
    ((rcW0 m (disarm m)).read sr).getLsbD other =
      (decide (other ≠ cc1) && (m.read sr).getLsbD other) := by
  rw [flag_rcW0]
  change ((m.read sr).getLsbD other && ((lowerFlag cc1 _).read sr).getLsbD other) = _
  rw [flag_lowerFlag h, Bool.and_comm]

theorem fst_takeFlag (flag : Nat) : (takeFlag flag m).1 = (m.read sr).getLsbD flag := by
  unfold takeFlag
  split
  · rename_i h
    exact h.symm
  · rename_i h
    exact (Bool.eq_false_iff.2 h).symm

/-- A flag is raised by the hardware. -/
def raiseFlag (flag : Nat) (m : Memory) : Memory := m.modify sr (·.setBit flag true)

theorem flag_raiseFlag {flag other : Nat} (h : other < 32) :
    ((raiseFlag flag m).read sr).getLsbD other =
      (decide (other = flag) || (m.read sr).getLsbD other) := by
  rw [raiseFlag, Memory.read_modify, if_pos rfl, Word.getLsbD_setBit]
  by_cases h_eq : other = flag
  · rw [if_pos ⟨h_eq, h_eq ▸ h⟩, decide_eq_true h_eq, Bool.true_or]
  · rw [if_neg fun h_and => h_eq h_and.1, decide_eq_false h_eq, Bool.false_or]

/-! ### In step -/

/-- The registers show the simulated timer: its flags, whether it runs, and for which value it is
armed. -/
structure Shows (c : Clock) (m : Memory) : Prop where
  overflow_eq : (m.read sr).getLsbD update = c.overflowPending
  match_eq : (m.read sr).getLsbD cc1 = c.comparePending
  running_eq : (m.read cr1).getLsbD cen = c.running
  armed_eq : (m.read dier).getLsbD cc1 = c.compare.isSome
  value_eq : ∀ value ∈ c.compare, m.read ccr1 = BitVec.ofNat 32 value

namespace Shows

/-- A stopped timer and registers that are all zero. -/
theorem reset (c : Clock) : Shows c.stop {} := by
  refine ⟨?_, ?_, ?_, ?_, nofun⟩ <;> rw [Memory.read_empty] <;> rfl

/-- A timer that was started and one that was stopped have nothing armed and both flags down. -/
theorem of_cleared (h_sr : after.read sr = 0)
    (h_flags : c.overflowPending = false ∧ c.comparePending = false) (h_compare : c.compare = none)
    (h_running : (after.read cr1).getLsbD cen = c.running)
    (h_dier : (after.read dier).getLsbD cc1 = false) : Shows c (rcW0 before after) := by
  -- a zero was written to every flag, so none is up, whatever stood there
  have h_down (flag : Nat) : ((rcW0 before after).read sr).getLsbD flag = false := by
    rw [flag_rcW0, h_sr]
    exact (congrArg _ BitVec.getLsbD_zero).trans (Bool.and_false _)
  refine ⟨(h_down _).trans h_flags.1.symm, (h_down _).trans h_flags.2.symm, ?_, ?_, ?_⟩
  · -- every other register holds what was written
    rw [read_rcW0 (by decide)]
    exact h_running
  · rw [read_rcW0 (by decide), h_dier, h_compare]
    rfl
  · rw [h_compare]
    exact nofun

theorem start (c : Clock) (starts : Nat) (prescaler : BitVec 16) :
    Shows { c with
      origin := c.now, running := true, compare := none, overflowPending := false,
      comparePending := false, starts } (rcW0 m (Tim3.start prescaler m)) := by
  obtain ⟨h_running, h_dier⟩ := read_start m prescaler
  exact of_cleared (read_sr_start prescaler) ⟨rfl, rfl⟩ rfl h_running h_dier

theorem stop (c : Clock) : Shows c.stop (rcW0 m (Tim3.stop m)) := by
  obtain ⟨h_running, h_dier⟩ := read_stop m
  exact of_cleared read_sr_stop ⟨rfl, rfl⟩ rfl h_running h_dier

theorem arm (h : Shows c m) (value : Count) : Shows (c.arm value) (rcW0 m (Tim3.arm value m)) := by
  obtain ⟨h_cr1, -, h_dier, h_ccr1⟩ := read_arm m value
  refine ⟨?_, ?_, ?_, ?_, ?_⟩
  · -- arming writes the compare registers only
    rw [flag_rcW0, read_sr_arm, Bool.and_self]
    exact h.overflow_eq
  · rw [flag_rcW0, read_sr_arm, Bool.and_self]
    exact h.match_eq
  · rw [read_rcW0 (by decide), h_cr1]
    exact h.running_eq
  · rw [read_rcW0 (by decide)]
    exact h_dier
  · rintro _ ⟨⟩
    rw [read_rcW0 (by decide)]
    exact h_ccr1

theorem disarm (h : Shows c m) : Shows c.disarm (rcW0 m (Tim3.disarm m)) := by
  obtain ⟨h_cr1, -, h_dier⟩ := read_disarm m
  refine ⟨?_, ?_, ?_, ?_, nofun⟩
  · -- the overflow flag is not the one that is lowered
    rw [flag_disarm (by decide), decide_eq_true (by decide), Bool.true_and]
    exact h.overflow_eq
  · -- the match flag is, and disarming forgets a match that is pending
    rw [flag_disarm (by decide), decide_eq_false (by decide), Bool.false_and]
    rfl
  · rw [read_rcW0 (by decide), h_cr1]
    exact h.running_eq
  · rw [read_rcW0 (by decide)]
    exact h_dier

/-- The control registers and what they show stay the same. -/
theorem of_flags {m' : Memory} (h : Shows c m)
    (h_control : ∀ address ∈ [cr1, dier, ccr1], m'.read address = m.read address)
    (h_same : c'.running = c.running ∧ c'.compare = c.compare)
    (h_overflow : (m'.read sr).getLsbD update = c'.overflowPending)
    (h_match : (m'.read sr).getLsbD cc1 = c'.comparePending) : Shows c' m' where
  overflow_eq := h_overflow
  match_eq := h_match
  running_eq := by
    rw [h_control cr1 (by simp), h_same.1]
    exact h.running_eq
  armed_eq := by
    rw [h_control dier (by simp), h_same.2]
    exact h.armed_eq
  value_eq := by
    rw [h_control ccr1 (by simp), h_same.2]
    exact h.value_eq

theorem ne_of_mem_control {address : Nat} (h : address ∈ [cr1, dier, ccr1]) :
    address ≠ sr ∧ address ≠ cnt := by
  revert address
  decide

theorem takeFlag (h : Shows c m) (flag : Nat)
    (h_same : c'.running = c.running ∧ c'.compare = c.compare)
    (h_overflow : c'.overflowPending = (decide (update ≠ flag) && c.overflowPending))
    (h_match : c'.comparePending = (decide (cc1 ≠ flag) && c.comparePending)) :
    Shows c' (rcW0 m (Tim3.takeFlag flag m).2) := by
  -- the status register is not one of the three control registers
  refine h.of_flags (fun address h_mem => ?_) h_same ?_ ?_
  · have h_ne := (ne_of_mem_control h_mem).1
    rw [read_rcW0 h_ne, read_takeFlag m flag h_ne]
  · rw [flag_takeFlag (by decide), h_overflow, h.overflow_eq]
  · rw [flag_takeFlag (by decide), h_match, h.match_eq]

theorem raiseFlag (h : Shows c m) (flag : Nat)
    (h_same : c'.running = c.running ∧ c'.compare = c.compare)
    (h_overflow : c'.overflowPending = (decide (update = flag) || c.overflowPending))
    (h_match : c'.comparePending = (decide (cc1 = flag) || c.comparePending)) :
    Shows c' (Tim3.raiseFlag flag m) := by
  refine h.of_flags (fun address h_mem => ?_) h_same ?_ ?_
  · exact (Memory.read_write m _ _ _).trans (if_neg (ne_of_mem_control h_mem).1.symm)
  · rw [flag_raiseFlag (by decide), h_overflow, h.overflow_eq]
  · rw [flag_raiseFlag (by decide), h_match, h.match_eq]

/-- The counter moves on. -/
theorem time (h : Shows c m) (now : Nat) (count : Word) :
    Shows { c with now } (m.write cnt count) := by
  have h_sr : (m.write cnt count).read sr = m.read sr := by
    rw [Memory.read_write, if_neg (by decide)]
  refine h.of_flags (fun address h_mem => ?_) ⟨rfl, rfl⟩ ?_ ?_
  · exact (Memory.read_write m _ _ _).trans (if_neg (ne_of_mem_control h_mem).2.symm)
  · rw [h_sr]
    exact h.overflow_eq
  · rw [h_sr]
    exact h.match_eq

/-- **One call.** The answers agree, and the registers show the simulated timer again. Only a start
may trap, and it has started the timer by then. -/
theorem call (h : Shows c m) (p : Profile) (prescaler : BitVec 16) (k : TimerCall) :
    Action.Ends p k.onClock c
      (fun answer c' => (k.onTim3 prescaler m).1 = answer ∧ Shows c' (k.onTim3 prescaler m).2)
      (fun c' => k = .start ∧ Shows c' (k.onTim3 prescaler m).2) := by
  -- the answer of a call is the flag that it takes, where it takes one
  cases k with
  | start =>
    refine .bind (Q := fun _ c' => Shows c' (rcW0 m (Tim3.start prescaler m))) ?_
      fun _ c' h_c' => ⟨rfl, h_c'⟩
    refine .modify_bind (.get_bind (.liftM_bind (fun starts => ?_) ?_))
    · exact Shows.start c starts prescaler
    · exact ⟨rfl, Shows.start c c.starts prescaler⟩
  | stop => exact ⟨rfl, Shows.stop c⟩
  | arm value => exact ⟨rfl, h.arm value⟩
  | disarm => exact ⟨rfl, h.disarm⟩
  | takeOverflow =>
    refine ⟨congrArg some ((fst_takeFlag update).trans h.overflow_eq), ?_⟩
    exact h.takeFlag update ⟨rfl, rfl⟩ rfl rfl
  | takeCompare =>
    refine ⟨congrArg some ((fst_takeFlag cc1).trans h.match_eq), ?_⟩
    exact h.takeFlag cc1 ⟨rfl, rfl⟩ rfl rfl

end Shows

end Tim3

/-! ### Runs of both timers -/

/-- The runs of TIM3, from registers that are all zero, and of the simulated timer, from a stopped
one, with the same calls and the same events. An overflow comes at any time, and a compare match
while the simulated timer has a value armed. -/
inductive Tandem (p : Profile) (prescaler : BitVec 16) : Clock → Memory → Prop
  | reset (c : Clock) : Tandem p prescaler c.stop {}
  | call {c c' : Clock} {m : Memory} (k : TimerCall) (h_run : Tandem p prescaler c m)
      (h : k.onClock.EndsIn p c c') : Tandem p prescaler c' (k.onTim3 prescaler m).2
  | overflow {c : Clock} {m : Memory} (h_run : Tandem p prescaler c m) :
      Tandem p prescaler { c with overflowPending := true } (Tim3.raiseFlag Tim3.update m)
  | compareMatch {c : Clock} {m : Memory} (h_run : Tandem p prescaler c m)
      (h_armed : c.compare.isSome = true) :
      Tandem p prescaler { c with comparePending := true } (Tim3.raiseFlag Tim3.cc1 m)
  | time {c : Clock} {m : Memory} (now : Nat) (count : Word) (h_run : Tandem p prescaler c m) :
      Tandem p prescaler { c with now } (m.write Tim3.cnt count)

namespace Tim3

variable {p : Profile} {prescaler : BitVec 16} {c : Clock} {m : Memory}

theorem shows_of_tandem (h : Tandem p prescaler c m) : Shows c m := by
  induction h with
  | reset c => exact .reset c
  | @call c c' m k _ h ih =>
    have h_call : Action.Ends p k.onClock c (fun _ c' => Shows c' (k.onTim3 prescaler m).2)
        fun c' => Shows c' (k.onTim3 prescaler m).2 :=
      (ih.call p prescaler k).mono (fun _ _ h_c' => h_c'.2) fun _ h_c' => h_c'.2
    exact h_call.of_endsIn h
  | overflow _ ih => exact ih.raiseFlag update ⟨rfl, rfl⟩ rfl rfl
  | compareMatch _ _ ih => exact ih.raiseFlag cc1 ⟨rfl, rfl⟩ rfl rfl
  | time now count _ ih => exact ih.time now count

/-- **In step.** Whatever was called and whatever came by then, UIF is the overflow that the
simulated timer has pending and CC1IF its compare match, CEN is whether it runs, CC1IE whether it is
armed, and CCR1 the value. Every call has the same answer on both; only a start may trap, on the
simulated timer. Taking one flag, or disarming, leaves the other flag as it is. -/
theorem timer_flags (h : Tandem p prescaler c m) :
    Shows c m ∧
    (∀ k : TimerCall, Action.Ends p k.onClock c
      (fun answer _ => (k.onTim3 prescaler m).1 = answer) fun _ => k = .start) ∧
    (((TimerCall.onTim3 prescaler .takeOverflow m).2.read sr).getLsbD cc1 =
        (m.read sr).getLsbD cc1 ∧
      ((TimerCall.onTim3 prescaler .takeCompare m).2.read sr).getLsbD update =
        (m.read sr).getLsbD update ∧
      ((TimerCall.onTim3 prescaler .disarm m).2.read sr).getLsbD update =
        (m.read sr).getLsbD update) := by
  have h_shows := shows_of_tandem h
  refine ⟨h_shows, fun k => ?_, ?_, ?_, ?_⟩
  · exact (h_shows.call p prescaler k).mono (fun _ _ h_c' => h_c'.1) fun _ h_c' => h_c'.1
  · exact flag_takeFlag (by decide)
  · exact flag_takeFlag (by decide)
  · exact flag_disarm (by decide)

/-- Both flags are up when the overflow is taken. -/
theorem timer_flags_bothUp :
    ∃ c m, Tandem .debug 1 c m ∧ (TimerCall.onTim3 1 .takeCompare m).1 = some true ∧
      (m.read ccr1).toNat = 100 ∧ c.overflowPending = false := by
  have h_start : Tandem .debug 1 _ _ := .call .start (.reset {}) (.inl ⟨none, rfl⟩)
  have h_armed : Tandem .debug 1 _ _ := .call (.arm (.ofNat 100)) h_start (.inl ⟨none, rfl⟩)
  have h_up : Tandem .debug 1 _ _ := .compareMatch (.overflow h_armed) rfl
  have h_taken : Tandem .debug 1 _ _ := .call .takeOverflow h_up (.inl ⟨some true, rfl⟩)
  obtain ⟨h_shows, h_answers, -⟩ := timer_flags h_taken
  refine ⟨_, _, h_taken, h_answers .takeCompare, ?_, rfl⟩
  rw [h_shows.value_eq _ rfl]
  rfl

end Tim3

end ServoPulse
