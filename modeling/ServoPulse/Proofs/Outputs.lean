import ServoPulse.Proofs.Steps

/-!
# The pins of the channels are outputs

In every state of a run, also of one in which a stop gives up waiting, the pin of each
configured channel was made an output, and an engine that runs has a configuration that
an engine can run with (`Prepared`). No request to a pin makes it anything but an output,
so only a new list of pins needs a look.
-/

namespace ServoPulse

namespace Engine

variable {P : Type} [PinBank P] [LawfulPinBank P] {p : Profile} {e e' : Engine (Bench P)}

open LawfulPinBank

/-- The channels can be pulsed, and an engine that runs can run. -/
structure Prepared (e : Engine (Bench P)) : Prop where
  valid : e.started = true → e.config.validate = .ok ()
  output : ∀ pin ∈ e.table.active.map Channel.pin, isOutput e.pins pin

namespace Prepared

theorem initial (config : Config) (lag now : Nat) (pins : P) :
    Prepared (fresh config lag now pins) where
  valid h := nomatch h
  output pin h := by
    change pin ∈ (List.take 0 _).map _ at h
    simp at h

/-- What keeps the setup, the pins of the channels and the outputs keeps an engine prepared. -/
theorem of_frame (h : Prepared e) (h_started : e'.started = e.started)
    (h_config : e'.config = e.config)
    (h_table : e'.table.active.map Channel.pin = e.table.active.map Channel.pin)
    (h_pins : ∀ x, isOutput e.pins x → isOutput e'.pins x) : Prepared e' where
  -- a valid configuration is needed only while the engine runs
  valid := by
    rw [h_started, h_config]
    exact h.valid
  output pin h_pin := by
    rw [h_table] at h_pin
    exact h_pins pin (h.output pin h_pin)

theorem beginPeriod (h : Prepared e) (h_run : Engine.beginPeriod.run p e = .ok () e') :
    Prepared e' := by
  obtain ⟨low, high, h_low, h_high, rfl⟩ := run_beginPeriod_eq_ok h_run
  refine h.of_frame rfl rfl e.table.map_pin_step fun x hx => ?_
  exact (PinBank.driveAll_isOutput h_high x).2 ((PinBank.driveAll_isOutput h_low x).2 hx)

theorem serveStable : ServeStable (Prepared (P := P)) where
  -- a driven pin is an output as before, and every other one too
  lower h _ _ _ h_run := by
    obtain ⟨pins, h_pins, rfl⟩ := run_lower_eq_ok_iff.1 h_run
    exact h.of_frame rfl rfl rfl fun x => (isOutput_drive h_pins x).2
  arm h _ _ _ _ _ := ⟨h.valid, h.output⟩
  setClock h _ _ := ⟨h.valid, h.output⟩
  setWrap h := ⟨h.valid, h.output⟩
  setPhase h := ⟨h.valid, h.output⟩
  beginPeriod := beginPeriod

theorem relist (h : Prepared e) (h_list : Relisted e e') : Prepared e' := by
  cases h_list with
  | resume moving => exact ⟨h.valid, h.output⟩
  | @list pins h_length h_nodup h_eligible =>
    refine ⟨h.valid, fun pin h_pin => ?_⟩
    change pin ∈ (ChannelTable.assign pins).active.map Channel.pin at h_pin
    rw [ChannelTable.map_pin_assign h_length] at h_pin
    exact ((PinBank.prepareAll_levels h_eligible).2.1 pin).2 (.inl h_pin)

/-- **Prepared engines.** Every step keeps an engine prepared. -/
theorem stable (cuts : Bool) : Stable p cuts (Prepared (P := P)) where
  valid := Prepared.valid
  advance h _ := ⟨h.valid, h.output⟩
  interrupt := serveStable.interrupt
  relist := relist
  launch h _ h_valid := ⟨fun _ => h_valid, h.output⟩
  -- a command changes positions and speeds, never pins
  command {e moving k} h := h.of_frame rfl rfl (ChannelTable.map_pin_modify k.write_pin) fun _ => id
  shutDown {e e'} h _ h_run := by
    -- lowering the pins at the end keeps them outputs
    obtain ⟨pins, h_pins, rfl⟩ := run_shutDown_eq_ok h_run
    exact ⟨nofun, fun pin h_pin =>
      (PinBank.driveAll_isOutput h_pins pin).2 (h.output pin h_pin)⟩

end Prepared

end Engine

end ServoPulse
