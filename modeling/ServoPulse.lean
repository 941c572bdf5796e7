import ServoPulse.Action
import ServoPulse.Board
import ServoPulse.ChannelTable
import ServoPulse.Config.Decode
import ServoPulse.Engine.Basic
import ServoPulse.Engine.Commands
import ServoPulse.Engine.Pulses
import ServoPulse.Engine.Start
import ServoPulse.Engine.Stop
import ServoPulse.FallQueue
import ServoPulse.Pins.Bank
import ServoPulse.Pins.Outputs
import ServoPulse.Pins.Recorder
import ServoPulse.Proofs.Arrivals
import ServoPulse.Proofs.BoardInvariants
import ServoPulse.Proofs.ChipTracking
import ServoPulse.Proofs.Delays
import ServoPulse.Proofs.ExactStops
import ServoPulse.Proofs.FallTimes
import ServoPulse.Proofs.HeapQueues
import ServoPulse.Proofs.Independence
import ServoPulse.Proofs.LastWrites
import ServoPulse.Proofs.Mirroring
import ServoPulse.Proofs.NoTraps
import ServoPulse.Proofs.Observation
import ServoPulse.Proofs.Overruns
import ServoPulse.Proofs.OwnRegisters
import ServoPulse.Proofs.PeriodSpacing
import ServoPulse.Proofs.PinNames
import ServoPulse.Proofs.Polls
import ServoPulse.Proofs.PortLevels
import ServoPulse.Proofs.Prediction
import ServoPulse.Proofs.PulseHistory
import ServoPulse.Proofs.Refusals
import ServoPulse.Proofs.Requests
import ServoPulse.Proofs.Restarts
import ServoPulse.Proofs.Rounds
import ServoPulse.Proofs.SpeedLimits
import ServoPulse.Proofs.Strays
import ServoPulse.Proofs.Ticking
import ServoPulse.Proofs.TimeSlices
import ServoPulse.Proofs.TimerFlags
import ServoPulse.Proofs.Twins
import ServoPulse.Proofs.WakeUps
import ServoPulse.Simulation.Bench
import ServoPulse.Simulation.Clock
import ServoPulse.Simulation.Delay
import ServoPulse.Simulation.Run
import ServoPulse.Stm32.Chip
import ServoPulse.Stm32.Gpio
import ServoPulse.Stm32.Memory
import ServoPulse.Stm32.Pin
import ServoPulse.Stm32.Prescaler
import ServoPulse.Stm32.Timer
import ServoPulse.Text.Blank
import ServoPulse.Width
