import StepperSynth.Common.Machine
import StepperSynth.Common.Scan
import StepperSynth.Midi
import StepperSynth.Common.History
import StepperSynth.Scheduler.Basic
import StepperSynth.Scheduler.Calls
import StepperSynth.Common.Bits
import StepperSynth.Pwm.Generator
import StepperSynth.Scheduler.Reference
import StepperSynth.Pwm.Channel
import StepperSynth.Pwm.Enables
import StepperSynth.Common.Pacing
import StepperSynth.Pwm.Waveform
import StepperSynth.Pwm.Enabling
import StepperSynth.Synth.Handler
import StepperSynth.Common.Fifo
import StepperSynth.Synth.Sounding
import StepperSynth.Synth.Tasks
import StepperSynth.Common.Cells
import StepperSynth.Common.Fields
import StepperSynth.Pwm.Pins
import StepperSynth.Usb.Init
import StepperSynth.Board.Init
import StepperSynth.Board.Delays
import StepperSynth.Usb.StringDescriptor
import StepperSynth.Pwm.Period
import StepperSynth.Common.Binary32
import StepperSynth.Tet
import StepperSynth.Synth.Pitch
import StepperSynth.Pwm.Latency
import StepperSynth.Synth.EndToEnd
import StepperSynth.Pwm.Interleaved
import StepperSynth.Board.Clock
import StepperSynth.Board.Setup
import StepperSynth.Synth.Silence
import StepperSynth.Common.Memory
import StepperSynth.Boot.Startup
import StepperSynth.Common.Bump
import StepperSynth.Boot.Sbrk
import StepperSynth.Common.Stutter
import StepperSynth.Synth.Refinement
import StepperSynth.Synth.Chord
