import PulseSequencer.Hardware.Basic
import PulseSequencer.Fault

/-!
# Checks of hardware configurations

* `Hardware.check` : channel numbers are in range and used once, names are unique, the control register has all of its
  bits, and its lines and the counter gates are nobody else's.
-/

namespace PulseSequencer.Hardware

def fault (subject message : String) : Fault := ⟨.invalidHardware, some subject, message⟩

/-- A whole number below the limit. -/
def checkRange (what subject : String) (limit : Nat) (channel : Binary64) : Except Fault Unit :=
  if channel.isWhole && decide (0 ≤ channel) && decide (channel < .ofNat limit) then .ok ()
  else .error (fault subject s!"{what} {channel} of '{subject}' outside 0..{limit - 1}")

/-- No key occurs twice. A keyed entry is a key and the subject to blame for a second use. -/
def checkUnique {κ : Type} (same : κ → κ → Bool) (text : κ → String) (what : String) :
    (seen : List κ) → List (κ × String) → Except Fault Unit
  | _, [] => .ok ()
  | seen, (key, subject) :: rest =>
    if seen.any fun k => same k key then .error (fault subject ("Duplicate " ++ what ++ " " ++ text key))
    else checkUnique same text what (key :: seen) rest

def checkUniqueChannels (what : String) (entries : List (Binary64 × String)) : Except Fault Unit :=
  checkUnique Binary64.sameKey Binary64.text what [] entries

def checkUniqueNames (names : List String) : Except Fault Unit :=
  checkUnique (fun a b => a == b) id "channel name" [] (names.map fun n => (n, n))

def holds (channels : List Binary64) (channel : Binary64) : Bool := channels.any fun c => c.sameKey channel

def checkRanges (h : Hardware) : Except Fault Unit := do
  h.outputs.forM fun o => checkRange "FPGA channel" o.name outputLimit o.channel
  h.inputs.forM fun i => checkRange "TDC channel" i.name inputLimit i.channel
  h.counters.forM fun c => do
    checkRange "SPC channel" c.name counterLimit c.channel
    checkRange "SPC gate" c.name outputLimit c.gate

def checkDuplicates (h : Hardware) : Except Fault Unit := do
  checkUniqueChannels "FPGA channel" (h.outputs.map fun o => (o.channel, o.name))
  checkUniqueChannels "TDC channel" (h.inputs.map fun i => (i.channel, i.name))
  checkUniqueChannels "SPC channel" (h.counters.map fun c => (c.channel, c.name))
  checkUniqueChannels "SPC gate" (h.counters.map fun c => (c.gate, c.name))
  checkUniqueNames (h.outputs.map OutputLine.name ++ h.inputs.map InputLine.name ++ h.counters.map PulseCounter.name)

/-- The bits are numbered from 0 without gaps, and every line is used once. -/
def checkRegister (h : Hardware) : Except Fault Unit := do
  (List.range h.register.length).forM fun i =>
    if holds (h.register.map RegisterBit.bit) (.ofNat i) then .ok ()
    else .error (fault h.name s!"Control register is missing bit {i}")
  checkUniqueChannels "control register bit" (h.register.map fun b => (b.bit, h.name))
  checkUniqueChannels "control register output" (h.register.map fun b => (b.output, h.name))
  checkUniqueChannels "control register input" (h.register.map fun b => (b.input, h.name))
  h.register.forM fun b => do
    checkRange "Control register output" h.name outputLimit b.output
    checkRange "Control register input" h.name inputLimit b.input

/-- The lines of the control register and the counter gates serve nothing else. -/
def checkSharing (h : Hardware) : Except Fault Unit := do
  let registerOutputs := h.register.map RegisterBit.output
  let registerInputs := h.register.map RegisterBit.input
  let gates := h.counters.map PulseCounter.gate
  h.outputs.forM fun o => do
    if holds registerOutputs o.channel then
      .error (fault o.name s!"FPGA channel {o.channel} of '{o.name}' is a control register output")
    if holds gates o.channel then
      .error (fault o.name s!"FPGA channel {o.channel} of '{o.name}' is an SPC gate")
  h.counters.forM fun c => do
    if holds registerOutputs c.gate then
      .error (fault c.name s!"SPC gate {c.gate} of '{c.name}' is a control register output")
  h.inputs.forM fun i => do
    if holds registerInputs i.channel then
      .error (fault i.name s!"TDC channel {i.channel} of '{i.name}' is a control register input")

def check (h : Hardware) : Except Fault Unit := do
  if !decide (0 < h.delayUnit) then
    .error (fault h.name s!"FPGA delay unit must be positive, got {h.delayUnit}")
  h.checkRanges
  h.checkDuplicates
  h.checkRegister
  h.checkSharing

end PulseSequencer.Hardware
