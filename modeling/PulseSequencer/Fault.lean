/-!
# Faults, warnings and attempts

* `Fault` : why a description cannot be compiled, with the entity at fault;
* `Warning` : what was changed silently otherwise;
* `Attempt` : the warnings a task has recorded, and its result or the failure that ended it. Warnings recorded before a
  failure are kept.
-/

namespace PulseSequencer

inductive FaultKind where
  | invalidDefinition
  | invalidHardware
  | invalidVariable
  | unresolvedReference
  | recursiveReference
  | overlappingWindows
  | overlappingConditions
  | jumpCollision
  | unreachableTerminator
  | depthExceeded
  | tooManyConditions
  | controlRegisterOverflow
  | sequenceTooShort
  | notEnoughRoom
  | fieldOverflow
  | internal
deriving DecidableEq, Inhabited

namespace FaultKind

/-- Faults of the description come first, those of compilation after them. -/
def all : List FaultKind :=
  [invalidDefinition, invalidHardware, invalidVariable, unresolvedReference, recursiveReference, overlappingWindows,
    overlappingConditions, jumpCollision, unreachableTerminator, depthExceeded, tooManyConditions,
    controlRegisterOverflow, sequenceTooShort, notEnoughRoom, fieldOverflow, internal]

def name : FaultKind → String
  | invalidDefinition => "invalid-definition"
  | invalidHardware => "invalid-hardware"
  | invalidVariable => "invalid-variable"
  | unresolvedReference => "unresolved-reference"
  | recursiveReference => "recursive-reference"
  | overlappingWindows => "overlapping-windows"
  | overlappingConditions => "overlapping-conditions"
  | jumpCollision => "jump-collision"
  | unreachableTerminator => "unreachable-terminator"
  | depthExceeded => "depth-exceeded"
  | tooManyConditions => "too-many-conditions"
  | controlRegisterOverflow => "control-register-overflow"
  | sequenceTooShort => "sequence-too-short"
  | notEnoughRoom => "not-enough-room"
  | fieldOverflow => "field-overflow"
  | internal => "internal"

def ofName? (s : String) : Option FaultKind := all.find? fun k => k.name == s

/-- Whether the description itself is at fault, and not its compilation. -/
def concernsDescription : FaultKind → Bool
  | tooManyConditions | controlRegisterOverflow | sequenceTooShort | notEnoughRoom | fieldOverflow | internal => false
  | _ => true

end FaultKind

structure Fault where
  kind : FaultKind
  /-- The window, jump, channel, variable or block at fault. -/
  subject : Option String
  message : String
deriving DecidableEq, Inhabited

structure Warning where
  message : String
  subject : Option String
deriving DecidableEq, Inhabited

/-- What ends a task early. -/
inductive Failure where
  | fault (f : Fault)
  /-- The line of ticks is longer than `2 ^ 32 - 1`, so no instruction can be placed on it. -/
  | endlessLine
  /-- The search for a free tick does not get on, as there is no binary64 number for the tick before. -/
  | endlessSearch
deriving DecidableEq, Inhabited

structure Attempt (α : Type) where
  warnings : List Warning
  outcome : Except Failure α

namespace Attempt

protected def pure {α : Type} (a : α) : Attempt α := ⟨[], .ok a⟩

protected def bind {α β : Type} (x : Attempt α) (f : α → Attempt β) : Attempt β :=
  match x.outcome with
  | .error e => ⟨x.warnings, .error e⟩
  | .ok a => ⟨x.warnings ++ (f a).warnings, (f a).outcome⟩

instance : Monad Attempt where
  pure := Attempt.pure
  bind := Attempt.bind

def fail {α : Type} (f : Fault) : Attempt α := ⟨[], .error (.fault f)⟩

def record (warnings : List Warning) : Attempt Unit := ⟨warnings, .ok ()⟩

def warn (message : String) (subject : Option String) : Attempt Unit := record [⟨message, subject⟩]

def ofExcept {α : Type} : Except Fault α → Attempt α
  | .ok a => Attempt.pure a
  | .error f => fail f

instance : MonadLift (Except Fault) Attempt := ⟨ofExcept⟩

end Attempt

end PulseSequencer
