import PulseSequencer.Binary64.Numeral
import PulseSequencer.Code.Listing
import PulseSequencer.Code.Machine
import PulseSequencer.Compiler.Compile
import PulseSequencer.Sequence.Reader

/-!
# The command line

`ipuc compile`, `ipuc disasm` and `ipuc run` as functions from the arguments and the files they name to what is printed.

* `CommandLine.Invocation` : the arguments, flags apart from the rest;
* `CommandLine.Files` : the text of a file, and the description a sequence file exports;
* `CommandLine.Transcript` : both output streams and the exit code; a `Breakdown` is an end that no command foresees;
* `CommandLine.run` : the whole.
-/

namespace PulseSequencer.CommandLine

/-! ## Arguments -/

structure Invocation where
  /-- The arguments that are no flags. -/
  words : List String
  /-- Flags with their values, in order. -/
  flags : List (String × String)

/-- A flag starts with two dashes; its value is between the first `=` and the next. -/
def flag? (arg : String) : Option (String × String) :=
  match arg.toList with
  | '-' :: '-' :: rest =>
    match Text.splitChars '=' rest with
    | [] => some ("", "")
    | [key] => some (String.ofList key, "")
    | key :: value :: _ => some (String.ofList key, String.ofList value)
  | _ => none

def Invocation.ofArgs (args : List String) : Invocation :=
  { words := args.filter fun a => (flag? a).isNone, flags := args.filterMap flag? }

namespace Invocation

/-- The value of a flag; the last one counts. -/
def value? (i : Invocation) (name : String) : Option String :=
  (i.flags.reverse.find? fun f => f.1 == name).map Prod.snd

def has (i : Invocation) (name : String) : Bool := (i.value? name).isSome

end Invocation

/-! ## Results -/

/-- An end that no command foresees. -/
inductive Breakdown where
  | badOptions (message : String)
  | stray (e : Machine.Stray)
  /-- The line of ticks, the search for a free one, or the list of variants is too long. -/
  | endless
  /-- The exported value is no complete description. -/
  | malformed
  /-- The sequence file cannot be loaded. -/
  | missing

structure Transcript where
  out : String
  err : String
  code : Nat
  breakdown : Option Breakdown

namespace Transcript

def silent : Transcript := ⟨"", "", 0, none⟩

def print (lines : List String) : Transcript := ⟨String.join (lines.map (· ++ "\n")), "", 0, none⟩

def complain (lines : List String) : Transcript := ⟨"", String.join (lines.map (· ++ "\n")), 0, none⟩

/-- Messages, and the end with exit code 1. -/
def refuse (lines : List String) : Transcript := { complain lines with code := 1 }

def breakDown (b : Breakdown) : Transcript := ⟨"", "", 1, some b⟩

/-- One after the other; nothing follows a breakdown, and the exit code tells whether anything failed. -/
def andThen (a b : Transcript) : Transcript :=
  if a.breakdown.isSome then a else ⟨a.out ++ b.out, a.err ++ b.err, max a.code b.code, b.breakdown⟩

end Transcript

def usage : Transcript := .refuse [
  "ipuc: IPU sequence compiler",
  "",
  "Usage: ipuc compile <sequence.ts> [--variant=N] [--all] [--truncate] [--high-time=N] [--json] [--disasm] " ++
    "[--listing] [--quiet]",
  "       ipuc disasm <words.txt>",
  "       ipuc run <words.txt> [--counts=ch:n,...]"]

/-- A flag with a whole number. -/
def intFlag (i : Invocation) (name : String) (fallback : Binary64) : Except Transcript Binary64 :=
  match i.value? name with
  | none => .ok fallback
  | some raw =>
    let n := Numeral.read raw
    if n.isWhole then .ok n else .error (.refuse [s!"Error: --{name} expects an integer, got '{raw}'"])

/-! ## Files -/

/-- What a sequence file exports. -/
inductive Export where
  /-- There is no such file. -/
  | absent
  /-- The file exports nothing. -/
  | nothing
  /-- A description, missing parts filled in. -/
  | sequence (s : Sequence)
  /-- A value as it stands. -/
  | value (j : Json)

structure Files where
  text? : String → Option String
  exported : String → Export

/-! ## Word files -/

/-- A line without its comment and the blanks around it. -/
def lineContent (line : String) : String :=
  String.ofList (Text.trimChars (line.toList.takeWhile (· != '#')))

/-- The words of the lines from a given number on. -/
def readLines (path : String) : Nat → List String → Except Transcript (List Word)
  | _, [] => .ok []
  | number, line :: rest =>
    let content := lineContent line
    if content.isEmpty then readLines path (number + 1) rest
    else
      let n := Numeral.read content
      if n.isWhole && decide (0 ≤ n) && decide (n ≤ 0xFFFFFFFF) then do
        return .ofNumber n :: (← readLines path (number + 1) rest)
      else .error (.refuse [s!"{path}:{number}: not a 32-bit word: '{content}'"])

def readWords (files : Files) (path : String) : Except Transcript (List Word) :=
  match files.text? path with
  | none => .error (.refuse [s!"Error: cannot read file '{path}'"])
  | some text => readLines path 1 (Text.splitAt '\n' text)

def badPair (pair : String) : Except Transcript (List (Int × Int)) :=
  .error (.refuse [s!"Error: bad --counts entry '{pair}', expected channel:count"])

/-- Pairs of a channel and its count; what follows a second colon is ignored. -/
def parsePairs : List String → Except Transcript (List (Int × Int))
  | [] => .ok []
  | pair :: rest =>
    match (Text.splitAt ':' pair).map Numeral.read with
    | channel :: count :: _ =>
      if channel.isWhole && count.isWhole then do
        return (channel.toWhole, count.toWhole) :: (← parsePairs rest)
      else badPair pair
    | _ => badPair pair

def parseCounts : Option String → Except Transcript (List (Int × Int))
  | none => .ok []
  | some raw => if raw.isEmpty then .ok [] else parsePairs (Text.splitAt ',' raw)

/-- The count of a channel: its last entry, 0 without one. -/
def countOf (counts : List (Int × Int)) (channel : Nat) : Int :=
  ((counts.reverse.find? fun e => e.1 == (channel : Int)).map Prod.snd).getD 0

/-! ## disasm and run -/

def disasm (files : Files) (path : String) : Except Transcript Transcript := do
  return .print [Listing.text (← readWords files path)]

def changeLine (c : Machine.Change) : String :=
  "  tick " ++ Text.padLeft 8 ' ' (Decimal.digitText c.tick) ++ "  bus " ++ Bits.hex c.value Bits.busDigits

def haltLine (s : Machine.State) : String :=
  "  halted (" ++ (s.halted.getD .tickLimit).name ++ ") after " ++ Decimal.digitText s.tick ++ " ticks, " ++
    Decimal.digitText s.jumps ++ " jumps taken"

def runWords (files : Files) (i : Invocation) (path : String) : Except Transcript Transcript := do
  let words ← readWords files path
  let counts ← parseCounts (i.value? "counts")
  let m : Machine := {
    words := words.toArray
    counts := fun channel _ => countOf counts channel
    maxJumps := Machine.defaultMaxJumps
    maxTicks := Machine.defaultMaxTicks }
  match m.run (.initial 0) with
  | .error e => return .breakDown (.stray e)
  | .ok s => return .print (s.changes.toList.map changeLine ++ [haltLine s])

/-! ## compile -/

/-- Whether an exported value looks like a description at all. -/
def looksLikeSequence (j : Json) : Bool :=
  (j.stringAt? "name").isSome && (j.numberAt? "length").isSome && ((j.member? "channels").bind Json.asArray?).isSome &&
    (match j.member? "hardware" with
      | some (.object _) | some (.array _) | some .null => true
      | _ => false)

/-- The text of a value inside a message. -/
def valueText : Option Json → String
  | none => "undefined"
  | some .null => "null"
  | some (.string s) => s
  | some (.number n) => n.text
  | some (.bool b) => if b then "true" else "false"
  | some _ => "[object Object]"

/-- A member that is a count, or the fault of a description that has none. -/
def checkCount (name : String) (j : Json) (member what : String) : Except Fault Unit :=
  let value := j.member? member
  let text := valueText value
  Sequence.require (((value.bind Json.asNumber?).map Sequence.isCount).getD false)
    (Sequence.invalid name s!"Sequence needs at least one {what}, got {text}")

/-- The faults of an incomplete description that come before its parts are read. -/
def checkParts (j : Json) : Except Fault Unit := do
  let name := (j.stringAt? "name").getD ""
  let length := (j.numberAt? "length").getD .nan
  Sequence.require (decide (0 < length)) (Sequence.invalid name s!"Sequence length must be positive, got {length}")
  checkCount name j "variants" "variant"
  checkCount name j "shots" "shot"
  match j.member? "hardware" with
  | none | some .null => pure ()
  | some hardware =>
    let text := valueText (hardware.member? "fpgaDelayUnit")
    Sequence.require (((hardware.numberAt? "fpgaDelayUnit").map fun u => decide (0 < u)).getD false)
      ⟨.invalidHardware, hardware.stringAt? "name", s!"FPGA delay unit must be positive, got {text}"⟩

/-- Whether an exported description names every part that it has to have. -/
def isComplete (j : Json) : Bool :=
  (j.member? "controlVariables").isSome &&
    match j.member? "hardware" with
    | some h =>
      (h.member? "outputs").isSome && (h.member? "counters").isSome && (h.member? "spcs").isSome &&
        (h.member? "controlRegister").isSome
    | none => false

/-- What there is to compile: the number of variants, and the compilation of one. -/
structure Source where
  variants : Option Binary64
  compile : Binary64 → Options → Except Breakdown (Attempt Compiled)

def Source.ofSequence [Collation] (s : Sequence) : Source :=
  ⟨some s.variants, fun variant o => .ok (s.compile variant o)⟩

def Source.ofValue [Collation] (j : Json) : Source :=
  { variants := j.numberAt? "variants"
    compile := fun variant o =>
      match checkParts j with
      | .error f => .ok (.fail f)
      | .ok () =>
        match if isComplete j then Sequence.ofJson? j else none with
        | some s => .ok (s.compile variant o)
        | none => .error .malformed }

def load [Collation] (files : Files) (path : String) : Except Transcript Source :=
  let refused : Except Transcript Source :=
    .error (.refuse [s!"Error: '{path}' does not default-export a sequence"])
  match files.exported path with
  | .absent => .error (.breakDown .missing)
  | .nothing => refused
  | .sequence s => .ok (.ofSequence s)
  | .value j => if looksLikeSequence j then .ok (.ofValue j) else refused

def red (s : String) : String := "\x1b[31m" ++ s ++ "\x1b[0m"
def green (s : String) : String := "\x1b[32m" ++ s ++ "\x1b[0m"
def yellow (s : String) : String := "\x1b[33m" ++ s ++ "\x1b[0m"

def showFault (path : String) (variant : Binary64) (f : Fault) : Transcript :=
  let subject := match f.subject with
    | some s => " (" ++ s ++ ")"
    | none => ""
  .refuse [red ("✗ " ++ path ++ " variant " ++ variant.text ++ ": " ++ f.kind.name ++ subject), "  " ++ f.message]

def showCompiled (i : Invocation) (path : String) (variant : Binary64) (c : Compiled) : Transcript :=
  if i.has "json" then .print [c.report.toJson.pretty]
  else if i.has "quiet" then .print [green ("✓ " ++ path ++ " variant " ++ variant.text)]
  else
    .print ([green ("✓ " ++ path) ++ " compiled successfully", Text.indent "  " c.report.summary] ++
      (if i.has "listing" then ["", Text.indent "    " c.listing] else []) ++
      (if i.has "disasm" then ["", Text.indent "    " (Listing.text c.words)] else []))

def showResult (i : Invocation) (path : String) (variant : Binary64) (a : Attempt Compiled) : Transcript :=
  let notes :=
    if i.has "quiet" then Transcript.silent
    else .complain (a.warnings.map fun w => "  " ++ yellow "warning" ++ " " ++ w.message)
  match a.outcome with
  | .ok c => notes.andThen (showCompiled i path variant c)
  | .error (.fault f) => notes.andThen (showFault path variant f)
  | .error .endlessLine | .error .endlessSearch => .breakDown .endless

/-- The variants that `--all` stands for. -/
def allVariants (variants : Option Binary64) : Except Transcript (List Binary64) :=
  match variants with
  | some (.infinite false) => .error (.breakDown .endless)
  | some n =>
    if 0xFFFFFFFF < n.toWhole then .error (.breakDown .endless)
    else .ok ((List.range n.toWhole.toNat).map Binary64.ofNat)
  | none => .ok []

def compileVariant (i : Invocation) (path : String) (source : Source) (o : Options) (variant : Binary64) : Transcript :=
  match source.compile variant o with
  | .ok a => showResult i path variant a
  | .error b => .breakDown b

def compile [Collation] (files : Files) (i : Invocation) (path : String) : Except Transcript Transcript := do
  let source ← load files path
  let highTime ← intFlag i "high-time" Options.standard.highTime
  let options : Options := { Options.standard with truncate := i.has "truncate", highTime }
  match options.check with
  | .error message => return .breakDown (.badOptions message)
  | .ok o =>
    let variants ← if i.has "all" then allVariants source.variants else do pure [← intFlag i "variant" 0]
    return variants.foldl (fun t v => if t.breakdown.isSome then t else t.andThen (compileVariant i path source o v))
      .silent

/-! ## The whole -/

def dispatch [Collation] (files : Files) (i : Invocation) : Except Transcript Transcript :=
  match i.words with
  | command :: path :: _ =>
    match command with
    | "compile" => compile files i path
    | "disasm" => disasm files path
    | "run" => runWords files i path
    | _ => .error usage
  | _ => .error usage

def run [Collation] (files : Files) (args : List String) : Transcript :=
  match dispatch files (.ofArgs args) with
  | .ok t => t
  | .error t => t

end PulseSequencer.CommandLine
