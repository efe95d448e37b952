/-!
# Blank characters and layout of text

* `Text.isBlank`, `Text.trim` : Unicode spaces, line ends and the byte order mark, removed at both ends;
* `Text.padLeft`, `Text.indent` : column layout;
* `Text.splitAt` : the pieces between separators.
-/

namespace PulseSequencer.Text

/-- Tabs, line ends, Unicode space separators and the byte order mark. -/
def isBlank (c : Char) : Bool :=
  let n := c.toNat
  (9 ≤ n && n ≤ 13) || n == 32 || n == 0xA0 || n == 0x1680 || (0x2000 ≤ n && n ≤ 0x200A) ||
    n == 0x2028 || n == 0x2029 || n == 0x202F || n == 0x205F || n == 0x3000 || n == 0xFEFF

def trimChars (cs : List Char) : List Char :=
  ((cs.dropWhile isBlank).reverse.dropWhile isBlank).reverse

def trim (s : String) : String := String.ofList (trimChars s.toList)

def padLeft (width : Nat) (c : Char) (s : String) : String :=
  String.ofList (List.replicate (width - s.length) c) ++ s

/-- The pieces between the separators; one more than there are separators. -/
def splitChars (separator : Char) : List Char → List (List Char)
  | [] => [[]]
  | c :: rest =>
    match splitChars separator rest with
    | [] => [[c]]
    | piece :: pieces => if c = separator then [] :: piece :: pieces else (c :: piece) :: pieces

def splitAt (separator : Char) (s : String) : List String :=
  (splitChars separator s.toList).map String.ofList

/-- A character after which a new line starts. -/
def endsLine (c : Char) : Bool :=
  c == '\n' || c == '\r' || c.toNat == 0x2028 || c.toNat == 0x2029

/-- Puts `margin` in front of every line. -/
def indent (margin : String) (s : String) : String :=
  margin ++ String.join (s.toList.map fun c => if endsLine c then c.toString ++ margin else c.toString)

def lines (ls : List String) : String := String.intercalate "\n" ls

end PulseSequencer.Text
