/-!
# Order of names

How names are ordered depends on the language of the host. What matters here is that they can be sorted: a `Collation`
is a comparison that is the same from both sides and transitive.

Names in ASCII are compared character by character without regard to case: punctuation, then digits, then letters. Of
names that differ in case only, the one with the earlier small letter comes first.

* `Collation` : an order of names;
* `Text.weight` : the place of a character in ASCII in that order;
* `Text.collate`, `Collation.ascii` : the order of names in ASCII.
-/

namespace PulseSequencer

/-- A three-way comparison that names can be sorted by. -/
class Collation where
  compare : String → String → Ordering
  consistent : Std.TransCmp compare

instance [Collation] : Std.TransCmp Collation.compare := Collation.consistent

namespace Text

/-- Spaces, punctuation, symbols and digits in dictionary order. -/
def symbolOrder : List Char :=
  "\t\n\x0b\x0c\r _-,;:!?.'\"()[]\x7b\x7d@*/\\&#%\x60^+<=>|~$0123456789".toList

def isCapital (c : Char) : Bool := 'A' ≤ c && c ≤ 'Z'

def toSmall (c : Char) : Char := if isCapital c then Char.ofNat (c.toNat + 32) else c

/-- Symbols and digits come before letters; letters go by their small form. -/
def weight (c : Char) : Nat :=
  match symbolOrder.findIdx? (· == c) with
  | some i => i
  | none => 128 + (toSmall c).toNat

def weights (name : String) : List Nat := name.toList.map weight

/-- Where a name has capitals. -/
def capitals (name : String) : List Nat := name.toList.map fun c => (isCapital c).toNat

/-- Small letters before capitals, at the first place where the cases differ. -/
def collate : String → String → Ordering := compareLex (compareOn weights) (compareOn capitals)

instance : Std.TransCmp collate := inferInstanceAs (Std.TransCmp (compareLex (compareOn weights) (compareOn capitals)))

end Text

instance (priority := low) Collation.ascii : Collation := ⟨Text.collate, inferInstance⟩

end PulseSequencer
