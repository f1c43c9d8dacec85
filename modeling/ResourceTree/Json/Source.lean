import ResourceTree.Error
import ResourceTree.Json.Tree

/-!
# Sources — texts whose top level is an object

A fault is reported by line and column, the column counting octets. From these two the byte offset
is worked out again, and the text around it is shown: the sixteen octets on either side, as far as
the text goes, and the rest of the characters that they cut, with line feeds as spaces.

* `Location`, `Location.of`: line and column of an index;
* `byteOffset`: the offset of a line and a column;
* `boundaryBefore`, `boundaryFrom`, `cut?`, `snippet?`: the text around an offset;
* **`parseSource`**.
-/

namespace ResourceTree.Json

/-- A place in a text: lines count from one, columns are the octets since the last line feed. -/
structure Location where
  line : Nat
  column : Nat
deriving DecidableEq, Repr

def lineFeed : UInt8 := 0x0a

/-- The place behind the given octets. -/
def Location.of (before : Bytes) : Location :=
  ⟨1 + before.count lineFeed, (before.reverse.takeWhile (· ≠ lineFeed)).length⟩

/-- The index behind the first `n` line feeds, or the end of the octets. -/
def lineStart : Nat → Bytes → Nat
  | 0, _ => 0
  | _, [] => 0
  | n + 1, b :: rest => 1 + lineStart (if b = lineFeed then n else n + 1) rest

/-- The offset of a place, one octet before its column where the line has begun. -/
def byteOffset (text : Bytes) (place : Location) : Nat :=
  min (lineStart (place.line - 1) text + (place.column - 1)) text.length

/-- Octets shown on each side of a fault. -/
def snippetRadius : Nat := 16

/-- Whether an index lies between two characters, or at an end of the text. -/
def isBoundary (text : String) (i : Nat) : Bool := String.Pos.Raw.isValid text ⟨i⟩

/-- The last boundary up to an index. -/
def boundaryBefore (text : String) : Nat → Nat
  | 0 => 0
  | i + 1 => if isBoundary text (i + 1) then i + 1 else boundaryBefore text i

/-- The first boundary from an index of the text on. -/
def boundaryFrom (text : String) (i : Nat) : Nat :=
  if _ : i < text.utf8ByteSize ∧ ¬isBoundary text i then boundaryFrom text (i + 1) else i
termination_by text.utf8ByteSize - i

/-- The part of a text between two indices; there is none when one of them is no boundary, or the
first is behind the second. -/
def cut? (text : String) (start stop : Nat) : Option String := do
  let first ← text.pos? ⟨start⟩
  let last ← text.pos? ⟨stop⟩
  if start ≤ stop then some (text.extract first last) else none

/-- A text with spaces for its line feeds. -/
def onOneLine (text : String) : String :=
  String.ofList (text.toList.map fun c => if c = '\n' then ' ' else c)

/-- The text around an offset, on one line. -/
def snippet? (text : String) (offset : Nat) : Option String :=
  let start := boundaryBefore text (offset - snippetRadius)
  let stop := boundaryFrom text (min (offset + snippetRadius) text.utf8ByteSize)
  (cut? text start stop).map onOneLine

/-- What stands at the top level where an object should. -/
def topLevelName : Value → String
  | .null => "null"
  | .bool _ => "a boolean"
  | .number _ => "a number"
  | .string _ => "a string"
  | _ => "an array"

/-- The error at an offset of a text, where there is always text around it. -/
def errorAt (text : String) (offset : Nat) (message : String) : ResourceError :=
  .parse offset ((snippet? text offset).getD "") message

/-- The error that a fault in a text amounts to. -/
def Fault.toError (text : String) (fault : Fault) : ResourceError :=
  let bytes := Bytes.ofString text
  let place := Location.of (bytes.take fault.index)
  errorAt text (byteOffset bytes place)
    s!"{fault.problem.message} at line {place.line} column {place.column}"

/-- **The dictionary of a source text.** -/
def parseSource (text : String) : Except ResourceError (Dict Value) :=
  match tree ⟨0, Bytes.ofString text⟩ with
  | .error fault => .error (fault.toError text)
  | .ok (.dict d, _) => .ok d
  | .ok (v, _) =>
    .error (errorAt text 0 s!"expected an object at the top level, found {topLevelName v}")

end ResourceTree.Json
