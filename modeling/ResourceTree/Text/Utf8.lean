import ResourceTree.Bytes

/-!
# UTF-8 faults — where octets stop being text

A well-formed character is one octet below 80, or a lead octet with one to three octets after it,
the second of them in a range that the lead fixes. A bad part is the longest beginning of a
character, or one octet when there is none; octets that end inside a character are incomplete.

* `Utf8Fault`, `Utf8Fault.message`;
* **`Utf8Fault.first?`**: the first fault of a run of octets.
-/

namespace ResourceTree.Text

/-- How a run of octets fails to be text: `index` octets are well formed. -/
inductive Utf8Fault where
  /-- A bad part of the given length. -/
  | malformed (length index : Nat)
  /-- The octets end inside a character. -/
  | incomplete (index : Nat)
deriving DecidableEq, Repr

def Utf8Fault.message : Utf8Fault → String
  | .malformed length index =>
    s!"invalid utf-8 sequence of {length} bytes from index {index}"
  | .incomplete index => s!"incomplete utf-8 byte sequence from index {index}"

/-- The ranges of the octets that may follow a lead octet; `none` when it leads no character. -/
def continuations (lead : UInt8) : Option (List (UInt8 × UInt8)) :=
  let any : UInt8 × UInt8 := (0x80, 0xbf)
  if lead < 0x80 then some []
  else if 0xc2 ≤ lead && lead ≤ 0xdf then some [any]
  else if lead = 0xe0 then some [(0xa0, 0xbf), any]
  else if lead = 0xed then some [(0x80, 0x9f), any]
  else if 0xe1 ≤ lead && lead ≤ 0xef then some [any, any]
  else if lead = 0xf0 then some [(0x90, 0xbf), any, any]
  else if 0xf1 ≤ lead && lead ≤ 0xf3 then some [any, any, any]
  else if lead = 0xf4 then some [(0x80, 0x8f), any, any]
  else none

/-- Reads octets in `index` order; `start` is the index of the lead octet of the character being
read and `due` what may still follow it. -/
def Utf8Fault.scan : (start index : Nat) → (due : List (UInt8 × UInt8)) → Bytes → Option Utf8Fault
  | start, _, _ :: _, [] => some (.incomplete start)
  | _, _, [], [] => none
  | start, index, range :: due, b :: bytes =>
    if range.1 ≤ b && b ≤ range.2 then scan start (index + 1) due bytes
    else some (.malformed (index - start) start)
  | _, index, [], b :: bytes =>
    match continuations b with
    | some due => scan index (index + 1) due bytes
    | none => some (.malformed 1 index)

/-- **The first fault**, if the octets are not text. -/
def Utf8Fault.first? (bytes : Bytes) : Option Utf8Fault := scan 0 0 [] bytes

end ResourceTree.Text
