import ResourceTree.Text.Visible

/-!
# Quoted text — a text between double quotes

The quote and the backslash are escaped by a backslash, four controls by a letter or a digit, and
every other character that is not visible by its code point in lower-case hexadecimal between
braces.

* `hexDigits`: lower-case hexadecimal, padded to a width;
* `escape`, **`quoted`**.
-/

namespace ResourceTree.Text

/-- The lower-case hexadecimal digits of a natural, padded with zeros to `width`. -/
def hexDigits (width n : Nat) : String :=
  let digits := Nat.toDigits 16 n
  String.ofList (List.replicate (width - digits.length) '0' ++ digits)

/-- How one character is written between the quotes. -/
def escape (c : Char) : String :=
  match c with
  | '"' => "\\\""
  | '\\' => "\\\\"
  | '\n' => "\\n"
  | '\r' => "\\r"
  | '\t' => "\\t"
  | '\x00' => "\\0"
  | c => if isVisible c then c.toString else "\\u\x7b" ++ hexDigits 1 c.toNat ++ "\x7d"

/-- **The text between double quotes.** -/
def quoted (s : String) : String :=
  "\"" ++ String.join (s.toList.map escape) ++ "\""

end ResourceTree.Text
