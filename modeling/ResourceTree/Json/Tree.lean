import ResourceTree.Json.Numeral
import ResourceTree.Json.Quoted
import ResourceTree.Value.Basic

/-!
# Trees — values in source text

Objects become dictionaries, whose members are set in key order: of equal names the last one
counts, and null leaves its name out. Fewer than 128 brackets may be open at once.

* `literal`, `listTail`, `objectTail`;
* `value`: one value, with so many brackets still allowed;
* **`tree`**: a whole text.
-/

namespace ResourceTree.Json

/-- So many brackets may be open at once. -/
def bracketLimit : Nat := 127

/-- Takes the octets of a word, behind its first. -/
def word : List Char → Scan Unit
  | [] => return ()
  | c :: rest => do
    match ← next? with
    | none => failHere .endInValue
    | some b => if b = octet c then word rest else failHere .expectedIdent

/-- The elements of a list, behind one of them or behind the bracket; the last one read comes first.
Every element takes an octet. -/
def elements (value : Scan Value) : Nat → (first : Bool) → List Value → Scan (List Value)
  | 0, _, _ => failAhead .endInList
  | rounds + 1, first, items => do
    skipBlanks
    match ← peek? with
    | none => failAhead .endInList
    | some b =>
      if b = octet ']' then do
        skip
        return items.reverse
      else if first then do
        let item ← value
        elements value rounds false (item :: items)
      else if b = octet ',' then do
        skip
        skipBlanks
        match ← peek? with
        | none => failAhead .endInValue
        | some b =>
          if b = octet ']' then failAhead .trailingComma
          else do
            let item ← value
            elements value rounds false (item :: items)
      else failAhead .expectedListEnd

/-- A member: the name, whose quote is looked at, a colon and a value. -/
def member (value : Scan Value) : Scan (String × Value) := do
  skip
  let name ← quotedTail
  skipBlanks
  match ← peek? with
  | none => failAhead .endInObject
  | some b =>
    if b = octet ':' then do
      skip
      return (name, ← value)
    else failAhead .expectedColon

/-- The members of an object in key order, behind one of them or behind the brace. -/
def members (value : Scan Value) :
    Nat → (first : Bool) → List (String × Value) → Scan (List (String × Value))
  | 0, _, _ => failAhead .endInObject
  | rounds + 1, first, entries => do
    skipBlanks
    match ← peek? with
    | none => failAhead .endInObject
    | some b =>
      if b = octet '\x7d' then do
        skip
        return entries
      else if first then
        if b = octet '"' then do
          let (name, v) ← member value
          members value rounds false (Dict.insertSorted name v entries)
        else failAhead .keyNotString
      else if b = octet ',' then do
        skip
        skipBlanks
        match ← peek? with
        | none => failAhead .endInValue
        | some b =>
          if b = octet '"' then do
            let (name, v) ← member value
            members value rounds false (Dict.insertSorted name v entries)
          else if b = octet '\x7d' then failAhead .trailingComma
          else failAhead .keyNotString
      else failAhead .expectedObjectEnd

/-- A value that is no container. -/
def scalar (b : UInt8) : Scan Value := do
  if b = octet 'n' then do
    skip
    word ['u', 'l', 'l']
    return .null
  else if b = octet 't' then do
    skip
    word ['r', 'u', 'e']
    return .bool true
  else if b = octet 'f' then do
    skip
    word ['a', 'l', 's', 'e']
    return .bool false
  else if b = octet '-' then do
    skip
    return .number (← numeral true)
  else if isDigit b then return .number (← numeral false)
  else if b = octet '"' then do
    skip
    return .string (← quotedTail)
  else failAhead .expectedValue

/-- One value, where so many brackets may still be opened. -/
def value : Nat → Scan Value
  | 0 => do
    skipBlanks
    match ← peek? with
    | none => failAhead .endInValue
    | some b =>
      if b = octet '[' || b = octet '\x7b' then failAhead .recursionLimit else scalar b
  | levels + 1 => do
    skipBlanks
    match ← peek? with
    | none => failAhead .endInValue
    | some b =>
      if b = octet '[' then do
        skip
        return .list (← elements (value levels) ((← remaining) + 1) true [])
      else if b = octet '\x7b' then do
        skip
        let entries ← members (value levels) ((← remaining) + 1) true []
        return .dict (Dict.ofValues entries)
      else scalar b

/-- **A whole text**: one value, and nothing but blanks after it. -/
def tree : Scan Value := do
  let v ← value bracketLimit
  skipBlanks
  match ← peek? with
  | none => return v
  | some _ => failAhead .trailingCharacters

end ResourceTree.Json
