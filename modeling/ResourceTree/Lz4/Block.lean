import ResourceTree.Bytes

/-!
# Blocks — reading compressed octets

A frame is a size word and a block. A block is a run of sequences; a sequence is a token octet,
literals, and a match that repeats octets of the output so far. The token's high half counts the
literals and its low half the match beyond four octets; a half of fifteen is continued in further
octets until one is not 255. The block may end after any literals.

* `BlockFault`, `BlockFault.message`;
* `readCount`, `copyMatch`;
* **`expandBlock`**, **`decompress`**.
-/

namespace ResourceTree.Lz4

/-- Why compressed octets cannot be expanded. -/
inductive BlockFault where
  /-- The input ends where an octet is due. -/
  | expectedByte
  | literalOutOfBounds
  /-- The output would grow to `needed` octets where the frame announces `room`. -/
  | outputTooSmall (room needed : Nat)
  | zeroOffset
  | offsetOutOfBounds
deriving DecidableEq, Repr

def BlockFault.message : BlockFault → String
  | expectedByte => "expected another byte, found none"
  | literalOutOfBounds => "literal is out of bounds of the input"
  | outputTooSmall room needed =>
    s!"provided output is too small for the decompressed data, actual {room}, expected {needed}"
  | zeroOffset => "0 is not a valid match offset"
  | offsetOutOfBounds => "the offset to copy is not contained in the decompressed buffer"

/-- Adds octets to a count until one is not 255. -/
def readExtension : Nat → Bytes → Except BlockFault (Nat × Bytes)
  | _, [] => .error .expectedByte
  | count, b :: rest =>
    if b = 255 then readExtension (count + 255) rest else .ok (count + b.toNat, rest)

/-- The count that half a token stands for. -/
def readCount (half : Nat) (rest : Bytes) : Except BlockFault (Nat × Bytes) :=
  if half = 15 then readExtension 15 rest else .ok (half, rest)

/-- Appends `length` octets, each the one `offset` places before it. -/
def copyMatch (offset : Nat) : Nat → Array UInt8 → Array UInt8
  | 0, out => out
  | length + 1, out => copyMatch offset length (out.push (out.getD (out.size - offset) 0))

/-- Appends the literals of a sequence. -/
def takeLiterals (room count : Nat) (rest : Bytes) (out : Array UInt8) :
    Except BlockFault (Bytes × Array UInt8) :=
  if count = 0 then .ok (rest, out)
  else
    match rest.split? count with
    | none => .error .literalOutOfBounds
    | some (literals, rest) =>
      if room < out.size + count then .error (.outputTooSmall room (out.size + count))
      else .ok (rest, out.appendList literals)

/-- Appends the match of a sequence whose token has the low half `half`. -/
def takeMatch (room half : Nat) (rest : Bytes) (out : Array UInt8) :
    Except BlockFault (Bytes × Array UInt8) :=
  match rest.split? 2 with
  | none => .error .expectedByte
  | some (word, rest) =>
    let offset := word.toNat
    if offset = 0 then .error .zeroOffset
    else do
      let (extra, rest) ← readCount half rest
      let length := 4 + extra
      if room < out.size + length then .error (.outputTooSmall room (out.size + length))
      else if out.size < offset then .error .offsetOutOfBounds
      else .ok (rest, copyMatch offset length out)

/-- Expands sequences; every one takes a token, so as many steps as octets are enough. -/
def expandSequences (room : Nat) : Nat → Bytes → Array UInt8 → Except BlockFault (Array UInt8)
  | _, [], _ => .error .expectedByte
  | 0, _ :: _, _ => .error .expectedByte
  | steps + 1, token :: rest, out => do
    let (count, rest) ← readCount (token.toNat / 16) rest
    let (rest, out) ← takeLiterals room count rest out
    if rest.isEmpty then .ok out
    else
      let (rest, out) ← takeMatch room (token.toNat % 16) rest out
      expandSequences room steps rest out

/-- **Expands a block** into at most `room` octets. -/
def expandBlock (room : Nat) (block : Bytes) : Except BlockFault Bytes :=
  Array.toList <$> expandSequences room block.length block #[]

/-- **Expands a frame**: a size word, then a block that may come out shorter. -/
def decompress (frame : Bytes) : Except BlockFault Bytes :=
  match frame.split? 4 with
  | none => .error .expectedByte
  | some (size, block) => expandBlock size.toNat block

end ResourceTree.Lz4
