import ResourceTree.Codec.Packed

/-!
# Equality of values

Numbers are equal in their bits, objects and handles by what they refer to: an object by its
identity, a handle by its name alone. Dictionaries are equal when they give every name the same
value. Packed dictionaries are equal when their octets are, or when both open to equal
dictionaries.

* `Value.eqUsing`: equality over a given comparison of packed dictionaries;
* `Packed.eqWithin`: that comparison, through at most so many layers of compression;
* **`Value.beq`**, **`Dict.beq`**.
-/

namespace ResourceTree

namespace Value

mutual

/-- Equality of values, where packed dictionaries are compared by `packedEq`. -/
def eqUsing (packedEq : Packed → Packed → Bool) : Value → Value → Bool
  | null, null => true
  | bool a, bool b => a == b
  | number a, number b => a == b
  | string a, string b => a == b
  | binary a, binary b => a == b
  | dict ⟨_, entries⟩, dict d => entries.length == d.size && membersEq packedEq entries d
  | list as, list bs => itemsEq packedEq as bs
  | object a, object b => a.id == b.id
  | packed a, packed b => packedEq a b
  | resource a, resource b => a.name == b.name
  | _, _ => false

/-- Whether a dictionary gives every one of the names the value beside it. -/
def membersEq (packedEq : Packed → Packed → Bool) : List (String × Value) → Dict Value → Bool
  | [], _ => true
  | (name, value) :: rest, d =>
    (match d.get? name with
      | some other => eqUsing packedEq value other
      | none => false) && membersEq packedEq rest d

def itemsEq (packedEq : Packed → Packed → Bool) : List Value → List Value → Bool
  | [], [] => true
  | a :: as, b :: bs => eqUsing packedEq a b && itemsEq packedEq as bs
  | _, _ => false

end

end Value

/-- Equality of dictionaries, where packed dictionaries inside are compared by `packedEq`. -/
def Dict.eqUsing (packedEq : Packed → Packed → Bool) (a b : Dict Value) : Bool :=
  a.size == b.size && Value.membersEq packedEq a.entries b

/-- Equality of packed dictionaries; beyond the given number of layers octets are compared. -/
def Packed.eqWithin : Nat → Packed → Packed → Bool
  | 0, a, b => a == b
  | layers + 1, a, b => a == b ||
    match a.unpack, b.unpack with
    | .ok x, .ok y => Dict.eqUsing (eqWithin layers) x y
    | _, _ => false

/-- Comparison looks through this many layers of compression, one inside the other. -/
def compressionLayers : Nat := 4096

def Packed.beq : Packed → Packed → Bool := Packed.eqWithin compressionLayers

/-- **Equality of values.** -/
def Value.beq : Value → Value → Bool := Value.eqUsing Packed.beq

/-- **Equality of dictionaries.** -/
def Dict.beq : Dict Value → Dict Value → Bool := Dict.eqUsing Packed.beq

instance : BEq Value := ⟨Value.beq⟩

instance : BEq (Dict Value) := ⟨Dict.beq⟩

end ResourceTree
