/-!
# Kinds — the ten kinds of value

* `Kind`, `Kind.all` in the order of their tags;
* `tag`, `ofTag?`: the octet that marks a kind in encoded form;
* `name`, `title`: its two spellings.
-/

namespace ResourceTree

/-- What a value is. -/
inductive Kind where
  | null
  | bool
  | number
  | string
  | binary
  | dict
  | list
  | object
  | compressed
  | resource
deriving DecidableEq, Repr, Inhabited

namespace Kind

/-- The kinds in the order of their tags. -/
def all : List Kind :=
  [null, bool, number, string, binary, dict, list, object, compressed, resource]

/-- The place of a kind in the order of tags. -/
def tag : Kind → Nat
  | null => 0
  | bool => 1
  | number => 2
  | string => 3
  | binary => 4
  | dict => 5
  | list => 6
  | object => 7
  | compressed => 8
  | resource => 9

def ofTag? (tag : Nat) : Option Kind := all[tag]?

/-- **A tag stands for the one kind that has it.** -/
theorem ofTag?_eq_some_iff {tag : Nat} {kind : Kind} : ofTag? tag = some kind ↔ kind.tag = tag := by
  constructor
  · intro h
    have hlt : tag < 10 := (List.getElem?_eq_some_iff.mp h).1
    match tag, hlt with
    | 0, _ | 1, _ | 2, _ | 3, _ | 4, _ | 5, _ | 6, _ | 7, _ | 8, _ | 9, _ =>
      simp [ofTag?, all] at h; subst h; rfl
  · rintro rfl
    cases kind <;> rfl

/-- The name of a kind in messages. -/
def name : Kind → String
  | null => "null"
  | bool => "bool"
  | number => "number"
  | string => "string"
  | binary => "binary"
  | dict => "dict"
  | list => "list"
  | object => "object"
  | compressed => "compressed"
  | resource => "resource"

/-- The kind with a given name. -/
def ofName? (name : String) : Option Kind := all.find? fun kind => kind.name = name

/-- The capitalised name, as the description of a handle shows it. -/
def title : Kind → String
  | null => "Null"
  | bool => "Bool"
  | number => "Number"
  | string => "String"
  | binary => "Binary"
  | dict => "Dict"
  | list => "List"
  | object => "Object"
  | compressed => "Compressed"
  | resource => "Resource"

end Kind

end ResourceTree
