/-!
# Errors — why a resource operation failed, and what a compile reports

* `ResourceError`, its `message`, and the `source?` of a failed file operation;
* `Diagnostic`, `Diagnostic.Kind`: one problem of a compile, at a path of the tree;
* `Diagnostic.ofError`: the problem that an error of an operation amounts to.
-/

namespace ResourceTree

/-- Why an operation failed. -/
inductive ResourceError where
  | notFound (path : String)
  /-- A file operation failed for the given cause. -/
  | io (path cause : String)
  /-- Source text is malformed at a byte offset, with the text around it. -/
  | parse (offset : Nat) (snippet message : String)
  | decode (message : String)
  | encode (message : String)
  | unknownType (typeName : String)
  | load (typeName message : String)
  | other (message : String)
deriving DecidableEq, Repr, Inhabited

namespace ResourceError

def message : ResourceError → String
  | notFound path => s!"Not found: {path}"
  | io path cause => s!"IO error on '{path}': {cause}"
  | parse offset snippet message =>
    s!"Parse error at byte {offset} near `{snippet}`: {message}"
  | decode message => s!"Decode error: {message}"
  | encode message => s!"Encode error: {message}"
  | unknownType typeName => s!"No class registered for type: {typeName}"
  | load typeName message => s!"Failed to load '{typeName}': {message}"
  | other message => s!"Resource error: {message}"

/-- The name of the kind of error. -/
def title : ResourceError → String
  | notFound _ => "NotFound"
  | io .. => "Io"
  | parse .. => "Parse"
  | decode _ => "Decode"
  | encode _ => "Encode"
  | unknownType _ => "UnknownType"
  | load .. => "Load"
  | other _ => "Other"

/-- The cause behind the error; only a failed file operation has one. -/
def source? : ResourceError → Option String
  | io _ cause => some cause
  | _ => none

end ResourceError

/-- What a diagnostic is about. -/
inductive Diagnostic.Kind where
  | parse
  | resolution
  | instantiation
  | dependency
deriving DecidableEq, Repr, Inhabited

namespace Diagnostic.Kind

def label : Diagnostic.Kind → String
  | parse => "parse"
  | resolution => "resolution"
  | instantiation => "instantiation"
  | dependency => "dependency"

/-- The capitalised label. -/
def title : Diagnostic.Kind → String
  | parse => "Parse"
  | resolution => "Resolution"
  | instantiation => "Instantiation"
  | dependency => "Dependency"

def ofLabel? (label : String) : Option Diagnostic.Kind :=
  [parse, resolution, instantiation, dependency].find? fun kind => kind.label = label

end Diagnostic.Kind

/-- One problem of a compile. The path is empty when the problem concerns the whole source. -/
structure Diagnostic where
  kind : Diagnostic.Kind
  path : String
  message : String
deriving DecidableEq, Repr, Inhabited

namespace Diagnostic

def text (d : Diagnostic) : String :=
  if d.path.isEmpty then s!"{d.kind.label} error: {d.message}"
  else s!"{d.kind.label} error at {d.path}: {d.message}"

/-- Diagnostics are ordered by label, path and message. -/
def order (a b : Diagnostic) : Ordering :=
  (compare a.kind.label b.kind.label).then
    ((compare a.path b.path).then (compare a.message b.message))

/-- The diagnostic of an error that concerns the whole source. -/
def ofError (e : ResourceError) : Diagnostic :=
  let kind := match e with
    | .parse .. => Kind.parse
    | .load .. => Kind.instantiation
    | _ => Kind.resolution
  ⟨kind, "", e.message⟩

end Diagnostic

end ResourceTree
