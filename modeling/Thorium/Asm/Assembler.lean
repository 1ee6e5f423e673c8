import Thorium.Asm.AddressResolver
import Thorium.Asm.Parser
import Thorium.Asm.Registers

/-!
# The assembler

Model of `main` (`src/asm/main.rs`), from the texts of its input files to what it prints or writes.
-/

namespace Thorium.Asm

/-- What `main` ends with: the errors it prints, or the bytes it writes to the output. -/
inductive Output where
  | errors (lines : List String)
  | image (bytes : List Byte)
  deriving DecidableEq, Repr

/-- `main` behind the parser. -/
def assembleNodes (nodes : List Node) : Option Output :=
  (resolve nodes).bind fun
    | .error err => some (.errors [s!"Semantic error: {err}"])
    | .ok addresses =>
      match mainChecker.check nodes with
      | some errors => some (.errors (errors.map fun error => s!"Semantic error: {error}"))
      | none => (Emitter.mk nodes addresses).emit.map .image

/-- `main`, on the texts of the input files. A panic is `none`. -/
def assemble [Unicode] (texts : List String) : Option Output :=
  (parseFiles .new [] texts).bind fun
    | .error err => some (.errors [s!"Syntax error: {err}"])
    | .ok nodes => assembleNodes nodes

/-- What has been written went through all the passes. -/
lemma assemble_image [Unicode] {texts : List String} {bytes : List Byte}
    (h : assemble texts = some (.image bytes)) : ∃ nodes addresses, parseFiles .new [] texts = some (.ok nodes) ∧
      resolve nodes = some (.ok addresses) ∧ mainChecker.check nodes = none ∧
        (Emitter.mk nodes addresses).emit = some bytes := by
  obtain ⟨r, hparse, h⟩ := Option.bind_eq_some_iff.mp h
  cases r with
  | error err => cases h
  | ok nodes =>
    obtain ⟨r, hresolve, h⟩ := Option.bind_eq_some_iff.mp h
    cases r with
    | error err => cases h
    | ok addresses =>
      dsimp only at h
      cases hcheck : mainChecker.check nodes with
      | some errors =>
        rw [hcheck] at h
        cases h
      | none =>
        rw [hcheck] at h
        obtain ⟨bytes', hemit, h⟩ := Option.map_eq_some_iff.mp h
        cases h
        exact ⟨nodes, addresses, hparse, hresolve, hcheck, hemit⟩

end Thorium.Asm
