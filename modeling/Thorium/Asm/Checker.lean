import Thorium.Asm.Syntax

/-!
# The register checker

Model of `src/asm/checker.rs`.
-/

namespace Thorium.Asm
open Thorium.Isa

/-- `Checker`. -/
structure Checker where
  registers : HashMap Nat

/-- `Checker::new`, on the `register_count` of its configuration. -/
def Checker.new (registerCount : Byte) : Checker where
  registers := (List.range registerCount.toNat).foldl (fun m r => m.insert s!"r{r}" r)
    ((((((HashMap.new.insert "pc" regPC).insert "sp" regSP).insert "bp" regBP).insert "cs" regCS).insert
      "ir" regIR).insert "idt" regIDT)

/-- `check_register_is_valid`. -/
def Checker.checkRegisterIsValid (ck : Checker) (registers : List String) : List String :=
  (registers.filter fun r => !ck.registers.containsKey r).map fun r => s!"{r} is not a valid register"

/-- The closure of `check` on a node. -/
def Checker.checkNode (ck : Checker) : Node → List String
  | .instruction (.IR _ r) => ck.checkRegisterIsValid [r]
  | .instruction (.IRR _ r1 r2) => ck.checkRegisterIsValid [r1, r2]
  | .instruction (.IRRR _ r1 r2 r3) => ck.checkRegisterIsValid [r1, r2, r3]
  | .instruction (.IRW _ r _) => ck.checkRegisterIsValid [r]
  | _ => []

/-- `Checker::check`. -/
def Checker.check (ck : Checker) (nodes : List Node) : Option (List String) :=
  let errors := nodes.flatMap ck.checkNode
  if errors.isEmpty then none else some errors

end Thorium.Asm
