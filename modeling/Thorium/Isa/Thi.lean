import Mathlib

/-!
# The instruction-table generator

Model of `bin/thi/parser.lua` (`Arg`, `Instruction`, `parsePair`, `parseInstruction`) and of the parts
of `bin/thi.lua` that turn the parsed table into `op.rs` and `ops_array.h`. The input is the parsed
tree of an instruction file: a `Directive` is one `(op NAME …)`, a `Clause` is one of its parenthesised
parts. The generator threads the next free code through the directives and ends with one `Instruction`
per concrete form, in source order.

`os.exit(1)` and a Lua error are `Except.error`; positions are left out of the messages.
-/

namespace Thorium.Isa

/-- `ArgType` (`parser.lua`). -/
inductive ArgType where
  | register
  | word
  | byte
  | csRelativeAddress
  | absoluteAddress
  deriving DecidableEq, Repr

/-- `Arg` (`parser.lua`): `r0` is the register argument `0`. -/
structure Arg where
  type : ArgType
  value : Nat
  deriving DecidableEq, Repr

/-- `Arg:size`. -/
def Arg.size (a : Arg) : Nat :=
  match a.type with
  | .register => 1
  | .byte => 1
  | .word => 4
  | .csRelativeAddress => 4
  | .absoluteAddress => 4

/-- `Arg:typeLetter`. -/
def Arg.typeLetter (a : Arg) : Char :=
  match a.type with
  | .register => 'r'
  | .byte => 'b'
  | .word => 'w'
  | .csRelativeAddress => 's'
  | .absoluteAddress => 'a'

/-- The value of `parsePair`: one `(key …)` of a directive. -/
inductive Pair where
  | code (n : Nat)
  | args (as : List Arg)
  | flags (fs : List String)
  | cond (text : String)
  | effect (text : String)
  | comment (text : String)
  deriving Repr

/-- A part of a directive: a pair, or a parenthesised list of pairs describing one form. -/
inductive Clause where
  | pair (p : Pair)
  | nested (ps : List Pair)
  deriving Repr

/-- One `(op NAME …)` of an instruction file. -/
structure Directive where
  name : String
  clauses : List Clause
  deriving Repr

/-- `Instruction` (`parser.lua`). -/
structure Instruction where
  name : String
  args : List Arg := []
  flags : List String := []
  code : Option Nat := none
  effect : String := "n/a"
  cond : String := ""
  comment : String := ""
  abstract : Bool := false
  deriving DecidableEq, Repr

/-- What `parseInstruction` does with one pair, `nextCode` being `self.op.nextCode`. -/
def applyPair (nested : Bool) (i : Instruction) (nextCode : Nat) :
    Pair → Except String (Instruction × Nat)
  | .code n => if n < nextCode then .ok (i, nextCode) else .ok ({ i with code := some n }, n)
  | .cond t => .ok ({ i with cond := t }, nextCode)
  | .effect t => .ok ({ i with effect := t }, nextCode)
  | .comment t => .ok ({ i with comment := t }, nextCode)
  | .flags fs => .ok ({ i with flags := fs }, nextCode)
  | .args as =>
    if nested then .ok ({ i with abstract := false, args := as }, nextCode)
    else .error "Args not supported"

/-- `applyPair` over a list of pairs. -/
def applyPairs (nested : Bool) (i : Instruction) (nextCode : Nat) :
    List Pair → Except String (Instruction × Nat)
  | [] => .ok (i, nextCode)
  | p :: ps => do
    let (i, nextCode) ← applyPair nested i nextCode p
    applyPairs nested i nextCode ps

/-- The closing parenthesis of `parseInstruction`: a concrete instruction takes its own code, or the
next free one. -/
def closeInstruction (i : Instruction) (nextCode : Nat) : List Instruction × Nat :=
  if i.abstract then ([], nextCode)
  else ([{ i with code := some (i.code.getD nextCode) }], nextCode + 1)

/-- The nested call of `parseInstruction` and the `[1]` taken of its result. -/
def parseNested (i : Instruction) (nextCode : Nat) (ps : List Pair) :
    Except String (Instruction × Nat) := do
  let (i, nextCode) ← applyPairs true { i with code := none } nextCode ps
  match closeInstruction i nextCode with
  | (i :: _, nextCode) => .ok (i, nextCode)
  | ([], _) => .error "bad argument #1 to 'setmetatable'"

/-- The loop of `parseInstruction` over the parts of a directive. -/
def parseClauses (i : Instruction) (nextCode : Nat) (instructions : List Instruction) :
    List Clause → Except String (List Instruction × Nat)
  | [] =>
    let (own, nextCode) := closeInstruction i nextCode
    .ok (instructions ++ own, nextCode)
  | .pair p :: cs => do
    let (i, nextCode) ← applyPair false i nextCode p
    parseClauses i nextCode instructions cs
  | .nested ps :: cs => do
    let i := { i with abstract := true }
    let (form, nextCode) ← parseNested i nextCode ps
    parseClauses i nextCode (instructions ++ [form]) cs

/-- `parseInstruction` on a top-level directive. -/
def parseInstruction (nextCode : Nat) (d : Directive) : Except String (List Instruction × Nat) :=
  parseClauses { name := d.name } nextCode [] d.clauses

/-- `Parser:parse`, from the first code on. -/
def parseDirectives (nextCode : Nat) : List Directive → Except String (List Instruction)
  | [] => .ok []
  | d :: ds => do
    let (is, nextCode) ← parseInstruction nextCode d
    let rest ← parseDirectives nextCode ds
    .ok (is ++ rest)

/-- `Instruction:size`. -/
def Instruction.size (i : Instruction) : Nat := 1 + (i.args.map Arg.size).sum

/-- `roundTo` (`thi.lua`). -/
def roundTo (a b : Nat) : Nat := (a + b - 1) / b * b

/-- The type letters of the arguments. -/
def Instruction.suffix (i : Instruction) : List Char := i.args.map Arg.typeLetter

/-- The name of an instruction in `pub enum Op`, such as `MovRW`. -/
def Instruction.variant (i : Instruction) : String :=
  String.ofList ((i.name.toList.take 1).map Char.toUpper ++ (i.name.toList.drop 1).map Char.toLower ++
    i.suffix.map Char.toUpper)

/-- The value `Op::length` returns for an instruction. -/
def Instruction.length (i : Instruction) : Nat := roundTo i.size 4

/-- The code of a concrete instruction. -/
def Instruction.opcode (i : Instruction) : Nat := i.code.getD 0

/-- The table `instructions` of `thi.lua`, filled by `instructions[v.code] = v`: the last one wins. -/
def instructionAt (ast : List Instruction) (n : Nat) : Option Instruction :=
  ast.reverse.find? fun v => v.opcode == n

end Thorium.Isa
