import Thorium.Isa.Thi
import Thorium.Lib.Bytes

/-!
# The instruction set

The instruction table `src/common/instructions.thi`, the register numbers of
`src/common/registers.csv` and what the generators make of them: the type `Op` of `op.rs` with
`Op.length` and `Op.bytecode`, and the table `ops` of `ops_array.h`. An `Op` is tied to its row of the
table by the name of its variant, as in the generated code.
-/

namespace Thorium.Isa

/-- `REG_COUNT` (`bin/tha_generate_constants.sh`). -/
def regCount : Nat := 32

/-- `REG_CS` (`src/common/registers.csv`). -/
def regCS : Nat := 255

/-- `REG_PC` (`src/common/registers.csv`). -/
def regPC : Nat := 254

/-- `REG_BP` (`src/common/registers.csv`). -/
def regBP : Nat := 253

/-- `REG_SP` (`src/common/registers.csv`). -/
def regSP : Nat := 252

/-- `REG_IR` (`src/common/registers.csv`). -/
def regIR : Nat := 251

/-- `REG_IDT` (`src/common/registers.csv`). -/
def regIDT : Nat := 250

section Table

/-- Register argument. -/
private abbrev r (n : Nat) : Arg := ⟨.register, n⟩

/-- Word argument. -/
private abbrev w (n : Nat) : Arg := ⟨.word, n⟩

/-- Byte argument. -/
private abbrev b (n : Nat) : Arg := ⟨.byte, n⟩

/-- Address argument relative to `cs`, written `@n`. -/
private abbrev s (n : Nat) : Arg := ⟨.csRelativeAddress, n⟩

/-- Absolute address argument, written `&n`. -/
private abbrev a (n : Nat) : Arg := ⟨.absoluteAddress, n⟩

/-- A form with its arguments and effect. -/
private abbrev form (as : List Arg) (effect : String) : Clause := .nested [.args as, .effect effect]

/-- A form that lists `(flags n,z)`. -/
private abbrev formNZ (as : List Arg) (effect : String) : Clause :=
  .nested [.args as, .effect effect, .flags ["n", "z"]]

/-- `src/common/instructions.thi`. -/
def instructionsThi : List Directive := [
  ⟨"NOP", [.pair (.code 0), .pair (.effect "none")]⟩,
  ⟨"HALT", [.pair (.effect "halts the CPU")]⟩,
  ⟨"PANIC", [.pair (.effect "halts the CPU in error mode")]⟩,
  ⟨"MOV", [
    .nested [.args [r 0, w 0], .effect "`r0 = w0`", .flags ["n", "z"],
      .comment "`w0` may be an address in assembly code"],
    formNZ [r 0, r 1] "`r0 = r1`"]⟩,
  ⟨"ADD", [formNZ [r 0, r 1] "`r0 = r0 + r1`", formNZ [r 0, w 0] "`r0 = r0 + w0`"]⟩,
  ⟨"SUB", [formNZ [r 0, r 1] "`r0 = r0 - r1`", formNZ [r 0, w 0] "`r0 = r0 - w0`"]⟩,
  ⟨"MUL", [formNZ [r 0, r 1] "`r0 = r0 * r1`", formNZ [r 0, w 0] "`r0 = r0 * w0`"]⟩,
  ⟨"INC", [formNZ [r 0] "`r0 = r0 + 1`"]⟩,
  ⟨"DEC", [formNZ [r 0] "`r0 = r0 - 1`"]⟩,
  ⟨"AND", [formNZ [r 0, r 1] "`r0 = r0 & r1`", formNZ [r 0, w 0] "`r0 = r0 & w0`"]⟩,
  ⟨"OR", [formNZ [r 0, r 1] "`r0 = r0 | r1`", formNZ [r 0, w 0] "`r0 = r0 | w0`"]⟩,
  ⟨"XOR", [formNZ [r 0, r 1] "`r0 = r0 ^ r1`", formNZ [r 0, w 0] "`r0 = r0 ^ w0`"]⟩,
  ⟨"CMP", [formNZ [r 0, r 1] "updates flags as if `SUB r0, r1` was executed",
    formNZ [r 0, w 0] "updates flags as if `SUB r0, w0` was executed"]⟩,
  ⟨"PUSH", [form [r 0] "`[sp] = r0; sp = next(sp)`",
    form [r 0, r 1] "`[sp] = r0; [next(sp)] = r1; sp = next(next(sp))`",
    form [r 0, r 1, r 2]
      "`[sp] = r0; [next(sp)] = r1; [next(next(sp))] = r2; sp = next(next(next(sp)))`",
    form [w 0] "`[sp] = w0; sp = next(sp)`"]⟩,
  ⟨"PUSHA", [.pair (.effect "pushes all `r0..rn` to the stack")]⟩,
  ⟨"POP", [form [r 0] "`r0 = [prev(sp)]; sp = prev(sp)`",
    form [r 0, r 1] "`r0 = [prev(sp)]; r1 = [prev(prev(sp))]; sp = prev(sp)`",
    form [r 0, r 1, r 2]
      "`r0 = [prev(sp)]; r1 = [prev(prev(sp))]; r2 = [prev(prev(prev(sp)))]; sp = prev(sp)`"]⟩,
  ⟨"POPA", [.pair (.effect "pops all r0..rn from the stack")]⟩,
  ⟨"JEQ", [.nested [.args [s 0], .effect "`pc = cs + @0`", .cond "`z = 1`"],
    .nested [.args [a 0], .effect "`pc = &0`", .cond "`z = 1`"]]⟩,
  ⟨"JNE", [.nested [.args [s 0], .effect "`pc = cs + @0`", .cond "`z = 0`"],
    .nested [.args [a 0], .effect "`pc = &0`", .cond "`z = 0`"]]⟩,
  ⟨"J", [form [s 0] "`pc = cs + @0`", form [a 0] "`pc = &0`"]⟩,
  ⟨"CALL", [form [s 0] "`PUSH pc; J cs + @0`", form [a 0] "`PUSH pc; J &0`",
    form [r 0] "`PUSH pc; J r0`"]⟩,
  ⟨"RET", [.pair (.effect "`POP pc`")]⟩,
  ⟨"INT", [form [b 0] "triggers interrupt `b0`"]⟩,
  ⟨"IRET", [.pair (.effect "???")]⟩,
  ⟨"STOR", [form [r 0, r 1] "`[r0] = r1`",
    .nested [.args [r 0, w 0], .effect "`[w0] = r0`",
      .comment "`w0` is absolute, and may be an `&`-address in assembly code"]]⟩,
  ⟨"LOAD", [form [r 0, r 1] "`r0 = [r1]`", form [r 0, r 1, w 0] "`r0 = [r1 + w0]`",
    .nested [.args [r 0, w 0], .effect "`r0 = [w0]`",
      .comment "`w0` is absolute, and may be an `&`-address in assembly code"]]⟩,
  ⟨"MI", [form [b 0] "masks interrupt `b0`"]⟩,
  ⟨"UMI", [form [b 0] "unmasks interrupt `b0`"]⟩,
  ⟨"IND", [.pair (.effect "disable all interrupts")]⟩,
  ⟨"INE", [.pair (.effect "enables all interrupts")]⟩,
  ⟨"WFI", [.pair (.effect "pauses the CPU until the next interrupt is triggered")]⟩,
  ⟨"XBM", [.pair (.code 240), .pair (.comment "to remove")]⟩,
  ⟨"XDBG", [.pair (.comment "to remove")]⟩,
  ⟨"XPSE", [.pair (.effect "enables step printing")]⟩,
  ⟨"XPSD", [.pair (.effect "diables step printing")]⟩,
  ⟨"XBRK", [.pair (.effect "triggers VM (CPU) debugger")]⟩]

end Table

/-- The `ast` of `thi.lua` for `src/common/instructions.thi`. -/
def ast : List Instruction :=
  match parseDirectives 0 instructionsThi with
  | .ok is => is
  | .error _ => []

/-- `pub enum Op` (generated `op.rs`). -/
inductive Op where
  | nop | halt | panic
  | movRW | movRR | addRR | addRW | subRR | subRW | mulRR | mulRW | incR | decR
  | andRR | andRW | orRR | orRW | xorRR | xorRW | cmpRR | cmpRW
  | pushR | pushRR | pushRRR | pushW | pusha | popR | popRR | popRRR | popa
  | jeqS | jeqA | jneS | jneA | jS | jA | callS | callA | callR | ret | intB | iret
  | storRR | storRW | loadRR | loadRRW | loadRW
  | miB | umiB | ind | ine | wfi | xbm | xdbg | xpse | xpsd | xbrk
  deriving DecidableEq, Repr

namespace Op

/-- The variants of `Op`, in order. -/
def all : List Op := [nop, halt, panic, movRW, movRR, addRR, addRW, subRR, subRW, mulRR, mulRW, incR,
  decR, andRR, andRW, orRR, orRW, xorRR, xorRW, cmpRR, cmpRW, pushR, pushRR, pushRRR, pushW, pusha,
  popR, popRR, popRRR, popa, jeqS, jeqA, jneS, jneA, jS, jA, callS, callA, callR, ret, intB, iret,
  storRR, storRW, loadRR, loadRRW, loadRW, miB, umiB, ind, ine, wfi, xbm, xdbg, xpse, xpsd, xbrk]

/-- The name of a variant in `op.rs`. -/
def variant : Op → String
  | nop => "Nop" | halt => "Halt" | panic => "Panic"
  | movRW => "MovRW" | movRR => "MovRR" | addRR => "AddRR" | addRW => "AddRW"
  | subRR => "SubRR" | subRW => "SubRW" | mulRR => "MulRR" | mulRW => "MulRW"
  | incR => "IncR" | decR => "DecR" | andRR => "AndRR" | andRW => "AndRW"
  | orRR => "OrRR" | orRW => "OrRW" | xorRR => "XorRR" | xorRW => "XorRW"
  | cmpRR => "CmpRR" | cmpRW => "CmpRW"
  | pushR => "PushR" | pushRR => "PushRR" | pushRRR => "PushRRR" | pushW => "PushW"
  | pusha => "Pusha" | popR => "PopR" | popRR => "PopRR" | popRRR => "PopRRR" | popa => "Popa"
  | jeqS => "JeqS" | jeqA => "JeqA" | jneS => "JneS" | jneA => "JneA" | jS => "JS" | jA => "JA"
  | callS => "CallS" | callA => "CallA" | callR => "CallR" | ret => "Ret"
  | intB => "IntB" | iret => "Iret"
  | storRR => "StorRR" | storRW => "StorRW"
  | loadRR => "LoadRR" | loadRRW => "LoadRRW" | loadRW => "LoadRW"
  | miB => "MiB" | umiB => "UmiB" | ind => "Ind" | ine => "Ine" | wfi => "Wfi"
  | xbm => "Xbm" | xdbg => "Xdbg" | xpse => "Xpse" | xpsd => "Xpsd" | xbrk => "Xbrk"

/-- The row of the instruction table a variant is generated from. -/
def row (op : Op) : Option Instruction := ast.find? fun v => v.variant == op.variant

/-- `Op::length` (generated `op.rs`). -/
def length (op : Op) : Nat := (op.row.map Instruction.length).getD 0

/-- `Op::bytecode` (generated `op.rs`). -/
def bytecode (op : Op) : Byte := BitVec.ofNat 8 ((op.row.map Instruction.opcode).getD 0)

end Op

/-- The table `ops` (generated `ops_array.h`): the instruction whose handler stands at an index. -/
def ops (b : Byte) : Option Op :=
  (instructionAt ast b.toNat).bind fun v => Op.all.find? fun op => op.variant == v.variant

/-- Every variant is listed. -/
lemma Op.mem_all (op : Op) : op ∈ Op.all := by
  cases op <;> decide

/-- The operations with a word or an address among their arguments. -/
def Op.takesWord : Op → Bool
  | movRW | addRW | subRW | mulRW | andRW | orRW | xorRW | cmpRW | pushW | jeqS | jeqA | jneS | jneA | jS
  | jA | callS | callA | storRW | loadRRW | loadRW => true
  | _ => false

/-- Instructions are one or two words long. -/
lemma Op.length_eq (op : Op) : op.length = if op.takesWord then 8 else 4 := by
  have h : ∀ op ∈ Op.all, op.length = if op.takesWord then 8 else 4 := by decide +kernel
  exact h op op.mem_all

/-- An instruction has one word or two. -/
lemma Op.length_cases (op : Op) : op.length = 4 ∨ op.length = 8 := by
  rw [op.length_eq]
  split
  · exact .inr rfl
  · exact .inl rfl

/-- The code of an instruction selects its own handler. -/
lemma ops_bytecode (op : Op) : ops op.bytecode = some op := by
  have h : ∀ op ∈ Op.all, ops op.bytecode = some op := by decide +kernel
  exact h op op.mem_all

end Thorium.Isa
