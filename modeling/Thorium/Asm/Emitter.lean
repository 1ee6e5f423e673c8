import Thorium.Asm.Syntax

/-!
# The emitter

Model of `src/asm/emitter.rs`. The state of the loop of `emit` is the bytes written so far and the
current base address; a panic is `none`.
-/

namespace Thorium.Asm
open Thorium.Isa

/-- The register table of `Emitter::new`. -/
def Emitter.registers : HashMap Nat :=
  (List.range 32).foldl (fun m r => m.insert s!"r{r}" r)
    ((((((HashMap.new.insert "cp" regPC).insert "sp" regSP).insert "bp" regBP).insert "cs" regCS).insert
      "ir" regIR).insert "idt" regIDT)

/-- `Emitter`. -/
structure Emitter where
  nodes : List Node
  addresses : HashMap Word

namespace Emitter

/-- `*self.decode_register(r) as u8`. -/
def decodeRegister (r : String) : Option Byte :=
  (Emitter.registers r).map (BitVec.ofNat 8)

/-- `decode_address`. -/
def decodeAddress (em : Emitter) (address : String) : Option Word := em.addresses address

/-- The operand word of an address. -/
def operandAddress (em : Emitter) (base : Word) (a : String) (kind : AddressKind) : Option Word := do
  let address ← em.decodeAddress a
  checkedAdd (match kind with
    | .absolute => base
    | .segment => 0) address

/-- The bytes `emit` appends for an instruction. -/
def emitInstruction (em : Emitter) (base : Word) : Instruction → Option (List Byte)
  | .I op => some [op.bytecode, 0, 0, 0]
  | .IB op imm1 => some [op.bytecode, imm1, 0, 0]
  | .IRW op r value => do
    some ([op.bytecode, ← decodeRegister r, 0, 0] ++ value.toBeBytes)
  | .IW op value => some ([op.bytecode, 0, 0, 0] ++ value.toBeBytes)
  | .IR op r => do some [op.bytecode, ← decodeRegister r, 0, 0]
  | .IRR op r1 r2 => do some [op.bytecode, ← decodeRegister r1, ← decodeRegister r2, 0]
  | .IRRW op r1 r2 w0 => do
    some ([op.bytecode, ← decodeRegister r1, ← decodeRegister r2, 0] ++ w0.toBeBytes)
  | .IRRR op r1 r2 r3 => do
    some [op.bytecode, ← decodeRegister r1, ← decodeRegister r2, ← decodeRegister r3]
  | .IRA op r addr kind => do
    let first := [op.bytecode, ← decodeRegister r, 0, 0]
    some (first ++ (← em.operandAddress base addr kind).toBeBytes)
  | .IA op addr kind => do
    some ([op.bytecode, 0, 0, 0] ++ (← em.operandAddress base addr kind).toBeBytes)

/-- The body of the loop of `emit`, on the bytes written and the base address. -/
def emitNode (em : Emitter) (state : List Byte × Word) : Node → Option (List Byte × Word)
  | .directive (.base addr) => some (state.1, addr)
  | .directive (.word _ v) => some (state.1 ++ v.toBeBytes, state.2)
  | .instruction i => do some (state.1 ++ (← em.emitInstruction state.2 i), state.2)
  | .label _ => some state

/-- The loop of `emit`. -/
def emitFrom (em : Emitter) (state : List Byte × Word) (nodes : List Node) :
    Option (List Byte × Word) :=
  nodes.foldlM em.emitNode state

/-- `Emitter::emit`. -/
def emit (em : Emitter) : Option (List Byte) := (em.emitFrom ([], 0) em.nodes).map Prod.fst

end Emitter

end Thorium.Asm
