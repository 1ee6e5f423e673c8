import Thorium.Vm.Flat
import Thorium.Vm.Machine

/-!
# The machine of the instruction set

What a program sees of the machine, after the table `src/common/instructions.thi`: one memory of words, the
registers by their numbers, the flags and the pending interrupts. There are no bytes of a host, no zones and no
printing. `Core.exec` is the effect of an operation, with what becomes of it when a register does not exist or an
address cannot be accessed, and `Core.turn` is the execution of the next instruction.
-/

namespace Thorium.Vm
open Thorium.Isa

/-- The machine, as a program sees it. -/
structure Core where
  memory : Flat
  count : Byte
  registers : Byte → Word
  flags : Flags
  pending : Interrupt → Bool
  error : CpuError
  running : Bool

namespace Core
variable (c : Core)

/-! ### Registers -/

/-- The number of `pc`. -/
def pcNumber : Byte := BitVec.ofNat 8 regPC

/-- The number of `sp`. -/
def spNumber : Byte := BitVec.ofNat 8 regSP

/-- The number of `cs`. -/
def csNumber : Byte := BitVec.ofNat 8 regCS

/-- The number of `ir`. -/
def irNumber : Byte := BitVec.ofNat 8 regIR

/-- `pc` -/
def pc : Addr := c.registers pcNumber

/-- `sp` -/
def sp : Addr := c.registers spNumber

/-- `cs` -/
def cs : Addr := c.registers csNumber

/-- There is a register. The numbers from 250 on are those of the special registers. -/
def has (r : Byte) : Bool := decide (r < c.count) || decide (250 ≤ r.toNat)

/-- An error, or none. -/
def setError (e : CpuError) : Core := { c with error := e }

/-- Another value of a register. -/
def put (r : Byte) (v : Word) : Core := { c with registers := Function.update c.registers r v }

/-- The register that is put. -/
@[simp] lemma put_self (r : Byte) (v : Word) : (c.put r v).registers r = v := by simp [put]

/-- The other registers. -/
lemma put_of_ne {r r' : Byte} (h : r' ≠ r) (v : Word) : (c.put r v).registers r' = c.registers r' := by
  simp [put, h]

/-- The flags of a value. -/
def setFlags (v : Word) : Core := { c with flags := { c.flags with zero := v == 0, negative := v.msb } }

/-- Whether interrupts are entered. -/
def enable (b : Bool) : Core := { c with flags := { c.flags with interruptsEnabled := b } }

/-- Another `pc`. -/
def jump (a : Addr) : Core := c.put pcNumber a

/-- Behind the word at `pc`. -/
def advance : Core := c.jump (c.pc + addrSize)

/-- The result of an operation, in a register. -/
def assign (r : Byte) (v : Word) : Core :=
  if c.has r then ((c.put r v).setFlags v).setError .ok else c.setError .invalidRegister

/-- What is done with the value of a register. -/
def withRegister (r : Byte) (k : Word → Core) : Core :=
  if c.has r then k (c.registers r) else c.setError .invalidRegister

/-! ### Memory -/

/-- What is done with a word of the memory. -/
def withWord (a : Addr) (k : Word → Core) : Core :=
  if c.memory.readable a then k (c.memory.words a) else c.setError .cannotReadMemory

/-- What is done with the word behind an instruction. -/
def withOperand (k : Word → Core → Core) : Core :=
  if c.memory.readable c.pc then k (c.memory.words c.pc) c.advance
  else (c.setError .cannotReadMemory).advance

/-- A word in the memory, whoever writes it. -/
def place (a : Addr) (w : Word) : Core :=
  { c with memory := { c.memory with words := Function.update c.memory.words a w } }

/-- A write. -/
def write (a : Addr) (w : Word) : Core :=
  if c.memory.writable a then c.place a w else c.setError .cannotWriteMemory

/-- A push. `sp` moves whether or not the word can be written. -/
def push (v : Word) : Core := (c.put spNumber (c.sp - wordSize)).write (c.sp - wordSize) v

/-- The pushes of registers, one after another, whatever becomes of them. -/
def pushRegisters (c : Core) : List Byte → Core
  | [] => c
  | r :: rs =>
    (if c.has r then (c.setError .ok).push (c.registers r) else c.setError .invalidRegister).pushRegisters rs

/-- The pops into registers, up to a word that cannot be read. -/
def popRegisters (c : Core) : List Byte → Core
  | [] => c
  | r :: rs => c.withWord c.sp fun v => ((c.put spNumber (c.sp + wordSize)).assign r v).popRegisters rs

/-- The general registers, in order. -/
def general : List Byte := (List.range c.count.toNat).map (BitVec.ofNat 8)

/-- The push of `pc`, and a jump if it succeeds. -/
def call (a : Addr) : Core :=
  if c.memory.writable (c.sp - wordSize) then (c.push c.pc).jump a else c.push c.pc

/-- The pop of `pc`. -/
def ret (k : Core → Core) : Core := c.withWord c.sp fun a => k ((c.jump a).put spNumber (c.sp + wordSize))

/-! ### Interrupts -/

/-- The address of the mask of an interrupt. -/
def maskAddress (i : Interrupt) : Addr := interruptMaskAddress + BitVec.ofNat 32 (i.toNat / 32) * wordSize

/-- The mask of an interrupt, and of others. -/
def mask (i : Interrupt) : Word := c.memory.words (maskAddress i)

/-- The bit of an interrupt in its mask. -/
def maskBit (i : Interrupt) : Word := 1 <<< (i.toNat % 32)

/-- An interrupt is pending and not masked. -/
def deliverable (i : Interrupt) : Bool := c.pending i && c.mask i &&& maskBit i == 0

/-- The first interrupt to be entered. -/
def first : Option Interrupt := ((List.range interruptsCount).map (BitVec.ofNat 8)).find? c.deliverable

/-- An interrupt becomes pending, or is no longer. -/
def setPending (i : Interrupt) (b : Bool) : Core := { c with pending := Function.update c.pending i b }

/-- The entry of an interrupt. -/
def enter (i : Interrupt) : Core :=
  (((c.enable false).put irNumber (i.setWidth 32)).setPending i false).call (romAddress + 8)

/-- The entry of the first interrupt, if interrupts are enabled. -/
def accept : Core :=
  if c.flags.interruptsEnabled then
    match c.first with
    | some i => c.enter i
    | none => c
  else c

/-! ### Operations -/

/-- `r0 = f(r0, r1)` -/
def binaryRR (f : Word → Word → Word) (r0 r1 : Byte) : Core :=
  c.withRegister r0 fun v0 => c.withRegister r1 fun v1 => c.assign r0 (f v0 v1)

/-- `r0 = f(r0, w0)` -/
def binaryRW (f : Word → Word → Word) (r0 : Byte) : Core :=
  c.withOperand fun w0 c => c.withRegister r0 fun v0 => c.assign r0 (f v0 w0)

/-- `r0 = f(r0)` -/
def unary (f : Word → Word) (r0 : Byte) : Core := c.withRegister r0 fun v0 => c.assign r0 (f v0)

/-- A jump if `z` has a value. The operand is read only then. -/
def jumpIf (z : Bool) (target : Core → Word → Addr) : Core :=
  if c.flags.zero = z then c.withOperand fun w0 c => c.jump (target c w0) else c.advance

/-- An address relative to `cs`. -/
def segment (w : Word) : Addr := c.cs + w

/-- An absolute address. -/
def absolute (_ : Core) (w : Word) : Addr := w

/-- The effect of an operation on the arguments `r0`, `r1` and `r2`. A byte argument stands in the place of `r0`,
and a word argument is at `pc`. -/
def exec (op : Op) (r0 r1 r2 : Byte) : Core :=
  match op with
  | .nop | .wfi | .xbm | .xdbg | .xpsd | .xpse | .xbrk => c
  | .halt => { c with running := false }
  | .panic => c.setError .panic
  | .movRW => c.withOperand fun w0 c => c.assign r0 w0
  | .movRR => c.withRegister r1 fun v1 => c.assign r0 v1
  | .addRR => c.binaryRR (· + ·) r0 r1
  | .addRW => c.binaryRW (· + ·) r0
  | .subRR => c.binaryRR (· - ·) r0 r1
  | .subRW => c.binaryRW (· - ·) r0
  | .mulRR => c.binaryRR (· * ·) r0 r1
  | .mulRW => c.binaryRW (· * ·) r0
  | .incR => c.unary (· + 1) r0
  | .decR => c.unary (· - 1) r0
  | .andRR => c.binaryRR (· &&& ·) r0 r1
  | .andRW => c.binaryRW (· &&& ·) r0
  | .orRR => c.binaryRR (· ||| ·) r0 r1
  | .orRW => c.binaryRW (· ||| ·) r0
  | .xorRR => c.binaryRR (· ^^^ ·) r0 r1
  | .xorRW => c.binaryRW (· ^^^ ·) r0
  | .cmpRR => c.withRegister r0 fun v0 => c.withRegister r1 fun v1 => c.setFlags (v0 - v1)
  | .cmpRW => c.withRegister r0 fun v0 => c.withOperand fun w0 c => c.setFlags (v0 - w0)
  | .pushR => c.pushRegisters [r0]
  | .pushRR => c.pushRegisters [r0, r1]
  | .pushRRR => c.pushRegisters [r0, r1, r2]
  | .pushW => c.withOperand fun w0 c => c.push w0
  | .pusha => c.pushRegisters c.general
  | .popR => c.popRegisters [r0]
  | .popRR => c.popRegisters [r0, r1]
  | .popRRR => c.popRegisters [r0, r1, r2]
  | .popa => c.popRegisters c.general.reverse
  | .jeqS => c.jumpIf true segment
  | .jeqA => c.jumpIf true absolute
  | .jneS => c.jumpIf false segment
  | .jneA => c.jumpIf false absolute
  | .jS => c.withOperand fun w0 c => c.jump (c.segment w0)
  | .jA => c.withOperand fun w0 c => c.jump w0
  | .callS => c.withOperand fun w0 c => c.call (c.segment w0)
  | .callA => c.withOperand fun w0 c => c.call w0
  | .callR => c.withRegister r0 fun v0 => c.call v0
  | .ret => c.ret id
  | .iret => c.ret fun c => c.enable true
  | .intB => c.setPending r0 true
  | .storRR => c.withRegister r0 fun v0 => c.withRegister r1 fun v1 => c.write v0 v1
  | .storRW => c.withOperand fun w0 c => c.withRegister r0 fun v0 => c.write w0 v0
  | .loadRR => c.withRegister r1 fun v1 => c.withWord v1 fun v => c.assign r0 v
  | .loadRRW => c.withRegister r1 fun v1 => c.withOperand fun w0 c => c.withWord (v1 + w0) fun v => c.assign r0 v
  | .loadRW => c.withOperand fun w0 c => c.withWord w0 fun v => c.assign r0 v
  | .miB => c.place (maskAddress r0) (c.mask r0 ||| maskBit r0)
  | .umiB => c.place (maskAddress r0) (c.mask r0 &&& ~~~maskBit r0)
  | .ind => c.enable false
  | .ine => c.enable true

/-! ### Turns -/

/-- The operations that change how instructions are printed or stopped at. -/
def debugs (op : Op) : Bool := op = .xpse || op = .xbrk

/-- The arguments of an instruction, by their places in its word. -/
def argument (w : Word) (k : Nat) : Byte := ByteOrder.big.byteAt w k

/-- The execution of the word at `pc`, except for the operations of the debugger. -/
def step : Option Core :=
  if c.error ≠ .ok then some c.advance
  else if c.memory.readable c.pc then
    let w := c.memory.words c.pc
    match ops (argument w 0) with
    | some op => if debugs op then none else some (c.advance.exec op (argument w 1) (argument w 2) (argument w 3))
    | none => some (c.advance.setError .unimplementedOpcode)
  else some (c.setError .cannotReadMemory).advance

/-- One turn of the machine. After the last one nothing changes. -/
def turn : Option Core := if c.running = true ∧ c.error = .ok then c.accept.step else some c

end Core

/-- What happens to the machine: a turn, a device that triggers an interrupt, and the keyboard that sets its
word. -/
inductive Stimulus where
  | turn
  | trigger (i : Interrupt)
  | key (word : Word)

/-- The machine after a stimulus. -/
def Core.happen : Stimulus → Core → Option Core
  | .turn, c => c.turn
  | .trigger i, c => some (c.setPending i true)
  | .key word, c => some (c.place keyboardOutAddress word)

end Thorium.Vm
