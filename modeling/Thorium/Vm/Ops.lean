import Thorium.Vm.Cpu

/-!
# The operations

Model of `src/vm/ops.c`. An operation gets the word it was decoded from, in the byte order of the bus,
and reads its operands from its bytes. Many operations belong to a family, such as `binaryRR`, and are
written as its instances.
-/

namespace Thorium.Vm
open Thorium.Isa Thorium.Run

variable [Host]

/-! ### Printing -/

/-- `register_name` -/
def registerName (reg : Byte) : String :=
  if reg.toNat = regIR then "ir"
  else if reg.toNat = regIDT then "idt"
  else if reg.toNat = regCS then "cs"
  else if reg.toNat = regPC then "pc"
  else if reg.toNat = regBP then "bp"
  else if reg.toNat = regSP then "sp"
  else s!"r{reg.toNat}"

/-- `%08x` -/
def whex (word : Word) : String :=
  let digits := Nat.toDigits 16 word.toNat
  String.ofList (List.replicate (8 - digits.length) '0' ++ digits)

/-- `0x%08x` -/
def wxhex (word : Word) : String := String.ofList ['0', 'x'] ++ whex word

/-- `ops_name` (generated `ops_array.h`) -/
def opsName (b : Byte) : String :=
  match instructionAt ast b.toNat with
  | some v =>
    let name := v.name.toList.map Char.toUpper
    String.ofList (name ++ List.replicate (5 - name.length) ' ')
  | none => "_    "

/-- The operand word that `cpu_instruction_to_string` prints, or its `ERR`. -/
def printedWord (text : CPU → Word → String) : Run CPU String := do
  let word ← cpuReadPcWord 0
  let cpu ← get
  return if cpu.state.panic ≠ .ok then "ERR" else text cpu word

/-- The arguments that `cpu_instruction_to_string` prints after the name. -/
def printedArgs (word : Word) : Op → Run CPU String
  | .halt | .iret | .ind | .ine | .nop | .panic | .pusha | .popa | .ret | .wfi | .xbm | .xbrk | .xdbg
  | .xpse | .xpsd => return ""
  | .callR | .decR | .incR | .popR | .pushR => return s!" {registerName (byteOf word 1)}"
  | .miB | .umiB | .intB => return s!" {(byteOf word 1).toNat}"
  | .addRR | .andRR | .cmpRR | .loadRR | .orRR | .movRR | .mulRR | .popRR | .pushRR | .subRR | .storRR
  | .xorRR => return s!" {registerName (byteOf word 1)}, {registerName (byteOf word 2)}"
  | .popRRR | .pushRRR =>
    return s!" {registerName (byteOf word 1)}, {registerName (byteOf word 2)}" ++
      s!", {registerName (byteOf word 3)}"
  | .addRW | .andRW | .cmpRW | .loadRW | .movRW | .mulRW | .orRW | .subRW | .xorRW => do
    let val ← printedWord fun _ val => wxhex val
    return s!" {registerName (byteOf word 1)}, {val}"
  | .callA | .jA => do
    let val ← printedWord fun _ val => wxhex val
    return s!" {val}"
  | .callS | .jS => do
    let address ← printedWord fun cpu address => s!"{wxhex address}\t\t// cs={wxhex cpu.cs}"
    return s!" {address}"
  | .jeqA | .jneA => do
    let address ← printedWord fun cpu address =>
      s!"{wxhex address}\t\t// z={cpu.flags.zero.toNat}"
    return s!" {address}"
  | .jeqS | .jneS => do
    let address ← printedWord fun cpu address =>
      s!"{wxhex address}\t\t// z={cpu.flags.zero.toNat}       cs={wxhex cpu.cs}"
    return s!" {address}"
  | .storRW | .loadRRW | .pushW => return ""

/-- The operations `cpu_instruction_to_string` knows. -/
def printed (b : Byte) : Option Op :=
  match ops b with
  | some .storRW | some .loadRRW | some .pushW => none
  | op => op

/-- `cpu_instruction_to_string` -/
def cpuInstructionToString (word : Word) : Run CPU String := do
  let op := byteOf word 0
  let cpu ← get
  let head := s!"  {cpu.debug.step.toNat}\t{wxhex (cpu.pc - addrSize)}\t"
  match printed op with
  | some o => return head ++ opsName op ++ (← printedArgs word o)
  | none => return head ++ s!"{wxhex (op.setWidth 32)} ???"

/-- `PRINT_INSTRUCTION` -/
def printInstruction (word : Word) : Run CPU Unit := do
  if (← get).debug.printOp then
    let _ ← cpuInstructionToString word

/-! ### Registers and operands -/

/-- `(cpu->state.panic = cpu_register_get(cpu, reg, &value)) == CPU_ERR_OK`, with the value. -/
def registerGet (reg : Byte) : Run CPU (Option Word) := do
  match ← cpuRegisterGet reg with
  | .ok value =>
    setPanic .ok
    return some value
  | .error e =>
    setPanic e
    return none

/-- `cpu->state.panic = cpu_register_set(cpu, reg, value)` -/
def registerSet (reg : Byte) (value : Word) : Run CPU Unit := do
  setPanic (← cpuRegisterSet reg value)

/-- `cpu_fetch` and the check of `state.panic` after it. -/
def fetchOperand : Run CPU (Option Word) := do
  let word ← cpuFetch
  return if (← get).state.panic ≠ .ok then none else some word

/-- `cpu->pc = address` -/
def setPc (address : Addr) : Run CPU Unit := modify fun cpu => { cpu with pc := address }

/-- A change of `cpu->sp`. -/
def moveSp (offset : Word) : Run CPU Unit := modify fun cpu => { cpu with sp := cpu.sp + offset }

/-- The write of a word to the stack, and whether it succeeds. -/
def pushWord (value : Word) : Run CPU Bool := do
  moveSp (-wordSize)
  match ← busWrite (← get).sp value with
  | .ok () => return true
  | .error _ =>
    setPanic .cannotWriteMemory
    return false

/-- The read of a word at an address, or a panic. -/
def readWord (address : Addr) : Run CPU (Option Word) := do
  match ← busRead address with
  | .ok word => return some word
  | .error _ =>
    setPanic .cannotReadMemory
    return none

/-- The write of a word at an address, or a panic. -/
def writeWord (address : Addr) (value : Word) : Run CPU Unit := do
  match ← busWrite address value with
  | .ok () => return ()
  | .error _ => setPanic .cannotWriteMemory

/-! ### Control -/

/-- `op_nop` -/
def opNop (word : Word) : Run CPU Unit := printInstruction word

/-- `op_halt` -/
def opHalt (word : Word) : Run CPU Unit := do
  printInstruction word
  modify fun cpu => cpu.setRunning false

/-- `op_panic` -/
def opPanic (word : Word) : Run CPU Unit := do
  printInstruction word
  if (← get).state.panic = .ok then setPanic .panic

/-! ### The stack -/

/-- The push of a register, in each of the `op_push_*` of registers. -/
def pushRegister (reg : Byte) : Run CPU Unit := do
  if let some value ← registerGet reg then
    let _ ← pushWord value

/-- The pushes of registers, whatever becomes of the first of them. -/
def pushRegisters : List Byte → Run CPU Unit
  | [] => return ()
  | reg :: regs => do
    pushRegister reg
    pushRegisters regs

/-- `op_push_r` -/
def opPushR (word : Word) : Run CPU Unit := do
  printInstruction word
  pushRegisters [byteOf word 1]

/-- `op_push_w` -/
def opPushW (word : Word) : Run CPU Unit := do
  printInstruction word
  if let some val ← fetchOperand then
    let _ ← pushWord val

/-- `op_push_rr` -/
def opPushRR (word : Word) : Run CPU Unit := do
  printInstruction word
  pushRegisters [byteOf word 1, byteOf word 2]

/-- `op_push_rrr` -/
def opPushRRR (word : Word) : Run CPU Unit := do
  printInstruction word
  pushRegisters [byteOf word 1, byteOf word 2, byteOf word 3]

/-- The general registers, in order. -/
def generalRegisters (registerCount : Byte) : List Byte :=
  (List.range registerCount.toNat).map (BitVec.ofNat 8)

/-- `op_pusha` -/
def opPusha (word : Word) : Run CPU Unit := do
  printInstruction word
  pushRegisters (generalRegisters (← get).registerCount)

/-- The pops into registers, up to a read that fails. -/
def popRegisters : List Byte → Run CPU Unit
  | [] => return ()
  | reg :: regs => do
    if let some value ← readWord (← get).sp then
      moveSp wordSize
      registerSet reg value
      popRegisters regs

/-- `op_pop_r` -/
def opPopR (word : Word) : Run CPU Unit := do
  printInstruction word
  popRegisters [byteOf word 1]

/-- `op_pop_rr` -/
def opPopRR (word : Word) : Run CPU Unit := do
  printInstruction word
  popRegisters [byteOf word 1, byteOf word 2]

/-- `op_pop_rrr` -/
def opPopRRR (word : Word) : Run CPU Unit := do
  printInstruction word
  popRegisters [byteOf word 1, byteOf word 2, byteOf word 3]

/-- `op_popa` -/
def opPopa (word : Word) : Run CPU Unit := do
  printInstruction word
  popRegisters (generalRegisters (← get).registerCount).reverse

/-! ### Moves and comparisons -/

/-- `op_mov_rw` -/
def opMovRW (word : Word) : Run CPU Unit := do
  printInstruction word
  let «to» := byteOf word 1
  if let some val ← fetchOperand then
    registerSet «to» val

/-- `op_mov_rr` -/
def opMovRR (word : Word) : Run CPU Unit := do
  printInstruction word
  let «to» := byteOf word 1
  let «from» := byteOf word 2
  if let some value ← registerGet «from» then
    registerSet «to» value

/-- `op_cmp_rr` -/
def opCmpRR (word : Word) : Run CPU Unit := do
  printInstruction word
  let a := byteOf word 1
  let b := byteOf word 2
  if let some aVal ← registerGet a then
    if let some bVal ← registerGet b then
      cpuFlagsUpdate (aVal - bVal)

/-- `op_cmp_rw` -/
def opCmpRW (word : Word) : Run CPU Unit := do
  printInstruction word
  let a := byteOf word 1
  if let some aVal ← registerGet a then
    if let some bVal ← fetchOperand then
      cpuFlagsUpdate (aVal - bVal)

/-! ### Jumps -/

/-- `op_jeq_*` and `op_jne_*`: the operand is read only when the jump is taken. -/
def jumpIf (zero : Bool) (target : CPU → Word → Addr) (word : Word) : Run CPU Unit := do
  printInstruction word
  if (← get).flags.zero = zero then
    if let some address ← fetchOperand then
      setPc (target (← get) address)
  else
    modify fun cpu => { cpu with pc := cpu.pc + addrSize }

/-- `op_j_*` -/
def jump (target : CPU → Word → Addr) (word : Word) : Run CPU Unit := do
  printInstruction word
  if let some address ← fetchOperand then
    setPc (target (← get) address)

/-- An address in the code segment. -/
def segmentTarget (cpu : CPU) (address : Word) : Addr := cpu.cs + address

/-- An absolute address. -/
def absoluteTarget (_ : CPU) (address : Word) : Addr := address

/-- `op_jeq_s` -/
def opJeqS (word : Word) : Run CPU Unit := jumpIf true segmentTarget word

/-- `op_jeq_a` -/
def opJeqA (word : Word) : Run CPU Unit := jumpIf true absoluteTarget word

/-- `op_jne_s` -/
def opJneS (word : Word) : Run CPU Unit := jumpIf false segmentTarget word

/-- `op_jne_a` -/
def opJneA (word : Word) : Run CPU Unit := jumpIf false absoluteTarget word

/-- `op_j_s` -/
def opJS (word : Word) : Run CPU Unit := jump segmentTarget word

/-- `op_j_a` -/
def opJA (word : Word) : Run CPU Unit := jump absoluteTarget word

/-! ### Memory -/

/-- `op_stor_rr` -/
def opStorRR (word : Word) : Run CPU Unit := do
  printInstruction word
  let «to» := byteOf word 1
  let «from» := byteOf word 2
  if let some address ← registerGet «to» then
    if let some val ← registerGet «from» then
      writeWord address val

/-- `op_stor_rw` -/
def opStorRW (word : Word) : Run CPU Unit := do
  printInstruction word
  let «from» := byteOf word 1
  if let some «to» ← fetchOperand then
    if let some val ← registerGet «from» then
      writeWord «to» val

/-- `op_load_rr` -/
def opLoadRR (word : Word) : Run CPU Unit := do
  printInstruction word
  let «to» := byteOf word 1
  let «from» := byteOf word 2
  if let some address ← registerGet «from» then
    if let some val ← readWord address then
      registerSet «to» val

/-- `op_load_rw` -/
def opLoadRW (word : Word) : Run CPU Unit := do
  printInstruction word
  let «to» := byteOf word 1
  if let some «from» ← fetchOperand then
    if let some val ← readWord «from» then
      registerSet «to» val

/-- `op_load_rrw` -/
def opLoadRRW (word : Word) : Run CPU Unit := do
  printInstruction word
  let «to» := byteOf word 1
  let «from» := byteOf word 2
  if let some address ← registerGet «from» then
    if let some offset ← fetchOperand then
      if let some val ← readWord (address + offset) then
        registerSet «to» val

/-! ### Arithmetic and logic -/

/-- The operations on two registers: the operands are read in order. -/
def binaryRR (f : Word → Word → Word) (word : Word) : Run CPU Unit := do
  printInstruction word
  let a := byteOf word 1
  let b := byteOf word 2
  if let some aVal ← registerGet a then
    if let some bVal ← registerGet b then
      registerSet a (f aVal bVal)

/-- The operations on a register and a word: the word is read first. -/
def binaryRW (f : Word → Word → Word) (word : Word) : Run CPU Unit := do
  printInstruction word
  let a := byteOf word 1
  if let some value ← fetchOperand then
    if let some aVal ← registerGet a then
      registerSet a (f aVal value)

/-- The operations on one register. -/
def unaryR (f : Word → Word) (word : Word) : Run CPU Unit := do
  printInstruction word
  let r := byteOf word 1
  if let some rVal ← registerGet r then
    registerSet r (f rVal)

/-- `op_add_rr` -/
def opAddRR (word : Word) : Run CPU Unit := binaryRR (· + ·) word

/-- `op_add_rw` -/
def opAddRW (word : Word) : Run CPU Unit := binaryRW (· + ·) word

/-- `op_sub_rr` -/
def opSubRR (word : Word) : Run CPU Unit := binaryRR (· - ·) word

/-- `op_sub_rw` -/
def opSubRW (word : Word) : Run CPU Unit := binaryRW (· - ·) word

/-- `op_mul_rr` -/
def opMulRR (word : Word) : Run CPU Unit := binaryRR (· * ·) word

/-- `op_mul_rw` -/
def opMulRW (word : Word) : Run CPU Unit := binaryRW (· * ·) word

/-- `op_and_rr` -/
def opAndRR (word : Word) : Run CPU Unit := binaryRR (· &&& ·) word

/-- `op_and_rw` -/
def opAndRW (word : Word) : Run CPU Unit := binaryRW (· &&& ·) word

/-- `op_or_rr` -/
def opOrRR (word : Word) : Run CPU Unit := binaryRR (· ||| ·) word

/-- `op_or_rw` -/
def opOrRW (word : Word) : Run CPU Unit := binaryRW (· ||| ·) word

/-- `op_xor_rr` -/
def opXorRR (word : Word) : Run CPU Unit := binaryRR (· ^^^ ·) word

/-- `op_xor_rw` -/
def opXorRW (word : Word) : Run CPU Unit := binaryRW (· ^^^ ·) word

/-- `op_dec_r` -/
def opDecR (word : Word) : Run CPU Unit := unaryR (· - 1) word

/-- `op_inc_r` -/
def opIncR (word : Word) : Run CPU Unit := unaryR (· + 1) word

/-! ### Calls -/

/-- The push of `pc` and the jump of a call. -/
def callTo (target : CPU → Word → Addr) (address : Word) : Run CPU Unit := do
  if ← pushWord (← get).pc then
    setPc (target (← get) address)

/-- `op_call_s` -/
def opCallS (word : Word) : Run CPU Unit := do
  printInstruction word
  if let some address ← fetchOperand then
    callTo segmentTarget address

/-- `op_call_a` -/
def opCallA (word : Word) : Run CPU Unit := do
  printInstruction word
  if let some address ← fetchOperand then
    callTo absoluteTarget address

/-- `op_call_r` -/
def opCallR (word : Word) : Run CPU Unit := do
  printInstruction word
  let r := byteOf word 1
  if let some address ← registerGet r then
    callTo absoluteTarget address

/-- `op_ret` -/
def opRet (word : Word) : Run CPU Unit := do
  printInstruction word
  if let some pc ← readWord (← get).sp then
    setPc pc
    moveSp wordSize

/-! ### Interrupts -/

/-- `cpu->flags.interrupts_enabled = b` -/
def setInterrupts (b : Bool) : Run CPU Unit :=
  modify fun cpu => { cpu with flags := { cpu.flags with interruptsEnabled := b } }

/-- `op_iret` -/
def opIret (word : Word) : Run CPU Unit := do
  printInstruction word
  if let some pc ← readWord (← get).sp then
    setPc pc
    moveSp wordSize
    setInterrupts true

/-- `op_int_b` -/
def opIntB (word : Word) : Run CPU Unit := do
  printInstruction word
  let interrupt := byteOf word 1
  modify fun cpu => { cpu with
    pic := picInterruptTrigger cpu.pic interrupt
    signals := cpu.signals ++ [.picGotInterrupt] }

/-- `op_mi_b` -/
def opMiB (word : Word) : Run CPU Unit := do
  printInstruction word
  let interrupt := byteOf word 1
  modify fun cpu => { cpu with heap := picInterruptMask cpu.pic cpu.heap interrupt }

/-- `op_umi_b` -/
def opUmiB (word : Word) : Run CPU Unit := do
  printInstruction word
  let interrupt := byteOf word 1
  modify fun cpu => { cpu with heap := picInterruptUnmask cpu.pic cpu.heap interrupt }

/-- `op_ind` -/
def opInd (word : Word) : Run CPU Unit := do
  printInstruction word
  setInterrupts false

/-- `op_ine` -/
def opIne (word : Word) : Run CPU Unit := do
  printInstruction word
  setInterrupts true

/-- `op_wfi`. Waiting changes nothing by itself: what a device does meanwhile is a step of the device. -/
def opWfi (word : Word) : Run CPU Unit := printInstruction word

/-! ### Debugging -/

/-- `op_xbm` -/
def opXbm (word : Word) : Run CPU Unit := printInstruction word

/-- `op_xbrk` -/
def opXbrk (word : Word) : Run CPU Unit := do
  printInstruction word
  modify fun cpu => { cpu with debug := { cpu.debug with trap := true } }

/-- `op_xdbg` -/
def opXdbg (word : Word) : Run CPU Unit := printInstruction word

/-- `op_xpse` -/
def opXpse (word : Word) : Run CPU Unit := do
  modify fun cpu => { cpu with debug := { cpu.debug with printOp := true } }
  printInstruction word

/-- `op_xpsd` -/
def opXpsd (word : Word) : Run CPU Unit := do
  printInstruction word
  modify fun cpu => { cpu with debug := { cpu.debug with printOp := false } }

/-- The functions in the table `ops` (generated `ops_array.h`). -/
def handler : Op → Word → Run CPU Unit
  | .nop => opNop | .halt => opHalt | .panic => opPanic
  | .movRW => opMovRW | .movRR => opMovRR | .addRR => opAddRR | .addRW => opAddRW
  | .subRR => opSubRR | .subRW => opSubRW | .mulRR => opMulRR | .mulRW => opMulRW
  | .incR => opIncR | .decR => opDecR | .andRR => opAndRR | .andRW => opAndRW
  | .orRR => opOrRR | .orRW => opOrRW | .xorRR => opXorRR | .xorRW => opXorRW
  | .cmpRR => opCmpRR | .cmpRW => opCmpRW
  | .pushR => opPushR | .pushRR => opPushRR | .pushRRR => opPushRRR | .pushW => opPushW
  | .pusha => opPusha | .popR => opPopR | .popRR => opPopRR | .popRRR => opPopRRR | .popa => opPopa
  | .jeqS => opJeqS | .jeqA => opJeqA | .jneS => opJneS | .jneA => opJneA | .jS => opJS | .jA => opJA
  | .callS => opCallS | .callA => opCallA | .callR => opCallR | .ret => opRet
  | .intB => opIntB | .iret => opIret
  | .storRR => opStorRR | .storRW => opStorRW
  | .loadRR => opLoadRR | .loadRRW => opLoadRRW | .loadRW => opLoadRW
  | .miB => opMiB | .umiB => opUmiB | .ind => opInd | .ine => opIne | .wfi => opWfi
  | .xbm => opXbm | .xdbg => opXdbg | .xpse => opXpse | .xpsd => opXpsd | .xbrk => opXbrk

end Thorium.Vm
