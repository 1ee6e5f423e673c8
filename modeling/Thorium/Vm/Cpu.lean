import Thorium.Isa.Table
import Thorium.Lib.Run
import Thorium.Vm.Pic

/-!
# The CPU

Model of the data and the accessors of `src/vm/cpu.c`. The state of a `Run CPU` is the CPU with all that
it reaches: the bus, the memories, the interrupt controller and the input of the debugger. One field is
not in the source: `faulted` records that an access to the bus or to a register has failed.
-/

namespace Thorium.Vm
open Thorium.Isa Thorium.Run

/-- `CpuError` -/
inductive CpuError where
  | ok | panic | cannotReadMemory | cannotWriteMemory | unimplementedOpcode | invalidRegister
  deriving DecidableEq, Repr

/-- `CPU.flags` -/
structure Flags where
  interruptsEnabled : Bool
  zero : Bool
  negative : Bool
  deriving DecidableEq, Repr

/-- `CPU.debug` -/
structure Debug where
  printOp : Bool
  printInterrupts : Bool
  trap : Bool
  step : BitVec 64
  deriving DecidableEq, Repr

/-- `CPU.state` -/
structure State where
  panic : CpuError
  running : Bool
  deriving DecidableEq, Repr

/-- A line read by the debugger, as it is decoded. `memory` has the bounds given to `bus_dump`; `print`
is every other line after which the debugger asks again. -/
inductive Command where
  | continue
  | step
  | quit
  | memory («from» count : Addr)
  | print
  deriving DecidableEq, Repr

/-- `CPU`. `debugger` is whether there is one, `input` are the lines it will read and `signals` the
condition variables signalled so far. -/
structure CPU where
  heap : Heap
  bus : Bus
  pic : PIC
  registers : Nat → Word
  registerCount : Byte
  pc : Addr
  sp : Addr
  bp : Addr
  cs : Addr
  idt : Addr
  ir : Word
  flags : Flags
  debug : Debug
  state : State
  debugger : Bool
  input : List Command
  signals : List Cond
  faulted : Bool

namespace CPU

/-- The CPU with another `state.panic`. -/
def setPanic (cpu : CPU) (e : CpuError) : CPU := { cpu with state := { cpu.state with panic := e } }

/-- The CPU with another `state.running`. -/
def setRunning (cpu : CPU) (b : Bool) : CPU := { cpu with state := { cpu.state with running := b } }

/-- `cpu_flags_update` -/
def flagsUpdate (cpu : CPU) (value : Word) : CPU :=
  { cpu with flags := { cpu.flags with zero := value == 0, negative := value.msb } }

/-- The CPU after a failed access. -/
def fault (cpu : CPU) : CPU := { cpu with faulted := true }

/-- The value `cpu_register_get` finds. -/
def register (cpu : CPU) (reg : Byte) : Option Word :=
  if reg.toNat = regSP then some cpu.sp
  else if reg.toNat = regPC then some cpu.pc
  else if reg.toNat = regCS then some cpu.cs
  else if reg.toNat = regIDT then some cpu.idt
  else if reg.toNat = regIR then some cpu.ir
  else if reg.toNat = regBP then some cpu.bp
  else if cpu.registerCount ≤ reg then none
  else some (cpu.registers reg.toNat)

/-- A word of the array `registers`. -/
def setGeneral (cpu : CPU) (r : Nat) (value : Word) : CPU :=
  { cpu with registers := fun i => if i = r then value else cpu.registers i }

/-- The assignment of `cpu_register_set`. -/
def setRegister (cpu : CPU) (reg : Byte) (value : Word) : Option CPU :=
  if reg.toNat = regSP then some { cpu with sp := value }
  else if reg.toNat = regPC then some { cpu with pc := value }
  else if reg.toNat = regCS then some { cpu with cs := value }
  else if reg.toNat = regIDT then some { cpu with idt := value }
  else if reg.toNat = regIR then some { cpu with ir := value }
  else if reg.toNat = regBP then some { cpu with bp := value }
  else if cpu.registerCount ≤ reg then none
  else some (cpu.setGeneral reg.toNat value)

end CPU

/-- `cpu->state.panic = e` -/
def setPanic (e : CpuError) : Run CPU Unit := modify fun cpu => cpu.setPanic e

/-- `cpu_flags_update` -/
def cpuFlagsUpdate (value : Word) : Run CPU Unit := modify fun cpu => cpu.flagsUpdate value

/-- `bus_word_read` on `cpu->bus` -/
def busRead (address : Addr) : Run CPU (Except BusError Word) := fun cpu =>
  (busWordRead cpu.heap cpu.bus address).map fun
    | .ok word => (.ok word, cpu)
    | .error e => (.error e, cpu.fault)

/-- `bus_word_write` on `cpu->bus` -/
def busWrite (address : Addr) (word : Word) : Run CPU (Except BusError Unit) := fun cpu =>
  (busWordWrite cpu.heap cpu.bus address word).map fun
    | .ok (heap, conds) => (.ok (), { cpu with heap := heap, signals := cpu.signals ++ conds })
    | .error e => (.error e, cpu.fault)

/-- `cpu_register_get` -/
def cpuRegisterGet (reg : Byte) : Run CPU (Except CpuError Word) := fun cpu =>
  match cpu.register reg with
  | some word => some (.ok word, cpu)
  | none => some (.error .invalidRegister, cpu.fault)

/-- `cpu_register_set` -/
def cpuRegisterSet (reg : Byte) (value : Word) : Run CPU CpuError := fun cpu =>
  match cpu.setRegister reg value with
  | some cpu => some (.ok, cpu.flagsUpdate value)
  | none => some (.invalidRegister, cpu.fault)

/-- `cpu_read_pc_word` -/
def cpuReadPcWord (index : Byte) : Run CPU Word := do
  let cpu ← get
  if cpu.state.panic ≠ .ok then return 0
  match ← busRead (cpu.pc + index.setWidth 32 * wordSize) with
  | .ok word => return word
  | .error _ =>
    setPanic .cannotReadMemory
    return 0

/-- `cpu_fetch` -/
def cpuFetch : Run CPU Word := do
  let word ← cpuReadPcWord 0
  modify fun cpu => { cpu with pc := cpu.pc + addrSize }
  return word

end Thorium.Vm
