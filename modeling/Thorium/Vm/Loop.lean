import Thorium.Vm.Ops

/-!
# The loop of the CPU

Model of `cpu_loop` (`src/vm/cpu.c`) and of the debugger it may call (`src/vm/debugger.c`). One turn of
the loop is `cpuTurn`. A run that ends in `none` has been aborted or does not return.
-/

namespace Thorium.Vm
open Thorium.Isa Thorium.Run

variable [Host]

/-! ### The debugger -/

/-- The loop of `bus_dump`, with at most `n` turns. -/
def busDumpLoop (heap : Heap) (bus : Bus) (limit : Addr) : Nat → Addr → Option Unit
  | 0, _ => none
  | n + 1, address =>
    if address < limit then do
      let _ ← busWordRead heap bus address
      busDumpLoop heap bus limit n (address + wordSize)
    else some ()

/-- `bus_dump`, apart from what it prints. After `2 ^ 30` turns it has read every address it ever reads,
and does not end. -/
def busDump (heap : Heap) (bus : Bus) («from» count : Addr) : Option Unit :=
  busDumpLoop heap bus («from» + count - 1) (2 ^ 30 + 1) «from»

/-- The loop of `cpu_debugger_trap_handler` over the lines of the input, with the result for
`state.running`. -/
def cpuDebuggerLoop (word : Word) : List Command → Run CPU Bool
  | [] => stop
  | command :: input => do
    let _ ← cpuInstructionToString word
    modify fun cpu => { cpu with input := input }
    match command with
    | .continue =>
      modify fun cpu => { cpu with debug := { cpu.debug with trap := false } }
      return false
    | .step => return true
    | .quit => return false
    | .memory «from» count =>
      let cpu ← get
      match busDump cpu.heap cpu.bus «from» count with
      | some () => cpuDebuggerLoop word input
      | none => stop
    | .print => cpuDebuggerLoop word input

/-- `cpu_debugger_trap_handler` -/
def cpuDebuggerTrapHandler (word : Word) : Run CPU Bool := do
  cpuDebuggerLoop word (← get).input

/-! ### One turn -/

/-- The entry of an interrupt in `cpu_loop`. -/
def interruptEntry : Run CPU Unit := do
  modify fun cpu =>
    let ir := picInterruptGet cpu.pic cpu.heap
    { cpu with
      flags := { cpu.flags with interruptsEnabled := false }
      ir := ir.setWidth 32
      pic := picInterruptReset cpu.pic ir
      sp := cpu.sp - wordSize }
  let cpu ← get
  match ← busWrite cpu.sp cpu.pc with
  | .ok () => setPc (romAddress + 8)
  | .error _ => setPanic .cannotWriteMemory

/-- `cpu_decode` -/
def cpuDecode (word : Word) : Run CPU (Option Op) := do
  return if (← get).state.panic ≠ .ok then none else ops (byteOf word 0)

/-- The call of the debugger. -/
def trap (word : Word) : Run CPU Unit := do
  let cpu ← get
  if cpu.debug.trap && cpu.debugger then
    let running ← cpuDebuggerTrapHandler word
    modify fun cpu => cpu.setRunning running

/-- The execution of a decoded word. -/
def execute (word : Word) : Run CPU Unit := do
  match ← cpuDecode word with
  | some op =>
    trap word
    handler op word
    modify fun cpu => { cpu with debug := { cpu.debug with step := cpu.debug.step + 1 } }
  | none => setPanic .unimplementedOpcode

/-- The body of the loop of `cpu_loop`. -/
def cpuLoopBody : Run CPU Unit := do
  let cpu ← get
  if cpu.flags.interruptsEnabled && picInterruptActive cpu.pic cpu.heap then
    interruptEntry
  let word := htov (← cpuFetch)
  if (← get).state.panic = .ok then
    execute word

/-- The condition of the loop of `cpu_loop`. -/
def CPU.goesOn (cpu : CPU) : Prop := cpu.state.running = true ∧ cpu.state.panic = .ok

instance (cpu : CPU) : Decidable cpu.goesOn := inferInstanceAs (Decidable (_ ∧ _))

/-- A turn of the loop of `cpu_loop`. After the last one nothing changes. -/
def cpuTurn : Run CPU Unit := do
  if (← get).goesOn then cpuLoopBody

/-- Some turns of the loop. -/
def cpuTurns : Nat → Run CPU Unit
  | 0 => return ()
  | n + 1 => do
    cpuTurn
    cpuTurns n

end Thorium.Vm
