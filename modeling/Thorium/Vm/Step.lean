import Thorium.Vm.Access
import Thorium.Vm.Loop

/-!
# Running operations

The primitive steps of `src/vm/ops.c` and `src/vm/cpu.c` as equations: what each returns and the CPU it
leaves, from what the CPU holds. Operations are run by rewriting with these.
-/

namespace Thorium.Vm
open Thorium.Isa Thorium.Run

variable {cpu cpu' : CPU} {a : Addr} {r : Byte} {v w : Word} {e : BusError}

/-- The CPU after the word at `pc`. -/
def CPU.skip (cpu : CPU) : CPU := { cpu with pc := cpu.pc + addrSize }

/-- The CPU with another word on the stack. -/
def CPU.down (cpu : CPU) : CPU := { cpu with sp := cpu.sp - wordSize }

/-- The CPU without the last word of the stack. -/
def CPU.up (cpu : CPU) : CPU := { cpu with sp := cpu.sp + wordSize }

/-- The CPU after a write. -/
def CPU.stored (cpu : CPU) (heap : Heap) (conds : List Cond) : CPU :=
  { cpu with heap := heap, signals := cpu.signals ++ conds }

/-- There is an error at `pc`. -/
def CPU.Unreadable (cpu : CPU) : Prop := ∃ e, busWordRead cpu.heap cpu.bus cpu.pc = some (.error e)

/-- No error to clear. -/
lemma CPU.setPanic_ok (h : cpu.state.panic = .ok) : cpu.setPanic .ok = cpu := by
  unfold setPanic
  rw [← h]

/-! ### The bus -/

/-- A read that the bus answers. -/
lemma busRead_ok (h : busWordRead cpu.heap cpu.bus a = some (.ok w)) :
    busRead a cpu = some (.ok w, cpu) := by
  rw [busRead, h]
  rfl

/-- A read that the bus refuses. -/
lemma busRead_error (h : busWordRead cpu.heap cpu.bus a = some (.error e)) :
    busRead a cpu = some (.error e, cpu.fault) := by
  rw [busRead, h]
  rfl

/-- A read that aborts. -/
lemma busRead_none (h : busWordRead cpu.heap cpu.bus a = none) : busRead a cpu = none := by
  rw [busRead, h]
  rfl

/-- A write that the bus accepts. -/
lemma busWrite_ok {heap : Heap} {conds : List Cond}
    (h : busWordWrite cpu.heap cpu.bus a w = some (.ok (heap, conds))) :
    busWrite a w cpu = some (.ok (), cpu.stored heap conds) := by
  rw [busWrite, h]
  rfl

/-- A write that the bus refuses. -/
lemma busWrite_error (h : busWordWrite cpu.heap cpu.bus a w = some (.error e)) :
    busWrite a w cpu = some (.error e, cpu.fault) := by
  rw [busWrite, h]
  rfl

/-- A write that aborts. -/
lemma busWrite_none (h : busWordWrite cpu.heap cpu.bus a w = none) : busWrite a w cpu = none := by
  rw [busWrite, h]
  rfl

/-- A word that is read. -/
lemma readWord_ok (h : busWordRead cpu.heap cpu.bus a = some (.ok w)) :
    readWord a cpu = some (some w, cpu) := by
  rw [readWord, bind_apply, busRead_ok h]
  rfl

/-- A word that is refused. -/
lemma readWord_error (h : busWordRead cpu.heap cpu.bus a = some (.error e)) :
    readWord a cpu = some (none, cpu.fault.setPanic .cannotReadMemory) := by
  rw [readWord, bind_apply, busRead_error h]
  rfl

/-- A word whose reading aborts. -/
lemma readWord_none (h : busWordRead cpu.heap cpu.bus a = none) : readWord a cpu = none := by
  rw [readWord, bind_apply, busRead_none h]
  rfl

/-! ### The stack -/

/-- A push is a write below the stack. -/
lemma pushWord_apply (cpu : CPU) (v : Word) : pushWord v cpu =
    (busWrite (cpu.sp - wordSize) v cpu.down).bind fun x => match x.1 with
      | .ok () => some (true, x.2)
      | .error _ => some (false, x.2.setPanic .cannotWriteMemory) := by
  have ha : cpu.sp + -wordSize = cpu.sp - wordSize := (BitVec.sub_eq_add_neg _ _).symm
  show (busWrite (cpu.sp + -wordSize) v { cpu with sp := cpu.sp + -wordSize }).bind _ = _
  rw [ha]
  show (busWrite (cpu.sp - wordSize) v cpu.down).bind _ = _
  congr 1
  funext x
  obtain ⟨x, s⟩ := x
  cases x <;> rfl

/-- A push that the bus accepts. -/
lemma pushWord_ok {heap : Heap} {conds : List Cond}
    (h : busWordWrite cpu.heap cpu.bus (cpu.sp - wordSize) v = some (.ok (heap, conds))) :
    pushWord v cpu = some (true, cpu.down.stored heap conds) := by
  rw [pushWord_apply, @busWrite_ok cpu.down _ _ _ _ h]
  rfl

/-- A push that the bus refuses. `sp` has been moved all the same. -/
lemma pushWord_error (h : busWordWrite cpu.heap cpu.bus (cpu.sp - wordSize) v = some (.error e)) :
    pushWord v cpu = some (false, cpu.down.fault.setPanic .cannotWriteMemory) := by
  rw [pushWord_apply, @busWrite_error cpu.down _ _ _ h]
  rfl

/-- A push that aborts. -/
lemma pushWord_none (h : busWordWrite cpu.heap cpu.bus (cpu.sp - wordSize) v = none) :
    pushWord v cpu = none := by
  rw [pushWord_apply, @busWrite_none cpu.down _ _ h]
  rfl

/-! ### Interrupts -/

/-- The CPU that is about to write `pc` in the entry of an interrupt. -/
def CPU.acknowledge (cpu : CPU) : CPU :=
  let ir := picInterruptGet cpu.pic cpu.heap
  { cpu with
    flags := { cpu.flags with interruptsEnabled := false }
    ir := ir.setWidth 32
    pic := picInterruptReset cpu.pic ir
    sp := cpu.sp - wordSize }

/-- The CPU after the entry of an interrupt. -/
def CPU.enter (cpu : CPU) (heap : Heap) (conds : List Cond) : CPU :=
  { cpu.acknowledge.stored heap conds with pc := romAddress + 8 }

/-- The entry of an interrupt in one step. -/
lemma interruptEntry_apply (cpu : CPU) : interruptEntry cpu =
    (busWrite (cpu.sp - wordSize) cpu.pc cpu.acknowledge).bind fun x => match x.1 with
      | .ok () => some ((), { x.2 with pc := romAddress + 8 })
      | .error _ => some ((), x.2.setPanic .cannotWriteMemory) := by
  show (busWrite (cpu.sp - wordSize) cpu.pc cpu.acknowledge).bind _ = _
  congr 1
  funext x
  obtain ⟨x, s⟩ := x
  cases x <;> rfl

/-- An entry whose push the bus accepts. -/
lemma interruptEntry_ok {heap : Heap} {conds : List Cond}
    (h : busWordWrite cpu.heap cpu.bus (cpu.sp - wordSize) cpu.pc = some (.ok (heap, conds))) :
    interruptEntry cpu = some ((), cpu.enter heap conds) := by
  rw [interruptEntry_apply, @busWrite_ok cpu.acknowledge _ _ _ _ h]
  rfl

/-- An entry whose push the bus refuses: `pc` stays where it is. -/
lemma interruptEntry_error (h : busWordWrite cpu.heap cpu.bus (cpu.sp - wordSize) cpu.pc = some (.error e)) :
    interruptEntry cpu = some ((), cpu.acknowledge.fault.setPanic .cannotWriteMemory) := by
  rw [interruptEntry_apply, @busWrite_error cpu.acknowledge _ _ _ h]
  rfl

/-- An entry that aborts. -/
lemma interruptEntry_none (h : busWordWrite cpu.heap cpu.bus (cpu.sp - wordSize) cpu.pc = none) :
    interruptEntry cpu = none := by
  rw [interruptEntry_apply, @busWrite_none cpu.acknowledge _ _ h]
  rfl

/-! ### Fetching -/

/-- The read of the word at `pc` in one step. -/
lemma cpuReadPcWord_apply (cpu : CPU) : cpuReadPcWord 0 cpu =
    if cpu.state.panic ≠ .ok then some (0, cpu)
    else (busRead cpu.pc cpu).bind fun x => match x.1 with
      | .ok word => some (word, x.2)
      | .error _ => some (0, x.2.setPanic .cannotReadMemory) := by
  have h0 : cpu.pc + BitVec.setWidth 32 (0 : Byte) * wordSize = cpu.pc := BitVec.add_zero _
  unfold cpuReadPcWord
  rw [bind_apply, get_apply, Option.bind_some]
  dsimp only
  split
  · rfl
  · rw [h0]
    show (busRead cpu.pc cpu).bind _ = _
    congr 1
    funext x
    obtain ⟨x, s⟩ := x
    cases x <;> rfl

/-- A word at `pc` that is read. -/
lemma cpuReadPcWord_ok (hp : cpu.state.panic = .ok)
    (h : busWordRead cpu.heap cpu.bus cpu.pc = some (.ok w)) : cpuReadPcWord 0 cpu = some (w, cpu) := by
  rw [cpuReadPcWord_apply, if_neg (not_not.mpr hp), busRead_ok h]
  rfl

/-- A fetch moves `pc` on after the read, whatever it returned. -/
lemma cpuFetch_apply (cpu : CPU) :
    cpuFetch cpu = (cpuReadPcWord 0 cpu).map fun x => (x.1, x.2.skip) := by
  rw [cpuFetch, bind_apply]
  cases cpuReadPcWord 0 cpu <;> rfl

/-- A word that is fetched. -/
lemma cpuFetch_ok (hp : cpu.state.panic = .ok)
    (h : busWordRead cpu.heap cpu.bus cpu.pc = some (.ok w)) : cpuFetch cpu = some (w, cpu.skip) := by
  rw [cpuFetch_apply, cpuReadPcWord_ok hp h]
  rfl

/-- A word that is not there is fetched as `0`. -/
lemma cpuFetch_error (hp : cpu.state.panic = .ok)
    (h : busWordRead cpu.heap cpu.bus cpu.pc = some (.error e)) :
    cpuFetch cpu = some (0, (cpu.fault.setPanic .cannotReadMemory).skip) := by
  rw [cpuFetch_apply, cpuReadPcWord_apply, if_neg (not_not.mpr hp), busRead_error h]
  rfl

/-- A fetch that aborts. -/
lemma cpuFetch_none (hp : cpu.state.panic = .ok) (h : busWordRead cpu.heap cpu.bus cpu.pc = none) :
    cpuFetch cpu = none := by
  rw [cpuFetch_apply, cpuReadPcWord_apply, if_neg (not_not.mpr hp), busRead_none h]
  rfl

/-- Nothing is read after an error. -/
lemma cpuFetch_panic (hp : cpu.state.panic ≠ .ok) : cpuFetch cpu = some (0, cpu.skip) := by
  rw [cpuFetch_apply, cpuReadPcWord_apply, if_pos hp]
  rfl

/-- An operand that is fetched. -/
lemma fetchOperand_ok (hp : cpu.state.panic = .ok)
    (h : busWordRead cpu.heap cpu.bus cpu.pc = some (.ok w)) :
    fetchOperand cpu = some (some w, cpu.skip) := by
  have hp' : cpu.skip.state.panic = .ok := hp
  rw [fetchOperand, bind_apply, cpuFetch_ok hp h]
  show some (if cpu.skip.state.panic ≠ .ok then none else some w, cpu.skip) = _
  rw [if_neg (not_not.mpr hp')]

/-! ### Registers -/

/-- A register that exists. -/
lemma registerGet_some (h : cpu.register r = some v) :
    registerGet r cpu = some (some v, cpu.setPanic .ok) := by
  rw [registerGet, bind_apply, cpuRegisterGet, h]
  rfl

/-- A register that does not exist. -/
lemma registerGet_none (h : cpu.register r = none) :
    registerGet r cpu = some (none, cpu.fault.setPanic .invalidRegister) := by
  rw [registerGet, bind_apply, cpuRegisterGet, h]
  rfl

/-- A register that is set. -/
lemma registerSet_some (h : cpu.setRegister r v = some cpu') :
    registerSet r v cpu = some ((), (cpu'.flagsUpdate v).setPanic .ok) := by
  rw [registerSet, bind_apply, cpuRegisterSet, h]
  rfl

/-- A register that cannot be set. -/
lemma registerSet_none (h : cpu.setRegister r v = none) :
    registerSet r v cpu = some ((), cpu.fault.setPanic .invalidRegister) := by
  rw [registerSet, bind_apply, cpuRegisterSet, h]
  rfl

/-- The assignment of a register changes no memory. -/
lemma setRegister_keeps (h : cpu.setRegister r v = some cpu') :
    cpu'.heap = cpu.heap ∧ cpu'.bus = cpu.bus ∧ cpu'.registerCount = cpu.registerCount ∧
      cpu'.faulted = cpu.faulted ∧ cpu'.sp = if r.toNat = regSP then v else cpu.sp := by
  unfold CPU.setRegister at h
  by_cases hsp : r.toNat = regSP
  · rw [if_pos hsp] at h ⊢
    cases h
    exact ⟨rfl, rfl, rfl, rfl, rfl⟩
  · rw [if_neg hsp] at h ⊢
    split_ifs at h <;> cases h <;> exact ⟨rfl, rfl, rfl, rfl, rfl⟩

/-- It changes registers only. -/
lemma setRegister_eq (h : cpu.setRegister r v = some cpu') : ∃ registers pc sp bp cs idt ir, cpu' =
    { cpu with registers := registers, pc := pc, sp := sp, bp := bp, cs := cs, idt := idt, ir := ir } := by
  unfold CPU.setRegister at h
  split_ifs at h <;> cases h <;> exact ⟨_, _, _, _, _, _, _, rfl⟩

/-- Which registers there are depends on their number only. -/
lemma register_isSome_congr (h : cpu'.registerCount = cpu.registerCount) (r : Byte) :
    (cpu'.register r).isSome = (cpu.register r).isSome := by
  unfold CPU.register
  rw [h]
  split_ifs <;> rfl

/-- An assigned register has the value, and the others keep theirs. -/
lemma register_setRegister (h : cpu.setRegister r v = some cpu') (r' : Byte) :
    cpu'.register r' = if r' = r then some v else cpu.register r' := by
  unfold CPU.setRegister at h
  by_cases e : r' = r
  · subst e
    rw [if_pos rfl]
    unfold CPU.register
    split_ifs at h <;> cases h <;> simp_all [CPU.setGeneral]
  · rw [if_neg e]
    have hne : r'.toNat ≠ r.toNat := fun h => e (BitVec.eq_of_toNat_eq h)
    unfold CPU.register
    split_ifs at h with h1 h2 h3 h4 h5 h6 h7 <;> cases h
    · rw [← h1, if_neg hne, if_neg hne]
    · rw [← h2, if_neg hne, if_neg hne]
    · rw [← h3, if_neg hne, if_neg hne]
    · rw [← h4, if_neg hne, if_neg hne]
    · rw [← h5, if_neg hne, if_neg hne]
    · rw [← h6, if_neg hne, if_neg hne]
    · have hg : (cpu.setGeneral r.toNat v).registers r'.toNat = cpu.registers r'.toNat := if_neg hne
      rw [hg]
      rfl

/-- A register below the count can be assigned. -/
lemma setRegister_lt (h : r < cpu.registerCount) (v : Word) : ∃ cpu', cpu.setRegister r v = some cpu' := by
  have hle : ¬ cpu.registerCount ≤ r := BitVec.not_le.mpr h
  unfold CPU.setRegister
  rw [if_neg hle]
  split_ifs <;> exact ⟨_, rfl⟩

/-! ### Printing -/

/-- A word that is printed. -/
lemma printedWord_ok (text : CPU → Word → String) (hp : cpu.state.panic = .ok)
    (h : busWordRead cpu.heap cpu.bus cpu.pc = some (.ok w)) :
    printedWord text cpu = some (text cpu w, cpu) := by
  rw [printedWord, bind_apply, cpuReadPcWord_ok hp h]
  show some (if cpu.state.panic ≠ .ok then "ERR" else text cpu w, cpu) = _
  rw [if_neg (not_not.mpr hp)]

/-- The printer knows the operations, except for those that it has forgotten. -/
lemma printed_eq {op : Op} {b : Byte} (hop : ops b = some op) : printed b = none ∨ printed b = some op := by
  unfold printed
  rw [hop]
  split
  · exact .inl rfl
  · exact .inl rfl
  · exact .inl rfl
  · exact .inr rfl

variable [Host] {word : Word}

/-- Printing an operation changes nothing when its operand word is there. -/
lemma printedArgs_pure {op : Op} (hp : cpu.state.panic = .ok)
    (h : op.takesWord = true → ∃ w, busWordRead cpu.heap cpu.bus cpu.pc = some (.ok w)) :
    ∃ text, printedArgs word op cpu = some (text, cpu) := by
  cases op with
  | addRW | andRW | cmpRW | loadRW | movRW | mulRW | orRW | subRW | xorRW | callA | jA | callS | jS | jeqA
  | jneA | jeqS | jneS =>
    obtain ⟨w, hw⟩ := h rfl
    exact ⟨_, by rw [printedArgs, bind_apply, printedWord_ok _ hp hw]; rfl⟩
  | _ => exact ⟨_, rfl⟩

/-- Printing an operation whose words can be read changes nothing. -/
lemma cpuInstructionToString_pure {op : Op} (hop : ops (byteOf word 0) = some op)
    (hp : cpu.state.panic = .ok)
    (h : op.takesWord = true → ∃ w, busWordRead cpu.heap cpu.bus cpu.pc = some (.ok w)) :
    ∃ text, cpuInstructionToString word cpu = some (text, cpu) := by
  unfold cpuInstructionToString
  rw [bind_apply, get_apply, Option.bind_some]
  rcases printed_eq hop with hn | hn <;> rw [hn]
  · exact ⟨_, rfl⟩
  · obtain ⟨text, ht⟩ := @printedArgs_pure cpu _ word op hp h
    exact ⟨_, by dsimp only; rw [bind_apply, ht]; rfl⟩

/-- Nor does the printing in a turn. -/
lemma printInstruction_pure {op : Op} (hop : ops (byteOf word 0) = some op) (hp : cpu.state.panic = .ok)
    (h : op.takesWord = true → ∃ w, busWordRead cpu.heap cpu.bus cpu.pc = some (.ok w)) :
    printInstruction word cpu = some ((), cpu) := by
  obtain ⟨text, ht⟩ := cpuInstructionToString_pure hop hp h
  unfold printInstruction
  rw [bind_apply, get_apply, Option.bind_some]
  dsimp only
  split
  · rw [bind_apply, ht]
    rfl
  · rfl

/-! ### The debugger -/

/-- The debugger preserves what its prints and the changes of its own state preserve. -/
lemma trap_triple {P : CPU → Prop} (hprint : Triple P (cpuInstructionToString word) fun _ => P)
    (hdebug : ∀ (s : CPU) d input b, P s →
      P { s with debug := d, input := input, state := ⟨s.state.panic, b⟩ }) :
    Triple P (trap word) fun _ => P := by
  have hstep {f : CPU → CPU} (hf : ∀ s, ∃ d input b,
      f s = { s with debug := d, input := input, state := ⟨s.state.panic, b⟩ }) :
      Triple P (modify f) fun _ => P := by
    apply Triple.modify
    intro s hs
    obtain ⟨d, input, b, he⟩ := hf s
    rw [he]
    exact hdebug s d input b hs
  have hloop (input : List Command) : Triple P (cpuDebuggerLoop word input) fun _ => P := by
    induction input with
    | nil => exact Triple.stop
    | cons command input ih =>
      refine hprint.bind fun _ => (hstep fun s => ⟨s.debug, _, s.state.running, rfl⟩).bind fun _ => ?_
      cases command with
      | «continue» =>
        refine (hstep fun s => ⟨_, s.input, s.state.running, rfl⟩).bind fun _ => ?_
        exact Triple.pure fun _ hs => hs
      | step => exact Triple.pure fun _ hs => hs
      | quit => exact Triple.pure fun _ hs => hs
      | memory first count =>
        apply Triple.get_bind
        intro s
        cases busDump s.heap s.bus first count with
        | some u => exact ih
        | none => exact Triple.stop
      | print => exact ih
  refine Triple.get_bind fun s => Triple.ite (fun _ => ?_) fun _ => Triple.pure fun _ hs => hs
  have hhandler : Triple P (cpuDebuggerTrapHandler word) fun _ => P := Triple.get_bind fun s => hloop s.input
  exact hhandler.bind fun b => hstep fun s => ⟨s.debug, s.input, b, rfl⟩

/-! ### A turn -/

/-- A turn after the entry of an interrupt. -/
def fetchExecute : Run CPU Unit := do
  let word := htov (← cpuFetch)
  if (← get).state.panic = .ok then
    execute word

/-- The body of the loop in one step. -/
lemma cpuLoopBody_eq (cpu : CPU) : cpuLoopBody cpu =
    if cpu.flags.interruptsEnabled && picInterruptActive cpu.pic cpu.heap then
      (interruptEntry cpu).bind fun x => fetchExecute x.2
    else fetchExecute cpu := by
  unfold cpuLoopBody
  rw [bind_apply, get_apply, Option.bind_some]
  dsimp only
  split <;> rfl

/-- The CPU after an operation of a turn. -/
def CPU.stepped (cpu : CPU) : CPU := { cpu with debug := { cpu.debug with step := cpu.debug.step + 1 } }

/-- A word that is fetched is executed. -/
lemma fetchExecute_ok (hp : cpu.state.panic = .ok)
    (h : busWordRead cpu.heap cpu.bus cpu.pc = some (.ok w)) :
    fetchExecute cpu = execute (htov w) cpu.skip := by
  have hp' : cpu.skip.state.panic = .ok := hp
  rw [fetchExecute, bind_apply, cpuFetch_ok hp h]
  show (if cpu.skip.state.panic = .ok then execute (htov w) else pure ()) cpu.skip = _
  rw [if_pos hp']

/-- A word is decoded by its first byte. -/
lemma cpuDecode_ok (hp : cpu.state.panic = .ok) : cpuDecode word cpu = some (ops (byteOf word 0), cpu) := by
  show some (if cpu.state.panic ≠ .ok then none else _, cpu) = _
  rw [if_neg (not_not.mpr hp)]

/-- The debugger is not called. -/
lemma trap_off (hq : (cpu.debug.trap && cpu.debugger) = false) : trap word cpu = some ((), cpu) := by
  rw [trap, bind_apply, get_apply, Option.bind_some]
  dsimp only
  rw [hq]
  rfl

/-- A word that is executed without the debugger. -/
lemma execute_ok {op : Op} (hp : cpu.state.panic = .ok) (hop : ops (byteOf word 0) = some op)
    (hq : (cpu.debug.trap && cpu.debugger) = false) (hr : handler op word cpu = some ((), cpu')) :
    execute word cpu = some ((), cpu'.stepped) := by
  rw [execute, bind_apply, cpuDecode_ok hp, hop]
  show (trap word cpu).bind _ = _
  rw [trap_off hq]
  show (handler op word cpu).bind _ = _
  rw [hr]
  rfl

/-- Once an error has been noticed, nothing is executed. -/
lemma cpuTurns_panic (hp : cpu.state.panic ≠ .ok) (n : Nat) :
    cpuTurns n cpu = some ((), cpu) := by
  have hturn : cpuTurn cpu = some ((), cpu) := by
    rw [cpuTurn, bind_apply, get_apply, Option.bind_some]
    dsimp only
    rw [if_neg fun h : cpu.goesOn => hp h.2]
    rfl
  induction n with
  | zero => rfl
  | succ n ih =>
    rw [cpuTurns, bind_apply, hturn]
    exact ih

/-! ### An example -/

/-- The word of an operation and its arguments. -/
def instruction (op : Op) (r0 r1 r2 : Byte) : Word := ByteOrder.big.ofBytes op.bytecode r0 r1 r2

/-- A machine with four words of memory at 0. -/
def smallCpu (heap : Heap) : CPU where
  heap := heap
  bus := ⟨[⟨0, 0, "RAM", []⟩], by decide⟩
  pic := ⟨1, 2, fun _ => 0⟩
  registers := fun _ => 0
  registerCount := 32
  pc := 0
  sp := 16
  bp := 16
  cs := 0
  idt := 0
  ir := 0
  flags := ⟨false, false, false⟩
  debug := ⟨false, false, false, 0⟩
  state := ⟨.ok, true⟩
  debugger := false
  input := []
  signals := []
  faulted := false

/-- Memories of four words. -/
def smallHeap : Heap := fun _ => memoryCreate (fun _ => 0) 16 .rw

end Thorium.Vm
