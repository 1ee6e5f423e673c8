import Thorium.Asm.Layout
import Thorium.Vm.Loader
import Thorium.Vm.Step

/-!
# Decoding what is encoded

The bytes of the emitter, loaded by `load_file` and executed by the CPU. `effect` is the meaning of an
operation on its arguments, after the column `effect` of the instruction table; no bytes occur in it.
The operands of an instruction of the parser (`operands`) come back as the bytes and the word that the
handler reads, and the handler has the effect of its operation on them (`decodes`).
-/

namespace Thorium.Vm
open Thorium.Isa Thorium.Asm Thorium.Run

/-! ### Arguments and effects -/

/-- The arguments `r0`, `r1`, `r2` and `w0` of an operation. An address is a word, and a byte argument
stands in the place of `r0`. -/
structure Operands where
  r0 : Byte := 0
  r1 : Byte := 0
  r2 : Byte := 0
  w0 : Word := 0

/-- The byte argument. -/
def Operands.b0 (o : Operands) : Byte := o.r0

/-- The arguments of an instruction, registers by their numbers and labels by their addresses. -/
def operands (em : Emitter) (base : Word) : Asm.Instruction → Option Operands
  | .I _ => some {}
  | .IB _ b => some { r0 := b }
  | .IR _ r => do some { r0 := ← Emitter.decodeRegister r }
  | .IRR _ r1 r2 => do some { r0 := ← Emitter.decodeRegister r1, r1 := ← Emitter.decodeRegister r2 }
  | .IRRR _ r1 r2 r3 => do
    some {
      r0 := ← Emitter.decodeRegister r1
      r1 := ← Emitter.decodeRegister r2
      r2 := ← Emitter.decodeRegister r3 }
  | .IRW _ r w => do some { r0 := ← Emitter.decodeRegister r, w0 := w }
  | .IW _ w => some { w0 := w }
  | .IRRW _ r1 r2 w => do
    some { r0 := ← Emitter.decodeRegister r1, r1 := ← Emitter.decodeRegister r2, w0 := w }
  | .IRA _ r a kind => do
    some { r0 := ← Emitter.decodeRegister r, w0 := ← em.operandAddress base a kind }
  | .IA _ a kind => do some { w0 := ← em.operandAddress base a kind }

/-- The word argument: `pc` moves behind it. -/
def wordArg (w : Word) : Run CPU Word := do
  modify CPU.skip
  return w

/-- `r0 = f(r0, r1)` -/
def effectRR (f : Word → Word → Word) (o : Operands) : Run CPU Unit := do
  if let some r0 ← registerGet o.r0 then
    if let some r1 ← registerGet o.r1 then
      registerSet o.r0 (f r0 r1)

/-- `r0 = f(r0, w0)` -/
def effectRW (f : Word → Word → Word) (o : Operands) : Run CPU Unit := do
  let w0 ← wordArg o.w0
  if let some r0 ← registerGet o.r0 then
    registerSet o.r0 (f r0 w0)

/-- `r0 = f(r0)` -/
def effectR (f : Word → Word) (o : Operands) : Run CPU Unit := do
  if let some r0 ← registerGet o.r0 then
    registerSet o.r0 (f r0)

/-- A jump if `z` has a value, else `pc` moves behind the argument. -/
def effectIf (z : Bool) (target : CPU → Word → Addr) (o : Operands) : Run CPU Unit := do
  if (← get).flags.zero = z then
    let address ← wordArg o.w0
    setPc (target (← get) address)
  else
    modify CPU.skip

/-- A jump. -/
def effectJump (target : CPU → Word → Addr) (o : Operands) : Run CPU Unit := do
  let address ← wordArg o.w0
  setPc (target (← get) address)

/-- The effect of an operation on its arguments. -/
def effect : Op → Operands → Run CPU Unit
  | .nop, _ | .wfi, _ | .xbm, _ | .xdbg, _ => return ()
  | .halt, _ => modify fun cpu => cpu.setRunning false
  | .panic, _ => do if (← get).state.panic = .ok then setPanic .panic
  | .movRW, o => do
    let w0 ← wordArg o.w0
    registerSet o.r0 w0
  | .movRR, o => do
    if let some r1 ← registerGet o.r1 then
      registerSet o.r0 r1
  | .addRR, o => effectRR (· + ·) o
  | .addRW, o => effectRW (· + ·) o
  | .subRR, o => effectRR (· - ·) o
  | .subRW, o => effectRW (· - ·) o
  | .mulRR, o => effectRR (· * ·) o
  | .mulRW, o => effectRW (· * ·) o
  | .incR, o => effectR (· + 1) o
  | .decR, o => effectR (· - 1) o
  | .andRR, o => effectRR (· &&& ·) o
  | .andRW, o => effectRW (· &&& ·) o
  | .orRR, o => effectRR (· ||| ·) o
  | .orRW, o => effectRW (· ||| ·) o
  | .xorRR, o => effectRR (· ^^^ ·) o
  | .xorRW, o => effectRW (· ^^^ ·) o
  | .cmpRR, o => do
    if let some r0 ← registerGet o.r0 then
      if let some r1 ← registerGet o.r1 then
        cpuFlagsUpdate (r0 - r1)
  | .cmpRW, o => do
    if let some r0 ← registerGet o.r0 then
      let w0 ← wordArg o.w0
      cpuFlagsUpdate (r0 - w0)
  | .pushR, o => pushRegisters [o.r0]
  | .pushRR, o => pushRegisters [o.r0, o.r1]
  | .pushRRR, o => pushRegisters [o.r0, o.r1, o.r2]
  | .pushW, o => do
    let w0 ← wordArg o.w0
    let _ ← pushWord w0
  | .pusha, _ => do pushRegisters (generalRegisters (← get).registerCount)
  | .popR, o => popRegisters [o.r0]
  | .popRR, o => popRegisters [o.r0, o.r1]
  | .popRRR, o => popRegisters [o.r0, o.r1, o.r2]
  | .popa, _ => do popRegisters (generalRegisters (← get).registerCount).reverse
  | .jeqS, o => effectIf true segmentTarget o
  | .jeqA, o => effectIf true absoluteTarget o
  | .jneS, o => effectIf false segmentTarget o
  | .jneA, o => effectIf false absoluteTarget o
  | .jS, o => effectJump segmentTarget o
  | .jA, o => effectJump absoluteTarget o
  | .callS, o => do callTo segmentTarget (← wordArg o.w0)
  | .callA, o => do callTo absoluteTarget (← wordArg o.w0)
  | .callR, o => do
    if let some r0 ← registerGet o.r0 then
      callTo absoluteTarget r0
  | .ret, _ => do
    if let some pc ← readWord (← get).sp then
      setPc pc
      moveSp wordSize
  | .iret, _ => do
    if let some pc ← readWord (← get).sp then
      setPc pc
      moveSp wordSize
      setInterrupts true
  | .intB, o => modify fun cpu => { cpu with
      pic := picInterruptTrigger cpu.pic o.b0
      signals := cpu.signals ++ [.picGotInterrupt] }
  | .miB, o => modify fun cpu => { cpu with heap := picInterruptMask cpu.pic cpu.heap o.b0 }
  | .umiB, o => modify fun cpu => { cpu with heap := picInterruptUnmask cpu.pic cpu.heap o.b0 }
  | .storRR, o => do
    if let some r0 ← registerGet o.r0 then
      if let some r1 ← registerGet o.r1 then
        writeWord r0 r1
  | .storRW, o => do
    let w0 ← wordArg o.w0
    if let some r0 ← registerGet o.r0 then
      writeWord w0 r0
  | .loadRR, o => do
    if let some r1 ← registerGet o.r1 then
      if let some val ← readWord r1 then
        registerSet o.r0 val
  | .loadRRW, o => do
    if let some r1 ← registerGet o.r1 then
      let w0 ← wordArg o.w0
      if let some val ← readWord (r1 + w0) then
        registerSet o.r0 val
  | .loadRW, o => do
    let w0 ← wordArg o.w0
    if let some val ← readWord w0 then
      registerSet o.r0 val
  | .ind, _ => setInterrupts false
  | .ine, _ => setInterrupts true
  | .xbrk, _ => modify fun cpu => { cpu with debug := { cpu.debug with trap := true } }
  | .xpse, _ => modify fun cpu => { cpu with debug := { cpu.debug with printOp := true } }
  | .xpsd, _ => modify fun cpu => { cpu with debug := { cpu.debug with printOp := false } }

/-! ### Bytes -/

/-- The bytes of an instruction are its code, its arguments and its word. -/
lemma emitInstruction_operands {em : Emitter} {base i bytes} (h : em.emitInstruction base i = some bytes) :
    ∃ o, operands em base i = some o ∧
      bytes = i.op.bytecode :: o.r0 :: o.r1 :: o.r2 :: if i.width = 8 then o.w0.toBeBytes else [] := by
  cases i with
  | I | IB | IW =>
    cases h
    exact ⟨_, rfl, rfl⟩
  | IR op r | IRW op r =>
    obtain ⟨n, hn, h⟩ := Option.bind_eq_some_iff.mp h
    cases h
    exact ⟨_, by rw [operands, hn]; rfl, rfl⟩
  | IRR op r1 r2 | IRRW op r1 r2 =>
    obtain ⟨n1, hn1, h⟩ := Option.bind_eq_some_iff.mp h
    obtain ⟨n2, hn2, h⟩ := Option.bind_eq_some_iff.mp h
    cases h
    exact ⟨_, by rw [operands, hn1, hn2]; rfl, rfl⟩
  | IRRR op r1 r2 r3 =>
    obtain ⟨n1, hn1, h⟩ := Option.bind_eq_some_iff.mp h
    obtain ⟨n2, hn2, h⟩ := Option.bind_eq_some_iff.mp h
    obtain ⟨n3, hn3, h⟩ := Option.bind_eq_some_iff.mp h
    cases h
    exact ⟨_, by rw [operands, hn1, hn2, hn3]; rfl, rfl⟩
  | IRA op r a kind =>
    obtain ⟨n, hn, h⟩ := Option.bind_eq_some_iff.mp h
    obtain ⟨w, hw, h⟩ := Option.bind_eq_some_iff.mp h
    cases h
    exact ⟨_, by rw [operands, hn, hw]; rfl, rfl⟩
  | IA op a kind =>
    obtain ⟨w, hw, h⟩ := Option.bind_eq_some_iff.mp h
    cases h
    exact ⟨_, by rw [operands, hw]; rfl, rfl⟩

/-! ### Handlers -/

section
variable {word : Word} {o : Operands} {cpu : CPU}

/-- The word argument is what is fetched. -/
lemma fetchOperand_bind {f : Option Word → Run CPU Unit} (hp : cpu.state.panic = .ok)
    (h : busWordRead cpu.heap cpu.bus cpu.pc = some (.ok o.w0)) :
    (fetchOperand >>= f) cpu = (wordArg o.w0 >>= fun w => f (some w)) cpu := by
  rw [bind_apply, fetchOperand_ok hp h]
  rfl

/-- Computations that agree after a register is read. -/
lemma registerGet_bind {r : Byte} {f g : Option Word → Run CPU Unit} (hp : cpu.state.panic = .ok)
    (hsome : ∀ v, f (some v) cpu = g (some v) cpu) (hnone : f none = g none) :
    (registerGet r >>= f) cpu = (registerGet r >>= g) cpu := by
  rw [bind_apply, bind_apply]
  cases hr : cpu.register r with
  | none =>
    rw [registerGet_none hr]
    exact congrFun hnone _
  | some v =>
    rw [registerGet_some hr, CPU.setPanic_ok hp]
    exact hsome v

variable [Host]

/-- A word that holds arguments. -/
structure Holds (word : Word) (o : Operands) : Prop where
  r0 : byteOf word 1 = o.r0
  r1 : byteOf word 2 = o.r1
  r2 : byteOf word 3 = o.r2

/-- A printed operation goes on as it is. -/
lemma printInstruction_bind {f : Unit → Run CPU Unit} (h : printInstruction word cpu = some ((), cpu)) :
    (printInstruction word >>= f) cpu = f () cpu := by
  rw [bind_apply, h]
  rfl

/-- A conditional jump has its effect. -/
lemma jumpIf_effect (z : Bool) (target : CPU → Word → Addr) (hp : cpu.state.panic = .ok)
    (hprint : printInstruction word cpu = some ((), cpu))
    (h : busWordRead cpu.heap cpu.bus cpu.pc = some (.ok o.w0)) :
    jumpIf z target word cpu = effectIf z target o cpu := by
  refine (printInstruction_bind hprint).trans ?_
  rw [effectIf, bind_apply, bind_apply, get_apply, Option.bind_some, Option.bind_some]
  dsimp only
  split
  · exact fetchOperand_bind hp h
  · rfl

/-- A handler has the effect of its operation. -/
lemma handler_effect {op : Op} (hb : Holds word o) (hop : ops (byteOf word 0) = some op)
    (hp : cpu.state.panic = .ok)
    (hw : op.takesWord = true → busWordRead cpu.heap cpu.bus cpu.pc = some (.ok o.w0)) :
    handler op word cpu = effect op o cpu := by
  obtain ⟨h0, h1, h2⟩ := hb
  have hprint := printInstruction_pure hop hp fun h => ⟨_, hw h⟩
  cases op with
  | nop | wfi | xbm | xdbg => exact hprint
  | halt | panic | pusha | popa | ret | iret | ind | ine | xbrk | xpsd => exact printInstruction_bind hprint
  | xpse =>
    have hprint' := @printInstruction_pure { cpu with debug := { cpu.debug with printOp := true } } _ _ _
      hop hp nofun
    exact hprint'
  | incR | decR | callR | pushR | popR | intB | miB | umiB =>
    refine (printInstruction_bind hprint).trans ?_
    rw [h0]
    rfl
  | movRR | addRR | subRR | mulRR | andRR | orRR | xorRR | cmpRR | pushRR | popRR | storRR | loadRR =>
    refine (printInstruction_bind hprint).trans ?_
    rw [h0, h1]
    rfl
  | pushRRR | popRRR =>
    refine (printInstruction_bind hprint).trans ?_
    rw [h0, h1, h2]
    rfl
  | movRW | addRW | subRW | mulRW | andRW | orRW | xorRW | storRW | loadRW =>
    refine (printInstruction_bind hprint).trans ?_
    rw [h0]
    exact fetchOperand_bind hp (hw rfl)
  | pushW | jS | jA | callS | callA =>
    exact (printInstruction_bind hprint).trans (fetchOperand_bind hp (hw rfl))
  | cmpRW =>
    refine (printInstruction_bind hprint).trans ?_
    rw [h0]
    exact registerGet_bind hp (fun v => fetchOperand_bind hp (hw rfl)) rfl
  | loadRRW =>
    refine (printInstruction_bind hprint).trans ?_
    rw [h0, h1]
    exact registerGet_bind hp (fun v => fetchOperand_bind hp (hw rfl)) rfl
  | jeqS | jeqA | jneS | jneA => exact jumpIf_effect _ _ hp hprint (hw rfl)

/-! ### From the source to the handler -/

/-- Loading a file stores its first word, most significant byte first. -/
lemma loadWords_cons {heap heap' : Heap} {bus : Bus} {a n : Addr} {b0 b1 b2 b3 bytes}
    (h : loadWords heap bus a n (b0 :: b1 :: b2 :: b3 :: bytes) = some (true, heap')) :
    ∃ heap1 conds, busWordWrite heap bus (a + n * wordSize) (ByteOrder.big.ofBytes b0 b1 b2 b3) =
      some (.ok (heap1, conds)) ∧ loadWords heap1 bus a (n + 1) bytes = some (true, heap') := by
  rw [loadWords, vtoh, ByteOrder.ntoh_ofBytes] at h
  split at h
  · rename_i heap1 conds hw
    exact ⟨heap1, conds, hw, h⟩
  · cases h
  · cases h

/-- What is read after the bytes of an instruction are loaded. -/
lemma loadWords_reads {heap heap' : Heap} {bus : Bus} {a : Addr} {b0 b1 b2 b3 : Byte} {w : Word} {two : Bool}
    (hd : bus.Distinct)
    (h : loadWords heap bus a 0 (b0 :: b1 :: b2 :: b3 :: if two then w.toBeBytes else []) =
      some (true, heap')) :
    busWordRead heap' bus a = some (.ok (ByteOrder.big.ofBytes b0 b1 b2 b3)) ∧
      (two = true → busWordRead heap' bus (a + addrSize) = some (.ok w)) := by
  obtain ⟨heap1, conds, hw1, h⟩ := loadWords_cons h
  have ha : a + 0 * wordSize = a := BitVec.add_zero a
  rw [ha] at hw1
  cases two with
  | false =>
    cases h
    exact ⟨busWordRead_write hw1, nofun⟩
  | true =>
    obtain ⟨heap2, conds, hw2, h⟩ := loadWords_cons h
    cases h
    have ha' : a + (0 + 1) * wordSize = a + addrSize := rfl
    rw [ha', ByteOrder.ofBytes_byteAt] at hw2
    have hne : a ≠ a + addrSize := by
      unfold addrSize
      bv_omega
    refine ⟨?_, fun _ => busWordRead_write hw2⟩
    rw [busWordRead_write_ne hd hw2 hne]
    exact busWordRead_write hw1

/-- The bytes of a fetched word, in the order of the bus. -/
lemma byteOf_htov (b0 b1 b2 b3 : Byte) :
    let word := htov (ByteOrder.big.ofBytes b0 b1 b2 b3)
    byteOf word 0 = b0 ∧ byteOf word 1 = b1 ∧ byteOf word 2 = b2 ∧ byteOf word 3 = b3 := by
  obtain ⟨h0, h1, h2, h3⟩ := ByteOrder.byteAt_ofBytes .big b0 b1 b2 b3
  unfold htov byteOf ByteOrder.hton
  rw [h0, h1, h2, h3]
  exact ByteOrder.byteAt_ofBytes _ b0 b1 b2 b3

/-- The CPU fetches `word`, decodes the operation of an instruction from it and reads the arguments `o`. -/
structure Decodes (i : Asm.Instruction) (o : Operands) (word : Word) (cpu : CPU) : Prop where
  fetched : cpuFetch cpu = some (word, cpu.skip)
  selected : ops (byteOf (htov word) 0) = some i.op
  bytes : Holds (htov word) o
  operand : i.op.takesWord = true → cpuFetch cpu.skip = some (o.w0, cpu.skip.skip)
  effect : handler i.op (htov word) cpu.skip = effect i.op o cpu.skip

/-- An instruction in memory is decoded. -/
lemma decodes_of_reads {i : Asm.Instruction} (hp : cpu.state.panic = .ok)
    (h : busWordRead cpu.heap cpu.bus cpu.pc =
      some (.ok (ByteOrder.big.ofBytes i.op.bytecode o.r0 o.r1 o.r2)))
    (hw : i.op.takesWord = true → busWordRead cpu.heap cpu.bus (cpu.pc + addrSize) = some (.ok o.w0)) :
    Decodes i o (ByteOrder.big.ofBytes i.op.bytecode o.r0 o.r1 o.r2) cpu := by
  obtain ⟨h0, h1, h2, h3⟩ := byteOf_htov i.op.bytecode o.r0 o.r1 o.r2
  have selected : ops (byteOf (htov (ByteOrder.big.ofBytes i.op.bytecode o.r0 o.r1 o.r2)) 0) = some i.op := by
    rw [h0]
    exact ops_bytecode i.op
  exact {
    fetched := cpuFetch_ok hp h
    selected := selected
    bytes := ⟨h1, h2, h3⟩
    operand := fun ht => cpuFetch_ok hp (hw ht)
    effect := @handler_effect _ _ cpu.skip _ _ ⟨h1, h2, h3⟩ selected hp hw }

/-- **The VM decodes what the assembler encodes**: an instruction that the parser makes and the emitter
encodes, loaded at an address, is fetched there with its arguments. -/
theorem decodes {name position parser parser' i} {em : Emitter} {base bytes} {heap : Heap} {a : Addr}
    (hparse : (Asm.parseInstruction name position).run parser = some (.ok i, parser'))
    (hemit : em.emitInstruction base i = some bytes) (hd : cpu.bus.Distinct)
    (hload : loadFile heap cpu.bus (.content bytes) a = some (true, cpu.heap)) (hpc : cpu.pc = a)
    (hp : cpu.state.panic = .ok) :
    ∃ o word, operands em base i = some o ∧ Decodes i o word cpu := by
  obtain ⟨⟨items, aborts⟩, symbols, nodes⟩ := parser
  obtain ⟨fs, op, f, tokens, _, _, hfs, hm, _, _, an, _⟩ := parseInstruction_ok hparse
  have hlen : i.op.length = i.width := Matches.length_op ⟨fs, op, f, hfs, hm, an⟩
  obtain ⟨o, ho, rfl⟩ := emitInstruction_operands hemit
  have htwo : (if i.width = 8 then o.w0.toBeBytes else []) =
      if i.op.takesWord then o.w0.toBeBytes else [] := by
    rw [← hlen, i.op.length_eq]
    cases i.op.takesWord <;> rfl
  rw [htwo] at hload
  subst hpc
  obtain ⟨h1, h2⟩ := loadWords_reads hd hload
  exact ⟨o, _, ho, decodes_of_reads hp h1 h2⟩

end

/-- `STOR 4, r1` on a little-endian host. -/
theorem decodes_stor : ∃ heap o word, @loadFile ⟨.little⟩ smallHeap
    (smallCpu heap).bus (.content [Op.bytecode .storRW, 1, 0, 0, 0, 0, 0, 4]) 0 = some (true, heap) ∧
    operands ⟨[], .new⟩ 0 (.IRW .storRW "r1" 4) = some o ∧
    @Decodes ⟨.little⟩ (.IRW .storRW "r1" 4) o word (smallCpu heap) := by
  have hparse : (Asm.parseInstruction "STOR" ⟨1, 1⟩).run ⟨⟨[.ok ⟨⟨1, 6⟩, .integer 4⟩,
      .ok ⟨⟨1, 7⟩, .comma⟩, .ok ⟨⟨1, 9⟩, .identifier "r1"⟩, .ok ⟨⟨1, 11⟩, .eol⟩], false⟩, .new, []⟩ =
      some (.ok (.IRW .storRW "r1" 4), ⟨⟨[], false⟩, .new, []⟩) := rfl
  have hemit : Emitter.emitInstruction ⟨[], .new⟩ 0 (.IRW .storRW "r1" 4) =
      some [Op.bytecode .storRW, 1, 0, 0, 0, 0, 0, 4] := by
    rw [Emitter.emitInstruction]
    rfl
  have hload : (@loadFile ⟨.little⟩ smallHeap (smallCpu smallHeap).bus
      (.content [Op.bytecode .storRW, 1, 0, 0, 0, 0, 0, 4]) 0).map Prod.fst = some true := by
    decide +kernel
  obtain ⟨⟨_, heap⟩, hload, rfl⟩ := Option.map_eq_some_iff.mp hload
  obtain ⟨o, word, ho, hd⟩ := @decodes (smallCpu heap) ⟨.little⟩ _ _ _ _ _ _ _ _ _ _ hparse hemit
    (List.nodup_singleton 0) hload rfl rfl
  exact ⟨heap, o, word, hload, ho, hd⟩

end Thorium.Vm
