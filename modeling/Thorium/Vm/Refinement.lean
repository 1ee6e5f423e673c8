import Thorium.Vm.Hosts
import Thorium.Vm.View

/-!
# The CPU refines the machine of the instruction set

Each operation of `src/vm/ops.c` has the effect that `Core.exec` gives it, the entry of an interrupt is
`Core.enter` and a turn of `cpu_loop` is `Core.turn`. So the CPU and the machine go through every run side by
side, whatever the devices do in between (`cpu_refines`).
-/

namespace Thorium.Vm
open Thorium.Isa Thorium.Run

section
variable {ramSize : Addr} {video : Bool} {s s' : CPU} {c c' : Core} {r : Byte} {v w : Word} {a : Addr}

/-! ### The stack -/

/-- `sp` is moved by some bytes. -/
lemma Shows.modifySp (h : Shows ramSize video s c) :
    Yields (Shows ramSize video) (Vm.moveSp w) s ⟨⟩ (c.put Core.spNumber (c.sp + w)) := by
  apply Yields.modify
  rw [← h.sp]
  exact h.moveSp _

/-- A register is pushed in both. -/
lemma Shows.pushRegister (h : Shows ramSize video s c) : Yields (Shows ramSize video) (Vm.pushRegister r) s ⟨⟩
    (if c.has r then (c.setError .ok).push (c.registers r) else c.setError .invalidRegister) := by
  have hcore := h.core
  unfold Vm.pushRegister
  split
  next hr =>
    rw [← hcore] at hr
    have hget := registerGet_some (register_core hr)
    rw [hcore] at hget
    exact .bind_of hget ((h.setError .ok).push.bind fun _ hs => .pure hs)
  next hr =>
    rw [← hcore] at hr
    exact .bind_of (registerGet_none (register_none hr)) (.pure (h.fails _))

/-- Registers are pushed in both. -/
lemma Shows.pushRegisters (rs : List Byte) (h : Shows ramSize video s c) :
    Yields (Shows ramSize video) (Vm.pushRegisters rs) s ⟨⟩ (c.pushRegisters rs) := by
  induction rs generalizing s c with
  | nil => exact .pure h
  | cons r rs ih => exact h.pushRegister.bind fun _ hs => ih hs

/-- Registers are popped in both. -/
lemma Shows.popRegisters (rs : List Byte) (h : Shows ramSize video s c) :
    Yields (Shows ramSize video) (Vm.popRegisters rs) s ⟨⟩ (c.popRegisters rs) := by
  induction rs generalizing s c with
  | nil => exact .pure h
  | cons r rs ih =>
    apply Yields.get_bind
    rw [h.sp]
    exact h.withWord (fun v => h.modifySp.bind fun _ h1 => h1.assign.bind fun _ h2 => ih h2) rfl

/-- A push keeps `cs`. -/
lemma push_cs (c : Core) (v : Word) : (c.push v).cs = c.cs := by
  have hput : (c.put Core.spNumber (c.sp - wordSize)).cs = c.cs := c.put_of_ne (by decide) _
  unfold Core.push Core.write
  split
  · exact hput
  · exact hput

/-- A call, to an address that the push does not change. -/
lemma Shows.call {target : CPU → Word → Addr} (h : Shows ramSize video s c)
    (ht : ∀ s', Shows ramSize video s' (c.push c.pc) → target s' w = a) :
    Yields (Shows ramSize video) (callTo target w) s ⟨⟩ (c.call a) := by
  apply Yields.get_bind
  rw [h.pc]
  apply h.push.bind
  intro s' hs
  unfold Core.call
  cases c.memory.writable (c.sp - wordSize) with
  | true =>
    apply Yields.get_bind
    rw [ht s' hs]
    exact .modify (hs.jump a)
  | false => exact .pure hs

/-- A return, and what follows it. -/
lemma Shows.ret {m : Run CPU Unit} {k : Core → Core} (h : Shows ramSize video s c)
    (hm : ∀ s' c', Shows ramSize video s' c' → Yields (Shows ramSize video) m s' ⟨⟩ (k c')) :
    Yields (Shows ramSize video) (do
      if let some pc ← readWord (← get).sp then
        setPc pc
        Vm.moveSp wordSize
        m) s ⟨⟩ (c.ret k) := by
  apply Yields.get_bind
  rw [h.sp]
  refine h.withWord (fun v => ?_) rfl
  have hsp : (c.jump v).sp = c.sp := c.put_of_ne (by decide) v
  exact Yields.bind (.modify (h.jump v)) fun s1 h1 => (hsp ▸ h1.modifySp).bind fun _ h2 => hm _ _ h2

/-! ### Interrupts -/

/-- Interrupts are enabled or disabled in both. -/
lemma Shows.enable (h : Shows ramSize video s c) (b : Bool) :
    Yields (Shows ramSize video) (setInterrupts b) s ⟨⟩ (c.enable b) := by
  apply Yields.modify
  refine ⟨h.heap, h.pic, h.silent, h.quiet, ?_⟩
  rw [← h.core]
  rfl

/-- A trigger is seen by the machine. -/
lemma Shows.trigger (h : Shows ramSize video s c) (i : Interrupt) (signals : List Cond) :
    Shows ramSize video { s with pic := picInterruptTrigger s.pic i, signals := signals } (c.setPending i true) where
  heap := h.heap
  pic := h.pic
  silent := h.silent
  quiet := h.quiet
  core := by
    rw [← h.core, ← pending_trigger]
    rfl

/-- The CPU that is about to call the entry of an interrupt. -/
def CPU.interrupt (s : CPU) (i : Interrupt) : CPU :=
  { s with flags := { s.flags with interruptsEnabled := false }, ir := i.setWidth 32, pic := picInterruptReset s.pic i }

/-- The entry of an interrupt is a call of the ROM, after the interrupt has been acknowledged. -/
lemma interruptEntry_call (s : CPU) : interruptEntry s =
    callTo absoluteTarget (romAddress + 8) (s.interrupt (picInterruptGet s.pic s.heap)) := by
  have hpush := pushWord_apply (s.interrupt (picInterruptGet s.pic s.heap)) s.pc
  have hdown : (s.interrupt (picInterruptGet s.pic s.heap)).down = s.acknowledge := rfl
  have hpc : (s.interrupt (picInterruptGet s.pic s.heap)).pc = s.pc := rfl
  have hsp : (s.interrupt (picInterruptGet s.pic s.heap)).sp = s.sp := rfl
  rw [interruptEntry_apply, callTo, bind_apply, get_apply, Option.bind_some, bind_apply]
  rw [hpc, hpush, hdown, hsp, Option.bind_assoc]
  congr 1
  funext x
  obtain ⟨x, s'⟩ := x
  cases x <;> rfl

/-- The acknowledgement of an interrupt. -/
lemma Shows.interrupt (h : Shows ramSize video s c) (i : Interrupt) : Shows ramSize video (s.interrupt i)
    (((c.enable false).put Core.irNumber (i.setWidth 32)).setPending i false) where
  heap := h.heap
  pic := h.pic
  silent := h.silent
  quiet := h.quiet
  core := by
    have hpending :=
      pending_reset { s with flags := { s.flags with interruptsEnabled := false }, ir := i.setWidth 32 } i
    have hir := core_ir (s := { s with flags := { s.flags with interruptsEnabled := false } }) (i.setWidth 32)
    have henable : ({ s with flags := { s.flags with interruptsEnabled := false } } : CPU).core = c.enable false := by
      rw [← h.core]
      rfl
    exact hpending.trans (by rw [hir, henable])

/-- The entry of an interrupt. -/
lemma Shows.enter (h : Shows ramSize video s c) :
    Yields (Shows ramSize video) interruptEntry s ⟨⟩ (c.enter (picInterruptGet s.pic s.heap)) := by
  rw [Yields, interruptEntry_call]
  exact (h.interrupt _).call fun _ _ => rfl

/-! ### Handlers -/

/-- Nothing is printed. -/
lemma Shows.prints [Host] (h : Shows ramSize video s c) (word : Word) :
    printInstruction word s = some ((), s) := by
  rw [printInstruction, bind_apply, get_apply, Option.bind_some]
  dsimp only
  rw [h.silent]
  rfl

section
variable [Host] {word : Word}

/-- The operations on two registers. -/
lemma Shows.binaryRR (f : Word → Word → Word) (h : Shows ramSize video s c) (hok : c.error = .ok) :
    Yields (Shows ramSize video) (Vm.binaryRR f word) s ⟨⟩ (c.binaryRR f (byteOf word 1) (byteOf word 2)) :=
  .bind_of (h.prints word) (h.withRegister hok (fun _ => h.withRegister hok (fun _ => h.assign) rfl) rfl)

/-- The operations on a register and a word. -/
lemma Shows.binaryRW (f : Word → Word → Word) (h : Shows ramSize video s c) (hok : c.error = .ok) :
    Yields (Shows ramSize video) (Vm.binaryRW f word) s ⟨⟩ (c.binaryRW f (byteOf word 1)) := by
  refine .bind_of (h.prints word) (h.withOperand hok (fun _ s' h' => ?_) rfl)
  exact h'.withRegister hok (fun _ => h'.assign) rfl

/-- The operations on one register. -/
lemma Shows.unary (f : Word → Word) (h : Shows ramSize video s c) (hok : c.error = .ok) :
    Yields (Shows ramSize video) (unaryR f word) s ⟨⟩ (c.unary f (byteOf word 1)) :=
  .bind_of (h.prints word) (h.withRegister hok (fun _ => h.assign) rfl)

omit [Host] in
/-- A jump to an address that depends on the operand and on `cs`. -/
lemma Shows.jumpTo {target : CPU → Word → Addr} {place : Core → Word → Addr}
    (ht : ∀ s c w, Shows ramSize video s c → target s w = place c w) (h : Shows ramSize video s c)
    (hok : c.error = .ok) :
    Yields (Shows ramSize video) (do
      if let some address ← fetchOperand then
        setPc (target (← get) address)) s ⟨⟩ (c.withOperand fun w0 c => c.jump (place c w0)) := by
  refine h.withOperand hok (fun v s' h' => ?_) rfl
  apply Yields.get_bind
  rw [ht s' _ v h']
  exact .modify (h'.jump _)

omit [Host] in
/-- An address of the segment is the same in both. -/
lemma segment_target (s : CPU) (c : Core) (w : Word) (h : Shows ramSize video s c) :
    segmentTarget s w = c.segment w := by rw [segmentTarget, h.cs, Core.segment]

omit [Host] in
/-- So is an absolute address. -/
lemma absolute_target (s : CPU) (c : Core) (w : Word) (_ : Shows ramSize video s c) :
    absoluteTarget s w = c.absolute w := rfl

/-- The conditional jumps. -/
lemma Shows.jumpIf {target : CPU → Word → Addr} {place : Core → Word → Addr} (z : Bool)
    (ht : ∀ s c w, Shows ramSize video s c → target s w = place c w) (h : Shows ramSize video s c)
    (hok : c.error = .ok) :
    Yields (Shows ramSize video) (Vm.jumpIf z target word) s ⟨⟩ (c.jumpIf z place) := by
  have hzero : s.flags.zero = c.flags.zero := by
    rw [← h.core]
    rfl
  apply Yields.bind_of (h.prints word)
  apply Yields.get_bind
  rw [Core.jumpIf, hzero]
  split
  · exact h.jumpTo ht hok
  · exact .modify h.skip

omit [Host] in
/-- Both have the same general registers. -/
lemma Shows.general (h : Shows ramSize video s c) : generalRegisters s.registerCount = c.general := by
  rw [← h.core]
  rfl

/-- **An operation has its effect.** -/
theorem handler_exec {op : Op} (h : Shows ramSize video s c) (hok : c.error = .ok) (hop : Core.debugs op = false) :
    Yields (Shows ramSize video) (handler op word) s ⟨⟩
      (c.exec op (byteOf word 1) (byteOf word 2) (byteOf word 3)) := by
  have hprint := h.prints word
  unfold Core.exec
  cases op with
  | nop | wfi | xbm | xdbg => exact ⟨s, hprint, h⟩
  | xpse | xbrk => cases hop
  | xpsd =>
    apply Yields.bind_of hprint
    exact .modify ⟨h.heap, h.pic, rfl, h.quiet, h.core⟩
  | halt =>
    apply Yields.bind_of hprint
    exact .modify ⟨h.heap, h.pic, h.silent, h.quiet, h.core ▸ rfl⟩
  | panic =>
    apply Yields.bind_of hprint
    apply Yields.get_bind
    rw [if_pos (h.error.trans hok)]
    exact .modify (h.setError .panic)
  | movRW => exact .bind_of hprint (h.withOperand hok (fun _ _ h' => h'.assign) rfl)
  | movRR => exact .bind_of hprint (h.withRegister hok (fun _ => h.assign) rfl)
  | addRR => exact h.binaryRR _ hok
  | addRW => exact h.binaryRW _ hok
  | subRR => exact h.binaryRR _ hok
  | subRW => exact h.binaryRW _ hok
  | mulRR => exact h.binaryRR _ hok
  | mulRW => exact h.binaryRW _ hok
  | andRR => exact h.binaryRR _ hok
  | andRW => exact h.binaryRW _ hok
  | orRR => exact h.binaryRR _ hok
  | orRW => exact h.binaryRW _ hok
  | xorRR => exact h.binaryRR _ hok
  | xorRW => exact h.binaryRW _ hok
  | incR => exact h.unary _ hok
  | decR => exact h.unary _ hok
  | cmpRR =>
    refine .bind_of hprint (h.withRegister hok (fun _ => h.withRegister hok (fun _ => ?_) rfl) rfl)
    exact .modify (h.setFlags _)
  | cmpRW =>
    refine .bind_of hprint (h.withRegister hok (fun _ => h.withOperand hok (fun _ _ h' => ?_) rfl) rfl)
    exact .modify (h'.setFlags _)
  | pushR | pushRR | pushRRR => exact .bind_of hprint (h.pushRegisters _)
  | popR | popRR | popRRR => exact .bind_of hprint (h.popRegisters _)
  | pushW =>
    refine .bind_of hprint (h.withOperand hok (fun _ _ h' => ?_) rfl)
    exact h'.push.bind fun _ hs => .pure hs
  | pusha =>
    apply Yields.bind_of hprint
    apply Yields.get_bind
    rw [h.general]
    exact h.pushRegisters _
  | popa =>
    apply Yields.bind_of hprint
    apply Yields.get_bind
    rw [h.general]
    exact h.popRegisters _
  | jeqS => exact h.jumpIf true segment_target hok
  | jeqA => exact h.jumpIf true absolute_target hok
  | jneS => exact h.jumpIf false segment_target hok
  | jneA => exact h.jumpIf false absolute_target hok
  | jS => exact .bind_of hprint (h.jumpTo segment_target hok)
  | jA => exact .bind_of hprint (h.jumpTo absolute_target hok)
  | callS =>
    refine .bind_of hprint (h.withOperand hok (fun v _ h' => h'.call fun s' hs => ?_) rfl)
    rw [segment_target s' _ v hs, Core.segment, push_cs, Core.segment]
  | callA => exact .bind_of hprint (h.withOperand hok (fun _ _ h' => h'.call fun _ _ => rfl) rfl)
  | callR => exact .bind_of hprint (h.withRegister hok (fun _ => h.call fun _ _ => rfl) rfl)
  | ret => exact .bind_of hprint (h.ret fun _ _ h' => .pure h')
  | iret => exact .bind_of hprint (h.ret fun _ _ h' => h'.enable true)
  | intB => exact .bind_of hprint (.modify (h.trigger _ _))
  | storRR => exact .bind_of hprint (h.withRegister hok (fun _ => h.withRegister hok (fun _ => h.write) rfl) rfl)
  | storRW =>
    refine .bind_of hprint (h.withOperand hok (fun _ _ h' => ?_) rfl)
    exact h'.withRegister hok (fun _ => h'.write) rfl
  | loadRR => exact .bind_of hprint (h.withRegister hok (fun _ => h.withWord (fun _ => h.assign) rfl) rfl)
  | loadRRW =>
    refine .bind_of hprint (h.withRegister hok (fun _ => h.withOperand hok (fun _ _ h' => ?_) rfl) rfl)
    exact h'.withWord (fun _ => h'.assign) rfl
  | loadRW =>
    refine .bind_of hprint (h.withOperand hok (fun _ _ h' => ?_) rfl)
    exact h'.withWord (fun _ => h'.assign) rfl
  | miB =>
    apply Yields.bind_of hprint
    rw [h.mask]
    exact .modify (h.setMask _ _)
  | umiB =>
    apply Yields.bind_of hprint
    rw [h.mask]
    exact .modify (h.setMask _ _)
  | ind => exact .bind_of hprint (h.enable false)
  | ine => exact .bind_of hprint (h.enable true)

/-! ### Turns -/

/-- The CPU that fetches an instruction, after an interrupt if there is one to be entered. -/
lemma cpuLoopBody_accept (h : Shows ramSize video s c) :
    ∃ s', cpuLoopBody s = fetchExecute s' ∧ Shows ramSize video s' c.accept := by
  have henabled : s.flags.interruptsEnabled = c.flags.interruptsEnabled := by
    rw [← h.core]
    rfl
  rw [cpuLoopBody_eq, Core.accept, h.first, henabled]
  cases c.flags.interruptsEnabled with
  | false => exact ⟨s, rfl, h⟩
  | true =>
    cases picInterruptActive s.pic s.heap with
    | false => exact ⟨s, rfl, h⟩
    | true =>
      obtain ⟨s', henter, hs'⟩ := h.enter
      exact ⟨s', by rw [henter]; rfl, hs'⟩

/-- A step of the machine is a fetch with its execution. -/
lemma Shows.step (h : Shows ramSize video s c) (ht : c.step = some c') :
    Yields (Shows ramSize video) fetchExecute s ⟨⟩ c' := by
  unfold Core.step at ht
  split at ht
  next herror =>
    cases ht
    have hp : s.state.panic ≠ .ok := h.error ▸ herror
    have hp' : s.skip.state.panic ≠ .ok := hp
    refine .bind_of (cpuFetch_panic hp) (Yields.get_bind ?_)
    rw [if_neg hp']
    exact .pure h.skip
  next hok =>
    have hok := not_not.mp hok
    have hp := h.error.trans hok
    have hread := h.read c.pc
    rw [← h.pc] at hread ht
    split at ht
    next hr =>
      rw [if_pos hr] at hread
      obtain ⟨h0, h1, h2, h3⟩ := byteOf_fetched (c.memory.words s.pc)
      rw [Yields, fetchExecute_ok hp hread]
      unfold Core.argument at ht
      dsimp only at ht
      rw [← h0, ← h1, ← h2, ← h3] at ht
      cases hop : ops (byteOf (htov (c.memory.words s.pc)) 0) with
      | none =>
        rw [hop] at ht
        cases ht
        refine Yields.bind_of (cpuDecode_ok hp) ?_
        rw [hop]
        exact .modify (h.skip.setError _)
      | some op =>
        rw [hop] at ht
        dsimp only at ht
        cases hd : Core.debugs op with
        | true =>
          rw [hd] at ht
          cases ht
        | false =>
          rw [hd] at ht
          cases ht
          obtain ⟨s', hrun, hs'⟩ := handler_exec h.skip hok hd
          exact ⟨_, execute_ok hp hop h.quiet hrun, ⟨hs'.heap, hs'.pic, hs'.silent, hs'.quiet, hs'.core⟩⟩
    next hr =>
      cases ht
      rw [if_neg hr] at hread
      exact .bind_of (cpuFetch_error hp hread) (Yields.get_bind (.pure (h.fails _).skip))

/-- **A turn of the CPU is a turn of the machine.** -/
theorem turn_refines (h : Shows ramSize video s c) (ht : c.turn = some c') :
    Yields (Shows ramSize video) cpuTurn s ⟨⟩ c' := by
  have hgo : s.goesOn ↔ c.running = true ∧ c.error = .ok := by
    rw [← h.core]
    rfl
  apply Yields.get_bind
  unfold Core.turn at ht
  split at ht
  next hc =>
    rw [if_pos (hgo.mpr hc)]
    obtain ⟨s', hbody, hs'⟩ := cpuLoopBody_accept h
    rw [Yields, hbody]
    exact hs'.step ht
  next hc =>
    rw [if_neg fun hg => hc (hgo.mp hg)]
    cases ht
    exact .pure h

end

/-! ### The start -/

/-- The PIC is created with a mask that can be written. -/
lemma picCreate_mask (malloc : Ref → Nat → Word) (heap : Heap) (bus : Bus) :
    ((picCreate malloc heap bus).heap maskRef).mode = .rw ∧
      (picCreate malloc heap bus).pic.interruptMask = maskRef := by
  have hmask (pic : PIC) (heap : Heap) (i : Interrupt) (r : Ref) :
      (picInterruptMask pic heap i r).mode = (heap r).mode := (setMask_shape pic heap _ _ r).2
  refine ⟨?_, rfl⟩
  simp only [picCreate, hmask]
  exact congrArg Memory.mode (if_pos rfl)

/-- The keyboard is created beside the mask. -/
lemma keyboardCreate_heap {malloc : Ref → Nat → Word} {bus' : Bus}
    (h : keyboardCreate malloc heap bus = some (heap', bus')) :
    heap' maskRef = heap maskRef ∧ (heap' keyboardOutRef).mode = .rw := by
  obtain ⟨_, _, h⟩ := Option.bind_eq_some_iff.mp h
  cases h
  have hin : maskRef ≠ keyboardInRef := by decide
  have hout : maskRef ≠ keyboardOutRef := by decide
  have hkeys : keyboardOutRef ≠ keyboardInRef := by decide
  constructor
  · exact (create_ne hin _ _).trans (create_ne hout _ _)
  · rw [create_ne hkeys]
    exact congrArg Memory.mode (if_pos rfl)

/-- The video is created beside the other devices. -/
lemma videoCreate_heap {malloc : Ref → Nat → Word} {bus' : Bus}
    (h : videoCreate malloc heap bus video = some (heap', bus')) {r : Ref} (hr : r < videoMetaRef) :
    heap' r = heap r := by
  have h6 (heap : Heap) (w : Word) : Vm.setWord (create malloc heap videoMetaRef videoMetaSize .rw) videoMetaRef 0 w r =
      heap r := (setWord_ne (Nat.ne_of_lt hr) _ _).trans (create_ne (Nat.ne_of_lt hr) _ _)
  have h7 : r ≠ videoBuffer0Ref := Nat.ne_of_lt (Nat.lt_succ_of_lt hr)
  have h8 : r ≠ videoBuffer1Ref := Nat.ne_of_lt (Nat.lt_succ_of_lt (Nat.lt_succ_of_lt hr))
  obtain ⟨_, _, h⟩ := Option.bind_eq_some_iff.mp h
  cases h
  cases video with
  | false => exact h6 _ _
  | true => exact (create_ne h8 _ _).trans ((create_ne h7 _ _).trans (h6 _ _))

/-- The memory map of `vm_create`. -/
lemma vmCreate_machine {malloc : Ref → Nat → Word} {vm : VM} (hvm : vmCreate malloc ramSize video = some vm)
    (hpos : 0 < ramSize) (hle : ramSize ≤ keyboardInAddress) :
    MachineHeap vm.heap vm.bus ramSize video ∧ vm.pic.interruptMask = maskRef := by
  have hmapped := vmCreate_mapped hvm hpos hle
  have hram : (vm.heap ramRef).mode = .rw := by
    obtain ⟨vm', _, hvm', _, _, _, hram, _⟩ := vmCreate_ok malloc ramSize video
    cases hvm.symm.trans hvm'
    exact congrArg Memory.mode hram
  unfold vmCreate at hvm
  obtain ⟨⟨heap1, bus1⟩, hkeyboard, hvm⟩ := Option.bind_eq_some_iff.mp hvm
  obtain ⟨⟨heap2, bus2⟩, hvideo, hvm⟩ := Option.bind_eq_some_iff.mp hvm
  cases hvm
  obtain ⟨hmask, hkey⟩ := keyboardCreate_heap hkeyboard
  have hkeep {r : Ref} (hr : r < videoMetaRef) : heap2 r = heap1 r := videoCreate_heap hvideo hr
  obtain ⟨hmode, hpic⟩ := picCreate_mask malloc
    (create malloc (create malloc noMemories ramRef ramSize .rw) romRef romSize .r) busCreate
  refine ⟨⟨hmapped, hram, ?_, ?_⟩, hpic⟩
  · show (heap2 maskRef).mode = .rw
    rw [hkeep (by decide), hmask]
    exact hmode
  · show (heap2 keyboardOutRef).mode = .rw
    rw [hkeep (by decide)]
    exact hkey

/-- The mode of the ROM does not matter to a program. -/
lemma MachineHeap.modeSet (h : MachineHeap heap bus ramSize video) (mode : MemMode) :
    MachineHeap (memoryModeSet heap romRef mode) bus ramSize video where
  mapped := h.mapped.sizes fun r => by
    unfold memoryModeSet Heap.set
    split
    next e => rw [e]
    next => rfl
  ramMode := h.ramMode
  maskMode := h.maskMode
  keyMode := h.keyMode

section
variable [Host]

/-- The machine with its ROM. -/
lemma MachineHeap.loadRom (h : MachineHeap heap bus ramSize video) {file : File}
    (hload : Vm.loadRom heap bus file = some (true, heap')) : MachineHeap heap' bus ramSize video := by
  have hfile {file : File} (hload : (loadFile (memoryModeSet heap romRef .rw) bus file romAddress).bind (fun x =>
      if x.1 then some (true, memoryModeSet x.2 romRef .r) else some (false, x.2)) = some (true, heap')) :
      MachineHeap heap' bus ramSize video := by
    obtain ⟨⟨ok, heap1⟩, hwords, hr⟩ := Option.bind_eq_some_iff.mp hload
    cases ok with
    | false => cases hr
    | true =>
      cases hr
      exact ((h.modeSet .rw).shape (loadFile_shape hwords)).modeSet .r
  cases file with
  | null =>
    cases hload
    exact h
  | missing => exact @hfile .missing hload
  | content bytes => exact @hfile (.content bytes) hload

omit [Host] in
/-- The values of the options change the registers only. -/
lemma setRegisters_keeps {values : Nat → Int} {is : List Nat} (h : setRegisters values is s = some ((), s')) :
    s'.bus = s.bus ∧ s'.pic = s.pic ∧ s'.debug = s.debug ∧ s'.registerCount = s.registerCount ∧
      s'.flags.interruptsEnabled = s.flags.interruptsEnabled := by
  induction is generalizing s with
  | nil =>
    cases h
    exact ⟨rfl, rfl, rfl, rfl, rfl⟩
  | cons i is ih =>
    obtain ⟨⟨_, s1⟩, hset, h⟩ := Option.bind_eq_some_iff.mp h
    obtain ⟨hbus, hpic, hdebug, hcount, hflags⟩ := ih h
    rw [hbus, hpic, hdebug, hcount, hflags]
    unfold cpuRegisterSet at hset
    split at hset
    next hr =>
      cases hset
      obtain ⟨_, _, _, _, _, _, _, rfl⟩ := setRegister_eq hr
      exact ⟨rfl, rfl, rfl, rfl, rfl⟩
    next =>
      cases hset
      exact ⟨rfl, rfl, rfl, rfl, rfl⟩

/-- What `main` starts. -/
structure Starting (options : Options) (vm : VM) (heap : Heap) (cpu : CPU) : Prop where
  heap : cpu.heap = heap
  bus : cpu.bus = vm.bus
  pic : cpu.pic = vm.pic
  debug : cpu.debug = ⟨options.printSteps, false, false, 0⟩
  count : cpu.registerCount = BitVec.ofInt 8 options.registers
  disabled : cpu.flags.interruptsEnabled = false

omit [Host] in
/-- The CPU as `main` starts it. -/
lemma startCpu_starting {raw cpu : CPU} {vm : VM} {options : Options} (h : startCpu raw vm heap options = some cpu) :
    Starting options vm heap cpu := by
  obtain ⟨cpu0, hcreate, hset⟩ := Option.bind_eq_some_iff.mp h
  obtain ⟨⟨_, cpu'⟩, hset, h⟩ := Option.bind_eq_some_iff.mp hset
  cases h
  have hheap : cpu.heap = heap := setRegisters_heap hset
  obtain ⟨hbus, hpic, hdebug, hcount, hflags⟩ := setRegisters_keeps hset
  unfold cpuCreate cpuReset at hcreate
  split at hcreate
  · cases hcreate
  · cases hcreate
    exact ⟨hheap, hbus, hpic, hdebug, hcount, hflags⟩

/-- What `main` starts shows the machine to the program, if it does not print the steps. -/
lemma setUp_shows {malloc : Ref → Nat → Word} {raw cpu : CPU} {options : Options}
    (h : setUp malloc raw options = some (some cpu)) (hpos : 0 < options.ramSize)
    (hle : options.ramSize ≤ keyboardInAddress) (hprint : options.printSteps = false) :
    Shows options.ramSize options.video cpu.started cpu.started.core := by
  obtain ⟨vm, heap, heap', hvm, hload, hrom, hstart⟩ := setUp_inv h
  obtain ⟨hmachine, hpic⟩ := vmCreate_machine hvm hpos hle
  have hmachine := (hmachine.shape (loadFile_shape hload)).loadRom hrom
  have hs := startCpu_starting hstart
  refine ⟨?_, ?_, ?_, ?_, rfl⟩
  · show MachineHeap cpu.heap cpu.bus _ _
    rw [hs.heap, hs.bus]
    exact hmachine
  · show cpu.pic.interruptMask = maskRef
    rw [hs.pic]
    exact hpic
  · show cpu.debug.printOp = false
    rw [hs.debug]
    exact hprint
  · show (cpu.debug.trap && cpu.debugger) = false
    rw [hs.debug]
    rfl

/-! ### Runs -/

/-- What happens to the CPU. The keyboard sets the word of its memory. -/
def Stimulus.event : Stimulus → Event
  | .turn => .turn
  | .trigger i => .trigger i
  | .key word => .store keyboardOutRef 0 word

omit [Host] in
/-- A key is a word in the memory of the keyboard. -/
lemma Shows.key (h : Shows ramSize video s c) (word : Word) :
    Shows ramSize video { s with heap := setWord s.heap keyboardOutRef 0 word } (c.place keyboardOutAddress word) := by
  have hz := h.heap.mapped.mem_zones (@device_zones video).2
  have hsize : (s.heap keyZone.memory).size = keyboardOutMemorySize := h.heap.mapped.device_sizes.2
  have hlt : (0 : Addr) < (s.heap keyZone.memory).size := hsize ▸ by decide
  obtain ⟨hheap, hflat⟩ := h.heap.setWord hz h.heap.keyMode (by decide) hlt word
  refine ⟨hheap, h.pic, h.silent, h.quiet, ?_⟩
  rw [← h.core]
  show Core.mk (flat (setWord s.heap keyboardOutRef 0 word) s.bus) _ _ _ _ _ _ = _
  have hfrom : keyZone.from + 0 = keyboardOutAddress := BitVec.add_zero _
  rw [hfrom] at hflat
  exact hflat ▸ rfl

/-- An event has the effect of its stimulus. -/
lemma happen_refines (x : Stimulus) (h : Shows ramSize video s c) (hx : Core.happen x c = some c') :
    ∃ log s', happen x.event s = some (log, s') ∧ Shows ramSize video s' c' := by
  cases x with
  | turn =>
    obtain ⟨s', hrun, hs'⟩ := turn_refines h hx
    rw [turnLogged_forget, Option.map_eq_some_iff] at hrun
    obtain ⟨⟨log, s1⟩, hrun, e⟩ := hrun
    cases e
    exact ⟨log, s1, hrun, hs'⟩
  | trigger i =>
    cases hx
    exact ⟨_, _, rfl, h.trigger i _⟩
  | key word =>
    cases hx
    exact ⟨_, _, rfl, h.key word⟩

/-- The CPU after an event. -/
def after (event : Event) (s : CPU) : Option CPU := (happen event s).map Prod.snd

/-- A run, one event after the other. -/
lemma happenAll_steps {events : List Event} (h : steps after events s = some s') :
    ∃ log, happenAll events s = some (log, s') := by
  induction events generalizing s with
  | nil =>
    cases h
    exact ⟨[], rfl⟩
  | cons event events ih =>
    obtain ⟨s1, hevent, h⟩ := steps_cons.mp h
    obtain ⟨⟨log1, s2⟩, hrun1, e⟩ := Option.map_eq_some_iff.mp hevent
    cases e
    obtain ⟨log2, hrun2⟩ := ih h
    refine ⟨log1 ++ log2, ?_⟩
    rw [happenAll, bind_apply, hrun1, Option.bind_some, bind_apply, hrun2]
    rfl

/-- A run of the CPU shows the run of the machine. -/
lemma happenAll_refines {xs : List Stimulus} (h : Shows ramSize video s c) (hr : steps Core.happen xs c = some c') :
    ∃ log s', happenAll (xs.map Stimulus.event) s = some (log, s') ∧ Shows ramSize video s' c' := by
  have hstep : ∀ x s t t', Shows ramSize video s t → Core.happen x t = some t' →
      ∃ s', after x.event s = some s' ∧ Shows ramSize video s' t' := by
    intro x s t t' h hx
    obtain ⟨log, s', hrun, hs'⟩ := happen_refines x h hx
    exact ⟨s', by rw [after, hrun]; rfl, hs'⟩
  obtain ⟨s', hrun, hs'⟩ := steps_simulates hstep h hr
  obtain ⟨log, hrun⟩ := happenAll_steps hrun
  exact ⟨log, s', hrun, hs'⟩

/-- **The CPU refines the machine**: from its start by `main`, without tracing, the CPU goes through the runs of
the machine that a program sees, among any events. They end where `XPSE` or `XBRK` is executed. -/
theorem cpu_refines {malloc : Ref → Nat → Word} {raw cpu : CPU} {options : Options} {xs : List Stimulus}
    (h : setUp malloc raw options = some (some cpu)) (hpos : 0 < options.ramSize)
    (hle : options.ramSize ≤ keyboardInAddress) (hprint : options.printSteps = false)
    (hr : steps Core.happen xs cpu.started.core = some c) :
    ∃ log s, happenAll (xs.map Stimulus.event) cpu.started = some (log, s) ∧ s.core = c := by
  obtain ⟨log, s, hrun, hs⟩ := happenAll_refines (setUp_shows h hpos hle hprint) hr
  exact ⟨log, s, hrun, hs.core⟩

end

end

/-- `examples/fact.a` for `2`, among events. -/
theorem cpu_refines_fact : ∃ cpu c log s,
    @setUp ⟨.little⟩ (fun _ _ => 0) (smallCpu smallHeap) (factOptions 2) = some (some cpu) ∧
      steps Core.happen (.trigger 3 :: .turn :: .key 7 :: List.replicate 13 .turn) cpu.started.core = some c ∧
        @happenAll ⟨.little⟩ (.trigger 3 :: .turn :: .store keyboardOutRef 0 7 :: List.replicate 13 .turn) cpu.started =
          some (log, s) ∧
          s.core = c ∧ c.running = false ∧ c.registers 3 = 2 := by
  have hrun : ((@setUp ⟨.little⟩ (fun _ _ => 0) (smallCpu smallHeap) (factOptions 2)).bind fun o => o.bind fun cpu =>
      (steps Core.happen (.trigger 3 :: .turn :: .key 7 :: List.replicate 13 .turn) cpu.started.core).map fun c =>
        (c.running, c.registers 3)) = some (false, 2) := by decide +kernel
  obtain ⟨cpu, c, hsetUp, hrun, hfinal⟩ := ran_eq_some hrun
  obtain ⟨hstopped, hresult⟩ := Prod.mk.inj hfinal
  obtain ⟨log, s, hall, hs⟩ := @cpu_refines c ⟨.little⟩ _ _ _ _ _ hsetUp (by decide) (by decide) rfl hrun
  exact ⟨cpu, c, log, s, hsetUp, hrun, hall, hs, hstopped, hresult⟩

end Thorium.Vm
