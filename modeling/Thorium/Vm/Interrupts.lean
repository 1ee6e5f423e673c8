import Thorium.Vm.Decode
import Thorium.Vm.Pending
import Thorium.Vm.Rom

/-!
# Interrupts

What an interrupt leaves of the program it interrupts. The entry in `cpu_loop` and the dispatcher of
`rom.a` take eight turns to get to the routine of the interrupt, and two turns after it has returned. The
CPU in the dispatcher is described by what it holds (`Dispatching`), and each instruction leads from one
such description to the next. The dispatcher restores all that it changes but the flags, which its last
`POP r0` sets from `r0`, and nothing that the routine changes: `transparent_iff`.
-/

namespace Thorium.Vm
open Thorium.Isa Thorium.Run

/-! ### One instruction -/

/-- The CPU after a jump. -/
def CPU.jumped (cpu : CPU) (a : Addr) : CPU := { cpu with pc := a }

/-- The CPU after an assignment to `r0`. -/
def CPU.assigned (cpu : CPU) (v : Word) : CPU := (cpu.setGeneral 0 v).flagsUpdate v

/-- There is an instruction at an address. -/
structure Code (heap : Heap) (bus : Bus) (pc : Addr) (op : Op) (o : Operands) : Prop where
  word : busWordRead heap bus pc = some (.ok (ByteOrder.big.ofBytes op.bytecode o.r0 o.r1 o.r2))
  operand : op.takesWord = true → busWordRead heap bus (pc + addrSize) = some (.ok o.w0)

section
variable {s s' : CPU} {op : Op} {o : Operands} {v w : Word} {heap : Heap} {conds : List Cond}

/-- A turn has the effect of the instruction at `pc`. -/
lemma fetchExecute_code [Host] (hp : s.state.panic = .ok) (hq : (s.debug.trap && s.debugger) = false)
    (hc : Code s.heap s.bus s.pc op o) (he : effect op o s.skip = some ((), s')) :
    fetchExecute s = some ((), s'.stepped) := by
  have hd : Decodes (.I op) o _ s := @decodes_of_reads o s _ (.I op) hp hc.word hc.operand
  rw [fetchExecute_ok hp hc.word]
  exact execute_ok hp hd.selected hq (hd.effect.trans he)

/-! ### The effects of the instructions of the dispatcher -/

/-- `r0` is no special register. -/
lemma register_zero (hc : 0 < s.registerCount) : s.register 0 = some (s.registers 0) := by
  unfold CPU.register
  have hle : ¬ s.registerCount ≤ 0 := by
    rw [BitVec.not_le]
    exact hc
  simp only [if_neg hle]
  rfl

/-- `r0` is set if there is a register. -/
lemma setRegister_zero (hc : 0 < s.registerCount) : s.setRegister 0 v = some (s.setGeneral 0 v) := by
  unfold CPU.setRegister
  have hle : ¬ s.registerCount ≤ 0 := by
    rw [BitVec.not_le]
    exact hc
  simp only [if_neg hle]
  rfl

/-- An assignment to `r0`. -/
lemma registerSet_zero (hp : s.state.panic = .ok) (hc : 0 < s.registerCount) :
    registerSet 0 v s = some ((), s.assigned v) := by
  have hp' : (s.assigned v).state.panic = .ok := hp
  rw [registerSet_some (setRegister_zero hc)]
  exact congrArg (fun s => some ((), s)) (CPU.setPanic_ok hp')

/-- `r0` is read without an error. -/
lemma registerGet_zero (hp : s.state.panic = .ok) (hc : 0 < s.registerCount) :
    registerGet 0 s = some (some (s.registers 0), s) := by
  rw [registerGet_some (register_zero hc), CPU.setPanic_ok hp]

/-- `PUSH r` -/
lemma effect_pushR {r : Byte} (hp : s.state.panic = .ok) (hr : s.register r = some v)
    (hw : busWordWrite s.heap s.bus (s.sp - wordSize) v = some (.ok (heap, conds))) :
    effect .pushR { r0 := r } s = some ((), s.down.stored heap conds) := by
  show ((registerGet r s).bind _).bind _ = _
  rw [registerGet_some hr, CPU.setPanic_ok hp]
  show ((pushWord v s).bind _).bind _ = _
  rw [pushWord_ok hw]
  rfl

/-- There is no `r0` to push. -/
lemma effect_push_none (hc : ¬ 0 < s.registerCount) :
    effect .pushR {} s = some ((), s.fault.setPanic .invalidRegister) := by
  have hr : s.register 0 = none := by
    unfold CPU.register
    have hle : s.registerCount ≤ 0 := BitVec.not_lt.mp hc
    simp only [if_pos hle]
    rfl
  show ((registerGet 0 s).bind _).bind _ = _
  rw [registerGet_none hr]
  rfl

/-- `CALL &a` -/
lemma effect_call {a : Addr}
    (hw : busWordWrite s.heap s.bus (s.sp - wordSize) s.skip.pc = some (.ok (heap, conds))) :
    effect .callA { w0 := a } s = some ((), (s.skip.down.stored heap conds).jumped a) := by
  show (pushWord s.skip.pc s.skip).bind _ = _
  rw [@pushWord_ok s.skip _ _ _ hw]
  rfl

/-- `CALL r` -/
lemma effect_callR {r : Byte} {a : Word} (hp : s.state.panic = .ok) (hr : s.register r = some a)
    (hw : busWordWrite s.heap s.bus (s.sp - wordSize) s.pc = some (.ok (heap, conds))) :
    effect .callR { r0 := r } s = some ((), (s.down.stored heap conds).jumped a) := by
  show (registerGet r s).bind _ = _
  rw [registerGet_some hr, CPU.setPanic_ok hp]
  show (pushWord s.pc s).bind _ = _
  rw [pushWord_ok hw]
  rfl

/-- `MOV r0, r` -/
lemma effect_mov {r : Byte} (hp : s.state.panic = .ok) (hc : 0 < s.registerCount)
    (hr : s.register r = some v) : effect .movRR { r1 := r } s = some ((), s.assigned v) := by
  show (registerGet r s).bind _ = _
  rw [registerGet_some hr, CPU.setPanic_ok hp]
  exact registerSet_zero hp hc

/-- `MUL r0, w` -/
lemma effect_mul (hp : s.state.panic = .ok) (hc : 0 < s.registerCount) :
    effect .mulRW { w0 := w } s = some ((), s.skip.assigned (s.registers 0 * w)) := by
  show (registerGet 0 s.skip).bind _ = _
  rw [@registerGet_zero s.skip hp hc]
  exact @registerSet_zero s.skip _ hp hc

/-- `ADD r0, r` -/
lemma effect_add {r : Byte} (hp : s.state.panic = .ok) (hc : 0 < s.registerCount)
    (hr : s.register r = some v) :
    effect .addRR { r1 := r } s = some ((), s.assigned (s.registers 0 + v)) := by
  show (registerGet 0 s).bind _ = _
  rw [registerGet_zero hp hc]
  show (registerGet r s).bind _ = _
  rw [registerGet_some hr, CPU.setPanic_ok hp]
  exact registerSet_zero hp hc

/-- `LOAD r0, r0` -/
lemma effect_load (hp : s.state.panic = .ok) (hc : 0 < s.registerCount)
    (hr : busWordRead s.heap s.bus (s.registers 0) = some (.ok v)) :
    effect .loadRR {} s = some ((), s.assigned v) := by
  show (registerGet 0 s).bind _ = _
  rw [registerGet_zero hp hc]
  show (readWord (s.registers 0) s).bind _ = _
  rw [readWord_ok hr]
  exact registerSet_zero hp hc

/-- `RET` -/
lemma effect_ret (hr : busWordRead s.heap s.bus s.sp = some (.ok v)) :
    effect .ret {} s = some ((), (s.jumped v).up) := by
  show (readWord s.sp s).bind _ = _
  rw [readWord_ok hr]
  rfl

/-- `POP r` -/
lemma effect_popR {r : Byte} (hr : busWordRead s.heap s.bus s.sp = some (.ok v))
    (hset : s.up.setRegister r v = some s') (hp : s'.state.panic = .ok) :
    effect .popR { r0 := r } s = some ((), s'.flagsUpdate v) := by
  have hp' : (s'.flagsUpdate v).state.panic = .ok := hp
  show (readWord s.sp s).bind _ = _
  rw [readWord_ok hr]
  show (registerSet r v s.up).bind _ = _
  rw [registerSet_some hset, CPU.setPanic_ok hp']
  rfl

/-- The CPU after a return from an interrupt to an address. -/
def CPU.returned (cpu : CPU) (a : Addr) : CPU := { cpu with
  pc := a
  sp := cpu.sp + wordSize
  flags := { cpu.flags with interruptsEnabled := true } }

/-- `IRET` -/
lemma effect_iret (hr : busWordRead s.heap s.bus s.sp = some (.ok v)) :
    effect .iret {} s = some ((), s.returned v) := by
  show (readWord s.sp s).bind _ = _
  rw [readWord_ok hr]
  rfl

end

/-! ### The dispatcher -/

/-- The instructions of `int_dispatch` and `compute_interrupt_handler_address`. -/
structure Dispatcher (heap : Heap) (bus : Bus) : Prop where
  push : Code heap bus (romAddress + 8) .pushR {}
  call : Code heap bus (romAddress + 12) .callA { w0 := romAddress + 32 }
  callR : Code heap bus (romAddress + 20) .callR {}
  pop : Code heap bus (romAddress + 24) .popR {}
  iret : Code heap bus (romAddress + 28) .iret {}
  mov : Code heap bus (romAddress + 32) .movRR { r1 := BitVec.ofNat 8 regIR }
  mul : Code heap bus (romAddress + 36) .mulRW { w0 := 4 }
  add : Code heap bus (romAddress + 44) .addRR { r1 := BitVec.ofNat 8 regIDT }
  load : Code heap bus (romAddress + 48) .loadRR {}
  ret : Code heap bus (romAddress + 52) .ret {}

/-- The dispatcher is in the ROM. -/
lemma Image.dispatcher {heap : Heap} {bus : Bus} (h : Image heap bus romAddress romImage) :
    Dispatcher heap bus := by
  obtain ⟨_, _, ⟨hpush, _⟩, ⟨hcall, _⟩, ⟨hcompute, _⟩, ⟨hcallR, _⟩, ⟨hpop, _⟩, ⟨hiret, _⟩, ⟨hmov, _⟩, ⟨hmul, _⟩,
    ⟨hfour, _⟩, ⟨hadd, _⟩, ⟨hload, _⟩, ⟨hret, _⟩, _⟩ := h
  exact {
    push := ⟨hpush, nofun⟩
    call := ⟨hcall, fun _ => hcompute⟩
    callR := ⟨hcallR, nofun⟩
    pop := ⟨hpop, nofun⟩
    iret := ⟨hiret, nofun⟩
    mov := ⟨hmov, nofun⟩
    mul := ⟨hmul, fun _ => hfour⟩
    add := ⟨hadd, nofun⟩
    load := ⟨hload, nofun⟩
    ret := ⟨hret, nofun⟩ }

/-- The CPU `s` in the dispatcher, when `cpu` has been interrupted. Its flags are left open: the
dispatcher changes them. -/
structure Dispatching (cpu : CPU) (ir : Word) (heap : Heap) (pc sp r0 : Word) (s : CPU) : Prop where
  heap : s.heap = heap
  pc : s.pc = pc
  sp : s.sp = sp
  r0 : s.registers 0 = r0
  ir : s.ir = ir
  others : ∀ r < cpu.registerCount.toNat, r ≠ 0 → s.registers r = cpu.registers r
  bus : s.bus = cpu.bus
  registerCount : s.registerCount = cpu.registerCount
  bp : s.bp = cpu.bp
  cs : s.cs = cpu.cs
  idt : s.idt = cpu.idt
  disabled : s.flags.interruptsEnabled = false
  goesOn : s.goesOn
  quiet : (s.debug.trap && s.debugger) = false

section
variable {cpu s : CPU} {ir pc sp r0 v : Word} {heap heap' : Heap} {conds : List Cond}

namespace Dispatching

/-- After an assignment to `r0`. -/
lemma assigned (h : Dispatching cpu ir heap pc sp r0 s) (v : Word) :
    Dispatching cpu ir heap pc sp v (s.assigned v) := by
  obtain ⟨rfl, rfl, rfl, rfl, rfl, ho, hb, hn, h1, h2, h3, hd, hgo, hq⟩ := h
  have ho' (r : Nat) (hr : r < cpu.registerCount.toNat) (hne : r ≠ 0) :
      (s.assigned v).registers r = cpu.registers r := (if_neg hne).trans (ho r hr hne)
  exact ⟨rfl, rfl, rfl, rfl, rfl, ho', hb, hn, h1, h2, h3, hd, hgo, hq⟩

/-- After the next word. -/
lemma skip (h : Dispatching cpu ir heap pc sp r0 s) : Dispatching cpu ir heap (pc + 4) sp r0 s.skip := by
  obtain ⟨rfl, rfl, rfl, rfl, rfl, ho, hb, hn, h1, h2, h3, hd, hgo, hq⟩ := h
  exact ⟨rfl, rfl, rfl, rfl, rfl, ho, hb, hn, h1, h2, h3, hd, hgo, hq⟩

/-- After a jump. -/
lemma jumped (h : Dispatching cpu ir heap pc sp r0 s) (a : Addr) :
    Dispatching cpu ir heap a sp r0 (s.jumped a) := by
  obtain ⟨rfl, rfl, rfl, rfl, rfl, ho, hb, hn, h1, h2, h3, hd, hgo, hq⟩ := h
  exact ⟨rfl, rfl, rfl, rfl, rfl, ho, hb, hn, h1, h2, h3, hd, hgo, hq⟩

/-- With another word on the stack. -/
lemma down (h : Dispatching cpu ir heap pc sp r0 s) :
    Dispatching cpu ir heap pc (sp - wordSize) r0 s.down := by
  obtain ⟨rfl, rfl, rfl, rfl, rfl, ho, hb, hn, h1, h2, h3, hd, hgo, hq⟩ := h
  exact ⟨rfl, rfl, rfl, rfl, rfl, ho, hb, hn, h1, h2, h3, hd, hgo, hq⟩

/-- Without the last word of the stack. -/
lemma up (h : Dispatching cpu ir heap pc sp r0 s) :
    Dispatching cpu ir heap pc (sp + wordSize) r0 s.up := by
  obtain ⟨rfl, rfl, rfl, rfl, rfl, ho, hb, hn, h1, h2, h3, hd, hgo, hq⟩ := h
  exact ⟨rfl, rfl, rfl, rfl, rfl, ho, hb, hn, h1, h2, h3, hd, hgo, hq⟩

/-- After a write. -/
lemma stored (h : Dispatching cpu ir heap pc sp r0 s) (heap' : Heap) (conds : List Cond) :
    Dispatching cpu ir heap' pc sp r0 (s.stored heap' conds) := by
  obtain ⟨rfl, rfl, rfl, rfl, rfl, ho, hb, hn, h1, h2, h3, hd, hgo, hq⟩ := h
  exact ⟨rfl, rfl, rfl, rfl, rfl, ho, hb, hn, h1, h2, h3, hd, hgo, hq⟩

/-- After the count of a turn. -/
lemma stepped (h : Dispatching cpu ir heap pc sp r0 s) : Dispatching cpu ir heap pc sp r0 s.stepped := by
  obtain ⟨rfl, rfl, rfl, rfl, rfl, ho, hb, hn, h1, h2, h3, hd, hgo, hq⟩ := h
  exact ⟨rfl, rfl, rfl, rfl, rfl, ho, hb, hn, h1, h2, h3, hd, hgo, hq⟩

/-- The instruction at `pc`. -/
lemma code {op : Op} {o : Operands} (h : Dispatching cpu ir heap pc sp r0 s)
    (hcode : Code heap cpu.bus pc op o) : Code s.heap s.bus s.pc op o := by
  rw [h.heap, h.bus, h.pc]
  exact hcode

end Dispatching

variable [Host]

/-- With interrupts disabled, a turn fetches and executes. -/
lemma cpuTurn_disabled (hgo : s.goesOn) (hd : s.flags.interruptsEnabled = false) :
    cpuTurn s = fetchExecute s := by
  rw [cpuTurn, bind_apply, get_apply, Option.bind_some]
  dsimp only
  rw [if_pos hgo, cpuLoopBody_eq, hd]
  exact if_neg Bool.false_ne_true

namespace Dispatching

/-- `PUSH r0` in the dispatcher. -/
lemma push (h : Dispatching cpu ir heap pc sp r0 s) (hcode : Code heap cpu.bus pc .pushR {})
    (hc : 0 < cpu.registerCount)
    (hw : busWordWrite heap cpu.bus (sp - wordSize) r0 = some (.ok (heap', conds))) :
    ∃ s', fetchExecute s = some ((), s') ∧ Dispatching cpu ir heap' (pc + 4) (sp - wordSize) r0 s' := by
  have hk := h.skip
  rw [← hk.registerCount] at hc
  rw [← hk.heap, ← hk.bus, ← hk.sp, ← hk.r0] at hw
  exact ⟨_, fetchExecute_code h.goesOn.2 h.quiet (h.code hcode) (effect_pushR hk.goesOn.2 (register_zero hc) hw),
    (hk.down.stored heap' conds).stepped⟩

/-- `CALL` of an address in the dispatcher. -/
lemma call {a : Addr} (h : Dispatching cpu ir heap pc sp r0 s)
    (hcode : Code heap cpu.bus pc .callA { w0 := a })
    (hw : busWordWrite heap cpu.bus (sp - wordSize) (pc + 4 + 4) = some (.ok (heap', conds))) :
    ∃ s', fetchExecute s = some ((), s') ∧ Dispatching cpu ir heap' a (sp - wordSize) r0 s' := by
  have hk := h.skip
  rw [← hk.heap, ← hk.bus, ← hk.sp, ← hk.skip.pc] at hw
  exact ⟨_, fetchExecute_code h.goesOn.2 h.quiet (h.code hcode) (effect_call hw),
    ((hk.skip.down.stored heap' conds).jumped a).stepped⟩

/-- `CALL r0` in the dispatcher. -/
lemma callR (h : Dispatching cpu ir heap pc sp r0 s) (hcode : Code heap cpu.bus pc .callR {})
    (hc : 0 < cpu.registerCount)
    (hw : busWordWrite heap cpu.bus (sp - wordSize) (pc + 4) = some (.ok (heap', conds))) :
    ∃ s', fetchExecute s = some ((), s') ∧ Dispatching cpu ir heap' r0 (sp - wordSize) r0 s' := by
  have hk := h.skip
  rw [← hk.registerCount] at hc
  rw [← hk.heap, ← hk.bus, ← hk.sp, ← hk.pc] at hw
  have hjump := (hk.down.stored heap' conds).jumped (s.skip.registers 0)
  rw [hk.r0] at hjump
  have hrun := effect_callR hk.goesOn.2 (register_zero hc) hw
  rw [hk.r0] at hrun
  exact ⟨_, fetchExecute_code h.goesOn.2 h.quiet (h.code hcode) hrun, hjump.stepped⟩

/-- `MOV r0, ir` in the dispatcher. -/
lemma mov (h : Dispatching cpu ir heap pc sp r0 s)
    (hcode : Code heap cpu.bus pc .movRR { r1 := BitVec.ofNat 8 regIR }) (hc : 0 < cpu.registerCount) :
    ∃ s', fetchExecute s = some ((), s') ∧ Dispatching cpu ir heap (pc + 4) sp ir s' := by
  have hk := h.skip
  rw [← hk.registerCount] at hc
  have hir : s.skip.register (BitVec.ofNat 8 regIR) = some ir := congrArg some hk.ir
  exact ⟨_, fetchExecute_code h.goesOn.2 h.quiet (h.code hcode) (effect_mov hk.goesOn.2 hc hir),
    (hk.assigned ir).stepped⟩

/-- `MUL r0, w` in the dispatcher. -/
lemma mul (h : Dispatching cpu ir heap pc sp r0 s) (hcode : Code heap cpu.bus pc .mulRW { w0 := v })
    (hc : 0 < cpu.registerCount) :
    ∃ s', fetchExecute s = some ((), s') ∧ Dispatching cpu ir heap (pc + 4 + 4) sp (r0 * v) s' := by
  have hk := h.skip
  rw [← hk.registerCount] at hc
  have hrun := @effect_mul _ v hk.goesOn.2 hc
  rw [hk.r0] at hrun
  exact ⟨_, fetchExecute_code h.goesOn.2 h.quiet (h.code hcode) hrun, (hk.skip.assigned (r0 * v)).stepped⟩

/-- `ADD r0, idt` in the dispatcher. -/
lemma add (h : Dispatching cpu ir heap pc sp r0 s)
    (hcode : Code heap cpu.bus pc .addRR { r1 := BitVec.ofNat 8 regIDT }) (hc : 0 < cpu.registerCount) :
    ∃ s', fetchExecute s = some ((), s') ∧ Dispatching cpu ir heap (pc + 4) sp (r0 + cpu.idt) s' := by
  have hk := h.skip
  rw [← hk.registerCount] at hc
  have hidt : s.skip.register (BitVec.ofNat 8 regIDT) = some cpu.idt := congrArg some hk.idt
  have hrun := effect_add hk.goesOn.2 hc hidt
  rw [hk.r0] at hrun
  exact ⟨_, fetchExecute_code h.goesOn.2 h.quiet (h.code hcode) hrun, (hk.assigned (r0 + cpu.idt)).stepped⟩

/-- `LOAD r0, r0` in the dispatcher. -/
lemma load (h : Dispatching cpu ir heap pc sp r0 s) (hcode : Code heap cpu.bus pc .loadRR {})
    (hc : 0 < cpu.registerCount) (hr : busWordRead heap cpu.bus r0 = some (.ok v)) :
    ∃ s', fetchExecute s = some ((), s') ∧ Dispatching cpu ir heap (pc + 4) sp v s' := by
  have hk := h.skip
  rw [← hk.registerCount] at hc
  rw [← hk.heap, ← hk.bus, ← hk.r0] at hr
  exact ⟨_, fetchExecute_code h.goesOn.2 h.quiet (h.code hcode) (effect_load hk.goesOn.2 hc hr),
    (hk.assigned v).stepped⟩

/-- `RET` in the dispatcher. -/
lemma ret (h : Dispatching cpu ir heap pc sp r0 s) (hcode : Code heap cpu.bus pc .ret {})
    (hr : busWordRead heap cpu.bus sp = some (.ok v)) :
    ∃ s', fetchExecute s = some ((), s') ∧ Dispatching cpu ir heap v (sp + wordSize) r0 s' := by
  have hk := h.skip
  rw [← hk.heap, ← hk.bus, ← hk.sp] at hr
  exact ⟨_, fetchExecute_code h.goesOn.2 h.quiet (h.code hcode) (effect_ret hr), (hk.jumped v).up.stepped⟩

/-- The flags after `POP r0` are those of the word it pops. -/
lemma pop (h : Dispatching cpu ir heap pc sp r0 s) (hcode : Code heap cpu.bus pc .popR {})
    (hc : 0 < cpu.registerCount) (hr : busWordRead heap cpu.bus sp = some (.ok v)) :
    ∃ s', fetchExecute s = some ((), s') ∧ Dispatching cpu ir heap (pc + 4) (sp + wordSize) v s' ∧
      s'.flags.zero = (v == 0) ∧ s'.flags.negative = v.msb := by
  have hk := h.skip
  rw [← hk.registerCount] at hc
  rw [← hk.heap, ← hk.bus, ← hk.sp] at hr
  have hset : s.skip.up.setRegister 0 v = some (s.skip.up.setGeneral 0 v) := setRegister_zero hc
  exact ⟨_, fetchExecute_code h.goesOn.2 h.quiet (h.code hcode) (effect_popR hr hset hk.goesOn.2),
    (hk.up.assigned v).stepped, rfl, rfl⟩

end Dispatching

/-- The first turn of some turns. -/
lemma cpuTurns_succ {n : Nat} {s' : CPU} (h : cpuTurn s = some ((), s')) :
    cpuTurns (n + 1) s = cpuTurns n s' := by
  rw [cpuTurns, bind_apply, h]
  rfl

/-- A turn of the dispatcher. -/
lemma Dispatching.turn {n : Nat} {s' : CPU} (h : Dispatching cpu ir heap pc sp r0 s)
    (hr : fetchExecute s = some ((), s')) : cpuTurns (n + 1) s = cpuTurns n s' :=
  cpuTurns_succ ((cpuTurn_disabled h.goesOn h.disabled).trans hr)

end

/-! ### The stack -/

/-- The words that the entry and the dispatcher push. -/
def slots (sp : Addr) : List Addr := [sp - 4, sp - 8, sp - 12]

/-- The memories when only words of `slots` have been written. -/
structure Stacked (cpu : CPU) (heap : Heap) : Prop where
  keeps : cpu.heap.Keeps heap
  others : ∀ a, a ∉ slots cpu.sp → busWordRead heap cpu.bus a = busWordRead cpu.heap cpu.bus a

section
variable {cpu : CPU} {heap heap' : Heap} {a : Addr} {w : Word} {conds : List Cond}

/-- A stack without a word on it. -/
lemma Stacked.refl (cpu : CPU) : Stacked cpu cpu.heap := ⟨.refl _, fun _ _ => rfl⟩

/-- A word is put on the stack. -/
lemma Stacked.write (h : Stacked cpu heap) (hd : cpu.bus.Distinct) (ha : a ∈ slots cpu.sp)
    (hw : busWordWrite heap cpu.bus a w = some (.ok (heap', conds))) : Stacked cpu heap' where
  keeps := h.keeps.trans (busWordWrite_keeps hw)
  others := fun b hb => (busWordRead_write_ne hd hw fun e : b = a => hb (e ▸ ha)).trans (h.others b hb)

/-- A word that could be written at first can be written. -/
lemma Stacked.can_write (h : Stacked cpu heap) (hs : writeStatus cpu.heap cpu.bus a = some (.ok ()))
    (w : Word) : ∃ heap' conds, busWordWrite heap cpu.bus a w = some (.ok (heap', conds)) := by
  have hst := (@busWordWrite_status _ _ cpu.bus h.keeps.shape a w).trans hs
  rcases hw : busWordWrite heap cpu.bus a w with _ | (e | ⟨heap', conds⟩)
  · rw [hw] at hst
    cases hst
  · rw [hw] at hst
    cases hst
  · exact ⟨heap', conds, rfl⟩

end

/-! ### The interrupted program -/

/-- The CPU is between two instructions and about to handle `i`. The dispatcher is in the ROM, the table of
interrupts leads to `handler`, and there is room on the stack, which ends at `top`. -/
structure Interrupted (top : Nat) (cpu : CPU) (i : Interrupt) (handler : Addr) : Prop where
  goesOn : cpu.goesOn
  quiet : (cpu.debug.trap && cpu.debugger) = false
  enabled : cpu.flags.interruptsEnabled = true
  pending : deliverable cpu.pic cpu.heap i = true
  first : ∀ j < i, deliverable cpu.pic cpu.heap j = false
  distinct : cpu.bus.Distinct
  rom : Image cpu.heap cpu.bus romAddress romImage
  entry : busWordRead cpu.heap cpu.bus (i.setWidth 32 * 4 + cpu.idt) = some (.ok handler)
  apart : i.setWidth 32 * 4 + cpu.idt ∉ slots cpu.sp
  stack : ∀ a ∈ slots cpu.sp, writeStatus cpu.heap cpu.bus a = some (.ok ())
  room : 12 ≤ cpu.sp.toNat
  top : cpu.sp.toNat ≤ top

/-- The routine that was entered in `s` has returned in `s'`: it has preserved the general registers, the flags
and the stack above it. -/
structure Returned (top : Nat) (s s' : CPU) : Prop where
  goesOn : s'.goesOn
  quiet : (s'.debug.trap && s'.debugger) = false
  pc : busWordRead s.heap s.bus s.sp = some (.ok s'.pc)
  sp : s'.sp = s.sp + wordSize
  registers : ∀ r < s.registerCount.toNat, s'.registers r = s.registers r
  flags : s'.flags = s.flags
  memory : ∀ a, s.sp ≤ a → a.toNat < top → busWordRead s'.heap s'.bus a = busWordRead s.heap s.bus a

/-- It has also preserved the special registers that the contract of a routine does not name. -/
structure KeepsBases (s s' : CPU) : Prop where
  bp : s'.bp = s.bp
  cs : s'.cs = s.cs
  idt : s'.idt = s.idt

/-- The program that was interrupted in `cpu` goes on in `cpu'`. -/
structure Resumed (top : Nat) (cpu cpu' : CPU) : Prop where
  goesOn : cpu'.goesOn
  pc : cpu'.pc = cpu.pc
  sp : cpu'.sp = cpu.sp
  registers : ∀ r < cpu.registerCount.toNat, cpu'.registers r = cpu.registers r
  bp : cpu'.bp = cpu.bp
  cs : cpu'.cs = cpu.cs
  idt : cpu'.idt = cpu.idt
  zero : cpu'.flags.zero = cpu.flags.zero
  negative : cpu'.flags.negative = cpu.flags.negative
  enabled : cpu'.flags.interruptsEnabled = true
  memory : ∀ a, cpu.sp ≤ a → a.toNat < top →
    busWordRead cpu'.heap cpu'.bus a = busWordRead cpu.heap cpu.bus a

section
variable [Host] {cpu : CPU} {i : Interrupt} {handler : Addr} {top k : Nat}

/-- The routine at `handler`, entered by the dispatcher, has returned after `k` turns. -/
def Routine (top : Nat) (cpu : CPU) (handler : Addr) (k : Nat) : Prop :=
  ∀ s, cpuTurns 8 cpu = some ((), s) → s.pc = handler →
    ∃ s', cpuTurns k s = some ((), s') ∧ Returned top s s'

/-- After `k` turns of the routine at `handler`, `bp`, `cs` and `idt` are as it was given them. -/
def RoutineKeeps (cpu : CPU) (handler : Addr) (k : Nat) : Prop :=
  ∀ s, cpuTurns 8 cpu = some ((), s) → s.pc = handler →
    ∀ s', cpuTurns k s = some ((), s') → KeepsBases s s'

/-- Eight turns lead to the routine, and two turns after it has returned the program goes on. -/
def Transparent (top : Nat) (cpu : CPU) (handler : Addr) (k : Nat) : Prop :=
  ∃ s, cpuTurns 8 cpu = some ((), s) ∧ s.pc = handler ∧
    ∃ s', cpuTurns k s = some ((), s') ∧ Returned top s s' ∧
      ∃ cpu', cpuTurns 2 s' = some ((), cpu') ∧ Resumed top cpu cpu'

/-- The stack when the routine is entered. -/
structure Entered (cpu : CPU) (heap : Heap) : Prop where
  stacked : Stacked cpu heap
  pc : busWordRead heap cpu.bus (cpu.sp - 4) = some (.ok cpu.pc)
  r0 : busWordRead heap cpu.bus (cpu.sp - 8) = some (.ok (cpu.registers 0))
  «return» : busWordRead heap cpu.bus (cpu.sp - 12) = some (.ok (romAddress + 24))

/-- The first turn enters the interrupt and fetches from the dispatcher. -/
lemma Interrupted.entry_turn (h : Interrupted top cpu i handler) : ∃ heap s,
    cpuTurn cpu = fetchExecute s ∧ Stacked cpu heap ∧
      busWordRead heap cpu.bus (cpu.sp - 4) = some (.ok cpu.pc) ∧
      Dispatching cpu (i.setWidth 32) heap (romAddress + 8) (cpu.sp - 4) (cpu.registers 0) s := by
  have hslot : cpu.sp - 4 ∈ slots cpu.sp := List.mem_cons_self
  obtain ⟨heap, conds, hw⟩ := (Stacked.refl cpu).can_write (h.stack _ hslot) cpu.pc
  refine ⟨heap, cpu.enter heap conds, ?_, (Stacked.refl cpu).write h.distinct hslot hw,
    busWordRead_write hw, ?_⟩
  · rw [cpuTurn, bind_apply, get_apply, Option.bind_some]
    dsimp only
    rw [if_pos h.goesOn, cpuLoopBody_eq, h.enabled, picInterruptActive_iff.mpr ⟨_, h.pending⟩, interruptEntry_ok hw]
    rfl
  · exact {
      heap := rfl
      pc := rfl
      sp := rfl
      r0 := rfl
      ir := congrArg (BitVec.setWidth 32) (picInterruptGet_first h.pending h.first)
      others := fun _ _ _ => rfl
      bus := rfl
      registerCount := rfl
      bp := rfl
      cs := rfl
      idt := rfl
      disabled := rfl
      goesOn := h.goesOn
      quiet := h.quiet }

/-- The dispatcher enters the routine. -/
lemma Interrupted.dispatch (h : Interrupted top cpu i handler) (hc : 0 < cpu.registerCount) : ∃ heap s,
    cpuTurns 8 cpu = some ((), s) ∧ Entered cpu heap ∧
      Dispatching cpu (i.setWidth 32) heap handler (cpu.sp - 12) handler s := by
  have hslot8 : cpu.sp - 8 ∈ slots cpu.sp := List.mem_cons_of_mem _ List.mem_cons_self
  have hslot12 : cpu.sp - 12 ∈ slots cpu.sp := List.mem_cons_of_mem _ (List.mem_cons_of_mem _ List.mem_cons_self)
  have e8 : cpu.sp - 4 - wordSize = cpu.sp - 8 := by unfold wordSize; bv_omega
  have e12 : cpu.sp - 8 - wordSize = cpu.sp - 12 := by unfold wordSize; bv_omega
  have e8' : cpu.sp - 12 + wordSize = cpu.sp - 8 := by unfold wordSize; bv_omega
  have hne8 : cpu.sp - 4 ≠ cpu.sp - 8 := by bv_omega
  have hne12 : cpu.sp - 4 ≠ cpu.sp - 12 := by bv_omega
  have hne : cpu.sp - 8 ≠ cpu.sp - 12 := by bv_omega
  have hd := h.distinct
  have code {heap : Heap} (hs : Stacked cpu heap) : Dispatcher heap cpu.bus := (h.rom.keeps hs.keeps).dispatcher
  -- the entry and `PUSH r0`
  obtain ⟨heap1, s1, hrun1, hs1, hpc1, h1⟩ := h.entry_turn
  obtain ⟨heap2, conds2, hw2⟩ := hs1.can_write (h.stack _ hslot8) (cpu.registers 0)
  have hs2 := hs1.write hd hslot8 hw2
  obtain ⟨s2, hr2, h2⟩ := h1.push (code hs1).push hc (e8.symm ▸ hw2)
  rw [e8] at h2
  -- the call of `compute_interrupt_handler_address`
  obtain ⟨heap3, conds3, hw3⟩ := hs2.can_write (h.stack _ hslot12) (romAddress + 12 + 4 + 4)
  have hs3 := hs2.write hd hslot12 hw3
  obtain ⟨s3, hr3, h3⟩ := h2.call (code hs2).call (e12.symm ▸ hw3)
  rw [e12] at h3
  obtain ⟨s4, hr4, h4⟩ := h3.mov (code hs3).mov hc
  obtain ⟨s5, hr5, h5⟩ := h4.mul (code hs3).mul hc
  obtain ⟨s6, hr6, h6⟩ := h5.add (code hs3).add hc
  obtain ⟨s7, hr7, h7⟩ := h6.load (code hs3).load hc ((hs3.others _ h.apart).trans h.entry)
  obtain ⟨s8, hr8, h8⟩ := h7.ret (code hs3).ret (busWordRead_write hw3)
  rw [e8'] at h8
  -- the call of the routine
  obtain ⟨heap4, conds4, hw4⟩ := hs3.can_write (h.stack _ hslot12) (romAddress + 20 + 4)
  have hs4 := hs3.write hd hslot12 hw4
  obtain ⟨s9, hr9, h9⟩ := h8.callR (code hs3).callR hc (e12.symm ▸ hw4)
  rw [e12] at h9
  refine ⟨heap4, s9, ?_, ?_, h9⟩
  · rw [cpuTurns_succ (hrun1.trans hr2), h2.turn hr3, h3.turn hr4, h4.turn hr5, h5.turn hr6, h6.turn hr7,
      h7.turn hr8, h8.turn hr9]
    rfl
  · exact {
      stacked := hs4
      pc := by
        rw [busWordRead_write_ne hd hw4 hne12, busWordRead_write_ne hd hw3 hne12,
          busWordRead_write_ne hd hw2 hne8]
        exact hpc1
      r0 := by
        rw [busWordRead_write_ne hd hw4 hne, busWordRead_write_ne hd hw3 hne]
        exact busWordRead_write hw2
      «return» := busWordRead_write hw4 }

omit [Host] in
/-- The routine returns to the dispatcher: it cannot have changed the ROM, and it has preserved the words
that the dispatcher pops. The program that goes on has the `bp`, `cs` and `idt` of the routine. -/
lemma Entered.back {heap : Heap} {s s' : CPU} {r0 : Word} (he : Entered cpu heap)
    (hs : Dispatching cpu (i.setWidth 32) heap handler (cpu.sp - 12) r0 s)
    (hkeep : s.Keeps s') (hret : Returned top s s') :
    Dispatching { cpu with bp := s'.bp, cs := s'.cs, idt := s'.idt } s'.ir s'.heap (romAddress + 24) (cpu.sp - 8)
      (s'.registers 0) s' where
  heap := rfl
  pc := by
    have hpc := hret.pc
    rw [hs.heap, hs.bus, hs.sp, he.return] at hpc
    exact (Except.ok.inj (Option.some.inj hpc)).symm
  sp := by
    rw [hret.sp, hs.sp]
    unfold wordSize
    bv_omega
  r0 := rfl
  ir := rfl
  others := fun r hr hne => (hret.registers r (hs.registerCount.symm ▸ hr)).trans (hs.others r hr hne)
  bus := hkeep.bus.trans hs.bus
  registerCount := hkeep.registerCount.trans hs.registerCount
  bp := rfl
  cs := rfl
  idt := rfl
  disabled := (congrArg Flags.interruptsEnabled hret.flags).trans hs.disabled
  goesOn := hret.goesOn
  quiet := hret.quiet

/-- The two turns after the routine has returned: the program goes on as it was exactly when its flags were
those of `r0` and the routine has kept what the dispatcher does not restore. -/
lemma Interrupted.resume {heap : Heap} {s s' : CPU} {k : Nat} {r0 : Word}
    (h : Interrupted top cpu i handler) (hc : 0 < cpu.registerCount) (he : Entered cpu heap)
    (hs : Dispatching cpu (i.setWidth 32) heap handler (cpu.sp - 12) r0 s)
    (hk : cpuTurns k s = some ((), s')) (hret : Returned top s s') :
    ∃ cpu', cpuTurns 2 s' = some ((), cpu') ∧ (Resumed top cpu cpu' ↔
      (cpu.flags.zero = (cpu.registers 0 == 0) ∧ cpu.flags.negative = (cpu.registers 0).msb) ∧ KeepsBases s s') := by
  have hroom := h.room
  have htop := h.top
  have hkeep : s.Keeps s' := cpuTurns_keeps k (CPU.Keeps.refl s) hk
  have hback := he.back hs hkeep hret
  have hcode : Dispatcher s'.heap cpu.bus := by
    have hheap := hkeep.heap
    rw [hs.heap] at hheap
    exact (h.rom.keeps (he.stacked.keeps.trans hheap)).dispatcher
  -- The words the entry has pushed are above the frame of the routine.
  have hmem (a : Addr) (ha : cpu.sp - 12 ≤ a) (hat : a.toNat < top) :
      busWordRead s'.heap cpu.bus a = busWordRead heap cpu.bus a := by
    have hm := hret.memory a (hs.sp.symm ▸ ha) hat
    rw [hkeep.bus, hs.bus, hs.heap] at hm
    exact hm
  have hr0 := (hmem (cpu.sp - 8) (by bv_omega) (by bv_omega)).trans he.r0
  have hpc := (hmem (cpu.sp - 4) (by bv_omega) (by bv_omega)).trans he.pc
  have e4 : cpu.sp - 8 + wordSize = cpu.sp - 4 := by
    unfold wordSize
    bv_omega
  -- `POP r0`, which sets the flags, and `IRET`, which does not.
  obtain ⟨s1, hrun1, h1, hz, hn⟩ := hback.pop hcode.pop hc hr0
  rw [e4] at h1
  have hread1 : busWordRead s1.skip.heap s1.skip.bus s1.skip.sp = some (.ok cpu.pc) := by
    show busWordRead s1.heap s1.bus s1.sp = _
    rw [h1.heap, h1.bus, h1.sp]
    exact hpc
  have hrun2 := fetchExecute_code h1.goesOn.2 h1.quiet (h1.code hcode.iret) (effect_iret hread1)
  refine ⟨_, (hback.turn hrun1).trans (h1.turn hrun2), fun hres => ⟨⟨?_, ?_⟩, ⟨?_, ?_, ?_⟩⟩, ?_⟩
  · exact hres.zero.symm.trans hz
  · exact hres.negative.symm.trans hn
  · exact h1.bp.symm.trans (hres.bp.trans hs.bp.symm)
  · exact h1.cs.symm.trans (hres.cs.trans hs.cs.symm)
  · exact h1.idt.symm.trans (hres.idt.trans hs.idt.symm)
  rintro ⟨hflags, hbases⟩
  exact {
    goesOn := h1.goesOn
    pc := rfl
    sp := by
      show s1.sp + wordSize = cpu.sp
      rw [h1.sp]
      unfold wordSize
      bv_omega
    registers := fun r hr => by
      show s1.registers r = cpu.registers r
      by_cases e : r = 0
      · rw [e, h1.r0]
      · exact h1.others r hr e
    bp := h1.bp.trans (hbases.bp.trans hs.bp)
    cs := h1.cs.trans (hbases.cs.trans hs.cs)
    idt := h1.idt.trans (hbases.idt.trans hs.idt)
    zero := hz.trans hflags.1.symm
    negative := hn.trans hflags.2.symm
    enabled := rfl
    memory := fun a ha hat => by
      show busWordRead s1.heap s1.bus a = _
      rw [h1.heap, h1.bus, hmem a (by bv_omega) hat]
      refine he.stacked.others a fun hslot => ?_
      simp only [slots, List.mem_cons, List.not_mem_nil, or_false] at hslot
      bv_omega }

/-- Without registers, the dispatcher panics at once. -/
lemma Interrupted.panics (h : Interrupted top cpu i handler) (hc : ¬ 0 < cpu.registerCount) :
    ∃ s, cpuTurns 8 cpu = some ((), s) ∧ s.state.panic ≠ .ok := by
  obtain ⟨heap, s, hrun, hstack, _, hs⟩ := h.entry_turn
  have hpush := hs.code (h.rom.keeps hstack.keeps).dispatcher.push
  have hc' : ¬ 0 < s.skip.registerCount := by
    show ¬ 0 < s.registerCount
    rw [hs.registerCount]
    exact hc
  have hpanic : (s.skip.fault.setPanic .invalidRegister).stepped.state.panic ≠ .ok :=
    show CpuError.invalidRegister ≠ .ok by decide
  refine ⟨_, ?_, hpanic⟩
  rw [cpuTurns_succ (hrun.trans (fetchExecute_code hs.goesOn.2 hs.quiet hpush (effect_push_none hc')))]
  exact cpuTurns_panic hpanic 7

/-- With a register `r0`, the dispatcher gets to the routine and back. -/
lemma Interrupted.transparent (h : Interrupted top cpu i handler) (hr : Routine top cpu handler k)
    (hc : 0 < cpu.registerCount) : Transparent top cpu handler k ↔
      (cpu.flags.zero = (cpu.registers 0 == 0) ∧ cpu.flags.negative = (cpu.registers 0).msb) ∧
        RoutineKeeps cpu handler k := by
  obtain ⟨heap, s, hrun, he, hs⟩ := h.dispatch hc
  constructor
  · rintro ⟨s1, hrun1, hpc, s', hk, hret, cpu1, hrun2, hres⟩
    cases hrun.symm.trans hrun1
    obtain ⟨cpu2, hrun2', hiff⟩ := h.resume hc he hs hk hret
    cases hrun2.symm.trans hrun2'
    obtain ⟨hflags, hbases⟩ := hiff.mp hres
    refine ⟨hflags, fun s1 hrun1 _ s1' hk1 => ?_⟩
    cases hrun.symm.trans hrun1
    cases hk.symm.trans hk1
    exact hbases
  · rintro ⟨hflags, hkeeps⟩
    obtain ⟨s', hk, hret⟩ := hr s hrun hs.pc
    obtain ⟨cpu', hrun2, hiff⟩ := h.resume hc he hs hk hret
    exact ⟨s, hrun, hs.pc, s', hk, hret, cpu', hrun2, hiff.mpr ⟨hflags, hkeeps s hrun hs.pc s' hk⟩⟩

/-- Without registers, it does not get there. -/
lemma Interrupted.not_transparent (h : Interrupted top cpu i handler) (hc : ¬ 0 < cpu.registerCount) :
    ¬ Transparent top cpu handler k := by
  obtain ⟨s, hrun, hp⟩ := h.panics hc
  rintro ⟨s1, hrun1, _, s', hk, hret, _⟩
  cases hrun.symm.trans hrun1
  cases (cpuTurns_panic hp k).symm.trans hk
  exact hp hret.goesOn.2

/-- **Interrupts** are transparent exactly when the flags of the interrupted program are those of `r0` and the
routine keeps `bp`, `cs` and `idt`, which its contract does not ask for. -/
theorem transparent_iff (h : Interrupted top cpu i handler) (hr : Routine top cpu handler k) :
    Transparent top cpu handler k ↔ 0 < cpu.registerCount ∧
      (cpu.flags.zero = (cpu.registers 0 == 0) ∧ cpu.flags.negative = (cpu.registers 0).msb) ∧
        RoutineKeeps cpu handler k := by
  by_cases hc : 0 < cpu.registerCount
  · rw [h.transparent hr hc, and_iff_right hc]
  · exact ⟨fun ht => (h.not_transparent hc ht).elim, fun hf => (hc hf.1).elim⟩

/-- A routine that is a `RET` and nothing else. -/
lemma Interrupted.routine_ret (h : Interrupted top cpu i handler)
    (hc : 0 < cpu.registerCount) (hcode : Code cpu.heap cpu.bus handler .ret {})
    (hslots : handler ∉ slots cpu.sp) : Routine top cpu handler 1 ∧ RoutineKeeps cpu handler 1 := by
  obtain ⟨heap, s, hrun, he, hs⟩ := h.dispatch hc
  have hcode' : Code heap cpu.bus handler .ret {} := ⟨(he.stacked.others _ hslots).trans hcode.word, nofun⟩
  have hread : busWordRead s.skip.heap s.skip.bus s.skip.sp = some (.ok (romAddress + 24)) := by
    rw [hs.skip.heap, hs.skip.bus, hs.skip.sp]
    exact he.return
  have hturn := hs.turn (n := 0) (fetchExecute_code hs.goesOn.2 hs.quiet (hs.code hcode') (effect_ret hread))
  have hs' := (hs.skip.jumped (romAddress + 24)).up.stepped
  constructor
  · intro s1 hrun1 _
    cases hrun.symm.trans hrun1
    refine ⟨_, hturn, ?_⟩
    exact {
      goesOn := hs'.goesOn
      quiet := hs'.quiet
      pc := hread
      sp := rfl
      registers := fun r _ => rfl
      flags := rfl
      memory := fun a _ _ => rfl }
  · intro s1 hrun1 _ s' hk
    cases hrun.symm.trans hrun1
    cases hturn.symm.trans hk
    exact ⟨rfl, rfl, rfl⟩

end

/-! ### An example -/

/-- The words of an image. -/
def imageWords : List Byte → List Word
  | b0 :: b1 :: b2 :: b3 :: bytes => ByteOrder.big.ofBytes b0 b1 b2 b3 :: imageWords bytes
  | _ => []

/-- 256 bytes of memory at 0, with a `RET` at 32 that handles the interrupt 3 in the table at 64, the mask
of the interrupts, and the ROM. -/
def timerHeap : Heap
  | 0 => ⟨fun k => if k = 8 then ByteOrder.big.ofBytes (Op.bytecode .ret) 0 0 0 else if k = 19 then 32 else 0,
    256, .rw⟩
  | 1 => memoryCreate (fun _ => 0) 32 .rw
  | _ => ⟨fun k => (imageWords romImage).getD k 0, 56, .r⟩

/-- The bus of `timerCpu`. -/
def timerBus : Bus := ⟨[⟨0, 0, "RAM", []⟩, ⟨2, romAddress, "ROM", []⟩], by decide⟩

/-- The interrupt 3 is pending. -/
def timerPic : PIC := ⟨1, 3, fun k => if k = 0 then 8 else 0⟩

/-- A machine that has compared two registers when the interrupt 3 comes. -/
def timerCpu (r0 : Word) (zero : Bool) : CPU := { smallCpu timerHeap with
  bus := timerBus
  pic := timerPic
  registers := fun r => if r = 0 then r0 else 0
  sp := 256
  idt := 64
  flags := ⟨true, zero, false⟩ }

/-- The ROM of the machine is the image of `rom.a`. -/
lemma timer_rom : Image timerHeap timerBus romAddress romImage := by
  have hro (a : Addr) (ha : findZone timerHeap timerBus a = some ⟨2, romAddress, "ROM", []⟩) :
      ReadOnly timerHeap timerBus a := ⟨_, ha, rfl⟩
  refine ⟨⟨?_, hro _ ?_⟩, ⟨?_, hro _ ?_⟩, ⟨?_, hro _ ?_⟩, ⟨?_, hro _ ?_⟩, ⟨?_, hro _ ?_⟩, ⟨?_, hro _ ?_⟩,
    ⟨?_, hro _ ?_⟩, ⟨?_, hro _ ?_⟩, ⟨?_, hro _ ?_⟩, ⟨?_, hro _ ?_⟩, ⟨?_, hro _ ?_⟩, ⟨?_, hro _ ?_⟩,
    ⟨?_, hro _ ?_⟩, ⟨?_, hro _ ?_⟩, trivial⟩
  all_goals decide +kernel

/-- The interrupt of the timer, at the start of a program. -/
lemma timer_interrupted (r0 : Word) (zero : Bool) : Interrupted 256 (timerCpu r0 zero) 3 32 where
  goesOn := ⟨rfl, rfl⟩
  quiet := rfl
  enabled := rfl
  pending := by
    show deliverable timerPic timerHeap 3 = true
    decide +kernel
  first := by
    show ∀ j < 3, deliverable timerPic timerHeap j = false
    decide +kernel
  distinct := by
    show (timerBus.zones.map Zone.memory).Nodup
    decide
  rom := timer_rom
  entry := by
    show busWordRead timerHeap timerBus (BitVec.setWidth 32 (3 : Interrupt) * 4 + 64) = _
    decide +kernel
  apart := by
    show BitVec.setWidth 32 (3 : Interrupt) * 4 + 64 ∉ slots 256
    decide
  stack := by
    have h4 : writeStatus timerHeap timerBus (256 - 4) = some (.ok ()) := by decide +kernel
    have h8 : writeStatus timerHeap timerBus (256 - 8) = some (.ok ()) := by decide +kernel
    have h12 : writeStatus timerHeap timerBus (256 - 12) = some (.ok ()) := by decide +kernel
    intro a ha
    rcases List.mem_cons.mp ha with rfl | ha
    · exact h4
    · rcases List.mem_cons.mp ha with rfl | ha
      · exact h8
      · cases List.mem_singleton.mp ha
        exact h12
  room := by
    show 12 ≤ (256 : Addr).toNat
    decide
  top := Nat.le_refl 256

/-- The routine returns at once, and keeps all it should. -/
lemma timer_routine (r0 : Word) (zero : Bool) :
    @Routine ⟨.little⟩ 256 (timerCpu r0 zero) 32 1 ∧ @RoutineKeeps ⟨.little⟩ (timerCpu r0 zero) 32 1 := by
  have hread : busWordRead timerHeap timerBus 32 =
      some (.ok (ByteOrder.big.ofBytes (Op.bytecode .ret) 0 0 0)) := by decide +kernel
  have hcode : Code timerHeap timerBus 32 .ret {} := ⟨hread, nofun⟩
  have hslots : 32 ∉ slots 256 := by decide
  exact @Interrupted.routine_ret ⟨.little⟩ _ _ _ _ (timer_interrupted r0 zero) (show 0 < (32 : Byte) by decide)
    hcode hslots

/-- After a comparison with the flags of `r0`, the interrupt is not noticed. -/
theorem transparent_timer : @Transparent ⟨.little⟩ 256 (timerCpu 0 true) 32 1 :=
  (@transparent_iff ⟨.little⟩ _ _ _ _ _ (timer_interrupted 0 true) (timer_routine 0 true).1).mpr
    ⟨by decide, ⟨by decide, by decide⟩, (timer_routine 0 true).2⟩

/-- After a comparison of other registers, it is. -/
theorem not_transparent_timer : Interrupted 256 (timerCpu 1 true) 3 32 ∧
    @Routine ⟨.little⟩ 256 (timerCpu 1 true) 32 1 ∧ ¬ @Transparent ⟨.little⟩ 256 (timerCpu 1 true) 32 1 := by
  refine ⟨timer_interrupted 1 true, (timer_routine 1 true).1, fun ht => ?_⟩
  have hflags := ((@Interrupted.transparent ⟨.little⟩ _ _ _ _ _ (timer_interrupted 1 true)
    (timer_routine 1 true).1 (by decide)).mp ht).1
  exact absurd hflags.1 (by decide)

end Thorium.Vm
