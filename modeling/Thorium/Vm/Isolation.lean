import Thorium.Lib.Steps
import Thorium.Vm.Core

/-!
# Isolation

What an operation looks at and what it changes. `Core.footprint` are the words that a turn accesses. Two machines
that agree on them, on the registers and on the flags agree after the turn, and no other word is changed
(`turn_agree`). Devices change pending interrupts and the word of the keyboard only, so a program that has
interrupts disabled and leaves that word alone runs as if there were no devices (`isolated`).
-/

namespace Thorium.Vm
open Thorium.Isa

namespace Core
variable (c : Core)

/-! ### Footprints -/

/-- The words that the pushes of registers write. -/
def pushAccesses (c : Core) : List Byte → List Addr
  | [] => []
  | r :: rs =>
    if c.has r then (c.sp - wordSize) :: ((c.setError .ok).push (c.registers r)).pushAccesses rs
    else (c.setError .invalidRegister).pushAccesses rs

/-- The words that the pops into registers read. -/
def popAccesses (c : Core) : List Byte → List Addr
  | [] => []
  | r :: rs => c.sp :: ((c.put spNumber (c.sp + wordSize)).assign r (c.memory.words c.sp)).popAccesses rs

/-- The words that an operation may access, its operand among them. -/
def accesses (op : Op) (r0 r1 r2 : Byte) : List Addr :=
  match op with
  | .nop | .halt | .panic | .movRR | .addRR | .subRR | .mulRR | .andRR | .orRR | .xorRR | .incR | .decR | .cmpRR
  | .intB | .ind | .ine | .wfi | .xbm | .xdbg | .xpse | .xpsd | .xbrk => []
  | .movRW | .addRW | .subRW | .mulRW | .andRW | .orRW | .xorRW | .cmpRW | .jeqS | .jeqA | .jneS | .jneA | .jS
  | .jA => [c.pc]
  | .pushR => c.pushAccesses [r0]
  | .pushRR => c.pushAccesses [r0, r1]
  | .pushRRR => c.pushAccesses [r0, r1, r2]
  | .pusha => c.pushAccesses c.general
  | .popR => c.popAccesses [r0]
  | .popRR => c.popAccesses [r0, r1]
  | .popRRR => c.popAccesses [r0, r1, r2]
  | .popa => c.popAccesses c.general.reverse
  | .pushW | .callS | .callA => [c.pc, c.sp - wordSize]
  | .callR => [c.sp - wordSize]
  | .ret | .iret => [c.sp]
  | .storRR => [c.registers r0]
  | .loadRR => [c.registers r1]
  | .storRW | .loadRW => [c.pc, c.memory.words c.pc]
  | .loadRRW => [c.pc, c.registers r1 + c.memory.words c.pc]
  | .miB | .umiB => [maskAddress r0]

/-- The words that a turn may access, when interrupts are disabled. -/
def footprint : List Addr :=
  let w := c.memory.words c.pc
  c.pc :: match ops (argument w 0) with
    | some op => c.advance.accesses op (argument w 1) (argument w 2) (argument w 3)
    | none => []

/-! ### Machines that agree -/

/-- Two machines agree on the words of `R` and on all else but the pending interrupts. -/
structure Agree (R : Addr → Prop) (c d : Core) : Prop where
  readable : ∀ a, R a → c.memory.readable a = d.memory.readable a
  writable : ∀ a, R a → c.memory.writable a = d.memory.writable a
  words : ∀ a, R a → c.memory.words a = d.memory.words a
  count : c.count = d.count
  registers : c.registers = d.registers
  flags : c.flags = d.flags
  error : c.error = d.error
  running : c.running = d.running

/-- A machine has changed words of `R` only since it was `c`. -/
structure Keeps (R : Addr → Prop) (c c' : Core) : Prop where
  readable : c'.memory.readable = c.memory.readable
  writable : c'.memory.writable = c.memory.writable
  words : ∀ a, ¬ R a → c'.memory.words a = c.memory.words a

/-- Two machines that agree, of which the first has been `c0`. -/
structure Local (R : Addr → Prop) (c0 c d : Core) : Prop where
  agree : Agree R c d
  keeps : Keeps R c0 c

end Core

section
variable {R : Addr → Prop} {c0 c d : Core} {a : Addr} {v w : Word} {r : Byte}

/-- A machine agrees with itself. -/
lemma Core.Agree.refl (R : Addr → Prop) (c : Core) : Core.Agree R c c :=
  ⟨fun _ _ => rfl, fun _ _ => rfl, fun _ _ => rfl, rfl, rfl, rfl, rfl, rfl⟩

/-- A machine has changed nothing since it was itself. -/
lemma Core.Keeps.refl (R : Addr → Prop) (c : Core) : Core.Keeps R c c := ⟨rfl, rfl, fun _ _ => rfl⟩

/-- A condition on the two addresses of an access. -/
lemma of_forall_pair {b : Addr} (h : ∀ x ∈ [a, b], R x) : R a ∧ R b :=
  ⟨h a List.mem_cons_self, h b (List.mem_cons_of_mem _ List.mem_cons_self)⟩

/-- The stack pointer stays where it is. -/
lemma Core.advance_sp (c : Core) : c.advance.sp = c.sp := c.put_of_ne (by decide) _

namespace Core.Local

/-- They have the same registers. -/
lemma has (h : Local R c0 c d) (r : Byte) : c.has r = d.has r := by rw [Core.has, Core.has, h.agree.count]

/-- They are at the same instruction. -/
lemma pc (h : Local R c0 c d) : c.pc = d.pc := congrFun h.agree.registers _

/-- They have the same top of the stack. -/
lemma sp (h : Local R c0 c d) : c.sp = d.sp := congrFun h.agree.registers _

/-- Changes of other things than the memory. -/
lemma of_same {c' d' : Core} (h : Local R c0 c d) (hc : c'.memory = c.memory) (hd : d'.memory = d.memory)
    (hcount : c'.count = d'.count) (hregisters : c'.registers = d'.registers) (hflags : c'.flags = d'.flags)
    (herror : c'.error = d'.error) (hrunning : c'.running = d'.running) : Local R c0 c' d' where
  agree := ⟨hc ▸ hd ▸ h.agree.readable, hc ▸ hd ▸ h.agree.writable, hc ▸ hd ▸ h.agree.words, hcount, hregisters, hflags,
    herror, hrunning⟩
  keeps := ⟨hc ▸ h.keeps.readable, hc ▸ h.keeps.writable, hc ▸ h.keeps.words⟩

/-- They come to the same error. -/
lemma setError (h : Local R c0 c d) (e : CpuError) : Local R c0 (c.setError e) (d.setError e) :=
  h.of_same rfl rfl h.agree.count h.agree.registers h.agree.flags rfl h.agree.running

/-- The same value is put into a register. -/
lemma put (h : Local R c0 c d) (r : Byte) (v : Word) : Local R c0 (c.put r v) (d.put r v) :=
  h.of_same rfl rfl h.agree.count (by rw [Core.put, Core.put, h.agree.registers]) h.agree.flags h.agree.error
    h.agree.running

/-- The flags are set after the same value. -/
lemma setFlags (h : Local R c0 c d) (v : Word) : Local R c0 (c.setFlags v) (d.setFlags v) :=
  h.of_same rfl rfl h.agree.count h.agree.registers (by rw [Core.setFlags, Core.setFlags, h.agree.flags]) h.agree.error
    h.agree.running

/-- Interrupts are enabled or disabled in both. -/
lemma enable (h : Local R c0 c d) (b : Bool) : Local R c0 (c.enable b) (d.enable b) :=
  h.of_same rfl rfl h.agree.count h.agree.registers (by rw [Core.enable, Core.enable, h.agree.flags]) h.agree.error
    h.agree.running

/-- They jump to the same address. -/
lemma jump (h : Local R c0 c d) (a : Addr) : Local R c0 (c.jump a) (d.jump a) := h.put _ a

/-- They go on to the next word. -/
lemma advance (h : Local R c0 c d) : Local R c0 c.advance d.advance := by
  rw [Core.advance, Core.advance, h.pc]
  exact h.jump _

/-- The same value is assigned to a register, with its flags. -/
lemma assign (h : Local R c0 c d) (r : Byte) (v : Word) : Local R c0 (c.assign r v) (d.assign r v) := by
  rw [Core.assign, Core.assign, h.has]
  split
  · exact ((h.put r v).setFlags v).setError .ok
  · exact h.setError _

/-- The same word is stored at an address of `R`. -/
lemma place (h : Local R c0 c d) (ha : R a) (w : Word) : Local R c0 (c.place a w) (d.place a w) where
  agree := by
    refine ⟨h.agree.readable, h.agree.writable, fun b hb => ?_, h.agree.count, h.agree.registers, h.agree.flags,
      h.agree.error, h.agree.running⟩
    simp only [Core.place, Function.update_apply, h.agree.words b hb]
  keeps := by
    refine ⟨h.keeps.readable, h.keeps.writable, fun b hb => ?_⟩
    have hne : b ≠ a := fun e => hb (e ▸ ha)
    simp only [Core.place, Function.update_of_ne hne, h.keeps.words b hb]

/-- The same word is written at an address of `R`, or it is refused in both. -/
lemma write (h : Local R c0 c d) (ha : R a) (w : Word) : Local R c0 (c.write a w) (d.write a w) := by
  rw [Core.write, Core.write, h.agree.writable a ha]
  split
  · exact h.place ha w
  · exact h.setError _

/-- They go on with the same value of a register. -/
lemma withRegister {k k' : Word → Core} (h : Local R c0 c d)
    (hk : Local R c0 (k (d.registers r)) (k' (d.registers r))) :
    Local R c0 (c.withRegister r k) (d.withRegister r k') := by
  rw [Core.withRegister, Core.withRegister, h.has, h.agree.registers]
  split
  · exact hk
  · exact h.setError _

/-- They go on with the same word of `R`, or it is refused in both. -/
lemma withWord {k k' : Word → Core} (h : Local R c0 c d) (ha : R a) (hk : ∀ v, Local R c0 (k v) (k' v)) :
    Local R c0 (c.withWord a k) (d.withWord a k') := by
  rw [Core.withWord, Core.withWord, h.agree.readable a ha, h.agree.words a ha]
  split
  · exact hk _
  · exact h.setError _

/-- They go on with the same operand, whose word is in `R`. -/
lemma withOperand {k k' : Word → Core → Core} (h : Local R c0 c d) (ha : R d.pc)
    (hk : Local R c0 (k (d.memory.words d.pc) c.advance) (k' (d.memory.words d.pc) d.advance)) :
    Local R c0 (c.withOperand k) (d.withOperand k') := by
  rw [Core.withOperand, Core.withOperand, h.pc, h.agree.readable _ ha, h.agree.words _ ha]
  split
  · exact hk
  · exact (h.setError _).advance

/-- The same word is pushed, into a word of `R`. -/
lemma push (h : Local R c0 c d) (ha : R (d.sp - wordSize)) (v : Word) : Local R c0 (c.push v) (d.push v) := by
  rw [Core.push, Core.push, h.sp]
  exact (h.put _ _).write ha v

/-- The same registers are pushed. -/
lemma pushRegisters (rs : List Byte) (h : Local R c0 c d) (ha : ∀ a ∈ d.pushAccesses rs, R a) :
    Local R c0 (c.pushRegisters rs) (d.pushRegisters rs) := by
  induction rs generalizing c d with
  | nil => exact h
  | cons r rs ih =>
    rw [Core.pushRegisters, Core.pushRegisters, h.has, h.agree.registers]
    rw [Core.pushAccesses] at ha
    split
    next hr =>
      rw [if_pos hr] at ha
      apply ih
      · apply (h.setError .ok).push
        exact ha _ List.mem_cons_self
      · intro a hmem
        exact ha a (List.mem_cons_of_mem _ hmem)
    next hr =>
      rw [if_neg hr] at ha
      exact ih (h.setError _) ha

/-- The same registers are popped. -/
lemma popRegisters (rs : List Byte) (h : Local R c0 c d) (ha : ∀ a ∈ d.popAccesses rs, R a) :
    Local R c0 (c.popRegisters rs) (d.popRegisters rs) := by
  induction rs generalizing c d with
  | nil => exact h
  | cons r rs ih =>
    have hsp : R d.sp := ha _ List.mem_cons_self
    rw [Core.popRegisters, Core.popRegisters, h.sp, Core.withWord, Core.withWord, h.agree.readable _ hsp,
      h.agree.words _ hsp]
    split
    · apply ih
      · exact (h.put _ _).assign r _
      · intro a hmem
        exact ha a (List.mem_cons_of_mem _ hmem)
    · exact h.setError _

/-- They call the same subroutine. -/
lemma call (h : Local R c0 c d) (ha : R (d.sp - wordSize)) (a : Addr) : Local R c0 (c.call a) (d.call a) := by
  rw [Core.call, Core.call, h.sp, h.pc, h.agree.writable _ ha]
  split
  · exact (h.push ha _).jump a
  · exact h.push ha _

/-- They return to the same address. -/
lemma ret {k k' : Core → Core} (h : Local R c0 c d) (ha : R d.sp)
    (hk : ∀ c d, Local R c0 c d → Local R c0 (k c) (k' d)) : Local R c0 (c.ret k) (d.ret k') := by
  rw [Core.ret, Core.ret, h.sp]
  exact h.withWord ha fun v => hk _ _ ((h.jump v).put _ _)

/-! ### Operations -/

/-- The operations on two registers. -/
lemma binaryRR (h : Local R c0 c d) (f : Word → Word → Word) (r0 r1 : Byte) :
    Local R c0 (c.binaryRR f r0 r1) (d.binaryRR f r0 r1) :=
  h.withRegister (h.withRegister (h.assign r0 _))

/-- The operations on a register and a word. -/
lemma binaryRW (h : Local R c0 c d) (ha : R d.pc) (f : Word → Word → Word) (r0 : Byte) :
    Local R c0 (c.binaryRW f r0) (d.binaryRW f r0) :=
  h.withOperand ha (h.advance.withRegister (h.advance.assign r0 _))

/-- The operations on one register. -/
lemma unary (h : Local R c0 c d) (f : Word → Word) (r0 : Byte) : Local R c0 (c.unary f r0) (d.unary f r0) :=
  h.withRegister (h.assign r0 _)

/-- An address of the segment is the same in both. -/
lemma segment (h : Local R c0 c d) (w : Word) : c.segment w = d.segment w := by
  rw [Core.segment, Core.segment, Core.cs, Core.cs, h.agree.registers]

/-- They take the same jump, or neither takes it. -/
lemma jumpIf {target : Core → Word → Addr} (h : Local R c0 c d) (ha : R d.pc) (z : Bool)
    (ht : ∀ w, target c.advance w = target d.advance w) : Local R c0 (c.jumpIf z target) (d.jumpIf z target) := by
  rw [Core.jumpIf, Core.jumpIf, h.agree.flags]
  split
  · apply h.withOperand ha
    rw [ht]
    exact h.advance.jump _
  · exact h.advance

/-- They have the same general registers. -/
lemma general (h : Local R c0 c d) : c.general = d.general := by rw [Core.general, Core.general, h.agree.count]

/-- They have the same mask, if its word is in `R`. -/
lemma mask (h : Local R c0 c d) {i : Interrupt} (ha : R (maskAddress i)) : c.mask i = d.mask i := h.agree.words _ ha

/-- An operation whose accesses are in `R`. -/
lemma exec {op : Op} {r0 r1 r2 : Byte} (h : Local R c0 c d) (ha : ∀ a ∈ d.accesses op r0 r1 r2, R a) :
    Local R c0 (c.exec op r0 r1 r2) (d.exec op r0 r1 r2) := by
  unfold Core.exec
  unfold accesses at ha
  cases op with
  | nop | wfi | xbm | xdbg | xpsd | xpse | xbrk => exact h
  | halt =>
    exact h.of_same rfl rfl h.agree.count h.agree.registers h.agree.flags h.agree.error rfl
  | panic => exact h.setError _
  | movRW => exact h.withOperand (ha _ List.mem_cons_self) (h.advance.assign r0 _)
  | movRR => exact h.withRegister (h.assign r0 _)
  | addRR | subRR | mulRR | andRR | orRR | xorRR => exact h.binaryRR _ r0 r1
  | addRW | subRW | mulRW | andRW | orRW | xorRW => exact h.binaryRW (ha _ List.mem_cons_self) _ r0
  | incR | decR => exact h.unary _ r0
  | cmpRR => exact h.withRegister (h.withRegister (h.setFlags _))
  | cmpRW => exact h.withRegister (h.withOperand (ha _ List.mem_cons_self) (h.advance.setFlags _))
  | pushR | pushRR | pushRRR => exact h.pushRegisters _ ha
  | pushW =>
    obtain ⟨hpc, hsp⟩ := of_forall_pair ha
    exact h.withOperand hpc (h.advance.push (d.advance_sp ▸ hsp) _)
  | pusha =>
    rw [h.general]
    exact h.pushRegisters _ ha
  | popR | popRR | popRRR => exact h.popRegisters _ ha
  | popa =>
    rw [h.general]
    exact h.popRegisters _ ha
  | jeqS | jneS => exact h.jumpIf (ha _ List.mem_cons_self) _ fun w => h.advance.segment w
  | jeqA | jneA => exact h.jumpIf (ha _ List.mem_cons_self) _ fun w => rfl
  | jS =>
    refine h.withOperand (ha _ List.mem_cons_self) ?_
    rw [h.advance.segment]
    exact h.advance.jump _
  | jA => exact h.withOperand (ha _ List.mem_cons_self) (h.advance.jump _)
  | callS =>
    obtain ⟨hpc, hsp⟩ := of_forall_pair ha
    refine h.withOperand hpc ?_
    rw [h.advance.segment]
    exact h.advance.call (d.advance_sp ▸ hsp) _
  | callA =>
    obtain ⟨hpc, hsp⟩ := of_forall_pair ha
    exact h.withOperand hpc (h.advance.call (d.advance_sp ▸ hsp) _)
  | callR => exact h.withRegister (h.call (ha _ List.mem_cons_self) _)
  | ret => exact h.ret (ha _ List.mem_cons_self) fun _ _ h' => h'
  | iret => exact h.ret (ha _ List.mem_cons_self) fun _ _ h' => h'.enable true
  | intB => exact h.of_same rfl rfl h.agree.count h.agree.registers h.agree.flags h.agree.error h.agree.running
  | storRR => exact h.withRegister (h.withRegister (h.write (ha _ List.mem_cons_self) _))
  | storRW =>
    obtain ⟨hpc, hto⟩ := of_forall_pair ha
    exact h.withOperand hpc (h.advance.withRegister (h.advance.write hto _))
  | loadRR => exact h.withRegister (h.withWord (ha _ List.mem_cons_self) fun _ => h.assign r0 _)
  | loadRRW =>
    obtain ⟨hpc, hfrom⟩ := of_forall_pair ha
    exact h.withRegister (h.withOperand hpc (h.advance.withWord hfrom fun _ => h.advance.assign r0 _))
  | loadRW =>
    obtain ⟨hpc, hfrom⟩ := of_forall_pair ha
    exact h.withOperand hpc (h.advance.withWord hfrom fun _ => h.advance.assign r0 _)
  | miB =>
    rw [h.mask (ha _ List.mem_cons_self)]
    exact h.place (ha _ List.mem_cons_self) _
  | umiB =>
    rw [h.mask (ha _ List.mem_cons_self)]
    exact h.place (ha _ List.mem_cons_self) _
  | ind => exact h.enable false
  | ine => exact h.enable true

/-! ### Turns -/

/-- The execution of an instruction whose accesses are in `R`. -/
lemma step {d' : Core} (h : Local R c0 c d) (ha : ∀ a ∈ d.footprint, R a) (hs : d.step = some d') :
    ∃ c', c.step = some c' ∧ Local R c0 c' d' := by
  have hpc : R d.pc := ha _ List.mem_cons_self
  have hops : ∀ op, ops (argument (d.memory.words d.pc) 0) = some op →
      ∀ a ∈ d.advance.accesses op (argument (d.memory.words d.pc) 1) (argument (d.memory.words d.pc) 2)
        (argument (d.memory.words d.pc) 3), R a := by
    intro op hop a hmem
    apply ha a
    rw [footprint, hop]
    exact List.mem_cons_of_mem _ hmem
  rw [Core.step] at hs ⊢
  rw [h.agree.error, h.pc, h.agree.readable _ hpc, h.agree.words _ hpc]
  split
  next herror =>
    rw [if_pos herror] at hs
    cases hs
    exact ⟨_, rfl, h.advance⟩
  next herror =>
    rw [if_neg herror] at hs
    split
    next hr =>
      rw [if_pos hr] at hs
      dsimp only at hs ⊢
      cases hop : ops (argument (d.memory.words d.pc) 0) with
      | none =>
        rw [hop] at hs
        cases hs
        exact ⟨_, rfl, h.advance.setError _⟩
      | some op =>
        rw [hop] at hs
        dsimp only at hs ⊢
        split
        next hd =>
          rw [if_pos hd] at hs
          cases hs
        next hd =>
          rw [if_neg hd] at hs
          cases hs
          exact ⟨_, rfl, h.advance.exec (hops op hop)⟩
    next hr =>
      rw [if_neg hr] at hs
      cases hs
      exact ⟨_, rfl, (h.setError _).advance⟩

end Core.Local

/-- The next turn accesses only words of `R`, and enters no interrupt. -/
def Core.Isolated (R : Addr → Prop) (c : Core) : Prop :=
  c.running = true → c.error = .ok → c.flags.interruptsEnabled = false ∧ ∀ a ∈ c.footprint, R a

/-- Whether the next turn is isolated can be read off its footprint. -/
instance (R : Addr → Prop) [DecidablePred R] (c : Core) : Decidable (c.Isolated R) :=
  decidable_of_iff (c.running = true → c.error = .ok →
    c.flags.interruptsEnabled = false ∧ c.footprint.all (fun a => R a) = true) <| by
      simp only [Core.Isolated, List.all_eq_true, decide_eq_true_eq]

/-- **A turn depends on its footprint and changes no other word.** -/
theorem turn_agree {d' : Core} (h : Core.Agree R c d) (hd : d.Isolated R) (ht : d.turn = some d') :
    ∃ c', c.turn = some c' ∧ Core.Agree R c' d' ∧ Core.Keeps R c c' := by
  rw [Core.turn] at ht ⊢
  rw [h.running, h.error]
  split
  next hgo =>
    rw [if_pos hgo] at ht
    obtain ⟨hoff, ha⟩ := hd hgo.1 hgo.2
    have haccept (e : Core) (he : e.flags.interruptsEnabled = false) : e.accept = e := by
      rw [Core.accept, he]
      exact if_neg Bool.false_ne_true
    rw [haccept d hoff] at ht
    rw [haccept c (h.flags ▸ hoff)]
    obtain ⟨c', hs, h'⟩ := Core.Local.step ⟨h, .refl R c⟩ ha ht
    exact ⟨c', hs, h'.agree, h'.keeps⟩
  next hgo =>
    rw [if_neg hgo] at ht
    cases ht
    exact ⟨c, rfl, h, .refl R c⟩

/-! ### Runs -/

/-- A turn, among the stimuli. -/
def Stimulus.isTurn : Stimulus → Bool
  | .turn => true
  | _ => false

/-- How many turns there are. -/
def turnCount (xs : List Stimulus) : Nat := xs.countP Stimulus.isTurn

/-- Changes one after the other. -/
lemma Core.Keeps.trans {c1 c2 c3 : Core} (h : Keeps R c1 c2) (h' : Keeps R c2 c3) : Keeps R c1 c3 where
  readable := h'.readable.trans h.readable
  writable := h'.writable.trans h.writable
  words a ha := (h'.words a ha).trans (h.words a ha)

/-- Changes of some words are changes of more words. -/
lemma Core.Keeps.mono {R' : Addr → Prop} {c' : Core} (h : Keeps R c c') (hR : ∀ a, R a → R' a) : Keeps R' c c' where
  readable := h.readable
  writable := h.writable
  words a ha := h.words a fun hr => ha (hR a hr)

/-- The words of `R` and the one that the keyboard sets. -/
def orKey (R : Addr → Prop) (a : Addr) : Prop := R a ∨ a = keyboardOutAddress

/-- What a device does is not seen in `R`. -/
lemma happen_agree {x : Stimulus} (hR : ¬ R keyboardOutAddress) (hx : x.isTurn = false) (h : Core.Agree R c d) :
    ∃ c', Core.happen x c = some c' ∧ Core.Agree R c' d ∧ Core.Keeps (orKey R) c c' := by
  cases x with
  | turn => cases hx
  | trigger i =>
    exact ⟨_, rfl, ⟨h.readable, h.writable, h.words, h.count, h.registers, h.flags, h.error, h.running⟩, rfl, rfl,
      fun _ _ => rfl⟩
  | key word =>
    have hword : ∀ a, a ≠ keyboardOutAddress → (c.place keyboardOutAddress word).memory.words a = c.memory.words a :=
      fun a ha => Function.update_of_ne ha _ _
    refine ⟨_, rfl, ⟨h.readable, h.writable, fun a ha => ?_, h.count, h.registers, h.flags, h.error, h.running⟩, rfl,
      rfl, fun a ha => ?_⟩
    · rw [hword a fun e => hR (e ▸ ha)]
      exact h.words a ha
    · exact hword a fun e => ha (.inr e)

/-- **Isolation**: a machine that has interrupts disabled and accesses only words of `R`, which do not include that
of the keyboard, does the same whatever the devices do, and leaves all other words as they are. -/
theorem isolated {d' : Core} {xs : List Stimulus} (hR : ¬ R keyboardOutAddress) (h : Core.Agree R c d)
    (hrun : steps Core.happen (List.replicate (turnCount xs) .turn) d = some d')
    (hm : Meets Core.happen (fun c _ => c.Isolated R) d (List.replicate (turnCount xs) .turn)) :
    ∃ c', steps Core.happen xs c = some c' ∧ Core.Agree R c' d' ∧ Core.Keeps (orKey R) c c' := by
  induction xs generalizing c d with
  | nil =>
    cases hrun
    exact ⟨c, rfl, h, .refl _ c⟩
  | cons x xs ih =>
    cases hx : x.isTurn with
    | true =>
      have hturn : x = .turn := by
        cases x with
        | turn => rfl
        | _ => cases hx
      have hn : turnCount (x :: xs) = turnCount xs + 1 := List.countP_cons_of_pos hx
      rw [hn, List.replicate_succ] at hrun hm
      obtain ⟨d1, ht, hrun⟩ := steps_cons.mp hrun
      obtain ⟨c1, hc, h1, hk1⟩ := turn_agree h hm.head ht
      obtain ⟨c', hcs, h', hk⟩ := ih h1 hrun (hm.tail ht)
      exact ⟨c', steps_cons.mpr ⟨c1, hturn ▸ hc, hcs⟩, h', (hk1.mono fun _ => .inl).trans hk⟩
    | false =>
      have hn : turnCount (x :: xs) = turnCount xs := List.countP_cons_of_neg (by rw [hx]; exact Bool.false_ne_true)
      rw [hn] at hrun hm
      obtain ⟨c1, hc, h1, hk1⟩ := happen_agree hR hx h
      obtain ⟨c', hcs, h', hk⟩ := ih h1 hrun hm
      exact ⟨c', steps_cons.mpr ⟨c1, hc, hcs⟩, h', hk1.trans hk⟩

end

end Thorium.Vm
