import Thorium.Vm.Interrupts

/-!
# Calls and returns

A well-bracketed sequence of instructions (`Nest`): pushes with their pops and calls with their returns, of any
depth and length. `Nest.Laid` says where the instructions are, all outside of the stack. The induction over the
sequence (`Nest.run`) carries what is left of the first CPU (`Inside`) and leaves the words from the stack pointer
up as they are, which is why each frame is intact when it is popped. A call comes back behind its instruction
(`call_returns`).
-/

namespace Thorium.Vm
open Thorium.Isa Thorium.Run

/-! ### Effects -/

section
variable {s s1 : CPU} {r : Byte} {v a : Word} {heap : Heap} {conds : List Cond}

/-- The value of a register can be assigned to it. -/
lemma setRegister_self (hr : s.register r = some v) : s.setRegister r v = some s := by
  unfold CPU.register at hr
  unfold CPU.setRegister
  split_ifs at hr ⊢ <;> cases hr
  · rfl
  · rfl
  · rfl
  · rfl
  · rfl
  · rfl
  · have hsame : (fun i => if i = r.toNat then s.registers r.toNat else s.registers i) = s.registers := by
      funext i
      split
      next e => rw [e]
      · rfl
    unfold CPU.setGeneral
    rw [hsame]

/-- `CALL @a` -/
lemma effect_callS (hw : busWordWrite s.heap s.bus (s.sp - wordSize) s.skip.pc = some (.ok (heap, conds))) :
    effect .callS { w0 := a } s = some ((), (s.skip.down.stored heap conds).jumped (s.cs + a)) := by
  show (pushWord s.skip.pc s.skip).bind _ = _
  rw [@pushWord_ok s.skip _ _ _ hw]
  rfl

end

/-! ### Sequences -/

/-- The forms of a call. -/
inductive CallForm where
  | segment
  | absolute
  | register (r : Byte)

/-- A well-bracketed sequence: nothing, or a register that is pushed and popped around a sequence, or a call of the
sequence at an address; and the sequence after it. -/
inductive Nest where
  | nil
  | push (r : Byte) (inner rest : Nest)
  | call (form : CallForm) (target : Addr) (inner rest : Nest)

/-- The words of the stack that a sequence takes. -/
def Nest.depth : Nest → Nat
  | .nil => 0
  | .push _ inner rest | .call _ _ inner rest => max (inner.depth + 1) rest.depth

/-- The instructions of a sequence. -/
def Nest.turns : Nest → Nat
  | .nil => 0
  | .push _ inner rest | .call _ _ inner rest => inner.turns + rest.turns + 2

namespace CallForm

/-- The operation of a call. -/
def op : CallForm → Op
  | .segment => .callS
  | .absolute => .callA
  | .register _ => .callR

/-- The operands of a call of an address. -/
def operands (form : CallForm) (cs target : Addr) : Operands :=
  match form with
  | .segment => { w0 := target - cs }
  | .absolute => { w0 := target }
  | .register r => { r0 := r }

/-- The address behind a call. -/
def behind (form : CallForm) (pc : Addr) : Addr :=
  match form with
  | .segment | .absolute => pc + addrSize + addrSize
  | .register _ => pc + addrSize

end CallForm

section
variable (cpu : CPU) (depth : Nat)

/-- The stack pointer after some pushes. -/
def slot (j : Nat) : Addr := cpu.sp - BitVec.ofNat 32 (4 * j)

/-- An address of the part of the stack that is used. -/
def InStack (a : Addr) : Prop := cpu.sp.toNat ≤ a.toNat + 4 * depth ∧ a.toNat < cpu.sp.toNat

/-- An instruction in the memory, outside of the stack. -/
structure Placed (pc : Addr) (op : Op) (o : Operands) : Prop where
  code : Code cpu.heap cpu.bus pc op o
  clear : ¬ InStack cpu depth pc
  operand : op.takesWord = true → ¬ InStack cpu depth (pc + addrSize)

/-- A register, neither `pc` nor `sp`. -/
def Savable (r : Byte) : Prop := (cpu.register r).isSome = true ∧ r.toNat ≠ regSP ∧ r.toNat ≠ regPC

/-- A call with a register finds the address in it. -/
def CallForm.Reaches (pc sp target : Addr) : CallForm → Prop
  | .segment | .absolute => True
  | .register r => CPU.register { cpu with pc := pc + addrSize, sp := sp } r = some target

/-- The instructions of a sequence are in the memory, from `pc` to `pc'`, after `j` pushes. -/
def Nest.Laid : Nest → Nat → Addr → Addr → Prop
  | .nil, _, pc, pc' => pc' = pc
  | .push r inner rest, j, pc, pc' => Savable cpu r ∧ Placed cpu depth pc .pushR { r0 := r } ∧
      ∃ q, inner.Laid (j + 1) (pc + addrSize) q ∧ Placed cpu depth q .popR { r0 := r } ∧
        rest.Laid j (q + addrSize) pc'
  | .call form target inner rest, j, pc, pc' => form.Reaches cpu pc (slot cpu j) target ∧
      Placed cpu depth pc form.op (form.operands cpu.cs target) ∧
      ∃ q, inner.Laid (j + 1) target q ∧ Placed cpu depth q .ret {} ∧ rest.Laid j (form.behind pc) pc'

/-- The stack stays inside of memory that can be written. -/
structure StackRoom : Prop where
  fits : 4 * depth ≤ cpu.sp.toNat
  writable : ∀ j < depth, writeStatus cpu.heap cpu.bus (slot cpu (j + 1)) = some (.ok ())

/-- A CPU that differs from the first in `pc`, the stack and the flags of the last result only, after `j` pushes. -/
structure Inside (j : Nat) (s : CPU) : Prop where
  sp : s.sp = slot cpu j
  bus : s.bus = cpu.bus
  registers : s.registers = cpu.registers
  registerCount : s.registerCount = cpu.registerCount
  bp : s.bp = cpu.bp
  cs : s.cs = cpu.cs
  idt : s.idt = cpu.idt
  ir : s.ir = cpu.ir
  goesOn : s.goesOn
  quiet : (s.debug.trap && s.debugger) = false
  shape : Shape cpu.heap s.heap
  others : ∀ a, ¬ InStack cpu depth a → busWordRead s.heap cpu.bus a = busWordRead cpu.heap cpu.bus a

end

/-- The words from an address up are the same. -/
def Above (a : Addr) (s s' : CPU) : Prop :=
  ∀ b, a ≤ b → busWordRead s'.heap s'.bus b = busWordRead s.heap s.bus b

section
variable [Host]

/-- No interrupt is entered in some turns. -/
def Undisturbed (s : CPU) (n : Nat) : Prop :=
  ∀ k < n, ∀ u, cpuTurns k s = some ((), u) →
    (u.flags.interruptsEnabled && picInterruptActive u.pic u.heap) = false

/-! ### Turns -/

variable {s s' : CPU} {m n : Nat}

/-- Some turns and then others. -/
lemma cpuTurns_add (h : cpuTurns m s = some ((), s')) : cpuTurns (m + n) s = cpuTurns n s' := by
  induction m generalizing s with
  | zero =>
    cases h
    rw [Nat.zero_add]
  | succ m ih =>
    obtain ⟨⟨_, s1⟩, h1, h⟩ := Option.bind_eq_some_iff.mp h
    rw [Nat.succ_add, cpuTurns_succ h1]
    exact ih h

/-- The rest of the turns. -/
lemma Undisturbed.rest (h : Undisturbed s (m + n)) (hr : cpuTurns m s = some ((), s')) : Undisturbed s' n := by
  intro k hk u hu
  apply h (m + k) (Nat.add_lt_add_left hk m) u
  rw [cpuTurns_add hr]
  exact hu

/-- A turn without an interrupt. -/
lemma Undisturbed.turn (h : Undisturbed s (n + 1)) (hgo : s.goesOn) (hr : fetchExecute s = some ((), s')) :
    cpuTurns 1 s = some ((), s') := by
  have hnone := h 0 (Nat.zero_lt_succ n) s rfl
  have hturn : cpuTurn s = some ((), s') := by
    rw [cpuTurn, bind_apply, get_apply, Option.bind_some]
    dsimp only
    rw [if_pos hgo, cpuLoopBody_eq, if_neg (Bool.eq_false_iff.mp hnone)]
    exact hr
  exact cpuTurns_succ hturn

end

/-! ### The stack -/

section
variable {cpu s s' : CPU} {depth j : Nat} {v : Word} {heap : Heap} {conds : List Cond} {a b : Addr} {op : Op}
variable {o : Operands}

/-- Nothing has been pushed. -/
lemma slot_zero : slot cpu 0 = cpu.sp := BitVec.sub_zero _

/-- The next slot is below. -/
lemma slot_succ : slot cpu j - wordSize = slot cpu (j + 1) := by
  unfold slot wordSize
  bv_omega

/-- The slot before is above. -/
lemma slot_up : slot cpu (j + 1) + wordSize = slot cpu j := by
  unfold slot wordSize
  bv_omega

/-- The slots do not wrap around. -/
lemma slot_toNat (h : 4 * j ≤ cpu.sp.toNat) : (slot cpu j).toNat = cpu.sp.toNat - 4 * j := by
  unfold slot
  bv_omega

/-- A slot is in the part of the stack that is used. -/
lemma StackRoom.inStack (h : StackRoom cpu depth) (hj : j < depth) : InStack cpu depth (slot cpu (j + 1)) := by
  have hfits := h.fits
  unfold InStack
  rw [slot_toNat (by omega)]
  omega

/-- What is above the higher address is unchanged by both. -/
lemma Above.trans {t : CPU} (h : Above a s s') (h' : Above b s' t) (hab : b ≤ a) : Above a s t :=
  fun c hc => (h' c (BitVec.le_trans hab hc)).trans (h c hc)

namespace Inside

/-- The CPU goes on to the next word. -/
lemma skip (h : Inside cpu depth j s) : Inside cpu depth j s.skip := { h with }

/-- It jumps. -/
lemma jumped (h : Inside cpu depth j s) (a : Addr) : Inside cpu depth j (s.jumped a) := { h with }

/-- It counts a step. -/
lemma stepped (h : Inside cpu depth j s) : Inside cpu depth j s.stepped := { h with }

/-- It sets its flags. -/
lemma flagsUpdate (h : Inside cpu depth j s) (v : Word) : Inside cpu depth j (s.flagsUpdate v) := { h with }

/-- It pops a word. -/
lemma up (h : Inside cpu depth (j + 1) s) : Inside cpu depth j s.up :=
  { h with sp := (congrArg (· + wordSize) h.sp).trans slot_up }

/-- The instruction at `pc`. -/
lemma code (h : Inside cpu depth j s) (hp : Placed cpu depth s.pc op o) : Code s.heap s.bus s.pc op o := by
  rw [h.bus]
  constructor
  · rw [h.others _ hp.clear]
    exact hp.code.word
  · intro hw
    rw [h.others _ (hp.operand hw)]
    exact hp.code.operand hw

/-- The registers that are not moved. -/
lemma register (h : Inside cpu depth j s) (r : Byte) :
    s.register r = CPU.register { cpu with pc := s.pc, sp := slot cpu j } r := by
  unfold CPU.register
  rw [h.sp, h.cs, h.idt, h.ir, h.bp, h.registerCount, h.registers]

/-- Savable registers are as before the call. -/
lemma saved {r : Byte} (h : Inside cpu depth j s) (hr : Savable cpu r) : s.register r = cpu.register r := by
  obtain ⟨_, hsp, hpc⟩ := hr
  rw [h.register]
  unfold CPU.register
  rw [if_neg hsp, if_neg hsp, if_neg hpc, if_neg hpc]

/-- There is room for a push. -/
lemma write (h : Inside cpu depth j s) (hroom : StackRoom cpu depth) (hj : j < depth) (v : Word) :
    ∃ heap conds, busWordWrite s.heap s.bus (s.sp - wordSize) v = some (.ok (heap, conds)) := by
  have hst : (busWordWrite s.heap s.bus (s.sp - wordSize) v).map (fun r => r.map fun _ => ()) = some (.ok ()) := by
    rw [h.bus, h.sp, slot_succ, busWordWrite_status h.shape]
    exact hroom.writable j hj
  rcases hw : busWordWrite s.heap s.bus (s.sp - wordSize) v with _ | (e | ⟨heap, conds⟩)
  · rw [hw] at hst
    cases hst
  · rw [hw] at hst
    cases hst
  · exact ⟨heap, conds, rfl⟩

/-- A push changes one word, below the stack pointer. -/
lemma pushed (h : Inside cpu depth j s) (hd : cpu.bus.Distinct) (hroom : StackRoom cpu depth) (hj : j < depth)
    (hw : busWordWrite s.heap s.bus (s.sp - wordSize) v = some (.ok (heap, conds))) :
    Inside cpu depth (j + 1) (s.down.stored heap conds) ∧ Above s.sp s (s.down.stored heap conds) ∧
      busWordRead heap s.bus (s.sp - wordSize) = some (.ok v) := by
  have hslot : s.sp - wordSize = slot cpu (j + 1) := by rw [h.sp, slot_succ]
  have hd' : s.bus.Distinct := h.bus ▸ hd
  refine ⟨{ h with sp := hslot, shape := h.shape.trans (busWordWrite_shape hw), others := ?_ }, ?_,
    busWordRead_write hw⟩
  · intro a ha
    have hne : a ≠ s.sp - wordSize := by
      rintro rfl
      rw [hslot] at ha
      exact ha (hroom.inStack hj)
    have hread := busWordRead_write_ne hd' hw hne
    rw [h.bus] at hread
    exact hread.trans (h.others a ha)
  · intro b hb
    have hne : b ≠ s.sp - wordSize := by
      rintro rfl
      have hfits := hroom.fits
      have hlow := @slot_toNat cpu (j + 1) (by omega)
      have hhigh := @slot_toNat cpu j (by omega)
      rw [h.sp, slot_succ, BitVec.le_def] at hb
      omega
    exact busWordRead_write_ne hd' hw hne

end Inside

end

/-! ### Runs -/

section
variable [Host] {cpu s : CPU} {depth j : Nat} {pc' : Addr}

/-- A sequence that is laid out at `pc` runs to its end. -/
def Nest.Runs (cpu : CPU) (depth : Nat) (n : Nest) : Prop :=
  ∀ {j s pc'}, Inside cpu depth j s → n.Laid cpu depth j s.pc pc' → j + n.depth ≤ depth → Undisturbed s n.turns →
    ∃ s', cpuTurns n.turns s = some ((), s') ∧ Inside cpu depth j s' ∧ s'.pc = pc' ∧ Above s.sp s s'

/-- An instruction that pushes a word, a sequence, an instruction that pops the word, and another sequence. -/
lemma Nest.Runs.bracket {inner rest : Nest} (hinner : inner.Runs cpu depth) (hrest : rest.Runs cpu depth)
    {s1 : CPU} {q behind : Addr} {v : Word} (h : Inside cpu depth j s)
    (hq : Undisturbed s (inner.turns + rest.turns + 2)) (hopen : fetchExecute s = some ((), s1))
    (h1 : Inside cpu depth (j + 1) s1) (habove : Above s.sp s s1)
    (hv : busWordRead s1.heap s1.bus s1.sp = some (.ok v))
    (hli : inner.Laid cpu depth (j + 1) s1.pc q) (hfi : j + 1 + inner.depth ≤ depth)
    (hclose : ∀ s2, Inside cpu depth (j + 1) s2 → s2.pc = q → busWordRead s2.heap s2.bus s2.sp = some (.ok v) →
      ∃ s3, fetchExecute s2 = some ((), s3) ∧ Inside cpu depth j s3 ∧ s3.pc = behind ∧ s3.heap = s2.heap)
    (hlr : rest.Laid cpu depth j behind pc') (hfr : j + rest.depth ≤ depth) (hfits : 4 * depth ≤ cpu.sp.toNat) :
    ∃ s', cpuTurns (inner.turns + rest.turns + 2) s = some ((), s') ∧ Inside cpu depth j s' ∧ s'.pc = pc' ∧
      Above s.sp s s' := by
  have hturns : inner.turns + rest.turns + 2 = 1 + (inner.turns + (1 + rest.turns)) := by omega
  rw [hturns] at hq ⊢
  have hturn1 := Undisturbed.turn (Nat.add_comm 1 _ ▸ hq) h.goesOn hopen
  have hq1 := hq.rest hturn1
  obtain ⟨s2, hrun2, h2, hpc2, habove2⟩ := hinner h1 hli hfi fun k hk =>
    hq1 k (Nat.lt_of_lt_of_le hk (Nat.le_add_right _ _))
  have hq2 := hq1.rest hrun2
  -- The word is still there, as the inner sequence has left the stack from it up alone.
  have hsp : s2.sp = s1.sp := h2.sp.trans h1.sp.symm
  have hv2 : busWordRead s2.heap s2.bus s2.sp = some (.ok v) := by
    rw [hsp, habove2 _ (BitVec.le_refl _)]
    exact hv
  obtain ⟨s3, hclose3, h3, hpc3, hheap3⟩ := hclose s2 h2 hpc2 hv2
  have hturn3 := Undisturbed.turn (Nat.add_comm 1 _ ▸ hq2) h2.goesOn hclose3
  obtain ⟨s4, hrun4, h4, hpc4, habove4⟩ := hrest h3 (hpc3.symm ▸ hlr) hfr (hq2.rest hturn3)
  refine ⟨s4, ?_, h4, hpc4, ?_⟩
  · rw [cpuTurns_add hturn1, cpuTurns_add hrun2, cpuTurns_add hturn3]
    exact hrun4
  · have hle1 : s1.sp ≤ s.sp := by
      have hhigh := @slot_toNat cpu j (by omega)
      have hlow := @slot_toNat cpu (j + 1) (by omega)
      rw [h1.sp, h.sp, BitVec.le_def]
      omega
    have habove3 : Above s.sp s2 s3 := by
      intro b _
      rw [hheap3, h3.bus, h2.bus]
    have hsame : s3.sp = s.sp := h3.sp.trans h.sp.symm
    have hlast : Above s.sp s3 s4 := hsame ▸ habove4
    exact ((habove.trans habove2 hle1).trans habove3 (BitVec.le_refl _)).trans hlast (BitVec.le_refl _)

/-- A register that is pushed and popped. -/
lemma Nest.Runs.push {inner rest : Nest} {r : Byte} (hinner : inner.Runs cpu depth) (hrest : rest.Runs cpu depth)
    (hd : cpu.bus.Distinct) (hroom : StackRoom cpu depth) : (Nest.push r inner rest).Runs cpu depth := by
  intro j s pc' h hl hfit hq
  obtain ⟨hsave, hpush, q, hli, hpop, hlr⟩ := hl
  have hdepth : j + max (inner.depth + 1) rest.depth ≤ depth := hfit
  obtain ⟨v, hv⟩ := Option.isSome_iff_exists.mp hsave.1
  have hreg : s.skip.register r = some v := (h.skip.saved hsave).trans hv
  obtain ⟨heap, conds, hw⟩ := h.skip.write hroom (by omega) v
  obtain ⟨h1, habove, hread⟩ := h.skip.pushed hd hroom (by omega) hw
  have hopen := fetchExecute_code h.goesOn.2 h.quiet (h.code hpush) (effect_pushR h.skip.goesOn.2 hreg hw)
  refine hinner.bracket hrest h hq hopen h1.stepped habove hread hli (by omega) ?_ hlr (by omega) hroom.fits
  rintro s2 h2 rfl hv2
  have hreg2 : s2.skip.up.register r = some v := (h2.skip.up.saved hsave).trans hv
  have hrun := fetchExecute_code h2.goesOn.2 h2.quiet (h2.code hpop)
    (effect_popR hv2 (setRegister_self hreg2) h2.skip.goesOn.2)
  exact ⟨_, hrun, (h2.skip.up.flagsUpdate v).stepped, rfl, rfl⟩

/-- The instruction of a call. -/
lemma Inside.call {form : CallForm} {target : Addr} (h : Inside cpu depth j s) (hd : cpu.bus.Distinct)
    (hroom : StackRoom cpu depth) (hj : j < depth) (hreach : form.Reaches cpu s.pc (slot cpu j) target)
    (hp : Placed cpu depth s.pc form.op (form.operands cpu.cs target)) :
    ∃ s1, fetchExecute s = some ((), s1) ∧ Inside cpu depth (j + 1) s1 ∧ s1.pc = target ∧ Above s.sp s s1 ∧
      busWordRead s1.heap s1.bus s1.sp = some (.ok (form.behind s.pc)) := by
  have hcode := h.code hp
  cases form with
  | segment =>
    obtain ⟨heap, conds, hw⟩ := h.skip.skip.write hroom hj (s.pc + addrSize + addrSize)
    obtain ⟨h1, habove, hread⟩ := h.skip.skip.pushed hd hroom hj hw
    refine ⟨_, fetchExecute_code h.goesOn.2 h.quiet hcode (effect_callS hw), (h1.jumped _).stepped, ?_,
      habove, hread⟩
    show s.cs + (target - cpu.cs) = target
    rw [h.cs]
    bv_omega
  | absolute =>
    obtain ⟨heap, conds, hw⟩ := h.skip.skip.write hroom hj (s.pc + addrSize + addrSize)
    obtain ⟨h1, habove, hread⟩ := h.skip.skip.pushed hd hroom hj hw
    exact ⟨_, fetchExecute_code h.goesOn.2 h.quiet hcode (effect_call hw), (h1.jumped _).stepped, rfl,
      habove, hread⟩
  | register r =>
    have hreg : s.skip.register r = some target := (h.skip.register r).trans hreach
    obtain ⟨heap, conds, hw⟩ := h.skip.write hroom hj (s.pc + addrSize)
    obtain ⟨h1, habove, hread⟩ := h.skip.pushed hd hroom hj hw
    exact ⟨_, fetchExecute_code h.goesOn.2 h.quiet hcode (effect_callR h.skip.goesOn.2 hreg hw),
      (h1.jumped _).stepped, rfl, habove, hread⟩

/-- A call and its return. -/
lemma Nest.Runs.call {inner rest : Nest} {form : CallForm} {target : Addr} (hinner : inner.Runs cpu depth)
    (hrest : rest.Runs cpu depth) (hd : cpu.bus.Distinct) (hroom : StackRoom cpu depth) :
    (Nest.call form target inner rest).Runs cpu depth := by
  intro j s pc' h hl hfit hq
  obtain ⟨hreach, hcall, q, hli, hret, hlr⟩ := hl
  have hdepth : j + max (inner.depth + 1) rest.depth ≤ depth := hfit
  obtain ⟨s1, hopen, h1, hpc, habove, hread⟩ := h.call hd hroom (by omega) hreach hcall
  refine hinner.bracket hrest h hq hopen h1 habove hread (hpc.symm ▸ hli) (by omega) ?_ hlr (by omega) hroom.fits
  rintro s2 h2 rfl hv2
  have hrun := fetchExecute_code h2.goesOn.2 h2.quiet (h2.code hret) (effect_ret hv2)
  exact ⟨_, hrun, ((h2.skip.jumped _).up).stepped, rfl, rfl⟩

/-- Every well-bracketed sequence runs to its end. -/
lemma Nest.run (hd : cpu.bus.Distinct) (hroom : StackRoom cpu depth) (n : Nest) : n.Runs cpu depth := by
  induction n with
  | nil =>
    intro j s pc' h hl _ _
    cases hl
    exact ⟨s, rfl, h, rfl, fun _ _ => rfl⟩
  | push r inner rest hinner hrest => exact hinner.push hrest hd hroom
  | call form target inner rest hinner hrest => exact hinner.call hrest hd hroom

/-- **Calls and returns nest**: a call of a well-bracketed sequence, with room on the stack for it and its
instructions outside of that, comes back behind its instruction without an error, with `sp` as before and the words
from there up unchanged. -/
theorem call_returns {form : CallForm} {target pc' : Addr} {inner : Nest} (hgo : s.goesOn)
    (hquiet : (s.debug.trap && s.debugger) = false) (hd : s.bus.Distinct)
    (hroom : StackRoom s (Nest.call form target inner .nil).depth)
    (hl : (Nest.call form target inner .nil).Laid s (Nest.call form target inner .nil).depth 0 s.pc pc')
    (hq : Undisturbed s (Nest.call form target inner .nil).turns) :
    ∃ s', cpuTurns (Nest.call form target inner .nil).turns s = some ((), s') ∧ s'.state.panic = .ok ∧
      s'.goesOn ∧ s'.pc = form.behind s.pc ∧ s'.sp = s.sp ∧
      ∀ a, s.sp ≤ a → busWordRead s'.heap s'.bus a = busWordRead s.heap s.bus a := by
  have h : Inside s (Nest.call form target inner .nil).depth 0 s :=
    ⟨slot_zero.symm, rfl, rfl, rfl, rfl, rfl, rfl, rfl, hgo, hquiet, .refl _, fun _ _ => rfl⟩
  have hpc : pc' = form.behind s.pc := by
    obtain ⟨_, _, _, _, _, hnil⟩ := hl
    exact hnil
  obtain ⟨s', hrun, h', hpc', habove⟩ := Nest.run hd hroom _ h hl (Nat.zero_add _).le hq
  exact ⟨s', hrun, h'.goesOn.2, h'.goesOn, hpc'.trans hpc, h'.sp.trans slot_zero, habove⟩

end

/-- The word of an instruction without operand word. -/
def instructionWord (op : Op) (o : Operands) : Word := ByteOrder.big.ofBytes op.bytecode o.r0 o.r1 o.r2

/-- Sixteen words: `CALL &16` at 0, and `PUSH r0`, `POP r0`, `RET` at 16. -/
def callHeap : Heap := fun _ => { memoryCreate (fun _ => 0) 64 .rw with
  raw := fun i =>
    if i = 0 then instructionWord .callA {}
    else if i = 1 then 16
    else if i = 4 then instructionWord .pushR {}
    else if i = 5 then instructionWord .popR {}
    else if i = 6 then instructionWord .ret {}
    else 0 }

/-- A machine before the call, with its stack at the end of the memory. -/
def callCpu : CPU := { smallCpu callHeap with sp := 64 }

/-- The call, and what it calls. -/
def callNest : Nest := .call .absolute 16 (.push 0 .nil .nil) .nil

/-- The call comes back. -/
theorem call_returns_push : ∃ s', @cpuTurns ⟨.little⟩ callNest.turns callCpu = some ((), s') ∧
    s'.state.panic = .ok ∧ s'.goesOn ∧ s'.pc = CallForm.absolute.behind callCpu.pc ∧ s'.sp = callCpu.sp ∧
    ∀ a, callCpu.sp ≤ a → busWordRead s'.heap s'.bus a = busWordRead callCpu.heap callCpu.bus a := by
  have hclear (pc : Addr) (h : pc.toNat < 56) : ¬ InStack callCpu 2 pc := by
    have hsp : callCpu.sp.toNat = 64 := rfl
    unfold InStack
    omega
  refine @call_returns ⟨.little⟩ callCpu .absolute 16 8 (.push 0 .nil .nil) ⟨rfl, rfl⟩ rfl ?_ ⟨?_, ?_⟩ ?_ ?_
  · exact List.nodup_singleton _
  · decide
  · have hslots : ∀ j : Fin 2, writeStatus callCpu.heap callCpu.bus (slot callCpu (j + 1)) = some (.ok ()) := by
      decide +kernel
    exact fun j hj => hslots ⟨j, hj⟩
  · refine ⟨trivial, ⟨⟨rfl, fun _ => rfl⟩, hclear _ (by decide), fun _ => hclear _ (by decide)⟩, 24, ?_,
      ⟨⟨rfl, nofun⟩, hclear _ (by decide), nofun⟩, rfl⟩
    exact ⟨⟨by decide, by decide, by decide⟩, ⟨⟨rfl, nofun⟩, hclear _ (by decide), nofun⟩, 20, rfl,
      ⟨⟨rfl, nofun⟩, hclear _ (by decide), nofun⟩, rfl⟩
  · have hflags : ∀ k : Fin 4, (@cpuTurns ⟨.little⟩ k callCpu).map (fun r => r.2.flags.interruptsEnabled) =
        some false := by decide +kernel
    intro k hk u hu
    have hoff := hflags ⟨k, hk⟩
    dsimp only at hoff
    rw [hu] at hoff
    have hdisabled : u.flags.interruptsEnabled = false := Option.some.inj hoff
    rw [hdisabled]
    rfl

end Thorium.Vm
