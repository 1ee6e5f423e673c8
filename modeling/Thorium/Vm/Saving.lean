import Thorium.Vm.Advance
import Thorium.Vm.Calls

/-!
# Saving registers

Registers that are pushed by one instruction and popped in the reverse order by the next. Each push saves
the value that its register has at that moment (`Saved`), which for `sp` is the slot above, so that popping
it assigns `sp` what it holds. Only `pc` is not restored (`Inside.pops`): with 255 registers `PUSHA` and
`POPA` count it among them (`pusha_popa_iff`).
-/

namespace Thorium.Vm
open Thorium.Isa Thorium.Run

/-! ### One register -/

section
variable {s s1 : CPU} {r : Byte} {regs : List Byte} {v : Word} {heap : Heap} {conds : List Cond}

/-- A register that exists is pushed first. -/
lemma pushRegisters_cons (hp : s.state.panic = .ok) (hr : s.register r = some v)
    (hw : busWordWrite s.heap s.bus (s.sp - wordSize) v = some (.ok (heap, conds))) :
    pushRegisters (r :: regs) s = pushRegisters regs (s.down.stored heap conds) := by
  show ((registerGet r s).bind _).bind _ = _
  rw [registerGet_some hr, CPU.setPanic_ok hp]
  show ((pushWord v s).bind _).bind _ = _
  rw [pushWord_ok hw]
  rfl

/-- A register that exists is popped first. -/
lemma popRegisters_cons (hr : busWordRead s.heap s.bus s.sp = some (.ok v)) (hset : s.up.setRegister r v = some s1)
    (hp : s1.state.panic = .ok) : popRegisters (r :: regs) s = popRegisters regs (s1.flagsUpdate v) := by
  have hp' : (s1.flagsUpdate v).state.panic = .ok := hp
  show (readWord s.sp s).bind _ = _
  rw [readWord_ok hr]
  show (registerSet r v s.up).bind _ = _
  rw [registerSet_some hset, CPU.setPanic_ok hp']
  rfl

end

/-! ### Lists of registers -/

section
variable {cpu s s' : CPU} {depth j : Nat} {pc0 : Addr} {r : Byte} {regs : List Byte}

/-- There is a register with this number. Which there are does not depend on `pc` and `sp`. -/
lemma register_isSome (hr : (cpu.register r).isSome = true) (pc sp : Addr) :
    ∃ v, CPU.register { cpu with pc := pc, sp := sp } r = some v := by
  apply Option.isSome_iff_exists.mp
  rw [@register_isSome_congr cpu { cpu with pc := pc, sp := sp } rfl]
  exact hr

/-- The values that some registers had when they were pushed one after another, with `pc` at `pc0`, are on the
stack. -/
def Saved (cpu : CPU) (pc0 : Addr) (j : Nat) (regs : List Byte) (heap : Heap) : Prop :=
  ∀ k r, regs[k]? = some r → ∃ v, CPU.register { cpu with pc := pc0, sp := slot cpu (j + k) } r = some v ∧
    busWordRead heap cpu.bus (slot cpu (j + k + 1)) = some (.ok v)

/-- Pushing registers saves them. -/
lemma Inside.pushes (h : Inside cpu depth j s) (hd : cpu.bus.Distinct) (hroom : StackRoom cpu depth)
    (hregs : ∀ r ∈ regs, (cpu.register r).isSome = true) (hj : j + regs.length ≤ depth) :
    ∃ s', pushRegisters regs s = some ((), s') ∧ Inside cpu depth (j + regs.length) s' ∧ s'.pc = s.pc ∧
      Above s.sp s s' ∧ Saved cpu s.pc j regs s'.heap := by
  induction regs generalizing j s with
  | nil => exact ⟨s, rfl, h, rfl, fun _ _ => rfl, nofun⟩
  | cons r regs ih =>
    obtain ⟨hr, hregs⟩ := List.forall_mem_cons.mp hregs
    have hlen : j + (regs.length + 1) ≤ depth := hj
    have hlen1 : j + 1 + regs.length ≤ depth := by omega
    obtain ⟨v, hv⟩ := register_isSome hr s.pc (slot cpu j)
    obtain ⟨heap, conds, hw⟩ := h.write hroom (by omega) v
    obtain ⟨h1, habove1, hread1⟩ := h.pushed hd hroom (by omega) hw
    obtain ⟨s', hrun, h', hpc, habove, hsaved⟩ := ih h1 hregs hlen1
    have hfits := hroom.fits
    have hle : slot cpu (j + 1) ≤ s.sp := by
      rw [h.sp, BitVec.le_def, slot_toNat (by omega), slot_toNat (by omega)]
      omega
    have hsp1 : (s.down.stored heap conds).sp = slot cpu (j + 1) := h1.sp
    have hbus1 : (s.down.stored heap conds).bus = cpu.bus := h1.bus
    have hadd : j + (r :: regs).length = j + 1 + regs.length := by
      rw [List.length_cons]
      omega
    refine ⟨s', ?_, hadd ▸ h', hpc, ?_, ?_⟩
    · rw [pushRegisters_cons h.goesOn.2 ((h.register r).trans hv) hw]
      exact hrun
    · rw [hsp1] at habove
      exact habove1.trans habove hle
    · intro k r' hk
      cases k with
      | zero =>
        cases hk
        refine ⟨v, hv, ?_⟩
        -- The other pushes are below the word.
        have hkeep := habove (slot cpu (j + 1)) (by rw [hsp1]; exact BitVec.le_refl _)
        rw [h'.bus, hbus1] at hkeep
        refine hkeep.trans ?_
        rw [← slot_succ, ← h.sp, ← h.bus]
        exact hread1
      | succ k =>
        have hk1 : j + (k + 1) = j + 1 + k := by omega
        rw [hk1]
        exact hsaved k r' hk

/-- A word that is popped is the value of its register already, unless that is `pc`. -/
lemma Inside.pop {v : Word} (h : Inside cpu depth (j + 1) s)
    (hv : CPU.register { cpu with pc := pc0, sp := slot cpu j } r = some v) :
    ∃ s1, s.up.setRegister r v = some s1 ∧ Inside cpu depth j s1 ∧ s1.heap = s.heap ∧
      s1.pc = if r.toNat = regPC then pc0 else s.pc := by
  have hup := h.up
  by_cases hr : r.toNat = regPC
  · have hval : v = pc0 := by
      unfold CPU.register at hv
      rw [hr, if_neg (by decide), if_pos rfl] at hv
      exact (Option.some.inj hv).symm
    refine ⟨s.up.jumped v, ?_, hup.jumped v, rfl, ?_⟩
    · unfold CPU.setRegister
      rw [hr, if_neg (by decide), if_pos rfl]
      rfl
    · rw [if_pos hr, ← hval]
      rfl
  · have hsame : s.up.register r = some v := by
      rw [hup.register, ← hv]
      unfold CPU.register
      rw [if_neg hr, if_neg hr]
    exact ⟨s.up, setRegister_self hsame, hup, rfl, (if_neg hr).symm⟩

/-- Popping registers that are saved restores them, but for `pc`. -/
lemma Inside.pops (h : Inside cpu depth (j + regs.length) s) (hsaved : Saved cpu pc0 j regs s.heap) :
    ∃ s', popRegisters regs.reverse s = some ((), s') ∧ Inside cpu depth j s' ∧ s'.heap = s.heap ∧
      s'.pc = if ∃ r ∈ regs, r.toNat = regPC then pc0 else s.pc := by
  induction regs using List.reverseRecOn generalizing s with
  | nil => exact ⟨s, rfl, h, rfl, (if_neg nofun).symm⟩
  | append_singleton regs r ih =>
    rw [List.length_append] at h
    obtain ⟨v, hv, hread⟩ := hsaved regs.length r (by
      rw [List.getElem?_append_right (Nat.le_refl _), Nat.sub_self]
      rfl)
    obtain ⟨s1, hset, h1, hheap, hpc⟩ := Inside.pop h hv
    have hread' : busWordRead s.heap s.bus s.sp = some (.ok v) := by
      rw [h.bus, h.sp]
      exact hread
    have hsaved1 : Saved cpu pc0 j regs (s1.flagsUpdate v).heap := by
      intro k r' hk
      have hlt := (List.getElem?_eq_some_iff.mp hk).1
      show ∃ w, _ ∧ busWordRead s1.heap _ _ = _
      rw [hheap]
      exact hsaved k r' (by rw [List.getElem?_append_left hlt]; exact hk)
    obtain ⟨s', hrun, h', hheap', hpc'⟩ := ih (h1.flagsUpdate v) hsaved1
    refine ⟨s', ?_, h', hheap'.trans hheap, ?_⟩
    · rw [List.reverse_append]
      exact (popRegisters_cons hread' hset h1.goesOn.2).trans hrun
    · rw [hpc']
      show (if _ then pc0 else s1.pc) = _
      rw [hpc]
      by_cases hmem : ∃ r ∈ regs, r.toNat = regPC
      · obtain ⟨r', hr', e⟩ := hmem
        rw [if_pos ⟨r', hr', e⟩, if_pos ⟨r', List.mem_append_left _ hr', e⟩]
      · rw [if_neg hmem]
        by_cases hr : r.toNat = regPC
        · rw [if_pos hr, if_pos ⟨r, List.mem_append_right _ (List.mem_singleton.mpr rfl), hr⟩]
        · rw [if_neg hr, if_neg]
          rintro ⟨r', hr', e⟩
          cases List.mem_append.mp hr' with
          | inl hr' => exact hmem ⟨r', hr', e⟩
          | inr hr' => exact hr (List.mem_singleton.mp hr' ▸ e)

end

/-! ### Two instructions -/

/-- The registers but `pc`, and the words from `sp` up, are as before, and there is no error. -/
structure Restored (s s' : CPU) : Prop where
  goesOn : s'.goesOn
  registers : ∀ r : Byte, r.toNat ≠ regPC → s'.register r = s.register r
  above : Above s.sp s s'

section
variable [Host] {s : CPU} {regs : List Byte} {op op' : Op} {o o' : Operands}

/-- An instruction at `pc` and another behind it, outside of the stack, on which there is room for some
words. -/
structure Pair (s : CPU) (depth : Nat) (op op' : Op) (o o' : Operands) : Prop where
  goesOn : s.goesOn
  quiet : (s.debug.trap && s.debugger) = false
  distinct : s.bus.Distinct
  room : StackRoom s depth
  first : Placed s depth s.pc op o
  second : Placed s depth (s.pc + addrSize) op' o'
  undisturbed : Undisturbed s 2

/-- An instruction that pushes some registers, and after it one that pops them. -/
lemma Pair.restores (hp : Pair s regs.length op op' o o') (hregs : ∀ r ∈ regs, (s.register r).isSome = true)
    (heffect : effect op o s.skip = pushRegisters regs s.skip)
    (heffect' : ∀ t : CPU, t.registerCount = s.registerCount → effect op' o' t = popRegisters regs.reverse t) :
    ∃ s', cpuTurns 2 s = some ((), s') ∧ Restored s s' ∧
      s'.pc = if ∃ r ∈ regs, r.toNat = regPC then s.pc + addrSize else s.pc + addrSize + addrSize := by
  obtain ⟨hgo, hquiet, hd, hroom, hpush, hpop, hq⟩ := hp
  have h : Inside s regs.length 0 s :=
    ⟨slot_zero.symm, rfl, rfl, rfl, rfl, rfl, rfl, rfl, hgo, hquiet, .refl _, fun _ _ => rfl⟩
  obtain ⟨s1, hrun1, h1, hpc1, habove1, hsaved⟩ := h.skip.pushes hd hroom hregs (Nat.zero_add _).le
  have hopen := fetchExecute_code hgo.2 hquiet hpush.code (heffect.trans hrun1)
  have hturn1 : cpuTurns 1 s = some ((), s1.stepped) := hq.turn hgo hopen
  have hq1 : Undisturbed s1.stepped 1 := @Undisturbed.rest _ s _ 1 1 hq hturn1
  -- The second instruction has not been written over.
  have hcode : Code s1.stepped.heap s1.stepped.bus s1.stepped.pc op' o' := h1.stepped.code (by
    show Placed s regs.length s1.pc op' o'
    rw [hpc1]
    exact hpop)
  obtain ⟨s2, hrun2, h2, hheap, hpc2⟩ := h1.stepped.skip.pops hsaved
  have heff2 := heffect' s1.stepped.skip h1.registerCount
  have hclose := fetchExecute_code h1.stepped.goesOn.2 h1.stepped.quiet hcode (heff2.trans hrun2)
  have hturn2 : cpuTurns 1 s1.stepped = some ((), s2.stepped) := hq1.turn h1.goesOn hclose
  refine ⟨s2.stepped, ?_, ⟨h2.goesOn, ?_, ?_⟩, ?_⟩
  · rw [@cpuTurns_add _ _ _ 1 1 hturn1]
    exact hturn2
  · intro r hr
    rw [h2.stepped.register, slot_zero]
    unfold CPU.register
    rw [if_neg hr, if_neg hr]
  · intro b hb
    have hbus : s2.stepped.bus = s1.bus := h2.bus.trans h1.bus.symm
    have hsame : s2.stepped.heap = s1.heap := hheap
    rw [hsame, hbus]
    exact habove1 b hb
  · have hskip : s1.stepped.skip.pc = s.pc + addrSize + addrSize := congrArg (· + addrSize) hpc1
    rw [← hskip]
    exact hpc2

/-- The instruction that pushes some registers, if there is one. -/
def pushOf : List Byte → Option (Op × Operands)
  | [r0] => some (.pushR, { r0 })
  | [r0, r1] => some (.pushRR, { r0, r1 })
  | [r0, r1, r2] => some (.pushRRR, { r0, r1, r2 })
  | _ => none

/-- The instruction that pops some registers, if there is one. -/
def popOf : List Byte → Option (Op × Operands)
  | [r0] => some (.popR, { r0 })
  | [r0, r1] => some (.popRR, { r0, r1 })
  | [r0, r1, r2] => some (.popRRR, { r0, r1, r2 })
  | _ => none

omit [Host] in
/-- The operation that pushes some registers. -/
lemma pushOf_effect (h : pushOf regs = some (op, o)) : effect op o = pushRegisters regs := by
  unfold pushOf at h
  split at h <;> cases h <;> rfl

omit [Host] in
/-- The operation that pops some registers. -/
lemma popOf_effect (h : popOf regs = some (op, o)) : effect op o = popRegisters regs := by
  unfold popOf at h
  split at h <;> cases h <;> rfl

/-- **Pushes and pops of several registers** are inverse to each other: one to three registers, with
repetitions and with `sp` anywhere among them. -/
theorem push_pop_restores (hpush : pushOf regs = some (op, o)) (hpop : popOf regs.reverse = some (op', o'))
    (hregs : ∀ r ∈ regs, (s.register r).isSome = true ∧ r.toNat ≠ regPC) (h : Pair s regs.length op op' o o') :
    ∃ s', cpuTurns 2 s = some ((), s') ∧ Restored s s' ∧ s'.pc = s.pc + addrSize + addrSize := by
  obtain ⟨s', hrun, hrestored, hpc⟩ := h.restores (fun r hr => (hregs r hr).1) (congrFun (pushOf_effect hpush) _)
    fun t _ => congrFun (popOf_effect hpop) t
  rw [if_neg] at hpc
  · exact ⟨s', hrun, hrestored, hpc⟩
  · rintro ⟨r, hr, e⟩
    exact (hregs r hr).2 e

omit [Host] in
/-- There are as many general registers as the count says. -/
lemma generalRegisters_length (count : Byte) : (generalRegisters count).length = count.toNat := by
  rw [generalRegisters, List.length_map, List.length_range]

omit [Host] in
/-- The general registers exist. -/
lemma generalRegisters_isSome : ∀ r ∈ generalRegisters s.registerCount, (s.register r).isSome = true := by
  intro r hr
  obtain ⟨i, hi, rfl⟩ := List.mem_map.mp hr
  have hlt : i < s.registerCount.toNat := List.mem_range.mp hi
  have hcount := s.registerCount.isLt
  have hle : ¬ s.registerCount ≤ BitVec.ofNat 8 i := by
    rw [BitVec.not_le, BitVec.lt_def, BitVec.toNat_ofNat, Nat.mod_eq_of_lt (by omega)]
    exact hlt
  unfold CPU.register
  rw [if_neg hle]
  split_ifs <;> rfl

omit [Host] in
/-- The number of `pc` is among those of the general registers when there are 255. -/
lemma generalRegisters_pc_iff {count : Byte} :
    (∃ r ∈ generalRegisters count, r.toNat = regPC) ↔ count = 255 := by
  constructor
  · rintro ⟨r, hr, e⟩
    by_contra hne
    exact generalRegisters_pc hne r (List.mem_reverse.mpr hr) e
  · rintro rfl
    exact ⟨254, List.mem_map.mpr ⟨254, List.mem_range.mpr (by decide), rfl⟩, rfl⟩

/-- `PUSHA` and `POPA` restore all but `pc`, which is that of `POPA` when there are 255 registers. -/
lemma Pair.pusha_popa (h : Pair s s.registerCount.toNat .pusha .popa {} {}) :
    ∃ s', cpuTurns 2 s = some ((), s') ∧ Restored s s' ∧
      s'.pc = if s.registerCount = 255 then s.pc + addrSize else s.pc + addrSize + addrSize := by
  rw [← generalRegisters_length] at h
  have heffect (t : CPU) (ht : t.registerCount = s.registerCount) :
      effect .popa {} t = popRegisters (generalRegisters s.registerCount).reverse t := by
    rw [← ht]
    rfl
  obtain ⟨s', hrun, hrestored, hpc⟩ := h.restores generalRegisters_isSome rfl heffect
  simp only [generalRegisters_pc_iff] at hpc
  exact ⟨s', hrun, hrestored, hpc⟩

/-- **`PUSHA` and `POPA`** restore every register and go on behind `POPA`, exactly when there are not 255
registers. -/
theorem pusha_popa_iff (h : Pair s s.registerCount.toNat .pusha .popa {} {}) :
    (∃ s', cpuTurns 2 s = some ((), s') ∧ Restored s s' ∧ s'.pc = s.pc + addrSize + addrSize) ↔
      s.registerCount ≠ 255 := by
  obtain ⟨s', hrun, hrestored, hpc⟩ := h.pusha_popa
  constructor
  · rintro ⟨s2, hrun2, _, hpc2⟩ hall
    cases hrun.symm.trans hrun2
    rw [if_pos hall, hpc2] at hpc
    have hne : s.pc + addrSize + addrSize ≠ s.pc + addrSize := by
      unfold addrSize
      bv_omega
    exact hne hpc
  · intro hne
    rw [if_neg hne] at hpc
    exact ⟨s', hrun, hrestored, hpc⟩

end

/-! ### Examples -/

/-- Two instructions at the beginning of 2048 bytes. -/
def pairHeap (op op' : Op) (o o' : Operands) : Heap := fun _ => { memoryCreate (fun _ => 0) 2048 .rw with
  raw := fun i =>
    if i = 0 then instructionWord op o
    else if i = 1 then instructionWord op' o'
    else 0 }

/-- A machine with two instructions at 0, and its stack at the end of the memory. -/
def pairCpu (registerCount : Byte) (op op' : Op) (o o' : Operands) : CPU :=
  { smallCpu (pairHeap op op' o o') with
    registerCount := registerCount, registers := fun i => BitVec.ofNat 32 (3 * i + 1), sp := 2048 }

/-- The example has room for the registers. -/
lemma pairCpu_room {registerCount : Byte} {depth : Nat} {op op' : Op} {o o' : Operands} (hd : depth < 256) :
    StackRoom (pairCpu registerCount op op' o o') depth := by
  constructor
  · show 4 * depth ≤ 2048
    omega
  · intro j hj
    have hslots : ∀ j : Fin 255, writeStatus (fun _ => memoryCreate (fun _ => 0) 2048 .rw) (smallCpu smallHeap).bus
        (2048 - BitVec.ofNat 32 (4 * (j + 1))) = some (.ok ()) := by decide +kernel
    have hshape : Shape (fun _ => memoryCreate (fun _ => 0) 2048 .rw) (pairHeap op op' o o') := fun _ => ⟨rfl, rfl⟩
    show writeStatus (pairHeap op op' o o') (smallCpu smallHeap).bus (2048 - BitVec.ofNat 32 (4 * (j + 1))) = _
    rw [writeStatus_shape hshape]
    exact hslots ⟨j, by omega⟩

/-- The code of the example is below its stack. -/
lemma pairCpu_clear {registerCount : Byte} {depth : Nat} {op op' : Op} {o o' : Operands} (hd : depth < 256)
    {a : Addr} (ha : a.toNat < 1024) : ¬ InStack (pairCpu registerCount op op' o o') depth a := by
  have hsp : (pairCpu registerCount op op' o o').sp.toNat = 2048 := rfl
  unfold InStack
  omega

/-- Nothing interrupts instructions that do not take a word, when interrupts are still disabled after the
first. -/
lemma pairCpu_pair {registerCount : Byte} {depth : Nat} {op op' : Op} {o o' : Operands} (hd : depth < 256)
    (hw : op.takesWord = false) (hw' : op'.takesWord = false)
    (hcode : Code (pairHeap op op' o o') (smallCpu smallHeap).bus 0 op o)
    (hcode' : Code (pairHeap op op' o o') (smallCpu smallHeap).bus 4 op' o')
    (hoff : (@cpuTurns ⟨.little⟩ 1 (pairCpu registerCount op op' o o')).map
      (fun r => r.2.flags.interruptsEnabled) = some false) :
    @Pair ⟨.little⟩ (pairCpu registerCount op op' o o') depth op op' o o' := by
  have hpc : (0 : Addr).toNat < 1024 := by decide
  have hpc' : ((0 : Addr) + addrSize).toNat < 1024 := by decide
  refine @Pair.mk ⟨.little⟩ _ _ _ _ _ _ ⟨rfl, rfl⟩ rfl (List.nodup_singleton _) (pairCpu_room hd)
    ⟨hcode, pairCpu_clear hd hpc, fun h => ?_⟩ ⟨hcode', pairCpu_clear hd hpc', fun h => ?_⟩ ?_
  · cases hw.symm.trans h
  · cases hw'.symm.trans h
  · intro k hk u hu
    have hdisabled : u.flags.interruptsEnabled = false := by
      match k with
      | 0 =>
        cases hu
        rfl
      | 1 =>
        rw [hu] at hoff
        exact Option.some.inj hoff
      | k + 2 => omega
    rw [hdisabled]
    rfl

/-- `sp` twice, around a general register. -/
theorem push_pop_sp : ∃ s', @cpuTurns ⟨.little⟩ 2 (pairCpu 2 .pushRRR .popRRR
      { r0 := 252, r1 := 1, r2 := 252 } { r0 := 252, r1 := 1, r2 := 252 }) = some ((), s') ∧
    Restored (pairCpu 2 .pushRRR .popRRR { r0 := 252, r1 := 1, r2 := 252 } { r0 := 252, r1 := 1, r2 := 252 }) s' ∧
      s'.pc = 8 :=
  @push_pop_restores ⟨.little⟩ _ [252, 1, 252] _ _ _ _ rfl rfl (by decide)
    (pairCpu_pair (by decide) rfl rfl ⟨rfl, nofun⟩ ⟨rfl, nofun⟩ (by decide +kernel))

/-- `PUSHA` and `POPA` with two registers. -/
theorem pusha_popa_two : ∃ s', @cpuTurns ⟨.little⟩ 2 (pairCpu 2 .pusha .popa {} {}) = some ((), s') ∧
    Restored (pairCpu 2 .pusha .popa {} {}) s' ∧ s'.pc = 8 :=
  (@pusha_popa_iff ⟨.little⟩ _ (pairCpu_pair (by decide) rfl rfl ⟨rfl, nofun⟩ ⟨rfl, nofun⟩
    (by decide +kernel))).mpr (by decide)

/-- With 255 registers `POPA` is executed again. -/
theorem not_pusha_popa : ¬ ∀ s : CPU, @Pair ⟨.little⟩ s s.registerCount.toNat .pusha .popa {} {} →
    ∃ s', @cpuTurns ⟨.little⟩ 2 s = some ((), s') ∧ Restored s s' ∧ s'.pc = s.pc + addrSize + addrSize := by
  intro h
  have hpair : @Pair ⟨.little⟩ (pairCpu 255 .pusha .popa {} {}) 255 .pusha .popa {} {} :=
    pairCpu_pair (by decide) rfl rfl ⟨rfl, nofun⟩ ⟨rfl, nofun⟩ (by decide +kernel)
  obtain ⟨s', hrun, _, hpc⟩ := @Pair.pusha_popa ⟨.little⟩ _ hpair
  obtain ⟨s2, hrun2, _, hpc2⟩ := h _ hpair
  cases hrun.symm.trans hrun2
  cases hpc.symm.trans hpc2

end Thorium.Vm
