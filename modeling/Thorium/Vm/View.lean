import Thorium.Lib.Refinement
import Thorium.Vm.Core
import Thorium.Vm.Faults
import Thorium.Vm.Guests
import Thorium.Vm.Loading

/-!
# What a program sees

`CPU.core` is the machine of the instruction set that a CPU stands for, and `Shows` relates the two as long as
the CPU is that of `vm_create` and is neither traced nor debugged. Each access of an operation to a register, to
the memory, to the stack or to the interrupt controller does what its counterpart of `Core` does.
-/

namespace Thorium.Vm
open Thorium.Isa Thorium.Run

/-! ### What a program sees -/

/-- The machine that a program sees. -/
def CPU.core (s : CPU) : Core where
  memory := flat s.heap s.bus
  count := s.registerCount
  registers r := (s.register r).getD 0
  flags := s.flags
  pending i := isActive s.pic (findInterruptLocation i)
  error := s.state.panic
  running := s.state.running

/-- The memory map of `vm_create`, as it is while the CPU runs. -/
structure MachineHeap (heap : Heap) (bus : Bus) (ramSize : Addr) (video : Bool) : Prop where
  mapped : Mapped heap bus ramSize video
  ramMode : (heap ramRef).mode = .rw
  maskMode : (heap maskRef).mode = .rw
  keyMode : (heap keyboardOutRef).mode = .rw

/-- A CPU of the machine that is not debugged, and what a program sees of it. -/
structure Shows (ramSize : Addr) (video : Bool) (s : CPU) (c : Core) : Prop where
  heap : MachineHeap s.heap s.bus ramSize video
  pic : s.pic.interruptMask = maskRef
  silent : s.debug.printOp = false
  quiet : (s.debug.trap && s.debugger) = false
  core : s.core = c

section
variable {heap heap' : Heap} {bus : Bus} {ramSize : Addr} {video : Bool} {s s' : CPU} {c : Core} {r : Byte} {v w : Word}
variable {a : Addr}

/-- Stores keep the zones. -/
lemma Mapped.shape (h : Mapped heap bus ramSize video) (hs : Shape heap heap') : Mapped heap' bus ramSize video :=
  h.sizes fun r => (hs r).1

/-- Stores keep the modes and sizes of the machine. -/
lemma MachineHeap.shape (h : MachineHeap heap bus ramSize video) (hs : Shape heap heap') :
    MachineHeap heap' bus ramSize video where
  mapped := h.mapped.shape hs
  ramMode := (hs ramRef).2.trans h.ramMode
  maskMode := (hs maskRef).2.trans h.maskMode
  keyMode := (hs keyboardOutRef).2.trans h.keyMode

/-- The zones of the devices and of the ROM start at words. -/
lemma zone_bases : ∀ z ∈ deviceZones video ++ [romZone], z.from.toNat % 4 = 0 := by cases video <;> decide

/-- The bus of the machine is a flat memory. -/
lemma Mapped.wellZoned (h : Mapped heap bus ramSize video) : WellZoned heap bus where
  distinct := h.distinct
  proper := h.proper
  sizes _ hz := congrArg BitVec.toNat (h.words hz)
  bases z hz := by
    cases List.mem_cons.mp (h.zones.mem_iff.mp hz) with
    | inl e => rw [e]; rfl
    | inr hz => exact zone_bases z hz
  apart := h.apart

/-! ### Registers -/

/-- The numbers of the special registers. -/
lemma special_cases (h : 250 ≤ r.toNat) : r = 250 ∨ r = 251 ∨ r = 252 ∨ r = 253 ∨ r = 254 ∨ r = 255 := by
  have hlt := r.isLt
  bv_omega

/-- A general register exists if its number is below the count. -/
lemma register_general (s : CPU) (h : ¬ 250 ≤ r.toNat) :
    s.register r = if s.registerCount ≤ r then none else some (s.registers r.toNat) := by
  have hne (n : Nat) (hn : 250 ≤ n) : ¬ r.toNat = n := fun e => h (e ▸ hn)
  simp only [CPU.register, if_neg (hne regSP (by decide)), if_neg (hne regPC (by decide)),
    if_neg (hne regCS (by decide)), if_neg (hne regIDT (by decide)), if_neg (hne regIR (by decide)),
    if_neg (hne regBP (by decide))]

/-- The same registers exist in both. -/
lemma has_iff (s : CPU) (r : Byte) : s.core.has r = (s.register r).isSome := by
  by_cases h : 250 ≤ r.toNat
  · have hhas : s.core.has r = true := by simp [Core.has, h]
    rw [hhas]
    rcases special_cases h with rfl | rfl | rfl | rfl | rfl | rfl <;> rfl
  · rw [register_general s h, Core.has, decide_eq_false h, Bool.or_false]
    split
    next hle =>
      exact decide_eq_false fun hlt => BitVec.not_lt.mpr hle hlt
    next hle =>
      exact decide_eq_true (BitVec.not_le.mp hle)

/-- A register that exists has the same value in both. -/
lemma register_core (h : s.core.has r = true) : s.register r = some (s.core.registers r) := by
  rw [has_iff, Option.isSome_iff_exists] at h
  obtain ⟨v, hv⟩ := h
  have hcore : s.core.registers r = (s.register r).getD 0 := rfl
  rw [hcore, hv]
  rfl

/-- A register that does not exist. -/
lemma register_none (h : ¬ s.core.has r = true) : s.register r = none := by
  rw [has_iff] at h
  exact Option.not_isSome_iff_eq_none.mp h

/-- The assignment of a register. -/
lemma core_setRegister (h : s.setRegister r v = some s') : s'.core = s.core.put r v := by
  have hregister := register_setRegister h
  obtain ⟨_, _, _, _, _, _, _, rfl⟩ := setRegister_eq h
  unfold CPU.core Core.put
  congr 1
  funext r'
  rw [hregister r', Function.update_apply]
  split
  · rfl
  · rfl

/-- `pc` is one of the registers of the machine. -/
lemma core_pc (a : Addr) : ({ s with pc := a } : CPU).core = s.core.jump a :=
  core_setRegister (r := Core.pcNumber) rfl

/-- So is `sp`. -/
lemma core_sp (a : Addr) : ({ s with sp := a } : CPU).core = s.core.put Core.spNumber a :=
  core_setRegister (r := Core.spNumber) rfl

/-- So is `ir`. -/
lemma core_ir (v : Word) : ({ s with ir := v } : CPU).core = s.core.put Core.irNumber v :=
  core_setRegister (r := Core.irNumber) rfl

/-! ### Memory -/

/-- What is read is a word of the flat memory. -/
lemma WellZoned.words_of_read (h : WellZoned heap bus) (hr : busWordRead heap bus a = some (.ok w)) :
    (flat heap bus).readable a = true ∧ (flat heap bus).words a = w := by
  rw [h.read] at hr
  split at hr
  next hread =>
    cases hr
    exact ⟨hread, rfl⟩
  · cases hr

/-- A device that sets a word of its memory does what a write on the bus does. -/
lemma Mapped.set_zone (h : Mapped heap bus ramSize video) {z : Zone} (hz : z ∈ bus.zones)
    (hmode : (heap z.memory).mode = .rw) {offset : Addr} (haligned : offset % wordSize = 0)
    (hlt : offset < (heap z.memory).size) (w : Word) : ∃ memory conds,
      memoryWordSet (heap z.memory) offset w = .ok memory ∧
        busWordWrite heap bus (z.from + offset) w = some (.ok (heap.set z.memory memory, conds)) := by
  obtain ⟨hc, htr, hfit⟩ := zone_word h.proper hz (h.words hz) haligned hlt
  have hset : memoryWordSet (heap z.memory) offset w = .ok { heap z.memory with
      raw := fun i => if i = (offset / wordSize).toNat then w else (heap z.memory).raw i } := by
    rw [memoryWordSet, if_neg (not_not.mpr hmode), if_neg (not_not.mpr haligned), if_neg hfit]
  refine ⟨_, (z.notification.filter fun n => n.addr == z.from + offset).map Notification.cond, hset, ?_⟩
  rw [busWordWrite, findZone_covers h.proper h.apart hz hc]
  dsimp only
  rw [htr, hset]

/-- The zones of the devices are on the bus. -/
lemma Mapped.mem_zones (h : Mapped heap bus ramSize video) {z : Zone} (hz : z ∈ deviceZones video) : z ∈ bus.zones :=
  h.zones.mem_iff.mpr (List.mem_cons_of_mem _ (List.mem_append_left _ hz))

/-- The zone of the mask. -/
def maskZone : Zone := ⟨maskRef, interruptMaskAddress, "IMask", []⟩

/-- The zone in which the keyboard leaves its word. -/
def keyZone : Zone := ⟨keyboardOutRef, keyboardOutAddress, "KBOut", []⟩

/-- The mask and the keyboard are among the devices. -/
lemma device_zones : maskZone ∈ deviceZones video ∧ keyZone ∈ deviceZones video := by cases video <;> decide

/-- Their memories have the sizes of their zones. -/
lemma Mapped.device_sizes (h : Mapped heap bus ramSize video) :
    (heap maskRef).size = interruptMaskSize ∧ (heap keyboardOutRef).size = keyboardOutMemorySize := by
  have hregions : ⟨maskRef, interruptMaskAddress, interruptMaskSize⟩ ∈ deviceRegions video ++ [romRegion] ∧
      ⟨keyboardOutRef, keyboardOutAddress, keyboardOutMemorySize⟩ ∈ deviceRegions video ++ [romRegion] := by
    simp [deviceRegions, keyboardRegions, picRegions]
  exact ⟨h.sized _ hregions.1, h.sized _ hregions.2⟩

/-- The machine after a device has set a word of its memory. -/
lemma MachineHeap.setWord (h : MachineHeap heap bus ramSize video) {z : Zone} (hz : z ∈ bus.zones)
    (hmode : (heap z.memory).mode = .rw) {offset : Addr} (haligned : offset % wordSize = 0)
    (hlt : offset < (heap z.memory).size) (w : Word) :
    MachineHeap (Vm.setWord heap z.memory offset w) bus ramSize video ∧
      flat (Vm.setWord heap z.memory offset w) bus =
        { flat heap bus with words := Function.update (flat heap bus).words (z.from + offset) w } := by
  obtain ⟨memory, conds, hset, hwrite⟩ := h.mapped.set_zone hz hmode haligned hlt w
  have hheap : Vm.setWord heap z.memory offset w = heap.set z.memory memory := by
    rw [Vm.setWord, hset]
  rw [hheap]
  exact ⟨h.shape (busWordWrite_shape hwrite), h.mapped.wellZoned.flat_write hwrite⟩

/-! ### The mask -/

/-- The mask of an interrupt is in a word of its memory. -/
lemma mask_offset (i : Interrupt) : (BitVec.ofNat 32 (i.toNat / 32) * wordSize) % wordSize = 0 ∧
    BitVec.ofNat 32 (i.toNat / 32) * wordSize < interruptMaskSize := by
  have h : ∀ k : Fin 8, (BitVec.ofNat 32 k * wordSize) % wordSize = 0 ∧
      BitVec.ofNat 32 k * wordSize < interruptMaskSize := by decide +kernel
  exact h ⟨i.toNat / 32, word_lt i⟩

/-- A word of the mask is in the memory. -/
lemma Shows.mask (h : Shows ramSize video s c) (i : Interrupt) :
    c.mask i = s.pic.mask s.heap (findInterruptLocation i).wordIndex := by
  obtain ⟨haligned, hlt⟩ := mask_offset i
  have hz := h.heap.mapped.mem_zones (@device_zones video).1
  have hsize : (s.heap maskZone.memory).size = interruptMaskSize := h.heap.mapped.device_sizes.1
  have hserves := serves_zone h.heap.mapped.proper h.heap.mapped.apart hz (h.heap.mapped.words hz) s.heap (.refl _)
    _ haligned (hsize ▸ hlt)
  have hmask : MaskMemory (s.heap s.pic.interruptMask) := by
    rw [h.pic]
    exact ⟨hsize, h.heap.maskMode⟩
  have hindex : (BitVec.ofNat 32 (i.toNat / 32) * wordSize / wordSize).toNat = i.toNat / 32 :=
    (maskAddress (word_lt i)).2.1
  have hword := (h.heap.mapped.wellZoned.words_of_read hserves).2
  rw [hindex] at hword
  rw [← h.core]
  refine hword.trans ?_
  rw [findInterruptLocation, mask_eq hmask (word_lt i), h.pic]
  rfl

/-- A device or an operation sets a word of the mask. -/
lemma Shows.setMask (h : Shows ramSize video s c) (i : Interrupt) (w : Word) :
    Shows ramSize video { s with heap := s.pic.setMask s.heap (findInterruptLocation i).wordIndex w }
      (c.place (Core.maskAddress i) w) := by
  obtain ⟨haligned, hlt⟩ := mask_offset i
  have hz := h.heap.mapped.mem_zones (@device_zones video).1
  have hsize : (s.heap maskZone.memory).size = interruptMaskSize := h.heap.mapped.device_sizes.1
  obtain ⟨hheap, hflat⟩ := h.heap.setWord hz h.heap.maskMode haligned (hsize ▸ hlt) w
  have hset : s.pic.setMask s.heap (findInterruptLocation i).wordIndex w =
      Vm.setWord s.heap maskZone.memory (BitVec.ofNat 32 (i.toNat / 32) * wordSize) w := by
    rw [PIC.setMask, h.pic]
    rfl
  rw [hset]
  refine ⟨hheap, h.pic, h.silent, h.quiet, ?_⟩
  rw [← h.core]
  unfold CPU.core Core.place
  rw [hflat]
  rfl

/-! ### Pending interrupts -/

/-- A trigger is seen as a pending interrupt. -/
lemma pending_trigger (s : CPU) (i : Interrupt) :
    ({ s with pic := picInterruptTrigger s.pic i } : CPU).core = s.core.setPending i true := by
  unfold CPU.core Core.setPending
  congr 1
  funext j
  rw [Function.update_apply, Bool.eq_iff_iff, isActive_trigger]
  split
  next e => simp [e]
  next e => simp [e]

/-- A reset is seen as well. -/
lemma pending_reset (s : CPU) (i : Interrupt) :
    ({ s with pic := picInterruptReset s.pic i } : CPU).core = s.core.setPending i false := by
  unfold CPU.core Core.setPending
  congr 1
  funext j
  rw [Function.update_apply, Bool.eq_iff_iff, isActive_reset]
  split
  next e => simp [e]
  next e => simp [e]

/-- The same interrupts can be delivered. -/
lemma Shows.deliverable (h : Shows ramSize video s c) (i : Interrupt) :
    c.deliverable i = Vm.deliverable s.pic s.heap i := by
  have hpending : c.pending i = isActive s.pic (findInterruptLocation i) := by
    rw [← h.core]
    rfl
  rw [Core.deliverable, Vm.deliverable, h.mask, hpending, isMasked, bne, Bool.not_not]
  rfl

/-- The interrupt that is entered, if there is one. -/
lemma Shows.first (h : Shows ramSize video s c) : c.first =
    if picInterruptActive s.pic s.heap then some (picInterruptGet s.pic s.heap) else none := by
  have hnumber (i : Interrupt) : BitVec.ofNat 8 i.toNat = i := by
    rw [BitVec.ofNat_toNat, BitVec.setWidth_eq]
  split
  next hactive =>
    obtain ⟨hi, hmin⟩ := picInterruptGet_spec hactive
    generalize picInterruptGet s.pic s.heap = i at hi hmin
    have hfind : (List.range interruptsCount).find? (c.deliverable ∘ BitVec.ofNat 8) = some i.toNat := by
      refine List.find?_range_eq_some.mpr ⟨?_, List.mem_range.mpr i.isLt, fun j hj => ?_⟩
      · rw [Function.comp_apply, hnumber, h.deliverable]
        exact hi
      · rw [Function.comp_apply, h.deliverable, Bool.not_eq_true']
        apply eq_false_of_ne_true
        intro hd
        have hle := BitVec.le_def.mp (hmin _ hd)
        rw [BitVec.toNat_ofNat, Nat.mod_eq_of_lt (hj.trans i.isLt)] at hle
        exact absurd hj (Nat.not_lt.mpr hle)
    rw [Core.first, List.find?_map, hfind, Option.map_some, hnumber]
  next hactive =>
    apply List.find?_eq_none.mpr
    intro i _ hi
    rw [h.deliverable] at hi
    exact hactive (picInterruptActive_iff.mpr ⟨i, hi⟩)

/-! ### Steps of the handlers -/

/-- Both have the same error. -/
lemma Shows.error (h : Shows ramSize video s c) : s.state.panic = c.error := by
  rw [← h.core]
  rfl

/-- The zones are well formed. -/
lemma Shows.zoned (h : Shows ramSize video s c) : WellZoned s.heap s.bus := h.heap.mapped.wellZoned

/-- The words of the bus are those of the machine. -/
lemma Shows.memory (h : Shows ramSize video s c) : flat s.heap s.bus = c.memory := by
  rw [← h.core]
  rfl

/-- Where a program can read, the bus has the word. -/
lemma Shows.read (h : Shows ramSize video s c) (a : Addr) : busWordRead s.heap s.bus a =
    some (if c.memory.readable a then .ok (c.memory.words a) else .error .invalidAddress) := by
  rw [h.zoned.read, h.memory]

/-- A failed access. -/
lemma Shows.fails (h : Shows ramSize video s c) (e : CpuError) :
    Shows ramSize video (s.fault.setPanic e) (c.setError e) where
  heap := h.heap
  pic := h.pic
  silent := h.silent
  quiet := h.quiet
  core := by
    rw [← h.core]
    rfl

/-- An error is set in both. -/
lemma Shows.setError (h : Shows ramSize video s c) (e : CpuError) :
    Shows ramSize video (s.setPanic e) (c.setError e) where
  heap := h.heap
  pic := h.pic
  silent := h.silent
  quiet := h.quiet
  core := by
    rw [← h.core]
    rfl

/-- A jump in both. -/
lemma Shows.jump (h : Shows ramSize video s c) (a : Addr) :
    Shows ramSize video { s with pc := a } (c.jump a) where
  heap := h.heap
  pic := h.pic
  silent := h.silent
  quiet := h.quiet
  core := by rw [← h.core, core_pc]

/-- `sp` is moved in both. -/
lemma Shows.moveSp (h : Shows ramSize video s c) (a : Addr) :
    Shows ramSize video { s with sp := a } (c.put Core.spNumber a) where
  heap := h.heap
  pic := h.pic
  silent := h.silent
  quiet := h.quiet
  core := by rw [← h.core, core_sp]

/-- Both are at the same instruction. -/
lemma Shows.pc (h : Shows ramSize video s c) : s.pc = c.pc := by
  rw [← h.core]
  rfl

/-- Both have the same top of the stack. -/
lemma Shows.sp (h : Shows ramSize video s c) : s.sp = c.sp := by
  rw [← h.core]
  rfl

/-- Both have the same segment. -/
lemma Shows.cs (h : Shows ramSize video s c) : s.cs = c.cs := by
  rw [← h.core]
  rfl

/-- Both go on to the next word. -/
lemma Shows.skip (h : Shows ramSize video s c) : Shows ramSize video s.skip c.advance := by
  rw [Core.advance, ← h.pc]
  exact h.jump _

/-- The flags are set in both. -/
lemma Shows.setFlags (h : Shows ramSize video s c) (v : Word) :
    Shows ramSize video (s.flagsUpdate v) (c.setFlags v) where
  heap := h.heap
  pic := h.pic
  silent := h.silent
  quiet := h.quiet
  core := by
    rw [← h.core]
    rfl

/-- A register is assigned. -/
lemma Shows.put (h : Shows ramSize video s c) (hs : s.setRegister r v = some s') :
    Shows ramSize video s' (c.put r v) := by
  have hcore := core_setRegister hs
  obtain ⟨_, _, _, _, _, _, _, rfl⟩ := setRegister_eq hs
  exact ⟨h.heap, h.pic, h.silent, h.quiet, by rw [hcore, h.core]⟩

/-- A word is written. -/
lemma Shows.stored (h : Shows ramSize video s c) {heap : Heap} {conds : List Cond}
    (hw : busWordWrite s.heap s.bus a w = some (.ok (heap, conds))) :
    Shows ramSize video (s.stored heap conds) (c.place a w) := by
  refine ⟨h.heap.shape (busWordWrite_shape hw), h.pic, h.silent, h.quiet, ?_⟩
  rw [← h.core]
  show Core.mk (flat heap s.bus) _ _ _ _ _ _ = _
  rw [h.zoned.flat_write hw]
  rfl

section
variable {f : Option Word → Run CPU Unit} {k : Word → Core}

/-- The value of a register is used as it is, and there is an error if there is none. -/
lemma Shows.withRegister (h : Shows ramSize video s c) (hok : c.error = .ok)
    (hsome : ∀ v, Yields (Shows ramSize video) (f (some v)) s ⟨⟩ (k v)) (hnone : f none = pure ⟨⟩) :
    Yields (Shows ramSize video) (registerGet r >>= f) s ⟨⟩ (c.withRegister r k) := by
  have hcore := h.core
  unfold Core.withRegister
  split
  next hr =>
    rw [← hcore] at hr ⊢
    have hget := registerGet_some (register_core hr)
    rw [CPU.setPanic_ok (h.error.trans hok)] at hget
    exact .bind_of hget (hsome _)
  next hr =>
    rw [← hcore] at hr
    apply Yields.bind_of (registerGet_none (register_none hr))
    rw [hnone]
    exact .pure (h.fails _)

/-- A word of the memory is used as it is, and there is an error if it cannot be read. -/
lemma Shows.withWord (h : Shows ramSize video s c)
    (hsome : ∀ v, Yields (Shows ramSize video) (f (some v)) s ⟨⟩ (k v)) (hnone : f none = pure ⟨⟩) :
    Yields (Shows ramSize video) (readWord a >>= f) s ⟨⟩ (c.withWord a k) := by
  have hread := h.read a
  unfold Core.withWord
  split
  next hr =>
    rw [if_pos hr] at hread
    exact .bind_of (readWord_ok hread) (hsome _)
  next hr =>
    rw [if_neg hr] at hread
    apply Yields.bind_of (readWord_error hread)
    rw [hnone]
    exact .pure (h.fails _)

/-- So is the word behind an instruction. -/
lemma Shows.withOperand {k : Word → Core → Core} (h : Shows ramSize video s c) (hok : c.error = .ok)
    (hsome : ∀ v s', Shows ramSize video s' c.advance →
      Yields (Shows ramSize video) (f (some v)) s' ⟨⟩ (k v c.advance)) (hnone : f none = pure ⟨⟩) :
    Yields (Shows ramSize video) (fetchOperand >>= f) s ⟨⟩ (c.withOperand k) := by
  have hread := h.read c.pc
  rw [← h.pc] at hread
  have hp := h.error.trans hok
  unfold Core.withOperand
  rw [← h.pc]
  split
  next hr =>
    rw [if_pos hr] at hread
    exact .bind_of (fetchOperand_ok hp hread) (hsome _ _ h.skip)
  next hr =>
    rw [if_neg hr] at hread
    have hfetch : fetchOperand s = some (none, (s.fault.setPanic .cannotReadMemory).skip) := by
      rw [fetchOperand, bind_apply, cpuFetch_error hp hread]
      rfl
    apply Yields.bind_of hfetch
    rw [hnone]
    exact .pure (h.fails _).skip

end

/-- A value is assigned to a register, with its flags, in both. -/
lemma Shows.assign (h : Shows ramSize video s c) :
    Yields (Shows ramSize video) (registerSet r v) s ⟨⟩ (c.assign r v) := by
  have hsome : (s.setRegister r v).isSome = c.has r := by rw [setRegister_isSome, ← h.core, has_iff]
  unfold Core.assign
  split
  next hr =>
    rw [hr, Option.isSome_iff_exists] at hsome
    obtain ⟨s', hs⟩ := hsome
    exact ⟨_, registerSet_some hs, ((h.put hs).setFlags v).setError .ok⟩
  next hr =>
    rw [eq_false_of_ne_true hr, Option.isSome_eq_false_iff, Option.isNone_iff_eq_none] at hsome
    exact ⟨_, registerSet_none hsome, h.fails _⟩

/-- A word is written in both, or refused in both. -/
lemma Shows.write (h : Shows ramSize video s c) :
    Yields (Shows ramSize video) (writeWord a w) s ⟨⟩ (c.write a w) := by
  have hwrite := h.zoned.write a w
  rw [h.memory] at hwrite
  unfold Core.write
  rcases hwrite with ⟨hw, heap, conds, hrun⟩ | ⟨hw, e, hrun⟩
  · rw [if_pos hw]
    exact .bind_of (busWrite_ok hrun) (.pure (h.stored hrun))
  · rw [hw, if_neg Bool.false_ne_true]
    exact .bind_of (busWrite_error hrun) (.modify (h.fails _))

/-- A push, and whether it succeeds. -/
lemma Shows.push (h : Shows ramSize video s c) :
    Yields (Shows ramSize video) (pushWord v) s (c.memory.writable (c.sp - wordSize)) (c.push v) := by
  have hdown : Shows ramSize video s.down (c.put Core.spNumber (c.sp - wordSize)) := by
    rw [← h.sp]
    exact h.moveSp _
  have hwrite := h.zoned.write (s.sp - wordSize) v
  rw [h.memory, h.sp] at hwrite
  unfold Core.push Core.write
  have hmemory : (c.put Core.spNumber (c.sp - wordSize)).memory = c.memory := rfl
  rw [hmemory]
  rcases hwrite with ⟨hw, heap, conds, hrun⟩ | ⟨hw, e, hrun⟩
  · rw [← h.sp] at hrun
    rw [if_pos hw, hw, ← h.sp]
    exact ⟨_, pushWord_ok hrun, (h.sp ▸ hdown).stored hrun⟩
  · rw [← h.sp] at hrun
    rw [hw, if_neg Bool.false_ne_true]
    exact ⟨_, pushWord_error hrun, hdown.fails _⟩

end

end Thorium.Vm
