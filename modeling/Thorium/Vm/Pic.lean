import Thorium.Vm.Bus

/-!
# The interrupt controller

Model of `src/vm/pic.c`. The mask is a memory on the bus, the pending interrupts are not.
-/

namespace Thorium.Vm

/-- `INTERRUPTS_COUNT` -/
def interruptsCount : Nat := 256

/-- `INTERRUPTS_WORDS_COUNT` -/
def interruptsWordsCount : Nat := 8

/-- `interrupt_t` -/
abbrev Interrupt := Byte

/-- `PIC` with its `PICMemory`. -/
structure PIC where
  interruptMask : Ref
  interruptHandlers : Ref
  activeInterrupts : Nat → Word

/-- `int_loc_t` -/
structure IntLoc where
  wordIndex : Nat
  bit : Word

/-- `find_interrupt_location` -/
def findInterruptLocation (interrupt : Interrupt) : IntLoc where
  wordIndex := interrupt.toNat / 32
  bit := 1 <<< (interrupt.toNat % 32)

/-- A word of the mask. The mask memory has a word for every index, so this get does not fail. -/
def PIC.mask (this : PIC) (heap : Heap) (wordIndex : Nat) : Word :=
  match memoryWordGet (heap this.interruptMask) (BitVec.ofNat 32 wordIndex * wordSize) with
  | .ok word => word
  | .error _ => 0

/-- The result of a `memory_word_set` on the mask that is not looked at. -/
def PIC.setMask (this : PIC) (heap : Heap) (wordIndex : Nat) (mask : Word) : Heap :=
  match memoryWordSet (heap this.interruptMask) (BitVec.ofNat 32 wordIndex * wordSize) mask with
  | .ok memory => heap.set this.interruptMask memory
  | .error _ => heap

/-- `pic_interrupt_mask` -/
def picInterruptMask (this : PIC) (heap : Heap) (interrupt : Interrupt) : Heap :=
  let loc := findInterruptLocation interrupt
  this.setMask heap loc.wordIndex (this.mask heap loc.wordIndex ||| loc.bit)

/-- `pic_interrupt_unmask` -/
def picInterruptUnmask (this : PIC) (heap : Heap) (interrupt : Interrupt) : Heap :=
  let loc := findInterruptLocation interrupt
  this.setMask heap loc.wordIndex (this.mask heap loc.wordIndex &&& ~~~loc.bit)

/-- A change of one word of `active_interrupts`. -/
def PIC.modify (this : PIC) (wordIndex : Nat) (f : Word → Word) : PIC :=
  { this with activeInterrupts := fun i =>
      if i = wordIndex then f (this.activeInterrupts i) else this.activeInterrupts i }

/-- `pic_interrupt_trigger`, without its signal. -/
def picInterruptTrigger (this : PIC) (interrupt : Interrupt) : PIC :=
  let loc := findInterruptLocation interrupt
  this.modify loc.wordIndex fun active => active ||| loc.bit

/-- `pic_interrupt_reset` -/
def picInterruptReset (this : PIC) (interrupt : Interrupt) : PIC :=
  let loc := findInterruptLocation interrupt
  this.modify loc.wordIndex fun active => active &&& ~~~loc.bit

/-- `pic_interrupt_active` -/
def picInterruptActive (this : PIC) (heap : Heap) : Bool :=
  (List.range interruptsWordsCount).any fun i => this.activeInterrupts i &&& ~~~this.mask heap i != 0

/-- `is_active` -/
def isActive (this : PIC) (loc : IntLoc) : Bool :=
  this.activeInterrupts loc.wordIndex &&& loc.bit != 0

/-- `is_masked` -/
def isMasked (this : PIC) (heap : Heap) (loc : IntLoc) : Bool :=
  this.mask heap loc.wordIndex &&& loc.bit != 0

/-- The next location in `pic_interrupt_get`. -/
def IntLoc.next (loc : IntLoc) : IntLoc :=
  let bit := loc.bit <<< 1
  if bit = 0 then ⟨loc.wordIndex + 1, 1⟩ else ⟨loc.wordIndex, bit⟩

/-- The loop of `pic_interrupt_get`, with `n` turns left. -/
def picInterruptGetLoop (this : PIC) (heap : Heap) : Nat → Nat → IntLoc → Interrupt
  | 0, _, _ => 0
  | n + 1, i, loc =>
    if isActive this loc && !isMasked this heap loc then BitVec.ofNat 8 i
    else picInterruptGetLoop this heap n (i + 1) loc.next

/-- `pic_interrupt_get` -/
def picInterruptGet (this : PIC) (heap : Heap) : Interrupt :=
  picInterruptGetLoop this heap interruptsCount 0 ⟨0, 1⟩

end Thorium.Vm
