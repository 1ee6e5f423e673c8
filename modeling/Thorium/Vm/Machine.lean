import Thorium.Vm.Cpu
import Thorium.Vm.Loader
import Thorium.Vm.Zones

/-!
# The machine

Model of `vm_create` (`src/vm/vm.c`) with the devices it creates, of `cpu_create` (`src/vm/cpu.c`) and of
what `main` does before `vm_start`. Each memory of the machine has a reference of its own. What `malloc`
returns is arbitrary: `malloc ref` are the words of the memory at `ref`.
-/

namespace Thorium.Vm

/-! ### Addresses -/

/-- `VIDEO_BUFFER_SIZE` -/
def videoBufferSize : Addr := 320 * 200 * 4

/-- `VIDEO_BUFFER_1_ADDRESS` -/
def videoBuffer1Address : Addr := romAddress - videoBufferSize

/-- `VIDEO_BUFFER_0_ADDRESS` -/
def videoBuffer0Address : Addr := videoBuffer1Address - videoBufferSize

/-- `VIDEO_META_SIZE` -/
def videoMetaSize : Addr := wordSize

/-- `VIDEO_META_ADDRESS` -/
def videoMetaAddress : Addr := videoBuffer0Address - videoMetaSize

/-- `INTERRUPTS_WORDS_COUNT * WORD_SIZE` -/
def interruptMaskSize : Addr := BitVec.ofNat 32 interruptsWordsCount * wordSize

/-- `INTERRUPT_MASK_ADDRESS` -/
def interruptMaskAddress : Addr := videoMetaAddress - interruptMaskSize

/-- `INTERRUPTS_COUNT * ADDR_SIZE` -/
def interruptDescriptorTableSize : Addr := BitVec.ofNat 32 interruptsCount * addrSize

/-- `INTERRUPT_DESCRIPTOR_TABLE_ADDRESS` -/
def interruptDescriptorTableAddress : Addr := interruptMaskAddress - interruptDescriptorTableSize

/-- `KEYBOARD_OUT_MEMORY_SIZE` -/
def keyboardOutMemorySize : Addr := 4

/-- `KEYBOARD_OUT_ADDRESS` -/
def keyboardOutAddress : Addr := interruptDescriptorTableAddress - keyboardOutMemorySize

/-- `KEYBOARD_IN_MEMORY_SIZE` -/
def keyboardInMemorySize : Addr := 4

/-- `KEYBOARD_IN_ADDRESS` -/
def keyboardInAddress : Addr := keyboardOutAddress - keyboardInMemorySize

/-- `INT_TIMER` -/
def intTimer : Interrupt := 3

/-- `INT_VSYNC` -/
def intVsync : Interrupt := 4

/-- `INT_KEYBOARD` -/
def intKeyboard : Interrupt := 5

/-! ### Devices -/

/-- The memory `ram` of the machine. -/
def ramRef : Ref := 0

/-- The memory `rom` of the machine. -/
def romRef : Ref := 1

/-- The memory of the interrupt descriptor table. -/
def handlersRef : Ref := 2

/-- The memory of the interrupt mask. -/
def maskRef : Ref := 3

/-- The memory of the keyboard's output. -/
def keyboardOutRef : Ref := 4

/-- The memory of the keyboard's input. -/
def keyboardInRef : Ref := 5

/-- The memory of the video's metadata. -/
def videoMetaRef : Ref := 6

/-- The first buffer of the video. -/
def videoBuffer0Ref : Ref := 7

/-- The second buffer of the video. -/
def videoBuffer1Ref : Ref := 8

/-- `VM`: its memories, its bus and its interrupt controller. -/
structure VM where
  heap : Heap
  bus : Bus
  pic : PIC

section
variable (malloc : Ref → Nat → Word)

/-- `memory_create`, at a reference. -/
def create (heap : Heap) (ref : Ref) (bytes : Addr) (mode : MemMode) : Heap :=
  heap.set ref (memoryCreate (malloc ref) bytes mode)

/-- `pic_create` -/
def picCreate (heap : Heap) (bus : Bus) : VM :=
  let heap := create malloc heap handlersRef interruptDescriptorTableSize .rw
  let heap := create malloc heap maskRef interruptMaskSize .rw
  let bus := attach heap bus ⟨handlersRef, interruptDescriptorTableAddress, "IDT"⟩
  let bus := attach heap bus ⟨maskRef, interruptMaskAddress, "IMask"⟩
  let pic : PIC := ⟨maskRef, handlersRef, fun _ => 0⟩
  let heap := picInterruptMask pic heap intVsync
  let heap := picInterruptMask pic heap intTimer
  let heap := picInterruptMask pic heap intKeyboard
  ⟨heap, bus, pic⟩

/-- `keyboard_create` -/
def keyboardCreate (heap : Heap) (bus : Bus) : Option (Heap × Bus) := do
  let heap := create malloc heap keyboardOutRef keyboardOutMemorySize .rw
  let heap := create malloc heap keyboardInRef keyboardInMemorySize .rw
  let bus := attach heap bus ⟨keyboardOutRef, keyboardOutAddress, "KBOut"⟩
  let bus := attach heap bus ⟨keyboardInRef, keyboardInAddress, "KBIn"⟩
  let bus ← busNotificationRegister heap bus (.device keyboardInRef) keyboardInAddress
  return (heap, bus)

/-- The result of a `memory_word_set` that is not looked at. -/
def setWord (heap : Heap) (ref : Ref) (address : Addr) (word : Word) : Heap :=
  match memoryWordSet (heap ref) address word with
  | .ok memory => heap.set ref memory
  | .error _ => heap

/-- `VIDEO_BIT_ENABLED` -/
def videoBitEnabled : Word := 2

/-- `video_create` -/
def videoCreate (heap : Heap) (bus : Bus) (enable : Bool) : Option (Heap × Bus) := do
  let heap := create malloc heap videoMetaRef videoMetaSize .rw
  let bus := attach heap bus ⟨videoMetaRef, videoMetaAddress, "VMeta"⟩
  let heap := setWord heap videoMetaRef 0 videoBitEnabled
  let (heap, bus) := if enable then
      let heap := create malloc heap videoBuffer0Ref videoBufferSize .rw
      let heap := create malloc heap videoBuffer1Ref videoBufferSize .rw
      let bus := attach heap bus ⟨videoBuffer0Ref, videoBuffer0Address, "VBuf0"⟩
      let bus := attach heap bus ⟨videoBuffer1Ref, videoBuffer1Address, "VBuf1"⟩
      (heap, bus)
    else (heap, bus)
  let bus ← busNotificationRegister heap bus (.device videoMetaRef) videoMetaAddress
  return (heap, bus)

/-- No memory. -/
def noMemories : Heap := fun _ => ⟨fun _ => 0, 0, .r⟩

/-- `vm_create`, with `config->ram_size` and whether `config->video` is not `VM_CONFIG_VIDEO_NONE`, and
without `cpu_create`, which does not look at the memories. -/
def vmCreate (ramSize : Addr) (video : Bool) : Option VM := do
  let heap := create malloc noMemories ramRef ramSize .rw
  let heap := create malloc heap romRef romSize .r
  let vm := picCreate malloc heap busCreate
  let (heap, bus) ← keyboardCreate malloc vm.heap vm.bus
  let (heap, bus) ← videoCreate malloc heap bus video
  let bus := attach heap bus ⟨ramRef, 0, "RAM"⟩
  let bus := attach heap bus ⟨romRef, romAddress, "ROM"⟩
  return ⟨heap, bus, vm.pic⟩

end

end Thorium.Vm
