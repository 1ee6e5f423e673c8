import Thorium.Lib.Bytes

/-!
# Memory

Model of `src/vm/memory.c` and of the constants and conversions of `src/vm/vmarch.h`. A host is known by
its byte order. A function that returns an error code returns `Except`, its `_OK` code being `ok`.
-/

namespace Thorium.Vm

/-- The machine the VM is compiled for. -/
class Host where
  byteOrder : ByteOrder

/-- `addr_t` -/
abbrev Addr := Word

/-- `WORD_SIZE` -/
def wordSize : Word := 4

/-- `ADDR_SIZE` -/
def addrSize : Word := 4

/-- `STACK_LENGTH` -/
def stackLength : Addr := 1024

/-- `STACK_SIZE` -/
def stackSize : Addr := stackLength * wordSize

/-- `ROM_SIZE` -/
def romSize : Addr := 32 * 1024 * 1024

/-- `ROM_ADDRESS` -/
def romAddress : Addr := -romSize

section
variable [Host]

/-- `vtoh` -/
def vtoh (word : Word) : Word := Host.byteOrder.ntoh word

/-- `htov` -/
def htov (word : Word) : Word := Host.byteOrder.hton word

/-- `((uint8_t *) &word)[k]` -/
def byteOf (word : Word) (k : Nat) : Byte := Host.byteOrder.byteAt word k

end

/-- `MemMode` -/
inductive MemMode where
  | r | rw
  deriving DecidableEq, Repr

/-- `MemError` -/
inductive MemError where
  | outOfBound | notAligned | notWritable
  deriving DecidableEq, Repr

/-- `Memory`. The words of `raw` from `size / 4` on do not exist. -/
structure Memory where
  raw : Nat → Word
  size : Addr
  mode : MemMode

/-- `ROUND_UP` -/
def roundUp (i : Addr) : Addr := (i + wordSize - 1) / wordSize * wordSize

/-- `memory_create`, on the words that `malloc` returns. -/
def memoryCreate (malloc : Nat → Word) (bytes : Addr) (mode : MemMode) : Memory where
  raw := fun i => if i < bytes.toNat / 4 then 0 else malloc i
  size := roundUp bytes
  mode := mode

/-- `memory_word_get` -/
def memoryWordGet (memory : Memory) (address : Addr) : Except MemError Word :=
  if address % wordSize ≠ 0 then .error .notAligned
  else if memory.size < address + wordSize then .error .outOfBound
  else .ok (memory.raw (address / wordSize).toNat)

/-- `memory_word_set` -/
def memoryWordSet (memory : Memory) (address : Addr) (word : Word) : Except MemError Memory :=
  if memory.mode ≠ .rw then .error .notWritable
  else if address % wordSize ≠ 0 then .error .notAligned
  else if memory.size < address + wordSize then .error .outOfBound
  else .ok { memory with
    raw := fun i => if i = (address / wordSize).toNat then word else memory.raw i }

/-- A word that can be set can be got. -/
lemma memoryWordGet_of_set {memory memory' : Memory} {address : Addr} {word : Word}
    (h : memoryWordSet memory address word = .ok memory') :
    memoryWordGet memory address = .ok (memory.raw (address / wordSize).toNat) := by
  unfold memoryWordSet at h
  unfold memoryWordGet
  split at h
  · cases h
  · split at h
    · cases h
    · rename_i ha
      split at h
      · cases h
      · rename_i hs
        rw [if_neg ha, if_neg hs]

end Thorium.Vm
