import Thorium.Vm.Changes

/-!
# Read-only memory

No turn of the loop changes a word of a memory with the mode `r`. A CPU `Keeps` another when it has the
same bus, memories of the same shapes, and the same words in the read-only ones. Every change of an
operation keeps them (`Change.keeps`), so every number of turns does (`cpuTurns_keeps`).
-/

namespace Thorium.Vm
open Thorium.Isa Thorium.Run

/-! ### Memories -/

/-- The memories have kept their shapes and, where they are read-only, their words. -/
structure Heap.Keeps (heap heap' : Heap) : Prop where
  shape : Shape heap heap'
  words : ∀ r, (heap r).mode = .r → (heap' r).raw = (heap r).raw

/-- There is a word of read-only memory at an address. -/
def ReadOnly (heap : Heap) (bus : Bus) (a : Addr) : Prop :=
  ∃ zone, findZone heap bus a = some zone ∧ (heap zone.memory).mode = .r

section
variable {heap heap' : Heap} {bus : Bus} {a : Addr} {w : Word} {conds : List Cond}

/-- A heap keeps what it has. -/
lemma Heap.Keeps.refl (heap : Heap) : heap.Keeps heap := ⟨.refl heap, fun _ _ => rfl⟩

/-- What is kept by two changes. -/
lemma Heap.Keeps.trans {h1 h2 h3 : Heap} (h : h1.Keeps h2) (h' : h2.Keeps h3) : h1.Keeps h3 where
  shape := h.shape.trans h'.shape
  words := fun r hr => (h'.words r ((h.shape r).2.trans hr)).trans (h.words r hr)

/-- A word can be set in a writable memory only. -/
lemma memoryWordSet_keeps {r : Ref} {memory : Memory} (h : memoryWordSet (heap r) a w = .ok memory) :
    heap.Keeps (heap.set r memory) := by
  have hmode : (heap r).mode ≠ .r := fun hm => by
    rw [memoryWordSet, hm, if_pos (by decide)] at h
    cases h
  exact ⟨memoryWordSet_shape h, fun r' hr => congrArg Memory.raw (if_neg fun e : r' = r => hmode (e ▸ hr))⟩

/-- A write through the bus keeps the words of the ROM. -/
lemma busWordWrite_keeps (h : busWordWrite heap bus a w = some (.ok (heap', conds))) :
    heap.Keeps heap' := by
  obtain ⟨zone, memory, _, hm, rfl⟩ := busWordWrite_ok h
  exact memoryWordSet_keeps hm

/-- So does the mask. -/
lemma setMask_keeps (pic : PIC) (n : Nat) (mask : Word) : heap.Keeps (pic.setMask heap n mask) := by
  unfold PIC.setMask
  split
  · exact memoryWordSet_keeps ‹_›
  · exact .refl heap

/-- The words of read-only memory are read as before. -/
lemma Heap.Keeps.read (h : heap.Keeps heap') (ha : ReadOnly heap bus a) :
    busWordRead heap' bus a = busWordRead heap bus a := by
  obtain ⟨zone, hz, hmode⟩ := ha
  unfold busWordRead memoryWordGet
  rw [findZone_shape h.shape, hz]
  dsimp only
  rw [h.words _ hmode, (h.shape _).1]

/-- Read-only code stays read-only. -/
lemma ReadOnly.keeps (ha : ReadOnly heap bus a) (h : heap.Keeps heap') : ReadOnly heap' bus a := by
  obtain ⟨zone, hz, hmode⟩ := ha
  exact ⟨zone, (findZone_shape h.shape bus a).trans hz, ((h.shape _).2).trans hmode⟩

/-- A write through a zone of a read-only memory is refused. -/
lemma busWordWrite_readOnly {zone : Zone} {a : Addr} (hz : findZone heap bus a = some zone)
    (hmode : (heap zone.memory).mode = .r) (w : Word) :
    busWordWrite heap bus a w = some (.error .illegalAccess) := by
  unfold busWordWrite
  rw [hz]
  dsimp only
  rw [memoryWordSet, hmode, if_pos (by decide)]
  rfl

end

/-! ### Operations -/

/-- The CPU has the bus, the number of registers and the read-only memories of another. -/
structure CPU.Keeps (s cpu : CPU) : Prop where
  heap : s.heap.Keeps cpu.heap
  bus : cpu.bus = s.bus
  registerCount : cpu.registerCount = s.registerCount

section
variable {s : CPU}

/-- A CPU keeps what it has. -/
lemma CPU.Keeps.refl (s : CPU) : s.Keeps s := ⟨.refl _, rfl, rfl⟩

/-- What is kept by two runs. -/
lemma CPU.Keeps.trans {s1 s2 s3 : CPU} (h : s1.Keeps s2) (h' : s2.Keeps s3) : s1.Keeps s3 where
  heap := h.heap.trans h'.heap
  bus := h'.bus.trans h.bus
  registerCount := h'.registerCount.trans h.registerCount

/-- A CPU with the same memories. -/
lemma keeps_of_eq {cpu cpu' : CPU} (hh : cpu'.heap = cpu.heap) (hb : cpu'.bus = cpu.bus)
    (hc : cpu'.registerCount = cpu.registerCount) : cpu.Keeps cpu' := ⟨hh ▸ .refl _, hb, hc⟩

/-- No change writes to read-only memory. -/
lemma Change.keeps {k : Kind} {s s' : CPU} (h : Change k s s') : s.Keeps s' := by
  cases h with
  | register hv =>
    obtain ⟨hh, hb, hc, _⟩ := setRegister_keeps hv
    exact keeps_of_eq hh hb hc
  | store hw => exact ⟨busWordWrite_keeps hw, rfl, rfl⟩
  | mask n w => exact ⟨setMask_keeps _ _ _, rfl, rfl⟩
  | _ => exact keeps_of_eq rfl rfl rfl

/-- What a turn changes keeps the words of the ROM. -/
lemma changes_keep {kinds : List Kind} {α : Type} {m : Run CPU α} (hm : Changing kinds m) :
    Triple (CPU.Keeps s) m fun _ => CPU.Keeps s := by
  apply hm.invariant
  rintro s1 s2 ⟨k, _, hc⟩ h
  exact h.trans hc.keeps

/-- No run of the loop changes the bus, a register count, the shape of a memory or a word of a read-only
one. -/
theorem cpuTurns_keeps [Host] (n : Nat) : Triple (CPU.Keeps s) (cpuTurns n) fun _ => CPU.Keeps s := by
  induction n with
  | zero => exact Triple.pure fun _ h => h
  | succ n ih => exact (changes_keep cpuTurn_changes).bind fun _ => ih

end

end Thorium.Vm
