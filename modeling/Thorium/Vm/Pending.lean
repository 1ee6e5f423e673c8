import Thorium.Lib.BitSet
import Thorium.Vm.MemoryMap

/-!
# Pending interrupts

The interrupt controller is a pair of sets, the pending and the masked interrupts. Each call of `pic.c`
changes one of them by one interrupt, and a write on the bus replaces the 32 of a word of the mask
(`PicOp.run_sets`). `pic_interrupt_active` says whether an interrupt is pending and not masked, and
`pic_interrupt_get` returns the first of them (`pic_refines`).
-/

namespace Thorium.Vm

/-! ### The interrupt that is handled -/

/-- An interrupt is pending and not masked. -/
def deliverable (pic : PIC) (heap : Heap) (i : Interrupt) : Bool :=
  isActive pic (findInterruptLocation i) && !isMasked pic heap (findInterruptLocation i)

section
variable {pic : PIC} {heap : Heap} {i : Interrupt}

/-- An interrupt is active if it is in the active set. -/
lemma isActive_iff : isActive pic (findInterruptLocation i) = true ↔ i.toNat ∈ bitSet pic.activeInterrupts := by
  unfold isActive
  rw [bne_iff_ne]
  exact and_bit_ne_zero (by decide) _ _

/-- An interrupt is masked if it is in the masked set. -/
lemma isMasked_iff : isMasked pic heap (findInterruptLocation i) = true ↔ i.toNat ∈ bitSet (pic.mask heap) := by
  unfold isMasked
  rw [bne_iff_ne]
  exact and_bit_ne_zero (by decide) _ _

/-- It can be delivered if it is active and not masked. -/
lemma deliverable_iff : deliverable pic heap i = true ↔
    i.toNat ∈ bitSet pic.activeInterrupts \ bitSet (pic.mask heap) := by
  unfold deliverable
  rw [Bool.and_eq_true, Bool.not_eq_true', ← Bool.not_eq_true, isActive_iff, isMasked_iff]
  exact Iff.rfl

/-- The loop of `pic_interrupt_get` goes from the location of an interrupt to that of the next. -/
lemma next_location {k : Nat} (hk : k + 1 < 256) : (findInterruptLocation (BitVec.ofNat 8 k)).next =
    findInterruptLocation (BitVec.ofNat 8 (k + 1)) := by
  have h : ∀ k : Fin 255, (findInterruptLocation (BitVec.ofNat 8 k)).next.wordIndex =
        (findInterruptLocation (BitVec.ofNat 8 (k + 1))).wordIndex ∧
      (findInterruptLocation (BitVec.ofNat 8 k)).next.bit =
        (findInterruptLocation (BitVec.ofNat 8 (k + 1))).bit := by decide +kernel
  obtain ⟨h1, h2⟩ := h ⟨k, by omega⟩
  exact IntLoc.mk.injEq _ _ _ _ ▸ ⟨h1, h2⟩

/-- The loop finds the first interrupt that can be delivered. -/
lemma picInterruptGetLoop_first (h : deliverable pic heap i = true)
    (hfirst : ∀ j < i, deliverable pic heap j = false) {n k : Nat} (hn : n + k = 256) (hk : k ≤ i.toNat) :
    picInterruptGetLoop pic heap n k (findInterruptLocation (BitVec.ofNat 8 k)) = i := by
  have hi := i.isLt
  induction n generalizing k with
  | zero => omega
  | succ n ih =>
    unfold picInterruptGetLoop
    by_cases he : k = i.toNat
    · have hki : BitVec.ofNat 8 k = i := by rw [he, BitVec.ofNat_toNat, BitVec.setWidth_eq]
      rw [hki]
      exact if_pos h
    · have hlt : BitVec.ofNat 8 k < i := by
        show (BitVec.ofNat 8 k).toNat < i.toNat
        rw [BitVec.toNat_ofNat]
        omega
      have hd := hfirst _ hlt
      unfold deliverable at hd
      rw [hd, if_neg Bool.false_ne_true, next_location (by omega)]
      exact ih (by omega) (by omega)

/-- The interrupt that is handled is the first deliverable one. -/
lemma picInterruptGet_first (h : deliverable pic heap i = true)
    (hfirst : ∀ j < i, deliverable pic heap j = false) : picInterruptGet pic heap = i :=
  picInterruptGetLoop_first h hfirst rfl (Nat.zero_le _)

/-- Some interrupt is the first deliverable one, if there is one. -/
lemma exists_first (h : ∃ i, deliverable pic heap i = true) :
    ∃ i, deliverable pic heap i = true ∧ ∀ j < i, deliverable pic heap j = false := by
  have hn : ∃ n, ∃ i : Interrupt, i.toNat = n ∧ deliverable pic heap i = true := by
    obtain ⟨i, hi⟩ := h
    exact ⟨i.toNat, i, rfl, hi⟩
  obtain ⟨i, hi, hd⟩ := Nat.find_spec hn
  refine ⟨i, hd, fun j hj => ?_⟩
  have hlt : j.toNat < Nat.find hn := hi ▸ BitVec.lt_def.mp hj
  have hmin := Nat.find_min hn hlt
  cases hdj : deliverable pic heap j with
  | false => rfl
  | true => exact absurd ⟨j, rfl, hdj⟩ hmin

/-- It is noticed that there is a deliverable interrupt. -/
lemma picInterruptActive_iff : picInterruptActive pic heap = true ↔ ∃ i, deliverable pic heap i = true := by
  have hword (k : Nat) := @and_not_ne_zero 32 (by decide) pic.activeInterrupts (pic.mask heap) k
  unfold picInterruptActive
  rw [List.any_eq_true]
  constructor
  · rintro ⟨k, hk, hne⟩
    obtain ⟨n, hn, hdiv⟩ := (hword k).mp (bne_iff_ne.mp hne)
    have hlt : k < 8 := List.mem_range.mp hk
    have hi : (BitVec.ofNat 8 n).toNat = n := Nat.mod_eq_of_lt (by omega)
    exact ⟨BitVec.ofNat 8 n, deliverable_iff.mpr (hi.symm ▸ hn)⟩
  · rintro ⟨i, hi⟩
    have hlt := i.isLt
    refine ⟨i.toNat / 32, List.mem_range.mpr (show i.toNat / 32 < 8 by omega), bne_iff_ne.mpr ?_⟩
    exact (hword _).mpr ⟨i.toNat, deliverable_iff.mp hi, rfl⟩

/-- The interrupt that is handled is deliverable, and the first such. -/
lemma picInterruptGet_spec (h : picInterruptActive pic heap = true) :
    deliverable pic heap (picInterruptGet pic heap) = true ∧
      ∀ j, deliverable pic heap j = true → picInterruptGet pic heap ≤ j := by
  obtain ⟨i, hi, hfirst⟩ := exists_first (picInterruptActive_iff.mp h)
  rw [picInterruptGet_first hi hfirst]
  refine ⟨hi, fun j hj => BitVec.not_lt.mp fun hlt => ?_⟩
  exact absurd hj (hfirst j hlt ▸ Bool.false_ne_true)

end

/-! ### The two sets -/

/-- The pending and the masked interrupts. -/
structure Interrupts where
  pending : Set Interrupt
  masked : Set Interrupt

/-- The sets that the controller of a machine keeps. -/
def VM.sets (vm : VM) : Interrupts where
  pending := { i | isActive vm.pic (findInterruptLocation i) = true }
  masked := { i | isMasked vm.pic vm.heap (findInterruptLocation i) = true }

/-- The calls of `pic.c` that change the controller, and the writes on the bus to the mask. -/
inductive PicOp where
  | trigger (i : Interrupt)
  | reset (i : Interrupt)
  | mask (i : Interrupt)
  | unmask (i : Interrupt)
  | write (offset : Addr) (inside : offset < interruptMaskSize) (word : Word)

namespace PicOp

/-- What a call does to a machine. -/
def run : PicOp → VM → Option VM
  | .trigger i, vm => some { vm with pic := picInterruptTrigger vm.pic i }
  | .reset i, vm => some { vm with pic := picInterruptReset vm.pic i }
  | .mask i, vm => some { vm with heap := picInterruptMask vm.pic vm.heap i }
  | .unmask i, vm => some { vm with heap := picInterruptUnmask vm.pic vm.heap i }
  | .write offset _ word, vm =>
    match busWordWrite vm.heap vm.bus (interruptMaskAddress + offset) word with
    | some (.ok (heap, _)) => some { vm with heap := heap }
    | some (.error _) => some vm
    | none => none

/-- What a call does to the sets. A write that is not at a word is refused. -/
def apply : PicOp → Interrupts → Interrupts
  | .trigger i, s => { s with pending := insert i s.pending }
  | .reset i, s => { s with pending := s.pending \ {i} }
  | .mask i, s => { s with masked := insert i s.masked }
  | .unmask i, s => { s with masked := s.masked \ {i} }
  | .write offset _ word, s =>
    if offset % wordSize = 0 then
      { s with masked := { i | if i.toNat / 32 = offset.toNat / 4 then word.getLsbD (i.toNat % 32) = true
          else i ∈ s.masked } }
    else s

end PicOp

/-- A sequence of calls. -/
def picRun : List PicOp → VM → Option VM
  | [], vm => some vm
  | op :: ops, vm => (op.run vm).bind (picRun ops)

/-- A sequence of calls, on the sets. -/
def picApply : List PicOp → Interrupts → Interrupts
  | [], s => s
  | op :: ops, s => picApply ops (op.apply s)

/-- The sets after `pic_create`. -/
def Interrupts.initial : Interrupts where
  pending := ∅
  masked := {intTimer, intVsync, intKeyboard}

/-! ### One call -/

section
variable {vm vm' : VM} {pic : PIC} {heap heap' : Heap} {memory : Memory} {k n : Nat} {word : Word} {i j : Interrupt}

/-- The memory of the mask. -/
structure MaskMemory (memory : Memory) : Prop where
  size : memory.size = interruptMaskSize
  mode : memory.mode = .rw

/-- The words of the mask have an address. -/
lemma maskAddress (hk : k < 8) : (BitVec.ofNat 32 k * wordSize) % wordSize = 0 ∧
    (BitVec.ofNat 32 k * wordSize / wordSize).toNat = k ∧
      ¬ interruptMaskSize < BitVec.ofNat 32 k * wordSize + wordSize := by
  have h : ∀ k : Fin 8, (BitVec.ofNat 32 k * wordSize) % wordSize = 0 ∧
      (BitVec.ofNat 32 k * wordSize / wordSize).toNat = k ∧
        ¬ interruptMaskSize < BitVec.ofNat 32 k * wordSize + wordSize := by decide +kernel
  exact h ⟨k, hk⟩

/-- A word of the mask is that of its memory. -/
lemma mask_eq (hm : MaskMemory (heap pic.interruptMask)) (hk : k < 8) :
    pic.mask heap k = (heap pic.interruptMask).raw k := by
  obtain ⟨haligned, hindex, hfit⟩ := maskAddress hk
  have hget : memoryWordGet (heap pic.interruptMask) (BitVec.ofNat 32 k * wordSize) =
      .ok ((heap pic.interruptMask).raw k) := by
    rw [memoryWordGet, if_neg (not_not.mpr haligned), hm.size, if_neg hfit, hindex]
  rw [PIC.mask, hget]

/-- A memory with another word. -/
def Memory.setRaw (memory : Memory) (k : Nat) (word : Word) : Memory :=
  { memory with raw := setWordAt memory.raw k word }

/-- The memory that has been set. -/
lemma heap_set_self (heap : Heap) (r : Ref) (memory : Memory) : heap.set r memory r = memory := if_pos rfl

/-- The words of the mask after one of them has been set. -/
lemma mask_set (hm : MaskMemory (heap pic.interruptMask)) (hk : k < 8) (n : Nat) (word : Word) :
    pic.mask (heap.set pic.interruptMask ((heap pic.interruptMask).setRaw n word)) k =
      setWordAt (pic.mask heap) n word k := by
  have hm' : MaskMemory (heap.set pic.interruptMask ((heap pic.interruptMask).setRaw n word)
      pic.interruptMask) := by
    rw [heap_set_self]
    exact ⟨hm.size, hm.mode⟩
  have hold := mask_eq hm hk
  rw [mask_eq hm' hk, heap_set_self]
  unfold Memory.setRaw setWordAt
  dsimp only
  split
  · rfl
  · exact hold.symm

/-- A word of the mask is a word of its memory. -/
lemma setMask_eq (hm : MaskMemory (heap pic.interruptMask)) (hn : n < 8) (word : Word) :
    pic.setMask heap n word = heap.set pic.interruptMask ((heap pic.interruptMask).setRaw n word) := by
  obtain ⟨haligned, hindex, hfit⟩ := maskAddress hn
  have hset : memoryWordSet (heap pic.interruptMask) (BitVec.ofNat 32 n * wordSize) word =
      .ok ((heap pic.interruptMask).setRaw n word) := by
    unfold memoryWordSet Memory.setRaw setWordAt
    rw [if_neg (not_not.mpr hm.mode), if_neg (not_not.mpr haligned), if_neg (hm.size ▸ hfit), hindex]
  rw [PIC.setMask, hset]

/-- A controller whose mask is on the bus. -/
structure Controller (vm : VM) : Prop where
  memory : MaskMemory (vm.heap vm.pic.interruptMask)
  found : ∀ offset < interruptMaskSize, ∃ zone,
    findZone vm.heap vm.bus (interruptMaskAddress + offset) = some zone ∧
      zone.memory = vm.pic.interruptMask ∧ zone.from = interruptMaskAddress

/-- The words of the mask that hold the interrupts. -/
lemma word_lt (i : Interrupt) : i.toNat / 32 < 8 := by
  have := i.isLt
  omega

/-- A set depends on the word of its number only. -/
lemma mem_bitSet_congr {words words' : Nat → Word} (h : words (i.toNat / 32) = words' (i.toNat / 32)) :
    i.toNat ∈ bitSet words ↔ i.toNat ∈ bitSet words' := by
  show (words _).getLsbD _ = true ↔ (words' _).getLsbD _ = true
  rw [h]

/-- The machine after the mask has got another word. -/
def VM.setMaskWord (vm : VM) (n : Nat) (word : Word) : VM :=
  { vm with heap := vm.heap.set vm.pic.interruptMask ((vm.heap vm.pic.interruptMask).setRaw n word) }

/-- A word of the mask keeps the controller. -/
lemma Controller.setMaskWord (hc : Controller vm) (n : Nat) (word : Word) :
    Controller (vm.setMaskWord n word) := by
  have hshape : Shape vm.heap (vm.setMaskWord n word).heap := by
    intro r
    show (Heap.set _ _ _ r).size = _ ∧ (Heap.set _ _ _ r).mode = _
    unfold Heap.set
    split
    · rename_i e
      subst e
      exact ⟨rfl, rfl⟩
    · exact ⟨rfl, rfl⟩
  constructor
  · exact ⟨(hshape _).1.trans hc.memory.size, (hshape _).2.trans hc.memory.mode⟩
  · intro offset hlt
    obtain ⟨zone, hz, hmemory, hfrom⟩ := hc.found offset hlt
    exact ⟨zone, (findZone_shape hshape _ _).trans hz, hmemory, hfrom⟩

/-- The sets after the mask has got another word. -/
lemma Controller.sets_setMaskWord (hc : Controller vm) (n : Nat) (word : Word) :
    (vm.setMaskWord n word).sets = { vm.sets with
      masked := { i | i.toNat ∈ bitSet (setWordAt (vm.pic.mask vm.heap) n word) } } := by
  have hmasked : (vm.setMaskWord n word).sets.masked =
      { i | i.toNat ∈ bitSet (setWordAt (vm.pic.mask vm.heap) n word) } := by
    ext i
    exact isMasked_iff.trans (mem_bitSet_congr (mask_set hc.memory (word_lt i) n word))
  exact Interrupts.mk.injEq _ _ _ _ ▸ ⟨rfl, hmasked⟩

/-- The words of the pending interrupts after a change of one of them. -/
lemma modify_active (pic : PIC) (k : Nat) (f : Word → Word) : (pic.modify k f).activeInterrupts =
    setWordAt pic.activeInterrupts k (f (pic.activeInterrupts k)) := by
  funext n
  show (if n = k then f (pic.activeInterrupts n) else pic.activeInterrupts n) = if n = k then _ else _
  split
  · rename_i e
    rw [e]
  · rfl

/-- So does a trigger. -/
lemma Controller.trigger (hc : Controller vm) (i : Interrupt) :
    Controller { vm with pic := picInterruptTrigger vm.pic i } := ⟨hc.memory, hc.found⟩

/-- So does a reset. -/
lemma Controller.reset (hc : Controller vm) (i : Interrupt) :
    Controller { vm with pic := picInterruptReset vm.pic i } := ⟨hc.memory, hc.found⟩

/-- Membership after a trigger. -/
lemma mem_insert_iff (i j : Interrupt) (s : Set Nat) : j.toNat ∈ insert i.toNat s ↔ j = i ∨ j.toNat ∈ s := by
  rw [Set.mem_insert_iff, BitVec.toNat_inj]

/-- Membership after a reset. -/
lemma mem_remove_iff (i j : Interrupt) (s : Set Nat) : j.toNat ∈ s \ {i.toNat} ↔ j.toNat ∈ s ∧ j ≠ i := by
  rw [Set.mem_sdiff, Set.mem_singleton_iff, BitVec.toNat_inj]

/-- A trigger makes its interrupt pending. -/
lemma isActive_trigger (pic : PIC) (i j : Interrupt) :
    isActive (picInterruptTrigger pic i) (findInterruptLocation j) = true ↔
      j = i ∨ isActive pic (findInterruptLocation j) = true := by
  have hor := @bitSet_or 32 (by decide) pic.activeInterrupts i.toNat
  rw [isActive_iff, isActive_iff, ← mem_insert_iff, ← hor]
  unfold picInterruptTrigger
  rw [modify_active]
  exact Iff.rfl

/-- A reset ends its being pending. -/
lemma isActive_reset (pic : PIC) (i j : Interrupt) :
    isActive (picInterruptReset pic i) (findInterruptLocation j) = true ↔
      isActive pic (findInterruptLocation j) = true ∧ j ≠ i := by
  have hand := @bitSet_and_not 32 (by decide) pic.activeInterrupts i.toNat
  rw [isActive_iff, isActive_iff, ← mem_remove_iff, ← hand]
  unfold picInterruptReset
  rw [modify_active]
  exact Iff.rfl

/-- What `pic_interrupt_mask` and `pic_interrupt_unmask` do to the mask. -/
lemma Controller.setMask_run {n : Nat} (hc : Controller vm) (hn : n < 8) (word : Word) :
    some { vm with heap := vm.pic.setMask vm.heap n word } = some (vm.setMaskWord n word) := by
  rw [setMask_eq hc.memory hn]
  rfl

/-- The offset of an address of the mask in the memory that is found there. -/
lemma Controller.found_offset {offset : Addr} (hc : Controller vm) (inside : offset < interruptMaskSize) :
    ∃ zone, findZone vm.heap vm.bus (interruptMaskAddress + offset) = some zone ∧
      zone.memory = vm.pic.interruptMask ∧ translate zone (interruptMaskAddress + offset) = offset := by
  obtain ⟨zone, hz, hmemory, hfrom⟩ := hc.found offset inside
  refine ⟨zone, hz, hmemory, ?_⟩
  unfold translate
  rw [hfrom]
  bv_omega

/-- A write to an aligned address of the mask. -/
lemma Controller.run_write {offset : Addr} (hc : Controller vm) (inside : offset < interruptMaskSize)
    (ha : offset % wordSize = 0) :
    (PicOp.write offset inside word).run vm = some (vm.setMaskWord (offset.toNat / 4) word) := by
  obtain ⟨zone, hz, hmemory, htr⟩ := hc.found_offset inside
  have hfit : ¬ interruptMaskSize < offset + wordSize := by
    have ho : offset.toNat % 4 = 0 := congrArg BitVec.toNat ha
    have hi : offset.toNat < 32 := inside
    show ¬ 32 < (offset.toNat + 4) % 2 ^ 32
    omega
  have hset : memoryWordSet (vm.heap vm.pic.interruptMask) offset word =
      .ok ((vm.heap vm.pic.interruptMask).setRaw (offset.toNat / 4) word) := by
    unfold memoryWordSet Memory.setRaw setWordAt
    rw [if_neg (not_not.mpr hc.memory.mode), if_neg (not_not.mpr ha), if_neg (hc.memory.size ▸ hfit)]
    rfl
  unfold PicOp.run
  dsimp only
  unfold busWordWrite
  rw [hz]
  dsimp only
  rw [htr, hmemory, hset]
  rfl

/-- A write to another address is refused. -/
lemma Controller.run_write_refused {offset : Addr} (hc : Controller vm) (inside : offset < interruptMaskSize)
    (ha : ¬ offset % wordSize = 0) : (PicOp.write offset inside word).run vm = some vm := by
  obtain ⟨zone, hz, hmemory, htr⟩ := hc.found_offset inside
  unfold PicOp.run
  dsimp only
  unfold busWordWrite
  rw [hz]
  dsimp only
  rw [htr, hmemory, memoryWordSet, if_neg (not_not.mpr hc.memory.mode), if_pos ha]
  rfl

/-- A call does to the sets what it is for. -/
lemma PicOp.run_sets (hc : Controller vm) (op : PicOp) :
    ∃ vm', op.run vm = some vm' ∧ Controller vm' ∧ vm'.sets = op.apply vm.sets := by
  cases op with
  | trigger i =>
    have hpending : { j | isActive (picInterruptTrigger vm.pic i) (findInterruptLocation j) = true } =
        insert i vm.sets.pending := Set.ext fun j => isActive_trigger vm.pic i j
    exact ⟨_, rfl, hc.trigger i, Interrupts.mk.injEq _ _ _ _ ▸ ⟨hpending, rfl⟩⟩
  | reset i =>
    have hpending : { j | isActive (picInterruptReset vm.pic i) (findInterruptLocation j) = true } =
        vm.sets.pending \ {i} := Set.ext fun j => isActive_reset vm.pic i j
    exact ⟨_, rfl, hc.reset i, Interrupts.mk.injEq _ _ _ _ ▸ ⟨hpending, rfl⟩⟩
  | mask i =>
    have hrun : (PicOp.mask i).run vm = some (vm.setMaskWord (i.toNat / 32)
        (vm.pic.mask vm.heap (i.toNat / 32) ||| (1 : Word) <<< (i.toNat % 32))) :=
      hc.setMask_run (word_lt i) _
    refine ⟨_, hrun, hc.setMaskWord _ _, ?_⟩
    have hmasked : { j : Interrupt | j.toNat ∈ insert i.toNat (bitSet (vm.pic.mask vm.heap)) } =
        insert i vm.sets.masked := by
      ext j
      exact (mem_insert_iff i j _).trans (or_congr Iff.rfl isMasked_iff.symm)
    rw [hc.sets_setMaskWord, bitSet_or (by decide), hmasked]
    rfl
  | unmask i =>
    have hrun : (PicOp.unmask i).run vm = some (vm.setMaskWord (i.toNat / 32)
        (vm.pic.mask vm.heap (i.toNat / 32) &&& ~~~((1 : Word) <<< (i.toNat % 32)))) :=
      hc.setMask_run (word_lt i) _
    refine ⟨_, hrun, hc.setMaskWord _ _, ?_⟩
    have hmasked : { j : Interrupt | j.toNat ∈ bitSet (vm.pic.mask vm.heap) \ {i.toNat} } =
        vm.sets.masked \ {i} := by
      ext j
      exact (mem_remove_iff i j _).trans (and_congr isMasked_iff.symm Iff.rfl)
    rw [hc.sets_setMaskWord, bitSet_and_not (by decide), hmasked]
    rfl
  | write offset inside word =>
    by_cases ha : offset % wordSize = 0
    · refine ⟨_, hc.run_write inside ha, hc.setMaskWord _ _, ?_⟩
      have hmasked : { i : Interrupt |
          i.toNat ∈ bitSet (setWordAt (vm.pic.mask vm.heap) (offset.toNat / 4) word) } =
          { i | if i.toNat / 32 = offset.toNat / 4 then word.getLsbD (i.toNat % 32) = true
            else i ∈ vm.sets.masked } := by
        ext i
        refine (mem_setWordAt _ _ _ _).trans ?_
        show (if _ then _ else _) ↔ (if _ then _ else _)
        split
        · exact Iff.rfl
        · exact isMasked_iff.symm
      unfold apply
      dsimp only
      rw [if_pos ha, hc.sets_setMaskWord, hmasked]
    · refine ⟨vm, hc.run_write_refused inside ha, hc, ?_⟩
      unfold apply
      dsimp only
      rw [if_neg ha]

/-! ### Runs -/

/-- Calls do to the sets what they are for. -/
lemma picRun_sets (hc : Controller vm) (ops : List PicOp) :
    ∃ vm', picRun ops vm = some vm' ∧ Controller vm' ∧ vm'.sets = picApply ops vm.sets := by
  induction ops generalizing vm with
  | nil => exact ⟨vm, rfl, hc, rfl⟩
  | cons op ops ih =>
    obtain ⟨vm1, hrun, hc1, hsets⟩ := op.run_sets hc
    obtain ⟨vm', hrun', hc', hsets'⟩ := ih hc1
    refine ⟨vm', ?_, hc', ?_⟩
    · rw [picRun, hrun]
      exact hrun'
    · rw [hsets', hsets]
      rfl

/-- The machine of `pic_create` before it masks the first interrupt. -/
def picBlank (malloc : Ref → Nat → Word) (heap : Heap) : VM :=
  ⟨create malloc (create malloc heap handlersRef interruptDescriptorTableSize .rw) maskRef interruptMaskSize .rw,
    (picCreate malloc heap busCreate).bus, ⟨maskRef, handlersRef, fun _ => 0⟩⟩

end

section
variable (malloc : Ref → Nat → Word) (heap : Heap)

/-- The memory of the mask before it is cleared. -/
lemma picBlank_memory :
    (picBlank malloc heap).heap maskRef = memoryCreate (malloc maskRef) interruptMaskSize .rw := by
  unfold picBlank create
  dsimp only
  exact heap_set_self _ _ _

/-- The controller is one before the mask is cleared. -/
lemma picBlank_controller : Controller (picBlank malloc heap) where
  memory := by
    show MaskMemory ((picBlank malloc heap).heap maskRef)
    rw [picBlank_memory]
    have hround : roundUp interruptMaskSize = interruptMaskSize := by decide
    exact ⟨hround, rfl⟩
  found := by
    intro offset hlt
    refine ⟨⟨maskRef, interruptMaskAddress, "IMask", []⟩, ?_, rfl, rfl⟩
    have hz : (picBlank malloc heap).bus.zones = picZones := by
      unfold picBlank
      exact (@picCreate_ok malloc heap).1
    have hsize : ((picBlank malloc heap).heap handlersRef).size = 1024#32 := by
      simp [picBlank, create_size, roundUp, wordSize, sizes_eq, refs_eq]
    have hsize' : ((picBlank malloc heap).heap maskRef).size = 32#32 := by
      simp [picBlank, create_size, roundUp, wordSize, sizes_eq, refs_eq]
    obtain ⟨_, _, _, _, hmask, hidt, _⟩ := addresses_eq
    have hlt' : offset.toNat < 32 := hlt
    have hout : inZone (picBlank malloc heap).heap ⟨handlersRef, interruptDescriptorTableAddress, "IDT", []⟩
        (interruptMaskAddress + offset) = false := by
      unfold inZone memoryMaxAddress
      dsimp only
      rw [hsize, hmask, hidt, Bool.and_eq_false_iff]
      exact .inr (decide_eq_false (by bv_omega))
    have hin : inZone (picBlank malloc heap).heap ⟨maskRef, interruptMaskAddress, "IMask", []⟩
        (interruptMaskAddress + offset) = true := by
      unfold inZone memoryMaxAddress
      dsimp only
      rw [hsize', hmask, Bool.and_eq_true]
      exact ⟨decide_eq_true (by bv_omega), decide_eq_true (by bv_omega)⟩
    unfold findZone
    rw [hz, picZones, List.find?_cons_of_neg (hout ▸ Bool.false_ne_true)]
    exact List.find?_cons_of_pos hin

/-- Nothing is pending or masked yet. -/
lemma picBlank_sets : (picBlank malloc heap).sets = ⟨∅, ∅⟩ := by
  have hpending : (picBlank malloc heap).sets.pending = ∅ := by
    apply Set.eq_empty_of_forall_notMem
    intro i hi
    exact Bool.false_ne_true (BitVec.getLsbD_zero.symm.trans (isActive_iff.mp hi))
  have hmasked : (picBlank malloc heap).sets.masked = ∅ := by
    apply Set.eq_empty_of_forall_notMem
    intro i hi
    have hraw : (memoryCreate (malloc maskRef) interruptMaskSize .rw).raw (i.toNat / 32) = 0 :=
      if_pos (word_lt i)
    have hm := mask_eq (picBlank_controller malloc heap).memory (word_lt i)
    have hzero : (picBlank malloc heap).pic.mask (picBlank malloc heap).heap (i.toNat / 32) = 0 := by
      rw [hm]
      exact (congrArg (fun m => Memory.raw m (i.toNat / 32)) (picBlank_memory malloc heap)).trans hraw
    have hbit : ((picBlank malloc heap).pic.mask (picBlank malloc heap).heap (i.toNat / 32)).getLsbD
        (i.toNat % 32) = true := isMasked_iff.mp hi
    rw [hzero] at hbit
    exact Bool.false_ne_true (BitVec.getLsbD_zero.symm.trans hbit)
  exact Interrupts.mk.injEq _ _ _ _ ▸ ⟨hpending, hmasked⟩

/-- `pic_create` masks three interrupts. -/
lemma picCreate_sets : Controller (picCreate malloc heap busCreate) ∧
    (picCreate malloc heap busCreate).sets = .initial := by
  obtain ⟨vm, hrun, hc, hsets⟩ := picRun_sets (picBlank_controller malloc heap)
    [.mask intVsync, .mask intTimer, .mask intKeyboard]
  have hpic : picRun [.mask intVsync, .mask intTimer, .mask intKeyboard] (picBlank malloc heap) =
      some (picCreate malloc heap busCreate) := by
    simp only [picRun, PicOp.run, Option.bind_some, picBlank, picCreate]
  obtain rfl := Option.some.inj (hpic.symm.trans hrun)
  refine ⟨hc, hsets.trans ?_⟩
  rw [picBlank_sets]
  have hmasked : insert intKeyboard (insert intTimer (insert intVsync (∅ : Set Interrupt))) =
      {intTimer, intVsync, intKeyboard} := by
    rw [Set.insert_comm intKeyboard intTimer, Set.insert_comm intKeyboard intVsync, insert_empty_eq]
  exact Interrupts.mk.injEq _ _ _ _ ▸ ⟨rfl, hmasked⟩

/-- **The interrupt controller** keeps a pair of sets from `pic_create` on. -/
theorem pic_refines (ops : List PicOp) : ∃ vm, picRun ops (picCreate malloc heap busCreate) = some vm ∧
    vm.sets = picApply ops .initial ∧
      (picInterruptActive vm.pic vm.heap = true ↔ (vm.sets.pending \ vm.sets.masked).Nonempty) ∧
        ((vm.sets.pending \ vm.sets.masked).Nonempty →
          picInterruptGet vm.pic vm.heap ∈ vm.sets.pending \ vm.sets.masked ∧
            ∀ i ∈ vm.sets.pending \ vm.sets.masked, picInterruptGet vm.pic vm.heap ≤ i) := by
  obtain ⟨hcreate, hinitial⟩ := picCreate_sets malloc heap
  obtain ⟨vm, hrun, hc, hsets⟩ := picRun_sets hcreate ops
  have hmem (i : Interrupt) : deliverable vm.pic vm.heap i = true ↔ i ∈ vm.sets.pending \ vm.sets.masked := by
    unfold deliverable
    rw [Bool.and_eq_true, Bool.not_eq_true', ← Bool.not_eq_true]
    exact Iff.rfl
  have hactive : picInterruptActive vm.pic vm.heap = true ↔ (vm.sets.pending \ vm.sets.masked).Nonempty :=
    picInterruptActive_iff.trans (exists_congr hmem)
  refine ⟨vm, hrun, hinitial ▸ hsets, hactive, fun hne => ?_⟩
  obtain ⟨hget, hfirst⟩ := picInterruptGet_spec (hactive.mpr hne)
  exact ⟨(hmem _).mp hget, fun i hi => hfirst i ((hmem i).mpr hi)⟩

end

end Thorium.Vm
