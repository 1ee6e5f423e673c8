import Thorium.Vm.Bounds
import Thorium.Vm.Machine

/-!
# The memory map

Which memory serves an address after `vm_create`. The devices keep apart from each other, but the RAM is
attached at 0 without a look at its end: it hides the devices as soon as it reaches the first of them. A
RAM of size 0 covers every address, since the last address of its zone is below the first one. It is the
size after the rounding that counts, and this wraps around (`memoryMap_iff`).
-/

namespace Thorium.Vm

/-! ### Searching a zone -/

section
variable {heap heap' : Heap} {bus : Bus} {zone : Zone}

/-- The words of a region of the bus are those of a memory, whatever the memories hold. -/
def Serves (heap : Heap) (bus : Bus) (first size : Addr) (memory : Ref) : Prop :=
  ∀ heap', Shape heap heap' → ∀ offset : Addr, offset % wordSize = 0 → offset < size →
    busWordRead heap' bus (first + offset) = some (.ok ((heap' memory).raw (offset / wordSize).toNat))

/-- A word of a zone of whole words. -/
lemma zone_word (proper : ∀ z ∈ bus.zones, z.Proper heap) (hz : zone ∈ bus.zones)
    (hwords : (heap zone.memory).size % wordSize = 0) {offset : Addr} (haligned : offset % wordSize = 0)
    (hlt : offset < (heap zone.memory).size) :
    zone.Covers heap (zone.from + offset).toNat ∧ translate zone (zone.from + offset) = offset ∧
      ¬ (heap zone.memory).size < offset + wordSize := by
  obtain ⟨hpos, hwrap⟩ := proper zone hz
  unfold Zone.size at hpos hwrap
  refine ⟨?_, ?_, ?_⟩
  · unfold Zone.Covers Zone.size
    bv_omega
  · unfold translate
    bv_omega
  · have ho : offset.toNat % 4 = 0 := congrArg BitVec.toNat haligned
    have hs : (heap zone.memory).size.toNat % 4 = 0 := congrArg BitVec.toNat hwords
    unfold wordSize
    bv_omega

/-- A zone of whole words serves its region. -/
lemma serves_zone (proper : ∀ z ∈ bus.zones, z.Proper heap) (apart : ZonesApart heap bus.zones)
    (hz : zone ∈ bus.zones) (hwords : (heap zone.memory).size % wordSize = 0) :
    Serves heap bus zone.from (heap zone.memory).size zone.memory := by
  intro heap' hshape offset haligned hlt
  obtain ⟨hc, htr, hfit⟩ := zone_word proper hz hwords haligned hlt
  rw [busWordRead, findZone_shape hshape, findZone_covers proper apart hz hc]
  dsimp only
  rw [htr, memoryWordGet, (hshape _).1, if_neg (not_not.mpr haligned), if_neg hfit]

/-- A part of a served region is served. -/
lemma Serves.shorten {first size size' : Addr} {memory : Ref} (h : Serves heap bus first size memory)
    (hle : size' ≤ size) : Serves heap bus first size' memory :=
  fun heap' hshape offset haligned hlt => h heap' hshape offset haligned (by bv_omega)

end

/-! ### The regions of the devices -/

/-- A region of the bus, with the memory that is to serve it. -/
structure Region where
  memory : Ref
  «from» : Addr
  size : Addr

/-- The regions of the interrupt controller. -/
def picRegions : List Region := [
  ⟨handlersRef, interruptDescriptorTableAddress, interruptDescriptorTableSize⟩,
  ⟨maskRef, interruptMaskAddress, interruptMaskSize⟩]

/-- The regions of the keyboard. -/
def keyboardRegions : List Region := [
  ⟨keyboardInRef, keyboardInAddress, keyboardInMemorySize⟩,
  ⟨keyboardOutRef, keyboardOutAddress, keyboardOutMemorySize⟩]

/-- The regions of the video. -/
def videoRegions (video : Bool) : List Region :=
  ⟨videoMetaRef, videoMetaAddress, videoMetaSize⟩ ::
    if video then [
      ⟨videoBuffer0Ref, videoBuffer0Address, videoBufferSize⟩,
      ⟨videoBuffer1Ref, videoBuffer1Address, videoBufferSize⟩]
    else []

/-- The regions of the devices below the ROM, from the lowest to the highest. -/
def deviceRegions (video : Bool) : List Region := keyboardRegions ++ (picRegions ++ videoRegions video)

/-- The region of the ROM. -/
def romRegion : Region := ⟨romRef, romAddress, romSize⟩

/-- Each device is served by its own memory, and the RAM by the words below them. -/
structure MemoryMap (vm : VM) (ramSize : Addr) (video : Bool) : Prop where
  devices : ∀ d ∈ deviceRegions video ++ [romRegion], Serves vm.heap vm.bus d.from d.size d.memory
  ram : ∀ heap, Shape vm.heap heap → ∀ a : Addr, a % wordSize = 0 → a < ramSize → a < keyboardInAddress →
    busWordRead heap vm.bus a = some (.ok ((heap ramRef).raw (a / wordSize).toNat))

/-! ### The bus of `vm_create` -/

/-- The addresses of `vmarch.h`, as numbers. -/
lemma addresses_eq : romAddress = 0xFE000000#32 ∧ videoBuffer1Address = 0xFDFC1800#32 ∧
    videoBuffer0Address = 0xFDF83000#32 ∧ videoMetaAddress = 0xFDF82FFC#32 ∧
    interruptMaskAddress = 0xFDF82FDC#32 ∧ interruptDescriptorTableAddress = 0xFDF82BDC#32 ∧
    keyboardOutAddress = 0xFDF82BD8#32 ∧ keyboardInAddress = 0xFDF82BD4#32 := by decide

/-- The sizes of the memories, as numbers. -/
lemma sizes_eq : romSize = 0x2000000#32 ∧ videoBufferSize = 0x3E800#32 ∧ videoMetaSize = 4#32 ∧
    interruptMaskSize = 32#32 ∧ interruptDescriptorTableSize = 1024#32 ∧
    keyboardOutMemorySize = 4#32 ∧ keyboardInMemorySize = 4#32 := by decide

/-- The references of the memories, as numbers. -/
lemma refs_eq : ramRef = 0 ∧ romRef = 1 ∧ handlersRef = 2 ∧ maskRef = 3 ∧ keyboardOutRef = 4 ∧
    keyboardInRef = 5 ∧ videoMetaRef = 6 ∧ videoBuffer0Ref = 7 ∧ videoBuffer1Ref = 8 := by decide

/-- The zones that `pic_create` attaches. -/
def picZones : List Zone := [
  ⟨handlersRef, interruptDescriptorTableAddress, "IDT", []⟩,
  ⟨maskRef, interruptMaskAddress, "IMask", []⟩]

/-- The zones that `keyboard_create` attaches. -/
def keyboardZones : List Zone := [
  ⟨keyboardInRef, keyboardInAddress, "KBIn", [⟨keyboardInAddress, .device keyboardInRef⟩]⟩,
  ⟨keyboardOutRef, keyboardOutAddress, "KBOut", []⟩]

/-- The zones that `video_create` attaches. -/
def videoZones (video : Bool) : List Zone :=
  ⟨videoMetaRef, videoMetaAddress, "VMeta", [⟨videoMetaAddress, .device videoMetaRef⟩]⟩ ::
    if video then [
      ⟨videoBuffer0Ref, videoBuffer0Address, "VBuf0", []⟩,
      ⟨videoBuffer1Ref, videoBuffer1Address, "VBuf1", []⟩]
    else []

/-- The zones of the devices below the ROM. -/
def deviceZones (video : Bool) : List Zone := keyboardZones ++ (picZones ++ videoZones video)

/-- The zone of the RAM. -/
def ramZone : Zone := ⟨ramRef, 0, "RAM", []⟩

/-- The zone of the ROM. -/
def romZone : Zone := ⟨romRef, romAddress, "ROM", []⟩

section
variable {malloc : Ref → Nat → Word} {heap : Heap} {bus : Bus} {ramSize : Addr} {video : Bool}

/-- The size of a new memory, and of the others. -/
lemma create_size (heap : Heap) (r r' : Ref) (bytes : Addr) (mode : MemMode) :
    (create malloc heap r bytes mode r').size = if r' = r then roundUp bytes else (heap r').size := by
  unfold create Heap.set
  split <;> rfl

/-- A word that is set keeps the shape. -/
lemma setWord_shape (heap : Heap) (r : Ref) (a : Addr) (w : Word) : Shape heap (setWord heap r a w) := by
  unfold setWord
  cases h : memoryWordSet (heap r) a w with
  | ok memory => exact memoryWordSet_shape h
  | error e => exact .refl heap

/-- A mask that is set keeps the shape. -/
lemma setMask_shape (pic : PIC) (heap : Heap) (n : Nat) (w : Word) :
    Shape heap (pic.setMask heap n w) := by
  unfold PIC.setMask
  cases h : memoryWordSet (heap pic.interruptMask) (BitVec.ofNat 32 n * wordSize) w with
  | ok memory => exact memoryWordSet_shape h
  | error e => exact .refl heap

/-- The memories of some regions have the sizes of the regions. -/
def Sized (heap : Heap) (regions : List Region) : Prop := ∀ d ∈ regions, (heap d.memory).size = d.size

/-- A new memory leaves the others as they are. -/
lemma create_ne {r r' : Ref} (h : r' ≠ r) (bytes : Addr) (mode : MemMode) :
    create malloc heap r bytes mode r' = heap r' := if_neg h

/-- The mask leaves the other memories as they are. -/
lemma setMask_ne {r : Ref} {pic : PIC} (h : r ≠ pic.interruptMask) (n : Nat) (w : Word) :
    pic.setMask heap n w r = heap r := by
  unfold PIC.setMask
  cases memoryWordSet (heap pic.interruptMask) (BitVec.ofNat 32 n * wordSize) w with
  | ok memory => exact if_neg h
  | error e => rfl

/-- A word that is set leaves the other memories as they are. -/
lemma setWord_ne {r r' : Ref} (h : r' ≠ r) (a : Addr) (w : Word) : setWord heap r a w r' = heap r' := by
  unfold setWord
  cases memoryWordSet (heap r) a w with
  | ok memory => exact if_neg h
  | error e => rfl

/-- `pic_create` succeeds. -/
lemma picCreate_ok (heap : Heap) : (picCreate malloc heap busCreate).bus.zones = picZones ∧
    Sized (picCreate malloc heap busCreate).heap picRegions ∧
      ∀ r < handlersRef, (picCreate malloc heap busCreate).heap r = heap r := by
  refine ⟨?_, ?_, fun r hr => ?_⟩
  · simp [picCreate, attach, busMemoryAttach, busCreate, inZone, passes, memoryMaxAddress, create_size,
      roundUp, wordSize, addresses_eq, sizes_eq, refs_eq, picZones]
  · simp [picCreate, picInterruptMask, Sized, picRegions, (setMask_shape _ _ _ _ _).1, create_size, roundUp,
      wordSize, sizes_eq, refs_eq]
  · have hm : r ≠ maskRef := Nat.ne_of_lt (Nat.lt_succ_of_lt hr)
    have hmask (heap : Heap) (i : Interrupt) :
        picInterruptMask ⟨maskRef, handlersRef, fun _ => 0⟩ heap i r = heap r := setMask_ne hm _ _
    simp only [picCreate, hmask]
    exact (create_ne hm _ _).trans (create_ne (Nat.ne_of_lt hr) _ _)

/-- `keyboard_create` succeeds. -/
lemma keyboardCreate_ok (hz : bus.zones = picZones) (hs : Sized heap picRegions) :
    ∃ heap' bus', keyboardCreate malloc heap bus = some (heap', bus') ∧
      bus'.zones = keyboardZones ++ picZones ∧ Sized heap' (keyboardRegions ++ picRegions) ∧
      ∀ r < keyboardOutRef, heap' r = heap r := by
  simp only [Sized, picRegions, List.forall_mem_cons, refs_eq, sizes_eq] at hs
  obtain ⟨h1, h2, _⟩ := hs
  let heap' := create malloc (create malloc heap keyboardOutRef keyboardOutMemorySize .rw) keyboardInRef
    keyboardInMemorySize .rw
  have hrun : ∃ bus', keyboardCreate malloc heap bus = some (heap', bus') ∧
      bus'.zones = keyboardZones ++ picZones := by
    simp [heap', keyboardCreate, attach, busMemoryAttach, inZone, passes, memoryMaxAddress, create_size,
      busNotificationRegister, List.findIdx?_cons, Zone.listen, roundUp, wordSize, addresses_eq, sizes_eq,
      refs_eq, picZones, keyboardZones, hz, h1, h2]
  obtain ⟨bus', hrun, hzones⟩ := hrun
  refine ⟨heap', bus', hrun, hzones, ?_, fun r hr => ?_⟩
  · simp [heap', Sized, keyboardRegions, picRegions, create_size, roundUp, wordSize, sizes_eq, refs_eq, h1, h2]
  · have h5 : r ≠ keyboardInRef := Nat.ne_of_lt (Nat.lt_succ_of_lt hr)
    exact (create_ne h5 _ _).trans (create_ne (Nat.ne_of_lt hr) _ _)

/-- `video_create` succeeds. -/
lemma videoCreate_ok (hz : bus.zones = keyboardZones ++ picZones)
    (hs : Sized heap (keyboardRegions ++ picRegions)) (video : Bool) :
    ∃ heap' bus', videoCreate malloc heap bus video = some (heap', bus') ∧
      bus'.zones = deviceZones video ∧ Sized heap' (deviceRegions video) ∧
      ∀ r < videoMetaRef, heap' r = heap r := by
  simp only [Sized, keyboardRegions, picRegions, List.cons_append, List.nil_append, List.forall_mem_cons, refs_eq,
    sizes_eq] at hs
  obtain ⟨h1, h2, h3, h4, _⟩ := hs
  let heap1 := setWord (create malloc heap videoMetaRef videoMetaSize .rw) videoMetaRef 0 videoBitEnabled
  let heap' := if video then
      create malloc (create malloc heap1 videoBuffer0Ref videoBufferSize .rw) videoBuffer1Ref videoBufferSize .rw
    else heap1
  have hrun : ∃ bus', videoCreate malloc heap bus video = some (heap', bus') ∧
      bus'.zones = deviceZones video := by
    cases video <;>
    simp [heap', heap1, videoCreate, attach, busMemoryAttach, inZone, passes, memoryMaxAddress, create_size,
      (setWord_shape _ _ _ _ _).1,
      busNotificationRegister, List.findIdx?_cons, Zone.listen, roundUp, wordSize, addresses_eq, sizes_eq,
      refs_eq, picZones, keyboardZones, videoZones, deviceZones, hz, h1, h2, h3, h4]
  obtain ⟨bus', hrun, hzones⟩ := hrun
  refine ⟨heap', bus', hrun, hzones, ?_, fun r hr => ?_⟩
  · cases video <;>
    simp [heap', heap1, Sized, deviceRegions, videoRegions, keyboardRegions, picRegions, create_size, 
      (setWord_shape _ _ _ _ _).1, roundUp, wordSize, sizes_eq, refs_eq, h1, h2, h3, h4]
  · have h6 : heap1 r = heap r :=
      (setWord_ne (Nat.ne_of_lt hr) _ _).trans (create_ne (Nat.ne_of_lt hr) _ _)
    have h7 : r ≠ videoBuffer0Ref := Nat.ne_of_lt (Nat.lt_succ_of_lt hr)
    have h8 : r ≠ videoBuffer1Ref := Nat.ne_of_lt (Nat.lt_succ_of_lt (Nat.lt_succ_of_lt hr))
    cases video with
    | false => exact h6
    | true => exact (create_ne h8 _ _).trans ((create_ne h7 _ _).trans h6)

/-- The RAM comes first. -/
lemma attach_ram (hz : bus.zones = deviceZones video) (hs : Sized heap (deviceRegions video)) :
    (attach heap bus ⟨ramRef, 0, "RAM"⟩).zones = ramZone :: deviceZones video := by
  cases video <;>
  · simp only [Sized, deviceRegions, keyboardRegions, picRegions, videoRegions, List.cons_append,
      List.nil_append, List.forall_mem_cons, ↓reduceIte, Bool.false_eq_true, refs_eq, sizes_eq] at hs
    simp [attach, busMemoryAttach, inZone, passes, memoryMaxAddress, hz, hs, deviceZones, keyboardZones, picZones,
      videoZones, ramZone, addresses_eq, refs_eq]

/-- What `vm_create` makes, up to the last call of `bus_memory_attach`. -/
lemma vmCreate_ok (malloc : Ref → Nat → Word) (ramSize : Addr) (video : Bool) :
    ∃ vm bus, vmCreate malloc ramSize video = some vm ∧ bus.zones = ramZone :: deviceZones video ∧
      vm.bus = attach vm.heap bus ⟨romRef, romAddress, "ROM"⟩ ∧ Sized vm.heap (deviceRegions video) ∧
      vm.heap ramRef = memoryCreate (malloc ramRef) ramSize .rw ∧
      vm.heap romRef = memoryCreate (malloc romRef) romSize .r := by
  obtain ⟨hz1, hs1, hr1⟩ := @picCreate_ok malloc
    (create malloc (create malloc noMemories ramRef ramSize .rw) romRef romSize .r)
  obtain ⟨heap2, bus2, hrun2, hz2, hs2, hr2⟩ := @keyboardCreate_ok malloc _ _ hz1 hs1
  obtain ⟨heap3, bus3, hrun3, hz3, hs3, hr3⟩ := @videoCreate_ok malloc _ _ hz2 hs2 video
  let bus := attach heap3 bus3 ⟨ramRef, 0, "RAM"⟩
  refine ⟨⟨heap3, attach heap3 bus ⟨romRef, romAddress, "ROM"⟩, ⟨maskRef, handlersRef, fun _ => 0⟩⟩, bus, ?_,
    attach_ram hz3 hs3, ?_⟩
  · rw [vmCreate, hrun2]
    show (videoCreate malloc heap2 bus2 video).bind _ = _
    rw [hrun3]
    rfl
  · refine ⟨rfl, hs3, ?_, ?_⟩
    · exact (hr3 ramRef (by decide)).trans ((hr2 ramRef (by decide)).trans (hr1 ramRef (by decide)))
    · exact (hr3 romRef (by decide)).trans ((hr2 romRef (by decide)).trans (hr1 romRef (by decide)))

/-! ### When the map holds -/

/-- A zone that ends where another begins, or before. -/
def Zone.Below (heap : Heap) (z z' : Zone) : Prop := z.from.toNat + z.size heap ≤ z'.from.toNat

/-- A zone below another is apart from it. -/
lemma Zone.Below.apart {z z' : Zone} (h : z.Below heap z') : z.Apart heap z' := by
  rintro a ⟨⟨_, h1⟩, ⟨h2, _⟩⟩
  unfold Zone.Below at h
  omega

/-- The size of the ROM is a whole number of words. -/
lemma roundUp_romSize : roundUp romSize = romSize := by decide

/-- A RAM that ends below the devices is not shortened by the rounding. -/
lemma roundUp_le {n : Addr} (hle : n ≤ keyboardInAddress) :
    n ≤ roundUp n ∧ roundUp n ≤ keyboardInAddress ∧ roundUp n % wordSize = 0 := by
  have hn : n.toNat ≤ 4260899796 := hle
  have hr := roundUp_toNat n
  refine ⟨?_, ?_, ?_⟩
  · rw [BitVec.le_def, hr]
    omega
  · show (roundUp n).toNat ≤ 4260899796
    rw [hr]
    omega
  · apply BitVec.eq_of_toNat_eq
    show (roundUp n).toNat % 4 = 0
    rw [hr]
    omega

/-- A RAM that does not, or is empty, covers the first device after the rounding. -/
lemma roundUp_covers {n : Addr} (h : ¬ (0 < n ∧ n ≤ keyboardInAddress)) :
    keyboardInAddress ≤ roundUp n - 1 := by
  have hn : ¬ (0 < n.toNat ∧ n.toNat ≤ 4260899796) := h
  have hlt := n.isLt
  show 4260899796 ≤ (2 ^ 32 - 1 + (roundUp n).toNat) % 2 ^ 32
  rw [roundUp_toNat]
  omega

/-- The zones from the RAM to the ROM follow each other. -/
lemma zones_below (hs : Sized heap (deviceRegions video))
    (hram : (heap ramRef).size ≤ keyboardInAddress) :
    (ramZone :: (deviceZones video ++ [romZone])).Pairwise (Zone.Below heap) := by
  cases video <;>
  · simp only [Sized, deviceRegions, keyboardRegions, picRegions, videoRegions, List.cons_append,
      List.nil_append, List.forall_mem_cons, ↓reduceIte, Bool.false_eq_true, refs_eq, sizes_eq] at hs
    have hram : (heap 0).size.toNat ≤ 4260899796 := hram
    simp [Zone.Below, Zone.size, hs, deviceZones, keyboardZones, picZones, videoZones, ramZone, romZone,
      addresses_eq, refs_eq]
    omega

/-- The sizes of the devices are whole words, and their regions end in the address space. -/
lemma region_fits : ∀ d ∈ deviceRegions video ++ [romRegion],
    0 < d.size.toNat ∧ d.from.toNat + d.size.toNat ≤ 2 ^ 32 ∧ d.size % wordSize = 0 := by
  cases video <;> decide

/-- Each region is that of a zone. -/
lemma region_zone : ∀ d ∈ deviceRegions video ++ [romRegion],
    ∃ z ∈ deviceZones video ++ [romZone], z.from = d.from ∧ z.memory = d.memory := by
  cases video <;> decide

/-- Each zone is that of a region. -/
lemma zone_region : ∀ z ∈ deviceZones video ++ [romZone],
    ∃ d ∈ deviceRegions video ++ [romRegion], z.from = d.from ∧ z.memory = d.memory := by
  cases video <;> decide

/-- The zones of the devices and the ROM do not wrap around. -/
lemma zones_proper (hs : Sized heap (deviceRegions video ++ [romRegion])) :
    ∀ z ∈ deviceZones video ++ [romZone], z.Proper heap := by
  intro z hz
  obtain ⟨d, hd, hfrom, hmemory⟩ := zone_region z hz
  obtain ⟨hpos, hwrap, _⟩ := region_fits d hd
  have hsize : z.size heap = d.size.toNat := by
    unfold Zone.size
    rw [hmemory, hs d hd]
  constructor
  · rw [hsize]
    exact hpos
  · rw [hsize, hfrom]
    exact hwrap

/-- With a RAM that ends below the devices, the zones of the bus are apart. -/
lemma vmCreate_zones (malloc : Ref → Nat → Word) (hpos : 0 < ramSize) (hle : ramSize ≤ keyboardInAddress) :
    ∃ vm, vmCreate malloc ramSize video = some vm ∧
      vm.bus.zones.Perm (ramZone :: (deviceZones video ++ [romZone])) ∧
      (∀ z ∈ vm.bus.zones, z.Proper vm.heap) ∧ ZonesApart vm.heap vm.bus.zones ∧
      Sized vm.heap (deviceRegions video ++ [romRegion]) ∧ (vm.heap ramRef).size = roundUp ramSize := by
  obtain ⟨vm, bus, hvm, hz, hattach, hs, hram, hrom⟩ := vmCreate_ok malloc ramSize video
  obtain ⟨_, hend, _⟩ := roundUp_le hle
  have hramSize : (vm.heap ramRef).size = roundUp ramSize := congrArg Memory.size hram
  have hromSize : (vm.heap romRef).size = romSize := (congrArg Memory.size hrom).trans roundUp_romSize
  have hsized : Sized vm.heap (deviceRegions video ++ [romRegion]) := by
    intro d hd
    cases List.mem_append.mp hd with
    | inl hd => exact hs d hd
    | inr hd =>
      cases List.mem_singleton.mp hd
      exact hromSize
  have hbelow := zones_below hs (hramSize ▸ hend)
  have hramProper : ramZone.Proper vm.heap := by
    have hge := (roundUp_le hle).1
    constructor
    · show 0 < (vm.heap ramRef).size.toNat
      rw [hramSize]
      bv_omega
    · show 0 + (vm.heap ramRef).size.toNat ≤ 2 ^ 32
      have := (vm.heap ramRef).size.isLt
      omega
  have hproper : ∀ z ∈ ramZone :: (deviceZones video ++ [romZone]), z.Proper vm.heap := by
    intro z hz
    cases List.mem_cons.mp hz with
    | inl e => exact e ▸ hramProper
    | inr hz => exact zones_proper hsized z hz
  -- the ROM is attached behind all others
  have hperm : vm.bus.zones.Perm (ramZone :: (deviceZones video ++ [romZone])) := by
    have hlast := (List.pairwise_append.mp (List.cons_append ▸ hbelow :
      (ramZone :: deviceZones video ++ [romZone]).Pairwise (Zone.Below vm.heap))).2.2
    have hmem : ∀ z ∈ bus.zones, z.Proper vm.heap := fun z h => hproper z (by
      rw [hz] at h
      exact List.mem_append_left [romZone] h)
    have hfree : ∀ z ∈ bus.zones, ¬ z.Covers vm.heap romAddress.toNat := by
      intro z h hc
      have hb := hlast z (hz ▸ h) romZone (List.mem_singleton.mpr rfl)
      exact absurd hc.2 (Nat.not_lt.mpr hb)
    rw [hattach]
    rcases attach_zones hmem ⟨romRef, romAddress, "ROM"⟩ with ⟨⟨z, h, hc⟩, _⟩ | ⟨_, hlen, _⟩ | ⟨_, _, h⟩
    · exact absurd hc (hfree z h)
    · rw [hz] at hlen
      cases video <;> exact absurd hlen (by decide)
    · refine h.trans ?_
      rw [hz]
      exact List.perm_append_singleton romZone (ramZone :: deviceZones video) |>.symm
  refine ⟨vm, hvm, hperm, fun z h => hproper z (hperm.mem_iff.mp h), ?_, hsized, hramSize⟩
  exact (hperm.pairwise_iff fun h => h.symm).mpr (hbelow.imp Zone.Below.apart)

/-- The bus of `vm_create`, with memories of its sizes. -/
structure Mapped (heap : Heap) (bus : Bus) (ramSize : Addr) (video : Bool) : Prop where
  zones : bus.zones.Perm (ramZone :: (deviceZones video ++ [romZone]))
  proper : ∀ z ∈ bus.zones, z.Proper heap
  apart : ZonesApart heap bus.zones
  sized : Sized heap (deviceRegions video ++ [romRegion])
  ram : (heap ramRef).size = roundUp ramSize

/-- `vm_create` maps the memories as announced. -/
lemma vmCreate_mapped {vm : VM} (hvm : vmCreate malloc ramSize video = some vm) (hpos : 0 < ramSize)
    (hle : ramSize ≤ keyboardInAddress) : Mapped vm.heap vm.bus ramSize video := by
  obtain ⟨vm', hvm', hperm, hproper, hapart, hsized, hram⟩ := @vmCreate_zones ramSize video malloc hpos hle
  cases hvm.symm.trans hvm'
  exact ⟨hperm, hproper, hapart, hsized, hram⟩

/-- The ROM has its size. -/
lemma Mapped.rom (h : Mapped heap bus ramSize video) : (heap romRef).size = romSize :=
  h.sized romRegion (List.mem_append_right _ List.mem_cons_self)

/-- No two zones overlap. -/
lemma Mapped.distinct (h : Mapped heap bus ramSize video) : bus.Distinct := by
  rw [Bus.Distinct, (h.zones.map _).nodup_iff]
  cases video <;> decide

/-- All memories are whole words. -/
lemma Mapped.words (h : Mapped heap bus ramSize video) {z : Zone} (hz : z ∈ bus.zones) :
    (heap z.memory).size % wordSize = 0 := by
  cases List.mem_cons.mp (h.zones.mem_iff.mp hz) with
  | inl e =>
    have hround := roundUp_toNat ramSize
    apply BitVec.eq_of_toNat_eq
    rw [e, show (heap ramZone.memory).size = roundUp ramSize from h.ram]
    show (roundUp ramSize).toNat % 4 = 0
    omega
  | inr hz =>
    obtain ⟨d, hd, _, hmemory⟩ := zone_region z hz
    rw [hmemory, h.sized d hd]
    exact (region_fits d hd).2.2

/-- With a RAM that ends below the devices, the map holds. -/
lemma memoryMap_of (malloc : Ref → Nat → Word) (hpos : 0 < ramSize) (hle : ramSize ≤ keyboardInAddress) :
    ∃ vm, vmCreate malloc ramSize video = some vm ∧ MemoryMap vm ramSize video := by
  obtain ⟨vm, hvm, hperm, hproper, hapart, hsized, hramSize⟩ := vmCreate_zones malloc hpos hle
  obtain ⟨hge, _, hwords⟩ := roundUp_le hle
  refine ⟨vm, hvm, ?_, ?_⟩
  · intro d hd
    obtain ⟨z, hz, hfrom, hmemory⟩ := region_zone d hd
    have hsize := hsized d hd
    rw [← hfrom, ← hsize, ← hmemory]
    apply serves_zone hproper hapart (hperm.mem_iff.mpr (List.mem_cons_of_mem _ hz))
    rw [hmemory, hsize]
    exact (region_fits d hd).2.2
  · have hserves : Serves vm.heap vm.bus 0 (vm.heap ramRef).size ramRef :=
      serves_zone hproper hapart (hperm.mem_iff.mpr (List.mem_cons_self)) (hramSize ▸ hwords)
    intro heap hshape a haligned hlt _
    have h := (hramSize ▸ hserves).shorten hge heap hshape a haligned hlt
    have hzero : (0 : Addr) + a = a := BitVec.zero_add a
    rwa [hzero] at h

/-- The RAM is searched before the ROM. -/
lemma passes_ram (h : ¬ inZone heap ramZone romAddress = true) : passes heap romAddress ramZone = true := by
  unfold passes
  rw [Bool.not_eq_true', decide_eq_false_iff_not]
  intro hlt
  apply h
  unfold inZone
  rw [Bool.and_eq_true, decide_eq_true_iff, decide_eq_true_iff]
  exact ⟨Nat.zero_le _, BitVec.le_of_lt hlt⟩

/-- The RAM stays in front when the ROM is attached. -/
lemma attach_rom (hz : bus.zones = ramZone :: deviceZones video) :
    ∃ zones, (attach heap bus ⟨romRef, romAddress, "ROM"⟩).zones = ramZone :: zones := by
  unfold attach busMemoryAttach
  by_cases hany : bus.zones.any fun zone => inZone heap zone romAddress
  · rw [if_pos hany]
    exact ⟨_, hz⟩
  · rw [if_neg hany]
    have hpass : passes heap romAddress ramZone = true := by
      apply passes_ram
      intro hin
      exact hany (List.any_eq_true.mpr ⟨ramZone, hz ▸ List.mem_cons_self, hin⟩)
    have hlen : (bus.zones.length + 1) % 256 = (deviceZones video).length + 2 := by
      rw [hz]
      cases video <;> decide
    dsimp only
    rw [hlen, hz, List.takeWhile_cons_of_pos hpass, List.cons_append, List.take_succ_cons]
    exact ⟨_, rfl⟩

/-- A RAM that covers the first device hides it. -/
lemma memoryMap_bound {vm : VM} (hvm : vmCreate malloc ramSize video = some vm)
    (hmap : MemoryMap vm ramSize video) : 0 < ramSize ∧ ramSize ≤ keyboardInAddress := by
  by_contra hn
  obtain ⟨vm', bus, hvm', hz, hattach, _, hram, _⟩ := vmCreate_ok malloc ramSize video
  obtain rfl : vm' = vm := Option.some.inj (hvm'.symm.trans hvm)
  have hfind : findZone vm'.heap vm'.bus keyboardInAddress = some ramZone := by
    obtain ⟨zones, hzones⟩ := @attach_rom vm'.heap _ _ hz
    have hin : inZone vm'.heap ramZone keyboardInAddress = true := by
      have hcovers := roundUp_covers hn
      have hmax : memoryMaxAddress (vm'.heap ramRef) 0 = roundUp ramSize - 1 := by
        unfold memoryMaxAddress
        rw [hram]
        exact congrArg (fun a : Addr => a - 1) (BitVec.add_zero _)
      have hle : keyboardInAddress ≤ memoryMaxAddress (vm'.heap ramRef) 0 := hmax ▸ hcovers
      exact Bool.and_eq_true_iff.mpr ⟨decide_eq_true (by decide), decide_eq_true hle⟩
    unfold findZone
    rw [hattach, hzones]
    exact List.find?_cons_of_pos hin
  -- the word of the keyboard is read from the RAM, whatever it is
  have hsame {heap : Heap} (hshape : Shape vm'.heap heap) (hr : heap ramRef = vm'.heap ramRef) :
      busWordRead heap vm'.bus keyboardInAddress = busWordRead vm'.heap vm'.bus keyboardInAddress := by
    have hr' : heap ramZone.memory = vm'.heap ramZone.memory := hr
    unfold busWordRead
    rw [findZone_shape hshape, hfind]
    dsimp only
    rw [hr']
  have hserves (heap : Heap) (hshape : Shape vm'.heap heap) :
      busWordRead heap vm'.bus keyboardInAddress = some (.ok ((heap keyboardInRef).raw 0)) := by
    have h := hmap.devices _ List.mem_cons_self heap hshape 0 (by decide) (by decide)
    have hzero : keyboardInAddress + 0 = keyboardInAddress := BitVec.add_zero _
    dsimp only at h
    rwa [hzero] at h
  let memory := vm'.heap keyboardInRef
  let other : Memory := { memory with raw := fun i => memory.raw i + 1 }
  have hshape : Shape vm'.heap (vm'.heap.set keyboardInRef other) := by
    intro r
    unfold Heap.set
    split
    · rename_i e
      subst e
      exact ⟨rfl, rfl⟩
    · exact ⟨rfl, rfl⟩
  have h := (hserves _ hshape).symm.trans ((hsame hshape rfl).trans (hserves _ (.refl _)))
  have hword : memory.raw 0 + 1 = memory.raw 0 := Except.ok.inj (Option.some.inj h)
  bv_omega

/-- **The memory map** holds exactly when the RAM is not empty and ends below the devices. -/
theorem memoryMap_iff (malloc : Ref → Nat → Word) (ramSize : Addr) (video : Bool) :
    (∃ vm, vmCreate malloc ramSize video = some vm ∧ MemoryMap vm ramSize video) ↔
      0 < ramSize ∧ ramSize ≤ keyboardInAddress := by
  constructor
  · rintro ⟨vm, hvm, hmap⟩
    exact memoryMap_bound hvm hmap
  · rintro ⟨hpos, hle⟩
    exact memoryMap_of malloc hpos hle

/-- A RAM that reaches the ROM. -/
theorem not_memoryMap_large : ¬ ∃ vm, vmCreate (fun _ _ => 0) romAddress false = some vm ∧
    MemoryMap vm romAddress false := by
  rintro ⟨vm, hvm, hmap⟩
  have hle := (memoryMap_bound hvm hmap).2
  exact absurd hle (by decide)

end

end Thorium.Vm
