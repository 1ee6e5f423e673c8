import Thorium.Vm.Logic
import Thorium.Vm.Refinement

/-!
# Programs from their start

A program that is the image of the machine is in the memory behind the stack when `main` starts the CPU, and the
registers are as the options say (`setUp_launch`). What the logic proves of it holds of the CPU, whatever the devices
do meanwhile (`launch_halts`).
-/

namespace Thorium.Vm
open Thorium.Isa Thorium.Run

/-- The RAM can be read and written. -/
def Flat.Ram (m : Flat) (size : Addr) : Prop :=
  ∀ a : Addr, a.toNat % 4 = 0 → a < size → m.readable a = true ∧ m.writable a = true

/-- The image fits into the RAM behind the stack, the ROM into its memory, and the RAM below the devices. -/
structure Fits (options : Options) (bytes : List Byte) : Prop where
  image : options.image = .content bytes
  rom : ∀ rom, options.rom = .content rom → rom.length ≤ romSize.toNat
  room : stackSize.toNat + bytes.length ≤ options.ramSize.toNat
  below : options.ramSize ≤ keyboardInAddress - wordSize

/-- The options that start an image with `n` registers, without tracing. -/
structure Launch (options : Options) (bytes : List Byte) (n : Byte) : Prop extends Fits options bytes where
  present : options.rom ≠ .missing
  pc : options.pc = stackSize
  registers : options.registers = n.toNat
  count : 32 ≤ n.toNat ∧ n.toNat ≤ 250
  silent : options.printSteps = false

/-- The words that a program accesses that has nothing to do with the keyboard. -/
def NotKey (a : Addr) : Prop := a ≠ keyboardOutAddress

instance : DecidablePred NotKey := fun _ => inferInstanceAs (Decidable (_ ≠ _))

/-- The words of an image that is made of words. -/
lemma fileWords_image (ws : List Word) : fileWords (ws.flatMap Word.toBeBytes) = ws := by
  induction ws with
  | nil => rfl
  | cons w ws ih =>
    rw [List.flatMap_cons, Word.toBeBytes]
    simp only [List.cons_append, List.nil_append, fileWords, ByteOrder.ofBytes_byteAt, ih]

/-- An image has four bytes for every word. -/
lemma length_image (ws : List Word) : (ws.flatMap Word.toBeBytes).length = 4 * ws.length := by
  induction ws with
  | nil => rfl
  | cons w ws ih => rw [List.flatMap_cons, List.length_append, ih, Word.length_toBeBytes, List.length_cons, Nat.mul_succ,
      Nat.add_comm]

/-- The image is in the memory, and the registers have their values. -/
structure Initial (options : Options) (bytes : List Byte) (file : Byte → Word) (m : Flat) : Prop where
  holds : m.Holds NotKey stackSize (fileWords bytes)
  ram : m.Ram options.ramSize
  sp : file Core.spNumber = stackSize
  cs : file Core.csNumber = stackSize
  general : ∀ r : Byte, r < 32 → file r = BitVec.ofInt 32 (options.registerValues r.toNat)

section
variable {heap heap' : Heap} {bus : Bus} {ramSize : Addr} {video : Bool} {options : Options} {bytes : List Byte}
variable {n : Byte} {raw cpu : CPU} {malloc : Ref → Nat → Word}

/-- The RAM of the memory map. -/
lemma Mapped.flatRam (h : Mapped heap bus ramSize video) (hmode : (heap ramRef).mode = .rw)
    (hsize : ramSize ≤ keyboardInAddress) : (flat heap bus).Ram ramSize := by
  intro a haligned hlt
  have hz : ramZone ∈ bus.zones := h.zones.mem_iff.mpr List.mem_cons_self
  have hcovers : ramZone.Covers heap a.toNat := by
    have hround := (roundUp_le hsize).1
    constructor
    · exact Nat.zero_le _
    · show a.toNat < 0 + (heap ramRef).size.toNat
      rw [h.ram, Nat.zero_add]
      exact Nat.lt_of_lt_of_le hlt hround
  exact ⟨readable_iff.mpr ⟨haligned, ramZone, hz, hcovers⟩, writable_iff.mpr ⟨haligned, ramZone, hz, hcovers, hmode⟩⟩

/-- A mode does not change what is read. -/
lemma busWordRead_modeSet (heap : Heap) (bus : Bus) (r : Ref) (mode : MemMode) (a : Addr) :
    busWordRead (memoryModeSet heap r mode) bus a = busWordRead heap bus a := by
  have hsize (r' : Ref) := memoryModeSet_size heap r r' mode
  have hraw (r' : Ref) : (memoryModeSet heap r mode r').raw = (heap r').raw := by
    unfold memoryModeSet Heap.set
    split
    next e => rw [e]
    next => rfl
  have hfind : findZone (memoryModeSet heap r mode) bus a = findZone heap bus a := by
    unfold findZone
    congr 1
    funext zone
    rw [inZone, inZone, memoryMaxAddress, memoryMaxAddress, hsize]
  rw [busWordRead, busWordRead, hfind]
  cases findZone heap bus a with
  | none => rfl
  | some zone =>
    dsimp only
    rw [memoryWordGet, memoryWordGet, hsize, hraw]

/-- Loading a ROM changes no word below it. -/
lemma loadRom_below [Host] {vm : VM} {file : File} (hvm : vmCreate malloc ramSize video = some vm) (hpos : 0 < ramSize)
    (hle : ramSize ≤ keyboardInAddress - wordSize) (hshape : Shape vm.heap heap)
    (hrom : ∀ bytes, file = .content bytes → bytes.length ≤ romSize.toNat)
    (hload : loadRom heap vm.bus file = some (true, heap')) {a : Addr} (ha : a < romAddress) :
    busWordRead heap' vm.bus a = busWordRead heap vm.bus a := by
  cases file with
  | null =>
    cases hload
    rfl
  | missing => cases hload
  | content bytes =>
    have hfit := hrom bytes rfl
    have hloading := loading_of hvm hpos hle hshape .rom
    have haccepted : 4 * (bytes.length / 4) ≤ Load.accepted ramSize .rom := by
      rw [Load.accepted]
      omega
    obtain ⟨heap1, hstore, hstored⟩ := hloading.stores haccepted
    obtain ⟨⟨ok, heap2⟩, hfile, hend⟩ := Option.bind_eq_some_iff.mp hload
    cases hfile.symm.trans hstore
    cases hend
    rw [busWordRead_modeSet]
    refine (hstored.others a fun k hk e => ?_).trans (busWordRead_modeSet heap vm.bus romRef .rw a)
    rw [length_fileWords] at hk
    have hat := wordOffset_toNat romAddress k
    have hlt : (wordOffset romAddress k).toNat < romAddress.toNat := e ▸ ha
    obtain ⟨_, hsize, haddress, _⟩ := places_eq
    rw [hsize] at hfit
    rw [hat, haddress] at hlt
    omega

/-- A ROM that fits is loaded. -/
lemma loadRom_ok [Host] {vm : VM} {file : File} (hvm : vmCreate malloc ramSize video = some vm) (hpos : 0 < ramSize)
    (hle : ramSize ≤ keyboardInAddress - wordSize) (hshape : Shape vm.heap heap) (hpresent : file ≠ .missing)
    (hrom : ∀ bytes, file = .content bytes → bytes.length ≤ romSize.toNat) :
    ∃ heap', loadRom heap vm.bus file = some (true, heap') := by
  cases file with
  | null => exact ⟨heap, rfl⟩
  | missing => exact absurd rfl hpresent
  | content bytes =>
    have hfit := hrom bytes rfl
    have haccepted : 4 * (bytes.length / 4) ≤ Load.accepted ramSize .rom := by
      rw [Load.accepted]
      omega
    obtain ⟨heap', hstore, _⟩ := (loading_of hvm hpos hle hshape .rom).stores haccepted
    exact ⟨memoryModeSet heap' romRef .r, Option.bind_eq_some_iff.mpr ⟨_, hstore, rfl⟩⟩

/-- A RAM that holds an image is not empty, and below the devices. -/
lemma Fits.sizes (h : Fits options bytes) : 0 < options.ramSize ∧ options.ramSize ≤ keyboardInAddress := by
  have hroom := h.room
  have hstack := places_eq.1
  constructor
  · show 0 < options.ramSize.toNat
    omega
  · exact BitVec.le_trans h.below (by decide)

/-- The image is loaded. -/
lemma Fits.accepted (h : Fits options bytes) : 4 * (bytes.length / 4) ≤ Load.accepted options.ramSize .image := by
  have hroom := h.room
  have hround := (roundUp_le h.sizes.2).1
  rw [BitVec.le_def] at hround
  rw [Load.accepted]
  omega

/-- What `main` sets up has been made from the machine and the files. -/
lemma setUp_of [Host] {vm : VM} (hvm : vmCreate malloc options.ramSize options.video = some vm)
    (himage : loadFile vm.heap vm.bus options.image stackSize = some (true, heap))
    (hrom : loadRom heap vm.bus options.rom = some (true, heap')) (hstart : startCpu raw vm heap' options = some cpu) :
    setUp malloc raw options = some (some cpu) := by
  obtain ⟨cpu0, hcreate, hset⟩ := Option.bind_eq_some_iff.mp hstart
  obtain ⟨⟨_, cpu'⟩, hset, hend⟩ := Option.bind_eq_some_iff.mp hset
  cases hend
  obtain ⟨hheap, hbus⟩ := cpuCreate_vm hcreate
  rw [← hheap, ← hbus] at himage
  rw [← hbus] at hrom
  simp only [setUp, hvm, hcreate, himage, hrom, hset, Option.bind_eq_bind, Option.bind_some, if_true, Option.pure_def]

/-- `main` starts the CPU on an image that fits. -/
lemma setUp_ok [Host] (malloc : Ref → Nat → Word) (raw : CPU) (hl : Launch options bytes n) :
    ∃ cpu, setUp malloc raw options = some (some cpu) := by
  obtain ⟨hpos, hle⟩ := hl.sizes
  obtain ⟨vm, _, hvm, _⟩ := vmCreate_ok malloc options.ramSize options.video
  obtain ⟨heap, himage, hstored⟩ :=
    (loading_of hvm hpos hl.below (.refl vm.heap) .image).stores hl.toFits.accepted
  obtain ⟨heap', hrom⟩ := loadRom_ok hvm hpos hl.below hstored.shape hl.present hl.rom
  have hoptions : options = { options with registers := n.toNat } := by
    obtain ⟨_, _, _, _, _, _, _, _⟩ := options
    exact congrArg (Options.mk _ _ · _ _ _ _ _) hl.registers
  obtain ⟨cpu, hstart, _⟩ := @startUp_harmless raw vm heap' options n hl.count.1
  rw [← hoptions] at hstart
  exact ⟨cpu, setUp_of hvm (hl.image ▸ himage) hrom hstart⟩

/-- The machine that `main` sets up, with the image in its memory. -/
lemma setUp_image [Host] (h : setUp malloc raw options = some (some cpu)) (hf : Fits options bytes) :
    MachineHeap cpu.heap cpu.bus options.ramSize options.video ∧
      ∀ k w, (fileWords bytes)[k]? = some w → busWordRead cpu.heap cpu.bus (wordOffset stackSize k) = some (.ok w) := by
  have hsize : (keyboardInAddress - wordSize).toNat = 4260899792 := by decide
  have hbelow : options.ramSize.toNat ≤ 4260899792 := hsize ▸ hf.below
  obtain ⟨hstack, _, hromAddress, _⟩ := places_eq
  have hroom := hf.room
  obtain ⟨hpos, hle⟩ := hf.sizes
  obtain ⟨vm, heap, heap', hvm, himage, hrom, hstart⟩ := setUp_inv h
  have hs := startCpu_starting hstart
  have hmapped := vmCreate_mapped hvm hpos hle
  have hloading := loading_of hvm hpos hf.below (.refl vm.heap) .image
  obtain ⟨heap1, hstore, hstored⟩ := hloading.stores hf.accepted
  rw [hf.image] at himage
  cases himage.symm.trans hstore
  rw [hs.heap, hs.bus]
  refine ⟨((vmCreate_machine hvm hpos hle).1.shape hstored.shape).loadRom hrom, fun k w hk => ?_⟩
  -- The ROM is loaded above the image.
  have hlt := (List.getElem?_eq_some_iff.mp hk).1
  have hlen := length_fileWords bytes
  have hat := wordOffset_toNat stackSize k
  have hlow : wordOffset stackSize k < romAddress := by
    rw [BitVec.lt_def]
    omega
  rw [loadRom_below hvm hpos hf.below hstored.shape hf.rom hrom hlow]
  exact hstored.words (by omega) k w hk

/-- What `main` starts from such options. -/
lemma setUp_launch [Host] (h : setUp malloc raw options = some (some cpu)) (hl : Launch options bytes n) :
    ∃ file zero m, At stackSize 0 file zero m cpu.started.core ∧ Initial options bytes file m := by
  obtain ⟨hmachine, hwords⟩ := setUp_image h hl.toFits
  obtain ⟨vm, heap, heap', hvm, himage, hrom, hstart⟩ := setUp_inv h
  have hs := startCpu_starting hstart
  have hoptions : options = { options with registers := n.toNat } := by
    obtain ⟨_, _, _, _, _, _, _, _⟩ := options
    exact congrArg (Options.mk _ _ · _ _ _ _ _) hl.registers
  obtain ⟨cpu', hstart', hup⟩ := @startUp_harmless raw vm heap' options n hl.count.1
  rw [← hoptions] at hstart' hup
  cases hstart.symm.trans hstart'
  have hfew {i : Int} (hi : 250 ≤ i) : ¬ i < options.registers := by
    have hcount := hl.count.2
    rw [hl.registers]
    omega
  have hup := hup.mpr ⟨fun hi => absurd hi (hfew (by decide)), fun hi => absurd hi (hfew (by decide)),
    fun hi => absurd hi (hfew (by decide)), fun hi => absurd hi (hfew (by decide))⟩
  have hcount : cpu.registerCount = n := by
    rw [hs.count, hl.registers, BitVec.ofInt_natCast, BitVec.ofNat_toNat, BitVec.setWidth_eq]
  refine ⟨cpu.started.core.registers, cpu.started.core.flags.zero, cpu.started.core.memory, ?_, ?_, ?_, ?_, ?_, ?_⟩
  · refine ⟨rfl, rfl, hs.disabled, ?_, ?_, fun _ _ => rfl, rfl, rfl⟩
    · show 32 ≤ cpu.registerCount.toNat
      rw [hcount]
      exact hl.count.1
    · rw [wordOffset_zero]
      exact hup.pc.trans hl.pc
  · intro k w hk
    obtain ⟨hr, hw⟩ := hmachine.mapped.wellZoned.words_of_read (hwords k w hk)
    refine ⟨hr, hw, fun e => ?_⟩
    have hlt := (List.getElem?_eq_some_iff.mp hk).1
    have hlen := length_fileWords bytes
    have hat := wordOffset_toNat stackSize k
    have hroom := hl.room
    have hbelow : options.ramSize.toNat ≤ (keyboardInAddress - wordSize).toNat := hl.below
    have hkey : keyboardOutAddress.toNat = 4260899800 := by decide
    have hlast : (keyboardInAddress - wordSize).toNat = 4260899792 := by decide
    have hstack := places_eq.1
    rw [e] at hat
    omega
  · exact hmachine.mapped.flatRam hmachine.ramMode hl.sizes.2
  · exact hup.sp
  · exact hup.cs.trans hl.pc
  · intro r hr
    have hlt : (r.toNat : Int) < options.registers := by
      have hcount := hl.count.1
      have hr : r.toNat < 32 := hr
      rw [hl.registers]
      omega
    have hget := hup.registers r.toNat hlt
    rw [BitVec.ofNat_toNat, BitVec.setWidth_eq] at hget
    show (cpu.register r).getD 0 = _
    rw [hget]
    rfl

/-! ### Runs -/

/-- **The devices do not disturb the CPU**: where the turns alone access only words of `R` with interrupts disabled, the
CPU does the same among any events, on `R` and on its registers. It changes no other words. -/
theorem cpu_isolated [Host] {R : Addr → Prop} {d : Core} {xs : List Stimulus}
    (h : setUp malloc raw options = some (some cpu)) (hpos : 0 < options.ramSize)
    (hle : options.ramSize ≤ keyboardInAddress) (hprint : options.printSteps = false) (hR : ¬ R keyboardOutAddress)
    (hrun : steps Core.happen (List.replicate (turnCount xs) .turn) cpu.started.core = some d)
    (hm : Meets Core.happen (fun c _ => c.Isolated R) cpu.started.core (List.replicate (turnCount xs) .turn)) :
    (∃ log s, happenAll (List.replicate (turnCount xs) .turn) cpu.started = some (log, s) ∧ s.core = d) ∧
      ∃ log s, happenAll (xs.map Stimulus.event) cpu.started = some (log, s) ∧ Core.Agree R s.core d ∧
        Core.Keeps (orKey R) cpu.started.core s.core := by
  have hshows := setUp_shows h hpos hle hprint
  constructor
  · obtain ⟨log, s, hall, hs⟩ := happenAll_refines hshows hrun
    rw [List.map_replicate] at hall
    exact ⟨log, s, hall, hs.core⟩
  · obtain ⟨c, hxs, hagree, hkeeps⟩ := isolated hR (.refl R _) hrun hm
    obtain ⟨log, s, hall, hs⟩ := happenAll_refines hshows hxs
    exact ⟨log, s, hall, hs.core ▸ hagree, hs.core ▸ hkeeps⟩

/-- After the machine has halted nothing changes. -/
lemma steps_halted {c : Core} (h : c.running = false) (k : Nat) :
    steps Core.happen (List.replicate k .turn) c = some c ∧
      Meets Core.happen (fun c _ => c.Isolated NotKey) c (List.replicate k .turn) := by
  have hturn : Core.happen .turn c = some c := by
    show c.turn = some c
    rw [Core.turn, if_neg fun hgo => Bool.false_ne_true (h.symm.trans hgo.1)]
  have hisolated : c.Isolated NotKey := fun hrunning => absurd (h.symm.trans hrunning) Bool.false_ne_true
  induction k with
  | zero => exact ⟨rfl, Meets.nil⟩
  | succ k ih => exact ⟨steps_cons.mpr ⟨c, hturn, ih.1⟩, Meets.cons hisolated hturn ih.2⟩

/-- `examples/fact.a` for `2`, with an interrupt and a key among its first turns. -/
theorem cpu_isolated_fact : ∃ cpu d log s,
    @setUp ⟨.little⟩ (fun _ _ => 0) (smallCpu smallHeap) (factOptions 2) = some (some cpu) ∧
      steps Core.happen (List.replicate 14 .turn) cpu.started.core = some d ∧ d.registers 3 = 2 ∧
        @happenAll ⟨.little⟩ (.trigger 3 :: .turn :: .store keyboardOutRef 0 7 :: List.replicate 13 .turn) cpu.started =
          some (log, s) ∧ Core.Agree NotKey s.core d ∧ Core.Keeps (orKey NotKey) cpu.started.core s.core := by
  have hrun : ((@setUp ⟨.little⟩ (fun _ _ => 0) (smallCpu smallHeap) (factOptions 2)).bind fun o => o.bind fun cpu =>
      (steps Core.happen (List.replicate 14 .turn) cpu.started.core).map fun d =>
        (decide (Meets Core.happen (fun c _ => c.Isolated NotKey) cpu.started.core (List.replicate 14 .turn)),
          d.registers 3)) = some (true, 2) := by decide +kernel
  obtain ⟨cpu, d, h, hd, hfinal⟩ := ran_eq_some hrun
  obtain ⟨hisolated, hresult⟩ := Prod.mk.inj hfinal
  obtain ⟨_, log, s, hall, hagree, hkeeps⟩ := @cpu_isolated _ _ _ _ ⟨.little⟩ NotKey d
    (.trigger 3 :: .turn :: .key 7 :: List.replicate 13 .turn) h (by decide) (by decide) rfl (fun hkey => hkey rfl) hd
    (of_decide_eq_true hisolated)
  exact ⟨cpu, d, log, s, h, hd, hresult, hall, hagree, hkeeps⟩

/-- **What is proved of a program holds of the machine**: a program that leads to a state in which it has halted does
so in every run with enough turns, whatever the devices do. -/
lemma launch_halts [Host] {Q : Core → Prop} (h : setUp malloc raw options = some (some cpu))
    (hl : Launch options bytes n)
    (hprogram : ∀ file zero m, Initial options bytes file m → Leads NotKey (At stackSize 0 file zero m) Q)
    (hQ : ∀ c, Q c → c.running = false) : ∃ k, ∀ xs, k ≤ turnCount xs → ∃ log s c,
      happenAll (xs.map Stimulus.event) cpu.started = some (log, s) ∧ Q c ∧ Core.Agree NotKey s.core c := by
  obtain ⟨file, zero, m, hat, hinitial⟩ := setUp_launch h hl
  obtain ⟨k, c, hrun, hmeets, hq⟩ := hprogram file zero m hinitial _ hat
  obtain ⟨hpos, hbelow⟩ := hl.sizes
  refine ⟨k, fun xs hk => ?_⟩
  obtain ⟨j, hj⟩ := Nat.exists_eq_add_of_le hk
  obtain ⟨hstay, hstays⟩ := steps_halted (hQ c hq) j
  obtain ⟨c', hxs, hagree, _⟩ := @isolated NotKey _ _ c xs (fun hkey => hkey rfl) (.refl NotKey cpu.started.core)
    (by rw [hj, List.replicate_add]; exact steps_append.mpr ⟨c, hrun, hstay⟩)
    (by rw [hj, List.replicate_add]; exact hmeets.append hrun hstays)
  obtain ⟨log, s, hall, hs⟩ := happenAll_refines (setUp_shows h hpos hbelow hl.silent) hxs
  exact ⟨log, s, c, hall, hq, hs.core ▸ hagree⟩

/-- The machine has halted with these values in `r0` and `r3`. -/
structure Core.Returns (c : Core) (r0 r3 : Word) : Prop where
  stopped : c.running = false
  ok : c.error = .ok
  count : 32 ≤ c.count.toNat
  r0 : c.registers 0 = r0
  r3 : c.registers 3 = r3

/-- The CPU has halted with these values in `r0` and `r3`. -/
structure CPU.Returns (s : CPU) (r0 r3 : Word) : Prop where
  stopped : s.state.running = false
  ok : s.state.panic = .ok
  r0 : s.register 0 = some r0
  r3 : s.register 3 = some r3

/-- What a halted machine returns. -/
lemma Halted.returns {file : Byte → Word} {m : Flat} {c : Core} (h : Halted file m c) :
    c.Returns (file 0) (file 3) :=
  ⟨h.stopped, h.ok, h.count, h.file 0 (by decide), h.file 3 (by decide)⟩

/-- A register of a CPU that shows a machine. -/
lemma Core.Agree.register {s : CPU} {R : Addr → Prop} {c : Core} {r : Byte} (h : Core.Agree R s.core c)
    (hcount : 32 ≤ c.count.toNat) (hr : r < 32) : s.register r = some (c.registers r) := by
  have hlt : r < c.count := Nat.lt_of_lt_of_le hr hcount
  have hhas : s.core.has r = true := by simp [Core.has, h.count, hlt]
  rw [register_core hhas, h.registers]

/-- A program that returns does so in every run with enough turns. -/
lemma launch_returns [Host] {f : Word → Word} (malloc : Ref → Nat → Word) (raw : CPU) (hl : Launch options bytes n)
    (hprogram : ∀ file zero m, Initial options bytes file m →
      Leads NotKey (At stackSize 0 file zero m) (Core.Returns · (file 0) (f (file 0)))) :
    ∃ cpu, setUp malloc raw options = some (some cpu) ∧
      ∃ k, ∀ xs, k ≤ turnCount xs → ∃ log s, happenAll (xs.map Stimulus.event) cpu.started = some (log, s) ∧
        s.Returns (BitVec.ofInt 32 (options.registerValues 0)) (f (BitVec.ofInt 32 (options.registerValues 0))) := by
  obtain ⟨cpu, h⟩ := setUp_ok malloc raw hl
  obtain ⟨k, hruns⟩ := @launch_halts _ _ _ _ _ _ _
    (Core.Returns · (BitVec.ofInt 32 (options.registerValues 0)) (f (BitVec.ofInt 32 (options.registerValues 0)))) h hl
    (fun file zero m hinitial => by
      have hvalue := hinitial.general 0 (by decide)
      exact hvalue ▸ hprogram file zero m hinitial) (fun c hc => hc.stopped)
  refine ⟨cpu, h, k, fun xs hk => ?_⟩
  obtain ⟨log, s, c, hrun, hc, hagree⟩ := hruns xs hk
  refine ⟨log, s, hrun, hagree.running.trans hc.stopped, hagree.error.trans hc.ok, ?_, ?_⟩
  · rw [hagree.register hc.count (by decide), hc.r0]
  · rw [hagree.register hc.count (by decide), hc.r3]

end

end Thorium.Vm
