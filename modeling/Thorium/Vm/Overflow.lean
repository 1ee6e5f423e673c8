import Thorium.Vm.Faults
import Thorium.Vm.MemoryMap
import Thorium.Vm.ReadOnly
import Thorium.Vm.Saving

/-!
# Stack overflow

A turn that pushes more words than there are below `sp`. Behind the address 0 the stack pointer comes to the
end of the address space, where the ROM refuses the word. A later push of the same instruction assigns
`state.panic` anew, but it is refused as well: once the pushes have passed 0, every state has its error
(`Descends`). `overflow_detected` is about whole turns, with the entry of an interrupt.
-/

namespace Thorium.Vm
open Thorium.Isa Thorium.Run

/-! ### Guards -/

/-- The end of the address space is read-only, and no access aborts. -/
structure Guarded (heap : Heap) (bus : Bus) : Prop where
  distinct : bus.Distinct
  safe : NeverAborts heap bus
  rom : ∀ a, romAddress ≤ a → ReadOnly heap bus a

section
variable {heap heap' : Heap} {bus : Bus} {a : Addr} {w : Word}

/-- What is in the memories does not matter. -/
lemma Guarded.write (h : Guarded heap bus) (hs : Shape heap heap') (a : Addr) (w : Word) :
    (∃ heap2 conds, busWordWrite heap' bus a w = some (.ok (heap2, conds))) ∨
      ∃ e, busWordWrite heap' bus a w = some (.error e) := by
  have hst := @busWordWrite_status _ _ bus hs a w
  have hne : writeStatus heap bus a ≠ none := by
    unfold writeStatus
    rw [ne_eq, Option.map_eq_none_iff]
    exact (h.safe a 0).2
  rcases hw : busWordWrite heap' bus a w with _ | (e | ⟨heap2, conds⟩)
  · rw [hw] at hst
    exact absurd hst.symm hne
  · exact .inr ⟨e, rfl⟩
  · exact .inl ⟨heap2, conds, rfl⟩

/-- The ROM refuses a push. -/
lemma Guarded.refuses (h : Guarded heap bus) (hs : Shape heap heap') (ha : romAddress ≤ a) (w : Word) :
    ∃ e, busWordWrite heap' bus a w = some (.error e) := by
  obtain ⟨zone, hz, hmode⟩ := h.rom a ha
  exact ⟨_, busWordWrite_readOnly ((findZone_shape hs bus a).trans hz) ((hs _).2.trans hmode) w⟩

/-- Whether a read succeeds does not depend on what is in the memories. -/
lemma readStatus_shape (h : Shape heap heap') (bus : Bus) (a : Addr) :
    readStatus heap' bus a = readStatus heap bus a := by
  unfold readStatus busWordRead
  rw [findZone_shape h]
  cases findZone heap bus a with
  | none => rfl
  | some zone =>
    dsimp only
    have hst := @memoryWordGet_status (translate zone a) _ _ (h zone.memory).1
    revert hst
    cases memoryWordGet (heap' zone.memory) (translate zone a) <;>
      cases memoryWordGet (heap zone.memory) (translate zone a) <;> intro hst
    · cases hst
      rename_i e
      cases e <;> rfl
    · cases hst
    · cases hst
    · rfl

/-- Every word can be read or is refused. -/
lemma Guarded.read (h : Guarded heap bus) (hs : Shape heap heap') (a : Addr) :
    (∃ w, busWordRead heap' bus a = some (.ok w)) ∨ ∃ e, busWordRead heap' bus a = some (.error e) := by
  have hne : busWordRead heap' bus a ≠ none := by
    intro hnone
    have hst := readStatus_shape hs bus a
    rw [readStatus, hnone] at hst
    exact (h.safe a 0).1 (Option.map_eq_none_iff.mp hst.symm)
  rcases hr : busWordRead heap' bus a with _ | (e | w)
  · exact absurd hr hne
  · exact .inr ⟨e, rfl⟩
  · exact .inl ⟨w, rfl⟩

/-- Stores keep the guard. -/
lemma Guarded.shape (h : Guarded heap bus) (hs : Shape heap heap') : Guarded heap' bus where
  distinct := h.distinct
  safe := by
    intro a w
    constructor
    · rcases h.read hs a with ⟨_, hr⟩ | ⟨_, hr⟩ <;> rw [hr] <;> exact Option.some_ne_none _
    · rcases h.write hs a w with ⟨_, _, hw⟩ | ⟨_, hw⟩ <;> rw [hw] <;> exact Option.some_ne_none _
  rom := by
    intro a ha
    obtain ⟨zone, hz, hmode⟩ := h.rom a ha
    exact ⟨zone, (findZone_shape hs bus a).trans hz, (hs _).2.trans hmode⟩

/-- The words of a zone that does not wrap around are inside of its memory. -/
lemma neverAborts_proper (h : ∀ z ∈ bus.zones, z.Proper heap ∧ (heap z.memory).size % wordSize = 0) :
    NeverAborts heap bus := by
  apply neverAborts_inside
  intro z a hz ha
  obtain ⟨hproper, hwords⟩ := h z (List.mem_of_find?_eq_some hz)
  obtain ⟨hlow, hhigh⟩ := (inZone_iff hproper).mp (findZone_inZone hz)
  have ho : (translate z a).toNat % 4 = 0 := congrArg BitVec.toNat ha
  have hs : (heap z.memory).size.toNat % 4 = 0 := congrArg BitVec.toNat hwords
  have hend := hproper.noWrap
  unfold Zone.size at hhigh hend
  unfold translate wordSize at *
  bv_omega

/-- The memory map of `vm_create`. -/
lemma vmCreate_guarded {malloc : Ref → Nat → Word} {ramSize : Addr} {video : Bool} {vm : VM}
    (hvm : vmCreate malloc ramSize video = some vm) (hpos : 0 < ramSize) (hle : ramSize ≤ keyboardInAddress) :
    Guarded vm.heap vm.bus := by
  have hmap := vmCreate_mapped hvm hpos hle
  obtain ⟨vm', _, hvm', _, _, _, _, hrom⟩ := vmCreate_ok malloc ramSize video
  cases hvm.symm.trans hvm'
  have hproper : ∀ z ∈ vm.bus.zones, z.Proper vm.heap ∧ (vm.heap z.memory).size % wordSize = 0 :=
    fun z hz => ⟨hmap.proper z hz, hmap.words hz⟩
  refine ⟨hmap.distinct, neverAborts_proper hproper, fun a ha => ⟨romZone, ?_, ?_⟩⟩
  · apply findZone_covers hmap.proper hmap.apart (hmap.zones.mem_iff.mpr (by simp))
    have hsize : romZone.size vm.heap = 0x2000000 := by
      show (vm.heap romRef).size.toNat = _
      rw [hmap.rom]
      rfl
    have hfrom : romAddress.toNat = 0xFE000000 := by decide
    have hlt := a.isLt
    rw [BitVec.le_def, hfrom] at ha
    refine ⟨?_, ?_⟩
    · show romAddress.toNat ≤ a.toNat
      omega
    · show a.toNat < romAddress.toNat + romZone.size vm.heap
      omega
  · show (vm.heap romRef).mode = .r
    rw [hrom]
    rfl

end

/-! ### Pushes -/

section
variable {s t : CPU} {j : Nat} {regs : List Byte} {v : Word}

/-- A CPU after `j` pushes. The words from the old `sp` up are as before, and there is an error when they
have passed the address 0. -/
structure Descends (s : CPU) (j : Nat) (t : CPU) : Prop where
  sp : t.sp = slot s j
  bus : t.bus = s.bus
  shape : Shape s.heap t.heap
  registerCount : t.registerCount = s.registerCount
  above : Above s.sp s t
  alarm : s.sp.toNat < 4 * j → t.state.panic ≠ .ok

/-- Behind the address 0 there is the ROM. -/
lemma slot_wraps (hj : j ≤ 512) (hover : s.sp.toNat < 4 * j) : romAddress ≤ slot s j := by
  have hrom : romAddress.toNat = 0xFE000000 := by decide
  have hslot : (slot s j).toNat = (2 ^ 32 - (4 * j) % 2 ^ 32 + s.sp.toNat) % 2 ^ 32 := by
    rw [slot, BitVec.toNat_sub, BitVec.toNat_ofNat]
  rw [BitVec.le_def, hrom, hslot]
  omega

/-- One push, whatever the error before it. -/
lemma Descends.push (h : Descends s j t) (hg : Guarded s.heap s.bus) (hj : j < 512) (v : Word) (e : CpuError) :
    ∃ b t', pushWord v (t.setPanic e) = some (b, t') ∧ Descends s (j + 1) t' ∧
      (b = true → ¬ s.sp.toNat < 4 * (j + 1)) ∧ (b = false → t'.state.panic ≠ .ok) ∧ t'.debug = t.debug ∧
      t'.debugger = t.debugger := by
  have hslot : (t.setPanic e).sp - wordSize = slot s (j + 1) := (congrArg (· - wordSize) h.sp).trans slot_succ
  have hbus : (t.setPanic e).bus = s.bus := h.bus
  by_cases hover : s.sp.toNat < 4 * (j + 1)
  · obtain ⟨error, hw⟩ := hg.refuses h.shape (slot_wraps hj hover) v
    rw [← hslot, ← hbus] at hw
    exact ⟨false, _, pushWord_error hw, ⟨hslot, h.bus, h.shape, h.registerCount, h.above, fun _ => nofun⟩,
      nofun, fun _ => nofun, rfl, rfl⟩
  · rcases hg.write h.shape (slot s (j + 1)) v with ⟨heap, conds, hw⟩ | ⟨error, hw⟩
    · rw [← hslot, ← hbus] at hw
      refine ⟨true, _, pushWord_ok hw, ⟨hslot, h.bus, h.shape.trans (busWordWrite_shape hw), h.registerCount, ?_,
        fun h => absurd h hover⟩, fun _ => hover, nofun, rfl, rfl⟩
      intro b hb
      have hne : b ≠ (t.setPanic e).sp - wordSize := by
        rintro rfl
        rw [hslot, BitVec.le_def, slot_toNat (by omega)] at hb
        omega
      have hd : (t.setPanic e).bus.Distinct := hbus ▸ hg.distinct
      exact (busWordRead_write_ne hd hw hne).trans (h.above b hb)
    · rw [← hslot, ← hbus] at hw
      exact ⟨false, _, pushWord_error hw, ⟨hslot, h.bus, h.shape, h.registerCount, h.above, fun _ => nofun⟩,
        nofun, fun _ => nofun, rfl, rfl⟩

/-- How many of some registers there are. -/
def present (s : CPU) (regs : List Byte) : Nat := regs.countP fun r => (s.register r).isSome

/-- The pushes of registers. -/
lemma Descends.pushes (h : Descends s j t) (hg : Guarded s.heap s.bus) (hj : j + regs.length ≤ 512) :
    ∃ t', pushRegisters regs t = some ((), t') ∧ Descends s (j + present s regs) t' := by
  induction regs generalizing j t with
  | nil => exact ⟨t, rfl, h⟩
  | cons r regs ih =>
    have hlen : j + (regs.length + 1) ≤ 512 := hj
    have hsome : (t.register r).isSome = (s.register r).isSome := register_isSome_congr h.registerCount r
    cases hr : t.register r with
    | none =>
      have hpush : pushRegister r t = some ((), t.fault.setPanic .invalidRegister) := by
        show (registerGet r t).bind _ = _
        rw [registerGet_none hr]
        rfl
      have h1 : Descends s j (t.fault.setPanic .invalidRegister) :=
        ⟨h.sp, h.bus, h.shape, h.registerCount, h.above, fun _ => nofun⟩
      obtain ⟨t', hrun, h'⟩ := ih h1 (by omega)
      rw [hr] at hsome
      refine ⟨t', ?_, ?_⟩
      · rw [pushRegisters, bind_apply, hpush]
        exact hrun
      · rw [present, List.countP_cons_of_neg (by rw [← hsome]; exact Bool.false_ne_true)]
        exact h'
    | some v =>
      obtain ⟨b, t1, hpush, h1, _⟩ := h.push hg (by omega) v .ok
      have hregister : pushRegister r t = some ((), t1) := by
        show (registerGet r t).bind _ = _
        rw [registerGet_some hr]
        show (pushWord v (t.setPanic .ok)).bind _ = _
        rw [hpush]
        rfl
      obtain ⟨t', hrun, h'⟩ := ih h1 (by omega)
      rw [hr] at hsome
      refine ⟨t', ?_, ?_⟩
      · rw [pushRegisters, bind_apply, hregister]
        exact hrun
      · rw [present, List.countP_cons_of_pos (by rw [← hsome]; rfl)]
        have hadd : j + 1 + present s regs = j + (regs.countP (fun r => (s.register r).isSome) + 1) := by
          rw [present]
          omega
        exact hadd ▸ h'

/-- The entry of an interrupt pushes `pc`. -/
lemma interruptEntry_push (s : CPU) : interruptEntry s =
    (pushWord s.pc { s.acknowledge with sp := s.sp }).bind fun x =>
      some ((), if x.1 then x.2.jumped (romAddress + 8) else x.2) := by
  rw [interruptEntry_apply, pushWord_apply, Option.bind_assoc]
  show (busWrite _ _ s.acknowledge).bind _ = (busWrite _ _ s.acknowledge).bind _
  congr 1
  funext x
  obtain ⟨x, s1⟩ := x
  cases x <;> rfl

/-- Nothing has been pushed. -/
lemma Descends.refl (s : CPU) : Descends s 0 s :=
  ⟨slot_zero.symm, rfl, .refl _, rfl, fun _ _ => rfl, fun h => absurd h (Nat.not_lt_zero _)⟩

/-- The entry of an interrupt. -/
lemma entry_descends (hg : Guarded s.heap s.bus) :
    ∃ t, interruptEntry s = some ((), t) ∧ Descends s 1 t ∧ (t.state.panic = .ok → t.pc = romAddress + 8) ∧
      t.debug = s.debug ∧ t.debugger = s.debugger := by
  have h0 : Descends s 0 { s.acknowledge with sp := s.sp } := { Descends.refl s with }
  obtain ⟨b, t, hpush, h1, _, hfail, hdebug, hdebugger⟩ := h0.push hg (by decide) s.pc s.state.panic
  have hpush : pushWord s.pc { s.acknowledge with sp := s.sp } = some (b, t) := hpush
  refine ⟨if b then t.jumped (romAddress + 8) else t, ?_, ?_⟩
  · rw [interruptEntry_push, hpush]
    rfl
  · cases b with
    | true => exact ⟨{ h1 with }, fun _ => rfl, hdebug, hdebugger⟩
    | false => exact ⟨h1, fun h => absurd h (hfail rfl), hdebug, hdebugger⟩

/-! ### Operations -/

/-- The words an operation pushes, if it does not fail before. -/
def pushes [Host] (s : CPU) (word : Word) : Op → Nat
  | .pushR | .callR => present s [byteOf word 1]
  | .pushRR => present s [byteOf word 1, byteOf word 2]
  | .pushRRR => present s [byteOf word 1, byteOf word 2, byteOf word 3]
  | .pusha => s.registerCount.toNat
  | .pushW | .callS | .callA => 1
  | _ => 0

/-- At most all registers exist. -/
lemma present_le (s : CPU) (regs : List Byte) : present s regs ≤ regs.length := List.countP_le_length

/-- All of them exist. -/
lemma present_all (h : ∀ r ∈ regs, (s.register r).isSome = true) : present s regs = regs.length :=
  List.countP_eq_length.mpr h

/-- A turn has ended with an error, and the words from the old `sp` up are as before. -/
structure Alarmed (s t : CPU) : Prop where
  alarm : t.state.panic ≠ .ok
  above : Above s.sp s t

/-- A missing operand changes nothing but the error. -/
lemma Descends.missed (h : Descends s j t) : Descends s j t.missed := { h with alarm := fun _ => nofun }

/-- An operand. -/
lemma Descends.operand (h : Descends s j t) (hg : Guarded s.heap s.bus) :
    ∃ o t', fetchOperand t = some (o, t') ∧ Descends s j t' ∧ (o = none → t'.state.panic ≠ .ok) := by
  by_cases hp : t.state.panic = .ok
  · rcases hg.read h.shape t.pc with ⟨w, hr⟩ | ⟨e, hr⟩ <;> rw [← h.bus] at hr
    · exact ⟨some w, t.skip, fetchOperand_ok hp hr, { h with }, nofun⟩
    · have h' : Descends s j (t.fault.setPanic .cannotReadMemory).skip := { h with alarm := fun _ => nofun }
      refine ⟨none, _, ?_, h', fun _ => nofun⟩
      rw [fetchOperand, bind_apply, cpuFetch_error hp hr]
      rfl
  · refine ⟨none, t.skip, ?_, { h with }, fun _ => hp⟩
    rw [fetchOperand, bind_apply, cpuFetch_panic hp]
    show some (if t.state.panic ≠ .ok then none else some 0, t.skip) = _
    rw [if_pos hp]

/-- A call. -/
lemma Descends.call (h : Descends s j t) (hg : Guarded s.heap s.bus) (hj : j < 512) (target : CPU → Word → Addr)
    (a : Word) (e : CpuError) (hover : s.sp.toNat < 4 * (j + 1)) :
    ∃ t', callTo target a (t.setPanic e) = some ((), t') ∧ Alarmed s t' := by
  obtain ⟨b, t', hpush, h', hfit, hfail, _⟩ := h.push hg hj t.pc e
  cases b with
  | true => exact absurd hover (hfit rfl)
  | false =>
    refine ⟨t', ?_, hfail rfl, h'.above⟩
    show (pushWord t.pc (t.setPanic e)).bind _ = _
    rw [hpush]
    rfl

variable [Host] {op : Op} {word : Word}

/-- Printing. -/
lemma Descends.print (h : Descends s j t) (hg : Guarded s.heap s.bus) (hop : ops (byteOf word 0) = some op) :
    ∃ t', printInstruction word t = some ((), t') ∧ Descends s j t' := by
  rcases printInstruction_cases hop t with hr | ⟨_, _, _, hr⟩ | ⟨_, _, hn, _⟩
  · exact ⟨t, hr, h⟩
  · exact ⟨_, hr, h.missed⟩
  · rw [h.bus] at hn
    rcases hg.read h.shape t.pc with ⟨w, hr⟩ | ⟨e, hr⟩ <;> cases hn.symm.trans hr

/-- The debugger. -/
lemma Descends.trap {t' : CPU} (h : Descends s j t) (hop : ops (byteOf word 0) = some op)
    (hr : Vm.trap word t = some ((), t')) : Descends s j t' := by
  have htriple : Triple (Descends s j) (Vm.trap word) fun _ => Descends s j := by
    apply trap_triple
    · intro u text u' hu hr
      rcases cpuInstructionToString_cases hop u with ⟨_, h⟩ | ⟨_, _, _, _, h⟩ | ⟨_, _, _, h⟩ <;>
        cases h.symm.trans hr
      · exact hu
      · exact hu.missed
    · exact fun _ _ _ _ hu => { hu with }
  exact htriple h hr

/-- An operation that pushes too many words. -/
lemma handler_alarms (h : Descends s j t) (hg : Guarded s.heap s.bus) (hop : ops (byteOf word 0) = some op)
    (hj : j ≤ 1) (hbefore : ¬ s.sp.toNat < 4 * j) (hover : s.sp.toNat < 4 * (j + pushes s word op)) :
    ∃ t', handler op word t = some ((), t') ∧ Alarmed s t' := by
  obtain ⟨u, hprint, hu⟩ := h.print hg hop
  have hcount := s.registerCount.isLt
  have hafter {k : Run CPU Unit} (hh : handler op word = printInstruction word >>= fun _ => k) :
      handler op word t = k u := by
    rw [hh, bind_apply, hprint]
    rfl
  -- The operations that push registers.
  have hregisters {regs : List Byte} (hlen : regs.length ≤ 256) (hpush : pushes s word op = present s regs)
      (hh : handler op word t = pushRegisters regs u) : ∃ t', handler op word t = some ((), t') ∧ Alarmed s t' := by
    obtain ⟨t', hrun, h'⟩ := hu.pushes hg (by omega : j + regs.length ≤ 512)
    rw [hpush] at hover
    exact ⟨t', hh.trans hrun, h'.alarm hover, h'.above⟩
  -- A word that is pushed by itself or as the return address.
  have hcall {target : CPU → Word → Addr} (hpush : pushes s word op = 1)
      (hh : ∀ o v, fetchOperand u = some (o, v) →
        handler op word t = o.elim (some ((), v)) fun a => callTo target a v) :
      ∃ t', handler op word t = some ((), t') ∧ Alarmed s t' := by
    obtain ⟨o, v, hfetch, hv, hnone⟩ := hu.operand hg
    rw [hh o v hfetch]
    rw [hpush] at hover
    cases o with
    | none => exact ⟨v, rfl, hnone rfl, hv.above⟩
    | some a => exact hv.call hg (by omega) target a v.state.panic hover
  cases op with
  | pushR | pushRR | pushRRR => exact hregisters (by simp) rfl (hafter rfl)
  | pusha =>
    have hlen := generalRegisters_length s.registerCount
    apply @hregisters (generalRegisters s.registerCount)
    · omega
    · rw [present_all generalRegisters_isSome, hlen]
      rfl
    · rw [hafter rfl, ← hu.registerCount]
      rfl
  | pushW =>
    obtain ⟨o, v, hfetch, hv, hnone⟩ := hu.operand hg
    cases o with
    | none =>
      refine ⟨v, ?_, hnone rfl, hv.above⟩
      rw [hafter rfl, bind_apply, hfetch]
      rfl
    | some a =>
      obtain ⟨b, t', hpush, h', _⟩ := hv.push hg (by omega) a v.state.panic
      have hpush : pushWord a v = some (b, t') := hpush
      refine ⟨t', ?_, h'.alarm hover, h'.above⟩
      rw [hafter rfl, bind_apply, hfetch]
      show (pushWord a v).bind _ = _
      rw [hpush]
      rfl
  | callS =>
    refine @hcall segmentTarget rfl fun o v hfetch => ?_
    rw [hafter rfl, bind_apply, hfetch]
    cases o <;> rfl
  | callA =>
    refine @hcall absoluteTarget rfl fun o v hfetch => ?_
    rw [hafter rfl, bind_apply, hfetch]
    cases o <;> rfl
  | callR =>
    cases hr : u.register (byteOf word 1) with
    | none =>
      refine ⟨u.fault.setPanic .invalidRegister, ?_, show CpuError.invalidRegister ≠ .ok by decide, hu.above⟩
      rw [hafter rfl]
      dsimp only
      rw [bind_apply, registerGet_none hr]
      rfl
    | some a =>
      have hle : present s [byteOf word 1] ≤ 1 := present_le s _
      have hover : s.sp.toNat < 4 * (j + present s [byteOf word 1]) := hover
      obtain ⟨t', hrun, halarm⟩ := hu.call hg (by omega) absoluteTarget a .ok (by omega)
      refine ⟨t', ?_, halarm⟩
      rw [hafter rfl]
      dsimp only
      rw [bind_apply, registerGet_some hr]
      exact hrun
  | _ => exact absurd hover hbefore

/-! ### Turns -/

/-- The rest of a turn, when its instruction pushes too many words. -/
lemma fetchExecute_alarms (h : Descends s j t) (hg : Guarded s.heap s.bus) (hj : j ≤ 1)
    (hover : t.state.panic = .ok → ∀ w op, busWordRead t.heap t.bus t.pc = some (.ok w) →
      ops (byteOf (htov w) 0) = some op → s.sp.toNat < 4 * (j + pushes s (htov w) op)) :
    (∃ t', fetchExecute t = some ((), t') ∧ Alarmed s t') ∨
      (fetchExecute t = none ∧ (t.debug.trap && t.debugger) = true) := by
  by_cases hp : t.state.panic = .ok
  · rcases hg.read h.shape t.pc with ⟨w, hr⟩ | ⟨e, hr⟩ <;> rw [← h.bus] at hr
    · have hp' : t.skip.state.panic = .ok := hp
      rw [fetchExecute_ok hp hr, execute, bind_apply, cpuDecode_ok hp']
      have hskip : Descends s j t.skip := { h with }
      cases hop : ops (byteOf (htov w) 0) with
      | none => exact .inl ⟨_, rfl, show CpuError.unimplementedOpcode ≠ .ok by decide, h.above⟩
      | some op =>
        have hover := hover hp w op hr hop
        show (∃ t', ((trap (htov w) t.skip).bind _ = _ ∧ _)) ∨ ((trap (htov w) t.skip).bind _ = _ ∧ _)
        cases htrap : trap (htov w) t.skip with
        | none =>
          by_cases hq : (t.debug.trap && t.debugger) = true
          · exact .inr ⟨rfl, hq⟩
          · have hoff := @trap_off t.skip _ (htov w) (Bool.eq_false_iff.mpr hq)
            cases hoff.symm.trans htrap
        | some x =>
          have hx := hskip.trap hop htrap
          have hbefore : ¬ s.sp.toNat < 4 * j := fun hlt => h.alarm hlt hp
          obtain ⟨t', hrun, halarm⟩ := handler_alarms hx hg hop hj hbefore hover
          refine .inl ⟨t'.stepped, ?_, halarm.alarm, halarm.above⟩
          show (handler op (htov w) x.2).bind _ = _
          rw [hrun]
          rfl
    · have hfetch := cpuFetch_error hp hr
      have hpanic : (t.fault.setPanic .cannotReadMemory).skip.state.panic ≠ .ok :=
        show CpuError.cannotReadMemory ≠ .ok by decide
      refine .inl ⟨(t.fault.setPanic .cannotReadMemory).skip, ?_, hpanic, h.above⟩
      rw [fetchExecute, bind_apply, hfetch]
      rfl
  · refine .inl ⟨t.skip, ?_, hp, h.above⟩
    rw [fetchExecute, bind_apply, cpuFetch_panic hp]
    show (if t.skip.state.panic = .ok then execute (htov 0) else pure ()) t.skip = _
    rw [if_neg (show ¬ t.skip.state.panic = .ok from hp)]
    rfl

/-- A turn begins with the entry of an interrupt. -/
def CPU.interrupted (s : CPU) : Bool := s.flags.interruptsEnabled && picInterruptActive s.pic s.heap

/-- The words that a turn pushes, with the entry of an interrupt, if nothing fails. -/
def CPU.wordsPushed (s : CPU) : Nat :=
  let entry := if s.interrupted then 1 else 0
  match busWordRead s.heap s.bus (if s.interrupted then romAddress + 8 else s.pc) with
  | some (.ok w) =>
    match ops (byteOf (htov w) 0) with
    | some op => entry + pushes s (htov w) op
    | none => entry
  | _ => entry

/-- An operation pushes at most 255 words. -/
lemma pushes_le (s : CPU) (word : Word) (op : Op) : pushes s word op ≤ 255 := by
  have hcount := s.registerCount.isLt
  have h1 := present_le s [byteOf word 1]
  have h2 := present_le s [byteOf word 1, byteOf word 2]
  have h3 := present_le s [byteOf word 1, byteOf word 2, byteOf word 3]
  cases op with
  | pushR | callR => exact h1.trans (show 1 ≤ 255 by decide)
  | pushRR => exact h2.trans (show 2 ≤ 255 by decide)
  | pushRRR => exact h3.trans (show 3 ≤ 255 by decide)
  | pusha => exact Nat.le_of_lt_succ hcount
  | pushW | callS | callA => exact (by decide : 1 ≤ 255)
  | _ => exact Nat.zero_le _

/-- A turn pushes at most 256 words. -/
lemma CPU.wordsPushed_le (s : CPU) : s.wordsPushed ≤ 256 := by
  have hentry : (if s.interrupted then 1 else 0) ≤ 1 := by split <;> decide
  unfold CPU.wordsPushed
  dsimp only
  split
  next w _ =>
    split
    next op _ =>
      have := pushes_le s (htov w) op
      omega
    · omega
  · omega

/-- A turn that pushes too many words. -/
lemma cpuTurn_alarms (hg : Guarded s.heap s.bus) (hgo : s.goesOn) (hover : s.sp.toNat < 4 * s.wordsPushed) :
    (∃ s', cpuTurn s = some ((), s') ∧ Alarmed s s') ∨
      (cpuTurn s = none ∧ (s.debug.trap && s.debugger) = true) := by
  have hturn : cpuTurn s = cpuLoopBody s := by
    rw [cpuTurn, bind_apply, get_apply, Option.bind_some]
    dsimp only
    rw [if_pos hgo]
  have hlow := s.wordsPushed_le
  rw [hturn, cpuLoopBody_eq]
  by_cases hint : s.interrupted = true
  · rw [show (s.flags.interruptsEnabled && picInterruptActive s.pic s.heap) = true from hint]
    obtain ⟨t, hentry, ht, hpc, hdebug, hdebugger⟩ := entry_descends hg
    rw [if_pos rfl, hentry, ← hdebug, ← hdebugger]
    apply fetchExecute_alarms ht hg (Nat.le_refl _)
    intro hp w op hr hop
    -- The entry has not written over the instruction.
    have hle : s.sp ≤ romAddress + 8 := by
      have hrom : (romAddress + 8).toNat = 0xFE000008 := by decide
      rw [BitVec.le_def, hrom]
      omega
    rw [hpc hp, ht.above _ hle] at hr
    rw [CPU.wordsPushed, if_pos hint, if_pos hint, hr] at hover
    dsimp only at hover
    rw [hop] at hover
    exact hover
  · rw [show (s.flags.interruptsEnabled && picInterruptActive s.pic s.heap) = false from Bool.eq_false_iff.mpr hint,
      if_neg Bool.false_ne_true]
    apply fetchExecute_alarms (Descends.refl s) hg (Nat.zero_le _)
    intro _ w op hr hop
    rw [CPU.wordsPushed, if_neg hint, if_neg hint, hr] at hover
    dsimp only at hover
    rw [hop] at hover
    exact hover

/-- **Stack overflow is detected**: on the memory map of `vm_create`, a turn that pushes more words than
there are between 0 and `sp` ends with an error, whatever it has pushed before the wrap, and leaves the
words from `sp` up as they were. Only the debugger may keep it from ending. -/
theorem overflow_detected {malloc : Ref → Nat → Word} {ramSize : Addr} {video : Bool} {vm : VM}
    (hvm : vmCreate malloc ramSize video = some vm) (hpos : 0 < ramSize) (hle : ramSize ≤ keyboardInAddress)
    (hbus : s.bus = vm.bus) (hshape : Shape vm.heap s.heap) (hgo : s.goesOn)
    (hover : s.sp.toNat < 4 * s.wordsPushed) :
    (∃ s', cpuTurn s = some ((), s') ∧ s'.state.panic ≠ .ok ∧
      ∀ a, s.sp ≤ a → busWordRead s'.heap s'.bus a = busWordRead s.heap s.bus a) ∨
      (cpuTurn s = none ∧ (s.debug.trap && s.debugger) = true) := by
  have hg : Guarded s.heap s.bus := hbus ▸ (vmCreate_guarded hvm hpos hle).shape hshape
  rcases cpuTurn_alarms hg hgo hover with ⟨s', hrun, halarm⟩ | hnone
  · exact .inl ⟨s', hrun, halarm.alarm, halarm.above⟩
  · exact .inr hnone

end

/-- Memories with the same word everywhere. -/
def fullHeap (heap : Heap) (w : Word) : Heap := fun r => { heap r with raw := fun _ => w }

/-- A memory full of one word has the same shape. -/
lemma fullHeap_shape (heap : Heap) (w : Word) : Shape heap (fullHeap heap w) := fun _ => ⟨rfl, rfl⟩

/-- A machine with such memories, and room for one word on the stack. -/
def fullCpu (heap : Heap) (bus : Bus) (w : Word) : CPU := { smallCpu (fullHeap heap w) with bus := bus, sp := 4 }

/-- `PUSH r0, r0` pushes two words. -/
lemma fullCpu_wordsPushed {heap : Heap} {bus : Bus} {w : Word} [Host]
    (hread : busWordRead (fullHeap heap w) bus 0 = some (.ok w)) (hop : ops (byteOf (htov w) 0) = some .pushRR)
    (h1 : byteOf (htov w) 1 = 0) (h2 : byteOf (htov w) 2 = 0) : (fullCpu heap bus w).wordsPushed = 2 := by
  have hr : busWordRead (fullCpu heap bus w).heap (fullCpu heap bus w).bus 0 = _ := hread
  have hint : (fullCpu heap bus w).interrupted = false := rfl
  have hpc : (fullCpu heap bus w).pc = 0 := rfl
  rw [CPU.wordsPushed, hint, if_neg Bool.false_ne_true, if_neg Bool.false_ne_true, hpc, hr]
  dsimp only
  rw [hop]
  dsimp only [pushes]
  rw [h1, h2]
  rfl

/-- The second word does not fit. -/
theorem overflow_detected_second : ∃ vm s', vmCreate (fun _ _ => 0) 5120 false = some vm ∧
    @cpuTurn ⟨.little⟩ (fullCpu vm.heap vm.bus (instructionWord .pushRR {})) = some ((), s') ∧
    s'.state.panic ≠ .ok := by
  obtain ⟨vm, hvm, hmap⟩ := @memoryMap_of 5120 false (fun _ _ => 0) (by decide) (by decide)
  have hshape := fullHeap_shape vm.heap (instructionWord .pushRR {})
  have hread := hmap.ram _ hshape 0 (by decide) (by decide) (by decide)
  have hword := @fullCpu_wordsPushed _ _ _ ⟨.little⟩ hread (by decide +kernel) (by decide +kernel)
    (by decide +kernel)
  generalize instructionWord .pushRR {} = w at hshape hword ⊢
  have hover : (fullCpu vm.heap vm.bus w).sp.toNat < 4 * @CPU.wordsPushed ⟨.little⟩ (fullCpu vm.heap vm.bus w) := by
    rw [hword]
    exact (by decide : 4 < 4 * 2)
  rcases @overflow_detected _ ⟨.little⟩ _ _ _ _ hvm (by decide) (by decide) rfl hshape ⟨rfl, rfl⟩ hover with
    ⟨s', hrun, hpanic, _⟩ | ⟨_, hdebug⟩
  · exact ⟨vm, s', hvm, hrun, hpanic⟩
  · cases hdebug

end Thorium.Vm
