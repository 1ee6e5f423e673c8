import Thorium.Vm.Changes
import Thorium.Vm.Pending

/-!
# The delivery of interrupts

Runs of the loop of the CPU among the events of the devices. A turn is logged: it may enter an interrupt, and
then execute an operation. An interrupt is entered when it is the first of those that are pending and not
masked (`Entry`), a pending interrupt stays pending until it is entered, and no other is entered before an
`IRET` or an `INE` has been executed (`delivery`).
-/

namespace Thorium.Vm
open Thorium.Isa Thorium.Run

/-! ### Logged turns -/

/-- What a turn does. -/
inductive Label where
  | enter (i : Interrupt)
  | exec (op : Op)
  deriving DecidableEq

section
variable [Host]

/-- The start of `cpuLoopBody`. -/
def entryLogged : Run CPU (List Label) := do
  let cpu ← get
  if cpu.flags.interruptsEnabled && picInterruptActive cpu.pic cpu.heap then
    interruptEntry
    return [.enter ((← get).ir.setWidth 8)]
  else return []

/-- `execute` -/
def executeLogged (word : Word) : Run CPU (List Label) := do
  match ← cpuDecode word with
  | some op =>
    trap word
    handler op word
    modify fun cpu => { cpu with debug := { cpu.debug with step := cpu.debug.step + 1 } }
    return [.exec op]
  | none =>
    setPanic .unimplementedOpcode
    return []

/-- The rest of `cpuLoopBody`. -/
def fetchExecuteLogged : Run CPU (List Label) := do
  let word := htov (← cpuFetch)
  if (← get).state.panic = .ok then executeLogged word else return []

/-- `cpuTurn` -/
def turnLogged : Run CPU (List Label) := do
  if (← get).goesOn then
    let entered ← entryLogged
    let executed ← fetchExecuteLogged
    return entered ++ executed
  else return []

/-- What happens to the machine: a turn of the loop, the trigger of an interrupt by a device, and a word that
a device sets in a memory. -/
inductive Event where
  | turn
  | trigger (i : Interrupt)
  | store (ref : Ref) (address : Addr) (word : Word)
  deriving DecidableEq

/-- An event. -/
def happen : Event → Run CPU (List Label)
  | .turn => turnLogged
  | .trigger i => do
    modify fun cpu => { cpu with
      pic := picInterruptTrigger cpu.pic i
      signals := cpu.signals ++ [.picGotInterrupt] }
    return []
  | .store ref address word => do
    modify fun cpu => { cpu with heap := setWord cpu.heap ref address word }
    return []

/-- Some events, one after another. -/
def happenAll : List Event → Run CPU (List Label)
  | [] => return []
  | event :: events => do
    let log ← happen event
    let log' ← happenAll events
    return log ++ log'

/-! ### The log of a turn -/

variable {s s' : CPU} {log : List Label} {word : Word}

omit [Host] in
/-- The entry of an interrupt with its log. -/
lemma entryLogged_apply (s : CPU) : entryLogged s =
    if s.flags.interruptsEnabled && picInterruptActive s.pic s.heap then
      (interruptEntry s).map fun x => ([.enter (x.2.ir.setWidth 8)], x.2)
    else some ([], s) := by
  unfold entryLogged
  rw [bind_apply, get_apply, Option.bind_some]
  dsimp only
  split
  · rw [bind_apply]
    cases interruptEntry s <;> rfl
  · rfl

/-- The log does not change an execution. -/
lemma executeLogged_forget (word : Word) (s : CPU) :
    execute word s = (executeLogged word s).map fun x => ((), x.2) := by
  unfold execute executeLogged
  rw [bind_apply, bind_apply]
  cases cpuDecode word s with
  | none => rfl
  | some x =>
    rcases x with ⟨_ | op, s1⟩
    · rfl
    · show (trap word s1).bind _ = ((trap word s1).bind _).map _
      cases trap word s1 with
      | none => rfl
      | some x =>
        show (handler op word x.2).bind _ = ((handler op word x.2).bind _).map _
        cases handler op word x.2 <;> rfl

/-- The log does not change a fetch. -/
lemma fetchExecuteLogged_forget (s : CPU) :
    fetchExecute s = (fetchExecuteLogged s).map fun x => ((), x.2) := by
  unfold fetchExecute fetchExecuteLogged
  rw [bind_apply, bind_apply]
  cases cpuFetch s with
  | none => rfl
  | some x =>
    show (if x.2.state.panic = .ok then execute (htov x.1) else pure ()) x.2 =
      ((if x.2.state.panic = .ok then executeLogged (htov x.1) else pure []) x.2).map _
    split
    · exact executeLogged_forget _ _
    · rfl

/-- A logged turn is a turn. -/
theorem turnLogged_forget (s : CPU) : cpuTurn s = (turnLogged s).map fun x => ((), x.2) := by
  unfold cpuTurn turnLogged
  rw [bind_apply, bind_apply, get_apply, Option.bind_some, Option.bind_some]
  dsimp only
  split
  · rw [cpuLoopBody_eq, bind_apply, entryLogged_apply]
    split
    · cases interruptEntry s with
      | none => rfl
      | some x =>
        show fetchExecute x.2 = ((fetchExecuteLogged x.2).bind _).map _
        rw [fetchExecuteLogged_forget]
        cases fetchExecuteLogged x.2 <;> rfl
    · show fetchExecute s = ((fetchExecuteLogged s).bind _).map _
      rw [fetchExecuteLogged_forget]
      cases fetchExecuteLogged s <;> rfl
  · rfl

end

/-! ### One turn -/

/-- The CPU `e` after the entry of an interrupt in the CPU `s`. -/
structure Entry (s : CPU) (i : Interrupt) (e : CPU) : Prop where
  goesOn : s.goesOn
  enabled : s.flags.interruptsEnabled = true
  deliverable : deliverable s.pic s.heap i = true
  first : ∀ j, Vm.deliverable s.pic s.heap j = true → i ≤ j
  disabled : e.flags.interruptsEnabled = false
  ir : e.ir = i.setWidth 32
  pending : ∀ j, isActive e.pic (findInterruptLocation j) = true ↔
    isActive s.pic (findInterruptLocation j) = true ∧ j ≠ i
  sp : e.sp = s.sp - wordSize
  stored : (∃ conds, busWordWrite s.heap s.bus e.sp s.pc = some (.ok (e.heap, conds)) ∧
      busWordRead e.heap e.bus e.sp = some (.ok s.pc) ∧ e.pc = romAddress + 8 ∧ e.state.panic = .ok) ∨
    ∃ error, busWordWrite s.heap s.bus e.sp s.pc = some (.error error) ∧ e.heap = s.heap ∧
      e.state.panic = .cannotWriteMemory

section
variable {s s' e : CPU} {i j : Interrupt} {k : Kind} {log : List Label} {kinds : List Kind} {α : Type}

/-- What the entry of an interrupt does. -/
lemma interruptEntry_entry (hgo : s.goesOn) (hen : s.flags.interruptsEnabled = true)
    (hact : picInterruptActive s.pic s.heap = true) (hr : interruptEntry s = some ((), e)) :
    Entry s (picInterruptGet s.pic s.heap) e := by
  obtain ⟨hdeliverable, hfirst⟩ := picInterruptGet_spec hact
  have hpending := isActive_reset s.pic (picInterruptGet s.pic s.heap)
  rcases hw : busWordWrite s.heap s.bus (s.sp - wordSize) s.pc with _ | (error | ⟨heap, conds⟩)
  · rw [interruptEntry_none hw] at hr
    cases hr
  · rw [interruptEntry_error hw] at hr
    cases hr
    exact ⟨hgo, hen, hdeliverable, hfirst, rfl, rfl, hpending, rfl, .inr ⟨error, hw, rfl, rfl⟩⟩
  · rw [interruptEntry_ok hw] at hr
    cases hr
    have hread := busWordRead_write hw
    exact ⟨hgo, hen, hdeliverable, hfirst, rfl, rfl, hpending, rfl, .inl ⟨conds, hw, hread, rfl, hgo.2⟩⟩

/-- A change other than an acknowledgement ends no interrupt's being pending. -/
lemma Change.isActive (h : Change k s s') (hk : k ≠ .acknowledge)
    (ha : isActive s.pic (findInterruptLocation i) = true) :
    Vm.isActive s'.pic (findInterruptLocation i) = true := by
  cases h with
  | register hv =>
    obtain ⟨_, _, _, _, _, _, _, rfl⟩ := setRegister_eq hv
    exact ha
  | trigger => exact (isActive_trigger _ _ i).mpr (.inr ha)
  | acknowledge => exact absurd rfl hk
  | _ => exact ha

/-- A change other than an enabling leaves the interrupts disabled. -/
lemma Change.disabled (h : Change k s s') (hk : k ≠ .enable) (hd : s.flags.interruptsEnabled = false) :
    s'.flags.interruptsEnabled = false := by
  cases h with
  | register hv =>
    obtain ⟨_, _, _, _, _, _, _, rfl⟩ := setRegister_eq hv
    exact hd
  | enable => exact absurd rfl hk
  | disable => rfl
  | acknowledge => rfl
  | _ => exact hd

/-- What does not acknowledge keeps an interrupt active. -/
lemma Changing.isActive {m : Run CPU α} (hm : Changing kinds m) (hk : .acknowledge ∉ kinds) :
    Triple (fun s => isActive s.pic (findInterruptLocation i) = true) m
      fun _ s => Vm.isActive s.pic (findInterruptLocation i) = true := by
  apply hm.invariant
  rintro s s' ⟨k, hin, hc⟩ ha
  exact hc.isActive (fun e => hk (e ▸ hin)) ha

/-- What does not enable keeps interrupts disabled. -/
lemma Changing.disabled {m : Run CPU α} (hm : Changing kinds m) (hk : .enable ∉ kinds) :
    Triple (fun s => s.flags.interruptsEnabled = false) m fun _ s => s.flags.interruptsEnabled = false := by
  apply hm.invariant
  rintro s s' ⟨k, hin, hc⟩ hd
  exact hc.disabled (fun e => hk (e ▸ hin)) hd

/-- The operations that enable the interrupts. -/
def Unlocks (op : Op) : Prop := op = .iret ∨ op = .ine

/-- The operations that enable interrupts. -/
lemma enable_mem_opKinds {op : Op} (h : .enable ∈ opKinds op) : Unlocks op := by
  cases op with
  | iret => exact .inl rfl
  | ine => exact .inr rfl
  | _ => exact absurd h (by decide)

/-- An entry is logged where there is one. -/
lemma entryLogged_inv (hgo : s.goesOn) (hr : entryLogged s = some (log, e)) :
    (log = [] ∧ e = s) ∨ ∃ i, log = [.enter i] ∧ Entry s i e := by
  rw [entryLogged_apply] at hr
  split at hr
  · rename_i hc
    obtain ⟨hen, hact⟩ := Bool.and_eq_true_iff.mp hc
    obtain ⟨⟨_, e'⟩, hx, hr⟩ := Option.map_eq_some_iff.mp hr
    have hentry := interruptEntry_entry hgo hen hact hx
    cases hr
    refine .inr ⟨_, ?_, hentry⟩
    rw [hentry.ir, BitVec.setWidth_setWidth_of_le _ (by decide), BitVec.setWidth_eq]
  · cases hr
    exact .inl ⟨rfl, rfl⟩

variable [Host] {word : Word}

/-- What follows the entry of an interrupt in a turn. -/
lemma fetchExecuteLogged_inv (hr : fetchExecuteLogged s = some (log, s')) :
    (log = [] ∨ ∃ op, log = [.exec op]) ∧
      (s.flags.interruptsEnabled = false →
        (∃ op, log = [.exec op] ∧ Unlocks op) ∨ s'.flags.interruptsEnabled = false) := by
  have hfetch : Changing [.error, .pc] cpuFetch := (cpuFetch_changes (by decide) (by decide)).changing
  unfold fetchExecuteLogged at hr
  rw [bind_apply] at hr
  obtain ⟨⟨word, s1⟩, hx, hr⟩ := Option.bind_eq_some_iff.mp hr
  have hd1 (hd : s.flags.interruptsEnabled = false) := hfetch.disabled (by decide) hd hx
  rw [bind_apply, get_apply, Option.bind_some] at hr
  dsimp only at hr hd1
  split at hr
  · unfold executeLogged at hr
    rename_i hp
    rw [bind_apply, cpuDecode_ok hp, Option.bind_some] at hr
    dsimp only at hr
    cases hop : ops (byteOf (htov word) 0) with
    | none =>
      rw [hop] at hr
      cases hr
      exact ⟨.inl rfl, fun hd => .inr (hd1 hd)⟩
    | some op =>
      rw [hop] at hr
      obtain ⟨⟨_, s2⟩, ht, hr⟩ := Option.bind_eq_some_iff.mp hr
      obtain ⟨⟨_, s3⟩, hh, hr⟩ := Option.bind_eq_some_iff.mp hr
      cases hr
      refine ⟨.inr ⟨op, rfl⟩, fun hd => ?_⟩
      have htrap : Changing [.error, .debug, .running] (trap (htov word)) :=
        (trap_changes (by decide) (by decide) (by decide)).changing
      have hd2 := htrap.disabled (by decide) (hd1 hd) ht
      by_cases hu : Unlocks op
      · exact .inl ⟨op, rfl, hu⟩
      · have hd3 := (handler_changes op).disabled (fun h => hu (enable_mem_opKinds h)) hd2 hh
        exact .inr hd3
  · cases hr
    exact ⟨.inl rfl, fun hd => .inr (hd1 hd)⟩

/-- A turn does nothing, or it enters an interrupt and goes on, or it just goes on. -/
lemma turnLogged_inv (hr : turnLogged s = some (log, s')) : (log = [] ∧ s' = s) ∨
    (∃ i e log', log = .enter i :: log' ∧ Entry s i e ∧ fetchExecuteLogged e = some (log', s')) ∨
      fetchExecuteLogged s = some (log, s') := by
  unfold turnLogged at hr
  rw [bind_apply, get_apply, Option.bind_some] at hr
  dsimp only at hr
  split at hr
  · rename_i hgo
    obtain ⟨⟨log1, e⟩, hx, hr⟩ := Option.bind_eq_some_iff.mp hr
    obtain ⟨⟨log2, s2⟩, hx', hr⟩ := Option.bind_eq_some_iff.mp hr
    cases hr
    rcases entryLogged_inv hgo hx with ⟨rfl, rfl⟩ | ⟨i, rfl, hentry⟩
    · exact .inr (.inr hx')
    · exact .inr (.inl ⟨i, e, log2, rfl, hentry, hx'⟩)
  · cases hr
    exact .inl ⟨rfl, rfl⟩

end

/-! ### Logs -/

/-- An operation that enables the interrupts comes before the next entry. -/
def Locked : List Label → Prop
  | [] => True
  | .enter _ :: _ => False
  | .exec op :: log => Unlocks op ∨ Locked log

/-- One comes between every two entries. -/
def Orderly : List Label → Prop
  | [] => True
  | .enter _ :: log => Locked log ∧ Orderly log
  | .exec _ :: log => Orderly log

section
variable {log log' : List Label} {i : Interrupt}

/-- Between two entries interrupts have been enabled. -/
lemma Locked.mem (h : Locked (log ++ .enter i :: log')) : ∃ op, .exec op ∈ log ∧ Unlocks op := by
  induction log with
  | nil => exact h.elim
  | cons label log ih =>
    cases label with
    | enter j => exact h.elim
    | exec op =>
      cases h with
      | inl hu => exact ⟨op, List.mem_cons_self, hu⟩
      | inr h =>
        obtain ⟨op', hmem, hu⟩ := ih h
        exact ⟨op', List.mem_cons_of_mem _ hmem, hu⟩

/-- Behind an entry interrupts are locked. -/
lemma Orderly.locked (h : Orderly (log ++ .enter i :: log')) : Locked log' := by
  induction log with
  | nil => exact h.1
  | cons label log ih =>
    cases label with
    | enter j => exact ih h.2
    | exec op => exact ih h

end

/-! ### Runs -/

section
variable [Host] {s s' s1 : CPU} {log log' : List Label} {i : Interrupt} {event : Event} {events events' : List Event}

/-- A run, one event after the other. -/
lemma happenAll_cons (h : happenAll (event :: events) s = some (log, s')) : ∃ log1 s1 log2,
    happen event s = some (log1, s1) ∧ happenAll events s1 = some (log2, s') ∧ log = log1 ++ log2 := by
  obtain ⟨⟨log1, s1⟩, h1, h⟩ := Option.bind_eq_some_iff.mp h
  obtain ⟨⟨log2, s2⟩, h2, h⟩ := Option.bind_eq_some_iff.mp h
  cases h
  exact ⟨log1, s1, log2, h1, h2, rfl⟩

/-- The parts of a run are runs. -/
lemma happenAll_append (h : happenAll (events ++ events') s = some (log, s')) : ∃ log1 s1 log2,
    happenAll events s = some (log1, s1) ∧ happenAll events' s1 = some (log2, s') ∧ log = log1 ++ log2 := by
  induction events generalizing s log with
  | nil => exact ⟨[], s, log, rfl, h, rfl⟩
  | cons event events ih =>
    obtain ⟨log1, s1, log2, h1, h2, rfl⟩ := happenAll_cons h
    obtain ⟨log3, s2, log4, h3, h4, rfl⟩ := ih h2
    refine ⟨log1 ++ log3, s2, log4, ?_, h4, (List.append_assoc _ _ _).symm⟩
    show (happen event s).bind _ = _
    rw [h1]
    show (happenAll events s1).bind _ = _
    rw [h3]
    rfl

/-- An event ends no interrupt's being pending that it does not enter. -/
lemma happen_pending (h : happen event s = some (log, s')) (hi : .enter i ∉ log)
    (ha : isActive s.pic (findInterruptLocation i) = true) :
    isActive s'.pic (findInterruptLocation i) = true := by
  have hexec {e : CPU} {l : List Label} (ha : isActive e.pic (findInterruptLocation i) = true)
      (hr : fetchExecuteLogged e = some (l, s')) : isActive s'.pic (findInterruptLocation i) = true := by
    have hf : fetchExecute e = some ((), s') := by rw [fetchExecuteLogged_forget, hr]; rfl
    exact fetchExecute_changes.isActive (by decide) ha hf
  cases event with
  | turn =>
    rcases turnLogged_inv h with ⟨rfl, rfl⟩ | ⟨j, e, log', rfl, hentry, hr⟩ | hr
    · exact ha
    · have hne : i ≠ j := fun e => hi (e ▸ List.mem_cons_self)
      exact hexec ((hentry.pending i).mpr ⟨ha, hne⟩) hr
    · exact hexec ha hr
  | trigger j =>
    cases h
    exact (isActive_trigger _ _ _).mpr (.inr ha)
  | store ref address word =>
    cases h
    exact ha

/-- An interrupt that is not entered stays active. -/
lemma happenAll_pending (h : happenAll events s = some (log, s')) (hi : .enter i ∉ log)
    (ha : isActive s.pic (findInterruptLocation i) = true) :
    isActive s'.pic (findInterruptLocation i) = true := by
  induction events generalizing s log with
  | nil =>
    cases h
    exact ha
  | cons event events ih =>
    obtain ⟨log1, s1, log2, h1, h2, rfl⟩ := happenAll_cons h
    have hi1 : .enter i ∉ log1 := fun h => hi (List.mem_append_left _ h)
    have hi2 : .enter i ∉ log2 := fun h => hi (List.mem_append_right _ h)
    exact ih h2 hi2 (happen_pending h1 hi1 ha)

/-- A run enters no interrupt twice without an `IRET` or an `INE` between, and none before when the
interrupts are disabled at its start. -/
lemma happenAll_orderly (h : happenAll events s = some (log, s')) :
    Orderly log ∧ (s.flags.interruptsEnabled = false → Locked log) := by
  induction events generalizing s log with
  | nil =>
    cases h
    exact ⟨trivial, fun _ => trivial⟩
  | cons event events ih =>
    obtain ⟨log1, s1, log2, h1, h2, rfl⟩ := happenAll_cons h
    obtain ⟨horderly, hlocked⟩ := ih h2
    -- the operation of a turn leaves the log as it is, or unlocks it
    have hexec {e : CPU} {l : List Label} (hr : fetchExecuteLogged e = some (l, s1)) :
        Orderly (l ++ log2) ∧ (e.flags.interruptsEnabled = false → Locked (l ++ log2)) := by
      obtain ⟨hl, hd⟩ := fetchExecuteLogged_inv hr
      rcases hl with rfl | ⟨op, rfl⟩
      · refine ⟨horderly, fun hdis => hlocked ?_⟩
        rcases hd hdis with ⟨_, h, _⟩ | h
        · cases h
        · exact h
      · refine ⟨horderly, fun hdis => ?_⟩
        rcases hd hdis with ⟨op', h, hu⟩ | hd
        · cases h
          exact .inl hu
        · exact .inr (hlocked hd)
    cases event with
    | turn =>
      rcases turnLogged_inv h1 with ⟨rfl, rfl⟩ | ⟨i, e, log', rfl, hentry, hr⟩ | hr
      · exact ⟨horderly, hlocked⟩
      · obtain ⟨ho, hl⟩ := hexec hr
        refine ⟨⟨hl hentry.disabled, ho⟩, fun hdis => ?_⟩
        exact absurd hentry.enabled (hdis ▸ Bool.false_ne_true)
      · exact hexec hr
    | trigger j =>
      cases h1
      exact ⟨horderly, hlocked⟩
    | store ref address word =>
      cases h1
      exact ⟨horderly, hlocked⟩

/-- **Interrupt delivery** in a run among the events of the devices, from any CPU. -/
theorem delivery (h : happenAll events s = some (log, s')) :
    (∀ before after, events = before ++ .turn :: after → ∃ log1 s1 log2 s2 log3,
      happenAll before s = some (log1, s1) ∧ turnLogged s1 = some (log2, s2) ∧
        happenAll after s2 = some (log3, s') ∧ log = log1 ++ log2 ++ log3 ∧
          ∀ i, .enter i ∈ log2 → ∃ e, Entry s1 i e ∧ fetchExecute e = some ((), s2)) ∧
      (∀ before after i, events = before ++ after → ∃ log1 s1 log2,
        happenAll before s = some (log1, s1) ∧ happenAll after s1 = some (log2, s') ∧ log = log1 ++ log2 ∧
          (isActive s1.pic (findInterruptLocation i) = true → .enter i ∉ log2 →
            isActive s'.pic (findInterruptLocation i) = true)) ∧
        ∀ log1 i log2 j log3, log = log1 ++ .enter i :: (log2 ++ .enter j :: log3) →
          ∃ op, .exec op ∈ log2 ∧ (op = .iret ∨ op = .ine) := by
  refine ⟨?_, ?_, ?_⟩
  · rintro before after rfl
    obtain ⟨log1, s1, log', h1, h', rfl⟩ := happenAll_append h
    obtain ⟨log2, s2, log3, h2, h3, rfl⟩ := happenAll_cons h'
    refine ⟨log1, s1, log2, s2, log3, h1, h2, h3, (List.append_assoc _ _ _).symm, fun i hi => ?_⟩
    have hno {e : CPU} {l : List Label} (hr : fetchExecuteLogged e = some (l, s2)) : .enter i ∉ l := by
      rcases (fetchExecuteLogged_inv hr).1 with rfl | ⟨op, rfl⟩
      · exact List.not_mem_nil
      · intro h
        cases List.mem_singleton.mp h
    rcases turnLogged_inv h2 with ⟨rfl, rfl⟩ | ⟨j, e, log', rfl, hentry, hr⟩ | hr
    · exact absurd hi List.not_mem_nil
    · cases List.mem_cons.mp hi with
      | inl heq =>
        cases heq
        exact ⟨e, hentry, by rw [fetchExecuteLogged_forget, hr]; rfl⟩
      | inr hi => exact absurd hi (hno hr)
    · exact absurd hi (hno hr)
  · rintro before after i rfl
    obtain ⟨log1, s1, log2, h1, h2, rfl⟩ := happenAll_append h
    exact ⟨log1, s1, log2, h1, h2, rfl, fun ha hi => happenAll_pending h2 hi ha⟩
  · rintro log1 i log2 j log3 rfl
    exact (happenAll_orderly h).1.locked.mem

end

/-- A machine with a pending interrupt. -/
def pendingCpu : CPU := { smallCpu smallHeap with
  pic := ⟨1, 2, fun i => if i = 0 then 8 else 0⟩
  flags := ⟨true, false, false⟩ }

/-- The interrupt is entered in the first turn. -/
theorem delivery_pending : ∃ s e, Entry pendingCpu 3 e ∧ @fetchExecute ⟨.little⟩ e = some ((), s) := by
  have hlog : (@turnLogged ⟨.little⟩ pendingCpu).map Prod.fst = some [.enter 3] := by decide +kernel
  obtain ⟨⟨log, s⟩, hturn, hlog⟩ := Option.map_eq_some_iff.mp hlog
  obtain rfl : log = [.enter 3] := hlog
  have hrun : @happenAll ⟨.little⟩ [.turn] pendingCpu = some ([.enter 3], s) := by
    show (@turnLogged ⟨.little⟩ pendingCpu).bind _ = _
    rw [hturn]
    rfl
  obtain ⟨log1, s1, log2, s2, log3, h1, h2, _, _, hentry⟩ := (@delivery ⟨.little⟩ _ _ _ _ hrun).1 [] [] rfl
  cases h1
  cases h2.symm.trans hturn
  obtain ⟨e, he, hr⟩ := hentry 3 (List.mem_singleton.mpr rfl)
  exact ⟨s, e, he, hr⟩

end Thorium.Vm
