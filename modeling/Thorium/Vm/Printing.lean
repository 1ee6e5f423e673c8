import Thorium.Vm.Threads

/-!
# Printing the state

Model of `cpu_state_print` (`src/vm/cpu.c`), which aborts for an error that it has no text for. Of the
errors that a run can end with this is the one of an unknown opcode, that only `cpu_loop` reports: no
operation does, and nothing takes it back before the loop is left (`printable_iff`).
-/

namespace Thorium.Vm
open Thorium.Isa Thorium.Run

/-! ### The text -/

/-- The number of a `CpuError`. -/
def CpuError.code : CpuError → Nat
  | ok => 0
  | panic => 1
  | cannotReadMemory => 2
  | cannotWriteMemory => 3
  | unimplementedOpcode => 4
  | invalidRegister => 5

/-- `%03u` -/
def u03 (n : Nat) : String :=
  let digits := Nat.toDigits 10 n
  String.ofList (List.replicate (3 - digits.length) '0' ++ digits)

/-- The turn for the register `r` of the first loop of `cpu_state_print`. -/
def registerPrint (cpu : CPU) (r : Nat) : String :=
  (if r % 4 = 0 then s!"  r{u03 r} - r{u03 (min (r + 3) (cpu.registerCount.toNat - 1))}   " else "") ++
    s!"  {whex (cpu.registers r)}" ++ if r % 4 = 3 then "\n" else "    "

/-- The text for an error in `cpu_state_print`. -/
def panicPrint : CpuError → Option String
  | .panic => some "PANIC\n"
  | .cannotReadMemory => some "CANNOT_READ_MEMORY\n"
  | .cannotWriteMemory => some "CANNOT_WRITE_MEMORY\n"
  | .invalidRegister => some "INVALID_REGISTER\n"
  | .ok | .unimplementedOpcode => none

/-- `cpu_state_print` -/
def cpuStatePrint (cpu : CPU) : Option String := do
  let registers := String.join ((List.range cpu.registerCount.toNat).map (registerPrint cpu))
  let yes (b : Bool) := if b then "y" else "n"
  let text := "\nCPU state\n" ++ registers ++ (if cpu.registerCount.toNat % 4 = 0 then "" else "\n") ++
    "                  cs            pc            bp            sp\n" ++
    s!"                  {whex cpu.cs}      {whex cpu.pc}      {whex cpu.bp}      {whex cpu.sp}\n" ++
    "                  ir            idt\n" ++
    s!"                  {whex cpu.ir}      {whex cpu.idt}\n" ++
    s!"                  z={cpu.flags.zero.toNat}  n={cpu.flags.negative.toNat}" ++
    s!"  i={cpu.flags.interruptsEnabled.toNat}\n" ++
    s!"  running:{yes cpu.state.running}       print_op:{yes cpu.debug.printOp}" ++
    s!"    panic:{cpu.state.panic.code}\n"
  if cpu.state.panic = .ok then return text
  else return text ++ s!"\npanic:{cpu.state.panic.code}: " ++ (← panicPrint cpu.state.panic)

/-- It has no text for one error. -/
lemma cpuStatePrint_isSome (cpu : CPU) : (cpuStatePrint cpu).isSome ↔ cpu.state.panic ≠ .unimplementedOpcode := by
  unfold cpuStatePrint
  cases h : cpu.state.panic with
  | unimplementedOpcode => exact ⟨nofun, fun hne => absurd rfl hne⟩
  | _ => exact ⟨fun _ => nofun, fun _ => rfl⟩

/-! ### Runs -/

/-- What happens to the threads: a move, or a word that a device sets in a memory. -/
inductive Occurrence where
  | move (m : Move)
  | store (ref : Ref) (address : Addr) (word : Word)
  deriving DecidableEq

section
variable [Host]

/-- An occurrence, where it is possible. -/
def Threads.occur : Occurrence → Threads → Option Threads
  | .move m, t => t.next m
  | .store ref address word, t => some { t with cpu := { t.cpu with heap := setWord t.cpu.heap ref address word } }

/-- The word that is fetched, if any, has the opcode of an operation. -/
def Threads.Decodes (t : Threads) (o : Occurrence) : Prop :=
  o = .move .cpu → t.phase = .fetch → t.cpu.state.panic = .ok →
    ∀ w, busWordRead t.cpu.heap t.cpu.bus t.cpu.pc = some (.ok w) → ops (byteOf (htov w) 0) ≠ none

instance (t : Threads) (o : Occurrence) : Decidable (t.Decodes o) :=
  decidable_of_iff (o = .move .cpu → t.phase = .fetch → t.cpu.state.panic = .ok →
    ((busWordRead t.cpu.heap t.cpu.bus t.cpu.pc).bind Except.toOption).all
      (fun w => (ops (byteOf (htov w) 0)).isSome) = true) <| by
    unfold Threads.Decodes
    rcases busWordRead t.cpu.heap t.cpu.bus t.cpu.pc with _ | (e | w) <;>
      simp [Except.toOption, Option.isSome_iff_ne_none]

variable {t t' : Threads} {o : Occurrence} {os : List Occurrence} {phase phase' : Phase} {s s' : CPU}

/-- The CPU thread fetches a word with the opcode of no operation. -/
def Threads.Unknown (t : Threads) : Prop :=
  t.phase = .fetch ∧ t.cpu.state.panic = .ok ∧
    ∃ w, busWordRead t.cpu.heap t.cpu.bus t.cpu.pc = some (.ok w) ∧ ops (byteOf (htov w) 0) = none

/-- A thread that does not decode has fetched an unknown opcode. -/
lemma not_decodes (h : ¬ t.Decodes o) : o = .move .cpu ∧ t.Unknown := by
  unfold Threads.Decodes at h
  push Not at h
  obtain ⟨ho, hphase, hp, w, hw, hop⟩ := h
  exact ⟨ho, hphase, hp, w, hw, hop⟩

/-- A fetch reports an unknown opcode, or nothing else does. -/
lemma step_fetch_known (hk : s.state.panic ≠ .unimplementedOpcode)
    (hd : s.state.panic = .ok → ∀ w, busWordRead s.heap s.bus s.pc = some (.ok w) → ops (byteOf (htov w) 0) ≠ none)
    (h : Phase.fetch.step s = some (phase', s')) : s'.state.panic ≠ .unimplementedOpcode := by
  rw [step_fetch] at h
  obtain ⟨⟨w, s1⟩, hfetch, h⟩ := Option.bind_eq_some_iff.mp h
  have hfetching : Operating [.error, .pc] cpuFetch := cpuFetch_changes (by decide) (by decide)
  have hs1 := hfetching.known hk hfetch
  dsimp only at h
  by_cases hp1 : s1.state.panic = .ok
  · rw [if_pos hp1] at h
    cases hop : ops (byteOf (htov w) 0) with
    | some op =>
      rw [hop] at h
      cases h
      exact hs1
    | none =>
      -- The word has been read, and has a known opcode.
      by_cases hp : s.state.panic = .ok
      · rcases hr : busWordRead s.heap s.bus s.pc with _ | (e | w')
        · cases (cpuFetch_none hp hr).symm.trans hfetch
        · cases (cpuFetch_error hp hr).symm.trans hfetch
          cases hp1
        · cases (cpuFetch_ok hp hr).symm.trans hfetch
          exact absurd hop (hd hp w hr)
      · cases (cpuFetch_panic hp).symm.trans hfetch
        exact absurd hp1 hp
  · rw [if_neg hp1] at h
    cases h
    exact hs1

/-- A step of the thread. -/
lemma step_known (hk : phase ≠ .created → s.state.panic ≠ .unimplementedOpcode)
    (hd : phase = .fetch → s.state.panic = .ok → ∀ w, busWordRead s.heap s.bus s.pc = some (.ok w) →
      ops (byteOf (htov w) 0) ≠ none)
    (h : phase.step s = some (phase', s')) : s'.state.panic ≠ .unimplementedOpcode := by
  cases phase with
  | created =>
    cases h
    exact nofun
  | condition =>
    cases h
    exact hk nofun
  | poll =>
    rw [step_poll] at h
    split at h
    · obtain ⟨⟨_, s1⟩, hentry, h⟩ := Option.map_eq_some_iff.mp h
      cases h
      have hkinds : Operating [.error, .acknowledge, .store, .pc] interruptEntry :=
        interruptEntry_changes (by decide) (by decide) (by decide) (by decide)
      exact hkinds.known (hk nofun) hentry
    · cases h
      exact hk nofun
  | fetch => exact step_fetch_known (hk nofun) (hd rfl) h
  | debugger op word =>
    rw [step_debugger] at h
    obtain ⟨⟨_, s1⟩, htrap, h⟩ := Option.map_eq_some_iff.mp h
    cases h
    have hkinds : Operating [.error, .debug, .running] (trap word) :=
      trap_changes (by decide) (by decide) (by decide)
    exact hkinds.known (hk nofun) htrap
  | operate op word =>
    rw [step_operate] at h
    obtain ⟨⟨_, s1⟩, hrun, h⟩ := Option.map_eq_some_iff.mp h
    have hs1 := (handler_operates op).known (hk nofun) hrun
    dsimp only at h
    split at h
    · cases h
      exact hs1
    · cases h
      exact hs1
  | woken =>
    cases h
    exact hk nofun
  | leave =>
    cases h
    exact hk nofun
  | waiting => cases h
  | ended => cases h

/-- The run has not met an unknown opcode. -/
def Threads.Known (t : Threads) : Prop := t.phase ≠ .created → t.cpu.state.panic ≠ .unimplementedOpcode

/-- Where each word decodes, the CPU stays known. -/
lemma occur_known (hk : t.Known) (hd : t.Decodes o) (h : Threads.occur o t = some t') : t'.Known := by
  cases o with
  | store ref a w =>
    cases h
    exact hk
  | move m =>
    have h : Threads.next m t = some t' := h
    cases m with
    | cpu =>
      obtain ⟨phase, s, hstep, rfl⟩ := next_cpu h
      exact fun _ => step_known hk (hd rfl) hstep
    | wake =>
      obtain ⟨hp, rfl⟩ := next_wake h
      have hne : t.phase ≠ .created := by
        rw [hp]
        exact nofun
      exact fun _ => hk hne
    | stop =>
      obtain ⟨_, rfl⟩ := next_stop h
      exact hk
    | set i =>
      cases h
      exact hk
    | signal i =>
      obtain ⟨_, rfl⟩ := next_signal h
      intro hne
      apply hk
      intro hp
      apply hne
      show t.phase.signalled = _
      rw [hp]
      rfl

/-! ### After an unknown opcode -/

/-- The loop is about to be left, because of an unknown opcode. -/
def Threads.Lost (t : Threads) : Prop :=
  t.cpu.state.panic = .unimplementedOpcode ∧ (t.phase = .condition ∨ t.phase = .leave ∨ t.phase = .ended)

/-- The fetch of an unknown opcode. -/
lemma Threads.Unknown.lost (hu : t.Unknown) (h : Threads.occur (.move .cpu) t = some t') : t'.Lost := by
  obtain ⟨hphase, hp, w, hw, hop⟩ := hu
  obtain ⟨phase, s, hstep, rfl⟩ := next_cpu h
  have hp' : t.cpu.skip.state.panic = .ok := hp
  rw [hphase, step_fetch, cpuFetch_ok hp hw, Option.bind_some] at hstep
  dsimp only at hstep
  rw [if_pos hp', hop] at hstep
  cases hstep
  exact ⟨rfl, .inl rfl⟩

/-- What is lost stays lost. -/
lemma occur_lost (hl : t.Lost) (h : Threads.occur o t = some t') : t'.Lost := by
  obtain ⟨hp, hphase⟩ := hl
  cases o with
  | store ref a w =>
    cases h
    exact ⟨hp, hphase⟩
  | move m =>
    have h : Threads.next m t = some t' := h
    cases m with
    | cpu =>
      obtain ⟨phase, s, hstep, rfl⟩ := next_cpu h
      rcases hphase with hphase | hphase | hphase
      · have hgo : ¬ t.cpu.goesOn := fun hgo => by cases hp.symm.trans hgo.2
        rw [hphase, step_condition, if_neg hgo] at hstep
        cases hstep
        exact ⟨hp, .inr (.inl rfl)⟩
      · rw [hphase] at hstep
        cases hstep
        exact ⟨hp, .inr (.inr rfl)⟩
      · rw [hphase] at hstep
        cases hstep
    | wake =>
      obtain ⟨hw, _⟩ := next_wake h
      rw [hw] at hphase
      rcases hphase with hphase | hphase | hphase <;> cases hphase
    | stop =>
      obtain ⟨_, rfl⟩ := next_stop h
      exact ⟨hp, hphase⟩
    | set i =>
      cases h
      exact ⟨hp, hphase⟩
    | signal i =>
      obtain ⟨_, rfl⟩ := next_signal h
      have hsame : t.phase.signalled = t.phase := by
        rcases hphase with hphase | hphase | hphase <;> rw [hphase] <;> rfl
      exact ⟨hp, hsame.symm ▸ hphase⟩

/-- So it does in a run. -/
lemma steps_lost (hl : t.Lost) (h : steps Threads.occur os t = some t') : t'.Lost := by
  have hm : Meets Threads.occur (fun _ _ => True) t os := Meets.of_forall fun _ _ _ => trivial
  exact hm.invariant (P := Threads.Lost) h hl fun _ _ _ hl _ h => occur_lost hl h

/-- **Printing the state** after a run of `cpu_loop` does not abort exactly when the opcode of every word
that was fetched is that of an operation. -/
theorem printable_iff {cpu : CPU} (h : steps Threads.occur os (Threads.create cpu) = some t')
    (hended : t'.phase = .ended) :
    (cpuStatePrint t'.cpu).isSome ↔ Meets Threads.occur Threads.Decodes (Threads.create cpu) os := by
  rw [cpuStatePrint_isSome]
  constructor
  · rintro hprint before o after t1 rfl h1
    by_contra hd
    obtain ⟨rfl, hu⟩ := not_decodes hd
    obtain ⟨t2, h2, hrest⟩ := steps_append.mp h
    cases h2.symm.trans h1
    obtain ⟨t3, h3, hrest⟩ := steps_cons.mp hrest
    exact hprint (steps_lost (hu.lost h3) hrest).1
  · intro hm
    have hknown : t'.Known := hm.invariant (P := Threads.Known) h (fun hne => absurd rfl hne)
      fun _ _ _ hk hd h => occur_known hk hd h
    apply hknown
    rw [hended]
    exact nofun

end

/-! ### A run -/

/-- A machine with a word everywhere in its RAM. -/
def filledCpu (w : Word) : CPU := smallCpu fun _ => { smallHeap 0 with raw := fun _ => w }

/-- The state after a run of `HALT` is printed. -/
theorem printable_halt : ∃ t', @steps _ _ (@Threads.occur ⟨.little⟩) (List.replicate 8 (.move .cpu))
      (Threads.create (filledCpu (instruction .halt 0 0 0))) = some t' ∧
    t'.phase = .ended ∧ (cpuStatePrint t'.cpu).isSome := by
  have hrun : (@steps _ _ (@Threads.occur ⟨.little⟩) (List.replicate 8 (.move .cpu))
      (Threads.create (filledCpu (instruction .halt 0 0 0)))).map Threads.phase = some .ended := by decide +kernel
  have hdecodes : Meets (@Threads.occur ⟨.little⟩) (@Threads.Decodes ⟨.little⟩)
      (Threads.create (filledCpu (instruction .halt 0 0 0))) (List.replicate 8 (.move .cpu)) := by decide +kernel
  obtain ⟨t', hrun, hended⟩ := Option.map_eq_some_iff.mp hrun
  exact ⟨t', hrun, hended, (@printable_iff ⟨.little⟩ _ _ _ hrun hended).mpr hdecodes⟩

/-- The opcode 255 is unknown. -/
theorem not_printable_unknown : ∃ t', @steps _ _ (@Threads.occur ⟨.little⟩) (List.replicate 6 (.move .cpu))
    (Threads.create (filledCpu 0xFFFFFFFF)) = some t' ∧ t'.phase = .ended ∧ cpuStatePrint t'.cpu = none := by
  have hrun : (@steps _ _ (@Threads.occur ⟨.little⟩) (List.replicate 6 (.move .cpu))
      (Threads.create (filledCpu 0xFFFFFFFF))).map (fun t => (t.phase, t.cpu.state.panic)) =
        some (.ended, .unimplementedOpcode) := by decide +kernel
  obtain ⟨t', hrun, hended⟩ := Option.map_eq_some_iff.mp hrun
  obtain ⟨hphase, hpanic⟩ := Prod.mk.injEq _ _ _ _ ▸ hended
  refine ⟨t', hrun, hphase, ?_⟩
  rw [← Option.not_isSome_iff_eq_none, cpuStatePrint_isSome]
  exact not_not.mpr hpanic

end Thorium.Vm
