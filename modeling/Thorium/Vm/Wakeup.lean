import Thorium.Vm.Threads

/-!
# Waiting for interrupts

`op_wfi` takes the lock and waits, without looking again whether an interrupt is pending, and
`pic_interrupt_trigger` signals without the lock. So the signal of an interrupt that comes between the test of
`cpu_loop` and the wait is dropped, and the CPU sleeps through it. Where no such signal is dropped it does not
(`wakes`).
-/

namespace Thorium.Vm
open Thorium.Isa Thorium.Run

namespace Threads

/-- The CPU waits with interrupts enabled while one is pending whose signals have all been delivered. -/
def Oversleeps (t : Threads) : Prop :=
  t.phase = .waiting ∧ t.cpu.flags.interruptsEnabled = true ∧
    ∃ i, deliverable t.cpu.pic t.cpu.heap i = true ∧ t.owed i = 0

/-- The thread has looked for interrupts and goes on to a `WFI`. -/
def BeforeWait [Host] (t : Threads) : Prop :=
  (∃ word, t.phase = .debugger .wfi word ∨ t.phase = .operate .wfi word) ∨
    t.phase = .fetch ∧ ∃ w, busWordRead t.cpu.heap t.cpu.bus t.cpu.pc = some (.ok w) ∧
      ops (byteOf (htov w) 0) = some .wfi

/-- The last signal for a pending interrupt comes after the thread has looked for it and before it waits. -/
def Drops [Host] (t : Threads) (i : Interrupt) : Prop :=
  t.BeforeWait ∧ t.cpu.flags.interruptsEnabled = true ∧ deliverable t.cpu.pic t.cpu.heap i = true ∧ t.owed i = 1

/-- A move that drops no such signal. -/
def Delivers [Host] (t : Threads) (m : Move) : Prop := ∀ i, m = .signal i → ¬ t.Drops i

/-- Every pending interrupt has a signal to come when the thread waits or is about to. -/
def Covered [Host] (t : Threads) : Prop :=
  t.BeforeWait ∨ t.phase = .waiting → t.cpu.flags.interruptsEnabled = true →
    ∀ i, deliverable t.cpu.pic t.cpu.heap i = true → t.owed i ≠ 0

end Threads

section
variable {s s' : CPU} {kinds : List Kind} {k : Kind} {α : Type}

/-- A change that has nothing to do with interrupts. -/
lemma Change.quiet (h : Change k s s') (hk : k ∈ [.error, .running, .debug, .pc]) :
    s'.flags.interruptsEnabled = s.flags.interruptsEnabled ∧ s'.pic = s.pic ∧ s'.heap = s.heap := by
  cases h with
  | fault | panic | pc | running | debug => exact ⟨rfl, rfl, rfl⟩
  | _ => exact absurd hk (by decide)

/-- What changes no interrupt keeps them as they are. -/
lemma Changing.quiet {m : Run CPU α} {r : α} (hm : Changing kinds m) (hk : kinds ⊆ [.error, .running, .debug, .pc])
    (h : m s = some (r, s')) :
    s'.flags.interruptsEnabled = s.flags.interruptsEnabled ∧ s'.pic = s.pic ∧ s'.heap = s.heap := by
  have hsteps := hm h
  clear h
  induction hsteps with
  | refl => exact ⟨rfl, rfl, rfl⟩
  | tail _ hstep ih =>
    obtain ⟨k, hin, hc⟩ := hstep
    obtain ⟨h1, h2, h3⟩ := hc.quiet (hk hin)
    exact ⟨h1.trans ih.1, h2.trans ih.2.1, h3.trans ih.2.2⟩

/-- The entry of an interrupt leaves the interrupts disabled. -/
lemma interruptEntry_disabled (h : interruptEntry s = some ((), s')) : s'.flags.interruptsEnabled = false := by
  rcases hw : busWordWrite s.heap s.bus (s.sp - wordSize) s.pc with _ | (error | ⟨heap, conds⟩)
  · rw [interruptEntry_none hw] at h
    cases h
  · rw [interruptEntry_error hw] at h
    cases h
    rfl
  · rw [interruptEntry_ok hw] at h
    cases h
    rfl

/-- A fetch without an error has read the word at `pc`. -/
lemma cpuFetch_inv {w : Word} (h : cpuFetch s = some (w, s')) (hp : s'.state.panic = .ok) :
    busWordRead s.heap s.bus s.pc = some (.ok w) := by
  rw [cpuFetch_apply, cpuReadPcWord_apply] at h
  by_cases hs : s.state.panic = .ok
  · rw [if_neg (not_not.mpr hs)] at h
    rcases hb : busWordRead s.heap s.bus s.pc with _ | (e | w')
    · rw [busRead_none hb] at h
      cases h
    · rw [busRead_error hb] at h
      cases h
      cases hp
    · rw [busRead_ok hb] at h
      cases h
      rfl
  · rw [if_pos hs] at h
    cases h
    exact absurd hp hs

/-- A phase that is not that of a waiting thread is not changed by a signal. -/
lemma Phase.signalled_ne {phase : Phase} (h : phase ≠ .waiting) : phase.signalled = phase := if_neg h

/-- Only the interrupt that a device triggers becomes pending. -/
lemma deliverable_trigger {pic : PIC} {heap : Heap} {i j : Interrupt}
    (h : deliverable (picInterruptTrigger pic i) heap j = true) : j = i ∨ deliverable pic heap j = true := by
  obtain ⟨ha, hm⟩ := Bool.and_eq_true_iff.mp h
  rcases (isActive_trigger pic i j).mp ha with rfl | ha
  · exact .inl rfl
  · exact .inr (Bool.and_eq_true_iff.mpr ⟨ha, hm⟩)

end

section
variable [Host] {t t' : Threads} {moves : List Move}

/-- The phases in which the thread will look for interrupts before it waits. -/
def Phase.looks : Phase → Bool
  | .created | .condition | .poll | .woken | .leave | .ended => true
  | _ => false

/-- A thread that will look for an interrupt does not miss it. -/
lemma Threads.covered_of_looks (h : t.phase.looks = true) : t.Covered := by
  rintro ((⟨_, hp | hp⟩ | ⟨hp, _⟩) | hp) <;> rw [hp] at h <;> cases h

/-- A step of the thread keeps every pending interrupt covered. -/
lemma step_covered (hc : t.Covered) (h : Threads.next .cpu t = some t') : t'.Covered := by
  obtain ⟨phase, s, hstep, rfl⟩ := next_cpu h
  obtain ⟨p, cpu, stopped, executed, owed⟩ := t
  cases p with
  | created =>
    cases hstep
    exact Threads.covered_of_looks rfl
  | condition =>
    rw [step_condition] at hstep
    cases hstep
    apply Threads.covered_of_looks
    dsimp only
    split <;> rfl
  | poll =>
    rw [step_poll] at hstep
    split at hstep
    · obtain ⟨⟨_, s1⟩, he, hstep⟩ := Option.map_eq_some_iff.mp hstep
      cases hstep
      exact fun _ hen => absurd ((interruptEntry_disabled he).symm.trans hen) Bool.false_ne_true
    next hb =>
      cases hstep
      intro _ hen i hi
      -- With interrupts enabled the test has found none.
      exact absurd (Bool.and_eq_true_iff.mpr ⟨hen, picInterruptActive_iff.mpr ⟨i, hi⟩⟩) hb
  | fetch =>
    rw [step_fetch] at hstep
    obtain ⟨⟨w, s1⟩, hf, hstep⟩ := Option.bind_eq_some_iff.mp hstep
    have hkinds : Changing [.error, .pc] cpuFetch := (cpuFetch_changes (by decide) (by decide)).changing
    obtain ⟨hen, hpic, hheap⟩ := hkinds.quiet (by decide) hf
    dsimp only at hstep hen hpic hheap
    split at hstep
    next hp =>
      cases hop : ops (byteOf (htov w) 0) with
      | none =>
        rw [hop] at hstep
        cases hstep
        exact Threads.covered_of_looks rfl
      | some op =>
        rw [hop] at hstep
        cases hstep
        intro hb hen'
        have hwfi : op = .wfi := by
          rcases hb with (⟨_, h | h⟩ | ⟨h, _⟩) | h <;> cases h
          rfl
        rw [hwfi] at hop
        have hc := hc (.inl (.inr ⟨rfl, w, cpuFetch_inv hf hp, hop⟩)) (hen.symm.trans hen')
        intro i hi
        apply hc i
        rw [← hpic, ← hheap]
        exact hi
    · cases hstep
      exact Threads.covered_of_looks rfl
  | debugger op word =>
    rw [step_debugger] at hstep
    obtain ⟨⟨_, s1⟩, ht, hstep⟩ := Option.map_eq_some_iff.mp hstep
    cases hstep
    have hkinds : Changing [.error, .debug, .running] (trap word) :=
      (trap_changes (by decide) (by decide) (by decide)).changing
    obtain ⟨hen, hpic, hheap⟩ := hkinds.quiet (by decide) ht
    dsimp only at hen hpic hheap
    intro hb hen' i hi
    have hwfi : op = .wfi := by
      rcases hb with (⟨_, h | h⟩ | ⟨h, _⟩) | h <;> cases h
      rfl
    subst hwfi
    apply hc (.inl (.inl ⟨word, .inl rfl⟩)) (hen.symm.trans hen') i
    rw [← hpic, ← hheap]
    exact hi
  | operate op word =>
    rw [step_operate] at hstep
    obtain ⟨⟨_, s1⟩, hh, hstep⟩ := Option.map_eq_some_iff.mp hstep
    split at hstep
    next hop =>
      cases hstep
      subst hop
      obtain ⟨hen, hpic, hheap⟩ := (handler_changes .wfi).quiet (by decide) hh
      dsimp only at hen hpic hheap
      intro _ hen' i hi
      apply hc (.inl (.inl ⟨word, .inr rfl⟩)) (hen.symm.trans hen') i
      rw [← hpic, ← hheap]
      exact hi
    · cases hstep
      exact Threads.covered_of_looks rfl
  | woken =>
    cases hstep
    exact Threads.covered_of_looks rfl
  | leave =>
    cases hstep
    exact Threads.covered_of_looks rfl
  | waiting => cases hstep
  | ended => cases hstep

/-- A move that drops no signal keeps every pending interrupt covered. -/
lemma next_covered {m : Move} (hc : t.Covered) (hd : t.Delivers m) (h : Threads.next m t = some t') :
    t'.Covered := by
  cases m with
  | cpu => exact step_covered hc h
  | wake =>
    obtain ⟨_, rfl⟩ := next_wake h
    exact Threads.covered_of_looks rfl
  | stop =>
    obtain ⟨_, rfl⟩ := next_stop h
    exact hc
  | set i =>
    cases h
    intro hb hen j hj
    dsimp only
    split
    · exact Nat.succ_ne_zero _
    next hji => exact hc hb hen j ((deliverable_trigger hj).resolve_left hji)
  | signal i =>
    obtain ⟨_, rfl⟩ := next_signal h
    by_cases hp : t.phase = .waiting
    · apply Threads.covered_of_looks
      show t.phase.signalled.looks = true
      rw [hp]
      rfl
    · rintro hb hen j hj
      have hsame : t.phase.signalled = t.phase := Phase.signalled_ne hp
      have hbefore : t.BeforeWait := by
        rw [hsame] at hb
        exact hb.resolve_right hp
      have howed := hc (.inl hbefore) hen j hj
      dsimp only
      split
      next hji =>
        -- The signal that has just come was not the last one.
        subst hji
        have hlast : t.owed j ≠ 1 := fun h1 => hd j rfl ⟨hbefore, hen, hj, h1⟩
        omega
      · exact howed

/-- **Waking**: in a run in which no last signal for a pending interrupt comes between the test for interrupts and
the wait of a `WFI` with interrupts enabled, the CPU oversleeps none. -/
theorem wakes {cpu : CPU} (h : steps Threads.next moves (Threads.create cpu) = some t')
    (hd : Meets Threads.next Threads.Delivers (Threads.create cpu) moves) : ¬ t'.Oversleeps := by
  have hcreate : (Threads.create cpu).Covered := Threads.covered_of_looks rfl
  have hc : t'.Covered := hd.invariant h hcreate fun _ _ _ hc hd h => next_covered hc hd h
  rintro ⟨hp, hen, i, hi, h0⟩
  exact hc (.inr hp) hen i hi h0

end

/-- A machine before a `WFI`, with interrupts enabled. -/
def wfiCpu : CPU := { armedCpu .wfi [] with debugger := false, flags := ⟨true, false, false⟩ }

/-- An interrupt that comes while the CPU waits. -/
theorem wakes_waiting : ∃ t', @steps _ _ (@Threads.next ⟨.little⟩)
    ([.cpu, .cpu, .cpu, .cpu, .cpu, .cpu, .set 3] ++ [.signal 3]) (Threads.create wfiCpu) = some t' ∧
    ¬ t'.Oversleeps := by
  have hphase : (@steps _ _ (@Threads.next ⟨.little⟩) [.cpu, .cpu, .cpu, .cpu, .cpu, .cpu, .set 3]
      (Threads.create wfiCpu)).map (fun t => (t.phase, t.owed 3)) = some (.waiting, 1) := by decide +kernel
  obtain ⟨t, ht, hwait⟩ := Option.map_eq_some_iff.mp hphase
  obtain ⟨hp, howed⟩ := Prod.mk.inj hwait
  have hlast : ∃ t', @Threads.next ⟨.little⟩ (.signal 3) t = some t' := by
    refine ⟨_, if_neg ?_⟩
    rw [howed]
    exact Nat.one_ne_zero
  obtain ⟨t', ht'⟩ := hlast
  have hr := steps_append.mpr ⟨t, ht, (@steps_one _ _ (@Threads.next ⟨.little⟩) _ _).trans ht'⟩
  refine ⟨t', hr, @wakes ⟨.little⟩ _ _ _ hr ?_⟩
  refine Meets.append (Meets.of_forall ?_) ht (Meets.cons ?_ ht' Meets.nil)
  · intro m hm _ i hi
    subst hi
    exact absurd hm (by simp)
  · rintro i _ hdrop
    rcases hdrop.1 with ⟨_, h | h⟩ | ⟨h, _⟩ <;> cases hp.symm.trans h

/-- An interrupt that comes just before the wait is slept through. -/
theorem not_wakes_late : ∃ t', @steps _ _ (@Threads.next ⟨.little⟩)
    [.cpu, .cpu, .cpu, .cpu, .cpu, .set 3, .signal 3, .cpu] (Threads.create wfiCpu) = some t' ∧
    t'.Oversleeps := by
  have h : (@steps _ _ (@Threads.next ⟨.little⟩) [.cpu, .cpu, .cpu, .cpu, .cpu, .set 3, .signal 3, .cpu]
      (Threads.create wfiCpu)).map (fun t => (t.phase, t.cpu.flags.interruptsEnabled,
        deliverable t.cpu.pic t.cpu.heap 3, t.owed 3)) = some (.waiting, true, true, 0) := by decide +kernel
  obtain ⟨t', ht, hs⟩ := Option.map_eq_some_iff.mp h
  obtain ⟨hp, hs⟩ := Prod.mk.inj hs
  obtain ⟨hen, hs⟩ := Prod.mk.inj hs
  obtain ⟨hd, h0⟩ := Prod.mk.inj hs
  exact ⟨t', ht, hp, hen, 3, hd, h0⟩

end Thorium.Vm
