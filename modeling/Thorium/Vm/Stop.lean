import Thorium.Vm.Threads

/-!
# Stop requests

`vm_start` calls `cpu_stop` without waiting for the CPU thread to have entered `cpu_loop`, and both the prologue
of `cpu_loop` and the answer of the debugger assign to `running`. A stop request is heard (`StopHeard`) exactly
in the runs in which neither sets it to 1 afterwards (`stopHeard_iff`).
-/

namespace Thorium.Vm
open Thorium.Isa Thorium.Run

/-- The thread is in a turn of the loop whose operation has not been executed. -/
def Phase.inProgress : Phase → Nat
  | .poll | .fetch | .debugger _ _ | .operate _ _ => 1
  | _ => 0

/-- The steps of the thread to its end when `running` is 0. -/
def Phase.stepsLeft : Phase → Nat
  | .poll => 7
  | .fetch => 6
  | .debugger _ _ => 5
  | .operate _ _ => 4
  | .waiting | .woken | .created => 3
  | .condition => 2
  | .leave => 1
  | .ended => 0

section
variable [Host]

/-- From the `cpu_stop` of a run on `running` is 0, at most the operation in progress is executed, and after the
steps that are left the thread has ended. -/
def StopHeard (t : Threads) (moves : List Move) : Prop :=
  ∀ before after rest t1 t2, moves = before ++ .stop :: (after ++ rest) →
    steps Threads.next (before ++ [.stop]) t = some t1 → steps Threads.next after t1 = some t2 →
      t2.cpu.state.running = false ∧ t2.executed ≤ t1.executed + t1.phase.inProgress ∧
        after.count .cpu + t2.phase.stepsLeft ≤ t1.phase.stepsLeft

/-- The next step of the thread enters `cpu_loop`, or calls the debugger, which is told to `step`. -/
def Threads.Restarts (t : Threads) : Prop :=
  t.phase = .created ∨ (∃ op word, t.phase = .debugger op word) ∧ t.cpu.debug.trap = true ∧
    t.cpu.debugger = true ∧ answer t.cpu.input = some .step

/-- The thread does not set `running` to 1 after a stop. -/
def Threads.Heeds (t : Threads) (m : Move) : Prop := m = .cpu → t.stopped = true → ¬ t.Restarts

omit [Host] in
instance (phase : Phase) : Decidable (∃ op word, phase = .debugger op word) :=
  match phase with
  | .debugger op word => isTrue ⟨op, word, rfl⟩
  | .created | .condition | .poll | .fetch | .operate _ _ | .waiting | .woken | .leave | .ended =>
    isFalse <| by
      rintro ⟨_, _, h⟩
      cases h

instance (t : Threads) : Decidable t.Restarts := inferInstanceAs (Decidable (_ ∨ _ ∧ _ ∧ _ ∧ _))

instance (t : Threads) (m : Move) : Decidable (t.Heeds m) :=
  inferInstanceAs (Decidable (m = .cpu → t.stopped = true → ¬ t.Restarts))

variable {t t' : Threads} {phase phase' : Phase} {s s' : CPU} {op : Op} {word : Word} {moves : List Move}

/-! ### The debugger -/

/-- The debugger returns 1 for `step` only. -/
lemma cpuDebuggerLoop_answer {input : List Command} {b : Bool}
    (h : cpuDebuggerLoop word input s = some (b, s')) : b = true ↔ answer input = some .step := by
  induction input generalizing s with
  | nil => cases h
  | cons command input ih =>
    obtain ⟨⟨_, s1⟩, _, h⟩ := Option.bind_eq_some_iff.mp h
    cases command with
    | «continue» =>
      cases h
      exact ⟨nofun, nofun⟩
    | step =>
      cases h
      exact ⟨fun _ => rfl, fun _ => rfl⟩
    | quit =>
      cases h
      exact ⟨nofun, nofun⟩
    | memory first count =>
      cases hd : busDump s1.heap s1.bus first count with
      | none =>
        simp only [bind_apply, modify_apply, get_apply, Option.bind_some, hd, stop_apply] at h
        cases h
      | some u =>
        simp only [bind_apply, modify_apply, get_apply, Option.bind_some, hd] at h
        exact ih h
    | print => exact ih h

/-- What the call of the debugger does to `running`. -/
lemma trap_running (h : trap word s = some ((), s')) :
    (s.debug.trap = true ∧ s.debugger = true → (s'.state.running = true ↔ answer s.input = some .step)) ∧
    (¬ (s.debug.trap = true ∧ s.debugger = true) → s' = s) := by
  by_cases hb : (s.debug.trap && s.debugger) = true
  · refine ⟨fun _ => ?_, fun hn => absurd (Bool.and_eq_true_iff.mp hb) hn⟩
    rw [trap, bind_apply, get_apply, Option.bind_some] at h
    dsimp only at h
    rw [if_pos hb] at h
    obtain ⟨⟨b, s1⟩, h1, h⟩ := Option.bind_eq_some_iff.mp h
    cases h
    exact cpuDebuggerLoop_answer h1
  · refine ⟨fun hn => absurd (Bool.and_eq_true_iff.mpr hn) hb, fun _ => ?_⟩
    rw [trap_off (Bool.eq_false_iff.mpr hb)] at h
    cases h
    rfl

/-! ### Steps after a stop -/

omit [Host] in
/-- Only an assignment to `running` changes it. -/
lemma Change.running_eq {k : Kind} (h : Change k s s') (hk : k ≠ .running) :
    s'.state.running = s.state.running := by
  cases h with
  | running => exact absurd rfl hk
  | register hset =>
    obtain ⟨_, _, _, _, _, _, _, rfl⟩ := setRegister_eq hset
    rfl
  | _ => rfl

omit [Host] in
/-- What does not set `running` keeps it cleared. -/
lemma Changing.running_eq {kinds : List Kind} {α : Type} {m : Run CPU α} (hm : Changing kinds m)
    (hk : .running ∉ kinds) : Triple (fun s => s.state.running = false) m fun _ s => s.state.running = false := by
  apply hm.invariant
  rintro s s' ⟨k, hk', hc⟩ hs
  exact (hc.running_eq fun e => hk (e ▸ hk')).trans hs

/-- No operation sets `running`. -/
lemma handler_running (hs : s.state.running = false) (h : handler op word s = some ((), s')) :
    s'.state.running = false := by
  by_cases hop : op = .halt
  · subst hop
    obtain ⟨⟨_, s1⟩, _, h⟩ := Option.bind_eq_some_iff.mp h
    cases h
    rfl
  · have hk : .running ∉ opKinds op := by
      cases op with
      | halt => exact absurd rfl hop
      | _ => decide
    exact (handler_changes op).running_eq hk hs h

/-- A step of the thread after a stop. -/
lemma step_stopped (hs : s.state.running = false) (h : phase.step s = some (phase', s'))
    (hr : ¬ Threads.Restarts ⟨phase, s, true, 0, fun _ => 0⟩) :
    s'.state.running = false ∧ phase.operates + phase'.inProgress ≤ phase.inProgress ∧
      phase'.stepsLeft + 1 ≤ phase.stepsLeft := by
  cases phase with
  | created => exact absurd (.inl rfl) hr
  | condition =>
    rw [step_condition, if_neg fun hgo => Bool.false_ne_true (hs.symm.trans hgo.1)] at h
    cases h
    exact ⟨hs, by decide, by decide⟩
  | poll =>
    rw [step_poll] at h
    split at h
    · obtain ⟨⟨_, s1⟩, he, h⟩ := Option.map_eq_some_iff.mp h
      cases h
      have hkinds : Changing [.error, .acknowledge, .store, .pc] interruptEntry :=
        (interruptEntry_changes (by decide) (by decide) (by decide) (by decide)).changing
      exact ⟨hkinds.running_eq (by decide) hs he, by decide, by decide⟩
    · cases h
      exact ⟨hs, by decide, by decide⟩
  | fetch =>
    rw [step_fetch] at h
    obtain ⟨⟨w, s1⟩, hf, h⟩ := Option.bind_eq_some_iff.mp h
    have hkinds : Changing [.error, .pc] cpuFetch := (cpuFetch_changes (by decide) (by decide)).changing
    have h1 : s1.state.running = false := hkinds.running_eq (by decide) hs hf
    dsimp only at h
    split at h
    · cases hop : ops (byteOf (htov w) 0) with
      | none =>
        rw [hop] at h
        cases h
        exact ⟨h1, by decide, by decide⟩
      | some op =>
        rw [hop] at h
        cases h
        exact ⟨h1, Nat.le_refl _, Nat.le_refl _⟩
    · cases h
      exact ⟨h1, by decide, by decide⟩
  | debugger op word =>
    rw [step_debugger] at h
    obtain ⟨⟨_, s1⟩, ht, h⟩ := Option.map_eq_some_iff.mp h
    cases h
    refine ⟨?_, Nat.le_refl _, Nat.le_refl _⟩
    -- Only the answer `step` of the debugger sets `running` again.
    obtain ⟨hon, hoff⟩ := trap_running ht
    by_cases hd : s.debug.trap = true ∧ s.debugger = true
    · rw [← Bool.not_eq_true, hon hd]
      exact fun ha => hr (.inr ⟨⟨op, word, rfl⟩, hd.1, hd.2, ha⟩)
    · rw [hoff hd]
      exact hs
  | operate op word =>
    rw [step_operate] at h
    obtain ⟨⟨_, s1⟩, hh, h⟩ := Option.map_eq_some_iff.mp h
    have h1 := handler_running hs hh
    split at h <;> cases h
    · exact ⟨h1, Nat.le_refl _, Nat.le_refl _⟩
    · exact ⟨h1, Nat.le_refl _, Nat.le_succ _⟩
  | woken =>
    cases h
    exact ⟨hs, by decide, by decide⟩
  | leave =>
    cases h
    exact ⟨rfl, by decide, by decide⟩
  | waiting => cases h
  | ended => cases h

/-- A move after a stop. -/
lemma next_stopped {m : Move} (hs : t.stopped = true) (hrun : t.cpu.state.running = false) (hh : t.Heeds m)
    (h : Threads.next m t = some t') : t'.stopped = true ∧ t'.cpu.state.running = false ∧
      t'.executed + t'.phase.inProgress ≤ t.executed + t.phase.inProgress ∧
      [m].count .cpu + t'.phase.stepsLeft ≤ t.phase.stepsLeft := by
  cases m with
  | cpu =>
    obtain ⟨phase, s, hstep, rfl⟩ := next_cpu h
    obtain ⟨h1, h2, h3⟩ := step_stopped hrun hstep (hh rfl hs)
    refine ⟨hs, h1, ?_, ?_⟩
    · show t.executed + t.phase.operates + phase.inProgress ≤ _
      omega
    · show 1 + phase.stepsLeft ≤ _
      omega
  | wake =>
    obtain ⟨hp, rfl⟩ := next_wake h
    rw [hp]
    exact ⟨hs, hrun, Nat.le_refl _, Nat.le_refl _⟩
  | stop => exact absurd ((next_stop h).1.symm.trans hs) Bool.false_ne_true
  | set i =>
    cases h
    exact ⟨hs, hrun, Nat.le_refl _, (Nat.zero_add _).le⟩
  | signal i =>
    obtain ⟨_, rfl⟩ := next_signal h
    have hphase : t.phase.signalled.inProgress = t.phase.inProgress ∧
        t.phase.signalled.stepsLeft = t.phase.stepsLeft := by
      cases t.phase <;> exact ⟨rfl, rfl⟩
    refine ⟨hs, hrun, Nat.le_of_eq ?_, Nat.le_of_eq ?_⟩
    · exact congrArg (t.executed + ·) hphase.1
    · exact (Nat.zero_add _).trans hphase.2

/-- A run after a stop. -/
lemma steps_stopped (hs : t.stopped = true) (hrun : t.cpu.state.running = false)
    (hm : Meets Threads.next Threads.Heeds t moves) (h : steps Threads.next moves t = some t') :
    t'.cpu.state.running = false ∧ t'.executed + t'.phase.inProgress ≤ t.executed + t.phase.inProgress ∧
      moves.count .cpu + t'.phase.stepsLeft ≤ t.phase.stepsLeft := by
  induction moves generalizing t with
  | nil =>
    cases h
    exact ⟨hrun, Nat.le_refl _, (Nat.zero_add _).le⟩
  | cons m moves ih =>
    obtain ⟨t1, h1, h⟩ := steps_cons.mp h
    obtain ⟨hs1, hrun1, hexec, hleft⟩ := next_stopped hs hrun hm.head h1
    obtain ⟨hrun2, hexec2, hleft2⟩ := ih hs1 hrun1 (hm.tail h1) h
    refine ⟨hrun2, hexec2.trans hexec, ?_⟩
    rw [← List.singleton_append, List.count_append]
    omega

/-- A run that has been stopped has a stop. -/
lemma stop_mem (h : steps Threads.next moves t = some t') (hs : t.stopped = false) (hs' : t'.stopped = true) :
    Move.stop ∈ moves := by
  by_contra hn
  have hm : Meets Threads.next (fun _ m => m ≠ .stop) t moves := by
    rintro before m after s1 rfl _ rfl
    exact hn (List.mem_append_right _ List.mem_cons_self)
  have hkeeps : t'.stopped = false := by
    refine hm.invariant (P := fun t => t.stopped = false) h hs fun t m t' hs hm h => ?_
    cases m with
    | cpu =>
      obtain ⟨_, _, _, rfl⟩ := next_cpu h
      exact hs
    | wake =>
      obtain ⟨_, rfl⟩ := next_wake h
      exact hs
    | stop => exact absurd rfl hm
    | set i =>
      cases h
      exact hs
    | signal i =>
      obtain ⟨_, rfl⟩ := next_signal h
      exact hs
  exact Bool.false_ne_true (hkeeps.symm.trans hs')

/-- A restart sets `running`. -/
lemma Threads.Restarts.running (hr : t.Restarts) (h : Threads.next .cpu t = some t') :
    t'.cpu.state.running = true := by
  obtain ⟨phase, s, hstep, rfl⟩ := next_cpu h
  rcases hr with hp | ⟨⟨op, word, hp⟩, htrap, hd, ha⟩
  · rw [hp] at hstep
    cases hstep
    rfl
  · rw [hp, step_debugger] at hstep
    obtain ⟨⟨_, s1⟩, ht, hstep⟩ := Option.map_eq_some_iff.mp hstep
    cases hstep
    exact ((trap_running ht).1 ⟨htrap, hd⟩).mpr ha

/-- **Stop requests**: the stop request of a run is heard exactly when, after it, `cpu_loop` is not entered and the
debugger is not told to step. -/
theorem stopHeard_iff {cpu : CPU} (h : steps Threads.next moves (Threads.create cpu) = some t') :
    StopHeard (Threads.create cpu) moves ↔ Meets Threads.next Threads.Heeds (Threads.create cpu) moves := by
  constructor
  · rintro hheard before m rest t1 rfl h1 rfl hs hr
    obtain ⟨before', after, rfl⟩ := List.append_of_mem (stop_mem h1 rfl hs)
    obtain ⟨t2, h2, hrest⟩ := steps_append.mp h
    cases h2.symm.trans h1
    obtain ⟨t3, h3, _⟩ := steps_cons.mp hrest
    -- The run up to the restart, cut behind the stop.
    rw [← List.singleton_append, ← List.append_assoc] at h1
    obtain ⟨t0, h0, hafter⟩ := steps_append.mp h1
    have hlast : steps Threads.next (after ++ [.cpu]) t0 = some t3 :=
      steps_append.mpr ⟨_, hafter, steps_one.trans h3⟩
    have hrun := (hheard before' (after ++ [.cpu]) rest t0 t3 (by simp) h0 hlast).1
    exact Bool.false_ne_true (hrun.symm.trans (hr.running h3))
  · rintro hm before after rest t1 t2 rfl h1 h2
    obtain ⟨t0, _, hstop⟩ := steps_append.mp h1
    rw [steps_one] at hstop
    have hm1 : Meets Threads.next Threads.Heeds t1 (after ++ rest) := by
      rw [← List.singleton_append, ← List.append_assoc] at hm
      exact hm.rest h1
    obtain ⟨_, rfl⟩ := next_stop hstop
    obtain ⟨hrun, hexec, hleft⟩ := steps_stopped rfl rfl hm1.first h2
    exact ⟨hrun, (Nat.le_add_right _ _).trans hexec, hleft⟩

end

/-- A stop during a turn: its operation is executed, and the thread leaves the loop. -/
theorem stopHeard_running : ∃ t', @steps _ _ (@Threads.next ⟨.little⟩)
      ([.cpu, .cpu, .cpu, .stop] ++ List.replicate 5 .cpu) (Threads.create (smallCpu smallHeap)) = some t' ∧
    t'.phase = .ended ∧ t'.executed = 1 ∧ @StopHeard ⟨.little⟩ (Threads.create (smallCpu smallHeap))
      ([.cpu, .cpu, .cpu, .stop] ++ List.replicate 5 .cpu) := by
  have hrun : (@steps _ _ (@Threads.next ⟨.little⟩) ([.cpu, .cpu, .cpu, .stop] ++ List.replicate 5 .cpu)
      (Threads.create (smallCpu smallHeap))).map (fun t => (t.phase, t.executed)) = some (.ended, 1) := by
    decide +kernel
  obtain ⟨t', hrun, hfinal⟩ := Option.map_eq_some_iff.mp hrun
  obtain ⟨hended, hexecuted⟩ := Prod.mk.inj hfinal
  exact ⟨t', hrun, hended, hexecuted, (@stopHeard_iff ⟨.little⟩ _ _ _ hrun).mpr (by decide +kernel)⟩

/-- A stop before the thread has entered the loop is lost. -/
theorem not_stopHeard_created :
    ¬ @StopHeard ⟨.little⟩ (Threads.create (smallCpu smallHeap)) [.stop, .cpu] := by
  intro h
  have hrun := (h [] [.cpu] [] _ _ rfl rfl rfl).1
  exact Bool.false_ne_true hrun.symm

end Thorium.Vm
