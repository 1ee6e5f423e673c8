import Thorium.Lib.Steps
import Thorium.Vm.Debugging

/-!
# The CPU thread

`cpu_loop` (`src/vm/cpu.c`) as a thread of its own, a step at a time (`Phase.step`), among what the other threads
do to it: the `cpu_stop` of `vm_start` (`src/vm/vm.c`), and the two halves of `pic_interrupt_trigger`
(`src/vm/pic.c`), which sets the pending bit and then signals the condition variable on which `op_wfi`
(`src/vm/ops.c`) waits. The steps of the thread alone make up the turns of `cpuTurn` (`cpuTurn_steps`).
-/

namespace Thorium.Vm
open Thorium.Isa Thorium.Run

/-- Where the CPU thread stands: it has been created, is at the condition of the loop, before the test for an
interrupt, before the fetch, before the test for the debugger, before the operation, in the
`pthread_cond_wait` of `op_wfi`, has returned from it, is behind the loop, has ended. -/
inductive Phase where
  | created | condition | poll | fetch
  | debugger (op : Op) (word : Word)
  | operate (op : Op) (word : Word)
  | waiting | woken | leave | ended
  deriving DecidableEq

section
variable [Host]

/-- A step of `cpu_loop`. -/
def Phase.step : Phase → Run CPU Phase
  | .created => do
    modify fun cpu => (cpu.setRunning true).setPanic .ok
    return .condition
  | .condition => do
    return if (← get).goesOn then .poll else .leave
  | .poll => do
    let cpu ← get
    if cpu.flags.interruptsEnabled && picInterruptActive cpu.pic cpu.heap then
      interruptEntry
    return .fetch
  | .fetch => do
    let word := htov (← cpuFetch)
    if (← get).state.panic = .ok then
      match ← cpuDecode word with
      | some op => return .debugger op word
      | none =>
        setPanic .unimplementedOpcode
        return .condition
    else return .condition
  | .debugger op word => do
    trap word
    return .operate op word
  | .operate op word => do
    handler op word
    if op = .wfi then return .waiting
    modify CPU.stepped
    return .condition
  | .woken => do
    modify CPU.stepped
    return .condition
  | .leave => do
    modify fun cpu => cpu.setRunning false
    return .ended
  | .waiting | .ended => stop

end

/-- The CPU thread with its CPU; whether `cpu_stop` has been called, the operations that have been executed, and
for each interrupt the signals of `pic_interrupt_trigger` that are still to be delivered. -/
structure Threads where
  phase : Phase
  cpu : CPU
  stopped : Bool
  executed : Nat
  owed : Interrupt → Nat

/-- The moves: a step of the CPU thread, the return of `pthread_cond_wait` without a signal, `cpu_stop`, and the
first and the second half of `pic_interrupt_trigger`. -/
inductive Move where
  | cpu | wake | stop
  | set (i : Interrupt)
  | signal (i : Interrupt)
  deriving DecidableEq

/-- The thread is before an operation. -/
def Phase.operates : Phase → Nat
  | .operate _ _ => 1
  | _ => 0

/-- A signal wakes the thread if it waits, and is dropped otherwise. -/
def Phase.signalled (phase : Phase) : Phase := if phase = .waiting then .woken else phase

namespace Threads

/-- Threads after `pthread_create`. -/
def create (cpu : CPU) : Threads := ⟨.created, cpu, false, 0, fun _ => 0⟩

/-- A move, where it can be made. -/
def next [Host] : Move → Threads → Option Threads
  | .cpu, t => (t.phase.step t.cpu).map fun r =>
      { t with phase := r.1, cpu := r.2, executed := t.executed + t.phase.operates }
  | .wake, t => if t.phase = .waiting then some { t with phase := .woken } else none
  | .stop, t => if t.stopped then none else some { t with stopped := true, cpu := t.cpu.setRunning false }
  | .set i, t => some { t with
      cpu := { t.cpu with pic := picInterruptTrigger t.cpu.pic i }
      owed := fun j => if j = i then t.owed j + 1 else t.owed j }
  | .signal i, t =>
    if t.owed i = 0 then none
    else some { t with
      phase := t.phase.signalled
      cpu := { t.cpu with signals := t.cpu.signals ++ [.picGotInterrupt] }
      owed := fun j => if j = i then t.owed j - 1 else t.owed j }

end Threads

section
variable [Host] {t t' : Threads} {phase phase' : Phase} {s s' : CPU} {op : Op} {word : Word}

/-- A step of the thread. -/
lemma next_cpu (h : Threads.next .cpu t = some t') : ∃ phase s, t.phase.step t.cpu = some (phase, s) ∧
    t' = { t with phase := phase, cpu := s, executed := t.executed + t.phase.operates } := by
  obtain ⟨⟨phase, s⟩, hr, rfl⟩ := Option.map_eq_some_iff.mp h
  exact ⟨phase, s, hr, rfl⟩

/-- The thread wakes from its wait. -/
lemma next_wake (h : Threads.next .wake t = some t') : t.phase = .waiting ∧ t' = { t with phase := .woken } := by
  obtain ⟨hp, h⟩ := Option.ite_none_right_eq_some.mp h
  cases h
  exact ⟨hp, rfl⟩

/-- `cpu_stop` clears `running`, once. -/
lemma next_stop (h : Threads.next .stop t = some t') :
    t.stopped = false ∧ t' = { t with stopped := true, cpu := t.cpu.setRunning false } := by
  obtain ⟨hs, h⟩ := Option.ite_none_left_eq_some.mp h
  cases h
  exact ⟨Bool.eq_false_iff.mpr hs, rfl⟩

/-- A signal that is owed is sent. -/
lemma next_signal {i : Interrupt} (h : Threads.next (.signal i) t = some t') : t.owed i ≠ 0 ∧ t' = { t with
    phase := t.phase.signalled
    cpu := { t.cpu with signals := t.cpu.signals ++ [.picGotInterrupt] }
    owed := fun j => if j = i then t.owed j - 1 else t.owed j } := by
  obtain ⟨hs, h⟩ := Option.ite_none_left_eq_some.mp h
  cases h
  exact ⟨hs, rfl⟩

/-! ### The phases -/

/-- The condition of the loop. -/
lemma step_condition : Phase.condition.step s = some (if s.goesOn then .poll else .leave, s) := rfl

/-- The test for an interrupt. -/
lemma step_poll : Phase.poll.step s =
    if s.flags.interruptsEnabled && picInterruptActive s.pic s.heap then
      (interruptEntry s).map fun r => (.fetch, r.2)
    else some (.fetch, s) := by
  rw [Phase.step, bind_apply, get_apply, Option.bind_some]
  dsimp only
  split
  · rw [bind_apply]
    cases interruptEntry s <;> rfl
  · rfl

/-- The fetch of a word with its decoding. -/
lemma step_fetch : Phase.fetch.step s = (cpuFetch s).bind fun r =>
    if r.2.state.panic = .ok then
      (ops (byteOf (htov r.1) 0)).elim (some (.condition, r.2.setPanic .unimplementedOpcode)) fun op =>
        some (.debugger op (htov r.1), r.2)
    else some (.condition, r.2) := by
  rw [Phase.step, bind_apply]
  cases cpuFetch s with
  | none => rfl
  | some r =>
    obtain ⟨w, s1⟩ := r
    rw [Option.bind_some, Option.bind_some]
    dsimp only
    rw [bind_apply, get_apply, Option.bind_some]
    dsimp only
    by_cases hp : s1.state.panic = .ok
    · rw [if_pos hp, if_pos hp, bind_apply, cpuDecode_ok hp, Option.bind_some]
      dsimp only
      cases ops (byteOf (htov w) 0) <;> rfl
    · rw [if_neg hp, if_neg hp]
      rfl

/-- The call of the debugger. -/
lemma step_debugger : (Phase.debugger op word).step s = (trap word s).map fun r => (.operate op word, r.2) := by
  rw [Phase.step, bind_apply]
  cases trap word s <;> rfl

/-- The call of the operation, with the wait of `WFI`. -/
lemma step_operate : (Phase.operate op word).step s = (handler op word s).map fun r =>
    if op = .wfi then (.waiting, r.2) else (.condition, r.2.stepped) := by
  rw [Phase.step, bind_apply]
  cases handler op word s with
  | none => rfl
  | some r =>
    rw [Option.bind_some, Option.map_some]
    split <;> rfl

/-! ### Turns -/

/-- The CPU thread goes from one state to another when nothing else happens. -/
def Alone (t t' : Threads) : Prop :=
  ∃ moves, (∀ m ∈ moves, m = .cpu ∨ m = .wake) ∧ steps Threads.next moves t = some t'

/-- Steps of the thread alone, one after the other. -/
lemma Alone.trans {t'' : Threads} (h : Alone t t') (h' : Alone t' t'') : Alone t t'' := by
  obtain ⟨moves, hm, hr⟩ := h
  obtain ⟨moves', hm', hr'⟩ := h'
  exact ⟨moves ++ moves', List.forall_mem_append.mpr ⟨hm, hm'⟩, steps_append.mpr ⟨t', hr, hr'⟩⟩

/-- A step of the thread. -/
lemma Alone.step (h : phase.step s = some (phase', s')) {b n o} :
    Alone ⟨phase, s, b, n, o⟩ ⟨phase', s', b, n + phase.operates, o⟩ := by
  refine ⟨[.cpu], fun m hm => .inl (List.mem_singleton.mp hm), ?_⟩
  rw [steps_one]
  show (phase.step s).map _ = _
  rw [h]
  rfl

/-- A wake-up is a step of the thread alone. -/
lemma Alone.wake {b n o} : Alone ⟨.waiting, s, b, n, o⟩ ⟨.woken, s, b, n, o⟩ :=
  ⟨[.wake], fun _ hm => .inr (List.mem_singleton.mp hm), rfl⟩

/-- An operation of the thread. -/
lemma handler_steps (h : handler op word s = some ((), s')) {b n o} :
    Alone ⟨.operate op word, s, b, n, o⟩ ⟨.condition, s'.stepped, b, n + 1, o⟩ := by
  have hstep := @step_operate _ s op word
  rw [h, Option.map_some] at hstep
  by_cases hop : op = .wfi
  · rw [if_pos hop] at hstep
    exact (Alone.step hstep).trans (Alone.wake.trans (Alone.step rfl))
  · rw [if_neg hop] at hstep
    exact Alone.step hstep

/-- The rest of a turn is made up of steps of the thread. -/
lemma fetchExecute_steps (h : fetchExecute s = some ((), s')) {b n o} :
    ∃ n', Alone ⟨.fetch, s, b, n, o⟩ ⟨.condition, s', b, n', o⟩ := by
  obtain ⟨⟨w, e⟩, hf, h⟩ := Option.bind_eq_some_iff.mp h
  have hstep := @step_fetch _ s
  rw [hf, Option.bind_some] at hstep
  dsimp only at hstep
  have h' : (if e.state.panic = .ok then execute (htov w) else pure ()) e = some ((), s') := h
  by_cases hp : e.state.panic = .ok
  · rw [if_pos hp] at hstep h'
    rw [execute, bind_apply, cpuDecode_ok hp, Option.bind_some] at h'
    cases hop : ops (byteOf (htov w) 0) with
    | none =>
      rw [hop] at hstep h'
      cases h'
      exact ⟨_, Alone.step hstep⟩
    | some op =>
      rw [hop] at hstep h'
      obtain ⟨⟨_, e1⟩, ht, h'⟩ := Option.bind_eq_some_iff.mp h'
      obtain ⟨⟨_, e2⟩, hh, h'⟩ := Option.bind_eq_some_iff.mp h'
      cases h'
      have htrap := @step_debugger _ e op (htov w)
      rw [ht, Option.map_some] at htrap
      exact ⟨_, (Alone.step hstep).trans ((Alone.step htrap).trans (handler_steps hh))⟩
  · rw [if_neg hp] at hstep h'
    cases h'
    exact ⟨_, Alone.step hstep⟩

/-- A turn of the loop is made up of steps of the thread. -/
theorem cpuTurn_steps (hgo : s.goesOn) (h : cpuTurn s = some ((), s')) {b n o} :
    ∃ n', Alone ⟨.condition, s, b, n, o⟩ ⟨.condition, s', b, n', o⟩ := by
  have hbody : cpuLoopBody s = some ((), s') := by
    rw [cpuTurn, bind_apply, get_apply, Option.bind_some] at h
    dsimp only at h
    rw [if_pos hgo] at h
    exact h
  have hcond := @step_condition _ s
  rw [if_pos hgo] at hcond
  have hpoll := @step_poll _ s
  rw [cpuLoopBody_eq] at hbody
  split at hbody
  next hb =>
    rw [if_pos hb] at hpoll
    obtain ⟨⟨_, e⟩, he, hrest⟩ := Option.bind_eq_some_iff.mp hbody
    rw [he, Option.map_some] at hpoll
    obtain ⟨n', hn⟩ := fetchExecute_steps hrest
    exact ⟨n', (Alone.step hcond).trans ((Alone.step hpoll).trans hn)⟩
  next hb =>
    rw [if_neg hb] at hpoll
    obtain ⟨n', hn⟩ := fetchExecute_steps hbody
    exact ⟨n', (Alone.step hcond).trans ((Alone.step hpoll).trans hn)⟩

end

end Thorium.Vm
