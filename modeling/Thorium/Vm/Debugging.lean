import Thorium.Vm.Tracing

/-!
# The debugger

Two runs of the same machine among the same events, one with a debugger that has been armed and is given some
commands up to `continue`, and one without. They go on side by side while the debugger steps (`Beside.armed`).
The answer to `continue` is assigned to `state.running` and ends the run, so the two see the same only when the
other run ends with the same operation (`debugging_same`).
-/

namespace Thorium.Vm
open Thorium.Isa Thorium.Run

/-- The CPU with no debugger, nor input for one. -/
def CPU.alone (s : CPU) : CPU := { s with debugger := false, input := [] }

/-- The debugger asks for another command after this one. -/
def Command.asks : Command → Bool
  | .memory _ _ | .print => true
  | .continue | .step | .quit => false

/-- Commands up to `continue`, each a print or a step. -/
def Session (input : List Command) : Prop := ∃ commands rest, input = commands ++ .continue :: rest ∧
  ∀ command ∈ commands, command.asks = true ∨ command = .step

/-- The command that ends the dialogue. -/
def answer (input : List Command) : Option Command := (input.dropWhile Command.asks).head?

/-- What the debugger does for a command comes to an end. -/
def Command.Ends (heap : Heap) (bus : Bus) : Command → Prop
  | .memory first count => busDump heap bus first count = some ()
  | _ => True

section
variable [Host]

/-- The debugger, called before an operation, goes unseen: it does not print too much, the dumps it is asked for
end, and if it is told to continue, the operation is the last one anyway. -/
structure Unseen (op : Op) (word : Word) (e : CPU) : Prop where
  prints : e.debug.printOp = false → ¬ Overreads op word e
  dumps : ∀ command ∈ e.input.takeWhile Command.asks, command.Ends e.heap e.bus
  stops : answer e.input = some .continue → ∀ u, handler op word e.alone = some ((), u) → ¬ u.goesOn

/-- The debugger goes unseen in the next turn. -/
def CPU.Calm (s : CPU) : Prop :=
  s.goesOn → ∀ log op word e, arrive s = some ((log, some (op, word)), e) → Unseen op word e

/-- The debugger goes unseen in every turn of a run. -/
def CalmRun : CPU → List Event → Prop
  | _, [] => True
  | s, event :: events => (event = .turn → s.Calm) ∧
      ∀ log s', happen event s = some (log, s') → CalmRun s' events

/-- The same is executed and seen as with no debugger. -/
def SameDebugged (s : CPU) (events : List Event) : Prop :=
  (happenAll events s).map (fun r => (r.1, r.2.seen, decide r.2.goesOn)) =
    (happenAll events s.alone).map fun r => (r.1, r.2.seen, decide r.2.goesOn)

variable {op : Op} {word : Word} {s t e e' : CPU} {log : List Label}

/-! ### The dialogue -/

omit [Host] in
/-- A session goes on after each step. -/
lemma Session.answer {input : List Command} (h : Session input) : ∃ command rest,
    input.dropWhile Command.asks = command :: rest ∧ (command = .continue ∨ command = .step ∧ Session rest) := by
  obtain ⟨commands, rest, rfl, hc⟩ := h
  induction commands with
  | nil => exact ⟨.continue, rest, rfl, .inl rfl⟩
  | cons command commands ih =>
    have hrest : ∀ command ∈ commands, command.asks = true ∨ command = .step :=
      fun c hm => hc c (List.mem_cons_of_mem _ hm)
    rcases hc command List.mem_cons_self with ha | rfl
    · rw [List.cons_append, List.dropWhile_cons_of_pos ha]
      exact ih hrest
    · exact ⟨.step, commands ++ .continue :: rest, rfl, .inr ⟨rfl, commands, rest, rfl, hrest⟩⟩

/-- The CPU with another input. -/
def CPU.fed (s : CPU) (input : List Command) : CPU := { s with input := input }

/-- One command of the dialogue. -/
lemma cpuDebuggerLoop_cons {command : Command} {input : List Command}
    (hprint : ∃ text, cpuInstructionToString word s = some (text, s)) :
    cpuDebuggerLoop word (command :: input) s = match command with
      | .continue => some (false, { s.fed input with debug := { s.debug with trap := false } })
      | .step => some (true, s.fed input)
      | .quit => some (false, s.fed input)
      | .memory first count => match busDump s.heap s.bus first count with
        | some () => cpuDebuggerLoop word input (s.fed input)
        | none => none
      | .print => cpuDebuggerLoop word input (s.fed input) := by
  obtain ⟨text, ht⟩ := hprint
  show (cpuInstructionToString word s).bind _ = _
  rw [ht]
  cases command with
  | memory first count =>
    show (match busDump s.heap s.bus first count with
      | some () => cpuDebuggerLoop word input
      | none => stop : Run CPU Bool) (s.fed input) = _
    dsimp only
    cases busDump s.heap s.bus first count <;> rfl
  | _ => rfl

/-- The prints of a dialogue change nothing. -/
lemma cpuDebuggerLoop_asks {input rest : List Command} {command : Command}
    (hprint : ∃ text, cpuInstructionToString word s = some (text, s))
    (hends : ∀ command ∈ input.takeWhile Command.asks, command.Ends s.heap s.bus)
    (hd : input.dropWhile Command.asks = command :: rest) (hcommand : command.asks = false) :
    cpuDebuggerLoop word input s = cpuDebuggerLoop word (command :: rest) s := by
  induction input generalizing s with
  | nil => cases hd
  | cons c input ih =>
    by_cases ha : c.asks = true
    · rw [List.dropWhile_cons_of_pos ha] at hd
      rw [List.takeWhile_cons_of_pos ha] at hends
      have hfed : ∃ text, cpuInstructionToString word (s.fed input) = some (text, s.fed input) := by
        obtain ⟨text, ht⟩ := hprint
        have hc := @cpuInstructionToString_commutes _ word (fun x => { x with input := input }) (fun _ => rfl) s
        rw [ht] at hc
        exact ⟨text, hc⟩
      have hnext := ih hfed (fun c hc => hends c (List.mem_cons_of_mem _ hc)) hd
      have hlast : cpuDebuggerLoop word (command :: rest) (s.fed input) =
          cpuDebuggerLoop word (command :: rest) s := by
        rw [cpuDebuggerLoop_cons hprint, cpuDebuggerLoop_cons hfed]
        cases command <;> rfl
      rw [cpuDebuggerLoop_cons hprint, ← hlast, ← hnext]
      cases c with
      | print => rfl
      | memory first count =>
        have hdump : busDump s.heap s.bus first count = some () := hends _ List.mem_cons_self
        show (match busDump s.heap s.bus first count with
          | some () => cpuDebuggerLoop word input (s.fed input)
          | none => none) = _
        rw [hdump]
      | _ => cases ha
    · rw [List.dropWhile_cons_of_neg ha] at hd
      rw [hd]

/-- What the debugger prints first changes nothing for the operation, or aborts the process as it does. -/
lemma told (hop : ops (byteOf word 0) = some op) (h : e.debug.printOp = false → ¬ Overreads op word e) :
    (∃ e', (∃ text, cpuInstructionToString word e = some (text, e')) ∧
      (∃ text, cpuInstructionToString word e' = some (text, e')) ∧ (e' = e ∨ e' = e.missed) ∧
      handler op word e' = handler op word e) ∨
    (cpuInstructionToString word e = none ∧ handler op word e = none) := by
  have hprint {r} (hr : cpuInstructionToString word e = r) (hp : e.debug.printOp = true) :
      printInstruction word e = r.map fun x => ((), x.2) := by
    unfold printInstruction
    rw [bind_apply, get_apply, Option.bind_some]
    dsimp only
    rw [if_pos hp, bind_apply, hr]
    cases r <;> rfl
  have hne (hpw : printsWord op) : op ≠ .xpse := by
    rintro rfl
    cases hpw.1
  rcases cpuInstructionToString_cases hop e with ⟨text, hr⟩ | ⟨hpw, hp, hu, text, hr⟩ | ⟨hpw, hp, hn, hr⟩
  · exact .inl ⟨e, ⟨text, hr⟩, ⟨text, hr⟩, .inl rfl, rfl⟩
  · left
    have hpanic : e.missed.state.panic ≠ .ok := show CpuError.cannotReadMemory ≠ .ok by decide
    have hagain : ∃ text, cpuInstructionToString word e.missed = some (text, e.missed) := by
      rcases cpuInstructionToString_cases hop e.missed with hr | ⟨_, hp, _⟩ | ⟨_, hp, _⟩
      · exact hr
      · exact absurd hp hpanic
      · exact absurd hp hpanic
    refine ⟨e.missed, ⟨text, hr⟩, hagain, .inr rfl, ?_⟩
    cases hprintOp : e.debug.printOp with
    | false => exact handler_missed hop (hne hpw) hpw hp hu (h hprintOp)
    | true =>
      -- The operation prints itself, and misses its operand in the same way.
      obtain ⟨k, hb⟩ := handler_body word (hne hpw)
      have hmissed : printInstruction word e.missed = some ((), e.missed) := by
        rcases printInstruction_cases hop e.missed with hr | ⟨_, hp, _⟩ | ⟨_, hp, _⟩
        · exact hr
        · exact absurd hp hpanic
        · exact absurd hp hpanic
      rw [hb.handler, bind_apply, bind_apply, hmissed, hprint hr hprintOp]
      rfl
  · right
    refine ⟨hr, ?_⟩
    obtain ⟨k, hb⟩ := handler_body word (hne hpw)
    cases hprintOp : e.debug.printOp with
    | false =>
      rw [hb.run hop fun _ => h hprintOp]
      exact hb.aborts e hpw hp hn (h hprintOp)
    | true =>
      rw [hb.handler, bind_apply, hprint hr hprintOp]
      rfl

/-- The CPU after a dialogue. -/
def CPU.told (s : CPU) (input : List Command) : Command → CPU
  | .continue => { s with input := input, debug := { s.debug with trap := false }, state := ⟨s.state.panic, false⟩ }
  | _ => { s with input := input, state := ⟨s.state.panic, true⟩ }

/-- The call of a debugger that is given a session. -/
lemma trap_session {command : Command} {rest : List Command} (hd : e.debugger = true) (ht : e.debug.trap = true)
    (hprint : ∃ text, cpuInstructionToString word e = some (text, e'))
    (hagain : ∃ text, cpuInstructionToString word e' = some (text, e')) (he : e' = e ∨ e' = e.missed)
    (hends : ∀ command ∈ e.input.takeWhile Command.asks, command.Ends e.heap e.bus)
    (hdrop : e.input.dropWhile Command.asks = command :: rest) (hc : command = .continue ∨ command = .step) :
    trap word e = some ((), e'.told rest command) := by
  have hloop : cpuDebuggerLoop word e.input e = cpuDebuggerLoop word e.input e' := by
    obtain ⟨text, hprint⟩ := hprint
    obtain ⟨text', hagain⟩ := hagain
    cases e.input with
    | nil => rfl
    | cons command input =>
      show (cpuInstructionToString word e).bind _ = (cpuInstructionToString word e').bind _
      rw [hprint, hagain]
      rfl
  have hends' : ∀ command ∈ e.input.takeWhile Command.asks, command.Ends e'.heap e'.bus := by
    rcases he with rfl | rfl <;> exact hends
  have hcommand : command.asks = false := by
    rcases hc with rfl | rfl <;> rfl
  unfold trap
  rw [bind_apply, get_apply, Option.bind_some]
  dsimp only
  rw [hd, ht, Bool.and_self, if_pos rfl]
  show (cpuDebuggerLoop word e.input e).bind _ = _
  rw [hloop, cpuDebuggerLoop_asks hagain hends' hdrop hcommand, cpuDebuggerLoop_cons hagain]
  rcases hc with rfl | rfl <;> rfl

/-! ### Side by side -/

/-- The CPU without what the end of a session may leave. -/
def CPU.cloak (s : CPU) : CPU :=
  { s with debug := { s.debug with trap := true }, debugger := false, input := [], state := ⟨s.state.panic, false⟩ }

/-- The CPU with a debugger and the one without: the debugger steps, or both have ended. -/
inductive Beside : CPU → CPU → Prop where
  | armed {s : CPU} : s.debugger = true → s.debug.trap = true → Session s.input → Beside s s.alone
  | ended {s t : CPU} : s.cloak = t.cloak → ¬ s.goesOn → ¬ t.goesOn → Beside s t

omit [Host] in
/-- The same is seen. -/
lemma Beside.look (h : Beside s t) : s.seen = t.seen ∧ (s.goesOn ↔ t.goesOn) := by
  cases h with
  | armed _ _ _ => exact ⟨rfl, Iff.rfl⟩
  | ended hc hs ht =>
    have hseen : s.cloak.seen = t.cloak.seen := congrArg CPU.seen hc
    exact ⟨hseen, iff_of_false hs ht⟩

/-- Outcomes with the same log that are side by side. -/
abbrev Alongside : Option (List Label × CPU) → Option (List Label × CPU) → Prop :=
  Option.Rel fun r r' => r.1 = r'.1 ∧ Beside r.2 r'.2

/-- The CPU that has been stepped keeps its debugger. -/
def keeping (rest : List Command) (x : Extras) : Extras :=
  { x with debugger := true, input := rest, debug := { x.debug with trap := true } }

omit [Host] in
/-- A step keeps the debugger as it is. -/
lemma told_keeping {rest : List Command} (hd : e.debugger = true) (ht : e.debug.trap = true) :
    dressing (keeping rest) (e.told rest .step) = e.told rest .step := by
  have hdebug : { e.debug with trap := true } = e.debug := by rw [← ht]
  show { e.told rest .step with debugger := true, input := rest, debug := { e.debug with trap := true } } = _
  rw [hdebug]
  show { e.told rest .step with debugger := true } = e.told rest .step
  rw [← hd]
  rfl

/-- An operation does not see whether there is a debugger. -/
lemma handler_alone : handler op word e.alone = (handler op word e).map fun r => (r.1, r.2.alone) :=
  @handler_unseen _ op word (fun x => { x with debugger := false, input := [] }) (fun _ => rfl) (fun _ => rfl)
    (fun _ => rfl) (fun _ => rfl) (fun _ _ => rfl) e

/-- The operation after a step. -/
lemma step_beside {rest : List Command} (hd : e.debugger = true) (ht : e.debug.trap = true)
    (hrunning : e.state.running = true) (hs : Session rest) :
    Option.Rel Beside ((handler op word (e.told rest .step)).map fun x => x.2.stepped)
      ((handler op word e.alone).map fun x => x.2.stepped) := by
  have halone := @handler_alone _ op word (e.told rest .step)
  have hkeep := @handler_unseen _ op word (keeping rest) (fun _ => rfl) (fun _ => rfl) (fun _ => rfl)
    (fun _ => rfl) (fun _ _ => rfl) (e.told rest .step)
  rw [told_keeping hd ht] at hkeep
  have he : (e.told rest .step).alone = e.alone := by
    show { e.alone with state := ⟨e.state.panic, true⟩ } = e.alone
    rw [← hrunning]
    rfl
  rw [← he, halone]
  cases hu : handler op word (e.told rest .step) with
  | none => exact .none
  | some r =>
    rw [hu] at hkeep
    have hr : r.2 = dressing (keeping rest) r.2 := congrArg Prod.snd (Option.some.inj hkeep)
    have hrest : Session r.2.stepped.input := by
      rw [hr]
      exact hs
    exact .some (.armed (congrArg CPU.debugger hr) (congrArg (fun s => s.debug.trap) hr) hrest)

/-- The operation after the end of a session. -/
lemma continue_beside {rest : List Command} (hstop : ∀ u, handler op word e.alone = some ((), u) → ¬ u.goesOn) :
    Option.Rel Beside ((handler op word (e.told rest .continue)).map fun x => x.2.stepped)
      ((handler op word e.alone).map fun x => x.2.stepped) := by
  have hcloak (s : CPU) : handler op word s.cloak = (handler op word s).map fun r => (r.1, r.2.cloak) :=
    @handler_unseen _ op word
      (fun x => ⟨{ x.debug with trap := true }, false, [], false⟩) (fun _ => rfl) (fun _ => rfl)
      (fun _ => rfl) (fun _ => rfl) (fun _ _ => rfl) s
  have hhalted := @handler_unseen _ op word (fun x => { x with running := false }) (fun _ => rfl) (fun _ => rfl)
    (fun _ => rfl) (fun _ => rfl) (fun _ _ => rfl) (e.told rest .continue)
  have hsame : (handler op word (e.told rest .continue)).map (fun r => (r.1, r.2.cloak)) =
      (handler op word e.alone).map fun r => (r.1, r.2.cloak) := by
    rw [← hcloak, ← hcloak]
    rfl
  cases hu : handler op word (e.told rest .continue) with
  | none =>
    rw [hu] at hsame
    cases hv : handler op word e.alone with
    | none => exact .none
    | some r =>
      rw [hv] at hsame
      cases hsame
  | some r =>
    rw [hu] at hsame
    cases hv : handler op word e.alone with
    | none =>
      rw [hv] at hsame
      cases hsame
    | some r' =>
      rw [hv] at hsame
      have hrun : r.2.state.running = false := by
        have htold : dressing (fun x => { x with running := false }) (e.told rest .continue) =
          e.told rest .continue := rfl
        rw [htold, hu] at hhalted
        exact congrArg (fun x : Unit × CPU => x.2.state.running) (Option.some.inj hhalted)
      have heq : r.2.cloak = r'.2.cloak := congrArg Prod.snd (Option.some.inj hsame)
      refine .some (.ended (congrArg CPU.stepped heq) (fun h => ?_) (hstop r'.2 hv))
      cases hrun.symm.trans h.1

/-- The operation of a turn, with the debugger before it. -/
lemma operate_beside (hop : ops (byteOf word 0) = some op) (hd : e.debugger = true) (ht : e.debug.trap = true)
    (hrunning : e.state.running = true) (hs : Session e.input) (hu : Unseen op word e) :
    Option.Rel Beside ((operate op word e).map fun x => x.2) ((operate op word e.alone).map fun x => x.2) := by
  have hquiet : (operate op word e.alone).map (fun x => x.2) =
      (handler op word e.alone).map fun x => x.2.stepped := by
    rw [operate, bind_apply, trap_off (Bool.and_false _)]
    show ((handler op word e.alone).bind _).map _ = _
    cases handler op word e.alone <;> rfl
  rw [hquiet]
  obtain ⟨command, rest, hdrop, hcase⟩ := hs.answer
  -- The debugger prints the operation first, and panics when its operand is not there.
  rcases told hop hu.prints with ⟨e', hprint, hagain, he, hsame⟩ | ⟨hn, hnone⟩
  · have hcommand : command = .continue ∨ command = .step := hcase.imp id fun h => h.1
    have htrap := trap_session hd ht hprint hagain he hu.dumps hdrop hcommand
    have hoperate : (operate op word e).map (fun x => x.2) =
        (handler op word (e'.told rest command)).map fun x => x.2.stepped := by
      rw [operate, bind_apply, htrap]
      show ((handler op word (e'.told rest command)).bind _).map _ = _
      cases handler op word (e'.told rest command) <;> rfl
    have halone : handler op word e.alone = handler op word e'.alone := by
      rw [handler_alone, handler_alone, hsame]
    rw [hoperate, halone]
    rcases hcase with rfl | ⟨rfl, hrest⟩
    · apply continue_beside
      rw [← halone]
      apply hu.stops
      rw [Vm.answer, hdrop]
      rfl
    · have hd' : e'.debugger = true := by
        rcases he with rfl | rfl <;> exact hd
      have ht' : e'.debug.trap = true := by
        rcases he with rfl | rfl <;> exact ht
      have hrunning' : e'.state.running = true := by
        rcases he with rfl | rfl <;> exact hrunning
      exact step_beside hd' ht' hrunning' hrest
  · have htrap : trap word e = none := by
      unfold trap
      rw [bind_apply, get_apply, Option.bind_some]
      dsimp only
      rw [hd, ht, Bool.and_self, if_pos rfl]
      show (cpuDebuggerLoop word e.input e).bind _ = _
      cases hi : e.input with
      | nil =>
        rw [hi] at hdrop
        cases hdrop
      | cons command input =>
        show ((cpuInstructionToString word e).bind _).bind _ = _
        rw [hn]
        rfl
    rw [operate, bind_apply, htrap, handler_alone, hnone]
    exact .none

/-- Both turns have the same log, and leave CPUs that are side by side. -/
lemma turn_alongside (hd : s.debugger = true) (ht : s.debug.trap = true) (hs : Session s.input) (hc : s.Calm) :
    Alongside (turnLogged s) (turnLogged s.alone) := by
  by_cases hgo : s.goesOn
  · have harrive : arrive s.alone = (arrive s).map fun r => (r.1, r.2.alone) :=
      @arrive_commutes _ (fun x => { x with debugger := false, input := [] }) s
    have hgo' : s.alone.goesOn := hgo
    rw [turnLogged_eq hgo, turnLogged_eq hgo', harrive]
    rcases ha : arrive s with _ | ⟨⟨log, _ | ⟨op, word⟩⟩, e⟩
    · exact .none
    · have hext := arrive_extras ha
      have hinput : e.input = s.input := congrArg Extras.input hext
      refine .some ⟨rfl, .armed ?_ ?_ ?_⟩
      · exact (congrArg Extras.debugger hext).trans hd
      · exact (congrArg (fun x => x.debug.trap) hext).trans ht
      · rw [hinput]
        exact hs
    · have hext := arrive_extras ha
      have hinput : e.input = s.input := congrArg Extras.input hext
      have hd' : e.debugger = true := (congrArg Extras.debugger hext).trans hd
      have ht' : e.debug.trap = true := (congrArg (fun x => x.debug.trap) hext).trans ht
      have hrunning : e.state.running = true := (congrArg Extras.running hext).trans hgo.1
      have hs' : Session e.input := by
        rw [hinput]
        exact hs
      have hrel := operate_beside (arrive_inv ha).1 hd' ht' hrunning hs' (hc hgo log op word e ha)
      show Alongside ((operate op word e).map fun x => (log ++ [.exec op], x.2))
        ((operate op word e.alone).map fun x => (log ++ [.exec op], x.2))
      revert hrel
      cases operate op word e <;> cases operate op word e.alone <;> intro hrel <;> cases hrel
      · exact .none
      · exact .some ⟨rfl, ‹_›⟩
  · have hgo' : ¬ s.alone.goesOn := hgo
    rw [turnLogged_stop hgo, turnLogged_stop hgo']
    exact .some ⟨rfl, .armed hd ht hs⟩

/-- Any event keeps the CPUs side by side. -/
lemma happen_alongside {event : Event} (h : Beside s t) (hc : event = .turn → s.Calm) :
    Alongside (happen event s) (happen event t) := by
  cases h with
  | armed hd ht hs =>
    cases event with
    | turn => exact turn_alongside hd ht hs (hc rfl)
    | trigger i => exact .some ⟨rfl, .armed hd ht hs⟩
    | store r a w => exact .some ⟨rfl, .armed hd ht hs⟩
  | ended hcloak hstop hstop' =>
    cases event with
    | turn =>
      show Alongside (turnLogged s) (turnLogged t)
      rw [turnLogged_stop hstop, turnLogged_stop hstop']
      exact .some ⟨rfl, .ended hcloak hstop hstop'⟩
    | trigger i =>
      refine .some ⟨rfl, .ended ?_ hstop hstop'⟩
      exact congrArg (fun s : CPU => { s with
        pic := picInterruptTrigger s.pic i, signals := s.signals ++ [Cond.picGotInterrupt] }) hcloak
    | store r a w =>
      refine .some ⟨rfl, .ended ?_ hstop hstop'⟩
      exact congrArg (fun s : CPU => { s with heap := setWord s.heap r a w }) hcloak

/-- So do whole runs. -/
lemma happenAll_alongside {events : List Event} (h : Beside s t) (hc : CalmRun s events) :
    Alongside (happenAll events s) (happenAll events t) := by
  induction events generalizing s t with
  | nil => exact .some ⟨rfl, h⟩
  | cons event events ih =>
    have hfirst := happen_alongside h hc.1
    show Alongside ((happen event s).bind _) ((happen event t).bind _)
    cases hr : happen event s with
    | none =>
      rw [hr] at hfirst
      cases ht : happen event t with
      | none => exact .none
      | some r =>
        rw [ht] at hfirst
        cases hfirst
    | some r =>
      rw [hr] at hfirst
      cases ht : happen event t with
      | none =>
        rw [ht] at hfirst
        cases hfirst
      | some r' =>
        rw [ht] at hfirst
        cases hfirst with
        | some hfirst =>
          obtain ⟨hlog, hbeside⟩ := hfirst
          have hrest := ih hbeside (hc.2 r.1 r.2 hr)
          show Alongside ((happenAll events r.2).bind _) ((happenAll events r'.2).bind _)
          revert hrest
          cases happenAll events r.2 <;> cases happenAll events r'.2 <;> intro hrest <;> cases hrest
          · exact .none
          · rename_i hrest
            exact .some ⟨congrArg₂ _ hlog hrest.1, hrest.2⟩

/-- A debugger that goes unseen in every turn makes no difference. -/
theorem debugging_same {events : List Event} (hd : s.debugger = true) (ht : s.debug.trap = true)
    (hs : Session s.input) (hc : CalmRun s events) : SameDebugged s events := by
  have h := happenAll_alongside (.armed hd ht hs) hc
  unfold SameDebugged
  revert h
  cases happenAll events s <;> cases happenAll events s.alone <;> intro h <;> cases h
  · rfl
  · rename_i h
    obtain ⟨hlog, hbeside⟩ := h
    obtain ⟨hseen, hgo⟩ := hbeside.look
    simp only [Option.map_some, hlog, hseen, hgo]

end

/-! ### Examples -/

/-- A machine whose debugger is armed, and is given a session at an operation. -/
def armedCpu (op : Op) (input : List Command) : CPU :=
  { smallCpu fun _ => { smallHeap 0 with raw := fun _ => op.bytecode ++ (0 : Byte) ++ (0 : Byte) ++ (0 : Byte) } with
    debug := ⟨false, false, true, 0⟩, debugger := true, input := input }

/-- The same with `NOP` before the operation, in the state after `steps` steps. -/
def nopCpu (op : Op) (steps : BitVec 64) (input : List Command) : CPU :=
  { armedCpu op input with
    heap := fun _ => { smallHeap 0 with
      raw := fun i => (if i = 0 then Op.bytecode .nop else op.bytecode) ++ (0 : Byte) ++ (0 : Byte) ++ (0 : Byte) }
    pc := if steps = 0 then 0 else 4
    debug := ⟨false, false, true, steps⟩ }

/-- The debugger that is told to step at `NOP`, and to continue at the last operation, goes unseen. -/
theorem debugging_same_halt :
    @SameDebugged ⟨.little⟩ (nopCpu .halt 0 [.step, .memory 0 4, .continue]) [.turn, .turn] := by
  -- An operation that reads no words is not read beyond.
  have hreads (op : Op) (hop : op = .nop ∨ op = .halt) (word : Word) (e : CPU) : ¬ @Overreads ⟨.little⟩ op word e := by
    rintro (⟨hn, _⟩ | ⟨hcmp, _⟩)
    · rcases hop with rfl | rfl <;> exact hn
    · rcases hop with rfl | rfl <;> cases hcmp
  have hnop : @happen ⟨.little⟩ .turn (nopCpu .halt 0 [.step, .memory 0 4, .continue]) =
      some ([.exec .nop], nopCpu .halt 1 [.memory 0 4, .continue]) := rfl
  refine @debugging_same ⟨.little⟩ _ _ rfl rfl ⟨[.step, .memory 0 4], [], rfl, by decide⟩ ⟨?_, ?_⟩
  · intro _ _ log op word e ha
    obtain ⟨word', hrun⟩ : ∃ word, @arrive ⟨.little⟩ (nopCpu .halt 0 [.step, .memory 0 4, .continue]) =
        some (([], some (.nop, word)), (nopCpu .halt 0 [.step, .memory 0 4, .continue]).skip) := ⟨_, rfl⟩
    rw [hrun] at ha
    cases ha
    exact @Unseen.mk ⟨.little⟩ _ _ _ (fun _ => hreads _ (.inl rfl) _ _) (fun _ hm => absurd hm List.not_mem_nil)
      fun hcontinue => by cases hcontinue
  · intro log s' hs'
    rw [hnop] at hs'
    cases hs'
    refine ⟨?_, fun _ _ _ => trivial⟩
    intro _ _ log op word e ha
    obtain ⟨word', hrun⟩ : ∃ word, @arrive ⟨.little⟩ (nopCpu .halt 1 [.memory 0 4, .continue]) =
        some (([], some (.halt, word)), (nopCpu .halt 1 [.memory 0 4, .continue]).skip) := ⟨_, rfl⟩
    rw [hrun] at ha
    cases ha
    apply @Unseen.mk ⟨.little⟩
    · exact fun _ => hreads _ (.inr rfl) _ _
    · intro command hm
      cases List.mem_singleton.mp hm
      have hdump : busDump (nopCpu .halt 1 []).heap (nopCpu .halt 1 []).bus 0 4 = some () := by
        decide +kernel
      exact hdump
    · intro _ u hu hgo
      cases hu
      cases hgo.1

/-- The debugger that is told to continue elsewhere stops the CPU. -/
theorem not_sameDebugged_nop : ¬ @SameDebugged ⟨.little⟩ (armedCpu .nop [.continue]) [.turn] := by
  intro h
  have hsame := congrArg (Option.map fun r => r.2.2) h
  rw [Option.map_map, Option.map_map] at hsame
  exact absurd hsame (by decide +kernel)

end Thorium.Vm
