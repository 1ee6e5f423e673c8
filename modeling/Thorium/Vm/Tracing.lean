import Thorium.Vm.Extras

/-!
# Tracing

Two runs of the same machine among the same events, one with `debug.print_op` and one without. They see the
same until the one that prints reads an operand that the other does not read and that is not there: that of a
conditional jump that is not taken, or that of a `CMP` of a register that does not exist (`tracing_iff`).
-/

namespace Thorium.Vm
open Thorium.Isa Thorium.Run

/-- The CPU with `debug.print_op`. -/
def CPU.printing (b : Bool) (s : CPU) : CPU := { s with debug := { s.debug with printOp := b } }

/-- What a run of the CPU is compared by. -/
structure Seen where
  registers : Nat → Word
  pc : Addr
  sp : Addr
  bp : Addr
  cs : Addr
  idt : Addr
  ir : Word
  flags : Flags
  heap : Heap
  panic : CpuError

/-- What is seen of a CPU. -/
def CPU.seen (s : CPU) : Seen := ⟨s.registers, s.pc, s.sp, s.bp, s.cs, s.idt, s.ir, s.flags, s.heap, s.state.panic⟩

/-- An operation that changes `debug.print_op` has been executed. -/
def Toggled (log : List Label) : Prop := .exec .xpse ∈ log ∨ .exec .xpsd ∈ log

instance (log : List Label) : Decidable (Toggled log) := inferInstanceAs (Decidable (_ ∨ _))

section
variable [Host]

/-- The next turn gets to an operation whose printing reads too much. -/
def CPU.Overread (s : CPU) : Prop := s.goesOn ∧ ∃ log op word e e',
  arrive s = some ((log, some (op, word)), e) ∧ trap word e = some ((), e') ∧ e'.state.panic = .ok ∧
    Overreads op word e'

/-- The same is seen with tracing as without, whatever events there are. -/
def SameTraced (s : CPU) : Prop := ∀ events,
  (happenAll events (s.printing true)).map (fun r => r.2.seen) =
    (happenAll events (s.printing false)).map fun r => r.2.seen

variable {op : Op} {word : Word} {s s' e e' : CPU} {log log' : List Label} {b : Bool}

/-! ### One turn -/

/-- Tracing as a change of the debugging state. -/
def tracing (b : Bool) (x : Extras) : Extras := { x with debug := { x.debug with printOp := b } }

/-- The debugger does not see whether instructions are traced. -/
lemma cpuDebuggerLoop_tracing (input : List Command) :
    Commutes (dressing (tracing b)) (cpuDebuggerLoop word input) := by
  induction input with
  | nil => exact Commutes.stop
  | cons command input ih =>
    have htext : Commutes (dressing (tracing b)) (cpuInstructionToString word) :=
      cpuInstructionToString_commutes fun _ => rfl
    refine htext.bind fun _ => Commutes.bind (Commutes.modify fun _ => rfl) fun _ => ?_
    cases command with
    | «continue» => exact Commutes.bind (Commutes.modify fun _ => rfl) fun _ => Commutes.pure _
    | step => exact Commutes.pure _
    | quit => exact Commutes.pure _
    | memory first count =>
      refine Commutes.get_bind (fun _ => rfl) fun s => ?_
      cases busDump s.heap s.bus first count with
      | some u => exact ih
      | none => exact Commutes.stop
    | print => exact ih

/-- The debugger does not see whether there is tracing. -/
lemma trap_tracing : Commutes (dressing (tracing b)) (trap word) := by
  refine Commutes.get_bind (fun _ => rfl) fun s => Commutes.ite ?_ (Commutes.pure _)
  have hloop : Commutes (dressing (tracing b)) (cpuDebuggerTrapHandler word) :=
    Commutes.get_bind (fun _ => rfl) fun s => cpuDebuggerLoop_tracing s.input
  exact hloop.bind fun _ => Commutes.modify fun _ => rfl

/-- The operations that change `debug.print_op` leave the same, whatever it is. -/
lemma handler_toggle (hop : ops (byteOf word 0) = some op) (h : op = .xpse ∨ op = .xpsd) :
    handler op word (s.printing b) = handler op word s := by
  rcases h with rfl | rfl
  · rfl
  · have hpure (s : CPU) : printInstruction word s = some ((), s) := by
      rcases printInstruction_cases hop s with hr | ⟨hpw, _⟩ | ⟨hpw, _⟩
      · exact hr
      · cases hpw.1
      · cases hpw.1
    show (printInstruction word (s.printing b)).bind _ = (printInstruction word s).bind _
    rw [hpure, hpure]
    rfl

/-- Any other operation leaves it as it is. -/
lemma operate_tracing (hop : ops (byteOf word 0) = some op) (h : ¬ (op = .xpse ∨ op = .xpsd))
    (ho : ∀ e', trap word e = some ((), e') → e'.state.panic = .ok → ¬ Overreads op word e') :
    operate op word (e.printing b) = (operate op word e).map fun r => (r.1, r.2.printing b) := by
  have hm : Mild (tracing b) op := by
    cases op with
    | halt | xbrk => exact fun _ => rfl
    | xpse => exact absurd (.inl rfl) h
    | xpsd => exact absurd (.inr rfl) h
    | _ => exact trivial
  have ht : trap word (e.printing b) = (trap word e).map fun r => (r.1, r.2.printing b) := trap_tracing e
  unfold operate
  rw [bind_apply, bind_apply, ht]
  cases htrap : trap word e with
  | none => rfl
  | some r =>
    obtain ⟨_, e'⟩ := r
    have hh : handler op word (e'.printing b) = (handler op word e').map fun r => (r.1, r.2.printing b) :=
      handler_dressing hop (fun hx => h (.inl hx)) hm (ho e' htrap)
    show (handler op word (e'.printing b)).bind _ = ((handler op word e').bind _).map _
    rw [hh]
    cases handler op word e' <;> rfl

/-- So the operation of a turn. -/
lemma operate_toggle (hop : ops (byteOf word 0) = some op) (h : op = .xpse ∨ op = .xpsd) :
    operate op word (e.printing b) = operate op word e := by
  have ht : trap word (e.printing b) = (trap word e).map fun r => (r.1, r.2.printing b) := trap_tracing e
  unfold operate
  rw [bind_apply, bind_apply, ht]
  cases trap word e with
  | none => rfl
  | some r =>
    show (handler op word (r.2.printing b)).bind _ = (handler op word r.2).bind _
    rw [handler_toggle hop h]

omit [Host] in
/-- The operations that turn tracing on and off. -/
lemma toggled_exec (h : ∀ op, .exec op ∉ log) : Toggled (log ++ [.exec op]) ↔ op = .xpse ∨ op = .xpsd := by
  unfold Toggled
  simp [h, eq_comm]

/-- The CPU that goes on without tracing as another goes on with it. -/
def CPU.follows (b : Bool) (log : List Label) (s : CPU) : CPU := if Toggled log then s else s.printing b

/-- A turn whose printing does not read too much is the same, whether there is tracing or not. -/
lemma turn_tracing (h : ¬ s.Overread) :
    turnLogged (s.printing b) = (turnLogged s).map fun r => (r.1, r.2.follows b r.1) := by
  by_cases hgo : s.goesOn
  · have hgo' : (s.printing b).goesOn := hgo
    have harrive : arrive (s.printing b) = (arrive s).map fun r => (r.1, r.2.printing b) :=
      @arrive_commutes _ (tracing b) s
    rw [turnLogged_eq hgo, turnLogged_eq hgo', harrive]
    rcases ha : arrive s with _ | ⟨⟨log, _ | ⟨op, word⟩⟩, e⟩
    · rfl
    · have hlog : ¬ Toggled log := fun ht => ht.elim (arrive_log ha _) (arrive_log ha _)
      show some (log, e.printing b) = some (log, e.follows b log)
      rw [CPU.follows, if_neg hlog]
    · obtain ⟨hop, -⟩ := arrive_inv ha
      have ho (e' : CPU) (ht : trap word e = some ((), e')) (hp : e'.state.panic = .ok) : ¬ Overreads op word e' :=
        fun hr => h ⟨hgo, log, op, word, e, e', ha, ht, hp, hr⟩
      show (operate op word (e.printing b)).map _ = ((operate op word e).map _).map _
      by_cases ht : op = .xpse ∨ op = .xpsd
      · have hlog : Toggled (log ++ [.exec op]) := (toggled_exec (arrive_log ha)).mpr ht
        rw [operate_toggle hop ht]
        cases operate op word e with
        | none => rfl
        | some r =>
          show some (log ++ [.exec op], r.2) = some (log ++ [.exec op], r.2.follows b (log ++ [.exec op]))
          rw [CPU.follows, if_pos hlog]
      · have hlog : ¬ Toggled (log ++ [.exec op]) := fun h => ht ((toggled_exec (arrive_log ha)).mp h)
        rw [operate_tracing hop ht ho]
        cases operate op word e with
        | none => rfl
        | some r =>
          show some (log ++ [.exec op], r.2.printing b) = some (log ++ [.exec op], r.2.follows b (log ++ [.exec op]))
          rw [CPU.follows, if_neg hlog]
  · have hgo' : ¬ (s.printing b).goesOn := hgo
    rw [turnLogged_stop hgo, turnLogged_stop hgo']
    rfl

/-- An event among which no printing reads too much. -/
lemma happen_tracing {event : Event} (h : event = .turn → ¬ s.Overread) :
    happen event (s.printing b) = (happen event s).map fun r => (r.1, r.2.follows b r.1) := by
  cases event with
  | turn => exact turn_tracing (h rfl)
  | trigger i => rfl
  | store r a w => rfl

/-! ### A turn that prints too much -/

/-- A jump that is not taken. -/
lemma NotTaken.jump (h : NotTaken e op) (word : Word) :
    ∃ z target, handler op word = jumpIf z target word ∧ e.flags.zero ≠ z := by
  have hne {z : Bool} (hz : e.flags.zero = !z) : e.flags.zero ≠ z := by
    rw [hz]
    exact Bool.not_ne_self z
  cases op with
  | jeqS | jeqA => exact ⟨true, _, rfl, hne h⟩
  | jneS | jneA => exact ⟨false, _, rfl, hne h⟩
  | _ => exact False.elim h

/-- An operation that is printed with too much misses its operand, or the process is aborted. -/
lemma printInstruction_overreads (hop : ops (byteOf word 0) = some op) (hp : e.state.panic = .ok)
    (hprint : e.debug.printOp = true) (h : Overreads op word e) :
    printInstruction word e = none ∨ (NotTaken e op ∧ printInstruction word e = some ((), e.missed)) := by
  have hword (text : CPU → Word → String) :
      printedWord text e = none ∨ (NotTaken e op ∧ ∃ t, printedWord text e = some (t, e.missed)) := by
    rcases printedWord_cases text e with ⟨_, hw⟩ | ⟨_, hu, hr⟩ | ⟨_, _, hr⟩
    · obtain ⟨w, hw⟩ := hw hp
      rcases h with ⟨_, hn⟩ | ⟨_, _, hn⟩
      · exact absurd hw (hn w)
      · cases hn.symm.trans hw
    · obtain ⟨error, he⟩ := hu
      rcases h with ⟨hnt, _⟩ | ⟨_, _, hn⟩
      · exact .inr ⟨hnt, hr⟩
      · cases hn.symm.trans he
    · exact .inl hr
  have hprinted : printed (byteOf word 0) = some op ∧ ∃ text, ∃ f : String → String,
      printedArgs word op = printedWord text >>= fun v => pure (f v) := by
    unfold printed
    rw [hop]
    rcases h with ⟨hnt, _⟩ | ⟨rfl, _⟩
    · cases op with
      | jeqS | jeqA | jneS | jneA => exact ⟨rfl, _, _, rfl⟩
      | _ => exact False.elim hnt
    · exact ⟨rfl, _, _, rfl⟩
  obtain ⟨hpr, text, f, hargs⟩ := hprinted
  unfold printInstruction
  rw [bind_apply, get_apply, Option.bind_some]
  dsimp only
  rw [if_pos hprint]
  unfold cpuInstructionToString
  simp only [bind_apply, get_apply, Option.bind_some, hpr, hargs]
  rcases hword text with hr | ⟨hnt, t, hr⟩ <;> rw [hr]
  · exact .inl rfl
  · exact .inr ⟨hnt, rfl⟩

/-- What an operation that is printed with too much leaves differs from what it leaves when it is not. -/
lemma handler_overreads (hop : ops (byteOf word 0) = some op) (hp : e.state.panic = .ok)
    (hprint : e.debug.printOp = false) (h : Overreads op word e) : ∃ u, handler op word e = some ((), u) ∧
      ∀ v, handler op word (e.printing true) = some ((), v) → v.state.panic ≠ u.state.panic := by
  have hquiet : printInstruction word e = some ((), e) := by
    unfold printInstruction
    rw [bind_apply, get_apply, Option.bind_some]
    dsimp only
    rw [hprint]
    rfl
  have hover : Overreads op word (e.printing true) := h
  have hloud := @printInstruction_overreads _ op word (e.printing true) hop hp rfl hover
  rcases h with ⟨hnt, _⟩ | ⟨rfl, hreg, _⟩
  · obtain ⟨z, target, hh, hz⟩ := hnt.jump word
    -- A jump that is not taken changes `pc` only, so the panic of the printing stays.
    have hskip {s : CPU} {x : CPU} (hr : printInstruction word s = some ((), x)) (hx : x.flags.zero = e.flags.zero) :
        jumpIf z target word s = some ((), x.skip) := by
      unfold jumpIf
      rw [bind_apply, hr, Option.bind_some, bind_apply, get_apply, Option.bind_some]
      dsimp only
      rw [if_neg (hx ▸ hz)]
      rfl
    rw [hh]
    refine ⟨e.skip, hskip hquiet rfl, fun v hv => ?_⟩
    rcases hloud with hn | ⟨_, hr⟩
    · unfold jumpIf at hv
      rw [bind_apply, hn] at hv
      cases hv
    · rw [hskip hr rfl] at hv
      cases hv
      show CpuError.cannotReadMemory ≠ e.state.panic
      rw [hp]
      decide
  · refine ⟨e.fault.setPanic .invalidRegister, ?_, fun v hv => ?_⟩
    · show (printInstruction word e).bind _ = _
      rw [hquiet]
      show (registerGet (byteOf word 1) e).bind _ = _
      rw [registerGet_none hreg]
      rfl
    · rcases hloud with hn | ⟨hnt, _⟩
      · have hv' : (printInstruction word (e.printing true)).bind _ = some ((), v) := hv
        rw [hn] at hv'
        cases hv'
      · exact False.elim hnt

/-- What is seen differs after a turn that prints too much. -/
lemma turn_overread (h : s.Overread) (hprint : s.debug.printOp = false) :
    (turnLogged (s.printing true)).map (fun r => r.2.seen) ≠ (turnLogged s).map fun r => r.2.seen := by
  obtain ⟨hgo, log, op, word, e, e', ha, ht, hp, ho⟩ := h
  have hgo' : (s.printing true).goesOn := hgo
  have hoff : s.printing false = s := by
    unfold CPU.printing
    rw [← hprint]
  have harrive (b : Bool) : arrive (s.printing b) = some ((log, some (op, word)), e.printing b) := by
    have hc := @arrive_commutes _ (tracing b) s
    rw [ha] at hc
    exact hc
  have he : e.printing false = e := by
    have hc := harrive false
    rw [hoff, ha] at hc
    exact (congrArg Prod.snd (Option.some.inj hc)).symm
  have htrap (b : Bool) : trap word (e.printing b) = some ((), e'.printing b) := by
    have hc := @trap_tracing _ word b e
    rw [ht] at hc
    exact hc
  have hprint' : e'.debug.printOp = false := by
    have hc := htrap false
    rw [he, ht] at hc
    exact congrArg (fun x : Unit × CPU => x.2.debug.printOp) (Option.some.inj hc)
  obtain ⟨u, hu, hne⟩ := handler_overreads (arrive_inv ha).1 hp hprint' ho
  rw [turnLogged_eq hgo, turnLogged_eq hgo', ha, harrive true]
  show ((operate op word (e.printing true)).map _).map _ ≠ ((operate op word e).map _).map _
  have hoperate : operate op word e = some ((), u.stepped) := by
    rw [operate, bind_apply, ht]
    show (handler op word e').bind _ = _
    rw [hu]
    rfl
  have hoperate' : operate op word (e.printing true) =
      (handler op word (e'.printing true)).map fun r => ((), r.2.stepped) := by
    rw [operate, bind_apply, htrap true]
    show (handler op word (e'.printing true)).bind _ = _
    cases handler op word (e'.printing true) <;> rfl
  rw [hoperate, hoperate']
  cases hv : handler op word (e'.printing true) with
  | none => exact fun h => nomatch h
  | some r =>
    intro h
    exact hne r.2 hv (congrArg Seen.panic (Option.some.inj h))

/-! ### Runs -/

/-- An event of a run without tracing, and the same with tracing. -/
lemma happen_untoggled {event : Event} (hprint : s.debug.printOp = false) (h : event = .turn → ¬ s.Overread)
    (hr : happen event s = some (log, s')) (hlog : ¬ Toggled log) :
    s'.debug.printOp = false ∧ happen event (s.printing true) = some (log, s'.printing true) := by
  have hfollow (b : Bool) : happen event (s.printing b) = some (log, s'.printing b) := by
    rw [happen_tracing h, hr]
    show some (log, s'.follows b log) = _
    rw [CPU.follows, if_neg hlog]
  have hoff : s.printing false = s := by
    unfold CPU.printing
    rw [← hprint]
  have hsame := hfollow false
  rw [hoff, hr] at hsame
  exact ⟨congrArg (fun x : List Label × CPU => x.2.debug.printOp) (Option.some.inj hsame), hfollow true⟩

/-- A run, one event after the other. -/
lemma happenAll_run {event : Event} {events : List Event} (h : happen event s = some (log, s')) :
    (happenAll (event :: events) s).map (fun r => r.2.seen) = (happenAll events s').map fun r => r.2.seen := by
  show ((happen event s).bind _).map _ = _
  rw [h]
  show ((happenAll events s').bind _).map _ = _
  cases happenAll events s' <;> rfl

/-- A run in which no turn prints too much before tracing is changed is seen the same with tracing. -/
lemma happenAll_tracing (events : List Event) (hprint : s.debug.printOp = false)
    (h : ∀ events log s', happenAll events s = some (log, s') → ¬ Toggled log → ¬ s'.Overread) :
    (happenAll events (s.printing true)).map (fun r => r.2.seen) = (happenAll events s).map fun r => r.2.seen := by
  induction events generalizing s with
  | nil => rfl
  | cons event events ih =>
    have hfirst : event = .turn → ¬ s.Overread := fun _ => h [] [] s rfl (by decide)
    cases hr : happen event s with
    | none =>
      have hr' : happen event (s.printing true) = none := by
        rw [happen_tracing hfirst, hr]
        rfl
      show ((happen event (s.printing true)).bind _).map _ = ((happen event s).bind _).map _
      rw [hr, hr']
    | some r =>
      obtain ⟨log, s1⟩ := r
      rw [happenAll_run hr]
      by_cases hlog : Toggled log
      · -- Both runs have the same state from here on.
        have hr' : happen event (s.printing true) = some (log, s1) := by
          rw [happen_tracing hfirst, hr]
          show some (log, s1.follows true log) = _
          rw [CPU.follows, if_pos hlog]
        rw [happenAll_run hr']
      · obtain ⟨hprint1, hr'⟩ := happen_untoggled hprint hfirst hr hlog
        rw [happenAll_run hr']
        apply ih hprint1
        intro events' log' s' hrun hlog'
        apply h (event :: events') (log ++ log') s'
        · show (happen event s).bind _ = _
          rw [hr]
          show (happenAll events' s1).bind _ = _
          rw [hrun]
          rfl
        · intro ht
          rcases ht with ht | ht <;> rcases List.mem_append.mp ht with ht | ht
          · exact hlog (.inl ht)
          · exact hlog' (.inl ht)
          · exact hlog (.inr ht)
          · exact hlog' (.inr ht)

/-- A CPU that is seen the same with tracing for a turn does not print too much in it. -/
lemma not_overread_turn (hprint : s.debug.printOp = false)
    (h : (happenAll [.turn] (s.printing true)).map (fun r => r.2.seen) =
      (happenAll [.turn] s).map fun r => r.2.seen) : ¬ s.Overread := by
  intro ho
  have hturn (s : CPU) : (happenAll [.turn] s).map (fun r => r.2.seen) = (turnLogged s).map fun r => r.2.seen := by
    show ((turnLogged s).bind _).map _ = _
    cases turnLogged s <;> rfl
  rw [hturn, hturn] at h
  exact turn_overread ho hprint h

/-- A run that is seen the same with tracing prints too much nowhere. -/
lemma not_overread {events : List Event} (hprint : s.debug.printOp = false)
    (h : ∀ events, (happenAll events (s.printing true)).map (fun r => r.2.seen) =
      (happenAll events s).map fun r => r.2.seen)
    (hr : happenAll events s = some (log, s')) (hlog : ¬ Toggled log) : ¬ s'.Overread := by
  have hfirst := not_overread_turn hprint (h [.turn])
  induction events generalizing s log with
  | nil =>
    cases hr
    exact hfirst
  | cons event events ih =>
    obtain ⟨log1, s1, log2, h1, h2, rfl⟩ := happenAll_cons hr
    have hlog1 : ¬ Toggled log1 := fun ht => hlog (ht.imp (List.mem_append_left _) (List.mem_append_left _))
    have hlog2 : ¬ Toggled log2 := fun ht => hlog (ht.imp (List.mem_append_right _) (List.mem_append_right _))
    obtain ⟨hprint1, h1'⟩ := happen_untoggled hprint (fun _ => hfirst) h1 hlog1
    have hrest (events : List Event) : (happenAll events (s1.printing true)).map (fun r => r.2.seen) =
        (happenAll events s1).map fun r => r.2.seen := by
      rw [← happenAll_run h1', ← happenAll_run h1]
      exact h (event :: events)
    exact ih hprint1 hrest h2 hlog2 (not_overread_turn hprint1 (hrest [.turn]))

/-- Tracing makes no difference exactly when, as long as no `XPSE` or `XPSD` has been executed, no turn gets to
an operation whose printing reads too much. -/
theorem tracing_iff (s : CPU) : SameTraced s ↔
    ∀ events log s', happenAll events (s.printing false) = some (log, s') → ¬ Toggled log → ¬ s'.Overread := by
  constructor
  · intro h events log s' hr hlog
    exact @not_overread _ (s.printing false) s' log events rfl h hr hlog
  · intro h events
    exact @happenAll_tracing _ (s.printing false) events rfl h

end

/-! ### An example -/

/-- A machine that runs a jump that is not taken, at the end of its memory. -/
def lastJump : CPU :=
  { smallCpu fun _ => { smallHeap 0 with raw := fun _ => Op.bytecode .jeqA ++ (0 : Byte) ++ (0 : Byte) ++ (0 : Byte) }
    with pc := 12 }

/-- With tracing it misses its operand. -/
theorem not_sameTraced_jump : ¬ @SameTraced ⟨.little⟩ lastJump := by
  intro h
  have hsame := congrArg (Option.map Seen.panic) (@h [.turn])
  rw [Option.map_map, Option.map_map] at hsame
  exact absurd hsame (by decide +kernel)

end Thorium.Vm
