import Thorium.Vm.Destroy

/-!
# The end of `vm_start`

With `--video slave` the end of the CPU closes the window. The CPU thread may end before `video_loop` has opened it, or
at any point of its loop; `video_stop` leaves `enabled` off, and the loop looks at it. So no request to stop is lost:
once `cpu_thread_run` has ended, `vm_start` ends after some steps (`start_ends`), and without a window anyway.
-/

namespace Thorium.Vm.Process

variable {s s' : Process} {ok : Bool} {m : Act}

/-- What holds when the CPU thread does not wait for the window: nothing opens the window once it has ended. -/
structure Slave (s : Process) : Prop where
  mode : s.mode ≠ .master
  created : s.cpuRun ≠ .absent → s.main ≠ .cpuCreate
  cpuStop : s.main ≠ .cpuStop
  windowed : s.main.Windowed → s.window.isSome
  disabled : s.mode = .none ∨ s.cpuRun = .close ∨ s.cpuRun = .finished → s.enabled = false

/-- The steps of the main thread, at most, to the end of `vm_start`, when `enabled` is off. -/
def startLeft (closed : Bool) : MainAt → Nat
  | .cpuCreate => 20
  | .keyboardRun => 19
  | .keyboardCreate => 18
  | .pitRun => 17
  | .pitCreate => 16
  | .enabledOpen => 15
  | .open => 14
  | .windowTest => 13
  | .videoCreate => 12
  | .update => 11
  | .enabledTest => 10
  | .stopEnabled => 9
  | .stopClose => 8
  | .vsyncSet => if closed then 7 else 14
  | .vsyncSignal => if closed then 6 else 13
  | .sync => if closed then 5 else 12
  | .lost => 4
  | .clear => 3
  | .modeTest => 2
  | .cpuJoin => 1
  | _ => 0

/-- `mfb_close` has been called with the window. -/
def closed (s : Process) : Bool := s.window = some true

/-- MiniFB, as its documentation has it: a window with which `mfb_close` has been called is neither updated nor waited
for. -/
def Closes (s : Process) (m : Act) : Prop :=
  ∀ ok, m = .main ok → s.window = some true → s.main = .update ∨ s.main = .sync → ok = false

/-- At the start the CPU has not ended. -/
lemma slave_create {mode : VideoMode} (cpu : CPU) (hmode : mode ≠ .master) : (create mode cpu).Slave := by
  have hwindowed : ¬ MainAt.Windowed .cpuCreate := by decide
  refine ⟨hmode, fun h => absurd rfl h, (by intro h; cases h), fun h => absurd h hwindowed, ?_⟩
  rintro (h | h | h)
  · have hn : mode = .none := h
    subst hn
    rfl
  · cases h
  · cases h

section
variable [Host] {ms : List Act} {t : Process}

/-- `cpu_stop` is called in the mode `master` only. -/
lemma mainStep_cpuStop (h : s.mainStep ok = some s') (hstop : s'.main = .cpuStop) : s.mode = .master := by
  unfold mainStep at h
  cases hm : s.main <;> rw [hm] at h
  case vsyncSet | vsyncSignal | cpuStop =>
    obtain ⟨_, _, rfl⟩ := Option.map_eq_some_iff.mp h
    cases hstop
  case cpuJoin | pitJoin | keyboardJoin | videoJoin =>
    obtain ⟨_, h⟩ := Option.ite_none_right_eq_some.mp h
    cases h
    cases hstop
  case modeTest =>
    cases h
    dsimp only [goto] at hstop
    split at hstop
    next hmode => exact hmode
    next => cases hstop
  case enabledOpen | windowTest | update | enabledTest | sync =>
    cases h
    dsimp only [goto] at hstop
    split at hstop <;> cases hstop
  case returned => cases h
  all_goals
    cases h
    cases hstop

/-- A CPU that ends stops the video. -/
lemma cpuStep_slave (h : s.cpuStep = some s') (hs : s.Slave) : s'.Slave := by
  have hwindowed : s'.main.Windowed → s'.window.isSome := by
    have hstep := cpuStep_inv h
    rw [hstep.main, hstep.isSome_window]
    exact hs.windowed
  unfold cpuStep at h
  cases hc : s.cpuRun <;> rw [hc] at h
  case absent | finished => cases h
  case disable =>
    cases h
    exact ⟨hs.mode, fun _ => hs.created (by simp [hc]), hs.cpuStop, hwindowed, fun _ => rfl⟩
  case close =>
    cases h
    exact ⟨hs.mode, fun _ => hs.created (by simp [hc]), hs.cpuStop, hwindowed, fun _ => hs.disabled (by simp [hc])⟩
  case loop =>
    dsimp only at h
    split at h
    · cases h
      refine ⟨hs.mode, fun _ => hs.created (by simp [hc]), hs.cpuStop, hwindowed, fun hd => ?_⟩
      -- A slave goes to `video_stop` first, which turns `enabled` off.
      cases hmode : s.mode with
      | none => exact hs.disabled (.inl hmode)
      | master => exact absurd hmode hs.mode
      | slave =>
        simp only [hmode] at hd
        rcases hd with hd | hd | hd <;> cases hd
    · obtain ⟨t, _, rfl⟩ := Option.map_eq_some_iff.mp h
      exact ⟨hs.mode, fun _ => hs.created (by simp [hc]), hs.cpuStop, hwindowed, fun hd => hs.disabled hd⟩

/-- Each move keeps what is known of the end of the CPU. -/
lemma next_slave (h : next m s = some s') (hs : s.Slave) : s'.Slave := by
  rcases next_cases h with ⟨ok, rfl, hm⟩ | ⟨_, hstep⟩
  · have hstep := mainStep_inv hm
    refine ⟨hstep.mode ▸ hs.mode, fun _ he => ?_, fun hstop => hs.mode (mainStep_cpuStop hm hstop), fun hw => ?_,
      fun hd => ?_⟩
    · have hfollows := hstep.order
      rw [he] at hfollows
      rcases hfollows with h1 | ⟨_, _, h1, _⟩
      · cases h1
      · exact absurd h1 (by decide)
    · rcases hstep.windowed with ⟨h1, h2⟩ | h1 | h1
      · exact h2.trans (hs.windowed h1)
      · exact absurd hw h1
      · exact h1
    · rcases hstep.enabled with h1 | h1
      · rw [h1]
        rw [hstep.mode] at hd
        rcases hstep.cpuRun with h2 | ⟨_, h2⟩
        · exact hs.disabled (h2 ▸ hd)
        · rw [h2] at hd
          rcases hd with hd | hd | hd
          · exact hs.disabled (.inl hd)
          · cases hd
          · cases hd
      · exact h1
  · by_cases hcpu : m = .cpu
    · subst hcpu
      exact cpuStep_slave h hs
    · have hrun : s'.cpuRun = s.cpuRun := hstep.cpuRun.resolve_right fun h => hcpu h.1
      refine ⟨hstep.mode ▸ hs.mode, hstep.main ▸ hrun ▸ hs.created, hstep.main ▸ hs.cpuStop, fun hw => ?_,
        fun hd => ?_⟩
      · rw [hstep.main] at hw
        exact hstep.isSome_window.trans (hs.windowed hw)
      · rw [hstep.mode, hrun] at hd
        rcases hstep.enabled with h1 | h1
        · exact h1.trans (hs.disabled hd)
        · exact h1

/-- A step of the main thread leaves it fewer steps in `vm_start`. -/
lemma mainStep_startLeft (h : s.mainStep ok = some s') (hs : s.Slave) (hcpu : s.cpuRun = .finished)
    (hc : Closes s (.main ok)) (hp : ¬ MainAt.cpuJoin.Before s.main) :
    startLeft s'.closed s'.main < startLeft s.closed s.main := by
  have henabled := hs.disabled (.inr (.inr hcpu))
  have hwindowed := hs.windowed
  unfold mainStep at h
  cases hm : s.main <;> rw [hm] at h hp hwindowed
  case cpuStop => exact absurd hm hs.cpuStop
  case vsyncSet | vsyncSignal =>
    obtain ⟨_, ho, rfl⟩ := Option.map_eq_some_iff.mp h
    obtain ⟨_, _, rfl⟩ := occur_inv ho
    cases hclosed : s.closed <;> simp_all [goto, startLeft, closed]
  case cpuJoin =>
    obtain ⟨_, h⟩ := Option.ite_none_right_eq_some.mp h
    cases h
    simp [goto, startLeft]
  case enabledOpen | enabledTest =>
    cases h
    simp [goto, startLeft, henabled]
  case update =>
    cases h
    cases ok <;> simp [goto, startLeft]
  case sync =>
    obtain ⟨b, hb⟩ := Option.isSome_iff_exists.mp (hwindowed (by decide))
    have hok := hc ok rfl
    cases h
    cases b
    · cases ok <;> simp [goto, startLeft, closed, hb]
    -- MiniFB does not wait for a window that has been closed.
    · rw [hok hb (.inr hm)]
      simp [goto, startLeft, closed, hb]
  case windowTest =>
    cases h
    cases hw : s.window <;> simp [goto, startLeft]
  case stopClose =>
    obtain ⟨b, hb⟩ := Option.isSome_iff_exists.mp (hwindowed (by decide))
    cases h
    simp [goto, close, startLeft, closed, hb]
  case modeTest =>
    cases h
    simp [goto, startLeft, hs.mode]
  case cpuCreate | keyboardRun | keyboardCreate | pitRun | pitCreate | «open» | videoCreate | lost | stopEnabled |
      clear =>
    cases h
    simp [goto, startLeft]
  all_goals exact absurd (by decide) hp

/-- The main thread is not blocked in `vm_start`. -/
lemma mainStep_isSome (hs : s.Slave) (ho : s.Owing) (hcpu : s.cpuRun = .finished)
    (hp : ¬ MainAt.cpuJoin.Before s.main) (ok : Bool) : (s.mainStep ok).isSome := by
  unfold mainStep
  cases hm : s.main <;> rw [hm] at hp
  case vsyncSet => rfl
  case vsyncSignal => simp [occur, Threads.occur, Threads.next, ho.vsync hm]
  case cpuStop => exact absurd hm hs.cpuStop
  case cpuJoin => simp [hcpu]
  all_goals first | rfl | exact absurd (by decide) hp

/-- What a move leaves of the steps of the main thread. -/
lemma next_startLeft (h : next m s = some s') (hs : s.Slave) (hcpu : s.cpuRun = .finished) (hc : Closes s m)
    (hp : ¬ MainAt.cpuJoin.Before s.main) :
    s'.cpuRun = .finished ∧ startLeft s'.closed s'.main + m.isMain.toNat ≤ startLeft s.closed s.main := by
  rcases next_cases h with ⟨ok, rfl, hm⟩ | ⟨hmain, hstep⟩
  · constructor
    · rcases (mainStep_inv hm).cpuRun with h1 | ⟨h1, _⟩
      · exact h1.trans hcpu
      · exact absurd h1 (hs.created (by simp [hcpu]))
    · exact mainStep_startLeft hm hs hcpu hc hp
  · constructor
    · exact (hstep.cpuRun.resolve_right fun h1 => h1.2 hcpu).trans hcpu
    · have hle : startLeft true s.main ≤ startLeft false s.main := by cases s.main <;> decide
      rw [hmain, hstep.main]
      rcases hstep.window with h1 | h1
      · unfold closed
        rw [h1]
        exact Nat.le_refl _
      · unfold closed
        rw [h1]
        cases hw : s.window with
        | none => exact Nat.le_refl _
        | some b =>
          cases b
          · simpa using hle
          · exact Nat.le_refl _

/-- The steps that are left bound those of the main thread. -/
lemma steps_startLeft (hs : s.Slave) (hcpu : s.cpuRun = .finished) (hc : Meets next Closes s ms)
    (hr : steps next ms s = some t) (hp : ¬ MainAt.cpuJoin.Before t.main) :
    ms.countP Act.isMain + startLeft t.closed t.main ≤ startLeft s.closed s.main ∧ t.Slave ∧ t.cpuRun = .finished := by
  induction ms generalizing s with
  | nil =>
    cases hr
    exact ⟨(Nat.zero_add _).le, hs, hcpu⟩
  | cons m ms ih =>
    obtain ⟨s1, hm, hr⟩ := steps_cons.mp hr
    have hp0 : ¬ MainAt.cpuJoin.Before s.main := by
      intro hb
      exact hp (steps_invariant hr (P := fun s => MainAt.cpuJoin.Before s.main) (next_stay hm (by decide) hb)
        fun _ _ _ hb hm => next_stay hm (by decide) hb)
    obtain ⟨hcpu1, hle⟩ := next_startLeft hm hs hcpu hc.head hp0
    obtain ⟨hle', ht⟩ := ih (next_slave hm hs) hcpu1 (hc.tail hm) hr
    refine ⟨?_, ht⟩
    rw [List.countP_cons]
    cases hmain : m.isMain with
    | true =>
      rw [hmain, Bool.toNat_true] at hle
      rw [if_pos rfl]
      omega
    | false =>
      rw [hmain, Bool.toNat_false] at hle
      rw [if_neg (by decide)]
      omega

/-- **The end of `vm_start`**: when the window does not stop the CPU and `cpu_thread_run` has ended, the main thread is
never blocked in `vm_start`, whatever the other threads and the user do, and makes at most 20 steps in it. -/
theorem start_ends {mode : VideoMode} {cpu : CPU} {ms' : List Act} (h : steps next ms (create mode cpu) = some s)
    (hmode : mode ≠ .master) (hcpu : s.cpuRun = .finished) (hc : Meets next Closes s ms')
    (hr : steps next ms' s = some t) (hp : ¬ MainAt.cpuJoin.Before t.main) :
    ms'.countP Act.isMain ≤ 20 ∧ ∀ ok, (t.mainStep ok).isSome := by
  have hs : s.Slave := steps_invariant h (slave_create cpu hmode) fun _ _ _ hs hm => next_slave hm hs
  have ht : t.Sound := sound_of_steps (steps_append.mpr ⟨s, h, hr⟩)
  obtain ⟨hle, hslave, hfinished⟩ := steps_startLeft hs hcpu hc hr hp
  have hbound : startLeft s.closed s.main ≤ 20 := by
    cases s.main <;> cases s.closed <;> decide
  exact ⟨by omega, mainStep_isSome hslave ht.owing hfinished hp⟩

end

/-- The CPU thread ends before `video_loop` opens the window. -/
def raceMoves : List Act := List.replicate 6 (.main true) ++ List.replicate 9 .cpu

/-- The loop closes the window that is opened too late. -/
theorem start_ends_late : ∃ s t, @steps _ _ (@next ⟨.little⟩) raceMoves (create .slave endingCpu) = some s ∧
    @steps _ _ (@next ⟨.little⟩) [.main true, .main true] s = some t ∧ t.window = some false ∧
      ∀ ok, (@mainStep ⟨.little⟩ ok t).isSome := by
  have heval : ((@steps _ _ (@next ⟨.little⟩) raceMoves (create .slave endingCpu)).bind fun s =>
      (@next ⟨.little⟩ (.main true) s).bind fun s1 => (@next ⟨.little⟩ (.main true) s1).map fun t =>
        (s.main, s.cpuRun, s1.main, t.main, t.window)) =
      some (.open, .finished, .windowTest, .videoCreate, some false) := by decide +kernel
  obtain ⟨s, hs, heval⟩ := Option.bind_eq_some_iff.mp heval
  obtain ⟨s1, h1, heval⟩ := Option.bind_eq_some_iff.mp heval
  obtain ⟨t, ht, heval⟩ := Option.map_eq_some_iff.mp heval
  simp only [Prod.mk.injEq] at heval
  obtain ⟨hopen, hcpu, htest, hcreate, hwindow⟩ := heval
  have hr : @steps _ _ (@next ⟨.little⟩) [.main true, .main true] s = some t :=
    steps_cons.mpr ⟨s1, h1, steps_one.trans ht⟩
  have hclose {s : Process} (h : s.main = .open ∨ s.main = .windowTest) : Closes s (.main true) := by
    rintro ok _ _ (hm | hm) <;> rw [hm] at h <;> rcases h with h | h <;> cases h
  have hc : Meets (@next ⟨.little⟩) Closes s [.main true, .main true] :=
    Meets.cons (hclose (.inl hopen)) h1 (Meets.cons (hclose (.inr htest)) ht Meets.nil)
  have hp : ¬ MainAt.cpuJoin.Before t.main := by
    rw [hcreate]
    decide
  have hends := @start_ends _ ⟨.little⟩ _ _ .slave endingCpu _ hs (by decide) hcpu hc hr hp
  exact ⟨s, t, hs, hr, hwindow, hends.2⟩

end Thorium.Vm.Process
