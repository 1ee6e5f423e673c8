import Thorium.Vm.Shutdown

/-!
# The end of `vm_destroy`

`vm_destroy` joins the timer and the threads of the devices. The timer ends when it is told to. A thread of a device
waits for a signal, and gets one; but the flag of its loop is cleared without its lock, so it may have looked at it
before and not wait yet when the signal comes, and then waits for ever. Every run of `vm_destroy` ends
(`destroy_ends`), and it passes the join of a thread that has been created exactly when this does not happen
(`joins_iff`). Without a window the thread of the video is never created, and `vm_destroy` comes to a join whose
behaviour is undefined.
-/

namespace Thorium.Vm.Process

variable {s s' : Process} {ok : Bool} {m : Act} {d : Device}

/-! ### What the threads are told -/

/-- The threads have been created, and `vm_destroy` has told them to end. -/
structure Told (s : Process) : Prop where
  timer : MainAt.pitCreate.Before s.main → s.timer ≠ .absent
  keyboard : MainAt.keyboardCreate.Before s.main → s.waiter .keyboard ≠ .absent
  pitRunning : MainAt.pitStop.Before s.main → s.pitRunning = false
  keyboardRunning : MainAt.keyboardStop.Before s.main → s.keyboardRunning = false
  window : MainAt.clear.Before s.main → s.window = none

/-- At the start there is nothing to be told. -/
lemma told_create (mode : VideoMode) (cpu : CPU) : (create mode cpu).Told := by
  have hstart (p : MainAt) : ¬ p.Before .cpuCreate := Nat.not_lt_zero _
  exact ⟨fun h => absurd h (hstart _), fun h => absurd h (hstart _), fun _ => rfl, fun _ => rfl, fun _ => rfl⟩

/-- A step of the main thread tells the threads in order. -/
lemma MainStep.told (h : MainStep s s') (hs : s.Told) : s'.Told := by
  constructor
  · intro hp
    rcases h.timer with ⟨hne, h1⟩ | ⟨_, h1⟩
    · rw [h1]
      exact hs.timer ((h.order.pass (by decide) hp).resolve_right hne)
    · rw [h1]
      decide
  · intro hp
    rcases h.waiter .keyboard with ⟨hne, _, h1⟩ | ⟨_, h1⟩ | ⟨he, h1⟩
    · rw [h1]
      exact hs.keyboard ((h.order.pass (by decide) hp).resolve_right hne)
    · rw [h1]
      decide
    · rw [h1, Ne, Waiter.signalled_eq_absent]
      exact hs.keyboard (by rw [he]; decide)
  · intro hp
    rcases h.pitRunning with ⟨hne, h1⟩ | he | h1
    · exact h1.trans (hs.pitRunning ((h.order.pass (by decide) hp).resolve_right hne))
    · rcases h.order.pass (by decide) hp with hb | hb <;> rw [he] at hb <;> exact absurd hb (by decide)
    · exact h1
  · intro hp
    rcases h.keyboardRunning with ⟨hne, h1⟩ | he | h1
    · exact h1.trans (hs.keyboardRunning ((h.order.pass (by decide) hp).resolve_right hne))
    · rcases h.order.pass (by decide) hp with hb | hb <;> rw [he] at hb <;> exact absurd hb (by decide)
    · exact h1
  · intro hp
    rcases h.window with ⟨hb, h1⟩ | hn | h1
    · exact h1 (hs.window hb)
    · exact absurd hp hn
    · exact h1

/-- A step of another thread takes nothing back. -/
lemma OtherStep.told (h : OtherStep m s s') (hs : s.Told) : s'.Told := by
  constructor
  · intro hp
    rw [h.main] at hp
    rcases h.timer with h1 | ⟨_, h1⟩
    · exact h1 ▸ hs.timer hp
    · exact h1
  · intro hp
    rw [h.main] at hp
    have hne := hs.keyboard hp
    rcases h.waiter .keyboard with h1 | ⟨_, h1⟩ | ⟨h1, _⟩
    · rwa [h1]
    · exact Waiter.step_ne_absent h1
    · rwa [h1, Ne, Waiter.signalled_eq_absent]
  · intro hp
    rw [h.main] at hp
    exact h.pitRunning.trans (hs.pitRunning hp)
  · intro hp
    rw [h.main] at hp
    exact h.keyboardRunning.trans (hs.keyboardRunning hp)
  · intro hp
    rw [h.main] at hp
    rcases h.window with h1 | h1
    · exact h1.trans (hs.window hp)
    · rw [h1, hs.window hp]
      rfl

/-! ### Signals that are owed -/

/-- Before the second part of a trigger its signal is owed. -/
structure Owing (s : Process) : Prop where
  timer : s.timer = .signal → s.threads.owed intTimer ≠ 0
  vsync : s.main = .vsyncSignal → s.threads.owed intVsync ≠ 0

/-- At the start no signal is owed. -/
lemma owing_create (mode : VideoMode) (cpu : CPU) : (create mode cpu).Owing := by
  constructor
  · rintro ⟨⟩
  · rintro ⟨⟩

/-- What is owed stays owed. -/
lemma owed_ne {n n' : Nat} (h : n ≠ 0) (hle : n ≤ n') : n' ≠ 0 :=
  Nat.ne_of_gt (Nat.lt_of_lt_of_le (Nat.pos_of_ne_zero h) hle)

/-- What keeps the places and owes no less is owing still. -/
lemma Owing.mono (hs : s.Owing) (ht : s'.timer = .signal → s.timer = .signal)
    (hm : s'.main = .vsyncSignal → s.main = .vsyncSignal)
    (hle : ∀ i ∈ [intTimer, intVsync], s.threads.owed i ≤ s'.threads.owed i) : s'.Owing := by
  constructor
  · intro h
    exact owed_ne (hs.timer (ht h)) (hle intTimer (by simp))
  · intro h
    exact owed_ne (hs.vsync (hm h)) (hle intVsync (by simp))

section
variable [Host]

/-- The first part of a trigger owes the second. -/
lemma occur_set {i : Interrupt} (h : s.occur (.move (.set i)) = some s') : s'.threads.owed i ≠ 0 := by
  obtain ⟨t, ht, rfl⟩ := occur_inv h
  cases ht
  simp

/-- The main thread owes the signal of the vertical sync. -/
lemma mainStep_owing (h : s.mainStep ok = some s') (hs : s.Owing) : s'.Owing := by
  unfold mainStep at h
  cases hm : s.main <;> rw [hm] at h
  case vsyncSet =>
    obtain ⟨s1, ho, rfl⟩ := Option.map_eq_some_iff.mp h
    have hset := occur_set ho
    have htimer := occur_owed ho (i := intTimer) (by decide)
    obtain ⟨t, _, rfl⟩ := occur_inv ho
    exact ⟨fun ht => owed_ne (hs.timer ht) htimer, fun _ => hset⟩
  case vsyncSignal =>
    obtain ⟨s1, ho, rfl⟩ := Option.map_eq_some_iff.mp h
    have htimer := occur_owed ho (i := intTimer) (by decide)
    obtain ⟨t, _, rfl⟩ := occur_inv ho
    exact ⟨fun ht => owed_ne (hs.timer ht) htimer, (by rintro ⟨⟩)⟩
  case cpuStop =>
    obtain ⟨s1, ho, rfl⟩ := Option.map_eq_some_iff.mp h
    have hle (i : Interrupt) := occur_owed ho (i := i) (by rintro ⟨⟩)
    obtain ⟨t, _, rfl⟩ := occur_inv ho
    exact hs.mono id (by rintro ⟨⟩) fun i _ => hle i
  case cpuJoin | pitJoin | keyboardJoin | videoJoin =>
    obtain ⟨_, h⟩ := Option.ite_none_right_eq_some.mp h
    cases h
    exact hs.mono id (by rintro ⟨⟩) fun _ _ => Nat.le_refl _
  case enabledOpen | windowTest | update | enabledTest | sync | modeTest =>
    cases h
    refine hs.mono id (fun h => ?_) fun _ _ => Nat.le_refl _
    dsimp only [goto] at h
    split at h <;> cases h
  case returned => cases h
  case pitCreate =>
    cases h
    exact hs.mono (by rintro ⟨⟩) (by rintro ⟨⟩) fun _ _ => Nat.le_refl _
  all_goals
    cases h
    exact hs.mono id (by rintro ⟨⟩) fun _ _ => Nat.le_refl _

/-- The timer owes its signal. -/
lemma timerStep_owing {due : Bool} (h : s.timerStep due = some s') (hs : s.Owing) : s'.Owing := by
  unfold timerStep at h
  cases hc : s.timer <;> rw [hc] at h
  case absent | ended => cases h
  case test | sleep =>
    cases h
    refine hs.mono (fun h => ?_) id fun _ _ => Nat.le_refl _
    dsimp only at h
    split at h <;> cases h
  case set =>
    obtain ⟨s1, ho, rfl⟩ := Option.map_eq_some_iff.mp h
    have hset := occur_set ho
    have hvsync := occur_owed ho (i := intVsync) (by decide)
    obtain ⟨t, _, rfl⟩ := occur_inv ho
    exact ⟨fun _ => hset, fun hm => owed_ne (hs.vsync hm) hvsync⟩
  case signal =>
    obtain ⟨s1, ho, rfl⟩ := Option.map_eq_some_iff.mp h
    have hvsync := occur_owed ho (i := intVsync) (by decide)
    obtain ⟨t, _, rfl⟩ := occur_inv ho
    exact ⟨(by rintro ⟨⟩), fun hm => owed_ne (hs.vsync hm) hvsync⟩

/-- Each move keeps what is owed. -/
lemma next_owing (h : next m s = some s') (hs : s.Owing) : s'.Owing := by
  cases m with
  | main ok => exact mainStep_owing h hs
  | cpu =>
    have h : s.cpuStep = some s' := h
    unfold cpuStep at h
    cases hc : s.cpuRun <;> rw [hc] at h
    case absent | finished => cases h
    case disable | close =>
      cases h
      exact hs.mono id id fun _ _ => Nat.le_refl _
    case loop =>
      dsimp only at h
      split at h
      · cases h
        exact hs.mono id id fun _ _ => Nat.le_refl _
      · obtain ⟨t, ht, rfl⟩ := Option.map_eq_some_iff.mp h
        exact hs.mono id id fun i _ => owed_le ht (by rintro ⟨⟩)
  | cpuWake =>
    obtain ⟨_, h⟩ := Option.ite_none_right_eq_some.mp h
    have hle (i : Interrupt) := occur_owed h (i := i) (by rintro ⟨⟩)
    obtain ⟨t, _, rfl⟩ := occur_inv h
    exact hs.mono id id fun i _ => hle i
  | device d =>
    obtain ⟨w, _, rfl⟩ := Option.map_eq_some_iff.mp h
    exact hs.mono id id fun _ _ => Nat.le_refl _
  | deviceWake d =>
    obtain ⟨_, h⟩ := Option.ite_none_right_eq_some.mp h
    cases h
    exact hs.mono id id fun _ _ => Nat.le_refl _
  | timer due => exact timerStep_owing h hs
  | key escape word =>
    obtain ⟨_, h⟩ := Option.ite_none_right_eq_some.mp h
    obtain ⟨s1, h1, h⟩ := Option.bind_eq_some_iff.mp h
    obtain ⟨s2, h2, h⟩ := Option.bind_eq_some_iff.mp h
    obtain ⟨s3, h3, rfl⟩ := Option.map_eq_some_iff.mp h
    -- The two parts of the trigger are for the keyboard.
    have hle : ∀ i ∈ [intTimer, intVsync], s1.threads.owed i ≤ s3.threads.owed i := by
      intro i hi
      have hne : i ≠ intKeyboard := by
        rintro rfl
        revert hi
        decide
      exact (occur_owed h2 (by rintro ⟨⟩)).trans (occur_owed h3 fun e => hne (Move.signal.inj e).symm)
    obtain ⟨_, hstore, rfl⟩ := occur_inv h1
    cases hstore
    obtain ⟨_, _, rfl⟩ := occur_inv h2
    obtain ⟨_, _, rfl⟩ := occur_inv h3
    split
    · exact hs.mono id id hle
    · exact hs.mono id id hle

end

/-! ### Termination -/

/-- The steps of a thread that waits, at most, before it waits or ends. -/
def waiterLeft : Waiter → Nat
  | .woken => 4
  | .test => 3
  | .lock => 2
  | .wait => 1
  | .absent | .waiting | .ended => 0

/-- The steps of the timer, at most, before it ends. -/
def timerLeft : Timer → Nat
  | .sleep => 4
  | .set => 3
  | .signal => 2
  | .test => 1
  | .absent | .ended => 0

/-- The steps of all threads. A step of the main thread may wake the threads of the devices. -/
def left (s : Process) : Nat :=
  9 * (MainAt.returned.ctorIdx - s.main.ctorIdx) + timerLeft s.timer + waiterLeft (s.waiter .keyboard) +
    waiterLeft (s.waiter .video)

/-- A step of a waiter leaves it fewer steps. -/
lemma waiterLeft_step {flag : Bool} {w w' : Waiter} (h : w.step flag = some w') : waiterLeft w' < waiterLeft w := by
  cases w <;> cases flag <;> cases h <;> decide

/-- A signal gives it four steps at most. -/
lemma waiterLeft_signalled (w : Waiter) : waiterLeft w.signalled ≤ waiterLeft w + 4 := by
  cases w <;> decide

section
variable [Host]

/-- A step of the main thread leaves fewer moves. -/
lemma mainStep_left (h : s.mainStep ok = some s') (hp : MainAt.pitStop.Before s.main) : s'.left < s.left := by
  have hstep := mainStep_inv h
  have hnext : s'.main.ctorIdx = s.main.ctorIdx + 1 := by
    rcases hstep.order with h | ⟨_, h, _⟩
    · exact h
    · exact absurd (Nat.lt_trans (m := s.main.ctorIdx) hp h) (by decide)
  have hle := MainAt.le_returned s'.main
  have htimer : s'.timer = s.timer := by
    rcases hstep.timer with ⟨_, h⟩ | ⟨h, _⟩
    · exact h
    · rw [h] at hp
      exact absurd hp (by decide)
  -- A signal makes a thread test its flag again.
  have hwaiter (d : Device) : waiterLeft (s'.waiter d) ≤ waiterLeft (s.waiter d) + 4 := by
    rcases hstep.waiter d with ⟨_, _, h⟩ | ⟨h, _⟩ | ⟨_, h⟩
    · rw [h]
      omega
    · rw [h] at hp
      exact absurd hp (by cases d <;> decide)
    · rw [h]
      exact waiterLeft_signalled _
  have hkeyboard := hwaiter .keyboard
  have hvideo := hwaiter .video
  unfold left
  rw [htimer]
  omega

/-- So does a step of the timer that has been told to end. -/
lemma timerStep_left {due : Bool} (h : s.timerStep due = some s') (hrunning : s.pitRunning = false) :
    s'.left < s.left := by
  unfold timerStep at h
  unfold left
  cases hc : s.timer <;> rw [hc] at h
  case absent | ended => cases h
  case test =>
    rw [hrunning] at h
    cases h
    simp [timerLeft]
  case sleep =>
    cases h
    cases due <;> simp [timerLeft]
  case set | signal =>
    obtain ⟨_, ho, rfl⟩ := Option.map_eq_some_iff.mp h
    obtain ⟨_, _, rfl⟩ := occur_inv ho
    simp [timerLeft]

/-- The moves of a `vm_destroy` that has told the timer to end. -/
lemma next_left (h : next m s = some s') (hj : s.Joined) (ht : s.Told) (hp : MainAt.pitStop.Before s.main)
    (hw : ∀ d, m ≠ .deviceWake d) : s'.left < s.left := by
  have hcpu : s.cpuRun = .finished := hj.cpu (Nat.lt_trans (m := MainAt.pitStop.ctorIdx) (by decide) hp)
  cases m with
  | main ok => exact mainStep_left h hp
  | cpu =>
    have h : s.cpuStep = some s' := h
    unfold cpuStep at h
    rw [hcpu] at h
    cases h
  | cpuWake =>
    obtain ⟨hloop, _⟩ := Option.ite_none_right_eq_some.mp h
    cases hloop.symm.trans hcpu
  | device d =>
    obtain ⟨w, hstep, rfl⟩ := Option.map_eq_some_iff.mp h
    have hlt := waiterLeft_step hstep
    unfold left
    cases d
    all_goals
      simp only [place, Function.update_self, ne_eq, reduceCtorEq, not_false_eq_true, Function.update_of_ne]
      omega
  | deviceWake d => exact absurd rfl (hw d)
  | timer due => exact timerStep_left h (ht.pitRunning hp)
  | key escape word =>
    -- MiniFB calls back in `video_loop` only.
    obtain ⟨hmain, _⟩ := Option.ite_none_right_eq_some.mp h
    rcases hmain with h | h <;> rw [h] at hp <;> exact absurd hp (by decide)

/-- The main thread is blocked by a join only. -/
lemma mainStep_none (h : s.mainStep ok = none) (hp : MainAt.pitStop.Before s.main) :
    s.main = .returned ∨ s.main = .pitJoin ∧ s.timer ≠ .ended ∨
      ∃ d : Device, s.main = d.joinAt ∧ s.waiter d ≠ .ended := by
  unfold mainStep at h
  cases hm : s.main <;> rw [hm] at h hp
  case returned => exact .inl rfl
  case pitJoin =>
    refine .inr (.inl ⟨rfl, fun he => ?_⟩)
    rw [he] at h
    cases h
  case keyboardJoin =>
    refine .inr (.inr ⟨.keyboard, rfl, fun he => ?_⟩)
    rw [he] at h
    cases h
  case videoJoin =>
    refine .inr (.inr ⟨.video, rfl, fun he => ?_⟩)
    rw [he] at h
    cases h
  all_goals first | exact absurd hp (by decide) | cases h

/-- The timer is never blocked. -/
lemma timerStep_none {due : Bool} (h : s.timerStep due = none) (ho : s.Owing) :
    s.timer = .absent ∨ s.timer = .ended := by
  unfold timerStep at h
  cases hc : s.timer <;> rw [hc] at h
  case absent => exact .inl rfl
  case ended => exact .inr rfl
  case test | sleep | set => cases h
  case signal =>
    have hsignal : Threads.next (.signal intTimer) s.threads = none :=
      Option.map_eq_none_iff.mp (Option.map_eq_none_iff.mp h)
    exact absurd hsignal (by simp [Threads.next, ho.timer hc])

/-! ### Runs -/

/-- What holds in every run. -/
structure Sound (s : Process) : Prop where
  joined : s.Joined
  told : s.Told
  owing : s.Owing

/-- Each move keeps what has been told. -/
lemma next_told (h : next m s = some s') (hs : s.Told) : s'.Told := by
  rcases next_cases h with ⟨ok, rfl, hm⟩ | ⟨_, hm⟩
  · exact (mainStep_inv hm).told hs
  · exact hm.told hs

/-- Each move keeps what holds in every run. -/
lemma next_sound (h : next m s = some s') (hs : s.Sound) : s'.Sound :=
  ⟨next_joined h hs.joined, next_told h hs.told, next_owing h hs.owing⟩

/-- It holds in every run. -/
lemma sound_of_steps {mode : VideoMode} {cpu : CPU} {ms : List Act} (h : steps next ms (create mode cpu) = some s) :
    s.Sound :=
  steps_invariant h ⟨joined_create mode cpu, told_create mode cpu, owing_create mode cpu⟩
    fun _ _ _ hs hm => next_sound hm hs

/-- A move that is no return from a wait without a signal. -/
def Quiet (_ : Process) (m : Act) : Prop := ∀ d, m ≠ .deviceWake d

/-- No other move can be made. -/
def Halted (s : Process) : Prop := ∀ m, s.Quiet m → next m s = none

variable {t : Process} {ms : List Act}

/-- Behind the end of `vm_start` control goes forward. -/
lemma next_stay {p : MainAt} (h : next m s = some s') (ho : p.Outer) (hp : p.Before s.main) : p.Before s'.main := by
  rcases next_cases h with ⟨ok, rfl, hm⟩ | ⟨_, hm⟩
  · exact (mainStep_inv hm).order.stay ho hp
  · rwa [hm.main]

/-- The moves that are left bound the run. -/
lemma steps_left (hs : s.Sound) (hp : MainAt.pitStop.Before s.main) (hq : Meets next Quiet s ms)
    (hr : steps next ms s = some t) : ms.length + t.left ≤ s.left := by
  induction ms generalizing s with
  | nil =>
    cases hr
    exact (Nat.zero_add _).le
  | cons m ms ih =>
    obtain ⟨s1, hm, hr⟩ := steps_cons.mp hr
    have hlt := next_left hm hs.joined hs.told hp hq.head
    have hle := ih (next_sound hm hs) (next_stay hm (by decide) hp) (hq.tail hm) hr
    rw [List.length_cons]
    omega

/-- There is a run that halts. -/
lemma exists_halted (hs : s.Sound) (hp : MainAt.pitStop.Before s.main) :
    ∃ ms t, Meets next Quiet s ms ∧ steps next ms s = some t ∧ t.Halted := by
  -- A state that has not halted has a move, which leaves less.
  induction hn : s.left using Nat.strongRecOn generalizing s with
  | ind n ih =>
    by_cases hh : s.Halted
    · exact ⟨[], s, Meets.nil, rfl, hh⟩
    · unfold Halted at hh
      push Not at hh
      obtain ⟨m, hq, hm⟩ := hh
      obtain ⟨s1, hm⟩ := Option.ne_none_iff_exists'.mp hm
      have hlt := next_left hm hs.joined hs.told hp hq
      obtain ⟨ms, t, hqs, hr, ht⟩ := ih s1.left (hn ▸ hlt) (next_sound hm hs) (next_stay hm (by decide) hp) rfl
      exact ⟨m :: ms, t, Meets.cons hq hm hqs, steps_cons.mpr ⟨s1, hm, hr⟩, ht⟩

/-- Where `vm_destroy` halts. -/
lemma Halted.main (h : s.Halted) (hs : s.Sound) (hp : MainAt.pitStop.Before s.main) : s.main = .returned ∨
    ∃ d : Device, s.main = d.joinAt ∧ (s.waiter d = .waiting ∨ s.waiter d = .absent) := by
  have hmain : s.mainStep true = none := h (.main true) fun _ e => by cases e
  rcases mainStep_none hmain hp with h1 | ⟨h1, h2⟩ | ⟨d, h1, h2⟩
  · exact .inl h1
  · have htimer : s.timerStep true = none := h (.timer true) fun _ e => by cases e
    rcases timerStep_none htimer hs.owing with h3 | h3
    · exact absurd h3 (hs.told.timer (by rw [h1]; decide))
    · exact absurd h3 h2
  · have hdevice : ((s.waiter d).step (s.flag d)).map (s.place d) = none := h (.device d) fun _ e => by cases e
    refine .inr ⟨d, h1, ?_⟩
    rw [Option.map_eq_none_iff] at hdevice
    revert hdevice h2
    cases s.waiter d <;> simp [Waiter.step]

/-- **The end of `vm_destroy`**: once the timer has been told to end, every run ends, unless a thread returns from its
wait without a signal: `vm_destroy` has returned, or the main thread joins a thread of a device that waits, or it has
come to the join of a thread that was never created. -/
theorem destroy_ends {mode : VideoMode} {cpu : CPU} {ms ms' : List Act} (h : steps next ms (create mode cpu) = some s)
    (hp : MainAt.pitStop.Before s.main) (hq : Meets next Quiet s ms') (hr : steps next ms' s = some t) :
    ms'.length ≤ 129 ∧ (t.Halted → t.main = .returned ∨ t.main = .keyboardJoin ∧ t.waiter .keyboard = .waiting ∨
      t.main = .videoJoin ∧ t.waiter .video = .waiting ∨ t.Undefined) := by
  have hs := sound_of_steps h
  have hle := steps_left hs hp hq hr
  obtain ⟨ht, hpt⟩ := hq.invariant hr (P := fun s => s.Sound ∧ MainAt.pitStop.Before s.main) ⟨hs, hp⟩
    fun _ _ _ hs _ hm => ⟨next_sound hm hs.1, next_stay hm (by decide) hs.2⟩
  constructor
  · have hwaiter (w : Waiter) : waiterLeft w ≤ 4 := by cases w <;> decide
    have htimer : timerLeft s.timer ≤ 4 := by cases s.timer <;> decide
    have hkeyboard := hwaiter (s.waiter .keyboard)
    have hvideo := hwaiter (s.waiter .video)
    have hreturned : MainAt.returned.ctorIdx = 41 := rfl
    have hstop : MainAt.pitStop.ctorIdx = 27 := rfl
    unfold MainAt.Before at hp
    unfold left at hle
    omega
  · intro hh
    rcases hh.main ht hpt with h1 | ⟨d, h1, h2⟩
    · exact .inl h1
    · cases d with
      | keyboard =>
        have hcreated := ht.told.keyboard (by rw [h1]; decide)
        exact .inr (.inl ⟨h1, h2.resolve_right hcreated⟩)
      | video =>
        rcases h2 with h2 | h2
        · exact .inr (.inr (.inl ⟨h1, h2⟩))
        · exact .inr (.inr (.inr ⟨h1, h2⟩))

end

/-- The life of a process with a window, up to `pit_stop`. -/
def lifeMoves : List Act :=
  List.replicate 6 (.main true) ++ List.replicate 9 .cpu ++ List.replicate 3 (.main true) ++
    List.replicate 3 (.device .video) ++ List.replicate 3 (.device .keyboard) ++ List.replicate 6 (.main true) ++
    .main false :: List.replicate 10 (.main true)

/-- Its end. -/
def endMoves : List Act :=
  [.timer true] ++ List.replicate 4 (.main true) ++ List.replicate 2 (.device .keyboard) ++
    List.replicate 5 (.main true) ++ List.replicate 2 (.device .video) ++ List.replicate 4 (.main true)

/-- The run, where the timer and the keyboard are to be joined and at its end. -/
lemma life_ends : ∃ s u t, @steps _ _ (@next ⟨.little⟩) lifeMoves (create .slave endingCpu) = some s ∧
    @steps _ _ (@next ⟨.little⟩) (endMoves.take 4) s = some u ∧
    @steps _ _ (@next ⟨.little⟩) (endMoves.drop 4) u = some t ∧
    s.main = .pitJoin ∧ u.main = .keyboardSignal ∧ u.waiter .keyboard = .waiting ∧ t.main = .returned := by
  have heval : ((@steps _ _ (@next ⟨.little⟩) lifeMoves (create .slave endingCpu)).bind fun s =>
      (@steps _ _ (@next ⟨.little⟩) (endMoves.take 4) s).bind fun u =>
        (@steps _ _ (@next ⟨.little⟩) (endMoves.drop 4) u).map fun t =>
          (s.main, u.main, u.waiter .keyboard, t.main)) = some (.pitJoin, .keyboardSignal, .waiting, .returned) := by
    decide +kernel
  obtain ⟨s, hs, heval⟩ := Option.bind_eq_some_iff.mp heval
  obtain ⟨u, hu, heval⟩ := Option.bind_eq_some_iff.mp heval
  obtain ⟨t, ht, heval⟩ := Option.map_eq_some_iff.mp heval
  simp only [Prod.mk.injEq] at heval
  exact ⟨s, u, t, hs, hu, ht, heval⟩

/-- It returns. -/
theorem destroy_ends_returned : ∃ s t, @steps _ _ (@next ⟨.little⟩) lifeMoves (create .slave endingCpu) = some s ∧
    @steps _ _ (@next ⟨.little⟩) endMoves s = some t ∧ t.main = .returned ∧ endMoves.length ≤ 129 := by
  obtain ⟨s, u, t, hs, hu, ht, hpit, _, _, hreturned⟩ := life_ends
  have hend : @steps _ _ (@next ⟨.little⟩) endMoves s = some t := by
    rw [← List.take_append_drop 4 endMoves]
    exact steps_append.mpr ⟨u, hu, ht⟩
  have hquiet : ∀ m ∈ endMoves, ∀ d, m ≠ .deviceWake d := by
    intro m hm d hd
    have hall : endMoves.all (fun m => !(m == .deviceWake .keyboard || m == .deviceWake .video)) = true := by decide
    have hne := List.all_eq_true.mp hall m hm
    subst hd
    cases d <;> cases hne
  have hends := @destroy_ends _ ⟨.little⟩ t .slave endingCpu lifeMoves endMoves hs (by rw [hpit]; decide)
    (Meets.of_forall fun m hm _ => hquiet m hm) hend
  exact ⟨s, t, hs, hend, hreturned, hends.1⟩

section
variable [Host] {t : Process} {ms : List Act}

/-! ### The joins -/

/-- The thread of a device that is stopped makes its steps and hears nothing. -/
lemma next_waiter (h : next m s = some s') (hs : s.Sound) (hp : d.signalAt.Before s.main) (hq : s.Quiet m) :
    s'.waiter d = s.waiter d ∨ (s.waiter d).step false = some (s'.waiter d) := by
  rcases next_cases h with ⟨ok, rfl, hm⟩ | ⟨_, hm⟩
  · rcases (mainStep_inv hm).waiter d with ⟨_, _, h1⟩ | ⟨h1, _⟩ | ⟨h1, _⟩
    · exact .inl h1
    · rw [h1] at hp
      exact absurd hp (by cases d <;> decide)
    · rw [h1] at hp
      exact absurd hp (Nat.lt_irrefl _)
  · rcases hm.waiter d with h1 | ⟨_, h1⟩ | ⟨_, h1 | h1⟩
    · exact .inl h1
    -- The flags are off, so the thread steps as one that is stopped.
    · have hflag : s.flag d = false := by
        cases d with
        | keyboard => exact hs.told.keyboardRunning (Nat.lt_trans (m := MainAt.keyboardSignal.ctorIdx) (by decide) hp)
        | video =>
          have hwindow := hs.told.window (Nat.lt_trans (m := MainAt.videoSignal.ctorIdx) (by decide) hp)
          simp [flag, hwindow]
      exact .inr (hflag ▸ h1)
    · exact absurd h1 (hq d)
    · have hcpu := hs.joined.cpu (Nat.lt_trans (m := d.signalAt.ctorIdx) (by cases d <;> decide) hp)
      rw [hcpu] at h1
      cases h1

/-- In every run it makes some of its last steps. -/
lemma steps_waiter (hs : s.Sound) (hp : d.signalAt.Before s.main) (hq : Meets next Quiet s ms)
    (hr : steps next ms s = some t) :
    (t.Sound ∧ d.signalAt.Before t.main) ∧ ∃ n, Waiter.stopping n (s.waiter d) = some (t.waiter d) := by
  refine hq.invariant hr (P := fun t => (t.Sound ∧ d.signalAt.Before t.main) ∧
    ∃ n, Waiter.stopping n (s.waiter d) = some (t.waiter d)) ⟨⟨hs, hp⟩, 0, rfl⟩ ?_
  rintro s1 m s2 ⟨⟨hs1, hp1⟩, n, hn⟩ hq1 hm1
  refine ⟨⟨next_sound hm1 hs1, next_stay hm1 (by cases d <;> decide) hp1⟩, ?_⟩
  rcases next_waiter hm1 hs1 hp1 hq1 with h1 | h1
  · exact ⟨n, h1 ▸ hn⟩
  · exact ⟨n + 1, Option.bind_eq_some_iff.mpr ⟨_, hn, h1⟩⟩

/-- The signal is sent before the join. -/
lemma mainStep_signal (h : s.mainStep ok = some s') (hs : s.main = d.signalAt) :
    s'.main = d.joinAt ∧ s'.waiter d = (s.waiter d).signalled := by
  unfold mainStep at h
  rw [hs] at h
  cases d with
  | keyboard =>
    cases h
    exact ⟨rfl, by simp [goto, signal, place]⟩
  | video =>
    cases h
    exact ⟨rfl, by simp [goto, signal, place]⟩

/-- **The joins**: the main thread gets past the join of a thread that has been created, in every run that goes on as
far as it can, unless the thread returns from its wait without a signal, if and only if the thread is not between its
look at the flag and its waiting when it is signalled. -/
theorem joins_iff {mode : VideoMode} {cpu : CPU} (h : steps next ms (create mode cpu) = some s)
    (hs : s.main = d.signalAt) (hcreated : s.waiter d ≠ .absent) (hm : next (.main ok) s = some s') :
    (∀ ms t, Meets next Quiet s' ms → steps next ms s' = some t → t.Halted → d.joinAt.Before t.main) ↔
      ¬ (s.waiter d).Entering := by
  have hsound := next_sound hm (sound_of_steps h)
  obtain ⟨hjoin, hwaiter⟩ := mainStep_signal hm hs
  have hp : d.signalAt.Before s'.main := by
    rw [hjoin]
    cases d <;> decide
  have hstop : MainAt.pitStop.Before s'.main := by
    rw [hjoin]
    cases d <;> decide
  constructor
  -- Some run halts, and the thread has ended in it, so it has not missed the signal.
  · intro hall
    obtain ⟨ms, t, hq, hr, hh⟩ := exists_halted hsound hstop
    obtain ⟨⟨ht, _⟩, n, hn⟩ := steps_waiter hsound hp hq hr
    rw [hwaiter, ht.joined.device d (hall ms t hq hr hh)] at hn
    intro hentering
    rw [hentering.signalled] at hn
    rcases hentering.stopping hn with (h1 | h1) | h1 <;> cases h1
  · intro hentering ms t hq hr hh
    obtain ⟨⟨ht, hpt⟩, n, hn⟩ := steps_waiter hsound hp hq hr
    rw [hwaiter] at hn
    have hleaving := (Waiter.leaving_signalled hcreated hentering).stopping hn
    rcases hh.main ht (Nat.lt_trans (m := d.signalAt.ctorIdx) (by cases d <;> decide) hpt) with h1 | ⟨d', h1, h2⟩
    · rw [h1]
      cases d <;> decide
    · rw [h1] at hpt ⊢
      -- The thread that leaves its loop is not the one that is joined in vain.
      cases d <;> cases d'
      case keyboard.video => decide
      case video.keyboard => exact absurd hpt (by decide)
      all_goals
        exfalso
        obtain h3 | h3 | h3 := hleaving <;> rw [h3] at h2 <;> obtain h2 | h2 := h2 <;> cases h2

end

/-- The keyboard waits when it is signalled. -/
theorem joins_waiting : ∃ s s', @steps _ _ (@next ⟨.little⟩) (lifeMoves ++ endMoves.take 4) (create .slave endingCpu) =
      some s ∧ @next ⟨.little⟩ (.main true) s = some s' ∧
    ∀ ms t, @Meets _ _ (@next ⟨.little⟩) Quiet s' ms → @steps _ _ (@next ⟨.little⟩) ms s' = some t →
      @Halted ⟨.little⟩ t → MainAt.keyboardJoin.Before t.main := by
  obtain ⟨s0, s, _, h0, hs0, _, _, hmain, hwaiter, _⟩ := life_ends
  have hs : @steps _ _ (@next ⟨.little⟩) (lifeMoves ++ endMoves.take 4) (create .slave endingCpu) = some s :=
    steps_append.mpr ⟨s0, h0, hs0⟩
  have hnext : ∃ s', @next ⟨.little⟩ (.main true) s = some s' := by
    show ∃ s', @mainStep ⟨.little⟩ true s = some s'
    unfold mainStep
    rw [hmain]
    exact ⟨_, rfl⟩
  obtain ⟨s', hnext⟩ := hnext
  have hcreated : s.waiter .keyboard ≠ .absent := by
    rw [hwaiter]
    decide
  refine ⟨s, s', hs, hnext, (@joins_iff _ _ _ .keyboard ⟨.little⟩ _ _ _ hs hmain hcreated hnext).mpr ?_⟩
  rw [hwaiter]
  unfold Waiter.Entering
  decide

end Thorium.Vm.Process
