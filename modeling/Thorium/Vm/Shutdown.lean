import Thorium.Vm.Lifecycle

/-!
# Use after free

`vm_destroy` frees what `vm_create` has allocated while threads of the devices may still run. What one step of the
main thread changes and what the other moves change (`next_cases`); behind a join the thread has ended
(`Joined`). So nothing that has been freed is used, but for the PIC: `vm_destroy` frees it before it stops the timer,
which may trigger its interrupt in between (`uses_freed_iff`).
-/

namespace Thorium.Vm

/-! ### Places -/

namespace MainAt
variable {m m' j : MainAt}

/-- Places are told apart by their order. -/
lemma eq_of_ctorIdx (h : m.ctorIdx = m'.ctorIdx) : m = m' := by
  rw [← ofNat_ctorIdx m, h, ofNat_ctorIdx]

/-- Control goes from one place to the next, but for `video_loop` and what follows it in `vm_start`. -/
def Follows (m m' : MainAt) : Prop :=
  m'.ctorIdx = m.ctorIdx + 1 ∨ pitCreate.Before m ∧ m.Before cpuJoin ∧ pitCreate.Before m' ∧ ¬ cpuJoin.Before m'

instance (m m' : MainAt) : Decidable (m.Follows m') := inferInstanceAs (Decidable (_ ∨ _))

/-- A place outside `video_loop`. -/
def Outer (m : MainAt) : Prop := ¬ pitCreate.Before m ∨ ¬ m.Before cpuJoin

instance (m : MainAt) : Decidable m.Outer := inferInstanceAs (Decidable (_ ∨ _))

/-- Control comes behind a place outside the loop from this place only. -/
lemma Follows.pass (h : m.Follows m') (hj : j.Outer) (hp : j.Before m') : j.Before m ∨ m = j := by
  rcases h with h | ⟨h1, h2, h3, h4⟩
  · rcases Nat.lt_or_ge j.ctorIdx m.ctorIdx with hlt | hge
    · exact .inl hlt
    · unfold Before at hp
      exact .inr (eq_of_ctorIdx (by omega))
  · unfold Outer at hj
    unfold Before at *
    omega

/-- It stays behind it. -/
lemma Follows.stay (h : m.Follows m') (hj : j.Outer) (hp : j.Before m) : j.Before m' := by
  unfold Outer at hj
  unfold Follows at h
  unfold Before at *
  omega

/-- The places of `video_loop` at which the window is open. -/
def Windowed (m : MainAt) : Prop :=
  m ∈ [videoCreate, update, enabledTest, stopEnabled, stopClose, vsyncSet, vsyncSignal, sync]

instance (m : MainAt) : Decidable m.Windowed := inferInstanceAs (Decidable (_ ∈ _))

/-- Nothing comes after `returned`. -/
lemma le_returned (m : MainAt) : m.ctorIdx ≤ returned.ctorIdx := by
  cases m <;> decide

/-- The PIC has been freed and the timer not yet joined. -/
lemma pit_join : MainAt.picFree.Before m → ¬ MainAt.pitJoin.Before m → m = .pitStop ∨ m = .pitJoin := by
  cases m <;> decide

/-- The main thread uses nothing that it has freed. -/
lemma not_freed (m : MainAt) : ∀ o ∈ m.uses, ¬ o.freedAt.Before m := by
  cases m <;> decide

end MainAt

namespace Process
variable {s s' : Process} {ok : Bool} {m : Act} {d : Device}

/-! ### The main thread -/

/-- What a step of the main thread changes, and where. -/
structure MainStep (s s' : Process) : Prop where
  mode : s'.mode = s.mode
  order : s.main.Follows s'.main
  cpuRun : s'.cpuRun = s.cpuRun ∨ s.main = .cpuCreate ∧ s'.cpuRun = .loop
  timer : s.main ≠ .pitCreate ∧ s'.timer = s.timer ∨ s.main = .pitCreate ∧ s'.timer = .test
  waiter (d : Device) : s.main ≠ d.createAt ∧ s.main ≠ d.signalAt ∧ s'.waiter d = s.waiter d ∨
    s.main = d.createAt ∧ s'.waiter d = .test ∨ s.main = d.signalAt ∧ s'.waiter d = (s.waiter d).signalled
  pitRunning : s.main ≠ .pitStop ∧ s'.pitRunning = s.pitRunning ∨ s.main = .pitRun ∨ s'.pitRunning = false
  keyboardRunning : s.main ≠ .keyboardStop ∧ s'.keyboardRunning = s.keyboardRunning ∨ s.main = .keyboardRun ∨
    s'.keyboardRunning = false
  enabled : s'.enabled = s.enabled ∨ s'.enabled = false
  window : MainAt.clear.Before s.main ∧ (s.window = none → s'.window = none) ∨
    ¬ MainAt.clear.Before s'.main ∨ s'.window = none
  windowed : s.main.Windowed ∧ s'.window.isSome = s.window.isSome ∨ ¬ s'.main.Windowed ∨ s'.window.isSome

/-- What the joins wait for. -/
structure MainJoin (s : Process) : Prop where
  cpu : s.main = .cpuJoin → s.cpuRun = .finished
  timer : s.main = .pitJoin → s.timer = .ended
  device (d : Device) : s.main = d.joinAt → s.waiter d = .ended

section
variable [Host]

/-- What happens to the CPU leaves the other threads as they are. -/
lemma occur_inv {o : Occurrence} (h : s.occur o = some s') : ∃ t, Threads.occur o s.threads = some t ∧
    s' = { s with threads := t } := by
  obtain ⟨t, ht, rfl⟩ := Option.map_eq_some_iff.mp h
  exact ⟨t, ht, rfl⟩

/-- A signal that is owed to an interrupt is delivered for this interrupt only. -/
lemma owed_le {t t' : Threads} {move : Move} {i : Interrupt} (h : t.next move = some t') (hm : move ≠ .signal i) :
    t.owed i ≤ t'.owed i := by
  cases move with
  | cpu =>
    obtain ⟨_, _, _, rfl⟩ := next_cpu h
    exact Nat.le_refl _
  | wake =>
    obtain ⟨_, rfl⟩ := next_wake h
    exact Nat.le_refl _
  | stop =>
    obtain ⟨_, rfl⟩ := next_stop h
    exact Nat.le_refl _
  | set j =>
    cases h
    dsimp only
    split <;> omega
  | signal j =>
    obtain ⟨_, rfl⟩ := next_signal h
    have hne : i ≠ j := by
      rintro rfl
      exact hm rfl
    exact (if_neg hne).ge

/-- A move of the CPU owes no interrupt less. -/
lemma occur_owed {move : Move} {i : Interrupt} (h : s.occur (.move move) = some s') (hm : move ≠ .signal i) :
    s.threads.owed i ≤ s'.threads.owed i := by
  obtain ⟨t, ht, rfl⟩ := occur_inv h
  exact owed_le ht hm

/-- The main thread gets past a join when the thread has ended. -/
lemma mainStep_join (h : s.mainStep ok = some s') : s.MainJoin := by
  unfold mainStep at h
  constructor
  · intro hm
    rw [hm] at h
    exact (Option.ite_none_right_eq_some.mp h).1
  · intro hm
    rw [hm] at h
    exact (Option.ite_none_right_eq_some.mp h).1
  · rintro (_ | _) hm
    all_goals
      rw [hm] at h
      exact (Option.ite_none_right_eq_some.mp h).1

/-- The main thread goes through its places in order. -/
lemma mainStep_order (h : s.mainStep ok = some s') : s.main.Follows s'.main := by
  unfold mainStep at h
  -- Apart stand what `cpu_loop` takes part in, the joins, and the places where control branches.
  cases hm : s.main <;> rw [hm] at h
  case vsyncSet | vsyncSignal | cpuStop =>
    obtain ⟨_, _, rfl⟩ := Option.map_eq_some_iff.mp h
    exact of_decide_eq_true rfl
  case cpuJoin | pitJoin | keyboardJoin | videoJoin =>
    obtain ⟨_, h⟩ := Option.ite_none_right_eq_some.mp h
    cases h
    exact of_decide_eq_true rfl
  case enabledOpen | windowTest | update | enabledTest | sync | modeTest =>
    cases h
    dsimp only [goto]
    split <;> decide
  case returned => cases h
  all_goals
    cases h
    exact of_decide_eq_true rfl

/-- The window stays closed before and behind `video_loop`. -/
lemma mainStep_window (h : s.mainStep ok = some s') :
    MainAt.clear.Before s.main ∧ (s.window = none → s'.window = none) ∨
    ¬ MainAt.clear.Before s'.main ∨ s'.window = none := by
  unfold mainStep at h
  cases hm : s.main <;> rw [hm] at h
  case vsyncSet | vsyncSignal =>
    obtain ⟨_, _, rfl⟩ := Option.map_eq_some_iff.mp h
    exact .inr (.inl (of_decide_eq_true rfl))
  case cpuStop =>
    obtain ⟨_, ho, rfl⟩ := Option.map_eq_some_iff.mp h
    obtain ⟨_, _, rfl⟩ := occur_inv ho
    exact .inl ⟨of_decide_eq_true rfl, id⟩
  case cpuJoin | pitJoin | keyboardJoin | videoJoin =>
    obtain ⟨_, h⟩ := Option.ite_none_right_eq_some.mp h
    cases h
    exact .inl ⟨of_decide_eq_true rfl, id⟩
  case windowTest =>
    cases h
    cases hw : s.window with
    | none => exact .inr (.inr hw)
    | some closed => exact .inr (.inl (of_decide_eq_true rfl))
  case enabledOpen | update | enabledTest | sync =>
    cases h
    refine .inr (.inl ?_)
    dsimp only [goto]
    split <;> decide
  case clear | lost =>
    cases h
    exact .inr (.inr rfl)
  case videoClose =>
    cases h
    exact .inl ⟨of_decide_eq_true rfl, fun hw => by simp [goto, close, hw]⟩
  case returned => cases h
  all_goals
    cases h
    first
    | exact .inr (.inl (of_decide_eq_true rfl))
    | exact .inl ⟨of_decide_eq_true rfl, id⟩

/-- The window stays open in `video_loop`. -/
lemma mainStep_windowed (h : s.mainStep ok = some s') :
    s.main.Windowed ∧ s'.window.isSome = s.window.isSome ∨ ¬ s'.main.Windowed ∨ s'.window.isSome := by
  unfold mainStep at h
  cases hm : s.main <;> rw [hm] at h
  case vsyncSet | vsyncSignal | cpuStop =>
    obtain ⟨_, ho, rfl⟩ := Option.map_eq_some_iff.mp h
    obtain ⟨_, _, rfl⟩ := occur_inv ho
    first
    | exact .inl ⟨of_decide_eq_true rfl, rfl⟩
    | exact .inr (.inl (of_decide_eq_true rfl))
  case cpuJoin | pitJoin | keyboardJoin | videoJoin =>
    obtain ⟨_, h⟩ := Option.ite_none_right_eq_some.mp h
    cases h
    exact .inr (.inl (of_decide_eq_true rfl))
  case windowTest =>
    cases h
    cases hw : s.window with
    | none => exact .inr (.inl (of_decide_eq_true rfl))
    | some closed => exact .inr (.inr (congrArg Option.isSome hw))
  case enabledOpen | modeTest =>
    cases h
    refine .inr (.inl ?_)
    dsimp only [goto]
    split <;> decide
  case stopClose =>
    cases h
    exact .inl ⟨of_decide_eq_true rfl, by simp [goto, close]⟩
  case returned => cases h
  all_goals
    cases h
    first
    | exact .inl ⟨of_decide_eq_true rfl, rfl⟩
    | exact .inr (.inl (of_decide_eq_true rfl))

/-- What a step of the main thread changes. -/
lemma mainStep_inv (h : s.mainStep ok = some s') : MainStep s s' := by
  have horder := mainStep_order h
  have hwindow := mainStep_window h
  have hwindowed := mainStep_windowed h
  unfold mainStep at h
  cases hm : s.main <;> rw [hm] at h
  case vsyncSet | vsyncSignal | cpuStop =>
    obtain ⟨_, ho, rfl⟩ := Option.map_eq_some_iff.mp h
    obtain ⟨t, _, rfl⟩ := occur_inv ho
    refine ⟨rfl, horder, .inl rfl, .inl ⟨by simp [hm], rfl⟩, fun d => .inl ?_, .inl ⟨by simp [hm], rfl⟩,
      .inl ⟨by simp [hm], rfl⟩, .inl rfl, hwindow, hwindowed⟩
    cases d <;> simp [goto, hm, Device.createAt, Device.signalAt]
  case cpuJoin | pitJoin | keyboardJoin | videoJoin =>
    obtain ⟨_, h⟩ := Option.ite_none_right_eq_some.mp h
    cases h
    refine ⟨rfl, horder, .inl rfl, .inl ⟨by simp [hm], rfl⟩, fun d => .inl ?_, .inl ⟨by simp [hm], rfl⟩,
      .inl ⟨by simp [hm], rfl⟩, .inl rfl, hwindow, hwindowed⟩
    cases d <;> simp [goto, hm, Device.createAt, Device.signalAt]
  case returned => cases h
  all_goals
    cases h
    refine ⟨rfl, horder, ?_, ?_, fun d => ?_, ?_, ?_, ?_, hwindow, hwindowed⟩
    case refine_3 => cases d <;> simp [goto, place, signal, hm, close, Device.createAt, Device.signalAt]
    all_goals simp [goto, place, signal, hm, close]

/-! ### The other threads -/

/-- What the other moves change. -/
structure OtherStep (m : Act) (s s' : Process) : Prop where
  main : s'.main = s.main
  mode : s'.mode = s.mode
  pitRunning : s'.pitRunning = s.pitRunning
  keyboardRunning : s'.keyboardRunning = s.keyboardRunning
  enabled : s'.enabled = s.enabled ∨ s'.enabled = false
  window : s'.window = s.window ∨ s'.window = s.window.map fun _ => true
  cpuRun : s'.cpuRun = s.cpuRun ∨ m = .cpu ∧ s.cpuRun ≠ .finished
  timer : s'.timer = s.timer ∨ s.timer ≠ .ended ∧ s'.timer ≠ .absent
  waiter (d : Device) : s'.waiter d = s.waiter d ∨
    m = .device d ∧ (s.waiter d).step (s.flag d) = some (s'.waiter d) ∨
    s'.waiter d = (s.waiter d).signalled ∧ (m = .deviceWake d ∨ s.cpuRun = .loop)

/-- What a step of `cpu_thread_run` changes. -/
lemma cpuStep_inv (h : s.cpuStep = some s') : OtherStep .cpu s s' := by
  unfold cpuStep at h
  cases hc : s.cpuRun <;> rw [hc] at h
  case absent | finished => cases h
  case loop =>
    dsimp only at h
    split at h
    · cases h
      exact ⟨rfl, rfl, rfl, rfl, .inl rfl, .inl rfl, .inr ⟨rfl, by simp [hc]⟩, .inl rfl, fun d => .inl rfl⟩
    · obtain ⟨t, ht, rfl⟩ := Option.map_eq_some_iff.mp h
      refine ⟨rfl, rfl, rfl, rfl, .inl rfl, .inl rfl, .inl rfl, .inl rfl, fun d => ?_⟩
      by_cases hd : d.cond ∈ t.cpu.signals.drop s.threads.cpu.signals.length
      · exact .inr (.inr ⟨if_pos hd, .inr hc⟩)
      · exact .inl (if_neg hd)
  case disable =>
    cases h
    exact ⟨rfl, rfl, rfl, rfl, .inr rfl, .inl rfl, .inr ⟨rfl, by simp [hc]⟩, .inl rfl, fun d => .inl rfl⟩
  case close =>
    cases h
    exact ⟨rfl, rfl, rfl, rfl, .inl rfl, .inr rfl, .inr ⟨rfl, by simp [hc]⟩, .inl rfl, fun d => .inl rfl⟩

/-- What a step of `timer_loop` changes. -/
lemma timerStep_inv {due : Bool} (h : s.timerStep due = some s') : OtherStep (.timer due) s s' := by
  unfold timerStep at h
  cases hc : s.timer <;> rw [hc] at h
  case absent | ended => cases h
  case test | sleep =>
    cases h
    refine ⟨rfl, rfl, rfl, rfl, .inl rfl, .inl rfl, .inl rfl, .inr ⟨by simp [hc], ?_⟩, fun d => .inl rfl⟩
    dsimp only
    split <;> decide
  case set | signal =>
    obtain ⟨_, ho, rfl⟩ := Option.map_eq_some_iff.mp h
    obtain ⟨t, _, rfl⟩ := occur_inv ho
    exact ⟨rfl, rfl, rfl, rfl, .inl rfl, .inl rfl, .inl rfl, .inr ⟨by simp [hc], by simp⟩, fun d => .inl rfl⟩

/-- What a key changes. -/
lemma keyStep_inv {escape : Bool} {word : Word} (h : s.keyStep escape word = some s') :
    OtherStep (.key escape word) s s' := by
  obtain ⟨s1, h1, h⟩ := Option.bind_eq_some_iff.mp h
  obtain ⟨s2, h2, h⟩ := Option.bind_eq_some_iff.mp h
  obtain ⟨s3, h3, rfl⟩ := Option.map_eq_some_iff.mp h
  obtain ⟨_, _, rfl⟩ := occur_inv h1
  obtain ⟨_, _, rfl⟩ := occur_inv h2
  obtain ⟨_, _, rfl⟩ := occur_inv h3
  split
  · exact ⟨rfl, rfl, rfl, rfl, .inl rfl, .inr rfl, .inl rfl, .inl rfl, fun d => .inl rfl⟩
  · exact ⟨rfl, rfl, rfl, rfl, .inl rfl, .inl rfl, .inl rfl, .inl rfl, fun d => .inl rfl⟩

/-- Every move is one of the main thread or one of the others. -/
lemma next_cases (h : next m s = some s') :
    (∃ ok, m = .main ok ∧ s.mainStep ok = some s') ∨ m.isMain = false ∧ OtherStep m s s' := by
  cases m with
  | main ok => exact .inl ⟨ok, rfl, h⟩
  | cpu => exact .inr ⟨rfl, cpuStep_inv h⟩
  | cpuWake =>
    obtain ⟨_, h⟩ := Option.ite_none_right_eq_some.mp h
    obtain ⟨t, _, rfl⟩ := occur_inv h
    exact .inr ⟨rfl, rfl, rfl, rfl, rfl, .inl rfl, .inl rfl, .inl rfl, .inl rfl, fun d => .inl rfl⟩
  | device d =>
    obtain ⟨w, hw, rfl⟩ := Option.map_eq_some_iff.mp h
    refine .inr ⟨rfl, rfl, rfl, rfl, rfl, .inl rfl, .inl rfl, .inl rfl, .inl rfl, fun d' => ?_⟩
    by_cases hd : d' = d
    · subst hd
      exact .inr (.inl ⟨rfl, by simpa [place] using hw⟩)
    · exact .inl (by simp [place, hd])
  | deviceWake d =>
    obtain ⟨hw, h⟩ := Option.ite_none_right_eq_some.mp h
    cases h
    refine .inr ⟨rfl, rfl, rfl, rfl, rfl, .inl rfl, .inl rfl, .inl rfl, .inl rfl, fun d' => ?_⟩
    by_cases hd : d' = d
    · subst hd
      exact .inr (.inr ⟨by simp [signal, place], .inl rfl⟩)
    · exact .inl (by simp [signal, place, hd])
  | timer due => exact .inr ⟨rfl, timerStep_inv h⟩
  | key escape word =>
    obtain ⟨_, h⟩ := Option.ite_none_right_eq_some.mp h
    exact .inr ⟨rfl, keyStep_inv h⟩

end

/-- They close the window, but leave it to the main thread to clear it. -/
lemma OtherStep.isSome_window (h : OtherStep m s s') : s'.window.isSome = s.window.isSome := by
  rcases h.window with h | h
  · rw [h]
  · rw [h, Option.isSome_map]

/-! ### Joins -/

/-- Behind a join the thread has ended, and before its creation it is absent. -/
structure Joined (s : Process) : Prop where
  cpu : MainAt.cpuJoin.Before s.main → s.cpuRun = .finished
  timer : MainAt.pitJoin.Before s.main → s.timer = .ended
  device (d : Device) : d.joinAt.Before s.main → s.waiter d = .ended

/-- At the start no thread has been created. -/
lemma joined_create (mode : VideoMode) (cpu : CPU) : (create mode cpu).Joined := by
  have hstart (p : MainAt) : ¬ p.Before .cpuCreate := Nat.not_lt_zero _
  exact ⟨fun h => absurd h (hstart _), fun h => absurd h (hstart _), fun d h => absurd h (hstart _)⟩

/-- A step of the main thread keeps that. -/
lemma MainStep.joined (h : MainStep s s') (hj : s.MainJoin) (hs : s.Joined) : s'.Joined := by
  constructor
  · intro hp
    rcases h.order.pass (by decide) hp with hb | he
    · rcases h.cpuRun with h | ⟨h, _⟩
      · exact h.trans (hs.cpu hb)
      · rw [h] at hb
        exact absurd hb (by decide)
    · rcases h.cpuRun with h | ⟨h, _⟩
      · exact h.trans (hj.cpu he)
      · rw [h] at he
        exact absurd he (by decide)
  · intro hp
    rcases h.order.pass (by decide) hp with hb | he
    · rcases h.timer with ⟨_, h⟩ | ⟨h, _⟩
      · exact h.trans (hs.timer hb)
      · rw [h] at hb
        exact absurd hb (by decide)
    · rcases h.timer with ⟨_, h⟩ | ⟨h, _⟩
      · exact h.trans (hj.timer he)
      · rw [h] at he
        exact absurd he (by decide)
  · intro d hp
    have hend : s.waiter d = .ended := by
      rcases h.order.pass (by cases d <;> decide) hp with hb | he
      · exact hs.device d hb
      · exact hj.device d he
    rcases h.waiter d with ⟨_, _, h⟩ | ⟨hm, _⟩ | ⟨_, h⟩
    · exact h.trans hend
    · rcases h.order.pass (by cases d <;> decide) hp with hb | he
      · rw [hm] at hb
        exact absurd hb (by cases d <;> decide)
      · rw [hm] at he
        exact absurd he (by cases d <;> decide)
    · rw [h, hend]
      rfl

/-- So does a step of another thread. -/
lemma OtherStep.joined (h : OtherStep m s s') (hs : s.Joined) : s'.Joined := by
  constructor
  · intro hp
    rw [h.main] at hp
    rcases h.cpuRun with h | ⟨_, h⟩
    · exact h.trans (hs.cpu hp)
    · exact absurd (hs.cpu hp) h
  · intro hp
    rw [h.main] at hp
    rcases h.timer with h | ⟨h, _⟩
    · exact h.trans (hs.timer hp)
    · exact absurd (hs.timer hp) h
  · intro d hp
    rw [h.main] at hp
    have hend := hs.device d hp
    rcases h.waiter d with h | ⟨_, h⟩ | ⟨h, _⟩
    · exact h.trans hend
    · rw [hend] at h
      cases h
    · rw [h, hend]
      rfl

/-- Nothing is freed before the CPU has been joined. -/
lemma Freed.cpuJoin {o : Obj} (h : s.Freed o) : MainAt.cpuJoin.Before s.main := by
  have ho : MainAt.cpuJoin.Before o.freedAt := by cases o <;> decide
  exact Nat.lt_trans ho h

/-- A device is freed behind its join. -/
lemma Joined.device_freed (hs : s.Joined) (h : s.Freed d.obj) : s.waiter d = .ended := by
  have hjoin : d.joinAt.Before d.obj.freedAt := by cases d <;> decide
  exact hs.device d (Nat.lt_trans hjoin h)

/-- The PIT is freed behind the join of the timer, and the PIC before it. -/
lemma timer_freed_iff (hjoin : ¬ MainAt.pitJoin.Before s.main) :
    (∃ o ∈ s.timer.uses, s.Freed o) ↔ s.timer = .set ∧ (s.main = .pitStop ∨ s.main = .pitJoin) := by
  have hpit : ¬ s.Freed .pit := fun h => hjoin (Nat.lt_trans (m := MainAt.pitFree.ctorIdx) (by decide) h)
  constructor
  · rintro ⟨o, ho, hf⟩
    cases ht : s.timer <;> rw [ht] at ho
    case absent | ended | signal => cases ho
    case test | sleep =>
      obtain rfl := List.mem_singleton.mp ho
      exact absurd hf hpit
    case set =>
      rcases List.mem_cons.mp ho with rfl | ho
      · exact absurd hf hpit
      · obtain rfl := List.mem_singleton.mp ho
        exact ⟨rfl, MainAt.pit_join hf hjoin⟩
  · rintro ⟨ht, hmain⟩
    refine ⟨.pic, ?_, ?_⟩
    · rw [ht]
      decide
    · unfold Freed
      rcases hmain with h | h <;> rw [h] <;> decide

section
variable [Host]

/-- Each move keeps what is known of the joins. -/
lemma next_joined (h : next m s = some s') (hs : s.Joined) : s'.Joined := by
  rcases next_cases h with ⟨ok, rfl, hm⟩ | ⟨_, hm⟩
  · exact (mainStep_inv hm).joined (mainStep_join hm) hs
  · exact hm.joined hs

/-! ### Use after free -/

/-- It holds in every run. -/
lemma joined_of_steps {mode : VideoMode} {cpu : CPU} {ms : List Act} (h : steps next ms (create mode cpu) = some s) :
    s.Joined :=
  steps_invariant h (joined_create mode cpu) fun _ _ _ hs hm => next_joined hm hs

/-- **Use after free**: in every run, what a move uses has been freed exactly when the timer triggers its interrupt
between `pic_destroy` and the end of `pit_stop`. -/
theorem uses_freed_iff {mode : VideoMode} {cpu : CPU} {ms : List Act} (h : steps next ms (create mode cpu) = some s)
    (hm : next m s = some s') : (∃ o ∈ s.uses m, s.Freed o) ↔
      (∃ due, m = .timer due) ∧ s.timer = .set ∧ (s.main = .pitStop ∨ s.main = .pitJoin) := by
  have hs := joined_of_steps h
  have hother (hm : ∀ due, m ≠ .timer due) (hfree : ∀ o ∈ s.uses m, ¬ s.Freed o) : (∃ o ∈ s.uses m, s.Freed o) ↔
      (∃ due, m = .timer due) ∧ s.timer = .set ∧ (s.main = .pitStop ∨ s.main = .pitJoin) := by
    constructor
    · rintro ⟨o, ho, hf⟩
      exact absurd hf (hfree o ho)
    · rintro ⟨⟨due, hd⟩, _⟩
      exact absurd hd (hm due)
  -- All objects are freed behind the join of the CPU, and those of a device behind its own.
  cases m with
  | main ok => exact hother (by rintro _ ⟨⟩) s.main.not_freed
  | cpu =>
    refine hother (by rintro _ ⟨⟩) fun o ho hf => ?_
    have hm : s.cpuStep = some s' := hm
    unfold cpuStep at hm
    rw [hs.cpu hf.cpuJoin] at hm
    cases hm
  | cpuWake =>
    refine hother (by rintro _ ⟨⟩) fun o ho hf => ?_
    obtain ⟨hloop, _⟩ := Option.ite_none_right_eq_some.mp hm
    cases hloop.symm.trans (hs.cpu hf.cpuJoin)
  | device d =>
    refine hother (by rintro _ ⟨⟩) fun o ho hf => ?_
    obtain rfl := List.mem_singleton.mp ho
    obtain ⟨w, hw, _⟩ := Option.map_eq_some_iff.mp hm
    rw [hs.device_freed hf] at hw
    cases hw
  | deviceWake d =>
    refine hother (by rintro _ ⟨⟩) fun o ho hf => ?_
    obtain rfl := List.mem_singleton.mp ho
    obtain ⟨hw, _⟩ := Option.ite_none_right_eq_some.mp hm
    cases hw.symm.trans (hs.device_freed hf)
  | timer due =>
    -- The timer makes a step, so it has not been joined.
    have hjoin : ¬ MainAt.pitJoin.Before s.main := by
      intro hp
      have hm : s.timerStep due = some s' := hm
      unfold timerStep at hm
      rw [hs.timer hp] at hm
      cases hm
    have hiff : (∃ o ∈ s.uses (.timer due), s.Freed o) ↔ _ := timer_freed_iff hjoin
    exact hiff.trans ⟨fun h => ⟨⟨due, rfl⟩, h⟩, fun h => h.2⟩
  | key escape word =>
    refine hother (by rintro _ ⟨⟩) fun o ho hf => ?_
    obtain ⟨hmain, _⟩ := Option.ite_none_right_eq_some.mp hm
    have hp := hf.cpuJoin
    rcases hmain with h | h <;> rw [h] at hp <;> exact absurd hp (by decide)

end

/-- A CPU that ends as soon as it fetches. -/
def endingCpu : CPU := { smallCpu smallHeap with pc := 16 }

/-- The process up to `pic_destroy`, with the timer before its interrupt. -/
def triggerMoves : List Act :=
  List.replicate 5 (.main true) ++ [.timer false, .timer true] ++ List.replicate 7 .cpu ++
    List.replicate 10 (.main true)

/-- The timer triggers its interrupt with the freed PIC. -/
theorem uses_freed_trigger : ∃ s, @steps _ _ (@next ⟨.little⟩) triggerMoves (create .none endingCpu) = some s ∧
    ∃ o ∈ s.uses (.timer true), s.Freed o := by
  have heval : ((@steps _ _ (@next ⟨.little⟩) triggerMoves (create .none endingCpu)).map fun s => (s.timer, s.main)) =
      some (.set, .pitStop) := by decide +kernel
  obtain ⟨s, hs, he⟩ := Option.map_eq_some_iff.mp heval
  obtain ⟨ht, hm⟩ := Prod.mk.inj he
  have hnext : ∃ s', @next ⟨.little⟩ (.timer true) s = some s' := by
    show ∃ s', @timerStep ⟨.little⟩ true s = some s'
    unfold timerStep
    rw [ht]
    exact ⟨_, rfl⟩
  obtain ⟨s', hnext⟩ := hnext
  exact ⟨s, hs, (@uses_freed_iff _ _ _ ⟨.little⟩ _ _ _ hs hnext).mpr ⟨⟨true, rfl⟩, ht, .inl hm⟩⟩

end Process

end Thorium.Vm
