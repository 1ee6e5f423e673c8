import Thorium.Lib.Waiter
import Thorium.Vm.Printing

/-!
# The life of the process

`vm_start` and `vm_destroy` (`src/vm/vm.c`), which `main` calls one after the other, a statement at a time, among the
threads that they start, stop and join: `cpu_thread_run` around `cpu_loop`, `keyboard_thread_run`
(`src/vm/keyboard.c`), `timer_loop` (`src/vm/pit.c`) and `video_thread_run` (`src/vm/video.c`). `video_loop` and
`video_stop` call MiniFB, whose results are part of the moves.
-/

namespace Thorium.Vm

/-- `enum vm_config_video` -/
inductive VideoMode where
  | none | master | slave
  deriving DecidableEq, Repr

/-- The main thread: in `vm_start` before `video_loop`, in `video_loop`, in `vm_start` behind it, in the rest of
`main`, and in `vm_destroy`. The places are in the order of the source. -/
inductive MainAt where
  | cpuCreate | keyboardRun | keyboardCreate | pitRun | pitCreate
  | enabledOpen | «open» | windowTest | videoCreate
  | update | lost | enabledTest | stopEnabled | stopClose | vsyncSet | vsyncSignal | sync | clear
  | modeTest | cpuStop | cpuJoin
  | report | debuggerFree
  | ramFree | romFree | busFree | picFree
  | pitStop | pitJoin | pitFree
  | keyboardStop | keyboardSignal | keyboardJoin | keyboardFree
  | videoStop | videoClose | videoSignal | videoJoin | videoFree
  | cpuFree | vmFree | returned
  deriving DecidableEq, Repr

/-- A place is before another in the source. -/
def MainAt.Before (m m' : MainAt) : Prop := m.ctorIdx < m'.ctorIdx

instance (m m' : MainAt) : Decidable (m.Before m') := inferInstanceAs (Decidable (_ < _))

/-- `cpu_thread_run`: before `pthread_create`, in `cpu_loop`, at the two statements of `video_stop`, has ended. -/
inductive CpuRun where
  | absent | loop | disable | close | finished
  deriving DecidableEq, Repr

/-- `timer_loop`: before `pthread_create`, at its condition, in `usleep`, at the two parts of
`pic_interrupt_trigger`, has ended. -/
inductive Timer where
  | absent | test | sleep | set | signal | ended
  deriving DecidableEq, Repr

/-- The threads that wait for a write of the guest to the memory of their device. -/
inductive Device where
  | keyboard | video
  deriving DecidableEq, Repr

namespace Device

/-- Where the thread is created, where it is signalled in the end, and where it is joined. -/
def createAt : Device → MainAt
  | keyboard => .keyboardCreate
  | video => .videoCreate

/-- The place at which the thread is signalled. -/
def signalAt : Device → MainAt
  | keyboard => .keyboardSignal
  | video => .videoSignal

/-- The place at which it is joined. -/
def joinAt : Device → MainAt
  | keyboard => .keyboardJoin
  | video => .videoJoin

/-- The condition variable of a device. -/
def cond : Device → Cond
  | keyboard => .device keyboardInRef
  | video => .device videoMetaRef

end Device

/-- The process: `config->video`; the places of the threads, with `cpu_loop` in `threads`; `running` of the keyboard
and of the timer; `enabled` and `window` of the video, the latter with whether `mfb_close` has been called with
it. -/
structure Process where
  mode : VideoMode
  main : MainAt
  threads : Threads
  cpuRun : CpuRun
  waiter : Device → Waiter
  timer : Timer
  keyboardRunning : Bool
  pitRunning : Bool
  enabled : Bool
  window : Option Bool

/-- The moves: a step of the main thread, with what MiniFB returns if it is asked; a step of the CPU thread and of
the other threads, the timer with whether its period is over; returns of `pthread_cond_wait` without a signal; and
`video_kb_callback` with the word of the key and whether it is Escape. -/
inductive Act where
  | main (ok : Bool)
  | cpu | cpuWake
  | device (d : Device)
  | deviceWake (d : Device)
  | timer (due : Bool)
  | key (escape : Bool) (word : Word)
  deriving DecidableEq

/-- A step of the main thread. -/
def Act.isMain : Act → Bool
  | main _ => true
  | _ => false

namespace Process

/-- The process before `vm_start`. `video_create` has been called with `config->video != VM_CONFIG_VIDEO_NONE`. -/
def create (mode : VideoMode) (cpu : CPU) : Process where
  mode := mode
  main := .cpuCreate
  threads := .create cpu
  cpuRun := .absent
  waiter := fun _ => .absent
  timer := .absent
  keyboardRunning := false
  pitRunning := false
  enabled := mode ≠ .none
  window := none

/-- The condition of a thread's loop: `running` of the keyboard, `window` of the video. -/
def flag (s : Process) : Device → Bool
  | .keyboard => s.keyboardRunning
  | .video => s.window.isSome

/-- The thread of a device is at another place. -/
def place (s : Process) (d : Device) (w : Waiter) : Process := { s with waiter := Function.update s.waiter d w }

/-- `pthread_cond_signal` on the condition variable of a device. -/
def signal (s : Process) (d : Device) : Process := s.place d (s.waiter d).signalled

/-- `mfb_close(this->window)`. -/
def close (s : Process) : Process := { s with window := s.window.map fun _ => true }

/-- The main thread goes on. -/
def goto (s : Process) (m : MainAt) : Process := { s with main := m }

/-- The main thread is about to join the thread of the video, which was never created. Its handle has no value, so the
behaviour of C is undefined from here on, and no claim is made on it. The other threads are always created. -/
def Undefined (s : Process) : Prop := s.main = Device.video.joinAt ∧ s.waiter .video = .absent

section
variable [Host]

/-- Something happens to `cpu_loop`. -/
def occur (o : Occurrence) (s : Process) : Option Process :=
  (Threads.occur o s.threads).map fun t => { s with threads := t }

/-- A step of the main thread. A join is blocked until its thread has ended. The join of a thread that was never
created has no step either, since C says nothing of it: the run has come to `Undefined`. -/
def mainStep (ok : Bool) (s : Process) : Option Process :=
  match s.main with
  -- `vm_start`
  | .cpuCreate => some ({ s with cpuRun := .loop }.goto .keyboardRun)
  | .keyboardRun => some ({ s with keyboardRunning := true }.goto .keyboardCreate)
  | .keyboardCreate => some ((s.place .keyboard .test).goto .pitRun)
  | .pitRun => some ({ s with pitRunning := true }.goto .pitCreate)
  | .pitCreate => some ({ s with timer := .test }.goto .enabledOpen)
  -- `video_loop`
  | .enabledOpen => some (s.goto (if s.enabled then .open else .windowTest))
  | .open => some ({ s with window := if ok then some false else none }.goto .windowTest)
  | .windowTest => some (s.goto (if s.window.isSome then .videoCreate else .modeTest))
  | .videoCreate => some ((s.place .video .test).goto .update)
  | .update => some (s.goto (if ok then .enabledTest else .lost))
  | .lost => some ({ s with window := none }.goto .clear)
  | .enabledTest => some (s.goto (if s.enabled then .vsyncSet else .stopEnabled))
  | .stopEnabled => some ({ s with enabled := false }.goto .stopClose)
  | .stopClose => some (s.close.goto .vsyncSet)
  | .vsyncSet => (s.occur (.move (.set intVsync))).map (·.goto .vsyncSignal)
  | .vsyncSignal => (s.occur (.move (.signal intVsync))).map (·.goto .sync)
  | .sync => some (s.goto (if ok then .update else .clear))
  | .clear => some ({ s with window := none }.goto .modeTest)
  -- `vm_start`
  | .modeTest => some (s.goto (if s.mode = .master then .cpuStop else .cpuJoin))
  | .cpuStop => (s.occur (.move .stop)).map (·.goto .cpuJoin)
  | .cpuJoin => if s.cpuRun = .finished then some (s.goto .report) else none
  -- `main`
  | .report => some (s.goto .debuggerFree)
  | .debuggerFree => some (s.goto .ramFree)
  -- `vm_destroy`
  | .ramFree => some (s.goto .romFree)
  | .romFree => some (s.goto .busFree)
  | .busFree => some (s.goto .picFree)
  | .picFree => some (s.goto .pitStop)
  | .pitStop => some ({ s with pitRunning := false }.goto .pitJoin)
  | .pitJoin => if s.timer = .ended then some (s.goto .pitFree) else none
  | .pitFree => some (s.goto .keyboardStop)
  | .keyboardStop => some ({ s with keyboardRunning := false }.goto .keyboardSignal)
  | .keyboardSignal => some ((s.signal .keyboard).goto .keyboardJoin)
  | .keyboardJoin => if s.waiter .keyboard = .ended then some (s.goto .keyboardFree) else none
  | .keyboardFree => some (s.goto .videoStop)
  | .videoStop => some ({ s with enabled := false }.goto .videoClose)
  | .videoClose => some (s.close.goto .videoSignal)
  | .videoSignal => some ((s.signal .video).goto .videoJoin)
  | .videoJoin => if s.waiter .video = .ended then some (s.goto .videoFree) else none
  | .videoFree => some (s.goto .cpuFree)
  | .cpuFree => some (s.goto .vmFree)
  | .vmFree => some (s.goto .returned)
  | .returned => none

/-- `cpu_loop` after a step, whose signals the devices hear. -/
def hear (s : Process) (t : Threads) : Process := { s with
  threads := t
  waiter := fun d =>
    if d.cond ∈ t.cpu.signals.drop s.threads.cpu.signals.length then (s.waiter d).signalled else s.waiter d }

/-- A step of `cpu_thread_run`. -/
def cpuStep (s : Process) : Option Process :=
  match s.cpuRun with
  | .loop =>
    if s.threads.phase = .ended then some { s with cpuRun := if s.mode = .slave then .disable else .finished }
    else (s.threads.next .cpu).map s.hear
  | .disable => some { s with enabled := false, cpuRun := .close }
  | .close => some { s.close with cpuRun := .finished }
  | .absent | .finished => none

/-- A step of `timer_loop`. -/
def timerStep (due : Bool) (s : Process) : Option Process :=
  match s.timer with
  | .test => some { s with timer := if s.pitRunning then .sleep else .ended }
  | .sleep => some { s with timer := if due then .set else .test }
  | .set => (s.occur (.move (.set intTimer))).map fun s => { s with timer := .signal }
  | .signal => (s.occur (.move (.signal intTimer))).map fun s => { s with timer := .test }
  | .absent | .ended => none

/-- `video_kb_callback`, with the word that `keyboard_key_pressed` or `keyboard_key_released` sets. -/
def keyStep (escape : Bool) (word : Word) (s : Process) : Option Process :=
  (s.occur (.store keyboardOutRef 0 word)).bind fun s =>
    (s.occur (.move (.set intKeyboard))).bind fun s =>
      (s.occur (.move (.signal intKeyboard))).map fun s => if escape then s.close else s

/-- A move, where it can be made. MiniFB calls the callback while it updates the window or waits. -/
def next : Act → Process → Option Process
  | .main ok, s => s.mainStep ok
  | .cpu, s => s.cpuStep
  | .cpuWake, s => if s.cpuRun = .loop then s.occur (.move .wake) else none
  | .device d, s => ((s.waiter d).step (s.flag d)).map (s.place d)
  | .deviceWake d, s => if s.waiter d = .waiting then some (s.signal d) else none
  | .timer due, s => s.timerStep due
  | .key escape word, s => if s.main = .update ∨ s.main = .sync then s.keyStep escape word else none

end

end Process

/-! ### What is freed -/

/-- What `main` and `vm_create` have allocated, each with the memories that are freed together with it. -/
inductive Obj where
  | debugger | ram | rom | bus | pic | pit | keyboard | video | cpu | vm
  deriving DecidableEq, Repr

/-- Where it is freed. -/
def Obj.freedAt : Obj → MainAt
  | debugger => .debuggerFree
  | ram => .ramFree
  | rom => .romFree
  | bus => .busFree
  | pic => .picFree
  | pit => .pitFree
  | keyboard => .keyboardFree
  | video => .videoFree
  | cpu => .cpuFree
  | vm => .vmFree

/-- What the main thread uses. -/
def MainAt.uses : MainAt → List Obj
  | cpuCreate | modeTest => [.vm]
  | keyboardRun | keyboardCreate => [.vm, .keyboard]
  | pitRun | pitCreate => [.vm, .pit]
  | enabledOpen => [.vm, .video]
  | «open» | windowTest | videoCreate | update | lost | enabledTest | stopEnabled | stopClose | sync | clear => [.video]
  | vsyncSet => [.video, .pic]
  | vsyncSignal | cpuJoin | returned => []
  | cpuStop => [.vm, .cpu]
  | report => [.vm, .cpu, .bus, .ram, .rom, .pic, .keyboard, .video]
  | debuggerFree => [.debugger]
  | ramFree => [.vm, .ram]
  | romFree => [.vm, .rom]
  | busFree => [.vm, .bus]
  | picFree => [.vm, .pic]
  | pitStop | pitFree => [.vm, .pit]
  | pitJoin => [.pit]
  | keyboardStop | keyboardFree => [.vm, .keyboard]
  | keyboardSignal | keyboardJoin => [.keyboard]
  | videoStop | videoFree => [.vm, .video]
  | videoClose | videoSignal | videoJoin => [.video]
  | cpuFree => [.vm, .cpu]
  | vmFree => [.vm]

/-- What `cpu_thread_run` uses. The bus leads to the memories of all devices. -/
def CpuRun.uses : CpuRun → List Obj
  | absent | finished => []
  | loop => [.vm, .cpu, .debugger, .bus, .ram, .rom, .pic, .keyboard, .video]
  | disable | close => [.vm, .video]

/-- What `timer_loop` uses. -/
def Timer.uses : Timer → List Obj
  | absent | ended | signal => []
  | test | sleep => [.pit]
  | set => [.pit, .pic]

/-- What the thread of a device uses. -/
def Device.obj : Device → Obj
  | keyboard => .keyboard
  | video => .video

namespace Process

/-- What a move uses. -/
def uses (s : Process) : Act → List Obj
  | .main _ => s.main.uses
  | .cpu | .cpuWake => s.cpuRun.uses
  | .device d | .deviceWake d => [d.obj]
  | .timer _ => s.timer.uses
  | .key _ _ => [.video, .keyboard, .pic]

/-- An object has been freed. -/
def Freed (s : Process) (o : Obj) : Prop := o.freedAt.Before s.main

end Process

end Thorium.Vm
