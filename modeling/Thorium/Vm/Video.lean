import Thorium.Lib.Steps
import Thorium.Vm.MemoryMap

/-!
# The video thread

`video_create`, the start of `video_loop` and `video_thread_run` (`src/vm/video.c`), a step at a time
(`Screen.step`), among the writes of the guest to `VIDEO_META_ADDRESS`. Such a write sets the word of `VMeta` and
then signals (`src/vm/bus.c`); a signal is dropped when the thread does not wait, and the thread switches the
buffer only when the word differs from its own copy. So a write that comes before the thread has made its copy, or
between its reading and its waiting, is not displayed. Where no such write changes the buffer bit the displayed
buffer follows `VMeta` (`display_follows`).
-/

namespace Thorium.Vm

/-- `VIDEO_BIT_BUFFER` -/
def videoBitBuffer : Word := 1

/-- `memory->buffer` -/
def videoBuffer (index : Word) : Ref := if index = 0 then videoBuffer0Ref else videoBuffer1Ref

/-- What comes next in `video_create`: the attachment of `VMeta`, its first word, the buffers, the registration of
the notification; then the window and the thread of `video_loop`; in `video_thread_run` the first
`memory_word_get`, the condition of the loop, the return of `pthread_cond_wait`, the second `memory_word_get`, and
the switch; the thread has ended. -/
inductive Stage where
  | attach | enable | buffers | register
  | «open»
  | copy | condition | waiting | woken
  | switch (newFlags : Word)
  | ended
  deriving DecidableEq

/-- The notification has been registered. -/
def Stage.registered : Stage → Bool
  | .attach | .enable | .buffers | .register => false
  | _ => true

/-- The video: `memory->metadata` with the notifications of its zone, the buffer that is displayed, whether the
window is open, and `flags` of the thread; and the condition variables that the guest is still to signal. -/
structure Screen where
  stage : Stage
  metadata : Memory
  notification : List Notification
  buffer : Option Ref
  window : Bool
  flags : Word
  signals : List Cond

/-- The bit of a word that says which buffer is to be displayed. -/
def bufferBit (word : Word) : Word := word &&& videoBitBuffer

/-- `meta_memory_written` -/
def metaMemoryWritten : Cond := .device videoMetaRef

namespace Screen

/-- The start of `video_create`, with the words that `malloc` returns. -/
def create (malloc : Nat → Word) : Screen :=
  ⟨.attach, memoryCreate malloc videoMetaSize .rw, [], none, false, 0, []⟩

/-- The word of `VMeta`. -/
def metaWord (s : Screen) : Word := s.metadata.raw 0

/-- `memory_word_set` on `memory->metadata`, where its result is not looked at. -/
def setMeta (s : Screen) (word : Word) : Screen :=
  match memoryWordSet s.metadata 0 word with
  | .ok memory => { s with metadata := memory }
  | .error _ => s

/-- A step of `video_create` with `enable`, of the start of `video_loop` or of `video_thread_run`. -/
def step (s : Screen) : Option Screen :=
  match s.stage with
  | .attach => some { s with stage := .enable }
  | .enable => some { s.setMeta videoBitEnabled with stage := .buffers }
  | .buffers => some { s with buffer := some (videoBuffer 0), stage := .register }
  | .register => some { s with
      notification := s.notification ++ [⟨videoMetaAddress, metaMemoryWritten⟩]
      stage := .open }
  | .open => some { s with window := true, stage := .copy }
  | .copy =>
    match memoryWordGet s.metadata 0 with
    | .ok word => some { s with flags := word, stage := .condition }
    | .error _ => some { s with flags := 0, stage := .condition }
  | .condition => some { s with stage := if s.window then .waiting else .ended }
  | .waiting => none
  | .woken =>
    match memoryWordGet s.metadata 0 with
    | .ok newFlags => some { s with stage := .switch newFlags }
    | .error _ => some { s with stage := .condition }
  | .switch newFlags =>
    some { s with
      buffer := if (s.flags ^^^ newFlags) &&& videoBitBuffer ≠ 0 then some (videoBuffer (newFlags &&& videoBitBuffer))
        else s.buffer
      flags := newFlags
      stage := .condition }
  | .ended => none

/-- The moves: a step of the video, the first part of a `bus_word_write` to `VIDEO_META_ADDRESS`, its signal to one
listener, a return of `pthread_cond_wait` without a signal, and the end of the window. -/
inductive Move where
  | video
  | write (word : Word)
  | signal
  | wake
  | close

/-- The condition variables that a write to `VIDEO_META_ADDRESS` signals. -/
def listeners (s : Screen) : List Cond :=
  (s.notification.filter fun n => n.addr == videoMetaAddress).map Notification.cond

/-- A thread that waits for a condition variable returns when it is signalled. -/
def signalled (s : Screen) (cond : Cond) : Stage :=
  if s.stage = .waiting ∧ cond = metaMemoryWritten then .woken else s.stage

/-- A move, where it can be made. There is one guest, which has signalled all before it writes again. -/
def next : Move → Screen → Option Screen
  | .video, s => s.step
  | .write word, s =>
    if s.signals ≠ [] then none
    else if s.stage = .attach then some s
    else
      match memoryWordSet s.metadata 0 word with
      | .ok memory => some { s with metadata := memory, signals := s.listeners }
      | .error _ => some s
  | .signal, s =>
    match s.signals with
    | [] => none
    | cond :: rest => some { s with stage := s.signalled cond, signals := rest }
  | .wake, s => if s.stage = .waiting then some { s with stage := .woken } else none
  | .close, s => some { s with window := false }

/-- When the thread waits and no signal is to come, the buffer that `VMeta` says is displayed. -/
def Follows (s : Screen) : Prop :=
  s.stage = .waiting → metaMemoryWritten ∉ s.signals → s.buffer = some (videoBuffer (bufferBit s.metaWord))

/-- `VMeta` has its first word, and the thread has not made its copy, or has read `VMeta` since it has waited. -/
def Deaf (s : Screen) : Prop :=
  match s.stage with
  | .buffers | .register | .open | .copy | .condition | .switch _ => True
  | .attach | .enable | .waiting | .woken | .ended => False

/-- A write that comes at such a time leaves the buffer bit as it is. -/
def Steady (s : Screen) (m : Move) : Prop :=
  ∀ word, m = .write word → s.Deaf → bufferBit word = bufferBit s.metaWord

/-! ### The invariant -/

/-- The displayed buffer is that of the copy, and `VMeta` agrees with the copy, or the thread is going to read it. -/
def Agrees (s : Screen) : Prop :=
  match s.stage with
  | .attach | .enable | .ended => True
  | .buffers => bufferBit s.metaWord = 0
  | .register | .open | .copy => bufferBit s.metaWord = 0 ∧ s.buffer = some (videoBuffer 0)
  | .condition => bufferBit s.metaWord = bufferBit s.flags ∧ s.buffer = some (videoBuffer (bufferBit s.flags))
  | .waiting => (bufferBit s.metaWord = bufferBit s.flags ∨ metaMemoryWritten ∈ s.signals) ∧
      s.buffer = some (videoBuffer (bufferBit s.flags))
  | .woken => s.buffer = some (videoBuffer (bufferBit s.flags))
  | .switch newFlags => bufferBit s.metaWord = bufferBit newFlags ∧
      s.buffer = some (videoBuffer (bufferBit s.flags))

/-- The memory is that of `video_create`, and so is the notification. -/
structure Sound (s : Screen) : Prop where
  size : s.metadata.size = videoMetaSize
  mode : s.metadata.mode = .rw
  notification : s.notification = if s.stage.registered then [⟨videoMetaAddress, metaMemoryWritten⟩] else []
  agrees : s.Agrees

end Screen

section
open Screen
variable {s s' : Screen} {m : Screen.Move} {w : Word}

/-- The word of `VMeta` is read. -/
lemma Screen.Sound.get (h : s.Sound) : memoryWordGet s.metadata 0 = .ok s.metaWord := by
  have hfit : ¬ s.metadata.size < (0 : Addr) + wordSize := by
    rw [h.size]
    decide
  have haligned : ¬ (0 : Addr) % wordSize ≠ 0 := by decide
  rw [memoryWordGet, if_neg haligned, if_neg hfit]
  rfl

/-- The word of `VMeta` is set. -/
lemma Screen.Sound.set (h : s.Sound) (w : Word) : memoryWordSet s.metadata 0 w =
    .ok { s.metadata with raw := fun i => if i = 0 then w else s.metadata.raw i } := by
  have hfit : ¬ s.metadata.size < (0 : Addr) + wordSize := by
    rw [h.size]
    decide
  have haligned : ¬ (0 : Addr) % wordSize ≠ 0 := by decide
  rw [memoryWordSet, if_neg (not_not.mpr h.mode), if_neg haligned, if_neg hfit]
  rfl

/-- The bits differ exactly when the words do in that bit. -/
lemma bufferBit_xor (v w : Word) : (v ^^^ w) &&& videoBitBuffer ≠ 0 ↔ bufferBit v ≠ bufferBit w := by
  have h : (v ^^^ w) &&& videoBitBuffer = bufferBit v ^^^ bufferBit w := by
    ext i hi
    simp only [bufferBit, BitVec.getElem_and, BitVec.getElem_xor, Bool.and_xor_distrib_right]
  rw [h]
  exact not_congr BitVec.xor_eq_zero_iff

/-- A step of the video. -/
lemma step_sound (h : s.Sound) (hs : s.step = some s') : s'.Sound := by
  obtain ⟨stage, metadata, notification, buffer, window, flags, signals⟩ := s
  obtain ⟨hsize, hmode, hnotification, hagrees⟩ := id h
  cases stage with
  | attach =>
    cases hs
    exact ⟨hsize, hmode, hnotification, trivial⟩
  | enable =>
    rw [Screen.step, setMeta, h.set] at hs
    cases hs
    have hbit : bufferBit videoBitEnabled = 0 := by decide
    exact ⟨hsize, hmode, hnotification, hbit⟩
  | buffers =>
    cases hs
    exact ⟨hsize, hmode, hnotification, hagrees, rfl⟩
  | register =>
    cases hs
    have hnone : notification = [] := hnotification
    subst hnone
    exact ⟨hsize, hmode, rfl, hagrees⟩
  | «open» =>
    cases hs
    exact ⟨hsize, hmode, hnotification, hagrees⟩
  | copy =>
    obtain ⟨hbit, hbuffer⟩ := hagrees
    have hget := h.get
    simp only [Screen.step, hget] at hs
    cases hs
    refine ⟨hsize, hmode, hnotification, rfl, ?_⟩
    rw [hbit]
    exact hbuffer
  | condition =>
    cases hs
    cases window with
    | true => exact ⟨hsize, hmode, hnotification, .inl hagrees.1, hagrees.2⟩
    | false => exact ⟨hsize, hmode, hnotification, trivial⟩
  | waiting => cases hs
  | woken =>
    have hget := h.get
    simp only [Screen.step, hget] at hs
    cases hs
    exact ⟨hsize, hmode, hnotification, rfl, hagrees⟩
  | switch newFlags =>
    obtain ⟨hbit, hbuffer⟩ := hagrees
    cases hs
    refine ⟨hsize, hmode, hnotification, hbit, ?_⟩
    -- The buffer is switched only when its bit differs from the copy.
    by_cases hx : (flags ^^^ newFlags) &&& videoBitBuffer ≠ 0
    · exact if_pos hx
    · have hsame : bufferBit flags = bufferBit newFlags := not_not.mp fun hne => hx ((bufferBit_xor _ _).mpr hne)
      rw [← hsame]
      exact (if_neg hx).trans hbuffer
  | ended => cases hs

/-- The first part of a write of the guest. -/
lemma write_sound (h : s.Sound) (hd : s.Deaf → bufferBit w = bufferBit s.metaWord)
    (hs : Screen.next (.write w) s = some s') : s'.Sound := by
  obtain ⟨stage, metadata, notification, buffer, window, flags, signals⟩ := s
  obtain ⟨hsize, hmode, hnotification, hagrees⟩ := id h
  obtain ⟨_, hs⟩ := Option.ite_none_left_eq_some.mp hs
  split at hs
  · cases hs
    exact h
  next hattach =>
    simp only [h.set] at hs
    cases hs
    refine ⟨hsize, hmode, hnotification, ?_⟩
    cases stage with
    | attach => exact absurd rfl hattach
    | enable => trivial
    | buffers => exact (hd trivial).trans hagrees
    | register | «open» | copy => exact ⟨(hd trivial).trans hagrees.1, hagrees.2⟩
    | condition => exact ⟨(hd trivial).trans hagrees.1, hagrees.2⟩
    | waiting =>
      have hnotify : notification = [⟨videoMetaAddress, metaMemoryWritten⟩] := hnotification
      subst hnotify
      exact ⟨.inr (List.mem_singleton.mpr rfl), hagrees.2⟩
    | woken => exact hagrees
    | switch newFlags => exact ⟨(hd trivial).trans hagrees.1, hagrees.2⟩
    | ended => trivial

/-- The signal to one listener. -/
lemma signal_sound (h : s.Sound) (hs : Screen.next .signal s = some s') : s'.Sound := by
  obtain ⟨stage, metadata, notification, buffer, window, flags, signals⟩ := s
  obtain ⟨hsize, hmode, hnotification, hagrees⟩ := id h
  cases signals with
  | nil => cases hs
  | cons cond rest =>
    cases hs
    by_cases hwait : stage = .waiting ∧ cond = metaMemoryWritten
    · obtain ⟨rfl, rfl⟩ := hwait
      exact ⟨hsize, hmode, hnotification, hagrees.2⟩
    · have hsame : Screen.signalled ⟨stage, metadata, notification, buffer, window, flags, cond :: rest⟩ cond =
          stage := if_neg hwait
      rw [hsame]
      refine ⟨hsize, hmode, hnotification, ?_⟩
      cases stage with
      | waiting =>
        -- The signal is for another variable, so that of `VMeta` is still to come if it was.
        refine ⟨hagrees.1.imp_right fun hm => ?_, hagrees.2⟩
        exact (List.mem_cons.mp hm).resolve_left fun e => hwait ⟨rfl, e.symm⟩
      | _ => exact hagrees

/-- A move that is steady. -/
lemma next_sound (h : s.Sound) (hsteady : s.Steady m) (hs : Screen.next m s = some s') : s'.Sound := by
  cases m with
  | video => exact step_sound h hs
  | write w => exact write_sound h (hsteady w rfl) hs
  | signal => exact signal_sound h hs
  | wake =>
    obtain ⟨hp, hs⟩ := Option.ite_none_right_eq_some.mp hs
    obtain ⟨stage, metadata, notification, buffer, window, flags, signals⟩ := s
    cases hs
    cases hp
    exact ⟨h.size, h.mode, h.notification, h.agrees.2⟩
  | close =>
    cases hs
    exact ⟨h.size, h.mode, h.notification, h.agrees⟩

/-- A sound screen follows the memory. -/
lemma Screen.Sound.follows (h : s.Sound) : s.Follows := by
  obtain ⟨stage, metadata, notification, buffer, window, flags, signals⟩ := s
  rintro hp hm
  cases hp
  obtain ⟨hbit, hbuffer⟩ := h.agrees
  have hsame := hbit.resolve_right hm
  show buffer = some (videoBuffer (bufferBit (metadata.raw 0)))
  rw [show bufferBit (metadata.raw 0) = bufferBit flags from hsame]
  exact hbuffer

/-- **The displayed buffer** follows `VMeta` in every run in which the writes that come before the thread has its
copy, or between its reading and its waiting, leave the buffer bit as it is. -/
theorem display_follows {malloc : Nat → Word} {moves : List Screen.Move}
    (h : steps Screen.next moves (Screen.create malloc) = some s)
    (hm : Meets Screen.next Screen.Steady (Screen.create malloc) moves) : s.Follows := by
  have hsize : roundUp videoMetaSize = videoMetaSize := by decide
  have hcreate : (Screen.create malloc).Sound := ⟨hsize, rfl, rfl, trivial⟩
  exact (hm.invariant h hcreate fun _ _ _ hs hsteady h => next_sound hs hsteady h).follows

/-- A write of the guest to `VIDEO_META_ADDRESS`, on the bus that `vm_create` makes when the RAM ends below the
devices, sets the word of `VMeta` and signals the listener of the thread. -/
theorem busWordWrite_meta {malloc : Ref → Nat → Word} {ramSize : Addr} (hpos : 0 < ramSize)
    (hle : ramSize ≤ keyboardInAddress) : ∃ vm, vmCreate malloc ramSize true = some vm ∧
      ∀ heap, Shape vm.heap heap → ∀ memory, memoryWordSet (heap videoMetaRef) 0 w = .ok memory →
        busWordWrite heap vm.bus videoMetaAddress w =
          some (.ok (heap.set videoMetaRef memory, [metaMemoryWritten])) := by
  obtain ⟨vm, hvm, hperm, hproper, hapart, hsized, _⟩ := @vmCreate_zones _ true malloc hpos hle
  refine ⟨vm, hvm, fun heap hshape memory hset => ?_⟩
  let zone : Zone := ⟨videoMetaRef, videoMetaAddress, "VMeta", [⟨videoMetaAddress, metaMemoryWritten⟩]⟩
  have hz : zone ∈ vm.bus.zones := hperm.mem_iff.mpr (by decide)
  have hsize : (vm.heap videoMetaRef).size = videoMetaSize :=
    hsized ⟨videoMetaRef, videoMetaAddress, videoMetaSize⟩ (List.mem_append_left _
      (List.mem_append_right _ (List.mem_append_right _ List.mem_cons_self)))
  have hc : zone.Covers vm.heap videoMetaAddress.toNat := by
    refine ⟨Nat.le_refl _, Nat.lt_add_of_pos_right ?_⟩
    show 0 < (vm.heap videoMetaRef).size.toNat
    rw [hsize]
    decide
  have hoffset : translate zone videoMetaAddress = 0 := by decide
  rw [busWordWrite, findZone_shape hshape, findZone_covers hproper hapart hz hc]
  dsimp only
  rw [hoffset, hset]
  rfl

/-- Moves that create the video and bring its thread to wait. -/
def untilWaiting : List Screen.Move := [.video, .video, .video, .video, .video, .video, .video]

/-- A write while the thread waits. -/
theorem display_follows_waiting : ∃ s, steps Screen.next (untilWaiting ++ [.write 3, .signal, .video, .video, .video])
    (Screen.create fun _ => 0) = some s ∧ s.Follows := by
  obtain ⟨s, hs⟩ : ∃ s, steps Screen.next (untilWaiting ++ [.write 3, .signal, .video, .video, .video])
      (Screen.create fun _ => 0) = some s := ⟨_, rfl⟩
  refine ⟨s, hs, display_follows hs ?_⟩
  iterate 7 refine Meets.cons nofun rfl ?_
  refine Meets.cons (fun _ _ hd => False.elim hd) rfl ?_
  exact Meets.of_forall fun m hm _ w hw => by subst hw; exact absurd hm (by simp)

/-- A write before the thread has its copy is not displayed. -/
theorem not_display_follows_early : ∃ s, steps Screen.next
    [.video, .video, .video, .video, .write 3, .signal, .video, .video, .video] (Screen.create fun _ => 0) = some s ∧
    ¬ s.Follows := by
  refine ⟨_, rfl, fun h => ?_⟩
  have hbuffer := h rfl List.not_mem_nil
  exact absurd hbuffer (by decide)

end

end Thorium.Vm
