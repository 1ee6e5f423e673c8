import Thorium.Vm.Memory

/-!
# The bus

Model of `src/vm/bus.c`. Memories are shared between the bus and the devices, so a zone holds a
reference into a `Heap`. `abort()` is `none`.
-/

namespace Thorium.Vm

/-- `Memory *` -/
abbrev Ref := Nat

/-- The memories there are. -/
abbrev Heap := Ref → Memory

/-- `pthread_cond_t *`: the variable `pic_got_interrupt`, or one of a device. -/
inductive Cond where
  | picGotInterrupt
  | device (n : Nat)
  deriving DecidableEq, Repr

/-- `Notification`, without its link to the next. -/
structure Notification where
  addr : Addr
  cond : Cond
  deriving DecidableEq, Repr

/-- `Zone`. Its `notification` is a linked list. -/
structure Zone where
  memory : Ref
  «from» : Addr
  name : String
  notification : List Notification
  deriving DecidableEq, Repr

/-- `Bus`: the first `zones_count` elements of `zones`. The count is a `uint8_t`. -/
structure Bus where
  zones : List Zone
  count : zones.length < 256

/-- `BusError` -/
inductive BusError where
  | zoneOutOfOrder | invalidAddress | illegalAccess
  deriving DecidableEq, Repr

/-- `bus_create` -/
def busCreate : Bus := ⟨[], Nat.zero_lt_succ _⟩

/-- `memory_max_address` -/
def memoryMaxAddress (memory : Memory) (base : Addr) : Addr := memory.size + base - 1

/-- `in_zone` -/
def inZone (heap : Heap) (zone : Zone) (address : Addr) : Bool :=
  decide (zone.from ≤ address) && decide (address ≤ memoryMaxAddress (heap zone.memory) zone.from)

/-- The zones in which the second loop of `bus_memory_attach` goes on. -/
def passes (heap : Heap) («from» : Addr) (zone : Zone) : Bool :=
  !decide («from» < memoryMaxAddress (heap zone.memory) zone.from)

/-- `bus_memory_attach`. The last `zones_count++` wraps around at 256. -/
def busMemoryAttach (heap : Heap) (bus : Bus) (memory : Ref) («from» : Addr) (name : String) :
    Except BusError Bus :=
  if bus.zones.any fun zone => inZone heap zone «from» then .error .zoneOutOfOrder
  else
    let zones := bus.zones.takeWhile (passes heap «from») ++
      ⟨memory, «from», name, []⟩ :: bus.zones.dropWhile (passes heap «from»)
    .ok {
      zones := zones.take ((bus.zones.length + 1) % 256)
      count := Nat.lt_of_le_of_lt (List.length_take_le _ _) (Nat.mod_lt _ (Nat.zero_lt_succ _)) }

/-- `find_zone` -/
def findZone (heap : Heap) (bus : Bus) (address : Addr) : Option Zone :=
  bus.zones.find? fun zone => inZone heap zone address

/-- `translate` -/
def translate (zone : Zone) (address : Addr) : Addr := address - zone.from

/-- What `bus_word_read` and `bus_word_write` return for an error of the memory. -/
def memoryError {α : Type} : MemError → Option (Except BusError α)
  | .notAligned => some (.error .invalidAddress)
  | .notWritable => some (.error .illegalAccess)
  | .outOfBound => none

/-- `bus_word_read` -/
def busWordRead (heap : Heap) (bus : Bus) (address : Addr) : Option (Except BusError Word) :=
  match findZone heap bus address with
  | some zone =>
    match memoryWordGet (heap zone.memory) (translate zone address) with
    | .ok word => some (.ok word)
    | .error e => memoryError e
  | none => some (.error .invalidAddress)

/-- A memory in the place of another. -/
def Heap.set (heap : Heap) (ref : Ref) (memory : Memory) : Heap :=
  fun r => if r = ref then memory else heap r

/-- `bus_word_write`, with the condition variables it signals. -/
def busWordWrite (heap : Heap) (bus : Bus) (address : Addr) (word : Word) :
    Option (Except BusError (Heap × List Cond)) :=
  match findZone heap bus address with
  | some zone =>
    match memoryWordSet (heap zone.memory) (translate zone address) word with
    | .ok memory =>
      let listeners := zone.notification.filter fun n => n.addr == address
      some (.ok (heap.set zone.memory memory, listeners.map Notification.cond))
    | .error e => memoryError e
  | none => some (.error .invalidAddress)

/-- A notification at the end of the list of a zone. -/
def Zone.listen (zone : Zone) (n : Notification) : Zone :=
  { zone with notification := zone.notification ++ [n] }

/-- `bus_notification_register` -/
def busNotificationRegister (heap : Heap) (bus : Bus) (cond : Cond) (addr : Addr) : Option Bus :=
  match bus.zones.findIdx? fun zone => inZone heap zone addr with
  | some i => some {
      zones := bus.zones.modify i fun zone => zone.listen ⟨addr, cond⟩
      count := by rw [List.length_modify]; exact bus.count }
  | none => none

end Thorium.Vm
