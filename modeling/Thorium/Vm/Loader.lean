import Thorium.Vm.Bus

/-!
# Loading files

Model of `load_file` (`src/vm/main.c`).
-/

namespace Thorium.Vm

/-- The file given to `load_file`. -/
inductive File where
  | null
  | missing
  | content (bytes : List Byte)

variable [Host]

/-- The loop of `load_file`: words are read in the byte order of the host, and bytes after the last whole
word are left. The result is what `load_file` returns, with the memories. -/
def loadWords (heap : Heap) (bus : Bus) («from» totalWordsRead : Addr) :
    List Byte → Option (Bool × Heap)
  | b0 :: b1 :: b2 :: b3 :: bytes =>
    let word := Host.byteOrder.ofBytes b0 b1 b2 b3
    match busWordWrite heap bus («from» + totalWordsRead * wordSize) (vtoh word) with
    | some (.ok (heap, _)) => loadWords heap bus «from» (totalWordsRead + 1) bytes
    | some (.error _) => some (false, heap)
    | none => none
  | _ => some (true, heap)

/-- `load_file`. Nobody waits for the signals of its writes. -/
def loadFile (heap : Heap) (bus : Bus) (file : File) («from» : Addr) : Option (Bool × Heap) :=
  match file with
  | .null =>
    match busWordWrite heap bus «from» (vtoh 1) with
    | some (.ok (heap, _)) => some (true, heap)
    | some (.error _) => some (false, heap)
    | none => none
  | .missing => some (false, heap)
  | .content bytes => loadWords heap bus «from» 0 bytes

end Thorium.Vm
