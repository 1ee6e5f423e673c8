import Thorium.Asm.Syntax

/-!
# The address resolver

Model of `src/asm/address_resolver.rs`. `resolve` runs over the nodes twice: `collect` builds the map
from labels and `#word` names to addresses, `checkAddresses` looks for the label of every `IA`
instruction. A panic is `none`.
-/

namespace Thorium.Asm
open Thorium.Isa

/-- The first loop of `resolve`: the map and the position after the nodes. -/
def collect (map : HashMap Word) (position : Word) :
    List Node → Option (Except String (HashMap Word × Word))
  | [] => some (.ok (map, position))
  | .directive (.word label _) :: nodes =>
    if map.containsKey label then some (.error s!"Label {label} used more than once")
    else (checkedAdd position 4).bind fun p => collect (map.insert label position) p nodes
  | .instruction i :: nodes =>
    (checkedAdd position (BitVec.ofNat 32 i.op.length)).bind fun p => collect map p nodes
  | .label label :: nodes =>
    if map.containsKey label then some (.error s!"Label {label} used more than once")
    else collect (map.insert label position) position nodes
  | .directive (.base _) :: nodes => collect map position nodes

/-- The second loop of `resolve`. -/
def checkAddresses (map : HashMap Word) : List Node → Except String Unit
  | [] => .ok ()
  | .instruction (.IA _ address _) :: nodes =>
    if map.containsKey address then checkAddresses map nodes
    else .error s!"Label {address} is missing"
  | _ :: nodes => checkAddresses map nodes

/-- `AddressResolver::resolve`. -/
def resolve (nodes : List Node) : Option (Except String (HashMap Word)) :=
  match collect .new 0 nodes with
  | none => none
  | some (.error err) => some (.error err)
  | some (.ok (map, _)) => some ((checkAddresses map nodes).map fun _ => map)

end Thorium.Asm
