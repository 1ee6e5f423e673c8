import Thorium.Asm.Registers
import Thorium.Asm.RoundTrip
import Thorium.Asm.Layout
import Thorium.Asm.Bases
import Thorium.Asm.Choice
import Thorium.Vm.Zones
import Thorium.Vm.Decode
import Thorium.Vm.Faults
import Thorium.Vm.Interrupts
import Thorium.Vm.Guests
import Thorium.Vm.Debugging
import Thorium.Vm.Flags
import Thorium.Vm.Advance
import Thorium.Thi.Tables
import Thorium.Vm.Bounds
import Thorium.Vm.Flat
import Thorium.Vm.Stop
import Thorium.Vm.Wakeup
import Thorium.Vm.Video
import Thorium.Vm.Calls
import Thorium.Vm.Attach
import Thorium.Vm.Listeners
import Thorium.Vm.Saving
import Thorium.Vm.Compare
import Thorium.Vm.Overflow
import Thorium.Vm.Creation
import Thorium.Vm.Loading
import Thorium.Vm.Dump
import Thorium.Vm.Printing
import Thorium.Vm.Disassembly
import Thorium.Vm.Opts
import Thorium.Asm.Numerals
import Thorium.Asm.Positions
import Thorium.Vm.DebuggerLexer
import Thorium.Thi.Ending
import Thorium.Thi.Agreement
import Thorium.Vm.Factorial
import Thorium.Vm.Fibonacci
import Thorium.Vm.Recursion
import Thorium.Vm.Source
import Thorium.Vm.Reassembly
import Thorium.Vm.Start
