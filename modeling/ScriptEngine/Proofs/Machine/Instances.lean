import ScriptEngine.Proofs.Machine.Coercions
import ScriptEngine.Proofs.Machine.Compounds

/-!
The stub that makes instances. It checks the function, allocates an object with the shape that the function has for
its instances at the time, and calls the function with the object as receiver and with the arguments that it got
itself, but for the first two.
-/

namespace ScriptEngine

open State Builder

/-! ### The body -/

namespace Engine

open Machine (argumentAt callFunction enter maxJumps)
open Meaning (Progress)

section

variable {words : InstrId → Nat → Word} {call : Caller} {self : Activation} {s : Progress Word} {id a c : InstrId}
  {b : BlockId} {rest : List Instr}

end

variable {e : Engine} {T : Contents} {s : Stub} {f code shape : Word} {more : List Word}

/-- An instance that was made for a call: a new object with the shape that the function gives. -/
structure Instance (T : Contents) (e : Engine) (shape o : Word) (t : Engine) : Prop where
  noted : Noted e t t.heap
  built : ∃ store, e.heap.Built T 80 0 96 e.heap.transitions
    [(o, .object shape store []), (store, .store (List.replicate 8 e.heap.hole))] t.heap

end Engine
end ScriptEngine
