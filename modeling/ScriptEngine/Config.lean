import ScriptEngine.Heap.Basic
import ScriptEngine.Text.Quoted

/-!
Configuration of an engine, and the text forms of its settings.
-/

namespace ScriptEngine

/-- How hard machine code is optimised. No result depends on it. -/
inductive OptLevel where
  | none | speed | speedAndSize
deriving DecidableEq, Inhabited

namespace OptLevel

def render : OptLevel → String
  | none => "none"
  | speed => "speed"
  | speedAndSize => "speed_and_size"

def parse (text : String) : Except String OptLevel :=
  match text with
  | "none" | "0" => .ok none
  | "speed" | "1" => .ok speed
  | "speed_and_size" | "2" => .ok speedAndSize
  | other => .error ("unknown opt level '" ++ other ++ "'")

end OptLevel

/-- Stages of compilation after which a dump is made. -/
structure TraceStages where
  cfg : Bool := false
  opt : Bool := false
  lowered : Bool := false
  /-- Machine code, before it is encoded. -/
  machine : Bool := false
deriving DecidableEq, Inhabited

namespace TraceStages

def all : TraceStages := ⟨true, true, true, true⟩

def any (t : TraceStages) : Bool := t.cfg || t.opt || t.lowered || t.machine

/-- Ask for one more stage. -/
def add (t : TraceStages) (part : String) : Except String TraceStages :=
  match part with
  | "all" => .ok all
  | "cfg" => .ok { t with cfg := true }
  | "opt" => .ok { t with opt := true }
  | "lowered" => .ok { t with lowered := true }
  | "clif" => .ok { t with machine := true }
  | other => .error ("unknown trace stage '" ++ other ++ "'")

/-- Cut a text at its commas. -/
def parts : List Char → List (List Char)
  | [] => [[]]
  | c :: rest =>
    if c = ',' then [] :: parts rest
    else match parts rest with
      | first :: others => (c :: first) :: others
      | [] => [[c]]

/-- Stages separated by commas, with blanks around them; empty parts are left out. -/
def parse (text : String) : Except String TraceStages :=
  let names := (parts text.toList).map Text.trim |>.filter (· ≠ [])
  names.foldlM (fun t part => t.add (String.ofList part)) {}

end TraceStages

structure Config where
  heap : HeapConfig := {}
  trace : TraceStages := {}
  /-- Put a debug trap at the entry of every function. -/
  trapOnEntry : Bool := false
  /-- Whether a debug trap ends the run, or is only counted. -/
  stopAtTrap : Bool := false
  /-- Entries that an inline cache may hold. -/
  probeLimit : Nat := 4
  optLevel : OptLevel := .speed
deriving Inhabited

end ScriptEngine
