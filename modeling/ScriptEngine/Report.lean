import ScriptEngine.Engine.Basic

/-!
Structured reports about heaps and engines. Addresses differ from one engine to the next and are
left out: objects, shapes and pointers are numbered in the order in which reports first mention
them.
-/

namespace ScriptEngine

inductive Report where
  | null
  | flag (b : Bool)
  | number (n : Int)
  | text (s : String)
  | list (items : List Report)
  | record (fields : List (String × Report))
deriving Inhabited

namespace Report

def nat (n : Nat) : Report := .number n

/-- What may be absent. -/
def optional {α : Type} (f : α → Report) : Option α → Report
  | some a => f a
  | none => null

/-- Things that have a number so far, in order. -/
structure Numbering where
  objects : Array Word := #[]
  shapes : Array Word := #[]
  pointers : Array (List Char) := #[]
deriving Inhabited

end Report

/-- Writing reports, which numbers what they mention. -/
abbrev ReportM := StateM Report.Numbering

namespace Report

/-- Place of an item in a list, at the end if it is new. -/
def place {α : Type} [BEq α] (known : Array α) (item : α) : Nat × Array α :=
  match known.toList.idxOf? item with
  | some i => (i, known)
  | none => (known.size, known.push item)

def objectNumber (value : Word) : ReportM Report := do
  let (i, objects) := place (← get).objects value
  modify ({ · with objects })
  return nat i

/-- Sixteen hexadecimal digits. -/
def hex16 (n : Nat) : String :=
  let digits := Nat.toDigits 16 n
  String.ofList (List.replicate (16 - digits.length) '0' ++ digits)

/-- Bits of a double; all that are no number look the same. -/
def doubleBits (n : Double) : String := if n.isNaN then "nan" else hex16 n.bits.toNat

def isHexDigit (c : Char) : Bool := c.isDigit || ('a' ≤ c && c ≤ 'f')

/-- Replace each number of nine or more hexadecimal digits after `0x` by `#`. -/
def maskAddresses (text : String) : String := String.ofList (go text.toList text.length)
where
  go : List Char → Nat → List Char
    | '0' :: 'x' :: rest, fuel + 1 =>
      let (digits, tail) := rest.span isHexDigit
      '0' :: 'x' :: (if 9 ≤ digits.length then ['#'] else digits) ++ go tail fuel
    | c :: rest, fuel + 1 => c :: go rest fuel
    | rest, _ => rest

/-- Replace pointers in a dump by their numbers. -/
def numberPointers (text : String) : ReportM String := do
  return String.ofList (← go text.toList text.length)
where
  go : List Char → Nat → ReportM (List Char)
    | 'P' :: 't' :: 'r' :: '(' :: '0' :: 'x' :: rest, fuel + 1 => do
      let (digits, tail) := rest.span isHexDigit
      let (i, pointers) := place (← get).pointers digits
      modify ({ · with pointers })
      return "Ptr(#".toList ++ (toString i).toList ++ (← go tail fuel)
    | c :: rest, fuel + 1 => return c :: (← go rest fuel)
    | rest, _ => return rest

end Report

open Report

namespace Heap

/-- A value: its kind, and its number or contents. -/
def reportValue (h : Heap) (value : Word) : ReportM Report := do
  match h.inspect value with
  | .undefined => return record [("t", text "undefined")]
  | .null => return record [("t", text "null")]
  | .hole => return record [("t", text "hole")]
  | .bool b => return record [("t", text "bool"), ("v", flag b)]
  | .int n => return record [("t", text "int"), ("v", text (toString n))]
  | .number n =>
    return record [("t", text "number"), ("bits", text (doubleBits n)), ("v", text n.display)]
  | .text s => return record [("t", text "string"), ("v", text s)]
  | .function => return record [("t", text "function"), ("id", ← objectNumber value)]
  | .array length =>
    return record [("t", text "array"), ("len", nat length), ("id", ← objectNumber value)]
  | .object => return record [("t", text "object"), ("id", ← objectNumber value)]

/-- Name of a shape: root shapes have their own, others are numbered. -/
def reportShapeName (h : Heap) (shape : Word) : ReportM Report := do
  match RootShape.all.find? fun kind => h.rootShape kind == shape with
  | some kind => return text kind.name
  | none =>
    let (i, shapes) := place (← get).shapes shape
    modify ({ · with shapes })
    return text ("m" ++ toString i)

/-- Name, flags and prototype of a shape. -/
def reportShape (h : Heap) (shape : Word) : ReportM (List (String × Report)) := do
  let name ← h.reportShapeName shape
  let proto ← h.reportValue (h.shapeProto shape)
  return [("map", name), ("flags", nat (h.shapeFlags shape).bits), ("proto", proto)]

/-- Contents of an object: its shape, its storage, and for a function the shape of instances. -/
def reportObject (h : Heap) (value : Word) : ReportM Report := do
  match h.shapeOf? value, h.isObject value with
  | some shape, true =>
    let info ← h.reportShape shape
    let store := h.storeOf value
    let words := h.storeLength store
    let items ←
      if h.isDense value then
        (List.range words).mapM fun i => h.reportValue (h.readSlot value i)
      else
        let slots := (List.range (h.itemCount store)).filter fun i => h.itemKey store i != h.hole
        slots.mapM fun i => do
          let key ← h.reportValue (h.itemKey store i)
          return list [nat i, key, ← h.reportValue (h.readSlot value i)]
    let base := info ++ [("words", nat words), ("items", list items)]
    match h.instanceShape value with
    | .ok shape => return record (base ++ [("instance", record (← h.reportShape shape))])
    | .error _ => return record base
  | _, _ => return record [("not_object", ← h.reportValue value)]

/-- Use of the young space, and the roots. -/
def reportStats (h : Heap) : Report :=
  record [("pages", nat h.young.pageCount), ("bytes", nat h.young.allocatedBytes),
    ("roots", nat h.scopes.rootCount), ("scopes", nat h.scopes.depth)]

end Heap

def Event.report : Event → ReportM Report
  | warning message => return record [("e", text "warn"), ("message", text message)]
  | failure message detail =>
    return record ([("e", text "error"), ("message", text message)] ++
      (detail.map fun d => ("detail", text d)).toList)
  | dump unit kind stage dumped => do
    let base := [("e", text "dump"), ("unit", text unit), ("kind", text kind.name),
      ("stage", text stage)]
    match dumped with
    | some t => return record (base ++ [("text", text (← numberPointers t))])
    | none => return record base
  | compiled unit kind depth outer instrs =>
    return record [("e", text "compiled"), ("unit", text unit), ("kind", text kind.name),
      ("depth", nat depth), ("outer", text (outer.getD "-")), ("instrs", nat instrs)]
  | callback name argc =>
    return record [("e", text "call"), ("name", text name), ("argc", nat argc)]
  | pass p =>
    return record [("e", text "pass"), ("pass", text p.pass), ("function", text p.function),
      ("instrs", nat p.instrs)]

/-- State of an inline cache. -/
def InlineCache.report (c : InlineCache) : Report :=
  list [text c.kind.name, nat c.probes.length, flag c.megamorphic]

/-- Order of inline caches in a report. -/
def InlineCache.reportsBefore (a b : InlineCache) : Bool :=
  if a.kind ≠ b.kind then a.kind = .fixed
  else if a.probes.length ≠ b.probes.length then a.probes.length < b.probes.length
  else !a.megamorphic || b.megamorphic

namespace Engine

/-- Inline caches, stubs, compilations in progress and the heap. -/
def reportStats (e : Engine) : Report :=
  let caches := e.caches.values.mergeSort InlineCache.reportsBefore
  record [("ics", list (caches.map InlineCache.report)), ("stubs", nat e.stubs.compiled.size),
    ("depth", nat e.contexts.depth), ("heap", e.heap.reportStats)]

/-- Name and references of a code object. -/
def reportCode (e : Engine) (r : CodeRecord) : ReportM Report := do
  let strong ← r.strong.toList.mapM e.heap.reportValue
  let weak ← r.weak.toList.mapM e.heap.reportShapeName
  return record [("name", text r.name), ("strong", list strong), ("weak", list weak)]

end Engine
end ScriptEngine
