import ScriptEngine.Engine.Miss
import ScriptEngine.Heap.Coercion

/-!
Callbacks of the host, which compiled code reaches through one stub. A callback that fails
records its error for the end of the call, the first one wins, and answers `undefined`.
-/

namespace ScriptEngine.Engine

/-- Keep an error until the call from outside returns. -/
def recordError (err : RunError) : RunM Unit :=
  modify fun e => { e with pending := e.pending.or (some err) }

def argument (args : List Word) (index : Nat) : RunM Word :=
  match args[index]? with
  | some value => return value
  | none =>
    throw (.compile (.internal "runtime" ("missing callback argument " ++ toString index)))

/-- Compilation from within a callback. -/
def compiling {α : Type} (act : CompileM α) : RunM α := fun e =>
  match act.run e with
  | .ok a e => .ok a e
  | .error err e => .error (.compile err) e

def heapStep {α : Type} (act : HeapM α) : RunM α := onHeap .heap act

/-- A boolean that only depends on the heap. -/
def answer (question : Heap → Bool) : RunM Word := do
  let h := (← get).heap
  return h.boolean (question h)

def arithmetic (op : Double → Double → Double) (left right : Word) : RunM Word := do
  let h := (← get).heap
  heapStep (Heap.number (op (h.toDouble left) (h.toDouble right)))

/-- Sum of numbers, or joined text if one of the operands is a string. -/
def addValues (left right : Word) : RunM Word := do
  let h := (← get).heap
  if (h.text? left).isSome || (h.text? right).isSome then
    heapStep (Heap.string (h.display left ++ h.display right))
  else arithmetic .add left right

def instanceOf (object constructor : Word) : RunM Word := do
  match ← heapStep (Heap.instanceOf object constructor) with
  | some result => return (← get).heap.boolean result
  | none =>
    throw (.type ("right-hand side of 'instanceof' is not callable: " ++
      (← get).heap.display constructor))

/-- Allocation when the page is full: the heap moves on to another page. -/
def allocSlow (shape size : Word) : RunM Word := do
  match size.toSmi? with
  | some n =>
    if 0 ≤ n then heapStep (Heap.allocYoung shape n.toNat)
    else throw (.compile (.internal "allocTagged" "size is not a Smi"))
  | none => throw (.compile (.internal "allocTagged" "size is not a Smi"))

/-- Something else than a function was called: note the error and go on with a function that does
nothing. -/
def typeError (callee : Word) : RunM Word := do
  let message := (← get).heap.display callee ++ " is not a function"
  emitEvent (.warning message)
  recordError (.type message)
  return (← compiling (getStub "noop")).function

/-- Write a line. -/
def log (value : Word) : RunM Word := do
  let line := (← get).heap.display value
  if (← get).outputOpen then modify fun e => { e with output := e.output ++ line ++ "\n" }
  else emitEvent (.warning "failed to write log output")
  return (← get).heap.undefined

/-- The callback with a name. -/
def callback (name : String) (args : List Word) : RunM Word := do
  let arg := argument args
  match name with
  | "loadProperty" =>
    let object ← arg 0
    let key ← arg 1
    heapStep (Heap.getProperty object key)
  | "storeProperty" =>
    let object ← arg 0
    let key ← arg 1
    let value ← arg 2
    heapStep (Heap.setProperty object key value)
    return value
  | "deleteProperty" =>
    let object ← arg 0
    let key ← arg 1
    let deleted ← heapStep (Heap.deleteProperty object key)
    return (← get).heap.boolean deleted
  | "getPropertySlot" =>
    match args with
    | [cache, object, key, update] => getPropertySlot cache object key update
    | _ =>
      throw (.compile (.internal "getPropertySlot"
        ("expected 4 arguments, got " ++ toString args.length)))
  | "allocTagged" =>
    let shape ← arg 0
    allocSlow shape (← arg 1)
  | "coerce/boolean" =>
    let value ← arg 0
    answer (·.truthy value)
  | "unary/-" =>
    let value ← arg 0
    heapStep (Heap.number ((← get).heap.toDouble value).neg)
  | "typeError" => typeError (← arg 0)
  | "log" => log (← arg 0)
  | _ =>
    let left ← arg 0
    let right ← arg 1
    match name with
    | "binary/+" => addValues left right
    | "binary/-" => arithmetic .sub left right
    | "binary/*" => arithmetic .mul left right
    | "binary/<" => answer fun h => h.compare? left right == some .lt
    | "binary/<=" => answer fun h => (h.compare? left right).any (· != .gt)
    | "binary/===" => answer (·.strictEquals left right)
    | "binary/!==" => answer fun h => !h.strictEquals left right
    | "binary/instanceof" => instanceOf left right
    | other => throw (.compile (.unknownCallback other))

/-- Find the callback that the first argument names, and call it with the rest. -/
def dispatch (args : List Word) : RunM Word := do
  match args with
  | [] => throw (.compile (.internal "runtime" "called without a callback id"))
  | first :: rest =>
    match first.toSmi? with
    | none =>
      throw (.compile (.internal "runtime" ("bad callback id 0x" ++ Word.hex first.toNat)))
    | some id =>
      if id < 0 then
        throw (.compile (.internal "runtime" ("bad callback id 0x" ++ Word.hex first.toNat)))
      else match callbackNames[id.toNat]? with
        | none => throw (.compile (.unknownCallback ("#" ++ toString id)))
        | some name =>
          emitEvent (.callback name rest.length)
          callback name rest

/-- A call into the host: failures are recorded, and never pass into compiled code. -/
def callHost (args : List Word) : RunM Word := fun e =>
  match (dispatch args).run e with
  | .ok value e => .ok value e
  | .error err e => (do recordError err; return (← get).heap.undefined : RunM Word) e

end ScriptEngine.Engine
