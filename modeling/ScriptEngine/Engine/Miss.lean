import ScriptEngine.Engine.Compile

/-!
Misses of inline caches. The host looks the slot up, adds a probe for what it found, and
generates the dispatch code of the cache anew.
-/

namespace ScriptEngine.Engine

/-- Compile the dispatch code of a cache and put it in place of the old one. -/
def regenerate (cache : InlineCache) : CompileM Unit :=
  withScope .persistent do
    let graph ← buildGraph (InlineCache.dispatchGraph cache.kind cache.probes)
    let fresh ← compileUnit graph .cache #[]
    let entry ← askHeap .heap (·.codeEntry fresh)
    let length ← askHeap .heap (·.codeLength fresh)
    let record ← askHeap .heap (·.codeRecord fresh)
    onHeap .heap (Heap.installEntry cache.code entry length)
    onHeap .heap (Heap.modifyRecord cache.code fun _ => record)

/-- The state of an inline cache. -/
def cacheOf (function : Word) : CompileM InlineCache := do
  match (← get).caches[function]? with
  | some cache => return cache
  | none =>
    throw (.internal "getPropertySlot" ("0x" ++ Word.hex function.toNat ++ " is not an IC"))

/-- Remember a slot. A key that was not in its stored form (`exact`) is not remembered where keys
are compared, since such a probe could never match. At the limit the site gives up. -/
def recordProbe (function shape key : Word) (exact : Bool) (slot : Nat) : CompileM Unit := do
  let cache ← cacheOf function
  if cache.megamorphic ∨ (cache.kind = .normal ∧ !exact) then return ()
  if (← get).config.probeLimit ≤ cache.probes.length then
    emitEvent (.warning "inline cache is megamorphic")
    modify fun e => { e with caches := e.caches.insert function { cache with megamorphic := true } }
  else
    let probe : Probe := { shape, key := if cache.kind = .normal then some key else none, slot }
    if probe ∉ cache.probes then
      let cache := { cache with probes := cache.probes ++ [probe] }
      regenerate cache
      modify fun e => { e with caches := e.caches.insert function cache }

/-- Shape of a receiver whose slots may be remembered: dense objects, and objects with a shape of
their own, are laid out each in its own way. -/
def cacheableShape? (h : Heap) (object : Word) : Option Word :=
  (h.shapeOf? object).filter fun shape =>
    let flags := h.shapeFlags shape
    flags.contains .transition && !flags.contains .dense

/-- Slot of a property for an inline cache, or `undefined`. With `update`, a missing property is
added; the object then moves to another shape, which the next access remembers. -/
def getPropertySlot (function object key update : Word) : RunM Word := do
  let h := (← get).heap
  if !h.isObject object then return h.undefined
  let stored ← onHeap .heap (Heap.propertyKey object key)
  let h := (← get).heap
  match h.ownSlot? object stored with
  | some slot =>
    match cacheableShape? h object with
    | none => return .smi slot
    | some shape =>
      fun e =>
        match (recordProbe function shape stored (key == stored) slot).run e with
        | .ok _ e => .ok (.smi slot) e
        | .error err e => .error (.compile err) e
  | none =>
    if h.truthy update then
      match ← onHeap .heap (Heap.lookupSlot object stored true) with
      | some slot => return .smi slot
      | none => return h.undefined
    else return h.undefined

end ScriptEngine.Engine
