import ScriptEngine.Graph.Builder
import ScriptEngine.Layout
import ScriptEngine.Stub.Properties

/-!
Inline caches. Each site that accesses a property has its own cache: a list of probes, each of
which remembers the slot of a key in objects of one shape, and dispatch code that compares the
receiver against the probes in order. What no probe knows goes to the miss stub.
-/

namespace ScriptEngine

/-- One remembered slot. Sites with a fixed key do not compare keys. -/
structure Probe where
  shape : Word
  key : Option Word
  slot : Nat
deriving DecidableEq, Inhabited

structure InlineCache where
  kind : CacheKind
  code : Word
  probes : List Probe := []
  /-- The site saw too many receivers and adds no more probes. -/
  megamorphic : Bool := false
deriving Inhabited

namespace InlineCache

open Builder

/-- Compare the receiver, and the key where there is one, against a probe; continue where it does
not match. -/
def probeBody (shape : InstrId) (key : Option InstrId) (probe : Probe) : BuildM Unit := do
  let hit ← newBlock
  let next ← newBlock
  let expected ← literal (.weak probe.shape)
  discard (comparePointer shape expected .eq)
  match key, probe.key with
  | some key, some probeKey =>
    let sameShape ← newBlock
    branch sameShape next
    switchTo sameShape
    let expected ← literal (.heap probeKey)
    discard (comparePointer key expected .eq)
    branch hit next
  | _, _ => branch hit next
  switchTo hit
  let slot ← literal (.smi probe.slot)
  discard (emit .cacheRet [slot])
  switchTo next

/-- Object, key and update flag to slot, as far as the probes know it. -/
def dispatchBody (kind : CacheKind) (probes : List Probe) : BuildM Unit := do
  let object ← cacheArg 0
  let miss ← newBlock
  discard (isSmi object)
  let heapObject ← newBlock
  branch miss heapObject
  switchTo heapObject
  unless probes.isEmpty do
    let key ← match kind with
      | .normal => some <$> cacheArg 1
      | .fixed => pure none
    let shape ← read object Layout.shape
    probes.forM (probeBody shape key)
  jump miss
  switchTo miss
  discard (emit .tailCall [.const (.stub Stub.missStub)])

/-- Dispatch code for a list of probes. -/
def dispatchGraph (kind : CacheKind) (probes : List Probe) : Except GraphError Graph :=
  build kind.name (dispatchBody kind probes)

end InlineCache
end ScriptEngine
