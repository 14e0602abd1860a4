import ScriptEngine.Heap.Error

/-!
Scopes of roots. Values that must stay alive while nothing else refers to them are recorded in
the innermost scope. Leaving a temporary scope releases its roots; a persistent scope passes
its roots on to the set that lives as long as the heap.
-/

namespace ScriptEngine

inductive ScopeKind where
  | temporary
  | persistent
deriving DecidableEq, Inhabited

structure ScopeFrame where
  id : Nat
  kind : ScopeKind
  roots : List Word := []
deriving Inhabited

/-- Nested scopes, innermost first, and the roots that live for ever. -/
structure Scopes where
  persistent : List Word := []
  frames : List ScopeFrame := []
  nextId : Nat := 0
deriving Inhabited

namespace Scopes

/-- Open a scope; the answer names it. -/
def enter (s : Scopes) (kind : ScopeKind) : Nat × Scopes :=
  (s.nextId, { s with frames := ⟨s.nextId, kind, []⟩ :: s.frames, nextId := s.nextId + 1 })

/-- The scope that stands for none in a mismatch. -/
def noScope : Nat := 2 ^ 64 - 1

/-- Close a scope, which must be the innermost one. -/
def leave (s : Scopes) (id : Nat) : Except HeapError Scopes :=
  match s.frames with
  | [] => .error (.scopeMismatch id noScope)
  | frame :: outer =>
    if frame.id = id then .ok { s with frames := outer }
    else .error (.scopeMismatch id frame.id)

/-- Record a root; small integers need none. -/
def root (s : Scopes) (value : Word) : Scopes :=
  if value.isSmi then s
  else match s.frames with
    | frame :: outer =>
      match frame.kind with
      | .temporary => { s with frames := { frame with roots := value :: frame.roots } :: outer }
      | .persistent => { s with persistent := value :: s.persistent }
    | [] => { s with persistent := value :: s.persistent }

def depth (s : Scopes) : Nat := s.frames.length

def rootCount (s : Scopes) : Nat :=
  s.frames.foldl (fun n f => n + f.roots.length) s.persistent.length

end Scopes
end ScriptEngine
