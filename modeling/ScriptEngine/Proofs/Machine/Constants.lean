import ScriptEngine.Proofs.Engine.Keeping
import ScriptEngine.Proofs.Machine.Generation

/-!
The words of constants. When code has been generated, each word that it got still stands for its
constant, as far as the state of the engine can tell: stubs are kept, and so are the values that exist
from the start.
-/

namespace ScriptEngine

open State

namespace Engine

/-- The word stands for the constant. Nothing is said of numbers and inline caches, for which there may be
something new each time. -/
def Stands (nested : Array (Option Word)) (e : Engine) : Const → Word → Prop
  | .raw n, w => w = .ofInt n
  | .smi n, w => ∀ v ∈ Word.ofSmi? n, w = v
  | .text s, w => e.heap.strings[s]? = some w
  | .bool b, w => w = e.heap.boolean b
  | .undefined, w => w = e.heap.undefined
  | .null, w => w = e.heap.null
  | .hole, w => w = e.heap.hole
  | .heap v, w | .weak v, w => w = v
  | .stub name, w => ∃ s, e.stubs.compiled? name = some s ∧ w = s.function
  | .callback name, w => ∃ id, callbackId name = .ok id ∧ w = .smi id
  | .function index, w => nested[index]?.join = some w
  | .shape kind, w => w = e.heap.rootShape kind
  | _, _ => True

variable {nested : Array (Option Word)} {e e' : Engine} {c : Const} {w : Word}

theorem Stands.mono (h : Stands nested e c w)
    (hstubs : ∀ name s, e.stubs.compiled? name = some s → e'.stubs.compiled? name = some s)
    (hheap : e.heap.Retains e'.heap) : Stands nested e' c w := by
  cases c
  case stub name =>
    obtain ⟨s, hs, rfl⟩ := h
    exact ⟨s, hstubs name s hs, rfl⟩
  case text s => exact hheap.strings s w h
  case bool b =>
    exact (show w = e.heap.boolean b from h).trans (by simp only [Heap.boolean, hheap.trueValue, hheap.falseValue])
  case undefined => exact (show w = e.heap.undefined from h).trans hheap.undefined.symm
  case null => exact (show w = e.heap.null from h).trans hheap.null.symm
  case hole => exact (show w = e.heap.hole from h).trans hheap.hole.symm
  case shape kind => exact (show w = e.heap.rootShape kind from h).trans (by rw [hheap.rootShape])
  all_goals exact h

theorem stands_of_resolve {compile : UnitCompiler} (h : resolve compile nested c e = .ok w e') :
    Stands nested e' c w := by
  cases c
  case smi n =>
    intro v hv
    rw [resolve_small hv] at h
    cases h
    rfl
  case text s =>
    obtain ⟨heap, hrun, rfl⟩ := onHeap_eq_ok.mp h
    exact Heap.listed_of_string hrun
  case function index =>
    cases hcode : nested[index]?.join with
    | some code =>
      rw [resolve_code hcode] at h
      cases h
      exact hcode
    | none =>
      rw [resolve_missing hcode] at h
      exact (throw_eq_ok.mp h).elim
  case stub name =>
    obtain ⟨s, t, hstub, hpure⟩ := bind_eq_ok.mp h
    obtain ⟨rfl, rfl⟩ := pure_eq_ok.mp hpure
    exact ⟨s, compiled_of_stub hstub, rfl⟩
  case callback name =>
    obtain ⟨id, t, hlift, hpure⟩ := bind_eq_ok.mp h
    obtain ⟨rfl, rfl⟩ := pure_eq_ok.mp hpure
    cases hid : callbackId name with
    | ok id' =>
      rw [hid] at hlift
      obtain ⟨rfl, -⟩ := pure_eq_ok.mp hlift
      exact ⟨id', hid, rfl⟩
    | error err =>
      rw [hid] at hlift
      exact (throw_eq_ok.mp hlift).elim
  all_goals first
    | trivial
    | (cases h; rfl)

/-- The words that code generation got stand for their constants. -/
theorem Answered.stands {nesting : Nat} {log : List (Const × Word)}
    (h : Answered (resolve (compileNested nesting) nested) e log e') :
    ∀ c w, (c, w) ∈ log → Stands nested e' c w := by
  have hkept := lasting_retains.compileNested nesting
  refine (h.holds (I := fun _ => True) (P := Stands nested) trivial (fun _ hok => ⟨trivial, stands_of_resolve hok⟩)
    fun {c e w e' _ _} _ hok hold => hold.mono ?_ ?_).2
  · exact (finalState_ok hok ▸ remembering_resolve (grounding_compileNested nesting) nested c e : e.stubs.Grows _).kept
  · exact finalState_ok hok ▸ (lasting_retains.resolve hkept nested c e).1

end Engine
end ScriptEngine
