import Mathlib.Data.List.Forall2
import ScriptEngine.Heap.Objects
import ScriptEngine.Proofs.State

/-!
Heap operations and the scopes of roots. An operation opens and closes no scope; all that it may do
is to record roots, and it drops none that were recorded, also when it fails halfway.
-/

namespace ScriptEngine

/-- The same scopes, in which more roots may be recorded. -/
structure Scopes.Grows (s t : Scopes) : Prop where
  frames : List.Forall₂ (fun f g => g.id = f.id ∧ g.kind = f.kind ∧ f.roots <:+ g.roots)
    s.frames t.frames
  persistent : s.persistent <:+ t.persistent

namespace Scopes.Grows

variable {s t u : Scopes}

theorem refl (s : Scopes) : s.Grows s :=
  ⟨List.forall₂_same.mpr fun _ _ => ⟨rfl, rfl, List.suffix_rfl⟩, List.suffix_rfl⟩

theorem trans (h : s.Grows t) (h' : t.Grows u) : s.Grows u where
  frames := by
    have hframes := h.frames
    have hframes' := h'.frames
    generalize s.frames = a at *
    generalize t.frames = b at *
    generalize u.frames = c at *
    induction hframes generalizing c with
    | nil => exact hframes'
    | cons hfirst _ ih =>
      cases hframes' with
      | cons hsecond hrest =>
        obtain ⟨hid, hkind, hroots⟩ := hfirst
        obtain ⟨hid', hkind', hroots'⟩ := hsecond
        exact .cons ⟨hid'.trans hid, hkind'.trans hkind, hroots.trans hroots'⟩ (ih _ hrest)
  persistent := h.persistent.trans h'.persistent

theorem root (s : Scopes) (value : Word) : s.Grows (s.root value) := by
  unfold Scopes.root
  split
  · exact refl s
  · split
    · rename_i frame outer hframes
      split
      · refine ⟨?_, List.suffix_rfl⟩
        rw [hframes]
        exact .cons ⟨rfl, rfl, List.suffix_cons _ _⟩ (refl { s with frames := outer }).frames
      · exact ⟨(refl s).frames, List.suffix_cons _ _⟩
    · exact ⟨(refl s).frames, List.suffix_cons _ _⟩

end Scopes.Grows

namespace Heap

open State

/-- A run on a heap that at most records roots. -/
def Rooting {α : Type} (act : HeapM α) (h : Heap) : Prop :=
  h.scopes.Grows (finalState act h).scopes

section

variable {α β : Type} {h t : Heap} {x : HeapM α} {f : α → HeapM β}

theorem Rooting.bind (hx : Rooting x h) (hf : ∀ a t, Rooting (f a) t) : Rooting (x >>= f) h := by
  refine finalState_bind (P := fun t : Heap => h.scopes.Grows t.scopes) ?_ ?_
  · intro a t hok
    have hfirst : h.scopes.Grows t.scopes := finalState_ok hok ▸ hx
    exact hfirst.trans (hf a t)
  · intro e t herror
    exact finalState_error herror ▸ hx

theorem Rooting.pure (a : α) : Rooting (pure a) h := .refl _

theorem Rooting.throw (e : HeapError) : Rooting (throw e : HeapM α) h := .refl _

theorem Rooting.get_bind {f : Heap → HeapM β} (hf : Rooting (f h) h) : Rooting (get >>= f) h := hf

theorem Rooting.set_bind {f : PUnit → HeapM β} (same : t.scopes = h.scopes)
    (hf : Rooting (f ⟨⟩) t) : Rooting (set t >>= f) h := by
  change h.scopes.Grows (finalState (f ⟨⟩) t).scopes
  rw [← same]
  exact hf

theorem Rooting.modify {g : Heap → Heap} (same : (g h).scopes = h.scopes) :
    Rooting (modify g : HeapM Unit) h := by
  change h.scopes.Grows (g h).scopes
  rw [same]
  exact .refl _

theorem Rooting.ite {c : Prop} [Decidable c] {y z : HeapM α} (hy : Rooting y h) (hz : Rooting z h) :
    Rooting (if c then y else z) h := by
  split
  · exact hy
  · exact hz

end

variable {h : Heap}

theorem rooting_write (object : Word) (offset : Nat) (value : Word) :
    Rooting (write object offset value) h := .modify rfl

theorem rooting_root (value : Word) : Rooting (root value) h := .root _ _

theorem rooting_allocYoung (shape : Word) (size : Nat) : Rooting (allocYoung shape size) h := by
  refine Rooting.get_bind ?_
  split
  · exact .throw _
  · exact .set_bind rfl ((rooting_write _ _ _).bind fun _ _ => .pure _)

theorem rooting_allocOld (shape : Word) (size : Nat) : Rooting (allocOld shape size) h := by
  refine Rooting.get_bind ?_
  split
  · exact .throw _
  · exact .set_bind rfl ((rooting_write _ _ _).bind fun _ _ => .pure _)

theorem rooting_allocShape (flags : ShapeFlags) (proto : Word) :
    Rooting (allocShape flags proto) h := by
  refine Rooting.get_bind ?_
  split
  · exact .throw _
  · exact .set_bind rfl ((rooting_write _ _ _).bind fun _ _ => (rooting_write _ _ _).bind fun _ _ =>
      (rooting_write _ _ _).bind fun _ _ => .pure _)

theorem rooting_allocStore (words : Nat) : Rooting (allocStore words) h :=
  .get_bind ((rooting_allocYoung _ _).bind fun _ _ => (rooting_write _ _ _).bind fun _ _ =>
    (Rooting.modify rfl).bind fun _ _ => .pure _)

theorem rooting_string (text : String) : Rooting (string text) h := by
  refine Rooting.get_bind ?_
  split
  · exact .pure _
  · exact .get_bind ((rooting_allocOld _ _).bind fun _ _ => (rooting_write _ _ _).bind fun _ _ =>
      (Rooting.modify rfl).bind fun _ _ => (Rooting.modify rfl).bind fun _ _ =>
        (rooting_root _).bind fun _ _ => .pure _)

theorem rooting_number (n : Double) : Rooting (number n) h := by
  unfold number
  split
  · exact .pure _
  · exact .get_bind ((rooting_allocYoung _ _).bind fun _ _ => (rooting_write _ _ _).bind fun _ _ =>
      .pure _)

/-! ### Code objects and functions -/

theorem rooting_allocCode (entry length : Nat) (record : CodeRecord) :
    Rooting (allocCode entry length record) h :=
  .get_bind ((rooting_allocOld _ _).bind fun _ _ => .get_bind ((Rooting.modify rfl).bind fun _ _ =>
    (rooting_write _ _ _).bind fun _ _ => (rooting_write _ _ _).bind fun _ _ =>
      (rooting_write _ _ _).bind fun _ _ => (rooting_root _).bind fun _ _ => .pure _))

theorem rooting_installEntry (code : Word) (entry length : Nat) :
    Rooting (installEntry code entry length) h :=
  .get_bind (.ite ((rooting_write _ _ _).bind fun _ _ => rooting_write _ _ _) (.throw _))

theorem rooting_modifyRecord (code : Word) (f : CodeRecord → CodeRecord) :
    Rooting (modifyRecord code f) h := by
  refine Rooting.get_bind ?_
  split
  · exact .modify rfl
  · exact .throw _

theorem rooting_allocObject (shape : Word) : Rooting (allocObject shape) h :=
  (rooting_allocYoung _ _).bind fun _ _ => (rooting_allocStore _).bind fun _ _ =>
    (rooting_write _ _ _).bind fun _ _ => .pure _

theorem rooting_newObject : Rooting newObject h := .get_bind (rooting_allocObject _)

theorem rooting_newGlobal : Rooting newGlobal h :=
  .get_bind ((rooting_allocObject _).bind fun _ _ => (rooting_root _).bind fun _ _ => .pure _)

theorem rooting_allocBareFunction (code instanceShape : Word) :
    Rooting (allocBareFunction code instanceShape) h :=
  .get_bind ((rooting_allocYoung _ _).bind fun _ _ => (rooting_allocStore _).bind fun _ _ =>
    (rooting_write _ _ _).bind fun _ _ => (rooting_write _ _ _).bind fun _ _ =>
      (rooting_write _ _ _).bind fun _ _ => .pure _)

theorem rooting_allocBuiltinFunction (code : Word) : Rooting (allocBuiltinFunction code) h :=
  .get_bind ((rooting_allocBareFunction _ _).bind fun _ _ => (rooting_root _).bind fun _ _ =>
    .pure _)

/-! ### Properties -/

theorem rooting_growStore (object : Word) (words : Nat) : Rooting (growStore object words) h :=
  .get_bind ((rooting_allocStore _).bind fun _ _ => (Rooting.modify rfl).bind fun _ _ =>
    rooting_write _ _ _)

theorem rooting_toDictionary (object : Word) : Rooting (toDictionary object) h := by
  refine Rooting.get_bind ?_
  split
  · exact .throw _
  · exact (rooting_allocShape _ _).bind fun _ _ => rooting_write _ _ _

theorem rooting_followTransition (object shape key : Word) :
    Rooting (followTransition object shape key) h := by
  refine Rooting.get_bind (.ite (.ite (rooting_toDictionary _) ?_) (.pure _))
  split
  · exact rooting_write _ _ _
  · exact (rooting_allocShape _ _).bind fun _ _ => (Rooting.modify rfl).bind fun _ _ =>
      rooting_write _ _ _

theorem rooting_freeSlot (object : Word) : Rooting (freeSlot object) h := by
  refine Rooting.get_bind ?_
  simp only
  split
  · exact .pure _
  · exact (rooting_growStore _ _).bind fun _ _ => .pure _

theorem rooting_addProperty (object key : Word) : Rooting (addProperty object key) h := by
  refine Rooting.get_bind (.ite ?_ ?_)
  · split
    · exact .pure _
    · exact .ite (.ite ((rooting_growStore _ _).bind fun _ _ => .pure _) (.pure _)) (.pure _)
  · split
    · exact .throw _
    · exact (rooting_freeSlot _).bind fun _ _ => .get_bind ((rooting_write _ _ _).bind fun _ _ =>
        (rooting_write _ _ _).bind fun _ _ => (rooting_followTransition _ _ _).bind fun _ _ =>
          .pure _)

theorem rooting_propertyKey (object key : Word) : Rooting (propertyKey object key) h :=
  .get_bind (.ite (.pure _) (.ite (.pure _) (rooting_string _)))

theorem rooting_lookupSlot (object key : Word) (update : Bool) :
    Rooting (lookupSlot object key update) h := by
  refine Rooting.get_bind (.ite (.pure _) ((rooting_propertyKey _ _).bind fun _ _ => .get_bind ?_))
  split
  · exact .pure _
  · exact .ite (rooting_addProperty _ _) (.pure _)

theorem rooting_lookupChain (key : Word) (fuel : Nat) (current : Word) :
    Rooting (lookupChain key fuel current) h := by
  induction fuel generalizing h current with
  | zero => exact .get_bind (.pure _)
  | succ fuel ih =>
    refine Rooting.get_bind (.ite (.get_bind (.pure _)) ((rooting_propertyKey _ _).bind fun _ _ =>
      .get_bind ?_))
    simp only
    split
    · exact .ite (.pure _) (ih _)
    · exact ih _

theorem rooting_getProperty (object key : Word) : Rooting (getProperty object key) h := by
  refine Rooting.get_bind ?_
  split
  · exact .ite (.pure _) (rooting_lookupChain _ _ _)
  · exact rooting_lookupChain _ _ _

theorem rooting_refreshInstanceShape (function proto : Word) :
    Rooting (refreshInstanceShape function proto) h := by
  refine Rooting.get_bind ?_
  generalize (if h.isObject proto then proto else h.null) = proto
  simp only
  split
  · exact .throw _
  · exact .ite ((rooting_allocShape _ _).bind fun _ _ => rooting_write _ _ _) (.pure _)

theorem rooting_writeSlot (object : Word) (slot : Nat) (value : Word) :
    Rooting (writeSlot object slot value) h := .get_bind (rooting_write _ _ _)

theorem rooting_setProperty (object key value : Word) :
    Rooting (setProperty object key value) h := by
  refine (rooting_lookupSlot _ _ _).bind fun slot t => ?_
  split
  · exact .pure _
  · exact (rooting_writeSlot _ _ _).bind fun _ _ => .get_bind
      (.ite (rooting_refreshInstanceShape _ _) (.pure _))

theorem rooting_allocFunction (code : Word) : Rooting (allocFunction code) h :=
  rooting_newObject.bind fun _ _ => (rooting_allocShape _ _).bind fun _ _ =>
    (rooting_allocBareFunction _ _).bind fun _ _ => (rooting_string _).bind fun _ _ =>
      (rooting_setProperty _ _ _).bind fun _ _ => .pure _

theorem rooting_deleteProperty (object key : Word) : Rooting (deleteProperty object key) h := by
  refine Rooting.get_bind (.ite (.pure _) ((rooting_propertyKey _ _).bind fun _ _ => .get_bind ?_))
  have hclear : ∀ (t : Heap) (slot : Nat) (hole : Word), Rooting (do
      let store := (← get).storeOf object
      let offset := Layout.Store.items + slot * Layout.Item.bytes
      write store offset hole
      write store (offset + Layout.Item.value) hole
      return true) t := fun _ _ _ =>
    .get_bind ((rooting_write _ _ _).bind fun _ _ => (rooting_write _ _ _).bind fun _ _ => .pure _)
  split
  · exact .pure _
  · refine .ite ((rooting_writeSlot _ _ _).bind fun _ _ => .pure _) (.ite ?_ ?_)
    · exact (rooting_toDictionary _).bind fun _ _ => hclear _ _ _
    · exact hclear _ _ _

theorem rooting_instanceOf (object constructor : Word) :
    Rooting (instanceOf object constructor) h :=
  .get_bind (.ite (.pure _) ((rooting_string _).bind fun _ _ => (rooting_getProperty _ _).bind
    fun _ _ => .get_bind (.ite (.pure _) (.pure _))))

end Heap
end ScriptEngine
