import ScriptEngine.Proofs.Heap.Conduct

/-!
Operations on objects do not fail while the heap fits into the memory of a machine. The only requests that
could be too large are those for longer storage, and storage that is there already fits below the addresses
that are still free.
-/

namespace ScriptEngine.Heap

open State

variable {α β : Type} {h h' : Heap} {T T' : Contents} {past : Past} {o v w key own : Word} {s st : Word}
  {words rest : List Word} {flags : ShapeFlags} {proto : Word}

/-- What a cell takes lies below the addresses that are still free. -/
theorem cell_le_next {c : Cell} (laid : Laid h T) (hw : T w = some c) :
    w.address + c.size h.rootShape ≤ h.addressSpace.next := by
  have hsize := laid.nonempty hw
  by_contra hbeyond
  exact laid.used hw (x := w.address + c.size h.rootShape - 1) (by omega) (by omega) (.inr (.inr (.inr (by omega))))

theorem store_le_next (laid : Laid h T) (hst : T st = some (.store words)) :
    8 * words.length ≤ h.addressSpace.next := by
  have hsize := cell_le_next laid hst
  simp only [Cell.size, Cell.words, List.length_cons] at hsize
  omega

/-- A heap that fits at the end fitted at the start. -/
theorem Delivers.of_fits {act : HeapM α} (gradual : Gradual act) (delivers : Fits h → Delivers act h) :
    Delivers act h := by
  intro err t herr granted fits
  have hspreads : Spreads h t := by simpa [finalState, herr] using gradual.spreading h
  exact delivers (hspreads.fits fits) err t herr granted fits

theorem Delivers.ite {c : Prop} [Decidable c] {x y : HeapM α} (hx : c → Delivers x h) (hy : ¬c → Delivers y h) :
    Delivers (if c then x else y) h := by
  split
  · exact hx ‹_›
  · exact hy ‹_›

/-! ### Objects -/

theorem delivers_propertyKey (object key : Word) : Delivers (propertyKey object key) h := by
  unfold propertyKey
  refine .get_bind (.ite (fun _ => .pure _) fun _ => .ite (fun _ => .pure _) fun hnone => ?_)
  have hsize := h.utf8ByteSize_display_le (Option.not_isSome_iff_eq_none.mp hnone)
  exact delivers_string (by omega)

theorem delivers_growStore {object : Word} {words : Nat} (small : words ≤ 2 ^ 56) : Delivers (growStore object words) h := by
  unfold growStore
  refine .get_bind ((delivers_allocStore small).bind (gradual_allocStore _) fun _ _ _ => ?_)
  exact Delivers.modify.bind (.modify fun _ stable h => stable.memory h _) fun _ _ _ => delivers_write _ _ _

theorem delivers_toDictionary {object : Word} (pointer : object.isSmi = false) : Delivers (toDictionary object) h := by
  unfold toDictionary
  refine .get_bind ?_
  simp only [shapeOf?, pointer, Bool.false_eq_true, if_false]
  exact delivers_allocShape.bind (gradual_allocShape _ _) fun _ _ _ => delivers_write _ _ _

theorem delivers_followTransition {object shape key : Word} (pointer : object.isSmi = false) :
    Delivers (followTransition object shape key) h := by
  unfold followTransition
  refine .get_bind (.ite (fun _ => .ite (fun _ => delivers_toDictionary pointer) fun _ => ?_) fun _ => .pure _)
  cases h.transitions.child? shape key with
  | some child => exact delivers_write _ _ _
  | none =>
    refine delivers_allocShape.bind (gradual_allocShape _ _) fun _ _ _ => ?_
    exact Delivers.modify.bind (.modify fun _ stable h => stable.transitions h _) fun _ _ _ => delivers_write _ _ _

theorem gradual_freeSlot (object : Word) : Gradual (freeSlot object) := by
  unfold freeSlot
  refine .get_bind fun h => ?_
  dsimp only
  cases h.findKey? (h.storeOf object) h.hole with
  | some slot => exact .pure _
  | none => exact (gradual_growStore _ _).bind fun _ => .pure _

theorem delivers_freeSlot (laid : Laid h T) (ho : T o = some (.object s st rest)) (hst : T st = some (.store words)) :
    Delivers (freeSlot o) h := by
  refine .of_fits (gradual_freeSlot o) fun fits => ?_
  have hnext := fits.next
  have hlength := store_le_next laid hst
  unfold freeSlot
  refine .get_bind ?_
  dsimp only
  rw [storeOf_object laid ho, itemCount_store laid hst]
  cases h.findKey? st h.hole with
  | some slot => exact .pure _
  | none =>
    refine (delivers_growStore ?_).bind (gradual_growStore _ _) fun _ _ _ => .pure _
    simp only [Layout.Object.minItems, Layout.Item.words]
    omega

theorem delivers_addProperty (typed : Typed h T) (ho : T o = some (.object s st rest)) : Delivers (addProperty o key) h := by
  have hpointer := isSmi_of_cell typed.laid ho
  obtain ⟨_, _, words, formed⟩ := typed.formed ho
  have hlength := store_le_next typed.laid formed.store
  refine .of_fits (gradual_addProperty o key) fun fits => ?_
  have hnext := fits.next
  unfold addProperty
  refine .get_bind (.ite (fun _ => ?_) fun _ => ?_)
  · cases key.toSmi? with
    | none => exact .pure _
    | some index =>
      refine .ite (fun hindex => ?_) fun _ => .pure _
      rw [storeOf_object typed.laid ho, storeLength_store typed.laid formed.store]
      have hmax : maxDenseIndex = 2 ^ 24 := rfl
      refine .ite (fun _ => ?_) fun _ => .pure _
      exact (delivers_growStore (by omega)).bind (gradual_growStore _ _) fun _ _ _ => .pure _
  · simp only [shapeOf?, hpointer, Bool.false_eq_true, if_false]
    refine (delivers_freeSlot typed.laid ho formed.store).bind (gradual_freeSlot o) fun slot t _ => .get_bind ?_
    refine .write_bind fun _ => .write_bind fun _ => ?_
    exact (delivers_followTransition hpointer).bind (gradual_followTransition _ _ _) fun _ _ _ => .pure _

/-! ### Properties -/

theorem delivers_lookupSlot (typed : Typed h T) (value : IsValue T o) (valueKey : IsValue T key) (update : Bool) :
    Delivers (lookupSlot o key update) h := by
  unfold lookupSlot
  refine .get_bind (.ite (fun _ => .pure _) fun hobject => ?_)
  refine (delivers_propertyKey o key).bind (gradual_propertyKey o key) fun own t keyed => .get_bind ?_
  obtain ⟨s, st, rest, ho⟩ := typed.object_of_isObject value (by simpa using hobject)
  obtain ⟨T', typed', frame, -⟩ := propertyKey_ok typed valueKey keyed
  obtain ⟨s', st', rest', ho'⟩ := frame.objects ho
  cases t.ownSlot? o own with
  | some slot => exact .pure _
  | none => exact .ite (fun _ => delivers_addProperty typed' ho') fun _ => .pure _

theorem delivers_refreshInstanceShape {function proto : Word} (callable : h.isFunction function = true) :
    Delivers (refreshInstanceShape function proto) h := by
  unfold refreshInstanceShape
  refine .get_bind ?_
  simp only [instanceShape, callable, if_true]
  exact .ite (fun _ => delivers_allocShape.bind (gradual_allocShape _ _) fun _ _ _ => delivers_write _ _ _) fun _ => .pure _

theorem delivers_setProperty (typed : Typed h T) (value : IsValue T o) (valueKey : IsValue T key) (v : Word) :
    Delivers (setProperty o key v) h := by
  unfold setProperty
  refine (delivers_lookupSlot typed value valueKey true).bind (gradual_lookupSlot _ _ _) fun slot t _ => ?_
  cases slot with
  | none => exact .pure _
  | some slot =>
    refine Delivers.bind (.get_bind (delivers_write _ _ _)) (gradual_writeSlot _ _ _) fun _ _ _ => .get_bind ?_
    exact .ite (fun redirects => delivers_refreshInstanceShape redirects.1) fun _ => .pure _

theorem delivers_deleteProperty (typed : Typed h T) (value : IsValue T o) (key : Word) :
    Delivers (deleteProperty o key) h := by
  unfold deleteProperty
  refine .get_bind (.ite (fun _ => .pure _) fun hobject => ?_)
  obtain ⟨s, st, rest, ho⟩ := typed.object_of_isObject value (by simpa using hobject)
  have hpointer := isSmi_of_cell typed.laid ho
  refine (delivers_propertyKey o key).bind (gradual_propertyKey o key) fun own t _ => .get_bind ?_
  cases t.ownSlot? o own with
  | none => exact .pure _
  | some slot =>
    have hclear : ∀ (hole : Word) (t : Heap), Delivers (do
        let store := (← get).storeOf o
        write store (Layout.Store.items + slot * Layout.Item.bytes) hole
        write store (Layout.Store.items + slot * Layout.Item.bytes + Layout.Item.value) hole
        return true) t := fun hole t =>
      .get_bind (.write_bind fun _ => .write_bind fun _ => .pure _)
    refine .ite (fun _ => ?_) fun _ => .ite (fun _ => ?_) fun _ => hclear _ _
    · exact Delivers.bind (.get_bind (delivers_write _ _ _)) (gradual_writeSlot _ _ _) fun _ _ _ => .pure _
    · exact (delivers_toDictionary hpointer).bind (gradual_toDictionary o) fun _ t _ => hclear _ t

theorem Sound.delivers_getProperty (sound : Sound h T past) (value : IsValue T o) (valueKey : IsValue T key) :
    Delivers (getProperty o key) h := by
  cases hobject : h.isObject o with
  | false =>
    have hlookup : ∀ fuel, Delivers (lookupChain key fuel o) h := fun fuel err t herr => by
      rw [lookupChain_storeless hobject] at herr
      cases herr
    unfold getProperty
    refine .get_bind ?_
    cases h.text? o with
    | none => exact hlookup _
    | some text => exact .ite (fun _ => .pure _) fun _ => hlookup _
  | true =>
    obtain ⟨s, st, rest, ho⟩ := sound.typed.object_of_isObject value hobject
    cases keyed : propertyKey o key h with
    | ok own h₁ =>
      obtain ⟨T₁, typed₁, frame₁, -⟩ := propertyKey_ok sound.typed valueKey keyed
      obtain ⟨v, run, -⟩ := sound.getProperty_keyed (sound.frame typed₁ frame₁) frame₁ ho valueKey keyed
      intro err t herr
      rw [run] at herr
      cases herr
    | error err t =>
      intro err' t' herr
      rw [sound.typed.getProperty_error ho hobject keyed] at herr
      cases herr
      exact delivers_propertyKey o key _ _ keyed

theorem Sound.delivers_instanceOf (sound : Sound h T past) (value : IsValue T v) : Delivers (instanceOf o v) h := by
  unfold instanceOf
  refine .get_bind (.ite (fun _ => .pure _) fun _ => ?_)
  refine (delivers_string (by decide)).bind (gradual_string _) fun key t named => ?_
  obtain ⟨T', sound', frame, hkey⟩ := string_sound sound (by decide) named
  refine (sound'.delivers_getProperty (frame.isValue value) (.inr (.inr (.inl ⟨_, hkey⟩)))).bind
    (gradual_getProperty _ _) fun proto t' _ => .get_bind (.ite (fun _ => .pure _) fun _ => .pure _)

/-! ### New objects -/

theorem delivers_root (value : Word) : Delivers (root value) h := .modify

theorem delivers_allocCode (entry length : Nat) (record : CodeRecord) : Delivers (allocCode entry length record) h := by
  unfold allocCode
  refine .get_bind ((delivers_allocOld (by decide)).bind (gradual_allocOld _ _) fun _ _ _ => .get_bind ?_)
  refine Delivers.modify.bind (.modify fun _ stable h => stable.codeRecords h _) fun _ _ _ => ?_
  refine .write_bind fun _ => .write_bind fun _ => .write_bind fun _ => ?_
  exact (delivers_root _).bind (gradual_root _) fun _ _ _ => .pure _

theorem delivers_allocBareFunction (code instances : Word) : Delivers (allocBareFunction code instances) h := by
  unfold allocBareFunction
  refine .get_bind ((delivers_allocYoung (by decide)).bind (gradual_allocYoung _ _) fun _ _ _ => ?_)
  refine (delivers_allocStore (by decide)).bind (gradual_allocStore _) fun _ _ _ => ?_
  exact .write_bind fun _ => .write_bind fun _ => .write_bind fun _ => .pure _

theorem delivers_allocBuiltinFunction (code : Word) : Delivers (allocBuiltinFunction code) h := by
  unfold allocBuiltinFunction
  exact .get_bind ((delivers_allocBareFunction _ _).bind (gradual_allocBareFunction _ _) fun _ _ _ =>
    (delivers_root _).bind (gradual_root _) fun _ _ _ => .pure _)

theorem delivers_newObject : Delivers newObject h := by
  unfold newObject allocObject
  refine .get_bind ((delivers_allocYoung (by decide)).bind (gradual_allocYoung _ _) fun _ _ _ => ?_)
  refine (delivers_allocStore (by decide)).bind (gradual_allocStore _) fun _ _ _ => ?_
  exact .write_bind fun _ => .pure _

theorem delivers_allocFunction {seen : Word → Prop} (proper : Proper h T seen) (code : Word) :
    Delivers (allocFunction code) h := by
  unfold allocFunction
  refine delivers_newObject.bind gradual_newObject fun target t₁ made => ?_
  obtain ⟨T₁, st₁, proper₁, -, -, htarget⟩ := proper.newObject made
  refine delivers_allocShape.bind (gradual_allocShape _ _) fun instances t₂ allocated => ?_
  obtain ⟨T₂, proper₂, on₂, hinstances, hcount⟩ := proper₁.allocShape (by decide) allocated
  have value₂ := on₂.isValue (.inr (.inr (.inr ⟨_, _, _, htarget⟩)))
  refine (delivers_allocBareFunction _ _).bind (gradual_allocBareFunction _ _) fun o t₃ bare => ?_
  obtain ⟨T₃, st₃, proper₃, -, -, ho⟩ :=
    proper₂.bareFunction (p := False) hinstances hcount value₂ False.elim bare
  refine (delivers_string (by decide)).bind (gradual_string _) fun key t₄ named => ?_
  obtain ⟨T₄, proper₄, on₄, hkey⟩ := proper₃.string (by decide) named
  refine (delivers_setProperty proper₄.typed (on₄.isValue (.inr (.inr (.inr ⟨_, _, _, ho⟩))))
    (.inr (.inr (.inl ⟨_, hkey⟩))) target).bind (gradual_setProperty _ _ _) fun _ _ _ => .pure _

end ScriptEngine.Heap
