import ScriptEngine.Proofs.Engine.Keeping
import ScriptEngine.Proofs.Heap.Granting

/-!
Heaps that fit into the memory of a machine. Whatever is done to a heap, it gives no addresses back, and
the settings of its spaces stay as they are. So if a heap fits at the end of a run, it fitted all along;
and while it fits, no allocation of a moderate size fails.
-/

namespace ScriptEngine

open State

/-- How a space maps pages. -/
def Space.settings (s : Space) : Nat × Nat := (s.pageSize, s.pageSlack)

/-- An allocation leaves the settings of its space, and gives no addresses back. -/
theorem Space.settings_allocate {s t : Space} {memory memory' : Page.AddressSpace} {size address : Nat}
    (run : s.allocate memory size = .ok (address, t, memory')) : t.settings = s.settings ∧
      memory.next ≤ memory'.next ∧ memory'.refuses = memory.refuses := by
  have hselect : ∀ (u : Space) i, (u.select i).settings = u.settings := by
    intro u i
    unfold select
    split <;> rfl
  have hswitch : ∀ {bytes : Nat} {u : Space} {space : Page.AddressSpace},
      s.switchPage memory bytes = .ok (u, space) → u.settings = s.settings ∧ memory.next ≤ space.next ∧
        space.refuses = memory.refuses := by
    intro bytes u space h
    unfold switchPage at h
    simp only at h
    split at h
    · cases h
      exact ⟨hselect _ _, le_rfl, rfl⟩
    · cases hmap : Page.map memory (max s.pageSize (Layout.wrap (bytes + s.pageSlack))) with
      | error err => simp [hmap, bind, Except.bind] at h
      | ok mapped =>
        obtain ⟨page, space'⟩ := mapped
        simp only [hmap, bind, Except.bind, pure, Except.pure, Except.ok.injEq, Prod.mk.injEq] at h
        obtain ⟨rfl, rfl⟩ := h
        refine ⟨hselect _ _, ?_⟩
        unfold Page.map at hmap
        simp only at hmap
        split at hmap
        · cases hmap
        · split at hmap
          · cases hmap
          · cases hmap
            refine ⟨?_, rfl⟩
            simp only [Page.alignment]
            omega
  unfold allocate at run
  simp only [bind, Except.bind] at run
  split at run
  · cases hrun : s.switchPage memory (Layout.align size) with
    | error err => simp [hrun] at run
    | ok switched =>
      obtain ⟨u, space⟩ := switched
      simp only [hrun, pure, Except.pure, Except.ok.injEq, Prod.mk.injEq] at run
      obtain ⟨rfl, rfl, rfl⟩ := run
      obtain ⟨hsettings, hspace⟩ := hswitch hrun
      exact ⟨hsettings, hspace⟩
  · simp only [pure, Except.pure, Except.ok.injEq, Prod.mk.injEq] at run
    obtain ⟨rfl, rfl, rfl⟩ := run
    exact ⟨rfl, le_rfl, rfl⟩

/-- The settings of a space leave room for pages. -/
def Space.Moderate (s : Space) : Prop := s.pageSize ≤ 2 ^ 58 ∧ s.pageSlack ≤ 2 ^ 58

instance (s : Space) : Decidable s.Moderate := inferInstanceAs (Decidable (_ ∧ _))

/-- A system that refuses nothing serves every moderate request, while there are addresses. -/
theorem Space.exhausted_of_allocate {s : Space} {memory : Page.AddressSpace} {size : Nat} {err : HeapError}
    (run : s.allocate memory size = .error err) (grants : ∀ k, memory.refuses k = false) (moderate : s.Moderate)
    (small : size ≤ 2 ^ 60) : 2 ^ 58 < memory.next := by
  have hswitch : s.switchPage memory (Layout.align size) = .error err := by
    unfold allocate at run
    simp only [bind, Except.bind] at run
    split at run
    · cases hrun : s.switchPage memory (Layout.align size) with
      | error err' => simpa [hrun] using run
      | ok switched => simp [hrun, pure, Except.pure] at run
    · simp [pure, Except.pure] at run
  unfold switchPage at hswitch
  simp only at hswitch
  split at hswitch
  · cases hswitch
  · have halign : Layout.align size ≤ 2 ^ 60 + 7 := by
      rw [Heap.align_eq (by omega)]
      omega
    have hwrap : Layout.wrap (Layout.align size + s.pageSlack) ≤ 2 ^ 61 := by
      have := moderate.2
      exact (Nat.mod_le _ _).trans (by omega)
    have hbytes : max s.pageSize (Layout.wrap (Layout.align size + s.pageSlack)) ≤ 2 ^ 61 :=
      max_le (moderate.1.trans (by norm_num)) hwrap
    generalize max s.pageSize (Layout.wrap (Layout.align size + s.pageSlack)) = bytes at hswitch hbytes
    cases hmap : Page.map memory bytes with
    | ok mapped => simp [hmap, bind, Except.bind, pure, Except.pure] at hswitch
    | error err' =>
      unfold Page.map at hmap
      simp only [grants] at hmap
      split at hmap
      · rename_i hlarge
        simp only [Page.maxSize, Page.alignment] at hlarge
        omega
      · split at hmap
        · rename_i hrefused
          simp only [Page.refusedSize, Page.alignment, Bool.false_eq_true, or_false] at hrefused
          omega
        · cases hmap

namespace Heap

variable {α β : Type} {h h' h'' : Heap}

/-- A heap went on: no addresses were given back, and pages are mapped as before. -/
structure Spreads (h h' : Heap) : Prop where
  next : h.addressSpace.next ≤ h'.addressSpace.next
  refuses : h'.addressSpace.refuses = h.addressSpace.refuses
  young : h'.young.settings = h.young.settings
  old : h'.old.settings = h.old.settings
  shapes : h'.shapes.settings = h.shapes.settings

theorem Spreads.refl (h : Heap) : Spreads h h := ⟨le_rfl, rfl, rfl, rfl, rfl⟩

theorem Spreads.trans (first : Spreads h h') (second : Spreads h' h'') : Spreads h h'' where
  next := first.next.trans second.next
  refuses := second.refuses.trans first.refuses
  young := second.young.trans first.young
  old := second.old.trans first.old
  shapes := second.shapes.trans first.shapes

/-- The system refuses no page that the heap asks for. -/
def Granted (h : Heap) : Prop := ∀ k, h.addressSpace.refuses k = false

theorem Spreads.granted (spreads : Spreads h h') (granted : Granted h) : Granted h' := fun k => by
  rw [spreads.refuses, granted k]

/-- The heap, and one more page of each of its spaces, fit into the memory of a machine. -/
structure Fits (h : Heap) : Prop where
  next : h.addressSpace.next ≤ 2 ^ 58
  young : h.young.Moderate
  old : h.old.Moderate
  shapes : h.shapes.Moderate

/-- A heap that fits at the end fitted before. -/
theorem Spreads.fits (spreads : Spreads h h') (fits : Fits h') : Fits h := by
  have hspace : ∀ {s t : Space}, t.settings = s.settings → t.Moderate → s.Moderate := by
    intro s t hsame hmoderate
    simp only [Space.settings, Prod.mk.injEq] at hsame
    rwa [Space.Moderate, ← hsame.1, ← hsame.2]
  exact ⟨spreads.next.trans fits.next, hspace spreads.young fits.young, hspace spreads.old fits.old,
    hspace spreads.shapes fits.shapes⟩

/-! ### Operations step by step -/

/-- A relation of heaps that every step of an operation keeps: memory is written or taken from a space, and what is
listed besides changes, though no string is replaced by another. -/
structure Stable (K : Heap → Heap → Prop) : Prop where
  refl : ∀ h, K h h
  trans : ∀ {h h' h''}, K h h' → K h' h'' → K h h''
  memory : ∀ (h : Heap) (memory : Memory), K h { h with memory }
  young : ∀ {h : Heap} {size address : Nat} {young : Space} {addressSpace : Page.AddressSpace},
    h.young.allocate h.addressSpace size = .ok (address, young, addressSpace) → K h { h with young, addressSpace }
  old : ∀ {h : Heap} {size address : Nat} {old : Space} {addressSpace : Page.AddressSpace},
    h.old.allocate h.addressSpace size = .ok (address, old, addressSpace) → K h { h with old, addressSpace }
  shapes : ∀ {h : Heap} {size address : Nat} {shapes : Space} {addressSpace : Page.AddressSpace},
    h.shapes.allocate h.addressSpace size = .ok (address, shapes, addressSpace) → K h { h with shapes, addressSpace }
  strings : ∀ {h : Heap} {text : String} (w : Word), h.strings[text]? = none →
    K h { h with strings := h.strings.insert text w }
  transitions : ∀ (h : Heap) (transitions : Transitions), K h { h with transitions }
  codeRecords : ∀ (h : Heap) (codeRecords : Array CodeRecord), K h { h with codeRecords }
  scopes : ∀ (h : Heap) (scopes : Scopes), K h { h with scopes }

/-- An operation that consists of such steps. Whatever they keep, it keeps, whether it succeeds or fails. -/
def Gradual (act : HeapM α) : Prop := ∀ K : Heap → Heap → Prop, Stable K → ∀ h, K h (finalState act h)

theorem stable_spreads : Stable Spreads where
  refl := .refl
  trans := .trans
  memory _ _ := ⟨le_rfl, rfl, rfl, rfl, rfl⟩
  young run := by
    obtain ⟨hsettings, hnext, hrefuses⟩ := Space.settings_allocate run
    exact ⟨hnext, hrefuses, hsettings, rfl, rfl⟩
  old run := by
    obtain ⟨hsettings, hnext, hrefuses⟩ := Space.settings_allocate run
    exact ⟨hnext, hrefuses, rfl, hsettings, rfl⟩
  shapes run := by
    obtain ⟨hsettings, hnext, hrefuses⟩ := Space.settings_allocate run
    exact ⟨hnext, hrefuses, rfl, rfl, hsettings⟩
  strings _ _ := ⟨le_rfl, rfl, rfl, rfl, rfl⟩
  transitions _ _ := ⟨le_rfl, rfl, rfl, rfl, rfl⟩
  codeRecords _ _ := ⟨le_rfl, rfl, rfl, rfl, rfl⟩
  scopes _ _ := ⟨le_rfl, rfl, rfl, rfl, rfl⟩

theorem stable_retains : Stable Retains where
  refl := .refl
  trans := .trans
  memory _ _ := Quiet.retains ⟨⟨rfl, rfl, rfl, rfl, rfl, rfl⟩, rfl, rfl⟩
  young _ := Quiet.retains ⟨⟨rfl, rfl, rfl, rfl, rfl, rfl⟩, rfl, rfl⟩
  old _ := Quiet.retains ⟨⟨rfl, rfl, rfl, rfl, rfl, rfl⟩, rfl, rfl⟩
  shapes _ := Quiet.retains ⟨⟨rfl, rfl, rfl, rfl, rfl, rfl⟩, rfl, rfl⟩
  strings w hnew := retains_insert w hnew
  transitions _ _ := ⟨⟨rfl, rfl, rfl, rfl, rfl, rfl⟩, fun _ _ hw => hw⟩
  codeRecords _ _ := Quiet.retains ⟨⟨rfl, rfl, rfl, rfl, rfl, rfl⟩, rfl, rfl⟩
  scopes _ _ := Quiet.retains ⟨⟨rfl, rfl, rfl, rfl, rfl, rfl⟩, rfl, rfl⟩

/-- A run of a heap operation that gives no addresses back, whether it succeeds or fails. -/
def Spreading (act : HeapM α) : Prop := ∀ h, Spreads h (finalState act h)

theorem Gradual.spreading {act : HeapM α} (h : Gradual act) : Spreading act := h _ stable_spreads

theorem Gradual.retaining {act : HeapM α} (h : Gradual act) : Retaining act := h _ stable_retains

section

variable {x : HeapM α} {f : α → HeapM β}

theorem Gradual.bind (hx : Gradual x) (hf : ∀ a, Gradual (f a)) : Gradual (x >>= f) := by
  intro K stable h
  refine finalState_bind (P := fun t => K h t) (fun a t hok => ?_) fun e t herror => ?_
  · exact stable.trans (finalState_ok hok ▸ hx K stable h : K h t) (hf a K stable t)
  · exact finalState_error herror ▸ hx K stable h

theorem Gradual.get_bind {f : Heap → HeapM β} (hf : ∀ h, Gradual (f h)) : Gradual (get >>= f) :=
  fun _ stable h => hf h _ stable h

theorem Gradual.pure (a : α) : Gradual (Pure.pure a : HeapM α) := fun _ stable h => stable.refl h

theorem Gradual.throw (e : HeapError) : Gradual (throw e : HeapM α) := fun _ stable h => stable.refl h

theorem Gradual.modify {g : Heap → Heap} (same : ∀ K : Heap → Heap → Prop, Stable K → ∀ h, K h (g h)) :
    Gradual (modify g : HeapM Unit) := same

end

theorem gradual_write (object : Word) (offset : Nat) (value : Word) : Gradual (write object offset value) :=
  .modify fun _ stable h => stable.memory h _

theorem gradual_root (value : Word) : Gradual (root value) := .modify fun _ stable h => stable.scopes h _

theorem gradual_allocYoung (shape : Word) (size : Nat) : Gradual (allocYoung shape size) := by
  intro K stable h
  cases hrun : h.young.allocate h.addressSpace size with
  | error err =>
    have hfails : allocYoung shape size h = .error err h := by
      rw [allocYoung, State.get_bind, hrun]
      rfl
    rw [finalState_error hfails]
    exact stable.refl h
  | ok taken =>
    obtain ⟨address, young, addressSpace⟩ := taken
    have hok : allocYoung shape size h = .ok (.pointer address) { h with
        young, addressSpace, memory := h.memory.store ((Word.pointer address).address + Layout.shape) shape } := by
      rw [allocYoung, State.get_bind, hrun]
      rfl
    rw [finalState_ok hok]
    exact stable.trans (stable.young hrun) (stable.memory _ _)

theorem gradual_allocOld (shape : Word) (size : Nat) : Gradual (allocOld shape size) := by
  intro K stable h
  cases hrun : h.old.allocate h.addressSpace size with
  | error err =>
    have hfails : allocOld shape size h = .error err h := by
      rw [allocOld, State.get_bind, hrun]
      rfl
    rw [finalState_error hfails]
    exact stable.refl h
  | ok taken =>
    obtain ⟨address, old, addressSpace⟩ := taken
    have hok : allocOld shape size h = .ok (.pointer address) { h with
        old, addressSpace, memory := h.memory.store ((Word.pointer address).address + Layout.shape) shape } := by
      rw [allocOld, State.get_bind, hrun]
      rfl
    rw [finalState_ok hok]
    exact stable.trans (stable.old hrun) (stable.memory _ _)

theorem gradual_allocShape (flags : ShapeFlags) (proto : Word) : Gradual (allocShape flags proto) := by
  intro K stable h
  cases hrun : h.shapes.allocate h.addressSpace Layout.Shape.size with
  | error err =>
    have hfails : allocShape flags proto h = .error err h := by
      rw [allocShape, State.get_bind, hrun]
      rfl
    rw [finalState_error hfails]
    exact stable.refl h
  | ok taken =>
    obtain ⟨address, shapes, addressSpace⟩ := taken
    have hwrites : Gradual (do
        write (.pointer address) Layout.shape (h.rootShape .map)
        write (.pointer address) Layout.Shape.flags (.smi flags.bits)
        write (.pointer address) Layout.Shape.proto proto
        return Word.pointer address) :=
      (gradual_write _ _ _).bind fun _ => (gradual_write _ _ _).bind fun _ => (gradual_write _ _ _).bind fun _ =>
        .pure _
    have hsame : allocShape flags proto h = (do
        write (.pointer address) Layout.shape (h.rootShape .map)
        write (.pointer address) Layout.Shape.flags (.smi flags.bits)
        write (.pointer address) Layout.Shape.proto proto
        return Word.pointer address : HeapM Word) { h with shapes, addressSpace } := by
      rw [allocShape, State.get_bind, hrun]
      rfl
    rw [finalState, hsame]
    exact stable.trans (stable.shapes hrun) (hwrites K stable _)

theorem gradual_allocStore (words : Nat) : Gradual (allocStore words) :=
  .get_bind fun _ => (gradual_allocYoung _ _).bind fun _ => (gradual_write _ _ _).bind fun _ =>
    (Gradual.modify fun _ stable h => stable.memory h _).bind fun _ => .pure _

theorem gradual_number (n : Double) : Gradual (number n) := by
  unfold number
  split
  · exact .pure _
  · exact .get_bind fun _ => (gradual_allocYoung _ _).bind fun _ => (gradual_write _ _ _).bind fun _ => .pure _

theorem gradual_string (text : String) : Gradual (string text) := by
  intro K stable h
  cases hfound : h.strings[text]? with
  | some value =>
    rw [finalState_ok (string_old hfound)]
    exact stable.refl h
  | none =>
    have hrun := string_new hfound
    have htaken := gradual_allocOld (h.rootShape .string) (Layout.Text.data + text.toUTF8.size) K stable h
    have hquiet := steady_allocOld (h := h) (h.rootShape .string) (Layout.Text.data + text.toUTF8.size)
    cases hallocate : allocOld (h.rootShape .string) (Layout.Text.data + text.toUTF8.size) h with
    | error e t =>
      rw [hallocate] at hrun
      rw [finalState_error hallocate] at htaken
      rwa [finalState_error hrun]
    | ok value t =>
      rw [hallocate] at hrun
      rw [finalState_ok hallocate] at htaken
      -- Taking memory lists nothing, so the text is still new.
      have hnew : t.strings[text]? = none := by
        rw [(finalState_ok hallocate ▸ hquiet : Quiet h t).strings, hfound]
      rw [finalState_ok hrun]
      exact stable.trans htaken (stable.trans (stable.strings value hnew)
        (stable.trans (stable.memory _ _) (stable.scopes _ _)))

theorem gradual_allocCode (entry length : Nat) (record : CodeRecord) : Gradual (allocCode entry length record) :=
  .get_bind fun _ => (gradual_allocOld _ _).bind fun _ => .get_bind fun _ =>
    (Gradual.modify fun _ stable h => stable.codeRecords h _).bind fun _ => (gradual_write _ _ _).bind fun _ =>
      (gradual_write _ _ _).bind fun _ => (gradual_write _ _ _).bind fun _ => (gradual_root _).bind fun _ => .pure _

theorem gradual_allocBuiltinFunction (code : Word) : Gradual (allocBuiltinFunction code) :=
  .get_bind fun _ => Gradual.bind (.get_bind fun _ => (gradual_allocYoung _ _).bind fun _ =>
    (gradual_allocStore _).bind fun _ => (gradual_write _ _ _).bind fun _ => (gradual_write _ _ _).bind fun _ =>
      (gradual_write _ _ _).bind fun _ => .pure _) fun _ => (gradual_root _).bind fun _ => .pure _

/-! ### Properties -/

theorem gradual_propertyKey (object key : Word) : Gradual (propertyKey object key) := by
  refine .get_bind fun h => ?_
  split
  · exact .pure _
  · split
    · exact .pure _
    · exact gradual_string _

theorem gradual_growStore (object : Word) (words : Nat) : Gradual (growStore object words) :=
  .get_bind fun _ => (gradual_allocStore _).bind fun _ =>
    (Gradual.modify fun _ stable h => stable.memory h _).bind fun _ => gradual_write _ _ _

theorem gradual_toDictionary (object : Word) : Gradual (toDictionary object) := by
  refine .get_bind fun h => ?_
  split
  · exact .throw _
  · exact (gradual_allocShape _ _).bind fun _ => gradual_write _ _ _

theorem gradual_followTransition (object shape key : Word) : Gradual (followTransition object shape key) := by
  refine .get_bind fun h => ?_
  simp only
  split
  · split
    · exact gradual_toDictionary _
    · split
      · exact gradual_write _ _ _
      · exact (gradual_allocShape _ _).bind fun _ =>
          (Gradual.modify fun _ stable h => stable.transitions h _).bind fun _ => gradual_write _ _ _
  · exact .pure _

theorem gradual_addProperty (object key : Word) : Gradual (addProperty object key) := by
  refine .get_bind fun h => ?_
  split
  · split
    · exact .pure _
    · split
      · simp only
        split
        · exact (gradual_growStore _ _).bind fun _ => .pure _
        · exact .pure _
      · exact .pure _
  · split
    · exact .throw _
    · refine Gradual.bind (.get_bind fun h => ?_) fun _ => .get_bind fun _ => (gradual_write _ _ _).bind fun _ =>
        (gradual_write _ _ _).bind fun _ => (gradual_followTransition _ _ _).bind fun _ => .pure _
      simp only
      split
      · exact .pure _
      · exact (gradual_growStore _ _).bind fun _ => .pure _

theorem gradual_lookupSlot (object key : Word) (update : Bool) : Gradual (lookupSlot object key update) := by
  refine .get_bind fun h => ?_
  split
  · exact .pure _
  · refine (gradual_propertyKey _ _).bind fun _ => .get_bind fun _ => ?_
    split
    · exact .pure _
    · split
      · exact gradual_addProperty _ _
      · exact .pure _

theorem gradual_lookupChain (key : Word) (fuel : Nat) : ∀ current, Gradual (lookupChain key fuel current) := by
  induction fuel with
  | zero => exact fun _ => .get_bind fun _ => .pure _
  | succ fuel ih =>
    refine fun current => .get_bind fun h => ?_
    split
    · exact .get_bind fun _ => .pure _
    · refine (gradual_propertyKey _ _).bind fun _ => .get_bind fun _ => ?_
      simp only
      split
      · split
        · exact .pure _
        · exact ih _
      · exact ih _

theorem gradual_getProperty (object key : Word) : Gradual (getProperty object key) := by
  refine .get_bind fun h => ?_
  split
  · split
    · exact .pure _
    · exact gradual_lookupChain _ _ _
  · exact gradual_lookupChain _ _ _

theorem gradual_refreshInstanceShape (function proto : Word) : Gradual (refreshInstanceShape function proto) := by
  refine .get_bind fun h => ?_
  simp only
  generalize (if h.isObject proto = true then proto else h.null) = target
  split
  · exact .throw _
  · split
    · exact (gradual_allocShape _ _).bind fun _ => gradual_write _ _ _
    · exact .pure _

theorem gradual_writeSlot (object : Word) (slot : Nat) (value : Word) : Gradual (writeSlot object slot value) :=
  .get_bind fun _ => gradual_write _ _ _

theorem gradual_setProperty (object key value : Word) : Gradual (setProperty object key value) := by
  refine (gradual_lookupSlot _ _ _).bind fun slot => ?_
  split
  · exact .pure _
  · refine (gradual_writeSlot _ _ _).bind fun _ => .get_bind fun h => ?_
    split
    · exact gradual_refreshInstanceShape _ _
    · exact .pure _

theorem gradual_deleteProperty (object key : Word) : Gradual (deleteProperty object key) := by
  refine .get_bind fun h => ?_
  split
  · exact .pure _
  · refine (gradual_propertyKey _ _).bind fun _ => .get_bind fun h => ?_
    split
    · exact .pure _
    · split
      · exact (gradual_writeSlot _ _ _).bind fun _ => .pure _
      · split
        · exact (gradual_toDictionary _).bind fun _ => .get_bind fun _ => (gradual_write _ _ _).bind fun _ =>
            (gradual_write _ _ _).bind fun _ => .pure _
        · exact .get_bind fun _ => (gradual_write _ _ _).bind fun _ => (gradual_write _ _ _).bind fun _ => .pure _

theorem gradual_instanceOf (object constructor : Word) : Gradual (instanceOf object constructor) := by
  refine .get_bind fun h => ?_
  split
  · exact .pure _
  · refine (gradual_string _).bind fun _ => (gradual_getProperty _ _).bind fun _ => .get_bind fun _ => ?_
    split <;> exact .pure _

theorem gradual_installEntry (code : Word) (entry length : Nat) : Gradual (installEntry code entry length) := by
  refine .get_bind fun h => ?_
  split
  · exact (gradual_write _ _ _).bind fun _ => gradual_write _ _ _
  · exact .throw _

theorem gradual_modifyRecord (code : Word) (f : CodeRecord → CodeRecord) : Gradual (modifyRecord code f) := by
  refine .get_bind fun h => ?_
  split
  · exact .modify fun _ stable h => stable.codeRecords h _
  · exact .throw _

/-- Compilation keeps what every step keeps. -/
theorem Stable.lasting {K : Heap → Heap → Prop} (stable : Stable K) : Engine.Lasting K where
  refl := stable.refl
  trans := stable.trans
  scopes := stable.scopes
  string text := gradual_string text K stable
  number n := gradual_number n K stable
  allocCode entry length record := gradual_allocCode entry length record K stable
  allocBuiltinFunction code := gradual_allocBuiltinFunction code K stable

/-! ### Allocations that fail -/

variable {α β : Type} {h : Heap} {x : HeapM α} {f : α → HeapM β}

/-- Runs that fail only in a heap that does not fit. -/
def Delivers (act : HeapM α) (h : Heap) : Prop := ∀ err t, act h = .error err t → Granted h → ¬ Fits t

theorem Delivers.bind (hx : Delivers x h) (gradual : Gradual x)
    (hf : ∀ a t, x h = .ok a t → Delivers (f a) t) : Delivers (x >>= f) h := by
  intro err t herr granted
  cases hrun : x h with
  | error err' t' =>
    rw [bind_of_error hrun] at herr
    cases herr
    exact hx _ _ hrun granted
  | ok a t' =>
    rw [bind_of_ok hrun] at herr
    exact hf a t' hrun _ _ herr ((finalState_ok hrun ▸ gradual.spreading h).granted granted)

theorem Delivers.get_bind {f : Heap → HeapM β} (hf : Delivers (f h) h) : Delivers (get >>= f) h := hf

theorem Delivers.pure (a : α) : Delivers (Pure.pure a : HeapM α) h := fun _ _ herr => by cases herr

theorem Delivers.modify {g : Heap → Heap} : Delivers (modify g : HeapM Unit) h := fun _ _ herr => by cases herr

theorem delivers_write (object : Word) (offset : Nat) (value : Word) : Delivers (write object offset value) h := .modify

theorem Delivers.write_bind {object value : Word} {offset : Nat} {f : Unit → HeapM β} (hf : ∀ t, Delivers (f ()) t) :
    Delivers (write object offset value >>= f) h :=
  (delivers_write _ _ _).bind (gradual_write _ _ _) fun _ t _ => hf t

/-- Taking memory from a space is the only thing that can fail. -/
theorem Delivers.of_space {act : HeapM α} {space : Space} {size : Nat}
    (fails : ∀ err t, act h = .error err t → t = h ∧ space.allocate h.addressSpace size = .error err)
    (moderate : Fits h → space.Moderate) (small : size ≤ 2 ^ 60) : Delivers act h := by
  intro err t herr granted fits
  obtain ⟨rfl, hrun⟩ := fails err t herr
  have hlt := Space.exhausted_of_allocate hrun granted (moderate fits) small
  have hle := fits.next
  omega

theorem delivers_allocYoung {shape : Word} {size : Nat} (small : size ≤ 2 ^ 60) : Delivers (allocYoung shape size) h := by
  refine .of_space (fun err t herr => ?_) Fits.young small
  rw [allocYoung, State.get_bind] at herr
  cases hrun : h.young.allocate h.addressSpace size <;> rw [hrun] at herr <;> cases herr
  exact ⟨rfl, rfl⟩

theorem delivers_allocOld {shape : Word} {size : Nat} (small : size ≤ 2 ^ 60) : Delivers (allocOld shape size) h := by
  refine .of_space (fun err t herr => ?_) Fits.old small
  rw [allocOld, State.get_bind] at herr
  cases hrun : h.old.allocate h.addressSpace size <;> rw [hrun] at herr <;> cases herr
  exact ⟨rfl, rfl⟩

theorem delivers_allocShape {flags : ShapeFlags} {proto : Word} : Delivers (allocShape flags proto) h := by
  have hsmall : Layout.Shape.size ≤ 2 ^ 60 := by decide
  refine .of_space (fun err t herr => ?_) Fits.shapes hsmall
  rw [allocShape, State.get_bind] at herr
  cases hrun : h.shapes.allocate h.addressSpace Layout.Shape.size <;> rw [hrun] at herr <;> cases herr
  exact ⟨rfl, rfl⟩

theorem delivers_allocStore {words : Nat} (small : words ≤ 2 ^ 56) : Delivers (allocStore words) h := by
  refine .get_bind (Delivers.bind (delivers_allocYoung ?_) (gradual_allocYoung _ _) fun _ _ _ => ?_)
  · rw [storeSize_eq (by omega)]
    omega
  · exact .write_bind fun _ =>
      Delivers.modify.bind (.modify fun _ stable h => stable.memory h _) fun _ _ _ => .pure _

theorem delivers_number (n : Double) : Delivers (number n) h := by
  unfold number
  split
  · exact .pure _
  · exact .get_bind (Delivers.bind (delivers_allocYoung (by decide)) (gradual_allocYoung _ _) fun _ _ _ =>
      .write_bind fun _ => .pure _)

theorem delivers_string {text : String} (small : text.utf8ByteSize ≤ 2 ^ 59) : Delivers (string text) h := by
  intro err t herr granted
  cases hfound : h.strings[text]? with
  | some w =>
    rw [string_old hfound] at herr
    cases herr
  | none =>
    rw [string_new hfound] at herr
    cases hrun : allocOld (h.rootShape .string) (Layout.Text.data + text.toUTF8.size) h with
    | error err' t' =>
      rw [hrun] at herr
      cases herr
      exact delivers_allocOld (by simp only [Layout.Text.data, String.toUTF8_eq_toByteArray, String.size_toByteArray]; omega) _ _ hrun granted
    | ok w t' =>
      rw [hrun] at herr
      cases herr

end Heap
end ScriptEngine
