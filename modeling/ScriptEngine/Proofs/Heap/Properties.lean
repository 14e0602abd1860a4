import Mathlib.Data.List.Nodup
import ScriptEngine.Proofs.Heap.Display
import ScriptEngine.Proofs.Heap.Records

/-!
Operations on the properties of one object. Each keeps the cells of the heap in order, leaves other
objects alone, and moves its object along the transition tree as its past says.
-/

namespace ScriptEngine.Heap

open Function (update)

variable {h h' : Heap} {T : Contents} {past : Past} {o w s st key own : Word}
  {words rest : List Word} {flags : ShapeFlags} {proto : Word}

/-! ### Keys -/

/-- The table of strings lists every string under its text. -/
theorem Typed.text?_iff (typed : Typed h T) (value : IsValue T w) {text : String} :
    h.text? w = some text ↔ h.strings[text]? = some w := by
  constructor
  · intro htext
    obtain ⟨text', hfound⟩ := typed.text_of_text? value (by rw [htext]; rfl)
    rw [text?_text typed.laid (typed.interned.mp hfound), Option.some.injEq] at htext
    rwa [← htext]
  · exact fun hfound => text?_text typed.laid (typed.interned.mp hfound)

/-- Values keep their text, and those that have none do not get one. -/
theorem Frame.text?_eq {X : Word → Prop} (frame : Frame X h h' T T') (typed : Typed h T)
    (typed' : Typed h' T') (value : IsValue T w) : h'.text? w = h.text? w := by
  ext text
  rw [typed.text?_iff value, typed'.text?_iff (frame.isValue value)]
  constructor
  · intro hfound
    have hcell := typed'.interned.mp hfound
    rcases value with hsmi | ⟨_, _, hleaf⟩ | ⟨text', htext⟩ | ⟨_, _, _, hobject⟩
    · rw [isSmi_of_cell typed'.laid hcell] at hsmi
      cases hsmi
    · rw [frame.leaves hleaf] at hcell
      cases hcell
    · rw [frame.texts htext] at hcell
      cases hcell
      exact typed.interned.mpr htext
    · obtain ⟨_, _, _, hobject'⟩ := frame.objects hobject
      rw [hobject'] at hcell
      cases hcell
  · exact frame.strings

/-! ### The text that values are shown by -/

theorem string_typed (typed : Typed h T) {text : String} (small : text.utf8ByteSize < 2 ^ 63)
    (run : string text h = .ok w h') :
    ∃ T', Typed h' T' ∧ Frame Nobody h h' T T' ∧ h'.transitions = h.transitions ∧
      h'.strings[text]? = some w := by
  rcases string_ok typed.laid small run with ⟨hfound, rfl⟩ | ⟨hfound, hnone, hkept,
    htransitions, hstrings, hlaid⟩
  · exact ⟨T, typed, Frame.refl .., rfl, hfound⟩
  · have hinsert : ∀ {text' : String} {v}, h'.strings[text']? = some v ↔
        h.strings[text']? = some v ∨ v = w ∧ Cell.text text = .text text' := by
      intro text' v
      rw [hstrings, Std.TreeMap.getElem?_insert]
      by_cases hsame : text = text'
      · subst hsame
        simp [hfound, eq_comm]
      · simp [hsame]
    refine ⟨_, typed.putCell hlaid hkept htransitions trivial (.inl hnone) hinsert,
      frame_putCell hkept htransitions (fun hv => hinsert.mpr (.inl hv)) hnone trivial,
      htransitions, ?_⟩
    exact hinsert.mpr (.inr ⟨rfl, rfl⟩)

/-- A key in the form in which an object stores it. -/
def IsKey (h : Heap) (o key : Word) : Prop :=
  (key.isSmi = true ∧ h.isDense o = true) ∨ ∃ text : String, h.strings[text]? = some key

/-- Keys are small integers or strings, and the hole is neither. -/
theorem IsKey.ne_hole (typed : Typed h T) (isKey : IsKey h o key) : key ≠ h.hole := by
  rintro rfl
  obtain ⟨rest, hhole⟩ := typed.hole
  rcases isKey with ⟨hsmi, -⟩ | ⟨text, htext⟩
  · rw [isSmi_of_cell typed.laid hhole] at hsmi
    cases hsmi
  · rw [typed.interned.mp htext] at hhole
    cases hhole

/-- The keys of an object that keeps items are strings. -/
theorem IsKey.interned (isKey : IsKey h o key) (hdense : h.isDense o = false) :
    ∃ text : String, h.strings[text]? = some key := by
  rcases isKey with ⟨-, hflag⟩ | hinterned
  · rw [hdense] at hflag
    cases hflag
  · exact hinterned

theorem IsKey.frame {X : Word → Prop} {T' : Contents} {dense : Bool} {proto' : Word}
    {words' : List Word} (isKey : IsKey h o key) (typed : Typed h T) (typed' : Typed h' T')
    (frame : Frame X h h' T T') (record : HasRecord T o dense proto words)
    (record' : HasRecord T' o dense proto' words') : IsKey h' o key := by
  rcases isKey with ⟨hsmi, hdense⟩ | ⟨text, htext⟩
  · refine .inl ⟨hsmi, ?_⟩
    rw [isDense_record typed' record', ← isDense_record typed record]
    exact hdense
  · exact .inr ⟨text, frame.strings htext⟩

/-- A key is kept for an index of a dense object, and becomes an interned string otherwise. -/
theorem propertyKey_ok (typed : Typed h T) (value : IsValue T key)
    (run : propertyKey o key h = .ok own h') :
    ∃ T', Typed h' T' ∧ Frame Nobody h h' T T' ∧ h'.transitions = h.transitions ∧
      IsKey h' o own := by
  simp only [propertyKey, State.bind_eq_ok, State.get_eq_ok] at run
  obtain ⟨_, _, ⟨rfl, rfl⟩, run⟩ := run
  split at run
  · rename_i hindex
    obtain ⟨rfl, rfl⟩ := State.pure_eq_ok.mp run
    simp only [Bool.and_eq_true] at hindex
    exact ⟨T, typed, Frame.refl .., rfl, .inl hindex⟩
  · split at run
    · rename_i htext
      obtain ⟨rfl, rfl⟩ := State.pure_eq_ok.mp run
      exact ⟨T, typed, Frame.refl .., rfl, .inr (typed.text_of_text? value htext)⟩
    · rename_i htext
      have hnone : h.text? key = none := by simpa using htext
      obtain ⟨T', typed', frame', htransitions, hstring⟩ :=
        string_typed typed (h.utf8ByteSize_display_lt hnone) run
      exact ⟨T', typed', frame', htransitions, .inr ⟨_, hstring⟩⟩

/-! ### Slots -/

theorem ne_hole_of_interned (typed : Typed h T)
    (interned : ∃ text : String, h.strings[text]? = some key) : key ≠ h.hole :=
  IsKey.ne_hole (o := key) typed (.inr interned)

/-- No key stands twice in the storage of an object. -/
def Tidy (h : Heap) (T : Contents) : Prop :=
  ∀ o proto words, HasRecord T o false proto words → Distinct h.hole words

theorem Tracks.hole_notMem (typed : Typed h T) {origin : Word} {keys : List Word}
    (tracks : Tracks h T origin keys s words) : h.hole ∉ keys := by
  intro hmem
  exact ne_hole_of_interned typed (tracks.interned _ hmem) rfl

/-- A free item of keyed storage: the one behind the keys, for an object on the tree. -/
theorem freeSlot_ok (typed : Typed h T) (ho : T o = some (.object s st rest))
    (hs : T s = some (.shape flags proto)) (hst : T st = some (.store words))
    (hdense : flags.contains .dense = false) {slot : Nat} (run : freeSlot o h = .ok slot h') :
    ∃ T' st' n words', Typed h' T' ∧ Frame (· = o) h h' T T' ∧ Quiet h h' ∧
      T' o = some (.object s st' rest) ∧ T' st' = some (.store words') ∧
      words' = words ++ List.replicate n h.hole ∧ 2 * slot + 1 < words'.length ∧
      words'[2 * slot]? = some h.hole ∧
      ∀ {origin keys}, Tracks h T origin keys s words → slot = keys.length ∧
        Filled h.hole keys words' ∧ words'.length = 2 * capacity (keys.length + 1) := by
  have heven := (typed.formed_of ho hs hst).even hdense
  have hsmall := length_of_store typed.laid hst
  simp only [freeSlot, State.bind_eq_ok, State.get_eq_ok] at run
  obtain ⟨_, _, ⟨rfl, rfl⟩, run⟩ := run
  rw [storeOf_object typed.laid ho, findKey?_store typed.laid hst,
    itemCount_store typed.laid hst] at run
  cases hfound : (List.range (words.length / 2)).find? fun i => words[2 * i]? == some h.hole with
  | some found =>
    rw [hfound] at run
    obtain ⟨rfl, rfl⟩ := State.pure_eq_ok.mp run
    obtain ⟨hfree, hmem, -⟩ := List.find?_range_eq_some.mp hfound
    have hlt := List.mem_range.mp hmem
    refine ⟨T, st, 0, words, typed, Frame.refl .., Quiet.refl h, ho, hst, by simp, by omega,
      by simpa using hfree, ?_⟩
    intro origin keys tracks
    rw [tracks.filled.find?_hole (tracks.hole_notMem typed)] at hfound
    split at hfound
    · rename_i hroom
      cases hfound
      refine ⟨rfl, tracks.filled, ?_⟩
      have hlength := tracks.length
      rw [hlength, capacity, if_pos (by omega)]
    · cases hfound
  | none =>
    simp only [hfound, State.bind_eq_ok, State.pure_eq_ok] at run
    obtain ⟨_, h₁, grown, rfl, rfl⟩ := run
    have hwords : max (words.length / 2 * 2) Layout.Object.minItems * Layout.Item.words =
        2 * max (words.length / 2 * 2) 4 := Nat.mul_comm _ _
    rw [hwords] at grown
    obtain ⟨T', st', typed', frame', quiet', ho', hst'⟩ :=
      growStore_ok typed ho hs hst (by omega) (by omega) (fun _ => by omega) grown
    refine ⟨T', st', _, _, typed', frame', quiet', ho', hst', rfl, ?_, ?_, ?_⟩
    · rw [List.length_append, List.length_replicate]
      omega
    · rw [List.getElem?_append_right (by omega), List.getElem?_replicate, if_pos (by omega)]
    · intro origin keys tracks
      have hroom := tracks.filled.room
      have hlength := tracks.length
      rw [tracks.filled.find?_hole (tracks.hole_notMem typed)] at hfound
      split at hfound
      · cases hfound
      · refine ⟨by omega, tracks.filled.append (by omega), ?_⟩
        rw [List.length_append, List.length_replicate, capacity, if_neg (by omega)]
        unfold Layout.Object.minItems
        omega

/-- An object that keeps items gets one more key. -/
theorem addProperty_keyed (typed : Typed h T) (ho : T o = some (.object s st rest))
    (hs : T s = some (.shape flags proto)) (hst : T st = some (.store words))
    (hdense : flags.contains .dense = false) {result : Option Nat}
    (run : addProperty o key h = .ok result h') :
    ∃ T' slot s' st' flags' n words' , result = some slot ∧ Typed h' T' ∧ Frame (· = o) h h' T T' ∧
      T' o = some (.object s' st' rest) ∧ T' s' = some (.shape flags' proto) ∧
      T' st' = some (.store words') ∧ flags'.contains .dense = false ∧
      2 * slot + 1 < (words ++ List.replicate n h.hole).length ∧
      (words ++ List.replicate n h.hole)[2 * slot]? = some h.hole ∧
      words' = ((words ++ List.replicate n h.hole).set (2 * slot) key).set (2 * slot + 1) h.undefined ∧
      (flags'.contains .transition = true → flags.contains .transition = true ∧
        ∀ {origin keys}, Tracks h T origin keys s words → key ∉ keys →
          (∃ text : String, h.strings[text]? = some key) →
          Tracks h' T' origin (keys ++ [key]) s' words') := by
  simp only [addProperty, State.bind_eq_ok, State.get_eq_ok] at run
  obtain ⟨_, _, ⟨rfl, rfl⟩, run⟩ := run
  rw [isDense_object typed ho hs, hdense, shapeOf?_object typed.laid ho] at run
  simp only [Bool.false_eq_true, if_false, State.bind_eq_ok, State.get_eq_ok, State.pure_eq_ok] at run
  obtain ⟨slot, h₁, freed, _, _, ⟨rfl, rfl⟩, _, h₂, keyed, _, h₃, valued, _, h₄, moved, rfl, rfl⟩ := run
  obtain ⟨T₁, st₁, n, words₁, typed₁, frame₁, quiet₁, ho₁, hst₁, hgrown, hslot, hfree, hfilled⟩ :=
    freeSlot_ok typed ho hs hst hdense freed
  rw [storeOf_object typed₁.laid ho₁] at keyed valued
  obtain ⟨typed₂, frame₂, quiet₂⟩ := setItem_ok (i := 2 * slot) typed₁ ho₁ hst₁ (by omega)
    (by unfold Layout.Item.bytes; omega) keyed
  obtain ⟨typed₃, frame₃, quiet₃⟩ := setItem_ok (i := 2 * slot + 1) typed₂ (object_putStore ho₁ hst₁)
    (Function.update_self ..) (by rw [List.length_set]; omega)
    (by unfold Layout.Item.bytes Layout.Item.value; omega) valued
  rw [Function.update_idem] at typed₃ frame₃
  have hbefore := frame₁.trans (frame₂.trans frame₃)
  obtain ⟨T', s', flags', typed', frame₄, hstrings, ho', hst', hs', hdense', hmoved⟩ :=
    followTransition_ok typed₃ (object_putStore ho₁ hst₁) (hbefore.shapes hs)
      (Function.update_self ..) hdense moved
  have hframe := hbefore.trans frame₄
  refine ⟨T', slot, s', st₁, flags', n, _, rfl, typed', hframe, ho', hs', hst', hdense', hgrown ▸ hslot,
    hgrown ▸ hfree, by rw [hgrown], ?_⟩
  · intro hon
    obtain ⟨hon', hfew, hchild⟩ := hmoved hon
    refine ⟨hon', fun {origin keys} tracks hnew hinterned => ?_⟩
    obtain ⟨rfl, hkeys, hlength⟩ := hfilled tracks
    have htracks := tracks.frame hframe
    refine ⟨htracks.root, htracks.count, .snoc htracks.path hchild, ?_, ?_, ?_, ?_, ?_⟩
    · rw [hframe.kept.hole]
      exact (hkeys.setKey key (by omega)).setValue (by simp) _
    · rw [List.length_set, List.length_set, List.length_append]
      exact hlength
    · exact List.nodup_append.mpr ⟨tracks.distinct, List.nodup_singleton key,
        fun a ha b hb => by rw [List.mem_singleton.mp hb]; rintro rfl; exact hnew ha⟩
    · intro k hk
      rcases List.mem_append.mp hk with hold | hlast
      · exact htracks.interned k hold
      · obtain rfl := List.mem_singleton.mp hlast
        obtain ⟨text, htext⟩ := hinterned
        exact ⟨text, hframe.strings htext⟩
    · have hcount := tracks.path.keyCount_eq typed.tree
      rw [hbefore.counts hs, hcount, tracks.count] at hfew
      rw [List.length_append, List.length_singleton]
      omega

/-- A dense object makes room for an index, if it is small. -/
theorem addProperty_dense (typed : Typed h T) (ho : T o = some (.object s st rest))
    (hs : T s = some (.shape flags proto)) (hst : T st = some (.store words))
    (hdense : flags.contains .dense = true) {result : Option Nat}
    (run : addProperty o key h = .ok result h') :
    ∃ T' st' n, Typed h' T' ∧ Frame (· = o) h h' T T' ∧ T' o = some (.object s st' rest) ∧
      T' s = some (.shape flags proto) ∧
      T' st' = some (.store (words ++ List.replicate n h.hole)) ∧
      ∀ slot, result = some slot → key.toSmi? = some (slot : Int) ∧ slot < words.length + n := by
  have hsmall := length_of_store typed.laid hst
  simp only [addProperty, State.bind_eq_ok, State.get_eq_ok] at run
  obtain ⟨_, _, ⟨rfl, rfl⟩, run⟩ := run
  rw [isDense_object typed ho hs, hdense, storeOf_object typed.laid ho,
    storeLength_store typed.laid hst] at run
  simp only [if_true] at run
  -- Without growth the storage is the old one, followed by no holes.
  have hstay : T st = some (.store (words ++ List.replicate 0 h.hole)) := by simpa using hst
  cases hsmi : key.toSmi? with
  | none =>
    rw [hsmi] at run
    obtain ⟨rfl, rfl⟩ := State.pure_eq_ok.mp run
    exact ⟨T, st, 0, typed, Frame.refl .., ho, hs, hstay, nofun⟩
  | some index =>
    simp only [hsmi] at run
    split at run
    · rename_i hrange
      unfold maxDenseIndex at hrange
      have hindex : (index.toNat : Int) = index := Int.toNat_of_nonneg hrange.1
      split at run
      · rename_i hbeyond
        simp only [State.bind_eq_ok, State.pure_eq_ok] at run
        obtain ⟨_, h₁, grown, rfl, rfl⟩ := run
        obtain ⟨T', st', typed', frame', -, ho', hst'⟩ := growStore_ok typed ho hs hst (by omega)
          (by omega) (fun hoff => by simp [hdense] at hoff) grown
        refine ⟨T', st', _, typed', frame', ho', frame'.shapes hs, hst', ?_⟩
        intro slot hslot
        cases hslot
        exact ⟨by rw [hindex], by omega⟩
      · rename_i hwithin
        obtain ⟨rfl, rfl⟩ := State.pure_eq_ok.mp run
        refine ⟨T, st, 0, typed, Frame.refl .., ho, hs, hstay, ?_⟩
        intro slot hslot
        cases hslot
        exact ⟨by rw [hindex], by omega⟩
    · obtain ⟨rfl, rfl⟩ := State.pure_eq_ok.mp run
      exact ⟨T, st, 0, typed, Frame.refl .., ho, hs, hstay, nofun⟩

/-- An object keeps the words that it has behind its shape and its storage. -/
def KeepsRest (T T' : Contents) (o : Word) : Prop :=
  ∀ s st rest, T o = some (.object s st rest) → ∃ s' st', T' o = some (.object s' st' rest)

theorem KeepsRest.trans {T' T'' : Contents} (first : KeepsRest T T' o) (second : KeepsRest T' T'' o) :
    KeepsRest T T'' o := by
  intro s st rest ho
  obtain ⟨s', st', ho'⟩ := first s st rest ho
  exact second s' st' rest ho'

theorem keepsRest_of {T' : Contents} {s' st' : Word} (ho : T o = some (.object s st rest))
    (ho' : T' o = some (.object s' st' rest)) : KeepsRest T T' o := by
  intro s₁ st₁ rest₁ ho₁
  rw [ho] at ho₁
  cases ho₁
  exact ⟨s', st', ho'⟩

theorem Frame.keepsRest {T' : Contents} (frame : Frame Nobody h h' T T') (o : Word) :
    KeepsRest T T' o := by
  intro s st rest ho
  obtain ⟨s', st', rest', ho'⟩ := frame.objects ho
  have hold := (frame.same id ho').1
  rw [ho] at hold
  cases hold
  exact ⟨s, st, ho'⟩

/-! ### Lookup -/

theorem transition_of_dense (member : flags ∈ objectFlags) (hdense : flags.contains .dense = true) :
    flags.contains .transition = false := by
  simp only [objectFlags, List.mem_cons, List.not_mem_nil, or_false] at member
  rcases member with rfl | rfl | rfl | rfl | rfl
  · exact absurd hdense (by decide)
  · exact absurd hdense (by decide)
  · exact absurd hdense (by decide)
  · exact absurd hdense (by decide)
  · decide

/-- An update adds a key when the object keeps items and has none with the key. -/
theorem update_eq {h₁ : Heap} {T₁ : Contents} (typed₁ : Typed h₁ T₁)
    (keyed : propertyKey o key h = .ok own h₁) (ho : T₁ o = some (.object s st rest)) :
    past.update h o key =
      if h₁.isDense o = false ∧ h₁.ownSlot? o own = none then past.add o own else past := by
  unfold Past.update addedKey?
  rw [keyed]
  simp only [typed₁.isObject_object ho, Bool.true_and, Bool.and_eq_true, Bool.not_eq_true',
    Option.isNone_iff_eq_none]
  by_cases hadds : h₁.isDense o = false ∧ h₁.ownSlot? o own = none
  · rw [if_pos hadds, if_pos hadds]
  · rw [if_neg hadds, if_neg hadds]

theorem Tracks.notMem_of_ownSlot? (typed : Typed h T) (ho : T o = some (.object s st rest))
    (hs : T s = some (.shape flags proto)) (hst : T st = some (.store words))
    (hdense : flags.contains .dense = false) {origin : Word} {keys : List Word}
    (tracks : Tracks h T origin keys s words) (missing : h.ownSlot? o key = none) : key ∉ keys := by
  intro hmem
  obtain ⟨i, hi, hkey⟩ := List.getElem_of_mem hmem
  have hroom := tracks.filled.room
  have heven := tracks.filled.even
  rw [ownSlot?_keyed typed ho hs hst hdense, List.find?_range_eq_none] at missing
  have hfound := tracks.filled.key (List.getElem?_eq_getElem hi)
  have hnot := missing i (by omega)
  rw [hfound, hkey] at hnot
  simp at hnot

/-- What a search for a slot does to storage: values stay as they are under all other keys, and the
slot that was found, if any, is the one of the key. A key that was added has the value `undefined`. -/
structure Looked (hole undefined key : Word) (result : Option Nat) (dense : Bool) (words words' : List Word) :
    Prop where
  alike : Alike dense hole key words words'
  slot : ∀ slot, result = some slot → SlotOf dense words' key slot
  written : Written dense hole key (· = undefined) words words'

/-- One more key, on the object and in its past. -/
theorem addKey_tracked (typed : Typed h T) (tracked : Tracked Nobody h T past) (tidy : Tidy h T)
    (ho : T o = some (.object s st rest)) (hs : T s = some (.shape flags proto))
    (hst : T st = some (.store words)) (hdense : flags.contains .dense = false)
    (missing : h.ownSlot? o key = none) (interned : ∃ text : String, h.strings[text]? = some key)
    {result : Option Nat} (run : addProperty o key h = .ok result h') :
    ∃ T', Typed h' T' ∧ Frame (· = o) h h' T T' ∧ Tracked Nobody h' T' (past.add o key) ∧
      KeepsRest T T' o ∧ Revised T T' o (Looked h.hole h.undefined key result) := by
  obtain ⟨T', slot, s', st', flags', n, words', rfl, typed', frame', ho', hs', hst', hdense', hslot, hfree,
    hwords, hstep⟩ := addProperty_keyed typed ho hs hst hdense run
  have hsame : ∀ o', ¬o' = o → (past.add o key).origin o' = past.origin o' ∧
      (past.add o key).added o' = past.added o' := by
    intro o' hne
    exact ⟨rfl, Function.update_of_ne hne ..⟩
  have hrecord : HasRecord T o false proto words := ⟨s, st, rest, flags, ho, hs, hst, hdense⟩
  refine ⟨T', typed', frame', (tracked.frame typed frame' hsame).close ?_, keepsRest_of ho ho', ?_⟩
  · intro s₂ st₂ rest₂ flags₂ proto₂ words₂ ho₂ hs₂ hst₂ hon
    rw [ho'] at ho₂
    cases ho₂
    rw [hs'] at hs₂
    rw [hst'] at hst₂
    cases hs₂
    cases hst₂
    obtain ⟨hon', hnext⟩ := hstep hon
    obtain ⟨origin, horigin, tracks⟩ := tracked.tracks id ho hs hst hon'
    refine ⟨origin, horigin, ?_⟩
    have hadded : (past.add o key).added o = past.added o ++ [key] := Function.update_self ..
    rw [hadded]
    exact hnext tracks (tracks.notMem_of_ownSlot? typed ho hs hst hdense missing) interned
  · intro dense₂ proto₂ words₂ record₂
    obtain ⟨rfl, rfl, rfl⟩ := hrecord.unique record₂
    have hkey := ne_hole_of_interned typed interned
    have hdistinct := tidy o proto words hrecord
    have hlacks := (ownSlot?_eq_none typed hrecord).mp missing
    have hitem := alike_setItem h.undefined (hdistinct.append n) hfree hslot (.inr rfl)
      (.inl rfl) fun _ i hi => absurd ((getElem?_append_holes hkey).mp hi) (hlacks i)
    have halike := (Alike.append (fun _ => hdistinct) n).trans hitem
    rw [← hwords] at halike
    refine ⟨words', ⟨s', st', rest, flags', ho', hs', hst', hdense'⟩, halike, ?_, ?_⟩
    · intro slot' hsome
      cases hsome
      rw [hwords]
      refine ⟨?_, ?_⟩
      · rw [List.getElem?_set_ne (by omega), List.getElem?_set_self (by omega)]
      · rw [List.length_set, List.length_set]
        exact hslot
    · rw [hwords]
      exact (written_append (fun _ => (typed.formed_of ho hs hst).even hdense) n).trans (written_setItem (.inr ⟨rfl, rfl⟩))

/-- Room for an element, in a dense object. -/
theorem addElement_tracked (typed : Typed h T) (tracked : Tracked Nobody h T past)
    (ho : T o = some (.object s st rest)) (hs : T s = some (.shape flags proto))
    (hst : T st = some (.store words)) (hdense : flags.contains .dense = true)
    {result : Option Nat} (run : addProperty o key h = .ok result h') :
    ∃ T', Typed h' T' ∧ Frame (· = o) h h' T T' ∧ Tracked Nobody h' T' past ∧
      KeepsRest T T' o ∧ Revised T T' o (Looked h.hole h.undefined key result) := by
  have hoff := transition_of_dense (typed.formed_of ho hs hst).flags_mem hdense
  obtain ⟨T', st', n, typed', frame', ho', hs', hst', hslot⟩ :=
    addProperty_dense typed ho hs hst hdense run
  refine ⟨T', typed', frame', tracked.leave typed frame' ho' hs' hoff, keepsRest_of ho ho', ?_⟩
  intro dense₂ proto₂ words₂ record₂
  have hrecord : HasRecord T o true proto words := ⟨s, st, rest, flags, ho, hs, hst, hdense⟩
  obtain ⟨rfl, rfl, rfl⟩ := hrecord.unique record₂
  have halike : Alike true h.hole key words (words ++ List.replicate n h.hole) :=
    Alike.append (fun hkeyed => by cases hkeyed) n
  refine ⟨_, ⟨s, st', rest, flags, ho', hs', hst', hdense⟩, halike, ?_,
    written_append (fun hkeyed => by cases hkeyed) n⟩
  intro slot hsome
  obtain ⟨hkey, hlt⟩ := hslot slot hsome
  refine ⟨hkey, ?_⟩
  rw [List.length_append, List.length_replicate]
  exact hlt

/-- A value without storage has no slots. -/
theorem lookupSlot_storeless (storeless : h.isObject o = false) {up : Bool} {result : Option Nat}
    (run : lookupSlot o key up h = .ok result h') : result = none ∧ h' = h := by
  simp only [lookupSlot, State.bind_eq_ok, State.get_eq_ok] at run
  obtain ⟨_, _, ⟨rfl, rfl⟩, run⟩ := run
  simp only [storeless, Bool.not_false, if_true, State.pure_eq_ok] at run
  exact ⟨run.1.symm, run.2.symm⟩

/-- A search normalises the key, looks for it, and adds it if that is asked for. -/
theorem lookupSlot_cases (hobject : h.isObject o = true) {up : Bool} {result : Option Nat}
    (run : lookupSlot o key up h = .ok result h') :
    ∃ own h₁, propertyKey o key h = .ok own h₁ ∧
      (h₁.ownSlot? o own = result ∧ h' = h₁ ∧ (up = true → result ≠ none) ∨
        up = true ∧ h₁.ownSlot? o own = none ∧ addProperty o own h₁ = .ok result h') := by
  simp only [lookupSlot, State.bind_eq_ok, State.get_eq_ok] at run
  obtain ⟨_, _, ⟨rfl, rfl⟩, run⟩ := run
  simp only [hobject, Bool.not_true, Bool.false_eq_true, if_false, State.bind_eq_ok,
    State.get_eq_ok] at run
  obtain ⟨own, h₁, keyed, _, _, ⟨rfl, rfl⟩, run⟩ := run
  refine ⟨own, h₁, keyed, ?_⟩
  cases hfound : h₁.ownSlot? o own with
  | some slot =>
    simp only [hfound, State.pure_eq_ok] at run
    obtain ⟨rfl, rfl⟩ := run
    exact .inl ⟨rfl, rfl, fun _ => nofun⟩
  | none =>
    simp only [hfound] at run
    cases up with
    | true => exact .inr ⟨rfl, rfl, by simpa using run⟩
    | false =>
      simp only [Bool.false_eq_true, if_false, State.pure_eq_ok] at run
      obtain ⟨rfl, rfl⟩ := run
      exact .inl ⟨rfl, rfl, nofun⟩

/-- What a heap knows of its objects stays true when new cells are no objects. -/
theorem Tidy.frame (tidy : Tidy h T) (typed : Typed h T) {T' : Contents} {X : Word → Prop}
    (frame : Frame X h h' T T') (own : ∀ o proto words, X o → HasRecord T' o false proto words →
      Distinct h.hole words) : Tidy h' T' := by
  intro o proto words record
  rw [frame.kept.hole]
  by_cases hout : X o
  · exact own o proto words hout record
  · obtain ⟨s, st, rest, flags, ho, -, -, -⟩ := id record
    obtain ⟨dense₁, proto₁, words₁, record₁⟩ := typed.hasRecord (frame.same hout ho).1
    obtain ⟨rfl, rfl, rfl⟩ := record.unique (frame.record hout record₁)
    exact tidy o proto words record₁

theorem lookupSlot_ok (typed : Typed h T) (tracked : Tracked Nobody h T past) (tidy : Tidy h T)
    (ho : T o = some (.object s st rest)) (valueKey : IsValue T key) {up : Bool}
    {result : Option Nat} (run : lookupSlot o key up h = .ok result h') :
    ∃ own h₁ T', propertyKey o key h = .ok own h₁ ∧ IsKey h' o own ∧ Typed h' T' ∧
      Frame (· = o) h h' T T' ∧
      Tracked Nobody h' T' (if up then past.update h o key else past) ∧ KeepsRest T T' o ∧
      Revised T T' o (Looked h.hole h.undefined own result) := by
  obtain ⟨own, h₁, keyed, hcases⟩ := lookupSlot_cases (typed.isObject_object ho) run
  obtain ⟨T₁, typed₁, frame₁, htransitions, hown⟩ := propertyKey_ok typed valueKey keyed
  have tracked₁ : Tracked Nobody h₁ T₁ past := tracked.frame typed frame₁ fun _ _ => ⟨rfl, rfl⟩
  have tidy₁ : Tidy h₁ T₁ := tidy.frame typed frame₁ fun _ _ _ => False.elim
  have hframe₁ : Frame (· = o) h h₁ T T₁ := frame₁.mono fun _ => False.elim
  have hsame : Revised T T₁ o fun _ words words' => words = words' :=
    fun _ _ words record => ⟨words, frame₁.record id record, rfl⟩
  obtain ⟨s₁, st₁, rest₁, ho₁⟩ := frame₁.objects ho
  obtain ⟨flags, proto, words, formed⟩ := typed₁.formed ho₁
  have hdense₁ := isDense_object typed₁ ho₁ formed.shape
  rw [update_eq typed₁ keyed ho₁]
  rcases hcases with ⟨hfound, rfl, hsome⟩ | ⟨rfl, hfound, added⟩
  · -- Nothing is added.
    refine ⟨own, h', T₁, keyed, hown, typed₁, hframe₁, ?_, frame₁.keepsRest o, ?_⟩
    · have hpast : (if up = true then if h'.isDense o = false ∧ h'.ownSlot? o own = none
          then past.add o own else past else past) = past := by
        split
        · rename_i hup
          rw [if_neg fun hnone => hsome hup (hfound.symm.trans hnone.2)]
        · rfl
      rw [hpast]
      exact tracked₁
    · intro dense₂ proto₂ words₂ record₂
      have record₁ := frame₁.record id record₂
      refine ⟨words₂, record₁, .refl fun hdense => ?_, fun slot hslot => ?_, .refl _⟩
      · subst hdense
        exact tidy o proto₂ words₂ record₂
      · exact slotOf_ownSlot? typed₁ record₁ (hfound.trans hslot)
  · rw [if_pos rfl]
    obtain ⟨dense₁, proto₁, words₁, record₁⟩ := typed₁.hasRecord ho₁
    have hjoin : ∀ {T' : Contents}, Typed h' T' → Frame (· = o) h₁ h' T₁ T' →
        Revised T₁ T' o (Looked h₁.hole h₁.undefined own result) →
        IsKey h' o own ∧ Revised T T' o (Looked h.hole h.undefined own result) := by
      intro T' typed' frame' hrevised
      obtain ⟨words', record', -⟩ := hrevised dense₁ proto₁ words₁ record₁
      refine ⟨hown.frame typed₁ typed' frame' record₁ record', ?_⟩
      rw [frame₁.kept.hole, frame₁.kept.undefined] at hrevised
      exact hsame.trans hrevised fun hwords hlooked => hwords ▸ hlooked
    cases hdense : flags.contains .dense with
    | true =>
      obtain ⟨T', typed', frame', tracked', hrest, hrevised⟩ :=
        addElement_tracked typed₁ tracked₁ ho₁ formed.shape formed.store hdense added
      obtain ⟨hkey, hlooked⟩ := hjoin typed' frame' hrevised
      refine ⟨own, h₁, T', keyed, hkey, typed', hframe₁.trans frame', ?_,
        (frame₁.keepsRest o).trans hrest, hlooked⟩
      rw [hdense] at hdense₁
      rw [if_neg (by simp [hdense₁])]
      exact tracked'
    | false =>
      rw [hdense] at hdense₁
      obtain ⟨T', typed', frame', tracked', hrest, hrevised⟩ := addKey_tracked typed₁ tracked₁ tidy₁
        ho₁ formed.shape formed.store hdense hfound (hown.interned hdense₁) added
      obtain ⟨hkey, hlooked⟩ := hjoin typed' frame' hrevised
      refine ⟨own, h₁, T', keyed, hkey, typed', hframe₁.trans frame', ?_,
        (frame₁.keepsRest o).trans hrest, hlooked⟩
      rw [if_pos ⟨hdense₁, hfound⟩]
      exact tracked'

/-! ### Assignment -/

theorem writeSlot_ok (typed : Typed h T) (tracked : Tracked Nobody h T past) {slot : Nat}
    {v : Word} {u : Unit} {dense : Bool} (record : HasRecord T o dense proto words)
    (found : SlotOf dense words key slot) (proper : key ≠ h.hole)
    (run : writeSlot o slot v h = .ok u h') :
    ∃ T', Typed h' T' ∧ Frame (· = o) h h' T T' ∧ Tracked Nobody h' T' past ∧ KeepsRest T T' o ∧
      HasRecord T' o dense proto (words.set (valuePlace dense slot) v) := by
  obtain ⟨s, st, rest, flags, ho, hs, hst, hdense⟩ := record
  simp only [writeSlot, State.bind_eq_ok, State.get_eq_ok] at run
  obtain ⟨_, _, ⟨rfl, rfl⟩, written⟩ := run
  rw [storeOf_object typed.laid ho, slotOffset, isDense_object typed ho hs, hdense] at written
  have hkeeps : ∀ {words'}, KeepsRest T (update T st (some (.store words'))) o :=
    keepsRest_of ho (object_putStore ho hst)
  cases dense with
  | true =>
    obtain ⟨typed', frame', quiet'⟩ := setItem_ok (i := slot) typed ho hst found.2
      (by simp only [if_true, Layout.word]; omega) written
    have ho' : update T st (some (.store (words.set slot v))) o = some (.object s st rest) :=
      object_putStore ho hst
    refine ⟨_, typed', frame', tracked.leave typed frame' ho' (frame'.shapes hs)
      (transition_of_dense (typed.formed_of ho hs hst).flags_mem hdense), hkeeps, ?_⟩
    exact ⟨s, st, rest, flags, ho', frame'.shapes hs, Function.update_self .., hdense⟩
  | false =>
    obtain ⟨typed', frame', quiet'⟩ := setItem_ok (i := 2 * slot + 1) typed ho hst found.2
      (by simp only [Bool.false_eq_true, if_false, Layout.Item.bytes, Layout.Item.value]; omega) written
    have ho' : update T st (some (.store (words.set (2 * slot + 1) v))) o = some (.object s st rest) :=
      object_putStore ho hst
    have hlt := found.2
    have hused : words[2 * slot]? ≠ some h.hole := by
      rw [found.1]
      simpa using proper
    refine ⟨_, typed', frame', tracked.keep typed frame' ho hs hst ho' (Function.update_self ..)
      (fun filled => filled.setValue (filled.lt_of_used (by omega) hused) v) List.length_set, hkeeps, ?_⟩
    exact ⟨s, st, rest, flags, ho', frame'.shapes hs, Function.update_self .., hdense⟩

/-- The shape of a function's instances may be replaced, by one with the value as its prototype if it
is an object. -/
def Refreshed (T T' : Contents) (o v : Word) : Prop :=
  KeepsRest T T' o ∨ ∃ code instances target,
    (∃ s st old, T o = some (.object s st [code, old])) ∧
    (∃ s st, T' o = some (.object s st [code, instances])) ∧
    T' instances = some (.shape .transition target) ∧
    (∀ {s st rest}, T v = some (.object s st rest) → target = v) ∧ (IsValue T v → IsValue T' target)

/-- The code of a function stays the same. -/
theorem Refreshed.code {T' : Contents} {v code instances : Word} (refreshed : Refreshed T T' o v)
    (ho : T o = some (.object s st [code, instances])) :
    ∃ s' st' instances', T' o = some (.object s' st' [code, instances']) := by
  rcases refreshed with hrest | ⟨code', instances', target, ⟨s₀, st₀, old, hold⟩, ⟨s', st', ho'⟩, -⟩
  · obtain ⟨s', st', ho'⟩ := hrest _ _ _ ho
    exact ⟨s', st', instances, ho'⟩
  · rw [ho] at hold
    cases hold
    exact ⟨s', st', instances', ho'⟩

/-- The prototype of what has this value as its prototype: only objects are prototypes. -/
def protoFor (h : Heap) (v : Word) : Word := if h.isObject v then v else h.null

/-- A function constructs objects with a prototype. -/
def Constructs (T : Contents) (o target : Word) : Prop :=
  ∀ {s st code instances}, T o = some (.object s st [code, instances]) →
    T instances = some (.shape .transition target)

/-- A function has code, and other objects have none. -/
theorem isFunction_object (typed : Typed h T) (ho : T o = some (.object s st rest)) :
    h.isFunction o = true ↔ rest ≠ [] := by
  obtain ⟨flags, proto, words, formed⟩ := typed.formed ho
  rw [isFunction, typed.hasFlag_object ho formed.shape]
  cases hfunction : flags.contains .function with
  | true =>
    obtain ⟨code, instances, -, rfl, -⟩ := formed.function hfunction
    simp
  | false => simp [formed.plain hfunction]

/-- The storage of an object stays the same. -/
abbrev Unchanged (T T' : Contents) (o : Word) : Prop := Revised T T' o fun _ words words' => words = words'

theorem refreshInstanceShape_ok (typed : Typed h T) (tracked : Tracked Nobody h T past) {v : Word}
    {u : Unit} (ho : T o = some (.object s st rest)) (callable : h.isFunction o = true)
    (run : refreshInstanceShape o v h = .ok u h') :
    ∃ T', Typed h' T' ∧ Frame (· = o) h h' T T' ∧ Tracked Nobody h' T' past ∧ Refreshed T T' o v ∧
      Unchanged T T' o ∧ Constructs T' o (h.protoFor v) := by
  obtain ⟨flags, proto, words, formed⟩ := typed.formed ho
  have hfunction : flags.contains .function = true := by
    rw [← typed.hasFlag_object ho formed.shape .function]
    exact callable
  obtain ⟨code, instances, proto', rfl, hcell, hcount⟩ := formed.function hfunction
  have hread : h.read o Layout.Function.instanceShape = instances :=
    typed.laid.read (i := 3) ho rfl
  simp only [refreshInstanceShape, State.bind_eq_ok, State.get_eq_ok] at run
  obtain ⟨_, _, ⟨rfl, rfl⟩, run⟩ := run
  rw [instanceShape, if_pos callable, hread] at run
  have htarget : ∀ {s st rest}, T v = some (.object s st rest) → h.protoFor v = v :=
    fun hv => if_pos (typed.isObject_object hv)
  have hvalue : IsValue T v → IsValue T (h.protoFor v) := by
    intro value
    unfold protoFor
    split
    · exact value
    · obtain ⟨rest, hnull⟩ := typed.null
      exact .inr (.inl ⟨_, _, hnull⟩)
  rw [show (if h.isObject v = true then v else h.null) = h.protoFor v from rfl] at run
  generalize h.protoFor v = target at run htarget hvalue ⊢
  simp only at run
  split at run
  · simp only [State.bind_eq_ok] at run
    obtain ⟨fresh, h₁, allocated, linked⟩ := run
    obtain ⟨hnone, hlaid₁, hquiet₁⟩ := allocShape_ok typed.laid allocated
    obtain ⟨typed₁, frame₁⟩ := putFresh typed hlaid₁ hquiet₁ hnone (by decide : (8 : Nat) < 16)
      (fun _ => nofun) (· = o)
    have ho₁ := update_of_none (d := .shape .transition target) hnone ho
    obtain ⟨hlaid₂, hquiet₂⟩ := write_ok (n := .object s st [code, fresh]) (i := 3) typed₁.laid ho₁
      (by simp [Cell.words]) rfl linked
    have hplace : ∀ c, update T fresh (some (.shape .transition target)) o = some c →
        ∃ s st rest, c = .object s st rest := by
      intro c hc
      rw [ho₁] at hc
      cases hc
      exact ⟨_, _, _, rfl⟩
    have hroot : h₁.transitions.keyCount fresh = 0 := by
      rw [hquiet₁.transitions]
      exact typed.keyCount_of_none hnone
    have hs₁ := frame₁.shapes formed.shape
    have hst₁ := update_of_none (d := .shape .transition target) hnone formed.store
    have hformed₁ := typed₁.formed_of ho₁ hs₁ hst₁
    have hformed : Formed h₁ (update T fresh (some (.shape .transition target))) s st [code, fresh]
        flags proto words :=
      { hformed₁ with
        function := fun _ => ⟨code, fresh, target, rfl, Function.update_self .., hroot⟩
        plain := fun hoff => by simp [hfunction] at hoff }
    have typed₂ := typed₁.putObject hlaid₂ hquiet₂ hplace hformed (fun ho' => typed₁.owner ho' ho₁)
      (fun hoff hdense _ _ _ ho' => typed₁.lone ho' ho₁ hs₁ hoff hdense)
    have frame₂ : Frame (· = o) h h' T
        (update (update T fresh (some (.shape .transition target))) o
          (some (.object s st [code, fresh]))) :=
      frame₁.trans (frame_putObject hquiet₂ hplace)
    have hst₂ : update (update T fresh (some (.shape .transition target))) o
        (some (.object s st [code, fresh])) st = some (.store words) := store_putObject ho₁ hst₁
    refine ⟨_, typed₂, frame₂, tracked.keep typed frame₂ ho formed.shape formed.store
      (Function.update_self ..) hst₂ id rfl, .inr ⟨code, fresh, target, ⟨s, st, instances, ho⟩,
      ⟨s, st, Function.update_self ..⟩, ?_, htarget, fun value => frame₂.isValue (hvalue value)⟩, ?_, ?_⟩
    · rw [Function.update_of_ne (ne_of_none hnone ho).symm, Function.update_self]
    · intro dense₂ proto₂ words₂ record₂
      obtain ⟨rfl, rfl, rfl⟩ :=
        HasRecord.unique ⟨s, st, _, flags, ho, formed.shape, formed.store, rfl⟩ record₂
      exact ⟨words, ⟨s, st, _, flags, Function.update_self .., frame₂.shapes formed.shape, hst₂, rfl⟩, rfl⟩
    · intro s₂ st₂ code₂ instances₂ ho₂
      rw [Function.update_self] at ho₂
      cases ho₂
      rw [Function.update_of_ne (ne_of_none hnone ho).symm, Function.update_self]
  · rename_i hsame
    obtain ⟨-, rfl⟩ := State.pure_eq_ok.mp run
    refine ⟨T, typed, Frame.refl .., tracked, .inl ((Frame.refl h T _).keepsRest o),
      fun _ _ words record => ⟨words, record, rfl⟩, fun ho₂ => ?_⟩
    rw [ho] at ho₂
    cases ho₂
    rw [hcell, ← not_ne_iff.mp hsame]
    exact congrArg (fun p => some (Cell.shape .transition p)) (typed.laid.read (i := 2) hcell rfl).symm

/-- What an assignment does to storage, when a search for the slot gave a result. -/
structure Assigned (hole undefined key value : Word) (result : Option Nat) (dense : Bool)
    (words words' : List Word) : Prop where
  alike : Alike dense hole key words words'
  entry : result ≠ none → value ≠ hole → Entry dense hole words' key value
  written : Written dense hole key (fun w => w = undefined ∨ w = value) words words'

/-- Whether an assignment to a property may give a function another shape for its instances. -/
def Redirects (h : Heap) (o key : Word) : Prop := h.isFunction o = true ∧ h.text? key = some "prototype"

/-- What an assignment, for which a search for the slot gave a result, does to the shape of a function's
instances. -/
structure Redirected (h : Heap) (T T' : Contents) (o key v : Word) (result : Option Nat) : Prop where
  refreshed : Refreshed T T' o v
  kept : ¬(result ≠ none ∧ Redirects h o key) → KeepsRest T T' o
  constructs : IsValue T v → result ≠ none → Redirects h o key → Constructs T' o (h.protoFor v)

/-- Where values stay values and what is no object becomes none, prototypes are chosen alike. -/
theorem Frame.protoFor_eq {X : Word → Prop} {T' : Contents} {v : Word} (frame : Frame X h h' T T') (typed : Typed h T)
    (typed' : Typed h' T') (value : IsValue T v) : h'.protoFor v = h.protoFor v := by
  have hobject : h'.isObject v = h.isObject v := by
    rw [Bool.eq_iff_iff]
    constructor
    · intro hnew
      obtain ⟨s', st', rest', ho'⟩ := typed'.object_of_isObject (frame.isValue value) hnew
      rcases value with hsmi | ⟨_, _, hleaf⟩ | ⟨_, htext⟩ | ⟨_, _, _, ho⟩
      · rw [isSmi_of_cell typed'.laid ho'] at hsmi
        cases hsmi
      · rw [frame.leaves hleaf] at ho'
        cases ho'
      · rw [frame.texts htext] at ho'
        cases ho'
      · exact typed.isObject_object ho
    · intro hold
      obtain ⟨s, st, rest, ho⟩ := typed.object_of_isObject value hold
      obtain ⟨s', st', rest', ho'⟩ := frame.objects ho
      exact typed'.isObject_object ho'
  rw [protoFor, protoFor, hobject, frame.kept.null]

theorem setProperty_ok (typed : Typed h T) (tracked : Tracked Nobody h T past) (tidy : Tidy h T)
    (ho : T o = some (.object s st rest)) (valueKey : IsValue T key) {v : Word} {u : Unit}
    (run : setProperty o key v h = .ok u h') :
    ∃ own h₁ h₂ result T', propertyKey o key h = .ok own h₁ ∧
      lookupSlot o key true h = .ok result h₂ ∧ (result = none → h' = h₂) ∧ IsKey h' o own ∧
      Typed h' T' ∧ Frame (· = o) h h' T T' ∧ Tracked Nobody h' T' (past.update h o key) ∧
      Redirected h T T' o key v result ∧ Revised T T' o (Assigned h.hole h.undefined own v result) := by
  simp only [setProperty, State.bind_eq_ok] at run
  obtain ⟨result, h₂, looked, run⟩ := run
  obtain ⟨own, h₁, T₂, keyed, hkey, typed₂, frame₂, tracked₂, hrest₂, hrevised₂⟩ :=
    lookupSlot_ok typed tracked tidy ho valueKey looked
  rw [if_pos rfl] at tracked₂
  cases result with
  | none =>
    obtain ⟨-, rfl⟩ := State.pure_eq_ok.mp run
    refine ⟨own, h₁, h₂, none, T₂, keyed, looked, fun _ => rfl, hkey, typed₂, frame₂, tracked₂,
      ⟨.inl hrest₂, fun _ => hrest₂, fun _ hsome => absurd rfl hsome⟩, ?_⟩
    intro dense proto words record
    obtain ⟨words', record', hlooked⟩ := hrevised₂ dense proto words record
    exact ⟨words', record', hlooked.alike, fun hsome => absurd rfl hsome, hlooked.written.mono fun _ => .inl⟩
  | some slot =>
    simp only [State.bind_eq_ok, State.get_eq_ok] at run
    obtain ⟨_, h₃, written, _, _, ⟨rfl, rfl⟩, run⟩ := run
    obtain ⟨dense, proto, words, record⟩ := typed.hasRecord ho
    obtain ⟨words₂, record₂, hlooked⟩ := hrevised₂ dense proto words record
    have hslot := hlooked.slot slot rfl
    have hproper₂ := hkey.ne_hole typed₂
    have hproper : own ≠ h.hole := frame₂.kept.hole ▸ hproper₂
    obtain ⟨T₃, typed₃, frame₃, tracked₃, hrest₃, record₃⟩ :=
      writeSlot_ok typed₂ tracked₂ record₂ hslot hproper₂ written
    have hkey₃ := hkey.frame typed₂ typed₃ frame₃ record₂ record₃
    have hframe := frame₂.trans frame₃
    have hassigned : Assigned h.hole h.undefined own v (some slot) dense words
        (words₂.set (valuePlace dense slot) v) :=
      ⟨hlooked.alike.trans (hslot.alike_set hlooked.alike.distinct v hproper),
        fun _ hv => hslot.entry_set hproper hv, (hlooked.written.mono fun _ => .inl).trans
          ((hslot.written_set v).mono fun _ => .inr)⟩
    have hrevised₃ : Revised T T₃ o (Assigned h.hole h.undefined own v (some slot)) := by
      intro dense' proto' words' record'
      obtain ⟨rfl, rfl, rfl⟩ := record.unique record'
      exact ⟨_, record₃, hassigned⟩
    have hredirects : h₃.isFunction o = true ∧ h₃.text? key = some "prototype" ↔ Redirects h o key := by
      obtain ⟨s₃, st₃, ho₃⟩ := (hrest₂.trans hrest₃) _ _ _ ho
      rw [Redirects, isFunction_object typed₃ ho₃, isFunction_object typed ho, hframe.text?_eq typed typed₃ valueKey]
    split at run
    · rename_i hprototype
      obtain ⟨s₃, st₃, rest₃, ho₃⟩ := hframe.objects ho
      obtain ⟨T₄, typed₄, frame₄, tracked₄, hrefreshed, hunchanged, hconstructs⟩ :=
        refreshInstanceShape_ok typed₃ tracked₃ ho₃ hprototype.1 run
      obtain ⟨words₄, record₄, -⟩ := hunchanged dense proto _ record₃
      refine ⟨own, h₁, h₂, some slot, T₄, keyed, looked, nofun,
        hkey₃.frame typed₃ typed₄ frame₄ record₃ record₄, typed₄, hframe.trans frame₄, tracked₄,
        ⟨?_, fun hno => absurd ⟨by simp, hredirects.mp hprototype⟩ hno, fun value _ _ => hframe.protoFor_eq typed typed₃ value ▸ hconstructs⟩,
        hrevised₃.trans hunchanged fun hfirst hwords => hwords ▸ hfirst⟩
      rcases hrefreshed with hrest₄ | ⟨code, instances, target, ⟨s, st, old, hold⟩, ho₄, hcell,
        htarget, hvalue⟩
      · exact .inl ((hrest₂.trans hrest₃).trans hrest₄)
      · refine .inr ⟨code, instances, target, ?_, ho₄, hcell, fun hv => ?_,
          fun value => hvalue (hframe.isValue value)⟩
        · obtain ⟨s', st', ho'⟩ := (hrest₂.trans hrest₃) _ _ _ ho
          rw [hold] at ho'
          cases ho'
          exact ⟨_, _, old, ho⟩
        · obtain ⟨s', st', rest', hv'⟩ := hframe.objects hv
          exact htarget hv'
    · rename_i hother
      obtain ⟨-, rfl⟩ := State.pure_eq_ok.mp run
      exact ⟨own, h₁, h₂, some slot, T₃, keyed, looked, nofun, hkey₃, typed₃, hframe, tracked₃,
        ⟨.inl (hrest₂.trans hrest₃), fun _ => hrest₂.trans hrest₃, fun _ _ hyes => absurd (hredirects.mpr hyes) hother⟩,
        hrevised₃⟩

/-- Nothing is assigned to a value without storage. -/
theorem setProperty_storeless (storeless : h.isObject o = false) {v : Word} {u : Unit}
    (run : setProperty o key v h = .ok u h') : h' = h := by
  simp only [setProperty, State.bind_eq_ok] at run
  obtain ⟨result, h₁, looked, run⟩ := run
  obtain ⟨rfl, rfl⟩ := lookupSlot_storeless storeless looked
  exact (State.pure_eq_ok.mp run).2.symm

/-! ### Deletion -/

/-- Key and value of an item are overwritten. -/
theorem clearItem_ok (typed : Typed h T) (ho : T o = some (.object s st rest))
    (hst : T st = some (.store words)) {slot : Nat} (hslot : 2 * slot + 1 < words.length) {v : Word}
    {gone : Bool} (run : (do
      let store := (← get).storeOf o
      let offset := Layout.Store.items + slot * Layout.Item.bytes
      write store offset v
      write store (offset + Layout.Item.value) v
      return true : HeapM Bool) h = .ok gone h') :
    ∃ T', Typed h' T' ∧ Frame (· = o) h h' T T' ∧ T' o = some (.object s st rest) ∧
      T' st = some (.store ((words.set (2 * slot) v).set (2 * slot + 1) v)) := by
  simp only [State.bind_eq_ok, State.get_eq_ok, State.pure_eq_ok] at run
  obtain ⟨_, _, ⟨rfl, rfl⟩, _, h₁, keyed, _, h₂, valued, -, rfl⟩ := run
  rw [storeOf_object typed.laid ho] at keyed valued
  obtain ⟨typed₁, frame₁, -⟩ := setItem_ok (i := 2 * slot) typed ho hst (by omega)
    (by unfold Layout.Item.bytes; omega) keyed
  obtain ⟨typed₂, frame₂, -⟩ := setItem_ok (i := 2 * slot + 1) typed₁ (object_putStore ho hst)
    (Function.update_self ..) (by rw [List.length_set]; omega)
    (by unfold Layout.Item.bytes Layout.Item.value; omega) valued
  rw [Function.update_idem] at typed₂ frame₂
  exact ⟨_, typed₂, frame₁.trans frame₂, object_putStore ho hst, Function.update_self ..⟩

/-- A value without storage has nothing to delete. -/
theorem deleteProperty_storeless (storeless : h.isObject o = false) {gone : Bool}
    (run : deleteProperty o key h = .ok gone h') : h' = h := by
  simp only [deleteProperty, State.bind_eq_ok, State.get_eq_ok] at run
  obtain ⟨_, _, ⟨rfl, rfl⟩, run⟩ := run
  simp only [storeless, Bool.not_false, if_true, State.pure_eq_ok] at run
  exact run.2.symm

/-- What a deletion does to storage. -/
structure Deleted (hole key : Word) (dense : Bool) (words words' : List Word) : Prop where
  alike : Alike dense hole key words words'
  lacks : Lacks dense hole words' key
  written : Written dense hole key (fun _ => False) words words'

/-- An item is freed: an object on the tree leaves it first. -/
theorem deleteItem_ok (typed : Typed h T) (tracked : Tracked Nobody h T past)
    (ho : T o = some (.object s st rest)) (hs : T s = some (.shape flags proto))
    (hst : T st = some (.store words)) (hdense : flags.contains .dense = false) {slot : Nat}
    (hslot : 2 * slot + 1 < words.length) {gone : Bool} (run : (do
      if h.hasFlag o .transition then toDictionary o
      let store := (← get).storeOf o
      let offset := Layout.Store.items + slot * Layout.Item.bytes
      write store offset h.hole
      write store (offset + Layout.Item.value) h.hole
      return true : HeapM Bool) h = .ok gone h') :
    ∃ T', Typed h' T' ∧ Frame (· = o) h h' T T' ∧ Tracked Nobody h' T' past ∧ KeepsRest T T' o ∧
      HasRecord T' o false proto (cleared false h.hole words slot) := by
  rw [typed.hasFlag_object ho hs] at run
  split at run
  · obtain ⟨_, h₁, moved, freed⟩ := State.bind_eq_ok.mp run
    obtain ⟨T₁, s₁, typed₁, frame₁, -, ho₁, hst₁, hs₁⟩ := toDictionary_ok typed ho hs hst hdense moved
    obtain ⟨T₂, typed₂, frame₂, ho₂, hst₂⟩ := clearItem_ok typed₁ ho₁ hst₁ hslot freed
    obtain ⟨-, -, hoff, hkeyed, -⟩ := flags_without (typed.formed_of ho hs hst).flags_mem hdense
    have hs₂ := frame₂.shapes hs₁
    have hframe := frame₁.trans frame₂
    exact ⟨T₂, typed₂, hframe, tracked.leave typed hframe ho₂ hs₂ hoff, keepsRest_of ho ho₂,
      s₁, st, rest, _, ho₂, hs₂, hst₂, hkeyed⟩
  · rename_i hoff
    obtain ⟨T₁, typed₁, frame₁, ho₁, hst₁⟩ := clearItem_ok typed ho hst hslot run
    have hs₁ := frame₁.shapes hs
    exact ⟨T₁, typed₁, frame₁, tracked.leave typed frame₁ ho₁ hs₁ (by simpa using hoff),
      keepsRest_of ho ho₁, s, st, rest, flags, ho₁, hs₁, hst₁, hdense⟩

theorem deleteProperty_ok (typed : Typed h T) (tracked : Tracked Nobody h T past) (tidy : Tidy h T)
    (ho : T o = some (.object s st rest)) (valueKey : IsValue T key) {gone : Bool}
    (run : deleteProperty o key h = .ok gone h') :
    ∃ own h₁ T', propertyKey o key h = .ok own h₁ ∧ IsKey h' o own ∧ Typed h' T' ∧
      Frame (· = o) h h' T T' ∧ Tracked Nobody h' T' past ∧ KeepsRest T T' o ∧
      Revised T T' o (Deleted h.hole own) := by
  simp only [deleteProperty, State.bind_eq_ok, State.get_eq_ok] at run
  obtain ⟨_, _, ⟨rfl, rfl⟩, run⟩ := run
  simp only [typed.isObject_object ho, Bool.not_true, Bool.false_eq_true, if_false,
    State.bind_eq_ok, State.get_eq_ok] at run
  obtain ⟨own, h₁, keyed, _, _, ⟨rfl, rfl⟩, run⟩ := run
  obtain ⟨T₁, typed₁, frame₁, htransitions, hown⟩ := propertyKey_ok typed valueKey keyed
  have hproper₁ := hown.ne_hole typed₁
  have hproper : own ≠ h.hole := frame₁.kept.hole ▸ hproper₁
  have tracked₁ : Tracked Nobody h₁ T₁ past := tracked.frame typed frame₁ fun _ _ => ⟨rfl, rfl⟩
  have hframe₁ : Frame (· = o) h h₁ T T₁ := frame₁.mono fun _ => False.elim
  obtain ⟨dense, proto, words, record⟩ := typed.hasRecord ho
  have hdistinct : dense = false → Distinct h.hole words := by
    rintro rfl
    exact tidy o proto words record
  have record₁ := frame₁.record id record
  have hrevised : ∀ {T' : Contents} {words'}, HasRecord T' o dense proto words' →
      Deleted h.hole own dense words words' → Revised T T' o (Deleted h.hole own) := by
    intro T' words' record' hdeleted dense₂ proto₂ words₂ record₂
    obtain ⟨rfl, rfl, rfl⟩ := record.unique record₂
    exact ⟨words', record', hdeleted⟩
  cases hfound : h₁.ownSlot? o own with
  | none =>
    simp only [hfound, State.pure_eq_ok] at run
    obtain ⟨-, rfl⟩ := run
    have hlacks := (ownSlot?_eq_none typed₁ record₁).mp hfound
    rw [frame₁.kept.hole] at hlacks
    exact ⟨own, h₁, T₁, keyed, hown, typed₁, hframe₁, tracked₁, frame₁.keepsRest o,
      hrevised record₁ ⟨.refl hdistinct, hlacks, .refl _⟩⟩
  | some slot =>
    have hslot := slotOf_ownSlot? typed₁ record₁ hfound
    have hdeleted : Deleted h.hole own dense words (cleared dense h.hole words slot) :=
      ⟨hslot.alike_cleared hdistinct, hslot.lacks_cleared hdistinct hproper, written_cleared⟩
    simp only [hfound] at run
    rw [isDense_record typed₁ record₁] at run
    cases dense with
    | true =>
      simp only [if_true, State.bind_eq_ok, State.pure_eq_ok] at run
      obtain ⟨_, h₂, written, -, rfl⟩ := run
      obtain ⟨T₂, typed₂, frame₂, tracked₂, hrest₂, record₂⟩ :=
        writeSlot_ok typed₁ tracked₁ record₁ hslot hproper₁ written
      have hkey := hown.frame typed₁ typed₂ frame₂ record₁ record₂
      rw [frame₁.kept.hole] at record₂
      exact ⟨own, h₁, T₂, keyed, hkey, typed₂, hframe₁.trans frame₂, tracked₂,
        (frame₁.keepsRest o).trans hrest₂, hrevised record₂ hdeleted⟩
    | false =>
      simp only [Bool.false_eq_true, if_false] at run
      obtain ⟨s₁, st₁, rest₁, flags, ho₁, hs₁, hst₁, hdense⟩ := id record₁
      obtain ⟨T₂, typed₂, frame₂, tracked₂, hrest₂, record₂⟩ :=
        deleteItem_ok typed₁ tracked₁ ho₁ hs₁ hst₁ hdense hslot.2 run
      have hkey := hown.frame typed₁ typed₂ frame₂ record₁ record₂
      rw [frame₁.kept.hole] at record₂
      exact ⟨own, h₁, T₂, keyed, hkey, typed₂, hframe₁.trans frame₂, tracked₂,
        (frame₁.keepsRest o).trans hrest₂, hrevised record₂ hdeleted⟩

end ScriptEngine.Heap
