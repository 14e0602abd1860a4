import ScriptEngine.Proofs.Heap.Tracking

/-!
Writes to objects and to their storage: items, growth, and the moves from shape to shape. Each
leaves a heap whose cells fit together, in which all other objects are as before.
-/

namespace ScriptEngine.Heap

open Function (update)

variable {h h' : Heap} {T : Contents} {o w s st : Word} {words rest : List Word}
  {flags : ShapeFlags} {proto : Word} {u : Unit}

/-! ### Frames of single writes -/

theorem frame_putCell {c : Cell} (kept : Kept h h') (transitions : h'.transitions = h.transitions)
    (strings : ∀ {text : String} {w}, h.strings[text]? = some w → h'.strings[text]? = some w)
    (fresh : T w = none) (plain : Plain c) :
    Frame Nobody h h' T (update T w (some c)) := by
  have hkeep : ∀ {v d}, T v = some d → update T w (some c) v = some d := update_of_none fresh
  refine ⟨kept, strings, ?_, hkeep, ?_, hkeep, hkeep, fun ho => ⟨_, _, _, hkeep ho⟩, ?_⟩
  · rw [transitions]
    exact id
  · rw [transitions]
    exact fun _ => rfl
  · intro o s st rest _ ho
    have hne : o ≠ w := by
      rintro rfl
      rw [Function.update_self] at ho
      cases ho
      exact plain
    rw [Function.update_of_ne hne] at ho
    exact ⟨ho, hkeep⟩

theorem frame_putObject (quiet : Quiet h h')
    (place : ∀ c, T o = some c → ∃ s st rest, c = .object s st rest) :
    Frame (· = o) h h' T (update T o (some (.object s st rest))) := by
  have hkeep : ∀ {v d}, T v = some d → (∀ s st rest, d ≠ .object s st rest) →
      update T o (some (.object s st rest)) v = some d := by
    intro v d hv hother
    have hne : v ≠ o := by
      rintro rfl
      obtain ⟨s', st', rest', rfl⟩ := place d hv
      exact hother s' st' rest' rfl
    rw [Function.update_of_ne hne, hv]
  refine ⟨quiet.toKept, ?_, ?_, fun hs => hkeep hs fun _ _ _ => nofun, ?_,
    fun hw => hkeep hw fun _ _ _ => nofun, fun hw => hkeep hw fun _ _ _ => nofun, ?_, ?_⟩
  · rw [quiet.strings]
    exact id
  · rw [quiet.transitions]
    exact id
  · rw [quiet.transitions]
    exact fun _ => rfl
  · intro o' s' st' rest' ho
    by_cases hoo : o' = o
    · subst hoo
      exact ⟨s, st, rest, Function.update_self ..⟩
    · exact ⟨s', st', rest', by rw [Function.update_of_ne hoo, ho]⟩
  · intro o' s' st' rest' hoo ho
    rw [Function.update_of_ne hoo] at ho
    exact ⟨ho, fun hst => hkeep hst fun _ _ _ => nofun⟩

/-- Objects are not where storage is. -/
theorem object_putStore {words' : List Word} (ho : T o = some (.object s st rest))
    (hst : T st = some (.store words)) :
    update T st (some (.store words')) o = some (.object s st rest) := by
  rw [Function.update_of_ne, ho]
  rintro rfl
  rw [hst] at ho
  cases ho

theorem store_putObject {s' st' : Word} {rest' : List Word} (ho : T o = some (.object s st rest))
    (hst : T st = some (.store words)) :
    update T o (some (.object s' st' rest')) st = some (.store words) := by
  rw [Function.update_of_ne, hst]
  rintro rfl
  rw [hst] at ho
  cases ho

theorem frame_putStore (typed : Typed h T) (quiet : Quiet h h') {words' : List Word}
    (ho : T o = some (.object s st rest)) (hst : T st = some (.store words)) :
    Frame (· = o) h h' T (update T st (some (.store words'))) := by
  have hkeep : ∀ {v d}, T v = some d → (∀ words, d ≠ .store words) →
      update T st (some (.store words')) v = some d := by
    intro v d hv hother
    have hne : v ≠ st := by
      rintro rfl
      rw [hst] at hv
      cases hv
      exact hother words rfl
    rw [Function.update_of_ne hne, hv]
  refine ⟨quiet.toKept, ?_, ?_, fun hs => hkeep hs fun _ => nofun, ?_,
    fun hw => hkeep hw fun _ => nofun, fun hw => hkeep hw fun _ => nofun,
    fun ho => ⟨_, _, _, hkeep ho fun _ => nofun⟩, ?_⟩
  · rw [quiet.strings]
    exact id
  · rw [quiet.transitions]
    exact id
  · rw [quiet.transitions]
    exact fun _ => rfl
  · intro o' s' st' rest' hoo ho'
    have hne : o' ≠ st := by
      rintro rfl
      rw [Function.update_self] at ho'
      cases ho'
    rw [Function.update_of_ne hne] at ho'
    refine ⟨ho', fun hst' => ?_⟩
    have hapart : st' ≠ st := by
      rintro rfl
      exact hoo (typed.owner ho' ho)
    rw [Function.update_of_ne hapart, hst']

/-- A new cell that is neither an object nor text. -/
theorem putFresh (typed : Typed h T) {c : Cell} (laid : Laid h' (update T w (some c)))
    (quiet : Quiet h h') (fresh : T w = none) (plain : Plain c)
    (other : ∀ text, c ≠ .text text) (X : Word → Prop) :
    Typed h' (update T w (some c)) ∧ Frame X h h' T (update T w (some c)) := by
  constructor
  · refine typed.putCell laid quiet.toKept quiet.transitions plain (.inl fresh) ?_
    intro text v
    rw [quiet.strings]
    simp [other]
  · have hframe := frame_putCell quiet.toKept quiet.transitions (by rw [quiet.strings]; exact id)
      fresh plain
    exact hframe.mono fun _ => False.elim

/-! ### Items and growth -/

/-- A word of the storage of an object is written. -/
theorem setItem_ok (typed : Typed h T) (ho : T o = some (.object s st rest))
    (hst : T st = some (.store words)) {i offset : Nat} {v : Word} (hi : i < words.length)
    (hoffset : offset = Layout.Store.items + 8 * i) (run : write st offset v h = .ok u h') :
    Typed h' (update T st (some (.store (words.set i v)))) ∧
      Frame (· = o) h h' T (update T st (some (.store (words.set i v)))) ∧ Quiet h h' := by
  have hplace : offset = 8 * (i + 2) := by
    rw [hoffset]
    unfold Layout.Store.items
    omega
  rw [hplace] at run
  obtain ⟨hlaid, hquiet⟩ := write_ok (n := .store (words.set i v)) typed.laid hst
    (by simp only [Cell.words, List.length_cons]; omega) (by simp [Cell.words]) run
  refine ⟨typed.putCell hlaid hquiet.toKept hquiet.transitions trivial ?_ ?_,
    frame_putStore typed hquiet ho hst, hquiet⟩
  · exact .inr ⟨words, _, hst, rfl, List.length_set⟩
  · intro text v
    rw [hquiet.strings]
    simp

/-- The contents of one storage are copied to the front of another that is all free. -/
theorem copy_ok {grown hole : Word} {n : Nat} (laid : Laid h T) (hst : T st = some (.store words))
    (hgrown : T grown = some (.store (List.replicate n hole))) (apart : grown ≠ st)
    (more : words.length ≤ n) {m : Memory}
    (copied : h.memory.copy (st.address + Layout.Store.items) (grown.address + Layout.Store.items)
      words.length = m) :
    Laid { h with memory := m }
      (update T grown (some (.store (words ++ List.replicate (n - words.length) hole)))) := by
  have hsource := laid.aligned hst
  have htarget := laid.aligned hgrown
  have hapart := laid.apart hst hgrown apart.symm
  simp only [Cell.size, Cell.words, List.length_cons, List.length_replicate] at hapart
  unfold Layout.Store.items at copied
  subst copied
  refine laid.revise hgrown ?_ ?_ ?_
  · simp only [Cell.words, List.length_cons, List.length_append, List.length_replicate]
    omega
  · intro x hx hout
    simp only [Cell.size, Cell.words, List.length_cons, List.length_replicate] at hout
    rw [Memory.load_copy _ _ _ _ (by omega) (by omega) hx (by omega), if_neg (by omega)]
  · have hwords := laid.contents hst
    have hfree := laid.contents hgrown
    have hcount : (Cell.words h.rootShape (.store (List.replicate n hole))).length =
        2 + words.length + (n - words.length) := by
      simp only [Cell.words, List.length_cons, List.length_replicate]
      omega
    have hitems : h.memory.wordsAt (st.address + 16) words.length = words := by
      simp only [Cell.words, List.length_cons] at hwords
      rw [Memory.wordsAt_succ, Memory.wordsAt_succ] at hwords
      simp only [Nat.add_assoc, List.cons.injEq] at hwords
      exact hwords.2.2
    rw [hcount] at hfree ⊢
    rw [Memory.wordsAt_copy _ 2 _ _ htarget (by omega) (by omega), hfree, hitems]
    simp only [Cell.words, List.length_append, List.length_replicate, List.take_succ_cons,
      List.take_zero, List.cons_append, List.nil_append]
    have hlength : words.length + (n - words.length) = n := by omega
    rw [hlength, Nat.add_comm 2, List.drop_succ_cons, List.drop_succ_cons, List.drop_replicate]

/-- Longer storage starts with what the old one held. -/
theorem growStore_ok (typed : Typed h T) (ho : T o = some (.object s st rest))
    (hs : T s = some (.shape flags proto)) (hst : T st = some (.store words)) {n : Nat}
    (more : words.length ≤ n) (small : n < 2 ^ 60)
    (even : flags.contains .dense = false → n % 2 = 0) (run : growStore o n h = .ok u h') :
    ∃ T' grown, Typed h' T' ∧ Frame (· = o) h h' T T' ∧ Quiet h h' ∧
      T' o = some (.object s grown rest) ∧
      T' grown = some (.store (words ++ List.replicate (n - words.length) h.hole)) := by
  simp only [growStore, State.bind_eq_ok, State.get_eq_ok, State.modify_eq_ok] at run
  obtain ⟨_, _, ⟨rfl, rfl⟩, grown, h₁, allocated, _, _, rfl, linked⟩ := run
  rw [storeOf_object typed.laid ho, storeLength_store typed.laid hst, Nat.min_eq_left more] at linked
  obtain ⟨hnone, hlaid₁, hquiet₁⟩ := allocStore_ok typed.laid small allocated
  have hlaid₂ := copy_ok hlaid₁ (update_of_none hnone hst) (Function.update_self ..)
    (ne_of_none hnone hst).symm more rfl
  rw [Function.update_idem] at hlaid₂
  generalize hitems : words ++ List.replicate (n - words.length) h.hole = items at hlaid₂ ⊢
  have hlength : items.length = n := by
    rw [← hitems, List.length_append, List.length_replicate]
    omega
  have hquiet₂ : Quiet h₁ { h₁ with memory := h₁.memory.copy (st.address + Layout.Store.items) (grown.address + Layout.Store.items) words.length } :=
    ⟨⟨rfl, rfl, rfl, rfl, rfl, rfl⟩, rfl, rfl⟩
  generalize { h₁ with memory := h₁.memory.copy (st.address + Layout.Store.items) (grown.address + Layout.Store.items) words.length } = h₂ at linked hlaid₂ hquiet₂
  have hquiet := hquiet₁.trans hquiet₂
  obtain ⟨typed₂, frame₂⟩ := putFresh typed hlaid₂ hquiet hnone trivial (fun _ => nofun) (· = o)
  have ho₂ : update T grown (some (.store items)) o = some (.object s st rest) :=
    update_of_none hnone ho
  obtain ⟨hlaid₃, hquiet₃⟩ := write_ok (n := .object s grown rest) (i := 1) typed₂.laid ho₂
    (by simp [Cell.words]) rfl linked
  have hplace : ∀ c, update T grown (some (.store items)) o = some c →
      ∃ s st rest, c = .object s st rest := by
    intro c hc
    rw [ho₂] at hc
    cases hc
    exact ⟨s, st, rest, rfl⟩
  have hformed : Formed h₂ (update T grown (some (.store items))) s grown rest flags proto items := by
    refine (typed.formed_of ho hs hst).transport hquiet.rootShape frame₂.shapes
      (Function.update_self ..) (fun hdense => hlength ▸ even hdense) ?_
    rw [hquiet.transitions]
    exact fun _ hcount => hcount
  have htyped₃ := typed₂.putObject hlaid₃ hquiet₃ hplace hformed ?_ ?_
  · refine ⟨_, grown, htyped₃, frame₂.trans (frame_putObject hquiet₃ hplace), hquiet.trans hquiet₃,
      Function.update_self .., ?_⟩
    rw [Function.update_of_ne (ne_of_none hnone ho).symm, Function.update_self]
  · -- Nobody owned the new storage.
    intro o' s' rest' ho'
    have hold : o' ≠ grown := by
      rintro rfl
      rw [Function.update_self] at ho'
      cases ho'
    rw [Function.update_of_ne hold] at ho'
    obtain ⟨_, _, _, formed'⟩ := typed.formed ho'
    have hcell := formed'.store
    rw [hnone] at hcell
    cases hcell
  · intro htransition hdense o' st' rest' ho'
    have hold : o' ≠ grown := by
      rintro rfl
      rw [Function.update_self] at ho'
      cases ho'
    rw [Function.update_of_ne hold] at ho'
    exact typed.lone ho' ho hs htransition hdense

/-! ### Shapes -/

/-- An object moves to another shape of the same kind. -/
theorem setShape_ok {s' : Word} {flags' : ShapeFlags} {proto' : Word} (typed : Typed h T)
    (ho : T o = some (.object s st rest)) (hs : T s = some (.shape flags proto))
    (hst : T st = some (.store words)) (hs' : T s' = some (.shape flags' proto'))
    (member : flags' ∈ objectFlags) (proper : ∀ kind ∈ storelessShapes, h.rootShape kind ≠ s')
    (dense : flags'.contains .dense = flags.contains .dense)
    (function : flags'.contains .function = flags.contains .function)
    (lone : flags'.contains .transition = false → flags'.contains .dense = false →
      ∀ {o' st' rest'}, T o' = some (.object s' st' rest') → o' = o)
    (run : write o Layout.shape s' h = .ok u h') :
    Typed h' (update T o (some (.object s' st rest))) ∧
      Frame (· = o) h h' T (update T o (some (.object s' st rest))) ∧ Quiet h h' := by
  obtain ⟨hlaid, hquiet⟩ := write_ok (n := .object s' st rest) (i := 0) typed.laid ho
    (by simp [Cell.words]) rfl run
  have hplace : ∀ c, T o = some c → ∃ s st rest, c = .object s st rest := by
    intro c hc
    rw [ho] at hc
    cases hc
    exact ⟨s, st, rest, rfl⟩
  have hformed := typed.formed_of ho hs hst
  have hformed' : Formed h T s' st rest flags' proto' words :=
    ⟨hs', hst, member, proper, dense ▸ hformed.even, function ▸ hformed.function,
      function ▸ hformed.plain⟩
  refine ⟨typed.putObject hlaid hquiet hplace hformed' ?_ lone, frame_putObject hquiet hplace, hquiet⟩
  exact fun ho' => typed.owner ho' ho

/-- Taking a shape off the tree changes none of its other flags. -/
theorem flags_without (member : flags ∈ objectFlags) (hdense : flags.contains .dense = false) :
    flags.without .transition ∈ objectFlags ∧ (flags.without .transition).bits < 16 ∧
      (flags.without .transition).contains .transition = false ∧
      (flags.without .transition).contains .dense = false ∧
      (flags.without .transition).contains .function = flags.contains .function := by
  simp only [objectFlags, List.mem_cons, List.not_mem_nil, or_false] at member
  rcases member with rfl | rfl | rfl | rfl | rfl
  · decide
  · decide
  · decide
  · decide
  · exact absurd hdense (by decide)

theorem toDictionary_ok (typed : Typed h T) (ho : T o = some (.object s st rest))
    (hs : T s = some (.shape flags proto)) (hst : T st = some (.store words))
    (hdense : flags.contains .dense = false) (run : toDictionary o h = .ok u h') :
    ∃ T' own, Typed h' T' ∧ Frame (· = o) h h' T T' ∧ Quiet h h' ∧
      T' o = some (.object own st rest) ∧ T' st = some (.store words) ∧
      T' own = some (.shape (flags.without .transition) proto) := by
  simp only [toDictionary, State.bind_eq_ok, State.get_eq_ok] at run
  obtain ⟨_, _, ⟨rfl, rfl⟩, run⟩ := run
  rw [shapeOf?_object typed.laid ho] at run
  simp only [State.bind_eq_ok, typed.shapeFlags_eq hs, shapeProto_shape typed.laid hs] at run
  obtain ⟨own, h₁, allocated, moved⟩ := run
  have hformed := typed.formed_of ho hs hst
  obtain ⟨hmember, hsmall, hoff, hkeyed, hfunction⟩ := flags_without hformed.flags_mem hdense
  obtain ⟨hnone, hlaid₁, hquiet₁⟩ := allocShape_ok typed.laid allocated
  obtain ⟨typed₁, frame₁⟩ := putFresh typed hlaid₁ hquiet₁ hnone hsmall (fun _ => nofun) (· = o)
  have hkeep : ∀ {v d}, T v = some d →
      update T own (some (.shape (flags.without .transition) proto)) v = some d :=
    update_of_none hnone
  have hproper : ∀ kind ∈ storelessShapes, h₁.rootShape kind ≠ own := by
    intro kind _ hroot
    have hcell := typed.rootCell kind
    rw [← hquiet₁.rootShape, hroot, hnone] at hcell
    cases hcell
  have hlone : ∀ {o' st' rest'}, update T own (some (.shape (flags.without .transition) proto)) o' =
      some (.object own st' rest') → o' = o := by
    intro o' st' rest' ho'
    have hold : o' ≠ own := by
      rintro rfl
      rw [Function.update_self] at ho'
      cases ho'
    rw [Function.update_of_ne hold] at ho'
    obtain ⟨_, _, _, formed'⟩ := typed.formed ho'
    have hcell := formed'.shape
    rw [hnone] at hcell
    cases hcell
  obtain ⟨typed₂, frame₂, hquiet₂⟩ := setShape_ok typed₁ (hkeep ho) (hkeep hs) (hkeep hst)
    (Function.update_self ..) hmember hproper (hkeyed.trans hdense.symm) hfunction
    (fun _ _ => hlone) moved
  refine ⟨_, own, typed₂, frame₁.trans frame₂, hquiet₁.trans hquiet₂, Function.update_self .., ?_, ?_⟩
  · exact store_putObject (hkeep ho) (hkeep hst)
  · rw [Function.update_of_ne (ne_of_none hnone ho).symm, Function.update_self]

/-- A shape on the tree is no root shape of values without storage. -/
theorem proper_of_transition (typed : Typed h T) (hs : T s = some (.shape flags proto))
    (hon : flags.contains .transition = true) : ∀ kind ∈ storelessShapes, h.rootShape kind ≠ s := by
  intro kind hkind hroot
  have hcell := typed.rootCell kind
  rw [hroot, hs] at hcell
  cases hcell
  simp only [storelessShapes, List.mem_cons, List.not_mem_nil, or_false] at hkind
  rcases hkind with rfl | rfl | rfl | rfl | rfl | rfl | rfl <;> exact absurd hon (by decide)

/-- A new child of a shape on the tree. -/
theorem insertChild_ok {key child : Word} (typed : Typed h T) (hs : T s = some (.shape flags proto))
    (hon : flags.contains .transition = true) (free : h.transitions.child? s key = none)
    (run : allocShape flags proto h = .ok child h') (X : Word → Prop) :
    T child = none ∧
    Typed { h' with transitions := h'.transitions.insert s key child }
      (update T child (some (.shape flags proto))) ∧
    Frame X h { h' with transitions := h'.transitions.insert s key child } T
      (update T child (some (.shape flags proto))) ∧
    h'.strings = h.strings := by
  obtain ⟨hnone, hlaid, hquiet⟩ := allocShape_ok typed.laid run
  obtain ⟨typed', frame'⟩ := putFresh typed hlaid hquiet hnone (typed.flags_lt hs)
    (fun _ => nofun) X
  have hfree : h'.transitions.child? s key = none := by rw [hquiet.transitions, free]
  have hfresh : ∀ s' key', h'.transitions.child? s' key' ≠ some child := by
    intro s' key' hedge
    rw [hquiet.transitions] at hedge
    obtain ⟨_, _, -, htarget, -⟩ := typed.edge hedge
    exact ne_of_none hnone htarget rfl
  have hunused : ∀ key', h'.transitions.child? child key' = none := by
    intro key'
    rw [hquiet.transitions]
    by_contra hsome
    obtain ⟨child', hedge⟩ := Option.ne_none_iff_exists'.mp hsome
    obtain ⟨_, _, hsource, -, -⟩ := typed.edge hedge
    exact ne_of_none hnone hsource rfl
  have hrootless : ∀ kind, h'.rootShape kind ≠ child := by
    intro kind
    rw [hquiet.rootShape]
    exact ne_of_none hnone (typed.rootCell kind)
  refine ⟨hnone, ?_, ?_, hquiet.strings⟩
  · refine typed'.insertEdge (update_of_none hnone hs) (Function.update_self ..) hon hfree hfresh
      hunused (ne_of_none hnone hs) ?_ hrootless
    intro o s' st code instances ho
    have hne : o ≠ child := by
      rintro rfl
      rw [Function.update_self] at ho
      cases ho
    rw [Function.update_of_ne hne] at ho
    obtain ⟨flags', proto', words', formed⟩ := typed.formed ho
    cases hfunction : flags'.contains .function with
    | false => cases formed.plain hfunction
    | true =>
      obtain ⟨_, _, _, hrest, hcell, -⟩ := formed.function hfunction
      cases hrest
      exact ne_of_none hnone hcell
  · have hpaths : ∀ {origin keys target}, h.transitions.Path origin keys target →
        (h'.transitions.insert s key child).Path origin keys target := by
      intro origin keys target path
      rw [hquiet.transitions]
      exact path.insert free
    have hcounts : ∀ {s' flags' proto'}, T s' = some (.shape flags' proto') →
        (h'.transitions.insert s key child).keyCount s' = h.transitions.keyCount s' := by
      intro s' flags' proto' hs'
      rw [Transitions.keyCount_insert, if_neg (ne_of_none hnone hs').symm, hquiet.transitions]
    exact ⟨⟨hquiet.rootShapes, hquiet.undefined, hquiet.null, hquiet.hole, hquiet.trueValue,
      hquiet.falseValue⟩, frame'.strings, hpaths, frame'.shapes, hcounts, frame'.leaves, frame'.texts,
      frame'.objects, frame'.same⟩

/-- The shape that a key leads to, or a shape of its own for an object that holds too many keys. -/
theorem followTransition_ok {key : Word} (typed : Typed h T) (ho : T o = some (.object s st rest))
    (hs : T s = some (.shape flags proto)) (hst : T st = some (.store words))
    (hdense : flags.contains .dense = false) (run : followTransition o s key h = .ok u h') :
    ∃ T' s' flags', Typed h' T' ∧ Frame (· = o) h h' T T' ∧ h'.strings = h.strings ∧
      T' o = some (.object s' st rest) ∧ T' st = some (.store words) ∧
      T' s' = some (.shape flags' proto) ∧ flags'.contains .dense = false ∧
      (flags'.contains .transition = true → flags.contains .transition = true ∧
        h.transitions.keyCount s + 1 ≤ maxFastProperties ∧
        h'.transitions.child? s key = some s') := by
  simp only [followTransition, State.bind_eq_ok, State.get_eq_ok] at run
  obtain ⟨_, _, ⟨rfl, rfl⟩, run⟩ := run
  rw [typed.shapeFlags_eq hs, shapeProto_shape typed.laid hs] at run
  have hformed := typed.formed_of ho hs hst
  split at run
  · rename_i hon
    split at run
    · obtain ⟨T', own, typed', frame', quiet', ho', hst', hs'⟩ :=
        toDictionary_ok typed ho hs hst hdense run
      obtain ⟨-, -, hoff, hkeyed, -⟩ := flags_without hformed.flags_mem hdense
      refine ⟨T', own, _, typed', frame', quiet'.strings, ho', hst', hs', hkeyed, ?_⟩
      rw [hoff]
      nofun
    · rename_i hfew
      cases hchild : h.transitions.child? s key with
      | some child =>
        rw [hchild] at run
        obtain ⟨flags', proto', hsource, htarget, -⟩ := typed.edge hchild
        rw [hs] at hsource
        cases hsource
        obtain ⟨typed', frame', quiet'⟩ := setShape_ok typed ho hs hst htarget hformed.flags_mem
          (proper_of_transition typed htarget hon) rfl rfl (fun hoff => by simp [hon] at hoff) run
        refine ⟨_, child, flags, typed', frame', quiet'.strings, Function.update_self .., ?_,
          frame'.shapes htarget, hdense, fun _ => ⟨hon, by omega, ?_⟩⟩
        · exact store_putObject ho hst
        · rw [quiet'.transitions, hchild]
      | none =>
        simp only [hchild, State.bind_eq_ok, State.modify_eq_ok] at run
        obtain ⟨child, h₁, allocated, _, _, rfl, moved⟩ := run
        obtain ⟨hnone, typed₁, frame₁, hstrings⟩ :=
          insertChild_ok typed hs hon hchild allocated (· = o)
        have htarget := Function.update_self child (some (Cell.shape flags proto)) T
        obtain ⟨typed₂, frame₂, quiet₂⟩ := setShape_ok typed₁ (update_of_none hnone ho)
          (update_of_none hnone hs) (update_of_none hnone hst) htarget hformed.flags_mem
          (proper_of_transition typed₁ htarget hon) rfl rfl (fun hoff => by simp [hon] at hoff) moved
        refine ⟨_, child, flags, typed₂, frame₁.trans frame₂, quiet₂.strings.trans hstrings,
          Function.update_self .., ?_, frame₂.shapes htarget, hdense, fun _ => ⟨hon, by omega, ?_⟩⟩
        · exact store_putObject (update_of_none hnone ho) (update_of_none hnone hst)
        · rw [quiet₂.transitions, Transitions.child?_insert, if_pos ⟨rfl, rfl⟩]
  · rename_i hoff
    obtain ⟨-, rfl⟩ := State.pure_eq_ok.mp run
    exact ⟨T, s, flags, typed, Frame.refl .., rfl, ho, hst, hs, hdense, fun hon => absurd hon hoff⟩

end ScriptEngine.Heap
