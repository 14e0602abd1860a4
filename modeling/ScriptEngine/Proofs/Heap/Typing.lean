import ScriptEngine.Proofs.Heap.Fresh
import ScriptEngine.Proofs.Heap.Reading
import ScriptEngine.Proofs.Heap.Tree

/-!
Heaps whose cells fit together: objects point at shapes and at storage of their own, strings are
listed by their text, and transitions lead between shapes. Every word that an operation writes keeps
it so, under conditions on what is written.
-/

namespace ScriptEngine.Heap

open Function (update)

variable {h h' : Heap} {T : Contents} {o v w s st : Word} {words rest : List Word}
  {flags : ShapeFlags} {proto : Word}

/-- Flags of the shapes that objects have: of plain objects and functions, on the transition tree
and off it, and of arrays. -/
def objectFlags : List ShapeFlags :=
  [.transition, .none, RootShape.flags .function, RootShape.flags .function |>.without .transition,
    .dense]

/-- Kinds of the values that have no storage and are no text. -/
def leafKinds : List RootShape := [.boolean, .oddball, .number, .code]

/-- Words behind the shape in a value of such a kind. -/
def leafWords : RootShape → Nat
  | .code => 3
  | _ => 1

/-- The values that exist from the start, other than `null` and the hole; no two of all are the
same. -/
structure Oddballs (h : Heap) (T : Contents) : Prop where
  undefined : ∃ rest, T h.undefined = some (.leaf .oddball rest)
  trueValue : ∃ rest, T h.trueValue = some (.leaf .boolean rest)
  falseValue : ∃ rest, T h.falseValue = some (.leaf .boolean rest)
  distinct : [h.undefined, h.null, h.hole, h.trueValue, h.falseValue].Nodup

/-- What belongs to an object: a shape, storage, and for a function the shape of its instances. -/
structure Formed (h : Heap) (T : Contents) (s st : Word) (rest : List Word) (flags : ShapeFlags)
    (proto : Word) (words : List Word) : Prop where
  shape : T s = some (.shape flags proto)
  store : T st = some (.store words)
  flags_mem : flags ∈ objectFlags
  proper : ∀ kind ∈ storelessShapes, h.rootShape kind ≠ s
  even : flags.contains .dense = false → words.length % 2 = 0
  function : flags.contains .function = true → ∃ code instances proto',
    rest = [code, instances] ∧ T instances = some (.shape .transition proto') ∧
      h.transitions.keyCount instances = 0
  plain : flags.contains .function = false → rest = []

structure Typed (h : Heap) (T : Contents) : Prop where
  laid : Laid h T
  finished : ∀ {w words}, T w ≠ some (.raw words)
  rootCell : ∀ kind, T (h.rootShape kind) = some (.shape kind.flags h.null)
  root_inj : ∀ {kind kind'}, h.rootShape kind = h.rootShape kind' → kind = kind'
  null : ∃ rest, T h.null = some (.leaf .oddball rest)
  hole : ∃ rest, T h.hole = some (.leaf .oddball rest)
  leaf_kind : ∀ {w kind rest}, T w = some (.leaf kind rest) → kind ∈ leafKinds
  interned : ∀ {text : String} {w}, h.strings[text]? = some w ↔ T w = some (.text text)
  flags_lt : ∀ {s flags proto}, T s = some (.shape flags proto) → flags.bits < 16
  formed : ∀ {o s st rest}, T o = some (.object s st rest) →
    ∃ flags proto words, Formed h T s st rest flags proto words
  owner : ∀ {o o' s s' st rest rest'}, T o = some (.object s st rest) →
    T o' = some (.object s' st rest') → o = o'
  /-- A shape off the tree belongs to one object. -/
  lone : ∀ {o o' s st st' rest rest' flags proto}, T o = some (.object s st rest) →
    T o' = some (.object s st' rest') → T s = some (.shape flags proto) →
    flags.contains .transition = false → flags.contains .dense = false → o = o'
  edge : ∀ {s key child}, h.transitions.child? s key = some child → ∃ flags proto,
    T s = some (.shape flags proto) ∧ T child = some (.shape flags proto) ∧
      flags.contains .transition = true
  tree : h.transitions.Tree
  rootCount : ∀ kind, h.transitions.keyCount (h.rootShape kind) = 0
  leaf_rest : ∀ {w kind rest}, T w = some (.leaf kind rest) → rest.length = leafWords kind
  oddballs : Oddballs h T

theorem Oddballs.transport {T' : Contents} (oddballs : Oddballs h T) (kept : Kept h h')
    (leaves : ∀ {w kind rest}, T w = some (.leaf kind rest) → T' w = some (.leaf kind rest)) :
    Oddballs h' T' := by
  obtain ⟨rest₁, hundefined⟩ := oddballs.undefined
  obtain ⟨rest₂, htrue⟩ := oddballs.trueValue
  obtain ⟨rest₃, hfalse⟩ := oddballs.falseValue
  constructor
  · rw [kept.undefined]
    exact ⟨rest₁, leaves hundefined⟩
  · rw [kept.trueValue]
    exact ⟨rest₂, leaves htrue⟩
  · rw [kept.falseValue]
    exact ⟨rest₃, leaves hfalse⟩
  · rw [kept.undefined, kept.null, kept.hole, kept.trueValue, kept.falseValue]
    exact oddballs.distinct

/-- A small integer, or a pointer to something that scripts may hold. -/
def IsValue (T : Contents) (w : Word) : Prop :=
  w.isSmi = true ∨ (∃ kind rest, T w = some (.leaf kind rest)) ∨
    (∃ text, T w = some (.text text)) ∨ ∃ s st rest, T w = some (.object s st rest)

/-- What is asked of a cell that is no object. -/
def Plain : Cell → Prop
  | .raw _ | .object _ _ _ => False
  | .leaf kind rest => kind ∈ leafKinds ∧ rest.length = leafWords kind
  | .shape flags _ => flags.bits < 16
  | .text _ | .store _ => True

theorem Formed.transport {T' : Contents} {st' : Word} {words' : List Word}
    (formed : Formed h T s st rest flags proto words) (roots : h'.rootShape = h.rootShape)
    (shapes : ∀ {s flags proto}, T s = some (.shape flags proto) → T' s = some (.shape flags proto))
    (store : T' st' = some (.store words'))
    (even : flags.contains .dense = false → words'.length % 2 = 0)
    (counts : ∀ {code instances}, rest = [code, instances] →
      h.transitions.keyCount instances = 0 → h'.transitions.keyCount instances = 0) :
    Formed h' T' s st' rest flags proto words' := by
  refine ⟨shapes formed.shape, store, formed.flags_mem, ?_, even, ?_, formed.plain⟩
  · rw [roots]
    exact formed.proper
  · intro hfunction
    obtain ⟨code, instances, proto', hrest, hcell, hcount⟩ := formed.function hfunction
    exact ⟨code, instances, proto', hrest, shapes hcell, counts hrest hcount⟩

namespace Typed

/-- The parts of an object, when its shape and its storage are known. -/
theorem formed_of (typed : Typed h T) (ho : T o = some (.object s st rest))
    (hs : T s = some (.shape flags proto)) (hst : T st = some (.store words)) :
    Formed h T s st rest flags proto words := by
  obtain ⟨flags', proto', words', formed⟩ := typed.formed ho
  have hs' := formed.shape
  have hst' := formed.store
  rw [hs] at hs'
  rw [hst] at hst'
  cases hs'
  cases hst'
  exact formed

theorem shapeFlags_eq (typed : Typed h T) (hs : T s = some (.shape flags proto)) :
    h.shapeFlags s = flags := by
  have hlt := typed.flags_lt hs
  exact shapeFlags_shape typed.laid hs (by omega)

theorem hasFlag_object (typed : Typed h T) (ho : T o = some (.object s st rest))
    (hs : T s = some (.shape flags proto)) (flag : ShapeFlags) :
    h.hasFlag o flag = flags.contains flag := by
  unfold hasFlag
  rw [shapeOf?_object typed.laid ho, Option.any_some, typed.shapeFlags_eq hs]

theorem isObject_object (typed : Typed h T) (ho : T o = some (.object s st rest)) :
    h.isObject o = true := by
  obtain ⟨flags, proto, words, formed⟩ := typed.formed ho
  unfold isObject
  rw [shapeOf?_object typed.laid ho]
  simp only [List.all_eq_true, bne_iff_ne]
  exact formed.proper

/-- Values without storage have one of the root shapes that say so. -/
theorem isObject_of_root (typed : Typed h T) {c : Cell} (kind : RootShape) (hw : T w = some c)
    (head : (c.words h.rootShape)[0]? = some (h.rootShape kind)) (storeless : kind ∈ storelessShapes) :
    h.isObject w = false := by
  unfold isObject
  rw [shapeOf?_of_cell typed.laid hw head]
  simp only [List.all_eq_false, bne_iff_ne, ne_eq, not_not]
  exact ⟨kind, storeless, rfl⟩

theorem object_of_isObject (typed : Typed h T) (value : IsValue T w) (hobject : h.isObject w = true) :
    ∃ s st rest, T w = some (.object s st rest) := by
  rcases value with hsmi | ⟨kind, rest, hleaf⟩ | ⟨text, htext⟩ | hfound
  · simp [isObject, shapeOf?, hsmi] at hobject
  · have hkind : kind ∈ storelessShapes := by
      have hmem := typed.leaf_kind hleaf
      simp only [leafKinds, List.mem_cons, List.not_mem_nil, or_false] at hmem
      rcases hmem with rfl | rfl | rfl | rfl <;> decide
    rw [typed.isObject_of_root kind hleaf rfl hkind] at hobject
    cases hobject
  · rw [typed.isObject_of_root .string htext rfl (by decide)] at hobject
    cases hobject
  · exact hfound

/-- Root shapes of values without storage have no flags. -/
theorem hasFlag_of_root (typed : Typed h T) {c : Cell} (kind : RootShape) (hw : T w = some c)
    (head : (c.words h.rootShape)[0]? = some (h.rootShape kind)) (flag : ShapeFlags) :
    h.hasFlag w flag = kind.flags.contains flag := by
  unfold hasFlag
  rw [shapeOf?_of_cell typed.laid hw head, Option.any_some,
    typed.shapeFlags_eq (typed.rootCell kind)]

/-- Only objects can be called. -/
theorem object_of_isFunction (typed : Typed h T) (value : IsValue T w)
    (callable : h.isFunction w = true) : ∃ s st rest, T w = some (.object s st rest) := by
  unfold isFunction at callable
  rcases value with hsmi | ⟨kind, rest, hleaf⟩ | ⟨text, htext⟩ | hfound
  · simp [hasFlag, shapeOf?, hsmi] at callable
  · rw [typed.hasFlag_of_root kind hleaf rfl] at callable
    have hmem := typed.leaf_kind hleaf
    simp only [leafKinds, List.mem_cons, List.not_mem_nil, or_false] at hmem
    rcases hmem with rfl | rfl | rfl | rfl <;> exact absurd callable (by decide)
  · rw [typed.hasFlag_of_root .string htext rfl] at callable
    exact absurd callable (by decide)
  · exact hfound

/-- Only strings have text. -/
theorem text_of_text? (typed : Typed h T) (value : IsValue T w) (hsome : (h.text? w).isSome) :
    ∃ text : String, h.strings[text]? = some w := by
  have hroot : h.shapeOf? w = some (h.rootShape .string) := by
    unfold text? hasRootShape at hsome
    by_contra hne
    simp [hne, failure] at hsome
  rcases value with hsmi | ⟨kind, rest, hleaf⟩ | ⟨text, htext⟩ | ⟨s, st, rest, hobject⟩
  · simp [shapeOf?, hsmi] at hroot
  · rw [shapeOf?_of_cell typed.laid hleaf rfl, Option.some.injEq] at hroot
    obtain rfl := typed.root_inj hroot
    have hmem := typed.leaf_kind hleaf
    simp [leafKinds] at hmem
  · exact ⟨text, typed.interned.mpr htext⟩
  · rw [shapeOf?_object typed.laid hobject, Option.some.injEq] at hroot
    obtain ⟨flags, proto, words, formed⟩ := typed.formed hobject
    exact absurd hroot.symm (formed.proper .string (by decide))

/-- What is written elsewhere does not matter. -/
theorem congr (typed : Typed h T) (quiet : Quiet h h') (laid : Laid h' T) : Typed h' T := by
  have hroot := quiet.rootShape
  have hedges := quiet.transitions
  refine ⟨laid, typed.finished, ?_, ?_, ?_, ?_, typed.leaf_kind, ?_, typed.flags_lt, ?_, typed.owner,
    typed.lone, ?_, ?_, ?_, typed.leaf_rest, typed.oddballs.transport quiet.toKept id⟩
  · rw [hroot, quiet.null]
    exact typed.rootCell
  · rw [hroot]
    exact typed.root_inj
  · rw [quiet.null]
    exact typed.null
  · rw [quiet.hole]
    exact typed.hole
  · rw [quiet.strings]
    exact typed.interned
  · intro o s st rest ho
    obtain ⟨flags, proto, words, formed⟩ := typed.formed ho
    refine ⟨flags, proto, words, formed.transport hroot id formed.store formed.even ?_⟩
    rw [hedges]
    exact fun _ hcount => hcount
  · rw [hedges]
    exact typed.edge
  · rw [hedges]
    exact typed.tree
  · rw [hedges, hroot]
    exact typed.rootCount

/-- An object is put in place of an object, or where nothing was. -/
theorem putObject (typed : Typed h T) (laid : Laid h' (update T o (some (.object s st rest))))
    (quiet : Quiet h h') (place : ∀ c, T o = some c → ∃ s st rest, c = .object s st rest)
    (formed : Formed h T s st rest flags proto words)
    (unowned : ∀ {o' s' rest'}, T o' = some (.object s' st rest') → o' = o)
    (lone : flags.contains .transition = false → flags.contains .dense = false →
      ∀ {o' st' rest'}, T o' = some (.object s st' rest') → o' = o) :
    Typed h' (update T o (some (.object s st rest))) := by
  -- Cells that are no objects stay as they are.
  have hkeep : ∀ {w c}, T w = some c → (∀ s st rest, c ≠ .object s st rest) →
      update T o (some (.object s st rest)) w = some c := by
    intro w c hw hother
    have hne : w ≠ o := by
      rintro rfl
      obtain ⟨s', st', rest', rfl⟩ := place c hw
      exact hother s' st' rest' rfl
    rw [Function.update_of_ne hne, hw]
  have hcases : ∀ {w c}, update T o (some (.object s st rest)) w = some c →
      w = o ∧ c = .object s st rest ∨ w ≠ o ∧ T w = some c := by
    intro w c hw
    by_cases hwo : w = o
    · subst hwo
      rw [Function.update_self] at hw
      exact .inl ⟨rfl, (Option.some.inj hw).symm⟩
    · rw [Function.update_of_ne hwo] at hw
      exact .inr ⟨hwo, hw⟩
  have hshapes : ∀ {s' flags' proto'}, T s' = some (.shape flags' proto') →
      update T o (some (.object s st rest)) s' = some (.shape flags' proto') := by
    intro s' flags' proto' hs
    exact hkeep hs (fun _ _ _ => nofun)
  have hformed : ∀ {s' st' rest' flags' proto' words'},
      Formed h T s' st' rest' flags' proto' words' →
      Formed h' (update T o (some (.object s st rest))) s' st' rest' flags' proto' words' := by
    intro s' st' rest' flags' proto' words' hold
    refine hold.transport quiet.rootShape hshapes (hkeep hold.store fun _ _ _ => nofun)
      hold.even ?_
    rw [quiet.transitions]
    exact fun _ hcount => hcount
  have htext : ∀ {w text}, update T o (some (.object s st rest)) w = some (.text text) ↔
      T w = some (.text text) := by
    intro w text
    constructor
    · intro hw
      rcases hcases hw with ⟨-, hc⟩ | ⟨-, hold⟩
      · cases hc
      · exact hold
    · exact fun hw => hkeep hw fun _ _ _ => nofun
  constructor
  · exact laid
  · intro w raw hw
    rcases hcases hw with ⟨-, hc⟩ | ⟨-, hold⟩
    · cases hc
    · exact typed.finished hold
  · intro kind
    rw [quiet.rootShape, quiet.null]
    exact hshapes (typed.rootCell kind)
  · rw [quiet.rootShape]
    exact typed.root_inj
  · obtain ⟨rest', hnull⟩ := typed.null
    rw [quiet.null]
    exact ⟨rest', hkeep hnull fun _ _ _ => nofun⟩
  · obtain ⟨rest', hhole⟩ := typed.hole
    rw [quiet.hole]
    exact ⟨rest', hkeep hhole fun _ _ _ => nofun⟩
  · intro w kind rest' hw
    rcases hcases hw with ⟨-, hc⟩ | ⟨-, hold⟩
    · cases hc
    · exact typed.leaf_kind hold
  · intro text w
    rw [quiet.strings, typed.interned]
    simp only [htext]
  · intro s' flags' proto' hs
    rcases hcases hs with ⟨-, hc⟩ | ⟨-, hold⟩
    · cases hc
    · exact typed.flags_lt hold
  · intro o' s' st' rest' ho
    rcases hcases ho with ⟨-, hc⟩ | ⟨-, hold⟩
    · cases hc
      exact ⟨flags, proto, words, hformed formed⟩
    · obtain ⟨flags', proto', words', hold⟩ := typed.formed hold
      exact ⟨flags', proto', words', hformed hold⟩
  · intro o₁ o₂ s₁ s₂ st' rest₁ rest₂ h₁ h₂
    rcases hcases h₁ with ⟨rfl, hc₁⟩ | ⟨-, hold₁⟩ <;> rcases hcases h₂ with ⟨rfl, hc₂⟩ | ⟨-, hold₂⟩
    · rfl
    · cases hc₁
      exact (unowned hold₂).symm
    · cases hc₂
      exact unowned hold₁
    · exact typed.owner hold₁ hold₂
  · intro o₁ o₂ s' st₁ st₂ rest₁ rest₂ flags' proto' h₁ h₂ hs htransition hdense
    have hshape : T s' = some (.shape flags' proto') := by
      rcases hcases hs with ⟨-, hc⟩ | ⟨-, hold⟩
      · cases hc
      · exact hold
    rcases hcases h₁ with ⟨rfl, hc₁⟩ | ⟨-, hold₁⟩ <;> rcases hcases h₂ with ⟨rfl, hc₂⟩ | ⟨-, hold₂⟩
    · rfl
    · cases hc₁
      rw [formed.shape] at hshape
      cases hshape
      exact (lone htransition hdense hold₂).symm
    · cases hc₂
      rw [formed.shape] at hshape
      cases hshape
      exact lone htransition hdense hold₁
    · exact typed.lone hold₁ hold₂ hshape htransition hdense
  · intro s' key child hchild
    rw [quiet.transitions] at hchild
    obtain ⟨flags', proto', hsource, htarget, hflag⟩ := typed.edge hchild
    exact ⟨flags', proto', hshapes hsource, hshapes htarget, hflag⟩
  · rw [quiet.transitions]
    exact typed.tree
  · rw [quiet.transitions, quiet.rootShape]
    exact typed.rootCount
  · intro w kind rest' hw
    rcases hcases hw with ⟨-, hc⟩ | ⟨-, hold⟩
    · cases hc
    · exact typed.leaf_rest hold
  · exact typed.oddballs.transport quiet.toKept fun hw => hkeep hw fun _ _ _ => nofun

/-- A cell that is no object is put where nothing was, or storage in place of as much storage. -/
theorem putCell (typed : Typed h T) {c : Cell} (laid : Laid h' (update T w (some c)))
    (kept : Kept h h') (transitions : h'.transitions = h.transitions) (plain : Plain c)
    (place : T w = none ∨ ∃ words words', T w = some (.store words) ∧ c = .store words' ∧
      words'.length = words.length)
    (strings : ∀ {text : String} {v}, h'.strings[text]? = some v ↔
      h.strings[text]? = some v ∨ v = w ∧ c = .text text) :
    Typed h' (update T w (some c)) := by
  have hkeep : ∀ {v d}, T v = some d → (∀ words, d ≠ .store words) →
      update T w (some c) v = some d := by
    intro v d hv hother
    have hne : v ≠ w := by
      rintro rfl
      rcases place with hnone | ⟨words, words', hold, -, -⟩
      · rw [hnone] at hv
        cases hv
      · rw [hold] at hv
        cases hv
        exact hother words rfl
    rw [Function.update_of_ne hne, hv]
  have hstore : ∀ {v words}, T v = some (.store words) → ∃ words',
      update T w (some c) v = some (.store words') ∧ words'.length = words.length := by
    intro v words hv
    by_cases hvw : v = w
    · subst hvw
      rcases place with hnone | ⟨words₁, words₂, hold, rfl, hlength⟩
      · rw [hnone] at hv
        cases hv
      · rw [hold] at hv
        cases hv
        exact ⟨words₂, Function.update_self .., hlength⟩
    · exact ⟨words, by rw [Function.update_of_ne hvw, hv], rfl⟩
  have hcases : ∀ {v d}, update T w (some c) v = some d → v = w ∧ d = c ∨ v ≠ w ∧ T v = some d := by
    intro v d hv
    by_cases hvw : v = w
    · subst hvw
      rw [Function.update_self] at hv
      exact .inl ⟨rfl, (Option.some.inj hv).symm⟩
    · rw [Function.update_of_ne hvw] at hv
      exact .inr ⟨hvw, hv⟩
  have hshapes : ∀ {s flags proto}, T s = some (.shape flags proto) →
      update T w (some c) s = some (.shape flags proto) :=
    fun hs => hkeep hs fun _ => nofun
  have hobject : ∀ {o s st rest}, update T w (some c) o = some (.object s st rest) →
      T o = some (.object s st rest) := by
    intro o s st rest ho
    rcases hcases ho with ⟨-, rfl⟩ | ⟨-, hold⟩
    · exact plain.elim
    · exact hold
  constructor
  · exact laid
  · intro v raw hv
    rcases hcases hv with ⟨-, rfl⟩ | ⟨-, hold⟩
    · exact plain
    · exact typed.finished hold
  · intro kind
    rw [kept.rootShape, kept.null]
    exact hshapes (typed.rootCell kind)
  · rw [kept.rootShape]
    exact typed.root_inj
  · obtain ⟨rest, hnull⟩ := typed.null
    rw [kept.null]
    exact ⟨rest, hkeep hnull fun _ => nofun⟩
  · obtain ⟨rest, hhole⟩ := typed.hole
    rw [kept.hole]
    exact ⟨rest, hkeep hhole fun _ => nofun⟩
  · intro v kind rest hv
    rcases hcases hv with ⟨-, rfl⟩ | ⟨-, hold⟩
    · exact plain.1
    · exact typed.leaf_kind hold
  · intro text v
    rw [strings, typed.interned]
    constructor
    · rintro (hold | ⟨rfl, rfl⟩)
      · exact hkeep hold fun _ => nofun
      · exact Function.update_self ..
    · intro hv
      rcases hcases hv with ⟨rfl, rfl⟩ | ⟨-, hold⟩
      · exact .inr ⟨rfl, rfl⟩
      · exact .inl hold
  · intro s flags proto hs
    rcases hcases hs with ⟨-, rfl⟩ | ⟨-, hold⟩
    · exact plain
    · exact typed.flags_lt hold
  · intro o s st rest ho
    obtain ⟨flags, proto, words, formed⟩ := typed.formed (hobject ho)
    obtain ⟨words', hwords, hlength⟩ := hstore formed.store
    refine ⟨flags, proto, words', formed.transport kept.rootShape hshapes hwords ?_ ?_⟩
    · rw [hlength]
      exact formed.even
    · rw [transitions]
      exact fun _ hcount => hcount
  · intro o₁ o₂ s₁ s₂ st rest₁ rest₂ h₁ h₂
    exact typed.owner (hobject h₁) (hobject h₂)
  · intro o₁ o₂ s st₁ st₂ rest₁ rest₂ flags proto h₁ h₂ hs
    obtain ⟨flags', proto', words', formed⟩ := typed.formed (hobject h₁)
    have hshape := hshapes formed.shape
    rw [hs] at hshape
    cases hshape
    exact typed.lone (hobject h₁) (hobject h₂) formed.shape
  · intro s key child hchild
    rw [transitions] at hchild
    obtain ⟨flags, proto, hsource, htarget, hflag⟩ := typed.edge hchild
    exact ⟨flags, proto, hshapes hsource, hshapes htarget, hflag⟩
  · rw [transitions]
    exact typed.tree
  · rw [transitions, kept.rootShape]
    exact typed.rootCount
  · intro v kind rest hv
    rcases hcases hv with ⟨-, rfl⟩ | ⟨-, hold⟩
    · exact plain.2
    · exact typed.leaf_rest hold
  · exact typed.oddballs.transport kept fun hv => hkeep hv fun _ => nofun

/-- No transition leads to a shape that is new. -/
theorem keyCount_of_none (typed : Typed h T) (free : T s = none) : h.transitions.keyCount s = 0 := by
  apply typed.tree.orphan
  intro source key hedge
  obtain ⟨_, _, -, htarget, -⟩ := typed.edge hedge
  exact ne_of_none free htarget rfl

/-- A transition to a shape that nothing else leads to. -/
theorem insertEdge (typed : Typed h T) {key child : Word} (hs : T s = some (.shape flags proto))
    (hchild : T child = some (.shape flags proto)) (flag : flags.contains .transition = true)
    (free : h.transitions.child? s key = none)
    (fresh : ∀ s' key', h.transitions.child? s' key' ≠ some child)
    (unused : ∀ key', h.transitions.child? child key' = none) (other : s ≠ child)
    (apart : ∀ {o s st code instances}, T o = some (.object s st [code, instances]) →
      instances ≠ child)
    (rootless : ∀ kind, h.rootShape kind ≠ child) :
    Typed { h with transitions := h.transitions.insert s key child } T := by
  have hlaid : Laid { h with transitions := h.transitions.insert s key child } T :=
    typed.laid.congr rfl rfl rfl rfl rfl rfl
  refine ⟨hlaid, typed.finished, typed.rootCell, typed.root_inj, typed.null, typed.hole,
    typed.leaf_kind, typed.interned, typed.flags_lt, ?_, typed.owner, typed.lone, ?_, ?_, ?_,
    typed.leaf_rest, typed.oddballs.transport ⟨rfl, rfl, rfl, rfl, rfl, rfl⟩ id⟩
  · intro o s' st rest ho
    obtain ⟨flags', proto', words, formed⟩ := typed.formed ho
    refine ⟨flags', proto', words, formed.transport rfl id formed.store formed.even ?_⟩
    rintro code instances rfl hcount
    change (h.transitions.insert s key child).keyCount instances = 0
    rw [Transitions.keyCount_insert, if_neg (apart ho).symm]
    exact hcount
  · intro s' key' child' hedge
    change (h.transitions.insert s key child).child? s' key' = some child' at hedge
    rw [Transitions.child?_insert] at hedge
    split at hedge
    · obtain ⟨rfl, rfl⟩ := ‹s = s' ∧ key = key'›
      cases hedge
      exact ⟨flags, proto, hs, hchild, flag⟩
    · exact typed.edge hedge
  · exact typed.tree.insert free fresh unused other
  · intro kind
    change (h.transitions.insert s key child).keyCount (h.rootShape kind) = 0
    rw [Transitions.keyCount_insert, if_neg (rootless kind).symm]
    exact typed.rootCount kind

end Typed
end ScriptEngine.Heap
