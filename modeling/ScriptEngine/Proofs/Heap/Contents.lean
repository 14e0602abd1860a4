import Mathlib.Data.List.Basic
import Mathlib.Logic.Function.Basic
import ScriptEngine.Heap.Objects
import ScriptEngine.Proofs.Heap.Allocation
import ScriptEngine.Proofs.Heap.Bytes
import ScriptEngine.Proofs.State

/-!
What the heap holds. A table says for each pointer what stands behind it; the cells that it names
lie apart from each other and from all memory that is still to be handed out, and memory holds
exactly their words. A write inside a cell changes that cell alone, and an allocation adds one.
-/

namespace ScriptEngine

variable {h h' : Heap}

/-- What stands behind a pointer. -/
inductive Cell where
  /-- Words that are still being set up. -/
  | raw (words : List Word)
  | shape (flags : ShapeFlags) (proto : Word)
  /-- A value without storage that is no text; only its kind matters. -/
  | leaf (kind : RootShape) (rest : List Word)
  | text (spelled : String)
  | store (words : List Word)
  /-- An object, and the words that a function has besides. -/
  | object (shape store : Word) (rest : List Word)

namespace Cell

def words (roots : RootShape → Word) : Cell → List Word
  | raw words => words
  | shape flags proto => [roots .map, .smi flags.bits, proto]
  | leaf kind rest => roots kind :: rest
  | text spelled =>
    roots .string :: .smi spelled.utf8ByteSize :: Memory.packWords spelled.toUTF8.data.toList
  | store words => roots .field :: .smi words.length :: words
  | object own items rest => own :: items :: rest

/-- Size in bytes. -/
def size (roots : RootShape → Word) (c : Cell) : Nat := 8 * (c.words roots).length

end Cell

/-- Cells by pointer. -/
abbrev Contents := Word → Option Cell

/-- What stands behind one pointer stands behind no other that is still free. -/
theorem ne_of_none {T : Contents} {v w : Word} {c : Cell} (free : T w = none) (hv : T v = some c) :
    v ≠ w := by
  rintro rfl
  rw [free] at hv
  cases hv

theorem update_of_none {T : Contents} {v w : Word} {c d : Cell} (free : T w = none)
    (hv : T v = some c) : Function.update T w (some d) v = some c := by
  rw [Function.update_of_ne (ne_of_none free hv), hv]

/-- Addresses that the heap may still hand out. -/
def Heap.Unused (h : Heap) (x : Nat) : Prop :=
  ScriptEngine.Unused h.young h.old h.shapes h.addressSpace.next x

/-- The cells lie apart, in memory that was handed out, and memory holds their words. -/
structure Laid (h : Heap) (T : Contents) : Prop where
  spaces : Separate h.young h.old h.shapes h.addressSpace.next
  pointer : ∀ {w c}, T w = some c → w = .pointer w.address
  aligned : ∀ {w c}, T w = some c → w.address % 8 = 0
  nonempty : ∀ {w c}, T w = some c → 0 < c.size h.rootShape
  small : ∀ {w c}, T w = some c → c.size h.rootShape < Page.refusedSize
  below : ∀ {w c}, T w = some c → w.address + c.size h.rootShape < 2 ^ 63
  apart : ∀ {v w c d}, T v = some c → T w = some d → v ≠ w →
    v.address + c.size h.rootShape ≤ w.address ∨ w.address + d.size h.rootShape ≤ v.address
  used : ∀ {w c x}, T w = some c → w.address ≤ x → x < w.address + c.size h.rootShape →
    ¬h.Unused x
  contents : ∀ {w c}, T w = some c →
    h.memory.wordsAt w.address (c.words h.rootShape).length = c.words h.rootShape


namespace Laid

variable {T : Contents} {w : Word} {c n : Cell}

theorem read (laid : Laid h T) (hw : T w = some c) {i : Nat} {v : Word}
    (hi : (c.words h.rootShape)[i]? = some v) : h.read w (8 * i) = v := by
  rw [← laid.contents hw, Memory.getElem?_wordsAt] at hi
  split at hi
  · exact Option.some.inj hi
  · cases hi

/-- The same words may be seen as other cells, and cells may be forgotten. -/
theorem recast {T' : Contents} (laid : Laid h T) (young : h'.young = h.young) (old : h'.old = h.old)
    (shapes : h'.shapes = h.shapes) (space : h'.addressSpace = h.addressSpace)
    (memory : h'.memory = h.memory) (cells : ∀ {w c'}, T' w = some c' →
      ∃ c, T w = some c ∧ c'.words h'.rootShape = c.words h.rootShape) : Laid h' T' := by
  have hunused : h'.Unused = h.Unused := by
    unfold Heap.Unused
    rw [young, old, shapes, space]
  have hold : ∀ {w c'}, T' w = some c' →
      ∃ c, T w = some c ∧ c'.size h'.rootShape = c.size h.rootShape := by
    intro w c' hw
    obtain ⟨c, hc, he⟩ := cells hw
    exact ⟨c, hc, by rw [Cell.size, Cell.size, he]⟩
  constructor
  · rw [young, old, shapes, space]
    exact laid.spaces
  · intro w c' hw
    obtain ⟨c, hc, -⟩ := hold hw
    exact laid.pointer hc
  · intro w c' hw
    obtain ⟨c, hc, -⟩ := hold hw
    exact laid.aligned hc
  · intro w c' hw
    obtain ⟨c, hc, he⟩ := hold hw
    exact he ▸ laid.nonempty hc
  · intro w c' hw
    obtain ⟨c, hc, he⟩ := hold hw
    exact he ▸ laid.small hc
  · intro w c' hw
    obtain ⟨c, hc, he⟩ := hold hw
    exact he ▸ laid.below hc
  · intro v w c' d' hv hw hne
    obtain ⟨c, hc, he⟩ := hold hv
    obtain ⟨d, hd, he'⟩ := hold hw
    rw [he, he']
    exact laid.apart hc hd hne
  · intro w c' x hw hlow hhigh
    obtain ⟨c, hc, he⟩ := hold hw
    rw [hunused]
    exact laid.used hc hlow (he ▸ hhigh)
  · intro w c' hw
    obtain ⟨c, hc, he⟩ := cells hw
    rw [memory, he]
    exact laid.contents hc

/-- The table depends on the spaces, the memory and the root shapes. -/
theorem congr (laid : Laid h T) (young : h'.young = h.young) (old : h'.old = h.old)
    (shapes : h'.shapes = h.shapes) (space : h'.addressSpace = h.addressSpace)
    (memory : h'.memory = h.memory) (roots : h'.rootShapes = h.rootShapes) : Laid h' T := by
  have hroot : h'.rootShape = h.rootShape := by
    unfold Heap.rootShape
    rw [roots]
  exact laid.recast young old shapes space memory fun hw => ⟨_, hw, by rw [hroot]⟩

theorem drop {T' : Contents} (laid : Laid h T') (sub : ∀ {w c}, T w = some c → T' w = some c) :
    Laid h T :=
  laid.recast rfl rfl rfl rfl rfl fun hw => ⟨_, sub hw, rfl⟩

/-- A change of memory inside one cell. -/
theorem revise (laid : Laid h T) (hw : T w = some c) {m : Memory}
    (length : (n.words h.rootShape).length = (c.words h.rootShape).length)
    (outside : ∀ x, x % 8 = 0 → x < w.address ∨ w.address + c.size h.rootShape ≤ x →
      m.load x = h.memory.load x)
    (inside : m.wordsAt w.address (c.words h.rootShape).length = n.words h.rootShape) :
    Laid { h with memory := m } (Function.update T w (some n)) := by
  have hsize : n.size h.rootShape = c.size h.rootShape := by
    unfold Cell.size
    rw [length]
  -- Every cell after the change has the place and the size of one before it.
  have hold : ∀ {v d'}, Function.update T w (some n) v = some d' →
      ∃ d, T v = some d ∧ d'.size h.rootShape = d.size h.rootShape := by
    intro v d' hv
    by_cases hvw : v = w
    · subst hvw
      rw [Function.update_self] at hv
      cases hv
      exact ⟨c, hw, hsize⟩
    · rw [Function.update_of_ne hvw] at hv
      exact ⟨d', hv, rfl⟩
  constructor
  · exact laid.spaces
  · intro v d' hv
    obtain ⟨d, hd, -⟩ := hold hv
    exact laid.pointer hd
  · intro v d' hv
    obtain ⟨d, hd, -⟩ := hold hv
    exact laid.aligned hd
  · intro v d' hv
    obtain ⟨d, hd, he⟩ := hold hv
    exact he ▸ laid.nonempty hd
  · intro v d' hv
    obtain ⟨d, hd, he⟩ := hold hv
    exact he ▸ laid.small hd
  · intro v d' hv
    obtain ⟨d, hd, he⟩ := hold hv
    exact he ▸ laid.below hd
  · intro v v' d' e' hv hv' hne
    obtain ⟨d, hd, he⟩ := hold hv
    obtain ⟨e, he', hee⟩ := hold hv'
    have hapart := laid.apart hd he' hne
    rwa [← he, ← hee] at hapart
  · intro v d' x hv hlow hhigh
    obtain ⟨d, hd, he⟩ := hold hv
    exact laid.used hd hlow (he ▸ hhigh)
  · intro v d' hv
    by_cases hvw : v = w
    · subst hvw
      rw [Function.update_self] at hv
      cases hv
      change m.wordsAt v.address (n.words h.rootShape).length = n.words h.rootShape
      rw [length]
      exact inside
    · rw [Function.update_of_ne hvw] at hv
      have hcell := laid.contents hv
      have hapart := laid.apart hv hw hvw
      have haligned := laid.aligned hv
      have hkept : m.wordsAt v.address (d'.words h.rootShape).length =
          h.memory.wordsAt v.address (d'.words h.rootShape).length := by
        apply Memory.wordsAt_congr
        intro i hi
        apply outside _ (by omega)
        unfold Cell.size at hapart ⊢
        omega
      exact hkept.trans hcell

/-- Memory that was not handed out before becomes a cell. -/
theorem add (laid : Laid h T) {a n : Nat}
    (spaces : Separate h'.young h'.old h'.shapes h'.addressSpace.next)
    (memory : h'.memory = h.memory) (roots : h'.rootShapes = h.rootShapes)
    (fresh : ∀ x, a ≤ x → x < a + 8 * n → h.Unused x)
    (unused : ∀ x, h'.Unused x → h.Unused x ∧ ¬(a ≤ x ∧ x < a + 8 * n))
    (aligned : a % 8 = 0) (positive : 0 < n) (small : 8 * n < Page.refusedSize)
    (below : a + 8 * n < 2 ^ 63) :
    T (.pointer a) = none ∧
      Laid h' (Function.update T (.pointer a) (some (.raw (h.memory.wordsAt a n)))) := by
  have haddress : (Word.pointer a).address = a := Word.address_pointer (by omega) (by omega)
  have hroot : h'.rootShape = h.rootShape := by
    unfold Heap.rootShape
    rw [roots]
  have hsize : ∀ roots, (Cell.raw (h.memory.wordsAt a n)).size roots = 8 * n := by
    intro roots
    simp [Cell.size, Cell.words]
  -- The new cell lies apart from every cell that was there.
  have hapart : ∀ {w c}, T w = some c → w.address + c.size h.rootShape ≤ a ∨ a + 8 * n ≤ w.address := by
    intro w c hw
    have hpositive := laid.nonempty hw
    by_contra hover
    have hfirst := laid.used hw (x := max a w.address) (by omega) (by omega)
    exact hfirst (fresh _ (by omega) (by omega))
  have hnone : T (.pointer a) = none := by
    by_contra hsome
    obtain ⟨c, hc⟩ := Option.ne_none_iff_exists'.mp hsome
    have hpositive := laid.nonempty hc
    have hover := hapart hc
    rw [haddress] at hover
    omega
  have hcases : ∀ {w c}, Function.update T (.pointer a) (some (.raw (h.memory.wordsAt a n))) w =
      some c → w = .pointer a ∧ c = .raw (h.memory.wordsAt a n) ∨ w ≠ .pointer a ∧ T w = some c := by
    intro w c hw
    by_cases hwa : w = .pointer a
    · subst hwa
      rw [Function.update_self] at hw
      exact .inl ⟨rfl, (Option.some.inj hw).symm⟩
    · rw [Function.update_of_ne hwa] at hw
      exact .inr ⟨hwa, hw⟩
  refine ⟨hnone, spaces, ?_, ?_, ?_, ?_, ?_, ?_, ?_, ?_⟩
  · intro w c hw
    rcases hcases hw with ⟨rfl, rfl⟩ | ⟨-, hold⟩
    · rw [haddress]
    · exact laid.pointer hold
  · intro w c hw
    rcases hcases hw with ⟨rfl, rfl⟩ | ⟨-, hold⟩
    · rwa [haddress]
    · exact laid.aligned hold
  all_goals rw [hroot]
  · intro w c hw
    rcases hcases hw with ⟨rfl, rfl⟩ | ⟨-, hold⟩
    · rw [hsize]
      omega
    · exact laid.nonempty hold
  · intro w c hw
    rcases hcases hw with ⟨rfl, rfl⟩ | ⟨-, hold⟩
    · rwa [hsize]
    · exact laid.small hold
  · intro w c hw
    rcases hcases hw with ⟨rfl, rfl⟩ | ⟨-, hold⟩
    · rwa [hsize, haddress]
    · exact laid.below hold
  · intro v w c d hv hw hne
    rcases hcases hv with ⟨rfl, rfl⟩ | ⟨-, holdv⟩ <;> rcases hcases hw with ⟨rfl, rfl⟩ | ⟨-, holdw⟩
    · exact absurd rfl hne
    · rw [hsize, haddress]
      exact (hapart holdw).symm
    · rw [hsize, haddress]
      exact hapart holdv
    · exact laid.apart holdv holdw hne
  · intro w c x hw hlow hhigh hx
    obtain ⟨hbefore, hout⟩ := unused x hx
    rcases hcases hw with ⟨rfl, rfl⟩ | ⟨-, hold⟩
    · rw [haddress] at hlow hhigh
      rw [hsize] at hhigh
      exact hout ⟨hlow, hhigh⟩
    · exact laid.used hold hlow hhigh hbefore
  · intro w c hw
    rw [memory]
    rcases hcases hw with ⟨rfl, rfl⟩ | ⟨-, hold⟩
    · simp [Cell.words, haddress]
    · exact laid.contents hold

end Laid

namespace Heap

/-- The values that exist from the start are the same in two heaps. -/
structure Kept (h h' : Heap) : Prop where
  rootShapes : h'.rootShapes = h.rootShapes
  undefined : h'.undefined = h.undefined
  null : h'.null = h.null
  hole : h'.hole = h.hole
  trueValue : h'.trueValue = h.trueValue
  falseValue : h'.falseValue = h.falseValue

/-- Two heaps with the same strings and transitions besides. -/
structure Quiet (h h' : Heap) : Prop extends Kept h h' where
  strings : h'.strings = h.strings
  transitions : h'.transitions = h.transitions

theorem Kept.rootShape (kept : Kept h h') : h'.rootShape = h.rootShape := by
  unfold Heap.rootShape
  rw [kept.rootShapes]

theorem Kept.refl (h : Heap) : Kept h h := ⟨rfl, rfl, rfl, rfl, rfl, rfl⟩

theorem Kept.trans {h'' : Heap} (first : Kept h h') (second : Kept h' h'') : Kept h h'' where
  rootShapes := second.rootShapes.trans first.rootShapes
  undefined := second.undefined.trans first.undefined
  null := second.null.trans first.null
  hole := second.hole.trans first.hole
  trueValue := second.trueValue.trans first.trueValue
  falseValue := second.falseValue.trans first.falseValue

theorem Quiet.refl (h : Heap) : Quiet h h := ⟨Kept.refl h, rfl, rfl⟩

theorem Quiet.trans {h'' : Heap} (first : Quiet h h') (second : Quiet h' h'') : Quiet h h'' where
  toKept := first.toKept.trans second.toKept
  strings := second.strings.trans first.strings
  transitions := second.transitions.trans first.transitions

theorem write_eq_ok {object value : Word} {offset : Nat} {u : Unit} :
    write object offset value h = .ok u h' ↔
      { h with memory := h.memory.store (object.address + offset) value } = h' :=
  State.modify_eq_ok

variable {T : Contents} {w : Word}

theorem write_ok (laid : Laid h T) {c n : Cell} {i : Nat} {v : Word} {u : Unit}
    (hw : T w = some c) (hi : i < (c.words h.rootShape).length)
    (hc : n.words h.rootShape = (c.words h.rootShape).set i v)
    (run : write w (8 * i) v h = .ok u h') :
    Laid h' (Function.update T w (some n)) ∧ Quiet h h' := by
  have haligned := laid.aligned hw
  obtain rfl := write_eq_ok.mp run
  refine ⟨laid.revise hw ?_ ?_ ?_, ⟨rfl, rfl, rfl, rfl, rfl, rfl⟩, rfl, rfl⟩
  · rw [hc, List.length_set]
  · intro x hx hout
    unfold Cell.size at hout
    rw [Memory.load_store _ _ (by omega) hx, if_neg (by omega)]
  · rw [Memory.wordsAt_store _ _ _ _ haligned, laid.contents hw, hc]

/-- A block that was just taken, once the shape is written to its first word. -/
theorem header_ok (laid : Laid h T) {a n : Nat} {shape : Word} {h₁ : Heap} {u : Unit}
    (run : write (.pointer a) Layout.shape shape h₁ = .ok u h')
    (spaces : Separate h₁.young h₁.old h₁.shapes h₁.addressSpace.next)
    (memory : h₁.memory = h.memory) (quiet : Quiet h h₁)
    (fresh : ∀ x, a ≤ x → x < a + 8 * n → h.Unused x)
    (unused : ∀ x, h₁.Unused x → h.Unused x ∧ ¬(a ≤ x ∧ x < a + 8 * n))
    (aligned : a % 8 = 0) (positive : 0 < n) (small : 8 * n < Page.refusedSize)
    (below : a + 8 * n < 2 ^ 63) :
    ∃ rest, rest.length + 1 = n ∧ T (.pointer a) = none ∧
      Laid h' (Function.update T (.pointer a) (some (.raw (shape :: rest)))) ∧ Quiet h h' := by
  obtain ⟨hnone, hlaid⟩ := laid.add spaces memory quiet.rootShapes fresh unused aligned positive small below
  have hlength := Memory.length_wordsAt h.memory a n
  cases hwords : h.memory.wordsAt a n with
  | nil =>
    rw [hwords] at hlength
    simp at hlength
    omega
  | cons first rest =>
    rw [hwords] at hlaid hlength
    obtain ⟨hdone, hquiet⟩ := write_ok (n := .raw (shape :: rest)) (i := 0) hlaid
      (Function.update_self ..) (Nat.succ_pos _) rfl run
    rw [Function.update_idem] at hdone
    exact ⟨rest, hlength, hnone, hdone, quiet.trans hquiet⟩

theorem align_eq {size : Nat} (small : size < 2 ^ 63 + 32) :
    Layout.align size = 8 * ((size + 7) / 8) := by
  unfold Layout.align
  rw [Layout.wrap_of_lt (by omega), Nat.mul_comm]

theorem allocYoung_ok (laid : Laid h T) {shape : Word} {size : Nat} (positive : 0 < size)
    (small : size < 2 ^ 63 + 32) (run : allocYoung shape size h = .ok w h') :
    ∃ rest, rest.length + 1 = (size + 7) / 8 ∧ T w = none ∧
      Laid h' (Function.update T w (some (.raw (shape :: rest)))) ∧ Quiet h h' := by
  simp only [allocYoung, State.bind_eq_ok, State.get_eq_ok] at run
  obtain ⟨_, _, ⟨rfl, rfl⟩, run⟩ := run
  cases hallocate : h.young.allocate h.addressSpace size with
  | error e =>
    rw [hallocate] at run
    exact (State.throw_eq_ok.mp run).elim
  | ok result =>
    obtain ⟨address, young, space⟩ := result
    simp only [hallocate, State.bind_eq_ok, State.set_eq_ok, State.pure_eq_ok] at run
    obtain ⟨_, _, rfl, _, _, run, rfl, rfl⟩ := run
    have taken := Space.allocate_ok laid.spaces.first laid.spaces.aligned small hallocate
    rw [align_eq small] at taken
    obtain ⟨rest, hlength, hnone, hlaid, hquiet⟩ := header_ok laid run (laid.spaces.take taken)
      rfl ⟨⟨rfl, rfl, rfl, rfl, rfl, rfl⟩, rfl, rfl⟩
      (fun x => Separate.fresh taken) (fun x => laid.spaces.unused taken)
      taken.address_aligned (by omega) taken.size_lt taken.small
    exact ⟨rest, hlength, hnone, hlaid, hquiet⟩

theorem allocOld_ok (laid : Laid h T) {shape : Word} {size : Nat} (positive : 0 < size)
    (small : size < 2 ^ 63 + 32) (run : allocOld shape size h = .ok w h') :
    ∃ rest, rest.length + 1 = (size + 7) / 8 ∧ T w = none ∧
      Laid h' (Function.update T w (some (.raw (shape :: rest)))) ∧ Quiet h h' := by
  simp only [allocOld, State.bind_eq_ok, State.get_eq_ok] at run
  obtain ⟨_, _, ⟨rfl, rfl⟩, run⟩ := run
  cases hallocate : h.old.allocate h.addressSpace size with
  | error e =>
    rw [hallocate] at run
    exact (State.throw_eq_ok.mp run).elim
  | ok result =>
    obtain ⟨address, old, space⟩ := result
    simp only [hallocate, State.bind_eq_ok, State.set_eq_ok, State.pure_eq_ok] at run
    obtain ⟨_, _, rfl, _, _, run, rfl, rfl⟩ := run
    have spaces := laid.spaces.rotate
    have taken := Space.allocate_ok spaces.first spaces.aligned small hallocate
    rw [align_eq small] at taken
    obtain ⟨rest, hlength, hnone, hlaid, hquiet⟩ := header_ok laid run
      (spaces.take taken).rotate.rotate rfl ⟨⟨rfl, rfl, rfl, rfl, rfl, rfl⟩, rfl, rfl⟩
      (fun x low high => Separate.unused_rotate (Separate.fresh taken low high))
      (fun x hx => (spaces.unused taken (Separate.unused_rotate (Separate.unused_rotate hx))).imp_left
        Separate.unused_rotate)
      taken.address_aligned (by omega) taken.size_lt taken.small
    exact ⟨rest, hlength, hnone, hlaid, hquiet⟩

theorem allocOld_codeRecords {shape : Word} {size : Nat} (run : allocOld shape size h = .ok w h') :
    h'.codeRecords = h.codeRecords := by
  simp only [allocOld, State.bind_eq_ok, State.get_eq_ok] at run
  obtain ⟨_, _, ⟨rfl, rfl⟩, run⟩ := run
  cases hallocate : h.old.allocate h.addressSpace size with
  | error e =>
    rw [hallocate] at run
    exact (State.throw_eq_ok.mp run).elim
  | ok result =>
    simp only [hallocate, State.bind_eq_ok, State.set_eq_ok, State.pure_eq_ok, write_eq_ok] at run
    obtain ⟨_, _, rfl, _, _, rfl, rfl, rfl⟩ := run
    rfl

theorem allocShape_ok (laid : Laid h T) {flags : ShapeFlags} {proto : Word}
    (run : allocShape flags proto h = .ok w h') :
    T w = none ∧ Laid h' (Function.update T w (some (.shape flags proto))) ∧ Quiet h h' := by
  simp only [allocShape, State.bind_eq_ok, State.get_eq_ok] at run
  obtain ⟨_, _, ⟨rfl, rfl⟩, run⟩ := run
  cases hallocate : h.shapes.allocate h.addressSpace Layout.Shape.size with
  | error e =>
    rw [hallocate] at run
    exact (State.throw_eq_ok.mp run).elim
  | ok result =>
    obtain ⟨address, shapes, space⟩ := result
    simp only [hallocate, State.bind_eq_ok, State.set_eq_ok, State.pure_eq_ok] at run
    obtain ⟨_, _, rfl, _, h₁, header, _, h₂, flagged, _, h₃, linked, rfl, rfl⟩ := run
    have spaces := laid.spaces.rotate.rotate
    have hsmall : Layout.Shape.size < 2 ^ 63 + 32 := by decide
    have taken := Space.allocate_ok spaces.first spaces.aligned hsmall hallocate
    rw [align_eq hsmall] at taken
    obtain ⟨rest, hlength, hnone, hlaid, hquiet⟩ := header_ok laid header
      (spaces.take taken).rotate rfl ⟨⟨rfl, rfl, rfl, rfl, rfl, rfl⟩, rfl, rfl⟩
      (fun x low high => Separate.unused_rotate (Separate.unused_rotate (Separate.fresh taken low high)))
      (fun x hx => (spaces.unused taken (Separate.unused_rotate hx)).imp_left
        fun h => Separate.unused_rotate (Separate.unused_rotate h))
      taken.address_aligned (by decide) taken.size_lt taken.small
    have hlength' : rest.length = 2 := by
      have h3 : (Layout.Shape.size + 7) / 8 = 3 := by decide
      omega
    obtain ⟨x, y, rfl⟩ := List.length_eq_two.mp hlength'
    obtain ⟨hlaid₂, hquiet₂⟩ := write_ok (n := .raw [h.rootShape .map, .smi flags.bits, y]) (i := 1)
      hlaid (Function.update_self ..) (by simp [Cell.words]) rfl flagged
    have hroot : h₂.rootShape .map = h.rootShape .map := by
      rw [hquiet₂.rootShape, hquiet.rootShape]
    obtain ⟨hlaid₃, hquiet₃⟩ := write_ok (n := .shape flags proto) (i := 2) hlaid₂
      (Function.update_self ..) (by simp [Cell.words]) (by simp [Cell.words, hroot]) linked
    simp only [Function.update_idem] at hlaid₃
    exact ⟨hnone, hlaid₃, (hquiet.trans hquiet₂).trans hquiet₃⟩

/-- Storage of a length that memory can hold. -/
theorem storeSize_eq {words : Nat} (small : words < 2 ^ 60) :
    Layout.Store.size words = 8 * (words + 2) := by
  unfold Layout.Store.size Layout.Store.items Layout.word
  rw [Layout.wrap_of_lt (by omega)]
  omega

theorem allocStore_ok (laid : Laid h T) {words : Nat} (small : words < 2 ^ 60)
    (run : allocStore words h = .ok w h') :
    T w = none ∧ Laid h' (Function.update T w (some (.store (List.replicate words h.hole)))) ∧
      Quiet h h' := by
  simp only [allocStore, State.bind_eq_ok, State.get_eq_ok, State.modify_eq_ok,
    State.pure_eq_ok] at run
  obtain ⟨_, _, ⟨rfl, rfl⟩, store, h₁, allocated, _, h₂, sized, _, _, rfl, rfl, rfl⟩ := run
  rw [storeSize_eq small] at allocated
  obtain ⟨rest, hlength, hnone, hlaid₁, hquiet₁⟩ := allocYoung_ok laid (by omega) (by omega) allocated
  have hrest : rest.length = words + 1 := by omega
  obtain ⟨x, rest, rfl⟩ := List.exists_cons_of_length_eq_add_one hrest
  have hrest' : rest.length = words := by simpa using hrest
  obtain ⟨hlaid₂, hquiet₂⟩ := write_ok
    (n := .raw (h.rootShape .field :: .smi words :: rest)) (i := 1) hlaid₁
    (Function.update_self ..) (by simp [Cell.words]) rfl sized
  rw [Function.update_idem] at hlaid₂
  have hquiet := hquiet₁.trans hquiet₂
  have haligned := hlaid₂.aligned (Function.update_self ..)
  have hwords := hlaid₂.contents (Function.update_self ..)
  have hroot : h₂.rootShape .field = h.rootShape .field := by rw [hquiet.rootShape]
  have hdone := hlaid₂.revise (n := .store (List.replicate words h.hole))
    (m := h₂.memory.fill (store.address + Layout.Store.items) words h₂.hole)
    (Function.update_self ..) (by simp [Cell.words, hrest']) ?_ ?_
  · rw [Function.update_idem] at hdone
    exact ⟨hnone, hdone, hquiet.trans ⟨⟨rfl, rfl, rfl, rfl, rfl, rfl⟩, rfl, rfl⟩⟩
  · intro x hx hout
    simp only [Cell.size, Cell.words, List.length_cons, hrest'] at hout
    rw [Memory.load_fill _ _ _ (by simp only [Layout.Store.items]; omega) hx,
      if_neg (by simp only [Layout.Store.items]; omega)]
  · have hcount : (Cell.words h₂.rootShape
        (.raw (h.rootShape .field :: .smi words :: rest))).length = 2 + words := by
      simp only [Cell.words, List.length_cons, hrest']
      omega
    rw [hcount] at hwords ⊢
    change (h₂.memory.fill (store.address + 8 * 2) words h₂.hole).wordsAt store.address _ = _
    rw [Memory.wordsAt_fill _ _ _ _ haligned, hwords, hquiet.hole]
    simp [Cell.words, hroot]

end Heap
end ScriptEngine
