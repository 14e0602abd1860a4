import Mathlib
import ScriptEngine.Proofs.Heap.Granting
import ScriptEngine.Proofs.Heap.Properties

/-!
Objects that are put together from parts. Whatever the order in which a heap takes the memory for them,
it ends with the same new cells, at other addresses perhaps, and has handed out as many bytes.
-/

namespace ScriptEngine

open Function (update)

/-- The second table is the first with some cells besides. -/
structure Gains (T T' : Contents) (cells : List (Word × Cell)) : Prop where
  distinct : (cells.map Prod.fst).Nodup
  fresh : ∀ p ∈ cells, T p.1 = none
  holds : ∀ p ∈ cells, T' p.1 = some p.2
  rest : ∀ w ∉ cells.map Prod.fst, T' w = T w

namespace Gains

variable {T T' : Contents} {cells cells' : List (Word × Cell)} {w : Word} {c c' : Cell}

theorem nil (T : Contents) : Gains T T [] := ⟨.nil, nofun, nofun, fun _ _ => rfl⟩

theorem perm (h : Gains T T' cells) (p : cells.Perm cells') : Gains T T' cells' where
  distinct := (p.map _).nodup_iff.mp h.distinct
  fresh q hq := h.fresh q (p.mem_iff.mpr hq)
  holds q hq := h.holds q (p.mem_iff.mpr hq)
  rest v hv := h.rest v fun hmem => hv ((p.map _).mem_iff.mp hmem)

/-- What was there stays there. -/
theorem sub (h : Gains T T' cells) (hw : T w = some c) : T' w = some c := by
  rw [h.rest, hw]
  intro hmem
  obtain ⟨p, hp, rfl⟩ := List.mem_map.mp hmem
  rw [h.fresh p hp] at hw
  cases hw

theorem get (h : Gains T T' cells) {i : Nat} (hi : cells[i]? = some (w, c)) : T' w = some c :=
  h.holds _ (List.mem_of_getElem? hi)

theorem cons (h : Gains T T' cells) (fresh : T' w = none) : Gains T (update T' w (some c)) ((w, c) :: cells) := by
  have hnew : ∀ p ∈ cells, p.1 ≠ w := by
    rintro p hp rfl
    rw [h.holds p hp] at fresh
    cases fresh
  have hold : T w = none := by
    cases hw : T w with
    | none => rfl
    | some d =>
      rw [h.sub hw] at fresh
      cases fresh
  constructor
  · refine List.nodup_cons.mpr ⟨fun hmem => ?_, h.distinct⟩
    obtain ⟨p, hp, heq⟩ := List.mem_map.mp hmem
    exact hnew p hp heq
  · intro p hp
    rcases List.mem_cons.mp hp with rfl | hp
    · exact hold
    · exact h.fresh p hp
  · intro p hp
    rcases List.mem_cons.mp hp with rfl | hp
    · exact Function.update_self ..
    · rw [Function.update_of_ne (hnew p hp), h.holds p hp]
  · intro v hv
    simp only [List.map_cons, List.mem_cons, not_or] at hv
    rw [Function.update_of_ne hv.1, h.rest v hv.2]

/-- A new cell becomes another. -/
theorem set (h : Gains T T' cells) {i : Nat} (hi : cells[i]? = some (w, c)) :
    Gains T (update T' w (some c')) (cells.set i (w, c')) := by
  have hlt := (List.getElem?_eq_some_iff.mp hi).1
  have hnames : (cells.set i (w, c')).map Prod.fst = cells.map Prod.fst := by
    refine List.ext_getElem? fun j => ?_
    rw [List.map_set, List.getElem?_set, List.length_map, List.getElem?_map]
    split
    · subst j
      rw [hi]
      rfl
    · rfl
  have hcases : ∀ p ∈ cells.set i (w, c'), p = (w, c') ∨ p ∈ cells ∧ p.1 ≠ w := by
    intro p hp
    obtain ⟨j, hj⟩ := List.getElem?_of_mem hp
    rw [List.getElem?_set] at hj
    split at hj
    · rw [Option.some.injEq] at hj
      exact .inl hj.symm
    · rename_i hne
      refine .inr ⟨List.mem_of_getElem? hj, fun hpw => hne ?_⟩
      refine (List.getElem?_inj (by simpa using hlt) h.distinct).mp ?_
      rw [List.getElem?_map, List.getElem?_map, hi, hj, Option.map_some, Option.map_some, hpw]
  constructor
  · rw [hnames]
    exact h.distinct
  · intro p hp
    rcases hcases p hp with rfl | ⟨hp, -⟩
    · exact h.fresh (w, c) (List.mem_of_getElem? hi)
    · exact h.fresh p hp
  · intro p hp
    rcases hcases p hp with rfl | ⟨hp, hne⟩
    · exact Function.update_self ..
    · rw [Function.update_of_ne hne, h.holds p hp]
  · intro v hv
    rw [hnames] at hv
    have hne : v ≠ w := by
      rintro rfl
      exact hv (List.mem_map_of_mem (List.mem_of_getElem? hi))
    rw [Function.update_of_ne hne, h.rest v hv]

end Gains

namespace Heap

variable {h h' h'' : Heap} {T : Contents} {size n bytes k : Nat} {tr : Transitions} {cells : List (Word × Cell)}
  {w : Word} {c : Cell}

/-- A heap has grown out of another: the new cells, the bytes of the young space that were taken for them, and
the pages that the system still maps. -/
structure Built (h : Heap) (T : Contents) (size n bytes : Nat) (tr : Transitions) (cells : List (Word × Cell))
    (h' : Heap) : Prop where
  kept : Kept h h'
  strings : h'.strings = h.strings
  transitions : h'.transitions = tr
  spends : h.Spends h' bytes
  maps : h'.Maps size n
  tables : ∃ T', Laid h' T' ∧ Gains T T' cells

namespace Built

theorem perm {cells' : List (Word × Cell)} (built : Built h T size n bytes tr cells h') (p : cells.Perm cells') :
    Built h T size n bytes tr cells' h' := by
  obtain ⟨T', laid, gains⟩ := built.tables
  exact { built with tables := ⟨T', laid, gains.perm p⟩ }

theorem young (built : Built h T size (n + 1) bytes tr cells h') (positive : 0 < k) (small : k < 2 ^ 62)
    (fits : Layout.align k ≤ size) (shape : Word) : ∃ w h'' rest, allocYoung shape k h' = .ok w h'' ∧
      rest.length + 1 = (k + 7) / 8 ∧
        Built h T size n (bytes + Layout.align k) tr ((w, .raw (shape :: rest)) :: cells) h'' := by
  obtain ⟨T', laid, gains⟩ := built.tables
  obtain ⟨w, h'', run, maps, spends⟩ := allocYoung_succeeds laid built.maps fits small shape
  obtain ⟨rest, hlength, hnone, hlaid, hquiet⟩ := allocYoung_ok laid positive (by omega) run
  refine ⟨w, h'', rest, run, hlength, built.kept.trans hquiet.toKept, hquiet.strings.trans built.strings,
    hquiet.transitions.trans built.transitions, built.spends.trans spends, maps, _, hlaid, gains.cons hnone⟩

theorem store {words : Nat} (built : Built h T size (n + 1) bytes tr cells h') (fits : 8 * (words + 2) ≤ size) :
    ∃ w h'', allocStore words h' = .ok w h'' ∧
      Built h T size n (bytes + 8 * (words + 2)) tr ((w, .store (List.replicate words h.hole)) :: cells) h'' := by
  obtain ⟨T', laid, gains⟩ := built.tables
  have hsmall := built.maps.size_lt laid
  obtain ⟨w, h'', run, maps, spends⟩ := allocStore_succeeds laid built.maps fits
  obtain ⟨hnone, hlaid, hquiet⟩ := allocStore_ok laid (by omega) run
  rw [built.kept.hole] at hlaid
  exact ⟨w, h'', run, built.kept.trans hquiet.toKept, hquiet.strings.trans built.strings,
    hquiet.transitions.trans built.transitions, built.spends.trans spends, maps, _, hlaid, gains.cons hnone⟩

theorem shape (built : Built h T size (n + 1) bytes tr cells h') (flags : ShapeFlags) (proto : Word) :
    ∃ w h'', allocShape flags proto h' = .ok w h'' ∧
      Built h T size n bytes tr ((w, .shape flags proto) :: cells) h'' := by
  obtain ⟨T', laid, gains⟩ := built.tables
  obtain ⟨w, h'', run, maps, spends⟩ := allocShape_succeeds laid built.maps flags proto
  obtain ⟨hnone, hlaid, hquiet⟩ := allocShape_ok laid run
  exact ⟨w, h'', run, built.kept.trans hquiet.toKept, hquiet.strings.trans built.strings,
    hquiet.transitions.trans built.transitions, built.spends.trans spends, maps, _, hlaid, gains.cons hnone⟩

/-- A word of a new cell is written. -/
theorem write {i j : Nat} {v : Word} (c' : Cell) (built : Built h T size n bytes tr cells h')
    (hi : cells[i]? = some (w, c)) (hj : j < (c.words h.rootShape).length)
    (hc : c'.words h.rootShape = (c.words h.rootShape).set j v) : ∃ h'', write w (8 * j) v h' = .ok () h'' ∧
      Built h T size n bytes tr (cells.set i (w, c')) h'' := by
  obtain ⟨T', laid, gains⟩ := built.tables
  have hroots := built.kept.rootShape
  have run : Heap.write w (8 * j) v h' = .ok () { h' with memory := h'.memory.store (w.address + 8 * j) v } := rfl
  obtain ⟨hlaid, hquiet⟩ := write_ok laid (gains.get hi) (by rw [hroots]; exact hj) (by rw [hroots]; exact hc) run
  exact ⟨_, run, built.kept.trans hquiet.toKept, built.strings, built.transitions, built.spends.keep rfl rfl,
    built.maps.keep rfl rfl rfl, _, hlaid, gains.set hi⟩

end Built

/-! ### The property of a fresh function -/

section

variable {h : Heap} {T : Contents} {o s st key : Word} {rest : List Word} {flags : ShapeFlags} {proto : Word} {text : String}

theorem hasFlag_laid (laid : Laid h T) (ho : T o = some (.object s st rest)) (hs : T s = some (.shape flags proto))
    (small : flags.bits < 2 ^ 62) (flag : ShapeFlags) : h.hasFlag o flag = flags.contains flag := by
  unfold hasFlag
  rw [shapeOf?_object laid ho, Option.any_some, shapeFlags_shape laid hs small]

/-- Values whose shape is on the transition tree are objects. -/
theorem isObject_laid (laid : Laid h T) (roots : ∀ kind, T (h.rootShape kind) = some (.shape kind.flags h.null))
    (ho : T o = some (.object s st rest)) (hs : T s = some (.shape flags proto))
    (hon : flags.contains .transition = true) : h.isObject o = true := by
  unfold isObject
  rw [shapeOf?_object laid ho]
  simp only [List.all_eq_true, bne_iff_ne]
  rintro kind hkind rfl
  have hcell := roots kind
  rw [hs] at hcell
  cases hcell
  simp only [storelessShapes, List.mem_cons, List.not_mem_nil, or_false] at hkind
  rcases hkind with rfl | rfl | rfl | rfl | rfl | rfl | rfl <;> exact absurd hon (by decide)

/-- In storage full of holes, no key is found, and the first slot is free. -/
theorem findKey?_holes (laid : Laid h T) (hst : T st = some (.store (List.replicate 8 h.hole))) :
    h.findKey? st key = if key = h.hole then some 0 else none := by
  have hlength : (List.replicate 8 h.hole).length / 2 = 4 := by simp
  have hitem : ∀ i < 4, (List.replicate 8 h.hole)[2 * i]? = some h.hole := fun i hi => by
    rw [List.getElem?_replicate, if_pos (by omega)]
  rw [findKey?_store laid hst, hlength]
  split
  · rename_i heq
    exact List.find?_range_eq_some.mpr ⟨by simp [heq], by simp, nofun⟩
  · rename_i hne
    refine List.find?_eq_none.mpr fun i hi => ?_
    rw [hitem i (List.mem_range.mp hi)]
    simpa using Ne.symm hne

/-- An empty object on the tree gets a key that is text. -/
theorem lookupSlot_empty (laid : Laid h T) (roots : ∀ kind, T (h.rootShape kind) = some (.shape kind.flags h.null))
    (ho : T o = some (.object s st rest)) (hs : T s = some (.shape flags proto)) (small : flags.bits < 2 ^ 62)
    (hon : flags.contains .transition = true) (hdense : flags.contains .dense = false)
    (hst : T st = some (.store (List.replicate 8 h.hole))) (hkey : T key = some (.text text)) (hne : key ≠ h.hole) :
    lookupSlot o key true h = (do
      write st (8 * 2) key
      write st (8 * 3) h.undefined
      followTransition o s key
      return some 0 : HeapM (Option Nat)) h := by
  have hobject := isObject_laid laid roots ho hs hon
  have hflag : h.isDense o = false := (hasFlag_laid laid ho hs small .dense).trans hdense
  have hnormal : propertyKey o key h = .ok key h := by
    unfold propertyKey
    refine (State.get_bind _).trans ?_
    rw [isSmi_of_cell laid hkey, text?_text laid hkey]
    rfl
  have hfree : freeSlot o h = .ok 0 h := by
    unfold freeSlot
    refine (State.get_bind _).trans ?_
    simp only [storeOf_object laid ho, findKey?_holes laid hst, if_true]
    rfl
  have hown : h.ownSlot? o key = none := by
    unfold ownSlot?
    simp only [hobject, hflag, storeOf_object laid ho, findKey?_holes laid hst, if_neg hne, Bool.not_true,
      Bool.false_eq_true, if_false]
  unfold lookupSlot
  refine (State.get_bind _).trans ?_
  simp only [hobject, Bool.not_true, Bool.false_eq_true, if_false]
  refine (State.bind_of_ok hnormal).trans ?_
  refine (State.get_bind _).trans ?_
  simp only [hown, if_true]
  unfold addProperty
  refine (State.get_bind _).trans ?_
  simp only [hflag, Bool.false_eq_true, if_false, shapeOf?_object laid ho]
  refine (State.bind_of_ok hfree).trans ?_
  refine (State.get_bind _).trans ?_
  rw [storeOf_object laid ho]
  rfl

end

variable {h h' : Heap} {T : Contents} {size n bytes : Nat} {tr : Transitions} {cells : List (Word × Cell)}
  {f st key p : Word} {rest : List Word} {text : String}

/-- The shape that functions get with their first key, unless it is there already. -/
def sprout (h : Heap) (key child : Word) : List (Word × Cell) :=
  match h.transitions.child? (h.rootShape .function) key with
  | some _ => []
  | none => [(child, .shape (RootShape.flags .function) h.null)]

/-- The transitions with that shape among them. -/
def sprouted (h : Heap) (key child : Word) : Transitions :=
  match h.transitions.child? (h.rootShape .function) key with
  | some _ => h.transitions
  | none => h.transitions.insert (h.rootShape .function) key child

/-- The shape that a fresh function has with its first key. -/
theorem sprout_cell (typed : Typed h T) {T' : Contents} {child : Word} (gains : Gains T T' (sprout h key child ++ cells))
    (known : ∀ c, h.transitions.child? (h.rootShape .function) key = some c → child = c) :
    T' child = some (.shape (RootShape.flags .function) h.null) := by
  unfold sprout at gains
  cases hchild : h.transitions.child? (h.rootShape .function) key with
  | some c =>
    obtain rfl := known c hchild
    obtain ⟨flags, proto, hsource, htarget, -⟩ := typed.edge hchild
    rw [typed.rootCell .function] at hsource
    cases hsource
    exact gains.sub htarget
  | none =>
    rw [hchild] at gains
    exact gains.get (i := 0) rfl

namespace Built

theorem pred (built : Built h T size (n + 1) bytes tr cells h') : Built h T size n bytes tr cells h' :=
  { built with maps := built.maps.pred }

theorem grow (built : Built h T size n bytes tr cells h') (shape key child : Word) :
    Built h T size n bytes (tr.insert shape key child) cells
      { h' with transitions := h'.transitions.insert shape key child } := by
  obtain ⟨T', laid, gains⟩ := built.tables
  exact ⟨⟨built.kept.rootShapes, built.kept.undefined, built.kept.null, built.kept.hole, built.kept.trueValue,
    built.kept.falseValue⟩, built.strings, congrArg (·.insert shape key child) built.transitions,
    built.spends.keep rfl rfl, built.maps.keep rfl rfl rfl, T', laid.congr rfl rfl rfl rfl rfl rfl, gains⟩

/-- The root shapes are where they were. -/
theorem roots (typed : Typed h T) (built : Built h T size n bytes tr cells h') {T' : Contents}
    (gains : Gains T T' cells) (kind : RootShape) : T' (h'.rootShape kind) = some (.shape kind.flags h'.null) := by
  rw [built.kept.rootShape, built.kept.null]
  exact gains.sub (typed.rootCell kind)

/-- A fresh function follows the transition for its first key. -/
theorem follow (typed : Typed h T) (built : Built h T size (n + 1) bytes h.transitions cells h') {i : Nat}
    (hf : cells[i]? = some (f, .object (h.rootShape .function) st rest)) (key : Word) :
    ∃ child h'', followTransition f (h.rootShape .function) key h' = .ok () h'' ∧
      (∀ c, h.transitions.child? (h.rootShape .function) key = some c → child = c) ∧
      Built h T size n bytes (sprouted h key child) (sprout h key child ++ cells.set i (f, .object child st rest)) h'' := by
  obtain ⟨T', laid, gains⟩ := built.tables
  have hroot := built.roots typed gains .function
  rw [built.kept.rootShape] at hroot
  have hflags := shapeFlags_shape laid hroot (by decide)
  have hcount := typed.rootCount .function
  unfold sprout sprouted
  cases hchild : h.transitions.child? (h.rootShape .function) key with
  | some child =>
    obtain ⟨h'', run, built'⟩ := built.pred.write (.object child st rest) hf (j := 0) (by simp [Cell.words]) rfl
    refine ⟨child, h'', ?_, fun _ hc => Option.some.inj hc, built'⟩
    unfold followTransition
    refine (State.get_bind _).trans ?_
    simp only [hflags, built.transitions, hcount, hchild]
    rw [if_pos (by decide), if_neg (by decide)]
    exact run
  | none =>
    obtain ⟨child, h₁, allocated, built₁⟩ := built.shape (RootShape.flags .function) h.null
    obtain ⟨h'', run, built'⟩ := (built₁.grow (h.rootShape .function) key child).write
      (.object child st rest) (i := i + 1) hf (j := 0) (by simp [Cell.words]) rfl
    refine ⟨child, h'', ?_, fun c hc => absurd hc.symm (Option.some_ne_none c), built'⟩
    unfold followTransition
    refine (State.get_bind _).trans ?_
    simp only [hflags, built.transitions, hcount, hchild, shapeProto_shape laid hroot, built.kept.null]
    rw [if_pos (by decide), if_neg (by decide)]
    refine (State.bind_of_ok allocated).trans ?_
    exact run

/-- A word of a new cell is written, behind others. -/
theorem writeBehind (new : List (Word × Cell)) {w v : Word} {c : Cell} {i j : Nat} (c' : Cell)
    (built : Built h T size n bytes tr (new ++ cells) h') (hi : cells[i]? = some (w, c))
    (hj : j < (c.words h.rootShape).length) (hc : c'.words h.rootShape = (c.words h.rootShape).set j v) :
    ∃ h'', Heap.write w (8 * j) v h' = .ok () h'' ∧ Built h T size n bytes tr (new ++ cells.set i (w, c')) h'' := by
  have hplace : (new ++ cells)[new.length + i]? = some (w, c) := by
    rw [List.getElem?_append_right (by omega), Nat.add_sub_cancel_left, hi]
  obtain ⟨h'', run, built'⟩ := built.write c' hplace hj hc
  rw [List.set_append_right _ _ (by omega), Nat.add_sub_cancel_left] at built'
  exact ⟨h'', run, built'⟩

/-- A fresh function gets its first key, which is `prototype`. -/
theorem setPrototype (typed : Typed h T) (built : Built h T size (n + 1) bytes h.transitions cells h') {i j : Nat}
    (hf : cells[i]? = some (f, .object (h.rootShape .function) st rest))
    (hst : cells[j]? = some (st, .store (List.replicate 8 h.hole))) (hkey : T key = some (.text "prototype")) (p : Word) :
    ∃ child h'', setProperty f key p h' = refreshInstanceShape f p h'' ∧
      (∀ c, h.transitions.child? (h.rootShape .function) key = some c → child = c) ∧
      Built h T size n bytes (sprouted h key child) (sprout h key child ++
        (cells.set j (st, .store (key :: p :: List.replicate 6 h.hole))).set i (f, .object child st rest)) h'' := by
  have hij : j ≠ i := by
    rintro rfl
    rw [hf] at hst
    cases hst
  have hlt : j < cells.length := (List.getElem?_eq_some_iff.mp hst).1
  have hne : key ≠ h.hole := by
    obtain ⟨_, hhole⟩ := typed.hole
    rintro rfl
    rw [hkey] at hhole
    cases hhole
  obtain ⟨T₀, laid₀, gains₀⟩ := built.tables
  have hroot := built.roots typed gains₀ .function
  rw [built.kept.rootShape] at hroot
  have hlookup := lookupSlot_empty laid₀ (built.roots typed gains₀) (gains₀.get hf) hroot (by decide) (by decide) (by decide)
    (by rw [built.kept.hole]; exact gains₀.get hst) (gains₀.sub hkey) (by rwa [built.kept.hole])
  -- The key, the empty value, and the transition.
  obtain ⟨h₁, run₁, built₁⟩ := built.write (.store (key :: List.replicate 7 h.hole)) hst (j := 2) (v := key)
    (by simp [Cell.words]) (by simp [Cell.words, List.replicate])
  obtain ⟨h₂, run₂, built₂⟩ := built₁.write (.store (key :: h.undefined :: List.replicate 6 h.hole)) (i := j)
    (by rw [List.getElem?_set_self hlt]) (j := 3) (v := h.undefined) (by simp [Cell.words])
    (by simp [Cell.words, List.replicate])
  rw [List.set_set] at built₂
  obtain ⟨child, h₃, run₃, known, built₃⟩ := built₂.follow typed (i := i) (by rw [List.getElem?_set_ne hij]; exact hf) key
  have hlooked : lookupSlot f key true h' = .ok (some 0) h₃ := by
    rw [hlookup, built.kept.undefined]
    refine (State.bind_of_ok run₁).trans ((State.bind_of_ok run₂).trans ((State.bind_of_ok run₃).trans rfl))
  -- The value.
  obtain ⟨T₃, laid₃, gains₃⟩ := built₃.tables
  have hstore : ((cells.set j (st, Cell.store (key :: h.undefined :: List.replicate 6 h.hole))).set i
      (f, .object child st rest))[j]? = some (st, .store (key :: h.undefined :: List.replicate 6 h.hole)) := by
    rw [List.getElem?_set_ne hij.symm, List.getElem?_set_self hlt]
  obtain ⟨h₄, run₄, built₄⟩ := built₃.writeBehind _ (.store (key :: p :: List.replicate 6 h.hole)) hstore (j := 3) (v := p)
    (by simp [Cell.words]) (by simp [Cell.words, List.replicate])
  rw [List.set_comm _ _ hij.symm, List.set_set] at built₄
  have hfunction : ∀ {x : Cell}, ((cells.set j (st, x)).set i (f, .object child st rest))[i]? =
      some (f, .object child st rest) := fun {x} => by
    rw [List.getElem?_set_self]
    rw [List.length_set]
    exact (List.getElem?_eq_some_iff.mp hf).1
  have hf₃ := gains₃.holds _ (List.mem_append_right _ (List.mem_of_getElem? hfunction))
  have hslot : writeSlot f 0 p h₃ = .ok () h₄ := by
    unfold writeSlot
    refine (State.get_bind _).trans ?_
    have hoffset : h₃.slotOffset f 0 = 8 * 3 := by
      unfold slotOffset
      rw [if_neg]
      · rfl
      · rw [isDense, hasFlag_laid laid₃ hf₃ (sprout_cell typed gains₃ known) (by decide)]
        decide
    rw [storeOf_object laid₃ hf₃, hoffset]
    exact run₄
  obtain ⟨T₄, laid₄, gains₄⟩ := built₄.tables
  have hf₄ := gains₄.holds _ (List.mem_append_right _ (List.mem_of_getElem? hfunction))
  have hcallable : h₄.isFunction f = true := by
    rw [isFunction, hasFlag_laid laid₄ hf₄ (sprout_cell typed gains₄ known) (by decide)]
    decide
  refine ⟨child, h₄, ?_, known, built₄⟩
  unfold setProperty
  refine (State.bind_of_ok hlooked).trans ((State.bind_of_ok hslot).trans ((State.get_bind _).trans ?_))
  rw [if_pos ⟨hcallable, text?_text laid₄ (gains₄.sub hkey)⟩]

/-- The shape of a function's instances is replaced if it has another prototype. -/
theorem refresh_eq (typed : Typed h T) (built : Built h T size n bytes tr cells h') {child code instances pst q : Word}
    {flags : ShapeFlags} (hf : (f, .object child st [code, instances]) ∈ cells)
    (hchild : ∀ T', Gains T T' cells → T' child = some (.shape (RootShape.flags .function) h.null))
    (hp : (p, .object (h.rootShape .object) pst []) ∈ cells)
    (hinstances : ∀ T', Gains T T' cells → T' instances = some (.shape flags q)) :
    refreshInstanceShape f p h' = (if q ≠ p then do
      let shape ← allocShape .transition p
      Heap.write f (8 * 3) shape
    else return () : HeapM Unit) h' := by
  obtain ⟨T', laid, gains⟩ := built.tables
  have hcallable : h'.isFunction f = true := by
    rw [isFunction, hasFlag_laid laid (gains.holds _ hf) (hchild T' gains) (by decide)]
    decide
  have hroot := built.roots typed gains .object
  rw [built.kept.rootShape] at hroot
  have hobject := isObject_laid laid (built.roots typed gains) (gains.holds _ hp) hroot (by decide)
  have hread : h'.read f Layout.Function.instanceShape = instances := laid.read (i := 3) (gains.holds _ hf) rfl
  unfold refreshInstanceShape
  refine (State.get_bind _).trans ?_
  simp only [hobject, if_true, instanceShape, hcallable, hread, shapeProto_shape laid (hinstances T' gains)]
  rfl

/-! ### Objects, arrays and functions -/

/-- An object, and then its storage. -/
theorem join (built : Built h T size (n + 2) bytes tr cells h') (kind : RootShape) (words : Nat) (fits : 16 ≤ size)
    (fits' : 8 * (words + 2) ≤ size) : ∃ o st h'', (do
      let object ← allocYoung (h.rootShape kind) Layout.Object.size
      let store ← allocStore words
      Heap.write object Layout.Object.store store
      return object : HeapM Word) h' = .ok o h'' ∧
        Built h T size n (bytes + 16 + 8 * (words + 2)) tr ((st, .store (List.replicate words h.hole)) ::
          (o, .object (h.rootShape kind) st []) :: cells) h'' := by
  obtain ⟨o, h₁, rest, run₁, hlength, built₁⟩ := built.young (k := 16) (by decide) (by decide) fits (h.rootShape kind)
  obtain ⟨x, rfl⟩ := List.length_eq_one_iff.mp (Nat.succ.inj hlength)
  obtain ⟨st, h₂, run₂, built₂⟩ := built₁.store fits'
  obtain ⟨h₃, run₃, built₃⟩ := built₂.write (.object (h.rootShape kind) st []) (i := 1) (j := 1) (v := st) rfl
    (by simp [Cell.words]) rfl
  exact ⟨o, st, h₃, (State.bind_of_ok run₁).trans ((State.bind_of_ok run₂).trans ((State.bind_of_ok run₃).trans rfl)), built₃⟩

theorem bareFunction (built : Built h T size (n + 2) bytes tr cells h') (code instances : Word) (fits : 80 ≤ size) :
    ∃ f st h'', allocBareFunction code instances h' = .ok f h'' ∧
      Built h T size n (bytes + 32 + 80) tr ((st, .store (List.replicate 8 h.hole)) ::
        (f, .object (h.rootShape .function) st [code, instances]) :: cells) h'' := by
  obtain ⟨f, h₁, rest, run₁, hlength, built₁⟩ :=
    built.young (k := 32) (by decide) (by decide) ((by decide : Layout.align 32 ≤ 80).trans fits) (h.rootShape .function)
  obtain ⟨x, y, z, rfl⟩ := List.length_eq_three.mp (Nat.succ.inj hlength)
  obtain ⟨st, h₂, run₂, built₂⟩ := built₁.store (show 8 * (8 + 2) ≤ size from fits)
  obtain ⟨h₃, run₃, built₃⟩ := built₂.write (.raw [h.rootShape .function, st, y, z]) (i := 1) (j := 1) (v := st) rfl
    (by simp [Cell.words]) rfl
  obtain ⟨h₄, run₄, built₄⟩ := built₃.write (.raw [h.rootShape .function, st, code, z]) (i := 1) (j := 2) (v := code) rfl
    (by simp [Cell.words]) rfl
  obtain ⟨h₅, run₅, built₅⟩ := built₄.write (.object (h.rootShape .function) st [code, instances]) (i := 1) (j := 3)
    (v := instances) rfl (by simp [Cell.words]) rfl
  refine ⟨f, st, h₅, ?_, built₅⟩
  unfold allocBareFunction
  refine (State.get_bind _).trans ?_
  rw [built.kept.rootShape]
  exact (State.bind_of_ok run₁).trans ((State.bind_of_ok run₂).trans ((State.bind_of_ok run₃).trans
    ((State.bind_of_ok run₄).trans ((State.bind_of_ok run₅).trans rfl))))

end Built

/-- The cells of a new function. -/
structure FunctionParts where
  function : Word
  store : Word
  /-- Shape of functions with a prototype. -/
  shape : Word
  /-- Shape of the instances. -/
  instances : Word
  proto : Word
  protoStore : Word

def FunctionParts.listed (h : Heap) (key code : Word) (a : FunctionParts) : List (Word × Cell) :=
  sprout h key a.shape ++ ([(a.function, .object a.shape a.store [code, a.instances]),
    (a.store, .store (key :: a.proto :: List.replicate 6 h.hole)), (a.instances, .shape .transition a.proto),
    (a.proto, .object (h.rootShape .object) a.protoStore []),
    (a.protoStore, .store (List.replicate 8 h.hole))] : List (Word × Cell))

/-- A function that is complete but for its prototype, which is there already, gets it. -/
theorem Built.complete (typed : Typed h T) {p pst code : Word}
    (built : Built h T 80 (n + 2) bytes h.transitions [(p, .object (h.rootShape .object) pst []),
      (pst, .store (List.replicate 8 h.hole)), (f, .object (h.rootShape .function) st [code, h.rootShape .object]),
      (st, .store (List.replicate 8 h.hole))] h') (hkey : T key = some (.text "prototype")) :
    ∃ (a : FunctionParts) (h'' : Heap), a.function = f ∧ setProperty f key p h' = .ok () h'' ∧
      (∀ c, h.transitions.child? (h.rootShape .function) key = some c → a.shape = c) ∧
      Built h T 80 n bytes (sprouted h key a.shape) (a.listed h key code) h'' := by
  obtain ⟨child, h₁, run₁, known, built₁⟩ := built.setPrototype typed (i := 2) (j := 3) rfl rfl hkey p
  have hf := List.mem_append_right (sprout h key child) (List.mem_of_getElem? (i := 2) (l := [
    (p, Cell.object (h.rootShape .object) pst []), (pst, .store (List.replicate 8 h.hole)),
    (f, .object child st [code, h.rootShape .object]), (st, .store (key :: p :: List.replicate 6 h.hole))]) rfl)
  have hp := List.mem_append_right (sprout h key child) (List.mem_of_getElem? (i := 0) (l := [
    (p, Cell.object (h.rootShape .object) pst []), (pst, .store (List.replicate 8 h.hole)),
    (f, .object child st [code, h.rootShape .object]), (st, .store (key :: p :: List.replicate 6 h.hole))]) rfl)
  have hne : h.null ≠ p := by
    obtain ⟨T', -, gains⟩ := built₁.tables
    obtain ⟨_, hnull⟩ := typed.null
    rintro rfl
    have hcell := gains.holds _ hp
    rw [gains.sub hnull] at hcell
    cases hcell
  have hrefresh := built₁.refresh_eq typed hf (fun T' gains => sprout_cell typed gains known) hp
    (fun T' gains => gains.sub (typed.rootCell .object))
  rw [if_pos hne] at hrefresh
  obtain ⟨instances, h₂, run₂, built₂⟩ := built₁.shape .transition p
  obtain ⟨h₃, run₃, built₃⟩ := Built.writeBehind ((instances, .shape .transition p) :: sprout h key child)
    (.object child st [code, instances]) built₂ (i := 2) (j := 3) (v := instances) rfl (by simp [Cell.words]) rfl
  refine ⟨⟨f, st, child, instances, p, pst⟩, h₃, rfl, ?_, known, built₃.perm ?_⟩
  · rw [run₁, hrefresh, State.bind_of_ok run₂]
    exact run₃
  · refine List.perm_middle.symm.trans (.append_left _ ?_)
    have hswap : ∀ x y z u v : Word × Cell, ([x, y, z] ++ [u, v]).Perm ([u, v] ++ [x, y, z]) := fun _ _ _ _ _ =>
      List.perm_append_comm
    exact hswap _ _ _ _ _

end Heap
end ScriptEngine
