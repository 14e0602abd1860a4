import ScriptEngine.Proofs.Heap.Invariant

/-!
The heap at the start. Root shapes are made before there is a shape of shapes and before there is
`null`, so their words are laid out first and become shapes once all of them are there.
-/

namespace ScriptEngine.Heap

open Function (update)

variable {h h' : Heap} {T T' : Contents} {kinds : List RootShape} {kind : RootShape} {w : Word}
  {u : Unit}

/-! ### Empty spaces -/

/-- A space without pages. -/
structure Blank (s : Space) : Prop where
  slack : s.pageSlack ≤ 2 ^ 62
  pages : s.pages = #[]
  current : s.current = none
  cursor : s.cursor = {}

theorem Blank.syncedPages {s : Space} (blank : Blank s) : s.syncedPages = #[] := by
  unfold Space.syncedPages
  rw [blank.current, blank.pages]

theorem Blank.sound {s : Space} (blank : Blank s) (next : Nat) : s.Sound next := by
  refine ⟨blank.slack, ?_, ?_, ?_, fun _ => blank.cursor⟩
  · intro i p hp
    simp [blank.syncedPages] at hp
  · intro i j p q hp
    simp [blank.syncedPages] at hp
  · intro i hi
    rw [blank.current] at hi
    cases hi

theorem Blank.not_owns {s : Space} (blank : Blank s) (x : Nat) : ¬s.Owns x := by
  rintro ⟨i, p, hp, -⟩
  simp [blank.syncedPages] at hp

/-! ### Root shapes -/

/-- Root shapes of these kinds were made, and nothing else. -/
structure Rooted (h : Heap) (T : Contents) (kinds : List RootShape) : Prop where
  laid : Laid h T
  size : h.rootShapes.size = kinds.length
  cell : ∀ {i kind w}, kinds[i]? = some kind → h.rootShapes[i]? = some w →
    ∃ first, T w = some (.raw [first, .smi kind.flags.bits, default]) ∧
      (0 < i → first = h.rootShape .map)
  distinct : ∀ {i j : Nat} {w}, h.rootShapes[i]? = some w → h.rootShapes[j]? = some w → i = j
  only : ∀ {w c}, T w = some c → (∃ words, c = .raw words) ∧ ∃ i : Nat, h.rootShapes[i]? = some w
  strings : h.strings = ∅
  transitions : h.transitions = {}

theorem rooted_empty {young old shapes : Space} (blankYoung : Blank young) (blankOld : Blank old)
    (blankShapes : Blank shapes) : Rooted { young, old, shapes } (fun _ => none) [] where
  laid := by
    have haligned : 2 ^ 46 % 8 = 0 := by decide
    refine ⟨⟨blankYoung.sound _, blankOld.sound _, blankShapes.sound _, haligned, fun x => ?_⟩, nofun,
      nofun, nofun, nofun, nofun, nofun, nofun, nofun⟩
    have hyoung := blankYoung.not_owns x
    have hold := blankOld.not_owns x
    have hshapes := blankShapes.not_owns x
    exact ⟨fun hx => hyoung hx.1, fun hx => hold hx.1, fun hx => hshapes hx.1⟩
  size := rfl
  cell := nofun
  distinct := by
    intro i j w hi
    simp at hi
  only := nofun
  strings := rfl
  transitions := rfl

theorem allocRoot_ok (rooted : Rooted h T kinds) (run : allocRoot kind h = .ok u h') :
    ∃ T', Rooted h' T' (kinds ++ [kind]) := by
  simp only [allocRoot, State.bind_eq_ok, State.modify_eq_ok] at run
  obtain ⟨shape, h₁, allocated, rfl⟩ := run
  obtain ⟨hnone, hlaid, hquiet⟩ := allocShape_ok rooted.laid allocated
  have hroots := hquiet.rootShapes
  have hsize := rooted.size
  -- The first root shape stays the first one.
  have hfirst : 0 < kinds.length →
      { h₁ with rootShapes := h₁.rootShapes.push shape }.rootShape .map = h.rootShape .map := by
    intro hpositive
    unfold rootShape
    have hindex : RootShape.index .map = 0 := rfl
    simp only [hroots, hindex, Array.getD_eq_getD_getElem?]
    rw [Array.getElem?_push_lt (by omega), ← Array.getElem?_eq_getElem]
  have hfresh : ∀ {i : Nat}, h.rootShapes[i]? ≠ some shape := by
    intro i hi
    have hlt : i < kinds.length := hsize ▸ (Array.getElem?_eq_some_iff.mp hi).1
    obtain ⟨first, hcell, -⟩ := rooted.cell (List.getElem?_eq_getElem hlt) hi
    exact ne_of_none hnone hcell rfl
  have hcases : ∀ {i : Nat} {w}, (h₁.rootShapes.push shape)[i]? = some w →
      i < kinds.length ∧ h.rootShapes[i]? = some w ∨ i = kinds.length ∧ w = shape := by
    intro i w hi
    rw [hroots, Array.getElem?_push, hsize] at hi
    split at hi
    · cases hi
      exact .inr ⟨by omega, rfl⟩
    · have hlt := (Array.getElem?_eq_some_iff.mp hi).1
      exact .inl ⟨by omega, hi⟩
  refine ⟨update T shape (some (.raw [h.rootShape .map, .smi kind.flags.bits, default])), ?_, ?_, ?_, ?_,
    ?_, ?_, ?_⟩
  · refine hlaid.recast rfl rfl rfl rfl rfl ?_
    intro w c hw
    by_cases hws : w = shape
    · subst hws
      rw [Function.update_self] at hw
      cases hw
      refine ⟨_, Function.update_self .., ?_⟩
      simp only [Cell.words, hquiet.rootShape]
    · rw [Function.update_of_ne hws] at hw
      obtain ⟨⟨words, rfl⟩, -⟩ := rooted.only hw
      exact ⟨_, by rw [Function.update_of_ne hws, hw], rfl⟩
  · simp [hroots, hsize]
  · intro i kind' w hkind hi
    rcases hcases hi with ⟨hlt, hold⟩ | ⟨rfl, rfl⟩
    · rw [List.getElem?_append_left hlt] at hkind
      obtain ⟨first, hcell, hmap⟩ := rooted.cell hkind hold
      refine ⟨first, update_of_none hnone hcell, fun hi => ?_⟩
      rw [hfirst (by omega)]
      exact hmap hi
    · rw [List.getElem?_concat_length] at hkind
      cases hkind
      exact ⟨_, Function.update_self .., fun hi => (hfirst hi).symm⟩
  · intro i j w hi hj
    rcases hcases hi with ⟨-, hold⟩ | ⟨rfl, rfl⟩ <;> rcases hcases hj with ⟨-, hold'⟩ | ⟨rfl, hw⟩
    · exact rooted.distinct hold hold'
    · subst hw
      exact absurd hold hfresh
    · exact absurd hold' hfresh
    · rfl
  · intro w c hw
    by_cases hws : w = shape
    · subst hws
      rw [Function.update_self] at hw
      cases hw
      refine ⟨⟨_, rfl⟩, h₁.rootShapes.size, ?_⟩
      exact Array.getElem?_push_size
    · rw [Function.update_of_ne hws] at hw
      obtain ⟨hraw, i, hi⟩ := rooted.only hw
      refine ⟨hraw, i, ?_⟩
      have hlt := (Array.getElem?_eq_some_iff.mp hi).1
      simp only [hroots]
      rw [Array.getElem?_push_lt hlt, ← hi]
      exact (Array.getElem?_eq_getElem hlt).symm
  · exact hquiet.strings.trans rooted.strings
  · exact hquiet.transitions.trans rooted.transitions

theorem allocRoots_ok (more : List RootShape) (rooted : Rooted h T kinds)
    (run : more.forM allocRoot h = .ok u h') : ∃ T', Rooted h' T' (kinds ++ more) := by
  induction more generalizing h T kinds with
  | nil =>
    obtain ⟨-, rfl⟩ := State.pure_eq_ok.mp run
    exact ⟨T, by rwa [List.append_nil]⟩
  | cons kind more ih =>
    obtain ⟨h₁, made, rest⟩ := State.forM_cons_eq_ok.mp run
    obtain ⟨T₁, rooted₁⟩ := allocRoot_ok rooted made
    obtain ⟨T', rooted'⟩ := ih rooted₁ rest
    exact ⟨T', by rwa [List.append_assoc, List.singleton_append] at rooted'⟩

theorem getElem?_all (kind : RootShape) : RootShape.all[kind.index]? = some kind := by
  cases kind <;> rfl

/-- A table with the root shapes alone. -/
def rootTable (h : Heap) (proto : Word) : Contents := fun w =>
  (RootShape.all.find? fun kind => h.rootShape kind = w).map fun kind => .shape kind.flags proto

theorem rootTable_eq_some {proto : Word} {c : Cell} (hw : h.rootTable proto w = some c) :
    ∃ kind, h.rootShape kind = w ∧ c = .shape kind.flags proto := by
  obtain ⟨kind, hfound, rfl⟩ := Option.map_eq_some_iff.mp hw
  exact ⟨kind, by simpa using List.find?_some hfound, rfl⟩

namespace Rooted

theorem getElem?_rootShape (rooted : Rooted h T RootShape.all) (kind : RootShape) :
    h.rootShapes[kind.index]? = some (h.rootShape kind) := by
  have hlt : kind.index < RootShape.all.length := (List.getElem?_eq_some_iff.mp (getElem?_all kind)).1
  rw [← rooted.size] at hlt
  rw [rootShape, Array.getD_eq_getD_getElem?, Array.getElem?_eq_getElem hlt, Option.getD_some]

theorem rootShape_inj (rooted : Rooted h T RootShape.all) {kind' : RootShape}
    (same : h.rootShape kind = h.rootShape kind') : kind = kind' := by
  have hfound := rooted.getElem?_rootShape kind
  rw [same] at hfound
  have hindex := rooted.distinct hfound (rooted.getElem?_rootShape kind')
  have hkind := getElem?_all kind
  rw [hindex, getElem?_all kind'] at hkind
  exact (Option.some.inj hkind).symm

theorem rootShape_of_mem (rooted : Rooted h T RootShape.all) (mem : w ∈ h.rootShapes.toList) :
    ∃ kind, h.rootShape kind = w := by
  obtain ⟨i, hlt, rfl⟩ := List.getElem_of_mem mem
  have hlength : h.rootShapes.toList.length = RootShape.all.length := rooted.size
  have hall : ∀ i < RootShape.all.length, ∃ kind ∈ RootShape.all, kind.index = i := by decide
  obtain ⟨kind, -, rfl⟩ := hall i (hlength ▸ hlt)
  have hfound := rooted.getElem?_rootShape kind
  rw [← Array.getElem?_toList, List.getElem?_eq_getElem hlt] at hfound
  exact ⟨kind, (Option.some.inj hfound).symm⟩

/-- The first root shape becomes its own shape, and the words of all of them are shapes. -/
theorem patch_ok (rooted : Rooted h T RootShape.all)
    (run : write (h.rootShape .map) Layout.shape (h.rootShape .map) h = .ok u h') :
    Laid h' (h'.rootTable default) ∧ Quiet h h' := by
  obtain ⟨first, hcell, -⟩ := rooted.cell (getElem?_all .map) (rooted.getElem?_rootShape .map)
  obtain ⟨hlaid, hquiet⟩ := write_ok
    (n := .raw [h.rootShape .map, .smi (RootShape.flags .map).bits, default]) (i := 0)
    rooted.laid hcell (by simp [Cell.words]) rfl run
  refine ⟨hlaid.recast rfl rfl rfl rfl rfl ?_, hquiet⟩
  intro w c hw
  obtain ⟨kind, rfl, rfl⟩ := rootTable_eq_some hw
  rw [hquiet.rootShape]
  by_cases hkind : kind = .map
  · subst hkind
    exact ⟨_, Function.update_self .., rfl⟩
  · have hne : h.rootShape kind ≠ h.rootShape .map := fun hroot => hkind (rooted.rootShape_inj hroot)
    obtain ⟨first', hcell', hmap⟩ := rooted.cell (getElem?_all kind) (rooted.getElem?_rootShape kind)
    refine ⟨_, by rw [Function.update_of_ne hne, hcell'], ?_⟩
    have hlater : 0 < kind.index := by
      cases kind with
      | map => exact absurd rfl hkind
      | _ => decide
    rw [hmap hlater]
    rfl

theorem rootTable_root (rooted : Rooted h T RootShape.all) (proto : Word) (kind : RootShape) :
    h.rootTable proto (h.rootShape kind) = some (.shape kind.flags proto) := by
  have hmem : kind ∈ RootShape.all := List.mem_of_getElem? (getElem?_all kind)
  cases hfound : RootShape.all.find? fun kind' => h.rootShape kind' = h.rootShape kind with
  | none =>
    rw [List.find?_eq_none] at hfound
    exact absurd (decide_eq_true rfl) (hfound kind hmem)
  | some kind' =>
    have hsame : h.rootShape kind' = h.rootShape kind := by simpa using List.find?_some hfound
    obtain rfl := rooted.rootShape_inj hsame
    unfold rootTable
    rw [hfound]
    rfl

end Rooted

/-! ### Oddballs -/

/-- A table with more leaves. -/
structure Sprouted (T T' : Contents) : Prop where
  keep : ∀ {w c}, T w = some c → T' w = some c
  only : ∀ {w c}, T' w = some c → T w = some c ∨
    ∃ kind ∈ leafKinds, ∃ rest, c = .leaf kind rest ∧ rest.length = leafWords kind

theorem Sprouted.trans {T'' : Contents} (first : Sprouted T T') (second : Sprouted T' T'') :
    Sprouted T T'' where
  keep := fun hw => second.keep (first.keep hw)
  only := fun hw => (second.only hw).elim first.only .inr

theorem allocOddball_ok (laid : Laid h T) {n : Int} (member : kind ∈ [.oddball, .boolean])
    (run : allocOddball kind n h = .ok w h') :
    ∃ T', Laid h' T' ∧ Quiet h h' ∧ Sprouted T T' ∧ T w = none ∧
      ∃ rest, T' w = some (.leaf kind rest) := by
  simp only [allocOddball, State.bind_eq_ok, State.get_eq_ok, State.pure_eq_ok] at run
  obtain ⟨_, _, ⟨rfl, rfl⟩, value, h₁, allocated, _, h₂, numbered, rfl, rfl⟩ := run
  obtain ⟨rest, hlength, hnone, hlaid₁, hquiet₁⟩ :=
    allocOld_ok laid (by decide) (by decide) allocated
  obtain ⟨x, rfl⟩ : ∃ x, rest = [x] := by
    apply List.length_eq_one_iff.mp
    have hsize : (Layout.Oddball.size + 7) / 8 = 2 := by decide
    omega
  obtain ⟨hlaid₂, hquiet₂⟩ := write_ok (n := .raw [h.rootShape kind, .smi n]) (i := 1) hlaid₁
    (Function.update_self ..) (by simp [Cell.words]) rfl numbered
  have hquiet := hquiet₁.trans hquiet₂
  rw [← hquiet.rootShape] at hlaid₂
  have hdone := leaf_ok hlaid₂ (Function.update_self ..)
  simp only [Function.update_idem] at hdone
  have hkind : kind ∈ leafKinds ∧ [Word.smi n].length = leafWords kind := by
    simp only [List.mem_cons, List.not_mem_nil, or_false] at member
    rcases member with rfl | rfl <;> exact ⟨by decide, rfl⟩
  refine ⟨_, hdone, hquiet, ⟨fun hw => update_of_none hnone hw, ?_⟩, hnone, _, Function.update_self ..⟩
  intro v c hv
  by_cases hvw : v = value
  · subst hvw
    rw [Function.update_self] at hv
    cases hv
    exact .inr ⟨kind, hkind.1, _, rfl, hkind.2⟩
  · rw [Function.update_of_ne hvw] at hv
    exact .inl hv

/-- Every listed shape gets a prototype. -/
theorem setProtos_ok {null : Word} (shapes : List Word) (laid : Laid h T)
    (shaped : ∀ w ∈ shapes, ∃ flags proto, T w = some (.shape flags proto))
    (run : shapes.forM (write · Layout.Shape.proto null) h = .ok u h') :
    ∃ T', Laid h' T' ∧ Quiet h h' ∧ (∀ w, w ∉ shapes → T' w = T w) ∧
      ∀ {w flags proto}, w ∈ shapes → T w = some (.shape flags proto) →
        T' w = some (.shape flags null) := by
  induction shapes generalizing h T with
  | nil =>
    obtain ⟨-, rfl⟩ := State.pure_eq_ok.mp run
    exact ⟨T, laid, Quiet.refl h, fun _ _ => rfl, nofun⟩
  | cons shape shapes ih =>
    obtain ⟨h₁, written, rest⟩ := State.forM_cons_eq_ok.mp run
    obtain ⟨flags, proto, hshape⟩ := shaped shape List.mem_cons_self
    obtain ⟨hlaid₁, hquiet₁⟩ := write_ok (n := .shape flags null) (i := 2) laid hshape
      (by simp [Cell.words]) rfl written
    have hshaped : ∀ w ∈ shapes, ∃ flags' proto',
        update T shape (some (.shape flags null)) w = some (.shape flags' proto') := by
      intro w hw
      by_cases hws : w = shape
      · subst hws
        exact ⟨_, _, Function.update_self ..⟩
      · obtain ⟨flags', proto', hcell⟩ := shaped w (List.mem_cons_of_mem _ hw)
        exact ⟨flags', proto', by rw [Function.update_of_ne hws, hcell]⟩
    obtain ⟨T', hlaid', hquiet', hout, hin⟩ := ih hlaid₁ hshaped rest
    refine ⟨T', hlaid', hquiet₁.trans hquiet', ?_, ?_⟩
    · intro w hw
      rw [List.mem_cons, not_or] at hw
      rw [hout w hw.2, Function.update_of_ne hw.1]
    · intro w flags' proto' hw hcell
      by_cases hws : w = shape
      · subst hws
        rw [hshape] at hcell
        cases hcell
        by_cases hagain : w ∈ shapes
        · exact hin hagain (Function.update_self ..)
        · rw [hout w hagain, Function.update_self]
      · have hlater := (List.mem_cons.mp hw).resolve_left hws
        exact hin hlater (by rw [Function.update_of_ne hws, hcell])

/-! ### The whole start -/

/-- A heap of root shapes and oddballs. -/
theorem typed_of_start (laid : Laid h T)
    (root : ∀ kind, T (h.rootShape kind) = some (.shape kind.flags h.null))
    (inj : ∀ {kind kind'}, h.rootShape kind = h.rootShape kind' → kind = kind')
    (only : ∀ {w c}, T w = some c → (∃ kind : RootShape, c = .shape kind.flags h.null) ∨
      ∃ kind ∈ leafKinds, ∃ rest, c = .leaf kind rest ∧ rest.length = leafWords kind)
    (null : ∃ rest, T h.null = some (.leaf .oddball rest))
    (hole : ∃ rest, T h.hole = some (.leaf .oddball rest)) (oddballs : Oddballs h T)
    (strings : h.strings = ∅) (transitions : h.transitions = {}) : Typed h T := by
  have hobject : ∀ {o s st rest}, T o ≠ some (.object s st rest) := by
    intro o s st rest ho
    rcases only ho with ⟨kind, hc⟩ | ⟨kind, -, rest', hc, -⟩ <;> cases hc
  have hedge : ∀ {s key child}, h.transitions.child? s key ≠ some child := by
    intro s key child hchild
    simp [transitions, Transitions.child?] at hchild
  constructor
  · exact laid
  · intro w words hw
    rcases only hw with ⟨kind, hc⟩ | ⟨kind, -, rest, hc, -⟩ <;> cases hc
  · exact root
  · exact inj
  · exact null
  · exact hole
  · intro w kind rest hw
    rcases only hw with ⟨kind', hc⟩ | ⟨kind', hmem, rest', hc, -⟩
    · cases hc
    · cases hc
      exact hmem
  · intro text w
    constructor
    · intro hfound
      simp [strings] at hfound
    · intro hw
      rcases only hw with ⟨kind, hc⟩ | ⟨kind, -, rest, hc, -⟩ <;> cases hc
  · intro s flags proto hs
    rcases only hs with ⟨kind, hc⟩ | ⟨kind, -, rest, hc, -⟩
    · cases hc
      cases kind <;> decide
    · cases hc
  · exact fun ho => absurd ho hobject
  · exact fun ho => absurd ho hobject
  · exact fun ho => absurd ho hobject
  · exact fun hchild => absurd hchild hedge
  · rw [transitions]
    exact Transitions.tree_empty
  · intro kind
    rw [transitions]
    simp [Transitions.keyCount]
  · intro w kind rest hw
    rcases only hw with ⟨kind', hc⟩ | ⟨kind', -, rest', hc, hlength⟩
    · cases hc
    · cases hc
      exact hlength
  · exact oddballs

theorem bootstrap_ok (rooted : Rooted h T []) (run : bootstrap h = .ok u h') :
    ∃ T', Typed h' T' ∧ (∀ {o s st rest}, T' o ≠ some (.object s st rest)) ∧
      ∀ w ∈ [h'.undefined, h'.null, h'.hole, h'.trueValue, h'.falseValue], IsValue T' w := by
  simp only [bootstrap, State.bind_eq_ok, State.get_eq_ok, State.modify_eq_ok] at run
  obtain ⟨_, h₁, made, _, _, ⟨rfl, rfl⟩, _, h₂, patched, undefined, h₃, run₃, null, h₄, run₄, hole, h₅,
    run₅, trueValue, h₆, run₆, falseValue, h₇, run₇, _, _, rfl, _, _, ⟨rfl, rfl⟩, run⟩ := run
  obtain ⟨T₁, rooted₁⟩ := allocRoots_ok RootShape.all rooted made
  obtain ⟨hlaid₂, hquiet₂⟩ := rooted₁.patch_ok patched
  obtain ⟨T₃, hlaid₃, hquiet₃, sprouted₃, hfresh₃, rest₃, hundefined⟩ := allocOddball_ok hlaid₂ (by decide) run₃
  obtain ⟨T₄, hlaid₄, hquiet₄, sprouted₄, hfresh₄, rest₄, hnull⟩ := allocOddball_ok hlaid₃ (by decide) run₄
  obtain ⟨T₅, hlaid₅, hquiet₅, sprouted₅, hfresh₅, rest₅, hhole⟩ := allocOddball_ok hlaid₄ (by decide) run₅
  obtain ⟨T₆, hlaid₆, hquiet₆, sprouted₆, hfresh₆, rest₆, htrue⟩ := allocOddball_ok hlaid₅ (by decide) run₆
  obtain ⟨T₇, hlaid₇, hquiet₇, sprouted₇, hfresh₇, rest₇, hfalse⟩ := allocOddball_ok hlaid₆ (by decide) run₇
  have sprouted := (((sprouted₃.trans sprouted₄).trans sprouted₅).trans sprouted₆).trans sprouted₇
  have hquiet := ((((hquiet₂.trans hquiet₃).trans hquiet₄).trans hquiet₅).trans hquiet₆).trans hquiet₇
  have hroots : h₇.rootShape = h₁.rootShape := hquiet.rootShape
  have hroot : ∀ kind, T₇ (h₁.rootShape kind) = some (.shape kind.flags default) := by
    intro kind
    have htable : h₂.rootTable default = h₁.rootTable default := by
      unfold rootTable
      rw [hquiet₂.rootShape]
    apply sprouted.keep
    rw [htable]
    exact rooted₁.rootTable_root default kind
  have hlisted : ∀ kind, h₁.rootShape kind ∈ h₇.rootShapes.toList := by
    intro kind
    rw [hquiet.rootShapes]
    apply List.mem_of_getElem? (i := kind.index)
    rw [Array.getElem?_toList]
    exact rooted₁.getElem?_rootShape kind
  have hlist : ∀ w ∈ h₇.rootShapes.toList, ∃ kind, h₁.rootShape kind = w := by
    intro w hw
    rw [hquiet.rootShapes] at hw
    exact rooted₁.rootShape_of_mem hw
  have hlaid₈ : Laid { h₇ with undefined, null, hole, trueValue, falseValue } T₇ :=
    hlaid₇.congr rfl rfl rfl rfl rfl rfl
  have hshaped : ∀ w ∈ h₇.rootShapes.toList, ∃ flags proto, T₇ w = some (.shape flags proto) := by
    intro w hw
    obtain ⟨kind, rfl⟩ := hlist w hw
    exact ⟨_, _, hroot kind⟩
  obtain ⟨T', hlaid', hquiet', hout, hin⟩ := setProtos_ok h₇.rootShapes.toList hlaid₈ hshaped run
  have hroots' : h'.rootShape = h₁.rootShape := hquiet'.rootShape.trans hroots
  have hleaf : ∀ {w kind rest}, T₇ w = some (.leaf kind rest) → T' w = some (.leaf kind rest) := by
    intro w kind rest hw
    rw [hout w, hw]
    intro hmem
    obtain ⟨kind', rfl⟩ := hlist w hmem
    rw [hroot kind'] at hw
    cases hw
  have honly : ∀ {w c}, T' w = some c → (∃ kind : RootShape, c = .shape kind.flags h'.null) ∨
      ∃ kind ∈ leafKinds, ∃ rest, c = .leaf kind rest ∧ rest.length = leafWords kind := by
    intro w c hw
    by_cases hmem : w ∈ h₇.rootShapes.toList
    · obtain ⟨kind, rfl⟩ := hlist w hmem
      rw [hin hmem (hroot kind)] at hw
      cases hw
      exact .inl ⟨kind, by rw [hquiet'.null]⟩
    · rw [hout w hmem] at hw
      rcases sprouted.only hw with hold | hleaf
      · obtain ⟨kind, rfl, -⟩ := rootTable_eq_some hold
        rw [hquiet₂.rootShape] at hmem
        exact absurd (hlisted kind) hmem
      · exact .inr hleaf
  have hhole' := hleaf (sprouted₇.keep (sprouted₆.keep hhole))
  have hnull' := hleaf (sprouted₇.keep (sprouted₆.keep (sprouted₅.keep hnull)))
  have htrue' := hleaf (sprouted₇.keep htrue)
  have hundefined' := hleaf
    (sprouted₇.keep (sprouted₆.keep (sprouted₅.keep (sprouted₄.keep hundefined))))
  -- Each was allocated where none of those before it stand.
  have hdistinct : [undefined, null, hole, trueValue, falseValue].Nodup := by
    have h₄ := sprouted₄.keep hundefined
    have h₅ := And.intro (sprouted₅.keep h₄) (sprouted₅.keep hnull)
    have h₆ := And.intro (sprouted₆.keep h₅.1) (And.intro (sprouted₆.keep h₅.2) (sprouted₆.keep hhole))
    simp only [List.nodup_cons, List.mem_cons, List.not_mem_nil, or_false, not_or, not_false_eq_true,
      List.nodup_nil, and_true]
    exact ⟨⟨ne_of_none hfresh₄ hundefined, ne_of_none hfresh₅ h₄, ne_of_none hfresh₆ h₅.1,
      ne_of_none hfresh₇ h₆.1⟩, ⟨ne_of_none hfresh₅ hnull, ne_of_none hfresh₆ h₅.2,
      ne_of_none hfresh₇ h₆.2.1⟩, ⟨ne_of_none hfresh₆ hhole, ne_of_none hfresh₇ h₆.2.2⟩,
      ne_of_none hfresh₇ htrue⟩
  refine ⟨T', typed_of_start hlaid' ?_ ?_ honly ?_ ?_ ?_ ?_ ?_, ?_, ?_⟩
  · intro kind
    rw [hroots', hquiet'.null]
    exact hin (hlisted kind) (hroot kind)
  · rw [hroots']
    exact rooted₁.rootShape_inj
  · rw [hquiet'.null]
    exact ⟨_, hnull'⟩
  · rw [hquiet'.hole]
    exact ⟨_, hhole'⟩
  · constructor
    · rw [hquiet'.undefined]
      exact ⟨_, hundefined'⟩
    · rw [hquiet'.trueValue]
      exact ⟨_, htrue'⟩
    · rw [hquiet'.falseValue]
      exact ⟨_, hleaf hfalse⟩
    · rw [hquiet'.undefined, hquiet'.null, hquiet'.hole, hquiet'.trueValue, hquiet'.falseValue]
      exact hdistinct
  · exact (hquiet'.strings.trans hquiet.strings).trans rooted₁.strings
  · exact (hquiet'.transitions.trans hquiet.transitions).trans rooted₁.transitions
  · intro o s st rest ho
    rcases honly ho with ⟨kind, hc⟩ | ⟨kind, -, rest', hc, -⟩ <;> cases hc
  · rw [hquiet'.undefined, hquiet'.null, hquiet'.hole, hquiet'.trueValue, hquiet'.falseValue]
    intro w hw
    refine .inr (.inl ?_)
    simp only [List.mem_cons, List.not_mem_nil, or_false] at hw
    rcases hw with rfl | rfl | rfl | rfl | rfl
    · exact ⟨_, _, hundefined'⟩
    · exact ⟨_, _, hnull'⟩
    · exact ⟨_, _, hhole'⟩
    · exact ⟨_, _, htrue'⟩
    · exact ⟨_, _, hleaf hfalse⟩

theorem create_sound {config : HeapConfig} (slack : config.pageSlack ≤ 2 ^ 62)
    (created : Heap.create config = .ok h) :
    ∃ T, Sound h T { values := [h.undefined, h.null, h.hole, h.trueValue, h.falseValue] } := by
  unfold create at created
  simp only at created
  split at created
  · rename_i u h' run
    cases created
    have blank : ∀ name size, Blank { name, pageSize := size, pageSlack := config.pageSlack } :=
      fun _ _ => ⟨slack, rfl, rfl, rfl⟩
    have rooted := rooted_empty (blank "young" config.pageSize) (blank "old" config.pageSize)
      (blank "maps" config.shapePageSize)
    obtain ⟨T, typed, hnone, hvalues⟩ := bootstrap_ok rooted run
    have hblank : ∀ {o dense proto words}, ¬HasRecord T o dense proto words := by
      rintro o dense proto words ⟨s, st, rest, flags, ho, -⟩
      exact hnone ho
    refine ⟨T, typed, ⟨?_⟩, fun _ _ _ record => absurd record hblank, ⟨fun _ => 0, fun o => ?_⟩,
      hvalues _, ?_⟩
    · intro o s st rest flags proto words _ ho
      exact absurd ho hnone
    · exact ⟨fun record => absurd record hblank, fun record => absurd record hblank,
        fun record => absurd record hblank, fun ho => absurd ho hnone⟩
    · intro o
      constructor
      · rintro ⟨s, st, rest, ho⟩
        exact absurd ho hnone
      · exact fun hborn => absurd rfl hborn
  · cases created

/-- Whether steps on a new heap succeed and leave what a test asks for. -/
def runsTo {α : Type} (steps : HeapM α) (test : α → Heap → Bool) : Bool :=
  match Heap.create {} with
  | .ok h =>
    match steps h with
    | .ok a h' => test a h'
    | .error _ _ => false
  | .error _ => false

theorem runsTo_eq_true {α : Type} {steps : HeapM α} {test : α → Heap → Bool}
    (runs : runsTo steps test = true) :
    ∃ h a h', Heap.create {} = .ok h ∧ steps h = .ok a h' ∧ test a h' = true := by
  unfold runsTo at runs
  generalize Heap.create {} = made at runs ⊢
  cases made with
  | error e => cases runs
  | ok h =>
    cases hsteps : steps h with
    | error e h' => simp [hsteps] at runs
    | ok a h' => exact ⟨h, a, h', rfl, hsteps, by simpa [hsteps] using runs⟩

/-- Every operation keeps a heap sound, and leaves all objects alone but one and those that it makes. -/
theorem Operates.sound {past past' : Past} (operates : Operates h past h' past')
    (sound : Sound h T past) :
    ∃ T' o, Sound h' T' past' ∧ Frame (Touched T o) h h' T T' := by
  have hnobody : ∀ o v, Nobody v → Touched T o v := fun _ _ => False.elim
  have hone : ∀ o v, v = o → Touched T o v := fun _ _ => .inl
  cases operates with
  | string small run =>
    obtain ⟨T', sound', frame', htext⟩ := string_sound sound small run
    exact ⟨T', default, sound'.give (.inr (.inr (.inl ⟨_, htext⟩))), frame'.mono (hnobody _)⟩
  | number run =>
    obtain ⟨T', sound', frame', -⟩ := number_sound sound run
    exact ⟨T', default, sound', frame'.mono (hnobody _)⟩
  | allocCode run =>
    obtain ⟨T', sound', frame', -⟩ := allocCode_sound sound run
    exact ⟨T', default, sound', frame'.mono (hnobody _)⟩
  | newObject run =>
    obtain ⟨T', sound', frame', -⟩ := newObject_sound sound run
    exact ⟨T', _, sound', frame'.mono (hone _)⟩
  | newGlobal run =>
    obtain ⟨T', sound', frame', -⟩ := newGlobal_sound sound run
    exact ⟨T', _, sound', frame'.mono (hone _)⟩
  | newArray small run =>
    obtain ⟨T', sound', frame', -⟩ := newArray_sound sound small run
    exact ⟨T', _, sound', frame'.mono (hone _)⟩
  | allocBuiltinFunction run =>
    obtain ⟨T', st, sound', frame', -⟩ := allocBuiltinFunction_sound sound run
    exact ⟨T', _, sound', frame'.mono (hone _)⟩
  | allocFunction run =>
    obtain ⟨T', sound', frame', -⟩ := allocFunction_sound sound run
    exact ⟨T', _, sound', frame'⟩
  | allocInstance known found run =>
    obtain ⟨T', proto, sound', frame', -⟩ := allocInstance_sound sound known found run
    exact ⟨T', _, sound', frame'.mono (hone _)⟩
  | setProperty known knownKey knownValue run =>
    obtain ⟨T', sound', frame'⟩ := setProperty_sound sound known knownKey knownValue run
    exact ⟨T', _, sound', frame'.mono (hone _)⟩
  | lookupSlot known knownKey run =>
    obtain ⟨T', sound', frame'⟩ := lookupSlot_sound sound known knownKey run
    exact ⟨T', _, sound', frame'.mono (hone _)⟩
  | deleteProperty known knownKey run =>
    obtain ⟨T', sound', frame'⟩ := deleteProperty_sound sound known knownKey run
    exact ⟨T', _, sound', frame'.mono (hone _)⟩
  | propertyKey known run =>
    obtain ⟨T', sound', frame'⟩ := propertyKey_sound sound known run
    exact ⟨T', default, sound', frame'.mono (hnobody _)⟩
  | getProperty _ known run =>
    obtain ⟨T', typed', frame'⟩ := getProperty_frame sound.typed (sound.isValue known) run
    exact ⟨T', default, sound.frame typed' frame', frame'.mono (hnobody _)⟩
  | instanceOf _ _ run =>
    obtain ⟨T', typed', frame'⟩ := instanceOf_frame sound.typed run
    exact ⟨T', default, sound.frame typed' frame', frame'.mono (hnobody _)⟩
  | scopes =>
    obtain ⟨sound', frame'⟩ := sound.scopes _
    exact ⟨T, default, sound', frame'.mono (hnobody _)⟩

/-- Every heap that operations lead to is sound. -/
theorem Reachable.sound {config : HeapConfig} {past : Past} (reachable : Reachable config h past) :
    ∃ T, Sound h T past := by
  have hstep : ∀ {h h' past past'}, (∃ T, Sound h T past) → Operates h past h' past' →
      ∃ T, Sound h' T past' := by
    rintro h h' past past' ⟨T, sound⟩ operates
    obtain ⟨T', o, sound', -⟩ := operates.sound sound
    exact ⟨T', sound'⟩
  induction reachable with
  | create slack created => exact create_sound slack created
  | string _ small run ih => exact hstep ih (.string small run)
  | number _ run ih => exact hstep ih (.number run)
  | allocCode _ run ih => exact hstep ih (.allocCode run)
  | newObject _ run ih => exact hstep ih (.newObject run)
  | newGlobal _ run ih => exact hstep ih (.newGlobal run)
  | newArray _ small run ih => exact hstep ih (.newArray small run)
  | allocBuiltinFunction _ run ih => exact hstep ih (.allocBuiltinFunction run)
  | allocFunction _ run ih => exact hstep ih (.allocFunction run)
  | allocInstance _ known found run ih => exact hstep ih (.allocInstance known found run)
  | setProperty _ known knownKey knownValue run ih =>
    exact hstep ih (.setProperty known knownKey knownValue run)
  | lookupSlot _ known knownKey run ih => exact hstep ih (.lookupSlot known knownKey run)
  | deleteProperty _ known knownKey run ih => exact hstep ih (.deleteProperty known knownKey run)

end ScriptEngine.Heap
