import ScriptEngine.Proofs.Heap.Contents

/-!
Operations that make new cells: objects with their storage, functions, strings, numbers and code.
Each adds to the table and leaves what was there as it was.
-/

namespace ScriptEngine.Heap

variable {h h' : Heap} {T : Contents} {w : Word}

/-- A table with an object and its storage in it. -/
def withObject (T : Contents) (object shape store : Word) (words rest : List Word) : Contents :=
  Function.update (Function.update T object (some (.object shape store rest))) store
    (some (.store words))

/-- Words from the young space become an object, once its storage is there. -/
theorem object_ok (laid : Laid h T) {shape : Word} {words : Nat} (small : words < 2 ^ 60)
    (run : (do
      let object ← allocYoung shape Layout.Object.size
      let store ← allocStore words
      write object Layout.Object.store store
      return object : HeapM Word) h = .ok w h') :
    ∃ store, T w = none ∧ T store = none ∧ w ≠ store ∧ Quiet h h' ∧
      Laid h' (withObject T w shape store (List.replicate words h.hole) []) := by
  simp only [State.bind_eq_ok, State.pure_eq_ok] at run
  obtain ⟨object, h₁, allocated, store, h₂, stored, _, h₃, linked, rfl, rfl⟩ := run
  obtain ⟨rest, hlength, hnone, hlaid₁, hquiet₁⟩ :=
    allocYoung_ok laid (by decide) (by decide) allocated
  obtain ⟨x, rfl⟩ : ∃ x, rest = [x] := by
    apply List.length_eq_one_iff.mp
    have hsize : (Layout.Object.size + 7) / 8 = 2 := by decide
    omega
  obtain ⟨hfree, hlaid₂, hquiet₂⟩ := allocStore_ok hlaid₁ small stored
  have hne : object ≠ store := by
    rintro rfl
    rw [Function.update_self] at hfree
    cases hfree
  rw [Function.update_of_ne hne.symm] at hfree
  have hobject : Function.update (Function.update T object (some (.raw [shape, x]))) store
      (some (.store (List.replicate words h₁.hole))) object = some (.raw [shape, x]) := by
    rw [Function.update_of_ne hne, Function.update_self]
  obtain ⟨hlaid₃, hquiet₃⟩ := write_ok (n := .object shape store []) (i := 1) hlaid₂ hobject
    (by simp [Cell.words]) rfl linked
  rw [Function.update_comm hne, Function.update_idem, Function.update_comm hne.symm,
    hquiet₁.hole] at hlaid₃
  exact ⟨store, hnone, hfree, hne, (hquiet₁.trans hquiet₂).trans hquiet₃, hlaid₃⟩

theorem allocObject_ok (laid : Laid h T) {shape : Word} (run : allocObject shape h = .ok w h') :
    ∃ store, T w = none ∧ T store = none ∧ w ≠ store ∧ Quiet h h' ∧
      Laid h' (withObject T w shape store (List.replicate 8 h.hole) []) :=
  object_ok laid (by decide) run

theorem newArray_ok (laid : Laid h T) {length : Nat} (small : length < 2 ^ 60)
    (run : newArray length h = .ok w h') :
    ∃ store, T w = none ∧ T store = none ∧ w ≠ store ∧ Quiet h h' ∧
      Laid h' (withObject T w (h.rootShape .array) store (List.replicate length h.hole) []) := by
  unfold newArray at run
  obtain ⟨_, _, hget, run⟩ := State.bind_eq_ok.mp run
  obtain ⟨rfl, rfl⟩ := State.get_eq_ok.mp hget
  exact object_ok laid small run

theorem allocBareFunction_ok (laid : Laid h T) {code instances : Word}
    (run : allocBareFunction code instances h = .ok w h') :
    ∃ store, T w = none ∧ T store = none ∧ w ≠ store ∧ Quiet h h' ∧
      Laid h' (withObject T w (h.rootShape .function) store (List.replicate 8 h.hole)
        [code, instances]) := by
  simp only [allocBareFunction, State.bind_eq_ok, State.get_eq_ok, State.pure_eq_ok] at run
  obtain ⟨_, _, ⟨rfl, rfl⟩, function, h₁, allocated, store, h₂, stored, _, h₃, linked, _, h₄, coded,
    _, h₅, shaped, rfl, rfl⟩ := run
  obtain ⟨rest, hlength, hnone, hlaid₁, hquiet₁⟩ :=
    allocYoung_ok laid (by decide) (by decide) allocated
  obtain ⟨x, y, z, rfl⟩ : ∃ x y z, rest = [x, y, z] := by
    apply List.length_eq_three.mp
    have hsize : (Layout.Function.size + 7) / 8 = 4 := by decide
    omega
  obtain ⟨hfree, hlaid₂, hquiet₂⟩ := allocStore_ok hlaid₁ (by decide) stored
  have hne : function ≠ store := by
    rintro rfl
    rw [Function.update_self] at hfree
    cases hfree
  rw [Function.update_of_ne hne.symm] at hfree
  rw [Function.update_comm hne] at hlaid₂
  obtain ⟨hlaid₃, hquiet₃⟩ := write_ok (n := .raw [h.rootShape .function, store, y, z]) (i := 1)
    hlaid₂ (Function.update_self ..) (by simp [Cell.words]) rfl linked
  obtain ⟨hlaid₄, hquiet₄⟩ := write_ok (n := .raw [h.rootShape .function, store, code, z]) (i := 2)
    hlaid₃ (Function.update_self ..) (by simp [Cell.words]) rfl coded
  obtain ⟨hlaid₅, hquiet₅⟩ := write_ok
    (n := .object (h.rootShape .function) store [code, instances]) (i := 3)
    hlaid₄ (Function.update_self ..) (by simp [Cell.words]) rfl shaped
  simp only [Function.update_idem] at hlaid₅
  rw [Function.update_comm hne.symm, hquiet₁.hole] at hlaid₅
  exact ⟨store, hnone, hfree, hne,
    (((hquiet₁.trans hquiet₂).trans hquiet₃).trans hquiet₄).trans hquiet₅, hlaid₅⟩

/-- Cells that no operation on objects looks into. -/
theorem leaf_ok (laid : Laid h T) {kind : RootShape} {rest : List Word}
    (hw : T w = some (.raw (h.rootShape kind :: rest))) :
    Laid h (Function.update T w (some (.leaf kind rest))) :=
  laid.revise (m := h.memory) hw rfl (fun _ _ _ => rfl) (laid.contents hw)

/-- The only string with a text, which may be new. -/
theorem string_ok (laid : Laid h T) {text : String} (small : text.utf8ByteSize < 2 ^ 63)
    (run : string text h = .ok w h') :
    (h.strings[text]? = some w ∧ h = h') ∨
      h.strings[text]? = none ∧ T w = none ∧ Kept h h' ∧ h'.transitions = h.transitions ∧
        h'.strings = h.strings.insert text w ∧
        Laid h' (Function.update T w (some (.text text))) := by
  simp only [string, State.bind_eq_ok, State.get_eq_ok] at run
  obtain ⟨_, _, ⟨rfl, rfl⟩, run⟩ := run
  cases hfound : h.strings[text]? with
  | some value =>
    simp only [hfound, State.pure_eq_ok] at run
    obtain ⟨rfl, rfl⟩ := run
    exact .inl ⟨rfl, rfl⟩
  | none =>
    simp only [hfound, State.bind_eq_ok, State.get_eq_ok, State.modify_eq_ok, root,
      State.pure_eq_ok] at run
    obtain ⟨_, _, ⟨rfl, rfl⟩, value, h₁, allocated, _, h₂, sized, _, _, rfl, _, _, rfl, _, _, rfl,
      rfl, rfl⟩ := run
    have hbytes : text.toUTF8.size = text.utf8ByteSize := rfl
    have hcount : text.toUTF8.data.toList.length = text.utf8ByteSize := Array.length_toList
    obtain ⟨rest, hlength, hnone, hlaid₁, hquiet₁⟩ :=
      allocOld_ok laid (by simp only [Layout.Text.data]; omega) (by simp only [Layout.Text.data]; omega)
        allocated
    simp only [Layout.Text.data] at hlength
    obtain ⟨x, rest, rfl⟩ := List.exists_cons_of_length_pos (l := rest) (by omega)
    have hrest : rest.length = (Memory.packWords text.toUTF8.data.toList).length := by
      rw [Memory.length_packWords, hcount]
      rw [List.length_cons] at hlength
      omega
    obtain ⟨hlaid₂, hquiet₂⟩ := write_ok
      (n := .raw (h.rootShape .string :: .smi text.toUTF8.size :: rest)) (i := 1)
      hlaid₁ (Function.update_self ..) (by simp [Cell.words]) rfl sized
    rw [Function.update_idem] at hlaid₂
    have hquiet := hquiet₁.trans hquiet₂
    have hcell := Function.update_self value
      (some (Cell.raw (h.rootShape .string :: .smi text.toUTF8.size :: rest))) T
    have haligned := hlaid₂.aligned hcell
    have hfirst : h₂.memory.load (value.address + 8 * 0) = h.rootShape .string :=
      hlaid₂.read hcell rfl
    have hsecond : h₂.memory.load (value.address + 8 * 1) = .smi text.toUTF8.size :=
      hlaid₂.read hcell rfl
    have hkept : ∀ x, x % 8 = 0 → x < value.address + 16 ∨ value.address + 16 + 8 * rest.length ≤ x →
        (h₂.memory.storeBytes (value.address + Layout.Text.data) text.toUTF8.data.toList).load x =
          h₂.memory.load x := by
      intro x hx hout
      rw [hrest, Memory.length_packWords] at hout
      apply Memory.load_storeBytes_outside _ _ (by simp only [Layout.Text.data]; omega) hx
      simp only [Layout.Text.data]
      omega
    -- Bytes are written behind the first two words, which stay as they are.
    have hdone := hlaid₂.revise (n := .text text)
      (m := h₂.memory.storeBytes (value.address + Layout.Text.data) text.toUTF8.data.toList) hcell
      (by simp [Cell.words, hrest]) ?_ ?_
    · rw [Function.update_idem] at hdone
      exact .inr ⟨rfl, hnone, hquiet.toKept.trans ⟨rfl, rfl, rfl, rfl, rfl, rfl⟩,
        hquiet.transitions, congrArg (·.insert text value) hquiet.strings,
        hdone.congr rfl rfl rfl rfl rfl rfl⟩
    · intro x hx hout
      simp only [Cell.size, Cell.words, List.length_cons] at hout
      exact hkept x hx (by omega)
    · have hhead := hkept value.address haligned (.inl (by omega))
      have hsize := hkept (value.address + 8) (by omega) (.inl (by omega))
      simp only [Nat.mul_zero, Nat.add_zero, Nat.mul_one] at hfirst hsecond
      simp only [Cell.words, List.length_cons, hquiet.rootShape]
      rw [Memory.wordsAt_succ, Memory.wordsAt_succ, hhead, hfirst, hsize, hsecond]
      congr 2
      have hdata : (value.address + Layout.Text.data) % 8 = 0 := by
        simp only [Layout.Text.data]
        omega
      rw [hrest]
      exact Memory.wordsAt_storeBytes h₂.memory _ hdata

theorem isSmi_of_smiOfDouble? {n : Double} (found : smiOfDouble? n = some w) : w.isSmi = true := by
  unfold smiOfDouble? Word.ofSmi? at found
  split_ifs at found
  cases found
  exact Word.smi_isSmi _

theorem number_ok (laid : Laid h T) {n : Double} (run : number n h = .ok w h') :
    (w.isSmi = true ∧ h = h') ∨
      T w = none ∧ Quiet h h' ∧ Laid h' (Function.update T w (some (.leaf .number [⟨n.bits⟩]))) := by
  unfold number at run
  cases hsmi : smiOfDouble? n with
  | some value =>
    simp only [hsmi, State.pure_eq_ok] at run
    obtain ⟨rfl, rfl⟩ := run
    exact .inl ⟨isSmi_of_smiOfDouble? hsmi, rfl⟩
  | none =>
    simp only [hsmi, State.bind_eq_ok, State.get_eq_ok, State.pure_eq_ok] at run
    obtain ⟨_, _, ⟨rfl, rfl⟩, value, h₁, allocated, _, h₂, written, rfl, rfl⟩ := run
    obtain ⟨rest, hlength, hnone, hlaid₁, hquiet₁⟩ :=
      allocYoung_ok laid (by decide) (by decide) allocated
    obtain ⟨x, rfl⟩ : ∃ x, rest = [x] := by
      apply List.length_eq_one_iff.mp
      have hsize : (Layout.Boxed.size + 7) / 8 = 2 := by decide
      omega
    obtain ⟨hlaid₂, hquiet₂⟩ := write_ok (n := .raw [h.rootShape .number, ⟨n.bits⟩]) (i := 1) hlaid₁
      (Function.update_self ..) (by simp [Cell.words]) rfl written
    have hquiet := hquiet₁.trans hquiet₂
    rw [← hquiet.rootShape] at hlaid₂
    have hdone := leaf_ok hlaid₂ (Function.update_self ..)
    simp only [Function.update_idem] at hdone
    exact .inr ⟨hnone, hquiet, hdone⟩

theorem allocCode_ok (laid : Laid h T) {entry length : Nat} {record : CodeRecord}
    (run : allocCode entry length record h = .ok w h') :
    T w = none ∧ Quiet h h' ∧ Laid h' (Function.update T w
      (some (.leaf .code [.ofNat entry, .smi length, .smi h.codeRecords.size]))) := by
  simp only [allocCode, State.bind_eq_ok, State.get_eq_ok, State.modify_eq_ok, root,
    State.pure_eq_ok] at run
  obtain ⟨_, _, ⟨rfl, rfl⟩, code, h₁, allocated, _, _, ⟨rfl, rfl⟩, _, _, rfl, _, h₂, entered, _, h₃, sized,
    _, h₄, recorded, _, _, rfl, rfl, rfl⟩ := run
  obtain ⟨rest, hlength, hnone, hlaid₁, hquiet₁⟩ :=
    allocOld_ok laid (by decide) (by decide) allocated
  have hrecords := allocOld_codeRecords allocated
  obtain ⟨x, y, z, rfl⟩ : ∃ x y z, rest = [x, y, z] := by
    apply List.length_eq_three.mp
    have hsize : (Layout.Code.size + 7) / 8 = 4 := by decide
    omega
  have hlisted : Laid { h₁ with codeRecords := h₁.codeRecords.push record }
      (Function.update T code (some (.raw [h.rootShape .code, x, y, z]))) :=
    hlaid₁.congr rfl rfl rfl rfl rfl rfl
  obtain ⟨hlaid₂, hquiet₂⟩ := write_ok (n := .raw [h.rootShape .code, .ofNat entry, y, z]) (i := 1)
    hlisted (Function.update_self ..) (by simp [Cell.words]) rfl entered
  obtain ⟨hlaid₃, hquiet₃⟩ := write_ok
    (n := .raw [h.rootShape .code, .ofNat entry, .smi length, z]) (i := 2)
    hlaid₂ (Function.update_self ..) (by simp [Cell.words]) rfl sized
  obtain ⟨hlaid₄, hquiet₄⟩ := write_ok
    (n := .raw [h.rootShape .code, .ofNat entry, .smi length, .smi h₁.codeRecords.size]) (i := 3)
    hlaid₃ (Function.update_self ..) (by simp [Cell.words]) rfl recorded
  have hwritten := (hquiet₂.trans hquiet₃).trans hquiet₄
  have hquiet : Quiet h h₄ := hquiet₁.trans ⟨⟨hwritten.rootShapes, hwritten.undefined, hwritten.null,
    hwritten.hole, hwritten.trueValue, hwritten.falseValue⟩, hwritten.strings, hwritten.transitions⟩
  rw [← hquiet.rootShape] at hlaid₄
  have hdone := leaf_ok hlaid₄ (Function.update_self ..)
  simp only [Function.update_idem, hrecords] at hdone
  exact ⟨hnone, hquiet.trans ⟨⟨rfl, rfl, rfl, rfl, rfl, rfl⟩, rfl, rfl⟩,
    hdone.congr rfl rfl rfl rfl rfl rfl⟩

end ScriptEngine.Heap
