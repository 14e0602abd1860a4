import Mathlib.Data.List.Find
import Mathlib.Data.Option.Basic
import ScriptEngine.Proofs.Heap.Contents

/-!
What the heap reads from its cells: shapes and their flags, storage and its items.
-/

namespace ScriptEngine.Heap

variable {h : Heap} {T : Contents} {w s st : Word} {c : Cell} {words rest : List Word}
  {flags : ShapeFlags} {proto : Word}

theorem isSmi_of_cell (laid : Laid h T) (hw : T w = some c) : w.isSmi = false := by
  rw [laid.pointer hw]
  exact Word.isSmi_pointer _

theorem toSmi?_of_cell (laid : Laid h T) (hw : T w = some c) : w.toSmi? = none := by
  simp [Word.toSmi?, isSmi_of_cell laid hw]

theorem shapeOf?_of_cell (laid : Laid h T) (hw : T w = some c)
    (head : (c.words h.rootShape)[0]? = some s) : h.shapeOf? w = some s := by
  have hread : h.read w Layout.shape = s := laid.read (i := 0) hw head
  simp [shapeOf?, isSmi_of_cell laid hw, hread]

theorem shapeOf?_object (laid : Laid h T) (hw : T w = some (.object s st rest)) :
    h.shapeOf? w = some s := shapeOf?_of_cell laid hw rfl

theorem storeOf_object (laid : Laid h T) (hw : T w = some (.object s st rest)) :
    h.storeOf w = st := laid.read (i := 1) hw rfl

theorem shapeFlags_shape (laid : Laid h T) (hw : T w = some (.shape flags proto))
    (small : flags.bits < 2 ^ 62) : h.shapeFlags w = flags := by
  have hread : h.read w Layout.Shape.flags = .smi flags.bits := laid.read (i := 1) hw rfl
  have hsmi : (Word.smi flags.bits).toSmi? = some (flags.bits : Int) := by
    apply Word.toSmi?_smi
    · unfold Word.smiMin
      omega
    · unfold Word.smiMax
      omega
  unfold shapeFlags
  rw [hread, hsmi]
  obtain ⟨bits⟩ := flags
  simp only at small ⊢
  congr 1
  omega

theorem shapeProto_shape (laid : Laid h T) (hw : T w = some (.shape flags proto)) :
    h.shapeProto w = proto := laid.read (i := 2) hw rfl

/-- The text of a string is read back. -/
theorem text?_text (laid : Laid h T) {text : String} (hw : T w = some (.text text)) :
    h.text? w = some text := by
  have hroot : h.hasRootShape w .string = true := by
    unfold hasRootShape
    rw [shapeOf?_of_cell laid hw rfl, beq_self_eq_true]
  have hsmall := laid.small hw
  have haligned := laid.aligned hw
  have hlength : (Word.smi text.utf8ByteSize).toSmi? = some (text.utf8ByteSize : Int) := by
    have hcount : text.toUTF8.data.toList.length = text.utf8ByteSize := Array.length_toList
    simp only [Cell.size, Cell.words, List.length_cons, Memory.length_packWords, hcount,
      Page.refusedSize] at hsmall
    apply Word.toSmi?_smi
    · unfold Word.smiMin
      omega
    · unfold Word.smiMax
      omega
  have hread : h.read w Layout.Text.length = .smi text.utf8ByteSize := laid.read (i := 1) hw rfl
  have hwords := laid.contents hw
  simp only [Cell.words, List.length_cons, Memory.wordsAt_succ, List.cons.injEq] at hwords
  have hdata : (w.address + Layout.Text.data) % 8 = 0 := by
    simp only [Layout.Text.data]
    omega
  have hbytes := Memory.loadBytes_of_wordsAt text.toUTF8 hdata hwords.2.2
  have hsize : (text.utf8ByteSize : Int).toNat = text.toUTF8.size := rfl
  unfold text?
  simp only [hroot, hread, hlength, guard, if_true, Option.pure_def, Option.bind_eq_bind,
    Option.bind_some]
  rw [hsize, hbytes]
  exact Memory.fromUTF8?_toUTF8 text

theorem length_of_store (laid : Laid h T) (hw : T w = some (.store words)) :
    words.length + 2 < 2 ^ 59 := by
  have hsmall := laid.small hw
  simp only [Cell.size, Cell.words, List.length_cons, Page.refusedSize] at hsmall
  omega

theorem storeLength_store (laid : Laid h T) (hw : T w = some (.store words)) :
    h.storeLength w = words.length := by
  have hread : h.read w Layout.Store.length = .smi words.length := laid.read (i := 1) hw rfl
  have hlength := length_of_store laid hw
  have hsmi : (Word.smi words.length).toSmi? = some (words.length : Int) := by
    apply Word.toSmi?_smi
    · unfold Word.smiMin
      omega
    · unfold Word.smiMax
      omega
  unfold storeLength
  rw [hread, hsmi]
  rfl

theorem itemCount_store (laid : Laid h T) (hw : T w = some (.store words)) :
    h.itemCount w = words.length / 2 := by
  unfold itemCount
  rw [storeLength_store laid hw]
  rfl

theorem read_store (laid : Laid h T) (hw : T w = some (.store words)) {i : Nat} {v : Word}
    (hi : words[i]? = some v) : h.read w (Layout.Store.items + 8 * i) = v := by
  have hoffset : Layout.Store.items + 8 * i = 8 * (i + 2) := by
    unfold Layout.Store.items
    omega
  rw [hoffset]
  exact laid.read hw hi

theorem itemKey_store (laid : Laid h T) (hw : T w = some (.store words)) {i : Nat} {v : Word}
    (hi : words[2 * i]? = some v) : h.itemKey w i = v := by
  have hoffset : i * Layout.Item.bytes = 8 * (2 * i) := by
    unfold Layout.Item.bytes
    omega
  unfold itemKey
  rw [hoffset]
  exact read_store laid hw hi

/-- Looking for a key is a search of the even places of the storage. -/
theorem findKey?_store (laid : Laid h T) (hw : T w = some (.store words)) (key : Word) :
    h.findKey? w key =
      (List.range (words.length / 2)).find? fun i => words[2 * i]? == some key := by
  unfold findKey?
  rw [itemCount_store laid hw]
  apply List.find?_congr
  intro i hi
  have hin : 2 * i < words.length := by
    have hlt := List.mem_range.mp hi
    omega
  have hfound : words[2 * i]? = some words[2 * i] := List.getElem?_eq_getElem hin
  rw [itemKey_store laid hw hfound, hfound]
  rfl

end ScriptEngine.Heap
