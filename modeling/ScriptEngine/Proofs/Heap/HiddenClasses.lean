import ScriptEngine.Proofs.Heap.Start

/-!
Hidden classes. The shape of an object on the transition tree says which keys the object has and
where they are: objects share a shape exactly if they started alike and got the same keys in the same
order. An object that left the tree has a shape that nothing else refers to.
-/

namespace ScriptEngine

namespace Heap

variable {h : Heap} {T : Contents} {past : Past} {o o' shape : Word}

/-- The cells behind an object. -/
theorem Sound.cells (sound : Sound h T past) (born : past.origin o ≠ none)
    (hshape : h.shapeOf? o = some shape) :
    ∃ st rest proto words, T o = some (.object shape st rest) ∧
      Formed h T shape st rest (h.shapeFlags shape) proto words := by
  obtain ⟨s, st, rest, ho⟩ := sound.born.mpr born
  obtain ⟨flags, proto, words, formed⟩ := sound.typed.formed ho
  rw [shapeOf?_object sound.typed.laid ho] at hshape
  cases hshape
  have hflags := sound.typed.shapeFlags_eq formed.shape
  exact ⟨st, rest, proto, words, ho, hflags ▸ formed⟩

/-- The cells behind an object on the tree, and what its past says of them. -/
theorem Sound.onTree (sound : Sound h T past) (born : past.origin o ≠ none)
    (hshape : h.shapeOf? o = some shape)
    (hon : (h.shapeFlags shape).contains .transition = true) :
    ∃ st rest flags proto words root, T o = some (.object shape st rest) ∧
      T shape = some (.shape flags proto) ∧ T st = some (.store words) ∧
      flags.contains .dense = false ∧ past.origin o = some root ∧
      Tracks h T root (past.added o) shape words := by
  obtain ⟨st, rest, proto, words, ho, formed⟩ := sound.cells born hshape
  obtain ⟨root, horigin, tracks⟩ := sound.tracked.tracks id ho formed.shape formed.store hon
  have hdense : (h.shapeFlags shape).contains .dense = false := by
    by_contra hdense
    rw [transition_of_dense formed.flags_mem (by simpa using hdense)] at hon
    cases hon
  exact ⟨st, rest, _, proto, words, root, ho, formed.shape, formed.store, hdense, horigin, tracks⟩

theorem Sound.slots (sound : Sound h T past) (born : past.origin o ≠ none)
    (born' : past.origin o' ≠ none)
    (hshape : h.shapeOf? o = some shape) (hshape' : h.shapeOf? o' = some shape)
    (hon : (h.shapeFlags shape).contains .transition = true) (key : Word) :
    h.ownSlot? o key = h.ownSlot? o' key ∧ ∀ slot, h.ownSlot? o key = some slot →
      slot < h.itemCount (h.storeOf o) ∧ slot < h.itemCount (h.storeOf o') := by
  obtain ⟨st, rest, flags, proto, words, root, ho, hs, hst, hdense, horigin, tracks⟩ :=
    sound.onTree born hshape hon
  obtain ⟨st', rest', flags', proto', words', root', ho', hs', hst', hdense', horigin', tracks'⟩ :=
    sound.onTree born' hshape' hon
  -- The keys are those of the shape, and the room depends on their number alone.
  obtain ⟨rfl, hkeys⟩ :=
    tracks.path.source_eq sound.typed.tree tracks.count tracks'.count tracks'.path
  rw [← hkeys] at tracks'
  have hlength : words.length = words'.length := tracks.length.trans tracks'.length.symm
  rw [ownSlot?_keyed sound.typed ho hs hst hdense, ownSlot?_keyed sound.typed ho' hs' hst' hdense',
    storeOf_object sound.typed.laid ho, storeOf_object sound.typed.laid ho',
    itemCount_store sound.typed.laid hst, itemCount_store sound.typed.laid hst', ← hlength]
  refine ⟨?_, fun slot hslot => ?_⟩
  · rw [tracks.filled.find?_eq tracks'.filled hlength, hlength]
  · have hlt := List.mem_range.mp (List.find?_range_eq_some.mp hslot).2.1
    exact ⟨hlt, hlt⟩

end Heap
end ScriptEngine
