import ScriptEngine.Proofs.Heap.History
import ScriptEngine.Proofs.Heap.Typing

/-!
Objects on the transition tree. Their storage starts with the keys on the path to their shape, and
its room depends on the number of keys alone. An operation on one object leaves all others, and
what is known of them, as they were.
-/

namespace ScriptEngine.Heap

open Function (update)

variable {h h' : Heap} {T T' : Contents} {past past' : Past} {o s st origin hole key : Word}
  {keys words rest : List Word}

/-! ### Storage -/

/-- Keys stand in the first items of the storage, in order; later items hold neither a key nor a
value. -/
structure Filled (hole : Word) (keys words : List Word) : Prop where
  even : words.length % 2 = 0
  room : 2 * keys.length ≤ words.length
  key : ∀ {i k}, keys[i]? = some k → words[2 * i]? = some k
  free : ∀ {i}, keys.length ≤ i → 2 * i < words.length → words[2 * i]? = some hole
  blank : ∀ {i}, keys.length ≤ i → 2 * i + 1 < words.length → words[2 * i + 1]? = some hole

/-- Items that an object has room for after so many keys were added. -/
def capacity : Nat → Nat
  | 0 => Layout.Object.minItems
  | n + 1 => if n < capacity n then capacity n else max (capacity n * 2) Layout.Object.minItems

namespace Filled

theorem replicate (hole : Word) (n : Nat) : Filled hole [] (List.replicate (2 * n) hole) := by
  refine ⟨by simp, by simp, by simp, ?_, ?_⟩
  · intro i _ hi
    rw [List.length_replicate] at hi
    rw [List.getElem?_replicate, if_pos hi]
  · intro i _ hi
    rw [List.length_replicate] at hi
    rw [List.getElem?_replicate, if_pos hi]

theorem append (filled : Filled hole keys words) {n : Nat} (even : n % 2 = 0) :
    Filled hole keys (words ++ List.replicate n hole) := by
  have heven := filled.even
  have hroom := filled.room
  refine ⟨?_, ?_, ?_, ?_, ?_⟩
  · rw [List.length_append, List.length_replicate]
    omega
  · rw [List.length_append]
    omega
  · intro i k hk
    have hfound := filled.key hk
    obtain ⟨hi, -⟩ := List.getElem?_eq_some_iff.mp hfound
    rw [List.getElem?_append_left hi, hfound]
  · intro i hi hlt
    rw [List.length_append, List.length_replicate] at hlt
    by_cases hin : 2 * i < words.length
    · rw [List.getElem?_append_left hin]
      exact filled.free hi hin
    · rw [List.getElem?_append_right (by omega), List.getElem?_replicate, if_pos (by omega)]
  · intro i hi hlt
    rw [List.length_append, List.length_replicate] at hlt
    by_cases hin : 2 * i + 1 < words.length
    · rw [List.getElem?_append_left hin]
      exact filled.blank hi hin
    · rw [List.getElem?_append_right (by omega), List.getElem?_replicate, if_pos (by omega)]

/-- An item that is not free holds a key. -/
theorem lt_of_used (filled : Filled hole keys words) {i : Nat} (hi : 2 * i < words.length)
    (used : words[2 * i]? ≠ some hole) : i < keys.length := by
  by_contra hbeyond
  exact used (filled.free (Nat.not_lt.mp hbeyond) hi)

/-- Values stand at the odd places. -/
theorem setValue (filled : Filled hole keys words) {i : Nat} (hi : i < keys.length) (v : Word) :
    Filled hole keys (words.set (2 * i + 1) v) := by
  refine ⟨?_, ?_, ?_, ?_, ?_⟩
  · rw [List.length_set]
    exact filled.even
  · rw [List.length_set]
    exact filled.room
  · intro j k hk
    rw [List.getElem?_set_ne (by omega)]
    exact filled.key hk
  · intro j hj hlt
    rw [List.length_set] at hlt
    rw [List.getElem?_set_ne (by omega)]
    exact filled.free hj hlt
  · intro j hj hlt
    rw [List.length_set] at hlt
    rw [List.getElem?_set_ne (by omega)]
    exact filled.blank hj hlt

theorem setKey (filled : Filled hole keys words) (key : Word) (room : 2 * keys.length < words.length) :
    Filled hole (keys ++ [key]) (words.set (2 * keys.length) key) := by
  have heven := filled.even
  refine ⟨?_, ?_, ?_, ?_, ?_⟩
  · rw [List.length_set]
    exact heven
  · rw [List.length_set, List.length_append, List.length_singleton]
    omega
  · intro j k hk
    by_cases hj : j < keys.length
    · rw [List.getElem?_append_left hj] at hk
      rw [List.getElem?_set_ne (by omega)]
      exact filled.key hk
    · have hlt : j < (keys ++ [key]).length := (List.getElem?_eq_some_iff.mp hk).1
      rw [List.length_append, List.length_singleton] at hlt
      obtain rfl : j = keys.length := by omega
      rw [List.getElem?_concat_length] at hk
      rw [List.getElem?_set_self room]
      exact hk
  · intro j hj hlt
    rw [List.length_append, List.length_singleton] at hj
    rw [List.length_set] at hlt
    rw [List.getElem?_set_ne (by omega)]
    exact filled.free (by omega) hlt
  · intro j hj hlt
    rw [List.length_append, List.length_singleton] at hj
    rw [List.length_set] at hlt
    rw [List.getElem?_set_ne (by omega)]
    exact filled.blank (by omega) hlt

/-- The keys and the length decide what a search finds. -/
theorem find?_eq {words' : List Word} (filled : Filled hole keys words)
    (filled' : Filled hole keys words') (length : words.length = words'.length) (key : Word) :
    ((List.range (words.length / 2)).find? fun i => words[2 * i]? == some key) =
      (List.range (words'.length / 2)).find? fun i => words'[2 * i]? == some key := by
  rw [length]
  apply List.find?_congr
  intro i hi
  have hlt := List.mem_range.mp hi
  have hsame : words[2 * i]? = words'[2 * i]? := by
    by_cases hin : i < keys.length
    · have hk := List.getElem?_eq_getElem hin
      rw [filled.key hk, filled'.key hk]
    · rw [filled.free (by omega) (by omega), filled'.free (by omega) (by omega)]
  rw [hsame]

/-- The first free item is the one behind the keys. -/
theorem find?_hole (filled : Filled hole keys words) (proper : hole ∉ keys) :
    ((List.range (words.length / 2)).find? fun i => words[2 * i]? == some hole) =
      if 2 * keys.length < words.length then some keys.length else none := by
  have heven := filled.even
  -- No key is the hole, so the search passes over all of them.
  have hkeys : ∀ i, i < keys.length → (words[2 * i]? == some hole) = false := by
    intro i hi
    have hk := List.getElem?_eq_getElem hi
    rw [filled.key hk]
    simp only [beq_eq_false_iff_ne, ne_eq, Option.some.injEq]
    rintro rfl
    exact proper (List.getElem_mem hi)
  split
  · rename_i hroom
    rw [List.find?_range_eq_some, filled.free le_rfl hroom]
    refine ⟨beq_self_eq_true _, List.mem_range.mpr (by omega), fun j hj => ?_⟩
    rw [hkeys j hj]
    rfl
  · rw [List.find?_range_eq_none]
    intro i hi
    rw [hkeys i (by omega)]
    rfl

end Filled

/-! ### Objects -/

/-- The path of an object on the transition tree, and what its storage owes to it. -/
structure Tracks (h : Heap) (T : Contents) (origin : Word) (keys : List Word) (s : Word)
    (words : List Word) : Prop where
  root : ∃ flags proto, T origin = some (.shape flags proto)
  count : h.transitions.keyCount origin = 0
  path : h.transitions.Path origin keys s
  filled : Filled h.hole keys words
  length : words.length = 2 * capacity keys.length
  distinct : keys.Nodup
  interned : ∀ key ∈ keys, ∃ text : String, h.strings[text]? = some key
  few : keys.length ≤ maxFastProperties

/-- What two states of the heap have in common, apart from the objects in `X`. -/
structure Frame (X : Word → Prop) (h h' : Heap) (T T' : Contents) : Prop where
  kept : Kept h h'
  strings : ∀ {text : String} {w}, h.strings[text]? = some w → h'.strings[text]? = some w
  paths : ∀ {origin keys s}, h.transitions.Path origin keys s → h'.transitions.Path origin keys s
  shapes : ∀ {s flags proto}, T s = some (.shape flags proto) → T' s = some (.shape flags proto)
  counts : ∀ {s flags proto}, T s = some (.shape flags proto) →
    h'.transitions.keyCount s = h.transitions.keyCount s
  leaves : ∀ {w kind rest}, T w = some (.leaf kind rest) → T' w = some (.leaf kind rest)
  texts : ∀ {w text}, T w = some (.text text) → T' w = some (.text text)
  objects : ∀ {o s st rest}, T o = some (.object s st rest) →
    ∃ s' st' rest', T' o = some (.object s' st' rest')
  same : ∀ {o s st rest}, ¬X o → T' o = some (.object s st rest) → T o = some (.object s st rest) ∧
    ∀ {words}, T st = some (.store words) → T' st = some (.store words)

namespace Frame

theorem refl (h : Heap) (T : Contents) (X : Word → Prop) : Frame X h h T T :=
  ⟨Kept.refl h, id, id, id, fun _ => rfl, id, id, fun ho => ⟨_, _, _, ho⟩, fun _ ho => ⟨ho, id⟩⟩

theorem trans {X : Word → Prop} {h'' : Heap} {T'' : Contents} (first : Frame X h h' T T')
    (second : Frame X h' h'' T' T'') : Frame X h h'' T T'' where
  kept := first.kept.trans second.kept
  strings := fun hw => second.strings (first.strings hw)
  paths := fun hp => second.paths (first.paths hp)
  shapes := fun hs => second.shapes (first.shapes hs)
  counts := fun hs => (second.counts (first.shapes hs)).trans (first.counts hs)
  leaves := fun hw => second.leaves (first.leaves hw)
  texts := fun hw => second.texts (first.texts hw)
  objects := fun ho => by
    obtain ⟨s', st', rest', ho'⟩ := first.objects ho
    exact second.objects ho'
  same := fun hx ho => by
    obtain ⟨ho', hstore'⟩ := second.same hx ho
    obtain ⟨ho'', hstore⟩ := first.same hx ho'
    exact ⟨ho'', fun hst => hstore' (hstore hst)⟩

theorem mono {X Y : Word → Prop} (frame : Frame X h h' T T') (le : ∀ w, X w → Y w) :
    Frame Y h h' T T' :=
  { frame with same := fun hy ho => frame.same (fun hx => hy (le _ hx)) ho }

theorem isValue {X : Word → Prop} (frame : Frame X h h' T T') {w : Word} (value : IsValue T w) :
    IsValue T' w := by
  rcases value with hsmi | ⟨kind, rest, hleaf⟩ | ⟨text, htext⟩ | ⟨s, st, rest, ho⟩
  · exact .inl hsmi
  · exact .inr (.inl ⟨kind, rest, frame.leaves hleaf⟩)
  · exact .inr (.inr (.inl ⟨text, frame.texts htext⟩))
  · exact .inr (.inr (.inr (frame.objects ho)))

end Frame

theorem Tracks.frame {X : Word → Prop} (tracks : Tracks h T origin keys s words)
    (frame : Frame X h h' T T') : Tracks h' T' origin keys s words := by
  obtain ⟨flags, proto, hroot⟩ := tracks.root
  refine ⟨⟨flags, proto, frame.shapes hroot⟩, ?_, frame.paths tracks.path, ?_, tracks.length,
    tracks.distinct, ?_, tracks.few⟩
  · rw [frame.counts hroot]
    exact tracks.count
  · rw [frame.kept.hole]
    exact tracks.filled
  · intro key hkey
    obtain ⟨text, htext⟩ := tracks.interned key hkey
    exact ⟨text, frame.strings htext⟩

/-- Every object on the tree, apart from those in `X`, is where its past says. -/
structure Tracked (X : Word → Prop) (h : Heap) (T : Contents) (past : Past) : Prop where
  tracks : ∀ {o s st rest flags proto words}, ¬X o → T o = some (.object s st rest) →
    T s = some (.shape flags proto) → T st = some (.store words) →
    flags.contains .transition = true →
    ∃ origin, past.origin o = some origin ∧ Tracks h T origin (past.added o) s words

/-- No object is left out. -/
def Nobody : Word → Prop := fun _ => False

/-- What was known of objects outside the frame is still known. -/
theorem Tracked.frame {X : Word → Prop} (tracked : Tracked Nobody h T past) (typed : Typed h T)
    (frame : Frame X h h' T T')
    (same : ∀ o, ¬X o → past'.origin o = past.origin o ∧ past'.added o = past.added o) :
    Tracked X h' T' past' := by
  constructor
  intro o s st rest flags proto words hout ho hs hst htransition
  obtain ⟨hold, hstore⟩ := frame.same hout ho
  obtain ⟨flags', proto', words', formed⟩ := typed.formed hold
  have hs' := frame.shapes formed.shape
  have hst' := hstore formed.store
  rw [hs] at hs'
  rw [hst] at hst'
  cases hs'
  cases hst'
  obtain ⟨origin, horigin, tracks⟩ := tracked.tracks id hold formed.shape formed.store htransition
  rw [(same o hout).1, (same o hout).2]
  exact ⟨origin, horigin, tracks.frame frame⟩

/-- The object that was left out is accounted for again. -/
theorem Tracked.close (tracked : Tracked (· = o) h T past)
    (own : ∀ {s st rest flags proto words}, T o = some (.object s st rest) →
      T s = some (.shape flags proto) → T st = some (.store words) →
      flags.contains .transition = true →
      ∃ origin, past.origin o = some origin ∧ Tracks h T origin (past.added o) s words) :
    Tracked Nobody h T past := by
  constructor
  intro o' s st rest flags proto words _ ho hs hst htransition
  by_cases hoo : o' = o
  · subst hoo
    exact own ho hs hst htransition
  · exact tracked.tracks hoo ho hs hst htransition

/-- An object that keeps its shape stays where it was. -/
theorem Tracked.keep {st' : Word} {rest' words' : List Word} {flags : ShapeFlags} {proto : Word}
    (tracked : Tracked Nobody h T past) (typed : Typed h T) (frame : Frame (· = o) h h' T T')
    (ho : T o = some (.object s st rest)) (hs : T s = some (.shape flags proto))
    (hst : T st = some (.store words)) (ho' : T' o = some (.object s st' rest'))
    (hst' : T' st' = some (.store words'))
    (filled : ∀ {keys}, Filled h.hole keys words → Filled h.hole keys words')
    (length : words'.length = words.length) : Tracked Nobody h' T' past := by
  refine (tracked.frame typed frame fun _ _ => ⟨rfl, rfl⟩).close ?_
  intro s₂ st₂ rest₂ flags₂ proto₂ words₂ ho₂ hs₂ hst₂ hon
  rw [ho'] at ho₂
  cases ho₂
  rw [frame.shapes hs] at hs₂
  rw [hst'] at hst₂
  cases hs₂
  cases hst₂
  obtain ⟨origin, horigin, tracks⟩ := tracked.tracks id ho hs hst hon
  have htracks := tracks.frame frame
  refine ⟨origin, horigin, { htracks with filled := ?_, length := ?_ }⟩
  · rw [frame.kept.hole]
    exact filled tracks.filled
  · rw [length]
    exact tracks.length

/-- An object off the tree owes nothing to its past. -/
theorem Tracked.leave {s' st' : Word} {rest' : List Word} {flags' : ShapeFlags}
    {proto' : Word} (tracked : Tracked Nobody h T past) (typed : Typed h T)
    (frame : Frame (· = o) h h' T T') (ho' : T' o = some (.object s' st' rest'))
    (hs' : T' s' = some (.shape flags' proto')) (hoff : flags'.contains .transition = false) :
    Tracked Nobody h' T' past := by
  refine (tracked.frame typed frame fun _ _ => ⟨rfl, rfl⟩).close ?_
  intro s₂ st₂ rest₂ flags₂ proto₂ words₂ ho₂ hs₂ hst₂ hon
  rw [ho'] at ho₂
  cases ho₂
  rw [hs'] at hs₂
  cases hs₂
  rw [hoff] at hon
  cases hon

end ScriptEngine.Heap
