import Mathlib.Data.List.Perm.Subperm
import ScriptEngine.Proofs.Heap.Start

/-!
Objects are maps from keys to values with a prototype each. An assignment changes one value of one
object, a deletion removes one, and a lookup finds the first object on the prototype chain that has
the key.
-/

namespace ScriptEngine.Heap

variable {h h' h₁ : Heap} {T T' : Contents} {past : Past} {o key own v : Word}
  {dense : Bool} {proto : Word} {words words' : List Word}

/-! ### Lookup along the chain -/

/-- The form of a key for an object, when nothing has to be interned for it. -/
def Normal (h : Heap) (o key own : Word) : Prop := propertyKey o key h = .ok own h

/-- A key leads to a value from an object on: its own value, or else what its prototype leads to.
Behind the last object there is `undefined`. -/
inductive Finds (h : Heap) (key : Word) : Word → Word → Prop where
  | own {o own v : Word} : h.isObject o = true → Normal h o key own → h.own? o own = some v →
      Finds h key o v
  | inherited {o own v : Word} : h.isObject o = true → Normal h o key own → h.own? o own = none →
      Finds h key (h.protoOf o) v → Finds h key o v
  | missing {o : Word} : h.isObject o = false → Finds h key o h.undefined

/-- The ways in which a key gets its form. -/
theorem propertyKey_cases (run : propertyKey o key h = .ok own h') :
    (key.isSmi = true ∧ h.isDense o = true) ∧ own = key ∧ h' = h ∨
      ¬(key.isSmi = true ∧ h.isDense o = true) ∧
        ((h.text? key).isSome ∧ own = key ∧ h' = h ∨
          h.text? key = none ∧ string (h.display key) h = .ok own h') := by
  simp only [propertyKey, State.bind_eq_ok, State.get_eq_ok] at run
  obtain ⟨_, _, ⟨rfl, rfl⟩, run⟩ := run
  split at run
  · rename_i hindex
    obtain ⟨rfl, rfl⟩ := State.pure_eq_ok.mp run
    exact .inl ⟨by simpa using hindex, rfl, rfl⟩
  · rename_i hindex
    refine .inr ⟨by simpa using hindex, ?_⟩
    split at run
    · rename_i htext
      obtain ⟨rfl, rfl⟩ := State.pure_eq_ok.mp run
      exact .inl ⟨htext, rfl, rfl⟩
    · rename_i htext
      exact .inr ⟨by simpa using htext, run⟩

theorem propertyKey_of_index (hsmi : key.isSmi = true) (hdense : h.isDense o = true) :
    Normal h o key key := by
  unfold Normal propertyKey
  rw [State.get_bind]
  simp only [hsmi, hdense, Bool.and_self, if_true]
  rfl

/-- A key in its form stays as it is. -/
theorem IsKey.normal (typed : Typed h T) (isKey : IsKey h o key) : Normal h o key key := by
  rcases isKey with ⟨hsmi, hdense⟩ | ⟨text, htext⟩
  · exact propertyKey_of_index hsmi hdense
  · exact propertyKey_text typed (typed.interned.mp htext)

theorem Normal.ne_hole (typed : Typed h T) (normal : Normal h o key own) : own ≠ h.hole := by
  obtain ⟨rest, hhole⟩ := typed.hole
  rcases propertyKey_cases normal with ⟨hindex, rfl, -⟩ | ⟨-, ⟨htext, rfl, -⟩ | ⟨hnone, hstring⟩⟩
  · exact IsKey.ne_hole typed (.inl hindex)
  · rintro rfl
    have hvalue : IsValue T h.hole := .inr (.inl ⟨_, _, hhole⟩)
    exact ne_hole_of_interned typed (typed.text_of_text? hvalue htext) rfl
  · obtain ⟨T', typed', frame', -, hfound⟩ :=
      string_typed typed (h.utf8ByteSize_display_lt hnone) hstring
    exact ne_hole_of_interned typed' ⟨_, hfound⟩

/-- A key that is no index of the first object has a form for every other. -/
theorem Normal.elsewhere (normal : Normal h o key own)
    (other : ¬(key.isSmi = true ∧ h.isDense o = true)) (o' : Word) : ∃ own', Normal h o' key own' := by
  by_cases hindex : key.isSmi = true ∧ h.isDense o' = true
  · exact ⟨key, propertyKey_of_index hindex.1 hindex.2⟩
  · have hsmi : (key.isSmi && h.isDense o') = false := by
      rw [← Bool.not_eq_true, Bool.and_eq_true]
      exact hindex
    have hsame : propertyKey o' key h = propertyKey o key h := by
      have hsmi' : (key.isSmi && h.isDense o) = false := by
        rw [← Bool.not_eq_true, Bool.and_eq_true]
        exact other
      change (if (key.isSmi && h.isDense o') = true then pure key else _ : HeapM Word) h =
        (if (key.isSmi && h.isDense o) = true then pure key else _ : HeapM Word) h
      rw [hsmi, hsmi']
    exact ⟨own, hsame.trans normal⟩

theorem lookupChain_storeless (storeless : h.isObject o = false) (fuel : Nat) :
    lookupChain key fuel o h = .ok h.undefined h := by
  cases fuel with
  | zero => rfl
  | succ fuel =>
    rw [lookupChain, State.get_bind]
    simp only [storeless, Bool.not_false, if_true]
    rfl

/-- An object answers itself or leaves it to its prototype. -/
theorem lookupChain_object (typed : Typed h T) (hobject : h.isObject o = true)
    (normal : Normal h o key own) (fuel : Nat) :
    lookupChain key (fuel + 1) o h =
      match h.own? o own with
      | some v => .ok v h
      | none => lookupChain key fuel (h.protoOf o) h := by
  have hproper := normal.ne_hole typed
  have hstep : lookupChain key (fuel + 1) o h =
      (match (h.ownSlot? o own).map (h.readSlot o) with
      | some value => if value ≠ h.hole then pure value else lookupChain key fuel (h.protoOf o)
      | none => lookupChain key fuel (h.protoOf o) : HeapM Word) h := by
    rw [lookupChain, State.get_bind]
    simp only [hobject, Bool.not_true, Bool.false_eq_true, if_false]
    rw [State.bind_of_ok normal, State.get_bind]
    rfl
  rw [hstep]
  unfold own?
  rw [if_neg hproper]
  cases (h.ownSlot? o own).map (h.readSlot o) with
  | none => rfl
  | some value =>
    by_cases hvalue : value = h.hole
    · simp [hvalue, Option.filter]
    · simp only [ne_eq, hvalue, not_false_eq_true, if_true, Option.filter, decide_true]
      rfl

/-- No more objects than addresses. -/
theorem length_le_next (typed : Typed h T) {seen : List Word} (nodup : seen.Nodup)
    (objects : ∀ p ∈ seen, ∃ s st rest, T p = some (.object s st rest)) :
    seen.length ≤ h.addressSpace.next := by
  have hinj : (seen.map Word.address).Nodup := by
    refine nodup.map_on ?_
    intro p hp q hq hsame
    obtain ⟨_, _, _, hp⟩ := objects p hp
    obtain ⟨_, _, _, hq⟩ := objects q hq
    rw [typed.laid.pointer hp, typed.laid.pointer hq, hsame]
  have hsub : seen.map Word.address ⊆ List.range h.addressSpace.next := by
    intro a ha
    obtain ⟨p, hp, rfl⟩ := List.mem_map.mp ha
    obtain ⟨_, _, _, hp⟩ := objects p hp
    have hsize := typed.laid.nonempty hp
    have hused := typed.laid.used hp le_rfl (by omega)
    rw [List.mem_range]
    by_contra hbeyond
    exact hused (.inr (.inr (.inr (by omega))))
  have hlength := (hinj.subperm hsub).length_le
  rwa [List.length_map, List.length_range] at hlength

/-- There are no more objects than a number. -/
def AtMost (T : Contents) (n : Nat) : Prop :=
  ∀ {l : List Word}, l.Nodup → (∀ p ∈ l, ∃ s st rest, T p = some (.object s st rest)) → l.length ≤ n

theorem Typed.atMost_next (typed : Typed h T) : AtMost T h.addressSpace.next := length_le_next typed

/-- The chain comes to an end before the fuel does. The objects that were seen so far are all younger
than the current one, so it is none of them. -/
theorem lookupChain_finds (sound : Sound h T past) {age : Word → Nat}
    (settled : ∀ o, Settled h T age o) (normal : ∀ o, ∃ own, Normal h o key own) (fuel : Nat)
    {n : Nat} (most : AtMost T n) {seen : List Word} (nodup : seen.Nodup)
    (objects : ∀ p ∈ seen, ∃ s st rest, T p = some (.object s st rest))
    (younger : ∀ p ∈ seen, h.isObject o = true → age o < age p)
    (enough : n ≤ fuel + seen.length) (value : IsValue T o) :
    ∃ v, lookupChain key fuel o h = .ok v h ∧ Finds h key o v := by
  induction fuel generalizing o seen with
  | zero =>
    refine ⟨h.undefined, rfl, .missing ?_⟩
    by_contra hobject
    have hobject : h.isObject o = true := by simpa using hobject
    have hnew : o ∉ seen := fun hmem => Nat.lt_irrefl _ (younger o hmem hobject)
    have hcell := sound.typed.object_of_isObject value hobject
    have hlength := most (List.nodup_cons.mpr ⟨hnew, nodup⟩) (List.forall_mem_cons.mpr ⟨hcell, objects⟩)
    rw [List.length_cons] at hlength
    omega
  | succ fuel ih =>
    cases hobject : h.isObject o with
    | false => exact ⟨h.undefined, lookupChain_storeless hobject _, .missing hobject⟩
    | true =>
      obtain ⟨own, hown⟩ := normal o
      rw [lookupChain_object sound.typed hobject hown]
      cases hfound : h.own? o own with
      | some v => exact ⟨v, rfl, .own hobject hown hfound⟩
      | none =>
        obtain ⟨s, st, rest, ho⟩ := sound.typed.object_of_isObject value hobject
        obtain ⟨dense, proto, words, record⟩ := sound.typed.hasRecord ho
        rw [protoOf_record sound.typed record]
        have hproto := (settled o).value record
        have hold : h.isObject proto = true → age proto < age o := by
          intro hproto'
          obtain ⟨_, _, _, hcell⟩ := sound.typed.object_of_isObject hproto hproto'
          exact (settled o).older record hcell
        have hnew : o ∉ seen := fun hmem => Nat.lt_irrefl _ (younger o hmem hobject)
        obtain ⟨v, hrun, hfinds⟩ := ih (List.nodup_cons.mpr ⟨hnew, nodup⟩)
          (List.forall_mem_cons.mpr ⟨⟨s, st, rest, ho⟩, objects⟩)
          (List.forall_mem_cons.mpr ⟨hold, fun p hp hproto' =>
            (hold hproto').trans (younger p hp hobject)⟩)
          (by rw [List.length_cons]; omega) hproto
        refine ⟨v, hrun, .inherited hobject hown hfound ?_⟩
        rw [protoOf_record sound.typed record]
        exact hfinds

/-- A lookup on an object looks along its chain. -/
theorem getProperty_object (typed : Typed h T) {s st : Word} {rest : List Word}
    (ho : T o = some (.object s st rest)) :
    getProperty o key h = lookupChain key h.addressSpace.next o h := by
  have htext : h.text? o = none := by
    by_contra hsome
    have hvalue : IsValue T o := .inr (.inr (.inr ⟨s, st, rest, ho⟩))
    obtain ⟨text, hfound⟩ :=
      typed.text_of_text? hvalue (Option.isSome_iff_ne_none.mpr hsome)
    rw [typed.interned.mp hfound] at ho
    cases ho
  rw [getProperty, State.get_bind, htext]

/-- A lookup with fuel for all objects gives an answer and changes nothing. -/
theorem Sound.lookupChain_object (sound : Sound h T past) {s st : Word} {rest : List Word} {n : Nat} (most : AtMost T n)
    (ho : T o = some (.object s st rest)) (normal : Normal h o key own) :
    ∃ v, lookupChain key n o h = .ok v h ∧ Finds h key o v := by
  obtain ⟨age, settled⟩ := sound.chained
  have hobject := sound.typed.isObject_object ho
  have hvalue : IsValue T o := .inr (.inr (.inr ⟨s, st, rest, ho⟩))
  by_cases hindex : key.isSmi = true ∧ h.isDense o = true
  · -- A dense object has no prototype to ask.
    obtain ⟨dense, proto, words, record⟩ := sound.typed.hasRecord ho
    obtain rfl : dense = true := (isDense_record sound.typed record).symm.trans hindex.2
    have hnull : h.isObject (h.protoOf o) = false := by
      rw [protoOf_record sound.typed record, (settled o).flat record]
      obtain ⟨rest', hcell⟩ := sound.typed.null
      exact sound.typed.isObject_of_root .oddball hcell rfl (by decide)
    have hpositive : 0 < n := most (List.nodup_singleton o) (by simpa using ⟨s, st, rest, ho⟩)
    obtain ⟨fuel, hfuel⟩ := Nat.exists_eq_succ_of_ne_zero hpositive.ne'
    rw [hfuel, Heap.lookupChain_object sound.typed hobject normal]
    cases hfound : h.own? o own with
    | some v => exact ⟨v, rfl, .own hobject normal hfound⟩
    | none =>
      exact ⟨h.undefined, lookupChain_storeless hnull fuel,
        .inherited hobject normal hfound (.missing hnull)⟩
  · exact lookupChain_finds sound settled (normal.elsewhere hindex) _ most List.nodup_nil nofun nofun
      (by simp) hvalue

/-- A lookup gives an answer and changes nothing. -/
theorem Sound.getProperty_finds (sound : Sound h T past) {s st : Word} {rest : List Word}
    (ho : T o = some (.object s st rest)) (normal : Normal h o key own) :
    ∃ v, getProperty o key h = .ok v h ∧ Finds h key o v := by
  rw [getProperty_object sound.typed ho]
  exact sound.lookupChain_object sound.typed.atMost_next ho normal

/-! ### Assignment and deletion -/

/-- Assignments that have an effect: those to objects, where dense objects take only indices that are
small or that they have already. -/
def Accepts (h : Heap) (o key : Word) : Prop :=
  h.isObject o = true ∧ (h.isDense o = true → ∃ i : Nat, key.toSmi? = some (i : Int) ∧
    (i < 2 ^ 24 ∨ (h.own? o key).isSome))

/-- Every object has the same prototype in both heaps, and the same properties, apart from one. -/
structure SameBut (past : Past) (h h' : Heap) (o key : Word) : Prop where
  own : ∀ {o' key'}, past.origin o' ≠ none → o' ≠ o ∨ key' ≠ key → h'.own? o' key' = h.own? o' key'
  proto : ∀ {o'}, past.origin o' ≠ none → h'.protoOf o' = h.protoOf o'

/-- Every object has the same prototype and the same properties in both heaps. -/
structure Same (past : Past) (h h' : Heap) : Prop where
  own : ∀ {o' key'}, past.origin o' ≠ none → h'.own? o' key' = h.own? o' key'
  proto : ∀ {o'}, past.origin o' ≠ none → h'.protoOf o' = h.protoOf o'

theorem Tidy.distinct (tidy : Tidy h T) (record : HasRecord T o dense proto words) :
    dense = false → Distinct h.hole words := by
  rintro rfl
  exact tidy o proto words record

/-- Storage that holds the same gives the same properties. -/
theorem own?_congr (typed : Typed h T) (tidy : Tidy h T) (typed' : Typed h' T') (tidy' : Tidy h' T')
    (kept : Kept h h') (record : HasRecord T o dense proto words)
    (record' : HasRecord T' o dense proto words')
    (same : ∀ {v}, Entry dense h.hole words' key v ↔ Entry dense h.hole words key v) :
    h'.own? o key = h.own? o key := by
  ext v
  rw [own?_eq_some typed record (tidy.distinct record),
    own?_eq_some typed' record' (tidy'.distinct record'), kept.hole]
  exact same

/-- Objects outside a frame keep what they have. -/
theorem Sound.same_outside {X : Word → Prop} {past' : Past} (sound : Sound h T past)
    (sound' : Sound h' T' past') (frame : Frame X h h' T T') (born : past.origin o ≠ none)
    (out : ¬X o) : (∀ key, h'.own? o key = h.own? o key) ∧ h'.protoOf o = h.protoOf o := by
  obtain ⟨s, st, rest, ho⟩ := sound.born.mpr born
  obtain ⟨dense, proto, words, record⟩ := sound.typed.hasRecord ho
  have record' := frame.record out record
  refine ⟨fun key => own?_congr sound.typed sound.tidy sound'.typed sound'.tidy frame.kept record
    record' Iff.rfl, ?_⟩
  rw [protoOf_record sound.typed record, protoOf_record sound'.typed record']

/-- An operation on one object that leaves its storage alike. -/
theorem Sound.sameBut {past' : Past} {R : Bool → List Word → List Word → Prop}
    (sound : Sound h T past) (sound' : Sound h' T' past') (frame : Frame (· = o) h h' T T')
    (revised : Revised T T' o R)
    (alike : ∀ {dense words words'}, R dense words words' → Alike dense h.hole own words words') :
    SameBut past h h' o own := by
  have hown : ∀ {o'}, past.origin o' ≠ none → o' = o → ∃ dense proto words words',
      HasRecord T o' dense proto words ∧ HasRecord T' o' dense proto words' ∧
        Alike dense h.hole own words words' := by
    rintro o' born rfl
    obtain ⟨s, st, rest, ho⟩ := sound.born.mpr born
    obtain ⟨dense, proto, words, record⟩ := sound.typed.hasRecord ho
    obtain ⟨words', record', hR⟩ := revised dense proto words record
    exact ⟨dense, proto, words, words', record, record', alike hR⟩
  constructor
  · intro o' key' born hother
    by_cases hoo : o' = o
    · obtain ⟨dense, proto, words, words', record, record', halike⟩ := hown born hoo
      exact own?_congr sound.typed sound.tidy sound'.typed sound'.tidy frame.kept record record'
        (halike.others (hother.resolve_left fun hne => hne hoo))
    · exact (sound.same_outside sound' frame born hoo).1 key'
  · intro o' born
    by_cases hoo : o' = o
    · obtain ⟨dense, proto, words, words', record, record', -⟩ := hown born hoo
      rw [protoOf_record sound.typed record, protoOf_record sound'.typed record']
    · exact (sound.same_outside sound' frame born hoo).2

/-- A lookup finds what the object has itself. -/
theorem Sound.getProperty_own (sound : Sound h T past) {s st : Word} {rest : List Word}
    (ho : T o = some (.object s st rest)) (normal : Normal h o key own)
    (found : h.own? o own = some v) : getProperty o key h = .ok v h := by
  obtain ⟨w, hrun, hfinds⟩ := sound.getProperty_finds ho normal
  have hobject := sound.typed.isObject_object ho
  cases hfinds with
  | own _ hnormal hown =>
    cases normal.symm.trans hnormal
    cases found.symm.trans hown
    exact hrun
  | inherited _ hnormal hnone _ =>
    cases normal.symm.trans hnormal
    cases found.symm.trans hnone
  | missing hstoreless =>
    rw [hobject] at hstoreless
    cases hstoreless

/-- A lookup on an object without the key asks its prototype. -/
theorem Sound.getProperty_inherited (sound : Sound h T past) {s st : Word} {rest : List Word}
    (ho : T o = some (.object s st rest)) (normal : Normal h o key own)
    (missing : h.own? o own = none) :
    ∃ v, getProperty o key h = .ok v h ∧ Finds h key (h.protoOf o) v := by
  obtain ⟨w, hrun, hfinds⟩ := sound.getProperty_finds ho normal
  have hobject := sound.typed.isObject_object ho
  refine ⟨w, hrun, ?_⟩
  cases hfinds with
  | own _ hnormal hown =>
    cases normal.symm.trans hnormal
    cases missing.symm.trans hown
  | inherited _ _ _ hproto => exact hproto
  | missing hstoreless =>
    rw [hobject] at hstoreless
    cases hstoreless

/-- A search with update gives a slot exactly if the object accepts the key; if not, it does no more
than bring the key into its form. -/
theorem lookupSlot_accepts {result : Option Nat} (typed₁ : Typed h₁ T)
    (record : HasRecord T o dense proto words) (hobject : h.isObject o = true)
    (keyed : propertyKey o key h = .ok own h₁) (run : lookupSlot o key true h = .ok result h') :
    (result ≠ none ↔ Accepts h₁ o own) ∧ (result = none → h' = h₁) := by
  have hobject₁ := isObject_record typed₁ record
  have hdense := isDense_record typed₁ record
  obtain ⟨own', h₁', keyed', hcases⟩ := lookupSlot_cases hobject run
  cases keyed.symm.trans keyed'
  unfold Accepts
  rw [hdense, hobject₁]
  rcases hcases with ⟨rfl, rfl, hsome⟩ | ⟨-, hmissing, added⟩
  · refine ⟨iff_of_true (hsome rfl) ⟨rfl, ?_⟩, fun _ => rfl⟩
    rintro rfl
    obtain ⟨slot, hslot⟩ := Option.ne_none_iff_exists'.mp (hsome rfl)
    obtain ⟨hindex, v, hv, hne⟩ := (ownSlot?_dense typed₁ record rfl).mp hslot
    refine ⟨slot, hindex, .inr ?_⟩
    have hentry : Entry true h'.hole words own v := ⟨hne, slot, hindex, hv⟩
    rw [(own?_eq_some typed₁ record nofun).mpr hentry]
    rfl
  · have hnone : h₁.own? o own = none := by
      unfold own?
      rw [hmissing]
      simp
    rw [hnone]
    rw [addProperty, State.get_bind, hdense] at added
    cases dense with
    | false =>
      obtain ⟨s, st, rest, flags, ho, -, -, -⟩ := record
      rw [shapeOf?_object typed₁.laid ho] at added
      simp only [Bool.false_eq_true, if_false, State.bind_eq_ok, State.pure_eq_ok] at added
      obtain ⟨slot, _, -, _, _, -, _, _, -, _, _, -, _, _, -, rfl, -⟩ := added
      simp
    | true =>
      simp only [if_true] at added
      cases hindex : own.toSmi? with
      | none =>
        simp only [hindex, State.pure_eq_ok] at added
        obtain ⟨rfl, rfl⟩ := added
        simp
      | some index =>
        simp only [hindex] at added
        unfold maxDenseIndex at added
        split at added
        · rename_i hrange
          have hsome : result = some index.toNat := by
            split at added
            · simp only [State.bind_eq_ok, State.pure_eq_ok] at added
              obtain ⟨_, _, -, rfl, -⟩ := added
              rfl
            · exact (State.pure_eq_ok.mp added).1.symm
          refine ⟨iff_of_true (by simp [hsome]) ⟨rfl, fun _ => ⟨index.toNat, ?_, .inl (by omega)⟩⟩,
            fun hfalse => by simp [hsome] at hfalse⟩
          rw [Int.toNat_of_nonneg hrange.1]
        · rename_i hrange
          obtain ⟨rfl, rfl⟩ := State.pure_eq_ok.mp added
          refine ⟨iff_of_false (by simp) ?_, fun _ => rfl⟩
          rintro ⟨-, htakes⟩
          obtain ⟨i, hi, hsmall⟩ := htakes rfl
          rw [Option.some.injEq] at hi
          simp only [Option.isSome_none, Bool.false_eq_true, or_false] at hsmall
          omega

/-- The object model of a heap: objects are maps with prototypes. -/
structure RefinesMaps (h : Heap) (past : Past) : Prop where
  /-- A lookup gives the value of the first object on the chain that has the key. -/
  get : ∀ {o key own}, past.origin o ≠ none → Normal h o key own →
    ∃ v, getProperty o key h = .ok v h ∧ Finds h key o v
  /-- After an assignment the object has the value under the key. -/
  set : ∀ {o key own v h₁ h'}, past.Known o → past.Known key → past.Known v → v ≠ h.hole →
    propertyKey o key h = .ok own h₁ → setProperty o key v h = .ok () h' → Accepts h₁ o own →
    SameBut past h h' o own ∧ h'.own? o own = some v ∧ Normal h' o own own ∧
      ∀ {key'}, Normal h' o key' own → getProperty o key' h' = .ok v h'
  /-- An assignment that is not accepted has no effect. -/
  ignored : ∀ {o key own v h₁ h'}, past.Known o → past.Known key →
    propertyKey o key h = .ok own h₁ → setProperty o key v h = .ok () h' → ¬Accepts h₁ o own →
    Same past h h' ∧ (Normal h o key own → h' = h)
  /-- After a deletion the object has no value under the key, and lookups go to the prototype. -/
  delete : ∀ {o key own h₁ h' gone}, past.origin o ≠ none → past.Known key →
    propertyKey o key h = .ok own h₁ → deleteProperty o key h = .ok gone h' →
    SameBut past h h' o own ∧ h'.ownSlot? o own = none ∧ h'.own? o own = none ∧ Normal h' o own own ∧
      ∀ {key'}, Normal h' o key' own →
        ∃ v, getProperty o key' h' = .ok v h' ∧ Finds h' key' (h'.protoOf o) v

/-- Bringing a key into its form turns nothing into an object. -/
theorem isObject_frame (typed : Typed h T) (typed' : Typed h' T') (frame : Frame Nobody h h' T T')
    (value : IsValue T o) (storeless : h.isObject o = false) : h'.isObject o = false := by
  by_contra hobject
  obtain ⟨s, st, rest, ho⟩ := typed'.object_of_isObject (frame.isValue value) (by simpa using hobject)
  rw [typed.isObject_object (frame.same id ho).1] at storeless
  cases storeless

theorem Sound.same_frame {past' : Past} (sound : Sound h T past) (sound' : Sound h' T' past')
    (frame : Frame Nobody h h' T T') : Same past h h' :=
  ⟨fun born => (sound.same_outside sound' frame born id).1 _,
    fun born => (sound.same_outside sound' frame born id).2⟩

theorem Sound.setProperty_refines (sound : Sound h T past) (known : past.Known o)
    (knownKey : past.Known key) (knownValue : past.Known v) (proper : v ≠ h.hole)
    (keyed : propertyKey o key h = .ok own h₁) (run : setProperty o key v h = .ok () h')
    (accepts : Accepts h₁ o own) :
    SameBut past h h' o own ∧ h'.own? o own = some v ∧ Normal h' o own own ∧
      ∀ {key'}, Normal h' o key' own → getProperty o key' h' = .ok v h' := by
  have hvalue := sound.isValue known
  have hkey := sound.isValue knownKey
  obtain ⟨T₁, typed₁, frame₁, -, -⟩ := propertyKey_ok sound.typed hkey keyed
  cases hobject : h.isObject o with
  | false =>
    have hobject₁ := isObject_frame sound.typed typed₁ frame₁ hvalue hobject
    rw [accepts.1] at hobject₁
    cases hobject₁
  | true =>
    obtain ⟨s, st, rest, ho⟩ := sound.typed.object_of_isObject hvalue hobject
    obtain ⟨dense, proto, words, record⟩ := sound.typed.hasRecord ho
    obtain ⟨own', h₁', h₂, result, T', keyed', looked, -, hkey', typed', frame', tracked', ⟨hrefreshed, -, -⟩,
      hrevised⟩ := setProperty_ok sound.typed sound.tracked sound.tidy ho hkey run
    cases keyed.symm.trans keyed'
    obtain ⟨hvalues, horigin⟩ := update_values past h o key
    have sound' : Sound h' T' (past.update h o key) := sound.step ho typed' frame' tracked' hrevised
      (fun hset => hset.alike.distinct rfl) hrefreshed (sound.isValue knownValue) hvalues horigin
    have hresult : result ≠ none :=
      (lookupSlot_accepts typed₁ (frame₁.record id record) hobject keyed looked).1.mpr accepts
    obtain ⟨words', record', hassigned⟩ := hrevised dense proto words record
    have hentry := hassigned.entry hresult proper
    have hfound : h'.own? o own = some v := by
      rw [own?_eq_some typed' record' (sound'.tidy.distinct record'), frame'.kept.hole]
      exact hentry
    obtain ⟨s', st', rest', ho'⟩ := frame'.objects ho
    exact ⟨sound.sameBut sound' frame' hrevised fun hset => hset.alike, hfound, hkey'.normal typed',
      fun normal => sound'.getProperty_own ho' normal hfound⟩

theorem Sound.setProperty_ignored (sound : Sound h T past) (known : past.Known o)
    (knownKey : past.Known key) (keyed : propertyKey o key h = .ok own h₁)
    (run : setProperty o key v h = .ok () h') (rejects : ¬Accepts h₁ o own) :
    Same past h h' ∧ (Normal h o key own → h' = h) := by
  have hkey := sound.isValue knownKey
  obtain ⟨T₁, typed₁, frame₁, -, -⟩ := propertyKey_ok sound.typed hkey keyed
  cases hobject : h.isObject o with
  | false =>
    obtain rfl := setProperty_storeless hobject run
    exact ⟨⟨fun _ => rfl, fun _ => rfl⟩, fun _ => rfl⟩
  | true =>
    obtain ⟨s, st, rest, ho⟩ := sound.typed.object_of_isObject (sound.isValue known) hobject
    obtain ⟨dense, proto, words, record⟩ := sound.typed.hasRecord ho
    obtain ⟨own', h₁', h₂, result, T', -, looked, hsame, -⟩ :=
      setProperty_ok sound.typed sound.tracked sound.tidy ho hkey run
    obtain ⟨haccepts, hnone⟩ :=
      lookupSlot_accepts typed₁ (frame₁.record id record) hobject keyed looked
    have hresult : result = none := by
      by_contra hsome
      exact rejects (haccepts.mp hsome)
    obtain rfl : h' = h₁ := (hsame hresult).trans (hnone hresult)
    refine ⟨sound.same_frame (sound.frame typed₁ frame₁) frame₁, fun normal => ?_⟩
    cases normal.symm.trans keyed
    rfl

theorem Sound.deleteProperty_refines (sound : Sound h T past) (born : past.origin o ≠ none)
    (knownKey : past.Known key) (keyed : propertyKey o key h = .ok own h₁) {gone : Bool}
    (run : deleteProperty o key h = .ok gone h') :
    SameBut past h h' o own ∧ h'.ownSlot? o own = none ∧ h'.own? o own = none ∧ Normal h' o own own ∧
      ∀ {key'}, Normal h' o key' own →
        ∃ v, getProperty o key' h' = .ok v h' ∧ Finds h' key' (h'.protoOf o) v := by
  obtain ⟨s, st, rest, ho⟩ := sound.born.mpr born
  obtain ⟨own', h₁', T', keyed', hkey', typed', frame', tracked', hrest, hrevised⟩ :=
    deleteProperty_ok sound.typed sound.tracked sound.tidy ho (sound.isValue knownKey) run
  cases keyed.symm.trans keyed'
  have sound' : Sound h' T' past := sound.step ho typed' frame' tracked' hrevised
    (fun hgone => hgone.alike.distinct rfl) (.inl hrest) (.inr (.inr (.inr ⟨s, st, rest, ho⟩))) rfl rfl
  obtain ⟨dense, proto, words, record⟩ := sound.typed.hasRecord ho
  obtain ⟨words', record', hdeleted⟩ := hrevised dense proto words record
  have hslot : h'.ownSlot? o own = none := by
    rw [ownSlot?_eq_none typed' record', frame'.kept.hole]
    exact hdeleted.lacks
  have hnone : h'.own? o own = none := by
    unfold own?
    rw [hslot]
    simp
  obtain ⟨s', st', rest', ho'⟩ := frame'.objects ho
  exact ⟨sound.sameBut sound' frame' hrevised fun hgone => hgone.alike, hslot, hnone,
    hkey'.normal typed', fun normal => sound'.getProperty_inherited ho' normal hnone⟩

/-- In every heap that operations lead to, objects are maps with prototypes. -/
theorem Reachable.refinesMaps {config : HeapConfig} (reachable : Reachable config h past) :
    RefinesMaps h past := by
  obtain ⟨T, sound⟩ := reachable.sound
  refine ⟨fun born normal => ?_, sound.setProperty_refines, sound.setProperty_ignored,
    fun born known keyed run => sound.deleteProperty_refines born known keyed run⟩
  obtain ⟨s, st, rest, ho⟩ := sound.born.mpr born
  exact sound.getProperty_finds ho normal

/-- An object whose only property was deleted. -/
def emptied : HeapM (Word × Word) := do
  let key ← string "x"
  let object ← newObject
  setProperty object key (.smi 1)
  discard (deleteProperty object key)
  return (object, key)

theorem emptied_assign : ∃ h past o key h', Reachable {} h past ∧ past.origin o ≠ none ∧
    h.own? o key = none ∧ setProperty o key (.smi 2) h = .ok () h' ∧
    h'.own? o key = some (.smi 2) ∧ getProperty o key h' = .ok (.smi 2) h' := by
  have hruns : runsTo emptied (fun (o, key) h =>
      match propertyKey o key h, setProperty o key (.smi 2) h with
      | .ok own h₁, .ok _ _ => own = key ∧ h₁.isObject o = true ∧ h₁.isDense o = false ∧
        h.own? o key = none ∧ h.hole ≠ .smi 2
      | _, _ => False) = true := by decide +kernel
  obtain ⟨h₀, ⟨o, key⟩, h, created, run, hend⟩ := runsTo_eq_true hruns
  simp only [emptied, State.bind_eq_ok, State.pure_eq_ok, State.discard_eq_ok, Prod.mk.injEq] at run
  obtain ⟨x, h₁, hx, a, h₂, hmade, _, h₃, hset, _, h₄, ⟨gone, hdelete⟩, ⟨rfl, rfl⟩, rfl⟩ := run
  have reachable₂ := ((Reachable.create (by decide) created).string (by decide) hx).newObject hmade
  generalize hpast : Past.born _ _ _ = past at reachable₂
  have hvalues : x ∈ past.values ∧ a ∈ past.values ∧ past.origin a ≠ none := by
    subst hpast
    simp [Past.born, Past.give]
  have hknown : ∀ n, past.Known (.smi n) := fun n => .inl (Word.smi_isSmi n)
  obtain ⟨hupdated, horigin⟩ := update_values past h₂ a x
  have reachable₃ := reachable₂.setProperty (.inr hvalues.2.1) (.inr hvalues.1) (hknown 1) hset
  have hknown₃ : ∀ {w}, w ∈ past.values → (past.update h₂ a x).Known w :=
    fun hw => .inr (hupdated ▸ hw)
  have reachable₄ := reachable₃.deleteProperty (hknown₃ hvalues.2.1) (hknown₃ hvalues.1) hdelete
  dsimp only at hend
  split at hend
  · rename_i own h₅ _ h' keyed assigned
    obtain ⟨rfl, hobject, hdense, hnone, hhole⟩ := of_decide_eq_true hend
    have haccepts : Accepts h₅ a own := ⟨hobject, fun hflag => by simp [hdense] at hflag⟩
    obtain ⟨-, hfound, hnormal, hget⟩ := reachable₄.refinesMaps.set (hknown₃ hvalues.2.1)
      (hknown₃ hvalues.1) (.inl (Word.smi_isSmi 2)) hhole.symm keyed assigned haccepts
    exact ⟨h₄, _, a, own, h', reachable₄, horigin ▸ hvalues.2.2, hnone, assigned, hfound, hget hnormal⟩
  · exact absurd (of_decide_eq_true hend) id

end ScriptEngine.Heap
