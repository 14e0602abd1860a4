import ScriptEngine.Proofs.Heap.Properties

/-!
What holds in every heap that operations lead to: the cells fit together, objects are where their
past says, and the values that were given out stand for something. Each operation keeps it.
-/

namespace ScriptEngine.Heap

open Function (update)

variable {h h' : Heap} {T T' : Contents} {past past' : Past} {o w s st key : Word}
  {words rest : List Word} {flags : ShapeFlags} {proto : Word}

/-- The prototype of an object, and of those that a function constructs, is a value. If it is an
object, then it is older. Dense objects have none. -/
structure Settled (h : Heap) (T : Contents) (age : Word → Nat) (o : Word) : Prop where
  value : ∀ {dense proto words}, HasRecord T o dense proto words → IsValue T proto
  older : ∀ {dense proto words s st rest}, HasRecord T o dense proto words →
    T proto = some (.object s st rest) → age proto < age o
  flat : ∀ {proto words}, HasRecord T o true proto words → proto = h.null
  instances : ∀ {s st code instances flags proto}, T o = some (.object s st [code, instances]) →
    T instances = some (.shape flags proto) → IsValue T proto

/-- Prototype chains come to an end. -/
def Chained (h : Heap) (T : Contents) : Prop := ∃ age, ∀ o, Settled h T age o

/-- An object, or what was no object before. -/
def Touched (T : Contents) (o : Word) : Word → Prop := fun v =>
  v = o ∨ ¬∃ s st rest, T v = some (.object s st rest)

structure Sound (h : Heap) (T : Contents) (past : Past) : Prop where
  typed : Typed h T
  tracked : Tracked Nobody h T past
  tidy : Tidy h T
  chained : Chained h T
  values : ∀ {w}, w ∈ past.values → IsValue T w
  born : ∀ {o}, (∃ s st rest, T o = some (.object s st rest)) ↔ past.origin o ≠ none

theorem Sound.isValue (sound : Sound h T past) (known : past.Known w) : IsValue T w :=
  known.elim .inl sound.values

/-- An operation on a value makes no object of it, and no other object either. -/
theorem Frame.object_iff (typed' : Typed h' T') (frame : Frame (· = o) h h' T T')
    (value : IsValue T o) {v : Word} :
    (∃ s st rest, T' v = some (.object s st rest)) ↔ ∃ s st rest, T v = some (.object s st rest) := by
  constructor
  · rintro ⟨s, st, rest, hv⟩
    by_cases hvo : v = o
    · subst hvo
      rcases value with hsmi | ⟨kind, rest', hleaf⟩ | ⟨text, htext⟩ | hobject
      · rw [isSmi_of_cell typed'.laid hv] at hsmi
        cases hsmi
      · rw [frame.leaves hleaf] at hv
        cases hv
      · rw [frame.texts htext] at hv
        cases hv
      · exact hobject
    · exact ⟨s, st, rest, (frame.same hvo hv).1⟩
  · rintro ⟨s, st, rest, hv⟩
    exact frame.objects hv

/-- A function that keeps the shape of its instances keeps their prototype. -/
theorem Settled.instances_frame {X : Word → Prop} {age : Word → Nat} {code instances : Word}
    (settled : Settled h T age o) (typed : Typed h T) (frame : Frame X h h' T T')
    (ho : T o = some (.object s st [code, instances]))
    (hinstances : T' instances = some (.shape flags proto)) : IsValue T' proto := by
  obtain ⟨flags', proto', words, formed⟩ := typed.formed ho
  cases hfunction : flags'.contains .function with
  | false => cases formed.plain hfunction
  | true =>
    obtain ⟨_, _, proto₁, hrest, hcell, -⟩ := formed.function hfunction
    cases hrest
    have hcell' := frame.shapes hcell
    rw [hinstances] at hcell'
    cases hcell'
    exact frame.isValue (settled.instances ho hcell)

/-- An object outside a frame is as before. -/
theorem Settled.frame {X : Word → Prop} {age age' : Word → Nat} (settled : Settled h T age o)
    (typed : Typed h T) (frame : Frame X h h' T T') (out : ¬X o)
    (back : ∀ {v s st rest}, IsValue T v → T' v = some (.object s st rest) →
      (∃ s st rest, T v = some (.object s st rest)) ∧ age' v = age v) : Settled h' T' age' o := by
  have hold : ∀ {dense proto words}, HasRecord T' o dense proto words →
      HasRecord T o dense proto words ∧ age' o = age o := by
    intro dense proto words record
    obtain ⟨s, st, rest, flags, ho, -, -, -⟩ := id record
    have ho' := (frame.same out ho).1
    obtain ⟨dense₁, proto₁, words₁, record₁⟩ := typed.hasRecord ho'
    obtain ⟨rfl, rfl, rfl⟩ := record.unique (frame.record out record₁)
    exact ⟨record₁, (back (.inr (.inr (.inr ⟨s, st, rest, ho'⟩))) ho).2⟩
  constructor
  · intro dense proto words record
    exact frame.isValue (settled.value (hold record).1)
  · intro dense proto words s st rest record hproto
    obtain ⟨record', hage⟩ := hold record
    obtain ⟨⟨s', st', rest', hproto'⟩, hage'⟩ := back (settled.value record') hproto
    rw [hage, hage']
    exact settled.older record' hproto'
  · intro proto words record
    rw [frame.kept.null]
    exact settled.flat (hold record).1
  · intro s st code instances flags proto ho hinstances
    exact settled.instances_frame typed frame (frame.same out ho).1 hinstances

/-- An operation on the properties of an object. -/
theorem Sound.step {R : Bool → List Word → List Word → Prop} {v : Word} (sound : Sound h T past)
    (ho : T o = some (.object s st rest)) (typed' : Typed h' T') (frame : Frame (· = o) h h' T T')
    (tracked' : Tracked Nobody h' T' past') (revised : Revised T T' o R)
    (distinct : ∀ {words words'}, R false words words' → Distinct h.hole words')
    (refreshed : Refreshed T T' o v) (value : IsValue T v)
    (values : past'.values = past.values) (origin : past'.origin = past.origin) :
    Sound h' T' past' := by
  have hvalue : IsValue T o := .inr (.inr (.inr ⟨s, st, rest, ho⟩))
  obtain ⟨dense, proto, words, record⟩ := sound.typed.hasRecord ho
  obtain ⟨words', record', hR⟩ := revised dense proto words record
  refine ⟨typed', tracked', sound.tidy.frame sound.typed frame ?_, ?_, ?_, ?_⟩
  · rintro _ proto₁ words₁ rfl record₁
    obtain ⟨rfl, rfl, rfl⟩ := record'.unique record₁
    exact distinct hR
  · obtain ⟨age, settled⟩ := sound.chained
    have hback : ∀ {v s st rest}, IsValue T v → T' v = some (.object s st rest) →
        (∃ s st rest, T v = some (.object s st rest)) ∧ age v = age v :=
      fun _ hv => ⟨(frame.object_iff typed' hvalue).mp ⟨_, _, _, hv⟩, rfl⟩
    refine ⟨age, fun o' => ?_⟩
    by_cases hoo : o' = o
    · subst hoo
      constructor
      · intro dense₁ proto₁ words₁ record₁
        obtain ⟨rfl, rfl, rfl⟩ := record'.unique record₁
        exact frame.isValue ((settled o').value record)
      · intro dense₁ proto₁ words₁ s₁ st₁ rest₁ record₁ hproto
        obtain ⟨rfl, rfl, rfl⟩ := record'.unique record₁
        obtain ⟨⟨_, _, _, hproto'⟩, -⟩ := hback ((settled o').value record) hproto
        exact (settled o').older record hproto'
      · intro proto₁ words₁ record₁
        obtain ⟨rfl, rfl, rfl⟩ := record'.unique record₁
        rw [frame.kept.null]
        exact (settled o').flat record
      · intro s₁ st₁ code instances flags₁ proto₁ ho₁ hinstances
        rcases refreshed with hrest | ⟨code₂, instances₂, target, -, ⟨s₂, st₂, ho₂⟩, hcell, -, htarget⟩
        · obtain ⟨s₂, st₂, ho₂⟩ := hrest s st rest ho
          rw [ho₁] at ho₂
          cases ho₂
          exact (settled o').instances_frame sound.typed frame ho hinstances
        · rw [ho₁] at ho₂
          cases ho₂
          rw [hinstances] at hcell
          cases hcell
          exact htarget value
    · exact (settled o').frame sound.typed frame hoo hback
  · rw [values]
    exact fun hw => frame.isValue (sound.values hw)
  · intro v
    rw [origin, frame.object_iff typed' hvalue]
    exact sound.born

/-- New cells that are no objects. -/
theorem Sound.frame (sound : Sound h T past) (typed' : Typed h' T')
    (frame : Frame Nobody h h' T T') : Sound h' T' past := by
  refine ⟨typed', sound.tracked.frame sound.typed frame fun _ _ => ⟨rfl, rfl⟩,
    sound.tidy.frame sound.typed frame fun _ _ _ => False.elim, ?_, ?_, ?_⟩
  · obtain ⟨age, settled⟩ := sound.chained
    refine ⟨age, fun o => (settled o).frame sound.typed frame id ?_⟩
    exact fun _ hv => ⟨⟨_, _, _, (frame.same id hv).1⟩, rfl⟩
  · exact fun hw => frame.isValue (sound.values hw)
  · intro v
    refine Iff.trans ⟨?_, ?_⟩ sound.born
    · rintro ⟨s, st, rest, hv⟩
      exact ⟨s, st, rest, (frame.same id hv).1⟩
    · rintro ⟨s, st, rest, hv⟩
      exact frame.objects hv

theorem Sound.give (sound : Sound h T past) (value : IsValue T w) : Sound h T (past.give w) := by
  refine ⟨sound.typed, ⟨fun hout => sound.tracked.tracks hout⟩, sound.tidy, sound.chained, ?_,
    sound.born⟩
  intro v hv
  rcases List.mem_cons.mp hv with rfl | hold
  · exact value
  · exact sound.values hold

theorem Sound.null_isValue (sound : Sound h T past) : IsValue T h.null := by
  obtain ⟨rest, hnull⟩ := sound.typed.null
  exact .inr (.inl ⟨_, _, hnull⟩)

/-! ### Values without storage -/

theorem string_sound (sound : Sound h T past) {text : String} (small : text.utf8ByteSize < 2 ^ 63)
    (run : string text h = .ok w h') :
    ∃ T', Sound h' T' past ∧ Frame Nobody h h' T T' ∧ T' w = some (.text text) := by
  obtain ⟨T', typed', frame', -, hfound⟩ := string_typed sound.typed small run
  exact ⟨T', sound.frame typed' frame', frame', typed'.interned.mp hfound⟩

/-- A new cell that is neither an object nor text. -/
theorem Sound.fresh (sound : Sound h T past) {c : Cell} (laid : Laid h' (update T w (some c)))
    (quiet : Quiet h h') (free : T w = none) (plain : Plain c) (other : ∀ text, c ≠ .text text) :
    Sound h' (update T w (some c)) past ∧ Frame Nobody h h' T (update T w (some c)) := by
  obtain ⟨typed', frame'⟩ := putFresh sound.typed laid quiet free plain other Nobody
  exact ⟨sound.frame typed' frame', frame'⟩

theorem number_sound (sound : Sound h T past) {n : Double} (run : number n h = .ok w h') :
    ∃ T', Sound h' T' (past.give w) ∧ Frame Nobody h h' T T' ∧
      (w.isSmi = true ∨ T' w = some (.leaf .number [⟨n.bits⟩])) := by
  rcases number_ok sound.typed.laid run with ⟨hsmi, rfl⟩ | ⟨hnone, hquiet, hlaid⟩
  · exact ⟨T, sound.give (.inl hsmi), Frame.refl .., .inl hsmi⟩
  · obtain ⟨sound', frame'⟩ := sound.fresh hlaid hquiet hnone
      (⟨by decide, rfl⟩ : RootShape.number ∈ leafKinds ∧ _) (fun _ => nofun)
    have hw := Function.update_self w (some (Cell.leaf .number [⟨n.bits⟩])) T
    exact ⟨_, sound'.give (.inr (.inl ⟨_, _, hw⟩)), frame', .inr hw⟩

theorem allocCode_sound (sound : Sound h T past) {entry length : Nat} {record : CodeRecord}
    (run : allocCode entry length record h = .ok w h') :
    ∃ T', Sound h' T' (past.give w) ∧ Frame Nobody h h' T T' ∧ T w = none ∧
      T' w = some (.leaf .code [.ofNat entry, .smi length, .smi h.codeRecords.size]) := by
  obtain ⟨hnone, hquiet, hlaid⟩ := allocCode_ok sound.typed.laid run
  obtain ⟨sound', frame'⟩ := sound.fresh hlaid hquiet hnone
    (⟨by decide, rfl⟩ : RootShape.code ∈ leafKinds ∧ _) (fun _ => nofun)
  have hw := Function.update_self w
    (some (Cell.leaf .code [.ofNat entry, .smi length, .smi h.codeRecords.size])) T
  exact ⟨_, sound'.give (.inr (.inl ⟨_, _, hw⟩)), frame', hnone, hw⟩

/-! ### New objects -/

/-- An object with storage of its own, both of them new. -/
theorem object_typed (typed : Typed h T) (free : T o = none) (freeStore : T st = none) (apart : o ≠ st)
    (quiet : Quiet h h') (laid : Laid h' (withObject T o s st words rest))
    (hs : T s = some (.shape flags proto)) (member : flags ∈ objectFlags)
    (proper : ∀ kind ∈ storelessShapes, h.rootShape kind ≠ s)
    (even : flags.contains .dense = false → words.length % 2 = 0)
    (shared : flags.contains .transition = true ∨ flags.contains .dense = true)
    (function : flags.contains .function = true → ∃ code instances proto',
      rest = [code, instances] ∧ T instances = some (.shape .transition proto') ∧
        h.transitions.keyCount instances = 0)
    (plain : flags.contains .function = false → rest = []) :
    Typed h' (withObject T o s st words rest) ∧
      Frame (· = o) h h' T (withObject T o s st words rest) := by
  have htable : withObject T o s st words rest =
      update (update T st (some (.store words))) o (some (.object s st rest)) :=
    Function.update_comm apart _ _ T
  rw [htable] at laid ⊢
  have hfree : update T st (some (.store words)) o = none := by
    rw [Function.update_of_ne apart, free]
  have hlaid₁ : Laid h' (update T st (some (.store words))) :=
    laid.drop fun hw => update_of_none hfree hw
  obtain ⟨typed₁, frame₁⟩ := putFresh typed hlaid₁ quiet freeStore trivial (fun _ => nofun) (· = o)
  have hplace : ∀ c, update T st (some (.store words)) o = some c →
      ∃ s st rest, c = .object s st rest := by
    intro c hc
    rw [hfree] at hc
    cases hc
  have hformed : Formed h' (update T st (some (.store words))) s st rest flags proto words := by
    refine ⟨frame₁.shapes hs, Function.update_self .., member, ?_, even, ?_, plain⟩
    · rw [quiet.rootShape]
      exact proper
    · intro hfunction
      obtain ⟨code, instances, proto', hrest, hcell, hcount⟩ := function hfunction
      exact ⟨code, instances, proto', hrest, frame₁.shapes hcell,
        (frame₁.counts hcell).trans hcount⟩
  have hunowned : ∀ {o' s' rest'}, update T st (some (.store words)) o' =
      some (.object s' st rest') → o' = o := by
    intro o' s' rest' ho'
    have hne : o' ≠ st := by
      rintro rfl
      rw [Function.update_self] at ho'
      cases ho'
    rw [Function.update_of_ne hne] at ho'
    obtain ⟨_, _, _, formed'⟩ := typed.formed ho'
    exact absurd rfl (ne_of_none freeStore formed'.store)
  refine ⟨typed₁.putObject laid (Quiet.refl h') hplace hformed hunowned ?_,
    frame₁.trans (frame_putObject (Quiet.refl h') hplace)⟩
  intro hoff hdense
  rcases shared with hon | hon
  · rw [hoff] at hon
    cases hon
  · rw [hdense] at hon
    cases hon

theorem capacity_zero : 2 * capacity 0 = 8 := rfl

theorem distinct_replicate (hole : Word) (n : Nat) : Distinct hole (List.replicate n hole) := by
  intro i j k hi _ hk
  rw [List.getElem?_replicate] at hi
  split at hi
  · exact absurd (Option.some.inj hi).symm hk
  · cases hi

/-- A new object is at the start of a path, if its shape is on the tree. -/
theorem Sound.birth {n : Nat} (sound : Sound h T past)
    (typed' : Typed h' (withObject T o s st (List.replicate n h.hole) rest))
    (frame : Frame (· = o) h h' T (withObject T o s st (List.replicate n h.hole) rest))
    (free : T o = none) (apart : o ≠ st) (hs : T s = some (.shape flags proto))
    (empty : flags.contains .transition = true → n = 8 ∧ h.transitions.keyCount s = 0)
    (value : IsValue T proto) (flat : flags.contains .dense = true → proto = h.null)
    (instances : ∀ {code shape}, rest = [code, shape] → ∃ flags' proto',
      T shape = some (.shape flags' proto') ∧ IsValue T proto') :
    Sound h' (withObject T o s st (List.replicate n h.hole) rest) (past.born o s) := by
  have ho' : withObject T o s st (List.replicate n h.hole) rest o = some (.object s st rest) := by
    unfold withObject
    rw [Function.update_of_ne apart, Function.update_self]
  have hst' : withObject T o s st (List.replicate n h.hole) rest st =
      some (.store (List.replicate n h.hole)) := Function.update_self ..
  have hs' := frame.shapes hs
  have record' : HasRecord (withObject T o s st (List.replicate n h.hole) rest) o
      (flags.contains .dense) proto (List.replicate n h.hole) :=
    ⟨s, st, rest, flags, ho', hs', hst', rfl⟩
  have hsame : ∀ o', ¬o' = o → (past.born o s).origin o' = past.origin o' ∧
      (past.born o s).added o' = past.added o' := by
    intro o' hne
    exact ⟨Function.update_of_ne hne .., Function.update_of_ne hne ..⟩
  refine ⟨typed', (sound.tracked.frame sound.typed frame hsame).close ?_,
    sound.tidy.frame sound.typed frame ?_, ?_, ?_, ?_⟩
  · intro s₂ st₂ rest₂ flags₂ proto₂ words₂ ho₂ hs₂ hst₂ hon
    rw [ho'] at ho₂
    cases ho₂
    rw [hs'] at hs₂
    rw [hst'] at hst₂
    cases hs₂
    cases hst₂
    obtain ⟨rfl, hcount⟩ := empty hon
    have hadded : (past.born o s).added o = [] := Function.update_self ..
    refine ⟨s, Function.update_self .., ?_⟩
    rw [hadded]
    refine ⟨⟨flags, proto, hs'⟩, (frame.counts hs).trans hcount, .nil, ?_, ?_, List.nodup_nil, ?_, ?_⟩
    · rw [frame.kept.hole]
      exact Filled.replicate h.hole 4
    · exact List.length_replicate.trans capacity_zero.symm
    · nofun
    · exact Nat.zero_le _
  · rintro _ proto₁ words₁ rfl record₁
    obtain ⟨-, -, rfl⟩ := record'.unique record₁
    exact distinct_replicate h.hole n
  · -- The new object is younger than its prototype, and nobody's prototype yet.
    obtain ⟨age, settled⟩ := sound.chained
    have hback : ∀ {v s' st' rest'}, IsValue T v →
        withObject T o s st (List.replicate n h.hole) rest v = some (.object s' st' rest') →
        v ≠ o ∧ ∃ s st rest, T v = some (.object s st rest) := by
      intro v s' st' rest' hv hobject
      have hne : v ≠ o := by
        rintro rfl
        rcases hv with hsmi | ⟨_, _, hcell⟩ | ⟨_, hcell⟩ | ⟨_, _, _, hcell⟩
        · rw [isSmi_of_cell typed'.laid hobject] at hsmi
          cases hsmi
        · exact ne_of_none free hcell rfl
        · exact ne_of_none free hcell rfl
        · exact ne_of_none free hcell rfl
      exact ⟨hne, _, _, _, (frame.same hne hobject).1⟩
    refine ⟨update age o (age proto + 1), fun o' => ?_⟩
    by_cases hoo : o' = o
    · subst hoo
      constructor
      · intro dense₁ proto₁ words₁ record₁
        obtain ⟨rfl, rfl, rfl⟩ := record'.unique record₁
        exact frame.isValue value
      · intro dense₁ proto₁ words₁ s₁ st₁ rest₁ record₁ hproto
        obtain ⟨rfl, rfl, rfl⟩ := record'.unique record₁
        rw [Function.update_self, Function.update_of_ne (hback value hproto).1]
        exact Nat.lt_succ_self _
      · intro proto₁ words₁ record₁
        obtain ⟨hdense, rfl, rfl⟩ := record'.unique record₁
        rw [frame.kept.null]
        exact flat hdense
      · intro s₁ st₁ code shape flags₁ proto₁ ho₁ hshape
        rw [ho'] at ho₁
        cases ho₁
        obtain ⟨flags₂, proto₂, hcell, hvalue⟩ := instances rfl
        have hcell' := frame.shapes hcell
        rw [hshape] at hcell'
        cases hcell'
        exact frame.isValue hvalue
    · refine (settled o').frame sound.typed frame hoo ?_
      intro v s' st' rest' hv hobject
      obtain ⟨hne, hold⟩ := hback hv hobject
      exact ⟨hold, Function.update_of_ne hne ..⟩
  · intro v hv
    rcases List.mem_cons.mp hv with rfl | hold
    · exact .inr (.inr (.inr ⟨s, st, rest, ho'⟩))
    · exact frame.isValue (sound.values hold)
  · intro v
    by_cases hvo : v = o
    · subst hvo
      have horigin : (past.born v s).origin v = some s := Function.update_self ..
      simp [ho', horigin]
    · have horigin : (past.born o s).origin v = past.origin v := Function.update_of_ne hvo ..
      rw [horigin, ← sound.born]
      constructor
      · rintro ⟨s', st', rest', hv⟩
        exact ⟨s', st', rest', (frame.same hvo hv).1⟩
      · rintro ⟨s', st', rest', hv⟩
        exact frame.objects hv

theorem withObject_record (apart : o ≠ st)
    (hs : withObject T o s st words rest s = some (.shape flags proto)) :
    HasRecord (withObject T o s st words rest) o (flags.contains .dense) proto words := by
  refine ⟨s, st, rest, flags, ?_, hs, Function.update_self .., rfl⟩
  unfold withObject
  rw [Function.update_of_ne apart, Function.update_self]

/-- An object without keys, of a shape that is the root of a path. -/
theorem allocObject_sound (sound : Sound h T past) (hs : T s = some (.shape .transition proto))
    (hcount : h.transitions.keyCount s = 0) (value : IsValue T proto)
    (run : allocObject s h = .ok o h') :
    ∃ T', Sound h' T' (past.born o s) ∧ Frame (· = o) h h' T T' ∧ T o = none ∧
      HasRecord T' o false proto (List.replicate 8 h.hole) ∧ ∃ st, T' o = some (.object s st []) := by
  obtain ⟨st, hnone, hstore, hne, hquiet, hlaid⟩ := allocObject_ok sound.typed.laid run
  obtain ⟨typed', frame'⟩ := object_typed sound.typed hnone hstore hne hquiet hlaid hs (by decide)
    (proper_of_transition sound.typed hs (by decide)) (fun _ => by simp) (.inl (by decide))
    (fun hfunction => absurd hfunction (by decide)) (fun _ => rfl)
  exact ⟨_, sound.birth typed' frame' hnone hne hs (fun _ => ⟨rfl, hcount⟩) value
    (fun hdense => absurd hdense (by decide)) nofun, frame', hnone,
    withObject_record hne (frame'.shapes hs), st, by rw [withObject, Function.update_of_ne hne, Function.update_self]⟩

theorem newObject_sound (sound : Sound h T past) (run : newObject h = .ok o h') :
    ∃ T', Sound h' T' (past.born o (h.rootShape .object)) ∧ Frame (· = o) h h' T T' ∧ T o = none ∧
      HasRecord T' o false h.null (List.replicate 8 h.hole) ∧
      ∃ st, T' o = some (.object (h.rootShape .object) st []) := by
  simp only [newObject, State.bind_eq_ok, State.get_eq_ok] at run
  obtain ⟨_, _, ⟨rfl, rfl⟩, run⟩ := run
  exact allocObject_sound sound (sound.typed.rootCell .object) (sound.typed.rootCount .object)
    sound.null_isValue run

/-- The roots of a heap are no cells. -/
theorem Sound.scopes (sound : Sound h T past) (scopes : Scopes) :
    Sound { h with scopes } T past ∧ Frame Nobody h { h with scopes } T T := by
  have hquiet : Quiet h { h with scopes } := ⟨⟨rfl, rfl, rfl, rfl, rfl, rfl⟩, rfl, rfl⟩
  have hframe : Frame Nobody h { h with scopes } T T :=
    ⟨hquiet.toKept, id, id, id, fun _ => rfl, id, id, fun ho => ⟨_, _, _, ho⟩, fun _ ho => ⟨ho, id⟩⟩
  exact ⟨sound.frame (sound.typed.congr hquiet (sound.typed.laid.congr rfl rfl rfl rfl rfl rfl)) hframe,
    hframe⟩

theorem Sound.root (sound : Sound h T past) {u : Unit} (run : root w h = .ok u h') :
    Sound h' T past ∧ Frame Nobody h h' T T := by
  obtain rfl := State.modify_eq_ok.mp run
  exact sound.scopes _

theorem newGlobal_sound (sound : Sound h T past) (run : newGlobal h = .ok o h') :
    ∃ T', Sound h' T' (past.born o (h.rootShape .global)) ∧ Frame (· = o) h h' T T' ∧ T o = none ∧
      HasRecord T' o false h.null (List.replicate 8 h.hole) := by
  simp only [newGlobal, State.bind_eq_ok, State.get_eq_ok, State.pure_eq_ok] at run
  obtain ⟨_, _, ⟨rfl, rfl⟩, global, h₁, allocated, _, h₂, rooted, rfl, rfl⟩ := run
  obtain ⟨T', sound', frame', hnone, record', -⟩ := allocObject_sound sound
    (sound.typed.rootCell .global) (sound.typed.rootCount .global) sound.null_isValue allocated
  obtain ⟨sound₂, frame₂⟩ := sound'.root rooted
  exact ⟨T', sound₂, frame'.trans (frame₂.mono fun _ => False.elim), hnone, record'⟩

theorem newArray_sound (sound : Sound h T past) {length : Nat} (small : length < 2 ^ 60)
    (run : newArray length h = .ok o h') :
    ∃ T', Sound h' T' (past.born o (h.rootShape .array)) ∧ Frame (· = o) h h' T T' ∧ T o = none ∧
      HasRecord T' o true h.null (List.replicate length h.hole) := by
  have hs := sound.typed.rootCell .array
  have hproper : ∀ kind ∈ storelessShapes, h.rootShape kind ≠ h.rootShape .array := by
    intro kind hkind hroot
    obtain rfl := sound.typed.root_inj hroot
    exact absurd hkind (by decide)
  obtain ⟨st, hnone, hstore, hne, hquiet, hlaid⟩ := newArray_ok sound.typed.laid small run
  obtain ⟨typed', frame'⟩ := object_typed sound.typed hnone hstore hne hquiet hlaid hs (by decide)
    hproper (fun hdense => absurd hdense (by decide)) (.inr (by decide))
    (fun hfunction => absurd hfunction (by decide)) (fun _ => rfl)
  exact ⟨_, sound.birth typed' frame' hnone hne hs (fun hon => absurd hon (by decide))
    sound.null_isValue (fun _ => rfl) nofun, frame', hnone,
    withObject_record hne (frame'.shapes hs)⟩

/-- A function without properties; its instances start from a shape that is the root of a path. -/
theorem allocBareFunction_sound (sound : Sound h T past) {code instances : Word}
    (hinstances : T instances = some (.shape .transition proto))
    (hcount : h.transitions.keyCount instances = 0) (value : IsValue T proto)
    (run : allocBareFunction code instances h = .ok o h') :
    ∃ T' st, Sound h' T' (past.born o (h.rootShape .function)) ∧ Frame (· = o) h h' T T' ∧
      T o = none ∧ T' o = some (.object (h.rootShape .function) st [code, instances]) ∧
      T' st = some (.store (List.replicate 8 h.hole)) := by
  have hs := sound.typed.rootCell .function
  obtain ⟨st, hnone, hstore, hne, hquiet, hlaid⟩ := allocBareFunction_ok sound.typed.laid run
  obtain ⟨typed', frame'⟩ := object_typed sound.typed hnone hstore hne hquiet hlaid hs (by decide)
    (proper_of_transition sound.typed hs (by decide)) (fun _ => by simp) (.inl (by decide))
    (fun _ => ⟨code, instances, proto, rfl, hinstances, hcount⟩)
    (fun hplain => absurd hplain (by decide))
  have hcell : ∀ {code' shape}, [code, instances] = [code', shape] → ∃ flags' proto',
      T shape = some (.shape flags' proto') ∧ IsValue T proto' := by
    intro code' shape hrest
    cases hrest
    exact ⟨_, _, hinstances, value⟩
  refine ⟨_, st, sound.birth typed' frame' hnone hne hs
    (fun _ => ⟨rfl, sound.typed.rootCount .function⟩) sound.null_isValue
    (fun hdense => absurd hdense (by decide)) hcell, frame', hnone, ?_, Function.update_self ..⟩
  unfold withObject
  rw [Function.update_of_ne hne, Function.update_self]

theorem allocBuiltinFunction_sound (sound : Sound h T past) {code : Word}
    (run : allocBuiltinFunction code h = .ok o h') :
    ∃ T' st, Sound h' T' (past.born o (h.rootShape .function)) ∧ Frame (· = o) h h' T T' ∧
      T o = none ∧
      T' o = some (.object (h.rootShape .function) st [code, h.rootShape .object]) ∧
      T' st = some (.store (List.replicate 8 h.hole)) := by
  simp only [allocBuiltinFunction, State.bind_eq_ok, State.get_eq_ok, State.pure_eq_ok] at run
  obtain ⟨_, _, ⟨rfl, rfl⟩, function, h₁, allocated, _, h₂, rooted, rfl, rfl⟩ := run
  obtain ⟨T', st, sound', frame', hnone, ho', hst'⟩ := allocBareFunction_sound sound
    (sound.typed.rootCell .object) (sound.typed.rootCount .object) sound.null_isValue allocated
  obtain ⟨sound₂, frame₂⟩ := sound'.root rooted
  exact ⟨T', st, sound₂, frame'.trans (frame₂.mono fun _ => False.elim), hnone, ho', hst'⟩

/-- The shape of a function's instances is the root of a path. -/
theorem allocInstance_sound (sound : Sound h T past) {function : Word}
    (known : past.Known function) (found : h.instanceShape function = .ok s)
    (run : allocObject s h = .ok o h') :
    ∃ T' proto, Sound h' T' (past.born o s) ∧ Frame (· = o) h h' T T' ∧ T o = none ∧
      IsValue T proto ∧ HasRecord T' o false proto (List.replicate 8 h.hole) := by
  unfold instanceShape at found
  split at found
  · rename_i callable
    obtain ⟨s', st, rest, hf⟩ := sound.typed.object_of_isFunction (sound.isValue known) callable
    obtain ⟨flags, proto, words, formed⟩ := sound.typed.formed hf
    have hfunction : flags.contains .function = true := by
      rw [← sound.typed.hasFlag_object hf formed.shape .function]
      exact callable
    obtain ⟨code, instances, proto', rfl, hcell, hcount⟩ := formed.function hfunction
    have hread : h.read function Layout.Function.instanceShape = instances :=
      sound.typed.laid.read (i := 3) hf rfl
    rw [hread] at found
    cases found
    obtain ⟨age, settled⟩ := sound.chained
    have hvalue := (settled function).instances hf hcell
    obtain ⟨T', sound', frame', hnone, record', -⟩ := allocObject_sound sound hcell hcount hvalue run
    exact ⟨T', proto', sound', frame', hnone, hvalue, record'⟩
  · cases found

/-! ### Functions with a prototype -/

/-- A string is stored under itself. -/
theorem propertyKey_text (typed : Typed h T) {text : String} (hkey : T key = some (.text text)) :
    propertyKey o key h = .ok key h := by
  have hsmi := isSmi_of_cell typed.laid hkey
  have htext := text?_text typed.laid hkey
  simp only [propertyKey, State.bind_eq_ok, State.get_eq_ok]
  refine ⟨h, h, ⟨rfl, rfl⟩, ?_⟩
  rw [hsmi, htext]
  rfl

/-- The first key of an object that has none yet. -/
theorem update_of_empty (typed : Typed h T) {text : String} {n : Nat}
    (ho : T o = some (.object s st rest)) (hs : T s = some (.shape flags proto))
    (hst : T st = some (.store (List.replicate n h.hole))) (hdense : flags.contains .dense = false)
    (hkey : T key = some (.text text)) : past.update h o key = past.add o key := by
  rw [update_eq typed (propertyKey_text typed hkey) ho, if_pos]
  refine ⟨(isDense_object typed ho hs).trans hdense, ?_⟩
  rw [ownSlot?_keyed typed ho hs hst hdense, List.find?_range_eq_none]
  intro i _
  have hne : h.hole ≠ key := (ne_hole_of_interned typed ⟨text, typed.interned.mpr hkey⟩).symm
  rw [List.getElem?_replicate]
  split <;> simp [hne]

/-- The instances of a function have the object that was last assigned as their prototype. -/
theorem prototypeOf_eq {v code instances : Word} (typed' : Typed h' T')
    (frame : Frame (· = o) h h' T T')
    (ho : T o = some (.object s st [code, instances]))
    (hinstances : T instances = some (.shape .transition v)) {s' st' : Word} {rest' : List Word}
    (hv : T v = some (.object s' st' rest')) (refreshed : Refreshed T T' o v) :
    h'.prototypeOf o = v := by
  obtain ⟨s₁, st₁, code₁, instances₁, ho₁, hcell⟩ : ∃ s₁ st₁ code₁ instances₁,
      T' o = some (.object s₁ st₁ [code₁, instances₁]) ∧
        T' instances₁ = some (.shape .transition v) := by
    rcases refreshed with hrest | ⟨code₁, instances₁, target, -, ⟨s₁, st₁, ho₁⟩, hcell, htarget, -⟩
    · obtain ⟨s₁, st₁, ho₁⟩ := hrest s st _ ho
      exact ⟨s₁, st₁, code, instances, ho₁, frame.shapes hinstances⟩
    · obtain rfl := htarget hv
      exact ⟨s₁, st₁, code₁, instances₁, ho₁, hcell⟩
  have hread : h'.read o Layout.Function.instanceShape = instances₁ :=
    typed'.laid.read (i := 3) ho₁ rfl
  unfold prototypeOf
  rw [hread]
  exact shapeProto_shape typed'.laid hcell

theorem allocFunction_sound (sound : Sound h T past) {code : Word}
    (run : allocFunction code h = .ok o h') :
    ∃ T', Sound h' T' (past.bornFunction h h' o) ∧ Frame (Touched T o) h h' T T' ∧
      ∃ s st instances, T' o = some (.object s st [code, instances]) := by
  simp only [allocFunction, State.bind_eq_ok, State.pure_eq_ok] at run
  obtain ⟨proto, h₁, made, instances, h₂, allocated, function, h₃, bare, key, h₄, named, _, h₅,
    assigned, rfl, rfl⟩ := run
  obtain ⟨T₁, sound₁, frame₁, hfresh₁, -⟩ := newObject_sound sound made
  have hmade : (past.born proto (h.rootShape .object)).origin proto ≠ none := by
    simp [Past.born]
  obtain ⟨s, st, rest, hproto₁⟩ := sound₁.born.mpr hmade
  -- The shape of the instances, to which no transition leads.
  obtain ⟨hnone, hlaid₂, hquiet₂⟩ := allocShape_ok sound₁.typed.laid allocated
  obtain ⟨sound₂, frame₂⟩ :=
    sound₁.fresh hlaid₂ hquiet₂ hnone (by decide : (8 : Nat) < 16) (fun _ => nofun)
  have hproto₂ := update_of_none (d := .shape .transition proto) hnone hproto₁
  have hcount₂ : h₂.transitions.keyCount instances = 0 := by
    rw [hquiet₂.transitions]
    exact sound₁.typed.keyCount_of_none hnone
  obtain ⟨T₃, st₃, sound₃, frame₃, hfresh₃, hfunction₃, hst₃⟩ :=
    allocBareFunction_sound sound₂ (Function.update_self ..) hcount₂
      (.inr (.inr (.inr ⟨_, _, _, hproto₂⟩))) bare
  obtain ⟨s₃, st₃', rest₃, hproto₃⟩ := frame₃.objects hproto₂
  obtain ⟨T₄, sound₄, frame₄, hkey⟩ := string_sound sound₃ (by decide) named
  have hsame : ∀ {o s st rest}, T₃ o = some (.object s st rest) →
      T₄ o = some (.object s st rest) ∧
        ∀ {words}, T₃ st = some (.store words) → T₄ st = some (.store words) := by
    intro o s st rest ho
    obtain ⟨s', st', rest', ho'⟩ := frame₄.objects ho
    obtain ⟨hold, hstore⟩ := frame₄.same id ho'
    rw [ho] at hold
    cases hold
    exact ⟨ho', hstore⟩
  obtain ⟨hfunction₄, hstore₄⟩ := hsame hfunction₃
  have hproto₄ := (hsame hproto₃).1
  have hroot₄ : T₄ (h₂.rootShape .function) = some (.shape (RootShape.flags .function) h₄.null) := by
    have hroot := sound₄.typed.rootCell .function
    rw [frame₄.kept.rootShape, frame₃.kept.rootShape] at hroot
    exact hroot
  have hholes := hstore₄ hst₃
  rw [← frame₃.kept.hole, ← frame₄.kept.hole] at hholes
  obtain ⟨own, _, _, result, T₅, -, -, -, -, typed₅, frame₅, tracked₅, ⟨hrefreshed, -, -⟩, hrevised⟩ :=
    setProperty_ok sound₄.typed sound₄.tracked sound₄.tidy hfunction₄ (.inr (.inr (.inl ⟨_, hkey⟩)))
      assigned
  rw [update_of_empty sound₄.typed hfunction₄ hroot₄ hholes (by decide) hkey] at tracked₅
  have hprototype : h₅.prototypeOf function = proto :=
    prototypeOf_eq typed₅ frame₅ hfunction₄ (frame₄.shapes (frame₃.shapes (Function.update_self ..)))
      hproto₄ hrefreshed
  have hname : h₅.strings.getD "prototype" default = key := by
    have hfound := frame₅.strings (sound₄.typed.interned.mpr hkey)
    rw [Std.TreeMap.getD_eq_getD_getElem?, hfound]
    rfl
  have hroots : h₂.rootShape = h.rootShape := hquiet₂.rootShape.trans frame₁.kept.rootShape
  rw [hroots] at sound₄ tracked₅
  -- Both objects are new.
  have hproto : ∀ v, v = proto → Touched T function v := by
    rintro v rfl
    exact .inr fun ⟨_, _, _, hv⟩ => ne_of_none hfresh₁ hv rfl
  have hfunction : ∀ v, v = function → Touched T function v := fun _ => .inl
  have hframe : Frame (Touched T function) h h₅ T T₅ :=
    ((((frame₁.mono hproto).trans (frame₂.mono fun _ => False.elim)).trans
      (frame₃.mono hfunction)).trans (frame₄.mono fun _ => False.elim)).trans (frame₅.mono hfunction)
  obtain ⟨s₅, st₅, instances₅, hfunction₅⟩ :=
    hrefreshed.code hfunction₄
  unfold Past.bornFunction
  rw [hprototype, hname]
  exact ⟨T₅, sound₄.step hfunction₄ typed₅ frame₅ tracked₅ hrevised (fun hset => hset.alike.distinct rfl)
    hrefreshed (.inr (.inr (.inr ⟨_, _, _, hproto₄⟩))) rfl rfl, hframe, s₅, st₅, instances₅, hfunction₅⟩

/-! ### Properties -/

theorem update_values (past : Past) (h : Heap) (o key : Word) :
    (past.update h o key).values = past.values ∧ (past.update h o key).origin = past.origin := by
  unfold Past.update
  split
  · exact ⟨rfl, rfl⟩
  · exact ⟨rfl, rfl⟩

/-- Nothing is added to a value without storage. -/
theorem update_of_storeless (typed : Typed h T) (value : IsValue T o) (valueKey : IsValue T key)
    (storeless : h.isObject o = false) : past.update h o key = past := by
  unfold Past.update addedKey?
  cases hkeyed : propertyKey o key h with
  | error => rfl
  | ok own h₁ =>
    obtain ⟨T₁, typed₁, frame₁, -, -⟩ := propertyKey_ok typed valueKey hkeyed
    have hobject : h₁.isObject o = false := by
      by_contra hobject
      obtain ⟨s, st, rest, ho⟩ :=
        typed₁.object_of_isObject (frame₁.isValue value) (by simpa using hobject)
      rw [typed.isObject_object (frame₁.same id ho).1] at storeless
      cases storeless
    simp [hobject]

theorem setProperty_sound (sound : Sound h T past) (known : past.Known o) (knownKey : past.Known key)
    {v : Word} (knownValue : past.Known v) {u : Unit} (run : setProperty o key v h = .ok u h') :
    ∃ T', Sound h' T' (past.update h o key) ∧ Frame (· = o) h h' T T' := by
  have hvalue := sound.isValue known
  have hkey := sound.isValue knownKey
  cases hobject : h.isObject o with
  | false =>
    obtain rfl := setProperty_storeless hobject run
    rw [update_of_storeless sound.typed hvalue hkey hobject]
    exact ⟨T, sound, Frame.refl ..⟩
  | true =>
    obtain ⟨s, st, rest, ho⟩ := sound.typed.object_of_isObject hvalue hobject
    obtain ⟨own, _, _, result, T', -, -, -, -, typed', frame', tracked', ⟨hrefreshed, -, -⟩, hrevised⟩ :=
      setProperty_ok sound.typed sound.tracked sound.tidy ho hkey run
    obtain ⟨hvalues, horigin⟩ := update_values past h o key
    exact ⟨T', sound.step ho typed' frame' tracked' hrevised (fun hset => hset.alike.distinct rfl)
      hrefreshed (sound.isValue knownValue) hvalues horigin, frame'⟩

theorem lookupSlot_sound (sound : Sound h T past) (known : past.Known o) (knownKey : past.Known key)
    {up : Bool} {slot : Option Nat} (run : lookupSlot o key up h = .ok slot h') :
    ∃ T', Sound h' T' (if up then past.update h o key else past) ∧ Frame (· = o) h h' T T' := by
  have hvalue := sound.isValue known
  have hkey := sound.isValue knownKey
  cases hobject : h.isObject o with
  | false =>
    obtain ⟨-, rfl⟩ := lookupSlot_storeless hobject run
    rw [update_of_storeless sound.typed hvalue hkey hobject, ite_self]
    exact ⟨T, sound, Frame.refl ..⟩
  | true =>
    obtain ⟨s, st, rest, ho⟩ := sound.typed.object_of_isObject hvalue hobject
    obtain ⟨own, _, T', -, -, typed', frame', tracked', hrest, hrevised⟩ :=
      lookupSlot_ok sound.typed sound.tracked sound.tidy ho hkey run
    obtain ⟨hvalues, horigin⟩ := update_values past h o key
    refine ⟨T', sound.step ho typed' frame' tracked' hrevised
      (fun hlooked => hlooked.alike.distinct rfl) (.inl hrest) hvalue ?_ ?_, frame'⟩
    · split
      · exact hvalues
      · rfl
    · split
      · exact horigin
      · rfl

theorem deleteProperty_sound (sound : Sound h T past) (known : past.Known o)
    (knownKey : past.Known key) {gone : Bool} (run : deleteProperty o key h = .ok gone h') :
    ∃ T', Sound h' T' past ∧ Frame (· = o) h h' T T' := by
  cases hobject : h.isObject o with
  | false =>
    obtain rfl := deleteProperty_storeless hobject run
    exact ⟨T, sound, Frame.refl ..⟩
  | true =>
    obtain ⟨s, st, rest, ho⟩ := sound.typed.object_of_isObject (sound.isValue known) hobject
    obtain ⟨own, _, T', -, -, typed', frame', tracked', hrest, hrevised⟩ :=
      deleteProperty_ok sound.typed sound.tracked sound.tidy ho (sound.isValue knownKey) run
    exact ⟨T', sound.step ho typed' frame' tracked' hrevised (fun hgone => hgone.alike.distinct rfl)
      (.inl hrest) (sound.isValue known) rfl rfl, frame'⟩

/-! ### Lookups -/

theorem propertyKey_sound (sound : Sound h T past) (known : past.Known key) {own : Word}
    (run : propertyKey o key h = .ok own h') :
    ∃ T', Sound h' T' (past.give own) ∧ Frame Nobody h h' T T' := by
  obtain ⟨T', typed', frame', -, hkey⟩ := propertyKey_ok sound.typed (sound.isValue known) run
  refine ⟨T', (sound.frame typed' frame').give ?_, frame'⟩
  rcases hkey with ⟨hsmi, -⟩ | ⟨text, htext⟩
  · exact .inl hsmi
  · exact .inr (.inr (.inl ⟨text, typed'.interned.mp htext⟩))

/-- A lookup does no more than bring the key into its form for each object that it passes. -/
theorem lookupChain_frame (typed : Typed h T) (value : IsValue T key) {v : Word} {fuel : Nat}
    (run : lookupChain key fuel o h = .ok v h') :
    ∃ T', Typed h' T' ∧ Frame Nobody h h' T T' := by
  induction fuel generalizing h T o with
  | zero =>
    simp only [lookupChain, State.bind_eq_ok, State.get_eq_ok, State.pure_eq_ok] at run
    obtain ⟨_, _, ⟨rfl, rfl⟩, -, rfl⟩ := run
    exact ⟨T, typed, Frame.refl ..⟩
  | succ fuel ih =>
    rw [lookupChain, State.get_bind] at run
    split at run
    · simp only [State.bind_eq_ok, State.get_eq_ok, State.pure_eq_ok] at run
      obtain ⟨_, _, ⟨rfl, rfl⟩, -, rfl⟩ := run
      exact ⟨T, typed, Frame.refl ..⟩
    · obtain ⟨own, h₁, keyed, run⟩ := State.bind_eq_ok.mp run
      rw [State.get_bind] at run
      obtain ⟨T₁, typed₁, frame₁, -, -⟩ := propertyKey_ok typed value keyed
      have hrest : ∀ {next}, lookupChain key fuel next h₁ = .ok v h' →
          ∃ T', Typed h' T' ∧ Frame Nobody h h' T T' := by
        intro next hnext
        obtain ⟨T', typed', frame'⟩ := ih typed₁ (frame₁.isValue value) hnext
        exact ⟨T', typed', frame₁.trans frame'⟩
      cases hfound : (h₁.ownSlot? o own).map (h₁.readSlot o) with
      | none =>
        simp only [hfound] at run
        exact hrest run
      | some value =>
        simp only [hfound] at run
        split at run
        · obtain ⟨-, rfl⟩ := State.pure_eq_ok.mp run
          exact ⟨T₁, typed₁, frame₁⟩
        · exact hrest run

theorem getProperty_frame (typed : Typed h T) (value : IsValue T key) {v : Word}
    (run : getProperty o key h = .ok v h') : ∃ T', Typed h' T' ∧ Frame Nobody h h' T T' := by
  rw [getProperty, State.get_bind] at run
  cases htext : h.text? o with
  | none =>
    simp only [htext] at run
    exact lookupChain_frame typed value run
  | some text =>
    simp only [htext] at run
    split at run
    · obtain ⟨-, rfl⟩ := State.pure_eq_ok.mp run
      exact ⟨T, typed, Frame.refl ..⟩
    · exact lookupChain_frame typed value run

theorem instanceOf_frame (typed : Typed h T) {result : Option Bool}
    (run : instanceOf o w h = .ok result h') : ∃ T', Typed h' T' ∧ Frame Nobody h h' T T' := by
  rw [instanceOf, State.get_bind] at run
  split at run
  · obtain ⟨-, rfl⟩ := State.pure_eq_ok.mp run
    exact ⟨T, typed, Frame.refl ..⟩
  · simp only [State.bind_eq_ok] at run
    obtain ⟨key, h₁, named, proto, h₂, looked, _, h₃, got, run⟩ := run
    obtain ⟨rfl, rfl⟩ := State.get_eq_ok.mp got
    obtain ⟨T₁, typed₁, frame₁, -, hkey⟩ := string_typed typed (by decide) named
    obtain ⟨T₂, typed₂, frame₂⟩ := getProperty_frame typed₁
      (.inr (.inr (.inl ⟨_, typed₁.interned.mp hkey⟩))) looked
    have hend : h₂ = h' := by
      split at run
      · exact (State.pure_eq_ok.mp run).2
      · exact (State.pure_eq_ok.mp run).2
    subst hend
    exact ⟨T₂, typed₂, frame₁.trans frame₂⟩

end ScriptEngine.Heap
