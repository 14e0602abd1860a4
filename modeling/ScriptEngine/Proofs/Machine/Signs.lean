import ScriptEngine.Proofs.Heap.Interning
import ScriptEngine.Proofs.Machine.Coercions
import ScriptEngine.Proofs.Machine.Operators
import ScriptEngine.Proofs.Number.Whole

/-!
Stubs for the negative and for products. Small integers have no zero with a sign: where the host boxes one, the
stub answers the zero without it. Elsewhere the two answers are the same word.
-/

namespace ScriptEngine

open State

namespace Heap

/-- Two values look the same, each in its heap. -/
def LooksAlike (h : Heap) (w : Word) (h' : Heap) (w' : Word) : Prop :=
  h.inspect w = h'.inspect w' ∧ h.display w = h'.display w'

variable {h h' : Heap} {T : Contents} {past : Past} {w : Word} {x : Double} {n : Bool} {m : Nat}

theorem inspect_smi (h : Heap) {a : Int} (hlow : Word.smiMin ≤ a) (hhigh : a ≤ Word.smiMax) :
    h.inspect (.smi a) = .int a := by
  unfold inspect
  rw [Word.toSmi?_smi hlow hhigh]

/-- A box with a number is shown as that number. -/
theorem Typed.inspect_number (typed : Typed h T) {bits : Word} (hw : T w = some (.leaf .number [bits])) :
    h.inspect w = .number ⟨bits.bits⟩ := by
  have hother : w ∉ [h.undefined, h.null, h.hole, h.trueValue, h.falseValue] := by
    obtain ⟨_, hundefined⟩ := typed.oddballs.undefined
    obtain ⟨_, hnull⟩ := typed.null
    obtain ⟨_, hhole⟩ := typed.hole
    obtain ⟨_, htrue⟩ := typed.oddballs.trueValue
    obtain ⟨_, hfalse⟩ := typed.oddballs.falseValue
    intro hmem
    simp only [List.mem_cons, List.not_mem_nil, or_false] at hmem
    rcases hmem with rfl | rfl | rfl | rfl | rfl <;> simp_all
  simp only [List.mem_cons, List.not_mem_nil, or_false, not_or] at hother
  obtain ⟨hundefined, hnull, hhole, htrue, hfalse⟩ := hother
  have htext : h.text? w = none := by
    refine Option.eq_none_iff_forall_ne_some.mpr fun text htext => ?_
    have hcell := typed.interned.mp ((typed.text?_iff (.inr (.inl ⟨_, _, hw⟩))).mp htext)
    rw [hw] at hcell
    cases hcell
  rw [inspect_of_pointer (toSmi?_of_cell typed.laid hw), if_neg hundefined, if_neg hnull, if_neg hhole,
    if_neg htrue, if_neg hfalse, inspectCell, htext, typed.double?_leaf hw]
  rfl

theorem isSmi_of_boxed (laid : Laid h T) (boxed : smiOfDouble? x = none) (run : number x h = .ok w h') :
    w.isSmi = false := by
  simp only [number, boxed, bind_eq_ok, get_eq_ok, pure_eq_ok] at run
  obtain ⟨_, _, ⟨rfl, rfl⟩, value, h₁, allocated, _, _, _, rfl, rfl⟩ := run
  obtain ⟨rest, -, -, laid', -⟩ := allocYoung_ok laid (by decide) (by decide) allocated
  exact isSmi_of_cell laid' (Function.update_self ..)

/-- A whole number in the heap, of which a small integer can only lose the sign of zero. -/
theorem number_alike (sound : Sound h T past) (hx : x.Whole n m) (hm : m < 2 ^ 53)
    (run : number x h = .ok w h') (k : Heap) :
    (m = 0 ∧ n = true → h'.inspect w = .number (.zero true)) ∧
      (LooksAlike k (.smi (if n then -(m : Int) else m)) h' w ↔ ¬ (m = 0 ∧ n = true)) := by
  have hsmi := smiOfDouble_whole hx hm
  have hlow : Word.smiMin ≤ if n then -(m : Int) else m := by
    unfold Word.smiMin
    split <;> omega
  have hhigh : (if n then -(m : Int) else m) ≤ Word.smiMax := by
    unfold Word.smiMax
    split <;> omega
  by_cases hlost : m = 0 ∧ n = true
  · rw [if_pos hlost] at hsmi
    obtain ⟨T', sound', -, hw⟩ := number_sound sound run
    obtain ⟨rfl, rfl⟩ := hlost
    rw [hx.eq_zero] at hw hsmi run
    have hsmall : ¬ w.isSmi = true := by rw [isSmi_of_boxed sound.typed.laid hsmi run]; exact Bool.false_ne_true
    have hbox := sound'.typed.inspect_number (hw.resolve_left hsmall)
    refine ⟨fun _ => hbox, fun halike => ?_, fun hne => absurd ⟨rfl, rfl⟩ hne⟩
    have hzero := halike.1
    rw [k.inspect_smi hlow hhigh, hbox] at hzero
    cases hzero
  · rw [if_neg hlost] at hsmi
    simp only [number, hsmi, pure_eq_ok] at run
    obtain ⟨rfl, rfl⟩ := run
    refine ⟨fun h => absurd h hlost, fun _ => hlost, fun _ => ?_⟩
    have hsame : k.inspect (.smi _) = h.inspect (.smi _) := (k.inspect_smi hlow hhigh).trans (h.inspect_smi hlow hhigh).symm
    exact ⟨hsame, congrArg View.display hsame⟩

end Heap

namespace Engine

open Machine (argumentAt callFunction enter maxJumps)

variable {e t : Engine} {T : Contents} {s : Stub}

/-- A stub answers a small integer at once. It looks like the answer of the host, unless a zero loses its sign. -/
def AlikeUnless (e : Engine) (name : String) (operands : List Int) (result : Int) (lost : Prop) : Prop :=
  ∀ s, e.stubs.compiled? name = some s → ∀ depth (self : Activation),
    (∀ (k : Nat) a, operands[k]? = some a → argumentAt self.args k = .smi a) → ∃ t,
      callFunction (enter (depth + 1)) s.function self e = .ok (.smi result) t ∧ t.heap = e.heap ∧
      (¬ lost → callback name (operands.map .smi) e = .ok (.smi result) e) ∧
      ∀ w u, callback name (operands.map .smi) e = .ok w u →
        (lost → u.heap.inspect w = .number (.zero true)) ∧ (t.heap.LooksAlike (.smi result) u.heap w ↔ ¬ lost)

/-- What the stub answers at once is compared with what the host makes of a whole number. -/
theorem Stocked.alike_unless (stocked : Stocked T e) {name : String} {operands : List Int} {x : Double} {n : Bool} {m : Nat}
    (hx : x.Whole n m) (hm : m < 2 ^ 53)
    (hcallback : callback name (operands.map .smi) e = heapStep (Heap.number x) e)
    (hanswers : ∀ s, e.stubs.compiled? name = some s → ∀ depth (self : Activation),
      (∀ (k : Nat) a, operands[k]? = some a → argumentAt self.args k = .smi a) →
      callFunction (enter (depth + 1)) s.function self e = .ok (.smi (if n then -(m : Int) else m)) e.entered) :
    AlikeUnless e name operands (if n then -(m : Int) else m) (m = 0 ∧ n = true) := by
  intro s hs depth self hself
  obtain ⟨past, sound⟩ := stocked.sound
  refine ⟨e.entered, hanswers s hs depth self hself, (noted_entered e).heap_eq, fun hkept => ?_, fun w u hrun => ?_⟩
  · have hsmi := Heap.smiOfDouble_whole hx hm
    rw [if_neg hkept] at hsmi
    have hnumber : Heap.number x e.heap = .ok (.smi (if n then -(m : Int) else m)) e.heap := by
      unfold Heap.number
      rw [hsmi]
      rfl
    exact hcallback.trans (onHeap_eq_ok.mpr ⟨_, hnumber, rfl⟩)
  · rw [hcallback] at hrun
    obtain ⟨heap, hnumber, rfl⟩ := onHeap_eq_ok.mp hrun
    exact Heap.number_alike sound hx hm hnumber e.entered.heap

/-- A call of a stub, by what its program does. -/
theorem Shelved.program_runs (shelved : Shelved T e) (calm : e.Calm) {name : String} {body : BuildM Unit}
    (hs : e.stubs.compiled? name = some s) (hmem : (name, .body body) ∈ StubLibrary.standardSources) :
    ∃ p e₀, Generated name body p e₀ ∧ ∀ depth self, callFunction (enter (depth + 1)) s.function self e =
      Machine.runFrom (enter depth) p self maxJumps ⟨0⟩ ∅ e.entered := by
  obtain ⟨r, ⟨_, _, code, more, hf, entry, rest, hcode, hr⟩, p, e₀, rfl, htrap, hgenerated, -⟩ := shelved.source hs hmem
  exact ⟨p, e₀, hgenerated, fun depth self => by
    rw [callFunction_eq shelved.laid hf hcode, enter_program calm hr htrap]⟩

theorem bounds_of_natAbs {a : Int} (h : a.natAbs < 2 ^ 53) : Word.smiMin < a ∧ a ≤ Word.smiMax := by
  unfold Word.smiMin Word.smiMax
  omega

theorem toDouble_smi (h : Heap) {a : Int} (ha : a.natAbs < 2 ^ 53) : h.toDouble (.smi a) = .ofInt a := by
  obtain ⟨hlow, hhigh⟩ := bounds_of_natAbs ha
  unfold Heap.toDouble Heap.double?
  rw [Word.toSmi?_smi hlow.le hhigh]

theorem Stocked.negative_alike (stocked : Stocked T e) (calm : e.Calm) {a : Int} (ha : a.natAbs < 2 ^ 53) :
    AlikeUnless e "unary/-" [a] (-a) (a = 0) := by
  have hresult : (if (!decide (a < 0)) = true then -(a.natAbs : Int) else a.natAbs) = -a := by
    by_cases hneg : a < 0
    · simp only [hneg, decide_true, Bool.not_true, Bool.false_eq_true, if_false]
      omega
    · simp only [hneg, decide_false, Bool.not_false, if_true]
      omega
  have hlost : (a.natAbs = 0 ∧ (!decide (a < 0)) = true) = (a = 0) :=
    propext ⟨fun h => Int.natAbs_eq_zero.mp h.1, fun h => by subst h; decide⟩
  have hcallback : callback "unary/-" [.smi a] e = heapStep (Heap.number (Double.ofInt a).neg) e := by
    rw [← toDouble_smi e.heap ha]
    rfl
  rw [← hresult, ← hlost]
  refine stocked.alike_unless (Double.whole_ofInt ha).neg ha hcallback fun s hs depth self hself => ?_
  have hsource : ("unary/-", .body Stub.negateBody) ∈ StubLibrary.standardSources := by
    simp [StubLibrary.standardSources]
  obtain ⟨p, e₀, hgenerated, hruns⟩ := stocked.program_runs calm hs hsource
  obtain ⟨_, _, _, _, hanswer⟩ := negate_exact hgenerated
  obtain ⟨hlow, hhigh⟩ := bounds_of_natAbs ha
  obtain ⟨jumps, hjumps⟩ : ∃ jumps, maxJumps = jumps + 3 := exists_maxJumps (by decide)
  rw [hruns, hjumps, hanswer ⟨hlow.le, hhigh⟩ jumps (hself 0 a rfl), if_neg hlow.ne', hresult]
  rfl

theorem signed_natAbs_mul (a b : Int) :
    (if decide (¬ (a < 0 ↔ b < 0)) = true then -((a * b).natAbs : Int) else (a * b).natAbs) = a * b := by
  split
  case isTrue hdiffer =>
    rw [decide_eq_true_eq] at hdiffer
    have hnonpos : a * b ≤ 0 := by
      rcases lt_or_ge a 0 with hna | hna
      · exact mul_nonpos_of_nonpos_of_nonneg hna.le (by omega)
      · exact mul_nonpos_of_nonneg_of_nonpos hna (by omega)
    omega
  case isFalse hsame =>
    rw [decide_eq_true_eq, not_not] at hsame
    have hnonneg : 0 ≤ a * b := by
      rcases lt_or_ge a 0 with hna | hna
      · exact mul_nonneg_of_nonpos_of_nonpos hna.le (by omega)
      · exact mul_nonneg hna (by omega)
    omega

theorem Stocked.product_alike (stocked : Stocked T e) (calm : e.Calm) {a b : Int} (ha : a.natAbs < 2 ^ 53)
    (hb : b.natAbs < 2 ^ 53) (hab : (a * b).natAbs < 2 ^ 53) :
    AlikeUnless e "binary/*" [a, b] (a * b) (a * b = 0 ∧ ¬ (a < 0 ↔ b < 0)) := by
  have hproduct : a.natAbs * b.natAbs = (a * b).natAbs := (Int.natAbs_mul a b).symm
  have hsigns : (decide (a < 0) != decide (b < 0)) = decide (¬ (a < 0 ↔ b < 0)) := by
    by_cases hna : a < 0 <;> by_cases hnb : b < 0 <;> simp [hna, hnb]
  have hx := (Double.whole_ofInt ha).mul (Double.whole_ofInt hb) (hproduct ▸ hab)
  rw [hproduct, hsigns] at hx
  have hresult := signed_natAbs_mul a b
  have hlost : ((a * b).natAbs = 0 ∧ decide (¬ (a < 0 ↔ b < 0)) = true) = (a * b = 0 ∧ ¬ (a < 0 ↔ b < 0)) := by
    rw [Int.natAbs_eq_zero, decide_eq_true_eq]
  have hcallback : callback "binary/*" ([a, b].map .smi) e =
      heapStep (Heap.number ((Double.ofInt a).mul (.ofInt b))) e := by
    rw [← toDouble_smi e.heap ha, ← toDouble_smi e.heap hb]
    rfl
  have halike := stocked.alike_unless hx hab hcallback
  rw [hresult, hlost] at halike
  refine halike fun s hs depth self hself => ?_
  have hmul : BinaryOp.mul ∈ BinaryOp.all := by decide
  have hsource : (Stub.binaryName .mul, .body (Stub.binaryBody .mul)) ∈ StubLibrary.standardSources :=
    List.mem_append_left _ (List.mem_append_right _ (List.mem_map_of_mem hmul))
  obtain ⟨p, e₀, hgenerated, hruns⟩ := stocked.program_runs calm hs hsource
  have hname : (PrimOp.mul, Stub.binaryName .mul) ∈
      [(.add, Stub.binaryName .add), (.sub, Stub.binaryName .sub), (.mul, Stub.binaryName .mul)] :=
    .tail _ (.tail _ (.head _))
  obtain ⟨_, _, _, _, hanswer⟩ := arithmetic_exact hname hgenerated
  obtain ⟨hlow, hhigh⟩ := bounds_of_natAbs ha
  obtain ⟨hlow', hhigh'⟩ := bounds_of_natAbs hb
  obtain ⟨hlow'', hhigh''⟩ := bounds_of_natAbs hab
  obtain ⟨jumps, hjumps⟩ : ∃ jumps, maxJumps = jumps + 4 := exists_maxJumps (by decide)
  rw [hruns, hjumps, hanswer ⟨hlow.le, hhigh⟩ ⟨hlow'.le, hhigh'⟩ jumps (hself 0 a rfl) (hself 1 b rfl),
    show exact .mul a b = a * b from rfl, Word.ofSmi?, if_pos ⟨hlow''.le, hhigh''⟩]
  rfl

/-- The stubs answer as the host does, but for the sign of a zero. -/
structure KeepsSigns (e : Engine) : Prop where
  negative : ∀ a : Int, a.natAbs < 2 ^ 53 → AlikeUnless e "unary/-" [a] (-a) (a = 0)
  product : ∀ a b : Int, a.natAbs < 2 ^ 53 → b.natAbs < 2 ^ 53 → (a * b).natAbs < 2 ^ 53 →
    AlikeUnless e "binary/*" [a, b] (a * b) (a * b = 0 ∧ ¬ (a < 0 ↔ b < 0))

theorem signs_kept (stocked : Stocked T e) (calm : e.Calm) : KeepsSigns e where
  negative _ ha := stocked.negative_alike calm ha
  product _ _ ha hb hab := stocked.product_alike calm ha hb hab

/-- The two operators of a new engine. -/
theorem signs_kept_supplied : ∃ (T : Contents) (e : Engine) (s : Stub), supplied {} ["unary/-", "binary/*"] = some e ∧
    Stocked T e ∧ e.stubs.compiled? "unary/-" = some s ∧ KeepsSigns e := by
  obtain ⟨e, he, hall⟩ := (Option.any_eq_true _ _).mp (show (supplied {} ["unary/-", "binary/*"]).any
    (fun e => isModest e && !e.config.trapOnEntry) = true by decide +kernel)
  rw [Bool.and_eq_true, Bool.not_eq_true'] at hall
  obtain ⟨T, stocked, hcompiled⟩ := stocked_supplied (by decide) he hall.1
  obtain ⟨s, hs⟩ := hcompiled "unary/-" (by decide)
  exact ⟨T, e, s, he, stocked, hs, signs_kept stocked (calm_of_not_trapping hall.2)⟩

/-- The negative of zero is `-0` to the host, and `0` to the stub. -/
theorem negative_of_zero_differs : ∃ (e t u : Engine) (s : Stub) (box : Word),
    supplied {} ["unary/-"] = some e ∧ e.stubs.compiled? "unary/-" = some s ∧
      callFunction (enter 2) s.function ⟨s.function, e.heap.undefined, #[.smi 0], .smi 1⟩ e = .ok (.smi 0) t ∧
      callback "unary/-" [.smi 0] e = .ok box u ∧
      t.heap.display (.smi 0) = "0" ∧ u.heap.display box = "-0" ∧ t.heap.inspect (.smi 0) ≠ u.heap.inspect box := by
  obtain ⟨e, he, hall⟩ := (Option.any_eq_true _ _).mp (show (supplied {} ["unary/-"]).any (fun e => isModest e &&
    (!e.config.trapOnEntry && ((callback "unary/-" [.smi 0]).run' e).isSome)) = true by decide +kernel)
  rw [Bool.and_eq_true, Bool.and_eq_true, Bool.not_eq_true'] at hall
  obtain ⟨hmodest, htraps, hsome⟩ := hall
  obtain ⟨T, stocked, hcompiled⟩ := stocked_supplied (by decide) he hmodest
  obtain ⟨s, hs⟩ := hcompiled "unary/-" (by decide)
  have halike := stocked.negative_alike (calm_of_not_trapping htraps) (a := 0) (by decide)
  obtain ⟨t, hcall, -, -, hhost⟩ := halike s hs 1 ⟨s.function, e.heap.undefined, #[.smi 0], .smi 1⟩ fun k a hk => by
    obtain ⟨rfl, rfl⟩ : k = 0 ∧ 0 = a := by simpa [List.getElem?_singleton] using hk
    rfl
  cases hbox : callback "unary/-" [.smi 0] e with
  | error err u =>
    rw [EStateM.run', EStateM.run, hbox] at hsome
    cases hsome
  | ok box u =>
    obtain ⟨hinspect, hdiffer⟩ := hhost box u hbox
    have hstub : t.heap.inspect (.smi 0) = .int 0 := t.heap.inspect_smi (by decide) (by decide)
    refine ⟨e, t, u, s, box, he, hs, hcall, hbox, congrArg View.display hstub, ?_, ?_⟩
    · exact (congrArg View.display (hinspect rfl)).trans (by decide +kernel)
    · rw [hstub, hinspect rfl]
      exact View.noConfusion

end Engine
end ScriptEngine
