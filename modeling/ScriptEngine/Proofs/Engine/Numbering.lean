import ScriptEngine.Proofs.Engine.Compiling
import ScriptEngine.Proofs.Graph.References

/-!
Numbers of functions. The functions of a script form a tree: every function but the script itself is referred to
once, from a function with a smaller number. So whoever compiles them from the last one down finds each reference
filled.
-/

namespace ScriptEngine

open State ScriptEngine.Graph Construction Engine

/-! ### The tree -/

/-- The function with one number refers to the one with another. -/
def Child (graphs : List Graph) (k j : Nat) : Prop := ∃ g, graphs[k]? = some g ∧ reference j ∈ g.closures

/-- The references between the functions of a script. -/
structure FunctionTree (graphs : List Graph) : Prop where
  later : ∀ {k g}, graphs[k]? = some g → ∀ i ∈ g.instrs, i.op = .script .closure →
    ∃ j, i.inputs = reference j ∧ k < j ∧ j < graphs.length
  once : (graphs.flatMap closures).Perm ((List.range' 1 (graphs.length - 1)).map reference)
  rooted : ∀ j < graphs.length, Relation.ReflTransGen (Child graphs) 0 j

section

variable {graphs : List Graph} {list : List Syntax.Stmt} {g : Graph} {k j : Nat}

theorem closures_perm (h : graphsOf list = .ok graphs) :
    (graphs.flatMap closures).Perm ((List.range' 1 (graphs.length - 1)).map reference) := by
  have hall := closures_of_graphsOf list
  rw [h] at hall
  exact hall

theorem mem_closures {inputs : List Input} : inputs ∈ g.closures ↔
    ∃ i ∈ g.instrs, i.op = .script .closure ∧ i.inputs = inputs := by
  unfold closures
  simp [and_assoc]

/-- A reference leads to a later function. -/
theorem reference_later (h : graphsOf list = .ok graphs) (hk : graphs[k]? = some g) (hj : reference j ∈ g.closures) :
    k < j ∧ j < graphs.length := by
  obtain ⟨hsketch, hrefers⟩ := sketch_of_graphsOf h hk
  obtain ⟨i, hi, hop, hinputs⟩ := mem_closures.mp hj
  obtain ⟨n, hn, rfl⟩ := Array.getElem_of_mem hi
  have hget : g.instrs[n]? = some g.instrs[n] := Array.getElem?_eq_getElem hn
  have hl := hsketch.listed
  have hnumber := hl.numbered n _ hget
  refine hrefers _ g.instrs[n] (hl.mem_code_iff.mpr ⟨hl.placed n _ hget, ?_⟩) j ?_
  · rw [hnumber]
    exact hget
  · rw [hinputs]
    exact .head _

/-- Every function but the first is referred to from some function. -/
theorem exists_child (h : graphsOf list = .ok graphs) (hj : j < graphs.length) (hpos : 0 < j) :
    ∃ k < j, Child graphs k j := by
  have hmem : reference j ∈ (List.range' 1 (graphs.length - 1)).map reference :=
    List.mem_map_of_mem (List.mem_range'_1.mpr ⟨hpos, by omega⟩)
  obtain ⟨g, hg, hcl⟩ := List.mem_flatMap.mp ((closures_perm h).mem_iff.mpr hmem)
  obtain ⟨k, hk, rfl⟩ := List.getElem_of_mem hg
  have hget : graphs[k]? = some graphs[k] := List.getElem?_eq_getElem hk
  exact ⟨k, (reference_later h hget hcl).1, _, hget, hcl⟩

theorem functionTree_of_graphsOf (h : graphsOf list = .ok graphs) : FunctionTree graphs where
  later := by
    intro k g hk i hi hop
    have hcl : i.inputs ∈ g.closures := mem_closures.mpr ⟨i, hi, hop, rfl⟩
    have hmem : i.inputs ∈ graphs.flatMap closures := List.mem_flatMap.mpr ⟨g, List.mem_of_getElem? hk, hcl⟩
    obtain ⟨j, -, hj⟩ := List.mem_map.mp ((closures_perm h).mem_iff.mp hmem)
    rw [← hj] at hcl
    exact ⟨j, hj.symm, reference_later h hk hcl⟩
  once := closures_perm h
  rooted := by
    intro j
    induction j using Nat.strong_induction_on with
    | _ j ih =>
      intro hj
      rcases Nat.eq_zero_or_pos j with rfl | hpos
      · exact .refl
      · obtain ⟨k, hk, hchild⟩ := exists_child h hj hpos
        exact (ih k hk (hk.trans hj)).tail hchild

end

namespace Engine

/-! ### Compilation from the last function down -/

/-- Compile the functions of a script from the last one down to some place. -/
def compileFrom (graphs : List Graph) (place : Nat) : CompileM (Array (Option Word)) :=
  (graphs.zipIdx.drop place).reverse.foldlM compileEntry (Array.replicate graphs.length none)

variable {graphs : List Graph} {g : Graph} {place : Nat}

theorem compileScript_eq : compileScript graphs.toArray = withScope .temporary (do
    let codes ← compileFrom graphs 0
    match codes[0]?.join with
    | some code => return code
    | none => throw (.internal "compile" "script produced no graphs")) := rfl

theorem compileFrom_length : compileFrom graphs graphs.length = pure (Array.replicate graphs.length none) := by
  unfold compileFrom
  rw [List.drop_of_length_le (by simp)]
  rfl

/-- The function at a place is compiled after all functions behind it. -/
theorem compileFrom_place (h : graphs[place]? = some g) :
    compileFrom graphs place = compileFrom graphs (place + 1) >>= fun codes => compileEntry codes (g, place) := by
  obtain ⟨hlt, rfl⟩ := List.getElem?_eq_some_iff.mp h
  have hdrop : graphs.zipIdx.drop place = (graphs[place], place) :: graphs.zipIdx.drop (place + 1) := by
    rw [List.drop_eq_getElem_cons (by simpa using hlt)]
    simp
  unfold compileFrom
  rw [hdrop, List.reverse_cons, List.foldlM_append]
  simp

/-- The place of a function holds the answer of its compilation. -/
def Filled (graphs : List Graph) (codes : Array (Option Word)) (j : Nat) : Prop :=
  ∃ g code, graphs[j]? = some g ∧ codes[j]? = some (some code) ∧
    ∃ nested before after, compileUnit g .function nested before = .ok code after

theorem filled_compileFrom {codes : Array (Option Word)} {e e' : Engine} (hplace : place ≤ graphs.length)
    (hrun : compileFrom graphs place e = .ok codes e') :
    codes.size = graphs.length ∧ ∀ j, place ≤ j → j < graphs.length → Filled graphs codes j := by
  induction hplace using Nat.decreasingInduction generalizing codes e' with
  | self =>
    rw [compileFrom_length] at hrun
    cases hrun
    exact ⟨by simp, fun j hle hlt => by omega⟩
  | of_succ place hlt ih =>
    rw [compileFrom_place (List.getElem?_eq_getElem hlt)] at hrun
    obtain ⟨codes₁, e₁, hrun₁, hentry⟩ := bind_eq_ok.mp hrun
    obtain ⟨hsize, hfilled⟩ := ih hrun₁
    obtain ⟨code, e₂, hcode, hset⟩ := bind_eq_ok.mp hentry
    cases hset
    refine ⟨by simpa using hsize, fun j hle hj => ?_⟩
    rcases hle.eq_or_lt with rfl | hgt
    · refine ⟨_, code, List.getElem?_eq_getElem hlt, ?_, codes₁, e₁, _, hcode⟩
      exact Array.getElem?_setIfInBounds_self_of_lt (by omega)
    · obtain ⟨g, code', hg, hget, hcompiled⟩ := hfilled j hgt hj
      refine ⟨g, code', hg, ?_, hcompiled⟩
      rw [Array.getElem?_setIfInBounds_ne (by omega)]
      exact hget

/-- No function is missing when the functions of a script are compiled. -/
theorem function_known {list : List Syntax.Stmt} (h : graphsOf list = .ok graphs) {e e' : Engine} (he : e.Ready)
    (j : Nat) : compileScript graphs.toArray e ≠ .error (.unknownFunction j) e' := by
  intro herror
  exact (keeps_compileScript h e he.library).2 _ _ herror

/-! ### Source text -/

theorem built_of_graphsOf {list : List Syntax.Stmt} (index : Nat) :
    graphsOf list ≠ .error (.unsupported s!"function #{index} was never built") := by
  intro h
  have hall := closures_of_graphsOf list
  rw [h] at hall
  refine hall ?_
  simp [toString]

/-- Every function of a script is built. Each is referred to once, from a function with a smaller number, so that they
form a tree; and when they are compiled, from the last one down, each finds the code of those that it refers to. -/
theorem functions_numbered (source : String) :
    (∀ index : Nat, construct source ≠ .error (.unsupported s!"function #{index} was never built")) ∧
    ∀ graphs, construct source = .ok graphs → FunctionTree graphs ∧
      (∀ place g e codes e', graphs[place]? = some g → compileFrom graphs (place + 1) e = .ok codes e' →
        ∀ j, reference j ∈ g.closures → Filled graphs codes j) ∧
      ∀ e : Engine, e.Ready → ∀ j e', compileScript graphs.toArray e ≠ .error (.unknownFunction j) e' := by
  unfold construct
  cases Syntax.parse? source with
  | none => exact ⟨fun _ => nofun, fun _ => nofun⟩
  | some list =>
    refine ⟨built_of_graphsOf, fun graphs h => ⟨functionTree_of_graphsOf h, ?_, fun e he j e' => function_known h he j⟩⟩
    intro place g e codes e' hg hrun j hj
    obtain ⟨hlt, hlength⟩ := reference_later h hg hj
    have hplace : place + 1 ≤ graphs.length := by omega
    exact (filled_compileFrom hplace hrun).2 j hlt hlength

/-- Functions in each other, in a block, and behind a return. -/
def familySource : String :=
  "function f(a) { function g() { return () => a } return g; h = function () {} } if (f) { function k() {} }"

theorem functions_numbered_family : ∃ graphs, construct familySource = .ok graphs ∧
    graphs.map closures = [[reference 1, reference 4], [reference 2], [reference 3], [], []] ∧ FunctionTree graphs := by
  have hclosures : (construct familySource).toOption.map (·.map closures) =
      some [[reference 1, reference 4], [reference 2], [reference 3], [], []] := by decide +kernel
  cases h : construct familySource with
  | error e =>
    rw [h] at hclosures
    cases hclosures
  | ok graphs =>
    rw [h] at hclosures
    exact ⟨graphs, rfl, Option.some.inj hclosures, ((functions_numbered familySource).2 graphs h).1⟩

end Engine
end ScriptEngine
