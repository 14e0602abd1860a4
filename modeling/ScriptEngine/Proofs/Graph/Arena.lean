import ScriptEngine.Proofs.Graph.Building
import ScriptEngine.Proofs.Lowering.Identity

/-!
Graphs that are built and edited in any way. An instruction has the number of its place in the arena, and just the
block that it names lists it, once. Steps that name a block or an instruction which does not exist are refused and
change nothing; all other steps succeed, so an instruction is never missing from its block.
-/

namespace ScriptEngine

namespace Graph

open Meaning

variable {g g' : Graph} {b : BlockId} {id : InstrId} {op : Op} {ins : List Input}

/-- Every instruction has its own number, the blocks list every number once, and a block lists the instructions
that name it. -/
structure Arena (g : Graph) : Prop where
  numbered : ∀ (k : Nat) (i : Instr), g.instrs[k]? = some i → i.id = ⟨k⟩
  once : (g.blocks.toList.flatMap (·.instrs)).Perm ((List.range g.instrs.size).map InstrId.mk)
  home : ∀ b id, id ∈ g.listing b ↔ ∃ i, g.instrs[id.index]? = some i ∧ i.block = b

theorem Listed.mem_listing_iff (h : g.Listed) :
    id ∈ g.listing b ↔ ∃ i, g.instrs[id.index]? = some i ∧ i.block = b := by
  refine ⟨h.found b id, ?_⟩
  rintro ⟨i, hi, rfl⟩
  obtain rfl : i.id = id := h.numbered _ _ hi
  exact h.placed _ _ hi

theorem listing_of_lt {k : Nat} (hk : k < g.blocks.size) : g.listing ⟨k⟩ = g.blocks[k].instrs := by
  simp only [listing, Array.getD_eq_getD_getElem?, Array.getElem?_eq_getElem hk, Option.getD_some]

theorem listing_of_le (hb : g.blocks.size ≤ b.index) : g.listing b = [] := by
  rw [listing, Array.getD_eq_getD_getElem?, Array.getElem?_eq_none hb]
  rfl

theorem Listed.arena (h : g.Listed) : g.Arena where
  numbered := h.numbered
  home _ _ := h.mem_listing_iff
  once := by
    refine (List.perm_ext_iff_of_nodup ?_ (List.nodup_range.map fun _ _ => InstrId.mk.inj)).mpr fun id => ?_
    · refine List.nodup_flatMap.mpr ⟨fun B hB => ?_, List.pairwise_iff_getElem.mpr fun k l hk hl hlt id hid hid' => ?_⟩
      · obtain ⟨k, hk, rfl⟩ := List.getElem_of_mem hB
        exact listing_of_lt (Array.length_toList ▸ hk) ▸ h.once ⟨k⟩
      · -- An instruction names one block only.
        simp only [Array.length_toList] at hk hl
        obtain ⟨i, hi, hblock⟩ := h.found ⟨k⟩ id (listing_of_lt hk ▸ hid)
        obtain ⟨i', hi', hblock'⟩ := h.found ⟨l⟩ id (listing_of_lt hl ▸ hid')
        obtain rfl := Option.some.inj (hi.symm.trans hi')
        exact absurd (BlockId.mk.inj (hblock.symm.trans hblock')) hlt.ne
    · simp only [List.mem_flatMap, List.mem_map, List.mem_range]
      constructor
      · rintro ⟨B, hB, hid⟩
        obtain ⟨k, hk, rfl⟩ := List.getElem_of_mem hB
        exact ⟨id.index, h.lt_of_mem_listing (listing_of_lt (Array.length_toList ▸ hk) ▸ hid), rfl⟩
      · rintro ⟨k, hk, rfl⟩
        have hmem := h.mem_listing_iff.mpr ⟨_, Array.getElem?_eq_getElem hk, rfl⟩
        have hlt : g.instrs[k].block.index < g.blocks.size := by
          by_contra hle
          rw [listing_of_le (Nat.not_lt.mp hle)] at hmem
          cases hmem
        exact ⟨_, Array.getElem_mem_toList hlt, listing_of_lt hlt ▸ hmem⟩

/-! ### One instruction more -/

/-- What a step that does not touch code or edges leaves alone, but for the edges of some blocks. -/
structure Skeleton (g g' : Graph) (linked : BlockId → Prop) : Prop where
  name : g'.name = g.name
  params : g'.params = g.params
  blocks : g'.blocks.size = g.blocks.size
  successors : ∀ b, ¬ linked b → g'.successors b = g.successors b

/-- The new instruction is listed somewhere in its block. -/
theorem Listed.place (h : g.Listed) (hinstrs : g'.instrs = g.instrs.push ⟨⟨g.instrs.size⟩, op, ins, b⟩)
    (hself : (g'.listing b).Perm (⟨g.instrs.size⟩ :: g.listing b))
    (hothers : ∀ b', b' ≠ b → g'.listing b' = g.listing b') : g'.Listed := by
  have hnew : (⟨g.instrs.size⟩ : InstrId) ∉ g.listing b := fun hid => absurd (h.lt_of_mem_listing hid) (lt_irrefl _)
  have hmem : ∀ b' id, id ∈ g'.listing b' ↔ id ∈ g.listing b' ∨ b' = b ∧ id = ⟨g.instrs.size⟩ := by
    intro b' id
    by_cases hb : b' = b
    · subst hb
      rw [hself.mem_iff, List.mem_cons]
      tauto
    · rw [hothers b' hb]
      tauto
  have hget : ∀ {k : Nat} {i : Instr}, g'.instrs[k]? = some i ↔
      g.instrs[k]? = some i ∨ k = g.instrs.size ∧ i = ⟨⟨g.instrs.size⟩, op, ins, b⟩ := by
    intro k i
    rw [hinstrs, Array.getElem?_push]
    split
    · rename_i hk
      rw [hk, Array.getElem?_eq_none le_rfl]
      simp [eq_comm]
    · rename_i hk
      simp [hk]
  refine ⟨fun k i hi => ?_, fun b' id hid => ?_, fun b' => ?_, fun k i hi => ?_⟩
  · rcases hget.mp hi with hi | ⟨rfl, rfl⟩
    · exact h.numbered k i hi
    · rfl
  · rcases (hmem b' id).mp hid with hid | ⟨rfl, rfl⟩
    · obtain ⟨i, hi, hblock⟩ := h.found b' id hid
      exact ⟨i, hget.mpr (.inl hi), hblock⟩
    · exact ⟨_, hget.mpr (.inr ⟨rfl, rfl⟩), rfl⟩
  · by_cases hb : b' = b
    · subst hb
      exact hself.nodup_iff.mpr (List.nodup_cons.mpr ⟨hnew, h.once b'⟩)
    · rw [hothers b' hb]
      exact h.once b'
  · rcases hget.mp hi with hi | ⟨rfl, rfl⟩
    · exact (hmem _ _).mpr (.inl (h.placed k i hi))
    · exact (hmem _ _).mpr (.inr ⟨rfl, rfl⟩)

/-! ### What single steps do -/

/-- Instructions are added at the end of a block, and numbered in that order. -/
structure Appends (g g' : Graph) (b : BlockId) (added : List (Op × List Input)) : Prop where
  skeleton : g.Skeleton g' fun _ => False
  instrs : g'.instrs.toList =
    g.instrs.toList ++ added.mapIdx fun k new => ⟨⟨g.instrs.size + k⟩, new.1, new.2, b⟩
  listing : g'.listing b = g.listing b ++ (List.range' g.instrs.size added.length).map InstrId.mk
  others : ∀ b', b' ≠ b → g'.listing b' = g.listing b'

/-- An instruction is put right before another one. -/
structure InsertsBefore (g g' : Graph) (anchor : InstrId) (op : Op) (ins : List Input) : Prop where
  skeleton : g.Skeleton g' fun _ => False
  placed : ∃ b before after, g.listing b = before ++ anchor :: after ∧
    g'.listing b = before ++ ⟨g.instrs.size⟩ :: anchor :: after ∧
    g'.instrs = g.instrs.push ⟨⟨g.instrs.size⟩, op, ins, b⟩ ∧ ∀ b', b' ≠ b → g'.listing b' = g.listing b'

/-- An instruction gets another operation and other inputs. -/
structure Replaces (g g' : Graph) (id : InstrId) (op : Op) (ins : List Input) : Prop where
  skeleton : g.Skeleton g' fun _ => False
  listing : ∀ b, g'.listing b = g.listing b
  target : ∃ i, g.instr id = .ok i ∧ g'.instr id = .ok { i with op, inputs := ins }
  others : ∀ id', id' ≠ id → g'.instr id' = g.instr id'

/-- A block gets other edges. -/
structure Links (g g' : Graph) (b : BlockId) (next : List BlockId) : Prop where
  skeleton : g.Skeleton g' (· = b)
  instrs : g'.instrs = g.instrs
  listing : ∀ b, g'.listing b = g.listing b
  successors : g'.successors b = next

theorem Skeleton.refl (g : Graph) : g.Skeleton g fun _ => False := ⟨rfl, rfl, rfl, fun _ _ => rfl⟩

theorem Skeleton.trans {g₁ g₂ : Graph} {P : BlockId → Prop} (h : g.Skeleton g₁ P) (h' : g₁.Skeleton g₂ P) : g.Skeleton g₂ P where
  name := h'.name.trans h.name
  params := h'.params.trans h.params
  blocks := h'.blocks.trans h.blocks
  successors b hb := (h'.successors b hb).trans (h.successors b hb)

theorem skeleton_addInstr (place : InstrId → List InstrId → List InstrId) :
    g.Skeleton (g.addInstr b op ins place).2 fun _ => False where
  name := rfl
  params := rfl
  blocks := by simp [addInstr]
  successors b' _ := by
    simp only [addInstr, Graph.successors, Array.getD_eq_getD_getElem?, Array.getElem?_modify]
    split
    · cases g.blocks[b'.index]? <;> rfl
    · rfl

theorem appends_appended (hb : b.index < g.blocks.size) : g.Appends (Meaning.appended g b op ins) b [(op, ins)] where
  skeleton := skeleton_addInstr fun id instrs => instrs ++ [id]
  instrs := by simp [Meaning.appended]
  listing := listing_appended_self hb
  others _ := listing_appended_other

theorem Appends.refl (g : Graph) (b : BlockId) : g.Appends g b [] :=
  ⟨.refl g, by simp, by simp, fun _ _ => rfl⟩

theorem Appends.trans {g₁ g₂ : Graph} {xs ys : List (Op × List Input)} (h : g.Appends g₁ b xs)
    (h' : g₁.Appends g₂ b ys) : g.Appends g₂ b (xs ++ ys) := by
  have hsize : g₁.instrs.size = g.instrs.size + xs.length := by
    have hlength := congrArg List.length h.instrs
    simpa using hlength
  refine ⟨h.skeleton.trans h'.skeleton, ?_, ?_, fun b' hb' => (h'.others b' hb').trans (h.others b' hb')⟩
  · rw [h'.instrs, h.instrs, List.mapIdx_append, List.append_assoc, hsize]
    simp only [Nat.add_comm, Nat.add_left_comm]
  · rw [h'.listing, h.listing, List.append_assoc, ← List.map_append, hsize, List.length_append, List.range'_append_1]

/-- What adding an empty block does. -/
structure AddsBlock (g g' : Graph) : Prop where
  name : g'.name = g.name
  params : g'.params = g.params
  instrs : g'.instrs = g.instrs
  blocks : g'.blocks = g.blocks.push {}

end Graph

namespace Builder

open Graph State

/-- A step on a graph, or a step of its builder. -/
inductive Use where
  | addBlock
  | append (block : BlockId) (op : Op) (inputs : List Input)
  | insertBefore (anchor : InstrId) (op : Op) (inputs : List Input)
  | replace (id : InstrId) (op : Op) (inputs : List Input)
  | setSuccessors (block : BlockId) (next : List BlockId)
  | newBlock
  | switchTo (block : BlockId)
  | emit (op : PrimOp) (inputs : List Input)
  | emitScript (op : ScriptOp) (inputs : List Input)
  | jump (target : BlockId)
  | branch (ifTrue ifFalse : BlockId)
  | ret (value : Input)
  | phi (block : BlockId)
  | toPhi (phi : InstrId) (value : Input)
  | literal (c : Const)
  | read (object : Input) (offset : Nat)
  | write (object : Input) (offset : Nat) (value : Input)
  | stubArg (index : Nat)
  | cacheArg (index : Nat)
  | arg (index : Nat)
  | isSmi (value : Input)
  | comparePointer (a b : Input) (cond : Cond)
  | compareSmi (a b : Input) (cond : Cond)
  | testBits (value : Input) (mask : Int)
  | callStub (name : String) (args : List Input)
  | callHost (name : String) (args : List Input)
  | alloc (kind : RootShape) (size : Input)

def perform : Use → BuildM Unit
  | .addBlock => discard (onGraph fun g => .ok g.addBlock)
  | .append block op inputs => discard (appendTo block op inputs)
  | .insertBefore anchor op inputs => discard (onGraph fun g => g.insertBefore anchor op inputs)
  | .replace id op inputs => onGraph fun g => return ((), ← g.replace id op inputs)
  | .setSuccessors block next => setSuccessors block next
  | .newBlock => discard newBlock
  | .switchTo block => switchTo block
  | .emit op inputs => discard (emit op inputs)
  | .emitScript op inputs => discard (emitScript op inputs)
  | .jump target => jump target
  | .branch ifTrue ifFalse => branch ifTrue ifFalse
  | .ret value => discard (ret value)
  | .phi block => discard (phi block)
  | .toPhi id value => discard (toPhi id value)
  | .literal c => discard (literal c)
  | .read object offset => discard (read object offset)
  | .write object offset value => discard (write object offset value)
  | .stubArg index => discard (stubArg index)
  | .cacheArg index => discard (cacheArg index)
  | .arg index => discard (arg index)
  | .isSmi value => discard (isSmi value)
  | .comparePointer a b cond => discard (comparePointer a b cond)
  | .compareSmi a b cond => discard (compareSmi a b cond)
  | .testBits value mask => discard (testBits value mask)
  | .callStub name args => discard (callStub name args)
  | .callHost name args => discard (callHost name args)
  | .alloc kind size => discard (alloc kind size)

/-- A graph after any steps, of which some may have failed. The last step comes first. -/
def after (name : String) : List Use → Builder
  | [] => { graph := { name }, current := ⟨0⟩ }
  | u :: past => finalState (perform u) (after name past)

/-- The pushes of arguments, the last one first. -/
def pushes (args : List Input) : List (Op × List Input) := args.reverse.map fun a => (.prim .push, [a])

/-- What a step amounts to. -/
inductive Effect where
  | addsBlock
  | moves (block : BlockId)
  | links (block : BlockId) (next : List BlockId)
  | appends (block : BlockId) (added : List (Op × List Input))
  | inserts (anchor : InstrId) (op : Op) (inputs : List Input)
  | replaces (id : InstrId) (op : Op) (inputs : List Input)

/-- What a step amounts to: a builder adds to its current block, each call of a stub with the pushes before it. -/
def Use.effect (b : Builder) : Use → Effect
  | .addBlock | .newBlock => .addsBlock
  | .append block op inputs => .appends block [(op, inputs)]
  | .insertBefore anchor op inputs => .inserts anchor op inputs
  | .replace id op inputs => .replaces id op inputs
  | .setSuccessors block next => .links block next
  | .switchTo block => .moves block
  | .emit op inputs => .appends b.current [(.prim op, inputs)]
  | .emitScript op inputs => .appends b.current [(.script op, inputs)]
  | .jump target => .links b.current [target]
  | .branch ifTrue ifFalse => .links b.current [ifTrue, ifFalse]
  | .ret value => .appends b.current [(.prim .ret, [value])]
  | .phi block => .appends block [(.prim .phi, [])]
  | .toPhi id value => .appends b.current [(.prim .toPhi, [id, value])]
  | .literal c => .appends b.current [(.prim .literal, [c])]
  | .read object offset => .appends b.current [(.prim .read, [object, raw offset])]
  | .write object offset value => .appends b.current [(.prim .write, [object, raw offset, value])]
  | .stubArg index => .appends b.current [(.prim .stubArg, [raw index])]
  | .cacheArg index => .appends b.current [(.prim .cacheArg, [raw index])]
  | .arg index => .appends b.current [(.prim .arg, [raw index])]
  | .isSmi value => .appends b.current [(.prim .isSmi, [value])]
  | .comparePointer x y cond => .appends b.current [(.prim .comparePointer, [x, y, .const (.cond cond)])]
  | .compareSmi x y cond => .appends b.current [(.prim .compareSmi, [x, y, .const (.cond cond)])]
  | .testBits value mask => .appends b.current [(.prim .testBits, [value, .const (.raw mask)])]
  | .callStub name args =>
    .appends b.current (pushes args ++ [(.prim .callStub, [.const (.stub name), raw args.length])])
  | .callHost name args =>
    .appends b.current (pushes args ++
      [(.prim .literal, [.const (.callback name)]),
        (.prim .push, [.value ⟨b.graph.instrs.size + args.length⟩]),
        (.prim .callStub, [.const (.stub hostStub), raw (args.length + 1)])])
  | .alloc kind size =>
    .appends b.current [(.prim .push, [size]), (.prim .callStub, [.const (.stub (allocStub kind)), raw 1])]

/-- Why a step is refused, if it is: the block or the instruction that it works on does not exist. -/
def Effect.refusal (g : Graph) : Effect → Option GraphError
  | .addsBlock | .moves _ => none
  | .links block _ | .appends block _ => if block.index < g.blocks.size then none else some (.unknownBlock block)
  | .inserts id _ _ | .replaces id _ _ => if id.index < g.instrs.size then none else some (.unknownInstr id)

theorem Effect.refusal_ne_detached (e : Effect) (g : Graph) (id : InstrId) : e.refusal g ≠ some (.detached id) := by
  cases e <;> grind [Effect.refusal]

/-- The builder before and after a step. -/
def Effect.Takes (b b' : Builder) : Effect → Prop
  | .addsBlock => b'.current = b.current ∧ b.graph.AddsBlock b'.graph
  | .moves block => b' = { b with current := block }
  | .links block next => b'.current = b.current ∧ b.graph.Links b'.graph block next
  | .appends block added => b'.current = b.current ∧ b.graph.Appends b'.graph block added
  | .inserts anchor op inputs => b'.current = b.current ∧ b.graph.InsertsBefore b'.graph anchor op inputs
  | .replaces id op inputs => b'.current = b.current ∧ b.graph.Replaces b'.graph id op inputs

/-! ### Every step takes effect or is refused -/

/-- A step is refused for the reason given, and changes nothing; or it succeeds and takes its effect. -/
def Performs (b : Builder) (e : Effect) (r : EStateM.Result GraphError Builder Unit) : Prop :=
  match e.refusal b.graph with
  | some err => r = .error err b
  | none => ∃ b', r = .ok () b' ∧ e.Takes b b' ∧ b'.graph.Listed

section

variable {b : Builder} {g : Graph} {block : BlockId} {op : Op} {ins : List Input}

theorem onGraph_ok {α : Type} {step : Graph → Except GraphError (α × Graph)} {a : α}
    (h : step b.graph = .ok (a, g)) : onGraph step b = .ok a { b with graph := g } := by
  unfold onGraph
  rw [h]

theorem onGraph_error {α : Type} {step : Graph → Except GraphError (α × Graph)} {err : GraphError}
    (h : step b.graph = .error err) : onGraph step b = .error err b := by
  unfold onGraph
  rw [h]

theorem block_ok (hb : block.index < g.blocks.size) : g.block block = .ok g.blocks[block.index] := by
  rw [Graph.block, Array.getElem?_eq_getElem hb]

theorem block_error (hb : ¬ block.index < g.blocks.size) : g.block block = .error (.unknownBlock block) := by
  rw [Graph.block, Array.getElem?_eq_none (Nat.not_lt.mp hb)]

theorem instr_ok {id : InstrId} (hid : id.index < g.instrs.size) : g.instr id = .ok g.instrs[id.index] := by
  rw [Graph.instr, Array.getElem?_eq_getElem hid]

theorem instr_error {id : InstrId} (hid : ¬ id.index < g.instrs.size) : g.instr id = .error (.unknownInstr id) := by
  rw [Graph.instr, Array.getElem?_eq_none (Nat.not_lt.mp hid)]

/-! ### Appending -/

theorem appendTo_ok (hb : block.index < b.graph.blocks.size) :
    appendTo block op ins b = .ok ⟨b.graph.instrs.size⟩ { b with graph := Meaning.appended b.graph block op ins } := by
  refine onGraph_ok ?_
  rw [Graph.append, block_ok hb]
  rfl

theorem appendTo_error (hb : ¬ block.index < b.graph.blocks.size) :
    appendTo block op ins b = .error (.unknownBlock block) b := by
  refine onGraph_error ?_
  rw [Graph.append, block_error hb]
  rfl

theorem performs_appendTo (hl : b.graph.Listed) (block : BlockId) (op : Op) (ins : List Input) :
    Performs b (.appends block [(op, ins)]) (discard (appendTo block op ins) b) := by
  by_cases hb : block.index < b.graph.blocks.size
  · rw [Performs, Effect.refusal, if_pos hb]
    exact ⟨_, discard_eq_ok.mpr ⟨_, appendTo_ok hb⟩, ⟨rfl, appends_appended hb⟩, hl.appended hb⟩
  · rw [Performs, Effect.refusal, if_neg hb]
    exact bind_of_error (appendTo_error hb)

/-- Steps that add to the current block, one after the other. -/
def Adds (added : List (Op × List Input)) (b b' : Builder) : Prop :=
  b'.current = b.current ∧ b.graph.Appends b'.graph b.current added ∧ b'.graph.Listed

theorem adds_emit (hl : b.graph.Listed) (hb : b.current.index < b.graph.blocks.size) (op : PrimOp)
    (ins : List Input) : ∃ b', emit op ins b = .ok ⟨b.graph.instrs.size⟩ b' ∧ Adds [(.prim op, ins)] b b' :=
  ⟨_, appendTo_ok hb, rfl, appends_appended hb, hl.appended hb⟩

section

variable {b₁ b₂ : Builder} {xs ys : List (Op × List Input)}

theorem Adds.trans (h : Adds xs b b₁) (h' : Adds ys b₁ b₂) : Adds (xs ++ ys) b b₂ :=
  ⟨h'.1.trans h.1, h.2.1.trans (h.1 ▸ h'.2.1), h'.2.2⟩

theorem Adds.blocks (h : Adds xs b b₁) : b₁.graph.blocks.size = b.graph.blocks.size := h.2.1.skeleton.blocks

theorem Adds.inside (h : Adds xs b b₁) (hb : b.current.index < b.graph.blocks.size) :
    b₁.current.index < b₁.graph.blocks.size := by
  rw [h.1, h.blocks]
  exact hb

theorem Adds.size (h : Adds xs b b₁) : b₁.graph.instrs.size = b.graph.instrs.size + xs.length := by
  have hlength := congrArg List.length h.2.1.instrs
  simpa using hlength

theorem performs_of_adds (hb : b.current.index < b.graph.blocks.size) {r : EStateM.Result GraphError Builder Unit}
    (h : ∃ b', r = .ok () b' ∧ Adds xs b b') : Performs b (.appends b.current xs) r := by
  rw [Performs, Effect.refusal, if_pos hb]
  obtain ⟨b', hr, hcurrent, happends, hlisted⟩ := h
  exact ⟨b', hr, ⟨hcurrent, happends⟩, hlisted⟩

theorem performs_of_error (hb : ¬ b.current.index < b.graph.blocks.size)
    {r : EStateM.Result GraphError Builder Unit} (h : r = .error (.unknownBlock b.current) b) :
    Performs b (.appends b.current xs) r := by
  rw [Performs, Effect.refusal, if_neg hb]
  exact h

end

theorem adds_pushAll (hl : b.graph.Listed) (hb : b.current.index < b.graph.blocks.size) (args : List Input) :
    ∃ b', pushAll args b = .ok () b' ∧ Adds (pushes args) b b' := by
  unfold pushAll pushes
  induction args.reverse generalizing b with
  | nil => exact ⟨b, rfl, rfl, .refl _ _, hl⟩
  | cons a rest ih =>
    obtain ⟨b₁, hpush, hadds⟩ := adds_emit hl hb .push [a]
    obtain ⟨b₂, hrest, hadds'⟩ := ih hadds.2.2 (hadds.inside hb)
    exact ⟨b₂, forM_cons_eq_ok.mpr ⟨b₁, discard_eq_ok.mpr ⟨_, hpush⟩, hrest⟩, hadds.trans hadds'⟩

/-- Without a current block the first push fails, so whatever follows the pushes does not matter. -/
theorem pushAll_error (hb : ¬ b.current.index < b.graph.blocks.size) {α : Type} {f : PUnit → BuildM α}
    (hf : f ⟨⟩ b = .error (.unknownBlock b.current) b) (args : List Input) :
    (pushAll args >>= f) b = .error (.unknownBlock b.current) b := by
  unfold pushAll
  cases args.reverse with
  | nil => exact hf
  | cons a rest => exact bind_of_error (bind_of_error (bind_of_error (appendTo_error hb)))

theorem performs_callStub (hl : b.graph.Listed) (name : String) (args : List Input) :
    Performs b (Use.callStub name args |>.effect b) (discard (callStub name args) b) := by
  by_cases hb : b.current.index < b.graph.blocks.size
  · refine performs_of_adds hb ?_
    obtain ⟨b₁, hpush, hadds⟩ := adds_pushAll hl hb args
    obtain ⟨b₂, hcall, hadds'⟩ :=
      adds_emit hadds.2.2 (hadds.inside hb) .callStub [.const (.stub name), raw args.length]
    exact ⟨b₂, discard_eq_ok.mpr ⟨_, bind_eq_ok.mpr ⟨_, b₁, hpush, hcall⟩⟩, hadds.trans hadds'⟩
  · exact performs_of_error hb (bind_of_error (pushAll_error hb (appendTo_error hb) args))

theorem performs_callHost (hl : b.graph.Listed) (name : String) (args : List Input) :
    Performs b (Use.callHost name args |>.effect b) (discard (callHost name args) b) := by
  by_cases hb : b.current.index < b.graph.blocks.size
  · refine performs_of_adds hb ?_
    obtain ⟨b₁, hpush, hadds⟩ := adds_pushAll hl hb args
    obtain ⟨b₂, hid, hadds₂⟩ := adds_emit hadds.2.2 (hadds.inside hb) .literal [.const (.callback name)]
    obtain ⟨b₃, hpush', hadds₃⟩ :=
      adds_emit hadds₂.2.2 (hadds₂.inside (hadds.inside hb)) .push [.value ⟨b₁.graph.instrs.size⟩]
    obtain ⟨b₄, hcall, hadds₄⟩ := adds_emit hadds₃.2.2 (hadds₃.inside (hadds₂.inside (hadds.inside hb))) .callStub
      [.const (.stub hostStub), raw (args.length + 1)]
    have hnumber : b₁.graph.instrs.size = b.graph.instrs.size + args.length := by
      rw [hadds.size, pushes, List.length_map, List.length_reverse]
    have hnumbered : discard (emit .push [.value ⟨b₁.graph.instrs.size⟩]) b₂ = .ok () b₃ :=
      discard_eq_ok.mpr ⟨_, hpush'⟩
    refine ⟨b₄, discard_eq_ok.mpr ⟨_, bind_eq_ok.mpr ⟨_, b₁, hpush, bind_eq_ok.mpr ⟨_, b₂, hid,
      bind_eq_ok.mpr ⟨_, b₃, hnumbered, hcall⟩⟩⟩⟩, ?_⟩
    rw [hnumber] at hadds₃
    exact hadds.trans (hadds₂.trans (hadds₃.trans hadds₄))
  · exact performs_of_error hb (bind_of_error (pushAll_error hb (bind_of_error (appendTo_error hb)) args))

/-! ### Blocks, edges and edits -/

theorem performs_addBlock (hl : b.graph.Listed) :
    Performs b .addsBlock (discard (onGraph fun g => .ok g.addBlock) b) :=
  ⟨_, rfl, ⟨rfl, rfl, rfl, rfl, rfl⟩, hl.addBlock⟩

theorem links_linked {next : List BlockId} (hb : block.index < g.blocks.size) :
    g.Links (g.linked block next) block next where
  skeleton := ⟨rfl, rfl, linked_blocks_size, fun _ hne => successors_linked_other hne⟩
  instrs := rfl
  listing _ := listing_linked
  successors := successors_linked_self hb

theorem performs_setSuccessors (hl : b.graph.Listed) (block : BlockId) (next : List BlockId) :
    Performs b (.links block next) (setSuccessors block next b) := by
  by_cases hb : block.index < b.graph.blocks.size
  · rw [Performs, Effect.refusal, if_pos hb]
    refine ⟨{ b with graph := b.graph.linked block next }, onGraph_ok ?_, ⟨rfl, links_linked hb⟩, hl.linked⟩
    rw [Graph.setSuccessors, block_ok hb]
    rfl
  · rw [Performs, Effect.refusal, if_neg hb]
    refine onGraph_error ?_
    rw [Graph.setSuccessors, block_error hb]
    rfl

theorem performs_insertBefore (hl : b.graph.Listed) (anchor : InstrId) (op : Op) (ins : List Input) :
    Performs b (.inserts anchor op ins) (discard (onGraph fun g => g.insertBefore anchor op ins) b) := by
  by_cases hanchor : anchor.index < b.graph.instrs.size
  · rw [Performs, Effect.refusal, if_pos hanchor]
    have hi := instr_ok hanchor
    generalize b.graph.instrs[anchor.index] = i at hi
    -- The block that the anchor names exists, since it lists the anchor.
    have hmem : anchor ∈ b.graph.listing i.block := hl.mem_listing_iff.mpr ⟨i, Lowering.instr_eq_ok.mp hi, rfl⟩
    have hblock : i.block.index < b.graph.blocks.size := by
      by_contra hle
      rw [listing_of_le (Nat.not_lt.mp hle)] at hmem
      cases hmem
    obtain ⟨before, after, hsplit⟩ := List.append_of_mem hmem
    have hfirst : anchor ∉ before := by
      have honce := hsplit ▸ hl.once i.block
      exact fun hin => (List.nodup_append.mp honce).2.2 anchor hin anchor List.mem_cons_self rfl
    let g' := (b.graph.addInstr i.block op ins (insertIn anchor)).2
    have hself : g'.listing i.block = before ++ ⟨b.graph.instrs.size⟩ :: anchor :: after := by
      rw [Lowering.listing_addInstr, if_pos rfl, hsplit, Lowering.insertIn_eq hfirst]
      rfl
    have hothers : ∀ b', b' ≠ i.block → g'.listing b' = b.graph.listing b' := fun b' hb' => by
      rw [Lowering.listing_addInstr, if_neg hb']
    have hrun : b.graph.insertBefore anchor op ins = .ok (b.graph.nextInstr, g') := by
      have hlists : anchor ∈ b.graph.blocks[i.block.index].instrs := listing_of_lt hblock ▸ hmem
      rw [Graph.insertBefore, hi]
      change (do if anchor ∈ (← b.graph.block i.block).instrs then _ else _ : Except _ _) = _
      rw [block_ok hblock]
      exact if_pos hlists
    refine ⟨{ b with graph := g' }, discard_eq_ok.mpr ⟨_, onGraph_ok hrun⟩,
      ⟨rfl, skeleton_addInstr _, i.block, before, after, hsplit, hself, rfl, hothers⟩, hl.place rfl ?_ hothers⟩
    rw [hself, hsplit]
    exact List.perm_middle
  · rw [Performs, Effect.refusal, if_neg hanchor]
    refine bind_of_error (onGraph_error ?_)
    rw [Graph.insertBefore, instr_error hanchor]
    rfl

theorem performs_replace (hl : b.graph.Listed) (id : InstrId) (op : Op) (ins : List Input) :
    Performs b (.replaces id op ins) ((onGraph fun g => return ((), ← g.replace id op ins)) b) := by
  by_cases hid : id.index < b.graph.instrs.size
  · rw [Performs, Effect.refusal, if_pos hid]
    have hi := instr_ok hid
    generalize b.graph.instrs[id.index] = i at hi
    obtain rfl : i.id = id := hl.numbered _ _ (Lowering.instr_eq_ok.mp hi)
    let g' : Graph := { b.graph with instrs := b.graph.instrs.modify i.id.index ({ · with op, inputs := ins }) }
    have hrun : b.graph.replace i.id op ins = .ok g' := by
      rw [Graph.replace, hi]
      rfl
    have hswaps := Lowering.swaps hl hi hrun
    obtain ⟨_, _, hedits⟩ := hswaps.edits
    refine ⟨{ b with graph := g' }, onGraph_ok (by rw [hrun]; rfl), ⟨rfl, ?_⟩, hedits.listed⟩
    exact ⟨⟨rfl, rfl, rfl, fun _ _ => rfl⟩, hswaps.listing, ⟨i, hi, hswaps.new⟩, hswaps.old⟩
  · rw [Performs, Effect.refusal, if_neg hid]
    refine onGraph_error ?_
    rw [Graph.replace, instr_error hid]
    rfl

/-! ### Whole histories -/

theorem performs (hl : b.graph.Listed) (u : Use) : Performs b (u.effect b) (perform u b) := by
  cases u with
  | addBlock => exact performs_addBlock hl
  | newBlock => exact performs_addBlock hl
  | append block op ins => exact performs_appendTo hl block op ins
  | insertBefore anchor op ins => exact performs_insertBefore hl anchor op ins
  | replace id op ins => exact performs_replace hl id op ins
  | setSuccessors block next => exact performs_setSuccessors hl block next
  | switchTo block => exact ⟨_, rfl, rfl, hl⟩
  | jump target => exact performs_setSuccessors hl b.current [target]
  | branch ifTrue ifFalse => exact performs_setSuccessors hl b.current [ifTrue, ifFalse]
  | callStub name args => exact performs_callStub hl name args
  | callHost name args => exact performs_callHost hl name args
  | alloc kind size => exact performs_callStub hl (allocStub kind) [size]
  | _ => exact performs_appendTo hl _ _ _

theorem listed_after (name : String) (past : List Use) : (after name past).graph.Listed := by
  induction past with
  | nil =>
    exact ⟨fun k i hi => by simp [after] at hi, fun b id hid => by simp [after, listing] at hid,
      fun b => by simp [after, listing], fun k i hi => by simp [after] at hi⟩
  | cons u past ih =>
    have hperforms := performs ih u
    unfold Performs at hperforms
    split at hperforms
    · rw [after, finalState_error hperforms]
      exact ih
    · obtain ⟨b', hok, -, hlisted⟩ := hperforms
      rw [after, finalState_ok hok]
      exact hlisted

/-- What holds of a graph after a history. -/
structure ArenaKept (b : Builder) : Prop where
  arena : b.graph.Arena
  /-- What a step works on does not exist: the step is refused for that reason, and nothing changes. -/
  refused : ∀ u err, (u.effect b).refusal b.graph = some err → perform u b = .error err b
  /-- All other steps succeed, whatever inputs and edges they name. -/
  performed : ∀ u, (u.effect b).refusal b.graph = none → ∃ b', perform u b = .ok () b' ∧ (u.effect b).Takes b b'
  attached : ∀ u id b', perform u b ≠ .error (.detached id) b'

/-- Whatever is built and edited in whatever order, every instruction stays in the one place where its block lists it. -/
theorem arena_kept (name : String) (past : List Use) : ArenaKept (after name past) := by
  have hlisted := listed_after name past
  have hrefused : ∀ u err, (u.effect (after name past)).refusal (after name past).graph = some err →
      perform u (after name past) = .error err (after name past) := by
    intro u err herr
    have hperforms := performs hlisted u
    rwa [Performs, herr] at hperforms
  have hperformed : ∀ u, (u.effect (after name past)).refusal (after name past).graph = none →
      ∃ b', perform u (after name past) = .ok () b' ∧ (u.effect (after name past)).Takes (after name past) b' := by
    intro u hnone
    have hperforms := performs hlisted u
    rw [Performs, hnone] at hperforms
    obtain ⟨b', hok, htakes, -⟩ := hperforms
    exact ⟨b', hok, htakes⟩
  refine ⟨hlisted.arena, hrefused, hperformed, fun u id b' hdetached => ?_⟩
  cases herr : (u.effect (after name past)).refusal (after name past).graph with
  | none =>
    obtain ⟨b'', hok, -⟩ := hperformed u herr
    cases hok.symm.trans hdetached
  | some err =>
    obtain rfl : err = .detached id := (EStateM.Result.error.inj ((hrefused u err herr).symm.trans hdetached)).1
    exact Effect.refusal_ne_detached _ _ _ herr

end

end Builder

end ScriptEngine
