import ScriptEngine.Proofs.Engine.Inquiry
import ScriptEngine.Proofs.Machine.Generation

/-!
What code generation makes of blocks and graphs. The order of the blocks lists every block that
control can reach, and each only once; so each instruction has its own words.
-/

namespace ScriptEngine

namespace Engine

/-! ### Blocks -/

/-- `Translates words code s body exit s'`: what code generation makes of the instructions of a block. -/
inductive Translates (words : InstrId → Nat → Word) :
    List Instr → Emission → List MachineInstr → Option Exit → Emission → Prop
  | nil (s : Emission) : Translates words [] s [] none s
  | silent {i : Instr} {rest : List Instr} {s t s' : Emission} {body : List MachineInstr}
    {exit : Option Exit} : Supplied i s → Generates i (i.operand (words i.id)) s .nothing t →
    Translates words rest t body exit s' → Translates words (i :: rest) s body exit s'
  | effect {i : Instr} {rest : List Instr} {s t s' : Emission} {action : Action}
    {body : List MachineInstr} {exit : Option Exit} : Supplied i s →
    Generates i (i.operand (words i.id)) s (.effect action) t → Translates words rest t body exit s' →
    Translates words (i :: rest) s (⟨none, action⟩ :: body) exit s'
  | value {i : Instr} {rest : List Instr} {s t s' : Emission} {action : Action}
    {body : List MachineInstr} {exit : Option Exit} : Supplied i s →
    Generates i (i.operand (words i.id)) s (.value action) t →
    Translates words rest (t.define i.id) body exit s' →
    Translates words (i :: rest) s (⟨some i.id, action⟩ :: body) exit s'
  | exit {i : Instr} {s t : Emission} {exit : Exit} : Supplied i s →
    Generates i (i.operand (words i.id)) s (.exit exit) t → Translates words [i] s [] (some exit) t

theorem Translates.congr {words words' : InstrId → Nat → Word} {code : List Instr} {s s' : Emission}
    {body : List MachineInstr} {exit : Option Exit} (h : Translates words code s body exit s')
    (hsame : ∀ i ∈ code, words' i.id = words i.id) : Translates words' code s body exit s' := by
  induction h with
  | nil s => exact .nil s
  | @silent i rest s t s' body exit hi hgen _ ih =>
    rw [← hsame i (by simp)] at hgen
    exact .silent hi hgen (ih fun j hj => hsame j (by simp [hj]))
  | @effect i rest s t s' action body exit hi hgen _ ih =>
    rw [← hsame i (by simp)] at hgen
    exact .effect hi hgen (ih fun j hj => hsame j (by simp [hj]))
  | @value i rest s t s' action body exit hi hgen _ ih =>
    rw [← hsame i (by simp)] at hgen
    exact .value hi hgen (ih fun j hj => hsame j (by simp [hj]))
  | @exit i s t exit hi hgen =>
    rw [← hsame i (by simp)] at hgen
    exact .exit hi hgen

/-- The words of the instructions of a piece of code. -/
def AllNamed (code : List Instr) (words : InstrId → Nat → Word) (log : List (Const × Word)) : Prop :=
  ∀ i ∈ code, Named i (words i.id) log

theorem Named.mono {i : Instr} {words : Nat → Word} {log log' : List (Const × Word)}
    (h : Named i words log) (hsub : log ⊆ log') : Named i words log' :=
  fun op hop k c hk hc => hsub (h op hop k c hk hc)

/-- The constants of calls of stubs and caches, with their words. -/
def fronts (words : InstrId → Nat → Word) (code : List Instr) : List (InstrId × Const × Word) :=
  code.filterMap fun i => if i.op = .prim .callStub then (i.constAt? 0).map fun c => (i.id, c, words i.id 0) else none

theorem fronts_congr {words words' : InstrId → Nat → Word} {code : List Instr} (h : ∀ i ∈ code, words' i.id = words i.id) :
    fronts words' code = fronts words code :=
  List.filterMap_congr fun i hi => by rw [h i hi]

theorem mem_fronts {words : InstrId → Nat → Word} {code : List Instr} {i : Instr} {c : Const} (hi : i ∈ code)
    (hop : i.op = .prim .callStub) (hc : i.constAt? 0 = some c) : (i.id, c, words i.id 0) ∈ fronts words code :=
  List.mem_filterMap.mpr ⟨i, hi, by rw [if_pos hop, hc]; rfl⟩

/-- Every call of a piece of code has its own place in a log. -/
def Placed (words : InstrId → Nat → Word) (code : List Instr) (log : List (Const × Word)) : Prop :=
  ((fronts words code).map (·.2)).Sublist log

theorem Named.placed {i : Instr} {words : InstrId → Nat → Word} {log : List (Const × Word)}
    (h : Named i (words i.id) log) : Placed words [i] log := by
  unfold Placed fronts
  by_cases hop : i.op = .prim .callStub
  · cases hc : i.constAt? 0 with
    | none => simp [hc]
    | some c => simpa [hop, hc] using h .callStub hop 0 c (.inl rfl) hc
  · simp [hop]

theorem Placed.append {words : InstrId → Nat → Word} {code code' : List Instr} {log log' : List (Const × Word)}
    (h : Placed words code log) (h' : Placed words code' log') : Placed words (code ++ code') (log ++ log') := by
  unfold Placed fronts at *
  rw [List.filterMap_append, List.map_append]
  exact h.append h'

theorem Placed.congr {words words' : InstrId → Nat → Word} {code : List Instr} {log : List (Const × Word)}
    (h : Placed words code log) (hsame : ∀ i ∈ code, words' i.id = words i.id) : Placed words' code log := by
  rwa [Placed, fronts_congr hsame]

/-- Calls whose words differ along the log have different words. -/
theorem Placed.apart {words : InstrId → Nat → Word} {code : List Instr} {log : List (Const × Word)} {p : Const → Bool}
    (h : Placed words code log) (nodup : ((log.filter fun entry => p entry.1).map (·.2)).Nodup) {i j : Instr} {c d : Const}
    (hi : i ∈ code) (hj : j ∈ code) (hop : i.op = .prim .callStub) (hop' : j.op = .prim .callStub)
    (hc : i.constAt? 0 = some c) (hd : j.constAt? 0 = some d) (hp : p c = true) (hp' : p d = true)
    (hsame : words i.id 0 = words j.id 0) : i.id = j.id := by
  have hsub := (h.filter fun entry => p entry.1).map (·.2)
  rw [List.filter_map, List.map_map] at hsub
  have hinj := List.inj_on_of_nodup_map (hsub.nodup nodup)
  have hmem : ∀ {k : Instr} {e : Const}, k ∈ code → k.op = .prim .callStub → k.constAt? 0 = some e → p e = true →
      (k.id, e, words k.id 0) ∈ (fronts words code).filter ((fun entry => p entry.1) ∘ (·.2)) := fun hk hop hconst hp =>
    List.mem_filter.mpr ⟨mem_fronts hk hop hconst, hp⟩
  exact congrArg Prod.fst (hinj (hmem hi hop hc hp) (hmem hj hop' hd hp') hsame)

/-- Words for one instruction and for others, which have other numbers. -/
theorem AllNamed.cons {i : Instr} {code : List Instr} {first : Nat → Word} {rest : InstrId → Nat → Word}
    {log log' : List (Const × Word)} (hfirst : Named i first log) (hrest : AllNamed code rest log')
    (hplaced : Placed rest code log') (hnew : ∀ j ∈ code, j.id ≠ i.id) : ∃ words : InstrId → Nat → Word,
      words i.id = first ∧ (∀ j ∈ code, words j.id = rest j.id) ∧ AllNamed (i :: code) words (log ++ log') ∧
        Placed words (i :: code) (log ++ log') := by
  have hsame : ∀ j ∈ code, (if j.id = i.id then first else rest j.id) = rest j.id := fun j hj => if_neg (hnew j hj)
  refine ⟨fun id => if id = i.id then first else rest id, by simp, hsame, ?_, ?_⟩
  · intro j hj
    rcases List.mem_cons.mp hj with rfl | hj
    · simpa using hfirst.mono (List.subset_append_left log log')
    · simpa [hnew j hj] using (hrest j hj).mono (List.subset_append_right log log')
  · exact (Named.placed (by simpa using hfirst)).append (hplaced.congr hsame)

namespace Emission

variable {scope : EmissionScope} {s s' : Emission} {e e' : Engine}

theorem instructions_translates {b : BlockId} {ids : List InstrId} {code : List Instr}
    {acc body : List MachineInstr} {exit : Option Exit}
    (hcode : List.Forall₂ (fun id i => scope.graph.instr id = .ok i) ids code)
    (hnodup : (code.map (·.id)).Nodup)
    (h : instructions scope b ids acc s e = .ok ((body, exit), s') e') :
    ∃ words log tail, Answered scope.resolve e log e' ∧ AllNamed code words log ∧ Placed words code log ∧
      body = acc.reverse ++ tail ∧ Translates words code s.bare tail exit s'.bare := by
  induction hcode generalizing acc s e with
  | nil =>
    obtain ⟨heq, rfl, rfl⟩ := pure_eq_ok.mp h
    cases heq
    exact ⟨fun _ _ => default, [], [], .nil _, by simp [AllNamed], by simp [Placed, fronts], by simp, .nil _⟩
  | @cons id i ids code hi hrest ih =>
    rw [List.map_cons, List.nodup_cons] at hnodup
    have hnew : ∀ j ∈ code, j.id ≠ i.id := fun j hj heq =>
      hnodup.1 (heq ▸ List.mem_map_of_mem hj)
    obtain ⟨i', hi', h⟩ := ask_bind_eq_ok.mp h
    obtain rfl : i' = i := Except.ok.inj (hi'.symm.trans hi)
    cases hop : i'.op with
    | script op =>
      rw [hop] at h
      exact (fail_eq_ok.mp h).elim
    | prim op =>
      rw [hop] at h
      obtain ⟨emitted, t, e₁, hprim, hnext⟩ := bind_eq_ok.mp h
      obtain ⟨hsupplied, first, log, hanswered, hnamed, hgen⟩ := primitive_generates hop hprim
      cases emitted with
      | nothing =>
        obtain ⟨rest, log', tail, hanswered', hnamed', hplaced, rfl, htail⟩ := ih hnodup.2 hnext
        obtain ⟨words, rfl, hothers, hall, hplaces⟩ := AllNamed.cons hnamed hnamed' hplaced hnew
        exact ⟨words, _, tail, hanswered.append hanswered', hall, hplaces, rfl,
          .silent hsupplied hgen (htail.congr hothers)⟩
      | effect action =>
        obtain ⟨rest, log', tail, hanswered', hnamed', hplaced, rfl, htail⟩ := ih hnodup.2 hnext
        obtain ⟨words, rfl, hothers, hall, hplaces⟩ := AllNamed.cons hnamed hnamed' hplaced hnew
        exact ⟨words, _, ⟨none, action⟩ :: tail, hanswered.append hanswered', hall, hplaces, by simp,
          .effect hsupplied hgen (htail.congr hothers)⟩
      | value action =>
        obtain ⟨_, _, _, hmodify, hnext⟩ := bind_eq_ok.mp hnext
        obtain ⟨rfl, rfl⟩ := modify_eq_ok.mp hmodify
        obtain ⟨rest, log', tail, hanswered', hnamed', hplaced, rfl, htail⟩ := ih hnodup.2 hnext
        obtain ⟨words, rfl, hothers, hall, hplaces⟩ := AllNamed.cons hnamed hnamed' hplaced hnew
        exact ⟨words, _, ⟨some i'.id, action⟩ :: tail, hanswered.append hanswered', hall, hplaces, by simp,
          .value hsupplied hgen (htail.congr hothers)⟩
      | exit exit =>
        cases hrest with
        | nil =>
          obtain ⟨heq, rfl, rfl⟩ := pure_eq_ok.mp hnext
          cases heq
          have hplaced : Placed (fun _ => first) [i'] log := hnamed.placed
          exact ⟨fun _ => first, log, [], hanswered, by simpa [AllNamed] using hnamed, hplaced, by simp,
            .exit hsupplied hgen⟩
        | cons _ _ => exact (fail_eq_ok.mp hnext).elim

end Emission

/-- An edge to a block, with the latest values that were passed to its parameters. -/
def Carries (params : List InstrId) (s : Emission) (target : BlockId) (edge : Edge) : Prop :=
  edge.target = target ∧
    List.Forall₂ (fun phi (arg : InstrId × Operand) => arg.1 = phi ∧ s.phiArgs.lookup phi = some arg.2)
      params edge.args

/-- How a block ends that no instruction ends. -/
inductive Leaves (g : Graph) (s : Emission) : List BlockId → Exit → Prop
  | jump {target : BlockId} {edge : Edge} : Carries (g.parameters target) s target edge →
    Leaves g s [target] (.jump edge)
  | branch {yes no : BlockId} {condition : Condition} {ifTrue ifFalse : Edge} :
    s.condition = some condition → Carries (g.parameters yes) s yes ifTrue →
    Carries (g.parameters no) s no ifFalse → Leaves g s [yes, no] (.branch condition ifTrue ifFalse)

theorem Leaves.bare {g : Graph} {s : Emission} {next : List BlockId} {exit : Exit}
    (h : Leaves g s next exit) : Leaves g s.bare next exit := by
  cases h with
  | jump hcarries => exact .jump hcarries
  | branch hcondition hyes hno => exact .branch hcondition hyes hno

/-- The state at the start of a block. -/
def Emission.start (s : Emission) (g : Graph) (b : BlockId) : Emission :=
  { s with
    condition := none, lastArithmetic := none, phiArgs := []
    defined := if b.index ≠ 0 then (g.parameters b).foldl (·.insert ·) s.defined else s.defined }

/-- What code generation makes of a block. -/
inductive TranslatesBlock (g : Graph) (words : InstrId → Nat → Word) (b : BlockId) (s : Emission) :
    MachineBlock → Emission → Prop
  | ended {params : List InstrId} {body : List MachineInstr} {exit : Exit} {s' : Emission} :
    Translates words (g.code b) (s.start g b) body (some exit) s' →
    TranslatesBlock g words b s { id := b, params, body, exit } s'
  | fell {params : List InstrId} {body : List MachineInstr} {exit : Exit} {s' : Emission} :
    Translates words (g.code b) (s.start g b) body none s' → Leaves g s' (g.successors b) exit →
    TranslatesBlock g words b s { id := b, params, body, exit } s'

namespace Emission

variable {α β : Type} {scope : EmissionScope} {s s' : Emission} {e e' : Engine}

theorem mapM_cons_eq_ok {a : α} {l : List α} {f : α → EmitM β} {r : List β} :
    ((a :: l).mapM f) s e = .ok (r, s') e' ↔ ∃ b t e₁ rest, f a s e = .ok (b, t) e₁ ∧
      (l.mapM f) t e₁ = .ok (rest, s') e' ∧ r = b :: rest := by
  rw [List.mapM_cons, bind_eq_ok]
  constructor
  · rintro ⟨b, t, e₁, hb, hrest⟩
    obtain ⟨rest, _, _, hl, hpure⟩ := bind_eq_ok.mp hrest
    obtain ⟨rfl, rfl, rfl⟩ := pure_eq_ok.mp hpure
    exact ⟨b, t, e₁, rest, hb, hl, rfl⟩
  · rintro ⟨b, t, e₁, rest, hb, hl, rfl⟩
    exact ⟨b, t, e₁, hb, bind_eq_ok.mpr ⟨rest, s', e', hl, pure_eq_ok.mpr ⟨rfl, rfl, rfl⟩⟩⟩

/-- The arguments an edge passes: for each parameter of the target, what the block being left has
for it. -/
theorem passedArgs_eq_ok {target : BlockId} {phis : List InstrId} {args : List (InstrId × Operand)}
    {t : Emission} {e₁ : Engine} (h : (phis.mapM fun phi => match s.phiArgs.lookup phi with
      | some value => return (phi, value)
      | none => fail "toPhi" ("no value for " ++ phi.name ++ " on edge to " ++ target.name)) s e =
        .ok (args, t) e₁) :
    List.Forall₂ (fun phi (arg : InstrId × Operand) =>
      arg.1 = phi ∧ s.phiArgs.lookup phi = some arg.2) phis args ∧ t = s ∧ e₁ = e := by
  induction phis generalizing args t e₁ with
  | nil =>
    obtain ⟨rfl, rfl, rfl⟩ := pure_eq_ok.mp h
    exact ⟨.nil, rfl, rfl⟩
  | cons phi rest ih =>
    obtain ⟨arg, _, _, tail, harg, htail, rfl⟩ := mapM_cons_eq_ok.mp h
    cases hlookup : s.phiArgs.lookup phi with
    | none =>
      rw [hlookup] at harg
      exact (fail_eq_ok.mp harg).elim
    | some value =>
      rw [hlookup] at harg
      obtain ⟨rfl, rfl, rfl⟩ := pure_eq_ok.mp harg
      obtain ⟨hall, hsame⟩ := ih htail
      exact ⟨.cons ⟨rfl, hlookup⟩ hall, hsame⟩

theorem edge_carries {target : BlockId} {arrow : Edge} {params : List InstrId}
    (hparams : scope.graph.phis target = .ok params)
    (h : edge scope target s e = .ok (arrow, s') e') : Carries params s target arrow ∧ s' = s ∧ e' = e := by
  unfold edge at h
  obtain ⟨phis, hphis, hrest⟩ := ask_bind_eq_ok.mp h
  obtain rfl : phis = params := Except.ok.inj (hphis.symm.trans hparams)
  obtain ⟨t, _, _, hget, hrest⟩ := bind_eq_ok.mp hrest
  obtain ⟨rfl, rfl, rfl⟩ := get_eq_ok.mp hget
  obtain ⟨args, t, _, hrun, hpure⟩ := bind_eq_ok.mp hrest
  obtain ⟨rfl, rfl, rfl⟩ := pure_eq_ok.mp hpure
  obtain ⟨hall, hsame⟩ := passedArgs_eq_ok hrun
  exact ⟨⟨rfl, hall⟩, hsame⟩

theorem fallThrough_leaves {b : BlockId} {exit : Exit} (hl : scope.graph.Listed)
    (h : fallThrough scope b s e = .ok (exit, s') e') :
    Leaves scope.graph s (scope.graph.successors b) exit ∧ s' = s ∧ e' = e := by
  have hedge : ∀ {target : BlockId} {arrow : Edge} {t t' : Emission} {e₁ e₂ : Engine},
      edge scope target t e₁ = .ok (arrow, t') e₂ →
      Carries (scope.graph.parameters target) t target arrow ∧ t' = t ∧ e₂ = e₁ := by
    intro target arrow t t' e₁ e₂ hrun
    obtain ⟨phis, hphis, -⟩ := ask_bind_eq_ok.mp hrun
    rw [hl.eq_of_phis hphis] at hphis
    exact edge_carries hphis hrun
  unfold fallThrough at h
  obtain ⟨content, hcontent, h⟩ := ask_bind_eq_ok.mp h
  rw [← (Graph.of_block_eq_ok hcontent).2.2]
  generalize content.successors = next at h
  rcases next with _ | ⟨yes, _ | ⟨no, _ | ⟨third, rest⟩⟩⟩
  · exact (fail_eq_ok.mp h).elim
  · obtain ⟨arrow, _, _, hrun, hpure⟩ := bind_eq_ok.mp h
    obtain ⟨hcarries, rfl, rfl⟩ := hedge hrun
    obtain ⟨rfl, rfl, rfl⟩ := pure_eq_ok.mp hpure
    exact ⟨.jump hcarries, rfl, rfl⟩
  · obtain ⟨_, _, _, hget, h⟩ := bind_eq_ok.mp h
    obtain ⟨rfl, rfl, rfl⟩ := get_eq_ok.mp hget
    generalize hcondition : s.condition = condition at h
    cases condition with
    | none => exact (fail_eq_ok.mp h).elim
    | some condition =>
      obtain ⟨ifTrue, _, _, htrue, hrest⟩ := bind_eq_ok.mp h
      obtain ⟨hyes, rfl, rfl⟩ := hedge htrue
      obtain ⟨ifFalse, _, _, hfalse, hpure⟩ := bind_eq_ok.mp hrest
      obtain ⟨hno, rfl, rfl⟩ := hedge hfalse
      obtain ⟨rfl, rfl, rfl⟩ := pure_eq_ok.mp hpure
      exact ⟨.branch hcondition hyes hno, rfl, rfl⟩
  · exact (fail_eq_ok.mp h).elim

/-- A block of the machine's from where its parameters are known: its instructions, then the exit
they end in or the edges to its successors. -/
theorem translatesBlock_of_started {b : BlockId} {content : MachineBlock} {params : List InstrId}
    {t : Emission} (hl : scope.graph.Listed) (ht : t.bare = s.bare.start scope.graph b) (h : (do
      let instrs := (← ask (scope.graph.block b)).instrs
      let (body, ended) ← instructions scope b instrs []
      let exit ← match ended with
        | some exit => pure exit
        | none => fallThrough scope b
      return { id := b, params, body, exit } : EmitM MachineBlock) t e = .ok (content, s') e') :
    ∃ words log, Answered scope.resolve e log e' ∧ AllNamed (scope.graph.code b) words log ∧
      Placed words (scope.graph.code b) log ∧ TranslatesBlock scope.graph words b s.bare content s'.bare := by
  obtain ⟨B, hB, h⟩ := ask_bind_eq_ok.mp h
  rw [(Graph.of_block_eq_ok hB).2.1] at h
  obtain ⟨⟨body, ended⟩, u, e₁, hrun, h⟩ := bind_eq_ok.mp h
  obtain ⟨words, log, tail, hanswered, hnamed, hplaced, rfl, htrans⟩ :=
    instructions_translates (hl.forall₂_code b) (hl.code_nodup b) hrun
  rw [ht] at htrans
  cases ended with
  | some exit =>
    obtain ⟨rfl, rfl, rfl⟩ := pure_eq_ok.mp h
    exact ⟨words, log, hanswered, hnamed, hplaced, .ended htrans⟩
  | none =>
    obtain ⟨exit, _, _, hexit, hpure⟩ := bind_eq_ok.mp h
    obtain ⟨rfl, rfl, rfl⟩ := pure_eq_ok.mp hpure
    obtain ⟨hleaves, rfl, rfl⟩ := fallThrough_leaves hl hexit
    exact ⟨words, log, hanswered, hnamed, hplaced, .fell htrans hleaves.bare⟩

theorem block_translates {b : BlockId} {content : MachineBlock} (hl : scope.graph.Listed)
    (h : block scope b s e = .ok (content, s') e') : ∃ words log,
      Answered scope.resolve e log e' ∧ AllNamed (scope.graph.code b) words log ∧
      Placed words (scope.graph.code b) log ∧ TranslatesBlock scope.graph words b s.bare content s'.bare := by
  unfold block at h
  obtain ⟨_, _, _, hmodify, h⟩ := bind_eq_ok.mp h
  obtain ⟨rfl, rfl⟩ := modify_eq_ok.mp hmodify
  obtain ⟨params, hparams, h⟩ := ask_bind_eq_ok.mp h
  obtain rfl := hl.eq_of_phis hparams
  split at h
  · rename_i hb
    obtain ⟨_, _, _, hdefine, h⟩ := bind_eq_ok.mp h
    obtain ⟨rfl, rfl⟩ := modify_eq_ok.mp hdefine
    exact translatesBlock_of_started hl (by simp [start, bare, hb]) h
  · rename_i hb
    exact translatesBlock_of_started hl (by simp [start, bare, hb]) h

end Emission

/-! ### Graphs -/

/-- What code generation makes of some blocks. -/
inductive TranslatesBlocks (g : Graph) (words : InstrId → Nat → Word) :
    List BlockId → Emission → List MachineBlock → Prop
  | nil (s : Emission) : TranslatesBlocks g words [] s []
  | cons {b : BlockId} {rest : List BlockId} {s t : Emission} {content : MachineBlock}
    {blocks : List MachineBlock} : TranslatesBlock g words b s content t →
    TranslatesBlocks g words rest t blocks → TranslatesBlocks g words (b :: rest) s (content :: blocks)

theorem TranslatesBlock.congr {g : Graph} {words words' : InstrId → Nat → Word} {b : BlockId}
    {s s' : Emission} {content : MachineBlock} (h : TranslatesBlock g words b s content s')
    (hsame : ∀ i ∈ g.code b, words' i.id = words i.id) : TranslatesBlock g words' b s content s' := by
  cases h with
  | ended h => exact .ended (h.congr hsame)
  | fell h hleaves => exact .fell (h.congr hsame) hleaves

theorem TranslatesBlocks.congr {g : Graph} {words words' : InstrId → Nat → Word} {order : List BlockId}
    {s : Emission} {blocks : List MachineBlock} (h : TranslatesBlocks g words order s blocks)
    (hsame : ∀ b ∈ order, ∀ i ∈ g.code b, words' i.id = words i.id) :
    TranslatesBlocks g words' order s blocks := by
  induction h with
  | nil s => exact .nil s
  | cons hblock _ ih =>
    exact .cons (hblock.congr (hsame _ (by simp))) (ih fun b hb => hsame b (by simp [hb]))

theorem blocks_translate {scope : EmissionScope} {s s' : Emission} {e e' : Engine} {order : List BlockId}
    {blocks : List MachineBlock} (hl : scope.graph.Listed) (hnodup : order.Nodup)
    (h : (order.mapM (Emission.block scope)) s e = .ok (blocks, s') e') : ∃ words log,
      Answered scope.resolve e log e' ∧ (∀ b ∈ order, AllNamed (scope.graph.code b) words log) ∧
      Placed words (order.flatMap scope.graph.code) log ∧ TranslatesBlocks scope.graph words order s.bare blocks := by
  induction order generalizing s e blocks with
  | nil =>
    obtain ⟨rfl, rfl, rfl⟩ := Emission.pure_eq_ok.mp h
    exact ⟨fun _ _ => default, [], .nil _, by simp, by simp [Placed, fronts], .nil _⟩
  | cons b rest ih =>
    rw [List.nodup_cons] at hnodup
    obtain ⟨content, t, e₁, tail, hblock, hrest, rfl⟩ := Emission.mapM_cons_eq_ok.mp h
    obtain ⟨first, log, hanswered, hnamed, hplaced, htrans⟩ := Emission.block_translates hl hblock
    obtain ⟨others, log', hanswered', hnamed', hplaced', htrans'⟩ := ih hnodup.2 hrest
    have hapart : ∀ b' ∈ rest, ∀ i ∈ scope.graph.code b', i.id ∉ scope.graph.listing b := by
      intro b' hb' i hi hmem
      have hown := hl.block_of_mem (hl.mem_code_iff.mpr ⟨hmem, (hl.mem_code_iff.mp hi).2⟩)
      exact hnodup.1 (hown ▸ hl.block_of_mem hi ▸ hb')
    have hfirst : ∀ i ∈ scope.graph.code b, (if i.id ∈ scope.graph.listing b then first i.id else others i.id) =
        first i.id := fun i hi => if_pos (hl.mem_code_iff.mp hi).1
    have hothers : ∀ b' ∈ rest, ∀ i ∈ scope.graph.code b',
        (if i.id ∈ scope.graph.listing b then first i.id else others i.id) = others i.id :=
      fun b' hb' i hi => if_neg (hapart b' hb' i hi)
    refine ⟨fun id => if id ∈ scope.graph.listing b then first id else others id, _,
      hanswered.append hanswered', ?_, ?_, .cons (htrans.congr hfirst) (htrans'.congr hothers)⟩
    · intro b' hb' i hi
      rcases List.mem_cons.mp hb' with rfl | hb'
      · simpa [(hl.mem_code_iff.mp hi).1] using (hnamed i hi).mono (List.subset_append_left log log')
      · simpa [hapart b' hb' i hi] using (hnamed' b' hb' i hi).mono (List.subset_append_right log log')
    · rw [List.flatMap_cons]
      refine (hplaced.congr hfirst).append (hplaced'.congr fun i hi => ?_)
      obtain ⟨b', hb', hi⟩ := List.mem_flatMap.mp hi
      exact hothers b' hb' i hi

/-- The program that code generation makes of a graph, and the words that it got for its constants. -/
theorem emitProgram_translates {scope : EmissionScope} {e e' : Engine} {p : Program} {record : CodeRecord}
    (hl : scope.graph.Listed) (h : emitProgram scope e = .ok (p, record) e') :
    ∃ order words log, scope.graph.reversePostorder = .ok order ∧ Answered scope.resolve e log e' ∧
      (∀ b ∈ order, AllNamed (scope.graph.code b) words log) ∧ Placed words (order.flatMap scope.graph.code) log ∧
      TranslatesBlocks scope.graph words order { record := { name := "" } } p.blocks := by
  unfold emitProgram at h
  cases horder : scope.graph.reversePostorder with
  | error err =>
    rw [horder] at h
    cases h
  | ok order =>
    rw [horder] at h
    obtain ⟨found, e₁, hfound, h⟩ := State.bind_eq_ok.mp h
    obtain ⟨rfl, rfl⟩ := State.pure_eq_ok.mp hfound
    obtain ⟨_, e₂, hcheck, h⟩ := State.bind_eq_ok.mp h
    erw [forIn_phis] at hcheck
    cases herror : phiError? scope.graph order with
    | some err =>
      rw [herror] at hcheck
      exact (State.throw_eq_ok.mp hcheck).elim
    | none =>
      rw [herror] at hcheck
      obtain ⟨-, rfl⟩ := State.pure_eq_ok.mp hcheck
      obtain ⟨⟨blocks, done⟩, e₃, hrun, hpure⟩ := State.bind_eq_ok.mp h
      obtain ⟨heq, rfl⟩ := State.pure_eq_ok.mp hpure
      cases heq
      obtain ⟨words, log, hanswered, hnamed, hplaced, htrans⟩ :=
        blocks_translate hl (Graph.nodup_of_reversePostorder horder) hrun
      exact ⟨order, words, log, rfl, hanswered, hnamed, hplaced, htrans⟩

end Engine
end ScriptEngine
