import ScriptEngine.Proofs.Graph.Safety

/-!
The walk over a tree, form by form, and the graphs that it leaves: every graph of a script is
finished.
-/

namespace ScriptEngine.Graph

open State Construction Syntax Meaning

/-! ### Branches -/

theorem Sketch.perm {g : Graph} {O O' : List BlockId} (h : g.Sketch O) (hp : O.Perm O') :
    g.Sketch O' :=
  ⟨h.toCore, fun b hb => h.opened b (hp.mem_iff.mpr hb),
    fun b hlt hb => h.closed b hlt fun hmem => hb (hp.mem_iff.mp hmem), hp.nodup_iff.mp h.distinct⟩

/-- The two blocks that a branch leads to. -/
theorem forks_splitGraph {g : Graph} {b : BlockId} {test : InstrId} (hb : b.index < g.blocks.size)
    (hblank : g.successors b = []) :
    Forks (appended g b (.script .branch) [.value test]) (splitGraph g b test) [b]
      [⟨g.blocks.size⟩, ⟨g.blocks.size + 1⟩] := by
  have hsize := appended_blocks_size g b (.script .branch) [.value test]
  have hget : ∀ i : Nat, (splitGraph g b test).blocks[i]?.getD ({} : Block) =
      if i = b.index then { (appended g b (.script .branch) [.value test]).blocks[i]?.getD {} with
        successors := [⟨g.blocks.size⟩, ⟨g.blocks.size + 1⟩] }
      else (appended g b (.script .branch) [.value test]).blocks[i]?.getD {} := by
    intro i
    simp only [splitGraph, addBlock, Array.getElem?_modify, Array.getElem?_push, Array.size_push,
      hsize]
    grind
  refine ⟨rfl, by simp [splitGraph, addBlock]; omega, fun b' => ?_, fun b' => ?_, fun t => ?_,
    fun a ha => ?_, by simp⟩
  · simp only [listing, Array.getD_eq_getD_getElem?, hget]
    split <;> rfl
  · simp only [successors, Array.getD_eq_getD_getElem?, hget, List.mem_singleton]
    have hiff : b'.index = b.index ↔ b' = b := by cases b'; cases b; simp
    by_cases h : b' = b
    · simp [h]
    · rw [if_neg (hiff.not.mpr h), if_neg h]
  · obtain ⟨k⟩ := t
    have hk : (splitGraph g b test).blocks.size = g.blocks.size + 2 := by
      simp [splitGraph, addBlock]
    rw [hk, hsize]
    simp only [List.mem_cons, List.not_mem_nil, or_false, BlockId.mk.injEq]
    omega
  · obtain rfl := List.mem_singleton.mp ha
    rw [successors_appended]
    exact ⟨by rwa [hsize], hblank⟩

section

variable {live live₁ live₂ : Prop} {Γ : List InstrId} {c c' : Construction} {home : Nat}
  {O : List BlockId}

/-- A split: both new blocks wait, and what was available is so in both of them. -/
theorem Good.split {test : InstrId} (h : Good home O c) (hd : c.frame.done = false)
    (ht : c.graph.Avail c.here test) :
    let g := splitGraph c.graph c.here test
    let yes : BlockId := ⟨c.graph.blocks.size⟩
    let no : BlockId := ⟨c.graph.blocks.size + 1⟩
    g.Sketch (yes :: no :: O) ∧ Grows c.graph g ∧ g.Refers home c.graphs.size ∧
      ∀ b ∈ [yes, no], ∀ id, c.graph.Avail c.here id → g.Avail b id := by
  intro g yes no
  have hs := h.sketch_running hd
  have hlt := h.here_lt hd
  have hadds := hs.listed.adds_appended (.script .branch) [.value test] hlt
  have hcore : (appended c.graph c.here (.script .branch) [.value test]).Core :=
    hs.toCore.appended hlt fun id hid => by
      obtain rfl : id = test := by simpa using reads_newInstr hid
      exact ht
  have hf : Forks (appended c.graph c.here (.script .branch) [.value test]) g [c.here] [yes, no] :=
    forks_splitGraph hlt (hs.opened c.here (by simp)).blank
  refine ⟨hs.split hadds hcore rfl rfl hf (by simp [yes, no]), hadds.grows.trans hf.grows, ?_,
    fun b hb id hid => hf.avail hcore hb fun a ha => ?_⟩
  · intro b i hi
    rw [hf.code] at hi
    exact h.refers.adds hadds (by simp [newInstr]) b i hi
  · obtain rfl := List.mem_singleton.mp ha
    exact hadds.grows.avail hs.toCore hlt hid

/-- An arm starts in a block that waited. -/
theorem Good.armAt {b : BlockId} {env : Env} (hs : c.graph.Sketch (b :: O))
    (hplace : home < c.graphs.size) (hrefers : c.graph.Refers home c.graphs.size)
    (hgraphs : ∀ (k : Nat) (g : Graph), c.graphs[k]? = some (some g) →
      g.Sketch [] ∧ g.Refers k c.graphs.size)
    (henv : ∀ x id, env.get? x = some id → c.graph.Avail b id) :
    Good home O (armAt c b env) :=
  ⟨hs, fun _ => henv, hplace, hrefers, hgraphs⟩

/-- A branch with two arms: it returns if both arms do. -/
theorem safe_fork {test : InstrId} (order : Bool) {first second : ConstructM Unit} (ht : test ∈ Γ)
    (h₁ : Safe live₁ Γ first fun _ => []) (h₂ : Safe live₂ Γ second fun _ => []) :
    Safe (live₁ ∨ live₂) Γ (fork test order first second) fun _ => [] := by
  intro home O c u c' hg hd hΓ hok
  obtain ⟨b₁, b₂, c₁, c₂, -, -, -, -, hwhich, hfirst, hsecond, hjoin⟩ := fork_eq_ok hok
  obtain ⟨hs, hgrows, hrefers, havail⟩ := hg.split hd (hΓ test ht)
  have hyes := hwhich true
  have hno := hwhich false
  -- Whatever the order of the arms is, their blocks are the two new ones.
  have hperm : (BlockId.mk c.graph.blocks.size :: BlockId.mk (c.graph.blocks.size + 1) :: O).Perm
      (b₁ :: b₂ :: O) := by
    cases order
    · simp only [if_true, if_false, Bool.true_eq_false, Bool.false_eq_true] at hyes hno
      rw [hyes, hno]
      exact .swap _ _ _
    · simp only [if_true, if_false, Bool.false_eq_true] at hyes hno
      rw [hyes, hno]
  have hmem : ∀ b, b = b₁ ∨ b = b₂ → b ∈ [BlockId.mk c.graph.blocks.size,
      BlockId.mk (c.graph.blocks.size + 1)] := by
    rintro b (rfl | rfl) <;> cases order <;> simp_all
  have hs := hs.perm hperm
  have hstart := hs.toCore
  obtain ⟨hg₁, hk₁, hl₁, hh₁⟩ := h₁
    (Good.armAt (c := c.withGraph _) (O := b₂ :: O) hs hg.place hrefers hg.graphs
      fun x id hx => havail b₁ (hmem b₁ (.inl rfl)) id (hg.env hd x id hx)) rfl
    (fun id hid => havail b₁ (hmem b₁ (.inl rfl)) id (hΓ id hid)) hfirst
  have hlt₂ : b₂.index < (splitGraph c.graph c.here test).blocks.size :=
    (hs.opened b₂ (by simp)).valid
  have havail₂ : ∀ id, c.graph.Avail c.here id → c₁.graph.Avail b₂ id := fun id hid =>
    hk₁.grows.avail hstart hlt₂ (havail b₂ (hmem b₂ (.inr rfl)) id hid)
  have hs₁ : c₁.graph.Sketch (b₂ :: unfinished c₁ O) := by
    refine hg₁.sketch.perm ?_
    unfold unfinished
    split
    · rfl
    · exact .swap _ _ _
  obtain ⟨hg₂, hk₂, hl₂, hh₂⟩ := h₂
    (Good.armAt hs₁ hg₁.place hg₁.refers hg₁.graphs
      fun x id hx => havail₂ id (hg.env hd x id hx)) rfl
    (fun id hid => havail₂ id (hΓ id hid)) hsecond
  have hk : Keeps c c₂ :=
    ⟨hgrows.trans (hk₁.grows.trans hk₂.grows), hk₁.graphs.trans hk₂.graphs⟩
  have hhere₁ : c₁.frame.done = false → c₁.here.index < c₁.graph.blocks.size := hg₁.here_lt
  -- The arms that have not returned, as the blocks that are not finished.
  have hblocks : unfinished c₂ (unfinished c₁ O) =
      (([armOf c₁, armOf c₂].filter (!·.done)).map (·.block)).reverse ++ O := by
    unfold unfinished
    cases hd₁ : c₁.frame.done <;> cases hd₂ : c₂.frame.done <;> simp [armOf, hd₁, hd₂]
  have hlivemem : ∀ a, a ∈ [armOf c₁, armOf c₂].filter (!·.done) ↔
      (a = armOf c₁ ∧ c₁.frame.done = false) ∨ (a = armOf c₂ ∧ c₂.frame.done = false) := by
    intro a
    simp only [List.mem_filter, List.mem_cons, List.not_mem_nil, or_false, Bool.not_eq_true']
    constructor
    · rintro ⟨rfl | rfl, h⟩
      · exact .inl ⟨rfl, h⟩
      · exact .inr ⟨rfl, h⟩
    · rintro (⟨rfl, h⟩ | ⟨rfl, h⟩)
      · exact ⟨.inl rfl, h⟩
      · exact ⟨.inr rfl, h⟩
  by_cases hlive : [armOf c₁, armOf c₂].filter (!·.done) = []
  · have hdead₁ : c₁.frame.done = true := by
      by_contra hd₁
      have := (hlivemem (armOf c₁)).mpr (.inl ⟨rfl, by simpa using hd₁⟩)
      simp [hlive] at this
    have hdead₂ : c₂.frame.done = true := by
      by_contra hd₂
      have := (hlivemem (armOf c₂)).mpr (.inr ⟨rfl, by simpa using hd₂⟩)
      simp [hlive] at this
    unfold join at hjoin
    simp only [hlive] at hjoin
    rw [if_pos List.isEmpty_nil] at hjoin
    obtain rfl := modifyFrame_eq_ok.mp hjoin
    have hsO : c₂.graph.Sketch O := by
      have := hg₂.sketch
      rwa [hblocks, hlive] at this
    refine ⟨⟨hsO, fun hd => ?_, hg₂.place, hg₂.refers, hg₂.graphs⟩, ⟨hk.grows, hk.graphs⟩,
      fun hl => ?_, fun hd => ?_⟩
    · cases hd
    · rcases hl with hl | hl
      · rw [hl₁ hl] at hdead₁
        cases hdead₁
      · rw [hl₂ hl] at hdead₂
        cases hdead₂
    · cases hd
  · have hsketch : c₂.graph.Sketch
        (([armOf c₁, armOf c₂].filter (!·.done)).map (·.block) ++ O) := by
      refine hg₂.sketch.perm ?_
      rw [hblocks]
      exact (List.reverse_perm _).append_right O
    have harm : ∀ a ∈ [armOf c₁, armOf c₂].filter (!·.done),
        (∀ x id, a.env.get? x = some id → c₂.graph.Avail a.block id) ∧
          ∀ id ∈ Γ, c₂.graph.Avail a.block id := by
      intro a ha
      rcases (hlivemem a).mp ha with ⟨rfl, hd₁⟩ | ⟨rfl, hd₂⟩
      · have hkeep : ∀ id, c₁.graph.Avail c₁.here id → c₂.graph.Avail c₁.here id := fun id =>
          hk₂.grows.avail hg₁.sketch.toCore (hhere₁ hd₁)
        exact ⟨fun x id hx => hkeep id (hg₁.env hd₁ x id hx),
          fun id hid => hkeep id (hh₁ hd₁ id (by simpa using hid))⟩
      · exact ⟨hg₂.env hd₂, fun id hid => hh₂ hd₂ id (by simpa using hid)⟩
    obtain ⟨hs', hd', hgrows', hgraphs', henv', hcode', havail'⟩ := join_sketch hjoin hlive hsketch
      fun a ha => (harm a ha).1
    refine ⟨⟨?_, fun _ => henv', ?_, ?_, ?_⟩, ⟨hk.grows.trans hgrows', ?_⟩, fun _ => hd',
      fun _ id hid => havail' id fun a ha => (harm a ha).2 id (by simpa using hid)⟩
    · rw [unfinished, hd']
      exact hs'
    · rw [hgraphs']
      exact hg₂.place
    · rw [hgraphs']
      intro b i hi k hk
      rcases hcode' b i hi with hi | hi | hi | hi
      · exact hg₂.refers b i hi k hk
      · simp [hi.2] at hk
      · obtain ⟨-, p, v, hins⟩ := hi
        simp [hins] at hk
      · obtain ⟨-, v, hv, hins⟩ := hi
        rw [hins, List.mem_singleton] at hk
        cases hk
        cases hv
    · rw [hgraphs']
      exact hg₂.graphs
    · rw [hgraphs']
      exact hk.graphs

/-! ### Variables, places and operators -/

/-- A change of the environment only. -/
theorem Good.withEnv {env : Env} (h : Good home O c)
    (henv : c.frame.done = false → ∀ x id, env.get? x = some id → c.graph.Avail c.here id) :
    Good home O (withEnv c env) :=
  ⟨h.sketch, henv, h.place, h.refers, h.graphs⟩

theorem safe_envInsert {x : Variable} {id : InstrId} (h : id ∈ Γ) :
    Safe True Γ (envInsert x id) fun _ => [] := by
  intro home O c u c' hg hd hΓ hok
  obtain rfl := envInsert_eq_ok.mp hok
  refine ⟨hg.withEnv fun _ y i hy => ?_, ⟨Grows.refl _, le_rfl⟩, fun _ => hd, fun _ => hΓ⟩
  rw [get?_insert] at hy
  split at hy
  · cases hy
    exact hΓ _ h
  · exact hg.env hd y i hy

theorem safe_envGet? {x : Variable} : Safe True Γ (envGet? x) Option.toList := by
  intro home O c r c' hg hd hΓ hok
  obtain ⟨rfl, rfl⟩ := pure_eq_ok.mp hok
  refine ⟨hg, Keeps.refl _, fun _ => hd, fun _ id hid => ?_⟩
  rcases List.mem_append.mp hid with hid | hid
  · exact hg.env hd x id (Option.mem_toList.mp hid)
  · exact hΓ id hid

theorem safe_loadName {name : String} : Safe True Γ (loadName name) fun id => [id] := by
  refine safe_envGet?.bind fun r => ?_
  cases r with
  | some value => exact Safe.pure (by simp)
  | none => exact Safe.ite (safe_literal rfl) (safe_emit (.loadGlobal name) (by simp [textInput])
      (by simp [textInput]))

theorem safe_loadProperty {object key : InstrId} (ho : object ∈ Γ) (hk : key ∈ Γ) :
    Safe True Γ (loadProperty object key) fun id => [id] :=
  safe_emit (.loadProperty object key) (by simp [ho, hk]) (by simp)

theorem safe_storeProperty {object key value : InstrId} (ho : object ∈ Γ) (hk : key ∈ Γ)
    (hv : value ∈ Γ) : Safe True Γ (storeProperty object key value) fun id => [id] :=
  safe_emit (.storeProperty object key value) (by simp [ho, hk, hv]) (by simp)

/-- The results that a place needs. -/
def placeIds : Place → List InstrId
  | .local _ | .global _ => []
  | .property object key => [object, key]

theorem safe_placeOf {name : String} : Safe True Γ (placeOf name) placeIds :=
  Safe.get fun _ => Safe.get fun _ => Safe.ite (Safe.pure (by simp [placeIds]))
    (Safe.pure (by simp [placeIds]))

theorem safe_read {place : Place} (h : placeIds place ⊆ Γ) :
    Safe True Γ place.read fun id => [id] := by
  cases place with
  | «local» name => exact safe_loadName
  | global name => exact safe_loadName
  | property object key => exact safe_loadProperty (h (by simp [placeIds])) (h (by simp [placeIds]))

theorem safe_write {place : Place} {value : InstrId} (h : placeIds place ⊆ Γ) (hv : value ∈ Γ) :
    Safe True Γ (place.write value) fun id => [id] := by
  cases place with
  | «local» name => exact (safe_envInsert hv).bind fun _ => Safe.pure (by simpa using hv)
  | global name =>
    exact safe_emit (.storeGlobal name value) (by simp [textInput, hv]) (by simp [textInput])
  | property object key =>
    exact safe_storeProperty (h (by simp [placeIds])) (h (by simp [placeIds])) hv

theorem safe_applyBinary {op : BinaryOp} {left right : InstrId} (hl : left ∈ Γ) (hr : right ∈ Γ) :
    Safe True Γ (applyBinary op left right) fun id => [id] :=
  safe_emit (.binary op left right) (by simp [hl, hr]) (by simp)

theorem safe_applySign {sign : BinarySign} {left right : InstrId} (hl : left ∈ Γ)
    (hr : right ∈ Γ) : Safe True Γ (applySign sign left right) fun id => [id] := by
  cases sign with
  | other => exact Safe.throw
  | gt | ge => exact safe_applyBinary hr hl
  | _ => exact safe_applyBinary hl hr

theorem safe_applyUnary {op : UnaryOp} {value : InstrId} (h : value ∈ Γ) :
    Safe True Γ (applyUnary op value) fun id => [id] :=
  safe_emit (.unary op value) (by simp [h]) (by simp)

theorem safe_compound? {sign : AssignSign} : Safe True Γ (compound? sign) fun _ => [] := by
  cases sign with
  | other => exact Safe.throw
  | _ => exact Safe.pure (by simp)

theorem isValue_numberConst (x : Double) : (numberConst x).isValue = true := by
  unfold numberConst
  split <;> rfl

/-- The constant of a key is a value. -/
theorem safe_keyConst {α : Type} {key : Syntax.Key} {f : Const → ConstructM α}
    {out : α → List InstrId} (h : ∀ v, v.isValue = true → Safe live Γ (f v) out) :
    Safe live Γ (keyConst key >>= f) out := by
  intro home O c a c' hg hd hΓ hok
  obtain ⟨v, t, hkey, hf⟩ := bind_eq_ok.mp hok
  cases key with
  | text s =>
    obtain ⟨rfl, rfl⟩ := pure_eq_ok.mp hkey
    exact h _ rfl hg hd hΓ hf
  | number n =>
    obtain ⟨rfl, rfl⟩ := pure_eq_ok.mp hkey
    exact h _ (isValue_numberConst n) hg hd hΓ hf
  | computed => exact (throw_eq_ok.mp hkey).elim

theorem safe_takeResult : Safe True Γ takeResult fun id => [id] := by
  refine safe_envGet?.bind fun r => ?_
  cases r with
  | none => exact safe_literal rfl
  | some value =>
    intro home O c a c' hg hd hΓ hok
    obtain ⟨_, c₁, hmod, hret⟩ := bind_eq_ok.mp hok
    obtain rfl := modifyFrame_eq_ok.mp hmod
    obtain ⟨rfl, rfl⟩ := pure_eq_ok.mp hret
    refine ⟨hg.withEnv fun _ y i hy => ?_, ⟨Grows.refl _, le_rfl⟩, fun _ => hd, fun _ id hid => ?_⟩
    · rw [get?_erase] at hy
      split at hy
      · cases hy
      · exact hg.env hd y i hy
    · exact hΓ id (by simpa using hid)

/-- A value that depends on a branch. -/
theorem safe_choice {test : InstrId} (order : Bool) {first second : ConstructM InstrId}
    (ht : test ∈ Γ) (h₁ : Safe True Γ first fun id => [id])
    (h₂ : Safe True Γ second fun id => [id]) :
    Safe True Γ (fork test order (first >>= envInsert .result) (second >>= envInsert .result) >>=
      fun _ => takeResult) fun id => [id] := by
  have harm : ∀ {m : ConstructM InstrId}, (Safe True Γ m fun id => [id]) →
      Safe True Γ (m >>= envInsert .result) fun _ => [] :=
    fun h => h.bind fun id => safe_envInsert (by simp)
  have hfork := safe_fork order ht (harm h₁) (harm h₂)
  rw [or_self] at hfork
  exact hfork.bind fun _ => safe_takeResult

theorem safe_callWith {callee receiver : InstrId} {args : List InstrId} (hf : callee ∈ Γ)
    (hr : receiver ∈ Γ) (hargs : args ⊆ Γ) :
    Safe True Γ (callWith callee receiver args) fun id => [id] :=
  safe_call (fun _ _ _ h => build_emit_eq_ok h) (.call callee receiver) rfl hargs
    (by simp [countInput, Builder.raw, hf, hr]) (by simp [countInput, Builder.raw])

theorem safe_construct {callee : InstrId} {args : List InstrId} (hf : callee ∈ Γ)
    (hargs : args ⊆ Γ) :
    Safe True Γ (pushArgs args >>= fun _ => emit .construct [callee, countInput args])
      fun id => [id] :=
  safe_call (fun _ _ _ h => emit_eq_ok h) (.construct callee) rfl hargs
    (by simp [countInput, Builder.raw, hf]) (by simp [countInput, Builder.raw])

theorem safe_bind {name : String} {value : InstrId} (h : value ∈ Γ) :
    Safe True Γ (Construction.bind name value) fun _ => [] :=
  Safe.get fun _ => Safe.ite
    (safe_emit (.storeGlobal name value) (by simp [h]) (by simp)).discard
    (safe_envInsert h)

/-! ### Functions -/

theorem safe_bindParams : ∀ (items : List Binding) (i : Nat) (Γ : List InstrId),
    Safe True Γ (bindParams i items) fun _ => []
  | [], _, _ => Safe.return
  | .name text :: rest, i, Γ => by
    have harg : Safe True Γ (build (Builder.arg i)) fun id => [id] :=
      safe_append (fun _ _ _ h => build_emit_eq_ok h) (.arg i) (by simp [Builder.raw])
        (by simp [Builder.raw])
    refine harg.bind fun id => (safe_envInsert (by simp)).bind fun _ => ?_
    exact safe_bindParams rest (i + 1) _
  | .pattern :: _, _, _ => Safe.throw

/-- The number of parameters is no part of the code. -/
theorem safe_setParams (n : Nat) :
    Safe True Γ (build (modify fun b => { b with graph.params := n })) fun _ => [] := by
  intro home O c u c' hg hd hΓ hok
  obtain ⟨b, hmod, rfl⟩ := build_eq_ok.mp hok
  obtain rfl := modify_eq_ok.mp hmod
  have hs := hg.sketch_running hd
  have hadds : Adds c.graph { c.graph with params := n } c.here [] :=
    ⟨(List.append_nil _).symm, fun _ _ => rfl, fun _ => rfl, rfl⟩
  have hcore : Core { c.graph with params := n } := by
    refine ⟨⟨hs.listed.numbered, hs.listed.found, hs.listed.once, hs.listed.placed⟩, hs.entry,
      hs.forward, hs.entered, fun b before i hp id hid => ?_, hs.plain⟩
    have hlt : b.index < c.graph.blocks.size := lt_of_mem_code (hp.subset (by simp) : i ∈ _)
    exact hadds.grows.definedBefore hs.toCore hlt (hs.defined b before i hp id hid)
  obtain ⟨hg', hk, hh⟩ := hg.adds hd hadds hcore .nil (by simp)
  exact ⟨hg', hk, fun _ => hd, fun _ => hh Γ hΓ⟩

theorem safe_params (ps : Params) : Safe True Γ (Construction.params ps) fun _ => [] := by
  unfold Construction.params
  have hbind : Safe True Γ (do
      bindParams 0 ps.items
      build (modify fun b => { b with graph.params := ps.items.length })) fun _ => [] :=
    (safe_bindParams ps.items 0 Γ).bind fun _ => safe_setParams _
  refine Safe.ite ?_ hbind
  intro home O c u c' _ _ _ hok
  obtain ⟨_, _, hthrow, -⟩ := bind_eq_ok.mp hok
  exact (throw_eq_ok.mp hthrow).elim

theorem retUndefined_done {u : Unit} (h : retUndefined c = .ok u c') : c'.frame.done = true := by
  cases hd : c.frame.done with
  | true =>
    rw [retUndefined_of_done hd] at h
    cases h
    exact hd
  | false =>
    change (if (!c.frame.done) = true then literal .undefined >>= ret else pure ()) c = _ at h
    rw [hd] at h
    obtain ⟨_, _, -, hret⟩ := bind_eq_ok.mp h
    exact ret_done hret

theorem safe_retUndefined : Safe False Γ retUndefined fun _ => [] := by
  unfold retUndefined
  exact Safe.get fun _ => Safe.ite ((safe_literal rfl).bind fun _ => safe_ret (by simp))
    Safe.return.weaken

/-- The frame of a function starts with one open block. -/
theorem good_start (graphs : Array (Option Graph)) (name : String) (topLevel : Bool)
    (hgraphs : ∀ (k : Nat) (g : Graph), graphs[k]? = some (some g) →
      g.Sketch [] ∧ g.Refers k graphs.size) :
    Good graphs.size []
      { graphs := graphs.push none
        frame := { builder := Builder.start name, topLevel } } := by
  have hcode : ∀ b, (Builder.start name).graph.code b = [] := by
    intro b
    rw [List.eq_nil_iff_forall_not_mem]
    intro i hi
    obtain ⟨id, -, hid⟩ := mem_code.mp hi
    simp [Builder.start, addBlock] at hid
  have hlisting : ∀ b, (Builder.start name).graph.listing b = [] := by
    rintro ⟨k⟩
    cases k <;> simp [listing, Builder.start, addBlock]
  have hsucc : ∀ b, (Builder.start name).graph.successors b = [] := by
    rintro ⟨k⟩
    cases k <;> simp [successors, Builder.start, addBlock]
  have hedge : ∀ a b, ¬ (Builder.start name).graph.Edge a b := by simp [Edge, hsucc]
  have hsize : (Builder.start name).graph.blocks.size = 1 := by simp [Builder.start, addBlock]
  have hcore : (Builder.start name).graph.Core := by
    refine ⟨⟨fun k i hi => ?_, by simp [hlisting], by simp [hlisting], fun k i hi => ?_⟩,
      by omega, fun a b he => absurd he (hedge a b), fun b h0 hlt => by omega,
      fun b before i hp => ?_, by simp [hcode]⟩
    · simp [Builder.start, addBlock] at hi
    · simp [Builder.start, addBlock] at hi
    · rw [hcode] at hp
      have := hp.length_le
      simp at this
  refine ⟨⟨hcore, fun b hb => ?_, fun b hlt hb => ?_, by simp [unfinished]⟩, fun _ x id hx => ?_,
    by simp, fun b i hi => ?_, fun k g hk => ?_⟩
  · obtain rfl : b = ⟨0⟩ := List.mem_singleton.mp hb
    exact ⟨by change 0 < (Builder.start name).graph.blocks.size; omega, hsucc _, [], [],
      hcode _, by simp, .nil⟩
  · have hlt : b.index < (Builder.start name).graph.blocks.size := hlt
    obtain ⟨k⟩ := b
    obtain rfl : k = 0 := by simp only at hlt; omega
    exact absurd (List.mem_singleton.mpr rfl) hb
  · simp [Env.get?] at hx
  · have hi : i ∈ (Builder.start name).graph.code b := hi
    rw [hcode] at hi
    cases hi
  · have hk : (graphs.push none)[k]? = some (some g) := hk
    rw [Array.getElem?_push] at hk
    split at hk
    · cases hk
    · obtain ⟨hs, hr⟩ := hgraphs k g hk
      exact ⟨hs, hr.mono (by simp)⟩

/-- A function is built in a frame of its own, and its graph is put into its place. -/
theorem safe_inFrame {m : ConstructM Unit} {name : String}
    (hm : Safe False [] m fun _ => []) (hdone : ∀ c u c', m c = .ok u c' → c'.frame.done = true) :
    Safe True Γ (do
      let index ← reserve
      inFrame index { builder := Builder.start name } m
      emit .closure [.const (.function index)]) fun id => [id] := by
  intro home O c id c' hg hd hΓ hok
  obtain ⟨_, _, hres, hok⟩ := bind_eq_ok.mp hok
  obtain ⟨rfl, rfl⟩ := reserve_eq_ok hres
  obtain ⟨_, c₁, hframe, hok⟩ := bind_eq_ok.mp hok
  obtain ⟨t, hbody, rfl⟩ := inFrame_eq_ok hframe
  obtain ⟨hlt, rfl, rfl⟩ := emit_eq_ok hok
  obtain ⟨hgt, hkt, -, -⟩ := hm (good_start c.graphs name false hg.graphs) rfl (by simp [Holds]) hbody
  have hdt := hdone _ _ _ hbody
  have hsize : c.graphs.size < t.graphs.size := by
    have := hkt.graphs
    simp only [Array.size_push] at this
    omega
  have hplace := hg.place
  -- The frame around the function goes on where it was, with more graphs.
  have hg₁ : Good home O
      { graphs := t.graphs.setIfInBounds c.graphs.size (some t.graph), frame := c.frame } := by
    refine ⟨hg.sketch, hg.env, ?_, ?_, fun k g hk => ?_⟩
    · simp only [Array.size_setIfInBounds]
      omega
    · simp only [Array.size_setIfInBounds]
      exact hg.refers.mono (by omega)
    · simp only [Array.size_setIfInBounds] at hk ⊢
      by_cases hke : k = c.graphs.size
      · subst hke
        rw [Array.getElem?_setIfInBounds_self_of_lt hsize] at hk
        cases hk
        exact ⟨hgt.sketch_done hdt, hgt.refers⟩
      · rw [Array.getElem?_setIfInBounds_ne (by omega)] at hk
        exact hgt.graphs k g hk
  have hc := (hg.sketch_running hd).toCore
  have hadds := hc.listed.adds_appended (.script .closure)
    [.const (.function c.graphs.size)] hlt
  have hcore : (appended c.graph c.here (.script .closure)
      [.const (.function c.graphs.size)]).Core :=
    hc.appended hlt fun id hid => by simpa using reads_newInstr hid
  obtain ⟨hg₂, hk, hh⟩ := hg₁.adds hd hadds hcore (.simple (.closure c.graphs.size) .nil) (by
    intro i hi k hk
    obtain rfl := List.mem_singleton.mp hi
    simp only [newInstr, List.mem_singleton, Input.const.injEq, Const.function.injEq] at hk
    simp only [Array.size_setIfInBounds]
    omega)
  refine ⟨hg₂, ⟨hk.grows, ?_⟩, fun _ => hd, fun _ id hid => ?_⟩
  · change c.graphs.size ≤ (t.graphs.setIfInBounds c.graphs.size (some t.graph)).size
    rw [Array.size_setIfInBounds]
    omega
  · rcases List.mem_append.mp hid with hid | hid
    · obtain rfl := List.mem_singleton.mp hid
      exact hc.avail_appended hlt rfl
    · exact hh Γ hΓ id hid

/-- The steps of a function, given those of its body. -/
theorem safe_function {name : Option String} {ps : Params} {content : Syntax.Body}
    (h : Safe False [] (body content) fun _ => []) :
    Safe True Γ (closure (.mk name ps content)) fun id => [id] := by
  rw [Construction.closure]
  refine safe_inFrame ?_ fun c u c' hok => ?_
  · exact (safe_params ps).bind fun _ => h.andThen safe_retUndefined fun c => retUndefined_of_done
  · obtain ⟨_, _, -, hok⟩ := bind_eq_ok.mp hok
    obtain ⟨_, _, -, hok⟩ := bind_eq_ok.mp hok
    exact retUndefined_done hok

/-! ### Forms with several shapes -/

theorem safe_conditional {test : InstrId} {yes no : ConstructM InstrId} (ht : test ∈ Γ)
    (h₁ : Safe True Γ yes fun id => [id]) (h₂ : Safe True Γ no fun id => [id]) :
    Safe True Γ (do
      let (yesBlock, noBlock) ← split test
      let env := (← get).frame.env
      let yesArm ← resultArm yesBlock env yes
      let noArm ← resultArm noBlock env no
      join [yesArm, noArm]
      takeResult) fun id => [id] := by
  have h := safe_choice true ht h₁ h₂
  simpa only [fork, resultArm, bind_assoc, if_true, pure_bind] using h

theorem safe_logical (sign : LogicalSign) {left : InstrId} {right : ConstructM InstrId}
    (hl : left ∈ Γ) (h : Safe True Γ right fun id => [id]) :
    Safe True Γ (do
      let (yes, no) ← split left
      let env := (← get).frame.env
      let (long, short) ← match sign with
        | .and => pure (yes, no)
        | .or => pure (no, yes)
        | .coalesce => unsupported "Operator ??"
      let shortArm ← resultArm short env (pure left)
      let longArm ← resultArm long env right
      join [shortArm, longArm]
      takeResult) fun id => [id] := by
  have hshort : Safe True Γ (pure left : ConstructM InstrId) fun id => [id] :=
    Safe.pure (by simpa using hl)
  cases sign with
  | and =>
    have hall := safe_choice false hl hshort h
    simpa only [fork, resultArm, bind_assoc, pure_bind, Bool.false_eq_true, if_false] using hall
  | or =>
    have hall := safe_choice true hl hshort h
    simpa only [fork, resultArm, bind_assoc, pure_bind, if_true] using hall
  | coalesce =>
    intro home O c id c' _ _ _ hok
    obtain ⟨_, _, -, hok⟩ := bind_eq_ok.mp hok
    obtain ⟨_, _, -, hok⟩ := bind_eq_ok.mp hok
    obtain ⟨_, _, hthrow, -⟩ := bind_eq_ok.mp hok
    exact (throw_eq_ok.mp hthrow).elim

/-- The steps of a conditional statement after its test. -/
theorem safe_branch {test : InstrId} {yes no : ConstructM Unit} (ht : test ∈ Γ)
    (h₁ : Safe False Γ yes fun _ => []) (h₂ : Safe False Γ no fun _ => []) :
    Safe False Γ (do
      let (yesBlock, noBlock) ← split test
      let env := (← get).frame.env
      resume yesBlock env
      yes
      let yesArm ← capture
      resume noBlock env
      no
      join [yesArm, ← capture]) fun _ => [] := by
  have h := safe_fork true ht h₁ h₂
  rw [or_self] at h
  simpa only [fork, if_true] using h

theorem safe_deleteName (text : String) :
    Safe True Γ (expression (.unary .delete (.name text))) fun id => [id] := by
  rw [expression]
  refine safe_envGet?.bind fun r => ?_
  cases r with
  | none => exact safe_emit (.deleteGlobal text) (by simp [textInput]) (by simp [textInput])
  | some _ => exact safe_literal rfl

theorem safe_deleteValue {operand : Expr} (h : Safe True Γ (expression operand) fun id => [id])
    (hm : ∀ object name, operand ≠ .member object name)
    (hi : ∀ object key, operand ≠ .index object key) (hn : ∀ text, operand ≠ .name text) :
    Safe True Γ (expression (.unary .delete operand)) fun id => [id] := by
  have hsteps : expression (.unary .delete operand) = (do
      discard (expression operand)
      literal (.bool true)) := by
    rw [expression]
    · exact fun object name h => hm object name h
    · exact fun object key h => hi object key h
    · exact fun text h => hn text h
  rw [hsteps]
  exact h.discard.bind fun _ => safe_literal rfl

theorem safe_plainCall {callee : Expr} {args : List Element}
    (h : Safe True Γ (expression callee) fun id => [id])
    (hargs : ∀ Δ, Safe True Δ (arguments args) id)
    (hm : ∀ object name, callee ≠ .member object name)
    (hi : ∀ object key, callee ≠ .index object key) :
    Safe True Γ (expression (.call callee args)) fun id => [id] := by
  have hsteps : expression (.call callee args) = (do
      let callee ← expression callee
      let receiver ← literal .undefined
      callWith callee receiver (← arguments args)) := by
    rw [expression]
    · exact fun object name h => hm object name h
    · exact fun object key h => hi object key h
  rw [hsteps]
  refine h.bind fun f => (safe_literal rfl).bind fun r => (hargs _).bind fun ids => ?_
  exact safe_callWith (by simp) (by simp) (by simp)

/-- A call of a property passes its object. -/
theorem safe_methodCall {object : InstrId} {key : ConstructM InstrId} {args : List Element}
    (ho : object ∈ Γ) (hkey : Safe True Γ key fun id => [id])
    (hargs : ∀ Δ, Safe True Δ (arguments args) id) :
    Safe True Γ (do
      let key ← key
      callWith (← loadProperty object key) object (← arguments args)) fun id => [id] := by
  refine hkey.bind fun k => ?_
  refine (safe_loadProperty (by simp [ho]) (by simp)).bind fun f => (hargs _).bind fun ids => ?_
  exact safe_callWith (by simp) (by simp [ho]) (by simp)

theorem safe_assign (sign : AssignSign) {target : Target} {value : Expr}
    (hplace : ∀ Δ, Safe True Δ (placeFor target) placeIds)
    (h : ∀ Δ, Safe True Δ (expression value) fun id => [id]) :
    Safe True Γ (expression (.assign sign target value)) fun id => [id] := by
  rw [expression]
  refine safe_compound?.bind fun op => (hplace _).bind fun place => ?_
  cases op with
  | none => exact (h _).bind fun id => safe_write (by simp) (by simp)
  | some op =>
    refine (safe_read (by simp)).bind fun old => (h _).bind fun right => ?_
    refine (safe_applyBinary (by simp) (by simp)).bind fun new => safe_write ?_ (by simp)
    intro id hid
    simp [hid]

theorem safe_hoist_other {s : Stmt} {rest : List Stmt} (hs : ∀ f, s ≠ .function f)
    (h : Safe True Γ (hoist rest) fun _ => []) : Safe True Γ (hoist (s :: rest)) fun _ => [] := by
  have hsteps : hoist (s :: rest) = hoist rest := by
    rw [hoist]
    exact fun name ps content => hs _
  rw [hsteps]
  exact h

theorem safe_statements {s : Stmt} {rest : List Stmt} (hs : Safe False Γ (statement s) fun _ => [])
    (h : Safe False Γ (statements rest) fun _ => []) :
    Safe False Γ (statements (s :: rest)) fun _ => [] := by
  intro home O c u c' hg hd hΓ hok
  rw [statements_of_running hd] at hok
  exact hs.andThen h (fun c hd => statements_of_done hd rest) hg hd hΓ hok

end

/-! ### The walk -/

mutual

theorem safe_expression (Γ : List InstrId) :
    ∀ x : Expr, Safe True Γ (expression x) fun id => [id]
  | .number value => by
    rw [expression]
    exact safe_literal (isValue_numberConst value)
  | .text _ => by
    rw [expression]
    exact safe_literal rfl
  | .bool _ => by
    rw [expression]
    exact safe_literal rfl
  | .null => by
    rw [expression]
    exact safe_literal rfl
  | .name _ => by
    rw [expression]
    exact safe_loadName
  | .this => by
    rw [expression]
    exact safe_append (fun _ _ _ h => build_emit_eq_ok h) .receiver (by simp) (by simp)
  | .binary sign left right => by
    rw [expression]
    refine (safe_expression Γ left).bind fun l => (safe_expression _ right).bind fun r => ?_
    exact safe_applySign (by simp) (by simp)
  | .logical sign left right => by
    rw [expression]
    exact (safe_expression Γ left).bind fun l =>
      safe_logical sign (by simp) (safe_expression _ right)
  | .member object name => by
    rw [expression]
    refine (safe_expression Γ object).bind fun o => (safe_literal rfl).bind fun k => ?_
    exact safe_loadProperty (by simp) (by simp)
  | .index object key => by
    rw [expression]
    refine (safe_expression Γ object).bind fun o => (safe_expression _ key).bind fun k => ?_
    exact safe_loadProperty (by simp) (by simp)
  | .conditional test yes no => by
    rw [expression]
    exact (safe_expression Γ test).bind fun t =>
      safe_conditional (by simp) (safe_expression _ yes) (safe_expression _ no)
  | .paren inner => by
    rw [expression]
    exact safe_expression Γ inner
  | .sequence first second => by
    rw [expression]
    exact (safe_expression Γ first).discard.bind fun _ => safe_expression _ second
  | .privateMember => by
    rw [expression]
    exact Safe.throw
  | .unsupported => by
    rw [expression]
    exact Safe.throw
  | .unary .minus operand => by
    rw [expression]
    exact (safe_expression Γ operand).bind fun _ => safe_applyUnary (by simp)
  | .unary .not operand => by
    rw [expression]
    exact (safe_expression Γ operand).bind fun _ => safe_applyUnary (by simp)
  | .unary .void operand => by
    rw [expression]
    exact (safe_expression Γ operand).discard.bind fun _ => safe_literal rfl
  | .unary (.other _) _ => by
    rw [expression]
    exact Safe.throw
  | .unary .delete operand => by
    cases operand with
    | member object name =>
      rw [expression]
      refine (safe_expression Γ object).bind fun o => (safe_literal rfl).bind fun k => ?_
      exact safe_emit (.deleteProperty o k) (by simp) (by simp)
    | index object key =>
      rw [expression]
      refine (safe_expression Γ object).bind fun o => (safe_expression _ key).bind fun k => ?_
      exact safe_emit (.deleteProperty o k) (by simp) (by simp)
    | name text => exact safe_deleteName text
    | _ => exact safe_deleteValue (safe_expression Γ _) (by simp) (by simp) (by simp)
  | .assign sign target value =>
    safe_assign sign (fun Δ => safe_placeFor Δ target) fun Δ => safe_expression Δ value
  | .call callee args => by
    cases callee with
    | member object name =>
      rw [expression]
      exact (safe_expression Γ object).bind fun o =>
        safe_methodCall (by simp) (safe_literal rfl) fun Δ => safe_arguments Δ args
    | index object key =>
      rw [expression]
      exact (safe_expression Γ object).bind fun o =>
        safe_methodCall (by simp) (safe_expression _ key) fun Δ => safe_arguments Δ args
    | _ =>
      exact safe_plainCall (safe_expression Γ _) (fun Δ => safe_arguments Δ args) (by simp)
        (by simp)
  | .new callee args => by
    rw [expression]
    refine (safe_expression Γ callee).bind fun f => (safe_arguments _ args).bind fun ids => ?_
    exact safe_construct (by simp) (by simp)
  | .object list => by
    rw [expression]
    refine (safe_emit .object (by simp) (by simp)).bind fun o => ?_
    exact (safe_properties _ o (by simp) list).bind fun _ => Safe.pure (by simp)
  | .array list => by
    rw [expression]
    refine (safe_emit (.array list.length) (by simp [Builder.raw]) (by simp [Builder.raw])).bind
      fun a => ?_
    exact (safe_elements _ a (by simp) 0 list).bind fun _ => Safe.pure (by simp)
  | .function (.mk _ _ content) => by
    rw [expression]
    exact safe_function (safe_body [] content)

theorem safe_placeFor (Γ : List InstrId) : ∀ x : Target, Safe True Γ (placeFor x) placeIds
  | .name text => by
    rw [placeFor]
    exact safe_placeOf
  | .member object name => by
    rw [placeFor]
    refine (safe_expression Γ object).bind fun o => (safe_literal rfl).bind fun k => ?_
    exact Safe.pure (by simp [placeIds])
  | .index object key => by
    rw [placeFor]
    refine (safe_expression Γ object).bind fun o => (safe_expression _ key).bind fun k => ?_
    exact Safe.pure (by simp [placeIds])
  | .other => by
    rw [placeFor]
    exact Safe.throw

theorem safe_arguments (Γ : List InstrId) : ∀ x : List Element, Safe True Γ (arguments x) id
  | [] => by
    rw [arguments]
    exact Safe.pure (by simp)
  | .item value :: rest => by
    rw [arguments]
    refine (safe_expression Γ value).bind fun v => (safe_arguments _ rest).bind fun vs => ?_
    exact Safe.pure (by simp)
  | .hole :: rest => by
    rw [arguments]
    exact safe_arguments Γ rest
  | .spread :: _ => by
    rw [arguments]
    exact Safe.throw

theorem safe_properties (Γ : List InstrId) (object : InstrId) (ho : object ∈ Γ) :
    ∀ x : List Property, Safe True Γ (properties object x) fun _ => []
  | [] => by
    rw [properties]
    exact Safe.return
  | .entry key value :: rest => by
    rw [properties]
    refine safe_keyConst fun v hv => ?_
    refine (safe_expression Γ value).bind fun id => (safe_literal hv).bind fun k => ?_
    refine (safe_storeProperty (by simp [ho]) (by simp) (by simp)).discard.bind fun _ => ?_
    exact safe_properties _ object (by simp [ho]) rest
  | .spread :: _ => by
    rw [properties]
    exact Safe.throw

theorem safe_elements (Γ : List InstrId) (array : InstrId) (ho : array ∈ Γ) :
    ∀ (i : Nat) (x : List Element), Safe True Γ (elements array i x) fun _ => []
  | _, [] => by
    rw [elements]
    exact Safe.return
  | i, .item value :: rest => by
    rw [elements]
    refine (safe_expression Γ value).bind fun id => (safe_literal rfl).bind fun k => ?_
    refine (safe_storeProperty (by simp [ho]) (by simp) (by simp)).discard.bind fun _ => ?_
    exact safe_elements _ array (by simp [ho]) (i + 1) rest
  | i, .hole :: rest => by
    rw [elements]
    exact safe_elements Γ array ho (i + 1) rest
  | _, .spread :: _ => by
    rw [elements]
    exact Safe.throw

theorem safe_body (Γ : List InstrId) : ∀ x : Syntax.Body, Safe False Γ (body x) fun _ => []
  | .expression value => by
    rw [body]
    exact (safe_expression Γ value).bind fun id => safe_ret (by simp)
  | .statements list => by
    rw [body]
    exact (safe_hoist Γ list).bind fun _ => safe_statementList _ list

theorem safe_hoist (Γ : List InstrId) : ∀ list : List Stmt, Safe True Γ (hoist list) fun _ => []
  | [] => by
    rw [hoist]
    exact Safe.return
  | .function (.mk name ps content) :: rest => by
    rw [hoist]
    refine (safe_function (safe_body [] content)).bind fun id => ?_
    cases name with
    | none => exact safe_hoist _ rest
    | some name => exact (safe_bind (by simp)).bind fun _ => safe_hoist _ rest
  | .expression _ :: rest => safe_hoist_other (by simp) (safe_hoist Γ rest)
  | .declare _ :: rest => safe_hoist_other (by simp) (safe_hoist Γ rest)
  | .ret _ :: rest => safe_hoist_other (by simp) (safe_hoist Γ rest)
  | .block _ :: rest => safe_hoist_other (by simp) (safe_hoist Γ rest)
  | .branch _ _ _ :: rest => safe_hoist_other (by simp) (safe_hoist Γ rest)
  | .empty :: rest => safe_hoist_other (by simp) (safe_hoist Γ rest)
  | .debugger :: rest => safe_hoist_other (by simp) (safe_hoist Γ rest)
  | .loop :: rest => safe_hoist_other (by simp) (safe_hoist Γ rest)
  | .unsupported :: rest => safe_hoist_other (by simp) (safe_hoist Γ rest)

theorem safe_statementList (Γ : List InstrId) :
    ∀ list : List Stmt, Safe False Γ (statements list) fun _ => []
  | [] => by
    rw [statements]
    exact Safe.return.weaken
  | s :: rest => safe_statements (safe_statement Γ s) (safe_statementList Γ rest)

theorem safe_statement (Γ : List InstrId) : ∀ s : Stmt, Safe False Γ (statement s) fun _ => []
  | .expression value => by
    rw [statement]
    refine (safe_expression Γ value).bind fun id => Safe.get fun _ => ?_
    exact Safe.ite (safe_envInsert (by simp)).weaken Safe.return.weaken
  | .declare items => by
    rw [statement]
    exact (safe_declarators Γ items).weaken
  | .ret (some value) => by
    rw [statement]
    exact (safe_expression Γ value).bind fun id => safe_ret (by simp)
  | .ret none => by
    rw [statement]
    exact (safe_literal rfl).bind fun id => safe_ret (by simp)
  | .block list => by
    rw [statement]
    exact (safe_hoist Γ list).bind fun _ => safe_statementList _ list
  | .branch test yes no => by
    rw [statement]
    exact (safe_expression Γ test).bind fun t =>
      safe_branch (by simp) (safe_statement _ yes) (safe_alternative _ no)
  | .function _ => by
    rw [statement]
    exact Safe.return.weaken
  | .empty => by
    rw [statement]
    exact Safe.return.weaken
  | .debugger => by
    rw [statement]
    exact (safe_append (fun _ _ _ h => build_emit_eq_ok h) .trap (by simp) (by simp)).discard.weaken
  | .loop => by
    rw [statement]
    exact Safe.throw
  | .unsupported => by
    rw [statement]
    exact Safe.throw

theorem safe_alternative (Γ : List InstrId) :
    ∀ s : Option Stmt, Safe False Γ (alternative s) fun _ => []
  | some s => by
    rw [alternative]
    exact safe_statement Γ s
  | none => by
    rw [alternative]
    exact Safe.return.weaken

theorem safe_declarators (Γ : List InstrId) :
    ∀ list : List Declarator, Safe True Γ (declarators list) fun _ => []
  | [] => by
    rw [declarators]
    exact Safe.return
  | .mk .pattern _ :: _ => by
    rw [declarators]
    exact Safe.throw
  | .mk (.name text) (some value) :: rest => by
    rw [declarators]
    refine (safe_expression Γ value).bind fun id => (safe_bind (by simp)).bind fun _ => ?_
    exact safe_declarators _ rest
  | .mk (.name text) none :: rest => by
    rw [declarators]
    refine (safe_literal rfl).bind fun id => (safe_bind (by simp)).bind fun _ => ?_
    exact safe_declarators _ rest

end

/-! ### All graphs of a script -/

theorem safe_retCompletion {Γ : List InstrId} {undefined : InstrId} (h : undefined ∈ Γ) :
    Safe False Γ (retCompletion undefined) fun _ => [] := by
  refine Safe.get fun _ => Safe.ite (safe_envGet?.bind fun r => safe_ret ?_) Safe.return.weaken
  cases r with
  | none => simp [h]
  | some id => simp

theorem retCompletion_done {undefined : InstrId} {c c' : Construction} {u : Unit}
    (h : retCompletion undefined c = .ok u c') : c'.frame.done = true := by
  cases hd : c.frame.done with
  | true =>
    rw [retCompletion_of_done undefined hd] at h
    cases h
    exact hd
  | false =>
    change (if (!c.frame.done) = true then
      (envGet? .completion >>= fun r => ret (r.getD undefined)) else pure ()) c = .ok u c' at h
    rw [hd] at h
    obtain ⟨_, _, -, hret⟩ := bind_eq_ok.mp h
    exact ret_done hret

/-- The construction that the graphs of a script come from. -/
theorem good_of_graphsOf {list : List Stmt} {graphs : List Graph} (h : graphsOf list = .ok graphs) :
    ∃ t, Good 0 [] t ∧ t.frame.done = true ∧ graphs.length = t.graphs.size ∧
      (t.graphs.setIfInBounds 0 (some t.graph)).toList = graphs.map some := by
  unfold graphsOf at h
  cases hs : (script list).run { frame := { builder := Builder.start "" } } with
  | error e c => rw [hs] at h; cases h
  | ok u c =>
    rw [hs] at h
    obtain ⟨_, _, hres, hframe⟩ := bind_eq_ok.mp hs
    obtain ⟨rfl, rfl⟩ := reserve_eq_ok hres
    obtain ⟨t, hbody, rfl⟩ := inFrame_eq_ok hframe
    have hgraphs : (t.graphs.setIfInBounds 0 (some t.graph)).toList = graphs.map some :=
      finish_eq_ok h
    have hsafe : Safe False [] (do
        let undefined ← literal .undefined
        envInsert .completion undefined
        hoist list
        statements list
        retCompletion undefined) fun _ => [] := by
      refine (safe_literal rfl).bind fun id => (safe_envInsert (by simp)).bind fun _ => ?_
      refine (safe_hoist _ list).bind fun _ => ?_
      exact (safe_statementList _ list).andThen (safe_retCompletion (by simp))
        fun c hd => retCompletion_of_done id hd
    have hstart := good_start #[] "script" true (by simp)
    obtain ⟨hgood, -, -, -⟩ := hsafe hstart rfl (by simp [Holds]) hbody
    refine ⟨t, hgood, ?_, ?_, hgraphs⟩
    · obtain ⟨_, _, -, hbody⟩ := bind_eq_ok.mp hbody
      obtain ⟨_, _, -, hbody⟩ := bind_eq_ok.mp hbody
      obtain ⟨_, _, -, hbody⟩ := bind_eq_ok.mp hbody
      obtain ⟨_, _, -, hbody⟩ := bind_eq_ok.mp hbody
      exact retCompletion_done hbody
    · rw [← List.length_map some, ← hgraphs, Array.length_toList, Array.size_setIfInBounds]

/-- A script has a graph of its own. -/
theorem length_of_graphsOf {list : List Stmt} {graphs : List Graph}
    (h : graphsOf list = .ok graphs) : 0 < graphs.length := by
  obtain ⟨t, hgood, -, hlength, -⟩ := good_of_graphsOf h
  rw [hlength]
  exact hgood.place

/-- Every graph of a script is finished, and refers to later graphs only. -/
theorem sketch_of_graphsOf {list : List Stmt} {graphs : List Graph}
    (h : graphsOf list = .ok graphs) {k : Nat} {g : Graph} (hk : graphs[k]? = some g) :
    g.Sketch [] ∧ g.Refers k graphs.length := by
  obtain ⟨t, hgood, hdone, hlength, hgraphs⟩ := good_of_graphsOf h
  have hget : (t.graphs.setIfInBounds 0 (some t.graph))[k]? = some (some g) := by
    rw [← Array.getElem?_toList, hgraphs, List.getElem?_map, hk]
    rfl
  rw [hlength]
  by_cases h0 : k = 0
  · subst h0
    rw [Array.getElem?_setIfInBounds_self_of_lt hgood.place] at hget
    cases hget
    exact ⟨hgood.sketch_done hdone, hgood.refers⟩
  · rw [Array.getElem?_setIfInBounds_ne (by omega)] at hget
    exact hgood.graphs k g hget

end ScriptEngine.Graph
