import ScriptEngine.Proofs.Graph.Joining
import ScriptEngine.Proofs.Meaning.Preservation

/-!
Every graph of a script is finished: all of its blocks have their form, and all that an instruction
reads is available where it stands. The walk over the tree keeps, at every moment, a sketch whose
open blocks are the current one and those that other arms are waiting to go on in.
-/

namespace ScriptEngine.Graph

open State Construction Syntax Meaning

/-- The functions that a graph refers to have places between two numbers. -/
def Refers (g : Graph) (low high : Nat) : Prop :=
  ∀ b, ∀ i ∈ g.code b, ∀ k, Input.const (.function k) ∈ i.inputs → low < k ∧ k < high

theorem Refers.mono {g : Graph} {low high high' : Nat} (h : g.Refers low high)
    (hle : high ≤ high') : g.Refers low high' :=
  fun b i hi k hk => ⟨(h b i hi k hk).1, (h b i hi k hk).2.trans_le hle⟩

theorem Refers.adds {g g' : Graph} {b : BlockId} {new : List Instr} {low high : Nat}
    (h : g.Refers low high) (ha : Adds g g' b new)
    (hnew : ∀ i ∈ new, ∀ k, Input.const (.function k) ∈ i.inputs → low < k ∧ k < high) :
    g'.Refers low high := by
  intro b' i hi
  by_cases hb : b' = b
  · subst hb
    rw [ha.code] at hi
    rcases List.mem_append.mp hi with hi | hi
    · exact h b' i hi
    · exact hnew i hi
  · rw [ha.others b' hb] at hi
    exact h b' i hi

/-- Blocks that are not finished: some that wait, and the current one unless it has returned. -/
def unfinished (c : Construction) (O : List BlockId) : List BlockId :=
  if c.frame.done then O else c.here :: O

/-- A construction of the function with number `home`, with blocks that wait. -/
structure Good (home : Nat) (O : List BlockId) (c : Construction) : Prop where
  sketch : c.graph.Sketch (unfinished c O)
  env : c.frame.done = false → ∀ x id, c.frame.env.get? x = some id → c.graph.Avail c.here id
  place : home < c.graphs.size
  refers : c.graph.Refers home c.graphs.size
  graphs : ∀ (k : Nat) (g : Graph), c.graphs[k]? = some (some g) → g.Sketch [] ∧ g.Refers k c.graphs.size

/-- Results that are available at the end of the current block. -/
def Holds (c : Construction) (Γ : List InstrId) : Prop := ∀ id ∈ Γ, c.graph.Avail c.here id

/-- What steps never undo. -/
structure Keeps (c c' : Construction) : Prop where
  grows : Grows c.graph c'.graph
  graphs : c.graphs.size ≤ c'.graphs.size

/-- Steps that only need the results in `Γ`, and keep them and those of their answer available. If
`live` is so, they do not return. -/
def Safe {α : Type} (live : Prop) (Γ : List InstrId) (m : ConstructM α)
    (out : α → List InstrId) : Prop :=
  ∀ ⦃home O c a c'⦄, Good home O c → c.frame.done = false → Holds c Γ → m c = .ok a c' →
    Good home O c' ∧ Keeps c c' ∧ (live → c'.frame.done = false) ∧
      (c'.frame.done = false → Holds c' (out a ++ Γ))

section

variable {α β : Type} {live : Prop} {Γ : List InstrId} {c c' : Construction} {home : Nat}
  {O : List BlockId}

theorem Keeps.refl (c : Construction) : Keeps c c := ⟨Grows.refl _, le_rfl⟩

theorem Keeps.trans {c₁ c₂ : Construction} (h₁ : Keeps c c₁) (h₂ : Keeps c₁ c₂) : Keeps c c₂ :=
  ⟨h₁.grows.trans h₂.grows, h₁.graphs.trans h₂.graphs⟩

theorem Good.sketch_running (h : Good home O c) (hd : c.frame.done = false) :
    c.graph.Sketch (c.here :: O) := by
  have := h.sketch
  rwa [unfinished, hd] at this

theorem Good.sketch_done (h : Good home O c) (hd : c.frame.done = true) : c.graph.Sketch O := by
  have := h.sketch
  rwa [unfinished, hd] at this

theorem Good.here_lt (h : Good home O c) (hd : c.frame.done = false) :
    c.here.index < c.graph.blocks.size :=
  ((h.sketch_running hd).opened c.here (by simp)).valid

/-! ### Composition -/

theorem Safe.bind {m : ConstructM α} {f : α → ConstructM β} {out : α → List InstrId}
    {out' : β → List InstrId} (h₁ : Safe True Γ m out)
    (h₂ : ∀ a, Safe live (out a ++ Γ) (f a) out') : Safe live Γ (m >>= f) out' := by
  intro home O c b c₂ hg hd hΓ hm
  obtain ⟨a, c₁, hm₁, hm₂⟩ := bind_eq_ok.mp hm
  obtain ⟨hg₁, hk₁, hd₁, hh₁⟩ := h₁ hg hd hΓ hm₁
  have hd₁ := hd₁ trivial
  obtain ⟨hg₂, hk₂, hd₂, hh₂⟩ := h₂ a hg₁ hd₁ (hh₁ hd₁) hm₂
  refine ⟨hg₂, hk₁.trans hk₂, hd₂, fun hd id hid => hh₂ hd id ?_⟩
  simp only [List.mem_append] at hid ⊢
  tauto

theorem Safe.pure {a : α} {out : α → List InstrId} (h : out a ⊆ Γ) : Safe True Γ (pure a) out := by
  intro home O c b c' hg hd hΓ hm
  obtain ⟨rfl, rfl⟩ := pure_eq_ok.mp hm
  refine ⟨hg, Keeps.refl _, fun _ => hd, fun _ id hid => hΓ id ?_⟩
  exact (List.mem_append.mp hid).elim (fun hi => h hi) fun hi => hi

theorem Safe.return : Safe True Γ (Pure.pure () : ConstructM Unit) fun _ => [] := Safe.pure (by simp)

theorem Safe.throw {e : SourceError} {out : α → List InstrId} :
    Safe live Γ (throw e : ConstructM α) out :=
  fun _ _ _ _ _ _ _ _ hm => (throw_eq_ok.mp hm).elim

theorem Safe.discard {m : ConstructM α} {out : α → List InstrId} (h : Safe live Γ m out) :
    Safe live Γ (discard m) fun _ => [] := by
  intro home O c u c' hg hd hΓ hm
  obtain ⟨a, hm⟩ := discard_eq_ok.mp hm
  obtain ⟨hg', hk, hd', hh⟩ := h hg hd hΓ hm
  exact ⟨hg', hk, hd', fun hd id hid => hh hd id (List.mem_append_right _ (by simpa using hid))⟩

/-- Steps that look at the state. -/
theorem Safe.get {f : Construction → ConstructM α} {out : α → List InstrId}
    (h : ∀ c, Safe live Γ (f c) out) : Safe live Γ (get >>= f) out :=
  fun _ _ c _ _ hg hd hΓ hm => h c hg hd hΓ hm

theorem Safe.ite {p : Prop} [Decidable p] {m m' : ConstructM α} {out : α → List InstrId}
    (h : Safe live Γ m out) (h' : Safe live Γ m' out) : Safe live Γ (if p then m else m') out := by
  split
  · exact h
  · exact h'

theorem Safe.weaken {m : ConstructM α} {out : α → List InstrId} (h : Safe True Γ m out) :
    Safe live Γ m out := by
  intro home O c a c' hg hd hΓ hm
  obtain ⟨hg', hk, hd', hh⟩ := h hg hd hΓ hm
  exact ⟨hg', hk, fun _ => hd' trivial, hh⟩

/-- Steps that do nothing if the steps before them have returned. -/
theorem Safe.andThen {m m' : ConstructM Unit} (h : Safe live Γ m fun _ => [])
    (h' : Safe False Γ m' fun _ => []) (hdone : ∀ c, c.frame.done = true → m' c = .ok () c) :
    Safe False Γ (m >>= fun _ => m') fun _ => [] := by
  intro home O c u c₂ hg hd hΓ hm
  obtain ⟨_, c₁, hm₁, hm₂⟩ := bind_eq_ok.mp hm
  obtain ⟨hg₁, hk₁, -, hh₁⟩ := h hg hd hΓ hm₁
  cases hd₁ : c₁.frame.done with
  | true =>
    rw [hdone c₁ hd₁] at hm₂
    cases hm₂
    exact ⟨hg₁, hk₁, False.elim, hh₁⟩
  | false =>
    obtain ⟨hg₂, hk₂, -, hh₂⟩ := h' hg₁ hd₁ (by simpa using hh₁ hd₁) hm₂
    exact ⟨hg₂, hk₁.trans hk₂, False.elim, hh₂⟩

/-! ### Instructions -/

/-- New code at the end of the current block. -/
theorem Good.adds {g' : Graph} {new : List Instr} (h : Good home O c) (hd : c.frame.done = false)
    (ha : Adds c.graph g' c.here new) (hc : g'.Core) (hnew : BlockBody new)
    (hrefers : ∀ i ∈ new, ∀ k, Input.const (.function k) ∈ i.inputs →
      home < k ∧ k < c.graphs.size) :
    Good home O (c.withGraph g') ∧ Keeps c (c.withGraph g') ∧
      ∀ Γ, Holds c Γ → Holds (c.withGraph g') Γ := by
  have hs := h.sketch_running hd
  have havail : ∀ id, c.graph.Avail c.here id → g'.Avail c.here id :=
    fun id => ha.grows.avail hs.toCore (h.here_lt hd)
  refine ⟨⟨?_, fun _ x id hx => havail id (h.env hd x id hx), h.place,
    h.refers.adds ha hrefers, h.graphs⟩, ⟨ha.grows, le_rfl⟩, fun Γ hΓ id hid => havail id (hΓ id hid)⟩
  have hrun : (c.withGraph g').frame.done = false := hd
  rw [unfinished, hrun]
  exact hs.extend ha hc hnew

theorem reads_newInstr {g : Graph} {b : BlockId} {op : Op} {ins : List Input} {id : InstrId}
    (h : id ∈ (g.newInstr b op ins).reads) : Input.value id ∈ ins := by
  unfold Instr.reads newInstr at h
  obtain ⟨v, hv, hid⟩ := List.mem_filterMap.mp h
  cases v with
  | const c => cases hid
  | value id' =>
    cases hid
    simp only at hv
    split at hv
    · exact List.mem_of_mem_drop hv
    · exact hv

/-- Steps that append one simple instruction. -/
theorem safe_append {m : ConstructM InstrId} {op : Op} {ins : List Input}
    (hm : ∀ c id c', m c = .ok id c' → c.here.index < c.graph.blocks.size ∧
      id = ⟨c.graph.instrs.size⟩ ∧ c' = c.withGraph (appended c.graph c.here op ins))
    (hs : Simple op ins) (hreads : ∀ id, Input.value id ∈ ins → id ∈ Γ)
    (hfun : ∀ k, Input.const (.function k) ∉ ins) :
    Safe True Γ m fun id => if op.info.output then [id] else [] := by
  intro home O c id c' hg hd hΓ hok
  obtain ⟨hlt, rfl, rfl⟩ := hm _ _ _ hok
  have hc := (hg.sketch_running hd).toCore
  have hcore : (appended c.graph c.here op ins).Core :=
    hc.appended hlt (fun id hid => hΓ id (hreads id (reads_newInstr hid))) (by cases hs <;> simp)
  obtain ⟨hg', hk, hh⟩ := hg.adds hd (hc.listed.adds_appended _ _ hlt) hcore
    (.simple hs .nil) (by
      intro i hi k hk
      obtain rfl := List.mem_singleton.mp hi
      exact absurd hk (hfun k))
  refine ⟨hg', hk, fun _ => hd, fun _ id hid => ?_⟩
  rcases List.mem_append.mp hid with hid | hid
  · split at hid
    · rename_i hout
      obtain rfl := List.mem_singleton.mp hid
      exact hc.avail_appended hlt hout
    · cases hid
  · exact hh Γ hΓ id hid

theorem safe_literal {v : Const} (h : v.isValue = true) :
    Safe True Γ (literal v) fun id => [id] :=
  safe_append (fun _ _ _ h => build_emit_eq_ok h) (.literal h) (by simp)
    (by rintro k hk; cases List.mem_singleton.mp hk; cases h)

theorem safe_emit {op : ScriptOp} {ins : List Input} (hs : Simple (.script op) ins)
    (hreads : ∀ id, Input.value id ∈ ins → id ∈ Γ) (hfun : ∀ k, Input.const (.function k) ∉ ins) :
    Safe True Γ (emit op ins) fun id => [id] := by
  have hout : (Op.script op).info.output = true := by
    generalize hop : Op.script op = o at hs
    cases hs <;> cases hop <;> rfl
  have h := safe_append (fun _ _ _ h => emit_eq_ok h) hs hreads hfun
  simpa only [hout, if_true] using h

theorem safe_ret {value : InstrId} (h : value ∈ Γ) : Safe False Γ (ret value) fun _ => [] := by
  intro home O c u c' hg hd hΓ hok
  obtain ⟨_, c₁, hemit, hmod⟩ := bind_eq_ok.mp hok
  obtain ⟨_, hemit⟩ := discard_eq_ok.mp hemit
  obtain ⟨hlt, -, rfl⟩ := build_emit_eq_ok hemit
  obtain rfl := modifyFrame_eq_ok.mp hmod
  have hs := hg.sketch_running hd
  have hadds := hs.listed.adds_appended (.prim .ret) [.value value] hlt
  have hcore : (appended c.graph c.here (.prim .ret) [.value value]).Core :=
    hs.toCore.appended hlt fun id hid => by
      obtain rfl : id = value := by simpa using reads_newInstr hid
      exact hΓ id h
  refine ⟨⟨hs.ret hadds hcore rfl rfl, fun hd => ?_, hg.place, hg.refers.adds hadds ?_, hg.graphs⟩,
    ⟨hadds.grows, le_rfl⟩, False.elim, fun hd => ?_⟩
  · cases hd
  · intro i hi k hk
    obtain rfl := List.mem_singleton.mp hi
    simp [newInstr] at hk
  · cases hd

theorem ret_done {value : InstrId} {u : Unit} (h : ret value c = .ok u c') :
    c'.frame.done = true := by
  obtain ⟨_, c₁, -, hmod⟩ := bind_eq_ok.mp h
  obtain rfl := modifyFrame_eq_ok.mp hmod
  rfl

/-- The pushes of arguments. -/
theorem pushes_adds : ∀ {args : List Input} {c c' : Construction} {u : Unit},
    build (args.forM fun arg => Functor.discard (Builder.emit .push [arg])) c = .ok u c' →
    c.graph.Core → c.here.index < c.graph.blocks.size →
    (∀ a ∈ args, ∃ id, a = .value id ∧ c.graph.Avail c.here id) →
      c' = c.withGraph c'.graph ∧ c'.graph.Core ∧ ∃ new, Adds c.graph c'.graph c.here new ∧
        (∀ i ∈ new, i.IsPush) ∧ new.length = args.length
  | [], c, c', u, h, hc, _, _ => by
    obtain ⟨b, hb, rfl⟩ := build_eq_ok.mp h
    obtain ⟨_, rfl⟩ := pure_eq_ok.mp hb
    exact ⟨rfl, hc, [], Adds.refl _ _, by simp, rfl⟩
  | a :: rest, c, c', u, h, hc, hlt, hargs => by
    obtain ⟨b, hb, rfl⟩ := build_eq_ok.mp h
    obtain ⟨b₁, hpush, hrest⟩ := forM_cons_eq_ok.mp hb
    obtain ⟨_, hpush⟩ := discard_eq_ok.mp hpush
    obtain ⟨_, _, hc₁⟩ := build_emit_eq_ok (c := c) (build_eq_ok.mpr ⟨b₁, hpush, rfl⟩)
    obtain rfl : b₁ = { c.frame.builder with
        graph := appended c.graph c.here (.prim .push) [a] } :=
      congrArg (fun c : Construction => c.frame.builder) hc₁
    obtain ⟨id, rfl, havail⟩ := hargs a (by simp)
    have hadds := hc.listed.adds_appended (.prim .push) [.value id] hlt
    have hcore : (appended c.graph c.here (.prim .push) [.value id]).Core :=
      hc.appended hlt fun id' hid => by
        obtain rfl : id' = id := by simpa using reads_newInstr hid
        exact havail
    obtain ⟨hsame, hcore', new, hadds', hpushes, hlen⟩ := pushes_adds
      (c := c.withGraph (appended c.graph c.here (.prim .push) [.value id]))
      (build_eq_ok.mpr ⟨b, hrest, rfl⟩) hcore (hlt.trans_le hadds.size.ge) (by
        intro a' ha'
        obtain ⟨id', rfl, h'⟩ := hargs a' (by simp [ha'])
        exact ⟨id', rfl, hadds.grows.avail hc hlt h'⟩)
    refine ⟨hsame, hcore', _, hadds.trans hadds', fun i hi => ?_, by simp [hlen]⟩
    rcases List.mem_append.mp hi with hi | hi
    · obtain rfl := List.mem_singleton.mp hi
      exact ⟨rfl, id, rfl⟩
    · exact hpushes i hi

theorem pushCount_of_forall {code : List Instr} (h : ∀ i ∈ code, i.IsPush) :
    pushCount code = code.length :=
  List.countP_eq_length.mpr fun i hi => by simp [(h i hi).1]

/-- Arguments are pushed, and one instruction takes them all. -/
theorem safe_call {m : ConstructM InstrId} {op : Op} {ins : List Input} {args : List InstrId}
    (hm : ∀ c id c', m c = .ok id c' → c.here.index < c.graph.blocks.size ∧
      id = ⟨c.graph.instrs.size⟩ ∧ c' = c.withGraph (appended c.graph c.here op ins))
    (ht : Takes args.length op ins) (hout : op.info.output = true) (hargs : args ⊆ Γ)
    (hreads : ∀ id, Input.value id ∈ ins → id ∈ Γ) (hfun : ∀ k, Input.const (.function k) ∉ ins) :
    Safe True Γ (pushArgs args >>= fun _ => m) fun id => [id] := by
  intro home O c id c₂ hg hd hΓ hok
  obtain ⟨_, c₁, hpush, hcall⟩ := bind_eq_ok.mp hok
  have hc := (hg.sketch_running hd).toCore
  have hlt := hg.here_lt hd
  obtain ⟨hsame, hc₁, new, hadds, hpushes, hlen⟩ := pushes_adds hpush hc hlt (by
    intro a ha
    obtain ⟨id, hid, rfl⟩ := List.mem_map.mp (List.mem_reverse.mp ha)
    exact ⟨id, rfl, hΓ id (hargs hid)⟩)
  obtain ⟨hlt₁, rfl, rfl⟩ := hm _ _ _ hcall
  have hhere : c₁.here = c.here := by rw [hsame]; rfl
  rw [hhere] at hlt₁ ⊢
  have hlast := hc₁.listed.adds_appended op ins hlt₁
  have hcore : (appended c₁.graph c.here op ins).Core :=
    hc₁.appended hlt₁ (fun id hid =>
      hadds.grows.avail hc hlt (hΓ id (hreads id (reads_newInstr hid)))) (by cases ht <;> simp)
  have hbody : BlockBody (new ++ [c₁.graph.newInstr c.here op ins]) := by
    refine .call (fun i hi => .inl (hpushes i hi)) ?_ .nil
    rw [pushCount_of_forall hpushes, hlen, List.length_reverse, List.length_map]
    exact ht
  obtain ⟨hg', hk, hh⟩ := hg.adds hd (hadds.trans hlast) hcore hbody (by
    intro i hi k hk
    rcases List.mem_append.mp hi with hi | hi
    · obtain ⟨-, v, hins⟩ := hpushes i hi
      simp [hins] at hk
    · obtain rfl := List.mem_singleton.mp hi
      exact absurd hk (hfun k))
  rw [hsame, withGraph_withGraph]
  refine ⟨hg', hk, fun _ => hd, fun _ id hid => ?_⟩
  rcases List.mem_append.mp hid with hid | hid
  · obtain rfl := List.mem_singleton.mp hid
    exact hc₁.avail_appended hlt₁ hout
  · exact hh Γ hΓ id hid

end

end ScriptEngine.Graph
