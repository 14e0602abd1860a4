import ScriptEngine.Proofs.Graph.Form
import ScriptEngine.Proofs.Meaning.Growth

/-!
Graphs under construction. Some blocks are still open; instructions are only added at the ends of
open blocks, and edges only lead from blocks that were open to new blocks. So what was available
at the end of a block stays available there.
-/

namespace ScriptEngine.Graph

open Meaning

/-- What every graph under construction satisfies, whatever its blocks contain. -/
structure Core (g : Graph) : Prop where
  listed : g.Listed
  entry : 0 < g.blocks.size
  forward : ∀ a b, g.Edge a b → a.index < b.index ∧ b.index < g.blocks.size
  entered : ∀ b : BlockId, 0 < b.index → b.index < g.blocks.size → ∃ a, g.Edge a b
  defined : ∀ b before i, before ++ [i] <+: g.code b →
    ∀ id ∈ i.reads, g.DefinedBefore b before id
  /-- Nothing leads to the entry, so it has no parameters. -/
  plain : ∀ i ∈ g.code ⟨0⟩, i.op ≠ .prim .phi

/-- A result exists at the end of a block. -/
def Avail (g : Graph) (b : BlockId) (id : InstrId) : Prop :=
  ∃ d b', d ∈ g.code b' ∧ d.Defines id ∧ g.Dominates b' b

/-- `g'` has all that `g` has; its blocks may be longer, and lead to new blocks. -/
structure Grows (g g' : Graph) : Prop where
  blocks : g.blocks.size ≤ g'.blocks.size
  code : ∀ b, g.code b <+: g'.code b
  edges : ∀ a b, b.index < g.blocks.size → (g'.Edge a b ↔ g.Edge a b)

section

variable {g g' g₁ g₂ : Graph} {a b : BlockId} {id : InstrId}

theorem avail_iff : g.Avail b id ↔ g.DefinedBefore b (g.code b) id := by
  constructor
  · rintro ⟨d, b', hd, hdef, hdom⟩
    by_cases hb : b' = b
    · subst hb
      exact .inl ⟨d, hd, hdef⟩
    · exact .inr ⟨b', hb, hdom, d, hd, hdef⟩
  · rintro (⟨d, hd, hdef⟩ | ⟨b', _, hdom, d, hd, hdef⟩)
    · exact ⟨d, b, hd, hdef, .refl g b⟩
    · exact ⟨d, b', hd, hdef, hdom⟩

/-! ### Growth -/

theorem Grows.refl (g : Graph) : Grows g g := ⟨le_rfl, fun _ => List.prefix_rfl, fun _ _ _ => .rfl⟩

theorem Grows.trans (h₁ : Grows g g₁) (h₂ : Grows g₁ g₂) : Grows g g₂ where
  blocks := h₁.blocks.trans h₂.blocks
  code b := (h₁.code b).trans (h₂.code b)
  edges a b hb := (h₂.edges a b (hb.trans_le h₁.blocks)).trans (h₁.edges a b hb)

/-- New blocks do not change which blocks dominate the old ones. -/
theorem Grows.dominates (h : Grows g g') (hc : g.Core) {d : BlockId} (hb : b.index < g.blocks.size)
    (hd : g.Dominates d b) : g'.Dominates d b := by
  intro havoid
  apply hd
  apply havoid.restrict (P := fun b => b.index < g.blocks.size) hb
  intro a b hb he
  have he := (h.edges a b hb).mp he
  exact ⟨(hc.forward a b he).1.trans hb, he⟩

theorem Grows.definedBefore (h : Grows g g') (hc : g.Core) {before : List Instr}
    (hb : b.index < g.blocks.size) (hd : g.DefinedBefore b before id) :
    g'.DefinedBefore b before id := by
  rcases hd with hd | ⟨b', hne, hdom, d, hd, hdef⟩
  · exact .inl hd
  · exact .inr ⟨b', hne, h.dominates hc hb hdom, d, (h.code b').subset hd, hdef⟩

theorem Grows.avail (h : Grows g g') (hc : g.Core) (hb : b.index < g.blocks.size)
    (ha : g.Avail b id) : g'.Avail b id := by
  obtain ⟨d, b', hd, hdef, hdom⟩ := ha
  exact ⟨d, b', (h.code b').subset hd, hdef, h.dominates hc hb hdom⟩

/-! ### Ways through the graph -/

namespace Core

variable (hc : g.Core)

include hc

/-- A block is reached on a way through smaller blocks. -/
theorem avoids_of_lt (b : BlockId) {d : BlockId} (hb : b.index < g.blocks.size)
    (hlt : b.index < d.index) : g.Avoids d b := by
  induction hn : b.index using Nat.strong_induction_on generalizing b with
  | _ n ih =>
    have hne : b ≠ d := by rintro rfl; omega
    by_cases h0 : b.index = 0
    · obtain ⟨k⟩ := b
      cases h0
      exact .entry hne
    · obtain ⟨a, ha⟩ := hc.entered b (by omega) hb
      have hab := hc.forward a b ha
      exact (ih a.index (by omega) a (by omega) (by omega) rfl).step ha hne

theorem le_of_dominates {d : BlockId} (hb : b.index < g.blocks.size) (h : g.Dominates d b) :
    d.index ≤ b.index := by
  by_contra hlt
  exact h (hc.avoids_of_lt b hb (by omega))

/-- What is available at the end of every block before `b` is available in `b`. -/
theorem avail_of_edges (h0 : 0 < b.index) (hb : b.index < g.blocks.size)
    (h : ∀ a, g.Edge a b → g.Avail a id) : g.Avail b id := by
  obtain ⟨a, ha⟩ := hc.entered b h0 hb
  obtain ⟨d, b', hd, hdef, -⟩ := h a ha
  refine ⟨d, b', hd, hdef, dominates_of_edges (by rintro rfl; simp at h0) fun a' ha' => ?_⟩
  obtain ⟨d', b'', hd', hdef', hdom⟩ := h a' ha'
  -- A result is defined only once, so it is the same definition on all ways.
  obtain ⟨-, rfl⟩ := hc.listed.eq_of_id hd hd' (hdef.1.trans hdef'.1.symm)
  exact hdom

theorem reached (b : BlockId) (hb : b.index < g.blocks.size) :
    Relation.ReflTransGen g.Edge ⟨0⟩ b := by
  induction hn : b.index using Nat.strong_induction_on generalizing b with
  | _ n ih =>
    by_cases h0 : b.index = 0
    · obtain ⟨k⟩ := b
      cases h0
      exact .refl
    · obtain ⟨a, ha⟩ := hc.entered b (by omega) hb
      have hab := hc.forward a b ha
      exact (ih a.index (by omega) a (by omega) rfl).tail ha

theorem acyclic (b : BlockId) : ¬ Relation.TransGen g.Edge b b := by
  have general : ∀ a, Relation.TransGen g.Edge b a → b.index < a.index := by
    intro a h
    induction h with
    | single h => exact (hc.forward _ _ h).1
    | tail _ h ih => exact ih.trans (hc.forward _ _ h).1
  exact fun h => (general b h).ne rfl

end Core

/-! ### Appending an instruction -/

/-- What appending to a block adds. -/
def newInstr (g : Graph) (b : BlockId) (op : Op) (ins : List Input) : Instr :=
  { id := ⟨g.instrs.size⟩, op, inputs := ins, block := b }

variable {op : Op} {ins : List Input}

theorem getElem?_appended {k : Nat} {i : Instr} (h : g.instrs[k]? = some i) :
    (appended g b op ins).instrs[k]? = some i := by
  rw [(extends_appended g b op ins).instrs k (Array.getElem?_eq_some_iff.mp h).1, h]

theorem listing_appended_self (hb : b.index < g.blocks.size) :
    (appended g b op ins).listing b = g.listing b ++ [⟨g.instrs.size⟩] := by
  have hget := Array.getElem?_eq_getElem hb
  simp only [listing, Array.getD_eq_getD_getElem?, appended_block g b op ins hget, hget,
    Option.getD_some]

theorem listing_appended_other {b' : BlockId} (hb : b' ≠ b) :
    (appended g b op ins).listing b' = g.listing b' := by
  have hne : b'.index ≠ b.index := fun h => hb (by cases b'; cases b; simpa using h)
  simp only [listing, Array.getD_eq_getD_getElem?, appended_other g b op ins hne]

theorem successors_appended (b' : BlockId) :
    (appended g b op ins).successors b' = g.successors b' := by
  simp only [successors, appended, Array.getD_eq_getD_getElem?, Array.getElem?_modify]
  split
  · cases g.blocks[b'.index]? <;> rfl
  · rfl

namespace Listed

variable (h : g.Listed)

include h

theorem lt_of_mem_listing (hid : id ∈ g.listing b) : id.index < g.instrs.size := by
  obtain ⟨i, hi, -⟩ := h.found b id hid
  exact (Array.getElem?_eq_some_iff.mp hi).1

theorem filterMap_appended (b' : BlockId) :
    ((g.listing b').filterMap fun id => (Meaning.appended g b op ins).instrs[id.index]?) =
      g.code b' :=
  List.filterMap_congr fun _ hid =>
    (extends_appended g b op ins).instrs _ (h.lt_of_mem_listing hid)

theorem code_appended_self (hb : b.index < g.blocks.size) :
    (appended g b op ins).code b = g.code b ++ [g.newInstr b op ins] := by
  rw [code, listing_appended_self hb, List.filterMap_append, h.filterMap_appended]
  simp only [List.filterMap_cons, List.filterMap_nil, appended_instr]
  rfl

theorem code_appended_other {b' : BlockId} (hb : b' ≠ b) :
    (appended g b op ins).code b' = g.code b' := by
  rw [code, listing_appended_other hb, h.filterMap_appended]

theorem appended (hb : b.index < g.blocks.size) : (appended g b op ins).Listed where
  numbered k i hi := by
    by_cases hk : k < g.instrs.size
    · rw [(extends_appended g b op ins).instrs k hk] at hi
      exact h.numbered k i hi
    · have hlt := (Array.getElem?_eq_some_iff.mp hi).1
      rw [appended_instrs_size] at hlt
      obtain rfl : k = g.instrs.size := by omega
      rw [appended_instr] at hi
      cases hi
      rfl
  found b' id hid := by
    by_cases hb' : b' = b
    · subst hb'
      rw [listing_appended_self hb, List.mem_append] at hid
      rcases hid with hid | hid
      · obtain ⟨i, hi, hblock⟩ := h.found b' id hid
        exact ⟨i, getElem?_appended hi, hblock⟩
      · obtain rfl := List.mem_singleton.mp hid
        exact ⟨_, appended_instr .., rfl⟩
    · rw [listing_appended_other hb'] at hid
      obtain ⟨i, hi, hblock⟩ := h.found b' id hid
      exact ⟨i, getElem?_appended hi, hblock⟩
  once b' := by
    by_cases hb' : b' = b
    · subst hb'
      rw [listing_appended_self hb, List.nodup_append]
      refine ⟨h.once b', by simp, ?_⟩
      rintro id hid _ hmem rfl
      obtain rfl := List.mem_singleton.mp hmem
      exact absurd (h.lt_of_mem_listing hid) (lt_irrefl _)
    · rw [listing_appended_other hb']
      exact h.once b'
  placed k i hi := by
    by_cases hk : k < g.instrs.size
    · rw [(extends_appended g b op ins).instrs k hk] at hi
      have hmem := h.placed k i hi
      by_cases hb' : i.block = b
      · rw [hb', listing_appended_self hb]
        rw [hb'] at hmem
        exact List.mem_append_left _ hmem
      · rw [listing_appended_other hb']
        exact hmem
    · have hlt := (Array.getElem?_eq_some_iff.mp hi).1
      rw [appended_instrs_size] at hlt
      obtain rfl : k = g.instrs.size := by omega
      rw [appended_instr] at hi
      cases hi
      rw [listing_appended_self hb]
      simp

end Listed

theorem Listed.grows_appended (h : g.Listed) : Grows g (Meaning.appended g b op ins) where
  blocks := by simp
  code b' := by
    by_cases hb : b' = b
    · subst hb
      by_cases hlt : b'.index < g.blocks.size
      · rw [h.code_appended_self hlt]
        exact List.prefix_append _ _
      · have hnil : g.code b' = [] := by
          rw [List.eq_nil_iff_forall_not_mem]
          exact fun i hi => hlt (lt_of_mem_code hi)
        rw [hnil]
        exact List.nil_prefix
    · simp only [h.code_appended_other hb, List.prefix_rfl]
  edges a b' _ := by rw [Edge, successors_appended, Edge]

/-- An instruction that only reads what is available can be appended to a block. -/
theorem Core.appended (hc : g.Core) (hb : b.index < g.blocks.size)
    (hreads : ∀ id ∈ (g.newInstr b op ins).reads, g.Avail b id)
    (hphi : op = .prim .phi → 0 < b.index := by simp) : (appended g b op ins).Core where
  listed := hc.listed.appended hb
  entry := by simpa using hc.entry
  forward a b' he := by
    rw [Edge, successors_appended] at he
    simpa using hc.forward a b' he
  entered b' h0 hlt := by
    obtain ⟨a, ha⟩ := hc.entered b' h0 (by simpa using hlt)
    exact ⟨a, by rwa [Edge, successors_appended]⟩
  defined b' before i hp id hid := by
    have hg : Grows g (Meaning.appended g b op ins) := hc.listed.grows_appended
    by_cases hb' : b' = b
    · subst hb'
      rw [hc.listed.code_appended_self hb, List.prefix_concat_iff] at hp
      rcases hp with heq | hp
      · obtain ⟨rfl, hi⟩ := List.append_inj' heq rfl
        cases hi
        exact hg.definedBefore hc hb (avail_iff.mp (hreads id hid))
      · exact hg.definedBefore hc hb (hc.defined b' before i hp id hid)
    · rw [hc.listed.code_appended_other hb'] at hp
      have hlt : b'.index < g.blocks.size := lt_of_mem_code (hp.subset (by simp) : i ∈ _)
      exact hg.definedBefore hc hlt (hc.defined b' before i hp id hid)
  plain i hi hop := by
    by_cases hb' : (⟨0⟩ : BlockId) = b
    · subst hb'
      rw [hc.listed.code_appended_self hb] at hi
      rcases List.mem_append.mp hi with hi | hi
      · exact hc.plain i hi hop
      · obtain rfl := List.mem_singleton.mp hi
        exact absurd (hphi hop) (lt_irrefl 0)
    · rw [hc.listed.code_appended_other hb'] at hi
      exact hc.plain i hi hop

theorem Core.avail_appended (hc : g.Core) (hb : b.index < g.blocks.size)
    (hout : op.info.output = true) : (Meaning.appended g b op ins).Avail b ⟨g.instrs.size⟩ := by
  refine ⟨g.newInstr b op ins, b, ?_, ⟨rfl, hout⟩, .refl _ _⟩
  rw [hc.listed.code_appended_self hb]
  simp

end

/-! ### New blocks -/

/-- `g'` is `g` with new blocks, the targets of edges from the given blocks, which had none. -/
structure Forks (g g' : Graph) (sources targets : List BlockId) : Prop where
  instrs : g'.instrs = g.instrs
  blocks : g.blocks.size ≤ g'.blocks.size
  listing : ∀ b, g'.listing b = g.listing b
  successors : ∀ a, g'.successors a = if a ∈ sources then targets else g.successors a
  fresh : ∀ t, t ∈ targets ↔ g.blocks.size ≤ t.index ∧ t.index < g'.blocks.size
  ended : ∀ a ∈ sources, a.index < g.blocks.size ∧ g.successors a = []
  some : sources ≠ []

namespace Forks

variable {g g' : Graph} {sources targets : List BlockId} (h : Forks g g' sources targets)

include h

theorem code (b : BlockId) : g'.code b = g.code b := by
  simp only [Graph.code, h.listing, h.instrs]

theorem edge_iff {a b : BlockId} :
    g'.Edge a b ↔ (a ∈ sources ∧ b ∈ targets) ∨ g.Edge a b := by
  unfold Edge
  rw [h.successors]
  by_cases ha : a ∈ sources
  · simp [ha, (h.ended a ha).2]
  · simp [ha]

theorem grows : Grows g g' where
  blocks := h.blocks
  code b := by simp only [h.code, List.prefix_rfl]
  edges a b hb := by
    rw [h.edge_iff]
    have hnot : b ∉ targets := fun ht => by have := (h.fresh b).mp ht; omega
    simp [hnot]

theorem listed (hl : g.Listed) : g'.Listed where
  numbered k i hi := by
    rw [h.instrs] at hi
    exact hl.numbered k i hi
  found b id hid := by
    rw [h.listing] at hid
    rw [h.instrs]
    exact hl.found b id hid
  once b := by
    rw [h.listing]
    exact hl.once b
  placed k i hi := by
    rw [h.instrs] at hi
    rw [h.listing]
    exact hl.placed k i hi

theorem core (hc : g.Core) : g'.Core where
  listed := h.listed hc.listed
  entry := hc.entry.trans_le h.blocks
  forward a b he := by
    rcases h.edge_iff.mp he with ⟨ha, hb⟩ | he
    · have := (h.ended a ha).1
      have := (h.fresh b).mp hb
      omega
    · exact ⟨(hc.forward a b he).1, (hc.forward a b he).2.trans_le h.blocks⟩
  entered b h0 hlt := by
    by_cases hb : b.index < g.blocks.size
    · obtain ⟨a, ha⟩ := hc.entered b h0 hb
      exact ⟨a, h.edge_iff.mpr (.inr ha)⟩
    · obtain ⟨a, ha⟩ := List.exists_mem_of_ne_nil _ h.some
      exact ⟨a, h.edge_iff.mpr (.inl ⟨ha, (h.fresh b).mpr ⟨by omega, hlt⟩⟩)⟩
  defined b before i hp id hid := by
    rw [h.code] at hp
    have hlt : b.index < g.blocks.size := lt_of_mem_code (hp.subset (by simp) : i ∈ _)
    exact h.grows.definedBefore hc hlt (hc.defined b before i hp id hid)
  plain := by
    rw [h.code]
    exact hc.plain

/-- What is available in all sources is available in the targets. -/
theorem avail (hc : g.Core) {t : BlockId} (ht : t ∈ targets) {id : InstrId}
    (hid : ∀ a ∈ sources, g.Avail a id) : g'.Avail t id := by
  obtain ⟨hle, hlt⟩ := (h.fresh t).mp ht
  have hpos := hc.entry
  apply (h.core hc).avail_of_edges (by omega) hlt
  intro a he
  rcases h.edge_iff.mp he with ⟨ha, -⟩ | he
  · exact h.grows.avail hc (h.ended a ha).1 (hid a ha)
  · have := (hc.forward a t he).2
    omega

/-- New blocks are empty. -/
theorem code_target {t : BlockId} (ht : t ∈ targets) : g'.code t = [] := by
  rw [h.code, List.eq_nil_iff_forall_not_mem]
  intro i hi
  have := lt_of_mem_code hi
  have := (h.fresh t).mp ht
  omega

end Forks

/-! ### Open and finished blocks -/

/-- A block that is not finished yet. -/
structure Opened (g : Graph) (b : BlockId) : Prop where
  valid : b.index < g.blocks.size
  blank : g.successors b = []
  form : ∃ heads body, g.code b = heads ++ body ∧ (∀ i ∈ heads, i.IsPhi) ∧ BlockBody body

/-- A graph of which some blocks are not finished yet. -/
structure Sketch (g : Graph) (O : List BlockId) : Prop extends g.Core where
  opened : ∀ b ∈ O, g.Opened b
  closed : ∀ b : BlockId, b.index < g.blocks.size → b ∉ O →
    ∃ heads body tail, g.Form b heads body tail
  distinct : O.Nodup

/-- `g'` is `g` with instructions added to one block. -/
structure Adds (g g' : Graph) (b : BlockId) (new : List Instr) : Prop where
  code : g'.code b = g.code b ++ new
  others : ∀ b', b' ≠ b → g'.code b' = g.code b'
  successors : ∀ b', g'.successors b' = g.successors b'
  size : g'.blocks.size = g.blocks.size

section

variable {g g' g₁ g₂ : Graph} {b : BlockId} {new new' : List Instr} {O : List BlockId}

theorem Adds.trans (h₁ : Adds g g₁ b new) (h₂ : Adds g₁ g₂ b new') : Adds g g₂ b (new ++ new') where
  code := by rw [h₂.code, h₁.code, List.append_assoc]
  others b' hb := (h₂.others b' hb).trans (h₁.others b' hb)
  successors b' := (h₂.successors b').trans (h₁.successors b')
  size := h₂.size.trans h₁.size

theorem Adds.refl (g : Graph) (b : BlockId) : Adds g g b [] :=
  ⟨(List.append_nil _).symm, fun _ _ => rfl, fun _ => rfl, rfl⟩

theorem Listed.adds_appended (h : g.Listed) (op : Op) (ins : List Input)
    (hb : b.index < g.blocks.size) :
    Adds g (Meaning.appended g b op ins) b [g.newInstr b op ins] :=
  ⟨h.code_appended_self hb, fun _ => h.code_appended_other, successors_appended, by simp⟩

theorem Adds.grows (h : Adds g g' b new) : Grows g g' where
  blocks := h.size.ge
  code b' := by
    by_cases hb : b' = b
    · rw [hb, h.code]
      exact List.prefix_append _ _
    · simp only [h.others b' hb, List.prefix_rfl]
  edges a b' _ := by rw [Edge, h.successors, Edge]

/-- Instructions that are no parameters do not change the parameters of a block. -/
theorem Adds.parameters (h : Adds g g' b new) (hnew : ∀ i ∈ new, i.op ≠ .prim .phi) (t : BlockId) :
    g'.parameters t = g.parameters t := by
  unfold Graph.parameters
  by_cases ht : t = b
  · subst ht
    have hnone : new.filter (·.op == .prim .phi) = [] := by
      rw [List.filter_eq_nil_iff]
      intro i hi
      simpa using hnew i hi
    rw [h.code, List.filter_append, hnone, List.append_nil]
  · rw [h.others t ht]

theorem Ends.congr {next : List BlockId} {tail : List Instr} (h : g.Ends next tail)
    (hp : ∀ t ∈ next, g'.parameters t = g.parameters t) : g'.Ends next tail := by
  cases h with
  | ret hop hins => exact .ret hop hins
  | branch hop hins hyes hno =>
    exact .branch hop hins ((hp _ (by simp)).trans hyes) ((hp _ (by simp)).trans hno)
  | jump hall hpass => exact .jump hall (hpass.trans (hp _ (by simp)).symm)

/-- A finished block stays so as long as it, and the parameters of its successors, are the same. -/
theorem Form.congr {heads body tail : List Instr} (h : g.Form b heads body tail)
    (hcode : g'.code b = g.code b) (hsucc : g'.successors b = g.successors b)
    (hp : ∀ t ∈ g.successors b, g'.parameters t = g.parameters t) :
    g'.Form b heads body tail where
  code := hcode.trans h.code
  heads := h.heads
  body := h.body
  ends := by
    rw [hsucc]
    exact h.ends.congr hp

theorem Opened.congr (h : g.Opened b) (hle : g.blocks.size ≤ g'.blocks.size)
    (hcode : g'.code b = g.code b) (hsucc : g'.successors b = g.successors b) : g'.Opened b where
  valid := h.valid.trans_le hle
  blank := hsucc.trans h.blank
  form := by
    rw [hcode]
    exact h.form

/-- The blocks that an addition to another block does not touch. -/
theorem Sketch.untouched (h : g.Sketch (b :: O)) (ha : Adds g g' b new)
    (hnew : ∀ i ∈ new, i.op ≠ .prim .phi) :
    (∀ b' ∈ O, g'.Opened b') ∧ ∀ b' : BlockId, b' ≠ b → b'.index < g.blocks.size → b' ∉ O →
      ∃ heads body tail, g'.Form b' heads body tail := by
  have hne : ∀ b' ∈ O, b' ≠ b := fun b' hb' he =>
    (List.nodup_cons.mp h.distinct).1 (he ▸ hb')
  refine ⟨fun b' hb' => ?_, fun b' hne' hlt hb' => ?_⟩
  · exact (h.opened b' (by simp [hb'])).congr ha.size.ge (ha.others b' (hne b' hb'))
      (ha.successors b')
  · obtain ⟨heads, body, tail, hf⟩ := h.closed b' hlt (by simp [hne', hb'])
    exact ⟨heads, body, tail, hf.congr (ha.others b' hne') (ha.successors b')
      fun t _ => ha.parameters hnew t⟩

/-- Simple instructions and calls leave a block open. -/
theorem Sketch.extend (h : g.Sketch (b :: O)) (ha : Adds g g' b new) (hc : g'.Core)
    (hnew : BlockBody new) : g'.Sketch (b :: O) := by
  obtain ⟨hO, hrest⟩ := h.untouched ha hnew.op_ne_phi
  refine ⟨hc, fun b' hb' => ?_, fun b' hlt hb' => ?_, h.distinct⟩
  · rcases List.mem_cons.mp hb' with rfl | hb'
    · obtain ⟨hvalid, hblank, heads, body, hcode, hheads, hbody⟩ := h.opened b' (by simp)
      refine ⟨hvalid.trans_le ha.size.ge, (ha.successors b').trans hblank, heads, body ++ new, ?_,
        hheads, hbody.append hnew⟩
      rw [ha.code, hcode, List.append_assoc]
    · exact hO b' hb'
  · rw [List.mem_cons, not_or] at hb'
    exact hrest b' hb'.1 (hlt.trans_eq ha.size) hb'.2

/-- A return ends a block. -/
theorem Sketch.ret (h : g.Sketch (b :: O)) {i : Instr} {v : InstrId} (ha : Adds g g' b [i])
    (hc : g'.Core) (hop : i.op = .prim .ret) (hins : i.inputs = [.value v]) : g'.Sketch O := by
  obtain ⟨hO, hrest⟩ := h.untouched ha (by simp [hop])
  refine ⟨hc, hO, fun b' hlt hb' => ?_, (List.nodup_cons.mp h.distinct).2⟩
  by_cases hbb : b' = b
  · subst hbb
    obtain ⟨-, hblank, heads, body, hcode, hheads, hbody⟩ := h.opened b' (by simp)
    refine ⟨heads, body, [i], ?_, hheads, hbody, ?_⟩
    · rw [ha.code, hcode, List.append_assoc]
    · rw [ha.successors, hblank]
      exact .ret hop hins
  · exact hrest b' hbb (hlt.trans_eq ha.size) hb'

/-- New blocks are open. -/
theorem Forks.opened {sources targets : List BlockId} (h : Forks g g' sources targets)
    {t : BlockId} (ht : t ∈ targets) : g'.Opened t := by
  obtain ⟨hle, hlt⟩ := (h.fresh t).mp ht
  refine ⟨hlt, ?_, [], [], h.code_target ht, by simp, .nil⟩
  have hnot : t ∉ sources := fun hs => by
    have := (h.ended t hs).1
    omega
  rw [h.successors, if_neg hnot, Graph.successors, Array.getD_eq_getD_getElem?,
    Array.getElem?_eq_none hle]
  rfl

theorem Forks.parameters {sources targets : List BlockId} (h : Forks g g' sources targets)
    (t : BlockId) : g'.parameters t = g.parameters t := by
  unfold Graph.parameters
  rw [h.code]

/-- A branch ends a block; the two blocks that it leads to are open. -/
theorem Sketch.split (h : g.Sketch (b :: O)) {i : Instr} {v : InstrId} {yes no : BlockId}
    (ha : Adds g g₁ b [i]) (hc : g₁.Core) (hop : i.op = .script .branch)
    (hins : i.inputs = [.value v]) (hf : Forks g₁ g' [b] [yes, no]) (hne : yes ≠ no) :
    g'.Sketch (yes :: no :: O) := by
  obtain ⟨hO, hrest⟩ := h.untouched ha (by simp [hop])
  have hold : ∀ b' ∈ O, b'.index < g₁.blocks.size := fun b' hb' => (hO b' hb').valid
  have hnew : ∀ b' : BlockId, b'.index < g₁.blocks.size → b' ∉ [yes, no] := fun b' hlt hmem => by
    have := (hf.fresh b').mp hmem
    omega
  have hb : b.index < g₁.blocks.size := (hf.ended b (by simp)).1
  refine ⟨hf.core hc, fun b' hb' => ?_, fun b' hlt hb' => ?_, ?_⟩
  · rcases List.mem_cons.mp hb' with rfl | hb'
    · exact hf.opened (by simp)
    rcases List.mem_cons.mp hb' with rfl | hb'
    · exact hf.opened (by simp)
    · have hbb : b' ∉ [b] := by
        rw [List.mem_singleton]
        rintro rfl
        exact (List.nodup_cons.mp h.distinct).1 hb'
      exact (hO b' hb').congr hf.blocks (hf.code b') (by rw [hf.successors, if_neg hbb])
  · have hlt₁ : b'.index < g₁.blocks.size := by
      by_contra hle
      have hmem := (hf.fresh b').mpr ⟨by omega, hlt⟩
      simp only [List.mem_cons, List.not_mem_nil, or_false] at hmem hb'
      tauto
    simp only [List.mem_cons, not_or] at hb'
    by_cases hbb : b' = b
    · subst hbb
      obtain ⟨-, -, heads, body, hcode, hheads, hbody⟩ := h.opened b' (by simp)
      refine ⟨heads, body, [i], ?_, hheads, hbody, ?_⟩
      · rw [hf.code, ha.code, hcode, List.append_assoc]
      · rw [hf.successors, if_pos (by simp)]
        refine .branch (.inl hop) hins ?_ ?_
        · rw [Graph.parameters, hf.code_target (by simp)]
          rfl
        · rw [Graph.parameters, hf.code_target (by simp)]
          rfl
    · obtain ⟨heads, body, tail, hform⟩ := hrest b' hbb (hlt₁.trans_eq ha.size) hb'.2.2
      exact ⟨heads, body, tail, hform.congr (hf.code b')
        (by rw [hf.successors, if_neg (by simpa using hbb)]) fun t _ => hf.parameters t⟩
  · have hO' := (List.nodup_cons.mp h.distinct).2
    refine List.nodup_cons.mpr ⟨?_, List.nodup_cons.mpr ⟨?_, hO'⟩⟩
    · rw [List.mem_cons, not_or]
      exact ⟨hne, fun hmem => hnew yes (hold yes hmem) (by simp)⟩
    · exact fun hmem => hnew no (hold no hmem) (by simp)

/-- What an arm passes to the parameters of the block where arms meet. -/
structure PassCode (code : List Instr) (params : List InstrId) : Prop where
  form : ∀ i ∈ code, i.IsPass ∨ i.IsLiteral
  targets : code.filterMap Instr.passTarget? = params

theorem PassCode.append {xs ys : List Instr} {ps qs : List InstrId} (hx : PassCode xs ps)
    (hy : PassCode ys qs) : PassCode (xs ++ ys) (ps ++ qs) where
  form i hi := (List.mem_append.mp hi).elim (hx.form i) (hy.form i)
  targets := by rw [List.filterMap_append, hx.targets, hy.targets]

/-- `g'` is `g` with parameters for a block and values for them from the blocks before it. -/
structure Merges (g g' : Graph) (arms : List BlockId) (join : BlockId) (params : List InstrId) :
    Prop where
  core : g'.Core
  size : g'.blocks.size = g.blocks.size
  successors : ∀ b, g'.successors b = g.successors b
  joined : ∃ phis, g'.code join = g.code join ++ phis ∧ (∀ i ∈ phis, i.IsPhi) ∧
    phis.map (·.id) = params
  passed : ∀ a ∈ arms, ∃ passes, g'.code a = g.code a ++ passes ∧ PassCode passes params
  others : ∀ b, b ≠ join → b ∉ arms → g'.code b = g.code b

theorem Merges.grows {arms : List BlockId} {join : BlockId} {params : List InstrId}
    (h : Merges g g' arms join params) : Grows g g' where
  blocks := h.size.ge
  code b := by
    by_cases hb : b = join
    · obtain ⟨phis, hcode, -⟩ := h.joined
      rw [hb, hcode]
      exact List.prefix_append _ _
    by_cases ha : b ∈ arms
    · obtain ⟨passes, hcode, -⟩ := h.passed b ha
      rw [hcode]
      exact List.prefix_append _ _
    · simp only [h.others b hb ha, List.prefix_rfl]
  edges a b _ := by rw [Edge, h.successors, Edge]

theorem Merges.mem_code {arms : List BlockId} {join : BlockId} {params : List InstrId}
    (h : Merges g g' arms join params) {i : Instr} (hi : i ∈ g'.code b) :
    i ∈ g.code b ∨ i.IsPhi ∨ i.IsPass ∨ i.IsLiteral := by
  by_cases hb : b = join
  · obtain ⟨phis, hcode, hphis, -⟩ := h.joined
    rw [hb, hcode] at hi
    rw [hb]
    exact (List.mem_append.mp hi).imp_right fun hi => .inl (hphis i hi)
  by_cases ha : b ∈ arms
  · obtain ⟨passes, hcode, hpass⟩ := h.passed b ha
    rw [hcode] at hi
    exact (List.mem_append.mp hi).imp_right fun hi => .inr (hpass.form i hi)
  · rw [h.others b hb ha] at hi
    exact .inl hi

theorem PassCode.op_ne_phi {code : List Instr} {params : List InstrId} (h : PassCode code params) :
    ∀ i ∈ code, i.op ≠ .prim .phi := by
  intro i hi
  rcases h.form i hi with h | h <;> simp [h.1]

theorem Merges.parameters {arms : List BlockId} {join : BlockId} {params : List InstrId}
    (h : Merges g g' arms join params) {t : BlockId} (ht : t ≠ join) :
    g'.parameters t = g.parameters t := by
  unfold Graph.parameters
  by_cases ha : t ∈ arms
  · obtain ⟨passes, hcode, hpass⟩ := h.passed t ha
    have hnone : passes.filter (·.op == .prim .phi) = [] := by
      rw [List.filter_eq_nil_iff]
      intro i hi
      simpa using hpass.op_ne_phi i hi
    rw [hcode, List.filter_append, hnone, List.append_nil]
  · rw [h.others t ht ha]

/-- Arms that meet are finished; the block where they meet is open. -/
theorem Sketch.join {arms : List BlockId} {join : BlockId} {params : List InstrId}
    (h : g.Sketch (arms ++ O)) (hf : Forks g g₁ arms [join]) (hm : Merges g₁ g' arms join params) :
    g'.Sketch (join :: O) := by
  have hjoin : g.blocks.size ≤ join.index ∧ join.index < g₁.blocks.size :=
    (hf.fresh join).mp (by simp)
  have hdisj := (List.nodup_append.mp h.distinct).2.2
  have hpj : g'.parameters join = params := by
    obtain ⟨phis, hcode, hphis, hids⟩ := hm.joined
    rw [Graph.parameters, hcode, hf.code_target (by simp), List.nil_append,
      List.filter_eq_self.mpr (fun i hi => by simp [(hphis i hi).1]), hids]
  have hsucc : ∀ b, b ∉ arms → g'.successors b = g.successors b := fun b hb => by
    rw [hm.successors, hf.successors, if_neg hb]
  have hcode : ∀ b, b ≠ join → b ∉ arms → g'.code b = g.code b := fun b hj hb =>
    (hm.others b hj hb).trans (hf.code b)
  have hle : g.blocks.size ≤ g'.blocks.size := hf.blocks.trans hm.size.ge
  refine ⟨hm.core, fun b hb => ?_, fun b hlt hb => ?_, ?_⟩
  · rcases List.mem_cons.mp hb with rfl | hb
    · obtain ⟨hvalid, hblank, -⟩ := hf.opened (t := b) (by simp)
      obtain ⟨phis, hcode, hphis, -⟩ := hm.joined
      refine ⟨hvalid.trans_le hm.size.ge, (hm.successors b).trans hblank, phis, [], ?_, hphis, .nil⟩
      rw [hcode, hf.code_target (by simp), List.nil_append, List.append_nil]
    · have hopen := h.opened b (by simp [hb])
      have hj : b ≠ join := by
        rintro rfl
        have := hopen.valid
        omega
      have ha : b ∉ arms := fun ha => hdisj b ha b hb rfl
      exact hopen.congr hle (hcode b hj ha) (hsucc b ha)
  · rw [List.mem_cons, not_or] at hb
    have hlt' : b.index < g.blocks.size := by
      by_contra hge
      rw [hm.size] at hlt
      exact hb.1 (by simpa using (hf.fresh b).mpr ⟨by omega, hlt⟩)
    by_cases ha : b ∈ arms
    · obtain ⟨-, -, heads, body, hold, hheads, hbody⟩ := h.opened b (by simp [ha])
      obtain ⟨passes, hnew, hpass⟩ := hm.passed b ha
      refine ⟨heads, body, passes, ?_, hheads, hbody, ?_⟩
      · rw [hnew, hf.code, hold, List.append_assoc]
      · rw [hm.successors, hf.successors, if_pos ha]
        exact .jump hpass.form (hpass.targets.trans hpj.symm)
    · obtain ⟨heads, body, tail, hform⟩ := h.closed b hlt' (by simp [ha, hb.2])
      refine ⟨heads, body, tail, hform.congr (hcode b hb.1 ha) (hsucc b ha) fun t ht => ?_⟩
      -- Edges of a finished block lead to old blocks.
      have htj : t ≠ join := by
        rintro rfl
        have := (h.forward b t ht).2
        omega
      rw [hm.parameters htj, hf.parameters]
  · refine List.nodup_cons.mpr ⟨fun hmem => ?_, (List.nodup_append.mp h.distinct).2.1⟩
    have := (h.opened join (by simp [hmem])).valid
    omega

/-! ### Finished graphs -/

theorem passTarget?_eq_some {i : Instr} {p : InstrId} :
    i.passTarget? = some p ↔ i.passesTo p = true := by
  unfold Instr.passTarget? Instr.passesTo
  by_cases hop : i.op = .prim .toPhi
  · cases hi : i.inputs.head? with
    | none => simp [hop]
    | some v => cases v <;> simp [hop, Input.value?]
  · simp [hop]

/-- Among values that are passed to different parameters, one is passed to each of them. -/
theorem filter_passesTo {code : List Instr} {p : InstrId}
    (hnodup : (code.filterMap Instr.passTarget?).Nodup)
    (hp : p ∈ code.filterMap Instr.passTarget?) :
    ∃ pass ∈ code, code.filter (·.passesTo p) = [pass] := by
  induction code with
  | nil => simp at hp
  | cons i rest ih =>
    cases hi : i.passTarget? with
    | none =>
      rw [List.filterMap_cons_none hi] at hnodup hp
      have hnot : ¬ i.passesTo p = true := by
        rw [← passTarget?_eq_some, hi]
        simp
      obtain ⟨pass, hmem, hpass⟩ := ih hnodup hp
      exact ⟨pass, by simp [hmem], by rw [List.filter_cons_of_neg (by simpa using hnot), hpass]⟩
    | some q =>
      rw [List.filterMap_cons_some hi, List.nodup_cons] at hnodup
      rw [List.filterMap_cons_some hi, List.mem_cons] at hp
      by_cases hq : q = p
      · subst hq
        refine ⟨i, by simp, ?_⟩
        rw [List.filter_cons_of_pos (by simpa using passTarget?_eq_some.mp hi),
          List.filter_eq_nil_iff.mpr]
        intro j hj hpass
        exact hnodup.1 (List.mem_filterMap.mpr ⟨j, hj, passTarget?_eq_some.mpr hpass⟩)
      · have hnot : ¬ i.passesTo p = true := by
          rw [← passTarget?_eq_some, hi]
          simpa using hq
        obtain ⟨pass, hmem, hpass⟩ := ih hnodup.2 (hp.resolve_left fun h => hq h.symm)
        exact ⟨pass, by simp [hmem], by rw [List.filter_cons_of_neg (by simpa using hnot), hpass]⟩

theorem mem_parameters {i : Instr} (hi : i ∈ g.code b) (hop : i.op = .prim .phi) :
    i.id ∈ g.parameters b :=
  List.mem_map_of_mem (List.mem_filter.mpr ⟨hi, by simp [hop]⟩)

theorem Listed.nodup_parameters (h : g.Listed) (b : BlockId) : (g.parameters b).Nodup :=
  (List.filter_sublist.map _).nodup (h.code_nodup b)

namespace Form

variable {heads body tail : List Instr} (h : g.Form b heads body tail)

include h

/-- Parameters stand only at the head of a block. -/
theorem pairwise_phi : (g.code b).Pairwise fun i j => j.op = .prim .phi → i.op = .prim .phi := by
  have htail : ∀ i ∈ tail, i.op ≠ .prim .phi := by
    have hends := h.ends
    generalize g.successors b = next at hends
    cases hends with
    | ret hop _ => simp [hop]
    | branch hop _ _ _ => rcases hop with hop | hop <;> simp [hop]
    | jump hall _ =>
      intro i hi
      rcases hall i hi with h | h <;> simp [h.1]
  have hrest : ∀ i ∈ body ++ tail, i.op ≠ .prim .phi := fun i hi =>
    (List.mem_append.mp hi).elim (h.body.op_ne_phi i) (htail i)
  rw [h.code, List.pairwise_append]
  refine ⟨?_, ?_, fun i hi _ _ _ => (h.heads i hi).1⟩
  · exact List.pairwise_of_forall_mem_list fun i hi _ _ _ => (h.heads i hi).1
  · exact List.pairwise_of_forall_mem_list fun _ _ j hj hop => absurd hop (hrest j hj)

/-- A block passes one value to each parameter of a block that follows it. -/
theorem filter_passesTo (hl : g.Listed) {t : BlockId} (ht : g.Edge b t) {phi : Instr}
    (hphi : phi ∈ g.code t) (hop : phi.op = .prim .phi) :
    ∃ pass value, (g.code b).filter (·.passesTo phi.id) = [pass] ∧ pass.op = .prim .toPhi ∧
      pass.inputs = [.value phi.id, .value value] := by
  have hends := h.ends
  have hmem := mem_parameters hphi hop
  unfold Edge at ht
  generalize hnext : g.successors b = next at hends ht
  cases hends with
  | ret => cases ht
  | branch _ _ hyes hno =>
    simp only [List.mem_cons, List.not_mem_nil, or_false] at ht
    rcases ht with rfl | rfl
    · simp [hyes] at hmem
    · simp [hno] at hmem
  | jump hall hparams =>
    obtain rfl := List.mem_singleton.mp ht
    obtain ⟨pass, hpass, hfilter⟩ := Graph.filter_passesTo
      (hparams ▸ hl.nodup_parameters t) (hparams ▸ hmem)
    have hto : pass.passesTo phi.id = true := by
      have : pass ∈ [pass] := by simp
      rw [← hfilter] at this
      exact (List.mem_filter.mp this).2
    have hnone : ∀ xs : List Instr, (∀ i ∈ xs, i.op ≠ .prim .toPhi) →
        xs.filter (·.passesTo phi.id) = [] := by
      intro xs hxs
      rw [List.filter_eq_nil_iff]
      intro i hi hpass
      simp [Instr.passesTo, hxs i hi] at hpass
    have hheads : ∀ i ∈ heads, i.op ≠ .prim .toPhi := fun i hi => by simp [(h.heads i hi).1]
    have hop : pass.op = .prim .toPhi := by
      simp only [Instr.passesTo, Bool.and_eq_true, decide_eq_true_eq] at hto
      exact hto.1
    have hpassed : pass.IsPass := (hall pass hpass).resolve_right fun hlit => by
      rw [hlit.1] at hop
      cases hop
    obtain ⟨-, p, v, hins⟩ := hpassed
    have hp : p = phi.id := by
      simp [Instr.passesTo, hins] at hto
      exact hto.2
    refine ⟨pass, v, ?_, hop, by rw [hins, hp]⟩
    rw [h.code, List.filter_append, List.filter_append, hnone heads hheads,
      hnone body h.body.op_ne_toPhi, hfilter]
    rfl

end Form

theorem Sketch.strictSSA (h : g.Sketch []) : g.StrictSSA where
  listed := h.listed
  entry := h.entry
  inside a b he := by
    have := h.forward a b he
    omega
  reached := h.toCore.reached
  acyclic := h.toCore.acyclic
  defined := h.defined
  heads b := by
    by_cases hb : b.index < g.blocks.size
    · obtain ⟨heads, body, tail, hform⟩ := h.closed b hb (by simp)
      exact hform.pairwise_phi
    · have hnil : g.code b = [] := by
        rw [List.eq_nil_iff_forall_not_mem]
        exact fun i hi => hb (lt_of_mem_code hi)
      rw [hnil]
      exact .nil
  passed a b he phi hphi hop := by
    have hlt := h.forward a b he
    obtain ⟨heads, body, tail, hform⟩ := h.closed a (by omega) (by simp)
    obtain ⟨pass, value, hfilter, hpass, hins⟩ := hform.filter_passesTo h.listed he hphi hop
    have hmem : pass ∈ g.code a := (List.mem_filter.mp (hfilter ▸ List.mem_singleton_self pass)).1
    obtain ⟨before, after, hcode⟩ := List.append_of_mem hmem
    have hread : value ∈ pass.reads := by simp [Instr.reads, hpass, hins, Input.value?]
    refine ⟨pass, value, hfilter, hins, ?_⟩
    refine (h.defined a before pass ⟨after, by simp [hcode]⟩ value hread).mono fun i hi => ?_
    simp [hcode, hi]

end

end ScriptEngine.Graph
