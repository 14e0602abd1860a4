import ScriptEngine.Proofs.Machine.Coercions

/-!
Stubs for properties. With a slot from an inline cache they read and write storage themselves, at the place
that the heap has for the slot. They ask the host if there is no slot, if the receiver is a function, whose
properties may need the host, and if storage by index has a hole there.
-/

namespace ScriptEngine

open State Builder

/-! ### Code of the stubs -/

/-- Slot and receiver are checked; there are `n` arguments. -/
def slotRows (n : Nat) : List Row :=
  (List.range n).map (fun k => (.stubArg, [raw k], 0)) ++
  [(.isSmi, [.value ⟨2⟩], 0),
    (.read, [.value ⟨0⟩, raw Layout.shape], 2), (.read, [.value ⟨n + 1⟩, raw Layout.Shape.flags], 2),
    (.testBits, [.value ⟨n + 2⟩, .const (.raw (Stub.flagMask .accessor))], 2),
    (.read, [.value ⟨0⟩, raw Layout.Object.store], 3),
    (.testBits, [.value ⟨n + 2⟩, .const (.raw (Stub.flagMask .dense))], 3)]

/-- The blocks for the kinds of storage come after those that check. -/
def slotNext : List (List BlockId) := [[⟨2⟩, ⟨1⟩], [], [⟨1⟩, ⟨3⟩], [⟨4⟩, ⟨5⟩]]

def loadRows : List Row :=
  slotRows 3 ++
  [(.readIndexed, [.value ⟨7⟩, .value ⟨2⟩, raw Layout.Store.items, raw Layout.word], 4), (.literal, [.const .hole], 4),
    (.comparePointer, [.value ⟨9⟩, .value ⟨10⟩, .const (.cond .eq)], 4), (.ret, [.value ⟨9⟩], 6),
    (.readIndexed, [.value ⟨7⟩, .value ⟨2⟩, raw (Layout.Store.items + Layout.Item.value), raw Layout.Item.bytes], 5),
    (.ret, [.value ⟨13⟩], 5)] ++
  (hostRows "loadProperty" [⟨0⟩, ⟨1⟩] 15 1).concat (.ret, [.value ⟨19⟩], 1)

def loadGraph : Graph := .ofRows "loadPropertySlot" loadRows (slotNext ++ [[⟨1⟩, ⟨6⟩], [], []])

theorem build_load : build "loadPropertySlot" Stub.loadBody = .ok loadGraph := by cbv

def storeSlotRows : List Row :=
  slotRows 4 ++
  [(.writeIndexed, [.value ⟨8⟩, .value ⟨2⟩, raw Layout.Store.items, raw Layout.word, .value ⟨3⟩], 4),
    (.ret, [.value ⟨3⟩], 4),
    (.writeIndexed, [.value ⟨8⟩, .value ⟨2⟩, raw (Layout.Store.items + Layout.Item.value), raw Layout.Item.bytes,
      .value ⟨3⟩], 5),
    (.ret, [.value ⟨3⟩], 5)] ++
  (hostRows "storeProperty" [⟨0⟩, ⟨1⟩, ⟨3⟩] 14 1).concat (.ret, [.value ⟨3⟩], 1)

def storeSlotGraph : Graph := .ofRows "storePropertySlot" storeSlotRows (slotNext ++ [[], []])

theorem build_storeSlot : build "storePropertySlot" Stub.storeSlotBody = .ok storeSlotGraph := by cbv

theorem stublike_load : Engine.Stublike loadGraph := Engine.StubRows.stublike (by decide +kernel)

theorem stublike_storeSlot : Engine.Stublike storeSlotGraph := Engine.StubRows.stublike (by decide +kernel)

namespace Engine

open Machine (argumentAt callFunction enter maxJumps)
open Meaning (Progress)

/-! ### Elements of storage -/

section

variable {words : InstrId → Nat → Word} {call : Caller} {self : Activation} {s : Progress Word}
  {id a c d : InstrId} {b : BlockId} {rest : List Instr} {e : Engine} {m k n : Nat}

/-- Where generated code finds an element behind a field. -/
theorem elementAddress_field {w : Word} (h : w.isSmi = false) (hn : (n : Int) ≤ Word.smiMax)
    (hlt : w.address + (m + n * k) < 2 ^ 64) :
    Machine.elementAddress ∅ (.word w) (.word (.smi n)) (m - 1) k = w.address + (m + n * k) := by
  obtain ⟨heq, heven, -⟩ := Word.eq_pointer h
  have hsmi : (Word.smi n).untag.signed = n := Word.untag_smi (by unfold Word.smiMin; omega) hn
  generalize w.address = address at *
  have hbits : w = .ofInt (address + 1) := by
    rw [heq, ← Word.ofNat_toNat (.pointer _), Word.toNat_pointer heven (by omega), Word.ofNat_eq_ofInt]
    rfl
  have hsum : (w.add (.ofInt (n * k))).add (.ofInt (m - 1)) = .ofNat (address + (m + n * k)) := by
    rw [hbits, Word.add_signed, Word.add_signed, Word.ofNat_eq_ofInt]
    apply Word.signed_inj
    simp only [Word.signed_ofInt, Int.bmod_add_bmod, Int.add_bmod_bmod]
    congr 1
    push_cast
    omega
  unfold Machine.elementAddress
  simp only [Machine.eval, hsmi]
  rw [Machine.addressAt, hsum, Word.toNat_ofNat hlt]

theorem runCode_readIndexed (hbase : m < 2 ^ 28) (ha : (s.regs a).isSmi = false) (hc : s.regs c = .smi n)
    (hn : (n : Int) ≤ Word.smiMax) (hlt : (s.regs a).address + (m + n * k) < 2 ^ 64) :
    (machineWorld words call self).runCode
      (⟨id, .prim .readIndexed, [.value a, .value c, raw m, raw k], b⟩ :: rest) s e =
        (machineWorld words call self).runCode rest (s.setReg id (e.heap.read (s.regs a) (m + n * k))) e := by
  rw [Heap.read, ← elementAddress_field ha hn hlt, ← hc, ← fieldOffset_eq hbase]
  rfl

theorem runCode_writeIndexed (hbase : m < 2 ^ 28) (ha : (s.regs a).isSmi = false) (hc : s.regs c = .smi n)
    (hn : (n : Int) ≤ Word.smiMax) (hlt : (s.regs a).address + (m + n * k) < 2 ^ 64) :
    (machineWorld words call self).runCode
      (⟨id, .prim .writeIndexed, [.value a, .value c, raw m, raw k, .value d], b⟩ :: rest) s e =
        (machineWorld words call self).runCode rest s
          (e.withMemory (e.heap.memory.store ((s.regs a).address + (m + n * k)) (s.regs d))) := by
  rw [← elementAddress_field ha hn hlt, ← hc, ← fieldOffset_eq hbase]
  rfl

theorem runCode_testBits {mask : Int} :
    (machineWorld words call self).runCode (⟨id, .prim .testBits, [.value a, .const (.raw mask)], b⟩ :: rest) s =
      (machineWorld words call self).runCode rest (s.tested (((s.regs a).and (.ofInt mask)).bits != 0)) := rfl

/-- The arguments of a stub stand in its first registers. -/
theorem runCode_stubArgs (words : InstrId → Nat → Word) (call : Caller) (self : Activation) (s : Progress Word) (n : Nat)
    (hn : n < 2 ^ 28) : ∃ s' : Progress Word, (∀ k < n, s'.regs ⟨k⟩ = argumentAt self.args k) ∧
      ∀ rest, (machineWorld words call self).runCode
        (number 0 ((List.range n).map fun k => (.stubArg, [raw k], 0)) ++ rest) s =
          (machineWorld words call self).runCode rest s' := by
  induction n with
  | zero => exact ⟨s, by simp, fun _ => rfl⟩
  | succ n ih =>
    obtain ⟨s', hregs, hruns⟩ := ih (by omega)
    refine ⟨s'.setReg ⟨n⟩ (argumentAt self.args n), fun k hk => ?_, fun rest => ?_⟩
    · rw [Progress.regs_setReg]
      split
      · rename_i heq
        cases heq
        rfl
      · rename_i hne
        exact hregs k (by have : k ≠ n := fun h => hne (by rw [h]); omega)
    · rw [List.range_succ, List.map_append, number_append, List.append_assoc, hruns]
      simp only [List.length_map, List.length_range, List.map_cons, List.map_nil, number, Nat.zero_add]
      exact runCode_stubArg (by omega)

end

/-- The bits that the stubs look at in the word with the flags. -/
theorem flag_bit {flags flag : ShapeFlags} (hflag : flag ∈ [ShapeFlags.accessor, .dense]) (h : flags.bits < 16) :
    (((Word.smi flags.bits).and (.ofInt (Stub.flagMask flag))).bits != 0) = flags.contains flag := by
  have hall : ∀ flag ∈ [ShapeFlags.accessor, .dense], ∀ n < 16,
      (((Word.smi (n : Nat)).and (.ofInt (Stub.flagMask flag))).bits != 0) = (⟨n⟩ : ShapeFlags).contains flag := by decide
  exact hall flag hflag flags.bits h

/-! ### Checks of slots and receivers -/

/-- A stub with `n` arguments that checks slot and receiver. It goes on in block 4 for dense storage, in block 5 for
keyed storage, and otherwise in block 1. -/
structure ChecksSlot (n : Nat) (g : Graph) : Prop where
  many : 3 ≤ n ∧ n < 2 ^ 28
  entry : g.code ⟨0⟩ = number 0 ((List.range n).map fun k => (.stubArg, [raw k], 0)) ++
    [⟨⟨n⟩, .prim .isSmi, [.value ⟨2⟩], ⟨0⟩⟩]
  found : g.code ⟨2⟩ = [⟨⟨n + 1⟩, .prim .read, [.value ⟨0⟩, raw Layout.shape], ⟨2⟩⟩,
    ⟨⟨n + 2⟩, .prim .read, [.value ⟨n + 1⟩, raw Layout.Shape.flags], ⟨2⟩⟩,
    ⟨⟨n + 3⟩, .prim .testBits, [.value ⟨n + 2⟩, .const (.raw (Stub.flagMask .accessor))], ⟨2⟩⟩]
  plain : g.code ⟨3⟩ = [⟨⟨n + 4⟩, .prim .read, [.value ⟨0⟩, raw Layout.Object.store], ⟨3⟩⟩,
    ⟨⟨n + 5⟩, .prim .testBits, [.value ⟨n + 2⟩, .const (.raw (Stub.flagMask .dense))], ⟨3⟩⟩]
  entryNext : g.successors ⟨0⟩ = [⟨2⟩, ⟨1⟩]
  foundNext : g.successors ⟨2⟩ = [⟨1⟩, ⟨3⟩]
  plainNext : g.successors ⟨3⟩ = [⟨4⟩, ⟨5⟩]
  parameters : ∀ b, g.parameters b = []

theorem checksSlot_load : ChecksSlot 3 loadGraph where
  many := by decide
  entry := Graph.code_ofRows (by decide)
  found := Graph.code_ofRows (by decide)
  plain := Graph.code_ofRows (by decide)
  entryNext := Graph.successors_ofRows (by decide)
  foundNext := Graph.successors_ofRows (by decide)
  plainNext := Graph.successors_ofRows (by decide)
  parameters := Graph.parameters_ofRows (by decide)

theorem checksSlot_storeSlot : ChecksSlot 4 storeSlotGraph where
  many := by decide
  entry := Graph.code_ofRows (by decide)
  found := Graph.code_ofRows (by decide)
  plain := Graph.code_ofRows (by decide)
  entryNext := Graph.successors_ofRows (by decide)
  foundNext := Graph.successors_ofRows (by decide)
  plainNext := Graph.successors_ofRows (by decide)
  parameters := Graph.parameters_ofRows (by decide)

/-- The arguments of a stub stand in its first `n` registers. -/
def Given (n : Nat) (self : Activation) (s : Progress Word) : Prop := ∀ k < n, s.regs ⟨k⟩ = argumentAt self.args k

section

variable {n : Nat} {g : Graph} (h : ChecksSlot n g) (words : InstrId → Nat → Word) (call : Caller) (self : Activation)

include h

/-- A stub without a slot asks the host. -/
theorem ChecksSlot.asks (hslot : (argumentAt self.args 2).isSmi = false) : ∃ s, Given n self s ∧
    ∀ jumps, (machineWorld words call self).run g (jumps + 1) = (machineWorld words call self).runAt g jumps ⟨1⟩ s := by
  obtain ⟨s, hregs, hruns⟩ := runCode_stubArgs words call self { regs := fun _ => default } n h.many.2
  refine ⟨(s.tested (s.regs ⟨2⟩).isSmi).next, hregs, fun jumps => ?_⟩
  have hblock : (machineWorld words call self).runCode (g.code ⟨0⟩) { regs := fun _ => default } =
      pure (.fell (s.tested (s.regs ⟨2⟩).isSmi)) := by
    rw [h.entry, hruns]
    rfl
  refine (runAt_branched hblock h.entryNext rfl (h.parameters _) (h.parameters _)).trans ?_
  rw [show s.regs ⟨2⟩ = argumentAt self.args 2 from hregs 2 h.many.1, hslot, if_neg Bool.false_ne_true]

/-- A stub with a slot looks at the kind of the receiver. -/
theorem ChecksSlot.runs {e : Engine} {T : Contents} (typed : Heap.Typed e.heap T) (hslot : (argumentAt self.args 2).isSmi = true)
    {s st proto : Word} {rest items : List Word} {flags : ShapeFlags}
    (ho : T (argumentAt self.args 0) = some (.object s st rest)) (formed : Heap.Formed e.heap T s st rest flags proto items) :
    ∃ s', Given n self s' ∧ (flags.contains .accessor = true → ∀ jumps,
        (machineWorld words call self).run g (jumps + 2) e = (machineWorld words call self).runAt g jumps ⟨1⟩ s' e) ∧
      (flags.contains .accessor = false → s'.regs ⟨n + 4⟩ = st ∧ ∀ jumps,
        (machineWorld words call self).run g (jumps + 3) e =
          (machineWorld words call self).runAt g jumps (if flags.contains .dense then ⟨4⟩ else ⟨5⟩) s' e) := by
  obtain ⟨s₁, hregs, hargs⟩ := runCode_stubArgs words call self { regs := fun _ => default } n h.many.2
  have hobject : s₁.regs ⟨0⟩ = argumentAt self.args 0 := hregs 0 (by have := h.many.1; omega)
  have hentry : (machineWorld words call self).runCode (g.code ⟨0⟩) { regs := fun _ => default } =
      pure (.fell (s₁.tested true)) := by
    rw [h.entry, hargs, ← hslot, ← show s₁.regs ⟨2⟩ = argumentAt self.args 2 from hregs 2 h.many.1]
    rfl
  have hbelow := typed.laid.below ho
  have hbelow' := typed.laid.below formed.shape
  simp only [Cell.size, Cell.words, List.length_cons, List.length_nil] at hbelow hbelow'
  have hsmi : (argumentAt self.args 0).isSmi = false := Heap.isSmi_of_cell typed.laid ho
  have hread : e.heap.read (argumentAt self.args 0) Layout.shape = s := typed.laid.read (i := 0) ho rfl
  have hflags : e.heap.read s Layout.Shape.flags = .smi flags.bits := typed.laid.read (i := 1) formed.shape rfl
  have hstore : e.heap.read (argumentAt self.args 0) Layout.Object.store = st := typed.laid.read (i := 1) ho rfl
  let s₂ : Progress Word := ((((s₁.tested true).next).setReg ⟨n + 1⟩ s).setReg ⟨n + 2⟩ (.smi flags.bits))
  have hold : ∀ k < n, s₂.regs ⟨k⟩ = s₁.regs ⟨k⟩ := fun k hk => by
    simp only [s₂, Progress.regs_setReg, InstrId.mk.injEq]
    rw [if_neg (by omega), if_neg (by omega)]
    rfl
  have hfound : (machineWorld words call self).runCode (g.code ⟨2⟩) (s₁.tested true).next e =
      .ok (.fell (s₂.tested (flags.contains .accessor))) e := by
    rw [h.found, runCode_read (by decide) (by exact hobject ▸ hsmi) (by
        rw [Progress.regs_next, Progress.regs_tested, hobject]
        unfold Layout.shape
        omega),
      Progress.regs_next, Progress.regs_tested, hobject, hread,
      runCode_read (by decide) (by rw [Progress.regs_setReg, if_pos rfl]; exact Heap.isSmi_of_cell typed.laid formed.shape)
        (by rw [Progress.regs_setReg, if_pos rfl]; unfold Layout.Shape.flags; omega),
      Progress.regs_setReg, if_pos rfl, hflags, runCode_testBits, Progress.regs_setReg, if_pos rfl,
      flag_bit (by simp) (typed.flags_lt formed.shape)]
    rfl
  have hstart : ∀ jumps, (machineWorld words call self).run g (jumps + 2) e =
      (machineWorld words call self).runAt g jumps (if flags.contains .accessor then ⟨1⟩ else ⟨3⟩)
        (s₂.tested (flags.contains .accessor)).next e := fun jumps => by
    refine (congrFun (runAt_branched hentry h.entryNext rfl (h.parameters _) (h.parameters _)) e).trans ?_
    rw [if_pos rfl]
    exact runAt_turns hfound h.foundNext rfl (h.parameters _) (h.parameters _)
  let s₃ : Progress Word := ((s₂.tested (flags.contains .accessor)).next).setReg ⟨n + 4⟩ st
  cases haccessor : flags.contains .accessor with
  | true =>
    refine ⟨(s₂.tested true).next, fun k hk => (hold k hk).trans (hregs k hk), fun _ jumps => ?_,
      fun h => Bool.noConfusion h⟩
    rw [hstart, haccessor, if_pos rfl]
  | false =>
    refine ⟨(s₃.tested (flags.contains .dense)).next, fun k hk => ?_, fun h => Bool.noConfusion h,
      fun _ => ⟨?_, fun jumps => ?_⟩⟩
    · simp only [s₃, Progress.regs_next, Progress.regs_tested, Progress.regs_setReg, InstrId.mk.injEq]
      rw [if_neg (by omega), hold k hk, hregs k hk]
    · simp [s₃]
    · rw [hstart, haccessor, if_neg Bool.false_ne_true]
      have hplain : (machineWorld words call self).runCode (g.code ⟨3⟩) (s₂.tested false).next e =
          .ok (.fell (s₃.tested (flags.contains .dense))) e := by
        have hreg : (s₂.tested false).next.regs ⟨0⟩ = argumentAt self.args 0 :=
          (hold 0 (by have := h.many.1; omega)).trans hobject
        have hkept : ((s₂.tested false).next.setReg ⟨n + 4⟩ st).regs ⟨n + 2⟩ = .smi flags.bits := by
          simp [s₂]
        rw [h.plain, runCode_read (by decide) (by rw [hreg]; exact hsmi)
          (by rw [hreg]; unfold Layout.Object.store; omega), hreg, hstore, runCode_testBits, hkept,
          flag_bit (by simp) (typed.flags_lt formed.shape)]
        simp only [s₃, haccessor]
        rfl
      exact runAt_turns hplain h.plainNext rfl (h.parameters _) (h.parameters _)

end

/-! ### Questions to the host -/

/-- A block that asks the host, and returns what it answers. -/
def AsksHost (g : Graph) (b : BlockId) (name : String) (args : List InstrId) (n : Nat) (last : InstrId) : Prop :=
  g.code b = number n (hostRows name args n b.index) ++ [⟨last, .prim .ret, [.value ⟨n + args.length + 2⟩], b⟩]

section

variable {g : Graph} {words : InstrId → Nat → Word} {e : Engine} {T : Contents} {b : BlockId} {name : String}
  {args : List InstrId} {n : Nat} {last : InstrId}

/-- What comes from the host is the answer of a callback. -/
theorem Standing.calls_host (standing : Standing g e words) (shelved : Shelved T e) {before rest : List Instr}
    (hb : Relation.ReflTransGen g.Edge ⟨0⟩ b)
    (hcode : g.code b = before ++ (number n (hostRows name args n b.index) ++ rest)) (few : args.length < 2 ^ 32) : ∃ id, callbackId name = .ok id ∧ ∀ depth (values : List Word),
      values.length = args.length → askHost (enter (depth + 1)) (words ⟨n + args.length + 2⟩ 0)
        (words ⟨n + args.length⟩ 0) (words ⟨n + args.length + 2⟩ 2) values e.entered =
          callHost (.smi id :: values) e.entered := by
  obtain ⟨host, id, hhost, hid, hfunction, hcallback, -⟩ := standing.host_after hb hcode
  have hentered := noted_entered e
  have hshelved : Shelved T e.entered :=
    hentered.shelved shelved (.refl _) (hentered.heap_eq ▸ shelved.laid) fun h => h
  refine ⟨id, hid, fun depth values hlength => ?_⟩
  rw [hfunction, hcallback]
  exact askHost_eq (hshelved.leadsToHost (by rw [hentered.stubs_eq]; exact hhost)) (by omega) depth

theorem Standing.asks_host (standing : Standing g e words) (shelved : Shelved T e)
    (hb : Relation.ReflTransGen g.Edge ⟨0⟩ b) (asks : AsksHost g b name args n last) (few : args.length < 2 ^ 32) :
    ∃ id, callbackId name = .ok id ∧ ∀ depth self jumps (s : Progress Word),
      (machineWorld words (enter (depth + 1)) self).runAt g (jumps + 1) b s e.entered =
        callHost (.smi id :: args.map s.regs) e.entered := by
  obtain ⟨id, hid, hcalls⟩ := standing.calls_host shelved hb (asks.trans (List.nil_append _).symm) few
  refine ⟨id, hid, fun depth self jumps s => ?_⟩
  have hblock : (machineWorld words (enter (depth + 1)) self).runAt g (jumps + 1) b s = askHost (enter (depth + 1))
      (words ⟨n + args.length + 2⟩ 0) (words ⟨n + args.length⟩ 0) (words ⟨n + args.length + 2⟩ 2) (args.map s.regs) :=
    runAt_returned (by
      rw [asks, runCode_hostRows]
      simp [runCode_ret])
  rw [hblock]
  exact hcalls depth _ (List.length_map _)

end

/-! ### Properties -/

section

variable {e : Engine} {T : Contents} {s : Stub} {o st key v proto shape : Word} {rest items : List Word}
  {flags : ShapeFlags} {n : Nat}

/-- Where values of dense storage begin, and how far apart they are. -/
theorem offset_dense (n : Nat) : Layout.Store.items + n * Layout.word = 8 * (2 + Heap.valuePlace true n) := by
  simp only [Layout.Store.items, Layout.word, Heap.valuePlace, if_true]
  omega

/-- Where values of keyed storage begin, and how far apart they are. -/
theorem offset_keyed (n : Nat) : Layout.Store.items + Layout.Item.value + n * Layout.Item.bytes =
    8 * (2 + Heap.valuePlace false n) := by
  simp only [Layout.Store.items, Layout.Item.value, Layout.Item.bytes, Heap.valuePlace, Bool.false_eq_true, if_false]
  omega

/-- A slot inside of storage: its number is a small integer, and it has an address, where the value stands. -/
theorem slot_inside (laid : Laid e.heap T) (hst : T st = some (.store items)) {dense : Bool}
    (hv : items[Heap.valuePlace dense n]? = some v) : (n : Int) ≤ Word.smiMax ∧
      st.address + 8 * (2 + Heap.valuePlace dense n) < 2 ^ 64 ∧
      e.heap.read st (8 * (2 + Heap.valuePlace dense n)) = v := by
  have hlt := (List.getElem?_eq_some_iff.mp hv).choose
  have hbelow := laid.below hst
  simp only [Cell.size, Cell.words, List.length_cons] at hbelow
  refine ⟨?_, by omega, laid.read hst (by rw [Nat.add_comm]; exact hv)⟩
  have hplace : n ≤ Heap.valuePlace dense n := by
    unfold Heap.valuePlace
    split <;> omega
  unfold Word.smiMax
  omega

/-- A value is written to storage. -/
theorem writeSlot_slot (typed : Heap.Typed e.heap T) (ho : T o = some (.object shape st rest))
    (formed : Heap.Formed e.heap T shape st rest flags proto items) : Heap.writeSlot o n v e.heap =
      .ok () { e.heap with
        memory := e.heap.memory.store (st.address + 8 * (2 + Heap.valuePlace (flags.contains .dense) n)) v } := by
  have hoffset : e.heap.slotOffset o n = 8 * (2 + Heap.valuePlace (flags.contains .dense) n) := by
    unfold Heap.slotOffset
    rw [Heap.isDense_object typed ho formed.shape]
    cases flags.contains .dense with
    | true => exact offset_dense n
    | false =>
      rw [if_neg Bool.false_ne_true, ← offset_keyed]
      omega
  unfold Heap.writeSlot
  refine (State.get_bind _).trans ?_
  rw [hoffset, Heap.storeOf_object typed.laid ho]
  rfl

section

variable {words : InstrId → Nat → Word} {call : Caller} {self : Activation} {state : Progress Word} {jumps : Nat}

/-- The value of a slot in keyed storage. -/
theorem load_keyed (laid : Laid e.heap T) (hst : T st = some (.store items)) (hstore : state.regs ⟨7⟩ = st)
    (hslot : state.regs ⟨2⟩ = .smi n) (hv : items[Heap.valuePlace false n]? = some v) :
    (machineWorld words call self).runAt loadGraph (jumps + 1) ⟨5⟩ state e = .ok v e := by
  obtain ⟨hn, hlt, hread⟩ := slot_inside laid hst hv
  refine runAt_ends ?_
  rw [show loadGraph.code ⟨5⟩ = (number 0 loadRows).filter (·.block = ⟨5⟩) from Graph.code_ofRows (by decide)]
  refine (runCode_readIndexed (m := Layout.Store.items + Layout.Item.value) (k := Layout.Item.bytes) (by decide)
    (by rw [hstore]; exact Heap.isSmi_of_cell laid hst) hslot hn (by rw [hstore, offset_keyed]; exact hlt)).trans ?_
  rw [hstore, offset_keyed, hread]
  rfl

variable (words call self jumps) in
/-- The value of a slot in dense storage, unless it is the hole; then the host is asked. -/
theorem load_dense (laid : Laid e.heap T) (hst : T st = some (.store items)) (hstore : state.regs ⟨7⟩ = st)
    (hslot : state.regs ⟨2⟩ = .smi n) (hv : items[Heap.valuePlace true n]? = some v) (hhole : words ⟨10⟩ 0 = e.heap.hole) :
    ∃ state' : Progress Word, (∀ k < 3, state'.regs ⟨k⟩ = state.regs ⟨k⟩) ∧
      (machineWorld words call self).runAt loadGraph (jumps + 2) ⟨4⟩ state e =
        if v = e.heap.hole then (machineWorld words call self).runAt loadGraph (jumps + 1) ⟨1⟩ state' e else .ok v e := by
  obtain ⟨hn, hlt, hread⟩ := slot_inside laid hst hv
  have hparameters : ∀ b, loadGraph.parameters b = [] := Graph.parameters_ofRows (by decide)
  let state' := ((state.setReg ⟨9⟩ v).setReg ⟨10⟩ e.heap.hole).tested (v == e.heap.hole)
  have hblock : (machineWorld words call self).runCode (loadGraph.code ⟨4⟩) state e = .ok (.fell state') e := by
    rw [show loadGraph.code ⟨4⟩ = (number 0 loadRows).filter (·.block = ⟨4⟩) from Graph.code_ofRows (by decide)]
    refine (runCode_readIndexed (m := Layout.Store.items) (k := Layout.word) (by decide)
      (by rw [hstore]; exact Heap.isSmi_of_cell laid hst) hslot hn (by rw [hstore, offset_dense]; exact hlt)).trans ?_
    rw [hstore, offset_dense, hread]
    simp only [state', ← Word.holds_eq, ← hhole]
    rfl
  refine ⟨state'.next, fun k hk => ?_, ?_⟩
  · simp only [state', Progress.regs_next, Progress.regs_tested, Progress.regs_setReg, InstrId.mk.injEq]
    rw [if_neg (by omega), if_neg (by omega)]
  · refine (runAt_turns hblock (Graph.successors_ofRows (by decide)) rfl (hparameters _) (hparameters _)).trans ?_
    by_cases hv : v = e.heap.hole
    · rw [if_pos (by simpa using hv), if_pos hv]
    · rw [if_neg (by simpa using hv), if_neg hv]
      refine runAt_ends ?_
      rw [show loadGraph.code ⟨6⟩ = (number 0 loadRows).filter (·.block = ⟨6⟩) from Graph.code_ofRows (by decide)]
      rfl

end

/-- A load without a slot asks the host. With a slot it reads storage, but for functions, and for holes in dense
storage. -/
theorem Stocked.load_runs (stocked : Stocked T e) (calm : e.Calm) (hs : e.stubs.compiled? "loadPropertySlot" = some s) :
    ∃ id, callbackId "loadProperty" = .ok id ∧ ∀ depth (self : Activation),
      ((argumentAt self.args 2).isSmi = false → callFunction (enter (depth + 2)) s.function self e =
        callHost [.smi id, argumentAt self.args 0, argumentAt self.args 1] e.entered) ∧
      ∀ {n v shape st rest flags proto items}, argumentAt self.args 2 = .smi (n : Nat) →
        T (argumentAt self.args 0) = some (.object shape st rest) →
        Heap.Formed e.heap T shape st rest flags proto items →
        items[Heap.valuePlace (flags.contains .dense) n]? = some v →
        callFunction (enter (depth + 2)) s.function self e =
          (if flags.contains .accessor = true ∨ flags.contains .dense = true ∧ v = e.heap.hole then
            callHost [.smi id, argumentAt self.args 0, argumentAt self.args 1] else pure v : RunM Word) e.entered := by
  obtain ⟨past, sound⟩ := stocked.sound
  have typed := sound.typed
  obtain ⟨words, hstanding, hruns⟩ :=
    stocked.stub_runs calm hs (by simp [StubLibrary.standardSources]) build_load stublike_load
  obtain ⟨jumps, hjumps⟩ : ∃ jumps, maxJumps = jumps + 5 := exists_maxJumps (by decide)
  have hedge : ∀ {k : Nat} {t} (hk : k < 7),
      t ∈ [[⟨2⟩, ⟨1⟩], [], [⟨1⟩, ⟨3⟩], [⟨4⟩, ⟨5⟩], [⟨1⟩, ⟨6⟩], [], []][k] → loadGraph.Edge ⟨k⟩ t :=
    fun hk ht => Graph.edge_ofRows hk ht
  have hto₁ : Relation.ReflTransGen loadGraph.Edge ⟨0⟩ ⟨1⟩ := .single (hedge (by decide) (by decide))
  have hto₄ : Relation.ReflTransGen loadGraph.Edge ⟨0⟩ ⟨4⟩ :=
    ((Relation.ReflTransGen.single (hedge (k := 0) (t := ⟨2⟩) (by decide) (by decide))).tail
      (hedge (k := 2) (t := ⟨3⟩) (by decide) (by decide))).tail (hedge (k := 3) (by decide) (by decide))
  have hasks : AsksHost loadGraph ⟨1⟩ "loadProperty" [⟨0⟩, ⟨1⟩] 15 ⟨20⟩ := Graph.code_ofRows (by decide)
  obtain ⟨id, hid, hhost⟩ := hstanding.asks_host stocked.toShelved hto₁ hasks (by decide)
  obtain ⟨_, hhole⟩ := hstanding.row (k := 10) rfl (by decide) hto₄ (i := 0) rfl rfl
  have hheap : e.entered.heap = e.heap := (noted_entered e).heap_eq
  have hslow : ∀ depth self jumps (s : Progress Word), Given 3 self s →
      (machineWorld words (enter (depth + 1)) self).runAt loadGraph (jumps + 1) ⟨1⟩ s e.entered =
        callHost [.smi id, argumentAt self.args 0, argumentAt self.args 1] e.entered := fun depth self jumps s hgiven => by
    have h₀ : s.regs ⟨0⟩ = argumentAt self.args 0 := hgiven 0 (by decide)
    have h₁ : s.regs ⟨1⟩ = argumentAt self.args 1 := hgiven 1 (by decide)
    rw [hhost, List.map_cons, List.map_cons, List.map_nil, h₀, h₁]
  refine ⟨id, hid, fun depth self => ⟨fun hslot => ?_,
    fun {n v shape st rest flags proto items} hslot ho formed hv => ?_⟩⟩
  · obtain ⟨state, hgiven, hrun⟩ := checksSlot_load.asks words (enter (depth + 1)) self hslot
    rw [hruns, hjumps, hrun]
    exact hslow depth self _ state hgiven
  · obtain ⟨state, hgiven, haccessor, hplain⟩ := checksSlot_load.runs words (enter (depth + 1)) self (e := e.entered)
      (hheap ▸ typed) (by rw [hslot]; exact Word.smi_isSmi _) ho (hheap ▸ formed)
    rw [hruns, hjumps]
    cases hflag : flags.contains .accessor with
    | true =>
      rw [if_pos (.inl rfl), haccessor hflag]
      exact hslow depth self _ state hgiven
    | false =>
      obtain ⟨hstore, hrun⟩ := hplain hflag
      have hslot' := (hgiven 2 (by decide)).trans hslot
      rw [hrun]
      cases hdense : flags.contains .dense with
      | false =>
        rw [hdense] at hv
        rw [if_neg Bool.false_ne_true, if_neg (by simp)]
        exact load_keyed (hheap ▸ typed.laid) formed.store hstore hslot' hv
      | true =>
        rw [hdense] at hv
        obtain ⟨state', hsame, hload⟩ := load_dense words (enter (depth + 1)) self jumps (e := e.entered)
          (hheap ▸ typed.laid) formed.store hstore hslot' hv (hheap ▸ hhole)
        rw [if_pos rfl, hload, hheap]
        by_cases hvalue : v = e.heap.hole
        · rw [if_pos hvalue, if_pos (.inr ⟨rfl, hvalue⟩)]
          exact hslow depth self _ state' fun k hk => (hsame k hk).trans (hgiven k hk)
        · rw [if_neg hvalue, if_neg (by simpa using hvalue)]
          rfl

section

variable {words : InstrId → Nat → Word} {call : Caller} {self : Activation} {state : Progress Word} {jumps : Nat}

variable (words call self jumps) in
/-- A value is written to its slot, and returned. -/
theorem store_written (laid : Laid e.heap T) (hst : T st = some (.store items)) (hstore : state.regs ⟨8⟩ = st)
    (hslot : state.regs ⟨2⟩ = .smi n) {dense : Bool} {old : Word} (hold : items[Heap.valuePlace dense n]? = some old) :
    (machineWorld words call self).runAt storeSlotGraph (jumps + 1) (if dense then ⟨4⟩ else ⟨5⟩) state e =
      .ok (state.regs ⟨3⟩) (e.withMemory (e.heap.memory.store (st.address + 8 * (2 + Heap.valuePlace dense n))
        (state.regs ⟨3⟩))) := by
  obtain ⟨hn, hlt, -⟩ := slot_inside laid hst hold
  have hpointer : (state.regs ⟨8⟩).isSmi = false := by rw [hstore]; exact Heap.isSmi_of_cell laid hst
  refine runAt_ends ?_
  cases dense with
  | true =>
    rw [if_pos rfl,
      show storeSlotGraph.code ⟨4⟩ = (number 0 storeSlotRows).filter (·.block = ⟨4⟩) from Graph.code_ofRows (by decide)]
    refine (runCode_writeIndexed (m := Layout.Store.items) (k := Layout.word) (by decide) hpointer hslot hn
      (by rw [hstore, offset_dense]; exact hlt)).trans ?_
    rw [hstore, offset_dense]
    rfl
  | false =>
    rw [if_neg Bool.false_ne_true,
      show storeSlotGraph.code ⟨5⟩ = (number 0 storeSlotRows).filter (·.block = ⟨5⟩) from Graph.code_ofRows (by decide)]
    refine (runCode_writeIndexed (m := Layout.Store.items + Layout.Item.value) (k := Layout.Item.bytes) (by decide)
      hpointer hslot hn (by rw [hstore, offset_keyed]; exact hlt)).trans ?_
    rw [hstore, offset_keyed]
    rfl

end

/-- A store without a slot asks the host, and so does a store to a function. Otherwise the value is written to the
slot. -/
theorem Stocked.storeSlot_runs (stocked : Stocked T e) (calm : e.Calm)
    (hs : e.stubs.compiled? "storePropertySlot" = some s) : ∃ id, callbackId "storeProperty" = .ok id ∧
      ∀ depth (self : Activation),
      ((argumentAt self.args 2).isSmi = false → callFunction (enter (depth + 2)) s.function self e = (do
        let _ ← callHost [.smi id, argumentAt self.args 0, argumentAt self.args 1, argumentAt self.args 3]
        return argumentAt self.args 3) e.entered) ∧
      ∀ {n old shape st rest flags proto items}, argumentAt self.args 2 = .smi (n : Nat) →
        T (argumentAt self.args 0) = some (.object shape st rest) →
        Heap.Formed e.heap T shape st rest flags proto items →
        items[Heap.valuePlace (flags.contains .dense) n]? = some old →
        (flags.contains .accessor = true → callFunction (enter (depth + 2)) s.function self e = (do
          let _ ← callHost [.smi id, argumentAt self.args 0, argumentAt self.args 1, argumentAt self.args 3]
          return argumentAt self.args 3) e.entered) ∧
        (flags.contains .accessor = false → ∃ heap t,
          Heap.writeSlot (argumentAt self.args 0) n (argumentAt self.args 3) e.heap = .ok () heap ∧ Noted e t heap ∧
          callFunction (enter (depth + 2)) s.function self e = .ok (argumentAt self.args 3) t) := by
  obtain ⟨past, sound⟩ := stocked.sound
  have typed := sound.typed
  obtain ⟨words, hstanding, hruns⟩ :=
    stocked.stub_runs calm hs (by simp [StubLibrary.standardSources]) build_storeSlot stublike_storeSlot
  obtain ⟨jumps, hjumps⟩ : ∃ jumps, maxJumps = jumps + 4 := exists_maxJumps (by decide)
  have hto₁ : Relation.ReflTransGen storeSlotGraph.Edge ⟨0⟩ ⟨1⟩ := .single (Graph.edge_ofRows (by decide) (by decide))
  have hslow : storeSlotGraph.code ⟨1⟩ = number 14 (hostRows "storeProperty" [⟨0⟩, ⟨1⟩, ⟨3⟩] 14 1) ++
      [⟨⟨20⟩, .prim .ret, [.value ⟨3⟩], ⟨1⟩⟩] := Graph.code_ofRows (by decide)
  obtain ⟨id, hid, hhost⟩ := hstanding.calls_host stocked.toShelved hto₁ (hslow.trans (List.nil_append _).symm)
    (by decide)
  have hheap : e.entered.heap = e.heap := (noted_entered e).heap_eq
  have hasks : ∀ depth self jumps (s : Progress Word), Given 4 self s →
      (machineWorld words (enter (depth + 1)) self).runAt storeSlotGraph (jumps + 1) ⟨1⟩ s e.entered = (do
        let _ ← callHost [.smi id, argumentAt self.args 0, argumentAt self.args 1, argumentAt self.args 3]
        return argumentAt self.args 3) e.entered := fun depth self jumps s hgiven => by
    have h₀ : s.regs ⟨0⟩ = argumentAt self.args 0 := hgiven 0 (by decide)
    have h₁ : s.regs ⟨1⟩ = argumentAt self.args 1 := hgiven 1 (by decide)
    have h₃ : s.regs ⟨3⟩ = argumentAt self.args 3 := hgiven 3 (by decide)
    have hblock : (machineWorld words (enter (depth + 1)) self).runAt storeSlotGraph (jumps + 1) ⟨1⟩ s = (do
        let _ ← askHost (enter (depth + 1)) (words ⟨19⟩ 0) (words ⟨17⟩ 0) (words ⟨19⟩ 2)
          ([⟨0⟩, ⟨1⟩, ⟨3⟩].map s.regs)
        return argumentAt self.args 3) := runAt_returned (by
      rw [hslow, runCode_hostRows, bind_assoc]
      refine congrArg _ (funext fun w => ?_)
      rw [runCode_ret, pure_bind, ← h₃]
      rfl)
    have hanswer := hhost depth ([⟨0⟩, ⟨1⟩, ⟨3⟩].map s.regs) rfl
    rw [List.map_cons, List.map_cons, List.map_cons, List.map_nil, h₀, h₁, h₃] at hanswer
    rw [hblock, List.map_cons, List.map_cons, List.map_cons, List.map_nil, h₀, h₁, h₃]
    exact bind_of_run hanswer
  refine ⟨id, hid, fun depth self => ⟨fun hslot => ?_,
    fun {n old shape st rest flags proto items} hslot ho formed hold => ?_⟩⟩
  · obtain ⟨state, hgiven, hrun⟩ := checksSlot_storeSlot.asks words (enter (depth + 1)) self hslot
    rw [hruns, hjumps, hrun]
    exact hasks depth self _ state hgiven
  · obtain ⟨state, hgiven, haccessor, hplain⟩ := checksSlot_storeSlot.runs words (enter (depth + 1)) self (e := e.entered)
      (hheap ▸ typed) (by rw [hslot]; exact Word.smi_isSmi _) ho (hheap ▸ formed)
    rw [hruns, hjumps]
    refine ⟨fun hflag => ?_, fun hflag => ?_⟩
    · rw [haccessor hflag]
      exact hasks depth self _ state hgiven
    · obtain ⟨hstore, hrun⟩ := hplain hflag
      have hvalue : state.regs ⟨3⟩ = argumentAt self.args 3 := hgiven 3 (by decide)
      have hwritten := store_written words (enter (depth + 1)) self jumps (e := e.entered) (hheap ▸ typed.laid)
        formed.store hstore ((hgiven 2 (by decide)).trans hslot) hold
      rw [hvalue, hheap] at hwritten
      refine ⟨_, _, writeSlot_slot typed ho formed, ?_, (hrun _).trans hwritten⟩
      obtain ⟨traps, events, hentered⟩ := noted_entered e
      rw [hentered]
      exact ⟨traps, events, rfl⟩

/-! ### Deletions and misses -/

/-- The code of a stub that only asks the host. -/
def asking (before : List Row) (name : String) (args : List InstrId) : List Row :=
  before ++ (hostRows name args before.length 0 ++ [(.ret, [.value ⟨before.length + args.length + 2⟩], 0)])

def deleteGraph : Graph :=
  .ofRows "deletePropertySlot" (asking [(.stubArg, [raw 0], 0), (.stubArg, [raw 1], 0)] "deleteProperty" [⟨0⟩, ⟨1⟩]) [[]]

theorem build_delete : build "deletePropertySlot" Stub.deleteBody = .ok deleteGraph := by cbv

def missGraph : Graph :=
  .ofRows Stub.missStub (asking [(.callee, [], 0), (.stubArg, [raw 0], 0), (.stubArg, [raw 1], 0), (.stubArg, [raw 2], 0)]
    "getPropertySlot" [⟨0⟩, ⟨1⟩, ⟨2⟩, ⟨3⟩]) [[]]

theorem build_miss : build Stub.missStub Stub.missBody = .ok missGraph := by cbv

theorem stublike_delete : Stublike deleteGraph := StubRows.stublike (by decide +kernel)

theorem stublike_miss : Stublike missGraph := StubRows.stublike (by decide +kernel)

/-- A stub that asks the host about values that its first rows get. -/
theorem Shelved.asking_runs (shelved : Shelved T e) (calm : e.Calm) {name callback title : String} {body : BuildM Unit}
    {before : List Row} {args : List InstrId} (hs : e.stubs.compiled? name = some s)
    (hmem : (name, .body body) ∈ StubLibrary.standardSources)
    (hbuild : build name body = .ok (.ofRows title (asking before callback args) [[]]))
    (hg : Stublike (.ofRows title (asking before callback args) [[]])) (few : args.length < 2 ^ 32)
    {values : Activation → List Word} (hvalues : ∀ words call self, ∃ state : Progress Word,
      args.map state.regs = values self ∧ ∀ rest, (machineWorld words call self).runCode (number 0 before ++ rest)
        { regs := fun _ => default } = (machineWorld words call self).runCode rest state) :
    ∃ id, callbackId callback = .ok id ∧ ∀ depth self,
      callFunction (enter (depth + 2)) s.function self e = callHost (.smi id :: values self) e.entered := by
  obtain ⟨words, hstanding, hruns⟩ := shelved.stub_runs calm hs hmem hbuild hg
  obtain ⟨jumps, hjumps⟩ : ∃ jumps, maxJumps = jumps + 1 := exists_maxJumps (by decide)
  have hcode : (Graph.ofRows title (asking before callback args) [[]]).code ⟨0⟩ = number 0 before ++
      (number before.length (hostRows callback args before.length 0) ++
        [⟨⟨before.length + (hostRows callback args before.length 0).length⟩, .prim .ret,
          [.value ⟨before.length + args.length + 2⟩], ⟨0⟩⟩]) := by
    rw [hg.line_code, asking, number_append, number_append, Nat.zero_add]
    rfl
  obtain ⟨id, hid, hhost⟩ := hstanding.calls_host shelved .refl hcode few
  refine ⟨id, hid, fun depth self => ?_⟩
  obtain ⟨state, hstate, hbefore⟩ := hvalues words (enter (depth + 1)) self
  have hblock : (machineWorld words (enter (depth + 1)) self).run (.ofRows title (asking before callback args) [[]])
      (jumps + 1) = askHost (enter (depth + 1)) (words ⟨before.length + args.length + 2⟩ 0)
        (words ⟨before.length + args.length⟩ 0) (words ⟨before.length + args.length + 2⟩ 2) (values self) :=
    runAt_returned (by
      rw [hcode]
      refine (hbefore _).trans ?_
      rw [runCode_hostRows, hstate]
      simp [runCode_ret])
  rw [hruns, hjumps, hblock]
  exact hhost depth _ (by rw [← hstate, List.length_map])

/-- A deletion asks the host. -/
theorem Shelved.delete_runs (shelved : Shelved T e) (calm : e.Calm)
    (hs : e.stubs.compiled? "deletePropertySlot" = some s) : ∃ id, callbackId "deleteProperty" = .ok id ∧ ∀ depth self,
      callFunction (enter (depth + 2)) s.function self e =
        callHost [.smi id, argumentAt self.args 0, argumentAt self.args 1] e.entered :=
  shelved.asking_runs calm hs (by simp [StubLibrary.standardSources]) build_delete stublike_delete (by decide)
    fun _ _ self => ⟨_, rfl, fun _ => rfl⟩

/-- What an inline cache does not know it asks the host, with the cache itself, which is the callee. -/
theorem Shelved.miss_runs (shelved : Shelved T e) (calm : e.Calm) (hs : e.stubs.compiled? Stub.missStub = some s) :
    ∃ id, callbackId "getPropertySlot" = .ok id ∧ ∀ depth self, callFunction (enter (depth + 2)) s.function self e =
      callHost [.smi id, self.callee, argumentAt self.args 0, argumentAt self.args 1, argumentAt self.args 2] e.entered :=
  shelved.asking_runs calm hs (by simp [StubLibrary.standardSources]) build_miss stublike_miss (by decide)
    fun _ _ self => ⟨_, rfl, fun _ => rfl⟩

end

end Engine
end ScriptEngine
