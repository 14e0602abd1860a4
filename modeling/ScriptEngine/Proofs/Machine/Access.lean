import Mathlib
import ScriptEngine.Proofs.Machine.Steps
import ScriptEngine.Proofs.Machine.Words

/-!
Execution of code that works on memory. Generated code finds the fields of an object at distances from
the pointer, whose tag is one; these are the addresses that the heap has for them. The equations take the
first instruction off a block, like those for code that only computes.
-/

namespace ScriptEngine

namespace Word

variable {a b n : Nat} {w : Word}

theorem toNat_ofNat (h : n < 2 ^ 64) : (ofNat n).toNat = n := UInt64.toNat_ofNat_of_lt' h

theorem ofNat_toNat (w : Word) : ofNat w.toNat = w := congrArg Word.mk UInt64.ofNat_toNat

theorem toNat_inj (h : a < 2 ^ 64) (h' : b < 2 ^ 64) (heq : ofNat a = ofNat b) : a = b := by
  have := congrArg toNat heq
  rwa [toNat_ofNat h, toNat_ofNat h'] at this

theorem signed_ofNat (h : n < 2 ^ 63) : (ofNat n).signed = n := by
  rw [signed_eq_toInt]
  change (BitVec.ofNat 64 n).toInt = _
  rw [BitVec.toInt_ofNat', Int.bmod_def]
  split <;> omega

theorem ofNat_eq_ofInt (n : Nat) : ofNat n = ofInt n :=
  congrArg Word.mk (UInt64.toNat_inj.mp (by simp [UInt64.ofInt]; omega))

theorem add_ofNat (a b : Nat) : (ofNat a).add (ofNat b) = ofNat (a + b) :=
  congrArg Word.mk (UInt64.ofNat_add ..).symm

theorem toNat_pointer (even : a % 2 = 0) (small : a < 2 ^ 64) : (pointer a).toNat = a + 1 := by
  have hor : a ||| 1 = a + 1 := by
    have := Nat.two_pow_add_eq_or_of_lt (i := 1) (b := 1) (by omega) (a / 2)
    rw [show 2 ^ 1 * (a / 2) = a by omega] at this
    exact this.symm
  change (UInt64.ofNat a ||| 1).toNat = _
  rw [UInt64.toNat_or, UInt64.toNat_ofNat_of_lt' small]
  exact hor

/-- Every word without the tag bit is a small integer. -/
theorem eq_smi (h : w.isSmi = true) : ∃ n, smiMin ≤ n ∧ n ≤ smiMax ∧ w = smi n := by
  have heven : w.toNat % 2 = 0 := by
    have hbit : w.bits &&& 1 = 0 := by simpa [isSmi] using h
    have hnat := congrArg UInt64.toNat hbit
    rw [UInt64.toNat_and] at hnat
    exact (Nat.and_one_is_mod _).symm.trans hnat
  have hsigned : w.signed % 2 = 0 := by
    rw [signed_eq_toInt, BitVec.toInt_eq_toNat_bmod, Int.bmod_def]
    change w.bits.toBitVec.toNat % 2 = 0 at heven
    split <;> omega
  have hfits := signed_fits w
  unfold Fits at hfits
  refine ⟨w.signed / 2, ?_, ?_, signed_inj ?_⟩
  · unfold smiMin
    omega
  · unfold smiMax
    omega
  · rw [signed_smi (by unfold smiMin; omega) (by unfold smiMax; omega)]
    omega

/-- A word that is no small integer is a pointer. -/
theorem eq_pointer (h : w.isSmi = false) : w = .pointer w.address ∧ w.address % 2 = 0 ∧ w.address < 2 ^ 64 := by
  have hodd : w.toNat % 2 = 1 := by
    have hbit : ¬ w.bits &&& 1 = 0 := by simpa [isSmi] using h
    have hne : ¬ (w.bits &&& 1).toNat = 0 := fun heq => hbit (UInt64.toNat_inj.mp heq)
    rw [UInt64.toNat_and, UInt64.toNat_one, Nat.and_one_is_mod] at hne
    change w.bits.toNat % 2 = 1
    omega
  have hlt : w.toNat < 2 ^ 64 := w.bits.toNat_lt
  have heq : w = pointer (w.toNat - 1) := by
    have hnat : w.toNat = (pointer (w.toNat - 1)).toNat := by rw [toNat_pointer (by omega) (by omega)]; omega
    rw [← ofNat_toNat w, hnat, ofNat_toNat, ← hnat]
  have haddress : w.address = w.toNat - 1 := by
    conv_lhs => rw [heq]
    exact address_pointer (by omega) (by omega)
  rw [haddress]
  exact ⟨heq, by omega, by omega⟩

end Word

namespace Meaning.Progress

variable {V : Type} {s : Progress V} {id : InstrId} {v : V} {note : Instr × (Nat → V)}

/-- The state after arithmetic that may still be tested for overflow. -/
def computed (s : Progress V) (id : InstrId) (v : V) (note : Instr × (Nat → V)) : Progress V :=
  { s.setReg id v with arithmetic := some note }

@[simp] theorem regs_computed : (s.computed id v note).regs = (s.setReg id v).regs := rfl

@[simp] theorem pushed_computed : (s.computed id v note).pushed = s.pushed := rfl

end Meaning.Progress

namespace Engine

open Builder (raw)
open Machine (load addressAt argumentAt callFunction)
open Meaning (Progress)

/-- Where generated code finds a field of an object. -/
theorem addressAt_field {w : Word} {k : Nat} (h : w.isSmi = false) (hk : w.address + k < 2 ^ 64) :
    addressAt w (k - 1) = w.address + k := by
  obtain ⟨heq, heven, hlt⟩ := Word.eq_pointer h
  generalize w.address = a at *
  have hbits : w = .ofInt (a + 1) := by
    rw [heq, ← Word.ofNat_toNat (.pointer _), Word.toNat_pointer heven hlt, Word.ofNat_eq_ofInt]
    rfl
  have hsum : w.add (.ofInt (k - 1)) = .ofNat (a + k) := by
    rw [hbits, Word.add_signed, Word.ofNat_eq_ofInt]
    apply Word.signed_inj
    simp only [Word.signed_ofInt, Int.bmod_add_bmod, Int.add_bmod_bmod]
    congr 1
    push_cast
    omega
  rw [addressAt, hsum, Word.toNat_ofNat hk]

/-- An engine with other contents of memory. -/
def withMemory (e : Engine) (memory : Memory) : Engine := { e with heap := { e.heap with memory } }

@[simp] theorem memory_withMemory (e : Engine) (memory : Memory) : (e.withMemory memory).heap.memory = memory := rfl

@[simp] theorem withMemory_withMemory (e : Engine) (first memory : Memory) :
    (e.withMemory first).withMemory memory = e.withMemory memory := rfl

theorem fieldOffset_eq {k : Nat} (hk : k < 2 ^ 28) : Emission.fieldOffset k = k - 1 := by
  rw [Emission.fieldOffset, Emission.offset32, Int.bmod_def]
  split <;> omega

section

variable {words : InstrId → Nat → Word} {call : Caller} {self : Activation} {s : Progress Word}
  {id a c d : InstrId} {b : BlockId} {rest : List Instr} {e : Engine} {k : Nat}

/-! ### Arithmetic on bare words -/

theorem runCode_untag : (machineWorld words call self).runCode (⟨id, .prim .untag, [.value a], b⟩ :: rest) s =
    (machineWorld words call self).runCode rest (s.setReg id (s.regs a).untag) := rfl

theorem runCode_alignSize : (machineWorld words call self).runCode (⟨id, .prim .alignSize, [.value a], b⟩ :: rest) s =
    (machineWorld words call self).runCode rest (s.setReg id (.ofNat (Layout.align (s.regs a).toNat))) := rfl

theorem runCode_addBare :
    (machineWorld words call self).runCode (⟨id, .prim .addBare, [.value a, .value c], b⟩ :: rest) s =
      (machineWorld words call self).runCode rest (s.setReg id ((s.regs a).add (s.regs c))) := rfl

theorem runCode_pointer : (machineWorld words call self).runCode (⟨id, .prim .pointer, [.value a], b⟩ :: rest) s =
    (machineWorld words call self).runCode rest (s.setReg id ((s.regs a).or ⟨1⟩)) := rfl

theorem runCode_comparePointer {cond : Cond} : (machineWorld words call self).runCode
    (⟨id, .prim .comparePointer, [.value a, .value c, .const (.cond cond)], b⟩ :: rest) s =
      (machineWorld words call self).runCode rest (s.tested (cond.holds (s.regs a) (s.regs c))) := rfl

theorem runCode_pushConst {n : Const} :
    (machineWorld words call self).runCode (⟨id, .prim .push, [.const n], b⟩ :: rest) s =
      (machineWorld words call self).runCode rest (s.push (words id 0)) := rfl

/-- Arithmetic with a constant that nothing tests for overflow. -/
theorem runCode_arithmeticConst {op : PrimOp} (hop : op ∈ [PrimOp.add, .sub, .mul]) {n : Const} :
    (machineWorld words call self).runCode (⟨id, .prim op, [.value a, .const n], b⟩ :: rest) s =
      (machineWorld words call self).runCode rest
        (s.computed id (Machine.compute ∅ (op.arithmetic (.word (s.regs a)) (.word (words id 1)))).1
          (⟨id, .prim op, [.value a, .const n], b⟩,
            (machineWorld words call self).values s ⟨id, .prim op, [.value a, .const n], b⟩)) := by
  simp only [List.mem_cons, List.not_mem_nil, or_false] at hop
  rcases hop with rfl | rfl | rfl <;> rfl

/-! ### The cursor of the young space -/

theorem runCode_heapTop : (machineWorld words call self).runCode (⟨id, .prim .heapTop, [], b⟩ :: rest) s e =
    (machineWorld words call self).runCode rest (s.setReg id (.ofNat e.heap.young.cursor.top)) e := rfl

theorem runCode_heapLimit : (machineWorld words call self).runCode (⟨id, .prim .heapLimit, [], b⟩ :: rest) s e =
    (machineWorld words call self).runCode rest (s.setReg id (.ofNat e.heap.young.cursor.limit)) e := rfl

theorem runCode_setHeapTop :
    (machineWorld words call self).runCode (⟨id, .prim .setHeapTop, [.value a], b⟩ :: rest) s e =
      (machineWorld words call self).runCode rest s { e with heap.young.cursor.top := (s.regs a).toNat } := rfl

/-! ### Fields of objects -/

theorem runCode_read (hk : k < 2 ^ 28) (ha : (s.regs a).isSmi = false) (hlt : (s.regs a).address + k < 2 ^ 64) :
    (machineWorld words call self).runCode (⟨id, .prim .read, [.value a, raw k], b⟩ :: rest) s e =
      (machineWorld words call self).runCode rest (s.setReg id (e.heap.read (s.regs a) k)) e := by
  rw [Heap.read, ← addressAt_field ha hlt, ← fieldOffset_eq hk]
  rfl

theorem runCode_write (hk : k < 2 ^ 28) (ha : (s.regs a).isSmi = false) (hlt : (s.regs a).address + k < 2 ^ 64) :
    (machineWorld words call self).runCode (⟨id, .prim .write, [.value a, raw k, .value c], b⟩ :: rest) s e =
      (machineWorld words call self).runCode rest s
        (e.withMemory (e.heap.memory.store ((s.regs a).address + k) (s.regs c))) := by
  rw [← addressAt_field ha hlt, ← fieldOffset_eq hk]
  rfl

/-- Filling the words behind a field. -/
theorem runCode_fill (count : Nat) (ha : (s.regs a).isSmi = false) (hcount : (s.regs c).signed = count)
    (hlt : (s.regs a).address + k + 8 * count < 2 ^ 64) : (machineWorld words call self).runCode
      (⟨id, .prim .fill, [.value a, raw k, .value c, .value d], b⟩ :: rest) s e =
        (machineWorld words call self).runCode rest s
          (e.withMemory (e.heap.memory.fill ((s.regs a).address + k) count (s.regs d))) := by
  have hstop : addressAt (.ofNat ((s.regs a).address + k)) ((s.regs c).signed * 8) =
      (s.regs a).address + k + 8 * count := by
    have hdistance : (Word.ofInt ((s.regs c).signed * 8)) = .ofNat (8 * count) := by
      rw [hcount, Word.ofNat_eq_ofInt]
      congr 1
      push_cast
      omega
    rw [addressAt, hdistance, Word.add_ofNat, Word.toNat_ofNat hlt]
  have hwords : Machine.wordsBetween ((s.regs a).address + k) ((s.regs a).address + k + 8 * count) = count := by
    unfold Machine.wordsBetween
    omega
  have hrun : (machineWorld words call self).runCode
      (⟨id, .prim .fill, [.value a, raw k, .value c, .value d], b⟩ :: rest) s e =
        (machineWorld words call self).runCode rest s
          (e.withMemory (e.heap.memory.fill (addressAt (s.regs a) (k - 1))
            (Machine.wordsBetween (addressAt (s.regs a) (k - 1))
              (addressAt (.ofNat (addressAt (s.regs a) (k - 1))) ((s.regs c).signed * 8))) (s.regs d))) := rfl
  rw [hrun, addressAt_field ha (by omega), hstop, hwords]

/-! ### Blocks -/

variable {g : Graph} {jumps : Nat} {yes no : BlockId} {t : Engine} {v : Word}

/-- A block that returns from a state. -/
theorem runAt_ends (h : (machineWorld words call self).runCode (g.code b) s e = .ok (.returned v) t) :
    (machineWorld words call self).runAt g (jumps + 1) b s e = .ok v t := by
  rw [Meaning.World.runAt]
  exact State.bind_of_ok h

/-- A block that branches from a state, to blocks without parameters. -/
theorem runAt_turns {s' : Progress Word} {holds : Bool}
    (h : (machineWorld words call self).runCode (g.code b) s e = .ok (.fell s') t)
    (hnext : g.successors b = [yes, no]) (hholds : s'.condition = some holds) (hyes : g.parameters yes = [])
    (hno : g.parameters no = []) : (machineWorld words call self).runAt g (jumps + 1) b s e =
      (machineWorld words call self).runAt g jumps (if holds then yes else no) s'.next t := by
  have henter : ∀ u, g.parameters u = [] → (machineWorld words call self).enter g s' u = s'.next := fun u hu => by
    unfold Meaning.World.enter
    simp only [hu, List.not_mem_nil, if_false]
    rfl
  rw [Meaning.World.runAt]
  refine (State.bind_of_ok h).trans ?_
  rw [hnext]
  simp only [hholds, Meaning.next?]
  cases holds
  · exact congrArg (fun r => (machineWorld words call self).runAt g jumps no r t) (henter no hno)
  · exact congrArg (fun r => (machineWorld words call self).runAt g jumps yes r t) (henter yes hyes)

end

end Engine
end ScriptEngine
