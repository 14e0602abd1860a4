import Mathlib
import ScriptEngine.Proofs.Heap.Fresh
import ScriptEngine.Proofs.Heap.Paging

/-!
Allocations that succeed. As long as the system maps the pages that a heap asks for, memory can be taken
from the spaces, and the bytes that the young space has handed out grow by what was taken, in whichever
pages it lies.
-/

namespace ScriptEngine

/-- The next `n` pages of up to `bytes` bytes are mapped. -/
def Page.AddressSpace.Maps (bytes : Nat) : Nat → Page.AddressSpace → Prop
  | 0, _ => True
  | n + 1, space => ∀ size ≤ bytes, ∃ p space', Page.map space size = .ok (p, space') ∧ space'.Maps bytes n

theorem Page.AddressSpace.Maps.pred {bytes n : Nat} {space : Page.AddressSpace} (h : space.Maps bytes (n + 1)) :
    space.Maps bytes n := by
  induction n generalizing space with
  | zero => trivial
  | succ n ih =>
    intro size hsize
    obtain ⟨p, space', hmap, hrest⟩ := h size hsize
    exact ⟨p, space', hmap, ih hrest⟩

/-- A system that refuses nothing maps pages as long as there are addresses. -/
theorem Page.AddressSpace.maps_of_room {bytes n : Nat} {space : Page.AddressSpace}
    (grants : ∀ k, space.refuses k = false) (small : bytes < Page.refusedSize)
    (room : space.next + n * (bytes + 3 * Page.alignment) < 2 ^ 63) : space.Maps bytes n := by
  induction n generalizing space with
  | zero => trivial
  | succ n ih =>
    intro size hsize
    unfold Page.alignment at room
    unfold Page.refusedSize at small
    rw [Nat.succ_mul] at room
    have hstop : (space.next + max size Page.alignment + Page.alignment - 1) / Page.alignment * Page.alignment ≤
        space.next + bytes + 2 * 4096 := by
      unfold Page.alignment
      omega
    have hbytes : max size Page.alignment < 2 ^ 62 := by
      unfold Page.alignment
      omega
    unfold Page.map
    simp only
    rw [if_neg (by unfold Page.maxSize Page.alignment at *; omega), if_neg]
    · refine ⟨_, _, rfl, ih (fun k => grants k) ?_⟩
      simp only [Page.alignment] at *
      omega
    · rw [grants]
      unfold Page.refusedSize
      simp only [Bool.false_eq_true, or_false, not_or]
      omega

namespace Space

variable {s t : Space} {memory memory' : Page.AddressSpace} {size bytes address n : Nat}

theorem Sound.inOrder {next : Nat} (h : s.Sound next) : s.InOrder where
  pages hp := by
    have hstop := (h.pages hp).stop_lt
    unfold Page.alignment at hstop
    exact ⟨(h.pages hp).top_le, by omega⟩
  current := h.current

/-- Bytes in use of sound pages. -/
theorem Sound.allocatedBytes_eq {next : Nat} (h : s.Sound next) :
    s.allocatedBytes = Layout.wrap (s.syncedPages.toList.map fun p => p.top - p.start).sum := by
  rw [Space.allocatedBytes_eq]
  congr 2
  refine List.map_congr_left fun p hp => ?_
  obtain ⟨i, hi⟩ := Array.getElem?_of_mem (Array.mem_toList_iff.mp hp)
  have hpage := h.pages hi
  have htop := hpage.top_le
  have hstop := hpage.stop_lt
  unfold Page.alignment at hstop
  exact Layout.distance_of_le hpage.start_le (by omega)

/-- Words that a page hands out are in use from then on. -/
theorem allocatedBytes_of_used {next next' : Nat} (h : s.Sound next) (h' : t.Sound next')
    (used : (t.syncedPages.toList.map fun p => p.top - p.start).sum =
      bytes + (s.syncedPages.toList.map fun p => p.top - p.start).sum) :
    t.allocatedBytes = Layout.wrap (s.allocatedBytes + bytes) := by
  rw [h.allocatedBytes_eq, h'.allocatedBytes_eq, used]
  unfold Layout.wrap
  rw [Nat.mod_add_mod, Nat.add_comm]

/-- What an allocation leaves of a space. -/
structure Spent (s t : Space) (bytes : Nat) : Prop where
  pageSize : t.pageSize = s.pageSize
  pageSlack : t.pageSlack = s.pageSlack
  allocatedBytes : t.allocatedBytes = Layout.wrap (s.allocatedBytes + bytes)

theorem Spent.trans {u : Space} {more : Nat} (h : s.Spent t bytes) (h' : t.Spent u more) :
    s.Spent u (bytes + more) where
  pageSize := h'.pageSize.trans h.pageSize
  pageSlack := h'.pageSlack.trans h.pageSlack
  allocatedBytes := by
    rw [h'.allocatedBytes, h.allocatedBytes]
    unfold Layout.wrap
    rw [Nat.mod_add_mod, Nat.add_assoc]

theorem Sound.spent_zero {next : Nat} (h : s.Sound next) : s.Spent s 0 where
  pageSize := rfl
  pageSlack := rfl
  allocatedBytes := by
    rw [h.allocatedBytes_eq]
    unfold Layout.wrap
    rw [Nat.add_zero, Nat.mod_mod]

theorem Sound.top_lt {next : Nat} (h : s.Sound next) : s.cursor.top + 4096 ≤ 2 ^ 63 := by
  cases hcurrent : s.current with
  | none =>
    rw [h.idle hcurrent]
    decide
  | some i =>
    obtain ⟨p, hp, hcursor⟩ := h.current hcurrent
    have htop := (h.pages hp).top_le
    have hstop := (h.pages hp).stop_lt
    unfold Page.alignment at hstop
    rw [hcursor]
    simp only
    omega

theorem Sound.top_aligned {next : Nat} (h : s.Sound next) : s.cursor.top % 8 = 0 := by
  cases hcurrent : s.current with
  | none =>
    rw [h.idle hcurrent]
    rfl
  | some i =>
    obtain ⟨p, hp, hcursor⟩ := h.current hcurrent
    rw [hcursor]
    exact (h.pages hp).aligned

theorem Sound.limit_lt {next : Nat} (h : s.Sound next) : s.cursor.limit < 2 ^ 63 := by
  cases hcurrent : s.current with
  | none =>
    rw [h.idle hcurrent]
    decide
  | some i =>
    obtain ⟨p, hp, hcursor⟩ := h.current hcurrent
    have hstop := (h.pages hp).stop_lt
    unfold Page.alignment at hstop
    rw [hcursor]
    simp only
    omega

section

variable (sound : s.Sound memory.next) (aligned : memory.next % 8 = 0) (small : size < 2 ^ 62)

include sound small

theorem Sound.serves : s.Serves memory (Layout.align size) (s.allocate memory size) := by
  have htop := sound.top_lt
  have hslack := sound.slack
  have halign : Layout.align size ≤ size + 7 := by
    unfold Layout.align
    rw [Layout.wrap_of_lt (by omega)]
    omega
  exact sound.inOrder.serves (by omega) fun _ => by omega

include aligned

theorem Sound.spent (run : s.allocate memory size = .ok (address, t, memory')) :
    s.Spent t (Layout.align size) := by
  have hserves := sound.serves small
  have hsound := (allocate_ok sound aligned (by omega) run).sound
  rw [run] at hserves
  generalize Layout.align size = bytes at hserves
  have hset : ∀ {i : Nat} {p : Page}, s.syncedPages[i]? = some p →
      ((s.syncedPages.toList.set i { p with top := p.top + bytes }).map fun p => p.top - p.start).sum =
        bytes + (s.syncedPages.toList.map fun p => p.top - p.start).sum := fun hp =>
    sum_used_set (by simpa using hp) (sound.pages hp).start_le bytes
  cases hserves with
  | @stay i p hi hp hroom =>
    refine ⟨rfl, rfl, allocatedBytes_of_used sound hsound ?_⟩
    rw [← hset hp]
    congr 2
    apply List.ext_getElem?
    intro j
    have hbump := getElem?_syncedPages_bump hi hp (p.top + bytes) j
    rw [Array.getElem?_toList, hbump, List.getElem?_set, Array.getElem?_toList]
    split
    · rename_i hij
      subst hij
      rw [if_pos (by simpa using (Array.getElem?_eq_some_iff.mp hp).1)]
    · rfl
  | @back i p hcurrent hfirst hp hroom =>
    refine ⟨rfl, rfl, allocatedBytes_of_used sound hsound ?_⟩
    rw [← hset hp]
    congr 2
    apply List.ext_getElem?
    intro j
    rw [Array.getElem?_toList, getElem?_syncedPages, List.getElem?_set, Array.getElem?_toList]
    simp only [written, Option.some.injEq]
    split
    · rename_i hij
      subst hij
      rw [if_pos (by simpa using (Array.getElem?_eq_some_iff.mp hp).1), hp]
      rfl
    · rfl
  | @turn page _ hnone hmap hsize hroom =>
    obtain ⟨hpage, -⟩ := map_eq_ok hmap
    refine ⟨rfl, rfl, allocatedBytes_of_used sound hsound ?_⟩
    have hpages : ({ s.opened page with cursor := ⟨page.start + bytes, page.stop⟩ } : Space).syncedPages.toList =
        s.syncedPages.toList ++ [{ page with top := page.start + bytes }] := by
      apply List.ext_getElem?
      intro j
      rw [Array.getElem?_toList, getElem?_syncedPages]
      simp only [opened, Option.some.injEq, Array.getElem?_push, size_syncedPages, List.getElem?_append,
        Array.length_toList, Array.getElem?_toList]
      rcases Nat.lt_trichotomy j s.pages.size with hlt | rfl | hgt
      · rw [if_neg (by omega), if_neg (by omega), if_pos hlt]
      · simp
      · rw [if_neg (by omega), if_neg (by omega), if_neg (by omega),
          Array.getElem?_eq_none (by rw [size_syncedPages]; omega), List.getElem?_eq_none (by simp; omega)]
    rw [hpages]
    simp
    omega

/-- A request is served if the system maps the page that it may need. -/
theorem Sound.allocate_succeeds (maps : memory.Maps bytes (n + 1))
    (fits : max s.pageSize (Layout.align size + s.pageSlack) ≤ bytes) : ∃ address t memory',
      s.allocate memory size = .ok (address, t, memory') ∧ memory'.Maps bytes n ∧
        s.Spent t (Layout.align size) := by
  have hserves := sound.serves small
  have hspent : ∀ {address t memory'}, s.allocate memory size = .ok (address, t, memory') →
      s.Spent t (Layout.align size) := fun run => sound.spent aligned small run
  generalize s.allocate memory size = result at hserves hspent
  cases hserves with
  | stay => exact ⟨_, _, _, rfl, maps.pred, hspent rfl⟩
  | back => exact ⟨_, _, _, rfl, maps.pred, hspent rfl⟩
  | turn _ hmap =>
    obtain ⟨p, space', hmap', hrest⟩ := maps _ fits
    cases hmap.symm.trans hmap'
    exact ⟨_, _, _, rfl, hrest, hspent rfl⟩
  | refused _ hmap =>
    obtain ⟨p, space', hmap', -⟩ := maps _ fits
    cases hmap.symm.trans hmap'

end

end Space

namespace Heap

open Function (update)

variable {h h' : Heap} {T : Contents} {shape w : Word} {size bytes n k : Nat}

/-- The system maps the next `n` pages for shapes and for up to `size` bytes in the young space. -/
def Maps (h : Heap) (size n : Nat) : Prop :=
  h.addressSpace.Maps (max (max h.young.pageSize (size + h.young.pageSlack))
    (max h.shapes.pageSize (Layout.Shape.size + h.shapes.pageSlack))) n

theorem Maps.pred (maps : h.Maps size (n + 1)) : h.Maps size n := Page.AddressSpace.Maps.pred maps

/-- Nothing is mapped that is too large for the system. -/
theorem Maps.size_lt (laid : Laid h T) (maps : h.Maps size (n + 1)) : size < 2 ^ 62 := by
  obtain ⟨p, space, hmap, -⟩ := maps _ le_rfl
  obtain ⟨-, -, hle, hpage, -⟩ := Page.map_ok laid.spaces.aligned hmap
  have hlt := hpage.size_lt
  unfold Page.refusedSize at hlt
  omega

/-- The heap went on, and its young space has handed out so many bytes more. -/
structure Spends (h h' : Heap) (bytes : Nat) : Prop where
  young : h.young.Spent h'.young bytes
  shapeSize : h'.shapes.pageSize = h.shapes.pageSize
  shapeSlack : h'.shapes.pageSlack = h.shapes.pageSlack

theorem Spends.trans {h'' : Heap} {more : Nat} (first : h.Spends h' bytes) (second : h'.Spends h'' more) :
    h.Spends h'' (bytes + more) where
  young := first.young.trans second.young
  shapeSize := second.shapeSize.trans first.shapeSize
  shapeSlack := second.shapeSlack.trans first.shapeSlack

theorem Spends.keep {h'' : Heap} (spends : h.Spends h' bytes) (young : h''.young = h'.young)
    (shapes : h''.shapes = h'.shapes) : h.Spends h'' bytes where
  young := young ▸ spends.young
  shapeSize := shapes ▸ spends.shapeSize
  shapeSlack := shapes ▸ spends.shapeSlack

theorem Maps.keep (maps : h.Maps size n) (young : h'.young = h.young) (shapes : h'.shapes = h.shapes)
    (space : h'.addressSpace = h.addressSpace) : h'.Maps size n := by
  unfold Maps at maps ⊢
  rwa [young, shapes, space]

/-- The system maps as much for a heap that went on. -/
theorem Spends.maps (spends : h.Spends h' bytes)
    (maps : h'.addressSpace.Maps (max (max h.young.pageSize (size + h.young.pageSlack))
      (max h.shapes.pageSize (Layout.Shape.size + h.shapes.pageSlack))) n) : h'.Maps size n := by
  unfold Maps
  rwa [spends.young.pageSize, spends.young.pageSlack, spends.shapeSize, spends.shapeSlack]

/-- While the page in use has room, an allocation moves the cursor. -/
theorem allocYoung_bumps (laid : Laid h T) (positive : 0 < k) (small : k < 2 ^ 63)
    (room : h.young.cursor.top + Layout.align k ≤ h.young.cursor.limit) (shape : Word) :
    allocYoung shape k h = .ok (.pointer h.young.cursor.top) { h with
      young := { h.young with cursor.top := h.young.cursor.top + Layout.align k }
      memory := h.memory.store ((Word.pointer h.young.cursor.top).address + Layout.shape) shape } := by
  have hbytes : Layout.align k = 8 * ((k + 7) / 8) := align_eq (by omega)
  have hlimit := laid.spaces.first.limit_lt
  have hwrap : Layout.wrap (h.young.cursor.top + Layout.align k) = h.young.cursor.top + Layout.align k :=
    Layout.wrap_of_lt (by omega)
  have hfull : h.young.full (Layout.align k) = false := by
    unfold Space.full
    rw [hwrap]
    cases hcurrent : h.young.current with
    | none =>
      rw [laid.spaces.first.idle hcurrent] at room
      change 0 + Layout.align k ≤ 0 at room
      omega
    | some i => simpa using room
  have hallocate : h.young.allocate h.addressSpace k = .ok (h.young.cursor.top,
      { h.young with cursor.top := h.young.cursor.top + Layout.align k }, h.addressSpace) := by
    unfold Space.allocate
    simp only [hfull, Bool.false_eq_true, if_false, pure_bind, hwrap]
    rfl
  unfold allocYoung
  refine (State.get_bind _).trans ?_
  rw [hallocate]
  rfl

theorem allocYoung_succeeds (laid : Laid h T) (maps : h.Maps size (n + 1)) (fits : Layout.align k ≤ size)
    (small : k < 2 ^ 62) (shape : Word) : ∃ w h', allocYoung shape k h = .ok w h' ∧ h'.Maps size n ∧
      h.Spends h' (Layout.align k) := by
  obtain ⟨address, young, space, hallocate, hmaps, hspent⟩ :=
    laid.spaces.first.allocate_succeeds laid.spaces.aligned small maps (by omega)
  have hspends : h.Spends { h with
      young := young, addressSpace := space,
      memory := h.memory.store ((Word.pointer address).address + Layout.shape) shape } (Layout.align k) :=
    ⟨hspent, rfl, rfl⟩
  refine ⟨.pointer address, _, ?_, hspends.maps hmaps, hspends⟩
  unfold allocYoung
  refine (State.get_bind _).trans ?_
  rw [hallocate]
  rfl

theorem allocShape_succeeds (laid : Laid h T) (maps : h.Maps size (n + 1)) (flags : ShapeFlags) (proto : Word) :
    ∃ w h', allocShape flags proto h = .ok w h' ∧ h'.Maps size n ∧ h.Spends h' 0 := by
  have spaces := laid.spaces.rotate.rotate
  obtain ⟨address, shapes, space, hallocate, hmaps, hspent⟩ :=
    spaces.first.allocate_succeeds spaces.aligned (show Layout.Shape.size < 2 ^ 62 by decide) maps
      (by rw [show Layout.align Layout.Shape.size = Layout.Shape.size from rfl]; omega)
  have hspends : ∀ memory, h.Spends { h with shapes := shapes, addressSpace := space, memory := memory } 0 := fun _ =>
    ⟨laid.spaces.first.spent_zero, hspent.pageSize, hspent.pageSlack⟩
  have hrun : allocShape flags proto h = .ok (.pointer address) { h with
      shapes := shapes, addressSpace := space,
      memory := ((h.memory.store ((Word.pointer address).address + Layout.shape) (h.rootShape .map)).store
        ((Word.pointer address).address + Layout.Shape.flags) (.smi flags.bits)).store
        ((Word.pointer address).address + Layout.Shape.proto) proto } := by
    unfold allocShape
    refine (State.get_bind _).trans ?_
    rw [hallocate]
    rfl
  exact ⟨_, _, hrun, (hspends _).maps hmaps, hspends _⟩

theorem allocStore_succeeds (laid : Laid h T) {words : Nat} (maps : h.Maps size (n + 1))
    (fits : 8 * (words + 2) ≤ size) : ∃ w h', allocStore words h = .ok w h' ∧
      h'.Maps size n ∧ h.Spends h' (8 * (words + 2)) := by
  have hsmall := maps.size_lt laid
  have hsize : Layout.Store.size words = 8 * (words + 2) := storeSize_eq (by omega)
  have halign : Layout.align (Layout.Store.size words) = 8 * (words + 2) := by
    rw [hsize, align_eq (by omega)]
    omega
  obtain ⟨w, h₁, allocated, maps₁, spends₁⟩ :=
    allocYoung_succeeds laid maps (halign.trans_le fits) (by omega) (h.rootShape .field)
  rw [halign] at spends₁
  have hrun : allocStore words h = .ok w { h₁ with
      memory := (h₁.memory.store (w.address + Layout.Store.length) (.smi words)).fill
        (w.address + Layout.Store.items) words h₁.hole } :=
    (State.get_bind _).trans ((State.bind_of_ok allocated).trans rfl)
  exact ⟨w, _, hrun, maps₁.keep rfl rfl rfl, spends₁.keep rfl rfl⟩

end Heap
end ScriptEngine
