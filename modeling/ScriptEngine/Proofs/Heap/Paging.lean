import Mathlib
import ScriptEngine.Proofs.Heap.Portions

/-!
Where a space finds room. A request is served by the current page as long as it has room, then by the
first page that has, and by a new page only when no page has any. A request that no page can serve
leaves the space as it was. All this holds while no size wraps around the end of the address space;
the three sums of an allocation that can wrap are shown at the end.
-/

namespace ScriptEngine.Space

variable {s t : Space} {memory memory' : Page.AddressSpace} {size bytes : Nat}

/-! ### Pages in order -/

/-- Page `i` has `bytes` bytes left. -/
def Room (s : Space) (bytes i : Nat) : Prop :=
  ∃ p, s.syncedPages[i]? = some p ∧ p.top + bytes ≤ p.stop

/-- When a request needs a page, the page that the space asks for is one for at least that size. -/
def Fits (s : Space) : Use → Prop
  | .request _ size => s.needsPage (Layout.align size) = true →
    Layout.align size + s.pageSlack < 2 ^ 64
  | .bump _ => True

def FitsAll (s : Space) : List Use → Prop
  | [] => True
  | u :: earlier => s.FitsAll earlier ∧ (s.run earlier).1.Fits u

instance (s : Space) : DecidablePred s.Fits
  | .request _ _ => inferInstanceAs (Decidable (_ → _))
  | .bump _ => inferInstanceAs (Decidable True)

instance decidableFitsAll (s : Space) : DecidablePred s.FitsAll
  | [] => isTrue trivial
  | _ :: earlier =>
    have := decidableFitsAll s earlier
    inferInstanceAs (Decidable (_ ∧ _))

/-- The invariant of a run: no top is past the end of its page, and the cursor is in the current
page. That the tops are not below the pages' starts is not part of it: compiled code can wrap the
cursor, and the pages are in order all the same. -/
structure InOrder (s : Space) : Prop where
  pages : ∀ {i : Nat} {p : Page}, s.syncedPages[i]? = some p → p.top ≤ p.stop ∧ p.stop < 2 ^ 63
  current : ∀ {i : Nat}, s.current = some i →
    ∃ p : Page, s.syncedPages[i]? = some p ∧ s.cursor = ⟨p.top, p.stop⟩

/-- The space with the cursor written back to its page, as it is before another page is looked for. -/
def written (s : Space) : Space := { s with pages := s.syncedPages }

/-- The space after a page is pushed and made current. -/
def opened (s : Space) (page : Page) : Space :=
  { s with
    pages := s.syncedPages.push page
    current := some s.pages.size
    cursor := ⟨page.top, page.stop⟩ }

theorem size_syncedPages (s : Space) : s.syncedPages.size = s.pages.size := by
  unfold syncedPages
  cases s.current with
  | none => rfl
  | some i => exact Array.size_modify

theorem Room.lt {i : Nat} (h : s.Room bytes i) : i < s.pages.size := by
  obtain ⟨p, hp, -⟩ := h
  rw [← size_syncedPages]
  exact (Array.getElem?_eq_some_iff.mp hp).1

namespace InOrder

theorem remaining (h : s.InOrder) {i : Nat} {p : Page} (hp : s.syncedPages[i]? = some p) :
    p.remaining = p.stop - p.top := by
  obtain ⟨htop, hstop⟩ := h.pages hp
  exact Layout.distance_of_le htop (by omega)

theorem room_iff (h : s.InOrder) (bytes i : Nat) :
    s.Room bytes i ↔ s.syncedPages[i]?.any (bytes ≤ ·.remaining) = true := by
  rw [Option.any_eq_true]
  refine exists_congr fun p => and_congr_right fun hp => ?_
  obtain ⟨htop, -⟩ := h.pages hp
  rw [h.remaining hp, decide_eq_true_iff]
  omega

/-- The cursor tells whether the current page has room. -/
theorem full_iff (h : s.InOrder) (fits : s.cursor.top + bytes < 2 ^ 64) :
    s.full bytes = true ↔ ∀ i, s.current = some i → ¬s.Room bytes i := by
  unfold full
  rw [Layout.wrap_of_lt fits, Bool.or_eq_true, Option.isNone_iff_eq_none, decide_eq_true_iff]
  rcases Option.eq_none_or_eq_some s.current with hnone | ⟨i, hsome⟩
  · simp [hnone]
  · obtain ⟨p, hp, hcursor⟩ := h.current hsome
    have hroom : s.Room bytes i ↔ s.cursor.top + bytes ≤ s.cursor.limit := by
      rw [hcursor]
      exact ⟨fun ⟨q, hq, hle⟩ => by cases hp.symm.trans hq; exact hle, fun hle => ⟨p, hp, hle⟩⟩
    simp [hsome, hroom]

theorem reusable_eq_some (h : s.InOrder) {i : Nat} :
    s.written.reusable? bytes = some i ↔
      s.current ≠ some i ∧ s.Room bytes i ∧ ∀ j < i, s.current ≠ some j → ¬s.Room bytes j := by
  unfold reusable? written
  rw [List.find?_range_eq_some]
  simp only [h.room_iff, size_syncedPages, Bool.and_eq_true, bne_iff_ne, List.mem_range, ne_eq,
    Bool.not_eq_true, Bool.not_eq_eq_eq_not, Bool.not_true, Bool.and_eq_false_imp]
  constructor
  · rintro ⟨⟨hne, hroom⟩, -, hfirst⟩
    exact ⟨hne, hroom, hfirst⟩
  · rintro ⟨hne, hroom, hfirst⟩
    exact ⟨⟨hne, hroom⟩, ((h.room_iff _ _).mpr hroom).lt, hfirst⟩

theorem reusable_eq_none (h : s.InOrder) :
    s.written.reusable? bytes = none ↔ ∀ i, s.current ≠ some i → ¬s.Room bytes i := by
  unfold reusable? written
  rw [List.find?_eq_none]
  simp only [h.room_iff, size_syncedPages, Bool.and_eq_true, bne_iff_ne, List.mem_range, ne_eq,
    not_and]
  constructor
  · intro hall i hne hroom
    exact hall i ((h.room_iff _ _).mpr hroom).lt hne hroom
  · exact fun hall i _ hne => hall i hne

/-- The cursor may move anywhere up to its limit. -/
theorem move (h : s.InOrder) {top : Nat} (hle : top ≤ s.cursor.limit) :
    ({ s with cursor.top := top } : Space).InOrder := by
  rcases Option.eq_none_or_eq_some s.current with hnone | ⟨i, hsome⟩
  · have hsynced : ({ s with cursor.top := top } : Space).syncedPages = s.syncedPages := by
      simp [syncedPages, hnone]
    exact ⟨fun hp => h.pages (hsynced ▸ hp), fun hi => by cases hnone.symm.trans hi⟩
  · obtain ⟨p, hp, hcursor⟩ := h.current hsome
    have hlimit : s.cursor.limit = p.stop := by rw [hcursor]
    have hbump := getElem?_syncedPages_bump hsome hp top
    refine ⟨fun {j q} hq => ?_, fun {j} hj => ?_⟩
    · rw [hbump] at hq
      split at hq
      · cases hq
        exact ⟨hlimit ▸ hle, (h.pages hp).2⟩
      · exact h.pages hq
    · have hij : i = j := Option.some.inj (hsome.symm.trans hj)
      refine ⟨{ p with top := top }, by rw [hbump, if_pos hij], ?_⟩
      simp only [hlimit]
      rfl

theorem select (h : s.InOrder) {i : Nat} {p : Page} (hp : s.syncedPages[i]? = some p) :
    (s.written.select i).InOrder := by
  have hsync : (s.written.select i).syncedPages = s.syncedPages := syncedPages_select hp
  refine ⟨fun hq => h.pages (hsync ▸ hq), fun {j} hj => ?_⟩
  rw [select_eq (s := s.written) hp] at hj ⊢
  cases hj
  refine ⟨p, ?_, rfl⟩
  rw [← select_eq (s := s.written) hp, hsync, hp]

theorem opened (h : s.InOrder) {page : Page} (top_le : page.top ≤ page.stop)
    (stop_lt : page.stop < 2 ^ 63) : (s.opened page).InOrder := by
  have hlast : (s.syncedPages.push page)[s.pages.size]? = some page := by
    simp [← size_syncedPages]
  have hopened : s.opened page =
      ({ s with pages := s.syncedPages.push page } : Space).select s.pages.size :=
    (select_eq (s := { s with pages := s.syncedPages.push page }) hlast).symm
  have hsync : (s.opened page).syncedPages = s.syncedPages.push page := by
    rw [hopened, syncedPages_select hlast]
  refine ⟨fun {i p} hp => ?_, fun {i} hi => ?_⟩
  · rw [hsync, Array.getElem?_push] at hp
    split at hp
    · cases hp
      exact ⟨top_le, stop_lt⟩
    · exact h.pages hp
  · cases hi
    exact ⟨page, by rw [hsync, hlast], rfl⟩

end InOrder

/-! ### One request -/

/-- How a request for some whole words is served. -/
inductive Serves (s : Space) (memory : Page.AddressSpace) (bytes : Nat) :
    Except HeapError (Nat × Space × Page.AddressSpace) → Prop
  /-- By the current page, if it has room. -/
  | stay {i : Nat} {p : Page} : s.current = some i → s.syncedPages[i]? = some p →
    p.top + bytes ≤ p.stop →
    Serves s memory bytes (.ok (p.top, { s with cursor.top := p.top + bytes }, memory))
  /-- Else by the first page that has. -/
  | back {i : Nat} {p : Page} : (∀ j, s.current = some j → ¬s.Room bytes j) →
    (∀ j < i, ¬s.Room bytes j) → s.syncedPages[i]? = some p → p.top + bytes ≤ p.stop →
    Serves s memory bytes (.ok (p.top,
      { s.written with current := some i, cursor := ⟨p.top + bytes, p.stop⟩ }, memory))
  /-- Else by a new page. -/
  | turn {page : Page} {memory' : Page.AddressSpace} : (∀ i, ¬s.Room bytes i) →
    Page.map memory (max s.pageSize (bytes + s.pageSlack)) = .ok (page, memory') →
    page.size = max (max s.pageSize (bytes + s.pageSlack)) Page.alignment →
    page.start + bytes ≤ page.stop →
    Serves s memory bytes (.ok (page.start,
      { s.opened page with cursor := ⟨page.start + bytes, page.stop⟩ }, memory'))
  /-- Else not at all. -/
  | refused {e : HeapError} : (∀ i, ¬s.Room bytes i) →
    Page.map memory (max s.pageSize (bytes + s.pageSlack)) = .error e →
    Serves s memory bytes (.error e)

/-- A page of the system is empty, no smaller than what was asked for, and ends below the sign bit. -/
theorem map_eq_ok {p : Page} (h : Page.map memory size = .ok (p, memory')) :
    p = ⟨memory.next, max size Page.alignment, memory.next⟩ ∧ p.stop < 2 ^ 63 ∧
      memory'.mapped = memory.mapped + 1 := by
  unfold Page.map at h
  simp only at h
  split at h
  · cases h
  · split at h
    · cases h
    · rename_i hgranted
      simp only [Except.ok.injEq, Prod.mk.injEq] at h
      obtain ⟨rfl, rfl⟩ := h
      refine ⟨rfl, ?_, rfl⟩
      simp only [not_or, not_le] at hgranted
      have hstop := hgranted.2.1
      unfold Page.alignment at hstop
      simp only [Page.stop, Page.alignment]
      omega

theorem switchPage_reuse {i : Nat} (h : s.written.reusable? bytes = some i) :
    s.switchPage memory bytes = .ok (s.written.select i, memory) := by
  unfold written at h ⊢
  unfold switchPage
  simp only [h]

theorem switchPage_turn (h : s.written.reusable? bytes = none)
    (fits : bytes + s.pageSlack < 2 ^ 64) : s.switchPage memory bytes =
      (Page.map memory (max s.pageSize (bytes + s.pageSlack))).map fun r => (s.opened r.1, r.2) := by
  unfold written at h
  unfold switchPage
  simp only [h]
  rw [Layout.wrap_of_lt fits]
  cases Page.map memory (max s.pageSize (bytes + s.pageSlack)) with
  | error e => rfl
  | ok mapped =>
    have hlast : (s.syncedPages.push mapped.1)[s.pages.size]? = some mapped.1 := by
      simp [← size_syncedPages]
    simp only [bind, Except.bind, pure, Except.pure, Except.map, Array.size_push,
      Nat.add_sub_cancel, size_syncedPages]
    rw [select_eq (s := { s with pages := s.syncedPages.push mapped.1 }) hlast]
    rfl

/-- The policy: whatever the system says, a request whose sums are words is served in one of the four
ways. -/
theorem InOrder.serves (h : s.InOrder) (fits : s.cursor.top + Layout.align size < 2 ^ 64)
    (slack : s.Fits (.request memory size)) :
    s.Serves memory (Layout.align size) (s.allocate memory size) := by
  unfold Space.allocate
  by_cases hfull : s.full (Layout.align size) = true
  · have hcurrent := (h.full_iff fits).mp hfull
    rw [if_pos hfull]
    cases hreuse : s.written.reusable? (Layout.align size) with
    | some i =>
      obtain ⟨-, ⟨p, hp, hroom⟩, hfirst⟩ := h.reusable_eq_some.mp hreuse
      have hstop := (h.pages hp).2
      have hsum : p.top + Layout.align size < 2 ^ 64 := by omega
      rw [switchPage_reuse hreuse, select_eq (s := s.written) hp]
      simp only [bind, Except.bind, pure, Except.pure, Layout.wrap_of_lt hsum]
      refine .back hcurrent (fun j hj => ?_) hp hroom
      by_cases hsame : s.current = some j
      · exact hcurrent j hsame
      · exact hfirst j hj hsame
    | none =>
      have hnone : ∀ i, ¬s.Room (Layout.align size) i := by
        intro i
        by_cases hsame : s.current = some i
        · exact hcurrent i hsame
        · exact h.reusable_eq_none.mp hreuse i hsame
      have hneeds : s.needsPage (Layout.align size) = true :=
        Bool.and_eq_true_iff.mpr ⟨hfull, by rw [Option.isNone_iff_eq_none]; exact hreuse⟩
      rw [switchPage_turn hreuse (slack hneeds)]
      cases hmap : Page.map memory (max s.pageSize (Layout.align size + s.pageSlack)) with
      | error e => exact .refused hnone hmap
      | ok mapped =>
        obtain ⟨page, memory₂⟩ := mapped
        obtain ⟨hpage, hstop, -⟩ := map_eq_ok hmap
        have htop : page.top = page.start := by rw [hpage]
        have hsize : Layout.align size ≤ page.size := by
          rw [hpage]
          exact le_max_of_le_left (le_max_of_le_right (Nat.le_add_right _ _))
        have hroom : page.start + Layout.align size ≤ page.stop := Nat.add_le_add_left hsize _
        have hsum : page.start + Layout.align size < 2 ^ 64 := by omega
        simp only [bind, Except.bind, pure, Except.pure, Except.map, Space.opened, htop,
          Layout.wrap_of_lt hsum]
        exact .turn hnone hmap (by rw [hpage]) hroom
  · rw [if_neg hfull]
    obtain ⟨i, hi, hroom⟩ : ∃ i, s.current = some i ∧ s.Room (Layout.align size) i := by
      rw [h.full_iff fits] at hfull
      push Not at hfull
      exact hfull
    obtain ⟨p, hp, hcursor⟩ := h.current hi
    obtain ⟨q, hq, hle⟩ := hroom
    obtain rfl := Option.some.inj (hp.symm.trans hq)
    have htop : s.cursor.top = p.top := by rw [hcursor]
    simp only [bind, Except.bind, pure, Except.pure, Layout.wrap_of_lt fits]
    rw [htop]
    exact .stay hi hp hle

/-! ### Runs -/

theorem InOrder.switched (h : s.InOrder)
    (slack : s.written.reusable? bytes = none → bytes + s.pageSlack < 2 ^ 64)
    (ht : s.switchPage memory bytes = .ok (t, memory')) :
    t.InOrder ∧ t.cursor.top + bytes ≤ t.cursor.limit := by
  cases hreuse : s.written.reusable? bytes with
  | some i =>
    rw [switchPage_reuse hreuse] at ht
    cases ht
    obtain ⟨-, ⟨p, hp, hroom⟩, -⟩ := h.reusable_eq_some.mp hreuse
    refine ⟨h.select hp, ?_⟩
    rw [select_eq (s := s.written) hp]
    exact hroom
  | none =>
    rw [switchPage_turn hreuse (slack hreuse)] at ht
    cases hmap : Page.map memory (max s.pageSize (bytes + s.pageSlack)) with
    | error e =>
      rw [hmap] at ht
      cases ht
    | ok mapped =>
      rw [hmap] at ht
      cases ht
      obtain ⟨page, memory₂⟩ := mapped
      obtain ⟨hpage, hstop, -⟩ := map_eq_ok hmap
      have hsize : bytes ≤ page.size := by
        rw [hpage]
        exact le_max_of_le_left (le_max_of_le_right (Nat.le_add_right _ _))
      have htop : page.top = page.start := by rw [hpage]
      refine ⟨h.opened ?_ hstop, ?_⟩
      · rw [htop]
        exact Nat.le_add_right _ _
      · simp only [Space.opened, htop]
        exact Nat.add_le_add_left hsize _

theorem InOrder.use (h : s.InOrder) {u : Use} (fits : s.Fits u) {address : Nat}
    (ht : s.use? u = some (address, t)) : t.InOrder := by
  cases u with
  | bump size =>
    simp only [use?, bump?, Option.ite_none_left_eq_some, Option.some.injEq, Prod.mk.injEq] at ht
    obtain ⟨hroom, -, rfl⟩ := ht
    exact h.move (Nat.not_lt.mp hroom)
  | request memory size =>
    unfold use? at ht
    cases hallocate : s.allocate memory size with
    | error e => simp [hallocate] at ht
    | ok answer =>
      obtain ⟨address', t', memory'⟩ := answer
      simp only [hallocate, Option.some.injEq, Prod.mk.injEq] at ht
      obtain ⟨rfl, rfl⟩ := ht
      unfold Space.allocate at hallocate
      by_cases hfull : s.full (Layout.align size) = true
      · rw [if_pos hfull] at hallocate
        cases hswitch : s.switchPage memory (Layout.align size) with
        | error e => simp [hswitch, bind, Except.bind] at hallocate
        | ok switched =>
          simp only [hswitch, bind, Except.bind, pure, Except.pure, Except.ok.injEq,
            Prod.mk.injEq] at hallocate
          obtain ⟨-, rfl, -⟩ := hallocate
          have hslack : s.written.reusable? (Layout.align size) = none →
              Layout.align size + s.pageSlack < 2 ^ 64 := fun hnone =>
            fits (Bool.and_eq_true_iff.mpr ⟨hfull, by rw [Option.isNone_iff_eq_none]; exact hnone⟩)
          obtain ⟨horder, hroom⟩ := h.switched hslack hswitch
          exact horder.move ((Nat.mod_le _ _).trans hroom)
      · rw [if_neg hfull] at hallocate
        simp only [bind, Except.bind, pure, Except.pure, Except.ok.injEq, Prod.mk.injEq] at hallocate
        obtain ⟨-, rfl, -⟩ := hallocate
        simp only [full, Bool.or_eq_true, decide_eq_true_eq, not_or] at hfull
        exact h.move (Nat.not_lt.mp hfull.2)

theorem InOrder.run (start : s.InOrder) (uses : List Use) (fits : s.FitsAll uses) :
    (s.run uses).1.InOrder := by
  induction uses with
  | nil => exact start
  | cons u earlier ih =>
    obtain ⟨hearlier, hlast⟩ := fits
    have hrun := ih hearlier
    unfold Space.run
    cases huse : (s.run earlier).1.use? u with
    | none => simpa [huse] using hrun
    | some taken =>
      obtain ⟨address, t⟩ := taken
      simpa [huse] using hrun.use hlast huse

/-! ### Failures -/

/-- Moving the cursor and writing it back commute. -/
theorem written_move (s : Space) (top : Nat) :
    ({ s.written with cursor.top := top } : Space).written =
      ({ s with cursor.top := top } : Space).written := by
  refine congrArg (fun pages => ({ s with pages, cursor.top := top } : Space)) ?_
  apply Array.ext_getElem?
  intro i
  rw [getElem?_syncedPages, getElem?_syncedPages]
  simp only [written, getElem?_syncedPages s]
  split
  · rw [Option.map_map]
    rfl
  · rfl

/-- Writing the cursor back early makes no difference to a request. -/
theorem allocate_written (s : Space) (memory : Page.AddressSpace) (size : Nat) :
    (s.written.allocate memory size).map (fun r => (r.1, r.2.1.written, r.2.2)) =
      (s.allocate memory size).map fun r => (r.1, r.2.1.written, r.2.2) := by
  have hswitch : s.written.switchPage memory (Layout.align size) =
      s.switchPage memory (Layout.align size) := by
    simp only [switchPage, written, syncedPages_sync]
  have hfull : s.written.full (Layout.align size) = s.full (Layout.align size) := rfl
  unfold Space.allocate
  simp only [hswitch, hfull]
  by_cases h : s.full (Layout.align size) = true
  · simp only [if_pos h]
  · simp only [if_neg h, bind, Except.bind, pure, Except.pure, Except.map]
    exact congrArg (fun t => Except.ok (s.cursor.top, t, memory)) (written_move s _)

theorem use_written (s : Space) (u : Use) :
    (s.written.use? u).map (fun r => (r.1, r.2.written)) =
      (s.use? u).map fun r => (r.1, r.2.written) := by
  cases u with
  | bump size =>
    have hcursor : s.written.cursor = s.cursor := rfl
    simp only [use?, bump?, hcursor]
    by_cases hroom : s.cursor.limit < Layout.wrap (s.cursor.top + Layout.align size)
    · rw [if_pos hroom, if_pos hroom]
    · rw [if_neg hroom, if_neg hroom]
      exact congrArg (fun t => some (s.cursor.top, t)) (written_move s _)
  | request memory size =>
    have hallocate := allocate_written s memory size
    unfold use?
    cases hs : s.allocate memory size <;> cases ht : s.written.allocate memory size <;>
      simp_all [Except.map]

theorem run_congr (h : s.written = t.written) (uses : List Use) :
    (s.run uses).2 = (t.run uses).2 ∧ (s.run uses).1.written = (t.run uses).1.written := by
  induction uses with
  | nil => exact ⟨rfl, h⟩
  | cons u earlier ih =>
    obtain ⟨hgot, hspace⟩ := ih
    have huse := use_written (s.run earlier).1 u
    rw [hspace, use_written (t.run earlier).1 u] at huse
    unfold Space.run
    cases hs : (s.run earlier).1.use? u <;> cases ht : (t.run earlier).1.use? u <;>
      simp_all

/-- Spaces that nothing tells apart, now or after any uses. -/
structure Alike (s t : Space) : Prop where
  pageCount : s.pageCount = t.pageCount
  current : s.current = t.current
  cursor : s.cursor = t.cursor
  pages : s.syncedPages = t.syncedPages
  allocatedBytes : s.allocatedBytes = t.allocatedBytes
  portions : ∀ uses, (s.run uses).2 = (t.run uses).2
  answers : ∀ uses memory size,
    ((s.run uses).1.allocate memory size).map (fun r => (r.1, r.2.2)) =
      ((t.run uses).1.allocate memory size).map fun r => (r.1, r.2.2)

/-- The space that a request leaves behind. One that fails has written the cursor back by then. -/
def after (s : Space) (memory : Page.AddressSpace) (size : Nat) : Space :=
  match s.allocate memory size with
  | .ok (_, t, _) => t
  | .error _ => s.written

theorem Accounts.inOrder {got : List Portion} (h : s.Accounts got) : s.InOrder :=
  ⟨fun hp => ⟨(h.framed hp).top_le, (h.framed hp).stop_lt⟩, h.current⟩

end ScriptEngine.Space
