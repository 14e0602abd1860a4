import Mathlib
import ScriptEngine.Proofs.Heap.Allocation

/-!
What a space hands out over its life. The host asks for memory, compiled code moves the cursor by
itself, in any order; the system maps pages wherever it likes, apart from each other. Portions of
memory never overlap, each lies in one page, and together they are all the bytes that count as used.
-/

namespace ScriptEngine.Space

variable {s t : Space} {memory memory' : Page.AddressSpace}

/-- Memory that somebody was given. -/
structure Portion where
  address : Nat
  bytes : Nat
deriving DecidableEq

def Portion.Apart (a b : Portion) : Prop :=
  a.address + a.bytes ≤ b.address ∨ b.address + b.bytes ≤ a.address

/-- What compiled code does with the cursor: it takes whole words if they are left in the page. -/
def bump? (s : Space) (size : Nat) : Option (Nat × Space) :=
  let top := Layout.wrap (s.cursor.top + Layout.align size)
  if s.cursor.limit < top then none else some (s.cursor.top, { s with cursor.top := top })

/-- A use of a space. With a request comes the state of the system, which says where the next page
would be mapped. -/
inductive Use where
  | request (memory : Page.AddressSpace) (size : Nat)
  | bump (size : Nat)

def Use.size : Use → Nat
  | request _ size | bump size => size

/-- Address of what a use got, and the space afterwards. -/
def use? (s : Space) : Use → Option (Nat × Space)
  | .request memory size =>
    match s.allocate memory size with
    | .ok (address, t, _) => some (address, t)
    | .error _ => none
  | .bump size => s.bump? size

/-- The space after some uses, the latest of which is listed first, and what they got. -/
def run (s : Space) : List Use → Space × List Portion
  | [] => (s, [])
  | u :: earlier =>
    let (t, got) := s.run earlier
    match t.use? u with
    | some (address, t) => (t, ⟨address, Layout.align u.size⟩ :: got)
    | none => (t, got)

/-- Whether a request makes the space ask the system for a page. -/
def needsPage (s : Space) (size : Nat) : Bool :=
  s.full size && (reusable? { s with pages := s.syncedPages } size).isNone

/-- The page that a space gets from the system starts at a multiple of the alignment and has no
address in common with the pages that are there. -/
def Grants (s : Space) (memory : Page.AddressSpace) (size : Nat) : Prop :=
  match Page.map memory (max s.pageSize (size + s.pageSlack)) with
  | .ok (page, _) => page.start % Page.alignment = 0 ∧
    ∀ p ∈ s.pages.toList, p.stop ≤ page.start ∨ page.stop ≤ p.start
  | .error _ => True

/-- No sum in a use exceeds a machine word, and the system behaves. -/
def Admits (s : Space) (u : Use) : Prop :=
  u.size + 7 < 2 ^ 64 ∧ s.cursor.top + Layout.align u.size < 2 ^ 64 ∧
    match u with
    | .request memory size => s.needsPage (Layout.align size) = true →
      Layout.align size + s.pageSlack < 2 ^ 64 ∧ s.Grants memory (Layout.align size)
    | .bump _ => True

/-- Every use of a run is admitted when its turn comes. -/
def AdmitsAll (s : Space) : List Use → Prop
  | [] => True
  | u :: earlier => s.AdmitsAll earlier ∧ (s.run earlier).1.Admits u

instance (s : Space) (memory : Page.AddressSpace) (size : Nat) : Decidable (s.Grants memory size) :=
  match h : Page.map memory (max s.pageSize (size + s.pageSlack)) with
  | .ok (page, _) => decidable_of_iff (page.start % Page.alignment = 0 ∧
      ∀ p ∈ s.pages.toList, p.stop ≤ page.start ∨ page.stop ≤ p.start) (by rw [Grants, h])
  | .error _ => isTrue (by rw [Grants, h]; trivial)

instance (s : Space) : DecidablePred s.Admits
  | .request _ _ => inferInstanceAs (Decidable (_ ∧ _ ∧ (_ → _)))
  | .bump _ => inferInstanceAs (Decidable (_ ∧ _ ∧ True))

instance decidableAdmitsAll (s : Space) : DecidablePred s.AdmitsAll
  | [] => isTrue trivial
  | _ :: earlier =>
    have := decidableAdmitsAll s earlier
    inferInstanceAs (Decidable (_ ∧ _))

/-- What is known of a space and of the portions that it handed out. -/
structure HandsOut (s : Space) (got : List Portion) : Prop where
  aligned : ∀ b ∈ got, b.address % 8 = 0
  /-- Only compiled code that asks for nothing before there is any page gets no place in a page. -/
  inside : ∀ b ∈ got, b = ⟨0, 0⟩ ∨
    ∃ p ∈ s.pages.toList, p.start ≤ b.address ∧ b.address + b.bytes ≤ p.stop
  apart : got.Pairwise Portion.Apart
  tops : ∀ p ∈ s.pages.toList ++ s.syncedPages.toList, p.start ≤ p.top ∧ p.top ≤ p.stop
  total : s.allocatedBytes = (got.map (·.bytes)).sum

/-! ### Accounts -/

/-- A page whose tops are words between its ends. -/
structure Framed (p : Page) : Prop where
  start_le : p.start ≤ p.top
  top_le : p.top ≤ p.stop
  aligned : p.top % 8 = 0
  stop_lt : p.stop < 2 ^ 63

/-- The invariant of a run: portions lie below the tops of the pages, which are apart, and fill them
up to there. -/
structure Accounts (s : Space) (got : List Portion) : Prop where
  stale : ∀ {i : Nat} {p : Page}, s.pages[i]? = some p → p.start ≤ p.top ∧ p.top ≤ p.stop
  framed : ∀ {i : Nat} {p : Page}, s.syncedPages[i]? = some p → Framed p
  pagesApart : ∀ {i j : Nat} {p q : Page}, s.syncedPages[i]? = some p →
    s.syncedPages[j]? = some q → i ≠ j → p.stop ≤ q.start ∨ q.stop ≤ p.start
  current : ∀ {i : Nat}, s.current = some i →
    ∃ p : Page, s.syncedPages[i]? = some p ∧ s.cursor = ⟨p.top, p.stop⟩
  idle : s.current = none → s.pages = #[] ∧ s.cursor = {}
  aligned : ∀ b ∈ got, b.address % 8 = 0
  inside : ∀ b ∈ got, b = ⟨0, 0⟩ ∨
    ∃ (i : Nat) (p : Page), s.syncedPages[i]? = some p ∧ p.start ≤ b.address ∧
      b.address + b.bytes ≤ p.top
  apart : got.Pairwise Portion.Apart
  total : (s.syncedPages.toList.map fun p => p.top - p.start).sum = (got.map (·.bytes)).sum

/-- Pages that are apart have no more bytes together than there are addresses. -/
theorem sum_sizes_le (l : List Page) {bound : Nat}
    (apart : l.Pairwise fun p q => p.stop ≤ q.start ∨ q.stop ≤ p.start)
    (below : ∀ p ∈ l, p.stop ≤ bound) : (l.map (·.size)).sum ≤ bound := by
  -- The sizes count the addresses of the pages, which are different ones.
  have key : ∃ addresses : Finset Nat, addresses.card = (l.map (·.size)).sum ∧
      ∀ x, x ∈ addresses ↔ ∃ p ∈ l, p.start ≤ x ∧ x < p.stop := by
    induction l with
    | nil => exact ⟨∅, by simp⟩
    | cons p l ih =>
      obtain ⟨apart, rest⟩ := List.pairwise_cons.mp apart
      obtain ⟨addresses, hcard, hmem⟩ := ih rest fun q hq => below q (List.mem_cons_of_mem _ hq)
      have hdisjoint : Disjoint (Finset.Ico p.start p.stop) addresses := by
        rw [Finset.disjoint_left]
        intro x hx hin
        rw [Finset.mem_Ico] at hx
        obtain ⟨q, hq, hlow, hhigh⟩ := (hmem x).mp hin
        rcases apart q hq with h | h <;> omega
      refine ⟨Finset.Ico p.start p.stop ∪ addresses, ?_, ?_⟩
      · rw [Finset.card_union_of_disjoint hdisjoint, hcard, Nat.card_Ico]
        simp [Page.stop]
      · intro x
        simp [hmem]
  obtain ⟨addresses, hcard, hmem⟩ := key
  rw [← hcard, ← Finset.card_range bound]
  apply Finset.card_le_card
  intro x hx
  obtain ⟨p, hp, -, hhigh⟩ := (hmem x).mp hx
  exact Finset.mem_range.mpr (Nat.lt_of_lt_of_le hhigh (below p hp))

theorem allocatedBytes_eq (s : Space) :
    s.allocatedBytes = Layout.wrap (s.syncedPages.toList.map (·.used)).sum := by
  unfold allocatedBytes
  rw [← Array.foldl_toList, List.sum_eq_foldl, List.foldl_map]

/-- Writing the cursor back moves no page. -/
theorem page_of_synced {i : Nat} {p : Page} (hp : s.syncedPages[i]? = some p) :
    ∃ q ∈ s.pages.toList, q.start = p.start ∧ q.stop = p.stop := by
  rw [getElem?_syncedPages] at hp
  split at hp
  · obtain ⟨q, hq, rfl⟩ := Option.map_eq_some_iff.mp hp
    exact ⟨q, Array.mem_toList_iff.mpr (Array.mem_of_getElem? hq), rfl, rfl⟩
  · exact ⟨p, Array.mem_toList_iff.mpr (Array.mem_of_getElem? hp), rfl, rfl⟩

theorem Accounts.handsOut {got : List Portion} (h : s.Accounts got) : s.HandsOut got := by
  have hframed : ∀ p ∈ s.syncedPages.toList, Framed p := by
    intro p hp
    obtain ⟨i, hi⟩ := Array.getElem?_of_mem (Array.mem_toList_iff.mp hp)
    exact h.framed hi
  refine ⟨h.aligned, ?_, h.apart, ?_, ?_⟩
  · intro b hb
    rcases h.inside b hb with hnothing | ⟨i, p, hp, hlow, hhigh⟩
    · exact .inl hnothing
    · obtain ⟨q, hq, hstart, hstop⟩ := page_of_synced hp
      have htop := (h.framed hp).top_le
      exact .inr ⟨q, hq, by omega, by omega⟩
  · intro p hp
    rcases List.mem_append.mp hp with hp | hp
    · obtain ⟨i, hi⟩ := Array.getElem?_of_mem (Array.mem_toList_iff.mp hp)
      exact h.stale hi
    · exact ⟨(hframed p hp).start_le, (hframed p hp).top_le⟩
  · have hused : s.syncedPages.toList.map (·.used) =
        s.syncedPages.toList.map fun p => p.top - p.start := by
      apply List.map_congr_left
      intro p hp
      have htop := (hframed p hp).top_le
      have hstop := (hframed p hp).stop_lt
      exact Layout.distance_of_le (hframed p hp).start_le (by omega)
    have hbound : (s.syncedPages.toList.map fun p => p.top - p.start).sum ≤ 2 ^ 63 := by
      refine le_trans (List.sum_le_sum fun p hp => ?_) (sum_sizes_le s.syncedPages.toList ?_ ?_)
      · have htop := (hframed p hp).top_le
        unfold Page.stop at htop
        omega
      · rw [List.pairwise_iff_getElem]
        intro i j hi hj hij
        exact h.pagesApart (i := i) (j := j) (by simp) (by simp) (by omega)
      · exact fun p hp => (hframed p hp).stop_lt.le
    rw [allocatedBytes_eq, hused, h.total]
    rw [h.total] at hbound
    exact Layout.wrap_of_lt (by omega)

/-! ### Steps -/

/-- Moving to a page that is there changes no account. -/
theorem Accounts.select {got : List Portion} (h : s.Accounts got) {i : Nat} {p : Page}
    (hp : s.syncedPages[i]? = some p) :
    (({ s with pages := s.syncedPages } : Space).select i).Accounts got := by
  have hsync : (({ s with pages := s.syncedPages } : Space).select i).syncedPages = s.syncedPages :=
    syncedPages_select hp
  have hselect := select_eq (s := { s with pages := s.syncedPages }) hp
  refine ⟨?_, ?_, ?_, ?_, ?_, h.aligned, ?_, h.apart, ?_⟩
  · intro j q hq
    rw [hselect] at hq
    exact ⟨(h.framed hq).start_le, (h.framed hq).top_le⟩
  · rw [hsync]
    exact h.framed
  · rw [hsync]
    exact h.pagesApart
  · intro j hj
    rw [hsync, hselect] at *
    cases hj
    exact ⟨p, hp, rfl⟩
  · intro hnone
    rw [hselect] at hnone
    cases hnone
  · rw [hsync]
    exact h.inside
  · rw [hsync]
    exact h.total

/-- A page that is new has nothing in it. -/
theorem Accounts.push {got : List Portion} (h : s.Accounts got) {page : Page} (framed : Framed page)
    (empty : page.top = page.start)
    (apart : ∀ p ∈ s.pages.toList, p.stop ≤ page.start ∨ page.stop ≤ p.start) :
    (({ s with pages := s.syncedPages.push page } : Space).select
      s.syncedPages.size).Accounts got := by
  have hlast : (s.syncedPages.push page)[s.syncedPages.size]? = some page := by simp
  have hsync : (({ s with pages := s.syncedPages.push page } : Space).select
      s.syncedPages.size).syncedPages = s.syncedPages.push page := syncedPages_select hlast
  have hselect := select_eq (s := { s with pages := s.syncedPages.push page }) hlast
  have hpages : ∀ {i : Nat} {p : Page}, (s.syncedPages.push page)[i]? = some p →
      s.syncedPages[i]? = some p ∨ i = s.syncedPages.size ∧ p = page := by
    intro i p hi
    rw [Array.getElem?_push] at hi
    split at hi
    · cases hi
      exact .inr ⟨‹_›, rfl⟩
    · exact .inl hi
  have hframed : ∀ {i : Nat} {p : Page}, (s.syncedPages.push page)[i]? = some p → Framed p := by
    intro i p hi
    rcases hpages hi with hold | ⟨-, rfl⟩
    · exact h.framed hold
    · exact framed
  have hold : ∀ {i : Nat} {p : Page}, s.syncedPages[i]? = some p →
      p.stop ≤ page.start ∨ page.stop ≤ p.start := by
    intro i p hi
    rw [getElem?_syncedPages] at hi
    split at hi
    · obtain ⟨q, hq, rfl⟩ := Option.map_eq_some_iff.mp hi
      exact apart q (Array.mem_toList_iff.mpr (Array.mem_of_getElem? hq))
    · exact apart p (Array.mem_toList_iff.mpr (Array.mem_of_getElem? hi))
  refine ⟨?_, ?_, ?_, ?_, ?_, h.aligned, ?_, h.apart, ?_⟩
  · intro j q hq
    rw [hselect] at hq
    exact ⟨(hframed hq).start_le, (hframed hq).top_le⟩
  · rw [hsync]
    exact hframed
  · rw [hsync]
    intro i j p q hi hj hne
    rcases hpages hi with hi | ⟨hi, hpage⟩ <;> rcases hpages hj with hj | ⟨hj, hpage'⟩
    · exact h.pagesApart hi hj hne
    · rw [hpage']
      exact hold hi
    · rw [hpage]
      exact (hold hj).symm
    · exact absurd (hi.trans hj.symm) hne
  · intro j hj
    rw [hsync, hselect] at *
    cases hj
    exact ⟨page, hlast, rfl⟩
  · intro hnone
    rw [hselect] at hnone
    cases hnone
  · rw [hsync]
    intro b hb
    rcases h.inside b hb with hnothing | ⟨i, p, hp, hin⟩
    · exact .inl hnothing
    · refine .inr ⟨i, p, ?_, hin⟩
      have hlt := (Array.getElem?_eq_some_iff.mp hp).1
      rw [Array.getElem?_push, if_neg (by omega), hp]
  · rw [hsync, Array.toList_push, List.map_append, List.sum_append, h.total]
    simp [empty]

/-- Without a page, only a request for nothing gets through, and it changes nothing. -/
theorem Accounts.bump_idle {got : List Portion} (h : s.Accounts got) (hcurrent : s.current = none)
    {bytes : Nat} (room : s.cursor.top + bytes ≤ s.cursor.limit) :
    ({ s with cursor.top := s.cursor.top + bytes } : Space).Accounts
      (⟨s.cursor.top, bytes⟩ :: got) := by
  obtain ⟨-, hcursor⟩ := h.idle hcurrent
  have htop : s.cursor.top = 0 := by rw [hcursor]
  have hlimit : s.cursor.limit = 0 := by rw [hcursor]
  obtain rfl : bytes = 0 := by omega
  have hsame : ({ s with cursor.top := s.cursor.top + 0 } : Space) = s := rfl
  rw [hsame, htop]
  refine { h with aligned := ?_, inside := ?_, apart := ?_, total := ?_ }
  · exact List.forall_mem_cons.mpr ⟨rfl, h.aligned⟩
  · exact List.forall_mem_cons.mpr ⟨.inl rfl, h.inside⟩
  · exact List.pairwise_cons.mpr ⟨fun b _ => .inl (Nat.zero_le _), h.apart⟩
  · simpa using h.total

/-- A list of pages of which one has more bytes in use. -/
theorem sum_used_set {pages : List Page} {i : Nat} {p : Page} (hp : pages[i]? = some p)
    (start_le : p.start ≤ p.top) (bytes : Nat) :
    ((pages.set i { p with top := p.top + bytes }).map fun p => p.top - p.start).sum =
      bytes + (pages.map fun p => p.top - p.start).sum := by
  induction pages generalizing i with
  | nil => cases hp
  | cons q rest ih =>
    cases i with
    | zero =>
      cases hp
      simp only [List.set_cons_zero, List.map_cons, List.sum_cons]
      omega
    | succ i =>
      have hrest := ih (i := i) (by simpa using hp)
      simp only [List.set_cons_succ, List.map_cons, List.sum_cons, hrest]
      omega

/-- In a page, the words that the cursor passes are new: what was handed out before lies below the
old top, or in another page. -/
theorem Accounts.bump_current {got : List Portion} (h : s.Accounts got) {i : Nat}
    (hcurrent : s.current = some i) {bytes : Nat} (whole : bytes % 8 = 0)
    (room : s.cursor.top + bytes ≤ s.cursor.limit) :
    ({ s with cursor.top := s.cursor.top + bytes } : Space).Accounts
      (⟨s.cursor.top, bytes⟩ :: got) := by
  obtain ⟨p, hp, hcursor⟩ := h.current hcurrent
  have hpage := h.framed hp
  have hstart := hpage.start_le
  have haligned := hpage.aligned
  have hlimit : s.cursor.limit = p.stop := by rw [hcursor]
  rw [show s.cursor.top = p.top by rw [hcursor]] at room ⊢
  rw [hlimit] at room
  have hbump := getElem?_syncedPages_bump hcurrent hp (p.top + bytes)
  have hpages : ∀ {j : Nat} {q : Page},
      ({ s with cursor.top := p.top + bytes } : Space).syncedPages[j]? = some q →
      (i = j ∧ q = { p with top := p.top + bytes }) ∨ (i ≠ j ∧ s.syncedPages[j]? = some q) := by
    intro j q hq
    rw [hbump] at hq
    split at hq
    · cases hq
      exact .inl ⟨‹_›, rfl⟩
    · exact .inr ⟨‹_›, hq⟩
  refine ⟨h.stale, ?_, ?_, ?_, ?_, ?_, ?_, ?_, ?_⟩
  · intro j q hq
    rcases hpages hq with ⟨-, rfl⟩ | ⟨-, hold⟩
    · exact ⟨by simp only; omega, room, by simp only; omega, hpage.stop_lt⟩
    · exact h.framed hold
  · intro j k q r hq hr hne
    rcases hpages hq with ⟨rfl, rfl⟩ | ⟨-, hq⟩ <;> rcases hpages hr with ⟨rfl, rfl⟩ | ⟨-, hr⟩
    · exact absurd rfl hne
    · exact h.pagesApart (p := p) hp hr hne
    · exact h.pagesApart (q := p) hq hp hne
    · exact h.pagesApart hq hr hne
  · intro j hj
    have hij : i = j := Option.some.inj (hcurrent.symm.trans hj)
    refine ⟨{ p with top := p.top + bytes }, by rw [hbump, if_pos hij], ?_⟩
    simp only [hlimit]
    rfl
  · intro hnone
    cases hcurrent.symm.trans hnone
  · exact List.forall_mem_cons.mpr ⟨haligned, h.aligned⟩
  · refine List.forall_mem_cons.mpr ⟨.inr ⟨i, { p with top := p.top + bytes }, ?_, hstart, le_rfl⟩,
      fun b hb => ?_⟩
    · rw [hbump, if_pos rfl]
    · rcases h.inside b hb with hnothing | ⟨j, q, hq, hlow, hhigh⟩
      · exact .inl hnothing
      · by_cases hij : i = j
        · subst hij
          obtain rfl := Option.some.inj (hp.symm.trans hq)
          exact .inr ⟨i, { p with top := p.top + bytes }, by rw [hbump, if_pos rfl], hlow,
            by simp only; omega⟩
        · exact .inr ⟨j, q, by rw [hbump, if_neg hij, hq], hlow, hhigh⟩
  · refine List.pairwise_cons.mpr ⟨fun b hb => ?_, h.apart⟩
    rcases h.inside b hb with rfl | ⟨j, q, hq, hlow, hhigh⟩
    · exact .inr (Nat.zero_le _)
    · by_cases hij : i = j
      · subst hij
        obtain rfl := Option.some.inj (hp.symm.trans hq)
        exact .inr hhigh
      · have hstop := (h.framed hq).top_le
        rcases h.pagesApart hp hq hij with hbelow | habove
        · exact .inl (by simp only; omega)
        · exact .inr (by simp only; omega)
  · have hset : ({ s with cursor.top := p.top + bytes } : Space).syncedPages.toList =
        s.syncedPages.toList.set i { p with top := p.top + bytes } := by
      apply List.ext_getElem?
      intro j
      rw [Array.getElem?_toList, hbump, List.getElem?_set, Array.getElem?_toList]
      have hlt := (Array.getElem?_eq_some_iff.mp hp).1
      by_cases hij : i = j
      · subst hij
        simp [hlt]
      · simp [hij]
    rw [hset, sum_used_set (by rw [Array.getElem?_toList]; exact hp) hstart, h.total, List.map_cons,
      List.sum_cons]

/-- Moving the cursor within its limit hands out the words that it passes. -/
theorem Accounts.bump {got : List Portion} (h : s.Accounts got) {bytes : Nat}
    (whole : bytes % 8 = 0) (room : s.cursor.top + bytes ≤ s.cursor.limit) :
    ({ s with cursor.top := s.cursor.top + bytes } : Space).Accounts
      (⟨s.cursor.top, bytes⟩ :: got) := by
  rcases Option.eq_none_or_eq_some s.current with hnone | ⟨i, hsome⟩
  · exact h.bump_idle hnone room
  · exact h.bump_current hsome whole room

/-- The cursor never goes past the end of a page that was mapped. -/
theorem Accounts.limit_lt {got : List Portion} (h : s.Accounts got) : s.cursor.limit < 2 ^ 63 := by
  rcases Option.eq_none_or_eq_some s.current with hnone | ⟨i, hsome⟩
  · rw [(h.idle hnone).2]
    decide
  · obtain ⟨p, hp, hcursor⟩ := h.current hsome
    rw [hcursor]
    exact (h.framed hp).stop_lt

theorem map_start {space space' : Page.AddressSpace} {size : Nat} {p : Page}
    (h : Page.map space size = .ok (p, space')) : p.start = space.next := by
  unfold Page.map at h
  simp only at h
  split at h
  · cases h
  · split at h
    · cases h
    · cases h
      rfl

/-- After a switch the accounts are the same, and there is room. -/
theorem Accounts.switchPage {got : List Portion} (h : s.Accounts got) {size : Nat}
    (grants : (reusable? { s with pages := s.syncedPages } size).isNone = true →
      size + s.pageSlack < 2 ^ 64 ∧ s.Grants memory size)
    (ht : s.switchPage memory size = .ok (t, memory')) :
    t.Accounts got ∧ t.cursor.top + size ≤ t.cursor.limit := by
  unfold Space.switchPage at ht
  simp only at ht
  split at ht
  · rename_i i hi
    cases ht
    have hfound := List.find?_some hi
    simp only [Bool.and_eq_true, Option.any_eq_true, decide_eq_true_eq] at hfound
    obtain ⟨-, p, hp, hroom⟩ := hfound
    have hstop := (h.framed hp).stop_lt
    have htop := (h.framed hp).top_le
    have hremaining : p.remaining = p.stop - p.top := Layout.distance_of_le htop (by omega)
    refine ⟨h.select hp, ?_⟩
    rw [select_eq (s := { s with pages := s.syncedPages }) hp]
    simp only
    omega
  · rename_i hi
    obtain ⟨hslack, hgrants⟩ := grants (by rw [hi]; rfl)
    rw [Layout.wrap_of_lt hslack] at ht
    unfold Grants at hgrants
    cases hmap : Page.map memory (max s.pageSize (size + s.pageSlack)) with
    | error e => simp [hmap, bind, Except.bind] at ht
    | ok mapped =>
      obtain ⟨page, memory₂⟩ := mapped
      simp only [hmap, bind, Except.bind, pure, Except.pure, Except.ok.injEq, Prod.mk.injEq] at ht
      obtain ⟨rfl, rfl⟩ := ht
      rw [hmap] at hgrants
      obtain ⟨haligned, hapart⟩ := hgrants
      have hstart := map_start hmap
      unfold Page.alignment at haligned
      obtain ⟨-, htop, hsize, hpage, -, -⟩ := Page.map_ok (by omega) hmap
      have hlt := hpage.stop_lt
      unfold Page.alignment at hlt
      have hframed : Framed page := ⟨hpage.start_le, hpage.top_le, hpage.aligned, by omega⟩
      have hlast : (s.syncedPages.push page)[s.syncedPages.size]? = some page := by simp
      simp only [Array.size_push, Nat.add_sub_cancel]
      refine ⟨h.push hframed (by omega) hapart, ?_⟩
      rw [select_eq (s := { s with pages := s.syncedPages.push page }) hlast]
      have hmax := le_max_right s.pageSize (size + s.pageSlack)
      simp only [Page.stop]
      omega

/-- Whatever a use gets is accounted for. -/
theorem Accounts.use {got : List Portion} (h : s.Accounts got) {u : Use} (admits : s.Admits u)
    {address : Nat} (ht : s.use? u = some (address, t)) :
    t.Accounts (⟨address, Layout.align u.size⟩ :: got) := by
  obtain ⟨hsize, hsum, hsystem⟩ := admits
  have hwhole : Layout.align u.size % 8 = 0 := by
    unfold Layout.align
    omega
  cases u with
  | bump size =>
    simp only [Use.size] at hsum hwhole
    simp only [use?, bump?] at ht
    rw [Layout.wrap_of_lt hsum] at ht
    simp only [Option.ite_none_left_eq_some, Option.some.injEq, Prod.mk.injEq] at ht
    obtain ⟨hroom, rfl, rfl⟩ := ht
    exact h.bump hwhole (Nat.not_lt.mp hroom)
  | request memory size =>
    simp only [Use.size] at hsum hwhole
    -- Once there is room in the current page, the request moves the cursor as compiled code does.
    have htake : ∀ {r : Space}, r.Accounts got →
        r.cursor.top + Layout.align size ≤ r.cursor.limit →
        ({ r with cursor.top := Layout.wrap (r.cursor.top + Layout.align size) } : Space).Accounts
          (⟨r.cursor.top, Layout.align size⟩ :: got) := by
      intro r hr hroom
      have hlimit := hr.limit_lt
      rw [Layout.wrap_of_lt (by omega)]
      exact hr.bump hwhole hroom
    unfold use? at ht
    cases hallocate : s.allocate memory size with
    | error e => simp [hallocate] at ht
    | ok answer =>
      obtain ⟨address', t', memory'⟩ := answer
      simp only [hallocate, Option.some.injEq, Prod.mk.injEq] at ht
      obtain ⟨rfl, rfl⟩ := ht
      unfold allocate at hallocate
      simp only [bind, Except.bind, pure, Except.pure] at hallocate
      split at hallocate
      · rename_i hfull
        cases hswitch : s.switchPage memory (Layout.align size) with
        | error e => simp [hswitch] at hallocate
        | ok opened =>
          simp only [hswitch, Except.ok.injEq, Prod.mk.injEq] at hallocate
          obtain ⟨rfl, rfl, rfl⟩ := hallocate
          have hgrants := fun hnone => hsystem (Bool.and_eq_true_iff.mpr ⟨hfull, hnone⟩)
          obtain ⟨hopened, hroom⟩ := h.switchPage hgrants hswitch
          exact htake hopened hroom
      · rename_i hfull
        simp only [Except.ok.injEq, Prod.mk.injEq] at hallocate
        obtain ⟨rfl, rfl, rfl⟩ := hallocate
        refine htake h ?_
        simp only [full, Layout.wrap_of_lt hsum, Bool.or_eq_true, decide_eq_true_eq,
          not_or] at hfull
        exact Nat.not_lt.mp hfull.2

theorem accounts_start (name : String) (pageSize pageSlack : Nat) :
    ({ name, pageSize, pageSlack } : Space).Accounts [] where
  stale hp := by simp at hp
  framed hp := by simp [syncedPages] at hp
  pagesApart hp := by simp [syncedPages] at hp
  current hi := by cases hi
  idle _ := ⟨rfl, rfl⟩
  aligned := by simp
  inside := by simp
  apart := .nil
  total := rfl

theorem Accounts.run (start : s.Accounts []) (uses : List Use) (admits : s.AdmitsAll uses) :
    (s.run uses).1.Accounts (s.run uses).2 := by
  induction uses with
  | nil => exact start
  | cons u earlier ih =>
    obtain ⟨hearlier, hlast⟩ := admits
    have hrun := ih hearlier
    unfold Space.run
    cases huse : (s.run earlier).1.use? u with
    | none => simpa [huse] using hrun
    | some taken =>
      obtain ⟨address, t⟩ := taken
      simpa [huse] using hrun.use hlast huse

/-- Whatever a space of any page size is used for, in any order, by the host and by compiled code,
it hands out whole words inside its pages, never the same ones twice, and counts them all. -/
theorem run_handsOut (name : String) (pageSize pageSlack : Nat) (uses : List Use)
    (admits : ({ name, pageSize, pageSlack } : Space).AdmitsAll uses) :
    (({ name, pageSize, pageSlack } : Space).run uses).1.HandsOut
      (({ name, pageSize, pageSlack } : Space).run uses).2 :=
  ((accounts_start name pageSize pageSlack).run uses admits).handsOut

/-- A page is filled by the host and by compiled code, left for a large request, and entered again;
the second page is mapped below the first. -/
def twoPageUses : List Use :=
  [.bump 9, .request {} 200, .bump 100, .request { next := 2 ^ 20 } 5000, .bump 24,
    .request {} 1000]

theorem run_handsOut_twoPageUses :
    let s : Space := { name := "young", pageSize := 4096, pageSlack := 64 }
    s.AdmitsAll twoPageUses ∧ (s.run twoPageUses).1.HandsOut (s.run twoPageUses).2 ∧
      (s.run twoPageUses).1.current = some 0 ∧ (s.run twoPageUses).2 =
        [⟨2 ^ 46 + 1224, 16⟩, ⟨2 ^ 46 + 1024, 200⟩, ⟨2 ^ 20, 5000⟩, ⟨2 ^ 46 + 1000, 24⟩,
          ⟨2 ^ 46, 1000⟩] :=
  have admits : ({ name := "young", pageSize := 4096, pageSlack := 64 } : Space).AdmitsAll
      twoPageUses := by decide +kernel
  ⟨admits, run_handsOut _ _ _ _ admits, by decide +kernel, by decide +kernel⟩

end ScriptEngine.Space
