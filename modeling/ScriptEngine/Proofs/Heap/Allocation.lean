import Mathlib.Data.Nat.Basic
import ScriptEngine.Space

/-!
What the spaces hand out. A space owns the addresses of its pages; those from the top of a page on
are free. An allocation takes free or unmapped addresses, and what it took is free no more.
-/

namespace ScriptEngine

/-- A page whose top is a word inside it, and which ends below `next`. -/
structure Page.Sound (p : Page) (next : Nat) : Prop where
  start_le : p.start ≤ p.top
  top_le : p.top ≤ p.stop
  aligned : p.top % 8 = 0
  stop_le : p.stop ≤ next
  stop_lt : p.stop + alignment ≤ 2 ^ 63
  size_lt : p.size < Page.refusedSize

namespace Page

theorem Sound.mono {p : Page} {next next' : Nat} (h : p.Sound next) (le : next ≤ next') :
    p.Sound next' :=
  { h with stop_le := Nat.le_trans h.stop_le le }

theorem Sound.remaining_eq {p : Page} {next : Nat} (h : p.Sound next) :
    p.remaining = p.stop - p.top := by
  have hlt := h.stop_lt
  unfold alignment at hlt
  exact Layout.distance_of_le h.top_le (by omega)

/-- What is known of a page that was just mapped. -/
theorem map_ok {space space' : AddressSpace} {size : Nat} {p : Page}
    (aligned : space.next % 8 = 0) (h : map space size = .ok (p, space')) :
    p.start = space.next ∧ p.top = space.next ∧ size ≤ p.size ∧ p.Sound space'.next ∧
      space.next ≤ space'.next ∧ space'.next % 8 = 0 := by
  unfold map at h
  simp only at h
  split at h
  · cases h
  · split at h
    · cases h
    · rename_i hfit hgranted
      simp only [Except.ok.injEq, Prod.mk.injEq] at h
      obtain ⟨rfl, rfl⟩ := h
      have hsmall : max size alignment < refusedSize := by
        by_contra hbig
        exact hgranted (.inl (Nat.not_lt.mp hbig))
      have hstop : (space.next + max size alignment + alignment - 1) / alignment * alignment
          < 2 ^ 63 := by
        by_contra hbig
        exact hgranted (.inr (.inl (Nat.not_lt.mp hbig)))
      unfold alignment at *
      refine ⟨rfl, rfl, le_max_left _ _, ⟨le_rfl, ?_, aligned, ?_, ?_, hsmall⟩, ?_, ?_⟩
      · exact Nat.le_add_right _ _
      all_goals simp only [stop, alignment] at *; omega

end Page

namespace Space

variable {s s' : Space} {memory memory' : Page.AddressSpace} {next : Nat}

/-- Addresses inside the pages of a space. -/
def Owns (s : Space) (x : Nat) : Prop :=
  ∃ (i : Nat) (p : Page), s.syncedPages[i]? = some p ∧ p.start ≤ x ∧ x < p.stop

/-- Addresses of a space that nobody was given. -/
def Free (s : Space) (x : Nat) : Prop :=
  ∃ (i : Nat) (p : Page), s.syncedPages[i]? = some p ∧ p.top ≤ x ∧ x < p.stop

/-- The pages of a space lie apart from each other, and the cursor is in the current one. -/
structure Sound (s : Space) (next : Nat) : Prop where
  slack : s.pageSlack ≤ 2 ^ 62
  pages : ∀ {i : Nat} {p : Page}, s.syncedPages[i]? = some p → p.Sound next
  apart : ∀ {i j : Nat} {p q : Page}, s.syncedPages[i]? = some p → s.syncedPages[j]? = some q →
    i ≠ j → p.stop ≤ q.start ∨ q.stop ≤ p.start
  current : ∀ {i : Nat}, s.current = some i →
    ∃ p : Page, s.syncedPages[i]? = some p ∧ s.cursor = ⟨p.top, p.stop⟩
  idle : s.current = none → s.cursor = {}

theorem Sound.mono (h : s.Sound next) {next' : Nat} (le : next ≤ next') : s.Sound next' :=
  { h with pages := fun hp => (h.pages hp).mono le }

theorem Sound.owns_of_free (h : s.Sound next) {x : Nat} (free : s.Free x) : s.Owns x := by
  obtain ⟨i, p, hp, hlow, hhigh⟩ := free
  exact ⟨i, p, hp, Nat.le_trans (h.pages hp).start_le hlow, hhigh⟩

theorem Sound.lt_of_owns (h : s.Sound next) {x : Nat} (owns : s.Owns x) : x < next := by
  obtain ⟨i, p, hp, -, hhigh⟩ := owns
  exact Nat.lt_of_lt_of_le hhigh (h.pages hp).stop_le

theorem getElem?_syncedPages (s : Space) (i : Nat) :
    s.syncedPages[i]? =
      if s.current = some i then s.pages[i]?.map ({ · with top := s.cursor.top })
      else s.pages[i]? := by
  unfold syncedPages
  cases s.current with
  | none => simp
  | some j =>
    simp only [Array.getElem?_modify, Option.some.injEq]

/-- Writing the cursor back changes no page. -/
theorem syncedPages_sync (s : Space) :
    ({ s with pages := s.syncedPages } : Space).syncedPages = s.syncedPages := by
  apply Array.ext_getElem?
  intro i
  rw [getElem?_syncedPages]
  simp only [getElem?_syncedPages s]
  split
  · rw [Option.map_map]
    rfl
  · rfl

theorem syncedPages_select {i : Nat} {p : Page} (h : s.pages[i]? = some p) :
    (s.select i).syncedPages = s.pages := by
  apply Array.ext_getElem?
  intro j
  rw [getElem?_syncedPages]
  unfold select
  rw [h]
  simp only [Option.some.injEq]
  split
  · subst j
    rw [h]
    rfl
  · rfl

/-- A page with room is current, and nothing became free but what lies beyond `next`. -/
structure Opened (s s' : Space) (next next' size : Nat) : Prop where
  sound : s'.Sound next'
  le : next ≤ next'
  aligned : next' % 8 = 0
  room : ∃ (i : Nat) (p : Page), s'.current = some i ∧ s'.syncedPages[i]? = some p ∧
    s'.cursor = ⟨p.top, p.stop⟩ ∧ p.top + size ≤ p.stop
  free : ∀ x, s'.Free x → s.Free x ∨ next ≤ x
  owns : ∀ x, s'.Owns x → s.Owns x ∨ next ≤ x

theorem opened_of_not_full (sound : s.Sound next) (aligned : next % 8 = 0) {size : Nat}
    (small : size < 2 ^ 63 + 4096) (h : ¬s.full size) : s.Opened s next next size := by
  refine ⟨sound, le_rfl, aligned, ?_, fun x hx => .inl hx, fun x hx => .inl hx⟩
  simp only [full, Bool.or_eq_true, Option.isNone_iff_eq_none, decide_eq_true_eq, not_or] at h
  obtain ⟨i, hi⟩ := Option.ne_none_iff_exists'.mp h.1
  obtain ⟨p, hp, hcursor⟩ := sound.current hi
  have hpage := sound.pages hp
  have htop := hpage.top_le
  have hstop := hpage.stop_lt
  unfold Page.alignment at hstop
  refine ⟨i, p, hi, hp, hcursor, ?_⟩
  have hroom := h.2
  rw [hcursor, Layout.wrap_of_lt (by simp only; omega)] at hroom
  exact Nat.not_lt.mp hroom

theorem select_eq {i : Nat} {p : Page} (h : s.pages[i]? = some p) :
    s.select i = { s with current := some i, cursor := ⟨p.top, p.stop⟩ } := by
  unfold select
  rw [h]

/-- Pages that are all known from before, or lie beyond `next`, of which one has room. -/
theorem opened_select {t : Space} {next' size i : Nat} {p : Page} (slack : t.pageSlack ≤ 2 ^ 62)
    (pages : ∀ {i : Nat} {p : Page}, t.pages[i]? = some p → p.Sound next')
    (apart : ∀ {i j : Nat} {p q : Page}, t.pages[i]? = some p → t.pages[j]? = some q → i ≠ j →
      p.stop ≤ q.start ∨ q.stop ≤ p.start)
    (old : ∀ {i : Nat} {p : Page}, t.pages[i]? = some p →
      s.syncedPages[i]? = some p ∨ next ≤ p.start)
    (le : next ≤ next') (aligned : next' % 8 = 0) (hp : t.pages[i]? = some p)
    (room : p.top + size ≤ p.stop) : s.Opened (t.select i) next next' size := by
  have hsync := syncedPages_select hp
  have hselect := select_eq hp
  have hcurrent : (t.select i).current = some i := by rw [hselect]
  have hcursor : (t.select i).cursor = ⟨p.top, p.stop⟩ := by rw [hselect]
  have hfound : (t.select i).syncedPages[i]? = some p := by rw [hsync, hp]
  refine ⟨⟨?_, ?_, ?_, ?_, ?_⟩, le, aligned, ⟨i, p, hcurrent, hfound, hcursor, room⟩, ?_, ?_⟩
  · rw [hselect]
    exact slack
  · rw [hsync]
    exact pages
  · rw [hsync]
    exact apart
  · intro j hj
    rw [hcurrent] at hj
    cases hj
    exact ⟨p, hfound, hcursor⟩
  · intro hnone
    rw [hcurrent] at hnone
    cases hnone
  · rintro x ⟨j, q, hq, hlow, hhigh⟩
    rw [hsync] at hq
    rcases old hq with hknown | hnew
    · exact .inl ⟨j, q, hknown, hlow, hhigh⟩
    · have hstart := (pages hq).start_le
      exact .inr (by omega)
  · rintro x ⟨j, q, hq, hlow, hhigh⟩
    rw [hsync] at hq
    rcases old hq with hknown | hnew
    · exact .inl ⟨j, q, hknown, hlow, hhigh⟩
    · exact .inr (by omega)

theorem opened_of_switchPage (sound : s.Sound memory.next) (aligned : memory.next % 8 = 0)
    {size : Nat} (small : size < 2 ^ 63 + 4096)
    (h : s.switchPage memory size = .ok (s', memory')) :
    s.Opened s' memory.next memory'.next size := by
  unfold switchPage at h
  simp only at h
  split at h
  · rename_i i hi
    simp only [Except.ok.injEq, Prod.mk.injEq] at h
    obtain ⟨rfl, rfl⟩ := h
    have hfound := List.find?_some hi
    simp only [Bool.and_eq_true, Option.any_eq_true, decide_eq_true_eq] at hfound
    obtain ⟨-, p, hp, hroom⟩ := hfound
    have hpage := sound.pages hp
    have htop := hpage.top_le
    rw [hpage.remaining_eq] at hroom
    exact opened_select sound.slack sound.pages sound.apart .inl le_rfl aligned hp (by omega)
  · cases hmap : Page.map memory (max s.pageSize (Layout.wrap (size + s.pageSlack))) with
    | error e => simp [hmap, bind, Except.bind] at h
    | ok mapped =>
      obtain ⟨page, memory₂⟩ := mapped
      simp only [hmap, bind, Except.bind, pure, Except.pure, Except.ok.injEq, Prod.mk.injEq] at h
      obtain ⟨rfl, rfl⟩ := h
      obtain ⟨hstart, htop, hsize, hpage, hle, haligned⟩ := Page.map_ok aligned hmap
      have hslack := sound.slack
      rw [Layout.wrap_of_lt (by omega)] at hsize
      have hmax := le_max_right s.pageSize (size + s.pageSlack)
      have hpages : ∀ {i : Nat} {p : Page}, (s.syncedPages.push page)[i]? = some p →
          s.syncedPages[i]? = some p ∨ i = s.syncedPages.size ∧ p = page := by
        intro i p hi
        rw [Array.getElem?_push] at hi
        split at hi
        · cases hi
          exact .inr ⟨‹_›, rfl⟩
        · exact .inl hi
      have hlast : (s.syncedPages.push page)[s.syncedPages.size + 1 - 1]? = some page := by
        simp
      simp only [Array.size_push]
      refine opened_select ?_ ?_ ?_ ?_ hle haligned hlast ?_
      · exact hslack
      · intro i p hi
        rcases hpages hi with hold | ⟨-, rfl⟩
        · exact (sound.pages hold).mono hle
        · exact hpage
      · intro i j p q hi hj hne
        rcases hpages hi with holdp | ⟨rfl, rfl⟩ <;> rcases hpages hj with holdq | ⟨rfl, rfl⟩
        · exact sound.apart holdp holdq hne
        · have hbelow := (sound.pages holdp).stop_le
          exact .inl (by omega)
        · have hbelow := (sound.pages holdq).stop_le
          exact .inr (by omega)
        · exact absurd rfl hne
      · intro i p hi
        rcases hpages hi with hold | ⟨-, rfl⟩
        · exact .inl hold
        · exact .inr (Nat.le_of_eq hstart.symm)
      · unfold Page.stop
        omega

theorem getElem?_syncedPages_bump {i : Nat} {p : Page} (current : s.current = some i)
    (hp : s.syncedPages[i]? = some p) (top j : Nat) :
    ({ s with cursor.top := top } : Space).syncedPages[j]? =
      if i = j then some { p with top := top } else s.syncedPages[j]? := by
  rw [getElem?_syncedPages, getElem?_syncedPages s j]
  rw [getElem?_syncedPages, if_pos current] at hp
  simp only [current, Option.some.injEq]
  split
  · subst j
    obtain ⟨q, hq, rfl⟩ := Option.map_eq_some_iff.mp hp
    rw [hq]
    rfl
  · rfl

/-- What an allocation takes was free or not mapped, and is free no more. -/
structure Taken (s s' : Space) (next next' address size : Nat) : Prop where
  sound : s'.Sound next'
  le : next ≤ next'
  aligned : next' % 8 = 0
  address_aligned : address % 8 = 0
  size_lt : size < Page.refusedSize
  below : address + size ≤ next'
  small : address + size < 2 ^ 63
  fresh : ∀ x, address ≤ x → x < address + size → s.Free x ∨ next ≤ x
  free : ∀ x, s'.Free x → (s.Free x ∨ next ≤ x) ∧ ¬(address ≤ x ∧ x < address + size)
  owns : ∀ x, s'.Owns x → s.Owns x ∨ next ≤ x

theorem Opened.bump {next next' size : Nat} (h : s.Opened s' next next' size)
    (whole : size % 8 = 0) :
    s.Taken { s' with cursor.top := Layout.wrap (s'.cursor.top + size) } next next'
      s'.cursor.top size := by
  obtain ⟨i, p, hcurrent, hp, hcursor, hroom⟩ := h.room
  have hpage := h.sound.pages hp
  have haligned := hpage.aligned
  have hstop := hpage.stop_lt
  have hnext := hpage.stop_le
  have hsize := hpage.size_lt
  have hstart := hpage.start_le
  unfold Page.alignment at hstop
  unfold Page.refusedSize at hsize
  have htop : s'.cursor.top = p.top := by rw [hcursor]
  have hlimit : s'.cursor.limit = p.stop := by rw [hcursor]
  rw [htop, Layout.wrap_of_lt (by omega)]
  have hbump := getElem?_syncedPages_bump hcurrent hp (p.top + size)
  have hpages : ∀ {j : Nat} {q : Page},
      ({ s' with cursor.top := p.top + size } : Space).syncedPages[j]? = some q →
      (i = j ∧ q = { p with top := p.top + size }) ∨ (i ≠ j ∧ s'.syncedPages[j]? = some q) := by
    intro j q hq
    rw [hbump] at hq
    split at hq
    · cases hq
      exact .inl ⟨‹_›, rfl⟩
    · exact .inr ⟨‹_›, hq⟩
  have hfits : p.top + size ≤ ({ p with top := p.top + size } : Page).stop := hroom
  refine ⟨⟨h.sound.slack, ?_, ?_, ?_, ?_⟩, h.le, h.aligned, haligned, ?_, by omega, by omega, ?_, ?_, ?_⟩
  · intro j q hq
    rcases hpages hq with ⟨rfl, rfl⟩ | ⟨-, hold⟩
    · exact ⟨Nat.le_trans hstart (Nat.le_add_right _ _), hfits, by simp only; omega,
        hnext, hpage.stop_lt, hpage.size_lt⟩
    · exact h.sound.pages hold
  · intro j k q r hq hr hne
    rcases hpages hq with ⟨rfl, rfl⟩ | ⟨-, holdq⟩ <;> rcases hpages hr with ⟨rfl, rfl⟩ | ⟨-, holdr⟩
    · exact absurd rfl hne
    · have hapart := h.sound.apart hp holdr hne
      exact hapart
    · have hapart := h.sound.apart holdq hp hne
      exact hapart
    · exact h.sound.apart holdq holdr hne
  · intro j hj
    have hij : i = j := Option.some.inj (hcurrent.symm.trans hj)
    refine ⟨{ p with top := p.top + size }, ?_, ?_⟩
    · rw [hbump, if_pos hij]
    · simp only [hlimit]
      rfl
  · intro hnone
    rw [show s'.current = none from hnone] at hcurrent
    cases hcurrent
  · unfold Page.stop at hroom
    unfold Page.refusedSize
    omega
  · intro x hlow hhigh
    exact h.free x ⟨i, p, hp, hlow, by omega⟩
  · rintro x ⟨j, q, hq, hlow, hhigh⟩
    rcases hpages hq with ⟨rfl, rfl⟩ | ⟨hne, hold⟩
    · simp only at hlow
      exact ⟨h.free x ⟨i, p, hp, by omega, hhigh⟩, by omega⟩
    · have hstartq := (h.sound.pages hold).start_le
      have hapart := h.sound.apart hp hold hne
      exact ⟨h.free x ⟨j, q, hold, hlow, hhigh⟩, by omega⟩
  · rintro x ⟨j, q, hq, hlow, hhigh⟩
    rcases hpages hq with ⟨rfl, rfl⟩ | ⟨-, hold⟩
    · exact h.owns x ⟨i, p, hp, hlow, hhigh⟩
    · exact h.owns x ⟨j, q, hold, hlow, hhigh⟩

/-- An allocation takes the words of its size at the address that it answers. -/
theorem allocate_ok {size address : Nat} (sound : s.Sound memory.next)
    (aligned : memory.next % 8 = 0) (small : size < 2 ^ 63 + 32)
    (h : s.allocate memory size = .ok (address, s', memory')) :
    s.Taken s' memory.next memory'.next address (Layout.align size) := by
  have halign : Layout.align size = (size + 7) / 8 * 8 := by
    unfold Layout.align
    rw [Layout.wrap_of_lt (by omega)]
  unfold allocate at h
  simp only [bind, Except.bind, pure, Except.pure] at h
  split at h
  · cases hswitch : s.switchPage memory (Layout.align size) with
    | error e => simp [hswitch] at h
    | ok opened =>
      simp only [hswitch, Except.ok.injEq, Prod.mk.injEq] at h
      obtain ⟨rfl, rfl, rfl⟩ := h
      exact (opened_of_switchPage sound aligned (by omega) hswitch).bump (by omega)
  · rename_i hroom
    simp only [Except.ok.injEq, Prod.mk.injEq] at h
    obtain ⟨rfl, rfl, rfl⟩ := h
    exact (opened_of_not_full sound aligned (by omega) hroom).bump (by omega)

end Space

/-! ### Three spaces -/

/-- Spaces that share no address. -/
structure Separate (s t u : Space) (next : Nat) : Prop where
  first : s.Sound next
  second : t.Sound next
  third : u.Sound next
  aligned : next % 8 = 0
  apart : ∀ x, ¬(s.Owns x ∧ t.Owns x) ∧ ¬(t.Owns x ∧ u.Owns x) ∧ ¬(u.Owns x ∧ s.Owns x)

/-- Addresses that may still be handed out. -/
def Unused (s t u : Space) (next x : Nat) : Prop := s.Free x ∨ t.Free x ∨ u.Free x ∨ next ≤ x

namespace Separate

variable {s s' t u : Space} {next next' address size : Nat}

theorem rotate (h : Separate s t u next) : Separate t u s next :=
  ⟨h.second, h.third, h.first, h.aligned, fun x => ⟨(h.apart x).2.1, (h.apart x).2.2, (h.apart x).1⟩⟩

theorem unused_rotate {x : Nat} (h : Unused t u s next x) : Unused s t u next x := by
  rcases h with h | h | h | h
  · exact .inr (.inl h)
  · exact .inr (.inr (.inl h))
  · exact .inl h
  · exact .inr (.inr (.inr h))

theorem take (h : Separate s t u next) (taken : s.Taken s' next next' address size) :
    Separate s' t u next' := by
  refine ⟨taken.sound, h.second.mono taken.le, h.third.mono taken.le, taken.aligned, fun x => ?_⟩
  have hold := h.apart x
  have howns := taken.owns x
  have ht : t.Owns x → x < next := h.second.lt_of_owns
  have hu : u.Owns x → x < next := h.third.lt_of_owns
  refine ⟨fun hx => ?_, hold.2.1, fun hx => ?_⟩
  · have hlt := ht hx.2
    rcases howns hx.1 with hs | hs
    · exact hold.1 ⟨hs, hx.2⟩
    · omega
  · have hlt := hu hx.1
    rcases howns hx.2 with hs | hs
    · exact hold.2.2 ⟨hx.1, hs⟩
    · omega

theorem fresh (taken : s.Taken s' next next' address size) {x : Nat} (low : address ≤ x)
    (high : x < address + size) : Unused s t u next x := by
  rcases taken.fresh x low high with hx | hx
  · exact .inl hx
  · exact .inr (.inr (.inr hx))

/-- What was taken is unused no more, and nothing else came to be. -/
theorem unused (h : Separate s t u next) (taken : s.Taken s' next next' address size) {x : Nat}
    (hx : Unused s' t u next' x) :
    Unused s t u next x ∧ ¬(address ≤ x ∧ x < address + size) := by
  have hle := taken.le
  have hbelow := taken.below
  have hfresh : address ≤ x ∧ x < address + size → s.Owns x ∨ next ≤ x := fun hin =>
    (taken.fresh x hin.1 hin.2).imp_left h.first.owns_of_free
  rcases hx with hx | hx | hx | hx
  · obtain ⟨hold, hout⟩ := taken.free x hx
    exact ⟨hold.elim .inl (fun h => .inr (.inr (.inr h))), hout⟩
  · have howns := h.second.owns_of_free hx
    have hlt := h.second.lt_of_owns howns
    refine ⟨.inr (.inl hx), fun hin => ?_⟩
    rcases hfresh hin with hs | hs
    · exact (h.apart x).1 ⟨hs, howns⟩
    · omega
  · have howns := h.third.owns_of_free hx
    have hlt := h.third.lt_of_owns howns
    refine ⟨.inr (.inr (.inl hx)), fun hin => ?_⟩
    rcases hfresh hin with hs | hs
    · exact (h.apart x).2.2 ⟨howns, hs⟩
    · omega
  · exact ⟨.inr (.inr (.inr (by omega))), by omega⟩

end Separate
end ScriptEngine
