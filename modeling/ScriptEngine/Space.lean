import ScriptEngine.Layout
import ScriptEngine.Heap.Error

/-!
Spaces of bump-allocated pages. A space hands out memory from its current page by moving a
cursor; when a request does not fit, another page with room becomes current, or a new page is
mapped. Pages come from one address space, in which no two of them overlap or touch.
-/

namespace ScriptEngine

/-- A block of memory; `top` is the first free address in it. -/
structure Page where
  start : Nat
  size : Nat
  top : Nat
deriving DecidableEq, Inhabited

namespace Page

/-- Pages start at multiples of this, and none is smaller. -/
def alignment : Nat := 4096

/-- Sizes above this cannot be rounded up to whole alignments within a signed word. -/
def maxSize : Nat := 2 ^ 63 - alignment

/-- The address space refuses a page of this size or more. -/
def refusedSize : Nat := 2 ^ 62

def stop (p : Page) : Nat := p.start + p.size

def remaining (p : Page) : Nat := Layout.distance p.top p.stop

def contains (p : Page) (address : Nat) : Bool := p.start ≤ address && address < p.stop

/-- Bytes handed out. -/
def used (p : Page) : Nat := Layout.distance p.start p.top

/-- The pages of a computer: everything from `next` on is still free. The system may refuse any
page; `refuses n` tells whether it refuses the one after the first `n`. -/
structure AddressSpace where
  next : Nat := 2 ^ 46
  mapped : Nat := 0
  refuses : Nat → Bool := fun _ => false
deriving Inhabited

/-- Map a page of at least `size` bytes at the next free multiple of the alignment, leaving a gap
behind it. -/
def map (space : AddressSpace) (size : Nat) : Except HeapError (Page × AddressSpace) :=
  let bytes := max size alignment
  let stop := (space.next + bytes + alignment - 1) / alignment * alignment
  if maxSize < bytes then .error (.invalidLayout size)
  else if refusedSize ≤ bytes ∨ 2 ^ 63 ≤ stop ∨ space.refuses space.mapped then
    .error (.pageAllocation size)
  else
    .ok (⟨space.next, bytes, space.next⟩,
      { space with next := stop + alignment, mapped := space.mapped + 1 })

end Page

/-- Where the next allocation in the current page goes, and where the page ends. -/
structure Cursor where
  top : Nat := 0
  limit : Nat := 0
deriving DecidableEq, Inhabited

/-- An arena of pages. While a page is current, the cursor and not the page knows its top. -/
structure Space where
  name : String
  pageSize : Nat
  /-- Room added to a page that is mapped for a large request. -/
  pageSlack : Nat
  pages : Array Page := #[]
  current : Option Nat := none
  cursor : Cursor := {}
deriving Inhabited

namespace Space

/-- The pages, with the cursor written back to the current one. -/
def syncedPages (s : Space) : Array Page :=
  match s.current with
  | some i => s.pages.modify i ({ · with top := s.cursor.top })
  | none => s.pages

/-- The first page, other than the current one, with `size` bytes left. -/
def reusable? (s : Space) (size : Nat) : Option Nat :=
  (List.range s.pages.size).find? fun i =>
    s.current != some i && s.pages[i]?.any (size ≤ ·.remaining)

/-- Move the cursor to the page with index `i`. -/
def select (s : Space) (i : Nat) : Space :=
  match s.pages[i]? with
  | some page => { s with current := some i, cursor := ⟨page.top, page.stop⟩ }
  | none => s

/-- Make a page with `size` free bytes current, mapping a new one if there is none. -/
def switchPage (s : Space) (memory : Page.AddressSpace) (size : Nat) :
    Except HeapError (Space × Page.AddressSpace) :=
  let s := { s with pages := s.syncedPages }
  match s.reusable? size with
  | some i => .ok (s.select i, memory)
  | none => do
    let (page, memory) ← Page.map memory (max s.pageSize (Layout.wrap (size + s.pageSlack)))
    let s := { s with pages := s.pages.push page }
    return (s.select (s.pages.size - 1), memory)

/-- Whether the current page has no room for `size` more bytes. -/
def full (s : Space) (size : Nat) : Bool :=
  s.current.isNone || s.cursor.limit < Layout.wrap (s.cursor.top + size)

/-- Take `size` bytes, rounded up to whole words; the answer is their address. Nothing guards
against sizes that wrap around the end of the address space. -/
def allocate (s : Space) (memory : Page.AddressSpace) (size : Nat) :
    Except HeapError (Nat × Space × Page.AddressSpace) := do
  let size := Layout.align size
  let (s, memory) ← if s.full size then s.switchPage memory size else pure (s, memory)
  return (s.cursor.top, { s with cursor.top := Layout.wrap (s.cursor.top + size) }, memory)

def pageCount (s : Space) : Nat := s.pages.size

def contains (s : Space) (address : Nat) : Bool := s.pages.any (·.contains address)

/-- Bytes handed out in all pages. -/
def allocatedBytes (s : Space) : Nat :=
  Layout.wrap (s.syncedPages.foldl (fun n p => n + p.used) 0)

end Space
end ScriptEngine
