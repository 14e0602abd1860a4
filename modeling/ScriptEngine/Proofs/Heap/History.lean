import Mathlib.Logic.Function.Basic
import ScriptEngine.Heap.Objects

/-!
What was done to a heap since it was made. Objects remember the shape that they were allocated with
and the keys that were added to them, in order; no part of this is read by the heap itself.
-/

namespace ScriptEngine.Heap

structure Past where
  /-- Values that the heap gave out, other than small integers. -/
  values : List Word
  /-- Shape that an object was allocated with. -/
  origin : Word → Option Word := fun _ => none
  /-- Keys that were added to an object. -/
  added : Word → List Word := fun _ => []

namespace Past

variable (past : Past)

/-- Values that an operation may be given. -/
def Known (w : Word) : Prop := w.isSmi = true ∨ w ∈ past.values

def give (w : Word) : Past := { past with values := w :: past.values }

/-- An object without keys comes to be. -/
def born (object shape : Word) : Past where
  values := object :: past.values
  origin := Function.update past.origin object (some shape)
  added := Function.update past.added object []

def add (object key : Word) : Past :=
  { past with added := Function.update past.added object (past.added object ++ [key]) }

end Past

/-- The key that an update adds to an object: the object keeps items, and none has the key yet. -/
def addedKey? (h : Heap) (object key : Word) : Option Word :=
  match propertyKey object key h with
  | .ok own h' =>
    if h'.isObject object && !h'.isDense object && (h'.ownSlot? object own).isNone then some own
    else none
  | .error _ _ => none

/-- Account for an update of a property. -/
def Past.update (past : Past) (h : Heap) (object key : Word) : Past :=
  match h.addedKey? object key with
  | some own => past.add object own
  | none => past

/-- Prototype of the objects that a function constructs. -/
def prototypeOf (h : Heap) (function : Word) : Word :=
  h.shapeProto (h.read function Layout.Function.instanceShape)

/-- A function comes to be: first its prototype, then the function, which gets the prototype as its
only property. -/
def Past.bornFunction (past : Past) (h h' : Heap) (function : Word) : Past :=
  ((past.born (h'.prototypeOf function) (h.rootShape .object)).born function
    (h.rootShape .function)).add function (h'.strings.getD "prototype" default)

/-- Heaps that a sequence of operations, all of which succeed, leads to, with what was done on the
way. Receivers, keys and values to be stored are values that the heap gave out before. Texts, arrays
and the slack of pages have sizes that a machine can address. -/
inductive Reachable (config : HeapConfig) : Heap → Past → Prop where
  | create {h : Heap} : config.pageSlack ≤ 2 ^ 62 → Heap.create config = .ok h →
      Reachable config h { values := [h.undefined, h.null, h.hole, h.trueValue, h.falseValue] }
  | string {h h' : Heap} {past : Past} {text : String} {w : Word} : Reachable config h past →
      text.utf8ByteSize < 2 ^ 63 → string text h = .ok w h' → Reachable config h' (past.give w)
  | number {h h' : Heap} {past : Past} {n : Double} {w : Word} : Reachable config h past →
      number n h = .ok w h' → Reachable config h' (past.give w)
  | allocCode {h h' : Heap} {past : Past} {entry length : Nat} {record : CodeRecord} {w : Word} :
      Reachable config h past → allocCode entry length record h = .ok w h' →
      Reachable config h' (past.give w)
  | newObject {h h' : Heap} {past : Past} {w : Word} : Reachable config h past →
      newObject h = .ok w h' → Reachable config h' (past.born w (h.rootShape .object))
  | newGlobal {h h' : Heap} {past : Past} {w : Word} : Reachable config h past →
      newGlobal h = .ok w h' → Reachable config h' (past.born w (h.rootShape .global))
  | newArray {h h' : Heap} {past : Past} {length : Nat} {w : Word} : Reachable config h past →
      length < 2 ^ 60 → newArray length h = .ok w h' →
      Reachable config h' (past.born w (h.rootShape .array))
  | allocBuiltinFunction {h h' : Heap} {past : Past} {code w : Word} : Reachable config h past →
      allocBuiltinFunction code h = .ok w h' →
      Reachable config h' (past.born w (h.rootShape .function))
  | allocFunction {h h' : Heap} {past : Past} {code w : Word} : Reachable config h past →
      allocFunction code h = .ok w h' → Reachable config h' (past.bornFunction h h' w)
  | allocInstance {h h' : Heap} {past : Past} {function shape w : Word} :
      Reachable config h past → past.Known function → h.instanceShape function = .ok shape →
      allocObject shape h = .ok w h' → Reachable config h' (past.born w shape)
  | setProperty {h h' : Heap} {past : Past} {object key value : Word} : Reachable config h past →
      past.Known object → past.Known key → past.Known value →
      setProperty object key value h = .ok () h' →
      Reachable config h' (past.update h object key)
  | lookupSlot {h h' : Heap} {past : Past} {object key : Word} {update : Bool} {slot : Option Nat} :
      Reachable config h past → past.Known object → past.Known key →
      lookupSlot object key update h = .ok slot h' →
      Reachable config h' (if update then past.update h object key else past)
  | deleteProperty {h h' : Heap} {past : Past} {object key : Word} {gone : Bool} :
      Reachable config h past → past.Known object → past.Known key →
      deleteProperty object key h = .ok gone h' → Reachable config h' past

/-- One operation of such a sequence. -/
inductive Operates : Heap → Past → Heap → Past → Prop where
  | string {h h' : Heap} {past : Past} {text : String} {w : Word} :
      text.utf8ByteSize < 2 ^ 63 → string text h = .ok w h' → Operates h past h' (past.give w)
  | number {h h' : Heap} {past : Past} {n : Double} {w : Word} : number n h = .ok w h' →
      Operates h past h' (past.give w)
  | allocCode {h h' : Heap} {past : Past} {entry length : Nat} {record : CodeRecord} {w : Word} :
      allocCode entry length record h = .ok w h' → Operates h past h' (past.give w)
  | newObject {h h' : Heap} {past : Past} {w : Word} : newObject h = .ok w h' →
      Operates h past h' (past.born w (h.rootShape .object))
  | newGlobal {h h' : Heap} {past : Past} {w : Word} : newGlobal h = .ok w h' →
      Operates h past h' (past.born w (h.rootShape .global))
  | newArray {h h' : Heap} {past : Past} {length : Nat} {w : Word} : length < 2 ^ 60 →
      newArray length h = .ok w h' → Operates h past h' (past.born w (h.rootShape .array))
  | allocBuiltinFunction {h h' : Heap} {past : Past} {code w : Word} :
      allocBuiltinFunction code h = .ok w h' →
      Operates h past h' (past.born w (h.rootShape .function))
  | allocFunction {h h' : Heap} {past : Past} {code w : Word} : allocFunction code h = .ok w h' →
      Operates h past h' (past.bornFunction h h' w)
  | allocInstance {h h' : Heap} {past : Past} {function shape w : Word} : past.Known function →
      h.instanceShape function = .ok shape → allocObject shape h = .ok w h' →
      Operates h past h' (past.born w shape)
  | setProperty {h h' : Heap} {past : Past} {object key value : Word} : past.Known object →
      past.Known key → past.Known value → setProperty object key value h = .ok () h' →
      Operates h past h' (past.update h object key)
  | lookupSlot {h h' : Heap} {past : Past} {object key : Word} {update : Bool} {slot : Option Nat} :
      past.Known object → past.Known key → lookupSlot object key update h = .ok slot h' →
      Operates h past h' (if update then past.update h object key else past)
  | deleteProperty {h h' : Heap} {past : Past} {object key : Word} {gone : Bool} :
      past.Known object → past.Known key → deleteProperty object key h = .ok gone h' →
      Operates h past h' past
  | propertyKey {h h' : Heap} {past : Past} {object key own : Word} : past.Known key →
      propertyKey object key h = .ok own h' → Operates h past h' (past.give own)
  | getProperty {h h' : Heap} {past : Past} {object key value : Word} : past.Known object →
      past.Known key → getProperty object key h = .ok value h' → Operates h past h' past
  | instanceOf {h h' : Heap} {past : Past} {object constructor : Word} {result : Option Bool} :
      past.Known object → past.Known constructor →
      instanceOf object constructor h = .ok result h' → Operates h past h' past
  /-- Scopes of roots are opened and closed. -/
  | scopes {h : Heap} {past : Past} (scopes : Scopes) : Operates h past { h with scopes } past

/-- A heap and its past, and what operations make of them. -/
inductive Later (h : Heap) (past : Past) : Heap → Past → Prop where
  | now : Later h past h past
  | step {h₁ h₂ : Heap} {past₁ past₂ : Past} : Later h past h₁ past₁ →
      Operates h₁ past₁ h₂ past₂ → Later h past h₂ past₂

end ScriptEngine.Heap
