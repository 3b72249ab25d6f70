import CoEdit.Text.Splice
import Mathlib.Data.List.InsertIdx
import Mathlib.Tactic.SplitIfs

/-!
# Steps that may stop a program

A difference of words stops the program where it would be negative. So does an access to a place that a list does
not have, and so does cutting a text inside a character. Each of these steps is given here as a function that has
no answer where the program stops. Sums are exact. Those that may be no words are left to `CoEdit.Result`, which
has an outcome of its own for them.

Lists are edited at an index, and texts at an offset in bytes, since that is how a text is stored.
-/
namespace CoEdit.Checked

/-! ## Numbers -/

/-- The difference of two numbers, if it is not negative. -/
def sub (a b : Nat) : Option Nat :=
  if b ≤ a then some (a - b) else none

theorem sub_of_le {a b : Nat} (h : b ≤ a) : sub a b = some (a - b) := if_pos h

/-! ## Lists -/

section Lists

variable {α β : Type} {items : List α} {item : α} {index : Nat}

/-- The list with `item` put in front of the one at `index`, or at the end. -/
def insertAt (index : Nat) (item : α) (items : List α) : Option (List α) :=
  if index ≤ items.length then some (items.insertIdx index item) else none

/-- The item at `index`, and the list without it. -/
def removeAt (index : Nat) (items : List α) : Option (α × List α) :=
  items[index]?.map fun item => (item, items.eraseIdx index)

def writeAt (index : Nat) (item : α) (items : List α) : Option (List α) :=
  if index < items.length then some (items.set index item) else none

def readAll (indices : List Nat) (items : List α) : Option (List α) :=
  indices.mapM fun k => items[k]?

theorem insertAt_of_le (h : index ≤ items.length) :
    insertAt index item items = some (items.insertIdx index item) := if_pos h

theorem removeAt_of_getElem? (h : items[index]? = some item) :
    removeAt index items = some (item, items.eraseIdx index) := by
  rw [removeAt, h, Option.map_some]

theorem writeAt_of_lt (h : index < items.length) :
    writeAt index item items = some (items.set index item) := if_pos h

theorem mapM_eq_some {f : α → Option β} {g : α → β} {items : List α}
    (h : ∀ item ∈ items, f item = some (g item)) : items.mapM f = some (items.map g) := by
  induction items with
  | nil => rfl
  | cons item rest ih =>
      rw [List.forall_mem_cons] at h
      rw [List.mapM_cons, h.1, ih h.2]
      rfl

end Lists

/-! ## Texts -/

/-- How many bytes the characters take. -/
def byteLength : List Char → Nat
  | [] => 0
  | c :: rest => c.utf8Size + byteLength rest

/-- Where the character at `index` starts, counted in bytes; the end of the text if there is none. -/
def byteOffset (index : Nat) (text : String) : Nat :=
  byteLength (text.toList.take index)

/-- The characters in front of an offset in bytes and those behind it. There is no answer if the offset lies
inside a character or past the end. -/
def cutAt : Nat → List Char → Option (List Char × List Char)
  | 0, chars => some ([], chars)
  | _ + 1, [] => none
  | offset + 1, c :: rest => do
      let left ← sub (offset + 1) c.utf8Size
      let (front, back) ← cutAt left rest
      return (c :: front, back)

def insertBytes (offset : Nat) (piece text : String) : Option String := do
  let (front, back) ← cutAt offset text.toList
  return String.ofList (front ++ piece.toList ++ back)

/-- What stands between two offsets in bytes, and the text without it. -/
def drainBytes (start stop : Nat) (text : String) : Option (String × String) := do
  let length ← sub stop start
  let (front, back) ← cutAt start text.toList
  let (gone, rest) ← cutAt length back
  return (String.ofList gone, String.ofList (front ++ rest))

theorem byteLength_append (front back : List Char) :
    byteLength (front ++ back) = byteLength front + byteLength back := by
  induction front with
  | nil => exact (Nat.zero_add _).symm
  | cons c rest ih => rw [List.cons_append, byteLength, byteLength, ih, Nat.add_assoc]

theorem cutAt_byteLength (front back : List Char) :
    cutAt (byteLength front) (front ++ back) = some (front, back) := by
  induction front with
  | nil => cases back <;> rfl
  | cons c rest ih =>
      -- a character takes at least one byte, so the cut is past the first one
      have hpos : 0 < c.utf8Size := c.utf8Size_pos
      obtain ⟨offset, hoffset⟩ : ∃ offset, byteLength (c :: rest) = offset + 1 :=
        Nat.exists_eq_add_one.2 (by rw [byteLength]; omega)
      have hleft : sub (byteLength (c :: rest)) c.utf8Size = some (byteLength rest) := by
        rw [byteLength, sub_of_le (Nat.le_add_right _ _), Nat.add_sub_cancel_left]
      rw [hoffset] at hleft ⊢
      rw [List.cons_append, cutAt, hleft]
      simp only [Option.bind_eq_bind, Option.bind_some, ih]
      rfl

theorem insertBytes_byteOffset (index : Nat) (piece text : String) :
    insertBytes (byteOffset index text) piece text = some (Text.insert index piece text) := by
  have hcut := cutAt_byteLength (text.toList.take index) (text.toList.drop index)
  rw [List.take_append_drop] at hcut
  rw [insertBytes, byteOffset, hcut]
  rfl

/-- A span of characters is drained by the offsets of its ends. -/
theorem drainBytes_byteOffset (index count : Nat) (text : String) :
    drainBytes (byteOffset index text) (byteOffset (index + count) text) text =
      some (Text.slice index count text, Text.remove index count text) := by
  have hcut := cutAt_byteLength (text.toList.take index) (text.toList.drop index)
  have hspan := cutAt_byteLength ((text.toList.drop index).take count)
    ((text.toList.drop index).drop count)
  rw [List.take_append_drop] at hcut hspan
  have hlength : sub (byteOffset (index + count) text) (byteOffset index text) =
      some (byteLength ((text.toList.drop index).take count)) := by
    rw [byteOffset, byteOffset, List.take_add, byteLength_append, sub_of_le (Nat.le_add_right _ _),
      Nat.add_sub_cancel_left]
  rw [drainBytes, hlength]
  simp only [Option.bind_eq_bind, Option.bind_some]
  rw [byteOffset, hcut]
  simp only [Option.bind_some, hspan, List.drop_drop]
  rfl

end CoEdit.Checked
