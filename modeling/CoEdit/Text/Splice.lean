import CoEdit.Word

/-!
# Splicing text

A text is a sequence of Unicode scalar values, and every index and length counts those.
-/
namespace CoEdit.Text

/-- `text` with `piece` put in front of the character at `index`. -/
def insert (index : Nat) (piece text : String) : String :=
  String.ofList (text.toList.take index ++ piece.toList ++ text.toList.drop index)

def slice (index count : Nat) (text : String) : String :=
  String.ofList ((text.toList.drop index).take count)

def remove (index count : Nat) (text : String) : String :=
  String.ofList (text.toList.take index ++ text.toList.drop (index + count))

/-- The end of the `count` characters from `index` on in a text with `length` characters, unless the
program stops at it. Where the text is that long the end is a word; elsewhere it is added up as one. -/
def spanEnd? (build : Build) (index count length : Nat) : Option Nat :=
  if index + count ≤ length then some (index + count) else Word.add? build index count

theorem spanEnd?_of_word {index count length : Nat}
    (h : index + count ≤ length ∨ index + count < Word.bound) (build : Build) :
    spanEnd? build index count length = some (index + count) := by
  unfold spanEnd?
  split
  · rfl
  · next hlong => exact Word.add?_of_lt (h.resolve_left hlong) build

@[simp] theorem toList_insert (index : Nat) (piece text : String) :
    (insert index piece text).toList =
      text.toList.take index ++ piece.toList ++ text.toList.drop index := by
  simp only [insert, String.toList_ofList]

@[simp] theorem toList_slice (index count : Nat) (text : String) :
    (slice index count text).toList = (text.toList.drop index).take count := by
  simp only [slice, String.toList_ofList]

@[simp] theorem toList_remove (index count : Nat) (text : String) :
    (remove index count text).toList =
      text.toList.take index ++ text.toList.drop (index + count) := by
  simp only [remove, String.toList_ofList]

theorem remove_insert {index : Nat} {text : String} (piece : String) (h : index ≤ text.length) :
    remove index piece.length (insert index piece text) = text := by
  apply String.toList_inj.1
  have hlen : (text.toList.take index).length = index :=
    List.length_take_of_le (by rwa [String.length_toList])
  have hall : (text.toList.take index ++ piece.toList).length = index + piece.length := by
    simp [hlen, String.length_toList, -List.length_take]
  rw [toList_remove, toList_insert, ← hall, List.drop_left, List.append_assoc,
    List.take_append_of_le_length (by omega), List.take_take, Nat.min_self, List.take_append_drop]

end CoEdit.Text
