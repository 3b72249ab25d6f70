import CoEdit.Proofs.Document.ReadBack
import CoEdit.Proofs.Path.Pointer

/-!
# Ids of read JSON

Reading plain JSON hands the source of ids from value to value. The `n`-th value, parents first, is read by the
source that is `n` ids ahead (`preorder_ofJson`), so a value takes as many consecutive ids as there are values in
it. An id ends in a number without a colon behind the last colon, whatever the stem is; two ids are then the same
only if both stem and number are (`IdSource.stem_number_inj`), and no two sources of different stems, nor two calls
of one source, give out one id twice.

What is read is written again as it was, as long as no number changes on the way (`toJson_ofJson`).
-/
namespace CoEdit

namespace Json

mutual

/-- The values of which a value is made, itself included, parents first. -/
def preorder : Json → List Json
  | .array items => .array items :: preorderItems items
  | .object members => .object members :: preorderMembers members
  | value => [value]

def preorderItems : List Json → List Json
  | [] => []
  | item :: rest => preorder item ++ preorderItems rest

def preorderMembers : List (String × Json) → List Json
  | [] => []
  | (_, item) :: rest => preorder item ++ preorderMembers rest

end

/-- A number that is written as it was read; any other value. -/
def Exact (value : Json) : Prop :=
  ∀ x, value.toFloat? = some x → Element.numberToJson x = value

end Json

namespace IdSource

/-- The source once `count` ids are taken. -/
def skip (source : IdSource) (count : Nat) : IdSource :=
  { source with next := source.next + count }

theorem skip_zero (source : IdSource) : source.skip 0 = source := rfl

theorem skip_one (source : IdSource) : source.skip 1 = source.advance := rfl

theorem skip_skip (source : IdSource) (m n : Nat) :
    (source.skip m).skip n = source.skip (m + n) := by
  simp [skip, Nat.add_assoc]

end IdSource

/-! ## Which value gets which id -/

namespace Element

mutual

theorem after_ofJson (source : IdSource) : (value : Json) →
    (ofJson source value).2 = source.skip value.preorder.length
  | .null | .boolean _ | .integer _ | .number _ | .string _ => by
      simp [ofJson, Json.preorder, IdSource.skip_one]
  | .array items => by
      rw [ofJson, Json.preorder, List.length_cons, Nat.add_comm, ← IdSource.skip_skip]
      exact after_ofJsonItems source.advance items
  | .object members => by
      rw [ofJson, Json.preorder, List.length_cons, Nat.add_comm, ← IdSource.skip_skip]
      exact after_ofJsonMembers source.advance members

theorem after_ofJsonItems (source : IdSource) : (items : List Json) →
    (ofJsonItems source items).2 = source.skip (Json.preorderItems items).length
  | [] => rfl
  | item :: rest => by
      rw [ofJsonItems, Json.preorderItems, List.length_append, ← IdSource.skip_skip,
        ← after_ofJson source item]
      exact after_ofJsonItems _ rest

theorem after_ofJsonMembers (source : IdSource) : (members : List (String × Json)) →
    (ofJsonMembers source members).2 = source.skip (Json.preorderMembers members).length
  | [] => rfl
  | (name, item) :: rest => by
      rw [ofJsonMembers, Json.preorderMembers, List.length_append, ← IdSource.skip_skip,
        ← after_ofJson source item]
      exact after_ofJsonMembers _ rest

end

/-- What the values of a list give, each with the id that is its turn. -/
def readEach (source : IdSource) (values : List Json) : List Element :=
  values.mapIdx fun n value => (ofJson (source.skip n) value).1

theorem readEach_append (source : IdSource) (front back : List Json) :
    readEach source (front ++ back) =
      readEach source front ++ readEach (source.skip front.length) back := by
  simp only [readEach, List.mapIdx_append, IdSource.skip_skip, Nat.add_comm]

theorem readEach_cons (source : IdSource) (value : Json) (rest : List Json) :
    readEach source (value :: rest) =
      (ofJson source value).1 :: readEach source.advance rest := by
  simp only [readEach, List.mapIdx_cons, IdSource.skip_zero, ← IdSource.skip_one, IdSource.skip_skip,
    Nat.add_comm]

theorem id_ofJson (source : IdSource) (value : Json) : (ofJson source value).1.id = source.current := by
  cases value <;> simp [ofJson, id]

mutual

/-- The elements that are read, parents first, are those that the values give one after the other. -/
theorem preorder_ofJson (source : IdSource) : (value : Json) →
    (ofJson source value).1.preorder = readEach source value.preorder
  | .null | .boolean _ | .integer _ | .number _ | .string _ => by
      simp [ofJson, Json.preorder, preorder, preorderContent, readEach, IdSource.skip_zero]
  | .array items => by
      rw [Json.preorder, readEach_cons, ← preorder_ofJsonItems source.advance items, ofJson, preorder_mk,
        preorderContent, preorderItems_eq]
  | .object members => by
      rw [Json.preorder, readEach_cons, ← preorder_ofJsonMembers source.advance members, ofJson, preorder_mk,
        preorderContent]

theorem preorder_ofJsonItems (source : IdSource) : (items : List Json) →
    (ofJsonItems source items).1.flatMap preorder = readEach source (Json.preorderItems items)
  | [] => rfl
  | item :: rest => by
      rw [Json.preorderItems, readEach_append, ← after_ofJson source item,
        ← preorder_ofJson source item, ← preorder_ofJsonItems _ rest, ofJsonItems, List.flatMap_cons]

theorem preorder_ofJsonMembers (source : IdSource) : (members : List (String × Json)) →
    preorderProps (ofJsonMembers source members).1 = readEach source (Json.preorderMembers members)
  | [] => by rw [ofJsonMembers, preorderProps]; rfl
  | (name, item) :: rest => by
      rw [Json.preorderMembers, readEach_append, ← after_ofJson source item,
        ← preorder_ofJson source item, ← preorder_ofJsonMembers _ rest, ofJsonMembers, preorderProps]

end

/-- Values that are read one after the other get consecutive ids. -/
theorem map_id_readEach (source : IdSource) (values : List Json) :
    (readEach source values).map id =
      (List.range' source.next values.length).map fun n => source.stem ++ ":" ++ toString n := by
  induction values generalizing source with
  | nil => rfl
  | cons value rest ih =>
      rw [readEach_cons, List.map_cons, ih, id_ofJson, List.length_cons, List.range'_succ,
        List.map_cons]
      rfl

theorem ids_ofJson (source : IdSource) (value : Json) : (ofJson source value).1.ids =
    (List.range' source.next value.preorder.length).map fun n =>
      source.stem ++ ":" ++ toString n := by
  rw [ids, preorder_ofJson, map_id_readEach]

end Element

/-! ## Ids apart -/

namespace IdSource

/-- What follows the last colon is determined by the whole, and so is what stands before it. -/
theorem append_colon_inj {front front' back back' : List Char} (hback : ':' ∉ back)
    (hback' : ':' ∉ back') (h : front ++ ':' :: back = front' ++ ':' :: back') :
    front = front' ∧ back = back' := by
  rcases List.append_eq_append_iff.1 h with ⟨mid, rfl, hmid⟩ | ⟨mid, rfl, hmid⟩
  all_goals
    cases mid with
    | nil =>
        cases hmid
        exact ⟨by simp, rfl⟩
    | cons c mid =>
        obtain ⟨-, rfl⟩ := List.cons_eq_cons.1 hmid
        simp at hback hback'

/-- An id is given out for one stem and one number only, whatever characters the stems are made of. -/
theorem stem_number_inj {stem stem' : String} {n n' : Nat}
    (h : stem ++ ":" ++ toString n = stem' ++ ":" ++ toString n') : stem = stem' ∧ n = n' := by
  have hchars (m : Nat) : (toString m).toList = Nat.toDigits 10 m := by
    rw [Nat.toString_eq_ofList_toDigits, String.toList_ofList]
  have hcolon (m : Nat) : ':' ∉ Nat.toDigits 10 m := Path.Pointer.not_mem_toDigits rfl m
  have hlists := congrArg String.toList h
  simp only [String.toList_append, hchars, List.append_assoc] at hlists
  obtain ⟨hstem, hdigits⟩ := append_colon_inj (hcolon n) (hcolon n') hlists
  refine ⟨String.toList_inj.1 hstem, ?_⟩
  rw [← Digits.ofDecimal_toDigits n, hdigits, Digits.ofDecimal_toDigits]

end IdSource

namespace Element

theorem nodup_ids_ofJson (source : IdSource) (value : Json) : (ofJson source value).1.ids.Nodup := by
  rw [ids_ofJson]
  exact List.Nodup.map (fun _ _ heq => (IdSource.stem_number_inj heq).2) List.nodup_range'

/-- Two sources share no id if their stems differ, or if one goes on where the other has been. -/
theorem disjoint_ids_ofJson {s t : IdSource} {v : Json} (w : Json)
    (h : s.stem ≠ t.stem ∨ (ofJson s v).2.next ≤ t.next) :
    List.Disjoint (ofJson s v).1.ids (ofJson t w).1.ids := by
  rw [after_ofJson] at h
  intro id hv hw
  rw [ids_ofJson, List.mem_map] at hv hw
  obtain ⟨m, hm, rfl⟩ := hv
  obtain ⟨n, hn, heq⟩ := hw
  obtain ⟨hstem, rfl⟩ := IdSource.stem_number_inj heq
  rcases h with hne | hle
  · exact hne hstem.symm
  · rw [List.mem_range'_1] at hm hn
    have hbound : s.next + v.preorder.length ≤ t.next := hle
    omega

/-! ## What is written again -/

mutual

theorem toJson_ofJson (source : IdSource) : (value : Json) → (∀ x ∈ value.preorder, x.Exact) →
    (ofJson source value).1.toJson = value
  | .null, _ | .boolean _, _ | .string _, _ => by simp [ofJson, toJson, contentToJson]
  | .integer i, h => by
      simpa [ofJson, toJson, contentToJson] using h (.integer i) (by simp [Json.preorder]) _ rfl
  | .number x, h => by
      simpa [ofJson, toJson, contentToJson] using h (.number x) (by simp [Json.preorder]) _ rfl
  | .array items, h => by
      rw [Json.preorder, List.forall_mem_cons] at h
      rw [ofJson, toJson, contentToJson, itemsToJson_ofJsonItems source.advance items h.2]
  | .object members, h => by
      rw [Json.preorder, List.forall_mem_cons] at h
      rw [ofJson, toJson, contentToJson, propsToJson_ofJsonMembers source.advance members h.2]

theorem itemsToJson_ofJsonItems (source : IdSource) : (items : List Json) →
    (∀ x ∈ Json.preorderItems items, x.Exact) → itemsToJson (ofJsonItems source items).1 = items
  | [], _ => by simp [ofJsonItems, itemsToJson]
  | item :: rest, h => by
      rw [Json.preorderItems, List.forall_mem_append] at h
      rw [ofJsonItems, itemsToJson, toJson_ofJson source item h.1, itemsToJson_ofJsonItems _ rest h.2]

theorem propsToJson_ofJsonMembers (source : IdSource) : (members : List (String × Json)) →
    (∀ x ∈ Json.preorderMembers members, x.Exact) →
      propsToJson (ofJsonMembers source members).1 = members
  | [], _ => by simp [ofJsonMembers, propsToJson]
  | (name, item) :: rest, h => by
      rw [Json.preorderMembers, List.forall_mem_append] at h
      rw [ofJsonMembers, propsToJson, toJson_ofJson source item h.1,
        propsToJson_ofJsonMembers _ rest h.2]

end

/-! ## Reading a value -/

/-- What `source` reads a value into. -/
structure Mints (source : IdSource) (value : Json) : Prop where
  /-- Parents first, the `n`-th element is what the `n`-th value gives with the `n`-th id. -/
  preorder : (ofJson source value).1.preorder = readEach source value.preorder
  /-- As many ids as there are values, counted on from the next number of the source. -/
  ids : (ofJson source value).1.ids =
    (List.range' source.next value.preorder.length).map fun n => source.stem ++ ":" ++ toString n
  after : (ofJson source value).2 = ⟨source.stem, source.next + value.preorder.length⟩
  made : ∃ doc, Document.ofElement (ofJson source value).1 = .ok doc

theorem mints (source : IdSource) (value : Json) : Mints source value where
  preorder := preorder_ofJson source value
  ids := ids_ofJson source value
  after := after_ofJson source value
  made := ⟨_, Document.ofElement_eq_ok_iff.2 ⟨nodup_ids_ofJson source value, rfl⟩⟩

/-- Reading JSON gives every value an id of its own: parents first, the ids are numbered on from the next number
of the source, which is then ahead by the number of values, and a document can be made of what was read. Sources
of different stems never give out the same id, and a source never gives out one again. If every number is one that
is written as it was read, then what was read, and the document made of it, are written as the very same JSON. -/
theorem read_json_faithful :
    (∀ (source : IdSource) (value : Json), Mints source value) ∧
    (∀ (s t : IdSource) (v w : Json), s.stem ≠ t.stem ∨ (ofJson s v).2.next ≤ t.next →
      List.Disjoint (ofJson s v).1.ids (ofJson t w).1.ids) ∧
    ∀ (source : IdSource) (value : Json), (∀ x ∈ value.preorder, x.Exact) →
      (ofJson source value).1.toJson = value ∧
        ∀ doc, Document.ofElement (ofJson source value).1 = .ok doc → doc.toJson = value := by
  refine ⟨mints, fun s t v w => disjoint_ids_ofJson w, fun source value hexact => ?_⟩
  have hwritten := toJson_ofJson source value hexact
  refine ⟨hwritten, fun doc hdoc => ?_⟩
  rw [Document.toJson, (Document.showsTree_ofElement hdoc).snapshot, hwritten]

def card : Json :=
  .object [("title", .string "a:1"), ("sizes", .array [.integer 3, .number 1.5]), ("note", .null)]

theorem exact_card : ∀ x ∈ card.preorder, x.Exact := by
  have hcount : Number.safeInteger? (Float.ofInt 3) = some 3 := by decide +kernel
  have hshare : Number.safeInteger? 1.5 = none ∧ Float.isFinite 1.5 = true := by decide +kernel
  simp [card, Json.preorder, Json.preorderItems, Json.preorderMembers, Json.Exact, Json.toFloat?,
    numberToJson, Json.ofFloat, hcount, hshare]

/-- The card is read by a source whose stem looks like an id of the other, and read again. -/
theorem read_json_faithful_card :
    (ofJson ⟨"a:1", 9⟩ card).1.ids =
        ["a:1:9", "a:1:10", "a:1:11", "a:1:12", "a:1:13", "a:1:14"] ∧
      List.Disjoint (ofJson ⟨"a:1", 9⟩ card).1.ids (ofJson ⟨"a", 1⟩ card).1.ids ∧
      List.Disjoint (ofJson ⟨"a:1", 9⟩ card).1.ids (ofJson ⟨"a:1", 15⟩ card).1.ids ∧
      (ofJson ⟨"a:1", 9⟩ card).1.toJson = card := by
  obtain ⟨hmints, hdisjoint, hwritten⟩ := read_json_faithful
  exact ⟨(hmints ⟨"a:1", 9⟩ card).ids, hdisjoint _ _ _ _ (.inl (by decide)),
    hdisjoint _ _ _ _ (.inr (by decide)), (hwritten _ card exact_card).1⟩

end Element
end CoEdit
