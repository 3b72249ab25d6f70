import CoEdit.Proofs.Document.Sound
import CoEdit.Record.Element

/-!
# Elements survive being written

A tree is read back as it was written if its numbers are finite and its dates are words with a sign, with the
properties of every object in their order (`Element.ofRecord?_toRecord`). Conversely the dates of every tree
that is read are such words (`Element.dated_ofRecord?`); its numbers need not be finite.
-/
namespace CoEdit

/-! ## Words and lists of them -/

namespace Json

theorem toWord?_ofNat {n : Nat} (h : n < Word.bound) : (ofNat n).toWord? = some n :=
  (Word.ofInt?_natCast n).trans (if_pos h)

theorem lt_of_toWord? {record : Json} {n : Nat} (h : record.toWord? = some n) : n < Word.bound := by
  cases record with
  | integer i =>
      obtain ⟨hi, rfl⟩ := Option.ite_some_none_eq_some.1 h
      omega
  | _ => cases h

theorem lt_of_bind_toWord? (found : Option Json) :
    SatisfiesM (· < Word.bound) (found.bind toWord?) :=
  SatisfiesM.trivial.bind fun _ _ => SatisfiesM_Option_eq.2 fun _ => lt_of_toWord?

theorem signed_of_toSigned? {record : Json} {ms : Int} (h : record.toSigned? = some ms) :
    Word.signed? ms = some ms := by
  cases record with
  | integer i =>
      obtain ⟨hi, rfl⟩ := Option.ite_some_none_eq_some.1 h
      exact if_pos hi
  | _ => cases h

theorem toFloat?_ofFloat {x : Float} (h : x.isFinite = true) : (ofFloat x).toFloat? = some x := by
  rw [ofFloat, if_pos h]
  rfl

theorem mapM_map_eq_pure {α β : Type} {m : Type → Type} [Monad m] [LawfulMonad m] {encode : α → β}
    {decode : β → m α} {items : List α} (h : ∀ a ∈ items, decode (encode a) = pure a) :
    (items.map encode).mapM decode = pure items := by
  induction items with
  | nil => rfl
  | cons a rest ih =>
      rw [List.forall_mem_cons] at h
      rw [List.map_cons, List.mapM_cons, h.1, pure_bind, ih h.2, pure_bind]

/-- What holds of every item that can be read holds of the items of every list that can be read. -/
theorem satisfiesM_mapM {α β : Type} {m : Type → Type} [Monad m] [LawfulMonad m] {p : α → Prop}
    {decode : β → m α} {records : List β} (h : ∀ record ∈ records, SatisfiesM p (decode record)) :
    SatisfiesM (fun items => ∀ a ∈ items, p a) (records.mapM decode) := by
  induction records with
  | nil => exact .pure nofun
  | cons record rest ih =>
      rw [List.forall_mem_cons] at h
      rw [List.mapM_cons]
      exact h.1.bind fun a ha => (ih h.2).bind fun items hitems =>
        .pure (List.forall_mem_cons.2 ⟨ha, hitems⟩)

end Json

/-! ## Dates -/

namespace Content

/-- A date is a word with a sign. -/
def Dated {α : Type} : Content α → Prop
  | .date ms => Word.signed? ms = some ms
  | _ => True

instance {α : Type} : (content : Content α) → Decidable content.Dated
  | .date ms => inferInstanceAs (Decidable (Word.signed? ms = some ms))
  | .null | .string _ | .number _ | .boolean _ | .array _ | .object _ => .isTrue trivial

end Content

namespace Element

variable {content : Content Element} {tree : Element}

/-- Every date is a word with a sign. -/
def Dated (tree : Element) : Prop :=
  ∀ x ∈ tree.preorder, x.content.Dated

instance (tree : Element) : Decidable tree.Dated :=
  inferInstanceAs (Decidable (∀ x ∈ tree.preorder, x.content.Dated))

/-! ## Writing and reading -/

theorem itemsOfRecord?_itemsToRecord {items : List Element}
    (h : ∀ x ∈ items, ofRecord? x.toRecord = some x) :
    itemsOfRecord? (itemsToRecord items) = some items := by
  induction items with
  | nil => rfl
  | cons x rest ih =>
      rw [List.forall_mem_cons] at h
      simp [itemsToRecord, itemsOfRecord?, h.1, ih h.2]

theorem propsOfRecord?_propsToRecord {props : List (String × Element)}
    (h : ∀ x ∈ Entries.values props, ofRecord? x.toRecord = some x) :
    propsOfRecord? (propsToRecord props) = some props := by
  induction props with
  | nil => rfl
  | cons p rest ih =>
      rcases p with ⟨name, x⟩
      rw [Entries.values, List.map_cons, List.forall_mem_cons] at h
      simp [propsToRecord, propsOfRecord?, h.1, ih h.2]

theorem ofRecord?_toRecord (hfinite : tree.firstNonFinite? = none) (hdated : tree.Dated) :
    ofRecord? tree.toRecord = some tree := by
  rw [firstNonFinite?_eq_none_iff] at hfinite
  induction tree using Element.induction with
  | mk id content ih =>
      obtain ⟨hfinite, hfinites⟩ := forall_preorder_mk.1 hfinite
      obtain ⟨hdated, hdates⟩ := forall_preorder_mk.1 hdated
      have hchildren : ∀ x ∈ content.children, ofRecord? x.toRecord = some x :=
        fun x hx => ih x hx (hfinites x hx) (hdates x hx)
      cases content with
      | array items =>
          have hitems : itemsOfRecord? (itemsToRecord items) = some items :=
            itemsOfRecord?_itemsToRecord hchildren
          simp [toRecord, contentToRecord, ofRecord?, arrayValue?, Entries.find?_cons, typeName?,
            Json.tag?, Json.toString?, hitems]
      | object props =>
          have hprops : propsOfRecord? (propsToRecord props) = some props :=
            propsOfRecord?_propsToRecord hchildren
          simp [toRecord, contentToRecord, ofRecord?, objectValue?, Entries.find?_cons, typeName?,
            Json.tag?, Json.toString?, hprops]
      | number x =>
          have hx := Json.toFloat?_ofFloat hfinite
          simp [toRecord, contentToRecord, ofRecord?, Entries.find?_cons, typeName?, Json.tag?,
            Json.toString?, scalarOfRecord?, hx]
      | date ms =>
          have hms : Word.signed? ms = some ms := hdated
          simp [toRecord, contentToRecord, ofRecord?, Entries.find?_cons, typeName?, Json.tag?,
            Json.toString?, scalarOfRecord?, Json.toSigned?, hms]
      | _ =>
          simp [toRecord, contentToRecord, ofRecord?, Entries.find?_cons, typeName?, Json.tag?,
            Json.toString?, Json.toBool?, scalarOfRecord?]

theorem dated_of_scalarOfRecord? {typeName : String} {value : Option Json}
    (h : scalarOfRecord? typeName value = some content) : content.Dated ∧ content.children = [] := by
  unfold scalarOfRecord? at h
  split at h
  case h_6 =>
    obtain ⟨ms, hms, rfl⟩ := Option.map_eq_some_iff.1 h
    exact ⟨Json.signed_of_toSigned? hms, rfl⟩
  all_goals first
    | cases h <;> exact ⟨trivial, rfl⟩
    | obtain ⟨_, _, rfl⟩ := Option.map_eq_some_iff.1 h; exact ⟨trivial, rfl⟩

mutual

theorem dated_ofRecord? : ∀ {record : Json} {tree : Element}, ofRecord? record = some tree → tree.Dated
  | .object members, tree, h => by
      rw [ofRecord?] at h
      obtain ⟨id, -, h⟩ := Option.bind_eq_some_iff.1 h
      obtain ⟨typeName, -, h⟩ := Option.bind_eq_some_iff.1 h
      have hcontent : ∃ content : Content Element, tree = .mk id content ∧ content.Dated ∧
          ∀ child ∈ content.children, child.Dated := by
        dsimp only at h
        split_ifs at h
        all_goals
          obtain ⟨content, hcontent, h⟩ := Option.bind_eq_some_iff.1 h
          cases h
          refine ⟨content, rfl, ?_⟩
        · obtain ⟨items, hitems, rfl⟩ := Option.map_eq_some_iff.1 hcontent
          exact ⟨trivial, dated_arrayValue? hitems⟩
        · obtain ⟨props, hprops, rfl⟩ := Option.map_eq_some_iff.1 hcontent
          exact ⟨trivial, dated_objectValue? hprops⟩
        · obtain ⟨hdated, hnone⟩ := dated_of_scalarOfRecord? hcontent
          rw [hnone]
          exact ⟨hdated, nofun⟩
      obtain ⟨content, rfl, hdated⟩ := hcontent
      exact forall_preorder_mk.2 hdated
  | .null, _, h => by cases h
  | .boolean _, _, h => by cases h
  | .integer _, _, h => by cases h
  | .number _, _, h => by cases h
  | .string _, _, h => by cases h
  | .array _, _, h => by cases h

theorem dated_arrayValue? : ∀ {members : List (String × Json)} {items : List Element},
    arrayValue? members = some items → ∀ x ∈ items, x.Dated
  | [], _, h => by cases h
  | (name, value) :: rest, items, h => by
      unfold arrayValue? at h
      split_ifs at h
      · cases value with
        | array records => exact dated_itemsOfRecord? h
        | _ => cases h
      · exact dated_arrayValue? h

theorem dated_objectValue? : ∀ {members : List (String × Json)} {props : List (String × Element)},
    objectValue? members = some props → ∀ x ∈ Entries.values props, x.Dated
  | [], _, h => by cases h
  | (name, value) :: rest, props, h => by
      unfold objectValue? at h
      split_ifs at h
      · cases value with
        | object records => exact dated_propsOfRecord? h
        | _ => cases h
      · exact dated_objectValue? h

theorem dated_itemsOfRecord? : ∀ {records : List Json} {items : List Element},
    itemsOfRecord? records = some items → ∀ x ∈ items, x.Dated
  | [], _, h => by
      cases h
      exact nofun
  | record :: rest, items, h => by
      rw [itemsOfRecord?] at h
      obtain ⟨item, hitem, h⟩ := Option.bind_eq_some_iff.1 h
      obtain ⟨others, hothers, h⟩ := Option.bind_eq_some_iff.1 h
      cases h
      exact List.forall_mem_cons.2 ⟨dated_ofRecord? hitem, dated_itemsOfRecord? hothers⟩

theorem dated_propsOfRecord? : ∀ {records : List (String × Json)} {props : List (String × Element)},
    propsOfRecord? records = some props → ∀ x ∈ Entries.values props, x.Dated
  | [], _, h => by
      cases h
      exact nofun
  | (name, record) :: rest, props, h => by
      rw [propsOfRecord?] at h
      obtain ⟨item, hitem, h⟩ := Option.bind_eq_some_iff.1 h
      obtain ⟨others, hothers, h⟩ := Option.bind_eq_some_iff.1 h
      cases h
      exact List.forall_mem_cons.2 ⟨dated_ofRecord? hitem, dated_propsOfRecord? hothers⟩

end

end Element
end CoEdit
