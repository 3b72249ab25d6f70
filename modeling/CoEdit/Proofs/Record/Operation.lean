import CoEdit.Proofs.Record.Element
import CoEdit.Record.Operation

/-!
# Operations survive being written

An edit is read back as it was written if it passes the check of new edits and its indices and dates are words
(`Edit.ofRecord_toRecord`). Every edit that is read is of this sort (`Edit.storable_of_ofRecord`), and so is
every part of an operation that is read.
-/
namespace CoEdit

namespace Change

variable {change : Change} {kind : ChangeKind} {members others : List (String × Json)}

/-- The indices that a change names. -/
def indices : Change → List Nat
  | .array (.insert index _) | .array (.remove index) | .array (.replace index _) => [index]
  | .array (.move source target) => [source, target]
  | .array (.reorder order) => order
  | .string (.insert index _) | .string (.remove index _) => [index]
  | _ => []

/-- The dates that a change names itself. -/
def dates : Change → List Int
  | .dateSet millis => [millis]
  | _ => []

/-- The integers of a change are words: its indices, and with a sign its own date and the dates of what it
brings along. -/
structure Worded (change : Change) : Prop where
  indices : ∀ i ∈ change.indices, i < Word.bound
  dates : ∀ ms ∈ change.dates, Word.signed? ms = some ms
  payload : ∀ value ∈ change.payload, value.Dated

instance (change : Change) : Decidable change.Worded :=
  decidable_of_iff ((∀ i ∈ change.indices, i < Word.bound) ∧
    (∀ ms ∈ change.dates, Word.signed? ms = some ms) ∧ ∀ value ∈ change.payload, value.Dated)
    ⟨fun h => ⟨h.1, h.2.1, h.2.2⟩, fun h => ⟨h.indices, h.dates, h.payload⟩⟩

/-! ## Writing and reading -/

theorem bind_of_found {α : Type} {name : String} {record : Json} {f : Json → Option α} {a : α}
    (hfound : Entries.find? name members = some record) (hread : f record = some a) :
    (Entries.find? name members).bind f = some a := by
  rw [hfound, Option.bind_some, hread]

/-- A change is read back wherever its parts are found. -/
theorem ofParts?_of_found (hfinite : change.firstNonFinite? = none) (hworded : change.Worded)
    (hfound : ∀ part ∈ change.parts, Entries.find? part.1 members = some part.2) :
    ofParts? change.kind members = some change := by
  have hwords : ∀ i ∈ change.indices, (Json.ofNat i).toWord? = some i :=
    fun i hi => Json.toWord?_ofNat (hworded.indices i hi)
  have htrees : ∀ value ∈ change.payload, Element.ofRecord? value.toRecord = some value :=
    fun value hvalue => Element.ofRecord?_toRecord (finite_payload hfinite value hvalue)
      (hworded.payload value hvalue)
  cases change with
  | array c =>
      cases c with
      | insert index value | replace index value =>
          simp only [parts, List.forall_mem_cons] at hfound
          have hindex := bind_of_found hfound.1 (hwords index List.mem_cons_self)
          have hvalue := bind_of_found hfound.2.1 (htrees value List.mem_cons_self)
          simp [ofParts?, kind, ArrayChange.kind, hindex, hvalue]
      | remove index =>
          simp only [parts, List.forall_mem_cons] at hfound
          have hindex := bind_of_found hfound.1 (hwords index List.mem_cons_self)
          simp [ofParts?, kind, ArrayChange.kind, hindex]
      | move source target =>
          simp only [parts, List.forall_mem_cons] at hfound
          have hsource := bind_of_found hfound.1 (hwords source List.mem_cons_self)
          have htarget := bind_of_found hfound.2.1
            (hwords target (List.mem_cons_of_mem _ List.mem_cons_self))
          simp [ofParts?, kind, ArrayChange.kind, hsource, htarget]
      | reorder order =>
          simp only [parts, List.forall_mem_cons] at hfound
          have hlist := bind_of_found hfound.1 (f := Json.toArray?) rfl
          have horder : (order.map Json.ofNat).mapM Json.toWord? = some order :=
            Json.mapM_map_eq_pure hwords
          simp [ofParts?, kind, ArrayChange.kind, hlist, -List.mapM_map, horder]
      | set values =>
          simp only [parts, List.forall_mem_cons] at hfound
          have hlist := bind_of_found hfound.1 (f := Json.toArray?) rfl
          have hvalues : Element.itemsOfRecord? (Element.itemsToRecord values) = some values :=
            Element.itemsOfRecord?_itemsToRecord htrees
          simp [ofParts?, kind, ArrayChange.kind, hlist, hvalues]
  | string c =>
      cases c with
      | insert index text | remove index text =>
          simp only [parts, List.forall_mem_cons] at hfound
          have hindex := bind_of_found hfound.1 (hwords index List.mem_cons_self)
          have htext := bind_of_found hfound.2.1 (f := Json.toString?) rfl
          simp [ofParts?, kind, StringChange.kind, hindex, htext]
      | set text =>
          simp only [parts, List.forall_mem_cons] at hfound
          have htext := bind_of_found hfound.1 (f := Json.toString?) rfl
          simp [ofParts?, kind, StringChange.kind, htext]
  | object c =>
      cases c with
      | add prop value | assign prop value =>
          simp only [parts, List.forall_mem_cons] at hfound
          have hprop := bind_of_found hfound.1 (f := Json.toString?) rfl
          have hvalue := bind_of_found hfound.2.1 (htrees value List.mem_cons_self)
          simp [ofParts?, kind, ObjectChange.kind, hprop, hvalue]
      | remove prop =>
          simp only [parts, List.forall_mem_cons] at hfound
          have hprop := bind_of_found hfound.1 (f := Json.toString?) rfl
          simp [ofParts?, kind, ObjectChange.kind, hprop]
      | set props =>
          simp only [parts, List.forall_mem_cons] at hfound
          have hlist := bind_of_found hfound.1 (f := Json.toObject?) rfl
          have hprops : Element.propsOfRecord? (Element.propsToRecord props) = some props :=
            Element.propsOfRecord?_propsToRecord htrees
          simp [ofParts?, kind, ObjectChange.kind, hlist, hprops]
  | number c =>
      have hamount := finite_amount hfinite
      cases c with
      | delta amount | set amount =>
          simp only [parts, List.forall_mem_cons] at hfound
          have hvalue := bind_of_found hfound.1 (Json.toFloat?_ofFloat hamount)
          simp [ofParts?, kind, NumberChange.kind, hvalue]
  | booleanSet value =>
      simp only [parts, List.forall_mem_cons] at hfound
      have hvalue := bind_of_found hfound.1 (f := Json.toBool?) rfl
      simp [ofParts?, kind, hvalue]
  | dateSet millis =>
      simp only [parts, List.forall_mem_cons] at hfound
      have hmillis := bind_of_found hfound.1 (f := Json.toSigned?)
        (hworded.dates millis List.mem_cons_self)
      simp [ofParts?, kind, hmillis]

theorem worded_of_ofParts? (h : ofParts? kind members = some change) : change.Worded := by
  cases kind <;> simp only [ofParts?, Option.bind_eq_bind, Option.bind_eq_some_iff, Option.pure_def,
    Option.some.injEq] at h
  case arrayInsert | arrayReplace =>
    obtain ⟨index, ⟨_, -, hindex⟩, value, ⟨_, -, hvalue⟩, rfl⟩ := h
    exact ⟨List.forall_mem_singleton.2 (Json.lt_of_toWord? hindex), nofun,
      List.forall_mem_singleton.2 (Element.dated_ofRecord? hvalue)⟩
  case arrayRemove =>
    obtain ⟨index, ⟨_, -, hindex⟩, rfl⟩ := h
    exact ⟨List.forall_mem_singleton.2 (Json.lt_of_toWord? hindex), nofun, nofun⟩
  case arrayMove =>
    obtain ⟨source, ⟨_, -, hsource⟩, target, ⟨_, -, htarget⟩, rfl⟩ := h
    exact ⟨List.forall_mem_cons.2 ⟨Json.lt_of_toWord? hsource,
      List.forall_mem_singleton.2 (Json.lt_of_toWord? htarget)⟩, nofun, nofun⟩
  case arrayReorder =>
    obtain ⟨records, -, order, horder, rfl⟩ := h
    have hwords := SatisfiesM_Option_eq.1 (Json.satisfiesM_mapM fun record _ =>
      SatisfiesM_Option_eq.2 fun i hi => Json.lt_of_toWord? hi) order horder
    exact ⟨hwords, nofun, nofun⟩
  case arraySet =>
    obtain ⟨records, -, values, hvalues, rfl⟩ := h
    exact ⟨nofun, nofun, Element.dated_itemsOfRecord? hvalues⟩
  case stringInsert | stringRemove =>
    obtain ⟨index, ⟨_, -, hindex⟩, text, -, rfl⟩ := h
    exact ⟨List.forall_mem_singleton.2 (Json.lt_of_toWord? hindex), nofun, nofun⟩
  case objectAdd | objectAssign =>
    obtain ⟨prop, -, value, ⟨_, -, hvalue⟩, rfl⟩ := h
    exact ⟨nofun, nofun, List.forall_mem_singleton.2 (Element.dated_ofRecord? hvalue)⟩
  case objectSet =>
    obtain ⟨records, -, props, hprops, rfl⟩ := h
    exact ⟨nofun, nofun, Element.dated_propsOfRecord? hprops⟩
  case dateSet =>
    obtain ⟨ms, ⟨_, -, hms⟩, rfl⟩ := h
    exact ⟨nofun, List.forall_mem_singleton.2 (Json.signed_of_toSigned? hms), nofun⟩
  case stringSet | objectRemove | numberDelta | numberSet | booleanSet =>
    obtain ⟨_, -, rfl⟩ := h
    exact ⟨nofun, nofun, nofun⟩

end Change

theorem RecordError.satisfiesM_ofOption {α : Type} {p : α → Prop} {found : Option α}
    (h : SatisfiesM p found) : SatisfiesM p (ofOption found) := by
  cases found with
  | none => exact SatisfiesM_Except_eq.2 nofun
  | some a => exact .pure (SatisfiesM_Option_eq.1 h a rfl)

namespace Edit

variable {edit : Edit}

/-- The edit can be written: its change passes the check of new edits, and its integers are words. -/
structure Storable (edit : Edit) : Prop where
  valid : edit.change.validate = .ok ()
  worded : edit.change.Worded

instance (edit : Edit) : Decidable edit.Storable :=
  decidable_of_iff (edit.change.validate = .ok () ∧ edit.change.Worded)
    ⟨fun h => ⟨h.1, h.2⟩, fun h => ⟨h.valid, h.worded⟩⟩

theorem distinct_members (edit : Edit) :
    Entries.Distinct (("id", .string edit.target) :: ("noOp", .boolean edit.inert) ::
      ("type", .string edit.kind.name) :: edit.change.parts) := by
  have hnames (kind : ChangeKind) : ("id" :: "noOp" :: "type" :: kind.partNames).Nodup := by
    cases kind <;> decide
  have hkind := hnames edit.kind
  rwa [kind, ← Change.names_parts] at hkind

theorem readRecord?_toRecord (h : edit.Storable) :
    readRecord? edit.toRecord = some (edit.target, edit.change, edit.inert) := by
  obtain ⟨members, hmembers⟩ : ∃ members, members = ("id", Json.string edit.target) ::
    ("noOp", .boolean edit.inert) :: ("type", .string edit.kind.name) :: edit.change.parts := ⟨_, rfl⟩
  have hfound : ∀ p ∈ members, Entries.find? p.1 members = some p.2 := fun p hp =>
    Entries.find?_of_mem (hmembers ▸ edit.distinct_members) hp
  rw [toRecord, ← hmembers]
  simp only [hmembers, List.forall_mem_cons] at hfound
  rw [← hmembers] at hfound
  obtain ⟨htarget, hinert, hkind, hparts⟩ := hfound
  have hchange : Change.ofParts? edit.kind members = some edit.change :=
    Change.ofParts?_of_found ((Change.validate_eq_ok_iff _).1 h.valid).1 h.worded hparts
  have hname : ChangeKind.ofRecord? (.string edit.kind.name) = some edit.kind :=
    ChangeKind.ofName?_name edit.kind
  simp [readRecord?, Json.toObject?, htarget, hinert, hkind, hname, hchange, Json.toString?,
    Json.toBool?]

/-- An edit is read back as it was written. -/
theorem ofRecord_toRecord (h : edit.Storable) : ofRecord edit.toRecord = .ok edit := by
  simp only [ofRecord, readRecord?_toRecord h, RecordError.ofOption, make, h.valid, bind, Except.bind]
  rfl

theorem worded_of_readRecord? (record : Json) :
    SatisfiesM (fun parts => parts.2.1.Worded) (readRecord? record) := by
  unfold readRecord?
  refine SatisfiesM.trivial.bind fun members _ => SatisfiesM.trivial.bind fun target _ => ?_
  have hrest (inert : Bool) : SatisfiesM (fun parts => parts.2.1.Worded) (do
      let kind ← (Entries.find? "type" members).bind ChangeKind.ofRecord?
      return (target, ← Change.ofParts? kind members, inert)) := by
    refine SatisfiesM.trivial.bind fun kind _ => ?_
    have hchange : SatisfiesM Change.Worded (Change.ofParts? kind members) :=
      SatisfiesM_Option_eq.2 fun change => Change.worded_of_ofParts?
    exact hchange.bind fun change hworded => .pure hworded
  dsimp only
  split
  · exact SatisfiesM.trivial.bind fun inert _ => hrest inert
  · exact SatisfiesM.trivial.bind fun inert _ => hrest inert

theorem storable_of_ofRecord (record : Json) : SatisfiesM Storable (ofRecord record) := by
  have hread := RecordError.satisfiesM_ofOption (worded_of_readRecord? record)
  refine hread.bind fun ⟨target, change, inert⟩ hworded => ?_
  dsimp only [make]
  cases hvalid : change.validate with
  | error e => exact SatisfiesM_Except_eq.2 nofun
  | ok => exact .pure ⟨hvalid, hworded⟩

end Edit

namespace Operation

variable {operation : Operation}

/-- An operation is read back as it was written. -/
theorem ofRecord_toRecord (h : ∀ edit ∈ operation.edits, edit.Storable) :
    ofRecord operation.toRecord = .ok operation := by
  cases operation with
  | discrete edit =>
      have hedit := Edit.ofRecord_toRecord (h edit List.mem_cons_self)
      simp only [toRecord, ofRecord, hedit]
      rfl
  | compound edits =>
      have hedits : (edits.map Edit.toRecord).mapM Edit.ofRecord = .ok edits :=
        Json.mapM_map_eq_pure fun edit hedit => Edit.ofRecord_toRecord (h edit hedit)
      simp only [toRecord, ofRecord, Json.fields?, Entries.find?_cons, if_true, RecordError.ofOption,
        Option.bind_some, Json.ofList, Json.toArray?, bind, Except.bind, hedits]
      rfl

theorem storable_of_ofRecord (record : Json) :
    SatisfiesM (fun operation => ∀ edit ∈ operation.edits, edit.Storable) (ofRecord record) := by
  unfold ofRecord
  split
  · exact (Edit.storable_of_ofRecord _).bind fun edit hedit =>
      .pure (List.forall_mem_singleton.2 hedit)
  · refine SatisfiesM.trivial.bind fun members _ => SatisfiesM.trivial.bind fun records _ => ?_
    exact (Json.satisfiesM_mapM fun record _ => Edit.storable_of_ofRecord record).bind
      fun edits hedits => .pure hedits
  · exact SatisfiesM_Except_eq.2 nofun

end Operation
end CoEdit
