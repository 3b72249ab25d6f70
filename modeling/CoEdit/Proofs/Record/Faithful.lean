import CoEdit.Proofs.Record.Operation
import CoEdit.Record.Control
import CoEdit.Record.Path
import CoEdit.Record.Reference

/-!
# Records are faithful

Elements, edits, operations, references, paths, settings and messages are read back as they were written, and
every operation that is read passes the check of new edits and can be written again (`Record.records_faithful`). What
can be written are finite numbers and integers that are words.
-/
namespace CoEdit

/-! ## References and paths -/

def Anchors.indices : Anchors → List Nat
  | .positions ps => ps
  | .ranges rs => rs.flatMap fun r => [r.1, r.2]
  | _ => []

def Path.indices (path : Path) : List Nat :=
  path.filterMap Path.Step.index?

theorem rangeOfRecord?_rangeToRecord {range : Nat × Nat} (hlow : range.1 < Word.bound)
    (hhigh : range.2 < Word.bound) : rangeOfRecord? (rangeToRecord range) = some range := by
  rw [rangeToRecord, rangeOfRecord?, Json.toWord?_ofNat hlow, Json.toWord?_ofNat hhigh]
  rfl

namespace Anchors

variable {anchors : Anchors}

theorem ofValues?_values (h : ∀ i ∈ anchors.indices, i < Word.bound) :
    ofValues? anchors.kindName anchors.values = some anchors := by
  cases anchors with
  | positions ps =>
      have hps : (ps.map Json.ofNat).mapM Json.toWord? = some ps :=
        Json.mapM_map_eq_pure fun p hp => Json.toWord?_ofNat (h p hp)
      simp [ofValues?, values, kindName, Json.ofList, Json.toArray?, -List.mapM_map, hps]
  | ranges rs =>
      have hrs : (rs.map rangeToRecord).mapM rangeOfRecord? = some rs :=
        Json.mapM_map_eq_pure fun r hr => rangeOfRecord?_rangeToRecord
          (h _ (List.mem_flatMap.2 ⟨r, hr, List.mem_cons_self⟩))
          (h _ (List.mem_flatMap.2 ⟨r, hr, List.mem_cons_of_mem _ List.mem_cons_self⟩))
      simp [ofValues?, values, kindName, Json.ofList, Json.toArray?, -List.mapM_map, hrs]
  | properties names | elements names =>
      have hnames : (names.map Json.string).mapM Json.toString? = some names :=
        Json.mapM_map_eq_pure fun name _ => rfl
      simp [ofValues?, values, kindName, Json.ofList, Json.toArray?, -List.mapM_map, hnames]

theorem ofRecord?_toRecord (h : ∀ i ∈ anchors.indices, i < Word.bound) :
    ofRecord? anchors.toRecord = some anchors := by
  simp [ofRecord?, toRecord, Entries.find?_cons, Json.tag?, ofValues?_values h]

end Anchors

theorem Reference.ofRecord?_toRecord {reference : Reference}
    (h : ∀ i ∈ reference.anchors.indices, i < Word.bound) :
    ofRecord? reference.toRecord = some reference := by
  obtain ⟨owner, session, key, anchors⟩ := reference
  have hanchors := Anchors.ofRecord?_toRecord h
  cases owner <;>
    simp [ofRecord?, toRecord, Json.fields?, Json.ofOption, Entries.find?_cons, Json.toString?, hanchors]

theorem Path.ofRecord?_toRecord {path : Path} (h : ∀ i ∈ path.indices, i < Word.bound) :
    ofRecord? path.toRecord = some path := by
  refine Json.mapM_map_eq_pure fun step hstep => ?_
  cases step with
  | index i =>
      have hi := Json.toWord?_ofNat (h i (List.mem_filterMap.2 ⟨_, hstep, rfl⟩))
      change ((Json.ofNat i).toWord?).map Step.index = some (.index i)
      rw [hi, Option.map_some]
  | key k => rfl

/-! ## Settings and messages -/

namespace ControlConfig

-- what is read stands for any record here, for a word that is written out would be unfolded up to its bound
theorem ofRecord?_object {limit : Json} {n : Nat} (h : limit.toWord? = some n) :
    ofRecord? (.object [("maxPending", limit)]) = some ⟨n⟩ := by
  simp [ofRecord?, Json.fields?, Entries.find?_cons, h]

theorem ofRecord?_toRecord {config : ControlConfig} (h : config.maxPending < Word.bound) :
    ofRecord? config.toRecord = some config :=
  ofRecord?_object (Json.toWord?_ofNat h)

end ControlConfig

namespace Incoming

/-- The version is a word and the operation can be written. -/
structure Storable (incoming : Incoming) : Prop where
  version : incoming.version < Word.bound
  operation : ∀ edit ∈ incoming.operation.edits, edit.Storable

variable {incoming : Incoming}

theorem ofRecord_object {version record : Json} {n : Nat} {operation : Operation}
    (hversion : version.toWord? = some n) (hoperation : Operation.ofRecord record = .ok operation) :
    ofRecord (.object [("version", version), ("operation", record)]) = .ok ⟨n, operation⟩ := by
  simp [ofRecord, Json.fields?, Entries.find?_cons, RecordError.ofOption, hversion, hoperation, bind,
    Except.bind, pure, Except.pure]

theorem ofRecord_toRecord (h : incoming.Storable) : ofRecord incoming.toRecord = .ok incoming :=
  ofRecord_object (Json.toWord?_ofNat h.version) (Operation.ofRecord_toRecord h.operation)

theorem storable_of_ofRecord (record : Json) : SatisfiesM Storable (ofRecord record) := by
  unfold ofRecord
  refine SatisfiesM.trivial.bind fun members _ => ?_
  refine (RecordError.satisfiesM_ofOption (Json.lt_of_bind_toWord? _)).bind fun version hversion => ?_
  refine SatisfiesM.trivial.bind fun operation _ => ?_
  exact (Operation.storable_of_ofRecord operation).bind fun operation hoperation =>
    .pure ⟨hversion, hoperation⟩

end Incoming
namespace Outgoing

structure Storable (outgoing : Outgoing) : Prop where
  sequence : outgoing.sequence < Word.bound
  contextVersion : outgoing.contextVersion < Word.bound
  operation : ∀ edit ∈ outgoing.operation.edits, edit.Storable

variable {outgoing : Outgoing}

theorem ofRecord_object {sequence version record : Json} {k n : Nat} {operation : Operation}
    (hsequence : sequence.toWord? = some k) (hversion : version.toWord? = some n)
    (hoperation : Operation.ofRecord record = .ok operation) :
    ofRecord (.object [("seqNo", sequence), ("contextVersion", version), ("operation", record)]) =
      .ok ⟨k, n, operation⟩ := by
  simp [ofRecord, Json.fields?, Entries.find?_cons, RecordError.ofOption, hsequence, hversion, hoperation,
    bind, Except.bind, pure, Except.pure]

theorem ofRecord_toRecord (h : outgoing.Storable) : ofRecord outgoing.toRecord = .ok outgoing :=
  ofRecord_object (Json.toWord?_ofNat h.sequence) (Json.toWord?_ofNat h.contextVersion)
    (Operation.ofRecord_toRecord h.operation)

theorem storable_of_ofRecord (record : Json) : SatisfiesM Storable (ofRecord record) := by
  unfold ofRecord
  refine SatisfiesM.trivial.bind fun members _ => ?_
  refine (RecordError.satisfiesM_ofOption (Json.lt_of_bind_toWord? _)).bind fun sequence hsequence => ?_
  refine (RecordError.satisfiesM_ofOption (Json.lt_of_bind_toWord? _)).bind fun version hversion => ?_
  refine SatisfiesM.trivial.bind fun operation _ => ?_
  exact (Operation.storable_of_ofRecord operation).bind fun operation hoperation =>
    .pure ⟨hsequence, hversion, hoperation⟩

end Outgoing

/-! ## All records -/

namespace Record

/-- Nothing is lost by writing and reading. The integers that can be written are words, as indices and versions
are, and words with a sign, as dates are; the numbers that can be written are finite. What is read passes the
check of new edits and can be written again. -/
structure Faithful : Prop where
  element : ∀ {tree : Element}, tree.firstNonFinite? = none → tree.Dated →
    Element.ofRecord? tree.toRecord = some tree
  edit : ∀ {edit : Edit}, edit.change.validate = .ok () → edit.change.Worded →
    Edit.ofRecord edit.toRecord = .ok edit
  operation : ∀ {operation : Operation},
    (∀ edit ∈ operation.edits, edit.change.validate = .ok () ∧ edit.change.Worded) →
      Operation.ofRecord operation.toRecord = .ok operation
  reference : ∀ {reference : Reference}, (∀ i ∈ reference.anchors.indices, i < Word.bound) →
    Reference.ofRecord? reference.toRecord = some reference
  path : ∀ {path : Path}, (∀ i ∈ path.indices, i < Word.bound) →
    Path.ofRecord? path.toRecord = some path
  config : ∀ {config : ControlConfig}, config.maxPending < Word.bound →
    ControlConfig.ofRecord? config.toRecord = some config
  incoming : ∀ {incoming : Incoming}, incoming.Storable → Incoming.ofRecord incoming.toRecord = .ok incoming
  outgoing : ∀ {outgoing : Outgoing}, outgoing.Storable → Outgoing.ofRecord outgoing.toRecord = .ok outgoing
  editRead : ∀ {record : Json} {edit : Edit}, Edit.ofRecord record = .ok edit →
    edit.change.validate = .ok () ∧ Edit.ofRecord edit.toRecord = .ok edit
  operationRead : ∀ {record : Json} {operation : Operation}, Operation.ofRecord record = .ok operation →
    (∀ edit ∈ operation.edits, edit.change.validate = .ok ()) ∧
      Operation.ofRecord operation.toRecord = .ok operation
  incomingRead : ∀ {record : Json} {incoming : Incoming}, Incoming.ofRecord record = .ok incoming →
    (∀ edit ∈ incoming.operation.edits, edit.change.validate = .ok ()) ∧
      Incoming.ofRecord incoming.toRecord = .ok incoming
  outgoingRead : ∀ {record : Json} {outgoing : Outgoing}, Outgoing.ofRecord record = .ok outgoing →
    (∀ edit ∈ outgoing.operation.edits, edit.change.validate = .ok ()) ∧
      Outgoing.ofRecord outgoing.toRecord = .ok outgoing

theorem records_faithful : Faithful where
  element := Element.ofRecord?_toRecord
  edit hvalid hworded := Edit.ofRecord_toRecord ⟨hvalid, hworded⟩
  operation h := Operation.ofRecord_toRecord fun edit hedit => ⟨(h edit hedit).1, (h edit hedit).2⟩
  reference := Reference.ofRecord?_toRecord
  path := Path.ofRecord?_toRecord
  config := ControlConfig.ofRecord?_toRecord
  incoming := Incoming.ofRecord_toRecord
  outgoing := Outgoing.ofRecord_toRecord
  editRead {record edit} h := by
    have hstorable := SatisfiesM_Except_eq.1 (Edit.storable_of_ofRecord record) edit h
    exact ⟨hstorable.valid, Edit.ofRecord_toRecord hstorable⟩
  operationRead {record operation} h := by
    have hstorable := SatisfiesM_Except_eq.1 (Operation.storable_of_ofRecord record) operation h
    exact ⟨fun edit hedit => (hstorable edit hedit).valid, Operation.ofRecord_toRecord hstorable⟩
  incomingRead {record incoming} h := by
    have hstorable := SatisfiesM_Except_eq.1 (Incoming.storable_of_ofRecord record) incoming h
    exact ⟨fun edit hedit => (hstorable.operation edit hedit).valid, Incoming.ofRecord_toRecord hstorable⟩
  outgoingRead {record outgoing} h := by
    have hstorable := SatisfiesM_Except_eq.1 (Outgoing.storable_of_ofRecord record) outgoing h
    exact ⟨fun edit hedit => (hstorable.operation edit hedit).valid, Outgoing.ofRecord_toRecord hstorable⟩

/-- Puts an object with properties out of order, a negative zero and the least date at the largest index, for
nothing, and reverses two rows. -/
def dispatch : Outgoing where
  sequence := 18446744073709551615
  contextVersion := 0
  operation := .compound [
    ⟨"rows", .array (.insert 18446744073709551615 (.mk "new" (.object [
      ("b", .mk "list" (.array [.mk "zero" (.number (-0.0)), .mk "none" .null])),
      ("a", .mk "day" (.date (-9223372036854775808)))]))), true⟩,
    ⟨"rows", .array (.reorder [1, 0]), false⟩]

theorem records_faithful_dispatch : Outgoing.ofRecord dispatch.toRecord = .ok dispatch :=
  records_faithful.outgoing ⟨by decide +kernel, by decide +kernel, by decide +kernel⟩

end Record
end CoEdit
