import CoEdit.Proofs.Document.Apply
import CoEdit.Proofs.Document.Trees

/-!
# Documents show shadows

A document shows a shadow if every attached element shows what the shadow says of it. Applying edits to
the document then follows the shadow (`Shows.applyEdits`), provided that what the edits bring along is
new and told by the shadow beforehand (`Ready`). An edit whose target is not attached changes the shadow
only. Two documents with one root that show one shadow agree (`Shows.agrees`), and a document that
agrees with another shows what that one shows (`Shows.of_agrees`).
-/
namespace CoEdit

/-- The elements that an edit would bring along, in force or not. -/
def Edit.arrivals (edit : Edit) : List Element :=
  edit.change.payload.flatMap Element.preorder

def arrivals (edits : List Edit) : List Element :=
  edits.flatMap Edit.arrivals

def arrivalIds (edits : List Edit) : List ElementId :=
  (arrivals edits).map Element.id

theorem arrivals_cons (edit : Edit) (edits : List Edit) :
    arrivals (edit :: edits) = edit.arrivals ++ arrivals edits := rfl

theorem arrivals_append (front back : List Edit) :
    arrivals (front ++ back) = arrivals front ++ arrivals back :=
  List.flatMap_append

theorem arrivalIds_cons (edit : Edit) (edits : List Edit) :
    arrivalIds (edit :: edits) = edit.change.payload.flatMap Element.ids ++ arrivalIds edits := by
  rw [arrivalIds, arrivals_cons, List.map_append, Edit.arrivals, List.map_flatMap]
  rfl

theorem arrivalIds_append (front back : List Edit) :
    arrivalIds (front ++ back) = arrivalIds front ++ arrivalIds back := by
  rw [arrivalIds, arrivals_append, List.map_append]
  rfl

theorem arrivalIds_flatMap {α : Type} (f : α → List Edit) (l : List α) :
    arrivalIds (l.flatMap f) = l.flatMap fun a => arrivalIds (f a) := by
  rw [arrivalIds, arrivals, List.flatMap_assoc, List.map_flatMap]
  rfl

theorem RebasedAll.arrivals_eq {edits left : List Edit} (h : RebasedAll edits left) :
    arrivals left = arrivals edits := by
  induction h with
  | nil => rfl
  | cons hedit _ ih => rw [arrivals_cons, arrivals_cons, ih, Edit.arrivals, Edit.arrivals,
      hedit.change.payload]

theorem RebasedAll.arrivalIds_eq {edits left : List Edit} (h : RebasedAll edits left) :
    arrivalIds left = arrivalIds edits := by
  rw [arrivalIds, h.arrivals_eq, arrivalIds]

/-- No edit in force is aimed at one of `ids`. -/
def Spares (ids : List ElementId) (edits : List Edit) : Prop :=
  ∀ edit ∈ edits, edit.inert = false → edit.target ∉ ids

/-- No edit in force is aimed at what it or a later one brings along. -/
def Ordered : List Edit → Prop
  | [] => True
  | edit :: rest =>
      (edit.inert = false → edit.target ∉ arrivalIds (edit :: rest)) ∧ Ordered rest

theorem ordered_append {front back : List Edit} : Ordered (front ++ back) ↔
    Ordered front ∧ Ordered back ∧ Spares (arrivalIds back) front := by
  induction front with
  | nil => simp [Ordered, Spares]
  | cons edit rest ih =>
      simp only [List.cons_append, Ordered, ih, Spares, List.forall_mem_cons, arrivalIds_cons,
        arrivalIds_append, List.mem_append, not_or]
      constructor
      · rintro ⟨hedit, hrest, hback, hspares⟩
        exact ⟨⟨fun h => ⟨(hedit h).1, (hedit h).2.1⟩, hrest⟩, hback,
          fun h => (hedit h).2.2, hspares⟩
      · rintro ⟨⟨hedit, hrest⟩, hback, hedit', hspares⟩
        exact ⟨fun h => ⟨(hedit h).1, (hedit h).2, hedit' h⟩, hrest, hback, hspares⟩

theorem Ordered.rebased {edits left : List Edit} (h : Ordered edits)
    (hleft : RebasedAll edits left) : Ordered left := by
  induction hleft with
  | nil => trivial
  | cons hedit hrest ih =>
      refine ⟨fun hactive => ?_, ih h.2⟩
      rw [hedit.target, RebasedAll.arrivalIds_eq (.cons hedit hrest)]
      exact h.1 (hedit.active hactive)

namespace Document

variable {doc next : Document} {shadow after : Shadow} {edit : Edit} {edits rest : List Edit}

/-- Every attached element shows what the shadow says of it. -/
structure Shows (doc : Document) (shadow : Shadow) : Prop where
  sound : doc.Sound
  view : ∀ {id node}, Entries.find? id doc.nodes = some node → node.content.view = shadow id

/-- The edits are legal, and what they bring along is new to the document and told by the shadow. -/
structure Brings (doc : Document) (shadow : Shadow) (edits : List Edit) : Prop where
  legal : ∀ edit ∈ edits, edit.change.Legal
  nodup : (arrivalIds edits).Nodup
  fresh : ∀ id ∈ arrivalIds edits, doc.contains id = false
  told : ∀ x ∈ arrivals edits, x.view = shadow x.id

/-- Nor is anything aimed at before it has come. -/
structure Ready (doc : Document) (shadow : Shadow) (edits : List Edit) : Prop
    extends Brings doc shadow edits where
  ordered : Ordered edits

/-- Edit after edit finds its target attached and is taken, with checked sums. -/
def Accepts (doc : Document) : List Edit → Prop
  | [] => True
  | edit :: rest =>
      (edit.inert = false → doc.contains edit.target = true) ∧
        ∃ record next, doc.applyEdit edit = .ok (record, next) ∧ next.Accepts rest

instance decidableAccepts (doc : Document) (edits : List Edit) : Decidable (doc.Accepts edits) :=
  match edits with
  | [] => isTrue trivial
  | edit :: rest =>
      match happly : doc.applyEdit edit with
      | .error _ | .overflow => isFalse fun h => by
          obtain ⟨-, record, next, hok, -⟩ := h
          rw [happly] at hok
          cases hok
      | .ok (_, next) =>
          have := decidableAccepts next rest
          decidable_of_iff
            ((edit.inert = false → doc.contains edit.target = true) ∧ next.Accepts rest)
            ⟨fun h => ⟨h.1, _, next, happly, h.2⟩, fun h => by
              obtain ⟨hattached, record, next', hok, hrest⟩ := h
              rw [happly] at hok
              cases hok
              exact ⟨hattached, hrest⟩⟩

/-- Nothing is attached to `next` but what was attached to `doc` and what is listed. -/
def Gains (doc next : Document) (ids : List ElementId) : Prop :=
  ∀ id, next.contains id = true → doc.contains id = true ∨ id ∈ ids

theorem Gains.fresh {news others : List ElementId} (hgains : doc.Gains next others)
    (hnew : ∀ id ∈ news, doc.contains id = false) (hapart : ∀ id ∈ others, id ∉ news) :
    ∀ id ∈ news, next.contains id = false := by
  intro id hid
  cases hcontains : next.contains id with
  | false => rfl
  | true =>
      rcases hgains id hcontains with hold | hother
      · rw [hnew id hid] at hold
        cases hold
      · exact absurd hid (hapart id hother)

theorem view_payload {value x : Element} (hvalue : value ∈ edit.change.payload)
    (hx : x ∈ value.preorder) : x ∈ arrivals (edit :: rest) :=
  List.mem_append_left _ (List.mem_flatMap.2 ⟨value, hvalue, hx⟩)

/-- An edit that carries out a plan takes the document along with the shadow. -/
theorem Shows.acted (h : doc.Shows shadow) (hbrings : doc.Brings shadow (edit :: rest))
    (haim : edit.inert = false → edit.target ∉ arrivalIds (edit :: rest)) {node : Node}
    {revision : Revision} (hacted : doc.Acted edit node revision) :
    (doc.revised edit revision).Shows
        (Function.update shadow edit.target revision.content.view) ∧
      doc.Gains (doc.revised edit revision) (edit.change.payload.flatMap Element.ids) := by
  have hregular := (hbrings.legal edit List.mem_cons_self).regular
  have hgrafts := hacted.grafts h.sound hregular
  have hadded := (fits_revise h.sound (h.sound.keyed hacted.found) hregular.lawful
    hacted.planned).added
  have hnot := haim hacted.active
  rw [arrivalIds_cons, List.mem_append, not_or] at hnot
  have hnew {id : ElementId} {placed : Node}
      (hplaced : (id, placed) ∈ revision.added.flatMap (Element.placed (some edit.target))) :
      ∃ x ∈ arrivals (edit :: rest), x.id = id ∧ x.content.map Element.id = placed.content ∧
        id ∈ edit.change.payload.flatMap Element.ids := by
    have hmem := mem_added_ids hplaced
    rw [hadded] at hplaced hmem
    obtain ⟨value, hvalue, hplaced⟩ := List.mem_flatMap.1 hplaced
    obtain ⟨x, hx, hid, hcontent⟩ := Element.exists_of_mem_placed hplaced
    exact ⟨x, view_payload hvalue hx, hid, hcontent, hmem⟩
  refine ⟨⟨hgrafts.sound h.sound, ?_⟩, ?_⟩
  · intro id placed hfound
    rcases hgrafts.cases_find? h.sound hfound with hplaced | ⟨rfl, rfl⟩ | ⟨hne, -, hbefore⟩
    · obtain ⟨x, hx, rfl, hcontent, hmem⟩ := hnew hplaced
      have hne : x.id ≠ edit.target := fun heq => hnot.1 (heq ▸ hmem)
      rw [Function.update_of_ne hne, ← hbrings.told x hx, ← hcontent]
      rfl
    · rw [Function.update_self]
    · rw [Function.update_of_ne hne, h.view hbefore]
  · intro id hid
    obtain ⟨placed, hfound⟩ := contains_iff.1 hid
    rcases hgrafts.cases_find? h.sound hfound with hplaced | ⟨rfl, -⟩ | ⟨-, -, hbefore⟩
    · obtain ⟨x, -, -, -, hmem⟩ := hnew hplaced
      exact .inr hmem
    · exact .inl (contains_iff.2 ⟨_, hacted.found⟩)
    · exact .inl (contains_iff.2 ⟨_, hbefore⟩)

/-- Whatever fits what the target shows, and brings along what is new, is taken. -/
theorem exists_acted (h : doc.Shows shadow) (hbrings : doc.Brings shadow (edit :: rest))
    (hactive : edit.inert = false) (htarget : doc.contains edit.target = true) {view : View}
    (hview : (shadow edit.target).edit? edit.change = some view) :
    ∃ node revision, doc.Acted edit node revision ∧ revision.content.view = view := by
  obtain ⟨node, hnode⟩ := contains_iff.1 htarget
  rw [← h.view hnode] at hview
  obtain ⟨revision, hplanned, hrevision⟩ := exists_revise doc edit.target (h.sound.keyed hnode) hview
  have hregular := (hbrings.legal edit List.mem_cons_self).regular
  have hadded := (fits_revise h.sound (h.sound.keyed hnode) hregular.lawful hplanned).added
  refine ⟨node, revision, ⟨hactive, hnode, hplanned, ?_⟩, hrevision⟩
  rw [checkFresh_eq_ok_iff, hadded]
  have hnodup := hbrings.nodup
  rw [arrivalIds_cons] at hnodup
  refine ⟨(List.nodup_append.1 hnodup).1, fun id hid hcontains => ?_⟩
  have hfresh := hbrings.fresh id (by rw [arrivalIds_cons]; exact List.mem_append_left _ hid)
  rw [hcontains] at hfresh
  cases hfresh

theorem Brings.tail (hbrings : doc.Brings shadow (edit :: rest))
    (haim : edit.inert = false → edit.target ∉ arrivalIds (edit :: rest))
    (hafter : shadow.edit? edit = some after)
    (hgains : doc.Gains next (edit.change.payload.flatMap Element.ids)) :
    next.Brings after rest := by
  have hnodup := hbrings.nodup
  rw [arrivalIds_cons, List.nodup_append] at hnodup
  have hmem {id : ElementId} (hid : id ∈ arrivalIds rest) : id ∈ arrivalIds (edit :: rest) := by
    rw [arrivalIds_cons]
    exact List.mem_append_right _ hid
  refine ⟨fun e he => hbrings.legal e (List.mem_cons_of_mem _ he), hnodup.2.1,
    hgains.fresh (fun id hid => hbrings.fresh id (hmem hid)) ?_, fun x hx => ?_⟩
  · exact fun id hnew hid => hnodup.2.2 id hnew id hid rfl
  · have hid : x.id ∈ arrivalIds rest := List.mem_map_of_mem hx
    rw [Shadow.edit?_frame (fun hactive heq => haim hactive (heq ▸ hmem hid)) hafter]
    exact hbrings.told x (List.mem_append_right _ hx)

theorem Ready.tail (hready : doc.Ready shadow (edit :: rest))
    (hafter : shadow.edit? edit = some after)
    (hgains : doc.Gains next (edit.change.payload.flatMap Element.ids)) :
    next.Ready after rest :=
  ⟨hready.toBrings.tail hready.ordered.1 hafter hgains, hready.ordered.2⟩

/-- One edit that fits the shadow is taken, if only by being passed over. -/
theorem Shows.applyEdit (h : doc.Shows shadow) (hready : doc.Ready shadow (edit :: rest))
    (hafter : shadow.edit? edit = some after) :
    ∃ record next, doc.applyEdit edit = .ok (record, next) ∧ next.Shows after ∧
      next.root = doc.root ∧ doc.Gains next (edit.change.payload.flatMap Element.ids) := by
  cases hinert : edit.inert with
  | true =>
      rw [Shadow.edit?_of_inert hinert] at hafter
      cases hafter
      exact ⟨none, doc, applyEdit_of_idle (.inl hinert), h, rfl, fun id hid => .inl hid⟩
  | false =>
      obtain ⟨view, hview, rfl⟩ := Shadow.edit?_eq_some hinert hafter
      cases htarget : doc.contains edit.target with
      | false =>
          refine ⟨none, doc, applyEdit_of_idle (.inr htarget), ⟨h.sound, ?_⟩, rfl,
            fun id hid => .inl hid⟩
          intro id node hnode
          have hne : id ≠ edit.target := by
            rintro rfl
            rw [contains_iff.2 ⟨node, hnode⟩] at htarget
            cases htarget
          rw [Function.update_of_ne hne, h.view hnode]
      | true =>
          obtain ⟨node, revision, hacted, rfl⟩ := exists_acted h hready.toBrings hinert htarget hview
          exact ⟨_, _, hacted.applyEdit_eq, (h.acted hready.toBrings hready.ordered.1 hacted).1, rfl,
            (h.acted hready.toBrings hready.ordered.1 hacted).2⟩

theorem Shows.applyEdits (h : doc.Shows shadow) (hready : doc.Ready shadow edits)
    (hafter : shadow.run? edits = some after) (done : List Applied) :
    ∃ records next, doc.applyEdits done edits = (.ok records, next) ∧ next.Shows after ∧
      next.root = doc.root ∧ doc.Gains next (arrivalIds edits) := by
  induction edits generalizing doc shadow done with
  | nil =>
      cases hafter
      exact ⟨done.reverse, doc, rfl, h, rfl, fun id hid => .inl hid⟩
  | cons edit rest ih =>
      obtain ⟨mid, hmid, hlast⟩ := Shadow.run?_cons_eq_some.1 hafter
      obtain ⟨record, next, happly, hshows, hroot, hgains⟩ := h.applyEdit hready hmid
      obtain ⟨records, last, hrest, hlastShows, hlastRoot, hlastGains⟩ :=
        ih hshows (hready.tail hmid hgains) hlast (record.toList ++ done)
      refine ⟨records, last, ?_, hlastShows, hlastRoot.trans hroot, fun id hid => ?_⟩
      · rw [applyEdits_of_ok happly]
        exact hrest
      · rw [arrivalIds_cons, List.mem_append]
        rcases hlastGains id hid with hid | hid
        · exact (hgains id hid).imp_right .inl
        · exact .inr (.inr hid)

/-- The document takes the operation as a whole, which leads to `next`. -/
def Takes (doc : Document) (operation : Operation) (next : Document) : Prop :=
  ∃ records, doc.apply operation = (.ok records, next)

theorem Takes.apply_eq {operation : Operation} (h : doc.Takes operation next) :
    (doc.apply operation).2 = next := by
  obtain ⟨records, h⟩ := h
  rw [h]

theorem Takes.unique {operation : Operation} {other : Document} (h : doc.Takes operation next)
    (hother : doc.Takes operation other) : next = other :=
  h.apply_eq.symm.trans hother.apply_eq

/-- An operation whose edits fit the shadow is taken. -/
theorem Shows.takes {operation : Operation} (h : doc.Shows shadow)
    (hready : doc.Ready shadow operation.edits)
    (hafter : shadow.run? operation.edits = some after) :
    ∃ next, doc.Takes operation next ∧ next.Shows after ∧ next.root = doc.root ∧
      doc.Gains next (arrivalIds operation.edits) := by
  obtain ⟨records, next, happly, hrest⟩ := h.applyEdits hready hafter []
  exact ⟨next, ⟨records, happly⟩, hrest⟩

/-- What the document accepts with every target attached also fits the shadow. -/
theorem Accepts.exists_run? (haccepts : doc.Accepts edits) (h : doc.Shows shadow)
    (hbrings : doc.Brings shadow edits) :
    Ordered edits ∧ (∃ after, shadow.run? edits = some after) ∧
      ∀ edit ∈ edits, edit.inert = false →
        doc.contains edit.target = true ∨ edit.target ∈ arrivalIds edits := by
  induction edits generalizing doc shadow with
  | nil => exact ⟨trivial, ⟨shadow, rfl⟩, fun _ he => absurd he List.not_mem_nil⟩
  | cons edit rest ih =>
      obtain ⟨hattached, record, next, happly, hrest⟩ := haccepts
      have haim : edit.inert = false → edit.target ∉ arrivalIds (edit :: rest) := by
        intro hactive hmem
        rw [hbrings.fresh _ hmem] at hattached
        cases hattached hactive
      have hstep : ∃ mid, shadow.edit? edit = some mid ∧ next.Shows mid ∧
          doc.Gains next (edit.change.payload.flatMap Element.ids) := by
        rcases cases_applyEdit happly with ⟨hidle, -, rfl⟩ | ⟨node, revision, hacted, -, rfl⟩
        · have hinert : edit.inert = true := by
            rcases hidle with hinert | htarget
            · exact hinert
            · by_contra hactive
              rw [hattached (by simpa using hactive)] at htarget
              cases htarget
          exact ⟨shadow, Shadow.edit?_of_inert hinert, h, fun id hid => .inl hid⟩
        · refine ⟨_, ?_, h.acted hbrings haim hacted⟩
          rw [Shadow.edit?_of_active hacted.active, ← h.view hacted.found,
            view_of_revise (h.sound.keyed hacted.found) hacted.planned]
          rfl
      obtain ⟨mid, hmid, hshows, hgains⟩ := hstep
      obtain ⟨hordered, ⟨after, hafter⟩, htargets⟩ :=
        ih hrest hshows (hbrings.tail haim hmid hgains)
      refine ⟨⟨haim, hordered⟩, ⟨after, Shadow.run?_cons_eq_some.2 ⟨mid, hmid, hafter⟩⟩, ?_⟩
      intro e he hactive
      rw [arrivalIds_cons, List.mem_append]
      rcases List.mem_cons.1 he with rfl | he
      · exact .inl (hattached hactive)
      · rcases htargets e he hactive with hid | hid
        · exact (hgains _ hid).imp_right .inl
        · exact .inr (.inr hid)

/-- What is ready before concurrent edits that spare it is ready behind them in whatever form
reconciling leaves it, on any document to which it is new. -/
theorem Ready.rebased {left others : List Edit} (hready : doc.Ready shadow edits)
    (hleft : RebasedAll edits left) (hafter : shadow.run? others = some after)
    (hspares : Spares (arrivalIds edits) others)
    (hfresh : ∀ id ∈ arrivalIds edits, next.contains id = false) : next.Ready after left := by
  refine ⟨⟨fun e he => ?_, ?_, fun id hid => ?_, fun x hx => ?_⟩, hready.ordered.rebased hleft⟩
  · obtain ⟨original, hmem, hrebased⟩ := hleft.exists_of_mem he
    exact hrebased.change.legal (hready.legal original hmem)
  · rw [hleft.arrivalIds_eq]
    exact hready.nodup
  · exact hfresh id (hleft.arrivalIds_eq ▸ hid)
  · rw [hleft.arrivals_eq] at hx
    have hid : x.id ∈ arrivalIds edits := List.mem_map_of_mem hx
    rw [Shadow.run?_frame (fun e he hactive heq => hspares e he hactive (heq ▸ hid)) hafter]
    exact hready.told x hx

/-! ## Edits in two parts -/

variable {front back : List Edit}

theorem Brings.left (h : doc.Brings shadow (front ++ back)) :
    doc.Brings shadow front := by
  have hnodup := h.nodup
  rw [arrivalIds_append, List.nodup_append] at hnodup
  refine ⟨fun e he => h.legal e (List.mem_append_left _ he), hnodup.1, fun id hid => ?_,
    fun x hx => ?_⟩
  · exact h.fresh id (by rw [arrivalIds_append]; exact List.mem_append_left _ hid)
  · exact h.told x (by rw [arrivals_append]; exact List.mem_append_left _ hx)

theorem Brings.right (h : doc.Brings shadow (front ++ back)) :
    doc.Brings shadow back := by
  have hnodup := h.nodup
  rw [arrivalIds_append, List.nodup_append] at hnodup
  refine ⟨fun e he => h.legal e (List.mem_append_right _ he), hnodup.2.1, fun id hid => ?_,
    fun x hx => ?_⟩
  · exact h.fresh id (by rw [arrivalIds_append]; exact List.mem_append_right _ hid)
  · exact h.told x (by rw [arrivals_append]; exact List.mem_append_right _ hx)

theorem Ready.left (h : doc.Ready shadow (front ++ back)) : doc.Ready shadow front :=
  ⟨h.toBrings.left, (ordered_append.1 h.ordered).1⟩

theorem Ready.right (h : doc.Ready shadow (front ++ back)) (hafter : shadow.run? front = some after)
    (hgains : doc.Gains next (arrivalIds front)) : next.Ready after back := by
  have hordered := ordered_append.1 h.ordered
  have hnodup := h.nodup
  rw [arrivalIds_append, List.nodup_append] at hnodup
  have hready : doc.Ready shadow back := ⟨h.toBrings.right, hordered.2.1⟩
  exact hready.rebased (.refl back) hafter hordered.2.2
    (hgains.fresh hready.fresh fun id hid hmem => hnodup.2.2 id hid id hmem rfl)

theorem Ready.append (hfront : doc.Ready shadow front) (hback : doc.Brings shadow back)
    (hordered : Ordered back) (hspares : Spares (arrivalIds back) front)
    (hapart : ∀ id ∈ arrivalIds front, id ∉ arrivalIds back) :
    doc.Ready shadow (front ++ back) := by
  refine ⟨⟨?_, ?_, ?_, ?_⟩, ordered_append.2 ⟨hfront.ordered, hordered, hspares⟩⟩
  · intro e he
    exact (List.mem_append.1 he).elim (hfront.legal e) (hback.legal e)
  · rw [arrivalIds_append, List.nodup_append]
    exact ⟨hfront.nodup, hback.nodup, fun id hid other hother heq => hapart id hid (heq ▸ hother)⟩
  · intro id hid
    rw [arrivalIds_append] at hid
    exact (List.mem_append.1 hid).elim (hfront.fresh id) (hback.fresh id)
  · intro x hx
    rw [arrivals_append] at hx
    exact (List.mem_append.1 hx).elim (hfront.told x) (hback.told x)

/-! ## Agreement -/

theorem Shows.shown_snapshot (h : doc.Shows shadow) : doc.snapshot.Shown shadow := by
  intro x hx
  obtain ⟨node, hnode, hcontent⟩ := h.sound.holds_snapshot.found x hx
  rw [Element.view, hcontent, h.view hnode]

/-- Documents with one root that show one shadow agree, numbers that are none apart. -/
theorem Shows.agrees {other : Document} (h : doc.Shows shadow) (hother : other.Shows shadow)
    (hroot : doc.root = other.root) (hnumber : shadow.Numeric) :
    (doc.snapshot == other.snapshot) = true :=
  Element.agrees_of_shown
    (by rw [h.sound.holds_snapshot.id_eq, hother.sound.holds_snapshot.id_eq, hroot])
    h.shown_snapshot hother.shown_snapshot h.sound.holds_snapshot.keyed
    hother.sound.holds_snapshot.keyed hnumber

theorem Shows.of_agrees {other : Document} (h : doc.Shows shadow) (hother : other.Sound)
    (hagrees : (doc.snapshot == other.snapshot) = true) :
    other.Shows shadow ∧ (∀ id, other.contains id = true ↔ doc.contains id = true) ∧
      ∀ id, doc.contains id = true → shadow id ≠ .number .notANumber := by
  have hholds := h.sound.holds_snapshot
  have hholds' := hother.holds_snapshot
  obtain ⟨hleft, hright⟩ := Element.same_of_agrees hagrees hholds.keyed hholds'.keyed
  refine ⟨⟨hother, ?_⟩, fun id => ?_, fun id hid => ?_⟩
  · intro id node hnode
    have hid := hother.mem_ids_snapshot.2 (contains_iff.2 ⟨node, hnode⟩)
    obtain ⟨y, hy, rfl⟩ := List.mem_map.1 hid
    obtain ⟨node', hnode', hcontent⟩ := hholds'.found y hy
    rw [hnode] at hnode'
    cases hnode'
    obtain ⟨x, hx, hxy, hview, -⟩ := hright y hy
    rw [← hcontent, ← hxy, ← h.shown_snapshot x hx, hview]
    rfl
  · rw [← hother.mem_ids_snapshot, ← h.sound.mem_ids_snapshot]
    constructor
    · intro hid
      obtain ⟨y, hy, rfl⟩ := List.mem_map.1 hid
      obtain ⟨x, hx, hxy, -⟩ := hright y hy
      exact hxy ▸ List.mem_map_of_mem hx
    · intro hid
      obtain ⟨x, hx, rfl⟩ := List.mem_map.1 hid
      obtain ⟨y, hy, hxy, -⟩ := hleft x hx
      exact hxy ▸ List.mem_map_of_mem hy
  · obtain ⟨x, hx, rfl⟩ := List.mem_map.1 (h.sound.mem_ids_snapshot.2 hid)
    obtain ⟨y, -, -, -, hnumber⟩ := hleft x hx
    rw [← h.shown_snapshot x hx]
    exact hnumber

/-! ## Shadows of documents -/

/-- What the elements that are still to come show. -/
def told (coming : List Element) : Shadow :=
  fun id => ((coming.find? fun x => x.id == id).map Element.view).getD .null

theorem told_id {coming : List Element} (hnodup : (coming.map Element.id).Nodup) {x : Element}
    (hx : x ∈ coming) : told coming x.id = x.view := by
  induction coming with
  | nil => cases hx
  | cons y rest ih =>
      rw [List.map_cons, List.nodup_cons] at hnodup
      rcases List.mem_cons.1 hx with rfl | hx
      · simp [told]
      · have hne : y.id ≠ x.id := fun heq => hnodup.1 (heq ▸ List.mem_map_of_mem hx)
        rw [← ih hnodup.2 hx, told, told, List.find?_cons_of_neg (by simpa using hne)]

theorem told_numeric {coming : List Element}
    (h : ∀ x ∈ coming, x.view ≠ .number .notANumber) : (told coming).Numeric := by
  intro id
  rw [told]
  cases hfound : coming.find? fun x => x.id == id with
  | none => simp
  | some x => exact h x (List.mem_of_find?_eq_some hfound)

/-- The shadow of a document: what is attached shows what it shows, and the rest is as in `rest`. -/
def shadowOver (doc : Document) (rest : Shadow) : Shadow :=
  fun id => match Entries.find? id doc.nodes with
    | some node => node.content.view
    | none => rest id

theorem shadowOver_of_not_contains {rest : Shadow} {id : ElementId} (h : doc.contains id = false) :
    doc.shadowOver rest id = rest id := by
  rw [shadowOver, not_contains_iff.1 h]

theorem Sound.shows (h : doc.Sound) (rest : Shadow) : doc.Shows (doc.shadowOver rest) :=
  ⟨h, fun hnode => by rw [shadowOver, hnode]⟩

theorem Sound.shadowOver_numeric {rest : Shadow} (h : doc.Sound) (hrest : rest.Numeric)
    (hdoc : ∀ x ∈ doc.snapshot.preorder, x.view ≠ .number .notANumber) :
    (doc.shadowOver rest).Numeric := by
  intro id
  cases hid : doc.contains id with
  | false =>
      rw [shadowOver_of_not_contains hid]
      exact hrest id
  | true =>
      obtain ⟨x, hx, rfl⟩ := List.mem_map.1 (h.mem_ids_snapshot.2 hid)
      rw [← (h.shows rest).shown_snapshot x hx]
      exact hdoc x hx

theorem numeric_of_finite {tree : Element} (h : tree.firstNonFinite? = none) :
    ∀ x ∈ tree.preorder, x.view ≠ .number .notANumber := by
  rintro ⟨id, content⟩ hx heq
  have hfinite := Element.firstNonFinite?_eq_none_iff.1 h _ hx
  cases content with
  | number value =>
      exact Number.magnitude_ne_notANumber_of_isFinite hfinite (View.number.inj heq)
  | _ => cases heq

theorem numeric_of_legal (h : ∀ edit ∈ edits, edit.change.Legal) :
    ∀ x ∈ arrivals edits, x.view ≠ .number .notANumber := by
  intro x hx
  obtain ⟨edit, hedit, hx⟩ := List.mem_flatMap.1 hx
  obtain ⟨value, hvalue, hx⟩ := List.mem_flatMap.1 hx
  exact numeric_of_finite (Change.finite_payload (h edit hedit).finite value hvalue) x hx

end Document
end CoEdit
