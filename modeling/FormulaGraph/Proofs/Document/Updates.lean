import FormulaGraph.Proofs.Document.Loaded
import FormulaGraph.Proofs.Registry.Interrupted
/-!
# Records after an update

A record is checked when it is read, but an update assigns what it is given. Only the value of a
factor is brought into its type. A name, an expression, a description, a unit or an entry of a list
of children that is no text is taken all the same, and then the record of the node is not read back:
a document that is written afterwards cannot be opened.

* `Assigned.agreeOn_form`: what an update assigns, in the fields that decide about records.
* `recordable_iff_readsBack`: all fields have their types where all records are read back.
* `update_recordable_iff`: which updates leave records that are read back, whatever values they are
  given.
* `update_misfit`: numbers for a description, a name and an expression.
-/
namespace FormulaGraph

variable {α : Type}

/-! ## Lists of children -/

namespace Json

variable [Scalar α]

theorem eq_text_of_sameItem {v : Json α} {s : Text} (h : sameItem v (.text s) = true) :
    v = .text s := by
  cases v with
  | text t =>
    rw [sameItem, beq_iff_eq] at h
    rw [h]
  | _ => simp [sameItem, whole?] at h

/-- An item is only left out for one that is a text if it is a text itself. -/
theorem allTexts_keepNew {kept : List (Json α)} {item : Json α} :
    AllTexts (keepNew kept item) ↔ AllTexts kept ∧ ∃ t, item = .text t := by
  unfold keepNew
  split
  · rename_i hany
    refine ⟨fun h => ⟨h, ?_⟩, And.left⟩
    obtain ⟨v, hv, hsame⟩ := List.any_eq_true.1 hany
    obtain ⟨t, rfl⟩ := h v hv
    exact ⟨t, eq_text_of_sameItem hsame⟩
  · simp [AllTexts, or_imp, forall_and]

theorem allTexts_foldl_keepNew {items kept : List (Json α)} :
    AllTexts (items.foldl keepNew kept) ↔ AllTexts kept ∧ AllTexts items := by
  induction items generalizing kept with
  | nil => simp [AllTexts]
  | cons item rest ih =>
    rw [List.foldl_cons, ih, allTexts_keepNew, and_assoc]
    simp [AllTexts]

theorem allTexts_entries_iff {v : Json α} {items listed : List (Json α)}
    (hitems : v.childItems = .ok items) (hlisted : v.entries = .ok listed) :
    AllTexts listed ↔ AllTexts items := by
  obtain ⟨items', hitems', rfl⟩ := entries_eq_ok hlisted
  obtain rfl := Except.ok.inj (hitems.symm.trans hitems')
  rw [allTexts_foldl_keepNew]
  exact ⟨And.right, fun h => ⟨fun v hv => (nomatch hv), h⟩⟩

end Json

/-! ## Changes that fit -/

namespace Changes

/-- What is given for the annotations of a node and the children of a formula is of the type that
records have there. -/
structure Fits (c : Changes α) (n : Node α) : Prop where
  description : ∀ v, c.description = some v → ∃ s, v = .ofText? s
  unit : ∀ v, c.unit = some v → ∃ s, v = .ofText? s
  children : n.isFormula = true → ∀ v items, c.children = some v → v.childItems = .ok items →
    Json.AllTexts items

/-- The list of children that a node has after the changes. -/
inductive Lists [Scalar α] (c : Changes α) (n : Node α) : List (Json α) → Prop where
  | kept (h : n.isFormula = true → c.children = none) : Lists c n n.listed
  | given {v : Json α} {listed : List (Json α)} (hformula : n.isFormula = true)
    (hv : c.children = some v) (hlisted : v.entries = .ok listed) : Lists c n listed

/-- A node with the changes that can make a difference to whether it has a record. -/
def reform (c : Changes α) (listed : List (Json α)) (n : Node α) : Node α :=
  { c.applyMetadata n with listed }

theorem ofText?_getD_iff {old : Json α} (hold : ∃ s, old = .ofText? s) (given : Option (Json α)) :
    (∃ s, given.getD old = .ofText? s) ↔ ∀ v, given = some v → ∃ s, v = .ofText? s := by
  cases given with
  | none => exact ⟨fun _ _ h => (nomatch h), fun _ => hold⟩
  | some v => simp

variable [Scalar α]

theorem recordable_reform_iff {c : Changes α} {n : Node α} {listed : List (Json α)}
    (hn : n.Recordable) (hlisted : c.Lists n listed) :
    (c.reform listed n).Recordable ↔ c.Fits n := by
  have hdescription := ofText?_getD_iff hn.description c.description
  have hunit := ofText?_getD_iff hn.unit c.unit
  constructor
  · intro h
    refine ⟨hdescription.1 h.description, hunit.1 h.unit, fun hformula v items hv hitems => ?_⟩
    cases hlisted with
    | kept hnone => cases (hnone hformula).symm.trans hv
    | given _ hv' hentries =>
      obtain rfl := Option.some.inj (hv.symm.trans hv')
      exact (Json.allTexts_entries_iff hitems hentries).1 h.listed
  · intro h
    have hannotations := And.intro (hdescription.2 h.description) (hunit.2 h.unit)
    cases hlisted with
    | kept _ => exact ⟨hn.listed, hannotations.1, hannotations.2, hn.factor⟩
    | given hformula hv hentries =>
      obtain ⟨items, hitems, -⟩ := Json.entries_eq_ok hentries
      refine ⟨(Json.allTexts_entries_iff hitems hentries).2 (h.children hformula _ items hv hitems),
        hannotations.1, hannotations.2, fun hfactor => ?_⟩
      have hkind : n.kind = .factor := Node.isFactor_iff.1 hfactor
      cases (beq_iff_eq.1 hformula).symm.trans hkind

end Changes

/-! ## Records that are read back -/

/-- The nodes with records are those whose records are read as the nodes themselves. -/
theorem Node.recordable_iff [Scalar α] {n : Node α} :
    n.Recordable ↔ ∃ record, n.record = .ok record ∧ Node.ofRecord record = .ok n := by
  constructor
  · exact fun h => ⟨_, Node.record_eq_ok h, Node.ofRecord_record h⟩
  · rintro ⟨record, -, hread⟩
    obtain ⟨fields, -, -, hrecordable⟩ := Node.ofRecord_eq_ok hread
    exact hrecordable

namespace Registry

/-! ## What an update does -/

theorem form_eq_of_alone_eq {n m : Node α} (h : n.alone = m.alone) : n.form = m.form := by
  cases n
  cases m
  cases h
  rfl

variable [Scalar α]

section

variable {r : Registry α} {id : Text} {n : Node α} {c : Changes α} {evaluations : Evaluations α}

omit [Scalar α] in
/-- What a change makes of the node itself decides. -/
theorem agreeOn_reform {listed : List (Json α)} (hn : r.node? id = some n) {g : Node α → Node α}
    (hg : (g n).form = (c.reform listed n).form) :
    AgreeOn Node.form (r.modify id (c.reform listed)) (r.modify id g) := by
  refine (AgreeOn.refl r).modify fun m m' hm hm' _ => ?_
  obtain rfl := Option.some.inj (hn.symm.trans hm)
  obtain rfl := Option.some.inj (hm.symm.trans hm')
  exact hg

omit [Scalar α] in
theorem agreeOn_relink {listed : List (Json α)} (hn : r.node? id = some n) {g : Node α → Node α}
    (hg : (g n).form = (c.applyMetadata n).form) :
    AgreeOn Node.form (r.modify id (c.reform listed)) ((r.modify id g).relink id n listed) := by
  -- linking and unlinking only changes recorded parents, which are texts in any case
  have hregrouped : AgreeOn Node.form (r.modify id g)
      ((r.modify id g).regroup n (Json.textsAmong listed)) :=
    (agreeOn_regroup _ n _).mono fun _ _ => form_eq_of_alone_eq
  have hlisted : ∀ m m' : Node α, m.form = m'.form →
      ({ m' with listed } : Node α).form = ({ m with listed } : Node α).form := by
    intro m m' h
    simp only [Node.form, Prod.mk.injEq] at h
    simp only [Node.form, Node.kind, Prod.mk.injEq] at h ⊢
    exact ⟨h.1.symm, trivial, h.2.2.1.symm, h.2.2.2.symm⟩
  rw [relink_eq]
  refine (agreeOn_reform (g := fun m => { g m with listed }) hn ?_).trans ?_
  · exact hlisted _ _ hg.symm
  · rw [← modify_modify r id g fun m => { m with listed }]
    exact hregrouped.modify fun m m' _ _ => hlisted m m'

/-- To the form of a node a new expression adds nothing. -/
theorem form_assign (haccepted : c.rejection? n = none) :
    (c.assign n).form = (c.applyMetadata n).form := by
  rw [Changes.assign, Changes.applyExpression]
  cases hexpression : c.expression with
  | none => rfl
  | some e =>
    cases hkind : n.kind with
    | factor => cases hexpression.symm.trans (Changes.expression_of_factor haccepted hkind)
    | formula =>
      simp only [Node.form, Changes.applyMetadata, Node.kind] at hkind ⊢
      rw [hkind]

/-- What is assigned to a node leaves everything that decides about records as it was, but for the
node itself with its annotations and its list of children. -/
theorem Assigned.agreeOn_form {left : Registry α} (h : Assigned r id n c left)
    (hn : r.node? id = some n) (haccepted : c.rejection? n = none) :
    ∃ listed, c.Lists n listed ∧ AgreeOn Node.form (r.modify id (c.reform listed)) left := by
  have hform := form_assign haccepted
  cases h with
  | kept _ hchildren =>
    refine ⟨n.listed, .kept fun h => hchildren (beq_iff_eq.1 h), ?_⟩
    exact agreeOn_reform hn hform
  | valued hfactor _ _ =>
    have hkept : c.Lists n n.listed := .kept fun h => nomatch hfactor.symm.trans (beq_iff_eq.1 h)
    refine ⟨n.listed, hkept, ?_⟩
    rw [modify_modify]
    have hexpression := Changes.expression_of_factor haccepted hfactor
    refine agreeOn_reform hn ?_
    simp only [Node.form, Changes.reform, Changes.assign, Changes.applyExpression, hexpression,
      Changes.applyMetadata, Node.kind] at hfactor ⊢
    rw [hfactor]
  | relinked hformula _ hchildren hentries =>
    exact ⟨_, .given (beq_iff_eq.2 hformula) hchildren hentries, agreeOn_relink hn hform⟩

/-! ## Records after the update -/

omit [Scalar α] in
theorem recordable_modify_iff {f : Node α → Node α} (hr : r.Recordable) (hn : r.node? id = some n) :
    (r.modify id f).Recordable ↔ (f n).Recordable := by
  constructor
  · intro h
    refine h id (f n) ?_
    rw [node?_modify, if_pos rfl, hn, Option.map_some]
  · intro h k m hm
    rw [node?_modify] at hm
    split at hm
    · rename_i hk
      subst hk
      obtain ⟨m', hm', rfl⟩ := Option.map_eq_some_iff.1 hm
      obtain rfl := Option.some.inj (hn.symm.trans hm')
      exact h
    · exact hr k m hm

end

end Registry

/-! ## Values of any type -/

namespace AnyChanges

/-- What is given for the fields of a node, except the value of a factor, is of the type that
records have there. -/
structure Fits (a : AnyChanges α) (n : Node α) : Prop where
  name : ∀ v, a.name = some v → ∃ s, v = .text s
  expression : ∀ v, a.expression = some v → ∃ s, v = .ofText? s
  description : ∀ v, a.description = some v → ∃ s, v = .ofText? s
  unit : ∀ v, a.unit = some v → ∃ s, v = .ofText? s
  children : n.isFormula = true → ∀ v items, a.children = some v → v.childItems = .ok items →
    Json.AllTexts items

end AnyChanges

namespace Astray

/-- Every field of every node has the type that records give it. -/
structure Recordable (s : Astray α) : Prop where
  straight : s.Straight
  registry : s.registry.Recordable

variable [Scalar α]

/-- The record of the node under a key is read as that node. -/
structure ReadsBack (s : Astray α) (key : Text) (n : Node α) : Prop where
  name : s.strays.names key = none
  expression : s.strays.expressions key = none
  record : ∃ record, s.strays.record key n = .ok record ∧ Node.ofRecord record = .ok n

variable {s : Astray α} {id : Text} {a : AnyChanges α} {n : Node α} {evaluations : Evaluations α}

theorem record_off {key : Text} (hname : s.strays.names key = none)
    (hexpression : s.strays.expressions key = none) (n : Node α) :
    s.strays.record key n = n.record := by
  rw [Strays.record, hname, hexpression]
  rfl

/-- The fields have their types exactly if every record is read back. -/
theorem recordable_iff_readsBack :
    s.Recordable ↔ ∀ k n, s.registry.node? k = some n → s.ReadsBack k n := by
  constructor
  · intro h k n hn
    have hname := h.straight.name k (OrderedMap.mem_keys_of_get? hn)
    have hexpression := h.straight.expression k (OrderedMap.mem_keys_of_get? hn)
    refine ⟨hname, hexpression, ?_⟩
    rw [record_off hname hexpression]
    exact Node.recordable_iff.1 (h.registry k n hn)
  · intro h
    have hnode : ∀ k ∈ s.registry.nodes.keys, ∃ n, s.registry.node? k = some n := fun k hk =>
      Registry.contains_iff_node?.1 ((OrderedMap.contains_iff _ k).2 hk)
    refine ⟨⟨fun k hk => ?_, fun k hk => ?_⟩, fun k n hn => Node.recordable_iff.2 ?_⟩
    · obtain ⟨n, hn⟩ := hnode k hk
      exact (h k n hn).name
    · obtain ⟨n, hn⟩ := hnode k hk
      exact (h k n hn).expression
    · have hread := h k n hn
      rw [← record_off hread.name hread.expression]
      exact hread.record

theorem document_off (hs : s.Straight) (exportDate : Text) :
    s.document exportDate = s.registry.document exportDate := by
  unfold document Registry.document Registry.documentWith
  rw [mapM_congr fun e he => ?_]
  have hkey : e.1 ∈ s.registry.nodes.keys := List.mem_map_of_mem he
  rw [record_off (hs.name _ hkey) (hs.expression _ hkey)]

omit [Scalar α] in
/-- Names and expressions keep their types exactly if those that are given have them. -/
theorem straight_assign_iff (hs : s.Straight) (hid : id ∈ s.registry.nodes.keys)
    {r : Registry α} (hkeys : r.nodes.keys = s.registry.nodes.keys) :
    (Astray.mk r (s.strays.assign id a)).Straight ↔
      (∀ v, a.name = some v → ∃ t, v = .text t) ∧
        ∀ v, a.expression = some v → ∃ e, v = .ofText? e := by
  rw [← Strays.names_assign_eq_none_iff (hs.name id hid),
    ← Strays.expressions_assign_eq_none_iff (hs.expression id hid)]
  constructor
  · intro h
    exact ⟨h.name id (hkeys ▸ hid), h.expression id (hkeys ▸ hid)⟩
  · rintro ⟨hname, hexpression⟩
    refine ⟨fun k hk => ?_, fun k hk => ?_⟩
    · by_cases hkey : k = id
      · rwa [hkey]
      · exact (Strays.names_assign_of_ne hkey).trans (hs.name k (hkeys ▸ hk))
    · by_cases hkey : k = id
      · rwa [hkey]
      · exact (Strays.expressions_assign_of_ne hkey).trans (hs.expression k (hkeys ▸ hk))

theorem recordable_update_iff (hs : s.Recordable) (hn : s.registry.node? id = some n)
    (h : (s.update id a).1 = .ok evaluations) : (s.update id a).2.Recordable ↔ a.Fits n := by
  obtain ⟨m, hm, haccepted, hleaves⟩ := exists_leaves fun f hf => nomatch h.symm.trans hf
  obtain rfl := Option.some.inj (hn.symm.trans hm)
  rw [h] at hleaves
  generalize (s.update id a).2 = s' at hleaves ⊢
  cases hleaves with
  | @carried _ left notes hassigned =>
    have hid : id ∈ s.registry.nodes.keys := OrderedMap.mem_keys_of_get? hn
    have hkeys : (left.write notes).nodes.keys = s.registry.nodes.keys :=
      (Registry.keys_write left notes).trans hassigned.keys
    have hstraight := straight_assign_iff (a := a) hs.straight hid hkeys
    obtain ⟨listed, hlisted, hreformed⟩ :=
      hassigned.agreeOn_form hn (rejection?_eq_none_iff.1 haccepted)
    have hsame := hreformed.trans ((Registry.agreeOn_write left notes).mono fun _ _ =>
      Node.form_eq_of_unevaluated_eq)
    have hregistry : (left.write notes).Recordable ↔ (a.changes n).Fits n := by
      rw [← Changes.recordable_reform_iff (hs.registry id n hn) hlisted,
        ← Registry.recordable_modify_iff hs.registry hn]
      exact ⟨fun h => h.of_agreeOn hsame.symm, fun h => h.of_agreeOn hsame⟩
    constructor
    · intro h
      obtain ⟨hname, hexpression⟩ := hstraight.1 h.straight
      have hfits := hregistry.1 h.registry
      exact ⟨hname, hexpression, hfits.description, hfits.unit, hfits.children⟩
    · intro h
      exact ⟨hstraight.2 ⟨h.name, h.expression⟩,
        hregistry.2 ⟨h.description, h.unit, h.children⟩⟩

/-- **Which updates keep records valid.** After an update that is carried through, every field has
its type exactly if what was given fits. That is so exactly if all records are read back; and then a
document that is written is imported, whatever it replaces. -/
theorem update_recordable_iff (hs : s.Recordable) (hn : s.registry.node? id = some n)
    (h : (s.update id a).1 = .ok evaluations) :
    ((s.update id a).2.Recordable ↔ a.Fits n) ∧
    ((s.update id a).2.Recordable ↔
      ∀ k m, (s.update id a).2.registry.node? k = some m → (s.update id a).2.ReadsBack k m) ∧
    (a.Fits n → ∀ exportDate, ∃ doc, (s.update id a).2.document exportDate = .ok doc ∧
      ∀ q : Registry α, q.importDocument doc false =
        (.ok (), (s.update id a).2.registry.evaluateRoots.2)) := by
  have hfits := recordable_update_iff hs hn h
  refine ⟨hfits, recordable_iff_readsBack, fun ha exportDate => ?_⟩
  obtain ⟨hstraight, hrecordable⟩ := hfits.2 ha
  have hdoc := Registry.document_eq_ok hrecordable exportDate
  refine ⟨_, ?_, Registry.importDocument_document hrecordable hdoc⟩
  rw [document_off hstraight]
  exact hdoc

/-! ## A formula and its factor -/

/-- A formula over one factor. -/
def twofold : Registry Exact where
  nodes := ⟨
    [("a", ⟨"a", "a", .factor (.value 1), [], ["p"], some (.value 1), .null, .null⟩),
     ("p", ⟨"p", "p", .formula (some "a * 2"), [.text "a"], [], some (.value 2), .null, .null⟩)],
    by decide⟩
  roots := ["p"]

theorem recordable_twofold : twofold.astray.Recordable :=
  ⟨Registry.straight_astray twofold, by decide +kernel⟩

/-- A name, a unit and a list of children. -/
def fitting : AnyChanges Exact :=
  { AnyChanges.empty with
    name := some (.text "q"), unit := some (.text "m"), children := some (.list [.text "a"]) }

theorem fits_fitting (n : Node Exact) : fitting.Fits n := by
  refine ⟨fun v hv => ?_, nofun, nofun, fun v hv => ?_, fun _ v items hv hitems => ?_⟩
  · obtain rfl := Option.some.inj hv
    exact ⟨"q", rfl⟩
  · obtain rfl := Option.some.inj hv
    exact ⟨some "m", rfl⟩
  · obtain rfl := Option.some.inj hv
    obtain rfl := Except.ok.inj hitems
    exact Json.allTexts_map_text ["a"]

/-- The formula gets all three, and the document is imported into an empty registry. -/
theorem update_recordable_iff_twofold :
    (∃ evaluations, (twofold.astray.update "p" fitting).1 = .ok evaluations) ∧
    (twofold.astray.update "p" fitting).2.Recordable ∧
    ∃ doc, (twofold.astray.update "p" fitting).2.document "2000-01-01" = .ok doc ∧
      Registry.empty.importDocument doc false =
        (.ok (), (twofold.astray.update "p" fitting).2.registry.evaluateRoots.2) := by
  have haccepted : (twofold.astray.update "p" fitting).1.toOption.isSome = true := by decide +kernel
  obtain ⟨evaluations, hevaluations⟩ := exists_of_isSome_toOption haccepted
  obtain ⟨hfits, -, himport⟩ := update_recordable_iff recordable_twofold rfl hevaluations
  obtain ⟨doc, hdoc, hread⟩ := himport (fits_fitting _) "2000-01-01"
  exact ⟨⟨evaluations, hevaluations⟩, hfits.2 (fits_fitting _), doc, hdoc, hread .empty⟩

/-- A number for a description, for a name, and for an expression. -/
def misfits : List (Text × AnyChanges Exact) :=
  [("a", { AnyChanges.empty with description := some (.int 5) }),
   ("a", { AnyChanges.empty with name := some (.int 5) }),
   ("p", { AnyChanges.empty with expression := some (.int 0) })]

/-- The updates are carried through, and the documents that are written afterwards are refused. -/
theorem update_misfit :
    twofold.astray.Recordable ∧
    ∀ m ∈ misfits, (∃ evaluations, (twofold.astray.update m.1 m.2).1 = .ok evaluations) ∧
      ¬(twofold.astray.update m.1 m.2).2.Recordable ∧
      ∃ doc, (twofold.astray.update m.1 m.2).2.document "2000-01-01" = .ok doc ∧
        ∃ index, (Registry.empty.importDocument doc false).1 =
          .error (.badFormat (.invalidRecord index m.1 1)) := by
  have haccepted : ∀ m ∈ misfits, (twofold.astray.update m.1 m.2).1.toOption.isSome = true := by
    decide +kernel
  have hmisfit : ∀ m ∈ misfits, ∃ n, twofold.astray.registry.node? m.1 = some n ∧ ¬m.2.Fits n := by
    simp only [misfits, List.forall_mem_cons, List.not_mem_nil, false_imp_iff, implies_true,
      and_true]
    refine ⟨⟨_, rfl, fun h => ?_⟩, ⟨_, rfl, fun h => ?_⟩, ⟨_, rfl, fun h => ?_⟩⟩
    · obtain ⟨s, hs⟩ := h.description _ rfl
      cases s <;> cases hs
    · obtain ⟨s, hs⟩ := h.name _ rfl
      cases hs
    · obtain ⟨s, hs⟩ := h.expression _ rfl
      cases s <;> cases hs
  have hrefused : ∀ m ∈ misfits, ∃ index < 2,
      ((twofold.astray.update m.1 m.2).2.document "2000-01-01").map
        (fun doc => (Registry.empty.importDocument doc false).1) =
          .ok (.error (.badFormat (.invalidRecord index m.1 1))) := by
    decide +kernel
  refine ⟨recordable_twofold, fun m hm => ?_⟩
  obtain ⟨evaluations, hevaluations⟩ := exists_of_isSome_toOption (haccepted m hm)
  obtain ⟨n, hn, hnot⟩ := hmisfit m hm
  obtain ⟨index, -, hindex⟩ := hrefused m hm
  obtain ⟨doc, hdoc, himport⟩ := ok_of_map hindex
  exact ⟨⟨evaluations, hevaluations⟩,
    mt (recordable_update_iff recordable_twofold hn hevaluations).1 hnot,
    doc, hdoc, index, himport⟩

end Astray

end FormulaGraph
