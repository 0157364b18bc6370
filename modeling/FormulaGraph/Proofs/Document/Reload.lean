import FormulaGraph.Proofs.Document.Records
import FormulaGraph.Proofs.Json.Documents
/-!
# Saving and loading

The document of a registry is read as the registry itself: the pairs are read one by one, each as
the node its record was written for (`ofRecord_record`), and keys that are all different stay in
their order. An import puts this registry in the place of the one it is given to, and evaluates the
roots. It does not matter what that one held, nor whether keys and ids, children and parents or
cached values of the saved one fit together.

* `read_document`: the document of a registry is read as that registry.
* `read_toText_document`: the text of the document is read as the document, unless a text holds two
  halves of a surrogate pair side by side or a number is not read from its text.
* `loadText_documentText`: where it is, what is loaded from the text is the saved registry as an
  evaluation of its roots leaves it.
-/
namespace FormulaGraph

/-! ## The text of a record -/

namespace Node

/-- The texts in a node. -/
def texts {α : Type} (n : Node α) : List Text :=
  [n.id, n.name] ++ n.children ++ n.parents ++
    (n.description.text?.toList ++ n.unit.text?.toList ++ n.expression?.toList)

/-- The numbers in a node. -/
def numbers {α : Type} (n : Node α) : List α :=
  n.computed.toList ++
    match n.body with
    | .factor v => [v]
    | .formula _ => []

/-- The names of the fields of records, in their order. -/
def recordNames : List String :=
  ([.id, .name, .children, .computed, .parents, .description, .unit] : List Field).map
    Field.recordName ++ ["kind"] ++ ([.value, .expression] : List Field).map Field.recordName

theorem names_present {α : Type} (f : Field) (v : Json α) :
    ((present f v).map Prod.fst).Sublist [(f.recordName : Text)] := by
  cases v <;> simp [present]

theorem names_fields {α : Type} (value : Field → Json α) (fs : List Field) :
    ((fs.flatMap fun f => present f (value f)).map Prod.fst).Sublist
      (fs.map fun f => (f.recordName : Text)) := by
  induction fs with
  | nil => exact .slnil
  | cons f fs ih =>
    rw [List.flatMap_cons, List.map_append]
    exact (names_present f (value f)).append ih

theorem names_recordFields {α : Type} (n : Node α) :
    (n.recordFields.map Prod.fst).Sublist (recordNames.map Text.ofString) := by
  rw [recordFields, recordNames, List.map_append, List.map_append, List.map_append, List.map_append,
    List.map_map, List.map_map]
  exact ((names_fields n.fieldValue _).append (.refl _)).append (names_fields n.fieldValue _)

theorem nodup_recordNames : (recordNames.map Text.ofString).Nodup :=
  List.Nodup.map (fun _ _ => Text.ofString_inj.1) (by decide)

open Json (Faithful Literal)

theorem mem_present {α : Type} {f : Field} {v : Json α} {e : Text × Json α}
    (h : e ∈ present f v) : e.2 = v := by
  cases v <;> simp_all [present]

theorem faithful_ofText? {t : Option Text} (h : ∀ s, t = some s → s.Apart) :
    Faithful (.ofText? t) := by
  cases t with
  | none => exact .null
  | some s => exact .text (h s rfl)

theorem faithful_texts {ts : List Text} (h : ∀ s ∈ ts, s.Apart) :
    Faithful (.list (ts.map .text)) :=
  .list fun _ hv => by
    obtain ⟨s, hs, rfl⟩ := List.mem_map.1 hv
    exact .text (h s hs)

section

variable {n : Node Float} (h : n.Recordable) (htexts : ∀ t ∈ n.texts, t.Apart)
  (hnumbers : ∀ x ∈ n.numbers, Literal (.real x))

include h htexts hnumbers

theorem faithful_fieldValue (f : Field) : Faithful (n.fieldValue f) := by
  have hchildren : n.listed = n.children.map .text := h.listed.eq_map_text
  obtain ⟨description, hdescription⟩ := h.description
  obtain ⟨unit, hunit⟩ := h.unit
  simp only [texts, numbers, hdescription, hunit, Json.text?_ofText?, List.mem_append,
    List.mem_cons, Option.mem_toList] at htexts hnumbers
  cases f with
  | id => exact .text (htexts _ (by simp))
  | name => exact .text (htexts _ (by simp))
  | children =>
    rw [fieldValue, hchildren]
    exact faithful_texts fun s hs => htexts s (by simp [hs])
  | computed =>
    cases hcomputed : n.computed with
    | none =>
      simp only [fieldValue, hcomputed]
      exact .null
    | some x =>
      simp only [fieldValue, hcomputed]
      exact .real (hnumbers x (by simp [hcomputed]))
  | parents => exact faithful_texts fun s hs => htexts s (by simp [hs])
  | description =>
    simp only [fieldValue, hdescription]
    exact faithful_ofText? fun s hs => htexts s (by simp [hs])
  | unit =>
    simp only [fieldValue, hunit]
    exact faithful_ofText? fun s hs => htexts s (by simp [hs])
  | value =>
    cases hbody : n.body with
    | factor v =>
      simp only [fieldValue, hbody]
      exact .real (hnumbers v (by simp [hbody]))
    | formula e =>
      simp only [fieldValue, hbody]
      exact .null
  | expression => exact faithful_ofText? fun s hs => htexts s (by simp [hs])

theorem faithful_recordFields : Faithful (.object n.recordFields) := by
  have hnames := n.names_recordFields
  have hpresent : ∀ (fs : List Field), ∀ e ∈ fs.flatMap fun f => present f (n.fieldValue f),
      Faithful e.2 := by
    intro fs e he
    obtain ⟨f, -, hf⟩ := List.mem_flatMap.1 he
    rw [mem_present hf]
    exact faithful_fieldValue h htexts hnumbers f
  refine .object (nodup_recordNames.sublist hnames) (fun e he => ?_) fun e he => ?_
  · obtain ⟨name, -, hname⟩ := List.mem_map.1 (hnames.subset (List.mem_map_of_mem he))
    exact hname ▸ Text.apart_ofString name
  · rw [recordFields, List.mem_append, List.mem_append] at he
    rcases he with (he | he) | he
    · exact hpresent _ e he
    · obtain rfl := List.mem_singleton.1 he
      exact .text (Text.apart_ofString _)
    · exact hpresent _ e he

end

end Node

/-! ## The document -/

namespace Registry

variable {α : Type}

/-- Every node can be written into a record and read back. -/
def Recordable (r : Registry α) : Prop := ∀ id n, r.node? id = some n → n.Recordable

/-- The pair of a key and a node that stands in a document. -/
def writtenPair (e : Text × Node α) : Json α := .list [.text e.1, .object e.2.recordFields]

theorem Recordable.entries {r : Registry α} (hr : r.Recordable) :
    ∀ e ∈ r.nodes.entries, e.2.Recordable :=
  fun e he => hr e.1 e.2 (OrderedMap.get?_eq_some_iff.2 he)

instance (r : Registry α) : Decidable r.Recordable :=
  decidable_of_iff (∀ e ∈ r.nodes.entries, e.2.Recordable)
    ⟨fun h id n hn => h (id, n) (OrderedMap.get?_eq_some_iff.1 hn), Recordable.entries⟩

theorem Recordable.list {r : Registry α} (hr : r.Recordable) : ∀ n ∈ r.list, n.Recordable := by
  intro n hn
  obtain ⟨e, he, rfl⟩ := List.mem_map.1 hn
  exact hr.entries e he

variable [Scalar α]

theorem mapM_pair {entries : List (Text × Node α)} (h : ∀ e ∈ entries, e.2.Recordable) :
    entries.mapM (fun e => pair e.1 e.2.record) = .ok (entries.map writtenPair) := by
  induction entries with
  | nil => rfl
  | cons e rest ih =>
    obtain ⟨he, hrest⟩ := List.forall_mem_cons.1 h
    rw [List.mapM_cons, ih hrest, pair, Node.record_eq_ok he]
    rfl

theorem readPairs_map {entries : List (Text × Node α)} (h : ∀ e ∈ entries, e.2.Recordable)
    (index : Nat) : Document.readPairs index (entries.map writtenPair) = .ok entries := by
  induction entries generalizing index with
  | nil => rfl
  | cons e rest ih =>
    obtain ⟨he, hrest⟩ := List.forall_mem_cons.1 h
    have hpair : Document.readPair index (writtenPair e) = .ok e := by
      simp only [Document.readPair, writtenPair, Node.ofRecord_record he]
    rw [List.map_cons, Document.readPairs, hpair, ih hrest]
    rfl

theorem document_eq_ok {r : Registry α} (hr : r.Recordable) (exportDate : Text) :
    r.document exportDate = .ok (.object [
      ("nodes", .list (r.nodes.entries.map writtenPair)),
      ("rootNodeIds", .list (r.roots.map .text)),
      ("exportDate", .text exportDate),
      ("version", .text formatVersion)]) := by
  rw [document, documentWith, mapM_pair hr.entries]
  rfl

/-- **The document of a registry is read as the registry.** -/
theorem read_document {r : Registry α} (hr : r.Recordable) {exportDate : Text} {doc : Json α}
    (h : r.document exportDate = .ok doc) : Document.read doc = .ok r := by
  rw [document_eq_ok hr] at h
  obtain rfl := Except.ok.inj h
  have hroots : ¬Text.ofString "nodes" = Text.ofString "rootNodeIds" := by
    rw [Text.ofString_inj]
    decide
  have hpairs := readPairs_map hr.entries 0
  simp only [Document.read, Document.pairs, Document.roots, Json.get?, Json.field?, if_pos,
    if_neg hroots, Option.bind_some, Json.texts?_map_text]
  show (Document.readPairs 0 (r.nodes.entries.map writtenPair) >>= fun pairs =>
    Except.ok { nodes := .ofList pairs, roots := r.roots }) = .ok r
  rw [hpairs]
  show Except.ok { nodes := .ofList r.nodes.entries, roots := r.roots } = Except.ok r
  rw [OrderedMap.ofList_entries]

/-! ## The text of a document -/

/-- The texts in a registry. -/
def texts (r : Registry α) : List Text :=
  r.nodes.entries.flatMap (fun e => e.1 :: e.2.texts) ++ r.roots

/-- The numbers in a registry. -/
def numbers (r : Registry α) : List α := r.nodes.entries.flatMap (·.2.numbers)

theorem faithful_document {r : Registry Float} (hr : r.Recordable)
    (htexts : ∀ t ∈ r.texts, t.Apart) (hnumbers : ∀ x ∈ r.numbers, Json.Literal (.real x))
    {exportDate : Text} (hdate : exportDate.Apart) {doc : Json Float}
    (h : r.document exportDate = .ok doc) : Json.Faithful doc := by
  rw [document_eq_ok hr] at h
  obtain rfl := Except.ok.inj h
  simp only [texts, numbers, List.mem_append, List.mem_flatMap] at htexts hnumbers
  have hpair : ∀ e ∈ r.nodes.entries, Json.Faithful (writtenPair e) := by
    intro e he
    have hrecord := Node.faithful_recordFields (hr.entries e he)
      (fun t ht => htexts t (.inl ⟨e, he, List.mem_cons_of_mem _ ht⟩))
      (fun x hx => hnumbers x ⟨e, he, hx⟩)
    have hkey := htexts e.1 (.inl ⟨e, he, List.mem_cons_self⟩)
    refine .list fun v hv => ?_
    simp only [List.mem_cons, List.not_mem_nil, or_false] at hv
    rcases hv with rfl | rfl
    · exact .text hkey
    · exact hrecord
  refine .object ?_ ?_ ?_
  · exact List.Nodup.map (l := ["nodes", "rootNodeIds", "exportDate", "version"])
      (fun _ _ => Text.ofString_inj.1) (by decide)
  · simp [Text.apart_ofString]
  · simp only [List.mem_cons, List.not_mem_nil, or_false]
    rintro f (rfl | rfl | rfl | rfl)
    · exact .list fun v hv => by
        obtain ⟨e, he, rfl⟩ := List.mem_map.1 hv
        exact hpair e he
    · exact Node.faithful_texts fun t ht => htexts t (.inr ht)
    · exact .text hdate
    · exact .text (Text.apart_ofString _)

/-- **The text of a document is read as the document**, when no text holds two halves of a surrogate
pair side by side and every number is read from its text. -/
theorem read_toText_document {r : Registry Float} (hr : r.Recordable)
    (htexts : ∀ t ∈ r.texts, t.Apart) (hnumbers : ∀ x ∈ r.numbers, Json.Literal (.real x))
    {exportDate : Text} (hdate : exportDate.Apart) {doc : Json Float}
    (h : r.document exportDate = .ok doc) (indent : Json.Indent) :
    Json.read (.ofString (doc.toText indent)) = .ok doc :=
  Json.read_toText (faithful_document hr htexts hnumbers hdate h) indent

/-- The document takes the place of whatever is there. -/
theorem importDocument_document {r : Registry α} (hr : r.Recordable) {exportDate : Text}
    {doc : Json α} (hdoc : r.document exportDate = .ok doc) (s : Registry α) :
    s.importDocument doc false = (.ok (), r.evaluateRoots.2) := by
  simp [importDocument, read_document hr hdoc, replace]

theorem loadText_of_read {r : Registry α} (hr : r.Recordable) {exportDate : Text} {doc : Json α}
    (hdoc : r.document exportDate = .ok doc) {text : Text} (htext : Json.read text = .ok doc)
    (s : Registry α) : s.loadText text false = (.ok (), r.evaluateRoots.2) := by
  simp only [loadText, htext, importDocument_document hr hdoc]

/-- **Load after save.** The document of a recordable registry can be written, and loading its text
succeeds on every registry and leaves the saved one as an evaluation of its roots leaves it. -/
theorem loadText_documentText {r : Registry Float} (hr : r.Recordable) (s : Registry Float)
    (exportDate : Text) (indent : Nat)
    (hjson : ∀ doc, r.document exportDate = .ok doc →
      Json.read (.ofString (doc.toText (some indent))) = .ok doc) :
    ∃ text, r.documentText exportDate indent = .ok text ∧
      s.loadText (.ofString text) false = (.ok (), r.evaluateRoots.2) := by
  have hdoc := document_eq_ok hr exportDate
  refine ⟨_, by rw [documentText, hdoc]; rfl, ?_⟩
  exact loadText_of_read hr hdoc (hjson _ hdoc) s

/-- Two formulas that need each other, one under a key that is not its id and with an empty name,
the other without expression. A child, a parent and a root do not exist. -/
def scattered : Registry Float where
  nodes := ⟨
    [("k", ⟨"a", "", .formula (some "b + c"), [.text "b", .text "z"], ["p"], none, .null,
       .text "m"⟩),
     ("b", ⟨"b", "b", .formula none, [.text "k"], ["k"], none, .text "", .null⟩)], by decide⟩
  roots := ["k", "gone"]

/-- It can be saved and takes the place of a registry with another root. -/
theorem loadText_documentText_scattered : ∃ text, scattered.documentText "2000-01-01" 2 = .ok text ∧
    (⟨.empty, ["old"]⟩ : Registry Float).loadText (.ofString text) false =
      (.ok (), scattered.evaluateRoots.2) := by
  have hr : scattered.Recordable := by
    intro id n hn
    have he := OrderedMap.get?_eq_some_iff.1 hn
    simp only [scattered, List.mem_cons, List.not_mem_nil, or_false, Prod.mk.injEq] at he
    rcases he with ⟨-, rfl⟩ | ⟨-, rfl⟩
    · exact ⟨Json.allTexts_map_text ["b", "z"], ⟨none, rfl⟩, ⟨some "m", rfl⟩, by decide⟩
    · exact ⟨Json.allTexts_map_text ["k"], ⟨some "", rfl⟩, ⟨none, rfl⟩, by decide⟩
  have htexts : ∀ t ∈ scattered.texts, t.Apart := by decide +kernel
  have hnumbers : scattered.numbers = [] := rfl
  refine loadText_documentText hr _ _ 2 fun doc hdoc => ?_
  exact read_toText_document hr htexts (by simp [hnumbers]) (Text.apart_ofString _) hdoc _

end Registry

end FormulaGraph
