import FormulaGraph.Document
import FormulaGraph.Number.Exact
import FormulaGraph.Proofs.Links.Violations
import FormulaGraph.Proofs.Registry.Runs
/-!
# Checked imports and later edits

A checked import takes over a document only if it has no violations, so the registry is sound
afterwards (`sound_of_importDocument`): the recorded parents of every node are the nodes that list
it, and every root exists (`InStep`).

That is less than edits rely on. The check compares sets, and an edit takes one mention of an id out
of a list. Where a list of the document has an id twice, one edit can leave the other mention
behind: a child that is removed and still listed, a parent that is dropped and still recorded, a
root that is deleted and still a root.

* `importDocument_stays_inStep`: when no list has an id twice (`Unrepeated`), every run of edits
  keeps links and roots in step; when one has, a single edit breaks them.
* `importDocument_doubled`: such a document, and the edits.
-/
namespace FormulaGraph

/-- Edits are the calls that change links, fields or roots of nodes that exist. -/
def Operation.IsEdit {α : Type} : Operation α → Prop
  | .addChild .. | .removeChild .. | .update .. | .delete _ | .markRoot _ | .unmarkRoot _ => True
  | .createFactor .. | .createFormula .. | .clear | .evaluate .. => False

namespace Registry

variable {α : Type}

/-- The recorded parents of every node are the nodes that list it, and every root exists. -/
structure InStep (r : Registry α) : Prop where
  mirrored : ∀ c p, r.nodes.contains c = true → (p ∈ r.parentIds c ↔ c ∈ r.childIds p)
  roots_exist : ∀ id ∈ r.roots, r.nodes.contains id = true

/-- No list of children, of parents or of roots has an id twice. -/
structure Unrepeated (r : Registry α) : Prop where
  children : ∀ id, (r.childIds id).Nodup
  parents : ∀ id, (r.parentIds id).Nodup
  roots : r.roots.Nodup

theorem unrepeated_iff {r : Registry α} : Unrepeated r ↔
    (∀ e ∈ r.nodes.entries, e.2.children.Nodup ∧ e.2.parents.Nodup) ∧ r.roots.Nodup := by
  constructor
  · rintro ⟨hchildren, hparents, hroots⟩
    refine ⟨fun e he => ?_, hroots⟩
    have hn : r.node? e.1 = some e.2 := OrderedMap.get?_eq_some_iff.2 he
    rw [← childIds_of_node? hn, ← parentIds_of_node? hn]
    exact ⟨hchildren e.1, hparents e.1⟩
  · rintro ⟨hentries, hroots⟩
    refine ⟨fun id => ?_, fun id => ?_, hroots⟩
    all_goals cases hn : r.node? id with
      | none => simp [childIds, parentIds, hn]
      | some n =>
        have hnodup := hentries (id, n) (OrderedMap.get?_eq_some_iff.1 hn)
        simp only [childIds_of_node? hn, parentIds_of_node? hn, hnodup]

instance (r : Registry α) : Decidable (Unrepeated r) := decidable_of_iff _ unrepeated_iff.symm

/-- What a check establishes. -/
structure Sound (r : Registry α) : Prop where
  stored : Stored r
  children_exist : ∀ p, ∀ c ∈ r.childIds p, r.nodes.contains c = true
  inStep : InStep r

theorem Consistent.inStep {r : Registry α} (hr : Consistent r) : InStep r :=
  ⟨hr.mirrored, hr.roots_exist⟩

/-- A sound registry is consistent when no list has an id twice. -/
theorem Sound.consistent {r : Registry α} (hr : Sound r) (h : Unrepeated r) : Consistent r where
  stored := hr.stored
  children_nodup := h.children
  parents_nodup := h.parents
  roots_nodup := h.roots
  roots_exist := hr.inStep.roots_exist
  mirrored := hr.inStep.mirrored

theorem InStep.of_agreeOn {r r' : Registry α} (hr : InStep r) (h : AgreeOn Node.links r r') :
    InStep r' where
  mirrored c p hc := by
    rw [h.contains] at hc
    rw [h.parentIds, h.own.childIds]
    exact hr.mirrored c p hc
  roots_exist id hid := by
    rw [h.roots] at hid
    rw [h.contains]
    exact hr.roots_exist id hid

theorem Sound.of_agreeOn {r r' : Registry α} (hr : Sound r) (h : AgreeOn Node.links r r') :
    Sound r' where
  stored := h.own.stored hr.stored
  children_exist p c hc := by
    rw [h.own.childIds] at hc
    rw [h.contains]
    exact hr.children_exist p c hc
  inStep := hr.inStep.of_agreeOn h

variable [Scalar α]

/-! ## What a check establishes -/

theorem sound_of_violations_eq_nil {r : Registry α} (h : r.violations = []) : Sound r := by
  obtain ⟨hnodes, hparents, hroots, -⟩ := Links.violations_eq_nil_iff.1 h
  have hentry : ∀ {id n}, r.node? id = some n → (id, n) ∈ r.nodes.entries :=
    OrderedMap.get?_eq_some_iff.1
  have hnode : ∀ {id n}, r.node? id = some n → _ := fun hn =>
    Links.nodeViolations_eq_nil_iff.1 (hnodes _ (hentry hn))
  refine ⟨?_, ?_, ?_, hroots⟩
  · intro id n hn
    obtain ⟨hid, hfactor, -⟩ := hnode hn
    exact ⟨hid, hfactor⟩
  · intro p c hc
    obtain ⟨n, hn⟩ := contains_iff_node?.1 (contains_of_mem_childIds hc)
    rw [childIds_of_node? hn] at hc
    obtain ⟨c', hc', hex⟩ := (hnode hn).2.2 (.text c) (Json.mem_textsAmong.1 hc)
    cases hc'
    exact hex
  · intro c p hc
    obtain ⟨n, hn⟩ := contains_iff_node?.1 hc
    rw [parentIds_of_node? hn, Links.parentViolations_eq_nil_iff.1 (hparents _ (hentry hn)),
      Links.mem_parentsOf_ofNodes, mem_childIds]
    exact and_iff_right hc

theorem importDocument_eq_ok {s r : Registry α} {doc : Json α} {check : Bool}
    (h : s.importDocument doc check = (.ok (), r)) :
    ∃ imported, Document.read doc = .ok imported ∧ (check = true → imported.violations = []) ∧
      r = imported.evaluateRoots.2 := by
  unfold importDocument at h
  split at h
  · cases h
  · rename_i imported hread
    split at h
    · cases h
    · rename_i haccepted
      refine ⟨imported, hread, fun hcheck => ?_, (Prod.mk.inj h).2.symm⟩
      by_contra hviolations
      exact haccepted ⟨hcheck, hviolations⟩

theorem sound_of_importDocument {s r : Registry α} {doc : Json α}
    (h : s.importDocument doc true = (.ok (), r)) : Sound r := by
  obtain ⟨imported, -, hviolations, rfl⟩ := importDocument_eq_ok h
  exact (sound_of_violations_eq_nil (hviolations rfl)).of_agreeOn
    (agreeOn_evaluateEach imported _).links

/-! ## Edits of a sound registry -/

theorem freshRun_of_edits {r : Registry α} {ops : List (Operation α)}
    (h : ∀ op ∈ ops, op.IsEdit) : r.FreshRun ops := by
  induction ops generalizing r with
  | nil => trivial
  | cons op ops ih =>
    obtain ⟨hop, hops⟩ := List.forall_mem_cons.1 h
    refine ⟨?_, ih hops⟩
    cases op <;> trivial

/-- A list that has an item twice has it still after one mention was taken out. -/
theorem mem_erase_of_not_nodup {l : List Text} (h : ¬l.Nodup) :
    ∃ x ∈ l, x ∈ l.erase x := by
  obtain ⟨x, hx⟩ : ∃ x, 1 < l.count x := by
    simpa [List.nodup_iff_count_le_one] using h
  refine ⟨x, List.count_pos_iff.1 (by omega), List.count_pos_iff.1 ?_⟩
  rw [List.count_erase_self]
  omega

/-- A child that is listed twice and removed once is still listed, but not recorded. -/
theorem Sound.removeChild_breaks {r : Registry α} (hr : Sound r) {p c : Text}
    (hc : c ∈ (r.childIds p).erase c) (hparents : (r.parentIds c).Nodup) :
    ¬InStep (r.removeChild p c).2 := by
  intro hstep
  have hlisted : c ∈ r.childIds p := List.mem_of_mem_erase hc
  have hex : r.nodes.contains c = true := hr.children_exist p c hlisted
  rcases removeChild_cases r p c with h | ⟨-, hnot⟩
  · have hmirrored := (hstep.of_agreeOn h.symm.links).mirrored c p
    rw [contains_unlink, childIds_unlink, parentIds_unlink, if_pos rfl, if_pos rfl] at hmirrored
    exact hparents.not_mem_erase ((hmirrored hex).2 hc)
  · exact hnot hex hlisted

/-- An empty list of children in the place of those that a formula has. -/
def noChildren : Changes α := { Changes.empty with children := some (.list []) }

omit [Scalar α] in
theorem givesIds_noChildren : (noChildren : Changes α).GivesIds := by
  rintro v ⟨⟩
  exact ⟨[], rfl⟩

theorem update_noChildren {r : Registry α} {p : Text} {n : Node α} (hn : r.node? p = some n)
    (hformula : n.kind = .formula) :
    (r.update p noChildren).2 =
      (((r.modify p noChildren.applyMetadata).relink p n []).evaluate p).2 := by
  have hrejection : noChildren.rejection? n = none := by
    simp [Changes.rejection?, noChildren, Changes.empty, hformula]
  simp only [update, hn, hrejection, hformula]
  rfl

omit [Scalar α] in
/-- Each child drops the parent once. -/
theorem parentIds_relink_nil (r : Registry α) (key : Text) (n : Node α) (id : Text) :
    (r.relink key n []).parentIds id =
      if id ∈ n.children then (r.parentIds id).erase n.id else r.parentIds id := by
  have hdropped : n.children.eraseDups.filter (· ∉ ([] : List Text)) = n.children.eraseDups :=
    List.filter_eq_self.2 fun _ _ => rfl
  rw [parentIds_relink, regroup]
  change ((r.disown n.id (n.children.eraseDups.filter (· ∉ ([] : List Text)))).parentIds id) = _
  rw [hdropped, parentIds_disown_of_nodup r n.id (nodup_eraseDups n.children)]
  simp only [List.mem_eraseDups]

/-- A parent that is recorded twice and loses its children is still recorded, but lists nothing. -/
theorem Sound.update_breaks {r : Registry α} (hr : Sound r) {p c : Text}
    (hp : p ∈ (r.parentIds c).erase p) : ¬InStep (r.update p noChildren).2 := by
  intro hstep
  have hrecorded : p ∈ r.parentIds c := List.mem_of_mem_erase hp
  have hc : r.nodes.contains c = true := contains_of_mem_parentIds hrecorded
  have hlisted : c ∈ r.childIds p := (hr.inStep.mirrored c p hc).1 hrecorded
  obtain ⟨n, hn, hchild⟩ := mem_childIds.1 hlisted
  have hformula : n.kind = .formula := by
    cases hkind : n.kind with
    | formula => rfl
    | factor =>
      have hnothing : n.listed = [] := (hr.stored p n hn).factor (Node.isFactor_iff.2 hkind)
      rw [Node.children, hnothing] at hchild
      cases hchild
  have hid : n.id = p := (hr.stored p n hn).id_eq
  have hkey : (r.modify p noChildren.applyMetadata).nodes.contains p = true := by
    rw [contains_modify]
    exact contains_iff_node?.2 ⟨n, hn⟩
  have hmetadata : (r.modify p noChildren.applyMetadata).parentIds = r.parentIds :=
    parentIds_modify_of_eq (fun _ => rfl) r p
  rw [update_noChildren hn hformula] at hstep
  have hmirrored := (hstep.of_agreeOn (agreeOn_evaluate _ p).symm.links).mirrored c p
  rw [contains_relink, contains_modify, parentIds_relink_nil, if_pos hchild, hid,
    hmetadata, childIds_relink hkey, if_pos rfl] at hmirrored
  exact List.not_mem_nil ((hmirrored hc).1 hp)

/-- A root that is there twice and deleted is still a root, but does not exist. -/
theorem Sound.delete_breaks {r : Registry α} (hr : Sound r) {id : Text}
    (hid : id ∈ r.roots.erase id) : ¬InStep (r.delete id).2 := by
  intro hstep
  have hex : r.nodes.contains id = true := hr.inStep.roots_exist id (List.mem_of_mem_erase hid)
  rcases delete_cases r id with ⟨hmissing, -⟩ | ⟨-, hdeleted⟩
  · rw [hex] at hmissing
    cases hmissing
  · have hroot : id ∈ (r.delete id).2.roots := by
      rwa [hdeleted, roots_forget, roots_removeFrom]
    have hexists := hstep.roots_exist id hroot
    rw [hdeleted, contains_forget] at hexists
    exact hexists.1 rfl

/-- **Checked imports.** After a checked import that is accepted, every run of edits leaves links
and roots in step, provided that no list of children, of parents or of roots has an id twice; and if
one has, there is a single edit after which they are not. -/
theorem importDocument_stays_inStep {s r : Registry α} {doc : Json α}
    (h : s.importDocument doc true = (.ok (), r)) :
    (Unrepeated r → ∀ ops : List (Operation α), (∀ op ∈ ops, op.IsEdit) → InStep (r.run ops)) ∧
      (¬Unrepeated r → ∃ op : Operation α, op.IsEdit ∧ op.GivesIds ∧ ¬InStep (r.apply op)) := by
  have hr : Sound r := sound_of_importDocument h
  refine ⟨fun hunrepeated ops hops => ?_, fun hrepeated => ?_⟩
  · exact (consistent_run (hr.consistent hunrepeated) (freshRun_of_edits hops)).inStep
  · by_cases hparents : ∀ id, (r.parentIds id).Nodup
    · by_cases hchildren : ∀ id, (r.childIds id).Nodup
      · have hroots : ¬r.roots.Nodup := fun hroots => hrepeated ⟨hchildren, hparents, hroots⟩
        obtain ⟨id, -, hid⟩ := mem_erase_of_not_nodup hroots
        exact ⟨.delete id, trivial, trivial, hr.delete_breaks hid⟩
      · obtain ⟨p, hp⟩ := not_forall.1 hchildren
        obtain ⟨c, -, hc⟩ := mem_erase_of_not_nodup hp
        exact ⟨.removeChild p c, trivial, trivial, hr.removeChild_breaks hc (hparents c)⟩
    · obtain ⟨c, hc⟩ := not_forall.1 hparents
      obtain ⟨p, -, hp⟩ := mem_erase_of_not_nodup hc
      exact ⟨.update p noChildren, trivial, givesIds_noChildren, hr.update_breaks hp⟩

/-- A factor `a` and a formula `p` over it, with given children and roots. -/
def pairDocument (children roots : List Text) : Json Exact :=
  .object [
    ("nodes", .list [
      .list [.text "a", .object [
        ("id", .text "a"), ("name", .text "a"), ("parentIds", .list [.text "p"]),
        ("kind", .text "factor"), ("value", .real (.value 3))]],
      .list [.text "p", .object [
        ("id", .text "p"), ("name", .text "p"), ("childIds", .list (children.map .text)),
        ("kind", .text "formula"), ("expression", .text "a")]]]),
    ("rootNodeIds", .list (roots.map .text))]

/-- The pair, imported into an empty registry. -/
def importedPair (children roots : List Text) : Except Failure Unit × Registry Exact :=
  empty.importDocument (pairDocument children roots) true

/-- Where each id is given once, the formula can lose and take the factor, which is then deleted. -/
theorem importDocument_stays_inStep_pair :
    (importedPair ["a"] ["a"]).1 = .ok () ∧
    Unrepeated (importedPair ["a"] ["a"]).2 ∧
    InStep ((importedPair ["a"] ["a"]).2.run
      [.removeChild "p" "a", .addChild "p" "a", .markRoot "p", .delete "a"]) := by
  have haccepted : (importedPair ["a"] ["a"]).1 = .ok () := by decide +kernel
  have hunrepeated : Unrepeated (importedPair ["a"] ["a"]).2 := by decide +kernel
  have himport : empty.importDocument (pairDocument ["a"] ["a"]) true =
      (.ok (), (importedPair ["a"] ["a"]).2) := Prod.ext haccepted rfl
  refine ⟨haccepted, hunrepeated, (importDocument_stays_inStep himport).1 hunrepeated _ ?_⟩
  simp [Operation.IsEdit]

/-- A child that is given twice, and a root that is: both are accepted, and each comes out of step
when the node is removed once. -/
theorem importDocument_doubled :
    (importedPair ["a", "a"] ["p"]).1 = .ok () ∧
    ¬InStep ((importedPair ["a", "a"] ["p"]).2.run [.removeChild "p" "a"]) ∧
    (importedPair ["a"] ["a", "a"]).1 = .ok () ∧
    ¬InStep ((importedPair ["a"] ["a", "a"]).2.run [.delete "a"]) := by
  refine ⟨by decide +kernel, fun h => ?_, by decide +kernel, fun h => ?_⟩
  · have hmirrored := h.mirrored "a" "p" (by decide +kernel)
    revert hmirrored
    decide +kernel
  · have hroot := h.roots_exist "a" (by decide +kernel)
    revert hroot
    decide +kernel

end Registry

end FormulaGraph
