import FormulaGraph.Proofs.Registry.Runs
import Mathlib.Data.List.Induction
import Mathlib.Logic.Function.Basic
/-!
# Children given at once and one by one

The children of a formula can be replaced by an update, which compares the old and the new ones as
sets, or link by link with `removeChild` and `addChild`. Each way keeps the parents of the children
in its own manner; this is where they come to the same.

Taking or making a link changes the recorded parents of one child, whatever else the step does and
whether or not it is refused (`LinkStep.record`). Steps at different children commute, and both ways
take the same steps in some order.

* `parentIds_run_steps`: the recorded parents after links were taken and made one by one.
* `relinkBy_perm`: the sets may be gone through in any order.
* `run_update_children`: the two ways agree after every run, in every order.

**Missing children.** A dropped child need not exist. `removeChild` refuses it and leaves it listed,
while the update drops it from the list; but nothing is recorded with it either way.
-/
namespace FormulaGraph

/-- A link of a formula that is taken or made, given by the child. -/
inductive LinkStep where
  | drop (child : Text)
  | gain (child : Text)
  deriving DecidableEq, Repr

namespace LinkStep

def child : LinkStep → Text
  | .drop c | .gain c => c

/-- The call that takes or makes the link. -/
def operation {α : Type} (x : Text) : LinkStep → Operation α
  | .drop c => .removeChild x c
  | .gain c => .addChild x c

/-- What becomes of the parents of the child, `x` being the formula. -/
def recordIn (x : Text) (parents : List Text) : LinkStep → List Text
  | .drop _ => parents.erase x
  | .gain _ => if x ∈ parents then parents else parents ++ [x]

/-- What becomes of all recorded parents. -/
def record (x : Text) (parents : Text → List Text) (step : LinkStep) : Text → List Text :=
  Function.update parents step.child (step.recordIn x (parents step.child))

theorem record_comm (x : Text) {s t : LinkStep} (h : s.child ≠ t.child)
    (parents : Text → List Text) :
    record x (record x parents s) t = record x (record x parents t) s := by
  simp only [record, Function.update_of_ne h, Function.update_of_ne h.symm]
  exact Function.update_comm h _ _ _

/-- Steps at different children can be taken in any order. -/
theorem foldl_record_perm (x : Text) {steps steps' : List LinkStep} (hperm : steps.Perm steps')
    (hdiffer : ∀ s ∈ steps, ∀ t ∈ steps, s.child = t.child → s = t)
    (parents : Text → List Text) :
    steps.foldl (record x) parents = steps'.foldl (record x) parents := by
  refine hperm.foldl_eq' (fun s hs t ht parents => ?_) parents
  by_cases hchild : s.child = t.child
  · rw [hdiffer s hs t ht hchild]
  · exact record_comm x hchild parents

end LinkStep

/-- The changes that give a formula children. -/
def Changes.giveChildren {α : Type} (ids : List Text) : Changes α :=
  { Changes.empty with children := some (.list (ids.map .text)) }

/-! ## Lists of ids -/

theorem eraseDups_of_nodup {l : List Text} (h : l.Nodup) : l.eraseDups = l := by
  induction l using List.reverseRecOn with
  | nil => rfl
  | append_singleton l a ih =>
    have ha : a ∉ l := fun hmem => (List.nodup_append.1 h).2.2 a hmem a (by simp) rfl
    rw [eraseDups_append_singleton, if_neg ha, ih (List.nodup_append.1 h).1]

namespace Registry

variable {α : Type}

/-! ## Sets in any order -/

/-- The children that a formula loses when it is given others. -/
def droppedIds (r : Registry α) (x : Text) (ids : List Text) : List Text :=
  (r.childIds x).eraseDups.filter (· ∉ ids)

/-- Those that it gains. -/
def addedIds (r : Registry α) (x : Text) (ids : List Text) : List Text :=
  ids.eraseDups.filter (· ∉ r.childIds x)

/-- The links that are taken and made. -/
def linkSteps (r : Registry α) (x : Text) (ids : List Text) : List LinkStep :=
  (r.droppedIds x ids).map .drop ++ (r.addedIds x ids).map .gain

theorem drop_mem_linkSteps {r : Registry α} {x c : Text} {ids : List Text} :
    .drop c ∈ r.linkSteps x ids ↔ c ∈ r.childIds x ∧ c ∉ ids := by
  simp [linkSteps, droppedIds]

theorem gain_mem_linkSteps {r : Registry α} {x c : Text} {ids : List Text} :
    .gain c ∈ r.linkSteps x ids ↔ c ∈ ids ∧ c ∉ r.childIds x := by
  simp [linkSteps, addedIds]

/-- A child is lost or gained or neither. -/
theorem eq_of_mem_linkSteps {r : Registry α} {x : Text} {ids : List Text} {s t : LinkStep}
    (hs : s ∈ r.linkSteps x ids) (ht : t ∈ r.linkSteps x ids) (h : s.child = t.child) : s = t := by
  cases s <;> cases t <;> cases h
  · rfl
  · exact absurd (gain_mem_linkSteps.1 ht).1 (drop_mem_linkSteps.1 hs).2
  · exact absurd (gain_mem_linkSteps.1 hs).1 (drop_mem_linkSteps.1 ht).2
  · rfl

/-- The formula under `x` is given children, those that it loses and gains being gone through in the
given orders. -/
def relinkBy (r : Registry α) (x : Text) (dropped added ids : List Text) : Registry α :=
  ((r.disown x dropped).adopt x added).modify x fun n =>
    { n with listed := ids.eraseDups.map .text }

theorem modify_comm (r : Registry α) {k k' : Text} (h : k ≠ k') (f g : Node α → Node α) :
    (r.modify k f).modify k' g = (r.modify k' g).modify k f := by
  simp only [modify, OrderedMap.modify, OrderedMap.mapValues, List.map_map, Registry.mk.injEq,
    OrderedMap.mk.injEq, and_true]
  refine List.map_congr_left fun e _ => ?_
  by_cases hk : e.1 = k
  · simp [hk, h]
  · simp [hk]

/-- The same change at many nodes can be made in any order. -/
theorem foldl_modify_perm (r : Registry α) (f : Node α → Node α) {ids ids' : List Text}
    (h : ids.Perm ids') :
    ids.foldl (fun r id => r.modify id f) r = ids'.foldl (fun r id => r.modify id f) r := by
  refine h.foldl_eq' (fun k _ k' _ r => ?_) r
  by_cases hk : k = k'
  · rw [hk]
  · exact modify_comm r hk f f

theorem relinkBy_perm (r : Registry α) (x : Text) {dropped dropped' added added' : List Text}
    (hdropped : dropped.Perm dropped') (hadded : added.Perm added') (ids : List Text) :
    r.relinkBy x dropped added ids = r.relinkBy x dropped' added' ids := by
  have hdisown : r.disown x dropped = r.disown x dropped' := foldl_modify_perm r _ hdropped
  have hadopt : (r.disown x dropped').adopt x added = (r.disown x dropped').adopt x added' :=
    foldl_modify_perm _ _ hadded
  rw [relinkBy, relinkBy, hdisown, hadopt]

/-- A node that is stored under its id loses and gains the children in one of the orders. -/
theorem relink_texts {r : Registry α} {x : Text} {n : Node α} (hn : r.node? x = some n)
    (hid : n.id = x) (ids : List Text) : r.relink x n (ids.eraseDups.map .text) =
      r.relinkBy x (r.droppedIds x ids) (r.addedIds x ids) ids := by
  have hdropped : n.children.eraseDups.filter (· ∉ ids.eraseDups) = r.droppedIds x ids := by
    simp only [droppedIds, childIds_of_node? hn, List.mem_eraseDups]
  have hadded : ids.eraseDups.eraseDups.filter (· ∉ n.children) = r.addedIds x ids := by
    rw [eraseDups_of_nodup (nodup_eraseDups ids), addedIds, childIds_of_node? hn]
  rw [relink_eq, regroup, Json.textsAmong_map_text, hdropped, hadded, hid, relinkBy]

/-! ## What is recorded -/

theorem parentIds_modify_dropParent_eq (r : Registry α) (c x : Text) :
    (r.modify c (·.dropParent x)).parentIds = LinkStep.record x r.parentIds (.drop c) := by
  funext id
  rw [parentIds_modify_dropParent, LinkStep.record, Function.update_apply]
  by_cases hid : id = c
  · rw [hid]
    rfl
  · simp [LinkStep.child, hid]

theorem parentIds_modify_addParent_eq {r : Registry α} {c : Text}
    (hc : r.nodes.contains c = true) (x : Text) :
    (r.modify c (·.addParent x)).parentIds = LinkStep.record x r.parentIds (.gain c) := by
  funext id
  rw [parentIds_modify_addParent hc, LinkStep.record, Function.update_apply]
  by_cases hid : id = c
  · rw [hid, LinkStep.child, LinkStep.recordIn]
    by_cases hx : x ∈ r.parentIds c <;> simp [hx]
  · simp [LinkStep.child, hid]

theorem parentIds_disown_eq_foldl (r : Registry α) (x : Text) (dropped : List Text) :
    (r.disown x dropped).parentIds = (dropped.map .drop).foldl (LinkStep.record x) r.parentIds := by
  induction dropped generalizing r with
  | nil => rfl
  | cons c dropped ih =>
    rw [disown_cons, ih, parentIds_modify_dropParent_eq, List.map_cons, List.foldl_cons]

theorem parentIds_adopt_eq_foldl {r : Registry α} (x : Text) {added : List Text}
    (h : ∀ c ∈ added, r.nodes.contains c = true) :
    (r.adopt x added).parentIds = (added.map .gain).foldl (LinkStep.record x) r.parentIds := by
  induction added generalizing r with
  | nil => rfl
  | cons c added ih =>
    obtain ⟨hc, hadded⟩ := List.forall_mem_cons.1 h
    rw [adopt_cons, ih fun c' hc' => (contains_modify r c _ c').trans (hadded c' hc'),
      parentIds_modify_addParent_eq hc, List.map_cons, List.foldl_cons]

theorem parentIds_relinkBy (r : Registry α) (x : Text) (dropped : List Text) {added : List Text}
    (hadded : ∀ c ∈ added, r.nodes.contains c = true) (ids : List Text) :
    (r.relinkBy x dropped added ids).parentIds =
      (dropped.map LinkStep.drop ++ added.map LinkStep.gain).foldl (LinkStep.record x)
        r.parentIds := by
  have hcontains : ∀ c ∈ added, (r.disown x dropped).nodes.contains c = true := fun c hc =>
    ((agreeOn_disown r x dropped).contains c).trans (hadded c hc)
  have hmodify : (r.relinkBy x dropped added ids).parentIds =
      ((r.disown x dropped).adopt x added).parentIds :=
    parentIds_modify_of_eq (f := fun n => { n with listed := ids.eraseDups.map .text })
      (fun _ => rfl) _ x
  rw [hmodify, parentIds_adopt_eq_foldl x hcontains, parentIds_disown_eq_foldl, List.foldl_append]

/-! ## Links one by one -/

section

variable [Scalar α] {r : Registry α}

/-- Whether or not the link is there and the child exists. -/
theorem Consistent.parentIds_removeChild (hr : Consistent r) (x c : Text) :
    (r.removeChild x c).2.parentIds = LinkStep.record x r.parentIds (.drop c) := by
  rw [← parentIds_modify_dropParent_eq]
  funext id
  rw [parentIds_modify_dropParent]
  rcases removeChild_cases r x c with h | ⟨h, hnot⟩
  · rw [h.links.parentIds, parentIds_unlink]
  · rw [h]
    -- what is refused was not recorded
    have hx : x ∉ r.parentIds c := fun hmem =>
      have hc := contains_of_mem_parentIds hmem
      hnot hc ((hr.mirrored c x hc).1 hmem)
    by_cases hid : id = c
    · rw [if_pos hid, hid, List.erase_of_not_mem hx]
    · rw [if_neg hid]

theorem addChild_of_formula {x c : Text} {n : Node α} (hn : r.node? x = some n)
    (hformula : n.kind = .formula) (hc : r.nodes.contains c = true) :
    (r.addChild x c).2 = if c ∈ r.childIds x then r else ((r.link x c).evaluate x).2 := by
  obtain ⟨m, hm⟩ := contains_iff_node?.1 hc
  have hboth : r.both x c = .ok (n, m) := by simp only [both, hn, hm]
  have hfactor : ¬n.isFactor = true := by simp [Node.isFactor, hformula]
  simp only [addChild, hboth, if_neg hfactor, childIds_of_node? hn]
  split <;> rfl

theorem Consistent.parentIds_addChild (hr : Consistent r) {x c : Text} {n : Node α}
    (hn : r.node? x = some n) (hformula : n.kind = .formula) (hc : r.nodes.contains c = true) :
    (r.addChild x c).2.parentIds = LinkStep.record x r.parentIds (.gain c) := by
  rw [addChild_of_formula hn hformula hc]
  split
  · rename_i hold
    -- a link that is there is recorded
    have hx : x ∈ r.parentIds c := (hr.mirrored c x hc).2 hold
    simp [LinkStep.record, LinkStep.recordIn, LinkStep.child, hx]
  · have hlinked : (r.modify x (·.addChild c)).nodes.contains c = true :=
      (contains_modify r x _ c).trans hc
    rw [(agreeOn_evaluate (r.link x c) x).links.parentIds,
      Registry.link, parentIds_modify_addParent_eq hlinked, parentIds_modify_addChild]

/-- No step creates or removes a node or makes it one of the other kind. -/
theorem agreeOn_kind_apply (r : Registry α) (x : Text) (step : LinkStep) :
    AgreeOn Node.kind r (r.apply (step.operation x)) := by
  have hown : ∀ {r r' : Registry α}, AgreeOn Node.own r r' → AgreeOn Node.kind r r' :=
    fun h => h.mono fun _ _ heq => congrArg (·.2.1) heq
  cases step with
  | drop c =>
    rcases removeChild_cases r x c with h | ⟨h, -⟩
    · have hchild : AgreeOn Node.kind r (r.modify x (·.dropChild c)) :=
        agreeOn_modify fun _ _ => rfl
      have hparent := (agreeOn_disown (r.modify x (·.dropChild c)) x [c]).own_of_alone
      exact (hchild.trans (hown hparent)).trans (hown h.links.own)
    · rw [LinkStep.operation, apply, h]
      exact .refl r
  | gain c =>
    rcases addChild_cases r x c with h | ⟨p, -, -, -, -, h⟩
    · rw [LinkStep.operation, apply, h]
      exact .refl r
    · have hchild : AgreeOn Node.kind r (r.modify x (·.addChild c)) :=
        agreeOn_modify fun _ _ => rfl
      have hparent := (agreeOn_adopt (r.modify x (·.addChild c)) x [c]).own_of_alone
      exact (hchild.trans (hown hparent)).trans (hown h.links.own)

/-- The recorded parents after links were taken and made one by one. -/
theorem parentIds_run_steps (hr : Consistent r) {x : Text} {n : Node α}
    (hn : r.node? x = some n) (hformula : n.kind = .formula) {steps : List LinkStep}
    (hsteps : ∀ c, .gain c ∈ steps → r.nodes.contains c = true) :
    (r.run (steps.map (·.operation x))).parentIds =
      steps.foldl (LinkStep.record x) r.parentIds := by
  induction steps generalizing r n with
  | nil => rfl
  | cons step steps ih =>
    have hrecorded : (r.apply (step.operation x)).parentIds =
        LinkStep.record x r.parentIds step := by
      cases step with
      | drop c => exact hr.parentIds_removeChild x c
      | gain c => exact hr.parentIds_addChild hn hformula (hsteps c List.mem_cons_self)
    have hdraws : r.Draws (step.operation x) := by cases step <;> trivial
    have hkind := agreeOn_kind_apply r x step
    obtain ⟨n', hn', hsame⟩ := hkind.symm.node? hn
    rw [List.foldl_cons, ← hrecorded]
    refine ih (hr.apply hdraws) hn' (hsame.trans hformula) fun c hc => ?_
    exact (hkind.contains c).trans (hsteps c (List.mem_cons_of_mem _ hc))

/-! ## Children at once -/

theorem update_giveChildren {x : Text} {n : Node α} (hn : r.node? x = some n)
    (hformula : n.kind = .formula) (ids : List Text) : r.update x (.giveChildren ids) =
      (.ok (OrderedMap.empty.insert x
          ((r.relink x n (ids.eraseDups.map .text)).evaluate x).1),
        ((r.relink x n (ids.eraseDups.map .text)).evaluate x).2) := by
  have hfits : (Changes.giveChildren ids : Changes α).rejection? n = none := by
    simp [Changes.rejection?, Changes.giveChildren, Changes.empty, hformula]
  have hmetadata : r.modify x (Changes.giveChildren ids).applyMetadata = r :=
    modify_of_eq fun _ => rfl
  simp only [update, hn, hfits, hformula, hmetadata]
  simp only [updateFormula, Changes.giveChildren, Changes.empty, Json.entries_texts]

/-- What it comes to that the formula under `x` is given children. -/
structure ChildrenGiven (r : Registry α) (x : Text) (ids : List Text) : Prop where
  applied : ∃ evaluations, (r.update x (.giveChildren ids)).1 = .ok evaluations
  listed : ∃ n, (r.update x (.giveChildren ids)).2.node? x = some n ∧
    n.listed = ids.eraseDups.map .text
  /-- Taking and making the links one by one records the same parents. -/
  recorded : ∀ steps : List LinkStep, steps.Perm (r.linkSteps x ids) →
    (r.update x (.giveChildren ids)).2.parentIds =
      (r.run (steps.map (·.operation x))).parentIds
  /-- The sets of children that are lost and gained may be gone through in any order. -/
  determined : ∀ dropped added : List Text,
    dropped.Perm (r.droppedIds x ids) → added.Perm (r.addedIds x ids) →
    r.update x (.giveChildren ids) =
      (.ok (OrderedMap.empty.insert x ((r.relinkBy x dropped added ids).evaluate x).1),
        ((r.relinkBy x dropped added ids).evaluate x).2)

theorem Consistent.childrenGiven (hr : Consistent r) {x : Text} {n : Node α}
    (hn : r.node? x = some n) (hformula : n.isFormula = true) {ids : List Text}
    (hids : ∀ id ∈ ids, r.nodes.contains id = true) : ChildrenGiven r x ids := by
  have hkind : n.kind = .formula := beq_iff_eq.1 hformula
  have hid : n.id = x := (hr.stored x n hn).id_eq
  have hupdate := update_giveChildren hn hkind ids
  rw [relink_texts hn hid] at hupdate
  have hadded : ∀ c ∈ r.addedIds x ids, r.nodes.contains c = true := fun c hc =>
    hids c (List.mem_eraseDups.1 (List.mem_filter.1 hc).1)
  constructor
  case applied => exact ⟨_, by rw [hupdate]⟩
  case listed =>
    have hregrouped := (agreeOn_disown r x (r.droppedIds x ids)).trans
      (agreeOn_adopt _ x (r.addedIds x ids))
    obtain ⟨m, hm, -⟩ := hregrouped.symm.node? hn
    have hlisted : (r.relinkBy x (r.droppedIds x ids) (r.addedIds x ids) ids).node? x =
        some { m with listed := ids.eraseDups.map .text } := by
      rw [relinkBy, node?_modify, if_pos rfl, hm, Option.map_some]
    obtain ⟨m', hm', hown⟩ := (agreeOn_evaluate _ x).links.own.symm.node? hlisted
    exact ⟨m', by rw [hupdate, hm'], congrArg (·.2.2) hown⟩
  case recorded =>
    intro steps hperm
    have hgained : ∀ c, .gain c ∈ steps → r.nodes.contains c = true := fun c hc =>
      hids c (gain_mem_linkSteps.1 (hperm.mem_iff.1 hc)).1
    rw [parentIds_run_steps hr hn hkind hgained, hupdate,
      (agreeOn_evaluate _ x).links.parentIds, parentIds_relinkBy r x _ hadded]
    refine (LinkStep.foldl_record_perm x hperm (fun s hs t ht => ?_) r.parentIds).symm
    exact eq_of_mem_linkSteps (hperm.mem_iff.1 hs) (hperm.mem_iff.1 ht)
  case determined =>
    intro dropped added hdropped hadded
    rw [hupdate, relinkBy_perm r x hdropped hadded]

/-- **Giving children at once and one by one comes to the same.** After a run with fresh ids, let a
formula be given existing children. It lists them without later repetitions, and the recorded
parents are those that come of taking the links to the dropped children and making those to the new
ones one by one, in any order. -/
theorem run_update_children {ops : List (Operation α)} (h : (empty : Registry α).FreshRun ops)
    {x : Text} {n : Node α} (hn : ((empty : Registry α).run ops).node? x = some n)
    (hformula : n.isFormula = true) {ids : List Text}
    (hids : ∀ id ∈ ids, ((empty : Registry α).run ops).nodes.contains id = true) :
    ChildrenGiven ((empty : Registry α).run ops) x ids :=
  (consistent_run consistent_empty h).childrenGiven hn hformula hids

end

/-- A formula with a missing child, a factor and itself below it, and another factor. -/
def rewired : List (Operation Exact) :=
  [.createFormula "a" "sum" "x + sum" ["z"] none none,
   .createFactor "x" "x" (.value 1) none none,
   .createFactor "y" "y" (.value 2) none none,
   .addChild "a" "x",
   .addChild "a" "a"]

/-- The formula keeps `x`, gains `y` and loses itself and the missing child, which cannot be
removed. -/
theorem run_update_children_rewired :
    let r := (empty : Registry Exact).run rewired
    let steps : List LinkStep := [.drop "a", .gain "y", .drop "z"]
    (empty : Registry Exact).FreshRun rewired ∧ (∃ n, r.node? "a" = some n ∧ n.isFormula = true) ∧
    (∀ id ∈ (["y", "x", "y"] : List Text), r.nodes.contains id = true) ∧
    steps.Perm (r.linkSteps "a" ["y", "x", "y"]) ∧
    (r.update "a" (.giveChildren ["y", "x", "y"])).2.parentIds =
      (r.run (steps.map (·.operation "a"))).parentIds ∧
    (r.run (steps.map (·.operation "a"))).parentIds "y" = ["a"] := by
  intro r steps
  have hfresh : (empty : Registry Exact).FreshRun rewired := by decide +kernel
  have hformula : (r.node? "a").any (·.isFormula) = true := by decide +kernel
  have hids : ∀ id ∈ (["y", "x", "y"] : List Text), r.nodes.contains id = true := by
    decide +kernel
  have hperm : steps.Perm (r.linkSteps "a" ["y", "x", "y"]) := by decide +kernel
  obtain ⟨n, hn, hkind⟩ := (Option.any_eq_true _ _).1 hformula
  have hgiven := run_update_children hfresh hn hkind hids
  exact ⟨hfresh, ⟨n, hn, hkind⟩, hids, hperm, hgiven.recorded steps hperm, by decide +kernel⟩

end Registry

end FormulaGraph
