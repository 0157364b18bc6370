import FormulaGraph.Proofs.Evaluation.Fresh
import FormulaGraph.Proofs.Evaluation.Locality
import FormulaGraph.Proofs.Registry.Edits
/-!
# Edits that are applied

An edit that is applied at a node first changes this node, and the recorded parents of others
(`EditedAt`); then it evaluates. It evaluates the node itself, or all roots after a factor has got a
value, or nothing when the node is evaluated from the same things as before.

`Applied` says so of an edit in one form, for all kinds of edits: `applied_addChild`,
`applied_removeChild`, `applied_update`. The node itself is current afterwards if it was before.
-/
namespace FormulaGraph

/-- What the value of a node is made of and whether it is up to date: its recipe and its computed
value. -/
def Node.standing {α : Type} (n : Node α) : (Body α × List Text) × Option α :=
  (n.recipe, n.computed)

theorem Node.standing_eq_of_alone_eq {α : Type} {n m : Node α} (h : n.alone = m.alone) :
    n.standing = m.standing := by
  simp only [Node.alone, Node.mk.injEq] at h
  obtain ⟨-, -, hbody, hlisted, -, hcomputed, -⟩ := h
  simp only [Node.standing, Node.recipe, Node.children, hbody, hlisted, hcomputed]

/-- A node that is no formula is evaluated from its body alone. -/
theorem Node.recipe_of_not_isFormula {α : Type} {n m : Node α} (hn : ¬n.isFormula = true)
    (hbody : m.body = n.body) : m.recipe = n.recipe := by
  unfold Node.recipe
  cases hb : n.body with
  | factor v => simp only [hbody, hb]
  | formula e => simp [Node.isFormula, Node.kind, hb] at hn

namespace Registry

variable {α : Type}

/-! ## A change at one node -/

/-- Nothing differs but the node `x` and the recorded parents of nodes. -/
structure EditedAt (x : Text) (r r' : Registry α) : Prop where
  exists_before : r.nodes.contains x = true
  exists_after : r'.nodes.contains x = true
  elsewhere : ∀ id, id ≠ x → (r'.node? id).map Node.alone = (r.node? id).map Node.alone

section

variable {x : Text} {r r' r'' : Registry α}

theorem EditedAt.symm (h : EditedAt x r r') : EditedAt x r' r :=
  ⟨h.exists_after, h.exists_before, fun id hid => (h.elsewhere id hid).symm⟩

theorem EditedAt.trans (h : EditedAt x r r') (h' : EditedAt x r' r'') : EditedAt x r r'' :=
  ⟨h.exists_before, h'.exists_after, fun id hid => (h'.elsewhere id hid).trans (h.elsewhere id hid)⟩

theorem EditedAt.standing (h : EditedAt x r r') {id : Text} (hid : id ≠ x) :
    (r'.node? id).map Node.standing = (r.node? id).map Node.standing :=
  map_eq_of_map_eq (fun _ _ => Node.standing_eq_of_alone_eq) (h.elsewhere id hid)

theorem EditedAt.of_agreeOn (hx : r.nodes.contains x = true) (h : AgreeOn Node.alone r r') :
    EditedAt x r r' :=
  ⟨hx, (h.contains x).trans hx, fun id _ => h.nodes id⟩

theorem editedAt_modify (hx : r.nodes.contains x = true) (f : Node α → Node α) :
    EditedAt x r (r.modify x f) := by
  refine ⟨hx, (contains_modify r x f x).trans hx, fun id hid => ?_⟩
  rw [node?_modify, if_neg hid]

theorem editedAt_relink (hx : r.nodes.contains x = true) (n : Node α) (listed : List (Json α)) :
    EditedAt x r (r.relink x n listed) := by
  have hregrouped := agreeOn_regroup r n (Json.textsAmong listed)
  rw [relink_eq]
  exact (EditedAt.of_agreeOn hx hregrouped).trans
    (editedAt_modify ((hregrouped.contains x).trans hx) _)

theorem editedAt_link (hx : r.nodes.contains x = true) (child : Text) :
    EditedAt x r (r.link x child) := by
  have hadded := editedAt_modify hx (·.addChild child)
  exact hadded.trans (EditedAt.of_agreeOn hadded.exists_after (agreeOn_adopt _ x [child]))

theorem editedAt_unlink (hx : r.nodes.contains x = true) (child : Text) :
    EditedAt x r (r.unlink x child) := by
  have hdropped := editedAt_modify hx (·.dropChild child)
  exact hdropped.trans (EditedAt.of_agreeOn hdropped.exists_after (agreeOn_disown _ x [child]))

/-- The nodes from which no chain of links leads to `x`, as far as they have kept their standing,
are evaluated as they were before the edit. -/
theorem EditedAt.unmoved (h : EditedAt x r r') :
    Unmoved r'.nodes r.nodes fun m => ¬Relation.TransGen (Link r'.nodes) m x ∧
      (r'.node? m).map Node.standing = (r.node? m).map Node.standing where
  recipe m hm := map_eq_of_map_eq (fun _ _ heq => congrArg Prod.fst heq) hm.2.symm
  names m n hm hn hformula c hc := by
    have hne : c ≠ x := by
      rintro rfl
      exact hm.1 (.single ⟨n, hn, hformula, hc, h.exists_after⟩)
    refine map_eq_of_map_eq (fun n m heq => ?_) (h.elsewhere c hne)
    show n.alone.name = m.alone.name
    rw [heq]
  closed p c hp hlink := by
    have hne : c ≠ x := by
      rintro rfl
      exact hp.1 (.single hlink)
    exact ⟨fun hdown => hp.1 (.head hlink hdown), h.standing hne⟩

end

/-! ## What was current stays current -/

section

variable [Scalar α] {x : Text} {r r' : Registry α}

theorem Current.of_standing (h : EditedAt x r r') {m : Text}
    (hm : ¬Relation.TransGen (Link r'.nodes) m x)
    (hstanding : (r'.node? m).map Node.standing = (r.node? m).map Node.standing)
    (hcurrent : Current r m) : Current r' m := by
  intro n' v hn' hv
  rw [evaluate_eq] at hv
  have hbefore : outcomeAlong r.nodes [] m = .ok v :=
    h.unmoved.outcomeAlong_eq_ok ⟨hm, hstanding⟩ hv
  rw [hn', Option.map_some] at hstanding
  obtain ⟨n, hn, heq⟩ := Option.map_eq_some_iff.1 hstanding.symm
  have hcomputed : n.computed = n'.computed := congrArg Prod.snd heq
  rw [← hcomputed]
  refine hcurrent n v hn ?_
  rw [evaluate_eq]
  exact hbefore

/-- An edit that leaves the standing of its node leaves it current. A node on a cycle is current
anyway. -/
theorem EditedAt.current_self (h : EditedAt x r r')
    (hstanding : (r'.node? x).map Node.standing = (r.node? x).map Node.standing)
    (hcurrent : Current r x) : Current r' x := by
  by_cases hcycle : Relation.TransGen (Link r'.nodes) x x
  · intro n v _ hv
    rw [evaluate_eq] at hv
    exact absurd hcycle (acyclicBelow_of_ok hv x .refl)
  · exact hcurrent.of_standing h hcycle hstanding

/-- An edit at `x` that leads from `r` to `r'`: after a change at `x`, some nodes are evaluated. -/
def Applied (x : Text) (r r' : Registry α) : Prop :=
  ∃ r₁ ids, EditedAt x r r₁ ∧ r' = (r₁.evaluateEach ids).2 ∧ (Current r x → Current r' x)

theorem applied_of_evaluate {r₁ : Registry α} (h : EditedAt x r r₁) :
    Applied x r (r₁.evaluate x).2 :=
  ⟨r₁, [x], h, rfl, fun _ => current_evaluate (renews_self r₁.nodes x)⟩

theorem applied_of_standing (h : EditedAt x r r') (hstanding : AgreeOn Node.standing r r') :
    Applied x r r' :=
  ⟨r', [], h, rfl, h.current_self (hstanding.nodes x)⟩

/-- A factor is current if its computed value is its value. -/
theorem current_of_factor {n : Node α} {v : α} (hn : r.node? x = some n)
    (hbody : n.body = .factor v) (hcomputed : n.computed = some v) : Current r x := by
  intro n' w hn' hw
  obtain rfl := Option.some.inj (hn.symm.trans hn')
  rw [evaluate_eq] at hw
  have hown : outcomeAlong r.nodes [] x = .ok v := by
    rw [outcomeAlong_of_get? hn List.not_mem_nil, ownOutcome, hbody]
  cases hown.symm.trans hw
  exact hcomputed

end

/-! ## The edits -/

section

variable [Scalar α] {x : Text} {r : Registry α}

theorem applied_addChild {child : Text} {evaluations : Evaluations α}
    (h : (r.addChild x child).1 = .ok evaluations) : Applied x r (r.addChild x child).2 := by
  unfold addChild at h ⊢
  cases hboth : r.both x child with
  | error e =>
    rw [hboth] at h
    cases h
  | ok pc =>
    obtain ⟨p, c⟩ := pc
    obtain ⟨hp, -⟩ := both_eq_ok hboth
    have hx : r.nodes.contains x = true := contains_iff_node?.2 ⟨p, hp⟩
    simp only [hboth] at h ⊢
    split at h
    · cases h
    · rename_i hformula
      rw [if_neg hformula]
      split
      · exact applied_of_standing (.of_agreeOn hx (.refl r)) (.refl r)
      · exact applied_of_evaluate (editedAt_link hx child)

theorem applied_removeChild {child : Text} {evaluations : Evaluations α}
    (h : (r.removeChild x child).1 = .ok evaluations) : Applied x r (r.removeChild x child).2 := by
  unfold removeChild at h ⊢
  cases hboth : r.both x child with
  | error e =>
    rw [hboth] at h
    cases h
  | ok pc =>
    obtain ⟨p, c⟩ := pc
    obtain ⟨hp, -⟩ := both_eq_ok hboth
    have hx : r.nodes.contains x = true := contains_iff_node?.2 ⟨p, hp⟩
    have hedited := editedAt_unlink hx child
    simp only [hboth] at h ⊢
    split at h
    · cases h
    · rename_i hlisted
      rw [if_neg hlisted]
      split
      · exact applied_of_evaluate hedited
      · rename_i hfactor
        -- a factor is evaluated alike whatever it lists
        refine applied_of_standing hedited (.trans (agreeOn_modify fun n hn => ?_)
          ((agreeOn_disown _ x [child]).mono fun _ _ => Node.standing_eq_of_alone_eq))
        obtain rfl := Option.some.inj (hp.symm.trans hn)
        have hrecipe : (p.dropChild child).recipe = p.recipe :=
          Node.recipe_of_not_isFormula hfactor rfl
        rw [Node.standing, hrecipe]
        rfl

/-- An update that is carried through changes the metadata, sets a value, or evaluates a formula. -/
theorem update_eq_ok {c : Changes α} {evaluations : Evaluations α}
    (h : (r.update x c).1 = .ok evaluations) :
    r.nodes.contains x = true ∧ (
      (c.value = none ∧ (r.update x c).2 = r.modify x c.applyMetadata) ∨
      (∃ given v, c.value = some given ∧ given.number = .ok v ∧
        (r.update x c).2 = ((r.modify x c.applyMetadata).setValue x v).2) ∨
      (c.value = none ∧ ∃ r₁, EditedAt x r r₁ ∧ (r.update x c).2 = (r₁.evaluate x).2)) := by
  obtain ⟨n, hn, hcarried⟩ := exists_carried h
  have hx : r.nodes.contains x = true := contains_iff_node?.2 ⟨n, hn⟩
  have hmetadata := editedAt_modify hx c.applyMetadata
  have hrewritten := hmetadata.trans (editedAt_modify hmetadata.exists_after c.applyExpression)
  refine ⟨hx, ?_⟩
  generalize (r.update x c).2 = r' at hcarried
  cases hcarried with
  | kept hvalue => exact .inl ⟨hvalue, rfl⟩
  | valued _ hvalue hnumber => exact .inr (.inl ⟨_, _, hvalue, hnumber, rfl⟩)
  | rewritten _ hvalue => exact .inr (.inr ⟨hvalue, _, hrewritten, rfl⟩)
  | @relinked _ listed _ hvalue =>
    have hrelinked := hrewritten.trans (editedAt_relink hrewritten.exists_after n listed)
    exact .inr (.inr ⟨hvalue, _, hrelinked, rfl⟩)

theorem applied_update {c : Changes α} {evaluations : Evaluations α}
    (h : (r.update x c).1 = .ok evaluations) : Applied x r (r.update x c).2 := by
  obtain ⟨hx, ⟨-, heq⟩ | ⟨given, v, -, -, heq⟩ | ⟨-, r₁, hedited, heq⟩⟩ := update_eq_ok h
  · rw [heq]
    exact applied_of_standing (editedAt_modify hx _) (agreeOn_modify fun _ _ => rfl)
  · rw [heq]
    have hmetadata := editedAt_modify hx c.applyMetadata
    have hset := editedAt_modify hmetadata.exists_after
      fun n => { n with body := .factor v, computed := some v }
    refine ⟨_, r.roots, hmetadata.trans hset, rfl, fun _ => ?_⟩
    obtain ⟨n, hn⟩ := contains_iff_node?.1 hmetadata.exists_after
    have hnode := node?_modify (r.modify x c.applyMetadata) x
      (fun n => { n with body := .factor v, computed := some v }) x
    rw [if_pos rfl, hn] at hnode
    exact (current_of_factor hnode rfl rfl).evaluateEach r.roots
  · rw [heq]
    exact applied_of_evaluate hedited

end

end Registry

end FormulaGraph
