import FormulaGraph.Proofs.Except
import FormulaGraph.Proofs.Registry.Astray
import FormulaGraph.Proofs.Registry.Edits
import FormulaGraph.Proofs.Registry.Refusals
/-!
# Interrupted updates

An update takes its arguments as it goes along. The name and the annotations are assigned first,
then the value of a factor is read as a number; of a formula the expression is assigned, then the
children are read as a list. Where the last argument is of no use the update breaks off there. It
has evaluated nothing and changed no link, but what it assigned before stays assigned. A name or an
expression that is astray is not looked at before the evaluations; one of these may be broken off,
with everything assigned.

* `update_eq_unusable_iff`: which updates break off at an argument.
* `update_of_unusable`: the registry that they leave.
* `Assigned.agreeOn_iff`: when everything that is assigned was there before.
* `Leaves`, `leaves_of_accepted`: how an update with any values ends, and what it leaves.
* `update_raised_unchanged_iff`: of all updates that raise an exception, which leave everything as
  it was.
* `update_raised_changed`: updates that leave something else.
-/
namespace FormulaGraph

variable {α : Type}

namespace Changes

/-- The value that is given for a factor is no number, or the children that are given for a formula
are no list. -/
inductive Unusable [Scalar α] (c : Changes α) (n : Node α) (e : ArgumentError) : Prop where
  | value {given : Json α} (hfactor : n.kind = .factor) (hvalue : c.value = some given)
      (hnumber : given.number = .error e)
  | children {given : Json α} (hformula : n.kind = .formula) (hchildren : c.children = some given)
      (hentries : given.entries = .error e)

/-- The name, the annotations and the expression that are given are those of the node. -/
structure Repeats (c : Changes α) (n : Node α) : Prop where
  name : ∀ s, c.name = some s → s = n.name
  description : ∀ v, c.description = some v → v = n.description
  unit : ∀ v, c.unit = some v → v = n.unit
  expression : ∀ e, c.expression = some e → .formula e = n.body

/-- The value or the list of children that is given is that of the node. -/
structure RepeatsArguments [Scalar α] (c : Changes α) (n : Node α) : Prop where
  value : ∀ v, c.value = some v → ∃ x, v.number = .ok x ∧ .factor x = n.body
  children : n.kind = .formula → ∀ v, c.children = some v → v.entries = .ok n.listed

theorem getD_eq_self_iff {β : Type} {given : Option β} {old : β} :
    given.getD old = old ↔ ∀ v, given = some v → v = old := by
  cases given <;> simp

theorem applyExpression_eq (c : Changes α) (n : Node α) :
    c.applyExpression n = { n with body := (c.expression.map .formula).getD n.body } := by
  unfold applyExpression
  cases c.expression <;> rfl

/-- What is assigned is what the node had. -/
theorem repeats_of_assign {c : Changes α} {n : Node α} (hname : (c.assign n).name = n.name)
    (hdescription : (c.assign n).description = n.description)
    (hunit : (c.assign n).unit = n.unit) (hbody : (c.assign n).body = n.body) : c.Repeats n := by
  rw [assign, applyExpression_eq] at hname hdescription hunit hbody
  refine ⟨getD_eq_self_iff.1 hname, getD_eq_self_iff.1 hdescription, getD_eq_self_iff.1 hunit,
    fun e he => getD_eq_self_iff.1 hbody _ ?_⟩
  rw [he, Option.map_some]

theorem assign_eq_self_iff {c : Changes α} {n : Node α} : c.assign n = n ↔ c.Repeats n := by
  constructor
  · intro h
    apply repeats_of_assign <;> rw [h]
  · intro h
    have hbody : (c.expression.map Body.formula).getD n.body = n.body := by
      refine getD_eq_self_iff.2 fun b hb => ?_
      obtain ⟨e, he, rfl⟩ := Option.map_eq_some_iff.1 hb
      exact h.expression e he
    rw [assign, applyExpression_eq]
    simp only [applyMetadata, getD_eq_self_iff.2 h.name, getD_eq_self_iff.2 h.description,
      getD_eq_self_iff.2 h.unit, hbody]

end Changes

namespace Registry

theorem modify_eq_self_iff {r : Registry α} {id : Text} {n : Node α} (hn : r.node? id = some n)
    {f : Node α → Node α} : r.modify id f = r ↔ f n = n := by
  constructor
  · intro h
    have hnode := node?_modify r id f id
    rw [h, if_pos rfl, hn, Option.map_some] at hnode
    exact (Option.some.inj hnode).symm
  · intro h
    have hentries : ∀ e ∈ r.nodes.entries, (e.1, if e.1 = id then f e.2 else e.2) = e := by
      rintro ⟨k, m⟩ he
      have hm : r.node? k = some m := OrderedMap.get?_eq_some_iff.2 he
      by_cases hk : k = id
      · subst hk
        obtain rfl := Option.some.inj (hn.symm.trans hm)
        simp [h]
      · simp [hk]
    unfold modify OrderedMap.modify OrderedMap.mapValues
    simp only [List.map_congr_left hentries, List.map_id']

variable [Scalar α]

/-! ## Arguments of no use -/

section

variable {r left : Registry α} {id : Text} {n : Node α} {c : Changes α} {e : ArgumentError}

/-- What is of no use is found when all that comes before it is assigned. -/
theorem unusable_of_assignChanges (h : r.assignChanges id n c = (.error e, left)) :
    c.Unusable n e ∧ left = r.modify id c.assign := by
  unfold assignChanges at h
  cases hkind : n.kind with
  | factor =>
    simp only [hkind] at h
    cases hvalue : c.value with
    | none => simp [hvalue] at h
    | some given =>
      cases hnumber : given.number with
      | error why =>
        simp only [hvalue, hnumber, Prod.mk.injEq, Except.error.injEq] at h
        obtain ⟨rfl, rfl⟩ := h
        exact ⟨.value hkind hvalue hnumber, rfl⟩
      | ok x => simp [hvalue, hnumber] at h
  | formula =>
    simp only [hkind] at h
    cases hchildren : c.children with
    | none => simp [hchildren] at h
    | some given =>
      cases hentries : given.entries with
      | error why =>
        simp only [hchildren, hentries, Prod.mk.injEq, Except.error.injEq] at h
        obtain ⟨rfl, rfl⟩ := h
        exact ⟨.children hkind hchildren hentries, rfl⟩
      | ok listed => simp [hchildren, hentries] at h

theorem assignChanges_of_unusable (h : c.Unusable n e) :
    r.assignChanges id n c = (.error e, r.modify id c.assign) := by
  unfold assignChanges
  cases h with
  | value hfactor hvalue hnumber => simp only [hfactor, hvalue, hnumber]
  | children hformula hchildren hentries => simp only [hformula, hchildren, hentries]

/-- An update breaks off at an argument of no use, when nothing about it was refused before. -/
theorem update_eq_unusable_iff :
    (r.update id c).1 = .error (.unusable e) ↔
      ∃ n, r.node? id = some n ∧ c.rejection? n = none ∧ c.Unusable n e := by
  constructor
  · intro h
    cases hn : r.node? id with
    | none => simp [update, hn] at h
    | some n =>
      cases haccepted : c.rejection? n with
      | some f => simp [update, hn, haccepted] at h
      | none =>
        rw [update_eq hn haccepted] at h
        rcases hassign : r.assignChanges id n c with ⟨why | ids, left⟩
        · rw [hassign] at h
          obtain rfl : why = e := by simpa using h
          exact ⟨n, rfl, haccepted, (unusable_of_assignChanges hassign).1⟩
        · rw [hassign] at h
          cases h
  · rintro ⟨n, hn, haccepted, hunusable⟩
    rw [update_eq hn haccepted, assignChanges_of_unusable hunusable]

theorem update_of_unusable (hn : r.node? id = some n) (haccepted : c.rejection? n = none)
    (hunusable : c.Unusable n e) : (r.update id c).2 = r.modify id c.assign := by
  rw [update_eq hn haccepted, assignChanges_of_unusable hunusable]

/-! ## Arguments of use -/

omit [Scalar α] in
/-- The children that a node has already are no change. -/
theorem relink_self (hn : r.node? id = some n) : r.relink id n n.listed = r := by
  have hdropped : n.children.eraseDups.filter (· ∉ n.children) = [] := by
    simp [List.filter_eq_nil_iff, List.mem_eraseDups]
  have hlisted : r.modify id (fun m => { m with listed := n.listed }) = r :=
    (modify_eq_self_iff hn).2 rfl
  unfold relink
  rw [← Node.children]
  simp only [hdropped]
  exact hlisted

/-- Where everything but computed values is as before, what was given is what the node had. -/
theorem Assigned.repeats {left : Registry α} (h : Assigned r id n c left)
    (hn : r.node? id = some n) (haccepted : c.rejection? n = none)
    (hsame : AgreeOn Node.unevaluated r left) : c.Repeats n ∧ c.RepeatsArguments n := by
  cases h with
  | kept hvalue hchildren =>
    have hunevaluated := (agreeOn_modify_iff hn).1 hsame
    simp only [Node.unevaluated, Node.mk.injEq] at hunevaluated
    obtain ⟨-, hname, hbody, -, -, -, hdescription, hunit⟩ := hunevaluated
    refine ⟨Changes.repeats_of_assign hname hdescription hunit hbody, ?_, ?_⟩
    · intro v hv
      cases hvalue.symm.trans hv
    · intro hformula v hv
      cases (hchildren hformula).symm.trans hv
  | @valued given x hfactor hvalue hnumber =>
    rw [modify_modify] at hsame
    have hunevaluated := (agreeOn_modify_iff hn).1 hsame
    simp only [Node.unevaluated, Node.mk.injEq] at hunevaluated
    obtain ⟨-, hname, hbody, -, -, -, hdescription, hunit⟩ := hunevaluated
    have hkept : (c.assign n).body = n.body := by
      rw [Changes.assign, Changes.applyExpression_eq,
        Changes.expression_of_factor haccepted hfactor]
      rfl
    refine ⟨Changes.repeats_of_assign hname hdescription hunit hkept, fun v hv => ?_, ?_⟩
    · obtain rfl := Option.some.inj (hvalue.symm.trans hv)
      exact ⟨x, hnumber, hbody⟩
    · intro hformula
      cases hfactor.symm.trans hformula
  | @relinked given listed hformula hvalue hchildren hentries =>
    have hassigned : (r.modify id c.assign).node? id = some (c.assign n) := by
      rw [node?_modify, if_pos rfl, hn, Option.map_some]
    -- the links that change are parents, and the node itself gets the children
    rw [relink_eq] at hsame
    have hregrouped := agreeOn_regroup (r.modify id c.assign) n (Json.textsAmong listed)
    obtain ⟨m, hm, halone⟩ := hregrouped.symm.node? hassigned
    have hnode := hsame.nodes id
    rw [node?_modify, if_pos rfl, hm, hn, Option.map_some, Option.map_some, Option.map_some,
      Option.some.injEq] at hnode
    simp only [Node.unevaluated, Node.mk.injEq] at hnode
    simp only [Node.alone, Node.mk.injEq] at halone
    obtain ⟨-, hname, hbody, rfl, -, -, hdescription, hunit⟩ := hnode
    obtain ⟨-, hname', hbody', -, -, -, hdescription', hunit'⟩ := halone
    refine ⟨Changes.repeats_of_assign (hname'.symm.trans hname)
      (hdescription'.symm.trans hdescription) (hunit'.symm.trans hunit)
      (hbody'.symm.trans hbody), ?_, fun _ v hv => ?_⟩
    · intro v hv
      cases hvalue.symm.trans hv
    · obtain rfl := Option.some.inj (hchildren.symm.trans hv)
      exact hentries

/-- To give a node what it has changes at most its computed value. -/
theorem Assigned.agreeOn {left : Registry α} (h : Assigned r id n c left)
    (hn : r.node? id = some n) (hrepeats : c.Repeats n) (harguments : c.RepeatsArguments n) :
    AgreeOn Node.unevaluated r left := by
  have hkept : r.modify id c.assign = r :=
    (modify_eq_self_iff hn).2 (Changes.assign_eq_self_iff.2 hrepeats)
  cases h with
  | kept _ _ => rw [hkept]; exact .refl r
  | valued hfactor hvalue hnumber =>
    obtain ⟨x', hx', hbody⟩ := harguments.value _ hvalue
    obtain rfl := Except.ok.inj (hnumber.symm.trans hx')
    rw [hkept]
    refine (agreeOn_modify_iff hn).2 ?_
    simp only [Node.unevaluated, hbody]
  | relinked hformula _ hchildren hentries =>
    obtain rfl := Except.ok.inj (hentries.symm.trans (harguments.children hformula _ hchildren))
    rw [hkept, relink_self hn]
    exact .refl r

/-- Everything but computed values is as before exactly if all that was given is what the node
had. -/
theorem Assigned.agreeOn_iff {left : Registry α} (h : Assigned r id n c left)
    (hn : r.node? id = some n) (haccepted : c.rejection? n = none) :
    AgreeOn Node.unevaluated r left ↔ c.Repeats n ∧ c.RepeatsArguments n := by
  constructor
  · exact h.repeats hn haccepted
  · rintro ⟨hrepeats, harguments⟩
    exact h.agreeOn hn hrepeats harguments

end

end Registry

/-! ## Values of any type -/

namespace AnyChanges

/-- All that is given besides a value and children is what the node under a key has. -/
structure Repeats (a : AnyChanges α) (s : Strays α) (key : Text) (n : Node α) : Prop where
  name : ∀ v, a.name = some v → v = s.name key n
  description : ∀ v, a.description = some v → v = n.description
  unit : ∀ v, a.unit = some v → v = n.unit
  expression : ∀ v, a.expression = some v → ∃ e, .formula e = n.body ∧ v = s.expression key e

/-- What is given repeats what the node has exactly if to assign it changes nothing. -/
theorem repeats_iff {a : AnyChanges α} {s : Strays α} {key : Text} {n : Node α} :
    a.Repeats s key n ↔ s.assign key a = s ∧ (a.changes n).Repeats n := by
  rw [Strays.assign_eq_self_iff]
  constructor
  · intro h
    refine ⟨⟨fun v hv => ?_, fun v hv => ?_⟩, fun t ht => ?_, h.description, h.unit, fun e he => ?_⟩
    · rw [h.name v hv, Strays.strayName?_name]
    · obtain ⟨e, -, rfl⟩ := h.expression v hv
      rw [Strays.strayExpression?_expression]
    · obtain ⟨v, hv, htext⟩ := Option.bind_eq_some_iff.1 ht
      rw [h.name v hv] at htext
      exact Strays.eq_of_text?_name htext
    · obtain ⟨v, hv, rfl⟩ := Option.map_eq_some_iff.1 he
      obtain ⟨e, hbody, rfl⟩ := h.expression v hv
      have hold : n.expression? = e := by
        rw [Node.expression?, ← hbody]
      rw [hold, Strays.getD_expression, hbody]
  · rintro ⟨⟨hname, hexpression⟩, h⟩
    refine ⟨fun v hv => ?_, h.description, h.unit, fun v hv => ?_⟩
    · refine Strays.eq_name (hname v hv) fun t ht => h.name t ?_
      rw [changes, hv, Option.bind_some, ht]
    · refine ⟨_, h.expression _ ?_, Strays.eq_expression (hexpression v hv) n.expression?⟩
      rw [changes, hv, Option.map_some]

end AnyChanges

namespace Astray

variable [Scalar α] {s : Astray α} {id : Text} {a : AnyChanges α} {n : Node α}

theorem rejection?_eq_none_iff :
    s.rejection? id n a = none ↔ (a.changes n).rejection? n = none :=
  Changes.rejection?_withName_eq_none_iff _

/-- How an update ends that nothing was refused about, and what it leaves: at an argument of no use
all that comes before it is assigned; otherwise everything, and some values are written. Where an
evaluation is broken off something is astray. -/
inductive Leaves (s : Astray α) (id : Text) (a : AnyChanges α) (n : Node α) :
    Except UpdateFault (Evaluations α) → Astray α → Prop where
  | unusable {e : ArgumentError} (hunusable : (a.changes n).Unusable n e) :
    Leaves s id a n (.error (.unusable e))
      ⟨s.registry.modify id (a.changes n).assign, s.strays.assign id a⟩
  | astray {why : TypeFault} {left : Registry α} {notes : Registry.Notes α}
    (hassigned : s.registry.Assigned id n (a.changes n) left)
    (hastray : ¬(Astray.mk left (s.strays.assign id a)).Straight) :
    Leaves s id a n (.error (.astray why)) ⟨left.write notes, s.strays.assign id a⟩
  | carried {evaluations : Evaluations α} {left : Registry α} {notes : Registry.Notes α}
    (hassigned : s.registry.Assigned id n (a.changes n) left) :
    Leaves s id a n (.ok evaluations) ⟨left.write notes, s.strays.assign id a⟩

theorem leaves_of_accepted (hn : s.registry.node? id = some n)
    (haccepted : s.rejection? id n a = none) :
    Leaves s id a n (s.update id a).1 (s.update id a).2 := by
  unfold update
  simp only [hn, haccepted]
  rcases hassign : s.registry.assignChanges id n (a.changes n) with ⟨e | ids, left⟩
  · obtain ⟨hunusable, rfl⟩ := Registry.unusable_of_assignChanges hassign
    exact .unusable hunusable
  · have hassigned :=
      Registry.assigned_of_assignChanges (rejection?_eq_none_iff.1 haccepted) hassign
    obtain ⟨notes, hleft⟩ :=
      (Astray.mk left (s.strays.assign id a)).evaluateEach_leaves .empty ids
    dsimp only
    split
    · rename_i why s' hs'
      rw [hs'] at hleft
      obtain rfl := hleft
      refine .astray hassigned fun hstraight => ?_
      -- with nothing astray the evaluations come to their end
      rw [evaluateEach_off hstraight] at hs'
      cases hs'
    · rename_i evaluations s' hs'
      rw [hs'] at hleft
      obtain rfl := hleft
      exact .carried hassigned

/-- An update that is not refused has found its node, and nothing about it was refused. -/
theorem exists_leaves (h : ∀ f, (s.update id a).1 ≠ .error (.rejected f)) :
    ∃ n, s.registry.node? id = some n ∧ s.rejection? id n a = none ∧
      Leaves s id a n (s.update id a).1 (s.update id a).2 := by
  cases hn : s.registry.node? id with
  | none => exact absurd (by simp [update, hn]) (h (.nodeNotFound id))
  | some n =>
    cases haccepted : s.rejection? id n a with
    | some f => exact absurd (by simp [update, hn, haccepted]) (h f)
    | none => exact ⟨n, rfl, haccepted, leaves_of_accepted hn haccepted⟩

/-- An update that is refused changes nothing. -/
theorem update_of_rejected {f : Failure} (h : (s.update id a).1 = .error (.rejected f)) :
    (s.update id a).2 = s := by
  cases hn : s.registry.node? id with
  | none => simp [update, hn]
  | some n =>
    cases haccepted : s.rejection? id n a with
    | some f => simp [update, hn, haccepted]
    | none =>
      have hleaves := leaves_of_accepted hn haccepted
      rw [h] at hleaves
      cases hleaves

variable {e : UpdateFault}

/-- Whether an update that breaks off has changed anything is decided by what was given before the
value and the children; when an evaluation is broken off also by these, and by the values that were
written. -/
theorem Leaves.unchanged_iff {s' : Astray α} (h : Leaves s id a n (.error e) s')
    (hn : s.registry.node? id = some n) (haccepted : s.rejection? id n a = none) :
    s' = s ↔ a.Repeats s.strays id n ∧ ∀ why, e = .astray why →
      (a.changes n).RepeatsArguments n ∧
        Registry.AgreeOn Node.computed s.registry s'.registry := by
  obtain ⟨r, strays⟩ := s
  rw [AnyChanges.repeats_iff]
  cases h with
  | unusable _ =>
    rw [Astray.mk.injEq, Registry.modify_eq_self_iff hn, Changes.assign_eq_self_iff, and_comm]
    exact ⟨fun h => ⟨h, nofun⟩, And.left⟩
  | @astray why left notes hassigned _ =>
    have hrepeats := hassigned.agreeOn_iff hn (rejection?_eq_none_iff.1 haccepted)
    have hwritten := Registry.agreeOn_write left notes
    constructor
    · rintro heq
      obtain ⟨hregistry, hstrays⟩ := Astray.mk.inj heq
      rw [hregistry] at hwritten
      obtain ⟨hgiven, harguments⟩ := hrepeats.1 hwritten.symm
      refine ⟨⟨hstrays, hgiven⟩, fun _ _ => ⟨harguments, ?_⟩⟩
      dsimp only
      rw [hregistry]
      exact .refl r
    · rintro ⟨⟨hstrays, hgiven⟩, hraised⟩
      obtain ⟨harguments, hcomputed⟩ := hraised why rfl
      have hregistry : left.write notes = r := by
        have hunevaluated := (hrepeats.2 ⟨hgiven, harguments⟩).trans hwritten
        refine Registry.eq_of_agreeOn ?_ hunevaluated hcomputed
        exact (Registry.keys_write left notes).trans hassigned.keys
      rw [Astray.mk.injEq]
      exact ⟨hregistry, hstrays⟩

/-- Where all names and expressions had their types, no evaluation is broken off unless one is given
that has not. -/
theorem Leaves.unchanged_iff_of_straight {s' : Astray α} (h : Leaves s id a n (.error e) s')
    (hn : s.registry.node? id = some n) (haccepted : s.rejection? id n a = none)
    (hs : s.Straight) : s' = s ↔ a.Repeats s.strays id n := by
  rw [h.unchanged_iff hn haccepted]
  refine ⟨And.left, fun hrepeats => ⟨hrepeats, fun why hwhy => ?_⟩⟩
  subst hwhy
  cases h with
  | astray hassigned hastray =>
    rw [(AnyChanges.repeats_iff.1 hrepeats).1] at hastray
    exact absurd (Strays.Off.of_keys hs hassigned.keys) hastray

theorem Leaves.strays_eq {ends : Except UpdateFault (Evaluations α)} {s' : Astray α}
    (h : Leaves s id a n ends s') : s'.strays = s.strays.assign id a := by
  cases h <;> rfl

theorem leaves_of_raised (h : (s.update id a).1 = .error e) (hraised : ∀ f, e ≠ .rejected f) :
    ∃ n, s.registry.node? id = some n ∧ s.rejection? id n a = none ∧
      Leaves s id a n (.error e) (s.update id a).2 := by
  rw [← h]
  refine exists_leaves fun f hf => ?_
  exact hraised f (Except.error.inj (h.symm.trans hf))

theorem changed_of_not_repeats (h : (s.update id a).1 = .error e)
    (hraised : ∀ f, e ≠ .rejected f) (hn : s.registry.node? id = some n)
    (hnot : ¬a.Repeats s.strays id n) : (s.update id a).2 ≠ s := by
  obtain ⟨m, hm, haccepted, hleaves⟩ := leaves_of_raised h hraised
  obtain rfl := Option.some.inj (hn.symm.trans hm)
  exact fun heq => hnot ((hleaves.unchanged_iff hm haccepted).1 heq).1

/-- **Updates that raise an exception.** When an update raises, its node exists and nothing was
refused. It leaves the registry from before exactly if all that was given besides a value and
children is what the node had, and, where an evaluation was broken off, the value and the children
are so as well and no other values were computed. Where all names and expressions had their types
the first of these is enough. -/
theorem update_raised_unchanged_iff (h : (s.update id a).1 = .error e)
    (hraised : ∀ f, e ≠ .rejected f) :
    ∃ n, s.registry.node? id = some n ∧ s.rejection? id n a = none ∧
      Leaves s id a n (.error e) (s.update id a).2 ∧
      ((s.update id a).2 = s ↔ a.Repeats s.strays id n ∧ ∀ why, e = .astray why →
        (a.changes n).RepeatsArguments n ∧
          Registry.AgreeOn Node.computed s.registry (s.update id a).2.registry) ∧
      (s.Straight → ((s.update id a).2 = s ↔ a.Repeats s.strays id n)) := by
  obtain ⟨n, hn, haccepted, hleaves⟩ := leaves_of_raised h hraised
  exact ⟨n, hn, haccepted, hleaves, hleaves.unchanged_iff hn haccepted,
    hleaves.unchanged_iff_of_straight hn haccepted⟩

end Astray

namespace Registry

/-- A registry whose nodes have nothing in the place of a name or an expression. -/
def astray (r : Registry α) : Astray α := ⟨r, .empty⟩

theorem straight_astray (r : Registry α) : r.astray.Straight := ⟨fun _ _ => rfl, fun _ _ => rfl⟩

end Registry

namespace Astray

open Registry (halved)

/-- The name and the unit of the factor once more, and a value that is no number. -/
def repeated : AnyChanges Exact :=
  { AnyChanges.empty with
    name := some (.text "a"), unit := some .null, value := some (.text "abc") }

theorem update_raised_unchanged_repeated :
    (halved.astray.update "a" repeated).1 = .error (.unusable (.unreadableNumber "abc")) ∧
    (halved.astray.update "a" repeated).2 = halved.astray := by
  have hraised : (halved.astray.update "a" repeated).1 =
      .error (.unusable (.unreadableNumber "abc")) :=
    error_of_map (f := fun _ => ()) (by decide +kernel)
  obtain ⟨n, hn, -, -, -, hunchanged⟩ := update_raised_unchanged_iff hraised nofun
  obtain rfl := Option.some.inj hn
  refine ⟨hraised, (hunchanged (Registry.straight_astray halved)).2 ⟨?_, nofun, ?_, nofun⟩⟩
  · rintro s ⟨⟩
    rfl
  · rintro v ⟨⟩
    rfl

/-- Another name for the factor, and a value that is no number. -/
def renamed : AnyChanges Exact :=
  { AnyChanges.empty with name := some (.text "b"), value := some (.text "abc") }

/-- Another expression for the formula, and children that are nothing. -/
def rewritten : AnyChanges Exact :=
  { AnyChanges.empty with expression := some (.text "a * 3"), children := some .null }

/-- A number for the expression of the formula. -/
def numbered : AnyChanges Exact := { AnyChanges.empty with expression := some (.int 5) }

/-- A list for the name of the factor, and a value. -/
def nameless : AnyChanges Exact :=
  { AnyChanges.empty with name := some (.list []), value := some (.int 3) }

/-- A value for the factor and nothing else. -/
def valued : AnyChanges Exact := { AnyChanges.empty with value := some (.int 3) }

/-- None of these updates leaves the registry as it was, and all raise an exception: the factor has
another name; the formula another expression, and the value of the old one; the formula a number for
an expression; the factor a list for a name, and a new value. After the third of them a value alone
is enough: the factor has it, and the formula cannot be evaluated. -/
theorem update_raised_changed :
    ((halved.astray.update "a" renamed).1 = .error (.unusable (.unreadableNumber "abc")) ∧
      (halved.astray.update "a" renamed).2 ≠ halved.astray ∧
      ((halved.astray.update "a" renamed).2.registry.node? "a").map (·.name) =
        some (.ofString "b")) ∧
    ((halved.astray.update "h" rewritten).1 = .error (.unusable (.noItems "NoneType")) ∧
      (halved.astray.update "h" rewritten).2 ≠ halved.astray ∧
      ((halved.astray.update "h" rewritten).2.registry.node? "h").bind (·.expression?) =
        some (.ofString "a * 3") ∧
      ((halved.astray.update "h" rewritten).2.registry.node? "h").bind (·.computed) =
        some (.value 3)) ∧
    ((halved.astray.update "h" numbered).1 = .error (.astray (.noLength "int")) ∧
      (halved.astray.update "h" numbered).2 ≠ halved.astray ∧
      ((halved.astray.update "h" numbered).2.strays.expressions "h").map (·.1) =
        some (.int 5)) ∧
    ((halved.astray.update "a" nameless).1 = .error (.astray (.unhashable "list")) ∧
      (halved.astray.update "a" nameless).2 ≠ halved.astray ∧
      ((halved.astray.update "a" nameless).2.strays.names "a").map (·.1) = some (.list []) ∧
      ((halved.astray.update "a" nameless).2.registry.node? "a").bind (·.computed) =
        some (.value 3)) ∧
    (((halved.astray.update "h" numbered).2.update "a" valued).1 =
        .error (.astray (.noLength "int")) ∧
      ((halved.astray.update "h" numbered).2.update "a" valued).2 ≠
        (halved.astray.update "h" numbered).2 ∧
      (((halved.astray.update "h" numbered).2.update "a" valued).2.registry.node? "a").bind
        (·.computed) = some (.value 3)) := by
  have hrenamed : (halved.astray.update "a" renamed).1 =
      .error (.unusable (.unreadableNumber "abc")) :=
    error_of_map (f := fun _ => ()) (by decide +kernel)
  have hrewritten : (halved.astray.update "h" rewritten).1 =
      .error (.unusable (.noItems "NoneType")) :=
    error_of_map (f := fun _ => ()) (by decide +kernel)
  have hnumbered : (halved.astray.update "h" numbered).1 = .error (.astray (.noLength "int")) :=
    error_of_map (f := fun _ => ()) (by decide +kernel)
  have hnameless : (halved.astray.update "a" nameless).1 =
      .error (.astray (.unhashable "list")) :=
    error_of_map (f := fun _ => ()) (by decide +kernel)
  have hvalued : ((halved.astray.update "h" numbered).2.update "a" valued).1 =
      .error (.astray (.noLength "int")) :=
    error_of_map (f := fun _ => ()) (by decide +kernel)
  refine ⟨⟨hrenamed, changed_of_not_repeats hrenamed nofun rfl fun h => ?_, by decide +kernel⟩,
    ⟨hrewritten, changed_of_not_repeats hrewritten nofun rfl fun h => ?_, by decide +kernel,
      by decide +kernel⟩,
    ⟨hnumbered, changed_of_not_repeats hnumbered nofun rfl fun h => ?_, ?_⟩,
    ⟨hnameless, changed_of_not_repeats hnameless nofun rfl fun h => ?_, ?_, by decide +kernel⟩,
    ⟨hvalued, fun heq => ?_, by decide +kernel⟩⟩
  · exact absurd (Json.text.inj (h.name _ rfl)) (by decide)
  · obtain ⟨e, hbody, he⟩ := h.expression _ rfl
    have hsame : Json.text? (.ofText? e : Json Exact) = some "a * 3" := by
      change (halved.astray.strays.expression "h" e).text? = _
      rw [← he]
      rfl
    rw [Json.text?_ofText?] at hsame
    have hold := (Body.formula.inj hbody).symm.trans hsame
    exact absurd (Option.some.inj hold) (by decide)
  · obtain ⟨e, -, he⟩ := h.expression _ rfl
    cases e <;> cases he
  · obtain ⟨_, -, -, hleaves⟩ := leaves_of_raised hnumbered nofun
    rw [hleaves.strays_eq]
    rfl
  · cases h.name _ rfl
  · obtain ⟨_, -, -, hleaves⟩ := leaves_of_raised hnameless nofun
    rw [hleaves.strays_eq]
    rfl
  · obtain ⟨n, hn, haccepted, hleaves⟩ := leaves_of_raised hvalued nofun
    obtain ⟨-, hraised⟩ := (hleaves.unchanged_iff hn haccepted).1 heq
    obtain ⟨x, hx, hbody⟩ := (hraised _ rfl).1.value _ rfl
    obtain rfl := Except.ok.inj hx
    have hcurrent : ((halved.astray.update "h" numbered).2.registry.node? "a").map
        (·.currentValue) = some (.value 8) := by decide +kernel
    rw [hn, Option.map_some, Node.currentValue, ← hbody] at hcurrent
    have hvalue : (Scalar.ofInt 3 : Exact) = .value 8 := Option.some.inj hcurrent
    exact absurd hvalue (by decide +kernel)

end Astray

end FormulaGraph
