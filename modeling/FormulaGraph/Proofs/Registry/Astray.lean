import FormulaGraph.Proofs.Evaluation.Roots
import FormulaGraph.Proofs.Registry.Assigned
import FormulaGraph.Proofs.Registry.Edits
import FormulaGraph.Proofs.Text.Sorted
import FormulaGraph.Registry.Astray
import Mathlib.Data.List.TakeWhile
/-!
# Two views of an update

What stands in the place of names and expressions is kept beside the registry (`Strays`). A value
that is given has two parts, one with the type of the field and one without, and one of them is
nothing; so to assign a value that is there already changes neither part (`assign_eq_self_iff`,
`eq_name`, `eq_expression`).

Where no existing node has such a value (`Strays.Off`, `Astray.Straight`) both evaluate alike, and
an update with changes of the right types is that of the registry.

* `evaluateAlong_off`: with nothing astray the two evaluations are the same.
* `evaluateEach_leaves`: evaluations write values, whether they come to an end or not.
* `Registry.update_eq`: an update assigns what it is given and then evaluates.
* `Registry.Assigned`: what it assigns when all arguments are of use.
* `Astray.update_ofChanges`: on values of the right types the two updates agree.
-/
namespace FormulaGraph

variable {α : Type}

/-! ## Names and expressions of any type -/

namespace Json

theorem expression?_eq_some_iff {v : Json α} {e : Option Text} :
    v.expression? = some e ↔ v = .ofText? e := by
  cases v <;> cases e <;> simp [expression?, ofText?]

theorem expression?_ofText? (e : Option Text) : (ofText? e : Json α).expression? = some e :=
  expression?_eq_some_iff.2 rfl

theorem strayName?_eq_none_iff {v : Json α} : v.strayName? = none ↔ ∃ t, v = .text t := by
  unfold strayName?
  cases v <;> simp [text?]

theorem strayExpression?_eq_none_iff {v : Json α} :
    v.strayExpression? = none ↔ ∃ e, v = .ofText? e := by
  unfold strayExpression?
  split
  · rename_i h
    refine iff_of_false nofun ?_
    rintro ⟨e, rfl⟩
    cases (expression?_ofText? e).symm.trans h
  · rename_i h
    obtain ⟨e, he⟩ := Option.ne_none_iff_exists'.1 h
    exact iff_of_true rfl ⟨e, expression?_eq_some_iff.1 he⟩

theorem strayName?_eq_some_iff {v : Json α} {w : StrayName α} :
    v.strayName? = some w ↔ v = w.1 := by
  unfold strayName?
  constructor
  · intro h
    split at h
    · exact congrArg Subtype.val (Option.some.inj h)
    · cases h
  · rintro rfl
    rw [dif_pos w.2]

theorem strayExpression?_eq_some_iff {v : Json α} {w : StrayExpression α} :
    v.strayExpression? = some w ↔ v = w.1 := by
  unfold strayExpression?
  constructor
  · intro h
    split at h
    · exact congrArg Subtype.val (Option.some.inj h)
    · cases h
  · rintro rfl
    rw [dif_pos w.2]

end Json

namespace Strays

variable {s : Strays α} {key : Text} {a : AnyChanges α}

theorem names_assign_of_ne {k : Text} (hk : k ≠ key) : (s.assign key a).names k = s.names k := by
  unfold assign
  cases a.name with
  | none => rfl
  | some v => exact if_neg hk

theorem expressions_assign_of_ne {k : Text} (hk : k ≠ key) :
    (s.assign key a).expressions k = s.expressions k := by
  unfold assign
  cases a.expression with
  | none => rfl
  | some v => exact if_neg hk

/-- Where the name was a text, it is one unless something else is given. -/
theorem names_assign_eq_none_iff (hs : s.names key = none) :
    (s.assign key a).names key = none ↔ ∀ v, a.name = some v → ∃ t, v = .text t := by
  unfold assign
  cases a.name with
  | none => simpa using hs
  | some v => simp [Json.strayName?_eq_none_iff]

theorem expressions_assign_eq_none_iff (hs : s.expressions key = none) :
    (s.assign key a).expressions key = none ↔
      ∀ v, a.expression = some v → ∃ e, v = .ofText? e := by
  unfold assign
  cases a.expression with
  | none => simpa using hs
  | some v => simp [Json.strayExpression?_eq_none_iff]

/-- To put a value where it is already changes nothing. -/
theorem ite_eq_self_iff {β : Type} {f : Text → β} {v : β} :
    (fun k => if k = key then v else f k) = f ↔ v = f key := by
  have hupdate : (fun k => if k = key then v else f k) = Function.update f key v :=
    funext fun k => (Function.update_apply f key v k).symm
  rw [hupdate, Function.update_eq_self_iff]

theorem assign_eq_self_iff : s.assign key a = s ↔
    (∀ v, a.name = some v → v.strayName? = s.names key) ∧
      ∀ v, a.expression = some v → v.strayExpression? = s.expressions key := by
  obtain ⟨names, expressions⟩ := s
  unfold assign
  cases a.name <;> cases a.expression <;>
    simp [ite_eq_self_iff]

theorem strayName?_name (s : Strays α) (key : Text) (n : Node α) :
    (s.name key n).strayName? = s.names key := by
  unfold name
  cases s.names key with
  | none => exact Json.strayName?_eq_none_iff.2 ⟨n.name, rfl⟩
  | some w => exact Json.strayName?_eq_some_iff.2 rfl

theorem eq_of_text?_name {n : Node α} {t : Text} (h : (s.name key n).text? = some t) :
    t = n.name := by
  unfold name at h
  cases hnames : s.names key with
  | none =>
    rw [hnames] at h
    exact (Option.some.inj h).symm
  | some w =>
    rw [hnames] at h
    cases w.2.symm.trans h

theorem strayExpression?_expression (s : Strays α) (key : Text) (e : Option Text) :
    (s.expression key e).strayExpression? = s.expressions key := by
  unfold expression
  cases s.expressions key with
  | none => exact Json.strayExpression?_eq_none_iff.2 ⟨e, rfl⟩
  | some w => exact Json.strayExpression?_eq_some_iff.2 rfl

/-- The part of an expression that is one is that of the node. -/
theorem getD_expression (s : Strays α) (key : Text) (e : Option Text) :
    (s.expression key e).expression?.getD e = e := by
  unfold expression
  cases s.expressions key with
  | none => simp [Json.expression?_ofText?]
  | some w => simp [w.2]

/-- A value has two parts, the one that has the type and the one that has not. -/
theorem eq_name {v : Json α} {n : Node α} (hstray : v.strayName? = s.names key)
    (htext : ∀ t, v.text? = some t → t = n.name) : v = s.name key n := by
  unfold name
  cases hnames : s.names key with
  | none =>
    obtain ⟨t, rfl⟩ := Json.strayName?_eq_none_iff.1 (hstray.trans hnames)
    rw [htext t rfl]
  | some w => exact Json.strayName?_eq_some_iff.1 (hstray.trans hnames)

theorem eq_expression {v : Json α} (hstray : v.strayExpression? = s.expressions key)
    (old : Option Text) : v = s.expression key (v.expression?.getD old) := by
  unfold expression
  cases hexpressions : s.expressions key with
  | none =>
    obtain ⟨e, rfl⟩ := Json.strayExpression?_eq_none_iff.1 (hstray.trans hexpressions)
    simp [Json.expression?_ofText?]
  | some w => exact Json.strayExpression?_eq_some_iff.1 (hstray.trans hexpressions)

/-- No existing node has anything in the place of a name or an expression. -/
structure Off (s : Strays α) (nodes : OrderedMap Text (Node α)) : Prop where
  name : ∀ k ∈ nodes.keys, s.names k = none
  expression : ∀ k ∈ nodes.keys, s.expressions k = none

theorem Off.of_keys {nodes nodes' : OrderedMap Text (Node α)} (hs : s.Off nodes)
    (hkeys : nodes'.keys = nodes.keys) : s.Off nodes' :=
  ⟨hkeys ▸ hs.name, hkeys ▸ hs.expression⟩

end Strays

/-! ## Evaluations with nothing astray -/

theorem Text.isEmpty_iff {t : Text} : t.isEmpty = true ↔ t = "" := by
  obtain ⟨points⟩ := t
  cases points with
  | nil => exact iff_of_true rfl rfl
  | cons p points => exact iff_of_false nofun nofun

variable [Scalar α]

namespace Json

theorem isGiven_ofText? (e : Option Text) :
    (ofText? e : Json α).isGiven = (e.filter (!·.isEmpty)).isSome := by
  cases e with
  | none => rfl
  | some s =>
    rw [ofText?, isGiven, Option.filter_some]
    by_cases h : s = ""
    · simp [h, Text.isEmpty_iff.2]
    · simp [h, mt Text.isEmpty_iff.1 h]

omit [Scalar α] in
theorem forM_lookUp_texts (ts : List Text) :
    (ts.map .text : List (Json α)).forM lookUp = .ok () := by
  induction ts with
  | nil => rfl
  | cons t rest ih => exact ih

theorem countP_sameItem_texts (t : Text) (ts : List Text) :
    (ts.map .text : List (Json α)).countP (sameItem (.text t)) = ts.count t := by
  rw [List.countP_map, List.count]
  refine List.countP_congr fun u _ => ?_
  rw [Function.comp_apply, sameItem_text, text.injEq, beq_iff_eq]

/-- Texts are put in the order of names. -/
theorem sorted_texts (ts : List Text) :
    sorted (ts.map .text : List (Json α)) = .ok ((Text.sorted ts).map .text) := by
  cases ts with
  | nil => simp [sorted, Text.sorted]
  | cons t rest =>
    have halike : ∀ v ∈ (rest.map .text : List (Json α)), comparable (.text t) v = true := by
      intro v hv
      obtain ⟨u, -, rfl⟩ := List.mem_map.1 hv
      rfl
    have htake : (rest.map .text).takeWhile (comparable (.text t : Json α)) = rest.map .text :=
      List.takeWhile_eq_self_iff.2 halike
    have hdrop : (rest.map .text).dropWhile (comparable (.text t : Json α)) = [] :=
      List.dropWhile_eq_nil_iff.2 halike
    simp only [List.map_cons, sorted, htake, hdrop]
    rw [Text.sorted, ← List.map_cons, List.map_mergeSort]
    intro u _ w _
    rfl

end Json

namespace Strays

variable {nodes : OrderedMap Text (Node α)} {s : Strays α}

theorem sharedNames_off (hs : s.Off nodes) (children : List Text) :
    s.sharedNames nodes children = .ok ((Registry.sharedNames nodes children).map .text) := by
  have hnames : (children.eraseDups.filterMap fun c => (nodes.get? c).map (s.name c)) =
      (children.eraseDups.filterMap fun c => (nodes.get? c).map (·.name)).map .text := by
    rw [List.map_filterMap]
    refine List.filterMap_congr fun c _ => ?_
    rw [Option.map_map]
    refine Option.map_congr fun n hn => ?_
    rw [name, hs.name c (OrderedMap.mem_keys_of_get? hn)]
    rfl
  unfold sharedNames Registry.sharedNames
  rw [hnames]
  generalize (children.eraseDups.filterMap fun c => (nodes.get? c).map (·.name)) = names
  have hshared : (names.eraseDups.map .text : List (Json α)).filter
      (fun v => 1 < (names.map .text).countP (Json.sameItem v)) =
        (names.eraseDups.filter fun n => 1 < names.count n).map .text := by
    rw [List.filter_map]
    refine congrArg _ (List.filter_congr fun n _ => ?_)
    rw [Function.comp_apply, Json.countP_sameItem_texts]
  have hperm : (names.eraseDups.filter fun n => 1 < names.count n).Perm
      (names.filter fun n => 1 < names.count n).eraseDups := by
    refine (List.perm_ext_iff_of_nodup ?_ ?_).2 fun n => ?_
    · exact (Registry.nodup_eraseDups names).filter _
    · exact Registry.nodup_eraseDups _
    · simp [List.mem_eraseDups]
  simp only [Json.forM_lookUp_texts, Json.distinct_texts, bind, Except.bind]
  rw [hshared, Json.sorted_texts, Text.sorted_eq_of_perm hperm]
  rfl

theorem ambiguous_texts (shown : Text) (names : List Text) :
    ambiguous shown (names.map .text : List (Json α)) = .ambiguousChildren shown names := by
  rw [ambiguous, Json.texts?_map_text]

theorem shownName_off (hs : s.Off nodes) {k : Text} {n : Node α} (hn : nodes.get? k = some n) :
    s.shownName k n = n.name := by
  rw [shownName, hs.name k (OrderedMap.mem_keys_of_get? hn)]

theorem gather_off (hs : s.Off nodes)
    {step : Text → Registry.Notes α → Outcome α × Registry.Notes α}
    {step' : Text → Registry.Notes α → Except (Break α) (Outcome α × Registry.Notes α)}
    (h : ∀ c notes, step' c notes = .ok (step c notes)) (g : Registry.Gathered α) (c : Text) :
    gather nodes s step' g c = .ok (Registry.gather nodes step g c) := by
  unfold gather Registry.gather
  cases hn : nodes.get? c with
  | none => rfl
  | some n =>
    simp only [h, hs.name c (OrderedMap.mem_keys_of_get? hn)]
    rfl

theorem foldlM_gather_off (hs : s.Off nodes)
    {step : Text → Registry.Notes α → Outcome α × Registry.Notes α}
    {step' : Text → Registry.Notes α → Except (Break α) (Outcome α × Registry.Notes α)}
    (h : ∀ c notes, step' c notes = .ok (step c notes)) (children : List Text)
    (g : Registry.Gathered α) :
    children.foldlM (gather nodes s step') g =
      .ok (children.foldl (Registry.gather nodes step) g) := by
  induction children generalizing g with
  | nil => rfl
  | cons c rest ih =>
    rw [List.foldlM_cons, gather_off hs h]
    exact ih _

/-- With nothing astray the evaluation is that of the registry. -/
theorem evaluateAlong_off (hs : s.Off nodes) (path : List Text) (id : Text)
    (notes : Registry.Notes α) :
    s.evaluateAlong nodes path id notes = .ok (Registry.evaluateAlong nodes path id notes) := by
  induction path, id using Registry.walk_induction nodes generalizing notes with
  | step path id ih =>
    rw [evaluateAlong]
    split
    · rename_i hn
      rw [Registry.evaluateAlong_of_none hn]
    · rename_i n hn
      rw [shownName_off hs hn]
      split
      · rename_i hpath
        rw [Registry.evaluateAlong_of_mem hn hpath]
      · rename_i hpath
        rw [Registry.evaluateAlong_of_get? hn hpath]
        cases n.body with
        | factor v => rfl
        | formula expression =>
          have hsource : s.expression id expression = .ofText? expression := by
            rw [Strays.expression, hs.expression id (OrderedMap.mem_keys_of_get? hn)]
          dsimp only
          rw [hsource, Json.isGiven_ofText?, sharedNames_off hs]
          cases hexpression : expression.filter (!·.isEmpty) with
          | none => rfl
          | some source =>
            obtain ⟨rfl, -⟩ := Option.filter_eq_some_iff.1 hexpression
            simp only [Option.isSome_some, Bool.not_true, Bool.false_eq_true, if_false]
            cases Registry.sharedNames nodes n.children with
            | cons name more =>
              exact congrArg (fun f => Except.ok (Except.error f, notes))
                (ambiguous_texts n.name (name :: more))
            | nil =>
              simp only [List.map_nil]
              rw [foldlM_gather_off hs fun c notes => ih n hn hpath c notes]
              simp only [Registry.Gathered.conclude, bind, Except.bind, Json.ofText?, evaluateAny]
              generalize n.children.foldl _ _ = g
              cases g.failure with
              | some f => rfl
              | none =>
                dsimp only
                cases evaluateExpression source g.context <;> rfl

end Strays

/-! ## Evaluations -/

namespace Astray

/-- Every name is a text, and every expression a text or nothing. -/
def Straight (s : Astray α) : Prop := s.strays.Off s.registry.nodes

theorem evaluate_off {s : Astray α} (hs : s.Straight) (id : Text) :
    s.evaluate id = (.ok (s.registry.evaluate id).1, ⟨(s.registry.evaluate id).2, s.strays⟩) := by
  rw [evaluate, evaluateVisiting, Strays.evaluateAlong_off hs]
  rfl

/-- With nothing astray the evaluations come to an end, and are those of the registry. -/
theorem evaluateEach_off {s : Astray α} (hs : s.Straight) (ids : List Text) :
    s.evaluateEach .empty ids =
      (.ok (s.registry.evaluateEach ids).1, ⟨(s.registry.evaluateEach ids).2, s.strays⟩) := by
  unfold Registry.evaluateEach
  generalize (OrderedMap.empty : Evaluations α) = evaluations
  induction ids generalizing s evaluations with
  | nil => rfl
  | cons id ids ih =>
    rw [evaluateEach, evaluate_off hs]
    have hnext : (Astray.mk (s.registry.evaluate id).2 s.strays).Straight :=
      Strays.Off.of_keys hs (Registry.keys_write s.registry _)
    exact ih hnext _

theorem evaluate_leaves (s : Astray α) (id : Text) :
    ∃ notes, (s.evaluate id).2 = ⟨s.registry.write notes, s.strays⟩ := by
  unfold evaluate evaluateVisiting
  split
  · exact ⟨_, rfl⟩
  · exact ⟨_, rfl⟩

/-- Evaluations write values, whether they come to an end or not. -/
theorem evaluateEach_leaves (s : Astray α) (evaluations : Evaluations α) (ids : List Text) :
    ∃ notes, (s.evaluateEach evaluations ids).2 = ⟨s.registry.write notes, s.strays⟩ := by
  induction ids generalizing s evaluations with
  | nil => exact ⟨[], by rw [Registry.write_nil]; rfl⟩
  | cons id ids ih =>
    obtain ⟨notes, hnotes⟩ := s.evaluate_leaves id
    rw [evaluateEach]
    split
    · rename_i why s' hs'
      rw [hs'] at hnotes
      exact ⟨notes, hnotes⟩
    · rename_i outcome s' hs'
      rw [hs'] at hnotes
      obtain rfl := hnotes
      obtain ⟨more, hmore⟩ := ih ⟨s.registry.write notes, s.strays⟩ (evaluations.insert id outcome)
      exact ⟨more ++ notes, by rw [hmore, Registry.write_write]⟩

end Astray

/-! ## Updates -/

namespace Changes

/-- The name of a node is only used in messages. -/
theorem rejection?_withName_eq_none_iff {c : Changes α} {n : Node α} (name : Text) :
    c.rejection? { n with name } = none ↔ c.rejection? n = none := by
  unfold rejection?
  split
  · exact .rfl
  · have hkind : ({ n with name } : Node α).kind = n.kind := rfl
    rw [hkind]
    cases n.kind with
    | factor =>
      dsimp only
      split
      · simp
      · split <;> simp
    | formula =>
      dsimp only
      split <;> simp

end Changes

namespace Registry

variable {r : Registry α} {id : Text} {n : Node α} {c : Changes α}

/-- What is accepted is assigned, and then the nodes are evaluated. -/
theorem update_eq (hn : r.node? id = some n) (haccepted : c.rejection? n = none) :
    r.update id c =
      match r.assignChanges id n c with
      | (.error e, r) => (.error (.unusable e), r)
      | (.ok ids, r) => (.ok (r.evaluateEach ids).1, (r.evaluateEach ids).2) := by
  have hassign : r.modify id c.assign = (r.modify id c.applyMetadata).modify id c.applyExpression :=
    (modify_modify r id c.applyMetadata c.applyExpression).symm
  unfold update assignChanges
  simp only [hn, haccepted]
  rw [hassign]
  cases hkind : n.kind with
  | factor =>
    have hexpression : c.expression = none := Changes.expression_of_factor haccepted hkind
    have hsame : (r.modify id c.applyMetadata).modify id c.applyExpression =
        r.modify id c.applyMetadata :=
      modify_of_eq fun n => by simp only [Changes.applyExpression, hexpression]
    rw [hsame]
    dsimp only
    unfold updateFactor
    cases c.value with
    | none => rfl
    | some v =>
      dsimp only
      cases v.number <;> rfl
  | formula =>
    dsimp only
    unfold updateFormula Changes.applyExpression
    cases c.expression with
    | none =>
      dsimp only
      rw [modify_of_eq fun _ => rfl]
      cases c.children with
      | none => rfl
      | some v =>
        dsimp only
        cases v.entries <;> rfl
    | some e =>
      cases c.children with
      | none => rfl
      | some v =>
        dsimp only
        cases v.entries <;> rfl

omit [Scalar α] in
theorem keys_foldl_modify (r : Registry α) (f : Node α → Node α) (ids : List Text) :
    (ids.foldl (fun r id => r.modify id f) r).nodes.keys = r.nodes.keys := by
  induction ids generalizing r with
  | nil => rfl
  | cons id ids ih => exact (ih _).trans (OrderedMap.keys_modify _ _ _)

omit [Scalar α] in
theorem keys_relink (r : Registry α) (key : Text) (n : Node α) (listed : List (Json α)) :
    (r.relink key n listed).nodes.keys = r.nodes.keys := by
  unfold relink
  exact (OrderedMap.keys_modify _ _ _).trans
    ((keys_foldl_modify _ _ _).trans (keys_foldl_modify r _ _))

/-- What an update has assigned to a node when all of its arguments are of use. -/
inductive Assigned (r : Registry α) (id : Text) (n : Node α) (c : Changes α) :
    Registry α → Prop where
  | kept (hvalue : c.value = none) (hchildren : n.kind = .formula → c.children = none) :
      Assigned r id n c (r.modify id c.assign)
  | valued {given : Json α} {x : α} (hfactor : n.kind = .factor) (hvalue : c.value = some given)
      (hnumber : given.number = .ok x) :
      Assigned r id n c ((r.modify id c.assign).modify id fun n =>
        { n with body := .factor x, computed := some x })
  | relinked {given : Json α} {listed : List (Json α)} (hformula : n.kind = .formula)
      (hvalue : c.value = none) (hchildren : c.children = some given)
      (hentries : given.entries = .ok listed) :
      Assigned r id n c ((r.modify id c.assign).relink id n listed)

theorem assigned_of_assignChanges {left : Registry α} {ids : List Text}
    (haccepted : c.rejection? n = none) (h : r.assignChanges id n c = (.ok ids, left)) :
    Assigned r id n c left := by
  unfold assignChanges at h
  cases hkind : n.kind with
  | factor =>
    simp only [hkind] at h
    cases hvalue : c.value with
    | none =>
      simp only [hvalue, Prod.mk.injEq] at h
      obtain ⟨-, rfl⟩ := h
      exact .kept hvalue fun hformula => nomatch hkind.symm.trans hformula
    | some given =>
      cases hnumber : given.number with
      | error why => simp [hvalue, hnumber] at h
      | ok x =>
        simp only [hvalue, hnumber, Prod.mk.injEq] at h
        obtain ⟨-, rfl⟩ := h
        exact .valued hkind hvalue hnumber
  | formula =>
    have hvalue : c.value = none := Changes.value_of_formula haccepted hkind
    simp only [hkind] at h
    cases hchildren : c.children with
    | none =>
      simp only [hchildren, Prod.mk.injEq] at h
      obtain ⟨-, rfl⟩ := h
      exact .kept hvalue fun _ => hchildren
    | some given =>
      cases hentries : given.entries with
      | error why => simp [hchildren, hentries] at h
      | ok listed =>
        simp only [hchildren, hentries, Prod.mk.injEq] at h
        obtain ⟨-, rfl⟩ := h
        exact .relinked hkind hvalue hchildren hentries

theorem Assigned.keys {left : Registry α} (h : Assigned r id n c left) :
    left.nodes.keys = r.nodes.keys := by
  have hassign : (r.modify id c.assign).nodes.keys = r.nodes.keys := OrderedMap.keys_modify _ _ _
  cases h with
  | kept _ _ => exact hassign
  | valued _ _ _ => exact (OrderedMap.keys_modify _ _ _).trans hassign
  | relinked _ _ _ _ => exact (keys_relink _ _ _ _).trans hassign

end Registry

namespace AnyChanges

omit [Scalar α] in
theorem changes_ofChanges (c : Changes α) (n : Node α) : (ofChanges c).changes n = c := by
  obtain ⟨name, value, expression, children, description, unit, unknown⟩ := c
  cases name <;> cases expression <;>
    simp [changes, ofChanges, Json.text?, Json.expression?_ofText?]

end AnyChanges

namespace Astray

variable {s : Astray α} {id : Text}

omit [Scalar α] in
theorem assign_ofChanges (hs : s.Straight) (hid : id ∈ s.registry.nodes.keys) (c : Changes α) :
    s.strays.assign id (.ofChanges c) = s.strays := by
  rw [Strays.assign_eq_self_iff, hs.name id hid, hs.expression id hid]
  constructor
  · intro v hv
    obtain ⟨t, -, rfl⟩ := Option.map_eq_some_iff.1 hv
    exact Json.strayName?_eq_none_iff.2 ⟨t, rfl⟩
  · intro v hv
    obtain ⟨e, -, rfl⟩ := Option.map_eq_some_iff.1 hv
    exact Json.strayExpression?_eq_none_iff.2 ⟨e, rfl⟩

/-- **Values of the right types.** With nothing astray, changes that have their types do what they
do to the registry. -/
theorem update_ofChanges (hs : s.Straight) (id : Text) (c : Changes α) :
    s.update id (.ofChanges c) =
      ((s.registry.update id c).1.mapError .ofError, ⟨(s.registry.update id c).2, s.strays⟩) := by
  unfold update
  cases hn : s.registry.node? id with
  | none =>
    simp only [Registry.update, hn]
    rfl
  | some n =>
    have hid : id ∈ s.registry.nodes.keys := OrderedMap.mem_keys_of_get? hn
    have hrejection : s.rejection? id n (.ofChanges c) = c.rejection? n := by
      rw [rejection?, AnyChanges.changes_ofChanges, Strays.shownName_off hs hn]
    simp only [hrejection, AnyChanges.changes_ofChanges, assign_ofChanges hs hid]
    cases haccepted : c.rejection? n with
    | some f =>
      simp only [Registry.update, hn, haccepted]
      rfl
    | none =>
      rw [Registry.update_eq hn haccepted]
      rcases hassign : s.registry.assignChanges id n c with ⟨e | ids, r⟩
      · rfl
      · have hkeys := (Registry.assigned_of_assignChanges haccepted hassign).keys
        have hstraight : (Astray.mk r s.strays).Straight := Strays.Off.of_keys hs hkeys
        simp only [evaluateEach_off hstraight]
        rfl

end Astray

end FormulaGraph
