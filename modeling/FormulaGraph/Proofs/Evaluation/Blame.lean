import FormulaGraph.Proofs.Evaluation.Cycles
import FormulaGraph.Proofs.Evaluation.Chains
/-!
# Which failure is reported

The failure of a formula is that of the first among its children that fails. Whether a child fails
does not depend on the way to it, so this child is the first that fails on its own; the formula
*blames* it. The child may blame a child in turn. The chain either ends, at a node that blames none
and fails by itself, or it comes back to a node that it has passed, and only then is the failure a
cycle.

* `outcomeAlong_of_blames`: a walk has the failure of the node that is blamed.
* `failure_cases`: a walk ends where the chain ends, or where it comes back.
* `evaluate_of_reaches_cycle`: below a node that reaches a cycle, the cycle is reported exactly if
  the chain comes back.
* `evaluate_shadowed`: a cycle that is not reported, for a failure before it and for one on it.
-/
namespace FormulaGraph.Registry

section

variable {κ : Type} {R : κ → κ → Prop} {x y z : κ}

/-- What a node on a cycle leads to is on the cycle, when every node leads to one only. -/
theorem transGen_self_of_rightUnique (hR : Relator.RightUnique R) (hz : Relation.TransGen R z z)
    (h : Relation.ReflTransGen R z y) : Relation.TransGen R y y := by
  induction h with
  | refl => exact hz
  | @tail b c _ hstep ih =>
    obtain ⟨c', hstep', hback⟩ := Relation.TransGen.head'_iff.1 ih
    obtain rfl := hR hstep hstep'
    exact Relation.TransGen.tail' hback hstep

/-- A chain that ends comes to no cycle. -/
theorem not_transGen_self_of_end (hR : Relator.RightUnique R) (hy : ∀ c, ¬R y c)
    (hxy : Relation.ReflTransGen R x y) (hxz : Relation.ReflTransGen R x z) :
    ¬Relation.TransGen R z z := by
  intro hz
  have hcycle : Relation.TransGen R y y := by
    rcases hxy.total_of_right_unique hR hxz with hyz | hzy
    · rcases hyz.cases_head with rfl | ⟨c, hstep, -⟩
      · exact hz
      · exact absurd hstep (hy c)
    · exact transGen_self_of_rightUnique hR hz hzy
  obtain ⟨c, hstep, -⟩ := Relation.TransGen.head'_iff.1 hcycle
  exact hy c hstep

end

variable {α : Type} [Scalar α] {nodes : OrderedMap Text (Node α)}

/-- Whether a node fails when it is evaluated on its own. -/
def fails (nodes : OrderedMap Text (Node α)) (id : Text) : Bool :=
  (failure? (outcomeAlong nodes [] id)).isSome

/-- The first that fails on its own among the children that are evaluated with a node. -/
def blamed? (nodes : OrderedMap Text (Node α)) (id : Text) : Option Text :=
  (nodes.get? id).bind fun n => (visited nodes n).find? (fails nodes)

/-- `p` blames its child `c`. -/
def Blames (nodes : OrderedMap Text (Node α)) (p c : Text) : Prop := blamed? nodes p = some c

instance (nodes : OrderedMap Text (Node α)) (p c : Text) : Decidable (Blames nodes p c) :=
  inferInstanceAs (Decidable (blamed? nodes p = some c))

theorem rightUnique_blames : Relator.RightUnique (Blames nodes) :=
  fun _ _ _ h h' => Option.some.inj (h.symm.trans h')

theorem fails_eq_true_iff {id : Text} :
    fails nodes id = true ↔ ∃ f, outcomeAlong nodes [] id = .error f := by
  unfold fails
  cases outcomeAlong nodes [] id <;> simp [failure?]

theorem fails_eq_false_iff {id : Text} :
    fails nodes id = false ↔ ∃ v, outcomeAlong nodes [] id = .ok v := by
  unfold fails
  cases outcomeAlong nodes [] id <;> simp [failure?]

theorem blames_iff {p c : Text} :
    Blames nodes p c ↔ ∃ n before behind, nodes.get? p = some n ∧
      visited nodes n = before ++ c :: behind ∧
      (∃ f, outcomeAlong nodes [] c = .error f) ∧
      ∀ b ∈ before, ∃ v, outcomeAlong nodes [] b = .ok v := by
  unfold Blames blamed?
  simp only [Option.bind_eq_some_iff, List.find?_eq_some_iff_append, fails_eq_true_iff,
    Bool.not_eq_true', fails_eq_false_iff]
  constructor
  · rintro ⟨n, hn, hc, before, behind, hvisited, hbefore⟩
    exact ⟨n, before, behind, hn, hvisited, hc, hbefore⟩
  · rintro ⟨n, before, behind, hn, hvisited, hc, hbefore⟩
    exact ⟨n, hn, hc, before, behind, hvisited, hbefore⟩

theorem blames_le_link : Blames nodes ≤ Link nodes := by
  intro p c h
  obtain ⟨n, before, behind, hn, hvisited, -⟩ := blames_iff.1 h
  exact link_of_mem_visited hn (hvisited ▸ List.mem_append_right _ List.mem_cons_self)

/-! ## Walks and blame -/

/-- Behind nodes that lead to it, a node succeeds exactly if it does on its own. -/
theorem outcomeAlong_eq_ok_iff_of_leads {path : List Text} {m : Text} {w : α}
    (hpath : ∀ p ∈ path, Relation.TransGen (Link nodes) p m) :
    outcomeAlong nodes path m = .ok w ↔ outcomeAlong nodes [] m = .ok w :=
  ⟨fun h => outcomeAlong_of_subset h (List.nil_subset path), fun h => outcomeAlong_of_leads h hpath⟩

theorem exists_error_of_leads {path : List Text} {m : Text}
    (hpath : ∀ p ∈ path, Relation.TransGen (Link nodes) p m)
    (hm : ∃ f, outcomeAlong nodes [] m = .error f) : ∃ f, outcomeAlong nodes path m = .error f := by
  obtain ⟨f, hf⟩ := hm
  cases h : outcomeAlong nodes path m with
  | ok w => cases ((outcomeAlong_eq_ok_iff_of_leads hpath).1 h).symm.trans hf
  | error g => exact ⟨g, rfl⟩

/-- A walk has the failure of the node that is blamed. -/
theorem outcomeAlong_of_blames {path : List Text} {id c : Text} (h : Blames nodes id c)
    (hid : id ∉ path) (hpath : ∀ p ∈ path, Relation.TransGen (Link nodes) p id) :
    outcomeAlong nodes path id = outcomeAlong nodes (id :: path) c := by
  obtain ⟨n, before, behind, hn, hvisited, hc, hbefore⟩ := blames_iff.1 h
  have hleads : ∀ {b}, b ∈ visited nodes n →
      ∀ p ∈ id :: path, Relation.TransGen (Link nodes) p b :=
    fun hb => transGen_cons (link_of_mem_visited hn hb) hpath
  have hmem : c ∈ visited nodes n := hvisited ▸ List.mem_append_right _ List.mem_cons_self
  obtain ⟨f, hf⟩ := exists_error_of_leads (hleads hmem) hc
  obtain ⟨⟨hsource, hshared⟩, -⟩ := mem_visited.1 hmem
  obtain ⟨source, hs⟩ := Option.ne_none_iff_exists'.1 hsource
  have hfirst : firstFailure nodes n.children (outcomeAlong nodes (id :: path)) = some f := by
    have hexisting : n.children.filter nodes.contains = before ++ c :: behind := by
      rw [← hvisited, visited, if_pos ⟨hsource, hshared⟩]
    rw [firstFailure, hexisting, List.findSome?_eq_some_iff]
    refine ⟨before, c, behind, rfl, by simp [hf, failure?], fun b hb => ?_⟩
    obtain ⟨v, hv⟩ := hbefore b hb
    have hb' : b ∈ visited nodes n := hvisited ▸ List.mem_append_left _ hb
    rw [(outcomeAlong_eq_ok_iff_of_leads (hleads hb')).2 hv, failure?]
  rw [outcomeAlong_of_get? hn hid, ownOutcome_of_source? hs hshared, formulaOutcome, hfirst, hf]

/-- A walk to a node that blames none has the outcome of the node on its own. -/
theorem outcomeAlong_of_blamed?_eq_none {path : List Text} {id : Text} {n : Node α}
    (hn : nodes.get? id = some n) (hblame : blamed? nodes id = none) (hid : id ∉ path)
    (hpath : ∀ p ∈ path, Relation.TransGen (Link nodes) p id) :
    outcomeAlong nodes path id = outcomeAlong nodes [] id ∧
      ∀ c ∈ visited nodes n, ∃ v, outcomeAlong nodes [id] c = .ok v := by
  have hchildren : ∀ c ∈ visited nodes n, ∃ v, outcomeAlong nodes [] c = .ok v := by
    intro c hc
    rw [blamed?, hn, Option.bind_some, List.find?_eq_none] at hblame
    exact fails_eq_false_iff.1 (Bool.eq_false_iff.2 (hblame c hc))
  have hbehind : ∀ path' ⊆ path, ∀ c ∈ visited nodes n, ∀ v, outcomeAlong nodes [] c = .ok v →
      outcomeAlong nodes (id :: path') c = .ok v := fun path' hsub c hc v hv =>
    outcomeAlong_of_leads hv
      (transGen_cons (link_of_mem_visited hn hc) fun p hp => hpath p (hsub hp))
  constructor
  · rw [outcomeAlong_of_get? hn hid, outcomeAlong_of_get? hn List.not_mem_nil]
    refine ownOutcome_congr fun c hc => ?_
    obtain ⟨v, hv⟩ := hchildren c hc
    rw [hbehind path (List.Subset.refl path) c hc v hv,
      hbehind [] (List.nil_subset path) c hc v hv]
  · intro c hc
    obtain ⟨v, hv⟩ := hchildren c hc
    exact ⟨v, hbehind [] (List.nil_subset path) c hc v hv⟩

/-! ## Where a failure comes from -/

/-- `y` fails with `f` by itself: it blames none of its children, and has no expression, children
of one name, or an expression without a value. -/
structure IsCulprit (nodes : OrderedMap Text (Node α)) (y : Text) (f : Failure) : Prop where
  blames_none : blamed? nodes y = none
  outcome : outcomeAlong nodes [] y = .error f
  own : ∃ n, nodes.get? y = some n ∧ (f = .noFormula n.name ∨
    (∃ names, f = .ambiguousChildren n.name names) ∨ ∃ e, f = .expression e)

theorem IsCulprit.kind_ne {y : Text} {f : Failure} (h : IsCulprit nodes y f) :
    f.kind ≠ .circularDependency := by
  obtain ⟨n, -, rfl | ⟨names, rfl⟩ | ⟨e, rfl⟩⟩ := h.own
  · nofun
  · nofun
  · nofun

/-- A node that fails and blames none has failed by itself. -/
theorem isCulprit_of_blamed?_eq_none {path : List Text} {id : Text} {n : Node α} {f : Failure}
    (hn : nodes.get? id = some n) (hblame : blamed? nodes id = none) (hid : id ∉ path)
    (hpath : ∀ p ∈ path, Relation.TransGen (Link nodes) p id)
    (h : outcomeAlong nodes path id = .error f) : IsCulprit nodes id f := by
  obtain ⟨hsame, hchildren⟩ := outcomeAlong_of_blamed?_eq_none hn hblame hid hpath
  rw [hsame] at h
  refine ⟨hblame, h, n, hn, ?_⟩
  rw [outcomeAlong_of_get? hn List.not_mem_nil] at h
  rcases error_cases_of_ownOutcome h with hown | hown | hown | ⟨c, hc, hfailed⟩
  · exact .inl hown
  · exact .inr (.inl hown)
  · exact .inr (.inr hown)
  · obtain ⟨v, hv⟩ := hchildren c hc
    cases hv.symm.trans hfailed

/-- A walk that fails, along a path on which each node blames the next, ends where the chain of
blame comes back to a node, or at a node that fails by itself. -/
theorem failure_cases {path : List Text} {id : Text} {f : Failure} (hex : nodes.contains id = true)
    (hpath : ∀ p ∈ path, Relation.TransGen (Blames nodes) p id)
    (h : outcomeAlong nodes path id = .error f) :
    (f.kind = .circularDependency ∧ ∃ z, Relation.ReflTransGen (Blames nodes) id z ∧
      Relation.TransGen (Blames nodes) z z) ∨
    ∃ y, Relation.ReflTransGen (Blames nodes) id y ∧ IsCulprit nodes y f := by
  induction path, id using walk_induction nodes with
  | step path id ih =>
    obtain ⟨n, hn⟩ := (nodes.contains_eq_true_iff id).1 hex
    have hleads : ∀ p ∈ path, Relation.TransGen (Link nodes) p id :=
      fun p hp => Relation.TransGen.mono blames_le_link p id (hpath p hp)
    by_cases hid : id ∈ path
    · rw [outcomeAlong_of_mem hn hid] at h
      cases h
      exact .inl ⟨rfl, id, .refl, hpath id hid⟩
    · cases hblame : blamed? nodes id with
      | none => exact .inr ⟨id, .refl, isCulprit_of_blamed?_eq_none hn hblame hid hleads h⟩
      | some c =>
        have hblames : Blames nodes id c := hblame
        obtain ⟨-, -, -, -, hexc⟩ := blames_le_link id c hblames
        rw [outcomeAlong_of_blames hblames hid hleads] at h
        rcases ih n hn hid c hexc (transGen_cons hblames hpath) h with
          ⟨hkind, z, hz, hcycle⟩ | ⟨y, hy, hculprit⟩
        · exact .inl ⟨hkind, z, .head hblames hz, hcycle⟩
        · exact .inr ⟨y, .head hblames hy, hculprit⟩

/-- **Cycles below a node.** A node that reaches a cycle fails. What it reports is a cycle exactly
if the chain of blame that starts with it comes back to one of its nodes. Otherwise the chain ends,
and the report is the failure of its last node, which fails by itself. -/
theorem evaluate_of_reaches_cycle (r : Registry α) {id z : Text} (hreach : Reaches r.nodes id z)
    (hcycle : Relation.TransGen (Link r.nodes) z z) :
    ∃ f, (r.evaluate id).1 = .error f ∧
      (f.kind = .circularDependency ↔ ∃ y, Relation.ReflTransGen (Blames r.nodes) id y ∧
        Relation.TransGen (Blames r.nodes) y y) ∧
      (f.kind ≠ .circularDependency →
        ∃ y, Relation.ReflTransGen (Blames r.nodes) id y ∧ IsCulprit r.nodes y f) := by
  have hex : r.nodes.contains id = true := by
    have hout : ∃ c, Link r.nodes id c := by
      rcases hreach.cases_head with rfl | ⟨c, hlink, -⟩
      · obtain ⟨c, hlink, -⟩ := Relation.TransGen.head'_iff.1 hcycle
        exact ⟨c, hlink⟩
      · exact ⟨c, hlink⟩
    obtain ⟨-, n, hn, -⟩ := hout
    exact (r.nodes.contains_eq_true_iff id).2 ⟨n, hn⟩
  obtain ⟨f, hf⟩ : ∃ f, outcomeAlong r.nodes [] id = .error f :=
    exists_error_of_reaches_cycle hreach hcycle
  rw [evaluate_eq]
  refine ⟨f, hf, ?_⟩
  rcases failure_cases hex (by simp) hf with ⟨hkind, y, hy, hback⟩ | ⟨y, hy, hculprit⟩
  · exact ⟨⟨fun _ => ⟨y, hy, hback⟩, fun _ => hkind⟩, fun hne => absurd hkind hne⟩
  · have hend : ∀ c, ¬Blames r.nodes y c := fun c hc => by
      cases hculprit.blames_none.symm.trans hc
    refine ⟨⟨fun hkind => absurd hkind hculprit.kind_ne, ?_⟩, fun _ => ⟨y, hy, hculprit⟩⟩
    rintro ⟨x, hx, hback⟩
    exact absurd hback (not_transGen_self_of_end rightUnique_blames hend hy hx)

/-- Two formulas that need each other, and a formula over one of them that has another child before
it, without expression. The formula `s` needs itself and has no expression either. -/
def shadowed : Registry Exact where
  nodes := .ofList
    [("a", ⟨"a", "a", .formula (some "b"), [.text "b"], ["b", "t"], none, .null, .null⟩),
     ("b", ⟨"b", "b", .formula (some "a"), [.text "a"], ["a"], none, .null, .null⟩),
     ("u", ⟨"u", "u", .formula (some ""), [], ["t"], none, .null, .null⟩),
     ("t", ⟨"t", "t", .formula (some "u + a"), [.text "u", .text "a"], [], none, .null, .null⟩),
     ("s", ⟨"s", "s", .formula (some ""), [.text "s"], ["s"], none, .null, .null⟩)]
  roots := []

theorem links_shadowed : Link shadowed.nodes "a" "b" ∧ Link shadowed.nodes "b" "a" ∧
    Link shadowed.nodes "t" "a" ∧ Link shadowed.nodes "s" "s" := by
  refine ⟨⟨_, rfl, rfl, ?_, ?_⟩, ⟨_, rfl, rfl, ?_, ?_⟩, ⟨_, rfl, rfl, ?_, ?_⟩,
    ⟨_, rfl, rfl, ?_, ?_⟩⟩
  all_goals decide +kernel

/-- On the cycle itself each of the two blames the other. -/
theorem evaluate_of_reaches_cycle_shadowed :
    ∃ f, (shadowed.evaluate "a").1 = .error f ∧ f.kind = .circularDependency := by
  obtain ⟨hab, hba, -, -⟩ := links_shadowed
  obtain ⟨f, hf, hreport, -⟩ :=
    evaluate_of_reaches_cycle shadowed .refl (.tail (.single hab) hba)
  have hchain : Blames shadowed.nodes "a" "b" ∧ Blames shadowed.nodes "b" "a" := by
    decide +kernel
  exact ⟨f, hf, hreport.2 ⟨"a", .refl, .tail (.single hchain.1) hchain.2⟩⟩

/-- Both reach a cycle and report the want of an expression: `t` that of the child before the cycle,
and `s`, which is the cycle, its own. -/
theorem evaluate_shadowed :
    Reaches shadowed.nodes "t" "a" ∧ Relation.TransGen (Link shadowed.nodes) "a" "a" ∧
    (shadowed.evaluate "t").1 = .error (.noFormula "u") ∧
    (Failure.noFormula "u").kind ≠ .circularDependency ∧
    Relation.TransGen (Link shadowed.nodes) "s" "s" ∧
    (shadowed.evaluate "s").1 = .error (.noFormula "s") ∧
    (Failure.noFormula "s").kind ≠ .circularDependency := by
  obtain ⟨hab, hba, hta, hss⟩ := links_shadowed
  refine ⟨.single hta, .tail (.single hab) hba, ?_, nofun, .single hss, ?_, nofun⟩
  all_goals decide +kernel

end FormulaGraph.Registry
