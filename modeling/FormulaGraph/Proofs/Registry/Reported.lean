import FormulaGraph.Proofs.Evaluation.Cycles
import FormulaGraph.Proofs.Evaluation.Fresh
import FormulaGraph.Proofs.Evaluation.Locality
import FormulaGraph.Proofs.Registry.Deleted
import Mathlib.Data.List.Induction
/-!
# What a deletion reports

A deletion goes from parent to parent, in the order in which the nodes are stored, and evaluates
each where it stands: the parents before it have lost the node, those behind it still have it. That
outcome is reported, and it is not looked at again. So it is the outcome in the registry that is
left when nothing below the parent is still to be changed, that is when no parent behind it is
below it. Otherwise a parent may be reported with a value that it has no more, but not with another
than it has.

* `get?_removeFrom`: what is reported, parent by parent.
* `Consistent.evaluate_delete`: when that is the outcome in the registry that is left.
* `Consistent.fewer_delete`: how the two registries differ.
* `run_delete_reports`: all of it, after every run with fresh ids.
-/
namespace FormulaGraph

variable {α : Type}

theorem Node.meaning_dropChild (n : Node α) (c : Text) :
    (n.dropChild c).meaning = (n.name, n.body, n.children.erase c) := by
  rw [← n.children_dropChild c]
  rfl

namespace Registry

/-- The registry in which the nodes of a list do not list a child any more. -/
def detached (r : Registry α) (parents : List Text) (child : Text) : Registry α where
  nodes := r.nodes.mapValues fun k n => if k ∈ parents then n.dropChild child else n
  roots := r.roots

theorem node?_detached (r : Registry α) (parents : List Text) (child k : Text) :
    (r.detached parents child).node? k =
      (r.node? k).map fun n => if k ∈ parents then n.dropChild child else n :=
  OrderedMap.get?_mapValues _ r.nodes k

theorem name_detached (r : Registry α) (parents : List Text) (child k : Text) :
    ((r.detached parents child).node? k).map (·.name) = (r.node? k).map (·.name) := by
  rw [node?_detached, Option.map_map]
  congr 1
  funext n
  simp only [Function.comp_apply]
  split <;> rfl

variable [Scalar α]

/-! ## Parent by parent -/

section

variable {r : Registry α} {parents : List Text} {child p : Text}

/-- To evaluation, unlinking a child from a list of parents is no more than that. -/
theorem sameMeaning_removeFrom (hparents : parents.Nodup)
    (hchild : r.nodes.contains child = true) :
    SameMeaning (r.detached parents child).nodes (r.removeFrom parents child).2.nodes := by
  intro k
  have hdrop : ∀ n m : Node α, n.meaning = m.meaning →
      (n.dropChild child).meaning = (m.dropChild child).meaning := by
    intro n m h
    simp only [Node.meaning, Prod.mk.injEq] at h
    obtain ⟨hname, hbody, hchildren⟩ := h
    rw [Node.meaning_dropChild, Node.meaning_dropChild, hname, hbody, hchildren]
  have hview := view_removeFrom (k := k) (fun _ _ => Node.meaning_eq_of_unevaluated_eq)
    (fun _ _ _ => rfl) hdrop hparents hchild
  rw [← node?_detached] at hview
  exact hview.symm

/-- A node that is not among the parents keeps its links. -/
theorem Link.removeFrom (hparents : parents.Nodup) (hp : p ∉ parents)
    (hlink : Link r.nodes p child) : Link (r.removeFrom parents child).2.nodes p child := by
  obtain ⟨n, hn, hformula, hmem, hchild⟩ := hlink
  have hdetached : (r.detached parents child).node? p = some n := by
    rw [node?_detached, show r.node? p = some n from hn, Option.map_some, if_neg hp]
  refine (sameMeaning_removeFrom hparents hchild).link ⟨n, hdetached, hformula, hmem, ?_⟩
  rw [OrderedMap.contains_iff] at hchild ⊢
  simpa [detached] using hchild

theorem removeChild_of_link (hlink : Link r.nodes p child) :
    r.removeChild p child =
      (.ok (OrderedMap.empty.insert p ((r.unlink p child).evaluate p).1),
        ((r.unlink p child).evaluate p).2) := by
  obtain ⟨n, hn, hformula, hmem, hchild⟩ := hlink
  obtain ⟨c, hc⟩ := (r.nodes.contains_eq_true_iff child).1 hchild
  have hboth : r.both p child = .ok (n, c) := by
    simp only [both, node?, hn, hc]
  rw [removeChild, hboth]
  simp only [hmem, not_true_eq_false, if_false, hformula, if_true, evaluateOnly]

/-- One more parent: what it is evaluated to where it stands. -/
theorem removeFrom_concat (hparents : (parents ++ [p]).Nodup)
    (hlink : Link r.nodes p child) :
    (r.removeFrom (parents ++ [p]) child).1 =
      (r.removeFrom parents child).1.insert p
        ((r.detached (parents ++ [p]) child).evaluate p).1 := by
  have hchild : r.nodes.contains child = true := by
    obtain ⟨-, -, -, -, hchild⟩ := hlink
    exact hchild
  obtain ⟨hbefore, -, hp⟩ := List.nodup_append.1 hparents
  have hstep : r.removeFrom (parents ++ [p]) child =
      ((r.removeFrom parents child).1.insert p
          (((r.removeFrom parents child).2.unlink p child).evaluate p).1,
        (((r.removeFrom parents child).2.unlink p child).evaluate p).2) := by
    have hnext := removeChild_of_link
      (hlink.removeFrom hbefore fun hmem => hp p hmem p List.mem_cons_self rfl)
    rcases hleft : r.removeFrom parents child with ⟨evaluations, left⟩
    rw [hleft] at hnext
    rw [Registry.removeFrom] at hleft
    rw [Registry.removeFrom, List.foldl_append, hleft]
    simp only [List.foldl_cons, List.foldl_nil, hnext]
    rfl
  have hleft : (r.removeFrom (parents ++ [p]) child).2 =
      (((r.removeFrom parents child).2.unlink p child).evaluate p).2 := by rw [hstep]
  have houtcome : (((r.removeFrom parents child).2.unlink p child).evaluate p).1 =
      ((r.detached (parents ++ [p]) child).evaluate p).1 := by
    rw [← (agreeOn_evaluate _ p).evaluate_eq, ← hleft, evaluate_eq, evaluate_eq]
    exact (outcomeAlong_congr (sameMeaning_removeFrom hparents hchild) [] p).symm
  rw [hstep, houtcome]

theorem keys_evaluations_removeFrom (hparents : parents.Nodup)
    (hlinks : ∀ q ∈ parents, Link r.nodes q child) :
    (r.removeFrom parents child).1.keys = parents := by
  induction parents using List.reverseRecOn with
  | nil => rfl
  | append_singleton before p ih =>
    obtain ⟨hbefore, -, hp⟩ := List.nodup_append.1 hparents
    have hkeys := ih hbefore fun q hq => hlinks q (List.mem_append_left _ hq)
    have hnew : p ∉ before := fun hmem => hp p hmem p List.mem_cons_self rfl
    rw [removeFrom_concat hparents (hlinks p (by simp)), OrderedMap.keys_insert, hkeys,
      if_neg hnew]

/-- What is reported of a parent does not change with the parents behind it. -/
theorem get?_removeFrom (hparents : parents.Nodup)
    (hlinks : ∀ q ∈ parents, Link r.nodes q child) {before behind : List Text}
    (hsplit : parents = before ++ p :: behind) :
    (r.removeFrom parents child).1.get? p =
      some ((r.detached (before ++ [p]) child).evaluate p).1 := by
  induction behind using List.reverseRecOn generalizing parents with
  | nil =>
    subst hsplit
    rw [removeFrom_concat hparents (hlinks p (by simp)), OrderedMap.get?_insert, if_pos rfl]
  | append_singleton behind last ih =>
    have hsplit' : parents = (before ++ p :: behind) ++ [last] := by simp [hsplit]
    subst hsplit'
    obtain ⟨hfirst, -, hlast⟩ := List.nodup_append.1 hparents
    have hne : ¬last = p := fun h => hlast p (by simp) last List.mem_cons_self h.symm
    rw [removeFrom_concat hparents (hlinks last (by simp)), OrderedMap.get?_insert, if_neg hne]
    exact ih hfirst (fun q hq => hlinks q (List.mem_append_left _ hq)) rfl

end

/-! ## The registry that is left -/

section

variable {r : Registry α} {id : Text}

theorem Consistent.meaning_delete (hr : Consistent r) (hid : r.nodes.contains id = true)
    {k : Text} (hk : k ≠ id) :
    ((r.delete id).2.node? k).map Node.meaning =
      ((r.detached (r.listing id) id).node? k).map Node.meaning := by
  obtain ⟨hmissing, -⟩ | ⟨-, hdelete⟩ := delete_cases r id
  · rw [hid] at hmissing
    cases hmissing
  obtain ⟨hremoved, -⟩ := hr.removeFrom hid (r.listing id)
  have hsame := sameMeaning_removeFrom (nodup_listing r id) hid k
  rw [hdelete, hremoved.node?_forget hk, Option.map_map]
  exact hsame.symm

theorem Consistent.sameNames_delete (hr : Consistent r) (hid : r.nodes.contains id = true)
    (parents : List Text) {children : List Text} (hchildren : id ∉ children) :
    SameNames (r.delete id).2.nodes (r.detached parents id).nodes children := by
  intro c hc
  have hne : c ≠ id := fun h => hchildren (h ▸ hc)
  have hmeaning := congrArg (Option.map Prod.fst) (hr.meaning_delete hid hne)
  rw [Option.map_map, Option.map_map] at hmeaning
  calc ((r.delete id).2.node? c).map (·.name)
    _ = ((r.detached (r.listing id) id).node? c).map (·.name) := hmeaning
    _ = (r.node? c).map (·.name) := r.name_detached _ id c
    _ = ((r.detached parents id).node? c).map (·.name) := (r.name_detached _ id c).symm

/-- A parent is evaluated to the same in the registry that is left, unless one behind it is
below it. -/
theorem Consistent.evaluate_delete (hr : Consistent r) (hid : r.nodes.contains id = true)
    {before behind : List Text} {p : Text} (hsplit : r.listing id = before ++ p :: behind)
    (hp : p ≠ id) (habove : ∀ q ∈ behind, ¬Reaches (r.delete id).2.nodes p q) :
    ((r.delete id).2.evaluate p).1 = ((r.detached (before ++ [p]) id).evaluate p).1 := by
  have hunmentioned := (hr.isWithout_delete hid).unmentioned
  have hne : ∀ k, Reaches (r.delete id).2.nodes p k → k ≠ id := by
    rintro k hk rfl
    rcases hk.cases_tail with rfl | ⟨q, -, -, -, -, -, hexists⟩
    · exact hp rfl
    · exact hunmentioned.key ((OrderedMap.contains_iff _ _).1 hexists)
  rw [evaluate_eq, evaluate_eq]
  refine outcomeAlong_congr_of_reaches (fun k hk => ?_) fun k n hk hn => ?_
  · have hbehind : k ∉ behind := fun hmem => habove k hmem hk
    have hlisting : k ∈ r.listing id ↔ k ∈ before ++ [p] := by simp [hsplit, hbehind]
    have hmeaning := hr.meaning_delete hid (hne k hk)
    simp only [node?_detached, hlisting] at hmeaning
    refine hmeaning.trans ?_
    exact congrArg _ (r.node?_detached (before ++ [p]) id k).symm
  · exact hr.sameNames_delete hid _ (hunmentioned.link k n hn).1

/-- What is still listed in the registry that is left was listed at every turn. -/
theorem Consistent.fewer_delete (hr : Consistent r) (hid : r.nodes.contains id = true)
    {parents : List Text} (hparents : parents ⊆ r.listing id) :
    Fewer (r.delete id).2.nodes (r.detached parents id).nodes := by
  intro k n hn
  have hne : k ≠ id := by
    rintro rfl
    exact (hr.isWithout_delete hid).unmentioned.key (OrderedMap.mem_keys_of_get? hn)
  have hmeaning := hr.meaning_delete hid hne
  rw [node?_detached, node?, hn, Option.map_map, Option.map_some, eq_comm,
    Option.map_eq_some_iff] at hmeaning
  obtain ⟨m, hm, heq⟩ := hmeaning
  have hdetached : (r.detached parents id).nodes.get? k =
      some (if k ∈ parents then m.dropChild id else m) := by
    rw [← node?, node?_detached, hm, Option.map_some]
  refine ⟨_, hdetached, ?_⟩
  by_cases hk : k ∈ r.listing id
  · simp only [Function.comp_apply, if_pos hk, Node.meaning, Prod.mk.injEq] at heq
    obtain ⟨hname, hbody, hchildren⟩ := heq
    rw [← hname, ← hbody, ← hchildren]
    split
    · exact ⟨rfl, rfl, List.Subset.refl _⟩
    · exact ⟨rfl, rfl, m.children_dropChild id ▸ List.erase_subset⟩
  · simp only [Function.comp_apply, if_neg hk, Node.meaning, Prod.mk.injEq] at heq
    obtain ⟨hname, hbody, hchildren⟩ := heq
    rw [if_neg fun hmem => hk (hparents hmem), ← hname, ← hbody, ← hchildren]
    exact ⟨rfl, rfl, List.Subset.refl _⟩

omit [Scalar α] in
theorem Consistent.mem_listing_iff (hr : Consistent r) (hid : r.nodes.contains id = true)
    {p : Text} : p ∈ r.listing id ↔ Link r.nodes p id := by
  constructor
  · intro h
    obtain ⟨n, hn, hmem⟩ := mem_childIds.1 (mem_childIds_of_mem_listing h)
    exact link_of_hasChild (fun n hn => (hr.stored p n hn).factor) ⟨⟨n, hn, hmem⟩, hid⟩
  · rintro ⟨n, hn, -, hmem, -⟩
    exact mem_listing (mem_childIds.2 ⟨n, hn, hmem⟩)

end

/-- What a deletion of `id` reports of a parent `p` of it, with the parents stored before and
behind. -/
structure Reported (r : Registry α) (id : Text) (before : List Text) (p : Text)
    (behind : List Text) (o : Outcome α) : Prop where
  /-- The parents behind still list the node. -/
  standing : o = ((r.detached (before ++ [p]) id).evaluate p).1
  /-- Parents that are not below do not matter. -/
  settled : (∀ q ∈ behind, ¬Reaches (r.delete id).2.nodes p q) →
    o = ((r.delete id).2.evaluate p).1
  /-- A value may be lost in the registry that is left, but it is not another. -/
  value : ∀ v w, o = .ok v → ((r.delete id).2.evaluate p).1 = .ok w → v = w

theorem delete_of_contains {r : Registry α} {id : Text} (hid : r.nodes.contains id = true) :
    (r.delete id).1 = .ok ((r.removeFrom (r.listing id) id).1.erase id) := by
  obtain ⟨n, hn⟩ := contains_iff_node?.1 hid
  rw [Registry.delete, hn]
  rfl

theorem Consistent.delete_reports {r : Registry α} (hr : Consistent r) {id : Text}
    (hid : r.nodes.contains id = true) :
    ∃ evaluations, (r.delete id).1 = .ok evaluations ∧
      evaluations.keys = (r.listing id).filter (· ≠ id) ∧
      ∀ before p behind, r.listing id = before ++ p :: behind → p ≠ id →
        ∃ o, evaluations.get? p = some o ∧ Reported r id before p behind o := by
  have hlinks : ∀ q ∈ r.listing id, Link r.nodes q id := fun q => (hr.mem_listing_iff hid).1
  have hnodup := nodup_listing r id
  refine ⟨_, delete_of_contains hid, ?_, fun before p behind hsplit hp => ?_⟩
  · rw [OrderedMap.keys_erase, keys_evaluations_removeFrom hnodup hlinks]
  · refine ⟨((r.detached (before ++ [p]) id).evaluate p).1, ?_, rfl, fun habove => ?_,
      fun v w hv hw => ?_⟩
    · rw [OrderedMap.get?_erase, if_neg hp, get?_removeFrom hnodup hlinks hsplit]
    · exact (hr.evaluate_delete hid hsplit hp habove).symm
    · have hbefore : before ++ [p] ⊆ r.listing id := by
        rw [hsplit, List.append_cons before p behind]
        exact List.subset_append_left _ _
      rw [evaluate_eq] at hv hw
      exact ((hr.fewer_delete hid hbefore).value_eq hw hv).symm

/-- **The report of a deletion.** After every run from the empty registry with fresh ids, deleting a
node that exists reports an outcome of each of its formula parents, in the order in which they are
stored, and of no other node: that of the parent when it and the parents before it have lost the
node. It is the outcome in the registry that is left when no parent behind is below, and a value is
never another than there. -/
theorem run_delete_reports {ops : List (Operation α)} (hops : (empty : Registry α).FreshRun ops)
    {id : Text} (hid : ((empty : Registry α).run ops).nodes.contains id = true) :
    ∃ evaluations, (((empty : Registry α).run ops).delete id).1 = .ok evaluations ∧
      (∀ p, p ∈ evaluations.keys ↔ p ≠ id ∧ Link ((empty : Registry α).run ops).nodes p id) ∧
      evaluations.keys = (((empty : Registry α).run ops).listing id).filter (· ≠ id) ∧
      ∀ before p behind, ((empty : Registry α).run ops).listing id = before ++ p :: behind →
        p ≠ id → ∃ o, evaluations.get? p = some o ∧
          Reported ((empty : Registry α).run ops) id before p behind o := by
  have hr := consistent_run consistent_empty hops
  obtain ⟨evaluations, hdelete, hkeys, hreported⟩ := hr.delete_reports hid
  refine ⟨evaluations, hdelete, fun p => ?_, hkeys, hreported⟩
  rw [hkeys, List.mem_filter, hr.mem_listing_iff hid, decide_eq_true_iff, and_comm]

/-- Two formulas over a factor, of which the one stored first mentions only the other. -/
def relayed : List (Operation Exact) :=
  [.createFactor "x" "x" (.value 1) none none,
   .createFormula "p" "p" "q" ["x"] none none,
   .createFormula "q" "q" "x" ["x"] none none,
   .addChild "p" "q"]

/-- The formula stored last is reported as it is left, the one before it as it stood. -/
theorem delete_reports_relayed :
    (empty : Registry Exact).FreshRun relayed ∧
    ((empty : Registry Exact).run relayed).nodes.contains "x" = true ∧
    ∃ evaluations, (((empty : Registry Exact).run relayed).delete "x").1 = .ok evaluations ∧
      evaluations.keys = ["p", "q"] ∧
      evaluations.get? "p" =
        some ((((empty : Registry Exact).run relayed).detached ["p"] "x").evaluate "p").1 ∧
      evaluations.get? "q" =
        some ((((empty : Registry Exact).run relayed).delete "x").2.evaluate "q").1 := by
  have hfresh : (empty : Registry Exact).FreshRun relayed := by decide +kernel
  have hid : ((empty : Registry Exact).run relayed).nodes.contains "x" = true := by decide +kernel
  have hlisting : ((empty : Registry Exact).run relayed).listing "x" = ["p", "q"] := by
    decide +kernel
  obtain ⟨evaluations, hdelete, -, hkeys, hreported⟩ := run_delete_reports hfresh hid
  refine ⟨hfresh, hid, evaluations, hdelete, ?_, ?_, ?_⟩
  · rw [hkeys, hlisting]
    decide
  · obtain ⟨o, hp, hstood⟩ := hreported [] "p" ["q"] hlisting (by decide)
    rw [hp, hstood.standing]
    rfl
  · obtain ⟨o, hq, hleft⟩ := hreported ["p"] "q" [] hlisting (by decide)
    rw [hq, hleft.settled fun _ h => absurd h List.not_mem_nil]

/-- Deleting the factor reports a value of the formula stored first, which has none any more. -/
theorem delete_relayed_stale :
    (empty : Registry Exact).FreshRun relayed ∧
    (∀ k, ¬Relation.TransGen (Link ((empty : Registry Exact).run relayed).nodes) k k) ∧
    ((empty : Registry Exact).run relayed).nodes.contains "x" = true ∧
    ∃ evaluations, (((empty : Registry Exact).run relayed).delete "x").1 = .ok evaluations ∧
      evaluations.get? "p" = some (.ok (.value 1)) ∧
      ((((empty : Registry Exact).run relayed).delete "x").2.evaluate "p").1 =
        .error (.expression (.failed (.unresolved "x"))) := by
  have hrank : ∀ e ∈ ((empty : Registry Exact).run relayed).nodes.entries, ∀ c ∈ e.2.children,
      (["x", "q", "p"] : List Text).idxOf c < (["x", "q", "p"] : List Text).idxOf e.1 := by
    decide +kernel
  have hacyclic := acyclicBelow_of_rank (["x", "q", "p"] : List Text).idxOf hrank
  have hid : ((empty : Registry Exact).run relayed).nodes.contains "x" = true := by decide +kernel
  exact ⟨by decide +kernel, fun k => hacyclic k k .refl, hid, _, delete_of_contains hid,
    by decide +kernel, by decide +kernel⟩

end Registry

end FormulaGraph
