import FormulaGraph.Proofs.Evaluation.Walk
import FormulaGraph.Registry.Edit
/-!
# The links of a registry as two functions

`childIds` and `parentIds` give the lists that are stored under an id, empty when there is no node.
Every edit is a sequence of `modify`s, and what one of them does to the two functions is an equation
here; so the edits are reasoned about without their nodes.

Registries agree on a view of their nodes (`AgreeOn`) when nothing else has changed from one to the
other.
* `agreeOn_evaluate`, `agreeOn_evaluateEach`: an evaluation changes computed values only, and so no
  link.
* `agreeOn_adopt`, `agreeOn_disown`: where a parent is given to the nodes of a list, or taken from
  them, nothing changes but parents; and these as `mem_parentIds_adopt` and `mem_parentIds_disown`
  say.
-/
namespace FormulaGraph

namespace Node

variable {α : Type}

/-- A node without its computed value. -/
def unevaluated (n : Node α) : Node α := { n with computed := none }

/-- A node without its parents. -/
def alone (n : Node α) : Node α := { n with parents := [] }

/-- Id, kind and children of a node. -/
def own (n : Node α) : Text × NodeKind × List (Json α) := (n.id, n.kind, n.listed)

/-- What the links of a registry are made of. -/
def links (n : Node α) : (Text × NodeKind × List (Json α)) × List Text := (n.own, n.parents)

theorem isFactor_iff {n : Node α} : n.isFactor = true ↔ n.kind = .factor := beq_iff_eq

theorem isFactor_of_not_isFormula {n : Node α} (h : ¬n.isFormula = true) : n.isFactor = true := by
  rw [isFormula, beq_iff_eq] at h
  rw [isFactor_iff]
  cases hkind : n.kind with
  | factor => rfl
  | formula => exact absurd hkind h

theorem own_eq_of_alone_eq {n m : Node α} (h : n.alone = m.alone) : n.own = m.own := by
  simp only [alone, Node.mk.injEq] at h
  obtain ⟨hid, -, hbody, hlisted, -⟩ := h
  simp only [own, kind, hid, hbody, hlisted]

theorem links_eq_of_unevaluated_eq {n m : Node α} (h : n.unevaluated = m.unevaluated) :
    n.links = m.links := by
  simp only [unevaluated, Node.mk.injEq] at h
  obtain ⟨hid, -, hbody, hlisted, hparents, -⟩ := h
  simp only [links, own, kind, hid, hbody, hlisted, hparents]

theorem eq_of_unevaluated_eq {n m : Node α} (h : n.unevaluated = m.unevaluated)
    (hcomputed : n.computed = m.computed) : n = m := by
  cases n
  cases m
  simp only [unevaluated, Node.mk.injEq] at h
  simp_all

end Node

namespace Registry

variable {α : Type}

/-- The children listed under an id. -/
def childIds (r : Registry α) (id : Text) : List Text := ((r.node? id).map (·.children)).getD []

/-- The parents recorded under an id. -/
def parentIds (r : Registry α) (id : Text) : List Text := ((r.node? id).map (·.parents)).getD []

theorem contains_iff_node? {r : Registry α} {id : Text} :
    r.nodes.contains id = true ↔ ∃ n, r.node? id = some n :=
  r.nodes.contains_eq_true_iff id

theorem node?_eq_none_iff {r : Registry α} {id : Text} :
    r.node? id = none ↔ ¬r.nodes.contains id = true := by
  rw [contains_iff_node?, not_exists, Option.eq_none_iff_forall_ne_some]

theorem childIds_of_node? {r : Registry α} {id : Text} {n : Node α} (h : r.node? id = some n) :
    r.childIds id = n.children := by
  simp [childIds, h]

theorem parentIds_of_node? {r : Registry α} {id : Text} {n : Node α} (h : r.node? id = some n) :
    r.parentIds id = n.parents := by
  simp [parentIds, h]

theorem mem_childIds {r : Registry α} {p c : Text} :
    c ∈ r.childIds p ↔ ∃ n, r.node? p = some n ∧ c ∈ n.children := by
  cases hp : r.node? p with
  | none => simp [childIds, hp]
  | some n => simp [childIds, hp]

theorem contains_of_mem_childIds {r : Registry α} {p c : Text} (h : c ∈ r.childIds p) :
    r.nodes.contains p = true := by
  rw [contains_iff_node?]
  cases hp : r.node? p with
  | none => simp [childIds, hp] at h
  | some n => exact ⟨n, rfl⟩

theorem contains_of_mem_parentIds {r : Registry α} {p c : Text} (h : p ∈ r.parentIds c) :
    r.nodes.contains c = true := by
  rw [contains_iff_node?]
  cases hc : r.node? c with
  | none => simp [parentIds, hc] at h
  | some n => exact ⟨n, rfl⟩

/-- The keys under which a child is listed. -/
def listing (r : Registry α) (child : Text) : List Text :=
  (r.nodes.entries.filter fun e => child ∈ e.2.children).map (·.1)

theorem mem_listing {r : Registry α} {p child : Text} (h : child ∈ r.childIds p) :
    p ∈ r.listing child := by
  obtain ⟨n, hn⟩ := contains_iff_node?.1 (contains_of_mem_childIds h)
  rw [childIds_of_node? hn] at h
  refine List.mem_map.2 ⟨(p, n), List.mem_filter.2 ⟨?_, by simpa using h⟩, rfl⟩
  exact OrderedMap.get?_eq_some_iff.1 hn

theorem mem_childIds_of_mem_listing {r : Registry α} {p child : Text} (h : p ∈ r.listing child) :
    child ∈ r.childIds p := by
  obtain ⟨⟨k, n⟩, he, rfl⟩ := List.mem_map.1 h
  obtain ⟨hmem, hchild⟩ := List.mem_filter.1 he
  have hn : r.node? k = some n := OrderedMap.get?_eq_some_iff.2 hmem
  rw [childIds_of_node? hn]
  simpa using hchild

/-! ## Registries that agree -/

/-- What agrees in `f` agrees in all that `f` tells. -/
theorem map_eq_of_map_eq {ν β γ : Type} {f : ν → β} {g : ν → γ} (h : ∀ n m, f n = f m → g n = g m)
    {a b : Option ν} (hab : a.map f = b.map f) : a.map g = b.map g := by
  cases a with
  | none =>
    rw [Option.map_none] at hab
    rw [Option.map_eq_none_iff.1 hab.symm]
  | some n =>
    rw [Option.map_some] at hab
    obtain ⟨m, rfl, hm⟩ := Option.map_eq_some_iff.1 hab.symm
    rw [Option.map_some, Option.map_some, h n m hm.symm]

/-- The same roots, and nodes under the same ids that do not differ in what `f` says of them. -/
structure AgreeOn {β : Type} (f : Node α → β) (r r' : Registry α) : Prop where
  roots : r'.roots = r.roots
  nodes : ∀ id, (r'.node? id).map f = (r.node? id).map f

section

variable {β γ : Type} {f : Node α → β} {r r' r'' : Registry α}

theorem AgreeOn.refl (r : Registry α) : AgreeOn f r r := ⟨rfl, fun _ => rfl⟩

theorem AgreeOn.symm (h : AgreeOn f r r') : AgreeOn f r' r :=
  ⟨h.roots.symm, fun id => (h.nodes id).symm⟩

theorem AgreeOn.trans (h : AgreeOn f r r') (h' : AgreeOn f r' r'') : AgreeOn f r r'' :=
  ⟨h'.roots.trans h.roots, fun id => (h'.nodes id).trans (h.nodes id)⟩

theorem AgreeOn.contains (h : AgreeOn f r r') (id : Text) :
    r'.nodes.contains id = r.nodes.contains id := by
  have := congrArg Option.isSome (h.nodes id)
  simpa [OrderedMap.contains, Registry.node?] using this

theorem AgreeOn.node? (h : AgreeOn f r r') {id : Text} {n' : Node α} (hn : r'.node? id = some n') :
    ∃ n, r.node? id = some n ∧ f n = f n' := by
  have := h.nodes id
  rw [hn, Option.map_some] at this
  exact Option.map_eq_some_iff.1 this.symm

/-- Agreement on less. -/
theorem AgreeOn.mono {g : Node α → γ} (h : AgreeOn f r r') (hfg : ∀ n m, f n = f m → g n = g m) :
    AgreeOn g r r' :=
  ⟨h.roots, fun id => map_eq_of_map_eq hfg (h.nodes id)⟩

theorem AgreeOn.links (h : AgreeOn Node.unevaluated r r') : AgreeOn Node.links r r' :=
  h.mono fun _ _ => Node.links_eq_of_unevaluated_eq

theorem AgreeOn.own (h : AgreeOn Node.links r r') : AgreeOn Node.own r r' :=
  h.mono fun _ _ heq => congrArg (·.1) heq

theorem AgreeOn.own_of_alone (h : AgreeOn Node.alone r r') : AgreeOn Node.own r r' :=
  h.mono fun _ _ => Node.own_eq_of_alone_eq

theorem AgreeOn.childIds (h : AgreeOn Node.own r r') : r'.childIds = r.childIds := by
  funext id
  have := congrArg (fun o => (o.map fun own => Json.textsAmong own.2.2).getD []) (h.nodes id)
  simpa [Registry.childIds, Option.map_map, Function.comp_def, Node.own, Node.children] using this

theorem AgreeOn.parentIds (h : AgreeOn Node.links r r') : r'.parentIds = r.parentIds := by
  funext id
  have := congrArg (fun o => (o.map fun links => links.2).getD []) (h.nodes id)
  simpa [Registry.parentIds, Option.map_map, Function.comp_def, Node.links] using this

end

/-- Registries with the same keys in the same order are equal when their nodes are. -/
theorem eq_of_agreeOn {r r' : Registry α} (hkeys : r'.nodes.keys = r.nodes.keys)
    (hunevaluated : AgreeOn Node.unevaluated r r') (hcomputed : AgreeOn Node.computed r r') :
    r' = r := by
  have hnode : ∀ id, r'.node? id = r.node? id := by
    intro id
    have hu := hunevaluated.nodes id
    have hc := hcomputed.nodes id
    cases hn : r.node? id with
    | none =>
      rw [hn, Option.map_none] at hu
      exact Option.map_eq_none_iff.1 hu
    | some n =>
      rw [hn, Option.map_some] at hu hc
      obtain ⟨n', hn', hsame⟩ := Option.map_eq_some_iff.1 hu
      rw [hn', Option.map_some] at hc
      rw [hn', Node.eq_of_unevaluated_eq hsame (Option.some.inj hc)]
  have hnodes := OrderedMap.eq_of_get? hkeys hnode
  have hroots := hunevaluated.roots
  cases r
  cases r'
  exact congrArg₂ mk hnodes hroots

/-! ## One node changed -/

theorem node?_modify (r : Registry α) (k : Text) (f : Node α → Node α) (id : Text) :
    (r.modify k f).node? id = if id = k then (r.node? id).map f else r.node? id :=
  OrderedMap.get?_modify r.nodes k id f

theorem modify_of_eq {r : Registry α} {id : Text} {f : Node α → Node α} (h : ∀ n, f n = n) :
    r.modify id f = r := by
  unfold modify OrderedMap.modify OrderedMap.mapValues
  simp [h]

theorem modify_modify (r : Registry α) (k : Text) (f g : Node α → Node α) :
    (r.modify k f).modify k g = r.modify k fun n => g (f n) := by
  simp only [modify, OrderedMap.modify, OrderedMap.mapValues, List.map_map, Registry.mk.injEq,
    OrderedMap.mk.injEq, and_true]
  refine List.map_congr_left fun e _ => ?_
  by_cases hk : e.1 = k <;> simp [hk]

theorem AgreeOn.modify {β : Type} {f : Node α → β} {r r' : Registry α} (h : AgreeOn f r r')
    {k : Text} {g g' : Node α → Node α}
    (hg : ∀ n n', r.node? k = some n → r'.node? k = some n' → f n = f n' → f (g' n') = f (g n)) :
    AgreeOn f (r.modify k g) (r'.modify k g') := by
  refine ⟨h.roots, fun id => ?_⟩
  rw [node?_modify, node?_modify]
  split
  · rename_i hid
    subst hid
    cases hn' : r'.node? id with
    | none =>
      have hnone := h.nodes id
      rw [hn', Option.map_none, eq_comm, Option.map_eq_none_iff] at hnone
      rw [hnone]
      rfl
    | some n' =>
      obtain ⟨n, hn, heq⟩ := h.node? hn'
      rw [hn, Option.map_some, Option.map_some, Option.map_some, Option.map_some,
        hg n n' hn hn' heq]
  · exact h.nodes id

theorem agreeOn_modify {β : Type} {f : Node α → β} {r : Registry α} {k : Text}
    {g : Node α → Node α} (h : ∀ n, r.node? k = some n → f (g n) = f n) :
    AgreeOn f r (r.modify k g) := by
  refine ⟨rfl, fun id => ?_⟩
  rw [node?_modify]
  split
  · rename_i hid
    subst hid
    cases hn : r.node? id with
    | none => rfl
    | some n => simp [h n hn]
  · rfl

theorem agreeOn_modify_iff {β : Type} {f : Node α → β} {r : Registry α} {k : Text} {n : Node α}
    (hn : r.node? k = some n) {g : Node α → Node α} :
    AgreeOn f r (r.modify k g) ↔ f (g n) = f n := by
  constructor
  · intro h
    have hnode := h.nodes k
    rw [node?_modify, if_pos rfl, hn, Option.map_some, Option.map_some, Option.map_some] at hnode
    exact Option.some.inj hnode
  · intro h
    refine agreeOn_modify fun m hm => ?_
    obtain rfl := Option.some.inj (hn.symm.trans hm)
    exact h

@[simp] theorem contains_modify (r : Registry α) (k : Text) (f : Node α → Node α) (id : Text) :
    (r.modify k f).nodes.contains id = r.nodes.contains id := by
  have := node?_modify r k f id
  simp only [node?] at this
  rw [OrderedMap.contains, this, OrderedMap.contains]
  split <;> simp

theorem childIds_modify_of_eq {f : Node α → Node α} (h : ∀ n, (f n).children = n.children)
    (r : Registry α) (k : Text) : (r.modify k f).childIds = r.childIds := by
  funext id
  rw [childIds, node?_modify]
  split
  · simp [childIds, Option.map_map, Function.comp_def, h]
  · rfl

theorem parentIds_modify_of_eq {f : Node α → Node α} (h : ∀ n, (f n).parents = n.parents)
    (r : Registry α) (k : Text) : (r.modify k f).parentIds = r.parentIds := by
  funext id
  rw [parentIds, node?_modify]
  split
  · simp [parentIds, Option.map_map, Function.comp_def, h]
  · rfl

@[simp] theorem childIds_modify_addParent (r : Registry α) (k p : Text) :
    (r.modify k (·.addParent p)).childIds = r.childIds := by
  refine childIds_modify_of_eq (fun n => ?_) r k
  unfold Node.addParent
  split <;> rfl

@[simp] theorem childIds_modify_dropParent (r : Registry α) (k p : Text) :
    (r.modify k (·.dropParent p)).childIds = r.childIds := by
  refine childIds_modify_of_eq (fun n => ?_) r k
  rfl

@[simp] theorem parentIds_modify_addChild (r : Registry α) (k c : Text) :
    (r.modify k (·.addChild c)).parentIds = r.parentIds := by
  refine parentIds_modify_of_eq (fun n => ?_) r k
  rfl

@[simp] theorem parentIds_modify_dropChild (r : Registry α) (k c : Text) :
    (r.modify k (·.dropChild c)).parentIds = r.parentIds := by
  refine parentIds_modify_of_eq (fun n => ?_) r k
  rfl

theorem childIds_modify_addChild {r : Registry α} {k : Text} (hk : r.nodes.contains k = true)
    (c id : Text) :
    (r.modify k (·.addChild c)).childIds id =
      if id = k then r.childIds id ++ [c] else r.childIds id := by
  rw [childIds, node?_modify]
  split
  · rename_i h
    subst h
    obtain ⟨n, hn⟩ := contains_iff_node?.1 hk
    simp [childIds, hn, Node.children_addChild]
  · rfl

theorem childIds_modify_dropChild (r : Registry α) (k c id : Text) :
    (r.modify k (·.dropChild c)).childIds id =
      if id = k then (r.childIds id).erase c else r.childIds id := by
  rw [childIds, node?_modify]
  split
  · cases hn : r.node? id with
    | none => simp [childIds, hn]
    | some n => simp [childIds, hn, Node.children_dropChild]
  · rfl

theorem parentIds_modify_dropParent (r : Registry α) (k p id : Text) :
    (r.modify k (·.dropParent p)).parentIds id =
      if id = k then (r.parentIds id).erase p else r.parentIds id := by
  rw [parentIds, node?_modify]
  split
  · cases hn : r.node? id with
    | none => simp [parentIds, hn]
    | some n => simp [parentIds, hn, Node.dropParent]
  · rfl

theorem parentIds_modify_addParent {r : Registry α} {k : Text} (hk : r.nodes.contains k = true)
    (p id : Text) :
    (r.modify k (·.addParent p)).parentIds id =
      if id = k ∧ p ∉ r.parentIds id then r.parentIds id ++ [p] else r.parentIds id := by
  rw [parentIds, node?_modify]
  by_cases h : id = k
  · subst h
    obtain ⟨n, hn⟩ := contains_iff_node?.1 hk
    by_cases hp : p ∈ n.parents <;> simp [parentIds, hn, Node.addParent, hp]
  · simp [h, parentIds]

/-- A missing node takes no parent. -/
theorem modify_of_not_contains {r : Registry α} {k : Text} (hk : r.nodes.contains k = false)
    (f : Node α → Node α) (id : Text) : (r.modify k f).node? id = r.node? id := by
  rw [node?_modify]
  split
  · rename_i h
    subst h
    have : r.node? id = none := by simpa [OrderedMap.contains, node?] using hk
    simp [this]
  · rfl

theorem mem_parentIds_modify_addParent (r : Registry α) (k p id q : Text) :
    q ∈ (r.modify k (·.addParent p)).parentIds id ↔
      q ∈ r.parentIds id ∨ q = p ∧ id = k ∧ r.nodes.contains k = true := by
  cases hk : r.nodes.contains k with
  | false => simp [parentIds, modify_of_not_contains hk]
  | true =>
    rw [parentIds_modify_addParent hk]
    split
    · rename_i h
      simp [h.1]
    · rename_i h
      grind

theorem nodup_parentIds_modify_addParent {r : Registry α} {id : Text} (h : (r.parentIds id).Nodup)
    (k p : Text) : ((r.modify k (·.addParent p)).parentIds id).Nodup := by
  cases hk : r.nodes.contains k with
  | false => simpa [parentIds, modify_of_not_contains hk] using h
  | true =>
    rw [parentIds_modify_addParent hk]
    split
    · rename_i hp
      exact List.nodup_append.2 ⟨h, by simp, by grind⟩
    · exact h

/-! ## A parent given to, or taken from, many nodes -/

/-- The nodes of a list take a parent. -/
def adopt (r : Registry α) (p : Text) (cs : List Text) : Registry α :=
  cs.foldl (fun r c => r.modify c (·.addParent p)) r

/-- The nodes of a list drop a parent. -/
def disown (r : Registry α) (p : Text) (cs : List Text) : Registry α :=
  cs.foldl (fun r c => r.modify c (·.dropParent p)) r

theorem adopt_cons (r : Registry α) (p c : Text) (cs : List Text) :
    r.adopt p (c :: cs) = (r.modify c (·.addParent p)).adopt p cs := rfl

theorem disown_cons (r : Registry α) (p c : Text) (cs : List Text) :
    r.disown p (c :: cs) = (r.modify c (·.dropParent p)).disown p cs := rfl

theorem agreeOn_adopt (r : Registry α) (p : Text) (cs : List Text) :
    AgreeOn Node.alone r (r.adopt p cs) := by
  induction cs generalizing r with
  | nil => exact .refl r
  | cons c cs ih =>
    rw [adopt_cons]
    refine .trans (agreeOn_modify fun n _ => ?_) (ih _)
    unfold Node.addParent
    split <;> rfl

theorem agreeOn_disown (r : Registry α) (p : Text) (cs : List Text) :
    AgreeOn Node.alone r (r.disown p cs) := by
  induction cs generalizing r with
  | nil => exact .refl r
  | cons c cs ih =>
    rw [disown_cons]
    refine .trans (agreeOn_modify fun _ _ => ?_) (ih _)
    rfl

theorem mem_parentIds_adopt (r : Registry α) (p : Text) (cs : List Text) (id q : Text) :
    q ∈ (r.adopt p cs).parentIds id ↔
      q ∈ r.parentIds id ∨ q = p ∧ id ∈ cs ∧ r.nodes.contains id = true := by
  induction cs generalizing r with
  | nil => simp [adopt]
  | cons c cs ih =>
    rw [adopt_cons, ih, mem_parentIds_modify_addParent, contains_modify, List.mem_cons]
    constructor
    · rintro ((h | ⟨hq, rfl, hid⟩) | ⟨hq, hcs, hid⟩)
      · exact .inl h
      · exact .inr ⟨hq, .inl rfl, hid⟩
      · exact .inr ⟨hq, .inr hcs, hid⟩
    · rintro (h | ⟨hq, rfl | hcs, hid⟩)
      · exact .inl (.inl h)
      · exact .inl (.inr ⟨hq, rfl, hid⟩)
      · exact .inr ⟨hq, hcs, hid⟩

theorem nodup_parentIds_adopt {r : Registry α} {id : Text} (h : (r.parentIds id).Nodup) (p : Text)
    (cs : List Text) : ((r.adopt p cs).parentIds id).Nodup := by
  induction cs generalizing r with
  | nil => exact h
  | cons c cs ih => exact ih (nodup_parentIds_modify_addParent h c p)

theorem parentIds_disown {r : Registry α} {id : Text} (h : (r.parentIds id).Nodup) (p : Text)
    (cs : List Text) :
    (r.disown p cs).parentIds id =
      if id ∈ cs then (r.parentIds id).erase p else r.parentIds id := by
  induction cs generalizing r with
  | nil => simp [disown]
  | cons c cs ih =>
    have hc := parentIds_modify_dropParent r c p id
    rw [disown_cons, ih]
    · rw [hc]
      by_cases hid : id = c
      · subst hid
        -- what is dropped once is not there to be dropped again
        have : p ∉ (r.parentIds id).erase p := h.not_mem_erase
        simp [List.erase_of_not_mem this]
      · simp [hid]
    · rw [hc]
      split
      · exact h.erase p
      · exact h

/-- From a list that names every node once, whatever is recorded. -/
theorem node?_disown_of_nodup (r : Registry α) (p : Text) {cs : List Text} (h : cs.Nodup)
    (id : Text) :
    (r.disown p cs).node? id =
      if id ∈ cs then (r.node? id).map (·.dropParent p) else r.node? id := by
  induction cs generalizing r with
  | nil => simp [disown]
  | cons c cs ih =>
    obtain ⟨hc, hcs⟩ := List.nodup_cons.1 h
    rw [disown_cons, ih _ hcs, node?_modify]
    by_cases hid : id = c
    · subst hid
      simp [hc]
    · simp [hid]

theorem parentIds_disown_of_nodup (r : Registry α) (p : Text) {cs : List Text} (h : cs.Nodup)
    (id : Text) :
    (r.disown p cs).parentIds id =
      if id ∈ cs then (r.parentIds id).erase p else r.parentIds id := by
  rw [parentIds, node?_disown_of_nodup r p h]
  split
  · cases hn : r.node? id with
    | none => simp [parentIds, hn]
    | some n => simp [parentIds, hn, Node.dropParent]
  · rfl

theorem mem_parentIds_disown {r : Registry α} {id : Text} (h : (r.parentIds id).Nodup) (p : Text)
    (cs : List Text) (q : Text) :
    q ∈ (r.disown p cs).parentIds id ↔ q ∈ r.parentIds id ∧ ¬(q = p ∧ id ∈ cs) := by
  rw [parentIds_disown h]
  split
  · rename_i hid
    rw [h.mem_erase_iff]
    simp [hid, and_comm]
  · rename_i hid
    simp [hid]

theorem nodup_parentIds_disown {r : Registry α} {id : Text} (h : (r.parentIds id).Nodup) (p : Text)
    (cs : List Text) : ((r.disown p cs).parentIds id).Nodup := by
  rw [parentIds_disown h]
  split
  · exact h.erase p
  · exact h

/-! ## Evaluations -/

theorem agreeOn_write (r : Registry α) (notes : Notes α) :
    AgreeOn Node.unevaluated r (r.write notes) := by
  refine ⟨rfl, fun id => ?_⟩
  rw [node?_write, Option.map_map]
  congr 1
  funext n
  simp only [Function.comp_apply]
  split <;> rfl

variable [Scalar α]

theorem agreeOn_evaluateVisiting (r : Registry α) (path : List Text) (id : Text) :
    AgreeOn Node.unevaluated r (r.evaluateVisiting path id).2 :=
  agreeOn_write r _

theorem agreeOn_evaluate (r : Registry α) (id : Text) :
    AgreeOn Node.unevaluated r (r.evaluate id).2 :=
  agreeOn_evaluateVisiting r [] id

theorem agreeOn_evaluateEach (r : Registry α) (ids : List Text) :
    AgreeOn Node.unevaluated r (r.evaluateEach ids).2 := by
  unfold evaluateEach
  generalize (OrderedMap.empty : Evaluations α) = evaluations
  induction ids generalizing r evaluations with
  | nil => exact .refl r
  | cons id ids ih => exact (agreeOn_evaluate r id).trans (ih _ _)

end Registry

end FormulaGraph
