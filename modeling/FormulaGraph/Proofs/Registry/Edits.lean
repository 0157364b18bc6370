import FormulaGraph.Proofs.Registry.Consistent
import Mathlib.Data.List.Induction
/-!
# Every edit keeps a registry consistent

An edit changes links in one of the ways of `FormulaGraph.Proofs.Registry.Consistent` or in none,
and then evaluates, which changes no link. Which way it is, and what was checked before, is said
once for each edit: `agreeOn_create`, `addChild_cases`, `removeChild_cases`, `update_cases`,
`delete_cases`. What an update does to the nodes when it is carried through is said by `Carried`.

**Results.** `Consistent.createFactor`, `Consistent.createFormula`, `Consistent.addChild`,
`Consistent.removeChild`, `Consistent.update` and `Consistent.delete`: the registry after an edit is
consistent if the one before is, whatever the edit gives as its result. Only a creation asks for
more: the id of the new node is fresh.
-/
namespace FormulaGraph

/-! ## Given lists of children -/

theorem eraseDups_append_singleton (l : List Text) (a : Text) :
    (l ++ [a]).eraseDups = if a ∈ l then l.eraseDups else l.eraseDups ++ [a] := by
  rw [List.eraseDups_append]
  split
  · rename_i ha
    simp [List.removeAll, ha]
  · rename_i ha
    simp [List.removeAll, ha, List.eraseDups_cons]

namespace Json

variable {α : Type}

theorem mem_textsAmong {s : Text} {items : List (Json α)} :
    s ∈ textsAmong items ↔ .text s ∈ items := by
  rw [textsAmong, List.mem_filterMap]
  constructor
  · rintro ⟨v, hv, hs⟩
    cases v with
    | text t =>
      obtain rfl := Option.some.inj hs
      exact hv
    | _ => cases hs
  · exact fun h => ⟨_, h, rfl⟩

theorem checkItems_texts (ids : List Text) :
    checkItems (ids.map .text : List (Json α)) = .ok () := by
  induction ids with
  | nil => rfl
  | cons id ids ih => exact ih

variable [Scalar α]

theorem sameItem_text (s : Text) (v : Json α) : sameItem (.text s) v = true ↔ v = .text s := by
  cases v with
  | text t =>
    simp only [sameItem, beq_iff_eq, text.injEq]
    exact eq_comm
  | _ => simp [sameItem, whole?]

/-- An item behind others, unless it is one of them already. -/
def keepNew (kept : List (Json α)) (item : Json α) : List (Json α) :=
  if kept.any (sameItem item) then kept else kept ++ [item]

theorem keepNew_texts (ids : List Text) (id : Text) :
    keepNew (ids.map .text : List (Json α)) (.text id) =
      (if id ∈ ids then ids else ids ++ [id]).map .text := by
  have hany : (ids.map .text).any (sameItem (.text id : Json α)) = true ↔ id ∈ ids := by
    simp [sameItem_text]
  unfold keepNew
  by_cases hid : id ∈ ids
  · rw [if_pos (hany.2 hid), if_pos hid]
  · rw [if_neg (mt hany.1 hid), if_neg hid, List.map_append, List.map_singleton]

/-- Of a list of ids the later repetitions are dropped. -/
theorem distinct_texts (ids : List Text) :
    distinct (ids.map .text : List (Json α)) = ids.eraseDups.map .text := by
  change (ids.map .text).foldl keepNew [] = _
  induction ids using List.reverseRecOn with
  | nil => rfl
  | append_singleton ids id ih =>
    rw [List.map_append, List.foldl_append, ih, List.map_singleton, List.foldl_cons,
      List.foldl_nil, keepNew_texts, eraseDups_append_singleton]
    simp only [List.mem_eraseDups]

theorem entries_texts (ids : List Text) :
    (Json.list (ids.map .text) : Json α).entries = .ok (ids.eraseDups.map .text) := by
  simp only [entries, childItems, checkItems_texts, distinct_texts, bind, Except.bind]
  rfl

theorem nodup_textsAmong_foldl (items : List (Json α)) {kept : List (Json α)}
    (hkept : (textsAmong kept).Nodup) : (textsAmong (items.foldl keepNew kept)).Nodup := by
  induction items generalizing kept with
  | nil => exact hkept
  | cons item items ih =>
    refine ih ?_
    unfold keepNew
    split
    · exact hkept
    · rename_i hany
      rw [textsAmong_append]
      cases item with
      | text s =>
        refine List.nodup_append.2 ⟨hkept, List.nodup_singleton s, ?_⟩
        rintro t ht u hu rfl
        obtain rfl : t = s := by simpa [textsAmong, text?] using hu
        refine hany (List.any_eq_true.2 ⟨_, mem_textsAmong.1 ht, ?_⟩)
        exact (sameItem_text t _).2 rfl
      | _ => exact (List.append_nil (textsAmong kept)).symm ▸ hkept

theorem entries_eq_ok {v : Json α} {listed : List (Json α)} (h : v.entries = .ok listed) :
    ∃ items, v.childItems = .ok items ∧ items.foldl keepNew [] = listed := by
  unfold entries at h
  cases hitems : v.childItems with
  | error e => simp [hitems, bind, Except.bind] at h
  | ok items =>
    refine ⟨items, rfl, ?_⟩
    cases hcheck : checkItems items with
    | error e => simp [hitems, hcheck, bind, Except.bind] at h
    | ok u =>
      have hdistinct : distinct items = listed := by
        simpa [hitems, hcheck, bind, Except.bind, pure, Except.pure] using h
      exact hdistinct

/-- A list of children that is taken has no id twice. -/
theorem nodup_textsAmong_entries {v : Json α} {listed : List (Json α)}
    (h : v.entries = .ok listed) : (textsAmong listed).Nodup := by
  obtain ⟨items, -, rfl⟩ := entries_eq_ok h
  exact nodup_textsAmong_foldl items List.nodup_nil

end Json

/-! ## Accepted changes -/

namespace Changes

variable {α : Type} [Scalar α]

/-- For a factor no expression is accepted. -/
theorem expression_of_factor {c : Changes α} {n : Node α} (haccepted : c.rejection? n = none)
    (hfactor : n.kind = .factor) : c.expression = none := by
  unfold rejection? at haccepted
  rw [hfactor] at haccepted
  split at haccepted
  · cases haccepted
  · dsimp only at haccepted
    split at haccepted
    · cases haccepted
    · rename_i hsome
      simpa using hsome

/-- For a formula no value is. -/
theorem value_of_formula {c : Changes α} {n : Node α} (haccepted : c.rejection? n = none)
    (hformula : n.kind = .formula) : c.value = none := by
  unfold rejection? at haccepted
  split at haccepted
  · cases haccepted
  · simpa [hformula] using haccepted

end Changes

namespace Registry

variable {α : Type} [Scalar α]

/-! ## What an edit does to the links -/

theorem agreeOn_create (r : Registry α) (n : Node α) :
    AgreeOn Node.unevaluated (r.store n) (r.create n) := by
  unfold create
  cases n.kind with
  | factor => exact .refl _
  | formula => exact agreeOn_evaluate _ n.id

theorem addChild_cases (r : Registry α) (parent child : Text) :
    (r.addChild parent child).2 = r ∨
      ∃ p, r.node? parent = some p ∧ ¬p.isFactor = true ∧ r.nodes.contains child = true ∧
        child ∉ r.childIds parent ∧
        AgreeOn Node.unevaluated (r.link parent child) (r.addChild parent child).2 := by
  unfold addChild
  split
  · exact .inl rfl
  · rename_i p c hboth
    obtain ⟨hp, hc⟩ := both_eq_ok hboth
    split
    · exact .inl rfl
    · rename_i hformula
      split
      · exact .inl rfl
      · rename_i hnew
        rw [← childIds_of_node? hp] at hnew
        exact .inr ⟨p, hp, hformula, contains_iff_node?.2 ⟨c, hc⟩, hnew, agreeOn_evaluate _ parent⟩

theorem removeChild_cases (r : Registry α) (parent child : Text) :
    AgreeOn Node.unevaluated (r.unlink parent child) (r.removeChild parent child).2 ∨
      (r.removeChild parent child).2 = r ∧
        (r.nodes.contains child = true → child ∉ r.childIds parent) := by
  unfold removeChild
  split
  · rename_i e hboth
    refine .inr ⟨rfl, fun hchild => ?_⟩
    obtain ⟨c, hc⟩ := contains_iff_node?.1 hchild
    cases hp : r.node? parent with
    | none => simp [childIds, hp]
    | some p => simp [both, hp, hc] at hboth
  · rename_i p c hboth
    obtain ⟨hp, -⟩ := both_eq_ok hboth
    split
    · rename_i hnot
      rw [← childIds_of_node? hp] at hnot
      exact .inr ⟨rfl, fun _ => hnot⟩
    · dsimp only
      split
      · exact .inl (agreeOn_evaluate _ parent)
      · exact .inl (.refl _)

/-- What is left does not depend on the evaluations that were collected on the way. -/
theorem removeFrom_eq_foldl (r : Registry α) (parents : List Text) (child : Text) :
    (r.removeFrom parents child).2 =
      parents.foldl (fun r parent => (r.removeChild parent child).2) r := by
  unfold removeFrom
  generalize (OrderedMap.empty : Evaluations α) = evaluations
  induction parents generalizing r evaluations with
  | nil => rfl
  | cons parent parents ih =>
    rcases hremove : r.removeChild parent child with ⟨_ | more, r'⟩
    · simp only [List.foldl_cons, hremove]
      exact ih r' evaluations
    · simp only [List.foldl_cons, hremove]
      exact ih r' (evaluations.insertAll more)

theorem removeFrom_cons (r : Registry α) (parent : Text) (parents : List Text) (child : Text) :
    (r.removeFrom (parent :: parents) child).2 =
      ((r.removeChild parent child).2.removeFrom parents child).2 := by
  rw [removeFrom_eq_foldl, removeFrom_eq_foldl, List.foldl_cons]

theorem roots_removeFrom (r : Registry α) (parents : List Text) (child : Text) :
    (r.removeFrom parents child).2.roots = r.roots := by
  induction parents generalizing r with
  | nil => rfl
  | cons parent parents ih =>
    rw [removeFrom_cons, ih]
    rcases removeChild_cases r parent child with h | ⟨h, -⟩
    · exact h.roots
    · rw [h]

theorem agreeOn_updateFactor {r : Registry α} {id : Text} {n : Node α}
    (hn : r.node? id = some n) (hfactor : n.kind = .factor) (c : Changes α) :
    AgreeOn Node.links r (r.updateFactor id c).2 := by
  unfold updateFactor
  split
  · exact .refl r
  · split
    · exact .refl r
    · refine .trans (agreeOn_modify fun m hm => ?_) (agreeOn_evaluateEach _ _).links
      obtain rfl := Option.some.inj (hn.symm.trans hm)
      rw [Node.links, Node.links, Node.own, Node.own, hfactor]
      rfl

theorem updateFormula_cases {r : Registry α} {id : Text} {m : Node α} (hm : r.node? id = some m)
    (hformula : m.kind = .formula) (n : Node α) (c : Changes α) :
    AgreeOn Node.links r (r.updateFormula id n c).2 ∨
      ∃ r₁ v listed, AgreeOn Node.links r r₁ ∧ c.children = some v ∧ v.entries = .ok listed ∧
        AgreeOn Node.unevaluated (r₁.relink id n listed) (r.updateFormula id n c).2 := by
  unfold updateFormula
  extract_lets r₁ evaluated
  -- the new expression is no link
  have hsame : AgreeOn Node.links r r₁ := by
    unfold r₁
    split
    · exact .refl r
    · refine agreeOn_modify fun k hk => ?_
      obtain rfl := Option.some.inj (hm.symm.trans hk)
      rw [Node.links, Node.links, Node.own, Node.own, hformula]
      rfl
  clear_value r₁
  split
  · split
    · exact .inl (hsame.trans (agreeOn_evaluate r₁ id).links)
    · exact .inl hsame
  · rename_i v hv
    split
    · exact .inl hsame
    · rename_i listed hlisted
      exact .inr ⟨r₁, v, listed, hsame, hv, hlisted, agreeOn_evaluate _ id⟩

theorem update_cases (r : Registry α) (id : Text) (c : Changes α) :
    AgreeOn Node.links r (r.update id c).2 ∨
      ∃ n r₁ v listed, r.node? id = some n ∧ n.kind = .formula ∧ AgreeOn Node.links r r₁ ∧
        c.children = some v ∧ v.entries = .ok listed ∧
        AgreeOn Node.unevaluated (r₁.relink id n listed) (r.update id c).2 := by
  unfold update
  split
  · exact .inl (.refl r)
  · rename_i n hn
    split
    · exact .inl (.refl r)
    · have hsame : AgreeOn Node.links r (r.modify id c.applyMetadata) :=
        agreeOn_modify fun _ _ => rfl
      obtain ⟨m, hm, hlinks⟩ := hsame.symm.node? hn
      have hkind : m.kind = n.kind := congrArg (·.1.2.1) hlinks
      dsimp only
      split
      · rename_i hfactor
        exact .inl (hsame.trans (agreeOn_updateFactor hm (hkind.trans hfactor) c))
      · rename_i hformula
        rcases updateFormula_cases hm (hkind.trans hformula) n c with h | ⟨r₁, v, listed, h₁, hrest⟩
        · exact .inl (hsame.trans h)
        · exact .inr ⟨n, r₁, v, listed, hn, hformula, hsame.trans h₁, hrest⟩

theorem delete_cases (r : Registry α) (id : Text) :
    (r.nodes.contains id = false ∧ (r.delete id).2 = r) ∨
      r.nodes.contains id = true ∧
        (r.delete id).2 = (r.removeFrom (r.listing id) id).2.forget id := by
  unfold delete listing
  cases hn : r.node? id with
  | none => exact .inl ⟨by rw [OrderedMap.contains, ← node?, hn]; rfl, rfl⟩
  | some n =>
    refine .inr ⟨contains_iff_node?.2 ⟨n, hn⟩, ?_⟩
    dsimp only
    rcases r.removeFrom _ id with ⟨evaluations, r'⟩
    dsimp only
    unfold forget disown childIds unmarkRoot
    cases r'.node? id with
    | none => rfl
    | some m => rfl

/-! ## What an update does -/

/-- What an update makes of a registry in which the metadata is changed already, when it is carried
through; `n` is the node as it was before. -/
inductive Carried (r : Registry α) (id : Text) (n : Node α) (c : Changes α) :
    Registry α → Prop where
  | kept (hvalue : c.value = none)
      (hformula : n.kind = .formula → c.expression = none ∧ c.children = none) :
      Carried r id n c r
  | valued {given : Json α} {v : α} (hfactor : n.kind = .factor) (hvalue : c.value = some given)
      (hnumber : given.number = .ok v) : Carried r id n c (r.setValue id v).2
  | rewritten (hformula : n.kind = .formula) (hvalue : c.value = none)
      (hchildren : c.children = none) :
      Carried r id n c ((r.modify id c.applyExpression).evaluate id).2
  | relinked {v : Json α} {listed : List (Json α)} (hformula : n.kind = .formula)
      (hvalue : c.value = none) (hchildren : c.children = some v)
      (hlisted : v.entries = .ok listed) :
      Carried r id n c (((r.modify id c.applyExpression).relink id n listed).evaluate id).2

section

variable {r r' : Registry α} {id : Text} {n : Node α} {c : Changes α} {evaluations : Evaluations α}

theorem carried_updateFactor (hfactor : n.kind = .factor)
    (h : r.updateFactor id c = (.ok evaluations, r')) : Carried r id n c r' := by
  unfold updateFactor at h
  cases hvalue : c.value with
  | none =>
    simp only [hvalue] at h
    obtain ⟨-, rfl⟩ := Prod.mk.inj h
    exact .kept hvalue fun hformula => nomatch hfactor.symm.trans hformula
  | some given =>
    simp only [hvalue] at h
    cases hnumber : given.number with
    | error e =>
      simp only [hnumber] at h
      cases h
    | ok v =>
      simp only [hnumber] at h
      obtain ⟨-, rfl⟩ := Prod.mk.inj h
      exact .valued hfactor hvalue hnumber

theorem carried_updateFormula (hformula : n.kind = .formula) (hvalue : c.value = none)
    (h : r.updateFormula id n c = (.ok evaluations, r')) : Carried r id n c r' := by
  unfold updateFormula at h
  extract_lets r₁ evaluated at h
  have hr₁ : r₁ = r.modify id c.applyExpression := by
    unfold r₁ Changes.applyExpression
    cases c.expression with
    | none => exact (modify_of_eq fun _ => rfl).symm
    | some e => rfl
  clear_value r₁
  subst hr₁
  cases hchildren : c.children with
  | none =>
    simp only [hchildren] at h
    split at h
    · obtain ⟨-, rfl⟩ := Prod.mk.inj h
      exact .rewritten hformula hvalue hchildren
    · rename_i hsome
      have hnone : c.expression = none := by simpa using hsome
      obtain ⟨-, rfl⟩ := Prod.mk.inj h
      have hsame : r.modify id c.applyExpression = r :=
        modify_of_eq fun n => by simp only [Changes.applyExpression, hnone]
      rw [hsame]
      exact .kept hvalue fun _ => ⟨hnone, hchildren⟩
  | some v =>
    simp only [hchildren] at h
    cases hlisted : v.entries with
    | error e =>
      simp only [hlisted] at h
      cases h
    | ok listed =>
      simp only [hlisted] at h
      obtain ⟨-, rfl⟩ := Prod.mk.inj h
      exact .relinked hformula hvalue hchildren hlisted

/-- An update that is carried through has found the node. -/
theorem exists_carried (h : (r.update id c).1 = .ok evaluations) :
    ∃ n, r.node? id = some n ∧ Carried (r.modify id c.applyMetadata) id n c (r.update id c).2 := by
  unfold update at h ⊢
  cases hn : r.node? id with
  | none =>
    simp only [hn] at h
    cases h
  | some n =>
    refine ⟨n, rfl, ?_⟩
    simp only [hn] at h ⊢
    cases hrejected : c.rejection? n with
    | some f =>
      simp only [hrejected] at h
      cases h
    | none =>
      simp only [hrejected] at h ⊢
      cases hkind : n.kind with
      | factor =>
        simp only [hkind] at h ⊢
        exact carried_updateFactor hkind (Prod.ext h rfl)
      | formula =>
        have hvalue : c.value = none := Changes.value_of_formula hrejected hkind
        simp only [hkind] at h ⊢
        exact carried_updateFormula hkind hvalue (Prod.ext h rfl)

end

/-! ## Consistency -/

theorem Consistent.createFactor {r : Registry α} (hr : Consistent r) {id : Text}
    (hfresh : r.IsFresh id) (name : Text) (value : α) (description unit : Option Text) :
    Consistent (r.createFactor id name value description unit) := by
  refine Consistent.of_agreeOn (hr.store ?_ ?_) (agreeOn_create r _).links
  · exact hfresh
  · exact ⟨fun _ => rfl, List.nodup_nil, rfl, List.not_mem_nil⟩

theorem Consistent.createFormula {r : Registry α} (hr : Consistent r) {id : Text}
    (hfresh : r.IsFresh id) (name expression : Text) {children : List Text} (hid : id ∉ children)
    (description unit : Option Text) :
    Consistent (r.createFormula id name expression children description unit) := by
  refine Consistent.of_agreeOn (hr.store ?_ ?_) (agreeOn_create r _).links
  · exact hfresh
  · refine ⟨by simp [Node.isFactor, Node.kind], ?_, rfl, ?_⟩
    · rw [Node.children, Json.textsAmong_map_text]
      exact nodup_eraseDups children
    · rwa [Node.children, Json.textsAmong_map_text, List.mem_eraseDups]

theorem Consistent.addChild {r : Registry α} (hr : Consistent r) (parent child : Text) :
    Consistent (r.addChild parent child).2 := by
  rcases addChild_cases r parent child with h | ⟨p, hp, hformula, hchild, hnew, h⟩
  · rwa [h]
  · exact (hr.link hp hformula hchild hnew).of_agreeOn h.links

theorem Consistent.removeChild {r : Registry α} (hr : Consistent r) (parent child : Text) :
    Consistent (r.removeChild parent child).2 := by
  rcases removeChild_cases r parent child with h | ⟨h, -⟩
  · exact (hr.unlink parent child).of_agreeOn h.links
  · rwa [h]

theorem Consistent.update {r : Registry α} (hr : Consistent r) (id : Text) (c : Changes α) :
    Consistent (r.update id c).2 := by
  rcases update_cases r id c with h | ⟨n, r₁, v, listed, hn, hformula, h₁, -, hlisted, h⟩
  · exact hr.of_agreeOn h
  · obtain ⟨m, hm, hlinks⟩ := h₁.symm.node? hn
    have hnodup := Json.nodup_textsAmong_entries hlisted
    exact ((hr.of_agreeOn h₁).relink hm hlinks.symm hformula hnodup).of_agreeOn h.links

/-- Removing a node from the nodes of a list leaves it listed nowhere but outside the list. -/
theorem Consistent.removeFrom {r : Registry α} (hr : Consistent r) {child : Text}
    (hchild : r.nodes.contains child = true) (parents : List Text) :
    Consistent (r.removeFrom parents child).2 ∧
      ∀ p, child ∈ (r.removeFrom parents child).2.childIds p →
        child ∈ r.childIds p ∧ p ∉ parents := by
  induction parents generalizing r with
  | nil => exact ⟨hr, fun p hp => ⟨hp, List.not_mem_nil⟩⟩
  | cons parent parents ih =>
    have hstep : (r.removeChild parent child).2.nodes.contains child = true ∧
        ∀ p, child ∈ (r.removeChild parent child).2.childIds p →
          child ∈ r.childIds p ∧ p ≠ parent := by
      rcases removeChild_cases r parent child with h | ⟨h, hnot⟩
      · refine ⟨by rw [h.contains, contains_unlink, hchild], fun p hp => ?_⟩
        rw [h.links.own.childIds, hr.mem_childIds_unlink] at hp
        exact ⟨hp.1, fun hpp => hp.2 ⟨hpp, rfl⟩⟩
      · rw [h]
        refine ⟨hchild, fun p hp => ⟨hp, ?_⟩⟩
        rintro rfl
        exact hnot hchild hp
    obtain ⟨hcontains, hlisted⟩ := hstep
    obtain ⟨hlast, hnone⟩ := ih (hr.removeChild parent child) hcontains
    rw [removeFrom_cons]
    refine ⟨hlast, fun p hp => ?_⟩
    obtain ⟨hp', hrest⟩ := hnone p hp
    obtain ⟨hold, hne⟩ := hlisted p hp'
    exact ⟨hold, fun hmem => (List.mem_cons.1 hmem).elim hne hrest⟩

theorem Consistent.delete {r : Registry α} (hr : Consistent r) (id : Text) :
    Consistent (r.delete id).2 := by
  rcases delete_cases r id with ⟨-, h⟩ | ⟨hid, h⟩
  · rwa [h]
  · rw [h]
    obtain ⟨hlast, hnone⟩ := hr.removeFrom hid (r.listing id)
    refine hlast.forget fun p hp => ?_
    obtain ⟨hold, hnot⟩ := hnone p hp
    exact hnot (mem_listing hold)

end Registry

end FormulaGraph
