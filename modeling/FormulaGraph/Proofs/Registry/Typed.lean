import FormulaGraph.Proofs.Registry.Edits
/-!
# Children given as ids

A list of children can hold values that are no ids, as it is kept the way it was given. It holds ids
only (`Typed`) as long as every update gives ids (`Changes.GivesIds`); then the entries of the list
are the children, and what is proved of `childIds` is proved of the whole list (`Typed.listed_eq`).
-/
namespace FormulaGraph

namespace Json

variable {α : Type}

/-- Every value is a text. -/
def AllTexts (items : List (Json α)) : Prop := ∀ v ∈ items, ∃ t, v = .text t

instance (v : Json α) : Decidable (∃ t, v = .text t) :=
  match v with
  | .text t => .isTrue ⟨t, rfl⟩
  | .null | .bool _ | .int _ | .real _ | .list _ | .object _ => .isFalse fun ⟨_, h⟩ => nomatch h

instance (items : List (Json α)) : Decidable (AllTexts items) :=
  inferInstanceAs (Decidable (∀ v ∈ items, ∃ t, v = .text t))

theorem allTexts_map_text (ts : List Text) : AllTexts (ts.map .text : List (Json α)) := by
  intro v hv
  obtain ⟨t, -, rfl⟩ := List.mem_map.1 hv
  exact ⟨t, rfl⟩

theorem AllTexts.eq_map_text {items : List (Json α)} (h : AllTexts items) :
    items = (textsAmong items).map .text := by
  induction items with
  | nil => rfl
  | cons v items ih =>
    obtain ⟨t, rfl⟩ := h v List.mem_cons_self
    exact congrArg (.text t :: ·) (ih fun w hw => h w (List.mem_cons_of_mem _ hw))

theorem mem_of_mem_eraseText {t : Text} {v : Json α} {items : List (Json α)}
    (h : v ∈ eraseText t items) : v ∈ items := by
  fun_induction eraseText t items with
  | case1 => exact h
  | case2 rest => exact List.mem_cons_of_mem _ h
  | case3 s rest _ ih =>
    rcases List.mem_cons.1 h with rfl | h
    · exact List.mem_cons_self
    · exact List.mem_cons_of_mem _ (ih h)
  | case4 w rest _ ih =>
    rcases List.mem_cons.1 h with rfl | h
    · exact List.mem_cons_self
    · exact List.mem_cons_of_mem _ (ih h)

variable [Scalar α]

theorem mem_of_mem_foldl {v : Json α} (items : List (Json α)) {kept : List (Json α)}
    (h : v ∈ items.foldl keepNew kept) : v ∈ kept ∨ v ∈ items := by
  induction items generalizing kept with
  | nil => exact .inl h
  | cons item items ih =>
    rcases ih h with hkept | hitems
    · unfold keepNew at hkept
      split at hkept
      · exact .inl hkept
      · rcases List.mem_append.1 hkept with hkept | hitem
        · exact .inl hkept
        · exact .inr (List.mem_singleton.1 hitem ▸ List.mem_cons_self)
    · exact .inr (List.mem_cons_of_mem _ hitems)

theorem allTexts_entries {ts : List Text} {listed : List (Json α)}
    (h : (Json.list (ts.map .text)).entries = .ok listed) : AllTexts listed := by
  obtain ⟨items, hitems, rfl⟩ := entries_eq_ok h
  obtain rfl := Except.ok.inj hitems
  intro v hv
  rcases mem_of_mem_foldl _ hv with h | h
  · cases h
  · exact allTexts_map_text ts v h

end Json

/-- The children, if the changes give any, are a list of ids. -/
def Changes.GivesIds {α : Type} (c : Changes α) : Prop :=
  ∀ v, c.children = some v → ∃ ts : List Text, v = .list (ts.map .text)

namespace Registry

variable {α : Type}

/-- Every entry of every list of children is an id. -/
def Typed (r : Registry α) : Prop := ∀ id n, r.node? id = some n → Json.AllTexts n.listed

theorem typed_empty : Typed (empty : Registry α) := by
  intro id n h
  simp [empty, node?] at h

theorem Typed.listed_eq {r : Registry α} (hr : Typed r) {id : Text} {n : Node α}
    (hn : r.node? id = some n) : n.listed = n.children.map .text :=
  (hr id n hn).eq_map_text

theorem Typed.of_agreeOn {r r' : Registry α} (hr : Typed r) (h : AgreeOn Node.own r r') :
    Typed r' := by
  intro id n hn
  obtain ⟨m, hm, hown⟩ := h.node? hn
  have hlisted : m.listed = n.listed := congrArg (·.2.2) hown
  rw [← hlisted]
  exact hr id m hm

theorem typed_modify {r : Registry α} (hr : Typed r) (k : Text) {f : Node α → Node α}
    (h : ∀ n, Json.AllTexts n.listed → Json.AllTexts (f n).listed) : Typed (r.modify k f) := by
  intro id n hn
  rw [node?_modify] at hn
  split at hn
  · obtain ⟨m, hm, rfl⟩ := Option.map_eq_some_iff.1 hn
    exact h m (hr id m hm)
  · exact hr id n hn

theorem Typed.markRoot {r : Registry α} (hr : Typed r) (id : Text) : Typed (r.markRoot id).2 := by
  unfold Registry.markRoot
  split
  · exact hr
  · split
    · exact hr
    · exact hr

variable [Scalar α]

theorem Typed.create {r : Registry α} (hr : Typed r) {n : Node α} (hn : Json.AllTexts n.listed) :
    Typed (r.create n) := by
  refine Typed.of_agreeOn (fun id m hm => ?_) (agreeOn_create r n).links.own
  rw [node?_store] at hm
  split at hm
  · obtain rfl := Option.some.inj hm
    exact hn
  · exact hr.of_agreeOn (agreeOn_adopt r n.id n.children).own_of_alone id m hm

theorem Typed.addChild {r : Registry α} (hr : Typed r) (parent child : Text) :
    Typed (r.addChild parent child).2 := by
  rcases addChild_cases r parent child with h | ⟨p, -, -, -, -, h⟩
  · rwa [h]
  · refine Typed.of_agreeOn ?_ h.links.own
    have hlinked : Typed (r.modify parent (·.addChild child)) := by
      refine typed_modify hr parent fun n hn v hv => ?_
      rcases List.mem_append.1 hv with hv | hv
      · exact hn v hv
      · exact ⟨child, List.mem_singleton.1 hv⟩
    exact hlinked.of_agreeOn (agreeOn_adopt _ parent [child]).own_of_alone

theorem Typed.removeChild {r : Registry α} (hr : Typed r) (parent child : Text) :
    Typed (r.removeChild parent child).2 := by
  rcases removeChild_cases r parent child with h | ⟨h, -⟩
  · refine Typed.of_agreeOn ?_ h.links.own
    have hunlinked : Typed (r.modify parent (·.dropChild child)) :=
      typed_modify hr parent fun n hn v hv => hn v (Json.mem_of_mem_eraseText hv)
    exact hunlinked.of_agreeOn (agreeOn_disown _ parent [child]).own_of_alone
  · rwa [h]

theorem Typed.update {r : Registry α} (hr : Typed r) (id : Text) {c : Changes α}
    (hc : c.GivesIds) :
    Typed (r.update id c).2 := by
  rcases update_cases r id c with h | ⟨n, r₁, v, listed, -, -, h₁, hv, hlisted, h⟩
  · exact hr.of_agreeOn h.own
  · obtain ⟨ts, rfl⟩ := hc v hv
    refine Typed.of_agreeOn ?_ h.links.own
    rw [relink_eq]
    have hregrouped := agreeOn_regroup r₁ n (Json.textsAmong listed)
    exact typed_modify ((hr.of_agreeOn h₁.own).of_agreeOn hregrouped.own_of_alone) id
      fun _ _ => Json.allTexts_entries hlisted

theorem Typed.removeFrom {r : Registry α} (hr : Typed r) (parents : List Text) (child : Text) :
    Typed (r.removeFrom parents child).2 := by
  induction parents generalizing r with
  | nil => exact hr
  | cons parent parents ih =>
    rw [removeFrom_cons]
    exact ih (hr.removeChild parent child)

theorem Typed.delete {r : Registry α} (hr : Typed r) (id : Text) : Typed (r.delete id).2 := by
  rcases delete_cases r id with ⟨-, h⟩ | ⟨-, h⟩
  · rwa [h]
  · rw [h]
    intro k n hn
    rw [node?_forget] at hn
    split at hn
    · cases hn
    · have hremoved := hr.removeFrom (r.listing id) id
      exact hremoved.of_agreeOn (agreeOn_disown _ id _).own_of_alone k n hn

end Registry

end FormulaGraph
