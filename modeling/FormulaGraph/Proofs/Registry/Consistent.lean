import FormulaGraph.Proofs.Registry.Links
/-!
# Registries whose links agree

`Consistent` says that the two directions of the links agree, and what makes this stay so: every
node is stored under its own id, a factor has no children, no list of links has an id twice. Since
no child is listed twice, an edit that takes one mention of it from a list takes the link.

A child need not exist; nothing is recorded with it then. So a node may only come under an id that
is free and that no node lists (`IsFresh`), or it would be a child without a parent.

**Results.** What an edit does to the links before it evaluates anything keeps a registry
consistent: `Consistent.store`, `Consistent.link`, `Consistent.unlink`, `Consistent.relink`,
`Consistent.forget`, `Consistent.markRoot`, `Consistent.unmarkRoot`. What leaves the links alone
does so as well (`Consistent.of_agreeOn`).
-/
namespace FormulaGraph

namespace Registry

variable {α : Type}

/-- What a node has to be that is stored under an id. -/
structure StoredUnder (id : Text) (n : Node α) : Prop where
  id_eq : n.id = id
  factor : n.isFactor = true → n.listed = []

/-- Every node is stored as it has to be. -/
def Stored (r : Registry α) : Prop := ∀ id n, r.node? id = some n → StoredUnder id n

/-- A registry whose links agree. -/
structure Consistent (r : Registry α) : Prop where
  stored : Stored r
  children_nodup : ∀ id, (r.childIds id).Nodup
  parents_nodup : ∀ id, (r.parentIds id).Nodup
  roots_nodup : r.roots.Nodup
  roots_exist : ∀ id ∈ r.roots, r.nodes.contains id = true
  /-- The recorded parents of a node are the nodes that list it. -/
  mirrored : ∀ c p, r.nodes.contains c = true → (p ∈ r.parentIds c ↔ c ∈ r.childIds p)

/-- An id that is free and that no node lists. -/
structure IsFresh (r : Registry α) (id : Text) : Prop where
  free : r.nodes.contains id = false
  unlisted : ∀ p, id ∉ r.childIds p

theorem consistent_empty : Consistent (empty : Registry α) where
  stored id n h := by simp [empty, node?] at h
  children_nodup id := by simp [empty, childIds, node?]
  parents_nodup id := by simp [empty, parentIds, node?]
  roots_nodup := List.nodup_nil
  roots_exist id h := by simp [empty] at h
  mirrored c p h := by simp [empty, OrderedMap.contains] at h

/-! ## Nodes under their own ids -/

theorem AgreeOn.stored {r r' : Registry α} (h : AgreeOn Node.own r r') (hr : Stored r) :
    Stored r' := by
  intro id n hn
  obtain ⟨m, hm, hown⟩ := h.node? hn
  simp only [Node.own, Prod.mk.injEq] at hown
  obtain ⟨hid, hkind, hlisted⟩ := hown
  obtain ⟨hstored, hfactor⟩ := hr id m hm
  refine ⟨hid ▸ hstored, fun h => hlisted ▸ hfactor ?_⟩
  rwa [Node.isFactor, hkind]

theorem Consistent.of_agreeOn {r r' : Registry α} (hr : Consistent r)
    (h : AgreeOn Node.links r r') : Consistent r' where
  stored := h.own.stored hr.stored
  children_nodup id := by
    rw [h.own.childIds]
    exact hr.children_nodup id
  parents_nodup id := by
    rw [h.parentIds]
    exact hr.parents_nodup id
  roots_nodup := by
    rw [h.roots]
    exact hr.roots_nodup
  roots_exist id hid := by
    rw [h.roots] at hid
    rw [h.contains]
    exact hr.roots_exist id hid
  mirrored c p hc := by
    rw [h.contains] at hc
    rw [h.parentIds, h.own.childIds]
    exact hr.mirrored c p hc

theorem stored_modify {r : Registry α} (hr : Stored r) {k : Text} {f : Node α → Node α}
    (h : ∀ n, r.node? k = some n → StoredUnder k n → StoredUnder k (f n)) :
    Stored (r.modify k f) := by
  intro id n hn
  rw [node?_modify] at hn
  split at hn
  · rename_i hid
    subst hid
    obtain ⟨m, hm, rfl⟩ := Option.map_eq_some_iff.1 hn
    exact h m hm (hr id m hm)
  · exact hr id n hn

/-! ## Roots -/

theorem Consistent.markRoot {r : Registry α} (hr : Consistent r) (id : Text) :
    Consistent (r.markRoot id).2 := by
  unfold Registry.markRoot
  split
  · exact hr
  · rename_i hid
    split
    · exact hr
    · rename_i hroots
      refine { hr with roots_nodup := ?_, roots_exist := ?_ }
      · exact List.nodup_append.2 ⟨hr.roots_nodup, by simp, by grind⟩
      · intro k hk
        rcases List.mem_append.1 hk with hk | hk
        · exact hr.roots_exist k hk
        · obtain rfl := List.mem_singleton.1 hk
          simpa using hid

theorem Consistent.unmarkRoot {r : Registry α} (hr : Consistent r) (id : Text) :
    Consistent (r.unmarkRoot id) :=
  { hr with
    roots_nodup := hr.roots_nodup.erase id
    roots_exist := fun k hk => hr.roots_exist k (List.mem_of_mem_erase hk) }

/-! ## Creation -/

/-- The registry with a new node, before it is evaluated. -/
def store (r : Registry α) (n : Node α) : Registry α :=
  { r.adopt n.id n.children with nodes := (r.adopt n.id n.children).nodes.insert n.id n }

theorem node?_store (r : Registry α) (n : Node α) (id : Text) :
    (r.store n).node? id = if id = n.id then some n else (r.adopt n.id n.children).node? id := by
  rw [node?, store, OrderedMap.get?_insert]
  simp only [eq_comm, node?]

theorem contains_store (r : Registry α) (n : Node α) (id : Text) :
    (r.store n).nodes.contains id = true ↔ id = n.id ∨ r.nodes.contains id = true := by
  rw [contains_iff_node?, ← (agreeOn_adopt r n.id n.children).contains, contains_iff_node?]
  simp only [node?_store]
  split
  · rename_i hid
    simp [hid]
  · rename_i hid
    simp [hid]

theorem childIds_store (r : Registry α) (n : Node α) (id : Text) :
    (r.store n).childIds id = if id = n.id then n.children else r.childIds id := by
  rw [childIds, node?_store, ← (agreeOn_adopt r n.id n.children).own_of_alone.childIds]
  split <;> rfl

theorem parentIds_store (r : Registry α) (n : Node α) (id : Text) :
    (r.store n).parentIds id =
      if id = n.id then n.parents else (r.adopt n.id n.children).parentIds id := by
  rw [parentIds, node?_store]
  split <;> rfl

/-- What a new node brings along. -/
structure IsNew (n : Node α) : Prop where
  factor : n.isFactor = true → n.listed = []
  children_nodup : n.children.Nodup
  parents : n.parents = []
  unlisted : n.id ∉ n.children

theorem Consistent.store {r : Registry α} (hr : Consistent r) {n : Node α}
    (hfresh : r.IsFresh n.id) (hn : IsNew n) : Consistent (r.store n) where
  stored id m hm := by
    rw [node?_store] at hm
    split at hm
    · rename_i hid
      obtain rfl := Option.some.inj hm
      exact ⟨hid.symm, hn.factor⟩
    · exact (agreeOn_adopt r n.id n.children).own_of_alone.stored hr.stored id m hm
  children_nodup id := by
    rw [childIds_store]
    split
    · exact hn.children_nodup
    · exact hr.children_nodup id
  parents_nodup id := by
    rw [parentIds_store]
    split
    · simp [hn.parents]
    · exact nodup_parentIds_adopt (hr.parents_nodup id) _ _
  roots_nodup := (agreeOn_adopt r n.id n.children).roots ▸ hr.roots_nodup
  roots_exist id hid := by
    rw [contains_store]
    exact .inr (hr.roots_exist id ((agreeOn_adopt r n.id n.children).roots ▸ hid))
  mirrored c p hc := by
    rw [contains_store] at hc
    rw [parentIds_store, childIds_store]
    by_cases hcn : c = n.id
    · -- nothing lists the new node, nor does it list itself
      subst hcn
      have hold : n.id ∉ r.childIds p := hfresh.unlisted p
      have hnew : n.id ∉ if p = n.id then n.children else r.childIds p := by
        split
        · exact hn.unlisted
        · exact hold
      simp [hn.parents, hnew]
    · have hc' : r.nodes.contains c = true := hc.resolve_left hcn
      rw [if_neg hcn, mem_parentIds_adopt, hr.mirrored c p hc']
      by_cases hpn : p = n.id
      · subst hpn
        have hold : c ∉ r.childIds n.id := by
          intro h
          have := contains_of_mem_childIds h
          simp [hfresh.free] at this
        simp [hold, hc']
      · simp [hpn]

/-! ## Links -/

theorem both_eq_ok {r : Registry α} {parent child : Text} {p c : Node α}
    (h : r.both parent child = .ok (p, c)) : r.node? parent = some p ∧ r.node? child = some c := by
  unfold both at h
  split at h
  · rename_i hp hc
    obtain ⟨rfl, rfl⟩ := Prod.mk.inj (Except.ok.inj h)
    exact ⟨hp, hc⟩
  · cases h
  · cases h

/-- A child comes under a node, in both directions. -/
def link (r : Registry α) (parent child : Text) : Registry α :=
  (r.modify parent (·.addChild child)).modify child (·.addParent parent)

theorem childIds_link {r : Registry α} {parent : Text} (h : r.nodes.contains parent = true)
    (child id : Text) :
    (r.link parent child).childIds id =
      if id = parent then r.childIds id ++ [child] else r.childIds id := by
  rw [link, childIds_modify_addParent, childIds_modify_addChild h]

theorem Consistent.link {r : Registry α} (hr : Consistent r) {parent child : Text} {p : Node α}
    (hp : r.node? parent = some p) (hformula : ¬p.isFactor = true)
    (hchild : r.nodes.contains child = true) (hnew : child ∉ r.childIds parent) :
    Consistent (r.link parent child) := by
  have hparent : r.nodes.contains parent = true := contains_iff_node?.2 ⟨p, hp⟩
  constructor
  case stored =>
    refine (agreeOn_adopt _ parent [child]).own_of_alone.stored ?_
    refine stored_modify hr.stored fun n hn hstored => ?_
    obtain rfl := Option.some.inj (hp.symm.trans hn)
    exact ⟨hstored.id_eq, fun hfactor => absurd hfactor hformula⟩
  case children_nodup =>
    intro id
    rw [childIds_link hparent]
    split
    · rename_i hid
      subst hid
      exact List.nodup_append.2 ⟨hr.children_nodup id, by simp, by grind⟩
    · exact hr.children_nodup id
  case parents_nodup =>
    intro id
    refine nodup_parentIds_modify_addParent ?_ child parent
    rw [parentIds_modify_addChild]
    exact hr.parents_nodup id
  case roots_nodup =>
    exact hr.roots_nodup
  case roots_exist =>
    intro id hid
    rw [Registry.link, contains_modify, contains_modify]
    exact hr.roots_exist id hid
  case mirrored =>
    intro c q hc
    rw [Registry.link, contains_modify, contains_modify] at hc
    rw [childIds_link hparent, Registry.link, mem_parentIds_modify_addParent,
      parentIds_modify_addChild, contains_modify, hr.mirrored c q hc]
    split
    · rename_i hq
      simp [hq, hchild]
    · rename_i hq
      simp [hq]

theorem childIds_unlink (r : Registry α) (parent child id : Text) :
    (r.unlink parent child).childIds id =
      if id = parent then (r.childIds id).erase child else r.childIds id := by
  rw [unlink, childIds_modify_dropParent, childIds_modify_dropChild]

theorem parentIds_unlink (r : Registry α) (parent child id : Text) :
    (r.unlink parent child).parentIds id =
      if id = child then (r.parentIds id).erase parent else r.parentIds id := by
  rw [unlink, parentIds_modify_dropParent, parentIds_modify_dropChild]

@[simp] theorem contains_unlink (r : Registry α) (parent child id : Text) :
    (r.unlink parent child).nodes.contains id = r.nodes.contains id := by
  rw [unlink, contains_modify, contains_modify]

/-- As no child is listed twice, one mention of it is the whole link. -/
theorem Consistent.mem_childIds_unlink {r : Registry α} (hr : Consistent r)
    (parent child q c : Text) :
    c ∈ (r.unlink parent child).childIds q ↔ c ∈ r.childIds q ∧ ¬(q = parent ∧ c = child) := by
  rw [childIds_unlink]
  split
  · rename_i hq
    rw [(hr.children_nodup q).mem_erase_iff]
    simp [hq, and_comm]
  · rename_i hq
    simp [hq]

theorem Consistent.unlink {r : Registry α} (hr : Consistent r) (parent child : Text) :
    Consistent (r.unlink parent child) where
  stored := by
    refine (agreeOn_disown _ parent [child]).own_of_alone.stored ?_
    refine stored_modify hr.stored fun n _ hn => ?_
    refine ⟨hn.id_eq, fun hfactor => ?_⟩
    have hempty : n.listed = [] := hn.factor hfactor
    simp [Node.dropChild, hempty, Json.eraseText]
  children_nodup id := by
    rw [childIds_unlink]
    split
    · exact (hr.children_nodup id).erase child
    · exact hr.children_nodup id
  parents_nodup id := by
    rw [parentIds_unlink]
    split
    · exact (hr.parents_nodup id).erase parent
    · exact hr.parents_nodup id
  roots_nodup := hr.roots_nodup
  roots_exist id hid := by
    rw [contains_unlink]
    exact hr.roots_exist id hid
  mirrored c q hc := by
    rw [contains_unlink] at hc
    rw [hr.mem_childIds_unlink, parentIds_unlink, ← hr.mirrored c q hc]
    split
    · rename_i hcc
      rw [(hr.parents_nodup c).mem_erase_iff]
      simp [hcc, and_comm]
    · rename_i hcc
      simp [hcc]

/-! ## Other children -/

/-- The registry in which the children that `n` loses and gains know it, `n` itself being as before.
-/
def regroup (r : Registry α) (n : Node α) (children : List Text) : Registry α :=
  (r.disown n.id (n.children.eraseDups.filter (· ∉ children))).adopt n.id
    (children.eraseDups.filter (· ∉ n.children))

theorem relink_eq (r : Registry α) (key : Text) (n : Node α) (listed : List (Json α)) :
    r.relink key n listed =
      (r.regroup n (Json.textsAmong listed)).modify key fun n => { n with listed } := rfl

theorem agreeOn_regroup (r : Registry α) (n : Node α) (children : List Text) :
    AgreeOn Node.alone r (r.regroup n children) :=
  (agreeOn_disown r n.id _).trans (agreeOn_adopt _ n.id _)

theorem contains_relink (r : Registry α) (key : Text) (n : Node α) (listed : List (Json α))
    (id : Text) : (r.relink key n listed).nodes.contains id = r.nodes.contains id := by
  rw [relink_eq, contains_modify, (agreeOn_regroup r n _).contains]

theorem childIds_relink {r : Registry α} {key : Text} (hkey : r.nodes.contains key = true)
    (n : Node α) (listed : List (Json α)) (id : Text) :
    (r.relink key n listed).childIds id =
      if id = key then Json.textsAmong listed else r.childIds id := by
  have hsame := agreeOn_regroup r n (Json.textsAmong listed)
  rw [relink_eq, childIds, node?_modify]
  split
  · rename_i hid
    subst hid
    rw [← hsame.contains, contains_iff_node?] at hkey
    obtain ⟨m, hm⟩ := hkey
    rw [hm]
    rfl
  · rw [← hsame.own_of_alone.childIds]
    rfl

theorem parentIds_relink (r : Registry α) (key : Text) (n : Node α) (listed : List (Json α)) :
    (r.relink key n listed).parentIds = (r.regroup n (Json.textsAmong listed)).parentIds :=
  parentIds_modify_of_eq (f := fun n => { n with listed }) (fun _ => rfl) _ key

/-- A child knows the node afterwards if it is one of the new children. -/
theorem Consistent.mem_parentIds_regroup {r : Registry α} (hr : Consistent r) {n : Node α}
    (hn : n.children = r.childIds n.id) (children : List Text) {c : Text}
    (hc : r.nodes.contains c = true) (q : Text) :
    q ∈ (r.regroup n children).parentIds c ↔
      if q = n.id then c ∈ children else c ∈ r.childIds q := by
  rw [regroup, mem_parentIds_adopt, (agreeOn_disown r n.id _).contains,
    mem_parentIds_disown (hr.parents_nodup c), hr.mirrored c q hc]
  simp only [List.mem_filter, List.mem_eraseDups, decide_eq_true_eq]
  split
  · rename_i hq
    subst hq
    by_cases hold : c ∈ r.childIds n.id
    · by_cases hnew : c ∈ children <;> simp [hn, hold, hnew]
    · simp [hn, hold, hc]
  · rename_i hq
    simp [hq]

/-- `n` is the node as it was when the children were compared. -/
theorem Consistent.relink {r : Registry α} (hr : Consistent r) {key : Text} {n m : Node α}
    (hm : r.node? key = some m) (hlinks : n.links = m.links) (hformula : n.kind = .formula)
    {listed : List (Json α)} (hlisted : (Json.textsAmong listed).Nodup) :
    Consistent (r.relink key n listed) := by
  simp only [Node.links, Node.own, Prod.mk.injEq] at hlinks
  obtain ⟨⟨hid, hkind, hold⟩, -⟩ := hlinks
  obtain rfl : n.id = key := hid.trans (hr.stored key m hm).id_eq
  have hkey : r.nodes.contains n.id = true := contains_iff_node?.2 ⟨m, hm⟩
  have hchildren : n.children = r.childIds n.id := by
    rw [childIds_of_node? hm, Node.children, hold, Node.children]
  have hsame := agreeOn_regroup r n (Json.textsAmong listed)
  constructor
  case stored =>
    refine stored_modify (hsame.own_of_alone.stored hr.stored) fun k hk hstored => ?_
    obtain ⟨m', hm', hown⟩ := hsame.own_of_alone.node? hk
    obtain rfl := Option.some.inj (hm.symm.trans hm')
    have hkformula : k.kind = .formula := by
      rw [← hformula, hkind]
      exact congrArg (·.2.1) hown.symm
    refine ⟨hstored.id_eq, fun hfactor => ?_⟩
    have hkfactor : k.kind = .factor := Node.isFactor_iff.1 hfactor
    cases hkformula.symm.trans hkfactor
  case children_nodup =>
    intro id
    rw [childIds_relink hkey]
    split
    · exact hlisted
    · exact hr.children_nodup id
  case parents_nodup =>
    intro id
    rw [parentIds_relink]
    exact nodup_parentIds_adopt (nodup_parentIds_disown (hr.parents_nodup id) _ _) _ _
  case roots_nodup =>
    exact hsame.roots ▸ hr.roots_nodup
  case roots_exist =>
    intro id hid
    rw [contains_relink]
    exact hr.roots_exist id (hsame.roots ▸ hid)
  case mirrored =>
    intro c q hc
    rw [contains_relink] at hc
    rw [parentIds_relink, hr.mem_parentIds_regroup hchildren _ hc, childIds_relink hkey]
    split <;> rfl

/-! ## A node taken out -/

/-- The registry without a node, its children having dropped it as a parent. -/
def forget (r : Registry α) (id : Text) : Registry α :=
  { (r.disown id (r.childIds id)).unmarkRoot id with
    nodes := (r.disown id (r.childIds id)).nodes.erase id }

theorem roots_forget (r : Registry α) (id : Text) : (r.forget id).roots = r.roots.erase id :=
  congrArg (·.erase id) (agreeOn_disown r id (r.childIds id)).roots

theorem node?_forget (r : Registry α) (id k : Text) :
    (r.forget id).node? k =
      if k = id then none else (r.disown id (r.childIds id)).node? k := by
  rw [node?, forget, OrderedMap.get?_erase]
  simp only [eq_comm, node?]

theorem contains_forget (r : Registry α) (id k : Text) :
    (r.forget id).nodes.contains k = true ↔ k ≠ id ∧ r.nodes.contains k = true := by
  rw [contains_iff_node?, ← (agreeOn_disown r id (r.childIds id)).contains, contains_iff_node?]
  simp only [node?_forget]
  split
  · rename_i hk
    simp [hk]
  · rename_i hk
    simp [hk]

theorem childIds_forget (r : Registry α) (id k : Text) :
    (r.forget id).childIds k = if k = id then [] else r.childIds k := by
  rw [childIds, node?_forget]
  split
  · rfl
  · exact congrFun (agreeOn_disown r id (r.childIds id)).own_of_alone.childIds k

theorem parentIds_forget (r : Registry α) (id k : Text) :
    (r.forget id).parentIds k =
      if k = id then [] else (r.disown id (r.childIds id)).parentIds k := by
  rw [parentIds, node?_forget]
  split <;> rfl

theorem Consistent.forget {r : Registry α} (hr : Consistent r) {id : Text}
    (h : ∀ p, id ∉ r.childIds p) : Consistent (r.forget id) where
  stored k n hn := by
    rw [node?_forget] at hn
    split at hn
    · cases hn
    · exact (agreeOn_disown r id (r.childIds id)).own_of_alone.stored hr.stored k n hn
  children_nodup k := by
    rw [childIds_forget]
    split
    · exact List.nodup_nil
    · exact hr.children_nodup k
  parents_nodup k := by
    rw [parentIds_forget]
    split
    · exact List.nodup_nil
    · exact nodup_parentIds_disown (hr.parents_nodup k) _ _
  roots_nodup := by
    rw [roots_forget]
    exact hr.roots_nodup.erase id
  roots_exist k hk := by
    rw [roots_forget] at hk
    rw [contains_forget]
    have hne : k ≠ id := by
      rintro rfl
      exact hr.roots_nodup.not_mem_erase hk
    exact ⟨hne, hr.roots_exist k (List.mem_of_mem_erase hk)⟩
  mirrored c p hc := by
    rw [contains_forget] at hc
    obtain ⟨hne, hc⟩ := hc
    rw [parentIds_forget, if_neg hne, childIds_forget, mem_parentIds_disown (hr.parents_nodup c),
      hr.mirrored c p hc]
    split
    · rename_i hp
      simp [hp]
    · rename_i hp
      simp [hp]

end Registry

end FormulaGraph
