import FormulaGraph.Display.Printed
import FormulaGraph.Proofs.Display.Trees
import FormulaGraph.Proofs.Document.Reload
import FormulaGraph.Proofs.Except
/-!
# Registries that can be printed

The one thing that cannot be printed is a unit that is no text, and no node with a record has such
a unit. So the trees and the rows of a registry whose nodes have records can all be printed, also
those with cycles, with children that do not exist and with nodes that have no value.

* `exists_tree_display`: the tree below a node.
* `exists_table`: a table of nodes.
-/
namespace FormulaGraph.Display

variable {r : Registry Float} {n : Node Float}

theorem exists_amount (value : Option Float) {unit : Json Float} (h : ∃ s, unit = .ofText? s) :
    ∃ t, amount value unit = .ok t := by
  obtain ⟨s, rfl⟩ := h
  cases value with
  | none => exact ⟨_, rfl⟩
  | some v =>
    cases s with
    | none => exact ⟨_, rfl⟩
    | some u =>
      by_cases hgiven : (!(Json.text u : Json Float).isGiven) = true
      · exact ⟨_, if_pos hgiven⟩
      · exact ⟨_, if_neg hgiven⟩

theorem exists_label (h : n.Recordable) : ∃ t, label n = .ok t := by
  obtain ⟨value, hvalue⟩ := exists_amount n.computed h.unit
  rw [label, hvalue]
  cases n.expression?.filter (!·.isEmpty) <;> exact ⟨_, rfl⟩

theorem exists_labelsEach {ts : List (DisplayTree Float)} (h : ∀ t ∈ ts, ∃ l, labels t = .ok l) :
    ∃ ls, labelsEach ts = .ok ls := by
  induction ts with
  | nil => exact ⟨[], rfl⟩
  | cons t ts ih =>
    obtain ⟨⟨l, hl⟩, hts⟩ := List.forall_mem_cons.1 h
    obtain ⟨ls, hls⟩ := ih hts
    refine ⟨l :: ls, ?_⟩
    rw [labelsEach, hl, hls]
    rfl

/-! ## Trees -/

/-- Nothing below a node keeps its tree from being printed. -/
theorem exists_labelsEach_children (hr : r.Recordable) (path : List Text) (id : Text) :
    ∀ n, r.node? id = some n → id ∉ path →
      ∃ ls, labelsEach (n.children.filterMap (r.displayAlong (id :: path))) = .ok ls := by
  induction path, id using Registry.walk_induction r.nodes with
  | step path id ih =>
    intro n hn hpath
    refine exists_labelsEach fun t ht => ?_
    obtain ⟨c, -, ht⟩ := List.mem_filterMap.1 ht
    cases hm : r.nodes.get? c with
    | none =>
      rw [Registry.displayAlong_of_none hm] at ht
      cases ht
    | some m =>
      by_cases hc : c ∈ id :: path
      · rw [Registry.displayAlong_of_mem hm hc] at ht
        cases ht
        exact ⟨_, rfl⟩
      · rw [Registry.displayAlong_of_get? hm hc] at ht
        cases ht
        obtain ⟨top, htop⟩ := exists_label (hr c m hm)
        obtain ⟨below, hbelow⟩ := ih n hn hpath c m hm hc
        refine ⟨.branch top below, ?_⟩
        rw [labels, htop, hbelow]
        rfl

theorem exists_tree_display (hr : r.Recordable) {id : Text} {t : DisplayTree Float}
    (ht : r.display id = some t) (failure : Option Failure) : ∃ e, tree t failure = .ok e := by
  rw [Registry.display] at ht
  cases hn : r.nodes.get? id with
  | none =>
    rw [Registry.displayAlong_of_none hn] at ht
    cases ht
  | some n =>
    rw [Registry.displayAlong_of_get? hn List.not_mem_nil] at ht
    cases ht
    obtain ⟨top, htop⟩ := exists_label (hr id n hn)
    obtain ⟨below, hbelow⟩ := exists_labelsEach_children hr [] id n hn List.not_mem_nil
    rw [tree, DisplayTree.node, DisplayTree.children, htop, hbelow]
    exact ⟨_, rfl⟩

/-! ## Rows -/

theorem exists_table {ns : List (Node Float)} (h : ∀ n ∈ ns, n.Recordable) :
    ∃ es, table (ns.map r.row) = .ok es := by
  have hcells : ∀ row ∈ ns.map r.row, ∃ texts, cells row = .ok texts := by
    intro row hrow
    obtain ⟨n, hn, rfl⟩ := List.mem_map.1 hrow
    obtain ⟨value, hvalue⟩ := exists_amount n.computed (h n hn).unit
    rw [cells, Registry.row, hvalue]
    exact ⟨_, rfl⟩
  obtain ⟨texts, htexts⟩ := exists_mapM hcells
  rw [table, htexts]
  cases (ns.map r.row).isEmpty <;> exact ⟨_, rfl⟩

end FormulaGraph.Display
