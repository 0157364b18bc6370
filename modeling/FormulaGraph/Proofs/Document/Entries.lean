import FormulaGraph.Proofs.Document.Accepted
import FormulaGraph.Proofs.Document.Checked
import FormulaGraph.Proofs.Evaluation.Roots
import Mathlib.Data.List.Dedup
import Mathlib.Data.List.Perm.Subperm
/-!
# The entries of a document and the nodes of a registry

The entries of a document are put into a table one by one, and what the check looks at is the table.
Two entries of one key leave a single node there, that of the later one; nothing reports the other.

* `readPairs_eq_ok`: what is read are the entries, each a key with a record.
* `size_ofList_lt`: a table of entries that has a key twice is smaller than the list.
* `importDocument_entries`: an accepted checked import has a node for every entry exactly if no key
  is there twice.
-/
namespace FormulaGraph

/-! ## Tables of entries -/

namespace OrderedMap

variable {κ ν : Type} [DecidableEq κ]

theorem mem_of_get?_foldl_insert {es : List (κ × ν)} {m : OrderedMap κ ν} {k : κ} {v : ν}
    (h : (es.foldl (fun m e => m.insert e.1 e.2) m).get? k = some v) :
    m.get? k = some v ∨ (k, v) ∈ es := by
  induction es generalizing m with
  | nil => exact .inl h
  | cons e es ih =>
    rcases ih h with hm | hes
    · rw [get?_insert] at hm
      split at hm
      · rename_i hk
        obtain rfl := Option.some.inj hm
        exact .inr (hk ▸ List.mem_cons_self)
      · exact .inl hm
    · exact .inr (List.mem_cons_of_mem _ hes)

/-- What stands in a table is one of its entries. -/
theorem mem_of_get?_ofList {es : List (κ × ν)} {k : κ} {v : ν} (h : (ofList es).get? k = some v) :
    (k, v) ∈ es := by
  rcases mem_of_get?_foldl_insert h with hempty | hes
  · cases hempty
  · exact hes

theorem keys_ofList_subset (es : List (κ × ν)) : (ofList es).keys ⊆ es.map (·.1) := by
  intro k hk
  obtain ⟨v, hv⟩ := ((ofList es).contains_eq_true_iff k).1 (((ofList es).contains_iff k).2 hk)
  exact List.mem_map.2 ⟨(k, v), mem_of_get?_ofList hv, rfl⟩

/-- The keys of a table are among those of its entries, each once. -/
theorem size_ofList_lt {es : List (κ × ν)} (h : ¬(es.map (·.1)).Nodup) :
    (ofList es).size < es.length := by
  have hkeys : (ofList es).keys.length ≤ (es.map (·.1)).dedup.length := by
    refine (List.subperm_of_subset (ofList es).nodup fun k hk => ?_).length_le
    exact List.mem_dedup.2 (keys_ofList_subset es hk)
  have hshorter : (es.map (·.1)).dedup.length < (es.map (·.1)).length := by
    refine lt_of_le_of_ne (List.dedup_sublist _).length_le fun hlength => h ?_
    rw [← (List.dedup_sublist _).eq_of_length hlength]
    exact List.nodup_dedup _
  have hsize : (ofList es).size = (ofList es).keys.length := (List.length_map _).symm
  rw [List.length_map] at hshorter
  omega

end OrderedMap

/-! ## Entries -/

/-- An entry of a document, a key with the fields of a record. -/
abbrev KeyedRecord (α : Type) := Text × List (Text × Json α)

/-- The pair that stands for an entry. -/
def KeyedRecord.pair {α : Type} (e : KeyedRecord α) : Json α := .list [.text e.1, .object e.2]

theorem KeyedRecord.pair_injective {α : Type} : Function.Injective (KeyedRecord.pair (α := α)) := by
  rintro ⟨key, fields⟩ ⟨key', fields'⟩ h
  cases h
  rfl

namespace Document

variable {α : Type} [Scalar α]

/-- A key with the node that its record gives. -/
def Gives (e : KeyedRecord α) (k : Text × Node α) : Prop :=
  k.1 = e.1 ∧ k.2.Matches e.2 ∧ k.2.Recordable

theorem readPair_eq_ok {index : Nat} {item : Json α} {k : Text × Node α}
    (h : readPair index item = .ok k) : ∃ e : KeyedRecord α, item = e.pair ∧ Gives e k := by
  unfold readPair at h
  split at h
  · rename_i id record
    split at h
    · rename_i n hn
      cases h
      obtain ⟨fields, rfl, hmatches, hrecordable⟩ := Node.ofRecord_eq_ok hn
      exact ⟨(id, fields), rfl, rfl, hmatches, hrecordable⟩
    · cases h
    · cases h
  · cases h

/-- What is read are the entries, all of them and in their order. -/
theorem readPairs_eq_ok {index : Nat} {items : List (Json α)} {ks : List (Text × Node α)}
    (h : readPairs index items = .ok ks) :
    ∃ es : List (KeyedRecord α), items = es.map KeyedRecord.pair ∧ List.Forall₂ Gives es ks := by
  induction items generalizing index ks with
  | nil =>
    cases h
    exact ⟨[], rfl, .nil⟩
  | cons item items ih =>
    rw [readPairs] at h
    obtain ⟨k, hk, h⟩ := ok_of_bind h
    obtain ⟨rest, hrest, h⟩ := ok_of_bind h
    cases h
    obtain ⟨e, rfl, hgives⟩ := readPair_eq_ok hk
    obtain ⟨es, rfl, hall⟩ := ih hrest
    exact ⟨e :: es, rfl, .cons hgives hall⟩

omit [Scalar α] in
theorem texts?_eq_some {items : List (Json α)} {ids : List Text}
    (h : (Json.list items).texts? = some ids) : items = ids.map .text := by
  change items.mapM Json.text? = some ids at h
  induction items generalizing ids with
  | nil =>
    cases h
    rfl
  | cons item items ih =>
    rw [List.mapM_cons] at h
    obtain ⟨t, ht, h⟩ := Option.bind_eq_some_iff.1 h
    obtain ⟨rest, hrest, h⟩ := Option.bind_eq_some_iff.1 h
    cases h
    cases item with
    | text u =>
      cases ht
      rw [ih hrest]
      rfl
    | _ => cases ht

omit [Scalar α] in
theorem pairs_eq_ok {doc : Json α} {items : List (Json α)} (h : pairs doc = .ok items) :
    doc.get? "nodes" = some (.list items) := by
  unfold pairs at h
  split at h
  · rename_i hitems
    cases h
    exact hitems
  · cases h

omit [Scalar α] in
theorem roots_eq_ok {doc : Json α} {ids : List Text} (h : roots doc = .ok ids) :
    doc.get? "rootNodeIds" = some (.list (ids.map .text)) := by
  unfold roots at h
  split at h
  · rename_i hids
    cases h
    obtain ⟨v, hv, htexts⟩ := Option.bind_eq_some_iff.1 hids
    cases v with
    | list items => rw [hv, texts?_eq_some htexts]
    | _ => cases htexts
  · cases h

/-- The nodes of a document that is read are those of its entries, and its roots those listed. -/
theorem read_eq_ok {doc : Json α} {r : Registry α} (h : read doc = .ok r) :
    ∃ (es : List (KeyedRecord α)) (ks : List (Text × Node α)),
      doc.get? "nodes" = some (.list (es.map KeyedRecord.pair)) ∧
      doc.get? "rootNodeIds" = some (.list (r.roots.map .text)) ∧
      List.Forall₂ Gives es ks ∧ r.nodes = .ofList ks := by
  unfold read at h
  split at h
  · obtain ⟨items, hitems, h⟩ := ok_of_bind h
    obtain ⟨ids, hids, h⟩ := ok_of_bind h
    obtain ⟨ks, hks, h⟩ := ok_of_bind h
    cases h
    obtain ⟨es, rfl, hgives⟩ := readPairs_eq_ok hks
    exact ⟨es, ks, pairs_eq_ok hitems, roots_eq_ok hids, hgives, rfl⟩
  · cases h

theorem map_fst_of_gives {es : List (KeyedRecord α)} {ks : List (Text × Node α)}
    (h : List.Forall₂ Gives es ks) : ks.map (·.1) = es.map (·.1) := by
  induction h with
  | nil => rfl
  | cons hgives _ ih => rw [List.map_cons, List.map_cons, ih, hgives.1]

theorem exists_mem_of_forall₂ {β γ : Type} {R : β → γ → Prop} {l : List β} {m : List γ}
    (h : List.Forall₂ R l m) {x : β} (hx : x ∈ l) : ∃ y ∈ m, R x y := by
  induction h with
  | nil => cases hx
  | cons hxy _ ih =>
    rcases List.mem_cons.1 hx with rfl | hx
    · exact ⟨_, List.mem_cons_self, hxy⟩
    · obtain ⟨y, hy, hR⟩ := ih hx
      exact ⟨y, List.mem_cons_of_mem _ hy, hR⟩

section

variable {r : Registry α} {es : List (KeyedRecord α)} {ks : List (Text × Node α)}
  (hgives : List.Forall₂ Gives es ks) (hnodes : r.nodes = .ofList ks)

include hgives hnodes

theorem entries_of_nodup (hnodup : (es.map (·.1)).Nodup) :
    r.nodes.entries = ks ∧ r.nodes.keys = es.map (·.1) := by
  have hkeys := map_fst_of_gives hgives
  have hentries : r.nodes.entries = ks := by
    rw [hnodes]
    exact OrderedMap.entries_ofList (hkeys ▸ hnodup)
  exact ⟨hentries, by rw [OrderedMap.keys, hentries, hkeys]⟩

/-- Where no key is there twice, the node of every entry is found under its key. -/
theorem node?_of_nodup (hnodup : (es.map (·.1)).Nodup) {e : KeyedRecord α} (he : e ∈ es) :
    ∃ n, r.node? e.1 = some n ∧ n.Matches e.2 := by
  obtain ⟨hentries, -⟩ := entries_of_nodup hgives hnodes hnodup
  obtain ⟨⟨key, n⟩, hk, hkey, hmatches, -⟩ := exists_mem_of_forall₂ hgives he
  obtain rfl : key = e.1 := hkey
  exact ⟨n, OrderedMap.get?_eq_some_iff.2 (by rw [hentries]; exact hk), hmatches⟩

/-- Where a key is there twice, an entry has no node. -/
theorem size_lt_of_not_nodup (h : ¬(es.map (·.1)).Nodup) : r.nodes.size < es.length := by
  rw [hnodes, hgives.length_eq]
  exact OrderedMap.size_ofList_lt (map_fst_of_gives hgives ▸ h)

end

end Document

theorem Node.Matches.of_unevaluated_eq {α : Type} [Scalar α] {n m : Node α}
    {fields : List (Text × Json α)} (h : n.Matches fields) (heq : n.unevaluated = m.unevaluated) :
    m.Matches fields := by
  cases n
  cases m
  cases heq
  exact ⟨h.kind, h.id, h.name, h.children, h.parents, h.body, h.description, h.unit⟩

namespace Registry

variable {α : Type} [Scalar α]

open Document

/-- **The entries of a checked import.** An accepted checked import has read nothing but entries.
When no key is there twice, the registry has one node for every entry, in their order, and under
each key the node of its record. When a key is there twice, it has fewer nodes than there are
entries. -/
theorem importDocument_entries {s r : Registry α} {doc : Json α}
    (h : s.importDocument doc true = (.ok (), r)) :
    (∃ es : List (KeyedRecord α), doc.get? "nodes" = some (.list (es.map KeyedRecord.pair))) ∧
    ∀ es : List (KeyedRecord α), doc.get? "nodes" = some (.list (es.map KeyedRecord.pair)) →
      ((es.map (·.1)).Nodup → r.nodes.keys = es.map (·.1) ∧
        ∀ e ∈ es, ∃ n, r.node? e.1 = some n ∧ n.id = e.1 ∧ n.Matches e.2) ∧
      (¬(es.map (·.1)).Nodup → r.nodes.size < es.length) := by
  have hsound : Sound r := sound_of_importDocument h
  obtain ⟨imported, hread, -, rfl⟩ := importDocument_eq_ok h
  obtain ⟨es, ks, hes, -, hgives, hnodes⟩ := read_eq_ok hread
  refine ⟨⟨es, hes⟩, fun es' hes' => ?_⟩
  obtain rfl : es' = es := by
    rw [hes] at hes'
    exact (KeyedRecord.pair_injective.list_map (Json.list.inj (Option.some.inj hes'))).symm
  have hsame := agreeOn_evaluateEach imported imported.roots
  rw [evaluateRoots, evaluateEach_eq] at hsound ⊢
  rw [evaluateEach_eq] at hsame
  refine ⟨fun hnodup => ⟨?_, fun e he => ?_⟩, fun hrepeated => ?_⟩
  · rw [keys_write, (entries_of_nodup hgives hnodes hnodup).2]
  · obtain ⟨m, hm, hmatches⟩ := node?_of_nodup hgives hnodes hnodup he
    obtain ⟨n, hn, hunevaluated⟩ := hsame.symm.node? hm
    exact ⟨n, hn, (hsound.stored e.1 n hn).id_eq, hmatches.of_unevaluated_eq hunevaluated.symm⟩
  · have hsize : (imported.write (traces imported.nodes imported.roots)).nodes.size =
        imported.nodes.size := List.length_map _
    rw [hsize]
    exact size_lt_of_not_nodup hgives hnodes hrepeated

/-- The entries of factors with their ids and values. -/
def factorEntries (factors : List (Text × Int)) : List (KeyedRecord Exact) :=
  factors.map fun f => (f.1, [("id", .text f.1), ("name", .text f.1), ("kind", .text "factor"),
    ("value", .int f.2)])

def factorDocument (factors : List (Text × Int)) : Json Exact :=
  .object [
    ("nodes", .list ((factorEntries factors).map KeyedRecord.pair)),
    ("rootNodeIds", .list [])]

/-- The factors, imported into an empty registry. -/
def importedFactors (factors : List (Text × Int)) : Except Failure Unit × Registry Exact :=
  empty.importDocument (factorDocument factors) true

theorem importDocument_entries_pair :
    (importedFactors [("a", 1), ("b", 2)]).1 = .ok () ∧
    (importedFactors [("a", 1), ("b", 2)]).2.nodes.keys = ["a", "b"] ∧
    ∀ e ∈ factorEntries [("a", 1), ("b", 2)], ∃ n,
      (importedFactors [("a", 1), ("b", 2)]).2.node? e.1 = some n ∧ n.id = e.1 ∧
        n.Matches e.2 := by
  have haccepted : (importedFactors [("a", 1), ("b", 2)]).1 = .ok () := by decide +kernel
  have himport : empty.importDocument (factorDocument [("a", 1), ("b", 2)]) true =
      (.ok (), (importedFactors [("a", 1), ("b", 2)]).2) := Prod.ext haccepted rfl
  have hnodup : ((factorEntries [("a", 1), ("b", 2)]).map (·.1)).Nodup := by decide +kernel
  exact ⟨haccepted, ((importDocument_entries himport).2 _ rfl).1 hnodup⟩

/-- Two records of one key: both are in the document, the check passes, and the node of the first
one is nowhere. -/
theorem importDocument_repeated :
    (importedFactors [("a", 1), ("a", 2)]).1 = .ok () ∧
    (factorDocument [("a", 1), ("a", 2)]).get? "nodes" =
      some (.list ((factorEntries [("a", 1), ("a", 2)]).map KeyedRecord.pair)) ∧
    (importedFactors [("a", 1), ("a", 2)]).2.nodes.size = 1 ∧
    ∃ e ∈ factorEntries [("a", 1), ("a", 2)], ¬∃ n,
      (importedFactors [("a", 1), ("a", 2)]).2.node? e.1 = some n ∧ n.Matches e.2 := by
  refine ⟨by decide +kernel, rfl, by decide +kernel, _, List.mem_cons_self, ?_⟩
  rintro ⟨n, hn, hmatches⟩
  have hlater : ((importedFactors [("a", 1), ("a", 2)]).2.node? "a").map
      (fun n => (n.kind, n.currentValue)) = some (.factor, .value 2) := by decide +kernel
  change (importedFactors [("a", 1), ("a", 2)]).2.node? "a" = some n at hn
  rw [hn] at hlater
  have hbody := hmatches.body
  cases hb : n.body with
  | formula e => simp [Node.kind, hb] at hlater
  | factor v =>
    rw [hb] at hbody
    obtain rfl : v = .value 2 := by simpa [Node.kind, Node.currentValue, hb] using hlater
    have hearlier : Node.Source.toNumber ((Node.recorded .value
        [("id", .text "a"), ("name", .text "a"), ("kind", .text "factor"),
          ("value", .int 1)]).getD (.real Scalar.zero)) = .ok (Exact.value 1) := by
      decide +kernel
    cases hearlier.symm.trans hbody

end Registry

end FormulaGraph
