/-!
# Maps that keep the order of insertion

A finite map as the list of its entries, no key twice. Putting a value under a key that is present
replaces the value and leaves the key in its place; a new key goes to the end. That order is what
every listing and every document shows.

**Views.** `m.get?` is the map as a function and `m.keys` its order; every operation has its
equation for the views it changes (`get?_insert`, `keys_insert`, `get?_modify`, `get?_erase`).
-/
namespace FormulaGraph

/-- A finite map with its keys in order of insertion. -/
structure OrderedMap (κ ν : Type) where
  entries : List (κ × ν)
  nodup : (entries.map (·.1)).Nodup

namespace OrderedMap

variable {κ ν : Type}

def empty : OrderedMap κ ν := ⟨[], List.nodup_nil⟩

def keys (m : OrderedMap κ ν) : List κ := m.entries.map (·.1)

def values (m : OrderedMap κ ν) : List ν := m.entries.map (·.2)

def size (m : OrderedMap κ ν) : Nat := m.entries.length

/-- The map with every value replaced; keys and order stay. -/
def mapValues {μ : Type} (f : κ → ν → μ) (m : OrderedMap κ ν) : OrderedMap κ μ :=
  ⟨m.entries.map fun e => (e.1, f e.1 e.2), by
    have := m.nodup
    simpa [List.map_map, Function.comp_def] using this⟩

variable [DecidableEq κ]

/-- The value in a list of entries. -/
def find? (k : κ) : List (κ × ν) → Option ν
  | [] => none
  | (k', v) :: rest => if k' = k then some v else find? k rest

def get? (m : OrderedMap κ ν) (k : κ) : Option ν := find? k m.entries

def contains (m : OrderedMap κ ν) (k : κ) : Bool := (m.get? k).isSome

/-- Replaces the value under a key, or appends the entry. -/
def put (k : κ) (v : ν) : List (κ × ν) → List (κ × ν)
  | [] => [(k, v)]
  | (k', v') :: rest => if k' = k then (k', v) :: rest else (k', v') :: put k v rest

theorem map_fst_put (k : κ) (v : ν) (es : List (κ × ν)) :
    (put k v es).map (·.1) = if k ∈ es.map (·.1) then es.map (·.1) else es.map (·.1) ++ [k] := by
  induction es with
  | nil => simp [put]
  | cons e rest ih =>
    obtain ⟨k', v'⟩ := e
    by_cases h : k' = k
    · simp [put, h]
    · have h' : ¬k = k' := fun e => h e.symm
      simp only [put, h, if_false, List.map_cons, ih, List.mem_cons, h', false_or]
      split <;> simp

def insert (m : OrderedMap κ ν) (k : κ) (v : ν) : OrderedMap κ ν :=
  ⟨put k v m.entries, by
    rw [map_fst_put]
    split
    · exact m.nodup
    · rename_i h
      rw [List.nodup_append]
      exact ⟨m.nodup, by simp, fun a ha b hb => by
        rw [List.mem_singleton] at hb
        exact fun e => h (hb ▸ e ▸ ha)⟩⟩

def erase (m : OrderedMap κ ν) (k : κ) : OrderedMap κ ν :=
  ⟨m.entries.filter (·.1 ≠ k), (List.filter_sublist.map _).nodup m.nodup⟩

/-- Changes the value under a key, if there is one. -/
def modify (m : OrderedMap κ ν) (k : κ) (f : ν → ν) : OrderedMap κ ν :=
  m.mapValues fun k' v => if k' = k then f v else v

/-- The map of a list of entries; of two entries with one key the later value counts. -/
def ofList (es : List (κ × ν)) : OrderedMap κ ν := es.foldl (fun m e => m.insert e.1 e.2) empty

/-- The map with the entries of another put in, in their order. -/
def insertAll (m n : OrderedMap κ ν) : OrderedMap κ ν :=
  n.entries.foldl (fun m e => m.insert e.1 e.2) m

/-! ## What the operations do to the two views -/

theorem find?_isSome_iff (k : κ) (es : List (κ × ν)) :
    (find? k es).isSome = true ↔ k ∈ es.map (·.1) := by
  induction es with
  | nil => simp [find?]
  | cons e rest ih =>
    obtain ⟨k', v⟩ := e
    by_cases h : k' = k
    · simp [find?, h]
    · have h' : ¬k = k' := fun e => h e.symm
      rw [find?, if_neg h, ih]
      simp [h']

theorem contains_iff (m : OrderedMap κ ν) (k : κ) : m.contains k = true ↔ k ∈ m.keys :=
  find?_isSome_iff k m.entries

theorem mem_keys_of_get? {m : OrderedMap κ ν} {k : κ} {v : ν} (h : m.get? k = some v) :
    k ∈ m.keys :=
  (m.contains_iff k).1 (by simp [contains, h])

@[simp] theorem keys_insert (m : OrderedMap κ ν) (k : κ) (v : ν) :
    (m.insert k v).keys = if k ∈ m.keys then m.keys else m.keys ++ [k] :=
  map_fst_put k v m.entries

theorem find?_put (k k' : κ) (v : ν) (es : List (κ × ν)) :
    find? k' (put k v es) = if k = k' then some v else find? k' es := by
  induction es with
  | nil => simp [put, find?]
  | cons e rest ih =>
    obtain ⟨k₀, v₀⟩ := e
    by_cases h : k₀ = k
    · subst h
      by_cases h₂ : k₀ = k' <;> simp [put, find?, h₂]
    · rw [put, if_neg h]
      by_cases h₂ : k₀ = k'
      · have h₃ : ¬k = k' := fun e => h (h₂.trans e.symm)
        simp [find?, h₂, h₃]
      · simp [find?, h₂, ih]

@[simp] theorem get?_insert (m : OrderedMap κ ν) (k k' : κ) (v : ν) :
    (m.insert k v).get? k' = if k = k' then some v else m.get? k' :=
  find?_put k k' v m.entries

omit [DecidableEq κ] in
@[simp] theorem keys_mapValues {μ : Type} (f : κ → ν → μ) (m : OrderedMap κ ν) :
    (m.mapValues f).keys = m.keys := by
  simp [keys, mapValues, List.map_map, Function.comp_def]

@[simp] theorem keys_modify (m : OrderedMap κ ν) (k : κ) (f : ν → ν) :
    (m.modify k f).keys = m.keys := keys_mapValues _ m

@[simp] theorem get?_empty (k : κ) : (empty : OrderedMap κ ν).get? k = none := rfl

theorem find?_map {μ : Type} (f : κ → ν → μ) (k : κ) (es : List (κ × ν)) :
    find? k (es.map fun e => (e.1, f e.1 e.2)) = (find? k es).map (f k) := by
  induction es with
  | nil => rfl
  | cons e rest ih =>
    by_cases h : e.1 = k
    · simp [find?, h]
    · simpa [find?, h] using ih

@[simp] theorem get?_mapValues {μ : Type} (f : κ → ν → μ) (m : OrderedMap κ ν) (k : κ) :
    (m.mapValues f).get? k = (m.get? k).map (f k) :=
  find?_map f k m.entries

theorem get?_modify (m : OrderedMap κ ν) (k k' : κ) (f : ν → ν) :
    (m.modify k f).get? k' = if k' = k then (m.get? k').map f else m.get? k' := by
  rw [modify, get?_mapValues]
  split <;> simp

theorem find?_filter_ne (k k' : κ) (es : List (κ × ν)) :
    find? k' (es.filter (·.1 ≠ k)) = if k' = k then none else find? k' es := by
  induction es with
  | nil => simp [find?]
  | cons e rest ih =>
    by_cases h : e.1 = k
    · rw [List.filter_cons_of_neg (by simp [h]), ih]
      split
      · rfl
      · rename_i h'
        have hne : ¬e.1 = k' := fun e' => h' (e'.symm.trans h)
        rw [find?, if_neg hne]
    · rw [List.filter_cons_of_pos (by simp [h]), find?, ih, find?]
      by_cases h' : e.1 = k'
      · rw [if_pos h', if_neg (fun e' => h (h'.trans e')), if_pos h']
      · rw [if_neg h', if_neg h']

@[simp] theorem get?_erase (m : OrderedMap κ ν) (k k' : κ) :
    (m.erase k).get? k' = if k' = k then none else m.get? k' :=
  find?_filter_ne k k' m.entries

@[simp] theorem keys_erase (m : OrderedMap κ ν) (k : κ) :
    (m.erase k).keys = m.keys.filter (· ≠ k) := by
  simp only [keys, erase, List.filter_map]
  rfl

theorem find?_eq_some_iff {k : κ} {v : ν} {es : List (κ × ν)} (h : (es.map (·.1)).Nodup) :
    find? k es = some v ↔ (k, v) ∈ es := by
  induction es with
  | nil => simp [find?]
  | cons e rest ih =>
    obtain ⟨k', v'⟩ := e
    obtain ⟨hk, hrest⟩ := List.nodup_cons.1 h
    by_cases h' : k' = k
    · subst h'
      have hnot : ¬(k', v) ∈ rest := fun hmem => hk (List.mem_map.2 ⟨_, hmem, rfl⟩)
      simp [find?, hnot, eq_comm]
    · have h'' : ¬k = k' := fun e => h' e.symm
      simp [find?, h', h'', ih hrest]

theorem get?_eq_some_iff {m : OrderedMap κ ν} {k : κ} {v : ν} :
    m.get? k = some v ↔ (k, v) ∈ m.entries :=
  find?_eq_some_iff m.nodup

theorem map_entries_eq (m : OrderedMap κ ν) :
    m.entries.map (fun e => (e.1, some e.2)) = m.keys.map fun k => (k, m.get? k) := by
  rw [keys, List.map_map]
  refine List.map_congr_left fun e he => ?_
  have hget : m.get? e.1 = some e.2 := get?_eq_some_iff.2 he
  rw [Function.comp_apply, hget]

/-- A map is its two views. -/
theorem eq_of_get? {m m' : OrderedMap κ ν} (hkeys : m'.keys = m.keys)
    (h : ∀ k, m'.get? k = m.get? k) : m' = m := by
  have hentries : m'.entries = m.entries := by
    have hviews := m'.map_entries_eq
    simp only [hkeys, h, ← map_entries_eq] at hviews
    refine (List.map_inj_right fun e e' he => ?_).1 hviews
    obtain ⟨hkey, hvalue⟩ := Prod.mk.inj he
    exact Prod.ext hkey (Option.some.inj hvalue)
  cases m
  cases m'
  simpa using hentries

theorem put_of_not_mem {k : κ} {es : List (κ × ν)} (h : k ∉ es.map (·.1)) (v : ν) :
    put k v es = es ++ [(k, v)] := by
  induction es with
  | nil => rfl
  | cons e rest ih =>
    obtain ⟨k', v'⟩ := e
    simp only [List.map_cons, List.mem_cons, not_or] at h
    have hne : ¬k' = k := fun e => h.1 e.symm
    rw [put, if_neg hne, ih h.2, List.cons_append]

theorem entries_foldl_insert {es : List (κ × ν)} {m : OrderedMap κ ν}
    (h : ((m.entries ++ es).map (·.1)).Nodup) :
    (es.foldl (fun m e => m.insert e.1 e.2) m).entries = m.entries ++ es := by
  induction es generalizing m with
  | nil => simp
  | cons e rest ih =>
    have hnew : e.1 ∉ m.entries.map (·.1) := by
      rw [List.map_append, List.nodup_append] at h
      exact fun hmem => h.2.2 e.1 hmem e.1 (by simp) rfl
    have hinsert : (m.insert e.1 e.2).entries = m.entries ++ [e] := put_of_not_mem hnew e.2
    rw [List.foldl_cons, ih, hinsert, List.append_assoc, List.singleton_append]
    rwa [hinsert, List.append_assoc, List.singleton_append]

/-- Entries with different keys stay in their order. -/
theorem entries_ofList {es : List (κ × ν)} (h : (es.map (·.1)).Nodup) :
    (ofList es).entries = es :=
  (entries_foldl_insert (m := empty) h).trans (List.nil_append es)

theorem ofList_entries (m : OrderedMap κ ν) : ofList m.entries = m := by
  have hentries : (ofList m.entries).entries = m.entries := entries_ofList m.nodup
  cases h : ofList m.entries
  cases m
  simp_all

theorem contains_eq_true_iff (m : OrderedMap κ ν) (k : κ) :
    m.contains k = true ↔ ∃ v, m.get? k = some v := by
  rw [contains, Option.isSome_iff_exists]

end OrderedMap

end FormulaGraph
