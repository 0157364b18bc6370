import FormulaGraph.Document
import FormulaGraph.Proofs.Json.Documents
/-!
# Documents in files

A file is read with every end of a line replaced by a newline. For the text of a document that
changes nothing: apart from newlines it has no control character (`clean_write`), neither in texts,
where these are written as escapes, nor in numbers. The newline at the end of a saved file is a
blank, and the bytes of a file are the text again.

* `loadBytes_toUTF8`: a file with the text of a document is loaded as that text.
* `read_line`: the text of a document is read as the document with a newline behind it, too.
-/
namespace FormulaGraph

namespace Json

open Reader

/-! ## No control characters -/

/-- Newlines are the only control characters. -/
def Clean (cs : List Char) : Prop := ∀ c ∈ cs, c = '\n' ∨ 0x20 ≤ c.toNat

theorem Clean.append {cs ds : List Char} (hc : Clean cs) (hd : Clean ds) : Clean (cs ++ ds) :=
  fun c h => (List.mem_append.1 h).elim (hc c) (hd c)

theorem Clean.cons {c : Char} {cs : List Char} (hc : 0x20 ≤ c.toNat) (hcs : Clean cs) :
    Clean (c :: cs) := by
  intro d hd
  rcases List.mem_cons.1 hd with rfl | hd
  · exact .inr hc
  · exact hcs d hd

theorem Clean.of_subset {cs ds : List Char} (hd : Clean ds) (h : cs ⊆ ds) : Clean cs :=
  fun c hc => hd c (h hc)

theorem clean_string (s : String) (h : s.toList.all (fun c => 0x20 ≤ c.toNat) = true) :
    Clean s.toList :=
  fun c hc => .inr (by simpa using List.all_eq_true.1 h c hc)

theorem clean_replicate {c : Char} (h : 0x20 ≤ c.toNat) (n : Nat) : Clean (List.replicate n c) :=
  fun _ hd => .inr (List.eq_of_mem_replicate hd ▸ h)

theorem clean_intercalate {separator : String} {items : List String}
    (hs : Clean separator.toList) (hitems : ∀ s ∈ items, Clean s.toList) :
    Clean (separator.intercalate items).toList := by
  rw [String.toList_intercalate]
  induction items with
  | nil => exact fun c hc => nomatch hc
  | cons s items ih =>
    obtain ⟨hfirst, hrest⟩ := List.forall_mem_cons.1 hitems
    cases items with
    | nil => simpa using hfirst
    | cons t items =>
      simp only [List.map_cons, List.intercalate_cons_cons] at ih ⊢
      exact (hfirst.append hs).append (ih hrest)

/-! ## Numbers -/

theorem clean_toDigits (n : Nat) : Clean (Nat.toDigits 10 n) := by
  intro c hc
  have hdigit : c.isDigit = true := Nat.isDigit_of_mem_toDigits (by decide) (by decide) hc
  simp only [Char.isDigit, Bool.and_eq_true, decide_eq_true_eq] at hdigit
  have h : 48 ≤ c.toNat := hdigit.1
  exact .inr (by omega)

theorem clean_toString (i : Int) : Clean (toString i).toList := by
  cases i with
  | ofNat n =>
    change Clean n.repr.toList
    rw [Nat.toList_repr]
    exact clean_toDigits n
  | negSucc n =>
    change Clean ("-" ++ n.succ.repr).toList
    rw [String.toList_append, Nat.toList_repr]
    exact (clean_string "-" (by decide)).append (clean_toDigits n.succ)

theorem clean_positional {digits : List Char} (h : Clean digits) (point : Int) :
    Clean (FloatStyle.positional digits point) := by
  have hzeros : ∀ n, Clean (FloatStyle.zeros n) := clean_replicate (by decide)
  unfold FloatStyle.positional
  split
  · exact .cons (by decide) (.cons (by decide) ((hzeros _).append h))
  · dsimp only
    split
    · exact (h.append (hzeros _)).append (clean_string ".0" (by decide))
    · exact (h.of_subset (List.take_subset _ _)).append
        (.cons (by decide) (h.of_subset (List.drop_subset _ _)))

theorem clean_scientific {digits : List Char} (h : Clean digits) (style : FloatStyle)
    (exponent : Int) : Clean (style.scientific digits exponent) := by
  have hsign : 0x20 ≤ (if exponent < 0 then '-' else '+' : Char).toNat := by
    split <;> decide
  have hzeros : Clean (FloatStyle.zeros
      (style.exponentDigits - (Nat.toDigits 10 exponent.natAbs).length)) :=
    clean_replicate (by decide) _
  unfold FloatStyle.scientific
  refine .append (.append ?_ (.cons (by decide) (.cons hsign hzeros))) (clean_toDigits _)
  split
  · exact h
  · exact h
  · rename_i d rest _
    have hrest : Clean rest := h.of_subset (List.subset_cons_self _ _)
    have hpoint : Clean ('.' :: rest) := .cons (by decide) hrest
    exact (h.of_subset (List.cons_subset.2 ⟨List.mem_cons_self, List.nil_subset _⟩)).append hpoint

theorem clean_magnitude (style : FloatStyle) (m : Nat) (q : Int) : Clean (style.magnitude m q) := by
  unfold FloatStyle.magnitude
  split
  · exact clean_string "0.0" (by decide)
  · dsimp only
    split
    · exact clean_positional (clean_toDigits _) _
    · exact clean_scientific (clean_toDigits _) style _

theorem clean_number (x : Float) : Clean (FloatStyle.json.text x).toList := by
  unfold FloatStyle.text
  split
  · rename_i s _
    cases s <;> exact clean_string _ (by decide)
  · rename_i negative m q _
    rw [String.toList_ofList]
    split
    · exact .cons (by decide) (clean_magnitude _ m q)
    · exact clean_magnitude _ m q

/-! ## Texts and documents -/

theorem digitChar_ge : ∀ d < 16, 0x20 ≤ (Nat.digitChar d).toNat := by decide

theorem clean_unitEscape {n : Nat} (hn : n < 0x10000) : Clean (unitEscape n) := by
  have hfirst : n / 16 / 16 / 16 < 16 := by omega
  have hmod : ∀ k, k % 16 < 16 := fun k => Nat.mod_lt k (by decide)
  rw [unitEscape, Text.hex_four hn]
  exact .cons (by decide) (.cons (by decide) (.cons (digitChar_ge _ hfirst)
    (.cons (digitChar_ge _ (hmod _)) (.cons (digitChar_ge _ (hmod _))
      (.cons (digitChar_ge _ (hmod _)) (fun c hc => nomatch hc))))))

theorem clean_of_escape {p : CodePoint} {cs : List Char} (h : Escape p cs) : Clean cs := by
  have hnil : Clean [] := fun c hc => nomatch hc
  cases h with
  | letter he hp =>
    refine .cons (by decide) ?_
    unfold escaped? at he
    split at he
    · exact clean_string "\"" (by decide)
    · exact clean_string "\\" (by decide)
    · exact clean_string "/" (by decide)
    · exact clean_string "b" (by decide)
    · exact clean_string "f" (by decide)
    · exact clean_string "n" (by decide)
    · exact clean_string "r" (by decide)
    · exact clean_string "t" (by decide)
    · cases he
  | plain _ _ hc _ => exact .cons hc hnil
  | unit hn _ => exact clean_unitEscape hn
  | pair hhigh hlow _ =>
    exact (clean_unitEscape (lt_of_isHighSurrogate hhigh)).append
      (clean_unitEscape (lt_of_isLowSurrogate hlow))

theorem clean_writeText (t : Text) : Clean (writeText t).toList := by
  rw [writeText, String.toList_ofList]
  refine .append (.cons (by decide) fun c hc => ?_) (clean_string "\"" (by decide))
  obtain ⟨p, -, hp⟩ := List.mem_flatMap.1 hc
  exact clean_of_escape (escape_escapePoint p) c hp

theorem clean_lineBreak (indent : Indent) (level : Nat) :
    Clean (lineBreak indent level).toList := by
  cases indent with
  | none => exact clean_string "" (by decide)
  | some n =>
    rw [lineBreak, String.toList_ofList]
    intro c hc
    rcases List.mem_cons.1 hc with rfl | hc
    · exact .inl rfl
    · exact clean_replicate (by decide) _ c hc

theorem clean_enclose (indent : Indent) (level : Nat) {opening closing : String}
    {items : List String} (ho : Clean opening.toList) (hc : Clean closing.toList)
    (hitems : ∀ s ∈ items, Clean s.toList) :
    Clean (enclose indent level opening closing items).toList := by
  have hbreak := clean_lineBreak indent
  unfold enclose
  split
  · rw [String.toList_append]
    exact ho.append hc
  · simp only [String.toList_append]
    refine (((ho.append (hbreak _)).append (clean_intercalate ?_ hitems)).append (hbreak _)).append
      hc
    cases indent with
    | none => exact clean_string ", " (by decide)
    | some n =>
      rw [String.toList_append]
      exact (clean_string "," (by decide)).append (hbreak _)

mutual

theorem clean_write (indent : Indent) (level : Nat) :
    ∀ v : Json Float, Clean (write indent level v).toList
  | .null => clean_string "null" (by decide)
  | .bool true => clean_string "true" (by decide)
  | .bool false => clean_string "false" (by decide)
  | .int i => clean_toString i
  | .real x => clean_number x
  | .text t => clean_writeText t
  | .list items =>
    clean_enclose indent level (clean_string "[" (by decide)) (clean_string "]" (by decide))
      (clean_writeItems indent (level + 1) items)
  | .object fields =>
    clean_enclose indent level (clean_string "\x7b" (by decide)) (clean_string "\x7d" (by decide))
      (clean_writeFields indent (level + 1) fields)

theorem clean_writeItems (indent : Indent) (level : Nat) :
    ∀ items : List (Json Float), ∀ s ∈ writeItems indent level items, Clean s.toList
  | [] => fun _ hs => nomatch hs
  | v :: rest => fun _ hs => by
    rcases List.mem_cons.1 hs with rfl | hs
    · exact clean_write indent level v
    · exact clean_writeItems indent level rest _ hs

theorem clean_writeFields (indent : Indent) (level : Nat) :
    ∀ fields : List (Text × Json Float), ∀ s ∈ writeFields indent level fields, Clean s.toList
  | [] => fun _ hs => nomatch hs
  | (name, v) :: rest => fun _ hs => by
    rcases List.mem_cons.1 hs with rfl | hs
    · rw [String.toList_append, String.toList_append]
      exact ((clean_writeText name).append (clean_string ": " (by decide))).append
        (clean_write indent level v)
    · exact clean_writeFields indent level rest _ hs

end

/-! ## Files -/

theorem plainLines_of_clean {cs : List Char} (h : Clean cs) : Registry.plainLines cs = cs := by
  fun_induction Registry.plainLines cs with
  | case1 rest ih => exact absurd (h '\r' List.mem_cons_self) (by decide)
  | case2 rest _ ih => exact absurd (h '\r' List.mem_cons_self) (by decide)
  | case3 c rest _ _ ih => rw [ih (h.of_subset (List.subset_cons_self _ _))]
  | case4 => rfl

theorem clean_line (indent : Indent) (v : Json Float) : Clean (v.toText indent ++ "\n").toList := by
  rw [String.toList_append]
  refine (clean_write indent 0 v).append fun c hc => .inl ?_
  exact List.mem_singleton.1 hc

/-- A file that ends with a newline is read as the document that stands before it. -/
theorem read_line {v : Json Float} (h : Faithful v) (indent : Indent) :
    Json.read (.ofString (v.toText indent ++ "\n")) = .ok v :=
  read_toText_append h indent (by simp [Blank, points, CodePoint.holds, isSpace])

end Json

namespace Registry

theorem loadBytes_toUTF8 {α : Type} [Scalar α] {s : String} (hs : Json.Clean s.toList)
    (r : Registry α) (check : Bool) :
    r.loadBytes s.toUTF8 check = r.loadText (.ofString s) check := by
  have hbytes : String.fromUTF8? s.toUTF8 = some s := dif_pos s.isValidUTF8
  simp only [loadBytes, hbytes, Json.plainLines_of_clean hs]
  rfl

end Registry

end FormulaGraph
