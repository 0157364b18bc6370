import FormulaGraph.Number.Float
import FormulaGraph.Proofs.Json.Rules
/-!
# Documents read back

The text of a value is read as the value. The layout does not matter, since only blanks and line
breaks stand between the items of a list or the fields of an object (`points_enclose`). The
induction is on the levels that the reader still allows: the text of an item is shorter than that of
the list.

* `read_toText`: the text of a document is read as the document, if its numbers are read from their
  texts, no text holds two halves of a surrogate pair side by side, and no object has a field twice
  (`Faithful`).
-/
namespace FormulaGraph.Json

open Reader

/-! ## The layout -/

theorem points_append (s t : String) :
    points (s ++ t).toList = points s.toList ++ points t.toList := by
  rw [String.toList_append, points, List.map_append]

theorem points_intercalate (separator : String) (texts : List String) :
    points (separator.intercalate texts).toList =
      List.intercalate (points separator.toList) (texts.map fun s => points s.toList) := by
  rw [String.toList_intercalate]
  induction texts with
  | nil => rfl
  | cons s rest ih =>
    cases rest with
    | nil => simp
    | cons t rest =>
      simp only [points, List.map_cons, List.intercalate_cons_cons, List.map_append] at ih ⊢
      rw [ih]

theorem blank_lineBreak (indent : Indent) (level : Nat) :
    Blank (points (lineBreak indent level).toList) := by
  intro p hp
  cases indent with
  | none => cases hp
  | some n =>
    simp only [lineBreak, String.toList_ofList, points, List.map_cons, List.map_replicate,
      List.mem_cons, List.mem_replicate] at hp
    rcases hp with rfl | ⟨-, rfl⟩ <;> rfl

/-- Items stand between two brackets and blanks, whatever the layout. -/
theorem points_enclose {γ : Type} (indent : Indent) (level : Nat) (opening closing : String)
    (text : γ → String) (x : γ) (xs : List γ) :
    ∃ before between behind, Blank before ∧ Blank between ∧ Blank behind ∧
      points (enclose indent level opening closing ((x :: xs).map text)).toList =
        points opening.toList ++ (before ++
          (itemTexts between ((x :: xs).map fun y => points (text y).toList) ++
            (behind ++ points closing.toList))) := by
  have hbefore := blank_lineBreak indent (level + 1)
  have hbehind := blank_lineBreak indent level
  have hlayout : ∀ separator, points (opening ++ lineBreak indent (level + 1) ++
      String.intercalate separator ((x :: xs).map text) ++ lineBreak indent level ++
        closing).toList =
      points opening.toList ++ (points (lineBreak indent (level + 1)).toList ++
        (List.intercalate (points separator.toList)
            ((x :: xs).map fun y => points (text y).toList) ++
          (points (lineBreak indent level).toList ++ points closing.toList))) := by
    intro separator
    rw [points_append, points_append, points_append, points_append, points_intercalate,
      List.map_map]
    simp only [List.append_assoc, Function.comp_def]
  cases indent with
  | none =>
    exact ⟨_, [.char ' '], _, hbefore, blank_space, hbehind, hlayout ", "⟩
  | some n =>
    have hseparator : points ("," ++ lineBreak (some n) (level + 1)).toList =
        .char ',' :: points (lineBreak (some n) (level + 1)).toList := points_append _ _
    have h := hlayout ("," ++ lineBreak (some n) (level + 1))
    rw [hseparator] at h
    exact ⟨_, _, _, hbefore, hbefore, hbehind, h⟩

/-- Nothing stands between the brackets of an empty list or object. -/
theorem points_enclose_nil (indent : Indent) (level : Nat) (opening closing : String) :
    points (enclose indent level opening closing []).toList =
      points opening.toList ++ points closing.toList :=
  points_append _ _

theorem writeItems_eq (indent : Indent) (level : Nat) (vs : List (Json Float)) :
    writeItems indent level vs = vs.map (write indent level) := by
  induction vs with
  | nil => rfl
  | cons v vs ih => rw [writeItems, ih, List.map_cons]

theorem writeFields_eq (indent : Indent) (level : Nat) (fs : List (Text × Json Float)) :
    writeFields indent level fs =
      fs.map fun f => writeText f.1 ++ ": " ++ write indent level f.2 := by
  induction fs with
  | nil => rfl
  | cons f fs ih =>
    obtain ⟨name, v⟩ := f
    rw [writeFields, ih, List.map_cons]

/-- The text of a value on a level, as code points. -/
abbrev written (indent : Indent) (level : Nat) (v : Json Float) : List CodePoint :=
  points (write indent level v).toList

/-- The text of a field on a level. -/
abbrev writtenField (indent : Indent) (level : Nat) (f : Text × Json Float) : List CodePoint :=
  points (writeText f.1 ++ ": " ++ write indent level f.2).toList

theorem points_writeText (t : Text) :
    points (writeText t).toList =
      .char '"' :: (points (t.points.flatMap escapePoint) ++ [.char '"']) := by
  rw [writeText, String.toList_ofList, points, List.cons_append, List.map_cons, List.map_append]
  rfl

theorem writtenField_eq (indent : Indent) (level : Nat) (f : Text × Json Float) :
    writtenField indent level f =
      .char '"' :: (points (f.1.points.flatMap escapePoint) ++
        .char '"' :: .char ':' :: .char ' ' :: written indent level f.2) := by
  have hcolon : points ": ".toList = [.char ':', .char ' '] := rfl
  rw [writtenField, points_append, points_append, points_writeText, hcolon]
  simp

theorem written_list (indent : Indent) (level : Nat) (v : Json Float) (vs : List (Json Float)) :
    ∃ before between behind, Blank before ∧ Blank between ∧ Blank behind ∧
      written indent level (.list (v :: vs)) = .char '[' :: (before ++
        (itemTexts between ((v :: vs).map (written indent (level + 1))) ++
          (behind ++ [.char ']']))) := by
  have hopening : points "[".toList = [.char '['] := rfl
  have hclosing : points "]".toList = [.char ']'] := rfl
  have h := points_enclose indent level "[" "]" (write indent (level + 1)) v vs
  rw [hopening, hclosing, ← writeItems_eq] at h
  exact h

theorem written_object (indent : Indent) (level : Nat) (f : Text × Json Float)
    (fs : List (Text × Json Float)) :
    ∃ before between behind, Blank before ∧ Blank between ∧ Blank behind ∧
      written indent level (.object (f :: fs)) = .char '\x7b' :: (before ++
        (itemTexts between ((f :: fs).map (writtenField indent (level + 1))) ++
          (behind ++ [.char '\x7d']))) := by
  have hopening : points "\x7b".toList = [.char '\x7b'] := rfl
  have hclosing : points "\x7d".toList = [.char '\x7d'] := rfl
  have h := points_enclose indent level "\x7b" "\x7d"
    (fun f => writeText f.1 ++ ": " ++ write indent (level + 1) f.2) f fs
  rw [hopening, hclosing, ← writeFields_eq] at h
  rw [written, write]
  exact h

/-! ## Values -/

/-- A word or a number is read from its text. -/
structure Literal (v : Json Float) : Prop where
  starts : ∃ c ∈ (write none 0 v).toList.head?, startsLiteral c = true
  reads : ∀ rest, Stops rest → Reads wordOrNumber (written none 0 v ++ rest) v rest

theorem literal_null : Literal .null :=
  ⟨⟨'n', rfl, rfl⟩, by
    rintro rest - ⟨_, offset⟩ rfl
    exact ⟨_, rfl, rfl, rfl⟩⟩

theorem literal_bool (b : Bool) : Literal (.bool b) := by
  cases b with
  | true =>
    refine ⟨⟨'t', rfl, rfl⟩, ?_⟩
    rintro rest - ⟨_, offset⟩ rfl
    exact ⟨_, rfl, rfl, rfl⟩
  | false =>
    refine ⟨⟨'f', rfl, rfl⟩, ?_⟩
    rintro rest - ⟨_, offset⟩ rfl
    exact ⟨_, rfl, rfl, rfl⟩

/-- The characters of a number end where something else follows. -/
theorem charsWhile_points {cs : List Char} (hcs : ∀ c ∈ cs, isNumberChar c = true)
    {rest : List CodePoint} (hrest : Stops rest) :
    Text.charsWhile isNumberChar (points cs ++ rest) = cs := by
  induction cs with
  | nil =>
    cases rest with
    | nil => rfl
    | cons p rest =>
      have hp := hrest p rfl
      cases p with
      | char c => exact if_neg (ne_true_of_eq_false hp)
      | half d => rfl
  | cons c cs ih =>
    obtain ⟨hc, hcs⟩ := List.forall_mem_cons.1 hcs
    show (if isNumberChar c then c :: Text.charsWhile isNumberChar (points cs ++ rest) else []) = _
    rw [if_pos hc, ih hcs]

/-- A double is read from its text when that is what is read of the characters by themselves. -/
theorem literal_real {x : Float} {cs : List Char} (htext : (FloatStyle.json.text x).toList = cs)
    (hnumberChars : cs.all isNumberChar = true)
    (hword : ∀ rest, word? (α := Float) (points cs ++ rest) = none)
    (hnumber : number? cs = some (cs.length, .ok (.real x))) : Literal (.real x) := by
  have hwritten : (write none 0 (.real x)).toList = cs := htext
  have hchars : ∀ c ∈ cs, isNumberChar c = true := List.all_eq_true.1 hnumberChars
  obtain ⟨c, hc⟩ : ∃ c, cs.head? = some c := by
    cases cs with
    | nil => cases hnumber
    | cons c cs => exact ⟨c, rfl⟩
  refine ⟨⟨c, by rw [hwritten, hc]; rfl, ?_⟩, fun rest hrest => ?_⟩
  · rw [startsLiteral, hchars c (List.mem_of_mem_head? hc), Bool.true_or]
  · rintro ⟨_, offset⟩ rfl
    have hne : written none 0 (.real x) ++ rest ≠ [] := by
      rw [written, hwritten]
      obtain ⟨tail, rfl⟩ := List.head?_eq_some_iff.1 hc
      exact List.cons_ne_nil _ _
    refine ⟨.advance _ cs.length (.real x) hne, ?_, rfl, ?_⟩
    · have hword' := hword rest
      have hchars' := charsWhile_points hchars hrest
      rw [← hwritten] at hword' hchars'
      simp only [wordOrNumber, dif_neg hne, hword', hchars', hwritten, hnumber]
    · obtain ⟨tail, rfl⟩ := List.head?_eq_some_iff.1 hc
      simp [Got.advance, Cursor.advance, written, hwritten, points]

theorem value_eq_wordOrNumber {c : Position} {p : Char} {ps : List CodePoint}
    (hc : c.rest = .char p :: ps) (hp : startsLiteral p = true) (budget : Nat) :
    value (α := Float) (budget + 1) c = wordOrNumber c := by
  obtain ⟨_, offset⟩ := c
  obtain rfl := hc
  rw [value]
  split
  · rename_i heq
    cases heq
    cases hp
  · rename_i heq
    cases heq
    cases hp
  · rename_i heq
    cases heq
    cases hp
  · rfl

theorem startsValue_of_startsLiteral {c : Char} (h : startsLiteral c = true) : StartsValue c := by
  constructor
  · by_contra hspace
    rw [startsLiteral_of_isSpace (Bool.not_eq_false _ ▸ hspace)] at h
    cases h
  · intro hmem
    simp only [List.mem_cons, List.not_mem_nil, or_false] at hmem
    rcases hmem with rfl | rfl | rfl <;> cases h

/-- A word or a number is read as a value. -/
theorem Literal.spells {v : Json Float} (h : Literal v) (budget : Nat) :
    Spells (value (budget + 1)) (written none 0 v) v := by
  obtain ⟨p, hp, hstart⟩ := h.starts
  obtain ⟨ps, hps⟩ := List.head?_eq_some_iff.1 hp
  have hwritten : written none 0 v = .char p :: points ps := by
    rw [written, hps, points, List.map_cons]
  refine ⟨⟨p, points ps, hwritten, startsValue_of_startsLiteral hstart⟩, fun rest hrest c hc => ?_⟩
  obtain ⟨got, hgot, hvalue, hend⟩ := h.reads rest hrest c hc
  rw [hwritten] at hc
  exact ⟨got, (value_eq_wordOrNumber hc hstart budget).trans hgot, hvalue, hend⟩

/-- No field stands twice, no two halves of a surrogate pair stand side by side, and every number is
read from its text. -/
inductive Faithful : Json Float → Prop where
  | null : Faithful .null
  | bool (b : Bool) : Faithful (.bool b)
  | int {i : Int} (h : Literal (.int i)) : Faithful (.int i)
  | real {x : Float} (h : Literal (.real x)) : Faithful (.real x)
  | text {t : Text} (h : t.Apart) : Faithful (.text t)
  | list {items : List (Json Float)} (h : ∀ v ∈ items, Faithful v) : Faithful (.list items)
  | object {fields : List (Text × Json Float)} (hnames : (fields.map Prod.fst).Nodup)
    (hapart : ∀ f ∈ fields, f.1.Apart) (h : ∀ f ∈ fields, Faithful f.2) : Faithful (.object fields)

theorem spells_text {t : Text} (h : t.Apart) (indent : Indent) (level budget : Nat) :
    Spells (value (budget + 1)) (written indent level (.text t)) (.text t : Json Float) := by
  rw [written, write, points_writeText]
  refine ⟨⟨'"', _, rfl, by decide⟩, ?_⟩
  rintro rest - ⟨_, offset⟩ rfl
  rw [List.cons_append, List.append_assoc]
  obtain ⟨got, hgot, hvalue, hend⟩ := reads_textAfterQuote offset h rest ⟨_, offset + 1⟩ rfl
  simp only [value, List.singleton_append, hgot]
  exact ⟨_, rfl, congrArg Json.text hvalue, hend⟩

theorem Reader.Reads.list {budget : Nat} {ps rest : List CodePoint} {items : List (Json Float)}
    (h : Reads (listAfterOpen (value budget)) ps items rest) :
    Reads (value (budget + 1)) (.char '[' :: ps) (.list items) rest := by
  rintro ⟨_, offset⟩ rfl
  obtain ⟨got, hgot, hvalue, hend⟩ := h ⟨ps, offset + 1⟩ rfl
  simp only [value, hgot]
  exact ⟨_, rfl, congrArg Json.list hvalue, hend⟩

theorem Reader.Reads.object {budget : Nat} {ps rest : List CodePoint} {v : Json Float}
    (h : Reads (objectAfterOpen (value budget)) ps v rest) :
    Reads (value (budget + 1)) (.char '\x7b' :: ps) v rest := by
  rintro ⟨_, offset⟩ rfl
  obtain ⟨got, hgot, hvalue, hend⟩ := h ⟨ps, offset + 1⟩ rfl
  simp only [value, hgot]
  exact ⟨_, rfl, hvalue, hend⟩

theorem length_le_itemTexts (between : List CodePoint) {text : List CodePoint}
    {texts : List (List CodePoint)} (h : text ∈ texts) :
    text.length ≤ (itemTexts between texts).length := by
  induction texts with
  | nil => cases h
  | cons s rest ih =>
    cases rest with
    | nil => simp_all [itemTexts]
    | cons t rest =>
      rw [itemTexts, List.intercalate_cons_cons, List.length_append, List.length_append]
      rcases List.mem_cons.1 h with rfl | h
      · omega
      · have := ih h
        rw [itemTexts] at this
        omega

theorem spells_list {items : List (Json Float)} {indent : Indent} {level budget : Nat}
    (h : ∀ v ∈ items, (written indent (level + 1) v).length < budget →
      Spells (value budget) (written indent (level + 1) v) v)
    (hbudget : (written indent level (.list items)).length < budget + 1) :
    Spells (value (budget + 1)) (written indent level (.list items)) (.list items) := by
  cases items with
  | nil =>
    have hwritten : written indent level (.list []) = [.char '[', .char ']'] :=
      points_enclose_nil indent level "[" "]"
    rw [hwritten]
    refine ⟨⟨'[', _, rfl, by decide⟩, fun rest _ => Reads.list ?_⟩
    rintro ⟨_, offset⟩ rfl
    exact ⟨_, rfl, rfl, rfl⟩
  | cons v vs =>
    obtain ⟨before, between, behind, hbefore, hbetween, hbehind, hwritten⟩ :=
      written_list indent level v vs
    rw [hwritten] at hbudget ⊢
    have hitems : ∀ w ∈ v :: vs, Spells (value budget) (written indent (level + 1) w) w := by
      intro w hw
      have hlength := length_le_itemTexts between
        (List.mem_map_of_mem (f := written indent (level + 1)) hw)
      simp only [List.length_cons, List.length_append] at hbudget
      exact h w hw (by omega)
    refine ⟨⟨'[', _, rfl, by decide⟩, fun rest _ => ?_⟩
    rw [List.cons_append, List.append_assoc, List.append_assoc, List.append_assoc]
    exact (reads_listAfterOpen hbefore hbetween hbehind hitems rest).list

theorem spells_object {fields : List (Text × Json Float)} {indent : Indent} {level budget : Nat}
    (hnames : (fields.map Prod.fst).Nodup) (hapart : ∀ f ∈ fields, f.1.Apart)
    (h : ∀ f ∈ fields, (written indent (level + 1) f.2).length < budget →
      Spells (value budget) (written indent (level + 1) f.2) f.2)
    (hbudget : (written indent level (.object fields)).length < budget + 1) :
    Spells (value (budget + 1)) (written indent level (.object fields)) (.object fields) := by
  cases fields with
  | nil =>
    have hwritten : written indent level (.object []) = [.char '\x7b', .char '\x7d'] :=
      points_enclose_nil indent level "\x7b" "\x7d"
    rw [hwritten]
    refine ⟨⟨'\x7b', _, rfl, by decide⟩, fun rest _ => Reads.object ?_⟩
    rintro ⟨_, offset⟩ rfl
    exact ⟨_, rfl, rfl, rfl⟩
  | cons f fs =>
    obtain ⟨before, between, behind, hbefore, hbetween, hbehind, hwritten⟩ :=
      written_object indent level f fs
    rw [hwritten] at hbudget ⊢
    have hitems : ∀ g ∈ f :: fs,
        Spells (field (value budget)) (writtenField indent (level + 1) g) g := by
      intro g hg
      have hlength := length_le_itemTexts between
        (List.mem_map_of_mem (f := writtenField indent (level + 1)) hg)
      rw [writtenField_eq] at hlength ⊢
      simp only [List.length_cons, List.length_append] at hbudget hlength
      exact spells_field (h g hg (by omega)) (hapart g hg)
    refine ⟨⟨'\x7b', _, rfl, by decide⟩, fun rest _ => ?_⟩
    rw [List.cons_append, List.append_assoc, List.append_assoc, List.append_assoc]
    exact (reads_objectAfterOpen hbefore hbetween hbehind hnames hitems rest).object

/-- **The text of a value is read as the value.** -/
theorem spells_write {v : Json Float} (h : Faithful v) {indent : Indent} {budget level : Nat}
    (hbudget : (written indent level v).length < budget) :
    Spells (value budget) (written indent level v) v := by
  induction budget generalizing v level with
  | zero => cases hbudget
  | succ budget ih =>
    cases h with
    | null => exact literal_null.spells budget
    | bool b =>
      have hspells := (literal_bool b).spells budget
      cases b <;> exact hspells
    | int h => exact h.spells budget
    | real h => exact h.spells budget
    | text h => exact spells_text h indent level budget
    | list h => exact spells_list (fun v hv => ih (h v hv)) hbudget
    | object hnames hapart h =>
      exact spells_object hnames hapart (fun f hf => ih (h f hf)) hbudget

/-- The text of a document is read as the document, whichever blanks stand behind it. -/
theorem read_toText_append {v : Json Float} (h : Faithful v) (indent : Indent) {behind : String}
    (hb : Blank (points behind.toList)) :
    Json.read (.ofString (v.toText indent ++ behind)) = .ok v := by
  have hpoints : (Text.ofString (v.toText indent ++ behind)).points =
      written indent 0 v ++ points behind.toList := points_append _ _
  have hlength : (written indent 0 v).length <
      (Text.ofString (v.toText indent ++ behind)).length + 1 := by
    rw [Text.length, hpoints, List.length_append]
    omega
  have hspells : Spells (value ((Text.ofString (v.toText indent ++ behind)).length + 1))
      (written indent 0 v) v := spells_write h hlength
  have hskip : (skip ⟨(Text.ofString (v.toText indent ++ behind)).points, 0⟩).rest =
      written indent 0 v ++ points behind.toList :=
    (hspells.starts.append _).skip hpoints blank_nil
  have hstops : Stops (points behind.toList) := by
    have h := stops_blank hb stops_nil
    rwa [List.append_nil] at h
  obtain ⟨got, hgot, hvalue, hend⟩ := hspells.reads _ hstops _ hskip
  have hmark : (Text.ofString (v.toText indent ++ behind)).points.head? ≠
      some (.char '\ufeff') := by
    obtain ⟨c, ps, hps, -, hc⟩ := hspells.starts
    rw [hpoints, hps]
    rintro heq
    cases heq
    exact hc (by decide)
  have hdone : (skip got.next).rest = [] :=
    skip_blank (hend.trans (List.append_nil _).symm) hb (by simp)
  unfold Json.read
  rw [if_neg hmark, hgot]
  dsimp only
  rw [if_pos hdone, hvalue]

/-- **The text of a document is read as the document**, in whichever layout it is written. -/
theorem read_toText {v : Json Float} (h : Faithful v) (indent : Indent) :
    Json.read (.ofString (v.toText indent)) = .ok v := by
  have hread : Json.read (.ofString (v.toText indent ++ "")) = .ok v :=
    read_toText_append h indent blank_nil
  rwa [String.append_empty] at hread

end FormulaGraph.Json
