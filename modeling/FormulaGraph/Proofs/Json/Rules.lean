import FormulaGraph.Proofs.Json.Texts
/-!
# Lists and objects read back

A rule of the reader is known by what it makes of a text that is followed by something else: the
value it gives, and the rest it leaves (`Reads`). The rest goes on with a blank, a comma or a
bracket, so a number ends where its text ends (`Spells`).

* `reads_items`: where every item is read from its text, all items are, with commas and blanks
  between them and blanks before the closing bracket.
* `reads_listAfterOpen`, `spells_field`, `reads_objectAfterOpen`: so are lists, fields and objects.
-/
namespace FormulaGraph.Json

namespace Reader

/-- From `ps` on the rule reads the value, and `rest` follows. -/
def Reads {β : Type} (rule : Rule β) (ps : List CodePoint) (v : β) (rest : List CodePoint) : Prop :=
  ∀ c : Position, c.rest = ps → ∃ got, rule c = .ok got ∧ got.value = v ∧ got.next.rest = rest

theorem reads_textAfterQuote (start : Nat) {t : Text} (h : t.Apart) (rest : List CodePoint) :
    Reads (textAfterQuote start) (points (t.points.flatMap escapePoint) ++ .char '"' :: rest) t
      rest := by
  rintro ⟨_, offset⟩ rfl
  obtain ⟨⟨⟨ps, next⟩, hlt⟩, hr, hpts, hrest⟩ := bodyReads_points start h rest offset []
  rw [textAfterQuote, hr]
  exact ⟨_, rfl, congrArg Text.mk hpts, hrest⟩

/-! ## Blanks -/

def Blank (ps : List CodePoint) : Prop := ∀ p ∈ ps, p.holds isSpace = true

theorem blank_nil : Blank [] := by simp [Blank]

theorem blank_space : Blank [.char ' '] := by simp [Blank, CodePoint.holds, isSpace]

theorem skip_blank {c : Position} {bs ps : List CodePoint} (hc : c.rest = bs ++ ps)
    (hb : Blank bs) (hps : ∀ p ∈ ps.head?, p.holds isSpace = false) : (skip c).rest = ps := by
  have hskip : (skip c).rest = ps.dropWhile (·.holds isSpace) := by
    rw [skip, Cursor.skipWhile, hc, List.dropWhile_append_of_pos hb]
  rw [hskip]
  cases ps with
  | nil => rfl
  | cons p ps => exact List.dropWhile_cons_of_neg (by simp [hps p rfl])

theorem skip_of_not_space {c : Position} {ps : List CodePoint} (hc : c.rest = ps)
    (hps : ∀ p ∈ ps.head?, p.holds isSpace = false) : (skip c).rest = ps := by
  rw [← List.nil_append ps] at hc
  exact skip_blank hc blank_nil hps

/-- What follows cannot belong to a number. -/
def Stops (ps : List CodePoint) : Prop := ∀ p ∈ ps.head?, p.holds isNumberChar = false

theorem stops_nil : Stops [] := by simp [Stops]

/-- A word or a number may start with the character. -/
def startsLiteral (c : Char) : Bool := isNumberChar c || c.isAlpha

theorem startsLiteral_of_isSpace {c : Char} (h : isSpace c = true) : startsLiteral c = false := by
  simp only [isSpace, Bool.or_eq_true, beq_iff_eq] at h
  rcases h with ((rfl | rfl) | rfl) | rfl <;> decide

theorem stops_blank {bs ps : List CodePoint} (hb : Blank bs) (hps : Stops ps) :
    Stops (bs ++ ps) := by
  cases bs with
  | nil => exact hps
  | cons b bs =>
    intro p hp
    obtain rfl : b = p := by simpa using hp
    have hspace := hb b List.mem_cons_self
    cases b with
    | char c => exact (Bool.or_eq_false_iff.1 (startsLiteral_of_isSpace hspace)).1
    | half d => rfl

/-! ## Items -/

/-- A character that closes a list or an object. -/
def Closes (closing : Char) : Prop := closing = ']' ∨ closing = '\x7d'

/-- The character is no blank, closes nothing and is no byte order mark. -/
def StartsValue (c : Char) : Prop := isSpace c = false ∧ c ∉ [']', '\x7d', '\ufeff']

instance (c : Char) : Decidable (StartsValue c) := inferInstanceAs (Decidable (_ ∧ _))

/-- A value can start with the first character. -/
def Starts (text : List CodePoint) : Prop := ∃ c ps, text = .char c :: ps ∧ StartsValue c

theorem Starts.append {text : List CodePoint} (h : Starts text) (rest : List CodePoint) :
    Starts (text ++ rest) := by
  obtain ⟨c, ps, rfl, hc⟩ := h
  exact ⟨c, ps ++ rest, rfl, hc⟩

theorem Starts.skip {text : List CodePoint} (h : Starts text) {c : Position} {bs : List CodePoint}
    (hc : c.rest = bs ++ text) (hb : Blank bs) : (Reader.skip c).rest = text := by
  obtain ⟨p, ps, rfl, hspace, -⟩ := h
  exact skip_blank hc hb (by simp [CodePoint.holds, hspace])

theorem Starts.emptyUpTo? {text : List CodePoint} (h : Starts text) {closing : Char}
    (hclosing : Closes closing) {c : Position} (hc : c.rest = text) :
    Reader.emptyUpTo? closing c = none := by
  obtain ⟨p, ps, rfl, -, hp⟩ := h
  obtain ⟨_, offset⟩ := c
  obtain rfl := hc
  refine if_neg fun heq => hp ?_
  obtain rfl := CodePoint.char.inj heq
  rcases hclosing with rfl | rfl <;> decide

/-- The rule reads the value from the text, whatever follows that is not part of a number. -/
structure Spells {β : Type} (rule : Rule β) (text : List CodePoint) (v : β) : Prop where
  starts : Starts text
  reads : ∀ rest, Stops rest → Reads rule (text ++ rest) v rest

section

variable {closing : Char} {bs rest : List CodePoint} {c : Position}

theorem mark_close (hclosing : Closes closing) (hc : c.rest = bs ++ .char closing :: rest)
    (hb : Blank bs) : ∃ next, mark closing c = (.close, next) ∧ next.rest = rest := by
  have hspace : isSpace closing = false := by
    rcases hclosing with rfl | rfl <;> decide
  have hskip := skip_blank hc hb (by simp [CodePoint.holds, hspace])
  unfold mark
  rw [hskip]
  exact ⟨_, if_pos rfl, rfl⟩

theorem mark_comma (hclosing : Closes closing) (hc : c.rest = .char ',' :: rest) :
    ∃ next, mark closing c = (.comma, next) ∧ next.rest = rest := by
  have hcomma : CodePoint.char ',' ≠ .char closing := by
    rcases hclosing with rfl | rfl <;> decide
  have hskip := skip_of_not_space hc (by simp [CodePoint.holds, isSpace])
  unfold mark
  rw [hskip]
  exact ⟨_, (if_neg hcomma).trans (if_pos rfl), rfl⟩

end

/-- Texts of items with commas and blanks between them. -/
def itemTexts (between : List CodePoint) (texts : List (List CodePoint)) : List CodePoint :=
  List.intercalate (.char ',' :: between) texts

section

variable {β : Type} {closing : Char} {item : Rule β} {text : β → List CodePoint}
  {between behind : List CodePoint}

theorem stops_close (hclosing : Closes closing) (hb : Blank behind) (rest : List CodePoint) :
    Stops (behind ++ .char closing :: rest) := by
  refine stops_blank hb fun p hp => ?_
  obtain rfl : .char closing = p := by simpa using hp
  rcases hclosing with rfl | rfl <;> decide

theorem starts_itemTexts (between : List CodePoint) {v : β} (hv : Starts (text v)) (vs : List β) :
    Starts (itemTexts between ((v :: vs).map text)) := by
  cases vs with
  | nil => rwa [itemTexts, List.map_singleton, List.intercalate_singleton]
  | cons w ws =>
    rw [itemTexts, List.map_cons, List.map_cons, List.intercalate_cons_cons, List.append_assoc]
    exact hv.append _

/-- **The items of a list or an object are read** up to its end. -/
theorem reads_items (hclosing : Closes closing) (hbetween : Blank between) (hbehind : Blank behind)
    {v : β} {vs : List β} (h : ∀ w ∈ v :: vs, Spells item (text w) w) (acc : List β)
    (rest : List CodePoint) :
    Reads (items closing item acc)
      (itemTexts between ((v :: vs).map text) ++ (behind ++ .char closing :: rest))
      (acc.reverse ++ v :: vs) rest := by
  intro c hc
  induction vs generalizing v acc c with
  | nil =>
    have hv := h v List.mem_cons_self
    rw [itemTexts, List.map_singleton, List.intercalate_singleton] at hc
    obtain ⟨got, hgot, rfl, hnext⟩ := hv.reads _ (stops_close hclosing hbehind rest) c hc
    obtain ⟨next, hmark, hrest⟩ := mark_close hclosing hnext hbehind
    rw [items, hgot]
    dsimp only
    split <;> rename_i heq <;> cases hmark.symm.trans heq
    exact ⟨_, rfl, by simp, hrest⟩
  | cons w ws ih =>
    have hv := h v List.mem_cons_self
    have htail : ∀ u ∈ w :: ws, Spells item (text u) u := fun u hu =>
      h u (List.mem_cons_of_mem _ hu)
    have hstarts := starts_itemTexts between (htail w List.mem_cons_self).starts ws
    have hcomma : c.rest = text v ++ .char ',' ::
        (between ++ (itemTexts between ((w :: ws).map text) ++
          (behind ++ .char closing :: rest))) := by
      rw [hc, itemTexts, List.map_cons, List.map_cons, List.intercalate_cons_cons, itemTexts]
      simp
    obtain ⟨got, hgot, rfl, hnext⟩ := hv.reads _ (fun p hp => by cases hp; rfl) c hcomma
    obtain ⟨next, hmark, hrest⟩ := mark_comma hclosing hnext
    have hskip := (hstarts.append (behind ++ .char closing :: rest)).skip hrest hbetween
    obtain ⟨more, hmore, hvalue, hend⟩ := ih htail (got.value :: acc) (skip next) hskip
    rw [items, hgot]
    dsimp only
    split <;> rename_i heq <;> cases hmark.symm.trans heq
    rw [hmore]
    refine ⟨_, rfl, hvalue.trans ?_, hend⟩
    simp

end

/-- Behind an opening bracket: the list or object is not empty, and its items are read. -/
theorem reads_behind_bracket {β : Type} {closing : Char} {item : Rule β}
    {text : β → List CodePoint} {before between behind : List CodePoint}
    (hclosing : Closes closing) (hbefore : Blank before) (hbetween : Blank between)
    (hbehind : Blank behind) {v : β} {vs : List β} (h : ∀ w ∈ v :: vs, Spells item (text w) w)
    {rest : List CodePoint} {c : Position}
    (hc : c.rest = before ++
      (itemTexts between ((v :: vs).map text) ++ (behind ++ .char closing :: rest))) :
    emptyUpTo? closing (skip c) = none ∧
      ∃ got, items closing item [] (skip c) = .ok got ∧ got.value = v :: vs ∧
        got.next.rest = rest := by
  have hstarts := (starts_itemTexts between (h v List.mem_cons_self).starts vs).append
    (behind ++ .char closing :: rest)
  have hskip := hstarts.skip hc hbefore
  exact ⟨hstarts.emptyUpTo? hclosing hskip,
    reads_items hclosing hbetween hbehind h [] rest (skip c) hskip⟩

/-- The rest of a list behind its bracket: blanks, the items, blanks and the other bracket. -/
theorem reads_listAfterOpen {β : Type} {item : Rule β} {text : β → List CodePoint}
    {before between behind : List CodePoint} (hbefore : Blank before) (hbetween : Blank between)
    (hbehind : Blank behind) {v : β} {vs : List β} (h : ∀ w ∈ v :: vs, Spells item (text w) w)
    (rest : List CodePoint) :
    Reads (listAfterOpen item)
      (before ++ (itemTexts between ((v :: vs).map text) ++ (behind ++ .char ']' :: rest)))
      (v :: vs) rest := by
  intro c hc
  obtain ⟨hnonempty, got, hgot, hvalue, hrest⟩ :=
    reads_behind_bracket (.inl rfl) hbefore hbetween hbehind h hc
  rw [listAfterOpen, hnonempty]
  dsimp only
  rw [hgot]
  exact ⟨_, rfl, hvalue, hrest⟩

/-- A field: the name between quotes, a colon and the value. -/
theorem spells_field {β : Type} {value : Rule β} {text : List CodePoint} {v : β}
    (h : Spells value text v) {name : Text} (hname : name.Apart) :
    Spells (field value) (.char '"' :: (points (name.points.flatMap escapePoint) ++
      .char '"' :: .char ':' :: .char ' ' :: text)) (name, v) := by
  refine ⟨⟨'"', _, rfl, by decide⟩, fun rest hrest c hc => ?_⟩
  obtain ⟨_, offset⟩ := c
  obtain rfl := hc
  rw [List.cons_append, List.append_assoc]
  obtain ⟨got, hgot, hgotname, hnext⟩ := reads_textAfterQuote offset hname
    (.char ':' :: .char ' ' :: (text ++ rest)) ⟨_, offset + 1⟩ rfl
  have hcolon : (skip got.next).rest = .char ':' :: .char ' ' :: (text ++ rest) :=
    skip_of_not_space hnext (by simp [CodePoint.holds, isSpace])
  obtain ⟨inner, hinner, rfl, hend⟩ := h.reads rest hrest
    (skip ⟨.char ' ' :: (text ++ rest), (skip got.next).offset + 1⟩)
    ((h.starts.append rest).skip rfl blank_space)
  rw [field]
  simp only [List.cons_append]
  rw [hgot]
  dsimp only
  split
  · rename_i after heq
    cases hcolon.symm.trans heq
    rw [hinner]
    exact ⟨_, rfl, by rw [hgotname], hend⟩
  · rename_i hnot
    exact absurd hcolon (hnot _)

theorem addField_of_not_mem {α : Type} {name : Text} {v : Json α} {fs : List (Text × Json α)}
    (h : name ∉ fs.map Prod.fst) : addField name v fs = fs ++ [(name, v)] := by
  induction fs with
  | nil => rfl
  | cons f fs ih =>
    rw [List.map_cons, List.mem_cons, not_or] at h
    rw [addField, if_neg (Ne.symm h.1), ih h.2]
    rfl

theorem addFields_of_nodup {α : Type} {fs : List (Text × Json α)} (done : List (Text × Json α))
    (h : ((done ++ fs).map Prod.fst).Nodup) :
    fs.foldl (fun fs f => addField f.1 f.2 fs) done = done ++ fs := by
  induction fs generalizing done with
  | nil => simp
  | cons f fs ih =>
    have hf : f.1 ∉ done.map Prod.fst := by
      rw [List.map_append, List.map_cons] at h
      exact fun hmem => (List.nodup_append.1 h).2.2 _ hmem _ List.mem_cons_self rfl
    rw [List.foldl_cons, addField_of_not_mem hf, ih _ (by simpa using h)]
    simp

/-- The rest of an object behind its bracket, where no field stands twice. -/
theorem reads_objectAfterOpen {value : Rule (Json Float)}
    {text : Text × Json Float → List CodePoint} {before between behind : List CodePoint}
    (hbefore : Blank before) (hbetween : Blank between) (hbehind : Blank behind)
    {f : Text × Json Float} {fs : List (Text × Json Float)}
    (hnames : ((f :: fs).map Prod.fst).Nodup)
    (h : ∀ g ∈ f :: fs, Spells (field value) (text g) g) (rest : List CodePoint) :
    Reads (objectAfterOpen value)
      (before ++ (itemTexts between ((f :: fs).map text) ++ (behind ++ .char '\x7d' :: rest)))
      (.object (f :: fs)) rest := by
  intro c hc
  obtain ⟨hnonempty, got, hgot, hvalue, hrest⟩ :=
    reads_behind_bracket (.inr rfl) hbefore hbetween hbehind h hc
  rw [objectAfterOpen, hnonempty]
  dsimp only
  rw [hgot]
  dsimp only
  rw [hvalue]
  refine ⟨_, rfl, congrArg Json.object ?_, hrest⟩
  exact addFields_of_nodup [] hnames

end Reader

end FormulaGraph.Json
