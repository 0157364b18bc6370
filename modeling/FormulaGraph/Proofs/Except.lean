/-!
# Steps that can fail

When a sequence of steps has come to its end, each of them has; when it has failed, it
has at the first of them that failed.
-/
namespace FormulaGraph

variable {ε β γ : Type}

theorem ok_of_bind {x : Except ε β} {f : β → Except ε γ} {y : γ} (h : x >>= f = .ok y) :
    ∃ a, x = .ok a ∧ f a = .ok y := by
  cases x with
  | ok a => exact ⟨a, rfl, h⟩
  | error e => cases h

theorem error_of_bind {x : Except ε β} {f : β → Except ε γ} {e : ε} (h : x >>= f = .error e) :
    x = .error e ∨ ∃ a, x = .ok a ∧ f a = .error e := by
  cases x with
  | ok a => exact .inr ⟨a, rfl, h⟩
  | error e' => exact .inl (congrArg _ (Except.error.inj h))

theorem ok_of_map {x : Except ε β} {f : β → γ} {y : γ} (h : x.map f = .ok y) :
    ∃ a, x = .ok a ∧ f a = y := by
  cases x with
  | ok a => exact ⟨a, rfl, Except.ok.inj h⟩
  | error e => cases h

theorem error_of_map {x : Except ε β} {f : β → γ} {e : ε} (h : x.map f = .error e) :
    x = .error e := by
  cases x with
  | ok a => cases h
  | error e' => exact congrArg _ (Except.error.inj h)

theorem exists_of_isSome_toOption {x : Except ε β} (h : x.toOption.isSome = true) :
    ∃ y, x = .ok y := by
  cases x with
  | ok y => exact ⟨y, rfl⟩
  | error e => cases h

/-- Steps that succeed one by one succeed together. -/
theorem exists_mapM {f : β → Except ε γ} {xs : List β} (h : ∀ x ∈ xs, ∃ y, f x = .ok y) :
    ∃ ys, xs.mapM f = .ok ys := by
  induction xs with
  | nil => exact ⟨[], rfl⟩
  | cons x xs ih =>
    obtain ⟨⟨y, hy⟩, hxs⟩ := List.forall_mem_cons.1 h
    obtain ⟨ys, hys⟩ := ih hxs
    refine ⟨y :: ys, ?_⟩
    rw [List.mapM_cons, hy, hys]
    rfl

theorem mapM_congr {f g : β → Except ε γ} {xs : List β} (h : ∀ x ∈ xs, f x = g x) :
    xs.mapM f = xs.mapM g := by
  induction xs with
  | nil => rfl
  | cons x xs ih =>
    obtain ⟨hx, hxs⟩ := List.forall_mem_cons.1 h
    rw [List.mapM_cons, List.mapM_cons, hx, ih hxs]

/-- Steps that fail together fail at the first of them that fails. -/
theorem foldlM_eq_error_iff {f : β → γ → Except ε β} {cs : List γ} {b : β} {e : ε} :
    cs.foldlM f b = .error e ↔ ∃ before c after b', cs = before ++ c :: after ∧
      before.foldlM f b = .ok b' ∧ f b' c = .error e := by
  constructor
  · intro h
    induction cs generalizing b with
    | nil => cases h
    | cons c cs ih =>
      rw [List.foldlM_cons] at h
      cases hc : f b c with
      | error e' =>
        rw [hc] at h
        cases h
        exact ⟨[], c, cs, b, rfl, rfl, hc⟩
      | ok next =>
        rw [hc] at h
        obtain ⟨before, d, after, b', rfl, hbefore, hd⟩ := ih h
        refine ⟨c :: before, d, after, b', rfl, ?_, hd⟩
        rw [List.foldlM_cons, hc]
        exact hbefore
  · rintro ⟨before, c, after, b', rfl, hbefore, hc⟩
    rw [List.foldlM_append, hbefore]
    show List.foldlM f b' (c :: after) = _
    rw [List.foldlM_cons, hc]
    rfl

theorem exists_error_of_foldlM {f : β → γ → Except ε β} {cs : List γ} {b : β} {e : ε}
    (h : cs.foldlM f b = .error e) : ∃ c ∈ cs, ∃ b', f b' c = .error e := by
  obtain ⟨before, c, after, b', rfl, -, hc⟩ := foldlM_eq_error_iff.1 h
  exact ⟨c, List.mem_append_right before List.mem_cons_self, b', hc⟩

/-- Where it depends on the item whether a step succeeds, all succeed if the items allow it. -/
theorem exists_foldlM_iff {f : β → γ → Except ε β} {P : γ → Prop}
    (hf : ∀ b c, (∃ b', f b c = .ok b') ↔ P c) {cs : List γ} {b : β} :
    (∃ b', cs.foldlM f b = .ok b') ↔ ∀ c ∈ cs, P c := by
  induction cs generalizing b with
  | nil => exact iff_of_true ⟨b, rfl⟩ nofun
  | cons c cs ih =>
    rw [List.foldlM_cons, List.forall_mem_cons, ← hf b c]
    constructor
    · rintro ⟨b', h⟩
      obtain ⟨next, hnext, h⟩ := ok_of_bind h
      exact ⟨⟨next, hnext⟩, ih.1 ⟨b', h⟩⟩
    · rintro ⟨⟨next, hnext⟩, h⟩
      rw [hnext]
      exact ih.2 h

/-- What every step preserves, all of them together do. -/
theorem foldlM_preserves {f : β → γ → Except ε β} {P : β → Prop}
    (hf : ∀ {b c b'}, P b → f b c = .ok b' → P b') {cs : List γ} {b b' : β} (hb : P b)
    (h : cs.foldlM f b = .ok b') : P b' := by
  induction cs generalizing b with
  | nil =>
    obtain rfl := Except.ok.inj h
    exact hb
  | cons c cs ih =>
    rw [List.foldlM_cons] at h
    obtain ⟨next, hnext, h⟩ := ok_of_bind h
    exact ih (hf hb hnext) h

/-- Where one step leads on, so does another one that succeeds as often and with the same. -/
theorem foldlM_of_ok {f g : β → γ → Except ε β} (hfg : ∀ {b c b'}, f b c = .ok b' → g b c = .ok b')
    {cs : List γ} {b b' : β} (h : cs.foldlM f b = .ok b') : cs.foldlM g b = .ok b' := by
  induction cs generalizing b with
  | nil => exact h
  | cons c cs ih =>
    rw [List.foldlM_cons] at h ⊢
    obtain ⟨next, hnext, h⟩ := ok_of_bind h
    rw [hfg hnext]
    exact ih h

end FormulaGraph
