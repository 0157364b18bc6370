import FormulaGraph.Proofs.Evaluation.Denotation
import FormulaGraph.Proofs.Evaluation.Fresh
/-!
# How far a walk goes

Evaluation goes on through a formula although one of its children has failed, so a walk comes to
all that it can reach through formulas that are evaluated at all (`Passes`): those with an
expression and with children of different names.

On the way it may meet formulas that lie on cycles, and it does not enter a node twice on one path.
That keeps it from no node that succeeds on its own: a chain to such a node can be taken without
repetitions (`exists_last_exit`), and no node on the way lies below it, or it would itself be on a
cycle and fail.

* `mem_traceAlong_of_chain`: a walk notes what it reaches in this way and what succeeds on its own.
* `renews_of_chain`: so an evaluation makes all this current.
-/
namespace FormulaGraph.Registry

variable {α : Type} {nodes : OrderedMap Text (Node α)}

/-- `c` is an existing child of the formula `p`, which has an expression and no two existing
children of one name. -/
def Passes (nodes : OrderedMap Text (Node α)) (p c : Text) : Prop :=
  ∃ n source, nodes.get? p = some n ∧ n.source? = some source ∧ DistinctNames nodes n.children ∧
    c ∈ n.children ∧ nodes.contains c = true

theorem passes_iff {p c : Text} :
    Passes nodes p c ↔ ∃ n, nodes.get? p = some n ∧ c ∈ visited nodes n := by
  constructor
  · rintro ⟨n, source, hn, hsource, hdistinct, hc, hex⟩
    refine ⟨n, hn, mem_visited.2 ⟨⟨?_, sharedNames_eq_nil_iff.2 hdistinct⟩, hc, hex⟩⟩
    simp [hsource]
  · rintro ⟨n, hn, hmem⟩
    obtain ⟨⟨hsource, hshared⟩, hc, hex⟩ := mem_visited.1 hmem
    obtain ⟨source, hsource⟩ := Option.ne_none_iff_exists'.1 hsource
    exact ⟨n, source, hn, hsource, sharedNames_eq_nil_iff.1 hshared, hc, hex⟩

instance (nodes : OrderedMap Text (Node α)) (p c : Text) : Decidable (Passes nodes p c) :=
  decidable_of_iff ((nodes.get? p).any fun n => c ∈ visited nodes n) <| by
    rw [passes_iff, Option.any_eq_true]
    simp only [decide_eq_true_eq]

/-! ## Chains without repetitions -/

/-- A chain that goes on after `x` leaves it for the last time. -/
theorem exists_last_exit {κ : Type} {R : κ → κ → Prop} {path : List κ} {x a m : κ} (hm : x ≠ m)
    (h : Relation.ReflTransGen (fun p c => R p c ∧ c ∉ path) a m) :
    a ≠ x ∧ Relation.ReflTransGen (fun p c => R p c ∧ c ∉ x :: path) a m ∨
      ∃ c, R x c ∧ c ∉ x :: path ∧
        Relation.ReflTransGen (fun p c => R p c ∧ c ∉ x :: path) c m := by
  induction h using Relation.ReflTransGen.head_induction_on with
  | refl => exact .inl ⟨hm.symm, .refl⟩
  | @head a b hstep _ ih =>
    rcases ih with ⟨hb, hrest⟩ | hexit
    · have hb' : b ∉ x :: path := fun hmem => (List.mem_cons.1 hmem).elim hb hstep.2
      by_cases ha : a = x
      · subst ha
        exact .inr ⟨b, hstep.1, hb', hrest⟩
      · exact .inl ⟨ha, .head ⟨hstep.1, hb'⟩ hrest⟩
    · exact .inr hexit

variable [Scalar α]

/-- A node that succeeds on its own does so behind any nodes that lead to it. -/
theorem outcomeAlong_of_leads {path : List Text} {m : Text} {w : α}
    (hm : outcomeAlong nodes [] m = .ok w)
    (hpath : ∀ p ∈ path, Relation.TransGen (Link nodes) p m) :
    outcomeAlong nodes path m = .ok w := by
  obtain ⟨n, hn, -, -⟩ := of_outcomeAlong_eq_ok hm
  have hex : nodes.contains m = true := (nodes.contains_eq_true_iff m).2 ⟨n, hn⟩
  have halong := denotes_outcomeAlong path hex (acyclicBelow_of_ok hm) hpath
  exact halong.unique (denotes_of_outcomeAlong_eq_ok hm)

/-- A walk notes every node that succeeds on its own and to which a chain leads that keeps off the
path. -/
theorem mem_traceAlong_of_chain {path : List Text} {id m : Text} {w : α}
    (hm : outcomeAlong nodes [] m = .ok w) (hid : id ∉ path)
    (hpath : ∀ p ∈ path, Relation.TransGen (Link nodes) p id)
    (hchain : Relation.ReflTransGen (fun p c => Passes nodes p c ∧ c ∉ path) id m) :
    (m, w) ∈ traceAlong nodes path id := by
  induction path, id using walk_induction nodes with
  | step path id ih =>
    by_cases hend : id = m
    · subst hend
      exact mem_traceAlong_self (outcomeAlong_of_leads hm hpath)
    · -- the chain is followed from where it leaves `id` for the last time
      rcases exists_last_exit hend hchain with ⟨hne, -⟩ | ⟨c, hpasses, hc, hrest⟩
      · exact absurd rfl hne
      · obtain ⟨n, hn, hvisited⟩ := passes_iff.1 hpasses
        have hlink : Link nodes id c := link_of_mem_visited hn hvisited
        rw [traceAlong_of_get? hn hid]
        refine List.mem_append_right _ (List.mem_flatMap.2 ⟨c, List.mem_reverse.2 hvisited, ?_⟩)
        exact ih n hn hid c hc (transGen_cons hlink hpath) hrest

theorem renews_of_chain {id m : Text} (h : Relation.ReflTransGen (Passes nodes) id m) :
    Renews nodes id m := by
  intro w hw
  have hoff : Passes nodes ≤ fun p c => Passes nodes p c ∧ c ∉ ([] : List Text) :=
    fun p c hpasses => ⟨hpasses, List.not_mem_nil⟩
  exact mem_traceAlong_of_chain hw List.not_mem_nil (by simp)
    (Relation.ReflTransGen.mono hoff id m h)

end FormulaGraph.Registry
