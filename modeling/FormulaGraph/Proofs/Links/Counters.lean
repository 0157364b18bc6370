import FormulaGraph.Proofs.Links.Order
import Mathlib.Logic.Function.Basic
/-!
# The order of a graph by counters

`takeReady` looks through the waiting nodes whenever a node is taken. That need not be done. It is
enough to keep for each node how many of its children are still to be taken (`pending`), to count
this down for the parents of a node that is taken, and to put a parent behind the ready nodes at the
moment when its counter is zero (`Counting`). A child that is listed twice is counted once, and a
parent is counted down once for it.

* `pending_eq_zero_iff`: the counter of a node is zero when all of its children are taken.
* `pending_append`: what a node that is taken is worth to the counters.
* `Counts.take`: one node that is taken leaves the counters as they have to be.
* `childrenFirst_eq_of_drains`: what the counters come to is the order of `childrenFirst`, and they
  come to an end (`exists_drains`).
-/
namespace FormulaGraph.Links

variable {κ : Type} [DecidableEq κ] {g : Children κ}

/-! ## Counters -/

/-- How many children of a node are not among the given nodes. -/
def pending (g : Children κ) (done : List κ) (n : κ) : Nat :=
  ((childrenOf g n).eraseDups.filter (· ∉ done)).length

/-- The keys that have a node as a child, in order. -/
def holders (g : Children κ) (n : κ) : List κ := g.keys.filter fun p => n ∈ childrenOf g p

theorem pending_eq_zero_iff {done : List κ} {n : κ} :
    pending g done n = 0 ↔ complete g done n = true := by
  simp [pending, complete, List.filter_eq_nil_iff, List.mem_eraseDups]

theorem pending_nil (n : κ) : pending g [] n = (childrenOf g n).eraseDups.length := by
  simp [pending]

/-- One more node that is taken counts for those that have it as a child. -/
theorem pending_append {done : List κ} {n : κ} (hn : n ∉ done) (p : κ) :
    pending g done p = pending g (done ++ [n]) p + if n ∈ childrenOf g p then 1 else 0 := by
  have hnodup : ((childrenOf g p).eraseDups.filter (· ∉ done)).Nodup :=
    (Registry.nodup_eraseDups _).filter _
  have herase : (childrenOf g p).eraseDups.filter (· ∉ done ++ [n]) =
      ((childrenOf g p).eraseDups.filter (· ∉ done)).erase n := by
    rw [hnodup.erase_eq_filter, List.filter_filter]
    refine List.filter_congr fun c _ => ?_
    rw [Bool.eq_iff_iff]
    simp [and_comm]
  have hmem : n ∈ (childrenOf g p).eraseDups.filter (· ∉ done) ↔ n ∈ childrenOf g p := by
    simp [List.mem_eraseDups, hn]
  rw [pending, pending, herase, List.length_erase]
  simp only [hmem]
  split
  · rename_i hchild
    have := List.length_pos_of_mem (hmem.2 hchild)
    omega
  · rfl

/-! ## Counting down -/

/-- The nodes that are taken, the ready ones, and a counter for each node. -/
structure Counting (κ : Type) where
  order : List κ
  queue : List κ
  pending : κ → Int

namespace Counting

/-- At the beginning every child of a node is counted, and the nodes without one are ready. -/
def start (g : Children κ) : Counting κ where
  order := []
  queue := (vertices g).filter fun n => (childrenOf g n).eraseDups.length = 0
  pending n := (childrenOf g n).eraseDups.length

/-- Counts a node down; at zero it is ready. -/
def countDown (s : Counting κ) (p : κ) : Counting κ where
  order := s.order
  queue := if s.pending p - 1 = 0 then s.queue ++ [p] else s.queue
  pending := Function.update s.pending p (s.pending p - 1)

/-- Takes a ready node, the others being `rest`. -/
def take (g : Children κ) (s : Counting κ) (n : κ) (rest : List κ) : Counting κ :=
  (holders g n).foldl countDown ⟨s.order ++ [n], rest, s.pending⟩

/-- Ready nodes are taken until there is none. -/
inductive Drains (g : Children κ) : Counting κ → Counting κ → Prop where
  | stop {s : Counting κ} (hqueue : s.queue = []) : Drains g s s
  | take {s t : Counting κ} {n : κ} {rest : List κ} (hqueue : s.queue = n :: rest)
    (hrest : Drains g (s.take g n rest) t) : Drains g s t

/-- What is taken is the order if it is all there is. -/
def result (g : Children κ) (s : Counting κ) : Except (CycleError κ) (List κ) :=
  if s.order.length = (vertices g).length then .ok s.order
  else .error ⟨g.keys.filter (· ∉ s.order)⟩

theorem Drains.unique {s t t' : Counting κ} (h : Drains g s t) (h' : Drains g s t') : t = t' := by
  induction h with
  | stop hqueue =>
    cases h' with
    | stop _ => rfl
    | take hqueue' _ => cases hqueue.symm.trans hqueue'
  | take hqueue _ ih =>
    cases h' with
    | stop hqueue' => cases hqueue'.symm.trans hqueue
    | take hqueue' hrest =>
      cases hqueue.symm.trans hqueue'
      exact ih hrest

/-- Different nodes are counted down on their own. -/
theorem foldl_countDown {ps : List κ} (hps : ps.Nodup) (s : Counting κ) :
    ps.foldl countDown s =
      ⟨s.order, s.queue ++ ps.filter fun p => s.pending p - 1 = 0,
        fun p => if p ∈ ps then s.pending p - 1 else s.pending p⟩ := by
  induction ps generalizing s with
  | nil => simp
  | cons p ps ih =>
    obtain ⟨hp, hps⟩ := List.nodup_cons.1 hps
    have hfilter : ps.filter (fun q => (s.countDown p).pending q - 1 = 0) =
        ps.filter fun q => s.pending q - 1 = 0 := by
      refine List.filter_congr fun q hq => ?_
      have hne : q ≠ p := fun h => hp (h ▸ hq)
      simp [countDown, hne]
    rw [List.foldl_cons, ih hps, hfilter, mk.injEq]
    refine ⟨rfl, ?_, funext fun q => ?_⟩
    · by_cases hzero : s.pending p - 1 = 0 <;> simp [countDown, hzero]
    · by_cases hq : q = p
      · subst hq
        simp [countDown, hp]
      · simp [countDown, hq]

end Counting

/-! ## Counters and what they count -/

theorem nodup_holders (g : Children κ) (n : κ) : (holders g n).Nodup := g.nodup.filter _

/-- What the counters say of the nodes that are taken, and of those that are ready. -/
structure Counts (g : Children κ) (done ready : List κ) (s : Counting κ) : Prop where
  order : s.order = done
  queue : s.queue = ready
  pending : ∀ n, s.pending n = pending g done n

/-- The nodes that wait are the keys with a child that is not taken. -/
def awaiting (g : Children κ) (done : List κ) : List κ := blocked g done g.keys

theorem complete_nil (n : κ) : complete g [] n = (childrenOf g n).isEmpty := by
  rw [complete]
  cases childrenOf g n <;> simp

theorem complete_of_append_eq_false {done : List κ} {n p : κ}
    (h : complete g (done ++ [n]) p = false) : complete g done p = false := by
  rw [Bool.eq_false_iff] at h ⊢
  exact mt (complete_append · [n]) h

theorem blocked_awaiting (done : List κ) (n : κ) :
    blocked g (done ++ [n]) (awaiting g done) = awaiting g (done ++ [n]) := by
  rw [awaiting, blocked, blocked, List.filter_filter, awaiting, blocked]
  refine List.filter_congr fun p _ => ?_
  cases hp : complete g (done ++ [n]) p with
  | true => rfl
  | false => simp [complete_of_append_eq_false hp]

/-- The parents whose counter comes to zero are the waiting nodes that become complete. -/
theorem filter_holders {done : List κ} {n : κ} (hn : n ∉ done) :
    (holders g n).filter (fun p => (pending g done p : Int) - 1 = 0) =
      freed g (done ++ [n]) (awaiting g done) := by
  rw [holders, List.filter_filter, freed, awaiting, blocked, List.filter_filter]
  refine List.filter_congr fun p _ => ?_
  have hcount := pending_append (g := g) hn p
  rw [Bool.eq_iff_iff]
  simp only [Bool.and_eq_true, decide_eq_true_eq, Bool.not_eq_true', ← Bool.not_eq_true,
    ← pending_eq_zero_iff]
  by_cases hchild : n ∈ childrenOf g p
  · rw [if_pos hchild] at hcount
    simp only [hchild, and_true]
    omega
  · rw [if_neg hchild] at hcount
    simp only [hchild, and_false, false_iff]
    omega

/-- Taking one node leaves the counters of all others as they have to be. -/
theorem Counts.take {done rest : List κ} {n : κ} {s : Counting κ}
    (h : Counts g done (n :: rest) s) (hn : n ∉ done) :
    Counts g (done ++ [n]) (rest ++ freed g (done ++ [n]) (awaiting g done)) (s.take g n rest) := by
  rw [Counting.take, Counting.foldl_countDown (nodup_holders g n)]
  refine ⟨by rw [h.order], ?_, fun p => ?_⟩
  · simp only [h.pending]
    rw [filter_holders hn]
  · have hcount := pending_append (g := g) hn p
    simp only [h.pending]
    split
    · rename_i hp
      rw [if_pos (by simpa using (List.mem_filter.1 hp).2)] at hcount
      omega
    · rename_i hp
      rw [if_neg fun hchild => hp ?_] at hcount
      · omega
      · exact List.mem_filter.2 ⟨mem_keys_of_child hchild, by simpa using hchild⟩

theorem counts_start (g : Children κ) :
    Counts g [] ((vertices g).filter fun n => (childrenOf g n).isEmpty) (.start g) := by
  refine ⟨rfl, List.filter_congr fun n _ => ?_, fun n => ?_⟩
  · rw [Bool.eq_iff_iff, decide_eq_true_eq, ← pending_nil (g := g), pending_eq_zero_iff,
      complete_nil]
  · rw [pending_nil]
    rfl

/-! ## Whole runs -/

/-- The counters lead to the nodes that `takeReady` takes. -/
theorem Counts.drains {done ready : List κ} {s : Counting κ} (h : Counts g done ready s)
    (hsorted : Sorting g done ready (awaiting g done)) :
    ∃ t, Counting.Drains g s t ∧ t.order = (takeReady g done ready (awaiting g done)).1 ∧
      (takeReady g done ready (awaiting g done)).2 = awaiting g t.order := by
  generalize hwaiting : awaiting g done = waiting at hsorted ⊢
  fun_induction Links.takeReady g done ready waiting generalizing s with
  | case1 done waiting =>
    exact ⟨s, .stop h.queue, h.order, by rw [h.order, hwaiting]⟩
  | case2 done waiting n rest done' =>
    rename_i ih
    subst hwaiting
    have hn : n ∉ done := fun hdone =>
      (List.nodup_append.1 hsorted.nodup).2.2 n hdone n List.mem_cons_self rfl
    have hnext := h.take hn
    obtain ⟨t, ht, horder, hwaits⟩ := ih hnext (blocked_awaiting done n).symm hsorted.take
    exact ⟨t, .take h.queue ht, horder, hwaits⟩

/-- When nothing is ready any more, the nodes that wait are the keys that are not taken. -/
theorem Sorting.awaiting_eq {done : List κ} (h : Sorting g done [] (awaiting g done)) :
    awaiting g done = g.keys.filter (· ∉ done) := by
  refine List.filter_congr fun n hn => ?_
  rw [Bool.eq_iff_iff, decide_eq_true_eq, Bool.not_eq_true']
  constructor
  · intro hblocked hdone
    have hwaits : n ∈ awaiting g done := List.mem_filter.2 ⟨hn, by simp [hblocked]⟩
    exact (List.nodup_append.1 h.nodup).2.2 n hdone n hwaits rfl
  · intro hdone
    have hvertex := h.perm.mem_iff.2 (mem_vertices_iff.2 (.inl hn))
    exact h.blocked n ((List.mem_append.1 hvertex).resolve_left hdone)

theorem Sorting.result_eq {t : Counting κ} (h : Sorting g t.order [] (awaiting g t.order)) :
    t.result g = match awaiting g t.order with
      | [] => .ok t.order
      | waiting => .error ⟨waiting⟩ := by
  have hlength := h.perm.length_eq
  rw [List.length_append, List.nil_append] at hlength
  rw [Counting.result, ← h.awaiting_eq]
  cases hwaiting : awaiting g t.order with
  | nil =>
    rw [hwaiting, List.length_nil, Nat.add_zero] at hlength
    exact if_pos hlength
  | cons n rest =>
    rw [hwaiting, List.length_cons] at hlength
    exact if_neg (by omega)

/-- The run by counters comes to an end, and what it gives then is the order. -/
theorem exists_drains (g : Children κ) :
    ∃ t, Counting.Drains g (.start g) t ∧ childrenFirst g = t.result g := by
  have hstart := sorting_start g
  have hwaiting : (g.keys.filter fun n => !(childrenOf g n).isEmpty) = awaiting g [] := by
    refine List.filter_congr fun n _ => ?_
    rw [complete_nil]
  rw [hwaiting] at hstart
  obtain ⟨t, ht, horder, hwaits⟩ := (counts_start g).drains hstart
  have hend := hstart.takeReady
  rw [← horder, hwaits] at hend
  refine ⟨t, ht, ?_⟩
  rw [hend.result_eq, ← hwaits, horder, childrenFirst, hwaiting]
  rcases takeReady g [] _ (awaiting g []) with ⟨order, _ | ⟨n, rest⟩⟩
  · rfl
  · rfl

/-- **Counters give the order.** -/
theorem childrenFirst_eq_of_drains {t : Counting κ} (h : Counting.Drains g (.start g) t) :
    childrenFirst g = t.result g := by
  obtain ⟨t', ht', hresult⟩ := exists_drains g
  rw [h.unique ht', hresult]

end FormulaGraph.Links
