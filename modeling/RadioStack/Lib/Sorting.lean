/-!
# Sorting by a decidable preorder

Merge sort takes a Boolean comparison; its facts are stated here for the relation
the comparison decides.
-/

namespace RadioStack.Sorting

universe u

variable {α : Type u} {r : α → α → Prop} [DecidableRel r]

theorem pairwise_mergeSort (hTrans : ∀ a b c, r a b → r b c → r a c)
    (hTotal : ∀ a b, r a b ∨ r b a) (l : List α) :
    (l.mergeSort fun a b => decide (r a b)).Pairwise r := by
  have hTrans' : ∀ a b c, decide (r a b) = true → decide (r b c) = true →
      decide (r a c) = true := by
    simp only [decide_eq_true_eq]
    exact hTrans
  have hTotal' : ∀ a b, (decide (r a b) || decide (r b a)) = true := by
    simp only [Bool.or_eq_true, decide_eq_true_eq]
    exact hTotal
  simpa only [decide_eq_true_eq] using List.pairwise_mergeSort hTrans' hTotal' l

theorem mem_mergeSort {a : α} {l : List α} :
    a ∈ l.mergeSort (fun a b => decide (r a b)) ↔ a ∈ l :=
  (List.mergeSort_perm l _).mem_iff

/-- The head of a sorted list comes before all of it. -/
theorem head_mergeSort (hTrans : ∀ a b c, r a b → r b c → r a c) (hTotal : ∀ a b, r a b ∨ r b a)
    {l : List α} {a : α} (h : (l.mergeSort fun a b => decide (r a b)).head? = some a) :
    a ∈ l ∧ ∀ b ∈ l, r a b := by
  obtain ⟨t, ht⟩ := List.head?_eq_some_iff.mp h
  have hSorted := pairwise_mergeSort hTrans hTotal l
  rw [ht] at hSorted
  constructor
  · rw [← mem_mergeSort (r := r), ht]
    exact List.mem_cons_self
  · intro b hb
    rw [← mem_mergeSort (r := r), ht] at hb
    rcases List.mem_cons.mp hb with rfl | hb
    · exact (hTotal b b).elim id id
    · exact (List.pairwise_cons.mp hSorted).1 b hb

end RadioStack.Sorting
