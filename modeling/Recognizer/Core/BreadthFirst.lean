import Mathlib.Data.List.Nodup
import Mathlib.Logic.Relation

/-!
# Work lists that grow breadth-first

A work list starts with one entry. Each round looks at the next entry and appends
what it leads to, unless that is listed already. A walk that is cut off after some
rounds is complete exactly when the entries listed by then are all there is.
-/

namespace BreadthFirst

universe u

variable {α : Type u} [DecidableEq α]

/-- Append the entries of the second list that are new, in their order. -/
def addNew (l : List α) : List α → List α
  | [] => l
  | x :: xs => if x ∈ l then addNew l xs else addNew (l ++ [x]) xs

variable {l xs : List α} {a x : α}

@[simp] theorem addNew_nil : addNew l [] = l := rfl

theorem addNew_cons_of_mem (h : x ∈ l) : addNew l (x :: xs) = addNew l xs := by
  simp [addNew, h]

theorem addNew_cons_of_notMem (h : x ∉ l) : addNew l (x :: xs) = addNew (l ++ [x]) xs := by
  simp [addNew, h]

theorem mem_addNew : a ∈ addNew l xs ↔ a ∈ l ∨ a ∈ xs := by
  induction xs generalizing l with
  | nil => simp
  | cons x xs ih =>
    by_cases hx : x ∈ l
    · rw [addNew_cons_of_mem hx, ih, List.mem_cons]
      constructor
      · exact Or.imp_right Or.inr
      · rintro (h | rfl | h)
        · exact Or.inl h
        · exact Or.inl hx
        · exact Or.inr h
    · rw [addNew_cons_of_notMem hx, ih, List.mem_append, List.mem_singleton, List.mem_cons, or_assoc]

theorem prefix_addNew (l xs : List α) : l <+: addNew l xs := by
  induction xs generalizing l with
  | nil => exact List.prefix_rfl
  | cons x xs ih =>
    by_cases hx : x ∈ l
    · rw [addNew_cons_of_mem hx]
      exact ih l
    · rw [addNew_cons_of_notMem hx]
      exact (List.prefix_append l [x]).trans (ih _)

/-- The work list after some rounds: round `i` looks at its entry `i`. -/
def workList (next : α → List α) (start : α) : Nat → List α
  | 0 => [start]
  | k + 1 =>
    match (workList next start k)[k]? with
    | none => workList next start k
    | some a => addNew (workList next start k) (next a)

variable {next : α → List α} {start : α} {k : Nat}

theorem workList_succ_of_none (h : (workList next start k)[k]? = none) :
    workList next start (k + 1) = workList next start k := by
  rw [workList, h]

theorem workList_succ_of_some (h : (workList next start k)[k]? = some a) :
    workList next start (k + 1) = addNew (workList next start k) (next a) := by
  rw [workList, h]

/-- A work list that has run out stays what it is. -/
theorem workList_of_length_le (h : (workList next start k).length ≤ k) (j : Nat) :
    workList next start (k + j) = workList next start k := by
  induction j with
  | zero => rfl
  | succ j ih =>
    have hnone : (workList next start (k + j))[k + j]? = none := by
      rw [ih]
      exact List.getElem?_eq_none (by omega)
    rw [← Nat.add_assoc, workList_succ_of_none hnone, ih]

theorem start_mem_workList (k : Nat) : start ∈ workList next start k := by
  induction k with
  | zero => exact List.mem_singleton.mpr rfl
  | succ k ih =>
    cases h : (workList next start k)[k]? with
    | none => rwa [workList_succ_of_none h]
    | some a =>
      rw [workList_succ_of_some h]
      exact (prefix_addNew _ _).subset ih

/-- Later work lists go on from earlier ones. -/
theorem workList_subset {j : Nat} (h : k ≤ j) : workList next start k ⊆ workList next start j := by
  induction h with
  | refl => exact List.Subset.refl _
  | @step j _ ih =>
    refine List.Subset.trans ih ?_
    cases hget : (workList next start j)[j]? with
    | none => exact (workList_succ_of_none hget).symm ▸ List.Subset.refl _
    | some a =>
      rw [workList_succ_of_some hget]
      exact (prefix_addNew _ _).subset

theorem nodup_addNew (h : l.Nodup) (xs : List α) : (addNew l xs).Nodup := by
  induction xs generalizing l with
  | nil => exact h
  | cons x xs ih =>
    by_cases hx : x ∈ l
    · rw [addNew_cons_of_mem hx]
      exact ih h
    · rw [addNew_cons_of_notMem hx]
      exact ih (by simpa [List.nodup_append] using ⟨h, fun a ha heq => hx (heq ▸ ha)⟩)

/-- Nothing is listed twice. -/
theorem nodup_workList (next : α → List α) (start : α) (k : Nat) :
    (workList next start k).Nodup := by
  induction k with
  | zero => exact List.nodup_singleton start
  | succ k ih =>
    cases hget : (workList next start k)[k]? with
    | none => rwa [workList_succ_of_none hget]
    | some a =>
      rw [workList_succ_of_some hget]
      exact nodup_addNew ih _

/-- What the entries looked at lead to is listed. -/
theorem next_subset_workList {j : Nat} (hj : j < k) (ha : (workList next start k)[j]? = some a) :
    next a ⊆ workList next start k := by
  induction k with
  | zero => omega
  | succ k ih =>
    cases hget : (workList next start k)[k]? with
    | none =>
      rw [workList_succ_of_none hget] at ha ⊢
      refine ih ?_ ha
      have hlen := (List.getElem?_eq_some_iff.mp ha).1
      have hend := List.getElem?_eq_none_iff.mp hget
      omega
    | some b =>
      have hlen := (List.getElem?_eq_some_iff.mp hget).1
      obtain ⟨t, ht⟩ := prefix_addNew (workList next start k) (next b)
      rw [workList_succ_of_some hget] at ha ⊢
      rw [← ht, List.getElem?_append_left (by omega)] at ha
      by_cases hjk : j = k
      · rw [hjk, hget, Option.some.injEq] at ha
        exact ha ▸ fun x hx => mem_addNew.mpr (Or.inr hx)
      · exact List.Subset.trans (ih (by omega) ha) (prefix_addNew _ _).subset

/-- A work list that has run out lists what its entries lead to. -/
theorem next_mem_of_length_le (h : (workList next start k).length ≤ k)
    (ha : a ∈ workList next start k) (hx : x ∈ next a) : x ∈ workList next start k := by
  obtain ⟨j, hj, hget⟩ := List.mem_iff_getElem.mp ha
  exact next_subset_workList (Nat.lt_of_lt_of_le hj h) (List.getElem?_eq_some_iff.mpr ⟨hj, hget⟩) hx

/-- What holds of everything that listed entries lead to holds of the listed entries
but the start. -/
theorem forall_mem_workList {P : α → Prop} (h : ∀ a, a = start ∨ P a → ∀ x ∈ next a, P x)
    (hx : x ∈ workList next start k) : x = start ∨ P x := by
  induction k generalizing x with
  | zero => exact Or.inl (List.mem_singleton.mp hx)
  | succ k ih =>
    cases hget : (workList next start k)[k]? with
    | none =>
      rw [workList_succ_of_none hget] at hx
      exact ih hx
    | some a =>
      rw [workList_succ_of_some hget] at hx
      rcases mem_addNew.mp hx with hold | hnew
      · exact ih hold
      · exact Or.inr (h a (ih (List.mem_of_getElem? hget)) x hnew)

end BreadthFirst
