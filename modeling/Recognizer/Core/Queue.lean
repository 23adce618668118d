import Recognizer.Core.Chain

/-!
# Queues of linked cells

A queue is known by its first and its last cell; the links lead from the first cell to the
last one, whose link is null. A queue without cells has null for both. A cell is taken from the
front, put behind the last cell, or a whole queue is hung behind another one.
-/

namespace Recognizer

/-- The cells of a queue, in order, with its first and its last cell. -/
structure Queue {α : Type*} (null : α) (next : α → α) (head tail : α) (xs : List α) : Prop where
  chain : Chain next head xs null
  tail_eq : tail = xs.getLastD null
  null_notMem : null ∉ xs

namespace Queue

variable {α : Type*} {null head tail head' tail' x : α} {next next' : α → α} {xs ys : List α}

/-- The queue without cells. -/
theorem nil : Queue null next null null [] := ⟨rfl, rfl, List.not_mem_nil⟩

/-- A queue is empty exactly when its first cell is null. -/
theorem head_eq_null_iff (h : Queue null next head tail xs) : head = null ↔ xs = [] := by
  constructor
  · intro hnull
    have hchain := h.chain
    rw [hnull] at hchain
    exact hchain.eq_nil h.null_notMem
  · rintro rfl
    exact h.chain

theorem head_eq (h : Queue null next head tail (x :: xs)) : head = x := h.chain.1

/-- A queue with cells has its last one for its tail. -/
theorem exists_concat (h : Queue null next head tail xs) (hne : xs ≠ []) :
    ∃ ys, xs = ys ++ [tail] := by
  refine ⟨xs.dropLast, ?_⟩
  have hlast : tail = xs.getLast hne := by
    rw [h.tail_eq, List.getLastD_eq_getLast?, List.getLast?_eq_some_getLast hne]
    rfl
  rw [hlast, List.dropLast_append_getLast hne]

theorem tail_mem (h : Queue null next head tail xs) (hne : xs ≠ []) : tail ∈ xs := by
  obtain ⟨ys, hys⟩ := h.exists_concat hne
  rw [hys]
  simp

/-- Only the cells of a queue matter to it. -/
theorem congr (h : Queue null next head tail xs) (hnext : ∀ x ∈ xs, next' x = next x) :
    Queue null next' head tail xs :=
  ⟨h.chain.congr hnext, h.tail_eq, h.null_notMem⟩

variable [DecidableEq α]

/-- A write next to a queue leaves it as it is. -/
theorem update_of_notMem {c : α} (h : Queue null next head tail xs) (hx : x ∉ xs) :
    Queue null (Function.update next x c) head tail xs :=
  ⟨h.chain.update_of_notMem hx, h.tail_eq, h.null_notMem⟩

/-- What is left when the first cell is taken and its link cleared. -/
theorem shift (h : Queue null next head tail (x :: xs)) (hnodup : (x :: xs).Nodup) :
    Queue null (Function.update next head null) (if head = tail then null else next head)
      (if head = tail then null else tail) xs := by
  have hx : head ∉ xs := h.head_eq ▸ (List.nodup_cons.mp hnodup).1
  have hnull : null ∉ xs := fun hmem => h.null_notMem (List.mem_cons_of_mem x hmem)
  cases xs with
  | nil =>
    have htail : head = tail := by
      rw [h.head_eq, h.tail_eq]
      rfl
    rw [if_pos htail, if_pos htail]
    exact nil
  | cons y ys =>
    have htail : tail = (y :: ys).getLastD null := by
      rw [h.tail_eq, List.getLastD_cons, List.getLastD_cons, List.getLastD_cons]
    have hne : head ≠ tail := by
      intro heq
      apply hx
      rw [heq, htail, List.getLastD_cons]
      exact List.getLastD_mem_cons
    rw [if_neg hne, if_neg hne]
    have hrest : Chain next (next head) (y :: ys) null := by
      rw [h.head_eq]
      exact h.chain.2
    exact ⟨hrest.update_of_notMem hx, htail, hnull⟩

/-- A queue of the one cell put into an empty queue. -/
theorem singleton (hx : x ≠ null) : Queue null (Function.update next x null) x x [x] :=
  ⟨⟨rfl, Chain.nil_iff.mpr (Function.update_self x null next)⟩, rfl, by simpa using hx.symm⟩

/-- A queue with cells, hung behind another one by the link of its last cell. -/
theorem splice (hx : Queue null next head tail xs) (hy : Queue null next head' tail' ys)
    (hxs : xs ≠ []) (hys : ys ≠ []) (hnodup : (xs ++ ys).Nodup) :
    Queue null (Function.update next tail head') head tail' (xs ++ ys) := by
  refine ⟨?_, ?_, ?_⟩
  · obtain ⟨zs, rfl⟩ := hx.exists_concat hxs
    exact Chain.join hx.chain hy.chain hnodup
  · rw [hy.tail_eq, List.getLastD_eq_getLast?, List.getLastD_eq_getLast?,
      List.getLast?_append_of_ne_nil _ hys]
  · rw [List.mem_append]
    rintro (hmem | hmem)
    · exact hx.null_notMem hmem
    · exact hy.null_notMem hmem

/-- A cell put behind the last cell of a queue, with its own link cleared. -/
theorem append (h : Queue null next head tail xs) (hxs : xs ≠ []) (hx : x ≠ null)
    (hnotMem : x ∉ xs) (hnodup : xs.Nodup) :
    Queue null (Function.update (Function.update next tail x) x null) head x (xs ++ [x]) := by
  have hne : tail ≠ x := fun heq => hnotMem (heq ▸ h.tail_mem hxs)
  rw [Function.update_comm hne]
  refine (h.update_of_notMem hnotMem).splice (singleton hx) hxs (List.cons_ne_nil x []) ?_
  exact List.nodup_append.mpr ⟨hnodup, List.nodup_singleton x, by
    intro a ha b hb heq
    rw [List.mem_singleton] at hb
    exact hnotMem (hb ▸ heq ▸ ha)⟩

end Queue

end Recognizer
