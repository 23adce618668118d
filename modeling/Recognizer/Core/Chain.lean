import Mathlib.Data.List.Nodup
import Mathlib.Data.List.Perm.Basic
import Mathlib.Logic.Function.Basic

/-!
# Chains of linked cells

A memory of cells gives every address the address its link holds. A chain lists the
addresses met when the links are followed from one address until another one.
-/

namespace Recognizer

/-- Different addresses below a bound are fewer than the bound. -/
theorem length_lt_of_nodup {l : List Nat} {n : Nat} (hnodup : l.Nodup) (hzero : 0 ∉ l)
    (hbound : ∀ x ∈ l, x < n) (hn : 0 < n) : l.length < n := by
  have hsub : (0 :: l) ⊆ List.range n := by
    intro x hx
    rw [List.mem_range]
    rcases List.mem_cons.mp hx with rfl | hx
    · exact hn
    · exact hbound x hx
  have hle := (List.subperm_of_subset (List.nodup_cons.mpr ⟨hzero, hnodup⟩) hsub).length_le
  rw [List.length_cons, List.length_range] at hle
  omega

/-- The links lead from `a` over the addresses of the list, in order, to `b`. -/
def Chain {α : Type*} (next : α → α) : α → List α → α → Prop
  | a, [], b => a = b
  | a, x :: xs, b => a = x ∧ Chain next (next x) xs b

namespace Chain

variable {α : Type*} {next next' : α → α} {a b c x : α} {xs ys : List α}

@[simp] theorem nil_iff : Chain next a [] b ↔ a = b := Iff.rfl

@[simp] theorem cons_iff : Chain next a (x :: xs) b ↔ a = x ∧ Chain next (next x) xs b :=
  Iff.rfl

/-- A chain may be cut anywhere. -/
theorem append_iff :
    Chain next a (xs ++ ys) c ↔ ∃ b, Chain next a xs b ∧ Chain next b ys c := by
  induction xs generalizing a with
  | nil => simp
  | cons x xs ih =>
    simp only [List.cons_append, cons_iff, ih]
    constructor
    · rintro ⟨hax, b, hb, hc⟩
      exact ⟨b, ⟨hax, hb⟩, hc⟩
    · rintro ⟨b, ⟨hax, hb⟩, hc⟩
      exact ⟨hax, b, hb, hc⟩

/-- The last cell of a chain holds its end. -/
theorem concat_iff : Chain next a (xs ++ [x]) b ↔ Chain next a xs x ∧ next x = b := by
  rw [append_iff]
  constructor
  · rintro ⟨c, hc, rfl, hb⟩
    exact ⟨hc, hb⟩
  · rintro ⟨hc, hb⟩
    exact ⟨x, hc, rfl, hb⟩

/-- Only the cells on a chain matter to it. -/
theorem congr (h : Chain next a xs b) (hnext : ∀ x ∈ xs, next' x = next x) :
    Chain next' a xs b := by
  induction xs generalizing a with
  | nil => exact h
  | cons x xs ih =>
    obtain ⟨hax, hrest⟩ := h
    refine ⟨hax, ?_⟩
    rw [hnext x List.mem_cons_self]
    exact ih hrest fun y hy => hnext y (List.mem_cons_of_mem x hy)

/-- The start of a chain is its first cell, or its end. -/
theorem start_eq (h : Chain next a xs b) : a = xs.headD b := by
  cases xs with
  | nil => exact h
  | cons x xs => exact h.1

/-- A chain that starts at its sentinel is empty. -/
theorem eq_nil (h : Chain next a xs a) (ha : a ∉ xs) : xs = [] := by
  cases xs with
  | nil => rfl
  | cons x xs => exact absurd (List.mem_cons.mpr (.inl h.1)) ha

/-- A chain that starts elsewhere than at its sentinel has a first cell. -/
theorem exists_cons (h : Chain next a xs b) (hab : a ≠ b) : ∃ ys, xs = a :: ys := by
  cases xs with
  | nil => exact absurd h hab
  | cons x xs => exact ⟨xs, by rw [h.1]⟩

variable [DecidableEq α]

/-- A write next to a chain leaves it as it is. -/
theorem update_of_notMem (h : Chain next a xs b) (hx : x ∉ xs) :
    Chain (Function.update next x c) a xs b :=
  h.congr fun y hy => Function.update_of_ne (fun hyx : y = x => hx (hyx ▸ hy)) c next

/-- A write to the last cell of a chain moves its end. -/
theorem update_concat (h : Chain next a (xs ++ [x]) b) (hx : x ∉ xs) :
    Chain (Function.update next x c) a (xs ++ [x]) c := by
  obtain ⟨hxs, -⟩ := concat_iff.mp h
  exact concat_iff.mpr ⟨hxs.update_of_notMem hx, Function.update_self x c next⟩

/-- Linking the last cell of a chain to a second chain joins them. -/
theorem join (hx : Chain next a (xs ++ [x]) b) (hy : Chain next c ys b)
    (hnodup : (xs ++ [x] ++ ys).Nodup) :
    Chain (Function.update next x c) a (xs ++ [x] ++ ys) b := by
  have hsplit := List.nodup_append.mp hnodup
  have hxs : x ∉ xs := fun hmem =>
    (List.nodup_append.mp hsplit.1).2.2 x hmem x List.mem_cons_self rfl
  have hys : x ∉ ys := fun hmem => hsplit.2.2 x (by simp) x hmem rfl
  exact append_iff.mpr ⟨c, hx.update_concat hxs, hy.update_of_notMem hys⟩

end Chain

end Recognizer
