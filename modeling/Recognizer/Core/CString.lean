import Mathlib.Logic.Function.Basic
import Mathlib.Data.List.Basic

/-!
# Strings in a memory of cells

A memory gives every place a character. A list is stored at a place when the cells from there
on hold it; the string that starts there is read up to the first terminator.
-/

namespace Recognizer

namespace CString

variable {α : Type*}

/-- The memory behind the writes of a list to the cells from a place on. -/
def writeAll (mem : Int → α) (i : Int) : List α → Int → α
  | [] => mem
  | c :: cs => writeAll (Function.update mem i c) (i + 1) cs

/-- The cells from a place on hold a list. -/
def Stored (mem : Int → α) (i : Int) : List α → Prop
  | [] => True
  | c :: cs => mem i = c ∧ Stored mem (i + 1) cs

variable {mem mem' : Int → α} {i j : Int} {c : α} {xs ys : List α}

theorem writeAll_of_outside (hj : j < i ∨ i + xs.length ≤ j) : writeAll mem i xs j = mem j := by
  induction xs generalizing mem i with
  | nil => rfl
  | cons x xs ih =>
    rw [List.length_cons] at hj
    rw [writeAll, ih (by omega), Function.update_of_ne (by omega)]

/-- What was written is stored. -/
theorem stored_writeAll : Stored (writeAll mem i xs) i xs := by
  induction xs generalizing mem i with
  | nil => trivial
  | cons x xs ih =>
    refine ⟨?_, ih⟩
    rw [writeAll, writeAll_of_outside (by omega), Function.update_self]

/-- Only the cells of a stored list matter to it. -/
theorem Stored.congr (h : Stored mem i xs)
    (hmem : ∀ j, i ≤ j → j < i + xs.length → mem' j = mem j) : Stored mem' i xs := by
  induction xs generalizing i with
  | nil => trivial
  | cons x xs ih =>
    rw [List.length_cons] at hmem
    refine ⟨by rw [hmem i (by omega) (by omega), h.1], ih h.2 fun j hlow hhigh => ?_⟩
    exact hmem j (by omega) (by omega)

theorem stored_append :
    Stored mem i (xs ++ ys) ↔ Stored mem i xs ∧ Stored mem (i + xs.length) ys := by
  induction xs generalizing i with
  | nil => simp [Stored]
  | cons x xs ih =>
    have hplace : i + 1 + (xs.length : Int) = i + (x :: xs).length := by
      rw [List.length_cons]
      omega
    rw [List.cons_append, Stored, Stored, ih, hplace, and_assoc]

/-- A list written behind a stored one. -/
theorem Stored.writeAll (h : Stored mem i xs) :
    Stored (writeAll mem (i + xs.length) ys) i (xs ++ ys) := by
  refine stored_append.mpr ⟨h.congr fun j hlow hhigh => ?_, stored_writeAll⟩
  exact writeAll_of_outside (.inl hhigh)

variable [Zero α] [DecidableEq α]

/-- The string at a place, of at most as many characters as the number says. -/
def read (mem : Int → α) : Nat → Int → List α
  | 0, _ => []
  | n + 1, i => if mem i = 0 then [] else mem i :: read mem n (i + 1)

/-- A stored list with a terminator behind it is a string. -/
theorem Stored.read (h : Stored mem i xs) (hend : mem (i + xs.length) = 0) (hxs : 0 ∉ xs)
    {n : Nat} (hn : xs.length < n) : read mem n i = xs := by
  induction xs generalizing i n with
  | nil =>
    obtain ⟨k, rfl⟩ : ∃ k, n = k + 1 := ⟨n - 1, by rw [List.length_nil] at hn; omega⟩
    have hzero : mem i = 0 := by simpa using hend
    rw [CString.read, if_pos hzero]
  | cons x xs ih =>
    obtain ⟨k, rfl⟩ : ∃ k, n = k + 1 := ⟨n - 1, by omega⟩
    rw [List.length_cons] at hn hend
    have hx : mem i ≠ 0 := by
      rw [h.1]
      exact fun heq => hxs (heq ▸ List.mem_cons_self)
    have hplace : mem (i + 1 + xs.length) = 0 := by
      rw [show i + 1 + (xs.length : Int) = i + ((xs.length + 1 : Nat) : Int) by omega]
      exact hend
    have hrest : CString.read mem k (i + 1) = xs :=
      ih h.2 hplace (fun hin => hxs (List.mem_cons_of_mem x hin)) (by omega)
    rw [CString.read, if_neg hx, h.1, hrest]

end CString

end Recognizer
