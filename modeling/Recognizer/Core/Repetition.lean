import Mathlib.Algebra.BigOperators.Group.List.Basic
import Mathlib.Algebra.GroupWithZero.Nat
import Mathlib.Data.Nat.Find

/-!
# Numbers of repetitions

Repeating between `m₁` and `n₁` times, and that between `m₂` and `n₂` times, gives the sums of
as many numbers. They fill the range between the products of the bounds exactly if the ranges
for neighbouring numbers of summands leave no gap.
-/

namespace Recognizer

/-- `k` is a sum of `j` numbers with a property. -/
def Sums (P : Nat → Prop) (j k : Nat) : Prop :=
  ∃ l : List Nat, l.length = j ∧ (∀ x ∈ l, P x) ∧ l.sum = k

/-- `k` is a sum of `j` numbers from `m` to `n`. -/
def SumOf (m n j k : Nat) : Prop := Sums (fun x => m ≤ x ∧ x ≤ n) j k

/-- `k` is a sum of between `m₂` and `n₂` numbers from `m₁` to `n₁`. -/
def Repeated (m₁ n₁ m₂ n₂ k : Nat) : Prop := ∃ j, m₂ ≤ j ∧ j ≤ n₂ ∧ SumOf m₁ n₁ j k

/-- There is no gap between the sums of two neighbouring numbers of summands. -/
def Gapless (m₁ n₁ m₂ n₂ : Nat) : Prop := m₂ = n₂ ∨ m₁ ≤ m₂ * (n₁ - m₁) + 1

instance (m₁ n₁ m₂ n₂ : Nat) : Decidable (Gapless m₁ n₁ m₂ n₂) := instDecidableOr

variable {m n j k m₁ n₁ m₂ n₂ : Nat}

/-- The sums of `j` numbers are a range. -/
theorem sumOf_iff (hmn : m ≤ n) : SumOf m n j k ↔ j * m ≤ k ∧ k ≤ j * n := by
  constructor
  · rintro ⟨l, rfl, hl, rfl⟩
    induction l with
    | nil => simp
    | cons x l ih =>
      obtain ⟨hlow, hhigh⟩ := ih fun y hy => hl y (List.mem_cons_of_mem x hy)
      obtain ⟨hx, hx'⟩ := hl x List.mem_cons_self
      rw [List.length_cons, List.sum_cons, Nat.succ_mul, Nat.succ_mul]
      omega
  · rintro ⟨hlow, hhigh⟩
    induction j generalizing k with
    | zero =>
      obtain rfl : k = 0 := by omega
      exact ⟨[], rfl, by simp, rfl⟩
    | succ j ih =>
      rw [Nat.succ_mul] at hlow hhigh
      have hle : j * m ≤ j * n := Nat.mul_le_mul_left j hmn
      -- the last summand takes what the others cannot
      obtain ⟨x, hx, hx', hxk, hrest, hrest'⟩ : ∃ x, m ≤ x ∧ x ≤ n ∧ x ≤ k ∧ j * m ≤ k - x ∧
          k - x ≤ j * n := by
        by_cases hsmall : k ≤ j * n + m
        · exact ⟨m, le_rfl, hmn, by omega, by omega, by omega⟩
        · exact ⟨k - j * n, by omega, by omega, by omega, by omega, by omega⟩
      obtain ⟨l, hlength, hl, hsum⟩ := ih hrest hrest'
      refine ⟨x :: l, by rw [List.length_cons, hlength], fun y hy => ?_, ?_⟩
      · rcases List.mem_cons.mp hy with rfl | hy
        · exact ⟨hx, hx'⟩
        · exact hl y hy
      · rw [List.sum_cons, hsum]
        omega

/-- The sums of `j` numbers without an upper bound. -/
theorem sums_least_iff : Sums (fun x => m ≤ x) j k ↔ j * m ≤ k ∧ (j = 0 → k = 0) := by
  constructor
  · rintro ⟨l, rfl, hl, rfl⟩
    refine ⟨?_, fun hlength => by simp [List.eq_nil_of_length_eq_zero hlength]⟩
    induction l with
    | nil => simp
    | cons x l ih =>
      have hlow := ih fun y hy => hl y (List.mem_cons_of_mem x hy)
      have hx := hl x List.mem_cons_self
      rw [List.length_cons, List.sum_cons, Nat.succ_mul]
      omega
  · rintro ⟨hlow, hzero⟩
    cases j with
    | zero => exact ⟨[], rfl, by simp, (hzero rfl).symm⟩
    | succ j =>
      -- the first summand takes what the others leave
      rw [Nat.succ_mul] at hlow
      refine ⟨(k - j * m) :: List.replicate j m, by simp, fun y hy => ?_, ?_⟩
      · rcases List.mem_cons.mp hy with rfl | hy
        · omega
        · rw [List.eq_of_mem_replicate hy]
      · rw [List.sum_cons, List.sum_replicate_nat]
        omega

/-- All sums lie between the products of the bounds. -/
theorem Repeated.bounds (h₁ : m₁ ≤ n₁) (h : Repeated m₁ n₁ m₂ n₂ k) :
    m₁ * m₂ ≤ k ∧ k ≤ n₁ * n₂ := by
  obtain ⟨j, hj, hj', hsum⟩ := h
  obtain ⟨hlow, hhigh⟩ := (sumOf_iff h₁).mp hsum
  have hm : m₂ * m₁ ≤ j * m₁ := Nat.mul_le_mul_right m₁ hj
  have hn : j * n₁ ≤ n₂ * n₁ := Nat.mul_le_mul_right n₁ hj'
  rw [Nat.mul_comm m₁, Nat.mul_comm n₁]
  omega

/-- Without a gap the sums fill the range. -/
theorem repeated_of_gapless (h₁ : m₁ ≤ n₁) (h₂ : m₂ ≤ n₂) (hgap : Gapless m₁ n₁ m₂ n₂)
    (hlow : m₁ * m₂ ≤ k) (hhigh : k ≤ n₁ * n₂) : Repeated m₁ n₁ m₂ n₂ k := by
  -- as few summands as reach the number
  have hexists : ∃ j, m₂ ≤ j ∧ k ≤ j * n₁ := ⟨n₂, h₂, by rwa [Nat.mul_comm]⟩
  obtain ⟨j, ⟨hj, hreach⟩, hleast⟩ : ∃ j, (m₂ ≤ j ∧ k ≤ j * n₁) ∧
      ∀ i, m₂ ≤ i → k ≤ i * n₁ → j ≤ i :=
    ⟨Nat.find hexists, Nat.find_spec hexists, fun i hi hk => Nat.find_min' hexists ⟨hi, hk⟩⟩
  have hjn : j ≤ n₂ := hleast n₂ h₂ (by rwa [Nat.mul_comm])
  refine ⟨j, hj, hjn, (sumOf_iff h₁).mpr ⟨?_, hreach⟩⟩
  rcases Nat.eq_or_lt_of_le hj with rfl | hlt
  · rwa [Nat.mul_comm]
  · obtain ⟨i, rfl⟩ : ∃ i, j = i + 1 := ⟨j - 1, by omega⟩
    have hless : i * n₁ < k := by
      by_contra hnot
      have hle := hleast i (by omega) (by omega)
      omega
    rcases hgap with rfl | hgap
    · omega
    · have hgaps : m₂ * (n₁ - m₁) ≤ i * (n₁ - m₁) := Nat.mul_le_mul_right _ (by omega)
      have hsplit : i * (n₁ - m₁) + i * m₁ = i * n₁ := by
        rw [← Nat.mul_add, Nat.sub_add_cancel h₁]
      rw [Nat.succ_mul]
      omega

/-- The sums are the whole range exactly if there is no gap. -/
theorem repeated_iff_range (h₁ : m₁ ≤ n₁) (h₂ : m₂ ≤ n₂) :
    (∀ k, m₁ * m₂ ≤ k ∧ k ≤ n₁ * n₂ ↔ Repeated m₁ n₁ m₂ n₂ k) ↔ Gapless m₁ n₁ m₂ n₂ := by
  constructor
  · intro hall
    by_contra hgap
    obtain ⟨hne, hwide⟩ := not_or.mp hgap
    have hlt : m₂ + 1 ≤ n₂ := by omega
    have hsplit : m₂ * (n₁ - m₁) + m₂ * m₁ = m₂ * n₁ := by
      rw [← Nat.mul_add, Nat.sub_add_cancel h₁]
    have hnext : (m₂ + 1) * n₁ ≤ n₂ * n₁ := Nat.mul_le_mul_right n₁ hlt
    rw [Nat.succ_mul] at hnext
    -- the number behind the sums of `m₂` summands is no sum
    obtain ⟨j, hj, hj', hsum⟩ := (hall (m₂ * n₁ + 1)).mp (by
      rw [Nat.mul_comm m₁, Nat.mul_comm n₁]
      omega)
    obtain ⟨hlow, hhigh⟩ := (sumOf_iff h₁).mp hsum
    rcases Nat.eq_or_lt_of_le hj with rfl | hlt'
    · omega
    · have hmore : (m₂ + 1) * m₁ ≤ j * m₁ := Nat.mul_le_mul_right m₁ hlt'
      rw [Nat.succ_mul] at hmore
      omega
  · exact fun hgap k => ⟨fun hk => repeated_of_gapless h₁ h₂ hgap hk.1 hk.2,
      fun hk => hk.bounds h₁⟩

section Nested

variable {a b : Nat}

/-- `k` is a sum of as many numbers with the second property as a number with the first one
says. -/
def Summed (J P : Nat → Prop) (k : Nat) : Prop := ∃ j, J j ∧ Sums P j k

/-- Three nested ranges of repetitions leave no gap: not between the numbers of repetitions of
the innermost one that differ by one, and not between those of the two inner ones together. -/
def Contiguous (a b m₁ n₁ m₂ n₂ : Nat) : Prop :=
  (m₁ = n₁ ∨ a ≤ m₁ * m₂ * (b - a) + 1) ∧ Gapless (m₁ * a) (n₁ * b) m₂ n₂

instance (a b m₁ n₁ m₂ n₂ : Nat) : Decidable (Contiguous a b m₁ n₁ m₂ n₂) := instDecidableAnd

/-- One repetition each gives the numbers between the bounds. -/
theorem repeated_ones : Repeated 1 1 m₂ n₂ k ↔ m₂ ≤ k ∧ k ≤ n₂ := by
  constructor
  · rintro ⟨j, hj, hj', hsum⟩
    obtain ⟨hlow, hhigh⟩ := (sumOf_iff le_rfl).mp hsum
    omega
  · rintro ⟨hlow, hhigh⟩
    exact ⟨k, hlow, hhigh, (sumOf_iff le_rfl).mpr ⟨(Nat.mul_one k).le, (Nat.mul_one k).ge⟩⟩

/-- No repetition at all is among the sums if one of the lower bounds allows it. -/
theorem summed_zero {P : Nat → Prop} (h₁ : m₁ ≤ n₁) (h₂ : m₂ ≤ n₂) (hzero : m₁ * m₂ = 0) :
    Summed (Repeated m₁ n₁ m₂ n₂) P 0 := by
  have hnone : SumOf m₁ n₁ m₂ 0 :=
    (sumOf_iff h₁).mpr ⟨by rw [Nat.mul_comm, hzero], Nat.zero_le _⟩
  exact ⟨0, ⟨m₂, le_rfl, h₂, hnone⟩, [], rfl, List.forall_mem_nil _, rfl⟩

/-- A sum of numbers from `a` to `b`, nested twice, lies between the products of the bounds. -/
theorem Summed.blocks (h₁ : m₁ ≤ n₁) (hab : a ≤ b)
    (hk : Summed (Repeated m₁ n₁ m₂ n₂) (fun x => a ≤ x ∧ x ≤ b) k) :
    Repeated (m₁ * a) (n₁ * b) m₂ n₂ k := by
  obtain ⟨j, ⟨i, hi, hi', hblock⟩, hsum⟩ := hk
  obtain ⟨hlow, hhigh⟩ := (sumOf_iff h₁).mp hblock
  obtain ⟨hlow', hhigh'⟩ := (sumOf_iff hab).mp hsum
  refine ⟨i, hi, hi', (sumOf_iff (Nat.mul_le_mul h₁ hab)).mpr ⟨?_, ?_⟩⟩
  · rw [← Nat.mul_assoc]
    exact (Nat.mul_le_mul_right a hlow).trans hlow'
  · rw [← Nat.mul_assoc]
    exact hhigh'.trans (Nat.mul_le_mul_right b hhigh)

/-- Within one number of outer repetitions nothing is left out. -/
theorem summed_of_block {i : Nat} (h₁ : m₁ ≤ n₁) (hab : a ≤ b) (hi : m₂ ≤ i) (hi' : i ≤ n₂)
    (hgap : m₁ = n₁ ∨ a ≤ m₁ * m₂ * (b - a) + 1) (hsum : SumOf (m₁ * a) (n₁ * b) i k) :
    Summed (Repeated m₁ n₁ m₂ n₂) (fun x => a ≤ x ∧ x ≤ b) k := by
  obtain ⟨hlow, hhigh⟩ := (sumOf_iff (Nat.mul_le_mul h₁ hab)).mp hsum
  rw [← Nat.mul_assoc] at hlow hhigh
  have hgap' : Gapless a b (i * m₁) (i * n₁) := by
    refine hgap.imp (fun heq => by rw [heq]) fun hle => hle.trans (Nat.succ_le_succ ?_)
    rw [Nat.mul_comm i]
    exact Nat.mul_le_mul_right _ (Nat.mul_le_mul_left m₁ hi)
  have hinner : i * m₁ ≤ i * n₁ := Nat.mul_le_mul_left i h₁
  rw [Nat.mul_comm] at hlow hhigh
  obtain ⟨j, hj, hj', hsum'⟩ := repeated_of_gapless hab hinner hgap' hlow hhigh
  exact ⟨j, ⟨i, hi, hi', (sumOf_iff h₁).mpr ⟨hj, hj'⟩⟩, hsum'⟩

/-- The sums of three nested ranges are the whole range exactly if they are contiguous. -/
theorem summed_iff_range (hab : a ≤ b) (h₁ : m₁ ≤ n₁) (h₂ : m₂ ≤ n₂) (hb : 0 < b)
    (hm₂ : 0 < m₂) :
    (∀ k, m₁ * a * m₂ ≤ k ∧ k ≤ n₁ * b * n₂ ↔
        Summed (Repeated m₁ n₁ m₂ n₂) (fun x => a ≤ x ∧ x ≤ b) k) ↔
      Contiguous a b m₁ n₁ m₂ n₂ := by
  have hmul := Nat.mul_le_mul h₁ hab
  constructor
  · intro hall
    refine ⟨or_iff_not_imp_left.mpr fun hne => ?_, (repeated_iff_range hmul h₂).mp fun k =>
      ⟨fun hk => ((hall k).mp hk).blocks h₁ hab, fun hk => hk.bounds hmul⟩⟩
    -- the number behind the sums of `m₁ * m₂` summands is a sum of more
    have hmore : m₁ * m₂ + 1 ≤ n₁ * n₂ :=
      Nat.mul_lt_mul_of_lt_of_le (by omega) h₂ (hm₂.trans_le h₂)
    have hend : (m₁ * m₂ + 1) * b ≤ n₁ * n₂ * b := Nat.mul_le_mul_right b hmore
    have hbegin : m₁ * m₂ * a ≤ m₁ * m₂ * b := Nat.mul_le_mul_left _ hab
    rw [Nat.succ_mul] at hend
    obtain ⟨j, -, hsum⟩ := (hall (m₁ * m₂ * b + 1)).mp (by
      rw [Nat.mul_right_comm m₁, Nat.mul_right_comm n₁]
      omega)
    obtain ⟨hlow, hhigh⟩ := (sumOf_iff hab).mp hsum
    have hj : m₁ * m₂ + 1 ≤ j := by
      by_contra hless
      have hle : j * b ≤ m₁ * m₂ * b := Nat.mul_le_mul_right b (by omega)
      omega
    have hnext : (m₁ * m₂ + 1) * a ≤ j * a := Nat.mul_le_mul_right a hj
    have hsplit : m₁ * m₂ * (b - a) + m₁ * m₂ * a = m₁ * m₂ * b := by
      rw [← Nat.mul_add, Nat.sub_add_cancel hab]
    rw [Nat.succ_mul] at hnext
    omega
  · rintro ⟨hinner, houter⟩ k
    refine ⟨fun hk => ?_, fun hk => (hk.blocks h₁ hab).bounds hmul⟩
    obtain ⟨i, hi, hi', hsum⟩ := repeated_of_gapless hmul h₂ houter hk.1 hk.2
    exact summed_of_block h₁ hab hi hi' hinner hsum

/-- Sums of numbers without an upper bound begin at the product of the lower bounds. -/
theorem summed_least_iff (h₁ : m₁ ≤ n₁) (h₂ : m₂ ≤ n₂) (hpos : 0 < m₁ * m₂) :
    Summed (Repeated m₁ n₁ m₂ n₂) (fun x => a ≤ x) k ↔ m₁ * a * m₂ ≤ k := by
  rw [Nat.mul_right_comm]
  constructor
  · rintro ⟨j, ⟨i, hi, hi', hblock⟩, hsum⟩
    have hlow := ((sumOf_iff h₁).mp hblock).1
    have hmore : m₂ * m₁ ≤ i * m₁ := Nat.mul_le_mul_right m₁ hi
    rw [Nat.mul_comm m₁]
    exact (Nat.mul_le_mul_right a (hmore.trans hlow)).trans (sums_least_iff.mp hsum).1
  · intro hk
    refine ⟨m₁ * m₂, ⟨m₂, le_rfl, h₂, (sumOf_iff h₁).mpr ⟨?_, ?_⟩⟩,
      sums_least_iff.mpr ⟨hk, fun h => absurd h hpos.ne'⟩⟩
    · rw [Nat.mul_comm]
    · rw [Nat.mul_comm]
      exact Nat.mul_le_mul_left m₂ h₁

end Nested

end Recognizer
