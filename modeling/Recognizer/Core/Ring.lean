import Recognizer.Core.Chain

/-!
# Rings of linked cells

A ring is a chain that comes back to its first cell, and the backward link of every cell
leads to the cell before it.
-/

namespace Recognizer

/-- The links lead from `h` around the list back to `h`, and from `h` back to its last cell;
the backward link undoes the forward one everywhere. -/
structure Ring {α : Type*} (next prev : α → α) (h : α) (l : List α) : Prop where
  around : Chain next h l h
  back : l.getLast? = some (prev h)
  undo : ∀ x ∈ l, prev (next x) = x

namespace Ring

variable {α : Type*} {next prev next' prev' : α → α} {h p q x : α} {l t : List α}

/-- A ring starts at its head. -/
theorem exists_cons (r : Ring next prev h l) : ∃ t, l = h :: t := by
  cases l with
  | nil => cases r.back
  | cons y t => exact ⟨t, by rw [r.around.1]⟩

/-- A ring ends at the cell before its head. -/
theorem exists_concat (r : Ring next prev h l) : ∃ xs, l = xs ++ [prev h] := by
  obtain ⟨ys, hys⟩ := List.getLast?_eq_some_iff.mp r.back
  exact ⟨ys, hys⟩

theorem head_mem (r : Ring next prev h l) : h ∈ l := by
  obtain ⟨t, rfl⟩ := r.exists_cons
  exact List.mem_cons_self

theorem prev_mem (r : Ring next prev h l) : prev h ∈ l := by
  obtain ⟨xs, hxs⟩ := r.exists_concat
  rw [hxs]
  simp

/-- The cell behind a place of the ring. -/
theorem next_of_split {xs ys : List α} (r : Ring next prev h (xs ++ x :: ys)) :
    next x = ys.headD h := by
  obtain ⟨b, -, -, hys⟩ := Chain.append_iff.mp r.around
  exact hys.start_eq

/-- The links do not leave a ring. -/
theorem next_mem (r : Ring next prev h l) (hx : x ∈ l) : next x ∈ l := by
  obtain ⟨xs, ys, rfl⟩ := List.append_of_mem hx
  rw [r.next_of_split]
  cases ys with
  | nil => exact r.head_mem
  | cons y ys => simp

/-- Only the cells on a ring matter to it. -/
theorem congr (r : Ring next prev h l) (hnext : ∀ x ∈ l, next' x = next x)
    (hprev : ∀ x ∈ l, prev' x = prev x) : Ring next' prev' h l where
  around := r.around.congr hnext
  back := by rw [hprev h r.head_mem, r.back]
  undo x hx := by rw [hnext x hx, hprev _ (r.next_mem hx), r.undo x hx]

/-- Only the last cell leads to the head. -/
theorem next_ne_head (r : Ring next prev h l) (hx : x ∈ l) (hlast : x ≠ prev h) : next x ≠ h :=
  fun heq => hlast (by rw [← r.undo x hx, heq])

theorem next_of_head (r : Ring next prev h (h :: t)) : next h = t.headD h :=
  next_of_split (show Ring next prev h ([] ++ h :: t) from r)

/-- A ring of more than one cell does not come back at once. -/
theorem next_eq_head_iff (r : Ring next prev h (h :: t)) (hnodup : (h :: t).Nodup) :
    next h = h ↔ t = [] := by
  have hnext : next h = t.headD h := r.next_of_head
  rw [hnext]
  cases t with
  | nil => simp
  | cons y t =>
    have hne : h ≠ y := fun heq => (List.nodup_cons.mp hnodup).1 (heq ▸ List.mem_cons_self)
    simp [hne.symm]

/-- The last cell leads to the head. -/
theorem next_prev_head (r : Ring next prev h l) : next (prev h) = h := by
  obtain ⟨xs, hxs⟩ := r.exists_concat
  exact (Chain.concat_iff.mp (hxs ▸ r.around)).2

/-- Every cell is led to by one of the ring. -/
theorem exists_next (r : Ring next prev h l) (hx : x ∈ l) : ∃ y ∈ l, next y = x := by
  obtain ⟨xs, ys, rfl⟩ := List.append_of_mem hx
  rcases List.eq_nil_or_concat' xs with rfl | ⟨zs, y, rfl⟩
  · refine ⟨prev h, r.prev_mem, ?_⟩
    rw [r.next_prev_head]
    exact r.around.1
  · refine ⟨y, by simp, ?_⟩
    obtain ⟨b, hb, hxb, -⟩ := Chain.append_iff.mp r.around
    exact (Chain.concat_iff.mp hb).2.trans hxb

/-- The forward link undoes the backward one. -/
theorem redo (r : Ring next prev h l) (hx : x ∈ l) : next (prev x) = x := by
  obtain ⟨y, hy, rfl⟩ := r.exists_next hx
  rw [r.undo y hy]

/-- A cell that comes before itself is alone. -/
theorem prev_eq_head_iff (r : Ring next prev h (h :: t)) (hnodup : (h :: t).Nodup) :
    prev h = h ↔ t = [] := by
  constructor
  · intro heq
    have hnext := r.next_prev_head
    rw [heq] at hnext
    exact (r.next_eq_head_iff hnodup).mp hnext
  · rintro rfl
    exact (Option.some.inj r.back).symm

variable [DecidableEq α]

/-- A cell linked to itself. -/
theorem single : Ring (Function.update next x x) (Function.update prev x x) x [x] :=
  ⟨⟨rfl, by rw [Function.update_self]; rfl⟩, by simp, by simp⟩

/-- A cell is linked in behind the last one. -/
theorem concat (r : Ring next prev h l) (hnodup : l.Nodup) (hx : x ∉ l) :
    Ring (Function.update (Function.update next x h) (prev h) x)
      (Function.update (Function.update prev x (prev h)) h x) h (l ++ [x]) := by
  obtain ⟨xs, hxs⟩ := r.exists_concat
  have hlast : prev h ∉ xs := by
    rw [hxs] at hnodup
    exact fun hin => (List.nodup_append.mp hnodup).2.2 _ hin _ List.mem_cons_self rfl
  have hne : x ≠ prev h := fun heq => hx (heq ▸ r.prev_mem)
  have hhead : x ≠ h := fun heq => hx (heq ▸ r.head_mem)
  refine ⟨?_, by simp, ?_⟩
  · have hchain : Chain (Function.update next x h) h (xs ++ [prev h]) h :=
      hxs ▸ r.around.update_of_notMem hx
    rw [hxs]
    refine Chain.append_iff.mpr ⟨x, hchain.update_concat hlast, rfl, ?_⟩
    rw [Function.update_of_ne hne, Function.update_self]
    rfl
  · intro y hy
    rcases List.mem_append.mp hy with hy | hy
    · by_cases hyl : y = prev h
      · rw [hyl, Function.update_self, Function.update_of_ne hhead, Function.update_self]
      · have hyx : y ≠ x := fun heq => hx (heq ▸ hy)
        have hnx : next y ≠ x := fun heq => hx (heq ▸ r.next_mem hy)
        rw [Function.update_of_ne hyl, Function.update_of_ne hyx,
          Function.update_of_ne (r.next_ne_head hy hyl), Function.update_of_ne hnx, r.undo y hy]
    · obtain rfl := List.mem_singleton.mp hy
      rw [Function.update_of_ne hne, Function.update_self, Function.update_self]

/-- A cell is linked in behind the head. -/
theorem insert (r : Ring next prev h (h :: t)) (hnodup : (h :: t).Nodup) (hx : x ∉ h :: t) :
    Ring (Function.update (Function.update next x (next h)) h x)
      (Function.update (Function.update prev x h) (next h) x) h (h :: x :: t) := by
  have hxh : x ≠ h := fun heq => hx (heq ▸ List.mem_cons_self)
  have hxt : x ∉ t := fun hin => hx (List.mem_cons_of_mem h hin)
  have hht : h ∉ t := (List.nodup_cons.mp hnodup).1
  have hxn : x ≠ next h := fun heq => hx (heq ▸ r.next_mem List.mem_cons_self)
  refine ⟨⟨rfl, ?_, ?_⟩, ?_, ?_⟩
  · rw [Function.update_self]
  · rw [Function.update_of_ne hxh, Function.update_self]
    exact (r.around.2.update_of_notMem hxt).update_of_notMem hht
  · have hback := r.back
    cases t with
    | nil =>
      have hself : next h = h := r.next_of_head
      simp [hself]
    | cons y t =>
      have hne : h ≠ next h := by
        rw [r.next_of_head]
        exact fun heq => hht (heq ▸ List.mem_cons_self)
      rw [List.getLast?_cons_cons] at hback
      rw [List.getLast?_cons_cons, List.getLast?_cons_cons, hback, Function.update_of_ne hne,
        Function.update_of_ne hxh.symm]
  · intro y hy
    rcases List.mem_cons.mp hy with rfl | hy
    · rw [Function.update_self, Function.update_of_ne hxn, Function.update_self]
    · rcases List.mem_cons.mp hy with rfl | hy
      · rw [Function.update_of_ne hxh, Function.update_self, Function.update_self]
      · have hyh : y ≠ h := fun heq => hht (heq ▸ hy)
        have hyx : y ≠ x := fun heq => hxt (heq ▸ hy)
        have hin : y ∈ h :: t := List.mem_cons_of_mem h hy
        have hnn : next y ≠ next h := by
          intro heq
          have hundo := r.undo h List.mem_cons_self
          rw [← heq, r.undo y hin] at hundo
          exact hyh hundo
        have hnx : next y ≠ x := fun heq => hx (heq ▸ r.next_mem hin)
        rw [Function.update_of_ne hyh, Function.update_of_ne hyx, Function.update_of_ne hnn,
          Function.update_of_ne hnx, r.undo y hin]

/-- The head of a ring is cut out. -/
theorem tail (r : Ring next prev h (h :: q :: t)) (hnodup : (h :: q :: t).Nodup) :
    Ring (Function.update next (prev h) (next h)) (Function.update prev (next h) (prev h))
      (next h) (q :: t) := by
  have hnext : next h = q := r.next_of_head
  have hback : (q :: t).getLast? = some (prev h) := by
    rw [← r.back, List.getLast?_cons_cons]
  obtain ⟨xs, hxs⟩ := List.getLast?_eq_some_iff.mp hback
  have hchain : Chain next (next h) (xs ++ [prev h]) h := hxs ▸ r.around.2
  have hlast : prev h ∉ xs := by
    have hqt := (List.nodup_cons.mp hnodup).2
    rw [hxs] at hqt
    exact fun hin => (List.nodup_append.mp hqt).2.2 _ hin _ List.mem_cons_self rfl
  refine ⟨?_, by rw [Function.update_self, hback], ?_⟩
  · rw [hxs]
    exact hchain.update_concat hlast
  · intro y hy
    have hyin : y ∈ h :: q :: t := List.mem_cons_of_mem h hy
    by_cases hyl : y = prev h
    · rw [hyl, Function.update_self, Function.update_self]
    · have hyh : next y ≠ next h := by
        intro heq
        have hundo := r.undo h List.mem_cons_self
        rw [← heq, r.undo y hyin] at hundo
        exact (List.nodup_cons.mp hnodup).1 (hundo ▸ hy)
      rw [Function.update_of_ne hyl, Function.update_of_ne hyh, r.undo y hyin]

/-- Two rings are connected by crossing their ends. -/
theorem splice (r : Ring next prev h l) (s : Ring next prev p t) (hnodup : (l ++ t).Nodup) :
    Ring (Function.update (Function.update next (prev h) p) (prev p) h)
      (Function.update (Function.update prev h (prev p)) p (prev h)) p (t ++ l) := by
  obtain ⟨xs, hxs⟩ := r.exists_concat
  obtain ⟨ys, hys⟩ := s.exists_concat
  have hsplit := List.nodup_append.mp hnodup
  have hl : prev h ∉ xs := by
    have hnodupl := hsplit.1
    rw [hxs] at hnodupl
    exact fun hin => (List.nodup_append.mp hnodupl).2.2 _ hin _ List.mem_cons_self rfl
  have ht : prev p ∉ ys := by
    have hnodupt := hsplit.2.1
    rw [hys] at hnodupt
    exact fun hin => (List.nodup_append.mp hnodupt).2.2 _ hin _ List.mem_cons_self rfl
  have hpl : prev p ∉ l := fun hin => hsplit.2.2 _ hin _ s.prev_mem rfl
  have hht : prev h ∉ t := fun hin => hsplit.2.2 _ r.prev_mem _ hin rfl
  have hchainL : Chain (Function.update next (prev h) p) h l p := by
    have hchain : Chain next h (xs ++ [prev h]) h := hxs ▸ r.around
    rw [hxs]
    exact hchain.update_concat hl
  have hchainT : Chain (Function.update next (prev h) p) p (ys ++ [prev p]) p :=
    hys ▸ s.around.update_of_notMem hht
  have hhp : h ≠ p := hsplit.2.2 _ r.head_mem _ s.head_mem
  have hlasts : prev h ≠ prev p := hsplit.2.2 _ r.prev_mem _ s.prev_mem
  refine ⟨?_, ?_, ?_⟩
  · refine Chain.append_iff.mpr ⟨h, ?_, hchainL.update_of_notMem hpl⟩
    rw [hys]
    exact hchainT.update_concat ht
  · rw [Function.update_self, hxs, ← List.append_assoc]
    simp
  · intro y hy
    by_cases hyp : y = prev p
    · rw [hyp, Function.update_self, Function.update_of_ne hhp, Function.update_self]
    by_cases hyh : y = prev h
    · rw [hyh, Function.update_of_ne hlasts, Function.update_self, Function.update_self]
    have hundo : prev (next y) = y := by
      rcases List.mem_append.mp hy with hy | hy
      · exact s.undo y hy
      · exact r.undo y hy
    have hnp : next y ≠ p := fun heq => hyp (by rw [← hundo, heq])
    have hnh : next y ≠ h := fun heq => hyh (by rw [← hundo, heq])
    rw [Function.update_of_ne hyp, Function.update_of_ne hyh, Function.update_of_ne hnp,
      Function.update_of_ne hnh, hundo]

end Ring

section Range

variable {next prev : Nat → Nat} {s k : Nat}

/-- Links to the next address lead along the addresses. -/
theorem Chain.range (hnext : ∀ b, s ≤ b → b < s + k → next b = b + 1) :
    Chain next s (List.range' s k) (s + k) := by
  induction k generalizing s with
  | zero => rfl
  | succ k ih =>
    rw [List.range'_succ]
    refine ⟨rfl, ?_⟩
    rw [hnext s (Nat.le_refl s) (by omega), show s + (k + 1) = s + 1 + k by omega]
    exact ih fun b hlow hhigh => hnext b (by omega) (by omega)

/-- A row of cells whose last one leads to the first one. -/
theorem Ring.range (hnext : ∀ b, s ≤ b → b < s + k → next b = b + 1) (hlast : next (s + k) = s)
    (hprev : ∀ b, s ≤ b → b < s + k → prev (b + 1) = b) (hfirst : prev s = s + k) :
    Ring next prev s (List.range' s (k + 1)) := by
  have hsplit : List.range' s (k + 1) = List.range' s k ++ [s + k] := by
    rw [List.range'_concat, Nat.one_mul]
  refine ⟨?_, ?_, ?_⟩
  · rw [hsplit]
    exact Chain.concat_iff.mpr ⟨Chain.range hnext, hlast⟩
  · rw [hsplit, List.getLast?_concat, hfirst]
  · intro x hx
    rw [List.mem_range'_1] at hx
    by_cases hend : x = s + k
    · rw [hend, hlast, hfirst]
    · rw [hnext x hx.1 (by omega), hprev x hx.1 (by omega)]

end Range

end Recognizer
