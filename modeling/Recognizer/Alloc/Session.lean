import Recognizer.Alloc.FreeRing
import Mathlib.Order.Interval.Finset.Nat

/-!
# Runs of the allocator

A client asks for nodes and releases nodes it holds. Beside the memory a session keeps the set
of the nodes the client holds and that of the nodes that may be handed out.
-/

namespace Recognizer

namespace NfaAlloc

open PoolMem

/-- A call of a client. -/
inductive Call where
  | nfaAlloc
  | nfaDealloc (n : Nat)
  deriving DecidableEq, Repr

/-- The memory between two calls, the nodes the client holds and those that may be handed out:
linked or released, and not handed out since. -/
structure Session where
  mem : PoolMem
  live : Finset Nat
  available : Finset Nat

namespace Session

variable (s : Session)

/-- The nodes a call of `nfa_alloc` links: the upper half of a new pool when none is left. -/
def linked : Finset Nat :=
  if s.mem.head = 0 then
    Finset.Ico (s.mem.nextNode + (s.mem.allocs s.mem.alloc).poolSize)
      (s.mem.nextNode + 2 * (s.mem.allocs s.mem.alloc).poolSize)
  else ∅

/-- One call. -/
def step : Call → Session
  | .nfaAlloc =>
    { mem := s.mem.nfaAlloc.2
      live := insert s.mem.nfaAlloc.1 s.live
      available := (s.available ∪ s.linked).erase s.mem.nfaAlloc.1 }
  | .nfaDealloc n =>
    { mem := s.mem.nfaDealloc s.mem.alloc n
      live := s.live.erase n
      available := insert n s.available }

/-- A client releases only what it holds. -/
def Permits : Call → Prop
  | .nfaAlloc => True
  | .nfaDealloc n => n ∈ s.live

instance (c : Call) : Decidable (s.Permits c) :=
  match c with
  | .nfaAlloc => .isTrue trivial
  | .nfaDealloc n => inferInstanceAs (Decidable (n ∈ s.live))

/-- Calls, one after the other. -/
def run : Session → List Call → Session
  | s, [] => s
  | s, c :: calls => (s.step c).run calls

/-- A session whose client releases only what it holds. -/
def Valid : Session → List Call → Prop
  | _, [] => True
  | s, c :: calls => s.Permits c ∧ (s.step c).Valid calls

instance decidableValid : (s : Session) → (calls : List Call) → Decidable (s.Valid calls)
  | _, [] => .isTrue trivial
  | s, c :: calls =>
    haveI := decidableValid (s.step c) calls
    inferInstanceAs (Decidable (s.Permits c ∧ (s.step c).Valid calls))

/-- The state behind `nfa_alloc_init`. -/
def start (m : PoolMem) (num : Nat) : Session where
  mem := m.nfaAllocInit num
  live := ∅
  available := Finset.Ico m.nextNode (m.nextNode + num)

/-- The `free` member is `NULL` when nothing is available, or heads a ring of exactly the
available nodes; the links undo each other. -/
def FreeIsRing : Prop :=
  s.mem.head = 0 ∧ s.available = ∅ ∨
    s.mem.head ≠ 0 ∧ ∃ ring, Ring s.mem.next s.mem.prev s.mem.head ring ∧ ring.Nodup ∧
      (∀ a, a ∈ ring ↔ a ∈ s.available) ∧
      ∀ a ∈ ring, s.mem.prev (s.mem.next a) = a ∧ s.mem.next (s.mem.prev a) = a

/-- What holds between two calls. -/
structure Sound (ring : List Nat) : Prop where
  free : FreeRing s.mem ring
  mem_ring : ∀ a, a ∈ ring ↔ a ∈ s.available
  live : ∀ a ∈ s.live, 0 < a ∧ a < s.mem.nextNode
  apart : Disjoint s.live s.available

section

variable {s} {m : PoolMem} {ring : List Nat} {calls : List Call} {c : Call} {n num : Nat}

/-- The nodes that may be handed out, with those of a new pool. -/
theorem Sound.mem_offered (h : s.Sound ring) (a : Nat) :
    a ∈ offered s.mem ring ↔ a ∈ s.available ∪ s.linked := by
  rw [Finset.mem_union, ← h.mem_ring, linked, offered]
  by_cases hnil : ring = []
  · rw [if_pos hnil, if_pos (h.free.head_eq_zero_iff.mpr hnil), List.mem_range'_1, Finset.mem_Ico,
      hnil]
    simp only [List.not_mem_nil, false_or]
    omega
  · rw [if_neg hnil, if_neg (mt h.free.head_eq_zero_iff.mp hnil)]
    simp

/-- A node that may be handed out is not held. -/
theorem Sound.notMem_live (h : s.Sound ring) (ha : n ∈ offered s.mem ring) : n ∉ s.live := by
  intro hlive
  have hbound := (h.live n hlive).2
  rw [offered] at ha
  split at ha
  · rw [List.mem_range'_1] at ha
    omega
  · exact Finset.disjoint_left.mp h.apart hlive ((h.mem_ring n).mp ha)

/-- The next node handed out. -/
theorem Sound.nfaAlloc_fresh (h : s.Sound ring) :
    s.mem.nfaAlloc.1 ∈ s.available ∪ s.linked ∧ s.mem.nfaAlloc.1 ∉ s.live := by
  obtain ⟨n, ring', m', heq, hands⟩ := h.free.nfaAlloc
  have hin : n ∈ offered s.mem ring := by
    rw [hands.offered]
    exact List.mem_cons_self
  rw [heq]
  exact ⟨(h.mem_offered n).mp hin, h.notMem_live hin⟩

/-- A call of `nfa_alloc`. -/
theorem Sound.stepAlloc (h : s.Sound ring) : ∃ ring', (s.step .nfaAlloc).Sound ring' := by
  obtain ⟨n, ring', m', heq, hands⟩ := h.free.nfaAlloc
  have hin : n ∈ offered s.mem ring := by
    rw [hands.offered]
    exact List.mem_cons_self
  have hfresh : n ∉ s.live := h.notMem_live hin
  have hstep : s.step .nfaAlloc =
      ⟨m', insert n s.live, (s.available ∪ s.linked).erase n⟩ := by
    rw [step, heq]
  have hnodup : (n :: ring').Nodup := by
    rw [← hands.offered, offered]
    split
    · exact List.nodup_range'
    · exact h.free.nodup
  have hgrows : s.mem.nextNode ≤ m'.nextNode := by
    rw [hands.nextNode]
    split
    · omega
    · exact le_refl _
  have hbound : 0 < n ∧ n < m'.nextNode := by
    rw [hands.nextNode]
    rw [offered] at hin
    have hsize := h.free.size
    split at hin
    · next hnil =>
      rw [if_pos hnil]
      rw [List.mem_range'_1] at hin
      omega
    · next hnil =>
      rw [if_neg hnil]
      exact h.free.bound n hin
  rw [hstep]
  refine ⟨ring', hands.free, fun a => ?_, fun a ha => ?_, ?_⟩
  · rw [Finset.mem_erase, ← h.mem_offered, hands.offered, List.mem_cons]
    constructor
    · intro ha
      exact ⟨fun heq => (List.nodup_cons.mp hnodup).1 (heq ▸ ha), .inr ha⟩
    · rintro ⟨hne, ha⟩
      exact ha.resolve_left hne
  · rcases Finset.mem_insert.mp ha with rfl | ha
    · exact hbound
    · exact ⟨(h.live a ha).1, (h.live a ha).2.trans_le hgrows⟩
  · rw [Finset.disjoint_left]
    intro a ha hav
    rw [Finset.mem_erase, ← h.mem_offered] at hav
    exact h.notMem_live hav.2 ((Finset.mem_insert.mp ha).resolve_left hav.1)

/-- The nodes of the ring behind a release. -/
theorem mem_entered {a : Nat} : a ∈ entered ring n ↔ a = n ∨ a ∈ ring := by
  cases ring with
  | nil => simp [entered]
  | cons b ring =>
    simp only [entered, List.mem_cons]
    tauto

/-- A call of `nfa_dealloc`. -/
theorem Sound.stepDealloc (h : s.Sound ring) (hn : n ∈ s.live) :
    ∃ ring', (s.step (.nfaDealloc n)).Sound ring' := by
  obtain ⟨hpos, hlt⟩ := h.live n hn
  have hout : n ∉ ring := by
    rw [h.mem_ring]
    exact Finset.disjoint_left.mp h.apart hn
  have htakes := h.free.nfaDealloc hout hpos hlt
  refine ⟨entered ring n, htakes.free, fun a => ?_, fun a ha => ?_, ?_⟩
  · rw [mem_entered, h.mem_ring]
    exact Finset.mem_insert.symm
  · change _ ∧ a < (s.mem.nfaDealloc s.mem.alloc n).nextNode
    rw [htakes.nextNode]
    exact h.live a (Finset.mem_of_mem_erase ha)
  · change Disjoint (s.live.erase n) (insert n s.available)
    rw [Finset.disjoint_insert_right]
    exact ⟨Finset.notMem_erase n s.live, h.apart.mono_left (Finset.erase_subset n s.live)⟩

theorem Sound.step (h : s.Sound ring) (hc : s.Permits c) : ∃ ring', (s.step c).Sound ring' := by
  cases c with
  | nfaAlloc => exact h.stepAlloc
  | nfaDealloc n => exact h.stepDealloc hc

/-- A whole session. -/
theorem Sound.run (h : s.Sound ring) (hvalid : s.Valid calls) :
    ∃ ring', (s.run calls).Sound ring' := by
  induction calls generalizing s ring with
  | nil => exact ⟨ring, h⟩
  | cons c calls ih =>
    obtain ⟨ring', h'⟩ := h.step hvalid.1
    exact ih h' hvalid.2

theorem sound_start (hnum : 1 ≤ num) (hnode : 0 < m.nextNode) (hnext : 0 < m.nextAlloc) :
    (start m num).Sound (List.range' m.nextNode num) where
  free := (freeRing_nfaAllocInit hnum hnode hnext).1
  mem_ring a := by
    rw [List.mem_range'_1]
    exact Finset.mem_Ico.symm
  live a ha := absurd ha (Finset.notMem_empty a)
  apart := Finset.disjoint_empty_left _

/-- The ring between two calls. -/
theorem Sound.freeIsRing (h : s.Sound ring) : s.FreeIsRing := by
  rcases h.free.links with ⟨hzero, hnil⟩ | hring
  · refine .inl ⟨hzero, Finset.eq_empty_of_forall_notMem fun a ha => ?_⟩
    rw [← h.mem_ring, hnil] at ha
    cases ha
  · have hpos := (h.free.bound _ hring.head_mem).1
    refine .inr ⟨by omega, ring, hring, h.free.nodup, h.mem_ring, fun a ha => ?_⟩
    exact ⟨hring.undo a ha, hring.redo ha⟩

/-- **The allocator.** Behind any calls of a client the free nodes are a ring, and the next call
of `nfa_alloc` hands out one of the available nodes, which the client does not hold. -/
theorem never_hands_out_live (hnode : 0 < m.nextNode) (hnext : 0 < m.nextAlloc)
    (hnum : 1 ≤ num) (hvalid : (start m num).Valid calls) :
    ((start m num).run calls).mem.nfaAlloc.1 ∉ ((start m num).run calls).live ∧
      ((start m num).run calls).mem.nfaAlloc.1 ≠ 0 ∧
      ((start m num).run calls).mem.nfaAlloc.1 ∈
        ((start m num).run calls).available ∪ ((start m num).run calls).linked ∧
      ((start m num).run calls).FreeIsRing := by
  obtain ⟨ring, hsound⟩ := (sound_start hnum hnode hnext).run hvalid
  obtain ⟨hin, hfresh⟩ := hsound.nfaAlloc_fresh
  obtain ⟨ring', hnext⟩ := hsound.stepAlloc
  have hpos := (hnext.live _ (Finset.mem_insert_self _ _)).1
  exact ⟨hfresh, Nat.pos_iff_ne_zero.mp hpos, hin, hsound.freeIsRing⟩

/-- Four nodes are taken from a pool of one, with two expansions, and three of them come back. -/
theorem never_hands_out_live_pool_of_one :
    ((start {} 1).run [.nfaAlloc, .nfaAlloc, .nfaAlloc, .nfaAlloc, .nfaDealloc 1, .nfaDealloc 3,
        .nfaDealloc 6]).mem.nfaAlloc.1 ∉ ((start {} 1).run [.nfaAlloc, .nfaAlloc, .nfaAlloc,
          .nfaAlloc, .nfaDealloc 1, .nfaDealloc 3, .nfaDealloc 6]).live :=
  (never_hands_out_live (by decide) (by decide) (by decide) (by decide +kernel)).1

end

end Session

end NfaAlloc

end Recognizer
