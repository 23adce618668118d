import Recognizer.Rbtree.Insert

/-!
# Runs of a red-black tree

Any sequence of insertions and clearings leaves a red-black tree with the nodes that were
inserted since the last clearing, in the order of their keys.
-/

namespace Recognizer

namespace Rbtree

open RedBlack (Color RbTree Ctx)

/-- A call that changes the tree. -/
inductive Op where
  | insert (key : Int) (data : Nat) (reuseData : Bool)
  | clear

/-- An `RBTreeCtrl` with the nodes inserted since it was cleared last and their keys. -/
structure History where
  ctrl : RBTreeCtrl := {}
  inserted : List (Nat × Int) := []

/-- One call. -/
def History.step (s : History) : Op → Option History
  | .insert key data reuseData => do
    let (new, m) ← s.ctrl.rbtreeInsert key data reuseData
    some { ctrl := m, inserted := (new, key) :: s.inserted }
  | .clear => do
    let m ← s.ctrl.rbtreeClear
    some { ctrl := m, inserted := [] }

/-- A sequence of calls. -/
def History.run (s : History) : List Op → Option History
  | [] => some s
  | op :: ops => (s.step op).bind fun s => s.run ops

/-- The keys of the nodes do not decrease. -/
def Sorted (m : RBTreeCtrl) (l : List Nat) : Prop :=
  l.Pairwise fun x y => (m.nodes x).key ≤ (m.nodes y).key

/-- The live tree has the inserted nodes in order. -/
structure Valid (s : History) (live pool : RbTree Nat) : Prop where
  holds : Holds s.ctrl live pool
  redBlack : live.IsRedBlack
  sorted : Sorted s.ctrl live.toList
  perm : (live.toList.map fun a => (a, (s.ctrl.nodes a).key)).Perm s.inserted
  count : s.ctrl.count = live.toList.length

/-- The tree is empty at first. -/
theorem valid_init : Valid {} .nil .nil where
  holds := ⟨rfl, rfl, List.nodup_nil, by simp, Nat.one_pos, .inr ⟨rfl, rfl⟩⟩
  redBlack := ⟨rfl, 0, .nil⟩
  sorted := List.Pairwise.nil
  perm := .refl _
  count := rfl

section Insert

variable {m m' : RBTreeCtrl} {live pool pool' : RbTree Nat} {key : Int} {data new : Nat}
  {reuseData : Bool}

/-- Where an insertion puts the new node. -/
theorem toList_insert (hsorted : Sorted m live.toList) :
    (RedBlack.insert (fun x => decide ((m.nodes x).key < key)) new live).toList =
      (live.toList.filter fun x => decide ((m.nodes x).key < key)) ++
        new :: live.toList.filter fun x => !decide ((m.nodes x).key < key) := by
  refine RedBlack.toList_insert (hsorted.imp ?_)
  intro x y hle hy
  have hlt : (m.nodes y).key < key := of_decide_eq_true hy
  exact decide_eq_true (by omega)

/-- The nodes after an insertion. -/
theorem perm_insert (new : Nat) (key : Int) (hsorted : Sorted m live.toList) :
    (RedBlack.insert (fun x => decide ((m.nodes x).key < key)) new live).toList.Perm
      (new :: live.toList) := by
  rw [toList_insert hsorted]
  exact List.perm_middle.trans ((List.filter_append_perm _ _).cons new)

/-- An insertion keeps the order. -/
theorem Inserts.sorted (h : Inserts m m' live pool pool' key data reuseData new)
    (hsorted : Sorted m live.toList) :
    Sorted m' (RedBlack.insert (fun x => decide ((m.nodes x).key < key)) new live).toList := by
  have hold : Sorted m' live.toList := by
    refine List.Pairwise.imp_of_mem ?_ hsorted
    intro x y hx hy hle
    rw [h.key_old x hx, h.key_old y hy]
    exact hle
  rw [toList_insert hsorted]
  refine List.pairwise_append.mpr ⟨hold.filter _, List.pairwise_cons.mpr ⟨?_, hold.filter _⟩, ?_⟩
  · intro y hy
    obtain ⟨hy, hnot⟩ := List.mem_filter.mp hy
    have hge : ¬ (m.nodes y).key < key := by simpa using hnot
    rw [h.key_new, h.key_old y hy]
    omega
  · intro x hx y hy
    obtain ⟨hx, hlt⟩ := List.mem_filter.mp hx
    have hlt : (m.nodes x).key < key := of_decide_eq_true hlt
    rw [h.key_old x hx]
    rcases List.mem_cons.mp hy with rfl | hy
    · rw [h.key_new]
      omega
    · obtain ⟨hy, hnot⟩ := List.mem_filter.mp hy
      have hge : ¬ (m.nodes y).key < key := by simpa using hnot
      rw [h.key_old y hy]
      omega

end Insert

/-- An insertion keeps the tree valid. -/
theorem Valid.insert {s : History} {live pool pool' : RbTree Nat} {m' : RBTreeCtrl} {key : Int}
    {data new : Nat} {reuseData : Bool} (h : Valid s live pool)
    (hm' : Inserts s.ctrl m' live pool pool' key data reuseData new) :
    Valid ⟨m', (new, key) :: s.inserted⟩
      (RedBlack.insert (fun x => decide ((s.ctrl.nodes x).key < key)) new live) pool' := by
  refine ⟨hm'.holds, RedBlack.IsRedBlack.insert h.redBlack, hm'.sorted h.sorted, ?_, ?_⟩
  · have hkeys : (live.toList.map fun a => (a, (m'.nodes a).key)) =
        live.toList.map fun a => (a, (s.ctrl.nodes a).key) :=
      List.map_congr_left fun a ha => by rw [hm'.key_old a ha]
    refine ((perm_insert _ _ h.sorted).map _).trans ?_
    rw [List.map_cons, hm'.key_new, hkeys]
    exact h.perm.cons _
  · rw [(perm_insert _ _ h.sorted).length_eq, List.length_cons, hm'.count, h.count]
    rfl

/-- Every call keeps the tree valid. -/
theorem Valid.step {s : History} {live pool : RbTree Nat} (h : Valid s live pool) (op : Op) :
    ∃ s' live' pool', s.step op = some s' ∧ Valid s' live' pool' := by
  cases op with
  | insert key data reuseData =>
    obtain ⟨new, m', pool', hinsert, hm'⟩ := rbtreeInsert_at key data reuseData h.holds h.redBlack
    refine ⟨{ ctrl := m', inserted := (new, key) :: s.inserted }, _, pool', ?_, h.insert hm'⟩
    simp only [History.step, hinsert, Option.bind_eq_bind, Option.bind_some]
  | clear =>
    obtain ⟨m', pool', hclear, hm'⟩ := rbtreeClear_at h.holds
    refine ⟨{ ctrl := m', inserted := [] }, .nil, pool', ?_, hm'.holds, ⟨rfl, 0, .nil⟩,
      List.Pairwise.nil, .refl _, hm'.count h.count⟩
    simp only [History.step, hclear, Option.bind_eq_bind, Option.bind_some]

/-- Every sequence of calls keeps the tree valid. -/
theorem Valid.run {s : History} {live pool : RbTree Nat} (h : Valid s live pool) (ops : List Op) :
    ∃ s' live' pool', s.run ops = some s' ∧ Valid s' live' pool' := by
  induction ops generalizing s live pool with
  | nil => exact ⟨s, live, pool, rfl, h⟩
  | cons op ops ih =>
    obtain ⟨s₁, live₁, pool₁, hstep, h₁⟩ := h.step op
    obtain ⟨s', live', pool', hrun, h'⟩ := ih h₁
    exact ⟨s', live', pool', by rw [History.run, hstep, Option.bind_some, hrun], h'⟩

/-- The search finds a node exactly for the inserted keys. -/
theorem Valid.search {s : History} {live pool : RbTree Nat} (h : Valid s live pool) (key : Int) :
    ∃ a, s.ctrl.rbtreeSearch s.ctrl.root key = some a ∧
      (a ≠ 0 ↔ key ∈ s.inserted.map Prod.snd) ∧ (a ≠ 0 → (a, key) ∈ s.inserted) := by
  obtain ⟨a, hsearch, hcase⟩ := rbtreeSearch_at key h.holds.atRoot h.sorted h.holds.live_length
  refine ⟨a, hsearch, ?_⟩
  have hmem : ∀ b k, (b, k) ∈ s.inserted ↔ b ∈ live.toList ∧ (s.ctrl.nodes b).key = k := by
    intro b k
    rw [← h.perm.mem_iff, List.mem_map]
    constructor
    · rintro ⟨c, hc, heq⟩
      obtain ⟨rfl, rfl⟩ := Prod.mk.inj heq
      exact ⟨hc, rfl⟩
    · rintro ⟨hb, rfl⟩
      exact ⟨b, hb, rfl⟩
  rcases hcase with ⟨rfl, hnone⟩ | ⟨hin, hkey⟩
  · refine ⟨⟨fun hne => absurd rfl hne, fun hkeyIn => ?_⟩, fun hne => absurd rfl hne⟩
    obtain ⟨⟨b, k⟩, hb, rfl⟩ := List.mem_map.mp hkeyIn
    obtain ⟨hb, hbkey⟩ := (hmem b k).mp hb
    exact absurd hbkey (hnone b hb)
  · have hins := (hmem a key).mpr ⟨hin, hkey⟩
    have hne : a ≠ 0 := fun heq => h.holds.atRoot.zero_notMem (heq ▸ hin)
    exact ⟨⟨fun _ => List.mem_map.mpr ⟨_, hins, rfl⟩, fun _ => hne⟩, fun _ => hins⟩

/-- After any calls the tree is a red-black tree with consistent links; the successors and
predecessors walk through what was inserted since the last clearing in order, the search
finds the inserted keys, and the counter is their number. -/
theorem run_redBlack (ops : List Op) :
    ∃ s, History.run {} ops = some s ∧
      (∃ t : RbTree Nat, At s.ctrl.nodes t s.ctrl.root 0 ∧ t.isRed = false ∧ t.NoRedRed ∧
        ∃ n, ∀ k ∈ t.blackCounts, k = n) ∧
      (∃ l, ascending s.ctrl = some l ∧ descending s.ctrl = some l.reverse ∧
        (l.map fun a => (a, (s.ctrl.nodes a).key)).Perm s.inserted ∧ l.Nodup ∧
        Sorted s.ctrl l) ∧
      (∀ key, ∃ a, s.ctrl.rbtreeSearch s.ctrl.root key = some a ∧
        (a ≠ 0 ↔ key ∈ s.inserted.map Prod.snd) ∧ (a ≠ 0 → (a, key) ∈ s.inserted)) ∧
      s.ctrl.rbtreeNodeCount = s.inserted.length := by
  obtain ⟨s, live, pool, hrun, h⟩ := valid_init.run ops
  obtain ⟨hroot, n, hn⟩ := h.redBlack
  refine ⟨s, hrun, ⟨live, h.holds.atRoot, hroot, hn.noRedRed, n, hn.blackCounts⟩,
    ⟨live.toList, ?_, ?_, h.perm, h.holds.live_nodup, h.sorted⟩, h.search, ?_⟩
  · exact ascending_at h.holds.atRoot h.holds.live_nodup h.holds.live_length
  · exact descending_at h.holds.atRoot h.holds.live_nodup h.holds.live_length
  · rw [RBTreeCtrl.rbtreeNodeCount, h.count, ← h.perm.length_eq, List.length_map]

end Rbtree

end Recognizer
