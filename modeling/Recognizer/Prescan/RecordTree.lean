import Recognizer.Rbtree.History
import Recognizer.Source.Streams

/-!
# The records of the multi-pattern search in memory

The nodes of the tree of matches own the records. A node that comes back from the pool
brings its record along, which is then written over.
-/

namespace Recognizer

namespace MPatMatches

open RedBlack (RbTree)
open Rbtree (Holds Sorted)

variable {s s' : MPatMatches} {live pool : RbTree Nat} {j : Nat} {l : List MatchRecord}

/-- The record of a node. -/
def value (s : MPatMatches) (a : Nat) : MatchRecord := s.records (s.matchList.nodes a).data

/-- The tree of matches is in memory and every node of it has a record of its own. -/
structure Stored (s : MPatMatches) (live pool : RbTree Nat) : Prop where
  holds : Holds s.matchList live pool
  redBlack : live.IsRedBlack
  sorted : Sorted s.matchList live.toList
  key : ∀ a ∈ live.toList, (s.matchList.nodes a).key = (s.value a).beg
  owned : ∀ a ∈ live.toList, (s.matchList.nodes a).data ≠ 0
  distinct : ∀ a ∈ live.toList ++ pool.toList, ∀ b ∈ live.toList ++ pool.toList,
    (s.matchList.nodes a).data = (s.matchList.nodes b).data →
      (s.matchList.nodes a).data ≠ 0 → a = b
  bound : ∀ a ∈ live.toList ++ pool.toList, (s.matchList.nodes a).data < s.fresh
  fresh : 0 < s.fresh

/-- Writing the data of a node does not change the tree. -/
theorem holds_data {m : Rbtree.RBTreeCtrl} {a d : Nat} (h : Holds m live pool) :
    Holds (m.set a fun x => { x with data := d }) live pool := by
  have hlinks : ∀ x, ((m.set a fun x => { x with data := d }).nodes x).left = (m.nodes x).left ∧
      ((m.set a fun x => { x with data := d }).nodes x).right = (m.nodes x).right ∧
      ((m.set a fun x => { x with data := d }).nodes x).parent = (m.nodes x).parent ∧
      ((m.set a fun x => { x with data := d }).nodes x).color = (m.nodes x).color := by
    intro x
    by_cases hx : x = a
    · subst hx
      simp
    · rw [Rbtree.set_of_ne hx]
      exact ⟨rfl, rfl, rfl, rfl⟩
  exact ⟨h.atRoot.of_links (fun x => (hlinks x).1) (fun x => (hlinks x).2.1)
      (fun x => (hlinks x).2.2.1) fun x => (hlinks x).2.2.2,
    h.atPool.of_links (fun x => (hlinks x).1) (fun x => (hlinks x).2.1)
      (fun x => (hlinks x).2.2.1) fun x => (hlinks x).2.2.2,
    h.nodup, h.bound, h.next, h.ptr⟩

/-- Every record but that of a new node stays what it is. -/
theorem Stored.of_insert {m : Rbtree.RBTreeCtrl} {b e d : Nat} {live' pool' : RbTree Nat}
    {new : Nat} (records : Nat → MatchRecord) (fresh : Nat) (h : s.Stored live pool)
    (hm : Holds m live' pool')
    (hredBlack : live'.IsRedBlack) (hsorted : Sorted m live'.toList)
    (hperm : live'.toList.Perm (new :: live.toList)) (hsub : pool'.toList ⊆ pool.toList)
    (hkey : (m.nodes new).key = b) (hkeys : ∀ a ∈ live.toList,
      (m.nodes a).key = (s.matchList.nodes a).key)
    (hd : (m.nodes new).data = d ∧ d ≠ 0 ∧ d < fresh)
    (hdata : ∀ a ≠ new, (m.nodes a).data = (s.matchList.nodes a).data)
    (hother : ∀ a ∈ live.toList ++ pool.toList, a ≠ new → (s.matchList.nodes a).data ≠ d)
    (hfresh : s.fresh ≤ fresh) (hrecords : records = Function.update s.records d ⟨b, e⟩) :
    Stored { s with matchList := m, records := records, fresh := fresh } live' pool' ∧
      records (m.nodes new).data = ⟨b, e⟩ ∧
      ∀ a ∈ live.toList, records (m.nodes a).data = s.value a := by
  have hnodup := (List.nodup_append.mp hm.nodup).1
  have hnew : new ∉ live.toList := (List.nodup_cons.mp (hperm.nodup_iff.mp hnodup)).1
  have hmem : ∀ a ∈ live'.toList ++ pool'.toList, a = new ∨
      (a ≠ new ∧ a ∈ live.toList ++ pool.toList) := by
    intro a ha
    by_cases hanew : a = new
    · exact .inl hanew
    · refine .inr ⟨hanew, ?_⟩
      rcases List.mem_append.mp ha with ha | ha
      · rcases List.mem_cons.mp (hperm.subset ha) with heq | ha
        · exact absurd heq hanew
        · exact List.mem_append_left _ ha
      · exact List.mem_append_right _ (hsub ha)
  have hvalue : ∀ a ∈ live.toList, records (m.nodes a).data = s.value a := by
    intro a ha
    have hanew : a ≠ new := fun heq => hnew (heq ▸ ha)
    rw [hdata a hanew, hrecords,
      Function.update_of_ne (hother a (List.mem_append_left _ ha) hanew)]
    rfl
  have hvalueNew : records (m.nodes new).data = ⟨b, e⟩ := by
    rw [hrecords, hd.1, Function.update_self]
  refine ⟨⟨hm, hredBlack, hsorted, ?_, ?_, ?_, ?_, Nat.lt_of_lt_of_le h.fresh hfresh⟩, hvalueNew,
    hvalue⟩
  · intro a ha
    show (m.nodes a).key = ((records (m.nodes a).data).beg : Int)
    rcases List.mem_cons.mp (hperm.subset ha) with rfl | ha
    · rw [hkey, hvalueNew]
    · rw [hkeys a ha, hvalue a ha, h.key a ha]
  · intro a ha
    show (m.nodes a).data ≠ 0
    rcases List.mem_cons.mp (hperm.subset ha) with rfl | ha
    · rw [hd.1]
      exact hd.2.1
    · rw [hdata a fun heq => hnew (heq ▸ ha)]
      exact h.owned a ha
  · intro a ha c hc heq hne
    have heq' : (m.nodes a).data = (m.nodes c).data := heq
    have hne' : (m.nodes a).data ≠ 0 := hne
    rcases hmem a ha with rfl | ⟨hanew, ha⟩
    · rcases hmem c hc with rfl | ⟨hcnew, hc⟩
      · rfl
      · rw [hd.1, hdata c hcnew] at heq'
        exact absurd heq'.symm (hother c hc hcnew)
    · rcases hmem c hc with rfl | ⟨hcnew, hc⟩
      · rw [hd.1, hdata a hanew] at heq'
        exact absurd heq' (hother a ha hanew)
      · rw [hdata a hanew, hdata c hcnew] at heq'
        rw [hdata a hanew] at hne'
        exact h.distinct a ha c hc heq' hne'
  · intro a ha
    show (m.nodes a).data < fresh
    rcases hmem a ha with rfl | ⟨hanew, ha⟩
    · rw [hd.1]
      exact hd.2.2
    · rw [hdata a hanew]
      exact Nat.lt_of_lt_of_le (h.bound a ha) hfresh

/-- `record_match` adds a record. -/
theorem recordMatch_at (b e : Nat) (h : s.Stored live pool) :
    ∃ s' live' pool', s.recordMatch b e = some s' ∧ s'.Stored live' pool' ∧
      (live'.toList.map s'.value).Perm (⟨b, e⟩ :: live.toList.map s.value) ∧
      s'.curMr = s.curMr := by
  obtain ⟨new, m, pool', hinsert, hm⟩ := Rbtree.rbtreeInsert_at b 0 true h.holds h.redBlack
  have hperm : (RedBlack.insert (fun x => decide ((s.matchList.nodes x).key < (b : Int))) new
      live).toList.Perm (new :: live.toList) := Rbtree.perm_insert _ _ h.sorted
  have hredBlack : (RedBlack.insert (fun x => decide ((s.matchList.nodes x).key < (b : Int))) new
      live).IsRedBlack := RedBlack.IsRedBlack.insert h.redBlack
  have hsorted := hm.sorted h.sorted
  -- The values are those of the new and of the old nodes.
  have hvalues : ∀ {s' : MPatMatches}, s'.value new = ⟨b, e⟩ →
      (∀ a ∈ live.toList, s'.value a = s.value a) →
        ((RedBlack.insert (fun x => decide ((s.matchList.nodes x).key < (b : Int))) new
          live).toList.map s'.value).Perm (⟨b, e⟩ :: live.toList.map s.value) := by
    intro s' hnew hold
    refine (hperm.map _).trans ?_
    rw [List.map_cons, hnew, List.map_congr_left hold]
  by_cases hdata : (m.nodes new).data = 0
  · obtain ⟨m', hm'⟩ : ∃ m', m' = m.set new fun x => { x with data := s.fresh } := ⟨_, rfl⟩
    have hnode : ∀ a ≠ new, m'.nodes a = m.nodes a := fun a ha => by
      rw [hm']
      exact Rbtree.set_of_ne ha
    have hkey : ∀ a, (m'.nodes a).key = (m.nodes a).key := fun a => by
      by_cases ha : a = new
      · rw [ha, hm', Rbtree.set_self]
      · rw [hnode a ha]
    have hdataNew : (m'.nodes new).data = s.fresh := by rw [hm', Rbtree.set_self]
    have hsorted' : Sorted m' (RedBlack.insert (fun x =>
        decide ((s.matchList.nodes x).key < (b : Int))) new live).toList := by
      refine List.Pairwise.imp ?_ hsorted
      intro x y hle
      rw [hkey x, hkey y]
      exact hle
    obtain ⟨hstored, hnew, hold⟩ := h.of_insert (Function.update s.records s.fresh ⟨b, e⟩)
      (s.fresh + 1) (hm' ▸ holds_data hm.holds) hredBlack hsorted' hperm hm.subset
      ((hkey new).trans hm.key_new) (fun a ha => (hkey a).trans (hm.key_old a ha))
      ⟨hdataNew, Nat.ne_of_gt h.fresh, Nat.lt_succ_self _⟩
      (fun a ha => by rw [hnode a ha, hm.data_old a ha])
      (fun a ha _ => Nat.ne_of_lt (h.bound a ha)) (Nat.le_succ _) rfl
    refine ⟨_, _, pool', ?_, hstored, hvalues hnew hold, rfl⟩
    rw [recordMatch]
    simp only [hinsert, Option.bind_eq_bind, Option.bind_some, if_pos hdata, ← hm']
  · have hpool : new ∈ pool.toList ∧ (m.nodes new).data = (s.matchList.nodes new).data := by
      rcases hm.data_new with hpool | hzero
      · exact hpool
      · exact absurd hzero.2 hdata
    obtain ⟨hstored, hnew, hold⟩ := h.of_insert
      (Function.update s.records (m.nodes new).data ⟨b, e⟩) s.fresh hm.holds hredBlack
      hsorted hperm hm.subset hm.key_new hm.key_old
      ⟨rfl, hdata, by rw [hpool.2]; exact h.bound new (List.mem_append_right _ hpool.1)⟩
      hm.data_old (fun a ha hanew heq => hanew (h.distinct a ha new
        (List.mem_append_right _ hpool.1) (heq.trans hpool.2) (by rw [heq]; exact hdata)))
      (Nat.le_refl _) rfl
    refine ⟨_, _, pool', ?_, hstored, hvalues hnew hold, rfl⟩
    rw [recordMatch]
    simp only [hinsert, Option.bind_eq_bind, Option.bind_some, if_neg hdata]

/-- The records of a line are added. -/
theorem recordAll_at (rs : List MatchRecord) (h : s.Stored live pool) :
    ∃ s' live' pool', s.recordAll rs = some s' ∧ s'.Stored live' pool' ∧
      (live'.toList.map s'.value).Perm (live.toList.map s.value ++ rs) ∧ s'.curMr = s.curMr := by
  induction rs generalizing s live pool with
  | nil => exact ⟨s, live, pool, rfl, h, by simp, rfl⟩
  | cons r rs ih =>
    obtain ⟨s₁, live₁, pool₁, hrecord, h₁, hperm₁, hcur₁⟩ := recordMatch_at r.beg r.stop h
    obtain ⟨s', live', pool', hs', h', hperm', hcur'⟩ := ih h₁
    refine ⟨s', live', pool', ?_, h', ?_, hcur'.trans hcur₁⟩
    · simp only [recordAll, hrecord, Option.bind_eq_bind, Option.bind_some, hs']
    · exact hperm'.trans ((hperm₁.append_right rs).trans List.perm_middle.symm)

/-- The records of a line are in memory in the order of their starts, and the next one to be
read is the one with index `j`; behind the last record comes `NULL`, and then the first one
again. -/
def Reads (s : MPatMatches) (l : List MatchRecord) (j : Nat) : Prop :=
  ∃ live pool, s.Stored live pool ∧ l = live.toList.map s.value ∧
    ((j = 0 ∧ s.curMr = 0) ∨ ∃ i, j = i + 1 ∧ live.toList[i]? = some s.curMr)

/-- Nothing is recorded. -/
def Idle (s : MPatMatches) : Prop := s.Reads [] 0

/-- A new object is idle. -/
theorem idle_init : MPatMatches.Idle {} := by
  have hvalid := Rbtree.valid_init
  exact ⟨.nil, .nil, ⟨hvalid.holds, hvalid.redBlack, hvalid.sorted, by simp, by simp, by simp,
    by simp, Nat.one_pos⟩, rfl, .inl ⟨rfl, rfl⟩⟩

/-- The records are read in the order of their starts. -/
theorem Reads.sorted (h : s.Reads l j) : l.Pairwise fun r r' => r.beg ≤ r'.beg := by
  obtain ⟨live, pool, hstored, rfl, -⟩ := h
  refine List.pairwise_map.mpr (List.Pairwise.imp_of_mem ?_ hstored.sorted)
  intro a b ha hb hle
  rw [hstored.key a ha, hstored.key b hb] at hle
  exact Int.ofNat_le.mp hle

/-- A search of a line makes its records readable from the first one on. -/
theorem Idle.recordAll (rs : List MatchRecord) (h : s.Idle) :
    ∃ s' l, s.recordAll rs = some s' ∧ s'.Reads l 0 ∧ l.Perm rs := by
  obtain ⟨live, pool, hstored, hnil, hcursor⟩ := h
  have hlive : live.toList = [] := List.map_eq_nil_iff.mp hnil.symm
  have hcur : s.curMr = 0 := (hcursor.resolve_right (by simp)).2
  obtain ⟨s', live', pool', hrecord, hstored', hperm, hsame⟩ := recordAll_at rs hstored
  rw [hlive, List.map_nil, List.nil_append] at hperm
  exact ⟨s', _, hrecord, ⟨live', pool', hstored', rfl, .inl ⟨rfl, hsame.trans hcur⟩⟩, hperm⟩

/-- `mpat_next_match` reads the next record. -/
theorem mpatNextMatch_at (h : s.Reads l j) :
    ∃ a s', s.mpatNextMatch = some (a, s') ∧
      (if a = 0 then none else some (s'.records a)) = l[j]? ∧
      s'.Reads l ((j + 1) % (l.length + 1)) := by
  obtain ⟨live, pool, hstored, rfl, hcursor⟩ := h
  have hatRoot := hstored.holds.atRoot
  by_cases hroot : s.matchList.root = 0
  · have hlive : live = .nil := by
      cases live with
      | nil => rfl
      | node c l x r => exact absurd (hatRoot.1.symm.trans hroot) hatRoot.2.1
    subst hlive
    have hj : j = 0 ∧ s.curMr = 0 := hcursor.resolve_right (by simp)
    refine ⟨0, s, by rw [mpatNextMatch, if_pos hroot], by simp, ?_⟩
    exact ⟨.nil, pool, hstored, rfl, .inl ⟨by simp [hj.1], hj.2⟩⟩
  have hnodup := hstored.holds.live_nodup
  have hlength := hstored.holds.live_length
  have hne : ∀ a ∈ live.toList, a ≠ 0 := fun a ha heq => hatRoot.zero_notMem (heq ▸ ha)
  rw [List.length_map, List.getElem?_map]
  -- The next node is found, and what it makes of the cursor.
  suffices hstep : (if s.curMr = 0 then s.matchList.rbtreeMin s.matchList.root
      else s.matchList.rbtreeSuccessor s.curMr) = some (live.toList[j]?.getD 0) ∧
      j ≤ live.toList.length by
    obtain ⟨hstep, hj⟩ := hstep
    refine ⟨if live.toList[j]?.getD 0 = 0 then 0
      else (s.matchList.nodes (live.toList[j]?.getD 0)).data,
      { s with curMr := live.toList[j]?.getD 0 }, ?_, ?_, ?_⟩
    · rw [mpatNextMatch, if_neg hroot]
      by_cases hcur : s.curMr = 0
      · rw [if_pos hcur] at hstep
        simp only [if_pos hcur, hstep, Option.bind_eq_bind, Option.bind_some]
      · rw [if_neg hcur] at hstep
        simp only [if_neg hcur, hstep, Option.bind_eq_bind, Option.bind_some]
    · by_cases hlast : j < live.toList.length
      · have hin := List.getElem_mem hlast
        rw [List.getElem?_eq_getElem hlast, Option.getD_some, if_neg (hne _ hin),
          if_neg (hstored.owned _ hin)]
        rfl
      · rw [List.getElem?_eq_none (by omega)]
        rfl
    · refine ⟨live, pool, ⟨hstored.holds, hstored.redBlack, hstored.sorted, hstored.key,
        hstored.owned, hstored.distinct, hstored.bound, hstored.fresh⟩, rfl, ?_⟩
      by_cases hlast : j < live.toList.length
      · refine .inr ⟨j, Nat.mod_eq_of_lt (by omega), ?_⟩
        rw [List.getElem?_eq_getElem hlast]
        rfl
      · refine .inl ⟨?_, ?_⟩
        · rw [show j = live.toList.length by omega, Nat.mod_self]
        · rw [List.getElem?_eq_none (by omega)]
          rfl
  rcases hcursor with ⟨rfl, hcur⟩ | ⟨i, rfl, hcur⟩
  · have hmin : s.matchList.rbtreeMin s.matchList.root = some (live.toList.headD 0) :=
      Rbtree.minLoop_at hatRoot hlength
    rw [if_pos hcur, hmin, List.headD_eq_head?_getD, List.head?_eq_getElem?]
    exact ⟨rfl, Nat.zero_le _⟩
  · obtain ⟨hi, hget⟩ := List.getElem?_eq_some_iff.mp hcur
    have hsplit : live.toList = live.toList.take i ++ s.curMr :: live.toList.drop (i + 1) := by
      rw [← hget, ← List.drop_eq_getElem_cons hi, List.take_append_drop]
    have hsucc := Rbtree.rbtreeSuccessor_at hatRoot hnodup hsplit hlength
    rw [if_neg (hget ▸ hne _ (List.getElem_mem hi)), hsucc, List.headD_eq_head?_getD,
      List.head?_drop]
    exact ⟨rfl, hi⟩

/-- `mpat_clear_matches` forgets the records and the cursor. -/
theorem mpatClearMatches_at (h : s.Reads l j) :
    ∃ s', s.mpatClearMatches = some s' ∧ s'.Idle := by
  obtain ⟨live, pool, hstored, rfl, hcursor⟩ := h
  by_cases hroot : s.matchList.root = 0
  · have hlive : live = .nil := by
      cases live with
      | nil => rfl
      | node c l x r =>
        have hatRoot := hstored.holds.atRoot
        exact absurd (hatRoot.1.symm.trans hroot) hatRoot.2.1
    subst hlive
    have hj : j = 0 ∧ s.curMr = 0 := hcursor.resolve_right (by simp)
    exact ⟨s, by rw [mpatClearMatches, if_pos hroot], .nil, pool, hstored, rfl, .inl ⟨rfl, hj.2⟩⟩
  · obtain ⟨m, pool', hclear, hm⟩ := Rbtree.rbtreeClear_at hstored.holds
    refine ⟨{ s with matchList := m, curMr := 0 }, ?_, .nil, pool', ⟨hm.holds, ⟨rfl, 0, .nil⟩,
      List.Pairwise.nil, by simp, by simp, ?_, ?_, hstored.fresh⟩, rfl, .inl ⟨rfl, rfl⟩⟩
    · simp only [mpatClearMatches, if_neg hroot, hclear, Option.bind_eq_bind, Option.bind_some]
    · intro a ha b hb
      rw [hm.data a, hm.data b]
      exact hstored.distinct a (hm.sub (by simpa using ha)) b (hm.sub (by simpa using hb))
    · intro a ha
      rw [hm.data a]
      exact hstored.bound a (hm.sub (by simpa using ha))

end MPatMatches

end Recognizer
