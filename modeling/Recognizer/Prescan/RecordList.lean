import Recognizer.Core.Ring
import Recognizer.Source.Streams

/-!
# The records of Boyer-Moore search in memory

The records of a line are a ring, and the records that are free are another one. Every
operation of `match_record.c` rearranges the two.
-/

namespace Recognizer

namespace MatchRecordObj

variable {m m' m'' : MatchRecordObj} {a new : Nat} {l live pool : List Nat}

/-- The forward links. -/
def nextOf (m : MatchRecordObj) (a : Nat) : Nat := (m.cells a).next

/-- The backward links. -/
def prevOf (m : MatchRecordObj) (a : Nat) : Nat := (m.cells a).prev

/-- What a record says. -/
def value (m : MatchRecordObj) (a : Nat) : MatchRecord := ⟨(m.cells a).beg, (m.cells a).stop⟩

/-- What a write to a link leaves alone. -/
structure Relinked (m m' : MatchRecordObj) : Prop where
  value : m'.value = m.value
  fresh : m'.fresh = m.fresh
  head : m'.head = m.head
  pool : m'.pool = m.pool
  matchCount : m'.matchCount = m.matchCount

theorem Relinked.trans (h : Relinked m m') (h' : Relinked m' m'') : Relinked m m'' where
  value := h'.value.trans h.value
  fresh := h'.fresh.trans h.fresh
  head := h'.head.trans h.head
  pool := h'.pool.trans h.pool
  matchCount := h'.matchCount.trans h.matchCount

section Write

/-- A write as it is seen through one member. -/
theorem update_cells {β : Type} (m : MatchRecordObj) (a : Nat) (f : RecordCell → RecordCell)
    (g : RecordCell → β) :
    (fun x => g (Function.update m.cells a (f (m.cells a)) x)) =
      Function.update (fun x => g (m.cells x)) a (g (f (m.cells a))) := by
  funext x
  by_cases hx : x = a
  · subst hx
    simp
  · simp [hx]

/-- A write does not show through a member that it keeps. -/
theorem update_cells_same {β : Type} (m : MatchRecordObj) (a : Nat)
    (f : RecordCell → RecordCell) (g : RecordCell → β) (hf : ∀ x, g (f x) = g x) :
    (fun x => g (Function.update m.cells a (f (m.cells a)) x)) = fun x => g (m.cells x) := by
  rw [update_cells, hf]
  exact Function.update_eq_self a _

/-- A write to a forward link. -/
theorem write_next (ha : a ≠ 0) (v : Nat) :
    ∃ m', m.write a (fun x => { x with next := v }) = some m' ∧
      m'.nextOf = Function.update m.nextOf a v ∧ m'.prevOf = m.prevOf ∧ Relinked m m' := by
  obtain ⟨f, hf⟩ : ∃ f : RecordCell → RecordCell, f = fun x => { x with next := v } := ⟨_, rfl⟩
  rw [← hf]
  refine ⟨_, if_neg ha, ?_, ?_, ⟨?_, rfl, rfl, rfl, rfl⟩⟩
  · rw [show v = (f (m.cells a)).next by rw [hf]]
    exact update_cells m a f RecordCell.next
  · exact update_cells_same m a f RecordCell.prev fun _ => by rw [hf]
  · exact update_cells_same m a f (fun x => (⟨x.beg, x.stop⟩ : MatchRecord)) fun _ => by rw [hf]

/-- A write to a backward link. -/
theorem write_prev (ha : a ≠ 0) (v : Nat) :
    ∃ m', m.write a (fun x => { x with prev := v }) = some m' ∧
      m'.nextOf = m.nextOf ∧ m'.prevOf = Function.update m.prevOf a v ∧ Relinked m m' := by
  obtain ⟨f, hf⟩ : ∃ f : RecordCell → RecordCell, f = fun x => { x with prev := v } := ⟨_, rfl⟩
  rw [← hf]
  refine ⟨_, if_neg ha, ?_, ?_, ⟨?_, rfl, rfl, rfl, rfl⟩⟩
  · exact update_cells_same m a f RecordCell.next fun _ => by rw [hf]
  · rw [show v = (f (m.cells a)).prev by rw [hf]]
    exact update_cells m a f RecordCell.prev
  · exact update_cells_same m a f (fun x => (⟨x.beg, x.stop⟩ : MatchRecord)) fun _ => by rw [hf]

end Write

/-- The records at `a`; there are none at `NULL`. -/
def Listed (m : MatchRecordObj) (a : Nat) (l : List Nat) : Prop :=
  (a = 0 ∧ l = []) ∨ (a ≠ 0 ∧ Ring m.nextOf m.prevOf a l)

/-- The memory holds the records of a line and those in the pool. -/
structure Holds (m : MatchRecordObj) (live pool : List Nat) : Prop where
  atHead : m.Listed m.head live
  atPool : m.Listed m.pool pool
  nodup : (live ++ pool).Nodup
  bound : ∀ a ∈ live ++ pool, a ≠ 0 ∧ a < m.fresh
  fresh : 0 < m.fresh

/-- Only the listed records matter. -/
theorem Listed.congr (h : m.Listed a l) (hnext : ∀ x ∈ l, m'.nextOf x = m.nextOf x)
    (hprev : ∀ x ∈ l, m'.prevOf x = m.prevOf x) : m'.Listed a l :=
  h.imp id fun h => ⟨h.1, h.2.congr hnext hprev⟩

theorem Listed.ring (h : m.Listed a l) (ha : a ≠ 0) : Ring m.nextOf m.prevOf a l :=
  (h.resolve_left fun hzero => ha hzero.1).2

theorem Listed.eq_nil (h : m.Listed a l) (ha : a = 0) : l = [] :=
  (h.resolve_right fun hne => hne.1 ha).2

/-- What taking a record does to the memory. -/
structure Takes (m m' : MatchRecordObj) (live pool pool' : List Nat) (new : Nat) : Prop where
  holds : Holds m' live pool'
  fresh : new ∉ live ++ pool'
  bound : new ≠ 0 ∧ new < m'.fresh
  value : m'.value = m.value
  matchCount : m'.matchCount = m.matchCount
  source : (pool = [] ∧ pool' = [] ∧ new = m.fresh ∧ m'.fresh = m.fresh + 1) ∨
    (pool = new :: pool' ∧ m'.fresh = m.fresh)

/-- The first record of the pool is cut out, if there are others. -/
theorem takeRecord_cut {q : Nat} {t : List Nat} (h : Holds m live (m.pool :: q :: t)) :
    ∃ m', m.takeRecord = some (m.pool, m') ∧ m'.Listed m'.pool (q :: t) ∧
      (∀ a ∈ live, m'.nextOf a = m.nextOf a ∧ m'.prevOf a = m.prevOf a) ∧ m'.head = m.head ∧
      m'.fresh = m.fresh ∧ m'.value = m.value ∧ m'.matchCount = m.matchCount := by
  have hpool : m.pool ≠ 0 := (h.bound m.pool (by simp)).1
  have hring := h.atPool.ring hpool
  obtain ⟨-, hnodup, hapart⟩ := List.nodup_append.mp h.nodup
  have hnotMem : m.pool ∉ q :: t := (List.nodup_cons.mp hnodup).1
  have hself : ¬ (m.cells m.pool).next = m.pool := fun heq =>
    nomatch (hring.next_eq_head_iff hnodup).mp heq
  have hnext : m.nextOf m.pool = q := hring.next_of_head
  obtain ⟨z, hz⟩ : ∃ z, m.prevOf m.pool = z := ⟨_, rfl⟩
  have hlast : z ∈ q :: t := by
    have hback := hring.back
    rw [List.getLast?_cons_cons, hz] at hback
    exact List.mem_of_getLast? hback
  have hzpool : m.pool ≠ z := fun heq => hnotMem (heq ▸ hlast)
  have hqpool : m.pool ≠ q := fun heq => hnotMem (heq ▸ List.mem_cons_self)
  have hz0 : z ≠ 0 := (h.bound z (List.mem_append_right _ (List.mem_cons_of_mem _ hlast))).1
  have hq0 : q ≠ 0 := (h.bound q (by simp)).1
  obtain ⟨m₁, hm₁, hnext₁, hprev₁, hsame₁⟩ := write_next (m := m) hz0 q
  obtain ⟨m₂, hm₂, hnext₂, hprev₂, hsame₂⟩ := write_prev (m := m₁) hq0 z
  have hq₁ : m₁.nextOf m.pool = q := by rw [hnext₁, Function.update_of_ne hzpool, hnext]
  have hz₁ : m₁.prevOf m.pool = z := by rw [hprev₁, hz]
  have hq₂ : m₂.nextOf m.pool = q := by rw [hnext₂, hq₁]
  have hsame := hsame₁.trans hsame₂
  have htail := hring.tail hnodup
  rw [hz, hnext, ← hnext₁, ← hprev₁, ← hnext₂, ← hprev₂] at htail
  refine ⟨{ m₂ with pool := q }, ?_, .inr ⟨hq0, htail⟩, ?_, hsame.head, hsame.fresh, hsame.value,
    hsame.matchCount⟩
  · have hcells : (m.cells m.pool).prev = z ∧ (m.cells m.pool).next = q := ⟨hz, hnext⟩
    have hcells₁ : (m₁.cells m.pool).prev = z ∧ (m₁.cells m.pool).next = q := ⟨hz₁, hq₁⟩
    have hcells₂ : (m₂.cells m.pool).next = q := hq₂
    rw [takeRecord, if_neg hpool, if_neg hself]
    simp only [hcells.1, hcells.2, hm₁, Option.bind_eq_bind, Option.bind_some, hcells₁.1,
      hcells₁.2, hm₂, hcells₂]
  · intro a ha
    have haz : a ≠ z := fun heq =>
      hapart a ha z (List.mem_cons_of_mem _ hlast) heq
    have haq : a ≠ q := fun heq => hapart a ha q (by simp) heq
    refine ⟨?_, ?_⟩
    · show m₂.nextOf a = _
      rw [hnext₂, hnext₁, Function.update_of_ne haz]
    · show m₂.prevOf a = _
      rw [hprev₂, hprev₁, Function.update_of_ne haq]

/-- `new_match_record` finds a record, in the pool or a new one. -/
theorem takeRecord_at (h : Holds m live pool) :
    ∃ new m' pool', m.takeRecord = some (new, m') ∧ Takes m m' live pool pool' new := by
  by_cases hpool : m.pool = 0
  · have hnil := h.atPool.eq_nil hpool
    subst hnil
    refine ⟨m.fresh, { m with fresh := m.fresh + 1 }, [], by rw [takeRecord, if_pos hpool],
      ⟨h.atHead, h.atPool, h.nodup, ?_, Nat.succ_pos _⟩, ?_, ⟨?_, Nat.lt_succ_self _⟩, rfl, rfl,
      .inl ⟨rfl, rfl, rfl, rfl⟩⟩
    · exact fun a ha => ⟨(h.bound a ha).1, Nat.lt_succ_of_lt (h.bound a ha).2⟩
    · exact fun hin => Nat.lt_irrefl _ (h.bound _ hin).2
    · exact Nat.ne_of_gt h.fresh
  have hring := h.atPool.ring hpool
  obtain ⟨t, rfl⟩ := hring.exists_cons
  obtain ⟨-, hnodup, hapart⟩ := List.nodup_append.mp h.nodup
  have hsub : (live ++ t).Sublist (live ++ m.pool :: t) :=
    (List.Sublist.refl _).append (List.sublist_cons_self _ _)
  have hfresh : m.pool ∉ live ++ t := by
    rw [List.mem_append, not_or]
    exact ⟨fun hin => hapart _ hin _ List.mem_cons_self rfl, (List.nodup_cons.mp hnodup).1⟩
  have hbound : m.pool ≠ 0 ∧ m.pool < m.fresh := h.bound _ (by simp)
  cases t with
  | nil =>
    have hself : (m.cells m.pool).next = m.pool := (hring.next_eq_head_iff hnodup).mpr rfl
    refine ⟨m.pool, { m with pool := 0 }, [], ?_,
      ⟨h.atHead, .inl ⟨rfl, rfl⟩, h.nodup.sublist hsub, fun a ha => h.bound a (hsub.subset ha),
        h.fresh⟩, hfresh, hbound, rfl, rfl, .inr ⟨rfl, rfl⟩⟩
    rw [takeRecord, if_neg hpool, if_pos hself]
  | cons q t =>
    obtain ⟨m', htake, hatPool, hsame, hhead, hnext, hvalue, hcount⟩ := takeRecord_cut h
    refine ⟨m.pool, m', q :: t, htake, ⟨?_, hatPool, h.nodup.sublist hsub, ?_, ?_⟩, hfresh, ?_,
      hvalue, hcount, .inr ⟨rfl, hnext⟩⟩
    · rw [hhead]
      exact h.atHead.congr (fun x hx => (hsame x hx).1) fun x hx => (hsame x hx).2
    · rw [hnext]
      exact fun a ha => h.bound a (hsub.subset ha)
    · rw [hnext]
      exact h.fresh
    · rw [hnext]
      exact hbound

theorem Holds.new_nodup (h : Holds m live pool) (hfresh : new ∉ live ++ pool) :
    (live ++ [new] ++ pool).Perm (new :: (live ++ pool)) ∧ (live ++ [new] ++ pool).Nodup := by
  have hperm : (live ++ [new] ++ pool).Perm (new :: (live ++ pool)) := by
    rw [List.append_assoc]
    exact List.perm_middle
  exact ⟨hperm, hperm.nodup_iff.mpr (List.nodup_cons.mpr ⟨hfresh, h.nodup⟩)⟩

/-- The first record of a line. -/
theorem linkRecord_first (h : Holds m [] pool) (hbound : new ≠ 0 ∧ new < m.fresh) :
    ∃ m', m.linkRecord new = some m' ∧ Ring m'.nextOf m'.prevOf m'.head [new] ∧
      m'.head = new ∧ (∀ a, a ≠ new → m'.nextOf a = m.nextOf a ∧ m'.prevOf a = m.prevOf a) ∧
      m'.pool = m.pool ∧ m'.fresh = m.fresh ∧ m'.value = m.value ∧
      m'.matchCount = m.matchCount := by
  have hhead : m.head = 0 := by
    by_contra hne
    obtain ⟨t, ht⟩ := (h.atHead.ring hne).exists_cons
    cases ht
  obtain ⟨m₁, hm₁, hnext₁, hprev₁, hsame₁⟩ := write_next (m := m) hbound.1 new
  obtain ⟨m₂, hm₂, hnext₂, hprev₂, hsame₂⟩ := write_prev (m := m₁) hbound.1 new
  have hsame := hsame₁.trans hsame₂
  refine ⟨{ m₂ with head := new }, ?_, ?_, rfl, ?_, hsame.pool, hsame.fresh, hsame.value,
    hsame.matchCount⟩
  · rw [linkRecord, if_pos hhead]
    simp only [hm₁, hm₂, Option.bind_eq_bind, Option.bind_some]
  · show Ring m₂.nextOf m₂.prevOf new [new]
    rw [hnext₂, hnext₁, hprev₂, hprev₁]
    exact .single
  · intro a ha
    refine ⟨?_, ?_⟩
    · show m₂.nextOf a = _
      rw [hnext₂, hnext₁, Function.update_of_ne ha]
    · show m₂.prevOf a = _
      rw [hprev₂, Function.update_of_ne ha, hprev₁]

/-- A further record of a line. -/
theorem linkRecord_next (h : Holds m live pool) (hhead : m.head ≠ 0)
    (hfresh : new ∉ live ++ pool) (hbound : new ≠ 0 ∧ new < m.fresh) :
    ∃ m', m.linkRecord new = some m' ∧ Ring m'.nextOf m'.prevOf m'.head (live ++ [new]) ∧
      m'.head = m.head ∧
      (∀ a ∈ pool, m'.nextOf a = m.nextOf a ∧ m'.prevOf a = m.prevOf a) ∧ m'.pool = m.pool ∧
      m'.fresh = m.fresh ∧ m'.value = m.value ∧ m'.matchCount = m.matchCount := by
  obtain ⟨hlive, -, hapart⟩ := List.nodup_append.mp h.nodup
  rw [List.mem_append, not_or] at hfresh
  have hring := h.atHead.ring hhead
  obtain ⟨z, hz⟩ : ∃ z, m.prevOf m.head = z := ⟨_, rfl⟩
  have hzmem : z ∈ live := hz ▸ hring.prev_mem
  have hznew : z ≠ new := fun heq => hfresh.1 (heq ▸ hzmem)
  have hheadnew : m.head ≠ new := fun heq => hfresh.1 (heq ▸ hring.head_mem)
  have hz0 : z ≠ 0 := (h.bound z (List.mem_append_left _ hzmem)).1
  obtain ⟨m₁, hm₁, hnext₁, hprev₁, hsame₁⟩ := write_next (m := m) hbound.1 m.head
  obtain ⟨m₂, hm₂, hnext₂, hprev₂, hsame₂⟩ := write_prev (m := m₁) hbound.1 z
  obtain ⟨m₃, hm₃, hnext₃, hprev₃, hsame₃⟩ := write_next (m := m₂) hz0 new
  obtain ⟨m₄, hm₄, hnext₄, hprev₄, hsame₄⟩ := write_prev (m := m₃) hhead new
  have hsame := ((hsame₁.trans hsame₂).trans hsame₃).trans hsame₄
  have hnext : m₄.nextOf = Function.update (Function.update m.nextOf new m.head) z new := by
    rw [hnext₄, hnext₃, hnext₂, hnext₁]
  have hprev : m₄.prevOf = Function.update (Function.update m.prevOf new z) m.head new := by
    rw [hprev₄, hprev₃, hprev₂, hprev₁]
  refine ⟨m₄, ?_, ?_, hsame.head, ?_, hsame.pool, hsame.fresh, hsame.value, hsame.matchCount⟩
  · have hcells₁ : (m₁.cells m₁.head).prev = z := by
      show m₁.prevOf m₁.head = z
      rw [hprev₁, hsame₁.head, hz]
    have hcells₂ : (m₂.cells m₂.head).prev = z := by
      show m₂.prevOf m₂.head = z
      rw [hprev₂, hsame₂.head, hsame₁.head, Function.update_of_ne hheadnew, hprev₁, hz]
    have hhead₃ : m₃.head = m.head := ((hsame₁.trans hsame₂).trans hsame₃).head
    rw [linkRecord, if_neg hhead]
    simp only [hm₁, Option.bind_eq_bind, Option.bind_some, hcells₁, hm₂, hcells₂, hm₃, hhead₃, hm₄]
  · rw [hsame.head, hnext, hprev, ← hz]
    exact hring.concat hlive hfresh.1
  · intro a ha
    have hanew : a ≠ new := fun heq => hfresh.2 (heq ▸ ha)
    have haz : a ≠ z := fun heq => hapart z hzmem a ha heq.symm
    have hah : a ≠ m.head := fun heq => hapart _ hring.head_mem a ha heq.symm
    rw [hnext, hprev, Function.update_of_ne haz, Function.update_of_ne hanew,
      Function.update_of_ne hah, Function.update_of_ne hanew]
    exact ⟨rfl, rfl⟩

/-- A record is linked in behind the others. -/
theorem linkRecord_at (h : Holds m live pool) (hfresh : new ∉ live ++ pool)
    (hbound : new ≠ 0 ∧ new < m.fresh) :
    ∃ m', m.linkRecord new = some m' ∧ Holds m' (live ++ [new]) pool ∧ m'.value = m.value ∧
      m'.fresh = m.fresh ∧ m'.matchCount = m.matchCount := by
  obtain ⟨hperm, hnodup⟩ := h.new_nodup hfresh
  have hbounds : ∀ a ∈ live ++ [new] ++ pool, a ≠ 0 ∧ a < m.fresh := by
    intro a ha
    rcases List.mem_cons.mp (hperm.subset ha) with rfl | ha
    · exact hbound
    · exact h.bound a ha
  by_cases hhead : m.head = 0
  · have hnil := h.atHead.eq_nil hhead
    subst hnil
    obtain ⟨m', hlink, hring, hnew, hsame, hpool, hnext, hrest⟩ := linkRecord_first h hbound
    refine ⟨m', hlink, ⟨.inr ⟨hnew ▸ hbound.1, hring⟩, ?_, hnodup, hnext ▸ hbounds,
      hnext ▸ h.fresh⟩, hrest.1, hnext, hrest.2⟩
    have hne : ∀ x ∈ pool, x ≠ new := fun x hx heq => hfresh (heq ▸ hx)
    rw [hpool]
    exact h.atPool.congr (fun x hx => (hsame x (hne x hx)).1) fun x hx => (hsame x (hne x hx)).2
  · obtain ⟨m', hlink, hring, hnew, hsame, hpool, hnext, hrest⟩ :=
      linkRecord_next h hhead hfresh hbound
    refine ⟨m', hlink, ⟨.inr ⟨hnew ▸ hhead, hring⟩, ?_, hnodup, hnext ▸ hbounds,
      hnext ▸ h.fresh⟩, hrest.1, hnext, hrest.2⟩
    rw [hpool]
    exact h.atPool.congr (fun x hx => (hsame x hx).1) fun x hx => (hsame x hx).2

/-- `new_match_record` adds a record to those of the line. -/
theorem newMatchRecord_at {beg stop : Nat} (h : Holds m live pool) (hbeg : beg ≠ 0)
    (hstop : stop ≠ 0) :
    ∃ new m' pool', m.newMatchRecord beg stop = some m' ∧ Holds m' (live ++ [new]) pool' ∧
      (live ++ [new]).map m'.value = live.map m.value ++ [⟨beg, stop⟩] ∧
      m'.matchCount = m.matchCount + 1 ∧
      ((pool = [] ∧ pool' = [] ∧ new = m.fresh ∧ m'.fresh = m.fresh + 1) ∨
        (pool = new :: pool' ∧ m'.fresh = m.fresh)) := by
  obtain ⟨new, m₁, pool', htake, htakes⟩ := takeRecord_at h
  obtain ⟨m₂, hlink, hholds, hvalue, hfresh, hcount⟩ :=
    linkRecord_at htakes.holds htakes.fresh htakes.bound
  have hnew : new ∉ live := fun hin => htakes.fresh (List.mem_append_left _ hin)
  obtain ⟨f, hf⟩ : ∃ f : RecordCell → RecordCell, f = fun x => { x with beg := beg, stop := stop } :=
    ⟨_, rfl⟩
  obtain ⟨m₃, hm₃⟩ : ∃ m₃ : MatchRecordObj, m₃ =
    { m₂ with cells := Function.update m₂.cells new (f (m₂.cells new)) } := ⟨_, rfl⟩
  have hwrite : m₂.write new f = some m₃ := by
    rw [write, if_neg htakes.bound.1, hm₃]
  have hnext : m₃.nextOf = m₂.nextOf := by
    rw [hm₃]
    exact update_cells_same m₂ new f RecordCell.next fun _ => by rw [hf]
  have hprev : m₃.prevOf = m₂.prevOf := by
    rw [hm₃]
    exact update_cells_same m₂ new f RecordCell.prev fun _ => by rw [hf]
  have hvalue₃ : m₃.value = Function.update m₂.value new ⟨beg, stop⟩ := by
    rw [hm₃, show (⟨beg, stop⟩ : MatchRecord) =
      (fun x : RecordCell => (⟨x.beg, x.stop⟩ : MatchRecord)) (f (m₂.cells new)) by rw [hf]]
    exact update_cells m₂ new f fun x => (⟨x.beg, x.stop⟩ : MatchRecord)
  have hholds₃ : Holds m₃ (live ++ [new]) pool' := by
    refine ⟨?_, ?_, hholds.nodup, ?_, ?_⟩
    · have hlisted : m₃.Listed m₂.head (live ++ [new]) :=
        hholds.atHead.congr (fun x _ => congrFun hnext x) fun x _ => congrFun hprev x
      rw [show m₃.head = m₂.head by rw [hm₃]]
      exact hlisted
    · have hlisted : m₃.Listed m₂.pool pool' :=
        hholds.atPool.congr (fun x _ => congrFun hnext x) fun x _ => congrFun hprev x
      rw [show m₃.pool = m₂.pool by rw [hm₃]]
      exact hlisted
    · rw [show m₃.fresh = m₂.fresh by rw [hm₃]]
      exact hholds.bound
    · rw [show m₃.fresh = m₂.fresh by rw [hm₃]]
      exact hholds.fresh
  refine ⟨new, { m₃ with matchCount := m₃.matchCount + 1 }, pool', ?_,
    ⟨hholds₃.atHead, hholds₃.atPool, hholds₃.nodup, hholds₃.bound, hholds₃.fresh⟩, ?_, ?_, ?_⟩
  · rw [newMatchRecord, if_neg (by simp [hbeg, hstop])]
    rw [hf] at hwrite
    simp only [htake, Option.bind_eq_bind, Option.bind_some, hlink, hwrite]
  · show (live ++ [new]).map m₃.value = _
    rw [List.map_append, List.map_singleton, hvalue₃, Function.update_self]
    have hold : live.map (Function.update m₂.value new ⟨beg, stop⟩) = live.map m.value := by
      refine List.map_congr_left fun a ha => ?_
      have hanew : a ≠ new := fun heq => hnew (heq ▸ ha)
      rw [Function.update_of_ne hanew, hvalue, htakes.value]
    rw [hold]
  · show m₃.matchCount + 1 = _
    rw [hm₃]
    show m₂.matchCount + 1 = _
    rw [hcount, htakes.matchCount]
  · show _ ∨ _ ∧ m₃.fresh = m.fresh
    have hfresh₃ : m₃.fresh = m₁.fresh := by
      rw [hm₃]
      exact hfresh
    rw [hfresh₃]
    exact htakes.source

/-- The two rings are connected, also if the first one is a single record. -/
theorem splice_at (hholds : Holds m live pool) (hhead : m.head ≠ 0) (hpool : m.pool ≠ 0) :
    ∃ m', m.splice = some m' ∧ Ring m'.nextOf m'.prevOf m'.pool (pool ++ live) ∧
      m'.pool = m.pool ∧ m'.fresh = m.fresh := by
  obtain ⟨hlive, -, hapart⟩ := List.nodup_append.mp hholds.nodup
  have hringL := hholds.atHead.ring hhead
  have hringP := hholds.atPool.ring hpool
  have hspliced := hringL.splice hringP hholds.nodup
  obtain ⟨z, hz⟩ : ∃ z, m.prevOf m.head = z := ⟨_, rfl⟩
  obtain ⟨w, hw⟩ : ∃ w, m.prevOf m.pool = w := ⟨_, rfl⟩
  have hzmem : z ∈ live := hz ▸ hringL.prev_mem
  have hwmem : w ∈ pool := hw ▸ hringP.prev_mem
  have hz0 : z ≠ 0 := (hholds.bound z (List.mem_append_left _ hzmem)).1
  have hw0 : w ≠ 0 := (hholds.bound w (List.mem_append_right _ hwmem)).1
  have hpoolhead : m.pool ≠ m.head := fun heq =>
    hapart _ hringL.head_mem _ hringP.head_mem heq.symm
  rw [hz, hw] at hspliced
  by_cases hself : (m.cells m.head).next = m.head
  · obtain ⟨t, rfl⟩ := hringL.exists_cons
    have hnil : t = [] := (hringL.next_eq_head_iff hlive).mp hself
    subst hnil
    have hzhead : z = m.head := by simpa using hzmem
    have hwhead : w ≠ m.head := fun heq => hapart _ hringL.head_mem w hwmem heq.symm
    obtain ⟨m₁, hm₁, hnext₁, hprev₁, hsame₁⟩ := write_prev (m := m) hhead w
    obtain ⟨m₂, hm₂, hnext₂, hprev₂, hsame₂⟩ := write_next (m := m₁) hw0 m.head
    obtain ⟨m₃, hm₃, hnext₃, hprev₃, hsame₃⟩ := write_next (m := m₂) hhead m.pool
    obtain ⟨m₄, hm₄, hnext₄, hprev₄, hsame₄⟩ := write_prev (m := m₃) hpool m.head
    have hsame := ((hsame₁.trans hsame₂).trans hsame₃).trans hsame₄
    have hnext : m₄.nextOf = Function.update (Function.update m.nextOf z m.pool) w m.head := by
      rw [hnext₄, hnext₃, hnext₂, hnext₁, hzhead, Function.update_comm hwhead]
    have hprev : m₄.prevOf = Function.update (Function.update m.prevOf m.head w) m.pool z := by
      rw [hprev₄, hprev₃, hprev₂, hprev₁, hzhead]
    refine ⟨m₄, ?_, ?_, hsame.pool, hsame.fresh⟩
    · have hcells : (m.cells m.pool).prev = w := hw
      have hcells₁ : (m₁.cells m.pool).prev = w := by
        show m₁.prevOf m.pool = w
        rw [hprev₁, Function.update_of_ne hpoolhead, hw]
      simp only [splice, if_pos hself, hcells, hm₁, Option.bind_eq_bind, Option.bind_some,
        hcells₁, hm₂, hm₃, hm₄]
    · rw [hsame.pool, hnext, hprev]
      exact hspliced
  · obtain ⟨m₁, hm₁, hnext₁, hprev₁, hsame₁⟩ := write_next (m := m) hz0 m.pool
    obtain ⟨m₂, hm₂, hnext₂, hprev₂, hsame₂⟩ := write_next (m := m₁) hw0 m.head
    obtain ⟨m₃, hm₃, hnext₃, hprev₃, hsame₃⟩ := write_prev (m := m₂) hhead w
    obtain ⟨m₄, hm₄, hnext₄, hprev₄, hsame₄⟩ := write_prev (m := m₃) hpool z
    have hsame := ((hsame₁.trans hsame₂).trans hsame₃).trans hsame₄
    have hnext : m₄.nextOf = Function.update (Function.update m.nextOf z m.pool) w m.head := by
      rw [hnext₄, hnext₃, hnext₂, hnext₁]
    have hprev : m₄.prevOf = Function.update (Function.update m.prevOf m.head w) m.pool z := by
      rw [hprev₄, hprev₃, hprev₂, hprev₁]
    refine ⟨m₄, ?_, ?_, hsame.pool, hsame.fresh⟩
    · have hcells : (m.cells m.head).prev = z := hz
      have hcells₁ : (m₁.cells m.pool).prev = w := by
        show m₁.prevOf m.pool = w
        rw [hprev₁, hw]
      have hcells₂ : (m₂.cells m.pool).prev = w := by
        show m₂.prevOf m.pool = w
        rw [hprev₂, hprev₁, hw]
      simp only [splice, if_neg hself, hcells, hm₁, Option.bind_eq_bind, Option.bind_some,
        hcells₁, hm₂, hcells₂, hm₃, hm₄]
    · rw [hsame.pool, hnext, hprev]
      exact hspliced

/-- `match_record_clear` hands all records over to the pool. -/
theorem matchRecordClear_at (h : Holds m live pool) :
    ∃ m' pool', m.matchRecordClear = some m' ∧ Holds m' [] pool' ∧
      pool'.Perm (pool ++ live) ∧ m'.fresh = m.fresh ∧
      (m.matchCount = live.length → m'.matchCount = 0) := by
  have hnodup : (pool ++ live).Nodup := List.nodup_append_comm.mp h.nodup
  have hbound : ∀ a ∈ pool ++ live, a ≠ 0 ∧ a < m.fresh :=
    fun a ha => h.bound a (List.perm_append_comm.subset ha)
  by_cases hhead : m.head = 0
  · have hnil := h.atHead.eq_nil hhead
    subst hnil
    exact ⟨m, pool, by rw [matchRecordClear, if_pos hhead], h, by simp, rfl, id⟩
  by_cases hpool : m.pool = 0
  · have hnil := h.atPool.eq_nil hpool
    subst hnil
    refine ⟨{ m with pool := m.head, head := 0, matchCount := 0 }, live, ?_, ⟨.inl ⟨rfl, rfl⟩,
      h.atHead, by simpa using hnodup, by simpa using hbound, h.fresh⟩, by simp, rfl, fun _ => rfl⟩
    simp only [matchRecordClear, if_neg hhead, if_pos hpool, Option.bind_eq_bind, Option.bind_some]
  · obtain ⟨m', hsplice, hring, heq, hfresh⟩ := splice_at h hhead hpool
    refine ⟨{ m' with head := 0, matchCount := 0 }, pool ++ live, ?_, ⟨.inl ⟨rfl, rfl⟩,
      .inr ⟨heq ▸ hpool, hring⟩, by simpa using hnodup, ?_, hfresh ▸ h.fresh⟩, .refl _, hfresh,
      fun _ => rfl⟩
    · simp only [matchRecordClear, if_neg hhead, if_neg hpool, hsplice, Option.bind_eq_bind,
        Option.bind_some]
    · rw [List.nil_append]
      exact hfresh ▸ hbound

end MatchRecordObj

namespace BMMatches

variable {s : BMMatches} {live pool : List Nat} {j : Nat}

/-- The records of a line are in memory and the next one to be read is the one with index `j`;
behind the last record comes `NULL`, and then the first one again. -/
def Reads (s : BMMatches) (l : List MatchRecord) (j : Nat) : Prop :=
  ∃ live pool, s.recorded.Holds live pool ∧ l = live.map s.recorded.value ∧
    ((j = 0 ∧ s.iter = 0) ∨ ∃ i, j = i + 1 ∧ live[i]? = some s.iter)

/-- Nothing is recorded. -/
def Idle (s : BMMatches) : Prop := s.Reads [] 0

/-- The records of a line are added in order. -/
theorem recordAll_at {rs : List MatchRecord} (hrs : ∀ r ∈ rs, r.beg ≠ 0 ∧ r.stop ≠ 0)
    (h : s.recorded.Holds live pool) :
    ∃ s' live' pool', s.recordAll rs = some s' ∧ s'.recorded.Holds live' pool' ∧
      live'.map s'.recorded.value = live.map s.recorded.value ++ rs ∧ s'.iter = s.iter := by
  induction rs generalizing s live pool with
  | nil => exact ⟨s, live, pool, rfl, h, by simp, rfl⟩
  | cons r rs ih =>
    obtain ⟨hbeg, hstop⟩ := hrs r List.mem_cons_self
    obtain ⟨new, m', pool₁, hm', h₁, hvalue, -, -⟩ := MatchRecordObj.newMatchRecord_at h hbeg hstop
    have hrest : ∀ r ∈ rs, r.beg ≠ 0 ∧ r.stop ≠ 0 := fun r hr =>
      hrs r (List.mem_cons_of_mem _ hr)
    obtain ⟨s', live', pool', hs', h', hvalue', hiter⟩ :=
      ih (s := { s with recorded := m' }) hrest h₁
    refine ⟨s', live', pool', ?_, h', ?_, hiter⟩
    · simp only [recordAll, hm', Option.bind_eq_bind, Option.bind_some, hs']
    · rw [hvalue', hvalue]
      simp

/-- `bm_next_match` reads the next record. -/
theorem bmNextMatch_at {l : List MatchRecord} (h : s.Reads l j) :
    (if s.bmNextMatch.1 = 0 then none else some (s.recorded.value s.bmNextMatch.1)) = l[j]? ∧
      s.bmNextMatch.2.Reads l ((j + 1) % (l.length + 1)) ∧
      s.bmNextMatch.2.recorded = s.recorded := by
  obtain ⟨live, pool, hholds, rfl, hcursor⟩ := h
  by_cases hhead : s.recorded.head = 0
  · have hnil := hholds.atHead.eq_nil hhead
    subst hnil
    have hj : j = 0 ∧ s.iter = 0 := hcursor.resolve_right (by simp)
    have hnext : s.bmNextMatch = (0, s) := by
      rw [bmNextMatch]
      exact if_neg fun hne => hne hhead
    rw [hnext, hj.1]
    exact ⟨rfl, ⟨[], pool, hholds, rfl, .inl ⟨by simp, hj.2⟩⟩, rfl⟩
  have hring := hholds.atHead.ring hhead
  have hlive := (List.nodup_append.mp hholds.nodup).1
  have hne : ∀ a ∈ live, a ≠ 0 := fun a ha => (hholds.bound a (List.mem_append_left _ ha)).1
  rw [List.length_map, List.getElem?_map]
  rcases hcursor with ⟨rfl, hiter⟩ | ⟨i, rfl, hiter⟩
  · have hnext : s.bmNextMatch = (s.recorded.head, { s with iter := s.recorded.head }) := by
      simp only [bmNextMatch, ne_eq, hhead, not_false_eq_true, if_true, hiter]
    obtain ⟨t, rfl⟩ := hring.exists_cons
    rw [hnext, if_neg hhead]
    refine ⟨rfl, ⟨_, pool, hholds, rfl, .inr ⟨0, ?_, rfl⟩⟩, rfl⟩
    rw [List.length_cons, Nat.mod_eq_of_lt (by omega)]
  · obtain ⟨hi, hget⟩ := List.getElem?_eq_some_iff.mp hiter
    have hiter0 : s.iter ≠ 0 := hget ▸ hne _ (List.getElem_mem hi)
    have hsplit : live = live.take i ++ s.iter :: live.drop (i + 1) := by
      rw [← hget, ← List.drop_eq_getElem_cons hi, List.take_append_drop]
    have hlink : (s.recorded.cells s.iter).next = (live.drop (i + 1)).headD s.recorded.head := by
      have hring' : Ring s.recorded.nextOf s.recorded.prevOf s.recorded.head
          (live.take i ++ s.iter :: live.drop (i + 1)) := hsplit ▸ hring
      exact hring'.next_of_split
    by_cases hlast : i + 1 < live.length
    · rw [List.drop_eq_getElem_cons hlast, List.headD_cons] at hlink
      have hnothead : live[i + 1] ≠ s.recorded.head := by
        obtain ⟨t, rfl⟩ := hring.exists_cons
        rw [List.getElem_cons_succ]
        exact fun heq => (List.nodup_cons.mp hlive).1 (heq ▸ List.getElem_mem _)
      have hnext : s.bmNextMatch = (live[i + 1], { s with iter := live[i + 1] }) := by
        simp only [bmNextMatch, ne_eq, hhead, not_false_eq_true, if_true, hiter0, if_false, hlink,
          hnothead]
      rw [hnext, if_neg (hne _ (List.getElem_mem hlast)), List.getElem?_eq_getElem hlast]
      refine ⟨rfl, ⟨live, pool, hholds, rfl, .inr ⟨i + 1, ?_, List.getElem?_eq_getElem hlast⟩⟩, rfl⟩
      rw [Nat.mod_eq_of_lt (by omega)]
    · have hlength : live.length = i + 1 := by omega
      rw [List.drop_eq_nil_of_le (by omega), List.headD_nil] at hlink
      have hnext : s.bmNextMatch = (0, { s with iter := 0 }) := by
        simp only [bmNextMatch, ne_eq, hhead, not_false_eq_true, if_true, hiter0, if_false, hlink]
      rw [hnext, if_pos rfl, List.getElem?_eq_none (by omega)]
      refine ⟨rfl, ⟨live, pool, hholds, rfl, .inl ⟨?_, rfl⟩⟩, rfl⟩
      rw [hlength, Nat.mod_self]

/-- `bm_clear_matches` forgets the records and the cursor. -/
theorem bmClearMatches_at {l : List MatchRecord} (h : s.Reads l j) :
    ∃ s', s.bmClearMatches = some s' ∧ s'.Idle := by
  obtain ⟨live, pool, hholds, -, -⟩ := h
  obtain ⟨m', pool', hclear, hholds', -⟩ := MatchRecordObj.matchRecordClear_at hholds
  refine ⟨{ recorded := m', iter := 0 }, ?_, [], pool', hholds', rfl, .inl ⟨rfl, rfl⟩⟩
  simp only [bmClearMatches, hclear, Option.bind_eq_bind, Option.bind_some]

/-- A search of a line makes the line's records readable from the first one on. -/
theorem Idle.recordAll {rs : List MatchRecord} (h : s.Idle)
    (hrs : ∀ r ∈ rs, r.beg ≠ 0 ∧ r.stop ≠ 0) : ∃ s', s.recordAll rs = some s' ∧ s'.Reads rs 0 := by
  obtain ⟨live, pool, hholds, hnil, hcursor⟩ := h
  have hlive : live = [] := List.map_eq_nil_iff.mp hnil.symm
  subst hlive
  have hiter : s.iter = 0 := (hcursor.resolve_right (by simp)).2
  obtain ⟨s', live', pool', hrecord, hholds', hvalue, hsame⟩ := recordAll_at hrs hholds
  exact ⟨s', hrecord, live', pool', hholds', by simpa using hvalue.symm,
    .inl ⟨rfl, hsame.trans hiter⟩⟩

/-- A new object is idle. -/
theorem idle_init : BMMatches.Idle {} :=
  ⟨[], [], ⟨.inl ⟨rfl, rfl⟩, .inl ⟨rfl, rfl⟩, List.nodup_nil, by simp, Nat.one_pos⟩, rfl,
    .inl ⟨rfl, rfl⟩⟩

end BMMatches

end Recognizer
