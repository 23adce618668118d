import Recognizer.Prescan.RecordList

/-!
# Histories of the match records

Any sequence of `new_match_record` and `match_record_clear` leaves two rings that share
every record ever allocated: the records since the last clearing in order, and the pool.
-/

namespace Recognizer

namespace MatchRecordObj

/-- A call on a `MatchRecordObj`. -/
inductive Call where
  | newMatchRecord (beg stop : Nat)
  | matchRecordClear

/-- A `MatchRecordObj` with the pairs added since it was cleared last. -/
structure History where
  obj : MatchRecordObj := {}
  added : List MatchRecord := []

/-- One call; `new_match_record` ignores a pair with a `NULL`. -/
def History.step (s : History) : Call → Option History
  | .newMatchRecord beg stop => do
    let obj ← s.obj.newMatchRecord beg stop
    some ⟨obj, if beg = 0 ∨ stop = 0 then s.added else s.added ++ [⟨beg, stop⟩]⟩
  | .matchRecordClear => do
    let obj ← s.obj.matchRecordClear
    some ⟨obj, []⟩

/-- A sequence of calls. -/
def History.run (s : History) : List Call → Option History
  | [] => some s
  | call :: calls => (s.step call).bind fun s => s.run calls

/-- The pairs met when `next` is followed from a record until it comes back to the head. -/
def walkFrom (m : MatchRecordObj) : Nat → Nat → Option (List MatchRecord)
  | 0, _ => none
  | n + 1, a =>
    if m.nextOf a = m.head then some [m.value a]
    else (walkFrom m n (m.nextOf a)).map (m.value a :: ·)

/-- The pairs met on the way around the ring of the head. -/
def walk (m : MatchRecordObj) : Option (List MatchRecord) :=
  if m.head = 0 then some [] else m.walkFrom m.fresh m.head

variable {m m' : MatchRecordObj} {live pool l : List Nat} {a : Nat}

/-- The records of a ring below a bound are fewer than the bound. -/
theorem Holds.live_length (h : Holds m live pool) : live.length < m.fresh := by
  have hzero : 0 ∉ live := fun hin => (h.bound 0 (List.mem_append_left _ hin)).1 rfl
  exact length_lt_of_nodup (List.nodup_append.mp h.nodup).1 hzero
    (fun x hx => (h.bound x (List.mem_append_left _ hx)).2) h.fresh

/-- The walk along a chain back to the head lists its records. -/
theorem walkFrom_chain {n : Nat} (h : Chain m.nextOf a l m.head) (hl : l ≠ [])
    (hhead : m.head ∉ l.tail) (hn : l.length ≤ n) :
    m.walkFrom n a = some (l.map m.value) := by
  induction l generalizing a n with
  | nil => exact absurd rfl hl
  | cons x l ih =>
    obtain ⟨rfl, hrest⟩ := h
    obtain ⟨k, rfl⟩ : ∃ k, n = k + 1 := ⟨n - 1, by rw [List.length_cons] at hn; omega⟩
    rw [List.length_cons] at hn
    cases l with
    | nil =>
      have hend : m.nextOf a = m.head := hrest
      rw [walkFrom, if_pos hend]
      rfl
    | cons y l =>
      have hnext : m.nextOf a = y := hrest.1
      have hne : m.nextOf a ≠ m.head := fun heq =>
        hhead (by rw [List.tail_cons, ← heq, hnext]; exact List.mem_cons_self)
      have htail : m.head ∉ (y :: l).tail := fun hin =>
        hhead (List.mem_of_mem_tail hin)
      rw [walkFrom, if_neg hne, ih hrest (List.cons_ne_nil y l) htail (by omega)]
      rfl

/-- The walk around the ring of the head lists the records of the line. -/
theorem Holds.walk (h : Holds m live pool) : m.walk = some (live.map m.value) := by
  by_cases hhead : m.head = 0
  · rw [h.atHead.eq_nil hhead, MatchRecordObj.walk, if_pos hhead]
    rfl
  · have hring := h.atHead.ring hhead
    have hlength := h.live_length
    have hnodup := (List.nodup_append.mp h.nodup).1
    obtain ⟨t, rfl⟩ := hring.exists_cons
    rw [MatchRecordObj.walk, if_neg hhead]
    refine walkFrom_chain hring.around (List.cons_ne_nil _ t) ?_ (Nat.le_of_lt hlength)
    exact (List.nodup_cons.mp hnodup).1

/-- The two rings share all records, and the first one has the pairs added last. -/
structure Valid (s : History) (live pool : List Nat) : Prop where
  holds : Holds s.obj live pool
  all : ∀ a, a ≠ 0 → a < s.obj.fresh → a ∈ live ++ pool
  value : live.map s.obj.value = s.added
  matchCount : s.obj.matchCount = live.length

/-- There are no records at first. -/
theorem valid_init : Valid {} [] [] where
  holds := ⟨.inl ⟨rfl, rfl⟩, .inl ⟨rfl, rfl⟩, List.nodup_nil, by simp, Nat.one_pos⟩
  all a ha hlt := absurd (Nat.lt_one_iff.mp hlt) ha
  value := rfl
  matchCount := rfl

/-- `new_match_record` allocates only when the pool is empty. -/
theorem newMatchRecord_fresh {beg stop : Nat} (h : Holds m live pool)
    (hnew : m.newMatchRecord beg stop = some m') (hfresh : m'.fresh ≠ m.fresh) : pool = [] := by
  by_cases hnull : beg = 0 ∨ stop = 0
  · rw [newMatchRecord, if_pos hnull, Option.some.injEq] at hnew
    exact absurd (hnew ▸ rfl) hfresh
  · obtain ⟨hbeg, hstop⟩ := not_or.mp hnull
    obtain ⟨new, m₁, pool', hm₁, -, -, -, hsource⟩ := newMatchRecord_at h hbeg hstop
    obtain rfl : m₁ = m' := Option.some.inj (hm₁.symm.trans hnew)
    rcases hsource with ⟨hnil, -⟩ | ⟨-, hsame⟩
    · exact hnil
    · exact absurd hsame hfresh

/-- Every call keeps the records valid. -/
theorem Valid.step {s : History} (h : Valid s live pool) (call : Call) :
    ∃ s' live' pool', s.step call = some s' ∧ Valid s' live' pool' := by
  cases call with
  | newMatchRecord beg stop =>
    by_cases hnull : beg = 0 ∨ stop = 0
    · have hsame : s.obj.newMatchRecord beg stop = some s.obj := by
        rw [newMatchRecord, if_pos hnull]
      refine ⟨s, live, pool, ?_, h⟩
      simp only [History.step, hsame, Option.bind_eq_bind, Option.bind_some, if_pos hnull]
    · obtain ⟨hbeg, hstop⟩ := not_or.mp hnull
      obtain ⟨new, m', pool', hnew, hholds, hvalue, hcount, hsource⟩ :=
        newMatchRecord_at h.holds hbeg hstop
      refine ⟨⟨m', s.added ++ [⟨beg, stop⟩]⟩, live ++ [new], pool', ?_, hholds, ?_, ?_, ?_⟩
      · simp only [History.step, hnew, Option.bind_eq_bind, Option.bind_some, if_neg hnull]
      · intro a ha hlt
        rcases hsource with ⟨rfl, rfl, rfl, hfresh⟩ | ⟨rfl, hfresh⟩
        · have hlt : a < s.obj.fresh + 1 := hfresh ▸ hlt
          by_cases hnewest : a = s.obj.fresh
          · simp [hnewest]
          · have hold := h.all a ha (by omega)
            simp only [List.append_nil] at hold
            simp [hold]
        · have hold := h.all a ha (hfresh ▸ hlt)
          rw [List.append_assoc]
          exact hold
      · show (live ++ [new]).map m'.value = _
        rw [hvalue, h.value]
      · show m'.matchCount = _
        rw [hcount, h.matchCount, List.length_append, List.length_singleton]
        rfl
  | matchRecordClear =>
    obtain ⟨m', pool', hclear, hholds, hperm, hfresh, hcount⟩ := matchRecordClear_at h.holds
    refine ⟨⟨m', []⟩, [], pool', ?_, hholds, ?_, rfl, hcount h.matchCount⟩
    · simp only [History.step, hclear, Option.bind_eq_bind, Option.bind_some]
    · intro a ha hlt
      rw [List.nil_append]
      exact hperm.symm.subset (List.perm_append_comm.subset (h.all a ha (hfresh ▸ hlt)))

/-- Every sequence of calls keeps the records valid. -/
theorem Valid.run {s : History} (h : Valid s live pool) (calls : List Call) :
    ∃ s' live' pool', s.run calls = some s' ∧ Valid s' live' pool' := by
  induction calls generalizing s live pool with
  | nil => exact ⟨s, live, pool, rfl, h⟩
  | cons call calls ih =>
    obtain ⟨s₁, live₁, pool₁, hstep, h₁⟩ := h.step call
    obtain ⟨s', live', pool', hrun, h'⟩ := ih h₁
    exact ⟨s', live', pool', by rw [History.run, hstep, Option.bind_some, hrun], h'⟩

/-- After any calls the head and the pool are disjoint rings, linked in both directions,
of all records ever allocated; the walk around the head meets the pairs added since the last
clearing, the counter is their number, and memory is allocated only for an empty pool. -/
theorem run_rings (calls : List Call) :
    ∃ s live pool, History.run {} calls = some s ∧ s.obj.Listed s.obj.head live ∧
      s.obj.Listed s.obj.pool pool ∧ (live ++ pool).Nodup ∧
      (∀ a, a ∈ live ++ pool ↔ a ≠ 0 ∧ a < s.obj.fresh) ∧ s.obj.walk = some s.added ∧
      s.obj.matchCount = s.added.length ∧
      ∀ beg stop m', s.obj.newMatchRecord beg stop = some m' → m'.fresh ≠ s.obj.fresh →
        s.obj.pool = 0 := by
  obtain ⟨s, live, pool, hrun, h⟩ := valid_init.run calls
  refine ⟨s, live, pool, hrun, h.holds.atHead, h.holds.atPool, h.holds.nodup, ?_, ?_, ?_, ?_⟩
  · exact fun a => ⟨fun hin => h.holds.bound a hin, fun ha => h.all a ha.1 ha.2⟩
  · rw [h.holds.walk, h.value]
  · rw [h.matchCount, ← h.value, List.length_map]
  · intro beg stop m' hnew hfresh
    have hnil := newMatchRecord_fresh h.holds hnew hfresh
    by_contra hpool
    obtain ⟨t, ht⟩ := (h.holds.atPool.ring hpool).exists_cons
    rw [hnil] at ht
    cases ht

end MatchRecordObj

end Recognizer
