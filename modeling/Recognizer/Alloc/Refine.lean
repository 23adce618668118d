import Recognizer.Alloc.FreeRing
import Recognizer.Parse.Fragment

/-!
# The list of free nodes

The parser's model keeps the free nodes in a list. It follows the rings of the memory under a
renaming of the addresses: a pool of the memory keeps its lower half unused behind an expansion,
and the list model has no addresses for it.
-/

namespace Recognizer

namespace NfaAlloc

open PoolMem

variable {c : NFACtrl} {m : PoolMem} {place place' : Addr → Nat} {live : Finset Addr} {n num : Nat}

/-- The list model and the memory agree under a renaming of the addresses in use. -/
structure Follows (c : NFACtrl) (m : PoolMem) (place : Addr → Nat) : Prop where
  ring : FreeRing m (c.alloc.free.map place)
  poolSize : (m.allocs m.alloc).poolSize = c.alloc.poolSize
  below : ∀ a : Nat, 0 < a → a < c.alloc.nextAddr → 0 < place a ∧ place a < m.nextNode
  inj : ∀ a b : Nat, 0 < a → a < c.alloc.nextAddr → 0 < b → b < c.alloc.nextAddr →
    place a = place b → a = b

/-- `nfa_alloc_init`. -/
theorem follows_init (hnum : 1 ≤ num) (hnode : 0 < m.nextNode) (hnext : 0 < m.nextAlloc) :
    Follows (c.allocInit num) (m.nfaAllocInit num) (fun a => m.nextNode + (a - 1)) := by
  obtain ⟨hring, hnode', hsize⟩ := freeRing_nfaAllocInit hnum hnode hnext
  have hfree : (c.allocInit num).alloc.free.map (fun a => m.nextNode + (a - 1)) =
      List.range' m.nextNode num := by
    apply List.ext_getElem
    · simp [NFACtrl.allocInit]
    · intro i hi hi'
      simp [NFACtrl.allocInit]
  have hnextAddr : (c.allocInit num).alloc.nextAddr = num + 1 := rfl
  refine ⟨hfree ▸ hring, hsize, fun a ha hlt => ?_, fun a b ha hlt hb hltb heq => ?_⟩
  · rw [hnextAddr] at hlt
    rw [hnode']
    omega
  · omega

/-- Addresses no pool has used yet are renamed to the upper half of the pool of an expansion. -/
def extended (c : NFACtrl) (m : PoolMem) (place : Addr → Nat) (a : Nat) : Nat :=
  if a < (c.alloc.nextAddr : Nat) then place a
  else m.nextNode + c.alloc.poolSize + (a - (c.alloc.nextAddr : Nat))

theorem extended_of_lt {a : Nat} (ha : a < c.alloc.nextAddr) : extended c m place a = place a :=
  if_pos ha

theorem extended_add (i : Nat) :
    extended c m place (c.alloc.nextAddr + i) = m.nextNode + c.alloc.poolSize + i := by
  unfold extended
  rw [if_neg (Nat.not_lt.mpr (Nat.le_add_right _ i)), Nat.add_sub_cancel_left]

/-- `nfa_alloc`, when nodes are left. -/
theorem Follows.nfaAlloc_cons (f : Follows c m place) {rest : List Addr}
    (hfree : c.alloc.free = n :: rest) :
    c.nfaAlloc.1 = n ∧ Follows c.nfaAlloc.2 m.nfaAlloc.2 place ∧
      place c.nfaAlloc.1 = m.nfaAlloc.1 := by
  have hrun : c.nfaAlloc = (n, { c with alloc := { c.alloc with free := rest } }) := by
    simp [NFACtrl.nfaAlloc, hfree]
  obtain ⟨n', ring', m', heq, hands⟩ := f.ring.nfaAlloc
  have hne : c.alloc.free.map place ≠ [] := by simp [hfree]
  have hoffered := hands.offered
  rw [offered, if_neg hne, hfree, List.map_cons] at hoffered
  obtain ⟨rfl, rfl⟩ := List.cons.inj hoffered
  have hnode : m'.nextNode = m.nextNode := by rw [hands.nextNode, if_neg hne]
  rw [hrun, heq]
  refine ⟨rfl, ⟨hands.free, ?_, fun a ha hlt => ?_, f.inj⟩, rfl⟩
  · rw [hands.poolSize, if_neg hne, f.poolSize]
  · rw [hnode]
    exact f.below a ha hlt

/-- `nfa_alloc`, when a pool is made. -/
theorem Follows.nfaAlloc_nil (f : Follows c m place) (ok : AllocOk c live)
    (hfree : c.alloc.free = []) :
    Follows c.nfaAlloc.2 m.nfaAlloc.2 (extended c m place) ∧
      extended c m place c.nfaAlloc.1 = m.nfaAlloc.1 := by
  have hpool := ok.pool
  obtain ⟨k, hk⟩ : ∃ k, c.alloc.poolSize = k + 1 := ⟨c.alloc.poolSize - 1, by omega⟩
  have hrun : c.nfaAlloc = (c.alloc.nextAddr, { c with
      alloc := ⟨List.range' (c.alloc.nextAddr + 1) k, 2 * c.alloc.poolSize,
        c.alloc.nextAddr + c.alloc.poolSize⟩ }) := by
    simp [NFACtrl.nfaAlloc, NFACtrl.allocExpand, hfree, hk, List.range'_succ]
  obtain ⟨n', ring', m', heq, hands⟩ := f.ring.nfaAlloc
  have hnil : c.alloc.free.map place = [] := by simp [hfree]
  have hoffered := hands.offered
  rw [offered, if_pos hnil, f.poolSize, hk, List.range'_succ] at hoffered
  obtain ⟨hn, hring⟩ := List.cons.inj hoffered
  have hplace : (List.range' (c.alloc.nextAddr + 1) k).map (extended c m place) = ring' := by
    rw [← hring, ← hk]
    apply List.ext_getElem
    · simp
    · intro i hi hi'
      rw [List.getElem_map, List.getElem_range', List.getElem_range', Nat.add_assoc, extended_add]
      omega
  have hnode : m'.nextNode = m.nextNode + 2 * c.alloc.poolSize := by
    rw [hands.nextNode, if_pos hnil, f.poolSize]
  have hstart : extended c m place (c.alloc.nextAddr + 0) =
      m.nextNode + c.alloc.poolSize + 0 := extended_add 0
  rw [hrun, heq]
  refine ⟨⟨hplace ▸ hands.free, ?_, fun a ha hlt => ?_, fun a b ha hlta hb hltb hab => ?_⟩, ?_⟩
  · rw [hands.poolSize, if_pos hnil, f.poolSize]
  · have hpos := f.ring.node
    have hlt' : a < c.alloc.nextAddr + c.alloc.poolSize := hlt
    rw [hnode, extended]
    split
    · next hold =>
      have := f.below a ha hold
      omega
    · omega
  · have hlta' : a < c.alloc.nextAddr + c.alloc.poolSize := hlta
    have hltb' : b < c.alloc.nextAddr + c.alloc.poolSize := hltb
    unfold extended at hab
    split at hab
    · next holda =>
      have := f.below a ha holda
      split at hab
      · next holdb => exact f.inj a b ha holda hb holdb hab
      · omega
    · split at hab
      · next holdb =>
        have := f.below b hb holdb
        omega
      · omega
  · rw [← hn, hk] at *
    exact hstart

/-- **`nfa_alloc`** hands out the same node. -/
theorem Follows.nfaAlloc (f : Follows c m place) (ok : AllocOk c live) :
    ∃ place', (∀ a : Nat, a < c.alloc.nextAddr → place' a = place a) ∧
      Follows c.nfaAlloc.2 m.nfaAlloc.2 place' ∧ place' c.nfaAlloc.1 = m.nfaAlloc.1 := by
  cases hfree : c.alloc.free with
  | nil => exact ⟨extended c m place, fun a ha => extended_of_lt ha, f.nfaAlloc_nil ok hfree⟩
  | cons n rest => exact ⟨place, fun a _ => rfl, (f.nfaAlloc_cons hfree).2⟩

theorem alloc_nfaDealloc (c : NFACtrl) (n : Addr) :
    (c.nfaDealloc n).alloc.poolSize = c.alloc.poolSize ∧
      (c.nfaDealloc n).alloc.nextAddr = c.alloc.nextAddr := by
  unfold NFACtrl.nfaDealloc
  split
  · exact ⟨rfl, rfl⟩
  · split
    · exact ⟨rfl, rfl⟩
    · exact ⟨rfl, rfl⟩

/-- **`nfa_dealloc`** takes the same node back. -/
theorem Follows.nfaDealloc (f : Follows c m place) (ok : AllocOk c live) (hn : n ∈ live) :
    Follows (c.nfaDealloc n) (m.nfaDealloc m.alloc (place n)) place := by
  obtain ⟨hpos, hlt⟩ := ok.bound n hn
  obtain ⟨hpos', hlt'⟩ := f.below n hpos hlt
  have hout : place n ∉ c.alloc.free.map place := by
    intro hin
    obtain ⟨a, ha, heq⟩ := List.mem_map.mp hin
    obtain ⟨hposa, hlta⟩ := ok.free a ha
    exact ok.apart n hn (f.inj a n hposa hlta hpos hlt heq ▸ ha)
  have htakes := f.ring.nfaDealloc hout hpos' hlt'
  have hfree :
      (c.nfaDealloc n).alloc.free.map place = entered (c.alloc.free.map place) (place n) := by
    rw [NFACtrl.nfaDealloc, if_neg (Nat.pos_iff_ne_zero.mp hpos)]
    cases hfree : c.alloc.free with
    | nil => rfl
    | cons a rest => rfl
  have hrest := alloc_nfaDealloc c n
  refine ⟨hfree ▸ htakes.free, ?_, ?_, ?_⟩
  · rw [htakes.poolSize, f.poolSize, hrest.1]
  · rw [hrest.2, htakes.nextNode]
    exact f.below
  · rw [hrest.2]
    exact f.inj

/-- What a client asks for: another node, or the release of the `k`-th node it was handed. -/
inductive Request where
  | take
  | giveBack (k : Nat)
  deriving DecidableEq, Repr

/-- The list model serves a request; the nodes that were handed out are kept in order. -/
def serveList : NFACtrl × List Addr → Request → NFACtrl × List Addr
  | (c, got), .take => (c.nfaAlloc.2, got ++ [c.nfaAlloc.1])
  | (c, got), .giveBack k => (c.nfaDealloc (got.getD k 0), got)

/-- The memory serves a request. -/
def serveMem : PoolMem × List Nat → Request → PoolMem × List Nat
  | (m, got), .take => (m.nfaAlloc.2, got ++ [m.nfaAlloc.1])
  | (m, got), .giveBack k => (m.nfaDealloc m.alloc (got.getD k 0), got)

/-- The nodes in use behind a request. -/
def inUse : NFACtrl × List Addr → Finset Addr → Request → Finset Addr
  | (c, _), live, .take => insert c.nfaAlloc.1 live
  | (_, got), live, .giveBack k => live.erase (got.getD k 0)

/-- Only nodes in use are given back. -/
def Sensible : NFACtrl × List Addr → Finset Addr → List Request → Prop
  | _, _, [] => True
  | s, live, .take :: rs => Sensible (serveList s .take) (inUse s live .take) rs
  | s, live, .giveBack k :: rs => s.2.getD k 0 ∈ live ∧
      Sensible (serveList s (.giveBack k)) (inUse s live (.giveBack k)) rs

/-- Both sides handed out the same nodes, up to the renaming. -/
structure Agrees (s : NFACtrl × List Addr) (t : PoolMem × List Nat) (live : Finset Addr)
    (place : Addr → Nat) : Prop where
  follows : Follows s.1 t.1 place
  ok : AllocOk s.1 live
  got : t.2 = s.2.map place
  known : ∀ a : Nat, a ∈ s.2 → 0 < a ∧ a < s.1.alloc.nextAddr

variable {s : NFACtrl × List Addr} {t : PoolMem × List Nat}

/-- Addresses stay in use. -/
theorem nextAddr_le_nfaAlloc (c : NFACtrl) :
    (c.alloc.nextAddr : Nat) ≤ c.nfaAlloc.2.alloc.nextAddr := by
  have hle : (c.alloc.nextAddr : Nat) ≤
      (if c.alloc.free = [] then NFACtrl.allocExpand c.alloc else c.alloc).nextAddr := by
    split
    · exact Nat.le_add_right _ _
    · exact Nat.le_refl _
  unfold NFACtrl.nfaAlloc
  dsimp only
  split
  · exact hle
  · exact hle

theorem Agrees.take (h : Agrees s t live place) :
    ∃ place', Agrees (serveList s .take) (serveMem t .take) (inUse s live .take) place' := by
  obtain ⟨c, got⟩ := s
  obtain ⟨m, got'⟩ := t
  obtain ⟨place', hsame, hfollows, hnode⟩ := h.follows.nfaAlloc h.ok
  obtain ⟨n, c', heq, -, hok, -, -⟩ := h.ok.nfaAlloc
  have hgrows : (c.alloc.nextAddr : Nat) ≤ c.nfaAlloc.2.alloc.nextAddr := nextAddr_le_nfaAlloc c
  have hok' : AllocOk c.nfaAlloc.2 (insert c.nfaAlloc.1 live) := by
    rw [heq]
    exact hok
  refine ⟨place', hfollows, hok', ?_, fun a ha => ?_⟩
  · change got' ++ [m.nfaAlloc.1] = (got ++ [c.nfaAlloc.1]).map place'
    rw [List.map_append, List.map_singleton, hnode,
      show got' = got.map place' from h.got.trans (List.map_congr_left fun a ha =>
        (hsame a (h.known a ha).2).symm)]
  · rcases List.mem_append.mp ha with ha | ha
    · exact ⟨(h.known a ha).1, Nat.lt_of_lt_of_le (h.known a ha).2 hgrows⟩
    · obtain rfl := List.mem_singleton.mp ha
      exact hok'.bound _ (Finset.mem_insert_self _ _)

theorem Agrees.giveBack (h : Agrees s t live place) {k : Nat} (hk : s.2.getD k 0 ∈ live) :
    Agrees (serveList s (.giveBack k)) (serveMem t (.giveBack k)) (inUse s live (.giveBack k))
      place := by
  obtain ⟨c, got⟩ := s
  obtain ⟨m, got'⟩ := t
  have hlt : k < got.length := by
    by_contra hout
    have hzero : got.getD k 0 = 0 := by
      rw [List.getD_eq_getElem?_getD, List.getElem?_eq_none (Nat.not_lt.mp hout), Option.getD_none]
    exact h.ok.zero_notMem (hzero ▸ hk)
  have hgot : got' = got.map place := h.got
  have hnode : got'.getD k 0 = place (got.getD k 0) := by
    rw [hgot, List.getD_eq_getElem?_getD, List.getD_eq_getElem?_getD, List.getElem?_map,
      List.getElem?_eq_getElem hlt, Option.map_some, Option.getD_some, Option.getD_some]
  have hkeep : (c.nfaDealloc (got.getD k 0)).alloc.nextAddr = c.alloc.nextAddr :=
    (alloc_nfaDealloc c _).2
  refine ⟨?_, h.ok.nfaDealloc hk, hgot, fun a ha => ?_⟩
  · change Follows (c.nfaDealloc (got.getD k 0)) (m.nfaDealloc m.alloc (got'.getD k 0)) place
    rw [hnode]
    exact h.follows.nfaDealloc h.ok hk
  · change 0 < a ∧ a < (c.nfaDealloc (got.getD k 0)).alloc.nextAddr
    rw [hkeep]
    exact h.known a ha

theorem Agrees.run (h : Agrees s t live place) {rs : List Request} (hrs : Sensible s live rs) :
    ∃ live' place', Agrees (rs.foldl serveList s) (rs.foldl serveMem t) live' place' := by
  induction rs generalizing s t live place with
  | nil => exact ⟨live, place, h⟩
  | cons r rs ih =>
    cases r with
    | take =>
      obtain ⟨place', h'⟩ := h.take
      exact ih h' hrs
    | giveBack k => exact ih (h.giveBack hrs.1) hrs.2

/-- **The parser's node memory.** Any requests are served by the list of free nodes and by the
rings of the memory with the same nodes, up to a renaming. -/
theorem served_alike (c : NFACtrl) (hnum : 1 ≤ num) (hnode : 0 < m.nextNode)
    (hnext : 0 < m.nextAlloc) {rs : List Request} (hrs : Sensible (c.allocInit num, []) ∅ rs) :
    ∃ place : Addr → Nat,
      (rs.foldl serveMem (m.nfaAllocInit num, [])).2 =
        (rs.foldl serveList (c.allocInit num, [])).2.map place ∧
      Set.InjOn place {a | a ∈ (rs.foldl serveList (c.allocInit num, [])).2} := by
  have hstart : Agrees (c.allocInit num, []) (m.nfaAllocInit num, []) ∅
      (fun a => m.nextNode + (a - 1)) :=
    ⟨follows_init hnum hnode hnext, AllocOk.allocInit hnum c, rfl, fun a ha => nomatch ha⟩
  obtain ⟨live, place, h⟩ := hstart.run hrs
  refine ⟨place, h.got, fun a ha b hb hab => ?_⟩
  obtain ⟨hposa, hlta⟩ := h.known a ha
  obtain ⟨hposb, hltb⟩ := h.known b hb
  exact h.follows.inj a b hposa hlta hposb hltb hab

end NfaAlloc

end Recognizer
