import Recognizer.Compile.Termination
import Recognizer.Parse.Language

/-!
# Which prefixes `synthesize_pattern` emits

The walk below a literal reads words. Where it comes to rest it emits the word read,
except that at a `'*'` or `'+'` split it emits only while `print` is on: an earlier
branch that has emitted leaves it off until the next literal. What is accepted behind
such a split need not start with any emitted word.
-/

namespace Recognizer

variable {h : Heap} {a n : Addr} {fuel i : Nat} {s s' : Synthesis} {w v : List Int}

/-- A call of `synthesize_pattern`: the node, the word in the buffer and `print`. -/
structure Visit where
  node : Addr
  word : List Int
  print : Bool

variable {u u' : Visit}

/-- The calls a call makes. Behind the first of them `print` is off. -/
inductive Follows (h : Heap) : Visit → Visit → Prop where
  | literal {a : Addr} {w : List Int} {on : Bool} (htype : (h a).type = .literal) :
    Follows h ⟨a, w, on⟩ ⟨(h a).out2, w ++ [(h a).literal], true⟩
  | next {a : Addr} {w : List Int} {on : Bool} (htype : (h a).type = .epsilon ∨
      (h a).type = .capturegrpBegin ∨ (h a).type = .capturegrpEnd) :
    Follows h ⟨a, w, on⟩ ⟨(h a).out2, w, on⟩
  | first {a b : Addr} {bs : List Addr} {w : List Int} {on : Bool} (htype : (h a).type = .tree)
      (hitems : (h a).branches.items = b :: bs) : Follows h ⟨a, w, on⟩ ⟨b, w, on⟩
  | later {a b b' : Addr} {bs : List Addr} {w : List Int} {on : Bool}
      (htype : (h a).type = .tree) (hitems : (h a).branches.items = b :: bs) (hb : b' ∈ bs) :
    Follows h ⟨a, w, on⟩ ⟨b', w, false⟩
  | skip {a : Addr} {w : List Int} {on : Bool} (htype : (h a).type = .split)
      (hlit : (h a).literal = 63) : Follows h ⟨a, w, on⟩ ⟨(h a).out1, w, on⟩
  | take {a : Addr} {w : List Int} {on : Bool} (htype : (h a).type = .split)
      (hlit : (h a).literal = 63) : Follows h ⟨a, w, on⟩ ⟨(h a).out2, w, false⟩

/-- A node at which the walk leaves `print` as it is: a `'*'` or `'+'` split, or a tree
without branches. -/
def NFA.Rests (n : NFA) : Prop :=
  n.type = .split ∧ n.literal ≠ 63 ∨ n.type = .tree ∧ n.branches.items = []

/-- A node at which the walk turns `print` on and ends. -/
def NFA.Ends (n : NFA) : Prop :=
  n.type ≠ .literal ∧ n.type ≠ .epsilon ∧ n.type ≠ .capturegrpBegin ∧
    n.type ≠ .capturegrpEnd ∧ n.type ≠ .tree ∧ n.type ≠ .split

/-- A call that emits its word itself. -/
def Emitting (h : Heap) (u : Visit) : Prop :=
  (h u.node).Ends ∨ (h u.node).Rests ∧ u.print = true

/-- A word that is emitted in the course of a call; `strndup` cuts it off at a `NUL`. -/
def Emits (h : Heap) (u : Visit) (w : List Int) : Prop :=
  ∃ u', Relation.ReflTransGen (Follows h) u u' ∧ Emitting h u' ∧ w = u'.word.takeWhile (· ≠ 0)

theorem not_follows_of_ends (hends : (h u.node).Ends) : ¬ Follows h u u' := by
  obtain ⟨hlit, heps, hbegin, hend, htree, hsplit⟩ := hends
  intro hf
  cases hf with
  | literal ht => exact hlit ht
  | next ht => exact ht.elim heps fun ht => ht.elim hbegin hend
  | first ht | later ht => exact htree ht
  | skip ht | take ht => exact hsplit ht

theorem not_follows_of_rests (hrests : (h u.node).Rests) : ¬ Follows h u u' := by
  intro hf
  cases hf with
  | literal ht => simp [NFA.Rests, ht] at hrests
  | next ht => rcases ht with ht | ht | ht <;> simp [NFA.Rests, ht] at hrests
  | first ht hitems => simp [NFA.Rests, ht, hitems] at hrests
  | later ht hitems => simp [NFA.Rests, ht, hitems] at hrests
  | skip ht hlit => simp [NFA.Rests, ht, hlit] at hrests
  | take ht hlit => simp [NFA.Rests, ht, hlit] at hrests

/-- A call without calls emits its own word or nothing. -/
theorem emits_iff_of_leaf (hleaf : ∀ u', ¬ Follows h u u') :
    Emits h u w ↔ Emitting h u ∧ w = u.word.takeWhile (· ≠ 0) := by
  constructor
  · rintro ⟨u', hpath, hemit, rfl⟩
    rcases Relation.ReflTransGen.cases_head hpath with rfl | ⟨u₁, hf, -⟩
    · exact ⟨hemit, rfl⟩
    · exact absurd hf (hleaf u₁)
  · rintro ⟨hemit, rfl⟩
    exact ⟨u, .refl, hemit, rfl⟩

/-- A call with calls emits what they emit. -/
theorem emits_iff_of_follows (hf : Follows h u u') :
    Emits h u w ↔ ∃ u₁, Follows h u u₁ ∧ Emits h u₁ w := by
  constructor
  · rintro ⟨u₂, hpath, hemit, rfl⟩
    rcases Relation.ReflTransGen.cases_head hpath with rfl | ⟨u₁, hf₁, hrest⟩
    · rcases hemit with hends | ⟨hrests, -⟩
      · exact absurd hf (not_follows_of_ends hends)
      · exact absurd hf (not_follows_of_rests hrests)
    · exact ⟨u₁, hf₁, u₂, hrest, hemit, rfl⟩
  · rintro ⟨u₁, hf₁, u₂, hrest, hemit, rfl⟩
    exact ⟨u₂, .head hf₁ hrest, hemit, rfl⟩

/-- The word in the buffer. -/
def Synthesis.word (s : Synthesis) (i : Nat) : List Int := (List.range i).map s.root

/-- What a call has done when it returns: `print` is off, the word is still in the
buffer, and the emitted words are appended. -/
structure Emitted (h : Heap) (u : Visit) (i : Nat) (s s' : Synthesis) : Prop where
  off : s'.print = false
  root : ∀ j < i, s'.root j = s.root j
  patterns : ∃ l, s'.patterns = s.patterns ++ l ∧ ∀ w, w ∈ l ↔ Emits h u w

theorem emitPattern_off (s : Synthesis) (i : Nat) : (emitPattern s i).print = false := by
  unfold emitPattern
  cases h : s.print <;> simp [h]

theorem emitPattern_root (s : Synthesis) {i j : Nat} (hj : j < i) :
    (emitPattern s i).root j = s.root j := by
  unfold emitPattern
  cases s.print <;> simp [Function.update_of_ne (Nat.ne_of_lt hj)]

theorem emitPattern_patterns (s : Synthesis) (i : Nat) :
    (emitPattern s i).patterns =
      s.patterns ++ if s.print then [(s.word i).takeWhile (· ≠ 0)] else [] := by
  unfold emitPattern strndup Synthesis.word
  cases s.print <;> simp

/-- A call without calls. -/
theorem emitted_leaf (hleaf : ∀ u', ¬ Follows h u u') (hword : u.word = s.word i)
    (hprint : s.print = true ↔ Emitting h u) : Emitted h u i s (emitPattern s i) := by
  refine ⟨emitPattern_off s i, fun j hj => emitPattern_root s hj, _, emitPattern_patterns s i,
    fun w => ?_⟩
  rw [emits_iff_of_leaf hleaf, ← hprint, hword]
  cases s.print <;> simp

/-- The end of a call with calls, at its own position or behind its literal. -/
theorem Emitted.finish {k : Nat} (hik : i ≤ k) {s₀ : Synthesis}
    (hpatterns : ∃ l, s'.patterns = s₀.patterns ++ l ∧ ∀ w, w ∈ l ↔ Emits h u w)
    (hroot : ∀ j < i, s'.root j = s₀.root j) (hoff : s'.print = false) :
    Emitted h u i s₀ (emitPattern s' k) := by
  refine ⟨emitPattern_off s' k, fun j hj => ?_, ?_⟩
  · rw [emitPattern_root s' (lt_of_lt_of_le hj hik), hroot j hj]
  · rw [emitPattern_patterns, hoff]
    simpa using hpatterns

theorem word_eq_of_root (hroot : ∀ j < i, s'.root j = s.root j) : s'.word i = s.word i := by
  unfold Synthesis.word
  exact List.map_congr_left fun j hj => hroot j (List.mem_range.mp hj)

section Successors

variable {on : Bool}

theorem follows_literal_iff (htype : (h a).type = .literal) :
    Follows h ⟨a, w, on⟩ u ↔ u = ⟨(h a).out2, w ++ [(h a).literal], true⟩ := by
  constructor
  · intro hf
    cases hf with
    | literal => rfl
    | next ht => simp [htype] at ht
    | first ht | later ht => simp [htype] at ht
    | skip ht | take ht => simp [htype] at ht
  · rintro rfl
    exact .literal htype

theorem follows_next_iff (htype : (h a).type = .epsilon ∨ (h a).type = .capturegrpBegin ∨
    (h a).type = .capturegrpEnd) : Follows h ⟨a, w, on⟩ u ↔ u = ⟨(h a).out2, w, on⟩ := by
  constructor
  · intro hf
    cases hf with
    | literal ht => simp [ht] at htype
    | next => rfl
    | first ht | later ht => simp [ht] at htype
    | skip ht | take ht => simp [ht] at htype
  · rintro rfl
    exact .next htype

theorem follows_tree_iff {b : Addr} {bs : List Addr} (htype : (h a).type = .tree)
    (hitems : (h a).branches.items = b :: bs) :
    Follows h ⟨a, w, on⟩ u ↔ u = ⟨b, w, on⟩ ∨ ∃ b' ∈ bs, u = ⟨b', w, false⟩ := by
  constructor
  · intro hf
    cases hf with
    | literal ht => simp [htype] at ht
    | next ht => simp [htype] at ht
    | first _ hit =>
      obtain ⟨rfl, rfl⟩ := List.cons.inj (hit.symm.trans hitems)
      exact Or.inl rfl
    | later _ hit hb =>
      obtain ⟨rfl, rfl⟩ := List.cons.inj (hit.symm.trans hitems)
      exact Or.inr ⟨_, hb, rfl⟩
    | skip ht | take ht => simp [htype] at ht
  · rintro (rfl | ⟨b', hb', rfl⟩)
    · exact .first htype hitems
    · exact .later htype hitems hb'

theorem follows_split_iff (htype : (h a).type = .split) (hlit : (h a).literal = 63) :
    Follows h ⟨a, w, on⟩ u ↔ u = ⟨(h a).out1, w, on⟩ ∨ u = ⟨(h a).out2, w, false⟩ := by
  constructor
  · intro hf
    cases hf with
    | literal ht => simp [htype] at ht
    | next ht => simp [htype] at ht
    | first ht | later ht => simp [htype] at ht
    | skip => exact Or.inl rfl
    | take => exact Or.inr rfl
  · rintro (rfl | rfl)
    · exact .skip htype hlit
    · exact .take htype hlit

end Successors

/-- The calls for the branches of a tree but the first: `print` is off for each. -/
theorem emitted_branches
    (ih : ∀ n s s', synthesizePattern h fuel n i s = some s' →
      Emitted h ⟨n, s.word i, s.print⟩ i s s') {bs : List Addr} (hoff : s.print = false)
    (hrun : bs.foldlM (fun s b => synthesizePattern h fuel b i s) s = some s') :
    s'.print = false ∧ (∀ j < i, s'.root j = s.root j) ∧
      ∃ l, s'.patterns = s.patterns ++ l ∧
        ∀ v, v ∈ l ↔ ∃ b ∈ bs, Emits h ⟨b, s.word i, false⟩ v := by
  induction bs generalizing s with
  | nil =>
    cases hrun
    exact ⟨hoff, fun _ _ => rfl, [], by simp, by simp⟩
  | cons b bs ihb =>
    simp only [List.foldlM_cons, Option.bind_eq_bind, Option.bind_eq_some_iff] at hrun
    obtain ⟨s₁, hone, hrest⟩ := hrun
    have he := ih b s s₁ hone
    rw [hoff] at he
    obtain ⟨hoff', hroot, l', hl', hmem'⟩ := ihb he.off hrest
    obtain ⟨l, hl, hmem⟩ := he.patterns
    rw [word_eq_of_root he.root] at hmem'
    refine ⟨hoff', fun j hj => (hroot j hj).trans (he.root j hj), l ++ l', ?_, fun v => ?_⟩
    · rw [hl', hl, List.append_assoc]
    · rw [List.mem_append, hmem, hmem', List.exists_mem_cons_iff]

/-- A call for a tree. -/
theorem emitted_tree
    (ih : ∀ n s s', synthesizePattern h fuel n i s = some s' →
      Emitted h ⟨n, s.word i, s.print⟩ i s s') (htype : (h n).type = .tree)
    (hrun : (h n).branches.items.foldlM (fun s b => synthesizePattern h fuel b i s) s = some s') :
    Emitted h ⟨n, s.word i, s.print⟩ i s (emitPattern s' i) := by
  cases hitems : (h n).branches.items with
  | nil =>
    rw [hitems] at hrun
    cases hrun
    have hrests : (h n).Rests := Or.inr ⟨htype, hitems⟩
    refine emitted_leaf (fun u' => not_follows_of_rests hrests) rfl ?_
    exact ⟨fun hon => Or.inr ⟨hrests, hon⟩, fun he => he.elim
      (fun hends => absurd htype hends.2.2.2.2.1) And.right⟩
  | cons b bs =>
    rw [hitems] at hrun
    simp only [List.foldlM_cons, Option.bind_eq_bind, Option.bind_eq_some_iff] at hrun
    obtain ⟨s₁, hone, hrest⟩ := hrun
    have he := ih b s s₁ hone
    obtain ⟨hoff, hroot, l', hl', hmem'⟩ := emitted_branches ih he.off hrest
    obtain ⟨l, hl, hmem⟩ := he.patterns
    rw [word_eq_of_root he.root] at hmem'
    refine .finish le_rfl ⟨l ++ l', ?_, fun v => ?_⟩
      (fun j hj => (hroot j hj).trans (he.root j hj)) hoff
    · rw [hl', hl, List.append_assoc]
    · rw [List.mem_append, hmem, hmem', emits_iff_of_follows (.first htype hitems)]
      simp only [follows_tree_iff htype hitems, or_and_right, exists_or, exists_eq_left]
      refine or_congr_right ⟨?_, ?_⟩
      · rintro ⟨b', hb', hemit⟩
        exact ⟨_, ⟨b', hb', rfl⟩, hemit⟩
      · rintro ⟨_, ⟨b', hb', rfl⟩, hemit⟩
        exact ⟨b', hb', hemit⟩

/-- The buffer with one more letter. -/
theorem word_update (s : Synthesis) (i : Nat) (c : Int) :
    Synthesis.word { s with root := Function.update s.root i c, print := true } (i + 1) =
      s.word i ++ [c] := by
  unfold Synthesis.word
  rw [List.range_succ, List.map_append]
  congr 1
  · exact List.map_congr_left fun j hj =>
      Function.update_of_ne (Nat.ne_of_lt (List.mem_range.mp hj)) _ _
  · simp

/-- **What a call emits.** -/
theorem synthesizePattern_emitted (hrun : synthesizePattern h fuel n i s = some s') :
    Emitted h ⟨n, s.word i, s.print⟩ i s s' := by
  induction fuel generalizing n i s s' with
  | zero => simp [synthesizePattern] at hrun
  | succ fuel ih =>
    rw [synthesizePattern] at hrun
    by_cases hnull : n = 0
    · rw [if_pos hnull] at hrun
      cases hrun
    rw [if_neg hnull] at hrun
    have hnext : (h n).type = .epsilon ∨ (h n).type = .capturegrpBegin ∨
        (h n).type = .capturegrpEnd →
        (do let s ← synthesizePattern h fuel (h n).out2 i s; some (emitPattern s i)) = some s' →
        Emitted h ⟨n, s.word i, s.print⟩ i s s' := by
      intro htype hrun
      simp only [Option.bind_eq_bind, Option.bind_eq_some_iff, Option.some.injEq] at hrun
      obtain ⟨s₁, hone, rfl⟩ := hrun
      have he := ih hone
      obtain ⟨l, hl, hmem⟩ := he.patterns
      refine .finish le_rfl ⟨l, hl, fun v => ?_⟩ he.root he.off
      rw [hmem, emits_iff_of_follows (.next htype)]
      simp [follows_next_iff htype]
    split at hrun
    · rename_i htype
      simp only [Option.bind_eq_bind, Option.bind_eq_some_iff, Option.some.injEq] at hrun
      obtain ⟨s₁, hone, rfl⟩ := hrun
      have he := ih hone
      rw [word_update] at he
      obtain ⟨l, hl, hmem⟩ := he.patterns
      refine .finish (Nat.le_succ i) ⟨l, hl, fun v => ?_⟩ (fun j hj => ?_) he.off
      · rw [hmem, emits_iff_of_follows (.literal htype)]
        simp [follows_literal_iff htype]
      · rw [he.root j (Nat.lt_succ_of_lt hj)]
        exact Function.update_of_ne (Nat.ne_of_lt hj) _ _
    · rename_i htype
      exact hnext (Or.inl htype) hrun
    · rename_i htype
      exact hnext (Or.inr (Or.inl htype)) hrun
    · rename_i htype
      exact hnext (Or.inr (Or.inr htype)) hrun
    · rename_i htype
      simp only [Option.bind_eq_bind, Option.bind_eq_some_iff, Option.some.injEq] at hrun
      obtain ⟨s₂, hfold, rfl⟩ := hrun
      exact emitted_tree (fun n s s' hone => ih hone) htype hfold
    · rename_i htype
      split at hrun
      · rename_i hlit
        simp only [Option.bind_eq_bind, Option.bind_eq_some_iff, Option.some.injEq] at hrun
        obtain ⟨s₁, hone, s₂, htwo, rfl⟩ := hrun
        have he₁ := ih hone
        have he₂ := ih htwo
        rw [he₁.off, word_eq_of_root he₁.root] at he₂
        obtain ⟨l₁, hl₁, hmem₁⟩ := he₁.patterns
        obtain ⟨l₂, hl₂, hmem₂⟩ := he₂.patterns
        refine .finish le_rfl ⟨l₁ ++ l₂, ?_, fun v => ?_⟩
          (fun j hj => (he₂.root j hj).trans (he₁.root j hj)) he₂.off
        · rw [hl₂, hl₁, List.append_assoc]
        · rw [List.mem_append, hmem₁, hmem₂, emits_iff_of_follows (.skip htype hlit)]
          simp [follows_split_iff htype hlit, or_and_right, exists_or]
      · rename_i hlit
        cases hrun
        have hrests : (h n).Rests := Or.inl ⟨htype, hlit⟩
        refine emitted_leaf (fun u' => not_follows_of_rests hrests) rfl ?_
        exact ⟨fun hon => Or.inr ⟨hrests, hon⟩, fun he => he.elim
          (fun hends => absurd htype hends.2.2.2.2.2) And.right⟩
    · rename_i hlit heps hbegin hend htree hsplit
      cases hrun
      have hends : (h n).Ends := ⟨hlit, heps, hbegin, hend, htree, hsplit⟩
      have he : Emitted h ⟨n, s.word i, s.print⟩ i { s with print := true }
          (emitPattern { s with print := true } i) :=
        emitted_leaf (fun u' => not_follows_of_ends hends) rfl
          ⟨fun _ => Or.inl hends, fun _ => rfl⟩
      exact ⟨he.off, he.root, he.patterns⟩

/-- The strings accepted along the paths that start at a node. An interval may be
repeated or left at any time, and a backreference may have captured any string. -/
inductive Accepts (h : Heap) : Addr → List Int → Prop where
  | accepting {a : Addr} (htype : (h a).type = .accepting) : Accepts h a []
  | reads {a : Addr} {ch : Int} {v : List Int} (hreads : (h a).Reads ch)
      (hrest : Accepts h (h a).out2 v) : Accepts h a (ch :: v)
  | pass {a : Addr} {v : List Int} (htype : (h a).type = .epsilon ∨
      (h a).type = .capturegrpBegin ∨ (h a).type = .capturegrpEnd ∨ (h a).type = .bolAnchor ∨
      (h a).type = .eolAnchor) (hrest : Accepts h (h a).out2 v) : Accepts h a v
  | branch {a b : Addr} {v : List Int} (htype : (h a).type = .tree)
      (hb : b ∈ (h a).branches.items) (hrest : Accepts h b v) : Accepts h a v
  | left {a : Addr} {v : List Int} (htype : (h a).type = .split ∨ (h a).type = .interval)
      (hrest : Accepts h (h a).out1 v) : Accepts h a v
  | right {a : Addr} {v : List Int} (htype : (h a).type = .split ∨ (h a).type = .interval)
      (hrest : Accepts h (h a).out2 v) : Accepts h a v
  | backreference {a : Addr} {v : List Int} (captured : List Int)
      (htype : (h a).type = .backreference) (hrest : Accepts h (h a).out2 v) :
    Accepts h a (captured ++ v)

/-- A call reads what its caller has read and perhaps more, and what is accepted from
its node is accepted from its caller's behind that. -/
theorem Follows.accepts (hf : Follows h u u') (hacc : Accepts h u'.node v) :
    ∃ x, u'.word = u.word ++ x ∧ Accepts h u.node (x ++ v) := by
  cases hf with
  | literal ht => exact ⟨[_], rfl, .reads (by simp [NFA.Reads, ht]) hacc⟩
  | next ht =>
    refine ⟨[], (List.append_nil _).symm, .pass ?_ hacc⟩
    exact ht.imp_right fun ht => ht.imp_right Or.inl
  | first ht hitems => exact ⟨[], (List.append_nil _).symm, .branch ht (by simp [hitems]) hacc⟩
  | later ht hitems hb =>
    exact ⟨[], (List.append_nil _).symm, .branch ht (by simp [hitems, hb]) hacc⟩
  | skip ht => exact ⟨[], (List.append_nil _).symm, .left (Or.inl ht) hacc⟩
  | take ht => exact ⟨[], (List.append_nil _).symm, .right (Or.inl ht) hacc⟩

theorem accepts_of_calls (hpath : Relation.ReflTransGen (Follows h) u u')
    (hacc : Accepts h u'.node v) : ∃ x, u'.word = u.word ++ x ∧ Accepts h u.node (x ++ v) := by
  induction hpath using Relation.ReflTransGen.head_induction_on with
  | refl => exact ⟨[], (List.append_nil _).symm, hacc⟩
  | head hf _ ih =>
    obtain ⟨x, hx, hacc'⟩ := ih
    obtain ⟨y, hy, hacc''⟩ := hf.accepts hacc'
    exact ⟨y ++ x, by rw [hx, hy, List.append_assoc], by rwa [List.append_assoc]⟩

/-- The first call below a letter. -/
def afterLetter (h : Heap) (n : Addr) : Visit := ⟨(h n).out2, [(h n).literal], true⟩

/-- What is accepted behind a split that is come to with `print` off starts with some
emitted word all the same. -/
def MadeGood (h : Heap) (n : Addr) : Prop :=
  ∀ u, Relation.ReflTransGen (Follows h) (afterLetter h n) u → (h u.node).Rests →
    u.print = false → ∀ v, Accepts h u.node v →
      ∃ q, Emits h (afterLetter h n) q ∧ q <+: u.word ++ v

/-- A call that emits its own word makes it a prefix of what is accepted behind it. -/
theorem prefix_of_emitting (hpath : Relation.ReflTransGen (Follows h) (afterLetter h n) u)
    (hemit : Emitting h u) (v : List Int) :
    ∃ q, Emits h (afterLetter h n) q ∧ q <+: u.word ++ v :=
  ⟨_, ⟨u, hpath, hemit, rfl⟩, (List.takeWhile_prefix _).trans (List.prefix_append _ _)⟩

/-- Behind a split that is no `'?'` split, or an interval. -/
theorem prefix_of_loop (hgood : MadeGood h n)
    (hpath : Relation.ReflTransGen (Follows h) (afterLetter h n) u)
    (htype : (h u.node).type = .split ∨ (h u.node).type = .interval)
    (hloop : ¬ ((h u.node).type = .split ∧ (h u.node).literal = 63)) (hacc : Accepts h u.node v) :
    ∃ q, Emits h (afterLetter h n) q ∧ q <+: u.word ++ v := by
  rcases htype with htype | htype
  · have hrests : (h u.node).Rests := Or.inl ⟨htype, fun hlit => hloop ⟨htype, hlit⟩⟩
    cases hon : u.print with
    | true => exact prefix_of_emitting hpath (Or.inr ⟨hrests, hon⟩) v
    | false => exact hgood u hpath hrests hon v hacc
  · exact prefix_of_emitting hpath (Or.inl (by simp [NFA.Ends, htype])) v

/-- Every accepted string leads the walk to an emitted word, or to a split it comes to
with `print` off. -/
theorem exists_prefix_of_accepts (hgood : MadeGood h n) (hacc : Accepts h a v)
    (hpath : Relation.ReflTransGen (Follows h) (afterLetter h n) u) (hnode : u.node = a) :
    ∃ q, Emits h (afterLetter h n) q ∧ q <+: u.word ++ v := by
  obtain ⟨node, word, on⟩ := u
  dsimp only at hnode
  subst hnode
  induction hacc generalizing word on with
  | accepting htype =>
    exact prefix_of_emitting hpath (Or.inl (by simp [NFA.Ends, htype])) _
  | @reads a ch v hreads hrest ih =>
    by_cases hlit : (h a).type = .literal
    · have hch : ch = (h a).literal := by simpa [NFA.Reads, hlit] using hreads
      obtain ⟨q, hq, hqv⟩ := ih _ _ (hpath.tail (.literal hlit))
      refine ⟨q, hq, ?_⟩
      rwa [List.append_assoc, List.singleton_append, ← hch] at hqv
    · refine prefix_of_emitting hpath (Or.inl ?_) _
      unfold NFA.Reads at hreads
      unfold NFA.Ends
      cases ht : (h a).type <;> simp_all
  | @pass a v htype hrest ih =>
    by_cases hnext : (h a).type = .epsilon ∨ (h a).type = .capturegrpBegin ∨
        (h a).type = .capturegrpEnd
    · exact ih _ _ (hpath.tail (.next hnext))
    · refine prefix_of_emitting hpath (Or.inl ?_) _
      unfold NFA.Ends
      cases ht : (h a).type <;> simp_all
  | @branch a b v htype hb hrest ih =>
    cases hitems : (h a).branches.items with
    | nil => simp [hitems] at hb
    | cons c bs =>
      rw [hitems, List.mem_cons] at hb
      rcases hb with rfl | hb
      · exact ih _ _ (hpath.tail (.first htype hitems))
      · exact ih _ _ (hpath.tail (.later htype hitems hb))
  | @left a v htype hrest ih =>
    by_cases hqmark : (h a).type = .split ∧ (h a).literal = 63
    · exact ih _ _ (hpath.tail (.skip hqmark.1 hqmark.2))
    · exact prefix_of_loop hgood hpath htype hqmark (.left htype hrest)
  | @right a v htype hrest ih =>
    by_cases hqmark : (h a).type = .split ∧ (h a).literal = 63
    · exact ih _ _ (hpath.tail (.take hqmark.1 hqmark.2))
    · exact prefix_of_loop hgood hpath htype hqmark (.right htype hrest)
  | backreference captured htype hrest =>
    exact prefix_of_emitting hpath (Or.inl (by simp [NFA.Ends, htype])) _

/-- Below a letter the walk emits what it emits behind it. -/
theorem emits_letter_iff {on : Bool} (hlit : (h n).type = .literal) :
    Emits h ⟨n, [], on⟩ w ↔ Emits h (afterLetter h n) w := by
  rw [emits_iff_of_follows (.literal hlit)]
  simp [follows_literal_iff hlit, afterLetter]

/-- The words a walk below a letter appends. -/
theorem mem_appended_iff (hlit : (h n).type = .literal)
    (hrun : synthesizePattern h fuel n 0 s = some s') :
    w ∈ s'.patterns.drop s.patterns.length ↔ Emits h (afterLetter h n) w := by
  obtain ⟨l, hl, hmem⟩ := (synthesizePattern_emitted hrun).patterns
  rw [hl, List.drop_left, hmem]
  exact emits_letter_iff hlit

/-- **Every string accepted from a letter starts with an appended pattern exactly when
what is accepted behind the splits that are come to with `print` off does.** -/
theorem synthesizePattern_prefixes_iff (hlit : (h n).type = .literal)
    (hrun : synthesizePattern h fuel n 0 s = some s') :
    (∀ v, Accepts h n v → ∃ q ∈ s'.patterns.drop s.patterns.length, q <+: v) ↔ MadeGood h n := by
  simp only [mem_appended_iff hlit hrun]
  constructor
  · intro hall u hpath _ _ v hacc
    obtain ⟨x, hx, hrest⟩ := accepts_of_calls hpath hacc
    have hletter : Accepts h n ((h n).literal :: (x ++ v)) :=
      .reads (by simp [NFA.Reads, hlit]) hrest
    obtain ⟨q, hq, hqv⟩ := hall _ hletter
    refine ⟨q, hq, ?_⟩
    rwa [hx, afterLetter, List.append_assoc]
  · intro hgood v hacc
    cases hacc with
    | @reads _ ch _ hreads hrest =>
      obtain ⟨q, hq, hqv⟩ := exists_prefix_of_accepts hgood hrest .refl rfl
      have hch : ch = (h n).literal := by simpa [NFA.Reads, hlit] using hreads
      exact ⟨q, hq, by rwa [hch]⟩
    | accepting ht => simp [hlit] at ht
    | pass ht => simp [hlit] at ht
    | branch ht => simp [hlit] at ht
    | left ht | right ht => simp [hlit] at ht
    | backreference _ ht => simp [hlit] at ht

/-- The graph of `(ab{0,2})+c`: behind the letter `a`, node 1 may skip the interval and
go on to the `'+'` split at node 6, and from there to the letter `c`. -/
def optionalInterval (p : Parser) : Bool :=
  let h := p.ctrl.heap
  decide ((h 2).type = .literal ∧ (h 2).literal = 97 ∧ (h 2).out2 = 1 ∧
    (h 1).type = .split ∧ (h 1).out2 = 6 ∧ (h 6).type = .split ∧ (h 6).out2 = 5 ∧
    (h 5).type = .literal ∧ (h 5).literal = 99 ∧ (h 5).out2 = 9 ∧ (h 9).type = .accepting ∧
    (synthesizePattern h 60 2 0 {}).map (·.patterns) = some [[97, 98]])

/-- The equivalence for the letter `a` of `(ab{0,2})+c`. -/
theorem synthesizePattern_prefixes_optionalInterval : ∃ p s,
    Parser.parseRegex 60 (bytes "(ab{0,2})+c") false = .ok p ∧
      synthesizePattern p.ctrl.heap 60 2 0 {} = some s ∧
      ((∀ v, Accepts p.ctrl.heap 2 v → ∃ q ∈ s.patterns.drop 0, q <+: v) ↔
        MadeGood p.ctrl.heap 2) := by
  have h : (Parser.parseRegex 60 (bytes "(ab{0,2})+c") false).toOption.map optionalInterval =
      some true := by decide +kernel
  obtain ⟨p, hparse, hfacts⟩ := parsed_spec h
  obtain ⟨hlit, -, -, -, -, -, -, -, -, -, -, hrun⟩ := of_decide_eq_true hfacts
  obtain ⟨s, hrun, -⟩ := Option.map_eq_some_iff.mp hrun
  exact ⟨p, s, hparse, hrun, synthesizePattern_prefixes_iff hlit hrun⟩

/-- With `(ab{0,2})+c` the letter `a` appends the pattern `ab` only, and `ac` is accepted. -/
theorem optional_interval_lacks_prefix : ∃ p s,
    Parser.parseRegex 60 (bytes "(ab{0,2})+c") false = .ok p ∧
      (p.ctrl.heap 2).type = .literal ∧ synthesizePattern p.ctrl.heap 60 2 0 {} = some s ∧
      Accepts p.ctrl.heap 2 [97, 99] ∧ ¬ ∃ q ∈ s.patterns.drop 0, q <+: [97, 99] := by
  have h : (Parser.parseRegex 60 (bytes "(ab{0,2})+c") false).toOption.map optionalInterval =
      some true := by decide +kernel
  obtain ⟨p, hparse, hfacts⟩ := parsed_spec h
  obtain ⟨h2, h2l, h21, h1, h16, h6, h65, h5, h5l, h59, h9, hrun⟩ := of_decide_eq_true hfacts
  obtain ⟨s, hrun, hpatterns⟩ := Option.map_eq_some_iff.mp hrun
  refine ⟨p, s, hparse, h2, hrun, ?_, ?_⟩
  · refine .reads (by simp [NFA.Reads, h2, h2l]) ?_
    rw [h21]
    refine .right (Or.inl h1) ?_
    rw [h16]
    refine .right (Or.inl h6) ?_
    rw [h65]
    refine .reads (by simp [NFA.Reads, h5, h5l]) ?_
    rw [h59]
    exact .accepting h9
  · rw [hpatterns]
    decide

end Recognizer
