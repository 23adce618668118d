import Recognizer.Parse.Language
import Recognizer.Run.Compiled

/-!
# The nodes of the parser's automata

Automata are built bottom-up from start nodes that read a letter, each with a number of its own.
Every other node below a start node is walked through, and from each node the pointer `out2`
leads towards the accepting node.
-/

namespace Recognizer

open WordPath

variable {c c' : NFACtrl} {h : Heap} {live : Finset Addr} {roots roots' rest : List Addr}
  {frag : Addr → Addr} {r s t body a b : Addr} {ns nb : NFA}

/-- The nodes that can be reached from the start nodes of some automata. -/
def Belongs (h : Heap) (roots : List Addr) (a : Addr) : Prop :=
  ∃ r ∈ roots, Relation.ReflTransGen (fun a b => b ∈ (h a).targets) (h r).parent a

namespace Belongs

theorem start (hr : r ∈ roots) : Belongs h roots (h r).parent := ⟨r, hr, .refl⟩

theorem next (ha : Belongs h roots a) (hb : b ∈ (h a).targets) : Belongs h roots b := by
  obtain ⟨r, hr, hpath⟩ := ha
  exact ⟨r, hr, hpath.tail hb⟩

theorem mono (ha : Belongs h roots a) (hsub : roots ⊆ roots') : Belongs h roots' a := by
  obtain ⟨r, hr, hpath⟩ := ha
  exact ⟨r, hsub hr, hpath⟩

/-- Nodes that hold the start nodes and all they point to hold everything below. -/
theorem of_closed {D : Addr → Prop} (hstart : ∀ r ∈ roots, D (h r).parent)
    (hclosed : ∀ a, D a → ∀ b ∈ (h a).targets, D b) (ha : Belongs h roots a) : D a := by
  obtain ⟨r, hr, hpath⟩ := ha
  induction hpath with
  | refl => exact hstart r hr
  | tail _ hb ih => exact hclosed _ ih _ hb

end Belongs

/-- The nodes below the start nodes are in use. -/
theorem Owned.belongs_mem (ho : Owned c roots live frag) (ha : Belongs c.heap roots a) :
    a ∈ live := by
  obtain ⟨r, hr, hpath⟩ := ha
  exact ho.reachable_mem hr hpath

/-- A node inside an automaton is walked through or reads a character. No pattern gives a literal
the end of line symbol. -/
def NFA.Inner (n : NFA) : Prop :=
  (n.type = .epsilon ∨ n.type = .split ∨ n.type = .literal ∨ n.type = .range ∨ n.type = .any) ∧
    (n.type = .literal → n.literal ≠ eolSymbol)

/-- A node inside an automaton points where `out2` leads. -/
theorem NFA.Inner.out2_mem {n : NFA} (hn : n.Inner) : n.out2 ∈ n.targets := by
  unfold NFA.targets
  rcases hn.1 with ht | ht | ht | ht | ht <;> simp [ht]

/-- Automata whose inner nodes read letters, under numbers of their own, or are walked through;
`out2` leads through them to the accepting node, which has no number yet. -/
structure Regular (c : NFACtrl) (roots : List Addr) : Prop where
  unnumbered : ∀ r ∈ roots, (c.heap r).id = 0
  inner : ∀ {a}, Belongs c.heap roots a → a ∉ roots → (c.heap a).Inner
  numbered : ∀ {a}, Belongs c.heap roots a → Counted (c.heap a) →
    0 < (c.heap a).id ∧ (c.heap a).id < c.nextSeqId
  ids : ∀ {a b}, Belongs c.heap roots a → Belongs c.heap roots b → Counted (c.heap a) →
    Counted (c.heap b) → (c.heap a).id = (c.heap b).id → a = b
  exits : ∃ f : Addr → Nat, ∀ {a}, Belongs c.heap roots a → a ∉ roots → f (c.heap a).out2 < f a

namespace Regular

/-- Some of the automata, in any order. -/
theorem mono (hr : Regular c roots) (hsub : roots' ⊆ roots)
    (hnot : ∀ {a}, Belongs c.heap roots' a → a ∈ roots → a ∈ roots') : Regular c roots' := by
  obtain ⟨f, hf⟩ := hr.exits
  refine ⟨fun r hmem => hr.unnumbered r (hsub hmem), fun ha hout => ?_,
    fun ha => hr.numbered (ha.mono hsub), fun ha hb => hr.ids (ha.mono hsub) (hb.mono hsub),
    f, fun ha hout => ?_⟩
  · exact hr.inner (ha.mono hsub) fun hin => hout (hnot ha hin)
  · exact hf (ha.mono hsub) fun hin => hout (hnot ha hin)

theorem perm (hr : Regular c roots) (hperm : roots.Perm roots') : Regular c roots' :=
  hr.mono hperm.symm.subset fun _ hin => hperm.subset hin

/-- No automata. -/
theorem nil (c : NFACtrl) : Regular c [] := by
  have hnone : ∀ {a}, ¬ Belongs c.heap [] a := by
    rintro a ⟨r, hr, -⟩
    cases hr
  exact ⟨by simp, fun ha => absurd ha hnone, fun ha => absurd ha hnone, fun ha => absurd ha hnone,
    id, fun ha => absurd ha hnone⟩

/-- A new letter: a fresh start node with the next number in front of a fresh accepting node. -/
theorem atom (hr : Regular c roots) (ho : Owned c roots live frag) (hnew : NewPair c' live t s)
    (ht : (c'.heap t).type = .accepting ∧ (c'.heap t).parent = s ∧ (c'.heap t).id = 0)
    (hs : (c'.heap s).Inner) (hstart : (c'.heap s).targets = [t]) (hout : (c'.heap s).out2 = t)
    (hid : (c'.heap s).id = c.nextSeqId) (hsame : ∀ x, x ≠ t → x ≠ s → c'.heap x = c.heap x)
    (hseq : c'.nextSeqId = c.nextSeqId + 1) : Regular c' (t :: roots) := by
  obtain ⟨htype, hparent, hzero⟩ := ht
  have hold : ∀ a ∈ live, a ≠ t ∧ a ≠ s ∧ c'.heap a = c.heap a := by
    intro a ha
    have hat : a ≠ t := fun h => hnew.root (h ▸ ha)
    have has : a ≠ s := fun h => hnew.start (h ▸ ha)
    exact ⟨hat, has, hsame a hat has⟩
  have hroot : ∀ r ∈ roots, r ∈ live := fun r hr => (ho.shape.root r hr).1
  have hbelongs : ∀ {a}, Belongs c'.heap (t :: roots) a →
      a = t ∨ a = s ∨ Belongs c.heap roots a := by
    refine Belongs.of_closed (D := fun a => a = t ∨ a = s ∨ Belongs c.heap roots a) ?_ ?_
    · rintro r hr
      rcases List.mem_cons.mp hr with rfl | hr
      · exact .inr (.inl hparent)
      · rw [(hold r (hroot r hr)).2.2]
        exact .inr (.inr (.start hr))
    · rintro a (rfl | rfl | ha) b hb
      · simp [NFA.targets, htype] at hb
      · rw [hstart, List.mem_singleton] at hb
        exact .inl hb
      · rw [(hold a (ho.belongs_mem ha)).2.2] at hb
        exact .inr (.inr (ha.next hb))
  have hnotCounted : ¬ Counted (c'.heap t) := fun h => h.1.2 htype
  have hcounted : ∀ {a}, Belongs c'.heap (t :: roots) a → Counted (c'.heap a) →
      a = s ∨ Belongs c.heap roots a ∧ Counted (c.heap a) ∧ (c'.heap a).id = (c.heap a).id := by
    intro a ha hc
    rcases hbelongs ha with rfl | rfl | ha
    · exact absurd hc hnotCounted
    · exact .inl rfl
    · rw [(hold a (ho.belongs_mem ha)).2.2] at hc ⊢
      exact .inr ⟨ha, hc, rfl⟩
  obtain ⟨f, hf⟩ := hr.exits
  refine ⟨?_, ?_, ?_, ?_, fun a => if a = t then 0 else if a = s then 1 else f a, ?_⟩
  · intro r hmem
    rcases List.mem_cons.mp hmem with rfl | hmem
    · exact hzero
    · rw [(hold r (hroot r hmem)).2.2]
      exact hr.unnumbered r hmem
  · intro a ha hnot
    rw [List.mem_cons, not_or] at hnot
    rcases hbelongs ha with rfl | rfl | ha
    · exact absurd rfl hnot.1
    · exact hs
    · rw [(hold a (ho.belongs_mem ha)).2.2]
      exact hr.inner ha hnot.2
  · intro a ha hc
    rcases hcounted ha hc with rfl | ⟨ha, hc, heq⟩
    · have := ho.count
      omega
    · have := hr.numbered ha hc
      omega
  · intro a b ha hb hca hcb heq
    rcases hcounted ha hca with rfl | ⟨ha, hca, hida⟩
    · rcases hcounted hb hcb with rfl | ⟨hb, hcb, hidb⟩
      · rfl
      · have := hr.numbered hb hcb
        omega
    · rcases hcounted hb hcb with rfl | ⟨hb, hcb, hidb⟩
      · have := hr.numbered ha hca
        omega
      · exact hr.ids ha hb hca hcb (hida.symm.trans (heq.trans hidb))
  · intro a ha hnot
    rw [List.mem_cons, not_or] at hnot
    rcases hbelongs ha with rfl | rfl | ha
    · exact absurd rfl hnot.1
    · simp [hout, hnew.ne]
    · obtain ⟨hat, has, heq⟩ := hold a (ho.belongs_mem ha)
      obtain ⟨hbt, hbs, -⟩ := hold _ (ho.belongs_mem (ha.next (hr.inner ha hnot.2).out2_mem))
      simp only [heq, if_neg hbt, if_neg hbs, if_neg hat, if_neg has]
      exact hf ha hnot.2

/-- The numbers stay when every counted node is an old one, or the copy of an old one. -/
theorem of_origin (hr : Regular c roots) (o : Addr → Addr)
    (hzero : ∀ r ∈ roots', (c'.heap r).id = 0) (hseq : c'.nextSeqId = c.nextSeqId)
    (hinner : ∀ {a}, Belongs c'.heap roots' a → a ∉ roots' → (c'.heap a).Inner)
    (hold : ∀ {a}, Belongs c'.heap roots' a → Counted (c'.heap a) → Belongs c.heap roots (o a) ∧
      Counted (c.heap (o a)) ∧ (c'.heap a).id = (c.heap (o a)).id)
    (hinj : ∀ {a b}, Belongs c'.heap roots' a → Belongs c'.heap roots' b → Counted (c'.heap a) →
      Counted (c'.heap b) → o a = o b → a = b) {f : Addr → Nat}
    (hexits : ∀ {a}, Belongs c'.heap roots' a → a ∉ roots' → f (c'.heap a).out2 < f a) :
    Regular c' roots' := by
  refine ⟨hzero, hinner, fun ha hc => ?_, fun ha hb hca hcb heq => ?_, f, hexits⟩
  · obtain ⟨ha, hc, heq⟩ := hold ha hc
    rw [heq, hseq]
    exact hr.numbered ha hc
  · obtain ⟨ha', hca', hida⟩ := hold ha hca
    obtain ⟨hb', hcb', hidb⟩ := hold hb hcb
    exact hinj ha hb hca hcb (hr.ids ha' hb' hca' hcb' (hida.symm.trans (heq.trans hidb)))

/-- An operand between a fresh start node and a fresh accepting node. -/
theorem wrapped (hr : Regular c (body :: rest)) (ho : Owned c (body :: rest) live frag)
    (hw : Wrapped c c' live body t s ns nb) (hns : ns.type = .split ∨ ns.type = .epsilon)
    (hnb : nb.type = .split ∨ nb.type = .epsilon) (hnsOut : ns.out2 = (c.heap body).parent)
    (hstart : ∀ b ∈ ns.targets, b = t ∨ b = (c.heap body).parent) (hnbOut : nb.out2 = t)
    (hbody : ∀ b ∈ nb.targets, b = t ∨ Belongs c.heap (body :: rest) b) :
    Regular c' (t :: rest) := by
  have hwalked : ∀ {n : NFA}, n.type = .split ∨ n.type = .epsilon → n.Inner ∧ ¬ Counted n := by
    rintro n (ht | ht)
    · exact ⟨⟨by simp [ht], by simp [ht]⟩, fun hc => hc.1.1 (by simp [Passes, ht])⟩
    · exact ⟨⟨by simp [ht], by simp [ht]⟩, fun hc => hc.1.1 (by simp [Passes, ht])⟩
  have hold : ∀ a ∈ live, a ≠ t ∧ a ≠ s := fun a ha =>
    ⟨fun h => hw.root (h ▸ ha), fun h => hw.start (h ▸ ha)⟩
  have hsame : ∀ a ∈ live, a ≠ body → c'.heap a = c.heap a := fun a ha hab =>
    hw.same a (hold a ha).1 (hold a ha).2 hab
  obtain ⟨hfresh, hnodup⟩ := List.nodup_cons.mp ho.shape.nodup
  have hrest : ∀ r ∈ rest, r ∈ live ∧ r ≠ body := fun r hr =>
    ⟨(ho.shape.root r (List.mem_cons_of_mem _ hr)).1, fun h => hfresh (h ▸ hr)⟩
  have htype : (c'.heap t).type = .accepting := by rw [hw.root_eq]; rfl
  have hparent : (c'.heap t).parent = s := by rw [hw.root_eq]
  have hbelongs : ∀ {a}, Belongs c'.heap (t :: rest) a →
      a = t ∨ a = s ∨ Belongs c.heap (body :: rest) a := by
    refine Belongs.of_closed
      (D := fun a => a = t ∨ a = s ∨ Belongs c.heap (body :: rest) a) ?_ ?_
    · intro r hmem
      rcases List.mem_cons.mp hmem with rfl | hmem
      · exact .inr (.inl hparent)
      · obtain ⟨hlive, hne⟩ := hrest r hmem
        rw [hsame r hlive hne]
        exact .inr (.inr (.start (List.mem_cons_of_mem _ hmem)))
    · rintro a (rfl | rfl | ha) b hb
      · simp [NFA.targets, htype] at hb
      · rw [hw.start_eq] at hb
        rcases hstart b hb with rfl | rfl
        · exact .inl rfl
        · exact .inr (.inr (.start (by simp)))
      · by_cases hab : a = body
        · rw [hab, hw.body_eq] at hb
          exact (hbody b hb).imp_right .inr
        · rw [hsame a (ho.belongs_mem ha) hab] at hb
          exact .inr (.inr (ha.next hb))
  have hnotCounted : ¬ Counted (c'.heap t) := fun hc => hc.1.2 htype
  have hcounted : ∀ {a}, Belongs c'.heap (t :: rest) a → Counted (c'.heap a) →
      Belongs c.heap (body :: rest) a ∧ Counted (c.heap a) ∧ (c'.heap a).id = (c.heap a).id := by
    intro a ha hc
    rcases hbelongs ha with rfl | rfl | ha
    · exact absurd hc hnotCounted
    · rw [hw.start_eq] at hc
      exact absurd hc (hwalked hns).2
    · by_cases hab : a = body
      · rw [hab, hw.body_eq] at hc
        exact absurd hc (hwalked hnb).2
      · rw [hsame a (ho.belongs_mem ha) hab] at hc ⊢
        exact ⟨ha, hc, rfl⟩
  obtain ⟨f, hf⟩ := hr.exits
  refine hr.of_origin id ?_ hw.seq ?_ hcounted (fun _ _ _ _ heq => heq)
    (f := fun a => if a = t then 0 else if a = s then f (c.heap body).parent + 2 else f a + 1) ?_
  · intro r hmem
    rcases List.mem_cons.mp hmem with rfl | hmem
    · rw [hw.root_eq]
      rfl
    · obtain ⟨hlive, hne⟩ := hrest r hmem
      rw [hsame r hlive hne]
      exact hr.unnumbered r (List.mem_cons_of_mem _ hmem)
  · intro a ha hnot
    rw [List.mem_cons, not_or] at hnot
    rcases hbelongs ha with rfl | rfl | ha
    · exact absurd rfl hnot.1
    · rw [hw.start_eq]
      exact (hwalked hns).1
    · by_cases hab : a = body
      · rw [hab, hw.body_eq]
        exact (hwalked hnb).1
      · rw [hsame a (ho.belongs_mem ha) hab]
        exact hr.inner ha (by simp [hab, hnot.2])
  · intro a ha hnot
    rw [List.mem_cons, not_or] at hnot
    rcases hbelongs ha with rfl | rfl | ha
    · exact absurd rfl hnot.1
    · obtain ⟨hbt, hbs⟩ := hold _ (ho.shape.start body (by simp)).1
      rw [hw.start_eq, hnsOut, if_neg hbt, if_neg hbs, if_neg hw.ne, if_pos rfl]
      omega
    · obtain ⟨hat, has⟩ := hold a (ho.belongs_mem ha)
      rw [if_neg hat, if_neg has]
      by_cases hab : a = body
      · rw [hab, hw.body_eq, hnbOut, if_pos rfl]
        omega
      · have hout : a ∉ body :: rest := by simp [hab, hnot.2]
        obtain ⟨hbt, hbs⟩ := hold _ (ho.belongs_mem (ha.next (hr.inner ha hout).out2_mem))
        rw [hsame a (ho.belongs_mem ha) hab, if_neg hbt, if_neg hbs]
        exact Nat.succ_lt_succ (hf ha hout)

/-- An operand behind another one. -/
theorem joined {prev next : Addr} (hr : Regular c (prev :: next :: rest))
    (ho : Owned c (prev :: next :: rest) live frag) (hj : Joined c c' prev next)
    (hseq : c'.nextSeqId = c.nextSeqId) : Regular c' (next :: rest) := by
  obtain ⟨hne, hprest, hnrest⟩ : prev ≠ next ∧ prev ∉ rest ∧ next ∉ rest := by
    have := ho.shape.nodup
    simp only [List.nodup_cons, List.mem_cons, not_or] at this
    exact ⟨this.1.1, this.1.2, this.2.1⟩
  obtain ⟨hpl, hpf, -⟩ := ho.shape.root prev (by simp)
  obtain ⟨hnl, hnf, hnt⟩ := ho.shape.root next (by simp)
  obtain ⟨hsl, hsf, -⟩ := ho.shape.start prev (by simp)
  obtain ⟨hdl, hdf, hdn⟩ := ho.shape.start next (by simp)
  have hdp : (c.heap next).parent ≠ prev := fun h => hne (by rw [← hpf, ← h, hdf])
  have hdrest : (c.heap next).parent ∉ rest := fun h => by
    have := (ho.shape.root _ (List.mem_cons_of_mem _ (List.mem_cons_of_mem _ h))).2.1
    exact hnrest ((hdf.symm.trans this) ▸ h)
  obtain ⟨hsame, hprev, hnext⟩ := hj
  set d := (c.heap next).parent with hd
  have hrest : ∀ r ∈ rest, c'.heap r = c.heap r := by
    intro r hr
    exact hsame r (fun h => hprest (h ▸ hr)) (fun h => hnrest (h ▸ hr)) fun h => hdrest (h ▸ hr)
  have htype : (c'.heap next).type = .accepting := by
    rw [hnext]
    exact hnt
  -- nothing points to the start node of the second operand
  have hback : ∀ a, Belongs c.heap (prev :: next :: rest) a → ∀ b ∈ (c.heap a).targets, b ≠ d := by
    rintro a ha b hb rfl
    obtain ⟨-, hbf, hbs⟩ := ho.shape.target a (ho.belongs_mem ha) _ hb
    rw [hdf] at hbf
    exact hbs (by rw [← hbf])
  have hbelongs : ∀ {a}, Belongs c'.heap (next :: rest) a →
      a ≠ d ∧ Belongs c.heap (prev :: next :: rest) a := by
    refine Belongs.of_closed
      (D := fun a => a ≠ d ∧ Belongs c.heap (prev :: next :: rest) a) ?_ ?_
    · intro r hmem
      rcases List.mem_cons.mp hmem with rfl | hmem
      · rw [hnext]
        exact ⟨fun h => hne (by rw [← hsf, h, hdf]), .start (by simp)⟩
      · rw [hrest r hmem]
        refine ⟨fun h => hnrest ?_, .start (by simp [hmem])⟩
        have := (ho.shape.start r (by simp [hmem])).2.1
        rw [h, hdf] at this
        exact this ▸ hmem
    · rintro a ⟨had, ha⟩ b hb
      by_cases hap : a = prev
      · rw [hap, hprev] at hb
        have hstart : Belongs c.heap (prev :: next :: rest) d := .start (by simp)
        exact ⟨hback d hstart b hb, hstart.next hb⟩
      · by_cases han : a = next
        · rw [han] at hb
          simp [NFA.targets, htype] at hb
        · rw [hsame a hap han had] at hb
          exact ⟨hback a ha b hb, ha.next hb⟩
  have hdbelongs : Belongs c.heap (prev :: next :: rest) d := .start (by simp)
  have hdout : d ∉ prev :: next :: rest := by simp [hdp, hdn, hdrest]
  obtain ⟨f, hf⟩ := hr.exits
  refine hr.of_origin (fun a => if a = prev then d else a) ?_ hseq ?_ ?_ ?_
    (f := fun a => if frag a = prev then f a + f d else f a) ?_
  · intro r hmem
    rcases List.mem_cons.mp hmem with rfl | hmem
    · rw [hnext]
      exact hr.unnumbered r (by simp)
    · rw [hrest r hmem]
      exact hr.unnumbered r (by simp [hmem])
  · intro a ha hnot
    rw [List.mem_cons, not_or] at hnot
    obtain ⟨had, ha⟩ := hbelongs ha
    by_cases hap : a = prev
    · rw [hap, hprev]
      exact hr.inner hdbelongs hdout
    · rw [hsame a hap hnot.1 had]
      exact hr.inner ha (by simp [hap, hnot])
  · intro a ha hc
    obtain ⟨had, ha⟩ := hbelongs ha
    by_cases hap : a = prev
    · rw [if_pos hap]
      rw [hap, hprev] at hc ⊢
      exact ⟨hdbelongs, hc, rfl⟩
    · rw [if_neg hap]
      by_cases han : a = next
      · rw [han] at hc
        exact absurd htype hc.1.2
      · rw [hsame a hap han had] at hc ⊢
        exact ⟨ha, hc, rfl⟩
  · intro a b ha hb _ _ heq
    have had := (hbelongs ha).1
    have hbd := (hbelongs hb).1
    by_cases hap : a = prev
    · by_cases hbp : b = prev
      · rw [hap, hbp]
      · rw [if_pos hap, if_neg hbp] at heq
        exact absurd heq.symm hbd
    · by_cases hbp : b = prev
      · rw [if_neg hap, if_pos hbp] at heq
        exact absurd heq had
      · rwa [if_neg hap, if_neg hbp] at heq
  · intro a ha hnot
    rw [List.mem_cons, not_or] at hnot
    obtain ⟨had, ha⟩ := hbelongs ha
    by_cases hap : a = prev
    · have hless := hf hdbelongs hdout
      obtain ⟨-, hbf, -⟩ := ho.shape.target d hdl _ (hr.inner hdbelongs hdout).out2_mem
      rw [hap, hprev, if_pos hpf, if_neg (by rw [hbf, hdf]; exact hne.symm)]
      omega
    · have hout : a ∉ prev :: next :: rest := by simp [hap, hnot]
      have hless := hf ha hout
      obtain ⟨-, hbf, -⟩ := ho.shape.target a (ho.belongs_mem ha) _ (hr.inner ha hout).out2_mem
      rw [hsame a hap hnot.1 had, hbf]
      split <;> omega

end Regular

/-- Automata that spell given languages, with regular nodes. -/
structure Grown (c : NFACtrl) (fs : List (Addr × Language Int)) : Prop extends Spelling c fs where
  regular : Regular c (fs.map Prod.fst)

@[simp] theorem NFACtrl.nextSeqId_concatenateNfa (c : NFACtrl) (prev next : Addr) :
    (c.concatenateNfa prev next).2.nextSeqId = c.nextSeqId := by
  unfold NFACtrl.concatenateNfa
  split
  · rfl
  · split
    · rfl
    · simp

namespace Grown

open scoped Computability

variable {fs fs' : List (Addr × Language Int)} {L L' : Language Int}

/-- Before anything is built. -/
theorem init {num : Nat} (hnum : 0 < num) : Grown (({} : NFACtrl).allocInit num) [] :=
  ⟨(Built.init hnum).spelling, .nil _⟩

theorem perm (hg : Grown c fs) (hperm : fs.Perm fs') : Grown c fs' :=
  ⟨hg.toSpelling.perm hperm, hg.regular.perm (hperm.map _)⟩

theorem newLiteralNfa (hg : Grown c fs) (ch : Int) {type : NfaType}
    (htype : type = .any ∨ type = .literal ∧ ch ≠ eolSymbol)
    (hL : ∀ v, v ∈ L ↔ ∃ x, NFA.Reads { type := type, literal := ch } x ∧ v = [x]) :
    Grown (c.newLiteralNfa ch type).2 (((c.newLiteralNfa ch type).1, L) :: fs) := by
  obtain ⟨live, frag, ho⟩ := hg.owned
  refine ⟨hg.toSpelling.newLiteralNfa ch (htype.imp_right And.left) hL, ?_⟩
  obtain ⟨t, s, c', hrun, hnew, ht, hs, hsame, hseq⟩ := ho.alloc.newLiteralNfa ch type
  rw [hrun]
  refine hg.regular.atom ho hnew ?_ ?_ ?_ (by rw [hs]) (by rw [hs]) hsame hseq
  · rw [ht]
    exact ⟨rfl, rfl, rfl⟩
  · rw [hs]
    rcases htype with rfl | ⟨rfl, hch⟩
    · exact ⟨by simp [NFA.renewed], by simp [NFA.renewed]⟩
    · exact ⟨by simp [NFA.renewed], fun _ => hch⟩
  · rw [hs, NFA.targets_eq]
    rcases htype with rfl | ⟨rfl, -⟩ <;> simp [NFA.renewed]

theorem literal (hg : Grown c fs) {ch : Int} (hch : ch ≠ eolSymbol) :
    Grown (c.newLiteralNfa ch .literal).2 (((c.newLiteralNfa ch .literal).1, {[ch]}) :: fs) :=
  hg.newLiteralNfa ch (Or.inr ⟨rfl, hch⟩) fun v => by
    change v = [ch] ↔ ∃ x, x = ch ∧ v = [x]
    rw [exists_eq_left]

theorem any (hg : Grown c fs) (ch : Int) :
    Grown (c.newLiteralNfa ch .any).2
      (((c.newLiteralNfa ch .any).1, {v | ∃ ch, ch ≠ eolSymbol ∧ v = [ch]}) :: fs) :=
  hg.newLiteralNfa ch (Or.inl rfl) fun _ => Iff.rfl

theorem rangeNfa (hg : Grown c fs) (negate : Bool) (bounds : List (Nat × Nat)) :
    Grown (Recognizer.rangeNfa c negate bounds).2
      (((Recognizer.rangeNfa c negate bounds).1, {v | ∃ ch, InRange negate bounds ch ∧ v = [ch]})
        :: fs) := by
  obtain ⟨live, frag, ho⟩ := hg.owned
  refine ⟨hg.toSpelling.rangeNfa negate bounds, ?_⟩
  obtain ⟨t, s, c', hrun, hnew, ht, hs, hsame, hseq⟩ := ho.alloc.newRangeNfa negate
  have hts : t ≠ s := hnew.ne.symm
  unfold Recognizer.rangeNfa
  rw [hrun]
  dsimp only [List.map_cons]
  rw [updateRanges_eq hts (by rw [ht])]
  refine hg.regular.atom (s := s) ho
    ⟨hnew.root, hnew.start, hnew.ne, hnew.nonzero, hnew.alloc.congr rfl⟩ ?_ ?_ ?_ ?_ ?_
    (fun x hxt hxs => ?_) hseq
  · rw [NFACtrl.heap_modify, Heap.modify_of_ne _ hts, ht]
    exact ⟨rfl, rfl, rfl⟩
  · rw [NFACtrl.heap_modify, Heap.modify_self, hs]
    exact ⟨by simp [NFA.renewed], by simp [NFA.renewed]⟩
  · rw [NFACtrl.heap_modify, Heap.modify_self, hs, NFA.targets_eq]
    simp [NFA.renewed]
  · rw [NFACtrl.heap_modify, Heap.modify_self, hs]
  · rw [NFACtrl.heap_modify, Heap.modify_self, hs]
  · rw [NFACtrl.heap_modify, Heap.modify_of_ne _ hxs, hsame x hxt hxs]

theorem concatenate {prev next : Addr} (hg : Grown c ((prev, L) :: (next, L') :: fs)) :
    Grown (c.concatenateNfa prev next).2 (((c.concatenateNfa prev next).1, L * L') :: fs) := by
  obtain ⟨live, frag, ho⟩ := hg.owned
  refine ⟨hg.toSpelling.concatenate, ?_⟩
  have hp : prev ≠ 0 := hg.nonzero (prev, L) (by simp)
  have hn : next ≠ 0 := hg.nonzero (next, L') (by simp)
  have hne : prev ≠ next := by
    have := ho.shape.nodup
    simp only [List.map_cons, List.nodup_cons, List.mem_cons, not_or] at this
    exact this.1.1
  obtain ⟨-, hpf, -⟩ := ho.shape.root prev (by simp)
  obtain ⟨-, hdf, hdn⟩ := ho.shape.start next (by simp)
  have hdp : (c.heap next).parent ≠ prev := fun h => hne (by rw [← hpf, ← h, hdf])
  have hseq := NFACtrl.nextSeqId_concatenateNfa c prev next
  obtain ⟨c', hrun, hj⟩ := joined_concatenateNfa hp hn hne hdp hdn
  rw [hrun] at hseq ⊢
  exact hg.regular.joined ho hj hseq

/-- The head of an operand's loop is one of its nodes. -/
theorem tighten_belongs {c₃ : NFACtrl} (hin : body ∈ roots) (ho : Owned c roots live frag)
    (ht : Tightens c c₃ live body) : Belongs c.heap roots (c₃.tighten (c.heap body).parent) := by
  refine skipEpsilon_mem (S := fun a => Belongs c.heap roots a) ?_ _ (.start hin)
  intro a ha htype
  have hal := ho.belongs_mem ha
  have hab : a ≠ body := fun h => ht.2 (h ▸ htype)
  rw [ht.1 a hal hab] at htype ⊢
  have hmem : (c.heap a).out2 ∈ (c.heap a).targets := by simp [NFA.targets, htype]
  refine ⟨fun h => ?_, ha.next hmem⟩
  exact ho.alloc.zero_notMem (h ▸ ho.belongs_mem (ha.next hmem))

theorem kleene (hg : Grown c ((body, L) :: fs)) :
    Grown (c.newKleeneNfa body).2 (((c.newKleeneNfa body).1, L∗) :: fs) := by
  obtain ⟨live, frag, ho⟩ := hg.owned
  refine ⟨hg.toSpelling.kleene, ?_⟩
  obtain ⟨t, s, c₃, c', hrun, htight, hw⟩ := ho.alloc.newKleeneNfa
    (ho.shape.root body (by simp)).1 (ho.shape.start body (by simp)).1
  have hx := tighten_belongs (by simp) ho htight
  rw [hrun]
  refine hg.regular.wrapped ho hw (.inl rfl) (.inl rfl) rfl ?_ rfl ?_
  · simp [NFA.targets, NFA.renewed]
  · intro b hb
    simp only [NFA.targets, List.mem_cons, List.not_mem_nil, or_false] at hb
    rcases hb with rfl | rfl
    · exact .inr hx
    · exact .inl rfl

theorem posclosure (hg : Grown c ((body, L) :: fs)) :
    Grown (c.newPosclosureNfa body).2 (((c.newPosclosureNfa body).1, L * L∗) :: fs) := by
  obtain ⟨live, frag, ho⟩ := hg.owned
  refine ⟨hg.toSpelling.posclosure, ?_⟩
  obtain ⟨t, s, c₃, c', hrun, htight, hw⟩ := ho.alloc.newPosclosureNfa
    (ho.shape.root body (by simp)).1 (ho.shape.start body (by simp)).1
  have hx := tighten_belongs (by simp) ho htight
  rw [hrun]
  refine hg.regular.wrapped ho hw (.inr rfl) (.inl rfl) rfl ?_ rfl ?_
  · simp [NFA.targets, NFA.renewed]
  · intro b hb
    simp only [NFA.targets, List.mem_cons, List.not_mem_nil, or_false] at hb
    rcases hb with rfl | rfl
    · exact .inr hx
    · exact .inl rfl

theorem qmark (hg : Grown c ((body, L) :: fs)) :
    Grown (c.newQmarkNfa body).2 (((c.newQmarkNfa body).1, 1 + L) :: fs) := by
  obtain ⟨live, frag, ho⟩ := hg.owned
  refine ⟨hg.toSpelling.qmark, ?_⟩
  obtain ⟨t, s, c', hrun, hw⟩ := ho.alloc.newQmarkNfa
    (ho.shape.root body (by simp)).1 (ho.shape.start body (by simp)).1
  rw [hrun]
  refine hg.regular.wrapped ho hw (.inl rfl) (.inr rfl) rfl ?_ rfl ?_
  · simp [NFA.targets, NFA.renewed]
  · simp [NFA.targets]

/-- `new_lliteral_nfa` appends one literal after the other. -/
theorem lliteral (hg : Grown c fs) {ch : Int} {src : List Int}
    (hsrc : ∀ x ∈ ch :: src, x ≠ eolSymbol) :
    Grown (c.newLliteralNfa (ch :: src)).2
      (((c.newLliteralNfa (ch :: src)).1, {ch :: src}) :: fs) := by
  suffices hfold : ∀ (src pre : List Int) (r : Addr × NFACtrl), (∀ x ∈ src, x ≠ eolSymbol) →
      Grown r.2 ((r.1, ({pre} : Language Int)) :: fs) →
      Grown (src.foldl NFACtrl.appendLiteral r).2
        (((src.foldl NFACtrl.appendLiteral r).1, {pre ++ src}) :: fs) from
    hfold src [ch] _ (fun x hx => hsrc x (by simp [hx])) (hg.literal (hsrc ch (by simp)))
  intro src
  induction src with
  | nil => exact fun pre r _ hr => by simpa using hr
  | cons x src ih =>
    intro pre r hsrc hr
    have hnext := ((hr.literal (hsrc x (by simp))).perm (List.Perm.swap _ _ _)).concatenate
    have hword : ({pre} : Language Int) * {[x]} = {pre ++ [x]} := by
      ext v
      change (∃ a, a = pre ∧ ∃ b, b = [x] ∧ a ++ b = v) ↔ v = pre ++ [x]
      rw [exists_eq_left, exists_eq_left]
      exact eq_comm
    rw [hword] at hnext
    have hrest := ih (pre ++ [x]) (NFACtrl.appendLiteral r x)
      (fun y hy => hsrc y (by simp [hy])) hnext
    rwa [List.append_assoc] at hrest

end Grown

end Recognizer
