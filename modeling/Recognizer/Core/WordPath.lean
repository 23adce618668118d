import Mathlib.Computability.Language

/-!
# Graphs whose paths spell words

Some edges of a graph are silent, the others read a letter. A region of such a
graph that can only be left at its last node keeps its language when the rest of
the graph changes, and a loop from the last node back into the region spells the
iterations of that language.
-/

namespace WordPath

open scoped Computability

universe u w

variable {V : Type u} {A : Type w}

/-- The edges of a graph. -/
structure Graph (V : Type u) (A : Type w) where
  silent : V → V → Prop
  reads : V → A → V → Prop

variable {G G' : Graph V A} {F : Set V} {a b d e s t x : V} {v : List A}

/-- A path from one node to another that spells a word. -/
inductive Spells (G : Graph V A) : V → List A → V → Prop where
  | nil (a : V) : Spells G a [] a
  | silent {a b e : V} {v : List A} (hedge : G.silent a b) (h : Spells G b v e) : Spells G a v e
  | read {a b e : V} {c : A} {v : List A} (hedge : G.reads a c b) (h : Spells G b v e) :
    Spells G a (c :: v) e

/-- The words spelled between two nodes. -/
def language (G : Graph V A) (a e : V) : Language A := {v | Spells G a v e}

@[simp] theorem mem_language : v ∈ language G a e ↔ Spells G a v e := Iff.rfl

/-- No edge leaves a node. -/
def Final (G : Graph V A) (a : V) : Prop := (∀ b, ¬ G.silent a b) ∧ ∀ c b, ¬ G.reads a c b

/-- A node of one graph has the edges of a node of another. -/
def SameEdgesAt (G' G : Graph V A) (a b : V) : Prop :=
  (∀ x, G'.silent a x ↔ G.silent b x) ∧ ∀ c x, G'.reads a c x ↔ G.reads b c x

theorem Spells.append {v' : List A} (h : Spells G a v b) (h' : Spells G b v' e) :
    Spells G a (v ++ v') e := by
  induction h with
  | nil => exact h'
  | silent hedge _ ih => exact .silent hedge (ih h')
  | read hedge _ ih => exact .read hedge (ih h')

theorem spells_of_final (hfinal : Final G a) : Spells G a v e ↔ v = [] ∧ e = a := by
  constructor
  · intro h
    cases h with
    | nil => exact ⟨rfl, rfl⟩
    | silent hedge => exact absurd hedge (hfinal.1 _)
    | read hedge => exact absurd hedge (hfinal.2 _ _)
  · rintro ⟨rfl, rfl⟩
    exact .nil e

/-- A path spells the empty word exactly if all its edges are silent. -/
theorem spells_nil_iff : Spells G a [] e ↔ Relation.ReflTransGen G.silent a e := by
  constructor
  · intro h
    generalize hv : ([] : List A) = v at h
    induction h with
    | nil => exact .refl
    | silent hedge _ ih => exact .head hedge (ih hv)
    | read => cases hv
  · intro h
    induction h using Relation.ReflTransGen.head_induction_on with
    | refl => exact .nil e
    | head hedge _ ih => exact .silent hedge ih

/-- The last letter of a word is read in front of silent edges. -/
theorem spells_append_singleton_iff {c : A} : Spells G a (v ++ [c]) e ↔
    ∃ m b, Spells G a v m ∧ G.reads m c b ∧ Relation.ReflTransGen G.silent b e := by
  constructor
  · intro h
    generalize hw : v ++ [c] = w at h
    induction h generalizing v with
    | nil => simp at hw
    | silent hedge _ ih =>
      obtain ⟨m, b, hm, hread, hb⟩ := ih hw
      exact ⟨m, b, .silent hedge hm, hread, hb⟩
    | @read a b e d w hedge h ih =>
      cases v with
      | nil =>
        obtain ⟨rfl, rfl⟩ := List.cons.inj hw
        exact ⟨a, b, .nil a, hedge, spells_nil_iff.mp h⟩
      | cons x v =>
        obtain ⟨rfl, htail⟩ := List.cons.inj hw
        obtain ⟨m, b, hm, hread, hb⟩ := ih htail
        exact ⟨m, b, .read hedge hm, hread, hb⟩
  · rintro ⟨m, b, hm, hread, hb⟩
    exact hm.append (.read hread (spells_nil_iff.mpr hb))

section Steps

/-- From its last node a path spells the empty word only. -/
theorem language_final (hfinal : Final G a) : language G a a = 1 := by
  ext v
  rw [mem_language, spells_of_final hfinal, Language.mem_one]
  exact and_iff_left rfl

/-- A node with one silent edge. -/
theorem language_silent (hsilent : ∀ y, G.silent a y ↔ y = x) (hreads : ∀ c y, ¬ G.reads a c y)
    (hne : a ≠ e) : language G a e = language G x e := by
  ext v
  constructor
  · intro h
    cases h with
    | nil => exact absurd rfl hne
    | silent hedge h => exact (hsilent _).mp hedge ▸ h
    | read hedge => exact absurd hedge (hreads _ _)
  · exact .silent ((hsilent x).mpr rfl)

/-- A node with two silent edges. -/
theorem language_split (hsilent : ∀ y, G.silent a y ↔ y = x ∨ y = d)
    (hreads : ∀ c y, ¬ G.reads a c y) (hne : a ≠ e) :
    language G a e = language G x e + language G d e := by
  ext v
  rw [Language.mem_add]
  constructor
  · intro h
    cases h with
    | nil => exact absurd rfl hne
    | silent hedge h =>
      rcases (hsilent _).mp hedge with rfl | rfl
      · exact Or.inl h
      · exact Or.inr h
    | read hedge => exact absurd hedge (hreads _ _)
  · rintro (h | h)
    · exact .silent ((hsilent x).mpr (Or.inl rfl)) h
    · exact .silent ((hsilent d).mpr (Or.inr rfl)) h

/-- A node that reads letters and then is at the end. -/
theorem language_read {P : A → Prop} (hsilent : ∀ y, ¬ G.silent a y)
    (hreads : ∀ c y, G.reads a c y ↔ P c ∧ y = e) (hfinal : Final G e) (hne : a ≠ e) :
    language G a e = {v | ∃ c, P c ∧ v = [c]} := by
  ext v
  constructor
  · intro h
    cases h with
    | nil => exact absurd rfl hne
    | silent hedge => exact absurd hedge (hsilent _)
    | read hedge h =>
      obtain ⟨hc, rfl⟩ := (hreads _ _).mp hedge
      obtain ⟨rfl, -⟩ := (spells_of_final hfinal).mp h
      exact ⟨_, hc, rfl⟩
  · rintro ⟨c, hc, rfl⟩
    exact .read ((hreads c e).mpr ⟨hc, rfl⟩) (.nil e)

end Steps

/-- A set of nodes that no edge leaves and in which a path ends at `t`. -/
structure Region (G : Graph V A) (F : Set V) (t : V) : Prop where
  root : t ∈ F
  final : Final G t
  silent : ∀ a ∈ F, ∀ b, G.silent a b → b ∈ F
  reads : ∀ a ∈ F, ∀ c b, G.reads a c b → b ∈ F

namespace Region

variable (hF : Region G F t) (hsame : ∀ a ∈ F, a ≠ t → SameEdgesAt G' G a a)

include hF hsame

/-- Paths to the end of the region stay when only the edges of its end change. -/
theorem spells (ha : a ∈ F) (h : Spells G a v t) : Spells G' a v t := by
  induction h with
  | nil a => exact .nil a
  | @silent a b t v hedge _ ih =>
    have hne : a ≠ t := fun hat => hF.final.1 b (hat ▸ hedge)
    exact .silent (((hsame a ha hne).1 b).mpr hedge) (ih hF hsame (hF.silent a ha b hedge))
  | @read a b t c v hedge _ ih =>
    have hne : a ≠ t := fun hat => hF.final.2 c b (hat ▸ hedge)
    exact .read (((hsame a ha hne).2 c b).mpr hedge) (ih hF hsame (hF.reads a ha c b hedge))

/-- The way out of the region leads through its end. -/
theorem language_exit (ha : a ∈ F) (he : e ∉ F) :
    language G' a e = language G a t * language G' t e := by
  ext v
  rw [Language.mem_mul]
  constructor
  · intro h
    change Spells G' a v e at h
    induction h with
    | nil a => exact absurd ha he
    | @silent a b e v hedge hrest ih =>
      by_cases hat : a = t
      · subst hat
        exact ⟨[], .nil a, v, .silent hedge hrest, rfl⟩
      · have hedge' := ((hsame a ha hat).1 b).mp hedge
        obtain ⟨v₁, h₁, v₂, h₂, rfl⟩ := ih (hF.silent a ha b hedge') he
        exact ⟨v₁, .silent hedge' h₁, v₂, h₂, rfl⟩
    | @read a b e c v hedge hrest ih =>
      by_cases hat : a = t
      · subst hat
        exact ⟨[], .nil a, c :: v, .read hedge hrest, rfl⟩
      · have hedge' := ((hsame a ha hat).2 c b).mp hedge
        obtain ⟨v₁, h₁, v₂, h₂, rfl⟩ := ih (hF.reads a ha c b hedge') he
        exact ⟨c :: v₁, .read hedge' h₁, v₂, h₂, rfl⟩
  · rintro ⟨v₁, h₁, v₂, h₂, rfl⟩
    exact (hF.spells hsame ha h₁).append h₂

/-- A region whose end stays final keeps its language. -/
theorem language_congr (hfinal : Final G' t) (ha : a ∈ F) :
    language G' a t = language G a t := by
  have hF' : Region G' F t := by
    refine ⟨hF.root, hfinal, fun b hb x hedge => ?_, fun b hb c x hedge => ?_⟩
    · by_cases hbt : b = t
      · exact absurd hedge (hbt ▸ hfinal.1 x)
      · exact hF.silent b hb x (((hsame b hb hbt).1 x).mp hedge)
    · by_cases hbt : b = t
      · exact absurd hedge (hbt ▸ hfinal.2 c x)
      · exact hF.reads b hb c x (((hsame b hb hbt).2 c x).mp hedge)
  ext v
  refine ⟨hF'.spells (fun b hb hbt => ?_) ha, hF.spells hsame ha⟩
  exact ⟨fun x => ((hsame b hb hbt).1 x).symm, fun c x => ((hsame b hb hbt).2 c x).symm⟩

/-- A loop from the end of the region back into it, with one way out. -/
theorem language_loop (hx : x ∈ F) (hback : language G x t = language G s t)
    (hsilent : ∀ y, G'.silent t y ↔ y = x ∨ y = e) (hreads : ∀ c y, ¬ G'.reads t c y)
    (hfinal : Final G' e) (he : e ∉ F) : language G' t e = (language G s t)∗ := by
  have hte : t ≠ e := fun hte => he (hte ▸ hF.root)
  have hout : ∀ a v, Spells G' a v e → a ∈ F → v ∈ language G a t * (language G s t)∗ := by
    intro a v h
    induction h with
    | nil a => exact fun ha => absurd ha he
    | @silent a b e v hedge hrest ih =>
      intro ha
      by_cases hat : a = t
      · subst hat
        refine Language.mem_mul.mpr ⟨[], .nil a, v, ?_, rfl⟩
        rcases (hsilent b).mp hedge with rfl | rfl
        · have hround := ih hsilent hfinal he hte hx
          rw [hback] at hround
          rw [← Language.one_add_self_mul_kstar_eq_kstar]
          exact Or.inr hround
        · obtain ⟨rfl, -⟩ := (spells_of_final hfinal).mp hrest
          exact Language.nil_mem_kstar _
      · have hedge' := ((hsame a ha hat).1 b).mp hedge
        obtain ⟨v₁, h₁, v₂, h₂, rfl⟩ := Language.mem_mul.mp
          (ih hsilent hfinal he hte (hF.silent a ha b hedge'))
        exact Language.mem_mul.mpr ⟨v₁, .silent hedge' h₁, v₂, h₂, rfl⟩
    | @read a b e c v hedge hrest ih =>
      intro ha
      have hat : a ≠ t := fun hat => hreads c b (hat ▸ hedge)
      have hedge' := ((hsame a ha hat).2 c b).mp hedge
      obtain ⟨v₁, h₁, v₂, h₂, rfl⟩ := Language.mem_mul.mp
        (ih hsilent hfinal he hte (hF.reads a ha c b hedge'))
      exact Language.mem_mul.mpr ⟨c :: v₁, .read hedge' h₁, v₂, h₂, rfl⟩
  ext v
  constructor
  · intro h
    obtain ⟨v₁, h₁, v₂, h₂, rfl⟩ := Language.mem_mul.mp (hout t v h hF.root)
    obtain ⟨rfl, -⟩ := (spells_of_final hF.final).mp h₁
    exact h₂
  · intro h
    obtain ⟨L, rfl, hL⟩ := Language.mem_kstar.mp h
    clear h
    induction L with
    | nil => exact .silent ((hsilent e).mpr (Or.inr rfl)) (.nil e)
    | cons u L ih =>
      rw [List.flatten_cons]
      have hu : u ∈ language G x t := hback ▸ hL u (by simp)
      refine .silent ((hsilent x).mpr (Or.inl rfl)) ?_
      exact (hF.spells hsame hx hu).append (ih fun y hy => hL y (by simp [hy]))

end Region

/-- A node with the edges of another one has its language, if their edges lead to
nodes with the same languages. -/
theorem language_of_sameEdgesAt (hedges : SameEdgesAt G' G a b) (hae : a ≠ e) (hbe : b ≠ e)
    (hnext : ∀ x, (G.silent b x ∨ ∃ c, G.reads b c x) → language G' x e = language G x e) :
    language G' a e = language G b e := by
  have hmem : ∀ x, (G.silent b x ∨ ∃ c, G.reads b c x) → ∀ v, Spells G' x v e ↔ Spells G x v e :=
    fun x hx v => by rw [← mem_language, hnext x hx, mem_language]
  ext v
  constructor
  · intro h
    cases h with
    | nil => exact absurd rfl hae
    | silent hedge h =>
      have hedge' := (hedges.1 _).mp hedge
      exact .silent hedge' ((hmem _ (Or.inl hedge') _).mp h)
    | read hedge h =>
      have hedge' := (hedges.2 _ _).mp hedge
      exact .read hedge' ((hmem _ (Or.inr ⟨_, hedge'⟩) _).mp h)
  · intro h
    cases h with
    | nil => exact absurd rfl hbe
    | silent hedge h =>
      exact .silent ((hedges.1 _).mpr hedge) ((hmem _ (Or.inl hedge) _).mpr h)
    | read hedge h =>
      exact .read ((hedges.2 _ _).mpr hedge) ((hmem _ (Or.inr ⟨_, hedge⟩) _).mpr h)

end WordPath
