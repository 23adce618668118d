import Recognizer.Core.Repetition
import Recognizer.Parse.Language

/-!
# How often an automaton goes through its operand

The nodes around an operand decide how often it is gone through. An interval node that is
reached behind the first time stands for as many further times as its bounds allow, and for
any number of them when the upper bound is not positive.
-/

namespace Recognizer

variable {c c' : NFACtrl} {h h' : Heap} {inside : Set Addr} {exit a b e s t i target : Addr}
  {k : Nat} {min max : Int} {live : Finset Addr} {rest : List Addr} {frag : Addr → Addr}

/-- A path around an operand, whose nodes are `inside` and whose last one is `exit`, with the
number of times it goes through the operand. -/
inductive Repeats (h : Heap) (inside : Set Addr) (exit : Addr) : Addr → Nat → Addr → Prop where
  | stop (a : Addr) : Repeats h inside exit a 0 a
  | operand {a e : Addr} {k : Nat} (ha : a ∈ inside) (hne : a ≠ exit)
      (hrest : Repeats h inside exit exit k e) : Repeats h inside exit a (k + 1) e
  | again {b e : Addr} {k : Nat} (hedge : (h exit).Silent b) (hb : b ∈ inside)
      (hrest : Repeats h inside exit exit k e) : Repeats h inside exit exit (k + 1) e
  | leave {b e : Addr} {k : Nat} (hedge : (h exit).Silent b) (hb : b ∉ inside)
      (hrest : Repeats h inside exit b k e) : Repeats h inside exit exit k e
  | outer {a b e : Addr} {k : Nat} (ha : a ∉ inside) (hedge : (h a).Silent b)
      (hrest : Repeats h inside exit b k e) : Repeats h inside exit a k e
  | interval {a e : Addr} {k : Nat} (ha : a ∉ inside) (htype : (h a).type = .interval) (j : Nat)
      (hmin : (h a).minRep ≤ j + 1) (hmax : 0 < (h a).maxRep → (j : Int) + 1 ≤ (h a).maxRep)
      (hrest : Repeats h inside exit (h a).out2 k e) : Repeats h inside exit a (k + j) e

/-- The bounds of an interval as they are read. -/
def Within (min max : Int) (k : Nat) : Prop := min ≤ k ∧ (0 < max → (k : Int) ≤ max)

section Paths

/-- A path ends at an accepting node. -/
theorem repeats_accepting (htype : (h a).type = .accepting) (ha : a ∈ inside → a = exit) :
    Repeats h inside exit a k e ↔ k = 0 ∧ e = a := by
  have hsilent : ∀ x, ¬ (h a).Silent x := by simp [NFA.Silent, htype]
  constructor
  · intro hpath
    cases hpath with
    | stop => exact ⟨rfl, rfl⟩
    | operand hin hne => exact absurd (ha hin) hne
    | again hedge => exact absurd hedge (hsilent _)
    | leave hedge => exact absurd hedge (hsilent _)
    | outer _ hedge => exact absurd hedge (hsilent _)
    | interval _ hint => simp [htype] at hint
  · rintro ⟨rfl, rfl⟩
    exact .stop _

/-- A node in front of one other node. -/
theorem repeats_epsilon (htype : (h a).type = .epsilon) (hout : (h a).out2 = b) (ha : a ∉ inside)
    (hexit : exit ∈ inside) (hne : e ≠ a) :
    Repeats h inside exit a k e ↔ Repeats h inside exit b k e := by
  constructor
  · intro hpath
    cases hpath with
    | stop => exact absurd rfl hne
    | operand hin => exact absurd hin ha
    | again => exact absurd hexit ha
    | leave => exact absurd hexit ha
    | outer _ hedge hrest =>
      obtain rfl : _ = b := by simpa [NFA.Silent, htype, hout] using hedge
      exact hrest
    | interval _ hint => simp [htype] at hint
  · exact .outer ha (by simp [NFA.Silent, htype, hout])

/-- A node in front of two other nodes. -/
theorem repeats_split {b' : Addr} (htype : (h a).type = .split) (hout1 : (h a).out1 = b)
    (hout2 : (h a).out2 = b') (ha : a ∉ inside) (hexit : exit ∈ inside) (hne : e ≠ a) :
    Repeats h inside exit a k e ↔ Repeats h inside exit b k e ∨ Repeats h inside exit b' k e := by
  constructor
  · intro hpath
    cases hpath with
    | stop => exact absurd rfl hne
    | operand hin => exact absurd hin ha
    | again => exact absurd hexit ha
    | leave => exact absurd hexit ha
    | @outer _ x _ _ _ hedge hrest =>
      have hnext : x = b ∨ x = b' := by simpa [NFA.Silent, htype, hout1, hout2] using hedge
      rcases hnext with rfl | rfl
      · exact .inl hrest
      · exact .inr hrest
    | interval _ hint => simp [htype] at hint
  · rintro (hpath | hpath)
    · exact .outer ha (by simp [NFA.Silent, htype, hout1]) hpath
    · exact .outer ha (by simp [NFA.Silent, htype, hout2]) hpath

/-- Behind the operand a node leads on. -/
theorem repeats_exit (htype : (h exit).type = .epsilon) (hout : (h exit).out2 = b)
    (hb : b ∉ inside) (hexit : exit ∈ inside) (he : e ∉ inside) :
    Repeats h inside exit exit k e ↔ Repeats h inside exit b k e := by
  have hsilent : ∀ x, (h exit).Silent x ↔ x = b := by simp [NFA.Silent, htype, hout]
  constructor
  · intro hpath
    cases hpath with
    | stop => exact absurd hexit he
    | operand _ hne => exact absurd rfl hne
    | again hedge hin => exact absurd ((hsilent _).mp hedge ▸ hin) hb
    | leave hedge _ hrest => exact (hsilent _).mp hedge ▸ hrest
    | outer hout => exact absurd hexit hout
    | interval hout => exact absurd hexit hout
  · exact .leave ((hsilent b).mpr rfl) hb

/-- Behind the operand a node leads on and back into the operand. -/
theorem repeats_loop {x : Addr} (htype : (h exit).type = .split) (hback : (h exit).out1 = x)
    (hout : (h exit).out2 = t) (hx : x ∈ inside) (ht : t ∉ inside) :
    Repeats h inside exit exit k t := by
  induction k with
  | zero => exact .leave (by simp [NFA.Silent, htype, hout]) ht (.stop t)
  | succ k ih => exact .again (by simp [NFA.Silent, htype, hback]) hx ih

/-- An interval node adds the further times. -/
theorem repeats_interval_node (htype : (h a).type = .interval) (hout : (h a).out2 = t)
    (ht : (h t).type = .accepting) (ha : a ∉ inside) (hnot : t ∉ inside) (hexit : exit ∈ inside) :
    Repeats h inside exit a k t ↔ Within (h a).minRep (h a).maxRep (k + 1) := by
  constructor
  · intro hpath
    cases hpath with
    | stop => simp [ht] at htype
    | operand hin => exact absurd hin ha
    | again => exact absurd hexit ha
    | leave => exact absurd hexit ha
    | outer _ hedge => simp [NFA.Silent, htype] at hedge
    | @interval _ _ k' _ _ j hmin hmax hrest =>
      obtain ⟨rfl, -⟩ := (repeats_accepting ht fun hin => absurd hin hnot).mp (hout ▸ hrest)
      rw [Nat.zero_add]
      exact ⟨hmin, hmax⟩
  · rintro ⟨hmin, hmax⟩
    have hend : Repeats h inside exit (h a).out2 0 t := by
      rw [hout]
      exact .stop t
    have hpath := hend.interval ha htype k hmin hmax
    rwa [Nat.zero_add] at hpath

/-- An operand by itself is gone through once. -/
theorem repeats_alone (htype : (h exit).type = .accepting) (ha : a ∈ inside) (hne : a ≠ exit) :
    Repeats h inside exit a k exit ↔ k = 1 := by
  constructor
  · intro hpath
    cases hpath with
    | stop => exact absurd rfl hne
    | operand _ _ hrest =>
      obtain ⟨rfl, -⟩ := (repeats_accepting htype fun _ => rfl).mp hrest
      rfl
    | again => exact absurd rfl hne
    | leave => exact absurd rfl hne
    | outer hout => exact absurd ha hout
    | interval hout => exact absurd ha hout
  · rintro rfl
    exact .operand ha hne (.stop exit)

end Paths

/-- The operand between the new nodes of a constructor of `nfa.c`, with a way around it if it
is optional. -/
structure Around (h : Heap) (inside : Set Addr) (exit s t : Addr) (optional : Bool) : Prop where
  start : s ∉ inside
  stop : t ∉ inside
  ne : t ≠ s
  ends : exit ∈ inside
  root : (h t).type = .accepting
  entry : ∃ b ∈ inside, b ≠ exit ∧
    (optional = true → (h s).type = .split ∧
      ((h s).out1 = b ∧ (h s).out2 = t ∨ (h s).out1 = t ∧ (h s).out2 = b)) ∧
    (optional = false → (h s).type = .epsilon ∧ (h s).out2 = b)

namespace Around

variable {optional : Bool}

/-- The operand is gone through once before anything behind it, unless there is a way around. -/
theorem repeats_iff (hn : Around h inside exit s t optional) :
    Repeats h inside exit s k t ↔
      (optional = true ∧ k = 0) ∨ ∃ j, k = j + 1 ∧ Repeats h inside exit exit j t := by
  obtain ⟨b, hb, hne, hoptional, hrequired⟩ := hn.entry
  have hinside : Repeats h inside exit b k t ↔
      ∃ j, k = j + 1 ∧ Repeats h inside exit exit j t := by
    constructor
    · intro hpath
      cases hpath with
      | stop => exact absurd hb hn.stop
      | operand _ _ hrest => exact ⟨_, rfl, hrest⟩
      | again => exact absurd rfl hne
      | leave => exact absurd rfl hne
      | outer hout => exact absurd hb hout
      | interval hout => exact absurd hb hout
    · rintro ⟨j, rfl, hrest⟩
      exact .operand hb hne hrest
  have haround : Repeats h inside exit t k t ↔ k = 0 := by
    rw [repeats_accepting hn.root fun hin => absurd hin hn.stop]
    simp
  cases optional with
  | true =>
    obtain ⟨htype, ⟨hout1, hout2⟩ | ⟨hout1, hout2⟩⟩ := hoptional rfl
    · rw [repeats_split htype hout1 hout2 hn.start hn.ends hn.ne, hinside, haround]
      simp [or_comm]
    · rw [repeats_split htype hout1 hout2 hn.start hn.ends hn.ne, hinside, haround]
      simp
  | false =>
    obtain ⟨htype, hout⟩ := hrequired rfl
    rw [repeats_epsilon htype hout hn.start hn.ends hn.ne, hinside]
    simp

/-- An operand that is left behind its accepting node is gone through once. -/
theorem once_iff (hn : Around h inside exit s t optional) (htype : (h exit).type = .epsilon)
    (hout : (h exit).out2 = t) :
    Repeats h inside exit s k t ↔ (optional = true ∧ k = 0) ∨ k = 1 := by
  have hexit : ∀ j, Repeats h inside exit exit j t ↔ j = 0 := by
    intro j
    rw [repeats_exit htype hout hn.stop hn.ends hn.stop,
      repeats_accepting hn.root fun hin => absurd hin hn.stop]
    simp
  simp [hn.repeats_iff, hexit]

/-- An operand with a loop is gone through any number of times. -/
theorem loop_iff {x : Addr} (hn : Around h inside exit s t optional)
    (htype : (h exit).type = .split) (hback : (h exit).out1 = x) (hout : (h exit).out2 = t)
    (hx : x ∈ inside) :
    Repeats h inside exit s k t ↔ optional = true ∨ 1 ≤ k := by
  have hexit : ∀ j, Repeats h inside exit exit j t := fun j =>
    repeats_loop htype hback hout hx hn.stop
  rw [hn.repeats_iff]
  cases k with
  | zero => simp
  | succ k => simp [hexit]

end Around

/-- The operand of an interval: behind it, the interval node `i` leads to the end. -/
structure Bounded (h : Heap) (inside : Set Addr) (exit s i t : Addr) (optional : Bool) : Prop
    extends Around h inside exit s t optional where
  behind : (h exit).type = .epsilon ∧ (h exit).out2 = i
  apart : i ∉ inside
  node : (h i).type = .interval ∧ (h i).out2 = t

/-- The automaton of an interval goes through its operand as often as its bounds say, or not
at all if there is a way around. -/
theorem Bounded.repeats_iff {optional : Bool} (hn : Bounded h inside exit s i t optional) :
    Repeats h inside exit s k t ↔
      (optional = true ∧ k = 0) ∨ 1 ≤ k ∧ Within (h i).minRep (h i).maxRep k := by
  have hexit : ∀ j, Repeats h inside exit exit j t ↔ Within (h i).minRep (h i).maxRep (j + 1) :=
    fun j => (repeats_exit hn.behind.1 hn.behind.2 hn.apart hn.ends hn.stop).trans
      (repeats_interval_node hn.node.1 hn.node.2 hn.root hn.apart hn.stop hn.ends)
  rw [hn.toAround.repeats_iff]
  cases k with
  | zero => simp
  | succ k => simp [hexit]

end Recognizer
