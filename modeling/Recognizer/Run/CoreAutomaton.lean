import Recognizer.Core.LeftmostLongest
import Recognizer.Parse.Language
import Recognizer.Run.Frame

/-!
# Automata that read a character at every node

Behind its start node such an automaton has literals, ranges, any-character nodes and
accepting nodes only. The words it accepts spell the matches of a line, and which nodes can
come next at a position follows from the nodes that could one position before.
-/

namespace Recognizer

/-- The words that are read on the way from the start node to a node. -/
inductive Arrives (E : Env) : List Int → Addr → Prop where
  | start {n : Addr} (hn : n ∈ (E.heap E.startState).reachable) : Arrives E [] n
  | read {w : List Int} {m n : Addr} {c : Int} (h : Arrives E w m) (hreads : (E.heap m).Reads c)
      (hn : n ∈ (E.heap m).reachable) : Arrives E (w ++ [c]) n

/-- The automaton accepts a word. -/
def Env.Accepts (E : Env) (w : List Int) : Prop :=
  ∃ n, Arrives E w n ∧ (E.heap n).type = .accepting

/-- A node below the start node. -/
def Below (E : Env) (n : Addr) : Prop :=
  Relation.TransGen (fun a b => b ∈ (E.heap a).reachable) E.startState n

/-- The node reads a character or accepts. -/
def NFA.Core (n : NFA) : Prop :=
  n.type = .literal ∨ n.type = .range ∨ n.type = .any ∨ n.type = .accepting

instance (n : NFA) : Decidable n.Core := inferInstanceAs (Decidable (_ ∨ _))

/-- Below the start node every node reads a character or accepts, no two nodes share an id,
and every node that reads leads on. No pattern gives a literal the end of line symbol. -/
structure CoreAutomaton (E : Env) : Prop where
  kind : ∀ {n}, Below E n → (E.heap n).Core
  ids : ∀ {m n}, Below E m → Below E n → (E.heap m).id = (E.heap n).id → m = n
  leads : ∀ {n}, Below E n → (E.heap n).type ≠ .accepting → (E.heap n).reachable ≠ []
  literal : ∀ {n}, Below E n → (E.heap n).type = .literal → (E.heap n).literal ≠ eolSymbol

/-- The text between two positions of a line. -/
def Line.slice (l : Line) (s p : Nat) : List Int := (l.text.drop (s - l.buffer)).take (p - s)

/-- From `s` the automaton can come to a node in front of the position `p` of the line. -/
structure ComesTo (E : Env) (s p : Nat) (n : Addr) : Prop where
  le : s ≤ p
  inside : p ≤ E.line.eolPos
  arrives : Arrives E (E.line.slice s p) n

/-- The text from `s` up to `p` is accepted. -/
def AcceptedAt (E : Env) (s p : Nat) : Prop := ∃ n, ComesTo E s p n ∧ (E.heap n).type = .accepting

/-- The text from one position to another one, both included, is a match. -/
def Env.Span (E : Env) (i j : Nat) : Prop :=
  E.line.buffer ≤ i ∧ i ≤ j ∧ j < E.line.eolPos ∧ E.Accepts (E.line.slice i (j + 1))

variable {E : Env} {s p q : Nat} {m n : Addr} {w : List Int} {c : Int}

theorem Below.next (h : Below E m) (hn : n ∈ (E.heap m).reachable) : Below E n :=
  Relation.TransGen.tail h hn

theorem Arrives.isBelow (h : Arrives E w n) : Below E n := by
  induction h with
  | start hn => exact .single hn
  | read _ _ hn ih => exact ih.next hn

/-- A list of nodes that no edge leaves has all nodes below the start node. -/
theorem CoreAutomaton.of_closed {nodes : List Addr}
    (hstart : ∀ n ∈ (E.heap E.startState).reachable, n ∈ nodes)
    (hclosed : ∀ m ∈ nodes, ∀ n ∈ (E.heap m).reachable, n ∈ nodes)
    (hkind : ∀ n ∈ nodes, (E.heap n).Core)
    (hids : ∀ m ∈ nodes, ∀ n ∈ nodes, (E.heap m).id = (E.heap n).id → m = n)
    (hleads : ∀ n ∈ nodes, (E.heap n).type ≠ .accepting → (E.heap n).reachable ≠ [])
    (hliteral : ∀ n ∈ nodes, (E.heap n).type = .literal → (E.heap n).literal ≠ eolSymbol) :
    CoreAutomaton E := by
  have hbelow : ∀ {n}, Below E n → n ∈ nodes := by
    intro n h
    induction h with
    | single hn => exact hstart _ hn
    | tail _ hn ih => exact hclosed _ ih _ hn
  exact ⟨fun h => hkind _ (hbelow h), fun hm hn => hids _ (hbelow hm) _ (hbelow hn),
    fun h => hleads _ (hbelow h), fun h => hliteral _ (hbelow h)⟩

theorem ComesTo.isBelow (h : ComesTo E s p n) : Below E n := h.arrives.isBelow

/-- A nonempty word was read up to its last character first. -/
theorem Arrives.of_append (h : Arrives E (w ++ [c]) n) :
    ∃ m, Arrives E w m ∧ (E.heap m).Reads c ∧ n ∈ (E.heap m).reachable := by
  generalize hv : w ++ [c] = v at h
  cases h with
  | start => simp at hv
  | read h hreads hn =>
    obtain ⟨rfl, hc⟩ := List.append_inj' hv rfl
    cases hc
    exact ⟨_, h, hreads, hn⟩

theorem Arrives.of_nil (h : Arrives E [] n) : n ∈ (E.heap E.startState).reachable := by
  generalize hv : ([] : List Int) = v at h
  cases h with
  | start hn => exact hn
  | read => simp at hv

namespace Line

variable {l : Line}

@[simp] theorem slice_self (l : Line) (s : Nat) : l.slice s s = [] := by simp [slice]

/-- One character more. -/
theorem slice_succ (hs : l.buffer ≤ s) (hle : s ≤ p) (hp : p < l.eolPos) :
    l.slice s (p + 1) = l.slice s p ++ [l.deref p] := by
  obtain ⟨i, rfl⟩ := Nat.exists_eq_add_of_le hs
  obtain ⟨k, rfl⟩ := Nat.exists_eq_add_of_le hle
  unfold eolPos at hp
  have hlt : i + k < l.text.length := by omega
  rw [slice, slice, Nat.add_sub_cancel_left, Nat.add_assoc l.buffer, Nat.add_assoc l.buffer,
    show l.buffer + (i + k + 1) - (l.buffer + i) = k + 1 by omega,
    show l.buffer + (i + k) - (l.buffer + i) = k by omega, List.take_add_one, deref_text hlt,
    List.getElem?_drop, List.getElem?_eq_getElem hlt, Option.toList_some]

/-- The parts of a line's text are the texts between two of its positions. -/
theorem isInfix_iff_slice : w <:+: l.text ↔
    ∃ s p, l.buffer ≤ s ∧ s ≤ p ∧ p ≤ l.eolPos ∧ l.slice s p = w := by
  constructor
  · rintro ⟨before, after, htext⟩
    refine ⟨l.buffer + before.length, l.buffer + before.length + w.length, by omega, by omega,
      ?_, ?_⟩
    · rw [eolPos, ← htext, List.length_append, List.length_append]
      omega
    · rw [slice, ← htext, Nat.add_sub_cancel_left, Nat.add_sub_cancel_left, List.append_assoc,
        List.drop_left, List.take_left]
  · rintro ⟨s, p, -, -, -, rfl⟩
    exact (List.take_prefix _ _).isInfix.trans (List.drop_suffix _ _).isInfix

end Line

theorem span_iff {i j : Nat} :
    E.Span i j ↔ E.line.buffer ≤ i ∧ i ≤ j ∧ AcceptedAt E i (j + 1) := by
  constructor
  · rintro ⟨hi, hle, hj, n, hn, hkind⟩
    exact ⟨hi, hle, n, ⟨by omega, hj, hn⟩, hkind⟩
  · rintro ⟨hi, hle, n, hn, hkind⟩
    exact ⟨hi, hle, hn.inside, n, hn.arrives, hkind⟩

/-- Only a character of the line's text is read at a position. -/
theorem CoreAutomaton.lt_eolPos (hcore : CoreAutomaton E) (hm : ComesTo E s p m)
    (hreads : (E.heap m).Reads (E.line.deref p)) : p < E.line.eolPos := by
  rcases Nat.lt_or_eq_of_le hm.inside with hlt | rfl
  · exact hlt
  · rw [Line.deref_eolPos] at hreads
    unfold NFA.Reads at hreads
    split at hreads
    · exact absurd rfl hreads
    · next htype => exact absurd hreads.symm (hcore.literal hm.isBelow htype)
    · exact absurd rfl hreads.1
    · exact hreads.elim

theorem comesTo_start_iff (hs : s ≤ E.line.eolPos) :
    ComesTo E s s n ↔ n ∈ (E.heap E.startState).reachable := by
  constructor
  · intro h
    have harrives := h.arrives
    rw [Line.slice_self] at harrives
    exact harrives.of_nil
  · intro hn
    refine ⟨le_rfl, hs, ?_⟩
    rw [Line.slice_self]
    exact .start hn

/-- The nodes in front of the next position are those behind the nodes that read a character. -/
theorem CoreAutomaton.comesTo_succ_iff (hcore : CoreAutomaton E) (hs : E.line.buffer ≤ s)
    (hle : s ≤ p) :
    ComesTo E s (p + 1) n ↔
      ∃ m, ComesTo E s p m ∧ (E.heap m).Reads (E.line.deref p) ∧ n ∈ (E.heap m).reachable := by
  constructor
  · intro h
    have hp := h.inside
    have harrives := h.arrives
    rw [Line.slice_succ hs hle (by omega)] at harrives
    obtain ⟨m, hm, hreads, hn⟩ := harrives.of_append
    exact ⟨m, ⟨hle, by omega, hm⟩, hreads, hn⟩
  · rintro ⟨m, hm, hreads, hn⟩
    have hp := hcore.lt_eolPos hm hreads
    refine ⟨by omega, hp, ?_⟩
    rw [Line.slice_succ hs hle hp]
    exact .read hm.arrives hreads hn

/-- On the way to a later position a character is read at every position between. -/
theorem CoreAutomaton.exists_reads (hcore : CoreAutomaton E) (hs : E.line.buffer ≤ s)
    (hle : s ≤ p) (hlt : p < q) (h : ComesTo E s q n) :
    ∃ m, ComesTo E s p m ∧ (E.heap m).Reads (E.line.deref p) := by
  induction q generalizing n with
  | zero => omega
  | succ q ih =>
    obtain ⟨m, hm, hreads, -⟩ := (hcore.comesTo_succ_iff hs (by omega)).mp h
    rcases Nat.lt_or_eq_of_le (Nat.le_of_lt_succ hlt) with hlt' | rfl
    · exact ih hlt' hm
    · exact ⟨m, hm, hreads⟩

/-- Some part of the line, which may be empty, is accepted exactly if some start position
leads to an accepting node. -/
theorem exists_infix_accepted_iff : (∃ w, w <:+: E.line.text ∧ E.Accepts w) ↔
    ∃ s p, E.line.buffer ≤ s ∧ AcceptedAt E s p := by
  constructor
  · rintro ⟨w, hinfix, n, hn, haccepting⟩
    obtain ⟨s, p, hs, hle, hp, rfl⟩ := Line.isInfix_iff_slice.mp hinfix
    exact ⟨s, p, hs, n, ⟨hle, hp, hn⟩, haccepting⟩
  · rintro ⟨s, p, hs, n, hn, haccepting⟩
    exact ⟨_, Line.isInfix_iff_slice.mpr ⟨s, p, hs, hn.le, hn.inside, rfl⟩, n, hn.arrives,
      haccepting⟩

end Recognizer
