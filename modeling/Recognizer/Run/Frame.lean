import Recognizer.Load.Rule
import Recognizer.Run.Step

/-!
# Lines, and what loading leaves alone

A line holds no `NUL` before its end of line symbol, so an address shows a
character exactly when it lies between the buffer and that symbol. Loading
threads moves them between the lists and writes stamps and cursors; position,
match, reports and keyword records stay, and a loaded thread is queued or failed.
-/

namespace Recognizer

namespace Line

variable {l : Line} {p : Nat}

/-- The line has no `NUL` before its end. -/
def NulFree (l : Line) : Prop := ∀ c ∈ l.text, c ≠ 0

/-- The line is made of ASCII characters other than `NUL`. -/
def Ascii (l : Line) : Prop := ∀ c ∈ l.text, 0 < c ∧ c < 128

/-- The positions of a run: on the line, at the `NUL` behind it, or the constant that
stops the loops. -/
def Holds (l : Line) (p : Nat) : Prop := p = nulString ∨ l.buffer ≤ p ∧ p ≤ l.eolPos + 1

/-- On the line and at its `NUL` the buffer is read. -/
theorem deref_of_mem (hge : l.buffer ≤ p) (hle : p ≤ l.eolPos + 1) :
    l.deref p = (l.text ++ [eolSymbol]).getD (p - l.buffer) 0 := by
  have := l.one_lt_buffer
  rw [deref, if_neg (by unfold nulString; omega), if_pos ⟨hge, hle⟩]

@[simp] theorem deref_eolPos (l : Line) : l.deref l.eolPos = eolSymbol := by
  rw [deref_of_mem (by simp [eolPos]) (Nat.le_succ _)]
  simp [eolPos]

/-- A position of the text shows its character. -/
theorem deref_text {i : Nat} (hi : i < l.text.length) :
    l.deref (l.buffer + i) = l.text[i] := by
  rw [deref_of_mem (Nat.le_add_right _ _) (by unfold eolPos; omega)]
  simp [List.getD_eq_getElem?_getD, List.getElem?_append_left hi, List.getElem?_eq_getElem hi]

/-- Right behind the end of line symbol is the `NUL`. -/
theorem deref_behind (l : Line) : l.deref (l.eolPos + 1) = 0 := by
  rw [deref_of_mem (by unfold eolPos; omega) le_rfl]
  simp [eolPos, List.getD_eq_getElem?_getD, Nat.add_assoc]

theorem deref_nulString (l : Line) : l.deref nulString = 0 := if_pos rfl

/-- Of the positions of a run those of the line and its end of line symbol do not
show `NUL`. -/
theorem NulFree.deref_ne_zero_iff (h : l.NulFree) (hp : l.Holds p) :
    l.deref p ≠ 0 ↔ l.buffer ≤ p ∧ p ≤ l.eolPos := by
  have hbuffer := l.one_lt_buffer
  constructor
  · intro hne
    rcases hp with rfl | ⟨hge, hle⟩
    · exact absurd l.deref_nulString hne
    · refine ⟨hge, Nat.le_of_lt_succ (Nat.lt_of_le_of_ne hle ?_)⟩
      rintro rfl
      exact hne l.deref_behind
  · rintro ⟨hge, hle⟩
    obtain ⟨i, rfl⟩ := Nat.exists_eq_add_of_le hge
    unfold eolPos at hle
    rcases Nat.lt_or_ge i l.text.length with hi | hi
    · rw [deref_text hi]
      exact h _ (List.getElem_mem hi)
    · have heq : l.buffer + i = l.eolPos := by
        unfold eolPos
        omega
      rw [heq, deref_eolPos]
      decide

/-- The positions of the line and its end of line symbol do not show `NUL`. -/
theorem NulFree.deref_ne_zero (h : l.NulFree) (hge : l.buffer ≤ p) (hle : p ≤ l.eolPos) :
    l.deref p ≠ 0 :=
  (h.deref_ne_zero_iff (.inr ⟨hge, hle.trans (Nat.le_succ _)⟩)).mpr ⟨hge, hle⟩

end Line

theorem toupper_eq_zero {c : Int} : toupper c = 0 ↔ c = 0 := by
  unfold toupper toupperChar
  split
  · omega
  · split <;> omega

/-- Case folding keeps `NUL` apart from every other character. -/
theorem Env.input_eq_zero {E : Env} {ctrl : NFASimCtrl} :
    E.input ctrl = 0 ↔ E.line.deref ctrl.curPos = 0 := by
  unfold Env.input
  simp only
  split
  · exact toupper_eq_zero
  · rfl

/-- The members of the control block that no load writes. -/
structure SameFrame (c d : NFASimCtrl) : Prop where
  curPos : d.curPos = c.curPos
  bufferStart : d.bufferStart = c.bufferStart
  bufferEnd : d.bufferEnd = c.bufferEnd
  curMatch : d.curMatch = c.curMatch
  reports : d.reports = c.reports
  kwRecords : d.kwRecords = c.kwRecords
  kwCursor : d.kwCursor = c.kwCursor

namespace SameFrame

@[refl] theorem refl (c : NFASimCtrl) : SameFrame c c := ⟨rfl, rfl, rfl, rfl, rfl, rfl, rfl⟩

theorem trans {a b c : NFASimCtrl} (h : SameFrame a b) (h' : SameFrame b c) : SameFrame a c :=
  ⟨h'.1.trans h.1, h'.2.trans h.2, h'.3.trans h.3, h'.4.trans h.4, h'.5.trans h.5, h'.6.trans h.6,
    h'.7.trans h.7⟩

private theorem of_eq {c d : NFASimCtrl} (h : d = { c with
    lastIntervalPos := d.lastIntervalPos, threadPool := d.threadPool
    activeThreads := d.activeThreads, nextThreads := d.nextThreads
    activeThreadsSp := d.activeThreadsSp, iterIdx := d.iterIdx, acquired := d.acquired
    dropped := d.dropped }) : SameFrame c d := by
  rw [h]
  exact ⟨rfl, rfl, rfl, rfl, rfl, rfl, rfl⟩

theorem append (c : NFASimCtrl) (dst : Dst) (sim : NFASim) : SameFrame c (c.append dst sim) := by
  cases dst <;> exact of_eq rfl

theorem release (c : NFASimCtrl) (sim : NFASim) : SameFrame c (c.release sim) := of_eq rfl

theorem acquire (c : NFASimCtrl) (source : Option NFASim) : SameFrame c (c.acquire source) :=
  of_eq rfl

theorem stamp (c : NFASimCtrl) (id pos : Nat) : SameFrame c (c.stamp id pos) := of_eq rfl

theorem setCursor (c : NFASimCtrl) (nfa : Addr) (i : Int) : SameFrame c (c.setCursor nfa i) :=
  of_eq rfl

theorem setIntervalPos (c : NFASimCtrl) (p : Nat) : SameFrame c (c.setIntervalPos p) := of_eq rfl

theorem noteDrop (c : NFASimCtrl) (sim : NFASim) (nfa : Addr) (la : Nat) :
    SameFrame c (c.noteDrop sim nfa la) :=
  of_eq rfl

end SameFrame

variable {E : Env} {fuel : Nat} {sim sim' : NFASim} {dst : Dst} {la : Nat}
  {ctrl ctrl' : NFASimCtrl}

/-- Loading keeps the frame, and ends with the thread queued or failed. -/
theorem frameRule (E : Env) (dst : Dst) (la : Nat) (c : NFASimCtrl) :
    LoadRule E dst la (fun _ => True) (SameFrame c) (fun _ _ => True)
      (fun sim => sim.status = 0 ∨ sim.status = -1) where
  mono _ _ := trivial
  clone _ hi _ := ⟨trivial, hi.trans (.acquire ..)⟩
  release _ _ hi _ := hi.trans (.release ..)
  cursor _ _ hi _ := hi.trans (.setCursor ..)
  intervalPos _ hi _ := hi.trans (.setIntervalPos ..)
  groupBegin _ _ _ _ := trivial
  groupEnd _ _ _ _ := trivial
  interval _ _ _ _ _ _ _ := trivial
  accepting _ _ hi _ := ⟨hi.trans (.append ..), Or.inl rfl⟩
  queue _ _ _ _ _ hi _ _ _ := ⟨hi.trans ((SameFrame.stamp ..).trans (.append ..)), Or.inl rfl⟩
  mismatch _ := Or.inr rfl
  drop _ hi _ _ _ := hi.trans (.noteDrop ..)

/-- A rule holds of the loads of `thread_step`. -/
theorem LoadRule.stepAdjacents {Ok I : NFASimCtrl → Prop} {T : NFASim → Addr → Prop}
    {R : NFASim → Prop} (rule : LoadRule E dst la Ok I T R)
    (h : Recognizer.stepAdjacents E fuel sim dst la ctrl = some (sim', ctrl')) :
    Extends ctrl ctrl' ∧
      ((∀ n ∈ (E.heap sim.ip).reachable, T sim n) → I ctrl → Ok ctrl' → I ctrl' ∧ R sim') :=
  rule.processAdjacents (rule.loadNext fuel) h

theorem stepAdjacents_frame (h : stepAdjacents E fuel sim dst la ctrl = some (sim', ctrl')) :
    SameFrame ctrl ctrl' ∧ (sim'.status = 0 ∨ sim'.status = -1) :=
  ((frameRule E dst la ctrl).stepAdjacents h).2 (fun _ _ => trivial) (.refl _) trivial

/-- `thread_step` keeps the frame. -/
theorem threadStep_frame (h : threadStep E fuel sim ctrl = some (sim', ctrl')) :
    SameFrame ctrl ctrl' := by
  have herase : SameFrame ctrl (eraseStamp E sim ctrl) := .stamp ..
  cases threadStep_cases h with
  | matched | failed | failedBackreference => exact herase
  | waited => exact herase.trans (.append ..)
  | loaded _ _ hload => exact herase.trans (stepAdjacents_frame hload).1

/-- A thread at an accepting node, or at a `NUL`, is accepted. -/
theorem threadStep_accepts (E : Env) (fuel : Nat) (sim : NFASim) (ctrl : NFASimCtrl)
    (h : E.line.deref ctrl.curPos = 0 ∨ (E.heap sim.ip).type = .accepting) :
    threadStep E fuel sim ctrl = some (setStatus sim 1, eraseStamp E sim ctrl) := by
  unfold threadStep
  dsimp only
  by_cases hinput : E.input (ctrl.stamp (E.heap sim.ip).id 0) ≠ 0
  · have hchar : E.line.deref ctrl.curPos ≠ 0 := fun hzero => hinput (Env.input_eq_zero.mpr hzero)
    rw [if_pos hinput, h.resolve_left hchar]
    rfl
  · rw [if_neg hinput]
    rfl

/-- A thread matches only at an accepting node or at a `NUL`. -/
theorem threadStep_matched (h : threadStep E fuel sim ctrl = some (sim', ctrl'))
    (hstatus : sim'.status = 1) :
    E.line.deref ctrl.curPos = 0 ∨ (E.heap sim.ip).type = .accepting := by
  cases threadStep_cases h with
  | matched hm => exact hm.imp_left Env.input_eq_zero.mp
  | failed | failedBackreference => simp [setStatus] at hstatus
  | waited => simp [nextInSpan] at hstatus
  | loaded _ _ hload =>
    have := (stepAdjacents_frame hload).2
    omega

end Recognizer
