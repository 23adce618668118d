import Recognizer.Parse.Fragment

/-!
# Joining automata

New nodes and the automata of the operands become one automaton. Three shapes
are enough: a start node in front of an accepting node, operands between a new
start node and a new accepting node, and one operand behind another.
-/

namespace Recognizer

variable {c c' : NFACtrl} {live : Finset Addr} {roots rest used l l' : List Addr}
  {frag : Addr → Addr}

/-- The nodes `mark_nfa` numbers: stops that are neither accepting nodes nor
intervals nor backreferences. -/
def Counted (n : NFA) : Prop :=
  Collectable n ∧ n.type ≠ .interval ∧ n.type ≠ .backreference

instance (n : NFA) : Decidable (Counted n) := by
  unfold Counted
  infer_instance

/-- The automata `roots` own the nodes in use, of which fewer than the next
number are numbered; no node carries a mark of the compiler. -/
structure Owned (c : NFACtrl) (roots : List Addr) (live : Finset Addr) (frag : Addr → Addr) :
    Prop where
  alloc : AllocOk c live
  shape : Shape c.heap roots live frag
  count : (live.filter fun a => Counted (c.heap a)).card < c.nextSeqId
  blank : Blank c.heap

/-- The entries of a list of stack entries that are not `NULL` own their nodes. -/
def Owns (c : NFACtrl) (l : List Addr) : Prop :=
  ∃ live frag, Owned c (l.filter (· ≠ 0)) live frag

/-- Automata can be forgotten. -/
theorem Owns.subperm (ho : Owns c l) (hsub : l'.Subperm l) : Owns c l' := by
  obtain ⟨live, frag, ho⟩ := ho
  refine ⟨_, frag, ho.alloc.mono (Finset.filter_subset _ _), ho.shape.subperm (hsub.filter _), ?_,
    ho.blank⟩
  refine lt_of_le_of_lt (Finset.card_le_card ?_) ho.count
  exact Finset.filter_subset_filter _ (Finset.filter_subset _ _)

/-- **Joining.** Fresh nodes and the automata of `used`, without some of their
start nodes, become one automaton. -/
theorem Owned.join (ho : Owned c roots live frag) (used : List Addr) (fresh dead : Finset Addr)
    (hroots : (used ++ rest).Perm roots) {s t : Addr} (hfresh : ∀ a ∈ fresh, a ∉ live) (hs : s ∈ fresh)
    (ht : t ∈ fresh) (hne : s ≠ t) (hdead : ∀ a ∈ dead, ∃ r ∈ used, a = (c.heap r).parent)
    (hsame : ∀ a ∈ live, a ∉ used → a ∉ dead → c'.heap a = c.heap a)
    (htype : (c'.heap t).type = .accepting) (hparent : (c'.heap t).parent = s)
    (htarget : ∀ a, a ∈ fresh ∨ a ∈ used → ∀ b ∈ (c'.heap a).targets,
      b ≠ s ∧ (b ∈ fresh ∨ b ∈ live ∧ frag b ∈ used ∧ b ∉ dead))
    (hfreshFwd : ∀ a ∈ fresh, a ≠ s → (c'.heap a).forward = [])
    (husedFwd : ∀ a ∈ used, ∀ b ∈ (c'.heap a).forward, b ∈ fresh)
    (halloc : AllocOk c' ((live ∪ fresh) \ dead))
    (hcount : (fresh.filter fun a => Counted (c'.heap a)).card + c.nextSeqId ≤ c'.nextSeqId)
    (husedCount : ∀ a ∈ used, ¬ Counted (c'.heap a)) (hblank : Blank c'.heap) :
    ∃ live' frag', Owned c' (t :: rest) live' frag' := by
  have hS := ho.shape
  have hnodup : (used ++ rest).Nodup := hroots.nodup_iff.mpr hS.nodup
  have hdisj : ∀ r ∈ used, r ∉ rest := fun r hr hr' =>
    (List.nodup_append.mp hnodup).2.2 r hr r hr' rfl
  have husedRoot : ∀ r ∈ used, r ∈ roots := fun r hr => hroots.subset (List.mem_append_left _ hr)
  have hdeadStart : ∀ a ∈ dead, a ∈ live ∧ frag a ∈ used ∧ a ∉ used := by
    intro a ha
    obtain ⟨r, hr, rfl⟩ := hdead a ha
    obtain ⟨hlive, hfrag, hne'⟩ := hS.start r (husedRoot r hr)
    refine ⟨hlive, hfrag.symm ▸ hr, fun hmem => hne' ?_⟩
    exact (hS.root _ (husedRoot _ hmem)).2.1.symm.trans hfrag
  set own : Finset Addr := fresh ∪ (live.filter fun a => frag a ∈ used) \ dead with hown
  have hmem : ∀ a, a ∈ own ↔ a ∈ fresh ∨ a ∈ live ∧ frag a ∈ used ∧ a ∉ dead := by
    intro a
    simp only [hown, Finset.mem_union, Finset.mem_sdiff, Finset.mem_filter, and_assoc]
  have husedOwn : ∀ a ∈ used, a ∈ own := by
    intro a ha
    obtain ⟨hlive, hfrag, -⟩ := hS.root a (husedRoot a ha)
    exact (hmem a).mpr (Or.inr ⟨hlive, hfrag.symm ▸ ha, fun hd => (hdeadStart a hd).2.2 ha⟩)
  obtain ⟨height, hh⟩ := hS.height
  have hold : ∀ a ∈ own, a ∉ fresh → a ∉ used →
      a ∈ live ∧ c'.heap a = c.heap a ∧ ∀ b ∈ (c.heap a).targets,
        b ∈ live ∧ b ∉ fresh ∧ frag b ∈ used ∧ b ∉ dead := by
    intro a ha hf hu
    obtain ⟨hlive, hfrag, hnd⟩ := ((hmem a).mp ha).resolve_left hf
    refine ⟨hlive, hsame a hlive hu hnd, fun b hb => ?_⟩
    obtain ⟨hbl, hbf, hbs⟩ := hS.target a hlive b hb
    refine ⟨hbl, fun hbf' => hfresh b hbf' hbl, hbf.symm ▸ hfrag, fun hbd => ?_⟩
    obtain ⟨r, hr, rfl⟩ := hdead b hbd
    rw [(hS.start r (husedRoot r hr)).2.1] at hbf
    exact hbs (by rw [← hbf])
  have hbuild := hS.build c'.heap own
    (fun a => if a = s then live.sup height + 2 else if a ∈ fresh then 0 else height a + 1)
    hroots (s := s) (t := t)
    (fun a ha hlive => (((hmem a).mp ha).resolve_left fun hf => hfresh a hf hlive).2.1)
    (fun a hlive hfrag => hsame a hlive
      (fun hu => hdisj a hu ((hS.root a (husedRoot a hu)).2.1 ▸ hfrag))
      fun hd => hdisj _ (hdeadStart a hd).2.1 hfrag)
    ((hmem t).mpr (Or.inl ht)) htype hparent ((hmem s).mpr (Or.inl hs)) hne ?_ ?_
  · refine ⟨_, _, halloc.mono ?_, hbuild, ?_, hblank⟩
    · intro a ha
      rcases Finset.mem_union.mp ha with ha | ha
      · rcases (hmem a).mp ha with hf | ⟨hlive, -, hnd⟩
        · refine Finset.mem_sdiff.mpr ⟨Finset.mem_union_right _ hf, fun hd => ?_⟩
          exact hfresh a hf (hdeadStart a hd).1
        · exact Finset.mem_sdiff.mpr ⟨Finset.mem_union_left _ hlive, hnd⟩
      · obtain ⟨hlive, hfrag⟩ := Finset.mem_filter.mp ha
        refine Finset.mem_sdiff.mpr ⟨Finset.mem_union_left _ hlive, fun hd => ?_⟩
        exact hdisj _ (hdeadStart a hd).2.1 hfrag
    · refine lt_of_lt_of_le (lt_of_le_of_lt (Finset.card_le_card (t :=
        (fresh.filter fun a => Counted (c'.heap a)) ∪ live.filter fun a => Counted (c.heap a)) ?_)
        (lt_of_le_of_lt (Finset.card_union_le _ _) (Nat.add_lt_add_left ho.count _))) hcount
      intro a ha
      obtain ⟨ha, hcounted⟩ := Finset.mem_filter.mp ha
      rw [Finset.mem_union, Finset.mem_filter, Finset.mem_filter]
      have hu : a ∉ used := fun hu => husedCount a hu hcounted
      rcases Finset.mem_union.mp ha with ha | ha
      · by_cases hf : a ∈ fresh
        · exact Or.inl ⟨hf, hcounted⟩
        · obtain ⟨hlive, heq, -⟩ := hold a ha hf hu
          exact Or.inr ⟨hlive, heq ▸ hcounted⟩
      · obtain ⟨hlive, hfrag⟩ := Finset.mem_filter.mp ha
        have hnd : a ∉ dead := fun hd => hdisj _ (hdeadStart a hd).2.1 hfrag
        exact Or.inr ⟨hlive, hsame a hlive hu hnd ▸ hcounted⟩
  · intro a ha b hb
    by_cases hchanged : a ∈ fresh ∨ a ∈ used
    · obtain ⟨hbs, hbo⟩ := htarget a hchanged b hb
      exact ⟨(hmem b).mpr hbo, hbs⟩
    · obtain ⟨-, heq, hstay⟩ := hold a ha (fun h => hchanged (Or.inl h)) fun h => hchanged (Or.inr h)
      rw [heq] at hb
      obtain ⟨hbl, hbf, hbu, hbd⟩ := hstay b hb
      exact ⟨(hmem b).mpr (Or.inr ⟨hbl, hbu, hbd⟩), fun hbs => hbf (hbs ▸ hs)⟩
  · intro a ha b hb
    have hb' := (c'.heap a).forward_subset hb
    by_cases hf : a ∈ fresh
    · by_cases has : a = s
      · obtain ⟨hbs, hbo⟩ := htarget a (Or.inl hf) b hb'
        rw [if_neg hbs, if_pos has]
        split
        · omega
        · rename_i hbf
          have := Finset.le_sup (f := height) (hbo.resolve_left hbf).1
          omega
      · rw [hfreshFwd a hf has] at hb
        cases hb
    · have has : a ≠ s := fun h => hf (h ▸ hs)
      rw [if_neg has, if_neg hf]
      by_cases hu : a ∈ used
      · have hbs := (htarget a (Or.inr hu) b hb').1
        rw [if_neg hbs, if_pos (husedFwd a hu b hb)]
        omega
      · obtain ⟨hlive, heq, hstay⟩ := hold a ha hf hu
        rw [heq] at hb hb'
        have hbf := (hstay b hb').2.1
        have hbs : b ≠ s := fun h => hbf (h ▸ hs)
        rw [if_neg hbs, if_neg hbf]
        have := hh a hlive b hb
        omega

/-- A fresh accepting node and a fresh start node that points to it are an automaton. -/
theorem Owned.atom (ho : Owned c roots live frag) {s t : Addr} (hs : s ∉ live) (ht : t ∉ live)
    (hne : s ≠ t) (halloc : AllocOk c' (live ∪ {t, s}))
    (hsame : ∀ x, x ≠ t → x ≠ s → c'.heap x = c.heap x)
    (htype : (c'.heap t).type = .accepting) (hparent : (c'.heap t).parent = s)
    (hstart : (c'.heap s).targets = [t])
    (hseq : (if Counted (c'.heap s) then 1 else 0) + c.nextSeqId ≤ c'.nextSeqId)
    (hblank : Blank c'.heap) :
    ∃ live' frag', Owned c' (t :: roots) live' frag' := by
  have hnone : (c'.heap t).targets = [] := by simp [NFA.targets, htype]
  refine ho.join [] {t, s} ∅ (s := s) (t := t) (List.Perm.refl _)
    ?_ (by simp) (by simp) hne (by simp) ?_ htype hparent ?_ ?_ (by simp) (by simpa using halloc)
    ?_ (by simp) hblank
  · simp [hs, ht]
  · intro a ha _ _
    exact hsame a (fun h => ht (h ▸ ha)) fun h => hs (h ▸ ha)
  · intro a ha b hb
    rcases ha with ha | ha
    · rcases Finset.mem_insert.mp ha with rfl | ha
      · simp [hnone] at hb
      · rw [Finset.mem_singleton] at ha
        subst ha
        rw [hstart, List.mem_singleton] at hb
        subst hb
        exact ⟨hne.symm, by simp⟩
    · cases ha
  · intro a ha has
    have hat : a = t := by simpa [has] using ha
    have hsub := (c'.heap a).forward_subset
    rw [hat, hnone] at hsub
    rw [hat]
    exact List.subset_nil.mp hsub
  · have htc : ¬ Counted (c'.heap t) := fun h => h.1.2 htype
    rw [Finset.filter_insert, if_neg htc, Finset.filter_singleton]
    split
    · rename_i hsc
      simpa [hsc] using hseq
    · rename_i hsc
      simpa [hsc] using hseq

/-- An operand between a new start node and a new accepting node is an automaton. -/
theorem Owned.wrap {body : Addr} (ho : Owned c (body :: rest) live frag) {s t : Addr}
    (hs : s ∉ live) (ht : t ∉ live) (hne : s ≠ t) (halloc : AllocOk c' (live ∪ {t, s}))
    (hsame : ∀ x, x ≠ t → x ≠ s → x ≠ body → c'.heap x = c.heap x)
    (htype : (c'.heap t).type = .accepting) (hparent : (c'.heap t).parent = s)
    (hstart : ∀ b ∈ (c'.heap s).targets, b = t ∨ b = (c.heap body).parent)
    (hbody : ∀ b ∈ (c'.heap body).targets, b = t ∨ b ∈ live ∧ frag b = body)
    (hforward : ∀ b ∈ (c'.heap body).forward, b = t) (hpass : Passes (c'.heap s))
    (hpass' : Passes (c'.heap body)) (hseq : c.nextSeqId ≤ c'.nextSeqId)
    (hblank : Blank c'.heap) :
    ∃ live' frag', Owned c' (t :: rest) live' frag' := by
  have hnone : (c'.heap t).targets = [] := by simp [NFA.targets, htype]
  obtain ⟨hlive, hfrag, hneStart⟩ := ho.shape.start body (by simp)
  refine ho.join [body] {t, s} ∅ (s := s) (t := t)
    (List.Perm.refl _) (by simp [hs, ht]) (by simp) (by simp) hne (by simp) ?_ htype hparent ?_ ?_
    ?_ (by simpa using halloc) ?_ ?_ hblank
  · intro a ha hu _
    exact hsame a (fun h => ht (h ▸ ha)) (fun h => hs (h ▸ ha)) (by simpa using hu)
  · intro a ha b hb
    have hown : b = t ∨ b ∈ live ∧ frag b = body := by
      rcases ha with ha | ha
      · rcases Finset.mem_insert.mp ha with rfl | ha
        · simp [hnone] at hb
        · rw [Finset.mem_singleton] at ha
          subst ha
          rcases hstart b hb with rfl | rfl
          · exact Or.inl rfl
          · exact Or.inr ⟨hlive, hfrag⟩
      · rw [List.mem_singleton] at ha
        subst ha
        exact hbody b hb
    rcases hown with rfl | ⟨hbl, hbf⟩
    · exact ⟨hne.symm, Or.inl (by simp)⟩
    · exact ⟨fun h => hs (h ▸ hbl), Or.inr ⟨hbl, by simp [hbf], by simp⟩⟩
  · intro a ha has
    have hat : a = t := by simpa [has] using ha
    have hsub := (c'.heap a).forward_subset
    rw [hat, hnone] at hsub
    rw [hat]
    exact List.subset_nil.mp hsub
  · intro a ha b hb
    rw [List.mem_singleton] at ha
    subst ha
    simp [hforward b hb]
  · have htc : ¬ Counted (c'.heap t) := fun h => h.1.2 htype
    have hsc : ¬ Counted (c'.heap s) := fun h => h.1.1 hpass
    rw [Finset.filter_insert, if_neg htc, Finset.filter_singleton, if_neg hsc]
    simpa using hseq
  · intro a ha hcounted
    rw [List.mem_singleton] at ha
    exact hcounted.1.1 (ha ▸ hpass')

/-- An operand behind another: the start node of `next` moves onto the accepting
node of `prev`. -/
theorem Owned.concatenate {prev next : Addr} (ho : Owned c (prev :: next :: rest) live frag)
    (halloc : AllocOk c' (live.erase (c.heap next).parent))
    (hsame : ∀ x, x ≠ prev → x ≠ next → x ≠ (c.heap next).parent → c'.heap x = c.heap x)
    (hprev : c'.heap prev = c.heap (c.heap next).parent)
    (hnext : (c'.heap next).type = .accepting)
    (hparent : (c'.heap next).parent = (c.heap prev).parent) (hseq : c'.nextSeqId = c.nextSeqId)
    (hblank : Blank c'.heap) :
    ∃ live' frag', Owned c' (next :: rest) live' frag' := by
  have hS := ho.shape
  obtain ⟨hne, hrest⟩ : prev ≠ next ∧ prev ∉ rest ∧ next ∉ rest := by
    have := hS.nodup
    simp only [List.nodup_cons, List.mem_cons, not_or] at this
    exact ⟨this.1.1, this.1.2, this.2.1⟩
  obtain ⟨hpl, hpf, -⟩ := hS.root prev (by simp)
  obtain ⟨hnl, hnf, hnt⟩ := hS.root next (by simp)
  obtain ⟨hsl, hsf, hsne⟩ := hS.start prev (by simp)
  obtain ⟨hdl, hdf, hdne⟩ := hS.start next (by simp)
  have hnone : (c'.heap next).targets = [] := by simp [NFA.targets, hnext]
  set discard := (c.heap next).parent with hdiscard
  have hds : (c.heap prev).parent ≠ discard := fun h => hne (by rw [← hsf, h, hdf])
  have hdp : discard ≠ prev := fun h => hne (by rw [← hpf, ← h, hdf])
  set own : Finset Addr := (live.filter fun a => frag a = prev ∨ frag a = next).erase discard
    with hown
  have hmem : ∀ a, a ∈ own ↔ a ≠ discard ∧ a ∈ live ∧ (frag a = prev ∨ frag a = next) := by
    intro a
    simp only [hown, Finset.mem_erase, Finset.mem_filter]
  obtain ⟨height, hh⟩ := hS.height
  -- the edges inside the new automaton, as edges of the old ones
  have hedge : ∀ a ∈ own, ∀ b ∈ (c'.heap a).targets,
      b ≠ discard ∧ b ≠ (c.heap prev).parent ∧ b ∈ live ∧
        (a = prev ∧ b ∈ (c.heap discard).targets ∧ frag b = next ∨
          a ≠ prev ∧ c'.heap a = c.heap a ∧ frag b = frag a) := by
    intro a ha b hb
    obtain ⟨had, hal, haf⟩ := (hmem a).mp ha
    by_cases hap : a = prev
    · subst hap
      rw [hprev] at hb
      obtain ⟨hbl, hbf, hbs⟩ := hS.target discard hdl b hb
      rw [hdf] at hbf hbs
      exact ⟨hbs, fun h => hne (by rw [← hbf, h, hsf]), hbl, Or.inl ⟨rfl, hb, hbf⟩⟩
    · have han : a ≠ next := by
        rintro rfl
        simp [hnone] at hb
      have heq := hsame a hap han had
      rw [heq] at hb
      obtain ⟨hbl, hbf, hbs⟩ := hS.target a hal b hb
      refine ⟨fun h => ?_, fun h => ?_, hbl, Or.inr ⟨hap, heq, hbf⟩⟩
      · rw [h, hdf] at hbf
        exact hbs (by rw [h, ← hbf])
      · rw [h, hsf] at hbf
        exact hbs (by rw [h, ← hbf])
  have hbuild := hS.build c'.heap own
    (fun a => if frag a = prev then height a + height discard else height a)
    (List.Perm.refl ([prev, next] ++ rest)) (s := (c.heap prev).parent) (t := next)
    (fun a ha _ => by simpa using ((hmem a).mp ha).2.2)
    (fun a hal haf => hsame a (fun h => hrest.1 (by rwa [h, hpf] at haf))
      (fun h => hrest.2 (by rwa [h, hnf] at haf)) fun h => hrest.2 (by rwa [h, hdf] at haf))
    ((hmem next).mpr ⟨hdne.symm, hnl, Or.inr hnf⟩) hnext hparent
    ((hmem _).mpr ⟨hds, hsl, Or.inl hsf⟩) (fun h => hne (by rw [← hsf, h, hnf])) ?_ ?_
  · refine ⟨_, _, halloc.mono ?_, hbuild, ?_, hblank⟩
    · intro a ha
      rw [Finset.mem_erase]
      rcases Finset.mem_union.mp ha with ha | ha
      · obtain ⟨had, hal, -⟩ := (hmem a).mp ha
        exact ⟨had, hal⟩
      · obtain ⟨hal, haf⟩ := Finset.mem_filter.mp ha
        exact ⟨fun h => hrest.2 (by rwa [h, hdf] at haf), hal⟩
    · have hsub : ∀ a, a ∈ own ∪ live.filter (fun a => frag a ∈ rest) → Counted (c'.heap a) →
          a = prev ∧ Counted (c.heap discard) ∨
            a ≠ discard ∧ a ∈ live.filter fun a => Counted (c.heap a) := by
        intro a ha hcounted
        by_cases hap : a = prev
        · subst hap
          exact Or.inl ⟨rfl, hprev ▸ hcounted⟩
        · have han : a ≠ next := by
            rintro rfl
            exact hcounted.1.2 hnext
          have hal : a ≠ discard ∧ a ∈ live := by
            rcases Finset.mem_union.mp ha with ha | ha
            · exact ⟨((hmem a).mp ha).1, ((hmem a).mp ha).2.1⟩
            · obtain ⟨hal, haf⟩ := Finset.mem_filter.mp ha
              exact ⟨fun h => hrest.2 (by rwa [h, hdf] at haf), hal⟩
          rw [hsame a hap han hal.1] at hcounted
          exact Or.inr ⟨hal.1, Finset.mem_filter.mpr ⟨hal.2, hcounted⟩⟩
      rw [hseq]
      refine lt_of_le_of_lt ?_ ho.count
      by_cases hdc : Counted (c.heap discard)
      · have hdmem : discard ∈ live.filter fun a => Counted (c.heap a) :=
          Finset.mem_filter.mpr ⟨hdl, hdc⟩
        refine le_trans (Finset.card_le_card (t := insert prev
          ((live.filter fun a => Counted (c.heap a)).erase discard)) fun a ha => ?_) ?_
        · obtain ⟨ha, hcounted⟩ := Finset.mem_filter.mp ha
          rcases hsub a ha hcounted with ⟨rfl, -⟩ | hold
          · exact Finset.mem_insert_self _ _
          · exact Finset.mem_insert_of_mem (Finset.mem_erase.mpr hold)
        · refine le_trans (Finset.card_insert_le _ _) ?_
          rw [Finset.card_erase_add_one hdmem]
      · refine Finset.card_le_card fun a ha => ?_
        obtain ⟨ha, hcounted⟩ := Finset.mem_filter.mp ha
        exact ((hsub a ha hcounted).resolve_left fun h => hdc h.2).2
  · intro a ha b hb
    obtain ⟨hbd, hbs, hbl, hcase⟩ := hedge a ha b hb
    refine ⟨(hmem b).mpr ⟨hbd, hbl, ?_⟩, hbs⟩
    rcases hcase with ⟨-, -, hbf⟩ | ⟨-, -, hbf⟩
    · exact Or.inr hbf
    · rw [hbf]
      exact ((hmem a).mp ha).2.2
  · intro a ha b hb
    obtain ⟨-, -, -, hcase⟩ := hedge a ha b ((c'.heap a).forward_subset hb)
    rcases hcase with ⟨rfl, -, hbf⟩ | ⟨-, heq, hbf⟩
    · rw [hprev] at hb
      have := hh discard hdl b hb
      rw [if_pos hpf, if_neg (by rw [hbf]; exact hne.symm)]
      omega
    · rw [heq] at hb
      have := hh a ((hmem a).mp ha).2.1 b hb
      rw [hbf]
      split <;> omega

end Recognizer
