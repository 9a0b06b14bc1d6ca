import SshVault.Lib.Prog

/-!
# Interleavings with their history

What a step of a program may do depends on what its earlier steps have found and left. In a pool, other programs
step between these, so a fact that a check has read may no longer hold when the program acts on it.
-/

namespace Lib

namespace Prog

variable {σ α β ε : Type}

/-- Every step, from whatever state, is a `Φ` step, and the answer is a `Q` answer. Both may depend on the states
that the earlier steps found and left, latest first. -/
def Traced (Φ : List (σ × σ) → σ → σ → Prop) (Q : List (σ × σ) → α → Prop) : List (σ × σ) → Prog σ α → Prop
  | past, .done a => Q past a
  | past, .step u k => ∀ s, Φ past s (u s) ∧ Traced Φ Q ((s, u s) :: past) (k s)

variable {Φ Φ' : List (σ × σ) → σ → σ → Prop} {Q Q' : List (σ × σ) → α → Prop} {past : List (σ × σ)}

theorem Traced.pure {a : α} (h : Q past a) : Traced Φ Q past (pure a : Prog σ α) := h

theorem Traced.atom {f : σ → α × σ} (h : ∀ s, Φ past s (f s).2) (hQ : ∀ s, Q ((s, (f s).2) :: past) (f s).1) :
    Traced Φ Q past (Prog.atom f) := fun s => ⟨h s, hQ s⟩

theorem Traced.bind {p : Prog σ α} {f : α → Prog σ β} {R : List (σ × σ) → β → Prop}
    (h : Traced Φ (fun past a => Traced Φ R past (f a)) past p) : Traced Φ R past (p >>= f) := by
  change Traced Φ R past (p.bind f)
  induction p generalizing past with
  | done a => exact h
  | step u k ih => exact fun s => ⟨(h s).1, ih s (h s).2⟩

theorem Traced.imp {p : Prog σ α} (h : Traced Φ Q past p) (hΦ : ∀ past s t, Φ past s t → Φ' past s t)
    (hQ : ∀ past a, Q past a → Q' past a) : Traced Φ' Q' past p := by
  induction p generalizing past with
  | done a => exact hQ past a h
  | step u k ih => exact fun s => ⟨hΦ _ _ _ (h s).1, ih s (h s).2⟩

theorem Traced.keeps {P : List (σ × σ) → Prop} (hP : ∀ m past, P past → P (m :: past)) (h : P past) (p : Prog σ α) :
    Traced (fun _ _ _ => True) (fun past _ => P past) past p := by
  induction p generalizing past with
  | done a => exact h
  | step u k ih => exact fun s => ⟨trivial, ih s (hP _ _ h)⟩

theorem Traced.run {P : σ → Prop} {p : Prog σ α} {s : σ} (h : Traced Φ Q past p) (hkeep : ∀ past s t, Φ past s t → P s → P t)
    (hs : P s) : P (p.run s).2 := by
  induction p generalizing past s with
  | done a => exact hs
  | step u k ih => exact ih s (h s).2 (hkeep _ _ _ (h s).1 hs)

/-! ## Programs that may give up -/

/-- What holds of an answer, and what holds when there is none. -/
def Ending (Q : List (σ × σ) → α → Prop) (E : List (σ × σ) → Prop) (past : List (σ × σ)) : Except ε α → Prop
  | .ok a => Q past a
  | .error _ => E past

/-- What holds of an answer, when there is one. -/
abbrev OnOk (Q : List (σ × σ) → α → Prop) : List (σ × σ) → Except ε α → Prop := Ending Q fun _ => True

variable {E : List (σ × σ) → Prop}

theorem Traced.bindEnding {p : ExceptT ε (Prog σ) α} {f : α → ExceptT ε (Prog σ) β} {R : List (σ × σ) → β → Prop}
    (h : Traced Φ (Ending (fun past a => Traced Φ (Ending R E) past (f a).run) E) past p.run) :
    Traced Φ (Ending R E) past (p >>= f).run := by
  refine Traced.bind (h.imp (fun _ _ _ h => h) fun past r hr => ?_)
  cases r <;> exact hr

theorem Traced.exceptEnding {e : Except ε α} (herr : E past) (h : ∀ a, e = .ok a → Q past a) :
    Traced Φ (Ending Q E) past (liftM e : ExceptT ε (Prog σ) α).run := by
  cases e with
  | ok a => exact h a rfl
  | error e => exact herr

theorem Traced.liftEnding {p : Prog σ α} (h : Traced Φ Q past p) :
    Traced Φ (Ending Q E) past (liftM p : ExceptT ε (Prog σ) α).run :=
  Traced.bind (h.imp (fun _ _ _ h => h) fun _ _ h => h)

theorem Traced.ok {a : α} (h : Q past a) : Traced Φ (OnOk Q) past (Pure.pure a : ExceptT ε (Prog σ) α).run := h

theorem Traced.throw {e : ε} : Traced Φ (OnOk Q) past (throw e : ExceptT ε (Prog σ) α).run := trivial

theorem Traced.liftExcept {e : Except ε α} (h : ∀ a, e = .ok a → Q past a) :
    Traced Φ (OnOk Q) past (liftM e : ExceptT ε (Prog σ) α).run :=
  Traced.exceptEnding trivial h

theorem Traced.lift {p : Prog σ α} (h : Traced Φ Q past p) :
    Traced Φ (OnOk Q) past (liftM p : ExceptT ε (Prog σ) α).run :=
  Traced.liftEnding h

theorem Traced.exec {P : σ → Prop} {R : List (σ × σ) → Except ε α → Prop} {p : ExceptT ε (Prog σ) α} {s : σ}
    (h : Traced Φ R past p.run) (hkeep : ∀ past s t, Φ past s t → P s → P t) (hs : P s) : P (Prog.exec p s).2 :=
  Traced.run h hkeep hs

theorem Traced.bindExcept {p : ExceptT ε (Prog σ) α} {f : α → ExceptT ε (Prog σ) β} {R : List (σ × σ) → β → Prop}
    (h : Traced Φ (OnOk fun past a => Traced Φ (OnOk R) past (f a).run) past p.run) :
    Traced Φ (OnOk R) past (p >>= f).run :=
  Traced.bindEnding h

end Prog

namespace Pool

variable {ι σ α : Type} [DecidableEq ι]

/-- A run, with its steps: the thread of each, and what it found and left, latest first. -/
inductive Trace (c₀ : Pool ι σ α) : List (ι × σ × σ) → Pool ι σ α → Prop
  | start : Trace c₀ [] c₀
  | snoc {h : List (ι × σ × σ)} {c c' : Pool ι σ α} {i : ι} (hrun : Trace c₀ h c) (hstep : Step i c c') :
    Trace c₀ ((i, c.state, c'.state) :: h) c'

/-- The steps of one thread. -/
def own (i : ι) : List (ι × σ × σ) → List (σ × σ)
  | [] => []
  | (j, m) :: h => if j = i then m :: own i h else own i h

theorem mem_own {i : ι} {m : σ × σ} {h : List (ι × σ × σ)} : m ∈ own i h ↔ (i, m) ∈ h := by
  induction h with
  | nil => simp [own]
  | cons x h ih =>
    obtain ⟨j, t⟩ := x
    unfold own
    split
    · rename_i hj
      simp [ih, hj]
    · rename_i hj
      simp [ih, Ne.symm hj]

variable {Φ : ι → List (σ × σ) → σ → σ → Prop} {Q : ι → List (σ × σ) → α → Prop} {c₀ c : Pool ι σ α}
  {h : List (ι × σ × σ)}

/-- What is left of a thread keeps to its word, given its steps so far. -/
theorem Trace.traced {S : List (σ × σ) → σ → σ → Prop} {A : List (σ × σ) → α → Prop} {i : ι}
    (hi : (c₀.thread i).Traced S A []) (hrun : Trace c₀ h c) : (c.thread i).Traced S A (own i h) := by
  induction hrun with
  | start => exact hi
  | @snoc h c c' j hrun hstep ih =>
    obtain ⟨hj⟩ := hstep
    unfold own
    by_cases hij : j = i
    · subst hij
      rw [hj] at ih
      rw [if_pos rfl]
      simpa using (ih c.state).2
    · rw [if_neg hij]
      simpa [Ne.symm hij] using ih

/-- **Runs.** A statement about the steps so far and the state holds at the end of a run if every step that a thread
may take, given its own steps so far, keeps it. -/
theorem Trace.keeps {P : List (ι × σ × σ) → σ → Prop} (hall : ∀ i, (c₀.thread i).Traced (Φ i) (Q i) [])
    (hstart : P [] c₀.state) (hstep : ∀ h s s' i, P h s → Φ i (own i h) s s' → P ((i, s, s') :: h) s')
    (hrun : Trace c₀ h c) : P h c.state := by
  induction hrun with
  | start => exact hstart
  | @snoc h c c' i hrun hnext ih =>
    obtain ⟨hi⟩ := hnext
    have hword := hrun.traced (hall i)
    rw [hi] at hword
    exact hstep h c.state _ i ih (hword c.state).1

theorem Trace.step_of_mem (hall : ∀ i, (c₀.thread i).Traced (Φ i) (Q i) []) (hrun : Trace c₀ h c) {i : ι} {s t : σ}
    (hmem : (i, s, t) ∈ h) : ∃ h', h' <:+ h ∧ Φ i (own i h') s t := by
  refine hrun.keeps (P := fun h _ => (i, s, t) ∈ h → ∃ h', h' <:+ h ∧ Φ i (own i h') s t) hall (fun h => nomatch h) ?_ hmem
  intro h s' t' j ih hstep hmem
  rcases List.mem_cons.mp hmem with heq | hmem
  · obtain ⟨rfl, rfl, rfl⟩ := by simpa using heq
    exact ⟨h, List.suffix_cons _ _, hstep⟩
  · obtain ⟨h', hsuf, hstep'⟩ := ih hmem
    exact ⟨h', hsuf.trans (List.suffix_cons _ _), hstep'⟩

/-! ## What turns true, and what stays true -/

section

variable {p : σ → Prop}

/-- What did not hold at the start and holds at some time was made so by a step. -/
theorem Trace.turns (hrun : Trace c₀ h c) (hnot : ¬ p c₀.state) (hp : p c.state) :
    ∃ i s t, (i, s, t) ∈ h ∧ ¬ p s ∧ p t := by
  induction hrun with
  | start => exact absurd hp hnot
  | @snoc h c c' i hrun hstep ih =>
    by_cases hc : p c.state
    · obtain ⟨j, s, t, hmem, hs, ht⟩ := ih hc
      exact ⟨j, s, t, List.mem_cons_of_mem _ hmem, hs, ht⟩
    · exact ⟨i, c.state, c'.state, List.mem_cons_self, hc, hp⟩

variable (hall : ∀ i, (c₀.thread i).Traced (Φ i) (Q i) []) (hkeep : ∀ i past s t, Φ i past s t → p s → p t)

include hall hkeep

theorem Trace.stays (hrun : Trace c₀ h c) {i : ι} {s t : σ} (hmem : (i, s, t) ∈ h) (ht : p t) : p c.state := by
  refine hrun.keeps (P := fun h d => (i, s, t) ∈ h → p d) hall (fun h => nomatch h) ?_ hmem
  intro h s' t' j ih hstep hmem
  rcases List.mem_cons.mp hmem with heq | hmem
  · obtain ⟨-, -, rfl⟩ := by simpa using heq
    exact ht
  · exact hkeep j _ s' t' hstep (ih hmem)

/-- What every step keeps turns true at most once. -/
theorem Trace.once (hrun : Trace c₀ h c) {i j : ι} {s t s' t' : σ} (hi : (i, s, t) ∈ h) (hj : (j, s', t') ∈ h)
    (hs : ¬ p s) (ht : p t) (hs' : ¬ p s') (ht' : p t') : (i, s, t) = (j, s', t') := by
  induction hrun with
  | start => cases hi
  | @snoc h c c' k hrun hstep ih =>
    have hlast : ∀ {x : ι × σ × σ}, x ∈ h → p x.2.2 → p c.state := fun hx hp => hrun.stays hall hkeep hx hp
    rcases List.mem_cons.mp hi with hi | hi <;> rcases List.mem_cons.mp hj with hj | hj
    · rw [hi, hj]
    · obtain ⟨-, rfl, -⟩ := by simpa using hi
      exact absurd (hlast hj ht') hs
    · obtain ⟨-, rfl, -⟩ := by simpa using hj
      exact absurd (hlast hi ht) hs'
    · exact ih hi hj

end

theorem Trace.answer {S : List (σ × σ) → σ → σ → Prop} {A : List (σ × σ) → α → Prop} {i : ι}
    (hi : (c₀.thread i).Traced S A []) (hrun : Trace c₀ h c) {a : α} (hdone : c.thread i = .done a) : A (own i h) a := by
  have hword := hrun.traced hi
  rwa [hdone] at hword

/-! ## Sums over a run -/

theorem sum_own [Fintype ι] (f : σ × σ → Nat) (h : List (ι × σ × σ)) :
    (h.map fun x => f x.2).sum = ∑ i, ((own i h).map f).sum := by
  induction h with
  | nil => simp [own]
  | cons x h ih =>
    obtain ⟨j, m⟩ := x
    have hown : ∀ i, ((own i ((j, m) :: h)).map f).sum = (if j = i then f m else 0) + ((own i h).map f).sum := by
      intro i
      change ((if j = i then m :: own i h else own i h).map f).sum = _
      by_cases hj : j = i
      · rw [if_pos hj, if_pos hj, List.map_cons, List.sum_cons]
      · rw [if_neg hj, if_neg hj, zero_add]
    rw [List.map_cons, List.sum_cons, ih, Finset.sum_congr rfl fun i _ => hown i, Finset.sum_add_distrib,
      Finset.sum_ite_eq, if_pos (Finset.mem_univ j)]

/-- The threads take their turns. Those that are done stay where they are. -/
def play (turns : List ι) (c : Pool ι σ α) : Pool ι σ α := turns.foldl (fun c i => c.advance i) c

theorem Trace.play (hrun : Trace c₀ h c) (turns : List ι) : ∃ h', Trace c₀ h' (c.play turns) := by
  induction turns generalizing h c with
  | nil => exact ⟨h, hrun⟩
  | cons i turns ih =>
    cases hdone : (c.thread i).isDone with
    | false => exact ih (hrun.snoc (step_advance hdone))
    | true =>
      have hstay : c.advance i = c := by
        unfold advance
        split
        · rfl
        · rename_i hi
          rw [hi] at hdone
          cases hdone
      have hrest := ih hrun
      rw [← hstay] at hrest
      exact hrest

end Pool

end Lib
