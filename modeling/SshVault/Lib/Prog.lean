import Mathlib

/-!
# Programs of atomic steps

A `Prog σ α` works on a state of type `σ` one atomic step at a time. The same program can
be run to its end, stopped between two steps, or interleaved with others.
-/

namespace Lib

/-- A step replaces the state, and goes on with what it read from the old one. -/
inductive Prog (σ α : Type) where
  | done (a : α)
  | step (update : σ → σ) (next : σ → Prog σ α)

namespace Prog

variable {σ α β ε : Type}

def bind : Prog σ α → (α → Prog σ β) → Prog σ β
  | .done a, f => f a
  | .step u k, f => .step u fun s => (k s).bind f

instance : Monad (Prog σ) where
  pure := .done
  bind := .bind

def isDone : Prog σ α → Bool
  | .done _ => true
  | .step _ _ => false

/-- One step that computes an answer and the next state. -/
def atom (f : σ → β × σ) : Prog σ β := .step (fun s => (f s).2) fun s => .done (f s).1

/-! ## Running to the end -/

def run : Prog σ α → σ → α × σ
  | .done a, s => (a, s)
  | .step u k, s => (k s).run (u s)

@[simp] theorem run_pure (a : α) (s : σ) : (pure a : Prog σ α).run s = (a, s) := rfl

@[simp] theorem run_atom (f : σ → β × σ) (s : σ) : (atom f).run s = f s := rfl

@[simp] theorem run_bind (p : Prog σ α) (f : α → Prog σ β) (s : σ) :
    (p >>= f).run s = (f (p.run s).1).run (p.run s).2 := by
  change (p.bind f).run s = _
  induction p generalizing s with
  | done a => rfl
  | step u k ih => exact ih s (u s)

/-- A program that may give up. What it wrote before it gave up stays written. -/
def exec (p : ExceptT ε (Prog σ) α) (s : σ) : Except ε α × σ := p.run.run s

@[simp] theorem exec_lift (p : Prog σ α) (s : σ) :
    exec (liftM p : ExceptT ε (Prog σ) α) s = (.ok (p.run s).1, (p.run s).2) := by
  change (p >>= fun a => pure (Except.ok a)).run s = _
  rw [run_bind, run_pure]

@[simp] theorem exec_liftExcept (e : Except ε α) (s : σ) :
    exec (liftM e : ExceptT ε (Prog σ) α) s = (e, s) := rfl

theorem exec_bind (p : ExceptT ε (Prog σ) α) (f : α → ExceptT ε (Prog σ) β) (s : σ) :
    exec (p >>= f) s = match exec p s with
      | (.ok a, s') => exec (f a) s'
      | (.error e, s') => (.error e, s') := by
  change (p.run >>= ExceptT.bindCont f).run s = _
  rw [run_bind]
  unfold exec
  rcases p.run.run s with ⟨_ | _, _⟩ <;> rfl

/-! ## Stopping between two steps -/

/-- The state after the first `n` steps, as a crash at that point leaves it. -/
def cutAt : Nat → Prog σ α → σ → σ
  | 0, _, s => s
  | _ + 1, .done _, s => s
  | n + 1, .step u k, s => cutAt n (k s) (u s)

/-- What is done with the answer does not matter to a crash. -/
theorem cutAt_map (g : α → β) (n : Nat) (p : Prog σ α) (s : σ) :
    cutAt n (p >>= fun a => pure (g a)) s = cutAt n p s := by
  change cutAt n (p.bind fun a => .done (g a)) s = _
  induction p generalizing n s with
  | done a => cases n <;> rfl
  | step u k ih =>
    cases n with
    | zero => rfl
    | succ n => exact ih s n (u s)

/-- `I` holds before every step, and `Q` at the end. -/
def Always (I : σ → Prop) (Q : α → σ → Prop) : Prog σ α → σ → Prop
  | .done a, s => Q a s
  | .step u k, s => I s ∧ Always I Q (k s) (u s)

variable {I : σ → Prop} {Q Q' : α → σ → Prop}

theorem Always.run {p : Prog σ α} {s : σ} (h : Always I Q p s) : Q (p.run s).1 (p.run s).2 := by
  induction p generalizing s with
  | done a => exact h
  | step u k ih => exact ih s h.2

theorem Always.cutAt {p : Prog σ α} {s : σ} (h : Always I Q p s) (hQ : ∀ a s, Q a s → I s)
    (n : Nat) : I (cutAt n p s) := by
  induction p generalizing s n with
  | done a => cases n <;> exact hQ a s h
  | step u k ih =>
    cases n with
    | zero => exact h.1
    | succ n => exact ih s h.2 n

theorem Always.bind {p : Prog σ α} {f : α → Prog σ β} {R : β → σ → Prop} {s : σ}
    (h : Always I (fun a t => Always I R (f a) t) p s) : Always I R (p >>= f) s := by
  change Always I R (p.bind f) s
  induction p generalizing s with
  | done a => exact h
  | step u k ih => exact ⟨h.1, ih s h.2⟩

theorem Always.pure {a : α} {s : σ} (h : Q a s) : Always I Q (pure a : Prog σ α) s := h

theorem Always.atom {f : σ → α × σ} {s : σ} (hI : I s) (hQ : Q (f s).1 (f s).2) :
    Always I Q (atom f) s := ⟨hI, hQ⟩

theorem Always.imp {I' : σ → Prop} {p : Prog σ α} {s : σ} (h : Always I Q p s) (hI : ∀ s, I s → I' s)
    (hQ : ∀ a t, Q a t → Q' a t) : Always I' Q' p s := by
  induction p generalizing s with
  | done a => exact hQ a s h
  | step u k ih => exact ⟨hI s h.1, ih s h.2⟩

theorem Always.mono {p : Prog σ α} {s : σ} (h : Always I Q p s) (hQ : ∀ a t, Q a t → Q' a t) :
    Always I Q' p s := h.imp (fun _ h => h) hQ

/-! ## What every step does -/

/-- Every step, from whatever state, is an `R` step. -/
def Each (R : σ → σ → Prop) : Prog σ α → Prop
  | .done _ => True
  | .step u k => ∀ s, R s (u s) ∧ Each R (k s)

section

variable {R : σ → σ → Prop}

theorem Each.bind {p : Prog σ α} {f : α → Prog σ β} (hp : Each R p) (hf : ∀ a, Each R (f a)) :
    Each R (p >>= f) := by
  change Each R (p.bind f)
  induction p with
  | done a => exact hf a
  | step u k ih => exact fun s => ⟨(hp s).1, ih s (hp s).2⟩

theorem Each.atom {f : σ → α × σ} (h : ∀ s, R s (f s).2) : Each R (Prog.atom f) :=
  fun s => ⟨h s, trivial⟩

theorem Each.bindExcept {p : ExceptT ε (Prog σ) α} {f : α → ExceptT ε (Prog σ) β} (hp : Each R p.run)
    (hf : ∀ a, Each R (f a).run) : Each R (p >>= f).run := by
  refine Each.bind hp fun r => ?_
  cases r with
  | ok a => exact hf a
  | error e => trivial

theorem Each.lift {p : Prog σ α} (hp : Each R p) : Each R (liftM p : ExceptT ε (Prog σ) α).run :=
  Each.bind hp fun _ => trivial

theorem Each.liftExcept (e : Except ε α) : Each R (liftM e : ExceptT ε (Prog σ) α).run := trivial

theorem Each.mono {R' : σ → σ → Prop} {p : Prog σ α} (hp : Each R p) (h : ∀ s t, R s t → R' s t) : Each R' p := by
  induction p with
  | done a => trivial
  | step u k ih => exact fun s => ⟨h _ _ (hp s).1, ih s (hp s).2⟩

theorem Each.run {p : Prog σ α} (hp : Each R p) (hrefl : ∀ s, R s s) (htrans : ∀ s t u, R s t → R t u → R s u) (s : σ) :
    R s (p.run s).2 := by
  induction p generalizing s with
  | done a => exact hrefl s
  | step u k ih => exact htrans _ _ _ (hp s).1 (ih s (hp s).2 (u s))

end

/-- The answer satisfies `Q`, whatever others do between the steps. -/
def Ends (Q : α → Prop) : Prog σ α → Prop
  | .done a => Q a
  | .step _ k => ∀ s, Ends Q (k s)

theorem Ends.bind {P : α → Prop} {Q : β → Prop} {p : Prog σ α} {f : α → Prog σ β} (hp : Ends P p)
    (hf : ∀ a, P a → Ends Q (f a)) : Ends Q (p >>= f) := by
  change Ends Q (p.bind f)
  induction p with
  | done a => exact hf a hp
  | step u k ih => exact fun s => ih s (hp s)

theorem Ends.atom {Q : β → Prop} {f : σ → β × σ} (h : ∀ s, Q (f s).1) : Ends Q (Prog.atom f) := h

theorem Ends.run {Q : α → Prop} {p : Prog σ α} (h : Ends Q p) (s : σ) : Q (p.run s).1 := by
  induction p generalizing s with
  | done a => exact h
  | step u k ih => exact ih s (h s) (u s)

/-- While others only raise the measure `m`, and it is at least `b` now, no step lowers it, and the answer fits
the bound that holds at the end. -/
def Rises {μ : Type} [Preorder μ] (m : σ → μ) (Q : μ → α → Prop) : μ → Prog σ α → Prop
  | b, .done a => Q b a
  | b, .step u k => ∀ s, b ≤ m s → m s ≤ m (u s) ∧ Rises m Q (m (u s)) (k s)

section

variable {μ : Type} [Preorder μ] {m : σ → μ} {b b' : μ}

theorem Rises.mono {Q : μ → α → Prop} (hQ : ∀ b b' a, b ≤ b' → Q b a → Q b' a) {p : Prog σ α} (hb : b ≤ b')
    (h : Rises m Q b p) : Rises m Q b' p := by
  cases p with
  | done a => exact hQ _ _ _ hb h
  | step u k => exact fun s hs => h s (hb.trans hs)

theorem Rises.bind {P : μ → α → Prop} {Q : μ → β → Prop} {p : Prog σ α} {f : α → Prog σ β} (hp : Rises m P b p)
    (hf : ∀ b a, P b a → Rises m Q b (f a)) : Rises m Q b (p >>= f) := by
  change Rises m Q b (p.bind f)
  induction p generalizing b with
  | done a => exact hf _ _ hp
  | step u k ih => exact fun s hs => ⟨(hp s hs).1, ih s (hp s hs).2⟩

theorem Rises.atom {Q : μ → α → Prop} {f : σ → α × σ}
    (h : ∀ s, b ≤ m s → m s ≤ m (f s).2 ∧ Q (m (f s).2) (f s).1) : Rises m Q b (Prog.atom f) := h

end

end Prog

/-! ## Interleaving -/

/-- Any number of programs that work on one state. -/
structure Pool (ι σ α : Type) where
  thread : ι → Prog σ α
  state : σ

namespace Pool

variable {ι σ α : Type} [DecidableEq ι]

/-- Thread `i` takes its next step. -/
inductive Step (i : ι) : Pool ι σ α → Pool ι σ α → Prop
  | step {c : Pool ι σ α} {u : σ → σ} {k : σ → Prog σ α} (h : c.thread i = .step u k) :
    Step i c ⟨Function.update c.thread i (k c.state), u c.state⟩

/-- Some threads, none of them `i`, take any number of steps. -/
def Others (i : ι) : Pool ι σ α → Pool ι σ α → Prop :=
  Relation.ReflTransGen fun c c' => ∃ j, j ≠ i ∧ Step j c c'

theorem Others.thread_eq {i : ι} {c c' : Pool ι σ α} (h : Others i c c') :
    c'.thread i = c.thread i := by
  induction h with
  | refl => rfl
  | tail _ h ih =>
    obtain ⟨j, hj, ⟨_⟩⟩ := h
    rw [← ih]
    exact Function.update_of_ne hj.symm _ _

/-- Thread `i` takes its next step, if it has one. -/
def advance (i : ι) (c : Pool ι σ α) : Pool ι σ α :=
  match c.thread i with
  | .done _ => c
  | .step u k => ⟨Function.update c.thread i (k c.state), u c.state⟩

theorem step_advance {i : ι} {c : Pool ι σ α} (h : (c.thread i).isDone = false) : Step i c (c.advance i) := by
  unfold advance
  split
  · rename_i hi
    rw [hi] at h
    cases h
  · rename_i hi
    exact .step hi

theorem Others.rel {i : ι} {c c' : Pool ι σ α} {R : σ → σ → Prop} (hrefl : ∀ s, R s s)
    (htrans : ∀ s t u, R s t → R t u → R s u) (hall : ∀ j, (c.thread j).Each R) (h : Others i c c') :
    R c.state c'.state ∧ ∀ j, (c'.thread j).Each R := by
  induction h with
  | refl => exact ⟨hrefl _, hall⟩
  | tail _ h ih =>
    obtain ⟨j, -, ⟨hj⟩⟩ := h
    have hstep := ih.2 j
    rw [hj] at hstep
    refine ⟨htrans _ _ _ ih.1 (hstep _).1, fun m => ?_⟩
    by_cases hm : m = j
    · subst hm
      simpa using (hstep _).2
    · simpa [hm] using ih.2 m

theorem Step.each {i : ι} {c c' : Pool ι σ α} {R : σ → σ → Prop} (hall : ∀ j, (c.thread j).Each R)
    (h : Step i c c') : ∀ j, (c'.thread j).Each R := by
  obtain ⟨hi⟩ := h
  have hstep := hall i
  rw [hi] at hstep
  intro m
  by_cases hm : m = i
  · subst hm
    simpa using (hstep _).2
  · simpa [hm] using hall m

end Pool

end Lib
