import Mathlib

/-!
# Clients of a server

A `Session` is what is left of a client program: it has ended, or it waits for an answer. `Always`
is what a client guarantees as long as the answers it gets are good.
-/

namespace Lib

/-- A client works on a state of its own, and asks now and then. -/
inductive Session (σ ρ π α : Type) where
  | done (s : σ) (a : α)
  | ask (s : σ) (r : ρ) (next : π → Session σ ρ π α)

namespace Session

variable {σ σ' ρ π α β τ : Type}

def state : Session σ ρ π α → σ
  | .done s _ => s
  | .ask s _ _ => s

def bind : Session σ ρ π α → (α → σ → Session σ ρ π β) → Session σ ρ π β
  | .done s a, f => f a s
  | .ask s r k, f => .ask s r fun p => (k p).bind f

/-- The requests of a client that gets these answers. -/
def asked : Session σ ρ π α → List π → List ρ
  | .done _ _, _ => []
  | .ask _ r _, [] => [r]
  | .ask _ r k, p :: ps => r :: (k p).asked ps

theorem bind_assoc {γ : Type} (c : Session σ ρ π α) (f : α → σ → Session σ ρ π β) (g : β → σ → Session σ ρ π γ) :
    (c.bind f).bind g = c.bind fun a s => (f a s).bind g := by
  induction c with
  | done s a => rfl
  | ask s r k ih => exact congrArg (Session.ask s r) (funext fun p => ih p)

end Session

/-! ## Writing clients -/

/-- A client program that may give up. -/
def Client (σ ρ π ε α : Type) := σ → Session σ ρ π (Except ε α)

namespace Client

variable {σ ρ π ε α β τ : Type}

instance : Monad (Client σ ρ π ε) where
  pure a := fun s => .done s (.ok a)
  bind m f := fun s => (m s).bind fun r s' => match r with
    | .ok a => f a s'
    | .error e => .done s' (.error e)

instance : MonadLift (Except ε) (Client σ ρ π ε) where
  monadLift r := fun s => .done s r

/-- Reads or changes the client's own state. -/
def onState (f : σ → Except ε α × σ) : Client σ ρ π ε α := fun s => .done (f s).2 (f s).1

def get : Client σ ρ π ε σ := fun s => .done s (.ok s)

def fail (e : ε) : Client σ ρ π ε α := fun s => .done s (.error e)

def ask (r : σ → ρ) : Client σ ρ π ε π := fun s => .ask s (r s) fun p => .done s (.ok p)

/-! ### Step by step -/

theorem bind_assoc {γ : Type} (m : Client σ ρ π ε α) (f : α → Client σ ρ π ε β) (g : β → Client σ ρ π ε γ) :
    m >>= f >>= g = m >>= fun a => f a >>= g := by
  funext s
  refine (Session.bind_assoc _ _ _).trans (congrArg (Session.bind (m s)) ?_)
  funext r s'
  cases r <;> rfl

theorem ask_bind (r : σ → ρ) (f : π → Client σ ρ π ε α) (s : σ) :
    (ask r >>= f) s = .ask s (r s) fun p => f p s := rfl

theorem lift_bind (r : Except ε α) (f : α → Client σ ρ π ε β) (s : σ) :
    ((liftM r : Client σ ρ π ε α) >>= f) s = match r with
      | .ok a => f a s
      | .error e => .done s (.error e) := by
  cases r <;> rfl

theorem onState_bind (g : σ → Except ε α × σ) (f : α → Client σ ρ π ε β) (s : σ) :
    (onState g >>= f) s = match (g s).1 with
      | .ok a => f a (g s).2
      | .error e => .done (g s).2 (.error e) := rfl

theorem get_bind (f : σ → Client σ ρ π ε α) (s : σ) : (get >>= f) s = f s s := rfl

end Client

/-! ## Conversations -/

namespace Session

variable {σ ρ π α : Type}

/-- What is left of a client after these answers. -/
def feed : List π → Session σ ρ π α → Session σ ρ π α
  | [], c => c
  | p :: ps, .ask _ _ k => feed ps (k p)
  | _ :: _, .done s a => .done s a

/-- Its requests so far, each with its answer. -/
def said : List π → Session σ ρ π α → List (ρ × π)
  | [], _ => []
  | p :: ps, .ask _ r k => (r, p) :: said ps (k p)
  | _ :: _, .done _ _ => []

theorem feed_snoc (ps : List π) (p : π) (c : Session σ ρ π α) : feed (ps ++ [p]) c = feed [p] (feed ps c) := by
  induction ps generalizing c with
  | nil => rfl
  | cons q ps ih =>
    cases c with
    | done s a => rfl
    | ask s r k => exact ih (k q)

theorem said_snoc (ps : List π) (p : π) (c : Session σ ρ π α) :
    said (ps ++ [p]) c = said ps c ++ said [p] (feed ps c) := by
  induction ps generalizing c with
  | nil => rfl
  | cons q ps ih =>
    cases c with
    | done s a => rfl
    | ask s r k => exact congrArg ((r, q) :: ·) (ih (k q))

theorem feed_bind {β : Type} {c : Session σ ρ π α} {f : α → σ → Session σ ρ π β} {ps : List π} {s : σ} {b : β}
    (h : feed ps (c.bind f) = .done s b) :
    ∃ qs rs s' a, feed qs c = .done s' a ∧ feed rs (f a s') = .done s b ∧
      said ps (c.bind f) = said qs c ++ said rs (f a s') := by
  induction c generalizing ps with
  | done s' a => exact ⟨[], ps, s', a, rfl, h, rfl⟩
  | ask s' r k ih =>
    cases ps with
    | nil => cases h
    | cons p ps =>
      obtain ⟨qs, rs, s'', a, hq, hr, hsaid⟩ := ih p h
      exact ⟨p :: qs, rs, s'', a, hq, hr, congrArg ((r, p) :: ·) hsaid⟩

/-- As long as the answers are good ones, every request is a `P` one, and `Q` holds at the end. -/
def Always (good : ρ → π → Prop) (P : σ → ρ → Prop) (Q : σ → α → Prop) : Session σ ρ π α → Prop
  | .done s a => Q s a
  | .ask s r k => P s r ∧ ∀ p, good r p → Always good P Q (k p)

variable {good : ρ → π → Prop} {P : σ → ρ → Prop} {Q Q' : σ → α → Prop}

theorem Always.feed {c : Session σ ρ π α} (h : Always good P Q c) {ps : List π}
    (hgood : ∀ x ∈ said ps c, good x.1 x.2) : Always good P Q (feed ps c) := by
  induction ps generalizing c with
  | nil => exact h
  | cons p ps ih =>
    cases c with
    | done s a => exact h
    | ask s r k =>
      obtain ⟨hp, hrest⟩ := List.forall_mem_cons.mp hgood
      exact ih (h.2 p hp) hrest

theorem Always.mono {c : Session σ ρ π α} (h : Always good P Q c) (hQ : ∀ s a, Q s a → Q' s a) : Always good P Q' c := by
  induction c with
  | done s a => exact hQ s a h
  | ask s r k ih => exact ⟨h.1, fun p hp => ih p (h.2 p hp)⟩

theorem Always.antitone {good' : ρ → π → Prop} {c : Session σ ρ π α} (h : Always good P Q c)
    (hgood : ∀ r p, good' r p → good r p) : Always good' P Q c := by
  induction c with
  | done s a => exact h
  | ask s r k ih => exact ⟨h.1, fun p hp => ih p (h.2 p (hgood r p hp))⟩

/-- Between two requests the view `v` of the state moves by `R`, given the answer to the first. `X` is where it
may be now. -/
def Within {β : Type} (v : σ → β) (R : β → π → β → Prop) (Q : (β → Prop) → σ → α → Prop) :
    (β → Prop) → Session σ ρ π α → Prop
  | X, .done s a => Q X s a
  | X, .ask s _ k => X (v s) ∧ ∀ p, Within v R Q (R (v s) p) (k p)

section

variable {β : Type} {v : σ → β} {R : β → π → β → Prop} {X X' : β → Prop}

theorem Within.mono {Q : (β → Prop) → σ → α → Prop} {c : Session σ ρ π α} (h : Within v R Q X c) (hX : ∀ b, X b → X' b)
    (hQ : ∀ s a, Q X s a → Q X' s a) : Within v R Q X' c := by
  cases c with
  | done s a => exact hQ s a h
  | ask s r k => exact ⟨hX _ h.1, h.2⟩

theorem Within.state {c : Session σ ρ π α} (h : Within v R (fun X s _ => X (v s)) X c) : X (v c.state) := by
  cases c with
  | done s a => exact h
  | ask s r k => exact h.1

theorem Within.imp {Q Q' : (β → Prop) → σ → α → Prop} {c : Session σ ρ π α} (h : Within v R Q X c)
    (hQ : ∀ X s a, Q X s a → Q' X s a) : Within v R Q' X c := by
  induction c generalizing X with
  | done s a => exact hQ X s a h
  | ask s r k ih => exact ⟨h.1, fun p => ih p (h.2 p)⟩

theorem Within.bind {γ : Type} {Q : (β → Prop) → σ → γ → Prop} {c : Session σ ρ π α} {f : α → σ → Session σ ρ π γ}
    (h : Within v R (fun X s a => Within v R Q X (f a s)) X c) : Within v R Q X (c.bind f) := by
  induction c generalizing X with
  | done s a => exact h
  | ask s r k ih => exact ⟨h.1, fun p => ih p (h.2 p)⟩

end

theorem Always.bind {β : Type} {Q : σ → β → Prop} {c : Session σ ρ π α} {f : α → σ → Session σ ρ π β}
    (h : Always good P (fun s a => Always good P Q (f a s)) c) : Always good P Q (c.bind f) := by
  induction c with
  | done s a => exact h
  | ask s r k ih => exact ⟨h.1, fun p hp => ih p (h.2 p hp)⟩

end Session

namespace Client

variable {σ ρ π ε α β : Type} {good : ρ → π → Prop} {P : σ → ρ → Prop}

/-- `Q` holds of an answer, and `E` of the state if the client gives up. -/
def Does (good : ρ → π → Prop) (P : σ → ρ → Prop) (Q : σ → α → Prop) (E : σ → Prop) (m : Client σ ρ π ε α) (s : σ) : Prop :=
  (m s).Always good P fun s r => match r with
    | .ok a => Q s a
    | .error _ => E s

variable {Q : σ → α → Prop} {E : σ → Prop} {s : σ}

theorem Does.pure {a : α} (h : Q s a) : Does good P Q E (pure a : Client σ ρ π ε α) s := h

theorem Does.fail {e : ε} (h : E s) : Does good P Q E (fail e : Client σ ρ π ε α) s := h

theorem Does.get {Q : σ → σ → Prop} (h : Q s s) : Does good P Q E (get : Client σ ρ π ε σ) s := h

theorem Does.lift {r : Except ε α} (hQ : ∀ a, r = .ok a → Q s a) (hE : E s) :
    Does good P Q E (liftM r : Client σ ρ π ε α) s := by
  cases r with
  | ok a => exact hQ a rfl
  | error e => exact hE

theorem Does.ask {Q : σ → π → Prop} {r : σ → ρ} (hP : P s (r s)) (h : ∀ p, good (r s) p → Q s p) :
    Does good P Q E (ask r : Client σ ρ π ε π) s := ⟨hP, h⟩

theorem Does.onState {f : σ → Except ε α × σ} (hQ : ∀ a, (f s).1 = .ok a → Q (f s).2 a)
    (hE : ∀ e, (f s).1 = .error e → E (f s).2) : Does good P Q E (onState f : Client σ ρ π ε α) s := by
  change match (f s).1 with
    | .ok a => Q (f s).2 a
    | .error _ => E (f s).2
  cases h : (f s).1 with
  | ok a => exact hQ a h
  | error e => exact hE e h

theorem Does.bind {Q : σ → β → Prop} {m : Client σ ρ π ε α} {f : α → Client σ ρ π ε β}
    (h : Does good P (fun s a => Does good P Q E (f a) s) E m s) : Does good P Q E (m >>= f) s := by
  refine Session.Always.bind (Session.Always.mono h fun s r hr => ?_)
  cases r with
  | ok a => exact hr
  | error e => exact hr

theorem Does.imp {Q' : σ → α → Prop} {E' : σ → Prop} {m : Client σ ρ π ε α} (h : Does good P Q E m s)
    (hQ : ∀ s a, Q s a → Q' s a) (hE : ∀ s, E s → E' s) : Does good P Q' E' m s := by
  refine Session.Always.mono h fun s r hr => ?_
  cases r with
  | ok a => exact hQ s a hr
  | error e => exact hE s hr

/-! ### Views of the state -/

section

variable {γ : Type} (v : σ → γ) (R : γ → π → γ → Prop)

/-- `Within`, where a client that gives up stays where it may be. -/
def Follows (Q : (γ → Prop) → σ → α → Prop) (X : γ → Prop) (m : Client σ ρ π ε α) (s : σ) : Prop :=
  (m s).Within v R (fun X s r => match r with
    | .ok a => Q X s a
    | .error _ => X (v s)) X

variable {v R} {Q : (γ → Prop) → σ → α → Prop} {X : γ → Prop}

theorem Follows.pure {a : α} (h : Q X s a) : Follows v R Q X (pure a : Client σ ρ π ε α) s := h

theorem Follows.fail {e : ε} (h : X (v s)) : Follows v R Q X (fail e : Client σ ρ π ε α) s := h

theorem Follows.get {Q : (γ → Prop) → σ → σ → Prop} (h : Q X s s) : Follows v R Q X (get : Client σ ρ π ε σ) s := h

theorem Follows.lift {r : Except ε α} (hQ : ∀ a, r = .ok a → Q X s a) (hX : X (v s)) :
    Follows v R Q X (liftM r : Client σ ρ π ε α) s := by
  cases r with
  | ok a => exact hQ a rfl
  | error e => exact hX

theorem Follows.ask {Q : (γ → Prop) → σ → π → Prop} {r : σ → ρ} (hX : X (v s)) (h : ∀ p, Q (R (v s) p) s p) :
    Follows v R Q X (ask r : Client σ ρ π ε π) s := ⟨hX, h⟩

theorem Follows.onState {f : σ → Except ε α × σ} (hQ : ∀ a, (f s).1 = .ok a → Q X (f s).2 a)
    (hX : ∀ e, (f s).1 = .error e → X (v (f s).2)) : Follows v R Q X (onState f : Client σ ρ π ε α) s := by
  change match (f s).1 with
    | .ok a => Q X (f s).2 a
    | .error _ => X (v (f s).2)
  cases h : (f s).1 with
  | ok a => exact hQ a h
  | error e => exact hX e h

theorem Follows.imp {Q' : (γ → Prop) → σ → α → Prop} {m : Client σ ρ π ε α} (h : Follows v R Q X m s)
    (hQ : ∀ X s a, Q X s a → Q' X s a) : Follows v R Q' X m s := by
  refine Session.Within.imp h fun X s r hr => ?_
  cases r with
  | ok a => exact hQ X s a hr
  | error e => exact hr

theorem Follows.bind {Q : (γ → Prop) → σ → β → Prop} {m : Client σ ρ π ε α} {f : α → Client σ ρ π ε β}
    (h : Follows v R (fun X s a => Follows v R Q X (f a) s) X m s) : Follows v R Q X (m >>= f) s := by
  refine Session.Within.bind (Session.Within.imp h fun X s r hr => ?_)
  cases r with
  | ok a => exact hr
  | error e => exact hr

end

/-! ### Clients that have ended well -/

/-- From state `s`, with this conversation, to state `s'`, with answer `a`. -/
def Ran (m : Client σ ρ π ε α) (s : σ) (talk : List (ρ × π)) (s' : σ) (a : α) : Prop :=
  ∃ ps, Session.feed ps (m s) = .done s' (.ok a) ∧ Session.said ps (m s) = talk

variable {s' : σ} {talk : List (ρ × π)}

theorem Ran.done {m : Client σ ρ π ε α} {r : Except ε α} {t : σ} {a : α} (h : Ran m s talk s' a) (hm : m s = .done t r) :
    talk = [] ∧ s' = t ∧ r = .ok a := by
  obtain ⟨ps, hfeed, rfl⟩ := h
  rw [hm] at hfeed ⊢
  cases ps with
  | nil =>
    obtain ⟨rfl, rfl⟩ := Session.done.inj hfeed
    exact ⟨rfl, rfl, rfl⟩
  | cons p ps =>
    obtain ⟨rfl, rfl⟩ := Session.done.inj hfeed
    exact ⟨rfl, rfl, rfl⟩

theorem Ran.bind {m : Client σ ρ π ε α} {f : α → Client σ ρ π ε β} {b : β} (h : Ran (m >>= f) s talk s' b) :
    ∃ t₁ t₂ s₁ a, Ran m s t₁ s₁ a ∧ Ran (f a) s₁ t₂ s' b ∧ talk = t₁ ++ t₂ := by
  obtain ⟨ps, hfeed, rfl⟩ := h
  obtain ⟨qs, rs, s₁, r, hq, hr, hsaid⟩ := Session.feed_bind hfeed
  cases r with
  | ok a => exact ⟨_, _, s₁, a, ⟨qs, hq, rfl⟩, ⟨rs, hr, rfl⟩, hsaid⟩
  | error e => cases rs <;> cases hr

theorem Ran.pure {a b : α} (h : Ran (pure a : Client σ ρ π ε α) s talk s' b) : talk = [] ∧ s' = s ∧ b = a := by
  obtain ⟨ht, hs, ha⟩ := h.done rfl
  exact ⟨ht, hs, (Except.ok.inj ha).symm⟩

theorem Ran.fail {e : ε} {a : α} (h : Ran (fail e : Client σ ρ π ε α) s talk s' a) : False := by
  cases (h.done rfl).2.2

theorem Ran.get {a : σ} (h : Ran (get : Client σ ρ π ε σ) s talk s' a) : talk = [] ∧ s' = s ∧ a = s := by
  obtain ⟨ht, hs, ha⟩ := h.done rfl
  exact ⟨ht, hs, (Except.ok.inj ha).symm⟩

theorem Ran.lift {r : Except ε α} {a : α} (h : Ran (liftM r : Client σ ρ π ε α) s talk s' a) :
    talk = [] ∧ s' = s ∧ r = .ok a := h.done rfl

theorem Ran.onState {f : σ → Except ε α × σ} {a : α} (h : Ran (onState f : Client σ ρ π ε α) s talk s' a) :
    talk = [] ∧ s' = (f s).2 ∧ (f s).1 = .ok a := h.done rfl

theorem Ran.ask {r : σ → ρ} {p : π} (h : Ran (ask r : Client σ ρ π ε π) s talk s' p) : talk = [(r s, p)] ∧ s' = s := by
  obtain ⟨ps, hfeed, rfl⟩ := h
  cases ps with
  | nil => cases hfeed
  | cons q ps =>
    have hdone : Session.feed ps (.done s (.ok q) : Session σ ρ π (Except ε π)) = .done s (.ok q) := by cases ps <;> rfl
    obtain ⟨rfl, hq⟩ := Session.done.inj (hdone.symm.trans hfeed)
    obtain rfl := Except.ok.inj hq
    refine ⟨?_, rfl⟩
    cases ps <;> rfl

end Client

end Lib
