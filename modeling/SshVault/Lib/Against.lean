import SshVault.Lib.Session

/-!
# A client and a server alone

A client whose requests are answered one after another, with nobody else at the server. `Wins` is a weakest
precondition: however the server answers, as far as it has a choice, the client ends well.
-/

namespace Lib

variable {σ ρ π ε α β δ : Type}

namespace Session

/-- Against every server that goes from state to state by `serves`, the client ends with `Q`. -/
def Against (serves : ρ → δ → π → δ → Prop) (Q : σ → α → δ → Prop) : Session σ ρ π α → δ → Prop
  | .done s a, t => Q s a t
  | .ask _ r k, t => ∀ p t', serves r t p t' → Against serves Q (k p) t'

variable {serves : ρ → δ → π → δ → Prop} {Q Q' : σ → α → δ → Prop} {t : δ}

theorem Against.mono {c : Session σ ρ π α} (h : Against serves Q c t) (hQ : ∀ s a t, Q s a t → Q' s a t) :
    Against serves Q' c t := by
  induction c generalizing t with
  | done s a => exact hQ s a t h
  | ask s r k ih => exact fun p t' hp => ih p (h p t' hp)

theorem Against.bind {Q : σ → β → δ → Prop} {c : Session σ ρ π α} {f : α → σ → Session σ ρ π β}
    (h : Against serves (fun s a t => Against serves Q (f a s) t) c t) : Against serves Q (c.bind f) t := by
  induction c generalizing t with
  | done s a => exact h
  | ask s r k ih => exact fun p t' hp => ih p (h p t' hp)

/-- The client's run against one server, up to the result. -/
def against (answer : ρ → δ → π × δ) : Session σ ρ π α → δ → σ × α × δ
  | .done s a, t => (s, a, t)
  | .ask _ r k, t => against answer (k (answer r t).1) (answer r t).2

theorem Against.run {answer : ρ → δ → π × δ} (hs : ∀ r t, serves r t (answer r t).1 (answer r t).2)
    {c : Session σ ρ π α} (h : Against serves Q c t) :
    Q (c.against answer t).1 (c.against answer t).2.1 (c.against answer t).2.2 := by
  induction c generalizing t with
  | done s a => exact h
  | ask s r k ih => exact ih _ (h _ _ (hs r t))

end Session

namespace Client

/-- The client does not give up, and ends with `Q`. -/
def Wins (serves : ρ → δ → π → δ → Prop) (Q : σ → α → δ → Prop) (m : Client σ ρ π ε α) (s : σ) (t : δ) : Prop :=
  (m s).Against serves (fun s r t => match r with
    | .ok a => Q s a t
    | .error _ => False) t

variable {serves : ρ → δ → π → δ → Prop} {Q : σ → α → δ → Prop} {s : σ} {t : δ}

theorem Wins.pure {a : α} (h : Q s a t) : Wins serves Q (pure a : Client σ ρ π ε α) s t := h

theorem Wins.get {Q : σ → σ → δ → Prop} (h : Q s s t) : Wins serves Q (get : Client σ ρ π ε σ) s t := h

theorem Wins.lift {r : Except ε α} {a : α} (hr : r = .ok a) (h : Q s a t) :
    Wins serves Q (liftM r : Client σ ρ π ε α) s t := by
  rw [hr]
  exact h

theorem Wins.ask {Q : σ → π → δ → Prop} {r : σ → ρ} (h : ∀ p t', serves (r s) t p t' → Q s p t') :
    Wins serves Q (ask r : Client σ ρ π ε π) s t := h

theorem Wins.onState {f : σ → Except ε α × σ} {a : α} (ha : (f s).1 = .ok a) (h : Q (f s).2 a t) :
    Wins serves Q (onState f : Client σ ρ π ε α) s t := by
  change match (f s).1 with
    | .ok a => Q (f s).2 a t
    | .error _ => False
  rw [ha]
  exact h

theorem Wins.bind {Q : σ → β → δ → Prop} {m : Client σ ρ π ε α} {f : α → Client σ ρ π ε β}
    (h : Wins serves (fun s a t => Wins serves Q (f a) s t) m s t) : Wins serves Q (m >>= f) s t := by
  refine Session.Against.bind (Session.Against.mono h fun s r t hr => ?_)
  cases r with
  | ok a => exact hr
  | error e => exact hr.elim

theorem Wins.imp {Q' : σ → α → δ → Prop} {m : Client σ ρ π ε α} (h : Wins serves Q m s t)
    (hQ : ∀ s a t, Q s a t → Q' s a t) : Wins serves Q' m s t := by
  refine Session.Against.mono h fun s r t hr => ?_
  cases r with
  | ok a => exact hQ s a t hr
  | error e => exact hr

/-- A client that does not give up ends well against each of the servers. -/
theorem Wins.run {answer : ρ → δ → π × δ} (hs : ∀ r t, serves r t (answer r t).1 (answer r t).2)
    {m : Client σ ρ π ε α} (h : Wins serves Q m s t) : ∃ a, ((m s).against answer t).2.1 = .ok a := by
  have hend := Session.Against.run hs h
  revert hend
  rcases ((m s).against answer t).2.1 with e | a
  · exact False.elim
  · exact fun _ => ⟨a, rfl⟩

end Client

/-! ## Clients that may give up -/

namespace Session

/-- The client may end like this. -/
inductive Ends (serves : ρ → δ → π → δ → Prop) : Session σ ρ π α → δ → σ → α → δ → Prop
  | done {s : σ} {a : α} {t : δ} : Ends serves (.done s a) t s a t
  | ask {s s' : σ} {r : ρ} {k : π → Session σ ρ π α} {p : π} {a : α} {t t' u : δ} (h : serves r t p t')
      (hrest : Ends serves (k p) t' s' a u) : Ends serves (.ask s r k) t s' a u

theorem Against.ends {serves : ρ → δ → π → δ → Prop} {Q : σ → α → δ → Prop} {c : Session σ ρ π α} {t u : δ} {s : σ} {a : α}
    (h : Against serves Q c t) (hends : Ends serves c t s a u) : Q s a u := by
  induction hends with
  | done => exact h
  | ask hp _ ih => exact ih (h _ _ hp)

/-- The requests of the run against one server, each with the state that it finds. -/
def trail (answer : ρ → δ → π × δ) : Session σ ρ π α → δ → List (ρ × δ)
  | .done _ _, _ => []
  | .ask _ r k, t => (r, t) :: trail answer (k (answer r t).1) (answer r t).2

theorem ends_against {serves : ρ → δ → π → δ → Prop} {answer : ρ → δ → π × δ} {c : Session σ ρ π α} {t : δ}
    (h : ∀ x ∈ c.trail answer t, serves x.1 x.2 (answer x.1 x.2).1 (answer x.1 x.2).2) :
    Ends serves c t (c.against answer t).1 (c.against answer t).2.1 (c.against answer t).2.2 := by
  induction c generalizing t with
  | done s a => exact .done
  | ask s r k ih =>
    obtain ⟨hfirst, hrest⟩ := List.forall_mem_cons.mp h
    exact .ask hfirst (ih _ hrest)

end Session

namespace Client

/-- The client ends with `Q`, or gives up with `E`. -/
def Meets (serves : ρ → δ → π → δ → Prop) (Q : σ → α → δ → Prop) (E : σ → δ → Prop) (m : Client σ ρ π ε α) (s : σ) (t : δ) :
    Prop :=
  (m s).Against serves (fun s r t => match r with
    | .ok a => Q s a t
    | .error _ => E s t) t

variable {serves : ρ → δ → π → δ → Prop} {Q : σ → α → δ → Prop} {E : σ → δ → Prop} {s : σ} {t : δ}

theorem Meets.pure {a : α} (h : Q s a t) : Meets serves Q E (pure a : Client σ ρ π ε α) s t := h

theorem Meets.fail {e : ε} (h : E s t) : Meets serves Q E (fail e : Client σ ρ π ε α) s t := h

theorem Meets.get {Q : σ → σ → δ → Prop} (h : Q s s t) : Meets serves Q E (get : Client σ ρ π ε σ) s t := h

theorem Meets.lift {r : Except ε α} (hQ : ∀ a, r = .ok a → Q s a t) (hE : ∀ e, r = .error e → E s t) :
    Meets serves Q E (liftM r : Client σ ρ π ε α) s t := by
  cases r with
  | ok a => exact hQ a rfl
  | error e => exact hE e rfl

theorem Meets.ask {Q : σ → π → δ → Prop} {r : σ → ρ} (h : ∀ p t', serves (r s) t p t' → Q s p t') :
    Meets serves Q E (ask r : Client σ ρ π ε π) s t := h

theorem Meets.onState {f : σ → Except ε α × σ} (hQ : ∀ a, (f s).1 = .ok a → Q (f s).2 a t)
    (hE : ∀ e, (f s).1 = .error e → E (f s).2 t) : Meets serves Q E (onState f : Client σ ρ π ε α) s t := by
  change match (f s).1 with
    | .ok a => Q (f s).2 a t
    | .error _ => E (f s).2 t
  split
  · exact hQ _ ‹_›
  · exact hE _ ‹_›

theorem Meets.bind {Q : σ → β → δ → Prop} {m : Client σ ρ π ε α} {f : α → Client σ ρ π ε β}
    (h : Meets serves (fun s a t => Meets serves Q E (f a) s t) E m s t) : Meets serves Q E (m >>= f) s t := by
  refine Session.Against.bind (Session.Against.mono h fun s r t hr => ?_)
  cases r with
  | ok a => exact hr
  | error e => exact hr

theorem Meets.imp {Q' : σ → α → δ → Prop} {E' : σ → δ → Prop} {m : Client σ ρ π ε α} (h : Meets serves Q E m s t)
    (hQ : ∀ s a t, Q s a t → Q' s a t) (hE : ∀ s t, E s t → E' s t) : Meets serves Q' E' m s t := by
  refine Session.Against.mono h fun s r t hr => ?_
  cases r with
  | ok a => exact hQ s a t hr
  | error e => exact hE s t hr

theorem Meets.ends {m : Client σ ρ π ε α} {s' : σ} {r : Except ε α} {u : δ} {P : σ → δ → Prop}
    (h : Meets serves (fun s _ t => P s t) P m s t) (hends : (m s).Ends serves t s' r u) : P s' u := by
  have hend := Session.Against.ends h hends
  cases r with
  | ok a => exact hend
  | error e => exact hend

end Client

end Lib
