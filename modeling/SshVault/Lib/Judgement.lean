import SshVault.Lib.Against

/-!
# Judging a client by its requests

A `Judgement` says when a request is in order and which answers the client has to go on from. With it a property of a
client that holds between any two of its steps is proved once, whatever is asked of the requests.
-/

namespace Lib

variable {σ ρ π ε α β γ δ : Type}

/-- Of a request `r` in state `s`, where `γ` is what is known besides: it is in order, and for every answer the rest
of the client meets what comes after. -/
structure Judgement (σ ρ π γ : Type) where
  asks : γ → σ → ρ → (π → γ → Prop) → Prop
  mono : ∀ {g : γ} {s : σ} {r : ρ} {K K' : π → γ → Prop}, (∀ p g, K p g → K' p g) → asks g s r K → asks g s r K'

namespace Session

/-- Every request is in order, and `Q` holds at the end. -/
def Judged (J : Judgement σ ρ π γ) (Q : σ → α → γ → Prop) : Session σ ρ π α → γ → Prop
  | .done s a, g => Q s a g
  | .ask s r k, g => J.asks g s r fun p g => Judged J Q (k p) g

variable {J : Judgement σ ρ π γ} {Q Q' : σ → α → γ → Prop} {g : γ}

theorem Judged.mono {c : Session σ ρ π α} (h : Judged J Q c g) (hQ : ∀ s a g, Q s a g → Q' s a g) : Judged J Q' c g := by
  induction c generalizing g with
  | done s a => exact hQ s a g h
  | ask s r k ih => exact J.mono (fun p _ hrest => ih p hrest) h

theorem Judged.bind {Q : σ → β → γ → Prop} {c : Session σ ρ π α} {f : α → σ → Session σ ρ π β}
    (h : Judged J (fun s a g => Judged J Q (f a s) g) c g) : Judged J Q (c.bind f) g := by
  induction c generalizing g with
  | done s a => exact h
  | ask s r k ih => exact J.mono (fun p _ hrest => ih p hrest) h

end Session

namespace Judgement

variable {J : Judgement σ ρ π γ} {I : σ → γ → Prop}

/-- A client that leaves `I` true whenever it asks or ends, given that it was. -/
def Keeps (J : Judgement σ ρ π γ) (I : σ → γ → Prop) (m : Client σ ρ π ε α) : Prop :=
  ∀ s g, I s g → (m s).Judged J (fun s _ g => I s g) g

namespace Keeps

theorem pure (a : α) : J.Keeps I (pure a : Client σ ρ π ε α) := fun _ _ h => h

theorem fail (e : ε) : J.Keeps I (Client.fail e : Client σ ρ π ε α) := fun _ _ h => h

theorem get : J.Keeps I (Client.get : Client σ ρ π ε σ) := fun _ _ h => h

theorem lift (r : Except ε α) : J.Keeps I (liftM r : Client σ ρ π ε α) := fun _ _ h => h

theorem onState {f : σ → Except ε α × σ} (h : ∀ s g, I s g → I (f s).2 g) :
    J.Keeps I (Client.onState f : Client σ ρ π ε α) := h

theorem ask {r : σ → ρ} (h : ∀ s g, I s g → J.asks g s (r s) fun _ g => I s g) :
    J.Keeps I (Client.ask r : Client σ ρ π ε π) := h

theorem bind {m : Client σ ρ π ε α} {f : α → Client σ ρ π ε β} (hm : J.Keeps I m) (hf : ∀ a, J.Keeps I (f a)) :
    J.Keeps I (m >>= f) := by
  refine fun s g h => Session.Judged.bind (Session.Judged.mono (hm s g h) fun s r g h => ?_)
  cases r with
  | ok a => exact hf a s g h
  | error e => exact h

end Keeps

/-! ## The judgements of this library -/

/-- `Client.Does`, with nothing else known. -/
def does (good : ρ → π → Prop) (P : σ → ρ → Prop) : Judgement σ ρ π Unit where
  asks _ s r K := P s r ∧ ∀ p, good r p → K p ()
  mono hK h := ⟨h.1, fun p hp => hK p () (h.2 p hp)⟩

/-- `Client.Meets`, with the state of the server. -/
def meets (serves : ρ → δ → π → δ → Prop) : Judgement σ ρ π δ where
  asks t _ r K := ∀ p t', serves r t p t' → K p t'
  mono hK h p t' hp := hK p t' (h p t' hp)

/-- `Client.Follows`, with where the view of the state may be. -/
def follows (v : σ → β) (R : β → π → β → Prop) : Judgement σ ρ π (β → Prop) where
  asks X s _ K := X (v s) ∧ ∀ p, K p (R (v s) p)
  mono hK h := ⟨h.1, fun p => hK p _ (h.2 p)⟩

theorem always_iff {good : ρ → π → Prop} {P : σ → ρ → Prop} {Q : σ → α → Prop} {c : Session σ ρ π α} :
    c.Always good P Q ↔ c.Judged (does good P) (fun s a _ => Q s a) () := by
  induction c with
  | done s a => exact Iff.rfl
  | ask s r k ih => exact and_congr_right fun _ => forall₂_congr fun p _ => ih p

theorem against_iff {serves : ρ → δ → π → δ → Prop} {Q : σ → α → δ → Prop} {c : Session σ ρ π α} {t : δ} :
    c.Against serves Q t ↔ c.Judged (meets serves) Q t := by
  induction c generalizing t with
  | done s a => exact Iff.rfl
  | ask s r k ih => exact forall₃_congr fun p _ _ => ih p

theorem within_iff {v : σ → β} {R : β → π → β → Prop} {Q : (β → Prop) → σ → α → Prop} {c : Session σ ρ π α} {X : β → Prop} :
    c.Within v R Q X ↔ c.Judged (follows v R) (fun s a X => Q X s a) X := by
  induction c generalizing X with
  | done s a => exact Iff.rfl
  | ask s r k ih => exact and_congr_right fun _ => forall_congr' fun p => ih p

theorem Keeps.does {good : ρ → π → Prop} {P : σ → ρ → Prop} {I : σ → Prop} {m : Client σ ρ π ε α} :
    (does good P).Keeps (fun s _ => I s) m ↔ ∀ s, I s → m.Does good P (fun s _ => I s) I s := by
  refine ⟨fun h s hs => Session.Always.mono (always_iff.mpr (h s () hs)) fun s r hs => ?_,
    fun h s _ hs => always_iff.mp (Session.Always.mono (h s hs) fun s r hs => ?_)⟩
  · cases r <;> exact hs
  · cases r <;> exact hs

theorem Keeps.meets {serves : ρ → δ → π → δ → Prop} {I : σ → δ → Prop} {m : Client σ ρ π ε α} :
    (meets serves).Keeps I m ↔ ∀ s t, I s t → m.Meets serves (fun s _ t => I s t) I s t := by
  refine ⟨fun h s t hs => Session.Against.mono (against_iff.mpr (h s t hs)) fun s r t hs => ?_,
    fun h s t hs => against_iff.mp (Session.Against.mono (h s t hs) fun s r t hs => ?_)⟩
  · cases r <;> exact hs
  · cases r <;> exact hs

theorem Keeps.follows {v : σ → β} {R : β → π → β → Prop} {m : Client σ ρ π ε α} :
    (follows v R).Keeps (fun s X => X (v s)) m ↔
      ∀ s X, X (v s) → m.Follows v R (fun X s _ => X (v s)) X s := by
  refine ⟨fun h s X hs => Session.Within.imp (within_iff.mpr (h s X hs)) fun X s r hs => ?_,
    fun h s X hs => within_iff.mp (Session.Within.imp (h s X hs) fun X s r hs => ?_)⟩
  · cases r <;> exact hs
  · cases r <;> exact hs

end Judgement

end Lib
