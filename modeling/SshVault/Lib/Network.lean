import SshVault.Lib.Against

/-!
# Clients and a server

Any number of clients, each at work on one task after another. A request may be lost on the way, and so may an answer;
and an answer may be late, so that the server has moved on when it arrives. What else happens to the server is no
business of the clients.
-/

namespace Lib

/-- What clients do for a task, what the server makes of a request, and how it changes without them. `κ` is what the
world decides when a request arrives. -/
structure Network (τ σ ρ π α δ κ : Type) where
  work : τ → σ → Session σ ρ (Option π) α
  serve : κ → ρ → δ → π × δ
  others : δ → δ → Prop

/-- A client at work, and the answer that is on its way to it. -/
structure Desk (σ ρ π α : Type) where
  left : Session σ ρ (Option π) α
  mail : Option π := none

namespace Network

variable {ι τ σ ρ π α δ κ : Type}

structure Config (ι σ ρ π α δ : Type) where
  client : ι → Desk σ ρ π α
  server : δ

variable (N : Network τ σ ρ π α δ κ)

/-- One client goes on with its task. It does not wait for ever: it may give a request up, served or not. -/
inductive Moves (t : δ) : Desk σ ρ π α → Desk σ ρ π α → δ → Prop
  | served (how : κ) (s : σ) (r : ρ) (k : Option π → Session σ ρ (Option π) α) :
    Moves t ⟨.ask s r k, none⟩ ⟨.ask s r k, some (N.serve how r t).1⟩ (N.serve how r t).2
  | answered (s : σ) (r : ρ) (k : Option π → Session σ ρ (Option π) α) (p : π) : Moves t ⟨.ask s r k, some p⟩ ⟨k (some p), none⟩ t
  | lost (s : σ) (r : ρ) (k : Option π → Session σ ρ (Option π) α) (mail : Option π) : Moves t ⟨.ask s r k, mail⟩ ⟨k none, none⟩ t

inductive Step [DecidableEq ι] (c : Config ι σ ρ π α δ) : Config ι σ ρ π α δ → Prop
  | begins (i : ι) (task : τ) {s : σ} {a : α} (h : c.client i = ⟨.done s a, none⟩) :
    Step c ⟨Function.update c.client i ⟨N.work task s, none⟩, c.server⟩
  | moves (i : ι) {x : Desk σ ρ π α} {t : δ} (h : N.Moves c.server (c.client i) x t) :
    Step c ⟨Function.update c.client i x, t⟩
  | elsewhere {t : δ} (h : N.others c.server t) : Step c ⟨c.client, t⟩

def Run [DecidableEq ι] : Config ι σ ρ π α δ → Config ι σ ρ π α δ → Prop := Relation.ReflTransGen (Step N)

/-- How a request is served, as its client sees it: the server has moved on before and after. -/
inductive Serves (rely : δ → δ → Prop) (r : ρ) (t : δ) : Option π → δ → Prop
  | answered (how : κ) {u v : δ} (h : rely t u) (h' : rely (N.serve how r u).2 v) : Serves rely r t (some (N.serve how r u).1) v
  | lost {u : δ} (h : rely t u) : Serves rely r t none u

/-- What the server goes through, whoever asks. -/
structure Relies (rely : δ → δ → Prop) : Prop where
  refl : ∀ t, rely t t
  trans : ∀ {t u v}, rely t u → rely u v → rely t v
  serve : ∀ how r t, rely t (N.serve how r t).2
  others : ∀ {t u}, N.others t u → rely t u

/-- The client comes to a good end. -/
def Minds (rely : δ → δ → Prop) (Q : σ → α → δ → Prop) (x : Desk σ ρ π α) (t : δ) : Prop :=
  match x.left, x.mail with
  | .ask _ _ k, some p => (k (some p)).Against (N.Serves rely) Q t ∧ (k none).Against (N.Serves rely) Q t
  | left, _ => left.Against (N.Serves rely) Q t

variable {N} {rely : δ → δ → Prop} {Q : σ → α → δ → Prop} {t u : δ}

theorem Relies.later (hN : N.Relies rely) (hQ : ∀ s a t u, Q s a t → rely t u → Q s a u) {x : Session σ ρ (Option π) α}
    (h : x.Against (N.Serves rely) Q t) (hu : rely t u) : x.Against (N.Serves rely) Q u := by
  cases x with
  | done s a => exact hQ s a t u h hu
  | ask s r k =>
    intro p v hserved
    refine h p v ?_
    cases hserved with
    | answered how hv hlate => exact .answered how (hN.trans hu hv) hlate
    | lost hv => exact .lost (hN.trans hu hv)

theorem Minds.later (hN : N.Relies rely) (hQ : ∀ s a t u, Q s a t → rely t u → Q s a u) {x : Desk σ ρ π α}
    (h : N.Minds rely Q x t) (hu : rely t u) : N.Minds rely Q x u := by
  obtain ⟨left, mail⟩ := x
  cases left with
  | done s a => exact hN.later hQ (x := .done s a) h hu
  | ask s r k =>
    cases mail with
    | none => exact hN.later hQ (x := .ask s r k) h hu
    | some p => exact ⟨hN.later hQ h.1 hu, hN.later hQ h.2 hu⟩

theorem Minds.begins {x : Session σ ρ (Option π) α} (h : x.Against (N.Serves rely) Q t) : N.Minds rely Q ⟨x, none⟩ t := by
  cases x <;> exact h

/-- **One move** of a client, and what the server goes through. -/
theorem Minds.moves (hN : N.Relies rely) {x y : Desk σ ρ π α} (h : N.Minds rely Q x t) (hmove : N.Moves t x y u) :
    N.Minds rely Q y u ∧ rely t u := by
  cases hmove with
  | served how s r k =>
    exact ⟨⟨h _ _ (.answered how (hN.refl t) (hN.refl _)), h _ _ (.lost (hN.serve how r t))⟩, hN.serve how r t⟩
  | answered s r k p => exact ⟨.begins h.1, hN.refl t⟩
  | lost s r k mail =>
    refine ⟨.begins ?_, hN.refl t⟩
    cases mail with
    | none => exact h _ _ (.lost (hN.refl t))
    | some p => exact h.2

/-! ## Runs -/

variable (N) in
/-- What each client minds between tasks, and what is true at the end of each. Both outlast whatever the server goes
through. -/
structure Keeps (rely : δ → δ → Prop) (kept : ι → σ → δ → Prop) (ended : ι → σ → α → δ → Prop) : Prop extends N.Relies rely where
  stays : ∀ {i s t u}, kept i s t → rely t u → kept i s u
  lasts : ∀ {i s a t u}, ended i s a t → rely t u → ended i s a u
  task : ∀ i task {s t}, kept i s t →
    (N.work task s).Against (N.Serves rely) (fun s a t => kept i s t ∧ ended i s a t) t

variable (N) in
def Minded (rely : δ → δ → Prop) (kept : ι → σ → δ → Prop) (ended : ι → σ → α → δ → Prop) (c : Config ι σ ρ π α δ) : Prop :=
  ∀ i, N.Minds rely (fun s a t => kept i s t ∧ ended i s a t) (c.client i) c.server

variable {kept : ι → σ → δ → Prop} {ended : ι → σ → α → δ → Prop} {c c' : Config ι σ ρ π α δ}

theorem Keeps.later (hN : N.Keeps rely kept ended) {i : ι} {x : Desk σ ρ π α}
    (h : N.Minds rely (fun s a t => kept i s t ∧ ended i s a t) x t) (hu : rely t u) :
    N.Minds rely (fun s a t => kept i s t ∧ ended i s a t) x u :=
  h.later hN.toRelies (fun _ _ _ _ hs hr => ⟨hN.stays hs.1 hr, hN.lasts hs.2 hr⟩) hu

theorem Keeps.moved [DecidableEq ι] (hN : N.Keeps rely kept ended) (h : N.Minded rely kept ended c) {i : ι}
    {x : Desk σ ρ π α} (ht : rely c.server t) (hx : N.Minds rely (fun s a t => kept i s t ∧ ended i s a t) x t) :
    N.Minded rely kept ended ⟨Function.update c.client i x, t⟩ := by
  intro j
  by_cases hj : j = i
  · subst hj
    simpa using hx
  · simpa [hj] using hN.later (h j) ht

theorem Keeps.step [DecidableEq ι] (hN : N.Keeps rely kept ended) (h : N.Minded rely kept ended c) (hstep : N.Step c c') :
    N.Minded rely kept ended c' ∧ rely c.server c'.server := by
  cases hstep with
  | begins i task hi =>
    have hkept := h i
    rw [hi] at hkept
    exact ⟨hN.moved h (hN.refl _) (.begins (hN.task i task hkept.1)), hN.refl _⟩
  | moves i hmove =>
    obtain ⟨hx, ht⟩ := (h i).moves hN.toRelies hmove
    exact ⟨hN.moved h ht hx, ht⟩
  | elsewhere ht => exact ⟨fun i => hN.later (h i) (hN.others ht), hN.others ht⟩

/-- **Runs.** What every client minds holds between any two of its tasks, however the requests come. -/
theorem Keeps.run [DecidableEq ι] (hN : N.Keeps rely kept ended) (h : N.Minded rely kept ended c) (hrun : N.Run c c') :
    N.Minded rely kept ended c' := by
  induction hrun with
  | refl => exact h
  | tail _ hstep ih => exact (hN.step ih hstep).1

theorem Minded.idle (h : N.Minded rely kept ended c) {i : ι} {s : σ} {a : α} (hi : c.client i = ⟨.done s a, none⟩) :
    kept i s c.server ∧ ended i s a c.server := by
  have hidle := h i
  rw [hi] at hidle
  exact hidle

theorem Run.of_ends [DecidableEq ι] {serves : ρ → δ → Option π → δ → Prop}
    (hserves : ∀ r t p t', serves r t p t' → ∃ how, p = some (N.serve how r t).1 ∧ t' = (N.serve how r t).2)
    {x : Session σ ρ (Option π) α} {s : σ} {a : α} {t t' : δ} (h : x.Ends serves t s a t') (f : ι → Desk σ ρ π α)
    (i : ι) : N.Run ⟨Function.update f i ⟨x, none⟩, t⟩ ⟨Function.update f i ⟨.done s a, none⟩, t'⟩ := by
  have hmove : ∀ {x y : Desk σ ρ π α} {t u : δ}, N.Moves t x y u → N.Step ⟨Function.update f i x, t⟩ ⟨Function.update f i y, u⟩ := by
    intro x y t u h
    rw [← Function.update_idem (f := f) (a := i) x y]
    have hi : N.Moves t (Function.update f i x i) y u := by
      rw [Function.update_self]
      exact h
    exact .moves i hi
  induction h with
  | done => exact .refl
  | ask hp _ ih =>
    obtain ⟨how, rfl, rfl⟩ := hserves _ _ _ _ hp
    exact .head (hmove (.served how ..)) (.head (hmove (.answered ..)) ih)

end Network

end Lib
