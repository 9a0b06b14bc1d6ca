import SshVault.Lib.Service
import SshVault.Lib.Trace

/-!
# Where handlers come from

In a run that starts with no handler at work, whatever a handler does, it does for a request that a client sent
before.
-/

namespace Lib.Service

open Prog

variable {ι τ σ ρ π α δ κ : Type} [DecidableEq ι] {S : Service τ σ ρ π α δ κ} {c₀ c d : Config ι τ σ π δ} {e : Event ι τ κ}
  {ok : Config ι τ σ π δ → Event ι τ κ → Prop} {events : List (Event ι τ κ)}

/-! ## Runs from behind -/

theorem runs_append {events' : List (Event ι τ κ)} :
    S.Runs ok c₀ (events ++ events') d ↔ ∃ c, S.Runs ok c₀ events c ∧ S.Runs ok c events' d := by
  induction events generalizing c₀ with
  | nil =>
    constructor
    · intro h
      exact ⟨c₀, rfl, h⟩
    · rintro ⟨c, rfl, h⟩
      exact h
  | cons e events ih =>
    constructor
    · rintro ⟨hok, c', hnext, hrest⟩
      obtain ⟨c, hfront, hback⟩ := ih.mp hrest
      exact ⟨c, ⟨hok, c', hnext, hfront⟩, hback⟩
    · rintro ⟨c, ⟨hok, c', hnext, hfront⟩, hback⟩
      exact ⟨hok, c', hnext, ih.mpr ⟨c, hfront, hback⟩⟩

/-- What holds at the start, and after every further event, of the events so far and where they lead. -/
theorem Runs.keeps_past {P : List (Event ι τ κ) → Config ι τ σ π δ → Prop} (hstart : P [] c₀)
    (hstep : ∀ events c e d, S.Runs ok c₀ events c → P events c → S.next c e = some d → P (events ++ [e]) d)
    (h : S.Runs ok c₀ events c) : P events c := by
  induction events using List.reverseRecOn generalizing c with
  | nil =>
    obtain rfl : c = c₀ := h
    exact hstart
  | append_singleton events e ih =>
    obtain ⟨c', hfront, -, d, hnext, hback⟩ := runs_append.mp h
    obtain rfl : c = d := hback
    exact hstep events c' e c hfront (ih hfront) hnext

/-! ## Requests that were sent -/

variable (S ok c₀)

/-- Somewhere in the run, client `i` sends this request. -/
def Sent (events : List (Event ι τ κ)) (i : ι) (how : κ) (r : ρ) : Prop :=
  ∃ before after c s k, events = before ++ .send i how :: after ∧ S.Runs ok c₀ before c ∧ S.left (c.job i) = .ask s r k

/-- A program that is what is left of the handler of a request that was sent. -/
def Serves (Φ : κ → ρ → List (δ × δ) → δ → δ → Prop) (events : List (Event ι τ κ)) (p : Prog δ π) : Prop :=
  ∃ i how r past, S.Sent c₀ ok events i how r ∧ p.Traced (Φ how r) (fun _ _ => True) past

variable {S ok c₀} {Φ : κ → ρ → List (δ × δ) → δ → δ → Prop}

theorem Sent.later {i : ι} {how : κ} {r : ρ} (h : S.Sent c₀ ok events i how r) (e : Event ι τ κ) :
    S.Sent c₀ ok (events ++ [e]) i how r := by
  obtain ⟨before, after, c, s, k, rfl, hrun, hleft⟩ := h
  exact ⟨before, after ++ [e], c, s, k, by simp, hrun, hleft⟩

theorem Serves.later {p : Prog δ π} (h : S.Serves c₀ ok Φ events p) (e : Event ι τ κ) :
    S.Serves c₀ ok Φ (events ++ [e]) p := by
  obtain ⟨i, how, r, past, hsent, hp⟩ := h
  exact ⟨i, how, r, past, hsent.later e, hp⟩

theorem Serves.step {u : δ → δ} {k : δ → Prog δ π} (h : S.Serves c₀ ok Φ events (.step u k)) (s : δ) :
    S.Serves c₀ ok Φ events (k s) := by
  obtain ⟨i, how, r, past, hsent, hp⟩ := h
  exact ⟨i, how, r, _, hsent, (hp s).2⟩

/-- **Every handler at work** serves a request that was sent. -/
theorem Runs.serves (hhandler : ∀ how r, (S.handler how r).Traced (Φ how r) (fun _ _ => True) []) (hquiet : c₀.running = [])
    (hrun : S.Runs ok c₀ events c) : ∀ x ∈ c.running, S.Serves c₀ ok Φ events x.2 := by
  refine hrun.keeps_past (P := fun events c => ∀ x ∈ c.running, S.Serves c₀ ok Φ events x.2) ?_ ?_
  · rw [hquiet]
    exact fun x hx => nomatch hx
  · intro events c e d hrun ih hnext
    cases next_happens hnext with
    | start h => exact fun x hx => (ih x hx).later _
    | @send i how s r k h =>
      intro x hx
      rcases List.mem_append.mp hx with hx | hx
      · exact (ih x hx).later _
      · rw [List.mem_singleton.mp hx]
        exact ⟨i, how, r, [], ⟨events, [], c, s, k, rfl, hrun, h⟩, hhandler how r⟩
    | @step n tag u k h =>
      intro x hx
      rcases List.mem_or_eq_of_mem_set hx with hx | rfl
      · exact (ih x hx).later _
      · exact ((ih _ (List.mem_of_getElem? h)).step c.shared).later _
    | answer h => exact fun x hx => (ih x (List.mem_of_mem_eraseIdx hx)).later _
    | unheard h => exact fun x hx => (ih x (List.mem_of_mem_eraseIdx hx)).later _
    | lose h =>
      intro x hx
      obtain ⟨y, hy, rfl⟩ := List.mem_map.mp hx
      exact (ih y hy).later _

/-- **One event.** It leaves the shared state as it is, or it is a step of the handler of a request that was sent. -/
theorem Runs.step_cases (hhandler : ∀ how r, (S.handler how r).Traced (Φ how r) (fun _ _ => True) [])
    (hquiet : c₀.running = []) (hrun : S.Runs ok c₀ events c) (hnext : S.next c e = some d) :
    d.shared = c.shared ∨ ∃ i how r past, S.Sent c₀ ok events i how r ∧ Φ how r past c.shared d.shared := by
  cases next_happens hnext with
  | @step n tag u k h =>
    obtain ⟨i, how, r, past, hsent, hp⟩ := hrun.serves hhandler hquiet _ (List.mem_of_getElem? h)
    exact Or.inr ⟨i, how, r, past, hsent, (hp c.shared).1⟩
  | _ => exact Or.inl rfl

end Lib.Service
