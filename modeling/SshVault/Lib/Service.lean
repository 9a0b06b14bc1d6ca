import SshVault.Lib.Prog
import SshVault.Lib.Session

/-!
# A service and its clients

Any number of clients, each at work on a task, and a server whose handlers take one atomic step at a
time. A client may stop waiting for an answer; the handler of its request goes on all the same, if the
request arrived.
-/

namespace Lib

/-- What clients do for a task, and what the server does for a request. `κ` is what the world decides
when a request arrives. -/
structure Service (τ σ ρ π α δ κ : Type) where
  client : τ → σ → Session σ ρ (Option π) α
  handler : κ → ρ → Prog δ π

/-- A task that a client has begun, and the answers it has got. -/
structure Job (τ σ π : Type) where
  task : τ
  began : σ
  answers : List (Option π) := []

namespace Job

variable {τ σ π : Type}

def hear (j : Job τ σ π) (a : Option π) : Job τ σ π := { j with answers := j.answers ++ [a] }

end Job

namespace Service

variable {ι τ σ ρ π α δ κ : Type}

/-- The jobs, and the handlers at work, each with the client that waits for it. -/
structure Config (ι τ σ π δ : Type) where
  shared : δ
  job : ι → Job τ σ π
  running : List (Option ι × Prog δ π) := []

inductive Event (ι τ κ : Type) where
  | start (i : ι) (task : τ)
  | send (i : ι) (how : κ)
  | step (n : Nat)
  | answer (n : Nat)
  | lose (i : ι)

variable (S : Service τ σ ρ π α δ κ)

/-- What is left of a job. -/
def left (j : Job τ σ π) : Session σ ρ (Option π) α := Session.feed j.answers (S.client j.task j.began)

/-- The requests of a job so far, each with its answer. -/
def talk (j : Job τ σ π) : List (ρ × Option π) := Session.said j.answers (S.client j.task j.began)

theorem left_hear (j : Job τ σ π) {s : σ} {r : ρ} {k : Option π → Session σ ρ (Option π) α} (h : S.left j = .ask s r k)
    (a : Option π) : S.left (j.hear a) = k a := by
  unfold left Job.hear
  rw [Session.feed_snoc]
  change Session.feed [a] (S.left j) = k a
  rw [h]
  rfl

theorem talk_hear (j : Job τ σ π) {s : σ} {r : ρ} {k : Option π → Session σ ρ (Option π) α} (h : S.left j = .ask s r k)
    (a : Option π) : S.talk (j.hear a) = S.talk j ++ [(r, a)] := by
  unfold talk Job.hear
  rw [Session.said_snoc]
  change _ ++ Session.said [a] (S.left j) = _
  rw [h]
  rfl

variable [DecidableEq ι]

def next (c : Config ι τ σ π δ) : Event ι τ κ → Option (Config ι τ σ π δ)
  | .start i task => match S.left (c.job i) with
    | .done s _ => some { c with job := Function.update c.job i ⟨task, s, []⟩ }
    | .ask .. => none
  | .send i how => match S.left (c.job i) with
    | .ask _ r _ =>
      if c.running.any (·.1 = some i) then none
      else some { c with running := c.running ++ [(some i, S.handler how r)] }
    | .done .. => none
  | .step n => match c.running[n]? with
    | some (tag, .step u k) => some { c with shared := u c.shared, running := c.running.set n (tag, k c.shared) }
    | _ => none
  | .answer n => match c.running[n]? with
    | some (some i, .done p) =>
      some { c with job := Function.update c.job i ((c.job i).hear (some p)), running := c.running.eraseIdx n }
    | some (none, .done _) => some { c with running := c.running.eraseIdx n }
    | _ => none
  | .lose i => match S.left (c.job i) with
    | .ask .. => some { c with
        job := Function.update c.job i ((c.job i).hear none)
        running := c.running.map fun t => (if t.1 = some i then none else t.1, t.2) }
    | .done .. => none

/-- A run, each of whose events meets a condition on the configuration before it. -/
def Runs (ok : Config ι τ σ π δ → Event ι τ κ → Prop) : Config ι τ σ π δ → List (Event ι τ κ) → Config ι τ σ π δ → Prop
  | c, [], c' => c' = c
  | c, e :: events, c' => ok c e ∧ ∃ d, S.next c e = some d ∧ Runs ok d events c'

/-- The run, if its events can happen and meet the condition. -/
def run (ok : Config ι τ σ π δ → Event ι τ κ → Prop) [∀ c e, Decidable (ok c e)] :
    Config ι τ σ π δ → List (Event ι τ κ) → Option (Config ι τ σ π δ)
  | c, [] => some c
  | c, e :: events => if ok c e then (S.next c e).bind fun d => run ok d events else none

/-- No request arrives while a handler is at work. -/
def Serial (c : Config ι τ σ π δ) (e : Event ι τ κ) : Prop := ∀ i how, e = .send i how → c.running = []

omit [DecidableEq ι] in
instance (c : Config ι τ σ π δ) : (e : Event ι τ κ) → Decidable (Serial c e)
  | .send i how => decidable_of_iff (c.running = []) ⟨fun h _ _ _ => h, fun h => h i how rfl⟩
  | .start .. | .step _ | .answer _ | .lose _ => .isTrue fun _ _ h => nomatch h

variable {S} {c d : Config ι τ σ π δ} {e : Event ι τ κ} {ok : Config ι τ σ π δ → Event ι τ κ → Prop}

/-- **Runs.** What every event that meets the condition keeps, the run keeps. -/
theorem Runs.keeps {P : Config ι τ σ π δ → Prop} {events : List (Event ι τ κ)}
    (hstep : ∀ c e d, ok c e → S.next c e = some d → P c → P d) (h : S.Runs ok c events d) (hP : P c) : P d := by
  induction events generalizing c with
  | nil => exact h ▸ hP
  | cons e events ih =>
    obtain ⟨hok, c', hnext, hrest⟩ := h
    exact ih hrest (hstep c e c' hok hnext hP)

theorem runs_of_run [∀ c e, Decidable (ok c e)] {events : List (Event ι τ κ)} (h : S.run ok c events = some d) :
    S.Runs ok c events d := by
  induction events generalizing c with
  | nil => exact (Option.some.inj h).symm
  | cons e events ih =>
    unfold run at h
    split at h
    · rename_i hok
      obtain ⟨c', hnext, hrest⟩ := Option.bind_eq_some_iff.mp h
      exact ⟨hok, c', hnext, ih hrest⟩
    · cases h

/-! ## What can happen -/

/-- The ways from one configuration to the next. -/
inductive Happens (S : Service τ σ ρ π α δ κ) (c : Config ι τ σ π δ) : Event ι τ κ → Config ι τ σ π δ → Prop
  | start {i : ι} {task : τ} {s : σ} {a : α} (h : S.left (c.job i) = .done s a) :
    Happens S c (.start i task) { c with job := Function.update c.job i ⟨task, s, []⟩ }
  | send {i : ι} {how : κ} {s : σ} {r : ρ} {k : Option π → Session σ ρ (Option π) α} (h : S.left (c.job i) = .ask s r k) :
    Happens S c (.send i how) { c with running := c.running ++ [(some i, S.handler how r)] }
  | step {n : Nat} {tag : Option ι} {u : δ → δ} {k : δ → Prog δ π} (h : c.running[n]? = some (tag, .step u k)) :
    Happens S c (.step n) { c with shared := u c.shared, running := c.running.set n (tag, k c.shared) }
  | answer {n : Nat} {i : ι} {p : π} (h : c.running[n]? = some (some i, .done p)) :
    Happens S c (.answer n)
      { c with job := Function.update c.job i ((c.job i).hear (some p)), running := c.running.eraseIdx n }
  | unheard {n : Nat} {p : π} (h : c.running[n]? = some (none, .done p)) :
    Happens S c (.answer n) { c with running := c.running.eraseIdx n }
  | lose {i : ι} {s : σ} {r : ρ} {k : Option π → Session σ ρ (Option π) α} (h : S.left (c.job i) = .ask s r k) :
    Happens S c (.lose i)
      { c with
        job := Function.update c.job i ((c.job i).hear none)
        running := c.running.map fun t => (if t.1 = some i then none else t.1, t.2) }

theorem next_happens (h : S.next c e = some d) : Happens S c e d := by
  cases e with
  | start i task =>
    dsimp only [next] at h
    split at h
    · rename_i hleft
      obtain rfl := Option.some.inj h
      exact .start hleft
    · cases h
  | send i how =>
    dsimp only [next] at h
    split at h
    · rename_i hleft
      split at h
      · cases h
      · obtain rfl := Option.some.inj h
        exact .send hleft
    · cases h
  | step n =>
    dsimp only [next] at h
    split at h
    · rename_i hrun
      obtain rfl := Option.some.inj h
      exact .step hrun
    · cases h
  | answer n =>
    dsimp only [next] at h
    split at h
    · rename_i hrun
      obtain rfl := Option.some.inj h
      exact .answer hrun
    · rename_i hrun
      obtain rfl := Option.some.inj h
      exact .unheard hrun
    · cases h
  | lose i =>
    dsimp only [next] at h
    split at h
    · rename_i hleft
      obtain rfl := Option.some.inj h
      exact .lose hleft
    · cases h

/-! ## One request at a time -/

/-- Once the handler at work, if any, is done: `I` holds of the shared state, and `G` of its answer. -/
def Settles (I : δ → Prop) (G : Option ι → π → Prop) (c : Config ι τ σ π δ) : Prop :=
  (c.running = [] ∧ I c.shared) ∨
    ∃ tag p, c.running = [(tag, p)] ∧ I (p.run c.shared).2 ∧ G tag (p.run c.shared).1

variable {I : δ → Prop} {G G' : Option ι → π → Prop}

omit [DecidableEq ι] in
theorem Settles.imp {I' : δ → Prop} (h : Settles I G c) (hI : ∀ t, I t → I' t) (hG : ∀ tag p, G tag p → G' tag p)
    (job : ι → Job τ σ π) : Settles I' G' { c with job } := by
  rcases h with ⟨hrun, hs⟩ | ⟨tag, p, hrun, hs, hp⟩
  · exact Or.inl ⟨hrun, hI _ hs⟩
  · exact Or.inr ⟨tag, p, hrun, hI _ hs, hG tag _ hp⟩

omit [DecidableEq ι] in
theorem Settles.quiet (h : Settles I G c) (hrun : c.running = []) : I c.shared := by
  rcases h with ⟨-, hs⟩ | ⟨tag, p, hone, -⟩
  · exact hs
  · cases hrun.symm.trans hone

omit [DecidableEq ι] in
theorem Settles.step (h : Settles I G c) {n : Nat} {tag : Option ι} {u : δ → δ} {k : δ → Prog δ π}
    (hn : c.running[n]? = some (tag, .step u k)) :
    Settles I G { c with shared := u c.shared, running := c.running.set n (tag, k c.shared) } := by
  rcases h with ⟨hrun, -⟩ | ⟨tag', p, hrun, hs, hp⟩
  · rw [hrun] at hn
    cases hn
  · rw [hrun] at hn
    cases n with
    | zero =>
      obtain ⟨rfl, rfl⟩ := Prod.mk.inj (Option.some.inj hn)
      exact Or.inr ⟨tag', k c.shared, by rw [hrun]; rfl, hs, hp⟩
    | succ n => cases hn

omit [DecidableEq ι] in
theorem Settles.answer (h : Settles I G c) {n : Nat} {tag : Option ι} {p : π}
    (hn : c.running[n]? = some (tag, .done p)) : c.running.eraseIdx n = [] ∧ I c.shared ∧ G tag p := by
  rcases h with ⟨hrun, -⟩ | ⟨tag', q, hrun, hs, hp⟩
  · rw [hrun] at hn
    cases hn
  · rw [hrun] at hn ⊢
    cases n with
    | zero =>
      obtain ⟨rfl, rfl⟩ := Prod.mk.inj (Option.some.inj hn)
      exact ⟨rfl, hs, hp⟩
    | succ n => cases hn

theorem Settles.lose (h : Settles I G c) (i : ι) (job : ι → Job τ σ π) (hG : ∀ tag p, G tag p → tag ≠ some i → G' tag p)
    (hnone : ∀ tag p, G tag p → G' none p) :
    Settles I G' { c with job, running := c.running.map fun t => (if t.1 = some i then none else t.1, t.2) } := by
  rcases h with ⟨hrun, hs⟩ | ⟨tag, p, hrun, hs, hp⟩
  · exact Or.inl ⟨by rw [hrun]; rfl, hs⟩
  · refine Or.inr ⟨if tag = some i then none else tag, p, by rw [hrun]; rfl, hs, ?_⟩
    split
    · exact hnone tag _ hp
    · rename_i hne
      exact hG tag _ hp hne

/-! ## Clients and server together -/

/-- Every client keeps its word, every answer is a good one, and the server its invariant. -/
structure Sound (S : Service τ σ ρ π α δ κ) (good : ρ → Option π → Prop) (P : σ → ρ → Prop) (D : σ → Prop) (I : δ → Prop)
    (c : Config ι τ σ π δ) : Prop where
  began : ∀ i, D (c.job i).began
  jobs : ∀ i, (S.left (c.job i)).Always good P fun s _ => D s
  heard : ∀ i, ∀ x ∈ S.talk (c.job i), good x.1 x.2
  settles : Settles I (fun tag p => ∀ i, tag = some i → ∃ s r k, S.left (c.job i) = .ask s r k ∧ good r (some p)) c

section

variable {good : ρ → Option π → Prop} {P : σ → ρ → Prop} {D : σ → Prop} {I : δ → Prop}

theorem Sound.jobs_hear (h : Sound S good P D I c) {i : ι} {s : σ} {r : ρ} {k : Option π → Session σ ρ (Option π) α}
    (hleft : S.left (c.job i) = .ask s r k) {a : Option π} (ha : good r a) (j : ι) :
    D (Function.update c.job i ((c.job i).hear a) j).began ∧
      (S.left (Function.update c.job i ((c.job i).hear a) j)).Always good P (fun s _ => D s) ∧
        ∀ x ∈ S.talk (Function.update c.job i ((c.job i).hear a) j), good x.1 x.2 := by
  by_cases hj : j = i
  · subst hj
    have hjob := h.jobs j
    rw [hleft] at hjob
    rw [Function.update_self, S.left_hear _ hleft, S.talk_hear _ hleft]
    refine ⟨h.began j, hjob.2 a ha, fun x hx => ?_⟩
    rcases List.mem_append.mp hx with hx | hx
    · exact h.heard j x hx
    · obtain rfl := List.mem_singleton.mp hx
      exact ha
  · rw [Function.update_of_ne hj]
    exact ⟨h.began j, h.jobs j, h.heard j⟩

theorem Sound.next (hclient : ∀ t s, D s → (S.client t s).Always good P fun s _ => D s) (hnone : ∀ r, good r none)
    (hserial : ∀ c e, ok c e → Serial c e)
    (hsend : ∀ (c : Config ι τ σ π δ) i how s r k, ok c (.send i how) → S.left (c.job i) = .ask s r k → P s r → I c.shared →
      I ((S.handler how r).run c.shared).2 ∧ good r (some ((S.handler how r).run c.shared).1))
    (h : Sound S good P D I c) (hok : ok c e) (hnext : S.next c e = some d) : Sound S good P D I d := by
  cases next_happens hnext with
  | @start i task s a hleft =>
    have hs : D s := by
      have hjob := h.jobs i
      rw [hleft] at hjob
      exact hjob
    refine ⟨fun j => ?_, fun j => ?_, fun j => ?_, h.settles.imp (fun _ h => h) (fun tag p hp j htag => ?_) _⟩
    · dsimp only
      by_cases hj : j = i
      · subst hj
        rw [Function.update_self]
        exact hs
      · rw [Function.update_of_ne hj]
        exact h.began j
    · dsimp only
      by_cases hj : j = i
      · subst hj
        rw [Function.update_self]
        exact hclient task s hs
      · rw [Function.update_of_ne hj]
        exact h.jobs j
    · dsimp only
      by_cases hj : j = i
      · subst hj
        rw [Function.update_self]
        exact fun x hx => nomatch hx
      · rw [Function.update_of_ne hj]
        exact h.heard j
    · obtain ⟨s', r, k, hask, hgood⟩ := hp j htag
      -- The client that starts has no handler at work.
      have hj : j ≠ i := by
        rintro rfl
        cases hask.symm.trans hleft
      exact ⟨s', r, k, by dsimp only; rw [Function.update_of_ne hj]; exact hask, hgood⟩
  | @send i how s r k hleft =>
    -- Nothing else is at work, so the invariant holds of the shared state as it is now.
    have hidle := hserial c _ hok i how rfl
    have hI := h.settles.quiet hidle
    have hP : P s r := by
      have hjob := h.jobs i
      rw [hleft] at hjob
      exact hjob.1
    obtain ⟨hI', hgood⟩ := hsend c i how s r k hok hleft hP hI
    refine ⟨h.began, h.jobs, h.heard, Or.inr ⟨some i, S.handler how r, by rw [hidle]; rfl, hI', fun j hj => ?_⟩⟩
    obtain rfl := Option.some.inj hj
    exact ⟨s, r, k, hleft, hgood⟩
  | step hrun => exact ⟨h.began, h.jobs, h.heard, h.settles.step hrun⟩
  | @answer n i p hrun =>
    obtain ⟨hidle, hI, hG⟩ := h.settles.answer hrun
    obtain ⟨s, r, k, hleft, hgood⟩ := hG i rfl
    have hjobs := h.jobs_hear hleft hgood
    exact ⟨fun j => (hjobs j).1, fun j => (hjobs j).2.1, fun j => (hjobs j).2.2, Or.inl ⟨hidle, hI⟩⟩
  | unheard hrun =>
    obtain ⟨hidle, hI, -⟩ := h.settles.answer hrun
    exact ⟨h.began, h.jobs, h.heard, Or.inl ⟨hidle, hI⟩⟩
  | @lose i s r k hleft =>
    have hjobs := h.jobs_hear hleft (hnone r)
    refine ⟨fun j => (hjobs j).1, fun j => (hjobs j).2.1, fun j => (hjobs j).2.2,
      h.settles.lose i _ (fun tag p hp hne j hj => ?_) (fun _ p _ j hj => nomatch hj)⟩
    obtain ⟨s', r', k', hask, hgood⟩ := hp j hj
    have hji : j ≠ i := by
      rintro rfl
      exact hne hj
    exact ⟨s', r', k', by dsimp only; rw [Function.update_of_ne hji]; exact hask, hgood⟩

end

end Service

end Lib
