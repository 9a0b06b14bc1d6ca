import SshVault.Lib.Prog
import SshVault.Lib.Table

/-!
# Tables of many owners

Every row has an owner. A statement that names one owner leaves the rows of the others alone, and does not
depend on them; a program of such statements answers the same wherever its owner's rows are the same.
-/

namespace Lib

namespace Table

variable {ρ τ κ α : Type} [DecidableEq τ] {owner : ρ → τ} {o : τ}

/-- The rows of one owner. -/
def slice (owner : ρ → τ) (o : τ) (t : List ρ) : List ρ := t.filter (owner · = o)

/-- A statement that changes the table by `g` and answers `a`, both for the rows of `o` only. -/
structure Sliced (owner : ρ → τ) (o : τ) (a : List ρ → α) (g : List ρ → List ρ) : Prop where
  answer : ∀ t, a t = a (slice owner o t)
  rows : ∀ t, slice owner o (g t) = g (slice owner o t)
  others : ∀ t other, other ≠ o → slice owner other (g t) = slice owner other t

variable {p : ρ → Bool} {f : ρ → ρ} {key : ρ → κ} {r : ρ}

theorem slice_update (hf : ∀ s, owner (f s) = owner s) (o : τ) (t : List ρ) :
    slice owner o (update p f t) = update p f (slice owner o t) := by
  unfold slice update
  rw [List.filter_map]
  congr 1
  refine List.filter_congr fun s _ => ?_
  change decide (owner (if p s then f s else s) = o) = decide (owner s = o)
  split
  · rw [hf]
  · rfl

theorem any_slice (hp : ∀ s, p s = true → owner s = o) (t : List ρ) : t.any p = (slice owner o t).any p := by
  unfold slice
  rw [List.any_filter]
  congr 1
  funext s
  cases h : p s with
  | false => simp
  | true => simp [hp s h]

theorem find_slice (hp : ∀ s, p s = true → owner s = o) (t : List ρ) : t.find? p = (slice owner o t).find? p := by
  unfold slice
  rw [List.find?_filter]
  congr 1
  funext s
  cases h : p s with
  | false => simp
  | true => simp [hp s h]

theorem affected_slice (hp : ∀ s, p s = true → owner s = o) (t : List ρ) : affected p t = affected p (slice owner o t) := by
  unfold affected slice
  rw [List.countP_filter]
  refine List.countP_congr fun s _ => ?_
  constructor
  · intro h
    simp [h, hp s h]
  · intro h
    exact (Bool.and_eq_true_iff.mp h).1

theorem sliced_update (hp : ∀ s, p s = true → owner s = o) (hf : ∀ s, owner (f s) = owner s) :
    Sliced owner o (affected p) (update p f) := by
  refine ⟨affected_slice hp, slice_update hf o, fun t other hne => ?_⟩
  rw [slice_update hf]
  refine update_of_unaffected (affected_eq_zero.mpr fun s hs => ?_)
  have hother : owner s = other := by simpa using (List.mem_filter.mp hs).2
  refine Bool.eq_false_iff.mpr fun h => hne (hother.symm.trans (hp s h))

theorem sliced_delete (hp : ∀ s, p s = true → owner s = o) :
    Sliced owner o (affected p) fun t => t.filter fun s => !p s := by
  refine ⟨affected_slice hp, fun t => List.filter_comm _ _ t, fun t other hne => ?_⟩
  unfold slice
  rw [List.filter_filter]
  refine List.filter_congr fun s _ => ?_
  cases h : p s with
  | false => simp
  | true => simp [hp s h, Ne.symm hne]

theorem exists_key_slice (hk : ∀ s, key s = key r → owner s = o) (t : List ρ) :
    (∃ s ∈ slice owner o t, key s = key r) ↔ ∃ s ∈ t, key s = key r := by
  unfold slice
  constructor
  · rintro ⟨s, hs, hkey⟩
    exact ⟨s, (List.mem_filter.mp hs).1, hkey⟩
  · rintro ⟨s, hs, hkey⟩
    exact ⟨s, List.mem_filter.mpr ⟨hs, by simpa using hk s hkey⟩, hkey⟩

theorem slice_append_single (t : List ρ) (o : τ) :
    slice owner o (t ++ [r]) = if owner r = o then slice owner o t ++ [r] else slice owner o t := by
  unfold slice
  rw [List.filter_append, List.filter_singleton]
  by_cases h : owner r = o <;> simp [h]

section

variable [DecidableEq κ]

theorem sliced_insertOrIgnore {a : List ρ → α} (ha : ∀ t, a t = a (slice owner o t))
    (hk : ∀ s, key s = key r → owner s = o) : Sliced owner o a (insertOrIgnore key r) := by
  refine ⟨ha, fun t => ?_, fun t other hne => ?_⟩
  · unfold insertOrIgnore
    simp only [exists_key_slice hk]
    split
    · rfl
    · rw [slice_append_single, if_pos (hk r rfl)]
  · unfold insertOrIgnore
    split
    · rfl
    · rw [slice_append_single, if_neg fun h => hne (h.symm.trans (hk r rfl))]

theorem sliced_upsert (a : α) (hk : ∀ s, key s = key r → owner s = o) (hf : ∀ s, owner (f s) = owner s) :
    Sliced owner o (fun _ => a) (upsert key r f) := by
  have hupdate := sliced_update (p := fun s => decide (key s = key r)) (fun s h => hk s (of_decide_eq_true h)) hf
  refine ⟨fun _ => rfl, fun t => ?_, fun t other hne => ?_⟩
  · unfold upsert
    simp only [exists_key_slice hk]
    split
    · exact hupdate.rows t
    · rw [slice_append_single, if_pos (hk r rfl)]
  · unfold upsert
    split
    · exact hupdate.others t other hne
    · rw [slice_append_single, if_neg fun h => hne (h.symm.trans (hk r rfl))]

end

end Table

/-! ## Two runs -/

namespace Prog

variable {σ α β ε : Type} {R : σ → σ → Prop}

/-- From `R`-related states the program ends in `R`-related states, with answers that `Q` relates. -/
def Same (R : σ → σ → Prop) (Q : α → α → σ → σ → Prop) (p : Prog σ α) : Prop :=
  ∀ s t, R s t → R (p.run s).2 (p.run t).2 ∧ Q (p.run s).1 (p.run t).1 (p.run s).2 (p.run t).2

/-- The same answer. -/
def Alike (a b : α) (_ _ : σ) : Prop := a = b

/-- The same error, or answers that `Q` relates. -/
def OkSame (Q : α → α → σ → σ → Prop) (r r' : Except ε α) (s t : σ) : Prop :=
  match r, r' with
  | .ok a, .ok b => Q a b s t
  | .error e, .error e' => e = e'
  | _, _ => False

variable {Q : β → β → σ → σ → Prop}

theorem Same.bind {p : Prog σ α} {f : α → Prog σ β} (hp : Same R Alike p) (hf : ∀ a, Same R Q (f a)) :
    Same R Q (p >>= f) := by
  intro s t h
  obtain ⟨hrel, hans⟩ := hp s t h
  rw [run_bind, run_bind, ← show (p.run s).1 = (p.run t).1 from hans]
  exact hf _ _ _ hrel

/-- The first part gives the same answer, with the property `P`, or the same error. -/
theorem Same.bindExceptOf {P : α → Prop} {p : ExceptT ε (Prog σ) α} {f : α → ExceptT ε (Prog σ) β}
    (hp : Same R (OkSame fun a b _ _ => a = b ∧ P a) p.run) (hf : ∀ a, P a → Same R (OkSame Q) (f a).run) :
    Same R (OkSame Q) (p >>= f).run := by
  intro s t h
  obtain ⟨hrel, hans⟩ := hp s t h
  change R (exec (p >>= f) s).2 (exec (p >>= f) t).2 ∧
    OkSame Q (exec (p >>= f) s).1 (exec (p >>= f) t).1 (exec (p >>= f) s).2 (exec (p >>= f) t).2
  rw [exec_bind, exec_bind]
  change R (exec p s).2 (exec p t).2 at hrel
  change OkSame _ (exec p s).1 (exec p t).1 (exec p s).2 (exec p t).2 at hans
  generalize exec p s = x at hrel hans
  generalize exec p t = y at hrel hans
  obtain ⟨e | a, s'⟩ := x <;> obtain ⟨e' | b, t'⟩ := y
  · exact ⟨hrel, hans⟩
  · exact hans.elim
  · exact hans.elim
  · obtain ⟨rfl, ha⟩ : a = b ∧ P a := hans
    exact hf a ha s' t' hrel

theorem Same.imp {Q' : β → β → σ → σ → Prop} {p : Prog σ β} (hp : Same R Q p)
    (h : ∀ a b s t, Q a b s t → Q' a b s t) : Same R Q' p := fun s t hst => ⟨(hp s t hst).1, h _ _ _ _ (hp s t hst).2⟩

theorem OkSame.imp {Q' : β → β → σ → σ → Prop} {r r' : Except ε β} {s t : σ} (h : OkSame Q r r' s t)
    (hQ : ∀ a b, Q a b s t → Q' a b s t) : OkSame Q' r r' s t := by
  cases r <;> cases r'
  · exact h
  · exact h.elim
  · exact h.elim
  · exact hQ _ _ h

theorem Same.bindExcept {p : ExceptT ε (Prog σ) α} {f : α → ExceptT ε (Prog σ) β} (hp : Same R (OkSame Alike) p.run)
    (hf : ∀ a, Same R (OkSame Q) (f a).run) : Same R (OkSame Q) (p >>= f).run :=
  Same.bindExceptOf (P := fun _ => True) (hp.imp fun _ _ _ _ h => h.imp fun _ _ h => ⟨h, trivial⟩) fun a _ => hf a

theorem Same.lift {p : Prog σ β} (hp : Same R Q p) : Same R (OkSame Q) (liftM p : ExceptT ε (Prog σ) β).run := by
  intro s t h
  change R (exec (liftM p : ExceptT ε (Prog σ) β) s).2 (exec (liftM p : ExceptT ε (Prog σ) β) t).2 ∧ OkSame Q _ _ _ _
  have := hp s t h
  rw [show (liftM p : ExceptT ε (Prog σ) β).run.run s = (.ok (p.run s).1, (p.run s).2) from exec_lift p s,
    show (liftM p : ExceptT ε (Prog σ) β).run.run t = (.ok (p.run t).1, (p.run t).2) from exec_lift p t,
    exec_lift, exec_lift]
  exact this

theorem Same.throw (e : ε) : Same R (OkSame Q) (throw e : ExceptT ε (Prog σ) β).run := fun _ _ h => ⟨h, rfl⟩

theorem Same.ok {b : β} (h : ∀ s t, R s t → Q b b s t) : Same R (OkSame Q) (pure b : ExceptT ε (Prog σ) β).run :=
  fun s t hst => ⟨hst, h s t hst⟩

theorem Same.exceptBind {e : Except ε α} {f : α → ExceptT ε (Prog σ) β} (hf : ∀ a, e = .ok a → Same R (OkSame Q) (f a).run) :
    Same R (OkSame Q) ((liftM e : ExceptT ε (Prog σ) α) >>= f).run := by
  cases e with
  | error err => exact fun _ _ h => ⟨h, rfl⟩
  | ok a => exact hf a rfl

theorem Same.map {Q' : α → α → σ → σ → Prop} {p : ExceptT ε (Prog σ) α} {g : α → β} (hp : Same R (OkSame Q') p.run)
    (h : ∀ a b s t, Q' a b s t → Q (g a) (g b) s t) :
    Same R (OkSame Q) (do return g (← p) : ExceptT ε (Prog σ) β).run := by
  intro s t hst
  obtain ⟨hrel, hans⟩ := hp s t hst
  change R (exec (p >>= fun a => pure (g a)) s).2 (exec (p >>= fun a => pure (g a)) t).2 ∧
    OkSame Q (exec (p >>= fun a => pure (g a)) s).1 (exec (p >>= fun a => pure (g a)) t).1
      (exec (p >>= fun a => pure (g a)) s).2 (exec (p >>= fun a => pure (g a)) t).2
  rw [exec_bind, exec_bind]
  change R (exec p s).2 (exec p t).2 at hrel
  change OkSame Q' (exec p s).1 (exec p t).1 (exec p s).2 (exec p t).2 at hans
  generalize exec p s = x at hrel hans
  generalize exec p t = y at hrel hans
  obtain ⟨e | a, s'⟩ := x <;> obtain ⟨e' | b, t'⟩ := y
  · exact ⟨hrel, hans⟩
  · exact hans.elim
  · exact hans.elim
  · exact ⟨hrel, h a b s' t' hans⟩

end Prog

end Lib
