import SshVault.Convergence
import SshVault.Rendering

/-!
# Merged port-forwards

The kind of a forward and its spec are checked together and merged apart. A merged forward is one that
somebody wrote, or a mix: the kind of one snapshot and the spec of another, each the later of the two.
-/

open Lib

namespace SshVault

/-! ## Written forwards -/

namespace ForwardKind

/-- `#[serde(rename_all = "lowercase")]`. -/
def tag : ForwardKind → String
  | .localFwd => "local"
  | .remoteFwd => "remote"
  | .dynamicFwd => "dynamic"

end ForwardKind

namespace PortForward

def payload (f : PortForward) : Payload :=
  ((((∅ : Payload).insert "host" (.str (.plain f.host))).insert "kind" (.str (.plain f.kind.tag))).insert "name"
    (.str (.plain f.name))).insert "spec" (.str (.plain f.spec))

theorem payload_get (f : PortForward) :
    f.payload["name"]? = some (.str (.plain f.name)) ∧ f.payload["kind"]? = some (.str (.plain f.kind.tag)) ∧
      f.payload["spec"]? = some (.str (.plain f.spec)) ∧ f.payload["host"]? = some (.str (.plain f.host)) := by
  unfold payload
  refine ⟨?_, ?_, ?_, ?_⟩ <;> simp only [Std.ExtTreeMap.getElem?_insert] <;> rfl

def Valid (f : PortForward) : Prop := SshConfig.validateForwardSpec f.kind f.spec = .ok ()

theorem Valid.renderable {f : PortForward} (h : f.Valid) : SshConfig.Renderable f := by
  unfold Valid SshConfig.validateForwardSpec at h
  unfold SshConfig.Renderable
  split at h
  · exact Or.inl ‹_›
  · exact Or.inl ‹_›
  · exact Or.inl ‹_›
  · simp [*]
  · simp [*]
  · cases h

end PortForward

theorem Record.portForward_eq_some_iff {r : Record} {f : PortForward} :
    r.portForward = some f ↔
      ((r.value "name").bind Value.asString = some f.name ∧ (r.value "kind").bind Value.asForwardKind = some f.kind) ∧
        (r.value "spec").bind Value.asString = some f.spec ∧ (r.value "host").bind Value.asString = some f.host := by
  unfold Record.portForward
  simp only [Option.bind_eq_bind, Option.bind_eq_some_iff, Option.pure_def, Option.some.injEq]
  constructor
  · rintro ⟨vn, hvn, n, hn, vk, hvk, k, hk, vs, hvs, s, hs, vh, hvh, h, hh, rfl⟩
    exact ⟨⟨⟨vn, hvn, hn⟩, vk, hvk, hk⟩, ⟨vs, hvs, hs⟩, vh, hvh, hh⟩
  · rintro ⟨⟨⟨vn, hvn, hn⟩, vk, hvk, hk⟩, ⟨vs, hvs, hs⟩, vh, hvh, hh⟩
    exact ⟨vn, hvn, _, hn, vk, hvk, _, hk, vs, hvs, _, hs, vh, hvh, _, hh, rfl⟩

theorem Record.portForward_of_payload {r : Record} {f : PortForward} (h : ∀ n, r.value n = f.payload[n]?) :
    r.portForward = some f := by
  have hkind : Value.asForwardKind (.str (.plain f.kind.tag)) = some f.kind := by
    cases f.kind <;> rfl
  obtain ⟨hname, hk, hspec, hhost⟩ := f.payload_get
  rw [Record.portForward_eq_some_iff, h, h, h, h, hname, hk, hspec, hhost]
  exact ⟨⟨rfl, hkind⟩, rfl, rfl⟩

namespace Vault

/-! ## What a write makes -/

/-- The record that a write logs, seen from the operation. -/
inductive Made (state : State) : Write → Record → Prop
  | added {ord : HashOrder} {kind : Kind} {nameField name : String} {payload : Payload} {share recordId entryId : Uuid}
      {now : Nat} {r : Record} (hid : r.id = recordId) (hkind : r.kind = kind) (hvalue : ∀ n, r.value n = payload[n]?) :
    Made state (.addIn ord kind nameField name payload share recordId entryId now) r
  | edited {ord : HashOrder} {kind : Kind} {nameField name : String} {payload : Payload} {entryId : Uuid} {now : Nat}
      {r old : Record} (hold : Shown state old) (holdKind : old.kind = kind) (hlive : kind ≠ .tombstone)
      (hid : r.id = old.id) (hkind : r.kind = kind) (hvalue : ∀ n, r.value n = payload[n]?) :
    Made state (.edit ord kind nameField name payload entryId now) r
  | removed {ord : HashOrder} {kind : Kind} {nameField name : String} {entryId : Uuid} {now : Nat} {r : Record}
      (hkind : r.kind = .tombstone) (hfields : r.fields = ∅) :
    Made state (.remove ord kind nameField name entryId now) r

variable {v : Vault} {d : Disk}

/-- The log stays, or gets the record made. -/
def Logs (v : Vault) (d : Disk) (op : Write) (log : List Frame) : Prop :=
  log = d.log ∨ ∃ r key entryId, Made v.state op r ∧ log = d.log ++ [(entryId, Crypto.sealBlob key (.record r) entryId)]

theorem append_logs {op : Write} {m : Meta} {r : Record} {entryId : Uuid} (hr : Made v.state op r) :
    Logs v d op ((Vault.append { v with metadata := m } r entryId).run { d with metadata := m }).2.log := by
  unfold Vault.append
  cases v.keyring.currentFor r.shareId with
  | none => exact Or.inl rfl
  | some key => exact Or.inr ⟨r, key, entryId, hr, rfl⟩

theorem value_editFields {payload : Payload} {old : FieldMap} {c : Clock} (n : String) :
    (editFields payload old c)[n]?.map (·.value) = payload[n]? := by
  unfold editFields
  rw [Std.ExtTreeMap.getElem?_map, fieldsFromPayload_get]
  cases payload[n]? with
  | none => rfl
  | some value =>
    cases old[n]? with
    | none => rfl
    | some prev =>
      simp only [Option.map_some]
      split <;> rfl

theorem write_logs (op : Write) : Logs v d op ((op.prog v).run d).2.log := by
  have hclock : v.nextClock.run d =
    ((v.tick d, { v with metadata := v.ticked d }), { d with metadata := v.ticked d }) := rfl
  cases op with
  | addIn ord kind nameField name payload share recordId entryId now =>
    unfold Write.prog
    simp only [Prog.run_bind, Prog.run_pure]
    unfold addIn
    split
    · exact Or.inl rfl
    split
    · exact Or.inl rfl
    split
    · exact Or.inl rfl
    rw [Prog.run_bind, hclock]
    dsimp only
    rw [Prog.run_bind]
    exact append_logs (m := v.ticked d) (.added rfl rfl fun n => value_fieldsFromPayload payload (v.tick d) n)
  | edit ord kind nameField name payload entryId now =>
    change Logs v d _ ((v.edit ord kind nameField name payload entryId now).run d).2.log
    unfold edit
    split
    · exact Or.inl rfl
    split
    · exact Or.inl rfl
    rename_i old hfind
    obtain ⟨hold, hmatch⟩ := find_mem hfind
    have hkind : live old = true ∧ old.kind = kind := by
      unfold matchesName at hmatch
      simp only [Bool.and_eq_true, decide_eq_true_eq] at hmatch
      exact hmatch.1
    have hlive : kind ≠ .tombstone := by
      have := hkind.1
      unfold live at this
      simp only [Bool.and_eq_true, decide_eq_true_eq] at this
      exact hkind.2 ▸ this.2
    exact append_logs (m := v.ticked d) (.edited hold hkind.2 hlive rfl rfl fun n => value_editFields n)
  | remove ord kind nameField name entryId now =>
    change Logs v d _ ((v.remove ord kind nameField name entryId now).run d).2.log
    unfold remove
    split
    · exact Or.inl rfl
    exact append_logs (m := v.ticked d) (.removed rfl rfl)

end Vault

namespace Convergence

variable {ι : Type}

/-! ## Runs of checked forwards -/

/-- The payload of a forward whose spec was checked against its kind. -/
def CheckedForward (payload : Payload) : Prop := ∃ f : PortForward, payload = f.payload ∧ f.Valid

/-- A forward is added or edited with a checked payload, and a new record gets an id that no log has. -/
def Careful (w : ι → Device) : Write → Prop
  | .addIn _ kind _ _ payload _ recordId _ _ =>
    (kind = .portForward → CheckedForward payload) ∧ ∀ r ∈ Logged w, r.id ≠ recordId
  | .edit _ kind _ _ payload _ _ => kind = .portForward → CheckedForward payload
  | .remove .. => True

inductive CarefulStep [DecidableEq ι] (w : ι → Device) : (ι → Device) → Prop
  | write (i : ι) (op : Write) (hroom : (w i).vault.Room (w i).disk) (hop : Careful w op) :
    CarefulStep w (Function.update w i ((w i).perform op.prog))
  | receive (i j : ι) (f : Frame) (hf : f ∈ (w j).disk.log) :
    CarefulStep w (Function.update w i ((w i).perform (·.applyRemoteEntry f.1 f.2)))

def CarefulRun [DecidableEq ι] : (ι → Device) → (ι → Device) → Prop := Relation.ReflTransGen CarefulStep

theorem CarefulRun.run [DecidableEq ι] {w w' : ι → Device} (h : CarefulRun w w') : Run w w' := by
  induction h with
  | refl => exact .refl
  | tail _ hstep ih =>
    refine ih.tail ?_
    cases hstep with
    | write i op hroom hop => exact .write i op hroom
    | receive i j f hf => exact .receive i j f hf

/-- Every snapshot of a forward is a checked one, and the other snapshots of its record are such too, or
tombstones without fields. -/
structure SoundForwards (S : Set Record) : Prop where
  same : ∀ r ∈ S, r.kind = .portForward → ∀ r' ∈ S, r'.id = r.id →
    r'.kind = .portForward ∨ r'.kind = .tombstone ∧ r'.fields = ∅
  valid : ∀ r ∈ S, r.kind = .portForward → ∃ f, r.portForward = some f ∧ f.Valid

theorem SoundForwards.mono {S T : Set Record} (h : SoundForwards T) (hST : S ⊆ T) : SoundForwards S :=
  ⟨fun r hr hkind r' hr' => h.same r (hST hr) hkind r' (hST hr'), fun r hr => h.valid r (hST hr)⟩

variable {w : ι → Device} {i : ι}

theorem Inv.logged_kind (hinv : Inv w) {old : Record} (hold : Vault.Shown (w i).vault.state old) :
    ∃ r ∈ Logged w, r.id = old.id ∧ r.kind = old.kind := by
  obtain ⟨k, hold⟩ := hold
  rw [hinv.state] at hold
  obtain ⟨r, hr, hid, hkind⟩ := View.mergeAll_origin (V := View.kind) (x := old.kind) hold rfl
  exact ⟨r, ⟨i, hr⟩, hid.trans (mergeAll_id hold).symm, Option.some.inj hkind⟩

theorem SoundForwards.insert (h : SoundForwards (Logged w)) (hinv : Inv w) {op : Write} (hop : Careful w op) {r : Record}
    (hr : Vault.Made (w i).vault.state op r) : SoundForwards (insert r (Logged w)) := by
  have hvalid : ∀ {payload : Payload}, CheckedForward payload → (∀ n, r.value n = payload[n]?) →
      ∃ f, r.portForward = some f ∧ f.Valid := by
    rintro _ ⟨f, rfl, hf⟩ hvalue
    exact ⟨f, Record.portForward_of_payload hvalue, hf⟩
  cases hr with
  | added hid hkind hvalue =>
    -- No snapshot has the fresh id, so there is none to pair it with.
    have hnew : ∀ r' ∈ Logged w, r'.id ≠ r.id := fun r' hr' => hid ▸ hop.2 r' hr'
    refine ⟨?_, ?_⟩
    · rintro a (rfl | ha) hka b (rfl | hb) heq
      · exact Or.inl hka
      · exact absurd heq (hnew b hb)
      · exact absurd heq.symm (hnew a ha)
      · exact h.same a ha hka b hb heq
    · rintro a (rfl | ha) hka
      · exact hvalid (hop.1 (hkind ▸ hka)) hvalue
      · exact h.valid a ha hka
  | edited hold holdKind hlive hid hkind hvalue =>
    -- The edited record has a snapshot of its kind in some log, and that pairs with the others.
    obtain ⟨r₀, hr₀, hid₀, hkind₀⟩ := hinv.logged_kind hold
    have hsameId : r₀.id = r.id := hid₀.trans hid.symm
    have hsameKind : r₀.kind = r.kind := hkind₀.trans (holdKind.trans hkind.symm)
    refine ⟨?_, ?_⟩
    · rintro a (rfl | ha) hka b (rfl | hb) heq
      · exact Or.inl hka
      · exact h.same r₀ hr₀ (hsameKind.trans hka) b hb (heq.trans hsameId.symm)
      · have := h.same a ha hka r₀ hr₀ (hsameId.trans heq)
        rcases this with hk | ⟨hk, -⟩
        · exact Or.inl (hsameKind.symm.trans hk)
        · exact absurd (hkind.symm.trans (hsameKind.symm.trans hk)) hlive
      · exact h.same a ha hka b hb heq
    · rintro a (rfl | ha) hka
      · exact hvalid (hop (hkind ▸ hka)) hvalue
      · exact h.valid a ha hka
  | removed hkind hfields =>
    refine ⟨?_, ?_⟩
    · rintro a (rfl | ha) hka b (rfl | hb) heq
      · exact Or.inl hka
      · rw [hkind] at hka; cases hka
      · exact Or.inr ⟨hkind, hfields⟩
      · exact h.same a ha hka b hb heq
    · rintro a (rfl | ha) hka
      · rw [hkind] at hka; cases hka
      · exact h.valid a ha hka

/-! ## Mixed forwards -/

/-- The clock of a field, where it is set. -/
def writtenAt (r : Record) (n : String) : Option Clock := (r.fields[n]?).map (·.clock)

/-- Where one snapshot of a forward has the later kind and another the later spec, the two fit. -/
def MixesValid (S : Set Record) : Prop :=
  ∀ r ∈ S, ∀ r' ∈ S, r.id = r'.id → ∀ f f' : PortForward, r.portForward = some f → r'.portForward = some f' →
    writtenAt r' "kind" < writtenAt r "kind" → writtenAt r "spec" < writtenAt r' "spec" →
      SshConfig.validateForwardSpec f.kind f'.spec = .ok ()

theorem field_of_value {r : Record} {n : String} {α : Type} {g : Value → Option α} {y : α}
    (h : (r.value n).bind g = some y) : ∃ x, r.fields[n]? = some x ∧ g x.value = some y := by
  obtain ⟨value, hvalue, hg⟩ := Option.bind_eq_some_iff.mp h
  obtain ⟨x, hx, rfl⟩ := Option.map_eq_some_iff.mp hvalue
  exact ⟨x, hx, hg⟩

theorem value_of_field {r : Record} {n : String} {x : Field} (h : r.fields[n]? = some x) : r.value n = some x.value := by
  unfold Record.value
  rw [h]
  rfl

/-- The snapshot that a merged forward has a field of, if every forward has that field. -/
theorem SoundForwards.source (h : SoundForwards (Logged w)) (hinv : Inv w) {k : Uuid} {m : Record}
    (hm : (w i).vault.state[k]? = some m) (hkind : m.kind = .portForward) {n : String}
    (hn : ∀ r f, Record.portForward r = some f → ∃ x, r.fields[n]? = some x) :
    ∃ x, m.fields[n]? = some x ∧
      (∃ r ∈ records (w i), r.id = k ∧ r.fields[n]? = some x ∧ ∃ f, r.portForward = some f ∧ f.Valid) ∧
      ∀ r ∈ records (w i), r.id = k → ∀ y, r.fields[n]? = some y → y.clock ≤ x.clock := by
  rw [hinv.state] at hm
  obtain ⟨r₀, hr₀, hid₀, hkind₀⟩ := View.mergeAll_origin (V := View.kind) (x := m.kind) hm rfl
  have hkind₀ : r₀.kind = .portForward := (Option.some.inj hkind₀).trans hkind
  obtain ⟨f₀, hf₀, -⟩ := h.valid r₀ ⟨i, hr₀⟩ hkind₀
  obtain ⟨x₀, hx₀⟩ := hn r₀ f₀ hf₀
  obtain ⟨x, hx, ⟨r, hr, hid, hrx⟩, hmax⟩ := View.mergeAll_latest (V := View.field n) hm hr₀ hid₀ hx₀
  refine ⟨x, hx, ⟨r, hr, hid, hrx, ?_⟩, hmax⟩
  rcases h.same r₀ ⟨i, hr₀⟩ hkind₀ r ⟨i, hr⟩ (hid.trans hid₀.symm) with hk | ⟨-, hempty⟩
  · exact h.valid r ⟨i, hr⟩ hk
  · have hnone : r.fields[n]? = none := by
      rw [hempty]
      exact Std.ExtTreeMap.getElem?_empty
    rw [show r.fields[n]? = some x from hrx] at hnone
    cases hnone

theorem SoundForwards.merged (h : SoundForwards (Logged w)) (hinv : Inv w) (hmix : MixesValid (Logged w)) {k : Uuid}
    {m : Record} (hm : (w i).vault.state[k]? = some m) (hkind : m.kind = .portForward) :
    ∃ f, m.portForward = some f ∧ f.Valid := by
  have hfields : ∀ r f, Record.portForward r = some f →
      ((∃ x, r.fields["name"]? = some x ∧ x.value.asString = some f.name) ∧
        ∃ x, r.fields["kind"]? = some x ∧ x.value.asForwardKind = some f.kind) ∧
      (∃ x, r.fields["spec"]? = some x ∧ x.value.asString = some f.spec) ∧
        ∃ x, r.fields["host"]? = some x ∧ x.value.asString = some f.host := by
    intro r f hf
    obtain ⟨⟨hname, hkind⟩, hspec, hhost⟩ := Record.portForward_eq_some_iff.mp hf
    exact ⟨⟨field_of_value hname, field_of_value hkind⟩, field_of_value hspec, field_of_value hhost⟩
  obtain ⟨xn, hxn, ⟨r₃, -, -, hr₃x, f₃, hf₃, -⟩, -⟩ := h.source (n := "name") hinv hm hkind fun r f hf =>
    (hfields r f hf).1.1.imp fun _ hx => hx.1
  obtain ⟨xh, hxh, ⟨r₄, -, -, hr₄x, f₄, hf₄, -⟩, -⟩ := h.source (n := "host") hinv hm hkind fun r f hf =>
    (hfields r f hf).2.2.imp fun _ hx => hx.1
  obtain ⟨xk, hxk, ⟨r₁, hr₁, hid₁, hr₁x, f₁, hf₁, hv₁⟩, hmaxk⟩ := h.source (n := "kind") hinv hm hkind fun r f hf =>
    (hfields r f hf).1.2.imp fun _ hx => hx.1
  obtain ⟨xs, hxs, ⟨r₂, hr₂, hid₂, hr₂x, f₂, hf₂, hv₂⟩, hmaxs⟩ := h.source (n := "spec") hinv hm hkind fun r f hf =>
    (hfields r f hf).2.1.imp fun _ hx => hx.1
  obtain ⟨⟨⟨y, hy, hname⟩, -⟩, -, -⟩ := hfields r₃ f₃ hf₃
  obtain rfl : xn = y := Option.some.inj (hr₃x.symm.trans hy)
  obtain ⟨-, -, ⟨y, hy, hhost⟩⟩ := hfields r₄ f₄ hf₄
  obtain rfl : xh = y := Option.some.inj (hr₄x.symm.trans hy)
  obtain ⟨⟨-, ⟨y, hy, hkind₁⟩⟩, ⟨y₁, hy₁, hspec₁⟩, -⟩ := hfields r₁ f₁ hf₁
  obtain rfl : xk = y := Option.some.inj (hr₁x.symm.trans hy)
  obtain ⟨⟨-, ⟨y₂, hy₂, hkind₂⟩⟩, ⟨y, hy', hspec₂⟩, -⟩ := hfields r₂ f₂ hf₂
  obtain rfl : xs = y := Option.some.inj (hr₂x.symm.trans hy')
  refine ⟨⟨f₃.name, f₁.kind, f₂.spec, f₄.host⟩, ?_, ?_⟩
  · rw [Record.portForward_eq_some_iff, value_of_field hxn, value_of_field hxk, value_of_field hxs, value_of_field hxh]
    exact ⟨⟨hname, hkind₁⟩, hspec₂, hhost⟩
  -- The kind is one snapshot's and the spec another's. Where their clocks agree, one snapshot has both.
  change SshConfig.validateForwardSpec f₁.kind f₂.spec = .ok ()
  have hsameId : r₁.id = r₂.id := hid₁.trans hid₂.symm
  rcases (hmaxk r₂ hr₂ hid₂ y₂ hy₂).lt_or_eq with hltk | heqk
  · rcases (hmaxs r₁ hr₁ hid₁ y₁ hy₁).lt_or_eq with hlts | heqs
    · refine hmix r₁ ⟨i, hr₁⟩ r₂ ⟨i, hr₂⟩ hsameId f₁ f₂ hf₁ hf₂ ?_ ?_ <;> unfold writtenAt
      · rw [hy₂, hr₁x]
        exact Option.some_lt_some.mpr hltk
      · rw [hy₁, hr₂x]
        exact Option.some_lt_some.mpr hlts
    · obtain rfl := hinv.coherent.field r₁ ⟨i, hr₁⟩ r₂ ⟨i, hr₂⟩ hsameId "spec" y₁ xs hy₁ hr₂x heqs
      obtain heq := Option.some.inj (hspec₁.symm.trans hspec₂)
      rw [← heq]
      exact hv₁
  · obtain rfl := hinv.coherent.field r₂ ⟨i, hr₂⟩ r₁ ⟨i, hr₁⟩ hsameId.symm "kind" y₂ xk hy₂ hr₁x heqk
    obtain heq := Option.some.inj (hkind₁.symm.trans hkind₂)
    rw [heq]
    exact hv₂

/-! ## Whole runs -/

variable [DecidableEq ι]

theorem logged_write (op : Write) :
    Logged (Function.update w i ((w i).perform op.prog)) ⊆ Logged w ∨
      ∃ r, Vault.Made (w i).vault.state op r ∧
        Logged (Function.update w i ((w i).perform op.prog)) ⊆ insert r (Logged w) := by
  have hkeyring : ((w i).perform op.prog).vault.keyring = (w i).vault.keyring := by
    have hspec : Vault.LocalWrite (w i).vault (w i).disk ((w i).perform op.prog).vault ((w i).perform op.prog).disk :=
      (Vault.write_spec op).run
    generalize (w i).perform op.prog = d at hspec ⊢
    obtain ⟨disk, vault⟩ := d
    cases hspec <;> rfl
  have hlog : Vault.Logs (w i).vault (w i).disk op ((w i).perform op.prog).disk.log := Vault.write_logs op
  generalize (w i).perform op.prog = d at hkeyring hlog ⊢
  rcases hlog with hlog | ⟨r, key, entryId, hmade, hlog⟩
  · refine Or.inl ?_
    rintro r ⟨j, hr⟩
    by_cases hj : j = i
    · subst hj
      rw [Function.update_self, records, hlog, hkeyring] at hr
      exact ⟨j, hr⟩
    · rw [Function.update_of_ne hj] at hr
      exact ⟨j, hr⟩
  · refine Or.inr ⟨r, hmade, ?_⟩
    rintro r' ⟨j, hr'⟩
    by_cases hj : j = i
    · subst hj
      rw [Function.update_self, records, hlog, hkeyring, List.filterMap_append, List.mem_append] at hr'
      rcases hr' with hr' | hr'
      · exact Or.inr ⟨j, hr'⟩
      · obtain ⟨f, hf, hopen⟩ := List.mem_filterMap.mp hr'
        obtain rfl := List.mem_singleton.mp hf
        exact Or.inl (Keyring.opened_sealBlob hopen).symm
    · rw [Function.update_of_ne hj] at hr'
      exact Or.inr ⟨j, hr'⟩

theorem logged_receive (hinv : Inv w) {j : ι} {f : Frame} (hf : f ∈ (w j).disk.log) :
    Logged (Function.update w i ((w i).perform (·.applyRemoteEntry f.1 f.2))) ⊆ Logged w := by
  have hkeyring : ((w i).perform (·.applyRemoteEntry f.1 f.2)).vault.keyring = (w i).vault.keyring ∧
      (((w i).perform (·.applyRemoteEntry f.1 f.2)).disk.log = (w i).disk.log ∨
        ((w i).perform (·.applyRemoteEntry f.1 f.2)).disk.log = (w i).disk.log ++ [f]) := by
    unfold Device.perform
    cases ho : (w i).vault.keyring.openEntry f.1 f.2 with
    | error e =>
      rw [Vault.run_applyRemoteEntry_error ho]
      exact ⟨rfl, Or.inl rfl⟩
    | ok o =>
      rw [Vault.run_applyRemoteEntry ho]
      exact ⟨rfl, Or.inr rfl⟩
  generalize (w i).perform (·.applyRemoteEntry f.1 f.2) = d at hkeyring ⊢
  rintro r ⟨k, hr⟩
  by_cases hk : k = i
  · subst hk
    rw [Function.update_self, records, hkeyring.1] at hr
    obtain ⟨g, hg, hopen⟩ := List.mem_filterMap.mp hr
    have hg : g ∈ (w k).disk.log ∨ g = f := by
      rcases hkeyring.2 with h | h <;> rw [h] at hg
      · exact Or.inl hg
      · simpa using hg
    rcases hg with hg | rfl
    · exact ⟨k, List.mem_filterMap.mpr ⟨g, hg, hopen⟩⟩
    · -- The sender opens its own entry, since the keys are the same.
      obtain ⟨key, hmem, hblob⟩ := Keyring.opened_eq_some.mp hopen
      exact ⟨j, List.mem_filterMap.mpr ⟨g, hf, Keyring.opened_eq_some.mpr ⟨key, (hinv.sameKeys k j key).mp hmem, hblob⟩⟩⟩
  · rw [Function.update_of_ne hk] at hr
    exact ⟨k, hr⟩

theorem CarefulRun.sound {w₀ : ι → Device} (hstart : Start w₀) (hrun : CarefulRun w₀ w) : SoundForwards (Logged w) := by
  induction hrun with
  | refl =>
    have hempty : Logged w₀ = ∅ := by
      ext r
      simp [Logged, records, hstart.noFrames]
    rw [hempty]
    exact ⟨by simp, by simp⟩
  | tail hprev hstep ih =>
    have hinv : Inv _ := (CarefulRun.run hprev).inv hstart
    cases hstep with
    | write i op hroom hop =>
      rcases logged_write (w := _) (i := i) op with hsub | ⟨r, hmade, hsub⟩
      · exact ih.mono hsub
      · exact (ih.insert hinv hop hmade).mono hsub
    | receive i j f hf => exact ih.mono (logged_receive hinv hf)

/-- **Merged forwards.** When no two snapshots mix to something invalid, every forward that a device shows
is valid, and the file renders. -/
theorem forwards_valid {w₀ : ι → Device} (hstart : Start w₀) (hrun : CarefulRun w₀ w) (hmix : MixesValid (Logged w))
    (i : ι) :
    (∀ r, Vault.Shown (w i).vault.state r → live r = true → r.kind = .portForward →
      ∃ f, r.portForward = some f ∧ SshConfig.validateForwardSpec f.kind f.spec = .ok ()) ∧
    ∀ ord ord', ∃ out, SshConfig.render ((w i).vault.hosts ord) ((w i).vault.forwards ord') = some out := by
  have hinv := hrun.run.inv hstart
  have hsound := hrun.sound hstart
  refine ⟨fun r hr _ hkind => ?_, fun ord ord' => ?_⟩
  · obtain ⟨k, hk⟩ := hr
    exact hsound.merged hinv hmix hk hkind
  · refine ⟨_, SshConfig.render_eq_some_iff.mpr ⟨fun h _ f hf => ?_, rfl⟩⟩
    -- A forward that a host's block shows is one of the records.
    obtain ⟨r, ⟨k, hk⟩, -, hkind, hp⟩ := SshConfig.mem_list (SshConfig.mem_attached hf)
    obtain ⟨f', hf', hvalid⟩ := hsound.merged hinv hmix hk hkind
    obtain rfl : f' = f := Option.some.inj (hf'.symm.trans hp)
    exact hvalid.renderable

/-! ## Two edits that do not fit -/

def forward (kind : ForwardKind) (spec : String) : PortForward := ⟨"db", kind, spec, "web"⟩

def addForward : Write :=
  .addIn SshConfig.anyOrder .portForward "name" "db" (forward .dynamicFwd "1080").payload nil 21 31 0

def editForward (f : PortForward) (entryId : Uuid) : Write :=
  .edit SshConfig.anyOrder .portForward "name" "db" f.payload entryId 0

/-- Device `b` writes. -/
def writes (b : Bool) (op : Write) (w : Bool → Device) : Bool → Device :=
  Function.update w b ((w b).perform op.prog)

/-- Device `b` receives the last entry of the other one. -/
def receives (b : Bool) (w : Bool → Device) : Bool → Device :=
  match (w !b).disk.log.getLast? with
  | some f => Function.update w b ((w b).perform (·.applyRemoteEntry f.1 f.2))
  | none => w

/-- Both devices have a host and a dynamic forward for it. -/
def agreed : Bool → Device :=
  receives true (writes false addForward (receives true (writes false (addHost 20 30) pair)))

/-- One makes it a local forward, the other changes its port. -/
def crossed : Bool → Device :=
  receives true (writes true (editForward (forward .dynamicFwd "1081") 33)
    (writes false (editForward (forward .localFwd "8080:localhost:80") 32) agreed))

theorem CarefulRun.receives {w₀ w : Bool → Device} (h : CarefulRun w₀ w) (b : Bool) : CarefulRun w₀ (receives b w) := by
  unfold Convergence.receives
  split
  · rename_i f hf
    exact h.tail (.receive b (!b) f (List.mem_of_getLast? hf))
  · exact h

theorem CarefulRun.writes {w₀ w : Bool → Device} (h : CarefulRun w₀ w) (b : Bool) (op : Write)
    (hroom : (w b).vault.Room (w b).disk) (hop : Careful w op) : CarefulRun w₀ (writes b op w) :=
  h.tail (.write b op hroom hop)

theorem agreed_run : CarefulRun pair agreed := by
  have hhost : CarefulRun pair (Convergence.writes false (addHost 20 30) pair) := by
    refine CarefulRun.writes .refl false (addHost 20 30) (by decide) ⟨(fun h => nomatch h), ?_⟩
    rintro r ⟨b, hr⟩
    cases hr
  refine ((hhost.receives true).writes false addForward (by decide +kernel) ⟨fun _ => ⟨_, rfl, rfl⟩, ?_⟩).receives true
  have hfresh : ∀ b, ∀ r ∈ records (Convergence.receives true (Convergence.writes false (addHost 20 30) pair) b),
      r.id ≠ 21 := by decide +kernel
  rintro r ⟨b, hr⟩
  exact hfresh b r hr

theorem crossed_run : CarefulRun pair crossed := by
  refine ((agreed_run.writes false _ (by decide +kernel) ?_).writes true _ (by decide +kernel) ?_).receives true
  · exact fun _ => ⟨_, rfl, rfl⟩
  · exact fun _ => ⟨_, rfl, rfl⟩

theorem forwards_valid_agreed :
    (∀ r, Vault.Shown (agreed true).vault.state r → live r = true → r.kind = .portForward →
      ∃ f, r.portForward = some f ∧ SshConfig.validateForwardSpec f.kind f.spec = .ok ()) ∧
    ∀ ord ord', ∃ out, SshConfig.render ((agreed true).vault.hosts ord) ((agreed true).vault.forwards ord') = some out := by
  refine forwards_valid pair_start agreed_run ?_ true
  have hone : ∀ b b', ∀ r ∈ records (agreed b), ∀ r' ∈ records (agreed b'), r.id = r'.id → r = r' := by decide +kernel
  rintro r ⟨b, hr⟩ r' ⟨b', hr'⟩ hid f f' - - hlt
  obtain rfl := hone b b' r hr r' hr' hid
  cases hkind : writtenAt r "kind" <;> simp [hkind] at hlt

/-- The kind of one edit and the spec of the other: a local forward without a destination, on which rendering
goes out of bounds. -/
theorem crossed_edits_invalid : ∃ w, CarefulRun pair w ∧
    (∃ r f, Vault.Shown (w true).vault.state r ∧ live r = true ∧ r.kind = .portForward ∧ r.portForward = some f ∧
      SshConfig.validateForwardSpec f.kind f.spec ≠ .ok ()) ∧
    SshConfig.render ((w true).vault.hosts SshConfig.anyOrder) ((w true).vault.forwards SshConfig.anyOrder) = none := by
  refine ⟨crossed, crossed_run, ?_, by decide +kernel⟩
  have hmixed : (((crossed true).vault.state)[(21 : Uuid)]?.map fun r => (live r, r.kind, r.portForward)) =
      some (true, .portForward, some (forward .localFwd "1081")) := by decide +kernel
  obtain ⟨r, hr, heq⟩ := Option.map_eq_some_iff.mp hmixed
  obtain ⟨hlive, hkind, hf⟩ : live r = true ∧ r.kind = .portForward ∧ r.portForward = some (forward .localFwd "1081") := by
    simpa using heq
  exact ⟨r, _, ⟨21, hr⟩, hlive, hkind, hf, by decide +kernel⟩

end Convergence

end SshVault
