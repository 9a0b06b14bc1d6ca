import SshVault.Vault.Transfer

/-!
# Forwards that are made locally

`fwd add` and `fwd edit` check the spec of a forward before they call the vault, and `import_json` calls it without.
-/

open Lib

namespace SshVault

namespace Vault

/-! ## The commands (`src/main.rs`, `fwd_cmd`) -/

inductive FwdError where
  | badSpec (e : SshConfig.ApplyError)
  | noHost (host : String)
  | noForward (name : String)
  | badPayload
  | vault (e : VaultError)

/-- `fwd add`. -/
def fwdAdd (v : Vault) (name spec host : String) (kind : ForwardKind) (draw : Draw) :
    Prog Disk (Except FwdError Unit × Vault) :=
  match SshConfig.validateForwardSpec kind spec with
  | .error e => return (.error (.badSpec e), v)
  | .ok () =>
    if (v.find draw.ord .host "alias" host).isNone then return (.error (.noHost host), v)
    else do
      let (res, v) ← v.addItem .forwards ⟨name, kind, spec, host⟩ draw
      return ((res.map fun _ => ()).mapError .vault, v)

/-- `fwd edit`: what is not given stays, and the spec is checked against the final kind. -/
def fwdEdit (v : Vault) (name : String) (spec host : Option String) (kind : Option ForwardKind) (draw : Draw) :
    Prog Disk (Except FwdError Unit × Vault) :=
  match v.find draw.ord .portForward "name" name with
  | none => return (.error (.noForward name), v)
  | some rec => match rec.portForward with
    | none => return (.error .badPayload, v)
    | some old =>
      let f : PortForward :=
        { old with kind := kind.getD old.kind, spec := spec.getD old.spec, host := host.getD old.host }
      match SshConfig.validateForwardSpec f.kind f.spec with
      | .error e => return (.error (.badSpec e), v)
      | .ok () =>
        if (v.find draw.ord .host "alias" f.host).isNone then return (.error (.noHost f.host), v)
        else do
          let (res, v) ← v.edit draw.ord .portForward "name" name (PayloadType.portForward.toPayload f) draw.entryId draw.now
          return (res.mapError .vault, v)

/-- What a user does with the vault on one device. -/
inductive Command where
  | fwdAdd (name spec host : String) (kind : ForwardKind) (draw : Draw)
  | fwdEdit (name : String) (spec host : Option String) (kind : Option ForwardKind) (draw : Draw)
  | importJson (json : Value) (draw : Nat → Draw)
  | write (w : Write)
  | other (a : Action)

def Command.prog (v : Vault) : Command → Prog Disk (Option Vault)
  | .fwdAdd name spec host kind draw => do return some (← v.fwdAdd name spec host kind draw).2
  | .fwdEdit name spec host kind draw => do return some (← v.fwdEdit name spec host kind draw).2
  | .importJson json draw => do return some (← v.importJson json draw).2
  | .write w => (Action.write w).prog v
  | .other a => a.prog v

def Site.obey (s : Site) (c : Command) : Site :=
  match s.vault with
  | some v => ⟨((c.prog v).run s.disk).2, ((c.prog v).run s.disk).1⟩
  | none => s

/-! ## What is taken in -/

/-- The payload of a forward whose spec fits its kind. -/
def CheckedPayload (payload : Payload) : Prop := ∃ f : PortForward, payload = PayloadType.portForward.toPayload f ∧ f.Valid

/-- Of these forwards, the ones that `add` takes in fit their kind: each fits, or its name is taken by then. What
comes behind the first that cannot be read, or that `validate_payload` refuses, is not imported. -/
def TakesChecked (taken : String → Prop) : List Value → Prop
  | [] => True
  | item :: rest => ∀ f : PortForward, PayloadType.portForward.ofValue item = some f →
      validatePayload .portForward (PayloadType.portForward.toPayload f) = .ok () →
      (f.Valid ∨ taken f.name) ∧ TakesChecked (fun name => taken name ∨ name = f.name) rest

def Fresh (drawn ids : List Uuid) : Prop := ids.Nodup ∧ ∀ i ∈ ids, i ∉ drawn

/-- How many items an import reads at most. -/
def itemCount (json : Value) : Nat := (Exported.all.map fun e => (e.items json).length).sum

/-- The record ids that a command may draw. -/
def Command.drawn : Command → List Uuid
  | .fwdAdd _ _ _ _ draw => [draw.recordId]
  | .importJson json draw => (List.range (itemCount json)).map fun k => (draw k).recordId
  | .write w => w.drawn.toList
  | _ => []

/-- How many clocks a command may take. -/
def Command.clocks : Command → Nat
  | .importJson json _ => itemCount json
  | .other _ => 0
  | _ => 1

/-- A forward is there under this name. -/
def Taken (v : Vault) (name : String) : Prop := ∃ r, Shown v.state r ∧ r.key = some (.portForward, name)

/-- An import takes in forwards that fit, and other calls are about other kinds. -/
def Command.Fits (v : Vault) (drawn : List Uuid) : Command → Prop
  | .importJson json _ => TakesChecked (Taken v) (Exported.forwards.items json)
  | .write (.addIn ord kind nameField name payload share recordId entryId now) =>
    kind ≠ .portForward ∧ (Write.addIn ord kind nameField name payload share recordId entryId now).Proper v drawn
  | .write (.edit ord kind nameField name payload entryId now) =>
    kind ≠ .portForward ∧ (Write.edit ord kind nameField name payload entryId now).Proper v drawn
  | .write (.remove _ kind nameField _ _ _) => nameField = kind.nameField
  | .other a => a.Maintains
  | _ => True

/-- Commands one after the other, each with fresh ids and with room for its clocks. -/
inductive CommandRun (s₀ : Site) : List Uuid → Site → Prop
  | start : CommandRun s₀ [] s₀
  | step {drawn : List Uuid} {s : Site} {v : Vault} {c : Command} (h : CommandRun s₀ drawn s) (hv : s.vault = some v)
      (hfits : c.Fits v drawn) (hfresh : Fresh drawn c.drawn) (hroom : s.disk.metadata.lamport.val + c.clocks < 2 ^ 64) :
      CommandRun s₀ (drawn ++ c.drawn) (s.obey c)

/-! ## Checked forwards in the map -/

def ForwardsChecked (m : KeyedMap) : Prop := ∀ name p, m (.portForward, name) = some p → CheckedPayload p

/-- A call writes no forward, or a checked one. -/
def Careful : MapCall → Prop
  | .add kind _ payload | .edit kind _ payload => kind = .portForward → CheckedPayload payload
  | .remove _ _ => True

theorem toPayload_union (f g : PortForward) :
    PayloadType.portForward.toPayload f ∪ PayloadType.portForward.toPayload g = PayloadType.portForward.toPayload g := by
  refine Std.ExtTreeMap.ext_getElem? fun n => ?_
  rw [Std.ExtTreeMap.getElem?_union]
  by_cases hn : n ∈ PayloadType.portForward.members.map (·.name)
  · obtain ⟨m, hm, rfl⟩ := List.mem_map.mp hn
    obtain ⟨value, hvalue⟩ : ∃ value, m.writes g = some value := by
      rcases hm with _ | ⟨_, _ | ⟨_, _ | ⟨_, _ | ⟨_, hm⟩⟩⟩⟩
      · exact ⟨_, rfl⟩
      · exact ⟨_, rfl⟩
      · exact ⟨_, rfl⟩
      · exact ⟨_, rfl⟩
      · cases hm
    have hget : (PayloadType.portForward.toPayload g)[m.name]? = some value :=
      (Member.serialize_get PayloadType.portForward.names hm).trans hvalue
    rw [hget]
    rfl
  · have hf : (PayloadType.portForward.toPayload f)[n]? = none := Member.serialize_absent hn
    have hg : (PayloadType.portForward.toPayload g)[n]? = none := Member.serialize_absent hn
    rw [hf, hg]
    rfl

theorem ForwardsChecked.update {m : KeyedMap} (h : ForwardsChecked m) {kind : Kind} {name : String} {o : Option Payload}
    (ho : kind = .portForward → ∀ p, o = some p → CheckedPayload p) : ForwardsChecked (Function.update m (kind, name) o) := by
  intro name' p hp
  by_cases hkey : (Kind.portForward, name') = (kind, name)
  · rw [hkey, Function.update_self] at hp
    exact ho (Prod.mk.inj hkey).1.symm p hp
  · rw [Function.update_of_ne hkey] at hp
    exact h name' p hp

theorem ForwardsChecked.step {m : KeyedMap} (h : ForwardsChecked m) {c : MapCall} (hc : Careful c) :
    ForwardsChecked (m.step c).2 := by
  cases c with
  | add kind name payload =>
    cases hm : m (kind, name) with
    | some old =>
      rw [KeyedMap.step_add_error hm]
      exact h
    | none =>
      rw [KeyedMap.step_add hm]
      exact h.update fun hkind p hp => Option.some.inj hp ▸ hc hkind
  | edit kind name payload =>
    cases hm : m (kind, name) with
    | none =>
      rw [KeyedMap.step_edit_error hm]
      exact h
    | some old =>
      rw [KeyedMap.step_edit hm]
      refine h.update fun hkind p hp => ?_
      obtain ⟨f, rfl, hf⟩ := hc hkind
      subst hkind
      obtain ⟨g, rfl, -⟩ := h name old hm
      rw [toPayload_union] at hp
      exact ⟨f, (Option.some.inj hp).symm, hf⟩
  | remove kind name =>
    cases hm : m (kind, name) with
    | none =>
      rw [KeyedMap.step_remove_error hm]
      exact h
    | some old =>
      rw [KeyedMap.step_remove hm]
      exact h.update fun _ p hp => nomatch hp

theorem step_add_grows {m : KeyedMap} {kind : Kind} {name : String} {payload : Payload} {k : Kind × String}
    (h : (m k).isSome = true) : ((m.step (.add kind name payload)).2 k).isSome = true := by
  cases hold : m (kind, name) with
  | some old =>
    rw [KeyedMap.step_add_error hold]
    exact h
  | none =>
    rw [KeyedMap.step_add hold]
    by_cases hk : k = (kind, name)
    · subst hk
      rw [hold] at h
      cases h
    · dsimp only
      rw [Function.update_of_ne hk]
      exact h

theorem step_add_named {m : KeyedMap} {kind : Kind} {name : String} {payload : Payload} :
    ((m.step (.add kind name payload)).2 (kind, name)).isSome = true := by
  cases hold : m (kind, name) with
  | some old =>
    rw [KeyedMap.step_add_error hold]
    exact Option.isSome_of_eq_some hold
  | none =>
    rw [KeyedMap.step_add hold]
    dsimp only
    rw [Function.update_self]
    rfl

/-! ## One item -/

/-- The ids `drawn` are drawn and at most `n` clocks, and every forward that is there was checked. -/
structure Forwarding (drawn : List Uuid) (n : Nat) (m : KeyedMap) (v : Vault) (d : Disk) : Prop where
  holds : ∃ n', n' ≤ n ∧ Local drawn n' m v d
  checked : ForwardsChecked m

variable {drawn : List Uuid} {n : Nat} {m : KeyedMap} {v : Vault} {d : Disk}

theorem Forwarding.mono (h : Forwarding drawn n m v d) {drawn' : List Uuid} {n' : Nat} (hsub : drawn ⊆ drawn')
    (hn : n ≤ n') : Forwarding drawn' n' m v d := by
  obtain ⟨k, hk, hlocal⟩ := h.holds
  exact ⟨⟨k, hk.trans hn, hlocal.refused hsub⟩, h.checked⟩

/-- A call that is careful, or refused because its name is taken. -/
theorem Forwarding.call (h : Forwarding drawn n m v d) (hroom : n + 1 < 2 ^ 64) {w : Write} (hw : w.Proper v drawn)
    (hcareful : Careful w.call ∨ (m.step w.call).2 = m) :
    Forwarding (drawn ++ w.drawn.toList) (n + 1) (m.step w.call).2 ((w.prog v).run d).1.2 ((w.prog v).run d).2 ∧
      ((w.prog v).run d).1.1 = (m.step w.call).1 := by
  obtain ⟨k, hk, hlocal⟩ := h.holds
  obtain ⟨hanswer, hnext⟩ := hlocal.call hw fun _ => by omega
  refine ⟨⟨⟨_, ?_, hnext⟩, ?_⟩, hanswer⟩
  · split <;> omega
  · rcases hcareful with hc | hsame
    · exact h.checked.step hc
    · rw [hsame]
      exact h.checked

mutual

theorem checkValue_not_duplicate {kind : Kind} {k n : String} : ∀ value : Value, checkValue kind value ≠ .error (.duplicate k n)
  | .str (.plain s), h => by
    unfold checkValue checkString at h
    split at h
    · cases h
    split at h
    · cases h
    split at h <;> cases h
  | .arr items, h => by
    unfold checkValue at h
    exact checkItems_not_duplicate items h
  | .obj fields, h => by
    unfold checkValue at h
    exact checkFields_not_duplicate fields h
  | .str (.b64 _), h => by unfold checkValue at h; cases h
  | .null, h => by unfold checkValue at h; cases h
  | .bool _, h => by unfold checkValue at h; cases h
  | .num _, h => by unfold checkValue at h; cases h

theorem checkItems_not_duplicate {kind : Kind} {k n : String} : ∀ items : List Value, checkItems kind items ≠ .error (.duplicate k n)
  | [], h => by unfold checkItems at h; cases h
  | value :: rest, h => by
    unfold checkItems at h
    cases hrest : checkItems kind rest with
    | error e =>
      rw [hrest] at h
      obtain rfl : e = _ := Except.error.inj h
      exact checkItems_not_duplicate rest hrest
    | ok _ =>
      rw [hrest] at h
      exact checkValue_not_duplicate value h

theorem checkFields_not_duplicate {kind : Kind} {k n : String} :
    ∀ fields : List (String × Value), checkFields kind fields ≠ .error (.duplicate k n)
  | [], h => by unfold checkFields at h; cases h
  | (_, value) :: rest, h => by
    unfold checkFields at h
    cases hrest : checkFields kind rest with
    | error e =>
      rw [hrest] at h
      obtain rfl : e = _ := Except.error.inj h
      exact checkFields_not_duplicate rest hrest
    | ok _ =>
      rw [hrest] at h
      exact checkValue_not_duplicate value h

end

theorem validatePayload_not_duplicate {kind : Kind} {payload : Payload} {k n : String} :
    validatePayload kind payload ≠ .error (.duplicate k n) := by
  unfold validatePayload
  split
  · exact nofun
  · exact checkFields_not_duplicate _

theorem run_addIn_error {ord : HashOrder} {kind : Kind} {nameField name : String} {payload : Payload} {share recordId
    entryId : Uuid} {now : Nat} (h : validatePayload kind payload = .ok () → v.keyring.hasShare share = false) :
    ∃ err, (∀ k n, err ≠ .duplicate k n) ∧
      (v.addIn ord kind nameField name payload share recordId entryId now).run d = ((.error err, v), d) := by
  unfold addIn
  cases hcheck : validatePayload kind payload with
  | error e =>
    refine ⟨e, ?_, rfl⟩
    rintro k n rfl
    exact validatePayload_not_duplicate hcheck
  | ok _ =>
    dsimp only
    rw [if_pos (by simp [h hcheck])]
    exact ⟨.corrupt "cannot add to a share this device is not a member of", nofun, rfl⟩

/-- `TakesChecked` for any list of the export. -/
def Takes (e : Exported) (taken : String → Prop) : List Value → Prop
  | [] => True
  | item :: rest => ∀ x, e.type.ofValue item = some x → validatePayload e.type.kind (e.type.toPayload x) = .ok () →
      ((e.type.kind = .portForward → CheckedPayload (e.type.toPayload x)) ∨ taken (e.name x)) ∧
        Takes e (fun name => taken name ∨ name = e.name x) rest

theorem TakesChecked.takes {taken : String → Prop} {items : List Value} (h : TakesChecked taken items) :
    Takes .forwards taken items := by
  induction items generalizing taken with
  | nil => trivial
  | cons item rest ih =>
    intro f hf hcheck
    obtain ⟨hnow, hrest⟩ := h f hf hcheck
    exact ⟨hnow.imp (fun hvalid _ => ⟨f, rfl, hvalid⟩) fun htaken => htaken, ih hrest⟩

theorem takes_of_other {e : Exported} (he : e.type.kind ≠ .portForward) {taken : String → Prop} (items : List Value) :
    Takes e taken items := by
  induction items generalizing taken with
  | nil => trivial
  | cons item rest ih => exact fun x _ _ => ⟨Or.inl fun hkind => absurd hkind he, ih⟩

theorem Forwarding.item (h : Forwarding drawn n m v d) (hroom : n + 1 < 2 ^ 64) (e : Exported) (x : e.type.Data)
    {draw : Draw} (hfresh : draw.recordId ∉ drawn)
    (htakes : validatePayload e.type.kind (e.type.toPayload x) = .ok () →
      (e.type.kind = .portForward → CheckedPayload (e.type.toPayload x)) ∨ (m (e.type.kind, e.name x)).isSome = true) :
    ∃ m', Forwarding (drawn ++ [draw.recordId]) (n + 1) m' ((v.addItem e x draw).run d).1.2 ((v.addItem e x draw).run d).2 ∧
      (∀ k, (m k).isSome = true → (m' k).isSome = true) ∧
      ((∃ err, (∀ k n, err ≠ .duplicate k n) ∧ ((v.addItem e x draw).run d).1.1 = .error err) ∨
        validatePayload e.type.kind (e.type.toPayload x) = .ok () ∧ (m' (e.type.kind, e.name x)).isSome = true) := by
  by_cases hok : validatePayload e.type.kind (e.type.toPayload x) = .ok () ∧ v.keyring.hasShare nil = true
  swap
  · obtain ⟨err, hdup, hrun⟩ := @run_addIn_error v d draw.ord _ e.type.kind.nameField (e.name x) _ nil draw.recordId draw.entryId draw.now
      fun hcheck => Bool.eq_false_iff.mpr fun hshare => hok ⟨hcheck, hshare⟩
    change (v.addItem e x draw).run d = _ at hrun
    rw [hrun]
    exact ⟨m, h.mono (List.subset_append_left _ _) (Nat.le_succ n), fun _ hk => hk, Or.inl ⟨err, hdup, rfl⟩⟩
  obtain ⟨hcheck, hshare⟩ := hok
  let w : Write := .addIn draw.ord e.type.kind e.type.kind.nameField (e.name x) (e.type.toPayload x) nil draw.recordId
    draw.entryId draw.now
  have hw : w.Proper v drawn := ⟨rfl, ⟨e.type.live, hcheck, e.named x⟩, hshare, hfresh⟩
  have hrun : ((w.prog v).run d).1.2 = ((v.addItem e x draw).run d).1.2 ∧
      ((w.prog v).run d).2 = ((v.addItem e x draw).run d).2 := by
    unfold Write.prog
    simp only [w, Prog.run_bind, Prog.run_pure]
    unfold addItem
    exact ⟨rfl, rfl⟩
  have hcareful : Careful w.call ∨ (m.step w.call).2 = m := by
    refine (htakes hcheck).imp (fun hc => hc) fun htaken => ?_
    obtain ⟨old, hold⟩ := Option.isSome_iff_exists.mp htaken
    change (m.step (.add _ _ _)).2 = m
    rw [KeyedMap.step_add_error hold]
  obtain ⟨hnext, -⟩ := h.call hroom hw hcareful
  rw [hrun.1, hrun.2] at hnext
  exact ⟨_, hnext, fun k hk => step_add_grows hk, Or.inr ⟨hcheck, step_add_named⟩⟩

/-! ## An import -/

/-- The ids that an import draws from its `k`th item on. -/
def drawnFrom (draw : Nat → Draw) (k count : Nat) : List Uuid := (List.range' k count).map fun i => (draw i).recordId

theorem drawnFrom_append (draw : Nat → Draw) (k a b : Nat) :
    drawnFrom draw k (a + b) = drawnFrom draw k a ++ drawnFrom draw (k + a) b := by
  unfold drawnFrom
  rw [← List.map_append, List.range'_append_1]

theorem Fresh.split {drawn a b : List Uuid} (h : Fresh drawn (a ++ b)) : Fresh drawn a ∧ Fresh (drawn ++ a) b := by
  obtain ⟨hnodup, hnew⟩ := h
  obtain ⟨ha, hb, hab⟩ := List.nodup_append.mp hnodup
  refine ⟨⟨ha, fun i hi => hnew i (List.mem_append_left _ hi)⟩, hb, fun i hi hmem => ?_⟩
  rcases List.mem_append.mp hmem with hdrawn | hia
  · exact hnew i (List.mem_append_right _ hi) hdrawn
  · exact hab i hia i hi rfl

/-- **One list.** Items that are checked where they are taken in leave checked forwards. -/
theorem Forwarding.importItems (e : Exported) (draw : Nat → Draw) {items : List Value} {counts : Nat × Nat}
    {taken : String → Prop} (h : Forwarding drawn n m v d) (hroom : n + items.length < 2 ^ 64)
    (hfresh : Fresh drawn (drawnFrom draw (counts.1 + counts.2) items.length)) (htakes : Takes e taken items)
    (htaken : ∀ name, taken name → (m (e.type.kind, name)).isSome = true) :
    ∃ m', Forwarding (drawn ++ drawnFrom draw (counts.1 + counts.2) items.length) (n + items.length) m'
        ((Vault.importItems e draw items v counts).run d).1.2 ((Vault.importItems e draw items v counts).run d).2 ∧
      (∀ k, (m k).isSome = true → (m' k).isSome = true) ∧
      ∀ counts', ((Vault.importItems e draw items v counts).run d).1.1 = .ok counts' →
        counts'.1 + counts'.2 = counts.1 + counts.2 + items.length := by
  induction items generalizing drawn n m v d counts taken with
  | nil =>
    refine ⟨m, h.mono (List.subset_append_left _ _) le_rfl, fun _ hk => hk, ?_⟩
    intro counts' hres
    exact Except.ok.inj hres ▸ rfl
  | cons item rest ih =>
    obtain ⟨imported, skipped⟩ := counts
    rw [List.length_cons] at hroom hfresh ⊢
    rw [Nat.add_comm rest.length 1, drawnFrom_append] at hfresh
    obtain ⟨hone, hrest⟩ := hfresh.split
    unfold Vault.importItems
    cases hx : e.type.ofValue item with
    | none =>
      refine ⟨m, h.mono (List.subset_append_left _ _) (Nat.le_add_right n _), fun _ hk => hk, ?_⟩
      exact fun counts' hres => nomatch hres
    | some x =>
      dsimp only
      have hid : (draw (imported + skipped)).recordId ∉ drawn := hone.2 _ (List.mem_singleton.mpr rfl)
      obtain ⟨m₁, h₁, hgrows, hanswer⟩ := h.item (by omega) e x hid fun hcheck =>
        ((htakes x hx hcheck).1).imp_right (htaken _)
      rw [Prog.run_bind]
      generalize (v.addItem e x (draw (imported + skipped))).run d = out at h₁ hanswer ⊢
      obtain ⟨⟨res, v₁⟩, d₁⟩ := out
      dsimp only at h₁ hanswer ⊢
      have hsub : drawn ++ [(draw (imported + skipped)).recordId] ⊆
          drawn ++ drawnFrom draw (imported + skipped) (rest.length + 1) := by
        rw [Nat.add_comm rest.length 1, drawnFrom_append]
        intro i hi
        rcases List.mem_append.mp hi with hi | hi
        · exact List.mem_append_left _ hi
        · exact List.mem_append_right _ (List.mem_append_left _ hi)
      -- The rest of the list, once the item is counted.
      have hgoes : ∀ counts : Nat × Nat, counts.1 + counts.2 = imported + skipped + 1 →
          validatePayload e.type.kind (e.type.toPayload x) = .ok () → (m₁ (e.type.kind, e.name x)).isSome = true →
          ∃ m', Forwarding (drawn ++ drawnFrom draw (imported + skipped) (rest.length + 1)) (n + (rest.length + 1)) m'
              ((Vault.importItems e draw rest v₁ counts).run d₁).1.2 ((Vault.importItems e draw rest v₁ counts).run d₁).2 ∧
            (∀ k, (m k).isSome = true → (m' k).isSome = true) ∧
            ∀ counts', ((Vault.importItems e draw rest v₁ counts).run d₁).1.1 = .ok counts' →
              counts'.1 + counts'.2 = imported + skipped + (rest.length + 1) := by
        intro counts hcounts hcheck hnamed
        obtain ⟨m', h', hgrows', hcount⟩ := ih h₁ (by omega) (by rw [hcounts]; exact hrest) (htakes x hx hcheck).2 (by
            rintro name (hname | rfl)
            · exact hgrows _ (htaken name hname)
            · exact hnamed)
        refine ⟨m', h'.mono ?_ (by omega), fun k hk => hgrows' k (hgrows k hk), fun counts' hres => ?_⟩
        · rw [hcounts, Nat.add_comm rest.length 1, drawnFrom_append, ← List.append_assoc]
          exact List.Subset.refl _
        · rw [hcount counts' hres, hcounts]
          omega
      rcases hanswer with ⟨err, hdup, rfl⟩ | ⟨hcheck, hnamed⟩
      · have hstop : ∃ m', Forwarding (drawn ++ drawnFrom draw (imported + skipped) (rest.length + 1))
            (n + (rest.length + 1)) m' v₁ d₁ ∧ ∀ k, (m k).isSome = true → (m' k).isSome = true :=
          ⟨m₁, h₁.mono hsub (by omega), hgrows⟩
        obtain ⟨m', h', hgrows'⟩ := hstop
        cases err with
        | duplicate k n => exact absurd rfl (hdup k n)
        | _ => exact ⟨m', h', hgrows', fun counts' hres => nomatch hres⟩
      · cases res with
        | ok id => exact hgoes (imported + 1, skipped) (by omega) hcheck hnamed
        | error err =>
          cases err with
          | duplicate k n => exact hgoes (imported, skipped + 1) (by omega) hcheck hnamed
          | _ => exact ⟨m₁, h₁.mono hsub (by omega), hgrows, fun counts' hres => nomatch hres⟩

def countOf (es : List Exported) (json : Value) : Nat := (es.map fun e => (e.items json).length).sum

/-- Lists one after the other. Only the one of forwards has something to check, and what it finds taken was taken
before the import. -/
theorem Forwarding.importKinds (draw : Nat → Draw) (json : Value) {es : List Exported} {counts : Nat × Nat}
    (h : Forwarding drawn n m v d) (hroom : n + countOf es json < 2 ^ 64)
    (hfresh : Fresh drawn (drawnFrom draw (counts.1 + counts.2) (countOf es json)))
    (htakes : ∀ e ∈ es, ∃ taken : String → Prop, Takes e taken (e.items json) ∧
      ∀ name, taken name → (m (e.type.kind, name)).isSome = true) :
    ∃ m', Forwarding (drawn ++ drawnFrom draw (counts.1 + counts.2) (countOf es json)) (n + countOf es json) m'
      ((Vault.importKinds draw json es v counts).run d).1.2 ((Vault.importKinds draw json es v counts).run d).2 := by
  induction es generalizing drawn n m v d counts with
  | nil => exact ⟨m, h.mono (List.subset_append_left _ _) le_rfl⟩
  | cons e es ih =>
    have hcount : countOf (e :: es) json = (e.items json).length + countOf es json := by
      unfold countOf
      rw [List.map_cons, List.sum_cons]
    rw [hcount] at hroom hfresh ⊢
    rw [drawnFrom_append] at hfresh ⊢
    obtain ⟨hone, hrest⟩ := hfresh.split
    obtain ⟨taken, htake, htaken⟩ := htakes e List.mem_cons_self
    obtain ⟨m₁, h₁, hgrows, hcounts⟩ := h.importItems e draw (by omega) hone htake htaken
    unfold Vault.importKinds
    rw [Prog.run_bind]
    generalize (Vault.importItems e draw (e.items json) v counts).run d = out at h₁ hcounts ⊢
    obtain ⟨⟨res, v₁⟩, d₁⟩ := out
    dsimp only at h₁ hcounts ⊢
    rw [← List.append_assoc]
    cases res with
    | error err => exact ⟨m₁, h₁.mono (List.subset_append_left _ _) (by omega)⟩
    | ok counts' =>
      have hnext := hcounts counts' rfl
      obtain ⟨m', h'⟩ := ih h₁ (by omega) (by rw [hnext]; exact hrest) fun e' he' => by
        obtain ⟨taken', htake', htaken'⟩ := htakes e' (List.mem_cons_of_mem _ he')
        exact ⟨taken', htake', fun name hname => hgrows _ (htaken' name hname)⟩
      rw [hnext] at h'
      exact ⟨m', h'.mono (List.Subset.refl _) (by omega)⟩

/-! ## Runs -/

theorem Forwarding.taken (h : Forwarding drawn n m v d) {name : String} (hname : Taken v name) :
    (m (.portForward, name)).isSome = true := by
  obtain ⟨_, _, hlocal⟩ := h.holds
  obtain ⟨r, ⟨i, hr⟩, hkey⟩ := hname
  rw [hlocal.keyed.entry _ _ _ hr hkey]
  rfl

theorem Forwarding.fwdAdd (h : Forwarding drawn n m v d) (hroom : n + 1 < 2 ^ 64) (name spec host : String) (kind : ForwardKind)
    {draw : Draw} (hfresh : draw.recordId ∉ drawn) :
    ∃ m', Forwarding (drawn ++ [draw.recordId]) (n + 1) m' ((v.fwdAdd name spec host kind draw).run d).1.2
      ((v.fwdAdd name spec host kind draw).run d).2 := by
  have hstays : Forwarding (drawn ++ [draw.recordId]) (n + 1) m v d := h.mono (List.subset_append_left _ _) (Nat.le_succ n)
  unfold Vault.fwdAdd
  cases hspec : SshConfig.validateForwardSpec kind spec with
  | error e => exact ⟨m, hstays⟩
  | ok _ =>
    dsimp only
    split
    · exact ⟨m, hstays⟩
    obtain ⟨m', h', -, -⟩ := h.item hroom .forwards ⟨name, kind, spec, host⟩ hfresh fun _ =>
      Or.inl fun _ => ⟨_, rfl, hspec⟩
    simp only [Prog.run_bind, Prog.run_pure]
    exact ⟨m', h'⟩

theorem run_edit_error {ord : HashOrder} {kind : Kind} {nameField name : String} {payload : Payload} {entryId : Uuid}
    {now : Nat} {e : VaultError} (h : validatePayload kind payload = .error e) :
    (v.edit ord kind nameField name payload entryId now).run d = ((.error e, v), d) := by
  unfold edit
  rw [h]
  rfl

theorem Forwarding.fwdEdit (h : Forwarding drawn n m v d) (hroom : n + 1 < 2 ^ 64) (name : String)
    (spec host : Option String) (kind : Option ForwardKind) (draw : Draw) :
    ∃ m', Forwarding drawn (n + 1) m' ((v.fwdEdit name spec host kind draw).run d).1.2
      ((v.fwdEdit name spec host kind draw).run d).2 := by
  have hstays : Forwarding drawn (n + 1) m v d := h.mono (List.Subset.refl _) (Nat.le_succ n)
  unfold Vault.fwdEdit
  cases hfind : v.find draw.ord .portForward "name" name with
  | none => exact ⟨m, hstays⟩
  | some rec =>
    dsimp only
    cases hread : rec.portForward with
    | none => exact ⟨m, hstays⟩
    | some old =>
      let f : PortForward := ⟨old.name, kind.getD old.kind, spec.getD old.spec, host.getD old.host⟩
      dsimp only
      cases hspec : SshConfig.validateForwardSpec (kind.getD old.kind) (spec.getD old.spec) with
      | error e => exact ⟨m, hstays⟩
      | ok _ =>
        dsimp only
        split
        · exact ⟨m, hstays⟩
        simp only [Prog.run_bind, Prog.run_pure]
        cases hcheck : validatePayload .portForward (PayloadType.portForward.toPayload f) with
        | error e =>
          rw [run_edit_error hcheck]
          exact ⟨m, hstays⟩
        | ok _ =>
          -- The record was found under the name, so the payload carries it.
          have hkey := (Record.key_eq_some.mp (Record.matchesName_iff.mp (find_mem hfind).2)).2.2
          obtain ⟨⟨hname, -⟩, -, -⟩ := Record.portForward_eq_some_iff.mp hread
          have hold : old.name = name := by
            change rec.value "name" = _ at hkey
            rw [hkey] at hname
            exact (Option.some.inj hname).symm
          have hnamed : (PayloadType.portForward.toPayload f)[Kind.portForward.nameField]? = some (.str (.plain name)) := by
            rw [← hold]
            exact Exported.forwards.named f
          obtain ⟨hnext, -⟩ := h.call hroom
            (w := .edit draw.ord .portForward "name" name (PayloadType.portForward.toPayload f) draw.entryId draw.now)
            ⟨rfl, by decide, hcheck, hnamed⟩ (Or.inl fun _ => ⟨f, rfl, hspec⟩)
          change Forwarding (drawn ++ []) _ _ _ _ at hnext
          rw [List.append_nil] at hnext
          exact ⟨_, hnext⟩

theorem Forwarding.command (h : Forwarding drawn n m v d) {c : Command} (hfits : c.Fits v drawn)
    (hfresh : Fresh drawn c.drawn) (hroom : n + c.clocks < 2 ^ 64) :
    ∃ v' m' n', (Site.mk d (some v)).obey c = ⟨((Site.mk d (some v)).obey c).disk, some v'⟩ ∧
      Forwarding (drawn ++ c.drawn) n' m' v' ((Site.mk d (some v)).obey c).disk := by
  unfold Site.obey Command.prog
  cases c with
  | fwdAdd name spec host kind draw =>
    simp only [Prog.run_bind, Prog.run_pure]
    obtain ⟨m', h'⟩ := h.fwdAdd hroom name spec host kind (hfresh.2 _ List.mem_cons_self)
    exact ⟨_, m', _, rfl, h'⟩
  | fwdEdit name spec host kind draw =>
    simp only [Prog.run_bind, Prog.run_pure]
    obtain ⟨m', h'⟩ := h.fwdEdit hroom name spec host kind draw
    exact ⟨_, m', _, rfl, h'.mono (List.subset_append_left _ _) le_rfl⟩
  | importJson json draw =>
    simp only [Prog.run_bind, Prog.run_pure]
    have hids : (Command.importJson json draw).drawn = drawnFrom draw 0 (countOf Exported.all json) := by
      change (List.range (itemCount json)).map _ = (List.range' 0 (itemCount json)).map _
      rw [List.range_eq_range']
    rw [hids] at hfresh ⊢
    have htakes : ∀ e ∈ Exported.all, ∃ taken : String → Prop, Takes e taken (e.items json) ∧
        ∀ name, taken name → (m (e.type.kind, name)).isSome = true := by
      intro e he
      have hother : e.type.kind ≠ .portForward → ∃ taken : String → Prop, Takes e taken (e.items json) ∧
          ∀ name, taken name → (m (e.type.kind, name)).isSome = true := fun hkind =>
        ⟨fun _ => False, takes_of_other hkind _, fun _ hf => nomatch hf⟩
      rcases he with _ | ⟨_, _ | ⟨_, _ | ⟨_, _ | ⟨_, he⟩⟩⟩⟩
      · exact hother (by decide)
      · exact hother (by decide)
      · exact ⟨Taken v, TakesChecked.takes hfits, fun name hname => h.taken hname⟩
      · exact hother (by decide)
      · cases he
    obtain ⟨m', h'⟩ := @Forwarding.importKinds _ _ _ _ _ draw json _ (0, 0) h hroom hfresh htakes
    exact ⟨_, m', _, rfl, h'⟩
  | write w =>
    have hgoes : w.Proper v drawn → (Careful w.call ∨ (m.step w.call).2 = m) →
        ∃ v' m' n', (⟨(((Action.write w).prog v).run d).2, (((Action.write w).prog v).run d).1⟩ : Site) =
            ⟨(((Action.write w).prog v).run d).2, some v'⟩ ∧
          Forwarding (drawn ++ (Command.write w).drawn) n' m' v' (((Action.write w).prog v).run d).2 := by
      intro hw hcareful
      obtain ⟨hnext, -⟩ := h.call hroom hw hcareful
      unfold Action.prog
      simp only [Prog.run_bind, Prog.run_pure]
      exact ⟨_, _, _, rfl, hnext⟩
    cases w with
    | addIn => exact hgoes hfits.2 (Or.inl fun hkind => absurd hkind hfits.1)
    | edit => exact hgoes hfits.2 (Or.inl fun hkind => absurd hkind hfits.1)
    | remove => exact hgoes hfits (Or.inl trivial)
  | other a =>
    obtain ⟨k, hk, hlocal⟩ := h.holds
    obtain ⟨v', d', hnext, hlocal'⟩ := hlocal.maintains hfits
    change ∃ v' m' n', (Site.mk d (some v)).next a = ⟨((Site.mk d (some v)).next a).disk, some v'⟩ ∧
      Forwarding (drawn ++ []) n' m' v' ((Site.mk d (some v)).next a).disk
    rw [hnext, List.append_nil]
    exact ⟨v', m, k, rfl, ⟨k, le_rfl, hlocal'⟩, h.checked⟩

theorem CommandRun.forwarding {s₀ s : Site} (h : CommandRun s₀ drawn s) {v₀ : Vault} (hv₀ : s₀.vault = some v₀)
    (h₀ : Local [] 0 (fun _ => none) v₀ s₀.disk) : ∃ v n m, s.vault = some v ∧ Forwarding drawn n m v s.disk := by
  induction h with
  | start => exact ⟨v₀, 0, _, hv₀, ⟨0, le_rfl, h₀⟩, fun _ _ hp => nomatch hp⟩
  | @step drawn s v c h hv hfits hfresh hroom ih =>
    obtain ⟨v', n, m, hv', hforwarding⟩ := ih
    obtain rfl : v' = v := Option.some.inj (hv'.symm.trans hv)
    obtain ⟨k, hk, hlocal⟩ := hforwarding.holds
    have hexact : Forwarding drawn k m v' s.disk := ⟨⟨k, le_rfl, hlocal⟩, hforwarding.checked⟩
    obtain ⟨disk, vault⟩ := s
    obtain rfl : vault = some v' := hv
    rw [← hlocal.lamport] at hexact
    obtain ⟨v'', m', n', hnext, h'⟩ := hexact.command hfits hfresh hroom
    exact ⟨v'', n', m', congrArg Site.vault hnext, h'⟩

/-- **Local forwards.** Where every import takes in forwards that fit, all forwards fit, and the file is rendered. -/
theorem forwards_fit (deviceName : String) (vaultId : Uuid) (vaultKey : Key) (recoveryPub : Bytes) (x : XKey) (ed : EdKey)
    (deviceId : Uuid) {s : Site} (h : CommandRun (created deviceName vaultId vaultKey recoveryPub x ed deviceId) drawn s)
    {v : Vault} (hv : s.vault = some v) :
    (∀ ord, ∀ f ∈ v.forwards ord, SshConfig.validateForwardSpec f.kind f.spec = .ok ()) ∧
      ∀ ord ord', SshConfig.render (v.hosts ord) (v.forwards ord') ≠ none := by
  obtain ⟨v₀, hv₀, h₀⟩ := created_local deviceName vaultId vaultKey recoveryPub x ed deviceId
  obtain ⟨v', n, m, hv', hforwarding⟩ := h.forwarding hv₀ h₀
  obtain rfl : v' = v := Option.some.inj (hv'.symm.trans hv)
  obtain ⟨k, -, hlocal⟩ := hforwarding.holds
  -- A live record is under its name, and what stands there was checked.
  have hall : ∀ ord, ∀ f ∈ v'.forwards ord, f.Valid := by
    intro ord f hf
    obtain ⟨r, ⟨i, hr⟩, hlive, hkind, hread⟩ := SshConfig.mem_list hf
    obtain ⟨⟨kind', name⟩, hkey⟩ := Option.isSome_iff_exists.mp ((hlocal.tame i r hr).named hlive)
    obtain rfl : kind' = .portForward := (Record.key_eq_some.mp hkey).2.1.symm.trans hkind
    obtain ⟨g, hg, hvalid⟩ := hforwarding.checked name r.values (hlocal.keyed.entry _ _ _ hr hkey)
    have hreads : r.portForward = some g := by
      refine PayloadType.read_of_toPayload (T := .portForward) ?_ fun n => ?_
      · intro m hm
        rcases hm with _ | ⟨_, _ | ⟨_, _ | ⟨_, _ | ⟨_, hm⟩⟩⟩⟩
        · trivial
        · trivial
        · trivial
        · trivial
        · cases hm
      · rw [← Record.values_get, hg]
    obtain rfl : g = f := Option.some.inj (hreads.symm.trans hread)
    exact hvalid
  refine ⟨hall, fun ord ord' hnone => ?_⟩
  have hrender := (@SshConfig.render_eq_some_iff (v'.hosts ord) (v'.forwards ord') _).mpr
    ⟨fun host _ f hf => (hall ord' f (SshConfig.mem_attached hf)).renderable, rfl⟩
  rw [hnone] at hrender
  cases hrender

/-! ## An import that panics later -/

namespace Imported

def draw (k : Nat) : Draw := ⟨Desk.anyOrder, 20 + Fin.ofNat _ k, 30 + Fin.ofNat _ k, 0⟩

def forward (spec : String) : PortForward := ⟨"web-ui", .localFwd, spec, "web"⟩

/-- A host, and a forward of it. -/
def exported (spec : String) : Value :=
  .obj [("hosts", .arr [.obj [("alias", .str (.plain "web"))]]),
    ("forwards", .arr [.obj (PayloadType.portForward.toPayload (forward spec)).toList])]

def imported (spec : String) : Site := Desk.desk.obey (.importJson (exported spec) draw)

theorem imported_forward_panics :
    ¬ ∀ (spec : String) (v : Vault), (imported spec).vault = some v →
      (∀ f ∈ v.forwards Desk.anyOrder, SshConfig.validateForwardSpec f.kind f.spec = .ok ()) ∧
        SshConfig.render (v.hosts Desk.anyOrder) (v.forwards Desk.anyOrder) ≠ none := by
  intro h
  have hrender : (imported "8080").vault.map (fun v =>
      SshConfig.render (v.hosts Desk.anyOrder) (v.forwards Desk.anyOrder)) = some none := by decide +kernel
  obtain ⟨v, hv, hnone⟩ := Option.map_eq_some_iff.mp hrender
  exact (h "8080" v hv).2 hnone

theorem imported_run : CommandRun Desk.desk [20, 21] (imported "8080:localhost:80") := by
  refine @CommandRun.step _ [] _ Desk.opened (.importJson (exported "8080:localhost:80") draw) .start rfl ?_
    ⟨by decide +kernel, fun i _ hi => nomatch hi⟩ (by decide +kernel)
  intro f hf _
  have hitem : @Eq (Option PortForward) (PayloadType.portForward.ofValue
      (.obj (PayloadType.portForward.toPayload (forward "8080:localhost:80")).toList)) (some (forward "8080:localhost:80")) := by
    change Record.portForward _ = _
    decide +kernel
  obtain rfl := Option.some.inj (hitem.symm.trans hf)
  have hvalid : SshConfig.validateForwardSpec .localFwd "8080:localhost:80" = .ok () := by decide +kernel
  exact ⟨Or.inl hvalid, trivial⟩

theorem forwards_fit_imported :
    (imported "8080:localhost:80").vault.map (fun v => v.forwards Desk.anyOrder) = some [forward "8080:localhost:80"] ∧
      ∃ v, (imported "8080:localhost:80").vault = some v ∧
        ∀ ord ord', SshConfig.render (v.hosts ord) (v.forwards ord') ≠ none := by
  refine ⟨by decide +kernel, (imported "8080:localhost:80").vault.get (by decide +kernel), (Option.some_get _).symm, ?_⟩
  exact (forwards_fit "desk" 7 (.vault 1 0) (.ed (.recovery 1)) 0 (.device 0) 10 imported_run (Option.some_get _).symm).2

end Imported

end Vault

end SshVault
