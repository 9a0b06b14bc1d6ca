import SshVault.Readable
import SshVault.Vault.KeyedMap

/-!
# Removing a name

`remove` buries the one record that `find` picks. After a sync another record may have the same name.
-/

open Lib

namespace SshVault

namespace Vault

variable {v : Vault} {d : Disk} {kind : Kind} {nameField name : String}

/-- A live record of the kind carries the name. -/
def Carries (v : Vault) (kind : Kind) (nameField name : String) (r : Record) : Prop :=
  Shown v.state r ∧ matchesName kind nameField name r = true

/-- Nothing is found under the name, and nothing that is listed carries it. -/
def Gone (v : Vault) (kind : Kind) (nameField name : String) : Prop :=
  (∀ ord, v.find ord kind nameField name = none) ∧
    ∀ (ord : HashOrder) {α : Type} (payload : Record → Option α), ∀ p ∈ v.list ord kind payload, ∀ r,
      v.state[p.1]? = some r → matchesName kind nameField name r = false

/-- The clock is above every clock in the state. -/
def Above (c : Clock) (state : State) : Prop :=
  ∀ r, Shown state r → (∀ (n : String) (f : Field), r.fields[n]? = some f → f.clock < c) ∧ ∀ t, r.deletedAt = some t → t < c

theorem above_of_toList {c : Clock} {state : State}
    (h : ∀ p ∈ state.toList, (∀ q ∈ p.2.fields.toList, q.2.clock < c) ∧ ∀ t ∈ p.2.deletedAt, t < c) : Above c state := by
  rintro r ⟨i, hr⟩
  obtain ⟨hfields, hdel⟩ := h (i, r) (Std.ExtTreeMap.mem_toList_iff_getElem?_eq_some.mpr hr)
  exact ⟨fun n f hf => hfields (n, f) (Std.ExtTreeMap.mem_toList_iff_getElem?_eq_some.mpr hf), hdel⟩

theorem gone_iff : Gone v kind nameField name ↔ ∀ r, ¬ Carries v kind nameField name r := by
  constructor
  · rintro ⟨hfind, -⟩ r ⟨⟨i, hr⟩, hmatch⟩
    have hmem : r ∈ (⟨id, .refl⟩ : HashOrder).order (v.state.toList.map (·.2)) :=
      List.mem_map.mpr ⟨(i, r), Std.ExtTreeMap.mem_toList_iff_getElem?_eq_some.mpr hr, rfl⟩
    exact absurd hmatch (List.find?_eq_none.mp (hfind ⟨id, .refl⟩) r hmem)
  · intro h
    refine ⟨fun ord => ?_, fun ord α payload p _ r hr => ?_⟩
    · cases hfind : v.find ord kind nameField name with
      | none => rfl
      | some r => exact absurd (find_mem hfind) (h r)
    · exact Bool.eq_false_iff.mpr fun hmatch => h r ⟨⟨p.1, hr⟩, hmatch⟩

theorem matchesName_live {r : Record} (h : matchesName kind nameField name r = true) : live r = true := by
  unfold matchesName at h
  simp only [Bool.and_eq_true, decide_eq_true_eq] at h
  exact h.1.1

theorem merge_tombstone_dead {old tomb : Record} {c : Clock} (hfields : tomb.fields = ∅) (hdel : tomb.deletedAt = some c)
    (habove : (∀ (n : String) (f : Field), old.fields[n]? = some f → f.clock < c) ∧ ∀ t, old.deletedAt = some t → t < c) :
    live (merge old tomb) = false := by
  have hmerged : (merge old tomb).deletedAt = some c := by
    rw [merge_deletedAt, hdel]
    cases ht : old.deletedAt with
    | none => rfl
    | some t => exact max_eq_right (WithBot.coe_le_coe.mpr (habove.2 t ht).le)
  refine Record.not_live_of_deleted ((Record.isDeleted_iff _).mpr ⟨c, hmerged, fun n f hf => ?_⟩)
  rw [merge_fields_get, hfields] at hf
  simp only [Std.ExtTreeMap.getElem?_empty, later_none_right] at hf
  exact habove.1 n f hf

theorem run_remove_ok {ord : HashOrder} {entryId : Uuid} {now : Nat}
    (h : ((v.remove ord kind nameField name entryId now).run d).1.1 = .ok ()) :
    ∃ old tomb, v.find ord kind nameField name = some old ∧ tomb.id = old.id ∧ tomb.fields = ∅ ∧
      tomb.deletedAt = some (v.tick d) ∧
      ((v.remove ord kind nameField name entryId now).run d).1.2.state = mergeInto v.state tomb := by
  unfold remove at h ⊢
  cases hfind : v.find ord kind nameField name with
  | none =>
    rw [hfind] at h
    cases h
  | some old =>
    rw [hfind] at h
    dsimp only at h ⊢
    rw [Prog.run_bind, run_nextClock] at h ⊢
    dsimp only at h ⊢
    cases hkey : v.keyring.currentFor old.shareId with
    | none =>
      unfold Vault.append at h
      dsimp only at h
      rw [hkey] at h
      cases h
    | some key =>
      let tomb : Record :=
        { id := old.id, kind := .tombstone, fields := ∅, deletedAt := some (v.tick d), clock := v.tick d
          deviceId := v.metadata.deviceId, modifiedAt := now, shareId := old.shareId }
      have hrun := run_append (v := v) (d := d) (r := tomb) entryId (v.ticked d) hkey
      refine ⟨old, tomb, rfl, rfl, rfl, rfl, ?_⟩
      exact congrArg (fun out => out.1.2.state) hrun

/-- **Removing.** In every state of every run, a removal that returns under a clock above all others takes the name
away exactly where no second live record carries it. -/
theorem removed_gone_iff (deviceName : String) (vaultId : Uuid) (vaultKey : Key) (recoveryPub : Bytes) (x : XKey) (ed : EdKey)
    (deviceId : Uuid) (actions : List Action) {v : Vault} {d : Disk}
    (hv : ((created deviceName vaultId vaultKey recoveryPub x ed deviceId).after actions).vault = some v)
    (ord : HashOrder) (kind : Kind) (nameField name : String) (entryId : Uuid) (now : Nat)
    (hok : ((v.remove ord kind nameField name entryId now).run d).1.1 = .ok ()) (habove : Above (v.tick d) v.state) :
    Gone ((v.remove ord kind nameField name entryId now).run d).1.2 kind nameField name ↔
      ∀ r r', Carries v kind nameField name r → Carries v kind nameField name r' → r = r' := by
  have hid : ∀ {i : Uuid} {r : Record}, v.state[i]? = some r → r.id = i :=
    Site.after_keyed deviceName vaultId vaultKey recoveryPub x ed deviceId actions hv
  obtain ⟨old, tomb, hfind, htomb, hfields, hdel, hstate⟩ := run_remove_ok hok
  obtain ⟨⟨i, hold⟩, hmatch⟩ := find_mem hfind
  obtain rfl := hid hold
  have hdead := merge_tombstone_dead hfields hdel (habove old ⟨old.id, hold⟩)
  have hafter : ∀ j : Uuid, ((v.remove ord kind nameField name entryId now).run d).1.2.state[j]? =
      if old.id = j then some (merge old tomb) else v.state[j]? := by
    intro j
    rw [hstate, mergeInto_get, htomb]
    by_cases hj : old.id = j
    · subst hj
      rw [if_pos rfl, if_pos rfl, hold]
      rfl
    · rw [if_neg hj, if_neg hj]
  -- What still carries the name is what carried it before, less the record found.
  have hcarries : ∀ r, Carries ((v.remove ord kind nameField name entryId now).run d).1.2 kind nameField name r ↔
      Carries v kind nameField name r ∧ r ≠ old := by
    intro r
    constructor
    · rintro ⟨⟨j, hr⟩, hr'⟩
      rw [hafter] at hr
      by_cases hj : old.id = j
      · rw [if_pos hj] at hr
        obtain rfl := Option.some.inj hr
        rw [matchesName_live hr'] at hdead
        cases hdead
      · rw [if_neg hj] at hr
        refine ⟨⟨⟨j, hr⟩, hr'⟩, ?_⟩
        rintro rfl
        exact hj (hid hr)
    · rintro ⟨⟨⟨j, hr⟩, hr'⟩, hne⟩
      refine ⟨⟨j, ?_⟩, hr'⟩
      rw [hafter, if_neg, hr]
      rintro rfl
      exact hne (Option.some.inj (hr.symm.trans hold))
  rw [gone_iff]
  constructor
  · intro hgone r r' hr hr'
    have heq : ∀ s, Carries v kind nameField name s → s = old := fun s hs =>
      Decidable.byContradiction fun hne => hgone s ((hcarries s).mpr ⟨hs, hne⟩)
    rw [heq r hr, heq r' hr']
  · intro hunique r hr
    obtain ⟨hbefore, hne⟩ := (hcarries r).mp hr
    exact hne (hunique r old hbefore ⟨⟨old.id, hold⟩, hmatch⟩)

/-! ## Two devices, one name -/

namespace Twice

def desk : Site := created "desk" 7 (.vault 1 0) (.ed (.recovery 1)) 0 (.device 0) 10

def anyOrder : HashOrder := ⟨fun l => l, .refl⟩

def web : Payload := (∅ : Payload).insert "alias" (.str (.plain "web"))

def addWeb : Action := .write (.addIn anyOrder .host "alias" "web" web nil 20 30 0)

/-- The other device added a host of that name before it synced. -/
def receiveWeb : Action :=
  .applyRemoteEntry (40, Crypto.sealBlob (.vault 1 0) (.record
    { id := 21, kind := .host, fields := fieldsFromPayload web ⟨1, 11⟩, deletedAt := none, clock := ⟨1, 11⟩, deviceId := 11
      modifiedAt := 0, shareId := nil }) 40)

def added : Site := desk.next addWeb

def synced : Site := added.next receiveWeb

def own : Vault := added.vault.get (by decide +kernel)

def shared : Vault := synced.vault.get (by decide +kernel)

def removal (v : Vault) (s : Site) : (Except VaultError Unit × Vault) × Disk :=
  (v.remove anyOrder .host "alias" "web" 31 0).run s.disk

theorem removed_still_found :
    ¬ ((removal shared synced).1.1 = .ok () → Above (shared.tick synced.disk) shared.state →
      Gone (removal shared synced).1.2 .host "alias" "web") := by
  intro h
  have hok : (removal shared synced).1.1 = .ok () := by decide +kernel
  have habove : Above (shared.tick synced.disk) shared.state := above_of_toList (by decide +kernel)
  have hfound : ((removal shared synced).1.2.find anyOrder .host "alias" "web").isSome = true := by decide +kernel
  rw [(h hok habove).1 anyOrder] at hfound
  cases hfound

/-- Before the sync there is one record, and it goes. -/
theorem removed_gone_iff_own : Gone (removal own added).1.2 .host "alias" "web" := by
  refine (removed_gone_iff "desk" 7 (.vault 1 0) (.ed (.recovery 1)) 0 (.device 0) 10 [addWeb] (Option.some_get _).symm
    anyOrder .host "alias" "web" 31 0 (by decide +kernel) (above_of_toList (by decide +kernel))).mpr ?_
  have hone : own.state.toList.map (·.1) = [20] := by decide +kernel
  have hkey : ∀ {i : Uuid} {r : Record}, own.state[i]? = some r → i = 20 := by
    intro i r hr
    have hmem := List.mem_map_of_mem (f := (·.1)) (Std.ExtTreeMap.mem_toList_iff_getElem?_eq_some.mpr hr)
    rw [hone] at hmem
    exact List.mem_singleton.mp hmem
  rintro r r' ⟨⟨i, hr⟩, -⟩ ⟨⟨i', hr'⟩, -⟩
  obtain rfl := hkey hr
  obtain rfl := hkey hr'
  exact Option.some.inj (hr.symm.trans hr')

end Twice

end Vault

end SshVault
