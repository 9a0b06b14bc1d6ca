import SshVault.Readable
import SshVault.Vault.KeyedMap

/-!
# What an edit leaves

An edit writes the fields of its payload, and merging keeps the fields that it does not write. A member that
the payload leaves out is the one that the record had.
-/

open Lib

namespace SshVault

/-! ## Merged members -/

variable {T : PayloadType} {x : T.Data} {old r : Record} {c : Clock}

theorem PayloadType.reads_merge_edit (hx : T.Valid x) (hr : r.fields = Vault.editFields (T.toPayload x) old.fields c)
    (hlt : ∀ (n : String) (f : Field), old.fields[n]? = some f → f.clock < c) :
    T.read (merge old r) = some x ↔ ∀ m ∈ T.members, m.writes x = none → m.Reads old x := by
  rw [T.reads_iff]
  refine forall₂_congr fun m hm => ?_
  unfold Member.Reads
  rw [Record.value_merge_edit hr hlt, toPayload, Member.serialize_get T.names hm]
  exact m.codec.read_over (hx m hm)

theorem live_merge_edit (hlive : live old = true) (hkind : r.kind = old.kind) (hdeleted : r.deletedAt = old.deletedAt) :
    live (merge old r) = true := by
  unfold live at hlive ⊢
  simp only [Bool.and_eq_true, decide_eq_true_eq, Bool.not_eq_true', merge_kind, hkind, max_self] at hlive ⊢
  refine ⟨?_, hlive.2⟩
  rw [← Bool.not_eq_true] at hlive ⊢
  intro hdel
  obtain ⟨d, hd, hall⟩ := (Record.isDeleted_iff _).mp hdel
  have hself : later id old.deletedAt old.deletedAt = old.deletedAt := by
    cases old.deletedAt <;> simp [later]
  rw [merge_deletedAt, hdeleted, ← later_id_option, hself] at hd
  refine hlive.1 ((Record.isDeleted_iff _).mpr ⟨d, hd, fun n f hf => ?_⟩)
  -- The merged field is at least as late as the old one.
  cases hm : (merge old r).fields[n]? with
  | none =>
    rw [merge_fields_get, later_eq_none, hf] at hm
    cases hm.1
  | some f' =>
    have hlater := hm
    rw [merge_fields_get] at hlater
    exact lt_of_le_of_lt ((later_eq_some hlater).2.1 f hf) (hall n f' hm)

/-! ## Edits of a vault -/

namespace Vault

theorem Site.after_snoc (s : Site) (actions : List Action) (a : Action) :
    s.after (actions ++ [a]) = (s.after actions).next a := by
  unfold Site.after
  rw [List.foldl_append]
  rfl

/-- **Edits.** After an edit with a clock above those of the record, the record reads as the payload exactly when
every member that the payload leaves out was already unset. -/
theorem edit_shows_payload_iff (deviceName : String) (vaultId : Uuid) (vaultKey : Key) (recoveryPub : Bytes) (x : XKey)
    (ed : EdKey) (deviceId : Uuid) (actions : List Action) {s : Site}
    (hs : s = (created deviceName vaultId vaultKey recoveryPub x ed deviceId).after actions) {v : Vault}
    (hv : s.vault = some v) {T : PayloadType} {p : T.Data} (hp : T.Valid p) {ord : HashOrder}
    {nameField name : String} {entryId : Uuid} {now : Nat} {old : Record} (hfind : v.find ord T.kind nameField name = some old)
    (hclock : ∀ (n : String) (f : Field), old.fields[n]? = some f → f.clock < (v.nextClock.run s.disk).1.1) {v' : Vault} {d' : Disk}
    (hedit : (v.edit ord T.kind nameField name (T.toPayload p) entryId now).run s.disk = ((.ok (), v'), d')) :
    ∃ r, v'.state[old.id]? = some r ∧ live r = true ∧ r.kind = T.kind ∧
      (∀ ord' name' found, v'.find ord' T.kind nameField name' = some found → found.id = old.id → found = r) ∧
      (T.read r = some p ↔ ∀ m ∈ T.members, m.writes p = none → m.Reads old p) := by
  -- The edit is one more action of the run.
  have hkeyed : ∀ (i : Uuid) (r : Record), v'.state[i]? = some r → r.id = i := by
    have hafter : (s.next (.write (.edit ord T.kind nameField name (T.toPayload p) entryId now))).vault = some v' := by
      unfold Site.next Action.prog
      rw [hv]
      dsimp only
      rw [Prog.run_bind]
      change some ((v.edit ord T.kind nameField name (T.toPayload p) entryId now).run s.disk).1.2 = some v'
      rw [hedit]
    have hlonger := hs ▸ hafter
    rw [← Site.after_snoc] at hlonger
    exact fun i r hr => Site.after_keyed _ _ _ _ _ _ _ _ hlonger hr
  subst hs
  obtain ⟨⟨i, hold⟩, hmatch⟩ := find_mem hfind
  obtain rfl := Site.after_keyed _ _ _ _ _ _ _ _ hv hold
  unfold matchesName at hmatch
  simp only [Bool.and_eq_true, decide_eq_true_eq] at hmatch
  obtain ⟨r, key, hid, hkind, hdeleted, -, hfields, -, hrun⟩ := run_edit_ok hfind
    (congrArg (fun out => out.1.1) hedit)
  have hstate : v'.state[old.id]? = some (merge old r) := by
    rw [hedit] at hrun
    obtain ⟨hresult, -⟩ := Prod.mk.inj hrun
    obtain ⟨-, rfl⟩ := Prod.mk.inj hresult
    change (mergeInto v.state r)[old.id]? = _
    rw [mergeInto_get, if_pos hid, hold]
    rfl
  refine ⟨_, hstate, live_merge_edit hmatch.1.1 (hkind.trans hmatch.1.2.symm) hdeleted, ?_, ?_,
    PayloadType.reads_merge_edit hp hfields hclock⟩
  · rw [merge_kind, hkind, hmatch.1.2, max_self]
  · intro ord' name' found hfound hid
    obtain ⟨⟨j, hj⟩, -⟩ := find_mem hfound
    obtain rfl := (hkeyed j found hj).symm.trans hid
    exact Option.some.inj (hj.symm.trans hstate)

/-! ### A key without a fingerprint -/

namespace ClearedFingerprint

def desk : Site := created "desk" 7 (.vault 1 0) (.ed (.recovery 1)) 0 (.device 0) 10

def oldKey : KeyMeta := ⟨"work", "ssh-ed25519 AAAA", some "SHA256:abcd", []⟩

/-- The new public key has no fingerprint. -/
def newKey : KeyMeta := ⟨"work", "sk-key", none, []⟩

def anyOrder : HashOrder := ⟨id, .refl⟩

def addKey : Action := .write (.addIn anyOrder .keyMeta "name" "work" (PayloadType.keyMeta.toPayload oldKey) nil 20 30 0)

def keyed : Site := desk.after [addKey]

def before : Vault := keyed.vault.get (by decide +kernel)

def editKey : (Except VaultError Unit × Vault) × Disk :=
  (before.edit anyOrder .keyMeta "name" "work" (PayloadType.keyMeta.toPayload newKey) 31 0).run keyed.disk

def found : Record := (before.find anyOrder .keyMeta "name" "work").get (by decide +kernel)

theorem newKey_valid : PayloadType.keyMeta.Valid newKey := by
  unfold PayloadType.Valid PayloadType.keyMeta
  simp only [List.forall_mem_cons, List.not_mem_nil, false_imp_iff, implies_true, and_true]
  exact ⟨trivial, trivial, fun _ _ => trivial, trivial⟩

theorem found_clocks (n : String) (f : Field) (hf : found.fields[n]? = some f) :
    f.clock < (before.nextClock.run keyed.disk).1.1 := by
  have hall : ∀ p ∈ found.fields.toList, p.2.clock < (before.nextClock.run keyed.disk).1.1 := by decide +kernel
  exact hall (n, f) (Std.ExtTreeMap.mem_toList_iff_getElem?_eq_some.mpr hf)

theorem editKey_ok : editKey.1.1 = .ok () := by decide +kernel

theorem edit_shows_payload_key :
    ∃ r, editKey.1.2.state[found.id]? = some r ∧ live r = true ∧ r.kind = .keyMeta ∧
      (∀ ord' name' found', editKey.1.2.find ord' .keyMeta "name" name' = some found' → found'.id = found.id → found' = r) ∧
      (PayloadType.keyMeta.read r = some newKey ↔
        ∀ m ∈ PayloadType.keyMeta.members, m.writes newKey = none → m.Reads found newKey) :=
  edit_shows_payload_iff "desk" 7 (.vault 1 0) (.ed (.recovery 1)) 0 (.device 0) 10 [addKey] rfl (Option.some_get _).symm
    newKey_valid (Option.some_get _).symm found_clocks (Prod.ext (Prod.ext editKey_ok rfl) rfl)

/-- The old fingerprint stays with the new public key. -/
theorem cleared_fingerprint_stays :
    ¬ ∀ (T : PayloadType) (p : T.Data) (actions : List Action) (v : Vault) (ord : HashOrder) (nameField name : String)
      (entryId : Uuid) (now : Nat) (old : Record) (v' : Vault) (d' : Disk), T ∈ payloadTypes → T.Valid p →
      (desk.after actions).vault = some v → v.find ord T.kind nameField name = some old →
      (∀ (n : String) (f : Field), old.fields[n]? = some f → f.clock < (v.nextClock.run (desk.after actions).disk).1.1) →
      (v.edit ord T.kind nameField name (T.toPayload p) entryId now).run (desk.after actions).disk = ((.ok (), v'), d') →
      ∃ r, v'.state[old.id]? = some r ∧ T.read r = some p := by
  intro h
  obtain ⟨r, hr, hread⟩ := h .keyMeta newKey [addKey] before anyOrder "name" "work" 31 0 found editKey.1.2 editKey.2
    (by simp [payloadTypes]) newKey_valid (Option.some_get _).symm (Option.some_get _).symm found_clocks
    (Prod.ext (Prod.ext editKey_ok rfl) rfl)
  have hshown : editKey.1.2.state[found.id]?.map Record.keyMeta =
      some (some ⟨"work", "sk-key", some "SHA256:abcd", []⟩) := by decide +kernel
  rw [hr] at hshown
  have hkept : PayloadType.keyMeta.read r = some ⟨"work", "sk-key", some "SHA256:abcd", []⟩ := Option.some.inj hshown
  have heq : newKey = ⟨"work", "sk-key", some "SHA256:abcd", []⟩ := Option.some.inj (hread.symm.trans hkept)
  exact absurd heq (by decide)

end ClearedFingerprint

end Vault

end SshVault
