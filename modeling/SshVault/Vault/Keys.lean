import SshVault.Vault.Writes

/-!
# Devices through operations

Which operations change the keyring of a device, and to what. Nothing changes what names it.
-/

open Lib

namespace SshVault

namespace Keyring

variable (kr : Keyring) (id : Uuid)

@[simp] theorem setShareKeys_ed (keys : List Key) : (kr.setShareKeys id keys).ed25519Secret = kr.ed25519Secret := by
  unfold setShareKeys
  split <;> rfl

@[simp] theorem setShareKeys_x (keys : List Key) : (kr.setShareKeys id keys).x25519Secret = kr.x25519Secret := by
  unfold setShareKeys
  split <;> rfl

@[simp] theorem pushShareKey_ed (key : Key) : (kr.pushShareKey id key).ed25519Secret = kr.ed25519Secret := by
  unfold pushShareKey
  split <;> rfl

@[simp] theorem pushShareKey_x (key : Key) : (kr.pushShareKey id key).x25519Secret = kr.x25519Secret := by
  unfold pushShareKey
  split <;> rfl

end Keyring

/-! ## Running the key operations -/

namespace Vault

variable {v : Vault} {d : Disk}

theorem run_rotate {phrase : Phrase} {key : Key} (h : Crypto.vaultKeyAtEpoch phrase (v.epoch + 1) = .ok key) :
    (v.rotate phrase).run d = ((.ok (v.epoch + 1), { v with keyring := v.keyring.pushShareKey nil key }),
      { d with keyring := v.keyring.pushShareKey nil key }) := by
  unfold rotate
  rw [h]
  rfl

theorem run_rotate_error {phrase : Phrase} {e : CryptoError} (h : Crypto.vaultKeyAtEpoch phrase (v.epoch + 1) = .error e) :
    (v.rotate phrase).run d = ((.error (.crypto e), v), d) := by
  unfold rotate
  rw [h]
  rfl

/-- The next random key of a share. -/
def nextRandom (v : Vault) (share : Uuid) (n : Nat) : Keyring :=
  v.keyring.pushShareKey share (.random share (v.keyring.keysOf share).length n)

theorem run_rotateShare {share : Uuid} (n : Nat) (h : v.keyring.hasShare share = true) :
    (v.rotateShare share n).run d = ((.ok ((v.nextRandom share n).shareEpoch share),
      { v with keyring := v.nextRandom share n }), { d with keyring := v.nextRandom share n }) := by
  unfold rotateShare
  rw [if_neg (not_not.mpr h)]
  rfl

theorem run_rotateShare_error {share : Uuid} (n : Nat) (h : v.keyring.hasShare share = false) :
    (v.rotateShare share n).run d = ((.error (.corrupt "not a member of this share"), v), d) := by
  unfold rotateShare
  rw [if_pos (by simp [h])]
  rfl

theorem splitKeyList_eq {list : KeyBytes} {keys : List Key} (h : splitKeyList list = .ok keys) : keys = list.keys := by
  unfold splitKeyList at h
  split at h
  · cases h
  · exact (Except.ok.inj h).symm

theorem splitKeyList_ok {list : KeyBytes} {keys : List Key} (h : splitKeyList list = .ok keys) : keys ≠ [] := by
  unfold splitKeyList at h
  split at h
  · cases h
  · rename_i hnot
    rintro rfl
    have hkeys : list.keys = [] := Except.ok.inj h
    simp [hkeys] at hnot

/-- Whether a key-list is news to a device. -/
def Newer (v : Vault) (share : Uuid) (keys : List Key) : Prop :=
  v.keyring.hasShare share = true → (v.keyring.keysOf share).length < keys.length

theorem Newer.longer {share : Uuid} {keys : List Key} (h : v.Newer share keys) (hne : keys ≠ []) :
    (v.keyring.keysOf share).length < keys.length := by
  by_cases hheld : v.keyring.hasShare share = true
  · exact h hheld
  · rw [Keyring.keysOf_of_not_hasShare hheld]
    exact List.length_pos_of_ne_nil hne

theorem run_absorbShareKey {share : Uuid} {list : KeyBytes} {keys : List Key} (h : splitKeyList list = .ok keys)
    (hnew : v.Newer share keys) :
    (v.absorbShareKey share list).run d = ((.ok (), { v with keyring := v.keyring.setShareKeys share keys }),
      { d with keyring := v.keyring.setShareKeys share keys }) := by
  unfold absorbShareKey
  rw [h]
  dsimp only
  rw [if_neg (by rintro ⟨hhas, hle⟩; exact absurd (hnew hhas) (Nat.not_lt.mpr hle))]
  rfl

theorem run_absorbShareKey_old {share : Uuid} {list : KeyBytes} {keys : List Key} (h : splitKeyList list = .ok keys)
    (hold : ¬ v.Newer share keys) : (v.absorbShareKey share list).run d = ((.ok (), v), d) := by
  unfold absorbShareKey
  rw [h]
  dsimp only
  rw [if_pos (by simpa [Newer] using hold)]
  rfl

theorem run_absorbShareKey_error {share : Uuid} {list : KeyBytes} {e : VaultError} (h : splitKeyList list = .error e) :
    (v.absorbShareKey share list).run d = ((.error e, v), d) := by
  unfold absorbShareKey
  rw [h]
  rfl

/-- A call that returns `Ok` takes the list in, or finds nothing newer in it. -/
theorem absorbShareKey_ok {share : Uuid} {list : KeyBytes}
    (hok : ((v.absorbShareKey share list).run d).1.1 = .ok ()) :
    v.Newer share list.keys ∧
        ((v.absorbShareKey share list).run d).1.2.keyring = v.keyring.setShareKeys share list.keys ∨
      ¬ v.Newer share list.keys ∧ ((v.absorbShareKey share list).run d).1.2.keyring = v.keyring := by
  cases hs : splitKeyList list with
  | error e =>
    rw [run_absorbShareKey_error hs] at hok
    cases hok
  | ok keys =>
    obtain rfl := splitKeyList_eq hs
    by_cases hnew : v.Newer share list.keys
    · rw [run_absorbShareKey hs hnew]
      exact Or.inl ⟨hnew, rfl⟩
    · rw [run_absorbShareKey_old hs hnew]
      exact Or.inr ⟨hnew, rfl⟩

end Vault

/-! ## Devices -/

/-- What names a device, and does not change. -/
structure Identity where
  vaultId : Uuid
  deviceName : String
  x25519Pub : XKey
  ed25519Pub : EdKey
  recoveryPub : Bytes
  x25519Secret : XKey
  ed25519Secret : EdKey

namespace Device

def self (d : Device) : Identity :=
  let m := d.vault.metadata
  ⟨m.vaultId, m.deviceName, m.x25519Pub, m.ed25519Pub, m.recoveryPub, d.vault.keyring.x25519Secret,
    d.vault.keyring.ed25519Secret⟩

/-- `Device.perform` for an operation that cannot fail. -/
def update (d : Device) (op : Vault → Prog Disk Vault) : Device :=
  let (v, disk) := (op d.vault).run d.disk
  ⟨disk, v⟩

variable (d : Device)

theorem write_kept (write : Write) :
    (d.perform write.prog).self = d.self ∧ (d.perform write.prog).vault.keyring = d.vault.keyring := by
  have h := (Vault.write_spec (v := d.vault) (d := d.disk) write).run
  unfold perform
  generalize (write.prog d.vault).run d.disk = out at h ⊢
  obtain ⟨⟨res, v⟩, disk⟩ := out
  have hkept : ∀ v disk, Vault.LocalWrite d.vault d.disk v disk →
      Device.self ⟨disk, v⟩ = d.self ∧ v.keyring = d.vault.keyring := by
    intro v disk hw
    cases hw <;> exact ⟨rfl, rfl⟩
  exact hkept v disk h

theorem addIn_kept (ord : HashOrder) (kind : Kind) (nameField name : String) (payload : Payload)
    (share recordId entryId : Uuid) (now : Nat) :
    let d' := d.perform fun v => v.addIn ord kind nameField name payload share recordId entryId now
    d'.self = d.self ∧ d'.vault.keyring = d.vault.keyring := by
  have h := d.write_kept (.addIn ord kind nameField name payload share recordId entryId now)
  unfold perform Write.prog at h
  simp only [Prog.run_bind, Prog.run_pure] at h
  exact h

/-- The keyring is another. -/
def rekey (d : Device) (kr : Keyring) : Device := ⟨{ d.disk with keyring := kr }, { d.vault with keyring := kr }⟩

@[simp] theorem rekey_keyring (kr : Keyring) : (d.rekey kr).vault.keyring = kr := rfl

variable {d} in
theorem rekey_self {kr : Keyring} (hx : kr.x25519Secret = d.vault.keyring.x25519Secret)
    (hed : kr.ed25519Secret = d.vault.keyring.ed25519Secret) : (d.rekey kr).self = d.self := by
  unfold rekey self
  dsimp only
  rw [hx, hed]

theorem perform_rotate {phrase : Phrase} {key : Key} (h : Crypto.vaultKeyAtEpoch phrase (d.vault.epoch + 1) = .ok key) :
    (d.perform (·.rotate phrase)).vault.keyring = d.vault.keyring.pushShareKey nil key := by
  unfold perform
  rw [Vault.run_rotate h]

theorem update_createShare (share : Uuid) (n : Nat) :
    (d.update (·.createShare share n)).self = d.self ∧
      (d.update (·.createShare share n)).vault.keyring = d.vault.nextRandom share n := by
  refine ⟨?_, rfl⟩
  change (d.rekey (d.vault.nextRandom share n)).self = d.self
  exact rekey_self (by simp [Vault.nextRandom]) (by simp [Vault.nextRandom])

theorem perform_rotateShare {share : Uuid} (n : Nat) (h : d.vault.keyring.hasShare share = true) :
    (d.perform (·.rotateShare share n)).vault.keyring = d.vault.nextRandom share n := by
  unfold perform
  rw [Vault.run_rotateShare n h]

/-- A key-list is taken in as a whole, or not at all. -/
theorem perform_absorbShareKey (share : Uuid) (list : KeyBytes) :
    d.perform (·.absorbShareKey share list) = d ∨ ∃ keys, splitKeyList list = .ok keys ∧ d.vault.Newer share keys ∧
      d.perform (·.absorbShareKey share list) = d.rekey (d.vault.keyring.setShareKeys share keys) := by
  unfold perform
  cases h : splitKeyList list with
  | error e => rw [Vault.run_absorbShareKey_error h]; exact Or.inl rfl
  | ok keys =>
    by_cases hnew : d.vault.Newer share keys
    · rw [Vault.run_absorbShareKey h hnew]
      exact Or.inr ⟨keys, rfl, hnew, rfl⟩
    · rw [Vault.run_absorbShareKey_old h hnew]
      exact Or.inl rfl

theorem applyRemoteEntry_kept (entryId : Uuid) (blob : Bytes) :
    (d.perform (·.applyRemoteEntry entryId blob)).self = d.self ∧
      (d.perform (·.applyRemoteEntry entryId blob)).vault.keyring = d.vault.keyring := by
  unfold perform
  cases h : d.vault.keyring.openEntry entryId blob with
  | error e => rw [Vault.run_applyRemoteEntry_error h]; exact ⟨rfl, rfl⟩
  | ok o => rw [Vault.run_applyRemoteEntry h]; exact ⟨rfl, rfl⟩

end Device

end SshVault
