import SshVault.Vault.Tags

/-!
# What a received key-list costs

A longer key-list takes the place of the one that a device holds. The device still opens the entries under the
keys that it finds in the new list or in another share.
-/

open Lib

namespace SshVault

namespace Vault

/-- `kr'` opens the entries of a log that `kr` opens, to the same records. -/
def StillOpens (log : List Frame) (kr kr' : Keyring) : Prop :=
  ∀ f ∈ log, ∀ r, kr.openEntry f.1 f.2 = .ok (some r) → kr'.openEntry f.1 f.2 = .ok (some r)

theorem stillOpens_iff {log : List Frame} {kr kr' : Keyring} :
    StillOpens log kr kr' ↔ ∀ f ∈ log, ∀ k r, Holds f k r → k ∈ kr.allKeys → k ∈ kr'.allKeys := by
  constructor
  · intro h f hf k r hholds hk
    obtain ⟨k', hk', hblob⟩ := Keyring.openEntry_eq_some.mp (h f hf r (Keyring.openEntry_eq_some.mpr ⟨k, hk, hholds⟩))
    have hsame : k = k' := congrArg Sealed.key (Bytes.sealed.inj (hholds.symm.trans hblob))
    exact hsame ▸ hk'
  · intro h f hf r hopen
    obtain ⟨k, hk, hblob⟩ := Keyring.openEntry_eq_some.mp hopen
    exact Keyring.openEntry_eq_some.mpr ⟨k, h f hf k r hblob hk, hblob⟩

/-- What a call that returns `Ok` keeps: the entries whose keys the received list brings back, and the old
key-list where the received one has all of it. -/
theorem absorbShareKey_keeps_iff (v : Vault) (d : Disk) (share : Uuid) (list : KeyBytes)
    (hok : ((v.absorbShareKey share list).run d).1.1 = .ok ()) :
    v.absorbVaultKeyList list = v.absorbShareKey nil list ∧
    (StillOpens d.log v.keyring ((v.absorbShareKey share list).run d).1.2.keyring ↔
      (v.Newer share list.keys → ∀ f ∈ d.log, ∀ k r, Holds f k r → k ∈ v.keyring.keysOf share →
        k ∈ list.keys ∨ k ∈ v.keyring.others share)) ∧
    (v.keyring.keysOf share ⊆ ((v.absorbShareKey share list).run d).1.2.keyring.keysOf share ↔
      (v.Newer share list.keys → v.keyring.keysOf share ⊆ list.keys)) := by
  refine ⟨rfl, ?_⟩
  rcases absorbShareKey_ok hok with ⟨hnew, hkr⟩ | ⟨hold, hkr⟩
  · rw [hkr, stillOpens_iff]
    simp only [hnew, true_imp_iff, Keyring.keysOf_setShareKeys, if_true, and_true]
    simp only [Keyring.mem_allKeys_setShareKeys]
    constructor
    · intro h f hf k r hholds hk
      exact h f hf k r hholds (Keyring.keysOf_subset hk)
    · intro h f hf k r hholds hk
      rcases (Keyring.mem_allKeys_iff share).mp hk with hk | hk
      · exact h f hf k r hholds hk
      · exact Or.inr hk
  · rw [hkr]
    simp only [hold, false_imp_iff, iff_true]
    exact ⟨fun _ _ _ h => h, fun _ h => h⟩

/-! ## A rotation that did not get through -/

namespace LostRotation

/-- The device has rotated share 5 alone, and has a record under its own key. The others have rotated twice. -/
def own : Keyring := ⟨[⟨nil, [.vault 1 0]⟩, ⟨5, [.random 5 0 0, .random 5 1 1]⟩], [], none, 0, .device 0⟩

def theirs : KeyBytes := { keys := [.random 5 0 0, .random 5 1 2, .random 5 2 3] }

def note : Record :=
  { id := 20, kind := .snippet, fields := ∅, deletedAt := none, clock := ⟨1, 0⟩, deviceId := 10, modifiedAt := 0
    shareId := 5 }

def disk : Disk :=
  { (created "desk" 7 (.vault 1 0) (.ed (.recovery 1)) 0 (.device 0) 10).disk with
    keyring := own, log := [(30, Crypto.sealBlob (.random 5 1 1) (.record note) 30)] }

def vault : Vault := ⟨disk.metadata, own, ∅⟩

theorem holds_note : Holds (30, Crypto.sealBlob (.random 5 1 1) (.record note) 30) (.random 5 1 1) note := rfl

/-- The record does not open any more. -/
theorem absorbing_loses_note : ¬ ∀ (v : Vault) (d : Disk) (share : Uuid) (list : KeyBytes),
    ((v.absorbShareKey share list).run d).1.1 = .ok () →
      StillOpens d.log v.keyring ((v.absorbShareKey share list).run d).1.2.keyring := by
  intro h
  have hkeeps := stillOpens_iff.mp (h vault disk 5 theirs (by decide +kernel)) _ (List.mem_singleton_self _) _ _ holds_note
  exact absurd (hkeeps (by decide +kernel)) (by decide +kernel)

/-- A list that goes on from the device's own one keeps it. -/
theorem absorbShareKey_keeps_extension :
    StillOpens disk.log own
      ((vault.absorbShareKey 5 { keys := [.random 5 0 0, .random 5 1 1, .random 5 2 3] }).run disk).1.2.keyring :=
  (absorbShareKey_keeps_iff vault disk 5 _ (by decide +kernel)).2.1.mpr fun _ _ _ _ _ _ hk =>
    Or.inl (List.mem_append_left [Key.random 5 2 3] (show _ ∈ [Key.random 5 0 0, .random 5 1 1] from hk))

end LostRotation

end Vault

end SshVault
