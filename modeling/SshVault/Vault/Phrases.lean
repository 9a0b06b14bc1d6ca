import SshVault.Vault.Incremental
import SshVault.Rendering

/-!
# The phrase and the default share

The keys of the default share come from the recovery phrase, one for each epoch. A rotation derives the next one
from the phrase that is typed, whatever phrase that is.
-/

open Lib

namespace SshVault

/-! ## Derived keys -/

namespace Crypto

/-- HKDF info string for an epoch's vault key. -/
def vaultKeyInfo (epoch : Nat) : String :=
  if epoch = 0 then "sshvault/v1/vault-key" else s!"sshvault/v1/vault-key/{epoch}"

theorem vaultKeyInfo_pos {epoch : Nat} (h : epoch ≠ 0) : vaultKeyInfo epoch = "sshvault/v1/vault-key/" ++ epoch.repr := by
  rw [vaultKeyInfo, if_neg h]
  simp [toString]

theorem vaultKeyInfo_zero_ne {epoch : Nat} (h : epoch ≠ 0) : vaultKeyInfo 0 ≠ vaultKeyInfo epoch := by
  rw [vaultKeyInfo_pos h]
  intro heq
  have hlength := congrArg String.length heq
  rw [String.length_append] at hlength
  have hshort : (vaultKeyInfo 0).length = 21 := by decide +kernel
  have hlong : "sshvault/v1/vault-key/".length = 22 := by decide +kernel
  omega

theorem vaultKeyInfo_injective : Function.Injective vaultKeyInfo := by
  intro i j h
  by_cases hi : i = 0 <;> by_cases hj : j = 0
  · rw [hi, hj]
  · rw [hi] at h
    exact absurd h (vaultKeyInfo_zero_ne hj)
  · rw [hj] at h
    exact absurd h.symm (vaultKeyInfo_zero_ne hi)
  · rw [vaultKeyInfo_pos hi, vaultKeyInfo_pos hj, String.append_right_inj] at h
    exact Nat.repr_injective h

end Crypto

/-- The bytes of a derived key, with this HKDF. -/
def Key.bytes {β : Type} (hkdf : Seed → String → β) : Key → Option β
  | .vault seed epoch => some (hkdf seed (Crypto.vaultKeyInfo epoch))
  | .random _ _ _ => none

namespace Vault

/-- Key number `i` is the one that the phrase gives at epoch `i`. -/
def FromPhrase (phrase : Phrase) (keys : List Key) : Prop :=
  ∀ i k, keys[i]? = some k → Crypto.vaultKeyAtEpoch phrase i = .ok k

variable {phrase : Phrase} {keys : List Key}

theorem FromPhrase.push {key : Key} (h : FromPhrase phrase keys) (hkey : Crypto.vaultKeyAtEpoch phrase keys.length = .ok key) :
    FromPhrase phrase (keys ++ [key]) := by
  intro i k hk
  rw [List.getElem?_append] at hk
  split at hk
  · exact h i k hk
  · rename_i hlt
    obtain ⟨hi, rfl⟩ := List.getElem?_eq_some_iff.mp hk
    rw [List.length_singleton] at hi
    obtain rfl : i = keys.length := by omega
    simpa using hkey

theorem FromPhrase.nodup {seed : Seed} {β : Type} {hkdf : Seed → String → β}
    (hinj : ∀ s i s' i', hkdf s i = hkdf s' i' → s = s' ∧ i = i') (h : FromPhrase (.mnemonic seed) keys) :
    (keys.map (Key.bytes hkdf)).Nodup := by
  rw [List.nodup_iff_getElem?_ne_getElem?]
  intro i j hij hj heq
  rw [List.length_map] at hj
  have hkey : ∀ n (hn : n < keys.length), (keys.map (Key.bytes hkdf))[n]? = some (some (hkdf seed (Crypto.vaultKeyInfo n))) := by
    intro n hn
    have hk := h n keys[n] (List.getElem?_eq_getElem hn)
    rw [List.getElem?_map, List.getElem?_eq_getElem hn, ← Except.ok.inj hk]
    rfl
  rw [hkey i (hij.trans hj), hkey j hj] at heq
  obtain ⟨-, hinfo⟩ := hinj _ _ _ _ (Option.some.inj (Option.some.inj heq))
  exact hij.ne (Crypto.vaultKeyInfo_injective hinfo)

/-! ## Operations -/

/-- A phrase that derives this recovery key. -/
def Derives (recovery : EdKey) (phrase : Phrase) : Prop :=
  ∃ keys, Crypto.keysFromPhrase phrase = .ok keys ∧ keys.recoverySigning = recovery

/-- Rotations are asked for with a phrase that derives the recovery key or with none at all, and only for named
shares without one. Key-lists that come in for the default share are the vault's own. -/
def Action.Genuine (phrase : Phrase) (recovery : EdKey) : Action → Prop
  | .rotate typed => Derives recovery typed ∨ ∃ e, Crypto.keysFromPhrase typed = .error e
  | .createShare id _ => id ≠ nil
  | .rotateShare share _ => share ≠ nil
  | .absorbShareKey share list => share = nil → FromPhrase phrase list.keys
  | .setVaultKey list => FromPhrase phrase list.keys
  | _ => True

theorem derives_iff {seed : Seed} {typed : Phrase} : Derives (.recovery seed) typed ↔ typed = .mnemonic seed := by
  constructor
  · rintro ⟨keys, hkeys, hrec⟩
    cases typed with
    | invalid text => cases hkeys
    | mnemonic s =>
      obtain rfl := Except.ok.inj hkeys
      rw [EdKey.recovery.inj hrec]
  · rintro rfl
    exact ⟨_, rfl, rfl⟩

variable {seed : Seed} {v : Vault} {d : Disk} {a : Action}

/-- The default share has keys, and they come from the phrase. -/
structure FromSeed (seed : Seed) (kr : Keyring) : Prop where
  nonempty : kr.keysOf nil ≠ []
  derived : FromPhrase (.mnemonic seed) (kr.keysOf nil)

theorem FromSeed.epoch (h : FromSeed seed v.keyring) : v.epoch + 1 = (v.keyring.keysOf nil).length := by
  have hpos := List.length_pos_of_ne_nil h.nonempty
  unfold Vault.epoch Keyring.shareEpoch
  unfold Keyring.keysOf at hpos ⊢
  cases hs : v.keyring.share nil with
  | none => simp [hs] at hpos
  | some s =>
    simp only [hs] at hpos ⊢
    omega

theorem FromSeed.installs (h : FromSeed seed v.keyring) (ha : a.Genuine (.mnemonic seed) (.recovery seed))
    (hinstalls : a.installs v = some (nil, keys)) : keys ≠ [] ∧ FromPhrase (.mnemonic seed) keys := by
  cases a with
  | rotate typed =>
    cases typed with
    | invalid text => cases hinstalls
    | mnemonic s =>
      have hderives : Derives (.recovery seed) (.mnemonic s) := by
        rcases ha with hderives | ⟨e, he⟩
        · exact hderives
        · cases he
      obtain rfl : s = seed := Phrase.mnemonic.inj (derives_iff.mp hderives)
      have hkey : Crypto.vaultKeyAtEpoch (.mnemonic s) (v.epoch + 1) = .ok (.vault s (v.epoch + 1)) := rfl
      simp only [Action.installs, hkey] at hinstalls
      obtain ⟨-, rfl⟩ := Prod.mk.inj (Option.some.inj hinstalls)
      refine ⟨by simp, h.derived.push ?_⟩
      rw [← h.epoch]
      exact hkey
  | createShare id n =>
    obtain ⟨hid, -⟩ := Prod.mk.inj (Option.some.inj hinstalls)
    exact absurd hid ha
  | rotateShare share n =>
    simp only [Action.installs] at hinstalls
    split at hinstalls
    · obtain ⟨hid, -⟩ := Prod.mk.inj (Option.some.inj hinstalls)
      exact absurd hid ha
    · cases hinstalls
  | absorbShareKey share list =>
    simp only [Action.installs] at hinstalls
    split at hinstalls
    · cases hinstalls
    · rename_i keys' hsplit
      split at hinstalls
      · cases hinstalls
      · obtain ⟨hshare, rfl⟩ := Prod.mk.inj (Option.some.inj hinstalls)
        exact ⟨splitKeyList_ok hsplit, splitKeyList_eq hsplit ▸ ha hshare⟩
  | _ => cases hinstalls

theorem FromSeed.rekeys (h : FromSeed seed v.keyring) (ha : a.Genuine (.mnemonic seed) (.recovery seed)) {kr : Keyring}
    (hrekeys : Rekeys v d a kr) : FromSeed seed kr := by
  have hset : ∀ {share : Uuid} {keys : List Key} {kr' : Keyring}, a.installs v = some (share, keys) →
      (kr'.keysOf nil = if nil = share then keys else v.keyring.keysOf nil) → FromSeed seed kr' := by
    intro share keys kr' hinstalls hkeys
    by_cases hshare : nil = share
    · rw [if_pos hshare] at hkeys
      subst hshare
      obtain ⟨hne, hderived⟩ := h.installs ha hinstalls
      exact ⟨hkeys ▸ hne, hkeys ▸ hderived⟩
    · rw [if_neg hshare] at hkeys
      exact ⟨hkeys ▸ h.nonempty, hkeys ▸ h.derived⟩
  cases hrekeys with
  | same => exact h
  | pushed hinstalls =>
    refine hset hinstalls ?_
    rw [Keyring.keysOf_pushShareKey]
  | set hinstalls => exact hset hinstalls (Keyring.keysOf_setShareKeys _)
  | joined hact hlog hkeys =>
    subst hact
    rename_i list keys
    have hown : FromPhrase (.mnemonic seed) list.keys := ha
    have hnil : (v.keyring.setShareKeys nil keys).keysOf nil = keys := by
      rw [Keyring.keysOf_setShareKeys, if_pos rfl]
    have hsame : Keyring.keysOf { v.keyring.setShareKeys nil keys with vaultKeys := [], vaultKey := none } nil = keys := hnil
    refine ⟨?_, ?_⟩
    · rw [hsame]
      exact splitKeyList_ok hkeys
    · rw [hsame, splitKeyList_eq hkeys]
      exact hown

/-! ## Runs -/

theorem openVault_keyring (d : Disk) : (openVault.run d).2.keyring = d.keyring := by
  have hquiet := Prog.Each.run open_quiet (fun _ => rfl) (fun _ _ _ h h' => h'.trans h) d
  simp only [Prog.run_bind, Prog.run_pure] at hquiet
  exact hquiet

theorem Site.Ok.fromSeed {s : Site} (hok : s.Ok) (h : FromSeed seed s.disk.keyring)
    (ha : a.Genuine (.mnemonic seed) (.recovery seed)) : FromSeed seed (s.next a).disk.keyring := by
  by_cases hopen : a = .reopen
  · subst hopen
    have hdisk : (s.next .reopen).disk = (openVault.run s.disk).2 := by
      unfold Site.next
      cases s.vault with
      | none => rfl
      | some v => simp only [Action.prog, Prog.run_bind, Prog.run_pure]
    rw [hdisk, openVault_keyring]
    exact h
  cases hv : s.vault with
  | none =>
    have hsame : s.next a = s := by
      unfold Site.next
      rw [hv]
      cases a <;> first | rfl | exact absurd rfl hopen
    rw [hsame]
    exact h
  | some v =>
    obtain ⟨v', hrun, heff, hrekeys⟩ := prog_rekeys (v := v) (d := s.disk) hopen
    have hkeyring := hok.vault v hv
    have hderived : FromSeed seed v'.keyring := FromSeed.rekeys (hkeyring ▸ h) ha hrekeys
    obtain ⟨-, hkeyring'⟩ := heff.sound hok.disk hkeyring
    rw [Site.next_some hv hrun]
    exact hkeyring' ▸ hderived

theorem Site.Ok.after_fromSeed {s : Site} {actions : List Action} (hok : s.Ok) (h : FromSeed seed s.disk.keyring)
    (ha : ∀ a ∈ actions, a.Genuine (.mnemonic seed) (.recovery seed)) :
    (s.after actions).Ok ∧ FromSeed seed (s.after actions).disk.keyring := by
  induction actions generalizing s with
  | nil => exact ⟨hok, h⟩
  | cons a actions ih =>
    obtain ⟨hfirst, hrest⟩ := List.forall_mem_cons.mp ha
    exact ih (hok.step (s.moves a)) (hok.fromSeed h hfirst) hrest

theorem run_rotate_invalid (text : String) (v : Vault) (d : Disk) :
    (v.rotate (.invalid text)).run d = ((.error (.crypto .badPhrase), v), d) :=
  run_rotate_error rfl

/-- **The default share.** In every run from `init` whose rotations are genuine, the keys of the default share come
from the phrase, and no two of them are the same. What a rotation does with another phrase shows which ones are. -/
theorem default_keys_from_phrase (deviceName : String) (vaultId : Uuid) (phrase : Phrase) (x : XKey) (ed : EdKey)
    (deviceId : Uuid) {made : Crypto.PhraseKeys} (hphrase : Crypto.keysFromPhrase phrase = .ok made) {β : Type}
    {hkdf : Seed → String → β} (hinj : ∀ s i s' i', hkdf s i = hkdf s' i' → s = s' ∧ i = i') {actions : List Action}
    (hok : ∀ a ∈ actions, a.Genuine phrase made.recoverySigning) :
    let s := (created deviceName vaultId made.vaultKey (.ed made.recoverySigning) x ed deviceId).after actions
    FromPhrase phrase (s.disk.keyring.keysOf nil) ∧
      ∀ v, s.vault = some v → FromPhrase phrase (v.keyring.keysOf nil) ∧
        ((v.keyring.keysOf nil).map (Key.bytes hkdf)).Nodup ∧
        ∀ typed, (Action.rotate typed).Genuine phrase made.recoverySigning ↔
          (Derives made.recoverySigning typed ∨ ((v.rotate typed).run s.disk).1.2 = v ∧ ((v.rotate typed).run s.disk).2 = s.disk) := by
  intro s
  obtain ⟨seed, rfl⟩ : ∃ seed, phrase = .mnemonic seed := by
    cases phrase with
    | invalid text => cases hphrase
    | mnemonic seed => exact ⟨seed, rfl⟩
  obtain rfl := Except.ok.inj hphrase
  have hcreated := created_ok deviceName vaultId (.vault seed 0) (.ed (.recovery seed)) x ed deviceId
  have hfirst : FromSeed seed ⟨[⟨nil, [.vault seed 0]⟩], [], none, x, ed⟩ := by
    refine ⟨nofun, fun i k hk => ?_⟩
    obtain ⟨hi, rfl⟩ := List.getElem?_eq_some_iff.mp hk
    obtain rfl : i = 0 := Nat.lt_one_iff.mp hi
    rfl
  obtain ⟨hsok, hderived⟩ := hcreated.after_fromSeed hfirst hok
  refine ⟨hderived.derived, fun v hv => ?_⟩
  have hkeyring := hsok.vault v hv
  refine ⟨hkeyring ▸ hderived.derived, hkeyring ▸ hderived.derived.nodup hinj, fun typed => ?_⟩
  refine or_congr_right ?_
  cases typed with
  | invalid text =>
    rw [run_rotate_invalid]
    exact ⟨fun _ => ⟨rfl, rfl⟩, fun _ => ⟨_, rfl⟩⟩
  | mnemonic s' =>
    have hkey : Crypto.vaultKeyAtEpoch (.mnemonic s') (v.epoch + 1) = .ok (.vault s' (v.epoch + 1)) := rfl
    rw [run_rotate hkey]
    constructor
    · rintro ⟨e, he⟩
      cases he
    · -- A rotation appends a key, so it does not leave the vault as it was.
      rintro ⟨hsame, -⟩
      have hlist := congrArg (fun v : Vault => (v.keyring.keysOf nil).length) hsame
      simp at hlist

/-! ## A phrase of another vault -/

namespace WrongPhrase

def desk : Site := created "desk" 7 (.vault 1 0) (.ed (.recovery 1)) 0 (.device 0) 10

/-- Two rotations with the phrase, and a typing error between them. -/
theorem default_keys_rotated : FromPhrase (.mnemonic 1)
    ((desk.after [.rotate (.mnemonic 1), .rotate (.invalid "abandon"), .rotate (.mnemonic 1)]).disk.keyring.keysOf nil) :=
  (default_keys_from_phrase "desk" 7 (.mnemonic 1) 0 (.device 0) 10 rfl
    (fun s i s' i' (h : Prod.mk s i = Prod.mk s' i') => by simpa using h) (by
    intro a ha
    fin_cases ha
    · exact Or.inl (derives_iff.mpr rfl)
    · exact Or.inr ⟨_, rfl⟩
    · exact Or.inl (derives_iff.mpr rfl))).1

/-- A rotation with another vault's phrase is taken. -/
theorem wrong_phrase_taken :
    ¬ ∀ actions : List Action, (∀ a ∈ actions, ∃ phrase, a = .rotate phrase) →
      FromPhrase (.mnemonic 1) ((desk.after actions).disk.keyring.keysOf nil) := by
  intro h
  have hkeys := h [.rotate (.mnemonic 2)] (by simp) 1 (.vault 2 1) (by decide +kernel)
  exact absurd hkeys (by decide)

end WrongPhrase

end Vault

end SshVault
