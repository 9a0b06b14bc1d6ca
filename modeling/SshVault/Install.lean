import SshVault.Lib.Path
import SshVault.IncludeLine
import SshVault.Payloads
import SshVault.Vault.KeyedMap

/-!
# Installed private keys (`src/main.rs`, `key install`)

A private key is written to the path that the user gives, or else to one that is made from its name. The name comes
from a record, which may be anybody's.
-/

open Lib

namespace SshVault

/-! ## The command -/

/-- The errors of `key install`. Each text quotes what its constructor holds. -/
inductive InstallError where
  | notFound (name : String)
  | payload
  | unsafeName (name : String)
  | noHome
  | alreadyExists (out : String)
  deriving DecidableEq

structure KeyFile where
  content : String
  mode : Nat

/-- What is stored where. -/
abbrev Files := List Component → Option KeyFile

def safeKeyName (name : String) : Option String :=
  if name ≠ "" ∧ name.toList.head? ≠ some '.' ∧ '/' ∉ name.toList ∧ '\\' ∉ name.toList ∧ fileName name = some name then
    some name
  else none

/-- `out`, or `~/.ssh/<name>`. -/
def installPath (out home : Option String) (payload : PrivateKey) : Except InstallError String :=
  match out with
  | some path => .ok path
  | none => match safeKeyName payload.name with
    | none => .error (.unsafeName payload.name)
    | some safe => match home with
      | none => .error .noHome
      | some home => .ok (join (join home ".ssh") safe)

/-- A file that is there is only replaced by force. Missing directories are made, which is left out here. -/
def writePrivateKey (files : Files) (out pem : String) (force : Bool) : Except InstallError Files :=
  if ¬ force ∧ (files (components out)).isSome then .error (.alreadyExists out)
  else .ok (Function.update files (components out) (some ⟨pem, 0o600⟩))

namespace Vault

/-- Which key `key install` writes, and where. -/
def installTarget (v : Vault) (ord : HashOrder) (name : String) (out home : Option String) :
    Except InstallError (String × String) :=
  match v.find ord .privateKey "name" name with
  | none => .error (.notFound name)
  | some rec => match rec.privateKey with
    | none => .error .payload
    | some payload => match installPath out home payload with
      | .error e => .error e
      | .ok path => .ok (path, payload.keyPem)

def keyInstall (v : Vault) (ord : HashOrder) (name : String) (out : Option String) (force : Bool) (home : Option String)
    (files : Files) : Except InstallError Files :=
  match v.installTarget ord name out home with
  | .error e => .error e
  | .ok (path, pem) => writePrivateKey files path pem force

end Vault

/-! ## Names -/

theorem PlainName.of_shown {name : String} (h0 : name ≠ "") (hdot : name.toList.head? ≠ some '.')
    (hslash : '/' ∉ name.toList) : PlainName name := by
  refine ⟨h0, hslash, ?_, ?_⟩
  · rintro rfl
    exact hdot rfl
  · rintro rfl
    exact hdot rfl

/-- The check of the whole name as a file name adds nothing to the others. -/
theorem safeKeyName_eq_some_iff {name safe : String} : safeKeyName name = some safe ↔
    safe = name ∧ name ≠ "" ∧ name.toList.head? ≠ some '.' ∧ '/' ∉ name.toList ∧ '\\' ∉ name.toList := by
  unfold safeKeyName
  constructor
  · intro h
    split at h
    · rename_i hok
      obtain ⟨h0, hdot, hslash, hback, -⟩ := hok
      exact ⟨(Option.some.inj h).symm, h0, hdot, hslash, hback⟩
    · cases h
  · rintro ⟨rfl, h0, hdot, hslash, hback⟩
    rw [if_pos ⟨h0, hdot, hslash, hback, fileName_eq_self_iff.mpr (PlainName.of_shown h0 hdot hslash)⟩]

theorem plain_of_safe {name safe : String} (h : safeKeyName name = some safe) : safe = name ∧ PlainName name := by
  obtain ⟨rfl, h0, hdot, hslash, -⟩ := safeKeyName_eq_some_iff.mp h
  exact ⟨rfl, PlainName.of_shown h0 hdot hslash⟩

/-! ## The destination -/

/-- The files that ssh and this program read in `~/.ssh`. -/
def configFiles : List String := ["config", "authorized_keys", "rc", "environment", "known_hosts", SshConfig.managedFile]

theorem configFiles_plain {file : String} (h : file ∈ configFiles) : PlainName file := by
  have hall : ∀ f ∈ configFiles, f ≠ "" ∧ '/' ∉ f.toList ∧ f ≠ "." ∧ f ≠ ".." := by decide
  obtain ⟨h0, hslash, hdot, hdots⟩ := hall file h
  exact ⟨h0, hslash, hdot, hdots⟩

/-- The destination is the file of this name in `~/.ssh`, and it is none that ssh or this program reads. -/
structure Spares (home name dest : String) : Prop where
  child : Child (join home ".ssh") dest
  last : fileName dest = some name
  own : ∀ file ∈ configFiles, components dest ≠ components (join (join home ".ssh") file)

variable {v : Vault} {ord : HashOrder} {name home : String} {rec : Record} {payload : PrivateKey}

theorem installPath_eq_ok_iff {dest : String} : installPath none (some home) payload = .ok dest ↔
    (safeKeyName payload.name).isSome = true ∧ dest = join (join home ".ssh") payload.name := by
  unfold installPath
  cases hsafe : safeKeyName payload.name with
  | none => simp
  | some safe =>
    obtain ⟨rfl, -⟩ := plain_of_safe hsafe
    simp [eq_comm]

theorem installTarget_eq_ok_iff {out home : Option String} {dest pem : String} :
    v.installTarget ord name out home = .ok (dest, pem) ↔ ∃ rec payload, v.find ord .privateKey "name" name = some rec ∧
      rec.privateKey = some payload ∧ installPath out home payload = .ok dest ∧ pem = payload.keyPem := by
  unfold Vault.installTarget
  cases v.find ord .privateKey "name" name with
  | none => simp
  | some rec =>
    cases hp : rec.privateKey with
    | none => simp [hp]
    | some payload =>
      cases hpath : installPath out home payload with
      | error e => simp [hp, hpath]
      | ok path => simp [hp, hpath, eq_comm]

theorem privateKey_name (hfind : v.find ord .privateKey "name" name = some rec) (hp : rec.privateKey = some payload) :
    payload.name = name := by
  have hkey := (Record.key_eq_some.mp (Record.matchesName_iff.mp (Vault.find_mem hfind).2)).2.2
  change rec.value "name" = _ at hkey
  unfold Record.privateKey at hp
  rw [hkey] at hp
  simp only [Option.bind_eq_bind, Option.bind_some, Option.bind_eq_some_iff, Option.pure_def, Option.some.injEq] at hp
  obtain ⟨n, hn, _, -, _, -, _, -, rfl⟩ := hp
  exact (Option.some.inj hn).symm

/-- **A name of its own.** Whoever wrote the record, its key is installed in `~/.ssh` under its name. That is no
file that ssh reads exactly when the name is none of theirs. -/
theorem install_spares_iff (hfind : v.find ord .privateKey "name" name = some rec) (hp : rec.privateKey = some payload) :
    (∀ dest pem, v.installTarget ord name none (some home) = .ok (dest, pem) → Spares home name dest) ↔
      name ∉ configFiles := by
  obtain rfl := privateKey_name hfind hp
  constructor
  · intro h hfile
    have hsafe : (safeKeyName payload.name).isSome = true := by
      have hall : ∀ f ∈ configFiles, (safeKeyName f).isSome = true := by decide +kernel
      exact hall _ hfile
    have hpath : installPath none (some home) payload = .ok (join (join home ".ssh") payload.name) :=
      installPath_eq_ok_iff.mpr ⟨hsafe, rfl⟩
    exact (h _ _ (installTarget_eq_ok_iff.mpr ⟨rec, payload, hfind, hp, hpath, rfl⟩)).own _ hfile rfl
  · -- A safe name is one component, so the destination is one of these files only if the name is.
    intro hfile dest pem hdest
    obtain ⟨rec', payload', hfind', hp', hpath, -⟩ := installTarget_eq_ok_iff.mp hdest
    obtain rfl := Option.some.inj (hfind.symm.trans hfind')
    obtain rfl := Option.some.inj (hp.symm.trans hp')
    obtain ⟨hsafe, rfl⟩ := installPath_eq_ok_iff.mp hpath
    obtain ⟨safe, hsafe⟩ := Option.isSome_iff_exists.mp hsafe
    obtain ⟨-, hplain⟩ := plain_of_safe hsafe
    refine ⟨child_join hplain, fileName_join hplain, fun file hin heq => hfile ?_⟩
    rw [(components_join_inj hplain (configFiles_plain hin)).mp heq]
    exact hin

/-! ## What is written -/

theorem keyInstall_writes {out home : Option String} {force : Bool} {files files' : Files}
    (h : v.keyInstall ord name out force home files = .ok files') :
    ∃ dest pem, v.installTarget ord name out home = .ok (dest, pem) ∧ files' (components dest) = some ⟨pem, 0o600⟩ ∧
      ∀ path, path ≠ components dest → files' path = files path := by
  unfold Vault.keyInstall at h
  split at h
  · cases h
  · rename_i dest pem htarget
    unfold writePrivateKey at h
    split at h
    · cases h
    · obtain rfl := Except.ok.inj h
      exact ⟨dest, pem, htarget, Function.update_self .., fun path hpath => Function.update_of_ne hpath ..⟩

/-- What ssh reads stays as it was when a key of another name is installed. -/
theorem keyInstall_keeps_config {force : Bool} {files files' : Files} (hname : name ∉ configFiles)
    (h : v.keyInstall ord name none force (some home) files = .ok files') {file : String} (hfile : file ∈ configFiles) :
    files' (components (join (join home ".ssh") file)) = files (components (join (join home ".ssh") file)) := by
  obtain ⟨dest, pem, htarget, -, hothers⟩ := keyInstall_writes h
  obtain ⟨rec, payload, hfind, hp, -⟩ := installTarget_eq_ok_iff.mp htarget
  have hspares := (install_spares_iff hfind hp).mpr hname dest pem htarget
  exact hothers _ (hspares.own file hfile).symm

/-! ## A key that another member named -/

namespace Hijack

/-- A private key whose text is not one. -/
def keyNamed (name : String) : PrivateKey := ⟨name, "Host *\n    ProxyCommand evil PRIVATE KEY", none⟩

def recordOf (name : String) : Record :=
  { id := 20, kind := .privateKey, fields := fieldsFromPayload (PayloadType.privateKey.toPayload (keyNamed name)) ⟨1, 9⟩
    deletedAt := none, clock := ⟨1, 9⟩, deviceId := 9, modifiedAt := 0, shareId := nil }

/-- The entry of the key, as another member of the default share pushes it. -/
def entryOf (name : String) : Uuid × Bytes := (30, Crypto.sealBlob SshConfig.sharedKey (.record (recordOf name)) 30)

/-- A device that received the entry. -/
def synced (name : String) : Vault.Site := SshConfig.reader.next (.applyRemoteEntry (entryOf name))

theorem install_spares_work :
    ∃ v rec, (synced "work").vault = some v ∧ v.find SshConfig.anyOrder .privateKey "name" "work" = some rec ∧
      ((∀ dest pem, v.installTarget SshConfig.anyOrder "work" none (some "/home/user") = .ok (dest, pem) →
        Spares "/home/user" "work" dest) ↔ "work" ∉ configFiles) := by
  have hsome : ((synced "work").vault.bind fun v => (v.find SshConfig.anyOrder .privateKey "name" "work").bind
      Record.privateKey).isSome = true := by decide +kernel
  obtain ⟨payload, hpayload⟩ := Option.isSome_iff_exists.mp hsome
  obtain ⟨v, hv, hrest⟩ := Option.bind_eq_some_iff.mp hpayload
  obtain ⟨rec, hfind, hp⟩ := Option.bind_eq_some_iff.mp hrest
  exact ⟨v, rec, hv, hfind, install_spares_iff hfind hp⟩

/-- A synced key of the name `config` is installed as ssh's own configuration. -/
theorem config_hijacked : ¬ ∀ (f : Uuid × Bytes) (v : Vault) (ord : HashOrder) (name home dest pem : String),
    (SshConfig.reader.next (.applyRemoteEntry f)).vault = some v →
      v.installTarget ord name none (some home) = .ok (dest, pem) → Spares home name dest := by
  intro h
  have htarget : (synced "config").vault.map (fun v =>
      v.installTarget SshConfig.anyOrder "config" none (some "/home/user")) =
        some (.ok ("/home/user/.ssh/config", (keyNamed "config").keyPem)) := by decide +kernel
  obtain ⟨v, hv, hdest⟩ := Option.map_eq_some_iff.mp htarget
  have hspares := h (entryOf "config") v SshConfig.anyOrder "config" "/home/user" _ _ hv hdest
  exact hspares.own "config" (by decide) (by decide +kernel)

end Hijack

end SshVault
