import SshVault.Vault.Absorbing
import SshVault.Vault.Snapshots

/-!
# The state in memory and the log

A handle merges what it writes and what it receives into the state it has, and folds the log when it opens, reloads
or compacts. Both agree as long as no new key opens or closes an entry that is in the log already.
-/

open Lib

namespace SshVault

namespace Keyring

theorem openEntry_congr {kr kr' : Keyring} {entryId : Uuid} {blob : Bytes}
    (h : ∀ k p, blob = Crypto.sealBlob k p entryId → (k ∈ kr.allKeys ↔ k ∈ kr'.allKeys)) :
    kr.openEntry entryId blob = kr'.openEntry entryId blob := by
  have hfind : (kr.allKeys.findSome? fun k => (Crypto.openBlob k blob entryId).toOption) =
      kr'.allKeys.findSome? fun k => (Crypto.openBlob k blob entryId).toOption := by
    refine Option.ext fun p => ?_
    rw [findSome_openBlob, findSome_openBlob]
    constructor
    · rintro ⟨k, hk, hblob⟩
      exact ⟨k, (h k p hblob).mp hk, hblob⟩
    · rintro ⟨k, hk, hblob⟩
      exact ⟨k, (h k p hblob).mpr hk, hblob⟩
  unfold openEntry
  rw [hfind]

end Keyring

namespace Vault

theorem openFrames_congr {kr kr' : Keyring} {log : List Frame}
    (h : ∀ f ∈ log, ∀ k p, f.2 = Crypto.sealBlob k p f.1 → (k ∈ kr.allKeys ↔ k ∈ kr'.allKeys)) :
    openFrames kr log = openFrames kr' log := by
  induction log with
  | nil => rfl
  | cons f log ih =>
    obtain ⟨hf, hrest⟩ := List.forall_mem_cons.mp h
    obtain ⟨entryId, blob⟩ := f
    unfold openFrames
    rw [Keyring.openEntry_congr hf, ih hrest]

/-! ## Up to date -/

/-- The state in memory is the fold of the log. -/
structure UpToDate (v : Vault) (d : Disk) : Prop where
  sound : Sound d
  keyring : v.keyring = d.keyring
  state : (openFrames v.keyring d.log).map mergeAll = .ok v.state

variable {v v' : Vault} {d d' : Disk} {a : Action}

theorem UpToDate.records (h : UpToDate v d) :
    ∃ records, openFrames v.keyring d.log = .ok records ∧ v.state = mergeAll records := by
  have hstate := h.state
  cases hopen : openFrames v.keyring d.log with
  | error e =>
    rw [hopen] at hstate
    cases hstate
  | ok records =>
    rw [hopen] at hstate
    exact ⟨records, rfl, (Except.ok.inj hstate).symm⟩

theorem upToDate_empty (hsound : Sound d) (hkeyring : v.keyring = d.keyring) (hlog : d.log = []) (hstate : v.state = ∅) :
    UpToDate v d := by
  refine ⟨hsound, hkeyring, ?_⟩
  rw [hlog, hstate]
  rfl

theorem openFrames_snoc {kr : Keyring} {log : List Frame} {records : List Record} {f : Frame} {o : Option Record}
    (h : openFrames kr log = .ok records) (ho : kr.openEntry f.1 f.2 = .ok o) :
    openFrames kr (log ++ [f]) = .ok (records ++ o.toList) := by
  rw [openFrames_append, h]
  have hlast : openFrames kr [f] = .ok o.toList := by
    obtain ⟨entryId, blob⟩ := f
    dsimp only at ho
    unfold openFrames
    rw [ho]
    cases o <;> rfl
  rw [hlast]
  rfl

theorem mergeAll_snoc (records : List Record) (o : Option Record) :
    mergeAll (records ++ o.toList) = mergeOpened (mergeAll records) o := by
  cases o with
  | none => rw [Option.toList_none, List.append_nil]; rfl
  | some r => exact List.foldl_append

theorem UpToDate.append (h : UpToDate v d) (m m' : Meta) {f : Frame} {o : Option Record}
    (ho : v.keyring.openEntry f.1 f.2 = .ok o) :
    UpToDate { v with metadata := m, state := mergeOpened v.state o } { d with metadata := m', log := d.log ++ [f] } := by
  obtain ⟨records, hopen, hstate⟩ := h.records
  refine ⟨sound_append h.sound m' f, h.keyring, ?_⟩
  dsimp only
  rw [openFrames_snoc hopen ho, hstate, ← mergeAll_snoc]
  rfl

/-- **One operation.** What leaves the entries in the log as readable as they were keeps the state up to date. -/
theorem UpToDate.effect (h : UpToDate v d) (heff : Effect v d a v' d')
    (hsame : openFrames v'.keyring d.log = openFrames v.keyring d.log) : UpToDate v' d' := by
  obtain ⟨hsound, hkeyring⟩ := heff.sound h.sound h.keyring
  obtain ⟨records, hopen, hstate⟩ := h.records
  cases heff with
  | idle m m' => exact ⟨hsound, hkeyring, h.state⟩
  | wrote m m' r key entryId hr hkey =>
    have hmem := Keyring.currentFor_mem hkey
    exact h.append m m' (o := some r) (Keyring.openEntry_eq_some.mpr ⟨key, hmem, rfl⟩)
  | received m m' o ho => exact h.append m m' ho
  | rekeyed kr hg =>
    refine ⟨hsound, hkeyring, ?_⟩
    dsimp only at hsame ⊢
    rw [hsame]
    exact h.state
  | joined kr hlog hkr => exact upToDate_empty hsound hkeyring hlog rfl
  | folded m state n hfold =>
    refine ⟨hsound, hkeyring, ?_⟩
    have hseed := foldFromSnapshot_eq h.sound h.keyring
    rw [hfold] at hseed
    exact hseed.symm
  | compacted m records hopen snapshot hs =>
    refine ⟨hsound, hkeyring, ?_⟩
    dsimp only
    rw [hopen]
    rfl

theorem upToDate_replayLog {records : List Record} (hsound : Sound d) (hkeyring : v.keyring = d.keyring)
    (hopen : openFrames v.keyring d.log = .ok records) :
    (v.replayLog.run d).1 = (.ok (), { v with state := mergeAll records }) ∧
      UpToDate { v with state := mergeAll records } (v.replayLog.run d).2 := by
  obtain ⟨heff, -⟩ := replayLog_effect (v := v) (d := d) .reload v.metadata
  obtain ⟨hsound', -⟩ := heff.sound hsound hkeyring
  obtain ⟨snapshot, hd'⟩ := cached_run (replayLog_cached v) d
  refine ⟨?_, hsound', ?_, ?_⟩
  · rw [run_replayLog hsound hkeyring, replayed, hopen, ← openFrames_eq_filterMap hopen]
  · rw [hd']
    exact hkeyring
  · rw [hd']
    dsimp only
    rw [hopen]
    rfl

theorem run_openVault {records : List Record} (hsound : Sound d) (hopen : openFrames d.keyring d.log = .ok records) :
    ∃ v', (openVault.run d).1 = .ok v' ∧ v'.state = mergeAll records ∧ UpToDate v' (openVault.run d).2 := by
  have hkeyring : (fresh d).keyring = d.keyring := hsound.plain.normalize
  have hopen' : openFrames (fresh d).keyring d.log = .ok records := by rw [hkeyring, hopen]
  obtain ⟨hrun, hup⟩ := upToDate_replayLog hsound hkeyring hopen'
  have hres : openVault.run d = ((((fresh d).replayLog.run d).1.1.map fun _ => ((fresh d).replayLog.run d).1.2),
      ((fresh d).replayLog.run d).2) := by
    unfold openVault
    simp only [Prog.run_bind, Prog.run_pure]
    rfl
  rw [hres, hrun]
  exact ⟨_, rfl, rfl, hup⟩

def Action.Folds : Action → Prop
  | .compact | .reload | .reopen => True
  | _ => False

/-- **Folds.** Whatever the state in memory was, it is the fold of the log now. -/
theorem upToDate_folds {records : List Record} (ha : a.Folds) (hsound : Sound d) (hkeyring : v.keyring = d.keyring)
    (hopen : openFrames v.keyring d.log = .ok records) :
    ∃ v', ((a.prog v).run d).1 = some v' ∧ UpToDate v' ((a.prog v).run d).2 := by
  cases a with
  | compact =>
    obtain ⟨wrote, hrun, -⟩ := run_compact hopen
    obtain ⟨snapshot, hd'⟩ := cached_run (compact_cached v) d
    obtain ⟨hsound', hkeyring'⟩ := (compact_effect (v := v) .compact).1.sound hsound hkeyring
    simp only [Action.prog, Prog.run_bind, Prog.run_pure]
    refine ⟨_, rfl, hsound', hkeyring', ?_⟩
    rw [hrun, hd']
    dsimp only
    rw [hopen]
    rfl
  | reload =>
    obtain ⟨hrun, hup⟩ := upToDate_replayLog (v := { v with metadata := d.metadata }) hsound hkeyring hopen
    have hreload : v.reload.run d = (replayLog { v with metadata := d.metadata }).run d := rfl
    simp only [Action.prog, Prog.run_bind, Prog.run_pure]
    rw [hreload, hrun]
    exact ⟨_, rfl, hup⟩
  | reopen =>
    obtain ⟨v', hrun, -, hup⟩ := run_openVault hsound (hkeyring ▸ hopen)
    simp only [Action.prog, Prog.run_bind, Prog.run_pure]
    exact ⟨v', by rw [hrun]; rfl, hup⟩
  | _ => exact absurd ha id

/-! ## New keys -/

/-- The key-list that an operation puts in the place of a share's. -/
def Action.installs (v : Vault) : Action → Option (Uuid × List Key)
  | .rotate phrase =>
    match Crypto.vaultKeyAtEpoch phrase (v.epoch + 1) with
    | .error _ => none
    | .ok key => some (nil, v.keyring.keysOf nil ++ [key])
  | .createShare id n => some (id, v.keyring.keysOf id ++ [.random id (v.keyring.keysOf id).length n])
  | .rotateShare share n =>
    if v.keyring.hasShare share then
      some (share, v.keyring.keysOf share ++ [.random share (v.keyring.keysOf share).length n])
    else none
  | .absorbShareKey share list =>
    match splitKeyList list with
    | .error _ => none
    | .ok keys =>
      if v.keyring.hasShare share ∧ keys.length ≤ (v.keyring.keysOf share).length then none else some (share, keys)
  | _ => none

/-- No entry of the log is sealed under a key that the operation brings or takes away. -/
def Action.Harmless (v : Vault) (d : Disk) (a : Action) : Prop :=
  ∀ share keys, a.installs v = some (share, keys) → ∀ f ∈ d.log, ∀ k p, f.2 = Crypto.sealBlob k p f.1 →
    (k ∈ v.keyring.allKeys ↔ k ∈ keys ∨ k ∈ v.keyring.others share)

/-- What an operation makes of the keyring in memory. -/
inductive Rekeys (v : Vault) (d : Disk) (a : Action) : Keyring → Prop
  | same : Rekeys v d a v.keyring
  | pushed {share : Uuid} {key : Key} (h : a.installs v = some (share, v.keyring.keysOf share ++ [key])) :
    Rekeys v d a (v.keyring.pushShareKey share key)
  | set {share : Uuid} {keys : List Key} (h : a.installs v = some (share, keys)) :
    Rekeys v d a (v.keyring.setShareKeys share keys)
  | joined {list : KeyBytes} {keys : List Key} (ha : a = .setVaultKey list) (hlog : d.log = [])
      (hkeys : splitKeyList list = .ok keys) :
    Rekeys v d a { v.keyring.setShareKeys nil keys with vaultKeys := [], vaultKey := none }

theorem setVaultKey_rekeys (list : KeyBytes) :
    Rekeys v d (.setVaultKey list) ((v.setVaultKey list).run d).1.2.keyring := by
  have hread : Disk.readLog.run d = (d.log, d) := rfl
  unfold setVaultKey
  rw [Prog.run_bind, hread]
  by_cases hlog : d.log = []
  · rw [if_neg (by simp [hlog])]
    cases hs : splitKeyList list with
    | error e => exact .same
    | ok keys => exact .joined rfl hlog hs
  · rw [if_pos (by simpa using hlog)]
    exact .same

/-- An operation on an open vault: its effect, and what it does to the keyring. -/
theorem prog_rekeys (ha : a ≠ .reopen) : ∃ v', ((a.prog v).run d).1 = some v' ∧
    Effect v d a v' ((a.prog v).run d).2 ∧ Rekeys v d a v'.keyring := by
  unfold Action.prog
  cases a <;> simp only [Prog.run_bind, Prog.run_pure] <;> try exact absurd rfl ha
  all_goals refine ⟨_, rfl, ?_, ?_⟩
  case write.refine_1 w => exact write_effect w
  case write.refine_2 w =>
    have hkept := (Device.write_kept ⟨d, v⟩ w).2
    change Rekeys v d _ (Device.perform ⟨d, v⟩ w.prog).vault.keyring
    rw [hkept]
    exact .same
  case applyRemoteEntry.refine_1 f => exact applyRemoteEntry_effect f
  case applyRemoteEntry.refine_2 f =>
    have hkept := (Device.applyRemoteEntry_kept ⟨d, v⟩ f.1 f.2).2
    change Rekeys v d _ (Device.perform ⟨d, v⟩ (·.applyRemoteEntry f.1 f.2)).vault.keyring
    rw [hkept]
    exact .same
  case rotate.refine_1 phrase => exact rotate_effect _ phrase
  case rotate.refine_2 phrase =>
    cases hkey : Crypto.vaultKeyAtEpoch phrase (v.epoch + 1) with
    | error e =>
      rw [run_rotate_error hkey]
      exact .same
    | ok key =>
      rw [run_rotate hkey]
      exact .pushed (by simp only [Action.installs, hkey])
  case createShare.refine_1 id n => exact .rekeyed _ (.push id _)
  case createShare.refine_2 id n => exact .pushed rfl
  case rotateShare.refine_1 share n => exact rotateShare_effect _ share n
  case rotateShare.refine_2 share n =>
    cases hhas : v.keyring.hasShare share with
    | false =>
      rw [run_rotateShare_error n hhas]
      exact .same
    | true =>
      rw [run_rotateShare n hhas]
      exact .pushed (by simp only [Action.installs, hhas, if_true])
  case absorbShareKey.refine_1 share list => exact absorbShareKey_effect _ share list
  case absorbShareKey.refine_2 share list =>
    cases hs : splitKeyList list with
    | error e =>
      rw [run_absorbShareKey_error hs]
      exact .same
    | ok keys =>
      by_cases hnew : v.Newer share keys
      · rw [run_absorbShareKey hs hnew]
        refine .set ?_
        simp only [Action.installs, hs]
        rw [if_neg]
        rintro ⟨hhas, hle⟩
        exact absurd (hnew hhas) (Nat.not_lt.mpr hle)
      · rw [run_absorbShareKey_old hs hnew]
        exact .same
  case setVaultKey.refine_1 list => exact setVaultKey_effect _ list
  case setVaultKey.refine_2 list => exact setVaultKey_rekeys list
  case setSyncCursor.refine_1 cursor => exact .idle _ _
  case setSyncCursor.refine_2 cursor => exact .same
  case resetSyncCursor.refine_1 => exact .idle _ _
  case resetSyncCursor.refine_2 => exact .same
  case compact.refine_1 => exact (compact_effect _).1
  case compact.refine_2 =>
    have hkeyring := Prog.Ends.run (compact_keyring (v := v)) d
    rw [hkeyring]
    exact .same
  case reload.refine_1 => exact (replayLog_effect _ d.metadata).1
  case reload.refine_2 =>
    have hkeyring := Prog.Ends.run (replayLog_keyring (v := { v with metadata := d.metadata })) d
    change Rekeys v d _ ((replayLog { v with metadata := d.metadata }).run d).1.2.keyring
    rw [hkeyring]
    exact .same

theorem Rekeys.openFrames {kr : Keyring} (h : Rekeys v d a kr) (hsafe : a.Harmless v d) :
    openFrames kr d.log = openFrames v.keyring d.log := by
  cases h with
  | same => rfl
  | pushed h =>
    refine openFrames_congr fun f hf k p hblob => ?_
    rw [hsafe _ _ h f hf k p hblob, Keyring.mem_allKeys_pushShareKey, Keyring.mem_allKeys_iff _, List.mem_append,
      List.mem_singleton]
    tauto
  | set h =>
    refine openFrames_congr fun f hf k p hblob => ?_
    rw [hsafe _ _ h f hf k p hblob, Keyring.mem_allKeys_setShareKeys]
  | joined ha hlog hkeys =>
    rw [hlog]
    rfl

theorem UpToDate.prog (h : UpToDate v d) (hsafe : a.Harmless v d) :
    ∃ v', ((a.prog v).run d).1 = some v' ∧ UpToDate v' ((a.prog v).run d).2 := by
  by_cases ha : a = .reopen
  · obtain ⟨records, hopen, -⟩ := h.records
    subst ha
    exact upToDate_folds trivial h.sound h.keyring hopen
  · obtain ⟨v', hrun, heff, hrekeys⟩ := prog_rekeys (v := v) (d := d) ha
    exact ⟨v', hrun, h.effect heff (hrekeys.openFrames hsafe)⟩

/-! ## Runs of one handle -/

/-- What a new handle on the directory would show is what this one shows. -/
def Site.Current (s : Site) : Prop :=
  ∃ v v', s.vault = some v ∧ (openVault.run s.disk).1 = .ok v' ∧ v'.state = v.state

/-- A handle that has made the vault, or has just folded its log after any history of the directory. -/
inductive Site.Opened : Site → Prop
  | created (deviceName : String) (vaultId : Uuid) (vaultKey : Key) (recoveryPub : Bytes) (x : XKey) (ed : EdKey)
      (deviceId : Uuid) : Site.Opened (created deviceName vaultId vaultKey recoveryPub x ed deviceId)
  | folded (deviceName : String) (vaultId : Uuid) (vaultKey : Key) (recoveryPub : Bytes) (x : XKey) (ed : EdKey)
      (deviceId : Uuid) (history : List Action) {v : Vault} {records : List Record} {a : Action} (ha : a.Folds)
      (hv : ((created deviceName vaultId vaultKey recoveryPub x ed deviceId).after history).vault = some v)
      (hopen : openFrames v.keyring ((created deviceName vaultId vaultKey recoveryPub x ed deviceId).after history).disk.log =
        .ok records) :
      Site.Opened (((created deviceName vaultId vaultKey recoveryPub x ed deviceId).after history).next a)

/-- Runs of a handle in which no operation brings or takes away a key that an entry of the log is sealed under. -/
inductive HarmlessRun (s₀ : Site) : Site → Prop
  | start : HarmlessRun s₀ s₀
  | step {s : Site} (h : HarmlessRun s₀ s) (a : Action) (hsafe : ∀ v, s.vault = some v → a.Harmless v s.disk) :
    HarmlessRun s₀ (s.next a)

theorem Site.next_some {s : Site} {v v' : Vault} (hv : s.vault = some v) {a : Action}
    (hrun : ((a.prog v).run s.disk).1 = some v') : s.next a = ⟨((a.prog v).run s.disk).2, some v'⟩ := by
  unfold next
  rw [hv]
  dsimp only
  rw [hrun]

theorem Site.Opened.upToDate {s : Site} (h : s.Opened) : ∃ v, s.vault = some v ∧ UpToDate v s.disk := by
  cases h with
  | created deviceName vaultId vaultKey recoveryPub x ed deviceId =>
    have hok := created_ok deviceName vaultId vaultKey recoveryPub x ed deviceId
    exact ⟨_, rfl, upToDate_empty hok.disk rfl rfl rfl⟩
  | folded deviceName vaultId vaultKey recoveryPub x ed deviceId history ha hv hopen =>
    have hok : Site.Ok (Site.after _ history) := Site.after_keeps (fun _ => True) (fun _ _ _ h _ hm => h.step hm)
      (created_ok deviceName vaultId vaultKey recoveryPub x ed deviceId) (fun _ _ => trivial)
    obtain ⟨v', hrun, hup⟩ := upToDate_folds ha hok.disk (hok.vault _ hv) hopen
    rw [Site.next_some hv hrun]
    exact ⟨v', rfl, hup⟩

theorem HarmlessRun.upToDate {s₀ s : Site} (h : HarmlessRun s₀ s) (h₀ : s₀.Opened) :
    ∃ v, s.vault = some v ∧ UpToDate v s.disk := by
  induction h with
  | start => exact h₀.upToDate
  | step h a hsafe ih =>
    obtain ⟨v, hv, hup⟩ := ih
    obtain ⟨v', hrun, hup'⟩ := hup.prog (hsafe v hv)
    rw [Site.next_some hv hrun]
    exact ⟨v', rfl, hup'⟩

/-- **In memory and on disk.** After every operation of such a run, the state of the handle is the one that a new
handle on the directory would show. -/
theorem harmlessRun_current {s₀ s : Site} (h₀ : s₀.Opened) (h : HarmlessRun s₀ s) : s.Current := by
  obtain ⟨v, hv, hup⟩ := h.upToDate h₀
  obtain ⟨records, hopen, hstate⟩ := hup.records
  obtain ⟨v', hrun, hstate', -⟩ := run_openVault hup.sound (hup.keyring ▸ hopen)
  exact ⟨v, v', hv, hrun, hstate'.trans hstate.symm⟩

/-! ## A grant that comes after the entries -/

namespace LateGrant

/-- A record of share 5, which comes before the key of the share. -/
def frame : Frame := (30, Crypto.sealBlob (.random 5 0 0) (.record LostRotation.note) 30)

def desk : Site := created "desk" 7 (.vault 1 0) (.ed (.recovery 1)) 0 (.device 0) 10

def maker : Vault := desk.vault.get rfl

def received : Site := desk.next (.applyRemoteEntry frame)

def receiver : Vault := received.vault.get (by decide +kernel)

def grant : KeyBytes := { keys := [.random 5 0 0] }

/-- A rotation of the default share leaves the entry of share 5 as it is. -/
theorem current_rotated : (received.next (.rotate (.mnemonic 1))).Current := by
  have hopened : desk.Opened := .created ..
  have hreceived : HarmlessRun desk received := .step .start (.applyRemoteEntry frame) fun _ _ _ _ h => nomatch h
  have hlog : received.disk.log = [frame] := by decide +kernel
  have hinstalls : (Action.rotate (.mnemonic 1)).installs receiver = some (nil, [.vault 1 0, .vault 1 1]) := by decide +kernel
  refine harmlessRun_current hopened (hreceived.step (.rotate (.mnemonic 1)) ?_)
  intro v hv share keys h f hf k p hblob
  obtain rfl : receiver = v := Option.get_of_eq_some _ hv
  rw [hinstalls] at h
  obtain ⟨rfl, rfl⟩ := Prod.mk.inj (Option.some.inj h)
  rw [hlog, List.mem_singleton] at hf
  subst hf
  have hkey : k = .random 5 0 0 := (congrArg Sealed.key (Bytes.sealed.inj hblob)).symm
  subst hkey
  decide +kernel

/-- Both operations succeed. The record shows after the vault is opened again, and not before. -/
theorem granted_not_shown : ¬ ∀ (f : Frame) (share : Uuid) (list : KeyBytes) (v : Vault),
    (maker.applyRemoteEntry f.1 f.2).run desk.disk = ((.ok (), v), (desk.next (.applyRemoteEntry f)).disk) →
    ((v.absorbShareKey share list).run (desk.next (.applyRemoteEntry f)).disk).1.1 = .ok () →
      ((desk.next (.applyRemoteEntry f)).next (.absorbShareKey share list)).Current := by
  intro h
  have hreceived : (maker.applyRemoteEntry frame.1 frame.2).run desk.disk = ((.ok (), receiver), received.disk) := rfl
  have hgranted : ((receiver.absorbShareKey 5 grant).run received.disk).1.1 = .ok () := by decide +kernel
  obtain ⟨v, v', hv, hopen, hstate⟩ := h frame 5 grant receiver hreceived hgranted
  let s := received.next (.absorbShareKey 5 grant)
  have hmem : s.vault.map (fun v => v.state[(20 : Uuid)]?.isSome) = some false := by decide +kernel
  have hdisk : (openVault.run s.disk).1.toOption.map (fun v => v.state[(20 : Uuid)]?.isSome) = some true := by decide +kernel
  change s.vault = some v at hv
  change (openVault.run s.disk).1 = .ok v' at hopen
  rw [hv] at hmem
  rw [hopen] at hdisk
  have hshown : v'.state[(20 : Uuid)]?.isSome = true := Option.some.inj hdisk
  have hnot : v.state[(20 : Uuid)]?.isSome = false := Option.some.inj hmem
  rw [hstate, hnot] at hshown
  exact Bool.false_ne_true hshown

end LateGrant

end Vault

end SshVault
