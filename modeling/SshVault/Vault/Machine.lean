import SshVault.Vault.Keys

/-!
# One vault directory

A directory is used by one process at a time. A process opens the vault, works on it, and may be
followed by another one. `Effect` lists what one operation can leave behind.
-/

open Lib

namespace SshVault.Vault

/-! ## Operations -/

inductive Action where
  | write (w : Write)
  | applyRemoteEntry (f : Frame)
  | rotate (phrase : Phrase)
  | createShare (id : Uuid) (n : Nat)
  | rotateShare (share : Uuid) (n : Nat)
  | absorbShareKey (share : Uuid) (list : KeyBytes)
  | setVaultKey (list : KeyBytes)
  | setSyncCursor (cursor : Nat)
  | resetSyncCursor
  | compact
  | reload
  | reopen

/-- The operation on an open vault. Reopening starts from the directory alone. -/
def Action.prog (v : Vault) : Action → Prog Disk (Option Vault)
  | .write w => do return some (← w.prog v).2
  | .applyRemoteEntry f => do return some (← v.applyRemoteEntry f.1 f.2).2
  | .rotate phrase => do return some (← v.rotate phrase).2
  | .createShare id n => do return some (← v.createShare id n)
  | .rotateShare share n => do return some (← v.rotateShare share n).2
  | .absorbShareKey share list => do return some (← v.absorbShareKey share list).2
  | .setVaultKey list => do return some (← v.setVaultKey list).2
  | .setSyncCursor cursor => do return some (← v.setSyncCursor cursor)
  | .resetSyncCursor => do return some (← v.resetSyncCursor)
  | .compact => do return some (← v.compact).2
  | .reload => do return some (← v.reload).2
  | .reopen => do return (← openVault).toOption

/-- A directory, and the vault that the process has open in it, if opening went well. -/
structure Site where
  disk : Disk
  vault : Option Vault

def Site.next (s : Site) (a : Action) : Site :=
  match s.vault, a with
  | some v, a => ⟨((a.prog v).run s.disk).2, ((a.prog v).run s.disk).1⟩
  | none, .reopen => ⟨(openVault.run s.disk).2, (openVault.run s.disk).1.toOption⟩
  | none, _ => s

def Site.after (s : Site) (actions : List Action) : Site := actions.foldl Site.next s

/-- The directory as `Vault::create_with_keys` leaves it. -/
def created (deviceName : String) (vaultId : Uuid) (vaultKey : Key) (recoveryPub : Bytes)
    (x : XKey) (ed : EdKey) (deviceId : Uuid) : Site :=
  let (disk, v) := createWithKeys deviceName vaultId vaultKey recoveryPub x ed deviceId
  ⟨disk, some v⟩

/-! ## What an operation can do -/

/-- A record that a local write puts in the log: a tombstone without fields, or a record of a checked
payload. -/
def Checked (r : Record) : Prop :=
  (r.kind = .tombstone ∧ r.fields = ∅) ∨
    ∃ payload, validatePayload r.kind payload = .ok () ∧
      ∀ (n : String) (f : Field), r.fields[n]? = some f → payload[n]? = some f.value

/-- The snapshot of a folded log. -/
def snapshotOf (kr : Keyring) (log : List Frame) (records : List Record) : Snapshot :=
  ⟨log.length, kr.heldShareEpochs, (mergeAll records).toList.map (·.2)⟩

/-- The key-list of a share grows: it gets a key more, is replaced by a longer list, or is new. -/
inductive Grown (kr : Keyring) : Keyring → Prop
  | push (id : Uuid) (key : Key) : Grown kr (kr.pushShareKey id key)
  | set (id : Uuid) (keys : List Key) (hlt : kr.hasShare id = true → (kr.keysOf id).length < keys.length)
      (hne : keys ≠ []) : Grown kr (kr.setShareKeys id keys)

inductive Effect (v : Vault) (d : Disk) : Action → Vault → Disk → Prop
  | idle {a : Action} (m m' : Meta) : Effect v d a { v with metadata := m } { d with metadata := m' }
  | wrote {w : Write} (m m' : Meta) (r : Record) (key : Key) (entryId : Uuid) (hr : Checked r)
      (hkey : v.keyring.currentFor r.shareId = some key) :
    Effect v d (.write w) { v with metadata := m, state := mergeInto v.state r }
      { d with metadata := m', log := d.log ++ [(entryId, Crypto.sealBlob key (.record r) entryId)] }
  | received {f : Frame} (m m' : Meta) (o : Option Record) (ho : v.keyring.openEntry f.1 f.2 = .ok o) :
    Effect v d (.applyRemoteEntry f) { v with metadata := m, state := mergeOpened v.state o }
      { d with metadata := m', log := d.log ++ [f] }
  | rekeyed {a : Action} (kr : Keyring) (h : Grown v.keyring kr) :
    Effect v d a { v with keyring := kr } { d with keyring := kr }
  | joined {a : Action} (kr : Keyring) (hlog : d.log = []) 
      (hkr : ∃ keys ≠ [], kr = { v.keyring.setShareKeys nil keys with vaultKeys := [], vaultKey := none }) :
    Effect v d a { v with keyring := kr, state := ∅ } { d with keyring := kr }
  | folded {a : Action} (m : Meta) (state : State) (n : Nat) (h : v.foldFromSnapshot d.log d.snapshot = .ok (state, n)) :
    Effect v d a { v with metadata := m, state } d
  | compacted {a : Action} (m : Meta) (records : List Record) (h : openFrames v.keyring d.log = .ok records)
      (snapshot : Option Snapshot)
      (hs : snapshot = d.snapshot ∨ snapshot = some (snapshotOf v.keyring d.log records) ∧ d.log ≠ []) :
    Effect v d a { v with metadata := m, state := mergeAll records } { d with snapshot }

variable {v : Vault} {d : Disk}

/-! ### Local writes -/

theorem append_effect {w : Write} {m : Meta} {r : Record} {entryId : Uuid} (hr : Checked r) :
    Effect v d (.write w) ((Vault.append { v with metadata := m } r entryId).run { d with metadata := m }).1.2
      ((Vault.append { v with metadata := m } r entryId).run { d with metadata := m }).2 := by
  unfold Vault.append
  cases hk : v.keyring.currentFor r.shareId with
  | none => exact .idle m m
  | some key => exact .wrote m m r key entryId hr hk

theorem addIn_effect (w : Write) (ord : HashOrder) (kind : Kind) (nameField name : String) (payload : Payload)
    (share recordId entryId : Uuid) (now : Nat) :
    Effect v d (.write w) ((v.addIn ord kind nameField name payload share recordId entryId now).run d).1.2
      ((v.addIn ord kind nameField name payload share recordId entryId now).run d).2 := by
  unfold addIn
  split
  · exact .idle v.metadata d.metadata
  rename_i hvalid
  split
  · exact .idle v.metadata d.metadata
  split
  · exact .idle v.metadata d.metadata
  let record : Record :=
    { id := recordId, kind, fields := fieldsFromPayload payload (v.tick d), deletedAt := none, clock := v.tick d
      deviceId := v.metadata.deviceId, modifiedAt := now, shareId := share }
  have hchecked : Checked record := by
    refine Or.inr ⟨payload, hvalid, fun n f hf => ?_⟩
    rw [fieldsFromPayload_get] at hf
    obtain ⟨value, hvalue, rfl⟩ := Option.map_eq_some_iff.mp hf
    exact hvalue
  have hclock : v.nextClock.run d =
    ((v.tick d, { v with metadata := v.ticked d }), { d with metadata := v.ticked d }) := rfl
  rw [Prog.run_bind, hclock]
  dsimp only
  rw [Prog.run_bind]
  exact append_effect (r := record) (m := v.ticked d) hchecked

theorem edit_effect (w : Write) (ord : HashOrder) (kind : Kind) (nameField name : String) (payload : Payload)
    (entryId : Uuid) (now : Nat) :
    Effect v d (.write w) ((v.edit ord kind nameField name payload entryId now).run d).1.2
      ((v.edit ord kind nameField name payload entryId now).run d).2 := by
  unfold edit
  split
  · exact .idle v.metadata d.metadata
  rename_i hvalid
  split
  · exact .idle v.metadata d.metadata
  exact append_effect (m := v.ticked d) (Or.inr ⟨payload, hvalid, fun n f hf => (editFields_get hf).1⟩)

theorem remove_effect (w : Write) (ord : HashOrder) (kind : Kind) (nameField name : String) (entryId : Uuid)
    (now : Nat) :
    Effect v d (.write w) ((v.remove ord kind nameField name entryId now).run d).1.2
      ((v.remove ord kind nameField name entryId now).run d).2 := by
  unfold remove
  split
  · exact .idle v.metadata d.metadata
  exact append_effect (m := v.ticked d) (Or.inl ⟨rfl, rfl⟩)

theorem write_effect (w : Write) : Effect v d (.write w) ((w.prog v).run d).1.2 ((w.prog v).run d).2 := by
  cases w with
  | addIn ord kind nameField name payload share recordId entryId now =>
    unfold Write.prog
    simp only [Prog.run_bind, Prog.run_pure]
    exact addIn_effect ..
  | edit => exact edit_effect ..
  | remove => exact remove_effect ..

/-! ### Entries and keys -/

theorem applyRemoteEntry_effect (f : Frame) :
    Effect v d (.applyRemoteEntry f) ((v.applyRemoteEntry f.1 f.2).run d).1.2 ((v.applyRemoteEntry f.1 f.2).run d).2 := by
  cases ho : v.keyring.openEntry f.1 f.2 with
  | error e =>
    rw [run_applyRemoteEntry_error ho]
    exact .idle v.metadata d.metadata
  | ok o =>
    rw [run_applyRemoteEntry ho]
    exact .received _ _ o ho

theorem rotate_effect (a : Action) (phrase : Phrase) :
    Effect v d a ((v.rotate phrase).run d).1.2 ((v.rotate phrase).run d).2 := by
  cases hk : Crypto.vaultKeyAtEpoch phrase (v.epoch + 1) with
  | error e =>
    rw [run_rotate_error hk]
    exact .idle v.metadata d.metadata
  | ok key =>
    rw [run_rotate hk]
    exact .rekeyed _ (.push nil key)

theorem rotateShare_effect (a : Action) (share : Uuid) (n : Nat) :
    Effect v d a ((v.rotateShare share n).run d).1.2 ((v.rotateShare share n).run d).2 := by
  cases hhas : v.keyring.hasShare share with
  | false =>
    rw [run_rotateShare_error n hhas]
    exact .idle v.metadata d.metadata
  | true =>
    rw [run_rotateShare n hhas]
    exact .rekeyed _ (.push share _)

theorem absorbShareKey_effect (a : Action) (share : Uuid) (list : KeyBytes) :
    Effect v d a ((v.absorbShareKey share list).run d).1.2 ((v.absorbShareKey share list).run d).2 := by
  cases hs : splitKeyList list with
  | error e =>
    rw [run_absorbShareKey_error hs]
    exact .idle v.metadata d.metadata
  | ok keys =>
    by_cases hnew : v.Newer share keys
    · rw [run_absorbShareKey hs hnew]
      exact .rekeyed _ (.set share keys hnew (splitKeyList_ok hs))
    · rw [run_absorbShareKey_old hs hnew]
      exact .idle v.metadata d.metadata

theorem setVaultKey_effect (a : Action) (list : KeyBytes) :
    Effect v d a ((v.setVaultKey list).run d).1.2 ((v.setVaultKey list).run d).2 := by
  have hread : Disk.readLog.run d = (d.log, d) := rfl
  unfold setVaultKey
  rw [Prog.run_bind, hread]
  by_cases hlog : d.log = []
  · rw [if_neg (by simp [hlog])]
    cases hs : splitKeyList list with
    | error e => exact .idle v.metadata d.metadata
    | ok keys => exact .joined _ hlog ⟨keys, splitKeyList_ok hs, rfl⟩
  · rw [if_pos (by simpa using hlog)]
    exact .idle v.metadata d.metadata

/-! ### Folds -/

/-- The snapshot may be another one. -/
def Cached (d d' : Disk) : Prop := ∃ snapshot, d' = { d with snapshot }

theorem compact_cached (v : Vault) : v.compact.Each Cached := by
  unfold compact
  refine Prog.Each.bind (Prog.Each.atom fun _ => ⟨_, rfl⟩) fun frames => ?_
  split
  · trivial
  · dsimp only
    split
    · trivial
    · exact Prog.Each.bind (Prog.Each.atom fun _ => ⟨_, rfl⟩) fun _ => trivial

theorem replayLog_cached (v : Vault) : v.replayLog.Each Cached := by
  unfold replayLog
  refine Prog.Each.bind (Prog.Each.atom fun _ => ⟨_, rfl⟩) fun frames => ?_
  refine Prog.Each.bind (Prog.Each.atom fun _ => ⟨_, rfl⟩) fun snapshot => ?_
  split
  · trivial
  · split
    · exact Prog.Each.bind (compact_cached _) fun _ => trivial
    · trivial

/-- The program that opens a vault, as a handle runs it. -/
theorem open_cached : (do return (← openVault).toOption : Prog Disk (Option Vault)).Each Cached := by
  refine Prog.Each.bind ?_ fun _ => trivial
  unfold openVault
  refine Prog.Each.bind (Prog.Each.atom fun _ => ⟨_, rfl⟩) fun metadata => ?_
  refine Prog.Each.bind (Prog.Each.atom fun _ => ⟨_, rfl⟩) fun keyring => ?_
  exact Prog.Each.bind (replayLog_cached _) fun _ => trivial

theorem cached_run {α : Type} {p : Prog Disk α} (h : p.Each Cached) (d : Disk) : Cached d (p.run d).2 := by
  refine h.run (fun _ => ⟨_, rfl⟩) ?_ d
  rintro _ _ _ ⟨_, rfl⟩ ⟨_, rfl⟩
  exact ⟨_, rfl⟩

theorem compact_effect (a : Action) :
    Effect v d a ((v.compact).run d).1.2 ((v.compact).run d).2 ∧
      ∀ e, ((v.compact).run d).1.1 = .error e → ((v.compact).run d).2 = d := by
  have hread : Disk.readLog.run d = (d.log, d) := rfl
  unfold compact
  rw [Prog.run_bind, hread]
  cases hopen : openFrames v.keyring d.log with
  | error e => exact ⟨.idle v.metadata d.metadata, fun _ _ => rfl⟩
  | ok records =>
    dsimp only
    by_cases hle : d.log.length ≤ (mergeAll records).size
    · rw [if_pos hle]
      exact ⟨.compacted v.metadata records hopen _ (Or.inl rfl), fun _ _ => rfl⟩
    · rw [if_neg hle]
      refine ⟨.compacted v.metadata records hopen _ (Or.inr ⟨rfl, ?_⟩), fun e h => nomatch h⟩
      intro hlog
      simp [hlog] at hle

theorem replayLog_effect (a : Action) (m : Meta) :
    Effect v d a ((replayLog { v with metadata := m }).run d).1.2 ((replayLog { v with metadata := m }).run d).2 ∧
      ∀ e, ((replayLog { v with metadata := m }).run d).1.1 = .error e →
        ((replayLog { v with metadata := m }).run d).2 = d := by
  have hread : Disk.readLog.run d = (d.log, d) := rfl
  have hread' : Disk.readSnapshot.run d = (d.snapshot, d) := rfl
  unfold replayLog
  rw [Prog.run_bind, hread, Prog.run_bind, hread']
  have hfold : foldFromSnapshot { v with metadata := m } d.log d.snapshot = v.foldFromSnapshot d.log d.snapshot := rfl
  rw [hfold]
  cases hseed : v.foldFromSnapshot d.log d.snapshot with
  | error e => exact ⟨.idle m d.metadata, fun _ _ => rfl⟩
  | ok out =>
    obtain ⟨state, n⟩ := out
    dsimp only
    by_cases hbig : d.log.length - n > compactThreshold ∧ d.log.length > state.size
    · rw [if_pos hbig, Prog.run_bind]
      -- The state of the fold is folded once more, from the log alone.
      unfold compact
      rw [Prog.run_bind, hread]
      cases hopen : openFrames v.keyring d.log with
      | error e => exact ⟨.folded m state n hseed, fun _ _ => rfl⟩
      | ok records =>
        dsimp only
        by_cases hle : d.log.length ≤ (mergeAll records).size
        · rw [if_pos hle]
          exact ⟨.compacted m records hopen _ (Or.inl rfl), fun _ _ => rfl⟩
        · rw [if_neg hle]
          refine ⟨.compacted m records hopen _ (Or.inr ⟨rfl, ?_⟩), fun e h => nomatch h⟩
          intro hlog
          simp [hlog] at hle
    · rw [if_neg hbig]
      exact ⟨.folded m state n hseed, fun _ h => nomatch h⟩

/-! ### All of them -/

/-- The vault that a new process starts from. -/
def fresh (d : Disk) : Vault := ⟨d.metadata, d.keyring.normalize, ∅⟩

theorem openVault_effect (d : Disk) :
    (∃ v', (openVault.run d).1 = .ok v' ∧ Effect (fresh d) d .reopen v' (openVault.run d).2) ∨
      (∃ e, (openVault.run d).1 = .error e) ∧ (openVault.run d).2 = d := by
  unfold openVault
  simp only [Prog.run_bind, Prog.run_pure]
  dsimp only [Disk.readMeta, Disk.readKeyring, Prog.run_atom]
  obtain ⟨heff, herr⟩ := replayLog_effect (v := fresh d) (d := d) .reopen d.metadata
  change Effect (fresh d) d .reopen ((replayLog (fresh d)).run d).1.2 ((replayLog (fresh d)).run d).2 at heff
  change ∀ e, ((replayLog (fresh d)).run d).1.1 = .error e → ((replayLog (fresh d)).run d).2 = d at herr
  change (∃ v', Except.map (fun _ => ((replayLog (fresh d)).run d).1.2) ((replayLog (fresh d)).run d).1.1 = .ok v' ∧
    Effect (fresh d) d .reopen v' ((replayLog (fresh d)).run d).2) ∨
    (∃ e, Except.map (fun _ => ((replayLog (fresh d)).run d).1.2) ((replayLog (fresh d)).run d).1.1 = .error e) ∧
      ((replayLog (fresh d)).run d).2 = d
  generalize (replayLog (fresh d)).run d = out at heff herr ⊢
  obtain ⟨⟨e | _, v'⟩, d'⟩ := out
  · exact Or.inr ⟨⟨e, rfl⟩, herr e rfl⟩
  · exact Or.inl ⟨v', rfl, heff⟩

/-- What an operation does, from an open vault or from a directory. -/
inductive Site.Moves (s : Site) (a : Action) : Site → Prop
  | stays : Site.Moves s a s
  | acts {v v' : Vault} {d' : Disk} (hv : s.vault = some v) (h : Effect v s.disk a v' d') : Site.Moves s a ⟨d', some v'⟩
  | opens {v' : Vault} {d' : Disk} (h : Effect (fresh s.disk) s.disk a v' d') : Site.Moves s a ⟨d', some v'⟩
  | closes : Site.Moves s a ⟨s.disk, none⟩

theorem Site.opens_or_closes (s : Site) :
    s.Moves .reopen ⟨(openVault.run s.disk).2, (openVault.run s.disk).1.toOption⟩ := by
  rcases openVault_effect s.disk with ⟨v', hv', heff⟩ | ⟨⟨e, he⟩, hd⟩
  · rw [hv']
    exact .opens heff
  · rw [he, hd]
    exact .closes

theorem Site.moves (s : Site) (a : Action) : s.Moves a (s.next a) := by
  obtain ⟨d, vault⟩ := s
  unfold next
  cases vault with
  | none =>
    cases a with
    | reopen => exact Site.opens_or_closes ⟨d, none⟩
    | _ => exact .stays
  | some v =>
    unfold Action.prog
    cases a <;> simp only [Prog.run_bind, Prog.run_pure]
    case write w => exact .acts rfl (write_effect w)
    case applyRemoteEntry f => exact .acts rfl (applyRemoteEntry_effect f)
    case rotate phrase => exact .acts rfl (rotate_effect _ phrase)
    case createShare id n => exact .acts rfl (.rekeyed _ (.push id _))
    case rotateShare share n => exact .acts rfl (rotateShare_effect _ share n)
    case absorbShareKey share list => exact .acts rfl (absorbShareKey_effect _ share list)
    case setVaultKey list => exact .acts rfl (setVaultKey_effect _ list)
    case setSyncCursor cursor => exact .acts rfl (.idle _ _)
    case resetSyncCursor => exact .acts rfl (.idle _ _)
    case compact => exact .acts rfl (compact_effect _).1
    case reload => exact .acts rfl (replayLog_effect _ d.metadata).1
    case reopen => exact Site.opens_or_closes ⟨d, some v⟩

/-- **Runs.** What every operation keeps, every run keeps. -/
theorem Site.after_keeps {P : Site → Prop} (ok : Action → Prop)
    (hstep : ∀ s a s', P s → ok a → Site.Moves s a s' → P s') {s : Site} {actions : List Action} (h : P s)
    (hok : ∀ a ∈ actions, ok a) : P (s.after actions) := by
  induction actions generalizing s with
  | nil => exact h
  | cons a rest ih =>
    exact ih (hstep s a _ h (hok a List.mem_cons_self) (s.moves a)) fun a' ha' => hok a' (List.mem_cons_of_mem _ ha')

/-! ## What all records satisfy -/

section

variable {P : Record → Prop}

/-- Every record shown satisfies `P`. -/
def StateHolds (P : Record → Prop) (state : State) : Prop := ∀ r, Shown state r → P r

/-- Whatever key opens the frame, the record in it satisfies `P`. -/
def FrameHolds (P : Record → Prop) (f : Frame) : Prop := ∀ k r, f.2 = .sealed ⟨k, f.1, .record r⟩ → P r

structure DiskHolds (P : Record → Prop) (d : Disk) : Prop where
  log : ∀ f ∈ d.log, FrameHolds P f
  snapshot : ∀ s, d.snapshot = some s → ∀ r ∈ s.records, P r

structure Site.Holds (P : Record → Prop) (s : Site) : Prop where
  disk : DiskHolds P s.disk
  vault : ∀ v, s.vault = some v → StateHolds P v.state

theorem stateHolds_iff {state : State} : StateHolds P state ↔ State.All (fun _ => P) state :=
  ⟨fun h i r hr => h r ⟨i, hr⟩, fun h r ⟨i, hr⟩ => h i r hr⟩

theorem stateHolds_empty : StateHolds P ∅ := stateHolds_iff.mpr .empty

theorem FrameHolds.opened {f : Frame} (h : FrameHolds P f) (kr : Keyring) {r : Record} (hr : kr.opened f = some r) : P r := by
  obtain ⟨k, -, hblob⟩ := Keyring.opened_eq_some.mp hr
  exact h k r hblob

theorem DiskHolds.append (hd : DiskHolds P d) {f : Frame} (hf : FrameHolds P f) (m : Meta) :
    DiskHolds P { d with metadata := m, log := d.log ++ [f] } := by
  refine ⟨fun g hg => ?_, hd.snapshot⟩
  rcases List.mem_append.mp hg with hg | hg
  · exact hd.log g hg
  · rwa [List.mem_singleton.mp hg]

/-- An operation that brings in only records with `P`, whoever wrote them. -/
def Action.Brings (P : Record → Prop) (a : Action) : Prop := ∀ f, a = .applyRemoteEntry f → FrameHolds P f

theorem Effect.logged {v' : Vault} {d' : Disk} {a : Action} (hchecked : ∀ r, Checked r → P r) (ha : a.Brings P)
    (h : Effect v d a v' d') (hlog : ∀ f ∈ d.log, FrameHolds P f) : ∀ f ∈ d'.log, FrameHolds P f := by
  have hsnoc : ∀ f, FrameHolds P f → ∀ g ∈ d.log ++ [f], FrameHolds P g := fun f hf =>
    List.forall_mem_append.mpr ⟨hlog, List.forall_mem_singleton.mpr hf⟩
  cases h with
  | wrote m m' r key entryId hr hkey =>
    refine hsnoc _ fun k r' hblob => ?_
    simp only [Crypto.sealBlob, Bytes.sealed.injEq, Sealed.mk.injEq, Plain.record.injEq] at hblob
    exact hblob.2.2 ▸ hchecked r hr
  | received m m' o ho => exact hsnoc _ (ha _ rfl)
  | idle => exact hlog
  | rekeyed => exact hlog
  | joined => exact hlog
  | folded => exact hlog
  | compacted => exact hlog

/-- What an operation shows comes from the log it leaves. -/
theorem Effect.all {v' : Vault} {d' : Disk} {a : Action} {Q : Uuid → Record → Prop}
    (hmerge : ∀ i a b, Q i a → Q i b → Q i (merge a b)) (hfiled : ∀ r, P r → Q r.id r) (hholds : ∀ i r, Q i r → P r)
    (h : Effect v d a v' d') (hd : DiskHolds P d) (hlog : ∀ f ∈ d'.log, FrameHolds P f) (hv : State.All Q v.state) :
    DiskHolds P d' ∧ State.All Q v'.state := by
  cases h with
  | idle m m' => exact ⟨⟨hd.log, hd.snapshot⟩, hv⟩
  | wrote m m' r key entryId hr hkey =>
    have hrec : P r := hlog (entryId, Crypto.sealBlob key (.record r) entryId) (by simp) key r rfl
    exact ⟨⟨hlog, hd.snapshot⟩, hv.mergeInto hmerge (hfiled r hrec)⟩
  | received m m' o ho =>
    refine ⟨⟨hlog, hd.snapshot⟩, ?_⟩
    rename_i f
    cases o with
    | none => exact hv
    | some r =>
      refine hv.mergeInto hmerge (hfiled r ((hlog f (by simp)).opened v.keyring ?_))
      unfold Keyring.opened
      rw [ho]
  | rekeyed kr hg => exact ⟨⟨hd.log, hd.snapshot⟩, hv⟩
  | joined kr hempty hkr => exact ⟨⟨hd.log, hd.snapshot⟩, .empty⟩
  | folded m state n hfold =>
    exact ⟨hd, foldFromSnapshot_all hmerge (fun s hs r hr => hfiled r (hd.snapshot s hs r hr))
      (fun f hf r hr => hfiled r ((hd.log f hf).opened v.keyring hr)) hfold⟩
  | compacted m records hopen snapshot hs =>
    have hstate : State.All Q (mergeAll records) :=
      State.All.empty.foldl hmerge (openFrames_all (fun f hf r hr => hfiled r ((hd.log f hf).opened v.keyring hr)) hopen)
    refine ⟨⟨hd.log, fun s hsome => ?_⟩, hstate⟩
    rcases hs with rfl | ⟨rfl, -⟩
    · exact hd.snapshot s hsome
    · obtain rfl := Option.some.inj hsome
      intro r hr
      obtain ⟨i, hir⟩ := hstate.records r hr
      exact hholds i r hir

theorem Effect.holds {v' : Vault} {d' : Disk} {a : Action} (hmerge : ∀ a b, P a → P b → P (merge a b))
    (hchecked : ∀ r, Checked r → P r) (ha : a.Brings P) (h : Effect v d a v' d') (hd : DiskHolds P d)
    (hv : StateHolds P v.state) : DiskHolds P d' ∧ StateHolds P v'.state := by
  rw [stateHolds_iff] at hv ⊢
  exact h.all (fun _ => hmerge) (fun _ hr => hr) (fun _ _ hr => hr) hd (h.logged hchecked ha hd.log) hv

/-- **All records.** What checked payloads and incoming records have, and merging keeps, every record
that a vault ever shows has. -/
theorem Site.after_holds (hmerge : ∀ a b, P a → P b → P (merge a b)) (hchecked : ∀ r, Checked r → P r)
    (deviceName : String) (vaultId : Uuid) (vaultKey : Key) (recoveryPub : Bytes) (x : XKey) (ed : EdKey)
    (deviceId : Uuid) {actions : List Action} (hok : ∀ a ∈ actions, a.Brings P) :
    ((created deviceName vaultId vaultKey recoveryPub x ed deviceId).after actions).Holds P := by
  refine Site.after_keeps (Action.Brings P) ?_ ?_ hok
  · intro s a s' h ha hmove
    cases hmove with
    | stays => exact h
    | acts hv heff =>
      obtain ⟨hd, hv'⟩ := heff.holds hmerge hchecked ha h.disk (h.vault _ hv)
      exact ⟨hd, by rintro _ ⟨rfl⟩; exact hv'⟩
    | opens heff =>
      obtain ⟨hd, hv'⟩ := heff.holds hmerge hchecked ha h.disk stateHolds_empty
      exact ⟨hd, by rintro _ ⟨rfl⟩; exact hv'⟩
    | closes => exact ⟨h.disk, by rintro _ ⟨⟩⟩
  · refine ⟨⟨(fun f hf => nomatch hf), by rintro _ ⟨⟩⟩, ?_⟩
    rintro _ ⟨rfl⟩
    exact stateHolds_empty

end

end SshVault.Vault
