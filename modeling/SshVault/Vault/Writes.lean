import SshVault.Vault.Ops

/-!
# Local writes

`add_in`, `edit` and `remove` differ in the record they build. All of them take the next
clock and append one frame, and `LocalWrite` says what that leaves behind.
-/

open Lib

namespace SshVault

/-- One call of `add_in`, `edit` or `remove`, with what it draws from outside. -/
inductive Write where
  | addIn (ord : HashOrder) (kind : Kind) (nameField name : String) (payload : Payload)
      (share recordId entryId : Uuid) (now : Nat)
  | edit (ord : HashOrder) (kind : Kind) (nameField name : String) (payload : Payload)
      (entryId : Uuid) (now : Nat)
  | remove (ord : HashOrder) (kind : Kind) (nameField name : String) (entryId : Uuid) (now : Nat)

def Write.prog (w : Write) (v : Vault) : Prog Disk (Except VaultError Unit × Vault) :=
  match w with
  | .addIn ord kind nameField name payload share recordId entryId now => do
    let (res, v) ← v.addIn ord kind nameField name payload share recordId entryId now
    return (res.map fun _ => (), v)
  | .edit ord kind nameField name payload entryId now => v.edit ord kind nameField name payload entryId now
  | .remove ord kind nameField name entryId now => v.remove ord kind nameField name entryId now

/-- A device: its directory and the vault it has open. -/
structure Device where
  disk : Disk
  vault : Vault

/-- The device after a program has run to its end. -/
def Device.perform {α : Type} (d : Device) (p : Vault → Prog Disk (α × Vault)) : Device :=
  let ((_, v), disk) := (p d.vault).run d.disk
  ⟨disk, v⟩

namespace Vault

variable (v : Vault) (d : Disk)

/-! ## The next clock -/

/-- The metadata in memory after it took in the file's counters. -/
def absorbed : Meta :=
  { v.metadata with
    lamport := max v.metadata.lamport d.metadata.lamport
    syncCursor := max v.metadata.syncCursor d.metadata.syncCursor }

/-- The metadata that `next_clock` writes. -/
def ticked : Meta := { v.absorbed d with lamport := (v.absorbed d).lamport + 1 }

def tick : Clock := ⟨(v.ticked d).lamport, v.metadata.deviceId⟩

@[simp] theorem run_nextClock :
    v.nextClock.run d = ((v.tick d, { v with metadata := v.ticked d }), { d with metadata := v.ticked d }) := rfl

theorem run_append {v : Vault} {d : Disk} {r : Record} {key : Key} (entryId : Uuid) (meta' : Meta)
    (hkey : v.keyring.currentFor r.shareId = some key) :
    (Vault.append { v with metadata := meta' } r entryId).run { d with metadata := meta' } =
      ((.ok (), { v with metadata := meta', state := mergeInto v.state r }),
        { d with metadata := meta', log := d.log ++ [(entryId, Crypto.sealBlob key (.record r) entryId)] }) := by
  unfold Vault.append
  rw [hkey]
  rfl

theorem run_edit_ok {v : Vault} {d : Disk} {ord : HashOrder} {kind : Kind} {nameField name : String} {payload : Payload} {entryId : Uuid}
    {now : Nat} {old : Record} (hfind : v.find ord kind nameField name = some old)
    (hok : ((v.edit ord kind nameField name payload entryId now).run d).1.1 = .ok ()) :
    ∃ (r : Record) (key : Key), r.id = old.id ∧ r.kind = kind ∧ r.deletedAt = old.deletedAt ∧ r.clock = v.tick d ∧
      r.fields = editFields payload old.fields (v.tick d) ∧ v.keyring.currentFor r.shareId = some key ∧
      (v.edit ord kind nameField name payload entryId now).run d =
        ((.ok (), { v with metadata := v.ticked d, state := mergeInto v.state r }),
          { d with metadata := v.ticked d, log := d.log ++ [(entryId, Crypto.sealBlob key (.record r) entryId)] }) := by
  unfold edit at hok ⊢
  split
  · rename_i hcheck
    simp [hcheck] at hok
  rename_i hcheck
  simp only [hcheck, hfind, Prog.run_bind, run_nextClock] at hok ⊢
  cases hkey : v.keyring.currentFor old.shareId with
  | none =>
    unfold append at hok
    rw [hkey] at hok
    cases hok
  | some key =>
    let made : Record :=
      { id := old.id, kind, fields := editFields payload old.fields (v.tick d), deletedAt := old.deletedAt
        clock := v.tick d, deviceId := (v.ticked d).deviceId, modifiedAt := now, shareId := old.shareId }
    exact ⟨made, key, rfl, rfl, rfl, rfl, rfl, hkey, run_append (r := made) entryId (v.ticked d) hkey⟩

/-- The counters of a device are below the last value of a `u64`. -/
def Room : Prop := v.metadata.lamport.val + 1 < 2 ^ 64 ∧ d.metadata.lamport.val + 1 < 2 ^ 64

instance : Decidable (v.Room d) := inferInstanceAs (Decidable (_ ∧ _))

theorem absorbed_lt_tick {v : Vault} {d : Disk} (h : v.Room d) : (v.absorbed d).lamport < (v.tick d).lamport := by
  have hlt : (v.absorbed d).lamport.val + 1 < 2 ^ 64 := by
    unfold absorbed
    rcases max_choice v.metadata.lamport d.metadata.lamport with hm | hm <;> simp only [hm]
    · exact h.1
    · exact h.2
  unfold tick ticked
  rw [Fin.lt_def]
  have h1 : ((1 : U64) : Nat) = 1 := rfl
  simp only [Fin.val_add, h1]
  omega

theorem disk_lt_tick {v : Vault} {d : Disk} (h : v.Room d) : d.metadata.lamport < (v.tick d).lamport :=
  lt_of_le_of_lt (le_max_right _ _) (absorbed_lt_tick h)

/-! ## What a write can do -/

/-- `r` is one of the merged records. -/
def Shown (state : State) (r : Record) : Prop := ∃ i : Uuid, state[i]? = some r

/-- A record built by a local write under clock `c`. Its fields carry `c`, unless they were
taken unchanged from the record it replaces. -/
structure Built (state : State) (c : Clock) (r : Record) : Prop where
  clock : r.clock = c
  deviceId : r.deviceId = c.device
  field : ∀ (n : String) (f : Field), r.fields[n]? = some f →
    f.clock = c ∨ ∃ old, Shown state old ∧ old.id = r.id ∧ old.fields[n]? = some f
  deletedAt : ∀ t, r.deletedAt = some t →
    t = c ∨ ∃ old, Shown state old ∧ old.id = r.id ∧ old.deletedAt = some t

/-- A write is refused, or uses up a clock for nothing, or logs one record. -/
inductive LocalWrite : Vault → Disk → Prop
  | refused : LocalWrite v d
  | spent : LocalWrite { v with metadata := v.ticked d } { d with metadata := v.ticked d }
  | wrote (r : Record) (key : Key) (entryId : Uuid) (hr : Built v.state (v.tick d) r)
      (hkey : v.keyring.currentFor r.shareId = some key) :
    LocalWrite { v with metadata := v.ticked d, state := mergeInto v.state r }
      { d with metadata := v.ticked d, log := d.log ++ [(entryId, Crypto.sealBlob key (.record r) entryId)] }

variable {v d}

theorem find_mem {ord : HashOrder} {kind : Kind} {nameField name : String} {r : Record}
    (h : v.find ord kind nameField name = some r) :
    Shown v.state r ∧ matchesName kind nameField name r = true := by
  unfold find at h
  refine ⟨?_, List.find?_some h⟩
  have hmem := (ord.perm _).mem_iff.mp (List.mem_of_find?_eq_some h)
  obtain ⟨⟨i, r'⟩, hir, rfl⟩ := List.mem_map.mp hmem
  exact ⟨i, Std.ExtTreeMap.mem_toList_iff_getElem?_eq_some.mp hir⟩

theorem editFields_get {payload : Payload} {old : FieldMap} {c : Clock} {n : String} {f : Field}
    (h : (editFields payload old c)[n]? = some f) :
    payload[n]? = some f.value ∧ (f.clock = c ∨ old[n]? = some f) := by
  unfold editFields at h
  rw [Std.ExtTreeMap.getElem?_map, fieldsFromPayload_get] at h
  cases hp : payload[n]? with
  | none => simp [hp] at h
  | some value =>
    simp only [hp, Option.map_some, Option.some.injEq] at h
    cases ho : old[n]? with
    | none => simp [ho] at h; simp [← h]
    | some prev =>
      simp only [ho] at h
      split at h <;> rename_i heq
      · subst h; simp [← heq]
      · subst h; simp

/-- From `d'` on, a program leaves what a write that began in `d` can leave, at its end and
wherever it is stopped. -/
def WriteSpec {α : Type} (v : Vault) (d : Disk) (p : Prog Disk (α × Vault)) (d' : Disk) : Prop :=
  Prog.Always (fun d' => ∃ v', LocalWrite v d v' d') (fun a d' => LocalWrite v d a.2 d') p d'

namespace WriteSpec

variable {α β : Type}

theorem refused {a : α} : WriteSpec v d (pure (a, v)) d := LocalWrite.refused

theorem map {p : Prog Disk (α × Vault)} {d' : Disk} (g : α → β) (h : WriteSpec v d p d') :
    WriteSpec v d (do let (a, v) ← p; return (g a, v)) d' :=
  Prog.Always.bind (Prog.Always.mono h fun _ _ hQ => hQ)

theorem nextClock {f : Clock × Vault → Prog Disk (α × Vault)}
    (h : WriteSpec v d (f (v.tick d, { v with metadata := v.ticked d })) { d with metadata := v.ticked d }) :
    WriteSpec v d (v.nextClock >>= f) d :=
  have hstart : ∃ v', LocalWrite v d v' d := ⟨v, .refused⟩
  ⟨hstart, hstart, h⟩

theorem append {r : Record} {entryId : Uuid} (hr : Built v.state (v.tick d) r) :
    WriteSpec v d (Vault.append { v with metadata := v.ticked d } r entryId) { d with metadata := v.ticked d } := by
  unfold Vault.append
  cases hk : v.keyring.currentFor r.shareId with
  | none => exact LocalWrite.spent
  | some key => exact ⟨⟨_, .spent⟩, .wrote r key entryId hr hk⟩

end WriteSpec

theorem addIn_spec (ord : HashOrder) (kind : Kind) (nameField name : String) (payload : Payload)
    (share recordId entryId : Uuid) (now : Nat) :
    WriteSpec v d (v.addIn ord kind nameField name payload share recordId entryId now) d := by
  unfold addIn
  split
  · exact .refused
  split
  · exact .refused
  split
  · exact .refused
  refine WriteSpec.nextClock (WriteSpec.map _ (WriteSpec.append ⟨rfl, rfl, ?_, ?_⟩))
  · intro n f hf
    rw [fieldsFromPayload_get] at hf
    obtain ⟨value, -, rfl⟩ := Option.map_eq_some_iff.mp hf
    exact Or.inl rfl
  · intro t ht
    cases ht

theorem edit_spec (ord : HashOrder) (kind : Kind) (nameField name : String) (payload : Payload)
    (entryId : Uuid) (now : Nat) : WriteSpec v d (v.edit ord kind nameField name payload entryId now) d := by
  unfold edit
  split
  · exact .refused
  split
  · exact .refused
  rename_i old hfind
  obtain ⟨hold, -⟩ := find_mem hfind
  refine WriteSpec.nextClock (WriteSpec.append ⟨rfl, rfl, ?_, ?_⟩)
  · intro n f hf
    exact (editFields_get hf).2.imp_right fun h => ⟨old, hold, rfl, h⟩
  · intro t ht
    exact Or.inr ⟨old, hold, rfl, ht⟩

theorem remove_spec (ord : HashOrder) (kind : Kind) (nameField name : String) (entryId : Uuid)
    (now : Nat) : WriteSpec v d (v.remove ord kind nameField name entryId now) d := by
  unfold remove
  split
  · exact .refused
  refine WriteSpec.nextClock (WriteSpec.append ⟨rfl, rfl, ?_, ?_⟩)
  · intro n f hf
    simp at hf
  · intro t ht
    exact Or.inl (Option.some.inj ht).symm

theorem write_spec (w : Write) : WriteSpec v d (w.prog v) d := by
  cases w with
  | addIn => exact (addIn_spec ..).map _
  | edit => exact edit_spec ..
  | remove => exact remove_spec ..

/-! ## Receiving an entry -/

/-- The counter catches up with a record that came in. -/
def raised (m : Meta) (o : Option Record) : Meta :=
  { m with lamport := o.elim m.lamport fun r => max m.lamport r.clock.lamport }

theorem le_raised (m : Meta) (o : Option Record) : m.lamport ≤ (raised m o).lamport := by
  rcases o with _ | r
  · exact le_rfl
  · exact le_max_left _ _

theorem raised_some (m : Meta) (r : Record) :
    (if r.clock.lamport > m.lamport then { m with lamport := r.clock.lamport } else m) = raised m (some r) := by
  unfold raised
  by_cases h : r.clock.lamport > m.lamport
  · rw [if_pos h, Option.elim_some, max_eq_right h.le]
  · rw [if_neg h, Option.elim_some, max_eq_left (not_lt.mp h)]

def mergeOpened (state : State) : Option Record → State
  | none => state
  | some r => mergeInto state r

theorem run_applyRemoteEntry {entryId : Uuid} {blob : Bytes} {o : Option Record}
    (ho : v.keyring.openEntry entryId blob = .ok o) :
    (v.applyRemoteEntry entryId blob).run d =
      ((.ok (), { v with metadata := raised (v.absorbed d) o, state := mergeOpened v.state o }),
        { d with metadata := raised (v.absorbed d) o, log := d.log ++ [(entryId, blob)] }) := by
  unfold applyRemoteEntry
  rw [ho]
  rcases o with _ | r
  · rfl
  · rw [← raised_some]
    rfl

theorem run_applyRemoteEntry_error {entryId : Uuid} {blob : Bytes} {e : VaultError}
    (he : v.keyring.openEntry entryId blob = .error e) :
    (v.applyRemoteEntry entryId blob).run d = ((.error e, v), d) := by
  unfold applyRemoteEntry
  rw [he]
  rfl

/-- Its steps are: read the metadata, append the frame, write the counter. -/
theorem cutAt_applyRemoteEntry {entryId : Uuid} {blob : Bytes} {o : Option Record}
    (ho : v.keyring.openEntry entryId blob = .ok o) (n : Nat) :
    Prog.cutAt n (v.applyRemoteEntry entryId blob) d =
      if n < 2 then d
      else if n = 2 then { d with log := d.log ++ [(entryId, blob)] }
      else { d with metadata := raised (v.absorbed d) o, log := d.log ++ [(entryId, blob)] } := by
  unfold applyRemoteEntry
  rw [ho]
  match n with
  | 0 | 1 | 2 => rfl
  | n + 3 =>
    rw [if_neg (by omega), if_neg (by omega)]
    rcases o with _ | r
    · cases n <;> rfl
    · rw [← raised_some]
      cases n <;> rfl

theorem cutAt_applyRemoteEntry_error {entryId : Uuid} {blob : Bytes} {e : VaultError}
    (he : v.keyring.openEntry entryId blob = .error e) (n : Nat) :
    Prog.cutAt n (v.applyRemoteEntry entryId blob) d = d := by
  unfold applyRemoteEntry
  rw [he]
  cases n <;> rfl

end Vault

/-- The record of a frame, if it opens. -/
def Keyring.opened (kr : Keyring) (f : Frame) : Option Record :=
  match kr.openEntry f.1 f.2 with
  | .ok o => o
  | .error _ => none

theorem Keyring.opened_eq_some {kr : Keyring} {f : Frame} {r : Record} :
    kr.opened f = some r ↔ ∃ k ∈ kr.allKeys, f.2 = .sealed ⟨k, f.1, .record r⟩ := by
  rw [← openEntry_eq_some]
  unfold opened
  cases kr.openEntry f.1 f.2 <;> simp

theorem Keyring.opened_sealBlob {kr : Keyring} {key : Key} {entryId : Uuid} {r r' : Record}
    (h : kr.opened (entryId, Crypto.sealBlob key (.record r) entryId) = some r') : r = r' := by
  obtain ⟨k, -, hblob⟩ := opened_eq_some.mp h
  simp only [Crypto.sealBlob, Bytes.sealed.injEq, Sealed.mk.injEq, Plain.record.injEq] at hblob
  exact hblob.2.2

/-! ## What the log shows -/

namespace Vault

theorem openFrames_eq_filterMap {kr : Keyring} {frames : List Frame} {records : List Record}
    (h : openFrames kr frames = .ok records) : records = frames.filterMap kr.opened := by
  induction frames generalizing records with
  | nil => exact (Except.ok.inj h).symm
  | cons f frames ih =>
    obtain ⟨id, blob⟩ := f
    unfold openFrames at h
    cases ho : kr.openEntry id blob with
    | error e => simp [ho, bind, Except.bind] at h
    | ok o =>
      cases hrest : openFrames kr frames with
      | error e => simp [ho, hrest, bind, Except.bind] at h
      | ok rest =>
        obtain rfl : o.toList ++ rest = records := by
          simpa [ho, hrest, bind, Except.bind, pure, Except.pure] using h
        have hopened : kr.opened (id, blob) = o := by
          unfold Keyring.opened
          rw [ho]
        rw [ih hrest, List.filterMap_cons, hopened]
        cases o <;> rfl

theorem openFrames_all {P : Record → Prop} {kr : Keyring} {frames : List Frame} {records : List Record}
    (hframes : ∀ f ∈ frames, ∀ r, kr.opened f = some r → P r) (h : openFrames kr frames = .ok records) :
    ∀ r ∈ records, P r := by
  intro r hr
  rw [openFrames_eq_filterMap h] at hr
  obtain ⟨f, hf, hopen⟩ := List.mem_filterMap.mp hr
  exact hframes f hf r hopen

/-- The fold starts from a snapshot's records or from nothing, and goes on with a tail of the log. -/
theorem foldFromSnapshot_all {Q : Uuid → Record → Prop} (hmerge : ∀ i a b, Q i a → Q i b → Q i (merge a b)) {v : Vault}
    {frames : List Frame} {snapshot : Option Snapshot} (hsnapshot : ∀ s, snapshot = some s → ∀ r ∈ s.records, Q r.id r)
    (hframes : ∀ f ∈ frames, ∀ r, v.keyring.opened f = some r → Q r.id r) {state : State} {n : Nat}
    (h : v.foldFromSnapshot frames snapshot = .ok (state, n)) : State.All Q state := by
  unfold foldFromSnapshot at h
  split at h
  rename_i seed start hseed
  have hstart : State.All Q seed := by
    split at hseed
    · split at hseed <;> obtain ⟨rfl, -⟩ := Prod.mk.inj hseed
      · exact State.All.empty.insertAll (hsnapshot _ rfl)
      · exact .empty
    · obtain ⟨rfl, -⟩ := Prod.mk.inj hseed
      exact .empty
  cases hrecords : openFrames v.keyring (frames.drop start) with
  | error e => simp [hrecords, bind, Except.bind] at h
  | ok records =>
    obtain ⟨rfl, -⟩ : records.foldl mergeInto seed = state ∧ start = n := by
      simpa [hrecords, bind, Except.bind, pure, Except.pure] using h
    exact hstart.foldl hmerge (openFrames_all (fun f hf => hframes f (List.mem_of_mem_drop hf)) hrecords)

end Vault

end SshVault
