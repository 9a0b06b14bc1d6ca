import SshVault.Client.Devices
import SshVault.Relay.Admission

/-!
# Recovery

The relay finds the vault of a recovery phrase by the key that the vault was founded with. Requests come from
anyone, and the database may be lost at any time.
-/

open Lib Prog

namespace SshVault

namespace Relay

/-! ## What a request founds -/

/-- The vault and the recovery key of an enrollment that decodes and verifies. -/
def asked (now : Now) : Request → Option (Wire × Bytes)
  | .post .enroll signed => do
    let (vault, _) ← (verify now.verify signed).toOption
    let r ← (jsonBody EnrollReq.ofJson signed.body).toOption
    if r.ed25519Pub ≠ signed.devicePub then none
    let _ ← r.x25519Pub.decode
    let recovery ← r.recoveryPub.decode
    return (vault, recovery)
  | _ => none

/-- The vaults with the keys they were founded with, in the order in which that was. -/
def founders (db : Db) : List (Wire × Bytes) := db.vaults.map fun v => (v.vaultId, v.recoveryPub)

/-- Only the first enrollment into a vault founds it. -/
def found (l : List (Wire × Bytes)) (e : Wire × Bytes) : List (Wire × Bytes) := Table.insertOrIgnore Prod.fst e l

/-- Every device is in a vault that was founded. -/
def Housed (db : Db) : Prop := ∀ r ∈ db.devices, Known db r.vaultId

variable {now : Now} {db db' : Db} {vault : Wire}

theorem known_iff : Known db vault ↔ ∃ e ∈ founders db, e.1 = vault := by
  unfold founders
  simp only [List.mem_map, exists_exists_and_eq_and]
  rfl

theorem founders_insertVault (recovery : Bytes) :
    founders ((Db.insertVault vault recovery).run db).2 = found (founders db) (vault, recovery) :=
  Table.map_insertOrIgnore fun _ => rfl

theorem known_insertVault (recovery : Bytes) : Known ((Db.insertVault vault recovery).run db).2 vault := by
  refine known_iff.mpr ?_
  rw [founders_insertVault]
  unfold found Table.insertOrIgnore
  split
  · rename_i hold
    exact hold
  · exact ⟨_, List.mem_append_right _ (List.mem_singleton.mpr rfl), rfl⟩

theorem vaultByRecovery_eq (recovery : Bytes) :
    db.vaultByRecovery recovery = ((founders db).find? (·.2 = recovery)).map (·.1) := by
  unfold Db.vaultByRecovery founders
  rw [List.find?_map, Option.map_map]
  rfl

/-! ## One request -/

theorem Effect.known {req : Request} (h : Effect now db req db') (hk : Known db vault) : Known db' vault := by
  have hepoch (n : Nat) (r : VaultRow) : VaultRow.vaultId { r with epoch := n } = r.vaultId := rfl
  cases h with
  | same h =>
    unfold Known
    rwa [h.vaults]
  | enroll =>
    refine known_iff.mpr ?_
    change ∃ e ∈ founders ((Db.insertVault _ _).run db).2, _
    rw [founders_insertVault]
    obtain ⟨e, he, hid⟩ := known_iff.mp hk
    unfold found Table.insertOrIgnore
    split
    · exact ⟨e, he, hid⟩
    · exact ⟨e, List.mem_append_left _ he, hid⟩
  | approve | revoke | recover => exact hk
  | rotate =>
    unfold Known
    rw [runAll_frame Db.vaults (fun _ _ => rfl)]
    exact Table.key_mem_update (hepoch _) hk
  | shareGrant => unfold Known; rwa [runAll_frame Db.vaults (fun _ _ => rfl)]
  | shareRotate => unfold Known; rwa [runAll_frame Db.vaults (fun _ _ => rfl), runAll_frame Db.vaults (fun _ _ => rfl)]
  | push => unfold Known; rwa [runAll_frame Db.vaults (fun _ _ => rfl)]

theorem Effect.housed {req : Request} (h : Effect now db req db') (hc : Housed db) : Housed db' := by
  intro r hr
  have hmono : ∀ r ∈ db.devices, Known db' r.vaultId := fun r hr => h.known (hc r hr)
  cases h with
  | same h => exact hmono r (h.devices ▸ hr)
  | enroll =>
    rcases Table.mem_upsert hr with ⟨hr, -⟩ | ⟨rfl, -⟩ | ⟨r₀, hr₀, -, rfl⟩
    · exact hmono r hr
    · exact known_insertVault _
    · exact hmono r₀ hr₀
  | approve | revoke =>
    rcases Table.mem_update hr with ⟨hr, -⟩ | ⟨r₀, hr₀, -, rfl⟩
    · exact hmono r hr
    · exact hmono r₀ hr₀
  | rotate =>
    rcases mem_rewrapAll hr with ⟨hr, -⟩ | ⟨r₀, hr₀, -, -, -, -, rfl⟩
    · exact hmono r hr
    · exact hmono r₀ hr₀
  | shareGrant | push =>
    rw [runAll_frame Db.devices (fun _ _ => rfl)] at hr
    exact hmono r hr
  | shareRotate =>
    rw [runAll_frame Db.devices (fun _ _ => rfl), runAll_frame Db.devices (fun _ _ => rfl)] at hr
    exact hmono r hr
  | recover _ _ _ hvault _ =>
    rcases Table.mem_upsert hr with ⟨hr, -⟩ | ⟨rfl, -⟩ | ⟨r₀, hr₀, -, rfl⟩
    · exact hmono r hr
    · obtain ⟨v, hv, hid⟩ := Option.map_eq_some_iff.mp hvault
      exact ⟨v, List.mem_of_find?_eq_some hv, hid⟩
    · exact hmono r₀ hr₀

theorem enroll_founders (hc : Housed db) (signed : Signed) :
    founders (exec (enroll now signed) db).2 = (asked now (.post .enroll signed)).elim (founders db) (found (founders db)) := by
  simp only [asked]
  unfold enroll
  refine ends_except (P := fun out => founders out.2 = _) (fun ⟨vault, key⟩ hv => ?_) fun e he => by rw [he]; rfl
  refine ends_except (P := fun out => founders out.2 = _) (fun r hr => ?_) fun e he => by rw [hv, he]; rfl
  unfold applyEnroll
  dsimp only
  rw [hv, hr]
  by_cases hself : r.ed25519Pub = signed.devicePub
  swap
  · rw [if_pos hself]
    change founders db = _
    simp [Except.toOption, hself]
  rw [if_neg (not_not.mpr hself)]
  refine ends_lift (P := fun out => founders out.2 = _) ?_
  dsimp only [Db.selectDevice, run_atom]
  by_cases hrev : (db.device vault (.ed key)).map (·.revoked) = some true
  · -- A revoked device is refused, and its vault is there already.
    obtain ⟨row, hrow, -⟩ := Option.map_eq_some_iff.mp hrev
    have hkey : row.key = (vault, .ed key) := by simpa using List.find?_some hrow
    have hknown : ∃ e ∈ founders db, e.1 = vault := by
      obtain ⟨e, he, hid⟩ := known_iff.mp (hc row (List.mem_of_find?_eq_some hrow))
      exact ⟨e, he, hid.trans (Prod.mk.inj hkey).1⟩
    rw [if_pos hrev]
    change founders db = _
    cases hx : r.x25519Pub.decode with
    | none => simp [Except.toOption, hself, hx]
    | some x =>
      cases hrec : r.recoveryPub.decode with
      | none => simp [Except.toOption, hself, hx, hrec]
      | some recovery =>
        have hsame : found (founders db) (vault, recovery) = founders db := Table.insertOrIgnore_eq_self.mpr hknown
        simp [Except.toOption, hself, hx, hrec, hsame]
  rw [if_neg hrev]
  refine ends_except (P := fun out => founders out.2 = _) (fun x hx => ?_) fun e he => ?_
  swap
  · have hx : r.x25519Pub.decode = none := by
      cases hd : r.x25519Pub.decode with
      | none => rfl
      | some x => rw [hd] at he; cases he
    change founders db = _
    simp [Except.toOption, hself, hx]
  refine ends_except (P := fun out => founders out.2 = _) (fun recovery hrec => ?_) fun e he => ?_
  swap
  · have hrec : r.recoveryPub.decode = none := by
      cases hd : r.recoveryPub.decode with
      | none => rfl
      | some x => rw [hd] at he; cases he
    change founders db = _
    simp [Except.toOption, hself, orReject_ok hx, hrec]
  have hnew : founders ((Db.insertVault vault recovery).run db).2 = found (founders db) (vault, recovery) :=
    founders_insertVault recovery
  change founders ((Db.insertVault vault recovery).run db).2 = _
  rw [hnew]
  simp [Except.toOption, hself, orReject_ok hx, orReject_ok hrec]

theorem route_founders (hc : Housed db) (now : Now) (req : Request) :
    founders (exec (route now req) db).2 = (asked now req).elim (founders db) (found (founders db)) := by
  have heffect := route_effect now req db
  by_cases henroll : ∃ signed, req = .post .enroll signed
  · obtain ⟨signed, rfl⟩ := henroll
    rw [← enroll_founders hc]
    exact congrArg founders after_map
  have hnone : asked now req = none := by
    unfold asked
    split
    · exact absurd ⟨_, rfl⟩ henroll
    · rfl
  rw [hnone, Option.elim_none]
  generalize (exec (route now req) db).2 = db' at heffect
  cases heffect with
  | same h => exact congrArg (List.map _) h.vaults
  | enroll => exact absurd ⟨_, rfl⟩ henroll
  | approve | revoke | recover => rfl
  | rotate =>
    unfold founders
    rw [runAll_frame Db.vaults (fun _ _ => rfl)]
    change (Table.update _ _ db.vaults).map _ = _
    unfold Table.update
    rw [List.map_map]
    refine List.map_congr_left fun v _ => ?_
    change (fun v : VaultRow => (v.vaultId, v.recoveryPub)) (if _ then _ else v) = _
    split <;> rfl
  | shareGrant => unfold founders; rw [runAll_frame Db.vaults (fun _ _ => rfl)]; rfl
  | shareRotate =>
    unfold founders
    rw [runAll_frame Db.vaults (fun _ _ => rfl), runAll_frame Db.vaults (fun _ _ => rfl)]
  | push => unfold founders; rw [runAll_frame Db.vaults (fun _ _ => rfl)]

/-! ## Runs -/

/-- The database is lost, or the relay handles a request. -/
inductive Event where
  | wipe
  | request (now : Now) (req : Request)

def Db.next (db : Db) : Event → Db
  | .wipe => {}
  | .request now req => (exec (route now req) db).2

/-- The database of a new relay after these events. -/
def after (events : List Event) : Db := events.foldl Db.next {}

/-- Adds what an event asks for. A wipe makes the relay forget. -/
def askNext (l : List (Wire × Bytes)) : Event → List (Wire × Bytes)
  | .wipe => []
  | .request now req => l ++ (asked now req).toList

/-- The enrollments since the last wipe. -/
def asks (events : List Event) : List (Wire × Bytes) := events.foldl askNext []

/-- The vaults that enrollments found, each with the recovery key of its first one, in order. -/
def foundedBy (l : List (Wire × Bytes)) : List (Wire × Bytes) := l.foldl found []

theorem next_founders {l : List (Wire × Bytes)} (hl : founders db = foundedBy l) (hc : Housed db) (e : Event) :
    founders (Db.next db e) = foundedBy (askNext l e) ∧ Housed (Db.next db e) := by
  cases e with
  | wipe => exact ⟨rfl, fun r hr => nomatch hr⟩
  | request now req =>
    refine ⟨?_, (route_effect now req db).housed hc⟩
    change founders (exec (route now req) db).2 = foundedBy (l ++ _)
    rw [route_founders hc, hl]
    unfold foundedBy
    cases asked now req with
    | none => simp
    | some e => simp

theorem after_founders (events : List Event) : founders (after events) = foundedBy (asks events) := by
  have hall : ∀ (db : Db) (l : List (Wire × Bytes)), founders db = foundedBy l → Housed db →
      founders (events.foldl Db.next db) = foundedBy (events.foldl askNext l) := by
    induction events with
    | nil => exact fun db l hl _ => hl
    | cons e events ih =>
      intro db l hl hc
      obtain ⟨hl', hc'⟩ := next_founders hl hc e
      exact ih _ _ hl' hc'
  exact hall {} [] rfl fun r hr => nomatch hr

theorem founded_iff (l : List (Wire × Bytes)) (vault : Wire) :
    (∃ e ∈ foundedBy l, e.1 = vault) ↔ ∃ e ∈ l, e.1 = vault := by
  induction l using List.reverseRecOn with
  | nil => rfl
  | append_singleton l e ih =>
    have hstep : foundedBy (l ++ [e]) = Table.insertOrIgnore Prod.fst e (foundedBy l) := by
      unfold foundedBy
      rw [List.foldl_append]
      rfl
    rw [hstep]
    unfold Table.insertOrIgnore
    split
    · rename_i hold
      rw [ih]
      refine ⟨fun ⟨e', he', hid⟩ => ⟨e', List.mem_append_left _ he', hid⟩, ?_⟩
      rintro ⟨e', he', rfl⟩
      rcases List.mem_append.mp he' with he' | he'
      · exact ⟨e', he', rfl⟩
      · obtain rfl := List.mem_singleton.mp he'
        exact ih.mp (by simpa using hold)
    · simp only [List.mem_append, List.mem_singleton, or_and_right, exists_or, ih]

/-! ## Recovering -/

/-- A well-formed recovery request, signed with this recovery key. -/
structure Recovers (req : RecoverReq) (recovery ed : EdKey) : Prop where
  recoveryPub : req.recoveryPub.decodeEd = some recovery
  ed25519Pub : req.ed25519Pub.decodeEd = some ed
  sig : req.sig.signature = some ⟨recovery, .deviceKey ed⟩
  x25519Pub : req.x25519Pub.decode ≠ none

/-- Whoever has the recovery key gets into this vault. -/
def Recoverable (db : Db) (recovery : EdKey) (vault : Wire) : Prop :=
  ∀ req ed, Recovers req recovery ed →
    (exec (recover req) db).1 = .ok vault ∧ (exec (recover req) db).2.canSync vault ed = true

theorem exec_recover {req : RecoverReq} {recovery ed : EdKey} (h : Recovers req recovery ed) (db : Db) :
    ∃ x, exec (recover req) db = match db.vaultByRecovery (.ed recovery) with
      | none => (.error (notFound "no vault for this phrase"), db)
      | some vault => (.ok vault, ((Db.recoverDevice vault (.ed ed) x req.deviceName).run db).2) := by
  obtain ⟨x, hx⟩ := Option.ne_none_iff_exists'.mp h.x25519Pub
  refine ⟨x, ?_⟩
  unfold recover
  rw [h.recoveryPub, h.ed25519Pub, h.sig, hx]
  simp only [orReject, exec_bind, exec_liftExcept, exec_lift, ne_eq, not_true_eq_false, if_false, Db.selectVault, run_atom]
  cases db.vaultByRecovery (.ed recovery) with
  | none => rfl
  | some vault => rfl

theorem canSync_recoverDevice (vault : Wire) (ed : EdKey) (x : Bytes) (name : Wire) (db : Db) :
    ((Db.recoverDevice vault (.ed ed) x name).run db).2.canSync vault ed = true := by
  unfold Db.canSync Db.device
  change ((Table.upsert DeviceRow.key _ _ db.devices).find? (·.key = (vault, .ed ed))).any DeviceRow.canSync = true
  have hset (r : DeviceRow) : DeviceRow.key { r with approved := true, revoked := false, x25519Pub := x } = r.key := rfl
  rw [Table.find_upsert hset]
  refine (congrArg (Option.any _) (if_pos rfl)).trans ?_
  cases db.devices.find? (·.key = (vault, .ed ed)) with
  | none => rfl
  | some r => rfl

theorem recoverable_iff {recovery : EdKey} :
    Recoverable db recovery vault ↔ db.vaultByRecovery (.ed recovery) = some vault := by
  constructor
  · intro h
    let req := Devices.recoverReq "" recovery ⟨0, .device 0, 0⟩
    have hreq : Recovers req recovery (.device 0) := ⟨rfl, rfl, rfl, Option.some_ne_none _⟩
    obtain ⟨hans, -⟩ := h req (.device 0) hreq
    obtain ⟨x, hexec⟩ := exec_recover hreq db
    rw [hexec] at hans
    cases hv : db.vaultByRecovery (.ed recovery) with
    | none =>
      rw [hv] at hans
      cases hans
    | some vault' =>
      rw [hv] at hans
      exact congrArg some (Except.ok.inj hans)
  · intro hv req ed hreq
    obtain ⟨x, hexec⟩ := exec_recover hreq db
    rw [hexec, hv]
    exact ⟨rfl, canSync_recoverDevice ..⟩

/-- **Recovery finds the vault** of a phrase in every run exactly as long as it is, since the database was last
lost, the first vault to be founded with the phrase's key. -/
theorem recovery_finds_iff (events : List Event) (recovery : EdKey) (vault : Wire) :
    (∀ l, l <+: events → Known (after l) vault → Recoverable (after l) recovery vault) ↔
      ∀ l, l <+: events → (∃ e ∈ asks l, e.1 = vault) →
        (foundedBy (asks l)).find? (·.2 = .ed recovery) = some (vault, .ed recovery) := by
  refine forall₂_congr fun l _ => ?_
  rw [known_iff, after_founders, founded_iff, recoverable_iff, vaultByRecovery_eq, after_founders]
  refine imp_congr_right fun _ => ⟨fun h => ?_, fun h => by rw [h]; rfl⟩
  obtain ⟨e, he, rfl⟩ := Option.map_eq_some_iff.mp h
  have hkey : e.2 = .ed recovery := by simpa using List.find?_some he
  rw [he, ← hkey]

/-! ## A vault and its devices -/

/-- The request that a device enrolls with. -/
def enrollRequest (d : Device) (ts : Int64) : Request :=
  let m := d.vault.metadata
  (Outgoing.post d.vaultId d.key
    (.enroll ⟨.plain m.deviceName, .b64 (.ed d.key), .b64 (.x m.x25519Pub), .b64 m.recoveryPub⟩)).request ts

/-- The device that created the vault. -/
def founder : Device :=
  let (disk, v) := Vault.createWithKeys "laptop" 7 (.vault 1 0) (.ed (.recovery 1)) 0 (.device 0) 10
  ⟨disk, v⟩

/-- A device that joined with `enroll_and_wait`. It does not know the recovery key, and has 32 zero bytes. -/
def joiner : Device :=
  let (disk, v) := Vault.createWithKeys "phone" 7 (.random nil 0 0) (.other 1) 1 (.device 1) 11
  ⟨disk, v⟩

/-- Both devices are enrolled, the database is lost, and the one that joined comes back first. The vault is there
again, and its recovery key finds nothing. -/
theorem joiner_refounds : ¬ ∀ events : List Event, events.head? = some (.request 0 (enrollRequest founder 0)) →
    ∀ l, l <+: events → Known (after l) founder.vaultId → Recoverable (after l) (.recovery 1) founder.vaultId := by
  intro h
  let events : List Event := [.request 0 (enrollRequest founder 0), .request 0 (enrollRequest joiner 0), .wipe,
    .request 0 (enrollRequest joiner 0)]
  have hknown : Known (after events) founder.vaultId := ⟨⟨founder.vaultId, .other 1, 0⟩, by decide +kernel, rfl⟩
  have hfound := recoverable_iff.mp (h events rfl events List.prefix_rfl hknown)
  exact absurd hfound (by decide +kernel)

end Relay

end SshVault
