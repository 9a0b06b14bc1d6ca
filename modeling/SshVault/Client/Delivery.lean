import SshVault.Client.Cursor
import SshVault.Client.Fleet
import SshVault.Lib.Network

/-!
# Delivery

Devices write and sync through a relay, others send it what they like, and requests and answers get lost. After a round
that ends well, all of the device's log is at the relay; and no device ever lacks an entry of the default share that its
cursor has passed. The relay here handles one request at a time: where a push falls between the two SELECTs of a pull,
the cursor passes what the pull has not seen.
-/

open Lib

namespace SshVault

open Relay Prog

namespace Delivery

open Devices Sync Client

/-! ## The devices and the relay -/

/-- What a device is told to do. The other commands change keys only. -/
inductive Chore where
  | sync
  | write (w : Write)
  | rotate (phrase : Phrase)
  | createShare (share : Uuid) (n : Nat)
  | rotateShare (share : Uuid) (n : Nat)
  | compact
  | reload

/-- What a round counts, or nothing. -/
abbrev Outcome := Except ClientError (Option (Nat × Nat))

def Chore.prog : Chore → Op (Option (Nat × Nat))
  | .sync => do
    let out ← syncOnce
    return some out
  | .write w => do
    onVault w.prog
    return none
  | .rotate phrase => do
    let _ ← onVault (·.rotate phrase)
    return none
  | .createShare share n => do
    updateVault (·.createShare share n)
    return none
  | .rotateShare share n => do
    let _ ← onVault (·.rotateShare share n)
    return none
  | .compact => do
    let _ ← onVault (·.compact)
    return none
  | .reload => do
    onVault (·.reload)
    return none

/-- The relay after a request of anybody, as a whole. -/
def Asked (s t : Db) : Prop := ∃ now req, t = (exec (route now req) s).2

def network : Network Chore Device Call Response Outcome Db Clocks where
  work task := task.prog
  serve clocks call := exec (route clocks.now (call.what.request clocks.ts))
  others := Asked

/-! ## The relay moves on -/

/-- The log has only got longer. -/
structure Onward (s t : Db) : Prop where
  log : s.entries <+: t.entries
  later : Later s t

theorem Onward.refl (s : Db) : Onward s s := ⟨List.prefix_rfl, .refl s⟩

theorem Onward.trans {s t u : Db} (h : Onward s t) (h' : Onward t u) : Onward s u :=
  ⟨h.log.trans h'.log, h.later.trans h'.later⟩

theorem exec_onward (now : Now) (req : Request) (db : Db) : Onward db (exec (route now req) db).2 :=
  (route_traced now req).exec (P := Onward db)
    (fun _ _ _ hstep hs => hs.trans ⟨hstep.appends, hstep.later⟩) (.refl db)

/-- An entry with this id is at the relay. -/
def Stored (vault : Wire) (i : Uuid) (db : Db) : Prop := ∃ e ∈ db.entries, e.vaultId = vault ∧ e.entryId = .uuid i

/-- The whole log is at the relay. -/
def Delivered (d : Device) (db : Db) : Prop := ∀ f ∈ d.disk.log, Stored d.vaultId f.1 db

theorem Onward.stored {s t : Db} {vault : Wire} {i : Uuid} (h : Onward s t) (hs : Stored vault i s) : Stored vault i t := by
  obtain ⟨e, he, hrest⟩ := hs
  exact ⟨e, h.log.subset he, hrest⟩

/-! ## The cursor -/

/-- The device lacks no entry of the default share up to its cursor. -/
structure Kept (id : Identity) (d : Device) (db : Db) : Prop where
  self : d.self = id
  onDisk : d.disk.metadata = d.vault.metadata
  entries : ∀ e ∈ db.entries, e.vaultId = vaultOf id → e.shareId = nil → e.seq ≤ d.vault.metadata.syncCursor → d.has e
  cursor : d.vault.metadata.syncCursor < db.nextSeq
  seqs : ∀ e ∈ db.entries, 0 < e.seq

variable {id : Identity} {d d' : Device} {db db' : Db}

theorem Kept.onward (h : Kept id d db) (ho : Onward db db') : Kept id d db' := by
  refine ⟨h.self, h.onDisk, fun e he hv hnil hle => ?_, h.cursor.trans_le ho.later.next, fun e he => ?_⟩
  · rcases ho.later.entries e he with hold | hnew
    · exact h.entries e hold hv hnil hle
    · exact absurd (h.cursor.trans_le (hnew.trans hle)) (lt_irrefl _)
  · exact (ho.later.entries e he).elim (h.seqs e) (Nat.succ_pos _).trans_le

/-- The log may be longer, the keys and the records may be others. -/
structure Grew (d d' : Device) : Prop where
  self : d'.self = d.self
  log : ∀ f ∈ d.disk.log, f ∈ d'.disk.log
  onDisk : d.disk.metadata = d.vault.metadata → d'.disk.metadata = d'.vault.metadata
  cursor : d.disk.metadata = d.vault.metadata → d'.vault.metadata.syncCursor = d.vault.metadata.syncCursor

theorem Grew.refl (d : Device) : Grew d d := ⟨rfl, fun _ h => h, fun h => h, fun _ => rfl⟩

theorem Grew.trans {d₁ d₂ d₃ : Device} (h : Grew d₁ d₂) (h' : Grew d₂ d₃) : Grew d₁ d₃ :=
  ⟨h'.self.trans h.self, fun f hf => h'.log f (h.log f hf), fun hd => h'.onDisk (h.onDisk hd),
    fun hd => (h'.cursor (h.onDisk hd)).trans (h.cursor hd)⟩

theorem Grew.has {e : EntryRow} (h : Grew d d') (he : d.has e) : d'.has e := by
  obtain ⟨i, hi, f, hf, hfi⟩ := he
  exact ⟨i, hi, f, h.log f hf, hfi⟩

theorem Kept.grew (h : Kept id d db) (hg : Grew d d') : Kept id d' db := by
  refine ⟨hg.self.trans h.self, hg.onDisk h.onDisk, fun e he hv hnil hle => ?_, hg.cursor h.onDisk ▸ h.cursor, h.seqs⟩
  rw [hg.cursor h.onDisk] at hle
  exact hg.has (h.entries e he hv hnil hle)

/-! ## Work on the device -/

theorem grew_keyring {kr : Keyring} (hx : kr.x25519Secret = d.vault.keyring.x25519Secret)
    (hed : kr.ed25519Secret = d.vault.keyring.ed25519Secret) :
    Grew d (d.rekey kr) :=
  ⟨Device.rekey_self hx hed, fun _ h => h, fun h => h, fun _ => rfl⟩

theorem grew_nextRandom (share : Uuid) (n : Nat) : Grew d ⟨{ d.disk with keyring := d.vault.nextRandom share n },
    { d.vault with keyring := d.vault.nextRandom share n }⟩ :=
  grew_keyring (by simp [Vault.nextRandom]) (by simp [Vault.nextRandom])

theorem grew_perform {α : Type} {op : Vault → Prog Disk (Except VaultError α × Vault)} {r : Except VaultError α} {v : Vault}
    {disk : Disk} {Q : Device → α → Db → Prop} {E : Device → Db → Prop}
    {serves : Call → Db → Answer → Db → Prop} (hrun : (op d.vault).run d.disk = ((r, v), disk)) (hg : Grew d ⟨disk, v⟩)
    (hQ : ∀ d' a, Grew d d' → Q d' a db) (hE : ∀ d', Grew d d' → E d' db) : Meets serves Q E (onVault op) d db :=
  Cursor.onVault_meets hrun (fun a _ => hQ _ a hg) fun _ _ => hE _ hg

/-- Only the records are others. -/
def Shows (v v' : Vault) : Prop := ∃ state, v' = { v with state }

theorem compact_shows (v : Vault) : v.compact.Ends fun r => Shows v r.2 := by
  unfold Vault.compact
  refine Prog.Ends.bind (P := fun _ => True) (Prog.Ends.atom fun _ => trivial) fun frames _ => ?_
  split
  · exact ⟨_, rfl⟩
  · dsimp only
    split
    · exact ⟨_, rfl⟩
    · exact Prog.Ends.bind (P := fun _ => True) (Prog.Ends.atom fun _ => trivial) fun _ _ => ⟨_, rfl⟩

theorem replayLog_shows (v : Vault) : v.replayLog.Ends fun r => Shows v r.2 := by
  unfold Vault.replayLog
  refine Prog.Ends.bind (P := fun _ => True) (Prog.Ends.atom fun _ => trivial) fun frames _ => ?_
  refine Prog.Ends.bind (P := fun _ => True) (Prog.Ends.atom fun _ => trivial) fun snapshot _ => ?_
  split
  · exact ⟨_, rfl⟩
  · split
    · refine Prog.Ends.bind (compact_shows _) fun r hr => ?_
      obtain ⟨state, hstate⟩ := hr
      exact ⟨state, hstate⟩
    · exact ⟨_, rfl⟩

/-- What changes the records and the cache only. -/
theorem grew_shows {v : Vault} {disk : Disk} (hv : Shows d.vault v) (hdisk : Vault.Cached d.disk disk) : Grew d ⟨disk, v⟩ := by
  obtain ⟨state, rfl⟩ := hv
  obtain ⟨snapshot, rfl⟩ := hdisk
  exact ⟨rfl, fun _ h => h, fun h => h, fun _ => rfl⟩

theorem grew_reload {v : Vault} {disk : Disk} (h : d.disk.metadata = d.vault.metadata)
    (hv : Shows { d.vault with metadata := d.disk.metadata } v) (hdisk : Vault.Cached d.disk disk) : Grew d ⟨disk, v⟩ := by
  rw [h] at hv
  exact grew_shows hv hdisk

theorem grew_write (w : Write) : Grew d (d.perform w.prog) := by
  have h := (Vault.write_spec (v := d.vault) (d := d.disk) w).run
  unfold Device.perform
  generalize (w.prog d.vault).run d.disk = out at h ⊢
  obtain ⟨⟨res, v⟩, disk⟩ := out
  have hgrew : ∀ v disk, Vault.LocalWrite d.vault d.disk v disk → Grew d ⟨disk, v⟩ := by
    intro v disk hw
    cases hw with
    | refused => exact .refl d
    | spent =>
      refine ⟨rfl, fun _ h => h, fun _ => rfl, fun h => ?_⟩
      change max _ _ = _
      rw [h, max_self]
    | wrote r key entryId =>
      refine ⟨rfl, fun _ h => List.mem_append_left _ h, fun _ => rfl, fun h => ?_⟩
      change max _ _ = _
      rw [h, max_self]
  exact hgrew v disk h

/-- What the commands but the sync come to. -/
theorem chore_meets {serves : Call → Db → Answer → Db → Prop} {Q : Device → Option (Nat × Nat) → Db → Prop}
    {E : Device → Db → Prop} (chore : Chore) (hsync : chore ≠ .sync) (hd : d.disk.metadata = d.vault.metadata)
    (hQ : ∀ d', Grew d d' → Q d' none db) (hE : ∀ d', Grew d d' → E d' db) : Meets serves Q E chore.prog d db := by
  cases chore with
  | sync => exact absurd rfl hsync
  | write w =>
    have hg : Grew d ⟨((w.prog d.vault).run d.disk).2, ((w.prog d.vault).run d.disk).1.2⟩ := grew_write w
    exact Meets.bind (grew_perform rfl hg (fun d' _ hg => Meets.pure (hQ d' hg)) hE)
  | rotate phrase =>
    have hg : Grew d ⟨((d.vault.rotate phrase).run d.disk).2, ((d.vault.rotate phrase).run d.disk).1.2⟩ := by
      cases hkey : Crypto.vaultKeyAtEpoch phrase (d.vault.epoch + 1) with
      | error e =>
        rw [Vault.run_rotate_error hkey]
        exact .refl d
      | ok key =>
        rw [Vault.run_rotate hkey]
        exact grew_keyring (by simp) (by simp)
    exact Meets.bind (grew_perform rfl hg (fun d' _ hg => Meets.pure (hQ d' hg)) hE)
  | createShare share n =>
    exact Meets.bind (m := updateVault _) (hQ _ (grew_nextRandom share n))
  | rotateShare share n =>
    have hg : Grew d ⟨((d.vault.rotateShare share n).run d.disk).2, ((d.vault.rotateShare share n).run d.disk).1.2⟩ := by
      cases hhas : d.vault.keyring.hasShare share with
      | false =>
        rw [Vault.run_rotateShare_error n hhas]
        exact .refl d
      | true =>
        rw [Vault.run_rotateShare n hhas]
        exact grew_nextRandom share n
    exact Meets.bind (grew_perform rfl hg (fun d' _ hg => Meets.pure (hQ d' hg)) hE)
  | compact =>
    have hg : Grew d ⟨((d.vault.compact).run d.disk).2, ((d.vault.compact).run d.disk).1.2⟩ :=
      grew_shows ((compact_shows _).run _) (Vault.cached_run (Vault.compact_cached _) _)
    exact Meets.bind (grew_perform rfl hg (fun d' _ hg => Meets.pure (hQ d' hg)) hE)
  | reload =>
    have hg : Grew d ⟨((d.vault.reload).run d.disk).2, ((d.vault.reload).run d.disk).1.2⟩ :=
      grew_reload hd ((replayLog_shows _).run _) (Vault.cached_run (Vault.replayLog_cached _) _)
    exact Meets.bind (grew_perform rfl hg (fun d' _ hg => Meets.pure (hQ d' hg)) hE)

/-! ## One round -/

/-- What a device may count on, with the relay between its requests as it likes. -/
abbrev Keeps {α : Type} (id : Identity) (Q : Device → α → Db → Prop) (m : Op α) (d : Device) (db : Db) : Prop :=
  Meets (network.Serves Onward) Q (Kept id) m d db

variable {call : Call} {a : Answer}

theorem served (hs : network.Serves Onward call db a db') : Onward db db' ∧ (a = none ∨ ∃ now ts u, Onward db u ∧
    a = some (exec (route now (call.what.request ts)) u).1 ∧ Onward (exec (route now (call.what.request ts)) u).2 db') := by
  cases hs with
  | answered how hu hv => exact ⟨(hu.trans (exec_onward ..)).trans hv, Or.inr ⟨how.now, how.ts, _, hu, rfl, hv⟩⟩
  | lost hu => exact ⟨hu, Or.inl rfl⟩

/-- The keys may be others. -/
structure Rekeyed (id : Identity) (d d' : Device) (db : Db) : Prop where
  kept : Kept id d' db
  log : d'.disk.log = d.disk.log

theorem Rekeyed.absorb (h : Rekeyed id d d' db) (share : Uuid) (list : KeyBytes) :
    Rekeyed id d (d'.perform (·.absorbShareKey share list)) db := by
  rcases d'.perform_absorbShareKey share list with hsame | ⟨keys, -, -, hnew⟩
  · rwa [hsame]
  · rw [hnew]
    exact ⟨h.kept.grew (grew_keyring (by simp) (by simp)), h.log⟩

theorem heals_rekeyed (d : Device) (db : Db) :
    Heals (.meets (network.Serves Onward)) fun d' db' => Rekeyed id d d' db' ∧ Onward db db' where
  asks action := by
    refine .bind (.ask fun d' db' h a db'' hs => ?_) fun _ => .lift _
    have ho := (served hs).1
    exact ⟨⟨h.1.kept.onward ho, h.1.log⟩, h.2.trans ho⟩
  absorbs share list := .onState fun _ _ h => ⟨h.1.absorb share list, h.2⟩

theorem healShares_keeps {Q : Device → Bool → Db → Prop} (hd : Kept id d db)
    (hQ : ∀ d' g db', Rekeyed id d d' db' → Onward db db' → Q d' g db') : Keeps id Q healShares d db :=
  (Judgement.Keeps.meets.mp (heals_rekeyed d db).healShares d db ⟨⟨hd, rfl⟩, .refl db⟩).imp
    (fun d' g db' h => hQ d' g db' h.1 h.2) fun _ _ h => h.1.kept

/-! ### The push -/

/-- The rows that a push of these entries puts in, as far as they are not there. -/
def pushed (vault : Wire) (entries : List (Uuid × Bytes × Uuid)) (db : Db) : Db :=
  runAll (fun e => Db.insertEntry vault e.1 e.2.1 e.2.2) (entries.map fun e => (Bytes.uuid e.1, e.2.1, e.2.2)) db

theorem insertEntry_stored (vault : Wire) (i : Uuid) (blob : Bytes) (share : Uuid) (db : Db) :
    Stored vault i ((Db.insertEntry vault (.uuid i) blob share).run db).2 ∧
      ∀ j, Stored vault j db → Stored vault j ((Db.insertEntry vault (.uuid i) blob share).run db).2 := by
  change Stored vault i { db with entries := Table.insertOrIgnore EntryRow.key _ _ } ∧
    ∀ j, _ → Stored vault j { db with entries := Table.insertOrIgnore EntryRow.key _ _ }
  unfold Table.insertOrIgnore
  split
  · rename_i hold
    obtain ⟨e, he, hkey⟩ := hold
    obtain ⟨hv, hi⟩ := Prod.mk.inj hkey
    exact ⟨⟨e, he, hv, hi⟩, fun _ h => h⟩
  · refine ⟨⟨_, List.mem_append_right _ (List.mem_singleton_self _), rfl, rfl⟩, fun j h => ?_⟩
    obtain ⟨e, he, hrest⟩ := h
    exact ⟨e, List.mem_append_left _ he, hrest⟩

theorem pushed_stored (vault : Wire) (entries : List (Uuid × Bytes × Uuid)) (db : Db) :
    (∀ e ∈ entries, Stored vault e.1 (pushed vault entries db)) ∧
      ∀ j, Stored vault j db → Stored vault j (pushed vault entries db) := by
  induction entries generalizing db with
  | nil => exact ⟨List.forall_mem_nil _, fun _ h => h⟩
  | cons e entries ih =>
    obtain ⟨hnew, hold⟩ := insertEntry_stored vault e.1 e.2.1 e.2.2 db
    obtain ⟨hrest, hkeeps⟩ := ih ((Db.insertEntry vault (.uuid e.1) e.2.1 e.2.2).run db).2
    exact ⟨List.forall_mem_cons.mpr ⟨hkeeps _ hnew, hrest⟩, fun j hj => hkeeps j (hold j hj)⟩

theorem push_reply {now : Now} {ts : Int64} {vault : Wire} {key : EdKey} {entries : List (Uuid × Bytes × Uuid)} {reply : Reply} {db : Db}
    (h : (exec (route now (Outgoing.request ts (.post vault key (.push ⟨entries.map Sync.wireEntry⟩)))) db).1 = .ok reply) :
    (exec (route now (Outgoing.request ts (.post vault key (.push ⟨entries.map Sync.wireEntry⟩)))) db).2 =
      pushed vault entries db := by
  let r : PushReq := ⟨entries.map Sync.wireEntry⟩
  let signed := envelope vault key ts (.json (ClientReq.push r).toJson)
  have hreads : jsonBody PushReq.ofJson signed.body = .ok r := by
    have hdec := decodeAt_toJson (.push r) .push
    rw [decodeAt] at hdec
    obtain ⟨r', hr', heq⟩ := Option.map_eq_some_iff.mp hdec
    obtain rfl := ClientReq.push.inj heq
    change orReject (PushReq.ofJson (ClientReq.push r).toJson) _ = _
    rw [hr']
    rfl
  change (exec (do return Reply.push (← push now signed)) db).1 = _ at h
  change (exec (do return Reply.push (← push now signed)) db).2 = _
  rw [Cursor.exec_reply] at h ⊢
  unfold push applyPush at h ⊢
  rw [exec_bind, exec_authorize] at h ⊢
  cases hv : verify now.verify signed with
  | error e =>
    rw [hv] at h
    cases h
  | ok out =>
    obtain ⟨vault', key'⟩ := out
    rw [hv] at h
    obtain ⟨-, hvault, -, -⟩ := verify_ok hv
    obtain rfl : vault' = vault := hvault
    by_cases hcan : db.canSync vault' key' = true
    · dsimp only at h ⊢
      rw [if_pos hcan] at h ⊢
      dsimp only at h ⊢
      rw [exec_bind, exec_liftExcept, hreads] at h ⊢
      dsimp only at h ⊢
      rw [exec_bind] at h ⊢
      obtain ⟨ran, -, hdb, ⟨⟨n, hn⟩, hran⟩ | ⟨e, he, -⟩⟩ := exec_forEach decodeEntry
        (fun e => Db.insertEntry vault' e.1 e.2.1 e.2.2) r.entries db
      · obtain rfl := Except.ok.inj (hran.symm.trans (decodes_wireEntry entries))
        rcases hloop : exec (forEach decodeEntry (fun e => Db.insertEntry vault' e.1 e.2.1 e.2.2) r.entries) db with ⟨res, db'⟩
        rw [hloop] at hn hdb
        obtain rfl : res = .ok n := hn
        exact hdb
      · rcases hloop : exec (forEach decodeEntry (fun e => Db.insertEntry vault' e.1 e.2.1 e.2.2) r.entries) db with ⟨res, db'⟩
        rw [hloop] at he h
        obtain rfl : res = .error e := he
        cases h
    · dsimp only at h
      rw [if_neg hcan] at h
      cases h

/-! ### The pull -/

theorem tagged_log {kr : Keyring} {log : List (Uuid × Bytes)} {entries : List (Uuid × Bytes × Uuid)}
    (h : (log.mapM fun (id, blob) => do
      let opened ← kr.openEntry id blob
      return ((id, blob, (opened.map fun r : Record => r.shareId).getD nil) : Uuid × Bytes × Uuid)) = .ok entries) :
    (entries.map fun e => (e.1, e.2.1)) = log := by
  induction log generalizing entries with
  | nil =>
    obtain rfl := Except.ok.inj h
    rfl
  | cons f log ih =>
    rw [List.mapM_cons] at h
    cases hf : kr.openEntry f.1 f.2 with
    | error e =>
      change ((kr.openEntry f.1 f.2).bind fun opened => _) >>= _ = _ at h
      rw [hf] at h
      cases h
    | ok o =>
      change ((kr.openEntry f.1 f.2).bind fun opened => _) >>= _ = _ at h
      rw [hf] at h
      change Except.bind (List.mapM _ log) _ = _ at h
      cases hrest : (log.mapM fun (id, blob) => do
          let opened ← kr.openEntry id blob
          return ((id, blob, (opened.map fun r : Record => r.shareId).getD nil) : Uuid × Bytes × Uuid)) with
      | error e =>
        rw [hrest] at h
        cases h
      | ok rest =>
        rw [hrest] at h
        obtain rfl := Except.ok.inj h
        rw [List.map_cons, ih hrest]

theorem rawEntries_keeps {Q : Device → List (Uuid × Bytes × Uuid) → Db → Prop} (hd : Kept id d db)
    (hQ : ∀ entries, (entries.map fun e => (e.1, e.2.1)) = d.disk.log → Q d entries db) :
    Keeps id Q (onVault fun v => do return (← v.rawEntriesTagged, v)) d db :=
  Cursor.onVault_meets rfl (fun entries h => hQ entries (tagged_log h)) fun _ _ => hd

/-- Only what is listed here has come into the log. -/
structure Took (l : List WireEntry) (d d' : Device) : Prop where
  grew : Grew d d'
  listed : ∀ e ∈ l, ∃ i, e.entryId.decode16 = some i ∧ Cursor.Listed d' i
  origin : ∀ f ∈ d'.disk.log, f ∈ d.disk.log ∨ ∃ e ∈ l, e.entryId.decode16 = some f.1

theorem applyEntry_keeps {i : Uuid} {blob : Bytes} {Q : Device → Unit → Db → Prop} (hd : Kept id d db)
    (hQ : ∀ d', Grew d d' → d'.disk.log = d.disk.log ++ [(i, blob)] → Q d' () db) :
    Keeps id Q (onVault (·.applyRemoteEntry i blob)) d db := by
  cases ho : d.vault.keyring.openEntry i blob with
  | error e => exact Cursor.onVault_meets (Vault.run_applyRemoteEntry_error ho) (fun a ha => nomatch ha) fun _ _ => hd
  | ok o =>
    refine Cursor.onVault_meets (Vault.run_applyRemoteEntry ho) (fun _ _ => hQ _ ?_ rfl) fun e he => nomatch he
    refine ⟨rfl, fun f hf => List.mem_append_left _ hf, fun _ => rfl, fun h => ?_⟩
    change max _ _ = _
    rw [h, max_self]

theorem applyEntries_keeps {held : List Uuid} {l : List WireEntry} {Q : Device → Nat → Db → Prop} (hd : Kept id d db)
    (hheld : ∀ i ∈ held, Cursor.Listed d i) (hQ : ∀ d' n, Took l d d' → Q d' n db) :
    Keeps id Q (applyEntries held l) d db := by
  induction l generalizing d Q with
  | nil => exact Meets.pure (hQ d 0 ⟨.refl d, List.forall_mem_nil _, fun _ h => Or.inl h⟩)
  | cons e rest ih =>
    refine Meets.bind (Meets.lift (fun i hi => ?_) fun _ _ => hd)
    have hid := Cursor.orBad_eq_ok hi
    split
    · rename_i hin
      refine ih hd hheld fun d' n ht => hQ d' n ⟨ht.grew, List.forall_mem_cons.mpr ⟨⟨i, hid, ?_⟩, ht.listed⟩, fun f hf => ?_⟩
      · obtain ⟨f, hf, hfi⟩ := hheld i hin
        exact ⟨f, ht.grew.log f hf, hfi⟩
      · exact (ht.origin f hf).imp_right fun ⟨e, he, hf⟩ => ⟨e, List.mem_cons_of_mem _ he, hf⟩
    · refine Meets.bind (Meets.lift (fun blob _ => ?_) fun _ _ => hd)
      refine Meets.bind (applyEntry_keeps hd fun d₁ h₁ hlog => Meets.bind ?_)
      have hnew : (i, blob) ∈ d₁.disk.log := hlog ▸ List.mem_append_right _ (List.mem_singleton_self _)
      refine ih (hd.grew h₁) (fun j hj => ?_) fun d' n ht => Meets.pure (hQ d' (n + 1) ⟨h₁.trans ht.grew,
        List.forall_mem_cons.mpr ⟨⟨i, hid, (i, blob), ht.grew.log _ hnew, rfl⟩, ht.listed⟩, fun f hf => ?_⟩)
      · obtain ⟨f, hf, hfj⟩ := hheld j hj
        exact ⟨f, h₁.log f hf, hfj⟩
      · rcases ht.origin f hf with hf | ⟨e', he', hf⟩
        · rw [hlog] at hf
          rcases List.mem_append.mp hf with hf | hf
          · exact Or.inl hf
          · rw [List.mem_singleton.mp hf]
            exact Or.inr ⟨e, List.mem_cons_self, hid⟩
        · exact Or.inr ⟨e', List.mem_cons_of_mem _ he', hf⟩

/-- The rows of a pull. -/
def rows (vault : Wire) (key : EdKey) (since : Nat) (db : Db) : List EntryRow :=
  ((Db.selectEntries vault (.ed key) since).run db).1

theorem mem_rows {vault : Wire} {key : EdKey} {since : Nat} {e : EntryRow} (h : e ∈ rows vault key since db) :
    e ∈ db.entries ∧ e.vaultId = vault := by
  obtain ⟨hin, hvisible⟩ := List.mem_filter.mp ((List.mem_insertionSort _).mp h)
  simp only [Db.visible, Bool.and_eq_true, decide_eq_true_eq] at hvisible
  exact ⟨hin, hvisible.1.1⟩

theorem Kept.advance {d₁ : Device} (hd : Kept id d db) (hg : Grew d d₁)
    (hall : ∀ e ∈ rows (vaultOf id) id.ed25519Secret d.vault.metadata.syncCursor db, d₁.has e) :
    Kept id (d₁.update (·.setSyncCursor (max (db.head (vaultOf id)) d.vault.metadata.syncCursor))) db := by
  have h₁ := hd.grew hg
  have hsame := hg.cursor hd.onDisk
  have hcursor : (d₁.update (·.setSyncCursor (max (db.head (vaultOf id)) d.vault.metadata.syncCursor))).vault.metadata.syncCursor =
      max (db.head (vaultOf id)) d.vault.metadata.syncCursor := by
    change max (max d₁.vault.metadata.syncCursor d₁.disk.metadata.syncCursor) _ = _
    rw [h₁.onDisk, max_self, hsame, max_eq_right (le_max_right _ _)]
  refine ⟨h₁.self, rfl, fun e he hv hnil hle => ?_, ?_, h₁.seqs⟩
  · by_cases hold : e.seq ≤ d.vault.metadata.syncCursor
    · exact h₁.entries e he hv hnil (hsame ▸ hold)
    · let q : PullQuery := ⟨vaultOf id, .b64 (pubOf id), .b64 ⟨id.ed25519Secret, .request 0 (.pull 0)⟩,
        d.vault.metadata.syncCursor, 0⟩
      have hvisible : db.visible q.vault (.ed id.ed25519Secret) q.since e = true :=
        wanted_visible ⟨he, hv, not_le.mp hold, Or.inl hnil⟩
      exact hall e ((List.mem_insertionSort _).mpr (List.mem_filter.mpr ⟨he, hvisible⟩))
  · rw [hcursor]
    exact max_lt (head_lt_nextSeq _) hd.cursor

theorem Kept.rewound (hd : Kept id d db) : Kept id (d.update (·.resetSyncCursor)) db := by
  refine ⟨hd.self, rfl, fun e he _ _ hle => ?_, Nat.succ_pos _, hd.seqs⟩
  exact absurd (hd.seqs e he) (Nat.not_lt.mpr hle)

theorem le_head {vault : Wire} {e : EntryRow} {db : Db} (he : e ∈ db.entries) (hv : e.vaultId = vault) :
    e.seq ≤ db.head vault :=
  List.le_max_of_le' 0 (List.mem_map_of_mem (List.mem_filter.mpr ⟨he, decide_eq_true hv⟩)) le_rfl

/-- The end of a round that went well. What the relay had when it began, or while it pushed, it has passed. -/
structure Caught (id : Identity) (db₀ : Db) (d : Device) (db : Db) : Prop where
  kept : Kept id d db
  delivered : Delivered d db
  head : db₀.head (vaultOf id) ≤ d.vault.metadata.syncCursor

theorem Onward.head {s t : Db} (h : Onward s t) (vault : Wire) : s.head vault ≤ t.head vault :=
  List.max_le_of_forall_le _ _ fun x hx => by
    obtain ⟨e, he, rfl⟩ := List.mem_map.mp hx
    obtain ⟨hin, hv⟩ := List.mem_filter.mp he
    exact le_head (h.log.subset hin) (of_decide_eq_true hv)

/-- A round that has pushed all it had, and goes on to the pull. -/
theorem pull_delivers {held : List Uuid} {stored : Nat} {db₀ : Db} (h₀ : Onward db₀ db) (hd : Kept id d db)
    (hheld : ∀ i ∈ held, Cursor.Listed d i) (hpushed : Delivered d db) : Keeps id (fun d' _ db' => Caught id db₀ d' db') (do
      let resp ← pullEntries
      let pulled ← applyEntries held resp.entries
      updateVault (·.setSyncCursor resp.head)
      return (stored, pulled)) d db := by
  refine Meets.bind (Meets.bind (Meets.ask fun a db₁ hs => ?_))
  obtain ⟨honward, hrest⟩ := served hs
  have h₁ := hd.onward honward
  refine Meets.bind (Meets.lift (fun reply hreply => Meets.lift (fun resp hresp => ?_) fun _ _ => h₁) fun _ _ => h₁)
  obtain rfl := parse_ok hreply
  cases reply <;> cases hresp
  rcases hrest with hnone | ⟨now, ts, u, hu, hsome, hlate⟩
  · cases hnone
  obtain ⟨hsame, rfl⟩ := Cursor.pull_reply (Option.some.inj hsome).symm
  change Onward (exec (route now (Outgoing.request ts (.pull d.vaultId d.key d.vault.metadata.syncCursor))) u).2 db₁ at hlate
  rw [hsame] at hlate
  -- The answer may be late, so the cursor goes to the head of `u`, and the relay is at `db₁`.
  refine Meets.bind (applyEntries_keeps h₁ hheld fun d₂ n ht => Meets.bind (Meets.pure ?_))
  obtain rfl := hd.self
  have hadvanced := (hd.onward hu).advance ht.grew fun e he => by
    obtain ⟨i, hi, hlisted⟩ := ht.listed _ (List.mem_map_of_mem he)
    exact ⟨i, Cursor.decode16_b64 hi, hlisted⟩
  refine ⟨hadvanced.onward hlate, fun f hf => ?_, ?_⟩
  · change Stored (vaultOf d₂.self) f.1 db₁
    rw [ht.grew.self]
    rcases ht.origin f hf with hold | ⟨w, hw, hid⟩
    · exact honward.stored (hpushed f hold)
    · obtain ⟨e, he, rfl⟩ := List.mem_map.mp hw
      obtain ⟨hin, hv⟩ := mem_rows he
      exact hlate.stored ⟨e, hin, hv, Cursor.decode16_b64 hid⟩
  · exact (((h₀.trans hu).head _).trans (le_max_left _ _)).trans (le_max_right _ _)

/-- **One round.** Wherever it breaks off, the cursor has passed nothing that the device lacks; and if it ends well,
all of the log is at the relay, and the cursor has passed what was there at the beginning. -/
theorem syncOnce_delivers (hd : Kept id d db) : Keeps id (fun d' _ db' => Caught id db d' db') syncOnce d db := by
  refine Meets.bind (Meets.get ?_)
  by_cases hurl : d.vault.metadata.relayUrl = none
  · rw [if_pos hurl]
    exact Meets.bind (Meets.fail hd)
  rw [if_neg hurl]
  refine Meets.bind (healShares_keeps hd fun d₁ gained db₁ h₁ h₀ => Meets.bind ?_)
  refine rawEntries_keeps h₁.kept fun entries hentries => Meets.bind (Meets.bind (Meets.bind (Meets.ask fun a db₂ hs => ?_)))
  obtain ⟨honward, hrest⟩ := served hs
  have h₂ := h₁.kept.onward honward
  refine Meets.lift (fun reply hreply => Meets.lift (fun resp _ => ?_) fun _ _ => h₂) fun _ _ => h₂
  obtain rfl := parse_ok hreply
  rcases hrest with hnone | ⟨now, ts, u, hu, hsome, hlate⟩
  · cases hnone
  rw [push_reply (Option.some.inj hsome).symm] at hlate
  have hpushed : Delivered d₁ db₂ := by
    intro f hf
    rw [← hentries] at hf
    obtain ⟨e, he, rfl⟩ := List.mem_map.mp hf
    exact hlate.stored ((pushed_stored d₁.vaultId entries u).1 e he)
  have hheld : ∀ i ∈ entries.map (·.1), Cursor.Listed d₁ i := by
    intro i hi
    obtain ⟨e, he, rfl⟩ := List.mem_map.mp hi
    exact ⟨(e.1, e.2.1), hentries ▸ List.mem_map_of_mem he, rfl⟩
  split
  · exact Meets.bind (m := updateVault _) (pull_delivers (h₀.trans honward) h₂.rewound hheld hpushed)
  · exact pull_delivers (h₀.trans honward) h₂ hheld hpushed

/-! ## Runs -/

abbrev Fleet (ι : Type) := Network.Config ι Device Call Response Outcome Db

variable {ι : Type} {c₀ c : Fleet ι}

/-- Devices with no cursor yet, whatever is in their logs, and an empty relay. -/
structure Start (c : Fleet ι) (ids : ι → Identity) : Prop where
  idle : ∀ i, ∃ d, c.client i = ⟨.done d (.ok none), none⟩ ∧ d.self = ids i ∧ d.disk.metadata = d.vault.metadata ∧
    d.vault.metadata.syncCursor = 0
  relay : c.server = {}

/-- At the end of a round that went well. -/
def Ended (d : Device) (out : Outcome) (db : Db) : Prop := ∀ n, out = .ok (some n) → Delivered d db

theorem keeps (ids : ι → Identity) :
    network.Keeps Onward (fun i d db => Kept (ids i) d db) fun (_ : ι) d out db => Ended d out db where
  refl := .refl
  trans := .trans
  serve how r t := exec_onward ..
  others := by
    rintro t u ⟨now, req, rfl⟩
    exact exec_onward ..
  stays h ho := h.onward ho
  lasts h ho n hn f hf := ho.stored (h n hn f hf)
  task i chore d db hd := by
    by_cases hsync : chore = .sync
    · subst hsync
      have hround : Keeps (ids i) (fun d' out db' => Kept (ids i) d' db' ∧ Ended d' (.ok out) db') Chore.sync.prog d db :=
        Meets.bind (Session.Against.mono (syncOnce_delivers hd) fun d' r db' h => by
          cases r with
          | ok out => exact ⟨h.kept, fun _ _ => h.delivered⟩
          | error e => exact h)
      refine Session.Against.mono hround fun d' r db' h => ?_
      cases r with
      | ok out => exact h
      | error e => exact ⟨h, fun n hn => nomatch hn⟩
    · -- No other command ends a round.
      have hchore : Keeps (ids i) (fun d' out db' => Kept (ids i) d' db' ∧ out = none) chore.prog d db :=
        chore_meets chore hsync hd.onDisk (fun d' hg => ⟨hd.grew hg, rfl⟩) fun d' hg => hd.grew hg
      refine Session.Against.mono hchore fun d' r db' h => ?_
      cases r with
      | ok out =>
        obtain ⟨h, rfl⟩ := h
        exact ⟨h, fun n hn => nomatch hn⟩
      | error e => exact ⟨h, fun n hn => nomatch hn⟩

variable {ids : ι → Identity}

theorem Start.minded (h : Start c ids) :
    network.Minded Onward (fun i d db => Kept (ids i) d db) (fun (_ : ι) d out db => Ended d out db) c := by
  intro i
  obtain ⟨d, hi, hself, hdisk, hcursor⟩ := h.idle i
  rw [hi, h.relay]
  refine ⟨⟨hself, hdisk, List.forall_mem_nil _, ?_, List.forall_mem_nil _⟩, fun n hn => nomatch hn⟩
  rw [hcursor]
  exact Nat.succ_pos _

variable [DecidableEq ι]

theorem Start.idle_kept (hstart : Start c₀ ids) (hrun : network.Run c₀ c) {i : ι} {d : Device} {out : Outcome}
    (hi : c.client i = ⟨.done d out, none⟩) : Kept (ids i) d c.server ∧ Ended d out c.server :=
  ((keeps ids).run hstart.minded hrun).idle hi

/-- No entry of this vault with this id is in a named share. -/
def InDefault (vault : Wire) (x : Uuid) (db : Db) : Prop :=
  ∀ e ∈ db.entries, e.vaultId = vault → e.entryId = .uuid x → e.shareId = nil

theorem listed_of_quiet (hstart : Start c₀ ids) (hrun : network.Run c₀ c) {i j : ι} {d d' : Device} {n : Nat × Nat}
    {out : Outcome} (hi : c.client i = ⟨.done d (.ok (some n)), none⟩) (hj : c.client j = ⟨.done d' out, none⟩)
    (hvault : d.vaultId = d'.vaultId) (hcursor : c.server.head d'.vaultId ≤ d'.vault.metadata.syncCursor) {x : Uuid} (hx : InDefault d.vaultId x c.server)
    (hlisted : Cursor.Listed d x) : Cursor.Listed d' x := by
  obtain ⟨f, hf, rfl⟩ := hlisted
  obtain ⟨-, hended⟩ := hstart.idle_kept hrun hi
  obtain ⟨hkept, -⟩ := hstart.idle_kept hrun hj
  obtain ⟨e, he, hv, hid⟩ := hended n rfl f hf
  have hself : d'.vaultId = vaultOf (ids j) := by
    rw [← hkept.self]
    rfl
  obtain ⟨y, hy, hlisted⟩ := hkept.entries e he (hv.trans (hvault.trans hself)) (hx e he hv hid)
    ((le_head he (hv.trans hvault)).trans hcursor)
  obtain rfl := Bytes.uuid.inj (hid.symm.trans hy)
  exact hlisted

end Delivery

end SshVault
