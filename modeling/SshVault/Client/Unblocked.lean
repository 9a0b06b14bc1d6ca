import SshVault.Client.Fleet
import SshVault.Lib.Against
import SshVault.Relay.Admission
import SshVault.Relay.Tenancy

/-!
# What keeps a round going

A round stops at the first wrap or entry that it cannot take. The relay checks neither, so one member can stop the
rounds of another one. Nobody can as long as all wraps for a device open, and all entries hold what they should.
-/

open Lib

namespace SshVault

open Relay Prog

/-! ## Well-meant requests -/

/-- If the blob holds anything, it is a record. -/
def Parses (blob : Bytes) : Prop := ∀ s, blob = .sealed s → ∃ r, s.plain = .record r

/-- The device opens the wrap, and what is in it is a key-list. -/
def OpensFor (id : Identity) (wrap : Bytes) : Prop :=
  ∃ list keys, wrap = .wrapped ⟨.x id.x25519Secret, .ed id.ed25519Secret, list⟩ ∧ splitKeyList list = .ok keys

section

variable (id : Identity) (names : Uuid → Bytes)

def vaultOf : Wire := .b64 (.uuid id.vaultId)

def pubOf : Bytes := .ed id.ed25519Secret

/-- Somebody has signed the request for the device's vault. -/
def SignedFor (signed : Signed) : Prop := ∃ (now : Int64) (key : EdKey), verify now signed = .ok (vaultOf id, key)

/-- Of these wraps, the device opens those for it. -/
def WrapsOpen (wrapped : List WrappedFor) : Prop :=
  ∀ w ∈ wrapped, ∀ c, decodeWrap w = .ok c → c.1 = pubOf id → OpensFor id c.2

/-- Every entry has an id, and the blob that belongs to it. -/
def EntriesNamed (entries : List WireEntry) : Prop :=
  ∀ e ∈ entries, ∀ c, decodeEntry e = .ok c → ∃ i, c.1 = .uuid i ∧ c.2.1 = names i

/-- Nothing in the request is in the way of the device's rounds. -/
def MeantWell : Request → Prop
  | .post .approve signed => SignedFor id signed → ∀ r, Reads ApproveReq.ofJson signed.body r →
    r.targetPub.decode = some (pubOf id) → ∀ w, r.wrappedKey.decode = some w → OpensFor id w
  | .post .rotate signed => SignedFor id signed → ∀ r, Reads RotateReq.ofJson signed.body r → WrapsOpen id r.wrapped
  | .post .shareGrant signed =>
    SignedFor id signed → ∀ r, Reads ShareGrantReq.ofJson signed.body r → WrapsOpen id r.wrapped
  | .post .shareRotate signed =>
    SignedFor id signed → ∀ r, Reads ShareRotateReq.ofJson signed.body r → WrapsOpen id r.wrapped
  | .post .push signed => SignedFor id signed → ∀ r, Reads PushReq.ofJson signed.body r → EntriesNamed names r.entries
  | _ => True

/-- Nothing at the relay is in the way of the device's rounds. -/
structure Benign (db : Db) : Prop where
  devices : ∀ r ∈ db.devices, r.key = (vaultOf id, pubOf id) → ∀ w, r.wrappedKey = some w → OpensFor id w
  members : ∀ m ∈ db.shareMembers, m.vaultId = vaultOf id → m.ed25519Pub = pubOf id → OpensFor id m.wrappedKey
  entries : ∀ e ∈ db.entries, e.vaultId = vaultOf id → ∃ i, e.entryId = .uuid i ∧ e.blob = names i

end

variable {id : Identity} {names : Uuid → Bytes} {now : Now} {req : Request} {past : List (Db × Db)} {s t : Db}

/-! ## Statement by statement -/

namespace Relay

theorem Checked.signedFor {signed : Signed} {vault : Wire} {key : EdKey} (h : Checked now past signed vault key)
    (hv : vault = vaultOf id) : SignedFor id signed := ⟨now.verify, key, hv ▸ h.verified⟩

theorem Statement.benign_devices (h : Statement now req past s t) (hmeant : MeantWell id names req) (hs : Benign id names s) :
    ∀ r ∈ t.devices, r.key = (vaultOf id, pubOf id) → ∀ w, r.wrappedKey = some w → OpensFor id w := by
  intro r hr hk w hw
  cases h with
  | enrollDevice h hpast =>
    rcases Table.mem_upsert hr with ⟨hr, -⟩ | ⟨rfl, -⟩ | ⟨r₀, hr₀, -, rfl⟩
    · exact hs.devices r hr hk w hw
    · cases hw
    · exact hs.devices r₀ hr₀ hk w hw
  | approveDevice hreq hc ha ht hdec =>
    rcases Table.mem_update hr with ⟨hr, -⟩ | ⟨r₀, hr₀, hp, rfl⟩
    · exact hs.devices r hr hk w hw
    · obtain ⟨hv, hpub⟩ := Prod.mk.inj (hk.symm.trans (decide_eq_true_eq.mp hp).1)
      obtain rfl := Option.some.inj hw
      subst hreq
      exact hmeant (hc.signedFor hv.symm) _ ha (hpub ▸ ht) _ hdec
  | revokeDevice =>
    rcases Table.mem_update hr with ⟨hr, -⟩ | ⟨r₀, hr₀, -, rfl⟩
    · exact hs.devices r hr hk w hw
    · cases hw
  | rewrapDevice hreq hc ha hdec =>
    rcases Table.mem_update hr with ⟨hr, -⟩ | ⟨r₀, hr₀, hp, rfl⟩
    · exact hs.devices r hr hk w hw
    · obtain ⟨hv, hpub⟩ := Prod.mk.inj (hk.symm.trans (decide_eq_true_eq.mp hp).1)
      obtain rfl := Option.some.inj hw
      obtain ⟨w, hin, hdec⟩ := hdec
      subst hreq
      exact hmeant (hc.signedFor hv.symm) _ ha w hin _ hdec hpub.symm
  | recoverDevice =>
    rcases Table.mem_upsert hr with ⟨hr, -⟩ | ⟨rfl, -⟩ | ⟨r₀, hr₀, -, rfl⟩
    · exact hs.devices r hr hk w hw
    · cases hw
    · exact hs.devices r₀ hr₀ hk w hw
  | _ => exact hs.devices r hr hk w hw

theorem Statement.benign_members (h : Statement now req past s t) (hmeant : MeantWell id names req) (hs : Benign id names s) :
    ∀ m ∈ t.shareMembers, m.vaultId = vaultOf id → m.ed25519Pub = pubOf id → OpensFor id m.wrappedKey := by
  intro m hm hv hpub
  cases h with
  | upsertMember hreq hc ha _ hdec =>
    obtain ⟨w, hin, hdec⟩ := hdec
    subst hreq
    rcases Table.mem_upsert hm with ⟨hm, -⟩ | ⟨rfl, -⟩ | ⟨m₀, hm₀, hk, rfl⟩
    · exact hs.members m hm hv hpub
    · exact hmeant (hc.signedFor hv) _ ha w hin _ hdec hpub
    · obtain ⟨hv', hrest⟩ := Prod.mk.inj hk
      exact hmeant (hc.signedFor (hv'.symm.trans hv)) _ ha w hin _ hdec ((Prod.mk.inj hrest).2.symm.trans hpub)
  | deleteMember => exact hs.members m (List.mem_filter.mp hm).1 hv hpub
  | rewrapMember hreq hc ha _ hdec =>
    obtain ⟨w, hin, hdec⟩ := hdec
    subst hreq
    rcases Table.mem_update hm with ⟨hm, -⟩ | ⟨m₀, hm₀, hp, rfl⟩
    · exact hs.members m hm hv hpub
    · obtain ⟨hv', hrest⟩ := Prod.mk.inj (decide_eq_true_eq.mp hp)
      exact hmeant (hc.signedFor (hv'.symm.trans hv)) _ ha w hin _ hdec ((Prod.mk.inj hrest).2.symm.trans hpub)
  | _ => exact hs.members m hm hv hpub

/-- **One statement** of a well-meant request. -/
theorem Statement.benign (h : Statement now req past s t) (hmeant : MeantWell id names req) (hs : Benign id names s) :
    Benign id names t := by
  refine ⟨h.benign_devices hmeant hs, h.benign_members hmeant hs, fun e he hv => ?_⟩
  cases h with
  | insertEntry hreq hc hr hdec =>
    obtain ⟨w, hin, hdec⟩ := hdec
    subst hreq
    rcases Table.mem_insertOrIgnore he with he | rfl
    · exact hs.entries e he hv
    · exact hmeant (hc.signedFor hv) _ hr w hin _ hdec
  | _ => exact hs.entries e he hv

theorem Statement.push_devices {signed : Signed} (h : Statement now (.post .push signed) past s t) : t.devices = s.devices := by
  cases h with
  | enrollDevice h =>
    obtain ⟨_, _, hreq, -⟩ := h
    cases hreq
  | approveDevice hreq => cases hreq
  | revokeDevice hreq => cases hreq
  | rewrapDevice hreq => cases hreq
  | recoverDevice hreq => cases hreq
  | _ => rfl

end Relay

/-! ## Answers -/

/-- The relay answers the call alone, at some time that its timestamp fits. -/
def Answers (call : Call) (db : Db) (a : Answer) (db' : Db) : Prop :=
  ∃ now : Now, ∃ ts, inWindow now.verify ts = true ∧ a = some (exec (route now (call.what.request ts)) db).1 ∧
    db' = (exec (route now (call.what.request ts)) db).2

/-- The same of a relay that takes no long bodies. `clocks` holds of its readings and the timestamp of the call. -/
def Handles (lengths : TextLengths) (clocks : Now → Int64 → Prop) (call : Call) (db : Db) (a : Answer) (db' : Db) : Prop :=
  ∃ now ts, clocks now ts ∧ a = some (exec (app lengths now (call.what.request ts)) db).1 ∧
    db' = (exec (app lengths now (call.what.request ts)) db).2

/-- The device's clock is near enough to the relay's. -/
def InStep (clocks : Now → Int64 → Prop) : Prop := ∀ now ts, clocks now ts → inWindow now.verify ts = true

variable {lengths : TextLengths} {clocks : Now → Int64 → Prop}

theorem Handles.answers {call : Call} {db db' : Db} {a : Answer} (h : Handles lengths clocks call db a db')
    (hclocks : InStep clocks)
    (hfits : ∀ now ts, clocks now ts → bodyLength lengths (call.what.request ts) ≤ bodyLimit) : Answers call db a db' := by
  obtain ⟨now, ts, hc, ha, hdb⟩ := h
  rw [app_of_le (hfits now ts hc)] at ha hdb
  exact ⟨now, ts, hclocks now ts hc, ha, hdb⟩

/-- The operation ends well, alone at the relay. -/
abbrev Succeeds (lengths : TextLengths) (clocks : Now → Int64 → Prop) {α : Type} (Q : Device → α → Db → Prop) (m : Op α)
    (d : Device) (db : Db) : Prop := Client.Wins (Handles lengths clocks) Q m d db

theorem verify_own {now : Now} {ts : Int64} (h : inWindow now.verify ts = true) (vault : Wire) (key : EdKey) (body : Body) :
    verify now.verify ⟨vault, .b64 (.ed key), .b64 ⟨key, .request ts body⟩, ts, body⟩ = .ok (vault, key) := by
  unfold verify
  rw [if_neg (not_not.mpr h)]
  change (if _ then _ else _) = _
  rw [if_pos rfl]

/-- The device is let in. -/
structure Admitted (d : Device) (db : Db) : Prop where
  canSync : db.canSync d.vaultId d.key = true

variable {d : Device} {db : Db}

theorem Admitted.row (h : Admitted d db) : ∃ row, db.device d.vaultId (.ed d.key) = some row ∧ row.canSync = true := by
  have hcan := h.canSync
  unfold Db.canSync at hcan
  obtain ⟨row, hrow, hsync⟩ := (Option.any_eq_true _ _).mp hcan
  exact ⟨row, hrow, hsync⟩

namespace Devices

open Sync Client

theorem wrapped_succeeds {Q : Device → Reply → Db → Prop} {row : DeviceRow} (hclocks : InStep clocks)
    (hrow : db.device d.vaultId (.ed d.key) = some row) (hrev : row.revoked = false)
    (hQ : Q d (.wrapped ⟨row.approved, row.wrappedKey.map .b64, (db.epoch d.vaultId).getD 0⟩) db) :
    Succeeds lengths clocks Q (signedGet .plain .wrapped) d db := by
  refine Wins.bind (Wins.ask ?_)
  intro _ _ hhandles
  obtain ⟨now, ts, hwin, rfl, rfl⟩ := hhandles.answers hclocks fun _ _ _ => Nat.zero_le _
  have hselect : (Db.selectDevice d.vaultId (.ed d.key)).run db = (some row, db) := by rw [← hrow]; rfl
  have hexec : exec (route now (Outgoing.request ts (.query .wrapped d.vaultId d.key))) db =
      (.ok (.wrapped ⟨row.approved, row.wrappedKey.map .b64, (db.epoch d.vaultId).getD 0⟩), db) := by
    have hv : verify now.verify ((signedQuery d.vaultId d.key ts (.query .wrapped d.vaultId)).intoSigned .wrapped) =
        .ok (d.vaultId, d.key) := verify_own hwin _ _ _
    change exec (do return Reply.wrapped (← wrapped now (signedQuery d.vaultId d.key ts (.query .wrapped d.vaultId)))) db = _
    unfold wrapped
    rw [exec_bind, exec_bind, exec_liftExcept, hv]
    dsimp only
    rw [exec_bind, exec_lift, hselect]
    dsimp only [orReject]
    rw [exec_bind, exec_liftExcept]
    dsimp only
    rw [if_neg (by rw [hrev]; exact Bool.false_ne_true)]
    rfl
  rw [hexec]
  exact Wins.lift rfl hQ

theorem shares_succeeds {Q : Device → Reply → Db → Prop} (hclocks : InStep clocks) (hd : Admitted d db)
    (hQ : Q d (.shares ((db.membershipsOf d.vaultId (.ed d.key)).map fun m =>
      ⟨.b64 (.uuid m.shareId), (db.shareEpoch d.vaultId m.shareId).getD 0, .b64 m.wrappedKey⟩)) db) :
    Succeeds lengths clocks Q (signedGet .plain .shares) d db := by
  refine Wins.bind (Wins.ask ?_)
  intro _ _ hhandles
  obtain ⟨now, ts, hwin, rfl, rfl⟩ := hhandles.answers hclocks fun _ _ _ => Nat.zero_le _
  have hexec : exec (route now (Outgoing.request ts (.query .shares d.vaultId d.key))) db =
      (.ok (.shares ((db.membershipsOf d.vaultId (.ed d.key)).map fun m =>
        ⟨.b64 (.uuid m.shareId), (db.shareEpoch d.vaultId m.shareId).getD 0, .b64 m.wrappedKey⟩)), db) := by
    have hv : verify now.verify ((signedQuery d.vaultId d.key ts (.query .shares d.vaultId)).intoSigned .shares) =
        .ok (d.vaultId, d.key) := verify_own hwin _ _ _
    change exec (do return Reply.shares (← shares now (signedQuery d.vaultId d.key ts (.query .shares d.vaultId)))) db = _
    unfold shares
    rw [exec_bind, exec_bind, exec_authorize, hv]
    dsimp only
    rw [if_pos hd.canSync]
    dsimp only
    rw [exec_bind, exec_lift]
    change (Except.ok (Reply.shares (List.map _ (List.map _ _))), db) = _
    rw [List.map_map]
    rfl
  rw [hexec]
  exact Wins.lift rfl hQ

theorem pull_succeeds {Q : Device → PullResp → Db → Prop} (hclocks : InStep clocks) (hd : Admitted d db)
    (hQ : ∀ head, Q d ⟨(((Db.selectEntries d.vaultId (.ed d.key) d.vault.metadata.syncCursor).run db).1).map Relay.wireEntry,
      head⟩ db) : Succeeds lengths clocks Q pullEntries d db := by
  refine Wins.bind (Wins.ask ?_)
  intro _ _ hhandles
  obtain ⟨now, ts, hwin, rfl, rfl⟩ := hhandles.answers hclocks fun _ _ _ => Nat.zero_le _
  let q : PullQuery := ⟨d.vaultId, .b64 (.ed d.key), .b64 ⟨d.key, .request ts (.pull d.vault.metadata.syncCursor)⟩,
    d.vault.metadata.syncCursor, ts⟩
  have hv : verify now.verify ⟨q.vault, q.device, q.sig, q.ts, .pull q.since⟩ = .ok (d.vaultId, d.key) := verify_own hwin _ _ _
  have hpull := exec_pull_eq now q db
  rw [hv] at hpull
  dsimp only at hpull
  rw [if_pos hd.canSync] at hpull
  have hexec : exec (route now (.pull q)) db = (.ok (.pull ⟨(((Db.selectEntries d.vaultId (.ed d.key) q.since).run db).1).map
      Relay.wireEntry, max (db.head d.vaultId) q.since⟩), db) := by
    change exec (do return Reply.pull (← pull now q)) db = _
    rw [exec_bind, show exec (pull now q) db = (_, db) from Prod.ext hpull (exec_pull q)]
    rfl
  change Client.Wins (Handles lengths clocks) Q _ d (exec (route now (.pull q)) db).2
  change Client.Wins (Handles lengths clocks) Q (do
    let reply ← (parse (some (exec (route now (.pull q)) db).1) : Op Reply)
    asPull reply) d (exec (route now (.pull q)) db).2
  rw [hexec]
  exact Wins.bind (Wins.lift rfl (Wins.lift rfl (hQ _)))

theorem entriesNamed {entries : List (Uuid × Bytes × Uuid)} (h : ∀ e ∈ entries, e.2.1 = names e.1) :
    EntriesNamed names (entries.map Sync.wireEntry) := by
  intro w hw c hc
  obtain ⟨e, he, rfl⟩ := List.mem_map.mp hw
  have hdec : decodeEntry (Sync.wireEntry e) = .ok (.uuid e.1, e.2.1, e.2.2) := rfl
  obtain rfl := Except.ok.inj (hdec.symm.trans hc)
  exact ⟨e.1, rfl, h e he⟩

theorem decodes_wireEntry (entries : List (Uuid × Bytes × Uuid)) :
    (entries.map Sync.wireEntry).mapM decodeEntry = .ok (entries.map fun e => (.uuid e.1, e.2.1, e.2.2)) := by
  induction entries with
  | nil => rfl
  | cons e entries ih =>
    rw [List.map_cons, List.mapM_cons, ih]
    rfl

/-- However the entries of its log are tagged, the device's push of them is not too long for the relay. -/
def PushFits (lengths : TextLengths) (clocks : Now → Int64 → Prop) (d : Device) : Prop :=
  ∀ entries : List (Uuid × Bytes × Uuid), entries.map (fun e => (e.1, e.2.1)) = d.disk.log → ∀ now ts, clocks now ts →
    lengths.signed (envelope d.vaultId d.key ts (.json (ClientReq.push ⟨entries.map Sync.wireEntry⟩).toJson)) ≤ bodyLimit

theorem push_succeeds {Q : Device → PushResp → Db → Prop} (gained : Bool) {entries : List (Uuid × Bytes × Uuid)}
    (hclocks : InStep clocks) (hfits : PushFits lengths clocks d) (hlog : entries.map (fun e => (e.1, e.2.1)) = d.disk.log)
    (hd : Admitted d db) (hdb : Benign id names db) (hnames : ∀ e ∈ entries, e.2.1 = names e.1)
    (hQ : ∀ resp db', Admitted d db' → Benign id names db' → Q d resp db') :
    Succeeds lengths clocks Q (pushEntries gained entries) d db := by
  refine Wins.bind (Wins.bind (Wins.ask ?_))
  intro _ _ hhandles
  obtain ⟨now, ts, hwin, rfl, rfl⟩ := hhandles.answers hclocks (hfits entries hlog)
  let r : PushReq := ⟨entries.map Sync.wireEntry⟩
  let signed := envelope d.vaultId d.key ts (.json (ClientReq.push r).toJson)
  have hreads : PushReq.ofJson (ClientReq.push r).toJson = some r := by
    have hdec := decodeAt_toJson (.push r) .push
    rw [decodeAt] at hdec
    obtain ⟨r', hr', heq⟩ := Option.map_eq_some_iff.mp hdec
    obtain rfl := ClientReq.push.inj heq
    exact hr'
  have hmeant : MeantWell id names (.post .push signed) := by
    rintro - r' ⟨j, hj, hr'⟩
    obtain rfl := Body.json.inj hj
    obtain rfl := Option.some.inj (hreads.symm.trans hr')
    exact entriesNamed hnames
  have hkept : Benign id names (exec (route now (.post .push signed)) db).2 ∧
      (exec (route now (.post .push signed)) db).2.devices = db.devices :=
    (route_traced now (.post .push signed)).exec (P := fun t => Benign id names t ∧ t.devices = db.devices)
      (fun _ _ _ hstep hs => ⟨hstep.benign hmeant hs.1, hstep.push_devices.trans hs.2⟩) ⟨hdb, rfl⟩
  have hok : ∃ resp, (exec (route now (.post .push signed)) db).1 = .ok (.push resp) := by
    have hv : verify now.verify signed = .ok (d.vaultId, d.key) := verify_own hwin _ _ _
    have hbody : jsonBody PushReq.ofJson signed.body = .ok r := by
      change orReject (PushReq.ofJson (ClientReq.push r).toJson) _ = _
      rw [hreads]
      rfl
    change ∃ resp, (exec (do return Reply.push (← push now signed)) db).1 = .ok (.push resp)
    unfold push applyPush
    rw [exec_bind, exec_bind, exec_authorize, hv]
    dsimp only
    rw [if_pos hd.canSync]
    dsimp only
    rw [exec_bind, exec_liftExcept, hbody]
    dsimp only
    obtain ⟨ran, -, -, ⟨⟨n, hn⟩, -⟩ | ⟨e, -, he⟩⟩ := exec_forEach decodeEntry
      (fun e => Db.insertEntry d.vaultId e.1 e.2.1 e.2.2) r.entries db
    · rw [exec_bind]
      rcases hloop : exec (forEach decodeEntry (fun e => Db.insertEntry d.vaultId e.1 e.2.1 e.2.2) r.entries) db with ⟨res, db'⟩
      rw [hloop] at hn
      obtain rfl : res = .ok n := hn
      exact ⟨_, rfl⟩
    · cases (decodes_wireEntry entries).symm.trans he
  obtain ⟨resp, hresp⟩ := hok
  change Client.Wins (Handles lengths clocks) _ (liftM (parse (some (exec (route now (.post .push signed)) db).1)) : Op Reply) d
    (exec (route now (.post .push signed)) db).2
  rw [hresp]
  refine Wins.lift rfl (Wins.lift rfl (hQ resp _ ⟨?_⟩ hkept.1))
  have hsync := hd.canSync
  unfold Db.canSync Db.device at hsync ⊢
  rw [hkept.2]
  exact hsync

/-! ## The device -/

/-- The device may have other keys, and the rest is as it was. -/
structure SameLog (d d' : Device) : Prop where
  self : d'.self = d.self
  log : d'.disk.log = d.disk.log
  state : d'.vault.state = d.vault.state
  cursor : d'.vault.metadata.syncCursor = d.vault.metadata.syncCursor

theorem SameLog.trans {d d' d'' : Device} (h : SameLog d d') (h' : SameLog d' d'') : SameLog d d'' :=
  ⟨h'.self.trans h.self, h'.log.trans h.log, h'.state.trans h.state, h'.cursor.trans h.cursor⟩

theorem onVault_succeeds {α : Type} {op : Vault → Prog Disk (Except VaultError α × Vault)} {Q : Device → α → Db → Prop}
    {a : α} {v : Vault} {disk : Disk} (hrun : (op d.vault).run d.disk = ((.ok a, v), disk)) (hQ : Q ⟨disk, v⟩ a db) :
    Succeeds lengths clocks Q (onVault op) d db := by
  change Client.Wins (Handles lengths clocks) Q (Client.onState _) d db
  refine Wins.onState (a := a) ?_ ?_
  · dsimp only
    rw [hrun]
    rfl
  · dsimp only
    rw [hrun]
    exact hQ

theorem updateVault_succeeds {op : Vault → Prog Disk Vault} {Q : Device → Unit → Db → Prop} (hQ : Q (d.update op) () db) :
    Succeeds lengths clocks Q (updateVault op) d db := Wins.onState rfl hQ

theorem absorb_succeeds {share : Uuid} {list : KeyBytes} {keys : List Key} {Q : Device → Unit → Db → Prop}
    (hs : splitKeyList list = .ok keys) (hQ : ∀ d', SameLog d d' → Q d' () db) :
    Succeeds lengths clocks Q (onVault (·.absorbShareKey share list)) d db := by
  by_cases hnew : d.vault.Newer share keys
  · exact onVault_succeeds (Vault.run_absorbShareKey hs hnew) (hQ _ ⟨by simp [Device.self], rfl, rfl, rfl⟩)
  · exact onVault_succeeds (Vault.run_absorbShareKey_old hs hnew) (hQ _ ⟨rfl, rfl, rfl, rfl⟩)

theorem unwrapped_of_opens {wrap : Bytes} (h : OpensFor d.self wrap) :
    ∃ list keys, unwrapped d (.b64 wrap) = .ok list ∧ splitKeyList list = .ok keys := by
  obtain ⟨list, keys, rfl, hs⟩ := h
  have hopen : Crypto.unwrapVaultKey d.vault.keyring.x25519Secret (.wrapped ⟨.x d.self.x25519Secret, .ed d.self.ed25519Secret, list⟩)
      (.ed d.key) = .ok list := Crypto.unwrapVaultKey_eq_ok.mpr rfl
  refine ⟨list, keys, ?_, hs⟩
  change (Crypto.unwrapVaultKey d.vault.keyring.x25519Secret _ (.ed d.key)).mapError _ = _
  rw [hopen]
  rfl

theorem unwrapFor_succeeds {wrap : Bytes} {Q : Device → KeyBytes → Db → Prop} (h : OpensFor d.self wrap)
    (hQ : ∀ list keys, splitKeyList list = .ok keys → Q d list db) : Succeeds lengths clocks Q (unwrapFor (.b64 wrap)) d db := by
  obtain ⟨list, keys, hunwrapped, hs⟩ := unwrapped_of_opens h
  exact Wins.bind (Wins.get (Wins.lift hunwrapped (hQ list keys hs)))

/-- The wraps of a reply, as far as there are any, open for the device. -/
def Opening (id : Identity) (t : Wire) : Prop := ∃ wrap, t = .b64 wrap ∧ OpensFor id wrap

theorem healVault_succeeds {resp : WrappedResp} {Q : Device → Unit → Db → Prop}
    (h : ∀ t, resp.wrappedKey = some t → Opening d.self t) (hQ : ∀ d', SameLog d d' → Q d' () db) :
    Succeeds lengths clocks Q (healVault resp) d db := by
  have hsame : Q d () db := hQ d ⟨rfl, rfl, rfl, rfl⟩
  refine Wins.bind (Wins.get ?_)
  split
  · split
    · rename_i t ht
      obtain ⟨wrap, rfl, hopens⟩ := h t ht
      exact Wins.bind (unwrapFor_succeeds hopens fun list keys hs => absorb_succeeds hs hQ)
    · exact Wins.pure hsame
  · exact Wins.pure hsame

theorem absorbShares_succeeds {l : List ShareMembership} (gained : Bool) {Q : Device → Bool → Db → Prop}
    (h : ∀ m ∈ l, Opening d.self m.wrappedKey) (hQ : ∀ d' gained, SameLog d d' → Q d' gained db) :
    Succeeds lengths clocks Q (absorbShares gained l) d db := by
  induction l generalizing d gained with
  | nil => exact Wins.pure (hQ d gained ⟨rfl, rfl, rfl, rfl⟩)
  | cons m rest ih =>
    obtain ⟨hm, hrest⟩ := List.forall_mem_cons.mp h
    unfold absorbShares
    split
    · exact ih gained hrest hQ
    · split
      · exact ih gained hrest hQ
      · refine Wins.bind (Wins.get ?_)
        dsimp only
        split
        · obtain ⟨wrap, hwrap, hopens⟩ := hm
          rw [hwrap]
          refine Wins.bind (unwrapFor_succeeds hopens fun list keys hs => Wins.bind (absorb_succeeds hs fun d' hd' => ?_))
          exact ih _ (fun m hm => hd'.self ▸ hrest m hm) fun d'' g hd'' => hQ d'' g (hd'.trans hd'')
        · exact ih gained hrest hQ

/-! ## Entries -/

theorem openEntry_of_parses (kr : Keyring) (i : Uuid) {blob : Bytes} (h : Parses blob) : ∃ o, kr.openEntry i blob = .ok o := by
  unfold Keyring.openEntry
  split
  · exact ⟨none, rfl⟩
  · exact ⟨_, rfl⟩
  · rename_i hfind
    obtain ⟨k, -, hk⟩ := List.exists_of_findSome?_eq_some hfind
    have hopen : Crypto.openBlob k blob i = .ok .garbage := by
      cases hres : Crypto.openBlob k blob i with
      | error e =>
        rw [hres] at hk
        cases hk
      | ok p =>
        rw [hres] at hk
        exact congrArg Except.ok (Option.some.inj hk)
    obtain ⟨r, hr⟩ := h _ (Crypto.openBlob_eq_ok.mp hopen)
    cases hr

theorem run_rawEntriesTagged (h : ∀ f ∈ d.disk.log, Parses f.2) : ∃ entries,
    (do return (← d.vault.rawEntriesTagged, d.vault) : Prog Disk _).run d.disk = ((.ok entries, d.vault), d.disk) ∧
      (entries.map fun e => (e.1, e.2.1)) = d.disk.log := by
  have htag : ∀ log : List (Uuid × Bytes), (∀ f ∈ log, Parses f.2) → ∃ entries : List (Uuid × Bytes × Uuid),
      (log.mapM fun (id, blob) => do
        let opened ← d.vault.keyring.openEntry id blob
        return ((id, blob, (opened.map fun r : Record => r.shareId).getD nil) : Uuid × Bytes × Uuid)) = .ok entries ∧
        (entries.map fun e => (e.1, e.2.1)) = log := by
    intro log
    induction log with
    | nil => exact fun _ => ⟨[], rfl, rfl⟩
    | cons f log ih =>
      intro hall
      obtain ⟨hf, hlog⟩ := List.forall_mem_cons.mp hall
      obtain ⟨entries, hentries, hmap⟩ := ih hlog
      obtain ⟨o, ho⟩ := openEntry_of_parses d.vault.keyring f.1 hf
      refine ⟨(f.1, f.2, (o.map (·.shareId)).getD nil) :: entries, ?_, by rw [List.map_cons, hmap]⟩
      rw [List.mapM_cons, hentries]
      change ((d.vault.keyring.openEntry f.1 f.2).bind fun opened => _) >>= _ = _
      rw [ho]
      rfl
  obtain ⟨entries, hentries, hmap⟩ := htag d.disk.log h
  refine ⟨entries, ?_, hmap⟩
  change ((List.mapM _ d.disk.log, d.vault), d.disk) = _
  rw [hentries]

theorem rawEntries_succeeds {Q : Device → List (Uuid × Bytes × Uuid) → Db → Prop} (h : ∀ f ∈ d.disk.log, Parses f.2)
    (hQ : ∀ entries, (entries.map fun e => (e.1, e.2.1)) = d.disk.log → Q d entries db) :
    Succeeds lengths clocks Q (onVault fun v => do return (← v.rawEntriesTagged, v)) d db := by
  obtain ⟨entries, hrun, hmap⟩ := run_rawEntriesTagged h
  exact onVault_succeeds hrun (hQ entries hmap)

/-- The record in a frame, if the key-list opens it. -/
def opened (kr : Keyring) (f : Uuid × Bytes) : Option Record :=
  match kr.openEntry f.1 f.2 with
  | .ok o => o
  | .error _ => none

/-- The record in a frame, whoever has the key. -/
def Holds (f : Uuid × Bytes) (r : Record) : Prop := ∃ s, f.2 = .sealed s ∧ s.aad = f.1 ∧ s.plain = .record r

theorem holds_of_opened {kr : Keyring} {f : Uuid × Bytes} {r : Record} (h : opened kr f = some r) : Holds f r := by
  have hopen : kr.openEntry f.1 f.2 = .ok (some r) := by
    unfold opened at h
    split at h
    · rename_i o ho
      rw [ho, h]
    · cases h
  obtain ⟨k, -, hblob⟩ := Keyring.openEntry_eq_some.mp hopen
  exact ⟨_, hblob, rfl, rfl⟩

/-- The device's state is made of some records, and has all those in its log that are read like this. -/
def Merges (d : Device) (reads : Uuid × Bytes → Record → Prop) : Prop :=
  ∃ records, d.vault.state = mergeAll records ∧ ∀ f ∈ d.disk.log, ∀ r, reads f r → r ∈ records

/-- The device has taken in these frames. -/
structure Applied (d : Device) (news : List (Uuid × Bytes)) (d' : Device) : Prop where
  log : d'.disk.log = d.disk.log ++ news
  keyring : d'.vault.keyring = d.vault.keyring
  state : d'.vault.state = news.foldl (fun state f => Vault.mergeOpened state (opened d.vault.keyring f)) d.vault.state

theorem Applied.refl : Applied d [] d := ⟨(List.append_nil _).symm, rfl, rfl⟩

theorem Applied.cons {d₁ d₂ : Device} {f : Uuid × Bytes} {news : List (Uuid × Bytes)} (h₁ : Applied d [f] d₁)
    (h₂ : Applied d₁ news d₂) : Applied d (f :: news) d₂ := by
  refine ⟨?_, h₂.keyring.trans h₁.keyring, ?_⟩
  · rw [h₂.log, h₁.log, List.append_assoc, List.singleton_append]
  · rw [h₂.state, h₁.state, h₁.keyring]
    rfl

theorem applyEntry_succeeds {i : Uuid} {blob : Bytes} {Q : Device → Unit → Db → Prop} (h : Parses blob)
    (hQ : ∀ d', Applied d [(i, blob)] d' → Q d' () db) : Succeeds lengths clocks Q (onVault (·.applyRemoteEntry i blob)) d db := by
  obtain ⟨o, ho⟩ := openEntry_of_parses d.vault.keyring i h
  refine onVault_succeeds (Vault.run_applyRemoteEntry ho) (hQ _ ⟨rfl, rfl, ?_⟩)
  have hopened : opened d.vault.keyring (i, blob) = o := by
    unfold opened
    rw [ho]
  change Vault.mergeOpened _ o = Vault.mergeOpened _ (opened d.vault.keyring (i, blob))
  rw [hopened]

theorem foldl_mergeOpened (kr : Keyring) (news : List (Uuid × Bytes)) (state : State) :
    news.foldl (fun state f => Vault.mergeOpened state (opened kr f)) state =
      (news.filterMap (opened kr)).foldl mergeInto state := by
  induction news generalizing state with
  | nil => rfl
  | cons f news ih =>
    rw [List.foldl_cons, ih, List.filterMap_cons]
    cases opened kr f <;> rfl

theorem Applied.merges {d' : Device} {news : List (Uuid × Bytes)} (h : Applied d news d') (hd : Merges d Holds) :
    Merges d' fun f r => opened d'.vault.keyring f = some r := by
  obtain ⟨records, hstate, hall⟩ := hd
  refine ⟨records ++ news.filterMap (opened d.vault.keyring), ?_, fun f hf r hr => ?_⟩
  · rw [h.state, foldl_mergeOpened, hstate]
    exact List.foldl_append.symm
  · rw [h.log] at hf
    rw [h.keyring] at hr
    rcases List.mem_append.mp hf with hf | hf
    · exact List.mem_append_left _ (hall f hf r (holds_of_opened hr))
    · exact List.mem_append_right _ (List.mem_filterMap.mpr ⟨f, hf, hr⟩)

/-- The entry is in the device's log. -/
def Logged (d : Device) (r : EntryRow) : Prop := ∃ i, r.entryId = .uuid i ∧ (i, r.blob) ∈ d.disk.log

theorem Applied.logged {d' : Device} {news : List (Uuid × Bytes)} {r : EntryRow} (h : Applied d news d') (hr : Logged d r) :
    Logged d' r := by
  obtain ⟨i, hi, hin⟩ := hr
  exact ⟨i, hi, h.log ▸ List.mem_append_left _ hin⟩

theorem applyEntries_succeeds {held : List Uuid} {rows : List EntryRow} {Q : Device → Nat → Db → Prop}
    (hrows : ∀ r ∈ rows, ∃ i, r.entryId = .uuid i ∧ r.blob = names i) (hparses : ∀ i, Parses (names i))
    (hheld : ∀ i ∈ held, (i, names i) ∈ d.disk.log)
    (hQ : ∀ d' n news, Applied d news d' → (∀ r ∈ rows, Logged d' r) → Q d' n db) :
    Succeeds lengths clocks Q (applyEntries held (rows.map Relay.wireEntry)) d db := by
  induction rows generalizing d Q with
  | nil => exact Wins.pure (hQ d 0 [] .refl (List.forall_mem_nil _))
  | cons r rows ih =>
    obtain ⟨⟨i, hi, hblob⟩, hrest⟩ := List.forall_mem_cons.mp hrows
    have hid : orBad (Relay.wireEntry r).entryId.decode16 "entry_id" = .ok i := by
      unfold Relay.wireEntry
      rw [hi]
      rfl
    refine Wins.bind (Wins.lift hid ?_)
    split
    · -- The log has the id already, and so the entry.
      rename_i hin
      have hlogged : Logged d r := ⟨i, hi, hblob ▸ hheld i hin⟩
      exact ih hrest hheld fun d' n news happ hall =>
        hQ d' n news happ (List.forall_mem_cons.mpr ⟨happ.logged hlogged, hall⟩)
    · refine Wins.bind (Wins.lift (a := r.blob) rfl (Wins.bind (applyEntry_succeeds (hblob ▸ hparses i) fun d₁ h₁ => ?_)))
      have hlogged : Logged d₁ r := ⟨i, hi, h₁.log ▸ List.mem_append_right _ (List.mem_singleton_self _)⟩
      refine Wins.bind (ih hrest (fun j hj => h₁.log ▸ List.mem_append_left _ (hheld j hj)) fun d' n news happ hall => ?_)
      exact Wins.pure (hQ d' (n + 1) _ (h₁.cons happ) (List.forall_mem_cons.mpr ⟨happ.logged hlogged, hall⟩))

/-! ## A round -/

/-- What a round leaves at the device: all that it was sent is in the log, and what of it the device can open is in the
state. -/
structure Caught (d d' : Device) (db : Db) : Prop where
  logged : ∃ since, (since = d.vault.metadata.syncCursor ∨ since = 0) ∧
    ∀ r ∈ ((Db.selectEntries d.vaultId (.ed d.key) since).run db).1, Logged d' r
  merged : Merges d' fun f r => opened d'.vault.keyring f = some r

/-- Nothing at the device is in the way of its rounds. -/
structure Ready (lengths : TextLengths) (clocks : Now → Int64 → Prop) (names : Uuid → Bytes) (d : Device) : Prop where
  relay : d.vault.metadata.relayUrl ≠ none
  log : ∀ f ∈ d.disk.log, f.2 = names f.1
  parses : ∀ i, Parses (names i)
  merged : Merges d Holds
  fits : PushFits lengths clocks d

theorem SameLog.vaultId {d d' : Device} (h : SameLog d d') : d'.vaultId = d.vaultId :=
  congrArg (fun id : Identity => vaultOf id) h.self

theorem SameLog.key {d d' : Device} (h : SameLog d d') : d'.key = d.key := congrArg Identity.ed25519Secret h.self

theorem SameLog.admitted {d d' : Device} (h : SameLog d d') (hd : Admitted d db) : Admitted d' db :=
  ⟨by rw [h.vaultId, h.key]; exact hd.canSync⟩

theorem SameLog.caught {d d₁ d' : Device} (h : SameLog d d₁) (hc : Caught d₁ d' db) : Caught d d' db := by
  obtain ⟨since, hsince, hrows⟩ := hc.logged
  refine ⟨⟨since, h.cursor ▸ hsince, fun r hr => hrows r ?_⟩, hc.merged⟩
  rw [h.vaultId, h.key]
  exact hr

theorem SameLog.merges {d d' : Device} (h : SameLog d d') (hd : Merges d Holds) : Merges d' Holds := by
  unfold Merges
  rw [h.log, h.state]
  exact hd

theorem SameLog.pushFits {d d' : Device} (h : SameLog d d') (hd : PushFits lengths clocks d) : PushFits lengths clocks d' := by
  unfold PushFits
  rw [h.vaultId, h.key, h.log]
  exact hd

theorem healShares_succeeds {Q : Device → Bool → Db → Prop} (hclocks : InStep clocks) (hd : Admitted d db) (hdb : Benign d.self names db)
    (hQ : ∀ d' gained, SameLog d d' → Q d' gained db) : Succeeds lengths clocks Q healShares d db := by
  obtain ⟨row, hrow, hcan⟩ := hd.row
  obtain ⟨-, hrev⟩ := (Bool.and_eq_true_iff).mp hcan
  have hkey : row.key = (vaultOf d.self, pubOf d.self) := by
    have hfound := List.find?_some hrow
    exact of_decide_eq_true hfound
  have hin : row ∈ db.devices := List.mem_of_find?_eq_some hrow
  have hwrap : ∀ t, (row.wrappedKey.map .b64 : Option Wire) = some t → Opening d.self t := by
    intro t ht
    obtain ⟨w, hw, rfl⟩ := Option.map_eq_some_iff.mp ht
    exact ⟨w, rfl, hdb.devices row hin hkey w hw⟩
  refine Wins.bind (wrapped_succeeds hclocks hrow (by simpa using hrev) (Wins.bind (Wins.lift rfl (Wins.bind ?_))))
  refine healVault_succeeds hwrap fun d₁ h₁ => Wins.bind (shares_succeeds hclocks (h₁.admitted hd) (Wins.bind (Wins.lift rfl ?_)))
  refine absorbShares_succeeds false (fun m hm => ?_) fun d₂ gained h₂ => hQ d₂ gained (h₁.trans h₂)
  obtain ⟨row', hrow', rfl⟩ := List.mem_map.mp hm
  obtain ⟨hin', hp⟩ := List.mem_filter.mp hrow'
  obtain ⟨hv, hpub⟩ := of_decide_eq_true hp
  rw [h₁.vaultId] at hv
  rw [h₁.key] at hpub
  exact ⟨row'.wrappedKey, rfl, h₁.self ▸ hdb.members row' hin' hv hpub⟩

theorem exchange_succeeds {gained : Bool} {entries : List (Uuid × Bytes × Uuid)} (hclocks : InStep clocks)
    (hfits : PushFits lengths clocks d) (hlog : ∀ f ∈ d.disk.log, f.2 = names f.1)
    (hparses : ∀ i, Parses (names i)) (hmerged : Merges d Holds) (hd : Admitted d db) (hdb : Benign d.self names db)
    (hentries : (entries.map fun e => (e.1, e.2.1)) = d.disk.log) :
    Succeeds lengths clocks (fun d' _ db' => Caught d d' db') (do
      let pushed ← pushEntries gained entries
      if gained then updateVault (·.resetSyncCursor)
      let resp ← pullEntries
      let pulled ← applyEntries (entries.map (·.1)) resp.entries
      updateVault (·.setSyncCursor resp.head)
      return (pushed.stored, pulled)) d db := by
  have hframe : ∀ e ∈ entries, (e.1, e.2.1) ∈ d.disk.log := fun e he => hentries ▸ List.mem_map_of_mem he
  have hnames : ∀ e ∈ entries, e.2.1 = names e.1 := fun e he => hlog _ (hframe e he)
  have hheld : ∀ i ∈ entries.map (·.1), (i, names i) ∈ d.disk.log := by
    intro i hi
    obtain ⟨e, he, rfl⟩ := List.mem_map.mp hi
    exact hnames e he ▸ hframe e he
  refine Wins.bind (push_succeeds gained hclocks hfits hentries hd hdb hnames fun pushed db' hd' hdb' => ?_)
  -- The cursor is where it was, or at the start.
  have hpull : ∀ d₁ : Device, d₁.vaultId = d.vaultId → d₁.key = d.key → d₁.disk.log = d.disk.log →
      d₁.vault.state = d.vault.state →
      d₁.vault.metadata.syncCursor = d.vault.metadata.syncCursor ∨ d₁.vault.metadata.syncCursor = 0 →
      Succeeds lengths clocks (fun d' _ db' => Caught d d' db') (do
        let resp ← pullEntries
        let pulled ← applyEntries (entries.map (·.1)) resp.entries
        updateVault (·.setSyncCursor resp.head)
        return (pushed.stored, pulled)) d₁ db' := by
    intro d₁ hv hk hsame hstate hcursor
    refine Wins.bind (pull_succeeds hclocks ⟨by rw [hv, hk]; exact hd'.canSync⟩ fun head => Wins.bind ?_)
    refine applyEntries_succeeds (fun r hr => ?_) hparses (hsame.symm ▸ hheld)
      fun d₂ n news happ hall => Wins.bind (updateVault_succeeds (Wins.pure ?_))
    · have hin := (List.mem_insertionSort _).mp hr
      obtain ⟨hin, hvisible⟩ := List.mem_filter.mp hin
      rw [hv] at hvisible
      unfold Db.visible at hvisible
      have hvault := (Bool.and_eq_true_iff.mp (Bool.and_eq_true_iff.mp hvisible).1).1
      exact hdb'.entries r hin (of_decide_eq_true hvault)
    · refine ⟨⟨d₁.vault.metadata.syncCursor, hcursor, fun r hr => ?_⟩, happ.merges ?_⟩
      · rw [← hv, ← hk] at hr
        exact hall r hr
      · unfold Merges
        rw [hsame, hstate]
        exact hmerged
  split
  · refine Wins.bind (updateVault_succeeds (hpull _ ?_ rfl rfl rfl (Or.inr rfl)))
    rfl
  · exact hpull d rfl rfl rfl rfl (Or.inl rfl)

theorem syncOnce_succeeds (hclocks : InStep clocks) (hready : Ready lengths clocks names d) (hd : Admitted d db) (hdb : Benign d.self names db) :
    Succeeds lengths clocks (fun d' _ db' => Caught d d' db') syncOnce d db := by
  refine Wins.bind (Wins.get ?_)
  rw [if_neg hready.relay]
  refine Wins.bind (healShares_succeeds hclocks hd hdb fun d₁ gained h₁ => Wins.bind ?_)
  have hready₁ : ∀ f ∈ d₁.disk.log, f.2 = names f.1 := fun f hf => hready.log f (h₁.log ▸ hf)
  refine rawEntries_succeeds (fun f hf => hready₁ f hf ▸ hready.parses f.1) fun entries hentries => ?_
  refine (exchange_succeeds hclocks (h₁.pushFits hready.fits) hready₁ hready.parses (h₁.merges hready.merged) (h₁.admitted hd) ?_ hentries).imp
    fun d' out db' hc => h₁.caught hc
  exact h₁.self ▸ hdb

end Devices

open Devices

/-- **Unblocked.** From an empty database, whatever the order in which any number of handlers take their steps: when
all requests mean well by the device, the device is let in, its clock is right and its log is not too long to push,
then its next round, alone at the relay, ends well, and whatever the relay has for it past its cursor is in its log, and
the records that it can open are in its state. -/
theorem sync_unblocked {ι : Type} [DecidableEq ι] {time : ι → Now} {reqs : ι → Request} {h : List (ι × Db × Db)}
    {c₀ c : Handlers ι} {d : Device} (hserving : Serving time reqs c₀) (hempty : c₀.state = {}) (hrun : Pool.Trace c₀ h c)
    (hmeant : ∀ i, MeantWell d.self names (reqs i)) (hclocks : InStep clocks) (hready : Ready lengths clocks names d)
    (hd : Admitted d c.state) :
    Succeeds lengths clocks (fun d' _ db' => Caught d d' db') Sync.syncOnce d c.state := by
  have hbenign : Benign d.self names c.state := by
    refine hrun.keeps (P := fun _ db => Benign d.self names db) hserving.traced ?_
      fun _ _ _ i hs hstep => hstep.benign (hmeant i) hs
    rw [hempty]
    exact ⟨List.forall_mem_nil _, List.forall_mem_nil _, List.forall_mem_nil _⟩
  exact syncOnce_succeeds hclocks hready hd hbenign

/-! ## Two devices -/

namespace Planted

open Visit (vault newDevice)

def enrollment (n : Nat) : ClientReq :=
  .enroll ⟨.plain "device", .b64 (.ed (.device n)), .b64 (.x n), .b64 (.ed (.recovery 0))⟩

def approval : ClientReq :=
  .approve ⟨.b64 (.ed (.device 1)), .b64 (Crypto.wrapVaultKey ⟨[.vault 0 0], 0⟩ (.x 1) (.ed (.device 1)))⟩

def note (i : Uuid) : Bytes :=
  Crypto.sealBlob (.vault 0 0) (.record ⟨i, .snippet, {}, none, ⟨1, 1⟩, 1, 0, nil⟩) i

def sent (n : Nat) (r : ClientReq) : Request := .post r.endpoint (envelope vault (.device n) 0 (.json r.toJson))

/-- Device 0 founds the vault and approves device 1, which pushes a note. -/
def requests : Nat → Request
  | 0 => sent 0 (enrollment 0)
  | 1 => sent 1 (enrollment 1)
  | 2 => sent 0 approval
  | _ => sent 1 (.push ⟨[Sync.wireEntry (30, note 30, nil)]⟩)

def start : Handlers Nat := ⟨fun i => (route 0 (requests i)).run, {}⟩

def admitted : Handlers Nat := start.play [0, 0, 0, 0, 1, 1, 1, 1, 2, 2, 2, 2]

def pushed : Handlers Nat := admitted.play [3, 3, 3, 3]

def device : Device := (newDevice 0 (.vault 0 0)).update (·.setRelayUrl "relay")

theorem meantWell (i : Nat) : MeantWell device.self note (requests i) := by
  rcases i with _ | _ | _ | i
  · trivial
  · trivial
  · rintro - r ⟨j, hj, hr⟩ htarget
    obtain rfl := Body.json.inj hj
    obtain rfl := Option.some.inj hr
    exact absurd htarget (by decide)
  · rintro - r ⟨j, hj, hr⟩
    obtain rfl := Body.json.inj hj
    obtain rfl := Option.some.inj hr
    have hnames : ∀ e ∈ [((30 : Uuid), note 30, nil)], e.2.1 = note e.1 := by decide
    exact entriesNamed hnames

/-- The text of a push of no entries: base64 of 16, 32 and 64 bytes, and what stands between. -/
def texts : TextLengths := ⟨fun _ => 241, fun _ => 0⟩

def stopped (now : Now) (ts : Int64) : Prop := now = 0 ∧ ts = 0

theorem inStep : InStep stopped := by
  rintro _ _ ⟨rfl, rfl⟩
  rfl

theorem ready : Ready texts stopped note device where
  relay := by decide
  log := List.forall_mem_nil _
  parses := by
    intro i s hs
    obtain rfl := Bytes.sealed.inj hs
    exact ⟨_, rfl⟩
  merged := ⟨[], rfl, List.forall_mem_nil _⟩
  fits := fun _ _ _ _ _ => (by decide : 241 ≤ bodyLimit)

/-- Device 1 grants a share to device 0, with a wrap that is none. -/
def grant : ClientReq := .shareGrant (.b64 (.uuid 9)) 1 [⟨.b64 (.ed (.device 0)), .b64 (.uuid 0)⟩]

def answer (call : Call) (db : Db) : Answer × Db :=
  let (r, db') := exec (route 0 (call.what.request 0)) db
  (some r, db')

theorem answers (call : Call) (db : Db) : Answers call db (answer call db).1 (answer call db).2 := ⟨0, 0, rfl, rfl, rfl⟩

theorem handles (call : Call) (db : Db) : Handles texts stopped call db (answer call db).1 (answer call db).2 := by
  have hfits : ∀ req, bodyLength texts req ≤ bodyLimit
    | .post .. => (by decide : 241 ≤ bodyLimit)
    | .recover _ | .shares _ | .devices _ | .wrapped _ | .pull _ => Nat.zero_le _
  refine ⟨0, 0, ⟨rfl, rfl⟩, ?_⟩
  rw [app_of_le (hfits _)]
  exact ⟨rfl, rfl⟩

end Planted

open Planted

theorem sync_unblocked_two : ∃ h, Pool.Trace start h pushed ∧
    Succeeds texts stopped (fun d' _ db' => Caught device d' db') Sync.syncOnce device pushed.state := by
  obtain ⟨h₁, hrun₁⟩ := Pool.Trace.play (@Pool.Trace.start _ _ _ _ start) [0, 0, 0, 0, 1, 1, 1, 1, 2, 2, 2, 2]
  obtain ⟨h, hrun⟩ := hrun₁.play [3, 3, 3, 3]
  exact ⟨h, hrun, sync_unblocked (fun _ => rfl) rfl hrun meantWell inStep ready ⟨by decide +kernel⟩⟩

/-- One approved device stops the rounds of another one. -/
theorem grant_blocks : ¬ ∀ (reqs : Nat → Request) (h : List (Nat × Db × Db)) (c₀ c : Handlers Nat) (d : Device)
    (b : EdKey) (r : ClientReq), Serving (fun _ => 0) reqs c₀ → c₀.state = {} → Pool.Trace c₀ h c →
      (∃ names, Ready texts stopped names d) → Admitted d c.state → c.state.canSync d.vaultId b = true →
      Succeeds texts stopped (fun _ _ _ => True) Sync.syncOnce d
        (exec (route 0 (.post r.endpoint (envelope d.vaultId b 0 (.json r.toJson)))) c.state).2 := by
  intro hall
  obtain ⟨h, hrun⟩ := Pool.Trace.play (@Pool.Trace.start _ _ _ _ start) [0, 0, 0, 0, 1, 1, 1, 1, 2, 2, 2, 2]
  have hsucceeds := hall requests h start admitted device (.device 1) grant (fun _ => rfl) rfl hrun ⟨note, ready⟩
    ⟨by decide +kernel⟩ (by decide +kernel)
  obtain ⟨a, ha⟩ := Client.Wins.run handles hsucceeds
  have hfails : ((Sync.syncOnce device).against answer (exec (route 0 (.post grant.endpoint
      (envelope device.vaultId (.device 1) 0 (.json grant.toJson)))) admitted.state).2).2.1.isOk = false := by
    decide +kernel
  rw [ha] at hfails
  cases hfails

end SshVault
