import SshVault.Client.Cursor
import SshVault.Client.Recovery
import SshVault.Relay.Advances

/-!
# A recovered device

The phrase gives the first key of the default share, and the keys of all later epochs could be derived from it. A recovery
derives the first one only, and the relay has no wrap for a device that it has never seen.
-/

open Lib

namespace SshVault

open Relay Prog

namespace Recovery

open Devices Sync Client

/-! ## What the devices of a vault write -/

/-- The record in a blob, whoever has the key. -/
def recordIn : Bytes → Option Record
  | .sealed ⟨_, _, .record r⟩ => some r
  | _ => none

/-- The entry holds a record, sealed under the phrase's key of an epoch up to this one. -/
def Written (seed : Seed) (epoch : Nat) (e : EntryRow) : Prop :=
  ∃ i n r, e.entryId = .uuid i ∧ e.blob = Crypto.sealBlob (.vault seed n) (.record r) i ∧ n ≤ epoch

/-- What is written into the default share is sealed under a key of an epoch that the vault has reached. -/
def Writing (seed : Seed) (vault : Wire) {ι : Type} (h : List (ι × Db × Db)) : Prop :=
  ∀ i s t, (i, s, t) ∈ h → ∀ e ∈ t.entries, e ∉ s.entries → e.vaultId = vault → e.shareId = nil →
    Written seed (s.epochOf vault) e

/-- All that the default share has can be opened with the phrase. -/
structure FromPhrase (seed : Seed) (vault : Wire) (db : Db) : Prop where
  written : ∀ e ∈ db.entries, e.vaultId = vault → e.shareId = nil → Written seed (db.epochOf vault) e
  seqs : ∀ e ∈ db.entries, 0 < e.seq

variable {seed : Seed} {vault : Wire} {ι : Type} [DecidableEq ι] {time : ι → Now} {reqs : ι → Request}
  {h : List (ι × Db × Db)} {c₀ c : Handlers ι}

theorem Written.mono {m n : Nat} {e : EntryRow} (hmn : m ≤ n) (h : Written seed m e) : Written seed n e := by
  obtain ⟨i, k, r, hi, hb, hk⟩ := h
  exact ⟨i, k, r, hi, hb, hk.trans hmn⟩

theorem epoch_le {now : Now} {req : Request} {past : List (Db × Db)} {s t : Db} (h : Statement now req past s t) (v : Wire) :
    s.epochOf v ≤ t.epochOf v := by
  rcases h.epoch v with heq | ⟨r, e, -, -, hs, ht⟩
  · exact heq.ge
  · unfold Db.epochOf
    rw [hs, ht]
    exact Nat.le_succ e

theorem fromPhrase_of_run (hserving : Serving time reqs c₀) (hempty : c₀.state = {}) (hrun : Pool.Trace c₀ h c)
    (hwriting : Writing seed vault h) : FromPhrase seed vault c.state := by
  have hkeeps : Writing seed vault h → FromPhrase seed vault c.state := by
    refine hrun.keeps (P := fun h db => Writing seed vault h → FromPhrase seed vault db) hserving.traced ?_
      fun h s t i hs hstep hw => ?_
    · rw [hempty]
      exact fun _ => ⟨List.forall_mem_nil _, List.forall_mem_nil _⟩
    · have hbefore := hs fun i s t hin => hw i s t (List.mem_cons_of_mem _ hin)
      refine ⟨fun e he hv hnil => ?_, fun e he => ?_⟩
      · by_cases hold : e ∈ s.entries
        · exact (hbefore.written e hold hv hnil).mono (epoch_le hstep vault)
        · exact (hw i s t List.mem_cons_self e he hold hv hnil).mono (epoch_le hstep vault)
      · exact (hstep.later.entries e he).elim (hbefore.seqs e) (Nat.succ_pos _).trans_le
  exact hkeeps hwriting

/-! ## The relay -/

/-- Nobody has seen the key yet. -/
structure Unknown (key : EdKey) (db : Db) : Prop where
  devices : ∀ r ∈ db.devices, r.ed25519Pub ≠ .ed key
  members : ∀ m ∈ db.shareMembers, m.ed25519Pub ≠ .ed key

theorem route_recover (now : Now) (name : String) (keys : DeviceKeys) {recovery : EdKey} {db : Db}
    (h : db.vaultByRecovery (.ed recovery) = some vault) :
    ∃ x, exec (route now (.recover (recoverReq name recovery keys))) db =
      (.ok (.recover vault), ((Db.recoverDevice vault (.ed keys.ed25519) x (.plain name)).run db).2) := by
  have hreq : Recovers (recoverReq name recovery keys) recovery keys.ed25519 := ⟨rfl, rfl, rfl, Option.some_ne_none _⟩
  obtain ⟨x, hexec⟩ := exec_recover hreq db
  rw [h] at hexec
  refine ⟨x, ?_⟩
  change exec (do return Reply.recover (← Relay.recover (recoverReq name recovery keys))) db = _
  rw [Cursor.exec_reply, hexec]
  rfl

/-- The relay has no wrap for the device, and the device is in no share. -/
structure Bare (vault : Wire) (key : EdKey) (db : Db) : Prop where
  wrap : ∀ r ∈ db.devices, r.key = (vault, .ed key) → r.wrappedKey = none
  members : ∀ m ∈ db.shareMembers, m.ed25519Pub ≠ .ed key

theorem wrapped_reply {now : Now} {ts : Int64} {key : EdKey} {resp : WrappedResp} {db : Db} (hbare : Bare vault key db)
    (h : (exec (route now (Outgoing.request ts (.query .wrapped vault key))) db).1 = .ok (.wrapped resp)) :
    (exec (route now (Outgoing.request ts (.query .wrapped vault key))) db).2 = db ∧ resp.wrappedKey = none := by
  let q := signedQuery vault key ts (.query .wrapped vault)
  change (exec (do return Reply.wrapped (← wrapped now q)) db).1 = _ at h
  change (exec (do return Reply.wrapped (← wrapped now q)) db).2 = _ ∧ _
  rw [Cursor.exec_reply] at h ⊢
  refine ⟨exec_wrapped q, ?_⟩
  unfold wrapped at h
  rw [exec_bind, exec_liftExcept] at h
  cases hv : verify now.verify (q.intoSigned .wrapped) with
  | error e =>
    rw [hv] at h
    cases h
  | ok out =>
    obtain ⟨vault', key'⟩ := out
    rw [hv] at h
    obtain ⟨-, hvault, hkey, -⟩ := verify_ok hv
    obtain rfl : vault' = vault := hvault
    obtain rfl : key = key' := Option.some.inj hkey
    dsimp only at h
    rw [exec_bind, exec_lift] at h
    have hselect : (Db.selectDevice vault' (.ed key)).run db = (db.device vault' (.ed key), db) := rfl
    rw [hselect] at h
    cases hrow : db.device vault' (.ed key) with
    | none =>
      rw [hrow] at h
      cases h
    | some row =>
      rw [hrow] at h
      dsimp only [orReject] at h
      rw [exec_bind, exec_liftExcept] at h
      dsimp only at h
      split at h
      · cases h
      · obtain rfl := Reply.wrapped.inj (Except.ok.inj h)
        have hfound := List.find?_some hrow
        have hkey : row.key = (vault', .ed key) := of_decide_eq_true hfound
        change row.wrappedKey.map Text.b64 = none
        rw [hbare.wrap row (List.mem_of_find?_eq_some hrow) hkey]
        rfl

/-! ## The device -/

/-- The frame of an entry. -/
def frameOf (e : EntryRow) : Uuid × Bytes :=
  (match e.entryId with
    | .uuid i => i
    | _ => nil, e.blob)

/-- What the entries make of a state, for a device with this key-list. -/
def absorbed (kr : Keyring) (rows : List EntryRow) (state : State) : State :=
  rows.foldl (fun state e => Vault.mergeOpened state (opened kr (frameOf e))) state

variable {d d' : Device} {db db' : Db}

/-- The device may give up, too. -/
abbrev Yields {α : Type} (Q : Device → α → Db → Prop) (m : Op α) (d : Device) (db : Db) : Prop :=
  Meets Answers Q (fun _ _ => True) m d db

theorem onVault_yields {α : Type} {op : Vault → Prog Disk (Except VaultError α × Vault)} {Q : Device → α → Db → Prop}
    {r : Except VaultError α} {v : Vault} {disk : Disk} (hrun : (op d.vault).run d.disk = ((r, v), disk))
    (hQ : ∀ a, r = .ok a → Q ⟨disk, v⟩ a db) : Yields Q (onVault op) d db :=
  Cursor.onVault_meets hrun hQ fun _ _ => trivial

theorem applyEntry_yields {i : Uuid} {blob : Bytes} {Q : Device → Unit → Db → Prop}
    (hQ : ∀ d', d'.vault.keyring = d.vault.keyring →
      d'.vault.state = Vault.mergeOpened d.vault.state (opened d.vault.keyring (i, blob)) → Q d' () db) :
    Yields Q (onVault (·.applyRemoteEntry i blob)) d db := by
  cases ho : d.vault.keyring.openEntry i blob with
  | error e =>
    refine onVault_yields (Vault.run_applyRemoteEntry_error ho) fun a ha => ?_
    cases ha
  | ok o =>
    refine onVault_yields (Vault.run_applyRemoteEntry ho) fun _ _ => hQ _ rfl ?_
    have hopened : opened d.vault.keyring (i, blob) = o := by
      unfold opened
      rw [ho]
    rw [hopened]

theorem applyEntries_yields {rows : List EntryRow} {Q : Device → Nat → Db → Prop}
    (hQ : ∀ d' n, d'.vault.keyring = d.vault.keyring → d'.vault.state = absorbed d.vault.keyring rows d.vault.state → Q d' n db) :
    Yields Q (applyEntries [] (rows.map Relay.wireEntry)) d db := by
  induction rows generalizing d Q with
  | nil => exact Meets.pure (hQ d 0 rfl rfl)
  | cons e rows ih =>
    refine Meets.bind (Meets.lift (fun i hi => ?_) fun _ _ => trivial)
    have hid : e.entryId = .uuid i := Cursor.decode16_b64 (Cursor.orBad_eq_ok hi)
    have hframe : frameOf e = (i, e.blob) := by
      unfold frameOf
      rw [hid]
    rw [if_neg List.not_mem_nil]
    refine Meets.bind (Meets.lift (fun blob hblob => ?_) fun _ _ => trivial)
    obtain rfl : e.blob = blob := Option.some.inj (Cursor.orBad_eq_ok hblob)
    refine Meets.bind (applyEntry_yields fun d₁ hkr hstate => Meets.bind (ih fun d' n hkr' hstate' => Meets.pure ?_))
    refine hQ d' (n + 1) (hkr'.trans hkr) ?_
    rw [hstate', hkr, hstate, ← hframe]
    rfl

/-- The entries of the default share, in the order of the log. -/
def nilRows (vault : Wire) (db : Db) : List EntryRow :=
  (db.entries.filter fun e => e.vaultId = vault ∧ e.shareId = nil).insertionSort (·.seq ≤ ·.seq)

theorem signedGet_yields {action : Action} {Q : Device → Reply → Db → Prop}
    (hQ : ∀ reply now ts, (exec (route now (Outgoing.request ts (.query action d.vaultId d.key))) db).1 = .ok reply →
      Q d reply (exec (route now (Outgoing.request ts (.query action d.vaultId d.key))) db).2) :
    Yields Q (signedGet .plain action) d db := by
  refine Meets.bind (Meets.ask ?_)
  rintro _ _ ⟨now, ts, -, rfl, rfl⟩
  exact Meets.lift (fun reply hreply => hQ reply now ts (Option.some.inj (parse_ok hreply))) fun _ _ => trivial

theorem absorbShares_yields {l : List ShareMembership} {gained : Bool} {Q : Device → Bool → Db → Prop}
    (h : ∀ m ∈ l, m.shareId.decode16 = none) (hQ : Q d gained db) : Yields Q (absorbShares gained l) d db := by
  induction l with
  | nil => exact Meets.pure hQ
  | cons m rest ih =>
    obtain ⟨hm, hrest⟩ := List.forall_mem_cons.mp h
    unfold absorbShares
    rw [hm]
    exact ih hrest

theorem healShares_yields {Q : Device → Bool → Db → Prop} (hbare : Bare d.vaultId d.key db) (hQ : Q d false db) :
    Yields Q healShares d db := by
  refine Meets.bind (signedGet_yields fun reply now ts hexec => Meets.bind (Meets.lift (fun resp hresp => ?_) fun _ _ => trivial))
  cases reply <;> cases hresp
  obtain ⟨hdb, hnone⟩ := wrapped_reply hbare hexec
  rw [hdb]
  have hshares : Yields Q (do
      let memberships ← asShares (← signedGet .plain .shares)
      absorbShares false memberships) d db := by
    refine Meets.bind (signedGet_yields fun reply now ts hexec => Meets.bind (Meets.lift (fun l hl => ?_) fun _ _ => trivial))
    cases reply <;> cases hl
    obtain ⟨hdb, hmember⟩ := Cursor.shares_reply hexec
    rw [hdb]
    refine absorbShares_yields (fun m hm => ?_) hQ
    cases hshare : m.shareId.decode16 with
    | none => rfl
    | some share =>
      obtain ⟨row, hrow, hkey⟩ := List.any_eq_true.mp (hmember m hm share hshare)
      exact absurd (congrArg (·.2.2) (of_decide_eq_true hkey)) (hbare.members row hrow)
  refine Meets.bind (Meets.bind (Meets.get ?_))
  split
  · split
    · rename_i hsome
      rw [hnone] at hsome
      cases hsome
    · exact Meets.pure hshares
  · exact Meets.pure hshares

/-- What an empty push leaves as it is. -/
structure Untouched (s t : Db) : Prop where
  entries : t.entries = s.entries
  vaults : t.vaults = s.vaults
  members : t.shareMembers = s.shareMembers

theorem push_nothing {now : Now} {signed : Signed} {past : List (Db × Db)} {s t : Db}
    (h : Statement now (.post .push signed) past s t) (hempty : ∀ r, Reads PushReq.ofJson signed.body r → r.entries = []) :
    Untouched s t := by
  cases h with
  | insertVault h =>
    obtain ⟨_, _, hreq, -⟩ := h
    cases hreq
  | bumpEpoch hreq => cases hreq
  | upsertMember hreq => cases hreq
  | deleteMember hreq => cases hreq
  | rewrapMember hreq => cases hreq
  | insertEntry hreq _ hr he =>
    cases hreq
    obtain ⟨e, hin, -⟩ := he
    rw [hempty _ hr] at hin
    cases hin
  | _ => exact ⟨rfl, rfl, rfl⟩

theorem pushEntries_yields {Q : Device → PushResp → Db → Prop} (hQ : ∀ resp db', Untouched db db' → Q d resp db') :
    Yields Q (pushEntries false []) d db := by
  refine Meets.bind (Meets.bind (Meets.ask ?_))
  rintro _ _ ⟨now, ts, -, rfl, rfl⟩
  have hempty : ∀ r, Reads PushReq.ofJson (Body.json (ClientReq.push ⟨[]⟩).toJson) r → r.entries = [] := by
    rintro r ⟨j, hj, hr⟩
    obtain rfl := Body.json.inj hj
    obtain rfl := Option.some.inj hr
    rfl
  let signed := envelope d.vaultId d.key ts (.json (ClientReq.push ⟨[]⟩).toJson)
  have hsame : Untouched db (exec (route now (.post .push signed)) db).2 :=
    (route_traced now (.post .push signed)).exec (P := Untouched db)
      (fun _ _ _ hstep hs =>
        have hlast := push_nothing hstep hempty
        ⟨hlast.entries.trans hs.entries, hlast.vaults.trans hs.vaults, hlast.members.trans hs.members⟩) ⟨rfl, rfl, rfl⟩
  exact Meets.lift (fun _ _ => Meets.lift (fun resp _ => hQ resp _ hsame) fun _ _ => trivial) fun _ _ => trivial

theorem visible_nil {key : EdKey} (hmembers : ∀ m ∈ db.shareMembers, m.ed25519Pub ≠ .ed key) (hseqs : ∀ e ∈ db.entries, 0 < e.seq) :
    ((Db.selectEntries vault (.ed key) 0).run db).1 = nilRows vault db := by
  refine congrArg (List.insertionSort _) (List.filter_congr fun e he => ?_)
  have hnone : db.isMember vault e.shareId (.ed key) = false := by
    refine List.any_eq_false.mpr fun m hm hk => ?_
    exact hmembers m hm (congrArg (·.2.2) (of_decide_eq_true hk))
  have hpos : Db.asI64 0 < e.seq := (asI64_le 0).trans_lt (by exact_mod_cast hseqs e he)
  simp [Db.visible, hnone, hpos]

/-- The first round of a device that the relay has neither a wrap nor a share for. -/
theorem syncOnce_yields (hlog : d.disk.log = []) (hcursor : d.vault.metadata.syncCursor = 0) (hbare : Bare d.vaultId d.key db)
    (hseqs : ∀ e ∈ db.entries, 0 < e.seq) :
    Yields (fun d' _ db' => d'.vault.keyring = d.vault.keyring ∧
      d'.vault.state = absorbed d.vault.keyring (nilRows d.vaultId db) d.vault.state ∧ Untouched db db') syncOnce d db := by
  refine Meets.bind (Meets.get ?_)
  by_cases hurl : d.vault.metadata.relayUrl = none
  · rw [if_pos hurl]
    exact Meets.bind (Meets.fail trivial)
  rw [if_neg hurl]
  refine Meets.bind (healShares_yields hbare (Meets.bind ?_))
  obtain ⟨entries, hrun, hmap⟩ := run_rawEntriesTagged (d := d) (by rw [hlog]; exact List.forall_mem_nil _)
  rw [hlog] at hmap
  obtain rfl := List.map_eq_nil_iff.mp hmap
  refine onVault_yields hrun fun entries hentries => ?_
  obtain rfl := Except.ok.inj hentries
  refine Meets.bind (pushEntries_yields fun pushed db' hsame => ?_)
  refine Meets.bind (Meets.bind (Meets.ask ?_))
  rintro _ _ ⟨now, ts, -, rfl, rfl⟩
  refine Meets.bind (Meets.lift (fun reply hreply => Meets.lift (fun resp hresp => ?_) fun _ _ => trivial) fun _ _ => trivial)
  cases reply <;> cases hresp
  have hexec := Option.some.inj (parse_ok hreply)
  obtain ⟨hdb, rfl⟩ := Cursor.pull_reply hexec
  have hrows : ((Db.selectEntries d.vaultId (.ed d.key) d.vault.metadata.syncCursor).run db').1 = nilRows d.vaultId db := by
    rw [hcursor, visible_nil (hsame.members ▸ hbare.members) (hsame.entries ▸ hseqs)]
    unfold nilRows
    rw [hsame.entries]
  rw [hrows]
  refine Meets.bind (applyEntries_yields fun d' n hkr hstate => Meets.bind (Meets.pure ?_))
  refine ⟨hkr, hstate, ?_⟩
  change Untouched db (exec (route now (Outgoing.request ts (.pull d.vaultId d.key d.vault.metadata.syncCursor))) db').2
  rw [hdb]
  exact hsame

/-! ## Recovery -/

theorem vault_of_decode16 {t : Wire} {i : Uuid} (h : t.decode16 = some i) : t = .b64 (.uuid i) := by
  cases t with
  | b64 bytes => exact congrArg Text.b64 (Cursor.decode16_b64 h)
  | plain s =>
    unfold Text.decode16 Text.decode at h
    dsimp only at h
    by_cases hs : s = ""
    · rw [if_pos hs] at h
      cases h
    · rw [if_neg hs] at h
      cases h

/-- What a recovery that ends well leaves. -/
structure Recovered (seed : Seed) (vault : Wire) (keys : DeviceKeys) (db : Db) (d : Device) (db' : Db) : Prop where
  vaultId : d.vaultId = vault
  key : d.key = keys.ed25519
  log : d.disk.log = []
  cursor : d.vault.metadata.syncCursor = 0
  state : d.vault.state = ∅
  shares : d.vault.keyring.shares = [⟨nil, [.vault seed 0]⟩]
  bare : Bare vault keys.ed25519 db'
  entries : db'.entries = db.entries
  vaults : db'.vaults = db.vaults

theorem bare_recoverDevice {key : EdKey} {x : Bytes} {name : Wire} (h : Unknown key db) :
    Bare vault key ((Db.recoverDevice vault (.ed key) x name).run db).2 := by
  refine ⟨fun r hr hk => ?_, h.members⟩
  rcases Table.mem_upsert hr with ⟨hr, -⟩ | ⟨rfl, -⟩ | ⟨r₀, hr₀, hk₀, -⟩
  · exact absurd (congrArg Prod.snd hk) (h.devices r hr)
  · rfl
  · exact absurd (congrArg Prod.snd hk₀) (h.devices r₀ hr₀)

theorem recover_ends {name relay : String} {keys : DeviceKeys} {o : Option Device}
    (hvault : db.vaultByRecovery (.ed (.recovery seed)) = some vault) (hunknown : Unknown keys.ed25519 db)
    (h : (Devices.recover name relay (.mnemonic seed) keys).Ends Answers db o (.ok ()) db') :
    ∃ d, o = some d ∧ Recovered seed vault keys db d db' := by
  cases h with
  | ask hserved hrest =>
    obtain ⟨now, ts, -, ha, hdb⟩ := hserved
    obtain ⟨x, hexec⟩ := route_recover now name keys hvault
    obtain rfl := ha.trans (congrArg (fun out : Except HttpError Reply × Db => some out.1) hexec)
    obtain rfl := hdb.trans (congrArg Prod.snd hexec)
    dsimp only [parse, asRecover, orBad, Bind.bind, Except.bind] at hrest
    cases hid : vault.decode16 with
    | none =>
      rw [hid] at hrest
      cases hrest
    | some i =>
      obtain rfl := vault_of_decode16 hid
      cases hrest
      exact ⟨_, rfl, rfl, rfl, rfl, rfl, rfl, rfl, bare_recoverDevice hunknown, rfl, rfl⟩

/-- The device has all of the default share, and writes into it under the newest key. -/
structure Reaches (seed : Seed) (vault : Wire) (d : Device) (db : Db) : Prop where
  state : d.vault.state = mergeAll ((nilRows vault db).filterMap fun e => recordIn e.blob)
  seals : ∀ r i, r.shareId = nil → ((d.vault.append r i).run d.disk).2.log =
    d.disk.log ++ [(i, Crypto.sealBlob (.vault seed (db.epochOf vault)) (.record r) i)]

theorem opened_written {kr : Keyring} {e : EntryRow} (hkr : kr.shares = [⟨nil, [.vault seed 0]⟩]) (h : Written seed 0 e) :
    opened kr (frameOf e) = recordIn e.blob := by
  obtain ⟨i, n, r, hi, hb, hn⟩ := h
  obtain rfl : n = 0 := Nat.le_zero.mp hn
  have hopen : kr.openEntry i e.blob = .ok (some r) := by
    refine Keyring.openEntry_eq_some.mpr ⟨.vault seed 0, ?_, hb⟩
    unfold Keyring.allKeys
    rw [hkr]
    exact List.mem_singleton_self _
  have hframe : frameOf e = (i, e.blob) := by
    unfold frameOf
    rw [hi]
  unfold opened
  rw [hframe]
  dsimp only
  rw [hopen, hb]
  rfl

theorem absorbed_written {kr : Keyring} {rows : List EntryRow} (hkr : kr.shares = [⟨nil, [.vault seed 0]⟩])
    (h : ∀ e ∈ rows, Written seed 0 e) (state : State) :
    absorbed kr rows state = (rows.filterMap fun e => recordIn e.blob).foldl mergeInto state := by
  induction rows generalizing state with
  | nil => rfl
  | cons e rows ih =>
    obtain ⟨he, hrows⟩ := List.forall_mem_cons.mp h
    change absorbed kr rows (Vault.mergeOpened state (opened kr (frameOf e))) = _
    rw [ih hrows, opened_written hkr he, List.filterMap_cons]
    cases recordIn e.blob <;> rfl

theorem seals_zero (hkr : d.vault.keyring.shares = [⟨nil, [.vault seed 0]⟩]) {r : Record} (hr : r.shareId = nil) (i : Uuid) :
    ((d.vault.append r i).run d.disk).2.log = d.disk.log ++ [(i, Crypto.sealBlob (.vault seed 0) (.record r) i)] := by
  have hcurrent : d.vault.keyring.currentFor r.shareId = some (.vault seed 0) := by
    unfold Keyring.currentFor Keyring.share
    rw [hkr, hr]
    rfl
  unfold Vault.append
  rw [hcurrent]
  rfl

/-- **Recovery.** A vault is founded with a phrase at an empty relay, and what its devices write into the default share is
sealed under the phrase's keys, of epochs that the vault has reached. Whatever else is sent, in whatever order: a device
that is made from the phrase, and syncs, has all of the default share and writes under its newest key if and only if
the vault has never rotated. -/
theorem recovery_reaches_iff {ι : Type} [DecidableEq ι] {time : ι → Now} {reqs : ι → Request} {h : List (ι × Db × Db)}
    {c₀ c : Handlers ι} {seed : Seed} {vault : Wire} (hserving : Serving time reqs c₀) (hempty : c₀.state = {})
    (hrun : Pool.Trace c₀ h c) (hwriting : Writing seed vault h)
    (hvault : c.state.vaultByRecovery (.ed (.recovery seed)) = some vault) {keys : Devices.DeviceKeys}
    (hunknown : Unknown keys.ed25519 c.state) {name relay : String} {d d' : Device} {db db' : Db} {out : Nat × Nat}
    (hrecover : (Devices.recover name relay (.mnemonic seed) keys).Ends Answers c.state (some d) (.ok ()) db)
    (hsync : (Sync.syncOnce d).Ends Answers db d' (.ok out) db') :
    Reaches seed vault d' db' ↔ c.state.epochOf vault = 0 := by
  have hphrase := fromPhrase_of_run hserving hempty hrun hwriting
  obtain ⟨_, hd, hrecovered⟩ := recover_ends hvault hunknown hrecover
  obtain rfl := Option.some.inj hd
  have hbare : Bare d.vaultId d.key db := by
    rw [hrecovered.vaultId, hrecovered.key]
    exact hrecovered.bare
  obtain ⟨hkr, hstate, hsame⟩ := Session.Against.ends (syncOnce_yields hrecovered.log hrecovered.cursor hbare
    (hrecovered.entries ▸ hphrase.seqs)) hsync
  have hshares : d'.vault.keyring.shares = [⟨nil, [.vault seed 0]⟩] := by
    rw [hkr]
    exact hrecovered.shares
  have hepoch : db'.epochOf vault = c.state.epochOf vault := by
    unfold Db.epochOf Db.epoch
    rw [hsame.vaults, hrecovered.vaults]
  constructor
  · intro hreaches
    -- The first write shows which key it is.
    have hseals := hreaches.seals ⟨nil, .snippet, {}, none, ⟨0, 0⟩, 0, 0, nil⟩ nil rfl
    rw [seals_zero hshares rfl, hepoch] at hseals
    have hblob := (Prod.mk.inj (List.cons.inj (List.append_cancel_left hseals)).1).2
    exact (Key.vault.inj (Sealed.mk.inj (Bytes.sealed.inj hblob)).1).2.symm
  · intro hzero
    have hrows : nilRows d.vaultId db = nilRows vault c.state := by
      unfold nilRows
      rw [hrecovered.vaultId, hrecovered.entries]
    have hrows' : nilRows vault db' = nilRows vault c.state := by
      unfold nilRows
      rw [hsame.entries, hrecovered.entries]
    have hwritten : ∀ e ∈ nilRows vault c.state, Written seed 0 e := by
      intro e he
      obtain ⟨hin, hp⟩ := List.mem_filter.mp ((List.mem_insertionSort _).mp he)
      obtain ⟨hv, hnil⟩ := of_decide_eq_true hp
      exact hzero ▸ hphrase.written e hin hv hnil
    refine ⟨?_, fun r i hr => ?_⟩
    · rw [hstate, hrows, hrecovered.state, hrows', absorbed_written hrecovered.shares hwritten]
      rfl
    · rw [hepoch, hzero]
      exact seals_zero hshares hr i

/-! ## A vault that has rotated, and one that has not -/

open Planted (sent enrollment approval note answer answers)

/-- Device 0 founds the vault, approves device 1, writes a note, shuts device 1 out again and rotates. -/
def requests : Nat → Request
  | 0 => sent 0 (enrollment 0)
  | 1 => sent 1 (enrollment 1)
  | 2 => sent 0 approval
  | 3 => sent 0 (.push ⟨[Sync.wireEntry (30, note 30, nil)]⟩)
  | 4 => sent 0 (.revoke ⟨.b64 (.ed (.device 1))⟩)
  | _ => sent 0 (.rotate 1 [⟨.b64 (.ed (.device 0)), .b64 (Crypto.wrapVaultKey ⟨[.vault 0 0, .vault 0 1], 0⟩ (.x 0) (.ed (.device 0)))⟩])

def start : Handlers Nat := ⟨fun i => (route 0 (requests i)).run, {}⟩

def written : Handlers Nat := start.play [0, 0, 0, 0, 1, 1, 1, 1, 2, 2, 2, 2, 3, 3, 3, 3]

def rotated : Handlers Nat := written.play [4, 4, 4, 4, 5, 5, 5, 5, 5, 5]

theorem serving : Serving (fun _ => 0) requests start := fun _ => rfl

theorem writing {c : Handlers Nat} {h : List (Nat × Db × Db)} (hrun : Pool.Trace start h c) : Writing 0 Visit.vault h := by
  intro i s t hin e he hnew _ _
  obtain ⟨_, -, hstep⟩ := hrun.step_of_mem serving.traced hin
  cases hstep with
  | insertEntry hreq hc hr hdec =>
    rcases Table.mem_insertOrIgnore he with he | rfl
    · exact absurd he hnew
    · -- There is one push.
      rcases i with _ | _ | _ | _ | _ | i <;> cases hreq
      obtain ⟨j, hj, hr⟩ := hr
      obtain rfl := Body.json.inj hj
      obtain rfl := Option.some.inj hr
      obtain ⟨e, hin, hdec⟩ := hdec
      obtain rfl := List.mem_singleton.mp hin
      obtain rfl := Except.ok.inj hdec
      exact ⟨30, 0, _, rfl, rfl, Nat.zero_le _⟩
  | _ => exact absurd he hnew

def keys : Devices.DeviceKeys := ⟨7, .device 7, 7⟩

def again (db : Db) : Option Device × Except ClientError Unit × Db :=
  (Devices.recover "new" "relay" (.mnemonic 0) keys).against answer db

theorem ends_of_ok {σ α : Type} {c : Session σ Call Answer (Except ClientError α)} {db : Db}
    (h : (c.against answer db).2.1.isOk = true) :
    ∃ a, c.Ends Answers db (c.against answer db).1 (.ok a) (c.against answer db).2.2 := by
  have hends := Session.ends_against (c := c) (t := db) fun x _ => answers x.1 x.2
  cases hres : (c.against answer db).2.1 with
  | ok a => exact ⟨a, hres ▸ hends⟩
  | error e =>
    rw [hres] at h
    cases h

theorem recovers {db : Db} (hvault : db.vaultByRecovery (.ed (.recovery 0)) = some Visit.vault)
    (hunknown : Unknown keys.ed25519 db) (hok : (again db).2.1.isOk = true)
    (hsync : ((again db).1.map fun d => ((Sync.syncOnce d).against answer (again db).2.2).2.1.isOk) = some true) :
    ∃ d out, (again db).1 = some d ∧
      (Devices.recover "new" "relay" (.mnemonic 0) keys).Ends Answers db (some d) (.ok ()) (again db).2.2 ∧
      (Sync.syncOnce d).Ends Answers (again db).2.2 ((Sync.syncOnce d).against answer (again db).2.2).1 (.ok out)
        ((Sync.syncOnce d).against answer (again db).2.2).2.2 := by
  obtain ⟨_, hrecover⟩ := ends_of_ok hok
  obtain ⟨d, hd, -⟩ := recover_ends hvault hunknown hrecover
  have hd : (again db).1 = some d := hd
  rw [hd] at hsync
  obtain ⟨out, hends⟩ := ends_of_ok (Option.some.inj hsync)
  exact ⟨d, out, hd, hd ▸ hrecover, hends⟩

def blank : Record := ⟨nil, .snippet, {}, none, ⟨0, 0⟩, 0, 0, nil⟩

def sealsNewest (d : Device) (db : Db) : Bool :=
  ((d.vault.append blank nil).run d.disk).2.log =
    d.disk.log ++ [(nil, Crypto.sealBlob (.vault 0 (db.epochOf Visit.vault)) (.record blank) nil)]

theorem unknown_written : Unknown keys.ed25519 written.state := ⟨by decide +kernel, by decide +kernel⟩

theorem unknown_rotated : Unknown keys.ed25519 rotated.state := ⟨by decide +kernel, by decide +kernel⟩

theorem recovery_reaches_iff_written : ∃ d d' db db' out,
    (Devices.recover "new" "relay" (.mnemonic 0) keys).Ends Answers written.state (some d) (.ok ()) db ∧
    (Sync.syncOnce d).Ends Answers db d' (.ok out) db' ∧
    (Reaches 0 Visit.vault d' db' ↔ written.state.epochOf Visit.vault = 0) := by
  obtain ⟨h, hrun⟩ := Pool.Trace.play (@Pool.Trace.start _ _ _ _ start) [0, 0, 0, 0, 1, 1, 1, 1, 2, 2, 2, 2, 3, 3, 3, 3]
  have hvault : written.state.vaultByRecovery (.ed (.recovery 0)) = some Visit.vault := by decide +kernel
  obtain ⟨d, out, -, hrecover, hsync⟩ := recovers hvault unknown_written (by decide +kernel) (by decide +kernel)
  exact ⟨d, _, _, _, out, hrecover, hsync,
    recovery_reaches_iff serving rfl hrun (writing hrun) hvault unknown_written hrecover hsync⟩

/-- After a rotation, the phrase does not bring back the key that is in use. -/
theorem recovery_stops_at_rotation : ¬ ∀ (time : Nat → Now) (reqs : Nat → Request) (h : List (Nat × Db × Db))
    (c₀ c : Handlers Nat) (seed : Seed) (vault : Wire) (keys : Devices.DeviceKeys) (name relay : String) (d d' : Device)
    (db db' : Db) (out : Nat × Nat), Serving time reqs c₀ → c₀.state = {} → Pool.Trace c₀ h c → Writing seed vault h →
      c.state.vaultByRecovery (.ed (.recovery seed)) = some vault → Unknown keys.ed25519 c.state →
      (Devices.recover name relay (.mnemonic seed) keys).Ends Answers c.state (some d) (.ok ()) db →
      (Sync.syncOnce d).Ends Answers db d' (.ok out) db' → Reaches seed vault d' db' := by
  intro hall
  obtain ⟨h₁, hrun₁⟩ := Pool.Trace.play (@Pool.Trace.start _ _ _ _ start) [0, 0, 0, 0, 1, 1, 1, 1, 2, 2, 2, 2, 3, 3, 3, 3]
  obtain ⟨h, hrun⟩ := hrun₁.play [4, 4, 4, 4, 5, 5, 5, 5, 5, 5]
  have hvault : rotated.state.vaultByRecovery (.ed (.recovery 0)) = some Visit.vault := by decide +kernel
  obtain ⟨d, out, hd, hrecover, hsync⟩ := recovers hvault unknown_rotated (by decide +kernel) (by decide +kernel)
  have hreaches := hall _ _ _ _ _ _ _ _ _ _ _ _ _ _ _ serving rfl hrun (writing hrun) hvault unknown_rotated hrecover hsync
  have hstale : ((again rotated.state).1.map fun d =>
      sealsNewest ((Sync.syncOnce d).against Planted.answer (again rotated.state).2.2).1
        ((Sync.syncOnce d).against Planted.answer (again rotated.state).2.2).2.2) = some false := by decide +kernel
  rw [hd] at hstale
  exact absurd (hreaches.seals blank nil rfl) (of_decide_eq_false (Option.some.inj hstale))

end Recovery

end SshVault
