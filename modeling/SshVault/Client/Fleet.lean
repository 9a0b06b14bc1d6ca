import SshVault.Client.Rounds
import SshVault.Lib.Service

/-!
# The devices of a vault and their relay

Any number of devices, each running one operation after another against the same relay. The relay runs
the statements of its handlers in any order, and a request or its answer may be lost.
-/

open Lib

namespace SshVault

open Relay Service

/-- An operation, with what its user and its random draws decide. -/
inductive Task where
  | idle
  | enroll
  | join (relay : String) (polls : Nat)
  | approve (code : String)
  | revokeAndRotate (code : String) (phrase : Phrase)
  | createShare (name : String) (codes : List String) (draw : Devices.ShareDraw)
  | shareAdd (share : Uuid) (codes : List String)
  | shareRemove (share : Uuid) (code : String) (n : Nat)
  | sync

def Task.prog (first : Bytes → List UInt8) : Task → Op Unit
  | .idle => return ()
  | .enroll => do let _ ← Sync.enroll; return ()
  | .join relay polls => Devices.enrollAndWait relay polls
  | .approve code => do let _ ← Devices.approve first code; return ()
  | .revokeAndRotate code phrase => do let _ ← Devices.revokeAndRotate first code phrase; return ()
  | .createShare name codes draw => do let _ ← Devices.createShare first name codes draw; return ()
  | .shareAdd share codes => Devices.shareAdd first share codes
  | .shareRemove share code n => do let _ ← Devices.shareRemove first share code n; return ()
  | .sync => do let _ ← Sync.syncOnce; return ()

abbrev Response := Except HttpError Reply

/-- A request is handled at the relay's time `now`, and was signed at `ts`. -/
structure Clocks where
  now : Now
  ts : Int64

def fleet (first : Bytes → List UInt8) :
    Service Task Device Call Response (Except ClientError Unit) Db Clocks where
  client task d := task.prog first d
  handler clocks call := (route clocks.now (call.what.request clocks.ts)).run

abbrev Fleet (ι : Type) := Config ι Task Device Response Db

/-! ## What the devices send -/

theorem Task.does (first : Bytes → List UInt8) (task : Task) {d : Device} (hd : d.Filled) :
    Does (fun d _ => d.Filled) (task.prog first) d := by
  cases task with
  | idle => exact Client.Does.pure hd
  | enroll => exact Client.Does.bind (Devices.enroll_does hd fun _ => Client.Does.pure hd)
  | join relay polls => exact Devices.enrollAndWait_does relay polls hd
  | approve code => exact Client.Does.bind ((Devices.approve_does code hd).imp (fun _ _ h => Client.Does.pure h) fun _ h => h)
  | revokeAndRotate code phrase =>
    exact Client.Does.bind ((Devices.revokeAndRotate_does code phrase hd).imp (fun _ _ h => Client.Does.pure h) fun _ h => h)
  | createShare name codes draw =>
    exact Client.Does.bind ((Devices.createShare_does name codes draw hd).imp (fun _ _ h => Client.Does.pure h) fun _ h => h)
  | shareAdd share codes => exact Devices.shareAdd_does share codes hd
  | shareRemove share code n =>
    exact Client.Does.bind ((Devices.shareRemove_does share code n hd).imp (fun _ _ h => Client.Does.pure h) fun _ h => h)
  | sync => exact Client.Does.bind ((Sync.syncOnce_does hd).imp (fun _ _ h => Client.Does.pure h) fun _ h => h)

/-! ## Wraps that reach the epoch beside them -/

/-- What the sender of a request has to mind. An approver and a granter hold the keys of every epoch that the
relay has reached. A rotation that the relay takes, and a grant that raises the epoch of a share, address
every device whose wrap they leave behind. -/
def Mindful (db : Db) (d : Device) : Outgoing → Prop
  | .post vault key (.approve _) =>
    db.canSync vault key = true → db.epochOf vault + 1 ≤ (d.vault.keyring.keysOf nil).length
  | .post vault key (.rotate epoch wrapped) =>
    db.canSync vault key = true → (∃ v ∈ db.vaults, v.vaultId = vault ∧ v.epoch + 1 = epoch.val) →
      ∀ r ∈ db.devices, r.vaultId = vault → r.canSync = true → r.wrappedKey ≠ none → Addresses wrapped r.ed25519Pub
  | .post vault key (.shareGrant shareId epoch wrapped) =>
    db.canSync vault key = true → ∀ share ∈ shareId.decode16,
      (wrapped ≠ [] → db.shareEpochOf vault share + 1 ≤ (d.vault.keyring.keysOf share).length) ∧
      (db.shareEpochOf vault share < epoch.val →
        ∀ m ∈ db.shareMembers, m.vaultId = vault → m.shareId = share → ¬ Shut db vault m.ed25519Pub →
          Addresses wrapped m.ed25519Pub)
  | .post vault key (.shareRotate shareId epoch wrapped remove) =>
    db.canSync vault key = true → ∀ share ∈ shareId.decode16, Takes vault share epoch.val db.shares →
        ∀ m ∈ db.shareMembers, m.vaultId = vault → m.shareId = share → ¬ Shut db vault m.ed25519Pub →
          (∃ t ∈ remove, t.decode = some m.ed25519Pub) ∨ Addresses wrapped m.ed25519Pub
  | _ => True

instance (db : Db) (d : Device) : (what : Outgoing) → Decidable (Mindful db d what)
  | .post _ _ (.approve _) => inferInstanceAs (Decidable (_ → _))
  | .post _ _ (.rotate ..) => inferInstanceAs (Decidable (_ → _))
  | .post _ _ (.shareGrant ..) | .post _ _ (.shareRotate ..) =>
    -- Not by trying every share id.
    let _ := @Option.decidableForallMem
    inferInstanceAs (Decidable (_ → _))
  | .post _ _ (.enroll _) | .post _ _ (.revoke _) | .post _ _ (.push _) | .query .. | .pull .. | .recover _ => .isTrue trivial

/-- The next request, if there is one, is a mindful one. -/
def MindfulNext {α : Type} (db : Db) : Session Device Call Answer α → Prop
  | .ask d call _ => Mindful db d call.what
  | .done .. => True

instance {α : Type} (db : Db) : (c : Session Device Call Answer α) → Decidable (MindfulNext db c)
  | .ask d call _ => inferInstanceAs (Decidable (Mindful db d call.what))
  | .done .. => .isTrue trivial

theorem WrapsOwn.carries {d : Device} {share : Uuid} {wrapped : List WrappedFor} {n : Nat}
    (h : ∀ w ∈ wrapped, WrapsOwn d share w) (hn : wrapped ≠ [] → n ≤ (d.vault.keyring.keysOf share).length) :
    Carries n wrapped := by
  intro w hw
  obtain ⟨ed, x, hpub, hwrap⟩ := h w hw
  refine ⟨ed.bytes, _, hpub, by rw [hwrap]; rfl, ?_⟩
  exact hn (List.ne_nil_of_mem hw)

theorem fresh_of_mindful {db : Db} {d : Device} {vault : Wire} {key : EdKey} {r : ClientReq} (hd : d.Filled)
    (hown : SendsOwn d (.post vault key r)) (hmind : Mindful db d (.post vault key r)) (hcan : db.canSync vault key = true) :
    Fresh db vault r := by
  cases r with
  | enroll r => trivial
  | approve r =>
    obtain ⟨ed, x, -, hwrap⟩ := hown
    intro b hb
    have hwrap : r.wrappedKey = .b64 (Crypto.wrapVaultKey (d.vault.keyring.shareKeyList nil) x ed) := hwrap
    rw [hwrap] at hb
    obtain rfl := Option.some.inj hb
    exact hmind hcan
  | revoke r => trivial
  | rotate epoch wrapped =>
    obtain ⟨hepoch, hwraps⟩ := hown
    have hlen := hd.shareEpoch_lt hd.default
    exact ⟨WrapsOwn.carries hwraps fun _ => by omega, hmind hcan⟩
  | shareGrant shareId epoch wrapped =>
    obtain ⟨share, rfl, hheld, hepoch, hwraps⟩ := hown
    intro share' hshare
    obtain rfl : share = share' := Option.some.inj hshare
    obtain ⟨hlen, haddr⟩ := hmind hcan share rfl
    have hlen' := hd.shareEpoch_lt hheld
    exact ⟨WrapsOwn.carries hwraps fun hne => by have := hlen hne; omega, haddr⟩
  | shareRotate shareId epoch wrapped remove =>
    obtain ⟨share, rfl, hheld, hepoch, hwraps, hremove⟩ := hown
    intro share' hshare
    obtain rfl : share = share' := Option.some.inj hshare
    have hlen := hd.shareEpoch_lt hheld
    refine ⟨WrapsOwn.carries hwraps fun _ => by omega, fun t ht => ?_, hmind hcan share rfl⟩
    obtain ⟨b, rfl⟩ := hremove t ht
    exact ⟨b, rfl⟩
  | push r => trivial

/-! ## What the relay answers -/

/-- The relay lists devices by their keys, sends lists that reach the epoch beside them, and a list to every
device of these whenever it says that the device is approved. -/
structure Truthful (joined : Wire → EdKey → Prop) (call : Call) (a : Answer) : Prop where
  listed : Listed call a
  reaching : Sync.Reaching a
  wraps : ∀ note vault key resp, call = ⟨note, .query .wrapped vault key⟩ → joined vault key →
    a = some (.ok (.wrapped resp)) → resp.approved = true → resp.wrappedKey ≠ none

theorem Truthful.other {joined : Wire → EdKey → Prop} {call : Call} {a : Answer}
    (hd : ∀ l, a ≠ some (.ok (.devices l))) (hs : ∀ l, a ≠ some (.ok (.shares l)))
    (hw : ∀ resp, a ≠ some (.ok (.wrapped resp))) : Truthful joined call a :=
  ⟨fun l h => absurd h (hd l), ⟨fun resp _ h => absurd h (hw resp), fun l h => absurd h (hs l)⟩,
    fun _ _ _ resp _ _ h => absurd h (hw resp)⟩

theorem map_ok {α β : Type} {p : Handler α} {f : α → β} {db : Db} {b : β}
    (h : (Prog.exec (do return f (← p)) db).1 = .ok b) : ∃ a, (Prog.exec p db).1 = .ok a ∧ b = f a := by
  rw [Prog.exec_bind] at h
  rcases hp : Prog.exec p db with ⟨e | a, db'⟩
  · rw [hp] at h
    cases h
  · rw [hp] at h
    exact ⟨a, rfl, (Except.ok.inj h).symm⟩

theorem post_reply {now : Now} {e : Endpoint} {signed : Signed} {db : Db} {reply : Reply}
    (h : (Prog.exec (route now (.post e signed)) db).1 = .ok reply) :
    (∃ r, reply = .enroll r) ∨ ∃ r, reply = .push r := by
  unfold route at h
  dsimp only at h
  cases e with
  | enroll =>
    obtain ⟨r, -, rfl⟩ := map_ok h
    exact Or.inl ⟨r, rfl⟩
  | _ =>
    obtain ⟨r, -, rfl⟩ := map_ok h
    exact Or.inr ⟨r, rfl⟩

theorem answer_truthful {joined : Wire → EdKey → Prop} {db : Db} {now : Now} {ts : Int64} {call : Call} (hcur : Current db)
    (hjoin : ∀ vault key, joined vault key → Joins db vault key) (hsend : ∀ req, call.what ≠ .recover req) :
    Truthful joined call (some (Prog.exec (route now (call.what.request ts)) db).1) := by
  obtain ⟨note, what⟩ := call
  generalize hres : (Prog.exec (route now (what.request ts)) db).1 = res
  cases res with
  | error e => exact .other (by simp) (by simp) (by simp)
  | ok reply =>
    cases what with
    | post v k r => rcases post_reply hres with ⟨r, rfl⟩ | ⟨r, rfl⟩ <;> exact .other (by simp) (by simp) (by simp)
    | query action v k =>
      cases action with
      | devices =>
        obtain ⟨l, hl, rfl⟩ := map_ok hres
        refine ⟨fun l' h o ho => ?_, ⟨fun _ _ h => (nomatch h), fun _ h => (nomatch h)⟩, fun _ _ _ _ _ _ h => (nomatch h)⟩
        cases h
        obtain ⟨row, -, -, rfl⟩ := devices_ok hl o ho
        exact ⟨_, rfl⟩
      | shares =>
        obtain ⟨l, hl, rfl⟩ := map_ok hres
        refine ⟨fun _ h => (nomatch h), ⟨fun _ _ h => (nomatch h), fun l' h m hm b hb => ?_⟩, fun _ _ _ _ _ _ h => (nomatch h)⟩
        cases h
        obtain ⟨key, hkey, hcan, hrows⟩ := shares_ok hl
        obtain ⟨row, hrow, hv, hpub, rfl⟩ := hrows m hm
        obtain rfl := Option.some.inj hb
        -- A device that is shut out gets no answer.
        have hopen : ¬ Shut db row.vaultId row.ed25519Pub := by
          rw [hv, hpub]
          intro hshut
          rw [hshut.not_canSync] at hcan
          cases hcan
        have hholds := hcur.members row hrow hopen
        rw [hv] at hholds
        exact hholds
      | wrapped =>
        obtain ⟨resp, hresp, rfl⟩ := map_ok hres
        obtain ⟨key, row, hkey, hrow, hk, hrev, rfl⟩ := wrapped_ok hresp
        refine ⟨fun _ h => (nomatch h), ⟨fun resp t h happ ht b hb => ?_, fun _ h => (nomatch h)⟩,
          fun _ vault key' resp h hin h' happ => ?_⟩
        · cases h
          obtain ⟨wrapped, hw, rfl⟩ := Option.map_eq_some_iff.mp ht
          obtain rfl := Option.some.inj hb
          have hcan : row.canSync = true := by
            unfold DeviceRow.canSync
            rw [hrev, show row.approved = true from happ]
            rfl
          have hholds := hcur.devices row hrow hcan wrapped hw
          obtain ⟨hv, -⟩ := Prod.mk.inj hk
          rw [hv] at hholds
          exact hholds
        · cases h
          cases h'
          obtain rfl : k = key := Option.some.inj hkey
          have hsome := (hjoin _ _ hin).wrapped row hrow hk happ
          simpa using hsome
    | pull v k since =>
      obtain ⟨r, -, rfl⟩ := map_ok hres
      exact .other (by simp) (by simp) (by simp)
    | recover req => exact absurd rfl (hsend req)

theorem handled_same {db : Db} {now : Now} {ts : Int64} {what : Outgoing} (hpost : ∀ vault key r, what ≠ .post vault key r)
    (hnot : ∀ req, what ≠ .recover req) : (Prog.exec (route now (what.request ts)) db).2 = db := by
  cases what with
  | post vault key r => exact absurd rfl (hpost vault key r)
  | query action vault key =>
    cases action with
    | shares => exact after_map.trans (exec_shares _)
    | devices => exact after_map.trans (exec_devices _)
    | wrapped => exact after_map.trans (exec_wrapped _)
  | pull vault key since => exact after_map.trans (exec_pull _)
  | recover req => exact absurd rfl (hnot req)

theorem current_handled {db : Db} {d : Device} {now : Now} {ts : Int64} {what : Outgoing} (hcur : Current db) (hd : d.Filled)
    (hown : SendsOwn d what) (hmind : Mindful db d what) : Current (Prog.exec (route now (what.request ts)) db).2 := by
  cases what with
  | post vault key r => exact hcur.post r fun hcan => fresh_of_mindful hd hown hmind hcan
  | recover req => exact hown.elim
  | _ =>
    rw [handled_same (by simp) (by simp)]
    exact hcur

theorem joins_handled {db : Db} {now : Now} {ts : Int64} {what : Outgoing} {vault : Wire} {key : EdKey} (hjoin : Joins db vault key)
    (hnot : ∀ req, what ≠ .recover req) : Joins (Prog.exec (route now (what.request ts)) db).2 vault key := by
  cases what with
  | post v k r => exact hjoin.step _ _
  | recover req => exact absurd rfl (hnot req)
  | _ =>
    rw [handled_same (by simp) (by simp)]
    exact hjoin

/-! ## Runs -/

section

variable {ι : Type} [DecidableEq ι] (first : Bytes → List UInt8)

/-- Every device is idle and holds keys, and every stored wrap is current. -/
structure Starts (c : Fleet ι) : Prop where
  quiet : c.running = []
  idle : ∀ i, ∃ d, c.job i = ⟨.idle, d, []⟩ ∧ d.Filled
  current : Current c.shared

/-- The relay handles one request at a time, and every sender is mindful. -/
def Careful (c : Fleet ι) : Event ι Task Clocks → Prop
  | .send i _ => c.running = [] ∧ MindfulNext c.shared ((fleet first).left (c.job i))
  | _ => True

instance (c : Fleet ι) : (e : Event ι Task Clocks) → Decidable (Careful first c e)
  | .send _ _ => inferInstanceAs (Decidable (_ ∧ _))
  | .start .. | .step _ | .answer _ | .lose _ => .isTrue trivial

/-- What holds at every point of a careful run. -/
abbrev Kept (joined : Wire → EdKey → Prop) (c : Fleet ι) : Prop :=
  Sound (fleet first) (Truthful joined) Sends Device.Filled
    (fun db => Current db ∧ ∀ vault key, joined vault key → Joins db vault key) c

variable {first} {joined : Wire → EdKey → Prop} {c₀ c d : Fleet ι} {e : Event ι Task Clocks} {events : List (Event ι Task Clocks)}

omit [DecidableEq ι] in
theorem Starts.kept (h : Starts c) (hjoin : ∀ vault key, joined vault key → Joins c.shared vault key) :
    Kept first joined c := by
  refine ⟨fun i => ?_, fun i => ?_, fun i => ?_, Or.inl ⟨h.quiet, h.current, hjoin⟩⟩
  all_goals
    obtain ⟨d, hjob, hfill⟩ := h.idle i
    rw [hjob]
  · exact hfill
  · exact hfill
  · exact fun x hx => nomatch hx

theorem Kept.next (h : Kept first joined c) (hok : Careful first c e) (hnext : (fleet first).next c e = some d) :
    Kept first joined d := by
  have hserial : ∀ (c : Fleet ι) e, Careful first c e → Serial c e := by
    rintro c e h i clocks rfl
    exact h.1
  refine Sound.next (fun task d hd => ?_) (fun call => ?_) hserial ?_ h hok hnext
  · refine Session.Always.mono (Session.Always.antitone (task.does first hd) fun _ _ ha => Truthful.listed ha) ?_
    intro s r hr
    cases r <;> exact hr
  · exact .other (by simp) (by simp) (by simp)
  · rintro c i clocks d call k ⟨-, hmind⟩ hleft ⟨hd, hown⟩ ⟨hcur, hjoin⟩
    have hnot : ∀ req, call.what ≠ .recover req := by
      intro req hreq
      rw [hreq] at hown
      exact hown
    refine ⟨⟨?_, fun vault key hin => ?_⟩, answer_truthful hcur hjoin hnot⟩
    · rw [hleft] at hmind
      exact current_handled hcur hd hown hmind
    · exact joins_handled (hjoin vault key hin) hnot

theorem Runs.kept (hstart : Starts c₀) (hrun : (fleet first).Runs (Careful first) c₀ events c) :
    Kept first (Joins c₀.shared) c :=
  hrun.keeps (fun _ _ _ hok hnext h => Kept.next h hok hnext) (hstart.kept fun _ _ h => h)

/-- The task of a device is a round, and it has ended well. -/
def Synced (first : Bytes → List UInt8) (j : Job Task Device Response) (d : Device) : Prop :=
  j.task = .sync ∧ (fleet first).left j = .done d (.ok ())

theorem Synced.ran {j : Job Task Device Response} {d : Device} (h : Synced first j d) :
    ∃ out, Client.Ran Sync.syncOnce j.began ((fleet first).talk j) d out := by
  obtain ⟨task, began, answers⟩ := j
  obtain ⟨rfl, hleft⟩ := h
  have hran : Client.Ran (Task.prog first .sync) began ((fleet first).talk ⟨.sync, began, answers⟩) d () :=
    ⟨answers, hleft, rfl⟩
  obtain ⟨t₁, t₂, d₁, out, hsync, hpure, htalk⟩ := hran.bind
  obtain ⟨rfl, rfl, -⟩ := hpure.pure
  rw [htalk, List.append_nil]
  exact ⟨out, hsync⟩

omit [DecidableEq ι] in
theorem Kept.healed (h : Kept first joined c) {i : ι} {d : Device} (hsync : Synced first (c.job i) d) :
    Sync.Healed ((fleet first).talk (c.job i)) d := by
  obtain ⟨out, hran⟩ := hsync.ran
  exact Sync.syncOnce_heals hran (h.began i) fun x hx => (h.heard i x hx).reaching

/-- **Self-heal.** After a careful run no stored list is older than the epoch beside it, and a device whose
round has ended well holds a key for every epoch that it was told: of the default share, if it was let in by
a wrap and is approved, and of every named share it has a membership row for. -/
theorem synced_holds_epochs {c₀ c : Fleet ι} {events : List (Event ι Task Clocks)} (hstart : Starts c₀)
    (hrun : (fleet first).Runs (Careful first) c₀ events c) :
    (c.running = [] → Current c.shared) ∧ ∀ i d, Synced first (c.job i) d →
      (∀ note vault key resp, Joins c₀.shared vault key →
        (⟨note, .query .wrapped vault key⟩, some (.ok (.wrapped resp))) ∈ (fleet first).talk (c.job i) →
        resp.approved = true → resp.epoch + 1 ≤ (d.vault.keyring.keysOf nil).length) ∧
      ∀ call l, (call, some (.ok (.shares l))) ∈ (fleet first).talk (c.job i) →
        ∀ m ∈ l, ∀ share, m.shareId.decode16 = some share → share ≠ nil →
          m.epoch + 1 ≤ (d.vault.keyring.keysOf share).length := by
  have hkept := Runs.kept hstart hrun
  refine ⟨fun hquiet => (hkept.settles.quiet hquiet).1, fun i d hsync => ?_⟩
  have hhealed := hkept.healed hsync
  refine ⟨fun note vault key resp hjoin hmem happ => ?_, hhealed.shares⟩
  have hsome := (hkept.heard i _ hmem).wraps note vault key resp rfl hjoin rfl happ
  obtain ⟨t, ht⟩ := Option.ne_none_iff_exists'.mp hsome
  exact hhealed.default _ resp t hmem happ ht

end

/-! ### A visit -/

/-- Codes by the number of a device. -/
def byNumber : Bytes → List UInt8
  | .ed (.device n) => [n.toUInt8, 0, 0, 0]
  | _ => []

namespace Visit

def vault : Wire := .b64 (.uuid 7)

def newDevice (n : Nat) (key : Key) : Device :=
  let (disk, v) := Vault.createWithKeys "device" 7 key (.ed (.recovery 0)) n (.device n) 0
  ⟨disk, v⟩

def rotated : KeyBytes := ⟨[.vault 0 0, .vault 0 1], 0⟩

/-- A vault at epoch 1, with one approved device. -/
def db : Db :=
  { vaults := [⟨vault, .ed (.recovery 0), 1⟩]
    devices := [⟨vault, .ed (.device 1), .x 1, .plain "device", true, false,
      some (Crypto.wrapVaultKey rotated (.x 1) (.ed (.device 1)))⟩] }

/-- Device 1 is the approved one; the others have made a provisional vault. -/
def before (approver : Device) : Fleet Nat where
  shared := db
  job i := ⟨.idle, if i = 1 then approver else newDevice i (.random nil 0 i), []⟩

def exchange {ι : Type} (i : ι) (steps : Nat) : List (Event ι Task Clocks) :=
  .send i ⟨0, 0⟩ :: List.replicate steps (.step 0) ++ [.answer 0]

/-- Device 2 enrolls, device 1 approves it, device 2 gets its keys and syncs. -/
def events : List (Event Nat Task Clocks) :=
  .start 2 (.join "relay" 1) :: exchange 2 4 ++
    .start 1 (.approve (shortCode byNumber (.b64 (.ed (.device 2))))) :: exchange 1 2 ++ exchange 1 3 ++ exchange 2 2 ++
    .start 2 .sync :: exchange 2 2 ++ exchange 2 2 ++ exchange 2 2 ++ exchange 2 3

theorem newDevice_filled (n : Nat) (key : Key) : (newDevice n key).Filled := by
  refine ⟨fun id s hs => ?_, rfl⟩
  have hmem : s ∈ [(⟨nil, [key]⟩ : ShareKeys)] := List.mem_of_find?_eq_some hs
  obtain rfl := List.mem_singleton.mp hmem
  exact List.cons_ne_nil _ _

theorem before_starts {approver : Device} (h : approver.Filled) : Starts (before approver) := by
  refine ⟨rfl, fun i => ⟨_, rfl, ?_⟩, ?_⟩
  · split
    · exact h
    · exact newDevice_filled i _
  · refine ⟨List.nodup_singleton _, List.nodup_nil, fun r hr _ b hb => ?_, fun m hm => nomatch hm⟩
    obtain rfl := List.mem_singleton.mp hr
    obtain rfl := Option.some.inj hb
    exact show 1 + 1 ≤ 2 from le_rfl

theorem before_joins (approver : Device) : Joins (before approver).shared vault (.device 2) := by
  refine ⟨⟨_, List.mem_singleton.mpr rfl, rfl⟩, fun r hr hk => ?_⟩
  obtain rfl := List.mem_singleton.mp hr
  cases hk

/-- Device 2 has synced, was told epoch 1, and holds this many keys. -/
def Told (keys : Nat) (c : Fleet Nat) : Bool :=
  match (c.job 2).task, (fleet byNumber).left (c.job 2), (fleet byNumber).talk (c.job 2) with
  | .sync, .done d (.ok ()), (⟨.plain, .query .wrapped (.b64 (.uuid 7)) (.device 2)⟩, some (.ok (.wrapped resp))) :: _ =>
    resp.approved = true ∧ resp.epoch = 1 ∧ (d.vault.keyring.keysOf nil).length = keys
  | _, _, _ => false

theorem Told.synced {keys : Nat} {c : Fleet Nat} (h : Told keys c = true) :
    ∃ d resp, Synced byNumber (c.job 2) d ∧
      (⟨.plain, .query .wrapped vault (.device 2)⟩, some (.ok (.wrapped resp))) ∈ (fleet byNumber).talk (c.job 2) ∧
      resp.approved = true ∧ resp.epoch = 1 ∧ (d.vault.keyring.keysOf nil).length = keys := by
  unfold Told at h
  split at h
  · rename_i d resp _ htask hleft htalk
    obtain ⟨happ, hepoch, hlen⟩ := decide_eq_true_eq.mp h
    refine ⟨d, resp, ⟨htask, hleft⟩, ?_, happ, hepoch, hlen⟩
    rw [htalk]
    exact List.mem_cons_self
  · cases h

end Visit

open Visit

theorem synced_holds_epochs_visit :
    ∃ c d resp, (fleet byNumber).Runs (Careful byNumber)
        (before ((newDevice 1 (.vault 0 0)).perform (·.absorbShareKey nil rotated))) events c ∧
      Synced byNumber (c.job 2) d ∧
      (⟨.plain, .query .wrapped vault (.device 2)⟩, some (.ok (.wrapped resp))) ∈ (fleet byNumber).talk (c.job 2) ∧
      resp.epoch + 1 ≤ (d.vault.keyring.keysOf nil).length := by
  have hrun : ((fleet byNumber).run (Careful byNumber)
      (before ((newDevice 1 (.vault 0 0)).perform (·.absorbShareKey nil rotated))) events).any (Told 2) = true := by
    decide +kernel
  obtain ⟨c, hc, htold⟩ := (Option.any_eq_true _ _).mp hrun
  obtain ⟨d, resp, hsync, hmem, happ, -, -⟩ := Told.synced htold
  have hfill := (newDevice_filled 1 (.vault 0 0)).absorb nil rotated
  have hall := (synced_holds_epochs (before_starts hfill) (runs_of_run hc)).2 2 d hsync
  exact ⟨c, d, resp, runs_of_run hc, hsync, hmem, hall.1 .plain vault (.device 2) resp (before_joins _) hmem happ⟩

/-- Device 1 was offline when the vault was rotated, and approves device 2 with the keys it has. -/
theorem stale_approver_leaves_short :
    Starts (before (newDevice 1 (.vault 0 0))) ∧ Joins (before (newDevice 1 (.vault 0 0))).shared vault (.device 2) ∧
    ∃ c d resp, (fleet byNumber).Runs Serial (before (newDevice 1 (.vault 0 0))) events c ∧
      Synced byNumber (c.job 2) d ∧
      (⟨.plain, .query .wrapped vault (.device 2)⟩, some (.ok (.wrapped resp))) ∈ (fleet byNumber).talk (c.job 2) ∧
      resp.approved = true ∧ ¬ resp.epoch + 1 ≤ (d.vault.keyring.keysOf nil).length := by
  have hrun : ((fleet byNumber).run Serial (before (newDevice 1 (.vault 0 0))) events).any (Told 1) = true := by
    decide +kernel
  obtain ⟨c, hc, htold⟩ := (Option.any_eq_true _ _).mp hrun
  obtain ⟨d, resp, hsync, hmem, happ, hepoch, hlen⟩ := Told.synced htold
  refine ⟨before_starts (newDevice_filled 1 _), before_joins _, c, d, resp, runs_of_run hc, hsync, hmem, happ, ?_⟩
  rw [hepoch, hlen]
  decide

end SshVault
