import SshVault.Client.Agreement
import SshVault.Lib.Origin
import SshVault.Relay.Statements

/-!
# Whom the keys of a share are wrapped for

A grant is wrapped for the devices that its command names. The rotation of `share_remove` is wrapped for all
approved devices, members or not, and leaves it to the relay to store only the wraps of members.
-/

open Lib

namespace SshVault

open Relay (ClientReq)

/-! ## Addressees -/

/-- Some list that was answered shows this device under the code, and no other. -/
def Found (first : Bytes → List UInt8) (shown : List DeviceInfo → Prop) (code : String) (pub : Wire) : Prop :=
  ∃ l, shown l ∧ (∃ o ∈ l, o.ed25519Pub = pub) ∧
    ∀ o ∈ l, shortCode first o.ed25519Pub = code.toLower ↔ o.ed25519Pub = pub

/-- The task grants the share to devices. -/
def Task.Grants (share : Uuid) : Task → Prop
  | .createShare _ _ draw => share = draw.share
  | .shareAdd share' _ => share = share'
  | _ => False

/-- The task names this device for the share: by a code, or as the creator of the share. -/
def Task.Names (first : Bytes → List UInt8) (shown : List DeviceInfo → Prop) (own : Wire) (share : Uuid) (pub : Wire) :
    Task → Prop
  | .createShare _ codes draw => share = draw.share ∧ ∃ code ∈ codes ++ [shortCode first own], Found first shown code pub
  | .shareAdd share' codes => share = share' ∧ ∃ code ∈ codes, Found first shown code pub
  | _ => False

/-- The task removes the device `target` from the share. -/
def Task.Removes (first : Bytes → List UInt8) (shown : List DeviceInfo → Prop) (share : Uuid) (target : Wire) : Task → Prop
  | .shareRemove share' code _ => share = share' ∧ Found first shown code target
  | _ => False

/-- Some list that was answered shows an approved device other than `target`, by whose code this one is found. -/
def Remains (first : Bytes → List UInt8) (shown : List DeviceInfo → Prop) (target pub : Wire) : Prop :=
  ∃ l, shown l ∧ ∃ o ∈ l, o.approved = true ∧ o.revoked = false ∧ o.ed25519Pub ≠ target ∧
    Found first shown (shortCode first o.ed25519Pub) pub

/-- Grants and rotations of a share come from its commands, and their wraps are for these devices. -/
def Directed (first : Bytes → List UInt8) (shown : List DeviceInfo → Prop) (own : Wire) (task : Task) : Outgoing → Prop
  | .post _ _ (.shareGrant shareId _ wrapped) =>
    ∃ share, shareId = Devices.shareText share ∧ task.Grants share ∧
      ∀ w ∈ wrapped, task.Names first shown own share w.devicePub
  | .post _ _ (.shareRotate shareId _ wrapped remove) =>
    ∃ share target, shareId = Devices.shareText share ∧ remove = [target] ∧ task.Removes first shown share target ∧
      ∀ w ∈ wrapped, Remains first shown target w.devicePub
  | _ => True

/-- The answer shows such lists only. -/
def Hears (shown : List DeviceInfo → Prop) (_ : Call) (a : Answer) : Prop := ∀ l, a = some (.ok (.devices l)) → shown l

/-- An operation whose requests are directed. -/
abbrev Directs {α : Type} (first : Bytes → List UInt8) (shown : List DeviceInfo → Prop) (own : Wire) (task : Task)
    (Q : Device → α → Prop) (m : Op α) (d : Device) : Prop :=
  Client.Does (Hears shown) (fun _ call => Directed first shown own task call.what) Q (fun _ => True) m d

variable {first : Bytes → List UInt8} {shown : List DeviceInfo → Prop} {own : Wire} {task : Task} {d : Device}

namespace Devices

open Sync Client

/-! ## Requests and answers -/

theorem post_directs {note : Note} {r : ClientReq} {Q : Device → Reply → Prop}
    (hr : Directed first shown own task (.post d.vaultId d.key r)) (hQ : ∀ reply, Q d reply) :
    Directs first shown own task Q (post note r) d :=
  Does.bind (Does.ask hr fun _ _ => Does.lift (fun reply _ => hQ reply) trivial)

theorem pushed_directs {α : Type} {note : Note} {r : ClientReq} {Q : Device → α → Prop} {f : PushResp → Op α}
    (hr : Directed first shown own task (.post d.vaultId d.key r)) (hQ : ∀ resp, Directs first shown own task Q (f resp) d) :
    Directs first shown own task Q (do let resp ← asPush (← post note r); f resp) d :=
  Does.bind (post_directs hr fun _ => Does.bind (Does.lift (fun resp _ => hQ resp) trivial))

theorem signedGet_directs {note : Note} {action : Action} {Q : Device → Reply → Prop}
    (hQ : ∀ reply, Hears shown ⟨note, .query action d.vaultId d.key⟩ (some (.ok reply)) → Q d reply) :
    Directs first shown own task Q (signedGet note action) d := by
  refine Does.bind (Does.ask trivial fun a ha => Does.lift (fun reply hreply => ?_) trivial)
  obtain rfl := parse_ok hreply
  exact hQ reply ha

theorem listDevices_directs {note : Note} {Q : Device → List DeviceInfo → Prop} (hQ : ∀ l, shown l → Q d l) :
    Directs first shown own task Q (listDevices note) d := by
  refine Does.bind (signedGet_directs fun reply hreply => Does.lift (fun l hl => ?_) trivial)
  cases reply <;> cases hl
  exact hQ l (hreply l rfl)

theorem theDevice_only {code : String} {l : List DeviceInfo} {o : DeviceInfo} (h : theDevice first code l = .ok o) :
    ∀ o' ∈ l, shortCode first o'.ed25519Pub = code.toLower ↔ o'.ed25519Pub = o.ed25519Pub := by
  unfold theDevice at h
  split at h
  · cases h
  · rename_i only hfilter
    obtain rfl := Except.ok.inj h
    have hin : ∀ o', o' ∈ l.filter (fun o' => shortCode first o'.ed25519Pub = code.toLower) ↔ o' = only := by
      intro o'
      rw [hfilter, List.mem_singleton]
    simp only [List.mem_filter, decide_eq_true_eq] at hin
    intro o' ho'
    constructor
    · intro hcode
      rw [(hin o').mp ⟨ho', hcode⟩]
    · intro heq
      rw [heq]
      exact ((hin only).mpr rfl).2
  · cases h

theorem findByCode_directs {code : String} {Q : Device → DeviceInfo → Prop}
    (hQ : ∀ o, Found first shown code o.ed25519Pub → Q d o) : Directs first shown own task Q (findByCode first code) d := by
  refine Does.bind (listDevices_directs fun l hl => Does.lift (fun o ho => ?_) trivial)
  exact hQ o ⟨l, hl, ⟨o, theDevice_mem ho, rfl⟩, theDevice_only ho⟩

theorem wrapFor_devicePub {list : KeyBytes} {o : DeviceInfo} {w : WrappedFor} (h : wrapFor list o = .ok w) :
    w.devicePub = o.ed25519Pub := by
  rcases wrapFor_spec list o with ⟨x, ed, -, -, hw⟩ | ⟨-, e, he⟩
  · obtain rfl := Except.ok.inj (hw.symm.trans h)
    rfl
  · cases he.symm.trans h

theorem onVault_directs {α : Type} {op : Vault → Prog Disk (Except VaultError α × Vault)} {Q : Device → α → Prop}
    (hQ : ∀ a, Q (d.perform op) a) : Directs first shown own task Q (onVault op) d :=
  Does.onState (fun a _ => hQ a) fun _ _ => trivial

theorem updateVault_directs {op : Vault → Prog Disk Vault} {Q : Device → Unit → Prop} (hQ : Q (d.update op) ()) :
    Directs first shown own task Q (updateVault op) d :=
  Does.onState (fun _ _ => hQ) fun _ _ => trivial

/-! ## Commands of a share -/

theorem wrapForCodes_directs {list : KeyBytes} {Q : Device → List WrappedFor → Prop} (codes : List String)
    (hQ : ∀ ws, (∀ w ∈ ws, ∃ code ∈ codes, Found first shown code w.devicePub) → Q d ws) :
    Directs first shown own task Q (wrapForCodes first list codes) d := by
  induction codes generalizing Q with
  | nil => exact Does.pure (hQ [] fun _ h => nomatch h)
  | cons code codes ih =>
    refine Does.bind (findByCode_directs fun o ho => Does.bind (Does.lift (fun w hw => ?_) trivial))
    refine Does.bind (ih fun ws hws => Does.pure (hQ _ (List.forall_mem_cons.mpr ⟨?_, fun w' hw' => ?_⟩)))
    · rw [wrapFor_devicePub hw]
      exact ⟨code, List.mem_cons_self, ho⟩
    · obtain ⟨code', hcode', hfound⟩ := hws w' hw'
      exact ⟨code', List.mem_cons_of_mem _ hcode', hfound⟩

theorem createShare_directs (name : String) (codes : List String) (draw : ShareDraw) :
    Directs first shown (.b64 (.ed d.vault.metadata.ed25519Pub)) (.createShare name codes draw) (fun _ _ => True)
      (createShare first name codes draw) d := by
  refine Does.bind (Does.get ?_)
  by_cases hdup : (resolveShare d.vault draw.ord name).isSome = true
  · rw [if_pos hdup]
    exact Does.bind (Does.fail trivial)
  rw [if_neg hdup]
  refine Does.bind (updateVault_directs (Does.bind (onVault_directs fun _ => Does.bind (Does.get ?_))))
  -- The device is still who it was.
  generalize hd' : ((d.update (·.createShare draw.share draw.n)).perform fun v => v.addIn draw.ord .shareName "name" name
    (shareNamePayload name draw.share) nil draw.recordId draw.entryId draw.now) = d'
  have hself : d'.self = d.self := by
    rw [← hd']
    exact (Device.addIn_kept _ _ _ _ _ _ _ _ _ _).1.trans (d.update_createShare draw.share draw.n).1
  have hown : d'.vault.metadata.ed25519Pub = d.vault.metadata.ed25519Pub := congrArg Identity.ed25519Pub hself
  refine Does.bind (wrapForCodes_directs codes fun ws hws => ?_)
  refine Does.bind (wrapForCodes_directs [_] fun mine hmine => ?_)
  refine pushed_directs ⟨draw.share, rfl, rfl, fun w hw => ⟨rfl, ?_⟩⟩ fun _ => Does.pure trivial
  rcases List.mem_append.mp hw with hw | hw
  · obtain ⟨code, hcode, hfound⟩ := hws w hw
    exact ⟨code, List.mem_append_left _ hcode, hfound⟩
  · obtain ⟨code, hcode, hfound⟩ := hmine w hw
    rw [hown] at hcode
    exact ⟨code, List.mem_append_right _ hcode, hfound⟩

theorem shareAdd_directs (share : Uuid) (codes : List String) :
    Directs first shown own (.shareAdd share codes) (fun _ _ => True) (shareAdd first share codes) d := by
  refine Does.bind (Does.get ?_)
  split
  · exact Does.bind (Does.fail trivial)
  · refine Does.bind (wrapForCodes_directs codes fun ws hws => ?_)
    exact pushed_directs ⟨share, rfl, rfl, fun w hw => ⟨rfl, hws w hw⟩⟩ fun _ => Does.pure trivial

theorem rewrapMembers_directs {list : KeyBytes} {target : Wire} {Q : Device → List WrappedFor → Prop} (members : List Wire)
    (hQ : ∀ ws, (∀ w ∈ ws, ∃ pub ∈ members, pub ≠ target ∧ Found first shown (shortCode first pub) w.devicePub) → Q d ws) :
    Directs first shown own task Q (rewrapMembers first list target members) d := by
  induction members generalizing Q with
  | nil => exact Does.pure (hQ [] fun _ h => nomatch h)
  | cons pub rest ih =>
    have hlater : ∀ ws : List WrappedFor, (∀ w ∈ ws, ∃ pub ∈ rest, pub ≠ target ∧ Found first shown (shortCode first pub) w.devicePub) →
        ∀ w ∈ ws, ∃ pub' ∈ pub :: rest, pub' ≠ target ∧ Found first shown (shortCode first pub') w.devicePub := by
      intro ws hws w hw
      obtain ⟨pub', hpub', hfound⟩ := hws w hw
      exact ⟨pub', List.mem_cons_of_mem _ hpub', hfound⟩
    unfold rewrapMembers
    split
    · exact ih fun ws hws => hQ ws (hlater ws hws)
    · rename_i hne
      refine Does.bind (wrapForCodes_directs _ fun ws hws => Does.bind (ih fun more hmore => Does.pure (hQ _ ?_)))
      refine List.forall_mem_append.mpr ⟨fun w hw => ?_, hlater more hmore⟩
      obtain ⟨code, hcode, hfound⟩ := hws w hw
      rw [List.mem_singleton.mp hcode] at hfound
      exact ⟨pub, List.mem_cons_self, hne, hfound⟩

theorem shareRemove_directs (share : Uuid) (code : String) (n : Nat) :
    Directs first shown own (.shareRemove share code n) (fun _ _ => True) (shareRemove first share code n) d := by
  refine Does.bind (Does.get ?_)
  split
  · exact Does.bind (Does.fail trivial)
  refine Does.bind (findByCode_directs fun o ho => Does.bind (onVault_directs fun epoch => Does.bind (Does.get ?_)))
  refine Does.bind (Does.bind (listDevices_directs fun l hl => Does.pure ?_))
  refine Does.bind (rewrapMembers_directs _ fun ws hws => ?_)
  refine pushed_directs ⟨share, o.ed25519Pub, rfl, rfl, ⟨rfl, ho⟩, fun w hw => ?_⟩ fun _ => Does.pure trivial
  obtain ⟨pub, hpub, hne, hfound⟩ := hws w hw
  obtain ⟨o', ho', rfl⟩ := List.mem_map.mp hpub
  obtain ⟨hin, hactive⟩ := List.mem_filter.mp ho'
  obtain ⟨happ, hrev⟩ := decide_eq_true_eq.mp hactive
  exact ⟨l, hl, o', hin, happ, Bool.not_eq_true _ ▸ hrev, hne, hfound⟩

/-! ## Other commands -/

theorem enroll_directs {Q : Device → Bool → Prop} (hQ : ∀ approved, Q d approved) :
    Directs first shown own task Q enroll d :=
  Does.bind (Does.get (Does.bind (post_directs trivial fun _ =>
    Does.bind (Does.lift (fun _ _ => Does.pure (hQ _)) trivial))))

theorem awaitKey_directs (polls : Nat) : Directs first shown own task (fun _ _ => True) (awaitKey polls) d := by
  induction polls with
  | zero => exact Does.fail trivial
  | succ polls ih =>
    refine Does.bind (signedGet_directs fun reply _ => Does.bind (Does.lift (fun resp _ => ?_) trivial))
    split
    · exact ih
    · exact Does.bind (Does.bind (Does.get (Does.lift (fun list _ => onVault_directs fun _ => trivial) trivial)))

theorem approve_directs (code : String) : Directs first shown own task (fun _ _ => True) (approve first code) d := by
  refine Does.bind (findByCode_directs fun o _ => Does.bind (Does.get (Does.bind (Does.lift (fun w _ => ?_) trivial))))
  exact pushed_directs trivial fun _ => Does.pure trivial

theorem revoke_directs (code : String) {Q : Device → Wire → Prop} (hQ : ∀ name, Q d name) :
    Directs first shown own task Q (revoke first code) d :=
  Does.bind (findByCode_directs fun _ _ => pushed_directs trivial fun _ => Does.pure (hQ _))

theorem revokeAndRotate_directs (code : String) (phrase : Phrase) :
    Directs first shown own task (fun _ _ => True) (revokeAndRotate first code phrase) d := by
  refine Does.bind (findByCode_directs fun o _ => Does.bind (revoke_directs code fun name => ?_))
  refine Does.bind (onVault_directs fun epoch => Does.bind (Does.get (Does.bind (listDevices_directs fun l _ => ?_))))
  exact Does.bind (Does.lift (fun ws _ => pushed_directs trivial fun _ => Does.pure trivial) trivial)

end Devices

namespace Sync

open Devices Client

theorem syncs_directed : Syncs (.does (Hears shown) (fun _ call => Directed first shown own task call.what)) fun _ _ => True where
  asks action := Judgement.Keeps.does.mpr fun _ _ => signedGet_directs fun _ _ => trivial
  absorbs share list := .onState fun _ _ h => h
  reads := .onState fun _ _ h => h
  pushes gained entries := Judgement.Keeps.does.mpr fun _ _ =>
    Does.bind (post_directs trivial fun _ => Does.lift (fun _ _ => trivial) trivial)
  rewinds := .onState fun _ _ h => h
  pulls := .bind (.ask fun _ _ _ => ⟨trivial, fun _ _ => trivial⟩) fun _ => .bind (.lift _) fun _ => .lift _
  applies id blob := .onState fun _ _ h => h
  moves head := .onState fun _ _ h => h

theorem syncOnce_directs : Directs first shown own task (fun _ _ => True) syncOnce d :=
  Judgement.Keeps.does.mp syncs_directed.syncOnce d trivial

end Sync

/-! ## Any task -/

theorem Task.directs (task : Task) (d : Device) :
    Directs first shown (.b64 (.ed d.vault.metadata.ed25519Pub)) task (fun _ _ => True) (task.prog first) d := by
  cases task with
  | idle => exact Client.Does.pure trivial
  | enroll => exact Client.Does.bind (Devices.enroll_directs fun _ => Client.Does.pure trivial)
  | join relay polls =>
    refine Client.Does.bind (Devices.updateVault_directs (Client.Does.bind (Devices.enroll_directs fun approved => ?_)))
    split
    · exact Client.Does.pure trivial
    · exact Devices.awaitKey_directs polls
  | approve code =>
    exact Client.Does.bind ((Devices.approve_directs code).imp (fun _ _ _ => Client.Does.pure trivial) fun _ h => h)
  | revokeAndRotate code phrase =>
    exact Client.Does.bind ((Devices.revokeAndRotate_directs code phrase).imp (fun _ _ _ => Client.Does.pure trivial) fun _ h => h)
  | createShare name codes draw =>
    exact Client.Does.bind ((Devices.createShare_directs name codes draw).imp (fun _ _ _ => Client.Does.pure trivial) fun _ h => h)
  | shareAdd share codes => exact Devices.shareAdd_directs share codes
  | shareRemove share code n =>
    exact Client.Does.bind ((Devices.shareRemove_directs share code n).imp (fun _ _ _ => Client.Does.pure trivial) fun _ h => h)
  | sync => exact Client.Does.bind (Sync.syncOnce_directs.imp (fun _ _ _ => Client.Does.pure trivial) fun _ h => h)

/-- The lists that a job has been answered with. -/
def shownTo (first : Bytes → List UInt8) (j : Job Task Device Response) (l : List DeviceInfo) : Prop :=
  ∃ call, (call, some (.ok (.devices l))) ∈ (fleet first).talk j

def ownPub (j : Job Task Device Response) : Wire := .b64 (.ed j.began.vault.metadata.ed25519Pub)

theorem next_directed {j : Job Task Device Response} {call : Call} {k : Answer → Session Device Call Answer _}
    (h : (fleet first).left j = .ask d call k) : Directed first (shownTo first j) (ownPub j) j.task call.what := by
  have hdirects : Directs first (shownTo first j) (ownPub j) j.task (fun _ _ => True) (j.task.prog first) j.began :=
    j.task.directs j.began
  have hheard : ∀ x ∈ (fleet first).talk j, Hears (shownTo first j) x.1 x.2 := by
    rintro ⟨call, a⟩ hx l rfl
    exact ⟨call, hx⟩
  have hall := Session.Always.feed hdirects hheard
  change (Service.left (fleet first) j).Always _ _ _ at hall
  rw [h] at hall
  exact hall.1

/-! ## Membership rows -/

namespace Relay

open Relay

/-- A membership row is new only after a grant to its device. -/
theorem Statement.newMember {now : Now} {req : Request} {past : List (Db × Db)} {s t : Db} {m : MemberRow}
    (h : Statement now req past s t) (hm : m ∈ t.shareMembers) (hnew : ∀ m' ∈ s.shareMembers, m'.key ≠ m.key) :
    ∃ signed r, req = .post .shareGrant signed ∧ Reads ShareGrantReq.ofJson signed.body r ∧
      r.shareId.decode16 = some m.shareId ∧ Addresses r.wrapped m.ed25519Pub := by
  cases h with
  | @upsertMember signed vault key r share c hreq hc hr hs hw =>
    rcases Table.mem_upsert hm with ⟨hold, -⟩ | ⟨rfl, -⟩ | ⟨m₀, hold, -, rfl⟩
    · exact absurd rfl (hnew m hold)
    · obtain ⟨w, hin, hdec⟩ := hw
      exact ⟨signed, r, hreq, hr, hs, w, hin, (decodeWrap_ok hdec).1⟩
    · exact absurd rfl (hnew m₀ hold)
  | deleteMember => exact absurd rfl (hnew m (List.mem_filter.mp hm).1)
  | rewrapMember =>
    rcases Table.mem_update hm with ⟨hold, -⟩ | ⟨m₀, hold, -, rfl⟩
    · exact absurd rfl (hnew m hold)
    · exact absurd rfl (hnew m₀ hold)
  | _ => exact absurd rfl (hnew m hm)

end Relay

section

open Relay Service

theorem grant_of_request {what : Outgoing} {ts : Int64} {signed : Signed} {r : ShareGrantReq}
    (h : what.request ts = .post .shareGrant signed) (hr : Reads ShareGrantReq.ofJson signed.body r) :
    ∃ vault key epoch, what = .post vault key (.shareGrant r.shareId epoch r.wrapped) := by
  obtain ⟨j, hj, hdec⟩ := hr
  cases what with
  | post vault key req =>
    obtain ⟨hend, rfl⟩ := Request.post.inj h
    obtain rfl := Body.json.inj hj
    have hread := decodeAt_toJson req .shareGrant
    rw [decodeAt, hdec] at hread
    cases req with
    | shareGrant shareId epoch wrapped =>
      obtain ⟨rfl, -, rfl⟩ := ClientReq.shareGrant.inj (Option.some.inj hread)
      exact ⟨vault, key, epoch, rfl⟩
    | _ => cases hend
  | query action vault key => cases action <;> cases h
  | pull vault key since => cases h
  | recover req => cases h

variable {ι : Type} [DecidableEq ι] (first)

/-- Before this, a command sent a grant that names the device of this row for its share. -/
def Named (c₀ : Fleet ι) (events : List (Event ι Task Clocks)) (m : MemberRow) : Prop :=
  ∃ before after c i clocks pub, events = before ++ .send i clocks :: after ∧
    (fleet first).Runs (fun _ _ => True) c₀ before c ∧
    (c.job i).task.Names first (shownTo first (c.job i)) (ownPub (c.job i)) m.shareId pub ∧
    pub.decode = some m.ed25519Pub

variable {first} {c₀ c c' : Fleet ι} {events : List (Event ι Task Clocks)} {e : Event ι Task Clocks}

/-- **Membership.** A row is new only after a command named its device. -/
theorem named_of_new (hquiet : c₀.running = []) (hrun : (fleet first).Runs (fun _ _ => True) c₀ events c)
    (hnext : (fleet first).next c e = some c') {m : MemberRow} (hm : m ∈ c'.shared.shareMembers)
    (hnew : ∀ m' ∈ c.shared.shareMembers, m'.key ≠ m.key) : Named first c₀ events m := by
  have hhandler : ∀ (clocks : Clocks) (call : Call), ((fleet first).handler clocks call).Traced
      (Statement clocks.now (call.what.request clocks.ts)) (fun _ _ => True) [] := fun clocks call => route_traced _ _
  rcases hrun.step_cases hhandler hquiet hnext with hsame | ⟨i, clocks, call, past, hsent, hstep⟩
  · rw [hsame] at hm
    exact absurd rfl (hnew m hm)
  · obtain ⟨signed, r, hreq, hr, hshare, w, hw, hpub⟩ := hstep.newMember hm hnew
    obtain ⟨vault, key, epoch, hwhat⟩ := grant_of_request hreq hr
    obtain ⟨before, after, c₁, d, k, rfl, hbefore, hleft⟩ := hsent
    have hdirected := next_directed hleft
    rw [hwhat] at hdirected
    obtain ⟨share, hid, -, hnames⟩ := hdirected
    rw [hid] at hshare
    obtain rfl : share = m.shareId := Option.some.inj hshare
    exact ⟨before, after, c₁, i, clocks, w.devicePub, rfl, hbefore, hnames w hw, hpub⟩

/-- All lists show the same devices. -/
def Steady (shown : List DeviceInfo → Prop) : Prop :=
  ∀ l l', shown l → shown l' → ∀ o ∈ l, ∃ o' ∈ l', o'.ed25519Pub = o.ed25519Pub

/-- Some list shows this device as approved, and not revoked. -/
def Active (shown : List DeviceInfo → Prop) (pub : Wire) : Prop :=
  ∃ l, shown l ∧ ∃ o ∈ l, o.approved = true ∧ o.revoked = false ∧ o.ed25519Pub = pub

omit [DecidableEq ι] in
theorem Remains.other {target pub : Wire} (h : Remains first shown target pub) (hsteady : Steady shown) :
    pub ≠ target ∧ Active shown pub := by
  obtain ⟨l, hl, o, ho, happ, hrev, hne, l', hl', -, honly⟩ := h
  obtain ⟨o', ho', hsame⟩ := hsteady l l' hl hl' o ho
  have hpub : o'.ed25519Pub = pub := (honly o' ho').mp (by rw [hsame, shortCode_toLower])
  rw [← hpub, hsame]
  exact ⟨hne, l, hl, o, ho, happ, hrev, rfl⟩

/-- **Addressees.** In every run: grants and rotations of a share come from its commands, a grant is wrapped for
the devices that its command names, and a rotation for approved devices other than the one that is removed. A
membership row, and so a wrap in it, is new only after a command named its device. -/
theorem share_wraps_directed (hquiet : c₀.running = []) (hrun : (fleet first).Runs (fun _ _ => True) c₀ events c) :
    (∀ i d call k, (fleet first).left (c.job i) = .ask d call k →
      Directed first (shownTo first (c.job i)) (ownPub (c.job i)) (c.job i).task call.what ∧
      (Steady (shownTo first (c.job i)) → ∀ vault key shareId epoch wrapped remove,
        call.what = .post vault key (.shareRotate shareId epoch wrapped remove) →
        ∀ w ∈ wrapped, w.devicePub ∉ remove ∧ Active (shownTo first (c.job i)) w.devicePub)) ∧
    ∀ e c', (fleet first).next c e = some c' → ∀ m ∈ c'.shared.shareMembers,
      (∃ m' ∈ c.shared.shareMembers, m'.key = m.key) ∨ Named first c₀ events m := by
  refine ⟨fun i d call k hleft => ⟨next_directed hleft, ?_⟩, fun e c' hnext m hm => ?_⟩
  · intro hsteady vault key shareId epoch wrapped remove hwhat w hw
    have hdirected := next_directed hleft
    rw [hwhat] at hdirected
    obtain ⟨share, target, -, rfl, -, hremains⟩ := hdirected
    obtain ⟨hne, hactive⟩ := (hremains w hw).other hsteady
    exact ⟨mt List.mem_singleton.mp hne, hactive⟩
  · by_cases hold : ∃ m' ∈ c.shared.shareMembers, m'.key = m.key
    · exact Or.inl hold
    · exact Or.inr (named_of_new hquiet hrun hnext hm fun m' hm' hk => hold ⟨m', hm', hk⟩)

/-! ### A removal that wraps for a stranger -/

/-- The wraps of a request for a share, and the share. -/
def Outgoing.shareWraps : Outgoing → List (Wire × WrappedFor)
  | .post _ _ (.shareGrant shareId _ wrapped) => wrapped.map (shareId, ·)
  | .post _ _ (.shareRotate shareId _ wrapped _) => wrapped.map (shareId, ·)
  | _ => []

/-- The command creates the share on the device `own`, or names this device for the share. -/
def Task.NamesMember (first : Bytes → List UInt8) (own : Wire) (share : Uuid) (pub : Wire) : Task → Prop
  | .createShare _ codes draw => share = draw.share ∧ (pub = own ∨ ∃ code ∈ codes, shortCode first pub = code.toLower)
  | .shareAdd share' codes => share = share' ∧ ∃ code ∈ codes, shortCode first pub = code.toLower
  | _ => False

/-- A command of the run has named this device for the share, and no later one removes it. -/
def MemberOf (first : Bytes → List UInt8) (c₀ : Fleet ι) (events : List (Event ι Task Clocks)) (share : Uuid)
    (pub : Wire) : Prop :=
  ∃ before after i task, events = before ++ .start i task :: after ∧
    task.NamesMember first (ownPub (c₀.job i)) share pub ∧
    ∀ j code n, .start j (.shareRemove share code n) ∈ after → shortCode first pub ≠ code.toLower

end

namespace Stranger

open Relay Service Visit

def pub (n : Nat) : Wire := .b64 (.ed (.device n))

def code (n : Nat) : String := shortCode byNumber (pub n)

/-- A vault with three approved devices, and no named share. -/
def before : Fleet Nat where
  shared :=
    { vaults := [⟨vault, .ed (.recovery 0), 0⟩]
      devices := [Race.deviceRow 0, Race.deviceRow 1, Race.deviceRow 2] }
  job i := ⟨.idle, newDevice i (.vault 0 0), []⟩

def draw : Devices.ShareDraw := ⟨⟨id, .refl⟩, 9, 0, 20, 30, 0⟩

/-- Device 0 creates a share with device 1, and removes it again. Device 2 is named by no command. -/
def events : List (Event Nat Task Clocks) :=
  .start 0 (.createShare "team" [code 1] draw) :: exchange 0 2 ++ exchange 0 2 ++ exchange 0 5 ++
    .start 0 (.shareRemove 9 (code 1) 1) :: exchange 0 2 ++ exchange 0 2 ++ exchange 0 2 ++ exchange 0 2

/-- Device 0 is about to send a wrap for device 2. -/
def wrapsForStranger (c : Fleet Nat) : Bool :=
  match (fleet byNumber).left (c.job 0) with
  | .ask _ call _ => call.what.shareWraps.any fun x => x.1 = Devices.shareText 9 ∧ x.2.devicePub = pub 2
  | .done .. => false

theorem runs_to_stranger : ∃ c, (fleet byNumber).Runs (fun _ _ => True) before events c ∧ wrapsForStranger c = true := by
  have hrun : ((fleet byNumber).run (fun _ _ => True) before events).any wrapsForStranger = true := by decide +kernel
  obtain ⟨c, hc, hwraps⟩ := (Option.any_eq_true _ _).mp hrun
  exact ⟨c, runs_of_run hc, hwraps⟩

theorem share_wraps_directed_run : ∃ c, (fleet byNumber).Runs (fun _ _ => True) before events c ∧
    (∀ i d call k, (fleet byNumber).left (c.job i) = .ask d call k →
      Directed byNumber (shownTo byNumber (c.job i)) (ownPub (c.job i)) (c.job i).task call.what ∧
      (Steady (shownTo byNumber (c.job i)) → ∀ vault key shareId epoch wrapped remove,
        call.what = .post vault key (.shareRotate shareId epoch wrapped remove) →
        ∀ w ∈ wrapped, w.devicePub ∉ remove ∧ Active (shownTo byNumber (c.job i)) w.devicePub)) ∧
    ∀ e c', (fleet byNumber).next c e = some c' → ∀ m ∈ c'.shared.shareMembers,
      (∃ m' ∈ c.shared.shareMembers, m'.key = m.key) ∨ Named byNumber before events m := by
  obtain ⟨c, hrun, -⟩ := runs_to_stranger
  exact ⟨c, hrun, share_wraps_directed rfl hrun⟩

theorem not_member : ¬ MemberOf byNumber before events 9 (pub 2) := by
  rintro ⟨front, after, i, task, hevents, hnames, -⟩
  have hmem : .start i task ∈ events := by
    rw [hevents]
    exact List.mem_append_right _ List.mem_cons_self
  have hstart : i = 0 ∧ task = .createShare "team" [code 1] draw ∨ i = 0 ∧ task = .shareRemove 9 (code 1) 1 := by
    simpa [events, exchange] using hmem
  rcases hstart with ⟨rfl, rfl⟩ | ⟨rfl, rfl⟩
  · obtain ⟨-, hown | ⟨code', hcode, hnamed⟩⟩ := hnames
    · exact absurd hown (by decide)
    · rw [List.mem_singleton.mp hcode] at hnamed
      exact absurd hnamed (by decide +kernel)
  · exact hnames

/-- `share_remove` wraps for a device that no command has named. -/
theorem stranger_gets_wrap : ¬ ∀ (c₀ : Fleet Nat) (events : List (Event Nat Task Clocks)) (c : Fleet Nat),
    c₀.running = [] → c₀.shared.shareMembers = [] → (fleet byNumber).Runs (fun _ _ => True) c₀ events c →
      ∀ i d call k, (fleet byNumber).left (c.job i) = .ask d call k → ∀ x ∈ call.what.shareWraps, ∀ share,
        x.1 = Devices.shareText share → MemberOf byNumber c₀ events share x.2.devicePub := by
  intro h
  obtain ⟨c, hrun, hwraps⟩ := runs_to_stranger
  unfold wrapsForStranger at hwraps
  split at hwraps
  · rename_i d call k hleft
    obtain ⟨x, hx, hstranger⟩ := List.any_eq_true.mp hwraps
    obtain ⟨hshare, hpub⟩ := of_decide_eq_true hstranger
    have hmember := h before events c rfl rfl hrun 0 d call k hleft x hx 9 hshare
    rw [hpub] at hmember
    exact not_member hmember
  · cases hwraps

end Stranger

end SshVault
