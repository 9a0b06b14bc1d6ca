import SshVault.Relay.Pull
import SshVault.Relay.Statements

/-!
# Admission

Any number of handlers at work on one database, each between any two of its statements. Whatever the order
of their statements, a device is let in by the enrollment that made its vault, by an approved device or by the
recovery key.
-/

open Lib Prog

namespace SshVault.Relay

section

variable {ι : Type}

/-- Every thread handles a request, at its time. -/
def Serving (now : ι → Now) (req : ι → Request) (c : Handlers ι) : Prop := ∀ i, c.thread i = (route (now i) (req i)).run

theorem Serving.traced {now : ι → Now} {req : ι → Request} {c : Handlers ι} (h : Serving now req c) (i : ι) :
    (c.thread i).Traced (Statement (now i) (req i)) (fun _ _ => True) [] := by
  rw [h i]
  exact route_traced (now i) (req i)

end

/-! ## One statement -/

/-- Between these two states the device became approved. -/
structure Admits (s t : Db) (vault : Wire) (pub : Bytes) : Prop where
  before : ∀ r ∈ s.devices, r.key = (vault, pub) → r.approved = false
  after : ∃ r ∈ t.devices, r.key = (vault, pub) ∧ r.approved = true

def Known (db : Db) (vault : Wire) : Prop := ∃ v ∈ db.vaults, v.vaultId = vault

/-- Between these two states the vault appeared. -/
structure Founds (s t : Db) (vault : Wire) : Prop where
  before : ¬ Known s vault
  after : Known t vault

/-- No device is both let in and shut out, and one that is shut out has no keys stored for it. -/
structure Sane (r : DeviceRow) : Prop where
  one : ¬ (r.approved = true ∧ r.revoked = true)
  cleared : r.revoked = true → r.wrappedKey = none

variable {now : Now} {req : Request} {past : List (Db × Db)} {s t : Db}

theorem Statement.known {vault : Wire} (h : Statement now req past s t) (hs : Known s vault) : Known t vault := by
  cases h with
  | insertVault h =>
    obtain ⟨v, hv, rfl⟩ := hs
    change ∃ v' ∈ Table.insertOrIgnore VaultRow.vaultId _ s.vaults, _
    unfold Table.insertOrIgnore
    split
    · exact ⟨v, hv, rfl⟩
    · exact ⟨v, List.mem_append_left _ hv, rfl⟩
  | bumpEpoch =>
    have hkey (n : Nat) (r : VaultRow) : VaultRow.vaultId { r with epoch := n } = r.vaultId := rfl
    exact Table.key_mem_update (hkey _) hs
  | _ => exact hs

theorem insertVault_founds {vault : Wire} {recovery : Bytes} {db : Db} (h : ((Db.insertVault vault recovery).run db).1 = true) :
    Founds db ((Db.insertVault vault recovery).run db).2 vault := by
  have hnew : ¬ Known db vault := by
    rintro ⟨v, hv, hid⟩
    have hany : db.vaults.any (·.vaultId = vault) = true := List.any_eq_true.mpr ⟨v, hv, by simpa using hid⟩
    change decide (¬ db.vaults.any (·.vaultId = vault) = true) = true at h
    exact of_decide_eq_true h hany
  refine ⟨hnew, ⟨vault, recovery, 0⟩, ?_, rfl⟩
  change _ ∈ Table.insertOrIgnore VaultRow.vaultId _ db.vaults
  unfold Table.insertOrIgnore
  split
  · rename_i hold
    exact absurd hold hnew
  · exact List.mem_append_right _ (List.mem_singleton.mpr rfl)

/-- Where the rows of devices come from. -/
inductive RowOrigin (now : Now) (req : Request) (past : List (Db × Db)) (s : Db) : DeviceRow → Prop
  | kept {r : DeviceRow} (hr : r ∈ s.devices) : RowOrigin now req past s r
  | enrolled {vault : Wire} {key : EdKey} {recovery x : Bytes} {name : Wire} {before : Db} {approved : Bool}
      (h : Enrolls now req vault key recovery x name)
      (hpast : past.head? = some (before, ((Db.insertVault vault recovery).run before).2))
      (happ : approved = ((Db.insertVault vault recovery).run before).1)
      (hnew : ∀ r ∈ s.devices, r.key ≠ (vault, .ed key)) :
    RowOrigin now req past s ⟨vault, .ed key, x, name, approved, false, none⟩
  | renamed {r : DeviceRow} {x : Bytes} {name : Wire} (hr : r ∈ s.devices) :
    RowOrigin now req past s { r with name, x25519Pub := x }
  | approved {signed : Signed} {vault : Wire} {key : EdKey} {a : ApproveReq} {r : DeviceRow} {wrapped : Bytes}
      (hreq : req = .post .approve signed) (hc : Checked now past signed vault key) (ha : Reads ApproveReq.ofJson signed.body a)
      (ht : a.targetPub.decode = some r.ed25519Pub) (hr : r ∈ s.devices) (hv : r.vaultId = vault) (hrev : r.revoked = false) :
    RowOrigin now req past s { r with approved := true, wrappedKey := some wrapped }
  | revoked {r : DeviceRow} (hr : r ∈ s.devices) :
    RowOrigin now req past s { r with revoked := true, approved := false, wrappedKey := none }
  | rewrapped {r : DeviceRow} {wrapped : Bytes} (hr : r ∈ s.devices) (hrev : r.revoked = false) :
    RowOrigin now req past s { r with wrappedKey := some wrapped }
  | recovered {r : RecoverReq} {recovery ed : EdKey} {before : Db} {row : DeviceRow}
      (hreq : req = .recover r) (hrec : r.recoveryPub.decodeEd = some recovery)
      (hsig : r.sig.signature = some ⟨recovery, .deviceKey ed⟩) (hpub : row.ed25519Pub = .ed ed)
      (hpast : past.head? = some (before, before)) (hvault : before.vaultByRecovery (.ed recovery) = some row.vaultId)
      (hrev : row.revoked = false) : RowOrigin now req past s row

theorem Statement.devices (h : Statement now req past s t) {r : DeviceRow} (hr : r ∈ t.devices) :
    RowOrigin now req past s r := by
  cases h with
  | enrollDevice h hpast =>
    rcases Table.mem_upsert hr with ⟨hr, -⟩ | ⟨rfl, hnew⟩ | ⟨r₀, hr₀, -, rfl⟩
    · exact .kept hr
    · exact .enrolled h hpast rfl hnew
    · exact .renamed hr₀
  | approveDevice hreq hc ha ht hw =>
    rcases Table.mem_update hr with ⟨hr, -⟩ | ⟨r₀, hr₀, hp, rfl⟩
    · exact .kept hr
    · obtain ⟨hk, hrev⟩ := decide_eq_true_eq.mp hp
      obtain ⟨hv, rfl⟩ := Prod.mk.inj hk
      exact .approved hreq hc ha ht hr₀ hv hrev
  | revokeDevice =>
    rcases Table.mem_update hr with ⟨hr, -⟩ | ⟨r₀, hr₀, -, rfl⟩
    · exact .kept hr
    · exact .revoked hr₀
  | rewrapDevice =>
    rcases Table.mem_update hr with ⟨hr, -⟩ | ⟨r₀, hr₀, hp, rfl⟩
    · exact .kept hr
    · exact .rewrapped hr₀ (decide_eq_true_eq.mp hp).2
  | recoverDevice hreq hrec hed hsig hpast hvault hx =>
    rcases Table.mem_upsert hr with ⟨hr, -⟩ | ⟨rfl, -⟩ | ⟨r₀, hr₀, hk, rfl⟩
    · exact .kept hr
    · exact .recovered hreq hrec hsig rfl hpast hvault rfl
    · obtain ⟨rfl, hpub⟩ := Prod.mk.inj hk
      exact .recovered hreq hrec hsig hpub hpast hvault rfl
  | _ => exact .kept hr

theorem Statement.sane (h : Statement now req past s t) (hs : ∀ r ∈ s.devices, Sane r) : ∀ r ∈ t.devices, Sane r := by
  intro r hr
  cases h.devices hr with
  | kept hr => exact hs r hr
  | enrolled => exact ⟨fun h => (nomatch h.2), fun h => (nomatch h)⟩
  | renamed hr₀ => exact ⟨(hs _ hr₀).one, (hs _ hr₀).cleared⟩
  | approved _ _ _ _ _ _ hrev => exact ⟨fun h => Bool.false_ne_true (hrev.symm.trans h.2), fun h => by simp [hrev] at h⟩
  | revoked => exact ⟨fun h => (nomatch h.1), fun _ => rfl⟩
  | rewrapped hr hrev => exact ⟨fun h => Bool.false_ne_true (hrev.symm.trans h.2), fun h => by simp [hrev] at h⟩
  | recovered _ _ _ _ _ _ hrev => exact ⟨fun h => Bool.false_ne_true (hrev.symm.trans h.2), fun h => by simp [hrev] at h⟩

/-! ## Why a device was let in -/

section

variable {ι : Type} (now : ι → Now) (req : ι → Request) (h : List (ι × Db × Db))

/-- Thread `i` let the device in, for one of the three reasons. -/
inductive Reason (i : ι) (vault : Wire) (pub : Bytes) : Prop
  | enroll {key : EdKey} {recovery x : Bytes} {name : Wire} {before after : Db}
      (henrolls : Enrolls (now i) (req i) vault key recovery x name) (hpub : pub = .ed key)
      (hfirst : (i, before, after) ∈ h) (hfounds : Founds before after vault)
  | approve {signed : Signed} {key : EdKey} {r : ApproveReq} {before after : Db} (hreq : req i = .post .approve signed)
      (hv : verify (now i).verify signed = .ok (vault, key)) (hr : Reads ApproveReq.ofJson signed.body r)
      (ht : r.targetPub.decode = some pub) (hcheck : (i, before, after) ∈ h) (hcan : before.canSync vault key = true)
  | recover {r : RecoverReq} {recovery ed : EdKey} {before after : Db} (hreq : req i = .recover r) (hpub : pub = .ed ed)
      (hrec : r.recoveryPub.decodeEd = some recovery) (hsig : r.sig.signature = some ⟨recovery, .deviceKey ed⟩)
      (hcheck : (i, before, after) ∈ h) (hvault : before.vaultByRecovery (.ed recovery) = some vault)

variable {now req h}

theorem Reason.mono {h' : List (ι × Db × Db)} {i : ι} {vault : Wire} {pub : Bytes} (hr : Reason now req h i vault pub)
    (hsub : h ⊆ h') : Reason now req h' i vault pub := by
  cases hr with
  | enroll henrolls hpub hfirst hfounds => exact .enroll henrolls hpub (hsub hfirst) hfounds
  | approve hreq hv hr ht hcheck hcan => exact .approve hreq hv hr ht (hsub hcheck) hcan
  | recover hreq hpub hrec hsig hcheck hvault => exact .recover hreq hpub hrec hsig (hsub hcheck) hvault

variable [DecidableEq ι]

theorem head_own {i : ι} {m : Db × Db} (hm : (Pool.own i h).head? = some m) : (i, m) ∈ h :=
  Pool.mem_own.mp (List.mem_of_head? hm)

/-- **One statement** that lets a device in has a reason. -/
theorem Statement.reason {i : ι} {vault : Wire} {pub : Bytes} (hs : Statement (now i) (req i) (Pool.own i h) s t)
    (hadm : Admits s t vault pub) : Reason now req h i vault pub := by
  obtain ⟨hbefore, r, hr, hk, happ⟩ := hadm
  cases hs.devices hr with
  | kept hr => exact absurd happ (by simp [hbefore r hr hk])
  | enrolled henrolls hpast hfresh hnew =>
    obtain ⟨rfl, rfl⟩ := Prod.mk.inj hk
    exact .enroll henrolls rfl (head_own hpast) (insertVault_founds (hfresh.symm.trans happ))
  | renamed hr₀ =>
    have hold := hbefore _ hr₀ hk
    exact absurd happ (by simp [hold])
  | approved hreq hc ha ht hr hv hrev =>
    obtain ⟨rfl, rfl⟩ := Prod.mk.inj hk
    obtain ⟨hver, m, hm, hcan⟩ := hc
    subst hv
    exact .approve hreq hver ha ht (Pool.mem_own.mp hm) hcan
  | revoked => cases happ
  | rewrapped hr₀ =>
    have hold := hbefore _ hr₀ hk
    exact absurd happ (by simp [hold])
  | recovered hreq hrec hsig hpub hpast hvault =>
    obtain ⟨rfl, rfl⟩ := Prod.mk.inj hk
    exact .recover hreq hpub hrec hsig (head_own hpast) hvault

/-! ## Runs -/

theorem Enrolls.key_eq {now : Now} {req : Request} {vault vault' : Wire} {key key' : EdKey} {recovery x recovery' x' : Bytes}
    {name name' : Wire} (h : Enrolls now req vault key recovery x name) (h' : Enrolls now req vault' key' recovery' x' name') :
    key = key' := by
  obtain ⟨signed, r, hreq, hv, -⟩ := h
  obtain ⟨signed', r', hreq', hv', -⟩ := h'
  obtain ⟨-, rfl⟩ := Request.post.inj (hreq.symm.trans hreq')
  exact (Prod.mk.inj (Except.ok.inj (hv.symm.trans hv'))).2

omit [DecidableEq ι] in
theorem Reason.founder {i : ι} {signed : Signed} {vault : Wire} {pub : Bytes} (hr : Reason now req h i vault pub)
    (hi : req i = .post .enroll signed) :
    ∃ key recovery x name before after, Enrolls (now i) (req i) vault key recovery x name ∧ pub = .ed key ∧
      (i, before, after) ∈ h ∧ Founds before after vault := by
  cases hr with
  | enroll henrolls hpub hfirst hfounds => exact ⟨_, _, _, _, _, _, henrolls, hpub, hfirst, hfounds⟩
  | approve hreq => cases hi.symm.trans hreq
  | recover hreq => cases hi.symm.trans hreq

/-- **Admission.** In every state of every run from an empty database: no device is both approved and revoked, and
none that is revoked has a wrapped key; every device that is approved was made so by some statement; such a
statement belongs to the enrollment that founded the vault, to an approval by a device that was found able to
sync, or to a recovery with the key of the vault; and of every vault at most one device was approved by
enrollment. -/
theorem admission {c₀ c : Handlers ι} (hserving : Serving now req c₀) (hempty : c₀.state = {}) (hrun : Pool.Trace c₀ h c) :
    (∀ r ∈ c.state.devices, ¬ (r.approved = true ∧ r.revoked = true) ∧ (r.revoked = true → r.wrappedKey = none)) ∧
    (∀ r ∈ c.state.devices, r.approved = true → ∃ i s t, (i, s, t) ∈ h ∧ Admits s t r.vaultId r.ed25519Pub) ∧
    (∀ i s t vault pub, (i, s, t) ∈ h → Admits s t vault pub → Reason now req h i vault pub) ∧
    ∀ i j s t s' t' signed signed' vault pub pub', req i = .post .enroll signed → req j = .post .enroll signed' →
      (i, s, t) ∈ h → (j, s', t') ∈ h → Admits s t vault pub → Admits s' t' vault pub' → pub = pub' := by
  have hsane : ∀ r ∈ c.state.devices, Sane r := by
    refine hrun.keeps (P := fun _ db => ∀ r ∈ db.devices, Sane r) hserving.traced ?_ fun _ _ _ _ hs h => h.sane hs
    rw [hempty]
    exact fun r hr => (nomatch hr)
  have hreasons : ∀ i s t vault pub, (i, s, t) ∈ h → Admits s t vault pub → Reason now req h i vault pub := by
    intro i s t vault pub hmem hadm
    obtain ⟨h', hsuf, hstep⟩ := hrun.step_of_mem hserving.traced hmem
    exact (hstep.reason hadm).mono hsuf.subset
  refine ⟨fun r hr => ⟨(hsane r hr).one, (hsane r hr).cleared⟩, fun r hr happ => ?_, hreasons, ?_⟩
  · -- No device was there at the start, so some step has let this one in.
    have hnone : ¬ ∃ r' ∈ c₀.state.devices, r'.key = r.key ∧ r'.approved = true := by
      rw [hempty]
      rintro ⟨r', hr', -⟩
      cases hr'
    obtain ⟨i, s, t, hmem, hs, ht⟩ :=
      hrun.turns (p := fun db : Db => ∃ r' ∈ db.devices, r'.key = r.key ∧ r'.approved = true) hnone ⟨r, hr, rfl, happ⟩
    refine ⟨i, s, t, hmem, fun r' hr' hk => ?_, ht⟩
    by_contra hne
    exact hs ⟨r', hr', hk, by simpa using hne⟩
  intro i j s t s' t' signed signed' vault pub pub' hi hj h₁ h₂ hadm hadm'
  obtain ⟨key, _, _, _, _, _, henrolls, rfl, hmem, hfounds⟩ := (hreasons i s t vault pub h₁ hadm).founder hi
  obtain ⟨key', _, _, _, _, _, henrolls', rfl, hmem', hfounds'⟩ := (hreasons j s' t' vault pub' h₂ hadm').founder hj
  -- Both have founded the vault, which happens once.
  have hsame := hrun.once hserving.traced (fun _ _ _ _ h => h.known) hmem hmem' hfounds.before hfounds.after
    hfounds'.before hfounds'.after
  obtain ⟨rfl, -⟩ := Prod.mk.inj hsame
  rw [henrolls.key_eq henrolls']

end

/-! ## The first device -/

namespace FirstDevice

def vault : Wire := .b64 (.uuid 7)

def enrollmentOf (n : Nat) : Signed :=
  envelope vault (.device n) 0 (.json (EnrollReq.toJson
    ⟨.plain "laptop", .b64 (.ed (.device n)), .b64 (.x n), .b64 (.ed (.recovery 0))⟩))

def enrollment : Signed := enrollmentOf 1

/-- Two devices enroll. -/
def two : Bool → Request
  | false => .post .enroll enrollment
  | true => .post .enroll (enrollmentOf 2)

def startTwo : Handlers Bool := ⟨fun i => (route 0 (two i)).run, {}⟩

/-- Both find no row, and device 1 founds the vault. -/
def turns : List Bool := [false, true, false, true, true, false, true, false]

def contested : Handlers Bool := startTwo.play turns

end FirstDevice

open FirstDevice

theorem admission_contested : ∃ h i, Pool.Trace startTwo h contested ∧
    Reason (fun _ => 0) two h i FirstDevice.vault (.ed (.device 1)) := by
  obtain ⟨h, hrun⟩ := Pool.Trace.play (@Pool.Trace.start _ _ _ _ startTwo) turns
  obtain ⟨-, hletIn, hreasons, -⟩ := @admission _ (fun _ => 0) two h _ startTwo contested (fun _ => rfl) rfl hrun
  have hrow : (⟨FirstDevice.vault, .ed (.device 1), .x 1, .plain "laptop", true, false, none⟩ : DeviceRow) ∈
      contested.state.devices := by decide +kernel
  obtain ⟨i, s, t, hmem, hadm⟩ := hletIn _ hrow rfl
  exact ⟨h, i, hrun, hreasons i s t _ _ hmem hadm⟩

end SshVault.Relay
