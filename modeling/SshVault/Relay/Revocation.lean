import SshVault.Relay.Bodies
import SshVault.Relay.Effects

/-!
# Revocation

A revoked device stays out of its vault, as long as nobody delivers a recovery signature over
its key. Such signatures carry no time, so an old one is as good as a new one.
-/

open Lib Prog

namespace SshVault.Relay

/-! ## Runs -/

/-- The relay after a list of requests, each with the time it arrived. -/
def afterAll (db : Db) (run : List (Now × Request)) : Db := run.foldl (fun db q => (exec (route q.1 q.2) db).2) db

/-- Every request of a run meets a condition on the state it arrives in. -/
def EachStep (ok : Db → Request → Prop) : Db → List (Now × Request) → Prop
  | _, [] => True
  | db, q :: rest => ok db q.2 ∧ EachStep ok (exec (route q.1 q.2) db).2 rest

/-- **Runs.** What every step that meets the condition keeps, the run keeps. -/
theorem EachStep.keeps {ok : Db → Request → Prop} {P : Db → Prop}
    (hstep : ∀ now db req, ok db req → P db → P (exec (route now req) db).2) {db : Db} {run : List (Now × Request)}
    (h : EachStep ok db run) (hP : P db) : P (afterAll db run) := by
  induction run generalizing db with
  | nil => exact hP
  | cons q rest ih => exact ih h.2 (hstep q.1 db q.2 h.1 hP)

/-! ## Revoked devices -/

/-- The device has a row, and it says revoked. -/
structure Revoked (db : Db) (vault : Wire) (ed : EdKey) : Prop where
  row : ∃ r ∈ db.devices, r.key = (vault, .ed ed)
  all : ∀ r ∈ db.devices, r.key = (vault, .ed ed) → r.revoked = true

instance (db : Db) (vault : Wire) (ed : EdKey) : Decidable (Revoked db vault ed) :=
  decidable_of_iff ((∃ r ∈ db.devices, r.key = (vault, .ed ed)) ∧
      ∀ r ∈ db.devices, r.key = (vault, .ed ed) → r.revoked = true)
    ⟨fun h => ⟨h.1, h.2⟩, fun h => ⟨h.row, h.all⟩⟩

/-- A recovery request for this device, signed with the recovery key of this vault. -/
def Readmits (vault : Wire) (ed : EdKey) (db : Db) (req : Request) : Prop :=
  ∃ r recovery, req = .recover r ∧ r.recoveryPub.decodeEd = some recovery ∧ r.ed25519Pub.decodeEd = some ed ∧
    r.sig.signature = some ⟨recovery, .deviceKey ed⟩ ∧ db.vaultByRecovery (.ed recovery) = some vault

theorem Revoked.device {db : Db} {vault : Wire} {ed : EdKey} (h : Revoked db vault ed) :
    ∃ r, db.device vault (.ed ed) = some r ∧ r.revoked = true := by
  obtain ⟨r, hr, hk⟩ := h.row
  cases hfind : db.device vault (.ed ed) with
  | none => exact absurd hk (by simpa using List.find?_eq_none.mp hfind r hr)
  | some r' =>
    refine ⟨r', rfl, h.all r' (List.mem_of_find?_eq_some hfind) ?_⟩
    simpa using List.find?_some hfind

theorem Revoked.step {vault : Wire} {ed : EdKey} (now : Now) (db : Db) (req : Request)
    (hreq : ¬ Readmits vault ed db req) (h : Revoked db vault ed) : Revoked (exec (route now req) db).2 vault ed := by
  have heff := route_effect now req db
  refine ⟨heff.device_stays h.row, fun r hr hk => ?_⟩
  cases heff.devices hr with
  | kept hr => exact h.all r hr hk
  | enrolled _ _ _ hnew =>
    obtain ⟨r', hr', hk'⟩ := h.row
    exact absurd (hk'.trans hk.symm) (hnew r' hr')
  | reenrolled _ _ _ _ hk' hrevoked =>
    obtain ⟨rfl, hed⟩ := Prod.mk.inj (hk'.symm.trans hk)
    obtain ⟨r', hfind, htrue⟩ := h.device
    rw [hed, hfind, Option.map_some, htrue] at hrevoked
    exact absurd rfl hrevoked
  | approved _ _ _ _ hr₀ _ hrev => exact absurd (h.all _ hr₀ hk) (by simp [hrev])
  | revoked => rfl
  | rewrapped _ _ _ _ hr₀ _ hrev => exact absurd (h.all _ hr₀ hk) (by simp [hrev])
  | recovered hrec hed hsig hvault _ hk' =>
    obtain ⟨rfl, hpub⟩ := Prod.mk.inj (hk'.symm.trans hk)
    cases hpub
    exact absurd ⟨_, _, rfl, hrec, hed, hsig, hvault⟩ hreq

/-! ## Refusals -/

/-- The request verifies as one from this device for this vault. -/
def SignedBy (now : Now) (vault : Wire) (ed : EdKey) : Request → Prop
  | .post _ signed => verify now.verify signed = .ok (vault, ed)
  | .shares q => verify now.verify (q.intoSigned .shares) = .ok (vault, ed)
  | .devices q => verify now.verify (q.intoSigned .devices) = .ok (vault, ed)
  | .wrapped q => verify now.verify (q.intoSigned .wrapped) = .ok (vault, ed)
  | .pull q => verify now.verify ⟨q.vault, q.device, q.sig, q.ts, .pull q.since⟩ = .ok (vault, ed)
  | .recover _ => False

theorem authorize_refused {α : Type} {now : Now} {signed : Signed} {vault : Wire} {ed : EdKey} {db : Db}
    (hv : verify now.verify signed = .ok (vault, ed)) (hcan : db.canSync vault ed = false) (refusal : String)
    (f : Wire × EdKey → Handler α) :
    exec (authorize now signed refusal >>= f) db = (.error (forbidden refusal), db) := by
  rw [exec_bind, exec_authorize, hv]
  simp [hcan]

theorem map_refused {α β : Type} {p : Handler α} {f : α → β} {db : Db} {e : HttpError}
    (h : exec p db = (.error e, db)) : exec (do return f (← p)) db = (.error e, db) := by
  rw [exec_bind, h]

theorem enroll_refused {now : Now} {signed : Signed} {vault : Wire} {ed : EdKey} {db : Db} {row : DeviceRow}
    (hv : verify now.verify signed = .ok (vault, ed)) (hrow : db.device vault (.ed ed) = some row) (hrev : row.revoked = true) :
    ∃ e, exec (enroll now signed) db = (.error e, db) := by
  unfold enroll
  rw [exec_bind, exec_liftExcept, hv]
  dsimp only
  rw [exec_bind, exec_liftExcept]
  cases hbody : jsonBody EnrollReq.ofJson signed.body with
  | error e => exact ⟨e, rfl⟩
  | ok r =>
    unfold applyEnroll
    dsimp only
    by_cases hself : r.ed25519Pub = signed.devicePub
    swap
    · rw [if_pos hself]
      exact ⟨_, rfl⟩
    have hselect : (Db.selectDevice vault (.ed ed)).run db = (some row, db) := by rw [← hrow]; rfl
    rw [if_neg (not_not.mpr hself), exec_bind, exec_lift, hselect]
    dsimp only
    rw [if_pos (by rw [Option.map_some, hrev])]
    exact ⟨_, rfl⟩

theorem wrapped_refused {now : Now} {q : SignedQuery} {vault : Wire} {ed : EdKey} {db : Db} {row : DeviceRow}
    (hv : verify now.verify (q.intoSigned .wrapped) = .ok (vault, ed)) (hrow : db.device vault (.ed ed) = some row)
    (hrev : row.revoked = true) : ∃ e, exec (wrapped now q) db = (.error e, db) := by
  have hselect : (Db.selectDevice vault (.ed ed)).run db = (some row, db) := by rw [← hrow]; rfl
  unfold wrapped
  rw [exec_bind, exec_liftExcept, hv]
  dsimp only
  rw [exec_bind, exec_lift, hselect]
  dsimp only [orReject]
  rw [exec_bind, exec_liftExcept]
  dsimp only
  rw [if_pos hrev]
  exact ⟨_, rfl⟩

theorem Revoked.refused {now : Now} {db : Db} {vault : Wire} {ed : EdKey} {req : Request} (h : Revoked db vault ed)
    (hreq : SignedBy now vault ed req) : ∃ e, exec (route now req) db = (.error e, db) := by
  obtain ⟨row, hrow, hrev⟩ := h.device
  have hcan : db.canSync vault ed = false := by simp [Db.canSync, hrow, DeviceRow.canSync, hrev]
  cases req with
  | post endpoint signed =>
    cases endpoint with
    | enroll =>
      obtain ⟨e, he⟩ := enroll_refused hreq hrow hrev
      exact ⟨e, map_refused he⟩
    | approve => exact ⟨_, map_refused (authorize_refused hreq hcan _ _)⟩
    | revoke => exact ⟨_, map_refused (authorize_refused hreq hcan _ _)⟩
    | rotate => exact ⟨_, map_refused (authorize_refused hreq hcan _ _)⟩
    | shareGrant => exact ⟨_, map_refused (authorize_refused hreq hcan _ _)⟩
    | shareRotate => exact ⟨_, map_refused (authorize_refused hreq hcan _ _)⟩
    | push => exact ⟨_, map_refused (authorize_refused hreq hcan _ _)⟩
  | recover req => exact hreq.elim
  | shares q => exact ⟨_, map_refused (authorize_refused hreq hcan _ _)⟩
  | devices q => exact ⟨_, map_refused (authorize_refused hreq hcan _ _)⟩
  | wrapped q =>
    obtain ⟨e, he⟩ := wrapped_refused hreq hrow hrev
    exact ⟨e, map_refused he⟩
  | pull q => exact ⟨_, map_refused (authorize_refused hreq hcan _ _)⟩

/-! ## From the revocation on -/

theorem revoked_of_revoke {now : Now} {signed : Signed} {vault : Wire} {key ed : EdKey} {r : RevokeReq} {db : Db}
    {reply : Reply} (hv : verify now.verify signed = .ok (vault, key)) (hr : Reads RevokeReq.ofJson signed.body r)
    (ht : r.targetPub.decode = some (.ed ed)) (hok : (exec (route now (.post .revoke signed)) db).1 = .ok reply) :
    Revoked (exec (route now (.post .revoke signed)) db).2 vault ed := by
  obtain ⟨j, hj, hdec⟩ := hr
  have hbody : jsonBody RevokeReq.ofJson signed.body = .ok r := by rw [hj, jsonBody, hdec]; rfl
  unfold route post at hok ⊢
  dsimp only at hok ⊢
  unfold revoke at hok ⊢
  rw [exec_bind, exec_bind, exec_authorize, hv] at hok ⊢
  dsimp only at hok ⊢
  cases hcan : db.canSync vault key with
  | false => simp [hcan] at hok
  | true =>
    simp only [hcan, if_true] at hok ⊢
    rw [exec_bind, exec_liftExcept, hbody] at hok ⊢
    unfold applyRevoke at hok ⊢
    dsimp only at hok ⊢
    rw [exec_bind, exec_liftExcept, ht] at hok ⊢
    dsimp only [orReject] at hok ⊢
    rw [exec_bind, exec_lift] at hok ⊢
    dsimp only at hok ⊢
    let p (d : DeviceRow) : Bool := d.key = (vault, .ed ed)
    let set (d : DeviceRow) : DeviceRow := { d with revoked := true, approved := false, wrappedKey := none }
    have hrun : (Db.revokeDevice vault (.ed ed)).run db =
      (Table.affected p db.devices, { db with devices := Table.update p set db.devices }) := rfl
    rw [hrun] at hok ⊢
    dsimp only at hok ⊢
    -- An `UPDATE` that touches no row is refused.
    by_cases hnone : Table.affected p db.devices = 0
    · rw [if_pos hnone] at hok
      exact nomatch (show Except.error _ = Except.ok reply from hok)
    · rw [if_neg hnone]
      have hrow : ∃ d ∈ db.devices, d.key = (vault, .ed ed) := by
        by_contra hno
        refine hnone (Table.affected_eq_zero.mpr fun d hd => ?_)
        simpa [p] using fun hk => hno ⟨d, hd, hk⟩
      refine ⟨Table.key_mem_update (p := p) (f := set) (fun _ => rfl) hrow, fun d hd hk => ?_⟩
      rcases Table.mem_update (p := p) (f := set) hd with ⟨-, hp⟩ | ⟨d₀, -, -, rfl⟩
      · simp [p, hk] at hp
      · rfl

/-- **Sticky.** Once a revocation is accepted, the device stays revoked and is refused everything
it signs, through every run in which no recovery signature over its key is delivered. -/
theorem revocation_sticky (db : Db) (now : Now) (signed : Signed) (vault : Wire) (key ed : EdKey) (r : RevokeReq)
    (reply : Reply) (run : List (Now × Request)) (hv : verify now.verify signed = .ok (vault, key))
    (hr : Reads RevokeReq.ofJson signed.body r) (ht : r.targetPub.decode = some (.ed ed))
    (hok : (exec (route now (.post .revoke signed)) db).1 = .ok reply)
    (hrun : EachStep (fun db req => ¬ Readmits vault ed db req) (exec (route now (.post .revoke signed)) db).2 run) :
    Revoked (afterAll (exec (route now (.post .revoke signed)) db).2 run) vault ed ∧
      ∀ now' req, SignedBy now' vault ed req →
        ∃ e, exec (route now' req) (afterAll (exec (route now (.post .revoke signed)) db).2 run) =
          (.error e, afterAll (exec (route now (.post .revoke signed)) db).2 run) := by
  have hrevoked := hrun.keeps (fun now db req hreq h => Revoked.step now db req hreq h) (revoked_of_revoke hv hr ht hok)
  exact ⟨hrevoked, fun _ _ hsigned => hrevoked.refused hsigned⟩

/-! ### A recovered device -/

def vaultOne : Wire := .b64 (.uuid 1)

/-- The first device of the vault enrolls. -/
def bootstrap : Request :=
  .post .enroll (envelope vaultOne (.device 0) 1000 (.json (ClientReq.toJson (.enroll
    ⟨.plain "laptop", .b64 (.ed (.device 0)), .b64 (.x 0), .b64 (.ed (.recovery 7))⟩))))

/-- A second device joins with the recovery phrase. -/
def joinByPhrase : RecoverReq :=
  ⟨.b64 (.ed (.recovery 7)), .plain "phone", .b64 (.ed (.device 1)), .b64 (.x 1), .b64 ⟨.recovery 7, .deviceKey (.device 1)⟩⟩

def revokePhone : Signed := envelope vaultOne (.device 0) 1000 (.json (ClientReq.toJson (.revoke ⟨.b64 (.ed (.device 1))⟩)))

def joined : List (Now × Request) := [(1000, bootstrap), (1000, .recover joinByPhrase)]

theorem revokePhone_reads : Reads RevokeReq.ofJson revokePhone.body ⟨.b64 (.ed (.device 1))⟩ := ⟨_, rfl, rfl⟩

theorem revokePhone_accepted :
    (exec (route 1000 (.post .revoke revokePhone)) (afterAll {} joined)).1 = .ok (.push ⟨0, 0⟩) := by
  decide +kernel

theorem revocation_sticky_bootstrap :
    Revoked (afterAll (exec (route 1000 (.post .revoke revokePhone)) (afterAll {} joined)).2 [(1000, bootstrap)]) vaultOne
      (.device 1) :=
  (revocation_sticky (afterAll {} joined) 1000 revokePhone vaultOne (.device 0) (.device 1) _ (.push ⟨0, 0⟩)
    [(1000, bootstrap)] (by decide +kernel) revokePhone_reads rfl revokePhone_accepted
    ⟨(fun ⟨_, _, h, _⟩ => nomatch h), trivial⟩).1

/-- The same recovery request, delivered again after the revocation, readmits the device. -/
theorem old_recovery_readmits :
    ¬ ∀ (before after : List (Now × Request)) (now : Now) (signed : Signed) (vault : Wire) (key ed : EdKey)
      (r : RevokeReq) (reply : Reply), verify now.verify signed = .ok (vault, key) → Reads RevokeReq.ofJson signed.body r →
      r.targetPub.decode = some (.ed ed) → (exec (route now (.post .revoke signed)) (afterAll {} before)).1 = .ok reply →
      (∀ q ∈ after, ∀ req, q.2 = .recover req → req.ed25519Pub.decodeEd = some ed →
        ∃ q' ∈ before, ∃ req', q'.2 = .recover req' ∧ req'.sig = req.sig) →
      Revoked (afterAll (exec (route now (.post .revoke signed)) (afterAll {} before)).2 after) vault ed := by
  intro h
  have hrevoked := h joined [(1000, .recover joinByPhrase)] 1000 revokePhone vaultOne (.device 0) (.device 1) _
    (.push ⟨0, 0⟩) (by decide +kernel) revokePhone_reads rfl revokePhone_accepted ?_
  · have hall : ∀ r ∈ (afterAll (exec (route 1000 (.post .revoke revokePhone)) (afterAll {} joined)).2
        [(1000, .recover joinByPhrase)]).devices, r.key = (vaultOne, .ed (.device 1)) → r.revoked = true := hrevoked.all
    revert hall
    decide +kernel
  · intro q hq req hreq _
    obtain rfl := List.mem_singleton.mp hq
    obtain rfl := Request.recover.inj hreq
    exact ⟨_, List.mem_cons_of_mem _ List.mem_cons_self, joinByPhrase, rfl, rfl⟩

end SshVault.Relay
