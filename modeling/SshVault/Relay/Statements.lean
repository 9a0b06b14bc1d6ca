import SshVault.Lib.Trace
import SshVault.Relay.Effects

/-!
# Statement by statement

Everything that a statement of a handler may do to the database, whatever other handlers do between the
statements. What a statement relies on was read by an earlier one, and may be out of date.
-/

open Lib Prog

namespace SshVault.Relay

/-- The request verifies, and an earlier statement found the device able to sync. -/
structure Checked (now : Now) (past : List (Db × Db)) (signed : Signed) (vault : Wire) (key : EdKey) : Prop where
  verified : verify now.verify signed = .ok (vault, key)
  canSync : ∃ m ∈ past, m.1.canSync vault key = true

/-- An `enroll` that has decoded everything. -/
structure Enrolls (now : Now) (req : Request) (vault : Wire) (key : EdKey) (recovery x : Bytes) (name : Wire) : Prop where
  sent : ∃ signed r, req = .post .enroll signed ∧ verify now.verify signed = .ok (vault, key) ∧
    Reads EnrollReq.ofJson signed.body r ∧ r.ed25519Pub = signed.devicePub ∧ r.x25519Pub.decode = some x ∧
    r.recoveryPub.decode = some recovery ∧ r.deviceName = name

/-- `past` is what the earlier statements of the handler found and left, latest first. -/
inductive Statement (now : Now) (req : Request) (past : List (Db × Db)) (db : Db) : Db → Prop
  | read : Statement now req past db db
  | deleteExpired : Statement now req past db ((Db.deleteExpired now.markSeen).run db).2
  | insertSeen {signed : Signed} {vault : Wire} {key : EdKey} {sig : Sig} (hc : Checked now past signed vault key)
      (hsig : signed.sig.signature = some sig) :
    Statement now req past db ((Db.insertSeen sig (now.markSeen + maxSkewSecs)).run db).2
  | insertVault {vault : Wire} {key : EdKey} {recovery x : Bytes} {name : Wire}
      (h : Enrolls now req vault key recovery x name) : Statement now req past db ((Db.insertVault vault recovery).run db).2
  | enrollDevice {vault : Wire} {key : EdKey} {recovery x : Bytes} {name : Wire} {before : Db}
      (h : Enrolls now req vault key recovery x name) (hpast : past.head? = some (before, ((Db.insertVault vault recovery).run before).2)) :
    Statement now req past db
      ((Db.enrollDevice vault (.ed key) x name ((Db.insertVault vault recovery).run before).1).run db).2
  | approveDevice {signed : Signed} {vault : Wire} {key : EdKey} {r : ApproveReq} {target wrapped : Bytes}
      (hreq : req = .post .approve signed) (hc : Checked now past signed vault key) (hr : Reads ApproveReq.ofJson signed.body r)
      (ht : r.targetPub.decode = some target) (hw : r.wrappedKey.decode = some wrapped) :
    Statement now req past db ((Db.approveDevice vault target wrapped).run db).2
  | revokeDevice {signed : Signed} {vault : Wire} {key : EdKey} {r : RevokeReq} {target : Bytes}
      (hreq : req = .post .revoke signed) (hc : Checked now past signed vault key) (hr : Reads RevokeReq.ofJson signed.body r)
      (ht : r.targetPub.decode = some target) : Statement now req past db ((Db.revokeDevice vault target).run db).2
  | bumpEpoch {signed : Signed} {vault : Wire} {key : EdKey} {r : RotateReq}
      (hreq : req = .post .rotate signed) (hc : Checked now past signed vault key) (hr : Reads RotateReq.ofJson signed.body r) :
    Statement now req past db ((Db.bumpEpoch vault r.epoch).run db).2
  | rewrapDevice {signed : Signed} {vault : Wire} {key : EdKey} {r : RotateReq} {c : Bytes × Bytes}
      (hreq : req = .post .rotate signed) (hc : Checked now past signed vault key) (hr : Reads RotateReq.ofJson signed.body r)
      (hw : ∃ w ∈ r.wrapped, decodeWrap w = .ok c) : Statement now req past db ((Db.rewrapDevice vault c.1 c.2).run db).2
  | raiseShareEpoch {signed : Signed} {vault : Wire} {key : EdKey} {r : ShareGrantReq} {share : Uuid}
      (hreq : req = .post .shareGrant signed) (hc : Checked now past signed vault key)
      (hr : Reads ShareGrantReq.ofJson signed.body r) (hs : r.shareId.decode16 = some share) :
    Statement now req past db ((Db.raiseShareEpoch vault share r.epoch).run db).2
  | upsertMember {signed : Signed} {vault : Wire} {key : EdKey} {r : ShareGrantReq} {share : Uuid} {c : Bytes × Bytes}
      (hreq : req = .post .shareGrant signed) (hc : Checked now past signed vault key)
      (hr : Reads ShareGrantReq.ofJson signed.body r) (hs : r.shareId.decode16 = some share)
      (hw : ∃ w ∈ r.wrapped, decodeWrap w = .ok c) : Statement now req past db ((Db.upsertMember vault share c.1 c.2).run db).2
  | bumpShareEpoch {signed : Signed} {vault : Wire} {key : EdKey} {r : ShareRotateReq} {share : Uuid}
      (hreq : req = .post .shareRotate signed) (hc : Checked now past signed vault key)
      (hr : Reads ShareRotateReq.ofJson signed.body r) (hs : r.shareId.decode16 = some share) :
    Statement now req past db ((Db.bumpShareEpoch vault share r.epoch).run db).2
  | insertShare {signed : Signed} {vault : Wire} {key : EdKey} {r : ShareRotateReq} {share : Uuid}
      (hreq : req = .post .shareRotate signed) (hc : Checked now past signed vault key)
      (hr : Reads ShareRotateReq.ofJson signed.body r) (hs : r.shareId.decode16 = some share) :
    Statement now req past db ((Db.insertShare vault share r.epoch).run db).2
  | deleteMember {signed : Signed} {vault : Wire} {key : EdKey} {r : ShareRotateReq} {share : Uuid} {pub : Bytes}
      (hreq : req = .post .shareRotate signed) (hc : Checked now past signed vault key)
      (hr : Reads ShareRotateReq.ofJson signed.body r) (hs : r.shareId.decode16 = some share)
      (ht : ∃ t ∈ r.remove, decodeRemoved t = .ok pub) :
    Statement now req past db ((Db.deleteMember vault share pub).run db).2
  | rewrapMember {signed : Signed} {vault : Wire} {key : EdKey} {r : ShareRotateReq} {share : Uuid} {c : Bytes × Bytes}
      (hreq : req = .post .shareRotate signed) (hc : Checked now past signed vault key)
      (hr : Reads ShareRotateReq.ofJson signed.body r) (hs : r.shareId.decode16 = some share)
      (hw : ∃ w ∈ r.wrapped, decodeWrap w = .ok c) : Statement now req past db ((Db.rewrapMember vault share c.1 c.2).run db).2
  | insertEntry {signed : Signed} {vault : Wire} {key : EdKey} {r : PushReq} {c : Bytes × Bytes × Uuid}
      (hreq : req = .post .push signed) (hc : Checked now past signed vault key) (hr : Reads PushReq.ofJson signed.body r)
      (he : ∃ e ∈ r.entries, decodeEntry e = .ok c) :
    Statement now req past db ((Db.insertEntry vault c.1 c.2.1 c.2.2).run db).2
  | recoverDevice {r : RecoverReq} {recovery ed : EdKey} {vault : Wire} {x : Bytes} {before : Db}
      (hreq : req = .recover r) (hrec : r.recoveryPub.decodeEd = some recovery) (hed : r.ed25519Pub.decodeEd = some ed)
      (hsig : r.sig.signature = some ⟨recovery, .deviceKey ed⟩) (hpast : past.head? = some (before, before))
      (hvault : before.vaultByRecovery (.ed recovery) = some vault) (hx : r.x25519Pub.decode = some x) :
    Statement now req past db ((Db.recoverDevice vault (.ed ed) x r.deviceName).run db).2

/-! ## Reading handlers -/

section

variable {now : Now} {req : Request} {past : List (Db × Db)}

theorem Checked.cons {signed : Signed} {vault : Wire} {key : EdKey} (h : Checked now past signed vault key) (m : Db × Db) :
    Checked now (m :: past) signed vault key := by
  obtain ⟨hv, m', hm, hcan⟩ := h
  exact ⟨hv, m', List.mem_cons_of_mem _ hm, hcan⟩

theorem read_traced {α : Type} {f : Db → α} {Q : List (Db × Db) → α → Prop} (hQ : ∀ db, Q ((db, db) :: past) (f db)) :
    Traced (Statement now req) (OnOk Q) past (liftM (Prog.atom fun db => (f db, db)) : Handler α).run :=
  Traced.lift (Traced.atom (fun _ => .read) hQ)

theorem stmt_traced {α : Type} {f : Db → α × Db} {Q : List (Db × Db) → α → Prop}
    (h : ∀ db, Statement now req past db (f db).2) (hQ : ∀ db, Q ((db, (f db).2) :: past) (f db).1) :
    Traced (Statement now req) (OnOk Q) past (liftM (Prog.atom f) : Handler α).run :=
  Traced.lift (Traced.atom h hQ)

theorem map_traced {α β : Type} {p : Handler α} {f : α → β} {Q : List (Db × Db) → β → Prop}
    (h : Traced (Statement now req) (OnOk fun past a => Q past (f a)) past p.run) :
    Traced (Statement now req) (OnOk Q) past (do return f (← p) : Handler β).run :=
  Traced.bindExcept (h.imp (fun _ _ _ h => h) fun past r hr => by cases r <;> exact hr)

theorem authorize_traced (signed : Signed) (refusal : String) :
    Traced (Statement now req) (OnOk fun past a => Checked now past signed a.1 a.2) past
      (authorize now signed refusal).run := by
  unfold authorize
  refine Traced.bindExcept (Traced.liftExcept fun (vault, key) hv => ?_)
  refine Traced.bindExcept (read_traced (f := fun db => db.canSync vault key) fun db => ?_)
  split
  · exact Traced.throw
  · rename_i hcan
    refine Traced.ok ⟨hv, _, List.mem_cons_self, ?_⟩
    simpa using hcan

/-- The loops, once the request is checked. -/
theorem forEach_traced {β γ δ : Type} {decode : β → Except HttpError γ} {stmt : γ → Prog Db Nat} {l : List β}
    {rest : Nat → Handler δ} {signed : Signed} {vault : Wire} {key : EdKey} (hc : Checked now past signed vault key)
    (hstmt : ∀ past, Checked now past signed vault key → ∀ c, (∃ b ∈ l, decode b = .ok c) →
      Traced (Statement now req) (fun past _ => Checked now past signed vault key) past (stmt c))
    (hrest : ∀ past, Checked now past signed vault key → ∀ n, Traced (Statement now req) (OnOk fun _ _ => True) past (rest n).run) :
    Traced (Statement now req) (OnOk fun _ _ => True) past (forEach decode stmt l >>= rest).run := by
  have hloop : Traced (Statement now req) (OnOk fun past _ => Checked now past signed vault key) past
      (forEach decode stmt l).run := by
    clear hrest
    induction l generalizing past with
    | nil => exact Traced.ok hc
    | cons b l ih =>
      unfold forEach
      refine Traced.bindExcept (Traced.liftExcept fun c hdec => ?_)
      refine Traced.bindExcept (Traced.lift ((hstmt past hc c ⟨b, List.mem_cons_self, hdec⟩).imp (fun _ _ _ h => h) ?_))
      intro past n hc
      refine Traced.bindExcept ((ih hc fun past hc c hdec => hstmt past hc c ?_).imp (fun _ _ _ h => h) ?_)
      · obtain ⟨b', hb', hdec⟩ := hdec
        exact ⟨b', List.mem_cons_of_mem _ hb', hdec⟩
      · intro past r hr
        cases r with
        | ok m => exact hr
        | error e => trivial
  refine Traced.bindExcept (hloop.imp (fun _ _ _ h => h) fun past r hr => ?_)
  cases r with
  | ok n => exact hrest past hr n
  | error e => trivial

/-! ## Handlers -/

/-- The four statements of an accepted `enroll`. -/
structure EnrollRun (now : Now) (req : Request) (past : List (Db × Db)) (resp : EnrollResp) : Prop where
  found : ∃ vault key recovery x name, Enrolls now req vault key recovery x name ∧ ∃ atRow before atDevice atHead : Db,
    past = [(atHead, atHead),
        (atDevice, ((Db.enrollDevice vault (.ed key) x name ((Db.insertVault vault recovery).run before).1).run atDevice).2),
        (before, ((Db.insertVault vault recovery).run before).2), (atRow, atRow)] ∧
      resp.approved = ((Db.insertVault vault recovery).run before).1

/-- So far the handler has only read. -/
def Quiet (past : List (Db × Db)) : Prop := ∀ m ∈ past, m.1 = m.2

theorem enroll_traced (signed : Signed) :
    Traced (Statement now (.post .enroll signed)) (Ending (EnrollRun now (.post .enroll signed)) Quiet) []
      (enroll now signed).run := by
  have hnone : Quiet [] := fun m hm => nomatch hm
  have hone (db : Db) : Quiet [(db, db)] := fun m hm => by rw [List.mem_singleton.mp hm]
  unfold enroll
  refine Traced.bindEnding (Traced.exceptEnding hnone fun (vault, key) hv => ?_)
  refine Traced.bindEnding (Traced.exceptEnding hnone fun r hr => ?_)
  unfold applyEnroll
  split
  · exact hnone
  rename_i hself
  refine Traced.bindEnding (Traced.liftEnding (Traced.atom (fun _ => .read) fun atRow => ?_))
  split
  · exact hone atRow
  refine Traced.bindEnding (Traced.exceptEnding (hone atRow) fun x hx => ?_)
  refine Traced.bindEnding (Traced.exceptEnding (hone atRow) fun recovery hrec => ?_)
  have henrolls : Enrolls now (.post .enroll signed) vault key recovery x r.deviceName :=
    ⟨signed, r, rfl, hv, jsonBody_ok hr, not_not.mp hself, orReject_ok hx, orReject_ok hrec, rfl⟩
  refine Traced.bindEnding (Traced.liftEnding (Traced.atom (fun _ => .insertVault henrolls) fun before => ?_))
  refine Traced.bindEnding (Traced.liftEnding (Traced.atom (fun _ => .enrollDevice henrolls rfl) fun atDevice => ?_))
  refine Traced.bindEnding (Traced.liftEnding (Traced.atom (fun _ => .read) fun atHead => ?_))
  exact Traced.pure ⟨vault, key, recovery, x, _, henrolls, atRow, before, atDevice, atHead, rfl, rfl⟩

/-- What the first statement of a handler checks stays checked. -/
theorem checked_traced {α β : Type} {signed : Signed} {refusal : String} {ofJson : Json Bytes → Option α}
    {apply : Wire → α → Handler β}
    (h : ∀ past vault key r, Checked now past signed vault key → Reads ofJson signed.body r →
      Traced (Statement now req) (OnOk fun _ _ => True) past (apply vault r).run) :
    Traced (Statement now req) (OnOk fun _ _ => True) past (do
      let (vault, _) ← authorize now signed refusal
      let r ← jsonBody ofJson signed.body
      apply vault r : Handler β).run := by
  refine Traced.bindExcept ((authorize_traced signed refusal).imp (fun _ _ _ h => h) fun past a ha => ?_)
  cases a with
  | error e => trivial
  | ok a =>
    obtain ⟨vault, key⟩ := a
    exact Traced.bindExcept (Traced.liftExcept fun r hr => h past vault key r ha (jsonBody_ok hr))

theorem head_traced {vault : Wire} {n : Nat} :
    Traced (Statement now req) (OnOk fun _ _ => True) past (do
      let head ← Db.selectHead vault
      return ⟨head, n⟩ : Handler PushResp).run :=
  Traced.bindExcept (read_traced (f := fun db => db.head vault) fun _ => trivial)

theorem approve_traced (signed : Signed) :
    Traced (Statement now (.post .approve signed)) (OnOk fun _ _ => True) past (approve now signed).run := by
  refine checked_traced fun past vault key r hc hr => ?_
  unfold applyApprove
  refine Traced.bindExcept (Traced.liftExcept fun target ht => ?_)
  refine Traced.bindExcept (Traced.liftExcept fun wrapped hw => ?_)
  refine Traced.bindExcept (stmt_traced (fun _ => .approveDevice rfl hc hr (orReject_ok ht) (orReject_ok hw)) fun _ => ?_)
  split
  · exact Traced.throw
  · exact head_traced

theorem revoke_traced (signed : Signed) :
    Traced (Statement now (.post .revoke signed)) (OnOk fun _ _ => True) past (revoke now signed).run := by
  refine checked_traced fun past vault key r hc hr => ?_
  unfold applyRevoke
  refine Traced.bindExcept (Traced.liftExcept fun target ht => ?_)
  refine Traced.bindExcept (stmt_traced (fun _ => .revokeDevice rfl hc hr (orReject_ok ht)) fun _ => ?_)
  split
  · exact Traced.throw
  · exact head_traced

theorem shareGrant_traced (signed : Signed) :
    Traced (Statement now (.post .shareGrant signed)) (OnOk fun _ _ => True) past (shareGrant now signed).run := by
  refine checked_traced fun past vault key r hc hr => ?_
  unfold applyShareGrant decodeShare
  refine Traced.bindExcept (Traced.liftExcept fun share hs => ?_)
  refine Traced.bindExcept (stmt_traced (fun _ => .raiseShareEpoch rfl hc hr (orReject_ok hs)) fun db => ?_)
  refine forEach_traced (hc.cons _) (fun past hc c hw => ?_) fun _ _ _ => head_traced
  exact Traced.atom (fun _ => .upsertMember rfl hc hr (orReject_ok hs) hw) fun _ => hc.cons _

theorem push_traced (signed : Signed) :
    Traced (Statement now (.post .push signed)) (OnOk fun _ _ => True) past (push now signed).run := by
  refine checked_traced fun past vault key r hc hr => ?_
  unfold applyPush
  refine forEach_traced hc (fun past hc c he => ?_) fun _ _ _ => head_traced
  exact Traced.atom (fun _ => .insertEntry rfl hc hr he) fun _ => hc.cons _

theorem noted_traced {α β : Type} {signed : Signed} {refusal : String} {e : HttpError} {ofJson : Json Bytes → Option α}
    {apply : Wire → α → Handler β}
    (h : ∀ past vault key r, Checked now past signed vault key → Reads ofJson signed.body r →
      Traced (Statement now req) (OnOk fun _ _ => True) past (apply vault r).run) :
    Traced (Statement now req) (OnOk fun _ _ => True) past (do
      let (vault, _) ← authorize now signed refusal
      if ¬ (← markSeen now.markSeen signed.sig) then throw e
      let r ← jsonBody ofJson signed.body
      apply vault r : Handler β).run := by
  refine Traced.bindExcept ((authorize_traced signed refusal).imp (fun _ _ _ h => h) fun past a ha => ?_)
  cases a with
  | error e => trivial
  | ok a =>
    obtain ⟨vault, key⟩ := a
    refine Traced.bindExcept ?_
    unfold markSeen
    refine Traced.bindExcept (Traced.liftExcept fun sig hsig => ?_)
    refine Traced.bindExcept (stmt_traced (fun _ => .deleteExpired) fun atDelete => ?_)
    refine stmt_traced (fun _ => .insertSeen (Checked.cons ha _) (orReject_ok hsig)) fun atInsert => ?_
    split
    · exact Traced.throw
    · exact Traced.bindExcept (Traced.liftExcept fun r hr =>
        h _ vault key r ((Checked.cons ha _).cons _) (jsonBody_ok hr))

theorem applyRotate_traced {signed : Signed} {vault : Wire} {key : EdKey} {r : RotateReq}
    (hc : Checked now past signed vault key) (hr : Reads RotateReq.ofJson signed.body r) :
    Traced (Statement now (.post .rotate signed)) (OnOk fun _ _ => True) past (applyRotate vault r).run := by
  unfold applyRotate
  refine Traced.bindExcept (stmt_traced (fun _ => .bumpEpoch rfl hc hr) fun db => ?_)
  split
  · exact Traced.throw
  refine forEach_traced (hc.cons _) (fun past hc c hw => ?_) fun _ _ _ => head_traced
  exact Traced.atom (fun _ => .rewrapDevice rfl hc hr hw) fun _ => hc.cons _

theorem applyShareRotate_traced {signed : Signed} {vault : Wire} {key : EdKey} {r : ShareRotateReq}
    (hc : Checked now past signed vault key) (hr : Reads ShareRotateReq.ofJson signed.body r) :
    Traced (Statement now (.post .shareRotate signed)) (OnOk fun _ _ => True) past (applyShareRotate vault r).run := by
  unfold applyShareRotate decodeShare
  refine Traced.bindExcept (Traced.liftExcept fun share hs => ?_)
  have hrest : ∀ past, Checked now past signed vault key →
      Traced (Statement now (.post .shareRotate signed)) (OnOk fun _ _ => True) past (do
        let _ ← forEach decodeRemoved (Db.deleteMember vault share) r.remove
        let _ ← forEach decodeWrap (fun w => Db.rewrapMember vault share w.1 w.2) r.wrapped
        let head ← Db.selectHead vault
        return ⟨head, 0⟩ : Handler PushResp).run := by
    intro past hc
    refine forEach_traced hc (fun past hc c ht => ?_) fun past hc _ => ?_
    · exact Traced.atom (fun _ => .deleteMember rfl hc hr (orReject_ok hs) ht) fun _ => hc.cons _
    · refine forEach_traced hc (fun past hc c hw => ?_) fun _ _ _ => head_traced
      exact Traced.atom (fun _ => .rewrapMember rfl hc hr (orReject_ok hs) hw) fun _ => hc.cons _
  unfold advanceShare
  refine Traced.bindExcept (Traced.bindExcept (stmt_traced (fun _ => .bumpShareEpoch rfl hc hr (orReject_ok hs))
    fun atBump => ?_))
  split
  · refine Traced.bindExcept (stmt_traced (fun _ => .insertShare rfl (hc.cons _) hr (orReject_ok hs)) fun atInsert => ?_)
    split
    · exact Traced.throw
    · exact hrest _ ((hc.cons _).cons _)
  · exact hrest _ (hc.cons _)

theorem recover_traced (r : RecoverReq) :
    Traced (Statement now (.recover r)) (OnOk fun _ _ => True) past (recover r).run := by
  unfold recover
  refine Traced.bindExcept (Traced.liftExcept fun recovery hrec => ?_)
  refine Traced.bindExcept (Traced.liftExcept fun ed hed => ?_)
  refine Traced.bindExcept (Traced.liftExcept fun sig hsig => ?_)
  split
  · exact Traced.throw
  rename_i heq
  obtain rfl := not_not.mp heq
  refine Traced.bindExcept (read_traced (f := fun db => db.vaultByRecovery (.ed recovery)) fun before => ?_)
  refine Traced.bindExcept (Traced.liftExcept fun vault hvault => ?_)
  refine Traced.bindExcept (Traced.liftExcept fun x hx => ?_)
  refine Traced.bindExcept (stmt_traced (fun _ => .recoverDevice rfl (orReject_ok hrec) (orReject_ok hed) (orReject_ok hsig)
    rfl (orReject_ok hvault) (orReject_ok hx)) fun _ => ?_)
  trivial

/-- **Every handler** runs nothing but these statements. -/
theorem route_traced (now : Now) (req : Request) :
    Traced (Statement now req) (fun _ _ => True) [] (route now req).run := by
  have hany : ∀ {p : Handler Reply}, Traced (Statement now req) (OnOk fun _ _ => True) [] p.run →
      Traced (Statement now req) (fun _ _ => True) [] p.run := fun h => h.imp (fun _ _ _ h => h) fun _ _ _ => trivial
  cases req with
  | post e signed =>
    cases e with
    | enroll => exact hany (map_traced ((enroll_traced signed).imp (fun _ _ _ h => h) fun _ r _ => by cases r <;> trivial))
    | approve => exact hany (map_traced (approve_traced signed))
    | revoke => exact hany (map_traced (revoke_traced signed))
    | rotate => exact hany (map_traced (noted_traced fun _ _ _ _ hc hr => applyRotate_traced hc hr))
    | shareGrant => exact hany (map_traced (shareGrant_traced signed))
    | shareRotate => exact hany (map_traced (noted_traced fun _ _ _ _ hc hr => applyShareRotate_traced hc hr))
    | push => exact hany (map_traced (push_traced signed))
  | recover r => exact hany (map_traced (recover_traced r))
  | shares q =>
    refine hany (map_traced (Traced.bindExcept ((authorize_traced _ _).imp (fun _ _ _ h => h) fun past a ha => ?_)))
    cases a with
    | error e => trivial
    | ok a => exact Traced.bindExcept (read_traced (f := fun db => (db.membershipsOf a.1 (.ed a.2)).map fun m : MemberRow =>
        (m, (db.shareEpoch a.1 m.shareId).getD 0)) fun _ => trivial)
  | devices q =>
    refine hany (map_traced (Traced.bindExcept ((authorize_traced _ _).imp (fun _ _ _ h => h) fun past a ha => ?_)))
    cases a with
    | error e => trivial
    | ok a => exact Traced.bindExcept (read_traced (f := fun db => db.devicesOf a.1) fun _ => trivial)
  | wrapped q =>
    refine hany (map_traced (Traced.bindExcept (Traced.liftExcept fun a ha => ?_)))
    refine Traced.bindExcept (read_traced (f := fun db => db.device a.1 (.ed a.2)) fun db => ?_)
    refine Traced.bindExcept (Traced.liftExcept fun row hrow => ?_)
    split
    · exact Traced.throw
    · exact Traced.bindExcept (read_traced (f := fun db => db.epoch a.1) fun _ => trivial)
  | pull q =>
    refine hany (map_traced (Traced.bindExcept ((authorize_traced _ _).imp (fun _ _ _ h => h) fun past a ha => ?_)))
    cases a with
    | error e => trivial
    | ok a =>
      refine Traced.bindExcept (read_traced (f := fun db => (db.entries.filter (db.visible a.1 (.ed a.2) q.since)).insertionSort
        (·.seq ≤ ·.seq)) fun _ => ?_)
      exact Traced.bindExcept (read_traced (f := fun db => db.head a.1) fun _ => trivial)

end

end SshVault.Relay
