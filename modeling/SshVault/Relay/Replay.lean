import SshVault.Relay.Binding
import SshVault.Relay.Revocation

/-!
# Replays

`enroll`, `approve`, `revoke`, `push` and `share_grant` keep no note of the signatures they have
seen. An envelope that one of them accepted is accepted again inside its window, and does again
whatever later requests have undone.
-/

open Lib Prog

namespace SshVault.Relay

/-! ## Accepted envelopes -/

/-- The endpoints without a seen-signature check. -/
def Replayable : Endpoint → Prop
  | .rotate => False
  | .shareRotate => False
  | _ => True

/-- Every element of the request's list decodes. -/
def Decodes : ClientReq → Prop
  | .shareGrant _ _ wrapped => ∀ w ∈ wrapped, ∃ p, decodeWrap w = .ok p
  | .push r => ∀ e ∈ r.entries, ∃ p, decodeEntry e = .ok p
  | _ => True

/-- The envelope was signed by this key, and this is its body as the endpoint reads it. -/
structure Accepted (signed : Signed) (e : Endpoint) (key : EdKey) (j : Json Bytes) (r : ClientReq) : Prop where
  signed_eq : signed = { envelope signed.vaultId key signed.ts (.json j) with vaultId := signed.vaultId }
  decoded : decodeAt j e = some r
  decodes : Decodes r

theorem decodeEd_eq {t : Wire} {k : EdKey} (h : t.decodeEd = some k) : t = .b64 (.ed k) := by
  unfold Text.decodeEd at h
  split at h
  · rename_i k' hdec
    obtain rfl := Option.some.inj h
    unfold Text.decode at hdec
    split at hdec
    · rw [Option.some.inj hdec]
    · split at hdec <;> cases hdec
  · cases h

theorem signature_eq {t : Text Sig} {s : Sig} (h : t.signature = some s) : t = .b64 s := by
  cases t with
  | b64 s' => rw [Option.some.inj h]
  | plain _ => cases h

theorem signed_of_verify {now : Now} {signed : Signed} {vault : Wire} {key : EdKey} {j : Json Bytes}
    (h : verify now.verify signed = .ok (vault, key)) (hj : signed.body = .json j) :
    signed = { envelope signed.vaultId key signed.ts (.json j) with vaultId := signed.vaultId } := by
  obtain ⟨-, -, hkey, hsig⟩ := verify_ok h
  obtain ⟨v, d, s, ts, body⟩ := signed
  obtain rfl : d = .b64 (.ed key) := decodeEd_eq hkey
  obtain rfl : body = .json j := hj
  obtain rfl : s = .b64 ⟨key, .request ts (.json j)⟩ := signature_eq hsig
  rfl

theorem map_ok {α β : Type} {p : Handler α} {f : α → β} {db : Db} {b : β}
    (h : (exec (do return f (← p)) db).1 = .ok b) : ∃ a, (exec p db).1 = .ok a := by
  rw [exec_bind] at h
  rcases hp : exec p db with ⟨e | a, d⟩
  · rw [hp] at h
    cases h
  · exact ⟨a, rfl⟩

variable {now : Now} {db : Db}

theorem authorized_ok {α β : Type} {signed : Signed} {refusal : String} {ofJson : Json Bytes → Option α}
    {apply : Wire → α → Handler β} {b : β}
    (h : (exec (do
      let (vault, _) ← authorize now signed refusal
      let req ← jsonBody ofJson signed.body
      apply vault req : Handler β) db).1 = .ok b) :
    ∃ vault key r, verify now.verify signed = .ok (vault, key) ∧ Reads ofJson signed.body r ∧
      (exec (apply vault r) db).1 = .ok b := by
  revert h
  refine ends_authorize (P := fun out => out.1 = .ok b → _) (fun vault key ha => ?_) (fun e h => nomatch h)
  refine ends_except (P := fun out => out.1 = .ok b → _) (fun r hr => ?_) (fun e _ h => nomatch h)
  exact fun h => ⟨vault, key, r, ha.verified, jsonBody_ok hr, h⟩

theorem loop_ok {β γ : Type} {decode : β → Except HttpError γ} {stmt : γ → Prog Db Nat} {l : List β}
    {f : Nat → Handler PushResp} {b : PushResp} (h : (exec (forEach decode stmt l >>= f) db).1 = .ok b) :
    ∀ b ∈ l, ∃ c, decode b = .ok c := by
  revert h
  refine ends_bind (P := fun out => out.1 = .ok b → _) (fun n d hd _ => ?_) (fun e d _ h => nomatch h)
  exact (forEach_ok_iff decode stmt l db).mp ⟨n, by rw [hd]⟩

theorem applyShareGrant_ok {vault : Wire} {r : ShareGrantReq} {b : PushResp}
    (h : (exec (applyShareGrant vault r) db).1 = .ok b) : ∀ w ∈ r.wrapped, ∃ p, decodeWrap w = .ok p := by
  unfold applyShareGrant at h
  revert h
  refine ends_except (P := fun out => out.1 = .ok b → _) (fun share _ => ?_) (fun e _ h => nomatch h)
  exact ends_lift (P := fun out => out.1 = .ok b → _) loop_ok

theorem accepted_of_ok {signed : Signed} {e : Endpoint} {reply : Reply} (he : Replayable e)
    (h : (exec (post now signed e) db).1 = .ok reply) : ∃ key j r, Accepted signed e key j r := by
  cases e with
  | enroll =>
    obtain ⟨b, hb⟩ := map_ok h
    revert hb
    unfold enroll
    refine ends_except (P := fun out => out.1 = .ok b → _) (fun ⟨vault, key⟩ hv => ?_) (fun e _ h => nomatch h)
    refine ends_except (P := fun out => out.1 = .ok b → _) (fun r hr _ => ?_) (fun e _ h => nomatch h)
    obtain ⟨j, hj, hdec⟩ := jsonBody_ok hr
    exact ⟨key, j, .enroll r, signed_of_verify hv hj, by rw [decodeAt, hdec]; rfl, trivial⟩
  | approve =>
    obtain ⟨b, hb⟩ := map_ok h
    obtain ⟨vault, key, r, hv, ⟨j, hj, hdec⟩, -⟩ := authorized_ok hb
    exact ⟨key, j, .approve r, signed_of_verify hv hj, by rw [decodeAt, hdec]; rfl, trivial⟩
  | revoke =>
    obtain ⟨b, hb⟩ := map_ok h
    obtain ⟨vault, key, r, hv, ⟨j, hj, hdec⟩, -⟩ := authorized_ok hb
    exact ⟨key, j, .revoke r, signed_of_verify hv hj, by rw [decodeAt, hdec]; rfl, trivial⟩
  | rotate => exact he.elim
  | shareGrant =>
    obtain ⟨b, hb⟩ := map_ok h
    obtain ⟨vault, key, r, hv, ⟨j, hj, hdec⟩, hrun⟩ := authorized_ok hb
    exact ⟨key, j, .shareGrant r.shareId (Fin.ofNat _ r.epoch) r.wrapped, signed_of_verify hv hj,
      by rw [decodeAt, hdec]; rfl, applyShareGrant_ok hrun⟩
  | shareRotate => exact he.elim
  | push =>
    obtain ⟨b, hb⟩ := map_ok h
    obtain ⟨vault, key, r, hv, ⟨j, hj, hdec⟩, hrun⟩ := authorized_ok hb
    exact ⟨key, j, .push r, signed_of_verify hv hj, by rw [decodeAt, hdec]; rfl, loop_ok hrun⟩

/-! ## Rejections -/

/-- A rejection leaves the tables as they were. -/
def Clean {α : Type} (out : Except HttpError α × Db) (db : Db) : Prop := (∃ e, out.1 = .error e) → SameTables db out.2

theorem Clean.inert_iff {α : Type} {out : Except HttpError α × Db} (h : Clean out db) :
    Inert out db ↔ SameTables db out.2 :=
  ⟨fun hi => hi.elim h id, Or.inr⟩

theorem clean_error {α : Type} {e : HttpError} : Clean ((.error e : Except HttpError α), db) db :=
  fun _ => .refl db

theorem clean_ok {α : Type} {a : α} {db' : Db} : Clean (.ok a, db') db := fun ⟨_, h⟩ => nomatch h

theorem map_clean {α β : Type} {p : Handler α} {f : α → β} (h : Clean (exec p db) db) :
    Clean (exec (do return f (← p)) db) db := by
  refine ends_bind (P := (Clean · db)) (fun a d _ => clean_ok) (fun e d hd _ => ?_)
  have hd' := h ⟨e, by rw [hd]⟩
  rwa [hd] at hd'

theorem loop_clean {β γ : Type} {decode : β → Except HttpError γ} {stmt : γ → Prog Db Nat} {l : List β}
    {vault : Wire} (stored : Nat → Nat) {db' : Db} (h : ∀ b ∈ l, ∃ c, decode b = .ok c) :
    Clean (exec (do
        let n ← forEach decode stmt l
        let head ← Db.selectHead vault
        return ⟨head, stored n⟩ : Handler PushResp) db') db := by
  obtain ⟨n, hn⟩ := (forEach_ok_iff decode stmt l db').mpr h
  refine ends_bind (P := (Clean · db)) (fun n d _ => clean_ok) (fun e d hd => ?_)
  rw [hd] at hn
  cases hn

theorem applyEnroll_clean (vault : Wire) (key : EdKey) (devicePub : Wire) (r : EnrollReq) :
    Clean (exec (applyEnroll vault key devicePub r) db) db := by
  unfold applyEnroll
  dsimp only
  split
  · exact clean_error
  refine ends_lift (P := (Clean · db)) ?_
  split
  · exact clean_error
  refine ends_except (P := (Clean · db)) (fun x _ => ?_) (fun _ _ => clean_error)
  refine ends_except (P := (Clean · db)) (fun recovery _ => ?_) (fun _ _ => clean_error)
  exact clean_ok

theorem update_clean {vault : Wire} {p : DeviceRow → Bool} {f : DeviceRow → DeviceRow} {e : HttpError} :
    Clean (exec (if Table.affected p db.devices = 0 then do
        let _ ← (throw e : Handler PUnit)
        let head ← Db.selectHead vault
        return (⟨head, 0⟩ : PushResp)
      else do
        let head ← Db.selectHead vault
        return ⟨head, 0⟩ : Handler PushResp) { db with devices := Table.update p f db.devices }) db := by
  split
  · rename_i hnone
    exact fun _ => sameTables_devices.mpr (Table.update_of_unaffected hnone)
  · exact clean_ok

theorem applyApprove_clean (vault : Wire) (r : ApproveReq) : Clean (exec (applyApprove vault r) db) db := by
  unfold applyApprove
  refine ends_except (P := (Clean · db)) (fun target _ => ?_) (fun _ _ => clean_error)
  refine ends_except (P := (Clean · db)) (fun wrapped _ => ?_) (fun _ _ => clean_error)
  exact ends_lift (P := (Clean · db)) update_clean

theorem applyRevoke_clean (vault : Wire) (r : RevokeReq) : Clean (exec (applyRevoke vault r) db) db := by
  unfold applyRevoke
  refine ends_except (P := (Clean · db)) (fun target _ => ?_) (fun _ _ => clean_error)
  exact ends_lift (P := (Clean · db)) update_clean

theorem applyShareGrant_clean (vault : Wire) {r : ShareGrantReq} (h : ∀ w ∈ r.wrapped, ∃ p, decodeWrap w = .ok p) :
    Clean (exec (applyShareGrant vault r) db) db := by
  unfold applyShareGrant
  refine ends_except (P := (Clean · db)) (fun share _ => ?_) (fun _ _ => clean_error)
  exact ends_lift (P := (Clean · db)) (loop_clean (fun _ => 0) h)

theorem authorized_clean {α β : Type} {signed : Signed} {refusal : String} {ofJson : Json Bytes → Option α}
    {apply : Wire → α → Handler β}
    (h : ∀ vault r, Reads ofJson signed.body r → Clean (exec (apply vault r) db) db) :
    Clean (exec (do
      let (vault, _) ← authorize now signed refusal
      let req ← jsonBody ofJson signed.body
      apply vault req : Handler β) db) db := by
  refine ends_authorize (P := (Clean · db)) (fun vault key _ => ?_) (fun _ => clean_error)
  exact ends_except (P := (Clean · db)) (fun r hr => h vault r (jsonBody_ok hr)) (fun _ _ => clean_error)

/-- An envelope that was accepted once is done in full or not at all. -/
theorem Accepted.clean {signed : Signed} {e : Endpoint} {key : EdKey} {j : Json Bytes} {r : ClientReq}
    (h : Accepted signed e key j r) (he : Replayable e) : Clean (exec (post now signed e) db) db := by
  have hbody : signed.body = .json j := congrArg Signed.body h.signed_eq
  have hdec := h.decoded
  cases e with
  | enroll =>
    refine map_clean ?_
    unfold enroll
    refine ends_except (P := (Clean · db)) (fun ⟨vault, key⟩ _ => ?_) (fun _ _ => clean_error)
    exact ends_except (P := (Clean · db)) (fun r _ => applyEnroll_clean vault key _ r) (fun _ _ => clean_error)
  | approve => exact map_clean (authorized_clean fun vault r _ => applyApprove_clean vault r)
  | revoke => exact map_clean (authorized_clean fun vault r _ => applyRevoke_clean vault r)
  | rotate => exact he.elim
  | shareGrant =>
    refine map_clean (authorized_clean fun vault req hreq => applyShareGrant_clean vault ?_)
    obtain ⟨j', hj', hdec'⟩ := hreq
    obtain rfl := Body.json.inj (hbody.symm.trans hj')
    rw [decodeAt, hdec'] at hdec
    have hall := h.decodes
    rw [← Option.some.inj hdec] at hall
    exact hall
  | shareRotate => exact he.elim
  | push =>
    refine map_clean (authorized_clean fun vault req hreq => loop_clean (fun n => n) ?_)
    obtain ⟨j', hj', hdec'⟩ := hreq
    obtain rfl := Body.json.inj (hbody.symm.trans hj')
    rw [decodeAt, hdec'] at hdec
    have hall := h.decodes
    rw [← Option.some.inj hdec] at hall
    exact hall

/-! ## Pushed entries -/

theorem runAll_insertEntry_stays {vault : Wire} {l : List (Bytes × Bytes × Uuid)} {k : Wire × Bytes}
    (h : ∃ row ∈ db.entries, row.key = k) :
    ∃ row ∈ (runAll (fun e => Db.insertEntry vault e.1 e.2.1 e.2.2) l db).entries, row.key = k := by
  induction l generalizing db with
  | nil => exact h
  | cons e l ih =>
    obtain ⟨row, hrow, hk⟩ := h
    refine ih ⟨row, ?_, hk⟩
    change row ∈ Table.insertOrIgnore EntryRow.key _ db.entries
    unfold Table.insertOrIgnore
    split
    · exact hrow
    · exact List.mem_append_left _ hrow

theorem runAll_insertEntry_stored {vault : Wire} {l : List (Bytes × Bytes × Uuid)} :
    ∀ e ∈ l, ∃ row ∈ (runAll (fun e => Db.insertEntry vault e.1 e.2.1 e.2.2) l db).entries, row.key = (vault, e.1) := by
  induction l generalizing db with
  | nil => simp
  | cons e l ih =>
    intro e' he'
    rcases List.mem_cons.mp he' with rfl | he'
    · refine @runAll_insertEntry_stays ((Db.insertEntry vault e'.1 e'.2.1 e'.2.2).run db).2 _ _ _ ?_
      change ∃ row ∈ Table.insertOrIgnore EntryRow.key ⟨vault, db.nextSeq, e'.1, e'.2.1, e'.2.2⟩ db.entries,
        row.key = (vault, e'.1)
      unfold Table.insertOrIgnore
      split
      · rename_i hold
        exact hold
      · exact ⟨_, List.mem_append_right _ List.mem_cons_self, rfl⟩
    · exact ih e' he'

theorem Effect.entry_stays {db' : Db} {req : Request} (h : Effect now db req db') {k : Wire × Bytes}
    (hk : ∃ row ∈ db.entries, row.key = k) : ∃ row ∈ db'.entries, row.key = k := by
  cases h with
  | same h => rwa [h.entries]
  | enroll => exact hk
  | approve => exact hk
  | revoke => exact hk
  | rotate => rwa [runAll_frame Db.entries (fun _ _ => rfl)]
  | shareGrant => rwa [runAll_frame Db.entries (fun _ _ => rfl)]
  | shareRotate => rwa [runAll_frame Db.entries (fun _ _ => rfl), runAll_frame Db.entries (fun _ _ => rfl)]
  | push => exact runAll_insertEntry_stays hk
  | recover => exact hk

theorem afterAll_entry_stays {k : Wire × Bytes} (run : List (Now × Request)) (hk : ∃ row ∈ db.entries, row.key = k) :
    ∃ row ∈ (afterAll db run).entries, row.key = k := by
  induction run generalizing db with
  | nil => exact hk
  | cons q rest ih => exact ih ((route_effect q.1 q.2 db).entry_stays hk)

theorem push_stored {signed : Signed} {key : EdKey} {j : Json Bytes} {r : PushReq} {reply : Reply}
    (h : Accepted signed .push key j (.push r)) (hok : (exec (post now signed .push) db).1 = .ok reply) :
    ∀ e ∈ r.entries, ∀ p, decodeEntry e = .ok p →
      ∃ row ∈ (exec (post now signed .push) db).2.entries, row.key = (signed.vaultId, p.1) := by
  have hbody : signed.body = .json j := congrArg Signed.body h.signed_eq
  obtain ⟨b, hb⟩ := map_ok hok
  unfold post
  rw [after_map]
  revert hb
  unfold push
  refine ends_authorize (P := fun out => out.1 = .ok b → ∀ e ∈ r.entries, ∀ p, decodeEntry e = .ok p →
    ∃ row ∈ out.2.entries, row.key = (signed.vaultId, p.1)) (fun vault key ha => ?_) (fun e h => nomatch h)
  obtain ⟨-, rfl, -, -⟩ := verify_ok ha.verified
  refine ends_except (P := fun out => out.1 = .ok b → ∀ e ∈ r.entries, ∀ p, decodeEntry e = .ok p →
    ∃ row ∈ out.2.entries, row.key = (signed.vaultId, p.1)) (fun r' hr' hb => ?_) (fun e _ h => nomatch h)
  obtain ⟨j', hj', hdec'⟩ := jsonBody_ok hr'
  obtain rfl := Body.json.inj (hbody.symm.trans hj')
  have hdec := h.decoded
  rw [decodeAt, hdec'] at hdec
  obtain rfl := ClientReq.push.inj (Option.some.inj hdec)
  intro e he p hp
  revert hb
  unfold applyPush
  have hall : ∀ b ∈ r'.entries, ∃ c, decodeEntry b = .ok c := h.decodes
  refine after_forEach (P := fun d => _ → ∃ row ∈ d.entries, row.key = (signed.vaultId, p.1)) fun ran _ hran => ?_
  obtain ⟨p', hp', hdec''⟩ := mem_of_mapM_ok (hran hall) he
  obtain rfl := Except.ok.inj (hp.symm.trans hdec'')
  exact ⟨fun _ _ => runAll_insertEntry_stored p hp', fun n _ => runAll_insertEntry_stored p hp'⟩

/-! ## Every replay -/

/-- **Replays.** An envelope that an endpoint accepted is delivered to it again, after any run and
inside its window. A push changes nothing. Any other request changes nothing exactly when
the database at that point already has what the request writes, or its signer may not write. -/
theorem replay_same_iff (before between : List (Now × Request)) (e : Endpoint) (signed : Signed) (now now' : Now)
    (reply : Reply) (he : Replayable e) (hok : (exec (route now (.post e signed)) (afterAll {} before)).1 = .ok reply)
    (hwin : inWindow now'.verify signed.ts = true) :
    SameTables (afterAll {} (before ++ (now, .post e signed) :: between))
        (exec (route now' (.post e signed)) (afterAll {} (before ++ (now, .post e signed) :: between))).2 ↔
      e = .push ∨ ∃ key j r, signed.devicePub.decodeEd = some key ∧ signed.body = .json j ∧ decodeAt j e = some r ∧
        ¬ Changes (afterAll {} (before ++ (now, .post e signed) :: between)) now' signed.vaultId key
          ⟨key, .request signed.ts signed.body⟩ r := by
  obtain ⟨key, j, r, hacc⟩ := accepted_of_ok he hok
  have hbody : signed.body = .json j := congrArg Signed.body hacc.signed_eq
  have hpub : signed.devicePub = .b64 (.ed key) := congrArg Signed.devicePub hacc.signed_eq
  generalize hdb : afterAll {} (before ++ (now, .post e signed) :: between) = db
  -- A replay decodes to what the first delivery did.
  have hsame : SameTables db (exec (route now' (.post e signed)) db).2 ↔
      ¬ Changes db now' signed.vaultId key ⟨key, .request signed.ts signed.body⟩ r := by
    rw [hbody]
    refine ((hacc.clean he).inert_iff).symm.trans ?_
    have := post_inert key (j := j) signed.vaultId signed.vaultId e db hwin
    rw [← hacc.signed_eq] at this
    refine this.trans ⟨fun h => h r hacc.decoded, fun h r' hr' => ?_⟩
    obtain rfl := Option.some.inj (hacc.decoded.symm.trans hr')
    exact h
  rw [hsame]
  constructor
  · intro h
    exact Or.inr ⟨key, j, r, by rw [hpub]; rfl, hbody, hacc.decoded, h⟩
  · rintro (rfl | ⟨key', j', r', hkey', hj', hr', h⟩)
    · -- The entries of the first delivery are still there.
      have hdec := hacc.decoded
      unfold decodeAt at hdec
      obtain ⟨r₀, hr₀, rfl⟩ := Option.map_eq_some_iff.mp hdec
      rintro ⟨-, -, e, he, p, hp, hnew⟩
      have hafter : db = afterAll (exec (route now (.post .push signed)) (afterAll {} before)).2 between := by
        rw [← hdb]
        unfold afterAll
        rw [List.foldl_append, List.foldl_cons]
      obtain ⟨row, hrow, hk⟩ := afterAll_entry_stays between (push_stored hacc hok e he p hp)
      exact hnew row (by rw [hafter]; exact hrow) hk
    · rw [hpub] at hkey'
      obtain rfl := Option.some.inj hkey'
      obtain rfl := Body.json.inj (hbody.symm.trans hj')
      obtain rfl := Option.some.inj (hacc.decoded.symm.trans hr')
      exact h

/-! ### A grant after a removal -/

def shareFive : Wire := .b64 (.uuid 5)

/-- The first device lets the second one into a share, under one key. -/
def grantPhone : Signed :=
  envelope vaultOne (.device 0) 1000 (.json (ClientReq.toJson (.shareGrant shareFive 0
    [⟨.b64 (.ed (.device 1)), .b64 (Crypto.wrapVaultKey { keys := [.random 5 0 0] } (.x 1) (.ed (.device 1)))⟩])))

/-- It removes the second device again, and moves the share to its next epoch. -/
def removePhone : Request :=
  .post .shareRotate (envelope vaultOne (.device 0) 1001 (.json (ClientReq.toJson (.shareRotate shareFive 1 []
    [.b64 (.ed (.device 1))]))))

theorem grantPhone_accepted :
    (exec (route 1000 (.post .shareGrant grantPhone)) (afterAll {} joined)).1 = .ok (.push ⟨0, 0⟩) := by
  decide +kernel

theorem replay_same_iff_grantPhone :
    SameTables (afterAll {} (joined ++ [(1000, .post .shareGrant grantPhone)]))
        (exec (route 1002 (.post .shareGrant grantPhone)) (afterAll {} (joined ++ [(1000, .post .shareGrant grantPhone)]))).2 ↔
      Endpoint.shareGrant = .push ∨ ∃ key j r, grantPhone.devicePub.decodeEd = some key ∧ grantPhone.body = .json j ∧
        decodeAt j .shareGrant = some r ∧
        ¬ Changes (afterAll {} (joined ++ [(1000, .post .shareGrant grantPhone)])) 1002 grantPhone.vaultId key
          ⟨key, .request grantPhone.ts grantPhone.body⟩ r :=
  replay_same_iff joined [] .shareGrant grantPhone 1000 1002 _ trivial grantPhone_accepted (by decide +kernel)

/-- The relay answers every request of the run. -/
def AllAccepted : Db → List (Now × Request) → Prop
  | _, [] => True
  | db, q :: rest => (exec (route q.1 q.2) db).1.isOk = true ∧ AllAccepted (exec (route q.1 q.2) db).2 rest

/-- The grant, delivered again after the removal, makes the second device a member again. -/
theorem replayed_grant_readmits :
    ¬ ∀ (before between : List (Now × Request)) (e : Endpoint) (signed : Signed) (now now' : Now) (reply : Reply),
      Replayable e → (exec (route now (.post e signed)) (afterAll {} before)).1 = .ok reply →
      inWindow now'.verify signed.ts = true →
      AllAccepted (exec (route now (.post e signed)) (afterAll {} before)).2 between →
      SameTables (afterAll {} (before ++ (now, .post e signed) :: between))
        (exec (route now' (.post e signed)) (afterAll {} (before ++ (now, .post e signed) :: between))).2 := by
  intro h
  have hmembers := (h joined [(1001, removePhone)] .shareGrant grantPhone 1000 1002 _ trivial grantPhone_accepted
    (by decide +kernel) ⟨by decide +kernel, trivial⟩).shareMembers
  revert hmembers
  decide +kernel

end SshVault.Relay
