import SshVault.Client.Wraps

/-!
# Commands that fail

A rotation and a new share are stored on the device before the relay is told. What can still fail after that
leaves the device with a key that nobody else has.
-/

open Lib

namespace SshVault

open Relay (ClientReq)

namespace Devices

open Sync

variable {first : Bytes → List UInt8} {α β : Type}

/-! ## Clients that have failed -/

/-- With these answers, the client gives up on device `d'`. -/
def Fails (c : Session Device Call Answer (Except ClientError α)) (answers : List Answer) (d' : Device) (e : ClientError) :
    Prop := Session.feed answers c = .done d' (.error e)

variable {d d' : Device} {e : ClientError} {answers : List Answer}

theorem fails_done {r : Except ClientError α} : Fails (.done d r) answers d' e ↔ d' = d ∧ r = .error e := by
  unfold Fails
  have hfeed : Session.feed answers (.done d r : Session Device Call Answer _) = .done d r := by
    cases answers <;> rfl
  rw [hfeed, Session.done.injEq, eq_comm]

theorem fails_ask {call : Call} {k : Answer → Session Device Call Answer (Except ClientError α)} :
    Fails (.ask d call k) answers d' e ↔ ∃ a rest, answers = a :: rest ∧ Fails (k a) rest d' e := by
  unfold Fails
  cases answers with
  | nil => simp [Session.feed]
  | cons a rest => simp [Session.feed]

theorem fails_lift {r : Except ClientError α} {f : α → Op β} :
    Fails (((liftM r : Op α) >>= f) d) answers d' e ↔
      (r = .error e ∧ d' = d) ∨ ∃ a, r = .ok a ∧ Fails (f a d) answers d' e := by
  rw [Client.lift_bind]
  cases r with
  | error e' => simp [fails_done, and_comm]
  | ok a => simp

theorem fails_findByCode {code : String} {f : DeviceInfo → Op α} :
    Fails ((findByCode first code >>= f) d) answers d' e ↔ ∃ a rest, answers = a :: rest ∧
      ((found first code a = .error e ∧ d' = d) ∨ ∃ t, found first code a = .ok t ∧ Fails (f t d) rest d' e) := by
  rw [findByCode_bind, fails_ask]
  simp only [fails_lift]

/-- Whether the relay accepts a request. -/
def accepted (a : Answer) : Except ClientError PushResp := do asPush (← parse a)

theorem fails_post {note : Note} {r : ClientReq} {f : PushResp → Op α} :
    Fails ((do let resp ← asPush (← post note r); f resp : Op α) d) answers d' e ↔ ∃ a rest, answers = a :: rest ∧
      ((accepted a = .error e ∧ d' = d) ∨ ∃ resp, accepted a = .ok resp ∧ Fails (f resp d) rest d' e) := by
  rw [post_bind, fails_ask]
  refine exists₂_congr fun a rest => and_congr_right fun _ => ?_
  unfold accepted
  rw [fails_lift]
  cases parse a with
  | error e' =>
    change _ ↔ (Except.error e' = Except.error e ∧ _) ∨ ∃ resp, (Except.error e' : Except ClientError PushResp) = .ok resp ∧ _
    simp
  | ok reply =>
    refine Iff.trans ?_ fails_lift
    constructor
    · rintro (⟨hnot, -⟩ | ⟨reply', hreply, h⟩)
      · cases hnot
      · obtain rfl := Except.ok.inj hreply
        exact h
    · exact fun h => Or.inr ⟨reply, rfl, h⟩

theorem fails_revoke {code : String} {f : Wire → Op α} :
    Fails ((revoke first code >>= f) d) answers d' e ↔ ∃ a rest, answers = a :: rest ∧
      ((found first code a = .error e ∧ d' = d) ∨ ∃ t, found first code a = .ok t ∧ ∃ a' rest', rest = a' :: rest' ∧
        ((accepted a' = .error e ∧ d' = d) ∨ ∃ resp, accepted a' = .ok resp ∧ Fails (f t.name d) rest' d' e)) := by
  unfold revoke
  rw [Client.bind_assoc, fails_findByCode]
  simp only [Client.bind_assoc]
  refine exists₂_congr fun a rest => and_congr_right fun _ => or_congr_right (exists_congr fun t => and_congr_right fun _ => ?_)
  exact fails_post

theorem fails_onVault {op : Vault → Prog Disk (Except VaultError α × Vault)} {f : α → Op β} :
    Fails ((onVault op >>= f) d) answers d' e ↔
      (∃ err, ((op d.vault).run d.disk).1.1 = .error err ∧ e = .vault err ∧ d' = d.perform op) ∨
        ∃ a, ((op d.vault).run d.disk).1.1 = .ok a ∧ Fails (f a (d.perform op)) answers d' e := by
  unfold onVault Device.perform
  rw [Client.onState_bind]
  rcases (op d.vault).run d.disk with ⟨⟨err | a, v⟩, disk⟩
  · simp [Except.mapError, fails_done, and_comm, eq_comm]
  · simp [Except.mapError]

theorem fails_updateVault {op : Vault → Prog Disk Vault} {f : Unit → Op β} :
    Fails ((updateVault op >>= f) d) answers d' e ↔ Fails (f () (d.update op)) answers d' e := Iff.rfl

/-! ## Clients that only ask -/

/-- Whatever it is answered, the client leaves the device as it is. -/
def Quiet (m : Op α) : Prop := ∀ d, Client.Does (fun _ _ => True) (fun _ _ => True) (fun d' _ => d' = d) (fun d' => d' = d) m d

theorem Quiet.pure {a : α} : Quiet (pure a : Op α) := fun _ => rfl

theorem Quiet.lift {r : Except ClientError α} : Quiet (liftM r : Op α) :=
  fun _ => Client.Does.lift (fun _ _ => rfl) rfl

theorem Quiet.ask {r : Device → Call} : Quiet (Client.ask r : Op Answer) :=
  fun _ => Client.Does.ask trivial fun _ _ => rfl

theorem Quiet.bind {m : Op α} {f : α → Op β} (hm : Quiet m) (hf : ∀ a, Quiet (f a)) : Quiet (m >>= f) := by
  intro d
  refine Client.Does.bind (Client.Does.imp (hm d) (fun d' a hd => ?_) fun _ hd => hd)
  subst hd
  exact hf a d'

theorem Quiet.fails {m : Op α} (h : Quiet m) (hfails : Fails (m d) answers d' e) : d' = d := by
  have hend : Session.Always _ _ _ (Session.feed answers (m d)) := Session.Always.feed (h d) fun _ _ => trivial
  rw [show Session.feed answers (m d) = .done d' (.error e) from hfails] at hend
  exact hend

theorem post_quiet (note : Note) (r : ClientReq) : Quiet (post note r) := Quiet.ask.bind fun _ => .lift

theorem listDevices_quiet (note : Note) : Quiet (listDevices note) :=
  (Quiet.ask.bind fun _ => .lift).bind fun _ => .lift

theorem findByCode_quiet (code : String) : Quiet (findByCode first code) :=
  (listDevices_quiet _).bind fun _ => .lift

theorem wrapForCodes_quiet (list : KeyBytes) (codes : List String) : Quiet (wrapForCodes first list codes) := by
  induction codes with
  | nil => exact .pure
  | cons code codes ih =>
    exact (findByCode_quiet code).bind fun d => Quiet.lift.bind fun w => ih.bind fun ws => .pure

theorem rewrapMembers_quiet (list : KeyBytes) (target : Wire) (members : List Wire) :
    Quiet (rewrapMembers first list target members) := by
  induction members with
  | nil => exact .pure
  | cons pub members ih =>
    unfold rewrapMembers
    split
    · exact ih
    · exact (wrapForCodes_quiet list _).bind fun ws => ih.bind fun more => .pure

theorem send_quiet (note : Note) (r : ClientReq) (a : α) : Quiet (do let _ ← asPush (← post note r); return a) :=
  (post_quiet note r).bind fun _ => Quiet.lift.bind fun _ => .pure

/-! ## Three commands -/

/-- The device that a command began with: its keyring, in memory and on disk, and its log. -/
def Unchanged (d d' : Device) : Prop :=
  d'.vault.keyring = d.vault.keyring ∧ d'.disk.keyring = d.disk.keyring ∧ d'.disk.log = d.disk.log

theorem unchanged_refl : Unchanged d d := ⟨rfl, rfl, rfl⟩

theorem not_unchanged_push {share : Uuid} {key : Key} (h : d'.vault.keyring = d.vault.keyring.pushShareKey share key) :
    ¬ Unchanged d d' := by
  rintro ⟨hsame, -⟩
  have hkeys := congrArg (fun kr => (kr.keysOf share).length) (h.symm.trans hsame)
  simp at hkeys

/-- The relay names one device by the code. -/
def Finds (first : Bytes → List UInt8) (code : String) : List Answer → Prop
  | a :: _ => ∃ t, found first code a = .ok t
  | [] => False

/-- The relay names one device by the code, names one again, and accepts its revocation. -/
def Revokes (first : Bytes → List UInt8) (code : String) : List Answer → Prop
  | a :: a' :: a'' :: _ => (∃ t, found first code a = .ok t) ∧ (∃ t, found first code a' = .ok t) ∧ ∃ resp, accepted a'' = .ok resp
  | _ => False

theorem revokeAndRotate_unchanged_iff {code : String} {phrase : Phrase}
    (h : Fails (revokeAndRotate first code phrase d) answers d' e) :
    Unchanged d d' ↔ (∃ text, phrase = .invalid text) ∨ ¬ Revokes first code answers := by
  unfold revokeAndRotate at h
  obtain ⟨a, rest, rfl, ⟨hfound, rfl⟩ | ⟨t, ht, h⟩⟩ := fails_findByCode.mp h
  · refine iff_of_true unchanged_refl (Or.inr fun hrevokes => ?_)
    match rest, hrevokes with
    | _ :: _ :: _, ⟨⟨t, ht⟩, _⟩ => cases ht.symm.trans hfound
  obtain ⟨a', rest', rfl, ⟨hfound, rfl⟩ | ⟨t', ht', a'', rest'', rfl, ⟨hpost, rfl⟩ | ⟨resp, hresp, h⟩⟩⟩ := fails_revoke.mp h
  · refine iff_of_true unchanged_refl (Or.inr fun hrevokes => ?_)
    match rest', hrevokes with
    | _ :: _, ⟨_, ⟨t, ht⟩, _⟩ => cases ht.symm.trans hfound
  · refine iff_of_true unchanged_refl (Or.inr ?_)
    rintro ⟨-, -, resp, hresp⟩
    cases hresp.symm.trans hpost
  have hrevokes : Revokes first code (a :: a' :: a'' :: rest'') := ⟨⟨t, ht⟩, ⟨t', ht'⟩, resp, hresp⟩
  cases phrase with
  | invalid text =>
    have hrun : (d.vault.rotate (.invalid text)).run d.disk = ((.error (.crypto .badPhrase), d.vault), d.disk) :=
      Vault.run_rotate_error rfl
    obtain ⟨err, -, -, rfl⟩ | ⟨epoch, hepoch, -⟩ := fails_onVault.mp h
    · refine iff_of_true ?_ (Or.inl ⟨text, rfl⟩)
      unfold Device.perform
      rw [hrun]
      exact unchanged_refl
    · rw [hrun] at hepoch
      cases hepoch
  | mnemonic seed =>
    have hrun : (d.vault.rotate (.mnemonic seed)).run d.disk = _ := Vault.run_rotate rfl
    obtain ⟨err, herr, -, -⟩ | ⟨epoch, hepoch, h⟩ := fails_onVault.mp h
    · rw [hrun] at herr
      cases herr
    -- The new key is stored, and nothing after it touches the device.
    refine iff_of_false (not_unchanged_push
      (show d'.vault.keyring = d.vault.keyring.pushShareKey nil (.vault seed (d.vault.epoch + 1)) from ?_)) ?_
    · rw [Client.get_bind] at h
      have hquiet : d' = d.perform (·.rotate (.mnemonic seed)) := by
        refine Quiet.fails ((listDevices_quiet _).bind fun devices => Quiet.lift.bind fun wrapped => ?_) h
        exact send_quiet _ _ _
      rw [hquiet]
      exact d.perform_rotate rfl
    · rintro (⟨text, htext⟩ | hnot)
      · cases htext
      · exact hnot hrevokes

theorem shareRemove_unchanged_iff {share : Uuid} {code : String} {n : Nat}
    (h : Fails (shareRemove first share code n d) answers d' e) :
    Unchanged d d' ↔ d.vault.keyring.hasShare share = false ∨ ¬ Finds first code answers := by
  unfold shareRemove at h
  rw [Client.get_bind] at h
  cases hheld : d.vault.keyring.hasShare share with
  | false =>
    rw [hheld, if_pos (by simp)] at h
    obtain ⟨rfl, -⟩ := fails_done.mp h
    exact iff_of_true unchanged_refl (Or.inl rfl)
  | true =>
    rw [hheld, if_neg (by simp)] at h
    obtain ⟨a, rest, rfl, ⟨hfound, rfl⟩ | ⟨t, ht, h⟩⟩ := fails_findByCode.mp h
    · refine iff_of_true unchanged_refl (Or.inr ?_)
      rintro ⟨t, ht⟩
      cases ht.symm.trans hfound
    have hrun := Vault.run_rotateShare (d := d.disk) n hheld
    obtain ⟨err, herr, -, -⟩ | ⟨epoch, hepoch, h⟩ := fails_onVault.mp h
    · rw [hrun] at herr
      cases herr
    refine iff_of_false (not_unchanged_push (show d'.vault.keyring = d.vault.nextRandom share n from ?_)) ?_
    · rw [Client.get_bind] at h
      have hquiet : d' = d.perform (·.rotateShare share n) := by
        refine Quiet.fails (((listDevices_quiet _).bind fun devices => .pure).bind fun members =>
          (rewrapMembers_quiet _ _ _).bind fun wrapped => ?_) h
        exact send_quiet _ _ _
      rw [hquiet]
      exact d.perform_rotateShare n hheld
    · rintro (hfalse | hnot)
      · cases hfalse
      · exact hnot ⟨t, ht⟩

theorem createShare_unchanged_iff {name : String} {codes : List String} {draw : ShareDraw}
    (h : Fails (createShare first name codes draw d) answers d' e) :
    Unchanged d d' ↔ (resolveShare d.vault draw.ord name).isSome = true := by
  unfold createShare at h
  rw [Client.get_bind] at h
  cases hnamed : (resolveShare d.vault draw.ord name).isSome with
  | true =>
    rw [hnamed, if_pos rfl] at h
    obtain ⟨rfl, -⟩ := fails_done.mp h
    exact iff_of_true unchanged_refl rfl
  | false =>
    rw [hnamed, if_neg (by simp)] at h
    refine iff_of_false (not_unchanged_push (show d'.vault.keyring = d.vault.nextRandom draw.share draw.n from ?_)) (by simp)
    -- The name is recorded, or refused: either way the new key stays.
    have hkept := (d.update (·.createShare draw.share draw.n)).addIn_kept draw.ord .shareName "name" name
      (shareNamePayload name draw.share) nil draw.recordId draw.entryId draw.now
    obtain ⟨err, -, -, rfl⟩ | ⟨id, -, h⟩ := fails_onVault.mp (fails_updateVault.mp h)
    · exact hkept.2
    · rw [Client.get_bind] at h
      have hquiet := Quiet.fails ((wrapForCodes_quiet _ _).bind fun wrapped => (wrapForCodes_quiet _ _).bind fun own =>
        send_quiet _ _ _) h
      rw [hquiet]
      exact hkept.2

/-- **Commands that fail.** The device is as it was exactly when the failure came before the command stored its key:
the relay did not name and revoke the device, or the phrase is not one; the relay did not name the member, or the
device has no such share; the name is taken. -/
theorem failed_unchanged_iff (first : Bytes → List UInt8) (d d' : Device) (e : ClientError) (answers : List Answer) :
    (∀ code phrase, Fails (revokeAndRotate first code phrase d) answers d' e →
      (Unchanged d d' ↔ (∃ text, phrase = .invalid text) ∨ ¬ Revokes first code answers)) ∧
    (∀ share code n, Fails (shareRemove first share code n d) answers d' e →
      (Unchanged d d' ↔ d.vault.keyring.hasShare share = false ∨ ¬ Finds first code answers)) ∧
    ∀ name codes draw, Fails (createShare first name codes draw d) answers d' e →
      (Unchanged d d' ↔ (resolveShare d.vault draw.ord name).isSome = true) :=
  ⟨fun _ _ h => revokeAndRotate_unchanged_iff h, fun _ _ _ h => shareRemove_unchanged_iff h,
    fun _ _ _ h => createShare_unchanged_iff h⟩

/-! ### A share for a device that nobody knows -/

def draw : ShareDraw := ⟨⟨id, .refl⟩, 5, 0, 20, 30, 0⟩

/-- The relay lists no device. -/
def nobody : Answer := some (.ok (.devices []))

/-- A member of a share. -/
def holder : Device := laptop.update (·.createShare 5 0)

theorem failed_unchanged_nobody : holder.vault.keyring.hasShare 5 = true ∧
    (Unchanged holder holder ↔ holder.vault.keyring.hasShare 5 = false ∨ ¬ Finds leading "0101-0101" [nobody]) := by
  have hfails : Fails (shareRemove leading 5 "0101-0101" 0 holder) [nobody] holder (.noSuchDevice "0101-0101".toLower) := rfl
  exact ⟨by decide +kernel, (failed_unchanged_iff leading holder holder _ [nobody]).2.1 5 "0101-0101" 0 hfails⟩

/-- `create_share` with a code that names no device has stored the share and logged its name. -/
theorem unknown_code_leaves_share :
    ¬ ∀ (first : Bytes → List UInt8) (d d' : Device) (e : ClientError) (answers : List Answer),
      ((∃ code phrase, Fails (revokeAndRotate first code phrase d) answers d' e) ∨
        (∃ share code n, Fails (shareRemove first share code n d) answers d' e) ∨
          ∃ name codes draw, Fails (createShare first name codes draw d) answers d' e) → Unchanged d d' := by
  intro h
  have hend : Fails (createShare leading "team" ["0101-0101"] draw laptop) [nobody]
      ((laptop.update (·.createShare 5 0)).perform fun v => v.addIn draw.ord .shareName "name" "team"
        (shareNamePayload "team" 5) nil 20 30 0) (.noSuchDevice "0101-0101".toLower) := by
    unfold createShare
    rw [Client.get_bind, if_neg (by decide +kernel)]
    refine fails_updateVault.mpr (fails_onVault.mpr (Or.inr ⟨20, by decide +kernel, ?_⟩))
    unfold wrapForCodes
    rw [Client.get_bind, Client.bind_assoc]
    exact fails_findByCode.mpr ⟨nobody, [], rfl, Or.inl ⟨rfl, rfl⟩⟩
  obtain ⟨-, -, hlog⟩ := h leading laptop _ _ [nobody] (Or.inr (Or.inr ⟨"team", ["0101-0101"], draw, hend⟩))
  exact absurd (congrArg List.length hlog) (by decide +kernel)

end Devices

end SshVault
