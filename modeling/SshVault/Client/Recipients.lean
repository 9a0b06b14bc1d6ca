import SshVault.Client.Devices
import SshVault.Relay.Replay

/-!
# Recipient keys on the wire

Everything that is wrapped for a device is wrapped for the X25519 key in its row. An attacker on
the network delivers what it likes, but signs only with its own keys. The signature of an
enrollment covers the X25519 key; that of a recovery does not.
-/

open Lib Prog

namespace SshVault

open Relay

/-- The signature that a request carries. -/
def Request.signature : Request → Option Sig
  | .post _ signed => signed.sig.signature
  | .recover r => r.sig.signature
  | .shares q => q.sig.signature
  | .devices q => q.sig.signature
  | .wrapped q => q.sig.signature
  | .pull q => q.sig.signature

/-- The X25519 key that a request gives for a device: only `enroll` and `recover` give one. -/
def Request.recipient (ed : EdKey) : Request → Option Bytes
  | .post .enroll signed =>
    match signed.body with
    | .json j => if signed.devicePub.decodeEd = some ed then (EnrollReq.ofJson j).bind (·.x25519Pub.decode) else none
    | _ => none
  | .recover r => if r.ed25519Pub.decodeEd = some ed then r.x25519Pub.decode else none
  | _ => none

namespace Wires

/-! ## The network -/

/-- The relay, what honest parties have sent, and what has reached the relay. -/
structure World where
  db : Db := {}
  made : List Request := []
  delivered : List Request := []

inductive Event where
  | make (ts : Int64) (o : Outgoing)
  | deliver (now : Now) (req : Request)

def World.after (w : World) : Event → World
  | .make ts o => { w with made := o.request ts :: w.made }
  | .deliver now req => { w with db := (exec (route now req) w.db).2, delivered := req :: w.delivered }

section

variable (honest : EdKey → Prop)

/-- What the clients of honest devices send. `recover` also uses the recovery key. -/
def Sends : Outgoing → Prop
  | .post _ key _ => honest key
  | .query _ _ key => honest key
  | .pull _ key _ => honest key
  | .recover req => ∃ name recovery keys, req = Devices.recoverReq name recovery keys ∧ honest recovery ∧
      honest keys.ed25519

/-- Honest parties send what their clients build. The attacker delivers any request whose
signature is its own, or was seen on the wire. -/
def Allowed (w : World) : Event → Prop
  | .make _ o => Sends honest o
  | .deliver _ req => ∀ sig, req.signature = some sig → honest sig.signer → ∃ m ∈ w.made, m.signature = some sig

inductive Run (ok : World → Event → Prop) : World → Prop
  | start : Run ok {}
  | step {w : World} {e : Event} (h : Run ok w) (hallowed : Allowed honest w e) (hok : ok w e) : Run ok (w.after e)

/-- The requests of a device: an honest one sends them, any other is the attacker's own. -/
def World.By (w : World) (ed : EdKey) (req : Request) : Prop :=
  (honest ed → req ∈ w.made) ∧ (¬ honest ed → req ∈ w.delivered)

/-- The device itself has given this X25519 key. -/
def World.Gave (w : World) (ed : EdKey) (x : Bytes) : Prop := ∃ req, w.By honest ed req ∧ req.recipient ed = some x

/-- The row's X25519 key is one that its device has given. -/
def World.Own (w : World) (row : DeviceRow) : Prop := ∃ ed, row.ed25519Pub = .ed ed ∧ w.Gave honest ed row.x25519Pub

def World.OwnKeys (w : World) : Prop := ∀ row ∈ w.db.devices, row.approved = true → w.Own honest row

/-- A valid recovery of an honest device, with an X25519 key that this device never gave. -/
def Swaps (w : World) : Event → Prop
  | .make _ _ => False
  | .deliver _ req => ∃ r recovery ed vault x, req = .recover r ∧ r.recoveryPub.decodeEd = some recovery ∧
      r.ed25519Pub.decodeEd = some ed ∧ r.sig.signature = some ⟨recovery, .deviceKey ed⟩ ∧
      w.db.vaultByRecovery (.ed recovery) = some vault ∧ r.x25519Pub.decode = some x ∧ honest ed ∧
      ∀ m ∈ w.made, m.recipient ed ≠ some x

end

variable {honest : EdKey → Prop}

/-! ## What honest parties sign -/

theorem Run.made_sent {ok : World → Event → Prop} {w : World} (h : Run honest ok w) :
    ∀ m ∈ w.made, ∃ ts o, m = Outgoing.request ts o ∧ Sends honest o := by
  induction h with
  | start => exact fun _ h => nomatch h
  | @step w ev _ hallowed _ ih =>
    cases ev with
    | make ts o =>
      intro m hm
      rcases List.mem_cons.mp hm with rfl | hm
      · exact ⟨ts, o, rfl, hallowed⟩
      · exact ih m hm
    | deliver now req => exact ih

theorem recipient_of_signature {ts : Int64} {o : Outgoing} {ed : EdKey} {ts' : Int64} {j : Json Bytes} {e : EnrollReq}
    (ho : Sends honest o) (hsig : (o.request ts).signature = some ⟨ed, .request ts' (.json j)⟩) (he : EnrollReq.ofJson j = some e) :
    (o.request ts).recipient ed = e.x25519Pub.decode := by
  cases o with
  | post vault key r =>
    obtain ⟨rfl, hmsg⟩ := Sig.mk.inj (Option.some.inj hsig)
    obtain ⟨rfl, hj⟩ := Msg.request.inj hmsg
    obtain rfl := Body.json.inj hj
    have hread := decodeAt_toJson r .enroll
    rw [decodeAt, he] at hread
    cases r with
    | enroll r =>
      obtain rfl := ClientReq.enroll.inj (Option.some.inj hread)
      have hpub : (Text.b64 (Bytes.ed key)).decodeEd = some key := rfl
      change (if (Text.b64 (Bytes.ed key)).decodeEd = some key then _ else _) = _
      rw [if_pos hpub, he]
      rfl
    | _ => cases hread
  | query action vault key => cases action <;> cases hsig
  | pull vault key since => cases hsig
  | recover req =>
    obtain ⟨name, recovery, keys, rfl, -, -⟩ := ho
    cases hsig

/-! ## Device rows -/

theorem World.By.after {w : World} {ed : EdKey} {req : Request} (h : w.By honest ed req) (ev : Event) :
    (w.after ev).By honest ed req := by
  cases ev with
  | make ts o => exact ⟨fun hh => List.mem_cons_of_mem _ (h.1 hh), h.2⟩
  | deliver now m => exact ⟨h.1, fun hh => List.mem_cons_of_mem _ (h.2 hh)⟩

theorem World.Own.after {w : World} {row : DeviceRow} (h : w.Own honest row) (ev : Event) :
    (w.after ev).Own honest row := by
  obtain ⟨ed, hed, req, hby, hx⟩ := h
  exact ⟨ed, hed, req, hby.after ev, hx⟩

theorem gave_of_enroll {ok : World → Event → Prop} {w : World} (h : Run honest ok w) {now : Now} {signed : Signed}
    {vault : Wire} {ed : EdKey} {e : EnrollReq} {x : Bytes}
    (hallowed : Allowed honest w (.deliver now (.post .enroll signed)))
    (hv : verify now.verify signed = .ok (vault, ed)) (he : Reads EnrollReq.ofJson signed.body e)
    (hx : e.x25519Pub.decode = some x) : (w.after (.deliver now (.post .enroll signed))).Gave honest ed x := by
  obtain ⟨-, -, hpub, hsig⟩ := verify_ok hv
  obtain ⟨j, hj, hdec⟩ := he
  by_cases hhonest : honest ed
  · obtain ⟨m, hm, hmsig⟩ := hallowed _ hsig hhonest
    obtain ⟨ts, o, rfl, ho⟩ := h.made_sent m hm
    rw [hj] at hmsig
    exact ⟨_, ⟨fun _ => hm, fun hh => absurd hhonest hh⟩, (recipient_of_signature ho hmsig hdec).trans hx⟩
  · refine ⟨.post .enroll signed, ⟨fun hh => absurd hh hhonest, fun _ => List.mem_cons_self⟩, ?_⟩
    unfold Request.recipient
    dsimp only
    rw [hj]
    dsimp only
    rw [if_pos hpub, hdec]
    exact hx

/-- **One event.** No event but a swap gives a row an X25519 key that its device did not give. -/
theorem step_own {ok : World → Event → Prop} {w : World} {ev : Event} (hrun : Run honest ok w)
    (hallowed : Allowed honest w ev) (hswap : ¬ Swaps honest w ev) (h : ∀ row ∈ w.db.devices, w.Own honest row) :
    ∀ row ∈ (w.after ev).db.devices, (w.after ev).Own honest row := by
  cases ev with
  | make ts o => exact fun row hrow => (h row hrow).after (.make ts o)
  | deliver now req =>
    intro row hrow
    cases (route_effect now req w.db).devices hrow with
    | kept hr => exact (h row hr).after _
    | enrolled hv he hx _ => exact ⟨_, rfl, gave_of_enroll hrun hallowed hv he hx⟩
    | reenrolled hv he hx _ hk _ => exact ⟨_, (Prod.mk.inj hk).2, gave_of_enroll hrun hallowed hv he hx⟩
    | approved _ _ _ _ hr _ _ => exact World.Own.after (h _ hr) _
    | revoked _ _ _ hr _ => exact World.Own.after (h _ hr) _
    | rewrapped _ _ _ _ hr _ _ => exact World.Own.after (h _ hr) _
    | @recovered r recovery ed vault x _ hrec hed hsig hvault hx hk hx' _ _ _ =>
      refine ⟨ed, (Prod.mk.inj hk).2, ?_⟩
      rw [hx']
      by_cases hhonest : honest ed
      · by_contra hnone
        refine hswap ⟨r, recovery, ed, vault, x, rfl, hrec, hed, hsig, hvault, hx, hhonest, ?_⟩
        intro m hm heq
        exact hnone ⟨m, ⟨fun _ => hm, fun hh => absurd hhonest hh⟩, heq⟩
      · refine ⟨.recover r, ⟨fun hh => absurd hh hhonest, fun _ => List.mem_cons_self⟩, ?_⟩
        unfold Request.recipient
        dsimp only
        rw [if_pos hed, hx]

theorem run_own {w : World} (h : Run honest (fun w ev => ¬ Swaps honest w ev) w) :
    ∀ row ∈ w.db.devices, w.Own honest row := by
  induction h with
  | start => exact fun _ h => nomatch h
  | step hrun hallowed hok ih => exact step_own hrun hallowed hok ih

/-! ## Swaps -/

theorem exec_recover {r : RecoverReq} {recovery ed : EdKey} {vault : Wire} {x : Bytes} {db : Db}
    (hrec : r.recoveryPub.decodeEd = some recovery) (hed : r.ed25519Pub.decodeEd = some ed)
    (hsig : r.sig.signature = some ⟨recovery, .deviceKey ed⟩) (hvault : db.vaultByRecovery (.ed recovery) = some vault)
    (hx : r.x25519Pub.decode = some x) :
    exec (recover r) db = (.ok vault, ((Db.recoverDevice vault (.ed ed) x r.deviceName).run db).2) := by
  have hselect : (Db.selectVault (.ed recovery)).run db = (some vault, db) := by rw [← hvault]; rfl
  unfold recover
  rw [exec_bind, exec_liftExcept, hrec]
  dsimp only [orReject]
  rw [exec_bind, exec_liftExcept, hed]
  dsimp only
  rw [exec_bind, exec_liftExcept, hsig]
  dsimp only
  rw [if_neg (not_not.mpr rfl), exec_bind, exec_lift, hselect]
  dsimp only
  rw [exec_bind, exec_liftExcept]
  dsimp only
  rw [exec_bind, exec_liftExcept, hx]
  rfl

theorem recovered_row (vault : Wire) (pub x : Bytes) (name : Wire) (db : Db) :
    ∃ row ∈ ((Db.recoverDevice vault pub x name).run db).2.devices,
      row.ed25519Pub = pub ∧ row.x25519Pub = x ∧ row.approved = true := by
  let new : DeviceRow := ⟨vault, pub, x, name, true, false, none⟩
  let set (r : DeviceRow) : DeviceRow := { r with approved := true, revoked := false, x25519Pub := x }
  change ∃ row ∈ Table.upsert DeviceRow.key new set db.devices, _
  unfold Table.upsert
  split
  · rename_i hex
    obtain ⟨row, hrow, hk⟩ := hex
    refine ⟨set row, ?_, (Prod.mk.inj hk).2, rfl, rfl⟩
    refine List.mem_map.mpr ⟨row, hrow, ?_⟩
    rw [if_pos (decide_eq_true hk)]
  · exact ⟨new, List.mem_append_right _ List.mem_cons_self, rfl, rfl, rfl⟩

theorem swap_breaks {w : World} {e : Event} (h : Swaps honest w e) : ¬ (w.after e).OwnKeys honest := by
  cases e with
  | make ts o => exact h.elim
  | deliver now req =>
    obtain ⟨r, recovery, ed, vault, x, rfl, hrec, hed, hsig, hvault, hx, hhonest, hnone⟩ := h
    intro hown
    have hdb : (w.after (.deliver now (.recover r))).db =
        ((Db.recoverDevice vault (.ed ed) x r.deviceName).run w.db).2 := by
      change (exec (do return Reply.recover (← recover r)) w.db).2 = _
      rw [after_map, exec_recover hrec hed hsig hvault hx]
    obtain ⟨row, hrow, hpub, hrx, happ⟩ := recovered_row vault (.ed ed) x r.deviceName w.db
    obtain ⟨ed', hed', req, hby, hreq⟩ := hown row (by rw [hdb]; exact hrow) happ
    obtain rfl := Bytes.ed.inj (hpub.symm.trans hed')
    exact hnone req (hby.1 hhonest) (hreq.trans (congrArg some hrx))

/-- **Recipient keys.** In every run without a swap, the X25519 key of every approved device is one
that the device itself gave; and the next event keeps it so exactly when it is not a swap. -/
theorem ownKeys_of_run (honest : EdKey → Prop) (w : World) (hrun : Run honest (fun w ev => ¬ Swaps honest w ev) w) :
    w.OwnKeys honest ∧ ∀ ev, Allowed honest w ev → ((w.after ev).OwnKeys honest ↔ ¬ Swaps honest w ev) := by
  refine ⟨fun row hrow _ => run_own hrun row hrow, fun ev hallowed => ?_⟩
  constructor
  · intro hown hswap
    exact swap_breaks hswap hown
  · intro hswap row hrow _
    exact step_own hrun hallowed hswap (run_own hrun) row hrow

/-! ### One vault, one recovery -/

/-- Two devices and the recovery key are honest. -/
def twoHonest (k : EdKey) : Prop := k = .device 0 ∨ k = .device 1 ∨ k = .recovery 7

def phoneKeys : Devices.DeviceKeys := ⟨1, .device 1, 11⟩

def enrollLaptop : Outgoing :=
  .post vaultOne (.device 0) (.enroll
    ⟨.plain "laptop", .b64 (.ed (.device 0)), .b64 (.x 0), .b64 (.ed (.recovery 7))⟩)

def recoverPhone : RecoverReq := Devices.recoverReq "phone" (.recovery 7) phoneKeys

/-- The laptop has enrolled, and the phone has sent a recovery. -/
def recovering : World :=
  ((World.after {} (.make 1000 enrollLaptop)).after (.deliver 1000 (enrollLaptop.request 1000))).after
    (.make 1000 (.recover recoverPhone))

theorem recovering_run {ok : World → Event → Prop}
    (hok : ∀ w ts o, ok w (.make ts o)) (hok' : ∀ w, ok w (.deliver 1000 (enrollLaptop.request 1000))) :
    Run twoHonest ok recovering := by
  have h₁ : Run twoHonest ok _ := .step .start (e := .make 1000 enrollLaptop) (Or.inl rfl) (hok _ _ _)
  have h₂ : Run twoHonest ok _ :=
    .step h₁ (e := .deliver 1000 (enrollLaptop.request 1000)) (fun sig hsig _ => ⟨_, List.mem_cons_self, hsig⟩) (hok' _)
  exact .step h₂ ⟨"phone", .recovery 7, phoneKeys, rfl, Or.inr (Or.inr rfl), Or.inr (Or.inl rfl)⟩ (hok _ _ _)

/-- The recovery reaches the relay as the phone has sent it. -/
def recovered : World := recovering.after (.deliver 1000 (.recover recoverPhone))

theorem recovered_run : Run twoHonest (fun w ev => ¬ Swaps twoHonest w ev) recovered := by
  have hbefore : Run twoHonest (fun w ev => ¬ Swaps twoHonest w ev) recovering :=
    recovering_run (fun _ _ _ h => h) fun _ ⟨_, _, _, _, _, h, _⟩ => nomatch h
  refine .step hbefore (fun sig hsig _ => ⟨.recover recoverPhone, List.mem_cons_self, hsig⟩) ?_
  rintro ⟨r, recovery, ed, vault, x, hreq, -, hed, -, -, hx, -, hnone⟩
  obtain rfl := Request.recover.inj hreq
  refine hnone (.recover recoverPhone) List.mem_cons_self ?_
  unfold Request.recipient
  dsimp only
  rw [if_pos hed, hx]

theorem ownKeys_of_run_recovering : recovered.OwnKeys twoHonest ∧
    recovered.db.devices.map (fun row => (row.ed25519Pub, row.x25519Pub)) =
      [(.ed (.device 0), .x 0), (.ed (.device 1), .x 1)] :=
  ⟨(ownKeys_of_run twoHonest recovered recovered_run).1, by decide +kernel⟩

/-- The recovery reaches the relay with the attacker's X25519 key in it. -/
def swapped : Request := .recover { recoverPhone with x25519Pub := .b64 (.x 99) }

theorem swapped_key_stored :
    ¬ ∀ (honest : EdKey → Prop) (w : World), Run honest (fun _ _ => True) w → w.OwnKeys honest := by
  intro h
  have hallowed : Allowed twoHonest recovering (.deliver 1000 swapped) :=
    fun sig hsig _ => ⟨.recover recoverPhone, List.mem_cons_self, hsig⟩
  have hown := h twoHonest _ (.step (recovering_run (fun _ _ _ => trivial) fun _ => trivial) hallowed trivial)
  refine swap_breaks (e := .deliver 1000 swapped) ⟨_, .recovery 7, .device 1, vaultOne, .x 99, rfl, rfl, rfl, rfl,
    by decide +kernel, rfl, Or.inr (Or.inl rfl), ?_⟩ hown
  decide +kernel

end Wires

end SshVault
