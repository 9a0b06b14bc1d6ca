import SshVault.Relay.Effects
import SshVault.Relay.Log

/-!
# Notices (`src/relay.rs`, `notify` and `ws`)

A push that stored something tells the subscribers of its vault the new head. Each of them has a queue of its own, and a
task that moves the heads from there to its socket. A push that breaks off at an entry that does not decode tells nobody,
although the entries before that one are stored.
-/

open Lib Prog

namespace SshVault

/-- What comes out of a WebSocket. -/
inductive Message where
  | text (s : String)
  /-- A close frame, an error or the end of the stream. -/
  | closed
  | other
  deriving DecidableEq

namespace Relay

/-- The heads that a request tells the subscribers of `vault`. -/
def notices (vault : Wire) (req : Request) (answer : Except HttpError Reply) : List Nat :=
  match req, answer with
  | .post .push signed, .ok (.push resp) => if signed.vaultId = vault ∧ 0 < resp.stored then [resp.head] else []
  | _, _ => []

/-! ## Subscriptions -/

/-- The size of the channel. -/
def capacity : Nat := 64

/-- A subscription, and what it has sent and the client has not read. -/
structure Socket where
  queue : List Nat := []
  /-- The queue has run over, and the next `recv` is an error. -/
  lagged : Bool := false
  live : Bool := true
  sent : List Message := []

namespace Socket

/-- `tx.send`, as far as this subscriber goes. -/
def notify (s : Socket) (head : Nat) : Socket :=
  if s.live then { s with queue := s.queue ++ [head], lagged := s.lagged || decide (capacity ≤ s.queue.length) } else s

def notifyAll (s : Socket) (heads : List Nat) : Socket := heads.foldl notify s

/-- One turn of the loop in `ws`. -/
def forward (s : Socket) : Socket :=
  if s.lagged then { s with live := false }
  else match s.queue with
    | [] => s
    | head :: rest => { s with queue := rest, sent := s.sent ++ [.text (toString head)] }

/-- The connection breaks. Some of what was sent may still arrive. -/
def cut (s : Socket) (n : Nat) : Socket := { s with live := false, sent := s.sent.take n }

/-- Nothing is lost so far. -/
def Whole (s : Socket) : Prop := s.live = true ∧ s.lagged = false

/-- This head is on its way. -/
def Brings (s : Socket) (head : Nat) : Prop := head ∈ s.queue ∨ .text (toString head) ∈ s.sent

end Socket

/-! ## Every stored entry is told of -/

/-- If the request is a push, all of it decodes. -/
def EntriesDecode (req : Request) : Prop :=
  ∀ signed r, req = .post .push signed → Reads PushReq.ofJson signed.body r → ∀ e ∈ r.entries, ∃ c, decodeEntry e = .ok c

variable {now : Now} {req : Request} {vault v : Wire} {db : Db}

theorem insertEntry_none {c : Bytes × Bytes × Uuid} (h : ((Db.insertEntry vault c.1 c.2.1 c.2.2).run db).1 = 0) :
    ((Db.insertEntry vault c.1 c.2.1 c.2.2).run db).2.entries = db.entries := by
  change (if db.entries.any (·.key = (vault, c.1)) then 0 else 1) = 0 at h
  split at h
  · rename_i hany
    obtain ⟨e, he, hkey⟩ := List.any_eq_true.mp hany
    rw [insertEntry_held ⟨e, he, of_decide_eq_true hkey⟩]
  · cases h

theorem loop_none {l : List WireEntry}
    (h : (exec (forEach decodeEntry (fun e => Db.insertEntry vault e.1 e.2.1 e.2.2) l) db).1 = .ok 0) :
    (exec (forEach decodeEntry (fun e => Db.insertEntry vault e.1 e.2.1 e.2.2) l) db).2.entries = db.entries := by
  induction l generalizing db with
  | nil => rfl
  | cons e l ih =>
    unfold forEach at h ⊢
    simp only [exec_bind, exec_liftExcept, exec_lift] at h ⊢
    cases hdec : decodeEntry e with
    | error err => simp [hdec] at h
    | ok c =>
      simp only [hdec] at h ⊢
      rcases hrest : exec (forEach decodeEntry (fun e => Db.insertEntry vault e.1 e.2.1 e.2.2) l)
        ((Db.insertEntry vault c.1 c.2.1 c.2.2).run db).2 with ⟨_ | m, db'⟩
      · rw [hrest] at h
        cases h
      · rw [hrest] at h
        have hsum : ((Db.insertEntry vault c.1 c.2.1 c.2.2).run db).1 + m = 0 := Except.ok.inj h
        obtain ⟨hone, rfl⟩ := Nat.add_eq_zero_iff.mp hsum
        have hnone := ih (congrArg Prod.fst hrest)
        rw [hrest] at hnone
        exact hnone.trans (insertEntry_none hone)

theorem head_runAll (hv : vault ≠ v) (ran : List (Bytes × Bytes × Uuid)) :
    (runAll (fun e => Db.insertEntry vault e.1 e.2.1 e.2.2) ran db).head v = db.head v := by
  induction ran generalizing db with
  | nil => rfl
  | cons c ran ih =>
    change (runAll _ ran ((Db.insertEntry vault c.1 c.2.1 c.2.2).run db).2).head v = _
    rw [ih]
    change Db.head { db with entries := Table.insertOrIgnore EntryRow.key _ db.entries, lastSeq := _ } v = _
    unfold Table.insertOrIgnore Db.head
    split
    · rfl
    · simp [List.filter_append, hv]

/-- The head is what it was, or told of. -/
def Told (v : Wire) (req : Request) (db : Db) (answer : Except HttpError Reply) (db' : Db) : Prop :=
  db'.head v = db.head v ∨ notices v req answer = [db'.head v]

theorem push_told {signed : Signed} (hreq : EntriesDecode (.post .push signed)) :
    Told v (.post .push signed) db ((exec (push now signed) db).1.map .push) (exec (push now signed) db).2 := by
  unfold push
  refine ends_authorize (P := fun out => Told v (.post .push signed) db (out.1.map .push) out.2) (fun vault key hacts => ?_)
    fun _ => Or.inl rfl
  refine ends_except (P := fun out => Told v (.post .push signed) db (out.1.map .push) out.2) (fun r hr => ?_)
    fun _ _ => Or.inl rfl
  obtain ⟨-, rfl, -, -⟩ := verify_ok hacts.verified
  unfold applyPush
  obtain ⟨n, hn⟩ := (forEach_ok_iff decodeEntry (fun e => Db.insertEntry signed.vaultId e.1 e.2.1 e.2.2) r.entries db).mpr
    (hreq signed r rfl (jsonBody_ok hr))
  obtain ⟨ran, -, hdb, -⟩ := exec_forEach decodeEntry (fun e => Db.insertEntry signed.vaultId e.1 e.2.1 e.2.2) r.entries db
  refine ends_bind (P := fun out => Told v (.post .push signed) db (out.1.map .push) out.2) (fun m d h => ?_) fun e d h => ?_
  · rw [h] at hn hdb
    obtain rfl : d = _ := hdb
    by_cases hv : signed.vaultId = v
    · -- Nothing new leaves the head; anything new is told.
      rcases Nat.eq_zero_or_pos m with rfl | hpos
      · left
        have hsame : Db.entries _ = db.entries := loop_none (congrArg Prod.fst h)
        rw [h] at hsame
        change (runAll (fun e => Db.insertEntry signed.vaultId e.1 e.2.1 e.2.2) ran db).head v = db.head v
        unfold Db.head
        rw [hsame]
      · right
        subst hv
        exact if_pos ⟨rfl, hpos⟩
    · exact Or.inl (head_runAll hv ran)
  · rw [h] at hn
    cases hn

/-- **Notices.** Whatever a request stores in a vault, the subscribers of the vault are told of. -/
theorem route_told (hreq : EntriesDecode req) : Told v req db (exec (route now req) db).1 (exec (route now req) db).2 := by
  by_cases hpush : ∃ signed, req = .post .push signed
  · obtain ⟨signed, rfl⟩ := hpush
    have htold : Told v _ db ((exec (push now signed) db).1.map .push) (exec (push now signed) db).2 := push_told hreq
    change Told v _ db (exec (do return Reply.push (← push now signed)) db).1 (exec (do return Reply.push (← push now signed)) db).2
    rw [exec_bind]
    rcases hres : exec (push now signed) db with ⟨_ | resp, db'⟩ <;> rw [hres] at htold <;> exact htold
  · left
    have hsame : (exec (route now req) db).2.entries = db.entries := by
      refine (route_traced now req).exec (P := fun s => s.entries = db.entries) (fun _ s t hstep hs => ?_) rfl
      rcases hstep.entries with heq | ⟨hex, -⟩
      · exact heq.trans hs
      · exact absurd hex hpush
    unfold Db.head
    rw [hsame]

/-- A push answers with the head that it leaves. -/
def Heads (v : Wire) (out : Except HttpError PushResp × Db) : Prop := ∀ resp, out.1 = .ok resp → resp.head = out.2.head v

theorem push_heads (signed : Signed) : Heads signed.vaultId (exec (push now signed) db) := by
  unfold push
  refine ends_authorize (P := Heads signed.vaultId) (fun vault key hacts => ?_) fun _ _ h => nomatch h
  refine ends_except (P := Heads signed.vaultId) (fun r hr => ?_) fun _ _ _ h => nomatch h
  obtain ⟨-, rfl, -, -⟩ := verify_ok hacts.verified
  refine ends_bind (P := Heads signed.vaultId) (fun m d _ => ?_) fun _ _ _ _ h => nomatch h
  intro resp hresp
  obtain rfl := Except.ok.inj hresp
  rfl

theorem route_notices {head : Nat} (h : head ∈ notices v req (exec (route now req) db).1) :
    head = (exec (route now req) db).2.head v := by
  unfold notices at h
  split at h
  · rename_i signed resp hres
    split at h
    · rename_i hv
      obtain ⟨rfl, -⟩ := hv
      obtain rfl := List.mem_singleton.mp h
      have hpush : Heads signed.vaultId (exec (push now signed) db) := push_heads signed
      change (exec (do return Reply.push (← push now signed)) db).1 = .ok (.push resp) at hres
      change resp.head = (exec (do return Reply.push (← push now signed)) db).2.head signed.vaultId
      rw [exec_bind] at hres ⊢
      rcases hout : exec (push now signed) db with ⟨_ | resp', db'⟩
      · rw [hout] at hres
        cases hres
      · rw [hout] at hres hpush
        obtain rfl := Reply.push.inj (Except.ok.inj hres)
        exact hpush _ rfl
    · cases h
  · cases h

/-! ## One subscription -/

namespace Socket

variable {s : Socket} {m n : Nat}

theorem whole_of_notify (h : (s.notify n).Whole) : s.Whole := by
  unfold notify Whole at *
  split at h
  · simp_all
  · exact h

theorem brings_notify (h : s.Brings m) : (s.notify n).Brings m := by
  unfold notify Brings at *
  split
  · exact h.imp (List.mem_append_left _) fun h => h
  · exact h

theorem notify_brings (h : (s.notify n).Whole) : (s.notify n).Brings n := by
  have hlive := (whole_of_notify h).1
  unfold notify Brings
  rw [if_pos hlive]
  exact Or.inl (List.mem_append_right _ List.mem_cons_self)

theorem whole_of_forward (h : s.forward.Whole) : s.Whole := by
  unfold forward at h
  split at h
  · cases h.1
  · split at h <;> exact h

theorem brings_forward (hs : s.Whole) (h : s.Brings m) : s.forward.Brings m := by
  unfold forward
  rw [if_neg (by simp [hs.2])]
  split
  · exact h
  · rename_i head rest heq
    unfold Brings at h ⊢
    rw [heq, List.mem_cons] at h
    rcases h with (rfl | hrest) | hsent
    · exact Or.inr (List.mem_append_right _ List.mem_cons_self)
    · exact Or.inl hrest
    · exact Or.inr (List.mem_append_left _ hsent)

end Socket

end Relay

end SshVault
