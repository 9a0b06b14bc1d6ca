import SshVault.Client.Delivery
import SshVault.Relay.Notices
import SshVault.IncludeLine

/-!
# The daemon (`src/sync.rs`, `syncd`)

A round, a connection, and then a round for every notice that is news and for every tick. The socket may break and the
queue behind it may run over, other processes write to the directory between two rounds, and others ask the relay what
they like.
-/

open Lib

namespace SshVault

open Relay Prog

namespace Daemon

open Sync Client
open Delivery (Chore network Outcome Onward Grew)

/-! ## Rounds -/

/-- Worth a retry. The last two are no `SyncError`. -/
def transient : ClientError → Bool
  | .http => true
  | .rejected status _ => 500 ≤ status
  | .noRelay | .vault _ | .noSuchDevice _ | .ambiguousCode _ => false

/-- `on_round` is called with the counts. -/
def settle : Except ClientError (Nat × Nat) → Outcome
  | .ok counts => .ok (some counts)
  | .error e => if transient e then .ok none else .error e

def settled (m : Op (Nat × Nat)) : Op (Option (Nat × Nat)) := fun d => (m d).bind fun r d => .done d (settle r)

def round : Op (Option (Nat × Nat)) := do
  onVault (·.reload)
  settled syncOnce

/-! ## Messages -/

def dropPlus : List Char → List Char
  | '+' :: cs => cs
  | cs => cs

/-- `s.parse::<u64>()`. -/
def parseU64 (cs : List Char) : Option Nat :=
  if dropPlus cs = [] then none else (SshConfig.digits (dropPlus cs)).filter (· < 2 ^ 64)

/-- What does not parse is taken for news. -/
def stale (cursor : Nat) (s : String) : Bool :=
  match parseU64 (SshConfig.trim s.toList) with
  | some head => cursor < head
  | none => true

/-! ## The loops -/

inductive Phase where
  /-- A round, and whether there is a socket meanwhile. -/
  | round (desk : Desk Device Call Response Outcome) (subscribed : Bool)
  /-- Between rounds, with what the last one counted. -/
  | connecting (d : Device) (last : Option (Nat × Nat))
  | listening (d : Device) (last : Option (Nat × Nat))
  | waiting (d : Device)
  | stopped (d : Device) (e : ClientError)

structure State where
  phase : Phase
  backoff : Nat := 1

/-- In seconds, as is the backoff. -/
def healthyConn : Nat := 30

def maxBackoff : Nat := 60

def again (d : Device) (subscribed : Bool) : Phase := .round ⟨round d, none⟩ subscribed

def start (d : Device) : State := ⟨if d.vault.metadata.relayUrl = none then .stopped d .noRelay else again d false, 1⟩

/-- After a round. -/
def goOn (subscribed : Bool) (d : Device) : Outcome → Phase
  | .error e => .stopped d e
  | .ok last => if subscribed then .listening d last else .connecting d last

def hear (d : Device) (last : Option (Nat × Nat)) (s : String) : Phase :=
  if stale d.vault.metadata.syncCursor s then again d true else .listening d last

/-- The socket is gone, after so many seconds. -/
def dropped (d : Device) (backoff held : Nat) : State :=
  if healthyConn ≤ held then ⟨again d false, 1⟩ else ⟨.waiting d, backoff⟩

/-! ## The daemon, the relay and the others -/

/-- A request at the relay, and what it does to the daemon's subscription. -/
def asked (vault : Wire) (now : Now) (req : Request) (s : Db × Socket) : Response × Db × Socket :=
  let (answer, db) := exec (route now req) s.1
  (answer, db, s.2.notifyAll (notices vault req answer))

/-- `network`, with the subscription of the daemon of this vault. -/
def watched (vault : Wire) : Network Chore Device Call Response Outcome (Db × Socket) Clocks where
  work := network.work
  serve clocks call := asked vault clocks.now (call.what.request clocks.ts)
  others s t := ∃ now req, t = (asked vault now req s).2

structure World where
  daemon : State
  relay : Db × Socket

inductive Event where
  | moves
  | ends
  | connects
  | refused
  | hears (s : String)
  | ignores
  | drops (held : Nat)
  | ticks
  | wakes (secs : Nat)
  | forwards
  | cuts (n : Nat)
  /-- A message that `ws` has not sent. -/
  | injects (m : Message)
  | asks (now : Now) (req : Request)
  | writes (w : Write)

/-- Phases in which other processes may write. -/
inductive Idle : (Device → Phase) → Prop
  | connecting (last : Option (Nat × Nat)) : Idle (.connecting · last)
  | listening (last : Option (Nat × Nat)) : Idle (.listening · last)
  | waiting : Idle .waiting

inductive Step (vault : Wire) : World → Event → World → Prop
  | moves {x y : Desk Device Call Response Outcome} {s t : Db × Socket} (b : Nat) (subscribed : Bool)
    (h : (watched vault).Moves s x y t) : Step vault ⟨⟨.round x subscribed, b⟩, s⟩ .moves ⟨⟨.round y subscribed, b⟩, t⟩
  | ends (d : Device) (out : Outcome) (subscribed : Bool) (b : Nat) (s : Db × Socket) :
    Step vault ⟨⟨.round ⟨.done d out, none⟩ subscribed, b⟩, s⟩ .ends ⟨⟨goOn subscribed d out, b⟩, s⟩
  | connects (d : Device) (last : Option (Nat × Nat)) (b : Nat) (db : Db) (s : Socket) :
    Step vault ⟨⟨.connecting d last, b⟩, (db, s)⟩ .connects ⟨⟨.listening d last, b⟩, (db, {})⟩
  | refused (d : Device) (last : Option (Nat × Nat)) (b : Nat) (s : Db × Socket) :
    Step vault ⟨⟨.connecting d last, b⟩, s⟩ .refused ⟨⟨.waiting d, b⟩, s⟩
  | hears (d : Device) (last : Option (Nat × Nat)) (b : Nat) (db : Db) (s : Socket) {m : String} {rest : List Message}
    (h : s.sent = .text m :: rest) :
    Step vault ⟨⟨.listening d last, b⟩, (db, s)⟩ (.hears m) ⟨⟨hear d last m, b⟩, (db, { s with sent := rest })⟩
  | ignores (d : Device) (last : Option (Nat × Nat)) (b : Nat) (db : Db) (s : Socket) {rest : List Message}
    (h : s.sent = .other :: rest) :
    Step vault ⟨⟨.listening d last, b⟩, (db, s)⟩ .ignores ⟨⟨.listening d last, b⟩, (db, { s with sent := rest })⟩
  | drops (d : Device) (last : Option (Nat × Nat)) (b : Nat) (db : Db) (s : Socket) (held : Nat)
    (h : s.sent.head? = some .closed ∨ s.sent = [] ∧ s.live = false) :
    Step vault ⟨⟨.listening d last, b⟩, (db, s)⟩ (.drops held) ⟨dropped d b held, (db, { s with live := false })⟩
  | ticks (d : Device) (last : Option (Nat × Nat)) (b : Nat) (s : Db × Socket) :
    Step vault ⟨⟨.listening d last, b⟩, s⟩ .ticks ⟨⟨again d true, b⟩, s⟩
  | wakes (d : Device) (b : Nat) (s : Db × Socket) :
    Step vault ⟨⟨.waiting d, b⟩, s⟩ (.wakes b) ⟨⟨again d false, min (b * 2) maxBackoff⟩, s⟩
  | forwards (st : State) (db : Db) (s : Socket) (h : s.live = true) :
    Step vault ⟨st, (db, s)⟩ .forwards ⟨st, (db, s.forward)⟩
  | cuts (st : State) (db : Db) (s : Socket) (n : Nat) : Step vault ⟨st, (db, s)⟩ (.cuts n) ⟨st, (db, s.cut n)⟩
  | injects (st : State) (db : Db) (s : Socket) (m : Message) :
    Step vault ⟨st, (db, s)⟩ (.injects m) ⟨st, (db, { s with sent := s.sent ++ [m] })⟩
  | asks (st : State) (s : Db × Socket) (now : Now) (req : Request) :
    Step vault ⟨st, s⟩ (.asks now req) ⟨st, (asked vault now req s).2⟩
  | writes {p : Device → Phase} (hp : Idle p) (d : Device) (b : Nat) (s : Db × Socket) (w : Write) {v : Vault} {disk : Disk}
    (hopen : Vault.openVault.run d.disk = (.ok v, disk)) :
    Step vault ⟨⟨p d, b⟩, s⟩ (.writes w) ⟨⟨p ⟨((w.prog v).run disk).2, d.vault⟩, b⟩, s⟩

inductive Run (vault : Wire) (w : World) : List Event → World → Prop
  | nil : Run vault w [] w
  | snoc {es : List Event} {e : Event} {w₁ w₂ : World} (h : Run vault w es w₁) (hstep : Step vault w₁ e w₂) :
    Run vault w (es ++ [e]) w₂

variable {id : Identity} {d d' : Device} {db db' : Db}

/-! ## Numbers on the wire -/

theorem digits_eq {cs : List Char} (h : ∀ c ∈ cs, c.isDigit = true) : SshConfig.digits cs = some (Nat.ofDigitChars 10 cs 0) := by
  have hfold : ∀ (cs : List Char) (n : Nat), (∀ c ∈ cs, c.isDigit = true) → (cs.foldl (fun acc c => acc.bind fun n =>
      if c.isDigit then some (n * 10 + (c.toNat - 48)) else none) (some n)) = some (Nat.ofDigitChars 10 cs n) := by
    intro cs
    induction cs with
    | nil => exact fun n _ => congrArg some Nat.ofDigitChars_nil.symm
    | cons c cs ih =>
      intro n h
      obtain ⟨hc, hcs⟩ := List.forall_mem_cons.mp h
      rw [List.foldl_cons, Option.bind_some, if_pos hc, ih _ hcs, Nat.ofDigitChars_cons, Nat.mul_comm n 10]
      rfl
  exact hfold cs 0 h

theorem not_isWhitespace_of_isDigit {c : Char} (h : c.isDigit = true) : SshConfig.isWhitespace c = false := by
  unfold Char.isDigit at h
  unfold SshConfig.isWhitespace
  simp only [ge_iff_le, Bool.and_eq_true, decide_eq_true_eq, decide_eq_false_iff_not, UInt32.le_iff_toNat_le] at h ⊢
  change 48 ≤ c.toNat ∧ c.toNat ≤ 57 at h
  omega

theorem trim_eq {cs : List Char} (h : ∀ c ∈ cs, SshConfig.isWhitespace c = false) : SshConfig.trim cs = cs := by
  unfold SshConfig.trim
  have hdrop : cs.dropWhile SshConfig.isWhitespace = cs := by
    cases cs with
    | nil => rfl
    | cons c cs => exact List.dropWhile_cons_of_neg (by simp [h c List.mem_cons_self])
  rw [hdrop, List.rdropWhile_eq_self_iff]
  intro hne
  simp [h _ (List.getLast_mem hne)]

theorem parseU64_toString (n : Nat) : parseU64 (SshConfig.trim (toString n).toList) = if n < 2 ^ 64 then some n else none := by
  have hchars : (toString n).toList = Nat.toDigits 10 n := Nat.toList_repr
  have hdigit : ∀ c ∈ Nat.toDigits 10 n, c.isDigit = true := fun c hc => Nat.isDigit_of_mem_toDigits (by decide) (by decide) hc
  rw [hchars, trim_eq fun c hc => not_isWhitespace_of_isDigit (hdigit c hc)]
  have hplus : dropPlus (Nat.toDigits 10 n) = Nat.toDigits 10 n := by
    unfold dropPlus
    split
    · rename_i cs heq
      exact absurd (hdigit '+' (heq ▸ List.mem_cons_self)) (by decide)
    · rfl
  unfold parseU64
  rw [hplus, if_neg Nat.toDigits_ne_nil, digits_eq hdigit, Nat.ofDigitChars_ten_toDigits]
  change (if decide (n < 2 ^ 64) = true then some n else none) = _
  simp only [decide_eq_true_eq]

theorem le_of_not_stale {cursor n : Nat} (h : stale cursor (toString n) = false) : n ≤ cursor := by
  unfold stale at h
  rw [parseU64_toString] at h
  split at h
  · rename_i head hhead
    split at hhead
    · obtain rfl := Option.some.inj hhead
      simpa using h
    · cases hhead
  · cases h

theorem not_stale_of_le {cursor n : Nat} (hn : n < 2 ^ 64) (h : n ≤ cursor) : stale cursor (toString n) = false := by
  unfold stale
  rw [parseU64_toString, if_pos hn]
  simpa using h

/-! ## What the daemon holds between rounds -/

/-- The device once it has read its metadata again. -/
def reread (d : Device) : Device := ⟨d.disk, { d.vault with metadata := d.disk.metadata }⟩

/-- The directory lacks no entry of the default share up to its cursor. The daemon's own cursor may be behind. -/
structure Held (id : Identity) (d : Device) (db : Db) : Prop where
  kept : Delivery.Kept id (reread d) db
  cursor : d.vault.metadata.syncCursor ≤ d.disk.metadata.syncCursor

theorem Held.of_kept (h : Delivery.Kept id d db) : Held id d db := by
  refine ⟨?_, by rw [h.onDisk]⟩
  unfold reread
  rw [h.onDisk]
  exact h

theorem Held.onward (h : Held id d db) (ho : Onward db db') : Held id d db' := ⟨h.kept.onward ho, h.cursor⟩

theorem Held.write (h : Held id d db) {v : Vault} {disk : Disk} (hopen : Vault.openVault.run d.disk = (.ok v, disk)) (w : Write) :
    Held id ⟨((w.prog v).run disk).2, d.vault⟩ db := by
  let opened : Vault := ⟨d.disk.metadata, d.disk.keyring.normalize, ∅⟩
  have hshows := (Delivery.replayLog_shows opened).run d.disk
  have hcached := Vault.cached_run (Vault.replayLog_cached opened) d.disk
  have hrun : Vault.openVault.run d.disk =
      ((opened.replayLog.run d.disk).1.1.map fun _ => (opened.replayLog.run d.disk).1.2, (opened.replayLog.run d.disk).2) := by
    have hbind : Vault.openVault.run d.disk = (opened.replayLog >>= fun r => pure (r.1.map fun _ => r.2)).run d.disk := rfl
    rw [hbind, run_bind, run_pure]
  rw [hrun] at hopen
  obtain ⟨hv, rfl⟩ := Prod.mk.inj hopen
  obtain ⟨state, hstate⟩ := hshows
  obtain ⟨snapshot, hdisk⟩ := hcached
  have hmeta : v.metadata = d.disk.metadata := by
    cases hres : (opened.replayLog.run d.disk).1.1 with
    | error e =>
      rw [hres] at hv
      cases hv
    | ok a =>
      rw [hres] at hv
      obtain rfl := Except.ok.inj hv
      rw [hstate]
  rw [hdisk]
  generalize hdisk₁ : ({ d.disk with snapshot } : Disk) = disk₁
  have hlog : disk₁.log = d.disk.log := hdisk₁ ▸ rfl
  have hsame : disk₁.metadata = d.disk.metadata := hdisk₁ ▸ rfl
  have hticked : v.ticked disk₁ = { d.disk.metadata with lamport := (v.ticked disk₁).lamport } := by
    simp only [Vault.ticked, Vault.absorbed, hmeta, hsame, max_self]
  have hwrite := (Vault.write_spec (v := v) (d := disk₁) w).run
  generalize (w.prog v).run disk₁ = out at hwrite ⊢
  obtain ⟨⟨res, v'⟩, disk'⟩ := out
  have hgrew : ∀ v' disk', Vault.LocalWrite v disk₁ v' disk' → Grew (reread d) (reread ⟨disk', d.vault⟩) ∧
      disk'.metadata.syncCursor = d.disk.metadata.syncCursor := by
    intro v' disk' hw
    have hgrew : ∀ disk' : Disk, (∀ f ∈ d.disk.log, f ∈ disk'.log) →
        (∃ n, disk'.metadata = { d.disk.metadata with lamport := n }) → Grew (reread d) (reread ⟨disk', d.vault⟩) := by
      rintro disk' hin ⟨n, hn⟩
      unfold reread
      dsimp only
      rw [hn]
      exact ⟨rfl, hin, fun _ => hn, fun _ => rfl⟩
    cases hw with
    | refused => exact ⟨hgrew _ (hlog ▸ fun _ h => h) ⟨_, hsame⟩, by rw [hsame]⟩
    | spent => exact ⟨hgrew _ (hlog ▸ fun _ h => h) ⟨_, hticked⟩, by rw [hticked]⟩
    | wrote r key entryId => exact ⟨hgrew _ (hlog ▸ fun _ h => List.mem_append_left _ h) ⟨_, hticked⟩, by rw [hticked]⟩
  obtain ⟨hg, hcursor⟩ := hgrew v' disk' hwrite
  exact ⟨h.kept.grew hg, h.cursor.trans_eq hcursor.symm⟩

/-! ## A round of the daemon -/

theorem reload_meets {serves : Call → Db → Answer → Db → Prop} {Q : Device → Unit → Db → Prop} (h : Held id d db)
    (hQ : ∀ d', Delivery.Kept id d' db → Q d' () db) : Meets serves Q (Held id) (onVault (·.reload)) d db := by
  have hkept : Delivery.Kept id ⟨((d.vault.reload).run d.disk).2, ((d.vault.reload).run d.disk).1.2⟩ db :=
    h.kept.grew (Delivery.grew_shows (d := reread d) ((Delivery.replayLog_shows _).run _)
      (Vault.cached_run (Vault.replayLog_cached _) _))
  exact Cursor.onVault_meets rfl (fun _ _ => hQ _ hkept) fun _ _ => .of_kept hkept

/-- At the end of a round, with nothing up to `b` left to fetch if it went well. -/
def Ended (id : Identity) (b : Nat) (d : Device) (out : Outcome) (db : Db) : Prop :=
  Held id d db ∧ ∀ n, out = .ok (some n) → b ≤ d.vault.metadata.syncCursor

theorem round_ended (h : Held id d db) :
    (round d).Against (network.Serves Onward) (Ended id (db.head (vaultOf id))) db := by
  have hround : Meets (network.Serves Onward) (fun d' last db' => Ended id (db.head (vaultOf id)) d' (.ok last) db') (Held id)
      round d db := by
    refine Meets.bind (reload_meets h fun d₁ h₁ => ?_)
    refine Session.Against.bind (Session.Against.mono (Delivery.syncOnce_delivers h₁) fun d₂ r db₂ h₂ => ?_)
    cases r with
    | ok counts => exact ⟨.of_kept h₂.kept, fun _ _ => h₂.head⟩
    | error e =>
      have hsettle : settle (.error e) = if transient e then .ok none else .error e := rfl
      rw [hsettle]
      split
      · exact ⟨.of_kept h₂, fun _ h => nomatch h⟩
      · exact .of_kept h₂
  refine Session.Against.mono hround fun d' out db' h => ?_
  cases out with
  | ok last => exact h
  | error e => exact ⟨h, fun _ h => nomatch h⟩

/-! ### Its requests -/

def Plain (call : Call) : Prop := ∀ ts, EntriesDecode (call.what.request ts)

theorem plain_push {note : Note} {v : Wire} {key : EdKey} (entries : List (Uuid × Bytes × Uuid)) :
    Plain ⟨note, .post v key (.push ⟨entries.map Sync.wireEntry⟩)⟩ := by
  intro ts signed r hreq hreads e he
  obtain rfl := (Request.post.inj hreq).2
  obtain ⟨j, hj, hread⟩ := hreads
  obtain rfl := Body.json.inj hj
  have hdec := decodeAt_toJson (.push ⟨entries.map Sync.wireEntry⟩) .push
  rw [decodeAt] at hdec
  obtain ⟨r', hr', heq⟩ := Option.map_eq_some_iff.mp hdec
  obtain rfl := ClientReq.push.inj heq
  obtain rfl := Option.some.inj (hread.symm.trans hr')
  obtain ⟨x, -, rfl⟩ := List.mem_map.mp he
  exact ⟨_, rfl⟩

/-- A round pushes what decodes. Nothing need be known of its state for that. -/
theorem syncs_plain : Syncs (.does (fun _ _ => True) fun _ call => Plain call) fun _ _ => True where
  asks action := by
    refine .bind (.ask fun d _ _ => ⟨fun ts signed r h => ?_, fun _ _ => trivial⟩) fun _ => .lift _
    cases action <;> cases h
  absorbs share list := .onState fun _ _ h => h
  reads := .onState fun _ _ h => h
  pushes gained entries :=
    .bind (.bind (.ask fun _ _ _ => ⟨plain_push entries, fun _ _ => trivial⟩) fun _ => .lift _) fun _ => .lift _
  rewinds := .onState fun _ _ h => h
  pulls := .bind (.ask fun _ _ _ => ⟨fun _ _ _ h => (nomatch h), fun _ _ => trivial⟩) fun _ => .bind (.lift _) fun _ => .lift _
  applies id blob := .onState fun _ _ h => h
  moves head := .onState fun _ _ h => h

/-- All that is left to ask decodes. -/
def Sound (c : Session Device Call Answer Outcome) : Prop := c.Always (fun _ _ => True) (fun _ call => Plain call) fun _ _ => True

theorem round_sound (d : Device) : Sound (round d) := by
  have hsync := Judgement.Keeps.does.mp syncs_plain.syncOnce
  have hround : Client.Does (fun _ _ => True) (fun _ call => Plain call) (fun _ _ => True) (fun _ => True) round d := by
    refine Does.bind (Does.onState (fun _ _ => ?_) fun _ _ => trivial)
    exact Session.Always.bind (Session.Always.mono (hsync _ trivial) fun _ r _ => by cases settle r <;> trivial)
  exact Session.Always.mono hround fun _ _ _ => trivial

end Daemon

end SshVault
