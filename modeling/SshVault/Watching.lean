import SshVault.Client.Daemon
import SshVault.Client.Quiescence

/-!
# News (`src/sync.rs`, `syncd`)

As long as its socket is whole, the daemon misses nothing that is stored after it has connected, and a message starts a
round only if the relay has something past the cursor.
-/

open Lib

namespace SshVault

open Relay Prog

namespace Daemon

open Sync Client
open Delivery (Chore network Outcome Onward Grew)

variable {id : Identity} {d d' : Device} {db db' : Db} {vault : Wire}

/-! ## No news is missed -/

/-- The head is known, on its way, or not above `b`. -/
def Comes (vault : Wire) (known : Nat → Prop) (b : Nat) (s : Db × Socket) : Prop :=
  s.2.Whole → known (s.1.head vault) ∨ s.2.Brings (s.1.head vault) ∨ s.1.head vault ≤ b

variable {known : Nat → Prop} {b : Nat} {s t : Db × Socket} {now : Now} {req : Request}

theorem Comes.asked (h : Comes vault known b s) (hreq : EntriesDecode req) : Comes vault known b (asked vault now req s).2 := by
  intro hwhole
  change Socket.Whole (s.2.notifyAll (notices vault req (exec (route now req) s.1).1)) at hwhole
  change known ((exec (route now req) s.1).2.head vault) ∨
    (s.2.notifyAll (notices vault req (exec (route now req) s.1).1)).Brings ((exec (route now req) s.1).2.head vault) ∨
      (exec (route now req) s.1).2.head vault ≤ b
  have hkeeps : ∀ (l : List Nat) (s : Socket), (s.notifyAll l).Whole → s.Whole ∧ ∀ n, s.Brings n → (s.notifyAll l).Brings n := by
    intro l
    induction l with
    | nil => exact fun s h => ⟨h, fun _ h => h⟩
    | cons n l ih =>
      intro s h
      obtain ⟨hnext, hbrings⟩ := ih (s.notify n) h
      exact ⟨Socket.whole_of_notify hnext, fun m hm => hbrings m (Socket.brings_notify hm)⟩
  have hroute : Relay.Told vault req s.1 (exec (route now req) s.1).1 (exec (route now req) s.1).2 := route_told hreq
  rcases hroute with hsame | htold
  · rw [hsame]
    obtain ⟨hold, hbrings⟩ := hkeeps _ _ hwhole
    exact (h hold).imp_right (Or.imp_left (hbrings _))
  · rw [htold] at hwhole ⊢
    exact Or.inr (Or.inl (Socket.notify_brings hwhole))

theorem asked_onward : Onward s.1 (asked vault now req s).2.1 := Delivery.exec_onward now req s.1

theorem watched_moves {x y : Desk Device Call Response Outcome} (h : (watched vault).Moves s x y t) (hx : Sound x.left) :
    network.Moves s.1 x y t.1 ∧ Sound y.left ∧ ∀ {known b}, Comes vault known b s → Comes vault known b t := by
  cases h with
  | served clocks d call k =>
    exact ⟨.served clocks d call k, hx, fun h => h.asked (hx.1 clocks.ts)⟩
  | answered d call k p => exact ⟨.answered d call k p, hx.2 _ trivial, fun h => h⟩
  | lost d call k mail => exact ⟨.lost d call k mail, hx.2 _ trivial, fun h => h⟩

/-- `known` is what the head may have been when the socket was opened. -/
def Inv (id : Identity) (known : Nat → Prop) (w : World) : Prop :=
  match w.daemon.phase with
  | .round x subscribed => Sound x.left ∧ ∃ b, network.Minds Onward (Ended id b) x w.relay.1 ∧
      (subscribed = true → Comes (vaultOf id) known b w.relay)
  | .listening d last => Held id d w.relay.1 ∧ ∃ b, (last ≠ none → b ≤ d.vault.metadata.syncCursor) ∧
      Comes (vaultOf id) known b w.relay
  | .connecting d _ | .waiting d | .stopped d _ => Held id d w.relay.1

/-- What may happen while a socket is open. -/
def Holding : Event → Prop
  | .connects => False
  | .asks _ req => EntriesDecode req
  | _ => True

theorem relies : network.Relies Onward where
  refl := .refl
  trans := .trans
  serve how r t := Delivery.exec_onward ..
  others := by
    rintro t u ⟨now, req, rfl⟩
    exact Delivery.exec_onward ..

theorem Ended.onward {out : Outcome} (h : Ended id b d out db) (ho : Onward db db') : Ended id b d out db' :=
  ⟨h.1.onward ho, h.2⟩

theorem Inv.again (h : Held id d s.1) (n : Nat) (subscribed : Bool) : Inv id known ⟨⟨again d subscribed, n⟩, s⟩ :=
  ⟨round_sound d, s.1.head (vaultOf id), .begins (round_ended h), fun _ _ => Or.inr (Or.inr le_rfl)⟩

theorem Inv.relay {st : State} (h : Inv id known ⟨st, s⟩) (ho : Onward s.1 t.1)
    (hcomes : ∀ b, Comes (vaultOf id) known b s → Comes (vaultOf id) known b t) : Inv id known ⟨st, t⟩ := by
  obtain ⟨phase, n⟩ := st
  cases phase with
  | round x subscribed =>
    obtain ⟨hx, b, hminds, hb⟩ := h
    exact ⟨hx, b, hminds.later relies (fun _ _ _ _ h ho => h.onward ho) ho, fun hs => hcomes b (hb hs)⟩
  | listening d last =>
    obtain ⟨hd, b, hle, hb⟩ := h
    exact ⟨hd.onward ho, b, hle, hcomes b hb⟩
  | connecting d last => exact Held.onward h ho
  | waiting d => exact Held.onward h ho
  | stopped d e => exact Held.onward h ho

variable {w w' : World} {e : Event}

theorem Inv.step (h : Inv id known w) (hstep : Step (vaultOf id) w e w') (he : (∀ n, known n) ∨ Holding e) :
    Inv id known w' := by
  cases hstep with
  | moves n subscribed hmove =>
    obtain ⟨hx, b, hminds, hb⟩ := h
    obtain ⟨hmove, hy, hcomes⟩ := watched_moves hmove hx
    obtain ⟨hminds, -⟩ := hminds.moves relies hmove
    exact ⟨hy, b, hminds, fun hs => hcomes (hb hs)⟩
  | ends d out subscribed n s =>
    obtain ⟨-, b, ⟨hd, hcaught⟩, hb⟩ := h
    cases out with
    | error e => exact hd
    | ok last =>
      cases subscribed with
      | false => exact hd
      | true =>
        refine ⟨hd, b, fun hlast => ?_, hb rfl⟩
        obtain ⟨counts, rfl⟩ := Option.ne_none_iff_exists'.mp hlast
        exact hcaught counts rfl
  | connects d last n db s =>
    refine ⟨h, 0, fun _ => Nat.zero_le _, fun _ => Or.inl ?_⟩
    -- A connection is taken only where every head counts as known.
    exact he.elim (fun hall => hall _) False.elim
  | refused d last n s => exact h
  | @hears d last n db s m rest hsent =>
    obtain ⟨hd, b, hle, hb⟩ := h
    have hnext : Inv id known ⟨⟨hear d last m, n⟩, (db, { s with sent := rest })⟩ := by
      unfold hear
      split
      · exact .again (s := (db, { s with sent := rest })) hd n true
      · rename_i hstale
        refine ⟨hd, max b d.vault.metadata.syncCursor, fun hlast => max_le (hle hlast) le_rfl, fun hwhole => ?_⟩
        rcases hb hwhole with hknown | hbrings | hbelow
        · exact Or.inl hknown
        · rcases hbrings with hqueue | hin
          · exact Or.inr (Or.inl (Or.inl hqueue))
          · rw [hsent] at hin
            rcases List.mem_cons.mp hin with hm | hrest
            · -- The message is about this head, and it was no news.
              obtain rfl := Message.text.inj hm
              exact Or.inr (Or.inr ((le_of_not_stale (Bool.eq_false_iff.mpr hstale)).trans (le_max_right _ _)))
            · exact Or.inr (Or.inl (Or.inr hrest))
        · exact Or.inr (Or.inr (hbelow.trans (le_max_left _ _)))
    exact hnext
  | @ignores d last n db s rest hsent =>
    obtain ⟨hd, b, hle, hb⟩ := h
    refine ⟨hd, b, hle, fun hwhole => (hb hwhole).imp_right (Or.imp_left (Or.imp_right fun hin => ?_))⟩
    rw [hsent] at hin
    exact (List.mem_cons.mp hin).resolve_left fun heq => nomatch heq
  | drops d last n db s held hend =>
    obtain ⟨hd, -⟩ := h
    have hnext : Inv id known ⟨dropped d n held, (db, { s with live := false })⟩ := by
      unfold dropped
      split
      · exact .again (s := (db, { s with live := false })) hd 1 false
      · exact hd
    exact hnext
  | ticks d last n s => exact .again h.1 n true
  | wakes d n s => exact .again h _ false
  | forwards st db s hlive =>
    refine h.relay (.refl db) fun b hb hwhole => ?_
    -- A message moves from the queue to the socket.
    have hold := Socket.whole_of_forward hwhole
    exact (hb hold).imp_right (Or.imp_left (Socket.brings_forward hold))
  | cuts st db s n => exact h.relay (.refl db) fun b hb hwhole => nomatch hwhole.1
  | injects st db s m =>
    exact h.relay (.refl db) fun b hb hwhole => (hb hwhole).imp_right (Or.imp_left (Or.imp_right (List.mem_append_left _)))
  | asks st s now req =>
    refine h.relay asked_onward fun b hb => ?_
    rcases he with hall | hreq
    · exact fun _ => Or.inl (hall _)
    · exact hb.asked hreq
  | @writes p hp d n s write v disk hopen =>
    cases hp with
    | connecting last => exact Held.write h hopen write
    | listening last =>
      obtain ⟨hd, b, hle, hb⟩ := h
      exact ⟨hd.write hopen write, b, hle, hb⟩
    | waiting => exact Held.write h hopen write

theorem Inv.run {es : List Event} (h : Inv id known w) (hrun : Run (vaultOf id) w es w')
    (hes : (∀ n, known n) ∨ ∀ e ∈ es, Holding e) : Inv id known w' := by
  induction hrun with
  | nil => exact h
  | snoc hrun hstep ih =>
    refine (ih (hes.imp_right fun hall e he => hall e (List.mem_append_left _ he))).step hstep (hes.imp_right fun hall => ?_)
    exact hall _ (List.mem_append_right _ List.mem_cons_self)

/-! ## The daemon after any run of the devices -/

/-- The daemon starts. -/
def World.start (d : Device) (db : Db) : World := ⟨Daemon.start d, (db, { live := false })⟩

theorem Inv.start (h : Delivery.Kept id d db) : Inv id known (World.start d db) := by
  unfold World.start Daemon.start
  split
  · exact .of_kept h
  · exact .again (.of_kept h) 1 false

variable {ι : Type} [DecidableEq ι] {c₀ c : Delivery.Fleet ι} {ids : ι → Identity}

/-- All that is on its way is a head that the vault has, or has had. -/
structure Bounded (vault : Wire) (s : Db × Socket) : Prop where
  queue : ∀ n ∈ s.2.queue, n ≤ s.1.head vault
  sent : ∀ m ∈ s.2.sent, ∃ n, m = .text (toString n) ∧ n ≤ s.1.head vault

theorem Bounded.notify {n : Nat} {socket : Socket} (h : Bounded vault (db, socket)) (hn : n ≤ db.head vault) :
    Bounded vault (db, socket.notify n) := by
  unfold Socket.notify
  split
  · refine ⟨fun m hm => ?_, h.sent⟩
    rcases List.mem_append.mp hm with hm | hm
    · exact h.queue m hm
    · rw [List.mem_singleton.mp hm]
      exact hn
  · exact h

theorem Bounded.asked (h : Bounded vault s) : Bounded vault (asked vault now req s).2 := by
  have hle : s.1.head vault ≤ (exec (route now req) s.1).2.head vault := (Delivery.exec_onward now req s.1).head vault
  have hbefore : Bounded vault ((exec (route now req) s.1).2, s.2) :=
    ⟨fun n hn => (h.queue n hn).trans hle, fun m hm => by
      obtain ⟨n, rfl, hn⟩ := h.sent m hm
      exact ⟨n, rfl, hn.trans hle⟩⟩
  have hall : ∀ (l : List Nat) (socket : Socket), (∀ n ∈ l, n ≤ (exec (route now req) s.1).2.head vault) →
      Bounded vault ((exec (route now req) s.1).2, socket) → Bounded vault ((exec (route now req) s.1).2, socket.notifyAll l) := by
    intro l
    induction l with
    | nil => exact fun _ _ h => h
    | cons n l ih =>
      intro socket hl h
      obtain ⟨hn, hl⟩ := List.forall_mem_cons.mp hl
      exact ih _ hl (h.notify hn)
  exact hall _ _ (fun n hn => (route_notices hn).le) hbefore

theorem Bounded.step (h : Bounded vault w.relay) (hstep : Step vault w e w') (he : ∀ m, e ≠ .injects m) :
    Bounded vault w'.relay := by
  cases hstep with
  | moves n subscribed hmove =>
    cases hmove with
    | served clocks d call k => exact h.asked
    | answered d call k p => exact h
    | lost d call k mail => exact h
  | ends => exact h
  | connects => exact ⟨List.forall_mem_nil _, List.forall_mem_nil _⟩
  | refused => exact h
  | hears d last n db s hsent =>
    refine ⟨h.queue, fun m hm => h.sent m ?_⟩
    change m ∈ s.sent
    rw [hsent]
    exact List.mem_cons_of_mem _ hm
  | ignores d last n db s hsent =>
    refine ⟨h.queue, fun m hm => h.sent m ?_⟩
    change m ∈ s.sent
    rw [hsent]
    exact List.mem_cons_of_mem _ hm
  | drops => exact ⟨h.queue, h.sent⟩
  | ticks => exact h
  | wakes => exact h
  | forwards st db s hlive =>
    change Bounded vault (db, s.forward)
    unfold Socket.forward
    split
    · exact ⟨h.queue, h.sent⟩
    · split
      · exact h
      · rename_i head rest hqueue
        have hin : ∀ n ∈ head :: rest, n ≤ db.head vault := hqueue ▸ h.queue
        obtain ⟨hhead, hrest⟩ := List.forall_mem_cons.mp hin
        exact ⟨hrest, List.forall_mem_append.mpr ⟨h.sent, List.forall_mem_singleton.mpr ⟨head, rfl, hhead⟩⟩⟩
  | cuts st db s n => exact ⟨h.queue, fun m hm => h.sent m (List.mem_of_mem_take hm)⟩
  | injects st db s m => exact absurd rfl (he m)
  | asks => exact h.asked
  | writes => exact h

theorem Bounded.run {es : List Event} (h : Bounded vault w.relay) (hrun : Run vault w es w')
    (hes : ∀ m, .injects m ∉ es) : Bounded vault w'.relay := by
  induction hrun with
  | nil => exact h
  | snoc hrun hstep ih =>
    refine (ih fun m hm => hes m (List.mem_append_left _ hm)).step hstep fun m heq => hes m ?_
    rw [heq]
    exact List.mem_append_right _ List.mem_cons_self

/-- **No round for what is there.** In any run in which only the relay writes to the socket, a message starts a round
only if the relay has something that the daemon's cursor has not passed. -/
theorem no_needless_round {es : List Event} {m : String} {w₀ w₁ w₂ : World} (h₀ : w₀ = World.start d db)
    (hrun : Run vault w₀ es w₁) (hes : ∀ m, .injects m ∉ es) (hstep : Step vault w₁ (.hears m) w₂) {last : Option (Nat × Nat)}
    (hlistens : w₁.daemon.phase = .listening d' last) (hsize : w₁.relay.1.head vault < 2 ^ 64)
    (hcursor : w₁.relay.1.head vault ≤ d'.vault.metadata.syncCursor) : w₂.daemon = w₁.daemon := by
  have hstart : Bounded vault w₀.relay := by
    rw [h₀]
    exact ⟨List.forall_mem_nil _, List.forall_mem_nil _⟩
  -- A message tells a head that the log had by then.
  have hbounded := hstart.run hrun hes
  cases hstep with
  | hears d₁ last₁ n db s hsent =>
    obtain ⟨rfl, rfl⟩ := Phase.listening.inj hlistens
    have hin : Message.text m ∈ s.sent := hsent ▸ List.mem_cons_self
    obtain ⟨n, hm, hn⟩ := hbounded.sent _ hin
    obtain rfl := Message.text.inj hm
    change State.mk (hear d₁ last₁ (toString n)) _ = State.mk (.listening d₁ last₁) _
    unfold hear
    rw [not_stale_of_le (hn.trans_lt hsize) (hn.trans hcursor), if_neg Bool.false_ne_true]

/-! ## Reconnecting -/

/-- How long the daemon has slept between connections, since the last that held. -/
def sleeps (es : List Event) : List Nat := es.foldl (fun slept e => match e with
  | .wakes secs => slept ++ [secs]
  | .drops held => if healthyConn ≤ held then [] else slept
  | _ => slept) []

/-- A list of `n` delays, each twice the one before as long as it stays within the limit. -/
def delays (n : Nat) : List Nat := (List.range n).map fun k => min maxBackoff (2 ^ k)

theorem delays_succ (n : Nat) : delays (n + 1) = delays n ++ [min maxBackoff (2 ^ n)] := by
  unfold delays
  rw [List.range_succ, List.map_append, List.map_singleton]

theorem Run.trans {w w₁ w₂ : World} {es es' : List Event} (h : Run vault w es w₁) (h' : Run vault w₁ es' w₂) :
    Run vault w (es ++ es') w₂ := by
  induction h' with
  | nil => rwa [List.append_nil]
  | snoc _ hstep ih =>
    rw [← List.append_assoc]
    exact .snoc ih hstep

/-! ## Two hosts -/

namespace TwoHosts

open Delivery.TwoDevices (fresh start start_start admitted elsewhere_foldl addWeb)

def ours : Wire := (fresh true).vaultId

def answer (call : Call) (s : Db × Socket) : Answer × Db × Socket :=
  let out := asked ours 0 (call.what.request 0) s
  (some out.1, out.2)

theorem run_round (x : Session Device Call Answer Outcome) (subscribed : Bool) (n : Nat) (s : Db × Socket)
    {last : Option (Nat × Nat)} (hok : (x.against answer s).2.1.toOption = some last) :
    ∃ es, (∀ e ∈ es, e = .moves ∨ e = .ends) ∧ Run ours ⟨⟨.round ⟨x, none⟩ subscribed, n⟩, s⟩ es
      ⟨⟨if subscribed then .listening (x.against answer s).1 last else .connecting (x.against answer s).1 last, n⟩,
        (x.against answer s).2.2⟩ := by
  induction x generalizing s with
  | done d out =>
    cases out with
    | error e => cases hok
    | ok a =>
      obtain rfl := Option.some.inj hok
      exact ⟨[.ends], by simp, .snoc .nil (.ends d (.ok a) subscribed n s)⟩
  | ask d call k ih =>
    obtain ⟨es, hes, hrun⟩ := ih (answer call s).1 (answer call s).2 hok
    have hserved : Step ours ⟨⟨.round ⟨.ask d call k, none⟩ subscribed, n⟩, s⟩ .moves
        ⟨⟨.round ⟨.ask d call k, some (asked ours 0 (call.what.request 0) s).1⟩ subscribed, n⟩, (answer call s).2⟩ :=
      .moves n subscribed (Network.Moves.served (⟨0, 0⟩ : Clocks) d call k)
    have hanswered : Step ours ⟨⟨.round ⟨.ask d call k, some (asked ours 0 (call.what.request 0) s).1⟩ subscribed, n⟩, (answer call s).2⟩
        .moves ⟨⟨.round ⟨k (answer call s).1, none⟩ subscribed, n⟩, (answer call s).2⟩ :=
      .moves n subscribed (Network.Moves.answered d call k _)
    refine ⟨[.moves] ++ [.moves] ++ es, by simpa using hes, Run.trans (.snoc (.snoc .nil hserved) hanswered) hrun⟩

/-- Device 0 adds two hosts. -/
def addDb : Write :=
  .addIn ⟨fun l => l, .refl⟩ .host "alias" "db" ((∅ : Payload).insert "alias" (.str (.plain "db"))) nil 21 31 0

def twice : Device := ((fresh false).perform (Write.addIn ⟨fun l => l, .refl⟩ .host "alias" "web"
  ((∅ : Payload).insert "alias" (.str (.plain "web"))) nil 20 30 0).prog).perform addDb.prog

/-- The push of one entry of device 0. -/
def pushOf (k : Nat) : Call :=
  ⟨.plain, .post ours (fresh false).key (.push ⟨((twice.disk.log.drop k).take 1).map fun f => Sync.wireEntry (f.1, f.2, nil)⟩)⟩

def first : Device × Outcome × Db × Socket := (Daemon.round (fresh true)).against answer (admitted, { live := false })

def connected : World := ⟨⟨.listening first.1 (some (0, 0)), 1⟩, (first.2.2.1, {})⟩

def pushed : Db × Socket := [pushOf 0, pushOf 1].foldl (fun s call => (asked ours 0 (call.what.request 0) s).2) connected.relay

/-- Both notices have been sent, and the first one is read. -/
def heard : World := ⟨⟨again first.1 true, 1⟩, (pushed.1, { pushed.2.forward.forward with sent := [.text "2"] })⟩

def second : Device × Outcome × Db × Socket := (Daemon.round first.1).against answer heard.relay

def before : World := ⟨⟨.listening second.1 (some (0, 2)), 1⟩, second.2.2⟩

def after : World := ⟨⟨.listening second.1 (some (0, 2)), 1⟩, (second.2.2.1, { second.2.2.2 with sent := [] })⟩

theorem run_first : ∃ es, (∀ e ∈ es, e = .moves ∨ e = .ends) ∧
    Run ours (World.start (fresh true) admitted) es ⟨⟨.connecting first.1 (some (0, 0)), 1⟩, first.2.2⟩ :=
  run_round (round (fresh true)) false 1 (admitted, { live := false }) (by decide +kernel)

theorem step_connected : Step ours ⟨⟨.connecting first.1 (some (0, 0)), 1⟩, first.2.2⟩ .connects connected :=
  .connects first.1 (some (0, 0)) 1 first.2.2.1 first.2.2.2

theorem run_heard : Run ours connected
    [.asks 0 ((pushOf 0).what.request 0), .asks 0 ((pushOf 1).what.request 0), .forwards, .forwards, .hears "1"] heard := by
  let listens : State := ⟨.listening first.1 (some (0, 0)), 1⟩
  have hnotices : pushed.2.live = true ∧ pushed.2.forward.live = true ∧
      pushed.2.forward.forward.sent = [.text "1", .text "2"] ∧ stale first.1.vault.metadata.syncCursor "1" = true := by
    decide +kernel
  obtain ⟨hlive, hlive', hsent, hstale⟩ := hnotices
  have h₁ : Run ours connected [.asks 0 ((pushOf 0).what.request 0), .asks 0 ((pushOf 1).what.request 0)] ⟨listens, pushed⟩ :=
    .snoc (.snoc .nil (.asks listens connected.relay 0 _)) (.asks listens _ 0 _)
  have h₂ := Run.snoc (Run.snoc h₁ (.forwards listens pushed.1 pushed.2 hlive))
    (.forwards listens pushed.1 pushed.2.forward hlive')
  have hears : Step ours ⟨listens, (pushed.1, pushed.2.forward.forward)⟩ (.hears "1")
      ⟨⟨hear first.1 (some (0, 0)) "1", 1⟩, (pushed.1, { pushed.2.forward.forward with sent := [.text "2"] })⟩ :=
    .hears first.1 (some (0, 0)) 1 pushed.1 pushed.2.forward.forward hsent
  have hnews : hear first.1 (some (0, 0)) "1" = again first.1 true := if_pos hstale
  rw [hnews] at hears
  exact h₂.snoc hears

theorem run_before : ∃ es, (∀ e ∈ es, e = .moves ∨ e = .ends) ∧ Run ours heard es before :=
  run_round (round first.1) true 1 heard.relay (by decide +kernel)

theorem step_after : Step ours before (.hears "2") after := by
  have hnotice : second.2.2.2.sent = [.text "2"] ∧ stale second.1.vault.metadata.syncCursor "2" = false := by decide +kernel
  obtain ⟨hsent, hstale⟩ := hnotice
  have hears : Step ours before (.hears "2")
      ⟨⟨hear second.1 (some (0, 2)) "2", 1⟩, (second.2.2.1, { second.2.2.2 with sent := [] })⟩ :=
    .hears second.1 (some (0, 2)) 1 second.2.2.1 second.2.2.2 hsent
  have hold : hear second.1 (some (0, 2)) "2" = .listening second.1 (some (0, 2)) := if_neg (by rw [hstale]; decide)
  rw [hold] at hears
  exact hears

theorem after_quiet : (second.2.2.2.live = true ∧ second.2.2.2.lagged = false) ∧ second.2.2.2.queue = [] ∧
    second.2.2.1.head ours < 2 ^ 64 ∧ second.2.2.1.head ours ≤ second.1.vault.metadata.syncCursor := by
  decide +kernel

end TwoHosts

open TwoHosts

theorem no_needless_round_two : after.daemon = before.daemon := by
  obtain ⟨es₁, hes₁, h₁⟩ := run_first
  obtain ⟨es₂, hes₂, h₂⟩ := run_before
  refine no_needless_round rfl ((h₁.snoc step_connected).trans (run_heard.trans h₂)) ?_ step_after rfl after_quiet.2.2.1
    after_quiet.2.2.2
  intro m hm
  simp at hm
  rcases hm with hm | hm
  · exact (hes₁ _ hm).elim nofun nofun
  · exact (hes₂ _ hm).elim nofun nofun

end Daemon

end SshVault
