import SshVault.Relay.Specs

/-!
# Pull among concurrent pushes

`pull` reads the entries and the head in two statements, and other handlers run their own
statements in between. The threads here only append entries, so what a pull misses is what
arrived between its two reads.
-/

open Lib

namespace SshVault.Relay

/-- The database only grew by entries with new sequence numbers and new ids. -/
def Grows (db db' : Db) : Prop :=
  db'.shareMembers = db.shareMembers ∧ ∃ new, db'.entries = db.entries ++ new ∧
    ∀ e ∈ new, ∀ e' ∈ db.entries, e'.seq < e.seq ∧ e'.key ≠ e.key

theorem Grows.refl (db : Db) : Grows db db := ⟨rfl, [], by simp⟩

theorem Grows.trans (a b c : Db) (h : Grows a b) (h' : Grows b c) : Grows a c := by
  obtain ⟨hm, new, he, hnew⟩ := h
  obtain ⟨hm', new', he', hnew'⟩ := h'
  refine ⟨hm'.trans hm, new ++ new', by rw [he', he, List.append_assoc], ?_⟩
  intro e hmem e' hold
  rcases List.mem_append.mp hmem with hmem | hmem
  · exact hnew e hmem e' hold
  · exact hnew' e hmem e' (by rw [he]; exact List.mem_append_left _ hold)

/-! ## Sequence numbers -/

theorem seq_le_head {db : Db} {e : EntryRow} (he : e ∈ db.entries) : e.seq ≤ db.head e.vaultId :=
  le_foldr_max (List.mem_map_of_mem (List.mem_filter.mpr ⟨he, by simp⟩))

theorem asI64_le (n : Nat) : Db.asI64 n ≤ n := by
  unfold Db.asI64
  rw [Int.bmod_def]
  split <;> omega

theorem insertEntry_grows (vault : Wire) (entryId blob : Bytes) (share : Uuid) (db : Db) :
    Grows db ((Db.insertEntry vault entryId blob share).run db).2 := by
  change Grows db { db with entries := Table.insertOrIgnore EntryRow.key ⟨vault, db.nextSeq, entryId, blob, share⟩ db.entries, lastSeq := db.nextSeq }
  unfold Table.insertOrIgnore
  split
  · exact ⟨rfl, [], (List.append_nil _).symm, List.forall_mem_nil _⟩
  · rename_i hnew
    refine ⟨rfl, [_], rfl, ?_⟩
    intro e he e' he'
    obtain rfl := List.mem_singleton.mp he
    exact ⟨lt_nextSeq he', fun hk => hnew ⟨e', he', hk⟩⟩

/-! ## Push and pull only append -/

theorem reads_grow {α : Type} {f : Db → α} : Prog.Each Grows (Prog.atom fun db => (f db, db)) :=
  Prog.Each.atom fun db => Grows.refl db

theorem authorize_grows (now : Now) (signed : Signed) (refusal : String) :
    Prog.Each Grows (authorize now signed refusal).run := by
  unfold authorize canSync
  refine Prog.Each.bindExcept (Prog.Each.liftExcept _) fun (vault, key) => ?_
  refine Prog.Each.bindExcept (Prog.Each.lift (Prog.Each.bind reads_grow fun _ => trivial)) fun ok => ?_
  split <;> trivial

theorem forEach_grows {β γ : Type} {decode : β → Except HttpError γ} {stmt : γ → Prog Db Nat}
    (hstmt : ∀ c, Prog.Each Grows (stmt c)) (l : List β) : Prog.Each Grows (forEach decode stmt l).run := by
  induction l with
  | nil => trivial
  | cons b l ih =>
    unfold forEach
    refine Prog.Each.bindExcept (Prog.Each.liftExcept _) fun c => ?_
    refine Prog.Each.bindExcept (Prog.Each.lift (hstmt c)) fun n => ?_
    exact Prog.Each.bindExcept ih fun _ => trivial

theorem push_grows (now : Now) (signed : Signed) : Prog.Each Grows (route now (.post .push signed)).run := by
  refine Prog.Each.bindExcept ?_ fun _ => trivial
  unfold push
  refine Prog.Each.bindExcept (authorize_grows _ _ _) fun (vault, _) => ?_
  refine Prog.Each.bindExcept (Prog.Each.liftExcept _) fun req => ?_
  unfold applyPush
  refine Prog.Each.bindExcept (forEach_grows (fun e => Prog.Each.atom (insertEntry_grows _ _ _ _)) _) fun stored => ?_
  exact Prog.Each.bindExcept (Prog.Each.lift reads_grow) fun _ => trivial

theorem pull_grows (now : Now) (q : PullQuery) : Prog.Each Grows (route now (.pull q)).run := by
  refine Prog.Each.bindExcept ?_ fun _ => trivial
  unfold pull
  refine Prog.Each.bindExcept (authorize_grows _ _ _) fun (vault, key) => ?_
  refine Prog.Each.bindExcept (Prog.Each.lift reads_grow) fun rows => ?_
  exact Prog.Each.bindExcept (Prog.Each.lift reads_grow) fun _ => trivial

/-! ## The three statements of a pull -/

def wireEntry (r : EntryRow) : WireEntry := ⟨.b64 r.entryId, .b64 r.blob, .b64 (.uuid r.shareId)⟩

/-- The rest of a pull once the entries are read. -/
def pullHead (q : PullQuery) (rows : List EntryRow) : Prog Db (Except HttpError Reply) :=
  .step id fun db => .done (.ok (.pull ⟨rows.map wireEntry, max (db.head q.vault) q.since⟩))

def pullRows (q : PullQuery) (key : EdKey) : Prog Db (Except HttpError Reply) :=
  .step id fun db => pullHead q
    ((db.entries.filter (db.visible q.vault (.ed key) q.since)).insertionSort (·.seq ≤ ·.seq))

theorem authorize_run {now : Now} {signed : Signed} {vault : Wire} {key : EdKey} (refusal : String)
    (hv : verify now.verify signed = .ok (vault, key)) :
    (authorize now signed refusal).run = .step id fun db =>
      .done (if db.canSync vault key then .ok (vault, key) else .error (forbidden refusal)) := by
  unfold authorize
  rw [hv]
  change Prog.step _ _ = _
  congr 1
  funext db
  unfold Db.canSync
  dsimp only [Prog.bind, ExceptT.bindCont]
  generalize (db.device vault (.ed key)).any DeviceRow.canSync = ok
  cases ok <;> rfl

theorem route_pull {now : Now} {q : PullQuery} {key : EdKey}
    (hv : verify now.verify ⟨q.vault, q.device, q.sig, q.ts, .pull q.since⟩ = .ok (q.vault, key)) :
    (route now (.pull q)).run = .step id fun db =>
      if db.canSync q.vault key then pullRows q key
      else .done (.error (forbidden "device not enrolled or revoked")) := by
  have hrun := authorize_run "device not enrolled or revoked" hv
  change ((authorize _ _ _).run.bind _).bind _ = _
  rw [hrun]
  change Prog.step _ _ = _
  congr 1
  funext db
  dsimp only [Prog.bind]
  generalize db.canSync q.vault key = ok
  cases ok <;> rfl

theorem route_pull_refused {now : Now} {q : PullQuery} {e : HttpError}
    (hv : verify now.verify ⟨q.vault, q.device, q.sig, q.ts, .pull q.since⟩ = .error e) :
    (route now (.pull q)).run = .done (.error e) := by
  unfold route pull authorize
  dsimp only
  rw [hv]
  rfl

/-! ## What a pull misses -/

/-- An entry that a pull by `key` asks for. -/
def Wanted (db : Db) (q : PullQuery) (key : EdKey) (e : EntryRow) : Prop :=
  e ∈ db.entries ∧ e.vaultId = q.vault ∧ q.since < e.seq ∧
    (e.shareId = nil ∨ db.isMember q.vault e.shareId (.ed key) = true)

/-- The response holds every entry up to its head. -/
def Complete (db : Db) (q : PullQuery) (key : EdKey) (resp : PullResp) : Prop :=
  ∀ e, Wanted db q key e → e.seq ≤ resp.head → wireEntry e ∈ resp.entries

/-- What thread `i` answers when it reads entries in `db` and the head in `db'`. -/
def answer (q : PullQuery) (key : EdKey) (db db' : Db) : PullResp :=
  ⟨((db.entries.filter (db.visible q.vault (.ed key) q.since)).insertionSort (·.seq ≤ ·.seq)).map wireEntry,
    max (db'.head q.vault) q.since⟩

theorem wanted_visible {db : Db} {q : PullQuery} {key : EdKey} {e : EntryRow} (h : Wanted db q key e) :
    db.visible q.vault (.ed key) q.since e = true := by
  obtain ⟨-, hvault, hseq, hshare⟩ := h
  have hcast : Db.asI64 q.since < e.seq := (asI64_le _).trans_lt (by exact_mod_cast hseq)
  simp [Db.visible, hvault, hcast, hshare]

theorem answer_complete_iff {q : PullQuery} {key : EdKey} {db db' : Db} (hgrow : Grows db db') :
    Complete db' q key (answer q key db db') ↔ ∀ e, Wanted db' q key e → e ∈ db.entries := by
  obtain ⟨hmembers, new, hentries, hnew⟩ := hgrow
  have hmember : ∀ share, db'.isMember q.vault share (.ed key) = db.isMember q.vault share (.ed key) := by
    intro share
    unfold Db.isMember
    rw [hmembers]
  constructor
  · intro hcomplete e he
    by_contra hold
    -- A wanted entry that came later has an id that no row of the answer has.
    have hmem : e ∈ new := by
      have := he.1
      rw [hentries] at this
      exact (List.mem_append.mp this).resolve_left hold
    have hle : e.seq ≤ (answer q key db db').head := by
      have := seq_le_head he.1
      rw [he.2.1] at this
      exact this.trans (le_max_left _ _)
    obtain ⟨r, hr, hwire⟩ := List.mem_map.mp (hcomplete e he hle)
    have hrow := List.mem_filter.mp ((List.mem_insertionSort _).mp hr)
    refine (hnew e hmem r hrow.1).2 ?_
    have hvault : r.vaultId = q.vault := by
      have := hrow.2
      simp only [Db.visible, Bool.and_eq_true, decide_eq_true_eq] at this
      exact this.1.1
    simp only [wireEntry, WireEntry.mk.injEq, Text.b64.injEq] at hwire
    simp [EntryRow.key, hvault, he.2.1, hwire.1]
  · intro hall e he _
    have hold : Wanted db q key e := ⟨hall e he, he.2.1, he.2.2.1, by rw [← hmember]; exact he.2.2.2⟩
    refine List.mem_map_of_mem ((List.mem_insertionSort _).mpr ?_)
    exact List.mem_filter.mpr ⟨hold.1, wanted_visible hold⟩

/-! ## Every interleaving -/

section

variable {ι : Type}

abbrev Handlers (ι : Type) := Pool ι Db (Except HttpError Reply)

/-- The requests whose handlers run concurrently. -/
inductive Traffic : Request → Prop
  | push (signed : Signed) : Traffic (.post .push signed)
  | pull (q : PullQuery) : Traffic (.pull q)

def Serves (c : Handlers ι) : Prop := ∀ j, ∃ now r, Traffic r ∧ c.thread j = (route now r).run

theorem Serves.each {c : Handlers ι} (h : Serves c) (j : ι) : (c.thread j).Each Grows := by
  obtain ⟨now, r, hr, hj⟩ := h j
  rw [hj]
  cases hr with
  | push signed => exact push_grows now signed
  | pull q => exact pull_grows now q

variable [DecidableEq ι]

/-- Thread `i` takes the three steps of a pull, among any steps of the others. It reads the entries
in `atEntries` and the head in `atHead`. -/
inductive PullRun (i : ι) (c₀ atEntries atHead final : Handlers ι) : Prop
  | mk {c₁ c₁' c₂' : Handlers ι} (start : Pool.Others i c₀ c₁) (auth : Pool.Step i c₁ c₁')
      (before : Pool.Others i c₁' atEntries) (entries : Pool.Step i atEntries c₂')
      (between : Pool.Others i c₂' atHead) (head : Pool.Step i atHead final)

theorem step_id {i : ι} {c c' : Handlers ι} {k : Db → Prog Db (Except HttpError Reply)}
    (h : Pool.Step i c c') (hi : c.thread i = .step id k) : c'.thread i = k c.state ∧ c'.state = c.state := by
  obtain ⟨h⟩ := h
  rw [hi] at h
  obtain ⟨rfl, rfl⟩ := Prog.step.inj h
  exact ⟨Function.update_self .., rfl⟩

theorem no_step {i : ι} {c c' : Handlers ι} {a : Except HttpError Reply}
    (h : Pool.Step i c c') (hi : c.thread i = .done a) : False := by
  obtain ⟨h⟩ := h
  rw [hi] at h
  cases h

/-- A pull that finishes has verified, and answers from the two states it read. -/
theorem PullRun.answers {i : ι} {c₀ atEntries atHead final : Handlers ι} {now : Now} {q : PullQuery}
    (hi : c₀.thread i = (route now (.pull q)).run) (hserves : Serves c₀)
    (hrun : PullRun i c₀ atEntries atHead final) :
    ∃ key, q.device.decodeEd = some key ∧ Grows atEntries.state atHead.state ∧ final.state = atHead.state ∧
      final.thread i = .done (.ok (.pull (answer q key atEntries.state atHead.state))) := by
  obtain ⟨hstart, hauth, hbefore, hentries, hbetween, hhead⟩ := hrun
  have hall₁ := (hstart.rel Grows.refl Grows.trans hserves.each).2
  have hall₂ := (hbefore.rel Grows.refl Grows.trans (hauth.each hall₁)).2
  have hgrow := (hbetween.rel Grows.refl Grows.trans (hentries.each hall₂)).1
  rw [← hstart.thread_eq] at hi
  cases hv : verify now.verify ⟨q.vault, q.device, q.sig, q.ts, .pull q.since⟩ with
  | error e =>
    rw [route_pull_refused hv] at hi
    exact (no_step hauth hi).elim
  | ok out =>
    obtain ⟨vault, key⟩ := out
    obtain ⟨-, rfl, hkey, -⟩ := verify_ok hv
    rw [route_pull hv] at hi
    have hsecond := (step_id hauth hi).1
    rw [← hbefore.thread_eq] at hsecond
    split at hsecond
    · obtain ⟨hthird, hstate⟩ := step_id hentries hsecond
      rw [← hbetween.thread_eq] at hthird
      obtain ⟨hdone, hfinal⟩ := step_id hhead hthird
      exact ⟨key, hkey, hstate ▸ hgrow, hfinal, hdone⟩
    · exact (no_step hentries hsecond).elim

/-- **A pull is complete exactly when** nothing it asks for arrives between its two reads. -/
theorem pull_complete_iff {i : ι} {c₀ atEntries atHead final : Handlers ι} {now : Now} {q : PullQuery}
    {key : EdKey} {resp : PullResp} (hserves : Serves c₀) (hi : c₀.thread i = (route now (.pull q)).run)
    (hkey : q.device.decodeEd = some key) (hrun : PullRun i c₀ atEntries atHead final)
    (hresp : final.thread i = .done (.ok (.pull resp))) :
    Complete final.state q key resp ↔ ∀ e, Wanted atHead.state q key e → e ∈ atEntries.state.entries := by
  obtain ⟨key', hkey', hgrow, hstate, hdone⟩ := hrun.answers hi hserves
  obtain rfl : key' = key := Option.some.inj (hkey'.symm.trans hkey)
  obtain rfl : answer q key' atEntries.state atHead.state = resp := by
    rw [hdone] at hresp
    simpa using hresp
  rw [hstate]
  exact answer_complete_iff hgrow

end

/-! ## A push between the two reads -/

def deviceOf (n : Nat) : DeviceRow :=
  ⟨.plain "v", .ed (.device n), .x n, .plain "laptop", true, false, none⟩

def pullQuery : PullQuery :=
  ⟨.plain "v", .b64 (.ed (.device 0)), .b64 ⟨.device 0, .request 0 (.pull 0)⟩, 0, 0⟩

def pushSigned : Signed :=
  let body : Body := .json (PushReq.toJson ⟨[⟨.b64 (.uuid 30), .b64 (.other 1), .plain ""⟩]⟩)
  ⟨.plain "v", .b64 (.ed (.device 1)), .b64 ⟨.device 1, .request 0 body⟩, 0, body⟩

/-- Thread `false` pulls and thread `true` pushes one entry. -/
def twoHandlers : Handlers Bool :=
  ⟨fun b => (route 0 (if b then .post .push pushSigned else .pull pullQuery)).run,
    { vaults := [⟨.plain "v", .other 0, 0⟩], devices := [deviceOf 0, deviceOf 1] }⟩

theorem twoHandlers_serves : Serves twoHandlers := by
  intro b
  cases b
  · exact ⟨0, _, .pull pullQuery, rfl⟩
  · exact ⟨0, _, .push pushSigned, rfl⟩

/-- The push runs as a whole. -/
def pushed (c : Handlers Bool) : Handlers Bool := ((c.advance true).advance true).advance true

theorem pushed_others {c : Handlers Bool} (h1 : (c.thread true).isDone = false)
    (h2 : ((c.advance true).thread true).isDone = false)
    (h3 : (((c.advance true).advance true).thread true).isDone = false) : Pool.Others false c (pushed c) :=
  .tail (.tail (.single ⟨true, by decide, Pool.step_advance h1⟩) ⟨true, by decide, Pool.step_advance h2⟩)
    ⟨true, by decide, Pool.step_advance h3⟩

/-- The push comes before the pull reads anything. -/
def pushedFirst : Handlers Bool := (pushed twoHandlers).advance false

theorem pushedFirst_run :
    PullRun false twoHandlers pushedFirst (pushedFirst.advance false) ((pushedFirst.advance false).advance false) :=
  .mk (pushed_others (by decide) (by decide) (by decide)) (Pool.step_advance (by decide)) .refl
    (Pool.step_advance (by decide +kernel)) .refl (Pool.step_advance (by decide +kernel))

theorem pull_complete_iff_pushedFirst :
    Complete ((pushedFirst.advance false).advance false).state pullQuery (.device 0)
        (answer pullQuery (.device 0) pushedFirst.state (pushedFirst.advance false).state) ↔
      ∀ e, Wanted (pushedFirst.advance false).state pullQuery (.device 0) e → e ∈ pushedFirst.state.entries :=
  pull_complete_iff twoHandlers_serves rfl rfl pushedFirst_run rfl

/-- The push comes between the two reads. -/
def entriesRead : Handlers Bool := twoHandlers.advance false

def pushedBetween : Handlers Bool := pushed (entriesRead.advance false)

/-- The answer has no entry, and a head that covers one. -/
theorem pushedBetween_incomplete :
    Serves twoHandlers ∧ PullRun false twoHandlers entriesRead pushedBetween (pushedBetween.advance false) ∧
      (pushedBetween.advance false).thread false = .done (.ok (.pull ⟨[], 1⟩)) ∧
      ¬ Complete (pushedBetween.advance false).state pullQuery (.device 0) ⟨[], 1⟩ := by
  refine ⟨twoHandlers_serves, ?_, rfl, ?_⟩
  · exact .mk .refl (Pool.step_advance (by decide)) .refl (Pool.step_advance (by decide))
      (pushed_others (by decide) (by decide) (by decide)) (Pool.step_advance (by decide +kernel))
  · intro h
    have hmissed := h ⟨.plain "v", 1, .uuid 30, .other 1, nil⟩ ⟨by decide +kernel, rfl, by decide, Or.inl rfl⟩ le_rfl
    simp at hmissed

end SshVault.Relay
