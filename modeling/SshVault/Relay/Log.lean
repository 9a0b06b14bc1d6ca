import SshVault.Relay.Admission

/-!
# The log of entries

Handlers only append to the log, each row once and under a new number; and a pull that nothing disturbs
answers with exactly the rows it asks for.
-/

open Lib Prog

namespace SshVault.Relay

/-! ## One statement -/

/-- Rows are in the order of their numbers, and no entry of a vault is there twice. -/
structure Ordered (db : Db) : Prop where
  seqs : (db.entries.map EntryRow.seq).Pairwise (· < ·)
  keys : (db.entries.map EntryRow.key).Nodup

variable {now : Now} {req : Request} {past : List (Db × Db)} {s t : Db}

theorem Statement.entries (h : Statement now req past s t) :
    t.entries = s.entries ∨ (∃ signed, req = .post .push signed) ∧ ∃ e, t.entries = s.entries ++ [e] ∧
      ∀ e' ∈ s.entries, e'.seq < e.seq ∧ e'.key ≠ e.key := by
  cases h with
  | @insertEntry signed vault key r c hreq =>
    change Table.insertOrIgnore EntryRow.key ⟨vault, s.nextSeq, c.1, c.2.1, c.2.2⟩ s.entries = _ ∨ _ ∧
      ∃ e, Table.insertOrIgnore EntryRow.key ⟨vault, s.nextSeq, c.1, c.2.1, c.2.2⟩ s.entries = _ ∧ _
    unfold Table.insertOrIgnore
    split
    · exact Or.inl rfl
    · rename_i hnew
      exact Or.inr ⟨⟨signed, hreq⟩, _, rfl, fun e' he' => ⟨lt_nextSeq he', fun hk => hnew ⟨e', he', hk⟩⟩⟩
  | _ => exact Or.inl rfl

theorem Statement.appends (h : Statement now req past s t) : s.entries <+: t.entries := by
  rcases h.entries with heq | ⟨-, e, heq, -⟩
  · rw [heq]
  · rw [heq]
    exact List.prefix_append _ _

theorem Statement.ordered (h : Statement now req past s t) (hs : Ordered s) : Ordered t := by
  rcases h.entries with heq | ⟨-, e, heq, hnew⟩
  · exact ⟨heq ▸ hs.seqs, heq ▸ hs.keys⟩
  · refine ⟨?_, ?_⟩
    · rw [heq, List.map_append, List.pairwise_append]
      refine ⟨hs.seqs, List.pairwise_singleton _ _, fun n hn m hm => ?_⟩
      obtain ⟨e', he', rfl⟩ := List.mem_map.mp hn
      rw [List.mem_singleton.mp hm]
      exact (hnew e' he').1
    · rw [heq, List.map_append, List.nodup_append]
      refine ⟨hs.keys, List.nodup_singleton _, fun k hk k' hk' hkk => ?_⟩
      obtain ⟨e', he', rfl⟩ := List.mem_map.mp hk
      rw [List.mem_singleton.mp hk'] at hkk
      exact (hnew e' he').2 hkk

/-! ## Counts -/

/-- The rows that a statement inserted. -/
def added (m : Db × Db) : Nat := m.2.entries.length - m.1.entries.length

theorem Statement.length (h : Statement now req past s t) : t.entries.length = s.entries.length + added (s, t) := by
  have hle := h.appends.length_le
  unfold added
  dsimp only
  omega

theorem Statement.added_eq (h : Statement now req past s t) (hreq : ∀ signed, req ≠ .post .push signed) :
    added (s, t) = 0 := by
  rcases h.entries with heq | ⟨⟨signed, hpush⟩, -⟩
  · unfold added
    rw [heq, Nat.sub_self]
  · exact absurd hpush (hreq signed)

/-- A push answers with the number of rows that its statements inserted. -/
def Counts (past : List (Db × Db)) : Except HttpError Reply → Prop
  | .ok (.push resp) => resp.stored = (past.map added).sum
  | .ok _ => False
  | .error _ => True

theorem insertEntry_added (vault : Wire) (c : Bytes × Bytes × Uuid) (db : Db) :
    added (db, ((Db.insertEntry vault c.1 c.2.1 c.2.2).run db).2) = ((Db.insertEntry vault c.1 c.2.1 c.2.2).run db).1 := by
  change (Table.insertOrIgnore EntryRow.key ⟨vault, db.nextSeq, c.1, c.2.1, c.2.2⟩ db.entries).length - db.entries.length =
    if db.entries.any (·.key = (vault, c.1)) then 0 else 1
  unfold Table.insertOrIgnore
  split
  · rename_i hold
    obtain ⟨e, he, hk⟩ := hold
    rw [if_pos (List.any_eq_true.mpr ⟨e, he, decide_eq_true hk⟩), Nat.sub_self]
  · rename_i hnew
    rw [if_neg, List.length_append, List.length_singleton, Nat.add_sub_cancel_left]
    rintro hany
    obtain ⟨e, he, hk⟩ := List.any_eq_true.mp hany
    exact hnew ⟨e, he, of_decide_eq_true hk⟩

theorem loop_counts (vault : Wire) (l : List WireEntry) (past : List (Db × Db)) :
    Traced (fun _ _ _ => True) (OnOk fun past' n => (past'.map added).sum = (past.map added).sum + n) past
      (forEach decodeEntry (fun e => Db.insertEntry vault e.1 e.2.1 e.2.2) l).run := by
  induction l generalizing past with
  | nil => exact Traced.ok rfl
  | cons e l ih =>
    unfold forEach
    refine Traced.bindExcept (Traced.liftExcept fun c _ => ?_)
    refine Traced.bindExcept (Traced.lift (Traced.atom (fun _ => trivial) fun db => ?_))
    refine Traced.bindExcept ((ih _).imp (fun _ _ _ h => h) fun past' r hr => ?_)
    cases r with
    | error e => trivial
    | ok m =>
      change (past'.map added).sum = _ + (_ + m)
      rw [show (past'.map added).sum = _ from hr, List.map_cons, List.sum_cons]
      have hone := insertEntry_added vault c db
      change added (db, ((Db.insertEntry vault c.1 c.2.1 c.2.2).run db).2) + _ + m = _
      rw [hone]
      change _ = _ + (((Db.insertEntry vault c.1 c.2.1 c.2.2).run db).1 + m)
      omega

theorem push_counts (now : Now) (signed : Signed) :
    Traced (fun _ _ _ => True) Counts [] (route now (.post .push signed)).run := by
  have hpush : Traced (fun _ _ _ => True) (OnOk fun past resp => resp.stored = (past.map added).sum) []
      (push now signed).run := by
    unfold push authorize
    refine Traced.bindExcept (Traced.bindExcept (Traced.liftExcept fun (vault, key) _ => ?_))
    refine Traced.bindExcept (Traced.lift (p := canSync vault key) (Traced.bind (Traced.atom (fun _ => trivial) fun db => ?_)))
    refine Traced.pure ?_
    dsimp only [Db.selectDevice]
    split
    · exact Traced.throw
    refine Traced.ok ?_
    refine Traced.bindExcept (Traced.liftExcept fun r _ => ?_)
    unfold applyPush
    refine Traced.bindExcept ((loop_counts vault r.entries _).imp (fun _ _ _ h => h) fun past n hn => ?_)
    cases n with
    | error e => trivial
    | ok n =>
      refine Traced.bindExcept (Traced.lift (Traced.atom (fun _ => trivial) fun db' => ?_))
      refine Traced.ok ?_
      have hn : (past.map added).sum = _ := hn
      simp only [List.map_cons, List.sum_cons, hn, added, Nat.sub_self, List.map_nil, List.sum_nil, zero_add]
  refine Traced.bind (hpush.imp (fun _ _ _ h => h) fun past r hr => ?_)
  cases r with
  | ok resp => exact hr
  | error e => trivial

/-! ## A pull that nothing disturbs -/

/-- The rows that a pull asks for, in the order of the log. -/
def wantedRows (db : Db) (q : PullQuery) (key : EdKey) : List EntryRow :=
  db.entries.filter fun e => e.vaultId = q.vault ∧ q.since < e.seq ∧
    (e.shareId = nil ∨ db.isMember q.vault e.shareId (.ed key) = true)

/-- A pull answers from two of the states that it found. -/
def Pulled (q : PullQuery) (past : List (Db × Db)) : Except HttpError Reply → Prop
  | .ok (.pull resp) => ∃ key atEntries atHead, q.device.decodeEd = some key ∧ (atEntries, atEntries) ∈ past ∧
      (atHead, atHead) ∈ past ∧ resp = answer q key atEntries atHead
  | _ => True

theorem pull_answers (now : Now) (q : PullQuery) :
    Traced (fun _ s t => s = t) (Pulled q) [] (route now (.pull q)).run := by
  cases hv : verify now.verify ⟨q.vault, q.device, q.sig, q.ts, .pull q.since⟩ with
  | error e =>
    rw [route_pull_refused hv]
    trivial
  | ok out =>
    obtain ⟨vault, key⟩ := out
    obtain ⟨-, rfl, hkey, -⟩ := verify_ok hv
    rw [route_pull hv]
    refine fun atAuth => ⟨rfl, ?_⟩
    dsimp only
    split
    · exact fun atEntries => ⟨rfl, fun atHead => ⟨rfl, key, atEntries, atHead, hkey, by simp, by simp, rfl⟩⟩
    · trivial

theorem asI64_eq_iff {since : Nat} (hsince : since < 2 ^ 64) : Db.asI64 since = since ↔ since < 2 ^ 63 := by
  unfold Db.asI64
  rw [Int.bmod_def]
  omega

theorem visible_rows {q : PullQuery} {key : EdKey} {db d : Db} (hcast : Db.asI64 q.since = q.since)
    (hd : d.entries = db.entries) (hm : d.shareMembers = db.shareMembers) :
    d.entries.filter (d.visible q.vault (.ed key) q.since) = wantedRows db q key := by
  unfold wantedRows
  rw [hd]
  refine List.filter_congr fun e _ => ?_
  unfold Db.visible Db.isMember
  rw [hm, hcast, Bool.eq_iff_iff]
  simp [and_assoc]

theorem answer_eq {q : PullQuery} {key : EdKey} {db d d' : Db} (hordered : Ordered db) (hsince : q.since < 2 ^ 63)
    (hd : d.entries = db.entries) (hd' : d'.entries = db.entries) (hm : d.shareMembers = db.shareMembers) :
    (answer q key d d').entries = (wantedRows db q key).map wireEntry ∧
      (answer q key d d').head = max q.since (db.head q.vault) := by
  have hcast := (asI64_eq_iff (by omega)).mpr hsince
  have hsorted : (wantedRows db q key).Pairwise fun a b => a.seq ≤ b.seq :=
    ((List.pairwise_map.mp hordered.seqs).imp fun h => Nat.le_of_lt h).filter _
  constructor
  · change ((d.entries.filter _).insertionSort _).map wireEntry = _
    rw [visible_rows hcast hd hm, hsorted.insertionSort_eq]
  · change max (d'.head q.vault) q.since = _
    unfold Db.head
    rw [hd', max_comm]

/-! ## Runs -/

section

variable {ι : Type} [DecidableEq ι] {now : ι → Now} {req : ι → Request} {c₀ c₁ c : Handlers ι} {h h' : List (ι × Db × Db)}

/-- The rows that a handler inserted before it was refused. -/
def lost (h : List (ι × Db × Db)) (c : Handlers ι) (i : ι) : Nat :=
  match c.thread i with
  | .done (.error _) => ((Pool.own i h).map added).sum
  | _ => 0

/-- The count that a push answered with. -/
def returned (req : ι → Request) (c : Handlers ι) (i : ι) : Nat :=
  match req i, c.thread i with
  | .post .push _, .done (.ok (.push resp)) => resp.stored
  | _, _ => 0

theorem Serving.length (hserving : Serving now req c₀) (hrun : Pool.Trace c₀ h c) :
    c.state.entries.length = c₀.state.entries.length + (h.map fun x => added x.2).sum := by
  refine hrun.keeps (P := fun h db => db.entries.length = c₀.state.entries.length + (h.map fun x => added x.2).sum)
    hserving.traced rfl fun h s t i ih hstep => ?_
  rw [hstep.length, ih, List.map_cons, List.sum_cons]
  exact (Nat.add_right_comm _ _ _).trans (Nat.add_assoc _ _ _)

theorem Serving.others (hserving : Serving now req c₀) (hrun : Pool.Trace c₀ h c) {i : ι}
    (hreq : ∀ signed, req i ≠ .post .push signed) : ((Pool.own i h).map added).sum = 0 := by
  refine List.sum_eq_zero fun n hn => ?_
  obtain ⟨⟨s, t⟩, hm, rfl⟩ := List.mem_map.mp hn
  obtain ⟨h', -, hstep⟩ := hrun.step_of_mem hserving.traced (Pool.mem_own.mp hm)
  exact hstep.added_eq hreq

/-- What a handler that is done has inserted, it has answered, or lost. -/
theorem Serving.counts (hserving : Serving now req c₀) (hrun : Pool.Trace c₀ h c) {i : ι}
    (hdone : (c.thread i).isDone = true) : ((Pool.own i h).map added).sum = returned req c i + lost h c i := by
  obtain ⟨res, hres⟩ : ∃ res, c.thread i = .done res := by
    cases hthread : c.thread i with
    | done res => exact ⟨res, rfl⟩
    | step u k =>
      rw [hthread] at hdone
      cases hdone
  by_cases hpush : ∃ signed, req i = .post .push signed
  · obtain ⟨signed, hreq⟩ := hpush
    have hthread : c₀.thread i = (route (now i) (.post .push signed)).run := hreq ▸ hserving i
    have hcounts : Counts (Pool.own i h) res := hrun.answer (hthread ▸ push_counts (now i) signed) hres
    unfold returned lost
    rw [hreq, hres]
    match res, hcounts with
    | .error e, _ => exact (Nat.zero_add _).symm
    | .ok (.push resp), hcounts => exact (show resp.stored = _ from hcounts).symm
  · -- Only a push inserts, or answers with a count.
    have hnone := hserving.others hrun fun signed hreq => hpush ⟨signed, hreq⟩
    have hreturned : returned req c i = 0 := by
      unfold returned
      split
      · rename_i signed _ hreq _
        exact absurd ⟨signed, hreq⟩ hpush
      · rfl
    have hlost : lost h c i = 0 := by
      unfold lost
      split
      · exact hnone
      · rfl
    rw [hnone, hreturned, hlost]

/-- During these steps the log and the memberships stay as they are. -/
def Still (h : List (ι × Db × Db)) : Prop :=
  ∀ i s t, (i, s, t) ∈ h → t.entries = s.entries ∧ t.shareMembers = s.shareMembers

theorem Still.same (hstill : Still h) (hrun : Pool.Trace c₁ h c) :
    (c.state.entries = c₁.state.entries ∧ c.state.shareMembers = c₁.state.shareMembers) ∧
      ∀ i s t, (i, s, t) ∈ h → s.entries = c₁.state.entries ∧ s.shareMembers = c₁.state.shareMembers := by
  induction hrun with
  | start => exact ⟨⟨rfl, rfl⟩, fun _ _ _ h => nomatch h⟩
  | @snoc h c c' i hrun hstep ih =>
    obtain ⟨⟨he, hm⟩, hall⟩ := ih fun j s t hmem => hstill j s t (List.mem_cons_of_mem _ hmem)
    obtain ⟨he', hm'⟩ := hstill i c.state c'.state List.mem_cons_self
    refine ⟨⟨he'.trans he, hm'.trans hm⟩, fun j s t hmem => ?_⟩
    rcases List.mem_cons.mp hmem with heq | hmem
    · obtain ⟨-, rfl, -⟩ := by simpa using heq
      exact ⟨he, hm⟩
    · exact hall j s t hmem

/-- **The log.** In every run of any handlers from an empty database: no entry is stored twice, and the rows are in
the order of their numbers; what is stored stays, in its place; and once all handlers are done, the counts that
they answered with, together with the rows inserted by pushes that were then refused, add up to the rows that
were inserted. A pull that nothing disturbs answers with the rows it asks for, in the order of their numbers. -/
theorem entry_log [Fintype ι] (hserving : Serving now req c₀) (hempty : c₀.state = {}) (hrun : Pool.Trace c₀ h c₁) :
    ((c₁.state.entries.map EntryRow.key).Nodup ∧ (c₁.state.entries.map EntryRow.seq).Pairwise (· < ·)) ∧
    (∀ i s t, (i, s, t) ∈ h → t.entries <+: c₁.state.entries) ∧
    ((∀ i, (c₁.thread i).isDone = true) → c₁.state.entries.length = ∑ i, (returned req c₁ i + lost h c₁ i)) ∧
    ∀ i q h' c resp, c₁.thread i = (route (now i) (.pull q)).run → q.since < 2 ^ 63 → Pool.Trace c₁ h' c → Still h' →
      c.thread i = .done (.ok (.pull resp)) →
      ∃ key, q.device.decodeEd = some key ∧ resp.entries = (wantedRows c.state q key).map wireEntry ∧
        resp.head = max q.since (c.state.head q.vault) := by
  have hordered : Ordered c₁.state := by
    refine hrun.keeps (P := fun _ db => Ordered db) hserving.traced ?_ fun _ _ _ _ hs hstep => hstep.ordered hs
    rw [hempty]
    exact ⟨List.Pairwise.nil, List.nodup_nil⟩
  refine ⟨⟨hordered.keys, hordered.seqs⟩, fun i s t hmem => ?_, fun hdone => ?_, ?_⟩
  · exact hrun.stays (p := (t.entries <+: Db.entries ·)) hserving.traced (fun _ _ _ _ hstep hs => hs.trans hstep.appends) hmem
      List.prefix_rfl
  · rw [hserving.length hrun, hempty, Pool.sum_own]
    refine (Nat.zero_add _).trans (Finset.sum_congr rfl fun i _ => hserving.counts hrun (hdone i))
  · intro i q h' c resp hthread hsince hrun' hstill hres
    -- With the log standing still, both statements of the pull read it as it is at the end.
    obtain ⟨⟨hentries, hmembers⟩, hall⟩ := hstill.same hrun'
    have hpulled : Pulled q (Pool.own i h') (.ok (.pull resp)) := hrun'.answer (hthread ▸ pull_answers (now i) q) hres
    obtain ⟨key, atEntries, atHead, hkey, hmem, hmem', rfl⟩ := hpulled
    obtain ⟨he, hm⟩ := hall i _ _ (Pool.mem_own.mp hmem)
    obtain ⟨he', -⟩ := hall i _ _ (Pool.mem_own.mp hmem')
    have hordered' : Ordered c.state := ⟨hentries ▸ hordered.seqs, hentries ▸ hordered.keys⟩
    obtain ⟨hrows, hhead⟩ := answer_eq  hordered' hsince (he.trans hentries.symm) (he'.trans hentries.symm)
      (hm.trans hmembers.symm)
    exact ⟨key, hkey, hrows, hhead⟩

end

/-! ## A push that is refused half-way -/

namespace HalfPush

def entry (id : Wire) : WireEntry := ⟨id, .b64 (.other 1), .plain ""⟩

def pushOf (entries : List WireEntry) : Signed :=
  envelope FirstDevice.vault (.device 1) 0 (.json (PushReq.toJson ⟨entries⟩))

/-- Thread `false` enrolls the device, and thread `true` pushes for it. -/
def requests (entries : List WireEntry) : Bool → Request
  | false => .post .enroll FirstDevice.enrollment
  | true => .post .push (pushOf entries)

def start (entries : List WireEntry) : Handlers Bool := ⟨fun b => (route 0 (requests entries b)).run, {}⟩

def repeated : List WireEntry := [entry (.b64 (.uuid 30)), entry (.b64 (.uuid 30))]

def broken : List WireEntry := [entry (.b64 (.uuid 30)), entry (.plain "*")]

def turns : List Bool := [false, false, false, false, true, true, true, true]

end HalfPush

open HalfPush

theorem entry_log_push : ∃ h c, Pool.Trace (HalfPush.start repeated) h c ∧
    c.state.entries.length = ∑ b, (returned (requests repeated) c b + lost h c b) := by
  obtain ⟨h, hrun⟩ := Pool.Trace.play (@Pool.Trace.start _ _ _ _ (HalfPush.start repeated)) turns
  have hserving : Serving (fun _ => 0) (requests repeated) (HalfPush.start repeated) := fun _ => rfl
  exact ⟨h, _, hrun, (entry_log hserving rfl hrun).2.2.1 (by decide +kernel)⟩

/-- The first entry is stored, the second does not decode, and no answer counts the first. -/
theorem half_push_uncounted : ∃ h c, Pool.Trace (HalfPush.start broken) h c ∧
    (∀ b, (c.thread b).isDone = true) ∧ c.state.entries.length = 1 ∧
      ∑ b, returned (requests broken) c b = 0 := by
  obtain ⟨h, hrun⟩ := Pool.Trace.play (@Pool.Trace.start _ _ _ _ (HalfPush.start broken)) turns
  exact ⟨h, _, hrun, by decide +kernel, by decide +kernel, by decide +kernel⟩

end SshVault.Relay
