import SshVault.Edits

/-!
# Edits of different fields

An edit logs a whole snapshot. A field whose value it repeats keeps its clock, so of every field only the device
that gives it new values ever makes new clocks, and shows the newest one.
-/

open Lib

namespace SshVault

/-! ## One field of one record -/

/-- Field `n` of the record shown under `k`. -/
def State.field (state : State) (k : Uuid) (n : String) : Option Field := state[k]?.bind (·.fields[n]?)

theorem field_mergeInto (state : State) (r : Record) (k : Uuid) (n : String) :
    (mergeInto state r).field k n =
      if r.id = k then later Field.clock (state.field k n) r.fields[n]? else state.field k n := by
  unfold State.field
  rw [mergeInto_get]
  split
  · cases state[k]? with
    | none => rfl
    | some cur => exact merge_fields_get cur r n
  · rfl

theorem later_of_le {a b : Option Field} (h : ∀ y, b = some y → ∃ x, a = some x ∧ y.clock ≤ x.clock) :
    later Field.clock a b = a := by
  cases b with
  | none => rw [later_none_right]
  | some y =>
    obtain ⟨x, rfl, hle⟩ := h y rfl
    simp [later, hle]

namespace Vault

theorem editFields_same {payload : Payload} {old : FieldMap} {c : Clock} {n : String} {f : Field} {value : Value}
    (hold : old[n]? = some f) (hvalue : payload[n]? = some value) (hsame : f.value = value) :
    (editFields payload old c)[n]? = some f := by
  unfold editFields
  rw [Std.ExtTreeMap.getElem?_map, fieldsFromPayload_get, hvalue]
  subst hsame
  simp [hold]

theorem editFields_none {payload : Payload} {old : FieldMap} {c : Clock} {n : String} (h : payload[n]? = none) :
    (editFields payload old c)[n]? = none := by
  have hvalue : (editFields payload old c)[n]?.map (·.value) = payload[n]? := value_editFields n
  rw [h] at hvalue
  simpa using hvalue

theorem later_editFields_value {payload : Payload} {old : FieldMap} {c : Clock} {n : String}
    (hlt : ∀ f, old[n]? = some f → f.clock < c) :
    (later Field.clock old[n]? (editFields payload old c)[n]?).map (·.value) = payload[n]?.or (old[n]?.map (·.value)) := by
  cases hvalue : payload[n]? with
  | none =>
    rw [editFields_none hvalue, later_none_right]
    rfl
  | some value =>
    obtain ⟨f, hf, hfv⟩ := Dominance.later_editFields hlt hvalue
    rw [hf, Option.map_some, hfv]
    rfl

end Vault

/-- The counter that the next clock is taken from. -/
def Device.counter (d : Device) : U64 := (d.vault.absorbed d.disk).lamport

namespace Convergence

variable {ι : Type}

/-! ## Runs of edits -/

/-- The payload has new values only for fields that device `i` owns. -/
def Owns (own : ι → String → Bool) (i : ι) (old : Record) (payload : Payload) : Prop :=
  ∀ n, own i n = false → ∀ value, payload[n]? = some value → old.value n = some value

/-- The last value that its owner wrote to a field, or the one it had. -/
def lastWritten (own : ι → String → Bool) (n : String) (start : Option Value) (edits : List (ι × Payload)) : Option Value :=
  edits.foldl (fun value e => if own e.1 n then e.2[n]?.or value else value) start

/-- From devices `w₀`, each edits the record under `k` on its own fields, or receives an entry. -/
inductive EditRun [DecidableEq ι] (own : ι → String → Bool) (k : Uuid) (w₀ : ι → Device) :
    List (ι × Payload) → (ι → Device) → Prop
  | refl : EditRun own k w₀ [] w₀
  | edit {edits : List (ι × Payload)} {w : ι → Device} (h : EditRun own k w₀ edits w) (i : ι) {ord : HashOrder} {kind : Kind}
      {nameField name : String} {payload : Payload} {entryId : Uuid} {now : Nat} {old : Record}
      (hroom : (w i).vault.Room (w i).disk) (hfind : (w i).vault.find ord kind nameField name = some old) (hid : old.id = k)
      (hown : Owns own i old payload)
      (hok : (((w i).vault.edit ord kind nameField name payload entryId now).run (w i).disk).1.1 = .ok ()) :
    EditRun own k w₀ (edits ++ [(i, payload)])
      (Function.update w i ((w i).perform (Write.edit ord kind nameField name payload entryId now).prog))
  | receive {edits : List (ι × Payload)} {w : ι → Device} (h : EditRun own k w₀ edits w) (i j : ι) (f : Frame)
      (hf : f ∈ (w j).disk.log) :
    EditRun own k w₀ edits (Function.update w i ((w i).perform (·.applyRemoteEntry f.1 f.2)))

variable {own : ι → String → Bool} {k : Uuid} {w w₀ : ι → Device} {edits : List (ι × Payload)}

theorem EditRun.run [DecidableEq ι] (h : EditRun own k w₀ edits w) : Run w₀ w := by
  induction h with
  | refl => exact .refl
  | edit h i hroom hfind hid hown hok ih => exact ih.tail (.write i _ hroom)
  | receive h i j f hf ih => exact ih.tail (.receive i j f hf)

/-! ## The newest values -/

/-- Device `i` shows the newest value of field `n`: it owns the field, or nobody does. -/
def Keeper (own : ι → String → Bool) (i : ι) (n : String) : Prop := own i n = true ∨ ∀ j, own j n = false

structure Newest (own : ι → String → Bool) (k : Uuid) (start : Record) (w : ι → Device) (edits : List (ι × Payload)) : Prop where
  shown : ∀ i, ∃ r, (w i).vault.state[k]? = some r
  newest : ∀ i n, Keeper own i n → ∀ r ∈ Logged w, r.id = k → ∀ f, r.fields[n]? = some f →
    ∃ g, (w i).vault.state.field k n = some g ∧ f.clock ≤ g.clock
  value : ∀ i n, Keeper own i n → ((w i).vault.state.field k n).map (·.value) = lastWritten own n (start.value n) edits
  counter : ∀ i n f, (w i).vault.state.field k n = some f → f.clock.lamport ≤ (w i).counter
  stamps : ∀ r ∈ Logged w, r.id = k → ∀ (n : String) (f : Field), r.fields[n]? = some f →
    f.clock.lamport ≤ r.clock.lamport ∨ ∀ i, f.clock.lamport ≤ (w i).counter

variable {start : Record} {i : ι}

/-- A record that some log has is old news to the keepers of its fields. -/
theorem Newest.keeper_merge (h : Newest own k start w edits) {n : String} (hkeeper : Keeper own i n) {r : Record}
    (hr : r ∈ Logged w) : (mergeInto (w i).vault.state r).field k n = (w i).vault.state.field k n := by
  rw [field_mergeInto]
  split
  · exact later_of_le fun f hf => h.newest i n hkeeper r hr ‹_› f hf
  · rfl

theorem exists_mergeInto {state : State} {r : Record} (h : ∃ m, state[k]? = some m) :
    ∃ m, (mergeInto state r)[k]? = some m := by
  obtain ⟨m, hm⟩ := h
  rw [mergeInto_get, hm]
  split
  · exact ⟨_, rfl⟩
  · exact ⟨m, rfl⟩

/-- What device `i` owes the others after a turn. -/
theorem Newest.turn [DecidableEq ι] (h : Newest own k start w edits) {d : Device} {edits' : List (ι × Payload)}
    (hle : (w i).counter ≤ d.counter) (hshown : ∃ r, d.vault.state[k]? = some r)
    (hcounter : ∀ n f, d.vault.state.field k n = some f → f.clock.lamport ≤ d.counter)
    (hnewest : ∀ j n, Keeper own j n → ∀ r ∈ Logged (Function.update w i d), r.id = k → ∀ f, r.fields[n]? = some f →
      ∃ g, (Function.update w i d j).vault.state.field k n = some g ∧ f.clock ≤ g.clock)
    (hvalue : ∀ j n, Keeper own j n →
      ((Function.update w i d j).vault.state.field k n).map (·.value) = lastWritten own n (start.value n) edits')
    (hstamps : ∀ r ∈ Logged (Function.update w i d), r.id = k → ∀ (n : String) (f : Field), r.fields[n]? = some f →
      f.clock.lamport ≤ r.clock.lamport ∨ ∀ j, f.clock.lamport ≤ (w j).counter) :
    Newest own k start (Function.update w i d) edits' where
  shown := (Function.forall_update_iff w (p := fun _ d => ∃ r, d.vault.state[k]? = some r)).mpr
    ⟨hshown, fun j _ => h.shown j⟩
  newest := hnewest
  value := hvalue
  counter := (Function.forall_update_iff w (p := fun _ d => ∀ n g, d.vault.state.field k n = some g →
    g.clock.lamport ≤ d.counter)).mpr ⟨hcounter, fun j _ => h.counter j⟩
  stamps := by
    intro r hr hid n f hf
    refine (hstamps r hr hid n f hf).imp id fun hall => ?_
    exact (Function.forall_update_iff w (p := fun _ d => f.clock.lamport ≤ d.counter)).mpr
      ⟨(hall i).trans hle, fun j _ => hall j⟩

/-- To receive an entry of some log is to merge one of the logged records, or to change nothing that is shown. -/
theorem receive_shows (hinv : Inv w) {j : ι} {f : Frame} (hf : f ∈ (w j).disk.log) :
    (w i).counter ≤ ((w i).perform (·.applyRemoteEntry f.1 f.2)).counter ∧
    (((w i).perform (·.applyRemoteEntry f.1 f.2)).vault.state = (w i).vault.state ∨
      ∃ r ∈ Logged w, r.clock.lamport ≤ ((w i).perform (·.applyRemoteEntry f.1 f.2)).counter ∧
        ((w i).perform (·.applyRemoteEntry f.1 f.2)).vault.state = mergeInto (w i).vault.state r) := by
  cases ho : (w i).vault.keyring.openEntry f.1 f.2 with
  | error e =>
    have hrefused : (w i).perform (·.applyRemoteEntry f.1 f.2) = w i := by
      unfold Device.perform
      rw [Vault.run_applyRemoteEntry_error ho]
    rw [hrefused]
    exact ⟨le_rfl, Or.inl rfl⟩
  | ok o =>
    have hrun := Vault.run_applyRemoteEntry (d := (w i).disk) ho
    have hstate : ((w i).perform (·.applyRemoteEntry f.1 f.2)).vault.state = Vault.mergeOpened (w i).vault.state o := by
      unfold Device.perform
      rw [hrun]
    have hcounter : ((w i).perform (·.applyRemoteEntry f.1 f.2)).counter =
        (Vault.raised ((w i).vault.absorbed (w i).disk) o).lamport := by
      unfold Device.perform Device.counter
      rw [hrun]
      exact max_self _
    rw [hstate, hcounter]
    refine ⟨Vault.le_raised _ _, ?_⟩
    cases o with
    | none => exact Or.inl rfl
    | some r =>
      have hopened : (w i).vault.keyring.opened f = some r := by
        unfold Keyring.opened
        rw [ho]
      obtain ⟨key, hkey, hblob⟩ := Keyring.opened_eq_some.mp hopened
      -- Whoever logged the entry opens it to the same record.
      have hsome : (w j).vault.keyring.opened f = some r :=
        Keyring.opened_eq_some.mpr ⟨key, (hinv.sameKeys i j key).mp hkey, hblob⟩
      exact Or.inr ⟨r, ⟨j, List.mem_filterMap.mpr ⟨f, hf, hsome⟩⟩, le_max_right _ _, rfl⟩

theorem Newest.receive [DecidableEq ι] (h : Newest own k start w edits) (hinv : Inv w) {j : ι} {f : Frame} (hf : f ∈ (w j).disk.log) :
    Newest own k start (Function.update w i ((w i).perform (·.applyRemoteEntry f.1 f.2))) edits := by
  have hlogged := logged_receive (i := i) hinv hf
  obtain ⟨hle, hstate⟩ := receive_shows (i := i) hinv hf
  generalize (w i).perform (·.applyRemoteEntry f.1 f.2) = d at hlogged hle hstate ⊢
  -- A keeper's field is the newest in any log, so the entry is old news to it.
  have hkept : ∀ j n, Keeper own j n → (Function.update w i d j).vault.state.field k n = (w j).vault.state.field k n := by
    intro j n hkeeper
    by_cases hj : j = i
    · subst hj
      rw [Function.update_self]
      rcases hstate with hstate | ⟨r, hr, -, hstate⟩
      · rw [hstate]
      · rw [hstate, h.keeper_merge hkeeper hr]
    · rw [Function.update_of_ne hj]
  refine h.turn hle ?_ ?_ ?_ ?_ fun r hr => h.stamps r (hlogged hr)
  · rcases hstate with hstate | ⟨r, -, -, hstate⟩
    · rw [hstate]
      exact h.shown i
    · rw [hstate]
      exact exists_mergeInto (h.shown i)
  · intro n g hg
    rcases hstate with hstate | ⟨r, hr, hrle, hstate⟩
    · exact (h.counter i n g (hstate ▸ hg)).trans hle
    · rw [hstate, field_mergeInto] at hg
      split at hg
      · rcases (later_eq_some hg).1 with hold | hnew
        · exact (h.counter i n g hold).trans hle
        · rcases h.stamps r hr ‹_› n g hnew with hstamp | hall
          · exact hstamp.trans hrle
          · exact (hall i).trans hle
      · exact (h.counter i n g hg).trans hle
  · intro j n hkeeper r hr
    rw [hkept j n hkeeper]
    exact h.newest j n hkeeper r (hlogged hr)
  · intro j n hkeeper
    rw [hkept j n hkeeper]
    exact h.value j n hkeeper

theorem Keeper.unique (hdisjoint : ∀ i j n, own i n = true → own j n = true → i = j) {j : ι} {n : String}
    (hkeeper : Keeper own j n) (hn : own i n = true) : j = i := by
  rcases hkeeper with hj | hnone
  · exact hdisjoint j i n hj hn
  · rw [hnone i] at hn
    cases hn

omit ι in
theorem exists_later {a b : Option Field} {g : Field} (h : a = some g) :
    ∃ x, later Field.clock a b = some x ∧ g.clock ≤ x.clock ∧ ∀ y, b = some y → y.clock ≤ x.clock := by
  subst h
  cases hx : later Field.clock (some g) b with
  | none => cases (later_eq_none.mp hx).1
  | some x =>
    obtain ⟨-, hleft, hright⟩ := later_eq_some hx
    exact ⟨x, rfl, hleft g rfl, hright⟩

theorem Inv.field_logged (hinv : Inv w) {n : String} {f : Field} (hf : (w i).vault.state.field k n = some f) :
    ∃ r ∈ Logged w, r.id = k ∧ r.fields[n]? = some f := by
  obtain ⟨m, hm, hmf⟩ := Option.bind_eq_some_iff.mp hf
  rw [hinv.state] at hm
  obtain ⟨r, hr, hid, hrf⟩ := View.mergeAll_origin (V := View.field n) hm hmf
  exact ⟨r, ⟨i, hr⟩, hid, hrf⟩

theorem lastWritten_snoc (n : String) (value : Option Value) (payload : Payload) :
    lastWritten own n value (edits ++ [(i, payload)]) =
      if own i n then payload[n]?.or (lastWritten own n value edits) else lastWritten own n value edits := by
  unfold lastWritten
  rw [List.foldl_append]
  rfl

theorem Owns.copied {old : Record} {payload : Payload} {c : Clock} (hown : Owns own i old payload) {n : String}
    (hn : own i n = false) {f : Field} (hf : (Vault.editFields payload old.fields c)[n]? = some f) : old.fields[n]? = some f := by
  obtain ⟨hvalue, -⟩ := Vault.editFields_get hf
  obtain ⟨prev, hprev, hsame⟩ := Option.map_eq_some_iff.mp (hown n hn f.value hvalue)
  rw [Vault.editFields_same hprev hvalue hsame] at hf
  rw [hprev, hf]

/-- What an edit of `old` into `r` leaves, where device `i` becomes `d`. -/
structure Edited [DecidableEq ι] (k : Uuid) (w : ι → Device) (i : ι) (payload : Payload) (old r : Record) (d : Device) : Prop where
  found : (w i).vault.state[k]? = some old
  id : r.id = k
  clock : r.clock.lamport = d.counter
  fields : r.fields = Vault.editFields payload old.fields r.clock
  rises : (w i).counter < d.counter
  state : d.vault.state = mergeInto (w i).vault.state r
  logged : ∀ r' ∈ Logged (Function.update w i d), r' ∈ Logged w ∨ r' = r

theorem edit_shows [DecidableEq ι] (hinv : Inv w) {ord : HashOrder} {kind : Kind} {nameField name : String} {payload : Payload}
    {entryId : Uuid} {now : Nat} {old : Record} (hroom : (w i).vault.Room (w i).disk)
    (hfind : (w i).vault.find ord kind nameField name = some old) (hid : old.id = k)
    (hok : (((w i).vault.edit ord kind nameField name payload entryId now).run (w i).disk).1.1 = .ok ()) :
    ∃ r, Edited k w i payload old r ((w i).perform (Write.edit ord kind nameField name payload entryId now).prog) := by
  have hold : (w i).vault.state[k]? = some old := by
    obtain ⟨⟨j, hj⟩, -⟩ := Vault.find_mem hfind
    have hkeyed : old.id = j := mergeAll_id (hinv.state i ▸ hj)
    rwa [← hid, hkeyed]
  obtain ⟨r, key, hrid, -, -, hclock, hfields, hkey, hrun⟩ := Vault.run_edit_ok hfind hok
  have hperform : (w i).perform (Write.edit ord kind nameField name payload entryId now).prog = ⟨_, _⟩ :=
    congrArg (fun out => (⟨out.2, out.1.2⟩ : Device)) hrun
  rw [hperform]
  have hlt : (w i).counter < ((w i).vault.tick (w i).disk).lamport := Vault.absorbed_lt_tick hroom
  obtain ⟨d, hd⟩ : ∃ d : Device, d = ⟨{ (w i).disk with
      metadata := (w i).vault.ticked (w i).disk
      log := (w i).disk.log ++ [(entryId, Crypto.sealBlob key (.record r) entryId)] },
    { (w i).vault with metadata := (w i).vault.ticked (w i).disk, state := mergeInto (w i).vault.state r }⟩ := ⟨_, rfl⟩
  rw [← hd]
  have hcounter : d.counter = ((w i).vault.tick (w i).disk).lamport := by
    rw [hd]
    exact max_self _
  have hopened : (w i).vault.keyring.opened (entryId, Crypto.sealBlob key (.record r) entryId) = some r :=
    Keyring.opened_eq_some.mpr ⟨key, Keyring.currentFor_mem hkey, rfl⟩
  -- The entry opens on the device that has sealed it.
  have hrecords : records d = records (w i) ++ [r] := by
    have hk : Keeps (w i) d := by
      rw [hd]
      exact ⟨rfl, rfl, (Vault.disk_lt_tick hroom).le⟩
    rw [records_append (by rw [hd]) hk, hopened]
    rfl
  refine ⟨r, hold, hrid.trans hid, by rw [hclock, hcounter], hclock ▸ hfields, hcounter ▸ hlt, by rw [hd], ?_⟩
  rintro r' ⟨j, hr'⟩
  by_cases hj : j = i
  · subst hj
    rw [Function.update_self, hrecords, List.mem_append, List.mem_singleton] at hr'
    exact hr'.imp (fun hr' => ⟨j, hr'⟩) fun hr' => hr'
  · rw [Function.update_of_ne hj] at hr'
    exact Or.inl ⟨j, hr'⟩

section

variable [DecidableEq ι] {payload : Payload} {old r : Record} {d : Device}

theorem Edited.field (he : Edited k w i payload old r d) (n : String) : (w i).vault.state.field k n = old.fields[n]? := by
  unfold State.field
  rw [he.found]
  rfl

theorem Edited.shown (he : Edited k w i payload old r d) (n : String) :
    d.vault.state.field k n = later Field.clock old.fields[n]? r.fields[n]? := by
  rw [he.state, ← he.field n]
  exact (field_mergeInto _ r k n).trans (if_pos he.id)

theorem Edited.copied (he : Edited k w i payload old r d) (hown : Owns own i old payload) {n : String} (hn : own i n = false)
    {f : Field} (hf : r.fields[n]? = some f) : old.fields[n]? = some f :=
  hown.copied hn (he.fields ▸ hf)

theorem Newest.edited_newer (h : Newest own k start w edits) (he : Edited k w i payload old r d) (n : String) (f : Field)
    (hf : old.fields[n]? = some f) : f.clock < r.clock := by
  refine Clock.lt_of_lamport_lt ?_
  rw [he.clock]
  exact (h.counter i n f ((he.field n).trans hf)).trans_lt he.rises

theorem Newest.edited_le (h : Newest own k start w edits) (he : Edited k w i payload old r d) {n : String} {f : Field}
    (hf : r.fields[n]? = some f) : f.clock.lamport ≤ r.clock.lamport := by
  rw [he.fields] at hf
  rcases (Vault.editFields_get hf).2 with hc | hf
  · rw [hc]
  · exact Clock.lamport_le_of_le (h.edited_newer he n f hf).le

theorem Edited.rises_field (he : Edited k w i payload old r d) {j : ι} {n : String} {g : Field}
    (hg : (w j).vault.state.field k n = some g) :
    ∃ g', (Function.update w i d j).vault.state.field k n = some g' ∧ g.clock ≤ g'.clock := by
  by_cases hj : j = i
  · subst hj
    obtain ⟨x, hx, hle, -⟩ := exists_later (b := r.fields[n]?) ((he.field n).symm.trans hg)
    exact ⟨x, by rw [Function.update_self, he.shown, hx], hle⟩
  · exact ⟨g, by rw [Function.update_of_ne hj, hg], le_rfl⟩

theorem Newest.edited_newest (h : Newest own k start w edits) (hinv : Inv w) (he : Edited k w i payload old r d)
    (hdisjoint : ∀ i j n, own i n = true → own j n = true → i = j) (hown : Owns own i old payload) {j : ι} {n : String}
    (hkeeper : Keeper own j n) {r' : Record} (hr' : r' ∈ Logged (Function.update w i d)) (hid' : r'.id = k) {f : Field}
    (hf : r'.fields[n]? = some f) :
    ∃ g, (Function.update w i d j).vault.state.field k n = some g ∧ f.clock ≤ g.clock := by
  have hlower : ∀ r₀ ∈ Logged w, r₀.id = k → r₀.fields[n]? = some f →
      ∃ g', (Function.update w i d j).vault.state.field k n = some g' ∧ f.clock ≤ g'.clock := by
    intro r₀ hr₀ hid₀ hf₀
    obtain ⟨g, hg, hle⟩ := h.newest j n hkeeper r₀ hr₀ hid₀ f hf₀
    obtain ⟨g', hg', hle'⟩ := he.rises_field hg
    exact ⟨g', hg', hle.trans hle'⟩
  rcases he.logged r' hr' with hr' | rfl
  · exact hlower r' hr' hid' hf
  cases hn : own i n with
  | true =>
    obtain rfl := hkeeper.unique hdisjoint hn
    rw [Function.update_self, he.shown]
    cases hx : later Field.clock old.fields[n]? r'.fields[n]? with
    | none => cases (later_eq_none.mp hx).2.symm.trans hf
    | some x => exact ⟨x, rfl, (later_eq_some hx).2.2 f hf⟩
  | false =>
    obtain ⟨r₀, hr₀, hid₀, hf₀⟩ := hinv.field_logged (i := i) (k := k) ((he.field n).trans (he.copied hown hn hf))
    exact hlower r₀ hr₀ hid₀ hf₀

theorem Newest.edited_value (h : Newest own k start w edits) (he : Edited k w i payload old r d)
    (hdisjoint : ∀ i j n, own i n = true → own j n = true → i = j) (hown : Owns own i old payload) {j : ι} {n : String}
    (hkeeper : Keeper own j n) : ((Function.update w i d j).vault.state.field k n).map (·.value) =
      lastWritten own n (start.value n) (edits ++ [(i, payload)]) := by
  rw [lastWritten_snoc, ← h.value j n hkeeper]
  cases hn : own i n with
  | true =>
    obtain rfl := hkeeper.unique hdisjoint hn
    rw [if_pos rfl, Function.update_self, he.shown, he.fields, he.field]
    exact Vault.later_editFields_value fun f hf => h.edited_newer he n f hf
  | false =>
    rw [if_neg (by simp)]
    by_cases hj : j = i
    · subst hj
      rw [Function.update_self, he.shown, he.field]
      rw [later_of_le fun f hf => ⟨f, he.copied hown hn hf, le_rfl⟩]
    · rw [Function.update_of_ne hj]

theorem Newest.edit (h : Newest own k start w edits) (hinv : Inv w) (he : Edited k w i payload old r d)
    (hdisjoint : ∀ i j n, own i n = true → own j n = true → i = j) (hown : Owns own i old payload) :
    Newest own k start (Function.update w i d) (edits ++ [(i, payload)]) := by
  refine h.turn he.rises.le ?_ ?_ ?_ ?_ ?_
  · rw [he.state]
    exact exists_mergeInto (h.shown i)
  · intro n g hg
    rw [he.shown] at hg
    rw [← he.clock]
    rcases (later_eq_some hg).1 with hg | hg
    · exact Clock.lamport_le_of_le (h.edited_newer he n g hg).le
    · exact h.edited_le he hg
  · exact fun j n hkeeper r' hr' hid' f hf => h.edited_newest hinv he hdisjoint hown hkeeper hr' hid' hf
  · exact fun j n hkeeper => h.edited_value he hdisjoint hown hkeeper
  · intro r' hr' hid' n g hg
    rcases he.logged r' hr' with hr' | rfl
    · exact h.stamps r' hr' hid' n g hg
    · exact Or.inl (h.edited_le he hg)

end

/-! ## All edits delivered -/

theorem newest_start (hinv : Inv w) (hsame : ∀ i, (w i).vault.state[k]? = some start)
    (hcounter : ∀ i (n : String) (f : Field), start.fields[n]? = some f → f.clock.lamport ≤ (w i).counter) :
    Newest own k start w [] := by
  have hfield : ∀ i n, (w i).vault.state.field k n = start.fields[n]? := fun i n => by
    unfold State.field
    rw [hsame i]
    rfl
  have hlatest : ∀ r ∈ Logged w, r.id = k → ∀ (n : String) (f : Field), r.fields[n]? = some f →
      ∃ x, start.fields[n]? = some x ∧ f.clock ≤ x.clock := by
    rintro r ⟨j, hr⟩ hid n f hf
    have hshown := hsame j
    rw [hinv.state j] at hshown
    obtain ⟨x, hx, -, hmax⟩ := View.mergeAll_latest (V := View.field n) hshown hr hid hf
    exact ⟨x, hx, hmax r hr hid f hf⟩
  refine ⟨fun i => ⟨start, hsame i⟩, ?_, ?_, ?_, ?_⟩
  · intro i n _ r hr hid f hf
    rw [hfield]
    exact hlatest r hr hid n f hf
  · intro i n _
    rw [hfield]
    rfl
  · intro i n f hf
    rw [hfield] at hf
    exact hcounter i n f hf
  · intro r hr hid n f hf
    obtain ⟨x, hx, hle⟩ := hlatest r hr hid n f hf
    exact Or.inr fun i => (Clock.lamport_le_of_le hle).trans (hcounter i n x hx)

theorem EditRun.newest [DecidableEq ι] (hinv : Inv w₀) (h₀ : Newest own k start w₀ [])
    (hdisjoint : ∀ i j n, own i n = true → own j n = true → i = j) (hrun : EditRun own k w₀ edits w) :
    Inv w ∧ Newest own k start w edits := by
  induction hrun with
  | refl => exact ⟨hinv, h₀⟩
  | edit h i hroom hfind hid hown hok ih =>
    obtain ⟨hinv, hnewest⟩ := ih
    obtain ⟨r, he⟩ := edit_shows hinv hroom hfind hid hok
    exact ⟨hinv.write _ hroom, hnewest.edit hinv he hdisjoint hown⟩
  | receive h i j f hf ih =>
    obtain ⟨hinv, hnewest⟩ := ih
    exact ⟨hinv.receive hf, hnewest.receive hinv hf⟩

/-- **Edits of different fields.** Devices that show the same record edit it, each on its own fields, and exchange
their entries. With all entries, each of them shows the last value that the owner of a field wrote to it, and the value
it had where nobody wrote. -/
theorem disjoint_edits_survive [DecidableEq ι] {w₁ w₂ : ι → Device} (hstart : Start w₀) (hbefore : Run w₀ w₁)
    (hsame : ∀ i, (w₁ i).vault.state[k]? = some start)
    (hcounter : ∀ i (n : String) (f : Field), start.fields[n]? = some f → f.clock.lamport ≤ (w₁ i).counter)
    (hdisjoint : ∀ i j n, own i n = true → own j n = true → i = j) (hrun : EditRun own k w₁ edits w₂)
    (hlogs : ∀ i j f, f ∈ (w₂ i).disk.log ↔ f ∈ (w₂ j).disk.log) (i : ι) :
    ∃ r, (w₂ i).vault.state[k]? = some r ∧ ∀ n, r.value n = lastWritten own n (start.value n) edits := by
  have hinv := hbefore.inv hstart
  obtain ⟨-, hnewest⟩ := hrun.newest hinv (newest_start hinv hsame hcounter) hdisjoint
  obtain ⟨r, hr⟩ := hnewest.shown i
  refine ⟨r, hr, fun n => ?_⟩
  -- Where no device owns the field, any will do.
  have hkeeper : ∃ o, Keeper own o n := by
    by_cases h : ∃ o, own o n = true
    · exact h.imp fun o ho => Or.inl ho
    · exact ⟨i, Or.inr fun j => by simpa using fun hj => h ⟨j, hj⟩⟩
  obtain ⟨o, ho⟩ := hkeeper
  have hstate := store_converges hstart (hbefore.trans hrun.run) i o (hlogs i o)
  rw [← hnewest.value o n ho, ← hstate]
  unfold State.field
  rw [hr]
  rfl

/-! ### Two devices -/

namespace TwoFields

/-- One device owns the host name, the other the user. -/
def fields (b : Bool) (n : String) : Bool := n = if b then "user" else "hostname"

def agreed : Bool → Device := receives true (writes false Reading.addWeb pair)

def newName : Payload := PayloadType.host.toPayload { Reading.web with hostname := some "10.0.0.2" }

def newUser : Payload := PayloadType.host.toPayload { Reading.web with user := some "admin" }

def renamed : Bool → Device := writes false (.edit SshConfig.anyOrder .host "alias" "web" newName 31 0) agreed

def edited : Bool → Device := writes true (.edit SshConfig.anyOrder .host "alias" "web" newUser 32 0) renamed

def entry (b : Bool) : Frame := (edited b).disk.log.getLast (by cases b <;> decide +kernel)

def halfway : Bool → Device :=
  Function.update edited true ((edited true).perform (·.applyRemoteEntry (entry false).1 (entry false).2))

/-- Each has the entry of the other. -/
def delivered : Bool → Device :=
  Function.update halfway false ((halfway false).perform (·.applyRemoteEntry (entry true).1 (entry true).2))

def web : Record := ((agreed false).vault.state[(20 : Uuid)]?).get (by decide +kernel)

theorem agreed_run : Run pair agreed :=
  .tail (.single (.write false Reading.addWeb (by decide))) (.receive true false _ (List.mem_of_getLast? rfl))

theorem owns_of_toList {own : Bool → String → Bool} {b : Bool} {old : Record} {payload : Payload}
    (h : ∀ e ∈ payload.toList, own b e.1 = false → old.value e.1 = some e.2) : Owns own b old payload :=
  fun n hn value hvalue => h (n, value) (Std.ExtTreeMap.mem_toList_iff_getElem?_eq_some.mpr hvalue) hn

def shown (b : Bool) (w : Bool → Device) (h : ((w b).vault.find SshConfig.anyOrder .host "alias" "web").isSome) : Record :=
  ((w b).vault.find SshConfig.anyOrder .host "alias" "web").get h

theorem delivered_run : EditRun fields 20 agreed [(false, newName), (true, newUser)] delivered := by
  have hfirst : EditRun fields 20 agreed [(false, newName)] renamed :=
    @EditRun.edit Bool _ fields 20 agreed [] agreed .refl false SshConfig.anyOrder .host "alias" "web" newName 31 0
      (shown false agreed (by decide +kernel)) (by decide +kernel) (Option.some_get _).symm (by decide +kernel)
      (owns_of_toList (by decide +kernel)) (by decide +kernel)
  have hsecond : EditRun fields 20 agreed [(false, newName), (true, newUser)] edited :=
    @EditRun.edit Bool _ fields 20 agreed [(false, newName)] renamed hfirst true SshConfig.anyOrder .host "alias" "web" newUser
      32 0 (shown true renamed (by decide +kernel)) (by decide +kernel) (Option.some_get _).symm (by decide +kernel)
      (owns_of_toList (by decide +kernel)) (by decide +kernel)
  exact .receive (.receive hsecond true false (entry false) (by decide +kernel)) false true (entry true) (by decide +kernel)

theorem disjoint_edits_survive_delivered : ∃ r, (delivered true).vault.state[(20 : Uuid)]? = some r ∧
    ∀ n, r.value n = lastWritten fields n (web.value n) [(false, newName), (true, newUser)] := by
  have hsame : ∀ b, (agreed b).vault.state[(20 : Uuid)]? = some web := by decide +kernel
  have hperm : (delivered false).disk.log.Perm (delivered true).disk.log := by decide +kernel
  refine disjoint_edits_survive pair_start agreed_run hsame ?_ ?_ delivered_run ?_ true
  · have hall : ∀ b, ∀ e ∈ web.fields.toList, e.2.clock.lamport ≤ (agreed b).counter := by decide +kernel
    exact fun b n f hf => hall b (n, f) (Std.ExtTreeMap.mem_toList_iff_getElem?_eq_some.mpr hf)
  · intro b b' n hb hb'
    cases b <;> cases b' <;> simp_all [fields]
  · intro b b' f
    cases b <;> cases b'
    · exact Iff.rfl
    · exact hperm.mem_iff
    · exact hperm.symm.mem_iff
    · exact Iff.rfl

end TwoFields

end Convergence

end SshVault
