import SshVault.Payloads

/-!
# Live records stay readable

A merged record mixes the fields of its snapshots. Every snapshot of an id spells the members of one payload
type, or is a tombstone without fields, so every mix of them is read.
-/

open Lib

namespace SshVault

namespace Vault

/-! ## Records under their ids -/

section

variable {P : Record → Prop} {v : Vault} {d : Disk} {state : State}

/-- Every record shown stands under its own id and satisfies `P`. -/
def Filed (P : Record → Prop) (state : State) : Prop := ∀ (i : Uuid) (r : Record), state[i]? = some r → r.id = i ∧ P r

/-- Merging two snapshots of one id keeps `P`. -/
def Merges (P : Record → Prop) : Prop := ∀ a b : Record, a.id = b.id → P a → P b → P (merge a b)

theorem filed_empty : Filed P ∅ := State.All.empty

theorem Effect.filed {a : Action} {v' : Vault} {d' : Disk} (hmerge : Merges P) (h : Effect v d a v' d')
    (hd : DiskHolds P d) (hlog : ∀ f ∈ d'.log, FrameHolds P f) (hv : Filed P v.state) :
    DiskHolds P d' ∧ Filed P v'.state := by
  refine h.all (Q := fun i r => r.id = i ∧ P r) ?_ (fun r hr => ⟨rfl, hr⟩) (fun _ _ hr => hr.2) hd hlog hv
  rintro i a b ⟨ha, haP⟩ ⟨hb, hbP⟩
  exact ⟨(merge_id a b).trans ha, hmerge a b (ha.trans hb.symm) haP hbP⟩

/-- A directory whose records all satisfy `P`, and stand under their ids in the open vault. -/
structure Site.Filed (P : Record → Prop) (s : Site) : Prop where
  disk : DiskHolds P s.disk
  vault : ∀ v, s.vault = some v → Vault.Filed P v.state

theorem Site.Filed.moves {s s' : Site} {a : Action} (hmerge : Merges P) (h : s.Filed P) (hmove : s.Moves a s')
    (hlog : ∀ f ∈ s'.disk.log, FrameHolds P f) : s'.Filed P := by
  cases hmove with
  | stays => exact h
  | acts hv heff =>
    obtain ⟨hd, hv'⟩ := heff.filed hmerge h.disk hlog (h.vault _ hv)
    exact ⟨hd, by rintro _ ⟨rfl⟩; exact hv'⟩
  | opens heff =>
    obtain ⟨hd, hv'⟩ := heff.filed hmerge h.disk hlog filed_empty
    exact ⟨hd, by rintro _ ⟨rfl⟩; exact hv'⟩
  | closes => exact ⟨h.disk, by rintro _ ⟨⟩⟩

end

theorem Site.after_keyed (deviceName : String) (vaultId : Uuid) (vaultKey : Key) (recoveryPub : Bytes) (x : XKey)
    (ed : EdKey) (deviceId : Uuid) (actions : List Action) {v : Vault}
    (hv : ((created deviceName vaultId vaultKey recoveryPub x ed deviceId).after actions).vault = some v) {i : Uuid}
    {r : Record} (hr : v.state[i]? = some r) : r.id = i := by
  have hfiled : ((created deviceName vaultId vaultKey recoveryPub x ed deviceId).after actions).Filed fun _ => True := by
    refine Site.after_keeps (fun _ => True) ?_ ?_ fun _ _ => trivial
    · intro s a s' h _ hmove
      exact h.moves (fun _ _ _ _ _ => trivial) hmove fun _ _ _ _ _ => trivial
    · refine ⟨⟨(fun f hf => nomatch hf), by rintro _ ⟨⟩⟩, ?_⟩
      rintro _ ⟨rfl⟩
      exact filed_empty
  exact (hfiled.vault v hv i r hr).1

theorem mem_list_of_shown {α : Type} {v : Vault} {ord : HashOrder} {kind : Kind} {payload : Record → Option α} {r : Record}
    {x : α} (hr : Shown v.state r) (hlive : live r = true) (hkind : r.kind = kind) (hx : payload r = some x) :
    (r.id, x) ∈ v.list ord kind payload := by
  obtain ⟨i, hr⟩ := hr
  unfold list
  rw [List.mem_insertionSort, List.mem_filterMap]
  refine ⟨r, List.mem_filter.mpr ⟨?_, by simp [hlive, hkind]⟩, by rw [hx]; rfl⟩
  exact (ord.perm _).mem_iff.mpr (List.mem_map.mpr ⟨(i, r), Std.ExtTreeMap.mem_toList_iff_getElem?_eq_some.mpr hr, rfl⟩)

/-! ## What a step logs -/

/-- The log stays, gets the entry received, or gets the record that a write makes. -/
inductive Grows (s : Site) : Action → List Frame → Prop
  | stays {a : Action} : Grows s a s.disk.log
  | received {f : Frame} : Grows s (.applyRemoteEntry f) (s.disk.log ++ [f])
  | wrote {v : Vault} {w : Write} {r : Record} {key : Key} {entryId : Uuid} (hv : s.vault = some v) (h : Made v.state w r) :
    Grows s (.write w) (s.disk.log ++ [(entryId, Crypto.sealBlob key (.record r) entryId)])

variable {s : Site}

theorem Effect.grows {a : Action} {v v' : Vault} {d' : Disk} (h : Effect v s.disk a v' d') (ha : ∀ w, a ≠ .write w) :
    Grows s a d'.log := by
  cases h with
  | idle m m' => exact .stays
  | wrote m m' r key entryId hr hkey => exact absurd rfl (ha _)
  | received m m' o ho => exact .received
  | rekeyed kr hg => exact .stays
  | joined kr hempty hkr => exact .stays
  | folded m state n hfold => exact .stays
  | compacted m records hopen snapshot hs => exact .stays

theorem write_grows (w : Write) : Grows s (.write w) (s.next (.write w)).disk.log := by
  obtain ⟨d, vault⟩ := s
  cases vault with
  | none => exact .stays
  | some v =>
    have hlog : Logs v d w (((Action.write w).prog v).run d).2.log := by
      unfold Action.prog
      rw [Prog.run_bind]
      exact write_logs w
    change Grows ⟨d, some v⟩ (.write w) (((Action.write w).prog v).run d).2.log
    rcases hlog with h | ⟨r, key, entryId, hmade, h⟩ <;> rw [h]
    · exact .stays
    · exact .wrote rfl hmade

theorem Site.next_grows (s : Site) (a : Action) : Grows s a (s.next a).disk.log := by
  by_cases hwrite : ∃ w, a = .write w
  · obtain ⟨w, rfl⟩ := hwrite
    exact write_grows w
  · have hother : ∀ w, a ≠ .write w := fun w hw => hwrite ⟨w, hw⟩
    have hmove := s.moves a
    generalize s.next a = s' at hmove ⊢
    cases hmove with
    | stays => exact .stays
    | acts hv heff => exact heff.grows hother
    | opens heff => exact heff.grows hother
    | closes => exact .stays

end Vault

/-! ## Typed records -/

/-- The payload that a value of some payload type for `kind` is serialised to. -/
def TypedPayload (kind : Kind) (payload : Payload) : Prop :=
  ∃ T ∈ payloadTypes, T.kind = kind ∧ ∃ x, T.Valid x ∧ payload = T.toPayload x

/-- A snapshot that spells the members of the payload type that its id was drawn for, or a tombstone without
fields. -/
def Typed (typeOf : Uuid → PayloadType) (r : Record) : Prop :=
  r.kind = .tombstone ∧ r.fields = ∅ ∨
    r.kind = (typeOf r.id).kind ∧
      ∀ m ∈ (typeOf r.id).members, ∃ b, m.codec.Valid b ∧ r.value m.name = m.codec.write b

theorem Record.value_merge_or (a b : Record) (n : String) :
    (merge a b).value n = a.value n ∨ (merge a b).value n = b.value n := by
  unfold Record.value
  rw [merge_fields_get]
  cases h : later Field.clock a.fields[n]? b.fields[n]? with
  | none =>
    rw [(later_eq_none.mp h).1]
    exact Or.inl rfl
  | some f =>
    rcases (later_eq_some h).1 with ha | hb
    · rw [ha]
      exact Or.inl rfl
    · rw [hb]
      exact Or.inr rfl

theorem Record.value_merge_tombstone {a b : Record} (n : String) :
    (a.fields = ∅ → (merge a b).value n = b.value n) ∧ (b.fields = ∅ → (merge a b).value n = a.value n) := by
  unfold Record.value
  rw [merge_fields_get]
  constructor
  · intro h
    rw [h, Std.ExtTreeMap.getElem?_empty, later_none_left]
  · intro h
    rw [h, Std.ExtTreeMap.getElem?_empty, later_none_right]

variable {typeOf : Uuid → PayloadType}

/-- **Merging.** A merged record takes each member from one of the two. -/
theorem merges_typed : Vault.Merges (Typed typeOf) := by
  intro a b hid ha hb
  have hmax : ∀ k : Kind, max .tombstone k = k := fun k => by cases k <;> rfl
  unfold Typed
  rw [merge_id, merge_kind]
  rcases ha with ⟨hka, hfa⟩ | ⟨hka, hma⟩ <;> rcases hb with ⟨hkb, hfb⟩ | ⟨hkb, hmb⟩
  · refine Or.inl ⟨by rw [hka, hkb]; rfl, ?_⟩
    refine Std.ExtTreeMap.ext_getElem? fun n => ?_
    rw [merge_fields_get, hfa, hfb]
    simp
  · rw [← hid] at hkb hmb
    refine Or.inr ⟨by rw [hka, hmax, hkb], fun m hm => ?_⟩
    rw [(Record.value_merge_tombstone m.name).1 hfa]
    exact hmb m hm
  · refine Or.inr ⟨by rw [hkb, max_comm, hmax, hka], fun m hm => ?_⟩
    rw [(Record.value_merge_tombstone m.name).2 hfb]
    exact hma m hm
  · rw [← hid] at hkb hmb
    refine Or.inr ⟨by rw [hka, hkb, max_self], fun m hm => ?_⟩
    rcases Record.value_merge_or a b m.name with h | h <;> rw [h]
    · exact hma m hm
    · exact hmb m hm

theorem Typed.readable {r : Record} (h : Typed typeOf r) (hlive : r.kind ≠ .tombstone) :
    r.kind = (typeOf r.id).kind ∧ ∃ x, (typeOf r.id).read r = some x := by
  obtain ⟨hkind, hmembers⟩ := h.resolve_left fun h => hlive h.1
  refine ⟨hkind, (typeOf r.id).readable fun m hm => ?_⟩
  obtain ⟨b, hb, hvalue⟩ := hmembers m hm
  rw [hvalue]
  exact ⟨b, m.codec.read_write b hb⟩

theorem payloadType_unique {T T' : PayloadType} (hT : T ∈ payloadTypes) (hT' : T' ∈ payloadTypes) (h : T.kind = T'.kind) :
    T = T' :=
  List.inj_on_of_nodup_map (f := PayloadType.kind) (by decide) hT hT' h

theorem Typed.of_payload {r : Record} {payload : Payload} (hpayload : TypedPayload r.kind payload)
    (htype : typeOf r.id ∈ payloadTypes) (hkind : r.kind = (typeOf r.id).kind) (hvalue : ∀ n, r.value n = payload[n]?) :
    Typed typeOf r := by
  obtain ⟨T, hT, hTkind, x, hx, rfl⟩ := hpayload
  obtain rfl := payloadType_unique hT htype (hTkind.trans hkind)
  refine Or.inr ⟨hkind, fun m hm => ⟨m.get x, hx m hm, ?_⟩⟩
  rw [hvalue, PayloadType.toPayload, Member.serialize_get (typeOf r.id).names hm]
  rfl

/-! ## Devices that write and sync -/

namespace Convergence

variable {ι : Type}

/-- Records are added and edited with the payload type of their kind, a new id is drawn for one payload type, and
an entry that comes in is one of some device's log. -/
def Admits (typeOf : Uuid → PayloadType) (w : ι → Vault.Site) : Vault.Action → Prop
  | .write (.addIn _ kind _ _ payload _ recordId _ _) => TypedPayload kind payload ∧ (typeOf recordId).kind = kind
  | .write (.edit _ kind _ _ payload _ _) => TypedPayload kind payload
  | .applyRemoteEntry f => ∃ j, f ∈ (w j).disk.log
  | _ => True

/-- Some device does something with its vault. -/
def Turn [DecidableEq ι] (typeOf : Uuid → PayloadType) (w w' : ι → Vault.Site) : Prop :=
  ∃ i a, Admits typeOf w a ∧ w' = Function.update w i ((w i).next a)

def TypedRun [DecidableEq ι] (typeOf : Uuid → PayloadType) : (ι → Vault.Site) → (ι → Vault.Site) → Prop :=
  Relation.ReflTransGen (Turn typeOf)

/-- A vault before its first entry. -/
structure Blank (s : Vault.Site) : Prop where
  log : s.disk.log = []
  snapshot : s.disk.snapshot = none
  state : ∀ v, s.vault = some v → v.state = ∅

theorem Blank.filed {s : Vault.Site} (h : Blank s) {P : Record → Prop} : s.Filed P := by
  refine ⟨⟨fun f hf => ?_, fun snapshot hs => ?_⟩, fun v hv => ?_⟩
  · rw [h.log] at hf
    cases hf
  · rw [h.snapshot] at hs
    cases hs
  · rw [h.state v hv]
    exact Vault.filed_empty

variable {w : ι → Vault.Site}

theorem frames_typed (htypes : ∀ k, typeOf k ∈ payloadTypes) (h : ∀ i, (w i).Filed (Typed typeOf)) {i : ι}
    {a : Vault.Action} (ha : Admits typeOf w a) :
    ∀ f ∈ ((w i).next a).disk.log, Vault.FrameHolds (Typed typeOf) f := by
  have hgrows := (w i).next_grows a
  generalize ((w i).next a).disk.log = log at hgrows ⊢
  cases hgrows with
  | stays => exact (h i).disk.log
  | received =>
    rename_i f
    obtain ⟨j, hf⟩ := ha
    intro g hg
    rcases List.mem_append.mp hg with hg | hg
    · exact (h i).disk.log g hg
    · rw [List.mem_singleton.mp hg]
      exact (h j).disk.log f hf
  | wrote hv hmade =>
    intro g hg
    rcases List.mem_append.mp hg with hg | hg
    · exact (h i).disk.log g hg
    rw [List.mem_singleton.mp hg]
    intro k r' hblob
    simp only [Crypto.sealBlob, Bytes.sealed.injEq, Sealed.mk.injEq, Plain.record.injEq] at hblob
    obtain ⟨-, -, rfl⟩ := hblob
    cases hmade with
    | added hid hkind hvalue =>
      obtain ⟨hpayload, htype⟩ := ha
      exact Typed.of_payload (hkind ▸ hpayload) (htypes _) (by rw [hkind, hid, htype]) hvalue
    | edited hold holdKind hlive hid hkind hvalue =>
      -- The record edited has the kind of its id, and the edit keeps both.
      obtain ⟨j, hold⟩ := hold
      have htyped := ((h i).vault _ hv j _ hold).2
      have hkindOf := (htyped.resolve_left fun h => hlive (holdKind.symm.trans h.1)).1
      have hpayload : TypedPayload _ _ := ha
      exact Typed.of_payload (hkind ▸ hpayload) (htypes _) (by rw [hkind, hid, ← hkindOf, holdKind]) hvalue
    | removed hkind hfields => exact Or.inl ⟨hkind, hfields⟩

theorem TypedRun.filed [DecidableEq ι] {w₀ : ι → Vault.Site} (htypes : ∀ k, typeOf k ∈ payloadTypes)
    (hstart : ∀ i, Blank (w₀ i)) (hrun : TypedRun typeOf w₀ w) (i : ι) : (w i).Filed (Typed typeOf) := by
  induction hrun generalizing i with
  | refl => exact (hstart i).filed
  | tail _ hturn ih =>
    obtain ⟨j, a, ha, rfl⟩ := hturn
    by_cases hij : i = j
    · subst hij
      rw [Function.update_self]
      exact (ih i).moves merges_typed ((_ : Vault.Site).moves a) (frames_typed htypes ih ha)
    · rw [Function.update_of_ne hij]
      exact ih i

/-- **Readable records.** Every live record is read as the payload of its kind, so the list of the kind has it. -/
theorem live_records_readable [DecidableEq ι] {w₀ : ι → Vault.Site} (htypes : ∀ k, typeOf k ∈ payloadTypes)
    (hstart : ∀ i, Blank (w₀ i)) (hrun : TypedRun typeOf w₀ w) {i : ι} {v : Vault} (hv : (w i).vault = some v) {r : Record}
    (hr : Vault.Shown v.state r) (hlive : live r = true) :
    ∃ T ∈ payloadTypes, T.kind = r.kind ∧ ∃ x, T.read r = some x ∧ ∀ ord, (r.id, x) ∈ v.list ord T.kind T.read := by
  obtain ⟨k, hk⟩ := hr
  obtain ⟨-, htyped⟩ := (hrun.filed htypes hstart i).vault v hv k r hk
  have hkind : r.kind ≠ .tombstone := by
    unfold live at hlive
    simp only [Bool.and_eq_true, decide_eq_true_eq] at hlive
    exact hlive.2
  obtain ⟨hkindOf, x, hx⟩ := htyped.readable hkind
  exact ⟨_, htypes _, hkindOf.symm, x, hx, fun ord => Vault.mem_list_of_shown ⟨k, hk⟩ hlive hkindOf hx⟩

/-! ### Two devices -/

namespace Reading

def start (b : Bool) : Vault.Site :=
  Vault.created "laptop" 7 (.vault 1 0) (.ed (.recovery 1)) b.toNat (.device b.toNat) (if b then 11 else 10)

def web : Host := ⟨"web", some "10.0.0.1", some 22, none, none, none, []⟩

def addWeb : Write := .addIn SshConfig.anyOrder .host "alias" "web" (PayloadType.host.toPayload web) nil 20 30 0

def added : Bool → Vault.Site := Function.update start false ((start false).next (.write addWeb))

/-- The entry of one device has reached the other. -/
def delivered : Bool → Vault.Site :=
  Function.update added true ((added true).next (.applyRemoteEntry ((added false).disk.log.head (by decide +kernel))))

theorem delivered_run : TypedRun (fun _ => .host) start delivered := by
  have hweb : PayloadType.host.Valid web := by
    unfold PayloadType.Valid PayloadType.host
    simp only [List.forall_mem_cons, List.not_mem_nil, false_imp_iff, implies_true, and_true]
    refine ⟨trivial, fun _ _ => trivial, ?_, fun _ _ => trivial, fun _ _ => trivial, fun _ _ => trivial, trivial⟩
    rintro n ⟨⟩
    change 22 < 65536
    decide
  have hadded : TypedRun (fun _ => .host) start added :=
    .single ⟨false, .write addWeb, ⟨⟨.host, by simp [payloadTypes], rfl, web, hweb, rfl⟩, rfl⟩, rfl⟩
  exact hadded.tail ⟨true, .applyRemoteEntry _, ⟨false, List.head_mem _⟩, rfl⟩

def other : Vault := (delivered true).vault.get (by decide +kernel)

theorem live_records_readable_delivered :
    ∃ r, Vault.Shown other.state r ∧ ∃ T ∈ payloadTypes, T.kind = r.kind ∧ ∃ x, T.read r = some x ∧
      ∀ ord, (r.id, x) ∈ other.list ord T.kind T.read := by
  have hshown : (other.state[(20 : Uuid)]?.map live) = some true := by decide +kernel
  obtain ⟨r, hr, hlive⟩ := Option.map_eq_some_iff.mp hshown
  refine ⟨r, ⟨20, hr⟩, live_records_readable ?_ ?_ delivered_run (Option.some_get _).symm ⟨20, hr⟩ hlive⟩
  · simp [payloadTypes]
  · exact fun b => ⟨rfl, rfl, by rintro _ ⟨⟩; rfl⟩

end Reading

end Convergence

end SshVault
