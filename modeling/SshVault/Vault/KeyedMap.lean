import SshVault.Dominance
import SshVault.Payloads

/-!
# A vault as a keyed map

To its callers a vault is a map from kind and name to field values. What implements it is a fold of
clocks, tombstones and newest fields.
-/

open Lib

namespace SshVault

/-! ## The map -/

/-- The field that names a record of this kind. -/
def Kind.nameField : Kind → String
  | .host => "alias"
  | _ => "name"

abbrev KeyedMap := Kind × String → Option Payload

/-- A call, as the map sees it. -/
inductive MapCall where
  | add (kind : Kind) (name : String) (payload : Payload)
  | edit (kind : Kind) (name : String) (payload : Payload)
  | remove (kind : Kind) (name : String)

namespace KeyedMap

def step (m : KeyedMap) : MapCall → Except VaultError Unit × KeyedMap
  | .add kind name payload => match m (kind, name) with
    | some _ => (.error (.duplicate (kindStr kind) name), m)
    | none => (.ok (), Function.update m (kind, name) (some payload))
  | .edit kind name payload => match m (kind, name) with
    | none => (.error (.noSuchRecord (kindStr kind) name), m)
    | some old => (.ok (), Function.update m (kind, name) (some (old ∪ payload)))
  | .remove kind name => match m (kind, name) with
    | none => (.error (.noSuchRecord (kindStr kind) name), m)
    | some _ => (.ok (), Function.update m (kind, name) none)

variable {m : KeyedMap} {kind : Kind} {name : String} {payload old : Payload}

theorem step_add (h : m (kind, name) = none) :
    m.step (.add kind name payload) = (.ok (), Function.update m (kind, name) (some payload)) := by
  simp only [step, h]

theorem step_add_error (h : m (kind, name) = some old) :
    m.step (.add kind name payload) = (.error (.duplicate (kindStr kind) name), m) := by
  simp only [step, h]

theorem step_edit (h : m (kind, name) = some old) :
    m.step (.edit kind name payload) = (.ok (), Function.update m (kind, name) (some (old ∪ payload))) := by
  simp only [step, h]

theorem step_edit_error (h : m (kind, name) = none) :
    m.step (.edit kind name payload) = (.error (.noSuchRecord (kindStr kind) name), m) := by
  simp only [step, h]

theorem step_remove (h : m (kind, name) = some old) :
    m.step (.remove kind name) = (.ok (), Function.update m (kind, name) none) := by
  simp only [step, h]

theorem step_remove_error (h : m (kind, name) = none) :
    m.step (.remove kind name) = (.error (.noSuchRecord (kindStr kind) name), m) := by
  simp only [step, h]

/-- The answers to calls one after the other, and the map they leave. -/
def play (calls : List MapCall) : List (Except VaultError Unit) × KeyedMap :=
  calls.foldl (fun (answers, m) c => (answers ++ [(m.step c).1], (m.step c).2)) ([], fun _ => none)

theorem play_snoc (calls : List MapCall) (c : MapCall) :
    play (calls ++ [c]) = ((play calls).1 ++ [((play calls).2.step c).1], ((play calls).2.step c).2) := by
  unfold play
  rw [List.foldl_concat]

/-- How many calls are not refused. -/
def accepted (calls : List MapCall) : Nat := (play calls).1.countP (·.isOk)

theorem accepted_snoc (calls : List MapCall) (c : MapCall) :
    accepted (calls ++ [c]) =
      if ((play calls).2.step c).1.isOk then accepted calls + 1 else accepted calls := by
  unfold accepted
  rw [play_snoc, List.countP_append, List.countP_singleton]
  split <;> rfl

end KeyedMap

/-- The payloads of the type's kind are values of the type. -/
def MapCall.Carries (T : PayloadType) : MapCall → Prop
  | .add kind _ payload | .edit kind _ payload => kind = T.kind → ∃ x, T.Valid x ∧ payload = T.toPayload x
  | .remove _ _ => True

section

variable {T : PayloadType} {x : T.Data}

theorem PayloadType.reads_toPayload (hx : T.Valid x) {m : Member T.Data} (hm : m ∈ T.members) :
    m.codec.read (T.toPayload x)[m.name]? = some (m.get x) := by
  rw [toPayload, Member.serialize_get T.names hm]
  exact m.codec.read_write _ (hx m hm)

/-- Members are read one by one, also where some of them were written over. -/
theorem PayloadType.reads_over (hx : T.Valid x) {m : Member T.Data} (hm : m ∈ T.members) {p : Payload}
    (hp : ∃ b, m.codec.read p[m.name]? = some b) : ∃ b, m.codec.read (p ∪ T.toPayload x)[m.name]? = some b := by
  have hread := PayloadType.reads_toPayload hx hm
  rw [Std.ExtTreeMap.getElem?_union]
  cases hw : (T.toPayload x)[m.name]? with
  | none => exact hp
  | some value =>
    rw [hw] at hread
    exact ⟨_, hread⟩

end

/-- What one type writes, it reads, after any calls. -/
theorem KeyedMap.reads {T : PayloadType} {calls : List MapCall} (h : ∀ c ∈ calls, c.Carries T) {name : String} {p : Payload}
    (hp : (play calls).2 (T.kind, name) = some p) : ∀ m ∈ T.members, ∃ b, m.codec.read p[m.name]? = some b := by
  induction calls using List.reverseRecOn generalizing name p with
  | nil => cases hp
  | append_singleton calls c ih =>
    have hcalls : ∀ c ∈ calls, c.Carries T := fun c' hc' => h c' (List.mem_append_left _ hc')
    have hc := h c (List.mem_append_right _ List.mem_cons_self)
    rw [play_snoc] at hp
    dsimp only at hp
    generalize hm : (play calls).2 = m at hp ih
    -- A call changes one entry at most, to what it writes.
    have hupdate : ∀ {k : Kind × String} {o : Option Payload}, Function.update m k o (T.kind, name) = some p →
        (k = (T.kind, name) → ∀ q, o = some q → ∀ m ∈ T.members, ∃ b, m.codec.read q[m.name]? = some b) →
        ∀ m ∈ T.members, ∃ b, m.codec.read p[m.name]? = some b := by
      intro k o hk hnew
      by_cases hsame : (T.kind, name) = k
      · subst hsame
        rw [Function.update_self] at hk
        exact hnew rfl p hk
      · rw [Function.update_of_ne hsame] at hk
        exact ih hcalls hk
    cases c with
    | add k name' payload =>
      cases hold : m (k, name') with
      | some old =>
        rw [step_add_error hold] at hp
        exact ih hcalls hp
      | none =>
        rw [step_add hold] at hp
        refine hupdate hp fun hk q hq => ?_
        obtain ⟨x, hx, rfl⟩ := hc (Prod.mk.inj hk).1
        obtain rfl := Option.some.inj hq
        exact fun m hm => ⟨_, PayloadType.reads_toPayload hx hm⟩
    | edit k name' payload =>
      cases hold : m (k, name') with
      | none =>
        rw [step_edit_error hold] at hp
        exact ih hcalls hp
      | some old =>
        rw [step_edit hold] at hp
        refine hupdate hp fun hk q hq => ?_
        obtain ⟨x, hx, rfl⟩ := hc (Prod.mk.inj hk).1
        obtain rfl := Option.some.inj hq
        exact fun m hm => PayloadType.reads_over hx hm (ih hcalls (hk ▸ hold) m hm)
    | remove k name' =>
      cases hold : m (k, name') with
      | none =>
        rw [step_remove_error hold] at hp
        exact ih hcalls hp
      | some old =>
        rw [step_remove hold] at hp
        exact hupdate hp fun _ q hq => nomatch hq

/-! ## Records as entries -/

namespace Record

/-- All field values. -/
def values (r : Record) : Payload := r.fields.map fun _ f => f.value

/-- Kind and name of a live record. -/
def key (r : Record) : Option (Kind × String) :=
  if live r then
    match r.value r.kind.nameField with
    | some (.str (.plain name)) => some (r.kind, name)
    | _ => none
  else none

theorem values_get (r : Record) (n : String) : r.values[n]? = r.value n := Std.ExtTreeMap.getElem?_map

theorem values_of_fields {r : Record} {payload : Payload} {c : Clock} (h : r.fields = fieldsFromPayload payload c) :
    r.values = payload := by
  refine Std.ExtTreeMap.ext_getElem? fun n => (r.values_get n).trans ?_
  unfold value
  rw [h, value_fieldsFromPayload]

theorem key_eq_some {r : Record} {kind : Kind} {name : String} :
    r.key = some (kind, name) ↔ live r = true ∧ r.kind = kind ∧ r.value kind.nameField = some (.str (.plain name)) := by
  unfold key
  cases live r with
  | false => simp
  | true =>
    rw [if_pos rfl]
    constructor
    · intro h
      split at h
      · rename_i s hs
        obtain ⟨rfl, rfl⟩ := Prod.mk.inj (Option.some.inj h)
        exact ⟨rfl, rfl, hs⟩
      · cases h
    · rintro ⟨-, rfl, hname⟩
      rw [hname]

theorem matchesName_iff {r : Record} {kind : Kind} {name : String} :
    Vault.matchesName kind kind.nameField name r = true ↔ r.key = some (kind, name) := by
  rw [key_eq_some]
  unfold Vault.matchesName value
  cases r.fields[kind.nameField]? with
  | none => simp
  | some f => simp [and_assoc]

theorem merge_shareId {old r : Record} (h : r.shareId = old.shareId) : (merge old r).shareId = old.shareId := by
  by_cases hle : r.clock ≤ old.clock <;> simp [merge, hle, h]

theorem merge_kind_tombstone {old r : Record} (h : r.kind = .tombstone) : (merge old r).kind = old.kind := by
  have hleast : Kind.tombstone ≤ old.kind := by cases old.kind <;> decide
  rw [merge_kind, h]
  exact max_eq_left hleast

theorem live_of_not_deleted {r : Record} (hdel : r.deletedAt = none) (hkind : r.kind ≠ .tombstone) : live r = true := by
  have hnot : r.isDeleted = false := by
    unfold isDeleted
    rw [hdel]
  simp [live, hnot, hkind]

theorem not_live_of_deleted {r : Record} (h : r.isDeleted = true) : live r = false := by
  simp [live, h]

theorem value_merge_empty (old r : Record) (hr : r.fields = ∅) (n : String) : (merge old r).value n = old.value n := by
  unfold value
  rw [merge_fields_get, hr]
  simp

theorem value_merge_edit {old r : Record} {payload : Payload} {c : Clock}
    (hr : r.fields = Vault.editFields payload old.fields c)
    (hlt : ∀ (n : String) (f : Field), old.fields[n]? = some f → f.clock < c) (n : String) :
    (merge old r).value n = payload[n]?.or (old.value n) := by
  unfold value
  rw [merge_fields_get, hr]
  cases hp : payload[n]? with
  | none =>
    have hnone : (Vault.editFields payload old.fields c)[n]? = none := by
      have hvalue : (Vault.editFields payload old.fields c)[n]?.map (·.value) = payload[n]? := Vault.value_editFields n
      rw [hp] at hvalue
      simpa using hvalue
    rw [hnone, later_none_right]
    rfl
  | some value =>
    obtain ⟨f, hf, hfv⟩ := Dominance.later_editFields (hlt n) hp
    rw [hf, Option.map_some, hfv]
    rfl

end Record

end SshVault
