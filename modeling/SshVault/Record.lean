import Mathlib

/-!
# Records (`src/record.rs`)

Every mutation appends one immutable record snapshot to the log. A snapshot carries, for
each field, the clock of its last write.
-/

namespace SshVault

/-! ## Scalars -/

/-- A UUID: 16 bytes, ordered as the big-endian number they spell. -/
abbrev Uuid := Fin (2 ^ 128)

instance uuid_neZero : NeZero (2 ^ 128) := ⟨by decide⟩

instance uuid_transOrd : Std.TransOrd Uuid := inferInstance

/-- `Uuid::nil`, also the id of the default share. -/
def nil : Uuid := 0

abbrev U64 := Fin (2 ^ 64)

instance u64_neZero : NeZero (2 ^ 64) := ⟨by decide⟩

/-- A lamport clock with the device id as tiebreak. -/
structure Clock where
  lamport : U64
  device : Uuid
  deriving DecidableEq, Repr

namespace Clock

def toPair (c : Clock) : U64 ×ₗ Uuid := toLex (c.lamport, c.device)

theorem toPair_injective : Function.Injective toPair := by
  rintro ⟨l, d⟩ ⟨l', d'⟩ h
  simpa [toPair] using h

/-- The derived order of the source: lamport first, then device. -/
instance : LinearOrder Clock := LinearOrder.lift' toPair toPair_injective

theorem lt_iff {c c' : Clock} :
    c < c' ↔ c.lamport < c'.lamport ∨ c.lamport = c'.lamport ∧ c.device < c'.device :=
  Prod.Lex.lt_iff

theorem lt_of_lamport_lt {c c' : Clock} (h : c.lamport < c'.lamport) : c < c' :=
  lt_iff.mpr (Or.inl h)

theorem lamport_le_of_le {c c' : Clock} (h : c ≤ c') : c.lamport ≤ c'.lamport := by
  rcases h.lt_or_eq with h | rfl
  · rcases lt_iff.mp h with h | h
    · exact h.le
    · exact h.1.le
  · exact le_rfl

end Clock

/-- Record types. `tombstone` comes first, so that any live kind wins a kind conflict. -/
inductive Kind where
  | tombstone
  | host
  | snippet
  | portForward
  | keyMeta
  | privateKey
  | shareName
  deriving DecidableEq, Repr

namespace Kind

def rank : Kind → Nat
  | .tombstone => 0
  | .host => 1
  | .snippet => 2
  | .portForward => 3
  | .keyMeta => 4
  | .privateKey => 5
  | .shareName => 6

theorem rank_injective : Function.Injective rank := by
  intro a b h
  cases a <;> cases b <;> first | rfl | cases h

instance : LinearOrder Kind := LinearOrder.lift' rank rank_injective

end Kind

/-! ## JSON -/

/-- A JSON string: plain text, or the base64 of something of type `β`. -/
inductive Text (β : Type) where
  | plain (s : String)
  | b64 (b : β)
  deriving DecidableEq, Repr

/-- `serde_json::Value`. No payload holds a fractional number, so numbers are integers. -/
inductive Json (β : Type) where
  | null
  | bool (b : Bool)
  | num (n : Int)
  | str (t : Text β)
  | arr (items : List (Json β))
  | obj (fields : List (String × Json β))

namespace Json

variable {β : Type} [DecidableEq β]

mutual

def decEq : (a b : Json β) → Decidable (a = b)
  | .null, .null => isTrue rfl
  | .bool a, .bool b => decidable_of_iff (a = b) (by simp)
  | .num a, .num b => decidable_of_iff (a = b) (by simp)
  | .str a, .str b => decidable_of_iff (a = b) (by simp)
  | .arr a, .arr b => match decEqItems a b with
    | isTrue h => isTrue (by rw [h])
    | isFalse h => isFalse (by simpa using h)
  | .obj a, .obj b => match decEqFields a b with
    | isTrue h => isTrue (by rw [h])
    | isFalse h => isFalse (by simpa using h)
  | .null, .bool _ | .null, .num _ | .null, .str _ | .null, .arr _ | .null, .obj _
  | .bool _, .null | .bool _, .num _ | .bool _, .str _ | .bool _, .arr _ | .bool _, .obj _
  | .num _, .null | .num _, .bool _ | .num _, .str _ | .num _, .arr _ | .num _, .obj _
  | .str _, .null | .str _, .bool _ | .str _, .num _ | .str _, .arr _ | .str _, .obj _
  | .arr _, .null | .arr _, .bool _ | .arr _, .num _ | .arr _, .str _ | .arr _, .obj _
  | .obj _, .null | .obj _, .bool _ | .obj _, .num _ | .obj _, .str _ | .obj _, .arr _ =>
    isFalse (by simp)

def decEqItems : (a b : List (Json β)) → Decidable (a = b)
  | [], [] => isTrue rfl
  | [], _ :: _ | _ :: _, [] => isFalse (by simp)
  | x :: a, y :: b => match decEq x y, decEqItems a b with
    | isTrue h, isTrue h' => isTrue (by rw [h, h'])
    | isFalse h, _ => isFalse fun e => h (List.cons.inj e).1
    | _, isFalse h => isFalse fun e => h (List.cons.inj e).2

def decEqFields : (a b : List (String × Json β)) → Decidable (a = b)
  | [], [] => isTrue rfl
  | [], _ :: _ | _ :: _, [] => isFalse (by simp)
  | (n, x) :: a, (m, y) :: b => match decEq x y, decEqFields a b with
    | isTrue h, isTrue h' => decidable_of_iff (n = m) (by simp [h, h'])
    | isFalse h, _ => isFalse fun e => h (Prod.mk.inj (List.cons.inj e).1).2
    | _, isFalse h => isFalse fun e => h (List.cons.inj e).2

end

instance : DecidableEq (Json β) := decEq

end Json

/-! ## Records -/

/-- A field value. The only bytes a payload spells in base64 are share ids. -/
abbrev Value := Json Uuid

/-- One field of a record with the clock of its last write. -/
structure Field where
  value : Value
  clock : Clock
  deriving DecidableEq

abbrev FieldMap := Std.ExtTreeMap String Field

/-- The JSON object that a typed payload serialises to. -/
abbrev Payload := Std.ExtTreeMap String Value

/-- An immutable record snapshot. -/
structure Record where
  id : Uuid
  kind : Kind
  fields : FieldMap
  deletedAt : Option Clock
  clock : Clock
  deviceId : Uuid
  modifiedAt : Nat
  shareId : Uuid
  deriving DecidableEq

namespace Record

/-- Deleted iff the tombstone clock beats every field clock. -/
def isDeleted (r : Record) : Bool :=
  match r.deletedAt with
  | none => false
  | some d => r.fields.toList.all fun p => p.2.clock < d

theorem isDeleted_iff (r : Record) :
    r.isDeleted = true ↔
      ∃ d, r.deletedAt = some d ∧ ∀ (n : String) (f : Field), r.fields[n]? = some f → f.clock < d := by
  unfold isDeleted
  cases r.deletedAt with
  | none => simp
  | some d =>
    simp only [Option.some.injEq, exists_eq_left', List.all_eq_true, decide_eq_true_eq]
    constructor
    · intro h n f hf
      exact h (n, f) (Std.ExtTreeMap.mem_toList_iff_getElem?_eq_some.mpr hf)
    · rintro h ⟨n, f⟩ hf
      exact h n f (Std.ExtTreeMap.mem_toList_iff_getElem?_eq_some.mp hf)

end Record

/-- Stamps every field of a payload with `clock`. -/
def fieldsFromPayload (payload : Payload) (clock : Clock) : FieldMap :=
  payload.map fun _ value => ⟨value, clock⟩

theorem fieldsFromPayload_get (payload : Payload) (clock : Clock) (n : String) :
    (fieldsFromPayload payload clock)[n]? = payload[n]?.map fun value => ⟨value, clock⟩ :=
  Std.ExtTreeMap.getElem?_map

theorem value_fieldsFromPayload (payload : Payload) (clock : Clock) (n : String) :
    (fieldsFromPayload payload clock)[n]?.map (·.value) = payload[n]? := by
  rw [fieldsFromPayload_get, Option.map_map]
  exact Option.map_id' ..

end SshVault
