import SshVault.Crypto

/-!
# The keyring (`src/vault.rs`)

Per-share epoch key-lists. Records are sealed under the newest key of their share, and an
entry opens with any key the device holds.
-/

namespace SshVault

inductive VaultError where
  | crypto (e : CryptoError)
  | corrupt (msg : String)
  | duplicate (kind name : String)
  | noSuchRecord (kind name : String)
  | privateKeyMaterial (what : String)
  | invalidField (field reason : String)
  deriving DecidableEq

structure ShareKeys where
  id : Uuid
  keys : List Key
  deriving DecidableEq

structure Keyring where
  shares : List ShareKeys
  /-- Legacy epoch list of the default share. -/
  vaultKeys : List Key := []
  /-- Legacy single vault key. -/
  vaultKey : Option Key := none
  x25519Secret : XKey
  ed25519Secret : EdKey
  deriving DecidableEq

namespace Keyring

def normalize (kr : Keyring) : Keyring :=
  let legacy := match kr.vaultKey with
    | some k => if kr.vaultKeys.isEmpty then [k] else kr.vaultKeys
    | none => kr.vaultKeys
  let shares := if !legacy.isEmpty && !kr.shares.any (·.id = nil) then
      kr.shares ++ [⟨nil, legacy⟩]
    else kr.shares
  { kr with shares, vaultKeys := [], vaultKey := none }

def share (kr : Keyring) (id : Uuid) : Option ShareKeys := kr.shares.find? (·.id = id)

/-- The newest key of a share, if this device holds it. -/
def currentFor (kr : Keyring) (id : Uuid) : Option Key :=
  (kr.share id).bind (·.keys.getLast?)

def hasShare (kr : Keyring) (id : Uuid) : Bool := (kr.share id).isSome

def shareEpoch (kr : Keyring) (id : Uuid) : Nat :=
  match kr.share id with
  | some s => s.keys.length - 1
  | none => 0

/-- The keys a device holds for a share. -/
def keysOf (kr : Keyring) (id : Uuid) : List Key :=
  match kr.share id with
  | some s => s.keys
  | none => []

def shareKeyList (kr : Keyring) (id : Uuid) : KeyBytes := { keys := kr.keysOf id }

/-- Changes the first share with this id, as `share_mut` finds it. -/
def modifyFirst (id : Uuid) (f : List Key → List Key) : List ShareKeys → List ShareKeys
  | [] => []
  | s :: rest => if s.id = id then { s with keys := f s.keys } :: rest else s :: modifyFirst id f rest

/-- Appends `key` as a share's next epoch, creating the share if absent. -/
def pushShareKey (kr : Keyring) (id : Uuid) (key : Key) : Keyring :=
  if kr.hasShare id then { kr with shares := modifyFirst id (· ++ [key]) kr.shares }
  else { kr with shares := kr.shares ++ [⟨id, [key]⟩] }

/-- Replaces a share's whole key-list, creating the share if absent. -/
def setShareKeys (kr : Keyring) (id : Uuid) (keys : List Key) : Keyring :=
  if kr.hasShare id then { kr with shares := modifyFirst id (fun _ => keys) kr.shares }
  else { kr with shares := kr.shares ++ [⟨id, keys⟩] }

def heldShareEpochs (kr : Keyring) : List (Uuid × Nat) := kr.shares.map fun s => (s.id, s.keys.length)

/-- Every key of the keyring, in the order in which entries are tried. -/
def allKeys (kr : Keyring) : List Key := kr.shares.flatMap fun s => s.keys.reverse

/-- Decrypts one log entry with the first key that opens it. -/
def openEntry (kr : Keyring) (entryId : Uuid) (blob : Bytes) : Except VaultError (Option Record) :=
  match kr.allKeys.findSome? fun k => (Crypto.openBlob k blob entryId).toOption with
  | none => .ok none
  | some (.record rec) => .ok (some rec)
  | some .garbage => .error (.corrupt "log entry")

end Keyring

def splitKeyList (list : KeyBytes) : Except VaultError (List Key) :=
  if (list.keys = [] ∧ list.rest = 0) ∨ list.rest ≠ 0 then .error (.corrupt "malformed vault key list")
  else .ok list.keys

/-- Equal length and subset. -/
def sameEpochSet (a b : List (Uuid × Nat)) : Bool := a.length = b.length && a.all (b.contains ·)

/-! ## Key-lists after each change -/

namespace Keyring

variable {kr : Keyring} {id i : Uuid}

theorem share_id {s : ShareKeys} (h : kr.share id = some s) : s.id = id := by
  simpa using List.find?_some h

theorem find_modifyFirst (f : List Key → List Key) (l : List ShareKeys) :
    (modifyFirst id f l).find? (·.id = i) =
      if i = id then (l.find? (·.id = i)).map fun s => { s with keys := f s.keys }
      else l.find? (·.id = i) := by
  induction l with
  | nil => simp [modifyFirst]
  | cons s l ih =>
    unfold modifyFirst
    by_cases hs : s.id = id
    · rw [if_pos hs]
      by_cases hi : i = id
      · simp [hi, hs]
      · have : s.id ≠ i := fun h => hi (h.symm.trans hs)
        simp [hi, this]
    · rw [if_neg hs]
      by_cases hsi : s.id = i
      · have : i ≠ id := fun h => hs (hsi.trans h)
        simp [hsi, this]
      · simpa [List.find?_cons, hsi] using ih

theorem share_upsert (f : List Key → List Key) (keys : List Key) :
    (if kr.hasShare id then { kr with shares := modifyFirst id f kr.shares }
      else { kr with shares := kr.shares ++ [⟨id, keys⟩] } : Keyring).share i =
      if i = id then some ⟨id, if kr.hasShare id then f (kr.keysOf id) else keys⟩ else kr.share i := by
  by_cases h : kr.hasShare id = true
  · rw [if_pos h, if_pos h, share, find_modifyFirst]
    by_cases hi : i = id
    · obtain ⟨s, hs⟩ := Option.isSome_iff_exists.mp h
      subst hi
      rw [if_pos rfl, if_pos rfl, ← share, keysOf, hs, Option.map_some, share_id hs]
    · rw [if_neg hi, if_neg hi, share]
  · rw [if_neg h, if_neg h]
    have hnone : kr.shares.find? (·.id = id) = none := by simpa [hasShare, share] using h
    simp only [share, List.find?_append]
    by_cases hi : i = id
    · subst hi; simp [hnone]
    · have : id ≠ i := fun h => hi h.symm
      simp [hi, this]

theorem share_setShareKeys (keys : List Key) :
    (kr.setShareKeys id keys).share i = if i = id then some ⟨id, keys⟩ else kr.share i := by
  unfold setShareKeys
  rw [share_upsert, ite_self]

theorem share_pushShareKey (key : Key) :
    (kr.pushShareKey id key).share i = if i = id then some ⟨id, kr.keysOf id ++ [key]⟩ else kr.share i := by
  unfold pushShareKey
  rw [share_upsert]
  by_cases h : kr.hasShare id = true
  · rw [if_pos h]
  · have hnone : kr.share id = none := by simpa [hasShare] using h
    simp [keysOf, hasShare, hnone]

@[simp] theorem keysOf_setShareKeys (keys : List Key) :
    (kr.setShareKeys id keys).keysOf i = if i = id then keys else kr.keysOf i := by
  rw [keysOf, share_setShareKeys]
  by_cases hi : i = id
  · simp [hi]
  · simp [hi, keysOf]

@[simp] theorem keysOf_pushShareKey (key : Key) :
    (kr.pushShareKey id key).keysOf i = if i = id then kr.keysOf id ++ [key] else kr.keysOf i := by
  rw [keysOf, share_pushShareKey]
  by_cases hi : i = id
  · simp [hi]
  · simp [hi, keysOf]

/-- The keyring's search over its keys finds the plaintext exactly when it holds the key. -/
theorem findSome_openBlob {l : List Key} {entryId : Uuid} {blob : Bytes} {p : Plain} :
    (l.findSome? fun k => (Crypto.openBlob k blob entryId).toOption) = some p ↔
      ∃ k ∈ l, blob = .sealed ⟨k, entryId, p⟩ := by
  have hopen : ∀ k q, (Crypto.openBlob k blob entryId).toOption = some q ↔ blob = .sealed ⟨k, entryId, q⟩ := by
    intro k q
    rw [← Crypto.openBlob_eq_ok]
    cases Crypto.openBlob k blob entryId <;> simp [Except.toOption]
  constructor
  · intro h
    obtain ⟨k, hk, hp⟩ := List.exists_of_findSome?_eq_some h
    exact ⟨k, hk, (hopen k p).mp hp⟩
  · rintro ⟨k, hk, hb⟩
    cases h : l.findSome? fun k => (Crypto.openBlob k blob entryId).toOption with
    | none =>
      have := List.findSome?_eq_none_iff.mp h k hk
      rw [(hopen k p).mpr hb] at this
      cases this
    | some q =>
      obtain ⟨k', -, hq⟩ := List.exists_of_findSome?_eq_some h
      have := hb.symm.trans ((hopen k' q).mp hq)
      simp_all

theorem openEntry_eq_some {entryId : Uuid} {blob : Bytes} {rec : Record} :
    kr.openEntry entryId blob = .ok (some rec) ↔
      ∃ k ∈ kr.allKeys, blob = .sealed ⟨k, entryId, .record rec⟩ := by
  rw [← findSome_openBlob]
  unfold openEntry
  split <;> rename_i h <;> rw [h] <;> simp

theorem mem_allKeys {k : Key} : k ∈ kr.allKeys ↔ ∃ s ∈ kr.shares, k ∈ s.keys := by
  simp [allKeys]

theorem keysOf_subset {k : Key} (h : k ∈ kr.keysOf id) : k ∈ kr.allKeys := by
  unfold keysOf at h
  cases hs : kr.share id with
  | none =>
    rw [hs] at h
    cases h
  | some s =>
    rw [hs] at h
    exact mem_allKeys.mpr ⟨s, List.mem_of_find?_eq_some hs, h⟩

theorem normalize_of_plain (h : kr.vaultKeys = []) (h' : kr.vaultKey = none) : kr.normalize = kr := by
  obtain ⟨shares, _, _, x, ed⟩ := kr
  subst h h'
  simp [normalize]

theorem currentFor_mem {k : Key} (h : kr.currentFor id = some k) : k ∈ kr.allKeys := by
  unfold currentFor at h
  obtain ⟨s, hs, hk⟩ := Option.bind_eq_some_iff.mp h
  exact mem_allKeys.mpr ⟨s, List.mem_of_find?_eq_some hs, List.mem_of_getLast? hk⟩

/-! ### All the keys of a changed keyring -/

variable {k : Key}

/-- The keys of a keyring, without the share that a change of `id` finds. -/
def others (kr : Keyring) (id : Uuid) : List Key := (kr.shares.eraseP (·.id = id)).flatMap (·.keys)

theorem keysOf_of_not_hasShare (h : ¬ kr.hasShare id = true) : kr.keysOf id = [] := by
  have hnone : kr.share id = none := by simpa [hasShare] using h
  rw [keysOf, hnone]

theorem others_of_not_hasShare (h : ¬ kr.hasShare id = true) : kr.others id = kr.shares.flatMap (·.keys) := by
  have hnone : kr.share id = none := by simpa [hasShare] using h
  unfold share at hnone
  rw [others, List.eraseP_of_forall_not (List.find?_eq_none.mp hnone)]

theorem mem_modifyFirst {f : List Key → List Key} {l : List ShareKeys} {s : ShareKeys}
    (hs : l.find? (·.id = id) = some s) :
    (∃ t ∈ modifyFirst id f l, k ∈ t.keys) ↔ k ∈ f s.keys ∨ ∃ t ∈ l.eraseP (·.id = id), k ∈ t.keys := by
  induction l with
  | nil => cases hs
  | cons t l ih =>
    unfold modifyFirst
    by_cases ht : t.id = id
    · have hts : t = s := by simpa [ht] using hs
      subst hts
      simp [ht]
    · have hrest : l.find? (·.id = id) = some s := by simpa [ht] using hs
      simp only [ht, if_false, List.mem_cons, exists_eq_or_imp, ih hrest, decide_false, Bool.false_eq_true,
        not_false_eq_true, List.eraseP_cons_of_neg]
      tauto

theorem modifyFirst_id (l : List ShareKeys) : modifyFirst id (fun keys => keys) l = l := by
  induction l with
  | nil => rfl
  | cons t l ih =>
    unfold modifyFirst
    split
    · rfl
    · rw [ih]

theorem mem_others : k ∈ kr.others id ↔ ∃ t ∈ kr.shares.eraseP (·.id = id), k ∈ t.keys := List.mem_flatMap

theorem mem_allKeys_iff (id : Uuid) : k ∈ kr.allKeys ↔ k ∈ kr.keysOf id ∨ k ∈ kr.others id := by
  by_cases h : kr.hasShare id = true
  · obtain ⟨s, hs⟩ := Option.isSome_iff_exists.mp h
    have hmem := mem_modifyFirst (k := k) (f := fun keys => keys) hs
    rw [modifyFirst_id] at hmem
    rw [mem_allKeys, hmem, mem_others, keysOf, hs]
  · rw [keysOf_of_not_hasShare h, others_of_not_hasShare h, mem_allKeys]
    simp

theorem mem_allKeys_setShareKeys (keys : List Key) :
    k ∈ (kr.setShareKeys id keys).allKeys ↔ k ∈ keys ∨ k ∈ kr.others id := by
  rw [mem_allKeys, setShareKeys]
  by_cases h : kr.hasShare id = true
  · obtain ⟨s, hs⟩ := Option.isSome_iff_exists.mp h
    rw [if_pos h, mem_others]
    exact mem_modifyFirst hs
  · rw [if_neg h, others_of_not_hasShare h]
    simp only [List.mem_append, List.mem_singleton, List.mem_flatMap, or_and_right, exists_or, exists_eq_left]
    exact or_comm

theorem mem_allKeys_pushShareKey (key : Key) :
    k ∈ (kr.pushShareKey id key).allKeys ↔ k = key ∨ k ∈ kr.allKeys := by
  have hall : k ∈ kr.allKeys ↔ _ := mem_allKeys_iff id
  rw [hall, mem_allKeys, pushShareKey]
  by_cases h : kr.hasShare id = true
  · obtain ⟨s, hs⟩ := Option.isSome_iff_exists.mp h
    rw [if_pos h, mem_others, keysOf, hs, mem_modifyFirst hs, List.mem_append, List.mem_singleton]
    tauto
  · rw [if_neg h, keysOf_of_not_hasShare h, others_of_not_hasShare h]
    simp only [List.mem_append, List.mem_singleton, List.mem_flatMap, or_and_right, exists_or, exists_eq_left,
      List.not_mem_nil, false_or]
    exact or_comm

end Keyring

end SshVault
