import SshVault.Record
import SshVault.Lib.Latest

/-!
# Field-level last-writer-wins merge (`src/merge.rs`)

Every component of a merged record is a `later`: fields by their clocks, the header by the
record clock, and kind, tombstone and time by their own value.
-/

open Lib

namespace SshVault

/-- One turn of the loop over the fields of `b`. -/
def mergeField (fields : FieldMap) (name : String) (fb : Field) : FieldMap :=
  match fields[name]? with
  | some fa => if fa.clock ≥ fb.clock then fields else fields.insert name fb
  | none => fields.insert name fb

/-- Merges two snapshots of the same record id. -/
def merge (a b : Record) : Record :=
  let (newer, older) := if a.clock ≥ b.clock then (a, b) else (b, a)
  { id := a.id
    kind := max a.kind b.kind
    fields := b.fields.foldl mergeField a.fields
    deletedAt := max a.deletedAt b.deletedAt
    clock := newer.clock
    deviceId := newer.deviceId
    modifiedAt := max newer.modifiedAt older.modifiedAt
    shareId := newer.shareId }

/-- Merged current state per record id, tombstones included. -/
abbrev State := Std.ExtTreeMap Uuid Record

/-- `state.entry(rec.id).and_modify(merge).or_insert(rec)`. -/
def mergeInto (state : State) (rec : Record) : State :=
  state.alter rec.id fun
    | some cur => some (merge cur rec)
    | none => some rec

def mergeAll (records : List Record) : State := records.foldl mergeInto ∅

/-- A live record is not deleted and not a bare tombstone. -/
def live (r : Record) : Bool := !r.isDeleted && r.kind ≠ .tombstone

/-! ## What a merge holds -/

theorem mergeField_get (fields : FieldMap) (name n : String) (fb : Field) :
    (mergeField fields name fb)[n]? =
      if name = n then later Field.clock fields[n]? (some fb) else fields[n]? := by
  unfold mergeField
  split
  · rename_i fa hfa
    by_cases hn : name = n
    · subst hn
      rw [hfa]
      simp only [later, if_true]
      split <;> simp [*]
    · split <;> simp [Std.ExtTreeMap.getElem?_insert, hn]
  · rename_i hfa
    by_cases hn : name = n
    · subst hn; simp [hfa]
    · simp [Std.ExtTreeMap.getElem?_insert, hn]

theorem foldl_mergeField_get (l : List (String × Field)) (hl : l.Pairwise fun p q => p.1 ≠ q.1)
    (fields : FieldMap) (n : String) (o : Option Field) (ho : ∀ f, (n, f) ∈ l ↔ o = some f) :
    (l.foldl (fun m p => mergeField m p.1 p.2) fields)[n]? = later Field.clock fields[n]? o := by
  induction l generalizing fields o with
  | nil =>
    obtain rfl : o = none := by
      cases o with
      | none => rfl
      | some f => simpa using ho f
    simp
  | cons p l ih =>
    rw [List.pairwise_cons] at hl
    rw [List.foldl_cons]
    by_cases hp : p.1 = n
    · -- `n` is the name at hand, and it does not come again.
      have hnot : ∀ f, (n, f) ∉ l := fun f hf => hl.1 _ hf hp
      have ho' : o = some p.2 := (ho p.2).mp (by simp [← hp])
      rw [ih hl.2 _ none (fun f => by simp [hnot f]), mergeField_get, if_pos hp, ho']
      simp
    · have ho' : ∀ f, (n, f) ∈ l ↔ o = some f := by
        intro f
        rw [← ho f, List.mem_cons, or_iff_right]
        rintro rfl
        exact hp rfl
      rw [ih hl.2 _ o ho', mergeField_get, if_neg hp]

theorem merge_fields_get (a b : Record) (n : String) :
    (merge a b).fields[n]? = later Field.clock a.fields[n]? b.fields[n]? := by
  have hfold : (merge a b).fields = b.fields.foldl mergeField a.fields := by
    unfold merge; split; rfl
  rw [hfold, Std.ExtTreeMap.foldl_eq_foldl_toList]
  apply foldl_mergeField_get
  · exact Std.ExtTreeMap.distinct_keys_toList.imp fun h e => h (by simp [e])
  · intro f
    exact Std.ExtTreeMap.mem_toList_iff_getElem?_eq_some

/-- The part of a record that goes with its clock. -/
def Record.header (r : Record) : Clock × Uuid × Uuid := (r.clock, r.deviceId, r.shareId)

theorem merge_header (a b : Record) :
    some (merge a b).header = later Prod.fst (some a.header) (some b.header) := by
  by_cases h : b.clock ≤ a.clock <;> simp [merge, later, Record.header, h]

theorem merge_kind (a b : Record) : (merge a b).kind = max a.kind b.kind := by
  unfold merge; split; rfl

theorem merge_deletedAt (a b : Record) : (merge a b).deletedAt = max a.deletedAt b.deletedAt := by
  unfold merge; split; rfl

theorem merge_modifiedAt (a b : Record) :
    (merge a b).modifiedAt = max a.modifiedAt b.modifiedAt := by
  by_cases h : b.clock ≤ a.clock <;> simp [merge, h, max_comm]

@[simp] theorem merge_id (a b : Record) : (merge a b).id = a.id := by
  unfold merge; split; rfl

theorem later_id_some {α : Type} [LinearOrder α] (a b : α) :
    later id (some a) (some b) = some (max a b) := by
  by_cases h : b ≤ a
  · simp [later, h]
  · simp [later, h, (not_le.mp h).le]

theorem later_id_option {α : Type} [LinearOrder α] (a b : Option α) : later id a b = max a b := by
  cases a <;> cases b <;> first | rfl | exact later_id_some _ _

/-! ## The state, one record at a time -/

/-- What `mergeInto` does to the entry of the record's id. -/
def addSnapshot : Option Record → Record → Option Record
  | some cur, rec => some (merge cur rec)
  | none, rec => some rec

theorem mergeInto_get (state : State) (rec : Record) (id : Uuid) :
    (mergeInto state rec)[id]? =
      if rec.id = id then addSnapshot state[id]? rec else state[id]? := by
  unfold mergeInto
  rw [Std.ExtTreeMap.getElem?_alter]
  by_cases h : rec.id = id
  · subst h
    simp only [Std.compare_self, if_true]
    cases state[rec.id]? <;> rfl
  · simp [h]

theorem mergeInto_get_of {state : State} {rec rec' : Record} (h : addSnapshot state[rec.id]? rec = some rec') (id : Uuid) :
    (mergeInto state rec)[id]? = if rec.id = id then some rec' else state[id]? := by
  rw [mergeInto_get]
  split
  · rename_i hid
    rw [← hid, h]
  · rfl

theorem foldl_mergeInto_get (l : List Record) (state : State) (id : Uuid) :
    (l.foldl mergeInto state)[id]? = (l.filter (·.id = id)).foldl addSnapshot state[id]? := by
  induction l generalizing state with
  | nil => rfl
  | cons r l ih =>
    rw [List.foldl_cons, ih, mergeInto_get]
    by_cases h : r.id = id <;> simp [h]

theorem mergeAll_get (l : List Record) (id : Uuid) :
    (mergeAll l)[id]? = (l.filter (·.id = id)).foldl addSnapshot none := by
  rw [mergeAll, foldl_mergeInto_get]; simp

/-- A component of a record that merging combines by `later`. -/
structure View (β κ : Type) [LinearOrder κ] where
  get : Record → Option β
  key : β → κ
  merge_get : ∀ a b, get (merge a b) = later key (get a) (get b)

namespace View

def field (n : String) : View Field Clock := ⟨fun r => r.fields[n]?, Field.clock, fun a b => merge_fields_get a b n⟩
def header : View (Clock × Uuid × Uuid) Clock := ⟨fun r => some r.header, Prod.fst, merge_header⟩
def kind : View Kind Kind :=
  ⟨fun r => some r.kind, id, fun a b => by rw [later_id_some, merge_kind]⟩
def deletedAt : View Clock Clock :=
  ⟨Record.deletedAt, id, fun a b => by rw [later_id_option, merge_deletedAt]⟩
def modifiedAt : View Nat Nat :=
  ⟨fun r => some r.modifiedAt, id, fun a b => by rw [later_id_some, merge_modifiedAt]⟩

variable {β κ : Type} [LinearOrder κ]

theorem foldl_get (V : View β κ) (l : List Record) (o : Option Record) :
    (l.foldl addSnapshot o).bind V.get = (l.map V.get).foldl (later V.key) (o.bind V.get) := by
  induction l generalizing o with
  | nil => rfl
  | cons r l ih =>
    rw [List.foldl_cons, ih, List.map_cons, List.foldl_cons]
    cases o with
    | none => rfl
    | some cur => simp [addSnapshot, V.merge_get]

theorem latest_get (V : View β κ) (l : List Record) :
    (l.foldl addSnapshot none).bind V.get = latest V.key (l.map V.get) := V.foldl_get l none

end View

theorem foldl_addSnapshot_some (l : List Record) (r : Record) :
    ∃ r', l.foldl addSnapshot (some r) = some r' ∧ r'.id = r.id := by
  induction l generalizing r with
  | nil => exact ⟨r, rfl, rfl⟩
  | cons s l ih =>
    obtain ⟨r', h, hid⟩ := ih (merge r s)
    exact ⟨r', h, hid.trans (merge_id r s)⟩

theorem foldl_addSnapshot_eq_none (l : List Record) : l.foldl addSnapshot none = none ↔ l = [] := by
  cases l with
  | nil => simp
  | cons r l =>
    obtain ⟨r', h, _⟩ := foldl_addSnapshot_some l r
    simp [addSnapshot, h]

theorem Record.ext_views {a b : Record} (hid : a.id = b.id) (hkind : a.kind = b.kind)
    (hfields : ∀ n : String, a.fields[n]? = b.fields[n]?) (hdel : a.deletedAt = b.deletedAt)
    (hhead : a.header = b.header) (hmod : a.modifiedAt = b.modifiedAt) : a = b := by
  have hf : a.fields = b.fields := Std.ExtTreeMap.ext_getElem? hfields
  simp only [Record.header, Prod.mk.injEq] at hhead
  cases a; cases b
  simp_all

/-! ## What all records of a state satisfy -/

/-- Every record satisfies `Q` under the id it stands for. -/
def State.All (Q : Uuid → Record → Prop) (state : State) : Prop := ∀ (i : Uuid) (r : Record), state[i]? = some r → Q i r

section

variable {Q : Uuid → Record → Prop} {state : State}

theorem State.All.empty : State.All Q ∅ := by
  intro i r hr
  simp at hr

theorem State.All.mergeInto (hmerge : ∀ i a b, Q i a → Q i b → Q i (merge a b)) (h : State.All Q state) {rec : Record}
    (hrec : Q rec.id rec) : State.All Q (mergeInto state rec) := by
  intro i r hr
  rw [mergeInto_get] at hr
  split at hr
  · rename_i hid
    subst hid
    cases hs : state[rec.id]? with
    | none =>
      obtain rfl : rec = r := by simpa [hs, addSnapshot] using hr
      exact hrec
    | some cur =>
      obtain rfl : merge cur rec = r := by simpa [hs, addSnapshot] using hr
      exact hmerge _ _ _ (h _ cur hs) hrec
  · exact h i r hr

theorem State.All.foldl (hmerge : ∀ i a b, Q i a → Q i b → Q i (merge a b)) (h : State.All Q state) {records : List Record}
    (hrecords : ∀ r ∈ records, Q r.id r) : State.All Q (records.foldl SshVault.mergeInto state) := by
  induction records generalizing state with
  | nil => exact h
  | cons r records ih =>
    obtain ⟨hr, hrest⟩ := List.forall_mem_cons.mp hrecords
    exact ih (h.mergeInto hmerge hr) hrest

theorem State.All.insertAll (h : State.All Q state) {records : List Record} (hrecords : ∀ r ∈ records, Q r.id r) :
    State.All Q (records.foldl (fun m r => m.insert r.id r) state) := by
  induction records generalizing state with
  | nil => exact h
  | cons rec records ih =>
    obtain ⟨hrec, hrest⟩ := List.forall_mem_cons.mp hrecords
    refine ih ?_ hrest
    intro i r hr
    rw [Std.ExtTreeMap.getElem?_insert] at hr
    split at hr
    · rename_i hid
      obtain rfl := Option.some.inj hr
      obtain rfl : rec.id = i := Std.LawfulEqCmp.eq_of_compare hid
      exact hrec
    · exact h i r hr

theorem State.All.records (h : State.All Q state) : ∀ r ∈ state.toList.map (·.2), ∃ i, Q i r := by
  intro r hr
  obtain ⟨⟨i, r'⟩, hir, rfl⟩ := List.mem_map.mp hr
  exact ⟨i, h i r' (Std.ExtTreeMap.mem_toList_iff_getElem?_eq_some.mp hir)⟩

end

/-! ## Where a merged component comes from -/

namespace View

variable {β κ : Type} [LinearOrder κ] {V : View β κ} {x : β} {i : Uuid} {r : Record}

theorem mergeInto_origin {state : State} {rec : Record} (h : (mergeInto state rec)[i]? = some r)
    (hx : V.get r = some x) :
    (rec.id = i ∧ V.get rec = some x) ∨ ∃ r₀, state[i]? = some r₀ ∧ V.get r₀ = some x := by
  rw [mergeInto_get] at h
  split at h
  · cases hs : state[i]? with
    | none =>
      obtain rfl : rec = r := by simpa [hs, addSnapshot] using h
      exact Or.inl ⟨‹_›, hx⟩
    | some cur =>
      obtain rfl : merge cur rec = r := by simpa [hs, addSnapshot] using h
      rw [V.merge_get] at hx
      rcases (later_eq_some hx).1 with hcur | hrec
      · exact Or.inr ⟨cur, rfl, hcur⟩
      · exact Or.inl ⟨‹_›, hrec⟩
  · exact Or.inr ⟨r, h, hx⟩

theorem foldl_origin {l : List Record} {state : State} (h : (l.foldl mergeInto state)[i]? = some r)
    (hx : V.get r = some x) :
    (∃ rec ∈ l, rec.id = i ∧ V.get rec = some x) ∨ ∃ r₀, state[i]? = some r₀ ∧ V.get r₀ = some x := by
  induction l generalizing state with
  | nil => exact Or.inr ⟨r, h, hx⟩
  | cons rec l ih =>
    rcases ih h with ⟨rec', hmem, hrec'⟩ | ⟨r₀, hr₀, hx₀⟩
    · exact Or.inl ⟨rec', List.mem_cons_of_mem _ hmem, hrec'⟩
    · rcases mergeInto_origin hr₀ hx₀ with hrec | hstate
      · exact Or.inl ⟨rec, List.mem_cons_self, hrec⟩
      · exact Or.inr hstate

theorem mergeAll_origin {l : List Record} (h : (mergeAll l)[i]? = some r) (hx : V.get r = some x) :
    ∃ rec ∈ l, rec.id = i ∧ V.get rec = some x := by
  rcases foldl_origin h hx with hrec | ⟨r₀, hr₀, -⟩
  · exact hrec
  · simp at hr₀

theorem mergeAll_latest {l : List Record} {r₀ : Record} {x₀ : β} (h : (mergeAll l)[i]? = some r) (hr₀ : r₀ ∈ l)
    (hid₀ : r₀.id = i) (hx₀ : V.get r₀ = some x₀) :
    ∃ x, V.get r = some x ∧ (∃ rec ∈ l, rec.id = i ∧ V.get rec = some x) ∧
      ∀ rec ∈ l, rec.id = i → ∀ y, V.get rec = some y → V.key y ≤ V.key x := by
  have hfold : V.get r = latest V.key ((l.filter (·.id = i)).map V.get) := by
    have := V.latest_get (l.filter (·.id = i))
    rwa [← mergeAll_get, h, Option.bind_some] at this
  have hin : ∀ rec ∈ l, rec.id = i → ∀ y, V.get rec = some y → some y ∈ (l.filter (·.id = i)).map V.get := by
    intro rec hrec hid y hy
    exact List.mem_map.mpr ⟨rec, List.mem_filter.mpr ⟨hrec, by simpa using hid⟩, hy⟩
  cases hx : V.get r with
  | none =>
    rw [hx] at hfold
    exact absurd (hin r₀ hr₀ hid₀ x₀ hx₀) (latest_eq_none.mp hfold.symm x₀)
  | some x =>
    rw [hx] at hfold
    obtain ⟨hmem, hmax⟩ := latest_eq_some hfold.symm
    obtain ⟨rec, hrec, hrecx⟩ := List.mem_map.mp hmem
    obtain ⟨hrec, hid⟩ := List.mem_filter.mp hrec
    exact ⟨x, rfl, ⟨rec, hrec, by simpa using hid, hrecx⟩, fun rec hrec hid y hy => hmax y (hin rec hrec hid y hy)⟩

end View

/-! ## Convergence of the fold -/

/-- One field clock never carries two values, and one record clock never two headers. -/
structure CoherentRecords (S : Set Record) : Prop where
  field : ∀ r ∈ S, ∀ r' ∈ S, r.id = r'.id → ∀ (n : String) (f f' : Field),
    r.fields[n]? = some f → r'.fields[n]? = some f' → f.clock = f'.clock → f = f'
  header : ∀ r ∈ S, ∀ r' ∈ S, r.id = r'.id → r.clock = r'.clock → r.header = r'.header

theorem CoherentRecords.mono {S T : Set Record} (h : CoherentRecords T) (hST : S ⊆ T) :
    CoherentRecords S where
  field r hr r' hr' := h.field r (hST hr) r' (hST hr')
  header r hr r' hr' := h.header r (hST hr) r' (hST hr')

theorem CoherentRecords.insert {S : Set Record} {r : Record} (h : CoherentRecords S)
    (hfield : ∀ r' ∈ S, r.id = r'.id → ∀ (n : String) (f f' : Field),
      r.fields[n]? = some f → r'.fields[n]? = some f' → f.clock = f'.clock → f = f')
    (hheader : ∀ r' ∈ S, r.id = r'.id → r.clock = r'.clock → r.header = r'.header) :
    CoherentRecords (insert r S) where
  field := by
    rintro a (rfl | ha) b (rfl | hb) hid n f f' hf hf' hc
    · rw [hf] at hf'
      exact Option.some.inj hf'
    · exact hfield b hb hid n f f' hf hf' hc
    · exact (hfield a ha hid.symm n f' f hf' hf hc.symm).symm
    · exact h.field a ha b hb hid n f f' hf hf' hc
  header := by
    rintro a (rfl | ha) b (rfl | hb) hid hc
    · rfl
    · exact hheader b hb hid hc
    · exact (hheader a ha hid.symm hc.symm).symm
    · exact h.header a ha b hb hid hc

theorem fold_id {l : List Record} {id : Uuid} (hl : ∀ r ∈ l, r.id = id) {r : Record}
    (h : l.foldl addSnapshot none = some r) : r.id = id := by
  cases l with
  | nil => simp at h
  | cons s l =>
    obtain ⟨r', h', hid⟩ := foldl_addSnapshot_some l s
    rw [List.foldl_cons, addSnapshot, h'] at h
    obtain rfl := Option.some.inj h
    rw [hid]
    exact hl s List.mem_cons_self

theorem mergeAll_id {l : List Record} {i : Uuid} {r : Record} (h : (mergeAll l)[i]? = some r) : r.id = i := by
  rw [mergeAll_get] at h
  exact fold_id (by simp) h

/-- **Convergence.** On coherent records the fold depends only on which records were merged. -/
theorem mergeAll_congr {l l' : List Record} (hmem : ∀ r, r ∈ l ↔ r ∈ l')
    (hco : CoherentRecords {r | r ∈ l}) : mergeAll l = mergeAll l' := by
  apply Std.ExtTreeMap.ext_getElem?
  intro i
  rw [mergeAll_get, mergeAll_get]
  have hmem' : ∀ r, r ∈ l.filter (·.id = i) ↔ r ∈ l'.filter (·.id = i) := by
    intro r; simp [hmem r]
  -- View by view: the newest value depends only on which values there are.
  have hview : ∀ {β κ : Type} [LinearOrder κ] (V : View β κ),
      Coherent V.key {x | some x ∈ (l.filter (·.id = i)).map V.get} →
      ((l.filter (·.id = i)).foldl addSnapshot none).bind V.get =
        ((l'.filter (·.id = i)).foldl addSnapshot none).bind V.get := by
    intro β κ _ V hV
    rw [V.latest_get, V.latest_get]
    apply latest_congr _ hV
    intro x
    simp only [List.mem_map, hmem']
  have hself : ∀ {β : Type} [LinearOrder β] (S : Set β), Coherent id S := fun S x _ y _ h => h
  cases h : (l.filter (·.id = i)).foldl addSnapshot none with
  | none =>
    rw [foldl_addSnapshot_eq_none, List.eq_nil_iff_forall_not_mem] at h
    exact ((foldl_addSnapshot_eq_none _).mpr
      (List.eq_nil_iff_forall_not_mem.mpr fun r hr => h r ((hmem' r).mpr hr))).symm
  | some r =>
    cases h' : (l'.filter (·.id = i)).foldl addSnapshot none with
    | none =>
      rw [foldl_addSnapshot_eq_none, List.eq_nil_iff_forall_not_mem] at h'
      rw [(foldl_addSnapshot_eq_none _).mpr
        (List.eq_nil_iff_forall_not_mem.mpr fun r hr => h' r ((hmem' r).mp hr))] at h
      cases h
    | some r' =>
      rw [h, h'] at hview
      have hid : r.id = i := fold_id (by simp) h
      have hid' : r'.id = i := fold_id (by simp) h'
      congr 1
      apply Record.ext_views (hid.trans hid'.symm)
      · simpa [View.kind] using hview View.kind (hself _)
      · intro n
        apply hview (View.field n)
        rintro x hx y hy hxy
        simp only [View.field, Set.mem_ofPred_eq, List.mem_map, List.mem_filter, decide_eq_true_eq] at hx hy
        obtain ⟨a, ⟨ha, hai⟩, hax⟩ := hx
        obtain ⟨b, ⟨hb, hbi⟩, hbx⟩ := hy
        exact hco.field a ha b hb (hai.trans hbi.symm) n x y hax hbx hxy
      · simpa [View.deletedAt] using hview View.deletedAt (hself _)
      · suffices hs : some r.header = some r'.header from Option.some.inj hs
        apply hview View.header
        rintro x hx y hy hxy
        simp only [View.header, Set.mem_ofPred_eq, List.mem_map, List.mem_filter, decide_eq_true_eq,
          Option.some.injEq] at hx hy
        obtain ⟨a, ⟨ha, hai⟩, rfl⟩ := hx
        obtain ⟨b, ⟨hb, hbi⟩, rfl⟩ := hy
        exact hco.header a ha b hb (hai.trans hbi.symm) hxy
      · simpa [View.modifiedAt] using hview View.modifiedAt (hself _)

end SshVault
