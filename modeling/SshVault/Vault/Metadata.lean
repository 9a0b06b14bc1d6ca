import SshVault.Vault.Clocks

/-!
# What `meta.json` keeps

A critical section writes the whole file from memory. It takes the greater of two counters from the file
first, and nothing else: a handle that has not seen a newer url writes the old one back, and one that has not
seen a reset of the cursor undoes it.
-/

open Lib

namespace SshVault.Vault

/-! ## What a critical section writes -/

/-- Whether the file is written. An entry that does not open is refused before. -/
def Section.Writes (v : Vault) : Section → Prop
  | .applyRemoteEntry f => ∃ o, v.keyring.openEntry f.1 f.2 = .ok o
  | _ => True

def Section.url (v : Vault) : Section → Option String
  | .setRelayUrl url => some url
  | _ => v.metadata.relayUrl

def Section.cursor (v : Vault) (d : Disk) : Section → Nat
  | .setSyncCursor cursor => max (max v.metadata.syncCursor d.metadata.syncCursor) cursor
  | .resetSyncCursor => 0
  | _ => max v.metadata.syncCursor d.metadata.syncCursor

/-- The sections that have no business with the cursor. -/
def Section.Bystander : Section → Prop
  | .nextClock | .applyRemoteEntry _ | .setRelayUrl _ => True
  | _ => False

/-- The file is as section `s` writes it. -/
structure Written (v : Vault) (d : Disk) (s : Section) (d' : Disk) : Prop where
  url : d'.metadata.relayUrl = s.url v
  cursor : d'.metadata.syncCursor = s.cursor v d

variable {v : Vault} {d : Disk}

/-- Wherever a section is stopped, the file is as it was or as the section writes it. -/
theorem section_written (s : Section) :
    (s.prog v).Always (fun d' => d'.metadata = d.metadata ∨ s.Writes v ∧ Written v d s d')
      (fun _ d' => (s.Writes v → Written v d s d') ∧ (¬ s.Writes v → d'.metadata = d.metadata)) d := by
  cases s with
  | nextClock => exact ⟨Or.inl rfl, Or.inl rfl, (fun _ => ⟨rfl, rfl⟩), fun h => absurd trivial h⟩
  | applyRemoteEntry f =>
    simp only [Section.prog, applyRemoteEntry]
    split
    · rename_i e he
      refine ⟨fun hopens => ?_, fun _ => rfl⟩
      obtain ⟨o, ho⟩ := hopens
      cases he.symm.trans ho
    · rename_i opened hopened
      have hwrites : Section.Writes v (.applyRemoteEntry f) := ⟨opened, hopened⟩
      cases opened with
      | none => exact ⟨Or.inl rfl, Or.inl rfl, Or.inl rfl, (fun _ => ⟨rfl, rfl⟩), fun h => absurd hwrites h⟩
      | some r =>
        refine ⟨Or.inl rfl, Or.inl rfl, Or.inl rfl, (fun _ => ?_), fun h => absurd hwrites h⟩
        constructor
        · dsimp only
          split <;> rfl
        · dsimp only
          split <;> rfl
  | setSyncCursor cursor => exact ⟨Or.inl rfl, Or.inl rfl, (fun _ => ⟨rfl, rfl⟩), fun h => absurd trivial h⟩
  | resetSyncCursor => exact ⟨Or.inl rfl, Or.inl rfl, (fun _ => ⟨rfl, rfl⟩), fun h => absurd trivial h⟩
  | setRelayUrl url => exact ⟨Or.inl rfl, Or.inl rfl, (fun _ => ⟨rfl, rfl⟩), fun h => absurd trivial h⟩

/-! ## Operations that only read it -/

def SameMeta (d d' : Disk) : Prop := d'.metadata = d.metadata

theorem Cached.sameMeta (d d' : Disk) (h : Cached d d') : SameMeta d d' := by
  obtain ⟨_, rfl⟩ := h
  rfl

theorem replayLog_sameMeta : v.replayLog.Each SameMeta := (replayLog_cached v).mono Cached.sameMeta

theorem open_sameMeta : (do return (← openVault).toOption : Prog Disk (Option Vault)).Each SameMeta :=
  open_cached.mono Cached.sameMeta

theorem prog_sameMeta {a : Action} (ha : a.OnKeys) : (a.prog v).Each SameMeta := by
  cases a with
  | rotate phrase =>
    simp only [Action.prog, rotate]
    split
    · trivial
    · exact fun d => ⟨rfl, trivial⟩
  | createShare id n => exact fun d => ⟨rfl, trivial⟩
  | rotateShare share n =>
    simp only [Action.prog, rotateShare]
    split
    · trivial
    · exact fun d => ⟨rfl, trivial⟩
  | absorbShareKey share list =>
    simp only [Action.prog, absorbShareKey]
    split
    · trivial
    · split
      · trivial
      · exact fun d => ⟨rfl, trivial⟩
  | reload =>
    simp only [Action.prog, reload]
    refine Prog.Each.bind (Prog.Each.bind (Prog.Each.atom fun _ => rfl) fun m => ?_) fun _ => trivial
    exact replayLog_sameMeta
  | reopen => exact open_sameMeta
  | _ => exact absurd ha id

namespace Directory

variable {ι : Type} [DecidableEq ι]

/-! ## Runs of handles -/

/-- Handle `i` runs section `s` on vault `v`. -/
def locked (i : ι) (v : Vault) (s : Section) (c : Directory ι) : Directory ι :=
  ⟨((s.prog v).run c.disk).2, Function.update c.handle i ⟨some ((s.prog v).run c.disk).1.2, none⟩⟩

/-- Handle `i` goes on: with a section, in which it may die, or with something else. -/
inductive Move (i : ι) (c : Directory ι) : Option Section → Directory ι → Prop
  | free {c' : Directory ι} (h : Step i c c') : Move i c none c'
  | locks {v : Vault} (s : Section) (h : c.handle i = ⟨some v, none⟩) : Move i c (some s) (locked i v s c)
  | dies : Move i c none ⟨c.disk, Function.update c.handle i .closed⟩
  | diesIn {v : Vault} (s : Section) (n : Nat) (h : c.handle i = ⟨some v, none⟩) :
    Move i c (some s) ⟨Prog.cutAt n (s.prog v) c.disk, Function.update c.handle i .closed⟩

/-- The turns of a run in order, every section from a state where `ok` allows it. -/
inductive MoveRun (ok : Directory ι → ι → Section → Prop) : Directory ι → List (ι × Option Section) → Directory ι → Prop
  | refl (c : Directory ι) : MoveRun ok c [] c
  | tail {c c' c'' : Directory ι} {turns : List (ι × Option Section)} {i : ι} {o : Option Section}
      (h : MoveRun ok c turns c') (hstep : Move i c' o c'') (hok : ∀ s, o = some s → ok c' i s) :
    MoveRun ok c (turns ++ [(i, o)]) c''

/-- Every handle is between two operations. -/
def Idle (c : Directory ι) : Prop := ∀ i, (c.handle i).task = none

/-- What was set is in the file until it is set again. -/
def UrlStays (ok : Directory ι → ι → Section → Prop) : Prop :=
  ∀ (c₀ c c' : Directory ι) (before after : List (ι × Option Section)) (i : ι) (v : Vault) (url : String), Idle c₀ →
    MoveRun ok c₀ before c → c.handle i = ⟨some v, none⟩ → MoveRun ok (locked i v (.setRelayUrl url) c) after c' →
    (∀ j url', (j, some (.setRelayUrl url')) ∉ after) → c'.disk.metadata.relayUrl = some url

/-- After a reset no other handle raises the cursor, except by setting it. -/
def CursorStays (ok : Directory ι → ι → Section → Prop) : Prop :=
  ∀ (c₀ c c' c'' : Directory ι) (before after : List (ι × Option Section)) (i j : ι) (v : Vault) (s : Section), Idle c₀ →
    MoveRun ok c₀ before c → c.handle i = ⟨some v, none⟩ → MoveRun ok (locked i v .resetSyncCursor c) after c' →
    j ≠ i → s.Bystander → ok c' j s → Move j c' (some s) c'' →
    c''.disk.metadata.syncCursor ≤ c'.disk.metadata.syncCursor

/-- Handle `i` is not behind the file in what it is about to write: its vault has the url of the file, and no
higher cursor. -/
def Fresh (c : Directory ι) (i : ι) (s : Section) : Prop :=
  ∀ v, c.handle i = ⟨some v, none⟩ → s.Writes v →
    ((∃ url, s = .setRelayUrl url) ∨ v.metadata.relayUrl = c.disk.metadata.relayUrl) ∧
      (s.Bystander → v.metadata.syncCursor ≤ c.disk.metadata.syncCursor)

/-! ## What a turn leaves -/

/-- The operations that the handles are in only read the file. -/
def Reading (c : Directory ι) : Prop := ∀ j a p, (c.handle j).task = some (a, p) → Prog.Each SameMeta p

variable {c c' c'' : Directory ι} {i : ι} {o : Option Section} {s : Section}

omit [DecidableEq ι] in
theorem Idle.reading (h : Idle c) : Reading c := by
  intro j a p hp
  rw [h j] at hp
  cases hp

theorem Reading.update (h : Reading c) {d : Disk} {h' : Handle}
    (h'' : ∀ a p, h'.task = some (a, p) → Prog.Each SameMeta p) : Reading ⟨d, Function.update c.handle i h'⟩ := by
  intro j a p hp
  by_cases hj : j = i
  · subst hj
    exact h'' a p (by simpa using hp)
  · exact h j a p (by simpa [hj] using hp)

theorem Step.sameMeta (h : Step i c c') (hc : Reading c) : Reading c' ∧ SameMeta c.disk c'.disk := by
  cases h with
  | opens h =>
    refine ⟨hc.update ?_, rfl⟩
    rintro _ _ ⟨rfl⟩
    exact open_sameMeta
  | starts h ha =>
    refine ⟨hc.update ?_, rfl⟩
    rintro _ _ ⟨rfl⟩
    exact prog_sameMeta ha
  | @acts mem a u k h =>
    have htask : Prog.Each SameMeta (.step u k) := hc i a _ (by rw [h])
    obtain ⟨hstep, hrest⟩ := htask c.disk
    refine ⟨hc.update ?_, hstep⟩
    rintro _ _ ⟨rfl⟩
    exact hrest
  | ends h => exact ⟨hc.update fun _ _ h => (nomatch h), rfl⟩

/-- **One turn.** The file stays, or is as a section writes it from the memory of the handle. -/
theorem Move.leaves (h : Move i c o c') (hc : Reading c) :
    Reading c' ∧ (SameMeta c.disk c'.disk ∨
      ∃ v s, o = some s ∧ c.handle i = ⟨some v, none⟩ ∧ s.Writes v ∧ Written v c.disk s c'.disk) := by
  cases h with
  | free h =>
    obtain ⟨hreading, hsame⟩ := h.sameMeta hc
    exact ⟨hreading, Or.inl hsame⟩
  | @locks v s h =>
    refine ⟨hc.update fun _ _ h => (nomatch h), ?_⟩
    obtain ⟨hwritten, hsame⟩ := (section_written (d := c.disk) (v := v) s).run
    by_cases hw : s.Writes v
    · exact Or.inr ⟨v, s, rfl, h, hw, hwritten hw⟩
    · exact Or.inl (hsame hw)
  | dies => exact ⟨hc.update fun _ _ h => (nomatch h), Or.inl rfl⟩
  | @diesIn v s n h =>
    refine ⟨hc.update fun _ _ h => (nomatch h), ?_⟩
    have hend : ∀ (r : Option Clock × Vault) (d' : Disk),
        (s.Writes v → Written v c.disk s d') ∧ (¬ s.Writes v → d'.metadata = c.disk.metadata) →
        d'.metadata = c.disk.metadata ∨ s.Writes v ∧ Written v c.disk s d' := by
      intro r d' ⟨hwritten, hsame⟩
      by_cases hw : s.Writes v
      · exact Or.inr ⟨hw, hwritten hw⟩
      · exact Or.inl (hsame hw)
    rcases (section_written (d := c.disk) (v := v) s).cutAt hend n with hsame | ⟨hw, hwritten⟩
    · exact Or.inl hsame
    · exact Or.inr ⟨v, s, rfl, h, hw, hwritten⟩

theorem Move.url (h : Move i c o c') (hc : Reading c) (hfresh : ∀ s, o = some s → Fresh c i s)
    (hset : ∀ url, o ≠ some (.setRelayUrl url)) : c'.disk.metadata.relayUrl = c.disk.metadata.relayUrl := by
  rcases (h.leaves hc).2 with hsame | ⟨v, s, rfl, hi, hw, hwritten⟩
  · exact congrArg Meta.relayUrl hsame
  · have hset : ∀ url, s ≠ .setRelayUrl url := fun url hs => hset url (congrArg some hs)
    obtain ⟨url, hs⟩ | hurl := (hfresh s rfl v hi hw).1
    · exact absurd hs (hset url)
    · rw [hwritten.url, ← hurl]
      cases s <;> first | rfl | exact absurd rfl (hset _)

theorem Move.cursor_le (h : Move i c (some s) c') (hc : Reading c) (hs : s.Bystander) (hfresh : Fresh c i s) :
    c'.disk.metadata.syncCursor ≤ c.disk.metadata.syncCursor := by
  rcases (h.leaves hc).2 with hsame | ⟨v, s', hs', hi, hw, hwritten⟩
  · exact (congrArg Meta.syncCursor hsame).le
  · obtain rfl := Option.some.inj hs'
    have hcursor := (hfresh v hi hw).2 hs
    have hmax : s.cursor v c.disk = max v.metadata.syncCursor c.disk.metadata.syncCursor := by
      cases s <;> first | rfl | exact absurd hs id
    rw [hwritten.cursor, hmax]
    exact max_le hcursor le_rfl

theorem MoveRun.reading {ok : Directory ι → ι → Section → Prop} {turns : List (ι × Option Section)}
    (h : MoveRun ok c turns c') (hc : Reading c) : Reading c' := by
  induction h with
  | refl => exact hc
  | tail _ hstep _ ih => exact (hstep.leaves ih).1

theorem MoveRun.url {turns : List (ι × Option Section)} (h : MoveRun Fresh c turns c') (hc : Reading c)
    (hset : ∀ j url, (j, some (.setRelayUrl url)) ∉ turns) : c'.disk.metadata.relayUrl = c.disk.metadata.relayUrl := by
  induction h with
  | refl => rfl
  | tail hrun hstep hok ih =>
    have hbefore := ih fun j url hmem => hset j url (List.mem_append_left _ hmem)
    refine (hstep.url (hrun.reading hc) hok fun url ho => ?_).trans hbefore
    exact hset _ url (List.mem_append_right _ (by rw [ho]; exact List.mem_singleton_self _))

theorem MoveRun.free {ok : Directory ι → ι → Section → Prop} (h : Run c c') :
    ∃ turns, MoveRun ok c turns c' ∧ ∀ x ∈ turns, x.2 = none := by
  induction h with
  | refl => exact ⟨[], .refl c, List.forall_mem_nil _⟩
  | tail _ hstep ih =>
    obtain ⟨turns, hturns, hfree⟩ := ih
    obtain ⟨i, hstep, -⟩ := hstep
    refine ⟨turns ++ [(i, none)], .tail hturns (.free hstep) nofun, ?_⟩
    exact List.forall_mem_append.mpr ⟨hfree, List.forall_mem_singleton.mpr rfl⟩

/-- **Settings stay.** In every run in which no handle is behind the file when it runs a section, a url that was
set stays until the next one is, and after a reset of the cursor nobody else raises it without setting it. -/
theorem settings_stay : UrlStays (ι := ι) Fresh ∧ CursorStays (ι := ι) Fresh := by
  constructor
  · intro c₀ c c' before after i v url hidle hbefore hi hafter hset
    have hturn : Move i c (some (.setRelayUrl url)) (locked i v (.setRelayUrl url) c) := .locks _ hi
    have hreading := hbefore.reading hidle.reading
    rw [hafter.url (hturn.leaves hreading).1 hset]
    rfl
  · intro c₀ c c' c'' before after i j v s hidle hbefore hi hafter hj hs hok hstep
    have hturn : Move i c (some .resetSyncCursor) (locked i v .resetSyncCursor c) := .locks _ hi
    have hreading := hafter.reading (hturn.leaves (hbefore.reading hidle.reading)).1
    exact hstep.cursor_le hreading hs hok

/-- A section keeps what others have set exactly when its handle is fresh. -/
theorem fresh_iff {v : Vault} (h : c.handle i = ⟨some v, none⟩) (hw : s.Writes v) :
    Fresh c i s ↔
      ((∃ url, s = .setRelayUrl url) ∨ (locked i v s c).disk.metadata.relayUrl = c.disk.metadata.relayUrl) ∧
        (s.Bystander → (locked i v s c).disk.metadata.syncCursor ≤ c.disk.metadata.syncCursor) := by
  have hwritten : Written v c.disk s (locked i v s c).disk := (section_written (d := c.disk) (v := v) s).run.1 hw
  have hfresh : Fresh c i s ↔ ((∃ url, s = .setRelayUrl url) ∨ v.metadata.relayUrl = c.disk.metadata.relayUrl) ∧
      (s.Bystander → v.metadata.syncCursor ≤ c.disk.metadata.syncCursor) := by
    constructor
    · exact fun hf => hf v h hw
    · intro hf v' h' _
      obtain ⟨hv, -⟩ := Handle.mk.inj (h.symm.trans h')
      obtain rfl := Option.some.inj hv
      exact hf
  rw [hfresh, hwritten.url, hwritten.cursor]
  cases s with
  | nextClock => simp [Section.url, Section.cursor]
  | applyRemoteEntry f => simp [Section.url, Section.cursor]
  | setSyncCursor cursor => simp [Section.url, Section.Bystander]
  | resetSyncCursor => simp [Section.url, Section.Bystander]
  | setRelayUrl url => simp [Section.cursor]

/-! ### Two handles -/

namespace TwoHandles

/-- What both handles have in memory. -/
def old : Vault := (createWithKeys "laptop" 7 (.vault 1 0) (.ed (.recovery 1)) 0 (.device 0) 0).2

def moved : Directory Bool := locked false old (.setRelayUrl "wss://new") twoHandles

/-- The other handle reloads. -/
def reloaded : Directory Bool := does true .reload moved

def reloadedVault : Vault := (reloaded.handle true).vault.get (by decide +kernel)

theorem settings_stay_moved :
    (locked true reloadedVault .nextClock reloaded).disk.metadata.relayUrl = some "wss://new" := by
  have hreloads : Run moved reloaded := run_does trivial rfl
  obtain ⟨turns, hturns, hfree⟩ := MoveRun.free hreloads
  refine settings_stay.1 twoHandles twoHandles _ [] (turns ++ [(true, some .nextClock)]) false old "wss://new" (fun _ => rfl)
    (.refl _) rfl (.tail hturns (.locks .nextClock rfl) ?_) ?_
  · rintro s ⟨⟩ v hv -
    obtain ⟨hv, -⟩ := Handle.mk.inj hv
    obtain rfl : reloadedVault = v := Option.some.inj hv
    exact ⟨Or.inr (by decide +kernel), fun _ => by decide +kernel⟩
  · intro j url hin
    rcases List.mem_append.mp hin with hin | hin
    · exact Option.some_ne_none _ (hfree _ hin)
    · cases List.mem_singleton.mp hin

/-- The other handle takes a clock: the old url is back, and so is the cursor it had before the reset. -/
theorem stale_handle_undoes : ¬ UrlStays (ι := Bool) (fun _ _ _ => True) ∧ ¬ CursorStays (ι := Bool) fun _ _ _ => True := by
  constructor
  · intro h
    have hurl := h twoHandles twoHandles (locked true old .nextClock moved) [] [(true, some .nextClock)] false old "wss://new"
      (fun _ => rfl) (.refl _) rfl (.tail (.refl moved) (.locks .nextClock rfl) fun _ _ => trivial) (by simp)
    exact absurd hurl (by decide)
  · intro h
    let ahead := locked true old (.setSyncCursor 5) twoHandles
    let reset := locked false old .resetSyncCursor ahead
    let aheadVault := (((Section.setSyncCursor 5).prog old).run twoHandles.disk).1.2
    have hle := h twoHandles ahead reset (locked true aheadVault .nextClock reset) [(true, some (.setSyncCursor 5))] [] false
      true old .nextClock (fun _ => rfl) (.tail (.refl _) (.locks _ rfl) fun _ _ => trivial) rfl (.refl _) (by decide)
      trivial trivial (.locks .nextClock rfl)
    exact absurd hle (by decide)

end TwoHandles

end Directory

end SshVault.Vault
