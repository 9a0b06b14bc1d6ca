import SshVault.Vault.Handles

/-!
# The shares that a push names

A process that pushes reads the whole log, and finds the share of an entry by opening it with the keys it has
in memory. Any number of processes work on the directory meanwhile.
-/

open Lib

namespace SshVault

/-- The share that `raw_entries_tagged` names for a frame. -/
def Keyring.tag (kr : Keyring) (f : Frame) : Uuid := ((kr.opened f).map (·.shareId)).getD nil

/-- The frame holds this record, sealed under a key. -/
def Holds (f : Frame) (k : Key) (r : Record) : Prop := f.2 = Crypto.sealBlob k (.record r) f.1

namespace Keyring

variable {kr : Keyring} {f : Frame} {k : Key} {r : Record}

theorem tag_of_mem (h : Holds f k r) (hk : k ∈ kr.allKeys) : kr.tag f = r.shareId := by
  unfold tag
  rw [opened_eq_some.mpr ⟨k, hk, h⟩]
  rfl

theorem tag_of_not_mem (h : Holds f k r) (hk : k ∉ kr.allKeys) : kr.tag f = nil := by
  have hnone : kr.opened f = none := by
    refine Option.eq_none_iff_forall_ne_some.mpr fun r' hr' => ?_
    obtain ⟨k', hk', hblob⟩ := opened_eq_some.mp hr'
    have hsame : k = k' := congrArg Sealed.key (Bytes.sealed.inj (h.symm.trans hblob))
    exact hk (hsame ▸ hk')
  unfold tag
  rw [hnone]
  rfl

/-- A frame gets the share of its record, if it opens, or if that is the nil share. -/
theorem tag_eq_iff (h : Holds f k r) : kr.tag f = r.shareId ↔ k ∈ kr.allKeys ∨ r.shareId = nil := by
  by_cases hk : k ∈ kr.allKeys
  · simp only [tag_of_mem h hk, hk, true_or]
  · simp only [tag_of_not_mem h hk, hk, false_or, eq_comm]

end Keyring

namespace Vault

theorem mapM_tagged {kr : Keyring} {log : List Frame} {entries : List (Uuid × Bytes × Uuid)}
    (h : (log.mapM fun f : Frame => do
      let opened ← kr.openEntry f.1 f.2
      return (f.1, f.2, (opened.map Record.shareId).getD nil)) = .ok entries) :
    entries = log.map fun f => (f.1, f.2, kr.tag f) := by
  induction log generalizing entries with
  | nil => exact (Except.ok.inj h).symm
  | cons f log ih =>
    rw [List.mapM_cons] at h
    cases ho : kr.openEntry f.1 f.2 with
    | error e =>
      rw [ho] at h
      cases h
    | ok o =>
      have htag : (o.map (·.shareId)).getD nil = kr.tag f := by
        unfold Keyring.tag Keyring.opened
        rw [ho]
      rw [ho] at h
      cases hrest : log.mapM (fun f : Frame => do
          let opened ← kr.openEntry f.1 f.2
          return (f.1, f.2, (opened.map Record.shareId).getD nil)) with
      | error e =>
        rw [hrest] at h
        cases h
      | ok rest =>
        rw [hrest] at h
        rw [List.map_cons, ← ih hrest, ← htag]
        exact (Except.ok.inj h).symm

theorem tagged_eq {v : Vault} {d : Disk} {entries : List (Uuid × Bytes × Uuid)}
    (h : (v.rawEntriesTagged.run d).1 = .ok entries) : entries = d.log.map fun f => (f.1, f.2, v.keyring.tag f) :=
  mapM_tagged h

namespace Directory

variable {ι : Type} [DecidableEq ι]

/-- One push request: the keys its process had in memory, the log as it was, and what was sent. -/
structure Sent where
  keyring : Keyring
  log : List Frame
  entries : List (Uuid × Bytes × Uuid)

/-- Handle `i` goes on, and what it pushes. -/
inductive Turn (i : ι) (c : Directory ι) : List Sent → Directory ι → Prop
  | free {c' : Directory ι} (h : Step i c c') : Turn i c [] c'
  | starts {v : Vault} (a : Action) (h : c.handle i = ⟨some v, none⟩) :
    Turn i c [] ⟨c.disk, Function.update c.handle i ⟨some v, some (a, a.prog v)⟩⟩
  | dies : Turn i c [] ⟨c.disk, Function.update c.handle i .closed⟩
  | pushes {v : Vault} {entries : List (Uuid × Bytes × Uuid)} (h : c.handle i = ⟨some v, none⟩)
      (hread : (v.rawEntriesTagged.run c.disk).1 = .ok entries) :
    Turn i c [⟨v.keyring, c.disk.log, entries⟩] c

/-- Handles take any number of steps, and send these requests. -/
inductive PushRun : Directory ι → List Sent → Directory ι → Prop
  | refl (c : Directory ι) : PushRun c [] c
  | tail {c c' c'' : Directory ι} {i : ι} {sent out : List Sent} (h : PushRun c sent c') (hturn : Turn i c' out c'') :
    PushRun c (sent ++ out) c''

/-- Every entry for a record names the record's share. -/
def Sent.Right (s : Sent) : Prop :=
  ∀ e ∈ s.entries, ∀ k r, Holds (e.1, e.2.1) k r → e.2.2 = r.shareId

/-- The process has the key of every entry of the log whose record is in a named share. -/
def Sent.Covers (s : Sent) : Prop :=
  ∀ f ∈ s.log, ∀ k r, Holds f k r → k ∈ s.keyring.allKeys ∨ r.shareId = nil

variable {c c' : Directory ι} {i : ι} {sent : List Sent}

theorem Turn.tagged (h : Turn i c sent c') :
    ∀ s ∈ sent, s.entries = s.log.map fun f => (f.1, f.2, s.keyring.tag f) := by
  cases h with
  | free | starts | dies => exact fun _ hs => nomatch hs
  | pushes h hread =>
    intro s hs
    obtain rfl := List.mem_singleton.mp hs
    exact tagged_eq hread

theorem PushRun.tagged (h : PushRun c sent c') :
    ∀ s ∈ sent, s.entries = s.log.map fun f => (f.1, f.2, s.keyring.tag f) := by
  induction h with
  | refl => exact fun _ hs => nomatch hs
  | tail _ hturn ih =>
    intro s hs
    rcases List.mem_append.mp hs with hs | hs
    · exact ih s hs
    · exact hturn.tagged s hs

theorem Sent.right_iff {s : Sent} (h : s.entries = s.log.map fun f => (f.1, f.2, s.keyring.tag f)) :
    s.Right ↔ s.Covers := by
  unfold Sent.Right Sent.Covers
  rw [h]
  constructor
  · intro hright f hf k r hholds
    exact (Keyring.tag_eq_iff hholds).mp (hright _ (List.mem_map_of_mem hf) k r hholds)
  · intro hcovers e he k r hholds
    obtain ⟨f, hf, rfl⟩ := List.mem_map.mp he
    exact (Keyring.tag_eq_iff hholds).mpr (hcovers f hf k r hholds)

/-- **Pushed entries carry their record's share**, in a run, exactly if every process that pushes has in memory
the keys of the entries of named shares that are in the log by then. -/
theorem pushes_right_iff (h : PushRun c sent c') : (∀ s ∈ sent, s.Right) ↔ ∀ s ∈ sent, s.Covers := by
  have heq : ∀ s ∈ sent, (s.Right ↔ s.Covers) := fun s hs => Sent.right_iff (h.tagged s hs)
  exact ⟨fun hright s hs => (heq s hs).mp (hright s hs), fun hcovers s hs => (heq s hs).mpr (hcovers s hs)⟩

/-! ## A daemon and a command -/

theorem PushRun.append {c'' : Directory ι} {sent' : List Sent} (h : PushRun c sent c') (h' : PushRun c' sent' c'') :
    PushRun c (sent ++ sent') c'' := by
  induction h' with
  | refl => rwa [List.append_nil]
  | tail _ hturn ih =>
    rw [← List.append_assoc]
    exact ih.tail hturn

theorem Run.pushRun (h : Run c c') : PushRun c [] c' := by
  induction h with
  | refl => exact .refl _
  | tail _ hstep ih =>
    obtain ⟨i, hstep, -⟩ := hstep
    exact ih.tail (.free hstep)

theorem pushRun_does (a : Action) (h : (c.handle i).task = none) : PushRun c [] (does i a c) := by
  unfold does
  split
  · rename_i v hv
    have hidle : c.handle i = ⟨some v, none⟩ := by
      rw [← hv, ← h]
    have hrun : Run _ _ := runWith_task (fun _ _ => True) (S := fun _ => True) (i := i)
      (c := ⟨c.disk, Function.update c.handle i ⟨some v, some (a, a.prog v)⟩⟩) (fun _ _ _ _ => trivial)
      (fun _ _ _ _ _ _ => trivial) trivial (Function.update_self ..)
    rw [Function.update_idem] at hrun
    exact ((PushRun.refl c).tail (.starts a hidle)).append hrun.pushRun
  · exact .refl _

/-- A host in share 5. -/
def addHost : Action :=
  .write (.addIn ⟨id, .refl⟩ .host "alias" "web" ((∅ : Payload).insert "alias" (.str (.plain "web"))) 5 20 30 0)

/-- The daemon `true` has the vault open. A command opens it, creates a share and adds a host to it, and the
daemon reads the log again. -/
def hostAdded : Directory Bool :=
  does true .reload (does false addHost (does false (.createShare 5 0) (opened false (opened true laptopDir))))

theorem hostAdded_run : PushRun laptopDir [] hostAdded :=
  have hboth : Run laptopDir (opened false (opened true laptopDir)) :=
    (CarefulRun.run (carefulRun_opened (i := true) rfl)).trans (CarefulRun.run (carefulRun_opened (i := false) rfl))
  ((hboth.pushRun.append (pushRun_does (.createShare 5 0) rfl)).append (pushRun_does addHost rfl)).append
    (pushRun_does .reload rfl)

/-- What a handle would push now. -/
def toPush (c : Directory Bool) (i : Bool) : Option Sent := do
  let v ← (c.handle i).vault
  let entries ← (v.rawEntriesTagged.run c.disk).1.toOption
  return ⟨v.keyring, c.disk.log, entries⟩

theorem pushRun_toPush {c : Directory Bool} {i : Bool} {s : Sent} (htask : (c.handle i).task = none)
    (h : toPush c i = some s) : PushRun c [s] c := by
  unfold toPush at h
  obtain ⟨v, hv, h⟩ := Option.bind_eq_some_iff.mp h
  obtain ⟨entries, hentries, h⟩ := Option.bind_eq_some_iff.mp h
  obtain rfl := Option.some.inj h
  have hidle : c.handle i = ⟨some v, none⟩ := by
    rw [← hv, ← htask]
  refine (PushRun.refl c).tail (.pushes hidle ?_)
  cases hr : (v.rawEntriesTagged.run c.disk).1 with
  | error e =>
    rw [hr] at hentries
    cases hentries
  | ok entries' =>
    rw [hr] at hentries
    exact congrArg Except.ok (Option.some.inj hentries)

theorem Sent.covers_of_opened {s : Sent} (h : ∀ f ∈ s.log, (s.keyring.opened f).isSome = true) : s.Covers := by
  intro f hf k r hholds
  obtain ⟨r', hr'⟩ := Option.isSome_iff_exists.mp (h f hf)
  obtain ⟨k', hk', hblob⟩ := Keyring.opened_eq_some.mp hr'
  have hsame : k = k' := congrArg Sealed.key (Bytes.sealed.inj (hholds.symm.trans hblob))
  exact Or.inl (hsame ▸ hk')

def byCommand : Sent := (toPush hostAdded false).get (by decide +kernel)
def byDaemon : Sent := (toPush hostAdded true).get (by decide +kernel)

theorem byCommand_run : PushRun laptopDir [byCommand] hostAdded :=
  hostAdded_run.append (pushRun_toPush (i := false) rfl (Option.some_get _).symm)

theorem byDaemon_run : PushRun laptopDir [byDaemon] hostAdded :=
  hostAdded_run.append (pushRun_toPush (i := true) rfl (Option.some_get _).symm)

/-- The command that added the host pushes it under its share. -/
theorem pushes_right_command : byCommand.Right :=
  have hcovers : byCommand.Covers := Sent.covers_of_opened (by decide +kernel)
  (pushes_right_iff byCommand_run).mpr (by
    intro s hs
    obtain rfl := List.mem_singleton.mp hs
    exact hcovers) byCommand (List.mem_singleton_self _)

/-- The daemon pushes it under the nil share. -/
theorem stale_daemon_untags :
    ¬ ∀ (c : Directory Bool) (sent : List Sent), PushRun laptopDir sent c → ∀ s ∈ sent, s.Right := by
  intro h
  have hright : byDaemon.Right := h _ _ byDaemon_run byDaemon (List.mem_singleton_self _)
  let f : Frame := hostAdded.disk.log.head (by decide +kernel)
  have hf : f ∈ byDaemon.log := List.head_mem _
  have hopened : (byCommand.keyring.opened f).map Record.shareId = some 5 := by decide +kernel
  obtain ⟨r, hr, hshare⟩ := Option.map_eq_some_iff.mp hopened
  obtain ⟨k, -, hholds⟩ := Keyring.opened_eq_some.mp hr
  have hmem : (f.1, f.2, byDaemon.keyring.tag f) ∈ byDaemon.entries := by
    rw [byDaemon_run.tagged byDaemon (List.mem_singleton_self _)]
    exact List.mem_map_of_mem hf
  have htag : byDaemon.keyring.tag f = 5 := (hright _ hmem k r hholds).trans hshare
  exact absurd htag (by decide +kernel)

end Directory

end Vault

end SshVault
