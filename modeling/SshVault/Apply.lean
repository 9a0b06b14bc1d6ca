import SshVault.IncludeLine
import SshVault.Rendering

/-!
# `apply`, stopped anywhere (`src/sshconfig.rs`)

Two files are replaced, each through a temporary file beside it. A crash or an error stops the program between two steps,
and the bytes of a file are written one by one.
-/

open Lib

namespace SshVault

open Prog

namespace SshConfig

/-! ## Files -/

structure DirFile where
  content : List UInt8
  mode : Nat
  deriving DecidableEq

/-- `<ssh_dir>`. -/
abbrev SshDir := String → Option DirFile

/-- `Path::file_stem` of a file name. -/
def fileStem (name : List Char) : List Char :=
  match name.reverse.dropWhile (· ≠ '.') with
  | [] | ['.'] => name
  | _ :: stem => stem.reverse

def withExtension (name ext : String) : String := String.ofList (fileStem name.toList ++ '.' :: ext.toList)

def tmpOf (name : String) : String := withExtension name "sshvault-tmp"

namespace SshDir

/-- A file that is there is emptied, and keeps its mode. A new one gets the mode `fresh`. -/
def create (fresh : Nat) (name : String) : Prog SshDir Unit :=
  .atom fun d => ((), Function.update d name (some ⟨[], ((d name).map (·.mode)).getD fresh⟩))

def append (name : String) (b : UInt8) : Prog SshDir Unit :=
  .atom fun d => ((), Function.update d name ((d name).map fun f => { f with content := f.content ++ [b] }))

def setMode (name : String) (mode : Nat) : Prog SshDir Unit :=
  .atom fun d => ((), Function.update d name ((d name).map fun f => { f with mode }))

def rename (name dest : String) : Prog SshDir Unit :=
  .atom fun d => ((), Function.update (Function.update d dest (d name)) name none)

def read (name : String) : Prog SshDir (Option DirFile) := .atom fun d => (d name, d)

/-- A file that is not there is empty. -/
def bytes (file : Option DirFile) : List UInt8 := (file.map (·.content)).getD []

def writeAll (name : String) : List UInt8 → Prog SshDir Unit
  | [] => pure ()
  | b :: rest => do
    append name b
    writeAll name rest

end SshDir

section

-- The mode of new files.
variable (fresh : Nat)

def atomicWrite (name : String) (contents : List UInt8) : Prog SshDir Unit := do
  SshDir.create fresh (tmpOf name)
  SshDir.writeAll (tmpOf name) contents
  SshDir.setMode (tmpOf name) 0o600
  SshDir.rename (tmpOf name) name

/-- What a call is about: the hosts, the forwards and the include target. -/
structure Call where
  hosts : List Host
  forwards : List PortForward
  target : String

/-- Whether the include line was added. No answer is a panic. -/
def apply (call : Call) : Prog SshDir (Option Bool) :=
  match render call.hosts call.forwards with
  | none => pure none
  | some text => do
    atomicWrite fresh managedFile (utf8 text)
    let existing := SshDir.bytes (← SshDir.read "config")
    if included existing then return some false
    else do
      atomicWrite fresh "config" (includeLine call.target ++ existing)
      return some true

/-- Calls one after the other, each stopped after so many steps. -/
def applies (calls : List (Call × Nat)) (d : SshDir) : SshDir :=
  calls.foldl (fun d c => (apply fresh c.1).cutAt c.2 d) d

end

/-! ## One file -/

variable {fresh : Nat} {d d₀ : SshDir} {name : String} {contents : List UInt8}

/-- But for the temporary file, everything is as it was, or the one file is new and whole. -/
structure Replaces (d₀ : SshDir) (name : String) (contents : List UInt8) (d : SshDir) : Prop where
  others : ∀ file, file ≠ tmpOf name → file ≠ name → d file = d₀ file
  whole : d name = d₀ name ∨ d name = some ⟨contents, 0o600⟩

theorem Replaces.tmp (hname : name ≠ tmpOf name) (o : Option DirFile) :
    Replaces d₀ name contents (Function.update d₀ (tmpOf name) o) :=
  ⟨fun _ hfile _ => Function.update_of_ne hfile _ _, Or.inl (Function.update_of_ne hname _ _)⟩

theorem Replaces.done (hname : name ≠ tmpOf name) :
    Replaces d₀ name contents (Function.update (Function.update d₀ name (some ⟨contents, 0o600⟩)) (tmpOf name) none) := by
  refine ⟨fun file htmp hfile => ?_, Or.inr ?_⟩
  · rw [Function.update_of_ne htmp, Function.update_of_ne hfile]
  · rw [Function.update_of_ne hname, Function.update_self]

theorem writeAll_always (hname : name ≠ tmpOf name) (bytes : List UInt8) (f : DirFile) :
    Always (Replaces d₀ name contents)
      (fun _ d => d = Function.update d₀ (tmpOf name) (some ⟨f.content ++ bytes, f.mode⟩))
      (SshDir.writeAll (tmpOf name) bytes) (Function.update d₀ (tmpOf name) (some f)) := by
  induction bytes generalizing f with
  | nil =>
    rw [List.append_nil]
    exact Always.pure rfl
  | cons b rest ih =>
    refine Always.bind (Always.atom (.tmp hname _) ?_)
    have hnext := ih ⟨f.content ++ [b], f.mode⟩
    dsimp only at hnext ⊢
    rw [Function.update_idem, Function.update_self, Option.map_some]
    rw [List.append_assoc] at hnext
    exact hnext

/-- **One file.** At any point it is the old one or the new one, and at the end it is the new one. -/
theorem atomicWrite_always (hname : name ≠ tmpOf name) (d₀ : SshDir) (contents : List UInt8) :
    Always (Replaces d₀ name contents)
      (fun _ d => d = Function.update (Function.update d₀ name (some ⟨contents, 0o600⟩)) (tmpOf name) none)
      (atomicWrite fresh name contents) d₀ := by
  have hstart : Replaces d₀ name contents d₀ := ⟨fun _ _ _ => rfl, Or.inl rfl⟩
  refine Always.bind (Always.atom hstart ?_)
  refine Always.bind (Always.mono (writeAll_always hname contents _) fun _ d hd => ?_)
  subst hd
  refine Always.bind (Always.atom (.tmp hname _) ?_)
  dsimp only
  rw [Function.update_idem, Function.update_self, Option.map_some]
  refine Always.atom (.tmp hname _) ?_
  dsimp only
  rw [Function.update_self, Function.update_comm hname, Function.update_idem]
  exact Function.update_comm hname.symm _ _ _

/-! ## One call -/

/-- The bytes of the user's config. -/
def configOf (d : SshDir) : List UInt8 := SshDir.bytes (d "config")

/-- The names that a call writes to. -/
def touched : List String := [managedFile, tmpOf managedFile, "config", tmpOf "config"]

/-- At any point of a call from `d₀`. -/
structure Applied (call : Call) (d₀ d : SshDir) : Prop where
  others : ∀ file, file ∉ touched → d file = d₀ file
  managed : d managedFile = d₀ managedFile ∨
    ∃ text, render call.hosts call.forwards = some text ∧ d managedFile = some ⟨utf8 text, 0o600⟩
  config : d "config" = d₀ "config" ∨
    included (configOf d₀) = false ∧ d "config" = some ⟨includeLine call.target ++ configOf d₀, 0o600⟩

/-- After a call that went through. -/
structure Finished (call : Call) (d : SshDir) : Prop where
  tmp : d (tmpOf managedFile) = none
  managed : ∃ text, render call.hosts call.forwards = some text ∧ d managedFile = some ⟨utf8 text, 0o600⟩
  config : included (configOf d) = true

theorem managed_ne_tmp : managedFile ≠ tmpOf managedFile := by decide

theorem config_ne_tmp : "config" ≠ tmpOf "config" := by decide

theorem config_ne_managed : "config" ≠ managedFile ∧ "config" ≠ tmpOf managedFile := by decide

theorem managed_ne_config : managedFile ≠ "config" ∧ managedFile ≠ tmpOf "config" := by decide

variable {call : Call}

theorem Replaces.managed {text : String} (htext : render call.hosts call.forwards = some text)
    (h : Replaces d₀ managedFile (utf8 text) d) : Applied call d₀ d := by
  refine ⟨fun file hfile => ?_, ?_, Or.inl (h.others _ config_ne_managed.2 config_ne_managed.1)⟩
  · simp only [touched, List.mem_cons, List.not_mem_nil, or_false, not_or] at hfile
    exact h.others file hfile.2.1 hfile.1
  · exact h.whole.imp_right fun hnew => ⟨text, htext, hnew⟩

theorem Applied.config_replaced {d₁ : SshDir} (h₁ : Applied call d₀ d₁) (hsame : d₁ "config" = d₀ "config")
    (hnot : included (configOf d₀) = false) (h : Replaces d₁ "config" (includeLine call.target ++ configOf d₀) d) :
    Applied call d₀ d := by
  refine ⟨fun file hfile => ?_, ?_, ?_⟩
  · have htouched := hfile
    simp only [touched, List.mem_cons, List.not_mem_nil, or_false, not_or] at htouched
    rw [h.others file htouched.2.2.2 htouched.2.2.1]
    exact h₁.others file hfile
  · rw [h.others managedFile managed_ne_config.2 managed_ne_config.1]
    exact h₁.managed
  · rcases h.whole with hold | hnew
    · exact Or.inl (hold.trans hsame)
    · exact Or.inr ⟨hnot, hnew⟩

theorem apply_always (ht : Target call.target) (d₀ : SshDir) :
    Always (Applied call d₀) (fun added d => Applied call d₀ d ∧
      (added.isSome = true ∧ Finished call d ∨ render call.hosts call.forwards = none)) (apply fresh call) d₀ := by
  have hstart : Applied call d₀ d₀ := ⟨fun _ _ => rfl, Or.inl rfl, Or.inl rfl⟩
  unfold apply
  cases htext : render call.hosts call.forwards with
  | none => exact Always.pure ⟨hstart, Or.inr rfl⟩
  | some text =>
    dsimp only
    refine Always.bind (Always.imp (atomicWrite_always managed_ne_tmp d₀ (utf8 text)) (fun _ h => h.managed htext)
      fun _ d₁ hd₁ => ?_)
    have hconfig : d₁ "config" = d₀ "config" := by
      rw [hd₁, Function.update_of_ne config_ne_managed.2, Function.update_of_ne config_ne_managed.1]
    have hmanaged : d₁ managedFile = some ⟨utf8 text, 0o600⟩ := by
      rw [hd₁, Function.update_of_ne managed_ne_tmp, Function.update_self]
    have htmp : d₁ (tmpOf managedFile) = none := by rw [hd₁, Function.update_self]
    have h₁ : Applied call d₀ d₁ := by
      rw [hd₁]
      exact Replaces.managed htext (.done managed_ne_tmp)
    have hbytes : SshDir.bytes (d₁ "config") = configOf d₀ := congrArg SshDir.bytes hconfig
    refine Always.bind (Always.atom h₁ ?_)
    dsimp only
    rw [hbytes]
    split
    · rename_i hincluded
      exact Always.pure ⟨h₁, Or.inl ⟨rfl, htmp, ⟨text, htext, hmanaged⟩, (congrArg included hbytes).trans hincluded⟩⟩
    · rename_i hnot
      have hnew : included (configOf d₀) = false := Bool.eq_false_iff.mpr hnot
      refine Always.bind (Always.imp (atomicWrite_always config_ne_tmp d₁ _) (fun _ h => h₁.config_replaced hconfig hnew h)
        fun _ d₂ hd₂ => ?_)
      have hconfig₂ : d₂ "config" = some ⟨includeLine call.target ++ configOf d₀, 0o600⟩ := by
        rw [hd₂, Function.update_of_ne config_ne_tmp, Function.update_self]
      have hmanaged₂ : d₂ managedFile = some ⟨utf8 text, 0o600⟩ := by
        rw [hd₂, Function.update_of_ne managed_ne_config.2, Function.update_of_ne managed_ne_config.1, hmanaged]
      have htmp₂ : d₂ (tmpOf managedFile) = none := by
        rw [hd₂, Function.update_of_ne (by decide), Function.update_of_ne config_ne_managed.2.symm, htmp]
      have h₂ : Applied call d₀ d₂ := by
        rw [hd₂]
        exact h₁.config_replaced hconfig hnew (.done config_ne_tmp)
      refine Always.pure ⟨h₂, Or.inl ⟨rfl, htmp₂, ⟨text, htext, hmanaged₂⟩, ?_⟩⟩
      unfold configOf
      rw [hconfig₂]
      exact included_includeLine ht _

/-! ## Calls, stopped anywhere -/

theorem cutAt_applied (ht : Target call.target) (n : Nat) (d₀ : SshDir) : Applied call d₀ ((apply fresh call).cutAt n d₀) :=
  (apply_always ht d₀).cutAt (fun _ _ h => h.1) n

theorem applies_snoc (calls : List (Call × Nat)) (c : Call × Nat) (d : SshDir) :
    applies fresh (calls ++ [c]) d = (apply fresh c.1).cutAt c.2 (applies fresh calls d) := List.foldl_concat ..

/-- **Stopped anywhere.** However many calls are stopped wherever, the config is the user's, with one include line in front
of its bytes at most, the managed file is whole, and no other file but the temporary ones is another. -/
theorem stopped_anywhere (fresh : Nat) (calls : List (Call × Nat)) (ht : ∀ c ∈ calls, Target c.1.target) (d₀ : SshDir) :
    (∀ file, file ∉ touched → applies fresh calls d₀ file = d₀ file) ∧
      (applies fresh calls d₀ managedFile = d₀ managedFile ∨ ∃ c ∈ calls, ∃ text,
        render c.1.hosts c.1.forwards = some text ∧ applies fresh calls d₀ managedFile = some ⟨utf8 text, 0o600⟩) ∧
      (applies fresh calls d₀ "config" = d₀ "config" ∨ included (configOf d₀) = false ∧ ∃ c ∈ calls,
        applies fresh calls d₀ "config" = some ⟨includeLine c.1.target ++ configOf d₀, 0o600⟩) := by
  induction calls using List.reverseRecOn with
  | nil => exact ⟨fun _ _ => rfl, Or.inl rfl, Or.inl rfl⟩
  | append_singleton calls c ih =>
    obtain ⟨hothers, hmanaged, hconfig⟩ := ih fun c' hc' => ht c' (List.mem_append_left _ hc')
    have hlast : c ∈ calls ++ [c] := List.mem_append_right _ List.mem_cons_self
    have hnext := @cutAt_applied fresh c.1 (ht c hlast) c.2 (applies fresh calls d₀)
    rw [applies_snoc]
    generalize applies fresh calls d₀ = d₁ at *
    generalize (apply fresh c.1).cutAt c.2 d₁ = d₂ at *
    refine ⟨fun file hfile => (hnext.others file hfile).trans (hothers file hfile), ?_, ?_⟩
    · rcases hnext.managed with hsame | ⟨text, htext, hnew⟩
      · rw [hsame]
        exact hmanaged.imp_right fun ⟨c', hc', h⟩ => ⟨c', List.mem_append_left _ hc', h⟩
      · exact Or.inr ⟨c, hlast, text, htext, hnew⟩
    · rcases hconfig with hold | ⟨hnot, c', hc', hadded⟩
      · have hbytes : configOf d₁ = configOf d₀ := by
          unfold configOf
          rw [hold]
        have hstep := hnext.config
        rw [hold, hbytes] at hstep
        exact hstep.imp_right fun ⟨hnot, hnew⟩ => ⟨hnot, c, hlast, hnew⟩
      · -- The line is there, so this call does not put another in front of it.
        have hincluded : included (configOf d₁) = true := by
          unfold configOf
          rw [hadded]
          exact included_includeLine (ht c' (List.mem_append_left _ hc')) _
        rcases hnext.config with hsame | ⟨hfalse, -⟩
        · exact Or.inr ⟨hnot, c', List.mem_append_left _ hc', hsame.trans hadded⟩
        · rw [hincluded] at hfalse
          cases hfalse

namespace Stopped

def userDir : SshDir := fun file => if file = "config" then some ⟨utf8 "Host *\n", 0o644⟩ else none

def webCall : Call := ⟨[⟨"web", some "web.lan", none, none, none, none, []⟩], [], "~/.ssh/sshvault.conf"⟩

/-- One is stopped while it writes, the other before the config is replaced. -/
def stops : List (Call × Nat) := [(webCall, 9), (webCall, 250)]

theorem target : Target webCall.target := ⟨by decide, by decide, by decide⟩

theorem stopped_anywhere_twice :
    applies 0o644 stops userDir "config" = userDir "config" ∨ included (configOf userDir) = false ∧ ∃ c ∈ stops,
      applies 0o644 stops userDir "config" = some ⟨includeLine c.1.target ++ configOf userDir, 0o600⟩ := by
  refine (stopped_anywhere 0o644 stops (fun c hc => ?_) userDir).2.2
  rcases hc with _ | ⟨_, _ | ⟨_, hc⟩⟩
  · exact target
  · exact target
  · cases hc

end Stopped

theorem Finished.again (h : Finished call d) : (apply fresh call).run d = (some false, d) := by
  obtain ⟨text, htext, hmanaged⟩ := h.managed
  have hwrite : (atomicWrite fresh managedFile (utf8 text)).run d = ((), d) := by
    have hend := (@atomicWrite_always fresh _ managed_ne_tmp d (utf8 text)).run
    refine Prod.ext rfl (hend.trans ?_)
    rw [← hmanaged, Function.update_eq_self, ← h.tmp, Function.update_eq_self]
  have hincluded := h.config
  unfold configOf at hincluded
  unfold apply
  rw [htext]
  dsimp only
  rw [Prog.run_bind, hwrite]
  dsimp only
  rw [Prog.run_bind]
  unfold SshDir.read
  rw [Prog.run_atom]
  dsimp only
  rw [if_pos hincluded]
  rfl

/-- **Repaired.** Whatever was stopped before it, a call that runs to its end leaves the whole file and a config that
includes it, and the same call after it changes nothing. -/
theorem apply_repairs (fresh : Nat) (calls : List (Call × Nat)) (call : Call) (ht : Target call.target)
    (hrender : render call.hosts call.forwards ≠ none) (d₀ : SshDir) :
    let out := (apply fresh call).run (applies fresh calls d₀)
    out.1.isSome = true ∧ Finished call out.2 ∧ (apply fresh call).run out.2 = (some false, out.2) := by
  obtain ⟨-, hdone⟩ := (@apply_always fresh call ht (applies fresh calls d₀)).run
  obtain ⟨hsome, hfinished⟩ := hdone.resolve_right hrender
  exact ⟨hsome, hfinished, hfinished.again⟩

namespace Stopped

theorem renders : render webCall.hosts webCall.forwards ≠ none := by
  decide +kernel

theorem apply_repairs_stopped :
    let out := (apply 0o644 webCall).run (applies 0o644 stops userDir)
    out.1.isSome = true ∧ Finished webCall out.2 ∧ (apply 0o644 webCall).run out.2 = (some false, out.2) :=
  apply_repairs 0o644 stops webCall target renders userDir

end Stopped

end SshConfig

end SshVault
