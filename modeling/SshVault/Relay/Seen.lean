import SshVault.Relay.Admission

/-!
# Seen signatures

A note of a signature expires some time after the relay made it, and an envelope stops to verify some time
after it was signed. The relay reads its clock for the one and again for the other. If the signer's clock is
ahead, or the relay is slow, the note goes first.
-/

open Lib Prog

namespace SshVault.Relay

theorem inWindow_iff {now ts : Int64} : inWindow now ts = true ↔
    (now.toInt - ts.toInt).bmod (2 ^ 64) = -2 ^ 63 ∨ ((now.toInt - ts.toInt).bmod (2 ^ 64)).natAbs ≤ 300 := by
  have habs : ((now - ts).abs).toInt = if (now - ts).toInt = -2 ^ 63 then -2 ^ 63 else ((now - ts).toInt.natAbs : Int) := by
    have h := @BitVec.toInt_abs_eq_natAbs 64 (now - ts).toBitVec
    have hmin : (now - ts).toBitVec = BitVec.intMin 64 ↔ (now - ts).toInt = -2 ^ 63 := by
      rw [← BitVec.toInt_inj]
      exact Iff.rfl
    simp only [hmin] at h
    exact h
  have hgt : inWindow now ts = true ↔ ((now - ts).abs).toInt ≤ 300 := by
    unfold inWindow
    rw [decide_eq_true_eq, gt_iff_lt, Int64.not_lt, Int64.le_iff_toInt_le]
    rfl
  rw [hgt, habs, Int64.toInt_sub]
  split
  · rename_i h
    simp [h]
  · rename_i h
    simp only [h, false_or]
    omega

/-! ## Times -/

/-- A note made at `noted` outlasts the envelope, also for handlers that verify it at the last moment and get to
their own note `delay` seconds later. -/
def Outlasts (delay : Nat) (noted ts : Int64) : Prop :=
  ∀ now : Int64, 0 ≤ now → inWindow now ts = true → now.toInt + delay ≤ (noted + maxSkewSecs).toInt

/-- At the times of a relay's clock: the envelope was signed `delay` seconds before it was noted. -/
theorem outlasts_iff {delay : Nat} {noted ts : Int64} (hts : 0 ≤ ts) (hlast : ts.toInt + 300 < 2 ^ 63)
    (hnoted : noted.toInt + 300 < 2 ^ 63) : Outlasts delay noted ts ↔ ts.toInt + delay ≤ noted.toInt := by
  have hpos : 0 ≤ ts.toInt := Int64.le_iff_toInt_le.mp hts
  have hlow := noted.le_toInt
  have hsum : (noted + maxSkewSecs).toInt = noted.toInt + 300 := by
    rw [Int64.toInt_add]
    change (noted.toInt + 300).bmod (2 ^ 64) = _
    rw [Int.bmod_def]
    omega
  unfold Outlasts
  rw [hsum]
  constructor
  · intro h
    -- The last second at which the envelope verifies.
    have hend : (ts + 300).toInt = ts.toInt + 300 := by
      rw [Int64.toInt_add]
      change (ts.toInt + 300).bmod (2 ^ 64) = _
      rw [Int.bmod_def]
      omega
    have hnow := h (ts + 300) (by rw [Int64.le_iff_toInt_le, hend]; exact hpos.trans (by omega))
      (by rw [inWindow_iff, hend, Int.bmod_def]; omega)
    omega
  · intro h now hnow hwin
    have hnow' : 0 ≤ now.toInt := Int64.le_iff_toInt_le.mp hnow
    have hhigh := now.toInt_lt
    rw [inWindow_iff, Int.bmod_def] at hwin
    omega

/-- A handler that notes a signature, or drops notes, at `time` has read the clock before, and has come here from
`verify` in `delay` seconds. -/
structure InTime (delay : Nat) (now : Now) (time : Int64) : Prop where
  epoch : 0 ≤ now.verify
  read : now.markSeen ≤ time
  prompt : time.toInt ≤ now.verify.toInt + delay

variable {ι : Type}

/-- The times of the steps of a run, latest first: the clock does not go back. -/
structure Timed (delay : Nat) (now : ι → Now) (h : List (ι × Db × Db)) (times : List Int64) : Prop where
  clock : times.Pairwise (· ≥ ·)
  steps : List.Forall₂ (fun x time => x.2.2.seenSigs ≠ x.2.1.seenSigs → InTime delay (now x.1) time) h times

/-! ## Notes -/

/-- `mark_seen` finds the signature new. -/
def Notes (sig : Sig) (m : Db × Db) : Prop := (∀ n ∈ m.1.seenSigs, n.sig ≠ sig) ∧ ∃ n ∈ m.2.seenSigs, n.sig = sig

section

variable {now : Now} {req : Request} {past : List (Db × Db)} {s t : Db}

theorem Statement.note_stays {n : SeenSig} (h : Statement now req past s t)
    (hn : t.seenSigs ≠ s.seenSigs → ¬ n.expiresAt < now.markSeen) (hmem : n ∈ s.seenSigs) : n ∈ t.seenSigs := by
  by_cases hsame : t.seenSigs = s.seenSigs
  · rwa [hsame]
  cases h with
  | deleteExpired => exact List.mem_filter.mpr ⟨hmem, by simpa using hn hsame⟩
  | insertSeen =>
    change n ∈ Table.insertOrIgnore SeenSig.sig _ s.seenSigs
    unfold Table.insertOrIgnore
    split
    · exact hmem
    · exact List.mem_append_left _ hmem
  | _ => exact hmem

theorem Statement.notes {key : EdKey} {ts : Int64} {body : Body} (h : Statement now req past s t)
    (hnotes : Notes ⟨key, .request ts body⟩ (s, t)) :
    inWindow now.verify ts = true ∧ (⟨⟨key, .request ts body⟩, now.markSeen + maxSkewSecs⟩ : SeenSig) ∈ t.seenSigs := by
  obtain ⟨hnone, n, hn, hsig⟩ := hnotes
  cases h with
  | deleteExpired => exact absurd hsig (hnone n (List.mem_filter.mp hn).1)
  | insertSeen hc hnoted =>
    rcases Table.mem_insertOrIgnore hn with hold | rfl
    · exact absurd hsig (hnone n hold)
    · obtain ⟨hwin, -, -, hsigned⟩ := verify_ok hc.verified
      obtain rfl := Option.some.inj (hsigned.symm.trans hnoted)
      obtain ⟨rfl, hmsg⟩ := Sig.mk.inj hsig
      obtain ⟨rfl, rfl⟩ := Msg.request.inj hmsg
      exact ⟨hwin, hn⟩
  | _ => exact absurd hsig (hnone n hn)

end

/-! ## Runs -/

variable {now : ι → Now} {req : ι → Request} {delay : Nat} {key : EdKey} {ts : Int64} {body : Body}

/-- The envelope was noted once at most, and as long as the note has not expired, it is there. -/
structure Guarded (now : ι → Now) (sig : Sig) (h : List (ι × Db × Db)) (times : List Int64) (db : Db) : Prop where
  once : h.Pairwise fun x y => ¬ (Notes sig x.2 ∧ Notes sig y.2)
  noted : ∀ x ∈ h, Notes sig x.2 → (∀ time ∈ times, time ≤ (now x.1).markSeen + maxSkewSecs) →
    (⟨sig, (now x.1).markSeen + maxSkewSecs⟩ : SeenSig) ∈ db.seenSigs

theorem Guarded.step {h : List (ι × Db × Db)} {times : List Int64} {past : List (Db × Db)} {s t : Db} {i : ι} {time : Int64}
    (hs : Guarded now ⟨key, .request ts body⟩ h times s) (hstep : Statement (now i) (req i) past s t)
    (htime : t.seenSigs ≠ s.seenSigs → InTime delay (now i) time) (hlast : ∀ before ∈ times, before ≤ time)
    (hcond : ∀ x ∈ h, Notes ⟨key, .request ts body⟩ x.2 → Outlasts delay (now x.1).markSeen ts) :
    Guarded now ⟨key, .request ts body⟩ ((i, s, t) :: h) (time :: times) t := by
  constructor
  · refine List.pairwise_cons.mpr ⟨?_, hs.once⟩
    rintro x hx ⟨hnotes, hearlier⟩
    obtain ⟨hwin, hnoted⟩ := hstep.notes hnotes
    have hchanged : t.seenSigs ≠ s.seenSigs := fun hsame => hnotes.1 _ (hsame ▸ hnoted) rfl
    have hin := htime hchanged
    -- The envelope still verified, so the earlier note has not expired.
    have hle : time ≤ (now x.1).markSeen + maxSkewSecs :=
      Int64.le_iff_toInt_le.mpr (hin.prompt.trans (hcond x hx hearlier _ hin.epoch hwin))
    exact hnotes.1 _ (hs.noted x hx hearlier fun before hbefore => Int64.le_trans (hlast before hbefore) hle) rfl
  · rintro x hx hnotes hle
    rcases List.mem_cons.mp hx with rfl | hx
    · exact (hstep.notes hnotes).2
    · obtain ⟨hnow, hbefore⟩ := List.forall_mem_cons.mp hle
      exact hstep.note_stays (fun hchanged => Int64.not_lt.mpr (Int64.le_trans (htime hchanged).read hnow))
        (hs.noted x hx hnotes hbefore)

/-- **Accepted once.** Whatever the order in which any number of handlers take their steps: if the note of an envelope
outlasts it each time that it is accepted, then `mark_seen` finds its signature new at most once. -/
theorem accepted_once [DecidableEq ι] {c₀ c : Handlers ι} {h : List (ι × Db × Db)} {times : List Int64}
    (hserving : Serving now req c₀) (hrun : Pool.Trace c₀ h c) (htimes : Timed delay now h times)
    (hcond : ∀ x ∈ h, Notes ⟨key, .request ts body⟩ x.2 → Outlasts delay (now x.1).markSeen ts) :
    h.Pairwise fun x y => ¬ (Notes ⟨key, .request ts body⟩ x.2 ∧ Notes ⟨key, .request ts body⟩ y.2) := by
  -- The induction is on the run: while the signature can be accepted, its note is there.
  suffices hguarded : Guarded now ⟨key, .request ts body⟩ h times c.state from hguarded.once
  induction hrun generalizing times with
  | start =>
    obtain ⟨-, hsteps⟩ := htimes
    cases hsteps
    exact ⟨.nil, fun _ hx => nomatch hx⟩
  | @snoc h c c' i hrun hnext ih =>
    obtain ⟨hclock, hsteps⟩ := htimes
    cases hsteps with
    | cons htime hsteps =>
      obtain ⟨hlast, hclock⟩ := List.pairwise_cons.mp hclock
      have hbefore := ih ⟨hclock, hsteps⟩ fun x hx => hcond x (List.mem_cons_of_mem _ hx)
      obtain ⟨h', -, hstep⟩ := (hrun.snoc hnext).step_of_mem hserving.traced List.mem_cons_self
      exact hbefore.step hstep htime hlast fun x hx => hcond x (List.mem_cons_of_mem _ hx)

/-! ## Two deliveries -/

namespace Twice

def vault : Wire := .plain "v"

def db : Db :=
  { vaults := [⟨vault, .other 0, 0⟩]
    devices := [⟨vault, .ed (.device 1), .x 1, .plain "laptop", true, false, none⟩] }

/-- A rotation that device 1 signed at `ts`. -/
def rotation (ts : Int64) : Signed := envelope vault (.device 1) ts (.json (RotateReq.toJson ⟨1, []⟩))

/-- The relay handles it at 1000, and again a second later. -/
def clock : Bool → Now
  | false => 1000
  | true => 1001

def start : Handlers Bool := ⟨fun i => (route (clock i) (.post .rotate (rotation 999))).run, db⟩

/-- The two deliveries take turns. -/
def turns : List Bool := [false, true, false, true, false, true, false, false]

end Twice

open Twice

theorem accepted_once_twice : ∃ h, Pool.Trace start h (start.play turns) ∧ h.Pairwise fun x y =>
    ¬ (Notes ⟨.device 1, .request 999 (rotation 999).body⟩ x.2 ∧ Notes ⟨.device 1, .request 999 (rotation 999).body⟩ y.2) := by
  obtain ⟨h, hrun⟩ := Pool.Trace.play (@Pool.Trace.start _ _ _ _ start) turns
  have hin : ∀ i, InTime 1 (clock i) 1001
    | false => ⟨by decide, by decide, by decide⟩
    | true => ⟨by decide, by decide, by decide⟩
  have houtlasts : ∀ i, Outlasts 1 (clock i).markSeen 999
    | false => (outlasts_iff (by decide) (by decide) (by decide)).mpr (by decide)
    | true => (outlasts_iff (by decide) (by decide) (by decide)).mpr (by decide)
  have htimes : Timed 1 clock h (h.map fun _ => 1001) :=
    ⟨List.pairwise_map.mpr (List.pairwise_of_forall fun _ _ => Int64.le_refl _),
      List.forall₂_map_right_iff.mpr (List.forall₂_same.mpr fun x _ _ => hin x.1)⟩
  have hserving : Serving clock (fun _ => .post .rotate (rotation 999)) start := fun _ => rfl
  exact ⟨h, hrun, accepted_once hserving hrun htimes fun x _ _ => houtlasts x.1⟩

/-- The checks of `rotate` and `share_rotate`: the envelope verifies, its device may sync, its signature is new. -/
structure Passes (now : Now) (db : Db) (signed : Signed) : Prop where
  acts : ∃ vault key, Acts now db signed vault key
  unseen : ∃ sig, signed.sig.signature = some sig ∧ Unseen now.markSeen sig db

theorem Twice.verified {now ts : Int64} (hwin : inWindow now ts = true) :
    verify now (rotation ts) = .ok (vault, .device 1) := by
  unfold verify
  rw [show inWindow now (rotation ts).ts = true from hwin]
  simp [rotation, envelope, Text.decodeEd, Text.decode, Text.signature]

theorem Twice.passes {now : Now} {ts : Int64} {d : Db} (hwin : inWindow now.verify ts = true)
    (hcan : d.canSync vault (.device 1) = true)
    (hunseen : Unseen now.markSeen ⟨.device 1, .request ts (rotation ts).body⟩ d) : Passes now d (rotation ts) :=
  ⟨⟨vault, .device 1, verified hwin, hcan⟩, _, rfl, hunseen⟩

/-- Signed 300 seconds ahead of the relay's clock, accepted, and accepted again 301 seconds later. And signed at the
relay's own time, accepted, and accepted again by a relay that is a second late with its second look at the clock. -/
theorem fast_clock_replays :
    (Passes 1000 db (rotation 1300) ∧
      Passes 1301 (exec (route 1000 (.post .rotate (rotation 1300))) db).2 (rotation 1300)) ∧
    Passes 1000 db (rotation 1000) ∧
      Passes ⟨1300, 1301⟩ (exec (route 1000 (.post .rotate (rotation 1000))) db).2 (rotation 1000) := by
  refine ⟨⟨?_, ?_⟩, ?_, ?_⟩ <;> exact passes (by decide) (by decide +kernel) (by decide +kernel)

end SshVault.Relay
