import SshVault.Relay.Seen
import SshVault.Relay.Log
import SshVault.Relay.Tenancy

/-!
# Integers from clients (`src/relay.rs`, `verify` and `pull`)

The timestamp and the cursor may be any 64-bit values. Where a result does not fit, a debug build panics, and a
release build goes on with the wrapped one.
-/

open Lib Prog

namespace SshVault.Relay

/-! ## Checked operations -/

/-- `a - b` in a debug build. -/
def checkedSub (a b : Int64) : Option Int64 := if a.toBitVec.ssubOverflow b.toBitVec then none else some (a - b)

/-- `a.abs()` in a debug build. -/
def checkedAbs (a : Int64) : Option Int64 := if a = Int64.minValue then none else some a.abs

/-- The window test of `verify` in a debug build, `none` where it panics. -/
def inWindowChecked (now ts : Int64) : Option Bool := do
  let diff ← checkedSub now ts
  let skew ← checkedAbs diff
  return ¬ skew > maxSkewSecs

variable {now ts : Int64} {signed : Signed} {db : Db} {q : PullQuery}

theorem checkedSub_isSome_iff : (checkedSub now ts).isSome = true ↔
    -2 ^ 63 ≤ now.toInt - ts.toInt ∧ now.toInt - ts.toInt < 2 ^ 63 := by
  have hrange : now.toBitVec.ssubOverflow ts.toBitVec = true ↔
      2 ^ 63 ≤ now.toInt - ts.toInt ∨ now.toInt - ts.toInt < -2 ^ 63 := by
    unfold BitVec.ssubOverflow
    rw [Bool.or_eq_true, decide_eq_true_eq, decide_eq_true_eq]
    exact Iff.rfl
  unfold checkedSub
  split
  · rename_i h
    have hout := hrange.mp h
    simp only [Option.isSome_none, Bool.false_eq_true, false_iff]
    omega
  · rename_i h
    have hin := mt hrange.mpr h
    simp only [Option.isSome_some, true_iff]
    omega

theorem toInt_sub_of_lt (hlow : -2 ^ 63 ≤ now.toInt - ts.toInt) (hhigh : now.toInt - ts.toInt < 2 ^ 63) :
    (now - ts).toInt = now.toInt - ts.toInt := by
  rw [Int64.toInt_sub, Int.bmod_def]
  omega

/-- Where nothing overflows, both builds answer the same. -/
theorem inWindowChecked_eq_some {b : Bool} (h : inWindowChecked now ts = some b) : b = inWindow now ts := by
  unfold inWindowChecked checkedSub checkedAbs at h
  split at h
  · cases h
  rw [Option.bind_eq_bind, Option.bind_some] at h
  split at h
  · cases h
  · exact (Option.some.inj h).symm

theorem inWindowChecked_isSome_iff (hnow : 0 ≤ now) :
    (inWindowChecked now ts).isSome = true ↔ now.toInt - ts.toInt < 2 ^ 63 := by
  have hpos : 0 ≤ now.toInt := Int64.le_iff_toInt_le.mp hnow
  have hts := ts.toInt_lt
  constructor
  · intro h
    obtain ⟨b, hb⟩ := Option.isSome_iff_exists.mp h
    obtain ⟨diff, hdiff, -⟩ := Option.bind_eq_some_iff.mp hb
    exact (checkedSub_isSome_iff.mp (Option.isSome_of_eq_some hdiff)).2
  · intro hlt
    have hlow : -2 ^ 63 ≤ now.toInt - ts.toInt := by omega
    obtain ⟨diff, hdiff⟩ := Option.isSome_iff_exists.mp (checkedSub_isSome_iff.mpr ⟨hlow, hlt⟩)
    have heq : diff = now - ts := by
      unfold checkedSub at hdiff
      split at hdiff
      · cases hdiff
      · exact (Option.some.inj hdiff).symm
    have hmin : diff ≠ Int64.minValue := by
      rw [heq, ← Int64.toInt_inj.ne, toInt_sub_of_lt hlow hlt, Int64.toInt_minValue]
      omega
    unfold inWindowChecked checkedAbs
    rw [hdiff, Option.bind_eq_bind, Option.bind_some, if_neg hmin]
    rfl

/-! ## The window test -/

/-- `verify` refuses the timestamp. -/
def Stale (now : Int64) (signed : Signed) : Prop :=
  verify now signed = .error (unauthorized "request timestamp outside acceptance window")

instance (now : Int64) (signed : Signed) : Decidable (Stale now signed) := by
  unfold Stale
  infer_instance

theorem stale_iff : Stale now signed ↔ inWindow now signed.ts = false := by
  unfold Stale verify
  cases hwin : inWindow now signed.ts with
  | false => simp
  | true =>
    simp only [not_true, if_false, Bool.true_eq_false, iff_false]
    split
    · simp [badRequest, unauthorized]
    · split
      · simp [badRequest, unauthorized]
      · split
        · simp
        · simp [unauthorized]

/-- Where the wrapped test differs from the exact one: the request is accepted, and is much too old. -/
theorem inWindow_wraps_iff (hnow : 0 ≤ now) :
    (inWindow now ts = true ∧ ¬ |now.toInt - ts.toInt| ≤ 300) ↔
      now.toInt - ts.toInt = 2 ^ 63 ∨ 2 ^ 64 - 300 ≤ now.toInt - ts.toInt := by
  have hpos : 0 ≤ now.toInt := Int64.le_iff_toInt_le.mp hnow
  have hts := ts.toInt_lt
  have hlow := ts.le_toInt
  have hhigh := now.toInt_lt
  rw [inWindow_iff, Int.bmod_def, abs_le]
  constructor
  · omega
  · omega

theorem inWindow_of_close (h : |now.toInt - ts.toInt| ≤ 300) : inWindow now ts = true := by
  rw [inWindow_iff, Int.bmod_def]
  rw [abs_le] at h
  omega

/-- The test of a timestamp is that of exact arithmetic, and neither the subtraction nor `abs` overflows. -/
structure SkewExact (now : Int64) (signed : Signed) : Prop where
  test : ¬ Stale now signed ↔ |now.toInt - signed.ts.toInt| ≤ maxSkewSecs.toInt
  fits : (inWindowChecked now signed.ts).isSome = true

theorem skewExact_iff (hnow : 0 ≤ now) : SkewExact now signed ↔ now.toInt - signed.ts.toInt < 2 ^ 63 := by
  constructor
  · intro h
    exact (inWindowChecked_isSome_iff hnow).mp h.fits
  · intro hlt
    refine ⟨?_, (inWindowChecked_isSome_iff hnow).mpr hlt⟩
    have hmax : maxSkewSecs.toInt = 300 := rfl
    rw [stale_iff, Bool.not_eq_false, hmax]
    constructor
    · intro hwin
      by_contra hfar
      have hwraps := (inWindow_wraps_iff hnow).mp ⟨hwin, hfar⟩
      omega
    · exact inWindow_of_close

/-! ## The cursor -/

/-- A pull that is answered selects the rows past its cursor, and the cursor is the number that is bound. -/
structure CursorExact (now : Now) (db : Db) (q : PullQuery) : Prop where
  rows : ∀ resp, (exec (pull now q) db).1 = .ok resp → ∃ key, q.device.decodeEd = some key ∧
    resp.entries = ((wantedRows db q key).insertionSort (·.seq ≤ ·.seq)).map wireEntry
  cast : Db.asI64 q.since = q.since

theorem cursorExact_iff {now : Now} (hsince : q.since < 2 ^ 64) : CursorExact now db q ↔ q.since < 2 ^ 63 := by
  constructor
  · intro h
    exact (asI64_eq_iff hsince).mp h.cast
  · intro hlt
    have hcast := (asI64_eq_iff hsince).mpr hlt
    refine ⟨fun resp hresp => ?_, hcast⟩
    rw [exec_pull_eq] at hresp
    cases hv : verify now.verify ⟨q.vault, q.device, q.sig, q.ts, .pull q.since⟩ with
    | error e =>
      rw [hv] at hresp
      cases hresp
    | ok out =>
      obtain ⟨vault, key⟩ := out
      obtain ⟨-, rfl, hkey, -⟩ := verify_ok hv
      rw [hv] at hresp
      dsimp only at hresp hkey
      split at hresp
      · obtain rfl := Except.ok.inj hresp
        refine ⟨key, hkey, ?_⟩
        change ((db.entries.filter _).insertionSort _).map wireEntry = _
        rw [visible_rows hcast rfl rfl]
      · cases hresp

/-- **Exact integers.** The test of a timestamp is exact and overflows nowhere exactly when the timestamp is not
2^63 seconds or more in the past, and a pull is exact exactly when its cursor is an `i64`. -/
theorem integers_exact_iff (hnow : 0 ≤ now) (signed : Signed) (now' : Now) (db : Db) (hsince : q.since < 2 ^ 64) :
    SkewExact now signed ∧ CursorExact now' db q ↔ now.toInt - signed.ts.toInt < 2 ^ 63 ∧ q.since < 2 ^ 63 :=
  and_congr (skewExact_iff hnow) (cursorExact_iff hsince)

open Twice TwoVaults

theorem integers_exact_now : SkewExact 1000 (rotation 1000) ∧ CursorExact 0 (store 1) (pullPast 0) ↔
    (1000 : Int64).toInt - (rotation 1000).ts.toInt < 2 ^ 63 ∧ (pullPast 0).since < 2 ^ 63 :=
  integers_exact_iff (by decide) (rotation 1000) 0 (store 1) (by decide)

/-- A timestamp of 2^63 seconds ago is accepted, and a cursor past the last `i64` selects all entries. -/
theorem extremes_wrap :
    ¬ (∀ (now : Int64) (signed : Signed), 0 ≤ now → SkewExact now signed) ∧
      ¬ ∀ (now : Now) (db : Db) (q : PullQuery), q.since < 2 ^ 64 → CursorExact now db q := by
  constructor
  · intro h
    have htest := (h 1000 (rotation (-9223372036854774808)) (by decide)).test
    have haccepted : ¬ Stale 1000 (rotation (-9223372036854774808)) := by
      rw [stale_iff]
      decide
    exact absurd (htest.mp haccepted) (by decide)
  · intro h
    have hanswer : (exec (pull 0 (pullPast (2 ^ 63))) (store 1)).1 =
        .ok ⟨[⟨.b64 (.uuid 30), .b64 (.other 1), .b64 (.uuid nil)⟩], 2 ^ 63⟩ := by decide +kernel
    obtain ⟨key, hkey, hrows⟩ := (h 0 (store 1) (pullPast (2 ^ 63)) (by decide)).rows _ hanswer
    have hnone : wantedRows (store 1) (pullPast (2 ^ 63)) key = [] := by
      unfold wantedRows
      exact List.filter_eq_nil_iff.mpr (by simp [store, pullPast])
    rw [hnone] at hrows
    cases hrows

end SshVault.Relay
