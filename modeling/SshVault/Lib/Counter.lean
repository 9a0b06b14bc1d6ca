import Mathlib

/-!
# A bounded counter

A counter below a bound takes ticks, and is raised to values that come from outside. Whether it ever reaches the
bound can be told from the values and the number of ticks after each.
-/

namespace Lib

inductive CounterEvent where
  | tick
  | raise (value : Nat)

namespace CounterEvent

/-- How many ticks there are. -/
def ticks : List CounterEvent → Nat
  | [] => 0
  | tick :: es => ticks es + 1
  | raise _ :: es => ticks es

/-- No tick takes the counter to the bound. -/
def Lasts (bound : Nat) : Nat → List CounterEvent → Prop
  | _, [] => True
  | c, tick :: es => c + 1 < bound ∧ Lasts bound (c + 1) es
  | c, raise value :: es => Lasts bound (max c value) es

/-- Every value that comes in leaves room for the ticks after it. -/
def Fit (bound : Nat) : List CounterEvent → Prop
  | [] => True
  | tick :: es => Fit bound es
  | raise value :: es => value + ticks es < bound ∧ Fit bound es

theorem lasts_iff {bound : Nat} {es : List CounterEvent} {c : Nat} (hc : c < bound) (hes : ∀ n, raise n ∈ es → n < bound) :
    Lasts bound c es ↔ c + ticks es < bound ∧ Fit bound es := by
  induction es generalizing c with
  | nil => exact ⟨fun _ => ⟨hc, trivial⟩, fun _ => trivial⟩
  | cons e es ih =>
    have hrest : ∀ n, raise n ∈ es → n < bound := fun n hn => hes n (List.mem_cons_of_mem _ hn)
    cases e with
    | tick =>
      unfold Lasts ticks Fit
      constructor
      · rintro ⟨hlt, h⟩
        obtain ⟨hsum, hfit⟩ := (ih hlt hrest).mp h
        exact ⟨by omega, hfit⟩
      · rintro ⟨hsum, hfit⟩
        exact ⟨by omega, (ih (by omega) hrest).mpr ⟨by omega, hfit⟩⟩
    | raise value =>
      have hvalue := hes value List.mem_cons_self
      unfold Lasts ticks Fit
      rw [ih (max_lt hc hvalue) hrest]
      constructor
      · rintro ⟨hsum, hfit⟩
        exact ⟨by omega, by omega, hfit⟩
      · rintro ⟨hsum, hvalue, hfit⟩
        refine ⟨?_, hfit⟩
        rcases max_choice c value with hm | hm <;> rw [hm]
        · exact hsum
        · exact hvalue

end CounterEvent

end Lib
