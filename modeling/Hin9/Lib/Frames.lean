import Mathlib

/-!
# `Lib.Frames` — a stream cut into frames

A `Format` tells the length of the first frame of a list once enough of it is there to tell. `split` takes whole
frames off the front for as long as there are any; what it leaves is the incomplete tail.

* `split_append` — frames do not depend on how the stream arrives: the tail is taken up again with what comes next;
* `split_flatten`, `first_rest` — nothing is lost, and no whole frame is left.
-/

namespace Hin9.Lib.Frames

/-- A format of frames, by the length of the first one. -/
structure Format (α : Type) where
  total : List α → Option Nat
  pos : ∀ {xs : List α} {n : Nat}, total xs = some n → 0 < n
  stable : ∀ {xs : List α} {n : Nat} (ys : List α), total xs = some n → total (xs ++ ys) = some n

variable {α : Type} (F : Format α)

/-- The length of the first frame, where all of it is there. -/
def Format.first (xs : List α) : Option Nat :=
  match F.total xs with
  | none => none
  | some n => if n ≤ xs.length then some n else none

def Format.splitAux : Nat → List α → List (List α) × List α
  | 0, xs => ([], xs)
  | fuel + 1, xs =>
      match F.first xs with
      | none => ([], xs)
      | some n => (xs.take n :: (splitAux fuel (xs.drop n)).1, (splitAux fuel (xs.drop n)).2)

/-- The whole frames at the front, and what is left. -/
def Format.split (xs : List α) : List (List α) × List α := F.splitAux xs.length xs

variable {F} {xs ys : List α} {n : Nat}

theorem Format.first_spec (h : F.first xs = some n) : F.total xs = some n ∧ 0 < n ∧ n ≤ xs.length := by
  unfold Format.first at h
  split at h
  · exact absurd h (by simp)
  · rename_i m hm
    split at h
    · rename_i hle
      rw [← Option.some.inj h]
      exact ⟨hm, F.pos hm, hle⟩
    · exact absurd h (by simp)

theorem Format.first_eq (ht : F.total xs = some n) (hle : n ≤ xs.length) : F.first xs = some n := by
  unfold Format.first
  rw [ht]
  exact if_pos hle

/-- A whole frame stays one when more arrives. -/
theorem Format.first_append (ys : List α) (h : F.first xs = some n) : F.first (xs ++ ys) = some n := by
  obtain ⟨ht, -, hle⟩ := Format.first_spec h
  apply Format.first_eq (F.stable ys ht)
  rw [List.length_append]
  omega

/-- Any fuel that reaches the length of the list will do. -/
theorem Format.splitAux_fuel (F : Format α) : ∀ (fuel fuel' : Nat) (xs : List α), xs.length ≤ fuel → xs.length ≤ fuel' →
    F.splitAux fuel xs = F.splitAux fuel' xs := by
  intro fuel
  induction fuel with
  | zero =>
      intro fuel' xs h h'
      obtain rfl : xs = [] := List.length_eq_zero_iff.mp (Nat.le_zero.mp h)
      cases fuel' with
      | zero => rfl
      | succ fuel' =>
          unfold Format.splitAux
          cases hf : F.first ([] : List α) with
          | none => rfl
          | some n =>
              obtain ⟨-, hpos, hle⟩ := Format.first_spec hf
              exact absurd hle (Nat.not_le.mpr hpos)
  | succ fuel ih =>
      intro fuel' xs h h'
      cases fuel' with
      | zero =>
          obtain rfl : xs = [] := List.length_eq_zero_iff.mp (Nat.le_zero.mp h')
          unfold Format.splitAux
          cases hf : F.first ([] : List α) with
          | none => rfl
          | some n =>
              obtain ⟨-, hpos, hle⟩ := Format.first_spec hf
              exact absurd hle (Nat.not_le.mpr hpos)
      | succ fuel' =>
          unfold Format.splitAux
          cases hf : F.first xs with
          | none => rfl
          | some n =>
              obtain ⟨-, hpos, hle⟩ := Format.first_spec hf
              have hdrop : (xs.drop n).length ≤ fuel ∧ (xs.drop n).length ≤ fuel' := by
                rw [List.length_drop]
                omega
              dsimp only
              rw [ih fuel' (xs.drop n) hdrop.1 hdrop.2]

theorem Format.split_none (h : F.first xs = none) : F.split xs = ([], xs) := by
  unfold Format.split
  cases hl : xs.length with
  | zero => rfl
  | succ k =>
      unfold Format.splitAux
      rw [h]

theorem Format.split_some (h : F.first xs = some n) :
    F.split xs = (xs.take n :: (F.split (xs.drop n)).1, (F.split (xs.drop n)).2) := by
  obtain ⟨-, hpos, hle⟩ := Format.first_spec h
  obtain ⟨k, hk⟩ : ∃ k, xs.length = k + 1 := ⟨xs.length - 1, by omega⟩
  have haux : F.splitAux k (xs.drop n) = F.split (xs.drop n) := by
    apply Format.splitAux_fuel
    · rw [List.length_drop]
      omega
    · exact Nat.le_refl _
  conv_lhs => unfold Format.split
  rw [hk, Format.splitAux, h]
  dsimp only
  rw [haux]

/-- **The induction a stream of frames carries**: frame after frame, until none is whole. -/
theorem Format.split_induct (F : Format α) {P : List α → Prop} (hnone : ∀ xs, F.first xs = none → P xs)
    (hsome : ∀ xs n, F.first xs = some n → P (xs.drop n) → P xs) (xs : List α) : P xs := by
  induction hl : xs.length using Nat.strong_induction_on generalizing xs with
  | _ l ih =>
      cases hf : F.first xs with
      | none => exact hnone xs hf
      | some n =>
          obtain ⟨-, hpos, hle⟩ := Format.first_spec hf
          apply hsome xs n hf
          apply ih (xs.drop n).length _ _ rfl
          rw [List.length_drop]
          omega

/-- Nothing is lost. -/
theorem Format.split_flatten (F : Format α) (xs : List α) : (F.split xs).1.flatten ++ (F.split xs).2 = xs := by
  induction xs using F.split_induct with
  | hnone xs h => rw [Format.split_none h]; rfl
  | hsome xs n h ih => rw [Format.split_some h, List.flatten_cons, List.append_assoc, ih, List.take_append_drop]

/-- No whole frame is left. -/
theorem Format.first_rest (F : Format α) (xs : List α) : F.first (F.split xs).2 = none := by
  induction xs using F.split_induct with
  | hnone xs h => rw [Format.split_none h]; exact h
  | hsome xs n h ih => rw [Format.split_some h]; exact ih

/-- **Frames do not depend on how the stream arrives.** -/
theorem Format.split_append (F : Format α) (xs ys : List α) : F.split (xs ++ ys) =
    ((F.split xs).1 ++ (F.split ((F.split xs).2 ++ ys)).1, (F.split ((F.split xs).2 ++ ys)).2) := by
  induction xs using F.split_induct with
  | hnone xs h => rw [Format.split_none h]; rfl
  | hsome xs n h ih =>
      obtain ⟨-, -, hle⟩ := Format.first_spec h
      have htake : (xs ++ ys).take n = xs.take n := List.take_append_of_le_length hle
      have hdrop : (xs ++ ys).drop n = xs.drop n ++ ys := List.drop_append_of_le_length hle
      rw [Format.split_some (Format.first_append ys h), Format.split_some h, htake, hdrop, ih]
      rfl

end Hin9.Lib.Frames
