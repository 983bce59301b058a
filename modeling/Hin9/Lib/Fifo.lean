import Mathlib

/-!
# `Lib.Fifo` — an unbounded first-in first-out channel, and logs of positioned writes

The purpose of anything that forwards a stream: `put` appends at the back, `take n` moves the first `n`
elements to the consumer. Nothing is lost, duplicated or reordered (`Fifo.run_all`), whatever the operations
and however the takes cut the stream.

`Contiguous` is the companion for a consumer that records where each piece went.
-/

namespace Hin9.Lib

variable {α : Type}

/-- What the consumer has got so far, and what is still in the channel. -/
@[ext] structure Fifo (α : Type) where
  sent : List α
  pending : List α

namespace Fifo

/-- Everything that ever entered the channel. -/
def all (f : Fifo α) : List α := f.sent ++ f.pending

inductive Op (α : Type) where
  | put (xs : List α)
  | take (n : Nat)

def step (f : Fifo α) : Op α → Fifo α
  | .put xs => ⟨f.sent, f.pending ++ xs⟩
  | .take n => ⟨f.sent ++ f.pending.take n, f.pending.drop n⟩

def run (f : Fifo α) (ops : List (Op α)) : Fifo α := ops.foldl step f

/-- What the operations put into the channel. -/
def puts : List (Op α) → List α
  | [] => []
  | .put xs :: ops => xs ++ puts ops
  | .take _ :: ops => puts ops

theorem step_all (f : Fifo α) (op : Op α) : (f.step op).all = f.all ++ puts [op] := by
  cases op with
  | put xs => simp [step, all, puts]
  | take n => simp [step, all, puts]

theorem puts_append (ops ops' : List (Op α)) : puts (ops ++ ops') = puts ops ++ puts ops' := by
  induction ops with
  | nil => rfl
  | cons op ops ih =>
      cases op with
      | put xs => simp [puts, ih]
      | take n => simp [puts, ih]

theorem run_append (f : Fifo α) (ops ops' : List (Op α)) : f.run (ops ++ ops') = (f.run ops).run ops' :=
  List.foldl_append

/-- **Conservation.** What was sent, followed by what is pending, is what was there followed by what was put. -/
theorem run_all (f : Fifo α) (ops : List (Op α)) : (f.run ops).all = f.all ++ puts ops := by
  induction ops generalizing f with
  | nil => simp [run, puts]
  | cons op ops ih =>
      have h := ih (f.step op)
      rw [step_all, List.append_assoc, ← puts_append] at h
      exact h

end Fifo

/-! ## Positioned writes -/

/-- The pieces of a log lie one behind the other from `start` on. -/
def Contiguous (start : Nat) : List (Nat × List α) → Prop
  | [] => True
  | (pos, xs) :: log => pos = start ∧ Contiguous (start + xs.length) log

/-- The elements of a log, in the order they were written. -/
def written (log : List (Nat × List α)) : List α := log.flatMap (·.2)

theorem written_append (log log' : List (Nat × List α)) : written (log ++ log') = written log ++ written log' :=
  List.flatMap_append

/-- A log grows contiguously when the next piece is written where the pieces so far end. -/
theorem Contiguous.snoc {start pos : Nat} {log : List (Nat × List α)} {xs : List α}
    (h : Contiguous start log) (hpos : pos = start + (written log).length) :
    Contiguous start (log ++ [(pos, xs)]) := by
  induction log generalizing start with
  | nil => exact ⟨by simpa [written] using hpos, trivial⟩
  | cons e log ih =>
      refine ⟨h.1, ih h.2 ?_⟩
      rw [hpos, written, List.flatMap_cons, List.length_append, Nat.add_assoc]
      rfl

end Hin9.Lib
