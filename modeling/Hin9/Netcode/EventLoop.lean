import Hin9.Netcode.Uring

/-!
# `Netcode.EventLoop` — one batch of completions (`uring.c`)

`hin_event_process` copies up to 64 completions out of the ring and goes through them in a `for` loop. The loop is
bounded by `err`, the number of completions that were peeked; the body stores what the callback returned in the same
variable. From the second turn on it is the last callback that decides whether there is another one.

`hinEventProcess` follows the loop and writes down what it does: the callback of a slot is run, a slot is marked seen, a
slot behind the last completion is read. `served_iff` says which callbacks get the whole batch served.
-/

namespace Hin9
namespace EventLoop

open Uring

variable {κ : Type}

/-- A completion in the ring: the request it is about, the buffer in its `user_data` (as it is when its turn comes) and
    its result. -/
structure Cqe (κ : Type) where
  op : Op
  buffer : Buffer κ
  res : Int
deriving Repr, DecidableEq

/-- What a turn of the loop does, by the slot of `cqes` it works on. -/
inductive Event (κ : Type) where
  | called (slot : Nat) (done : Completion κ)
  | seen (slot : Nat)
  | overran (slot : Nat)
deriving Repr, DecidableEq

/-! ## The loop -/

/-- The `for` loop from slot `i` on, with the bound `err` and the slots that were filled. `ret` is what the callbacks
    return, one call after the other. A slot that was not filled holds whatever the stack held before, and what the
    loop does with it is not followed any further. -/
def turns (ret : Nat → Int) : Nat → Int → List (Cqe κ) → List (Event κ)
  | i, err, [] => if (i : Int) < err then [.overran i] else []
  | i, err, cqe :: cqes =>
      if (i : Int) < err then
        -- the bound of the loop is overwritten here
        let err := ret i
        .called i (Uring.hinEventProcess cqe.op cqe.buffer cqe.res fun _ _ => err) :: .seen i :: turns ret (i + 1) err cqes
      else []

/-- The number of completions `io_uring_peek_batch_cqe` may copy. -/
def maxBatch : Nat := 64

/-- `io_uring_peek_batch_cqe`. -/
def peekBatch (ready : List (Cqe κ)) : List (Cqe κ) := ready.take maxBatch

/-- `hin_event_process` on the completions that are ready. -/
def hinEventProcess (ret : Nat → Int) (ready : List (Cqe κ)) : List (Event κ) :=
  turns ret 0 (peekBatch ready).length (peekBatch ready)

/-! ## What a batch is owed -/

/-- The callbacks that were run, each with its slot, the buffer and the result it was given. -/
def calls (events : List (Event κ)) : List (Nat × Buffer κ × Int) :=
  events.filterMap fun e =>
    match e with
    | .called slot done => some (slot, done.seen, done.res)
    | _ => none

/-- The slots that were marked seen. -/
def marked (events : List (Event κ)) : List Nat :=
  events.filterMap fun e =>
    match e with
    | .seen slot => some slot
    | _ => none

/-- The slots that were read without having been filled. -/
def overruns (events : List (Event κ)) : List Nat :=
  events.filterMap fun e =>
    match e with
    | .overran slot => some slot
    | _ => none

/-- The calls that the completions in the slots from `i` on ask for. -/
def due : Nat → List (Cqe κ) → List (Nat × Buffer κ × Int)
  | _, [] => []
  | i, cqe :: cqes => (i, cqe.buffer.setActive false, cqe.res) :: due (i + 1) cqes

/-- **The batch is served**: the callback of every completion is run once, in order and with its own result, these
    completions are marked seen and no other, and nothing behind them is read. -/
structure Served (i : Nat) (cqes : List (Cqe κ)) (events : List (Event κ)) : Prop where
  calls : calls events = due i cqes
  marked : marked events = List.range' i cqes.length
  inside : overruns events = []

/-- What the bound of the loop has to be at slot `i`, and what the callbacks have to return from there on: more than the
    slots done so far while there are completions left, and no more than that behind the last one. -/
def Bounded (ret : Nat → Int) : Nat → Int → Nat → Prop
  | i, err, 0 => err ≤ i
  | i, err, n + 1 => (i : Int) < err ∧ Bounded ret (i + 1) (ret i) n

@[simp] theorem due_length (i : Nat) (cqes : List (Cqe κ)) : (due i cqes).length = cqes.length := by
  induction cqes generalizing i with
  | nil => rfl
  | cons cqe cqes ih => exact congrArg (· + 1) (ih (i + 1))

/-- One turn serves one completion, and leaves the rest of the batch to the turns behind it. -/
theorem served_cons {i : Nat} {cqe : Cqe κ} {cqes : List (Cqe κ)} {err : Int} {events : List (Event κ)} :
    Served i (cqe :: cqes)
        (.called i (Uring.hinEventProcess cqe.op cqe.buffer cqe.res fun _ _ => err) :: .seen i :: events) ↔
      Served (i + 1) cqes events := by
  have hcalls : calls (.called i (Uring.hinEventProcess cqe.op cqe.buffer cqe.res fun _ _ => err) :: .seen i :: events) =
      (i, cqe.buffer.setActive false, cqe.res) :: calls events := rfl
  have hmarked : marked (.called i (Uring.hinEventProcess cqe.op cqe.buffer cqe.res fun _ _ => err) :: .seen i :: events) =
      i :: marked events := rfl
  have hrange : List.range' i (cqe :: cqes).length = i :: List.range' (i + 1) cqes.length := List.range'_succ
  constructor
  · intro h
    refine ⟨?_, ?_, h.inside⟩
    · have hc := h.calls
      rw [hcalls] at hc
      exact (List.cons.inj hc).2
    · have hm := h.marked
      rw [hmarked, hrange] at hm
      exact (List.cons.inj hm).2
  · intro h
    refine ⟨?_, ?_, h.inside⟩
    · rw [hcalls, h.calls]
      rfl
    · rw [hmarked, h.marked, hrange]

/-- **The slots from `i` on are served exactly when the bounds are right**, by induction on the completions left. -/
theorem turns_served_iff (ret : Nat → Int) (i : Nat) (err : Int) (cqes : List (Cqe κ)) :
    Served i cqes (turns ret i err cqes) ↔ Bounded ret i err cqes.length := by
  induction cqes generalizing i err with
  | nil =>
      change Served i [] (turns ret i err []) ↔ err ≤ (i : Int)
      unfold turns
      by_cases hlt : (i : Int) < err
      · rw [if_pos hlt]
        -- the loop goes on behind the last completion
        constructor
        · intro h
          exact absurd h.inside (List.cons_ne_nil i [])
        · intro hle
          omega
      · rw [if_neg hlt]
        constructor
        · intro _
          omega
        · intro _
          exact ⟨rfl, rfl, rfl⟩
  | cons cqe cqes ih =>
      unfold turns
      by_cases hlt : (i : Int) < err
      · rw [if_pos hlt, served_cons, ih]
        constructor
        · intro h
          exact ⟨hlt, h⟩
        · intro h
          exact h.2
      · rw [if_neg hlt]
        -- the loop ends with completions left
        constructor
        · intro h
          have hnone : due i (cqe :: cqes) = [] := h.calls.symm
          exact absurd hnone (List.cons_ne_nil _ _)
        · intro h
          exact absurd h.1 hlt

/-- The bounds slot by slot: every callback but the last returns more than the number of completions done by then, and
    the last one returns no more than that. -/
theorem bounded_iff (ret : Nat → Int) (i : Nat) (err : Int) (n : Nat) :
    Bounded ret i err n ↔
      (n = 0 → err ≤ i) ∧ (0 < n → (i : Int) < err) ∧
      (∀ k, k + 1 < n → ((i + k + 1 : Nat) : Int) < ret (i + k)) ∧ (∀ k, k + 1 = n → ret (i + k) ≤ (i + n : Nat)) := by
  induction n generalizing i err with
  | zero =>
      constructor
      · intro h
        exact ⟨fun _ => h, fun h0 => absurd h0 (by omega), fun k hk => absurd hk (by omega), fun k hk => absurd hk (by omega)⟩
      · intro h
        exact h.1 rfl
  | succ n ih =>
      show ((i : Int) < err ∧ Bounded ret (i + 1) (ret i) n) ↔ _
      rw [ih]
      constructor
      · rintro ⟨hlt, hlast, hfirst, hmore, hend⟩
        refine ⟨fun h0 => absurd h0 (by omega), fun _ => hlt, ?_, ?_⟩
        · intro k hk
          cases k with
          | zero => exact_mod_cast hfirst (by omega)
          | succ k =>
              have hk := hmore k (by omega)
              rw [show i + 1 + k = i + (k + 1) by omega] at hk
              exact hk
        · intro k hk
          cases k with
          | zero =>
              obtain rfl : n = 0 := by omega
              exact hlast rfl
          | succ k =>
              have hk := hend k (by omega)
              rw [show i + 1 + k = i + (k + 1) by omega, show i + 1 + n = i + (n + 1) by omega] at hk
              exact hk
      · rintro ⟨-, hlt, hmore, hend⟩
        refine ⟨hlt (by omega), ?_, ?_, ?_, ?_⟩
        · rintro rfl
          exact hend 0 rfl
        · intro hpos
          exact_mod_cast hmore 0 (by omega)
        · intro k hk
          have hk := hmore (k + 1) (by omega)
          rw [show i + (k + 1) = i + 1 + k by omega] at hk
          exact hk
        · intro k hk
          have hk := hend (k + 1) (by omega)
          rw [show i + (k + 1) = i + 1 + k by omega, show i + (n + 1) = i + 1 + n by omega] at hk
          exact hk

/-- **Which callbacks get a batch served.** The whole batch is served, and nothing else read, exactly when every callback
    but the last returns more than the number of completions done with its own, and the last one no more than that. -/
theorem served_iff (ret : Nat → Int) (ready : List (Cqe κ)) :
    Served 0 (peekBatch ready) (hinEventProcess ret ready) ↔
      (∀ k, k + 1 < (peekBatch ready).length → ((k + 1 : Nat) : Int) < ret k) ∧
      (∀ k, k + 1 = (peekBatch ready).length → ret k ≤ ((peekBatch ready).length : Nat)) := by
  unfold hinEventProcess
  rw [turns_served_iff, bounded_iff]
  simp only [Nat.zero_add]
  constructor
  · rintro ⟨-, -, hmore, hend⟩
    exact ⟨hmore, hend⟩
  · rintro ⟨hmore, hend⟩
    refine ⟨fun h0 => ?_, fun hpos => ?_, hmore, hend⟩
    · rw [h0]
    · exact_mod_cast hpos

/-- Two reads that are complete, in a batch. -/
def twoReads : List (Cqe Unit) :=
  [⟨.recv 7 100, { callback := (), fd := 7, count := 100 }, 5⟩, ⟨.recv 8 100, { callback := (), fd := 8, count := 100 }, 6⟩]

/-- Callbacks that keep their buffer return `0`, and the second read of the batch is not looked at. -/
theorem batch_not_served :
    ¬ ∀ (ret : Nat → Int) (ready : List (Cqe Unit)), Served 0 (peekBatch ready) (hinEventProcess ret ready) := by
  intro h
  have hcalls := (h (fun _ => 0) twoReads).calls
  exact absurd hcalls (by decide)

end EventLoop
end Hin9
