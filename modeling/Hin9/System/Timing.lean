import Hin9.Basic.Dlist
import Hin9.Lib.Runs

/-!
# `System.Timing` — the timer list (`timing.c`)

One list holds every timer that is armed, earliest first. `hin_timer_update` moves a timer by searching from its own
neighbours, and `hin_timer_check` walks the list from its head and stops at the first timer that is not due yet.

The callbacks are those the server has: `httpd_timeout_callback` arms its timer again for five seconds from now or takes
it off the list, `hin_cache_timeout_callback` gives up a reference, and the timer goes when that was the last one.
-/

namespace Hin9
namespace System

/-- What the callback of a timer does. Time goes on by `delay` between `time (NULL)` in the check and in the callback. -/
inductive Callback where
  | wait (delay : Nat)
  | close
  | keep
deriving Repr, DecidableEq

/-- `timers`, and the field `time` of the `n` timers there are. `armed` records which of them an update asked for. -/
structure Timers (n : Nat) where
  time : Fin n → Int := fun _ => 0
  list : Dlist (Fin n) := {}
  armed : Fin n → Bool := fun _ => false

namespace Timers

variable {n : Nat} (t : Timers n)

def setTime (a : Fin n) (new : Int) : Timers n := { t with time := Function.update t.time a new }

def setArmed (a : Fin n) (on : Bool) : Timers n := { t with armed := Function.update t.armed a on }

def setList (list : Dlist (Fin n)) : Timers n := { t with list := list }

/-- `hin_timer_remove`. -/
def hinTimerRemove (a : Fin n) : Timers n :=
  ((t.setList (t.list.basicDlistRemove a)).setTime a 0).setArmed a false

/-- `for (base = ..; base; base = base->next) if (timer1->time >= new) break`. -/
def searchNext (new : Int) : Nat → Option (Fin n) → Option (Fin n)
  | 0, base => base
  | _, none => none
  | fuel + 1, some b => if t.time b ≥ new then some b else searchNext new fuel (t.list.node b).next

/-- `for (base = ..; base; base = base->prev) if (timer1->time <= new) break`. -/
def searchPrev (new : Int) : Nat → Option (Fin n) → Option (Fin n)
  | 0, base => base
  | _, none => none
  | fuel + 1, some b => if t.time b ≤ new then some b else searchPrev new fuel (t.list.node b).prev

/-- `hin_timer_update`. No list is longer than the number of timers. -/
def hinTimerUpdate (a : Fin n) (new : Int) : Timers n :=
  if t.time a = new then t.setArmed a true
  else
    let list :=
      if t.time a < new then
        match t.searchNext new n (t.list.node a).next with
        | some base => (t.list.basicDlistRemove a).basicDlistAddBefore base a
        | none => (t.list.basicDlistRemove a).basicDlistAppend a
      else
        match t.searchPrev new n (t.list.node a).prev with
        | some base => (t.list.basicDlistRemove a).basicDlistAddAfter base a
        | none => (t.list.basicDlistRemove a).basicDlistPrepend a
    ((t.setList list).setTime a new).setArmed a true

/-- `timer->callback (timer, tm)`: the timers afterwards, and what it returns. -/
def callback (tm : Int) (a : Fin n) : Callback → Timers n × Int
  | .wait delay => (t.hinTimerUpdate a (tm + delay + 5), 0)
  | .close => (t.hinTimerRemove a, 1)
  | .keep => (t, 1)

/-- The loop of `hin_timer_check`: the timers afterwards, and those whose callback it called. -/
def checkLoop (tm : Int) (answers : Fin n → Callback) : Nat → Timers n → Option (Fin n) → Timers n × List (Fin n)
  | 0, t, _ => (t, [])
  | _, t, none => (t, [])
  | fuel + 1, t, some a =>
      let elem := (t.list.node a).next
      if t.time a > tm then (t, [])
      else
        let (t', ret) := t.callback tm a (answers a)
        let t' := if ret = 0 ∧ t'.time a ≤ tm then t'.hinTimerRemove a else t'
        let (t'', rest) := checkLoop tm answers fuel t' elem
        (t'', a :: rest)

/-- `hin_timer_check` at time `tm`. -/
def hinTimerCheck (tm : Int) (answers : Fin n → Callback) : Timers n × List (Fin n) :=
  checkLoop tm answers (n + 1) t t.list.head.next

/-- The loop of `hin_timer_flush`. -/
def flushLoop : Nat → Timers n → Option (Fin n) → Timers n
  | 0, t, _ => t
  | _, t, none => t
  | fuel + 1, t, some a => flushLoop fuel (t.setTime a 0) (t.list.node a).next

/-- `hin_timer_flush`. -/
def hinTimerFlush (tm : Int) (answers : Fin n → Callback) : Timers n × List (Fin n) :=
  (flushLoop n t t.list.head.next).hinTimerCheck tm answers

end Timers

/-- A call on the timers. -/
inductive TimerCall (n : Nat) where
  | update (a : Fin n) (new : Int)
  | remove (a : Fin n)
  | check (tm : Int) (answers : Fin n → Callback)
  | flush (tm : Int) (answers : Fin n → Callback)

def timerStep {n : Nat} (t : Timers n) : TimerCall n → Option (Timers n)
  | .update a new => some (t.hinTimerUpdate a new)
  | .remove a => some (t.hinTimerRemove a)
  | .check tm answers => some (t.hinTimerCheck tm answers).1
  | .flush tm answers => some (t.hinTimerFlush tm answers).1

end System
end Hin9
