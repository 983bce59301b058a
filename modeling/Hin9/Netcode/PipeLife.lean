import Hin9.Netcode.Pipe
import Hin9.Lib.Runs

/-!
# `Netcode.PipeLife` — how a pipe ends (`pipe.c`)

Here the bytes do not matter, and the read and decode callbacks are arbitrary: what they do with a buffer is a `Reply`
that comes with the event, a list of buffers for the queue and whether the input is done with it. What matters is when a
pipe is closed, that it is freed once, and that nothing looks at it afterwards.

Two things go wrong. A read that is refused leaves its buffer in the list of reads, although the caller frees it, so the
list is never empty again and neither is the pipe freed. A write that is refused inside `hin_pipe_write_callback` closes
and frees the pipe, and the callback goes on to `hin_pipe_advance` with it.
-/

namespace Hin9
namespace Netcode

open Lib

/-! ## Callbacks of any kind -/

/-- What a read or decode callback does with a buffer. -/
structure Reply where
  que : List Buffer := []
  done : Bool := false

/-- `hin_pipe_process_buffer` on a buffer of `num` bytes. -/
def hinPipeProcess (p : Pipe) (num : Nat) (r : Reply) : Pipe :=
  if p.output.inactive then p
  else
    let pos := if p.input.offsets then p.input.pos + num else p.input.pos
    let left := if p.input.count then p.left - num else p.left
    let done := p.input.done || (p.input.count && decide (left ≤ 0))
    { p with
      left
      input := { p.input with pos, done := done || r.done }
      writeQue := p.writeQue ++ r.que }

/-- With `hin_pipe_copy_raw` for a callback it is the function of `Netcode.Pipe`. -/
theorem hinPipeProcess_copyRaw (p : Pipe) (b : Buffer) :
    hinPipeProcess p b.count { que := if b.count = 0 then [] else [b] } = hinPipeProcessBuffer p b := by
  unfold hinPipeProcess hinPipeProcessBuffer hinPipeCopyRaw hinPipeAppendRaw
  by_cases hout : p.output.inactive = true
  · rw [if_pos hout, if_pos hout]
  · rw [if_neg hout, if_neg hout]
    by_cases hcount : b.count = 0
    · simp [hcount]
    · simp [hcount]

/-- `free (pipe)` was called. -/
def Pipe.freed (p : Pipe) : Bool := p.log.contains .free

/-! ## The pipe where `hin_pipe_advance` is entered -/

def startEntry (p : Pipe) : Pipe :=
  let p := if p.hashFlag then { p with hash := 6883 } else p
  { p with output := { p.output with done := true } }

/-- In `hin_pipe_read_callback`, after `num` bytes. -/
def readEntry (p : Pipe) (num : Nat) (r : Reply) : Pipe :=
  let p := if num = 0 then { p with input := { p.input with done := true } } else p
  let p := hinPipeProcess { p with reading := p.reading.tail } num r
  if p.writeQue.isEmpty then { p with output := { p.output with done := true } } else p

/-- In `hin_pipe_write_callback`, after a whole buffer was written. -/
def writeEntry (sub : Submit) (p : Pipe) (b : Buffer) : Pipe :=
  let hash := if p.hashFlag then b.view.foldl hashByte p.hash else p.hash
  let p := { p with output := { p.output with done := true }, count := p.count + b.count, hash }
  let p := { p with writing := p.writing.tail }
  if p.writeQue.isEmpty then p else (hinPipeWriteNext sub p).1

/-- In `hin_pipe_finish`. -/
def finishEntry (p : Pipe) (r : Reply) : Pipe :=
  let p := hinPipeProcess { p with input := { p.input with done := true } } 0 r
  if p.writing.isEmpty then { p with output := { p.output with done := true } } else p

theorem view_take_count (b : Buffer) : b.view.take b.count = b.view := by
  apply List.take_of_length_le
  simp [Buffer.view]

theorem hinPipeWriteCallback_whole (sub : Submit) (p : Pipe) (b : Buffer) :
    hinPipeWriteCallback sub p b b.count le_rfl = hinPipeAdvance sub (writeEntry sub p b) := by
  unfold hinPipeWriteCallback writeEntry
  rw [if_neg (lt_irrefl _), view_take_count]

/-! ## The steps -/

/-- A call of `hin_pipe_start`, a completion, or a call from whoever drives the input. -/
inductive LifeEvent where
  | start
  | readDone (num : Nat) (r : Reply)
  | readFailed (err : Nat) (r : Reply)
  | writeDone (num : Nat)
  | writeFailed (err : Nat)
  | feed (num : Nat) (r : Reply)
  | finish (r : Reply)

/-- Buffers of a size that a condensing pipe never waits to fill while enough is queued. -/
def Fits (que : List Buffer) : Prop := ∀ b ∈ que, b.sz ≤ READ_SZ * 2

/-- A pipe before `hin_pipe_start`. What a condensing pipe is started with is a head in a buffer of `READ_SZ`. -/
structure NewPipe where
  pipe : Pipe
  reading : pipe.reading = []
  writing : pipe.writing = []
  isOpen : pipe.output.inactive = false
  log : pipe.log = []
  fits : pipe.condense = true → Fits pipe.writeQue

/-- A pipe, and what can no longer be read off it: a refused read is listed whose buffer is gone, `hin_pipe_advance` was
    entered after the pipe was freed. -/
structure Life where
  pipe : Pipe
  started : Bool := false
  lost : Bool := false
  touched : Bool := false

def Life.new (c : NewPipe) : Life := { pipe := c.pipe }

/-- `hin_pipe_advance (pipe)`. -/
def Life.advance (s : Life) (sub : Submit) (entry : Pipe) : Life :=
  let p := hinPipeAdvance sub entry
  { s with
    pipe := p
    started := true
    lost := s.lost || (!sub.read && entry.reading.isEmpty && !p.reading.isEmpty)
    touched := s.touched || entry.freed }

/-- One event. A read delivers at most what it asked for, and one whose buffer is gone delivers nothing. Only an input that
    the pipe does not read itself is fed. -/
def lifeStep (s : Life) (e : Submit × LifeEvent) : Option Life :=
  match s.started, e.2 with
  | false, .start => some (s.advance e.1 (startEntry s.pipe))
  | true, .readDone num r =>
      match s.pipe.reading with
      | q :: _ => if (num : Int) ≤ q.count ∧ s.lost = false then some (s.advance e.1 (readEntry s.pipe num r)) else none
      | [] => none
  | true, .readFailed err r =>
      if s.pipe.reading.isEmpty || s.lost then none else some (s.advance e.1 (readEntry (s.pipe.inError err) 0 r))
  | true, .writeDone num =>
      match s.pipe.writing with
      | b :: _ =>
          if h : num < b.count then some { s with pipe := hinPipeWriteCallback e.1 s.pipe b num h.le }
          else if num = b.count then some (s.advance e.1 (writeEntry e.1 s.pipe b))
          else none
      | [] => none
  | true, .writeFailed err =>
      if s.pipe.writing.isEmpty then none else some { s with pipe := hinPipeWriteFailed s.pipe err }
  | true, .feed num r =>
      if s.pipe.input.inactive then some (s.advance e.1 (hinPipeProcess s.pipe num r)) else none
  | true, .finish r => if s.pipe.input.inactive then some (s.advance e.1 (finishEntry s.pipe r)) else none
  | _, _ => none

/-! ## What is promised -/

/-- The pipe was closed. -/
def Pipe.isClosed (p : Pipe) : Bool := p.output.inactive

/-- **How a pipe ends.** `driven` says that the input of the pipe is fed from outside. -/
structure Life.Sound (s : Life) (driven : Bool) : Prop where
  finishOnce : s.pipe.log.count .finish ≤ 1
  freedOnce : s.pipe.log.count .free ≤ 1
  freedEmpty : s.pipe.freed = true → s.pipe.reading = [] ∧ s.pipe.writing = []
  untouched : s.touched = false
  progress : s.started = true → s.pipe.reading = [] → s.pipe.writing = [] →
    driven = true ∨ s.pipe.isClosed = true
  ended : s.pipe.isClosed = true → s.pipe.reading = [] → s.pipe.writing = [] → s.pipe.freed = true

/-- What has to be so at a step: no read is refused, a write is refused inside the write callback only while a read is
    under way, and whoever drives the input does not call a pipe that was freed. -/
def Accepted (s : Life) (e : Submit × LifeEvent) : Prop :=
  e.1.read = true ∧
    match e.2 with
    | .writeDone num =>
        e.1.write = true ∨ s.pipe.reading ≠ [] ∨ s.pipe.writeQue = [] ∨ ∃ b ∈ s.pipe.writing, num < b.count
    | .feed _ r => s.pipe.freed = false ∧ (s.pipe.condense = true → Fits r.que)
    | .finish r => s.pipe.freed = false ∧ (s.pipe.condense = true → Fits r.que)
    | .readDone _ r => s.pipe.condense = true → Fits r.que
    | .readFailed _ r => s.pipe.condense = true → Fits r.que
    | _ => True

end Netcode
end Hin9
