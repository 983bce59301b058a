import Hin9.Basic.Bytes

/-!
# `Netcode.Pipe` — pipes (`pipe.c`)

A pipe moves bytes from one descriptor to another: `hin_pipe_read_next` submits a read into a fresh buffer,
the completion passes the buffer to the read callback, which queues it, and `hin_pipe_write_next` submits the
head of the queue. The callback here is `hin_pipe_copy_raw`, with no decoder in front.

A buffer is its storage with the view `ptr`/`count` into it, and cannot be built with a view that leaves the
storage. Which submissions the kernel queue accepts is the parameter `Submit` of every call. Descriptors and
TLS handles are only handed through to the requests and are left out. `log` records, in order, the callbacks a
pipe makes and its `free`, which is all that is visible of closing it.
-/

namespace Hin9
namespace Netcode

/-- `READ_SZ`. -/
def READ_SZ : Nat := 4096

/-! ## Buffers -/

/-- `hin_buffer_t`: the storage `buffer[0 … sz)`, the view into it, and the file position of the request. -/
structure Buffer where
  store : Bytes
  ptr : Nat
  count : Nat
  pos : Nat := 0
  offsets : Bool := false
  bounds : ptr + count ≤ store.length
deriving DecidableEq

namespace Buffer

def sz (b : Buffer) : Nat := b.store.length

/-- The bytes of the view. -/
def view (b : Buffer) : Bytes := (b.store.drop b.ptr).take b.count

/-- `buf->ptr += len; buf->count -= len`. -/
def consume (b : Buffer) (len : Nat) (h : len ≤ b.count) : Buffer :=
  { b with ptr := b.ptr + len, count := b.count - len, bounds := by have := b.bounds; omega }

/-- `memmove (buffer->buffer, buffer->ptr, buffer->count); buffer->ptr = buffer->buffer`. -/
def compact (b : Buffer) : Buffer :=
  { b with
    store := b.view ++ b.store.drop b.count
    ptr := 0
    bounds := by have := b.bounds; simp only [view, List.length_append, List.length_take, List.length_drop]; omega }

/-- `memcpy (&buffer->ptr[buffer->count], data, len); buffer->count += len`, where the data fits. -/
def append (b : Buffer) (data : Bytes) (h : b.ptr + b.count + data.length ≤ b.sz) : Buffer :=
  { b with
    store := b.store.take (b.ptr + b.count) ++ data ++ b.store.drop (b.ptr + b.count + data.length)
    count := b.count + data.length
    bounds := by
      have := b.bounds
      simp only [sz] at h
      simp only [List.length_append, List.length_take, List.length_drop]
      omega }

/-- A buffer filled by a read: the storage of `READ_SZ` bytes holds the data from its start on. -/
def ofRead (data : Bytes) : Buffer :=
  ⟨data ++ List.replicate (READ_SZ - data.length) 0, 0, data.length, 0, false, by simp⟩

end Buffer

/-! ## The pipe -/

/-- The flags and the position of one direction (`hin_pipe_dir_t`). -/
structure PipeDir where
  done : Bool := false
  inactive : Bool := false
  offsets : Bool := false
  count : Bool := false
  pos : Nat := 0
deriving Repr, DecidableEq

/-- A submitted read: the size asked for and the file position. -/
structure ReadReq where
  count : Int
  pos : Nat
deriving Repr, DecidableEq

/-- What a pipe does to the outside: its callbacks and its `free`. -/
inductive Call where
  | inError (err : Nat)
  | outError (err : Nat)
  | finish
  | free
deriving Repr, DecidableEq

/-- `hin_pipe_t`. -/
structure Pipe where
  input : PipeDir := {}
  output : PipeDir := {}
  condense : Bool := false
  hashFlag : Bool := false
  count : Nat := 0
  left : Int := 0
  writeQue : List Buffer := []
  writing : List Buffer := []
  reading : List ReadReq := []
  finishCb : Bool := true
  inErrorCb : Bool := true
  outErrorCb : Bool := true
  hash : UInt64 := 0
  log : List Call := []

/-- Whether the kernel queue accepts a read, a write. -/
structure Submit where
  read : Bool
  write : Bool
deriving Repr, DecidableEq

def queued (que : List Buffer) : Nat := (que.map (·.count)).sum

namespace Pipe

def inError (p : Pipe) (err : Nat) : Pipe :=
  if p.inErrorCb then { p with log := p.log ++ [.inError err] } else p

def outError (p : Pipe) (err : Nat) : Pipe :=
  if p.outErrorCb then { p with log := p.log ++ [.outError err] } else p

end Pipe

def hinPipeClose (p : Pipe) : Pipe :=
  let log := if p.finishCb then p.log ++ [.finish] else p.log
  let freed := p.reading.isEmpty && p.writing.isEmpty
  { p with
    input := { p.input with done := true, inactive := true }
    output := { p.output with done := true, inactive := true }
    finishCb := false
    outErrorCb := false
    inErrorCb := false
    writeQue := []
    log := if freed then log ++ [.free] else log }

def hinPipeAppendRaw (p : Pipe) (b : Buffer) : Pipe := { p with writeQue := p.writeQue ++ [b] }

/-- `hin_pipe_copy_raw`; `true` says that the buffer was not kept. -/
def hinPipeCopyRaw (p : Pipe) (b : Buffer) : Pipe × Bool :=
  if b.count = 0 then (p, true) else (hinPipeAppendRaw p b, false)

def hinPipeProcessBuffer (p : Pipe) (b : Buffer) : Pipe :=
  if p.output.inactive then p
  else
    let pos := if p.input.offsets then p.input.pos + b.count else p.input.pos
    let left := if p.input.count then p.left - b.count else p.left
    let done := p.input.done || (p.input.count && decide (left ≤ 0))
    (hinPipeCopyRaw { p with left, input := { p.input with pos, done } } b).1

/-- The size the next read asks for. -/
def readSize (p : Pipe) : Int :=
  let count : Int :=
    if p.condense && !p.writeQue.isEmpty then
      let count := queued p.writeQue
      if 0 < count ∧ count < READ_SZ then READ_SZ - count else READ_SZ
    else READ_SZ
  if p.input.count && decide (p.left < READ_SZ) then p.left else count

/-- `hin_pipe_read_next`; `false` for `-1`. -/
def hinPipeReadNext (sub : Submit) (p : Pipe) : Pipe × Bool :=
  if p.input.inactive then (p, true)
  else
    let p := { p with reading := p.reading ++ [⟨readSize p, p.input.pos⟩] }
    if sub.read then (p, true) else (hinPipeClose (p.inError 0), false)

/-- Room left behind the view once it is moved to the start of the storage. -/
def Buffer.room (b : Buffer) : Nat := b.sz - b.count

theorem Buffer.room_compact (b : Buffer) : b.compact.room = b.room := by
  have := b.bounds
  simp only [Buffer.room, Buffer.sz, Buffer.compact, Buffer.view, List.length_append, List.length_take,
    List.length_drop]
  omega

/-- The loop of `hin_pipe_write_next` that fills the head of the queue from the buffers behind it. The branch of
    the source for a `ptr` outside the storage is excluded by `Buffer.bounds`. -/
def condenseLoop (b : Buffer) : List Buffer → Buffer × List Buffer
  | [] => (b, [])
  | c :: rest =>
      let len := min b.room c.count
      if b.room ≤ c.count ∧ b.room = 0 then (b, c :: rest)
      else
        let b' := b.compact.append (c.view.take len) (by
          have h := b.room_compact
          have := b.compact.bounds
          have hl : (c.view.take len).length ≤ b.room := by
            simp only [List.length_take, len]
            omega
          simp only [Buffer.room, Buffer.sz, Buffer.compact] at *
          omega)
        let c' := c.consume len (Nat.min_le_right _ _)
        let r := condenseLoop b' rest
        if c'.count = 0 then r else (r.1, c' :: r.2)

/-- The end of `hin_pipe_write_next`: the head `b` leaves the queue `b :: rest` and is submitted. -/
def submitHead (sub : Submit) (p : Pipe) (b : Buffer) (rest : List Buffer) : Pipe × Bool :=
  let b := { b with pos := p.output.pos, offsets := p.output.offsets }
  let output := if p.output.offsets then { p.output with pos := p.output.pos + b.count } else p.output
  let p := { p with output, writeQue := rest }
  if sub.write then
    ({ p with writing := p.writing ++ [b], output := { p.output with done := false } }, true)
  else (hinPipeClose (p.outError 0), false)

/-- `hin_pipe_write_next` on the head of the queue. -/
def hinPipeWriteNext (sub : Submit) (p : Pipe) : Pipe × Bool :=
  match p.writeQue with
  | [] => (p, true)
  | b :: rest =>
      if p.condense && decide (b.count < b.sz) then
        if rest.isEmpty && !p.input.done then (p, true)
        else
          let r := condenseLoop b rest
          submitHead sub p r.1 r.2
      else submitHead sub p b rest

def hinPipeAdvance (sub : Submit) (p : Pipe) : Pipe :=
  let p :=
    if p.input.count && decide (p.left ≤ 0) then { p with input := { p.input with done := true } } else p
  if p.writeQue.isEmpty && p.writing.isEmpty && p.input.done && p.output.done then hinPipeClose p
  else
    let r :=
      if !p.input.done && !p.input.inactive && p.reading.isEmpty && decide (queued p.writeQue < READ_SZ * 2) then
        hinPipeReadNext sub p
      else (p, true)
    if r.2 then
      if !r.1.writeQue.isEmpty && r.1.writing.isEmpty then (hinPipeWriteNext sub r.1).1 else r.1
    else r.1

def hinPipeStart (sub : Submit) (p : Pipe) : Pipe :=
  let p := if p.hashFlag then { p with hash := 6883 } else p
  hinPipeAdvance sub { p with output := { p.output with done := true } }

/-! ## Completions -/

/-- One byte of the running hash. -/
def hashByte (h : UInt64) (c : UInt8) : UInt64 := ((h <<< 3) + h) + c.toUInt64

/-- `hin_pipe_write_callback` with a result `0 ≤ n ≤ count` for the write `b`. -/
def hinPipeWriteCallback (sub : Submit) (p : Pipe) (b : Buffer) (n : Nat) (h : n ≤ b.count) : Pipe :=
  let hash := if p.hashFlag then (b.view.take n).foldl hashByte p.hash else p.hash
  let p := { p with output := { p.output with done := true }, count := p.count + n, hash }
  if n < b.count then
    let b' := b.consume n h
    let b' := if b.offsets then { b' with pos := b.pos + n } else b'
    if sub.write then { p with writing := b' :: p.writing.tail }
    else hinPipeClose ({ p with writing := p.writing.tail }.outError 0)
  else
    let p := { p with writing := p.writing.tail }
    let p := if p.writeQue.isEmpty then p else (hinPipeWriteNext sub p).1
    hinPipeAdvance sub p

/-- `hin_pipe_write_callback` with an error. -/
def hinPipeWriteFailed (p : Pipe) (err : Nat) : Pipe :=
  hinPipeClose ({ p with output := { p.output with done := true }, writing := p.writing.tail }.outError err)

/-- The part of `hin_pipe_read_callback` all results share. -/
def readCallbackEnd (sub : Submit) (p : Pipe) (data : Bytes) : Pipe :=
  let p := hinPipeProcessBuffer { p with reading := p.reading.tail } (.ofRead data)
  let p := if p.writeQue.isEmpty then { p with output := { p.output with done := true } } else p
  hinPipeAdvance sub p

/-- `hin_pipe_read_callback`: data, or the end of the input (empty data). -/
def hinPipeReadCallback (sub : Submit) (p : Pipe) (data : Bytes) : Pipe :=
  let p := if data.isEmpty then { p with input := { p.input with done := true } } else p
  readCallbackEnd sub p data

/-- `hin_pipe_read_callback` with an error. -/
def hinPipeReadFailed (sub : Submit) (p : Pipe) (err : Nat) : Pipe :=
  let p := p.inError err
  readCallbackEnd sub { p with input := { p.input with done := true } } []

/-! ## The completions as steps -/

/-- What the event loop can deliver to a pipe. -/
inductive Event where
  | readDone (data : Bytes)
  | readFailed (err : Nat)
  | writeDone (n : Nat)
  | writeFailed (err : Nat)
deriving Repr, DecidableEq

/-- One completion. A read delivers at most what it asked for, a write at most what it was given. -/
def step (p : Pipe) (e : Submit × Event) : Option Pipe :=
  match e.2 with
  | .readDone data =>
      match p.reading with
      | r :: _ => if (data.length : Int) ≤ r.count then some (hinPipeReadCallback e.1 p data) else none
      | [] => none
  | .readFailed err => if p.reading.isEmpty then none else some (hinPipeReadFailed e.1 p err)
  | .writeDone n =>
      match p.writing with
      | b :: _ => if h : n ≤ b.count then some (hinPipeWriteCallback e.1 p b n h) else none
      | [] => none
  | .writeFailed err => if p.writing.isEmpty then none else some (hinPipeWriteFailed p err)

end Netcode
end Hin9
