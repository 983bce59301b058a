import Hin9.Basic.PatternSpec

/-!
# `Http.ChunkDecode` — the chunk decoder of the client pipe (`filters.c`)

`hin_pipe_decode_chunked` is the `decode_callback` of a pipe whose upstream sends a chunked body. It is called
with every buffer that was read, and carries two numbers from call to call: `chunk_sz`, what is left of the
current chunk, and `left_over`, how far in front of the next buffer its view is to start. A negative `left_over`
makes the view start behind the first bytes of the buffer.

A buffer is its storage: the `num` bytes received and whatever lies behind them. The result `none` is an access
outside the storage: a view that starts in front of the buffer, or the debug line `'%.*s'` with a negative
precision, which runs to the first NUL. Every other access is inside the bytes received.
-/

namespace Hin9
namespace Http

open Pattern

/-- `hin_pipe_chunked_decode_t`. -/
structure ChunkDecode where
  chunkSz : Nat := 0
  leftOver : Int := 0
deriving Repr, DecidableEq

/-- What one call leaves behind: the state, the calls of `read_callback` (bytes and `flush`), whether the return
    value is not `-1`, and whether `HIN_DONE` was set. -/
structure Decoded where
  state : ChunkDecode
  handed : List (Bytes × Bool)
  ok : Bool
  done : Bool
deriving Repr, DecidableEq

/-- `strtol (ptr, NULL, 16)` on the captured digits: saturation at `LONG_MAX`. -/
def longMax : Nat := 2 ^ 63 - 1

def strtolHex (digits : Bytes) : Nat := min (hexNat 0 digits) longMax

/-- `hin_pipe_decode_prepare_half_read`. The bytes it moves are in a buffer that is freed afterwards. -/
def prepareHalfRead (store : Bytes) (st : ChunkDecode) (left : Int) : Option ChunkDecode :=
  if 0 ≤ left ∨ 0 ∈ store then some { st with leftOver := left } else none

/-- The second half of the loop: a size line, then the next round. -/
def decodeSizeLine (store : Bytes) (next : ChunkDecode → Bytes → Option Decoded) (st : ChunkDecode)
    (source : Bytes) (handed : List (Bytes × Bool)) : Option Decoded :=
  let m := matchString source sizeLineFormat
  match m.took with
  | none =>
      if source.length < 10 then
        (prepareHalfRead store st source.length).map fun st => ⟨st, handed, true, false⟩
      else some ⟨st, handed, false, false⟩
  | some used =>
      let param := m.capture source 0
      let st := { st with chunkSz := strtolHex param }
      if st.chunkSz = 0 ∧ param.length > 0 then some ⟨st, handed ++ [([], true)], true, true⟩
      else next st (source.drop used)

/-- The `while (1)` loop. Every round consumes a size line. -/
def decodeLoop (store : Bytes) : Nat → List (Bytes × Bool) → ChunkDecode → Bytes → Option Decoded
  | 0, handed, st, _ => some ⟨st, handed, false, false⟩
  | fuel + 1, handed, st, source =>
      if st.chunkSz > 0 then
        let consume := min st.chunkSz source.length
        let handed := handed ++ [(source.take consume, false)]
        let source := source.drop consume
        if st.chunkSz > consume then some ⟨{ st with chunkSz := st.chunkSz - consume }, handed, true, false⟩
        else
          let st := { st with chunkSz := 0 }
          if source.length < 2 then
            (prepareHalfRead store st (source.length - 2)).map fun st => ⟨st, handed, true, false⟩
          else
            match (matchString source (bytes "\r\n")).used with
            | none => some ⟨st, handed, false, false⟩
            | some k => decodeSizeLine store (decodeLoop store fuel handed) st (source.drop k) handed
      else decodeSizeLine store (decodeLoop store fuel handed) st source handed

/-- `hin_pipe_decode_chunked` on a buffer that received `data` in front of `slack`. A view that would start
    behind the data has a length that wraps around, in which nothing matches. -/
def hinPipeDecodeChunked (st : ChunkDecode) (data slack : Bytes) : Option Decoded :=
  if st.leftOver > 0 then none
  else
    let skip := (-st.leftOver).toNat
    if data.length < skip then some ⟨st, [], false, false⟩
    else decodeLoop (data ++ slack) (data.length + 1) [] st (data.drop skip)

/-! ## A body arriving read by read -/

/-- The decoder of a pipe: its state, the bytes received so far, the calls it made to `read_callback`, and
    whether it set `HIN_DONE`, returned `-1`, or left a buffer. -/
structure Receiver where
  state : ChunkDecode := {}
  received : Bytes := []
  handed : List (Bytes × Bool) := []
  done : Bool := false
  failed : Bool := false
  fault : Bool := false
deriving Repr, DecidableEq

/-- One read of the body `enc`, in a buffer with `slack` behind the data. There is none after `HIN_DONE`. -/
def Receiver.step (enc : Bytes) (s : Receiver) (rd : Bytes × Bytes) : Option Receiver :=
  if rd.1 ≠ [] ∧ s.done = false ∧ s.fault = false ∧ s.received ++ rd.1 <+: enc then
    match hinPipeDecodeChunked s.state rd.1 rd.2 with
    | none => some { s with received := s.received ++ rd.1, fault := true }
    | some d =>
        some { s with
          state := d.state
          received := s.received ++ rd.1
          handed := s.handed ++ d.handed
          done := d.done
          failed := s.failed || !d.ok }
  else none

/-- The bytes handed to `read_callback`. -/
def Receiver.output (s : Receiver) : Bytes := s.handed.flatMap (·.1)

/-- The number of calls with `flush`. -/
def Receiver.flushes (s : Receiver) : Nat := s.handed.countP (·.2)

end Http
end Hin9
