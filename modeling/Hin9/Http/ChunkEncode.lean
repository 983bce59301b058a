import Hin9.Http.Filters
import Hin9.Http.HeaderChain

/-!
# `Http.ChunkEncode` — a pipe that writes a chunked body (`hin_pipe_copy_chunked`)

`hin_pipe_copy_chunked` puts a frame round the bytes it is given and the last chunk behind them when it is told to
flush; `hin_pipe_process_buffer` tells it to whenever the input is marked as done. So the body is whole exactly when
one call flushes and nothing comes behind it (`encodeCalls_body_iff`).

A pipe keeps to that as long as its input ends with a buffer (`chunked_pipe_body`). Two ways of ending do not: a
counted input with nothing to count is marked as done by `hin_pipe_advance`, without a call of the encoder; and a
buffer that is handed over when the input is done already flushes again.
-/

namespace Hin9
namespace Http

open Lib.Chunked
open Netcode (READ_SZ)

/-! ## One call -/

/-- The buffer `hin_pipe_copy_chunked` allocates. -/
def chunkBuffer (num : Nat) : HeaderBuffer where
  store := List.replicate (num + 50) 0
  count := 0

/-- `memcpy` to the end of what is in use. -/
def copyIn (c : List HeaderBuffer) (data : Bytes) : List HeaderBuffer :=
  c.modify 0 fun b => (b.put data).take data.length

/-- The part of `hin_pipe_copy_chunked` for a buffer that is not empty. -/
def fillFrame (fuel : Nat) (data : Bytes) : Option (List HeaderBuffer) :=
  (vheader fuel [chunkBuffer data.length] (hexDigits data.length ++ [CR, LF])).bind fun c =>
    (vheader fuel (copyIn c.1 data) [CR, LF]).map Prod.fst

/-- `hin_pipe_copy_chunked` as it fills its buffer with `header` and `memcpy`. -/
def fillChunkBuffer (fuel : Nat) (data : Bytes) (flush : Bool) : Option (List HeaderBuffer) :=
  (if data.isEmpty then some [chunkBuffer 0] else fillFrame fuel data).bind fun c =>
    if flush then (vheader fuel c lastChunk).map Prod.fst else some c

theorem hexDigitsAux_length (k fuel n : Nat) (hk : 0 < k) (h : n < 16 ^ k) : (hexDigitsAux fuel n).length ≤ k := by
  induction k generalizing fuel n with
  | zero => exact absurd hk (Nat.lt_irrefl 0)
  | succ k ih =>
      cases fuel with
      | zero => simp [hexDigitsAux]
      | succ fuel =>
          rw [hexDigitsAux]
          split
          · simp
          · have hk' : 0 < k := by
              rcases Nat.eq_zero_or_pos k with rfl | hpos
              · rw [Nat.zero_add, Nat.pow_one] at h
                omega
              · exact hpos
            have hdiv : n / 16 < 16 ^ k := by
              rw [Nat.div_lt_iff_lt_mul (by decide), ← Nat.pow_succ]
              exact h
            rw [List.length_append, List.length_singleton]
            exact Nat.succ_le_succ (ih fuel (n / 16) hk' hdiv)

/-- Bytes that fit are taken into use behind those in use. -/
theorem put_take_spec {b : HeaderBuffer} (hb : b.Proper) {text data : Bytes} (hpre : text <+: data)
    (hfit : (data.length : Int) ≤ b.room) :
    ((b.put data).take text.length).Proper ∧ ((b.put data).take text.length).content = b.content ++ text ∧
      ((b.put data).take text.length).room = b.room - text.length := by
  refine ⟨hb.take hfit hpre.length_le, ?_, ?_⟩
  · rw [hb.content_take hpre.length_le, ← List.prefix_iff_eq_take.mp hpre]
  · show (b.put data).sz - (b.count + text.length) = b.sz - b.count - text.length
    rw [hb.sz_put hfit]
    omega

/-- A short text that fits with its NUL is printed into the buffer. -/
theorem vheader_fits {b : HeaderBuffer} (hb : b.Proper) {text : Bytes} (hlen : text.length ≤ 64)
    (hfit : (text.length : Int) < b.room) (fuel : Nat) :
    ∃ b' : HeaderBuffer, vheader (fuel + 1) [b] text = some ([b'], text.length) ∧ b'.Proper ∧
      b'.content = b.content ++ text ∧ b'.room = b.room - text.length := by
  refine ⟨(b.put (text ++ [0])).take text.length, ?_, put_take_spec hb (List.prefix_append text [0]) ?_⟩
  · have hmax : ¬ text.length > Fcgi.HIN_HTTPD_MAX_HEADER_LINE_SIZE := by
      unfold Fcgi.HIN_HTTPD_MAX_HEADER_LINE_SIZE
      omega
    unfold vheader
    dsimp only
    rw [if_neg hmax, if_neg (by omega), HeaderBuffer.print_eq_put hfit]
  · rw [List.length_append, List.length_singleton]
    omega

/-- **The buffer holds the framed bytes.** Everything fits, for a length that an `int` can hold. -/
theorem fillChunkBuffer_spec (data : Bytes) (flush : Bool) (hint : data.length < 2 ^ 31) (fuel : Nat) :
    ∃ b : HeaderBuffer, fillChunkBuffer (fuel + 1) data flush = some [b] ∧
      b.content = hinPipeCopyChunked data flush := by
  have hp0 (n : Nat) : (chunkBuffer n).Proper := ⟨le_rfl, by simp [chunkBuffer, HeaderBuffer.sz]; omega⟩
  have hr0 (n : Nat) : (chunkBuffer n).room = n + 50 := by simp [chunkBuffer, HeaderBuffer.room, HeaderBuffer.sz]
  unfold fillChunkBuffer hinPipeCopyChunked
  -- the frame takes at most twelve bytes beside the data
  obtain ⟨b, hb, hp, hc, hr⟩ : ∃ b : HeaderBuffer,
      (if data.isEmpty then some [chunkBuffer 0] else fillFrame (fuel + 1) data) = some [b] ∧ b.Proper ∧
      b.content = (if data.isEmpty then [] else frame data) ∧ 38 ≤ b.room := by
    cases hd : data.isEmpty with
    | true => exact ⟨_, rfl, hp0 0, rfl, by rw [hr0]; omega⟩
    | false =>
        have hhex : (hexDigits data.length ++ [CR, LF]).length ≤ 10 := by
          have := hexDigitsAux_length 8 (data.length + 1) data.length (by decide) (hint.trans (by decide))
          simpa [hexDigits] using this
        have hcrlf : ([CR, LF] : Bytes).length = 2 := rfl
        have hroom := hr0 data.length
        obtain ⟨b1, h1, hp1, hc1, hr1⟩ := vheader_fits (hp0 data.length) (hhex.trans (by decide)) (by omega) fuel
        obtain ⟨hp2, hc2, hr2⟩ := put_take_spec hp1 (List.prefix_refl data) (by omega)
        obtain ⟨b3, h3, hp3, hc3, hr3⟩ := vheader_fits hp2 (hcrlf.trans_le (by decide)) (by omega) fuel
        refine ⟨b3, ?_, hp3, ?_, by omega⟩
        · have hcopy : copyIn [b1] data = [(b1.put data).take data.length] := rfl
          rw [if_neg (by decide), fillFrame, h1, Option.bind_some, hcopy, h3]
          rfl
        · rw [hc3, hc2, hc1, frame]
          rfl
  rw [hb, Option.bind_some]
  cases flush with
  | false => exact ⟨b, rfl, by rw [hc]; simp⟩
  | true =>
      obtain ⟨b', h', -, hc', -⟩ := vheader_fits hp (show lastChunk.length ≤ 64 by decide)
        (by have : (lastChunk.length : Int) = 5 := rfl
            omega) fuel
      refine ⟨b', ?_, ?_⟩
      · rw [if_pos rfl, h']
        rfl
      · rw [hc', hc]
        rfl

/-! ## Any sequence of calls -/

/-- What the encoder appends to the queue for its calls: the bytes and the flush flag of each. -/
def encodeCalls (calls : List (Bytes × Bool)) : Bytes := calls.flatMap fun c => hinPipeCopyChunked c.1 c.2

/-- The chunks the calls are about: the empty ones contribute none. -/
def payloads (inputs : List Bytes) : List Bytes := inputs.filter (· ≠ [])

/-- One call flushes, and nothing comes behind it. -/
def FlushedOnce (calls : List (Bytes × Bool)) : Prop :=
  ∃ before d after, calls = before ++ (d, true) :: after ∧ (∀ c ∈ before, c.2 = false) ∧ ∀ c ∈ after, c = ([], false)

theorem payloads_ne_nil {inputs : List Bytes} {c : Bytes} (h : c ∈ payloads inputs) : c ≠ [] := by
  simpa using (List.mem_filter.mp h).2

theorem payloads_append (xs ys : List Bytes) : payloads (xs ++ ys) = payloads xs ++ payloads ys :=
  List.filter_append xs ys

theorem flatten_payloads (inputs : List Bytes) : (payloads inputs).flatten = inputs.flatten := by
  induction inputs with
  | nil => rfl
  | cons d ds ih =>
      cases d with
      | nil => simpa [payloads] using ih
      | cons c cs => simpa [payloads] using ih

theorem encodeCalls_append (xs ys : List (Bytes × Bool)) : encodeCalls (xs ++ ys) = encodeCalls xs ++ encodeCalls ys :=
  List.flatMap_append

/-- Calls that do not flush write frames. -/
theorem encodeCalls_open {calls : List (Bytes × Bool)} (h : ∀ c ∈ calls, c.2 = false) :
    encodeCalls calls = (payloads (calls.map Prod.fst)).flatMap frame := by
  induction calls with
  | nil => rfl
  | cons c calls ih =>
      obtain ⟨d, flush⟩ := c
      have hflush : flush = false := h (d, flush) List.mem_cons_self
      have ih := ih fun c hc => h c (List.mem_cons_of_mem _ hc)
      rw [encodeCalls, List.flatMap_cons, ← encodeCalls, ih, hflush]
      cases d <;> simp [hinPipeCopyChunked, payloads]

theorem encodeCalls_flushed {before : List (Bytes × Bool)} (h : ∀ c ∈ before, c.2 = false) (d : Bytes) :
    encodeCalls (before ++ [(d, true)]) = (payloads (before.map Prod.fst ++ [d])).flatMap frame ++ lastChunk := by
  rw [encodeCalls_append, encodeCalls_open h, payloads_append, List.flatMap_append]
  cases d <;> simp [encodeCalls, hinPipeCopyChunked, payloads]

theorem encodeCalls_eq_nil {calls : List (Bytes × Bool)} : encodeCalls calls = [] ↔ ∀ c ∈ calls, c = ([], false) := by
  have hcall (d : Bytes) (flush : Bool) : hinPipeCopyChunked d flush = [] ↔ d = [] ∧ flush = false := by
    cases d <;> cases flush <;> simp [hinPipeCopyChunked, lastChunk, frame]
  rw [encodeCalls, List.flatMap_eq_nil_iff]
  refine forall₂_congr fun c _ => ?_
  rw [hcall]
  exact (Prod.ext_iff (x := c) (y := ([], false))).symm

/-- The calls up to the first one that flushes. -/
theorem first_flush {calls : List (Bytes × Bool)} (h : ¬ ∀ c ∈ calls, c.2 = false) :
    ∃ before d after, calls = before ++ (d, true) :: after ∧ ∀ c ∈ before, c.2 = false := by
  induction calls with
  | nil => exact absurd (fun c hc => absurd hc List.not_mem_nil) h
  | cons c calls ih =>
      obtain ⟨d, flush⟩ := c
      cases flush with
      | true => exact ⟨[], d, calls, rfl, fun c hc => absurd hc List.not_mem_nil⟩
      | false =>
          have hrest : ¬ ∀ c ∈ calls, c.2 = false := fun hr => h fun c hc => by
            rcases List.mem_cons.mp hc with rfl | hc
            · rfl
            · exact hr c hc
          obtain ⟨before, d', after, rfl, hb⟩ := ih hrest
          refine ⟨(d, false) :: before, d', after, rfl, fun c hc => ?_⟩
          rcases List.mem_cons.mp hc with rfl | hc
          · rfl
          · exact hb c hc

theorem FlushedOnce.body {calls : List (Bytes × Bool)} (h : FlushedOnce calls) :
    Body (payloads (calls.map Prod.fst)) (encodeCalls calls) := by
  obtain ⟨before, d, after, rfl, hbefore, hafter⟩ := h
  have hnone : payloads (after.map Prod.fst) = [] := by
    rw [payloads, List.filter_eq_nil_iff]
    intro x hx
    obtain ⟨c, hc, rfl⟩ := List.mem_map.mp hx
    rw [hafter c hc]
    simp
  have hsplit : before ++ (d, true) :: after = before ++ [(d, true)] ++ after := by simp
  rw [hsplit, encodeCalls_append, encodeCalls_flushed hbefore, encodeCalls_eq_nil.mpr hafter, List.append_nil,
    List.map_append, payloads_append, hnone, List.append_nil, List.map_append]
  exact body_frames fun c hc => payloads_ne_nil hc

/-- **When the calls make a body.** Exactly when one of them flushes and nothing comes behind it; the body then carries
    what they were given. -/
theorem encodeCalls_body_iff (calls : List (Bytes × Bool)) :
    (∃ chunks, Body chunks (encodeCalls calls) ∧ chunks.flatten = (calls.map Prod.fst).flatten) ↔ FlushedOnce calls := by
  constructor
  · rintro ⟨chunks, hbody, -⟩
    by_cases hopen : ∀ c ∈ calls, c.2 = false
    · rw [encodeCalls_open hopen] at hbody
      exact absurd hbody (not_body_frames (fun c hc => payloads_ne_nil hc) chunks)
    · obtain ⟨before, d, after, rfl, hbefore⟩ := first_flush hopen
      refine ⟨before, d, after, rfl, hbefore, encodeCalls_eq_nil.mp ?_⟩
      have hsplit : before ++ (d, true) :: after = before ++ [(d, true)] ++ after := by simp
      rw [hsplit, encodeCalls_append, encodeCalls_flushed hbefore] at hbody
      exact (body_frames fun c hc => payloads_ne_nil hc).end_unique hbody
  · exact fun h => ⟨_, h.body, flatten_payloads _⟩

/-! ## The pipe -/

/-- The input side of a pipe whose `read_callback` is `hin_pipe_copy_chunked`: the `HIN_COUNT`, `HIN_INACTIVE` and
    `HIN_DONE` bits of the input, `pipe->left`, the size of the read that is under way, the `HIN_INACTIVE` bit of the
    output, and what was appended to the queue. Beside the program it records the calls of the encoder, and whether
    the pipe was closed before its input had ended. -/
structure ChunkPipe where
  count : Bool
  left : Int
  inactive : Bool
  done : Bool := false
  reading : Option Int := none
  closed : Bool := false
  queued : Bytes := []
  calls : List (Bytes × Bool) := []
  cut : Bool := false

namespace ChunkPipe

variable (p : ChunkPipe)

/-- `hin_pipe_process_buffer`. -/
def process (data : Bytes) : ChunkPipe :=
  if p.closed then p
  else
    let left := if p.count then p.left - data.length else p.left
    let done := p.done || (p.count && decide (left ≤ 0))
    { p with
      left
      done
      queued := p.queued ++ hinPipeCopyChunked data done
      calls := p.calls ++ [(data, done)] }

/-- `hin_pipe_write_process` on a list of buffers. -/
def writeProcess (bufs : List Bytes) : ChunkPipe := bufs.foldl process p

/-- `hin_pipe_advance`, as far as it looks at the input; `room` says that little enough is queued. -/
def advance (room : Bool) : ChunkPipe :=
  let p := if p.count && decide (p.left ≤ 0) then { p with done := true } else p
  if !p.done && !p.inactive && p.reading.isNone && room then
    { p with reading := some (if p.count && decide (p.left < READ_SZ) then p.left else READ_SZ) }
  else p

/-- `hin_pipe_read_callback`: data, or the end of the input (no data). -/
def readCallback (data : Bytes) (room : Bool) : ChunkPipe :=
  let p := if data.isEmpty then { p with done := true } else p
  ({ p with reading := none }.process data).advance room

/-- `hin_pipe_finish`. -/
def finish : ChunkPipe := ({ p with done := true }.process []).advance false

/-- `hin_pipe_close`, when everything is written or when a read or a write fails. -/
def close : ChunkPipe := { p with done := true, inactive := true, closed := true, cut := p.cut || !p.done }

end ChunkPipe

/-- What happens to the pipe: buffers are handed to it, `hin_pipe_advance` is called (by `hin_pipe_start` or when a write
    completes), a read completes, the input is finished, the pipe is closed. -/
inductive ChunkEvent where
  | write (bufs : List Bytes)
  | advance (room : Bool)
  | read (data : Bytes) (room : Bool)
  | finish
  | close
deriving Repr, DecidableEq

/-- One event. A read delivers at most what it asked for; no data is the end of the input. -/
def chunkStep (p : ChunkPipe) : ChunkEvent → Option ChunkPipe
  | .write bufs => some (p.writeProcess bufs)
  | .advance room => some (p.advance room)
  | .read data room =>
      match p.reading with
      | some size => if (data.length : Int) ≤ size then some (p.readCallback data room) else none
      | none => none
  | .finish => some p.finish
  | .close => some p.close

/-- A pipe before anything is handed to it. -/
def newChunkPipe (count : Bool) (left : Int) (inactive : Bool) : ChunkPipe := { count, left, inactive }

/-- **What a chunking pipe promises.** While its input is open it has queued the frames of the buffers that are not
    empty; once the input has ended, a whole body that carries them. -/
structure ChunkPipe.Sound (p : ChunkPipe) : Prop where
  frames : p.done = false → p.queued = (payloads (p.calls.map Prod.fst)).flatMap frame
  body : p.done = true → p.cut = false → Body (payloads (p.calls.map Prod.fst)) p.queued

/-- The input ends with a buffer: `hin_pipe_advance` does not find a counted input used up that is not marked as done, and
    nothing is handed over that comes behind the end. -/
def endsWithBuffer (p : ChunkPipe) (e : ChunkEvent) : Bool :=
  p.closed ||
    match e with
    | .write bufs => bufs.isEmpty || (!p.done &&
        (!p.count || bufs.dropLast.isEmpty || decide ((bufs.dropLast.flatten.length : Int) < p.left)))
    | .advance _ => p.done || !p.count || decide (0 < p.left)
    | .read _ _ => !p.done
    | .finish => !p.done
    | .close => true

def EndsWithBuffer (p : ChunkPipe) (e : ChunkEvent) : Prop := endsWithBuffer p e = true

/-! ### The invariant -/

/-- The calls so far: none has flushed while the input is open, and the last one has when it has ended. -/
structure ChunkPipe.Inv (p : ChunkPipe) : Prop where
  queued : p.queued = encodeCalls p.calls
  open_calls : p.done = false → ∀ c ∈ p.calls, c.2 = false
  ended_calls : p.done = true → p.cut = false → FlushedOnce p.calls
  closed_done : p.closed = true → p.done = true
  cut_closed : p.closed = false → p.cut = false

namespace ChunkPipe.Inv

variable {p : ChunkPipe}

theorem sound (h : p.Inv) : p.Sound where
  frames hd := by rw [h.queued, encodeCalls_open (h.open_calls hd)]
  body hd hc := by
    rw [h.queued]
    exact (h.ended_calls hd hc).body

theorem new (count : Bool) (left : Int) (inactive : Bool) : (newChunkPipe count left inactive).Inv where
  queued := rfl
  open_calls _ c hc := absurd hc List.not_mem_nil
  ended_calls hd := absurd hd (by simp [newChunkPipe])
  closed_done hc := absurd hc (by simp [newChunkPipe])
  cut_closed _ := rfl

/-- One call of the encoder, on a pipe that has not flushed yet. -/
theorem process_open (hq : p.queued = encodeCalls p.calls) (hopen : ∀ c ∈ p.calls, c.2 = false)
    (hclosed : p.closed = false) (hcut : p.cut = false) (data : Bytes) : (p.process data).Inv := by
  unfold ChunkPipe.process
  rw [if_neg (by simp [hclosed])]
  dsimp only
  generalize (p.done || _) = done
  exact {
    queued := by
      rw [encodeCalls_append, ← hq]
      simp [encodeCalls]
    open_calls := fun hd c hc => by
      rcases List.mem_append.mp hc with hc | hc
      · exact hopen c hc
      · rw [List.mem_singleton.mp hc]
        exact hd
    ended_calls := fun hd _ => ⟨p.calls, data, [], by rw [← hd], hopen, fun c hc => absurd hc List.not_mem_nil⟩
    closed_done := fun hc => absurd hc (by simp [hclosed])
    cut_closed := fun _ => hcut }

theorem process_closed (hclosed : p.closed = true) (data : Bytes) : p.process data = p := if_pos hclosed

/-- `hin_pipe_advance` changes what the invariant is about only by marking the input as done. -/
theorem advance (h : p.Inv) (room : Bool) (hleft : p.done = true ∨ ¬ (p.count = true ∧ p.left ≤ 0)) :
    (p.advance room).Inv := by
  have hsame : (if p.count && decide (p.left ≤ 0) then { p with done := true } else p) = p := by
    split <;> rename_i hc
    · simp only [Bool.and_eq_true, decide_eq_true_eq] at hc
      have hd := hleft.resolve_right (not_not.mpr hc)
      cases p
      simp_all
    · rfl
  unfold ChunkPipe.advance
  dsimp only
  rw [hsame]
  split
  · exact { h with }
  · exact h

/-- After a buffer a counted input that is used up is marked as done. -/
theorem process_marks (h : p.closed = true → p.done = true) (data : Bytes) :
    (p.process data).done = true ∨ ¬ ((p.process data).count = true ∧ (p.process data).left ≤ 0) := by
  unfold ChunkPipe.process
  split
  · exact .inl (h ‹_›)
  · dsimp only
    cases hcount : p.count with
    | false => exact .inr (by simp)
    | true =>
        by_cases hleft : p.left - data.length ≤ 0
        · exact .inl (by simp [hleft])
        · exact .inr (by simpa using hleft)

/-- A list of buffers of which none comes behind the end. -/
theorem writeProcess (h : p.Inv) (hclosed : p.closed = false) (hd : p.done = false) (bufs : List Bytes)
    (hlast : p.count = false ∨ bufs.dropLast = [] ∨ (bufs.dropLast.flatten.length : Int) < p.left) :
    (p.writeProcess bufs).Inv := by
  induction bufs generalizing p with
  | nil => exact h
  | cons d rest ih =>
      have hp := process_open h.queued (h.open_calls hd) hclosed (h.cut_closed hclosed) d
      show ((p.process d).writeProcess rest).Inv
      cases rest with
      | nil => exact hp
      | cons d' rest =>
          have hdrop : (d :: d' :: rest).dropLast.flatten.length = d.length + (d' :: rest).dropLast.flatten.length := by
            rw [List.dropLast_cons_cons, List.flatten_cons, List.length_append]
          -- the count is not reached by the first buffer, so the pipe is open behind it
          have hleft : p.count = true → (d.length : Int) + (d' :: rest).dropLast.flatten.length < p.left := fun hc => by
            rcases hlast with hf | hn | hl
            · exact absurd hc (by simp [hf])
            · exact absurd hn (by simp)
            · rw [hdrop] at hl
              omega
          have hprocess : (p.process d).closed = false ∧ (p.process d).count = p.count ∧
              (p.process d).done = false ∧ (p.count = true → (p.process d).left = p.left - d.length) := by
            unfold ChunkPipe.process
            rw [if_neg (by simp [hclosed])]
            refine ⟨hclosed, rfl, ?_, fun hc => by simp [hc]⟩
            cases hc : p.count with
            | false => simp [hd]
            | true =>
                have := hleft hc
                simp [hd]
                omega
          obtain ⟨hcl, hct, hdn, hlf⟩ := hprocess
          refine ih hp hcl hdn ?_
          cases hc : p.count with
          | false => exact .inl (hct.trans hc)
          | true =>
              have := hleft hc
              exact .inr (.inr (by rw [hlf hc]; omega))

theorem writeProcess_closed (hclosed : p.closed = true) (bufs : List Bytes) : p.writeProcess bufs = p := by
  induction bufs with
  | nil => rfl
  | cons d rest ih =>
      show (p.process d).writeProcess rest = p
      rw [process_closed hclosed, ih]

/-- A buffer, behind which `hin_pipe_advance` is called: on a pipe `p1` that differs from `p` in what is being read, and
    in that its input may be marked as done. -/
theorem buffer (h : p.Inv) (hopen : p.closed = true ∨ p.done = false) {p1 : ChunkPipe} (hq : p1.queued = p.queued)
    (hc : p1.calls = p.calls) (hcl : p1.closed = p.closed) (hct : p1.cut = p.cut) (hd : p.done = true → p1.done = true)
    (data : Bytes) (room : Bool) : ((p1.process data).advance room).Inv := by
  cases hcase : p.closed with
  | true =>
      have hdone := h.closed_done hcase
      have h1 : p1.Inv := {
        queued := by rw [hq, hc, h.queued]
        open_calls := fun hf => absurd (hd hdone) (by simp [hf])
        ended_calls := fun _ hf => by
          rw [hc]
          exact h.ended_calls hdone (hct.symm.trans hf)
        closed_done := fun _ => hd hdone
        cut_closed := fun hf => absurd (hcl.symm.trans hf) (by simp [hcase]) }
      rw [process_closed (hcl.trans hcase)]
      exact h1.advance room (.inl (hd hdone))
  | false =>
      have hcalls := h.open_calls (hopen.resolve_left (by simp [hcase]))
      refine (process_open (by rw [hq, hc, h.queued]) (by rwa [hc]) (hcl.trans hcase)
        (hct.trans (h.cut_closed hcase)) data).advance room (process_marks (fun ht => ?_) data)
      exact absurd (hcl.symm.trans ht) (by simp [hcase])

/-- **One event keeps the invariant**, when the input ends with a buffer. -/
theorem step (h : p.Inv) {e : ChunkEvent} (hg : EndsWithBuffer p e) {p' : ChunkPipe} (hs : chunkStep p e = some p') :
    p'.Inv := by
  unfold EndsWithBuffer endsWithBuffer at hg
  cases e with
  | write bufs =>
      obtain rfl := Option.some.inj hs
      cases hcase : p.closed with
      | true =>
          rw [writeProcess_closed hcase]
          exact h
      | false =>
          simp only [hcase, Bool.false_or, Bool.or_eq_true, Bool.and_eq_true, Bool.not_eq_true',
            List.isEmpty_iff, decide_eq_true_eq] at hg
          rcases hg with rfl | ⟨hd, hl⟩
          · exact h
          · exact h.writeProcess hcase hd bufs (by simpa [or_assoc] using hl)
  | advance room =>
      obtain rfl := Option.some.inj hs
      refine h.advance room ?_
      simp only [Bool.or_eq_true, Bool.not_eq_true', decide_eq_true_eq] at hg
      rcases hg with hc | (hd | hc) | hl
      · exact .inl (h.closed_done hc)
      · exact .inl hd
      · exact .inr fun hb => absurd hb.1 (by simp [hc])
      · exact .inr fun hb => by omega
  | read data room =>
      simp only [Bool.or_eq_true, Bool.not_eq_true'] at hg
      simp only [chunkStep] at hs
      split at hs
      · split at hs
        · obtain rfl := Option.some.inj hs
          unfold ChunkPipe.readCallback
          dsimp only
          refine h.buffer hg ?_ ?_ ?_ ?_ ?_ data room <;> cases data <;> first | rfl | exact fun _ => rfl | exact id
        · exact absurd hs (by simp)
      · exact absurd hs (by simp)
  | finish =>
      obtain rfl := Option.some.inj hs
      simp only [Bool.or_eq_true, Bool.not_eq_true'] at hg
      exact @buffer p h hg { p with done := true } rfl rfl rfl rfl (fun _ => rfl) [] false
  | close =>
      obtain rfl := Option.some.inj hs
      exact {
        queued := h.queued
        open_calls := fun hd => absurd hd (by simp [ChunkPipe.close])
        ended_calls := fun _ hc => by
          simp only [ChunkPipe.close, Bool.or_eq_false_iff, Bool.not_eq_false'] at hc
          exact h.ended_calls hc.2 hc.1
        closed_done := fun _ => rfl
        cut_closed := fun hc => absurd hc (by simp [ChunkPipe.close]) }

end ChunkPipe.Inv

/-- **A chunking pipe writes a whole body**, in every run in which its input ends with a buffer. -/
theorem chunked_pipe_body (count : Bool) (left : Int) (inactive : Bool) (es : List ChunkEvent) (s : ChunkPipe)
    (h : Lib.RunWith chunkStep EndsWithBuffer (newChunkPipe count left inactive) es s) : s.Sound :=
  (h.invariant (ChunkPipe.Inv.new count left inactive) fun _ _ _ hi hg hs => hi.step hg hs).sound

/-- A counted input that is read in two pieces, behind an empty buffer. -/
theorem chunked_pipe_body_sample : ∃ (es : List ChunkEvent) (s : ChunkPipe),
    Lib.RunWith chunkStep EndsWithBuffer (newChunkPipe true 3 false) es s ∧
    s.queued = bytes "2\r\nab\r\n1\r\nc\r\n0\r\n\r\n" ∧ Body [bytes "ab", bytes "c"] s.queued := by
  have hrun : (Lib.execWith chunkStep endsWithBuffer (newChunkPipe true 3 false)
      [.write [[]], .advance true, .read (bytes "ab") true, .read (bytes "c") true, .close]).map
        (fun s => (s.queued, s.done, s.cut, s.calls.map Prod.fst)) =
      some (bytes "2\r\nab\r\n1\r\nc\r\n0\r\n\r\n", true, false, [[], bytes "ab", bytes "c"]) := by
    decide
  obtain ⟨s, hs, heq⟩ := Option.map_eq_some_iff.mp hrun
  simp only [Prod.mk.injEq] at heq
  obtain ⟨hq, hd, hc, hcalls⟩ := heq
  have h := Lib.RunWith.of_exec (fun _ _ hg => hg) _ hs
  have hbody := (chunked_pipe_body true 3 false _ s h).body hd hc
  rw [hcalls] at hbody
  exact ⟨_, s, h, hq, hbody⟩

/-- **No flush, and two of them.** A counted input of nothing ends without a call of the encoder; an empty buffer behind
    the one that uses the count up, or `hin_pipe_finish` after it, writes a second last chunk. -/
theorem chunked_pipe_no_body :
    (∃ s, Lib.Run chunkStep (newChunkPipe true 0 false) [.advance true] s ∧ ¬ s.Sound) ∧
    (∃ s, Lib.Run chunkStep (newChunkPipe true 2 false) [.write [bytes "ab", []]] s ∧ ¬ s.Sound) ∧
    (∃ s, Lib.Run chunkStep (newChunkPipe true 2 false) [.write [bytes "ab"], .finish] s ∧ ¬ s.Sound) := by
  have hrun {count : Bool} {left : Int} {inactive : Bool} {es : List ChunkEvent} {q : Bytes}
      (h : (Lib.execWith chunkStep (fun _ _ => true) (newChunkPipe count left inactive) es).map
        (fun s => (s.queued, s.done, s.cut)) = some (q, true, false)) (hq : ∀ chunks, ¬ Body chunks q) :
      ∃ s, Lib.Run chunkStep (newChunkPipe count left inactive) es s ∧ ¬ s.Sound := by
    obtain ⟨s, hs, heq⟩ := Option.map_eq_some_iff.mp h
    simp only [Prod.mk.injEq] at heq
    refine ⟨s, Lib.RunWith.of_exec (fun _ _ _ => trivial) es hs, fun hsound => ?_⟩
    have hbody := hsound.body heq.2.1 heq.2.2
    rw [heq.1] at hbody
    exact hq _ hbody
  have htwice (chunks : List Bytes) : ¬ Body chunks (frame (bytes "ab") ++ lastChunk ++ lastChunk) := by
    have hone : Body [bytes "ab"] (frame (bytes "ab") ++ lastChunk) := by
      have hne : ∀ c ∈ [bytes "ab"], c ≠ [] := fun c hc => by
        rw [List.mem_singleton.mp hc]
        decide
      simpa using body_frames hne
    exact fun h => absurd (hone.end_unique h) (by decide)
  refine ⟨hrun (q := []) (by decide) ?_, hrun (by decide) htwice, hrun (by decide) htwice⟩
  rintro chunks ⟨head, -, heq⟩
  exact absurd heq.symm (by simp)

end Http
end Hin9
