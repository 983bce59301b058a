import Hin9.Lib.Chunked
import Hin9.Lib.Runs
import Hin9.Netcode.Pipe

/-!
# `Http.Filters` — the encoders of a response pipe (`filters.c`)

The read callback of a response pipe turns the bytes it is handed into what is queued behind the head:
`hin_pipe_copy_raw`, `hin_pipe_copy_chunked` or `hin_pipe_copy_deflate`. `Sender` is the input side of such a pipe
(`hin_pipe_process_buffer`): a counted source that is read until `left` bytes have come or the source has ended,
and an encoder that is told with `flush` when that is.

zlib is a parameter: a stream that produces some bytes for every piece of input, all of them by the time it is told
to finish. `deflate` hands out what is pending as far as the output buffer goes.
-/

namespace Hin9
namespace Http

open Netcode (READ_SZ)
open Lib.Chunked

/-! ## The encoders -/

/-- A compressor: its states, and what it produces for a piece of input (`true` is `Z_FINISH`). -/
structure Zlib where
  State : Type
  init : State
  feed : State → Bytes → Bool → State × Bytes

/-- `pipe->read_callback`, with the `HIN_HTTP_CHUNKED` bit `hin_pipe_copy_deflate` looks at. -/
inductive Encoder where
  | raw
  | chunked
  | deflate (chunked : Bool)
deriving Repr, DecidableEq

/-- `new->sz` of an output buffer: `numbuf` goes in front of a chunk, `CRLF`, the last chunk and a NUL behind it. -/
def deflateRoom (chunked : Bool) : Nat := if chunked then READ_SZ - (10 + 8) else READ_SZ

/-- What one pass of the loop queues. -/
def deflateBuffer (chunked last : Bool) (out : Bytes) : Bytes :=
  if chunked then frame out ++ if last then lastChunk else [] else out

/-- The `do … while (z->avail_out == 0)` loop of `hin_pipe_copy_deflate` on the bytes that are pending. Every round
    but the last one takes a full buffer of them. -/
def deflateLoop (chunked flush : Bool) : Nat → Bytes → Bytes
  | 0, _ => []
  | fuel + 1, pending =>
      let room := deflateRoom chunked
      let out := pending.take room
      let full := out.length == room
      let buffer := if out.isEmpty then [] else deflateBuffer chunked (flush && !full) out
      if full then buffer ++ deflateLoop chunked flush fuel (pending.drop room) else buffer

/-- `hin_pipe_copy_chunked`. -/
def hinPipeCopyChunked (data : Bytes) (flush : Bool) : Bytes :=
  (if data.isEmpty then [] else frame data) ++ if flush then lastChunk else []

/-! ## The input side of a response pipe -/

/-- A response pipe: `pipe->left`, the compressor, what the encoder has produced, what is queued behind the head, and
    the `HIN_DONE` bit of the input. -/
structure Sender (Z : Zlib) where
  left : Int
  z : Z.State
  body : Bytes := []
  queued : Bytes := []
  done : Bool := false

namespace Sender

variable {Z : Zlib}

/-- `hin_pipe_start`: `hin_pipe_advance` reads nothing when there is nothing to read. -/
def start (Z : Zlib) (left : Int) : Sender Z := { left, z := Z.init, done := decide (left ≤ 0) }

/-- One call of the read callback. -/
def encode (enc : Encoder) (s : Sender Z) (data : Bytes) (flush : Bool) : Sender Z :=
  match enc with
  | .raw => { s with body := s.body ++ data, queued := s.queued ++ data }
  | .chunked => { s with body := s.body ++ data, queued := s.queued ++ hinPipeCopyChunked data flush }
  | .deflate chunked =>
      let r := Z.feed s.z data flush
      { s with
        z := r.1
        body := s.body ++ r.2
        queued := s.queued ++ deflateLoop chunked flush (r.2.length + 1) r.2 }

/-- A read completes with `data`; no data is the end of the source, or an error of it. -/
def step (enc : Encoder) (s : Sender Z) (data : Bytes) : Option (Sender Z) :=
  if s.done = false ∧ (data.length : Int) ≤ s.left then
    let left := s.left - data.length
    let done := data.isEmpty || decide (left ≤ 0)
    some (({ s with left, done } : Sender Z).encode enc data done)
  else none

end Sender

/-! ## The deflate loop -/

/-- The full buffers and the rest of what is pending. -/
theorem deflateRoom_pos (chunked : Bool) : 0 < deflateRoom chunked := by
  cases chunked <;> decide

/-- Unchunked output is the pending bytes. -/
theorem deflateLoop_plain (flush : Bool) (fuel : Nat) (pending : Bytes) (h : pending.length < fuel) :
    deflateLoop false flush fuel pending = pending := by
  induction fuel generalizing pending with
  | zero => exact absurd h (Nat.not_lt_zero _)
  | succ fuel ih =>
      have hroom := deflateRoom_pos false
      unfold deflateLoop
      dsimp only
      have hbuffer : (if (pending.take (deflateRoom false)).isEmpty then []
          else deflateBuffer false (flush && !((pending.take (deflateRoom false)).length == deflateRoom false))
            (pending.take (deflateRoom false))) = pending.take (deflateRoom false) := by
        split
        · rename_i he
          exact (List.isEmpty_iff.mp he).symm
        · rfl
      rw [hbuffer]
      split
      · rename_i hfull
        rw [beq_iff_eq, List.length_take] at hfull
        rw [ih _ (by rw [List.length_drop]; omega), List.take_append_drop]
      · rename_i hfull
        rw [beq_iff_eq, List.length_take] at hfull
        exact List.take_of_length_le (by omega)

/-- **Chunked output.** The pending bytes in chunks, with the last chunk behind them exactly when the stream is being
    finished and what was pending is not a whole number of buffers. -/
theorem deflateLoop_chunked (flush : Bool) (fuel : Nat) (pending : Bytes) (h : pending.length < fuel) :
    ∃ chunks : List Bytes, (∀ c ∈ chunks, c ≠ []) ∧ chunks.flatten = pending ∧
      deflateLoop true flush fuel pending = chunks.flatMap frame ++
        if flush = true ∧ pending.length % deflateRoom true ≠ 0 then lastChunk else [] := by
  induction fuel generalizing pending with
  | zero => exact absurd h (Nat.not_lt_zero _)
  | succ fuel ih =>
      have hroom := deflateRoom_pos true
      unfold deflateLoop
      dsimp only
      by_cases hlt : pending.length < deflateRoom true
      · have htake : pending.take (deflateRoom true) = pending := List.take_of_length_le (Nat.le_of_lt hlt)
        have hfull : (pending.length == deflateRoom true) = false := by
          rw [beq_eq_false_iff_ne]
          omega
        rw [htake, hfull, Nat.mod_eq_of_lt hlt]
        cases pending with
        | nil => exact ⟨[], by simp, rfl, by simp⟩
        | cons c cs =>
            refine ⟨[c :: cs], by simp, by simp, ?_⟩
            cases flush <;> simp [deflateBuffer]
      · have hlen : (pending.take (deflateRoom true)).length = deflateRoom true := by
          rw [List.length_take]
          omega
        have hne : pending.take (deflateRoom true) ≠ [] := by
          intro he
          rw [he] at hlen
          simp at hlen
          omega
        obtain ⟨chunks, hchunks, hflat, hloop⟩ := ih (pending.drop (deflateRoom true))
          (by rw [List.length_drop]; omega)
        refine ⟨pending.take (deflateRoom true) :: chunks, ?_, ?_, ?_⟩
        · intro c hc
          rcases List.mem_cons.mp hc with rfl | hc
          · exact hne
          · exact hchunks c hc
        · rw [List.flatten_cons, hflat, List.take_append_drop]
        · have hmod : (pending.drop (deflateRoom true)).length % deflateRoom true =
              pending.length % deflateRoom true := by
            rw [List.length_drop, ← Nat.mod_eq_sub_mod (by omega)]
          have hempty : (pending.take (deflateRoom true)).isEmpty = false := by
            rwa [List.isEmpty_eq_false_iff]
          rw [hlen, hempty, hloop, hmod]
          simp [deflateBuffer]

/-! ## Runs of a response pipe -/

/-- The compressor after the pieces, none of them the last. -/
def Zlib.after (Z : Zlib) (ds : List Bytes) : Z.State := ds.foldl (fun z d => (Z.feed z d false).1) Z.init

/-- What the compressor produces for the last piece, when it is told to finish. -/
def Zlib.lastOutput (Z : Zlib) (ds : List Bytes) : Bytes :=
  match ds.getLast? with
  | none => []
  | some d => (Z.feed (Z.after ds.dropLast) d true).2

theorem Zlib.after_snoc (Z : Zlib) (ds : List Bytes) (d : Bytes) :
    Z.after (ds ++ [d]) = (Z.feed (Z.after ds) d false).1 := by
  unfold Zlib.after
  rw [List.foldl_append]
  rfl

/-- What the compressor has produced for the pieces, none of them the last. -/
def Zlib.soFar (Z : Zlib) (ds : List Bytes) : Bytes :=
  (ds.foldl (fun p d => ((Z.feed p.1 d false).1, p.2 ++ (Z.feed p.1 d false).2)) (Z.init, [])).2

/-- What it produces altogether: nothing where it is never called. -/
def Zlib.output (Z : Zlib) (ds : List Bytes) : Bytes := Z.soFar ds.dropLast ++ Z.lastOutput ds

/-- The complete stream for a source read in these pieces: an empty source has one as well. -/
def Zlib.stream (Z : Zlib) (ds : List Bytes) : Bytes := if ds = [] then (Z.feed Z.init [] true).2 else Z.output ds

theorem Zlib.soFar_snoc (Z : Zlib) (ds : List Bytes) (d : Bytes) :
    Z.soFar (ds ++ [d]) = Z.soFar ds ++ (Z.feed (Z.after ds) d false).2 := by
  have hstate : ∀ (p : Z.State × Bytes), (ds.foldl (fun p d => ((Z.feed p.1 d false).1, p.2 ++ (Z.feed p.1 d false).2)) p).1
      = ds.foldl (fun z d => (Z.feed z d false).1) p.1 := by
    intro p
    induction ds generalizing p with
    | nil => rfl
    | cons d ds ih => exact ih _
  unfold Zlib.soFar Zlib.after
  rw [List.foldl_append, List.foldl_cons, List.foldl_nil, hstate]

theorem Zlib.lastOutput_snoc (Z : Zlib) (ds : List Bytes) (d : Bytes) :
    Z.lastOutput (ds ++ [d]) = (Z.feed (Z.after ds) d true).2 := by
  unfold Zlib.lastOutput
  rw [List.getLast?_append, List.dropLast_concat]
  rfl

section Runs

variable {Z : Zlib} {enc : Encoder} {count : Int} {ds : List Bytes} {s : Sender Z}

/-- The counter of the source, and what the end of it means: all bytes have come, or a read came back empty. -/
theorem sender_left (h : Lib.Run (Sender.step enc) (Sender.start Z count) ds s) :
    s.left = count - ds.flatten.length ∧ (s.done = false → 0 < s.left ∧ [] ∉ ds) ∧
      (s.done = true → s.left ≤ 0 ∨ [] ∈ ds) := by
  refine Lib.RunWith.invariant_trace (I := fun ds s => s.left = count - ds.flatten.length ∧
    (s.done = false → 0 < s.left ∧ [] ∉ ds) ∧ (s.done = true → s.left ≤ 0 ∨ [] ∈ ds)) ?_ ?_ h
  · refine ⟨by simp [Sender.start], fun hd => ⟨?_, by simp⟩, fun hd => Or.inl ?_⟩
    · simpa [Sender.start] using hd
    · simpa [Sender.start] using hd
  · rintro ds s d s' ⟨hleft, hopen, -⟩ - hs
    unfold Sender.step at hs
    split at hs
    · rename_i hc
      have hs := Option.some.inj hs
      have hs'left : s'.left = s.left - d.length ∧ s'.done = (d.isEmpty || decide (s.left - d.length ≤ 0)) := by
        rw [← hs]
        unfold Sender.encode
        cases enc <;> exact ⟨rfl, rfl⟩
      obtain ⟨hpos, hno⟩ := hopen hc.1
      rw [hs'left.1, hs'left.2]
      refine ⟨?_, ?_, ?_⟩
      · rw [List.flatten_append, List.length_append, hleft]
        simp
        omega
      · intro hd
        simp only [Bool.or_eq_false_iff, decide_eq_false_iff_not, not_le] at hd
        refine ⟨hd.2, ?_⟩
        rw [List.mem_append, List.mem_singleton]
        rintro (hm | hm)
        · exact hno hm
        · rw [← hm] at hd
          exact absurd hd.1 (by simp)
      · intro hd
        simp only [Bool.or_eq_true, decide_eq_true_eq] at hd
        rcases hd with hd | hd
        · exact Or.inr (List.mem_append_right _ (List.mem_singleton.mpr (List.isEmpty_iff.mp hd).symm))
        · exact Or.inl hd
    · exact absurd hs (by simp)

/-- A raw pipe queues the bytes it reads. -/
theorem sender_raw (h : Lib.Run (Sender.step .raw) (Sender.start Z count) ds s) :
    s.queued = ds.flatten ∧ s.body = ds.flatten := by
  refine Lib.RunWith.invariant_trace (I := fun ds s => s.queued = ds.flatten ∧ s.body = ds.flatten) ?_ ?_ h
  · exact ⟨rfl, rfl⟩
  · rintro ds s d s' ⟨hq, hb⟩ - hs
    unfold Sender.step at hs
    split at hs
    · rw [← Option.some.inj hs]
      unfold Sender.encode
      rw [List.flatten_append, ← hq]
      exact ⟨by simp, by simp [hb, hq]⟩
    · exact absurd hs (by simp)

/-- A compressing pipe without chunks queues the compressed stream. -/
theorem sender_deflate_plain (h : Lib.Run (Sender.step (.deflate false)) (Sender.start Z count) ds s) :
    s.queued = s.body := by
  refine Lib.RunWith.invariant (I := fun s => s.queued = s.body) rfl ?_ h
  intro s d s' hq _ hs
  unfold Sender.step at hs
  split at hs
  · rw [← Option.some.inj hs]
    unfold Sender.encode
    dsimp only
    rw [hq, deflateLoop_plain _ _ _ (Nat.lt_succ_self _)]
  · exact absurd hs (by simp)

/-- A compressing pipe has produced what the compressor has; when the source has ended, all of it. -/
theorem sender_deflate_body {c : Bool} (h : Lib.Run (Sender.step (.deflate c)) (Sender.start Z count) ds s) :
    (s.done = false → s.z = Z.after ds ∧ s.body = Z.soFar ds) ∧ (s.done = true → s.body = Z.output ds) := by
  refine Lib.RunWith.invariant_trace (I := fun ds s => (s.done = false → s.z = Z.after ds ∧ s.body = Z.soFar ds) ∧
    (s.done = true → s.body = Z.output ds)) ?_ ?_ h
  · exact ⟨fun _ => ⟨rfl, rfl⟩, fun _ => rfl⟩
  · rintro ds s d s' ⟨hopen, -⟩ - hs
    unfold Sender.step at hs
    split at hs
    · rename_i hc
      obtain ⟨hz, hbody⟩ := hopen hc.1
      rw [← Option.some.inj hs]
      unfold Sender.encode
      dsimp only
      constructor
      · intro hd
        rw [hd, Zlib.after_snoc, Zlib.soFar_snoc, hz, hbody]
        exact ⟨rfl, rfl⟩
      · intro hd
        rw [hd, Zlib.output, List.dropLast_concat, Zlib.lastOutput_snoc, hz, hbody]
    · exact absurd hs (by simp)

/-- **What a chunking, compressing pipe has queued.** Chunks of the compressed stream; when the source has ended, the
    last chunk behind them, unless the output of that moment fills a whole number of buffers. -/
theorem sender_deflate_chunked (h : Lib.Run (Sender.step (.deflate true)) (Sender.start Z count) ds s) :
    (s.done = false → s.z = Z.after ds) ∧
    ∃ chunks : List Bytes, (∀ c ∈ chunks, c ≠ []) ∧ chunks.flatten = s.body ∧
      s.queued = chunks.flatMap frame ++
        if s.done = true ∧ (Z.lastOutput ds).length % deflateRoom true ≠ 0 then lastChunk else [] := by
  refine Lib.RunWith.invariant_trace (I := fun ds s => (s.done = false → s.z = Z.after ds) ∧
    ∃ chunks : List Bytes, (∀ c ∈ chunks, c ≠ []) ∧ chunks.flatten = s.body ∧
      s.queued = chunks.flatMap frame ++
        if s.done = true ∧ (Z.lastOutput ds).length % deflateRoom true ≠ 0 then lastChunk else []) ?_ ?_ h
  · exact ⟨fun _ => rfl, [], by simp, rfl, by simp [Sender.start, Zlib.lastOutput]⟩
  · rintro ds s d s' ⟨hz, chunks, hne, hflat, hq⟩ - hs
    unfold Sender.step at hs
    split at hs
    · rename_i hc
      have hz := hz hc.1
      obtain ⟨done, hdone⟩ : ∃ done, done = (d.isEmpty || decide (s.left - d.length ≤ 0)) := ⟨_, rfl⟩
      dsimp only at hs
      rw [← hdone] at hs
      obtain ⟨more, hmne, hmflat, hmore⟩ := deflateLoop_chunked done ((Z.feed s.z d done).2.length + 1)
        (Z.feed s.z d done).2 (Nat.lt_succ_self _)
      -- nothing is queued behind the chunks while the source is open
      rw [hc.1] at hq
      simp only [Bool.false_eq_true, false_and, if_false, List.append_nil] at hq
      rw [← Option.some.inj hs]
      unfold Sender.encode
      dsimp only
      refine ⟨?_, chunks ++ more, ?_, ?_, ?_⟩
      · intro hd
        rw [hd, Zlib.after_snoc, hz]
      · intro c hcm
        rcases List.mem_append.mp hcm with hcm | hcm
        · exact hne c hcm
        · exact hmne c hcm
      · rw [List.flatten_append, hflat, hmflat]
      · rw [hq, hmore, List.flatMap_append, List.append_assoc, Zlib.lastOutput_snoc, ← hz]
        cases done <;> rfl
    · exact absurd hs (by simp)

/-- **When the chunked body is whole.** -/
theorem sender_chunked_body_iff (h : Lib.Run (Sender.step (.deflate true)) (Sender.start Z count) ds s)
    (hdone : s.done = true) : (∃ chunks, Body chunks s.queued ∧ chunks.flatten = s.body) ↔
      (Z.lastOutput ds).length % deflateRoom true ≠ 0 := by
  obtain ⟨-, chunks, hne, hflat, hq⟩ := sender_deflate_chunked h
  constructor
  · rintro ⟨found, hbody, -⟩ hmod
    rw [if_neg (by simp [hmod]), List.append_nil] at hq
    rw [hq] at hbody
    exact not_body_frames hne found hbody
  · intro hmod
    rw [if_pos ⟨hdone, hmod⟩] at hq
    exact ⟨chunks, hq ▸ body_frames hne, hflat⟩

end Runs

end Http
end Hin9
