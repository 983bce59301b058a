import Hin9.Http.ChunkEncode
import Hin9.Http.ProxyPipe

/-!
# `Http.ChunkRelay` — a chunked body that is handed on (`filters.c`)

What `hin_pipe_copy_chunked` writes is what `hin_pipe_decode_chunked` reads, and a proxy does both: the pieces its decoder hands
on are the input of its own encoder. The decoder flushes once and last (`Relays.flushed`), which is what the encoder needs to end
its body; so a body keeps its contents over any number of hops (`chunked_relay`).
-/

namespace Hin9
namespace Http

open Lib (RunWith)
open Lib.Chunked

/-! ## The calls of a decoder -/

/-- A pass of the decoder behind passes that have not ended the body. -/
theorem flushed_step {enc : Bytes} {r r' : Receiver} {rd : Bytes × Bytes} (h : Flushed r.done r.handed)
    (hs : r.step enc rd = some r') : Flushed r'.done r'.handed := by
  unfold Receiver.step at hs
  split at hs
  rotate_left
  · exact absurd hs (by simp)
  rename_i hopen
  have hdone : r.done = false := hopen.2.1
  rw [hdone] at h
  cases hdecode : hinPipeDecodeChunked r.state rd.1 rd.2 with
  | none =>
      rw [hdecode] at hs
      obtain rfl := Option.some.inj hs
      show Flushed r.done r.handed
      rw [hdone]
      exact h
  | some d =>
      rw [hdecode] at hs
      obtain rfl := Option.some.inj hs
      exact h.append (hinPipeDecodeChunked_hands hdecode)

/-- **The decoder flushes once, and last.** -/
theorem flushed_run {enc : Bytes} {reads : List (Bytes × Bytes)} {r : Receiver}
    (h : RunWith (Receiver.step enc) CutsWell {} reads r) : Flushed r.done r.handed := by
  refine RunWith.invariant (I := fun r => Flushed r.done r.handed) ?_ ?_ h
  · exact ⟨[], rfl⟩
  · exact fun r rd r' hr _ hs => flushed_step hr hs

theorem Flushed.once {calls : List (Bytes × Bool)} (h : Flushed true calls) : FlushedOnce calls := by
  obtain ⟨ps, d, rfl⟩ := h
  refine ⟨ps.map (·, false), d, [], rfl, ?_, fun c hc => absurd hc List.not_mem_nil⟩
  intro c hc
  obtain ⟨p, -, rfl⟩ := List.mem_map.mp hc
  rfl

/-- What is received is a beginning of what is sent. -/
theorem received_prefix {enc : Bytes} {reads : List (Bytes × Bytes)} {r : Receiver}
    (h : RunWith (Receiver.step enc) CutsWell {} reads r) : r.received <+: enc := by
  refine RunWith.invariant (I := fun r => r.received <+: enc) List.nil_prefix ?_ h
  intro r rd r' _ _ hs
  unfold Receiver.step at hs
  split at hs
  rotate_left
  · exact absurd hs (by simp)
  rename_i hopen
  have hpre : r'.received = r.received ++ rd.1 := by
    split at hs <;> obtain rfl := Option.some.inj hs <;> rfl
  rw [hpre]
  exact hopen.2.2.2

/-! ## Hops -/

/-- The body `stream`, however chunked, carries these bytes. -/
def Carries (stream data : Bytes) : Prop := ∃ chunks, Body chunks stream ∧ chunks.flatten = data

/-- **A hop**: a proxy has decoded the whole body, whatever stood behind it and in whatever good cuts it came, and has chunked
    again what its decoder handed on. -/
def Relays (stream stream' : Bytes) : Prop :=
  ∃ rest reads r, RunWith (Receiver.step (stream ++ rest)) CutsWell {} reads r ∧ r.done = true ∧ stream' = encodeCalls r.handed

/-- No chunk is larger than the whole. -/
theorem chunk_le {chunks : List Bytes} {n : Nat} (h : chunks.flatten.length ≤ n) : ∀ c ∈ chunks, c.length ≤ n :=
  fun _ hc => (List.sublist_flatten_of_mem hc).length_le.trans h

/-- What a receiver has read of a body. -/
theorem Carries.received {stream data rest : Bytes} (h : Carries stream data) (hsize : data.length ≤ longMax)
    {reads : List (Bytes × Bytes)} {r : Receiver} (hrun : RunWith (Receiver.step (stream ++ rest)) CutsWell {} reads r) :
    r.fault = false ∧ r.failed = false ∧ r.output <+: data ∧ (r.done = true → r.output = data) := by
  obtain ⟨chunks, ⟨head, henc, rfl⟩, rfl⟩ := h
  have hchunks : ∀ c ∈ chunks, c.length ≤ longMax := chunk_le hsize
  rw [List.append_assoc] at hrun
  obtain ⟨hfault, hfailed, houtput, hdone, -, hwhole⟩ := chunk_decoder_correct chunks head _ henc hchunks reads r hrun
  refine ⟨hfault, hfailed, ?_, hwhole⟩
  cases hended : r.done with
  | true =>
      rw [hwhole hended]
  | false =>
      -- what is received so far is the beginning of the encoding
      have hshort : ¬head.length ≤ r.received.length := fun hle => absurd (hended.symm.trans (hdone.mpr hle)) (by simp)
      have hpre : r.received <+: head ++ ([CR, LF] ++ rest) := received_prefix hrun
      obtain ⟨more, hmore⟩ := List.prefix_of_prefix_length_le hpre (List.prefix_append _ _) (Nat.le_of_not_le hshort)
      rw [houtput, ← (henc.run_head hchunks).2, ← hmore, payload_append]
      exact List.prefix_append _ _

/-- **A hop keeps the contents.** -/
theorem Carries.relayed {stream stream' data : Bytes} (h : Carries stream data) (hsize : data.length ≤ longMax)
    (hhop : Relays stream stream') : Carries stream' data := by
  obtain ⟨rest, reads, r, hrun, hdone, rfl⟩ := hhop
  have hflushed := flushed_run hrun
  rw [hdone] at hflushed
  refine ⟨_, hflushed.once.body, ?_⟩
  rw [flatten_payloads, ← (h.received hsize hrun).2.2.2 hdone, Receiver.output, List.flatMap_def]

/-- Any number of hops. -/
theorem Carries.hops {stream stream' data : Bytes} (h : Carries stream data) (hsize : data.length ≤ longMax)
    (hhops : Relation.ReflTransGen Relays stream stream') : Carries stream' data := by
  induction hhops with
  | refl => exact h
  | tail _ hhop ih => exact ih.relayed hsize hhop

/-- The bytes a chunking pipe was given. -/
def ChunkPipe.sent (p : ChunkPipe) : Bytes := (p.calls.map Prod.fst).flatten

/-- **A chunked body arrives**, over any number of proxies that decode it and chunk it again, whatever the pieces in which it is
    written and, up to the cuts the decoder does not survive, read: the last receiver hands on nothing but what the first sender
    was given, in order, and all of it when it sees the end. -/
theorem chunked_relay {count inactive : Bool} {left : Int} {es : List ChunkEvent} {p : ChunkPipe}
    (hsend : RunWith chunkStep EndsWithBuffer (newChunkPipe count left inactive) es p) (hended : p.done = true)
    (hwhole : p.cut = false) (hsize : p.sent.length ≤ longMax) {stream : Bytes}
    (hhops : Relation.ReflTransGen Relays p.queued stream) :
    Carries stream p.sent ∧ ∀ (rest : Bytes) (reads : List (Bytes × Bytes)) (r : Receiver),
      RunWith (Receiver.step (stream ++ rest)) CutsWell {} reads r →
        r.fault = false ∧ r.failed = false ∧ r.output <+: p.sent ∧ (r.done = true → r.output = p.sent) := by
  have hsent : Carries p.queued p.sent :=
    ⟨_, (chunked_pipe_body count left inactive es p hsend).body hended hwhole, flatten_payloads _⟩
  have hcarries := hsent.hops hsize hhops
  exact ⟨hcarries, fun rest reads r hrun => hcarries.received hsize hrun⟩

/-- Two buffers, decoded and chunked again on the way. -/
theorem chunked_relay_sample : ∃ (p : ChunkPipe) (stream : Bytes), Relays p.queued stream ∧
    p.sent = bytes "abc" ∧ Carries stream p.sent := by
  have hsend : (Lib.execWith chunkStep endsWithBuffer (newChunkPipe true 3 false)
      [.write [[]], .advance true, .read (bytes "ab") true, .read (bytes "c") true]).map
        (fun p => (p.queued, p.done, p.cut, p.sent)) =
      some (bytes "2\r\nab\r\n1\r\nc\r\n0\r\n\r\n", true, false, bytes "abc") := by
    decide
  obtain ⟨p, hp, heq⟩ := Option.map_eq_some_iff.mp hsend
  simp only [Prod.mk.injEq] at heq
  obtain ⟨hqueued, hended, hwhole, hsent⟩ := heq
  have hrecv : (Lib.execWith (Receiver.step (bytes "2\r\nab\r\n1\r\nc\r\n0\r\n\r\n" ++ [])) (fun r rd => decide (CutsWell r rd)) {}
      [(bytes "2\r\na", []), (bytes "b", [0]), (bytes "\r\n1\r\nc\r\n0\r\n", [])]).map (fun r => r.done) = some true := by
    decide
  obtain ⟨r, hr, hdone⟩ := Option.map_eq_some_iff.mp hrecv
  have hhop : Relays p.queued (encodeCalls r.handed) := by
    rw [hqueued]
    exact ⟨[], _, r, Lib.RunWith.of_exec (G := CutsWell) (fun _ _ h => of_decide_eq_true h) _ hr, hdone, rfl⟩
  have hsize : p.sent.length ≤ longMax := by
    rw [hsent]
    decide
  exact ⟨p, _, hhop, hsent, (chunked_relay (Lib.RunWith.of_exec (fun _ _ hg => hg) _ hp) hended hwhole hsize (.single hhop)).1⟩

end Http
end Hin9
