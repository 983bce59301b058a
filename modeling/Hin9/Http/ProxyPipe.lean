import Hin9.Http.ChunkDecodeCorrect
import Hin9.Http.UpstreamRead

/-!
# `Http.ProxyPipe` — what the response pipe makes of a well-formed response

`Tracks` says where the proxy stands when it has received a part of a response: it waits for the rest of the head, or
its pipe has handed on what there is of the body. One lemma for the read that completes the head, one for the reads of
the pipe, and `proxy_tracks` for a whole run.
-/

namespace Hin9
namespace Http

open Netcode (READ_SZ)
open Lib (RunWith)
open Lib.Chunked

/-! ## Reads -/

/-- The server sends this response: the reads bring its bytes in order, and the connection does not end before the pipe
    has what it reads. -/
def Arrives (r : UpstreamResponse) (s : ProxyState) (e : ProxyEvent) : Prop :=
  e.data ≠ [] ∧ s.received ++ e.data <+: r.wire

/-- The part of the body that has been received. -/
def bodyOf (r : UpstreamResponse) (received : Bytes) : Bytes := received.drop r.head.length

/-- **The reads are cut well.** As long as a part of the head is missing, no line feed behind the buffer ends it; and
    the cuts of a chunked body are such that the decoder survives them. -/
def CutsProxy (r : UpstreamResponse) (s : ProxyState) (e : ProxyEvent) : Prop :=
  (match e with
    | .lines data behind => (s.received ++ data).length < r.head.length → EndsInside behind (s.received ++ data)
    | .body _ => True) ∧
  match r.framing with
  | .chunked .. =>
      let before := bodyOf r s.received
      let after := bodyOf r (s.received ++ e.data)
      after ≠ [] → GoodCut (place before) (place after) (after.drop before.length) [0]
  | _ => True

/-! ## Calls of the encoder -/

/-- The calls made so far: with `flush` the last one, and only when the pipe is done. -/
def Flushed : Bool → List (Bytes × Bool) → Prop
  | true, calls => ∃ (ps : List Bytes) (d : Bytes), calls = ps.map (·, false) ++ [(d, true)]
  | false, calls => ∃ ps : List Bytes, calls = ps.map (·, false)

theorem Flushed.append {done : Bool} {calls more : List (Bytes × Bool)} (h : Flushed false calls)
    (hmore : Flushed done more) : Flushed done (calls ++ more) := by
  obtain ⟨ps, rfl⟩ := h
  cases done with
  | true =>
      obtain ⟨qs, d, rfl⟩ := hmore
      exact ⟨ps ++ qs, d, by rw [List.map_append, List.append_assoc]⟩
  | false =>
      obtain ⟨qs, rfl⟩ := hmore
      exact ⟨ps ++ qs, (List.map_append ..).symm⟩

/-- What one call of the decoder hands on, behind `handed`. -/
def Hands (handed : List (Bytes × Bool)) (d : Decoded) : Prop := ∃ calls, d.handed = handed ++ calls ∧ Flushed d.done calls

theorem decodeSizeLine_hands {store : Bytes} {next : ChunkDecode → Bytes → Option Decoded} {st : ChunkDecode}
    {source : Bytes} {handed : List (Bytes × Bool)} {d : Decoded}
    (hnext : ∀ st source d, next st source = some d → Hands handed d)
    (h : decodeSizeLine store next st source handed = some d) : Hands handed d := by
  have hopen : ∀ (st : ChunkDecode) (ok : Bool), Hands handed ⟨st, handed, ok, false⟩ :=
    fun _ _ => ⟨[], (List.append_nil _).symm, [], rfl⟩
  unfold decodeSizeLine at h
  dsimp only at h
  split at h
  · split at h
    · obtain ⟨st', -, rfl⟩ := Option.map_eq_some_iff.mp h
      exact hopen st' true
    · obtain rfl := Option.some.inj h
      exact hopen st false
  · split at h
    · obtain rfl := Option.some.inj h
      exact ⟨[([], true)], rfl, [], [], rfl⟩
    · exact hnext _ _ _ h

/-- **The decoder flushes last.** By induction on the rounds of the loop. -/
theorem decodeLoop_hands {store : Bytes} (fuel : Nat) {handed : List (Bytes × Bool)} {st : ChunkDecode} {source : Bytes}
    {d : Decoded} (h : decodeLoop store fuel handed st source = some d) : Hands handed d := by
  have hopen : ∀ (handed : List (Bytes × Bool)) (st : ChunkDecode) (ok : Bool), Hands handed ⟨st, handed, ok, false⟩ :=
    fun _ _ _ => ⟨[], (List.append_nil _).symm, [], rfl⟩
  induction fuel generalizing handed st source d with
  | zero =>
      obtain rfl := Option.some.inj h
      exact hopen handed st false
  | succ fuel ih =>
      unfold decodeLoop at h
      split at h
      · -- a piece of the chunk is handed on first
        dsimp only at h
        have hpiece : ∀ piece, Hands (handed ++ [(piece, false)]) d → Hands handed d := by
          rintro piece ⟨calls, hcalls, hflushed⟩
          refine ⟨(piece, false) :: calls, by rw [hcalls, List.append_assoc]; rfl, ?_⟩
          exact Flushed.append ⟨[piece], rfl⟩ hflushed
        refine hpiece (source.take (min st.chunkSz source.length)) ?_
        split at h
        · obtain rfl := Option.some.inj h
          exact hopen _ _ true
        · split at h
          · obtain ⟨st', -, rfl⟩ := Option.map_eq_some_iff.mp h
            exact hopen _ st' true
          · split at h
            · obtain rfl := Option.some.inj h
              exact hopen _ _ false
            · exact decodeSizeLine_hands (fun _ _ _ hn => ih hn) h
      · exact decodeSizeLine_hands (fun _ _ _ hn => ih hn) h

theorem hinPipeDecodeChunked_hands {st : ChunkDecode} {data slack : Bytes} {d : Decoded}
    (h : hinPipeDecodeChunked st data slack = some d) : Flushed d.done d.handed := by
  unfold hinPipeDecodeChunked at h
  split at h
  · exact absurd h (by simp)
  · dsimp only at h
    split at h
    · obtain rfl := Option.some.inj h
      exact ⟨[], rfl⟩
    · obtain ⟨calls, hcalls, hflushed⟩ := decodeLoop_hands _ h
      rw [hcalls]
      exact hflushed

/-! ## The pipe -/

/-- A counted pipe that has read `got` of `n` bytes. -/
structure Counts (n : Nat) (got : Bytes) (p : BodyPipe) (calls : List (Bytes × Bool)) : Prop where
  decode : p.decode = none
  left : p.left = some ((n : Int) - got.length)
  done : p.done = decide (n ≤ got.length)
  handed : calls.flatMap (·.1) = got
  flushed : Flushed p.done calls

/-- A decoding pipe that has read `got` of the encoding `enc`. -/
def Decodes (enc got : Bytes) (p : BodyPipe) (calls : List (Bytes × Bool)) : Prop :=
  ∃ rcv : Receiver, Synced enc rcv ∧ rcv.received = got ∧ p.decode = some rcv.state ∧ p.left = none ∧
    p.done = rcv.done ∧ rcv.handed = calls ∧ Flushed p.done calls

theorem Counts.exhausted {n : Nat} {got : Bytes} {p : BodyPipe} {calls : List (Bytes × Bool)} (h : Counts n got p calls) :
    p.exhausted = p.done := by
  unfold BodyPipe.exhausted
  rw [h.left, h.done]
  dsimp only
  rw [decide_eq_decide]
  omega

/-- **One read of a counted pipe.** -/
theorem Counts.process {n : Nat} {got : Bytes} {p : BodyPipe} {calls : List (Bytes × Bool)} (h : Counts n got p calls)
    (hdone : p.done = false) (data : Bytes) :
    ∃ q, p.process data = some q ∧ Counts n (got ++ data) q (calls ++ p.calls data) := by
  have hleft : p.left.map (· - (data.length : Int)) = some ((n : Int) - (got ++ data).length) := by
    rw [h.left, Option.map_some, List.length_append]
    congr 1
    omega
  have hflush : ∀ (decode : Option ChunkDecode) (done : Bool),
      (⟨p.left.map (· - (data.length : Int)), decode, done⟩ : BodyPipe).exhausted = decide (n ≤ (got ++ data).length) := by
    intro decode done
    unfold BodyPipe.exhausted
    dsimp only
    rw [hleft]
    dsimp only
    rw [decide_eq_decide]
    omega
  have hcalls : p.calls data = [(data, decide (n ≤ (got ++ data).length))] := by
    unfold BodyPipe.calls
    rw [h.decode]
    dsimp only
    rw [hflush, hdone, Bool.false_or]
  refine ⟨{ p with left := some ((n : Int) - (got ++ data).length), done := decide (n ≤ (got ++ data).length) }, ?_, ?_⟩
  · unfold BodyPipe.process
    dsimp only
    rw [h.decode, hflush, hdone, Bool.false_or, hleft]
  · refine ⟨h.decode, rfl, rfl, ?_, ?_⟩
    · rw [List.flatMap_append, h.handed, hcalls]
      simp
    · have hflushed := h.flushed
      rw [hdone] at hflushed
      rw [hcalls]
      refine hflushed.append ?_
      cases decide (n ≤ (got ++ data).length) with
      | true => exact ⟨[], data, rfl⟩
      | false => exact ⟨[data], rfl⟩

/-- **One read of a decoding pipe** that is cut well. -/
theorem Decodes.process {chunks : List Bytes} {enc trailer got data : Bytes} {p : BodyPipe} {calls : List (Bytes × Bool)}
    (henc : Encodes chunks enc) (hsize : ∀ c ∈ chunks, c.length ≤ longMax) (h : Decodes (enc ++ trailer) got p calls)
    (hdone : p.done = false) (hne : data ≠ []) (hpre : got ++ data <+: enc ++ trailer)
    (hcut : GoodCut (place got) (place (got ++ data)) data [0]) :
    ∃ q, p.process data = some q ∧ Decodes (enc ++ trailer) (got ++ data) q (calls ++ p.calls data) := by
  obtain ⟨rcv, hsync, rfl, hdecode, hleft, hpdone, rfl, hflushed⟩ := h
  have hrdone : rcv.done = false := hpdone.symm.trans hdone
  have hcuts : CutsWell rcv (data, [0]) := hcut
  cases hcall : hinPipeDecodeChunked rcv.state data [0] with
  | none =>
      -- the decoder cannot leave its buffer
      have hstep : rcv.step (enc ++ trailer) (data, [0]) =
          some { rcv with received := rcv.received ++ data, fault := true } := by
        unfold Receiver.step
        rw [if_pos ⟨hne, hrdone, hsync.fault, hpre⟩]
        dsimp only
        rw [hcall]
      exact absurd (Receiver.step_synced henc hsize hsync hcuts hstep).fault (by simp)
  | some d =>
      have hstep : rcv.step (enc ++ trailer) (data, [0]) =
          some { rcv with
            state := d.state
            received := rcv.received ++ data
            handed := rcv.handed ++ d.handed
            done := d.done
            failed := rcv.failed || !d.ok } := by
        unfold Receiver.step
        rw [if_pos ⟨hne, hrdone, hsync.fault, hpre⟩]
        dsimp only
        rw [hcall]
      have hsync' := Receiver.step_synced henc hsize hsync hcuts hstep
      have hcalls : p.calls data = d.handed := by
        unfold BodyPipe.calls
        rw [hdecode]
        dsimp only
        rw [hcall]
        rfl
      have hexhausted : ∀ (decode : Option ChunkDecode) (done : Bool),
          (⟨p.left.map (· - (data.length : Int)), decode, done⟩ : BodyPipe).exhausted = false := by
        intro decode done
        unfold BodyPipe.exhausted
        rw [hleft]
        rfl
      refine ⟨{ p with decode := some d.state, done := d.done }, ?_, ?_⟩
      · unfold BodyPipe.process
        dsimp only
        rw [hdecode, hexhausted, hdone]
        dsimp only
        rw [hcall, hleft]
        rfl
      · rw [hdone] at hflushed
        refine ⟨_, hsync', rfl, rfl, hleft, rfl, ?_, ?_⟩
        · rw [hcalls]
        · rw [hcalls]
          exact hflushed.append (hinPipeDecodeChunked_hands hcall)

/-- Where the pipe of a response stands that has read `got`, with `tail` read together with the head. A pipe that does
    not know how much there is to read ends with the tail. -/
def PipeTracks (r : UpstreamResponse) (tail got : Bytes) (p : BodyPipe) (calls : List (Bytes × Bool)) : Prop :=
  match r.framing with
  | .chunked _ enc trailer => Decodes (enc ++ trailer) got p calls
  | .length (n + 1) => Counts (n + 1) got p calls
  | _ => p.done = true ∧ got = tail ∧ calls = if tail = [] then [] else [(tail, true)]

/-- Where the proxy stands. -/
def Tracks (r : UpstreamResponse) (s : ProxyState) : Prop :=
  match s.phase with
  | .waiting => s.received <+: r.head ∧ s.received.length < r.head.length
  | .piping u p calls =>
      ∃ tail got, u = r.upstreamHead tail ∧ s.received = r.head ++ got ∧ got <+: r.payload ∧ PipeTracks r tail got p calls
  | .failed => False

namespace UpstreamResponse

variable {r : UpstreamResponse}

/-- A counted body is as long as it is announced. -/
theorem WellFormed.length_body (hr : r.WellFormed) {n : Nat} (hframing : r.framing = .length n) : r.body.length = n := by
  have hframed := hr.framed
  unfold Framed at hframed
  rw [hframing] at hframed
  exact hframed.2.2.2

/-- A chunked body is encoded by its chunks. -/
theorem WellFormed.encodes (hr : r.WellFormed) {chunks : List Bytes} {enc trailer : Bytes}
    (hframing : r.framing = .chunked chunks enc trailer) : Encodes chunks enc ∧ r.body = chunks.flatten := by
  have hframed := hr.framed
  unfold Framed at hframed
  rw [hframing] at hframed
  exact hframed.2.2.2

/-- All bytes that came with the head go through the pipe at once. -/
theorem firstPiece_tail (hr : r.WellFormed) {tail : Bytes} (htail : tail <+: r.payload) :
    firstPiece false (r.upstreamHead tail) = tail.length := by
  have hlen : (r.upstreamHead tail).rest.len = tail.length := rfl
  unfold firstPiece
  rw [if_neg Bool.false_ne_true, hlen]
  split
  · rename_i hsz
    cases hframing : r.framing with
    | length n =>
        have hbody := hr.length_body hframing
        have hle := htail.length_le
        have hsz' : (r.upstreamHead tail).framing.sz = n := by
          show r.noted.sz = n
          unfold noted
          rw [hframing]
        have hpayload : r.payload = r.body := by
          unfold payload
          rw [hframing]
        rw [hsz'] at hsz
        rw [hpayload, hbody] at hle
        omega
    | chunked chunks enc trailer =>
        have hsz' : (r.upstreamHead tail).framing.sz = 0 := by
          show r.noted.sz = 0
          unfold noted
          rw [hframing]
        exact absurd hsz' hsz.1
    | close =>
        have hsz' : (r.upstreamHead tail).framing.sz = 0 := by
          show r.noted.sz = 0
          unfold noted
          rw [hframing]
        exact absurd hsz' hsz.1
  · rfl

end UpstreamResponse

section

variable {r : UpstreamResponse}

theorem Counts.start {n : Nat} {got : Bytes} {p : BodyPipe} {calls : List (Bytes × Bool)} (h : Counts n got p calls) :
    p.start = p := by
  unfold BodyPipe.start
  rw [h.exhausted, Bool.or_self]

theorem Decodes.start {enc got : Bytes} {p : BodyPipe} {calls : List (Bytes × Bool)} (h : Decodes enc got p calls) :
    p.start = p := by
  obtain ⟨rcv, -, -, -, hleft, -⟩ := h
  have hexhausted : p.exhausted = false := by
    unfold BodyPipe.exhausted
    rw [hleft]
  unfold BodyPipe.start
  rw [hexhausted, Bool.or_false]

/-- Nothing of a counted body has been read. -/
theorem Counts.init (n : Nat) : Counts (n + 1) [] { left := some ((n + 1 : Nat) : Int), decode := none } [] :=
  ⟨rfl, by simp, by simp, rfl, [], rfl⟩

/-- Nothing of a chunked body has been read. -/
theorem Decodes.init (enc : Bytes) : Decodes enc [] { left := none, decode := some {} } [] :=
  ⟨{}, ⟨List.nil_prefix, rfl, rfl, rfl, rfl, rfl, rfl, fun _ => rfl⟩, rfl, rfl, rfl, rfl, rfl, [], rfl⟩

/-- **The pipe is started** with what came together with the head. -/
theorem startPipe_tracks (hr : r.WellFormed) (hp : r.Plain) {tail : Bytes} (htail : tail <+: r.payload)
    (hcut : ∀ chunks enc trailer, r.framing = .chunked chunks enc trailer → tail ≠ [] →
      GoodCut (place []) (place tail) tail [0]) :
    ∃ q calls, startPipe false (r.upstreamHead tail) = .piping (r.upstreamHead tail) q calls ∧
      PipeTracks r tail tail q calls := by
  have hpiece : (r.upstreamHead tail).rest.data.take (firstPiece false (r.upstreamHead tail)).toNat = tail := by
    rw [UpstreamResponse.firstPiece_tail hr htail, Int.toNat_natCast]
    exact List.take_length
  have hlen : 0 < firstPiece false (r.upstreamHead tail) ↔ tail ≠ [] := by
    rw [UpstreamResponse.firstPiece_tail hr htail, Int.natCast_pos]
    exact List.length_pos_iff
  have hnoted : (r.upstreamHead tail).framing = r.noted := rfl
  unfold startPipe
  dsimp only
  rw [hpiece, hnoted]
  simp only [hlen]
  unfold UpstreamResponse.noted PipeTracks
  cases hframing : r.framing with
  | length n =>
      cases n with
      | zero =>
          -- a body of no bytes is not told from one that is not counted
          have hnil : tail = [] := by
            have hpayload : r.payload = r.body := by
              unfold UpstreamResponse.payload
              rw [hframing]
            rw [hpayload, List.length_eq_zero_iff.mp (hr.length_body hframing)] at htail
            exact List.prefix_nil.mp htail
          subst hnil
          refine ⟨_, [], rfl, rfl, rfl, rfl⟩
      | succ n =>
          have hinit := Counts.init n
          by_cases hnil : tail = []
          · subst hnil
            exact ⟨_, [], rfl, hinit.start ▸ hinit⟩
          · obtain ⟨q, hprocess, hq⟩ := hinit.process rfl tail
            have hprocess' : (BodyPipe.ofFraming false { sz := ((n + 1 : Nat) : Int) }).process tail = some q := hprocess
            rw [if_pos hnil, hprocess']
            refine ⟨_, _, rfl, ?_⟩
            dsimp only
            rw [hq.start]
            exact hq
  | chunked chunks enc trailer =>
      have hpayload : r.payload = enc ++ trailer := by
        unfold UpstreamResponse.payload
        rw [hframing]
      have hinit := Decodes.init (enc ++ trailer)
      by_cases hnil : tail = []
      · subst hnil
        exact ⟨_, [], rfl, hinit.start ▸ hinit⟩
      · obtain ⟨henc, -⟩ := hr.encodes hframing
        rw [hpayload] at htail
        obtain ⟨q, hprocess, hq⟩ := hinit.process henc (hp.chunks _ _ _ hframing) rfl hnil htail
          (hcut _ _ _ hframing hnil)
        have hprocess' : (BodyPipe.ofFraming false { chunked := true }).process tail = some q := hprocess
        rw [if_pos hnil, hprocess']
        refine ⟨_, _, rfl, ?_⟩
        dsimp only
        rw [hq.start]
        exact hq
  | close =>
      by_cases hnil : tail = []
      · subst hnil
        exact ⟨_, [], rfl, rfl, rfl, rfl⟩
      · have hflush : ∀ (decode : Option ChunkDecode) (done : Bool),
            (⟨some (0 - (tail.length : Int)), decode, done⟩ : BodyPipe).exhausted = true := by
          intro decode done
          show decide (0 - (tail.length : Int) ≤ 0) = true
          rw [decide_eq_true_eq]
          omega
        have huncounted : BodyPipe.ofFraming false {} = { left := some 0, decode := none } := rfl
        have hprocess : (BodyPipe.ofFraming false {}).process tail =
            some { left := some (0 - (tail.length : Int)), decode := none, done := true } := by
          rw [huncounted]
          unfold BodyPipe.process
          dsimp only
          rw [Option.map_some, hflush, Bool.or_true]
        have hcalls : (BodyPipe.ofFraming false {}).calls tail = [(tail, true)] := by
          rw [huncounted]
          unfold BodyPipe.calls
          dsimp only
          rw [Option.map_some, hflush, Bool.or_true]
        rw [if_pos hnil, hprocess, hcalls]
        exact ⟨_, _, rfl, rfl, rfl, (if_neg hnil).symm⟩

/-- A read of the body goes through the pipe. -/
theorem bodyOf_append {got data : Bytes} : bodyOf r (r.head ++ got ++ data) = got ++ data := by
  unfold bodyOf
  rw [List.append_assoc, List.drop_left]

/-- **One read.** By cases on what is read: a part of the head, the end of it, or a part of the body. -/
theorem proxyStep_tracks (hr : r.WellFormed) (hp : r.Plain) {s s' : ProxyState} {e : ProxyEvent} (h : Tracks r s)
    (harr : Arrives r s e) (hcut : CutsProxy r s e) (hs : proxyStep false s e = some s') : Tracks r s' := by
  obtain ⟨hne, hpre⟩ := harr
  obtain ⟨hin, hchunks⟩ := hcut
  obtain ⟨received, phase⟩ := s
  cases e with
  | lines data behind =>
      cases phase with
      | piping u p calls => exact absurd hs (by simp [proxyStep])
      | failed => exact h.elim
      | waiting =>
          obtain ⟨hhead, hlt⟩ : received <+: r.head ∧ received.length < r.head.length := h
          have hdata : data ≠ [] := hne
          have hgot : received ++ data ≠ [] := by simp [hdata]
          unfold proxyStep at hs
          dsimp only [ProxyEvent.data] at hs hin hpre hchunks
          rw [if_neg hdata] at hs
          by_cases hpart : (received ++ data).length < r.head.length
          · have hsub : received ++ data <+: r.head :=
              List.prefix_of_prefix_length_le hpre ⟨r.payload, rfl⟩ (Nat.le_of_lt hpart)
            rw [UpstreamResponse.httpClientHeaders_missing hr hgot hsub hpart (hin hpart)] at hs
            obtain rfl := Option.some.inj hs
            exact ⟨hsub, hpart⟩
          · obtain ⟨tail, htail⟩ : r.head <+: received ++ data :=
              List.prefix_of_prefix_length_le ⟨r.payload, rfl⟩ hpre (Nat.le_of_not_lt hpart)
            rw [← htail] at hpre hs hchunks
            have htailpre : tail <+: r.payload := (List.prefix_append_right_inj _).mp hpre
            rw [UpstreamResponse.httpClientHeaders_whole hr hp] at hs
            dsimp only at hs
            have hbefore : bodyOf r received = [] := List.drop_eq_nil_of_le (Nat.le_of_lt hlt)
            have hafter : bodyOf r (r.head ++ tail) = tail := List.drop_left
            obtain ⟨q, calls, hstart, htracks⟩ := startPipe_tracks hr hp htailpre (by
              intro chunks enc trailer hframing hnil
              rw [hframing] at hchunks
              dsimp only at hchunks
              rw [hbefore, hafter] at hchunks
              exact hchunks hnil)
            rw [hstart] at hs
            obtain rfl := Option.some.inj hs
            exact ⟨tail, tail, rfl, rfl, htailpre, htracks⟩
  | body data =>
      cases phase with
      | waiting => exact absurd hs (by simp [proxyStep])
      | failed => exact h.elim
      | piping u p calls =>
          obtain ⟨tail, got, rfl, rfl, -, htracks⟩ : ∃ tail got, u = r.upstreamHead tail ∧ received = r.head ++ got ∧
            got <+: r.payload ∧ PipeTracks r tail got p calls := h
          have hdata : data ≠ [] := hne
          unfold proxyStep at hs
          dsimp only [ProxyEvent.data] at hs hpre hchunks
          split at hs
          · exact absurd hs (by simp)
          rename_i hread
          have hdone : p.done = false := Bool.eq_false_iff.mpr fun hd => hread (.inl hd)
          have hsame : ({ p with done := data.isEmpty } : BodyPipe) = p := by
            rw [List.isEmpty_eq_false_iff.mpr hdata, ← hdone]
          have hbefore : bodyOf r (r.head ++ got) = got := List.drop_left
          rw [bodyOf_append, hbefore, List.drop_left] at hchunks
          rw [hsame] at hs
          have hsub : got ++ data <+: r.payload := by
            unfold UpstreamResponse.wire at hpre
            rwa [List.append_assoc, List.prefix_append_right_inj] at hpre
          unfold PipeTracks at htracks
          have hwrite : ∀ {q : BodyPipe}, PipeTracks r tail (got ++ data) q (calls ++ p.calls data) →
              p.process data = some q → Tracks r s' := by
            intro q hq hprocess
            rw [hprocess] at hs
            obtain rfl := Option.some.inj hs
            exact ⟨tail, got ++ data, rfl, List.append_assoc _ _ _, hsub, hq⟩
          cases hframing : r.framing with
          | length n =>
              rw [hframing] at htracks
              cases n with
              | zero => exact absurd (hdone.symm.trans htracks.1) (by simp)
              | succ n =>
                  dsimp only at htracks
                  obtain ⟨q, hprocess, hq⟩ := htracks.process hdone data
                  refine hwrite ?_ hprocess
                  unfold PipeTracks
                  rw [hframing]
                  exact hq
          | chunked chunks enc trailer =>
              rw [hframing] at htracks hchunks
              dsimp only at htracks hchunks
              have hpayload : r.payload = enc ++ trailer := by
                unfold UpstreamResponse.payload
                rw [hframing]
              rw [hpayload] at hsub
              obtain ⟨q, hprocess, hq⟩ := htracks.process (hr.encodes hframing).1 (hp.chunks _ _ _ hframing) hdone hdata
                hsub (hchunks (by simp [hdata]))
              refine hwrite ?_ hprocess
              unfold PipeTracks
              rw [hframing]
              exact hq
          | close =>
              rw [hframing] at htracks
              exact absurd (hdone.symm.trans htracks.1) (by simp)

/-- **A response on its way.** -/
theorem proxy_tracks (hr : r.WellFormed) (hp : r.Plain) {es : List ProxyEvent} {s : ProxyState}
    (hrun : RunWith (proxyStep false) (fun s e => Arrives r s e ∧ CutsProxy r s e) {} es s) : Tracks r s := by
  refine hrun.invariant (I := Tracks r) ?_ fun s e s' h hg hs => proxyStep_tracks hr hp h hg.1 hg.2 hs
  have hpos : 0 < r.head.length := by
    have h := lines_length_le (r.statusLine :: r.lines)
    unfold UpstreamResponse.head
    omega
  exact ⟨List.nil_prefix, hpos⟩

end

end Http
end Hin9
