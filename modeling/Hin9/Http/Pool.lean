import Hin9.Http.ChunkDecode
import Hin9.Http.Upstream
import Hin9.Lib.Runs

/-!
# `Http.Pool` — upstream connections that are used again (`connect.c`, `state.c`, `headers.c`, `data.c`)

A connection to an upstream server is kept when a response has been passed on, and the next request for the same host is
issued on it. It keeps its line buffer as well. A read of the buffer is always outstanding while the connection is idle
or waits for a head; from then on the response pipe reads.

Every byte is marked with the number of requests that had been issued when it was received, and `delivered` records
which bytes the proxy has taken for the response to which request.
-/

namespace Hin9
namespace Http

open Netcode (READ_SZ)
open Pattern (matchString)

/-! ## The pipe of a response -/

/-- The input side of the pipe that `http_client_start_pipe` and `hin_rproxy_headers` set up: `pipe->left` where
    `HIN_COUNT` is set, the chunk decoder, and `HIN_DONE`. -/
structure BodyPipe where
  left : Option Int
  decode : Option ChunkDecode
  done : Bool := false
deriving Repr, DecidableEq

def BodyPipe.ofFraming (head : Bool) (f : Framing) : BodyPipe :=
  if head then { left := some 0, decode := none }
  else if f.chunked then { left := none, decode := some {} }
  else { left := some f.sz, decode := none }

/-- Nothing is left to read. -/
def BodyPipe.exhausted (p : BodyPipe) : Bool :=
  match p.left with
  | some n => n ≤ 0
  | none => false

/-- `hin_pipe_process_buffer` on `data`. Behind the buffer lies a NUL somewhere, which stops the debug line of the
    decoder. -/
def BodyPipe.process (p : BodyPipe) (data : Bytes) : Option BodyPipe :=
  let p := { p with left := p.left.map (· - data.length) }
  let p := { p with done := p.done || p.exhausted }
  match p.decode with
  | none => some p
  | some st =>
      (hinPipeDecodeChunked st data [0]).map fun d => { p with decode := some d.state, done := p.done || d.done }

/-- `hin_pipe_start`. -/
def BodyPipe.start (p : BodyPipe) : BodyPipe := { p with done := p.done || p.exhausted }

/-! ## The connection -/

inductive Phase where
  | idle
  | waiting (head : Bool)   -- a request is issued, by `HEAD` or not
  | piping (p : BodyPipe)
  | closed
deriving Repr, DecidableEq

/-- A byte that was taken for a part of the response to `request`, received when `received` requests had been issued. -/
structure Delivered where
  request : Nat
  received : Nat
  byte : UInt8
deriving Repr, DecidableEq

/-- `http_client_t` with its line buffer. -/
structure Connection where
  mem : Nat → UInt8 × Nat
  count : Nat := 0
  request : Nat := 0
  phase : Phase := .idle
  delivered : List Delivered := []

/-- A new connection. The memory of the buffer holds anything. -/
def Connection.connect (garbage : Nat → UInt8) : Connection := { mem := fun i => (garbage i, 0) }

namespace Connection

variable (s : Connection)

/-- The bytes collected. -/
def lines : Bytes := (List.range s.count).map fun i => (s.mem i).1

/-- The byte behind them. -/
def behind : UInt8 := (s.mem s.count).1

/-- Bytes are read into the line buffer. -/
def append (data : Bytes) : Connection :=
  { s with
    mem := fun i => if s.count ≤ i ∧ i < s.count + data.length then (data.getD (i - s.count) 0, s.request) else s.mem i
    count := s.count + data.length }

/-- `hin_buffer_eat`: the bytes behind move to the front. -/
def hinBufferEat (n : Nat) : Connection :=
  { s with mem := fun i => if i < s.count - n then s.mem (i + n) else s.mem i, count := s.count - n }

/-- The first `n` bytes of the buffer are taken for the response. -/
def deliver (n : Nat) : Connection :=
  { s with delivered := s.delivered ++ (List.range n).map fun i => ⟨s.request, (s.mem i).2, (s.mem i).1⟩ }

/-- `http_client_headers_read_callback` and what `hin_lines_default_eat` makes of its result. Eating more than there is
    ends the server. -/
def headersRead (head : Bool) : Option Connection :=
  match httpClientHeaders s.behind s.lines with
  | .wait => some s
  | .error => some { s with phase := .closed }
  | .head h =>
      let len := firstPiece head h
      let headEnd := s.count - h.rest.len
      let p := BodyPipe.ofFraming head h.framing
      let started := if 0 < len then p.process (h.rest.data.take len.toNat) else some p
      started.bind fun p =>
        let t := s.deliver (headEnd + max len 0).toNat
        if headEnd + len < 0 then some { t with phase := .closed }
        else if s.count < headEnd + len then none
        else some { t.hinBufferEat (headEnd + len).toNat with phase := .piping p.start }

end Connection

/-! ## Steps -/

inductive PoolEvent where
  | request (head : Bool)      -- `http_connection_start`
  | received (data : Bytes)    -- the read of the line buffer completes
  | body (data : Bytes)        -- a read of the response pipe completes; nothing at the end or after an error
  | finished                   -- the response has been passed on, and the connection is released
  | closed                     -- the connection ends
deriving Repr, DecidableEq

/-- One event of the connection. A counted pipe asks for no more than what is left. -/
def Connection.step (s : Connection) : PoolEvent → Option Connection
  | .request head =>
      match s.phase with
      | .idle => some { s with request := s.request + 1, phase := .waiting head }
      | _ => none
  | .received data =>
      if data = [] then none
      else
        match s.phase with
        | .idle => some (s.append data)
        | .waiting head => (s.append data).headersRead head
        | _ => none
  | .body data =>
      match s.phase with
      | .piping p =>
          if p.done ∨ READ_SZ < data.length ∨ (p.left.map fun (n : Int) => decide (n < data.length)).getD false then none
          else
            ({ p with done := data.isEmpty } : BodyPipe).process data |>.map fun p =>
              { s with
                phase := .piping p
                delivered := s.delivered ++ data.map fun b => ⟨s.request, s.request, b⟩ }
      | _ => none
  | .finished =>
      match s.phase with
      | .piping p => if p.done then some { s with phase := .idle } else none
      | _ => none
  | .closed =>
      match s.phase with
      | .closed => none
      | _ => some { s with phase := .closed }

/-! ## The end of the head -/

/-- The byte behind the view does not end the blank line: it is no line feed, or no carriage return is in front of it. -/
def EndsInside (behind : UInt8) (data : Bytes) : Prop := behind ≠ LF ∨ data.getLast? ≠ some CR

instance (behind : UInt8) (data : Bytes) : Decidable (EndsInside behind data) :=
  inferInstanceAs (Decidable (behind ≠ LF ∨ data.getLast? ≠ some CR))

/-- What `hin_find_line` gives: a line of the view, or all of it in front of the byte behind. -/
theorem hinFindLine_cases {behind : UInt8} {s s' : Source} {line : Bytes} (h : hinFindLine behind s = some (line, s')) :
    s.beyond = false ∧ ((s'.beyond = false ∧ s'.data <:+ s.data) ∨
      (behind = LF ∧ s'.beyond = true ∧ line = dropCR s.data)) := by
  unfold hinFindLine at h
  split at h
  · exact absurd h (by simp)
  rename_i hb
  rw [Bool.not_eq_true] at hb
  refine ⟨hb, ?_⟩
  split at h
  · rename_i i hi
    obtain ⟨rfl, rfl⟩ := Prod.mk.inj (Option.some.inj h)
    exact .inl ⟨rfl, List.drop_suffix _ _⟩
  · split at h
    · rename_i hlf
      obtain ⟨rfl, rfl⟩ := Prod.mk.inj (Option.some.inj h)
      exact .inr ⟨hlf, rfl, rfl⟩
    · exact absurd h (by simp)

/-- Nothing is found behind the byte behind. -/
theorem hinFindLine_beyond {behind : UInt8} {s : Source} (h : s.beyond = true) : hinFindLine behind s = none := by
  unfold hinFindLine
  rw [if_pos h]

theorem dropCR_eq_nil {line : Bytes} (h : dropCR line = []) (hne : line ≠ []) : line.getLast? = some CR := by
  unfold dropCR at h
  split at h
  · assumption
  · exact absurd h hne

theorem getLast?_suffix {xs ys : Bytes} (h : xs <:+ ys) (hne : xs ≠ []) : xs.getLast? = ys.getLast? := by
  obtain ⟨pre, rfl⟩ := h
  rw [List.getLast?_append_of_ne_nil _ hne]

/-- **A head that is there ends inside of its view**, unless the byte behind ends it. -/
theorem headLines_inside {behind : UInt8} (fuel : Nat) {n : Nat} (hn : fuel ≤ n) {s : Source} (hne : s.data ≠ [])
    (hin : EndsInside behind s.data) (hthere : headThere behind fuel s = true) {f f' : Framing} {ls ls' : List Bytes}
    {rest : Source} (hlines : headLines behind n s f ls = some (rest, f', ls')) :
    rest.beyond = false ∧ rest.data <:+ s.data := by
  induction fuel generalizing n s f ls with
  | zero => exact absurd hthere Bool.false_ne_true
  | succ fuel ih =>
      obtain ⟨n, rfl⟩ : ∃ m, n = m + 1 := ⟨n - 1, by omega⟩
      unfold headThere at hthere
      unfold headLines at hlines
      cases hfind : hinFindLine behind s with
      | none =>
          rw [hfind] at hthere
          exact absurd hthere Bool.false_ne_true
      | some r =>
          obtain ⟨line, t⟩ := r
          rw [hfind] at hthere hlines
          dsimp only at hthere hlines
          obtain ⟨-, hcases⟩ := hinFindLine_cases hfind
          by_cases hline : line = []
          · rw [if_pos hline] at hlines
            obtain ⟨rfl, -⟩ := Prod.mk.inj (Option.some.inj hlines)
            rcases hcases with ⟨hb, hsuf⟩ | ⟨hlf, -, hdrop⟩
            · exact ⟨hb, hsuf⟩
            · -- the blank line is a carriage return in front of the byte behind
              have hcr := dropCR_eq_nil (hdrop.symm.trans hline) hne
              rcases hin with hin | hin
              · exact absurd hlf hin
              · exact absurd hcr hin
          · rw [if_neg hline] at hthere hlines
            split at hthere
            · exact absurd hthere Bool.false_ne_true
            rename_i hlen
            rcases hcases with ⟨hb, hsuf⟩ | ⟨-, hb, -⟩
            · have hne' : t.data ≠ [] := by
                intro hnil
                apply hlen
                unfold Source.len
                rw [hb, hnil]
                rfl
              have hin' : EndsInside behind t.data := by
                unfold EndsInside at hin ⊢
                rwa [getLast?_suffix hsuf hne']
              split at hlines
              · exact absurd hlines (by simp)
              · obtain ⟨hrest, hsub⟩ := ih (by omega) hne' hin' hthere hlines
                exact ⟨hrest, hsub.trans hsuf⟩
            · cases fuel with
              | zero => exact absurd hthere Bool.false_ne_true
              | succ fuel =>
                  unfold headThere at hthere
                  rw [hinFindLine_beyond hb] at hthere
                  exact absurd hthere Bool.false_ne_true

theorem httpClientHeaders_inside {behind : UInt8} {data : Bytes} {h : UpstreamHead} (hin : EndsInside behind data)
    (hhead : httpClientHeaders behind data = .head h) : h.rest.beyond = false ∧ h.rest.data <:+ data := by
  unfold httpClientHeaders at hhead
  split at hhead
  swap
  · exact absurd hhead (by simp)
  rename_i hthere
  split at hhead
  · exact absurd hhead (by simp)
  rename_i line s hfind
  dsimp only at hhead
  split at hhead
  · exact absurd hhead (by simp)
  rename_i htook
  split at hhead
  · exact absurd hhead (by simp)
  rename_i rest framing ls hlines
  obtain rfl := HeadRead.head.inj hhead
  dsimp only
  -- the status line is the first line of the first loop
  have hstatus : line ≠ [] := by
    rintro rfl
    have hnone : (matchString [] (bytes "HTTP/1.%d ([%d]+) %w+")).took = none := by decide
    exact absurd (hnone.symm.trans htook) (by simp)
  have hne : data ≠ [] := by
    rintro rfl
    obtain ⟨-, ⟨-, -⟩ | ⟨-, -, hdrop⟩⟩ := hinFindLine_cases hfind
    · unfold hinFindLine at hfind
      simp at hfind
      obtain ⟨-, hdrop, -⟩ := hfind
      exact hstatus (hdrop.symm.trans (by decide))
    · exact hstatus (hdrop.trans (by decide))
  unfold headThere at hthere
  rw [hfind] at hthere
  dsimp only at hthere
  rw [if_neg hstatus] at hthere
  split at hthere
  · exact absurd hthere Bool.false_ne_true
  rename_i hlen
  obtain ⟨-, ⟨hb, hsuf⟩ | ⟨-, hb, -⟩⟩ := hinFindLine_cases hfind
  · have hne' : s.data ≠ [] := by
      intro hnil
      apply hlen
      unfold Source.len
      rw [hb, hnil]
      rfl
    have hin' : EndsInside behind s.data := by
      unfold EndsInside at hin ⊢
      rwa [getLast?_suffix hsuf hne']
    obtain ⟨hrest, hsub⟩ := headLines_inside data.length (Nat.le_succ _) hne' hin' hthere hlines
    exact ⟨hrest, hsub.trans hsuf⟩
  · cases hlength : data.length with
    | zero => exact absurd (List.length_eq_zero_iff.mp hlength) hne
    | succ n =>
        rw [hlength] at hthere
        unfold headThere at hthere
        rw [hinFindLine_beyond hb] at hthere
        exact absurd hthere Bool.false_ne_true

/-! ## Which bytes are taken -/

/-- The proxy takes the bytes it has received since it issued the request, and no others. -/
def Connection.Fresh (s : Connection) : Prop := ∀ d ∈ s.delivered, d.received = d.request

/-- Nothing is left over when a request is issued, and the byte behind the buffer does not end a head. -/
def Clean (s : Connection) : PoolEvent → Prop
  | .request _ => s.count = 0
  | .received data => EndsInside (s.append data).behind (s.append data).lines
  | _ => True

instance (s : Connection) : (e : PoolEvent) → Decidable (Clean s e)
  | .request _ => inferInstanceAs (Decidable (s.count = 0))
  | .received data => inferInstanceAs (Decidable (EndsInside (s.append data).behind (s.append data).lines))
  | .body _ => isTrue trivial
  | .finished => isTrue trivial
  | .closed => isTrue trivial

/-- While a response is waited for, the buffer holds only what came after the request. -/
structure Connection.Inv (s : Connection) : Prop where
  fresh : s.Fresh
  waiting : ∀ head, s.phase = .waiting head → ∀ i < s.count, (s.mem i).2 = s.request

/-- What is read behind fresh bytes is fresh. -/
theorem append_fresh {s : Connection} {data : Bytes} (h : ∀ i < s.count, (s.mem i).2 = s.request) :
    ∀ i < (s.append data).count, ((s.append data).mem i).2 = s.request := by
  intro i hi
  unfold Connection.append at hi ⊢
  dsimp only at hi ⊢
  by_cases hlt : i < s.count
  · rw [if_neg (by omega)]
    exact h i hlt
  · rw [if_pos ⟨by omega, hi⟩]

theorem lines_length (s : Connection) : s.lines.length = s.count := by
  unfold Connection.lines
  rw [List.length_map, List.length_range]

/-- **A head is read.** When it ends inside the buffer, only bytes of the buffer are taken. -/
theorem headersRead_inv {s s' : Connection} {head : Bool} (hphase : s.phase = .waiting head) (h : s.Inv)
    (hin : EndsInside s.behind s.lines) (hstep : s.headersRead head = some s') : s'.Inv := by
  unfold Connection.headersRead at hstep
  split at hstep
  · obtain rfl := Option.some.inj hstep
    exact h
  · obtain rfl := Option.some.inj hstep
    exact ⟨h.fresh, fun _ hp => absurd hp (by simp)⟩
  · rename_i u hu
    dsimp only at hstep
    obtain ⟨hb, hsuf⟩ := httpClientHeaders_inside hin hu
    have hrest : u.rest.len ≤ s.count := by
      unfold Source.len
      rw [hb, if_neg Bool.false_ne_true]
      have hle := hsuf.length_le
      rw [lines_length] at hle
      exact_mod_cast hle
    have hpiece : firstPiece head u ≤ u.rest.len ∨ firstPiece head u = 0 := by
      unfold firstPiece
      split
      · exact .inr rfl
      · split
        · rename_i hlt
          exact .inl (le_of_lt hlt.2)
        · exact .inl (le_refl _)
    have hnonneg : 0 ≤ u.rest.len := by
      unfold Source.len
      rw [hb, if_neg Bool.false_ne_true]
      exact Int.natCast_nonneg _
    have hdeliver : ∀ d ∈ (s.deliver (s.count - u.rest.len + max (firstPiece head u) 0).toNat).delivered,
        d.received = d.request := by
      intro d hd
      unfold Connection.deliver at hd
      rcases List.mem_append.mp hd with hd | hd
      · exact h.fresh d hd
      · obtain ⟨i, hi, rfl⟩ := List.mem_map.mp hd
        have hlt := List.mem_range.mp hi
        exact h.waiting head hphase i (by omega)
    obtain ⟨p, -, hstep⟩ := Option.bind_eq_some_iff.mp hstep
    split at hstep
    · obtain rfl := Option.some.inj hstep
      exact ⟨hdeliver, fun _ hp => absurd hp (by simp)⟩
    · split at hstep
      · exact absurd hstep (by simp)
      · obtain rfl := Option.some.inj hstep
        exact ⟨hdeliver, fun _ hp => absurd hp (by simp)⟩

/-- **One event keeps the bytes apart**, one case for each kind of event. -/
theorem pool_step_inv {s s' : Connection} {e : PoolEvent} (h : s.Inv) (hclean : Clean s e) (hstep : s.step e = some s') :
    s'.Inv := by
  cases e with
  | request head =>
      unfold Connection.step at hstep
      dsimp only at hstep
      split at hstep
      · obtain rfl := Option.some.inj hstep
        have hempty : s.count = 0 := hclean
        exact ⟨h.fresh, fun _ _ i hi => absurd (hempty ▸ hi : i < 0) (Nat.not_lt_zero i)⟩
      · exact absurd hstep (by simp)
  | received data =>
      unfold Connection.step at hstep
      dsimp only at hstep
      split at hstep
      · exact absurd hstep (by simp)
      · split at hstep
        · rename_i hphase
          obtain rfl := Option.some.inj hstep
          exact ⟨h.fresh, fun _ hp => absurd (hphase.symm.trans hp) (by simp)⟩
        · rename_i head hphase
          have happ : (s.append data).Inv := ⟨h.fresh, fun _ hp => append_fresh (h.waiting _ hp)⟩
          have hphase' : (s.append data).phase = .waiting head := hphase
          exact headersRead_inv hphase' happ hclean hstep
        · exact absurd hstep (by simp)
  | body data =>
      unfold Connection.step at hstep
      dsimp only at hstep
      split at hstep
      · split at hstep
        · exact absurd hstep (by simp)
        · obtain ⟨p, -, rfl⟩ := Option.map_eq_some_iff.mp hstep
          refine ⟨?_, fun _ hp => absurd hp (by simp)⟩
          intro d hd
          rcases List.mem_append.mp hd with hd | hd
          · exact h.fresh d hd
          · obtain ⟨b, -, rfl⟩ := List.mem_map.mp hd
            rfl
      · exact absurd hstep (by simp)
  | finished =>
      unfold Connection.step at hstep
      dsimp only at hstep
      split at hstep
      · split at hstep
        · obtain rfl := Option.some.inj hstep
          exact ⟨h.fresh, fun _ hp => absurd hp (by simp)⟩
        · exact absurd hstep (by simp)
      · exact absurd hstep (by simp)
  | closed =>
      unfold Connection.step at hstep
      dsimp only at hstep
      split at hstep
      · exact absurd hstep (by simp)
      · obtain rfl := Option.some.inj hstep
        exact ⟨h.fresh, fun _ hp => absurd hp (by simp)⟩

/-- **The responses of a connection that is used again.** As long as every request finds an empty line buffer, and no
    head is ended by the byte behind the buffer, what the proxy takes for a response was received after the request. -/
theorem pool_responses_fresh {garbage : Nat → UInt8} {es : List PoolEvent} {s : Connection}
    (hrun : Lib.RunWith Connection.step Clean (Connection.connect garbage) es s) : s.Fresh := by
  refine (hrun.invariant (I := Connection.Inv) ⟨?_, ?_⟩ fun _ _ _ h hclean hstep => pool_step_inv h hclean hstep).fresh
  · intro d hd
    exact absurd hd List.not_mem_nil
  · intro head hp
    exact absurd hp (by simp [Connection.connect])

/-- A response with a body of one byte. -/
def oneByteResponse (b : UInt8) : Bytes := bytes "HTTP/1.1 200 OK\r\nContent-Length: 1\r\n\r\n" ++ [b]

/-- Two requests on one connection, each answered in two reads. -/
theorem pool_responses_fresh_sample :
    ∃ s, Lib.RunWith Connection.step Clean (Connection.connect fun _ => 0)
        [.request false, .received ((oneByteResponse 65).take 20), .received ((oneByteResponse 65).drop 20), .finished,
          .request false, .received (oneByteResponse 66), .finished] s ∧
      s.delivered.length = 78 ∧ s.Fresh := by
  have hrun : ((Lib.execWith Connection.step (fun s e => decide (Clean s e)) (Connection.connect fun _ => 0)
      [.request false, .received ((oneByteResponse 65).take 20), .received ((oneByteResponse 65).drop 20), .finished,
        .request false, .received (oneByteResponse 66), .finished]).map fun s => s.delivered.length) = some 78 := by
    decide
  obtain ⟨s, hs, hlength⟩ := Option.map_eq_some_iff.mp hrun
  have hrun := Lib.RunWith.of_exec (fun _ _ h => of_decide_eq_true h) _ hs
  exact ⟨s, hrun, hlength, pool_responses_fresh hrun⟩

/-- **More bytes than the response has.** A second response behind the first one stays in the line buffer; the proxy
    takes it for the answer to the next request as soon as any byte comes. -/
theorem pool_response_stale :
    ∃ s, Lib.Run Connection.step (Connection.connect fun _ => 0)
        [.request false, .received (oneByteResponse 65 ++ oneByteResponse 66), .finished, .request false,
          .received [88]] s ∧
      ⟨2, 1, 66⟩ ∈ s.delivered ∧ ¬ s.Fresh := by
  have hrun : ((Lib.execWith Connection.step (fun _ _ => true) (Connection.connect fun _ => 0)
      [.request false, .received (oneByteResponse 65 ++ oneByteResponse 66), .finished, .request false,
        .received [88]]).map fun s => decide (⟨2, 1, 66⟩ ∈ s.delivered)) = some true := by
    decide
  obtain ⟨s, hs, hmem⟩ := Option.map_eq_some_iff.mp hrun
  have hmem := of_decide_eq_true hmem
  refine ⟨s, Lib.RunWith.of_exec (fun _ _ _ => trivial) _ hs, hmem, ?_⟩
  intro hfresh
  exact absurd (hfresh _ hmem) (by decide)

/-- **A head that is cut in front of its last byte.** The line feed that the response before has left in the memory of
    the buffer ends the head. -/
theorem pool_head_stale :
    ∃ s, Lib.Run Connection.step (Connection.connect fun _ => 0)
        [.request false, .received (oneByteResponse 65), .finished, .request false,
          .received ((oneByteResponse 66).take 37)] s ∧
      ⟨2, 1, LF⟩ ∈ s.delivered ∧ ¬ s.Fresh := by
  have hrun : ((Lib.execWith Connection.step (fun _ _ => true) (Connection.connect fun _ => 0)
      [.request false, .received (oneByteResponse 65), .finished, .request false,
        .received ((oneByteResponse 66).take 37)]).map fun s => decide (⟨2, 1, LF⟩ ∈ s.delivered)) = some true := by
    decide
  obtain ⟨s, hs, hmem⟩ := Option.map_eq_some_iff.mp hrun
  have hmem := of_decide_eq_true hmem
  refine ⟨s, Lib.RunWith.of_exec (fun _ _ _ => trivial) _ hs, hmem, ?_⟩
  intro hfresh
  exact absurd (hfresh _ hmem) (by decide)

end Http
end Hin9
