import Hin9.Http.RequestBytes

/-!
# `Http.RequestSplit` — the requests of a connection, however they are read (`httpd_read.c`, `http_utils.c`)

How the stream of a client is cut into reads, and which of a body's bytes come by the line buffer and which by a pipe, is up to
the network. As long as requests take their own bytes (`RequestBytes`) it decides nothing: a head that is found in the buffer is
found the same with more behind it (`requestLines_more`), so that one request at most stands at a place of the stream
(`Stands.unique`), and two runs over one stream answer the same requests (`same_requests`).
-/

namespace Hin9
namespace Http
namespace RequestBytes

/-! ## A head with more behind it -/

/-- A line that is found in the view is found with more behind it. -/
theorem hinFindLine_more {behind : UInt8} {s next : Source} {line : Bytes} (h : hinFindLine behind s = some (line, next))
    (hinside : next.beyond = false) (behind' : UInt8) (more : Bytes) :
    hinFindLine behind' { data := s.data ++ more } = some (line, { data := next.data ++ more }) := by
  unfold hinFindLine at h
  split at h
  · exact absurd h (by simp)
  split at h
  · rename_i i hi
    obtain ⟨rfl, rfl⟩ := Prod.mk.inj (Option.some.inj h)
    have hbound : i < s.data.length := (List.findIdx?_eq_some_iff_getElem.mp hi).1
    have hfound : (s.data ++ more).findIdx? (· == LF) = some i := by
      rw [List.findIdx?_append, hi, Option.some_or]
    unfold hinFindLine
    rw [if_neg Bool.false_ne_true]
    dsimp only
    rw [hfound]
    dsimp only
    rw [List.take_append_of_le_length hbound.le, List.drop_append_of_le_length (by omega)]
  · split at h
    · obtain ⟨-, rfl⟩ := Prod.mk.inj (Option.some.inj h)
      exact absurd hinside (by simp)
    · exact absurd h (by simp)

/-- The lines of a head that ends in the view are the same with more behind it. By induction on the lines. -/
theorem cgiLines_more {behind : UInt8} {fuel fuel' : Nat} (hfuel : fuel ≤ fuel') {s rest : Source} {texts : List Bytes}
    (h : cgiLines behind fuel s = some (texts, rest)) (hinside : rest.beyond = false) (behind' : UInt8) (more : Bytes) :
    cgiLines behind' fuel' { data := s.data ++ more } = some (texts, { data := rest.data ++ more }) := by
  induction fuel generalizing fuel' s texts with
  | zero => exact absurd h (by simp [cgiLines])
  | succ fuel ih =>
      obtain ⟨fuel', rfl⟩ : ∃ k, fuel' = k + 1 := ⟨fuel' - 1, by omega⟩
      obtain ⟨⟨line, next⟩, hfind, hrest⟩ := Option.bind_eq_some_iff.mp h
      rw [cgiLines]
      by_cases hblank : line = []
      · rw [if_pos hblank] at hrest
        obtain ⟨rfl, rfl⟩ := Prod.mk.inj (Option.some.inj hrest)
        rw [hinFindLine_more hfind hinside, Option.bind_some, if_pos hblank]
      · rw [if_neg hblank] at hrest
        obtain ⟨⟨lines, rest'⟩, hlines, heq⟩ := Option.map_eq_some_iff.mp hrest
        obtain ⟨rfl, rfl⟩ := Prod.mk.inj heq
        -- nothing is found behind a line that ends with the byte behind the view
        have hnext : next.beyond = false := by
          cases hbeyond : next.beyond with
          | false => rfl
          | true =>
              cases fuel with
              | zero => exact absurd hlines (by simp [cgiLines])
              | succ fuel =>
                  rw [cgiLines, hinFindLine_beyond hbeyond] at hlines
                  exact absurd hlines (by simp)
        have hmore := ih (Nat.le_of_succ_le_succ hfuel) hlines
        rw [hinFindLine_more hfind hnext, Option.bind_some, if_neg hblank, hmore]
        rfl

/-- **A head is found the same with more behind it.** -/
theorem requestLines_more {behind : UInt8} {data : Bytes} {texts : List Bytes} {rest : Source}
    (h : requestLines behind data = some (texts, rest)) (hinside : rest.beyond = false) (behind' : UInt8) (more : Bytes) :
    requestLines behind' (data ++ more) = some (texts, { data := rest.data ++ more }) := by
  refine cgiLines_more ?_ h hinside behind' more
  rw [List.length_append]
  omega

/-! ## A request at a place of the stream -/

section

variable {stream : Nat → UInt8}

/-- The head of these lines and this length is found in the `m` bytes from `start` on. -/
structure Found (stream : Nat → UInt8) (start m : Nat) (lines : List Bytes) (head : Nat) : Prop where
  texts : ∃ behind texts rest, requestLines behind ((List.range' start m).map stream) = some (texts, rest) ∧
    lines = texts.tail ∧ head = ((m : Int) - rest.len).toNat

/-- **The request at a place of the stream**, with its bytes: its head is there, and declares its body. -/
def Stands (stream : Nat → UInt8) (start : Nat) (a : Answered) : Prop :=
  ∃ m n, Found stream start m a.lines a.head ∧ a.head ≤ m ∧ Declares a.lines n ∧ a.Exact start n

/-- What is read at a place of the stream does not depend on how much of it is there. -/
theorem Found.same {start m m' : Nat} {lines lines' : List Bytes} {head head' : Nat} (h : Found stream start m lines head)
    (hinside : head ≤ m) (h' : Found stream start m' lines' head') (hle : m ≤ m') : lines' = lines ∧ head' = head := by
  obtain ⟨behind, texts, rest, hfound, rfl, hhead⟩ := h.texts
  obtain ⟨behind', texts', rest', hfound', rfl, rfl⟩ := h'.texts
  have hbeyond : rest.beyond = false := by
    cases hb : rest.beyond with
    | false => rfl
    | true =>
        have hlen : rest.len = -1 := by rw [Source.len, if_pos hb]
        omega
  have hlen : rest.len = rest.data.length := by rw [Source.len, if_neg (by simp [hbeyond])]
  have hsplit : (List.range' start m').map stream =
      (List.range' start m).map stream ++ (List.range' (start + m) (m' - m)).map stream := by
    rw [← List.map_append, List.range'_append_1, Nat.add_sub_of_le hle]
  rw [hsplit, requestLines_more hfound hbeyond] at hfound'
  obtain ⟨rfl, rfl⟩ := Prod.mk.inj (Option.some.inj hfound')
  refine ⟨rfl, ?_⟩
  have hrest : Source.len { data := rest.data ++ (List.range' (start + m) (m' - m)).map stream } =
      rest.data.length + ((m' : Int) - m) := by
    rw [Source.len, if_neg Bool.false_ne_true, List.length_append, List.length_map, List.length_range']
    omega
  rw [hrest, hhead, hlen]
  congr 1
  omega

theorem Stands.unique {start : Nat} {a b : Answered} (ha : Stands stream start a) (hb : Stands stream start b) : a = b := by
  obtain ⟨m, n, hfound, hinside, hn, hexact⟩ := ha
  obtain ⟨m', n', hfound', hinside', hn', hexact'⟩ := hb
  have hsame : b.lines = a.lines ∧ b.head = a.head := by
    rcases Nat.le_total m m' with hle | hle
    · exact hfound.same hinside hfound' hle
    · exact ⟨(hfound'.same hinside' hfound hle).1.symm, (hfound'.same hinside' hfound hle).2.symm⟩
  obtain ⟨hlines, hhead⟩ := hsame
  rw [hlines] at hn'
  obtain rfl := hn.unique hn'
  cases a with
  | mk lines head taken pending follows =>
      cases b with
      | mk lines' head' taken' pending' follows' =>
          obtain ⟨htaken, hended, hfollows⟩ := hexact
          obtain ⟨htaken', hended', hfollows'⟩ := hexact'
          dsimp only at hlines hhead htaken htaken' hended hended' hfollows hfollows'
          rw [htaken, hended, hfollows, htaken', hended', hfollows', hlines, hhead]

/-- Requests that stand one behind the other. -/
def Chained (stream : Nat → UInt8) : Nat → List Answered → Prop
  | _, [] => True
  | start, a :: log => Stands stream start a ∧ Chained stream a.follows log

theorem chained_snoc {start : Nat} {log : List Answered} {a : Answered} :
    Chained stream start (log ++ [a]) ↔ Chained stream start log ∧ Stands stream (endOf start log) a := by
  induction log generalizing start with
  | nil =>
      show _ ∧ True ↔ True ∧ _
      rw [and_true, true_and]
      rfl
  | cons b log ih =>
      rw [List.cons_append, endOf_cons]
      show _ ∧ Chained stream b.follows (log ++ [a]) ↔ (_ ∧ Chained stream b.follows log) ∧ _
      rw [ih, and_assoc]

/-- Of two chains from one place one is the beginning of the other. -/
theorem Chained.prefixes {start : Nat} {log log' : List Answered} (h : Chained stream start log)
    (h' : Chained stream start log') : log <+: log' ∨ log' <+: log := by
  induction log generalizing start log' with
  | nil => exact .inl List.nil_prefix
  | cons a log ih =>
      cases log' with
      | nil => exact .inr List.nil_prefix
      | cons b log' =>
          obtain rfl := h.1.unique h'.1
          exact (ih h.2 h'.2).imp (fun hp => List.prefix_cons_inj a |>.mpr hp) fun hp => List.prefix_cons_inj a |>.mpr hp

end

/-! ## Runs -/

/-- Every request that is answered declares a body, and takes its own bytes. -/
def Declared (s : Conn) : Event → Prop
  | .finish => ∀ r, s.phase = .handling r → ∃ n, Declares r.lines n ∧ Meets s r n
  | _ => True

theorem Declared.careful {s : Conn} {e : Event} (h : Declared s e) : Careful s e := by
  cases e with
  | finish => exact fun r hphase => .inl (h r hphase)
  | received | callback | upload | piped | pipeEnd | error | close => trivial

section

variable {stream : Nat → UInt8} {server : Server} {toTime : Bytes → Int} {s s' : Conn} {r r' : Request}

/-- The head of the request that is being answered was found in the buffer. -/
def HeadFound (stream : Nat → UInt8) (s : Conn) : Prop :=
  ∀ r, s.phase = .handling r → ∃ behind texts rest, requestLines behind (s.held.map stream) = some (texts, rest) ∧
    r.lines = texts.tail ∧ r.head = ((s.held.length : Int) - rest.len).toNat

/-- A step that leaves the buffer and the head of the request alone. -/
theorem HeadFound.keep (h : HeadFound stream s) (hheld : s'.held = s.held)
    (hphase : ∀ r', s'.phase = .handling r' → ∃ r, s.phase = .handling r ∧ r'.lines = r.lines ∧ r'.head = r.head) :
    HeadFound stream s' := by
  intro r' hr'
  obtain ⟨r, hr, hlines, hhead⟩ := hphase r' hr'
  rw [hheld, hlines, hhead]
  exact h r hr

theorem callback_found (s : Conn) (http : RequestFields) (memory : Bytes) (handler : Handler) :
    HeadFound stream (s.httpdClientReadCallback stream server toTime http memory handler) := by
  have hlength : (s.held.map stream).length = s.held.length := List.length_map _
  unfold Conn.httpdClientReadCallback
  dsimp only
  split
  · exact fun r hphase => absurd hphase (by simp)
  cases hlines : requestLines (memory.headD 0) (s.held.map stream) with
  | none => exact fun r hphase => absurd hphase (by simp)
  | some found =>
      obtain ⟨texts, rest⟩ := found
      dsimp only
      split
      · exact fun r hphase => absurd hphase (by simp)
      · intro r hphase
        obtain rfl := Phase.handling.inj hphase
        exact ⟨_, texts, rest, hlines, rfl, congrArg (fun k : Nat => ((k : Int) - rest.len).toNat) hlength⟩
      · split
        · intro r hphase
          obtain rfl := Phase.handling.inj hphase
          exact ⟨_, texts, rest, hlines, rfl, congrArg (fun k : Nat => ((k : Int) - rest.len).toNat) hlength⟩
        · intro r hphase
          obtain rfl := Phase.handling.inj hphase
          exact ⟨_, texts, rest, hlines, rfl, congrArg (fun k : Nat => ((k : Int) - rest.len).toNat) hlength⟩

theorem upload_found (h : HeadFound stream s) (hs : s.upload = some s') : HeadFound stream s' := by
  unfold Conn.upload at hs
  split at hs
  rotate_left
  · exact absurd hs (by simp)
  rename_i r hphase
  split at hs
  · split at hs
    · exact absurd hs (by simp)
    · obtain rfl := Option.some.inj hs
      refine h.keep rfl fun r' hr' => ⟨r, hphase, ?_⟩
      obtain rfl := Phase.handling.inj hr'
      exact ⟨rfl, rfl⟩
  · split at hs
    · exact absurd hs (by simp)
    · split at hs
      · obtain rfl := Option.some.inj hs
        exact h.keep rfl fun r' hr' => ⟨r', hr', rfl, rfl⟩
      · exact absurd hs (by simp)
  · exact absurd hs (by simp)

theorem readPipe_found (h : HeadFound stream s) {i n : Nat} (hs : s.readPipe i n = some s') : HeadFound stream s' := by
  unfold Conn.readPipe at hs
  obtain ⟨⟨q, left⟩, -, hs⟩ := Option.bind_eq_some_iff.mp hs
  dsimp only at hs
  split at hs
  · exact absurd hs (by simp)
  cases hphase : s.phase with
  | reading asked =>
      rw [hphase] at hs
      obtain rfl := Option.some.inj hs
      exact h.keep rfl fun r' hr' => absurd hr' (by simp)
  | closed =>
      rw [hphase] at hs
      obtain rfl := Option.some.inj hs
      exact h.keep rfl fun r' hr' => absurd hr' (by simp)
  | handling r =>
      rw [hphase] at hs
      dsimp only at hs
      split at hs
      · obtain rfl := Option.some.inj hs
        refine h.keep rfl fun r' hr' => ⟨r, hphase, ?_⟩
        obtain rfl := Phase.handling.inj hr'
        exact ⟨rfl, rfl⟩
      · obtain rfl := Option.some.inj hs
        refine h.keep rfl fun r' hr' => ⟨r, hphase, ?_⟩
        obtain rfl := Phase.handling.inj hr'
        exact ⟨rfl, rfl⟩

theorem pipeEnd_found (h : HeadFound stream s) {i : Nat} (hs : s.pipeEnd i = some s') : HeadFound stream s' := by
  unfold Conn.pipeEnd at hs
  obtain ⟨⟨q, left⟩, -, hs⟩ := Option.map_eq_some_iff.mp hs
  dsimp only at hs
  cases hphase : s.phase with
  | reading asked =>
      rw [hphase] at hs
      obtain rfl := hs
      exact h.keep rfl fun r' hr' => absurd hr' (by simp)
  | closed =>
      rw [hphase] at hs
      obtain rfl := hs
      exact h.keep rfl fun r' hr' => absurd hr' (by simp)
  | handling r =>
      rw [hphase] at hs
      dsimp only at hs
      obtain ⟨waiting, hwaiting⟩ : ∃ waiting, s' = { s with
          pipes := s.pipes.set i (q, 0), phase := .handling { r with waiting } } := by
        split at hs
        · exact ⟨false, hs.symm⟩
        · exact ⟨r.waiting, hs.symm⟩
      subst hwaiting
      refine h.keep rfl fun r' hr' => ⟨r, hphase, ?_⟩
      obtain rfl := Phase.handling.inj hr'
      exact ⟨rfl, rfl⟩

/-- The head of a request stays the one that was found. -/
theorem step_found {e : Event} (h : HeadFound stream s) (hs : step stream server toTime s e = some s') :
    HeadFound stream s' := by
  cases e with
  | received n =>
      unfold step at hs
      dsimp only at hs
      split at hs
      rotate_left
      · exact absurd hs (by simp)
      split at hs
      · exact absurd hs (by simp)
      · obtain rfl := Option.some.inj hs
        exact fun r hphase => absurd hphase (by simp)
  | callback http memory handler =>
      unfold step at hs
      dsimp only at hs
      split at hs
      rotate_left
      · exact absurd hs (by simp)
      obtain rfl := Option.some.inj hs
      exact callback_found s http memory handler
  | upload => exact upload_found h hs
  | piped i n => exact readPipe_found h hs
  | pipeEnd i => exact pipeEnd_found h hs
  | error =>
      unfold step at hs
      dsimp only at hs
      split at hs
      rotate_left
      · exact absurd hs (by simp)
      rename_i r hphase
      split at hs
      · obtain rfl := Option.some.inj hs
        refine h.keep rfl fun r' hr' => ⟨r, hphase, ?_⟩
        obtain rfl := Phase.handling.inj hr'
        exact ⟨rfl, rfl⟩
      · exact absurd hs (by simp)
  | finish =>
      obtain ⟨r, hphase, hdone, hlong, rfl⟩ := finish_cases hs
      exact fun r hphase => absurd hphase (by simp)
  | close =>
      obtain rfl := Option.some.inj hs
      exact fun r hphase => absurd hphase (by simp)

/-- Nothing but the end of a request is noted. -/
theorem step_log {e : Event} (hs : step stream server toTime s e = some s') (he : e.unfinished = true) : s'.log = s.log := by
  cases e with
  | received n =>
      unfold step at hs
      dsimp only at hs
      split at hs
      · split at hs
        · exact absurd hs (by simp)
        · obtain rfl := Option.some.inj hs
          rfl
      · exact absurd hs (by simp)
  | callback http memory handler =>
      unfold step at hs
      dsimp only at hs
      split at hs
      · obtain rfl := Option.some.inj hs
        obtain ⟨phase, heq, -⟩ := callback_phase stream server toTime s http memory handler
        rw [heq]
      · exact absurd hs (by simp)
  | upload => exact upload_log hs
  | piped i n => exact readPipe_log hs
  | pipeEnd i => exact pipeEnd_log hs
  | error =>
      unfold step at hs
      dsimp only at hs
      split at hs
      · split at hs
        · obtain rfl := Option.some.inj hs
          rfl
        · exact absurd hs (by simp)
      · exact absurd hs (by simp)
  | finish => exact absurd he (by simp [Event.unfinished])
  | close =>
      obtain rfl := Option.some.inj hs
      rfl

/-- **The requests of a run stand in the stream.** -/
theorem chained_run {es : List Event} (hrun : Lib.RunWith (step stream server toTime) Declared {} es s) :
    Chained stream 0 s.log := by
  have hinv : (Exact 0 s.log ∧ Sound s) ∧ HeadFound stream s ∧ Chained stream 0 s.log := by
    refine Lib.RunWith.invariant (I := fun s => (Exact 0 s.log ∧ Sound s) ∧ HeadFound stream s ∧ Chained stream 0 s.log)
      ?_ ?_ hrun
    · exact ⟨⟨trivial, rfl, rfl, fun p hp => absurd hp List.not_mem_nil⟩, fun r hphase => absurd hphase (by simp), trivial⟩
    · rintro s e s' ⟨⟨hlog, hsound⟩, hfound, hchained⟩ hdeclared hs
      refine ⟨sound_step hlog hsound hdeclared.careful hs, step_found hfound hs, ?_⟩
      cases hunfinished : e.unfinished with
      | true => rw [step_log hs hunfinished]; exact hchained
      | false =>
          cases e with
          | received | callback | upload | piped | pipeEnd | error | close => exact absurd hunfinished (by simp [Event.unfinished])
          | finish =>
              obtain ⟨r, hphase, hdone, hlong, rfl⟩ := finish_cases hs
              have hr := sound_handling hphase hsound
              obtain ⟨n, hn, hmeets⟩ := hdeclared r hphase
              obtain ⟨behind, texts, rest, hlines, htexts, hhead⟩ := hfound r hphase
              refine chained_snoc.mpr ⟨hchained, s.held.length, n, ⟨behind, texts, rest, ?_, htexts, hhead⟩, hmeets.2.1, hn,
                (meets_iff hr hlong hdone hn).mpr hmeets⟩
              rw [← hr.held]
              exact hlines
  exact hinv.2.2

end

/-- The same `POST`, read at once and answered without a worker. -/
def wholeEvents : List Event := [.callback {} [] .text, .received 43, .callback {} [] .text]

def wholeHandled : Request :=
  { postHandled with consume := 5, taken := 43, handler := .text, forwarded := some 0, uploading := false, piped := [] }

def wholeRead : Conn := { held := List.range' 0 43, next := 43, phase := .handling wholeHandled }

theorem wholeRead_exec : Lib.execWith (step postStream {} fun _ => 0) (fun _ e => e.unfinished) {} wholeEvents = some wholeRead := by
  decide

theorem Declared.unfinished (s : Conn) (e : Event) (he : e.unfinished = true) : Declared s e := by
  cases e with
  | finish => exact absurd he (by simp [Event.unfinished])
  | received | callback | upload | piped | pipeEnd | error | close => trivial

theorem wholeHandled_meets : Meets wholeRead wholeHandled 5 := by
  have hpost : wholeHandled.post = true := rfl
  refine ⟨rfl, by decide, ?_⟩
  rw [if_pos hpost]
  exact .inl ⟨by decide, by decide⟩

end RequestBytes
end Http
end Hin9
