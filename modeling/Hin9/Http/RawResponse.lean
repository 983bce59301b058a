import Hin9.Basic.Dlist
import Hin9.Lib.Runs
import Hin9.Netcode.Ssl

/-!
# `Http.RawResponse` — a chain of buffers, written one by one (`httpd_req.c`, `buffer.c`, `ssl.c`)

A raw response is a chain: `new_buffer` links each buffer behind the one that was full. The first is handed over, and
`http_raw_response_callback` asks `hin_buffer_continue_write` for the next one whenever a write has completed.

The link that holds the chain together is also what a TLS connection queues a buffer with. `basic_dlist_append` takes the
whole chain into the queue and `basic_dlist_remove` takes its first buffer out of it, so there is no next one when the
callback of that buffer looks for it. `log` keeps what the peer gets, the failures and the calls of
`httpd_client_finish_request`; what OpenSSL answers is the length of each record.
-/

namespace Hin9
namespace Http
namespace RawResponse

open Lib Netcode.Ssl

/-! ## State -/

inductive Callback where
  | unset | rawResponse
deriving Repr, DecidableEq

/-- `hin_buffer_t`: `data` are the `count` bytes at `ptr`, `active` is `HIN_ACTIVE` and `offsets` is `HIN_OFFSETS`. -/
structure Buf where
  data : Bytes
  callback : Callback := .rawResponse
  parent : Nat := 0
  offsets : Bool := false
  pos : Nat := 0
  active : Bool := false
deriving Repr, DecidableEq

/-- What the socket is working on: a plain buffer, or the `count` bytes of a crypt buffer and its `parent`. -/
inductive Request where
  | plain (buf : Nat)
  | crypt (count : Nat) (parent : Option Nat)
deriving Repr, DecidableEq

/-- The peer gets bytes, a write fails, `httpd_client_finish_request` is called, freed memory is used. -/
inductive Act where
  | sent (data : Bytes)
  | failed
  | finish (http : Nat)
  | wild
deriving Repr, DecidableEq

/-- The connection with the buffers on it. `list` holds the links of the buffers and, as its head, the `write_list` of the
    connection, `wbio` the length of what is in the write BIO, `sealed` the records that are not on the wire to their end,
    with what is to come of each; `count` and `error` are those of the client. -/
structure Conn where
  ssl : Bool
  bufs : Nat → Option Buf
  size : Nat
  list : Dlist Nat
  request : Option Request := none
  writeFlag : Bool := false
  wbio : Nat := 0
  records : Nat := 0
  sealed : List (Bytes × Nat) := []
  count : Int := 0
  error : Bool := false
  log : List Act := []

/-- The length of the record that `SSL_write` makes of the n-th plain buffer, or `none` when it fails. -/
abbrev SslWrite := Nat → Bytes → Option Nat

/-! ## The list -/

/-- The loop of `basic_dlist_append` to the end of the chain. -/
def lastOf (d : Dlist Nat) : Nat → Nat → Nat
  | 0, a => a
  | fuel + 1, a =>
      match (d.node a).next with
      | some b => lastOf d fuel b
      | none => a

/-- `basic_dlist_append` of a chain of at most `size` elements. -/
def basicDlistAppend (d : Dlist Nat) (size new : Nat) : Dlist Nat :=
  match d.head.next with
  | none => (d.setFirst (some new)).setLast (some (lastOf d size new))
  | some _ => ((d.setPrev new d.head.prev).setNextOf d.head.prev (some new)).setLast (some (lastOf d size new))

/-- The links of a chain of `n` buffers. -/
def chainLinks (n : Nat) : Dlist Nat where
  node i := ⟨if i + 1 < n then some (i + 1) else none, if 0 < i ∧ i < n then some (i - 1) else none⟩

/-- `new_buffer` links a buffer behind the last one. -/
theorem chainLinks_grows (n : Nat) : (chainLinks (n + 1)).basicDlistAddAfter n (n + 1) = chainLinks (n + 2) := by
  have hnode : ∀ i, ((chainLinks (n + 1)).basicDlistAddAfter n (n + 1)).node i = (chainLinks (n + 2)).node i := by
    intro i
    by_cases h1 : i = n
    · subst h1
      simp [Dlist.basicDlistAddAfter, Dlist.setNext, Dlist.setPrev, Dlist.setPrevOf, chainLinks]
    · by_cases h2 : i = n + 1
      · subst h2
        simp [Dlist.basicDlistAddAfter, Dlist.setNext, Dlist.setPrev, Dlist.setPrevOf, chainLinks]
      · have hlt : i < n ∨ n + 1 < i := by omega
        rcases hlt with hlt | hlt
        · simp [Dlist.basicDlistAddAfter, Dlist.setNext, Dlist.setPrev, Dlist.setPrevOf, chainLinks, h1, h2, hlt, hlt.le,
            show i < n + 2 by omega]
        · simp [Dlist.basicDlistAddAfter, Dlist.setNext, Dlist.setPrev, Dlist.setPrevOf, chainLinks, h1, h2,
            show ¬ i < n by omega, show ¬ i ≤ n by omega, show ¬ i < n + 2 by omega]
  have hhead : ((chainLinks (n + 1)).basicDlistAddAfter n (n + 1)).head = (chainLinks (n + 2)).head := by
    simp [Dlist.basicDlistAddAfter, Dlist.setNext, Dlist.setPrev, Dlist.setPrevOf, chainLinks]
  calc (chainLinks (n + 1)).basicDlistAddAfter n (n + 1)
      = ⟨((chainLinks (n + 1)).basicDlistAddAfter n (n + 1)).head, ((chainLinks (n + 1)).basicDlistAddAfter n (n + 1)).node⟩ := rfl
    _ = ⟨(chainLinks (n + 2)).head, (chainLinks (n + 2)).node⟩ := by rw [hhead, funext hnode]
    _ = chainLinks (n + 2) := rfl

/-! ## The functions -/

namespace Conn

variable (sslWrite : SslWrite) (s : Conn)

def note (a : Act) : Conn := { s with log := s.log ++ [a] }

def onBuf (b : Nat) (f : Buf → Buf) : Conn := { s with bufs := Function.update s.bufs b ((s.bufs b).map f) }

/-- `hin_buffer_clean`. -/
def clean (b : Nat) : Conn := { s with bufs := Function.update s.bufs b none }

/-- The end of `http_raw_response_callback`, for a client and what its last write returned. -/
def httpRawResponseFinish (http : Nat) (ret : Int) : Conn :=
  { s with count := s.count + ret, error := false }.note (.finish http)

/-- `hin_ssl_callback` with `-EPROTO`. -/
def hinSslCallbackFailed (p : Nat) (x : Buf) : Conn :=
  match x.callback with
  | .unset => s.note .wild
  | .rawResponse => ((s.onBuf p fun y => { y with active := false }).httpRawResponseFinish x.parent (-71)).clean p

/-- `hin_ssl_do_write`, with a crypt buffer that takes `count` bytes. A record that is left out of the write BIO is what
    `BIO_read` fails on. -/
def hinSslDoWrite (count p : Nat) (x : Buf) : Conn :=
  let s := { s with writeFlag := true, list := s.list.basicDlistRemove p }
  match sslWrite s.records x.data with
  | none | some 0 => (s.note .failed).hinSslCallbackFailed p x
  | some m =>
      { s with
        records := s.records + 1
        request := some (.crypt (min m count) (some p))
        wbio := m - count
        sealed := s.sealed ++ [(x.data, m)] }

/-- The writing side of `hin_ssl_check_data`, when the handshake is over and nothing is being read. -/
def hinSslCheckData (count : Nat) : Conn :=
  if s.writeFlag then s
  else if s.wbio ≠ 0 then
    { s with writeFlag := true, request := some (.crypt (min s.wbio CRYPT_SZ) none), wbio := s.wbio - CRYPT_SZ }
  else
    match s.list.head.next with
    | none => s
    | some p =>
        match s.bufs p with
        | none => s.note .wild
        | some x => s.hinSslDoWrite sslWrite count p x

/-- `hin_ssl_request_write`. -/
def hinSslRequestWrite (b : Nat) : Conn :=
  let s := { s with list := basicDlistAppend s.list s.size b }
  if s.list.head.next = some b then s.hinSslCheckData sslWrite CRYPT_SZ else s

/-- `hin_request_write`. -/
def hinRequestWrite (b : Nat) : Conn :=
  match s.bufs b with
  | none => s.note .wild
  | some x =>
      if x.active then s
      else
        let s := s.onBuf b fun y => { y with active := true }
        if s.ssl then s.hinSslRequestWrite sslWrite b else { s with request := some (.plain b) }

/-- `hin_buffer_continue_write` on the buffer `b`, which is `x`. -/
def hinBufferContinueWrite (b : Nat) (x : Buf) (ret : Int) : Conn × Int :=
  if ret ≤ 0 then (s, ret)
  else if ret ≠ x.data.length then
    ((s.onBuf b fun y =>
      { y with data := y.data.drop ret.toNat, pos := if y.offsets then y.pos + ret.toNat else y.pos }).hinRequestWrite sslWrite b,
      ret)
  else
    match (s.list.node b).next with
    | some next =>
        (((s.onBuf next fun y => { y with callback := x.callback, parent := x.parent }).hinRequestWrite sslWrite next).clean b, ret)
    | none => (s, 0)

/-- `http_raw_response_callback`, and whether the buffer is to be cleaned. -/
def httpRawResponseCallback (b : Nat) (x : Buf) (ret : Int) : Conn × Bool :=
  if ret < 0 then (s.httpRawResponseFinish x.parent ret, true)
  else
    let (s, more) := s.hinBufferContinueWrite sslWrite b x ret
    if 0 < more then ({ s with count := s.count + ret }, false) else (s.httpRawResponseFinish x.parent ret, true)

/-- A buffer that is no longer active is called back. -/
def complete (b : Nat) (x : Buf) (ret : Int) : Conn :=
  match x.callback with
  | .unset => s.note .wild
  | .rawResponse =>
      let (s, cleaned) := (s.onBuf b fun y => { y with active := false }).httpRawResponseCallback sslWrite b x ret
      if cleaned then s.clean b else s

/-- `n` more bytes are on the wire: the records that are now there to their end. -/
def delivered : Nat → List (Bytes × Nat) → List Act × List (Bytes × Nat)
  | _, [] => ([], [])
  | n, (data, m) :: rest =>
      if m ≤ n then ((.sent data :: (delivered (n - m) rest).1), (delivered (n - m) rest).2) else ([], (data, m - n) :: rest)

/-- `hin_ssl_write_callback` when the socket has accepted `n` of `count` bytes. -/
def hinSslWriteCallback (count n : Nat) (parent : Option Nat) : Conn :=
  let s := { s with
    request := none
    writeFlag := false
    log := s.log ++ (delivered n s.sealed).1
    sealed := (delivered n s.sealed).2 }
  if n < count then { s with request := some (.crypt (count - n) parent) }
  else
    match parent with
    | none => s.hinSslCheckData sslWrite count
    | some p =>
        match s.bufs p with
        | none => s.note .wild
        | some x => (s.complete sslWrite p x x.data.length).hinSslCheckData sslWrite count

end Conn

/-! ## Runs -/

/-- What the kernel answers. -/
inductive Result where
  | wrote (n : Nat)
  | error (errno : Nat)
deriving Repr, DecidableEq

def Result.isError : Result → Bool
  | .wrote _ => false
  | .error _ => true

/-- A write of `count` bytes that does not fail accepts at most them, and some if there are any. -/
def accepts (count n : Nat) : Prop := n ≤ count ∧ (n = 0 → count = 0)

instance (count n : Nat) : Decidable (accepts count n) := by
  unfold accepts
  infer_instance

/-- The request of the connection completes. -/
def Conn.step (sslWrite : SslWrite) (s : Conn) (r : Result) : Option Conn :=
  match s.request with
  | none => none
  | some (.plain b) =>
      match s.bufs b with
      | none => some (s.note .wild)
      | some x =>
          match r with
          | .wrote n =>
              if accepts x.data.length n then
                some (({ s with request := none }.note (.sent (x.data.take n))).complete sslWrite b x n)
              else none
          | .error e => some (({ s with request := none }.note .failed).complete sslWrite b x (-(e + 1 : Int)))
  | some (.crypt count parent) =>
      match r with
      | .wrote n => if accepts count n then some (s.hinSslWriteCallback sslWrite count n parent) else none
      | .error _ => some ({ s with request := none, writeFlag := false }.note .failed)

/-- The chain of a response, on a connection on which nothing is being written. -/
def respond (ssl : Bool) (chain : List Bytes) : Conn where
  ssl := ssl
  bufs i := chain[i]?.map fun data => { data }
  size := chain.length
  list := chainLinks chain.length

/-- The first buffer is handed over. -/
def start (sslWrite : SslWrite) (ssl : Bool) (chain : List Bytes) : Conn := (respond ssl chain).hinRequestWrite sslWrite 0

/-- **A response on its way**: the peer has got the front of it. As long as a write is going on nothing else has happened;
    when none is, the response has been finished once, with all of it sent or after a failure. -/
def Good (whole : Bytes) (s : Conn) : Prop :=
  ∃ sends : List Bytes, sends.flatten <+: whole ∧
    if s.request.isSome then s.log = sends.map .sent
    else s.log = sends.map .sent ++ [.finish 0] ∧ sends.flatten = whole ∨ s.log = sends.map .sent ++ [.failed, .finish 0]

/-! ## What is good -/

theorem good_sending {whole : Bytes} {s : Conn} {sends : List Bytes} (hbusy : s.request.isSome = true)
    (hlog : s.log = sends.map .sent) (hpre : sends.flatten <+: whole) : Good whole s :=
  ⟨sends, hpre, by rw [if_pos hbusy]; exact hlog⟩

theorem good_sent {whole : Bytes} {s : Conn} {sends : List Bytes} (hidle : s.request = none)
    (hlog : s.log = sends.map .sent ++ [.finish 0]) (hall : sends.flatten = whole) : Good whole s :=
  ⟨sends, by rw [hall], by rw [hidle]; exact Or.inl ⟨hlog, hall⟩⟩

theorem good_failed {whole : Bytes} {s : Conn} {sends : List Bytes} (hidle : s.request = none)
    (hlog : s.log = sends.map .sent ++ [.failed, .finish 0]) (hpre : sends.flatten <+: whole) : Good whole s :=
  ⟨sends, hpre, by rw [hidle]; exact Or.inr hlog⟩

theorem finish_not_sent (sends : List Bytes) (http : Nat) : Act.finish http ∉ sends.map Act.sent := by
  intro h
  obtain ⟨d, -, hd⟩ := List.mem_map.mp h
  exact absurd hd (by simp)

/-- A response that is finished while a write is going on. -/
theorem not_good_busy {whole : Bytes} {s : Conn} (hbusy : s.request.isSome = true) {http : Nat}
    (hmem : .finish http ∈ s.log) : ¬ Good whole s := by
  rintro ⟨sends, -, h⟩
  rw [if_pos hbusy] at h
  exact finish_not_sent sends http (h ▸ hmem)

/-- What the log of a good state has as often as the response is finished. -/
theorem good_count {whole : Bytes} {s : Conn} (h : Good whole s) (hidle : s.request = none) : s.log.count (.finish 0) = 1 := by
  obtain ⟨sends, -, h⟩ := h
  rw [hidle] at h
  have hzero : (sends.map Act.sent).count (.finish 0) = 0 := List.count_eq_zero.mpr (finish_not_sent sends 0)
  rcases h with ⟨h, -⟩ | h
  · rw [h, List.count_append, hzero]
    rfl
  · rw [h, List.count_append, hzero]
    rfl

/-! ## A plain connection -/

/-- The buffer `i`, of which `x` is left, is being written; the buffers behind it have not been touched. -/
structure Sending (chain : List Bytes) (s : Conn) (i : Nat) (x : Buf) (sends : List Bytes) : Prop where
  ssl : s.ssl = false
  request : s.request = some (.plain i)
  buf : s.bufs i = some x
  callback : x.callback = .rawResponse
  parent : x.parent = 0
  links : s.list = chainLinks chain.length
  bound : i < chain.length
  later : ∀ j, i < j → s.bufs j = chain[j]?.map fun data => { data }
  log : s.log = sends.map .sent
  whole : sends.flatten ++ x.data ++ (chain.drop (i + 1)).flatten = chain.flatten

theorem Sending.good {chain : List Bytes} {s : Conn} {i : Nat} {x : Buf} {sends : List Bytes} (h : Sending chain s i x sends) :
    Good chain.flatten s := by
  refine good_sending (by rw [h.request]; rfl) h.log ?_
  rw [← h.whole, List.append_assoc]
  exact List.prefix_append _ _

theorem onBuf_self (s : Conn) (b : Nat) (f : Buf → Buf) : (s.onBuf b f).bufs b = (s.bufs b).map f :=
  Function.update_self ..

theorem onBuf_ne (s : Conn) {b c : Nat} (f : Buf → Buf) (h : c ≠ b) : (s.onBuf b f).bufs c = s.bufs c :=
  Function.update_of_ne h ..

theorem clean_ne (s : Conn) {b c : Nat} (h : c ≠ b) : (s.clean b).bufs c = s.bufs c := Function.update_of_ne h ..

/-- A plain buffer is handed to the socket. -/
theorem request_plain {sslWrite : SslWrite} {s : Conn} {b : Nat} {x : Buf} (hssl : s.ssl = false) (hbuf : s.bufs b = some x)
    (hactive : x.active = false) : s.hinRequestWrite sslWrite b =
      { s.onBuf b fun y => { y with active := true } with request := some (.plain b) } := by
  unfold Conn.hinRequestWrite
  rw [hbuf]
  dsimp only
  rw [hactive, if_neg Bool.false_ne_true]
  show (if s.ssl = true then _ else _) = _
  rw [hssl]
  rfl

theorem start_plain (sslWrite : SslWrite) (data : Bytes) (rest : List Bytes) : start sslWrite false (data :: rest) =
    { (respond false (data :: rest)).onBuf 0 fun y => { y with active := true } with request := some (.plain 0) } := rfl

/-- The first buffer of a chain. -/
theorem start_sending (sslWrite : SslWrite) (data : Bytes) (rest : List Bytes) :
    Sending (data :: rest) (start sslWrite false (data :: rest)) 0 { data, active := true } [] where
  ssl := rfl
  request := rfl
  buf := by
    rw [start_plain]
    exact onBuf_self (respond false (data :: rest)) 0 fun y => { y with active := true }
  callback := rfl
  parent := rfl
  links := rfl
  bound := Nat.succ_pos _
  later j hj := by
    rw [start_plain]
    show ((respond false (data :: rest)).onBuf 0 _).bufs j = _
    rw [onBuf_ne _ _ (Nat.ne_of_gt hj)]
    rfl
  log := rfl
  whole := rfl

section
variable {sslWrite : SslWrite} {chain : List Bytes} {s : Conn} {i : Nat} {x : Buf} {sends : List Bytes}

theorem continue_part {s : Conn} {b : Nat} {x : Buf} {ret : Int} (hret : 0 < ret) (hlen : ret ≠ x.data.length) :
    s.hinBufferContinueWrite sslWrite b x ret = ((s.onBuf b fun y =>
      { y with data := y.data.drop ret.toNat, pos := if y.offsets then y.pos + ret.toNat else y.pos }).hinRequestWrite
        sslWrite b, ret) := by
  unfold Conn.hinBufferContinueWrite
  rw [if_neg (Int.not_le.mpr hret), if_pos hlen]

theorem continue_next {s : Conn} {b next : Nat} {x : Buf} (hpos : x.data ≠ []) (hnext : (s.list.node b).next = some next) :
    s.hinBufferContinueWrite sslWrite b x x.data.length =
      (((s.onBuf next fun y => { y with callback := x.callback, parent := x.parent }).hinRequestWrite sslWrite next).clean b,
        (x.data.length : Int)) := by
  have hlen := List.length_pos_of_ne_nil hpos
  unfold Conn.hinBufferContinueWrite
  rw [if_neg (by omega), if_neg (not_not.mpr rfl), hnext]

theorem continue_last {s : Conn} {b : Nat} {x : Buf} (hnext : (s.list.node b).next = none) :
    s.hinBufferContinueWrite sslWrite b x x.data.length = (s, 0) := by
  unfold Conn.hinBufferContinueWrite
  by_cases hpos : x.data = []
  · rw [hpos]
    rfl
  · have hlen := List.length_pos_of_ne_nil hpos
    rw [if_neg (by omega), if_neg (not_not.mpr rfl), hnext]

/-- The state in which a buffer is called back. -/
def called (s : Conn) (b : Nat) : Conn := s.onBuf b fun y => { y with active := false }

theorem complete_failed {s : Conn} {b : Nat} {x : Buf} {ret : Int} (hcb : x.callback = .rawResponse) (hret : ret < 0) :
    s.complete sslWrite b x ret = ((called s b).httpRawResponseFinish x.parent ret).clean b := by
  unfold Conn.complete Conn.httpRawResponseCallback
  rw [hcb]
  dsimp only
  rw [if_pos hret]
  rfl

theorem complete_last {s : Conn} {b : Nat} {x : Buf} {ret : Int} (hcb : x.callback = .rawResponse) (hret : 0 ≤ ret) {more : Int}
    (h : (called s b).hinBufferContinueWrite sslWrite b x ret = (called s b, more)) (hmore : more ≤ 0) :
    s.complete sslWrite b x ret = ((called s b).httpRawResponseFinish x.parent ret).clean b := by
  unfold called at h
  unfold Conn.complete Conn.httpRawResponseCallback
  rw [hcb]
  dsimp only
  rw [if_neg (Int.not_lt.mpr hret), h]
  dsimp only
  rw [if_neg (Int.not_lt.mpr hmore)]
  rfl

theorem complete_more {s s' : Conn} {b : Nat} {x : Buf} {ret : Int} (hcb : x.callback = .rawResponse) (hret : 0 < ret)
    (h : (called s b).hinBufferContinueWrite sslWrite b x ret = (s', ret)) :
    s.complete sslWrite b x ret = { s' with count := s'.count + ret } := by
  unfold called at h
  unfold Conn.complete Conn.httpRawResponseCallback
  rw [hcb]
  dsimp only
  rw [if_neg (Int.not_lt.mpr hret.le), h]
  dsimp only
  rw [if_pos hret]
  rfl

theorem step_error (hreq : s.request = some (.plain i)) (hbuf : s.bufs i = some x) (e : Nat) :
    s.step sslWrite (.error e) =
      some (({ s with request := none }.note .failed).complete sslWrite i x (-(e + 1 : Int))) := by
  unfold Conn.step
  rw [hreq]
  dsimp only
  rw [hbuf]

theorem step_wrote (hreq : s.request = some (.plain i)) (hbuf : s.bufs i = some x) {n : Nat} (hn : accepts x.data.length n) :
    s.step sslWrite (.wrote n) = some (({ s with request := none }.note (.sent (x.data.take n))).complete sslWrite i x n) := by
  unfold Conn.step
  rw [hreq]
  dsimp only
  rw [hbuf]
  exact if_pos hn

variable (sslWrite) in
theorem Sending.error (h : Sending chain s i x sends) (e : Nat) :
    ∃ s', s.step sslWrite (.error e) = some s' ∧ s'.request = none ∧ s'.log = sends.map .sent ++ [.failed, .finish 0] := by
  refine ⟨_, step_error h.request h.buf e, ?_⟩
  rw [complete_failed h.callback (by omega)]
  refine ⟨rfl, ?_⟩
  show (s.log ++ [.failed]) ++ [.finish x.parent] = _
  rw [h.log, h.parent, List.append_assoc]
  rfl

theorem Sending.next (h : Sending chain s i x sends) :
    (s.list.node i).next = if i + 1 < chain.length then some (i + 1) else none := by
  rw [h.links]
  rfl

variable (sslWrite) in
/-- The last bytes of a buffer that has none behind it, or no byte: the response is finished. -/
theorem Sending.last (h : Sending chain s i x sends) (hlast : chain.length ≤ i + 1 ∨ x.data = []) :
    ∃ s', s.step sslWrite (.wrote x.data.length) = some s' ∧ s'.request = none ∧
      s'.log = (sends ++ [x.data]).map .sent ++ [.finish 0] := by
  refine ⟨_, step_wrote h.request h.buf ⟨Nat.le_refl _, id⟩, ?_⟩
  generalize hnoted : { s with request := none }.note (.sent (x.data.take x.data.length)) = t
  have hcontinue : (called t i).hinBufferContinueWrite sslWrite i x x.data.length = (called t i, 0) := by
    by_cases hdata : x.data = []
    · rw [hdata]
      rfl
    · apply continue_last
      rw [← hnoted]
      show (s.list.node i).next = none
      rw [h.next, if_neg (Nat.not_lt.mpr (hlast.resolve_right hdata))]
  rw [complete_last h.callback (Int.natCast_nonneg _) hcontinue (Int.le_refl 0), ← hnoted]
  refine ⟨rfl, ?_⟩
  show (s.log ++ [.sent (x.data.take x.data.length)]) ++ [.finish x.parent] = _
  rw [h.log, h.parent, List.take_length, List.map_append]
  rfl

variable (sslWrite) in
/-- Some of the bytes: the buffer is handed over again with the rest. -/
theorem Sending.part (h : Sending chain s i x sends) {n : Nat} (hpos : 0 < n) (hn : n < x.data.length) :
    ∃ s', s.step sslWrite (.wrote n) = some s' ∧
      Sending chain s' i { x with
        data := x.data.drop n, pos := if x.offsets then x.pos + n else x.pos, active := true } (sends ++ [x.data.take n]) := by
  refine ⟨_, step_wrote h.request h.buf ⟨hn.le, fun h0 => absurd h0 (by omega)⟩, ?_⟩
  have hint : (n : Int) ≠ x.data.length := by omega
  rw [complete_more h.callback (Int.natCast_pos.mpr hpos) (continue_part (Int.natCast_pos.mpr hpos) hint)]
  generalize hcalled : called ({ s with request := none }.note (.sent (x.data.take n))) i = t
  have hbuf : t.bufs i = some { x with active := false } := by
    rw [← hcalled, called, onBuf_self]
    show (s.bufs i).map _ = _
    rw [h.buf]
    rfl
  generalize hrest : (t.onBuf i fun y => { y with
    data := y.data.drop (n : Int).toNat, pos := if y.offsets then y.pos + (n : Int).toNat else y.pos }) = u
  have hbuf' : u.bufs i = some { x with
      data := x.data.drop n, pos := if x.offsets then x.pos + n else x.pos, active := false } := by
    rw [← hrest, onBuf_self, hbuf]
    rfl
  have hssl : u.ssl = false := by
    rw [← hrest, ← hcalled]
    exact h.ssl
  rw [request_plain hssl hbuf' rfl]
  refine ⟨hssl, rfl, ?_, h.callback, h.parent, ?_, h.bound, ?_, ?_, ?_⟩
  · show (u.onBuf i _).bufs i = _
    rw [onBuf_self, hbuf']
    rfl
  · rw [← h.links, ← hrest, ← hcalled]
    rfl
  · intro j hj
    have hne := Nat.ne_of_gt hj
    show (u.onBuf i _).bufs j = _
    rw [onBuf_ne _ _ hne, ← hrest, onBuf_ne _ _ hne, ← hcalled, called, onBuf_ne _ _ hne]
    exact h.later j hj
  · show u.log = _
    rw [← hrest, ← hcalled, List.map_append, ← h.log]
    rfl
  · rw [List.flatten_append, List.flatten_singleton, List.append_assoc sends.flatten, List.take_append_drop]
    exact h.whole

variable (sslWrite) in
/-- The last bytes of a buffer with one behind it: that one is handed over. -/
theorem Sending.full (h : Sending chain s i x sends) (hpos : x.data ≠ []) {data : Bytes} (hnext : chain[i + 1]? = some data) :
    ∃ s', s.step sslWrite (.wrote x.data.length) = some s' ∧
      Sending chain s' (i + 1) { data, active := true } (sends ++ [x.data]) := by
  have hbound : i + 1 < chain.length := (List.getElem?_eq_some_iff.mp hnext).1
  refine ⟨_, step_wrote h.request h.buf ⟨Nat.le_refl _, id⟩, ?_⟩
  generalize hnoted : { s with request := none }.note (.sent (x.data.take x.data.length)) = t₀
  have hlink : ((called t₀ i).list.node i).next = some (i + 1) := by
    rw [← hnoted]
    show (s.list.node i).next = some (i + 1)
    rw [h.next, if_pos hbound]
  rw [complete_more h.callback (Int.natCast_pos.mpr (List.length_pos_of_ne_nil hpos)) (continue_next hpos hlink), ← hnoted]
  generalize hcalled : called ({ s with request := none }.note (.sent (x.data.take x.data.length))) i = t
  have hne : i + 1 ≠ i := Nat.succ_ne_self i
  have hbuf : t.bufs (i + 1) = some { data } := by
    rw [← hcalled, called, onBuf_ne _ _ hne]
    show s.bufs (i + 1) = _
    rw [h.later (i + 1) (Nat.lt_succ_self i), hnext]
    rfl
  generalize hinherit : (t.onBuf (i + 1) fun y => { y with callback := x.callback, parent := x.parent }) = u
  have hbuf' : u.bufs (i + 1) = some { data } := by
    rw [← hinherit, onBuf_self, hbuf, h.callback, h.parent]
    rfl
  have hssl : u.ssl = false := by
    rw [← hinherit, ← hcalled]
    exact h.ssl
  rw [request_plain hssl hbuf' rfl]
  refine ⟨hssl, rfl, ?_, rfl, rfl, ?_, hbound, ?_, ?_, ?_⟩
  · show (Conn.clean _ i).bufs (i + 1) = _
    rw [clean_ne _ hne]
    show (u.onBuf (i + 1) _).bufs (i + 1) = _
    rw [onBuf_self, hbuf']
    rfl
  · rw [← h.links, ← hinherit, ← hcalled]
    rfl
  · intro j hj
    have hj1 := Nat.ne_of_gt hj
    have hj0 : j ≠ i := by omega
    show (Conn.clean _ i).bufs j = _
    rw [clean_ne _ hj0]
    show (u.onBuf (i + 1) _).bufs j = _
    rw [onBuf_ne _ _ hj1, ← hinherit, onBuf_ne _ _ hj1, ← hcalled, called, onBuf_ne _ _ hj0]
    exact h.later j (by omega)
  · show u.log = _
    rw [← hinherit, ← hcalled, List.map_append, ← h.log]
    show s.log ++ [.sent (x.data.take x.data.length)] = _
    rw [List.take_length]
    rfl
  · have hdrop : chain.drop (i + 1) = data :: chain.drop (i + 1 + 1) := by
      obtain ⟨hlt, hget⟩ := List.getElem?_eq_some_iff.mp hnext
      rw [← hget]
      exact List.drop_eq_getElem_cons hlt
    have hwhole := h.whole
    rw [hdrop, List.flatten_cons] at hwhole
    rw [List.flatten_append, List.flatten_singleton, List.append_assoc, ← hwhole]

/-- No empty buffer stands in front of one with bytes. -/
def Ordered (chain : List Bytes) : Prop := chain.Pairwise fun a b => a = [] → b = []

theorem Ordered.front {chain : List Bytes} (h : Ordered chain) {i : Nat} (hi : chain[i]? = some []) :
    (chain.drop (i + 1)).flatten = [] := by
  obtain ⟨hlt, hget⟩ := List.getElem?_eq_some_iff.mp hi
  have hdrop : (chain.drop i).Pairwise fun a b => a = [] → b = [] := h.drop
  rw [List.drop_eq_getElem_cons hlt, hget] at hdrop
  exact List.flatten_eq_nil_iff.mpr fun b hb => List.rel_of_pairwise_cons hdrop hb rfl

/-- A plain connection: a buffer is being written, and an empty one is the end of the bytes, or the response is over. -/
def OnPlain (chain : List Bytes) (s : Conn) : Prop :=
  (∃ i x sends, Sending chain s i x sends ∧ (x.data = [] → (chain.drop (i + 1)).flatten = [])) ∨
    s.request = none ∧ Good chain.flatten s

/-- **One write on a plain connection**, in an ordered chain. -/
theorem onPlain_step (hordered : Ordered chain) {r : Result} {s' : Conn} (h : OnPlain chain s)
    (hstep : s.step sslWrite r = some s') : OnPlain chain s' := by
  rcases h with ⟨i, x, sends, h, hfront⟩ | ⟨hidle, -⟩
  swap
  · unfold Conn.step at hstep
    rw [hidle] at hstep
    exact absurd hstep.symm (Option.some_ne_none s')
  have hpre : sends.flatten <+: chain.flatten := by
    rw [← h.whole, List.append_assoc]
    exact List.prefix_append _ _
  cases r with
  | error e =>
      obtain ⟨t, ht, hidle, hlog⟩ := h.error sslWrite e
      rw [ht] at hstep
      rw [← Option.some.inj hstep]
      exact Or.inr ⟨hidle, good_failed hidle hlog hpre⟩
  | wrote n =>
      have haccepts : accepts x.data.length n := by
        by_contra hno
        unfold Conn.step at hstep
        rw [h.request] at hstep
        dsimp only at hstep
        rw [h.buf] at hstep
        dsimp only at hstep
        rw [if_neg hno] at hstep
        exact absurd hstep.symm (Option.some_ne_none s')
      by_cases hpart : n < x.data.length
      · -- some of the bytes
        have hpos : 0 < n := Nat.pos_of_ne_zero fun h0 => by
          have := haccepts.2 h0
          omega
        obtain ⟨t, ht, hsending⟩ := h.part sslWrite hpos hpart
        rw [ht] at hstep
        rw [← Option.some.inj hstep]
        refine Or.inl ⟨i, _, _, hsending, fun hnil => ?_⟩
        have hlen := congrArg List.length hnil
        rw [List.length_drop, List.length_nil] at hlen
        omega
      · obtain rfl : n = x.data.length := by
          have := haccepts.1
          omega
        by_cases hlast : chain.length ≤ i + 1 ∨ x.data = []
        · -- the last bytes
          obtain ⟨t, ht, hidle, hlog⟩ := h.last sslWrite hlast
          rw [ht] at hstep
          rw [← Option.some.inj hstep]
          refine Or.inr ⟨hidle, good_sent hidle hlog ?_⟩
          have hnone : (chain.drop (i + 1)).flatten = [] := by
            rcases hlast with hlast | hlast
            · rw [List.drop_eq_nil_of_le hlast]
              rfl
            · exact hfront hlast
          rw [← h.whole, hnone, List.append_nil, List.flatten_append, List.flatten_singleton]
        · -- the next buffer
          obtain ⟨hlen, hpos⟩ := not_or.mp hlast
          have hlt : i + 1 < chain.length := Nat.not_le.mp hlen
          obtain ⟨t, ht, hsending⟩ := h.full sslWrite hpos (List.getElem?_eq_getElem hlt)
          rw [ht] at hstep
          rw [← Option.some.inj hstep]
          refine Or.inl ⟨i + 1, _, _, hsending, fun hnil => hordered.front ?_⟩
          rw [List.getElem?_eq_getElem hlt]
          exact congrArg some hnil

theorem onPlain_good (h : OnPlain chain s) : Good chain.flatten s := by
  rcases h with ⟨i, x, sends, h, -⟩ | ⟨-, h⟩
  · exact h.good
  · exact h

/-- A response that is finished before all of it has been sent. -/
theorem not_good_early {whole : Bytes} (hidle : s.request = none) (hlog : s.log = sends.map .sent ++ [.finish 0])
    (hall : sends.flatten ≠ whole) : ¬ Good whole s := by
  rintro ⟨sends', -, h⟩
  rw [hidle] at h
  have hinj : Function.Injective Act.sent := fun _ _ h => Act.sent.inj h
  rcases h with ⟨h, hwhole⟩ | h
  · rw [hlog] at h
    have hmap := List.append_cancel_right h
    rw [hinj.list_map hmap] at hall
    exact hall hwhole
  · have hfailed : Act.failed ∈ sends.map Act.sent ++ [.finish 0] := by
      rw [← hlog, h]
      simp
    rcases List.mem_append.mp hfailed with hmem | hmem
    · obtain ⟨d, -, hd⟩ := List.mem_map.mp hmem
      exact absurd hd (by simp)
    · exact absurd hmem (by simp)

/-- The runs in which no write fails, when `errors` says so. -/
abbrev Runs (sslWrite : SslWrite) (errors : Bool) (s : Conn) (es : List Result) (s' : Conn) : Prop :=
  RunWith (Conn.step sslWrite) (fun _ r => errors = true ∨ r.isError = false) s es s'

theorem runs_wrote {errors : Bool} {n : Nat} {s' : Conn} (h : s.step sslWrite (.wrote n) = some s') :
    Runs sslWrite errors s [.wrote n] s' :=
  @RunWith.snoc _ _ _ _ _ [] s s' _ .nil (Or.inr rfl) h

/-- **An empty buffer in front of one with bytes** ends the response. -/
theorem plain_early {errors : Bool} (h : Sending chain s i x sends) (hnot : ¬ Ordered (x.data :: chain.drop (i + 1))) :
    ∃ es s', Runs sslWrite errors s es s' ∧ ¬ Good chain.flatten s' := by
  induction hn : chain.length - i generalizing s i x sends with
  | zero => exact absurd h.bound (by omega)
  | succ n ih =>
      by_cases hdata : x.data = []
      · obtain ⟨s', hs', hidle, hlog⟩ := h.last sslWrite (Or.inr hdata)
        refine ⟨_, s', runs_wrote hs', not_good_early hidle hlog ?_⟩
        intro hall
        have hwhole := h.whole
        rw [← hall, List.flatten_append, List.flatten_singleton] at hwhole
        have hnil : (chain.drop (i + 1)).flatten = [] := List.append_right_eq_self.mp hwhole
        rw [List.flatten_eq_nil_iff] at hnil
        apply hnot
        refine List.pairwise_cons.mpr ⟨fun b hb _ => hnil b hb, ?_⟩
        exact List.pairwise_of_forall_mem_list fun _ _ b hb _ => hnil b hb
      · have hrest : ¬ Ordered (chain.drop (i + 1)) := fun ho =>
          hnot (List.pairwise_cons.mpr ⟨fun b _ h0 => absurd h0 hdata, ho⟩)
        have hlt : i + 1 < chain.length := by
          by_contra hge
          rw [List.drop_eq_nil_of_le (Nat.not_lt.mp hge)] at hrest
          exact hrest List.Pairwise.nil
        obtain ⟨s', hs', hsending⟩ := h.full sslWrite hdata (List.getElem?_eq_getElem hlt)
        rw [List.drop_eq_getElem_cons hlt] at hrest
        obtain ⟨es, t, hrun, hbad⟩ := ih hsending hrest (by omega)
        exact ⟨_, t, (runs_wrote hs').trans hrun, hbad⟩

/-! ## A TLS connection -/

/-- The write list after the chain has been appended and its first buffer removed. -/
def taken (n : Nat) : Dlist Nat := (basicDlistAppend (chainLinks n) n 0).basicDlistRemove 0

theorem setNextOf_head (d : Dlist Nat) (p n : Option Nat) : (d.setNextOf p n).head = d.head := by
  cases p <;> rfl

theorem setPrevOf_head (d : Dlist Nat) (n p : Option Nat) : (d.setPrevOf n p).head = d.head := by
  cases n <;> rfl

/-- An element that is removed has no neighbours, and what was behind the first is the first. -/
theorem remove_first (d : Dlist Nat) {a : Nat} (ha : d.head.next = some a) :
    ((d.basicDlistRemove a).node a).next = none ∧ (d.basicDlistRemove a).head.next = (d.node a).next := by
  constructor
  · simp [Dlist.basicDlistRemove, Dlist.setNext, Dlist.setPrev]
  · unfold Dlist.basicDlistRemove
    simp only [ha, if_true]
    show ((Dlist.setPrevOf _ _ _).setNextOf _ _).head.next = _
    rw [setNextOf_head, setPrevOf_head]
    split
    · rfl
    · rfl

/-- The rest of the chain is left on the write list, and the first buffer has lost it. -/
theorem taken_links (n : Nat) : ((taken n).node 0).next = none ∧ (taken n).head.next = if 1 < n then some 1 else none :=
  remove_first (basicDlistAppend (chainLinks n) n 0) rfl

/-- The first buffer is encrypted as it is handed over. -/
theorem start_tls (data : Bytes) (rest : List Bytes) : start sslWrite true (data :: rest) =
    { (respond true (data :: rest)).onBuf 0 (fun y => { y with active := true }) with
      list := basicDlistAppend (chainLinks (rest.length + 1)) (rest.length + 1) 0 }.hinSslDoWrite sslWrite CRYPT_SZ 0
        { data, active := true } := rfl

/-- The record of the first buffer is on its way, with `left` of it in the crypt buffer and `more` in the write BIO. -/
structure Sealing (data : Bytes) (rest : List Bytes) (s : Conn) (left more : Nat) : Prop where
  request : s.request = some (.crypt left (some 0))
  pos : 0 < left
  buf : s.bufs 0 = some { data, active := true }
  later : s.bufs 1 = rest.head?.map fun data => { data }
  links : s.list = taken (rest.length + 1)
  wbio : s.wbio = more
  sealed : s.sealed = [(data, left + more)]
  log : s.log = []

theorem start_sealing {data : Bytes} {rest : List Bytes} {m : Nat} (h : sslWrite 0 data = some m) (hm : m ≠ 0) :
    Sealing data rest (start sslWrite true (data :: rest)) (min m CRYPT_SZ) (m - CRYPT_SZ) := by
  obtain ⟨k, rfl⟩ : ∃ k, m = k + 1 := ⟨m - 1, by omega⟩
  have hrun : start sslWrite true (data :: rest) =
      { (respond true (data :: rest)).onBuf 0 (fun y => { y with active := true }) with
        writeFlag := true
        list := taken (rest.length + 1)
        records := 1
        request := some (.crypt (min (k + 1) CRYPT_SZ) (some 0))
        wbio := k + 1 - CRYPT_SZ
        sealed := [(data, k + 1)] } := by
    rw [start_tls]
    unfold Conn.hinSslDoWrite
    show (match sslWrite 0 data with | none => _ | some 0 => _ | some m => _ : Conn) = _
    rw [h]
    rfl
  have hsz : 0 < CRYPT_SZ := by decide
  rw [hrun]
  refine ⟨rfl, by omega, ?_, ?_, rfl, rfl, ?_, rfl⟩
  · exact onBuf_self (respond true (data :: rest)) 0 fun y => { y with active := true }
  · refine (@onBuf_ne (respond true (data :: rest)) 0 1 (fun y => { y with active := true }) (by decide)).trans ?_
    cases rest <;> rfl
  · show [(data, k + 1)] = _
    rw [show min (k + 1) CRYPT_SZ + (k + 1 - CRYPT_SZ) = k + 1 by omega]

/-- `SSL_write` fails. -/
theorem start_refused {data : Bytes} {rest : List Bytes} (h : sslWrite 0 data = none ∨ sslWrite 0 data = some 0) :
    (start sslWrite true (data :: rest)).request = none ∧ (start sslWrite true (data :: rest)).log = [.failed, .finish 0] := by
  rw [start_tls]
  unfold Conn.hinSslDoWrite
  show (match sslWrite 0 data with | none => _ | some 0 => _ | some m => _ : Conn).request = _ ∧
    (match sslWrite 0 data with | none => _ | some 0 => _ | some m => _ : Conn).log = _
  rcases h with h | h
  · rw [h]
    exact ⟨rfl, rfl⟩
  · rw [h]
    exact ⟨rfl, rfl⟩

section
variable {data : Bytes} {rest : List Bytes} {left more : Nat}

theorem Sealing.good (h : Sealing data rest s left more) : Good (data :: rest).flatten s :=
  @good_sending _ s [] (by rw [h.request]; rfl) h.log (List.nil_prefix)

variable (sslWrite) in
/-- A write that fails: no plain buffer is called back. -/
theorem Sealing.error (h : Sealing data rest s left more) (e : Nat) :
    ∃ s', s.step sslWrite (.error e) = some s' ∧ ∀ whole, ¬ Good whole s' := by
  refine ⟨{ s with request := none, writeFlag := false }.note .failed, ?_, fun whole hgood => ?_⟩
  · unfold Conn.step
    rw [h.request]
  · have hcount := good_count hgood rfl
    have hlog : ({ s with request := none, writeFlag := false }.note .failed).log = [.failed] := by
      show s.log ++ [.failed] = _
      rw [h.log]
      rfl
    rw [hlog] at hcount
    exact absurd hcount (by decide)

variable (sslWrite) in
theorem Sealing.wrote (h : Sealing data rest s left more) {n : Nat} (hn : accepts left n) :
    s.step sslWrite (.wrote n) = some (s.hinSslWriteCallback sslWrite left n (some 0)) := by
  unfold Conn.step
  rw [h.request]
  exact if_pos hn

/-- Some of the crypt buffer: it is handed over again with the rest. -/
theorem Sealing.part (h : Sealing data rest s left more) {n : Nat} (hn : n < left) :
    Sealing data rest (s.hinSslWriteCallback sslWrite left n (some 0)) (left - n) more := by
  have hdelivered : Conn.delivered n s.sealed = ([], [(data, left - n + more)]) := by
    rw [h.sealed]
    unfold Conn.delivered
    rw [if_neg (by omega), show left + more - n = left - n + more by omega]
  unfold Conn.hinSslWriteCallback
  rw [if_pos hn, hdelivered]
  refine ⟨rfl, by omega, h.buf, h.later, h.links, h.wbio, rfl, ?_⟩
  show s.log ++ [] = []
  rw [h.log]
  rfl

/-- The state after the plain buffer has been called back, before the crypt buffer is used again. -/
structure Finished (rest : List Bytes) (s : Conn) (acts : List Act) (more : Nat) : Prop where
  request : s.request = none
  flag : s.writeFlag = false
  later : s.bufs 1 = rest.head?.map fun data => { data }
  links : s.list = taken (rest.length + 1)
  wbio : s.wbio = more
  log : s.log = acts ++ [.finish 0]

variable (sslWrite) in
/-- The last of the crypt buffer: the plain buffer is called back, and the response is finished. -/
theorem Sealing.full (h : Sealing data rest s left more) :
    ∃ t, s.hinSslWriteCallback sslWrite left left (some 0) = t.hinSslCheckData sslWrite left ∧
      Finished rest t (if more = 0 then [.sent data] else []) more := by
  have hdelivered : (Conn.delivered left s.sealed).1 = if more = 0 then [.sent data] else [] := by
    rw [h.sealed]
    unfold Conn.delivered
    by_cases hmore : more = 0
    · rw [if_pos (by omega), if_pos hmore]
      rfl
    · rw [if_neg (by omega), if_neg hmore]
  generalize hu : ({ s with
    request := none
    writeFlag := false
    log := s.log ++ (Conn.delivered left s.sealed).1
    sealed := (Conn.delivered left s.sealed).2 } : Conn) = u
  have hbuf : u.bufs 0 = some { data, active := true } := by
    rw [← hu]
    exact h.buf
  have hnext : ((called u 0).list.node 0).next = none := by
    rw [← hu]
    show (s.list.node 0).next = none
    rw [h.links]
    exact (taken_links _).1
  refine ⟨u.complete sslWrite 0 { data, active := true } data.length, ?_, ?_⟩
  · unfold Conn.hinSslWriteCallback
    rw [if_neg (Nat.lt_irrefl left), hu]
    dsimp only
    rw [hbuf]
  · have hcomplete := @complete_last sslWrite u 0 { data, active := true } data.length rfl (Int.natCast_nonneg _) 0
      (continue_last hnext) (Int.le_refl 0)
    rw [hcomplete]
    refine ⟨?_, ?_, ?_, ?_, ?_, ?_⟩
    · rw [← hu]
      rfl
    · rw [← hu]
      rfl
    · rw [clean_ne _ (by decide)]
      show (called u 0).bufs 1 = _
      rw [called, onBuf_ne _ _ (by decide), ← hu]
      exact h.later
    · rw [← h.links, ← hu]
      rfl
    · rw [← h.wbio, ← hu]
      rfl
    · show u.log ++ [.finish 0] = _
      rw [← hdelivered, ← hu]
      show s.log ++ _ ++ [.finish 0] = _
      rw [h.log, List.nil_append]

/-- With one buffer, whose record was taken out of the write BIO at once, that was all. -/
theorem Finished.idle {t : Conn} (h : Finished [] t [.sent data] 0) (count : Nat) :
    (t.hinSslCheckData sslWrite count).request = none ∧ Good data (t.hinSslCheckData sslWrite count) := by
  have hcheck : t.hinSslCheckData sslWrite count = t := by
    unfold Conn.hinSslCheckData
    rw [h.flag, if_neg Bool.false_ne_true, h.wbio, if_neg (not_not.mpr rfl), h.links, (taken_links _).2]
    rfl
  rw [hcheck]
  exact ⟨h.request, @good_sent _ t [data] h.request h.log (List.flatten_singleton ..)⟩

/-- **What is left goes on**, and the response is over: it is finished again, or it is finished while a write is going on. -/
theorem Finished.bad {t : Conn} {acts : List Act} (h : Finished rest t acts more) (hleft : more ≠ 0 ∨ rest ≠ []) (count : Nat)
    (whole : Bytes) : ¬ Good whole (t.hinSslCheckData sslWrite count) := by
  have hmem : Act.finish 0 ∈ t.log := by
    rw [h.log]
    simp
  unfold Conn.hinSslCheckData
  rw [h.flag, if_neg Bool.false_ne_true, h.wbio]
  by_cases hmore : more = 0
  swap
  · rw [if_pos hmore]
    exact not_good_busy rfl hmem
  obtain ⟨next, rest', rfl⟩ := List.exists_cons_of_ne_nil (hleft.resolve_left (not_not.mpr hmore))
  have hfirst : t.list.head.next = some 1 := by
    rw [h.links, (taken_links _).2, if_pos (by simp)]
  rw [if_neg (not_not.mpr hmore), hfirst]
  dsimp only
  rw [h.later]
  dsimp only [List.head?_cons, Option.map_some]
  unfold Conn.hinSslDoWrite
  have hagain : ∀ u : Conn, u.request = none → u.log = t.log ++ [.failed] →
      ¬ Good whole (u.hinSslCallbackFailed 1 { data := next }) := by
    intro u hidle hlog hgood
    have hcount := good_count hgood hidle
    have hlog' : (u.hinSslCallbackFailed 1 { data := next }).log = u.log ++ [.finish 0] := rfl
    rw [hlog', hlog, h.log] at hcount
    simp only [List.count_append, List.count_singleton_self] at hcount
    omega
  cases hrecord : sslWrite t.records next with
  | none =>
      dsimp only
      rw [hrecord]
      exact hagain _ h.request rfl
  | some m =>
      cases m with
      | zero =>
          dsimp only
          rw [hrecord]
          exact hagain _ h.request rfl
      | succ m =>
          dsimp only
          rw [hrecord]
          exact not_good_busy rfl hmem

end

/-- A TLS connection with one buffer whose record fits: it is on its way, or the response is over. -/
def OnTls (data : Bytes) (s : Conn) : Prop := (∃ left, Sealing data [] s left 0) ∨ s.request = none ∧ Good data s

theorem onTls_step {data : Bytes} {r : Result} {s' : Conn} (h : OnTls data s) (hr : r.isError = false)
    (hstep : s.step sslWrite r = some s') : OnTls data s' := by
  rcases h with ⟨left, h⟩ | ⟨hidle, -⟩
  swap
  · unfold Conn.step at hstep
    rw [hidle] at hstep
    exact absurd hstep.symm (Option.some_ne_none s')
  cases r with
  | error e => exact absurd hr.symm Bool.false_ne_true
  | wrote n =>
      by_cases hn : accepts left n
      swap
      · unfold Conn.step at hstep
        rw [h.request] at hstep
        dsimp only at hstep
        rw [if_neg hn] at hstep
        exact absurd hstep.symm (Option.some_ne_none s')
      rw [h.wrote sslWrite hn] at hstep
      rw [← Option.some.inj hstep]
      by_cases hpart : n < left
      · exact Or.inl ⟨left - n, h.part hpart⟩
      · obtain rfl : n = left := Nat.le_antisymm hn.1 (Nat.not_lt.mp hpart)
        obtain ⟨t, ht, hfinished⟩ := h.full sslWrite
        rw [ht]
        exact Or.inr (hfinished.idle n)

/-! ## The result -/

/-- A plain connection with an ordered chain; or TLS where `SSL_write` fails at once, or there is one buffer, its record
    fits in a crypt buffer, and no write fails. -/
def Holds (sslWrite : SslWrite) (ssl errors : Bool) (data : Bytes) (rest : List Bytes) : Prop :=
  if ssl then ∀ m, sslWrite 0 data = some m → m ≠ 0 → rest = [] ∧ m ≤ CRYPT_SZ ∧ errors = false
  else Ordered (data :: rest)

theorem plain_iff (sslWrite : SslWrite) (errors : Bool) (data : Bytes) (rest : List Bytes) :
    (∀ es s, Runs sslWrite errors (start sslWrite false (data :: rest)) es s → Good (data :: rest).flatten s) ↔
      Ordered (data :: rest) := by
  have hstart := start_sending sslWrite data rest
  constructor
  · intro h
    by_contra hnot
    obtain ⟨es, s, hrun, hbad⟩ := plain_early hstart hnot
    exact hbad (h es s hrun)
  · intro hordered es s hrun
    have hinit : OnPlain (data :: rest) (start sslWrite false (data :: rest)) :=
      Or.inl ⟨0, _, _, hstart, fun hnil => hordered.front (congrArg some hnil)⟩
    exact onPlain_good
      (hrun.invariant (I := OnPlain (data :: rest)) hinit fun _ _ _ h _ hstep => onPlain_step hordered h hstep)

/-- On TLS, once the first record has been made. -/
theorem tls_iff {data : Bytes} {m : Nat} (hrecord : sslWrite 0 data = some m) (hm : m ≠ 0) (errors : Bool) (rest : List Bytes) :
    (∀ es s, Runs sslWrite errors (start sslWrite true (data :: rest)) es s → Good (data :: rest).flatten s) ↔
      rest = [] ∧ m ≤ CRYPT_SZ ∧ errors = false := by
  have hstart := @start_sealing sslWrite data rest m hrecord hm
  constructor
  · intro h
    -- the whole crypt buffer is accepted
    have hfull : rest = [] ∧ m - CRYPT_SZ = 0 := by
      by_contra hnot
      have hleft : m - CRYPT_SZ ≠ 0 ∨ rest ≠ [] := by
        by_contra hno
        obtain ⟨h1, h2⟩ := not_or.mp hno
        exact hnot ⟨not_not.mp h2, not_not.mp h1⟩
      obtain ⟨t, ht, hfinished⟩ := hstart.full sslWrite
      have hstep := hstart.wrote sslWrite ⟨Nat.le_refl _, id⟩
      rw [ht] at hstep
      exact hfinished.bad hleft _ _ (h _ _ (runs_wrote hstep))
    refine ⟨hfull.1, Nat.sub_eq_zero_iff_le.mp hfull.2, ?_⟩
    cases errors with
    | false => rfl
    | true =>
        obtain ⟨s', hstep, hbad⟩ := hstart.error sslWrite 0
        exact absurd (h [.error 0] s' (@RunWith.snoc _ _ _ _ _ [] _ _ _ .nil (Or.inl rfl) hstep)) (hbad _)
  · rintro ⟨rfl, hfits, rfl⟩ es s hrun
    rw [Nat.sub_eq_zero_iff_le.mpr hfits] at hstart
    have hinv : OnTls data s := hrun.invariant (I := OnTls data) (Or.inl ⟨_, hstart⟩) fun _ _ _ h hg hstep =>
      onTls_step h (hg.resolve_left Bool.false_ne_true) hstep
    have hwhole : ([data] : List Bytes).flatten = data := List.flatten_singleton ..
    rcases hinv with ⟨left, h⟩ | ⟨-, h⟩
    · exact h.good
    · exact hwhole.symm ▸ h

/-- **When a raw response is sent**: on a plain connection whenever no empty buffer stands in front of one with bytes; on
TLS the chain is taken apart, and only a single buffer, whose record fits and whose write does not fail, is sent right. -/
theorem raw_response_iff (sslWrite : SslWrite) (ssl errors : Bool) (data : Bytes) (rest : List Bytes) :
    (∀ es s, Runs sslWrite errors (start sslWrite ssl (data :: rest)) es s → Good (data :: rest).flatten s) ↔
      Holds sslWrite ssl errors data rest := by
  cases ssl with
  | false => exact plain_iff sslWrite errors data rest
  | true =>
      have hrefused : sslWrite 0 data = none ∨ sslWrite 0 data = some 0 →
          ∀ es s, Runs sslWrite errors (start sslWrite true (data :: rest)) es s → Good (data :: rest).flatten s := by
        intro h es s hrun
        obtain ⟨hidle, hlog⟩ := @start_refused sslWrite data rest h
        have hgood : Good (data :: rest).flatten (start sslWrite true (data :: rest)) :=
          @good_failed _ _ [] hidle hlog List.nil_prefix
        refine (hrun.invariant (I := fun u => u.request = none ∧ Good (data :: rest).flatten u) ⟨hidle, hgood⟩ ?_).2
        intro u r u' hu _ hstep
        unfold Conn.step at hstep
        rw [hu.1] at hstep
        exact absurd hstep.symm (Option.some_ne_none u')
      cases hrecord : sslWrite 0 data with
      | none =>
          refine ⟨fun _ m hm => ?_, fun _ => hrefused (Or.inl hrecord)⟩
          rw [hrecord] at hm
          exact absurd hm.symm (Option.some_ne_none m)
      | some m =>
          by_cases hm : m = 0
          · refine ⟨fun _ k hk hk0 => ?_, fun _ => hrefused (Or.inr (hm ▸ hrecord))⟩
            rw [hrecord] at hk
            exact absurd ((Option.some.inj hk).symm.trans hm) hk0
          · rw [tls_iff hrecord hm]
            constructor
            · intro h k hk _
              rw [hrecord] at hk
              rw [← Option.some.inj hk]
              exact h
            · exact fun h => h m hrecord hm

/-- Two buffers on TLS: the response is finished when the first has been sent, and the second is still to come. -/
theorem raw_response_twice : ¬ ∀ es s,
    Runs (fun _ data => some (data.length + 22)) false
      (start (fun _ data => some (data.length + 22)) true [bytes "HTTP/1.1 200 OK", bytes "body"]) es s →
    Good (bytes "HTTP/1.1 200 OKbody") s := by
  intro h
  let sslWrite : SslWrite := fun _ data => some (data.length + 22)
  let first := start sslWrite true [bytes "HTTP/1.1 200 OK", bytes "body"]
  have hstep : first.step sslWrite (.wrote 37) = some (first.hinSslWriteCallback sslWrite 37 37 (some 0)) := rfl
  have hlog : (first.hinSslWriteCallback sslWrite 37 37 (some 0)).log = [.sent (bytes "HTTP/1.1 200 OK"), .finish 0] := rfl
  have hbusy : (first.hinSslWriteCallback sslWrite 37 37 (some 0)).request = some (.crypt 26 (some 1)) := rfl
  refine @not_good_busy _ _ (by rw [hbusy]; rfl) 0 ?_ (h _ _ (runs_wrote hstep))
  rw [hlog]
  simp

end

end RawResponse
end Http
end Hin9
