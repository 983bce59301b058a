import Hin9.Netcode.Pipe

/-!
# `Netcode.Ssl` — a TLS connection over memory BIOs (`ssl.c`)

The application reads and writes plain buffers. OpenSSL turns them into ciphertext, which it leaves in the write BIO, and
crypt buffers carry it to and from the socket. One function, `hin_ssl_check_data`, pumps: it is run with a crypt buffer
that nothing else uses, whenever a plain buffer comes first in its list and whenever a crypt buffer has done its work, and
it finds one thing to do with it.

The callbacks of plain buffers are the application, which may hand over buffers from within. They are steps of their own:
the functions that wait for a callback are on the stack of the state. What OpenSSL answers comes with each step; its write
BIO is a queue of bytes. `taken` and `accepted` record what `BIO_read` gave and what the socket has accepted.
-/

namespace Hin9
namespace Netcode
namespace Ssl

/-! ## State -/

/-- The size of a crypt buffer. -/
def CRYPT_SZ : Nat := READ_SZ + 100

/-- A crypt buffer. `parent` is the plain buffer whose bytes it carries. -/
structure Crypt where
  mem : Nat → UInt8 := fun _ => 0
  ptr : Nat := 0
  count : Nat := CRYPT_SZ
  parent : Option Nat := none

/-- `n` bytes from `ptr` on. -/
def Crypt.view (x : Crypt) (n : Nat) : Bytes := (List.range n).map fun i => x.mem (x.ptr + i)

/-- Bytes are written to the memory of a buffer. -/
def poke (mem : Nat → UInt8) (pos : Nat) (bs : Bytes) : Nat → UInt8 :=
  fun i => if pos ≤ i ∧ i < pos + bs.length then bs.getD (i - pos) 0 else mem i

/-- A plain buffer: `HIN_ACTIVE` from the request to the callback. -/
structure Plain where
  count : Nat
  active : Bool := true
  sslBuffer : Option Nat := none
deriving Repr, DecidableEq

/-- What waits for a callback to return: `hin_ssl_callback`, `hin_ssl_write_callback` in front of its
    `hin_ssl_handshake`, and the loop of `hin_ssl_read_callback` over the plain buffers that get an error. -/
inductive Frame where
  | callback (plain : Nat)
  | pump (crypt : Nat)
  | closing (next : Option Nat) (crypt : Nat)
deriving Repr, DecidableEq

/-- `get_sslstatus`. -/
inductive Status where
  | ok | wantRead | wantWrite | fail
deriving Repr, DecidableEq

/-- What OpenSSL does when the pump is run: the ciphertext each call leaves in the write BIO, the status after the second
    `SSL_do_handshake`, and the results of `SSL_write` and `SSL_read`, as far as the pump gets to them. -/
structure Answers where
  first : Bytes := []
  second : Bytes := []
  status : Status := .ok
  written : Int := 0
  record : Bytes := []
  read : Int := -1
  reply : Bytes := []
deriving Repr, DecidableEq

/-- `hin_ssl_t` with the buffers of the connection. `writing` and `reading` are the crypt buffers that the socket is
    working on; `failed` records that a write on the socket has failed. -/
structure Tls where
  writeFlag : Bool := false
  readFlag : Bool := false
  wbio : Bytes := []
  writeList : List Nat := []
  readList : List Nat := []
  plains : Nat → Option Plain := fun _ => none
  crypts : Nat → Option Crypt := fun _ => none
  nextCrypt : Nat := 0
  writing : List Nat := []
  reading : List Nat := []
  stack : List Frame := []
  taken : Bytes := []
  accepted : Bytes := []
  failed : Bool := false

namespace Tls

variable (s : Tls)

def setCrypt (c : Nat) (x : Crypt) : Tls := { s with crypts := Function.update s.crypts c (some x) }

/-- `hin_buffer_clean` on a crypt buffer. -/
def freeCrypt (c : Nat) : Tls := { s with crypts := Function.update s.crypts c none }

def onPlain (p : Nat) (f : Plain → Plain) : Tls := { s with plains := Function.update s.plains p ((s.plains p).map f) }

/-- OpenSSL leaves bytes in the write BIO. -/
def putOut (bs : Bytes) : Tls := { s with wbio := s.wbio ++ bs }

/-- The socket is working on the buffer. -/
def isActive (c : Nat) : Bool := c ∈ s.writing || c ∈ s.reading

/-- `BIO_read` on the write BIO when it is not empty. -/
def bioRead (n : Nat) : Bytes × Tls :=
  (s.wbio.take n, { s with wbio := s.wbio.drop n, taken := s.taken ++ s.wbio.take n })

/-- `hin_ssl_callback` up to the call. -/
def hinSslCallback (p : Nat) : Tls :=
  { s.onPlain p fun y => { y with active := false } with stack := .callback p :: s.stack }

/-! ## The pump -/

/-- `hin_ssl_do_write` with the crypt buffer `c`; nothing when there is nothing to write, or a write is under way. -/
def hinSslDoWrite (a : Answers) (c : Nat) (x : Crypt) : Option Tls :=
  match s.writeList with
  | [] => none
  | p :: rest =>
      if s.writeFlag then none
      else
        let s := ({ s with writeFlag := true, writeList := rest }).putOut a.record
        if a.written < 0 then some (s.hinSslCallback p)
        else if s.wbio = [] then some (s.hinSslCallback p)
        else
          let (bs, s) := s.bioRead x.count
          let s := s.setCrypt c { x with mem := poke x.mem x.ptr bs, count := bs.length, parent := some p }
          if s.isActive c then some ((s.onPlain p fun y => { y with sslBuffer := none }).hinSslCallback p)
          else some { s.onPlain p fun y => { y with sslBuffer := some c } with writing := s.writing ++ [c] }

/-- `hin_ssl_do_read` with the crypt buffer `c`; nothing when nothing is to be read, or a read is under way. -/
def hinSslDoRead (a : Answers) (c : Nat) (x : Crypt) : Option Tls :=
  match s.readList with
  | [] => none
  | p :: rest =>
      if s.readFlag then none
      else
        let s := s.putOut a.reply
        let held := s.onPlain p fun y => { y with sslBuffer := some c }
        if 0 < a.read then some ({ held with readList := rest }.hinSslCallback p)
        else
          let s := { held.setCrypt c { x with count := CRYPT_SZ, parent := some p } with readFlag := true }
          if s.isActive c then some (s.hinSslCallback p)
          else some { s with reading := s.reading ++ [c] }

/-- `hin_ssl_check_data`. The first thing there is to do with the crypt buffer is done; without any it is freed. The crypt
    buffer has no parent here, so a request that is refused ends the server. -/
def hinSslCheckData (a : Answers) (c : Nat) (x : Crypt) : Option Tls :=
  let s := s.putOut a.first
  if !s.writeFlag && !s.wbio.isEmpty then
    let (bs, s) := s.bioRead CRYPT_SZ
    let s := { s.setCrypt c { x with mem := poke x.mem 0 bs, count := bs.length } with writeFlag := true }
    if s.isActive c then none else some { s with writing := s.writing ++ [c] }
  else
    let s := s.putOut a.second
    match a.status with
    | .wantRead =>
        if s.readFlag then some (s.freeCrypt c)
        else
          let s := { s.setCrypt c { x with count := CRYPT_SZ } with readFlag := true }
          if s.isActive c then none else some { s with reading := s.reading ++ [c] }
    | .fail => some (s.freeCrypt c)
    | .ok | .wantWrite =>
        match s.hinSslDoWrite a c x with
        | some s => some s
        | none =>
            match s.hinSslDoRead a c x with
            | some s => some s
            | none => some (s.freeCrypt c)

/-- `hin_ssl_handshake` on a crypt buffer. A freed one cannot be used. -/
def hinSslPump (a : Answers) (c : Nat) : Option Tls :=
  match s.crypts c with
  | none => none
  | some x => (s.setCrypt c { x with parent := none }).hinSslCheckData a c { x with parent := none }

/-- `hin_ssl_handshake` on a plain buffer: with the crypt buffer it has from before, or a new one. -/
def hinSslHandshake (a : Answers) (p : Nat) : Option Tls :=
  match (s.plains p).bind Plain.sslBuffer with
  | some c => s.hinSslPump a c
  | none =>
      ({ s.setCrypt s.nextCrypt {} with nextCrypt := s.nextCrypt + 1 }).hinSslPump a s.nextCrypt

/-! ## Requests -/

/-- The application is running: it has been called back, or nothing is going on. -/
def inApp : Bool :=
  match s.stack with
  | [] => true
  | .callback _ :: _ => true
  | _ => false

/-- The plain buffer is handed over; not while it is active. -/
def request (p n : Nat) : Option Tls :=
  match s.plains p with
  | none => some { s with plains := Function.update s.plains p (some { count := n }) }
  | some y => if y.active then none else some (s.onPlain p fun y => { y with count := n, active := true })

/-- `hin_ssl_request_write`. -/
def hinSslRequestWrite (a : Answers) (p n : Nat) : Option Tls :=
  (s.request p n).bind fun s =>
    let first := s.writeList.isEmpty
    let s := { s with writeList := s.writeList ++ [p] }
    if first then s.hinSslHandshake a p else some s

/-- `hin_ssl_request_read`. -/
def hinSslRequestRead (a : Answers) (p n : Nat) : Option Tls :=
  (s.request p n).bind fun s =>
    let first := s.readList.isEmpty
    let s := { s with readList := s.readList ++ [p] }
    if first then s.hinSslHandshake a p else some s

/-! ## Completions -/

/-- `hin_ssl_write_callback` when the socket has accepted `n` bytes: the rest is written again, or the plain buffer is
    called back, and the crypt buffer is pumped with. -/
def hinSslWriteCallback (a : Answers) (c : Nat) (n : Nat) : Option Tls :=
  match s.crypts c with
  | none => none
  | some x =>
      if x.count < n then none
      else
        let s := { s with writing := s.writing.erase c, writeFlag := false, accepted := s.accepted ++ x.view n }
        if n < x.count then
          some { s.setCrypt c { x with ptr := x.ptr + n, count := x.count - n } with writing := s.writing ++ [c] }
        else
          match x.parent with
          | some p =>
              some ((({ s with stack := .pump c :: s.stack }).onPlain p fun y =>
                { y with sslBuffer := none }).hinSslCallback p)
          | none => s.hinSslPump a c

/-- `hin_ssl_write_callback` with an error: the crypt buffer is cleaned. -/
def hinSslWriteFailed (c : Nat) : Tls :=
  { s.freeCrypt c with writing := s.writing.erase c, writeFlag := false, failed := true }

/-- The plain buffer behind `p` in a list. -/
def nextOf (p : Nat) : List Nat → Option Nat
  | [] => none
  | q :: rest => if q = p then rest.head? else nextOf p rest

/-- The loop of `hin_ssl_read_callback` over the plain buffers, which stops at each callback; then the crypt buffer is
    cleaned. An element that has left the list meanwhile cannot be followed. -/
def closeNext (next : Option Nat) (c : Nat) : Option Tls :=
  match next with
  | none => some (s.freeCrypt c)
  | some p =>
      if p ∈ s.readList then
        let s := { s with readList := s.readList.erase p, stack := .closing (nextOf p s.readList) c :: s.stack }
        some ((s.onPlain p fun y => { y with sslBuffer := none }).hinSslCallback p)
      else none

/-- `hin_ssl_read_callback` with ciphertext, which goes to the read BIO. -/
def hinSslReadCallback (a : Answers) (c : Nat) (data : Bytes) : Option Tls :=
  match s.crypts c with
  | none => none
  | some x =>
      if x.count < data.length ∨ data = [] then none
      else
        ({ s with reading := s.reading.erase c, readFlag := false }.setCrypt c
          { x with mem := poke x.mem x.ptr data }).hinSslPump a c

/-- `hin_ssl_read_callback` at the end of the stream or with an error. -/
def hinSslReadFailed (c : Nat) : Option Tls :=
  ({ s with reading := s.reading.erase c, readFlag := false }).closeNext s.readList.head? c

/-- A callback returns, and says whether its buffer is to be cleaned; not when it has handed it over again. The function
    that waited goes on. -/
def callbackReturns (a : Answers) (clean : Bool) : Option Tls :=
  match s.stack with
  | .callback p :: stack =>
      if clean && ((s.plains p).map Plain.active).getD false then none
      else
        let s := { s with stack }
        let s := if clean then
            let s := match (s.plains p).bind Plain.sslBuffer with
              | some c => s.freeCrypt c
              | none => s
            { s with plains := Function.update s.plains p none }
          else s
        match stack with
        | .pump c :: stack => ({ s with stack }).hinSslPump a c
        | .closing next c :: stack => ({ s with stack }).closeNext next c
        | _ => some s
  | _ => none

end Tls

/-! ## Steps -/

inductive Event where
  | write (p n : Nat) (a : Answers)               -- the application writes `n` bytes from a plain buffer
  | read (p n : Nat) (a : Answers)                -- it reads
  | returned (clean : Bool) (a : Answers)         -- the callback it is in returns
  | wrote (c n : Nat) (a : Answers)               -- the socket has accepted `n` bytes of a crypt buffer
  | writeFailed (c : Nat)
  | received (c : Nat) (data : Bytes) (a : Answers)
  | readFailed (c : Nat)                          -- an error, or the end of the stream
deriving Repr, DecidableEq

/-- One event of the connection. Completions are taken from the event loop. -/
def Tls.step (s : Tls) : Event → Option Tls
  | .write p n a => if s.inApp then s.hinSslRequestWrite a p n else none
  | .read p n a => if s.inApp then s.hinSslRequestRead a p n else none
  | .returned clean a => s.callbackReturns a clean
  | .wrote c n a => if s.stack = [] ∧ c ∈ s.writing then s.hinSslWriteCallback a c n else none
  | .writeFailed c => if s.stack = [] ∧ c ∈ s.writing then some (s.hinSslWriteFailed c) else none
  | .received c data a => if s.stack = [] ∧ c ∈ s.reading then s.hinSslReadCallback a c data else none
  | .readFailed c => if s.stack = [] ∧ c ∈ s.reading then s.hinSslReadFailed c else none

end Ssl
end Netcode
end Hin9
