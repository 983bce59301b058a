import Hin9.Basic.Bytes

/-!
# `Netcode.Uring` — a request completed at once, and one completed by the ring (`uring.c`)

A request is put to the kernel in one of three ways. On the ring it is completed later by `hin_event_process`; with
`HIN_SYNC` it is completed before `hin_request_*` returns, by `hin_request_callback`; with `HIN_EPOLL` the file descriptor
is waited for. The callback is the same function in all of them and cannot ask which one it was.

`Transparent` says that the callback need not ask. `hin_request_callback` does not clear `HIN_ACTIVE`, which
`hin_request_active` has set a moment before, so no request that is completed at once is transparent, and a callback that
goes on with the same buffer is refused: `open_statx_refused` is the chain the file server takes.
-/

namespace Hin9
namespace Uring

/-- The bits of `buffer->flags` that decide how a request is put. -/
structure Flags where
  active : Bool := false
  ssl : Bool := false
  sync : Bool := false
  epollRead : Bool := false
  epollWrite : Bool := false
  file : Bool := false
  offsets : Bool := false
  socket : Bool := false
deriving Repr, DecidableEq

/-- `buffer->flags & HIN_EPOLL`. -/
def Flags.epoll (f : Flags) : Bool := f.epollRead || f.epollWrite

/-- `hin_buffer_t`, with callbacks named by `κ`. `listenFd` is the socket of the server, which an accept goes through
    `parent` for. -/
structure Buffer (κ : Type) where
  callback : κ
  fd : Int
  pos : Int := 0
  count : Nat := 0
  listenFd : Int := 0
  flags : Flags := {}
deriving Repr, DecidableEq

/-- The requests that read, write, open, look up or accept. -/
inductive Request where
  | write
  | read
  | accept (flags : Nat)
  | openat (dfd : Int) (path : Bytes) (flags mode : Nat)
  | statx (dfd : Int) (path : Bytes) (flags mask : Nat)
deriving Repr, DecidableEq

/-- What the kernel is asked to do. A read or write without a position is done where the descriptor stands. -/
inductive Op where
  | write (fd : Int) (count : Nat) (pos : Option Int)
  | read (fd : Int) (count : Nat) (pos : Option Int)
  | send (fd : Int) (count : Nat)
  | recv (fd : Int) (count : Nat)
  | accept (fd : Int) (flags : Nat)
  | openat (dfd : Int) (path : Bytes) (flags mode : Nat)
  | statx (dfd : Int) (path : Bytes) (flags mask : Nat)
deriving Repr, DecidableEq

/-- What became of a request: `-1`, or the buffer is with the TLS layer, with epoll, with the kernel until the call
    returns, or with the ring. -/
inductive Outcome (κ : Type) where
  | refused (b : Buffer κ)
  | ssl (b : Buffer κ)
  | epoll (b : Buffer κ)
  | sync (op : Op) (b : Buffer κ)
  | ring (op : Op) (b : Buffer κ)
deriving Repr, DecidableEq

variable {κ : Type}

/-! ## Putting a request -/

/-- `flags |= HIN_ACTIVE`, or `flags &= ~HIN_ACTIVE`. -/
def Buffer.setActive (b : Buffer κ) (on : Bool) : Buffer κ := { b with flags := { b.flags with active := on } }

/-- `flags |= HIN_SYNC`. -/
def Buffer.setSync (b : Buffer κ) : Buffer κ := { b with flags := { b.flags with sync := true } }

@[simp] theorem Buffer.setActive_active (b : Buffer κ) (on : Bool) : (b.setActive on).flags.active = on := rfl
@[simp] theorem Buffer.setActive_ssl (b : Buffer κ) (on : Bool) : (b.setActive on).flags.ssl = b.flags.ssl := rfl
@[simp] theorem Buffer.setActive_sync (b : Buffer κ) (on : Bool) : (b.setActive on).flags.sync = b.flags.sync := rfl
@[simp] theorem Buffer.setActive_epoll (b : Buffer κ) (on : Bool) : (b.setActive on).flags.epoll = b.flags.epoll := rfl
@[simp] theorem Buffer.setActive_file (b : Buffer κ) (on : Bool) : (b.setActive on).flags.file = b.flags.file := rfl
@[simp] theorem Buffer.setActive_offsets (b : Buffer κ) (on : Bool) :
    (b.setActive on).flags.offsets = b.flags.offsets := rfl

/-- `hin_request_active`. -/
def hinRequestActive (b : Buffer κ) : Option (Buffer κ) := if b.flags.active then none else some (b.setActive true)

/-- What `hin_request_write` and `hin_request_read` have in common: `plain` is the call for a file, at a position or
    where the descriptor stands, and `socket` the one for a socket. -/
def requestRw (plain : Option Int → Op) (socket : Op) (b : Buffer κ) : Outcome κ :=
  match hinRequestActive b with
  | none => .refused b
  | some b =>
      if b.flags.ssl then .ssl b
      else if b.flags.epoll && !(b.flags.file || b.flags.offsets) then .epoll b
      else
        let b := if b.flags.epoll then b.setSync else b
        if b.flags.sync then .sync (plain none) b
        else if b.flags.socket then .ring socket b
        else .ring (plain (some b.pos)) b

/-- `hin_request_write`. -/
def hinRequestWrite (b : Buffer κ) : Outcome κ := requestRw (.write b.fd b.count) (.send b.fd b.count) b

/-- `hin_request_read`. -/
def hinRequestRead (b : Buffer κ) : Outcome κ := requestRw (.read b.fd b.count) (.recv b.fd b.count) b

/-- `hin_request_accept`. -/
def hinRequestAccept (b : Buffer κ) (flags : Nat) : Outcome κ :=
  match hinRequestActive b with
  | none => .refused b
  | some b =>
      if b.flags.epoll then .epoll b
      else if b.flags.sync then .sync (.accept b.fd flags) b
      else .ring (.accept b.listenFd flags) b

/-- `hin_request_openat`. -/
def hinRequestOpenat (b : Buffer κ) (dfd : Int) (path : Bytes) (flags mode : Nat) : Outcome κ :=
  match hinRequestActive b with
  | none => .refused b
  | some b =>
      if b.flags.sync || b.flags.epoll then .sync (.openat dfd path flags mode) b
      else .ring (.openat dfd path flags mode) b

/-- `sizeof (struct statx)`. -/
def sizeofStatx : Nat := 256

/-- `hin_request_statx`. The size of the buffer is only looked at on the way to the ring. -/
def hinRequestStatx (b : Buffer κ) (dfd : Int) (path : Bytes) (flags mask : Nat) : Outcome κ :=
  match hinRequestActive b with
  | none => .refused b
  | some b =>
      if b.flags.sync || b.flags.epoll then .sync (.statx dfd path flags mask) b
      else if b.count < sizeofStatx then .refused b
      else .ring (.statx dfd path flags mask) b

def Request.submit (r : Request) (b : Buffer κ) : Outcome κ :=
  match r with
  | .write => hinRequestWrite b
  | .read => hinRequestRead b
  | .accept flags => hinRequestAccept b flags
  | .openat dfd path flags mode => hinRequestOpenat b dfd path flags mode
  | .statx dfd path flags mask => hinRequestStatx b dfd path flags mask

/-! ## Completing it -/

/-- What the kernel did, the buffer and the number its callback was given, and whether the buffer was cleaned. -/
structure Completion (κ : Type) where
  op : Op
  seen : Buffer κ
  res : Int
  cleaned : Bool
deriving Repr, DecidableEq

/-- `hin_request_callback`: a call that failed returned `-1` and left its reason in `errno`. -/
def hinRequestCallback (op : Op) (b : Buffer κ) (ret errno : Int) (callback : Buffer κ → Int → Int) : Completion κ :=
  let ret := if ret < 0 then -errno else ret
  let err := callback b ret
  ⟨op, b, ret, err ≠ 0⟩

/-- One turn of the loop of `hin_event_process`. -/
def hinEventProcess (op : Op) (b : Buffer κ) (res : Int) (callback : Buffer κ → Int → Int) : Completion κ :=
  let b := b.setActive false
  let err := callback b res
  ⟨op, b, res, err ≠ 0⟩

/-- A request that is completed at once. The kernel answers with a number or with a reason. -/
def completeSync (r : Request) (b : Buffer κ) (answer : Except Nat Nat) (callback : Buffer κ → Int → Int) :
    Option (Completion κ) :=
  match r.submit b with
  | .sync op b =>
      match answer with
      | .ok n => some (hinRequestCallback op b n 0 callback)
      | .error errno => some (hinRequestCallback op b (-1) errno callback)
  | _ => none

/-- A request that is completed by the ring. -/
def completeRing (r : Request) (b : Buffer κ) (answer : Except Nat Nat) (callback : Buffer κ → Int → Int) :
    Option (Completion κ) :=
  match r.submit b with
  | .ring op b =>
      match answer with
      | .ok n => some (hinEventProcess op b n callback)
      | .error errno => some (hinEventProcess op b (-errno) callback)
  | _ => none

/-! ## What the callback can tell -/

/-- The same buffer, for the ring. -/
def Buffer.onRing (b : Buffer κ) : Buffer κ :=
  { b with flags := { b.flags with sync := false, epollRead := false, epollWrite := false } }

/-- The position a call works at. -/
def Op.pos : Op → Option Int
  | .write _ _ pos => pos
  | .read _ _ pos => pos
  | _ => none

/-- **The callback cannot tell that a request was completed at once.** The ring would have completed it with the same
    buffer, apart from the bits that keep it off the ring, the buffer is free for the next request, a file is read and
    written at the position of the buffer, and the buffer is cleaned if the callback says so. -/
def Transparent (r : Request) (b : Buffer κ) : Prop :=
  ∀ answer callback c, completeSync r b answer callback = some c →
    (∃ c', completeRing r b.onRing answer callback = some c' ∧
      c.seen.onRing = c'.seen ∧ c.res = c'.res ∧ c.op = c'.op) ∧
    (∃ b', hinRequestActive c.seen = some b') ∧
    ((r = .write ∨ r = .read) → b.flags.offsets = true → c.op.pos = some b.pos) ∧
    (c.cleaned = true ↔ callback c.seen c.res ≠ 0)

/-- The request is completed before `hin_request_*` returns. -/
def Synchronous (r : Request) (b : Buffer κ) : Bool :=
  !b.flags.active &&
    match r with
    | .write | .read =>
        !b.flags.ssl && (b.flags.sync || b.flags.epoll) && !(b.flags.epoll && !(b.flags.file || b.flags.offsets))
    | .accept _ => b.flags.sync && !b.flags.epoll
    | .openat .. | .statx .. => b.flags.sync || b.flags.epoll

/-! ## Which requests those are -/

theorem hinRequestActive_of_active {b : Buffer κ} (h : b.flags.active = true) : hinRequestActive b = none := if_pos h

theorem hinRequestActive_of_idle {b : Buffer κ} (h : b.flags.active = false) :
    hinRequestActive b = some (b.setActive true) := if_neg (by simp [h])

/-- A read or write that stays with the kernel until the call returns leaves its buffer marked. -/
theorem requestRw_sync {plain : Option Int → Op} {socket : Op} {b : Buffer κ} (hidle : b.flags.active = false)
    (hssl : b.flags.ssl = false) (hpath : (b.flags.sync || b.flags.epoll) = true)
    (hfile : (b.flags.epoll && !(b.flags.file || b.flags.offsets)) = false) :
    ∃ b', requestRw plain socket b = .sync (plain none) b' ∧ b'.flags.active = true := by
  have hway : b.flags.epoll = true ∨ b.flags.epoll = false ∧ b.flags.sync = true := by
    cases he : b.flags.epoll with
    | true => exact .inl rfl
    | false => exact .inr ⟨rfl, by simpa [he] using hpath⟩
  rcases hway with he | ⟨he, hs⟩
  · have hf : b.flags.file = false → b.flags.offsets = true := by simpa [he] using hfile
    refine ⟨(b.setActive true).setSync, ?_, rfl⟩
    simpa [requestRw, hinRequestActive_of_idle hidle, hssl, he, Buffer.setSync] using hf
  · refine ⟨b.setActive true, ?_, rfl⟩
    simp [requestRw, hinRequestActive_of_idle hidle, hssl, he, hs]

theorem requestRw_not_sync {plain : Option Int → Op} {socket : Op} {b : Buffer κ}
    (h : b.flags.active = true ∨ b.flags.ssl = true ∨ (b.flags.sync || b.flags.epoll) = false ∨
      (b.flags.epoll && !(b.flags.file || b.flags.offsets)) = true) (op : Op) (b' : Buffer κ) :
    requestRw plain socket b ≠ .sync op b' := by
  cases hactive : b.flags.active with
  | true => simp [requestRw, hinRequestActive_of_active hactive]
  | false =>
      rcases h with h | h | h | h
      · exact absurd (hactive.symm.trans h) (by simp)
      · simp [requestRw, hinRequestActive_of_idle hactive, h]
      · obtain ⟨hsync, he⟩ := Bool.or_eq_false_iff.mp h
        by_cases hssl : b.flags.ssl = true
        · simp [requestRw, hinRequestActive_of_idle hactive, hssl]
        · by_cases hsocket : (b.setActive true).flags.socket = true
          · simp [requestRw, hinRequestActive_of_idle hactive, hssl, hsync, he, hsocket]
          · simp [requestRw, hinRequestActive_of_idle hactive, hssl, hsync, he, hsocket]
      · obtain ⟨he, hf⟩ := Bool.and_eq_true_iff.mp h
        have hf' : b.flags.file = false ∧ b.flags.offsets = false := by simpa using hf
        by_cases hssl : b.flags.ssl = true
        · simp [requestRw, hinRequestActive_of_idle hactive, hssl]
        · simp [requestRw, hinRequestActive_of_idle hactive, hssl, he, hf']

/-- **A synchronous request is answered inside the call**, and the buffer its callback gets is marked as active. -/
theorem submit_sync {r : Request} {b : Buffer κ} (h : Synchronous r b = true) :
    ∃ op b', r.submit b = .sync op b' ∧ b'.flags.active = true := by
  obtain ⟨hidle, hpath⟩ := Bool.and_eq_true_iff.mp h
  have hactive : b.flags.active = false := by simpa using hidle
  have hrw : ∀ plain socket, (!b.flags.ssl && (b.flags.sync || b.flags.epoll) &&
      !(b.flags.epoll && !(b.flags.file || b.flags.offsets))) = true →
      ∃ op b', requestRw plain socket b = .sync op b' ∧ b'.flags.active = true := by
    intro plain socket hbits
    obtain ⟨hbits, hfile⟩ := Bool.and_eq_true_iff.mp hbits
    obtain ⟨hssl, hway⟩ := Bool.and_eq_true_iff.mp hbits
    obtain ⟨b', hb', hmark⟩ :=
      requestRw_sync hactive (by simpa using hssl) hway (by simpa only [Bool.not_eq_true'] using hfile)
    exact ⟨_, b', hb', hmark⟩
  cases r with
  | write => exact hrw _ _ hpath
  | read => exact hrw _ _ hpath
  | accept flags =>
      obtain ⟨hsync, hepoll⟩ := Bool.and_eq_true_iff.mp hpath
      have hepoll' : b.flags.epoll = false := by simpa using hepoll
      simp [Request.submit, hinRequestAccept, hinRequestActive_of_idle hactive, hsync, hepoll']
  | openat dfd path flags mode =>
      have hway : (b.flags.sync || b.flags.epoll) = true := hpath
      simp only [Request.submit, hinRequestOpenat, hinRequestActive_of_idle hactive, Buffer.setActive_sync,
        Buffer.setActive_epoll, hway]
      exact ⟨_, _, rfl, rfl⟩
  | statx dfd path flags mask =>
      have hway : (b.flags.sync || b.flags.epoll) = true := hpath
      simp only [Request.submit, hinRequestStatx, hinRequestActive_of_idle hactive, Buffer.setActive_sync,
        Buffer.setActive_epoll, hway]
      exact ⟨_, _, rfl, rfl⟩

theorem submit_not_sync {r : Request} {b : Buffer κ} (h : Synchronous r b = false) (op : Op) (b' : Buffer κ) :
    r.submit b ≠ .sync op b' := by
  cases hactive : b.flags.active with
  | true =>
      cases r with
      | write => exact requestRw_not_sync (.inl hactive) op b'
      | read => exact requestRw_not_sync (.inl hactive) op b'
      | accept flags => simp [Request.submit, hinRequestAccept, hinRequestActive_of_active hactive]
      | openat dfd path flags mode => simp [Request.submit, hinRequestOpenat, hinRequestActive_of_active hactive]
      | statx dfd path flags mask => simp [Request.submit, hinRequestStatx, hinRequestActive_of_active hactive]
  | false =>
      have hrw : ∀ plain socket, (!b.flags.ssl && (b.flags.sync || b.flags.epoll) &&
          !(b.flags.epoll && !(b.flags.file || b.flags.offsets))) = false →
          requestRw plain socket b ≠ .sync op b' := by
        intro plain socket hbits
        apply requestRw_not_sync
        rcases Bool.and_eq_false_iff.mp hbits with hbits | hfile
        · rcases Bool.and_eq_false_iff.mp hbits with hssl | hway
          · exact .inr (.inl (by simpa using hssl))
          · exact .inr (.inr (.inl hway))
        · exact .inr (.inr (.inr (by simpa only [Bool.not_eq_false'] using hfile)))
      unfold Synchronous at h
      rw [hactive, Bool.not_false, Bool.true_and] at h
      cases r with
      | write => exact hrw _ _ h
      | read => exact hrw _ _ h
      | accept flags =>
          by_cases he : b.flags.epoll = true
          · simp [Request.submit, hinRequestAccept, hinRequestActive_of_idle hactive, he]
          · have hsync : b.flags.sync = false := by simpa [he] using h
            simp [Request.submit, hinRequestAccept, hinRequestActive_of_idle hactive, he, hsync]
      | openat dfd path flags mode =>
          have hway : (b.flags.sync || b.flags.epoll) = false := h
          simp [Request.submit, hinRequestOpenat, hinRequestActive_of_idle hactive, hway]
      | statx dfd path flags mask =>
          have hway : (b.flags.sync || b.flags.epoll) = false := h
          by_cases hcount : (b.setActive true).count < sizeofStatx
          · simp [Request.submit, hinRequestStatx, hinRequestActive_of_idle hactive, hway, hcount]
          · simp [Request.submit, hinRequestStatx, hinRequestActive_of_idle hactive, hway, hcount]

/-! ## What is the same, and what is not -/

/-- The answer of the kernel as a callback gets it. -/
def resOf : Except Nat Nat → Int
  | .ok n => n
  | .error errno => -errno

theorem completeSync_some {r : Request} {b : Buffer κ} {answer : Except Nat Nat} {callback : Buffer κ → Int → Int}
    {c : Completion κ} (h : completeSync r b answer callback = some c) :
    r.submit b = .sync c.op c.seen ∧ c.res = resOf answer ∧ (c.cleaned = true ↔ callback c.seen c.res ≠ 0) := by
  unfold completeSync at h
  cases hsub : r.submit b with
  | sync op b' =>
      rw [hsub] at h
      cases answer with
      | ok n =>
          obtain rfl := Option.some.inj h
          have hret : (if (n : Int) < 0 then -(0 : Int) else (n : Int)) = n := if_neg (by omega)
          simp [hinRequestCallback, resOf, hret]
      | error errno =>
          obtain rfl := Option.some.inj h
          simp [hinRequestCallback, resOf]
  | refused _ => exact absurd (hsub ▸ h) (by simp)
  | ssl _ => exact absurd (hsub ▸ h) (by simp)
  | epoll _ => exact absurd (hsub ▸ h) (by simp)
  | ring _ _ => exact absurd (hsub ▸ h) (by simp)

/-- **A request is transparent exactly where it is not completed at once.** -/
theorem transparent_iff (r : Request) (b : Buffer κ) : Transparent r b ↔ Synchronous r b = false := by
  constructor
  · intro h
    by_contra hsync
    obtain ⟨op, b', hsub, hmark⟩ := submit_sync (Bool.eq_true_of_not_eq_false hsync)
    have hcomplete : completeSync r b (.ok 0) (fun _ _ => 0) = some (hinRequestCallback op b' 0 0 fun _ _ => 0) := by
      unfold completeSync
      rw [hsub]
      rfl
    obtain ⟨-, ⟨b'', hagain⟩, -⟩ := h _ _ _ hcomplete
    have hrefused : hinRequestActive b' = none := hinRequestActive_of_active hmark
    exact absurd (hagain.symm.trans hrefused) (by simp)
  · intro h answer callback c hc
    exact absurd (completeSync_some hc).1 (submit_not_sync h c.op c.seen)

/-- **The statement fails** for the request that opens a file by its path. -/
theorem not_transparent : ¬ ∀ (r : Request) (b : Buffer Unit), Transparent r b := by
  intro hall
  have h := (transparent_iff (.openat 3 [97] 0 0) { callback := (), fd := 7, flags := { sync := true, socket := true } }).mp
    (hall _ _)
  exact absurd h (by decide)

/-! ## Going on with the same buffer -/

theorem submit_of_active {b : Buffer κ} (h : b.flags.active = true) (r : Request) : r.submit b = .refused b := by
  have hnone := hinRequestActive_of_active h
  cases r with
  | write => simp [Request.submit, hinRequestWrite, requestRw, hnone]
  | read => simp [Request.submit, hinRequestRead, requestRw, hnone]
  | accept flags => simp [Request.submit, hinRequestAccept, hnone]
  | openat dfd path flags mode => simp [Request.submit, hinRequestOpenat, hnone]
  | statx dfd path flags mask => simp [Request.submit, hinRequestStatx, hnone]

/-- **The callback of a request that was completed at once** gets the answer the ring would have given it and has its
    buffer cleaned by the same rule, but the buffer is still marked. -/
theorem completeSync_marked {r : Request} {b : Buffer κ} {answer : Except Nat Nat} {callback : Buffer κ → Int → Int}
    {c : Completion κ} (h : completeSync r b answer callback = some c) :
    c.res = resOf answer ∧ (c.cleaned = true ↔ callback c.seen c.res ≠ 0) ∧ c.seen.flags.active = true := by
  obtain ⟨hsub, hres, hcleaned⟩ := completeSync_some h
  refine ⟨hres, hcleaned, ?_⟩
  cases hsync : Synchronous r b with
  | false => exact absurd hsub (submit_not_sync hsync _ _)
  | true =>
      obtain ⟨op, b', hsub', hmark⟩ := submit_sync hsync
      have hsame := hsub.symm.trans hsub'
      injection hsame with _ hb
      rw [hb]
      exact hmark

/-- The ring clears the mark first. -/
theorem completeRing_idle {r : Request} {b : Buffer κ} {answer : Except Nat Nat} {callback : Buffer κ → Int → Int}
    {c : Completion κ} (h : completeRing r b answer callback = some c) :
    c.res = resOf answer ∧ (c.cleaned = true ↔ callback c.seen c.res ≠ 0) ∧ c.seen.flags.active = false := by
  unfold completeRing at h
  cases hsub : r.submit b with
  | ring op b' =>
      rw [hsub] at h
      cases answer with
      | ok n =>
          obtain rfl := Option.some.inj h
          simp [hinEventProcess, resOf]
      | error errno =>
          obtain rfl := Option.some.inj h
          simp [hinEventProcess, resOf]
  | refused _ => exact absurd (hsub ▸ h) (by simp)
  | ssl _ => exact absurd (hsub ▸ h) (by simp)
  | epoll _ => exact absurd (hsub ▸ h) (by simp)
  | sync _ _ => exact absurd (hsub ▸ h) (by simp)

/-- The callbacks of a request for a file that is opened by its path. -/
inductive FileCallback where
  | httpdOpenFilefd
  | httpdStatx
deriving Repr, DecidableEq

def hinHttpdAsyncOpen : Bool := true
def hinHttpdAsyncStatx : Bool := false

/-- The buffer of `httpd_handle_file_request`. -/
def httpdHandleFileRequest (sockfd : Int) (ssl : Bool) : Buffer FileCallback where
  callback := .httpdOpenFilefd
  fd := sockfd
  flags := { socket := true, ssl := ssl, sync := hinHttpdAsyncOpen }

/-- `httpd_open_filefd_callback`, where the file was opened as `fd`: the buffer, and what becomes of the request for its
    size and date. The callback returns zero in any case. -/
def httpdOpenFilefdCallback (b : Buffer FileCallback) (fd : Nat) (emptyPath all : Nat) : Outcome FileCallback :=
  let b := if hinHttpdAsyncStatx then b.setSync else b
  Request.submit (.statx fd [] emptyPath all) { b with callback := .httpdStatx }

/-- **A file that is opened by its path is never sent**: the file is open, the request for its size is refused, and
    nothing calls the client's buffer again. -/
theorem open_statx_refused {sockfd dfd : Int} {ssl : Bool} {path : Bytes} {flags mode fd emptyPath all : Nat}
    {callback : Buffer FileCallback → Int → Int} {c : Completion FileCallback}
    (h : completeSync (.openat dfd path flags mode) (httpdHandleFileRequest sockfd ssl) (.ok fd) callback = some c) :
    ∃ b, httpdOpenFilefdCallback c.seen fd emptyPath all = .refused b := by
  have hmark : ({ c.seen with callback := .httpdStatx } : Buffer FileCallback).flags.active = true :=
    (completeSync_marked h).2.2
  have hrefused := submit_of_active hmark (.statx fd [] emptyPath all)
  exact ⟨_, hrefused⟩

end Uring
end Hin9
