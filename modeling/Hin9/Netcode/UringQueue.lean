import Hin9.Netcode.Uring

/-!
# `Netcode.UringQueue` — submission entries, and the queue for those that find no room (`uring.c`, `epoll.c`)

`Netcode.Uring` says which way a request is put. Here is what it is put into: the submission ring, which the kernel empties
when it likes, the list `queue` of the entries that found the ring full, and the epoll descriptor. All nine requests are
here, with every exit they have.

A request that is refused should leave no trace, since the callers set another flag and put it again. Some requests set
`HIN_ACTIVE` or take an entry and are refused after that; `submit_unchanged_iff` says which.
-/

namespace Hin9
namespace UringQueue

open Uring

/-! ## The ring and the queue -/

/-- What a prep call writes. -/
inductive Prep where
  | op (op : Op)
  | connect (fd : Int) (addr : Bytes)
  | close (fd : Int)
  | timeout (ts count flags : Nat)
deriving Repr, DecidableEq

/-- `struct io_uring_sqe`: what the kernel is to do, and the buffer it is done for. -/
structure Entry where
  prep : Prep
  data : Nat
deriving Repr, DecidableEq

/-- `HIN_URING_QUEUE_DEPTH`. -/
def hinUringQueueDepth : Nat := 256

/-- `struct io_uring`: the descriptor, the entries handed out so far, and how many of them the kernel has taken. An entry that
    was handed out and not written is `none`. -/
structure Ring where
  fd : Int := 0
  slots : List (Option Entry) := []
  seen : Nat := 0
deriving Repr, DecidableEq

/-- The state of `uring.c` and `epoll.c`: the ring, the list of entries that wait for it, and whether there is an epoll
    descriptor. -/
structure State where
  ring : Ring := {}
  queue : List (Option Entry) := []
  epoll : Bool := false
deriving Repr, DecidableEq

/-- The ring has an entry to give. -/
def Ring.room (r : Ring) : Bool := r.slots.length - r.seen < hinUringQueueDepth

/-- `io_uring_get_sqe`. -/
def ioUringGetSqe (r : Ring) : Option Ring := if r.room then some { r with slots := r.slots ++ [none] } else none

/-- `*sqe = entry`, for the entry handed out last. -/
def Ring.write (r : Ring) (entry : Option Entry) : Ring := { r with slots := r.slots.dropLast ++ [entry] }

/-- Where the entry lies that `hin_request_sqe` returns: it is the last of the ring or the head of the queue. -/
inductive Place where
  | ring
  | queue
deriving Repr, DecidableEq

/-- `hin_request_sqe`. -/
def hinRequestSqe (s : State) : State × Place :=
  match if 0 < s.ring.fd then ioUringGetSqe s.ring else none with
  | some ring => ({ s with ring := ring }, .ring)
  | none => ({ s with queue := none :: s.queue }, .queue)

/-- The prep call, and `io_uring_sqe_set_data`. -/
def State.prepare (s : State) (place : Place) (entry : Entry) : State :=
  match place with
  | .ring => { s with ring := s.ring.write (some entry) }
  | .queue => { s with queue := some entry :: s.queue.tail }

/-- `hin_process_sqe_queue`. -/
def hinProcessSqeQueue (s : State) : State :=
  match s.queue with
  | [] => s
  | new :: queue =>
      match ioUringGetSqe s.ring with
      | none => s
      | some ring => { s with ring := ring.write new, queue := queue }

/-! ## Epoll -/

/-- Whether `epoll_create1` and `epoll_ctl` do what they are asked. -/
structure Answer where
  create : Bool := true
  ctl : Bool := true
deriving Repr, DecidableEq

variable {κ : Type}

/-- `hin_init_epoll`. -/
def hinInitEpoll (a : Answer) (s : State) : Option State :=
  if s.epoll then some s
  else if a.create then some { s with epoll := true }
  else none

/-- `hin_epoll_request_read` and `hin_epoll_request_write`, with the bit that stays when both are set: whether the descriptor
    is waited for now, and the buffer. -/
def hinEpollRequest (read : Bool) (a : Answer) (b : Buffer κ) (s : State) : Bool × Buffer κ × State :=
  match hinInitEpoll a s with
  | none => (false, b, s)
  | some s =>
      let b : Buffer κ :=
        if b.flags.epollRead && b.flags.epollWrite then
          { b with flags := { b.flags with epollRead := read, epollWrite := !read } }
        else b
      (a.ctl, b, s)

def hinEpollRequestRead (a : Answer) (b : Buffer κ) (s : State) : Bool × Buffer κ × State := hinEpollRequest true a b s
def hinEpollRequestWrite (a : Answer) (b : Buffer κ) (s : State) : Bool × Buffer κ × State := hinEpollRequest false a b s

/-! ## The nine requests -/

/-- What became of a request, with the buffer and the state it leaves behind. A request that is completed at once or by the
    TLS layer goes on from there. -/
inductive Submitted (κ : Type) where
  | refused (b : Buffer κ) (s : State)
  | ssl (b : Buffer κ) (s : State)
  | epoll (b : Buffer κ) (s : State)
  | sync (p : Prep) (b : Buffer κ) (s : State)
  | ring (entry : Entry) (place : Place) (b : Buffer κ) (s : State)
deriving Repr, DecidableEq

/-- The number the call returns: `hin_request_callback` returns zero whatever the callback says. -/
def Submitted.ret : Submitted κ → Int
  | .refused _ _ => -1
  | _ => 0

def Submitted.buffer : Submitted κ → Buffer κ
  | .refused b _ | .ssl b _ | .epoll b _ | .sync _ b _ | .ring _ _ b _ => b

def Submitted.state : Submitted κ → State
  | .refused _ s | .ssl _ s | .epoll _ s | .sync _ _ s | .ring _ _ _ s => s

/-- `if (hin_epoll_request_… (buffer) < 0) return -1; return 0;`. -/
def epollOr (r : Bool × Buffer κ × State) : Submitted κ :=
  if r.1 then .epoll r.2.1 r.2.2 else .refused r.2.1 r.2.2

/-- An entry is taken and written. -/
def onRing (data : Nat) (p : Prep) (b : Buffer κ) (s : State) : Submitted κ :=
  let (s, place) := hinRequestSqe s
  .ring ⟨p, data⟩ place b (s.prepare place ⟨p, data⟩)

/-- What `hin_request_write` and `hin_request_read` have in common, as in `Uring.requestRw`. -/
def requestRw (wait : Buffer κ → State → Bool × Buffer κ × State) (plain : Option Int → Op) (socket : Op) (data : Nat)
    (b : Buffer κ) (s : State) : Submitted κ :=
  match hinRequestActive b with
  | none => .refused b s
  | some b =>
      if b.flags.ssl then .ssl b s
      else if b.flags.epoll && !(b.flags.file || b.flags.offsets) then epollOr (wait b s)
      else
        let b := if b.flags.epoll then b.setSync else b
        if b.flags.sync then .sync (.op (plain none)) b s
        else onRing data (.op (if b.flags.socket then socket else plain (some b.pos))) b s

/-- `hin_request_write`. -/
def hinRequestWrite (a : Answer) (data : Nat) (b : Buffer κ) (s : State) : Submitted κ :=
  requestRw (hinEpollRequestWrite a) (.write b.fd b.count) (.send b.fd b.count) data b s

/-- `hin_request_read`. -/
def hinRequestRead (a : Answer) (data : Nat) (b : Buffer κ) (s : State) : Submitted κ :=
  requestRw (hinEpollRequestRead a) (.read b.fd b.count) (.recv b.fd b.count) data b s

/-- `hin_request_accept`. -/
def hinRequestAccept (a : Answer) (data : Nat) (b : Buffer κ) (s : State) (flags : Nat) : Submitted κ :=
  match hinRequestActive b with
  | none => .refused b s
  | some b =>
      if b.flags.epoll then epollOr (hinEpollRequestRead a b s)
      else if b.flags.sync then .sync (.op (.accept b.fd flags)) b s
      else onRing data (.op (.accept b.listenFd flags)) b s

/-- `hin_request_connect`: a request that is completed at once is not marked. -/
def hinRequestConnect (a : Answer) (data : Nat) (b : Buffer κ) (s : State) (addr : Bytes) : Submitted κ :=
  if b.flags.epoll then epollOr (hinEpollRequestRead a b s)
  else if b.flags.sync then .sync (.connect b.fd addr) b s
  else
    match hinRequestActive b with
    | none => .refused b s
    | some b => onRing data (.connect b.fd addr) b s

/-- `hin_request_close`. -/
def hinRequestClose (data : Nat) (b : Buffer κ) (s : State) : Submitted κ :=
  if b.flags.sync || b.flags.epoll then .sync (.close b.fd) b s
  else
    match hinRequestActive b with
    | none => .refused b s
    | some b => onRing data (.close b.fd) b s

/-- `hin_request_openat`. -/
def hinRequestOpenat (data : Nat) (b : Buffer κ) (s : State) (dfd : Int) (path : Bytes) (flags mode : Nat) : Submitted κ :=
  match hinRequestActive b with
  | none => .refused b s
  | some b =>
      if b.flags.sync || b.flags.epoll then .sync (.op (.openat dfd path flags mode)) b s
      else onRing data (.op (.openat dfd path flags mode)) b s

/-- `hin_request_timeout`. -/
def hinRequestTimeout (data : Nat) (b : Buffer κ) (s : State) (ts count flags : Nat) : Submitted κ :=
  match hinRequestActive b with
  | none => .refused b s
  | some b =>
      if b.flags.sync || b.flags.epoll then .refused b s
      else onRing data (.timeout ts count flags) b s

/-- `hin_request_statx`: the size of the buffer is looked at when the entry is taken already. -/
def hinRequestStatx (data : Nat) (b : Buffer κ) (s : State) (dfd : Int) (path : Bytes) (flags mask : Nat) : Submitted κ :=
  match hinRequestActive b with
  | none => .refused b s
  | some b =>
      if b.flags.sync || b.flags.epoll then .sync (.op (.statx dfd path flags mask)) b s
      else
        let (s, place) := hinRequestSqe s
        if b.count < sizeofStatx then .refused b s
        else .ring ⟨.op (.statx dfd path flags mask), data⟩ place b
          (s.prepare place ⟨.op (.statx dfd path flags mask), data⟩)

/-- The nine of them. -/
inductive Call where
  | write
  | read
  | accept (flags : Nat)
  | connect (addr : Bytes)
  | close
  | openat (dfd : Int) (path : Bytes) (flags mode : Nat)
  | timeout (ts count flags : Nat)
  | statx (dfd : Int) (path : Bytes) (flags mask : Nat)
deriving Repr, DecidableEq

def Call.submit (c : Call) (a : Answer) (data : Nat) (b : Buffer κ) (s : State) : Submitted κ :=
  match c with
  | .write => hinRequestWrite a data b s
  | .read => hinRequestRead a data b s
  | .accept flags => hinRequestAccept a data b s flags
  | .connect addr => hinRequestConnect a data b s addr
  | .close => hinRequestClose data b s
  | .openat dfd path flags mode => hinRequestOpenat data b s dfd path flags mode
  | .timeout ts count flags => hinRequestTimeout data b s ts count flags
  | .statx dfd path flags mask => hinRequestStatx data b s dfd path flags mask

/-! ## The two models of a request agree -/

/-- The request of `Netcode.Uring`. -/
def Call.ofRequest : Request → Call
  | .write => .write
  | .read => .read
  | .accept flags => .accept flags
  | .openat dfd path flags mode => .openat dfd path flags mode
  | .statx dfd path flags mask => .statx dfd path flags mask

/-- What `Netcode.Uring` sees of a request: where its buffer went, whatever epoll says. -/
def Submitted.SameWay : Submitted κ → Outcome κ → Prop
  | .refused b _, .refused b' => b = b'
  | .ssl b _, .ssl b' => b = b'
  | .sync p b _, .sync op b' => p = .op op ∧ b = b'
  | .ring entry _ b _, .ring op b' => entry.prep = .op op ∧ b = b'
  | .epoll b _, .epoll b' => b.onRing = b'.onRing
  | .refused b _, .epoll b' => b.onRing = b'.onRing
  | _, _ => False

theorem epollOr_sameWay (read : Bool) (a : Answer) (b : Buffer κ) (s : State) :
    (epollOr (hinEpollRequest read a b s)).SameWay (.epoll b) := by
  cases hinit : hinInitEpoll a s with
  | none => simp [hinEpollRequest, hinit, epollOr, Submitted.SameWay]
  | some s' =>
      by_cases hctl : a.ctl = true
      · by_cases hboth : (b.flags.epollRead && b.flags.epollWrite) = true
        · simp [hinEpollRequest, hinit, epollOr, hctl, hboth, Submitted.SameWay, Buffer.onRing]
        · simp [hinEpollRequest, hinit, epollOr, hctl, hboth, Submitted.SameWay]
      · by_cases hboth : (b.flags.epollRead && b.flags.epollWrite) = true
        · simp [hinEpollRequest, hinit, epollOr, hctl, hboth, Submitted.SameWay, Buffer.onRing]
        · simp [hinEpollRequest, hinit, epollOr, hctl, hboth, Submitted.SameWay]

theorem requestRw_sameWay {wait : Buffer κ → State → Bool × Buffer κ × State}
    (hwait : ∀ b s, (epollOr (wait b s)).SameWay (.epoll b)) (plain : Option Int → Op) (socket : Op) (data : Nat)
    (b : Buffer κ) (s : State) :
    (requestRw wait plain socket data b s).SameWay (Uring.requestRw plain socket b) := by
  unfold requestRw Uring.requestRw
  cases hidle : hinRequestActive b with
  | none => rfl
  | some b' =>
      by_cases hssl : b'.flags.ssl = true
      · simp only [if_pos hssl, Submitted.SameWay]
      · by_cases hepoll : (b'.flags.epoll && !(b'.flags.file || b'.flags.offsets)) = true
        · simp only [if_neg hssl, if_pos hepoll]
          exact hwait b' s
        · simp only [if_neg hssl, if_neg hepoll]
          generalize (if b'.flags.epoll then b'.setSync else b') = b''
          by_cases hsync : b''.flags.sync = true
          · simp only [if_pos hsync, Submitted.SameWay, and_self]
          · by_cases hsocket : b''.flags.socket = true
            · simp [if_neg hsync, hsocket, onRing, Submitted.SameWay]
            · simp [if_neg hsync, hsocket, onRing, Submitted.SameWay]

/-- **A request goes the way `Netcode.Uring` says**: the entry on the ring asks for what is asked of the kernel there, and
    what is told apart here is where the entry lies and whether epoll takes the descriptor. -/
theorem submit_sameWay (r : Request) (a : Answer) (data : Nat) (b : Buffer κ) (s : State) :
    ((Call.ofRequest r).submit a data b s).SameWay (r.submit b) := by
  cases r with
  | write => exact requestRw_sameWay (epollOr_sameWay false a) _ _ data b s
  | read => exact requestRw_sameWay (epollOr_sameWay true a) _ _ data b s
  | accept flags =>
      simp only [Call.ofRequest, Call.submit, hinRequestAccept, Request.submit, Uring.hinRequestAccept]
      cases hidle : hinRequestActive b with
      | none => rfl
      | some b' =>
          by_cases hepoll : b'.flags.epoll = true
          · simp only [if_pos hepoll]
            exact epollOr_sameWay true a b' s
          · by_cases hsync : b'.flags.sync = true
            · simp only [if_neg hepoll, if_pos hsync, Submitted.SameWay, and_self]
            · simp [if_neg hepoll, if_neg hsync, onRing, Submitted.SameWay]
  | openat dfd path flags mode =>
      simp only [Call.ofRequest, Call.submit, hinRequestOpenat, Request.submit, Uring.hinRequestOpenat]
      cases hidle : hinRequestActive b with
      | none => rfl
      | some b' =>
          by_cases hsync : (b'.flags.sync || b'.flags.epoll) = true
          · simp only [if_pos hsync, Submitted.SameWay, and_self]
          · simp only [if_neg hsync, onRing, Submitted.SameWay, and_self]
  | statx dfd path flags mask =>
      simp only [Call.ofRequest, Call.submit, hinRequestStatx, Request.submit, Uring.hinRequestStatx]
      cases hidle : hinRequestActive b with
      | none => rfl
      | some b' =>
          by_cases hsync : (b'.flags.sync || b'.flags.epoll) = true
          · simp only [if_pos hsync, Submitted.SameWay, and_self]
          · by_cases hcount : b'.count < sizeofStatx
            · simp only [if_neg hsync, if_pos hcount, Submitted.SameWay]
            · simp only [if_neg hsync, if_neg hcount, Submitted.SameWay, and_self]

/-! ## A refused request -/

/-- A call that returns `-1` leaves the flags of the buffer, the ring and the queue as they were. -/
def Unchanged (b : Buffer κ) (s : State) (o : Submitted κ) : Prop :=
  o.ret = -1 → o.buffer.flags = b.flags ∧ o.state.ring = s.ring ∧ o.state.queue = s.queue

/-- There is an epoll descriptor, or one can be made. -/
def Answer.opens (a : Answer) (s : State) : Bool := s.epoll || a.create

/-- The exits that are taken too late: epoll is asked, the kind of the request or the size of the buffer is looked at when
    the buffer is marked already, or epoll has changed the bits that say what is waited for. -/
def Late (c : Call) (a : Answer) (b : Buffer κ) (s : State) : Bool :=
  match c with
  | .write | .read =>
      !b.flags.active && !b.flags.ssl && b.flags.epoll && !(b.flags.file || b.flags.offsets) && !(a.opens s && a.ctl)
  | .accept _ => !b.flags.active && b.flags.epoll && !(a.opens s && a.ctl)
  | .connect _ => b.flags.epollRead && b.flags.epollWrite && a.opens s && !a.ctl
  | .close | .openat .. => false
  | .timeout .. => !b.flags.active && (b.flags.sync || b.flags.epoll)
  | .statx .. => !b.flags.active && !(b.flags.sync || b.flags.epoll) && decide (b.count < sizeofStatx)

theorem unchanged_of_ret {b : Buffer κ} {s : State} {o : Submitted κ} (h : o.ret = 0) : Unchanged b s o := by
  intro hret
  rw [h] at hret
  exact absurd hret (by decide)

theorem unchanged_refused (b : Buffer κ) (s : State) : Unchanged b s (.refused b s) := fun _ => ⟨rfl, rfl, rfl⟩

/-- A buffer that was idle and comes back marked was not left alone. -/
theorem not_unchanged_marked {b b' : Buffer κ} {s s' : State} (hidle : b.flags.active = false)
    (hmark : b'.flags.active = true) : ¬ Unchanged b s (.refused b' s') := by
  intro h
  have hflags := (h rfl).1
  have hsame : b'.flags.active = b.flags.active := congrArg Flags.active hflags
  rw [hmark, hidle] at hsame
  exact absurd hsame (by decide)

/-- What epoll leaves behind: it is refused when there is no descriptor or `epoll_ctl` fails, and touches no bit but its own,
    and these only when both are set and there is a descriptor. -/
theorem epollOr_spec (read : Bool) (a : Answer) (b : Buffer κ) (s : State) :
    ∃ b' s', s'.ring = s.ring ∧ s'.queue = s.queue ∧ b'.flags.active = b.flags.active ∧
      epollOr (hinEpollRequest read a b s) = (if a.opens s && a.ctl then .epoll b' s' else .refused b' s') ∧
      (b'.flags = b.flags ↔ ¬ (b.flags.epollRead && b.flags.epollWrite && a.opens s) = true) := by
  by_cases hopens : a.opens s = true
  · obtain ⟨s', hinit, hring, hqueue⟩ : ∃ s', hinInitEpoll a s = some s' ∧ s'.ring = s.ring ∧ s'.queue = s.queue := by
      unfold hinInitEpoll
      by_cases hs : s.epoll = true
      · exact ⟨s, if_pos hs, rfl, rfl⟩
      · have hcreate : a.create = true := by simpa [Answer.opens, hs] using hopens
        exact ⟨{ s with epoll := true }, by rw [if_neg hs, if_pos hcreate], rfl, rfl⟩
    by_cases hboth : (b.flags.epollRead && b.flags.epollWrite) = true
    · refine ⟨{ b with flags := { b.flags with epollRead := read, epollWrite := !read } }, s', hring, hqueue, rfl, ?_, ?_⟩
      · simp only [epollOr, hinEpollRequest, hinit, if_pos hboth, hopens, Bool.true_and]
      · have hset : b.flags.epollRead = true ∧ b.flags.epollWrite = true := by simpa using hboth
        simp only [hboth, hopens, Bool.true_and, not_true_eq_false, iff_false]
        intro hflags
        have hread : read = b.flags.epollRead := congrArg Flags.epollRead hflags
        have hwrite : (!read) = b.flags.epollWrite := congrArg Flags.epollWrite hflags
        rw [hset.1] at hread
        rw [hread, hset.2] at hwrite
        exact absurd hwrite (by decide)
    · refine ⟨b, s', hring, hqueue, rfl, ?_, ?_⟩
      · simp only [epollOr, hinEpollRequest, hinit, if_neg hboth, hopens, Bool.true_and]
      · simp [hboth]
  · have hinit : hinInitEpoll a s = none := by
      have hoff : s.epoll = false ∧ a.create = false := by simpa [Answer.opens] using hopens
      simp [hinInitEpoll, hoff]
    refine ⟨b, s, rfl, rfl, rfl, ?_, ?_⟩
    · simp [epollOr, hinEpollRequest, hinit, hopens]
    · simp [hopens]

/-- Epoll asked for a buffer that was marked for it. -/
theorem epollOr_unchanged_iff (read : Bool) (a : Answer) {b : Buffer κ} (s : State) (hidle : b.flags.active = false) :
    Unchanged b s (epollOr (hinEpollRequest read a (b.setActive true) s)) ↔ (a.opens s && a.ctl) = true := by
  obtain ⟨b', s', -, -, hactive, hway, -⟩ := epollOr_spec read a (b.setActive true) s
  rw [hway]
  by_cases hok : (a.opens s && a.ctl) = true
  · rw [if_pos hok]
    exact iff_of_true (unchanged_of_ret rfl) hok
  · rw [if_neg hok]
    exact iff_of_false (not_unchanged_marked hidle hactive) hok

theorem onRing_unchanged {data : Nat} {p : Prep} {b b' : Buffer κ} {s s' : State} :
    Unchanged b s (onRing data p b' s') := unchanged_of_ret rfl

theorem requestRw_unchanged_iff (read : Bool) (plain : Option Int → Op) (socket : Op) (a : Answer) (data : Nat)
    (b : Buffer κ) (s : State) :
    Unchanged b s (requestRw (hinEpollRequest read a) plain socket data b s) ↔
      (!b.flags.active && !b.flags.ssl && b.flags.epoll && !(b.flags.file || b.flags.offsets) && !(a.opens s && a.ctl)) =
        false := by
  unfold requestRw
  by_cases hactive : b.flags.active = true
  · simp only [hinRequestActive_of_active hactive, hactive, Bool.not_true, Bool.false_and, iff_true]
    exact unchanged_refused b s
  · have hidle : b.flags.active = false := by simpa using hactive
    simp only [hinRequestActive_of_idle hidle, hidle, Bool.not_false, Bool.true_and]
    by_cases hssl : (b.setActive true).flags.ssl = true
    · have hset : b.flags.ssl = true := hssl
      rw [if_pos hssl, hset]
      exact iff_of_true (unchanged_of_ret rfl) rfl
    · have hoff : b.flags.ssl = false := by simpa using hssl
      by_cases hepoll : ((b.setActive true).flags.epoll && !((b.setActive true).flags.file ||
          (b.setActive true).flags.offsets)) = true
      · rw [if_neg hssl, if_pos hepoll, epollOr_unchanged_iff read a s hidle]
        simp only [Buffer.setActive_epoll, Buffer.setActive_file, Buffer.setActive_offsets] at hepoll
        simp only [hoff, Bool.not_false, Bool.true_and, hepoll, Bool.not_eq_false']
      · have hnone : (!b.flags.ssl && b.flags.epoll && !(b.flags.file || b.flags.offsets) && !(a.opens s && a.ctl)) =
            false := by
          have hfile : (b.flags.epoll && !(b.flags.file || b.flags.offsets)) = false := Bool.eq_false_iff.mpr hepoll
          rw [Bool.and_assoc (!b.flags.ssl), hfile]
          simp
        rw [if_neg hssl, if_neg hepoll, hnone]
        generalize (if (b.setActive true).flags.epoll then (b.setActive true).setSync else b.setActive true) = b'
        refine iff_of_true ?_ rfl
        by_cases hsync : b'.flags.sync = true
        · rw [if_pos hsync]
          exact unchanged_of_ret rfl
        · rw [if_neg hsync]
          exact onRing_unchanged

/-- **A refused request leaves no trace, but for the late exits.** For every request, buffer and state and whatever epoll
    answers, a call that returns `-1` leaves the flags of the buffer, the ring and the queue alone if and only if it is not
    refused for one of the reasons that are found out too late. -/
theorem submit_unchanged_iff (c : Call) (a : Answer) (data : Nat) (b : Buffer κ) (s : State) :
    Unchanged b s (c.submit a data b s) ↔ Late c a b s = false := by
  cases c with
  | write => exact requestRw_unchanged_iff false _ _ a data b s
  | read => exact requestRw_unchanged_iff true _ _ a data b s
  | accept flags =>
      simp only [Call.submit, hinRequestAccept, Late]
      by_cases hactive : b.flags.active = true
      · simp only [hinRequestActive_of_active hactive, hactive, Bool.not_true, Bool.false_and, iff_true]
        exact unchanged_refused b s
      · have hidle : b.flags.active = false := by simpa using hactive
        simp only [hinRequestActive_of_idle hidle, hidle, Bool.not_false, Bool.true_and]
        by_cases hepoll : (b.setActive true).flags.epoll = true
        · rw [if_pos hepoll, hinEpollRequestRead, epollOr_unchanged_iff true a s hidle]
          rw [Buffer.setActive_epoll] at hepoll
          simp only [hepoll, Bool.true_and, Bool.not_eq_false']
        · have hoff : b.flags.epoll = false := by simpa using hepoll
          rw [if_neg hepoll, hoff]
          refine iff_of_true ?_ rfl
          by_cases hsync : (b.setActive true).flags.sync = true
          · rw [if_pos hsync]
            exact unchanged_of_ret rfl
          · rw [if_neg hsync]
            exact onRing_unchanged
  | connect addr =>
      simp only [Call.submit, hinRequestConnect, Late]
      by_cases hepoll : b.flags.epoll = true
      · obtain ⟨b', s', hring, hqueue, -, hway, hflags⟩ := epollOr_spec true a b s
        rw [if_pos hepoll, hinEpollRequestRead, hway]
        by_cases hctl : a.ctl = true
        · simp only [hctl, Bool.and_true, Bool.not_true, Bool.and_false, iff_true]
          by_cases hopens : a.opens s = true
          · rw [if_pos hopens]
            exact unchanged_of_ret rfl
          · have hsame : b'.flags = b.flags := hflags.mpr (by simp [hopens])
            rw [if_neg hopens]
            exact fun _ => ⟨hsame, hring, hqueue⟩
        · have hoff : a.ctl = false := by simpa using hctl
          simp only [hoff, Bool.and_false, Bool.false_eq_true, if_false, Bool.not_false, Bool.and_true]
          rw [← Bool.not_eq_true, ← hflags]
          exact ⟨fun h => (h rfl).1, fun h _ => ⟨h, hring, hqueue⟩⟩
      · have hbits : (b.flags.epollRead && b.flags.epollWrite) = false := by
          have hoff : b.flags.epollRead = false ∧ b.flags.epollWrite = false := by simpa [Flags.epoll] using hepoll
          simp [hoff]
        rw [if_neg hepoll, hbits]
        refine iff_of_true ?_ rfl
        by_cases hsync : b.flags.sync = true
        · rw [if_pos hsync]
          exact unchanged_of_ret rfl
        · rw [if_neg hsync]
          cases hinRequestActive b with
          | none => exact unchanged_refused b s
          | some b' => exact onRing_unchanged
  | close =>
      simp only [Call.submit, hinRequestClose, Late, iff_true]
      by_cases hsync : (b.flags.sync || b.flags.epoll) = true
      · rw [if_pos hsync]
        exact unchanged_of_ret rfl
      · rw [if_neg hsync]
        cases hinRequestActive b with
        | none => exact unchanged_refused b s
        | some b' => exact onRing_unchanged
  | openat dfd path flags mode =>
      simp only [Call.submit, hinRequestOpenat, Late, iff_true]
      cases hinRequestActive b with
      | none => exact unchanged_refused b s
      | some b' =>
          by_cases hsync : (b'.flags.sync || b'.flags.epoll) = true
          · simp only [if_pos hsync]
            exact unchanged_of_ret rfl
          · simp only [if_neg hsync]
            exact onRing_unchanged
  | timeout ts count flags =>
      simp only [Call.submit, hinRequestTimeout, Late]
      by_cases hactive : b.flags.active = true
      · simp only [hinRequestActive_of_active hactive, hactive, Bool.not_true, Bool.false_and, iff_true]
        exact unchanged_refused b s
      · have hidle : b.flags.active = false := by simpa using hactive
        simp only [hinRequestActive_of_idle hidle, hidle, Bool.not_false, Bool.true_and]
        by_cases hsync : ((b.setActive true).flags.sync || (b.setActive true).flags.epoll) = true
        · rw [if_pos hsync]
          exact iff_of_false (not_unchanged_marked hidle rfl) (Bool.not_eq_false _ ▸ hsync)
        · rw [if_neg hsync]
          exact iff_of_true onRing_unchanged (Bool.eq_false_iff.mpr hsync)
  | statx dfd path flags mask =>
      simp only [Call.submit, hinRequestStatx, Late]
      by_cases hactive : b.flags.active = true
      · simp only [hinRequestActive_of_active hactive, hactive, Bool.not_true, Bool.false_and, iff_true]
        exact unchanged_refused b s
      · have hidle : b.flags.active = false := by simpa using hactive
        simp only [hinRequestActive_of_idle hidle, hidle, Bool.not_false, Bool.true_and]
        by_cases hsync : ((b.setActive true).flags.sync || (b.setActive true).flags.epoll) = true
        · have hway : (b.flags.sync || b.flags.epoll) = true := hsync
          rw [if_pos hsync, hway]
          exact iff_of_true (unchanged_of_ret rfl) rfl
        · have hway : (b.flags.sync || b.flags.epoll) = false := Bool.eq_false_iff.mpr hsync
          rw [if_neg hsync, hway]
          by_cases hcount : (b.setActive true).count < sizeofStatx
          · rw [if_pos hcount, decide_eq_true (p := b.count < sizeofStatx) hcount]
            exact iff_of_false (not_unchanged_marked hidle rfl) (by decide)
          · rw [if_neg hcount, decide_eq_false (p := b.count < sizeofStatx) hcount]
            exact iff_of_true (unchanged_of_ret rfl) rfl

/-- **The statement fails** for a lookup into a buffer that is too small: the buffer stays marked and an entry of the ring
    is gone. -/
theorem refused_leaves_trace : ¬ ∀ (c : Call) (a : Answer) (data : Nat) (b : Buffer Unit) (s : State),
    Unchanged b s (c.submit a data b s) := by
  intro hall
  have h := hall (.statx 5 [] 0 0) {} 1 { callback := (), fd := 5, count := 255 } { ring := { fd := 3 } } rfl
  exact absurd h (by decide)

end UringQueue
end Hin9
