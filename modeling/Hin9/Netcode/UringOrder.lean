import Hin9.Lib.Fifo
import Hin9.Lib.Runs
import Hin9.Netcode.UringQueue

/-!
# `Netcode.UringOrder` — the order in which requests enter the ring (`uring.c`)

A request whose entry is on the ring is with the kernel; one whose entry is in `queue` waits for an event pass. `Traced` runs
the requests, the passes and the kernel in any order and writes down which entries were made and which entered the ring.

* **Nothing is lost and nothing is done twice**, in every run (`books_run`): what the prep calls wrote is in the ring or in the
  queue, each once.
* **The queue is a `Lib.Fifo` as long as it holds one request.** `hin_request_sqe` pushes at the head of the list and
  `hin_process_sqe_queue` pops from it, so that the later of two requests that wait is the first to enter the ring
  (`order_broken`). `order_kept` is about the runs where no request finds another one waiting.
-/

namespace Hin9
namespace UringQueue

open Lib Uring

variable {κ : Type}

/-! ## What one request does to the ring and the queue -/

/-- `hin_request_sqe` finds an entry on the ring. -/
def State.roomy (s : State) : Bool := decide (0 < s.ring.fd) && s.ring.room

theorem hinRequestSqe_roomy {s : State} (h : s.roomy = true) :
    hinRequestSqe s = ({ s with ring := { s.ring with slots := s.ring.slots ++ [none] } }, .ring) := by
  obtain ⟨hfd, hroom⟩ := Bool.and_eq_true_iff.mp h
  have hfd' : 0 < s.ring.fd := by simpa using hfd
  simp [hinRequestSqe, ioUringGetSqe, hfd', hroom]

theorem hinRequestSqe_full {s : State} (h : s.roomy = false) :
    hinRequestSqe s = ({ s with queue := none :: s.queue }, .queue) := by
  unfold hinRequestSqe
  by_cases hfd : 0 < s.ring.fd
  · have hroom : s.ring.room = false := by simpa [State.roomy, hfd] using h
    simp [ioUringGetSqe, hroom, hfd]
  · simp [hfd]

/-- An entry that is taken and written is the last of the ring, or the first of the queue. -/
theorem prepare_roomy {s : State} (h : s.roomy = true) (entry : Entry) :
    (hinRequestSqe s).1.prepare (hinRequestSqe s).2 entry =
      { s with ring := { s.ring with slots := s.ring.slots ++ [some entry] } } := by
  rw [hinRequestSqe_roomy h]
  simp [State.prepare, Ring.write]

theorem prepare_full {s : State} (h : s.roomy = false) (entry : Entry) :
    (hinRequestSqe s).1.prepare (hinRequestSqe s).2 entry = { s with queue := some entry :: s.queue } := by
  rw [hinRequestSqe_full h]
  rfl

/-- What a request can do: leave the ring and the queue alone, take an entry and write it, or take one and leave it. -/
inductive Put (s : State) : Submitted κ → Prop where
  | off {o : Submitted κ} (hring : o.state.ring = s.ring) (hqueue : o.state.queue = s.queue)
      (hoff : ∀ entry place b s', o ≠ .ring entry place b s') : Put s o
  | hole (b : Buffer κ) : Put s (.refused b (hinRequestSqe s).1)
  | ring (entry : Entry) (b : Buffer κ) :
      Put s (.ring entry (hinRequestSqe s).2 b ((hinRequestSqe s).1.prepare (hinRequestSqe s).2 entry))

theorem put_refused (b : Buffer κ) (s : State) : Put s (.refused b s) := .off rfl rfl (by simp)

theorem put_onRing (data : Nat) (p : Prep) (b : Buffer κ) (s : State) : Put s (onRing data p b s) := .ring ⟨p, data⟩ b

theorem put_epoll (read : Bool) (a : Answer) (b : Buffer κ) (s : State) :
    Put s (epollOr (hinEpollRequest read a b s)) := by
  obtain ⟨b', s', hring, hqueue, -, hway, -⟩ := epollOr_spec read a b s
  rw [hway]
  by_cases hok : (a.opens s && a.ctl) = true
  · rw [if_pos hok]
    exact .off hring hqueue (by simp)
  · rw [if_neg hok]
    exact .off hring hqueue (by simp)

/-- The request asks the kernel through the ring. -/
def Rings (c : Call) (b : Buffer κ) : Bool :=
  !b.flags.active && !b.flags.sync && !b.flags.epoll &&
    match c with
    | .write | .read => !b.flags.ssl
    | .statx .. => decide (sizeofStatx ≤ b.count)
    | _ => true

theorem requestRw_put (read : Bool) (plain : Option Int → Op) (socket : Op) (a : Answer) (data : Nat) (b : Buffer κ)
    (s : State) : Put s (requestRw (hinEpollRequest read a) plain socket data b s) := by
  unfold requestRw
  cases hinRequestActive b with
  | none => exact put_refused b s
  | some b' =>
      by_cases hssl : b'.flags.ssl = true
      · simp only [if_pos hssl]
        exact .off rfl rfl (by simp)
      · by_cases hepoll : (b'.flags.epoll && !(b'.flags.file || b'.flags.offsets)) = true
        · simp only [if_neg hssl, if_pos hepoll]
          exact put_epoll read a b' s
        · simp only [if_neg hssl, if_neg hepoll]
          generalize (if b'.flags.epoll then b'.setSync else b') = b''
          by_cases hsync : b''.flags.sync = true
          · rw [if_pos hsync]
            exact .off rfl rfl (by simp)
          · rw [if_neg hsync]
            exact put_onRing _ _ _ _

theorem submit_put (c : Call) (a : Answer) (data : Nat) (b : Buffer κ) (s : State) : Put s (c.submit a data b s) := by
  cases c with
  | write => exact requestRw_put false _ _ a data b s
  | read => exact requestRw_put true _ _ a data b s
  | accept flags =>
      simp only [Call.submit, hinRequestAccept]
      cases hinRequestActive b with
      | none => exact put_refused b s
      | some b' =>
          by_cases hepoll : b'.flags.epoll = true
          · simp only [if_pos hepoll]
            exact put_epoll true a b' s
          · by_cases hsync : b'.flags.sync = true
            · simp only [if_neg hepoll, if_pos hsync]
              exact .off rfl rfl (by simp)
            · simp only [if_neg hepoll, if_neg hsync]
              exact put_onRing _ _ _ _
  | connect addr =>
      simp only [Call.submit, hinRequestConnect]
      by_cases hepoll : b.flags.epoll = true
      · rw [if_pos hepoll]
        exact put_epoll true a b s
      · by_cases hsync : b.flags.sync = true
        · rw [if_neg hepoll, if_pos hsync]
          exact .off rfl rfl (by simp)
        · rw [if_neg hepoll, if_neg hsync]
          cases hinRequestActive b with
          | none => exact put_refused b s
          | some b' => exact put_onRing _ _ _ _
  | close =>
      simp only [Call.submit, hinRequestClose]
      by_cases hsync : (b.flags.sync || b.flags.epoll) = true
      · rw [if_pos hsync]
        exact .off rfl rfl (by simp)
      · rw [if_neg hsync]
        cases hinRequestActive b with
        | none => exact put_refused b s
        | some b' => exact put_onRing _ _ _ _
  | openat dfd path flags mode =>
      simp only [Call.submit, hinRequestOpenat]
      cases hinRequestActive b with
      | none => exact put_refused b s
      | some b' =>
          by_cases hsync : (b'.flags.sync || b'.flags.epoll) = true
          · simp only [if_pos hsync]
            exact .off rfl rfl (by simp)
          · simp only [if_neg hsync]
            exact put_onRing _ _ _ _
  | timeout ts count flags =>
      simp only [Call.submit, hinRequestTimeout]
      cases hinRequestActive b with
      | none => exact put_refused b s
      | some b' =>
          by_cases hsync : (b'.flags.sync || b'.flags.epoll) = true
          · simp only [if_pos hsync]
            exact put_refused b' s
          · simp only [if_neg hsync]
            exact put_onRing _ _ _ _
  | statx dfd path flags mask =>
      simp only [Call.submit, hinRequestStatx]
      cases hinRequestActive b with
      | none => exact put_refused b s
      | some b' =>
          by_cases hsync : (b'.flags.sync || b'.flags.epoll) = true
          · simp only [if_pos hsync]
            exact .off rfl rfl (by simp)
          · by_cases hcount : b'.count < sizeofStatx
            · simp only [if_neg hsync, if_pos hcount]
              exact .hole b'
            · simp only [if_neg hsync, if_neg hcount]
              exact .ring _ b'

/-- A request that is put on the ring is one for it. -/
theorem requestRw_rings {wait : Buffer κ → State → Bool × Buffer κ × State}
    (hwait : ∀ b s entry place b' s', epollOr (wait b s) ≠ .ring entry place b' s') {plain : Option Int → Op} {socket : Op}
    {data : Nat} {b b' : Buffer κ} {s s' : State} {entry : Entry} {place : Place}
    (h : requestRw wait plain socket data b s = .ring entry place b' s') : Rings .write b = true := by
  unfold requestRw at h
  cases hactive : b.flags.active with
  | true => simp [hinRequestActive_of_active hactive] at h
  | false =>
      rw [hinRequestActive_of_idle hactive] at h
      by_cases hssl : b.flags.ssl = true
      · simp [hssl] at h
      · have hplain : b.flags.ssl = false := Bool.eq_false_iff.mpr hssl
        by_cases hepoll : b.flags.epoll = true
        · by_cases hfile : b.flags.file = false ∧ b.flags.offsets = false
          · simp [hplain, hepoll, hfile] at h
            exact absurd h (hwait _ _ _ _ _ _)
          · simp [hplain, hepoll, hfile, Buffer.setSync] at h
        · have hoff : b.flags.epoll = false := Bool.eq_false_iff.mpr hepoll
          by_cases hsync : b.flags.sync = true
          · simp [hplain, hoff, hsync] at h
          · have hring : b.flags.sync = false := Bool.eq_false_iff.mpr hsync
            simp [Rings, hactive, hplain, hoff, hring]

theorem epollOr_ne_ring (r : Bool × Buffer κ × State) (entry : Entry) (place : Place) (b : Buffer κ) (s : State) :
    epollOr r ≠ .ring entry place b s := by
  unfold epollOr
  by_cases hok : r.1 = true
  · simp [hok]
  · simp [hok]

theorem submit_rings {c : Call} {a : Answer} {data : Nat} {b b' : Buffer κ} {s s' : State} {entry : Entry} {place : Place}
    (h : c.submit a data b s = .ring entry place b' s') : Rings c b = true := by
  cases c with
  | write => exact requestRw_rings (fun _ _ => epollOr_ne_ring _) h
  | read => exact requestRw_rings (fun _ _ => epollOr_ne_ring _) h
  | accept flags =>
      cases hactive : b.flags.active with
      | true => simp [Call.submit, hinRequestAccept, hinRequestActive_of_active hactive] at h
      | false =>
          simp only [Call.submit, hinRequestAccept, hinRequestActive_of_idle hactive] at h
          by_cases hepoll : b.flags.epoll = true
          · simp [hepoll, epollOr_ne_ring] at h
          · by_cases hsync : b.flags.sync = true
            · simp [hepoll, hsync] at h
            · simp [Rings, hactive, hepoll, hsync]
  | connect addr =>
      simp only [Call.submit, hinRequestConnect] at h
      by_cases hepoll : b.flags.epoll = true
      · simp [hepoll, epollOr_ne_ring] at h
      · by_cases hsync : b.flags.sync = true
        · simp [hepoll, hsync] at h
        · cases hactive : b.flags.active with
          | true => simp [hepoll, hsync, hinRequestActive_of_active hactive] at h
          | false => simp [Rings, hactive, hepoll, hsync]
  | close =>
      simp only [Call.submit, hinRequestClose] at h
      by_cases hsync : (b.flags.sync || b.flags.epoll) = true
      · rw [if_pos hsync] at h
        exact absurd h (by simp)
      · have hring : b.flags.sync = false ∧ b.flags.epoll = false := by simpa using hsync
        cases hactive : b.flags.active with
        | true => simp [hring, hinRequestActive_of_active hactive] at h
        | false => simp [Rings, hactive, hring]
  | openat dfd path flags mode =>
      cases hactive : b.flags.active with
      | true => simp [Call.submit, hinRequestOpenat, hinRequestActive_of_active hactive] at h
      | false =>
          simp only [Call.submit, hinRequestOpenat, hinRequestActive_of_idle hactive] at h
          by_cases hsync : (b.flags.sync || b.flags.epoll) = true
          · simp [hsync] at h
          · have hring : b.flags.sync = false ∧ b.flags.epoll = false := by simpa using hsync
            simp [Rings, hactive, hring]
  | timeout ts count flags =>
      cases hactive : b.flags.active with
      | true => simp [Call.submit, hinRequestTimeout, hinRequestActive_of_active hactive] at h
      | false =>
          simp only [Call.submit, hinRequestTimeout, hinRequestActive_of_idle hactive] at h
          by_cases hsync : (b.flags.sync || b.flags.epoll) = true
          · simp [hsync] at h
          · have hring : b.flags.sync = false ∧ b.flags.epoll = false := by simpa using hsync
            simp [Rings, hactive, hring]
  | statx dfd path flags mask =>
      cases hactive : b.flags.active with
      | true => simp [Call.submit, hinRequestStatx, hinRequestActive_of_active hactive] at h
      | false =>
          simp only [Call.submit, hinRequestStatx, hinRequestActive_of_idle hactive] at h
          by_cases hsync : (b.flags.sync || b.flags.epoll) = true
          · simp [hsync] at h
          · have hring : b.flags.sync = false ∧ b.flags.epoll = false := by simpa using hsync
            by_cases hcount : b.count < sizeofStatx
            · simp [hring, show (b.setActive true).count < sizeofStatx from hcount] at h
            · simp [Rings, hactive, hring, Nat.le_of_not_lt hcount]

/-! ## Requests, event passes and the kernel in any order -/

/-- An entry that a prep call wrote, and whether it was one of the queue. -/
structure Made where
  entry : Entry
  queued : Bool
deriving Repr, DecidableEq

/-- The state, the requests in the order they were made, and those of them that have entered the ring, in the order they
    did. -/
structure Traced where
  state : State := {}
  made : List Made := []
  placed : List Made := []
deriving Repr, DecidableEq

inductive Event (κ : Type) where
  /-- `hin_event_init`, which got the descriptor `fd + 1`. -/
  | init (fd : Nat)
  /-- `hin_request_…` is called, from anywhere. -/
  | request (c : Call) (a : Answer) (data : Nat) (b : Buffer κ)
  /-- `hin_event_process` gets to the queue. -/
  | pass
  /-- The kernel takes `n` entries of the ring. -/
  | taken (n : Nat)
deriving Repr, DecidableEq

/-- What a pass moves to the ring. -/
def State.popped (s : State) : List Made :=
  match s.queue with
  | some entry :: _ => if s.ring.room then [⟨entry, true⟩] else []
  | _ => []

def Traced.pass (t : Traced) : Traced :=
  { t with state := hinProcessSqeQueue t.state, placed := t.placed ++ t.state.popped }

def Traced.request (t : Traced) (o : Submitted κ) : Traced :=
  match o with
  | .ring entry place _ s =>
      { state := s
        made := t.made ++ [⟨entry, place == .queue⟩]
        placed := t.placed ++ if place == .ring then [⟨entry, false⟩] else [] }
  | o => { t with state := o.state }

/-- One step. The ring is set up once, and the event loop runs on a ring that is. -/
def step (t : Traced) : Event κ → Option Traced
  | .init fd =>
      if t.state.ring.fd ≤ 0 then
        let t := { t with state := { t.state with ring := { fd := fd + 1 } } }
        some t.pass
      else none
  | .request c a data b => some (t.request (c.submit a data b t.state))
  | .pass => if 0 < t.state.ring.fd then some t.pass else none
  | .taken n =>
      if t.state.ring.seen + n ≤ t.state.ring.slots.length then
        some { t with state := { t.state with ring := { t.state.ring with seen := t.state.ring.seen + n } } }
      else none

/-- The requests that overflowed into the queue. -/
def overflowed (l : List Made) : List Entry := (l.filter (·.queued)).map (·.entry)

@[simp] theorem overflowed_nil : overflowed [] = [] := rfl

@[simp] theorem overflowed_append (l l' : List Made) : overflowed (l ++ l') = overflowed l ++ overflowed l' := by
  simp [overflowed]

@[simp] theorem overflowed_queued (entry : Entry) : overflowed [⟨entry, true⟩] = [entry] := rfl

@[simp] theorem overflowed_direct (entry : Entry) : overflowed [⟨entry, false⟩] = [] := rfl

/-- **What is asked of the ring.** Its entries are the requests that have entered it, each request is in the ring or in the
    queue and in one of them once, with what its prep call wrote, and those that overflowed enter the ring in the order in
    which they were made. -/
structure Sound (t : Traced) : Prop where
  entered : t.placed.map (·.entry) = t.state.ring.slots.reduceOption
  once : (t.state.ring.slots.reduceOption ++ t.state.queue.reduceOption).Perm (t.made.map (·.entry))
  order : overflowed t.placed <+: overflowed t.made

/-- The condition: a request that is one for the ring finds room there, or no other request waiting. -/
def NoneBehind (t : Traced) : Event κ → Prop
  | .request c _ _ b => Rings c b = true → t.state.roomy = true ∨ t.state.queue.reduceOption = []
  | _ => True

/-! ## Nothing is lost and nothing is done twice -/

/-- What every run keeps. A ring that is not set up has no entries. -/
structure Books (t : Traced) : Prop where
  closed : t.state.ring.fd ≤ 0 → t.state.ring.slots = []
  seen : t.state.ring.seen ≤ t.state.ring.slots.length
  entered : t.placed.map (·.entry) = t.state.ring.slots.reduceOption
  once : (t.state.ring.slots.reduceOption ++ t.state.queue.reduceOption).Perm (t.made.map (·.entry))

theorem reduceOption_snoc (l : List (Option Entry)) (e : Option Entry) :
    (l ++ [e]).reduceOption = l.reduceOption ++ e.toList := by
  cases e with
  | none => simp [List.reduceOption_append]
  | some e => simp [List.reduceOption_append]

/-- A pass moves the head of the queue when the ring has room, and does nothing otherwise. -/
theorem hinProcessSqeQueue_cases (s : State) :
    (∃ new queue, s.queue = new :: queue ∧ s.ring.room = true ∧
      hinProcessSqeQueue s = { s with ring := { s.ring with slots := s.ring.slots ++ [new] }, queue := queue } ∧
      s.popped.map (·.entry) = new.toList ∧ overflowed s.popped = new.toList) ∨
    ((s.queue = [] ∨ s.ring.room = false) ∧ hinProcessSqeQueue s = s ∧ s.popped = []) := by
  cases hqueue : s.queue with
  | nil => exact .inr ⟨.inl rfl, by simp [hinProcessSqeQueue, hqueue], by simp [State.popped, hqueue]⟩
  | cons new queue =>
      by_cases hroom : s.ring.room = true
      · refine .inl ⟨new, queue, rfl, hroom, ?_, ?_⟩
        · simp [hinProcessSqeQueue, hqueue, ioUringGetSqe, hroom, Ring.write]
        · cases new with
          | none => simp [State.popped, hqueue]
          | some entry => simp [State.popped, hqueue, hroom]
      · have hfull : s.ring.room = false := Bool.eq_false_iff.mpr hroom
        refine .inr ⟨.inr hfull, by simp [hinProcessSqeQueue, hqueue, ioUringGetSqe, hfull], ?_⟩
        cases new with
        | none => simp [State.popped, hqueue]
        | some entry => simp [State.popped, hqueue, hfull]

theorem Books.pass {t : Traced} (h : Books t) (hfd : 0 < t.state.ring.fd) : Books t.pass := by
  rcases hinProcessSqeQueue_cases t.state with ⟨new, queue, hqueue, -, hstate, hpopped, -⟩ | ⟨-, hstate, hpopped⟩
  · refine ⟨?_, ?_, ?_, ?_⟩
    · simp only [Traced.pass, hstate]
      exact fun hclosed => absurd hfd (by omega)
    · simp only [Traced.pass, hstate, List.length_append]
      exact Nat.le_add_right_of_le h.seen
    · simp only [Traced.pass, hstate, List.map_append, hpopped, reduceOption_snoc, h.entered]
    · have honce := h.once
      rw [hqueue] at honce
      simp only [Traced.pass, hstate, reduceOption_snoc, List.append_assoc]
      cases new with
      | none => exact honce
      | some entry => exact honce
  · simp only [Traced.pass, hstate, hpopped, List.append_nil]
    exact h

theorem Books.request {t : Traced} (h : Books t) {o : Submitted κ} (hput : Put t.state o) : Books (t.request o) := by
  cases hput with
  | off hring hqueue hoff =>
      have hstate : t.request o = { t with state := o.state } := by
        cases o with
        | ring entry place b s' => exact absurd rfl (hoff entry place b s')
        | refused b s' => rfl
        | ssl b s' => rfl
        | epoll b s' => rfl
        | sync p b s' => rfl
      rw [hstate]
      exact ⟨by simpa only [hring] using h.closed, by simpa only [hring] using h.seen,
        by simpa only [hring] using h.entered, by simpa only [hring, hqueue] using h.once⟩
  | hole b =>
      simp only [Traced.request, Submitted.state]
      cases hroomy : t.state.roomy with
      | true =>
          rw [hinRequestSqe_roomy hroomy]
          have hfd : 0 < t.state.ring.fd := by simpa using (Bool.and_eq_true_iff.mp hroomy).1
          refine ⟨fun hclosed => absurd hfd (by simpa using hclosed), ?_, ?_, ?_⟩
          · simpa using Nat.le_succ_of_le h.seen
          · simpa [reduceOption_snoc] using h.entered
          · simpa [reduceOption_snoc] using h.once
      | false =>
          rw [hinRequestSqe_full hroomy]
          exact ⟨h.closed, h.seen, h.entered, by simpa using h.once⟩
  | ring entry b =>
      simp only [Traced.request]
      cases hroomy : t.state.roomy with
      | true =>
          rw [prepare_roomy hroomy, hinRequestSqe_roomy hroomy]
          have hfd : 0 < t.state.ring.fd := by simpa using (Bool.and_eq_true_iff.mp hroomy).1
          refine ⟨fun hclosed => absurd hfd (by simpa using hclosed), ?_, ?_, ?_⟩
          · simpa using Nat.le_succ_of_le h.seen
          · simpa [reduceOption_snoc] using h.entered
          · have hmid : (t.state.ring.slots.reduceOption ++ entry :: t.state.queue.reduceOption).Perm
                (entry :: (t.state.ring.slots.reduceOption ++ t.state.queue.reduceOption)) := List.perm_middle
            have hend := List.perm_append_singleton entry (t.made.map (·.entry))
            simpa [reduceOption_snoc] using hmid.trans ((h.once.cons entry).trans hend.symm)
      | false =>
          rw [prepare_full hroomy, hinRequestSqe_full hroomy]
          refine ⟨h.closed, h.seen, by simpa using h.entered, ?_⟩
          have hmid : (t.state.ring.slots.reduceOption ++ entry :: t.state.queue.reduceOption).Perm
              (entry :: (t.state.ring.slots.reduceOption ++ t.state.queue.reduceOption)) := List.perm_middle
          have hend := List.perm_append_singleton entry (t.made.map (·.entry))
          simpa using hmid.trans ((h.once.cons entry).trans hend.symm)

theorem Books.step {t t' : Traced} {e : Event κ} (h : Books t) (hs : step t e = some t') : Books t' := by
  cases e with
  | init fd =>
      simp only [UringQueue.step] at hs
      by_cases hfd : t.state.ring.fd ≤ 0
      · rw [if_pos hfd] at hs
        obtain rfl := Option.some.inj hs
        have hslots := h.closed hfd
        have hseen : t.state.ring.seen = 0 := by simpa [hslots] using h.seen
        refine Books.pass ⟨fun _ => rfl, Nat.le_refl 0, ?_, ?_⟩ (by simp only; omega)
        · simpa [hslots] using h.entered
        · simpa [hslots] using h.once
      · simp [hfd] at hs
  | request c a data b =>
      obtain rfl := Option.some.inj hs
      exact h.request (submit_put c a data b t.state)
  | pass =>
      simp only [UringQueue.step] at hs
      by_cases hfd : 0 < t.state.ring.fd
      · rw [if_pos hfd] at hs
        obtain rfl := Option.some.inj hs
        exact h.pass hfd
      · simp [hfd] at hs
  | taken n =>
      simp only [UringQueue.step] at hs
      by_cases hn : t.state.ring.seen + n ≤ t.state.ring.slots.length
      · rw [if_pos hn] at hs
        obtain rfl := Option.some.inj hs
        exact ⟨h.closed, hn, h.entered, h.once⟩
      · simp [hn] at hs

theorem books_init : Books {} := ⟨fun _ => rfl, Nat.le_refl 0, rfl, .nil⟩

/-- **Nothing is lost and nothing is done twice**, in any run: what the prep calls wrote is in the ring or in the queue. -/
theorem books_run {es : List (Event κ)} {t : Traced} (h : Run step {} es t) : Books t :=
  h.invariant books_init fun _ _ _ hbooks _ hs => hbooks.step hs

/-! ## The order in which the requests enter the ring -/

/-- The queue as a channel: what has come out of it, and what is still in it. -/
def Traced.channel (t : Traced) : Fifo Entry := ⟨overflowed t.placed, t.state.queue.reduceOption⟩

/-- What the queue has of a channel as long as at most one request waits. -/
structure InOrder (t : Traced) : Prop where
  channel : t.channel.all = overflowed t.made
  alone : t.channel.pending.length ≤ 1

/-- A pass takes from the channel. -/
theorem InOrder.pass {t : Traced} (h : InOrder t) : InOrder t.pass := by
  rcases hinProcessSqeQueue_cases t.state with ⟨new, queue, hqueue, -, hstate, -, hpopped⟩ | ⟨-, hstate, hpopped⟩
  · have halone := h.alone
    have hchannel := h.channel
    cases new with
    | none =>
        have hsame : t.pass.channel = t.channel := by
          simp [Traced.channel, Traced.pass, hstate, hpopped, hqueue]
        exact ⟨hsame ▸ hchannel, hsame ▸ halone⟩
    | some entry =>
        have htake : t.pass.channel = t.channel.step (.take 1) := by
          simp [Traced.channel, Traced.pass, hstate, hpopped, hqueue, Fifo.step]
        refine ⟨?_, ?_⟩
        · rw [htake, Fifo.step_all, hchannel]
          simp [Fifo.puts, Traced.pass]
        · rw [htake]
          simpa [Fifo.step] using Nat.le_succ_of_le halone
  · simp only [Traced.pass, hstate, hpopped, List.append_nil]
    exact h

/-- A request for which there is no room is put into the channel when nothing waits there: the head of the list is then its
    end, too. -/
theorem InOrder.request {t : Traced} (h : InOrder t) {o : Submitted κ} (hput : Put t.state o)
    (hcond : ∀ entry place b s', o = .ring entry place b s' →
      t.state.roomy = true ∨ t.state.queue.reduceOption = []) : InOrder (t.request o) := by
  cases hput with
  | off hring hqueue hoff =>
      have hstate : t.request o = { t with state := o.state } := by
        cases o with
        | ring entry place b s' => exact absurd rfl (hoff entry place b s')
        | refused b s' => rfl
        | ssl b s' => rfl
        | epoll b s' => rfl
        | sync p b s' => rfl
      have hsame : (t.request o).channel = t.channel := by rw [hstate]; simp [Traced.channel, hqueue]
      exact ⟨by rw [hsame, h.channel, hstate], hsame ▸ h.alone⟩
  | hole b =>
      have hsame : (t.request (.refused b (hinRequestSqe t.state).1)).channel = t.channel := by
        cases hroomy : t.state.roomy with
        | true => simp [Traced.request, Traced.channel, Submitted.state, hinRequestSqe_roomy hroomy]
        | false => simp [Traced.request, Traced.channel, Submitted.state, hinRequestSqe_full hroomy]
      exact ⟨hsame ▸ h.channel, hsame ▸ h.alone⟩
  | ring entry b =>
      simp only [Traced.request]
      cases hroomy : t.state.roomy with
      | true =>
          rw [prepare_roomy hroomy, hinRequestSqe_roomy hroomy]
          have hdirect : overflowed [⟨entry, Place.ring == Place.queue⟩] = [] := rfl
          exact ⟨by simpa [Traced.channel, Fifo.all, hdirect] using h.channel, h.alone⟩
      | false =>
          rw [prepare_full hroomy, hinRequestSqe_full hroomy]
          have hnone : t.state.queue.reduceOption = [] :=
            (hcond _ _ _ _ rfl).resolve_left (by simp [hroomy])
          have hchannel : overflowed t.placed = overflowed t.made := by
            simpa [Traced.channel, Fifo.all, hnone] using h.channel
          refine ⟨?_, ?_⟩
          · simp [Traced.channel, Fifo.all, hnone, hchannel]
          · simp [Traced.channel, hnone]

theorem InOrder.step {t t' : Traced} {e : Event κ} (h : InOrder t) (hcond : NoneBehind t e)
    (hs : step t e = some t') : InOrder t' := by
  cases e with
  | init fd =>
      simp only [UringQueue.step] at hs
      by_cases hfd : t.state.ring.fd ≤ 0
      · rw [if_pos hfd] at hs
        obtain rfl := Option.some.inj hs
        exact InOrder.pass ⟨h.channel, h.alone⟩
      · simp [hfd] at hs
  | request c a data b =>
      obtain rfl := Option.some.inj hs
      refine h.request (submit_put c a data b t.state) ?_
      intro entry place b' s' ho
      exact hcond (submit_rings ho)
  | pass =>
      simp only [UringQueue.step] at hs
      by_cases hfd : 0 < t.state.ring.fd
      · rw [if_pos hfd] at hs
        obtain rfl := Option.some.inj hs
        exact h.pass
      · simp [hfd] at hs
  | taken n =>
      simp only [UringQueue.step] at hs
      by_cases hn : t.state.ring.seen + n ≤ t.state.ring.slots.length
      · rw [if_pos hn] at hs
        obtain rfl := Option.some.inj hs
        exact ⟨h.channel, h.alone⟩
      · simp [hn] at hs

theorem sound_of_inOrder {t : Traced} (hbooks : Books t) (h : InOrder t) : Sound t :=
  ⟨hbooks.entered, hbooks.once, ⟨t.channel.pending, h.channel⟩⟩

theorem sound_run {es : List (Event κ)} {t : Traced} (h : RunWith step NoneBehind {} es t) : Sound t := by
  have hbooks : Books t := books_run (h.mono fun _ _ _ => trivial)
  have horder : InOrder t :=
    h.invariant ⟨rfl, Nat.zero_le 1⟩ fun _ _ _ hinv hcond hs => hinv.step hcond hs
  exact sound_of_inOrder hbooks horder

/-- A turn of the event loop: the kernel takes what is in the ring, and there is a pass. -/
def Traced.turn (t : Traced) : Traced :=
  Traced.pass { t with state := { t.state with ring := { t.state.ring with seen := t.state.ring.slots.length } } }

theorem turn_queue (t : Traced) : t.turn.state.queue = t.state.queue.tail := by
  rcases hinProcessSqeQueue_cases
      { t.state with ring := { t.state.ring with seen := t.state.ring.slots.length } } with
    ⟨new, queue, hqueue, -, hstate, -, -⟩ | ⟨hwhy, hstate, -⟩
  · simp only [Traced.turn, Traced.pass, hstate]
    exact (congrArg List.tail hqueue).symm
  · rcases hwhy with hqueue | hroom
    · have hnone : t.state.queue = [] := hqueue
      simp only [Traced.turn, Traced.pass, hstate]
      rw [hnone]
      rfl
    · simp [Ring.room, hinUringQueueDepth] at hroom

theorem turn_fd (t : Traced) : t.turn.state.ring.fd = t.state.ring.fd := by
  rcases hinProcessSqeQueue_cases
      { t.state with ring := { t.state.ring with seen := t.state.ring.slots.length } } with
    ⟨new, queue, -, -, hstate, -, -⟩ | ⟨-, hstate, -⟩
  · simp only [Traced.turn, Traced.pass, hstate]
  · simp only [Traced.turn, Traced.pass, hstate]

/-- Turns of the loop are steps, and take one entry each out of the queue. -/
theorem turns_run {es : List (Event κ)} {t : Traced} (h : RunWith step NoneBehind {} es t) (hfd : 0 < t.state.ring.fd)
    (n : Nat) : ∃ es' : List (Event κ), RunWith step NoneBehind {} es' (Traced.turn^[n] t) ∧
      0 < (Traced.turn^[n] t).state.ring.fd ∧ (Traced.turn^[n] t).state.queue = t.state.queue.drop n := by
  induction n with
  | zero => exact ⟨es, h, hfd, rfl⟩
  | succ n ih =>
      obtain ⟨es', hrun, hfd', hqueue⟩ := ih
      rw [Function.iterate_succ_apply']
      generalize Traced.turn^[n] t = t' at hrun hfd' hqueue ⊢
      have hseen : t'.state.ring.seen ≤ t'.state.ring.slots.length := (books_run (hrun.mono fun _ _ _ => trivial)).seen
      have hall : t'.state.ring.seen + (t'.state.ring.slots.length - t'.state.ring.seen) = t'.state.ring.slots.length := by
        omega
      have htaken : step t' (.taken (t'.state.ring.slots.length - t'.state.ring.seen) : Event κ) =
          some { t' with state := { t'.state with ring :=
            { t'.state.ring with seen := t'.state.ring.slots.length } } } := by
        simp only [UringQueue.step, hall, Nat.le_refl, if_true]
      have hpass : step { t' with state := { t'.state with ring :=
          { t'.state.ring with seen := t'.state.ring.slots.length } } } (.pass : Event κ) = some t'.turn := if_pos hfd'
      have hrun' := RunWith.snoc (G := NoneBehind) (e := Event.taken _) hrun trivial htaken
      have hrun'' := RunWith.snoc (G := NoneBehind) (e := Event.pass) hrun' trivial hpass
      refine ⟨_, hrun'', (turn_fd t').symm ▸ hfd', ?_⟩
      rw [turn_queue, hqueue, List.tail_drop]

/-- **The queue keeps its order as long as no request finds another one waiting.** In every run where each request that is
    one for the ring finds room there or finds nothing waiting, each request is in the ring or in the queue and there once,
    with what its prep call wrote, and the ring has the requests that overflowed in the order in which they were made. The
    event loop then empties the queue: a turn for each entry, and all of them are in the ring. -/
theorem order_kept {es : List (Event κ)} {t : Traced} (h : RunWith step NoneBehind {} es t) :
    Sound t ∧ (0 < t.state.ring.fd → (Traced.turn^[t.state.queue.length] t).state.queue = [] ∧
      Sound (Traced.turn^[t.state.queue.length] t)) := by
  refine ⟨sound_run h, fun hfd => ?_⟩
  obtain ⟨es', hrun, -, hqueue⟩ := turns_run h hfd t.state.queue.length
  exact ⟨hqueue.trans (List.drop_length), sound_run hrun⟩

/-! ## A ring that fills up -/

/-- The read of the `i`-th of many buffers, and what it asks for. -/
def readOf (i : Nat) : Event Unit := .request .read {} i { callback := (), fd := 7 }

def readEntry (i : Nat) : Entry := ⟨.op (.read 7 0 (some 0)), i⟩

theorem step_readOf_roomy {t : Traced} (h : t.state.roomy = true) (i : Nat) : step t (readOf i) = some
    { state := { t.state with ring := { t.state.ring with slots := t.state.ring.slots ++ [some (readEntry i)] } }
      made := t.made ++ [⟨readEntry i, false⟩]
      placed := t.placed ++ [⟨readEntry i, false⟩] } := by
  have hput : step t (readOf i) = some (t.request (onRing i (.op (.read 7 0 (some 0)))
      (Buffer.setActive { callback := (), fd := 7 } true) t.state)) := rfl
  rw [hput, onRing, Traced.request, prepare_roomy h, hinRequestSqe_roomy h]
  rfl

theorem step_readOf_full {t : Traced} (h : t.state.roomy = false) (i : Nat) : step t (readOf i) = some
    { state := { t.state with queue := some (readEntry i) :: t.state.queue }
      made := t.made ++ [⟨readEntry i, true⟩]
      placed := t.placed } := by
  have hput : step t (readOf i) = some (t.request (onRing i (.op (.read 7 0 (some 0)))
      (Buffer.setActive { callback := (), fd := 7 } true) t.state)) := rfl
  rw [hput, onRing, Traced.request, prepare_full h, hinRequestSqe_full h]
  simp [readEntry]

/-- `n` reads that found room. -/
def filled (n : Nat) : Traced where
  state := { ring := { fd := 4, slots := (List.range n).map fun i => some (readEntry i) } }
  made := (List.range n).map fun i => ⟨readEntry i, false⟩
  placed := (List.range n).map fun i => ⟨readEntry i, false⟩

theorem filled_roomy {n : Nat} : (filled n).state.roomy = decide (n < hinUringQueueDepth) := by
  simp [State.roomy, Ring.room, filled]

theorem filled_run {n : Nat} (h : n ≤ hinUringQueueDepth) :
    RunWith step NoneBehind {} (.init 3 :: (List.range n).map readOf) (filled n) := by
  induction n with
  | zero => exact .snoc (G := NoneBehind) (e := Event.init 3) .nil trivial rfl
  | succ n ih =>
      have hroomy : (filled n).state.roomy = true := by
        rw [filled_roomy]
        exact decide_eq_true (by omega)
      have hstep := step_readOf_roomy hroomy n
      have hnext := RunWith.snoc (ih (by omega)) (fun _ => .inl hroomy) hstep
      simpa [filled, List.range_succ] using hnext

theorem overflowed_filled (n : Nat) : overflowed (filled n).made = [] ∧ overflowed (filled n).placed = [] := by
  simp [overflowed, filled]

/-- The ring is full, and more reads wait, the last of them at the head of the list. -/
def crowded (waiting : List Nat) : Traced where
  state := { (filled hinUringQueueDepth).state with queue := waiting.map fun i => some (readEntry i) }
  made := (filled hinUringQueueDepth).made ++ waiting.reverse.map fun i => ⟨readEntry i, true⟩
  placed := (filled hinUringQueueDepth).placed

theorem crowded_roomy (waiting : List Nat) : (crowded waiting).state.roomy = false := by
  have hfull : (filled hinUringQueueDepth).state.roomy = false := by
    rw [filled_roomy]
    exact decide_eq_false (Nat.lt_irrefl _)
  exact hfull

theorem crowded_step (waiting : List Nat) (i : Nat) :
    step (crowded waiting) (readOf i) = some (crowded (i :: waiting)) := by
  rw [step_readOf_full (crowded_roomy waiting)]
  simp [crowded]

theorem crowded_nil_run :
    RunWith step NoneBehind {} (.init 3 :: (List.range hinUringQueueDepth).map readOf) (crowded []) := by
  have hnone : crowded [] = filled hinUringQueueDepth := by
    simp [crowded, filled]
  rw [hnone]
  exact filled_run (Nat.le_refl _)

/-- A read that finds the ring full, and nothing waiting. -/
theorem order_kept_sample :
    ∃ es : List (Event Unit), Run step {} es (crowded [256]) ∧ Sound (crowded [256]) := by
  have hrun := RunWith.snoc crowded_nil_run (fun _ => .inr rfl) (crowded_step [] 256)
  exact ⟨_, hrun.mono fun _ _ _ => trivial, (order_kept hrun).1⟩

/-- **The statement fails** when two reads find the ring full: the second one enters it first. -/
theorem order_broken : ¬ ∀ (es : List (Event Unit)) (t : Traced), Run step {} es t → Sound t := by
  intro hall
  have hnil : Run step {} (.init 3 :: (List.range hinUringQueueDepth).map readOf) (crowded []) :=
    crowded_nil_run.mono fun _ _ _ => trivial
  have hrun := RunWith.snoc (RunWith.snoc hnil trivial (crowded_step [] 256)) trivial (crowded_step [256] 257)
  have hlength : (crowded [257, 256]).state.ring.slots.length = hinUringQueueDepth := by
    simp [crowded, filled]
  have hseen : (crowded [257, 256]).state.ring.seen = 0 := rfl
  have hfd : 0 < (crowded [257, 256]).state.ring.fd := by decide
  generalize hcrowded : crowded [257, 256] = t at hrun hlength hseen hfd
  have htaken : step t (.taken hinUringQueueDepth : Event Unit) = some { t with state :=
      { t.state with ring := { t.state.ring with seen := t.state.ring.seen + hinUringQueueDepth } } } :=
    if_pos (by omega)
  have hpass := RunWith.snoc (e := Event.pass) (RunWith.snoc hrun trivial htaken) trivial (if_pos hfd)
  have horder := (hall _ _ hpass).order
  have hroom : ({ t.state.ring with seen := t.state.ring.seen + hinUringQueueDepth } : Ring).room = true := by
    simp only [Ring.room, hlength, hseen]
    decide
  have hmade : overflowed t.made = [readEntry 256, readEntry 257] := by
    rw [← hcrowded, crowded, overflowed_append, (overflowed_filled hinUringQueueDepth).1]
    rfl
  have hplaced : overflowed t.placed = [] := by
    rw [← hcrowded]
    exact (overflowed_filled hinUringQueueDepth).2
  have hqueue : t.state.queue = [some (readEntry 257), some (readEntry 256)] := by
    rw [← hcrowded]
    rfl
  have hprefix : [readEntry 257] <+: [readEntry 256, readEntry 257] := by
    rw [← hmade]
    simpa [Traced.pass, State.popped, hqueue, hroom, hplaced] using horder
  exact absurd hprefix (by decide)

end UringQueue
end Hin9
