import Hin9.Lib.Runs

/-!
# `Netcode.Accept` — connections that come in (`server.c`, `uring.c`, `timer.c`)

A listening server has one accept buffer, and the buffer has one client that is not in any list yet: the next connection is put
into it. When the kernel completes the request, `hin_server_accept_callback` hands the client on, takes a new one and puts the
request again; after most errors it puts the request again at once, after some it leaves that to the timer, and the others end
the accepting.

`Inv` is about one state, and `served` adds what the events say: which connections there were, and why a buffer is without a
request. A request whose buffer is freed while the kernel has it is not taken back; `Answered` leaves out that it is completed.
-/

namespace Hin9
namespace Netcode
namespace Accept

/-! ## The servers -/

/-- The accept buffer. `server` is the server of its client, whose socket is listened to. -/
structure Buffer where
  server : Nat
  parent : Option Nat        -- the client the next connection is put into
  active : Bool := false     -- HIN_ACTIVE
deriving Repr, DecidableEq

/-- `hin_server_t`. -/
structure Server where
  acceptBuffer : Option Nat := none
  clientList : List Nat := []
deriving Repr, DecidableEq

/-- A call of `accept_callback`. -/
structure Call where
  server : Nat
  client : Nat
  sockfd : Int
  refused : Bool             -- it returned less than 0
deriving Repr, DecidableEq

/-- `hin_master_t`, and the memory there is: what has not been freed, under names that are not used again. -/
structure State where
  serverList : List Nat := []
  server : Nat → Option Server := fun _ => none
  buffer : Nat → Option Buffer := fun _ => none
  client : Nat → Option Nat := fun _ => none      -- the parent of a client
  next : Nat := 0                                 -- the first name that has not been used
  numClient : Int := 0
  numListen : Int := 0
  ring : List Nat := []                           -- the requests the kernel has, by their buffers
  calls : List Call := []
  freed : List Nat := []                          -- the clients that were closed
  weird : List Nat := []                          -- the numbers of hin_weird_error
  touched : Bool := false                         -- something was looked at that has been freed

namespace State

variable (s : State)

def touch : State := { s with touched := true }

def weirdError (code : Nat) : State := { s with weird := s.weird ++ [code] }

def setServer (id : Nat) (server : Option Server) : State := { s with server := Function.update s.server id server }

def setBuffer (b : Nat) (buf : Option Buffer) : State := { s with buffer := Function.update s.buffer b buf }

def setClient (c : Nat) (server : Option Nat) : State := { s with client := Function.update s.client c server }

end State

/-- `hin_request_accept`, on the ring. -/
def hinRequestAccept (s : State) (b : Nat) : State × Int :=
  match s.buffer b with
  | none => (s.touch, 0)
  | some buf =>
      if buf.active then (s, -1)
      else
        match buf.parent.bind s.client with
        | none => (s.touch, 0)
        | some _ => ({ s.setBuffer b (some { buf with active := true }) with ring := s.ring ++ [b] }, 0)

/-- What `hin_server_accept_callback` does about an error. -/
inductive Reaction where
  | retry
  | slowDown
  | fatal
deriving Repr, DecidableEq

/-- EAGAIN, EINTR, ECONNABORTED, ENETDOWN, EPROTO, EHOSTDOWN, ENONET, EHOSTUNREACH, ENETUNREACH. -/
def retryErrors : List Int := [11, 4, 103, 100, 71, 112, 64, 113, 101]

/-- EMFILE, ENFILE, ENOBUFS, ENOMEM, EPERM. -/
def slowDownErrors : List Int := [24, 23, 105, 12, 1]

def reaction (ret : Int) : Reaction :=
  if -ret ∈ retryErrors then .retry else if -ret ∈ slowDownErrors then .slowDown else .fatal

/-- A request is put again, from the callback. -/
def again (s : State) (b : Nat) (code : Nat) : State × Int :=
  let (s, err) := hinRequestAccept s b
  if err < 0 then (s.weirdError code, -1) else (s, 0)

/-- `hin_server_do_client_callback`; `cb` is what `accept_callback` returns. -/
def hinServerDoClientCallback (s : State) (id c : Nat) (sockfd cb : Int) : State × Int :=
  ({ s with
      calls := s.calls ++ [{ server := id, client := c, sockfd, refused := decide (cb < 0) }]
      numClient := s.numClient + 1 }, cb)

/-- `hin_server_create_client`. -/
def hinServerCreateClient (s : State) (id : Nat) : State × Nat :=
  ({ s.setClient s.next (some id) with next := s.next + 1 }, s.next)

/-- `hin_server_accept_callback`, where accept has failed. -/
def acceptFailed (s : State) (b id : Nat) (server : Server) (ret : Int) : State × Int :=
  if server.acceptBuffer = none then (s, 1)
  else
    match reaction ret with
    | .retry => again s b 5364567
    | .slowDown => (s, 0)
    | .fatal => (s.setServer id (some { server with acceptBuffer := none }), -1)

/-- `hin_server_accept_callback`, with a connection. -/
def acceptClient (s : State) (b id c : Nat) (buf : Buffer) (server : Server) (sockfd cb : Int) : State × Int :=
  let (s, err) := hinServerDoClientCallback s id c sockfd cb
  if err < 0 then
    if server.acceptBuffer = none then (s, 1)
    else
      let (s, err) := again s b 3252543
      if err < 0 then (s, err) else (s.weirdError 432526654, 0)
  else
    let s := s.setServer id (some { server with clientList := server.clientList ++ [c] })
    if server.acceptBuffer = none then (s, 1)
    else
      let (s, new) := hinServerCreateClient s id
      again (s.setBuffer b (some { buf with parent := some new })) b 435332

/-- `hin_server_accept_callback`. -/
def hinServerAcceptCallback (s : State) (b : Nat) (ret cb : Int) : State × Int :=
  match s.buffer b with
  | none => (s.touch, 0)
  | some buf =>
      match buf.parent with
      | none => (s.weirdError 224230987, 1)
      | some c =>
          match s.client c with
          | none => (s.touch, 0)
          | some id =>
              match s.server id with
              | none => (s.touch, 0)
              | some server => if ret < 0 then acceptFailed s b id server ret else acceptClient s b id c buf server ret cb

/-- `hin_server_start_accept`, and the rest of `hin_request_listen`, for a server with a socket. -/
def hinServerStartAccept (s : State) : State :=
  let id := s.next
  let s := { s with next := s.next + 1 }
  let (s, c) := hinServerCreateClient s id
  let b := s.next
  let s := { s.setBuffer b (some { server := id, parent := some c }) with next := s.next + 1 }
  let s := s.setServer id (some { acceptBuffer := some b })
  let (s, err) := hinRequestAccept s b
  if err < 0 then s.weirdError 35776893
  else { s with serverList := s.serverList ++ [id], numListen := s.numListen + 1 }

/-- `hin_server_close`. What `hin_check_alive` does behind it is not followed here. -/
def hinServerClose (s : State) (id : Nat) : State :=
  match s.server id with
  | none => s.touch
  | some server =>
      let s :=
        match server.acceptBuffer with
        | none => s
        | some b =>
            match s.buffer b with
            | none => s.touch
            | some buf =>
                -- the empty client and the buffer are freed
                let s := match buf.parent with
                  | none => s
                  | some c => s.setClient c none
                (s.setBuffer b none).setServer id (some { server with acceptBuffer := none })
      if server.clientList ≠ [] then s
      else { s.setServer id none with serverList := s.serverList.erase id, numListen := s.numListen - 1 }

/-- `hin_client_close`. -/
def hinClientClose (s : State) (c : Nat) : State :=
  match s.client c with
  | none => s.touch
  | some id =>
      match s.server id with
      | none => s.touch
      | some server =>
          let server := { server with clientList := server.clientList.erase c }
          let s := (s.setServer id (some server)).setClient c none
          let s := { s with numClient := s.numClient - 1, freed := s.freed ++ [c] }
          if server.clientList ≠ [] then s
          else if server.acceptBuffer ≠ none then s
          else hinServerClose s id

/-- `hin_server_reaccept`. -/
def hinServerReaccept (s : State) : List Nat → State
  | [] => s
  | id :: ids =>
      match s.server id with
      | none => s.touch
      | some server =>
          match server.acceptBuffer with
          | none => hinServerReaccept s ids
          | some b =>
              match s.buffer b with
              | none => s.touch
              | some buf =>
                  if buf.active then hinServerReaccept s ids
                  else
                    let (s, err) := hinRequestAccept s b
                    if err < 0 then s.weirdError 436332 else hinServerReaccept s ids

/-! ## Runs -/

inductive Event where
  | listen                                  -- hin_request_listen, with a socket
  | complete (b : Nat) (ret cb : Int)       -- the kernel completes a request; `cb` is what accept_callback returns, if it is called
  | tick                                    -- hin_timer_callback
  | clientClose (c : Nat)                   -- hin_client_close
  | serverClose (id : Nat)                  -- hin_server_close, by hin_stop
deriving Repr, DecidableEq

/-- `hin_event_process` for one completion. -/
def complete (s : State) (b : Nat) (ret cb : Int) : State :=
  match s.buffer b with
  | none => s.touch
  | some buf =>
      let (s, err) := hinServerAcceptCallback (s.setBuffer b (some { buf with active := false })) b ret cb
      if err ≠ 0 then s.setBuffer b none else s

/-- One event. -/
def step (s : State) : Event → Option State
  | .listen => some (hinServerStartAccept s)
  | .complete b ret cb => if b ∈ s.ring then some (complete { s with ring := s.ring.erase b } b ret cb) else none
  | .tick => some (hinServerReaccept s s.serverList)
  | .clientClose c =>
      if c ∈ (((s.client c).bind s.server).map Server.clientList).getD [] then some (hinClientClose s c) else none
  | .serverClose id => if id ∈ s.serverList then some (hinServerClose s id) else none

/-- No request is completed whose buffer has been freed. -/
def Answered (s : State) : Event → Prop
  | .complete b _ _ => (s.buffer b).isSome
  | _ => True

/-! ## What holds in every state -/

/-- The clients that were handed on. -/
def State.accepted (s : State) : List Call := s.calls.filter fun call => !call.refused

/-- The calls that were refused. -/
def State.refused (s : State) : List Call := s.calls.filter fun call => call.refused

/-- The clients of a server that were handed on and are still there. -/
def State.open (s : State) (id : Nat) : List Nat :=
  ((s.accepted.filter fun call => call.server = id).map Call.client).filter fun c => c ∉ s.freed

/-- **The state of the accepting.** An accept buffer and its server belong to each other, and its client has not been handed on.
    The clients in the list of a server are the ones that were handed on, in that order. -/
structure Inv (s : State) : Prop where
  nodup : s.serverList.Nodup
  listed : ∀ id, id ∈ s.serverList ↔ (s.server id).isSome
  accepting : ∀ id server b, s.server id = some server → server.acceptBuffer = some b →
    ∃ c active, s.buffer b = some ⟨id, some c, active⟩ ∧ s.client c = some id
  owned : ∀ b buf, s.buffer b = some buf → ∃ server, s.server buf.server = some server ∧ server.acceptBuffer = some b
  spare : ∀ b buf c, s.buffer b = some buf → buf.parent = some c → c ∉ s.accepted.map Call.client
  once : (s.accepted.map Call.client).Nodup
  clients : ∀ id server, s.server id = some server → server.clientList = s.open id
  there : ∀ call ∈ s.accepted, call.client ∉ s.freed → s.client call.client = some call.server ∧ (s.server call.server).isSome
  freed : s.freed.Nodup ∧ ∀ c ∈ s.freed, c ∈ s.accepted.map Call.client
  count : s.numClient = s.calls.length - s.freed.length
  listening : s.numListen = s.serverList.length
  requests : s.ring.Nodup
  active : ∀ b buf, s.buffer b = some buf → (buf.active = true ↔ b ∈ s.ring)
  servers : ∀ id, s.next ≤ id → s.server id = none
  buffers : ∀ b, s.next ≤ b → s.buffer b = none
  parents : ∀ c, s.next ≤ c → s.client c = none
  names : (∀ b ∈ s.ring, b < s.next) ∧ (∀ call ∈ s.accepted, call.client < s.next)
  weird : s.weird = List.replicate s.refused.length 432526654
  untouched : s.touched = false

theorem inv_init : Inv {} where
  nodup := List.nodup_nil
  listed := fun _ => by simp
  accepting := fun _ _ _ h => absurd h (by simp)
  owned := fun _ _ h => absurd h (by simp)
  spare := fun _ _ _ h => absurd h (by simp)
  once := List.nodup_nil
  clients := fun _ _ h => absurd h (by simp)
  there := fun _ h => absurd h List.not_mem_nil
  freed := ⟨List.nodup_nil, fun _ h => absurd h List.not_mem_nil⟩
  count := rfl
  listening := rfl
  requests := List.nodup_nil
  active := fun _ _ h => absurd h (by simp)
  servers := fun _ _ => rfl
  buffers := fun _ _ => rfl
  parents := fun _ _ => rfl
  names := ⟨fun _ h => absurd h List.not_mem_nil, fun _ h => absurd h List.not_mem_nil⟩
  weird := rfl
  untouched := rfl

/-- A request is put for the buffer. -/
def State.requested (s : State) (b id c : Nat) : State :=
  { s.setBuffer b (some ⟨id, some c, true⟩) with ring := s.ring ++ [b] }

section

variable {s : State} {b id c : Nat} {server : Server} {active : Bool}

/-- **A buffer with what belongs to it.** -/
theorem Inv.buffer (h : Inv s) {buf : Buffer} (hb : s.buffer b = some buf) : ∃ c server, buf = ⟨buf.server, some c, buf.active⟩ ∧
    s.client c = some buf.server ∧ s.server buf.server = some server ∧ server.acceptBuffer = some b := by
  obtain ⟨server, hserver, haccept⟩ := h.owned b buf hb
  obtain ⟨c, active, hbuf, hclient⟩ := h.accepting _ _ _ hserver haccept
  have heq : buf = ⟨buf.server, some c, active⟩ := Option.some.inj (hb.symm.trans hbuf)
  have hactive : buf.active = active := congrArg Buffer.active heq
  exact ⟨c, server, hactive ▸ heq, hclient, hserver, haccept⟩

/-- A request for a buffer without one. -/
theorem hinRequestAccept_idle (hb : s.buffer b = some ⟨id, some c, false⟩) (hc : s.client c = some id) :
    hinRequestAccept s b = (s.requested b id c, 0) := by
  unfold hinRequestAccept
  rw [hb]
  dsimp only
  rw [if_neg Bool.false_ne_true, Option.bind_some, hc]
  rfl

theorem again_idle (hb : s.buffer b = some ⟨id, some c, false⟩) (hc : s.client c = some id) (code : Nat) :
    again s b code = (s.requested b id c, 0) := by
  unfold again
  rw [hinRequestAccept_idle hb hc]
  rfl

end

/-! ## Completions -/

/-- A call of `accept_callback` is written down. -/
def State.called (s : State) (id c : Nat) (sockfd : Int) (refused : Bool) : State :=
  { s with calls := s.calls ++ [{ server := id, client := c, sockfd, refused }], numClient := s.numClient + 1 }

/-- The connection is handed on, and the buffer has a new client. -/
def State.handedOn (s : State) (b id c : Nat) (server : Server) (sockfd : Int) : State :=
  { ((((s.called id c sockfd false).setServer id (some { server with clientList := server.clientList ++ [c] })).setClient s.next
      (some id)).setBuffer b (some ⟨id, some s.next, false⟩)) with next := s.next + 1 }

section

variable {s : State} {b id c : Nat} {server : Server}

/-- The callback for a connection, on a buffer without a request. -/
theorem acceptClient_spec (hb : s.buffer b = some ⟨id, some c, false⟩) (hc : s.client c = some id)
    (ha : server.acceptBuffer = some b) (sockfd cb : Int) :
    acceptClient s b id c ⟨id, some c, false⟩ server sockfd cb =
      if cb < 0 then (((s.called id c sockfd true).requested b id c).weirdError 432526654, 0)
      else ((s.handedOn b id c server sockfd).requested b id s.next, 0) := by
  have hne : ¬server.acceptBuffer = none := by
    rw [ha]
    simp
  unfold acceptClient hinServerDoClientCallback
  dsimp only
  by_cases hcb : cb < 0
  · have hb' : (s.called id c sockfd true).buffer b = some ⟨id, some c, false⟩ := hb
    have hdecide : decide (cb < 0) = true := decide_eq_true hcb
    rw [if_pos hcb, if_pos hcb, if_neg hne, hdecide]
    have hagain := again_idle hb' hc 3252543
    unfold State.called at hagain
    rw [hagain]
    rfl
  · have hdecide : decide (cb < 0) = false := decide_eq_false hcb
    rw [if_neg hcb, if_neg hcb, if_neg hne, hdecide]
    have hb' : (s.handedOn b id c server sockfd).buffer b = some ⟨id, some s.next, false⟩ := Function.update_self ..
    have hc' : (s.handedOn b id c server sockfd).client s.next = some id := Function.update_self ..
    exact again_idle hb' hc' 435332

/-- The state in which the callback is run. -/
def State.answered (s : State) (b id c : Nat) : State :=
  ({ s with ring := s.ring.erase b } : State).setBuffer b (some ⟨id, some c, false⟩)

/-- **What a completion does**, in terms of the state before it. -/
theorem complete_spec (hb : s.buffer b = some ⟨id, some c, true⟩) (hc : s.client c = some id) (hs : s.server id = some server)
    (ha : server.acceptBuffer = some b) (ret cb : Int) :
    complete { s with ring := s.ring.erase b } b ret cb =
      if ret < 0 then
        match reaction ret with
        | .retry => (s.answered b id c).requested b id c
        | .slowDown => s.answered b id c
        | .fatal => ((s.answered b id c).setServer id (some { server with acceptBuffer := none })).setBuffer b none
      else if cb < 0 then (((s.answered b id c).called id c ret true).requested b id c).weirdError 432526654
      else ((s.answered b id c).handedOn b id c server ret).requested b id s.next := by
  have hne : ¬server.acceptBuffer = none := by
    rw [ha]
    simp
  have hcall : hinServerAcceptCallback (s.answered b id c) b ret cb =
      if ret < 0 then acceptFailed (s.answered b id c) b id server ret
      else acceptClient (s.answered b id c) b id c ⟨id, some c, false⟩ server ret cb := by
    have hb₀ : (s.answered b id c).buffer b = some ⟨id, some c, false⟩ := Function.update_self ..
    have hc₀ : (s.answered b id c).client c = some id := hc
    have hs₀ : (s.answered b id c).server id = some server := hs
    unfold hinServerAcceptCallback
    simp only [hb₀, hc₀, hs₀]
  unfold complete
  dsimp only
  rw [hb]
  dsimp only
  have hanswered : ({ s with ring := s.ring.erase b } : State).setBuffer b (some ⟨id, some c, false⟩) = s.answered b id c := rfl
  rw [hanswered, hcall]
  have hb₀ : (s.answered b id c).buffer b = some ⟨id, some c, false⟩ := Function.update_self ..
  by_cases hret : ret < 0
  · rw [if_pos hret, if_pos hret]
    unfold acceptFailed
    rw [if_neg hne]
    cases reaction ret with
    | retry =>
        dsimp only
        rw [again_idle hb₀ hc]
        exact if_neg fun h => h rfl
    | slowDown => exact if_neg fun h => h rfl
    | fatal => rfl
  · have hc₀ : (s.answered b id c).client c = some id := hc
    rw [if_neg hret, if_neg hret, acceptClient_spec hb₀ hc₀ ha]
    by_cases hcb : cb < 0
    · rw [if_pos hcb, if_pos hcb]
      exact if_neg fun h => h rfl
    · rw [if_neg hcb, if_neg hcb]
      exact if_neg fun h => h rfl

end

/-! ## What each of the steps keeps -/

/-- What stands in a table where one entry has been set. -/
theorem update_eq_some {α : Type} {f : Nat → Option α} {a x : Nat} {v : Option α} {w : α} (h : Function.update f a v x = some w) :
    (x = a ∧ v = some w) ∨ (x ≠ a ∧ f x = some w) := by
  by_cases hx : x = a
  · rw [hx, Function.update_self] at h
    exact .inl ⟨hx, h⟩
  · rw [Function.update_of_ne hx] at h
    exact .inr ⟨hx, h⟩

theorem update_isSome {α : Type} {f : Nat → Option α} {a : Nat} {v w : α} (h : f a = some w) (x : Nat) :
    (Function.update f a (some v) x).isSome = (f x).isSome := by
  by_cases hx : x = a
  · rw [hx, Function.update_self, h]
    rfl
  · rw [Function.update_of_ne hx]

section

variable {s : State} {b id c : Nat} {server : Server}

/-- Two buffers of one server are the same. -/
theorem Inv.buffer_unique (h : Inv s) {b' : Nat} {buf buf' : Buffer} (hb : s.buffer b = some buf) (hb' : s.buffer b' = some buf')
    (heq : buf.server = buf'.server) : b = b' := by
  obtain ⟨server, hserver, haccept⟩ := h.owned b buf hb
  obtain ⟨server', hserver', haccept'⟩ := h.owned b' buf' hb'
  rw [heq, hserver'] at hserver
  rw [Option.some.inj hserver, haccept] at haccept'
  exact Option.some.inj haccept'

theorem Inv.lt_next (h : Inv s) {buf : Buffer} (hb : s.buffer b = some buf) : b < s.next := by
  by_contra hge
  rw [h.buffers b (Nat.le_of_not_lt hge)] at hb
  exact absurd hb (by simp)

/-- **A request comes or goes**: all but the flag of its buffer stays. -/
theorem Inv.switch (h : Inv s) {old : Bool} (hb : s.buffer b = some ⟨id, some c, old⟩) (new : Bool) {ring : List Nat}
    (hnodup : ring.Nodup) (hself : new = true ↔ b ∈ ring) (hother : ∀ x, x ≠ b → (x ∈ s.ring ↔ x ∈ ring)) :
    Inv { s.setBuffer b (some ⟨id, some c, new⟩) with ring } := by
  have hbuf : ∀ x buf, Function.update s.buffer b (some ⟨id, some c, new⟩) x = some buf →
      ∃ buf', s.buffer x = some buf' ∧ buf'.server = buf.server ∧ buf'.parent = buf.parent := by
    intro x buf hx
    rcases update_eq_some hx with ⟨rfl, heq⟩ | ⟨-, hold⟩
    · obtain rfl := Option.some.inj heq
      exact ⟨_, hb, rfl, rfl⟩
    · exact ⟨buf, hold, rfl, rfl⟩
  refine { h with
    accepting := ?_, owned := ?_, spare := ?_, requests := hnodup, active := ?_, buffers := ?_, names := ?_ }
  · intro sid server x hserver haccept
    obtain ⟨c', active, hx, hc'⟩ := h.accepting sid server x hserver haccept
    by_cases hxb : x = b
    · subst hxb
      have heq : (⟨id, some c, old⟩ : Buffer) = ⟨sid, some c', active⟩ := Option.some.inj (hb.symm.trans hx)
      obtain ⟨rfl, hparent, -⟩ := Buffer.mk.injEq .. ▸ heq
      refine ⟨c, new, Function.update_self .., ?_⟩
      rw [Option.some.inj hparent]
      exact hc'
    · exact ⟨c', active, (Function.update_of_ne hxb _ _).trans hx, hc'⟩
  · intro x buf hx
    obtain ⟨buf', hold, hserver, -⟩ := hbuf x buf hx
    exact hserver ▸ h.owned x buf' hold
  · intro x buf c' hx hparent
    obtain ⟨buf', hold, -, hparent'⟩ := hbuf x buf hx
    exact h.spare x buf' c' hold (hparent'.trans hparent)
  · intro x buf hx
    rcases update_eq_some hx with ⟨rfl, heq⟩ | ⟨hne, hold⟩
    · obtain rfl := Option.some.inj heq
      exact hself
    · exact (h.active x buf hold).trans (hother x hne)
  · intro x hx
    have hne : x ≠ b := by
      intro hxb
      rw [hxb] at hx
      exact absurd (h.lt_next hb) (Nat.not_lt.mpr hx)
    exact (Function.update_of_ne hne _ _).trans (h.buffers x hx)
  · refine ⟨fun x hx => ?_, h.names.2⟩
    by_cases hxb : x = b
    · rw [hxb]
      exact h.lt_next hb
    · exact h.names.1 x ((hother x hxb).mpr hx)

/-- The kernel is done with a request. -/
theorem Inv.answered (h : Inv s) (hb : s.buffer b = some ⟨id, some c, true⟩) : Inv (s.answered b id c) :=
  h.switch hb false (h.requests.erase b) (iff_of_false Bool.false_ne_true h.requests.not_mem_erase)
    fun _ hne => (List.mem_erase_of_ne hne).symm

/-- A request is put. -/
theorem Inv.requested (h : Inv s) (hb : s.buffer b = some ⟨id, some c, false⟩) : Inv (s.requested b id c) := by
  have hidle : b ∉ s.ring := fun hmem => Bool.false_ne_true ((h.active b _ hb).mpr hmem)
  refine h.switch hb true ?_ (iff_of_true rfl (List.mem_append_right _ (List.mem_singleton.mpr rfl))) ?_
  · exact List.nodup_append.mpr ⟨h.requests, List.nodup_singleton b, fun x hx y hy hxy =>
      hidle ((hxy.trans (List.mem_singleton.mp hy)) ▸ hx)⟩
  · intro x hne
    rw [List.mem_append, List.mem_singleton, or_iff_left hne]

/-- A connection is refused. -/
theorem Inv.refusal (h : Inv s) (id c : Nat) (sockfd : Int) : Inv ((s.called id c sockfd true).weirdError 432526654) := by
  have haccepted : ((s.called id c sockfd true).weirdError 432526654).accepted = s.accepted := by
    unfold State.accepted State.weirdError State.called
    rw [List.filter_append]
    simp
  have hrefused : ((s.called id c sockfd true).weirdError 432526654).refused.length = s.refused.length + 1 := by
    unfold State.refused State.weirdError State.called
    rw [List.filter_append, List.length_append]
    simp
  have hopen : ∀ id', ((s.called id c sockfd true).weirdError 432526654).open id' = s.open id' := by
    intro id'
    unfold State.open
    rw [haccepted]
    rfl
  refine { h with
    spare := ?_, once := ?_, clients := ?_, there := ?_, freed := ?_, count := ?_, names := ?_, weird := ?_ }
  · rw [haccepted]
    exact h.spare
  · rw [haccepted]
    exact h.once
  · intro sid server hserver
    rw [hopen]
    exact h.clients sid server hserver
  · rw [haccepted]
    exact h.there
  · rw [haccepted]
    exact h.freed
  · have hcount := h.count
    unfold State.weirdError State.called
    dsimp only
    rw [List.length_append, List.length_singleton, hcount]
    omega
  · rw [haccepted]
    exact h.names
  · rw [hrefused, List.replicate_succ', ← h.weird]
    rfl

/-- A client that is there has a name. -/
theorem Inv.client_lt (h : Inv s) (hc : s.client c = some id) : c < s.next := by
  by_contra hge
  rw [h.parents c (Nat.le_of_not_lt hge)] at hc
  exact absurd hc (by simp)

/-- **A connection is handed on**, and the buffer has a new client. -/
theorem Inv.handedOn (h : Inv s) (hb : s.buffer b = some ⟨id, some c, false⟩) (hc : s.client c = some id)
    (hs : s.server id = some server) (ha : server.acceptBuffer = some b) (sockfd : Int) :
    Inv (s.handedOn b id c server sockfd) := by
  have hspare : c ∉ s.accepted.map Call.client := h.spare b _ c hb rfl
  have hlt := h.client_lt hc
  have haccepted : (s.handedOn b id c server sockfd).accepted = s.accepted ++ [⟨id, c, sockfd, false⟩] :=
    (List.filter_append ..).trans rfl
  have hrefused : (s.handedOn b id c server sockfd).refused = s.refused := by
    refine (List.filter_append ..).trans ?_
    exact List.append_nil _
  have hopen : ∀ sid, (s.handedOn b id c server sockfd).open sid = s.open sid ++ if sid = id then [c] else [] := by
    intro sid
    have hfreed : c ∉ s.freed := fun hmem => hspare (h.freed.2 c hmem)
    unfold State.open
    rw [haccepted, List.filter_append, List.map_append, List.filter_append]
    congr 1
    by_cases hid : sid = id
    · subst hid
      rw [if_pos rfl]
      have hkept : c ∉ (s.handedOn b sid c server sockfd).freed := hfreed
      simpa using hkept
    · rw [if_neg hid]
      simp [Ne.symm hid]
  have hother : ∀ x buf, x ≠ b → s.buffer x = some buf → buf.server ≠ id := by
    intro x buf hne hx heq
    exact hne (h.buffer_unique hx hb heq)
  refine ⟨h.nodup, ?_, ?_, ?_, ?_, ?_, ?_, ?_, ?_, ?_, h.listening, h.requests, ?_, ?_, ?_, ?_, ?_, ?_, h.untouched⟩
  · -- listed
    intro sid
    have hsame : ((s.handedOn b id c server sockfd).server sid).isSome = (s.server sid).isSome := update_isSome hs sid
    rw [hsame]
    exact h.listed sid
  · -- accepting
    intro sid server' x hserver haccept
    rcases update_eq_some hserver with ⟨rfl, heq⟩ | ⟨hid, hold⟩
    · obtain rfl := Option.some.inj heq
      obtain rfl : b = x := Option.some.inj (ha.symm.trans haccept)
      exact ⟨s.next, false, Function.update_self .., Function.update_self ..⟩
    · obtain ⟨c', active, hx, hc'⟩ := h.accepting sid server' x hold haccept
      have hxb : x ≠ b := by
        intro hxb
        rw [hxb, hb] at hx
        exact hid (congrArg Buffer.server (Option.some.inj hx)).symm
      exact ⟨c', active, (Function.update_of_ne hxb _ _).trans hx,
        (Function.update_of_ne (Nat.ne_of_lt (h.client_lt hc')) _ _).trans hc'⟩
  · -- owned
    intro x buf hx
    rcases update_eq_some hx with ⟨rfl, heq⟩ | ⟨hne, hold⟩
    · obtain rfl := Option.some.inj heq
      exact ⟨_, Function.update_self .., ha⟩
    · obtain ⟨server', hserver, haccept⟩ := h.owned x buf hold
      exact ⟨server', (Function.update_of_ne (hother x buf hne hold) _ _).trans hserver, haccept⟩
  · -- spare
    intro x buf c' hx hparent
    rw [haccepted, List.map_append, List.mem_append, List.map_singleton, List.mem_singleton]
    rcases update_eq_some hx with ⟨rfl, heq⟩ | ⟨hne, hold⟩
    · obtain rfl := Option.some.inj heq
      obtain rfl := Option.some.inj hparent
      rintro (hmem | heq)
      · obtain ⟨call, hcall, hclient⟩ := List.mem_map.mp hmem
        exact absurd (h.names.2 call hcall) (by rw [hclient]; exact Nat.lt_irrefl _)
      · exact absurd (heq ▸ hlt) (Nat.lt_irrefl _)
    · rintro (hmem | heq)
      · exact h.spare x buf c' hold hparent hmem
      · subst heq
        -- a client has one parent
        obtain ⟨c'', server', hbuf, hclient, -⟩ := h.buffer hold
        rw [hbuf] at hparent
        obtain rfl := Option.some.inj hparent
        exact hother x buf hne hold (Option.some.inj (hclient.symm.trans hc))
  · -- once
    rw [haccepted, List.map_append]
    refine List.nodup_append.mpr ⟨h.once, List.nodup_singleton _, fun x hx y hy hxy => hspare ?_⟩
    have hxc : x = c := hxy.trans (List.mem_singleton.mp hy)
    exact hxc ▸ hx
  · -- clients
    intro sid server' hserver
    rw [hopen]
    rcases update_eq_some hserver with ⟨rfl, heq⟩ | ⟨hid, hold⟩
    · obtain rfl := Option.some.inj heq
      rw [if_pos rfl, ← h.clients sid server hs]
    · rw [if_neg hid, List.append_nil]
      exact h.clients sid server' hold
  · -- there
    intro call hcall hfreed
    rw [haccepted] at hcall
    have hsome : ∀ sid, (s.server sid).isSome → ((s.handedOn b id c server sockfd).server sid).isSome :=
      fun sid hsid => (update_isSome hs sid).trans hsid
    rcases List.mem_append.mp hcall with hcall | hcall
    · obtain ⟨hclient, hserver⟩ := h.there call hcall hfreed
      exact ⟨(Function.update_of_ne (Nat.ne_of_lt (h.names.2 call hcall)) _ _).trans hclient, hsome _ hserver⟩
    · obtain rfl := List.mem_singleton.mp hcall
      exact ⟨(Function.update_of_ne (Nat.ne_of_lt hlt) _ _).trans hc, hsome id (by rw [hs]; rfl)⟩
  · -- freed
    refine ⟨h.freed.1, fun x hx => ?_⟩
    rw [haccepted, List.map_append]
    exact List.mem_append_left _ (h.freed.2 x hx)
  · -- count
    have hcount := h.count
    show s.numClient + 1 = ((s.calls ++ [_]).length : Int) - s.freed.length
    rw [List.length_append, List.length_singleton, hcount]
    push_cast
    omega
  · -- active
    intro x buf hx
    rcases update_eq_some hx with ⟨rfl, heq⟩ | ⟨-, hold⟩
    · obtain rfl := Option.some.inj heq
      exact (h.active x _ hb :)
    · exact h.active x buf hold
  · -- servers
    intro sid hsid
    have hid : sid ≠ id := by
      rintro rfl
      exact absurd (h.servers sid (Nat.le_of_succ_le hsid)) (by rw [hs]; simp)
    exact (Function.update_of_ne hid _ _).trans (h.servers sid (Nat.le_of_succ_le hsid))
  · -- buffers
    intro x hx
    have hxb : x ≠ b := Nat.ne_of_gt (Nat.lt_of_lt_of_le (h.lt_next hb) (Nat.le_of_succ_le hx))
    exact (Function.update_of_ne hxb _ _).trans (h.buffers x (Nat.le_of_succ_le hx))
  · -- parents
    intro x hx
    exact (Function.update_of_ne (Nat.ne_of_gt hx) _ _).trans (h.parents x (Nat.le_of_succ_le hx))
  · -- names
    refine ⟨fun x hx => Nat.lt_succ_of_lt (h.names.1 x hx), fun call hcall => ?_⟩
    rw [haccepted] at hcall
    rcases List.mem_append.mp hcall with hcall | hcall
    · exact Nat.lt_succ_of_lt (h.names.2 call hcall)
    · obtain rfl := List.mem_singleton.mp hcall
      exact Nat.lt_succ_of_lt hlt
  · -- weird
    rw [hrefused]
    exact h.weird

/-- **The accepting of a server ends**: its buffer is freed. The kernel may still have the request. -/
def State.ended (s : State) (b id : Nat) (server : Server) : State :=
  (s.setServer id (some { server with acceptBuffer := none })).setBuffer b none

theorem Inv.ended (h : Inv s) {buf : Buffer} (hb : s.buffer b = some buf) (hid : buf.server = id) (hs : s.server id = some server) :
    Inv (s.ended b id server) := by
  have hother : ∀ x buf', x ≠ b → s.buffer x = some buf' → buf'.server ≠ id :=
    fun x buf' hne hx heq => hne (h.buffer_unique hx hb (heq.trans hid.symm))
  have hbuf : ∀ x buf', (s.ended b id server).buffer x = some buf' → x ≠ b ∧ s.buffer x = some buf' := by
    intro x buf' hx
    rcases update_eq_some hx with ⟨-, heq⟩ | hold
    · exact absurd heq (by simp)
    · exact hold
  have hsome : ∀ sid, ((s.ended b id server).server sid).isSome = (s.server sid).isSome := update_isSome hs
  refine { h with
    listed := ?_, accepting := ?_, owned := ?_, spare := ?_, clients := ?_, there := ?_, active := ?_, servers := ?_,
    buffers := ?_ }
  · intro sid
    rw [hsome]
    exact h.listed sid
  · intro sid server' x hserver haccept
    rcases update_eq_some hserver with ⟨rfl, heq⟩ | ⟨hne, hold⟩
    · obtain rfl := Option.some.inj heq
      exact absurd haccept (by simp)
    · obtain ⟨c', active, hx, hc'⟩ := h.accepting sid server' x hold haccept
      have hxb : x ≠ b := by
        intro hxb
        rw [hxb, hb] at hx
        exact hne ((congrArg Buffer.server (Option.some.inj hx)).symm.trans hid)
      exact ⟨c', active, (Function.update_of_ne hxb _ _).trans hx, hc'⟩
  · intro x buf' hx
    obtain ⟨hne, hold⟩ := hbuf x buf' hx
    obtain ⟨server', hserver, haccept⟩ := h.owned x buf' hold
    exact ⟨server', (Function.update_of_ne (hother x buf' hne hold) _ _).trans hserver, haccept⟩
  · intro x buf' c' hx
    exact h.spare x buf' c' (hbuf x buf' hx).2
  · intro sid server' hserver
    rcases update_eq_some hserver with ⟨rfl, heq⟩ | ⟨-, hold⟩
    · obtain rfl := Option.some.inj heq
      exact h.clients sid server hs
    · exact h.clients sid server' hold
  · intro call hcall hfreed
    obtain ⟨hclient, hserver⟩ := h.there call hcall hfreed
    exact ⟨hclient, (hsome _).trans hserver⟩
  · intro x buf' hx
    exact h.active x buf' (hbuf x buf' hx).2
  · intro sid hsid
    have hne : sid ≠ id := by
      rintro rfl
      exact absurd (h.servers sid hsid) (by rw [hs]; simp)
    exact (Function.update_of_ne hne _ _).trans (h.servers sid hsid)
  · intro x hx
    have hxb : x ≠ b := Nat.ne_of_gt (Nat.lt_of_lt_of_le (h.lt_next hb) hx)
    exact (Function.update_of_ne hxb _ _).trans (h.buffers x hx)

/-- A client that no buffer has and nobody was handed is freed. -/
theorem Inv.dropClient (h : Inv s) (hbuf : ∀ b buf, s.buffer b = some buf → buf.parent ≠ some c)
    (hcalls : c ∉ s.accepted.map Call.client) : Inv (s.setClient c none) := by
  refine { h with accepting := ?_, there := ?_, parents := ?_ }
  · intro sid server' x hserver haccept
    obtain ⟨c', active, hx, hc'⟩ := h.accepting sid server' x hserver haccept
    have hne : c' ≠ c := fun heq => hbuf x _ hx (congrArg some heq)
    exact ⟨c', active, hx, (Function.update_of_ne hne _ _).trans hc'⟩
  · intro call hcall hfreed
    obtain ⟨hclient, hserver⟩ := h.there call hcall hfreed
    have hne : call.client ≠ c := fun heq => hcalls (heq ▸ List.mem_map_of_mem hcall)
    exact ⟨(Function.update_of_ne hne _ _).trans hclient, hserver⟩
  · intro x hx
    by_cases hxc : x = c
    · rw [hxc]
      exact Function.update_self ..
    · exact (Function.update_of_ne hxc _ _).trans (h.parents x hx)

/-- A server without clients, whose accepting has ended, is freed. -/
theorem Inv.dropServer (h : Inv s) (hs : s.server id = some server) (ha : server.acceptBuffer = none)
    (hempty : server.clientList = []) :
    Inv { s.setServer id none with serverList := s.serverList.erase id, numListen := s.numListen - 1 } := by
  have hopen : s.open id = [] := (h.clients id server hs).symm.trans hempty
  have hmem : id ∈ s.serverList := (h.listed id).mpr (by rw [hs]; rfl)
  have hserver : ∀ sid server', Function.update s.server id none sid = some server' → sid ≠ id ∧ s.server sid = some server' := by
    intro sid server' hsid
    rcases update_eq_some hsid with ⟨-, heq⟩ | hold
    · exact absurd heq (by simp)
    · exact hold
  refine { h with
    nodup := h.nodup.erase id, listed := ?_, accepting := ?_, owned := ?_, clients := ?_, there := ?_, listening := ?_,
    servers := ?_ }
  · intro sid
    by_cases hid : sid = id
    · subst hid
      refine iff_of_false h.nodup.not_mem_erase ?_
      rw [show ({ s.setServer sid none with
          serverList := s.serverList.erase sid, numListen := s.numListen - 1 } : State).server sid = none from
        Function.update_self ..]
      exact Bool.false_ne_true
    · rw [List.mem_erase_of_ne hid, h.listed sid]
      exact iff_of_eq (congrArg (fun o => Option.isSome o = true) (Function.update_of_ne hid _ _).symm)
  · intro sid server' x hsid haccept
    exact h.accepting sid server' x (hserver sid server' hsid).2 haccept
  · intro x buf hx
    obtain ⟨server', hold, haccept⟩ := h.owned x buf hx
    have hne : buf.server ≠ id := by
      intro heq
      rw [heq, hs] at hold
      rw [← Option.some.inj hold, ha] at haccept
      exact absurd haccept (by simp)
    exact ⟨server', (Function.update_of_ne hne _ _).trans hold, haccept⟩
  · intro sid server' hsid
    exact h.clients sid server' (hserver sid server' hsid).2
  · intro call hcall hfreed
    obtain ⟨hclient, hold⟩ := h.there call hcall hfreed
    have hne : call.server ≠ id := by
      intro heq
      have hin : call.client ∈ s.open id := by
        unfold State.open
        refine List.mem_filter.mpr ⟨List.mem_map_of_mem (List.mem_filter.mpr ⟨hcall, decide_eq_true heq⟩), decide_eq_true hfreed⟩
      rw [hopen] at hin
      exact absurd hin List.not_mem_nil
    exact ⟨hclient, (congrArg Option.isSome (Function.update_of_ne hne _ _)).trans hold⟩
  · have hlen := List.length_erase_of_mem hmem
    have hpos := List.length_pos_of_mem hmem
    have hlisten := h.listening
    show s.numListen - 1 = ((s.serverList.erase id).length : Int)
    rw [hlen, hlisten]
    omega
  · intro sid hsid
    by_cases hid : sid = id
    · rw [hid]
      exact Function.update_self ..
    · exact (Function.update_of_ne hid _ _).trans (h.servers sid hsid)

/-- **A server is closed.** -/
theorem Inv.serverClose (h : Inv s) (hs : s.server id = some server) : Inv (hinServerClose s id) := by
  unfold hinServerClose
  rw [hs]
  dsimp only
  cases ha : server.acceptBuffer with
  | none =>
      dsimp only
      by_cases hempty : server.clientList = []
      · rw [if_neg (fun hne => hne hempty)]
        exact h.dropServer hs ha hempty
      · rwa [if_pos hempty]
  | some b =>
      obtain ⟨c, active, hb, hc⟩ := h.accepting id server b hs ha
      dsimp only
      rw [hb]
      dsimp only
      have hended := h.ended hb rfl hs
      have hdrop : Inv ((s.ended b id server).setClient c none) := by
        refine hended.dropClient ?_ (h.spare b _ c hb rfl)
        intro x buf hx hparent
        rcases update_eq_some hx with ⟨-, heq⟩ | ⟨hne, hold⟩
        · exact absurd heq (by simp)
        · -- the client of another buffer has another parent
          obtain ⟨c', server', hbuf, hclient, -⟩ := h.buffer hold
          rw [hbuf] at hparent
          obtain rfl := Option.some.inj hparent
          exact hne (h.buffer_unique hold hb (Option.some.inj (hclient.symm.trans hc)))
      have hserver : ((s.ended b id server).setClient c none).server id = some { server with acceptBuffer := none } :=
        Function.update_self ..
      by_cases hempty : server.clientList = []
      · rw [if_neg (fun hne => hne hempty)]
        exact hdrop.dropServer hserver rfl hempty
      · rw [if_pos hempty]
        exact hdrop

/-- A client in the list of a server has been handed on, and is there. -/
theorem Inv.listed_client (h : Inv s) (hs : s.server id = some server) (hc : c ∈ server.clientList) :
    c ∈ s.accepted.map Call.client ∧ c ∉ s.freed ∧ s.client c = some id := by
  rw [h.clients id server hs] at hc
  obtain ⟨hmem, hfreed⟩ := List.mem_filter.mp hc
  obtain ⟨call, hcall, rfl⟩ := List.mem_map.mp hmem
  obtain ⟨haccepted, hserver⟩ := List.mem_filter.mp hcall
  have hfreed : call.client ∉ s.freed := of_decide_eq_true hfreed
  obtain ⟨hclient, -⟩ := h.there call haccepted hfreed
  exact ⟨List.mem_map_of_mem haccepted, hfreed, (of_decide_eq_true hserver : call.server = id) ▸ hclient⟩

/-- A client is taken out of the list of its server, and freed. -/
def State.left (s : State) (id c : Nat) (server : Server) : State :=
  { (s.setServer id (some { server with clientList := server.clientList.erase c })).setClient c none with
    numClient := s.numClient - 1
    freed := s.freed ++ [c] }

theorem Inv.left (h : Inv s) (hs : s.server id = some server) (hc : c ∈ server.clientList) : Inv (s.left id c server) := by
  obtain ⟨haccepted, hfreed, hclient⟩ := h.listed_client hs hc
  have hsome : ∀ sid, ((s.left id c server).server sid).isSome = (s.server sid).isSome := update_isSome hs
  have hopen : ∀ sid, (s.left id c server).open sid = (s.open sid).filter (· ≠ c) := by
    intro sid
    unfold State.open
    rw [List.filter_filter]
    refine List.filter_congr fun x _ => ?_
    rw [Bool.and_comm, ← Bool.decide_and, decide_eq_decide]
    show x ∉ s.freed ++ [c] ↔ _
    rw [List.mem_append, List.mem_singleton, not_or]
  have hserver : ∀ sid server', (s.left id c server).server sid = some server' →
      ∃ old, s.server sid = some old ∧ server'.acceptBuffer = old.acceptBuffer := by
    intro sid server' hsid
    rcases update_eq_some hsid with ⟨rfl, heq⟩ | ⟨-, hold⟩
    · obtain rfl := Option.some.inj heq
      exact ⟨server, hs, rfl⟩
    · exact ⟨server', hold, rfl⟩
  refine { h with
    listed := ?_, accepting := ?_, owned := ?_, clients := ?_, there := ?_, freed := ?_, count := ?_, servers := ?_,
    parents := ?_ }
  · intro sid
    rw [hsome]
    exact h.listed sid
  · intro sid server' x hsid haccept
    obtain ⟨old, hold, hsame⟩ := hserver sid server' hsid
    obtain ⟨c', active, hx, hc'⟩ := h.accepting sid old x hold (hsame ▸ haccept)
    have hne : c' ≠ c := fun heq => h.spare x _ c hx (congrArg some heq) haccepted
    exact ⟨c', active, hx, (Function.update_of_ne hne _ _).trans hc'⟩
  · intro x buf hx
    obtain ⟨old, hold, haccept⟩ := h.owned x buf hx
    by_cases hid : buf.server = id
    · rw [hid] at hold ⊢
      obtain rfl := Option.some.inj (hs.symm.trans hold)
      exact ⟨_, Function.update_self .., haccept⟩
    · exact ⟨old, (Function.update_of_ne hid _ _).trans hold, haccept⟩
  · intro sid server' hsid
    rw [hopen]
    rcases update_eq_some hsid with ⟨rfl, heq⟩ | ⟨hne, hold⟩
    · obtain rfl := Option.some.inj heq
      dsimp only
      have hnodup : server.clientList.Nodup := by
        rw [h.clients sid server hs]
        exact ((h.once.sublist (List.filter_sublist.map _)).filter _)
      rw [hnodup.erase_eq_filter, h.clients sid server hs]
      refine List.filter_congr fun x _ => Bool.eq_iff_iff.mpr ?_
      rw [bne_iff_ne, decide_eq_true_iff]
    · -- the client is in no other list
      rw [h.clients sid server' hold]
      refine (List.filter_eq_self.mpr fun x hx => ?_).symm
      have hx : x ∈ server'.clientList := (h.clients sid server' hold) ▸ hx
      refine decide_eq_true ?_
      rintro rfl
      exact hne (Option.some.inj ((h.listed_client hold hx).2.2.symm.trans hclient))
  · intro call hcall hkept
    have hkept : call.client ∉ s.freed ++ [c] := hkept
    rw [List.mem_append, List.mem_singleton, not_or] at hkept
    obtain ⟨hold, hthere⟩ := h.there call hcall hkept.1
    exact ⟨(Function.update_of_ne hkept.2 _ _).trans hold, (hsome _).trans hthere⟩
  · refine ⟨?_, fun x hx => ?_⟩
    · exact List.nodup_append.mpr ⟨h.freed.1, List.nodup_singleton c, fun x hx y hy hxy =>
        hfreed ((hxy.trans (List.mem_singleton.mp hy)) ▸ hx)⟩
    · rcases List.mem_append.mp hx with hx | hx
      · exact h.freed.2 x hx
      · exact List.mem_singleton.mp hx ▸ haccepted
  · have hcount := h.count
    show s.numClient - 1 = (s.calls.length : Int) - (s.freed ++ [c]).length
    rw [List.length_append, List.length_singleton, hcount]
    push_cast
    omega
  · intro sid hsid
    have hne : sid ≠ id := by
      rintro rfl
      exact absurd (h.servers sid hsid) (by rw [hs]; simp)
    exact (Function.update_of_ne hne _ _).trans (h.servers sid hsid)
  · intro x hx
    by_cases hxc : x = c
    · rw [hxc]
      exact Function.update_self ..
    · exact (Function.update_of_ne hxc _ _).trans (h.parents x hx)

/-- **A client is closed.** -/
theorem Inv.clientClose (h : Inv s) (hs : s.server id = some server) (hc : c ∈ server.clientList) : Inv (hinClientClose s c) := by
  have hleft := h.left hs hc
  have hserver : (s.left id c server).server id = some { server with clientList := server.clientList.erase c } :=
    Function.update_self ..
  unfold hinClientClose
  rw [(h.listed_client hs hc).2.2]
  dsimp only
  rw [hs]
  dsimp only
  split
  · exact hleft
  · split
    · exact hleft
    · exact hleft.serverClose hserver

/-- **The timer.** -/
theorem Inv.reaccept (h : Inv s) {ids : List Nat} (hids : ∀ id ∈ ids, (s.server id).isSome) : Inv (hinServerReaccept s ids) := by
  induction ids generalizing s with
  | nil => exact h
  | cons id ids ih =>
      obtain ⟨server, hs⟩ := Option.isSome_iff_exists.mp (hids id List.mem_cons_self)
      have hrest : ∀ id ∈ ids, (s.server id).isSome := fun sid hsid => hids sid (List.mem_cons_of_mem _ hsid)
      unfold hinServerReaccept
      rw [hs]
      dsimp only
      cases ha : server.acceptBuffer with
      | none => exact ih h hrest
      | some b =>
          obtain ⟨c, active, hb, hc⟩ := h.accepting id server b hs ha
          dsimp only
          rw [hb]
          dsimp only
          cases active with
          | true => exact ih h hrest
          | false =>
              rw [if_neg Bool.false_ne_true, hinRequestAccept_idle hb hc]
              exact ih (h.requested hb) hrest

/-- A new server with its buffer, before its first request. -/
def State.opened (s : State) : State :=
  { ((s.setClient (s.next + 1) (some s.next)).setBuffer (s.next + 2) (some ⟨s.next, some (s.next + 1), false⟩)).setServer s.next
      (some { acceptBuffer := some (s.next + 2) }) with
    next := s.next + 3
    serverList := s.serverList ++ [s.next]
    numListen := s.numListen + 1 }

theorem Inv.opened (h : Inv s) : Inv s.opened := by
  have hnone : s.server s.next = none := h.servers _ (Nat.le_refl _)
  have hnot : s.next ∉ s.serverList := fun hmem => by
    have hsome := (h.listed _).mp hmem
    rw [hnone] at hsome
    exact absurd hsome (by simp)
  have hempty : s.open s.next = [] := by
    unfold State.open
    refine List.filter_eq_nil_iff.mpr fun c hc hkept => ?_
    obtain ⟨call, hcall, rfl⟩ := List.mem_map.mp hc
    obtain ⟨haccepted, hserver⟩ := List.mem_filter.mp hcall
    have hthere := (h.there call haccepted (of_decide_eq_true hkept)).2
    rw [(of_decide_eq_true hserver : call.server = s.next), hnone] at hthere
    exact absurd hthere (by simp)
  have hserver_ne : ∀ sid server', s.server sid = some server' → sid ≠ s.next := by
    rintro sid server' hsid rfl
    rw [hnone] at hsid
    exact absurd hsid (by simp)
  have hbuffer_ne : ∀ x buf, s.buffer x = some buf → x ≠ s.next + 2 := fun x buf hx =>
    Nat.ne_of_lt (Nat.lt_of_lt_of_le (h.lt_next hx) (Nat.le_add_right _ _))
  have hclient_ne : ∀ x sid, s.client x = some sid → x ≠ s.next + 1 := fun x sid hx =>
    Nat.ne_of_lt (Nat.lt_of_lt_of_le (h.client_lt hx) (Nat.le_add_right _ _))
  refine ⟨?_, ?_, ?_, ?_, ?_, h.once, ?_, ?_, h.freed, h.count, ?_, h.requests, ?_, ?_, ?_, ?_, ?_, h.weird, h.untouched⟩
  · -- nodup
    exact List.nodup_append.mpr ⟨h.nodup, List.nodup_singleton _, fun x hx y hy hxy =>
      hnot ((hxy.trans (List.mem_singleton.mp hy)) ▸ hx)⟩
  · -- listed
    intro sid
    show sid ∈ s.serverList ++ [s.next] ↔ (Function.update s.server s.next _ sid).isSome = true
    by_cases hid : sid = s.next
    · rw [hid, Function.update_self]
      exact iff_of_true (List.mem_append_right _ (List.mem_singleton.mpr rfl)) rfl
    · rw [Function.update_of_ne hid, List.mem_append, List.mem_singleton, or_iff_left hid]
      exact h.listed sid
  · -- accepting
    intro sid server' x hsid haccept
    rcases update_eq_some hsid with ⟨rfl, heq⟩ | ⟨-, hold⟩
    · obtain rfl := Option.some.inj heq
      obtain rfl := Option.some.inj haccept
      exact ⟨s.next + 1, false, Function.update_self .., Function.update_self ..⟩
    · obtain ⟨c', active, hx, hc'⟩ := h.accepting sid server' x hold haccept
      exact ⟨c', active, (Function.update_of_ne (hbuffer_ne x _ hx) _ _).trans hx,
        (Function.update_of_ne (hclient_ne c' _ hc') _ _).trans hc'⟩
  · -- owned
    intro x buf hx
    rcases update_eq_some hx with ⟨rfl, heq⟩ | ⟨-, hold⟩
    · obtain rfl := Option.some.inj heq
      exact ⟨_, Function.update_self .., rfl⟩
    · obtain ⟨server', hserver, haccept⟩ := h.owned x buf hold
      exact ⟨server', (Function.update_of_ne (hserver_ne _ _ hserver) _ _).trans hserver, haccept⟩
  · -- spare
    intro x buf c' hx hparent
    rcases update_eq_some hx with ⟨rfl, heq⟩ | ⟨-, hold⟩
    · obtain rfl := Option.some.inj heq
      obtain rfl := Option.some.inj hparent
      intro hmem
      obtain ⟨call, hcall, hclient⟩ := List.mem_map.mp hmem
      have hlt := h.names.2 call hcall
      omega
    · exact h.spare x buf c' hold hparent
  · -- clients
    intro sid server' hsid
    rcases update_eq_some hsid with ⟨rfl, heq⟩ | ⟨-, hold⟩
    · obtain rfl := Option.some.inj heq
      exact hempty.symm
    · exact h.clients sid server' hold
  · -- there
    intro call hcall hfreed
    obtain ⟨hclient, hthere⟩ := h.there call hcall hfreed
    obtain ⟨server', hserver⟩ := Option.isSome_iff_exists.mp hthere
    exact ⟨(Function.update_of_ne (hclient_ne _ _ hclient) _ _).trans hclient,
      (congrArg Option.isSome (Function.update_of_ne (hserver_ne _ _ hserver) _ _)).trans hthere⟩
  · -- listening
    have hlisten := h.listening
    show s.numListen + 1 = ((s.serverList ++ [s.next]).length : Int)
    rw [List.length_append, List.length_singleton, hlisten]
    rfl
  · -- active
    intro x buf hx
    rcases update_eq_some hx with ⟨rfl, heq⟩ | ⟨-, hold⟩
    · obtain rfl := Option.some.inj heq
      refine iff_of_false Bool.false_ne_true fun hmem => ?_
      have hlt := h.names.1 _ hmem
      omega
    · exact h.active x buf hold
  · -- servers
    intro sid hsid
    have hsid : s.next + 3 ≤ sid := hsid
    exact (Function.update_of_ne (by omega) _ _).trans (h.servers sid (by omega))
  · -- buffers
    intro x hx
    have hx : s.next + 3 ≤ x := hx
    exact (Function.update_of_ne (by omega) _ _).trans (h.buffers x (by omega))
  · -- parents
    intro x hx
    have hx : s.next + 3 ≤ x := hx
    exact (Function.update_of_ne (by omega) _ _).trans (h.parents x (by omega))
  · -- names
    refine ⟨fun x hx => ?_, fun call hcall => ?_⟩
    · have hlt := h.names.1 x hx
      show x < s.next + 3
      omega
    · have hlt := h.names.2 call hcall
      show call.client < s.next + 3
      omega

/-- **A server starts to accept.** -/
theorem hinServerStartAccept_spec (s : State) :
    hinServerStartAccept s = s.opened.requested (s.next + 2) s.next (s.next + 1) := by
  have hb : ({ s.opened with serverList := s.serverList, numListen := s.numListen } : State).buffer (s.next + 2) =
      some ⟨s.next, some (s.next + 1), false⟩ := Function.update_self ..
  have hc : ({ s.opened with serverList := s.serverList, numListen := s.numListen } : State).client (s.next + 1) = some s.next :=
    Function.update_self ..
  have hrequest := hinRequestAccept_idle hb hc
  unfold hinServerStartAccept hinServerCreateClient
  dsimp only
  unfold State.opened at hrequest
  unfold State.setServer State.setBuffer State.setClient at hrequest ⊢
  dsimp only at hrequest ⊢
  rw [hrequest]
  rfl

end

/-! ## What a step changes -/

/-- The connection an event brings, and whether it is refused. -/
def Event.connection : Event → Option (Int × Bool)
  | .complete _ ret cb => if ret < 0 then none else some (ret, decide (cb < 0))
  | _ => none

theorem connection_complete (b : Nat) (ret cb : Int) :
    (Event.complete b ret cb).connection = if ret < 0 then none else some (ret, decide (cb < 0)) := rfl

/-- The connections that were handed to `accept_callback`. -/
def State.connections (s : State) : List (Int × Bool) := s.calls.map fun call => (call.sockfd, call.refused)

/-- Nothing is handed on, no buffer loses its request, and no request its buffer. -/
structure Frame (s s' : State) : Prop where
  calls : s'.calls = s.calls
  idle : ∀ b buf, s'.buffer b = some buf → buf.active = false →
    ∃ buf', s.buffer b = some buf' ∧ buf'.active = false ∧ buf'.server = buf.server
  ring : ∀ b ∈ s'.ring, s'.buffer b = none → b ∈ s.ring ∧ s.buffer b = none

theorem Frame.refl (s : State) : Frame s s :=
  ⟨rfl, fun _ buf hb hidle => ⟨buf, hb, hidle, rfl⟩, fun _ hmem hb => ⟨hmem, hb⟩⟩

theorem Frame.trans {s₁ s₂ s₃ : State} (h : Frame s₁ s₂) (h' : Frame s₂ s₃) : Frame s₁ s₃ := by
  refine ⟨h'.calls.trans h.calls, fun b buf hb hidle => ?_, fun b hmem hb => ?_⟩
  · obtain ⟨buf', hb', hidle', hserver'⟩ := h'.idle b buf hb hidle
    obtain ⟨buf'', hb'', hidle'', hserver''⟩ := h.idle b buf' hb' hidle'
    exact ⟨buf'', hb'', hidle'', hserver''.trans hserver'⟩
  · obtain ⟨hmem', hb'⟩ := h'.ring b hmem hb
    exact h.ring b hmem' hb'

theorem Frame.of_eq {s s' : State} (hcalls : s'.calls = s.calls) (hbuffer : s'.buffer = s.buffer) (hring : s'.ring = s.ring) :
    Frame s s' := by
  refine ⟨hcalls, fun b buf hb hidle => ⟨buf, hbuffer ▸ hb, hidle, rfl⟩, fun b hmem hb => ⟨hring ▸ hmem, hbuffer ▸ hb⟩⟩

section

variable {s : State} {b id c : Nat} {server : Server}

theorem Frame.requested (s : State) (b id c : Nat) : Frame s (s.requested b id c) := by
  refine ⟨rfl, fun x buf hx hidle => ?_, fun x hmem hx => ?_⟩
  · rcases update_eq_some hx with ⟨-, heq⟩ | ⟨-, hold⟩
    · obtain rfl := Option.some.inj heq
      exact absurd hidle (by simp)
    · exact ⟨buf, hold, hidle, rfl⟩
  · have hne : x ≠ b := by
      rintro rfl
      rw [show (s.requested x id c).buffer x = some ⟨id, some c, true⟩ from Function.update_self ..] at hx
      exact absurd hx (by simp)
    refine ⟨?_, (Function.update_of_ne hne _ _).symm.trans hx⟩
    rcases List.mem_append.mp hmem with hmem | hmem
    · exact hmem
    · exact absurd (List.mem_singleton.mp hmem) hne

/-- **The timer puts all requests again.** -/
theorem Inv.reaccept_frame (h : Inv s) {ids : List Nat} (hids : ∀ id ∈ ids, (s.server id).isSome) :
    Frame s (hinServerReaccept s ids) ∧
      ∀ b buf, (hinServerReaccept s ids).buffer b = some buf → buf.active = false → buf.server ∉ ids := by
  induction ids generalizing s with
  | nil => exact ⟨.refl s, fun _ _ _ _ => List.not_mem_nil⟩
  | cons id ids ih =>
      obtain ⟨server, hs⟩ := Option.isSome_iff_exists.mp (hids id List.mem_cons_self)
      have hrest : ∀ id ∈ ids, (s.server id).isSome := fun sid hsid => hids sid (List.mem_cons_of_mem _ hsid)
      -- a buffer of this server has had its request when the others had their turn
      have hall : ∀ s', Inv s' → s'.server = s.server → (∀ b buf, server.acceptBuffer = some b → s'.buffer b = some buf →
          buf.active = true) → ∀ b buf, (hinServerReaccept s' ids).buffer b = some buf → buf.active = false →
          buf.server ∉ id :: ids := by
        intro s' h' hserver hactive b buf hb hidle hmem
        obtain ⟨hframe, hothers⟩ := ih h' (hserver ▸ hrest)
        rcases List.mem_cons.mp hmem with heq | hmem
        · obtain ⟨buf', hb', hidle', hserver'⟩ := hframe.idle b buf hb hidle
          obtain ⟨server', hs', haccept⟩ := h'.owned b buf' hb'
          rw [hserver', heq, hserver, hs] at hs'
          obtain rfl := Option.some.inj hs'
          exact absurd (hidle'.symm.trans (hactive b buf' haccept hb')) (by simp)
        · exact hothers b buf hb hidle hmem
      unfold hinServerReaccept
      rw [hs]
      dsimp only
      cases ha : server.acceptBuffer with
      | none => exact ⟨(ih h hrest).1, hall s h rfl fun b buf hb => absurd (ha.symm.trans hb) (by simp)⟩
      | some b =>
          obtain ⟨c, active, hb, hc⟩ := h.accepting id server b hs ha
          dsimp only
          rw [hb]
          dsimp only
          cases active with
          | true =>
              refine ⟨(ih h hrest).1, hall s h rfl fun x buf hx hbuf => ?_⟩
              obtain rfl := Option.some.inj (ha.symm.trans hx)
              rw [hb] at hbuf
              exact congrArg Buffer.active (Option.some.inj hbuf).symm
          | false =>
              rw [if_neg Bool.false_ne_true, hinRequestAccept_idle hb hc]
              refine ⟨(Frame.requested s b id c).trans (ih (h.requested hb) hrest).1,
                hall (s.requested b id c) (h.requested hb) rfl fun x buf hx hbuf => ?_⟩
              obtain rfl := Option.some.inj (ha.symm.trans hx)
              have hself : (s.requested b id c).buffer b = some ⟨id, some c, true⟩ := Function.update_self ..
              exact congrArg Buffer.active (Option.some.inj (hself.symm.trans hbuf)).symm

/-- A new server has its request at once. -/
theorem Frame.listen (s : State) : Frame s (hinServerStartAccept s) := by
  have hbuf : ∀ x, x ≠ s.next + 2 → (s.opened.requested (s.next + 2) s.next (s.next + 1)).buffer x = s.buffer x :=
    fun x hne => (Function.update_of_ne hne _ _).trans (Function.update_of_ne hne _ _)
  rw [hinServerStartAccept_spec]
  refine ⟨rfl, fun x buf hx hidle => ?_, fun x hmem hx => ?_⟩
  · rcases update_eq_some hx with ⟨-, heq⟩ | ⟨hne, -⟩
    · obtain rfl := Option.some.inj heq
      exact absurd hidle (by simp)
    · exact ⟨buf, (hbuf x hne).symm.trans hx, hidle, rfl⟩
  · have hne : x ≠ s.next + 2 := by
      intro heq
      rw [heq, show (s.opened.requested (s.next + 2) s.next (s.next + 1)).buffer (s.next + 2) =
        some ⟨s.next, some (s.next + 1), true⟩ from Function.update_self ..] at hx
      exact absurd hx (by simp)
    refine ⟨?_, (hbuf x hne).symm.trans hx⟩
    rcases List.mem_append.mp hmem with hmem | hmem
    · exact hmem
    · exact absurd (List.mem_singleton.mp hmem) hne

/-- Closing a server hands nothing on, and puts no request. -/
theorem Inv.serverClose_frame (h : Inv s) (hs : s.server id = some server) : (hinServerClose s id).calls = s.calls ∧
    (∀ b buf, (hinServerClose s id).buffer b = some buf → s.buffer b = some buf) ∧
    (server.acceptBuffer = none → Frame s (hinServerClose s id)) := by
  unfold hinServerClose
  rw [hs]
  dsimp only
  cases ha : server.acceptBuffer with
  | none =>
      dsimp only
      split
      · exact ⟨rfl, fun _ _ hb => hb, fun _ => .refl s⟩
      · exact ⟨rfl, fun _ _ hb => hb, fun _ => .of_eq rfl rfl rfl⟩
  | some b =>
      obtain ⟨c, active, hb, -⟩ := h.accepting id server b hs ha
      dsimp only
      rw [hb]
      dsimp only
      have hless : ∀ x buf, Function.update s.buffer b none x = some buf → s.buffer x = some buf := by
        intro x buf hx
        rcases update_eq_some hx with ⟨-, heq⟩ | ⟨-, hold⟩
        · exact absurd heq (by simp)
        · exact hold
      split
      · exact ⟨rfl, hless, fun hnone => absurd hnone (by simp)⟩
      · exact ⟨rfl, hless, fun hnone => absurd hnone (by simp)⟩

/-- A client that is closed takes nothing of a buffer with it. -/
theorem Inv.clientClose_frame (h : Inv s) (hs : s.server id = some server) (hc : c ∈ server.clientList) :
    Frame s (hinClientClose s c) := by
  have hleft : Frame s (s.left id c server) := .of_eq rfl rfl rfl
  have hserver : (s.left id c server).server id = some { server with clientList := server.clientList.erase c } :=
    Function.update_self ..
  unfold hinClientClose
  rw [(h.listed_client hs hc).2.2]
  dsimp only
  rw [hs]
  dsimp only
  split
  · exact hleft
  · split
    · exact hleft
    · rename_i hnone
      exact hleft.trans (((h.left hs hc).serverClose_frame hserver).2.2 (not_not.mp hnone))

/-- **What a completion does**, and what it changes: it brings one connection or none, and its buffer has a request again, is
    gone, or waits for the timer. -/
theorem Inv.complete (h : Inv s) (hmem : b ∈ s.ring) {buf : Buffer} (hb : s.buffer b = some buf) (ret cb : Int) :
    let s' := complete { s with ring := s.ring.erase b } b ret cb
    Inv s' ∧ s'.connections = s.connections ++ (Event.complete b ret cb).connection.toList ∧
      (∀ x, x ≠ b → s'.buffer x = s.buffer x ∧ (x ∈ s'.ring → x ∈ s.ring)) ∧
      (s'.buffer b = none → b ∉ s'.ring) ∧
      ∀ buf', s'.buffer b = some buf' → buf'.active = false → ret < 0 ∧ reaction ret = .slowDown := by
  intro s'
  obtain ⟨c, server, hbuf, hc, hs, ha⟩ := h.buffer hb
  rw [(h.active b buf hb).mpr hmem] at hbuf
  obtain ⟨id, hid⟩ : ∃ id, id = buf.server := ⟨_, rfl⟩
  rw [← hid] at hbuf hc hs
  rw [hbuf] at hb
  have hs' : s' = _ := complete_spec hb hc hs ha ret cb
  have hanswered := h.answered hb
  have hb₀ : (s.answered b id c).buffer b = some ⟨id, some c, false⟩ := Function.update_self ..
  have hs₀ : (s.answered b id c).server id = some server := hs
  have hc₀ : (s.answered b id c).client c = some id := hc
  have hbuf₀ : ∀ x, x ≠ b → (s.answered b id c).buffer x = s.buffer x := fun x hne => Function.update_of_ne hne _ _
  have hring₀ : ∀ x, x ∈ (s.answered b id c).ring → x ∈ s.ring := fun x hx => List.mem_of_mem_erase hx
  have hgone : b ∉ (s.answered b id c).ring := h.requests.not_mem_erase
  -- a request that is put again
  have hagain : ∀ (t : State) (c' : Nat), (∀ x, x ≠ b → t.buffer x = s.buffer x ∧ (x ∈ t.ring → x ∈ s.ring)) →
      (∀ x, x ≠ b → (t.requested b id c').buffer x = s.buffer x ∧ (x ∈ (t.requested b id c').ring → x ∈ s.ring)) ∧
      ((t.requested b id c').buffer b = none → b ∉ (t.requested b id c').ring) ∧
      ∀ buf', (t.requested b id c').buffer b = some buf' → buf'.active = false → ret < 0 ∧ reaction ret = .slowDown := by
    intro t c' ht
    have hself : (t.requested b id c').buffer b = some ⟨id, some c', true⟩ := Function.update_self ..
    refine ⟨fun x hne => ⟨(Function.update_of_ne hne _ _).trans (ht x hne).1, fun hx => ?_⟩, fun hnone => ?_, fun buf' hx hidle => ?_⟩
    · rcases List.mem_append.mp hx with hx | hx
      · exact (ht x hne).2 hx
      · exact absurd (List.mem_singleton.mp hx) hne
    · exact absurd (hself.symm.trans hnone) (by simp)
    · obtain rfl := Option.some.inj (hself.symm.trans hx)
      exact absurd hidle (by simp)
  by_cases hret : ret < 0
  · have hconn : (Event.complete b ret cb).connection.toList = [] := by
      rw [connection_complete, if_pos hret]
      rfl
    obtain ⟨r, hr⟩ : ∃ r, r = reaction ret := ⟨_, rfl⟩
    rw [if_pos hret, ← hr] at hs'
    rw [hconn, List.append_nil]
    cases r with
    | retry =>
        dsimp only at hs'
        rw [hs']
        exact ⟨hanswered.requested hb₀, rfl, hagain _ c fun x hne => ⟨hbuf₀ x hne, hring₀ x⟩⟩
    | slowDown =>
        dsimp only at hs'
        rw [hs']
        exact ⟨hanswered, rfl, fun x hne => ⟨hbuf₀ x hne, hring₀ x⟩, fun _ => hgone, fun _ _ _ => ⟨hret, hr.symm⟩⟩
    | fatal =>
        dsimp only at hs'
        rw [hs']
        refine ⟨hanswered.ended hb₀ rfl hs₀, rfl, fun x hne => ⟨(Function.update_of_ne hne _ _).trans (hbuf₀ x hne), hring₀ x⟩,
          fun _ => hgone, fun buf' hx => ?_⟩
        rcases update_eq_some hx with ⟨-, heq⟩ | ⟨hne, -⟩
        · exact absurd heq (by simp)
        · exact absurd rfl hne
  · rw [if_neg hret] at hs'
    by_cases hcb : cb < 0
    · have hconn : (Event.complete b ret cb).connection.toList = [(ret, true)] := by
        rw [connection_complete, if_neg hret, decide_eq_true hcb]
        rfl
      rw [if_pos hcb] at hs'
      rw [hs', hconn]
      refine ⟨(hanswered.refusal id c ret).requested hb₀, List.map_append .., ?_⟩
      exact hagain ((s.answered b id c).called id c ret true) c fun x hne => ⟨hbuf₀ x hne, hring₀ x⟩
    · have hconn : (Event.complete b ret cb).connection.toList = [(ret, false)] := by
        rw [connection_complete, if_neg hret, decide_eq_false hcb]
        rfl
      rw [if_neg hcb] at hs'
      rw [hs', hconn]
      have hself : ((s.answered b id c).handedOn b id c server ret).buffer b = some ⟨id, some s.next, false⟩ :=
        Function.update_self ..
      refine ⟨(hanswered.handedOn hb₀ hc₀ hs₀ ha ret).requested hself, List.map_append .., ?_⟩
      exact hagain _ s.next fun x hne => ⟨(Function.update_of_ne hne _ _).trans (hbuf₀ x hne), hring₀ x⟩

end

/-! ## Runs -/

/-- **What the events say**: the connections that came in are the ones that were handed on, in order; a buffer without a request
    waits for the timer, since the server ran out of something; and a request without a buffer is that of a server that was
    closed. -/
structure Told (es : List Event) (s : State) : Prop where
  connections : s.connections = es.filterMap Event.connection
  waiting : ∀ b buf, s.buffer b = some buf → buf.active = false → ∃ before ret cb after,
    es = before ++ .complete b ret cb :: after ∧ ret < 0 ∧ reaction ret = .slowDown ∧ .tick ∉ after
  closed : ∀ b ∈ s.ring, s.buffer b = none → ∃ id, .serverClose id ∈ es

theorem Told.of_frame {es : List Event} {s s' : State} {e : Event} (h : Told es s) (hframe : Frame s s')
    (hconn : e.connection = none) (htick : e ≠ .tick) : Told (es ++ [e]) s' := by
  refine ⟨?_, fun b buf hb hidle => ?_, fun b hmem hb => ?_⟩
  · rw [List.filterMap_append, ← h.connections, List.filterMap_cons_none hconn, List.filterMap_nil, List.append_nil]
    unfold State.connections
    rw [hframe.calls]
  · obtain ⟨buf', hb', hidle', -⟩ := hframe.idle b buf hb hidle
    obtain ⟨before, ret, cb, after, rfl, hret, hslow, hafter⟩ := h.waiting b buf' hb' hidle'
    refine ⟨before, ret, cb, after ++ [e], by simp, hret, hslow, ?_⟩
    rw [List.mem_append, List.mem_singleton, not_or]
    exact ⟨hafter, fun heq => htick heq.symm⟩
  · obtain ⟨hmem', hb'⟩ := hframe.ring b hmem hb
    obtain ⟨id, hid⟩ := h.closed b hmem' hb'
    exact ⟨id, List.mem_append_left _ hid⟩

/-- **One event.** -/
theorem step_told {es : List Event} {s s' : State} {e : Event} (h : Inv s) (ht : Told es s) (hg : Answered s e)
    (hs : step s e = some s') : Inv s' ∧ Told (es ++ [e]) s' := by
  have hids : ∀ id ∈ s.serverList, (s.server id).isSome := fun id hid => (h.listed id).mp hid
  cases e with
  | listen =>
      obtain rfl := Option.some.inj hs
      refine ⟨?_, ht.of_frame (.listen s) rfl (by simp)⟩
      rw [hinServerStartAccept_spec]
      exact h.opened.requested (Function.update_self ..)
  | complete b ret cb =>
      unfold step at hs
      dsimp only at hs
      split at hs
      swap
      · exact absurd hs (by simp)
      rename_i hmem
      obtain rfl := Option.some.inj hs
      obtain ⟨buf, hb⟩ := Option.isSome_iff_exists.mp hg
      obtain ⟨hinv, hconn, hothers, hgone, hslow⟩ := h.complete hmem hb ret cb
      refine ⟨hinv, ?_, fun x buf' hx hidle => ?_, fun x hx hnone => ?_⟩
      · rw [hconn, ht.connections, List.filterMap_append, List.filterMap_cons, List.filterMap_nil]
        cases (Event.complete b ret cb).connection <;> rfl
      · by_cases hxb : x = b
        · subst hxb
          obtain ⟨hret, hreaction⟩ := hslow buf' hx hidle
          exact ⟨es, ret, cb, [], rfl, hret, hreaction, List.not_mem_nil⟩
        · obtain ⟨before, ret', cb', after, rfl, hret, hreaction, hafter⟩ :=
            ht.waiting x buf' ((hothers x hxb).1.symm.trans hx) hidle
          refine ⟨before, ret', cb', after ++ [.complete b ret cb], by simp, hret, hreaction, ?_⟩
          simpa using hafter
      · by_cases hxb : x = b
        · subst hxb
          exact absurd hx (hgone hnone)
        · obtain ⟨hsame, hring⟩ := hothers x hxb
          obtain ⟨id, hid⟩ := ht.closed x (hring hx) (hsame.symm.trans hnone)
          exact ⟨id, List.mem_append_left _ hid⟩
  | tick =>
      obtain rfl := Option.some.inj hs
      obtain ⟨hframe, hall⟩ := h.reaccept_frame hids
      have hinv := h.reaccept hids
      refine ⟨hinv, ?_, fun b buf hb hidle => ?_, fun b hmem hb => ?_⟩
      · rw [List.filterMap_append, ← ht.connections]
        unfold State.connections
        rw [hframe.calls]
        exact (List.append_nil _).symm
      · -- every server is in the list, so none of the buffers is without a request
        obtain ⟨buf', hb', -, hserver⟩ := hframe.idle b buf hb hidle
        obtain ⟨server, hsome, -⟩ := h.owned b buf' hb'
        refine absurd ?_ (hall b buf hb hidle)
        rw [← hserver]
        exact (h.listed _).mpr (by rw [hsome]; rfl)
      · obtain ⟨hmem', hb'⟩ := hframe.ring b hmem hb
        obtain ⟨id, hid⟩ := ht.closed b hmem' hb'
        exact ⟨id, List.mem_append_left _ hid⟩
  | clientClose c =>
      unfold step at hs
      dsimp only at hs
      split at hs
      swap
      · exact absurd hs (by simp)
      rename_i hmem
      obtain rfl := Option.some.inj hs
      obtain ⟨id, server, hserver, hc⟩ : ∃ id server, s.server id = some server ∧ c ∈ server.clientList := by
        cases hparent : s.client c with
        | none =>
            rw [hparent] at hmem
            exact absurd hmem List.not_mem_nil
        | some id =>
            rw [hparent, Option.bind_some] at hmem
            cases hserver : s.server id with
            | none =>
                rw [hserver] at hmem
                exact absurd hmem List.not_mem_nil
            | some server =>
                rw [hserver] at hmem
                exact ⟨id, server, hserver, hmem⟩
      exact ⟨h.clientClose hserver hc, ht.of_frame (h.clientClose_frame hserver hc) rfl (by simp)⟩
  | serverClose id =>
      unfold step at hs
      dsimp only at hs
      split at hs
      swap
      · exact absurd hs (by simp)
      rename_i hmem
      obtain rfl := Option.some.inj hs
      obtain ⟨server, hserver⟩ := Option.isSome_iff_exists.mp (hids id hmem)
      obtain ⟨hcalls, hbuffer, -⟩ := h.serverClose_frame hserver
      refine ⟨h.serverClose hserver, ?_, fun b buf hb hidle => ?_, fun _ _ _ => ⟨id, by simp⟩⟩
      · rw [List.filterMap_append, ← ht.connections]
        unfold State.connections
        rw [hcalls]
        exact (List.append_nil _).symm
      · obtain ⟨before, ret, cb, after, rfl, hret, hslow, hafter⟩ := ht.waiting b buf (hbuffer b buf hb) hidle
        refine ⟨before, ret, cb, after ++ [.serverClose id], by simp, hret, hslow, ?_⟩
        simpa using hafter

/-- The clients that were handed on and have not been closed. -/
def State.present (s : State) : List Nat := (s.accepted.map Call.client).filter fun c => c ∉ s.freed

/-- **What is counted**: the clients that are there, and one for every connection that was ever refused. -/
theorem Inv.counted {s : State} (h : Inv s) : s.numClient = s.present.length + s.refused.length := by
  have hcalls : s.calls.length = s.accepted.length + s.refused.length := by
    rw [List.length_eq_length_filter_add fun call : Call => !call.refused]
    congr 1
    unfold State.refused
    simp only [Bool.not_not]
  have hsplit : (s.accepted.map Call.client).length =
      ((s.accepted.map Call.client).filter fun c => c ∈ s.freed).length + s.present.length := by
    rw [List.length_eq_length_filter_add fun c => decide (c ∈ s.freed)]
    congr 1
    unfold State.present
    simp only [decide_not]
  have hfreed : ((s.accepted.map Call.client).filter fun c => c ∈ s.freed).length = s.freed.length := by
    refine ((List.perm_ext_iff_of_nodup (h.once.filter _) h.freed.1).mpr fun c => ?_).length_eq
    rw [List.mem_filter, decide_eq_true_iff]
    exact ⟨And.right, fun hc => ⟨h.freed.2 c hc, hc⟩⟩
  have hcount := h.count
  rw [List.length_map] at hsplit
  omega

/-- **Connections are served.** -/
structure Serves (es : List Event) (s : State) : Prop where
  untouched : s.touched = false
  requests : s.weird = List.replicate s.refused.length 432526654     -- a request is never refused
  connections : s.connections = es.filterMap Event.connection
  own : (s.accepted.map Call.client).Nodup
  lists : ∀ id server, s.server id = some server → server.clientList = s.open id
  counted : s.numClient = s.present.length + s.refused.length
  listening : s.numListen = s.serverList.length
  accepting : ∀ id server b, s.server id = some server → server.acceptBuffer = some b → (s.buffer b).isSome ∧
    (s.ring.count b = 1 ∨ s.ring.count b = 0 ∧ ∃ before ret cb after,
      es = before ++ .complete b ret cb :: after ∧ ret < 0 ∧ reaction ret = .slowDown ∧ .tick ∉ after)
  closed : ∀ b ∈ s.ring, s.buffer b = none → ∃ id, .serverClose id ∈ es

/-- **The accept loop**, in every run in which no request of a closed server is completed. Every connection is handed on once, in
    order, in a client of its own that stands in the list of its server until it is closed. A server that accepts has one request
    in the kernel, or ran out of something since the last tick; requests without a buffer are left behind by closed servers only. -/
theorem connections_served {es : List Event} {s : State} (hrun : Lib.RunWith step Answered {} es s) : Serves es s := by
  obtain ⟨h, ht⟩ : Inv s ∧ Told es s := by
    refine hrun.invariant_trace (I := fun es s => Inv s ∧ Told es s) ?_ fun es s e s' h hg hs => step_told h.1 h.2 hg hs
    exact ⟨inv_init, rfl, fun _ _ hb => absurd hb (by simp), fun _ hmem => absurd hmem List.not_mem_nil⟩
  refine ⟨h.untouched, h.weird, ht.connections, h.once, h.clients, h.counted, h.listening, ?_, ht.closed⟩
  intro id server b hs ha
  obtain ⟨c, active, hb, -⟩ := h.accepting id server b hs ha
  refine ⟨by rw [hb]; rfl, ?_⟩
  cases active with
  | true => exact .inl (List.count_eq_one_of_mem h.requests ((h.active b _ hb).mp rfl))
  | false =>
      have hout : b ∉ s.ring := fun hmem => Bool.false_ne_true ((h.active b _ hb).mpr hmem)
      exact .inr ⟨List.count_eq_zero_of_not_mem hout, ht.waiting b _ hb rfl⟩

instance (s : State) : DecidablePred (Answered s)
  | .complete b _ _ => inferInstanceAs (Decidable ((s.buffer b).isSome = true))
  | .listen | .tick | .clientClose _ | .serverClose _ => inferInstanceAs (Decidable True)

/-- A connection, one that there is no descriptor for, and the timer. -/
def busyServer : List Event := [.listen, .complete 2 7 0, .complete 2 (-24) 0, .tick, .clientClose 1, .complete 2 8 (-1)]

theorem connections_served_sample : ∃ s, Lib.RunWith step Answered {} busyServer s ∧ s.connections = [(7, false), (8, true)] ∧
    s.ring = [2] ∧ Serves busyServer s := by
  have hexec : (Lib.execWith step (fun s e => decide (Answered s e)) {} busyServer).map (fun s => (s.connections, s.ring)) =
      some ([(7, false), (8, true)], [2]) := by decide
  obtain ⟨s, hs, hresult⟩ := Option.map_eq_some_iff.mp hexec
  have hrun := Lib.RunWith.of_exec (fun _ _ h => of_decide_eq_true h) busyServer hs
  exact ⟨s, hrun, congrArg Prod.fst hresult, congrArg Prod.snd hresult, connections_served hrun⟩

/-- **A stopped server still accepts**: the request it left in the kernel is completed for a buffer that has been freed. -/
theorem accept_behind_stop : ∃ s, Lib.Run step {} [.listen, .complete 2 7 0, .serverClose 0, .complete 2 8 0] s ∧
    s.touched = true := by
  have hexec : (Lib.execWith step (fun _ _ => true) {} [.listen, .complete 2 7 0, .serverClose 0, .complete 2 8 0]).map
      State.touched = some true := by decide
  obtain ⟨s, hs, htouched⟩ := Option.map_eq_some_iff.mp hexec
  exact ⟨s, Lib.RunWith.of_exec (fun _ _ _ => trivial) _ hs, htouched⟩

end Accept
end Netcode
end Hin9
