import Hin9.Lib.Runs

/-!
# `Netcode.Stop` — the end of the servers (`hin.c`, `server.c`, `restart.c`)

`hin_stop` walks the list of servers with a saved pointer to the next one, and closes each of them. A server without clients is
freed at once, the others with their last client. Whoever frees a server asks `hin_check_alive` whether everything is over, and
that function stops the servers itself when the restarted child has said it is up. So a walk can be overtaken by another one,
which frees the server that the first one wants to go on with.

Every walk leaves the servers that have clients, in their order, and `Swept` says so. It is all that one walk has to know of the
other one.
-/

namespace Hin9
namespace Netcode
namespace Stop

/-! ## The servers -/

/-- `hin_server_t`. -/
structure Server where
  clients : Nat                     -- how many are in client_list
  accept : Bool := true             -- accept_buffer is not NULL
deriving Repr, DecidableEq

/-- `hin_master_t`. -/
structure Master where
  all : List Nat                    -- the servers there were at the start
  servers : List Nat                -- server_list
  server : Nat → Option Server      -- what has not been freed
  quit : Bool := false              -- HIN_FLAG_QUIT
  restarting : Bool := false        -- HIN_RESTARTING
  finish : Bool := false            -- HIN_FLAG_FINISH
  done : Int := 0                   -- share->done
  env : List (Option Int) := []     -- what the child writes there before the next looks at it
  connections : Int := 0            -- num_connection
  live : Nat := 0                   -- the connections to upstream servers that have been counted
  uncounted : Nat := 0              -- those that have not
  closed : List (Nat × Nat) := []   -- the servers that were freed, with the number of clients they had
  touched : Bool := false           -- a server was looked at that has been freed
  early : Bool := false             -- HIN_FLAG_FINISH was set with something left

namespace Master

variable (m : Master)

def setServer (id : Nat) (server : Option Server) : Master := { m with server := Function.update m.server id server }

/-- The number of clients of a server. -/
def clientsOf (id : Nat) : Nat := ((m.server id).map Server.clients).getD 0

/-- The child may write to `share->done` at any time, so also just before it is looked at. -/
def look : Master := { m with done := m.env.head?.join.getD m.done, env := m.env.tail }

/-- Where `hin_check_alive` sets `HIN_FLAG_FINISH`. -/
def finishUp : Master :=
  if m.quit = false then m
  else if m.servers ≠ [] ∨ m.connections ≠ 0 then m
  else { m with
    finish := true
    early := m.early || decide (m.live ≠ 0) || m.all.any fun id => (m.server id).isSome }

end Master

/-- The element behind one of a list. -/
def nextOf (l : List Nat) (id : Nat) : Option Nat := (l.dropWhile (· ≠ id)).tail.head?

section

variable (checkAlive : Master → Option Master)

/-- `hin_server_close`. -/
def hinServerClose (m : Master) (id : Nat) : Option Master :=
  match m.server id with
  | none => some { m with touched := true }
  | some server =>
      let m := m.setServer id (some { server with accept := false })
      if server.clients ≠ 0 then some m
      else checkAlive { m.setServer id none with
        servers := m.servers.erase id
        closed := m.closed ++ [(id, server.clients)] }

/-- The loop of `hin_stop`. -/
def stopLoop : Nat → Option Nat → Master → Option Master
  | _, none, m => some m
  | 0, some _, _ => none
  | fuel + 1, some id, m =>
      match m.server id with
      | none => some { m with touched := true }
      | some _ =>
          let elem := nextOf m.servers id
          (hinServerClose checkAlive m id).bind (stopLoop fuel elem)

/-- `hin_stop`. -/
def hinStop (m : Master) : Option Master :=
  let m := { m with quit := true }
  match m.servers.head? with
  | none => checkAlive m
  | some id => stopLoop checkAlive m.servers.length (some id) m

/-- `hin_client_close`. The client is in the list of its server. -/
def hinClientClose (m : Master) (id : Nat) : Option Master :=
  match m.server id with
  | none => some { m with touched := true }
  | some server =>
      let server := { server with clients := server.clients - 1 }
      let m := m.setServer id (some server)
      if server.clients ≠ 0 then some m
      else if server.accept then some m
      else hinServerClose checkAlive m id

end

/-- `hin_check_alive`, which is called again by the functions it calls. -/
def hinCheckAlive : Nat → Master → Option Master
  | 0, _ => none
  | depth + 1, m =>
      let m := if m.restarting then m.look else m
      (if m.restarting then
        if m.done = 0 then some m
        else if m.done > 0 then hinStop (hinCheckAlive depth) { m with done := 0, restarting := false }
        else some { m with done := 0 }
      else some m).map Master.finishUp

/-! ## Runs -/

inductive Event where
  | accept (id : Nat)                                       -- a client has connected
  | acceptFailed (id : Nat)                                 -- accept failed for good
  | clientClose (id : Nat) (env : List (Option Int))        -- hin_client_close
  | stop (env : List (Option Int))                          -- hin_stop
  | restart                                                 -- hin_restart1, up to hin_stop1
  | done (value : Int)                                      -- somebody writes to share->done
  | checkAlive (env : List (Option Int))                    -- hin_check_alive, from the event loop
  | connect (counted : Bool)                                -- hin_connect, which does not count an address it cannot find
  | release (counted : Bool) (env : List (Option Int))      -- http_client_unlink, hin_fcgi_socket_close

/-- One event. Where `share->done` is looked at, `env` is what the child has written to it just before. -/
def step (depth : Nat) (m : Master) : Event → Option Master
  | .accept id =>
      (m.server id).bind fun s => if s.accept then some (m.setServer id (some { s with clients := s.clients + 1 })) else none
  | .acceptFailed id =>
      (m.server id).bind fun s => if s.accept then some (m.setServer id (some { s with accept := false })) else none
  | .clientClose id env =>
      if m.clientsOf id = 0 then none else hinClientClose (hinCheckAlive depth) { m with env } id
  | .stop env => hinStop (hinCheckAlive depth) { m with env }
  | .restart => some { m with done := 0, restarting := true }
  | .done value => some { m with done := value }
  | .checkAlive env => hinCheckAlive depth { m with env }
  | .connect true => some { m with live := m.live + 1, connections := m.connections + 1 }
  | .connect false => some { m with uncounted := m.uncounted + 1 }
  | .release true env =>
      if m.live = 0 then none
      else hinCheckAlive depth { m with live := m.live - 1, connections := m.connections - 1, env }
  | .release false env =>
      if m.uncounted = 0 then none
      else hinCheckAlive depth { m with uncounted := m.uncounted - 1, connections := m.connections - 1, env }

/-- Servers that are listening, and connections to upstream servers. -/
def start (ids : List Nat) (clients : Nat → Nat) (live : Nat) : Master where
  all := ids
  servers := ids
  server id := if id ∈ ids then some { clients := clients id } else none
  live := live
  connections := live

/-- **Nothing ends too early, too late or twice.** A server that has been freed is not looked at again. It was freed once, and
    without clients; when the servers have been stopped, those with clients are the only ones that are left.
    `HIN_FLAG_FINISH` was not set with a server or a connection left. -/
structure Sound (m : Master) : Prop where
  untouched : m.touched = false
  once : (m.closed.map Prod.fst).Nodup
  gone : ∀ c ∈ m.closed, c.2 = 0
  freed : ∀ id ∈ m.all, id ∈ m.closed.map Prod.fst ↔ m.server id = none
  stopped : m.quit = true → ∀ id ∈ m.all, m.server id = none ∨ m.clientsOf id ≠ 0
  finish : m.early = false

/-- **No walk is overtaken where it matters.** When a server is closed, `share->done` is looked at; if the child is up, the next
    server has a client, or there is none. What is left of the walk is not disturbed a second time. -/
def undisturbed (restarting : Bool) : Int → List (Option Int) → List Nat → Bool
  | _, _, [] => true
  | done, env, clients :: rest =>
      if clients ≠ 0 ∨ restarting = false then undisturbed restarting done env rest
      else if env.head?.join.getD done > 0 then rest.head? ≠ some 0
      else undisturbed restarting 0 env.tail rest

/-- The walk of `hin_stop` is not overtaken, and what is released has been counted. -/
def Careful (m : Master) : Event → Prop
  | .stop env => undisturbed m.restarting m.done env (m.servers.map m.clientsOf) = true
  | .release counted _ => counted = true
  | _ => True

/-! ## The invariant -/

/-- The list holds the servers there are; the others have been freed, once each. -/
structure Inv (m : Master) : Prop where
  nodup : m.servers.Nodup
  known : ∀ id ∈ m.servers, id ∈ m.all
  alive : ∀ id, m.server id ≠ none ↔ id ∈ m.servers
  once : (m.closed.map Prod.fst).Nodup
  freed : ∀ id, id ∈ m.closed.map Prod.fst ↔ id ∈ m.all ∧ id ∉ m.servers
  gone : ∀ c ∈ m.closed, c.2 = 0
  untouched : m.touched = false
  finish : m.early = false
  counted : m.connections = m.live

variable {m m' m'' : Master} {id : Nat} {server server' : Server}

theorem clientsOf_some (h : m.server id = some server) : m.clientsOf id = server.clients := by
  unfold Master.clientsOf
  rw [h]
  rfl

theorem clientsOf_setServer_self : (m.setServer id (some server)).clientsOf id = server.clients :=
  clientsOf_some (Function.update_self ..)

theorem setServer_of_ne {other : Nat} (h : other ≠ id) (v : Option Server) :
    (m.setServer id v).server other = m.server other := Function.update_of_ne h ..

theorem clientsOf_setServer_of_ne {other : Nat} (h : other ≠ id) (v : Option Server) :
    (m.setServer id v).clientsOf other = m.clientsOf other := by
  unfold Master.clientsOf
  rw [setServer_of_ne h]

theorem Inv.setServer (h : Inv m) (hs : m.server id = some server) (server' : Server) :
    Inv (m.setServer id (some server')) := by
  refine { h with alive := ?_ }
  intro other
  by_cases hne : other = id
  · subst hne
    have hself : (m.setServer other (some server')).server other = some server' := Function.update_self ..
    rw [hself]
    have hmem := (h.alive other).mp (by rw [hs]; exact Option.some_ne_none _)
    exact ⟨fun _ => hmem, fun _ => Option.some_ne_none _⟩
  · rw [setServer_of_ne hne]
    exact h.alive other

/-- A server without clients is freed. -/
theorem Inv.free (h : Inv m) (hs : m.server id = some server) (hc : server.clients = 0) :
    Inv { m.setServer id none with
      servers := m.servers.erase id, closed := m.closed ++ [(id, server.clients)] } := by
  have hmem : id ∈ m.servers := (h.alive id).mp (by rw [hs]; exact Option.some_ne_none _)
  refine { h with nodup := ?_, known := ?_, alive := ?_, once := ?_, freed := ?_, gone := ?_ }
  · exact h.nodup.erase id
  · intro other ho
    exact h.known other (List.mem_of_mem_erase ho)
  · intro other
    dsimp only
    rw [h.nodup.mem_erase_iff]
    by_cases hne : other = id
    · subst hne
      have hself : (m.setServer other none).server other = none := Function.update_self ..
      rw [hself]
      exact ⟨fun hn => absurd rfl hn, fun hn => absurd rfl hn.1⟩
    · rw [setServer_of_ne hne, h.alive other]
      exact ⟨fun ho => ⟨hne, ho⟩, fun ho => ho.2⟩
  · dsimp only
    rw [List.map_append, List.nodup_append]
    refine ⟨h.once, List.nodup_singleton _, ?_⟩
    rintro a ha b hb rfl
    obtain rfl := List.mem_singleton.mp hb
    exact ((h.freed _).mp ha).2 hmem
  · intro other
    dsimp only
    rw [List.map_append, List.mem_append, h.freed other, h.nodup.mem_erase_iff]
    constructor
    · rintro (⟨hall, hnot⟩ | hnew)
      · exact ⟨hall, fun ho => hnot ho.2⟩
      · obtain rfl := List.mem_singleton.mp hnew
        exact ⟨h.known _ hmem, fun ho => ho.1 rfl⟩
    · rintro ⟨hall, hnot⟩
      by_cases hne : other = id
      · exact .inr (List.mem_singleton.mpr hne)
      · exact .inl ⟨hall, fun ho => hnot ⟨hne, ho⟩⟩
  · intro c hmem'
    rcases List.mem_append.mp hmem' with ho | hn
    · exact h.gone c ho
    · rw [List.mem_singleton.mp hn]
      exact hc

/-- **`HIN_FLAG_FINISH` is set when nothing is left.** -/
theorem Inv.finishUp (h : Inv m) : Inv m.finishUp := by
  unfold Master.finishUp
  split
  · exact h
  · split
    · exact h
    · rename_i hnone
      rw [not_or, not_not, not_not] at hnone
      refine { h with finish := ?_ }
      have hlive : m.live = 0 := by
        have hcounted := h.counted
        omega
      have hgone : (m.all.any fun id => (m.server id).isSome) = false := by
        rw [List.any_eq_false]
        intro id _ hsome
        have hmem := (h.alive id).mp (Option.isSome_iff_ne_none.mp hsome)
        rw [hnone.1] at hmem
        exact List.not_mem_nil hmem
      dsimp only
      rw [h.finish, hlive, hgone]
      rfl

/-! ## A look at the child, and what it can set off -/

/-- The servers have not been stopped. -/
structure Same (m m' : Master) : Prop where
  servers : m'.servers = m.servers
  server : m'.server = m.server
  quit : m'.quit = m.quit
  restarting : m'.restarting = m.restarting
  looked : m.restarting = true → m'.done = 0 ∧ m'.env = m.env.tail

/-- A server has clients. -/
def Master.busy (m : Master) (id : Nat) : Bool := m.clientsOf id ≠ 0

/-- **The servers have been stopped.** Those with clients are left, and do not accept more. -/
structure Swept (m m' : Master) : Prop where
  servers : m'.servers = m.servers.filter m.busy
  server : ∀ id ∈ m'.servers, ∃ s, m.server id = some s ∧ m'.server id = some { s with accept := false }
  restarting : m'.restarting = true → m.restarting = true

/-- What has been swept is not changed by another sweep. -/
theorem Swept.busy (h : Swept m m') {id : Nat} (hmem : id ∈ m'.servers) : m'.clientsOf id ≠ 0 := by
  obtain ⟨s, hs, hs'⟩ := h.server id hmem
  rw [h.servers, List.mem_filter] at hmem
  have hbusy : m.clientsOf id ≠ 0 := of_decide_eq_true hmem.2
  rw [clientsOf_some hs] at hbusy
  rw [clientsOf_some hs']
  exact hbusy

theorem Swept.trans (h : Swept m m') (h' : Swept m' m'') : Swept m m'' := by
  have hsame : m''.servers = m'.servers := by
    rw [h'.servers, List.filter_eq_self]
    intro id hmem
    exact decide_eq_true (h.busy hmem)
  refine ⟨hsame.trans h.servers, ?_, fun hr => h.restarting (h'.restarting hr)⟩
  intro id hmem
  obtain ⟨s', hs', hs''⟩ := h'.server id hmem
  obtain ⟨s, hs, hsm⟩ := h.server id (hsame ▸ hmem)
  obtain rfl := Option.some.inj (hs'.symm.trans hsm)
  exact ⟨s, hs, hs''⟩

/-- Servers that all have clients and do not accept more have been swept. -/
theorem Swept.refl (h : ∀ id ∈ m.servers, ∃ s, m.server id = some s ∧ s.clients ≠ 0 ∧ s.accept = false) : Swept m m := by
  refine ⟨?_, ?_, fun hr => hr⟩
  · symm
    rw [List.filter_eq_self]
    intro id hmem
    obtain ⟨s, hs, hc, -⟩ := h id hmem
    apply decide_eq_true
    rw [clientsOf_some hs]
    exact hc
  · intro id hmem
    obtain ⟨s, hs, -, hacc⟩ := h id hmem
    refine ⟨s, hs, ?_⟩
    rw [hs, ← hacc]

/-- Whether `hin_check_alive` stops the servers. -/
def Master.stops (m : Master) : Prop := m.restarting = true ∧ m.env.head?.join.getD m.done > 0

/-- **What `hin_check_alive` does.** -/
def Checked (m : Master) (r : Option Master) : Prop :=
  ∃ m', r = some m' ∧ Inv m' ∧ ((¬m.stops ∧ Same m m') ∨ (m.stops ∧ Swept m m' ∧ m'.restarting = false))

/-! ## One walk -/

theorem nextOf_split {pre rest : List Nat} (h : (pre ++ id :: rest).Nodup) : nextOf (pre ++ id :: rest) id = rest.head? := by
  have hpre : ∀ other ∈ pre, decide (other ≠ id) = true := by
    intro other ho
    apply decide_eq_true
    rintro rfl
    exact (List.nodup_append.mp h).2.2 other ho other List.mem_cons_self rfl
  unfold nextOf
  rw [List.dropWhile_append_of_pos hpre, List.dropWhile_cons_of_neg (by simp)]
  rfl

theorem undisturbed_idle (done : Int) (env : List (Option Int)) (counts : List Nat) :
    undisturbed false done env counts = true := by
  induction counts with
  | nil => rfl
  | cons c counts ih => simp [undisturbed, ih]

/-- What a server without clients leaves when it is freed. -/
theorem busy_free {closed : List (Nat × Nat)} (hn : m.servers.Nodup) (hs : m.server id = some server) (hc : server.clients = 0) :
    (m.servers.erase id).filter { m.setServer id none with servers := m.servers.erase id, closed }.busy =
      m.servers.filter m.busy := by
  have hidle : m.busy id = false := by
    unfold Master.busy
    rw [clientsOf_some hs, hc]
    rfl
  have hsame : ∀ other ∈ m.servers.erase id,
      { m.setServer id none with servers := m.servers.erase id, closed }.busy other = m.busy other := by
    intro other ho
    have hne := (hn.mem_erase_iff.mp ho).1
    unfold Master.busy
    have hclients : { m.setServer id none with servers := m.servers.erase id, closed }.clientsOf other =
        m.clientsOf other := clientsOf_setServer_of_ne hne none
    rw [hclients]
  rw [List.filter_congr hsame, hn.erase_eq_filter, List.filter_filter]
  apply List.filter_congr
  intro other _
  by_cases hne : other = id
  · rw [hne, hidle]
    rfl
  · simp [hne]

/-- A server that has clients does not accept more of them. -/
theorem Swept.closed (hs : m.server id = some server)
    (h : Swept (m.setServer id (some { server with accept := false })) m') : Swept m m' := by
  have hclients : ∀ other, (m.setServer id (some { server with accept := false })).clientsOf other = m.clientsOf other := by
    intro other
    by_cases hne : other = id
    · rw [hne, clientsOf_setServer_self, clientsOf_some hs]
    · exact clientsOf_setServer_of_ne hne _
  have hbusy : (m.setServer id (some { server with accept := false })).busy = m.busy := by
    funext other
    unfold Master.busy
    rw [hclients]
  refine ⟨?_, ?_, h.restarting⟩
  · rw [h.servers, hbusy]
    rfl
  · intro other hmem
    obtain ⟨s, hs', hm'⟩ := h.server other hmem
    by_cases hne : other = id
    · subst hne
      have hself : (m.setServer other (some { server with accept := false })).server other =
          some { server with accept := false } := Function.update_self ..
      obtain rfl := Option.some.inj (hself.symm.trans hs')
      exact ⟨server, hs, hm'⟩
    · rw [setServer_of_ne hne] at hs'
      exact ⟨s, hs', hm'⟩

/-- A server without clients is gone. -/
theorem Swept.freed {closed : List (Nat × Nat)} (hn : m.servers.Nodup) (hs : m.server id = some server)
    (hc : server.clients = 0) (h : Swept { m.setServer id none with servers := m.servers.erase id, closed } m') :
    Swept m m' := by
  have hservers : m'.servers = m.servers.filter m.busy := h.servers.trans (busy_free hn hs hc)
  refine ⟨hservers, ?_, h.restarting⟩
  intro other hmem
  obtain ⟨s, hs', hm'⟩ := h.server other hmem
  have hne : other ≠ id := by
    rintro rfl
    rw [hservers, List.mem_filter] at hmem
    have hbusy : m.clientsOf other ≠ 0 := of_decide_eq_true hmem.2
    rw [clientsOf_some hs] at hbusy
    exact hbusy hc
  exact ⟨s, (setServer_of_ne hne none).symm.trans hs', hm'⟩

theorem Same.swept (h : Same m m') (h' : Swept m' m'') : Swept m m'' := by
  have hbusy : m'.busy = m.busy := by
    funext other
    unfold Master.busy Master.clientsOf
    rw [h.server]
  refine ⟨?_, ?_, fun hr => h.restarting ▸ h'.restarting hr⟩
  · rw [h'.servers, h.servers, hbusy]
  · rw [← h.server]
    exact h'.server

theorem Swept.drained (h : Swept m m') :
    ∀ id ∈ m'.servers, ∃ s, m'.server id = some s ∧ s.clients ≠ 0 ∧ s.accept = false := by
  intro id hmem
  obtain ⟨s, -, hs'⟩ := h.server id hmem
  have hbusy := h.busy hmem
  rw [clientsOf_some hs'] at hbusy
  exact ⟨_, hs', hbusy, rfl⟩

/-- A server has clients and does not accept more. -/
def Master.Drained (m : Master) (id : Nat) : Prop := ∃ s, m.server id = some s ∧ s.clients ≠ 0 ∧ s.accept = false

/-- **A walk that is not overtaken.** The servers in front of the one it is at have been dealt with; `nested` says whether the
    child may still set off a second walk. -/
structure At (nested : Bool) (m : Master) (pre suf : List Nat) : Prop where
  inv : Inv m
  nested : m.restarting = true → nested = true
  split : m.servers = pre ++ suf
  behind : ∀ id ∈ pre, m.Drained id
  ahead : undisturbed m.restarting m.done m.env (suf.map m.clientsOf) = true

variable {nested : Bool} {pre suf rest : List Nat} {check : Master → Option Master}

theorem At.others (h : At nested m pre (id :: rest)) :
    (∀ other ∈ pre, other ≠ id) ∧ ∀ other ∈ rest, other ≠ id := by
  have hnodup := h.inv.nodup
  rw [h.split] at hnodup
  constructor
  · rintro other ho rfl
    exact (List.nodup_append.mp hnodup).2.2 other ho other List.mem_cons_self rfl
  · rintro other ho rfl
    exact (List.nodup_cons.mp (List.nodup_append.mp hnodup).2.1).1 ho

/-- A server with clients stays until they are gone. -/
theorem At.keep (h : At nested m pre (id :: rest)) (hs : m.server id = some server) (hc : server.clients ≠ 0) :
    At nested (m.setServer id (some { server with accept := false })) (pre ++ [id]) rest := by
  obtain ⟨hpre, hrest⟩ := h.others
  refine ⟨h.inv.setServer hs _, h.nested, ?_, ?_, ?_⟩
  · rw [List.append_assoc]
    exact h.split
  · intro other ho
    rcases List.mem_append.mp ho with hold | hnew
    · unfold Master.Drained
      rw [setServer_of_ne (hpre other hold)]
      exact h.behind other hold
    · rw [List.mem_singleton.mp hnew]
      exact ⟨_, Function.update_self .., hc, rfl⟩
  · have hcounts : rest.map (m.setServer id (some { server with accept := false })).clientsOf = rest.map m.clientsOf :=
      List.map_congr_left fun other ho => clientsOf_setServer_of_ne (hrest other ho) _
    have hahead := h.ahead
    rw [List.map_cons, clientsOf_some hs] at hahead
    unfold undisturbed at hahead
    rw [if_pos (.inl hc)] at hahead
    rw [hcounts]
    exact hahead

/-- The master without a server. -/
def Master.freed (m : Master) (id clients : Nat) : Master :=
  { m.setServer id none with servers := m.servers.erase id, closed := m.closed ++ [(id, clients)] }

theorem At.freed_servers (h : At nested m pre (id :: rest)) (clients : Nat) :
    (m.freed id clients).servers = pre ++ rest := by
  unfold Master.freed
  dsimp only
  rw [h.split, List.erase_append_right _ fun hp => h.others.1 id hp rfl, List.erase_cons_head]

theorem freed_clientsOf {other : Nat} (hne : other ≠ id) (clients : Nat) :
    (m.freed id clients).clientsOf other = m.clientsOf other := clientsOf_setServer_of_ne hne none

/-- A server is freed and nobody stops the others: the walk goes on. -/
theorem At.goOn (h : At nested m pre (id :: rest)) (hs : m.server id = some server) (hc : server.clients = 0)
    (hinv : Inv m') (hgoes : ¬(m.freed id server.clients).stops) (hsame : Same (m.freed id server.clients) m') :
    At nested m' pre rest := by
  obtain ⟨hpre, hrest⟩ := h.others
  have hr : m'.restarting = m.restarting := hsame.restarting
  refine ⟨hinv, by rw [hr]; exact h.nested, hsame.servers.trans (h.freed_servers _), ?_, ?_⟩
  · intro other ho
    unfold Master.Drained
    rw [hsame.server]
    have hserver : (m.freed id server.clients).server other = m.server other := setServer_of_ne (hpre other ho) none
    rw [hserver]
    exact h.behind other ho
  · have hcounts : rest.map m'.clientsOf = rest.map m.clientsOf := by
      apply List.map_congr_left
      intro other ho
      have hclients : m'.clientsOf other = (m.freed id server.clients).clientsOf other := by
        unfold Master.clientsOf
        rw [hsame.server]
      exact hclients.trans (freed_clientsOf (hrest other ho) server.clients)
    rw [hr, hcounts]
    cases hres : m.restarting with
    | false => exact undisturbed_idle _ _ _
    | true =>
        obtain ⟨hdone, henv⟩ := hsame.looked hres
        have hlow : ¬m.env.head?.join.getD m.done > 0 := fun hpos => hgoes ⟨hres, hpos⟩
        have hahead := h.ahead
        rw [List.map_cons, clientsOf_some hs] at hahead
        unfold undisturbed at hahead
        rw [if_neg (by simp [hc, hres]), if_neg hlow, hres] at hahead
        rw [hdone, henv]
        exact hahead

/-- A server is freed and the others are stopped meanwhile: the next one of the walk is still there. -/
theorem At.overtaken (h : At nested m pre (id :: rest)) (hs : m.server id = some server) (hc : server.clients = 0)
    (hinv : Inv m') (hstops : (m.freed id server.clients).stops) (hswept : Swept (m.freed id server.clients) m')
    (hr : m'.restarting = false) :
    ∃ pre' suf', At nested m' pre' suf' ∧ suf'.head? = rest.head? ∧ suf'.length ≤ rest.length := by
  have hnext : (rest.map m.clientsOf).head? ≠ some 0 := by
    have hres : m.restarting = true := hstops.1
    have hpos : m.env.head?.join.getD m.done > 0 := hstops.2
    have hahead := h.ahead
    rw [List.map_cons, clientsOf_some hs] at hahead
    unfold undisturbed at hahead
    rw [if_neg (by simp [hc, hres]), if_pos hpos] at hahead
    exact of_decide_eq_true hahead
  refine ⟨pre.filter (m.freed id server.clients).busy, rest.filter (m.freed id server.clients).busy, ?_, ?_,
    List.length_filter_le _ _⟩
  · have hservers : m'.servers =
        pre.filter (m.freed id server.clients).busy ++ rest.filter (m.freed id server.clients).busy := by
      rw [hswept.servers, h.freed_servers, List.filter_append]
    refine ⟨hinv, by rw [hr]; exact fun hf => absurd hf (by decide), hservers, ?_, ?_⟩
    · intro other ho
      exact hswept.drained other (by rw [hservers]; exact List.mem_append_left _ ho)
    · rw [hr]
      exact undisturbed_idle _ _ _
  · cases rest with
    | nil => rfl
    | cons next rest =>
        have hbusy : (m.freed id server.clients).busy next = true := by
          apply decide_eq_true
          rw [freed_clientsOf (h.others.2 next List.mem_cons_self)]
          intro hzero
          exact hnext (by rw [List.map_cons, hzero]; rfl)
        rw [List.filter_cons_of_pos hbusy]
        rfl

theorem hinServerClose_keep (check : Master → Option Master) (hs : m.server id = some server) (hc : server.clients ≠ 0) :
    hinServerClose check m id = some (m.setServer id (some { server with accept := false })) := by
  unfold hinServerClose
  rw [hs]
  exact if_pos hc

theorem hinServerClose_free (check : Master → Option Master) (hs : m.server id = some server) (hc : server.clients = 0) :
    hinServerClose check m id = check (m.freed id server.clients) := by
  unfold hinServerClose
  rw [hs]
  refine (if_neg (not_not.mpr hc)).trans ?_
  unfold Master.freed Master.setServer
  simp only [Function.update_idem]

/-- **One server of a walk.** -/
theorem At.close (h : At nested m pre (id :: rest))
    (hcheck : ∀ m, Inv m → (m.restarting = true → nested = true) → Checked m (check m)) :
    ∃ m₁ pre₁ suf₁, hinServerClose check m id = some m₁ ∧ At nested m₁ pre₁ suf₁ ∧ suf₁.head? = rest.head? ∧
      suf₁.length ≤ rest.length ∧ ∀ m', Swept m₁ m' → Swept m m' := by
  have hmem : id ∈ m.servers := by
    rw [h.split]
    simp
  obtain ⟨s, hs⟩ := Option.ne_none_iff_exists'.mp ((h.inv.alive id).mpr hmem)
  by_cases hc : s.clients = 0
  · rw [hinServerClose_free check hs hc]
    have hback : ∀ m', Swept (m.freed id s.clients) m' → Swept m m' := fun m' hw => Swept.freed h.inv.nodup hs hc hw
    obtain ⟨m₁, hm₁, hinv₁, hcases⟩ := hcheck _ (h.inv.free hs hc) h.nested
    rcases hcases with ⟨hgoes, hsame⟩ | ⟨hstops, hswept, hr⟩
    · exact ⟨m₁, pre, rest, hm₁, h.goOn hs hc hinv₁ hgoes hsame, rfl, le_rfl, fun m' hw => hback m' (hsame.swept hw)⟩
    · obtain ⟨pre₁, suf₁, hat, hhead, hlen⟩ := h.overtaken hs hc hinv₁ hstops hswept hr
      exact ⟨m₁, pre₁, suf₁, hm₁, hat, hhead, hlen, fun m' hw => hback m' (hswept.trans hw)⟩
  · rw [hinServerClose_keep check hs hc]
    exact ⟨_, pre ++ [id], rest, rfl, h.keep hs hc, rfl, le_rfl, fun m' hw => hw.closed hs⟩

/-- **A walk that is not overtaken stops every server.** -/
theorem At.walk (h : At nested m pre suf)
    (hcheck : ∀ m, Inv m → (m.restarting = true → nested = true) → Checked m (check m)) {fuel : Nat}
    (hfuel : suf.length ≤ fuel) :
    ∃ m', stopLoop check fuel suf.head? m = some m' ∧ Inv m' ∧ Swept m m' := by
  induction fuel generalizing m pre suf with
  | zero =>
      obtain rfl := List.eq_nil_of_length_eq_zero (Nat.le_zero.mp hfuel)
      refine ⟨m, rfl, h.inv, Swept.refl ?_⟩
      rw [h.split, List.append_nil]
      exact h.behind
  | succ fuel ih =>
      cases suf with
      | nil =>
          refine ⟨m, rfl, h.inv, Swept.refl ?_⟩
          rw [h.split, List.append_nil]
          exact h.behind
      | cons id rest =>
          have hmem : id ∈ m.servers := by
            rw [h.split]
            simp
          obtain ⟨s, hs⟩ := Option.ne_none_iff_exists'.mp ((h.inv.alive id).mpr hmem)
          have hnodup := h.inv.nodup
          rw [h.split] at hnodup
          obtain ⟨m₁, pre₁, suf₁, hclose, hat, hhead, hlen, hback⟩ := h.close hcheck
          rw [List.length_cons] at hfuel
          obtain ⟨m', hloop, hinv, hswept⟩ := ih hat (by omega)
          refine ⟨m', ?_, hinv, hback m' hswept⟩
          rw [List.head?_cons, stopLoop, hs]
          dsimp only
          rw [h.split, nextOf_split hnodup, hclose, Option.bind_some, ← hhead]
          exact hloop

/-! ## Stopping, and being asked whether to stop -/

theorem finishUp_same (m : Master) :
    m.finishUp.servers = m.servers ∧ m.finishUp.server = m.server ∧ m.finishUp.quit = m.quit ∧
      m.finishUp.restarting = m.restarting ∧ m.finishUp.done = m.done ∧ m.finishUp.env = m.env := by
  unfold Master.finishUp
  split
  · exact ⟨rfl, rfl, rfl, rfl, rfl, rfl⟩
  · split
    · exact ⟨rfl, rfl, rfl, rfl, rfl, rfl⟩
    · exact ⟨rfl, rfl, rfl, rfl, rfl, rfl⟩

/-- Where no restart is going on, nothing is stopped. -/
theorem checkAlive_idle (depth : Nat) (h : Inv m) (hr : m.restarting = true → false = true) :
    Checked m (hinCheckAlive (depth + 1) m) := by
  have hidle : m.restarting = false := by
    cases hres : m.restarting with
    | false => rfl
    | true => exact absurd (hr hres) (by decide)
  obtain ⟨hservers, hserver, hquit, hres, -, -⟩ := finishUp_same m
  refine ⟨m.finishUp, ?_, h.finishUp, .inl ⟨?_, hservers, hserver, hquit, hres, ?_⟩⟩
  · simp only [hinCheckAlive, hidle, Bool.false_eq_true, if_false, Option.map_some]
  · intro hstops
    exact absurd (hidle.symm.trans hstops.1) (by decide)
  · intro hon
    exact absurd (hidle.symm.trans hon) (by decide)

/-- **`hin_stop` leaves the servers with clients**, if its walk is not overtaken. -/
theorem hinStop_spec (h : Inv m) (hn : m.restarting = true → nested = true)
    (hcheck : ∀ m, Inv m → (m.restarting = true → nested = true) → Checked m (check m))
    (hund : undisturbed m.restarting m.done m.env (m.servers.map m.clientsOf) = true) :
    ∃ m', hinStop check m = some m' ∧ Inv m' ∧ Swept m m' := by
  have hquit : Inv { m with quit := true } := { h with }
  by_cases hnone : m.servers = []
  · have hhead : m.servers.head? = none := by
      rw [hnone]
      rfl
    obtain ⟨m', hm', hinv, hcases⟩ := hcheck _ hquit hn
    refine ⟨m', ?_, hinv, ?_⟩
    · unfold hinStop
      dsimp only
      rw [hhead]
      exact hm'
    · rcases hcases with ⟨-, hsame⟩ | ⟨-, hswept, -⟩
      · have hnone' : m'.servers = [] := hsame.servers.trans hnone
        refine ⟨?_, ?_, fun hr => hsame.restarting ▸ hr⟩
        · rw [hnone', hnone]
          rfl
        · intro id hmem
          rw [hnone'] at hmem
          exact absurd hmem List.not_mem_nil
      · exact ⟨hswept.servers, hswept.server, hswept.restarting⟩
  · obtain ⟨id, rest, hcons⟩ := List.exists_cons_of_ne_nil hnone
    have hhead : m.servers.head? = some id := by
      rw [hcons]
      rfl
    have hat : At nested { m with quit := true } [] m.servers :=
      ⟨hquit, hn, rfl, fun _ hmem => absurd hmem List.not_mem_nil, hund⟩
    obtain ⟨m', hloop, hinv, hswept⟩ := hat.walk hcheck le_rfl
    refine ⟨m', ?_, hinv, hswept.servers, hswept.server, hswept.restarting⟩
    unfold hinStop
    dsimp only
    rw [hhead] at hloop ⊢
    exact hloop

theorem hinCheckAlive_restarting (depth : Nat) (hr : m.restarting = true) :
    hinCheckAlive (depth + 1) m =
      (if m.look.done = 0 then some m.look
        else if m.look.done > 0 then hinStop (hinCheckAlive depth) { m.look with done := 0, restarting := false }
        else some { m.look with done := 0 }).map Master.finishUp := by
  have hlr : m.look.restarting = true := hr
  unfold hinCheckAlive
  rw [if_pos hr]
  exact congrArg (Option.map Master.finishUp) (if_pos hlr)

/-- **`hin_check_alive` stops the servers or leaves them alone.** It is called again for servers that are being stopped, and
    then it does not stop anything. -/
theorem checkAlive_spec (depth : Nat) (h : Inv m) : Checked m (hinCheckAlive (depth + 2) m) := by
  cases hr : m.restarting with
  | false => exact checkAlive_idle (depth + 1) h (by rw [hr]; exact fun hf => hf)
  | true =>
      have hlook : Inv m.look := { h with }
      rw [hinCheckAlive_restarting (depth + 1) hr]
      by_cases hzero : m.look.done = 0
      · rw [if_pos hzero]
        obtain ⟨hservers, hserver, hquit, hres, hdone, henv⟩ := finishUp_same m.look
        refine ⟨m.look.finishUp, rfl, hlook.finishUp, .inl ⟨?_, hservers, hserver, hquit, hres, ?_⟩⟩
        · intro hstops
          have hseen : m.env.head?.join.getD m.done = 0 := hzero
          exact absurd (hseen ▸ hstops.2) (lt_irrefl 0)
        · exact fun _ => ⟨hdone.trans hzero, henv⟩
      · rw [if_neg hzero]
        by_cases hpos : m.look.done > 0
        · rw [if_pos hpos]
          have hclear : Inv { m.look with done := 0, restarting := false } := { hlook with }
          have hcheck : ∀ m, Inv m → (m.restarting = true → false = true) → Checked m (hinCheckAlive (depth + 1) m) :=
            fun m h hm => checkAlive_idle depth h hm
          obtain ⟨m', hstop, hinv, hswept⟩ := hinStop_spec hclear (fun hf => hf) hcheck (undisturbed_idle _ _ _)
          rw [hstop]
          obtain ⟨hservers, hserver, -, hres, -, -⟩ := finishUp_same m'
          have hoff : m'.restarting = false := by
            cases hon : m'.restarting with
            | false => rfl
            | true => exact (hswept.restarting hon).symm
          refine ⟨m'.finishUp, rfl, hinv.finishUp, .inr ⟨⟨hr, hpos⟩, ⟨?_, ?_, ?_⟩, hres.trans hoff⟩⟩
          · rw [hservers]
            exact hswept.servers
          · rw [hservers, hserver]
            exact hswept.server
          · intro _
            exact hr
        · rw [if_neg hpos]
          obtain ⟨hservers, hserver, hquit, hres, hdone, henv⟩ := finishUp_same { m.look with done := 0 }
          have hinv : Inv { m.look with done := 0 } := { hlook with }
          refine ⟨_, rfl, hinv.finishUp, .inl ⟨fun hstops => hpos hstops.2, hservers, hserver, hquit, hres, ?_⟩⟩
          exact fun _ => ⟨hdone, henv⟩

/-! ## Events -/

/-- Between two events a server that was stopped has clients. -/
structure Good (m : Master) : Prop where
  inv : Inv m
  stopped : m.quit = true → ∀ id ∈ m.servers, m.Drained id

/-- What can happen. -/
def Enabled (m : Master) : Event → Prop
  | .accept id | .acceptFailed id => ∃ s, m.server id = some s ∧ s.accept = true
  | .clientClose id _ => m.clientsOf id ≠ 0
  | .release true _ => m.live ≠ 0
  | .release false _ => m.uncounted ≠ 0
  | _ => True

theorem Checked.good {r : Option Master} (h : Checked m r) (hstopped : m.quit = true → ∀ id ∈ m.servers, m.Drained id) :
    ∃ m', r = some m' ∧ Good m' := by
  obtain ⟨m', hr, hinv, ⟨-, hsame⟩ | ⟨-, hswept, -⟩⟩ := h
  · refine ⟨m', hr, hinv, ?_⟩
    intro hquit id hmem
    have hold := hstopped (hsame.quit ▸ hquit) id (hsame.servers ▸ hmem)
    unfold Master.Drained
    rw [hsame.server]
    exact hold
  · exact ⟨m', hr, hinv, fun _ => hswept.drained⟩

/-- A server that accepts has not been stopped. -/
theorem Good.accepting (h : Good m) (hs : m.server id = some server) (ha : server.accept = true) : m.quit = false := by
  cases hq : m.quit with
  | false => rfl
  | true =>
      have hmem := (h.inv.alive id).mp (by rw [hs]; exact Option.some_ne_none _)
      obtain ⟨t, ht, -, hacc⟩ := h.stopped hq id hmem
      obtain rfl := Option.some.inj (hs.symm.trans ht)
      exact absurd (ha.symm.trans hacc) (by decide)

/-- Nothing that has not been stopped has to be drained. -/
theorem Good.of_running (h : Inv m) (hq : m.quit = false) : Good m :=
  ⟨h, fun hquit => absurd (hq.symm.trans hquit) (by decide)⟩

/-- **A client goes**, and takes its server along if it was the last one and the server does not accept more. -/
theorem Good.clientClose (h : Good m) {check : Master → Option Master} (hcheck : ∀ m, Inv m → Checked m (check m))
    (hc : m.clientsOf id ≠ 0) : ∃ m', hinClientClose check m id = some m' ∧ Good m' := by
  obtain ⟨s, hs⟩ : ∃ s, m.server id = some s := by
    apply Option.ne_none_iff_exists'.mp
    intro hn
    apply hc
    unfold Master.clientsOf
    rw [hn]
    rfl
  have hinv := h.inv.setServer hs { s with clients := s.clients - 1 }
  have hothers : m.quit = true → ∀ other ∈ m.servers, other ≠ id →
      (m.setServer id (some { s with clients := s.clients - 1 })).Drained other := by
    intro hq other hmem hne
    unfold Master.Drained
    rw [setServer_of_ne hne]
    exact h.stopped hq other hmem
  unfold hinClientClose
  rw [hs]
  dsimp only
  by_cases hlast : s.clients - 1 = 0
  · rw [if_neg (not_not.mpr hlast)]
    by_cases ha : s.accept = true
    · rw [if_pos ha]
      exact ⟨_, rfl, Good.of_running hinv (h.accepting hs ha)⟩
    · -- the server goes with its last client
      rw [if_neg ha]
      have hself : (m.setServer id (some { s with clients := s.clients - 1 })).server id =
          some { s with clients := s.clients - 1 } := Function.update_self ..
      rw [hinServerClose_free check hself hlast]
      apply (hcheck _ (hinv.free hself hlast)).good
      intro hq other hmem
      have hne := (h.inv.nodup.mem_erase_iff.mp hmem).1
      obtain ⟨t, ht, hdrained⟩ := hothers hq other (List.mem_of_mem_erase hmem) hne
      exact ⟨t, (setServer_of_ne hne none).trans ht, hdrained⟩
  · rw [if_pos hlast]
    refine ⟨_, rfl, hinv, ?_⟩
    intro hq other hmem
    by_cases hne : other = id
    · rw [hne]
      have hacc : s.accept = false := by
        obtain ⟨t, ht, -, hacc⟩ := h.stopped hq other hmem
        rw [hne] at ht
        obtain rfl := Option.some.inj (hs.symm.trans ht)
        exact hacc
      exact ⟨_, Function.update_self .., hlast, hacc⟩
    · exact hothers hq other hmem hne

/-- **One careful event.** It comes to its end, and leaves everything in order. -/
theorem Good.step (h : Good m) {depth : Nat} (hdepth : 2 ≤ depth) {e : Event} (hen : Enabled m e) (hcare : Careful m e) :
    ∃ m', step depth m e = some m' ∧ Good m' := by
  obtain ⟨depth, rfl⟩ : ∃ k, depth = k + 2 := ⟨depth - 2, by omega⟩
  have hcheck : ∀ m, Inv m → Checked m (hinCheckAlive (depth + 2) m) := fun m hinv => checkAlive_spec depth hinv
  cases e with
  | accept id =>
      obtain ⟨s, hs, ha⟩ := hen
      refine ⟨_, ?_, Good.of_running (h.inv.setServer hs { s with clients := s.clients + 1 }) (h.accepting hs ha)⟩
      unfold Stop.step
      dsimp only
      rw [hs, Option.bind_some, if_pos ha]
  | acceptFailed id =>
      obtain ⟨s, hs, ha⟩ := hen
      refine ⟨_, ?_, Good.of_running (h.inv.setServer hs { s with accept := false }) (h.accepting hs ha)⟩
      unfold Stop.step
      dsimp only
      rw [hs, Option.bind_some, if_pos ha]
  | clientClose id env =>
      have henv : Good { m with env } := ⟨{ h.inv with }, h.stopped⟩
      obtain ⟨m', hm', hgood⟩ := henv.clientClose hcheck hen
      exact ⟨m', (if_neg hen).trans hm', hgood⟩
  | stop env =>
      have henv : Inv { m with env } := { h.inv with }
      have hnested : ({ m with env } : Master).restarting = true → true = true := fun _ => rfl
      obtain ⟨m', hm', hinv, hswept⟩ := hinStop_spec henv hnested (fun m hinv _ => hcheck m hinv) hcare
      exact ⟨m', hm', hinv, fun _ => hswept.drained⟩
  | restart => exact ⟨_, rfl, { h.inv with }, h.stopped⟩
  | done value => exact ⟨_, rfl, { h.inv with }, h.stopped⟩
  | checkAlive env =>
      have henv : Inv { m with env } := { h.inv with }
      exact (hcheck _ henv).good h.stopped
  | connect counted =>
      cases counted with
      | false => exact ⟨_, rfl, { h.inv with }, h.stopped⟩
      | true =>
          refine ⟨_, rfl, { h.inv with counted := ?_ }, h.stopped⟩
          have hcounted := h.inv.counted
          dsimp only
          push_cast
          omega
  | release counted env =>
      obtain rfl : counted = true := hcare
      have hinv : Inv { m with live := m.live - 1, connections := m.connections - 1, env } := by
        refine { h.inv with counted := ?_ }
        have hcounted := h.inv.counted
        have hlive : m.live ≠ 0 := hen
        dsimp only
        omega
      obtain ⟨m', hm', hgood⟩ := (hcheck _ hinv).good h.stopped
      exact ⟨m', (if_neg hen).trans hm', hgood⟩

theorem enabled_of_step {depth : Nat} {e : Event} (h : step depth m e = some m') : Enabled m e := by
  cases e with
  | accept id =>
      obtain ⟨s, hs, ha⟩ := Option.bind_eq_some_iff.mp h
      refine ⟨s, hs, ?_⟩
      by_contra hn
      rw [if_neg hn] at ha
      exact absurd ha (by simp)
  | acceptFailed id =>
      obtain ⟨s, hs, ha⟩ := Option.bind_eq_some_iff.mp h
      refine ⟨s, hs, ?_⟩
      by_contra hn
      rw [if_neg hn] at ha
      exact absurd ha (by simp)
  | clientClose id env =>
      intro hn
      have hnone : step depth m (.clientClose id env) = none := if_pos hn
      exact absurd (hnone.symm.trans h) (by simp)
  | release counted env =>
      cases counted with
      | false =>
          intro hn
          have hnone : step depth m (.release false env) = none := if_pos hn
          exact absurd (hnone.symm.trans h) (by simp)
      | true =>
          intro hn
          have hnone : step depth m (.release true env) = none := if_pos hn
          exact absurd (hnone.symm.trans h) (by simp)
  | stop env => trivial
  | restart => trivial
  | done value => trivial
  | checkAlive env => trivial
  | connect counted => trivial

theorem Good.sound (h : Good m) : Sound m where
  untouched := h.inv.untouched
  once := h.inv.once
  gone := h.inv.gone
  freed id hall := by
    rw [h.inv.freed, ← h.inv.alive, not_not]
    exact ⟨fun hn => hn.2, fun hn => ⟨hall, hn⟩⟩
  stopped hq id _ := by
    by_cases hmem : id ∈ m.servers
    · obtain ⟨s, hs, hc, -⟩ := h.stopped hq id hmem
      right
      rw [clientsOf_some hs]
      exact hc
    · left
      by_contra hn
      exact hmem ((h.inv.alive id).mp hn)
  finish := h.inv.finish

theorem start_good {ids : List Nat} (hids : ids.Nodup) (clients : Nat → Nat) (live : Nat) : Good (start ids clients live) := by
  refine ⟨⟨hids, fun _ h => h, ?_, List.nodup_nil, ?_, fun _ h => absurd h List.not_mem_nil, rfl, rfl, rfl⟩, ?_⟩
  · intro id
    unfold start
    dsimp only
    split
    · rename_i hmem
      exact ⟨fun _ => hmem, fun _ => Option.some_ne_none _⟩
    · rename_i hmem
      exact ⟨fun hn => absurd rfl hn, fun hn => absurd hn hmem⟩
  · intro id
    exact ⟨fun h => absurd h List.not_mem_nil, fun h => absurd h.1 h.2⟩
  · intro hq
    exact absurd (show false = true from hq) (by decide)

/-- **Servers are closed once, after their clients**, in every run of careful events; and every careful event comes to its end. -/
theorem servers_end_once {ids : List Nat} (hids : ids.Nodup) (clients : Nat → Nat) (live depth : Nat) (hdepth : 2 ≤ depth)
    {es : List Event} {m : Master} (hrun : Lib.RunWith (step depth) Careful (start ids clients live) es m) :
    Sound m ∧ ∀ e, Enabled m e → Careful m e → (step depth m e).isSome := by
  have hgood : Good m := by
    refine hrun.invariant (I := Good) (start_good hids clients live) ?_
    intro m e m' h hcare hs
    obtain ⟨m'', hs', hg⟩ := h.step hdepth (enabled_of_step hs) hcare
    obtain rfl := Option.some.inj (hs.symm.trans hs')
    exact hg
  refine ⟨hgood.sound, ?_⟩
  intro e hen hcare
  obtain ⟨m', hs, -⟩ := hgood.step hdepth hen hcare
  rw [hs]
  rfl

instance (m : Master) : DecidablePred (Careful m)
  | .stop env => inferInstanceAs (Decidable (undisturbed m.restarting m.done env (m.servers.map m.clientsOf) = true))
  | .release counted _ => inferInstanceAs (Decidable (counted = true))
  | .accept _ | .acceptFailed _ | .clientClose _ _ | .restart | .done _ | .checkAlive _ | .connect _ =>
      inferInstanceAs (Decidable True)

/-- The child is up when the second server is closed; the first one has a client, which goes later. -/
def quietRestart : List Event := [.restart, .stop [some 1], .clientClose 1 [], .release true []]

theorem servers_end_once_sample :
    ∃ m, Lib.RunWith (step 2) Careful (start [1, 2] (fun id => if id = 1 then 1 else 0) 1) quietRestart m ∧
      m.closed = [(2, 0), (1, 0)] ∧ m.finish = true ∧ Sound m := by
  have hexec : (Lib.execWith (step 2) (fun m e => decide (Careful m e))
      (start [1, 2] (fun id => if id = 1 then 1 else 0) 1) quietRestart).map (fun m => (m.closed, m.finish)) =
        some ([(2, 0), (1, 0)], true) := by decide
  obtain ⟨m, hm, hresult⟩ := Option.map_eq_some_iff.mp hexec
  obtain ⟨hclosed, hfinish⟩ := Prod.mk.inj hresult
  have hrun := Lib.RunWith.of_exec (fun _ _ h => of_decide_eq_true h) quietRestart hm
  exact ⟨m, hrun, hclosed, hfinish, (servers_end_once (by decide) _ 1 2 le_rfl hrun).1⟩

/-- The child is up when the first of two servers is closed, and neither has a client. -/
def overtakingRestart : List Event := [.restart, .stop [some 1]]

/-- **A walk can be overtaken**: the second server is freed by the walk inside, and then looked at by the one outside. -/
theorem servers_overtaken :
    ¬∀ (ids : List Nat) (clients : Nat → Nat) (live depth : Nat) (es : List Event) (m : Master), ids.Nodup → 2 ≤ depth →
      Lib.Run (step depth) (start ids clients live) es m → Sound m := by
  intro hall
  have hexec : (Lib.execWith (step 2) (fun _ _ => true) (start [1, 2] (fun _ => 0) 0) overtakingRestart).map
      Master.touched = some true := by decide
  obtain ⟨m, hm, htouched⟩ := Option.map_eq_some_iff.mp hexec
  have hrun : Lib.Run (step 2) (start [1, 2] (fun _ => 0) 0) overtakingRestart m :=
    Lib.RunWith.of_exec (fun _ _ _ => trivial) overtakingRestart hm
  have hsound := hall [1, 2] (fun _ => 0) 0 2 overtakingRestart m (by decide) le_rfl hrun
  exact absurd (htouched.symm.trans hsound.untouched) (by decide)

/-- **A connection that was never counted is missing in the end**: with a connection left, the servers have come to their end. -/
theorem finish_uncounted :
    ∃ m, Lib.Run (step 2) (start [1] (fun _ => 0) 1) [.connect false, .release false [], .stop []] m ∧
      m.finish = true ∧ m.live = 1 := by
  have hexec : (Lib.execWith (step 2) (fun _ _ => true) (start [1] (fun _ => 0) 1)
      [.connect false, .release false [], .stop []]).map (fun m => (m.finish, m.live)) = some (true, 1) := by decide
  obtain ⟨m, hm, hresult⟩ := Option.map_eq_some_iff.mp hexec
  exact ⟨m, Lib.RunWith.of_exec (fun _ _ _ => trivial) _ hm, congrArg Prod.fst hresult, congrArg Prod.snd hresult⟩

end Stop
end Netcode
end Hin9
