import Hin9.Basic.Bytes

/-!
# `Netcode.Connect` — the addresses of a host, one after the other (`connect.c`)

`hin_connect` resolves a host and tries its addresses until one connects. `hin_connect_try_next` looks for the next
address it gets a socket for and asks the ring to connect it; `hin_connect_recheck` is the completion of that request and
goes on with the next address when it failed. The caller's callback is run by `complete`, which both of them call: behind
a completion, and also inside `hin_connect` when there is no socket to be had for any address.

What the kernel says is part of an `Address`: the descriptor of its socket and the result of connecting it. `drain`
delivers the completions, and `connected_iff` says when the callback is run the way the callers of `hin_connect` expect.
-/

namespace Hin9
namespace Connect

/-- A resolved address, with what `socket` and the connect request come to. An `error` of `0` is a connection. -/
structure Address where
  socket : Option Nat
  error : Nat
deriving Repr, DecidableEq

/-- One run of the caller's callback: the number it is given, and whether `hin_connect` has returned by then. -/
structure Call where
  ret : Int
  returned : Bool
deriving Repr, DecidableEq

/-- The buffer of a connection attempt: `conn->rp`, `buf->fd`, and the address in the request that is with the ring
    (`HIN_ACTIVE` is set while there is one). Beside it what was done so far. -/
structure State where
  rp : List Address
  fd : Option Nat := none
  asked : Option Address := none
  returned : Bool := false
  calls : List Call := []
  opened : List Nat := []
  closed : List Nat := []
deriving Repr, DecidableEq

def ENOSYS : Nat := 38

/-! ## The attempts -/

/-- `complete`: the callback, with a descriptor or a negative error. -/
def complete (s : State) (ret : Int) : State := { s with calls := s.calls ++ [⟨ret, s.returned⟩] }

/-- `hin_request_connect`; `none` while another request is out. -/
def hinRequestConnect (s : State) (rp : Address) : Option State :=
  if s.asked.isSome then none else some { s with asked := some rp }

/-- The loop of `hin_connect_try_next`, from `rp` on. -/
def tryLoop : List Address → State → State
  | [], s => complete s (-ENOSYS)
  | rp :: rest, s =>
      match rp.socket with
      | none => tryLoop rest { s with fd := none }
      | some fd =>
          let s := { s with fd := some fd, opened := s.opened ++ [fd], rp := rest }
          match hinRequestConnect s rp with
          | some s => s
          | none => complete s (-ENOSYS)

def hinConnectTryNext (s : State) : State := tryLoop s.rp s

/-- `close (buf->fd)`. -/
def closeFd (s : State) : State := { s with closed := s.closed ++ s.fd.toList }

/-- `hin_connect_recheck`. -/
def hinConnectRecheck (s : State) (ret : Int) : State :=
  if ret = 0 then
    match s.fd with
    | some fd => complete s fd
    | none => complete s (-1)
  else
    let s := closeFd s
    match s.rp with
    | [] => complete s ret
    | _ :: _ => hinConnectTryNext s

/-- The completion of the request that is out. -/
def completion (s : State) : State :=
  match s.asked with
  | some rp => hinConnectRecheck { s with asked := none } (-rp.error)
  | none => s

/-- `hin_connect`: what it returns, and the attempt it leaves. `addrs` is what `getaddrinfo` found. -/
def hinConnect (usable : Bool) (addrs : Option (List Address)) : Int × Option State :=
  if !usable then (-1, none)       -- no parent or no callback
  else
    match addrs with
    | none => (-1, none)
    | some addrs => (0, some { hinConnectTryNext { rp := addrs } with returned := true })

/-- Up to `n` completions, as long as there is a request out. -/
def drain : Nat → State → State
  | 0, s => s
  | n + 1, s => if s.asked.isSome then drain n (completion s) else s

/-! ## The purpose -/

/-- The first address, in the order of the list, that has a socket and connects. -/
def firstConnected : List Address → Option Nat
  | [] => none
  | a :: as =>
      match a.socket with
      | some fd => if a.error = 0 then some fd else firstConnected as
      | none => firstConnected as

/-- What the callback is to be given: the descriptor of the first address that connects, or an error. -/
def Answers (addrs : List Address) (ret : Int) : Prop :=
  match firstConnected addrs with
  | some fd => ret = fd
  | none => ret < 0

/-- The descriptors that are to be left open. -/
def kept (addrs : List Address) : List Nat := (firstConnected addrs).toList

/-- **An attempt came to its end**: nothing is with the ring, the callback was run once, behind the return of
    `hin_connect`, with the answer for these addresses, and of the descriptors that were opened only the one it was given
    is still open. -/
structure Settled (addrs : List Address) (s : State) : Prop where
  idle : s.asked = none
  once : ∃ ret, s.calls = [⟨ret, true⟩] ∧ Answers addrs ret
  closed : s.opened = s.closed ++ kept addrs

/-- Whether the callback has run with an error: it frees the object then, and `hin_fcgi_get_socket` goes on to put it in
    its table. -/
def freed (s : State) : Bool := s.calls.any fun c => c.ret < 0

/-! ## The loop over the addresses -/

/-- The addresses a socket is to be had for. -/
def HasSocket (addrs : List Address) : Prop := ∃ a ∈ addrs, a.socket.isSome

/-- With no socket for any address the callback is run at once. -/
theorem tryLoop_none {addrs : List Address} {s : State} (h : ∀ a ∈ addrs, a.socket = none) :
    ∃ fd, tryLoop addrs s = complete { s with fd } (-ENOSYS) := by
  induction addrs generalizing s with
  | nil => exact ⟨s.fd, rfl⟩
  | cons a rest ih =>
      have ha : a.socket = none := h a List.mem_cons_self
      unfold tryLoop
      rw [ha]
      exact ih fun b hb => h b (List.mem_cons_of_mem a hb)

/-- Otherwise the first address with a socket is the one the ring is asked to connect. -/
theorem tryLoop_asks {skipped rest : List Address} {a : Address} {fd : Nat} {s : State}
    (hskip : ∀ b ∈ skipped, b.socket = none) (ha : a.socket = some fd) (hidle : s.asked = none) :
    tryLoop (skipped ++ a :: rest) s =
      { s with rp := rest, fd := some fd, asked := some a, opened := s.opened ++ [fd] } := by
  induction skipped generalizing s with
  | nil =>
      rw [List.nil_append]
      unfold tryLoop
      rw [ha]
      dsimp only
      unfold hinRequestConnect
      rw [hidle]
      rfl
  | cons b skipped ih =>
      have hb : b.socket = none := hskip b List.mem_cons_self
      rw [List.cons_append]
      unfold tryLoop
      rw [hb]
      exact ih (fun c hc => hskip c (List.mem_cons_of_mem b hc)) hidle

/-- The first address with a socket. -/
theorem split_hasSocket {addrs : List Address} (h : HasSocket addrs) :
    ∃ skipped a fd rest, addrs = skipped ++ a :: rest ∧ (∀ b ∈ skipped, b.socket = none) ∧ a.socket = some fd := by
  induction addrs with
  | nil =>
      obtain ⟨a, ha, -⟩ := h
      exact absurd ha List.not_mem_nil
  | cons b rest ih =>
      cases hb : b.socket with
      | some fd => exact ⟨[], b, fd, rest, rfl, fun c hc => absurd hc List.not_mem_nil, hb⟩
      | none =>
          have hrest : HasSocket rest := by
            obtain ⟨a, ha, hsock⟩ := h
            rcases List.mem_cons.mp ha with rfl | ha
            · rw [hb] at hsock
              exact absurd hsock (by simp)
            · exact ⟨a, ha, hsock⟩
          obtain ⟨skipped, a, fd, rest', rfl, hskip, ha⟩ := ih hrest
          refine ⟨b :: skipped, a, fd, rest', rfl, ?_, ha⟩
          intro c hc
          rcases List.mem_cons.mp hc with rfl | hc
          · exact hb
          · exact hskip c hc

theorem firstConnected_skip {skipped addrs : List Address} (h : ∀ b ∈ skipped, b.socket = none) :
    firstConnected (skipped ++ addrs) = firstConnected addrs := by
  induction skipped with
  | nil => rfl
  | cons b skipped ih =>
      have hb : b.socket = none := h b List.mem_cons_self
      rw [List.cons_append, firstConnected, hb]
      exact ih fun c hc => h c (List.mem_cons_of_mem b hc)

theorem firstConnected_none {addrs : List Address} (h : ∀ b ∈ addrs, b.socket = none) : firstConnected addrs = none := by
  have hskip := @firstConnected_skip addrs [] h
  rw [List.append_nil] at hskip
  exact hskip

/-! ## The completions -/

/-- An attempt behind the return of `hin_connect`: the ring is asked to connect `a`, and the descriptors of the addresses
    before it are closed. -/
structure Trying (a : Address) (fd : Nat) (rest : List Address) (s : State) : Prop where
  sock : a.socket = some fd
  descriptor : s.fd = some fd
  asked : s.asked = some a
  rp : s.rp = rest
  returned : s.returned = true
  calls : s.calls = []
  opened : s.opened = s.closed ++ [fd]

/-- A connection that failed, with nothing behind it that has a socket: the callback is given the error. -/
theorem settled_failed {addrs : List Address} {s : State} {ret : Int} (hidle : s.asked = none) (hret : s.returned = true)
    (hcalls : s.calls = []) (hclosed : s.opened = s.closed) (hnone : firstConnected addrs = none) (hneg : ret < 0) :
    Settled addrs (complete s ret) := by
  refine ⟨hidle, ⟨ret, ?_, ?_⟩, ?_⟩
  · show s.calls ++ [⟨ret, s.returned⟩] = [⟨ret, true⟩]
    rw [hcalls, hret]
    rfl
  · unfold Answers
    rw [hnone]
    exact hneg
  · show s.opened = s.closed ++ kept addrs
    unfold kept
    rw [hnone, hclosed]
    exact (List.append_nil _).symm

/-- Addresses without a socket in front of the others make no difference. -/
theorem settled_skip {skipped addrs : List Address} {s : State} (hskip : ∀ b ∈ skipped, b.socket = none)
    (h : Settled addrs s) : Settled (skipped ++ addrs) s := by
  have hfirst := @firstConnected_skip skipped addrs hskip
  obtain ⟨ret, hcalls, hret⟩ := h.once
  refine ⟨h.idle, ⟨ret, hcalls, ?_⟩, ?_⟩
  · unfold Answers at hret ⊢
    rw [hfirst]
    exact hret
  · rw [h.closed]
    unfold kept
    rw [hfirst]

/-- What the failure of `a` leaves for the addresses behind it. -/
theorem settled_behind {a : Address} {fd : Nat} {rest : List Address} {s : State} (hsock : a.socket = some fd)
    (herr : a.error ≠ 0) (h : Settled rest s) : Settled (a :: rest) s := by
  have hfirst : firstConnected (a :: rest) = firstConnected rest := by
    rw [firstConnected, hsock]
    exact if_neg herr
  obtain ⟨ret, hcalls, hret⟩ := h.once
  refine ⟨h.idle, ⟨ret, hcalls, ?_⟩, ?_⟩
  · unfold Answers at hret ⊢
    rw [hfirst]
    exact hret
  · have hclosed := h.closed
    unfold kept at hclosed ⊢
    rw [hfirst]
    exact hclosed

/-- An attempt that is idle needs no further completion. -/
theorem drain_idle {s : State} (h : s.asked = none) (n : Nat) : drain n s = s := by
  cases n with
  | zero => rfl
  | succ n =>
      unfold drain
      rw [h]
      rfl

theorem drain_asked {s : State} {a : Address} (h : s.asked = some a) (n : Nat) :
    drain (n + 1) s = drain n (hinConnectRecheck { s with asked := none } (-a.error)) := by
  rw [drain, h, completion, h]
  rfl

/-- **Every attempt comes to its end**, after at most one completion for each address. The induction is on how many
    addresses are left behind the one being connected. -/
theorem trying_settles {a : Address} {fd : Nat} {rest : List Address} {s : State} (h : Trying a fd rest s) {n : Nat}
    (hn : rest.length < n) : Settled (a :: rest) (drain n s) := by
  induction hk : rest.length using Nat.strong_induction_on generalizing a fd rest s n with
  | _ k ih =>
  obtain ⟨n, rfl⟩ : ∃ m, n = m + 1 := ⟨n - 1, by omega⟩
  rw [drain_asked h.asked]
  by_cases herr : a.error = 0
  · -- connected
    have hdone : hinConnectRecheck { s with asked := none } (-a.error) = complete { s with asked := none } fd := by
      unfold hinConnectRecheck
      rw [herr, if_pos (by simp)]
      dsimp only
      rw [h.descriptor]
    have hfirst : firstConnected (a :: rest) = some fd := by
      rw [firstConnected, h.sock]
      exact if_pos herr
    rw [hdone, drain_idle rfl]
    refine ⟨rfl, ⟨fd, ?_, ?_⟩, ?_⟩
    · show s.calls ++ [⟨(fd : Int), s.returned⟩] = [⟨(fd : Int), true⟩]
      rw [h.calls, h.returned]
      rfl
    · unfold Answers
      rw [hfirst]
    · show s.opened = s.closed ++ kept (a :: rest)
      unfold kept
      rw [hfirst, h.opened]
      rfl
  · -- failed: its descriptor is closed, and the addresses behind it are tried
    apply settled_behind h.sock herr
    have hneg : (-(a.error : Int)) < 0 := by omega
    let s' : State := closeFd { s with asked := none }
    have hclosed : s'.opened = s'.closed := by
      show s.opened = s.closed ++ s.fd.toList
      rw [h.opened, h.descriptor]
      rfl
    unfold hinConnectRecheck
    rw [if_neg hneg.ne]
    dsimp only
    change Settled rest (drain n (match s'.rp with | [] => complete s' (-a.error) | _ :: _ => hinConnectTryNext s'))
    cases rest with
    | nil =>
        rw [show s'.rp = [] from h.rp]
        dsimp only
        rw [drain_idle rfl]
        exact settled_failed rfl h.returned h.calls hclosed rfl hneg
    | cons b rest =>
        rw [show s'.rp = b :: rest from h.rp]
        dsimp only
        rw [hinConnectTryNext, show s'.rp = b :: rest from h.rp]
        by_cases hsock : HasSocket (b :: rest)
        · obtain ⟨skipped, c, fd', rest', hsplit, hskip, hc⟩ := split_hasSocket hsock
          have htry : Trying c fd' rest' (tryLoop (b :: rest) s') := by
            rw [hsplit, tryLoop_asks hskip hc rfl]
            refine ⟨hc, rfl, rfl, rfl, h.returned, h.calls, ?_⟩
            show s'.opened ++ [fd'] = s'.closed ++ [fd']
            rw [hclosed]
          have hlen : (b :: rest).length = skipped.length + (rest'.length + 1) := by
            rw [hsplit, List.length_append, List.length_cons]
          have hsettled := @ih rest'.length (by omega) c fd' rest' _ htry n (by omega) rfl
          have hall := settled_skip hskip hsettled
          rw [← hsplit] at hall
          exact hall
        · have hnone : ∀ c ∈ b :: rest, c.socket = none := by
            intro c hc
            by_contra hne
            exact hsock ⟨c, hc, Option.isSome_iff_ne_none.mpr hne⟩
          obtain ⟨fd', heq⟩ := @tryLoop_none (b :: rest) s' hnone
          rw [heq, drain_idle rfl]
          exact settled_failed rfl h.returned h.calls hclosed (firstConnected_none hnone) (by decide)

/-! ## `hin_connect` -/

/-- What the callers of `hin_connect` rely on, where it returned `0` and left `s`: the object they hold is not freed when
    it returns, and the completions bring the attempt to its end. -/
def Served (addrs : List Address) (s : State) : Prop := freed s = false ∧ Settled addrs (drain addrs.length s)

theorem served_iff_hasSocket {addrs : List Address} {s : State}
    (hs : s = { hinConnectTryNext { rp := addrs } with returned := true }) : Served addrs s ↔ HasSocket addrs := by
  unfold hinConnectTryNext at hs
  constructor
  · intro hserved
    by_contra hsock
    have hnone : ∀ c ∈ addrs, c.socket = none := by
      intro c hc
      by_contra hne
      exact hsock ⟨c, hc, Option.isSome_iff_ne_none.mpr hne⟩
    -- the callback has run inside `hin_connect`
    obtain ⟨fd, heq⟩ := @tryLoop_none addrs { rp := addrs } hnone
    have hfreed : freed s = true := by
      rw [hs]
      dsimp only
      rw [heq]
      rfl
    rw [hserved.1] at hfreed
    exact absurd hfreed Bool.false_ne_true
  · intro hsock
    obtain ⟨skipped, a, fd, rest, hsplit, hskip, ha⟩ := split_hasSocket hsock
    have hask := @tryLoop_asks skipped rest a fd { rp := addrs } hskip ha rfl
    rw [← hsplit] at hask
    have htry : Trying a fd rest s := by
      rw [hs]
      dsimp only
      rw [hask]
      exact ⟨ha, rfl, rfl, rfl, rfl, rfl, rfl⟩
    have hlen : addrs.length = skipped.length + (rest.length + 1) := by
      rw [hsplit, List.length_append, List.length_cons]
    have hsettled := settled_skip hskip (@trying_settles a fd rest s htry addrs.length (by omega))
    rw [← hsplit] at hsettled
    refine ⟨?_, hsettled⟩
    unfold freed
    rw [htry.calls]
    rfl

/-- A host with two addresses: the first refuses the connection, the second takes it. -/
def twoAddresses : List Address := [⟨some 5, 111⟩, ⟨some 5, 0⟩]

end Connect
end Hin9
