import Hin9.Http.Upstreams
import Hin9.Lib.Runs

/-!
# `Http.UpstreamsIdle` — the connections that wait to be used again

A connection waits with an open socket that nothing but the read of its line buffer is outstanding on, and that was opened
for the server its names say. Three steps break this: the end of a response over TLS, whose connection is kept with a
freed SSL object; the end of a response on a connection that is being closed; and a request for the other scheme, which
is not among the things that are compared.
-/

namespace Hin9
namespace Http
namespace Upstreams

open Lib

/-! ## What must hold of the idle connections -/

/-- Every idle connection is linked once, marked, open, and has a live SSL object if it is marked as one that uses TLS. No
    connection has two requests, and one that was taken from the list was opened for the server that was asked for. -/
structure Pool.Sound (s : Pool) : Prop where
  once : s.idle.Nodup
  marked : ∀ i ∈ s.idle, (s.conns i).idle = true
  opened : ∀ i ∈ s.idle, (s.conns i).socket = .opened ∧ (s.conns i).freed = false
  live : ∀ i ∈ s.idle, (s.conns i).ssl = true → (s.conns i).sslLive = true
  single : ∀ i, (s.conns i).users ≤ 1
  same : ∀ p ∈ s.handed, p.1 = p.2

/-- An idle connection that matches an address was opened for its scheme. -/
def Pool.sameScheme (s : Pool) (url : Bytes) : Bool :=
  match hinParseUri url with
  | none => true
  | some uri =>
      match s.findIdle uri with
      | none => true
      | some i => (s.conns i).openedFor.https == uri.https

/-- What is done with the connection at the end of its request keeps it open, and plain. -/
def Conn.plain (c : Conn) : Bool := !c.freed && (!c.keepalive || !c.ssl && !c.stopping)

/-- The request of a connection that is closed is sent again. -/
def Conn.restarts (c : Conn) : Bool := (c.headers || c.data) && !c.idle && c.parent.isSome

/-- The steps that keep the idle list sound. -/
def Pool.careful (s : Pool) : Event → Bool
  | .proxy _ request => s.sameScheme request.url
  | .download url => s.sameScheme url
  | .lines i r =>
      r == .wait || r == .head || !(s.conns i).restarts || ((s.conns i).uri.map fun uri => s.sameScheme uri.all).getD true
  | .piped i => !(s.conns i).freed && ((s.conns i).post || (s.conns i).plain)
  | .posted i => (s.conns i).data || (s.conns i).plain
  | _ => true

/-! ## The invariant -/

/-- A connection in the idle list. -/
structure Conn.Waits (c : Conn) : Prop where
  idle : c.idle = true
  opened : c.socket = .opened
  held : c.freed = false
  plain : c.ssl = false
  stopping : c.stopping = false
  ended : c.ended = false
  connecting : c.connecting = false
  piping : c.piping = false
  posting : c.posting = false
  closing : c.closing = false
  post : c.post = false
  users : c.users = 0
  scheme : c.openedFor.https = false

/-- Any connection. -/
structure Conn.Good (c : Conn) : Prop where
  unset : c.socket = .unset → c.headers = false ∧ c.reading = false ∧ c.piping = false ∧ c.posting = false ∧
    c.closing = false ∧ c.stopping = false
  closed : c.freed = false → c.socket = .closed → c.stopping = true
  closing : c.closing = true → c.socket = .closed ∧ c.ended = false
  ended : c.freed = false → c.ended = true → c.socket ≠ .opened
  asked : ∀ uri, c.uri = some uri → c.socket = .unset → uri.https = c.openedFor.https
  tls : c.socket ≠ .unset → c.openedFor.https = true → c.ssl = true
  target : c.freed = false → c.openedFor.host = c.host ∧ c.openedFor.port = c.port
  named : c.freed = false → c.uri.isSome ∨ c.socket ≠ .unset → c.port ≠ []
  fetching : c.reading = true → c.idle = true ∨ c.data = true
  piping : c.piping = true → c.reading = false ∧ (c.freed = false → c.data = true)
  posting : c.posting = true → c.post = true
  connecting : c.connecting = true → c.socket = .unset ∧ c.freed = false ∧ c.ended = false
  freed : c.freed = true → c.headers = false ∧ c.post = false ∧ c.reading = false ∧ c.closing = false ∧ c.uri = none
  users : c.users ≤ 1

namespace Conn

variable {c : Conn}

theorem good_default : Conn.Good {} := by
  constructor <;> simp

theorem target_port_ne (uri : Uri) : uri.target.port ≠ [] := by
  unfold Uri.target
  split_ifs with h1 h2
  · exact h1
  · simp [bytes]
  · simp [bytes]

theorem good_new (uri : Uri) : (Conn.new uri).Good := by
  constructor <;> simp [Conn.new, target_port_ne]
  all_goals simp [Uri.target]

/-- A connection that is not being closed has the socket it was opened with, if it has one. -/
theorem Good.socket_opened (h : c.Good) (hf : c.freed = false) (hs : c.stopping = false) (ho : c.socket ≠ .unset) :
    c.socket = .opened := by
  cases hc : c.socket with
  | unset => exact absurd hc ho
  | opened => rfl
  | closed => simp [h.closed hf hc] at hs

theorem Good.free (h : c.Good) (hu : c.canUnlink = true) : c.free.Good := by
  obtain ⟨⟩ := h
  constructor <;> simp_all [Conn.free, Conn.clean, Conn.canUnlink]

theorem Good.close (h : c.Good) (hf : c.freed = false) (hs : c.stopping = false) (ho : c.socket ≠ .unset) :
    c.close.Good := by
  have ho := h.socket_opened hf hs ho
  obtain ⟨⟩ := h
  constructor <;> simp_all [Conn.close]

theorem Good.rest (h : c.Good) (hf : c.freed = false) (hp : c.piping = false) (hpost : c.post = false)
    (ho : c.socket = .opened) : c.rest.Good := by
  obtain ⟨⟩ := h
  constructor <;> simp_all [Conn.rest, Conn.clean]

theorem Good.leave (h : c.Good) : c.leave.Good := by
  obtain ⟨⟩ := h
  constructor <;> simp_all [Conn.leave]

theorem Good.stopReading (h : c.Good) : c.stopReading.Good := by
  obtain ⟨⟩ := h
  constructor <;> simp_all [Conn.stopReading]

/-- The head of a request is sent on a connection that has a socket. -/
theorem Good.send (h : c.Good) (hf : c.freed = false) (ho : c.socket ≠ .unset) : c.send.Good := by
  obtain ⟨⟩ := h
  constructor <;> simp_all [Conn.send]

theorem Good.upload (h : c.Good) (hf : c.freed = false) (ho : c.socket ≠ .unset) : c.upload.Good := by
  obtain ⟨⟩ := h
  constructor <;> simp_all [Conn.upload]

/-- A connection from the list is sent the head of its next request. -/
theorem Good.reuse (h : c.Good) (hw : c.Waits) (uri : Uri) : (c.take uri).send.Good := by
  obtain ⟨⟩ := h
  obtain ⟨⟩ := hw
  constructor <;> simp_all [Conn.take, Conn.send]

theorem Good.connect (h : c.Good) (hf : c.freed = false) (he : c.ended = false) (ho : c.socket = .unset) :
    Conn.Good { c with connecting := true } := by
  obtain ⟨⟩ := h
  constructor <;> simp_all

theorem Good.fetch (h : c.Good) (hf : c.freed = false) (hp : c.piping = false) (hd : c.data = true)
    (ho : c.socket ≠ .unset) :
    Conn.Good { c with reading := true } := by
  obtain ⟨⟩ := h
  constructor <;> simp_all

/-- The connect of a plain connection is through, and the head of its request is sent. -/
theorem Good.open_plain (h : c.Good) (hc : c.connecting = true) {uri : Uri} (hu : c.uri = some uri)
    (hs : uri.https = false) : (Conn.opened { c with connecting := false }).send.Good := by
  obtain ⟨⟩ := h
  constructor <;> simp_all [Conn.opened, Conn.send]

theorem Good.open_tls (h : c.Good) (hc : c.connecting = true) {uri : Uri} (hu : c.uri = some uri) :
    (Conn.tls { c with connecting := false }).opened.send.Good := by
  obtain ⟨⟩ := h
  constructor <;> simp_all [Conn.tls, Conn.opened, Conn.send]

theorem Good.fail (h : c.Good) (hc : c.connecting = true) :
    Conn.Good { c with
      connecting := false
      ended := true
      keepalive := false } := by
  obtain ⟨⟩ := h
  constructor <;> simp_all

theorem Good.sent (h : c.Good) : Conn.Good { c with headers := false } := by
  obtain ⟨⟩ := h
  constructor <;> simp_all

theorem Good.pipe (h : c.Good) (hr : c.reading = false) (hd : c.data = true) (ho : c.socket ≠ .unset) :
    Conn.Good { c with piping := true } := by
  obtain ⟨⟩ := h
  constructor <;> simp_all

theorem Good.piped (h : c.Good) (hp : c.piping = true) :
    Conn.Good { c with
      piping := false
      data := false } := by
  obtain ⟨⟩ := h
  constructor <;> simp_all

theorem Good.posted (h : c.Good) : Conn.Good { c with
      posting := false
      post := false } := by
  obtain ⟨⟩ := h
  constructor <;> simp_all

theorem Good.end (h : c.Good) (hc : c.closing = true) : Conn.Good { c with
      closing := false
      ended := true } := by
  obtain ⟨⟩ := h
  constructor <;> simp_all

theorem Good.closeFailed (h : c.Good) : Conn.Good { c with closing := false } := by
  obtain ⟨⟩ := h
  constructor <;> simp_all

/-- What a request fills in does not matter. -/
theorem Good.use (h : c.Good) (keepalive : Bool) (parent : Option Nat) (method : Option Method) (callback : Callback) :
    Conn.Good { c with
      keepalive := keepalive
      parent := parent
      method := method
      callback := callback } := { h with }

/-- A plain connection whose response is through can wait. -/
theorem Good.waits_rest (h : c.Good) (hf : c.freed = false) (ho : c.socket = .opened) (hs : c.ssl = false)
    (hp : c.piping = false) (hpost : c.post = false) (hu : c.users = 0) : c.rest.Waits := by
  obtain ⟨⟩ := h
  constructor <;> simp_all [Conn.rest, Conn.clean]

end Conn

/-! ## The pool -/

namespace Pool

/-- **The invariant.** -/
structure Inv (s : Pool) : Prop where
  nodup : s.idle.Nodup
  fresh : ∀ i, s.next ≤ i → s.conns i = {}
  waits : ∀ i ∈ s.idle, (s.conns i).Waits
  good : ∀ i, (s.conns i).Good
  same : ∀ p ∈ s.handed, p.1 = p.2

variable {s s' : Pool} {i : Nat}

@[simp] theorem on_conns_self (f : Conn → Conn) : (s.on i f).conns i = f (s.conns i) := by simp [on]

theorem on_conns_ne {j : Nat} (h : j ≠ i) (f : Conn → Conn) : (s.on i f).conns j = s.conns j := by simp [on, h]

/-- Two changes of one connection are one. -/
theorem on_on (f g : Conn → Conn) : (s.on i f).on i g = s.on i fun c => g (f c) := by simp [on]

@[simp] theorem on_next (f : Conn → Conn) : (s.on i f).next = s.next := rfl

@[simp] theorem on_idle (f : Conn → Conn) : (s.on i f).idle = s.idle := rfl

theorem Inv.init : Inv {} where
  nodup := List.nodup_nil
  fresh _ _ := rfl
  waits _ h := absurd h List.not_mem_nil
  good _ := Conn.good_default
  same _ h := absurd h List.not_mem_nil

/-- A connection that differs from one that was not made yet is one of those that were. -/
theorem Inv.lt_next (h : Inv s) (hne : s.conns i ≠ {}) : i < s.next := by
  by_contra hge
  exact hne (h.fresh i (by omega))

/-- **One connection changes.** It may leave the list or enter it, and it may be a new one. -/
theorem Inv.change (h : Inv s) {c : Conn} (hc : s'.conns = Function.update s.conns i c) (hn : s.next ≤ s'.next)
    (hi : i < s'.next) (hnd : s'.idle.Nodup) (hl : ∀ j ∈ s'.idle, j ≠ i → j ∈ s.idle) (hw : i ∈ s'.idle → c.Waits)
    (hg : c.Good) (hs : ∀ p ∈ s'.handed, p.1 = p.2) : Inv s' where
  nodup := hnd
  fresh j hj := by
    rw [hc, Function.update_of_ne (by omega)]
    exact h.fresh j (by omega)
  waits j hj := by
    rw [hc]
    by_cases hji : j = i
    · subst hji; rw [Function.update_self]; exact hw hj
    · rw [Function.update_of_ne hji]; exact h.waits j (hl j hj hji)
  good j := by
    rw [hc]
    by_cases hji : j = i
    · subst hji; rw [Function.update_self]; exact hg
    · rw [Function.update_of_ne hji]; exact h.good j
  same := hs

theorem Inv.on (h : Inv s) {f : Conn → Conn} (hi : i < s.next) (hw : i ∈ s.idle → (f (s.conns i)).Waits)
    (hg : (f (s.conns i)).Good) : Inv (s.on i f) :=
  h.change rfl le_rfl hi h.nodup (fun _ hj _ => hj) hw hg h.same

/-! ### The end of a connection -/

theorem Inv.httpClientUnlink (h : Inv s) (hi : i < s.next) : Inv (s.httpClientUnlink i) := by
  unfold Pool.httpClientUnlink
  split_ifs with hu
  · refine h.on hi (fun hmem => ?_) ((h.good i).free hu)
    simp [Conn.canUnlink, (h.waits i hmem).ended] at hu
  · exact h

/-- An open connection is closed, and is no longer in the list. -/
theorem Inv.httpClientShutdown (h : Inv s) (hi : i < s.next) (hf : (s.conns i).freed = false)
    (ho : (s.conns i).socket ≠ .unset) :
    Inv (s.httpClientShutdown i) ∧ (s.httpClientShutdown i).next = s.next := by
  unfold Pool.httpClientShutdown
  split_ifs with hu hs hidle
  · refine ⟨h.on hi (fun hmem => ?_) ((h.good i).free hu), rfl⟩
    simp [Conn.canUnlink, (h.waits i hmem).ended] at hu
  · exact ⟨h, rfl⟩
  · refine ⟨h.change rfl le_rfl hi (h.nodup.erase i) (fun j hj _ => List.mem_of_mem_erase hj) (fun hmem => ?_)
      ((h.good i).close hf (by simpa using hs) ho) h.same, rfl⟩
    exact absurd hmem h.nodup.not_mem_erase
  · refine ⟨h.on hi (fun hmem => ?_) ((h.good i).close hf (by simpa using hs) ho), rfl⟩
    exact absurd (h.waits i hmem).idle hidle

theorem Inv.lt_of_idle (h : Inv s) (hi : i ∈ s.idle) : i < s.next :=
  h.lt_next fun hd => by simpa [hd] using (h.waits i hi).opened

theorem mem_idle_shutdown {j : Nat} (hj : j ∈ s.idle) (hji : j ≠ i) : j ∈ (s.httpClientShutdown i).idle := by
  unfold Pool.httpClientShutdown
  split_ifs
  · exact hj
  · exact hj
  · exact (List.mem_erase_of_ne hji).2 hj
  · exact hj

/-- All idle connections are closed, one after the other. -/
theorem Inv.httpConnectionCloseIdle (h : Inv s) : Inv s.httpConnectionCloseIdle := by
  suffices H : ∀ l : List Nat, ∀ {s : Pool}, Inv s → l.Nodup → (∀ i ∈ l, i ∈ s.idle) →
      Inv (l.foldl Pool.httpClientShutdown s) from H s.idle h h.nodup fun _ hi => hi
  intro l
  induction l with
  | nil => intro s h _ _; exact h
  | cons i l ih =>
      intro s h hnd hl
      have hi := hl i List.mem_cons_self
      have hw := h.waits i hi
      obtain ⟨hil, hnd⟩ := List.nodup_cons.1 hnd
      refine ih (h.httpClientShutdown (h.lt_of_idle hi) hw.held (by simp [hw.opened])).1 hnd fun j hj => ?_
      exact mem_idle_shutdown (hl j (List.mem_cons_of_mem i hj)) fun hji => hil (hji ▸ hj)

/-! ### The end of a request -/

theorem rproxyFinish_eq (h : s.rproxyFinish i = some s') : ∃ b, s' = { s with busy := b } := by
  unfold Pool.rproxyFinish at h
  split at h
  · simp at h
  · exact ⟨_, (Option.some.inj h).symm⟩
  · exact ⟨s.busy, (Option.some.inj h).symm⟩

/-- Only the connections, the list and the record of what was handed out matter. -/
theorem Inv.of_eq (h : Inv s) (hc : s'.conns = s.conns) (hn : s'.next = s.next) (hi : s'.idle = s.idle)
    (hs : s'.handed = s.handed) : Inv s' where
  nodup := hi ▸ h.nodup
  fresh := by rw [hc, hn]; exact h.fresh
  waits := by rw [hc, hi]; exact h.waits
  good := by rw [hc]; exact h.good
  same := hs ▸ h.same

/-- **A connection is released** when its request is done with it: it is kept if it is plain and open, and closed
    otherwise. -/
theorem Inv.httpConnectionRelease (h : Inv s) (hi : i < s.next) (hidle : i ∉ s.idle) (hplain : (s.conns i).plain = true)
    (hpiping : (s.conns i).piping = false) (hpost : (s.conns i).post = false) (husers : (s.conns i).users = 0)
    (ho : (s.conns i).socket ≠ .unset) : Inv (s.httpConnectionRelease i) := by
  obtain ⟨hf, hkeep⟩ : (s.conns i).freed = false ∧
      ((s.conns i).keepalive = true → (s.conns i).ssl = false ∧ (s.conns i).stopping = false) := by
    simpa [Conn.plain, or_iff_not_imp_left] using hplain
  unfold Pool.httpConnectionRelease
  split_ifs with hk
  · obtain ⟨hssl, hstop⟩ := hkeep hk
    have ho := (h.good i).socket_opened hf hstop ho
    refine h.change rfl le_rfl hi ?_ (fun j hj hji => ?_) (fun _ => ?_) ((h.good i).rest hf hpiping hpost ho) h.same
    · exact List.Nodup.append h.nodup (List.nodup_singleton i) (by simpa using hidle)
    · exact (List.mem_append.1 hj).resolve_right (by simpa using hji)
    · exact (h.good i).waits_rest hf ho hssl hpiping hpost husers
  · exact (h.httpClientShutdown hi hf ho).1

theorem Inv.httpClientFinishRequest (h : Inv s) (hi : i < s.next) (hidle : i ∉ s.idle)
    (hplain : (s.conns i).data = false → (s.conns i).post = false → (s.conns i).plain = true)
    (hpiping : (s.conns i).data = false → (s.conns i).piping = false) (ho : (s.conns i).socket ≠ .unset)
    (hs : s.httpClientFinishRequest i = some s') : Inv s' := by
  unfold Pool.httpClientFinishRequest at hs
  split_ifs at hs with hbusy
  · exact Option.some.inj hs ▸ h
  · obtain ⟨t, ht, rfl⟩ := Option.map_eq_some_iff.1 hs
    obtain ⟨b, rfl⟩ := rproxyFinish_eq ht
    simp only [Bool.or_eq_true, not_or, Bool.not_eq_true] at hbusy
    have h1 : Inv { s with busy := b } := h.of_eq rfl rfl rfl rfl
    have h2 := h1.on (f := Conn.leave) hi (fun hmem => absurd hmem hidle) (h.good i).leave
    refine h2.httpConnectionRelease hi hidle ?_ ?_ ?_ ?_ ?_
    all_goals rw [on_conns_self]
    · exact hplain hbusy.1 hbusy.2
    · exact hpiping hbusy.1
    · exact hbusy.2
    · have := (h.good i).users
      show (s.conns i).users - 1 = 0
      omega
    · exact ho

/-! ### The start of a request -/

theorem findIdle_some {uri : Uri} (h : s.findIdle uri = some i) :
    i ∈ s.idle ∧ (s.conns i).headers = false ∧ (s.conns i).host = uri.host ∧ (s.conns i).port = uri.port := by
  have hp := List.find?_some h
  simp only [Bool.and_eq_true, Bool.not_eq_true', beq_iff_eq] at hp
  exact ⟨List.mem_of_find?_eq_some h, hp.1.1, hp.1.2, hp.2⟩

/-- What `http_connection_get` returns: a connection from the list, or a new one. -/
theorem httpConnectionGet_some {url : Bytes} {u : Pool} (h : s.httpConnectionGet url = some (u, i)) :
    ∃ uri c, hinParseUri url = some uri ∧ u.conns = Function.update s.conns i c ∧
      ((s.findIdle uri = some i ∧ c = (s.conns i).take uri ∧ u.next = s.next ∧
          u.idle = (if (s.conns i).idle then s.idle.erase i else s.idle) ∧
          u.handed = s.handed ++ [(uri.target, (s.conns i).openedFor)]) ∨
        (i = s.next ∧ c = Conn.new uri ∧ u.next = s.next + 1 ∧ u.idle = s.idle ∧ u.handed = s.handed)) := by
  obtain ⟨uri, huri, h⟩ := Option.map_eq_some_iff.1 h
  split at h
  · rename_i j hj
    obtain ⟨rfl, rfl⟩ := Prod.mk.inj h
    exact ⟨uri, _, huri, rfl, .inl ⟨hj, rfl, rfl, rfl, rfl⟩⟩
  · obtain ⟨rfl, rfl⟩ := Prod.mk.inj h
    exact ⟨uri, _, huri, rfl, .inr ⟨rfl, rfl, rfl, rfl, rfl⟩⟩

/-- What `http_client_start_headers` does to the connection. -/
theorem httpClientStartHeaders_some (h : s.httpClientStartHeaders i = some s') :
    (∃ c, (c = (s.conns i).send ∨ c = (s.conns i).send.upload) ∧ s'.conns = Function.update s.conns i c) ∧
      s'.next = s.next ∧ s'.idle = s.idle ∧ s'.handed = s.handed := by
  unfold Pool.httpClientStartHeaders at h
  split at h
  · simp at h
  · simp at h
  · dsimp only at h
    split_ifs at h with hbody
    · obtain rfl := Option.some.inj h
      exact ⟨⟨_, .inr rfl, by simp [Pool.on]⟩, rfl, rfl, rfl⟩
    · obtain rfl := Option.some.inj h
      exact ⟨⟨_, .inl rfl, rfl⟩, rfl, rfl, rfl⟩
  · obtain rfl := Option.some.inj h
    exact ⟨⟨_, .inl rfl, rfl⟩, rfl, rfl, rfl⟩

/-- What `http_connection_start` does to the connection. -/
theorem httpConnectionStart_some (h : s.httpConnectionStart i = some s') :
    (∃ c, ((s.conns i).socket = .unset ∧ c = { s.conns i with connecting := true } ∨
        (s.conns i).socket ≠ .unset ∧
          (c = { (s.conns i).send with reading := true } ∨ c = { (s.conns i).send.upload with reading := true })) ∧
        s'.conns = Function.update s.conns i c) ∧
      s'.next = s.next ∧ s'.idle = s.idle ∧ s'.handed = s.handed := by
  unfold Pool.httpConnectionStart at h
  split_ifs at h with hunset
  · obtain rfl := Option.some.inj h
    exact ⟨⟨_, .inl ⟨hunset, rfl⟩, rfl⟩, rfl, rfl, rfl⟩
  · obtain ⟨t, ht, rfl⟩ := Option.map_eq_some_iff.1 h
    obtain ⟨⟨c, hc, hconns⟩, hnext, hidle, hhanded⟩ := httpClientStartHeaders_some ht
    refine ⟨⟨{ c with reading := true }, .inr ⟨hunset, ?_⟩, ?_⟩, hnext, hidle, hhanded⟩
    · exact hc.imp (congrArg fun c : Conn => { c with reading := true }) (congrArg fun c : Conn => { c with reading := true })
    · simp [Pool.on, hconns]

/-- A connection that matches an address of its scheme was opened for the server of that address. -/
theorem Inv.target_eq (h : Inv s) {uri : Uri} (hfind : s.findIdle uri = some i)
    (hscheme : (s.conns i).openedFor.https = uri.https) : uri.target = (s.conns i).openedFor := by
  obtain ⟨hi, _, hhost, hport⟩ := findIdle_some hfind
  have hw := h.waits i hi
  have hnamed := (h.good i).named hw.held (.inr (by simp [hw.opened]))
  obtain ⟨h1, h2⟩ := (h.good i).target hw.held
  have hne : uri.port ≠ [] := hport ▸ hnamed
  cases ht : (s.conns i).openedFor with
  | mk https host port =>
      simp only [ht] at hscheme h1 h2
      simp [Uri.target, hne, hscheme, h1, h2, hhost, hport]

/-- **A request is given a connection**, which is connected or sent the head of the request. -/
theorem Inv.get_start (h : Inv s) {url : Bytes} (hurl : s.sameScheme url = true) {u : Pool} {g : Conn → Conn}
    (hg : ∀ c, ∃ keepalive parent method callback, g c = { c with
      keepalive := keepalive
      parent := parent
      method := method
      callback := callback })
    (hget : s.httpConnectionGet url = some (u, i)) (hs : (u.on i g).httpConnectionStart i = some s') :
    Inv s' ∧ s.next ≤ s'.next ∧ ∀ j < s.next, j ∉ s.idle → s'.conns j = s.conns j := by
  obtain ⟨uri, c₀, huri, hu, hcase⟩ := httpConnectionGet_some hget
  obtain ⟨⟨c, hc, hconns⟩, hnext, hidle, hhanded⟩ := httpConnectionStart_some hs
  obtain ⟨keepalive, parent, method, callback, hgc⟩ := hg c₀
  have hself : (u.on i g).conns i = g c₀ := by simp [hu]
  have hconns : s'.conns = Function.update s.conns i c := by simp [hconns, Pool.on, hu]
  rw [hself, hgc] at hc
  obtain ⟨hfind, rfl, hunext, huidle, huhanded⟩ | ⟨rfl, rfl, hunext, huidle, huhanded⟩ := hcase
  · have hi := (findIdle_some hfind).1
    have hw := h.waits i hi
    have hsend := ((h.good i).reuse hw uri).use keepalive parent method callback
    have hgood : c.Good := by
      obtain ⟨hunset, _⟩ | ⟨hne, rfl | rfl⟩ := hc
      · exact absurd (hw.opened.symm.trans hunset) (by simp)
      · exact hsend.fetch hw.held hw.piping rfl hne
      · exact (hsend.upload hw.held hne).fetch hw.held hw.piping rfl hne
    have hidle : s'.idle = s.idle.erase i := by simp [hidle, huidle, hw.idle]
    have hnext : s'.next = s.next := by simp [hnext, hunext]
    have hkeep : ∀ j < s.next, j ∉ s.idle → s'.conns j = s.conns j := fun j _ hj => by
      rw [hconns, Function.update_of_ne (by rintro rfl; exact hj hi)]
    refine ⟨h.change hconns hnext.ge (hnext ▸ h.lt_of_idle hi) (hidle ▸ h.nodup.erase i)
      (fun j hj _ => List.mem_of_mem_erase (hidle ▸ hj)) (fun hmem => ?_) hgood fun p hp => ?_, hnext.ge, hkeep⟩
    · exact absurd (hidle ▸ hmem) h.nodup.not_mem_erase
    · obtain hp | hp := List.mem_append.1 (huhanded ▸ hhanded ▸ hp : p ∈ s.handed ++ _)
      · exact h.same p hp
      · obtain rfl := List.mem_singleton.1 hp
        exact h.target_eq hfind (by simpa [Pool.sameScheme, huri, hfind] using hurl)
  · have hnew := (Conn.good_new uri).use keepalive parent method callback
    have hgood : c.Good := by
      obtain ⟨_, rfl⟩ | ⟨hne, _⟩ := hc
      · exact hnew.connect rfl rfl rfl
      · exact absurd rfl hne
    have hidle : s'.idle = s.idle := by simp [hidle, huidle]
    have hhanded : s'.handed = s.handed := by simp [hhanded, Pool.on, huhanded]
    have hnext : s'.next = s.next + 1 := by simp [hnext, hunext]
    have hkeep : ∀ j < s.next, j ∉ s.idle → s'.conns j = s.conns j := fun j hj _ => by
      rw [hconns, Function.update_of_ne (by omega)]
    refine ⟨h.change hconns (by omega) (by omega) (hidle ▸ h.nodup) (fun j hj _ => hidle ▸ hj) (fun hmem => ?_) hgood
      (hhanded ▸ h.same), by omega, hkeep⟩
    exact absurd (h.lt_of_idle (hidle ▸ hmem)) (lt_irrefl _)

/-! ### Completions -/

theorem findIdle_stopReading (uri : Uri) : (s.on i Conn.stopReading).findIdle uri = s.findIdle uri := by
  unfold findIdle
  congr 1
  funext j
  by_cases hji : j = i
  · subst hji; rw [on_conns_self]; rfl
  · rw [on_conns_ne hji]

theorem sameScheme_stopReading (url : Bytes) : (s.on i Conn.stopReading).sameScheme url = s.sameScheme url := by
  unfold sameScheme
  split
  · rfl
  · rw [findIdle_stopReading]
    split
    · rfl
    · rename_i j _
      by_cases hji : j = i
      · subst hji; rw [on_conns_self]; rfl
      · rw [on_conns_ne hji]

/-- A restart leaves the connection that had failed as it was, but for the client. -/
theorem Inv.httpClientRestart (h : Inv s) (hi : i < s.next) (hidle : i ∉ s.idle)
    (hurl : (s.conns i).parent.isSome → ∀ uri, (s.conns i).uri = some uri → s.sameScheme uri.all = true) (hs : s.httpClientRestart i = some s') :
    Inv s' ∧ i < s'.next ∧ (s'.conns i = s.conns i ∨ s'.conns i = (s.conns i).forget) := by
  unfold Pool.httpClientRestart at hs
  split at hs
  · obtain rfl := Option.some.inj hs
    exact ⟨h, hi, .inl rfl⟩
  · simp at hs
  · rename_i k uri hk huri
    obtain ⟨⟨u, j⟩, hget, hs⟩ := Option.bind_eq_some_iff.1 hs
    obtain ⟨v, hv, rfl⟩ := Option.map_eq_some_iff.1 hs
    have h0 : Inv { s with restarts := s.restarts ++ [⟨k, s.serial k, (s.conns i).pooled⟩] } := { h with }
    obtain ⟨h1, hnext, hkeep⟩ := h0.get_start (hurl (by simp [hk]) uri huri) (fun c => ⟨_, _, _, _, rfl⟩) hget hv
    have hi' : i < v.next := lt_of_lt_of_le hi hnext
    have hvi : v.conns i = s.conns i := hkeep i hi hidle
    refine ⟨h1.on hi' (fun hmem => ?_) (h1.good i |>.use _ _ _ _), hi', .inr (by rw [on_conns_self, hvi])⟩
    exact { h1.waits i hmem with }

theorem Inv.httpClientHeadersCloseCallback (h : Inv s) (hi : i < s.next) (hf : (s.conns i).freed = false)
    (ho : (s.conns i).socket ≠ .unset)
    (hurl : (s.conns i).restarts = true → ∀ uri, (s.conns i).uri = some uri → s.sameScheme uri.all = true)
    (hs : s.httpClientHeadersCloseCallback i = some s') : Inv s' := by
  obtain ⟨t, ht, rfl⟩ := Option.map_eq_some_iff.1 hs
  split_ifs at ht with hlost
  · have hidle : i ∉ s.idle := fun hmem => by simp [(h.waits i hmem).idle] at hlost
    have h0 : Inv (s.noteClose i) := { h with }
    obtain ⟨h1, hi', hc⟩ := h0.httpClientRestart hi hidle (fun hp => hurl (Bool.and_eq_true_iff.2 ⟨hlost, hp⟩)) ht
    refine (h1.httpClientShutdown hi' ?_ ?_).1
    · obtain hc | hc := hc <;> rw [hc] <;> exact hf
    · obtain hc | hc := hc <;> rw [hc] <;> exact ho
  · obtain rfl := Option.some.inj ht
    exact (h.httpClientShutdown hi hf ho).1

theorem Inv.httpClientStartPipe (h : Inv s) (hi : i < s.next) (hidle : i ∉ s.idle)
    (hr : (s.conns i).reading = false) (hd : (s.conns i).data = true) (ho : (s.conns i).socket ≠ .unset) (hs : s.httpClientStartPipe i = some s') : Inv s' := by
  have h1 := h.on (f := fun c => { c with piping := true }) hi (fun hmem => absurd hmem hidle) ((h.good i).pipe hr hd ho)
  unfold Pool.httpClientStartPipe at hs
  split at hs
  · simp at hs
  · exact Option.some.inj hs ▸ { h1 with }
  · exact Option.some.inj hs ▸ h1

/-- A read of the line buffer is outstanding on a connection that has a socket. -/
theorem Inv.reading (h : Inv s) (hr : (s.conns i).reading = true) :
    i < s.next ∧ (s.conns i).freed = false ∧ (s.conns i).socket ≠ .unset := by
  refine ⟨h.lt_next (by intro hd; simp [hd] at hr), ?_, fun hu => ?_⟩
  · by_contra hf
    simp [((h.good i).freed (by simpa using hf)).2.2.1] at hr
  · simp [((h.good i).unset hu).2.1] at hr

theorem Inv.linesRead (h : Inv s) (hr : (s.conns i).reading = true) {r : LineRead}
    (hurl : r ≠ .wait → r ≠ .head → (s.conns i).restarts = true → ∀ uri, (s.conns i).uri = some uri →
      s.sameScheme uri.all = true) (hs : s.linesRead i r = some s') :
    Inv s' := by
  obtain ⟨hi, hf, ho⟩ := h.reading hr
  have h1 : Inv (s.on i Conn.stopReading) :=
    h.on hi (fun hmem => { h.waits i hmem with }) (h.good i).stopReading
  have hself : (s.on i Conn.stopReading).conns i = (s.conns i).stopReading := on_conns_self _
  have hclose : r ≠ .wait → r ≠ .head → (s.on i Conn.stopReading).httpClientHeadersCloseCallback i = some s' → Inv s' :=
    fun hwait hhead hs => h1.httpClientHeadersCloseCallback hi (by rw [hself]; exact hf) (by rw [hself]; exact ho)
      (fun hlost uri huri => by
        rw [sameScheme_stopReading]
        rw [hself] at hlost huri
        exact hurl hwait hhead hlost uri huri) hs
  cases r with
  | closed => exact hclose (by simp) (by simp) hs
  | wait => exact Option.some.inj hs ▸ h
  | error =>
      simp only [Pool.linesRead] at hs
      split_ifs at hs
      exact hclose (by simp) (by simp) hs
  | head =>
      simp only [Pool.linesRead] at hs
      split_ifs at hs with hidle
      have hmem : i ∉ s.idle := fun hmem => hidle (h.waits i hmem).idle
      have hd := ((h.good i).fetching hr).resolve_left hidle
      exact h1.httpClientStartPipe hi hmem (by rw [hself]; rfl) (by rw [hself]; exact hd) (by rw [hself]; exact ho) hs

theorem Inv.connectFailed (h : Inv s) (hc : (s.conns i).connecting = true)
    (hs : (s.on i fun c => { c with connecting := false }).connectFailed i = some s') : Inv s' := by
  have hi := h.lt_next (i := i) (by intro hd; simp [hd] at hc)
  have hidle : i ∉ s.idle := fun hmem => by simp [(h.waits i hmem).connecting] at hc
  obtain ⟨t, ht, rfl⟩ := Option.map_eq_some_iff.1 hs
  obtain ⟨b, rfl⟩ := rproxyFinish_eq ht
  refine Inv.httpClientUnlink (h.change (i := i) (c := _) ?_ le_rfl hi h.nodup (fun _ hj _ => hj)
    (fun hmem => absurd hmem hidle) ((h.good i).fail hc) h.same) hi
  simp [Pool.on]

theorem Inv.startHeaders (h : Inv s) (hi : i < s.next) (hidle : i ∉ s.idle) {f : Conn → Conn}
    (hf : (f (s.conns i)).freed = false) (ho : (f (s.conns i)).socket ≠ .unset) (hg : (f (s.conns i)).send.Good)
    (hs : (s.on i f).httpClientStartHeaders i = some s') : Inv s' := by
  obtain ⟨⟨c, hc, hconns⟩, hnext, hl, hhanded⟩ := httpClientStartHeaders_some hs
  rw [on_conns_self] at hc
  refine h.change (i := i) (c := c) (by rw [hconns]; simp [Pool.on]) hnext.ge (by rw [hnext]; exact hi) (by rw [hl]; exact h.nodup)
    (fun j hj _ => by rw [hl] at hj; exact hj) (fun hmem => absurd (by rw [hl] at hmem; exact hmem) hidle) ?_
    (by rw [hhanded]; exact h.same)
  obtain rfl | rfl := hc
  · exact hg
  · exact hg.upload hf ho

/-- What becomes of a connect. -/
theorem connected_some {ok tlsOk : Bool} (hs : s.connected i ok tlsOk = some s') :
    (s.on i fun c => { c with connecting := false }).connectFailed i = some s' ∨
      ∃ uri, (s.conns i).uri = some uri ∧
        (uri.https = true ∧
            (s.on i fun c => (Conn.tls { c with connecting := false }).opened).httpClientStartHeaders i = some s' ∨
          uri.https = false ∧
            (s.on i fun c => Conn.opened { c with connecting := false }).httpClientStartHeaders i = some s') := by
  unfold Pool.connected at hs
  cases ok with
  | false => exact .inl hs
  | true =>
      cases huri : (s.conns i).uri with
      | none => simp [huri] at hs
      | some uri =>
          simp only [Bool.not_true, Bool.false_eq_true, if_false, on_conns_self, huri, on_on] at hs
          cases hhttps : uri.https with
          | false => exact .inr ⟨uri, rfl, .inr ⟨hhttps, by simpa [hhttps] using hs⟩⟩
          | true =>
              cases tlsOk with
              | false => exact .inl (by simpa [hhttps] using hs)
              | true => exact .inr ⟨uri, rfl, .inl ⟨hhttps, by simpa [hhttps] using hs⟩⟩

theorem Inv.connected (h : Inv s) (hc : (s.conns i).connecting = true) {ok tlsOk : Bool}
    (hs : s.connected i ok tlsOk = some s') : Inv s' := by
  have hi := h.lt_next (i := i) (by intro hd; simp [hd] at hc)
  have hidle : i ∉ s.idle := fun hmem => by simp [(h.waits i hmem).connecting] at hc
  have hf := ((h.good i).connecting hc).2.1
  obtain hs | ⟨uri, huri, ⟨_, hs⟩ | ⟨hhttps, hs⟩⟩ := connected_some hs
  · exact h.connectFailed hc hs
  · exact h.startHeaders hi hidle hf (by simp [Conn.opened]) ((h.good i).open_tls hc huri) hs
  · exact h.startHeaders hi hidle hf (by simp [Conn.opened]) ((h.good i).open_plain hc huri hhttps) hs

theorem Inv.httpClientSentCallback (h : Inv s) (hh : (s.conns i).headers = true) {ok : Bool}
    (hs : s.httpClientSentCallback i ok = some s') : Inv s' := by
  have hi := h.lt_next (i := i) (by intro hd; simp [hd] at hh)
  have hf : (s.conns i).freed = false := by
    by_contra hf
    simp [((h.good i).freed (by simpa using hf)).1] at hh
  have ho : (s.conns i).socket ≠ .unset := fun hu => by simp [((h.good i).unset hu).1] at hh
  have h1 : Inv (s.on i fun c => { c with headers := false }) :=
    h.on hi (fun hmem => { h.waits i hmem with }) (h.good i).sent
  unfold Pool.httpClientSentCallback at hs
  dsimp only at hs
  split_ifs at hs
  · exact Option.some.inj hs ▸ (h1.httpClientShutdown hi (by simpa using hf) (by simpa using ho)).1
  · exact Option.some.inj hs ▸ h1
  · obtain ⟨t, ht, rfl⟩ := Option.map_eq_some_iff.1 hs
    obtain ⟨b, rfl⟩ := rproxyFinish_eq ht
    have h2 : Inv { (s.on i fun c => { c with headers := false }).noteGivenUp i with busy := b } := { h1 with }
    refine (h2.httpClientShutdown hi ?_ ?_).1
    · simpa [noteGivenUp] using hf
    · simpa [noteGivenUp] using ho

theorem Inv.httpClientCloseCallback (h : Inv s) (hc : (s.conns i).closing = true) (ok : Bool) :
    Inv (s.httpClientCloseCallback i ok) := by
  have hi := h.lt_next (i := i) (by intro hd; simp [hd] at hc)
  have hidle : i ∉ s.idle := fun hmem => by simp [(h.waits i hmem).closing] at hc
  unfold Pool.httpClientCloseCallback
  split_ifs
  · refine Inv.httpClientUnlink (h.change (i := i) (c := _) ?_ le_rfl hi h.nodup (fun _ hj _ => hj)
      (fun hmem => absurd hmem hidle) ((h.good i).end hc) h.same) hi
    simp [Pool.on]
  · exact h.on hi (fun hmem => absurd hmem hidle) (h.good i).closeFailed

/-- **One event keeps the idle list sound**, if it is a careful one. -/
theorem Inv.step (h : Inv s) {e : Event} (hg : s.careful e = true) (hs : s.step e = some s') : Inv s' := by
  cases e with
  | proxy k request =>
      simp only [Pool.step, hinProxy] at hs
      split_ifs at hs
      obtain ⟨⟨u, i⟩, hget, hs⟩ := Option.bind_eq_some_iff.1 hs
      have h0 : Inv (s.begin k request) := { h with }
      exact (h0.get_start hg (fun c => ⟨_, _, _, _, rfl⟩) hget hs).1
  | download url =>
      obtain ⟨⟨u, i⟩, hget, hs⟩ := Option.bind_eq_some_iff.1 hs
      exact (h.get_start hg (fun c => ⟨_, _, _, _, rfl⟩) hget hs).1
  | connected i ok tlsOk =>
      simp only [Pool.step] at hs
      split_ifs at hs with hc
      exact h.connected hc hs
  | sent i ok =>
      simp only [Pool.step] at hs
      split_ifs at hs with hh
      exact h.httpClientSentCallback hh hs
  | lines i r =>
      simp only [Pool.step] at hs
      split_ifs at hs with hr
      exact h.linesRead hr (fun hwait hhead hlost uri huri => by simpa [careful, hwait, hhead, hlost, huri] using hg) hs
  | piped i =>
      simp only [Pool.step] at hs
      split_ifs at hs with hp
      simp only [careful, Bool.and_eq_true, Bool.not_eq_true', Bool.or_eq_true] at hg
      have hi := h.lt_next (i := i) (by intro hd; simp [hd] at hp)
      have hidle : i ∉ s.idle := fun hmem => by simp [(h.waits i hmem).piping] at hp
      have ho : (s.conns i).socket ≠ .unset := fun hu => by simp [((h.good i).unset hu).2.2.1] at hp
      have h1 := h.on (f := fun c => { c with
        piping := false
        data := false }) hi (fun hmem => absurd hmem hidle) ((h.good i).piped hp)
      refine h1.httpClientFinishRequest hi hidle ?_ ?_ ?_ hs
      all_goals rw [on_conns_self]
      · exact fun _ hpost => hg.2.resolve_left (by simp_all)
      · exact fun _ => rfl
      · exact ho
  | posted i =>
      simp only [Pool.step] at hs
      split_ifs at hs with hp
      simp only [careful, Bool.or_eq_true] at hg
      have hi := h.lt_next (i := i) (by intro hd; simp [hd] at hp)
      have hidle : i ∉ s.idle := fun hmem => by simp [(h.waits i hmem).posting] at hp
      have ho : (s.conns i).socket ≠ .unset := fun hu => by simp [((h.good i).unset hu).2.2.2.1] at hp
      have h1 := h.on (f := fun c => { c with
        posting := false
        post := false }) hi (fun hmem => absurd hmem hidle) (h.good i).posted
      have hf : (s.conns i).freed = false := by
        by_contra hf
        simpa [((h.good i).freed (by simpa using hf)).2.1] using (h.good i).posting hp
      refine h1.httpClientFinishRequest hi hidle ?_ ?_ ?_ hs
      all_goals rw [on_conns_self]
      · exact fun hdata _ => hg.resolve_left (by simp_all)
      · intro hdata
        by_contra hpiping
        simp_all [((h.good i).piping (by simpa using hpiping)).2 hf]
      · exact ho
  | closed i ok =>
      simp only [Pool.step] at hs
      split_ifs at hs with hc
      exact Option.some.inj hs ▸ h.httpClientCloseCallback hc ok
  | closeIdle => exact Option.some.inj hs ▸ h.httpConnectionCloseIdle

theorem Inv.sound (h : Inv s) : s.Sound where
  once := h.nodup
  marked i hi := (h.waits i hi).idle
  opened i hi := ⟨(h.waits i hi).opened, (h.waits i hi).held⟩
  live i hi hssl := by simp [(h.waits i hi).plain] at hssl
  single i := (h.good i).users
  same := h.same

end Pool

/-! ## Runs -/

/-- **The idle list is sound in every state**, if no response ends on a connection that is kept and uses TLS or is being
    closed, and no idle connection of the other scheme matches an address. -/
theorem pool_sound {es : List Event} {s : Pool} (h : RunWith Pool.step (fun s e => s.careful e = true) {} es s) :
    s.Sound :=
  (h.invariant Pool.Inv.init fun _ _ _ hinv hg hs => hinv.step hg hs).sound

/-- Two requests for one server, the second on the connection of the first one. -/
def reuseRun (url : Bytes) : List Event :=
  [.proxy 0 ⟨.get, [], url, []⟩, .connected 0 true true, .sent 0 true, .lines 0 .head, .piped 0, .proxy 1 ⟨.get, [], url, []⟩]

theorem pool_sound_sample :
    ∃ s, RunWith Pool.step (fun s e => s.careful e = true) {} (reuseRun (bytes "http://a:80/")) s ∧
      s.handed = [(⟨false, bytes "a", bytes "80"⟩, ⟨false, bytes "a", bytes "80"⟩)] ∧ s.Sound := by
  have hs : ((execWith Pool.step Pool.careful {} (reuseRun (bytes "http://a:80/"))).map Pool.handed) =
      some [(⟨false, bytes "a", bytes "80"⟩, ⟨false, bytes "a", bytes "80"⟩)] := by decide
  obtain ⟨s, hs, hh⟩ := Option.map_eq_some_iff.1 hs
  have hrun := RunWith.of_exec (fun _ _ h => h) _ hs
  exact ⟨s, hrun, hh, pool_sound hrun⟩

/-- A response over TLS ends, and its connection waits with an SSL object that is freed. -/
theorem pool_unsound :
    ∃ es s, Run Pool.step {} es s ∧ ¬ s.Sound := by
  have hs : ((execWith Pool.step (fun _ _ => true) {} ((reuseRun (bytes "https://a/")).take 5)).map fun s =>
      (s.idle, (s.conns 0).ssl, (s.conns 0).sslLive)) = some ([0], true, false) := by decide
  obtain ⟨s, hs, hv⟩ := Option.map_eq_some_iff.1 hs
  refine ⟨_, s, RunWith.of_exec (fun _ _ _ => trivial) _ hs, fun hsound => ?_⟩
  simp only [Prod.mk.injEq] at hv
  have := hsound.live 0 (by simp [hv.1]) hv.2.1
  simp [hv.2.2] at this

end Upstreams
end Http
end Hin9
