import Hin9.Http.UpstreamsIdle

/-!
# `Http.UpstreamsRestart` — requests that are sent again (`headers.c`, `rproxy.c`)

A connection from the idle list may have been closed by the upstream while it waited, and `http_client_restart` sends its
request again on another one. It does not ask where the connection came from, how often the request was sent, or what
is left of it: it fires on fresh connections and on responses that cannot be parsed, again and again, and it copies
neither the method nor the bytes of a body that were read from the client. When nothing is sent again, no response is
made up either.

`requests_resent` says what follows for the runs in which every restart is one it should be (`Pool.steady`).
-/

namespace Hin9
namespace Http

namespace ProxiedRequest

/-- What is passed on of a client's request. -/
def passedOn (request : ProxiedRequest) : PassedOn := hinRproxySend request.headers request.behind

/-- What the first attempt to send a request sends. -/
def firstSent (request : ProxiedRequest) (uri : Uri) : SentHead :=
  httpClientStartHeaders (some request.method) uri true request.passedOn

end ProxiedRequest

namespace Upstreams

open Lib

/-! ## What must hold of the requests -/

/-- The client's request an attempt was made for. -/
def Attempt.of (a : Attempt) : Nat × Nat := (a.client, a.serial)

/-- The client's request that was sent again. -/
def Restart.of (r : Restart) : Nat × Nat := (r.client, r.serial)

/-- **Requests are sent again as they should.** Only after a connection from the idle list, and once at most; every attempt
    sends the same, and where there is a second one the whole body is in it. No request is sent more than twice, and
    one that cannot be written or is closed twice without an answer is answered. -/
structure Pool.Resends (s : Pool) : Prop where
  pooled : ∀ r ∈ s.restarts, r.pooled = true
  once : (s.restarts.map Restart.of).Nodup
  same : ∀ a ∈ s.attempts, ∀ b ∈ s.attempts, a.of = b.of → a.sent = b.sent
  whole : ∀ r ∈ s.restarts, ∀ a ∈ s.attempts, a.of = r.of → a.sent.passedOn.rest ≤ 0
  bounded : ∀ id, (s.attempts.map Attempt.of).count id ≤ 2
  answered : ∀ id, id ∈ s.givenUp ∨ 2 ≤ s.closes.count id → id ∈ s.answered

/-- The idle connection a request for an address would be sent on next has no method left of an earlier request. -/
def Pool.sendsGet (s : Pool) (url : Bytes) : Bool :=
  match hinParseUri url with
  | none => true
  | some uri =>
      match s.findIdle uri with
      | none => true
      | some j => sentMethod (s.conns j).method == sentMethod none

/-- A request may be sent again: its connection came from the idle list, it has not been sent again before, it is sent as a
    `GET`, and its whole body has been read together with its head. -/
def Pool.mayRestart (s : Pool) (i : Nat) : Bool :=
  match (s.conns i).parent, (s.conns i).uri with
  | some k, some uri =>
      (s.conns i).pooled && !(s.restarts.map Restart.of).contains (k, s.serial k) &&
        sentMethod (some (s.requests k).method) == sentMethod none && decide ((s.requests k).passedOn.rest ≤ 0) &&
        s.sendsGet uri.all
  | _, _ => true

/-- The steps after which requests are sent as they should: every restart may be one, and no head of a client's request
    fails to be written. -/
def Pool.steady (s : Pool) : Event → Bool
  | .lines i r => r == .wait || r == .head || !(s.conns i).restarts || s.mayRestart i
  | .sent i ok => ok || (s.conns i).stopping || (s.conns i).parent.isNone
  | _ => true

/-! ## The invariant -/

/-- A connection without a descriptor has nothing outstanding but its connect, and no other waits for one. -/
structure Conn.Shape (c : Conn) : Prop where
  unset : c.socket = .unset → c.headers = false ∧ c.reading = false ∧ c.piping = false ∧ c.posting = false ∧
    c.post = false ∧ c.closing = false
  connecting : c.connecting = true → c.socket = .unset

/-- A connection is about to send a request, or has sent it. -/
structure Conn.Serves (c : Conn) (request : ProxiedRequest) : Prop where
  uri : ∃ uri, c.uri = some uri ∧ hinParseUri request.url = some uri
  method : sentMethod c.method = sentMethod (some request.method)
  keepalive : c.keepalive = true

/-- The records of what was sent, by themselves. -/
structure Pool.Records (s : Pool) : Prop where
  attemptsUpTo : ∀ a ∈ s.attempts, a.serial ≤ s.serial a.client
  attemptsNow : ∀ a ∈ s.attempts, a.serial = s.serial a.client →
    ∃ uri, hinParseUri (s.requests a.client).url = some uri ∧ a.sent = (s.requests a.client).firstSent uri
  restartsUpTo : ∀ r ∈ s.restarts, r.serial ≤ s.serial r.client
  restartsNow : ∀ r ∈ s.restarts, r.serial = s.serial r.client → (s.requests r.client).passedOn.rest ≤ 0
  same : ∀ a ∈ s.attempts, ∀ b ∈ s.attempts, a.of = b.of → a.sent = b.sent
  whole : ∀ r ∈ s.restarts, ∀ a ∈ s.attempts, a.of = r.of → a.sent.passedOn.rest ≤ 0
  pooled : ∀ r ∈ s.restarts, r.pooled = true
  once : (s.restarts.map Restart.of).Nodup
  bounded : ∀ id, (s.attempts.map Attempt.of).count id ≤ 1 + (s.restarts.map Restart.of).count id
  closes : s.closes = s.restarts.map Restart.of
  givenUp : s.givenUp = []

/-- There is an attempt left for a client's request: none has been made, or the last one was closed. -/
def Pool.Due (s : Pool) (k : Nat) : Prop :=
  (s.attempts.map Attempt.of).count (k, s.serial k) ≤ (s.restarts.map Restart.of).count (k, s.serial k)

/-- **The invariant.** The connection `old`, if there is one, is about to lose its client. -/
structure Pool.Ledger (old : Option Nat) (s : Pool) : Prop extends Pool.Records s where
  fresh : ∀ i, s.next ≤ i → s.conns i = {}
  shape : ∀ i, (s.conns i).Shape
  listed : ∀ i ∈ s.idle, (s.conns i).socket ≠ .unset
  busy : ∀ i k, some i ≠ old → (s.conns i).parent = some k → s.busy k = true
  single : ∀ i j k, some i ≠ old → some j ≠ old → (s.conns i).parent = some k → (s.conns j).parent = some k → i = j
  serves : ∀ i k, some i ≠ old → (s.conns i).parent = some k → (s.conns i).callback = .proxy →
    (s.conns i).Serves (s.requests k)
  due : ∀ i k, some i ≠ old → (s.conns i).parent = some k → (s.conns i).connecting = true → s.Due k

/-! ## Changes that send nothing -/

/-- A connection changes, and serves its client as before or not at all. -/
structure Conn.Kept (c c' : Conn) : Prop where
  shape : c.Shape → c'.Shape
  socket : c.socket ≠ .unset → c'.socket ≠ .unset
  owner : c'.parent = none ∨ c'.parent = c.parent ∧ c'.uri = c.uri ∧ c'.method = c.method ∧
    c'.keepalive = c.keepalive ∧ c'.callback = c.callback
  connecting : c'.connecting = true → c.connecting = true

namespace Conn

variable {c c' c'' : Conn}

theorem Kept.refl (c : Conn) : Kept c c := ⟨id, id, .inr ⟨rfl, rfl, rfl, rfl, rfl⟩, id⟩

theorem Kept.trans (h : Kept c c') (h' : Kept c' c'') : Kept c c'' where
  shape := h'.shape ∘ h.shape
  socket := h'.socket ∘ h.socket
  owner := by
    rcases h'.owner with hnone | ⟨hparent, huri, hmethod, hkeep, hcallback⟩
    · exact .inl hnone
    · rw [hparent, huri, hmethod, hkeep, hcallback]
      exact h.owner
  connecting := h.connecting ∘ h'.connecting

theorem shape_default : Conn.Shape {} := by
  constructor <;> simp

theorem shape_new (uri : Uri) : (Conn.new uri).Shape := by
  constructor <;> simp [Conn.new]

/-- A connection with something outstanding is not waiting for its connect. -/
theorem Shape.not_connecting (h : c.Shape) (ho : c.socket ≠ .unset) : c.connecting = false := by
  by_contra hc
  exact ho (h.connecting (by simpa using hc))

theorem kept_free (c : Conn) : Kept c c.free where
  shape h := by
    obtain ⟨⟩ := h
    constructor <;> simp_all [Conn.free, Conn.clean]
  socket h := h
  owner := .inl rfl
  connecting := id

theorem kept_close (ho : c.socket ≠ .unset) : Kept c c.close where
  shape h := by
    have hc := h.not_connecting ho
    constructor <;> simp [Conn.close, hc]
  socket _ := by simp [Conn.close]
  owner := .inr ⟨rfl, rfl, rfl, rfl, rfl⟩
  connecting := id

theorem kept_rest (ho : c.socket ≠ .unset) : Kept c c.rest where
  shape h := by
    have hc := h.not_connecting ho
    constructor <;> simp [Conn.rest, Conn.clean, hc, ho]
  socket h := h
  owner := .inl rfl
  connecting := id

theorem kept_leave (c : Conn) : Kept c c.leave where
  shape h := { h with }
  socket h := h
  owner := .inr ⟨rfl, rfl, rfl, rfl, rfl⟩
  connecting := id

theorem kept_stopReading (c : Conn) : Kept c c.stopReading where
  shape h := by
    obtain ⟨⟩ := h
    constructor <;> simp_all [Conn.stopReading]
  socket h := h
  owner := .inr ⟨rfl, rfl, rfl, rfl, rfl⟩
  connecting := id

theorem kept_forget (c : Conn) : Kept c c.forget where
  shape h := { h with }
  socket h := h
  owner := .inl rfl
  connecting := id

end Conn

namespace Pool

variable {s s' s'' : Pool} {i : Nat} {old : Option Nat}

/-- Nothing is sent, and no request begins or ends. -/
structure Unsent (s s' : Pool) : Prop where
  requests : s'.requests = s.requests
  serial : s'.serial = s.serial
  busy : s'.busy = s.busy
  attempts : s'.attempts = s.attempts
  restarts : s'.restarts = s.restarts
  closes : s'.closes = s.closes
  givenUp : s'.givenUp = s.givenUp

theorem Unsent.trans (h : Unsent s s') (h' : Unsent s' s'') : Unsent s s'' where
  requests := h'.requests.trans h.requests
  serial := h'.serial.trans h.serial
  busy := h'.busy.trans h.busy
  attempts := h'.attempts.trans h.attempts
  restarts := h'.restarts.trans h.restarts
  closes := h'.closes.trans h.closes
  givenUp := h'.givenUp.trans h.givenUp

/-- Nothing is sent, and no client gets a connection. -/
structure Kept (s s' : Pool) : Prop extends Unsent s s' where
  next : s'.next = s.next
  fresh : ∀ i, s.next ≤ i → s'.conns i = s.conns i
  conns : ∀ i, (s.conns i).Kept (s'.conns i)
  idle : ∀ i ∈ s'.idle, i ∈ s.idle ∨ (s'.conns i).socket ≠ .unset

theorem Kept.refl (s : Pool) : Kept s s :=
  ⟨⟨rfl, rfl, rfl, rfl, rfl, rfl, rfl⟩, rfl, fun _ _ => rfl, fun _ => .refl _, fun _ => .inl⟩

theorem Kept.trans (h : Kept s s') (h' : Kept s' s'') : Kept s s'' where
  toUnsent := h.toUnsent.trans h'.toUnsent
  next := h'.next.trans h.next
  fresh i hi := (h'.fresh i (h.next ▸ hi)).trans (h.fresh i hi)
  conns i := (h.conns i).trans (h'.conns i)
  idle i hi := by
    rcases h'.idle i hi with hi | hi
    · exact (h.idle i hi).imp_right (h'.conns i).socket
    · exact .inr hi

/-- One connection changes, and perhaps the list. -/
theorem kept_change {f : Conn → Conn} {l : List Nat} (hi : i < s.next) (hf : (s.conns i).Kept (f (s.conns i)))
    (hl : ∀ j ∈ l, j ∈ s.idle ∨ ((s.on i f).conns j).socket ≠ .unset) : Kept s { s.on i f with idle := l } where
  next := rfl
  fresh j hj := on_conns_ne (by omega) f
  conns j := by
    by_cases hji : j = i
    · subst hji
      simpa using hf
    · show (s.conns j).Kept ((s.on i f).conns j)
      rw [on_conns_ne hji]
      exact .refl _
  idle := hl
  toUnsent := ⟨rfl, rfl, rfl, rfl, rfl, rfl, rfl⟩

theorem kept_on {f : Conn → Conn} (hi : i < s.next) (hf : (s.conns i).Kept (f (s.conns i))) : Kept s (s.on i f) :=
  kept_change hi hf fun _ => .inl

/-! ### The end of a connection -/

theorem kept_unlink (hi : i < s.next) : Kept s (s.httpClientUnlink i) := by
  unfold httpClientUnlink
  split_ifs
  · exact kept_on hi (Conn.kept_free _)
  · exact .refl s

theorem kept_shutdown (hi : i < s.next) (ho : (s.conns i).socket ≠ .unset) : Kept s (s.httpClientShutdown i) := by
  unfold httpClientShutdown
  split_ifs
  · exact kept_on hi (Conn.kept_free _)
  · exact .refl s
  · exact kept_change hi (Conn.kept_close ho) fun j hj => .inl (List.mem_of_mem_erase hj)
  · exact kept_on hi (Conn.kept_close ho)

/-- All idle connections are closed, one after the other. -/
theorem kept_closeIdle (hl : ∀ i ∈ s.idle, i < s.next ∧ (s.conns i).socket ≠ .unset) :
    Kept s s.httpConnectionCloseIdle := by
  suffices H : ∀ l : List Nat, ∀ {s : Pool}, (∀ i ∈ l, i < s.next ∧ (s.conns i).socket ≠ .unset) →
      Kept s (l.foldl httpClientShutdown s) from H s.idle hl
  intro l
  induction l with
  | nil => exact fun _ => .refl _
  | cons i l ih =>
      intro s hl
      obtain ⟨hi, ho⟩ := hl i List.mem_cons_self
      have hone := kept_shutdown hi ho
      refine hone.trans (ih fun j hj => ?_)
      obtain ⟨hj, ho⟩ := hl j (List.mem_cons_of_mem i hj)
      exact ⟨hone.next ▸ hj, (hone.conns j).socket ho⟩

theorem kept_release (hi : i < s.next) (ho : (s.conns i).socket ≠ .unset) : Kept s (s.httpConnectionRelease i) := by
  unfold httpConnectionRelease
  split_ifs
  · refine kept_change hi (Conn.kept_rest ho) fun j hj => ?_
    rcases List.mem_append.mp hj with hj | hj
    · exact .inl hj
    · obtain rfl := List.mem_singleton.mp hj
      exact .inr (by simpa [Conn.rest, Conn.clean] using ho)
  · exact kept_shutdown hi ho

/-! ## The invariant survives -/

theorem Records.unsent (h : s.Records) (hu : Unsent s s') : s'.Records where
  attemptsUpTo := by rw [hu.attempts, hu.serial]; exact h.attemptsUpTo
  attemptsNow := by rw [hu.attempts, hu.serial, hu.requests]; exact h.attemptsNow
  restartsUpTo := by rw [hu.restarts, hu.serial]; exact h.restartsUpTo
  restartsNow := by rw [hu.restarts, hu.serial, hu.requests]; exact h.restartsNow
  same := by rw [hu.attempts]; exact h.same
  whole := by rw [hu.attempts, hu.restarts]; exact h.whole
  pooled := by rw [hu.restarts]; exact h.pooled
  once := by rw [hu.restarts]; exact h.once
  bounded := by rw [hu.attempts, hu.restarts]; exact h.bounded
  closes := by rw [hu.closes, hu.restarts]; exact h.closes
  givenUp := by rw [hu.givenUp]; exact h.givenUp

theorem Unsent.due (hu : Unsent s s') {k : Nat} (h : s.Due k) : s'.Due k := by
  unfold Due at h ⊢
  rwa [hu.attempts, hu.restarts, hu.serial]

theorem Ledger.kept (h : Ledger old s) (hk : Kept s s') : Ledger old s' where
  toRecords := h.toRecords.unsent hk.toUnsent
  fresh i hi := (hk.fresh i (hk.next ▸ hi)).trans (h.fresh i (hk.next ▸ hi))
  shape i := (hk.conns i).shape (h.shape i)
  listed i hi := (hk.idle i hi).elim (fun hi => (hk.conns i).socket (h.listed i hi)) id
  busy i k hi hp := by
    rcases (hk.conns i).owner with hnone | ⟨hparent, -⟩
    · exact absurd (hnone.symm.trans hp) (by simp)
    · rw [hk.busy]
      exact h.busy i k hi (hparent ▸ hp)
  single i j k hi hj hpi hpj := by
    rcases (hk.conns i).owner with hnone | ⟨hparent, -⟩
    · exact absurd (hnone.symm.trans hpi) (by simp)
    rcases (hk.conns j).owner with hnone' | ⟨hparent', -⟩
    · exact absurd (hnone'.symm.trans hpj) (by simp)
    exact h.single i j k hi hj (hparent ▸ hpi) (hparent' ▸ hpj)
  serves i k hi hp hc := by
    rcases (hk.conns i).owner with hnone | ⟨hparent, huri, hmethod, hkeep, hcallback⟩
    · exact absurd (hnone.symm.trans hp) (by simp)
    · obtain ⟨hu, hm, hka⟩ := h.serves i k hi (hparent ▸ hp) (hcallback ▸ hc)
      rw [hk.requests]
      exact ⟨huri ▸ hu, hmethod ▸ hm, hkeep ▸ hka⟩
  due i k hi hp hc := by
    rcases (hk.conns i).owner with hnone | ⟨hparent, -⟩
    · exact absurd (hnone.symm.trans hp) (by simp)
    · exact hk.due (h.due i k hi (hparent ▸ hp) ((hk.conns i).connecting hc))

/-- A connection may be set apart. -/
theorem Ledger.apart (h : Ledger none s) (i : Nat) : Ledger (some i) s where
  toRecords := h.toRecords
  fresh := h.fresh
  shape := h.shape
  listed := h.listed
  busy j k _ := h.busy j k (by simp)
  single j j' k _ _ := h.single j j' k (by simp) (by simp)
  serves j k _ := h.serves j k (by simp)
  due j k _ := h.due j k (by simp)

/-- A connection that was set apart has lost its client. -/
theorem Ledger.lost (h : Ledger (some i) s) (hlost : (s.conns i).parent = none) : Ledger none s where
  toRecords := h.toRecords
  fresh := h.fresh
  shape := h.shape
  listed := h.listed
  busy j k _ hp := h.busy j k (by rintro ⟨⟩; simp [hlost] at hp) hp
  single j j' k _ _ hp hp' :=
    h.single j j' k (by rintro ⟨⟩; simp [hlost] at hp) (by rintro ⟨⟩; simp [hlost] at hp') hp hp'
  serves j k _ hp := h.serves j k (by rintro ⟨⟩; simp [hlost] at hp) hp
  due j k _ hp := h.due j k (by rintro ⟨⟩; simp [hlost] at hp) hp

theorem Ledger.init : Ledger none {} where
  attemptsUpTo _ h := absurd h List.not_mem_nil
  attemptsNow _ h := absurd h List.not_mem_nil
  restartsUpTo _ h := absurd h List.not_mem_nil
  restartsNow _ h := absurd h List.not_mem_nil
  same _ h := absurd h List.not_mem_nil
  whole _ h := absurd h List.not_mem_nil
  pooled _ h := absurd h List.not_mem_nil
  once := List.nodup_nil
  bounded _ := by simp
  closes := rfl
  givenUp := rfl
  fresh _ _ := rfl
  shape _ := Conn.shape_default
  listed _ h := absurd h List.not_mem_nil
  busy _ _ _ h := absurd h (by simp)
  single _ _ _ _ _ h := absurd h (by simp)
  serves _ _ _ h := absurd h (by simp)
  due _ _ _ h := absurd h (by simp)

theorem Ledger.lt_next (h : Ledger old s) (hne : s.conns i ≠ {}) : i < s.next := by
  by_contra hge
  exact hne (h.fresh i (by omega))

theorem Ledger.lt_of_listed (h : Ledger old s) (hi : i ∈ s.idle) : i < s.next ∧ (s.conns i).socket ≠ .unset :=
  ⟨h.lt_next fun hd => h.listed i hi (by simp [hd]), h.listed i hi⟩

/-! ### The end of a request -/

/-- **The client's request is finished**, and its connection does not serve it any more. -/
theorem Ledger.finished (h : Ledger none s) {t : Pool} (hf : s.rproxyFinish i = some t) (hk : Kept t s')
    (hlost : (s.conns i).callback = .proxy → (s.conns i).parent.isSome → (s'.conns i).parent = none) :
    Ledger none s' := by
  unfold rproxyFinish at hf
  split at hf
  · exact absurd hf (by simp)
  · rename_i k hcallback hparent
    obtain rfl := Option.some.inj hf
    have hset : Ledger (some i) { s with busy := Function.update s.busy k false } :=
      { h.apart i with
        busy := by
          intro j k' hj hp
          have hother : k' ≠ k := by
            rintro rfl
            exact hj (congrArg some (h.single j i k' (by simp) (by simp) hp hparent))
          show Function.update s.busy k false k' = true
          rw [Function.update_of_ne hother]
          exact h.busy j k' (by simp) hp }
    exact (hset.kept hk).lost (hlost hcallback (by simp [hparent]))
  · obtain rfl := Option.some.inj hf
    exact h.kept hk

/-! ### Sending -/

/-- What `http_client_start_headers` notes. -/
def noted (s : Pool) (i : Nat) : List Attempt :=
  match (s.conns i).uri, (s.conns i).callback, (s.conns i).parent with
  | some uri, .proxy, some k =>
      [⟨k, s.serial k, Http.httpClientStartHeaders (s.conns i).method uri (s.conns i).keepalive (s.requests k).passedOn⟩]
  | _, _, _ => []

/-- What `http_client_start_headers` does: the connection sends, and what it sends for a client is noted. -/
theorem httpClientStartHeaders_noted (h : s.httpClientStartHeaders i = some s') :
    ∃ c, (c = (s.conns i).send ∨ c = (s.conns i).send.upload) ∧
      s' = { s with conns := Function.update s.conns i c, attempts := s.attempts ++ s.noted i } := by
  unfold Pool.httpClientStartHeaders at h
  unfold noted
  cases huri : (s.conns i).uri with
  | none =>
      rw [huri] at h
      exact absurd h (by simp)
  | some uri =>
      rw [huri] at h
      have hplain : (s.conns i).callback ≠ .proxy → s' = s.on i Conn.send := by
        intro hcallback
        cases hc : (s.conns i).callback <;> simp_all
      by_cases hcallback : (s.conns i).callback = .proxy
      · rw [hcallback] at h ⊢
        cases hparent : (s.conns i).parent with
        | none =>
            rw [hparent] at h
            exact absurd h (by simp)
        | some k =>
            rw [hparent] at h
            dsimp only at h
            split_ifs at h with hbody
            · obtain rfl := Option.some.inj h
              exact ⟨_, .inr rfl, by simp [Pool.on, ProxiedRequest.passedOn]⟩
            · obtain rfl := Option.some.inj h
              exact ⟨_, .inl rfl, by simp [Pool.on, ProxiedRequest.passedOn]⟩
      · obtain rfl := hplain hcallback
        refine ⟨_, .inl rfl, ?_⟩
        cases hc : (s.conns i).callback <;> simp_all [Pool.on]

/-- **One more attempt** sends what the ones before it have sent. -/
theorem Records.note (h : s.Records) {k : Nat} {uri : Uri} (huri : hinParseUri (s.requests k).url = some uri)
    (hdue : s.Due k) :
    Records { s with attempts := s.attempts ++ [⟨k, s.serial k, (s.requests k).firstSent uri⟩] } := by
  -- every attempt for the request that is being served has sent the same
  have hnow : ∀ a ∈ s.attempts ++ [⟨k, s.serial k, (s.requests k).firstSent uri⟩], a.of = (k, s.serial k) →
      a.sent = (s.requests k).firstSent uri := by
    intro a ha hof
    rcases List.mem_append.mp ha with hold | hnew
    · obtain ⟨rfl, hserial⟩ := Prod.mk.inj hof
      obtain ⟨uri', huri', hsent⟩ := h.attemptsNow a hold hserial
      obtain rfl := Option.some.inj (huri'.symm.trans huri)
      exact hsent
    · rw [List.mem_singleton.mp hnew]
  have hcases : ∀ a ∈ s.attempts ++ [⟨k, s.serial k, (s.requests k).firstSent uri⟩], a ∈ s.attempts ∨ a.of = (k, s.serial k) := by
    intro a ha
    refine (List.mem_append.mp ha).imp_right fun ha => ?_
    rw [List.mem_singleton.mp ha]
    rfl
  refine ⟨?_, ?_, h.restartsUpTo, h.restartsNow, ?_, ?_, h.pooled, h.once, ?_, h.closes, h.givenUp⟩
  · intro a ha
    rcases hcases a ha with hold | hof
    · exact h.attemptsUpTo a hold
    · obtain ⟨rfl, hserial⟩ := Prod.mk.inj hof
      exact hserial.le
  · intro a ha hserial
    rcases hcases a ha with hold | hof
    · exact h.attemptsNow a hold hserial
    · have hsent := hnow a ha hof
      obtain ⟨rfl, -⟩ := Prod.mk.inj hof
      exact ⟨uri, huri, hsent⟩
  · intro a ha b hb hab
    rcases hcases a ha with hold | hof
    · rcases hcases b hb with hold' | hof'
      · exact h.same a hold b hold' hab
      · rw [hnow a ha (hab.trans hof'), hnow b hb hof']
    · rw [hnow a ha hof, hnow b hb (hab.symm.trans hof)]
  · intro r hr a ha hra
    rcases hcases a ha with hold | hof
    · exact h.whole r hr a hold hra
    · rw [hnow a ha hof]
      obtain ⟨rfl, hserial⟩ := Prod.mk.inj (hra.symm.trans hof)
      exact h.restartsNow r hr hserial
  · intro id
    show ((s.attempts ++ _).map Attempt.of).count id ≤ 1 + (s.restarts.map Restart.of).count id
    rw [List.map_append, List.count_append]
    by_cases hid : id = (k, s.serial k)
    · subst hid
      have hcount : ([⟨k, s.serial k, (s.requests k).firstSent uri⟩].map Attempt.of).count (k, s.serial k) = 1 := by
        simp [Attempt.of]
      unfold Due at hdue
      omega
    · have hcount : ([⟨k, s.serial k, (s.requests k).firstSent uri⟩].map Attempt.of).count id = 0 := by
        simp [Attempt.of, Ne.symm hid]
      have hbound := h.bounded id
      omega

/-- An attempt for one client leaves what is due of the others. -/
theorem due_note {k k' : Nat} {sent : SentHead} (hk : k' ≠ k) (h : s.Due k') :
    Due { s with attempts := s.attempts ++ [⟨k, s.serial k, sent⟩] } k' := by
  unfold Due at h ⊢
  have hcount : ([⟨k, s.serial k, sent⟩].map Attempt.of).count (k', s.serial k') = 0 := by
    simp [Attempt.of, Ne.symm hk]
  rw [List.map_append, List.count_append, hcount, Nat.add_zero]
  exact h

/-- A connection has the client to itself, but for the one that is set apart. -/
def Lone (old : Option Nat) (s : Pool) (i : Nat) : Prop :=
  ∀ k, (s.conns i).parent = some k → ∀ j, j ≠ i → some j ≠ old → (s.conns j).parent ≠ some k

theorem Ledger.lone (h : Ledger old s) (hi : some i ≠ old) : Lone old s i :=
  fun k hk j hji hj hk' => hji (h.single j i k hj hi hk' hk)

theorem kept_send (c : Conn) (ho : c.socket ≠ .unset) {c' : Conn} (hc : c' = c.send ∨ c' = c.send.upload) : c.Kept c' where
  shape h := by
    have hconnecting := h.not_connecting ho
    rcases hc with rfl | rfl
    · constructor <;> simp [Conn.send, hconnecting, ho]
    · constructor <;> simp [Conn.send, Conn.upload, hconnecting, ho]
  socket _ := by rcases hc with rfl | rfl <;> exact ho
  owner := by rcases hc with rfl | rfl <;> exact .inr ⟨rfl, rfl, rfl, rfl, rfl⟩
  connecting h := by rcases hc with rfl | rfl <;> exact h

/-- Descriptors stay, and connections. -/
structure Later (s s' : Pool) : Prop where
  next : s.next ≤ s'.next
  socket : ∀ j, (s.conns j).socket ≠ .unset → (s'.conns j).socket ≠ .unset

theorem Later.trans (h : Later s s') (h' : Later s' s'') : Later s s'' :=
  ⟨h.next.trans h'.next, fun j hj => h'.socket j (h.socket j hj)⟩

theorem Kept.later (h : Kept s s') : Later s s' := ⟨h.next.ge, fun j hj => (h.conns j).socket hj⟩

/-- **A request is sent.** -/
theorem Ledger.startHeaders (h : Ledger old s) (hi : i < s.next) (ho : (s.conns i).socket ≠ .unset)
    (hserve : ∀ k, (s.conns i).parent = some k → (s.conns i).callback = .proxy →
      (s.conns i).Serves (s.requests k) ∧ s.Due k)
    (hlone : Lone old s i) (hs : s.httpClientStartHeaders i = some s') : Ledger old s' ∧ Later s s' := by
  obtain ⟨c, hc, rfl⟩ := httpClientStartHeaders_noted hs
  have hkept : Kept s { s with conns := Function.update s.conns i c } := @kept_on s i (fun _ => c) hi (kept_send _ ho hc)
  have hledger := h.kept hkept
  refine ⟨?_, ⟨le_rfl, fun j hj => (hkept.conns j).socket hj⟩⟩
  have hnoted : s.noted i = [] ∨ ∃ k uri, (s.conns i).parent = some k ∧ (s.conns i).callback = .proxy ∧
      (s.conns i).uri = some uri := by
    unfold noted
    split
    · rename_i uri k huri hcallback hparent
      exact .inr ⟨k, uri, hparent, hcallback, huri⟩
    · exact .inl rfl
  rcases hnoted with hnone | ⟨k, uri, hparent, hcallback, huri⟩
  · rw [hnone, List.append_nil]
    exact hledger
  · obtain ⟨⟨⟨uri', huri', hparse⟩, hmethod, hkeep⟩, hdue⟩ := hserve k hparent hcallback
    obtain rfl := Option.some.inj (huri.symm.trans huri')
    have hone : s.noted i = [⟨k, s.serial k, (s.requests k).firstSent uri⟩] := by
      unfold noted
      rw [huri, hcallback, hparent, hkeep]
      simp [ProxiedRequest.firstSent, Http.httpClientStartHeaders, hmethod]
    rw [hone]
    refine { hledger with
      toRecords := (hledger.toRecords.note hparse hdue)
      due := ?_ }
    intro j k' hj hp hconnecting
    by_cases hji : j = i
    · -- what is sent on has its descriptor
      subst hji
      have hshape := hledger.shape j
      have hopen : ((Function.update s.conns j c) j).socket ≠ .unset := (hkept.conns j).socket ho
      rw [hshape.not_connecting hopen] at hconnecting
      exact absurd hconnecting (by simp)
    · have hsame : (Function.update s.conns i c) j = s.conns j := Function.update_of_ne hji c s.conns
      have hp' : (s.conns j).parent = some k' := hsame ▸ hp
      have hother : k' ≠ k := by
        rintro rfl
        exact hlone k' hparent j hji hj hp'
      exact due_note hother (hledger.due j k' hj hp hconnecting)

/-- A connection is given to a client, or a new one is made. -/
theorem Ledger.put (h : Ledger old s) {c : Conn} (hconns : s'.conns = Function.update s.conns i c) (hu : Unsent s s')
    (hn : s.next ≤ s'.next) (hi : i < s'.next) (hl : ∀ j ∈ s'.idle, j ∈ s.idle ∧ (j = i → c.socket ≠ .unset))
    (hshape : c.Shape)
    (hown : some i ≠ old → ∀ k, c.parent = some k → s.busy k = true ∧
      (∀ j, j ≠ i → some j ≠ old → (s.conns j).parent ≠ some k) ∧
      (c.callback = .proxy → c.Serves (s.requests k)) ∧ (c.connecting = true → s.Due k)) :
    Ledger old s' := by
  have hself : s'.conns i = c := by rw [hconns, Function.update_self]
  have hother : ∀ j, j ≠ i → s'.conns j = s.conns j := fun j hj => by rw [hconns, Function.update_of_ne hj]
  refine ⟨h.toRecords.unsent hu, ?_, ?_, ?_, ?_, ?_, ?_, ?_⟩
  · intro j hj
    have hji : j ≠ i := by
      rintro rfl
      exact absurd hi (not_lt.mpr hj)
    exact (hother j hji).trans (h.fresh j (hn.trans hj))
  · intro j
    by_cases hji : j = i
    · subst hji; rw [hself]; exact hshape
    · rw [hother j hji]; exact h.shape j
  · intro j hj
    by_cases hji : j = i
    · subst hji; rw [hself]; exact (hl j hj).2 rfl
    · rw [hother j hji]; exact h.listed j (hl j hj).1
  · intro j k hj hp
    rw [hu.busy]
    by_cases hji : j = i
    · subst hji; rw [hself] at hp; exact (hown hj k hp).1
    · rw [hother j hji] at hp; exact h.busy j k hj hp
  · intro j j' k hj hj' hp hp'
    by_cases hji : j = i
    · subst hji
      by_cases hji' : j' = j
      · exact hji'.symm
      · rw [hself] at hp
        rw [hother j' hji'] at hp'
        exact absurd hp' ((hown hj k hp).2.1 j' hji' hj')
    · by_cases hji' : j' = i
      · subst hji'
        rw [hself] at hp'
        rw [hother j hji] at hp
        exact absurd hp ((hown hj' k hp').2.1 j hji hj)
      · rw [hother j hji] at hp
        rw [hother j' hji'] at hp'
        exact h.single j j' k hj hj' hp hp'
  · intro j k hj hp hc
    rw [hu.requests]
    by_cases hji : j = i
    · subst hji; rw [hself] at hp hc ⊢; exact (hown hj k hp).2.2.1 hc
    · rw [hother j hji] at hp hc ⊢; exact h.serves j k hj hp hc
  · intro j k hj hp hc
    by_cases hji : j = i
    · subst hji; rw [hself] at hp hc; exact hu.due ((hown hj k hp).2.2.2 hc)
    · rw [hother j hji] at hp hc; exact hu.due (h.due j k hj hp hc)

/-- **A connection is started**: it is connected first, or sends at once. -/
theorem Ledger.start (h : Ledger old s) (hi : i < s.next)
    (hserve : ∀ k, (s.conns i).parent = some k → (s.conns i).callback = .proxy →
      (s.conns i).Serves (s.requests k) ∧ s.Due k)
    (hdue : ∀ k, (s.conns i).parent = some k → (s.conns i).socket = .unset → s.Due k)
    (hlone : Lone old s i) (hs : s.httpConnectionStart i = some s') : Ledger old s' ∧ Later s s' := by
  unfold httpConnectionStart at hs
  split_ifs at hs with hunset
  · obtain rfl := Option.some.inj hs
    have hshape := h.shape i
    refine ⟨?_, le_rfl, fun j hj => ?_⟩
    · refine h.put (c := { s.conns i with connecting := true }) rfl ⟨rfl, rfl, rfl, rfl, rfl, rfl, rfl⟩ le_rfl hi
        (fun j hj => ⟨hj, fun hji => absurd hunset (h.listed i (hji ▸ hj))⟩) ⟨hshape.unset, fun _ => hunset⟩ ?_
      intro hold k hp
      have hserves : (s.conns i).callback = .proxy → (s.conns i).Serves (s.requests k) := h.serves i k hold hp
      exact ⟨h.busy i k hold hp, hlone k hp, fun hc => ⟨(hserves hc).uri, (hserves hc).method, (hserves hc).keepalive⟩,
        fun _ => hdue k hp hunset⟩
    · by_cases hji : j = i
      · subst hji
        simpa using hj
      · rwa [on_conns_ne hji]
  · obtain ⟨t, ht, rfl⟩ := Option.map_eq_some_iff.mp hs
    obtain ⟨hledger, hlater⟩ := h.startHeaders hi hunset hserve hlone ht
    have ho := hlater.socket i hunset
    have hkept : Kept t (t.on i fun c => { c with reading := true }) := by
      refine kept_on (lt_of_lt_of_le hi hlater.next) ⟨fun hshape => ?_, id, .inr ⟨rfl, rfl, rfl, rfl, rfl⟩, id⟩
      exact ⟨fun hu => absurd hu ho, hshape.connecting⟩
    exact ⟨hledger.kept hkept, hlater.trans hkept.later⟩

/-- What `http_connection_get` returns, with all that it leaves as it was. -/
theorem httpConnectionGet_placed {url : Bytes} {u : Pool} (h : s.httpConnectionGet url = some (u, i)) :
    ∃ uri c n l handed, hinParseUri url = some uri ∧
      u = { s with conns := Function.update s.conns i c, next := n, idle := l, handed := handed } ∧
      (∀ j ∈ l, j ∈ s.idle) ∧
      (s.findIdle uri = some i ∧ c = (s.conns i).take uri ∧ n = s.next ∨
        i = s.next ∧ c = Conn.new uri ∧ n = s.next + 1) := by
  obtain ⟨uri, huri, h⟩ := Option.map_eq_some_iff.1 h
  split at h
  · rename_i j hj
    obtain ⟨rfl, rfl⟩ := Prod.mk.inj h
    refine ⟨uri, _, _, _, _, huri, rfl, fun j' hj' => ?_, .inl ⟨hj, rfl, rfl⟩⟩
    split at hj'
    · exact List.mem_of_mem_erase hj'
    · exact hj'
  · obtain ⟨rfl, rfl⟩ := Prod.mk.inj h
    exact ⟨uri, _, _, _, _, huri, rfl, fun _ => id, .inr ⟨rfl, rfl, rfl⟩⟩

/-- The connection `http_connection_get` returns for an address. -/
def Given (s : Pool) (url : Bytes) (i : Nat) (c : Conn) : Prop :=
  ∃ uri, hinParseUri url = some uri ∧
    (s.findIdle uri = some i ∧ c = (s.conns i).take uri ∨ i = s.next ∧ c = Conn.new uri)

theorem Given.uri {url : Bytes} {c : Conn} (h : Given s url i c) : ∃ uri, c.uri = some uri ∧ hinParseUri url = some uri := by
  obtain ⟨uri, huri, ⟨-, rfl⟩ | ⟨-, rfl⟩⟩ := h <;> exact ⟨uri, rfl, huri⟩

/-- **A request is given a connection**, which is started. What is filled in says whose it is. -/
theorem Ledger.get_start (h : Ledger old s) {url : Bytes} {u : Pool} {g : Conn → Conn}
    (hg : ∀ c, ∃ keepalive parent method callback, g c = { c with
      keepalive := keepalive
      parent := parent
      method := method
      callback := callback })
    (hown : ∀ c, Given s url i c → ∀ k, (g c).parent = some k → s.busy k = true ∧
      (∀ j, j ≠ i → some j ≠ old → (s.conns j).parent ≠ some k) ∧
      ((g c).callback = .proxy → (g c).Serves (s.requests k) ∧ s.Due k) ∧ ((g c).socket = .unset → s.Due k))
    (hget : s.httpConnectionGet url = some (u, i)) (hs : (u.on i g).httpConnectionStart i = some s') :
    Ledger old s' ∧ Later s s' := by
  obtain ⟨uri, c, n, l, handed, huri, rfl, hl, hcase⟩ := httpConnectionGet_placed hget
  have hgiven : Given s url i c := ⟨uri, huri, hcase.imp (fun h => ⟨h.1, h.2.1⟩) fun h => ⟨h.1, h.2.1⟩⟩
  -- a listed connection has its descriptor, and a new one is not listed
  have hplace : s.next ≤ n ∧ i < n ∧ c.Shape ∧ (i ∈ s.idle → c.socket ≠ .unset) ∧
      ((s.conns i).socket ≠ .unset → c.socket ≠ .unset) := by
    rcases hcase with ⟨hfind, rfl, rfl⟩ | ⟨rfl, rfl, rfl⟩
    · obtain ⟨hi, ho⟩ := h.lt_of_listed (findIdle_some hfind).1
      exact ⟨le_rfl, hi, { h.shape i with }, fun _ => ho, fun _ => ho⟩
    · refine ⟨Nat.le_succ _, Nat.lt_succ_self _, Conn.shape_new uri, fun hi => ?_, fun ho => ?_⟩
      · exact absurd (h.lt_of_listed hi).1 (lt_irrefl _)
      · rw [h.fresh s.next le_rfl] at ho
        exact absurd rfl ho
  obtain ⟨hn, hi, hshape, hlisted, hsocket⟩ := hplace
  obtain ⟨keepalive, parent, method, callback, hgc⟩ := hg c
  have hgsocket : (g c).socket = c.socket := by rw [hgc]
  have hgshape : (g c).Shape := by rw [hgc]; exact { hshape with }
  obtain ⟨v, hv⟩ : ∃ v : Pool, v = { s with
    conns := Function.update s.conns i (g c)
    next := n
    idle := l
    handed := handed } := ⟨_, rfl⟩
  have hplaced : ({ s with
      conns := Function.update s.conns i c
      next := n
      idle := l
      handed := handed } : Pool).on i g = v := by simp [Pool.on, hv]
  rw [hplaced] at hs
  have hconns : v.conns = Function.update s.conns i (g c) := by rw [hv]
  have hself : v.conns i = g c := by rw [hconns, Function.update_self]
  have hother : ∀ j, j ≠ i → v.conns j = s.conns j := fun j hj => by rw [hconns, Function.update_of_ne hj]
  have hunsent : Unsent s v := by rw [hv]; exact ⟨rfl, rfl, rfl, rfl, rfl, rfl, rfl⟩
  have hnext : v.next = n := by rw [hv]
  have hidle : v.idle = l := by rw [hv]
  have hledger : Ledger old v := by
    refine h.put hconns hunsent (hnext ▸ hn) (hnext ▸ hi) (fun j hj => ?_) hgshape fun _ k hp => ?_
    · have hj := hl j (hidle ▸ hj)
      exact ⟨hj, fun hji => hgsocket ▸ hlisted (hji ▸ hj)⟩
    · obtain ⟨hbusy, hlone, hserve, hdue⟩ := hown c hgiven k hp
      exact ⟨hbusy, hlone, fun hc => (hserve hc).1, fun hc => hdue (hgshape.connecting hc)⟩
  have hlater : Later s v := by
    refine ⟨hnext ▸ hn, fun j hj => ?_⟩
    by_cases hji : j = i
    · subst hji; rw [hself, hgsocket]; exact hsocket hj
    · rwa [hother j hji]
  have hstarted := hledger.start (hnext ▸ hi) (fun k hp hc => ?_) (fun k hp hu => ?_) (fun k hp j hji hj => ?_) hs
  · exact ⟨hstarted.1, hlater.trans hstarted.2⟩
  · rw [hself] at hp hc ⊢
    have hserve := (hown c hgiven k hp).2.2.1 hc
    rw [hunsent.requests]
    exact ⟨hserve.1, hunsent.due hserve.2⟩
  · rw [hself] at hp hu
    exact hunsent.due ((hown c hgiven k hp).2.2.2 hu)
  · rw [hself] at hp
    rw [hother j hji]
    exact (hown c hgiven k hp).2.1 j hji hj

/-! ### The start of a request -/

/-- A client begins a request when no connection serves it. -/
theorem Ledger.begin (h : Ledger none s) {k : Nat} (hidle : s.busy k = false) (request : ProxiedRequest) :
    Ledger none (s.begin k request) ∧ (s.begin k request).Due k ∧ ∀ j, (s.conns j).parent ≠ some k := by
  have hnone : ∀ j, (s.conns j).parent ≠ some k := by
    intro j hp
    have hbusy := h.busy j k (by simp) hp
    rw [hidle] at hbusy
    exact absurd hbusy (by simp)
  have hserial : ∀ k', k' ≠ k → (s.begin k request).serial k' = s.serial k' := fun k' hk => Function.update_of_ne hk _ _
  have hrequests : ∀ k', k' ≠ k → (s.begin k request).requests k' = s.requests k' := fun k' hk => Function.update_of_ne hk _ _
  have hnew : (s.begin k request).serial k = s.serial k + 1 := Function.update_self _ _ _
  refine ⟨⟨⟨?_, ?_, ?_, ?_, h.same, h.whole, h.pooled, h.once, h.bounded, h.closes, h.givenUp⟩, h.fresh, h.shape, h.listed,
    ?_, h.single, ?_, ?_⟩, ?_, hnone⟩
  · intro a ha
    have hle := h.attemptsUpTo a ha
    by_cases hk : a.client = k
    · rw [hk, hnew]
      rw [hk] at hle
      omega
    · rwa [hserial _ hk]
  · intro a ha hser
    have hle := h.attemptsUpTo a ha
    by_cases hk : a.client = k
    · rw [hk, hnew] at hser
      rw [hk] at hle
      omega
    · rw [hserial _ hk] at hser
      rw [hrequests _ hk]
      exact h.attemptsNow a ha hser
  · intro r hr
    have hle := h.restartsUpTo r hr
    by_cases hk : r.client = k
    · rw [hk, hnew]
      rw [hk] at hle
      omega
    · rwa [hserial _ hk]
  · intro r hr hser
    have hle := h.restartsUpTo r hr
    by_cases hk : r.client = k
    · rw [hk, hnew] at hser
      rw [hk] at hle
      omega
    · rw [hserial _ hk] at hser
      rw [hrequests _ hk]
      exact h.restartsNow r hr hser
  · intro j k' hj hp
    show Function.update s.busy k true k' = true
    by_cases hk : k' = k
    · rw [hk, Function.update_self]
    · rw [Function.update_of_ne hk]
      exact h.busy j k' hj hp
  · intro j k' hj hp hc
    have hk : k' ≠ k := fun hk => hnone j (hk ▸ hp)
    rw [hrequests k' hk]
    exact h.serves j k' hj hp hc
  · intro j k' hj hp hc
    have hk : k' ≠ k := fun hk => hnone j (hk ▸ hp)
    have hdue := h.due j k' hj hp hc
    unfold Due at hdue ⊢
    rwa [hserial k' hk]
  · -- nothing has been sent under the new number
    unfold Due
    rw [hnew, List.count_eq_zero.mpr]
    · exact Nat.zero_le _
    · intro hmem
      obtain ⟨a, ha, hof⟩ := List.mem_map.mp hmem
      obtain ⟨hclient, hser⟩ := Prod.mk.inj hof
      have hle := h.attemptsUpTo a ha
      rw [hclient] at hle
      omega

theorem Ledger.hinProxy (h : Ledger none s) {k : Nat} {request : ProxiedRequest} (hs : s.hinProxy k request = some s') :
    Ledger none s' := by
  unfold Pool.hinProxy at hs
  split_ifs at hs with hbusy
  obtain ⟨⟨u, i⟩, hget, hs⟩ := Option.bind_eq_some_iff.1 hs
  obtain ⟨hledger, hdue, hnone⟩ := h.begin (by simpa using hbusy) request
  refine (hledger.get_start (fun c => ⟨_, _, _, _, rfl⟩) (fun c hgiven k' hp => ?_) hget hs).1
  obtain rfl := Option.some.inj hp
  obtain ⟨uri, huri, hparse⟩ := hgiven.uri
  have hrequest : (s.begin k request).requests k = request := Function.update_self _ _ _
  refine ⟨Function.update_self _ _ _, fun j _ _ => hnone j, fun _ => ⟨?_, hdue⟩, fun _ => hdue⟩
  rw [hrequest]
  exact ⟨⟨uri, huri, hparse⟩, rfl, rfl⟩

theorem Ledger.httpDownloadRaw (h : Ledger none s) {url : Bytes} (hs : s.httpDownloadRaw url = some s') :
    Ledger none s' := by
  obtain ⟨⟨u, i⟩, hget, hs⟩ := Option.bind_eq_some_iff.1 hs
  refine (h.get_start (fun c => ⟨_, _, _, _, rfl⟩) (fun c hgiven k hp => ?_) hget hs).1
  obtain ⟨uri, -, ⟨hfind, rfl⟩ | ⟨-, rfl⟩⟩ := hgiven
  · exact ⟨h.busy i k (by simp) hp, h.lone (by simp) k hp, fun hc => absurd hc (by simp),
      fun hu => absurd hu (h.listed i (findIdle_some hfind).1)⟩
  · exact absurd hp (by simp [Conn.new])

/-! ### Restarts -/

theorem hinParseUri_all {url : Bytes} {uri : Uri} (h : hinParseUri url = some uri) : uri.all = url := by
  obtain ⟨n, -, rfl⟩ := Option.map_eq_some_iff.mp h
  rfl

/-- A close that is answered by a restart is noted with it. -/
theorem Records.restart (h : s.Records) {k : Nat} (hnew : (k, s.serial k) ∉ s.restarts.map Restart.of)
    (hrest : (s.requests k).passedOn.rest ≤ 0) :
    Records { s with
      closes := s.closes ++ [(k, s.serial k)]
      restarts := s.restarts ++ [⟨k, s.serial k, true⟩] } := by
  refine ⟨h.attemptsUpTo, h.attemptsNow, ?_, ?_, h.same, ?_, ?_, ?_, ?_, ?_, h.givenUp⟩
  · intro r hr
    rcases List.mem_append.mp hr with hr | hr
    · exact h.restartsUpTo r hr
    · rw [List.mem_singleton.mp hr]
  · intro r hr hser
    rcases List.mem_append.mp hr with hr | hr
    · exact h.restartsNow r hr hser
    · rw [List.mem_singleton.mp hr]
      exact hrest
  · intro r hr a ha hof
    rcases List.mem_append.mp hr with hr | hr
    · exact h.whole r hr a ha hof
    · -- what has been sent for the request is what is passed on of it
      rw [List.mem_singleton.mp hr] at hof
      obtain ⟨hclient, hser⟩ := Prod.mk.inj hof
      obtain ⟨uri, -, hsent⟩ := h.attemptsNow a ha (by rw [hclient]; exact hser)
      rw [hsent, hclient]
      exact hrest
  · intro r hr
    rcases List.mem_append.mp hr with hr | hr
    · exact h.pooled r hr
    · rw [List.mem_singleton.mp hr]
  · have hof : Restart.of ⟨k, s.serial k, true⟩ = (k, s.serial k) := rfl
    rw [List.map_append, List.map_singleton, hof]
    exact h.once.append (List.nodup_singleton _) (by simpa using hnew)
  · intro id
    rw [List.map_append, List.count_append]
    have hbound := h.bounded id
    exact hbound.trans (by omega)
  · show s.closes ++ _ = _
    rw [List.map_append, h.closes]
    rfl

/-- **A request is sent again.** -/
theorem Ledger.httpClientRestart (h : Ledger none s) {k : Nat} (hparent : (s.conns i).parent = some k)
    (hmay : s.mayRestart i = true) (hs : (s.noteClose i).httpClientRestart i = some s') :
    Ledger none s' ∧ Later s s' := by
  unfold Pool.httpClientRestart at hs
  rw [show ((s.noteClose i).conns i).parent = some k from hparent] at hs
  cases huri : (s.conns i).uri with
  | none =>
      rw [show ((s.noteClose i).conns i).uri = none from huri] at hs
      exact absurd hs (by simp)
  | some uri =>
      rw [show ((s.noteClose i).conns i).uri = some uri from huri] at hs
      simp only [mayRestart, hparent, huri, Bool.and_eq_true, Bool.not_eq_true', decide_eq_true_eq, beq_iff_eq] at hmay
      obtain ⟨⟨⟨⟨hpooled, hnew⟩, hget⟩, hrest⟩, hsends⟩ := hmay
      have hnew : (k, s.serial k) ∉ s.restarts.map Restart.of := by
        intro hmem
        rw [List.contains_iff_mem.mpr hmem] at hnew
        exact absurd hnew (by simp)
      obtain ⟨⟨u, j⟩, hgot, hs⟩ := Option.bind_eq_some_iff.1 hs
      obtain ⟨v, hv, rfl⟩ := Option.map_eq_some_iff.1 hs
      obtain ⟨t, ht⟩ : ∃ t : Pool, t = { s with
        closes := s.closes ++ [(k, s.serial k)]
        restarts := s.restarts ++ [⟨k, s.serial k, true⟩] } := ⟨_, rfl⟩
      have hnoted : ({ s.noteClose i with restarts := (s.noteClose i).restarts ++
          [⟨k, (s.noteClose i).serial k, ((s.noteClose i).conns i).pooled⟩] } : Pool) = t := by
        simp [ht, noteClose, hparent, hpooled]
      rw [hnoted] at hgot
      have hledger : Ledger (some i) t := by
        have hset := h.apart i
        rw [ht]
        refine { hset with
          toRecords := h.toRecords.restart hnew hrest
          due := ?_ }
        intro j k' hj hp hc
        have hdue := hset.due j k' hj hp hc
        unfold Due at hdue ⊢
        rw [List.map_append, List.count_append]
        exact hdue.trans (Nat.le_add_right _ _)
      have hdue : t.Due k := by
        -- the attempt that was closed is made up for
        have hbound := h.bounded (k, s.serial k)
        rw [ht]
        show (s.attempts.map Attempt.of).count (k, s.serial k) ≤
          ((s.restarts ++ [(⟨k, s.serial k, true⟩ : Restart)]).map Restart.of).count (k, s.serial k)
        rw [List.map_append, List.count_append]
        have hone : ([(⟨k, s.serial k, true⟩ : Restart)].map Restart.of).count (k, s.serial k) = 1 := by simp [Restart.of]
        rw [hone]
        exact hbound.trans (by omega)
      have hconns : t.conns = s.conns := by rw [ht]
      have hrequests : t.requests = s.requests := by rw [ht]
      have hbusy : t.busy = s.busy := by rw [ht]
      have hfind : ∀ uri, t.findIdle uri = s.findIdle uri := by rw [ht]; exact fun _ => rfl
      -- the connection keeps its callback, also where it is the one that is found
      have hcallback : (u.conns i).callback = (s.conns i).callback ∨ (u.conns i).callback ≠ .proxy := by
        obtain ⟨uri', c, n, l, handed, -, rfl, -, hcase⟩ := httpConnectionGet_placed hgot
        by_cases hij : i = j
        · subst hij
          rcases hcase with ⟨-, rfl, -⟩ | ⟨-, rfl, -⟩
          · exact .inl (by simp [Conn.take, hconns])
          · exact .inr (by simp [Conn.new])
        · exact .inl (by simp [Function.update_of_ne hij, hconns])
      obtain ⟨hstarted, hlater⟩ := hledger.get_start (fun c => ⟨_, _, _, _, rfl⟩) (fun c hgiven k' hp => by
        obtain rfl := Option.some.inj hp
        rw [hbusy, hconns, hrequests]
        refine ⟨h.busy i _ (by simp) hparent, fun j' _ hj' hp' => ?_, fun hc => ⟨?_, hdue⟩, fun _ => hdue⟩
        · exact hj' (congrArg some (h.single j' i _ (by simp) (by simp) hp' hparent))
        · have hproxy : (s.conns i).callback = .proxy := by
            rcases hcallback with hsame | hother
            · exact hsame ▸ hc
            · exact absurd hc hother
          obtain ⟨⟨uri₁, huri₁, hparse₁⟩, -, -⟩ := h.serves i _ (by simp) hparent hproxy
          obtain rfl := Option.some.inj (huri.symm.trans huri₁)
          obtain ⟨uri₂, huri₂, hparse₂⟩ := hgiven.uri
          rw [hinParseUri_all hparse₁] at hparse₂
          obtain rfl := Option.some.inj (hparse₁.symm.trans hparse₂)
          refine ⟨⟨uri, huri₂, hparse₁⟩, ?_, rfl⟩
          -- the connection has no method of its own
          obtain ⟨uri₃, hparse₃, ⟨hfound, rfl⟩ | ⟨-, rfl⟩⟩ := hgiven
          · rw [hfind] at hfound
            simp only [sendsGet, hparse₃, hfound, beq_iff_eq] at hsends
            rw [hget]
            show sentMethod (t.conns j).method = _
            rw [hconns, hsends]
          · rw [hget]
            rfl) hgot hv
      have hsocket : ∀ j', (s.conns j').socket ≠ .unset → (t.conns j').socket ≠ .unset := by
        rw [hconns]
        exact fun _ => id
      have hnext : s.next = t.next := by rw [ht]
      have hi : i < v.next := by
        have hlt := h.lt_next (i := i) (by intro hd; simp [hd] at hparent)
        exact lt_of_lt_of_le (hnext ▸ hlt) hlater.next
      have hforget := kept_on (f := Conn.forget) hi (Conn.kept_forget _)
      refine ⟨(hstarted.kept hforget).lost (by simp [Conn.forget]), ?_⟩
      exact Later.trans ⟨hnext.le, hsocket⟩ (hlater.trans hforget.later)

theorem Ledger.httpClientHeadersCloseCallback (h : Ledger none s) (hi : i < s.next) (ho : (s.conns i).socket ≠ .unset)
    (hmay : (s.conns i).restarts = true → s.mayRestart i = true)
    (hs : s.httpClientHeadersCloseCallback i = some s') : Ledger none s' := by
  obtain ⟨t, ht, rfl⟩ := Option.map_eq_some_iff.1 hs
  have hclosed : Ledger none t → Later s t → Ledger none (t.httpClientShutdown i) := fun ht hlater =>
    ht.kept (kept_shutdown (lt_of_lt_of_le hi hlater.next) (hlater.socket i ho))
  split_ifs at ht with hlost
  · cases hparent : (s.conns i).parent with
    | none =>
        -- nobody waits for the answer
        have hsame : t = s := by
          unfold Pool.httpClientRestart at ht
          rw [show ((s.noteClose i).conns i).parent = none from hparent] at ht
          rw [← Option.some.inj ht]
          simp [noteClose, hparent]
        rw [hsame] at hclosed ⊢
        exact hclosed h ⟨le_rfl, fun _ => id⟩
    | some k =>
        have hrestarts : (s.conns i).restarts = true := by
          unfold Conn.restarts
          rw [hlost, hparent]
          rfl
        obtain ⟨hledger, hlater⟩ := h.httpClientRestart hparent (hmay hrestarts) ht
        exact hclosed hledger hlater
  · obtain rfl := Option.some.inj ht
    exact hclosed h ⟨le_rfl, fun _ => id⟩

/-! ### Completions -/

theorem mayRestart_stopReading : (s.on i Conn.stopReading).mayRestart i = s.mayRestart i := by
  have hsends : ∀ url, (s.on i Conn.stopReading).sendsGet url = s.sendsGet url := by
    intro url
    unfold sendsGet
    split
    · rfl
    · rw [findIdle_stopReading]
      split
      · rfl
      · rename_i j _
        by_cases hji : j = i
        · subst hji; rw [on_conns_self]; rfl
        · rw [on_conns_ne hji]
  unfold mayRestart
  simp only [hsends, on_conns_self]
  rfl

theorem kept_stop (hi : i < s.next) : Kept s (s.on i Conn.stopReading) := kept_on hi (Conn.kept_stopReading _)

/-- What is outstanding is outstanding on a connection that has a descriptor. -/
theorem Ledger.opened (h : Ledger old s)
    (ho : (s.conns i).headers || (s.conns i).reading || (s.conns i).piping || (s.conns i).posting || (s.conns i).closing) :
    i < s.next ∧ (s.conns i).socket ≠ .unset := by
  refine ⟨h.lt_next fun hd => ?_, fun hu => ?_⟩
  · simp [hd] at ho
  · obtain ⟨hheaders, hreading, hpiping, hposting, -, hclosing⟩ := (h.shape i).unset hu
    simp [hheaders, hreading, hpiping, hposting, hclosing] at ho

theorem Ledger.linesRead (h : Ledger none s) (hr : (s.conns i).reading = true) {r : LineRead}
    (hmay : r ≠ .wait → r ≠ .head → (s.conns i).restarts = true → s.mayRestart i = true)
    (hs : s.linesRead i r = some s') : Ledger none s' := by
  obtain ⟨hi, ho⟩ := h.opened (i := i) (by simp [hr])
  have hstop := h.kept (kept_stop hi)
  have hself : (s.on i Conn.stopReading).conns i = (s.conns i).stopReading := on_conns_self _
  have hclose : r ≠ .wait → r ≠ .head → (s.on i Conn.stopReading).httpClientHeadersCloseCallback i = some s' →
      Ledger none s' := fun hwait hhead hs =>
    hstop.httpClientHeadersCloseCallback hi (by rw [hself]; exact ho)
      (fun hlost => by
        rw [mayRestart_stopReading]
        rw [hself] at hlost
        exact hmay hwait hhead hlost) hs
  cases r with
  | closed => exact hclose (by simp) (by simp) hs
  | wait => exact Option.some.inj hs ▸ h
  | error =>
      simp only [Pool.linesRead] at hs
      split_ifs at hs
      exact hclose (by simp) (by simp) hs
  | head =>
      simp only [Pool.linesRead] at hs
      split_ifs at hs
      unfold Pool.httpClientStartPipe at hs
      have hpipe : Kept (s.on i Conn.stopReading) ((s.on i Conn.stopReading).on i fun c => { c with piping := true }) := by
        refine kept_on hi ⟨fun hshape => ?_, id, .inr ⟨rfl, rfl, rfl, rfl, rfl⟩, id⟩
        exact ⟨fun hu => absurd hu (by rw [hself]; exact ho), hshape.connecting⟩
      have hledger := hstop.kept hpipe
      split at hs
      · exact absurd hs (by simp)
      · exact Option.some.inj hs ▸ hledger.kept ⟨⟨rfl, rfl, rfl, rfl, rfl, rfl, rfl⟩, rfl, fun _ _ => rfl, fun _ => .refl _,
          fun _ => .inl⟩
      · exact Option.some.inj hs ▸ hledger

/-- The end of a request on a connection that has a descriptor. -/
theorem Ledger.httpClientFinishRequest (h : Ledger none s) (hi : i < s.next) (ho : (s.conns i).socket ≠ .unset)
    (hs : s.httpClientFinishRequest i = some s') : Ledger none s' := by
  unfold Pool.httpClientFinishRequest at hs
  split_ifs at hs
  · exact Option.some.inj hs ▸ h
  · obtain ⟨t, ht, rfl⟩ := Option.map_eq_some_iff.1 hs
    obtain ⟨b, rfl⟩ := rproxyFinish_eq ht
    have hleave : Kept { s with busy := b } ({ s with busy := b }.on i Conn.leave) := kept_on hi (Conn.kept_leave _)
    have hrelease := kept_release (s := { s with busy := b }.on i Conn.leave) hi (by simpa [Conn.leave] using ho)
    refine h.finished ht (hleave.trans hrelease) fun hcallback hparent => ?_
    -- a client's connection is kept, and loses the client
    obtain ⟨k, hk⟩ := Option.isSome_iff_exists.mp hparent
    have hkeep := (h.serves i k (by simp) hk hcallback).keepalive
    unfold httpConnectionRelease
    rw [if_pos (by simpa [Conn.leave] using hkeep)]
    simp [Pool.on, Conn.rest, Conn.clean]

/-- A connect that fails frees its connection. -/
theorem Ledger.connectFailed (h : Ledger none s) (hc : (s.conns i).connecting = true)
    (hs : (s.on i fun c => { c with connecting := false }).connectFailed i = some s') : Ledger none s' := by
  have hi := h.lt_next (i := i) (by intro hd; simp [hd] at hc)
  have hshape := h.shape i
  obtain ⟨hheaders, hreading, -, -, hpost, -⟩ := hshape.unset (hshape.connecting hc)
  have hdone : Kept s (s.on i fun c => { c with connecting := false }) :=
    kept_on hi ⟨fun hshape => ⟨hshape.unset, fun h => absurd h (by simp)⟩, id, .inr ⟨rfl, rfl, rfl, rfl, rfl⟩,
      fun h => absurd h (by simp)⟩
  obtain ⟨t, ht, rfl⟩ := Option.map_eq_some_iff.1 hs
  obtain ⟨b, rfl⟩ := rproxyFinish_eq ht
  have hfree : ({ s.on i fun c => { c with connecting := false } with busy := b }.on i fun c => { c with
      ended := true
      keepalive := false }).httpClientUnlink i =
      { s.on i fun c => { c with connecting := false } with busy := b }.on i fun c => Conn.free { c with
        ended := true
        keepalive := false } := by
    unfold Pool.httpClientUnlink
    rw [if_pos (by simp [Conn.canUnlink, Pool.on, hheaders, hreading, hpost])]
    simp [Pool.on]
  rw [hfree]
  refine (h.kept hdone).finished ht (kept_on hi ?_) fun _ _ => by simp [Pool.on, Conn.free, Conn.clean]
  refine ⟨fun hshape => ?_, id, .inl rfl, id⟩
  obtain ⟨⟩ := hshape
  constructor <;> simp_all [Conn.free, Conn.clean]

theorem Ledger.connected (h : Ledger none s) (hc : (s.conns i).connecting = true) {ok tlsOk : Bool}
    (hs : s.connected i ok tlsOk = some s') : Ledger none s' := by
  have hi := h.lt_next (i := i) (by intro hd; simp [hd] at hc)
  -- the descriptor is there, and the head is sent
  have hsend : ∀ f : Conn → Conn, (f (s.conns i)).socket = .opened → (f (s.conns i)).connecting = false →
      (f (s.conns i)).parent = (s.conns i).parent ∧ (f (s.conns i)).uri = (s.conns i).uri ∧
        (f (s.conns i)).method = (s.conns i).method ∧ (f (s.conns i)).keepalive = (s.conns i).keepalive ∧
        (f (s.conns i)).callback = (s.conns i).callback →
      (s.on i f).httpClientStartHeaders i = some s' → Ledger none s' := by
    intro f hopen hconnecting hsame hs
    have hkept : Kept s (s.on i f) := by
      refine kept_on hi ⟨fun _ => ⟨fun hu => ?_, fun hcon => ?_⟩, fun _ => by rw [hopen]; simp, .inr hsame, fun hcon => ?_⟩
      · rw [hopen] at hu
        exact absurd hu (by simp)
      · rw [hconnecting] at hcon
        exact absurd hcon (by simp)
      · rw [hconnecting] at hcon
        exact absurd hcon (by simp)
    have hledger := h.kept hkept
    refine (hledger.startHeaders hi (by rw [on_conns_self, hopen]; simp) (fun k hp hcallback => ?_)
      (hledger.lone (by simp)) hs).1
    refine ⟨hledger.serves i k (by simp) hp hcallback, hkept.due (h.due i k (by simp) ?_ hc)⟩
    rw [on_conns_self, hsame.1] at hp
    exact hp
  obtain hs | ⟨uri, huri, ⟨_, hs⟩ | ⟨hhttps, hs⟩⟩ := connected_some hs
  · exact h.connectFailed hc hs
  · exact hsend _ rfl rfl ⟨rfl, rfl, rfl, rfl, rfl⟩ hs
  · exact hsend _ rfl rfl ⟨rfl, rfl, rfl, rfl, rfl⟩ hs

theorem Ledger.httpClientSentCallback (h : Ledger none s) (hh : (s.conns i).headers = true) {ok : Bool}
    (hok : (ok || (s.conns i).stopping || (s.conns i).parent.isNone) = true)
    (hs : s.httpClientSentCallback i ok = some s') : Ledger none s' := by
  obtain ⟨hi, ho⟩ := h.opened (i := i) (by simp [hh])
  have hsent : Kept s (s.on i fun c => { c with headers := false }) := by
    refine kept_on hi ⟨fun hshape => ?_, id, .inr ⟨rfl, rfl, rfl, rfl, rfl⟩, id⟩
    exact ⟨fun hu => absurd hu ho, hshape.connecting⟩
  have hledger := h.kept hsent
  have ho' : ((s.on i fun c => { c with headers := false }).conns i).socket ≠ .unset := (hsent.conns i).socket ho
  unfold Pool.httpClientSentCallback at hs
  dsimp only at hs
  split_ifs at hs with hstop hgood
  · exact Option.some.inj hs ▸ hledger.kept (kept_shutdown hi ho')
  · exact Option.some.inj hs ▸ hledger
  · -- nobody waits for the answer
    have hnone : (s.conns i).parent = none := by
      rw [on_conns_self] at hstop
      simpa [hgood, show (s.conns i).stopping = false by simpa using hstop] using hok
    obtain ⟨t, ht, rfl⟩ := Option.map_eq_some_iff.1 hs
    have hsame : (s.on i fun c => { c with headers := false }).noteGivenUp i = s.on i fun c => { c with headers := false } := by
      simp [noteGivenUp, Pool.on, hnone]
    rw [hsame] at ht
    obtain ⟨b, rfl⟩ := rproxyFinish_eq ht
    refine hledger.finished ht (kept_shutdown hi ho') fun _ hparent => ?_
    rw [on_conns_self] at hparent
    rw [hnone] at hparent
    exact absurd hparent (by simp)

/-- **One event keeps the ledger**, if it is a steady one. -/
theorem Ledger.step (h : Ledger none s) {e : Event} (hg : s.steady e = true) (hs : s.step e = some s') :
    Ledger none s' := by
  cases e with
  | proxy k request => exact h.hinProxy hs
  | download url => exact h.httpDownloadRaw hs
  | connected i ok tlsOk =>
      simp only [Pool.step] at hs
      split_ifs at hs with hc
      exact h.connected hc hs
  | sent i ok =>
      simp only [Pool.step] at hs
      split_ifs at hs with hh
      exact h.httpClientSentCallback hh hg hs
  | lines i r =>
      simp only [Pool.step] at hs
      split_ifs at hs with hr
      exact h.linesRead hr (fun hwait hhead hlost => by simpa [steady, hwait, hhead, hlost] using hg) hs
  | piped i =>
      simp only [Pool.step] at hs
      split_ifs at hs with hp
      obtain ⟨hi, ho⟩ := h.opened (i := i) (by simp [hp])
      have hkept : Kept s (s.on i fun c => { c with
          piping := false
          data := false }) := by
        refine kept_on hi ⟨fun hshape => ?_, id, .inr ⟨rfl, rfl, rfl, rfl, rfl⟩, id⟩
        exact ⟨fun hu => absurd hu ho, hshape.connecting⟩
      exact (h.kept hkept).httpClientFinishRequest hi ((hkept.conns i).socket ho) hs
  | posted i =>
      simp only [Pool.step] at hs
      split_ifs at hs with hp
      obtain ⟨hi, ho⟩ := h.opened (i := i) (by simp [hp])
      have hkept : Kept s (s.on i fun c => { c with
          posting := false
          post := false }) := by
        refine kept_on hi ⟨fun hshape => ?_, id, .inr ⟨rfl, rfl, rfl, rfl, rfl⟩, id⟩
        exact ⟨fun hu => absurd hu ho, hshape.connecting⟩
      exact (h.kept hkept).httpClientFinishRequest hi ((hkept.conns i).socket ho) hs
  | closed i ok =>
      simp only [Pool.step] at hs
      split_ifs at hs with hc
      obtain rfl := Option.some.inj hs
      obtain ⟨hi, ho⟩ := h.opened (i := i) (by simp [hc])
      have hclosing : Kept s (s.on i fun c => { c with closing := false }) := by
        refine kept_on hi ⟨fun hshape => ?_, id, .inr ⟨rfl, rfl, rfl, rfl, rfl⟩, id⟩
        exact ⟨fun hu => absurd hu ho, hshape.connecting⟩
      have hended : Kept (s.on i fun c => { c with closing := false })
          ((s.on i fun c => { c with closing := false }).on i fun c => { c with ended := true }) :=
        kept_on hi ⟨fun hshape => { hshape with }, id, .inr ⟨rfl, rfl, rfl, rfl, rfl⟩, id⟩
      unfold Pool.httpClientCloseCallback
      split_ifs
      · exact h.kept ((hclosing.trans hended).trans (kept_unlink hi))
      · exact h.kept hclosing
  | closeIdle => exact Option.some.inj hs ▸ h.kept (kept_closeIdle fun i hi => h.lt_of_listed hi)

theorem Ledger.resends (h : Ledger none s) : s.Resends where
  pooled := h.pooled
  once := h.once
  same := h.same
  whole := h.whole
  bounded id := by
    have hone := List.nodup_iff_count_le_one.mp h.once id
    have hbound := h.bounded id
    omega
  answered id hid := by
    -- no request has come that far
    rcases hid with hgiven | hclosed
    · rw [h.givenUp] at hgiven
      exact absurd hgiven List.not_mem_nil
    · rw [h.closes] at hclosed
      have hone := List.nodup_iff_count_le_one.mp h.once id
      omega

end Pool

/-! ## Runs -/

/-- **Requests are sent again as they should in every state**, if every restart may be one and no head of a client's
    request fails to be written. -/
theorem requests_resent {es : List Event} {s : Pool} (h : RunWith Pool.step (fun s e => s.steady e = true) {} es s) :
    s.Resends :=
  (h.invariant Pool.Ledger.init fun _ _ _ hledger hg hs => hledger.step hg hs).resends

/-- A second request goes out on the connection of the first one, which has been closed meanwhile, and once more on a new
    one. -/
def againRun (url : Bytes) : List Event :=
  reuseRun url ++ [.sent 0 true, .lines 0 .closed, .connected 1 true true, .sent 1 true, .lines 1 .head]

theorem requests_resent_sample :
    ∃ s, RunWith Pool.step (fun s e => s.steady e = true) {} (againRun (bytes "http://a:80/")) s ∧
      s.restarts = [⟨1, 1, true⟩] ∧ (s.attempts.map Attempt.of) = [(0, 1), (1, 1), (1, 1)] ∧ s.Resends := by
  have hs : ((execWith Pool.step Pool.steady {} (againRun (bytes "http://a:80/"))).map fun s =>
      (s.restarts, s.attempts.map Attempt.of)) = some ([⟨1, 1, true⟩], [(0, 1), (1, 1), (1, 1)]) := by decide
  obtain ⟨s, hs, hv⟩ := Option.map_eq_some_iff.1 hs
  obtain ⟨hrestarts, hattempts⟩ := Prod.mk.inj hv
  have hrun := RunWith.of_exec (fun _ _ h => h) _ hs
  exact ⟨s, hrun, hrestarts, hattempts, requests_resent hrun⟩

/-- **A fresh connection** is closed without an answer, and the request is sent again. -/
theorem requests_resent_wrong : ∃ es s, Run Pool.step {} es s ∧ ¬ s.Resends := by
  have hs : ((execWith Pool.step (fun _ _ => true) {} ((reuseRun (bytes "http://a/")).take 3 ++ [.lines 0 .closed])).map
      Pool.restarts) = some [⟨0, 1, false⟩] := by decide
  obtain ⟨s, hs, hv⟩ := Option.map_eq_some_iff.1 hs
  refine ⟨_, s, RunWith.of_exec (fun _ _ _ => trivial) _ hs, fun hresends => ?_⟩
  have hpooled := hresends.pooled ⟨0, 1, false⟩ (by simp [hv])
  exact absurd hpooled (by decide)

end Upstreams
end Http
end Hin9
