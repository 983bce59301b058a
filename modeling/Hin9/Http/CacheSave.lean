import Hin9.Http.CacheRefs

/-!
# `Http.CacheSave` — what a refused offer leaves behind (`hin_cache_save`)

`hin_cache_save` answers `-1` when the response is not to be cached, and its caller goes on to send the response
itself. The function checks the client and the store first and touches nothing until they have passed; then it
allocates the item, queues the client on it and enters it in the table, and only then opens the item's file. When
that fails it answers `-1` as well, with the item in the table. No timer runs for it, no pipe fills it, and its
queue names a client that is answered another way: `-1` leaves the cache as it was exactly when the file could be
opened or one of the first checks refused the response (`cache_save_undone_iff`).

`Http.Cache` models the store; this module adds the pipe the function redirects, and says what it means that the
offer left no trace: in the state, and in everything the cache answers from then on.
-/

namespace Hin9
namespace Http

/-! ## The pipe -/

/-- The flags of a pipe and of its two sides. -/
def HIN_SOCKET : UInt32 := 0x2
def HIN_FILE : UInt32 := 0x4
def HIN_OFFSETS : UInt32 := 0x8
def HIN_SSL : UInt32 := 0x10
def HIN_HASH : UInt32 := 0x40

/-- What `pipe->out.fd` names: the client's socket, or an open file of the cache directory. -/
inductive OutFd where
  | socket (c : ClientId)
  | file (n : Nat)
deriving Repr, DecidableEq

/-- `pipe->parent`. -/
inductive PipeParent where
  | client (c : ClientId)
  | item (i : ItemId)
deriving Repr, DecidableEq

/-- The error callbacks of a pipe that reads a backend's response. -/
inductive ErrorCallback where
  | unset
  | hinCachePipeErrorCallback
deriving Repr, DecidableEq

/-- The fields of a `hin_pipe_t` that `hin_cache_save` writes. -/
structure CgiPipe where
  parent : PipeParent
  flags : UInt32 := 0
  outFd : OutFd
  outFlags : UInt32 := HIN_SOCKET
  outErrorCallback : ErrorCallback := .unset
  inErrorCallback : ErrorCallback := .unset
deriving Repr, DecidableEq

/-- The pipe `hin_cgi_headers_read_callback` has made for the response to a client. -/
def cgiPipe (c : ClientId) : CgiPipe := { parent := .client c, outFd := .socket c }

/-- The assignments to the pipe at the end of `hin_cache_save`, with the new item and its file. -/
def redirectPipe (pipe : CgiPipe) (i : ItemId) (fd : Nat) : CgiPipe :=
  { pipe with
    flags := pipe.flags ||| HIN_HASH
    outFd := .file fd
    outFlags := (pipe.outFlags &&& ~~~(HIN_SOCKET ||| HIN_SSL)) ||| (HIN_FILE ||| HIN_OFFSETS)
    parent := .item i
    outErrorCallback := .hinCachePipeErrorCallback
    inErrorCallback := .hinCachePipeErrorCallback }

/-- `hin_cache_save` with its pipe. Every exit but the last one leaves the pipe alone; the item of the last one is
    the newest of the store, and its file the one opened for the key. -/
def hinCacheSavePipe (s : Cache) (c : ClientId) (openOk : Bool) (now : Int) (pipe : CgiPipe) :
    Cache × CgiPipe × Int :=
  let (s', n) := hinCacheSave s c openOk now
  if n = 1 then (s', redirectPipe pipe s.next (s.disk.openTrunc (s.clients c).key).2, n) else (s', pipe, n)

/-! ## No trace -/

namespace Cache

/-- What a step answers: the result of the lookup or of the offer, the request of the client afterwards and the
    response pipes that run. -/
def verdict (s : Cache) : Event → Option (Int × HttpdClient × List FilePipe)
  | .check c now accepts =>
      let (s', n) := hinCacheCheck s c now accepts
      some (n, s'.clients c, s'.sending)
  | .save c openOk now =>
      let (s', n) := hinCgiOfferCache s c openOk now
      some (n, s'.clients c, s'.sending)
  | _ => none

/-- What the cache answers along a sequence of events, up to the first one that cannot happen. -/
def verdicts (s : Cache) : List Event → List (Option (Int × HttpdClient × List FilePipe))
  | [] => []
  | e :: es =>
      s.verdict e :: match s.step e with
        | some s' => verdicts s' es
        | none => []

end Cache

/-- **The offer left no trace**: the table, the size of the store, the items, the clients and the pipe are as before,
    and so is every later answer of the cache. -/
structure AsBefore (s s' : Cache) (pipe pipe' : CgiPipe) : Prop where
  table : s'.ht = s.ht
  size : s'.size = s.size
  items : ∀ i < s.next, s'.items i = s.items i
  clients : s'.clients = s.clients
  pipe : pipe' = pipe
  later : ∀ es, s'.verdicts es = s.verdicts es

theorem AsBefore.refl (s : Cache) (pipe : CgiPipe) : AsBefore s s pipe pipe :=
  ⟨rfl, rfl, fun _ _ => rfl, rfl, rfl, fun _ => rfl⟩

/-- The checks of `hin_cache_save` pass and the table has no item for the key, so that one is made. -/
def Cache.Creates (s : Cache) (c : ClientId) : Prop :=
  (s.clients c).disable &&& HIN_HTTP_LOCAL_CACHE = 0 ∧ (s.clients c).cacheKey1 ||| (s.clients c).cacheKey2 ≠ 0 ∧
    s.size < s.maxSize ∧ s.ht (s.clients c).key = none

instance (s : Cache) (c : ClientId) : Decidable (s.Creates c) := inferInstanceAs (Decidable (_ ∧ _))

/-- **A response no item is made for** changes nothing when it is refused. -/
theorem hinCacheSave_refused {s : Cache} {c : ClientId} (openOk : Bool) (now : Int) (h : ¬ s.Creates c)
    (hn : (hinCacheSave s c openOk now).2 = -1) : (hinCacheSave s c openOk now).1 = s := by
  unfold hinCacheSave at hn ⊢
  dsimp only at hn ⊢
  split
  · rfl
  rename_i hon
  split
  · rfl
  rename_i hkey
  split
  · rfl
  rename_i hfull
  rw [if_neg hon, if_neg hkey, if_neg hfull] at hn
  cases hk : s.ht (s.clients c).key with
  | some i =>
      -- the client joins a queue, which is answered `0`
      rw [hk] at hn
      have hzero : (0 : Int) = -1 := hn
      exact absurd hzero (by decide)
  | none => exact absurd ⟨not_not.mp hon, hkey, not_le.mp hfull, hk⟩ h

/-- **An item is made.** It is complete when its file opens, and is in the table in any case. -/
theorem hinCacheSave_creates {s : Cache} {c : ClientId} (openOk : Bool) (now : Int) (h : s.Creates c) :
    (hinCacheSave s c openOk now).2 = (if openOk = true then 1 else -1) ∧
      (hinCacheSave s c openOk now).1.ht (s.clients c).key = some s.next := by
  obtain ⟨hon, hkey, hfull, hk⟩ := h
  unfold hinCacheSave
  dsimp only
  rw [if_neg (not_not.mpr hon), if_neg hkey, if_neg (not_le.mpr hfull), hk]
  cases openOk with
  | false => exact ⟨rfl, Function.update_self _ _ _⟩
  | true =>
      refine ⟨rfl, ?_⟩
      simp only [if_true]
      rw [startTimer_eq _ (by simp [Cache.setItem, newItem])]
      exact Function.update_self _ _ _

/-- The pipe is redirected only by an offer that is answered `1`. -/
theorem hinCacheSavePipe_eq (s : Cache) (c : ClientId) (openOk : Bool) (now : Int) (pipe : CgiPipe) :
    (hinCacheSavePipe s c openOk now pipe).1 = (hinCacheSave s c openOk now).1 ∧
      (hinCacheSavePipe s c openOk now pipe).2.2 = (hinCacheSave s c openOk now).2 ∧
      ((hinCacheSave s c openOk now).2 ≠ 1 → (hinCacheSavePipe s c openOk now pipe).2.1 = pipe) := by
  unfold hinCacheSavePipe
  dsimp only
  split
  · rename_i hone
    exact ⟨rfl, rfl, fun h => absurd hone h⟩
  · exact ⟨rfl, rfl, fun _ => rfl⟩

/-- **When a refused offer leaves no trace.** For every state of the store, every client and every pipe, an answer of
    `-1` leaves everything as it was exactly when the file of the new item could be opened or no item was to be
    made: the local cache is off, the key is zero, the store is full, or the table has an item for the key. -/
theorem cache_save_undone_iff (s : Cache) (c : ClientId) (openOk : Bool) (now : Int) (pipe : CgiPipe) :
    ((hinCacheSavePipe s c openOk now pipe).2.2 = -1 →
      AsBefore s (hinCacheSavePipe s c openOk now pipe).1 pipe (hinCacheSavePipe s c openOk now pipe).2.1) ↔
    openOk = true ∨ ¬ s.Creates c := by
  obtain ⟨hstate, hcode, hpipe⟩ := hinCacheSavePipe_eq s c openOk now pipe
  rw [hstate, hcode]
  by_cases hc : s.Creates c
  · obtain ⟨hcode, hentry⟩ := hinCacheSave_creates openOk now hc
    constructor
    · intro h
      cases openOk with
      | true => exact Or.inl rfl
      | false =>
          have htable := congrFun (h (by rw [hcode]; rfl)).table (s.clients c).key
          rw [hentry, hc.2.2.2] at htable
          exact absurd htable (by simp)
    · rintro (hok | hnot)
      · intro hn
        rw [hcode, if_pos hok] at hn
        exact absurd hn (by decide)
      · exact absurd hc hnot
  · refine ⟨fun _ => Or.inr hc, fun _ hn => ?_⟩
    rw [hpipe (by rw [hn]; decide), hinCacheSave_refused openOk now hc hn]
    exact AsBefore.refl s pipe

/-- **A file that cannot be created.** The store holds nothing, a cacheable response is offered and its file cannot
    be opened: the answer is `-1`, and the table has an item for the key, from which a later request is answered. -/
theorem cache_save_not_undone : ¬ ∀ (s : Cache) (c : ClientId) (openOk : Bool) (now : Int) (pipe : CgiPipe),
    (hinCacheSavePipe s c openOk now pipe).2.2 = -1 →
      AsBefore s (hinCacheSavePipe s c openOk now pipe).1 pipe (hinCacheSavePipe s c openOk now pipe).2.1 := by
  intro hall
  let s := hinCacheCreate.setClient 1 cacheableRequest
  have h := hall s 1 false 100 (cgiPipe 1) (by decide)
  have hlater := h.later [.check 1 101 true]
  exact absurd (congrArg (fun l => l.map fun v => v.map Prod.fst) hlater) (by decide)

end Http
end Hin9
