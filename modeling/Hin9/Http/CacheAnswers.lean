import Hin9.Http.CacheServe

/-!
# `Http.CacheAnswers` — complete answers, to the requests they were made for

`hin_cache_check` serves whatever the table holds for a key. Two results follow for the runs in which it finds
completed items only and no file is opened twice: every response announces and reads the whole body its backend
produced, and, where in addition no `HEAD` exchange makes an item and no `POST` finds one, that body is the body of
a `GET` for the key the client asked for.
-/

namespace Hin9
namespace Http

/-! ## Complete answers -/

/-- **The steps after which answers are complete.** A lookup finds no item that is still to be completed, a new item
    gets a file of its own, and no timer runs out of an item that has left the table. -/
def ServedStep (s : Cache) : Event → Prop
  | .check c _ _ => ∀ i ∈ s.hit c, (s.items i).done = true
  | .save c openOk _ => s.Opens c → openOk = true → s.disk.names (s.clients c).key = none
  | .tick now reach => ∀ i ∈ s.due now reach, s.Listed i
  | _ => True

instance (s : Cache) : (e : Event) → Decidable (ServedStep s e)
  | .check c _ _ => inferInstanceAs (Decidable (∀ i ∈ s.hit c, (s.items i).done = true))
  | .save c openOk _ =>
      inferInstanceAs (Decidable (s.Opens c → openOk = true → s.disk.names (s.clients c).key = none))
  | .tick now reach => inferInstanceAs (Decidable (∀ i ∈ s.due now reach, s.Listed i))
  | .request .. | .written .. | .finish .. | .error .. | .sent _ => inferInstanceAs (Decidable True)

/-- Whoever was answered from the cache was answered from a completed item with the size and the etag of the whole
    body, and every response under way reads that body out of the file of an item that is alive. -/
def AnswersComplete (s : Cache) : Prop :=
  (∀ v ∈ s.history.served, v.done = true ∧ ∀ r ∈ v.response, s.Announces v.item r) ∧
    ∀ p ∈ s.sending, (s.items p.item).freed = false ∧ (s.items p.item).done = true ∧
      s.Announces p.item p.toFileResponse ∧ s.Stored p.item

theorem Serving.answersComplete {s : Cache} (h : Serving s) : AnswersComplete s := by
  constructor
  · intro v hv
    obtain ⟨-, hd, -, hr⟩ := h.served v hv
    exact ⟨hd, hr⟩
  · intro p hp
    obtain ⟨hi, hd, ha⟩ := h.sending p hp
    obtain ⟨herr, -, -, hst⟩ := h.done p.item hi hd
    refine ⟨?_, hd, ha, hst⟩
    -- the response itself is a holder, so the counter is positive and the item alive
    have hpos := one_le_sends hp
    have hrefs := h.refs p.item hi herr
    have hheld : (1 : Int) ≤ s.held p.item := by
      unfold Cache.held
      split <;> omega
    cases hf : (s.items p.item).freed with
    | false => rfl
    | true =>
        have hle := h.freed p.item hi herr hf
        omega

theorem hinCacheCreate_serving : Serving hinCacheCreate := by
  constructor
  case table => exact fun k j hk => absurd (show (none : Option ItemId) = some j from hk) (by simp)
  case refs => exact fun j hj => absurd hj (Nat.not_lt_zero j)
  case freed => exact fun j hj => absurd hj (Nat.not_lt_zero j)
  case timers => exact ⟨List.nodup_nil, fun j hj => absurd hj List.not_mem_nil⟩
  case generating => exact fun j p hp => absurd (show (none : Option GenPipe) = some p from hp) (by simp)
  case done => exact fun j hj => absurd hj (Nat.not_lt_zero j)
  case fds => exact fun j hj => absurd hj (Nat.not_lt_zero j)
  case names => exact fun k n hk => absurd (show (none : Option Nat) = some n from hk) (by simp)
  case sending => exact fun p hp => absurd hp List.not_mem_nil
  case served => exact fun v hv => absurd hv List.not_mem_nil

/-- **One step.** -/
theorem step_serving {s s' : Cache} {e : Event} (h : Serving s) (hg : ServedStep s e) (hs : s.step e = some s') :
    Serving s' := by
  cases e with
  | request c http =>
      rw [← Option.some.inj hs]
      exact ⟨h.table, h.refs, h.freed, h.timers, h.generating, h.done, h.fds, h.names, h.sending, h.served⟩
  | check c now accepts =>
      rw [← Option.some.inj hs]
      exact h.check c now accepts hg
  | save c openOk now =>
      rw [← Option.some.inj hs]
      exact h.save c openOk now hg
  | written i data =>
      obtain ⟨pipe, hp, hs⟩ := Option.map_eq_some_iff.mp hs
      rw [← hs]
      exact h.generated hp data
  | finish i now accepts =>
      obtain ⟨pipe, hp, hs⟩ := Option.map_eq_some_iff.mp hs
      rw [← hs]
      obtain ⟨hi, -, hfill⟩ := h.generating i pipe hp
      exact (h.closed i).finish hi now accepts (Function.update_self _ _ _) hfill
  | error i closes now =>
      obtain ⟨pipe, hp, hs⟩ := Option.map_eq_some_iff.mp hs
      rw [← hs]
      obtain ⟨hi, hd, -⟩ := h.generating i pipe hp
      cases closes with
      | false => exact h.error hd
      | true =>
          have he := (h.closed i).error (i := i) hd
          have hflag := hinCachePipeErrorCallback_error
            { s with generating := Function.update s.generating i none } i
          refine he.finish ?_ now _ ?_ (fun hf => absurd (hflag.symm.trans hf) (by simp))
          · rw [hinCachePipeErrorCallback_next]
            exact hi
          · rw [hinCachePipeErrorCallback_generating]
            exact Function.update_self _ _ _
  | sent pipe =>
      simp only [Cache.step] at hs
      split at hs
      · rename_i hmem
        rw [← Option.some.inj hs]
        exact h.sent hmem
      · exact absurd hs (by simp)
  | tick now reach =>
      rw [← Option.some.inj hs]
      exact h.timeouts _ (due_nodup h.timers.1 now reach) hg

/-- **Complete answers over a run.** -/
theorem cache_answers_complete {es : List Event} {s : Cache}
    (h : Lib.RunWith Cache.step ServedStep hinCacheCreate es s) : AnswersComplete s :=
  (h.invariant (I := Serving) hinCacheCreate_serving fun _ _ _ hi hg hs => step_serving hi hg hs).answersComplete

/-- One client generates the item, a second one waits for it, and a third one asks after it is complete. -/
theorem cache_answers_complete_sample : ∃ (es : List Event) (s : Cache),
    Lib.RunWith Cache.step ServedStep hinCacheCreate es s ∧ s.sending.length = 3 ∧ AnswersComplete s := by
  let es : List Event := [.request 1 cacheableRequest, .request 2 cacheableRequest, .request 3 cacheableRequest,
    .save 1 true 100, .save 2 true 101, .written 0 [72, 105], .finish 0 102 fun _ => true, .check 3 105 true]
  have hrun : ((Lib.execWith Cache.step (fun s e => decide (ServedStep s e)) hinCacheCreate es).map fun s =>
      s.sending.length) = some 3 := by decide
  obtain ⟨s, hs, hlen⟩ := Option.map_eq_some_iff.mp hrun
  have h : Lib.RunWith Cache.step ServedStep hinCacheCreate es s :=
    Lib.RunWith.of_exec (fun _ _ hd => of_decide_eq_true hd) es hs
  exact ⟨es, s, h, hlen, cache_answers_complete h⟩

/-- **An early hit.** The item is in the table as soon as its generation starts: a lookup at that point serves it,
    with a size of `0`. -/
theorem cache_answers_early : ¬ ∀ (es : List Event) (s : Cache),
    Lib.Run Cache.step hinCacheCreate es s → AnswersComplete s := by
  intro hall
  let es : List Event := [.request 1 cacheableRequest, .request 2 cacheableRequest, .save 1 true 100, .check 2 101 true]
  have hrun : ((Lib.execWith Cache.step (fun _ _ => true) hinCacheCreate es).map fun s =>
      s.history.served.map Served.done) = some [false] := by decide
  obtain ⟨s, hs, hserved⟩ := Option.map_eq_some_iff.mp hrun
  have h := (hall es s (Lib.RunWith.of_exec (fun _ _ _ => trivial) es hs)).1
  obtain ⟨v, hv, hd⟩ := List.mem_map.mp (hserved ▸ List.mem_singleton_self false)
  exact absurd ((h v hv).1.symm.trans hd) (by simp)

/-! ## Answers to the right requests -/

/-- From `s` to `s'` nobody starts to wait, and whoever waits still asks for what it asked for. -/
structure Waits (s s' : Cache) : Prop where
  next : s'.next = s.next
  keys : ∀ i, (s'.items i).key = (s.items i).key
  queues : ∀ i, (s'.items i).clientQueue ⊆ (s.items i).clientQueue
  asked : ∀ c, (s'.clients c).method = (s.clients c).method ∧ (s'.clients c).key = (s.clients c).key
  origin : s'.history.origin = s.history.origin

namespace Waits

variable {s s' s'' : Cache}

theorem trans (h : Waits s s') (h' : Waits s' s'') : Waits s s'' where
  next := h'.next.trans h.next
  keys i := (h'.keys i).trans (h.keys i)
  queues i _ hc := h.queues i (h'.queues i hc)
  asked c := ⟨(h'.asked c).1.trans (h.asked c).1, (h'.asked c).2.trans (h.asked c).2⟩
  origin := h'.origin.trans h.origin

end Waits

theorem Serves.waits {s s' : Cache} {q : List ClientId} {i : ItemId} (h : Serves s s' q i) : Waits s s' := by
  refine ⟨h.next, h.keys, ?_, h.asked, h.origin⟩
  intro j
  by_cases hj : j = i
  · subst hj; exact h.queue.subset
  · rw [h.items j hj]; exact List.Subset.refl _

/-- A change of an item that keeps its key and lets nobody in. -/
theorem waits_setItem (s : Cache) (i : ItemId) (item : CacheItem) (hkey : item.key = (s.items i).key)
    (hq : item.clientQueue ⊆ (s.items i).clientQueue) : Waits s (s.setItem i item) := by
  have t := touches_setItem s i item hkey
  refine ⟨rfl, t.keys, ?_, fun _ => ⟨rfl, rfl⟩, rfl⟩
  intro j
  by_cases hj : j = i
  · subst hj
    rw [show (s.setItem j item).items j = item from Function.update_self _ _ _]
    exact hq
  · rw [t.items j hj]; exact List.Subset.refl _

/-- **Who waits, and who was served.** Items are made by `GET` exchanges, nobody waits or was served with a `POST` or
    for another key. -/
structure Asked (s : Cache) : Prop where
  origin : ∀ i < s.next, s.history.origin i = .get
  queue : ∀ i < s.next, ∀ c ∈ (s.items i).clientQueue,
    (s.clients c).method ≠ .post ∧ (s.clients c).key = (s.items i).key
  served : ∀ v ∈ s.history.served, v.method ≠ .post ∧ v.key = (s.items v.item).key

/-- **The rule for work that lets nobody in.** Only the new records are left to check. -/
theorem Asked.waits {s s' : Cache} (h : Asked s) (w : Waits s s')
    (hrec : ∀ v ∈ s'.history.served, v ∈ s.history.served ∨
      v.method ≠ .post ∧ v.key = (s.items v.item).key) : Asked s' where
  origin i hi := by
    rw [w.origin]
    exact h.origin i (w.next ▸ hi)
  queue i hi c hc := by
    rw [(w.asked c).1, (w.asked c).2, w.keys]
    exact h.queue i (w.next ▸ hi) c (w.queues i hc)
  served v hv := by
    rw [w.keys]
    rcases hrec v hv with hv | hv
    · exact h.served v hv
    · exact hv

/-- Serving clients that ask for the item. -/
theorem Asked.serves {s s' : Cache} {q : List ClientId} {i : ItemId} (h : Asked s) (hs : Serves s s' q i)
    (hq : ∀ c ∈ q, (s.clients c).method ≠ .post ∧ (s.clients c).key = (s.items i).key) : Asked s' := by
  refine h.waits hs.waits ?_
  intro v hv
  rcases hs.records v hv with hv | ⟨hc, hi, hm, hk, -, -⟩
  · exact Or.inl hv
  · rw [hm, hk, hi]
    exact Or.inr (hq _ hc)

/-- `hin_cache_unref` lets nobody in. -/
theorem Asked.unref {s : Cache} (h : Asked s) (i : ItemId) : Asked (hinCacheUnref s i) :=
  h.waits (serves_hinCacheUnref s 0 i).waits fun v hv => Or.inl (by rwa [hinCacheUnref_served] at hv)

/-- `hin_cache_finish` serves the clients of the queue. -/
theorem Asked.finish {s : Cache} {i : ItemId} (h : Asked s) (hi : i < s.next) (pipe : GenPipe) (now : Int)
    (accepts : ClientId → Bool) : Asked (hinCacheFinish s i pipe now accepts) := by
  unfold hinCacheFinish
  split
  · exact h.unref i
  · have hc : Waits s (complete s i pipe now) := by
      have w := waits_setItem s i { s.items i with
        size := pipe.count, etag := pipe.hash, done := true, modified := now } rfl (List.Subset.refl _)
      exact ⟨w.next, w.keys, w.queues, w.asked, w.origin⟩
    have hcs : Asked (complete s i pipe now) := h.waits hc fun v hv => Or.inl hv
    have hserve := hcs.serves (serves_serveQueue i now accepts (s.items i).clientQueue (complete s i pipe now)) (by
      intro c hcq
      rw [(hc.asked c).1, (hc.asked c).2, hc.keys]
      exact h.queue i hi c hcq)
    exact hserve.waits (waits_setItem _ i _ rfl (List.nil_subset _)) fun v hv => Or.inl hv

/-- `hin_cache_pipe_error_callback` serves nobody. -/
theorem Asked.error {s : Cache} (h : Asked s) (i : ItemId) : Asked (hinCachePipeErrorCallback s i) := by
  have hu : Asked (unrefQueue i (s.items i).clientQueue s) :=
    h.waits (serves_unrefQueue i _ s).waits fun v hv => Or.inl (by rwa [unrefQueue_served] at hv)
  have he : Asked (emptyQueue (unrefQueue i (s.items i).clientQueue s) i) :=
    hu.waits (waits_setItem _ i _ rfl (List.nil_subset _)) fun v hv => Or.inl hv
  have hf := he.waits (waits_setItem _ i
    { (emptyQueue (unrefQueue i (s.items i).clientQueue s) i).items i with error := true } rfl (List.Subset.refl _))
    fun v hv => Or.inl hv
  exact ⟨hf.origin, hf.queue, hf.served⟩

/-- A lookup by a client that is not posting. -/
theorem Asked.check {s : Cache} (h : Asked s) (hv : Serving s) (c : ClientId) (now : Int) (accepts : Bool)
    (hpost : s.hit c ≠ none → (s.clients c).method ≠ .post) : Asked (hinCacheCheck s c now accepts).1 := by
  rw [hinCacheCheck_eq]
  cases hk : s.hit c with
  | none => exact h
  | some i =>
      have hht := Cache.hit_ht hk
      have href : Asked (ref s i) :=
        h.waits (waits_setItem s i _ rfl (List.Subset.refl _)) fun v hv => Or.inl hv
      refine href.serves (serves_hinCacheServeClient (ref s i) c i now accepts) ?_
      intro c' hc
      rw [List.mem_singleton.mp hc, (quiet_ref s i).key, (hv.table _ _ hht).2.1]
      exact ⟨hpost (by rw [hk]; simp), rfl⟩

/-- The offer of a response by a client that asks with `GET`, or of any response for a key of the table. -/
theorem Asked.save {s : Cache} (h : Asked s) (hv : Serving s) (c : ClientId) (openOk : Bool) (now : Int)
    (hhead : s.Opens c → (s.clients c).method ≠ .head) : Asked (hinCgiOfferCache s c openOk now).1 := by
  have hnew : ∀ (s' : Cache) (item : CacheItem), item.key = (s.clients c).key → item.clientQueue = [c] → s.Opens c →
      s'.next = s.next + 1 → s'.items = Function.update s.items s.next item → s'.clients = s.clients →
      s'.history.served = s.history.served →
      s'.history.origin = Function.update s.history.origin s.next (s.clients c).method → Asked s' := by
    intro s' item hkey hq hopens hnext hitems hclients hserved horigin
    have hget : (s.clients c).method = .get := by
      have h1 := hopens.1.1.2.1
      have h2 := hhead hopens
      cases hm : (s.clients c).method with
      | get => rfl
      | head => exact absurd hm h2
      | post => exact absurd hm h1
    have hold : ∀ i < s.next, s'.items i = s.items i := fun i hi => by
      rw [hitems, Function.update_of_ne (Nat.ne_of_lt hi)]
    refine ⟨?_, ?_, ?_⟩
    · intro i hi
      rw [horigin]
      rcases Nat.lt_succ_iff_lt_or_eq.mp (show i < s.next + 1 from hnext ▸ hi) with hi | rfl
      · rw [Function.update_of_ne (Nat.ne_of_lt hi)]
        exact h.origin i hi
      · rw [Function.update_self]
        exact hget
    · intro i hi c' hc'
      rw [hclients]
      rcases Nat.lt_succ_iff_lt_or_eq.mp (show i < s.next + 1 from hnext ▸ hi) with hi | rfl
      · rw [hold i hi] at hc' ⊢
        exact h.queue i hi c' hc'
      · rw [hitems, Function.update_self] at hc' ⊢
        rw [hq, List.mem_singleton] at hc'
        rw [hc', hkey]
        exact ⟨hopens.1.1.2.1, rfl⟩
    · intro v hvs
      rw [hserved] at hvs
      rw [hold _ (hv.served v hvs).1]
      exact h.served v hvs
  rcases hinCgiOfferCache_cases s c openOk now with hs | ⟨i, hk, hs⟩ | ⟨hk, -, hs⟩ | ⟨hk, -, hs⟩
  · rw [hs]
    exact h
  · obtain ⟨hoff, hht⟩ := Cache.joins_ht hk
    have t := touches_setItem s i { s.items i with
      clientQueue := c :: (s.items i).clientQueue, refcount := (s.items i).refcount + 1 } rfl
    rw [hs]
    refine ⟨h.origin, ?_, ?_⟩
    · intro j hj c' hc'
      by_cases hji : j = i
      · subst hji
        change c' ∈ (Function.update s.items j _ j).clientQueue at hc'
        rw [Function.update_self] at hc'
        refine ⟨?_, ?_⟩
        · rcases List.mem_cons.mp hc' with rfl | hc'
          · exact hoff.1.2.1
          · exact (h.queue j hj c' hc').1
        · rw [show (Cache.items _ j).key = (s.items j).key from t.key]
          rcases List.mem_cons.mp hc' with rfl | hc'
          · exact (hv.table _ _ hht).2.1.symm
          · exact (h.queue j hj c' hc').2
      · have hitem := t.items j hji
        change c' ∈ ((s.setItem i _).items j).clientQueue at hc'
        rw [hitem] at hc'
        show _ ∧ (s.clients c').key = ((s.setItem i _).items j).key
        rw [hitem]
        exact h.queue j hj c' hc'
    · intro v hvs
      rw [show (Cache.items _ v.item).key = (s.items v.item).key from t.keys v.item]
      exact h.served v hvs
  · rw [hs]
    exact hnew _ (newItem c (s.clients c).key) rfl rfl hk rfl rfl rfl rfl rfl
  · rw [hs]
    exact hnew _ (openedItem s c (s.disk.openTrunc (s.clients c).key).2 now) rfl rfl hk rfl rfl rfl rfl rfl

/-- The timeouts of a tick. -/
theorem Asked.timeouts (l : List ItemId) {s : Cache} (h : Asked s) : Asked (l.foldl hinCacheTimeoutCallback s) := by
  induction l generalizing s with
  | nil => exact h
  | cons i l ih =>
      apply ih
      have hd : Asked { s.deletePair i with size := s.size - (s.items i).size } := ⟨h.origin, h.queue, h.served⟩
      exact hd.unref i

/-- A client that waits for an item does not start another request, no `POST` finds an item, and no `HEAD` exchange
    makes one. -/
def MethodsFit (s : Cache) : Event → Prop
  | .request c http => ∀ i < s.next, c ∈ (s.items i).clientQueue →
      http.method ≠ .post ∧ http.key = (s.clients c).key
  | .check c _ _ => s.hit c ≠ none → (s.clients c).method ≠ .post
  | .save c _ _ => s.Opens c → (s.clients c).method ≠ .head
  | _ => True

instance (s : Cache) : (e : Event) → Decidable (MethodsFit s e)
  | .request c http => inferInstanceAs (Decidable (∀ i < s.next, c ∈ (s.items i).clientQueue →
      http.method ≠ .post ∧ http.key = (s.clients c).key))
  | .check c _ _ => inferInstanceAs (Decidable (s.hit c ≠ none → (s.clients c).method ≠ .post))
  | .save c _ _ => inferInstanceAs (Decidable (s.Opens c → (s.clients c).method ≠ .head))
  | .written .. | .finish .. | .error .. | .sent _ | .tick .. => inferInstanceAs (Decidable True)

/-- **The steps after which answers are those of a `GET` for the key.** -/
def AskedStep (s : Cache) (e : Event) : Prop := ServedStep s e ∧ MethodsFit s e

instance (s : Cache) (e : Event) : Decidable (AskedStep s e) := inferInstanceAs (Decidable (_ ∧ _))

/-- Whoever was answered from the cache did not post, asked for the key of the item, and was answered with the size
    and the etag of the body a `GET` exchange for that key produced; every response under way reads that body. -/
def Transparent (s : Cache) : Prop :=
  (∀ v ∈ s.history.served, v.method ≠ .post ∧ v.key = (s.items v.item).key ∧ s.history.origin v.item = .get ∧
    ∀ r ∈ v.response, s.Announces v.item r) ∧
    ∀ p ∈ s.sending, s.history.origin p.item = .get ∧ s.Announces p.item p.toFileResponse ∧ s.Stored p.item

theorem Asked.transparent {s : Cache} (h : Asked s) (hv : Serving s) : Transparent s := by
  constructor
  · intro v hvs
    obtain ⟨hi, -, -, hr⟩ := hv.served v hvs
    obtain ⟨hm, hk⟩ := h.served v hvs
    exact ⟨hm, hk, h.origin v.item hi, hr⟩
  · intro p hp
    obtain ⟨hi, hd, ha⟩ := hv.sending p hp
    exact ⟨h.origin p.item hi, ha, (hv.done p.item hi hd).2.2.2⟩

/-- **One step.** -/
theorem step_asked {s s' : Cache} {e : Event} (h : Asked s) (hv : Serving s) (hg : AskedStep s e)
    (hs : s.step e = some s') : Asked s' := by
  cases e with
  | request c http =>
      rw [← Option.some.inj hs]
      refine ⟨h.origin, ?_, h.served⟩
      intro i hi c' hc'
      change (Function.update s.clients c http c').method ≠ .post ∧
        (Function.update s.clients c http c').key = (s.items i).key
      have hold := h.queue i hi c' hc'
      by_cases hcc : c' = c
      · subst hcc
        rw [Function.update_self, ← hold.2]
        exact hg.2 i hi hc'
      · rw [Function.update_of_ne hcc]
        exact hold
  | check c now accepts =>
      rw [← Option.some.inj hs]
      exact h.check hv c now accepts hg.2
  | save c openOk now =>
      rw [← Option.some.inj hs]
      exact h.save hv c openOk now hg.2
  | written i data =>
      obtain ⟨pipe, -, hs⟩ := Option.map_eq_some_iff.mp hs
      rw [← hs]
      exact ⟨h.origin, h.queue, h.served⟩
  | finish i now accepts =>
      obtain ⟨pipe, hp, hs⟩ := Option.map_eq_some_iff.mp hs
      rw [← hs]
      have hc : Asked { s with generating := Function.update s.generating i none } := ⟨h.origin, h.queue, h.served⟩
      exact hc.finish (hv.generating i pipe hp).1 pipe now accepts
  | error i closes now =>
      obtain ⟨pipe, hp, hs⟩ := Option.map_eq_some_iff.mp hs
      rw [← hs]
      have hc : Asked { s with generating := Function.update s.generating i none } := ⟨h.origin, h.queue, h.served⟩
      cases closes with
      | false => exact h.error i
      | true =>
          refine (hc.error i).finish ?_ pipe now _
          rw [hinCachePipeErrorCallback_next]
          exact (hv.generating i pipe hp).1
  | sent pipe =>
      simp only [Cache.step] at hs
      split at hs
      · rw [← Option.some.inj hs]
        have hc : Asked { s with sending := s.sending.erase pipe } := ⟨h.origin, h.queue, h.served⟩
        exact hc.unref pipe.item
      · exact absurd hs (by simp)
  | tick now reach =>
      rw [← Option.some.inj hs]
      exact h.timeouts _

/-- **Transparency over a run.** -/
theorem cache_transparent {es : List Event} {s : Cache}
    (h : Lib.RunWith Cache.step AskedStep hinCacheCreate es s) : Transparent s := by
  have hinit : Serving hinCacheCreate ∧ Asked hinCacheCreate :=
    ⟨hinCacheCreate_serving, fun i hi => absurd hi (Nat.not_lt_zero i), fun i hi => absurd hi (Nat.not_lt_zero i),
      fun v hv => absurd hv List.not_mem_nil⟩
  obtain ⟨hv, ha⟩ := h.invariant (I := fun s => Serving s ∧ Asked s) hinit fun s e s' hI hg hs =>
    ⟨step_serving hI.1 hg.1 hs, step_asked hI.2 hI.1 hg hs⟩
  exact ha.transparent hv

/-- A `GET` makes the item, a `HEAD` and a second `GET` are answered from it. -/
theorem cache_transparent_sample : ∃ (es : List Event) (s : Cache),
    Lib.RunWith Cache.step AskedStep hinCacheCreate es s ∧ s.sending.length = 3 ∧ Transparent s := by
  let es : List Event := [.request 1 cacheableRequest, .request 2 { cacheableRequest with method := .head },
    .request 3 cacheableRequest, .save 1 true 100, .written 0 [72, 105], .finish 0 102 fun _ => true,
    .check 2 103 true, .check 3 105 true]
  have hrun : ((Lib.execWith Cache.step (fun s e => decide (AskedStep s e)) hinCacheCreate es).map fun s =>
      s.sending.length) = some 3 := by decide
  obtain ⟨s, hs, hlen⟩ := Option.map_eq_some_iff.mp hrun
  have h : Lib.RunWith Cache.step AskedStep hinCacheCreate es s :=
    Lib.RunWith.of_exec (fun _ _ hd => of_decide_eq_true hd) es hs
  exact ⟨es, s, h, hlen, cache_transparent h⟩

/-- **A `HEAD` exchange fills the cache.** Its backend sends no body, the item it makes is empty, and the `GET` that
    follows is answered with it. -/
theorem cache_not_transparent : ¬ ∀ (es : List Event) (s : Cache),
    Lib.Run Cache.step hinCacheCreate es s → Transparent s := by
  intro hall
  let es : List Event := [.request 1 { cacheableRequest with method := .head }, .request 2 cacheableRequest,
    .save 1 true 100, .finish 0 102 fun _ => true, .check 2 103 true]
  have hrun : ((Lib.execWith Cache.step (fun _ _ => true) hinCacheCreate es).map fun s =>
      s.history.served.map fun v => s.history.origin v.item) = some [.head, .head] := by decide
  obtain ⟨s, hs, hserved⟩ := Option.map_eq_some_iff.mp hrun
  have h := (hall es s (Lib.RunWith.of_exec (fun _ _ _ => trivial) es hs)).1
  have hmem : Method.head ∈ s.history.served.map fun v => s.history.origin v.item := by
    rw [hserved]
    exact List.mem_cons_self
  obtain ⟨v, hv, ho⟩ := List.mem_map.mp hmem
  exact absurd ((h v hv).2.2.1.symm.trans ho) (by simp)

end Http
end Hin9
