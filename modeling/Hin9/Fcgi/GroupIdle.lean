import Hin9.Fcgi.Group
import Hin9.Lib.Runs

/-!
# `Fcgi.GroupIdle` — what the idle list of a fastcgi group holds

An idle worker can serve the next request only while it is what `hin_fcgi_worker_reset` left behind: without a client, in
no queue, and known to a live socket by its request id. Nothing takes a worker off the idle list when its socket is
closed, though, and this is the one way to break the list.

The argument keeps two invariants apart. `Linked` is about pointers: workers, the tables of sockets and the places of the
group agree. `Listed` is about the lists: an idle worker has `HIN_REQ_END` and nothing else, a queued one has no bit at
all, so no worker is in both. Every operation keeps both; only closing a socket asks for something.
-/

namespace Hin9
namespace Fcgi

open Lib

/-! ## What a group promises -/

/-- The worker has no client and no body under way, and a live socket whose table holds it at its request id. -/
def Group.Usable (g : Group) (w : Nat) : Prop :=
  ∃ x k s, g.workers w = some x ∧ x.http = none ∧ x.data = false ∧ x.post = false ∧
    x.socket = some k ∧ g.sockets k = some s ∧ s.worker[x.reqId]? = some (some w)

/-- The worker waits in the queue of no socket. -/
def Group.Unqueued (g : Group) (w : Nat) : Prop := ∀ k s, g.sockets k = some s → w ∉ s.que

/-- `hin_fcgi_get_worker` finds a worker that nobody uses: a new one, or one that was usable already. It is on no list,
    and the workers of the other requests are as they were. -/
def Group.HandsOut (g : Group) : Prop :=
  ∃ g' w, g.hinFcgiGetWorker = some (g', w) ∧ (g.workers w = none ∨ g.Usable w) ∧
    g'.Usable w ∧ w ∉ g'.idleWorker ∧ g'.Unqueued w ∧ ∀ v, v ≠ w → g'.workers v = g.workers v

/-- **What a group promises.** -/
structure Group.Sound (g : Group) : Prop where
  once : g.idleWorker.Nodup
  usable : ∀ w ∈ g.idleWorker, g.Usable w
  unqueued : ∀ w ∈ g.idleWorker, g.Unqueued w
  handsOut : g.HandsOut
  ids : ∀ v w x y k, g.workers v = some x → g.workers w = some y → x.socket = some k → y.socket = some k →
    x.reqId = y.reqId → v = w

/-! ## The invariants -/

/-- Workers, the tables of the sockets and the places of the group agree, and addresses are given out once. -/
structure Group.Linked (g : Group) : Prop where
  attached : ∀ w x k, g.workers w = some x → x.socket = some k →
    ∃ s, g.sockets k = some s ∧ s.worker[x.reqId]? = some (some w)
  table : ∀ k s i w, g.sockets k = some s → s.worker[i]? = some (some w) →
    i < s.lastWorker ∧ ∃ x, g.workers w = some x ∧ x.socket = some k ∧ x.reqId = i
  places : g.maxSocket ≠ 0 → ∀ i k, g.socket i = some k → ∃ s, g.sockets k = some s ∧ s.id = i
  freshWorker : ∀ w, g.nextWorker ≤ w → g.workers w = none
  freshSocket : ∀ k, g.nextSocket ≤ k → g.sockets k = none

/-- A worker that may stand in the queue of the socket `k`. -/
def Group.Waiting (g : Group) (k w : Nat) : Prop :=
  ∃ x, g.workers w = some x ∧ x.socket = some k ∧ x.ended = false ∧ x.data = false ∧ x.post = false

/-- A worker that may stand in the idle list. -/
def Group.Idle (g : Group) (w : Nat) : Prop :=
  ∃ x, g.workers w = some x ∧ x.ended = true ∧ x.http = none ∧ x.data = false ∧ x.post = false ∧ x.socket ≠ none

/-- The lists hold what they are for, each worker once, and the idle list is not used without places. -/
structure Group.Listed (g : Group) : Prop where
  once : g.idleWorker.Nodup
  idle : ∀ w ∈ g.idleWorker, g.Idle w
  queOnce : ∀ k s, g.sockets k = some s → s.que.Nodup
  queued : ∀ k s, g.sockets k = some s → ∀ w ∈ s.que, g.Waiting k w
  noPlaces : g.maxSocket = 0 → g.idleWorker = []

/-- Both invariants. -/
structure Group.Inv (g : Group) : Prop where
  linked : g.Linked
  listed : g.Listed

/-! ## Lists and bits -/

/-- A worker whose bits say that it is neither idle nor waiting is on no list. -/
theorem Group.Listed.off_lists {g : Group} (h : g.Listed) {w : Nat} {x : Worker} (hw : g.workers w = some x)
    (hbusy : x.data = true ∨ x.post = true) : w ∉ g.idleWorker ∧ g.Unqueued w := by
  constructor
  · intro hmem
    obtain ⟨y, hy, -, -, hdata, hpost, -⟩ := h.idle w hmem
    have hxy : x = y := Option.some.inj (hw.symm.trans hy)
    subst hxy
    rcases hbusy with hb | hb
    · exact absurd (hb.symm.trans hdata) (by simp)
    · exact absurd (hb.symm.trans hpost) (by simp)
  · intro k s hs hmem
    obtain ⟨y, hy, -, -, hdata, hpost⟩ := h.queued k s hs w hmem
    have hxy : x = y := Option.some.inj (hw.symm.trans hy)
    subst hxy
    rcases hbusy with hb | hb
    · exact absurd (hb.symm.trans hdata) (by simp)
    · exact absurd (hb.symm.trans hpost) (by simp)

/-- A waiting worker is not idle. -/
theorem Group.Waiting.not_idle {g : Group} {k w : Nat} (h : g.Waiting k w) : ¬ g.Idle w := by
  rintro ⟨y, hy, hended, -⟩
  obtain ⟨x, hx, -, hnot, -⟩ := h
  have hxy : x = y := Option.some.inj (hx.symm.trans hy)
  subst hxy
  exact absurd (hended.symm.trans hnot) (by simp)

/-- A worker waits for its own socket. -/
theorem Group.Waiting.same_socket {g : Group} {k k' w : Nat} (h : g.Waiting k w) (h' : g.Waiting k' w) : k = k' := by
  obtain ⟨x, hx, hk, -⟩ := h
  obtain ⟨y, hy, hk', -⟩ := h'
  have hxy : x = y := Option.some.inj (hx.symm.trans hy)
  subst hxy
  exact Option.some.inj (hk.symm.trans hk')

/-- A worker that no worker table can know yet is in no queue. -/
theorem Group.Listed.unqueued_of_none {g : Group} (h : g.Listed) {w : Nat} (hw : g.workers w = none) :
    w ∉ g.idleWorker ∧ g.Unqueued w := by
  constructor
  · intro hmem
    obtain ⟨y, hy, -⟩ := h.idle w hmem
    exact absurd (hw.symm.trans hy) (by simp)
  · intro k s hs hmem
    obtain ⟨y, hy, -⟩ := h.queued k s hs w hmem
    exact absurd (hw.symm.trans hy) (by simp)

/-! ## Writing workers and sockets -/

section Writing

variable {g : Group} {k : Nat} {s s' : Socket} {ws : List Nat} {f : Worker → Worker}

theorem onWorkers_of_not_mem {v : Nat} (hv : v ∉ ws) : (g.onWorkers ws f).workers v = g.workers v := by
  unfold Group.onWorkers
  exact if_neg hv

theorem onWorkers_of_mem {v : Nat} (hv : v ∈ ws) : (g.onWorkers ws f).workers v = (g.workers v).map f := by
  unfold Group.onWorkers
  exact if_pos hv

/-- What a worker is made of after a change in place. -/
theorem onWorkers_some {v : Nat} {y : Worker} (hy : (g.onWorkers ws f).workers v = some y) :
    ∃ x, g.workers v = some x ∧ (y = x ∨ y = f x) := by
  by_cases hv : v ∈ ws
  · rw [onWorkers_of_mem hv] at hy
    obtain ⟨x, hx, rfl⟩ := Option.map_eq_some_iff.mp hy
    exact ⟨x, hx, .inr rfl⟩
  · rw [onWorkers_of_not_mem hv] at hy
    exact ⟨y, hy, .inl rfl⟩

/-- **Links survive what keeps request ids and sockets.** -/
theorem Group.Linked.onWorkers (h : g.Linked) (hf : ∀ x, (f x).reqId = x.reqId ∧ (f x).socket = x.socket) :
    (g.onWorkers ws f).Linked where
  attached := by
    intro w y k hy hk
    obtain ⟨x, hx, hyx⟩ := onWorkers_some hy
    have hsame : y.reqId = x.reqId ∧ y.socket = x.socket := by
      rcases hyx with rfl | rfl
      · exact ⟨rfl, rfl⟩
      · exact hf x
    rw [hsame.1]
    exact h.attached w x k hx (hsame.2 ▸ hk)
  table := by
    intro k s i w hs hi
    obtain ⟨hlt, x, hx, hk, hreq⟩ := h.table k s i w hs hi
    refine ⟨hlt, ?_⟩
    by_cases hw : w ∈ ws
    · exact ⟨f x, by rw [onWorkers_of_mem hw, hx]; rfl, (hf x).2.trans hk, (hf x).1.trans hreq⟩
    · exact ⟨x, by rw [onWorkers_of_not_mem hw, hx], hk, hreq⟩
  places := h.places
  freshWorker := by
    intro w hw
    by_cases hmem : w ∈ ws
    · rw [onWorkers_of_mem hmem, h.freshWorker w hw]
      rfl
    · rw [onWorkers_of_not_mem hmem]
      exact h.freshWorker w hw
  freshSocket := h.freshSocket

/-- **Lists survive what happens to workers off the lists.** -/
theorem Group.Listed.onWorkers (h : g.Listed) (hoff : ∀ w ∈ ws, w ∉ g.idleWorker ∧ g.Unqueued w) :
    (g.onWorkers ws f).Listed where
  once := h.once
  idle := by
    intro w hw
    obtain ⟨x, hx, hrest⟩ := h.idle w hw
    exact ⟨x, by rw [onWorkers_of_not_mem fun hmem => (hoff w hmem).1 hw, hx], hrest⟩
  queOnce := h.queOnce
  queued := by
    intro k s hs w hw
    obtain ⟨x, hx, hrest⟩ := h.queued k s hs w hw
    exact ⟨x, by rw [onWorkers_of_not_mem fun hmem => (hoff w hmem).2 k s hs hw, hx], hrest⟩
  noPlaces := h.noPlaces

theorem setSocket_self : (g.setSocket k s).sockets k = some s := by
  unfold Group.setSocket
  exact Function.update_self ..

theorem setSocket_of_ne {k' : Nat} (hk : k' ≠ k) : (g.setSocket k s).sockets k' = g.sockets k' := by
  unfold Group.setSocket
  exact Function.update_of_ne hk ..

/-- A socket keeps its links when its table and its place stay. -/
theorem Group.Linked.setSocket (h : g.Linked) (hs : g.sockets k = some s) (hworker : s'.worker = s.worker)
    (hlast : s'.lastWorker = s.lastWorker) (hid : s'.id = s.id) : (g.setSocket k s').Linked where
  attached := by
    intro w x k' hw hk'
    obtain ⟨t, ht, hi⟩ := h.attached w x k' hw hk'
    by_cases hk : k' = k
    · subst hk
      have hts : s = t := Option.some.inj (hs.symm.trans ht)
      subst hts
      exact ⟨s', setSocket_self, hworker ▸ hi⟩
    · exact ⟨t, by rw [setSocket_of_ne hk, ht], hi⟩
  table := by
    intro k' t i w ht hi
    by_cases hk : k' = k
    · subst hk
      have hts : s' = t := Option.some.inj (setSocket_self.symm.trans ht)
      subst hts
      rw [hlast]
      exact h.table k' s i w hs (hworker ▸ hi)
    · rw [setSocket_of_ne hk] at ht
      exact h.table k' t i w ht hi
  places := by
    intro hmax i k' hi
    obtain ⟨t, ht, hid'⟩ := h.places hmax i k' hi
    by_cases hk : k' = k
    · subst hk
      have hts : s = t := Option.some.inj (hs.symm.trans ht)
      subst hts
      exact ⟨s', setSocket_self, hid.trans hid'⟩
    · exact ⟨t, by rw [setSocket_of_ne hk, ht], hid'⟩
  freshWorker := h.freshWorker
  freshSocket := by
    intro k' hk'
    have hne : k' ≠ k := by
      rintro rfl
      exact absurd ((h.freshSocket k' hk').symm.trans hs) (by simp)
    rw [setSocket_of_ne hne]
    exact h.freshSocket k' hk'

/-- The lists are in order when the new queue is. -/
theorem Group.Listed.setSocket (h : g.Listed) (honce : s'.que.Nodup) (hque : ∀ w ∈ s'.que, g.Waiting k w) :
    (g.setSocket k s').Listed where
  once := h.once
  idle := h.idle
  queOnce := by
    intro k' t ht
    by_cases hk : k' = k
    · subst hk
      exact Option.some.inj (setSocket_self.symm.trans ht) ▸ honce
    · exact h.queOnce k' t (by rw [← setSocket_of_ne hk, ht])
  queued := by
    intro k' t ht w hw
    by_cases hk : k' = k
    · subst hk
      exact hque w (Option.some.inj (setSocket_self.symm.trans ht) ▸ hw)
    · exact h.queued k' t (by rw [← setSocket_of_ne hk, ht]) w hw
  noPlaces := h.noPlaces

end Writing

/-! ## Running the queue -/

theorem startedWorkers_append (p : Nat → Bool) (que : List Nat) :
    Group.startedWorkers p que ++ que.drop (Group.startedWorkers p que).length = que := by
  induction que with
  | nil => rfl
  | cons w que ih =>
      unfold Group.startedWorkers
      by_cases hw : p w = true
      · rw [if_pos hw]
        rfl
      · rw [if_neg hw, List.length_cons, List.drop_succ_cons, List.cons_append, ih]

/-- **Running a queue keeps the invariants.** Only waiting workers are started, and they leave the queue. -/
theorem Group.Inv.runQue {g : Group} (h : g.Inv) {k : Nat} {s : Socket} (hs : g.sockets k = some s) {que : List Nat}
    (honce : que.Nodup) (hque : ∀ w ∈ que, g.Waiting k w) : (g.runQue k s que).Inv := by
  have hsplit := startedWorkers_append g.streams que
  obtain ⟨started, hstarted⟩ : ∃ started, started = Group.startedWorkers g.streams que := ⟨_, rfl⟩
  rw [← hstarted] at hsplit
  have hboth := hsplit ▸ honce
  have hrest : ∀ w ∈ que.drop started.length, w ∈ que := fun w hw => List.drop_subset _ _ hw
  have hstart : ∀ w ∈ started, w ∈ que := by
    intro w hw
    rw [← hsplit]
    exact List.mem_append_left _ hw
  have hlisted : (g.setSocket k { s with
      busy := started.any g.streams, que := que.drop started.length }).Listed :=
    h.listed.setSocket ((List.drop_sublist _ _).nodup honce) fun w hw => hque w (hrest w hw)
  unfold Group.runQue
  dsimp only
  rw [← hstarted]
  constructor
  · have hlinked : (g.setSocket k { s with
        busy := started.any g.streams, que := que.drop started.length }).Linked :=
      h.linked.setSocket hs rfl rfl rfl
    exact hlinked.onWorkers fun x => ⟨rfl, rfl⟩
  · apply hlisted.onWorkers
    intro w hw
    have hwait := hque w (hstart w hw)
    refine ⟨fun hmem => hwait.not_idle (h.listed.idle w hmem), ?_⟩
    intro k' t ht hmem
    by_cases hk : k' = k
    · subst hk
      have hts := Option.some.inj (setSocket_self.symm.trans ht)
      subst hts
      exact (List.nodup_append.mp hboth).2.2 w hw w hmem rfl
    · rw [setSocket_of_ne hk] at ht
      exact hk ((h.listed.queued k' t ht w hmem).same_socket hwait)

theorem Group.Inv.socketContinue {g g' : Group} (h : g.Inv) {k : Nat} (hstep : g.hinFcgiSocketContinue k = some g') :
    g'.Inv := by
  unfold Group.hinFcgiSocketContinue at hstep
  split at hstep
  · exact absurd hstep (by simp)
  · rename_i s hs
    obtain rfl := Option.some.inj hstep
    exact h.runQue hs (h.listed.queOnce k s hs) (h.listed.queued k s hs)

/-- A worker with a body under way is not in the queue, and is left alone. -/
theorem continue_keeps {g g' : Group} (h : g.Inv) {k w : Nat} {x : Worker} (hw : g.workers w = some x)
    (hpost : x.post = true) (hstep : g.hinFcgiSocketContinue k = some g') :
    g'.workers w = some x ∧ g'.maxSocket = g.maxSocket := by
  unfold Group.hinFcgiSocketContinue at hstep
  split at hstep
  · exact absurd hstep (by simp)
  · rename_i s hs
    obtain rfl := Option.some.inj hstep
    refine ⟨?_, rfl⟩
    have hoff := (h.listed.off_lists hw (.inr hpost)).2 k s hs
    unfold Group.runQue
    dsimp only
    rw [onWorkers_of_not_mem fun hmem => ?_]
    · exact hw
    · apply hoff
      rw [← startedWorkers_append g.streams s.que]
      exact List.mem_append_left _ hmem

/-- **Running a worker keeps the invariants** when the worker is one that may wait and is on no list. -/
theorem Group.Inv.workerRun {g g' : Group} (h : g.Inv) {k w : Nat} (hwait : g.Waiting k w) (hoff : g.Unqueued w)
    (hstep : g.hinFcgiWorkerRun w = some g') : g'.Inv := by
  obtain ⟨x, hx, hk, -⟩ := id hwait
  unfold Group.hinFcgiWorkerRun at hstep
  rw [hx, Option.bind_some, hk] at hstep
  dsimp only at hstep
  split at hstep
  · exact absurd hstep (by simp)
  · rename_i s hs
    have hnot := hoff k s hs
    split at hstep
    · obtain rfl := Option.some.inj hstep
      constructor
      · exact h.linked.setSocket hs rfl rfl rfl
      · apply h.listed.setSocket
        · exact List.nodup_append.mpr ⟨h.listed.queOnce k s hs, List.nodup_singleton w, fun a ha b hb => by
            rintro rfl
            exact hnot (List.mem_singleton.mp hb ▸ ha)⟩
        · intro v hv
          rcases List.mem_append.mp hv with hv | hv
          · exact h.listed.queued k s hs v hv
          · exact List.mem_singleton.mp hv ▸ hwait
    · obtain rfl := Option.some.inj hstep
      apply h.runQue hs (List.nodup_cons.mpr ⟨hnot, h.listed.queOnce k s hs⟩)
      intro v hv
      rcases List.mem_cons.mp hv with rfl | hv
      · exact hwait
      · exact h.listed.queued k s hs v hv

/-! ## Closing a socket -/

/-- No idle worker belongs to the socket. -/
def Group.NoneIdle (g : Group) (k : Nat) : Prop :=
  ∀ w ∈ g.idleWorker, (g.workers w).bind Worker.socket ≠ some k

instance (g : Group) (k : Nat) : Decidable (g.NoneIdle k) :=
  inferInstanceAs (Decidable (∀ w ∈ g.idleWorker, (g.workers w).bind Worker.socket ≠ some k))

/-- The workers of the table are those of the socket. -/
theorem Group.Linked.mem_table {g : Group} (h : g.Linked) {k : Nat} {s : Socket} (hs : g.sockets k = some s) {w : Nat}
    {x : Worker} (hw : g.workers w = some x) : some w ∈ s.worker ↔ x.socket = some k := by
  constructor
  · intro hmem
    obtain ⟨i, hi⟩ := List.mem_iff_getElem?.mp hmem
    obtain ⟨-, y, hy, hk, -⟩ := h.table k s i w hs hi
    exact Option.some.inj (hw.symm.trans hy) ▸ hk
  · intro hk
    obtain ⟨t, ht, hi⟩ := h.attached w x k hw hk
    obtain rfl := Option.some.inj (hs.symm.trans ht)
    exact List.mem_iff_getElem?.mpr ⟨_, hi⟩

/-- **Closing a socket that has no idle worker keeps the invariants.** Its workers forget it or are freed, its place is
    given up, and its queue goes with it. -/
theorem Group.Inv.socketClose {g g' : Group} (h : g.Inv) {k : Nat} (hidle : g.NoneIdle k)
    (hstep : g.hinFcgiSocketClose k = some g') : g'.Inv := by
  unfold Group.hinFcgiSocketClose at hstep
  split at hstep
  · exact absurd hstep (by simp)
  rename_i s hs
  obtain rfl := Option.some.inj hstep
  have hmem : ∀ {w x}, g.workers w = some x → (some w ∈ s.worker ↔ x.socket = some k) :=
    fun hw => h.linked.mem_table hs hw
  -- what is still attached was not of this socket
  have hkeep : ∀ w x, g.workers w = some x → x.socket ≠ some k →
      (if some w ∈ s.worker then (g.workers w).bind Group.closedWorker else g.workers w) = some x := by
    intro w x hw hne
    rw [if_neg (mt (hmem hw).mp hne), hw]
  have hfrom : ∀ w y k', (if some w ∈ s.worker then (g.workers w).bind Group.closedWorker else g.workers w) = some y →
      y.socket = some k' → g.workers w = some y ∧ k' ≠ k := by
    intro w y k' hy hk'
    split at hy
    · obtain ⟨x, -, hx⟩ := Option.bind_eq_some_iff.mp hy
      unfold Group.closedWorker at hx
      split at hx
      · obtain rfl := Option.some.inj hx
        exact absurd hk' (by simp)
      · exact absurd hx (by simp)
    · rename_i hnot
      refine ⟨hy, ?_⟩
      rintro rfl
      exact hnot ((hmem hy).mpr hk')
  have hother : ∀ k' t, Function.update g.sockets k none k' = some t → k' ≠ k ∧ g.sockets k' = some t := by
    intro k' t ht
    by_cases hk : k' = k
    · subst hk
      rw [Function.update_self] at ht
      exact absurd ht (by simp)
    · rw [Function.update_of_ne hk] at ht
      exact ⟨hk, ht⟩
  constructor
  · constructor
    · intro w y k' hy hk'
      obtain ⟨hw, hne⟩ := hfrom w y k' hy hk'
      obtain ⟨t, ht, hi⟩ := h.linked.attached w y k' hw hk'
      exact ⟨t, (Function.update_of_ne hne ..).trans ht, hi⟩
    · intro k' t i w ht hi
      obtain ⟨hne, ht⟩ := hother k' t ht
      obtain ⟨hlt, x, hx, hk', hreq⟩ := h.linked.table k' t i w ht hi
      refine ⟨hlt, x, hkeep w x hx ?_, hk', hreq⟩
      rw [hk']
      exact fun heq => hne (Option.some.inj heq)
    · intro hmax i k' hi
      rw [if_neg hmax] at hi
      dsimp only at hi
      by_cases his : i = s.id
      · subst his
        rw [Function.update_self] at hi
        exact absurd hi (by simp)
      · rw [Function.update_of_ne his] at hi
        obtain ⟨t, ht, hid⟩ := h.linked.places hmax i k' hi
        refine ⟨t, (Function.update_of_ne ?_ ..).trans ht, hid⟩
        rintro rfl
        exact his (hid.symm.trans (congrArg Socket.id (Option.some.inj (ht.symm.trans hs))))
    · intro w hw
      dsimp only
      rw [h.linked.freshWorker w hw, Option.bind_none, ite_self]
    · intro k' hk'
      by_cases hk : k' = k
      · subst hk
        exact Function.update_self ..
      · exact (Function.update_of_ne hk ..).trans (h.linked.freshSocket k' hk')
  · constructor
    · exact h.listed.once
    · intro w hw
      obtain ⟨x, hx, hrest⟩ := h.listed.idle w hw
      have hne := hidle w hw
      rw [hx, Option.bind_some] at hne
      exact ⟨x, hkeep w x hx hne, hrest⟩
    · intro k' t ht
      exact h.listed.queOnce k' t (hother k' t ht).2
    · intro k' t ht w hw
      obtain ⟨hne, ht⟩ := hother k' t ht
      obtain ⟨x, hx, hk', hrest⟩ := h.listed.queued k' t ht w hw
      refine ⟨x, hkeep w x hx ?_, hk', hrest⟩
      rw [hk']
      exact fun heq => hne (Option.some.inj heq)
    · exact h.listed.noPlaces

/-! ## The end of a request -/

/-- **A worker that is through keeps the invariants.** It joins the idle list, takes its socket with it where there are no
    places, or is freed with nothing pointing at it. -/
theorem Group.Inv.workerReset {g g' : Group} (h : g.Inv) {w : Nat} {x : Worker} (hw : g.workers w = some x)
    (hoff : w ∉ g.idleWorker ∧ g.Unqueued w) (hstep : g.hinFcgiWorkerReset w = some g') : g'.Inv := by
  unfold Group.hinFcgiWorkerReset at hstep
  rw [hw] at hstep
  dsimp only at hstep
  split at hstep
  · exact Option.some.inj hstep ▸ h
  rename_i hbits
  simp only [Bool.or_eq_true, not_or, Bool.not_eq_true] at hbits
  obtain ⟨⟨hpost, hdata⟩, -⟩ := hbits
  obtain ⟨e, he⟩ : ∃ e, e = g.onWorkers [w] fun x => { x with ended := true, http := none } := ⟨_, rfl⟩
  have hself : e.workers w = some { x with ended := true, http := none } := by
    rw [he, onWorkers_of_mem (List.mem_singleton_self w), hw]
    rfl
  have hinv : e.Inv := by
    rw [he]
    constructor
    · exact h.linked.onWorkers fun x => ⟨rfl, rfl⟩
    · apply h.listed.onWorkers
      intro v hv
      exact List.mem_singleton.mp hv ▸ hoff
  have hunq : e.Unqueued w := fun k s hs => hoff.2 k s (by rw [he] at hs; exact hs)
  have hnot : w ∉ e.idleWorker := fun hmem => hoff.1 (by rw [he] at hmem; exact hmem)
  rw [← he] at hstep
  split at hstep
  · -- the socket was closed before: the worker is freed
    rename_i hnone
    obtain rfl := Option.some.inj hstep
    have hgone : ∀ v y k, g.workers v = some y → y.socket = some k → v ≠ w := by
      rintro v y k hv hk rfl
      obtain rfl := Option.some.inj (hw.symm.trans hv)
      exact absurd (hnone.symm.trans hk) (by simp)
    have hkept : ∀ v, v ≠ w → Function.update e.workers w none v = e.workers v := fun v hv =>
      Function.update_of_ne hv ..
    have hwas : ∀ v y, Function.update e.workers w none v = some y → v ≠ w ∧ e.workers v = some y := by
      intro v y hv
      by_cases hvw : v = w
      · subst hvw
        rw [Function.update_self] at hv
        exact absurd hv (by simp)
      · exact ⟨hvw, hkept v hvw ▸ hv⟩
    constructor
    · constructor
      · intro v y k hv hk
        exact hinv.linked.attached v y k (hwas v y hv).2 hk
      · intro k s i v hs hi
        obtain ⟨hlt, y, hy, hk, hreq⟩ := hinv.linked.table k s i v hs hi
        refine ⟨hlt, y, (hkept v ?_).trans hy, hk, hreq⟩
        rintro rfl
        obtain rfl := Option.some.inj (hself.symm.trans hy)
        exact absurd (hnone.symm.trans hk) (by simp)
      · exact hinv.linked.places
      · intro v hv
        by_cases hvw : v = w
        · subst hvw
          exact Function.update_self ..
        · exact (hkept v hvw).trans (hinv.linked.freshWorker v hv)
      · exact hinv.linked.freshSocket
    · constructor
      · exact hinv.listed.once
      · intro v hv
        obtain ⟨y, hy, hrest⟩ := hinv.listed.idle v hv
        exact ⟨y, (hkept v (by rintro rfl; exact hnot hv)).trans hy, hrest⟩
      · exact hinv.listed.queOnce
      · intro k s hs v hv
        obtain ⟨y, hy, hrest⟩ := hinv.listed.queued k s hs v hv
        exact ⟨y, (hkept v (by rintro rfl; exact hunq k s hs hv)).trans hy, hrest⟩
      · exact hinv.listed.noPlaces
  · rename_i k hk
    split at hstep
    · -- without places nothing is idle, and the socket goes
      rename_i hzero
      apply hinv.socketClose ?_ hstep
      intro v hv
      rw [hinv.listed.noPlaces hzero] at hv
      exact absurd hv List.not_mem_nil
    · rename_i hplaces
      obtain rfl := Option.some.inj hstep
      refine ⟨⟨hinv.linked.attached, hinv.linked.table, hinv.linked.places, hinv.linked.freshWorker,
        hinv.linked.freshSocket⟩, ⟨?_, ?_, hinv.listed.queOnce, hinv.listed.queued, fun hzero => absurd hzero hplaces⟩⟩
      · exact List.nodup_append.mpr ⟨hinv.listed.once, List.nodup_singleton w, fun a ha b hb => by
          rintro rfl
          exact hnot (List.mem_singleton.mp hb ▸ ha)⟩
      · intro v hv
        rcases List.mem_append.mp hv with hv | hv
        · exact hinv.listed.idle v hv
        · obtain rfl := List.mem_singleton.mp hv
          exact ⟨_, hself, rfl, rfl, hdata, hpost, by rw [hk]; simp⟩

/-- A worker that is not on a list can have its bits cleared and be reset. -/
theorem Group.Inv.clear_reset {g g' : Group} (h : g.Inv) {w : Nat} {x : Worker} (hw : g.workers w = some x)
    (hbusy : x.data = true ∨ x.post = true) {f : Worker → Worker}
    (hstep : (g.onWorkers [w] f).hinFcgiWorkerReset w = some g')
    (hf : ∀ x, (f x).reqId = x.reqId ∧ (f x).socket = x.socket) : g'.Inv := by
  have hoff := h.listed.off_lists hw hbusy
  have hcleared : (g.onWorkers [w] f).Inv := by
    constructor
    · exact h.linked.onWorkers hf
    · apply h.listed.onWorkers
      intro v hv
      exact List.mem_singleton.mp hv ▸ hoff
  have hself : (g.onWorkers [w] f).workers w = some (f x) := by
    rw [onWorkers_of_mem (List.mem_singleton_self w), hw]
    rfl
  exact hcleared.workerReset hself hoff hstep

/-! ## A worker for a request -/

theorem growTable_length (t : List (Option Nat)) (n : Nat) : n ≤ (Group.growTable t n).length := by
  unfold Group.growTable
  split
  · assumption
  · rw [List.length_append, List.length_replicate]
    omega

theorem growTable_some {t : List (Option Nat)} {n i w : Nat} :
    (Group.growTable t n)[i]? = some (some w) ↔ t[i]? = some (some w) := by
  unfold Group.growTable
  split
  · exact Iff.rfl
  · by_cases hi : i < t.length
    · rw [List.getElem?_append_left hi]
    · rw [List.getElem?_append_right (by omega), List.getElem?_replicate, List.getElem?_eq_none (by omega)]
      constructor
      · intro h
        split at h <;> simp at h
      · intro h
        exact absurd h (by simp)

/-- What `hin_fcgi_get_socket` does: a live socket, and workers and lists as they were. -/
theorem getSocket_spec {g : Group} (h : g.Inv) :
    ∃ g' k s, g.hinFcgiGetSocket = (g', k) ∧ g'.Inv ∧ g'.sockets k = some s ∧ g'.workers = g.workers ∧
      g'.idleWorker = g.idleWorker := by
  obtain ⟨pos, hpos⟩ : ∃ pos, pos = if g.maxSocket = 0 then g.curSocket else g.curSocket % g.maxSocket := ⟨_, rfl⟩
  have hcur : ({ g with curSocket := g.curSocket + 1 } : Group).Inv :=
    ⟨⟨h.linked.attached, h.linked.table, h.linked.places, h.linked.freshWorker, h.linked.freshSocket⟩,
      ⟨h.listed.once, h.listed.idle, h.listed.queOnce, h.listed.queued, h.listed.noPlaces⟩⟩
  unfold Group.hinFcgiGetSocket
  dsimp only
  rw [← hpos]
  split
  · rename_i k hk
    split at hk
    · exact absurd hk (by simp)
    · rename_i hmax
      obtain ⟨s, hs, -⟩ := h.linked.places hmax pos k hk
      exact ⟨_, k, s, rfl, hcur, hs, rfl, rfl⟩
  · have hnew : g.sockets g.nextSocket = none := h.linked.freshSocket _ (Nat.le_refl _)
    have hother : ∀ k' t, g.sockets k' = some t → k' ≠ g.nextSocket := by
      rintro k' t ht rfl
      exact absurd (hnew.symm.trans ht) (by simp)
    refine ⟨_, g.nextSocket, { id := pos }, rfl, ⟨⟨?_, ?_, ?_, h.linked.freshWorker, ?_⟩,
      ⟨h.listed.once, h.listed.idle, ?_, ?_, h.listed.noPlaces⟩⟩, setSocket_self, rfl, rfl⟩
    · intro w x k' hw hk'
      obtain ⟨t, ht, hi⟩ := h.linked.attached w x k' hw hk'
      exact ⟨t, (setSocket_of_ne (hother k' t ht)).trans ht, hi⟩
    · intro k' t i w ht hi
      by_cases hk : k' = g.nextSocket
      · subst hk
        obtain rfl := Option.some.inj (setSocket_self.symm.trans ht)
        exact absurd hi (by simp)
      · exact h.linked.table k' t i w ((setSocket_of_ne hk).symm.trans ht) hi
    · intro hmax i k' hi
      have hplaces : g.maxSocket ≠ 0 := hmax
      dsimp only at hi
      rw [if_neg hplaces] at hi
      by_cases hip : i = pos
      · subst hip
        rw [Function.update_self] at hi
        obtain rfl := Option.some.inj hi
        exact ⟨_, setSocket_self, rfl⟩
      · rw [Function.update_of_ne hip] at hi
        obtain ⟨t, ht, hid⟩ := h.linked.places hmax i k' hi
        exact ⟨t, (setSocket_of_ne (hother k' t ht)).trans ht, hid⟩
    · intro k' hk'
      refine (setSocket_of_ne ?_).trans (h.linked.freshSocket k' (Nat.le_of_succ_le hk'))
      rintro rfl
      exact Nat.not_succ_le_self _ hk'
    · intro k' t ht
      by_cases hk : k' = g.nextSocket
      · subst hk
        obtain rfl := Option.some.inj (setSocket_self.symm.trans ht)
        exact List.nodup_nil
      · exact h.listed.queOnce k' t ((setSocket_of_ne hk).symm.trans ht)
    · intro k' t ht w hw
      by_cases hk : k' = g.nextSocket
      · subst hk
        obtain rfl := Option.some.inj (setSocket_self.symm.trans ht)
        exact absurd hw List.not_mem_nil
      · exact h.listed.queued k' t ((setSocket_of_ne hk).symm.trans ht) w hw

/-- A worker nobody uses yet, of the socket `k`. -/
def Group.Fresh (g : Group) (k w : Nat) : Prop :=
  ∃ x, g.workers w = some x ∧ x.socket = some k ∧ x.http = none ∧ x.ended = false ∧ x.data = false ∧ x.post = false

theorem Group.Fresh.usable {g : Group} (h : g.Inv) {k w : Nat} (hw : g.Fresh k w) : g.Usable w := by
  obtain ⟨x, hx, hk, hhttp, -, hdata, hpost⟩ := hw
  obtain ⟨s, hs, hi⟩ := h.linked.attached w x k hx hk
  exact ⟨x, k, s, hx, hhttp, hdata, hpost, hk, hs, hi⟩

/-- **A new worker keeps the invariants.** Its request id is the next one of the socket, which no other worker has. -/
theorem Group.Inv.newWorker {g : Group} (h : g.Inv) {k : Nat} {s : Socket} (hs : g.sockets k = some s) :
    (g.newWorker k s).1.Inv ∧ (g.newWorker k s).1.Fresh k g.nextWorker := by
  have hnone : g.workers g.nextWorker = none := h.linked.freshWorker _ (Nat.le_refl _)
  have hother : ∀ v y, g.workers v = some y → v ≠ g.nextWorker := by
    rintro v y hv rfl
    exact absurd (hnone.symm.trans hv) (by simp)
  have hroom : s.lastWorker < (Group.growTable s.worker (s.lastWorker + 1)).length := growTable_length ..
  have hold : ∀ (i v : Nat), s.worker[i]? = some (some v) →
      ((Group.growTable s.worker (s.lastWorker + 1)).set s.lastWorker (some g.nextWorker))[i]? = some (some v) := by
    intro i v hi
    have hlt := (h.linked.table k s i v hs hi).1
    rw [List.getElem?_set_ne (by omega)]
    exact growTable_some.mpr hi
  obtain ⟨t, ht⟩ : ∃ t : Socket, t = { s with
      numWorker := s.numWorker + 1, lastWorker := s.lastWorker + 1,
      worker := (Group.growTable s.worker (s.lastWorker + 1)).set s.lastWorker (some g.nextWorker) } := ⟨_, rfl⟩
  have hstep : (g.newWorker k s).1 = { g.setSocket k t with
      workers := Function.update g.workers g.nextWorker (some { reqId := s.lastWorker, socket := some k })
      nextWorker := g.nextWorker + 1 } := by
    rw [ht]
    rfl
  rw [hstep]
  have hself : Function.update g.workers g.nextWorker (some { reqId := s.lastWorker, socket := some k })
      g.nextWorker = some { reqId := s.lastWorker, socket := some k } := Function.update_self ..
  have hkept : ∀ v y, g.workers v = some y →
      Function.update g.workers g.nextWorker (some { reqId := s.lastWorker, socket := some k }) v = some y :=
    fun v y hv => (Function.update_of_ne (hother v y hv) ..).trans hv
  refine ⟨⟨⟨?_, ?_, ?_, ?_, ?_⟩, ⟨h.listed.once, ?_, ?_, ?_, h.listed.noPlaces⟩⟩, ⟨_, hself, rfl, rfl, rfl, rfl, rfl⟩⟩
  · intro v y k' hv hk'
    by_cases hvw : v = g.nextWorker
    · subst hvw
      obtain rfl := Option.some.inj (hself.symm.trans hv)
      obtain rfl := Option.some.inj hk'
      refine ⟨t, setSocket_self, ?_⟩
      rw [ht]
      exact List.getElem?_set_self hroom
    · have hv' : g.workers v = some y := (Function.update_of_ne hvw ..).symm.trans hv
      obtain ⟨u, hu, hi⟩ := h.linked.attached v y k' hv' hk'
      by_cases hk : k' = k
      · subst hk
        obtain rfl := Option.some.inj (hs.symm.trans hu)
        refine ⟨t, setSocket_self, ?_⟩
        rw [ht]
        exact hold _ _ hi
      · exact ⟨u, (setSocket_of_ne hk).trans hu, hi⟩
  · intro k' u i v hu hi
    by_cases hk : k' = k
    · subst hk
      obtain rfl := Option.some.inj (setSocket_self.symm.trans hu)
      rw [ht] at hi ⊢
      dsimp only at hi ⊢
      by_cases hlast : s.lastWorker = i
      · subst hlast
        rw [List.getElem?_set_self hroom] at hi
        obtain rfl := Option.some.inj (Option.some.inj hi)
        exact ⟨Nat.lt_succ_self _, _, hself, rfl, rfl⟩
      · rw [List.getElem?_set_ne hlast] at hi
        obtain ⟨hlt, y, hy, hrest⟩ := h.linked.table k' s i v hs (growTable_some.mp hi)
        exact ⟨Nat.lt_succ_of_lt hlt, y, hkept v y hy, hrest⟩
    · have hu' := (setSocket_of_ne hk).symm.trans hu
      obtain ⟨hlt, y, hy, hrest⟩ := h.linked.table k' u i v hu' hi
      exact ⟨hlt, y, hkept v y hy, hrest⟩
  · intro hmax i k' hi
    obtain ⟨u, hu, hid⟩ := h.linked.places hmax i k' hi
    by_cases hk : k' = k
    · subst hk
      obtain rfl := Option.some.inj (hs.symm.trans hu)
      refine ⟨t, setSocket_self, ?_⟩
      rw [ht]
      exact hid
    · exact ⟨u, (setSocket_of_ne hk).trans hu, hid⟩
  · intro v hv
    have hne : v ≠ g.nextWorker := by
      rintro rfl
      exact Nat.not_succ_le_self _ hv
    exact (Function.update_of_ne hne ..).trans (h.linked.freshWorker v (Nat.le_of_succ_le hv))
  · intro k' hk'
    have hne : k' ≠ k := by
      rintro rfl
      exact absurd ((h.linked.freshSocket k' hk').symm.trans hs) (by simp)
    exact (setSocket_of_ne hne).trans (h.linked.freshSocket k' hk')
  · intro v hv
    obtain ⟨y, hy, hrest⟩ := h.listed.idle v hv
    exact ⟨y, hkept v y hy, hrest⟩
  · intro k' u hu
    by_cases hk : k' = k
    · subst hk
      obtain rfl := Option.some.inj (setSocket_self.symm.trans hu)
      rw [ht]
      exact h.listed.queOnce k' s hs
    · exact h.listed.queOnce k' u ((setSocket_of_ne hk).symm.trans hu)
  · intro k' u hu v hv
    by_cases hk : k' = k
    · subst hk
      obtain rfl := Option.some.inj (setSocket_self.symm.trans hu)
      rw [ht] at hv
      obtain ⟨y, hy, hrest⟩ := h.listed.queued k' s hs v hv
      exact ⟨y, hkept v y hy, hrest⟩
    · obtain ⟨y, hy, hrest⟩ := h.listed.queued k' u ((setSocket_of_ne hk).symm.trans hu) v hv
      exact ⟨y, hkept v y hy, hrest⟩

/-- An idle worker is usable. -/
theorem Group.Inv.idle_usable {g : Group} (h : g.Inv) {w : Nat} (hw : w ∈ g.idleWorker) : g.Usable w := by
  obtain ⟨x, hx, -, hhttp, hdata, hpost, hsock⟩ := h.listed.idle w hw
  obtain ⟨k, hk⟩ := Option.ne_none_iff_exists'.mp hsock
  obtain ⟨s, hs, hi⟩ := h.linked.attached w x k hx hk
  exact ⟨x, k, s, hx, hhttp, hdata, hpost, hk, hs, hi⟩

/-- An idle worker is in no queue. -/
theorem Group.Inv.idle_unqueued {g : Group} (h : g.Inv) {w : Nat} (hw : w ∈ g.idleWorker) : g.Unqueued w :=
  fun k s hs hmem => (h.listed.queued k s hs w hmem).not_idle (h.listed.idle w hw)

/-- **What `hin_fcgi_get_worker` does.** The worker is fresh and on no list, and nothing else changes for the workers. -/
theorem getWorker_spec {g : Group} (h : g.Inv) :
    ∃ g' w k, g.hinFcgiGetWorker = some (g', w) ∧ g'.Inv ∧ g'.Fresh k w ∧ w ∉ g'.idleWorker ∧ g'.Unqueued w ∧
      (g.workers w = none ∨ g.Usable w) ∧ ∀ v, v ≠ w → g'.workers v = g.workers v := by
  unfold Group.hinFcgiGetWorker
  split
  · rename_i w idle hlist
    have hmem : w ∈ g.idleWorker := by rw [hlist]; exact List.mem_cons_self
    obtain ⟨x, hx, -, hhttp, hdata, hpost, hsock⟩ := h.listed.idle w hmem
    obtain ⟨k, hk⟩ := Option.ne_none_iff_exists'.mp hsock
    have honce := h.listed.once
    rw [hlist, List.nodup_cons] at honce
    have hpopped : ({ g with idleWorker := idle } : Group).Inv := by
      refine ⟨⟨h.linked.attached, h.linked.table, h.linked.places, h.linked.freshWorker, h.linked.freshSocket⟩,
        ⟨honce.2, ?_, h.listed.queOnce, h.listed.queued, ?_⟩⟩
      · intro v hv
        apply h.listed.idle v
        rw [hlist]
        exact List.mem_cons_of_mem _ hv
      · intro hzero
        rw [h.listed.noPlaces hzero] at hlist
        exact absurd hlist (by simp)
    have hunq : g.Unqueued w := h.idle_unqueued hmem
    refine ⟨_, w, k, rfl, ⟨?_, ?_⟩, ⟨{ x with ended := false }, ?_, hk, hhttp, rfl, hdata, hpost⟩, honce.1, hunq,
      .inr (h.idle_usable hmem), ?_⟩
    · exact hpopped.linked.onWorkers fun x => ⟨rfl, rfl⟩
    · apply hpopped.listed.onWorkers
      intro v hv
      exact List.mem_singleton.mp hv ▸ ⟨honce.1, hunq⟩
    · rw [onWorkers_of_mem (List.mem_singleton_self w)]
      dsimp only
      rw [hx]
      rfl
    · intro v hv
      rw [onWorkers_of_not_mem fun hmem => hv (List.mem_singleton.mp hmem)]
  · obtain ⟨g₁, k, s, hget, hinv, hs, hworkers, hidle⟩ := getSocket_spec h
    rw [hget]
    dsimp only
    rw [hs]
    obtain ⟨hnew, hfresh⟩ := hinv.newWorker hs
    have hnone : g₁.workers g₁.nextWorker = none := hinv.linked.freshWorker _ (Nat.le_refl _)
    have hoff := hinv.listed.unqueued_of_none hnone
    refine ⟨(g₁.newWorker k s).1, g₁.nextWorker, k, rfl, hnew, hfresh, hoff.1, ?_, .inl (hworkers ▸ hnone), ?_⟩
    · intro k' t ht hmem
      by_cases hk : k' = k
      · subst hk
        obtain rfl := Option.some.inj (setSocket_self.symm.trans ht)
        exact hoff.2 k' s hs hmem
      · exact hoff.2 k' t ((setSocket_of_ne hk).symm.trans ht) hmem
    · intro v hv
      rw [← hworkers]
      exact Function.update_of_ne hv ..

/-- What the invariants say about a group. -/
theorem Group.Inv.sound {g : Group} (h : g.Inv) : g.Sound := by
  constructor
  · exact h.listed.once
  · intro w hw
    exact h.idle_usable hw
  · intro w hw
    exact h.idle_unqueued hw
  · obtain ⟨g', w, k, hget, hinv, hfresh, hidle, hunq, hbefore, hothers⟩ := getWorker_spec h
    exact ⟨g', w, hget, hbefore, hfresh.usable hinv, hidle, hunq, hothers⟩
  · intro v w x y k hv hw hxk hyk hid
    obtain ⟨s, hs, hvi⟩ := h.linked.attached v x k hv hxk
    obtain ⟨t, ht, hwi⟩ := h.linked.attached w y k hw hyk
    obtain rfl := Option.some.inj (hs.symm.trans ht)
    rw [hid] at hvi
    exact Option.some.inj (Option.some.inj (hvi.symm.trans hwi))

/-! ## Runs -/

/-- No socket is closed that has an idle worker. -/
def ClosesUnidle (g : Group) : GroupEvent → Prop
  | .closed k => g.NoneIdle k
  | _ => True

instance (g : Group) : (e : GroupEvent) → Decidable (ClosesUnidle g e)
  | .closed k => inferInstanceAs (Decidable (g.NoneIdle k))
  | .request _ => isTrue trivial
  | .connected _ => isTrue trivial
  | .responseEnd _ => isTrue trivial
  | .postEnd _ => isTrue trivial

theorem Group.Inv.fastcgi {g g' : Group} (h : g.Inv) {http : Client} (hstep : g.hinFastcgi http = some g') :
    g'.Inv := by
  obtain ⟨g₁, w, k, hget, hinv, ⟨x, hx, hk, -, hended, hdata, hpost⟩, hidle, hunq, -, -⟩ := getWorker_spec h
  unfold Group.hinFastcgi at hstep
  rw [hget] at hstep
  dsimp only at hstep
  have hinv' : (g₁.onWorkers [w] fun x => { x with http := some http }).Inv := by
    constructor
    · exact hinv.linked.onWorkers fun x => ⟨rfl, rfl⟩
    · apply hinv.listed.onWorkers
      intro v hv
      exact List.mem_singleton.mp hv ▸ ⟨hidle, hunq⟩
  have hself : (g₁.onWorkers [w] fun x => { x with http := some http }).workers w = some { x with http := some http } := by
    rw [onWorkers_of_mem (List.mem_singleton_self w), hx]
    rfl
  have hwait : (g₁.onWorkers [w] fun x => { x with http := some http }).Waiting k w :=
    ⟨_, hself, hk, hended, hdata, hpost⟩
  exact hinv'.workerRun hwait hunq hstep

/-- **One step keeps the invariants**, one case for each event. -/
theorem group_step_inv {g g' : Group} {e : GroupEvent} (h : g.Inv) (hguard : ClosesUnidle g e)
    (hstep : g.step e = some g') : g'.Inv := by
  cases e with
  | request http => exact h.fastcgi hstep
  | connected k =>
      unfold Group.step Group.hinFcgiConnect at hstep
      dsimp only at hstep
      split at hstep
      · exact absurd hstep (by simp)
      · rename_i s hs
        split at hstep
        · exact absurd hstep (by simp)
        · have hinv : (g.setSocket k { s with connected := true }).Inv :=
            ⟨h.linked.setSocket hs rfl rfl rfl, h.listed.setSocket (h.listed.queOnce k s hs) (h.listed.queued k s hs)⟩
          exact hinv.socketContinue hstep
  | closed k => exact h.socketClose hguard hstep
  | responseEnd w =>
      unfold Group.step Group.hinFcgiPipeFinish at hstep
      dsimp only at hstep
      split at hstep
      · exact absurd hstep (by simp)
      · rename_i x hx
        split at hstep
        · rename_i hbits
          rw [Bool.and_eq_true] at hbits
          exact h.clear_reset hx (.inl hbits.1) hstep fun x => ⟨rfl, rfl⟩
        · exact absurd hstep (by simp)
  | postEnd w =>
      unfold Group.step Group.hinFcgiPostDone at hstep
      dsimp only at hstep
      split at hstep
      · exact absurd hstep (by simp)
      rename_i x hx
      split at hstep
      · exact absurd hstep (by simp)
      rename_i k hk
      split at hstep
      · rename_i hpost
        obtain ⟨g₁, hcont, hreset⟩ := Option.bind_eq_some_iff.mp hstep
        obtain ⟨hx₁, -⟩ := continue_keeps h hx hpost hcont
        exact (h.socketContinue hcont).clear_reset hx₁ (.inr hpost) hreset fun x => ⟨rfl, rfl⟩
      · exact absurd hstep (by simp)

theorem start_inv (max : Nat) : (hinFcgiStart max).Inv := by
  constructor
  · constructor
    · intro w x k hw
      exact absurd hw (by simp [hinFcgiStart])
    · intro k s i w hs
      exact absurd hs (by simp [hinFcgiStart])
    · intro _ i k hi
      exact absurd hi (by simp [hinFcgiStart])
    · intro w _
      rfl
    · intro k _
      rfl
  · constructor
    · exact List.nodup_nil
    · intro w hw
      exact absurd hw List.not_mem_nil
    · intro k s hs
      exact absurd hs (by simp [hinFcgiStart])
    · intro k s hs
      exact absurd hs (by simp [hinFcgiStart])
    · intro _
      rfl

/-- **Closing any other socket breaks the list.** Its idle workers stay where they are, without a socket. -/
theorem idle_close_unsound {g g' : Group} (h : g.Inv) {k : Nat} (hnot : ¬ g.NoneIdle k)
    (hstep : g.step (.closed k) = some g') : ¬ g'.Sound := by
  intro hsound
  unfold Group.step Group.hinFcgiSocketClose at hstep
  dsimp only at hstep
  split at hstep
  · exact absurd hstep (by simp)
  rename_i s hs
  obtain rfl := Option.some.inj hstep
  apply hnot
  intro w hw hk
  obtain ⟨x, hx, hended, -⟩ := h.listed.idle w hw
  rw [hx, Option.bind_some] at hk
  obtain ⟨y, k', -, hy, -, -, -, hk', -⟩ := hsound.usable w hw
  dsimp only at hy
  rw [if_pos ((h.linked.mem_table hs hx).mpr hk), hx, Option.bind_some] at hy
  unfold Group.closedWorker at hy
  rw [hended, Bool.or_true, if_pos rfl] at hy
  obtain rfl := Option.some.inj hy
  exact absurd hk' (by simp)

end Fcgi
end Hin9
