import Hin9.Http.Request
import Hin9.Lib.Runs

/-!
# `Http.RequestReset` — what one request leaves behind for the next

`httpd_client_clean` and `httpd_client_start_request` reset every field of a request but two. The cache keys that a script
sets with `cache_key` stay, and are the keys of every later request of the connection that sets none. As long as no kept
connection finishes a request with a key, each request begins with the fields of a connection that has just been
accepted, so it does not tell whether it is the first.
-/

namespace Hin9
namespace Http

open Lib

namespace RequestFields

variable {http : RequestFields} {server : Server}

/-- **The fields are those of a connection that has just been accepted**, but for the bit of one that is closing. -/
def FreshOn (http : RequestFields) (server : Server) : Prop :=
  { http with state := http.state &&& ~~~HIN_REQ_STOPPING } = httpdClientAccept server

/-- The key of the local cache. -/
def key (http : RequestFields) : UInt64 × UInt64 := (http.cacheKey1, http.cacheKey2)

/-- The key a script leaves. -/
def Setting.keyAfter (key : UInt64 × UInt64) : Setting → UInt64 × UInt64
  | .cacheKey new => new.getD (0, 0)
  | _ => key

theorem httpdClientAccept_eq (server : Server) : httpdClientAccept server =
    { ({} : RequestFields) with
      state := HIN_REQ_HEADERS
      vhost := server.parent
      debug := (server.vhosts server.parent).debug
      disable := (server.vhosts server.parent).disable } := rfl

/-- **A reset leaves the bit of a closing connection and the cache keys.** -/
theorem reset_eq (http : RequestFields) (server : Server) : http.httpdClientClean.httpdClientStartRequest server =
    { httpdClientAccept server with
      state := HIN_REQ_HEADERS ||| (http.state &&& HIN_REQ_STOPPING)
      cacheKey1 := http.cacheKey1
      cacheKey2 := http.cacheKey2 } := rfl

theorem or_and (x y z : UInt32) : (x ||| y) &&& z = (x &&& z) ||| (y &&& z) :=
  UInt32.toBitVec_inj.mp BitVec.and_or_distrib_right

theorem started_state (state : UInt32) :
    (HIN_REQ_HEADERS ||| (state &&& HIN_REQ_STOPPING)) &&& ~~~HIN_REQ_STOPPING = HIN_REQ_HEADERS := by
  have hheaders : HIN_REQ_HEADERS &&& ~~~HIN_REQ_STOPPING = HIN_REQ_HEADERS := by decide
  have hstopping : HIN_REQ_STOPPING &&& ~~~HIN_REQ_STOPPING = 0 := by decide
  rw [or_and, UInt32.and_assoc, hheaders, hstopping, UInt32.and_zero, UInt32.or_zero]

/-- **A request begins with fresh fields exactly when the last one leaves no key.** -/
theorem reset_fresh_iff : (http.httpdClientClean.httpdClientStartRequest server).FreshOn server ↔ http.key = (0, 0) := by
  unfold FreshOn key
  rw [reset_eq, httpdClientAccept_eq, started_state]
  simp

theorem lHinSetOption_key (setting : Setting) : (http.lHinSetOption setting).key = setting.keyAfter http.key := by
  cases setting with
  | cacheKey new => cases new <;> rfl
  | _ => rfl

theorem settings_key (settings : List Setting) :
    (settings.foldl lHinSetOption http).key = settings.foldl Setting.keyAfter http.key := by
  induction settings generalizing http with
  | nil => rfl
  | cons setting settings ih =>
      rw [List.foldl_cons, List.foldl_cons, ih, lHinSetOption_key]

/-- A script does not close the connection. -/
theorem lHinSetOption_stopping (setting : Setting) :
    (http.lHinSetOption setting).state &&& HIN_REQ_STOPPING = http.state &&& HIN_REQ_STOPPING := by
  cases setting with
  | shutdown =>
      have hend : HIN_REQ_END &&& HIN_REQ_STOPPING = 0 := by decide
      unfold lHinSetOption
      rw [or_and, hend, UInt32.or_zero]
  | cacheKey new => cases new <;> rfl
  | _ => rfl

theorem settings_stopping (settings : List Setting) :
    (settings.foldl lHinSetOption http).state &&& HIN_REQ_STOPPING = http.state &&& HIN_REQ_STOPPING := by
  induction settings generalizing http with
  | nil => rfl
  | cons setting settings ih =>
      rw [List.foldl_cons, ih, lHinSetOption_stopping]

/-- **A request that is finished on a kept connection** makes room for one that begins as on a new connection, when the
    script leaves no key. -/
theorem finish_eq_accept (server : Server) (count : Option Int) {settings : List Setting} (hpost : hasFlag http.state HIN_REQ_POST = false)
    (hkeep : http.keep = true) (hkey : settings.foldl Setting.keyAfter http.key = (0, 0)) :
    http.httpdClientFinishRequest server count settings = httpdClientAccept server := by
  have hdone : ∀ bit, HIN_REQ_DATA &&& bit = 0 →
      (http.responseDone count).state &&& bit = http.state &&& bit := by
    intro bit hbit
    have hmask : ~~~HIN_REQ_DATA &&& bit = bit := by
      have hall : (HIN_REQ_DATA ||| ~~~HIN_REQ_DATA) &&& bit = bit := by
        rw [show HIN_REQ_DATA ||| ~~~HIN_REQ_DATA = (-1 : UInt32) by decide, UInt32.neg_one_and]
      rw [or_and, hbit, UInt32.zero_or] at hall
      exact hall
    show http.state &&& ~~~HIN_REQ_DATA &&& bit = http.state &&& bit
    rw [UInt32.and_assoc, hmask]
  have hpost' : hasFlag (http.responseDone count).state HIN_REQ_POST = false := by
    unfold hasFlag at hpost ⊢
    rw [hdone _ (by decide)]
    exact hpost
  have hstopping : http.state &&& HIN_REQ_STOPPING = 0 := by
    unfold keep hasFlag at hkeep
    simpa using (Bool.and_eq_true_iff.mp hkeep).2
  have hkeep' : (http.responseDone count).keep = true := by
    unfold keep hasFlag at hkeep ⊢
    rw [hdone _ (by decide)]
    exact hkeep
  have hstate : (settings.foldl lHinSetOption (http.responseDone count)).state &&& HIN_REQ_STOPPING = 0 := by
    rw [settings_stopping, hdone _ (by decide)]
    exact hstopping
  have hkeys : (settings.foldl lHinSetOption (http.responseDone count)).key = (0, 0) :=
    (settings_key settings).trans hkey
  unfold key at hkeys
  obtain ⟨hkey1, hkey2⟩ := Prod.mk.inj hkeys
  unfold httpdClientFinishRequest
  dsimp only
  rw [if_neg (by simp [hpost']), if_pos hkeep', reset_eq, hstate, hkey1, hkey2]
  rfl

end RequestFields

/-! ## Connections -/

section

variable {toTime : Bytes → Int}

/-- **A request begins with fresh fields**, and the fields now are what has happened since makes of them on a connection
    that has just been accepted. -/
structure Httpd.Independent (toTime : Bytes → Int) (s : Httpd) : Prop where
  fresh : s.began.FreshOn s.beganOn
  alone : Run (Httpd.step toTime) (Httpd.accept s.beganOn) s.since s

/-- No kept connection finishes a request with a cache key. -/
def KeyCleared (s : Httpd) : HttpdEvent → Prop
  | .finish _ settings => s.restarts = true → settings.foldl RequestFields.Setting.keyAfter s.http.key = (0, 0)
  | _ => True

theorem accept_independent (server : Server) : (Httpd.accept server).Independent toTime := by
  refine ⟨?_, .nil⟩
  unfold Httpd.accept RequestFields.FreshOn
  dsimp only
  rw [RequestFields.httpdClientAccept_eq, show HIN_REQ_HEADERS &&& ~~~HIN_REQ_STOPPING = HIN_REQ_HEADERS by decide]

/-- The step that a request makes, and the one that begins the next. -/
theorem httpd_step_cases {s s' : Httpd} {e : HttpdEvent} (hstep : s.step toTime e = some s') :
    (s'.began = s.began ∧ s'.beganOn = s.beganOn ∧ s'.since = s.since ++ [e]) ∨
    ∃ count settings, e = .finish count settings ∧ s.restarts = true ∧
      s' = ⟨s.http.httpdClientFinishRequest s.server count settings, s.server,
        s.http.httpdClientFinishRequest s.server count settings, s.server, []⟩ := by
  cases e with
  | requestLine method ver0 =>
      unfold Httpd.step at hstep
      dsimp only at hstep
      split at hstep
      · exact absurd hstep (by simp)
      · obtain rfl := Option.some.inj hstep
        exact .inl ⟨rfl, rfl, rfl⟩
  | headersLine line =>
      unfold Httpd.step at hstep
      dsimp only at hstep
      split at hstep
      · exact absurd hstep (by simp)
      · obtain ⟨http, -, rfl⟩ := Option.map_eq_some_iff.mp hstep
        exact .inl ⟨rfl, rfl, rfl⟩
  | finish count settings =>
      unfold Httpd.step at hstep
      dsimp only at hstep
      split at hstep
      · rename_i hrestarts
        obtain rfl := Option.some.inj hstep
        exact .inr ⟨count, settings, rfl, hrestarts, rfl⟩
      · obtain rfl := Option.some.inj hstep
        exact .inl ⟨rfl, rfl, rfl⟩
  | _ =>
      obtain rfl := Option.some.inj hstep
      exact .inl ⟨rfl, rfl, rfl⟩

/-- **One event keeps requests apart.** -/
theorem httpd_step_independent {s s' : Httpd} {e : HttpdEvent} (h : s.Independent toTime) (hguard : KeyCleared s e)
    (hstep : s.step toTime e = some s') : s'.Independent toTime := by
  rcases httpd_step_cases hstep with ⟨hbegan, hon, hsince⟩ | ⟨count, settings, rfl, hrestarts, rfl⟩
  · constructor
    · rw [hbegan, hon]
      exact h.fresh
    · rw [hon, hsince]
      exact .snoc h.alone trivial hstep
  · have hboth := Bool.and_eq_true_iff.mp hrestarts
    have hnew := RequestFields.finish_eq_accept s.server count (by simpa using hboth.1) hboth.2 (hguard hrestarts)
    rw [hnew]
    exact accept_independent s.server

/-- A request that is answered on a connection that is kept. -/
def answered (settings : List RequestFields.Setting) : List HttpdEvent :=
  [.requestLine HIN_METHOD_GET false, .headersLine (bytes "Host: a"), .headersLine (bytes "Range: bytes=2-3"),
    .request [71]] ++ settings.map .set ++
  [.respond { state := HIN_REQ_DATA, peerFlags := HIN_HTTP_KEEPALIVE, status := 206, pos := 2, count := 2 },
    .finish (some 2) []]

instance (s : Httpd) : (e : HttpdEvent) → Decidable (KeyCleared s e)
  | .finish _ settings =>
      inferInstanceAs (Decidable (s.restarts = true → settings.foldl RequestFields.Setting.keyAfter s.http.key = (0, 0)))
  | .requestLine .. => isTrue trivial
  | .headersLine _ => isTrue trivial
  | .request _ => isTrue trivial
  | .set _ => isTrue trivial
  | .startPost _ => isTrue trivial
  | .respond _ => isTrue trivial
  | .configure _ => isTrue trivial

end

end Http
end Hin9
