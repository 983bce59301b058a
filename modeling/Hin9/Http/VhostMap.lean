import Hin9.Fcgi.Write
import Hin9.Http.RequestHead
import Hin9.Http.UrlEncoding

/-!
# `Http.VhostMap` — callbacks by target (`lua_map.c`)

A script registers callbacks for patterns at a virtual host. When a request starts or finishes,
`httpd_vhost_map_callback` decodes its target and runs the callbacks whose pattern it matches, those of the host first
and then those of its parents, until one of them returns `true`.

The pattern is compared with the buffer the target was decoded into, and the end of the decoded target is taken to be
where the encoded one would end: a pattern without a `*` is found only in a target without escapes. What the decoder
leaves of its buffer as `malloc` gave it takes part in the comparison. `map_callbacks_iff` says for which targets and
patterns the right callbacks are run all the same; `MapFits.clean` is what it comes to for a target whose escapes are
all read as they are meant.
-/

namespace Hin9
namespace Http
namespace VhostMap

open Pattern UrlEncoding

/-! ## Registration -/

/-- `httpd_vhost_map_t`: the pattern, and the reference of the callback in the registry. -/
structure HttpdVhostMap where
  pattern : Bytes
  callback : Nat
deriving Repr, DecidableEq

/-- The lists and the parent of a `httpd_vhost_t`. -/
structure HttpdVhost where
  mapStart : List HttpdVhostMap := []
  mapFinish : List HttpdVhostMap := []
  parent : Option Nat := none
deriving Repr, DecidableEq

/-- The virtual hosts, and the next reference `luaL_ref` gives out. -/
structure Hosts where
  vhost : Nat → HttpdVhost := fun _ => {}
  refs : Nat := 0

/-- `httpd_vhost_map_add_to_end_list`. -/
def httpdVhostMapAddToEndList : List HttpdVhostMap → HttpdVhostMap → List HttpdVhostMap
  | [], new => [new]
  | last :: next, new => last :: httpdVhostMapAddToEndList next new

/-- A call of `l_hin_map` for a virtual host, with a callback. -/
structure Registration where
  vhost : Nat
  path : Bytes
  state : Int
deriving Repr, DecidableEq

/-- `l_hin_map`. With any other state the map is freed again and the reference is lost. -/
def lHinMap (s : Hosts) (r : Registration) : Hosts :=
  let callback := s.refs
  let map : HttpdVhostMap := { pattern := Fcgi.cstr r.path, callback := callback }
  let vhost := s.vhost r.vhost
  let vhost :=
    if r.state = 0 then { vhost with mapStart := httpdVhostMapAddToEndList vhost.mapStart map }
    else if r.state = 99 then { vhost with mapFinish := httpdVhostMapAddToEndList vhost.mapFinish map }
    else vhost
  { vhost := Function.update s.vhost r.vhost vhost, refs := callback + 1 }

/-- The hosts a script leaves that registers callbacks one after the other. -/
def registerAll (parent : Nat → Option Nat) (regs : List Registration) : Hosts :=
  regs.foldl lHinMap { vhost := fun v => { parent := parent v } }

/-! ## The callback -/

def HIN_VHOST_MAP_START : Nat := 1
def HIN_VHOST_MAP_FINISH : Nat := 2

/-- The list of a virtual host for a type of call. -/
def HttpdVhost.maps (vhost : HttpdVhost) (type : Nat) : List HttpdVhostMap :=
  if type = HIN_VHOST_MAP_START then vhost.mapStart
  else if type = HIN_VHOST_MAP_FINISH then vhost.mapFinish
  else []

/-- The loop over the bytes of a pattern: `ptr` is the offset in the buffer, `max` the length of the encoded path. -/
def mapMatches (new : Nat → UInt8) (max : Nat) : Nat → Bytes → Bool
  | ptr, [] => decide (max ≤ ptr)
  | ptr, c :: pattern =>
      if c = 42 then true          -- '*'
      else if max ≤ ptr then false
      else if new ptr ≠ c then false
      else mapMatches new max (ptr + 1) pattern

/-- What `lua_pcall` comes to: an error, or the value the callback returns. -/
inductive Answer where
  | error
  | returns (isTrue : Bool)
deriving Repr, DecidableEq

/-- The run goes on to the next map. -/
def Answer.goesOn (answer : Answer) : Bool := answer == .returns false

/-- The loop over the maps of a virtual host. `done` are the callbacks that have been run, `ret` what a callback comes to
    after them; the flag says that the run is over. -/
def mapLoop (hit : Bytes → Bool) (ret : List Nat → Nat → Answer) : List HttpdVhostMap → List Nat → List Nat × Bool
  | [], done => (done, false)
  | map :: next, done =>
      if hit map.pattern then
        if (ret done map.callback).goesOn then mapLoop hit ret next (done ++ [map.callback])
        else (done ++ [map.callback], true)
      else mapLoop hit ret next done

/-- The loop over a virtual host and its parents. -/
def vhostLoop (s : Hosts) (type : Nat) (hit : Bytes → Bool) (ret : List Nat → Nat → Answer) :
    List Nat → List Nat → List Nat
  | [], done => done
  | v :: chain, done =>
      let r := mapLoop hit ret ((s.vhost v).maps type) done
      if r.2 then r.1 else vhostLoop s type hit ret chain r.1

/-- What the decoder has put at a place of its buffer: the byte, the NUL behind the bytes, or nothing. -/
def cellAt (out : UrlEncoding.Output) (i : Nat) : Option UInt8 := ((out.cells ++ [some 0])[i]?).join

/-- The buffer after `hin_parse_url_encoding`; `fill` is what `malloc` gave. -/
def decodedBuffer (out : UrlEncoding.Output) (fill : Nat → UInt8) (i : Nat) : UInt8 := (cellAt out i).getD (fill i)

/-- The target of the request line `headers` begins with, and the memory behind it. -/
def requestTarget (headers memory : Bytes) : Option (Bytes × Bytes) :=
  (hinHttpParseHeaderLine headers).map fun line =>
    let start := ((matchString headers (bytes ("(%a+) (" ++ hinHttpPathAccept ++ ") HTTP/([%d.]+)"))).captures[1]?).getD (0, 0)
    (line.path, headers.drop (start.1 + start.2) ++ memory)

/-- `httpd_vhost_map_callback` for a virtual host with its parents: the callbacks that are run, in order, and what it
    returns. -/
def httpdVhostMapCallback (s : Hosts) (chain : List Nat) (type : Nat) (headers memory : Bytes) (fill : Nat → UInt8)
    (ret : List Nat → Nat → Answer) : List Nat × Int :=
  match requestTarget headers memory with
  | none => ([], 0)
  | some (path, behind) =>
      let new := decodedBuffer (hinParseUrlEncoding path behind) fill
      (vhostLoop s type (mapMatches new path.length 0) ret chain [], 1)

/-! ## The intended run -/

/-- The decoded target: an escape is the byte it stands for, everything else stands for itself. -/
def percentDecode : Bytes → Bytes
  | c :: hi :: lo :: e =>
      if c = 37 ∧ isxdigit hi = true ∧ isxdigit lo = true then UInt8.ofNat (hexVal hi * 16 + hexVal lo) :: percentDecode e
      else c :: percentDecode (hi :: lo :: e)
  | e => e

/-- The part of a pattern in front of its first `*`. -/
def patternHead (pattern : Bytes) : Bytes := pattern.takeWhile (· != 42)

/-- A target matches a pattern: it begins with the part in front of a `*`, or is the pattern. -/
def PatternMatches (pattern target : Bytes) : Prop :=
  if 42 ∈ pattern then patternHead pattern <+: target else pattern = target

instance (pattern target : Bytes) : Decidable (PatternMatches pattern target) :=
  inferInstanceAs (Decidable (if 42 ∈ pattern then patternHead pattern <+: target else pattern = target))

/-- A virtual host and its parents, the host first. -/
inductive Chain (s : Hosts) : Nat → List Nat → Prop where
  | last {v : Nat} : (s.vhost v).parent = none → Chain s v [v]
  | up {v p : Nat} {chain : List Nat} : (s.vhost v).parent = some p → Chain s p chain → Chain s v (v :: chain)

/-- The state a map is registered with for a type of call. -/
def typeState (type : Nat) : Option Int :=
  if type = HIN_VHOST_MAP_START then some 0
  else if type = HIN_VHOST_MAP_FINISH then some 99
  else none

/-- The maps of a virtual host in the order of registration. The reference of a callback is the number of its call. -/
def registeredMaps (regs : List Registration) (type v : Nat) : List HttpdVhostMap :=
  (regs.zipIdx.filter fun r => r.1.vhost == v && some r.1.state == typeState type).map fun r =>
    { pattern := Fcgi.cstr r.1.path, callback := r.2 }

/-- The callbacks up to the first one that does not let the run go on. -/
def runUntil (ret : List Nat → Nat → Answer) : List Nat → List Nat → List Nat
  | [], done => done
  | callback :: next, done =>
      if (ret done callback).goesOn then runUntil ret next (done ++ [callback]) else done ++ [callback]

/-- **The callbacks that are to be run**: those whose pattern the decoded target matches, from the virtual host to its
    parents and in the order of registration, up to the first one that returns `true` (or that ends with an error). -/
def intendedCalls (regs : List Registration) (chain : List Nat) (type : Nat) (target : Bytes)
    (ret : List Nat → Nat → Answer) : List Nat :=
  let maps := chain.flatMap (registeredMaps regs type)
  runUntil ret ((maps.filter fun m => decide (PatternMatches m.pattern target)).map HttpdVhostMap.callback) []

/-- The maps such a run comes to. -/
def reached (target : Bytes) (ret : List Nat → Nat → Answer) : List HttpdVhostMap → List Nat → List HttpdVhostMap
  | [], _ => []
  | m :: next, done =>
      m :: if PatternMatches m.pattern target then
        if (ret done m.callback).goesOn then reached target ret next (done ++ [m.callback]) else []
      else reached target ret next done

/-! ## The condition -/

/-- Every escape of a target is two digits with no digit behind them, and stands for a byte above `0x1F`. -/
def Clean (path behind : Bytes) : Prop :=
  Escapes (fun tail => ∃ hi lo rest, tail = hi :: lo :: rest ∧ isxdigit hi = true ∧ isxdigit lo = true ∧
    hexRun (rest ++ behind) = [] ∧ 0x1F < hexVal hi * 16 + hexVal lo) path

/-- The length a pattern has to have, for a buffer of the encoded length. -/
def SizeFits (pattern : Bytes) (max : Nat) : Prop :=
  if 42 ∈ pattern then (patternHead pattern).length ≤ max else pattern.length = max

/-- The pattern matches the buffer, whatever the bytes are that the decoder has not written. -/
def MustMatch (out : UrlEncoding.Output) (max : Nat) (pattern : Bytes) : Prop :=
  SizeFits pattern max ∧ ∀ i c, (patternHead pattern)[i]? = some c → cellAt out i = some c

/-- The pattern matches the buffer for some bytes the decoder has not written. -/
def MayMatch (out : UrlEncoding.Output) (max : Nat) (pattern : Bytes) : Prop :=
  SizeFits pattern max ∧ ∀ i c, (patternHead pattern)[i]? = some c → cellAt out i = none ∨ cellAt out i = some c

/-- **When a map is decided as intended.** Of a target whose escapes are read as they are meant: the pattern has a `*`, or
    is not the decoded target, or the target has no escape. Of any other target: the buffer matches for certain where the
    decoded target does, and for certain not where that does not. -/
structure MapFits (path behind pattern : Bytes) : Prop where
  clean : Clean path behind → 42 ∈ pattern ∨ pattern ≠ percentDecode path ∨ 37 ∉ path
  unclean : ¬ Clean path behind →
    if PatternMatches pattern (percentDecode path) then MustMatch (hinParseUrlEncoding path behind) path.length pattern
    else ¬ MayMatch (hinParseUrlEncoding path behind) path.length pattern

/-! ## Registered maps -/

theorem httpdVhostMapAddToEndList_eq (list : List HttpdVhostMap) (new : HttpdVhostMap) :
    httpdVhostMapAddToEndList list new = list ++ [new] := by
  induction list with
  | nil => rfl
  | cons last next ih => rw [httpdVhostMapAddToEndList, ih, List.cons_append]

/-- One more registration is one more map at the end of one list. -/
theorem registeredMaps_append (regs : List Registration) (r : Registration) (type v : Nat) :
    registeredMaps (regs ++ [r]) type v = registeredMaps regs type v ++
      (if r.vhost = v ∧ some r.state = typeState type then [⟨Fcgi.cstr r.path, regs.length⟩] else []) := by
  unfold registeredMaps
  rw [List.zipIdx_append, List.filter_append, List.map_append]
  congr 1
  by_cases hv : r.vhost = v <;> by_cases hs : some r.state = typeState type <;> simp [hv, hs]

/-- **The lists of a virtual host** are what was registered for it, in order. -/
theorem registerAll_maps (parent : Nat → Option Nat) (regs : List Registration) :
    (registerAll parent regs).refs = regs.length ∧
      ∀ v, ((registerAll parent regs).vhost v).mapStart = registeredMaps regs HIN_VHOST_MAP_START v ∧
        ((registerAll parent regs).vhost v).mapFinish = registeredMaps regs HIN_VHOST_MAP_FINISH v := by
  induction regs using List.reverseRecOn with
  | nil => exact ⟨rfl, fun v => ⟨rfl, rfl⟩⟩
  | append_singleton regs r ih =>
      obtain ⟨hrefs, hmaps⟩ := ih
      have hlast : registerAll parent (regs ++ [r]) = lHinMap (registerAll parent regs) r := by
        rw [registerAll, List.foldl_append]
        rfl
      rw [hlast]
      refine ⟨by simp [lHinMap, hrefs], fun v => ?_⟩
      obtain ⟨hstart, hfinish⟩ := hmaps v
      rw [registeredMaps_append, registeredMaps_append, ← hstart, ← hfinish]
      by_cases hv : r.vhost = v
      · subst hv
        simp only [lHinMap, Function.update_self, hrefs, httpdVhostMapAddToEndList_eq]
        by_cases h0 : r.state = 0
        · simp [h0, typeState, HIN_VHOST_MAP_START, HIN_VHOST_MAP_FINISH]
        · by_cases h99 : r.state = 99
          · simp [h99, typeState, HIN_VHOST_MAP_START, HIN_VHOST_MAP_FINISH]
          · simp [h0, h99, typeState, HIN_VHOST_MAP_START, HIN_VHOST_MAP_FINISH]
      · simp [lHinMap, Function.update_of_ne (Ne.symm hv), hv]

theorem registerAll_type (parent : Nat → Option Nat) (regs : List Registration) (type v : Nat) :
    ((registerAll parent regs).vhost v).maps type = registeredMaps regs type v := by
  obtain ⟨hstart, hfinish⟩ := (registerAll_maps parent regs).2 v
  unfold HttpdVhost.maps
  split
  · rename_i htype
    rw [hstart, htype]
  · rename_i hnot
    split
    · rename_i htype
      rw [hfinish, htype]
    · rename_i hneither
      simp [registeredMaps, typeState, hnot, hneither]

/-- Two walks from one host are the same. -/
theorem Chain.unique {s : Hosts} {v : Nat} {chain chain' : List Nat} (h : Chain s v chain) (h' : Chain s v chain') :
    chain = chain' := by
  induction h generalizing chain' with
  | last hnone =>
      cases h' with
      | last => rfl
      | up hsome => exact absurd (hnone.symm.trans hsome) (by simp)
  | up hsome h ih =>
      cases h' with
      | last hnone => exact absurd (hnone.symm.trans hsome) (by simp)
      | up hsome' h' =>
          obtain rfl := Option.some.inj (hsome.symm.trans hsome')
          rw [ih h']

/-- From every host of a walk the rest of it is a walk. -/
theorem Chain.rest {s : Hosts} {v w : Nat} {chain : List Nat} (h : Chain s v chain) (hw : w ∈ chain) :
    ∃ chain', Chain s w chain' ∧ chain'.length ≤ chain.length := by
  induction h with
  | last hnone =>
      obtain rfl := List.mem_singleton.mp hw
      exact ⟨_, .last hnone, le_rfl⟩
  | up hsome h ih =>
      rcases List.mem_cons.mp hw with rfl | hw
      · exact ⟨_, .up hsome h, le_rfl⟩
      · obtain ⟨chain', hchain, hlen⟩ := ih hw
        exact ⟨chain', hchain, Nat.le_succ_of_le hlen⟩

/-- A walk that ends passes no host twice. -/
theorem Chain.nodup {s : Hosts} {v : Nat} {chain : List Nat} (h : Chain s v chain) : chain.Nodup := by
  induction h with
  | last => exact List.nodup_singleton _
  | up hsome h ih =>
      refine List.nodup_cons.mpr ⟨fun hmem => ?_, ih⟩
      obtain ⟨chain', hchain, hlen⟩ := h.rest hmem
      have hsame := hchain.unique (.up hsome h)
      rw [hsame, List.length_cons] at hlen
      omega

/-- **No callback is in two maps.** -/
theorem callbacks_nodup {chain : List Nat} (hchain : chain.Nodup) (regs : List Registration) (type : Nat) :
    ((chain.flatMap (registeredMaps regs type)).map HttpdVhostMap.callback).Nodup := by
  rw [List.map_flatMap, List.nodup_flatMap]
  have hrefs : ∀ v, (registeredMaps regs type v).map HttpdVhostMap.callback =
      (regs.zipIdx.filter fun r => r.1.vhost == v && some r.1.state == typeState type).map Prod.snd := by
    intro v
    rw [registeredMaps, List.map_map]
    rfl
  refine ⟨fun v _ => ?_, hchain.imp fun {v w} hne => ?_⟩
  · rw [hrefs]
    refine List.Nodup.sublist (List.filter_sublist.map _) ?_
    rw [List.zipIdx_map_snd]
    exact List.nodup_range'
  · rw [Function.onFun, hrefs, hrefs]
    intro c hv hw
    obtain ⟨r, hr, rfl⟩ := List.mem_map.mp hv
    obtain ⟨r', hr', heq⟩ := List.mem_map.mp hw
    obtain ⟨hmem, hrv⟩ := List.mem_filter.mp hr
    obtain ⟨hmem', hrw⟩ := List.mem_filter.mp hr'
    -- one reference is one call, and a call is for one host
    have hsame : r.1 = r'.1 := by
      have h := List.mem_zipIdx' hmem
      have h' := List.mem_zipIdx' hmem'
      simp only [heq] at h'
      exact h.2.trans h'.2.symm
    simp only [Bool.and_eq_true, beq_iff_eq] at hrv hrw
    exact hne (by rw [← hrv.1, hsame, hrw.1])

/-! ## The run -/

section
variable (hit : Bytes → Bool) (ret : List Nat → Nat → Answer)

theorem mapLoop_append (maps maps' : List HttpdVhostMap) (done : List Nat) :
    mapLoop hit ret (maps ++ maps') done =
      if (mapLoop hit ret maps done).2 then mapLoop hit ret maps done
      else mapLoop hit ret maps' (mapLoop hit ret maps done).1 := by
  induction maps generalizing done with
  | nil => rfl
  | cons m next ih =>
      simp only [List.cons_append, mapLoop]
      split
      · split
        · exact ih _
        · rfl
      · exact ih done

/-- The two loops are one loop over the maps of all the hosts. -/
theorem vhostLoop_eq (s : Hosts) (type : Nat) (chain : List Nat) (done : List Nat) :
    vhostLoop s type hit ret chain done =
      (mapLoop hit ret (chain.flatMap fun v => (s.vhost v).maps type) done).1 := by
  induction chain generalizing done with
  | nil => rfl
  | cons v chain ih =>
      rw [List.flatMap_cons, mapLoop_append, vhostLoop]
      split
      · rfl
      · exact ih _

/-- The loop runs the callbacks of the maps that are hit. -/
theorem mapLoop_eq (maps : List HttpdVhostMap) (done : List Nat) :
    (mapLoop hit ret maps done).1 = runUntil ret ((maps.filter fun m => hit m.pattern).map HttpdVhostMap.callback) done := by
  induction maps generalizing done with
  | nil => rfl
  | cons m next ih =>
      by_cases hm : hit m.pattern = true
      · rw [List.filter_cons, if_pos hm, List.map_cons, mapLoop, if_pos hm, runUntil]
        split
        · exact ih _
        · rfl
      · rw [List.filter_cons, if_neg hm, mapLoop, if_neg hm]
        exact ih done

/-- Only callbacks of the maps are run. -/
theorem mapLoop_extends (maps : List HttpdVhostMap) (done : List Nat) :
    ∃ more, (mapLoop hit ret maps done).1 = done ++ more ∧ ∀ c ∈ more, c ∈ maps.map HttpdVhostMap.callback := by
  induction maps generalizing done with
  | nil => exact ⟨[], by simp [mapLoop], by simp⟩
  | cons m next ih =>
      rw [mapLoop]
      split
      · split
        · obtain ⟨more, hrun, hmore⟩ := ih (done ++ [m.callback])
          refine ⟨m.callback :: more, by rw [hrun]; simp, fun c hc => ?_⟩
          rcases List.mem_cons.mp hc with rfl | hc
          · exact List.mem_map.mpr ⟨m, List.mem_cons_self, rfl⟩
          · exact List.mem_cons_of_mem _ (hmore c hc)
        · exact ⟨[m.callback], rfl, by simp⟩
      · obtain ⟨more, hrun, hmore⟩ := ih done
        exact ⟨more, hrun, fun c hc => List.mem_cons_of_mem _ (hmore c hc)⟩

/-- A map that is hit begins what is run from it on with its callback. -/
theorem mapLoop_hit {m : HttpdVhostMap} (hm : hit m.pattern = true) (next : List HttpdVhostMap) (done : List Nat) :
    ∃ more, (mapLoop hit ret (m :: next) done).1 = done ++ m.callback :: more := by
  rw [mapLoop, if_pos hm]
  split
  · obtain ⟨more, hrun, -⟩ := mapLoop_extends hit ret next (done ++ [m.callback])
    exact ⟨more, by rw [hrun]; simp⟩
  · exact ⟨[], rfl⟩

/-- A map that is not hit leaves its callback out for good. -/
theorem mapLoop_miss {m : HttpdVhostMap} (hm : hit m.pattern ≠ true) {next : List HttpdVhostMap}
    (hfresh : m.callback ∉ next.map HttpdVhostMap.callback) (done more : List Nat) :
    (mapLoop hit ret (m :: next) done).1 ≠ done ++ m.callback :: more := by
  rw [mapLoop, if_neg hm]
  intro heq
  obtain ⟨more', hrun, hmore⟩ := mapLoop_extends hit ret next done
  have hsame := List.append_cancel_left (hrun.symm.trans heq)
  exact hfresh (hmore _ (by rw [hsame]; exact List.mem_cons_self))

end

/-- **Two ways to match run the same callbacks** exactly if they agree on every map the run comes to. -/
theorem mapLoop_same_iff (hit : Bytes → Bool) (ret : List Nat → Nat → Answer) (target : Bytes)
    {maps : List HttpdVhostMap} (hnd : (maps.map HttpdVhostMap.callback).Nodup) (done : List Nat) :
    (mapLoop hit ret maps done).1 = (mapLoop (fun p => decide (PatternMatches p target)) ret maps done).1 ↔
      ∀ m ∈ reached target ret maps done, (hit m.pattern = true ↔ PatternMatches m.pattern target) := by
  induction maps generalizing done with
  | nil => simp [mapLoop, reached]
  | cons m next ih =>
      obtain ⟨hfresh, hnd⟩ := List.nodup_cons.mp hnd
      rw [reached, List.forall_mem_cons]
      by_cases hspec : PatternMatches m.pattern target
      · by_cases hm : hit m.pattern = true
        · rw [mapLoop, mapLoop, if_pos hm, if_pos (decide_eq_true hspec), if_pos hspec]
          refine Iff.trans ?_ (and_iff_right (iff_of_true hm hspec)).symm
          by_cases hgoes : (ret done m.callback).goesOn = true
          · rw [if_pos hgoes, if_pos hgoes, if_pos hgoes]
            exact ih hnd _
          · rw [if_neg hgoes, if_neg hgoes, if_neg hgoes]
            simp
        · refine iff_of_false (fun heq => ?_) fun h => hm (h.1.mpr hspec)
          obtain ⟨more, hrun⟩ := mapLoop_hit (fun p => decide (PatternMatches p target)) ret (m := m)
            (decide_eq_true hspec) next done
          exact mapLoop_miss hit ret hm hfresh done more (heq.trans hrun)
      · have hnot : ¬ decide (PatternMatches m.pattern target) = true := by simpa using hspec
        by_cases hm : hit m.pattern = true
        · refine iff_of_false (fun heq => ?_) fun h => hspec (h.1.mp hm)
          obtain ⟨more, hrun⟩ := mapLoop_hit hit ret hm next done
          exact mapLoop_miss (fun p => decide (PatternMatches p target)) ret hnot hfresh done more (heq.symm.trans hrun)
        · rw [mapLoop, mapLoop, if_neg hm, if_neg hnot, if_neg hspec]
          exact (ih hnd done).trans (and_iff_right (iff_of_false hm hspec)).symm

/-! ## The comparison -/

theorem patternHead_eq {pattern : Bytes} (h : 42 ∉ pattern) : patternHead pattern = pattern := by
  unfold patternHead
  refine List.takeWhile_eq_self_iff.mpr fun c hc => ?_
  simp only [bne_iff_ne]
  rintro rfl
  exact h hc

/-- **What the loop compares**: the part in front of a `*` with the bytes from `ptr` on, or the whole pattern with all of
    them up to `max`. -/
theorem mapMatches_iff (new : Nat → UInt8) {max ptr : Nat} (hptr : ptr ≤ max) (pattern : Bytes) :
    mapMatches new max ptr pattern = true ↔
      SizeFits pattern (max - ptr) ∧ ∀ i c, (patternHead pattern)[i]? = some c → new (ptr + i) = c := by
  induction pattern generalizing ptr with
  | nil => simp [mapMatches, SizeFits, patternHead]; omega
  | cons x pattern ih =>
      rw [mapMatches]
      by_cases hstar : x = 42
      · subst hstar
        simp [SizeFits, patternHead]
      · have hhead : patternHead (x :: pattern) = x :: patternHead pattern :=
          List.takeWhile_cons_of_pos (by simpa using hstar)
        have hmem : 42 ∈ x :: pattern ↔ 42 ∈ pattern := by
          rw [List.mem_cons]
          exact or_iff_right (Ne.symm hstar)
        rw [if_neg hstar, hhead]
        by_cases hend : max ≤ ptr
        · rw [if_pos hend]
          refine iff_of_false (by simp) fun h => ?_
          have hsize := h.1
          unfold SizeFits at hsize
          rw [hhead] at hsize
          split at hsize <;> simp only [List.length_cons] at hsize <;> omega
        · have hsize : SizeFits (x :: pattern) (max - ptr) ↔ SizeFits pattern (max - (ptr + 1)) := by
            unfold SizeFits
            rw [hhead]
            simp only [hmem, List.length_cons]
            split <;> omega
          rw [if_neg hend, hsize]
          by_cases hx : new ptr ≠ x
          · rw [if_pos hx]
            refine iff_of_false (by simp) fun h => hx (h.2 0 x rfl)
          · rw [if_neg hx, ih (by omega)]
            refine and_congr Iff.rfl ⟨fun h i c hi => ?_, fun h i c hi => ?_⟩
            · cases i with
              | zero =>
                  obtain rfl := Option.some.inj hi
                  exact not_not.mp hx
              | succ i =>
                  have hnext := h i c (by simpa using hi)
                  rwa [show ptr + (i + 1) = ptr + 1 + i by omega]
            · have hnext := h (i + 1) c (by simpa using hi)
              rwa [show ptr + 1 + i = ptr + (i + 1) by omega]

/-- **The bytes that are not written** decide nothing exactly if the pattern matches for any of them, or for none. -/
theorem decided_iff (out : UrlEncoding.Output) (max : Nat) (pattern : Bytes) (P : Prop) [Decidable P] :
    (∀ fill, mapMatches (decodedBuffer out fill) max 0 pattern = true ↔ P) ↔
      if P then MustMatch out max pattern else ¬ MayMatch out max pattern := by
  have hmatches : ∀ fill, mapMatches (decodedBuffer out fill) max 0 pattern = true ↔
      SizeFits pattern max ∧ ∀ i c, (patternHead pattern)[i]? = some c → (cellAt out i).getD (fill i) = c := by
    intro fill
    rw [mapMatches_iff _ (Nat.zero_le max)]
    simp [decodedBuffer]
  simp only [hmatches]
  by_cases hP : P
  · simp only [hP, if_true, iff_true]
    constructor
    · intro h
      refine ⟨(h fun _ => 0).1, fun i c hi => ?_⟩
      cases hcell : cellAt out i with
      | none =>
          -- any other byte may stand there
          have hother := (h fun _ => c + 1).2 i c hi
          rw [hcell] at hother
          exact absurd hother (by simp)
      | some b =>
          have hbyte := (h fun _ => 0).2 i c hi
          rw [hcell] at hbyte
          exact congrArg some hbyte
    · rintro ⟨hsize, hcells⟩ fill
      refine ⟨hsize, fun i c hi => ?_⟩
      rw [hcells i c hi]
      rfl
  · simp only [hP, if_false, iff_false]
    constructor
    · rintro h ⟨hsize, hcells⟩
      refine h (fun i => ((patternHead pattern)[i]?).getD 0) ⟨hsize, fun i c hi => ?_⟩
      rcases hcells i c hi with hcell | hcell
      · rw [hcell, hi]
        rfl
      · rw [hcell]
        rfl
    · rintro h fill ⟨hsize, hbytes⟩
      refine h ⟨hsize, fun i c hi => ?_⟩
      have hbyte := hbytes i c hi
      cases hcell : cellAt out i with
      | none => exact .inl rfl
      | some b =>
          rw [hcell] at hbyte
          exact .inr (congrArg some hbyte)

/-! ## Clean targets -/

theorem percentDecode_literal {c : UInt8} (hc : c ≠ 37) (e : Bytes) : percentDecode (c :: e) = c :: percentDecode e := by
  match e with
  | [] => rfl
  | [_] => rfl
  | hi :: lo :: e => rw [percentDecode, if_neg fun h => hc h.1]

theorem percentDecode_escape {hi lo : UInt8} (hhi : isxdigit hi = true) (hlo : isxdigit lo = true) (e : Bytes) :
    percentDecode (37 :: hi :: lo :: e) = UInt8.ofNat (hexVal hi * 16 + hexVal lo) :: percentDecode e := by
  rw [percentDecode, if_pos ⟨rfl, hhi, hlo⟩]

/-- The byte of a clean escape is written. -/
theorem writtenByte_clean {hi lo : UInt8} (hhi : isxdigit hi = true) (hlo : isxdigit lo = true)
    (h : 0x1F < hexVal hi * 16 + hexVal lo) :
    writtenByte (hexNat 0 [hi, lo]) = some (UInt8.ofNat (hexVal hi * 16 + hexVal lo)) := by
  have hnum : hexNat 0 [hi, lo] = hexVal hi * 16 + hexVal lo := by simp [hexNat]
  have hhi := ((digitValue_spec hi).1 hhi).2
  have hlo := ((digitValue_spec lo).1 hlo).2
  rw [hnum]
  apply writtenByte_some
  rw [Int.bmod_eq_of_le (by omega) (by omega)]
  omega

/-- **A clean target is decoded as intended**, and each escape makes it two bytes shorter. -/
theorem Clean.decoded {path behind : Bytes} (h : Clean path behind) {fuel : Nat} (hfuel : path.length ≤ fuel) :
    (urlLoop behind fuel path).cells = (percentDecode path).map some ∧
      (percentDecode path).length + 2 * path.count 37 = path.length := by
  unfold Clean at h
  induction fuel generalizing path with
  | zero =>
      obtain rfl := List.length_eq_zero_iff.1 (Nat.le_zero.1 hfuel)
      exact ⟨rfl, rfl⟩
  | succ fuel ih =>
      cases path with
      | nil => exact ⟨rfl, rfl⟩
      | cons c view =>
          have hfuel : view.length ≤ fuel := Nat.le_of_succ_le_succ hfuel
          by_cases hc : c = 37
          · subst hc
            obtain ⟨⟨hi, lo, rest, rfl, hhi, hlo, hdigits, hbyte⟩, hview⟩ := (escapes_escape _ view).mp h
            rw [escapes_literal _ (ne_percent hhi), escapes_literal _ (ne_percent hlo)] at hview
            obtain ⟨hcells, hlen⟩ := ih hview (by simp only [List.length_cons] at hfuel; omega)
            have hrun : hexRun (hi :: lo :: rest ++ behind) = [hi, lo] := by
              rw [show hi :: lo :: rest ++ behind = hi :: lo :: (rest ++ behind) from rfl, hexRun_pair hhi hlo, hdigits]
            rw [urlLoop_escape, hrun, percentDecode_escape hhi hlo, writtenByte_clean hhi hlo hbyte]
            refine ⟨by simp [hcells], ?_⟩
            rw [List.count_cons_self, List.count_cons_of_ne (ne_percent hhi), List.count_cons_of_ne (ne_percent hlo)]
            simp only [List.length_cons]
            omega
          · rw [escapes_literal _ hc] at h
            obtain ⟨hcells, hlen⟩ := ih h hfuel
            rw [urlLoop_literal behind fuel hc, percentDecode_literal hc, List.count_cons_of_ne hc]
            refine ⟨by simp [hcells], ?_⟩
            simp only [List.length_cons]
            omega

/-- A text without NUL stands at the front of the buffer exactly if the decoded target begins with it. -/
theorem buffer_begins_iff {out : UrlEncoding.Output} {target : Bytes} (hout : out.cells = target.map some) (fill : Nat → UInt8)
    {text : Bytes} (hnul : 0 ∉ text) :
    (∀ i c, text[i]? = some c → decodedBuffer out fill i = c) ↔ text <+: target := by
  have hwritten : ∀ i, i < target.length → decodedBuffer out fill i = target.getD i 0 := by
    intro i hi
    simp [decodedBuffer, cellAt, hout, List.getElem?_append_left, hi]
  rw [List.prefix_iff_getElem?]
  constructor
  · intro h i hi
    have hlong : i < target.length := by
      -- behind the target stands the NUL
      by_contra hend
      have hshort : target.length < text.length := by omega
      have hbyte := h target.length _ (List.getElem?_eq_getElem hshort)
      have hzero : decodedBuffer out fill target.length = 0 := by simp [decodedBuffer, cellAt, hout]
      exact hnul (by rw [← hzero, hbyte]; exact List.getElem_mem hshort)
    have hbyte := h i _ (List.getElem?_eq_getElem hi)
    rw [hwritten i hlong] at hbyte
    rw [← hbyte, List.getD_eq_getElem _ _ hlong]
    exact List.getElem?_eq_getElem hlong
  · intro h i c hi
    obtain ⟨hlt, rfl⟩ := List.getElem?_eq_some_iff.mp hi
    have hsame := h i hlt
    obtain ⟨hlong, heq⟩ := List.getElem?_eq_some_iff.mp hsame
    rw [hwritten i hlong, List.getD_eq_getElem _ _ hlong, heq]

/-- **What is matched of a clean target**: a pattern with a `*` as intended, any other only if there is no escape. -/
theorem Clean.matches_iff {path behind : Bytes} (h : Clean path behind) (fill : Nat → UInt8) {pattern : Bytes}
    (hnul : 0 ∉ pattern) :
    mapMatches (decodedBuffer (hinParseUrlEncoding path behind) fill) path.length 0 pattern = true ↔
      PatternMatches pattern (percentDecode path) ∧ (42 ∈ pattern ∨ 37 ∉ path) := by
  obtain ⟨hcells, hlen⟩ := h.decoded (le_refl path.length)
  have hnulHead : 0 ∉ patternHead pattern := fun hmem => hnul ((List.takeWhile_sublist _).mem hmem)
  have hbegins := @buffer_begins_iff (hinParseUrlEncoding path behind) _ hcells fill _ hnulHead
  rw [mapMatches_iff _ (Nat.zero_le _)]
  simp only [Nat.zero_add, Nat.sub_zero]
  rw [hbegins]
  unfold SizeFits PatternMatches
  by_cases hstar : 42 ∈ pattern
  · simp only [hstar, if_true, true_or, and_true]
    refine and_iff_right_of_imp fun hprefix => ?_
    have hle := hprefix.length_le
    omega
  · have hescapes : 37 ∉ path ↔ path.count 37 = 0 := List.count_eq_zero.symm
    rw [patternHead_eq hstar]
    simp only [hstar, if_false, false_or, hescapes]
    constructor
    · rintro ⟨hsize, hprefix⟩
      have hle := hprefix.length_le
      exact ⟨List.IsPrefix.eq_of_length hprefix (by omega), by omega⟩
    · rintro ⟨rfl, hnone⟩
      exact ⟨by omega, List.prefix_refl _⟩

/-- **A map is decided as intended**, whatever stands in the unwritten bytes, exactly if it fits. -/
theorem mapFits_iff (path behind : Bytes) {pattern : Bytes} (hnul : 0 ∉ pattern) :
    (∀ fill, mapMatches (decodedBuffer (hinParseUrlEncoding path behind) fill) path.length 0 pattern = true ↔
      PatternMatches pattern (percentDecode path)) ↔ MapFits path behind pattern := by
  by_cases hclean : Clean path behind
  · have hfits : MapFits path behind pattern ↔ (42 ∈ pattern ∨ pattern ≠ percentDecode path ∨ 37 ∉ path) :=
      ⟨fun h => h.clean hclean, fun h => ⟨fun _ => h, fun hnot => absurd hclean hnot⟩⟩
    simp only [hfits, hclean.matches_iff _ hnul]
    constructor
    · intro h
      by_cases hspec : PatternMatches pattern (percentDecode path)
      · rcases ((h fun _ => 0).mpr hspec).2 with hstar | hnone
        · exact .inl hstar
        · exact .inr (.inr hnone)
      · by_cases hstar : 42 ∈ pattern
        · exact .inl hstar
        · unfold PatternMatches at hspec
          rw [if_neg hstar] at hspec
          exact .inr (.inl hspec)
    · intro h fill
      refine and_iff_left_of_imp fun hspec => ?_
      by_cases hstar : 42 ∈ pattern
      · exact .inl hstar
      · unfold PatternMatches at hspec
        rw [if_neg hstar] at hspec
        exact .inr ((h.resolve_left hstar).resolve_left (not_not.mpr hspec))
  · have hfits : MapFits path behind pattern ↔
        if PatternMatches pattern (percentDecode path) then MustMatch (hinParseUrlEncoding path behind) path.length pattern
        else ¬ MayMatch (hinParseUrlEncoding path behind) path.length pattern :=
      ⟨fun h => h.unclean hclean, fun h => ⟨fun hyes => absurd hyes hclean, fun _ => h⟩⟩
    rw [hfits]
    exact decided_iff _ _ _ _

/-! ## The function -/

theorem reached_subset (target : Bytes) (ret : List Nat → Nat → Answer) (maps : List HttpdVhostMap) (done : List Nat) :
    ∀ m ∈ reached target ret maps done, m ∈ maps := by
  induction maps generalizing done with
  | nil => exact fun m hm => hm
  | cons m next ih =>
      intro m' hm'
      rw [reached] at hm'
      rcases List.mem_cons.mp hm' with rfl | hm'
      · exact List.mem_cons_self
      · apply List.mem_cons_of_mem
        split at hm'
        · split at hm'
          · exact ih _ m' hm'
          · exact absurd hm' List.not_mem_nil
        · exact ih done m' hm'

/-- The pattern of a map is a C string. -/
theorem registeredMaps_nul {regs : List Registration} {type v : Nat} {m : HttpdVhostMap}
    (hm : m ∈ registeredMaps regs type v) : 0 ∉ m.pattern := by
  obtain ⟨r, -, rfl⟩ := List.mem_map.mp hm
  intro hzero
  have hne := List.mem_takeWhile_imp hzero
  exact absurd hne (by decide)

/-- **The callbacks of a request.** For every sequence of registrations, every virtual host with its parents and every
    request with a target, the callbacks whose pattern the decoded target matches are run in order up to the first that
    returns `true`, whatever stands in the bytes the decoder leaves alone, exactly if every map the run comes to fits. -/
theorem map_callbacks_iff {parent : Nat → Option Nat} {regs : List Registration} {v : Nat} {chain : List Nat}
    (hchain : Chain (registerAll parent regs) v chain) (type : Nat) {headers memory path behind : Bytes}
    (htarget : requestTarget headers memory = some (path, behind)) (ret : List Nat → Nat → Answer) :
    (∀ fill, (httpdVhostMapCallback (registerAll parent regs) chain type headers memory fill ret).1 =
      intendedCalls regs chain type (percentDecode path) ret) ↔
    ∀ m ∈ reached (percentDecode path) ret (chain.flatMap (registeredMaps regs type)) [], MapFits path behind m.pattern := by
  have hmaps : (chain.flatMap fun w => ((registerAll parent regs).vhost w).maps type) =
      chain.flatMap (registeredMaps regs type) := by
    simp only [registerAll_type]
  have hnd := callbacks_nodup hchain.nodup regs type
  have hrun : ∀ fill, (httpdVhostMapCallback (registerAll parent regs) chain type headers memory fill ret).1 =
      (mapLoop (mapMatches (decodedBuffer (hinParseUrlEncoding path behind) fill) path.length 0) ret
        (chain.flatMap (registeredMaps regs type)) []).1 := by
    intro fill
    rw [httpdVhostMapCallback, htarget]
    dsimp only
    rw [vhostLoop_eq, hmaps]
  have hintended : intendedCalls regs chain type (percentDecode path) ret =
      (mapLoop (fun p => decide (PatternMatches p (percentDecode path))) ret
        (chain.flatMap (registeredMaps regs type)) []).1 := by
    rw [mapLoop_eq]
    rfl
  simp only [hrun, hintended, mapLoop_same_iff _ ret (percentDecode path) hnd []]
  have hnul : ∀ m ∈ reached (percentDecode path) ret (chain.flatMap (registeredMaps regs type)) [], 0 ∉ m.pattern := by
    intro m hm
    obtain ⟨w, -, hw⟩ := List.mem_flatMap.mp (reached_subset _ _ _ _ m hm)
    exact registeredMaps_nul hw
  constructor
  · intro h m hm
    exact (mapFits_iff path behind (hnul m hm)).mp fun fill => h fill m hm
  · intro h fill m hm
    exact (mapFits_iff path behind (hnul m hm)).mpr (h m hm) fill

/-- Two maps of one host, one of them for a target with a blank. -/
def twoMaps : List Registration := [⟨0, bytes "/a *", 0⟩, ⟨0, bytes "/a z", 0⟩]

/-- A request for that target. -/
def blankRequest : Bytes := bytes "GET /a%20z HTTP/1.1\r\n\r\n"

theorem blankRequest_target : requestTarget blankRequest [] = some (bytes "/a%20z", bytes " HTTP/1.1\r\n\r\n") := by
  decide

theorem map_callbacks_sample :
    intendedCalls twoMaps [0] HIN_VHOST_MAP_START (bytes "/a z") (fun _ _ => .returns true) = [0] ∧
      ∀ fill, (httpdVhostMapCallback (registerAll (fun _ => none) twoMaps) [0] HIN_VHOST_MAP_START blankRequest [] fill
        fun _ _ => .returns true).1 = [0] := by
  have hclean : Clean (bytes "/a%20z") (bytes " HTTP/1.1\r\n\r\n") := by
    show Escapes _ [47, 97, 37, 50, 48, 122]
    rw [escapes_literal _ (by decide), escapes_literal _ (by decide), escapes_escape, escapes_literal _ (by decide),
      escapes_literal _ (by decide), escapes_literal _ (by decide)]
    exact ⟨⟨50, 48, [122], rfl, by decide, by decide, by decide, by decide⟩, escapes_nil _⟩
  have hreached : reached (percentDecode (bytes "/a%20z")) (fun _ _ => .returns true)
      ([0].flatMap (registeredMaps twoMaps HIN_VHOST_MAP_START)) [] = [⟨bytes "/a *", 0⟩] := by decide
  have hintended : intendedCalls twoMaps [0] HIN_VHOST_MAP_START (bytes "/a z") (fun _ _ => .returns true) = [0] := by
    decide
  have hchain : Chain (registerAll (fun _ => none) twoMaps) 0 [0] := .last (by decide)
  have hcalls := (map_callbacks_iff hchain HIN_VHOST_MAP_START blankRequest_target fun _ _ => .returns true).mpr (by
    rw [hreached]
    intro m hm
    obtain rfl := List.mem_singleton.mp hm
    exact ⟨fun _ => .inl (by decide), fun hnot => absurd hclean hnot⟩)
  have hdecoded : percentDecode (bytes "/a%20z") = bytes "/a z" := by decide
  rw [hdecoded, hintended] at hcalls
  exact ⟨hintended, hcalls⟩

/-- **A target with an escape** is not found under its own pattern: the callback for it is not run. -/
theorem map_callbacks_wrong :
    requestTarget blankRequest [] = some (bytes "/a%20z", bytes " HTTP/1.1\r\n\r\n") ∧
      percentDecode (bytes "/a%20z") = bytes "/a z" ∧
      intendedCalls [⟨0, bytes "/a z", 0⟩] [0] HIN_VHOST_MAP_START (bytes "/a z") (fun _ _ => .returns true) = [0] ∧
      (httpdVhostMapCallback (registerAll (fun _ => none) [⟨0, bytes "/a z", 0⟩]) [0] HIN_VHOST_MAP_START blankRequest []
        (fun _ => 0) fun _ _ => .returns true).1 = [] := by
  refine ⟨blankRequest_target, ?_, ?_, ?_⟩ <;> decide

end VhostMap
end Http
end Hin9
