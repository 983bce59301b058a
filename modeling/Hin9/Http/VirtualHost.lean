import Hin9.Basic.PatternRef
import Hin9.Http.Names
import Hin9.Http.RequestHead

/-!
# `Http.VirtualHost` — the host a request is for (`httpd_head.c`, `vhost.c`, `httpd.c`)

A request starts with the host its server listens for. Its `Host` line is cut at the first byte that is no letter, no digit
and no dot, what is left is looked up by its hash pair, and the host found takes the place of the first one together with
what it disables. A name with a `-` is therefore looked up by the part in front of it: `host_found_iff` says which names find
the host that is registered under them.
-/

namespace Hin9
namespace Http

open Hashtable Pattern

/-! ## Names -/

def hostField : Bytes := bytes "Host"

/-- The bytes of a host name. -/
def hostByte (c : UInt8) : Bool := isalnum c || c == 46 || c == 45

/-- The bytes that `[%w.]` stands for. -/
def partByte (c : UInt8) : Bool := isalnum c || c == 46

/-- The part of a name that is looked up. -/
def hostPart (name : Bytes) : Bytes := name.takeWhile partByte

/-- The line is a `Host` with this name, and a port or none. -/
def NamesHost (line name : Bytes) : Prop :=
  ∃ v port, fieldValue hostField line = some v ∧ HasValue v (name ++ port) ∧ name ≠ [] ∧ (∀ c ∈ name, hostByte c = true) ∧
    (port = [] ∨ ∃ digits, port = 58 :: digits ∧ ∀ c ∈ digits, isdigit c = true)

/-- The host registered under a name, or the one the server listens for. -/
def registered (hosts : List (Bytes × Nat)) (parent : Nat) (name : Bytes) : Nat :=
  ((hosts.reverse.find? fun host => host.1 = name).map Prod.snd).getD parent

/-- The last host registered with the hash pair of the part of a name. -/
def hashed (hosts : List (Bytes × Nat)) (name : Bytes) : Option (Bytes × Nat) :=
  if hostPart name = [] then none
  else hosts.reverse.find? fun host => basicHtHash host.1 101 = basicHtHash (hostPart name) 101

/-- The lookup is not misled: the host it finds is registered under the name, or is the one that the name stands for; and
    where it finds none, the name stands for the one the server listens for. -/
def Unconfused (hosts : List (Bytes × Nat)) (parent : Nat) (name : Bytes) : Prop :=
  match hashed hosts name with
  | some host => host.1 = name ∨ registered hosts parent name = host.2
  | none => registered hosts parent name = parent

/-- A server with these hosts. -/
def Server.ofHosts (parent : Nat) (vhosts : Nat → Vhost) (hosts : List (Bytes × Nat)) : Server where
  parent := parent
  vhosts := vhosts
  vhostHt := httpdVhostGet (addHosts hosts)

/-! ## The line -/

/-- The set of the format takes a part as long as it goes. -/
theorem matchPattern_part (data : Bytes) : matchPattern data (bytes "%w.") ⟨true, false⟩ =
    if data.takeWhile partByte = [] then none else some (data.takeWhile partByte).length := by
  have hes : ∀ e ∈ ([.letter 119, .char 46] : List Elem), e.wellFormed = true := by decide
  refine matchPattern_set hes (by decide) (by decide) (fun c => ?_) data
  simp [Elem.takes, letterHas, capitalLetter, partByte]

/-- What follows a name ends its part: a port, a blank, or nothing. -/
theorem takeWhile_part {name port after : Bytes} (hport : port = [] ∨ ∃ digits, port = 58 :: digits)
    (hafter : ∀ c ∈ after, c = 32 ∨ c = 9) : (name ++ port ++ after).takeWhile partByte = hostPart name := by
  have hstop : (port ++ after).takeWhile partByte = [] := by
    rcases hport with rfl | ⟨digits, rfl⟩
    · cases after with
      | nil => rfl
      | cons c cs =>
          rcases hafter c List.mem_cons_self with rfl | rfl
          · exact List.takeWhile_cons_of_neg (by decide)
          · exact List.takeWhile_cons_of_neg (by decide)
    · exact List.takeWhile_cons_of_neg (by decide)
  rw [List.append_assoc, hostPart]
  by_cases hall : ∀ c ∈ name, partByte c = true
  · rw [List.takeWhile_append_of_pos hall, hstop, List.append_nil, List.takeWhile_eq_self_iff.mpr hall]
  · rw [List.takeWhile_append, if_neg]
    intro hlen
    have hself : name.takeWhile partByte = name :=
      (List.takeWhile_prefix _).eq_of_length hlen
    exact hall (List.takeWhile_eq_self_iff.mp hself)

theorem hostByte_facts {c : UInt8} (h : hostByte c = true) : isspace c = false := by
  have hall : ∀ c : UInt8, hostByte c = true → isspace c = false := forall_byte (by decide +kernel)
  exact hall c h

/-- **What is read of a `Host` line**: the part of the name, unless that is empty. -/
theorem NamesHost.read {line name : Bytes} (h : NamesHost line name) :
    ((matchiString line (bytes "Host:%s*([%w.]+)")).took.isSome = true ↔ hostPart name ≠ []) ∧
      (hostPart name ≠ [] → (matchiString line (bytes "Host:%s*([%w.]+)")).capture line 0 = hostPart name) := by
  obtain ⟨v, port, hv, ⟨blanks, after, rfl, hbefore, hafter⟩, hne, hname, hport⟩ := h
  have hpre : literalPrefix true (hostField ++ [58]) line = true ∧ line.drop 5 = blanks ++ (name ++ port) ++ after := by
    unfold fieldValue at hv
    split at hv
    · rename_i hpre
      exact ⟨hpre, Option.some.inj hv⟩
    · exact absurd hv (by simp)
  have hf : bytes "Host:%s*([%w.]+)" = (hostField ++ [58]) ++ (37 :: 115 :: 42 :: 40 :: 91 :: bytes "%w.]+)") := by decide
  have hs : takeSpecifier (42 :: 40 :: 91 :: bytes "%w.]+)") = (⟨true, true⟩, 40 :: 91 :: bytes "%w.]+)") := by decide
  have hset : scanSet 91 (bytes "%w.]+)") = some (bytes "%w.", [43, 41]) := by decide
  have hs' : takeSpecifier [43, 41] = (⟨true, false⟩, [41]) := by decide
  have hlen : (hostField ++ [58]).length = 5 := by decide
  have hrun : matchPattern (blanks ++ ((name ++ port) ++ after)) [37, 115] ⟨true, true⟩ = some blanks.length := by
    refine matchPattern_class (m := PATTERN_SPACE) (by decide) true blanks _ ?_ ?_ (by simp)
    · intro c hc
      rw [matchChar_space]
      rcases hbefore c hc with rfl | rfl
      · decide
      · decide
    · intro c hc
      obtain ⟨d, ds, rfl⟩ := List.exists_cons_of_ne_nil hne
      obtain rfl : d = c := by simpa using hc
      rw [matchChar_space]
      exact hostByte_facts (hname d List.mem_cons_self)
  have hpart : ((name ++ port) ++ after).takeWhile partByte = hostPart name := by
    refine takeWhile_part ?_ hafter
    rcases hport with rfl | ⟨digits, rfl, -⟩
    · exact .inl rfl
    · exact .inr ⟨digits, rfl⟩
  have hmatch : matchiString line (bytes "Host:%s*([%w.]+)") =
      if hostPart name = [] then ⟨none, []⟩
      else ⟨some (5 + blanks.length + (hostPart name).length), [(5 + blanks.length, (hostPart name).length)]⟩ := by
    unfold matchiString
    rw [hf, matchStringVirtual_literal true (by decide) (by decide), hpre.1, if_pos rfl, hlen, hpre.2, List.append_assoc]
    show formatLoop true 12 (37 :: 115 :: 42 :: 40 :: 91 :: bytes "%w.]+)") (blanks ++ ((name ++ port) ++ after)) 5 none [] = _
    rw [formatLoop_class, hs]
    simp only [hrun, List.drop_left]
    rw [formatLoop_open, formatLoop_set _ _ _ _ _ _ _ hset, hs']
    simp only [matchPattern_part, hpart]
    by_cases hnone : hostPart name = []
    · simp only [if_pos hnone]
    · simp only [if_neg hnone]
      rw [formatLoop_close, formatLoop_end, Nat.add_sub_cancel_left]
      rfl
  rw [hmatch]
  by_cases hnone : hostPart name = []
  · simp [hnone, Result.took]
  · have hpos : 0 < (hostPart name).length := List.length_pos_of_ne_nil hnone
    obtain ⟨k, hk⟩ : ∃ k, 5 + blanks.length + (hostPart name).length = k + 1 := ⟨4 + blanks.length + (hostPart name).length, by omega⟩
    rw [if_neg hnone]
    refine ⟨by simp [Result.took, hk, hnone], fun _ => ?_⟩
    have hdrop : line.drop (5 + blanks.length) = (name ++ port) ++ after := by
      rw [← List.drop_drop, hpre.2, List.append_assoc, List.drop_left]
    have hsplit : hostPart name <+: (name ++ port) ++ after := by
      rw [← hpart]
      exact List.takeWhile_prefix _
    show (line.drop (5 + blanks.length)).take (hostPart name).length = hostPart name
    rw [hdrop]
    exact (List.prefix_iff_eq_take.mp hsplit).symm

/-! ## The fields -/

section

variable {server : Server} {toTime : Bytes → Int} {http http' : RequestFields} {line : Bytes}

/-- The host of a request, and what comes with it. -/
def RequestFields.host (http : RequestFields) : Option Bytes × Nat × UInt32 := (http.hostname, http.vhost, http.disable)

/-- A line of another name leaves the host alone. -/
theorem LineStep.host_other (h : LineStep server toTime http line http')
    (hnone : (matchiString line (bytes "Host:%s*([%w.]+)")).took.isSome = false) : http'.host = http.host := by
  cases h with
  | host hhost => exact absurd (hhost.symm.trans hnone) (by simp)
  | etag | encoding | since | connection | range | length | boundary | chunked | identity | other => rfl

/-- A line that is read is looked up. -/
theorem LineStep.host_own (h : LineStep server toTime http line http')
    (hsome : (matchiString line (bytes "Host:%s*([%w.]+)")).took.isSome = true) :
    http'.host =
      (http.httpdVhostRequest server ((matchiString line (bytes "Host:%s*([%w.]+)")).capture line 0)).host := by
  obtain ⟨used, hused⟩ := Option.isSome_iff_exists.mp hsome
  have hother : ∀ i (hi : i < lineNames.length), i ≠ 1 → literalPrefix true lineNames[i] line = true → False := by
    intro i hi hne hpre
    have hnone := took_of_other (j := 1) hi (by decide) hne hpre (bytes "%s*([%w.]+)")
    rw [← hostFormat_eq, hused] at hnone
    exact absurd hnone (by simp)
  cases h with
  | host hhost => rfl
  | etag used' hetag =>
      exact (hother 3 (by decide) (by decide) (name_of_took (by decide) (etagFormat_eq ▸ hetag))).elim
  | encoding hname => exact (hother 0 (by decide) (by decide) hname).elim
  | since hname => exact (hother 2 (by decide) (by decide) hname).elim
  | connection hname => exact (hother 4 (by decide) (by decide) hname).elim
  | range hname => exact (hother 5 (by decide) (by decide) hname).elim
  | length hpost hlength =>
      obtain ⟨used', hused'⟩ := Option.isSome_iff_exists.mp hlength
      exact (hother 6 (by decide) (by decide) (name_of_took (by decide) (lengthFormat_eq ▸ hused'))).elim
  | boundary hname => exact (hother 7 (by decide) (by decide) hname).elim
  | chunked hpost used' hcoding =>
      exact (hother 8 (by decide) (by decide) (name_of_took (by decide) (codingFormat_eq ▸ hcoding))).elim
  | identity hpost used' hcoding =>
      exact (hother 8 (by decide) (by decide) (name_of_took (by decide) (codingFormat_eq ▸ hcoding))).elim
  | other hnone => exact absurd (hused.symm.trans hnone) (by simp)

/-- A request that has its host keeps it, whatever line comes. -/
theorem LineStep.host_taken (h : LineStep server toTime http line http') (htaken : http.hostname.isSome = true) :
    http'.host = http.host := by
  obtain ⟨taken, htaken⟩ := Option.isSome_iff_exists.mp htaken
  cases h with
  | host hhost =>
      unfold RequestFields.httpdVhostRequest
      rw [htaken]
  | etag | encoding | since | connection | range | length | boundary | chunked | identity | other => rfl

theorem took_of_not_named (h : named hostField line = false) :
    (matchiString line (bytes "Host:%s*([%w.]+)")).took.isSome = false := by
  rw [named_eq] at h
  rw [hostFormat_eq, show lineNames[1] = hostField ++ [58] by decide, matchiString_none (by decide) (by decide) h]
  rfl

/-- By induction on the lines. -/
theorem parseLines_host_other {lines : List Bytes} (hother : ∀ line ∈ lines, named hostField line = false)
    {http read : RequestFields} (h : http.parseLines server toTime lines = some read) : read.host = http.host := by
  induction lines generalizing http with
  | nil =>
      obtain rfl := Option.some.inj h
      rfl
  | cons line lines ih =>
      rw [parseLines_cons] at h
      obtain ⟨next, hnext, hrest⟩ := Option.bind_eq_some_iff.mp h
      have hsame := (headersLine_step hnext).host_other (took_of_not_named (hother line List.mem_cons_self))
      rw [ih (fun l hl => hother l (List.mem_cons_of_mem _ hl)) hrest, hsame]

theorem parseLines_host_taken {lines : List Bytes} {http read : RequestFields} (htaken : http.hostname.isSome = true)
    (h : http.parseLines server toTime lines = some read) : read.host = http.host := by
  induction lines generalizing http with
  | nil =>
      obtain rfl := Option.some.inj h
      rfl
  | cons line lines ih =>
      rw [parseLines_cons] at h
      obtain ⟨next, hnext, hrest⟩ := Option.bind_eq_some_iff.mp h
      have hsame := (headersLine_step hnext).host_taken htaken
      have htaken' : next.hostname.isSome = true := by
        rw [show next.hostname = http.hostname from congrArg Prod.fst hsame]
        exact htaken
      rw [ih htaken' hrest, hsame]

/-- **The host behind the lines** is the one that the part of the name finds, or the one of the server. -/
theorem parseLines_host {before after : List Bytes} {name : Bytes} (hline : NamesHost line name)
    (hbefore : ∀ l ∈ before, named hostField l = false)
    (hafter : hostPart name = [] → ∀ l ∈ after, named hostField l = false) {read : RequestFields}
    (hstart : http.host = (none, server.parent, (server.vhosts server.parent).disable))
    (h : http.parseLines server toTime (before ++ line :: after) = some read) :
    let found := if hostPart name = [] then none else server.vhostHt (hostPart name)
    read.vhost = found.getD server.parent ∧ read.disable = (server.vhosts read.vhost).disable := by
  rw [parseLines_append] at h
  obtain ⟨first, hfirst, h⟩ := Option.bind_eq_some_iff.mp h
  rw [parseLines_cons] at h
  obtain ⟨next, hnext, hrest⟩ := Option.bind_eq_some_iff.mp h
  have hfirst' : first.host = (none, server.parent, (server.vhosts server.parent).disable) :=
    (parseLines_host_other hbefore hfirst).trans hstart
  obtain ⟨htook, hcapture⟩ := hline.read
  obtain ⟨hname, hvhost, hdisable⟩ : first.hostname = none ∧ first.vhost = server.parent ∧
      first.disable = (server.vhosts server.parent).disable := by
    simpa [RequestFields.host] using hfirst'
  have hread : read.host = next.host → read.vhost = next.vhost ∧ read.disable = next.disable := by
    intro hlast
    simp only [RequestFields.host, Prod.mk.injEq] at hlast
    exact hlast.2
  intro found
  by_cases hpart : hostPart name = []
  · have hnone : (matchiString line (bytes "Host:%s*([%w.]+)")).took.isSome = false := by
      rw [← Bool.not_eq_true, htook]
      exact fun hne => hne hpart
    have hsame := (headersLine_step hnext).host_other hnone
    rw [hfirst'] at hsame
    obtain ⟨-, hv, hd⟩ : next.hostname = none ∧ next.vhost = server.parent ∧
        next.disable = (server.vhosts server.parent).disable := by
      simpa [RequestFields.host] using hsame
    have hfound : found = none := if_pos hpart
    obtain ⟨hrv, hrd⟩ := hread (parseLines_host_other (hafter hpart) hrest)
    rw [hfound, hrv, hrd, hv, hd]
    exact ⟨rfl, rfl⟩
  · have hown := (headersLine_step hnext).host_own (htook.mpr hpart)
    rw [hcapture hpart] at hown
    have hfound : found = server.vhostHt (hostPart name) := if_neg hpart
    rw [hfound]
    unfold RequestFields.httpdVhostRequest at hown
    rw [hname] at hown
    dsimp only at hown
    cases hget : server.vhostHt (hostPart name) with
    | none =>
        rw [hget] at hown
        simp only [RequestFields.host, Prod.mk.injEq] at hown
        obtain ⟨hrv, hrd⟩ := hread (parseLines_host_taken (by rw [hown.1]; rfl) hrest)
        rw [hrv, hrd, hown.2.1, hown.2.2, hvhost, hdisable]
        exact ⟨rfl, rfl⟩
    | some vhost =>
        rw [hget] at hown
        simp only [RequestFields.host, RequestFields.httpdVhostSwitch, Prod.mk.injEq] at hown
        obtain ⟨hrv, hrd⟩ := hread (parseLines_host_taken (by rw [hown.1]; rfl) hrest)
        rw [hrv, hrd, hown.2.1, hown.2.2]
        exact ⟨rfl, rfl⟩

end

/-! ## The host that is registered -/

theorem httpdVhostGet_hashed (hosts : List (Bytes × Nat)) (name : Bytes) :
    (if hostPart name = [] then none else httpdVhostGet (addHosts hosts) (hostPart name)) =
      (hashed hosts name).map Prod.snd := by
  unfold hashed
  by_cases hpart : hostPart name = []
  · rw [if_pos hpart, if_pos hpart]
    rfl
  · rw [if_neg hpart, if_neg hpart, httpdVhostGet_addHosts]

/-- The last host of a hash pair that has the name is the last one of the name. -/
theorem find_of_hash {hosts : List (Bytes × Nat)} {part name : Bytes} {host : Bytes × Nat}
    (h : hosts.find? (fun host => basicHtHash host.1 101 = basicHtHash part 101) = some host) (hname : host.1 = name) :
    hosts.find? (fun host => host.1 = name) = some host := by
  obtain ⟨hhash, before, after, rfl, hbefore⟩ := List.find?_eq_some_iff_append.mp h
  refine List.find?_eq_some_iff_append.mpr ⟨by simpa using hname, before, after, rfl, fun other hin => ?_⟩
  have hno := hbefore other hin
  simp only [decide_eq_true_eq, Bool.not_eq_true', decide_eq_false_iff_not] at hhash hno ⊢
  rintro hsame
  exact hno (by rw [hsame, ← hname, hhash])

theorem found_eq_iff (hosts : List (Bytes × Nat)) (parent : Nat) (name : Bytes) :
    ((hashed hosts name).map Prod.snd).getD parent = registered hosts parent name ↔ Unconfused hosts parent name := by
  unfold Unconfused
  cases hh : hashed hosts name with
  | none => exact eq_comm
  | some host =>
      have hown : host.1 = name → registered hosts parent name = host.2 := by
        intro hname
        unfold hashed at hh
        by_cases hpart : hostPart name = []
        · rw [if_pos hpart] at hh
          exact absurd hh (by simp)
        · rw [if_neg hpart] at hh
          rw [registered, find_of_hash hh hname]
          rfl
      show host.2 = registered hosts parent name ↔ _
      exact ⟨fun h => .inr h.symm, fun h => (h.elim hown id).symm⟩

/-- **The host of a request is the one registered under the name in its `Host` line,** or the one the server listens for,
    exactly if the lookup of the part of the name is not misled. What it disables is switched off when the handler runs.
    The first `Host` line decides, unless nothing of its name is read. -/
theorem host_found_iff {parent : Nat} {vhosts : Nat → Vhost} {hosts : List (Bytes × Nat)} {toTime : Bytes → Int}
    {behind : UInt8} {http http' : RequestFields} {data : Bytes} {used : Nat} (hclean : http.hostname = none)
    (h : httpdParseHeaders (.ofHosts parent vhosts hosts) toTime behind
      (http.httpdClientStartRequest (.ofHosts parent vhosts hosts)) data = .accepted http' used)
    {first line : Bytes} {before after : List Bytes} {rest : Source}
    (hlines : requestLines behind data = some (first :: (before ++ line :: after), rest)) {name : Bytes}
    (hline : NamesHost line name) (hbefore : ∀ l ∈ before, named hostField l = false)
    (hafter : hostPart name = [] → ∀ l ∈ after, named hostField l = false) (headers : Bytes) :
    ((http'.httpdParseReq headers).vhost = registered hosts parent name ∧
      (http'.httpdParseReq headers).disable = (vhosts (http'.httpdParseReq headers).vhost).disable) ↔
      Unconfused hosts parent name := by
  obtain ⟨line0, lines, rest', method, read, hacc⟩ := httpdParseHeaders_accepted h
  obtain ⟨heq, -⟩ := Prod.mk.inj (Option.some.inj (hacc.found.symm.trans hlines))
  obtain ⟨-, rfl⟩ := List.cons.inj heq
  obtain ⟨path, ver0, -, hread⟩ := hacc.request
  have hstart : ((http.httpdClientStartRequest (.ofHosts parent vhosts hosts)).httpdParseRequestLine method ver0).host =
      (none, parent, (vhosts parent).disable) := by
    simp only [RequestFields.host, RequestFields.httpdClientStartRequest, RequestFields.httpdParseRequestLine,
      RequestFields.httpdVhostSwitch, hclean]
    rfl
  obtain ⟨hvhost, hdisable⟩ := parseLines_host hline hbefore hafter hstart hread
  have hfound : (if hostPart name = [] then none else (Server.ofHosts parent vhosts hosts).vhostHt (hostPart name)) =
      (hashed hosts name).map Prod.snd := httpdVhostGet_hashed hosts name
  rw [hfound] at hvhost
  have hsame : (http'.httpdParseReq headers).vhost = read.vhost ∧ (http'.httpdParseReq headers).disable = read.disable := by
    rw [hacc.settled]
    exact ⟨rfl, rfl⟩
  rw [hsame.1, hsame.2, hvhost, ← found_eq_iff]
  exact and_iff_left (hvhost ▸ hdisable)

/-- The head of a `GET` for a host. -/
def hostGet (value : Bytes) : Bytes := bytes "GET / HTTP/1.1\r\nHost: " ++ value ++ bytes "\r\n\r\n"

/-- A server with two hosts, whose hosts disable their own number. -/
def twoHosts : Server := .ofHosts 1 (fun id => { disable := UInt32.ofNat id }) [(bytes "my", 3), (bytes "my-site.com", 2)]

theorem host_found_sample : ∃ http' used,
    httpdParseHeaders twoHosts (fun _ => 0) 0 (({} : RequestFields).httpdClientStartRequest twoHosts)
      (hostGet (bytes "my:80")) = .accepted http' used ∧
      (http'.httpdParseReq []).vhost = 3 ∧ (http'.httpdParseReq []).disable = 3 := by
  obtain ⟨http', used, h, -⟩ := @Parsed.accepted_of (
    httpdParseHeaders twoHosts (fun _ => 0) 0 (({} : RequestFields).httpdClientStartRequest twoHosts)
      (hostGet (bytes "my:80"))) (fun _ _ => true) (by decide +kernel)
  have hlines : requestLines 0 (hostGet (bytes "my:80")) = some (bytes "GET / HTTP/1.1" ::
      ([] ++ bytes "Host: my:80" :: []), { data := [] }) := by decide
  have hline : NamesHost (bytes "Host: my:80") (bytes "my") :=
    ⟨bytes " my:80", bytes ":80", by decide, ⟨[32], [], by decide, by simp, by simp⟩, by decide,
      by decide +kernel, .inr ⟨bytes "80", by decide, by decide +kernel⟩⟩
  have hfound : hashed [(bytes "my", 3), (bytes "my-site.com", 2)] (bytes "my") = some (bytes "my", 3) := by decide
  have hunconfused : Unconfused [(bytes "my", 3), (bytes "my-site.com", 2)] 1 (bytes "my") := by
    unfold Unconfused
    rw [hfound]
    exact .inl rfl
  have hreg : registered [(bytes "my", 3), (bytes "my-site.com", 2)] 1 (bytes "my") = 3 := by decide
  obtain ⟨hvhost, hdisable⟩ := (host_found_iff rfl h hlines hline (by simp) (fun _ => by simp) []).mpr hunconfused
  rw [hreg] at hvhost
  refine ⟨http', used, h, hvhost, ?_⟩
  rw [hdisable, hvhost]
  rfl

/-- **The statement fails** for a name with a `-`: the host that is registered under it is not found, and another one is. -/
theorem host_found_wrong : NamesHost (bytes "Host: my-site.com") (bytes "my-site.com") ∧
    registered [(bytes "my", 3), (bytes "my-site.com", 2)] 1 (bytes "my-site.com") = 2 ∧
    ∃ http' used, httpdParseHeaders twoHosts (fun _ => 0) 0 (({} : RequestFields).httpdClientStartRequest twoHosts)
      (hostGet (bytes "my-site.com")) = .accepted http' used ∧
      (http'.httpdParseReq []).vhost = 3 ∧ (http'.httpdParseReq []).disable = 3 := by
  obtain ⟨http', used, h, hsays⟩ := @Parsed.accepted_of (
    httpdParseHeaders twoHosts (fun _ => 0) 0 (({} : RequestFields).httpdClientStartRequest twoHosts)
      (hostGet (bytes "my-site.com"))) (fun http _ => http.vhost == 3 && http.disable == 3) (by decide +kernel)
  obtain ⟨hvhost, hdisable⟩ : http'.vhost = 3 ∧ http'.disable = 3 := by simpa using hsays
  refine ⟨⟨bytes " my-site.com", [], by decide, ⟨[32], [], by decide, by simp, by simp⟩, by decide,
    by decide +kernel, .inl rfl⟩, by decide, http', used, h, hvhost, hdisable⟩

end Http
end Hin9
