import Hin9.Http.CgiEnv

/-!
# `Lua.RequestHeaders` — the head of a request as a table (`lua_req.c`)

`parse_headers` hands a script the lines of a head in a table: the value of a header under its name, or a list of values when the
name came more than once, and every line that is no header under the next number.

`parse_headers_table` — a script finds under each name exactly the values of that name, in their order, and under the numbers the
other lines, in theirs. Names that differ in case only are kept apart.
-/

namespace Hin9
namespace Lua
namespace RequestHeaders

open Pattern
open Http.CgiEnv

/-! ## The table -/

inductive Key where
  | num (n : Nat)
  | str (s : Bytes)
deriving Repr, DecidableEq

inductive Value where
  | str (s : Bytes)
  | list (ss : List Bytes)
deriving Repr, DecidableEq

abbrev Table := Key → Option Value

/-- One round of `l_hin_parse_headers`; the second part is the number of the next line that is no header. -/
def parseLine (s : Table × Nat) (line : Bytes) : Table × Nat :=
  let m := matchString line (bytes "([%w%-_]+):%s*")
  match m.took with
  | none => (Function.update s.1 (.num s.2) (some (.str line)), s.2 + 1)
  | some used =>
      let name := m.capture line 0
      let value := line.drop used
      match s.1 (.str name) with
      | none => (Function.update s.1 (.str name) (some (.str value)), s.2)
      | some (.str first) => (Function.update s.1 (.str name) (some (.list [first, value])), s.2)
      | some (.list values) => (Function.update s.1 (.str name) (some (.list (values ++ [value]))), s.2)

/-- `l_hin_parse_headers`, of the lines behind the first; an empty line ends the head. -/
def lHinParseHeaders (lines : List Bytes) : Table :=
  ((lines.takeWhile (· ≠ [])).foldl parseLine (fun _ => none, 1)).1

/-! ## What is in it -/

/-- What is kept of the values of a name. -/
def entry : List Bytes → Option Value
  | [] => none
  | [value] => some (.str value)
  | values => some (.list values)

/-- The values of a name. -/
def values (lines : List Bytes) (name : Bytes) : List Bytes :=
  ((lines.filterMap headerField).filter fun f => f.1 == name).map (·.2)

/-- The lines that are no headers. -/
def others (lines : List Bytes) : List Bytes := lines.filter fun line => (headerField line).isNone

theorem entry_snoc (vs : List Bytes) (v : Bytes) : entry (vs ++ [v]) =
    match entry vs with
    | none => some (.str v)
    | some (.str first) => some (.list [first, v])
    | some (.list vs) => some (.list (vs ++ [v])) := by
  match vs with
  | [] => rfl
  | [_] => rfl
  | _ :: _ :: _ => rfl

theorem matchString_luaField (line : Bytes) : matchString line (bytes "([%w%-_]+):%s*") = fieldResult line := by
  have hf : bytes "([%w%-_]+):%s*" = 40 :: 91 :: bytes "%w%-_]+):%s*" := by decide
  have hset : ∀ data : Bytes, matchPattern data (bytes "%w%-_") ⟨true, false⟩ =
      if data.takeWhile nameByte = [] then none else some (data.takeWhile nameByte).length := by
    have hes : ∀ e ∈ ([.letter 119, .letter 45, .char 95] : List Elem), e.wellFormed = true := by decide
    refine matchPattern_set hes (by decide) (by decide) fun c => ?_
    simp only [Elem.takes, letterHas, capitalLetter, nameByte, List.any_cons, List.any_nil]
    simp [Bool.or_assoc, Bool.or_comm (c == 45) (c == 95)]
  cases line with
  | nil => rfl
  | cons b bs =>
      rw [matchString, matchStringVirtual, if_neg (by simp), hf]
      exact formatLoop_field hset (by decide) b bs

/-- What the table holds after some lines. -/
structure Holds (s : Table × Nat) (lines : List Bytes) : Prop where
  next : s.2 = (others lines).length + 1
  named : ∀ name, s.1 (.str name) = entry (values lines name)
  numbered : ∀ n, s.1 (.num n) = if n = 0 then none else ((others lines)[n - 1]?).map .str

theorem holds_new : Holds (fun _ => none, 1) [] := by
  refine ⟨rfl, fun _ => rfl, fun n => ?_⟩
  show none = if n = 0 then none else _
  split
  · rfl
  · rfl

theorem Holds.line {s : Table × Nat} {lines : List Bytes} (h : Holds s lines) (line : Bytes) :
    Holds (parseLine s line) (lines ++ [line]) := by
  cases hfield : headerField line with
  | none =>
      have hstep : parseLine s line = (Function.update s.1 (.num s.2) (some (.str line)), s.2 + 1) := by
        unfold parseLine
        simp only [matchString_luaField, field_left hfield]
      have hvalues : ∀ name, values (lines ++ [line]) name = values lines name := by
        intro name
        unfold values
        rw [List.filterMap_append, List.filterMap_cons_none hfield, List.filterMap_nil, List.append_nil]
      have hothers : others (lines ++ [line]) = others lines ++ [line] := by
        unfold others
        rw [List.filter_append, List.filter_cons_of_pos (by rw [hfield]; rfl), List.filter_nil]
      rw [hstep]
      refine ⟨?_, fun name => ?_, fun n => ?_⟩
      · rw [hothers, List.length_append, h.next]
        rfl
      · have hne : Key.str name ≠ Key.num s.2 := by simp
        rw [hvalues, ← h.named]
        show Function.update s.1 (.num s.2) (some (.str line)) (.str name) = _
        rw [Function.update_of_ne hne]
      · show Function.update s.1 (.num s.2) (some (.str line)) (.num n) = _
        rw [hothers]
        by_cases heq : n = s.2
        · rw [heq, Function.update_self, h.next, if_neg (Nat.succ_ne_zero _), Nat.add_sub_cancel, List.getElem?_append_right le_rfl,
            Nat.sub_self]
          rfl
        · rw [Function.update_of_ne fun hk => heq (Key.num.inj hk), h.numbered]
          by_cases hzero : n = 0
          · rw [if_pos hzero, if_pos hzero]
          · rw [if_neg hzero, if_neg hzero]
            congr 1
            rcases Nat.lt_or_ge (n - 1) (others lines).length with hlt | hge
            · rw [List.getElem?_append_left hlt]
            · rw [List.getElem?_eq_none hge, List.getElem?_eq_none]
              rw [List.length_append, List.length_singleton]
              have := h.next
              omega
  | some f =>
      obtain ⟨used, htook, hcapture, hdrop⟩ := field_took hfield
      have hstep : parseLine s line = (Function.update s.1 (.str f.1) (entry (values lines f.1 ++ [f.2])), s.2) := by
        unfold parseLine
        simp only [matchString_luaField, htook, hcapture, hdrop]
        rw [entry_snoc, ← h.named]
        cases s.1 (.str f.1) with
        | none => rfl
        | some v =>
            cases v with
            | str first => rfl
            | list vs => rfl
      have hvalues : ∀ name, values (lines ++ [line]) name = values lines name ++ if f.1 = name then [f.2] else [] := by
        intro name
        unfold values
        rw [List.filterMap_append, List.filterMap_cons_some hfield, List.filterMap_nil, List.filter_append, List.map_append]
        congr 1
        by_cases heq : f.1 = name
        · rw [if_pos heq, List.filter_cons_of_pos (by simpa using heq)]
          rfl
        · rw [if_neg heq, List.filter_cons_of_neg (by simpa using heq)]
          rfl
      have hothers : others (lines ++ [line]) = others lines := by
        unfold others
        rw [List.filter_append, List.filter_cons_of_neg (by rw [hfield]; simp), List.filter_nil, List.append_nil]
      rw [hstep]
      refine ⟨hothers ▸ h.next, fun name => ?_, fun n => ?_⟩
      · rw [hvalues]
        show Function.update s.1 (.str f.1) (entry (values lines f.1 ++ [f.2])) (.str name) = _
        by_cases heq : f.1 = name
        · rw [if_pos heq, ← heq, Function.update_self]
        · rw [if_neg heq, List.append_nil, Function.update_of_ne fun hk => heq (Key.str.inj hk).symm]
          exact h.named name
      · have hne : Key.num n ≠ Key.str f.1 := by simp
        rw [hothers, ← h.numbered]
        show Function.update s.1 (.str f.1) (entry (values lines f.1 ++ [f.2])) (.num n) = _
        rw [Function.update_of_ne hne]

/-- **The loop over the head.** -/
theorem holds_foldl (lines : List Bytes) : Holds (lines.foldl parseLine (fun _ => none, 1)) lines := by
  induction lines using List.reverseRecOn with
  | nil => exact holds_new
  | append_singleton lines line ih =>
      rw [List.foldl_append]
      exact ih.line line

/-- **The table of a head**: under a name every value of that name, in order, and under the numbers from 1 on the lines that are no
    headers. -/
theorem parse_headers_table (lines : List Bytes) :
    (∀ name, lHinParseHeaders lines (.str name) = entry (values (lines.takeWhile (· ≠ [])) name)) ∧
      (∀ n, lHinParseHeaders lines (.num (n + 1)) = ((others (lines.takeWhile (· ≠ [])))[n]?).map .str) ∧
      lHinParseHeaders lines (.num 0) = none := by
  have h := holds_foldl (lines.takeWhile (· ≠ []))
  exact ⟨h.named, fun n => h.numbered (n + 1), h.numbered 0⟩

/-- Two values of one name, and a line without a colon. -/
example : lHinParseHeaders [bytes "A: 1", bytes "x y", bytes "A: 2"] (.str (bytes "A")) = some (.list [bytes "1", bytes "2"]) := by
  decide +kernel

end RequestHeaders
end Lua
end Hin9
