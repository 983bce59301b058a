import Hin9.Basic.Bytes

/-!
# `Http.UrlEncoding` — percent-encoded text (`http_utils.c`)

`hin_parse_url_encoding` reads the number behind a `%` with a function that knows no end: it takes every hexadecimal digit
there is, the ones of the text behind the escape and the ones behind the view too. A number that is not above `0x1F` leaves
the byte of the output as `malloc` gave it.

`behind` is what stands in memory behind the view, as far as it is read.
-/

namespace Hin9
namespace Http
namespace UrlEncoding

/-! ## The decoder -/

/-- The digits and letters `my_strtoul` knows. -/
def digitValue (c : UInt8) : Option Nat :=
  if isdigit c then some (c.toNat - 48)
  else if isupper c then some (10 + c.toNat - 65)
  else if islower c then some (10 + c.toNat - 97)
  else none

/-- `my_strtoul`: the number, read on from `num`, and how many bytes it takes. -/
def myStrtoul (base : Nat) : Bytes → Nat → Nat × Nat
  | [], num => (num, 0)
  | c :: cs, num =>
      match digitValue c with
      | none => (num, 0)
      | some ch =>
          if ch ≥ base then (num, 0)
          else
            let r := myStrtoul base cs ((num * base + ch) % 2 ^ 64)
            (r.1, r.2 + 1)

/-- What is there after a call: the bytes of the output in front of the NUL, none where nothing was written, and whether a
    byte behind the view was read. -/
structure Output where
  cells : List (Option UInt8) := []
  outside : Bool := false
deriving Repr, DecidableEq

/-- `*p2 = utf`, for a number that was put in an `int`. -/
def writtenByte (num : Nat) : Option UInt8 :=
  let utf : Int := (num : Int).bmod (2 ^ 32)
  if utf > 0x1F then some (UInt8.ofNat num) else none

/-- The loop of `hin_parse_url_encoding`. -/
def urlLoop (behind : Bytes) : Nat → Bytes → Output
  | 0, _ => {}
  | _ + 1, [] => {}
  | fuel + 1, c :: view =>
      if c = 37 then
        let (num, used) := myStrtoul 16 (view ++ behind) 0
        let rest := urlLoop behind fuel (view.drop used)
        { cells := writtenByte num :: rest.cells
          outside := decide (view.length ≤ used) || rest.outside }
      else
        let rest := urlLoop behind fuel view
        { rest with cells := some c :: rest.cells }

/-- `hin_parse_url_encoding`. -/
def hinParseUrlEncoding (view behind : Bytes) : Output := urlLoop behind view.length view

/-! ## Encodings -/

/-- A byte is written as it is, or as `%` and two hexadecimal digits. -/
inductive Encodes : Bytes → Bytes → Prop where
  | nil : Encodes [] []
  | literal {c : UInt8} {s e : Bytes} : c ≠ 37 → Encodes s e → Encodes (c :: s) (c :: e)
  | escape {c hi lo : UInt8} {s e : Bytes} : isxdigit hi = true → isxdigit lo = true →
      hexVal hi * 16 + hexVal lo = c.toNat → Encodes s e → Encodes (c :: s) (37 :: hi :: lo :: e)

/-- The hexadecimal digits at the front. -/
def hexRun (bs : Bytes) : Bytes := bs.takeWhile isxdigit

/-- Something holds of what stands behind every `%`. -/
def Escapes (P : Bytes → Prop) (view : Bytes) : Prop := ∀ pre tail, view = pre ++ 37 :: tail → P tail

/-- An escape is read as it is meant: no hexadecimal digit of the view follows it, and where it ends the view, the digits
    behind the view leave its byte. -/
def Stands (behind : Bytes) : Bytes → Prop
  | hi :: lo :: [] => writtenByte (hexNat 0 (hi :: lo :: hexRun behind)) = some (UInt8.ofNat (hexVal hi * 16 + hexVal lo))
  | _ :: _ :: post => hexRun post = []
  | _ => True

/-- The digits behind a `%` end inside the view, and are a number that is written. -/
def Readable (tail : Bytes) : Prop :=
  (hexRun tail).length < tail.length ∧ 0x1F < (hexNat 0 (hexRun tail) : Int).bmod (2 ^ 32)

/-- The output is a function of the view: every byte of it is written, whatever stands behind the view, which is not read. -/
def FromView (view : Bytes) : Prop := ∃ out : Bytes, ∀ behind, hinParseUrlEncoding view behind = ⟨out.map some, false⟩

/-! ## Numbers -/

theorem digitValue_spec (c : UInt8) :
    (isxdigit c = true → digitValue c = some (hexVal c) ∧ hexVal c < 16) ∧
      (isxdigit c = false → (digitValue c).all (fun ch => 16 ≤ ch) = true) := by
  have hall : ∀ c : UInt8, (isxdigit c = true → digitValue c = some (hexVal c) ∧ hexVal c < 16) ∧
      (isxdigit c = false → (digitValue c).all (fun ch => 16 ≤ ch) = true) := forall_byte (by decide +kernel)
  exact hall c

theorem hexNat_mod (m : Nat) {a b : Nat} (h : a % m = b % m) (run : Bytes) : hexNat a run % m = hexNat b run % m := by
  induction run generalizing a b with
  | nil => exact h
  | cons c cs ih => exact ih (Nat.ModEq.add_right _ (Nat.ModEq.mul_right 16 h))

/-- `my_strtoul` takes the hexadecimal digits at the front. -/
theorem myStrtoul_spec (mem : Bytes) (acc : Nat) :
    (myStrtoul 16 mem acc).2 = (hexRun mem).length ∧
      (myStrtoul 16 mem acc).1 % 2 ^ 64 = hexNat acc (hexRun mem) % 2 ^ 64 := by
  induction mem generalizing acc with
  | nil => exact ⟨rfl, rfl⟩
  | cons c cs ih =>
      unfold myStrtoul hexRun
      by_cases hx : isxdigit c = true
      · obtain ⟨hv, hlt⟩ := (digitValue_spec c).1 hx
        obtain ⟨hused, hnum⟩ := ih ((acc * 16 + hexVal c) % 2 ^ 64)
        rw [hv, List.takeWhile_cons_of_pos hx]
        dsimp only
        rw [if_neg (by omega)]
        exact ⟨by rw [hused]; rfl, hnum.trans (hexNat_mod _ (Nat.mod_mod _ _) _)⟩
      · have hother := (digitValue_spec c).2 (by simpa using hx)
        rw [List.takeWhile_cons_of_neg hx]
        cases hv : digitValue c with
        | none => exact ⟨rfl, rfl⟩
        | some ch =>
            rw [hv] at hother
            have hge : ch ≥ 16 := by simpa using hother
            dsimp only
            rw [if_pos hge]
            exact ⟨rfl, rfl⟩

theorem writtenByte_congr {a b : Nat} (h : a % 2 ^ 64 = b % 2 ^ 64) : writtenByte a = writtenByte b := by
  have h32 : (a : Int).bmod (2 ^ 32) = (b : Int).bmod (2 ^ 32) := by
    have hmod : (a : Int) % (2 ^ 32 : Nat) = (b : Int) % (2 ^ 32 : Nat) := by omega
    rw [← Int.emod_bmod, hmod, Int.emod_bmod]
  have h8 : UInt8.ofNat a = UInt8.ofNat b := by
    rw [← UInt8.toNat_inj, UInt8.toNat_ofNat', UInt8.toNat_ofNat']
    omega
  unfold writtenByte
  rw [h32, h8]

/-- A `%` is read with all the digits behind it. -/
theorem urlLoop_escape (behind : Bytes) (fuel : Nat) (view : Bytes) : urlLoop behind (fuel + 1) (37 :: view) =
    { cells := writtenByte (hexNat 0 (hexRun (view ++ behind))) ::
        (urlLoop behind fuel (view.drop (hexRun (view ++ behind)).length)).cells
      outside := decide (view.length ≤ (hexRun (view ++ behind)).length) ||
        (urlLoop behind fuel (view.drop (hexRun (view ++ behind)).length)).outside } := by
  obtain ⟨hused, hnum⟩ := myStrtoul_spec (view ++ behind) 0
  rw [urlLoop, if_pos rfl]
  dsimp only
  rw [hused, writtenByte_congr hnum]

theorem urlLoop_literal (behind : Bytes) (fuel : Nat) {c : UInt8} (hc : c ≠ 37) (view : Bytes) :
    urlLoop behind (fuel + 1) (c :: view) =
      { urlLoop behind fuel view with cells := some c :: (urlLoop behind fuel view).cells } := by
  rw [urlLoop, if_neg hc]

/-! ## What stands behind the escapes -/

theorem not_isxdigit_percent : isxdigit 37 = false := by decide

@[simp] theorem escapes_nil (P : Bytes → Prop) : Escapes P [] := fun _ _ h => absurd h (by simp)

theorem escapes_literal (P : Bytes → Prop) {c : UInt8} (hc : c ≠ 37) (view : Bytes) :
    Escapes P (c :: view) ↔ Escapes P view := by
  constructor
  · intro h pre tail heq
    exact h (c :: pre) tail (by rw [heq, List.cons_append])
  · intro h pre tail heq
    cases pre with
    | nil => exact absurd (List.cons.inj heq).1 hc
    | cons x pre => exact h pre tail (List.cons.inj heq).2

theorem escapes_escape (P : Bytes → Prop) (view : Bytes) : Escapes P (37 :: view) ↔ P view ∧ Escapes P view := by
  constructor
  · intro h
    exact ⟨h [] view rfl, fun pre tail heq => h (37 :: pre) tail (by rw [heq, List.cons_append])⟩
  · rintro ⟨hview, h⟩ pre tail heq
    cases pre with
    | nil => exact (List.cons.inj heq).2 ▸ hview
    | cons x pre => exact h pre tail (List.cons.inj heq).2

/-- No escape begins inside a run of digits. -/
theorem escapes_drop (P : Bytes → Prop) (view : Bytes) {n : Nat} (hn : n ≤ (hexRun view).length) :
    Escapes P view ↔ Escapes P (view.drop n) := by
  induction n generalizing view with
  | zero => rfl
  | succ n ih =>
      cases view with
      | nil => rfl
      | cons c view =>
          by_cases hx : isxdigit c = true
          · have hc : c ≠ 37 := by
              rintro rfl
              simp [not_isxdigit_percent] at hx
            have hn : n ≤ (hexRun view).length := by
              simpa [hexRun, List.takeWhile_cons_of_pos hx] using hn
            rw [escapes_literal P hc, ih view hn, List.drop_succ_cons]
          · simp [hexRun, List.takeWhile_cons_of_neg hx] at hn

/-- A run that ends inside the view is not lengthened by what stands behind it. -/
theorem hexRun_append {view : Bytes} (h : (hexRun view).length < view.length) (behind : Bytes) :
    hexRun (view ++ behind) = hexRun view := by
  unfold hexRun at h ⊢
  rw [List.takeWhile_append, if_neg (by omega)]

/-! ## Reading an encoding -/

/-- Behind the digits at the front of an encoding stands an encoding of what is left. -/
theorem Encodes.drop {s e : Bytes} (h : Encodes s e) (behind : Bytes) {n : Nat} (hn : n ≤ (hexRun (e ++ behind)).length) :
    ∃ s', Encodes s' (e.drop n) ∧ s'.length + min n e.length = s.length := by
  induction h generalizing n with
  | nil => exact ⟨[], by simpa using Encodes.nil, by simp⟩
  | @literal c s e hc h ih =>
      cases n with
      | zero => exact ⟨c :: s, .literal hc h, by simp⟩
      | succ n =>
          by_cases hx : isxdigit c = true
          · have hn : n ≤ (hexRun (e ++ behind)).length := by
              simpa [hexRun, List.takeWhile_cons_of_pos hx] using hn
            obtain ⟨s', hs', hlen⟩ := ih hn
            exact ⟨s', hs', by simp only [List.length_cons]; omega⟩
          · simp [hexRun, List.takeWhile_cons_of_neg hx] at hn
  | @escape c hi lo s e hhi hlo hv h ih =>
      have hn : n = 0 := by simpa [hexRun, not_isxdigit_percent] using hn
      subst hn
      exact ⟨c :: s, .escape hhi hlo hv h, by simp⟩

theorem hexRun_pair {hi lo : UInt8} (hhi : isxdigit hi = true) (hlo : isxdigit lo = true) (rest : Bytes) :
    hexRun (hi :: lo :: rest) = hi :: lo :: hexRun rest := by
  unfold hexRun
  rw [List.takeWhile_cons_of_pos hhi, List.takeWhile_cons_of_pos hlo]

/-- Not more bytes are written than were encoded. -/
theorem Encodes.cells_length_le {s e : Bytes} (h : Encodes s e) (behind : Bytes) (fuel : Nat) :
    (urlLoop behind fuel e).cells.length ≤ s.length := by
  induction fuel generalizing s e with
  | zero => exact Nat.zero_le _
  | succ fuel ih =>
      cases h with
      | nil => exact Nat.zero_le _
      | literal hc h =>
          rw [urlLoop_literal behind fuel hc]
          exact Nat.succ_le_succ (ih h)
      | @escape c hi lo s e hhi hlo hv h =>
          rw [urlLoop_escape]
          have hrun : hexRun (hi :: lo :: e ++ behind) = hi :: lo :: hexRun (e ++ behind) := hexRun_pair hhi hlo _
          obtain ⟨s', hs', hlen⟩ := h.drop behind (le_refl (hexRun (e ++ behind)).length)
          have hle := ih hs'
          simp only [hrun, List.length_cons, List.drop_succ_cons]
          omega

/-- The byte an escape stands for is above the ones that are not written. -/
theorem writtenByte_pair {c hi lo : UInt8} (hv : hexVal hi * 16 + hexVal lo = c.toNat) (hc : iscntrl c = false) :
    writtenByte (hexNat 0 [hi, lo]) = some c ∧ UInt8.ofNat (hexVal hi * 16 + hexVal lo) = c := by
  have hnum : hexNat 0 [hi, lo] = c.toNat := by
    rw [← hv]
    simp [hexNat]
  have h32 : 32 ≤ c.toNat := by
    simp only [iscntrl, Bool.or_eq_false_iff, decide_eq_false_iff_not] at hc
    simpa [UInt8.lt_iff_toNat_lt] using hc.1
  have hlt := c.toNat_lt
  have hbmod : (c.toNat : Int).bmod (2 ^ 32) = c.toNat := Int.bmod_eq_of_le (by omega) (by omega)
  unfold writtenByte
  rw [hnum, hbmod]
  dsimp only
  rw [if_pos (by omega), hv, UInt8.ofNat_toNat]
  exact ⟨rfl, rfl⟩

theorem ne_percent {c : UInt8} (h : isxdigit c = true) : c ≠ 37 := by
  rintro rfl
  exact absurd h (by decide)

@[simp] theorem urlLoop_nil (behind : Bytes) (fuel : Nat) : urlLoop behind fuel [] = {} := by
  cases fuel <;> rfl

/-- An escape in front of more text. -/
theorem Encodes.escape_inner {c hi lo x : UInt8} {s t : Bytes} (hhi : isxdigit hi = true) (hlo : isxdigit lo = true)
    (hv : hexVal hi * 16 + hexVal lo = c.toNat) (hc : iscntrl c = false) (h : Encodes s (x :: t)) (behind : Bytes) (fuel : Nat) :
    (urlLoop behind (fuel + 1) (37 :: hi :: lo :: x :: t)).cells = (c :: s).map some ↔
      isxdigit x = false ∧ (urlLoop behind fuel (x :: t)).cells = s.map some := by
  have hrun : hexRun (hi :: lo :: x :: t ++ behind) = hi :: lo :: hexRun (x :: t ++ behind) := hexRun_pair hhi hlo _
  rw [urlLoop_escape, hrun]
  by_cases hx : isxdigit x = true
  · -- a digit is lost, and with it a byte of the text
    refine iff_of_false (fun heq => ?_) (fun hand => by simp [hx] at hand)
    have hlong : 1 ≤ (hexRun (x :: t ++ behind)).length := by
      rw [List.cons_append, hexRun, List.takeWhile_cons_of_pos hx]
      simp
    obtain ⟨s', hs', hlen⟩ := h.drop behind (le_refl (hexRun (x :: t ++ behind)).length)
    have hle := hs'.cells_length_le behind fuel
    have hsame := congrArg List.length heq
    simp only [List.length_cons, List.drop_succ_cons, List.length_map] at hsame hlen
    omega
  · have hempty : hexRun (x :: t ++ behind) = [] := by
      rw [List.cons_append, hexRun, List.takeWhile_cons_of_neg hx]
    rw [hempty]
    simp only [List.length_cons, List.length_nil, List.drop_succ_cons, List.drop_zero, (writtenByte_pair hv hc).1,
      List.map_cons, List.cons.injEq, true_and]
    exact ⟨fun heq => ⟨by simpa using hx, heq⟩, fun hand => hand.2⟩

/-- **An encoding is read back** exactly if every escape is read as it is meant. -/
theorem Encodes.decode_iff {s e : Bytes} (h : Encodes s e) (hs : ∀ c ∈ s, iscntrl c = false) (behind : Bytes) {fuel : Nat}
    (hfuel : e.length ≤ fuel) : (urlLoop behind fuel e).cells = s.map some ↔ Escapes (Stands behind) e := by
  induction h generalizing fuel with
  | nil => simp
  | @literal c s e hc h ih =>
      cases fuel with
      | zero => simp at hfuel
      | succ fuel =>
          rw [urlLoop_literal behind fuel hc, escapes_literal _ hc,
            ← ih (fun x hx => hs x (List.mem_cons_of_mem c hx)) (Nat.le_of_succ_le_succ hfuel)]
          simp
  | @escape c hi lo s e hhi hlo hv h ih =>
      cases fuel with
      | zero => simp at hfuel
      | succ fuel =>
          have hcntrl := hs c List.mem_cons_self
          have hrest := ih (fun x hx => hs x (List.mem_cons_of_mem c hx)) (show e.length ≤ fuel by simp at hfuel; omega)
          rw [escapes_escape, escapes_literal _ (ne_percent hhi), escapes_literal _ (ne_percent hlo)]
          cases e with
          | nil =>
              cases h
              rw [urlLoop_escape]
              have hrun : hexRun (hi :: lo :: behind) = hi :: lo :: hexRun behind := hexRun_pair hhi hlo _
              simp [hrun, Stands, (writtenByte_pair hv hcntrl).2]
          | cons x t =>
              rw [h.escape_inner hhi hlo hv hcntrl behind fuel, hrest]
              refine and_congr ?_ Iff.rfl
              show isxdigit x = false ↔ hexRun (x :: t) = []
              unfold hexRun
              by_cases hx : isxdigit x = true
              · simp [List.takeWhile_cons_of_pos hx, hx]
              · simp [List.takeWhile_cons_of_neg hx, hx]

/-! ## What is written and what is read -/

theorem writtenByte_some {n : Nat} (h : 0x1F < (n : Int).bmod (2 ^ 32)) : writtenByte n = some (UInt8.ofNat n) := by
  unfold writtenByte
  dsimp only
  rw [if_pos h]

theorem writtenByte_none {n : Nat} (h : ¬ 0x1F < (n : Int).bmod (2 ^ 32)) : writtenByte n = none := by
  unfold writtenByte
  dsimp only
  rw [if_neg h]

/-- One byte more is written, for any memory behind the view. -/
theorem fromView_cons {cell : Option UInt8} {rest : Bytes → Output} :
    (∃ out : Bytes, ∀ behind, (⟨cell :: (rest behind).cells, (rest behind).outside⟩ : Output) = ⟨out.map some, false⟩) ↔
      cell.isSome = true ∧ ∃ out : Bytes, ∀ behind, rest behind = ⟨out.map some, false⟩ := by
  constructor
  · rintro ⟨out, hout⟩
    cases out with
    | nil => exact absurd (congrArg Output.cells (hout [])) (by simp)
    | cons o out =>
        have hcells := fun behind => List.cons.inj (congrArg Output.cells (hout behind))
        refine ⟨by rw [(hcells []).1]; rfl, out, fun behind => ?_⟩
        have hcells := (hcells behind).2
        have houtside : (rest behind).outside = false := congrArg Output.outside (hout behind)
        rw [← hcells, ← houtside]
  · rintro ⟨hcell, out, hout⟩
    obtain ⟨o, rfl⟩ := Option.isSome_iff_exists.1 hcell
    exact ⟨o :: out, fun behind => by rw [hout behind]; rfl⟩

theorem writtenByte_isSome (n : Nat) : (writtenByte n).isSome = true ↔ 0x1F < (n : Int).bmod (2 ^ 32) := by
  unfold writtenByte
  dsimp only
  split <;> simp_all

/-- **The output is a function of the view** exactly if the digits of every escape end inside it and are a number that is
    written. -/
theorem fromView_iff (view : Bytes) {fuel : Nat} (hfuel : view.length ≤ fuel) :
    (∃ out : Bytes, ∀ behind, urlLoop behind fuel view = ⟨out.map some, false⟩) ↔ Escapes Readable view := by
  induction fuel generalizing view with
  | zero =>
      obtain rfl := List.length_eq_zero_iff.1 (Nat.le_zero.1 hfuel)
      exact iff_of_true ⟨[], fun _ => rfl⟩ (escapes_nil _)
  | succ fuel ih =>
      cases view with
      | nil => exact iff_of_true ⟨[], fun _ => rfl⟩ (escapes_nil _)
      | cons c view =>
          have hfuel : view.length ≤ fuel := Nat.le_of_succ_le_succ hfuel
          by_cases hc : c = 37
          · subst hc
            rw [escapes_escape]
            by_cases hinside : (hexRun view).length < view.length
            · have hloop : ∀ behind, urlLoop behind (fuel + 1) (37 :: view) =
                  ⟨writtenByte (hexNat 0 (hexRun view)) :: (urlLoop behind fuel (view.drop (hexRun view).length)).cells,
                    (urlLoop behind fuel (view.drop (hexRun view).length)).outside⟩ := by
                intro behind
                rw [urlLoop_escape, hexRun_append hinside behind]
                simp [hinside]
              rw [escapes_drop Readable view (le_refl (hexRun view).length),
                ← ih (view.drop (hexRun view).length) (by rw [List.length_drop]; omega)]
              simp only [hloop]
              rw [fromView_cons, writtenByte_isSome]
              exact and_congr (and_iff_right hinside).symm Iff.rfl
            · refine iff_of_false ?_ fun h => hinside h.1.1
              rintro ⟨out, hout⟩
              have houtside := congrArg Output.outside (hout [])
              rw [urlLoop_escape, List.append_nil] at houtside
              simp [not_lt.1 hinside] at houtside
          · rw [escapes_literal _ hc, ← ih view hfuel]
            simp only [urlLoop_literal _ fuel hc]
            rw [fromView_cons]
            exact and_iff_right rfl

/-! ## The function -/

/-- **What the function guarantees.** It reads an encoding back exactly if no hexadecimal digit follows an escape in the
    view, and the ones behind the view leave the byte of an escape at its end. Its output is a function of the view exactly
    if the digits of every escape end inside the view and are a number above `0x1F`. -/
theorem url_encoding_iff {s e : Bytes} (h : Encodes s e) (hs : ∀ c ∈ s, iscntrl c = false) (behind view : Bytes) :
    ((hinParseUrlEncoding e behind).cells = s.map some ↔ Escapes (Stands behind) e) ∧
      (FromView view ↔ Escapes Readable view) :=
  ⟨h.decode_iff hs behind le_rfl, fromView_iff view le_rfl⟩

theorem url_encoding_sample :
    ((hinParseUrlEncoding (bytes "a%20z") []).cells = (bytes "a z").map some ↔ Escapes (Stands []) (bytes "a%20z")) ∧
      (FromView (bytes "a%20z") ↔ Escapes Readable (bytes "a%20z")) := by
  have h : Encodes (bytes "a z") (bytes "a%20z") :=
    .literal (by decide) (.escape (by decide) (by decide) (by decide) (.literal (by decide) .nil))
  exact url_encoding_iff h (by decide +kernel) [] (bytes "a%20z")

/-- The letter behind an escape is taken for a digit of it. -/
theorem url_encoding_swallows : Encodes (bytes "AB") (bytes "%41B") ∧
    (hinParseUrlEncoding (bytes "%41B") []).cells ≠ (bytes "AB").map some := by
  refine ⟨.escape (by decide) (by decide) (by decide) (.literal (by decide) .nil), ?_⟩
  decide

end UrlEncoding
end Http
end Hin9
