import Mathlib

/-!
# `Basic.Bytes` — byte strings and the `ctype.h` classes

A C string view (`string_t`) is modelled by the list of the bytes it covers. `bytes` turns an ASCII
literal of the source into such a list; the `is…` predicates are the C-locale `ctype.h` classes.
-/

namespace Hin9

/-- The bytes a view covers. -/
abbrev Bytes := List UInt8

/-- The bytes of an ASCII literal of the source. -/
def bytes (s : String) : Bytes := s.toList.map fun c => UInt8.ofNat c.toNat

def isspace (c : UInt8) : Bool := c == 32 || (9 ≤ c && c ≤ 13)
def isdigit (c : UInt8) : Bool := 48 ≤ c && c ≤ 57
def isupper (c : UInt8) : Bool := 65 ≤ c && c ≤ 90
def islower (c : UInt8) : Bool := 97 ≤ c && c ≤ 122
def isalpha (c : UInt8) : Bool := isupper c || islower c
def isalnum (c : UInt8) : Bool := isalpha c || isdigit c
def iscntrl (c : UInt8) : Bool := c < 32 || c == 127
def ispunct (c : UInt8) : Bool := 33 ≤ c && c ≤ 126 && !isalnum c
def isxdigit (c : UInt8) : Bool := isdigit c || (65 ≤ c && c ≤ 70) || (97 ≤ c && c ≤ 102)

def toupper (c : UInt8) : UInt8 := if islower c then c - 32 else c

/-- The value of a hexadecimal digit (`0` for any other byte). -/
def hexVal (c : UInt8) : Nat :=
  if isdigit c then c.toNat - 48
  else if 65 ≤ c && c ≤ 70 then c.toNat - 55
  else if 97 ≤ c && c ≤ 102 then c.toNat - 87
  else 0

/-- The natural number a string of hexadecimal digits denotes, read on from `acc`. -/
def hexNat : Nat → Bytes → Nat
  | acc, [] => acc
  | acc, c :: cs => hexNat (acc * 16 + hexVal c) cs

/-- The natural number a string of decimal digits denotes, read on from `acc`. -/
def decNat : Nat → Bytes → Nat
  | acc, [] => acc
  | acc, c :: cs => decNat (acc * 10 + (c.toNat - 48)) cs

/-- Carriage return and line feed. -/
abbrev CR : UInt8 := 13
abbrev LF : UInt8 := 10

theorem hexNat_append (acc : Nat) (xs ys : Bytes) :
    hexNat acc (xs ++ ys) = hexNat (hexNat acc xs) ys := by
  induction xs generalizing acc with
  | nil => rfl
  | cons c cs ih => exact ih (acc * 16 + hexVal c)

/-- What is true of the 256 values is true of every byte. -/
theorem forall_byte {P : UInt8 → Prop} (h : ∀ n : Fin 256, P (UInt8.ofNat n.val)) (c : UInt8) : P c := by
  have hc := h ⟨c.toNat, c.toNat_lt⟩
  rwa [UInt8.ofNat_toNat] at hc

/-- A digit is neither white space nor a sign. -/
theorem isxdigit_facts {c : UInt8} (h : isxdigit c = true) : isspace c = false ∧ c ≠ 45 ∧ c ≠ 43 := by
  have hall : ∀ c : UInt8, isxdigit c = true → isspace c = false ∧ c ≠ 45 ∧ c ≠ 43 := forall_byte (by decide +kernel)
  exact hall c h

theorem isdigit_facts {c : UInt8} (h : isdigit c = true) : isspace c = false ∧ c ≠ 45 ∧ c ≠ 43 := by
  have hx : isxdigit c = true := by simp [isxdigit, h]
  exact isxdigit_facts hx

theorem not_isxdigit_CR : isxdigit CR = false := by decide

theorem not_isxdigit_LF : isxdigit LF = false := by decide

/-! ## Printing numbers in hex -/

/-- A hexadecimal digit as `printf ("%x")` writes it. -/
def hexDigit (n : Nat) : UInt8 := if n < 10 then UInt8.ofNat (48 + n) else UInt8.ofNat (87 + n)

def hexDigitsAux : Nat → Nat → Bytes
  | 0, _ => []
  | fuel + 1, n => if n < 16 then [hexDigit n] else hexDigitsAux fuel (n / 16) ++ [hexDigit (n % 16)]

/-- `printf ("%x", n)`. -/
def hexDigits (n : Nat) : Bytes := hexDigitsAux (n + 1) n

theorem hexDigit_spec (n : Nat) (h : n < 16) : isxdigit (hexDigit n) = true ∧ hexVal (hexDigit n) = n := by
  interval_cases n <;> decide

theorem hexDigitsAux_spec (fuel n : Nat) (h : n < fuel) :
    hexDigitsAux fuel n ≠ [] ∧ (∀ c ∈ hexDigitsAux fuel n, isxdigit c = true) ∧ hexNat 0 (hexDigitsAux fuel n) = n := by
  induction fuel generalizing n with
  | zero => exact absurd h (Nat.not_lt_zero n)
  | succ fuel ih =>
      unfold hexDigitsAux
      by_cases hn : n < 16
      · obtain ⟨hx, hv⟩ := hexDigit_spec n hn
        rw [if_pos hn]
        refine ⟨List.cons_ne_nil _ _, ?_, ?_⟩
        · intro c hc
          rw [List.mem_singleton.mp hc]
          exact hx
        · simp [hexNat, hv]
      · obtain ⟨-, hhex, hval⟩ := ih (n / 16) (by omega)
        obtain ⟨hx, hv⟩ := hexDigit_spec (n % 16) (Nat.mod_lt _ (by decide))
        rw [if_neg hn]
        refine ⟨by simp, ?_, ?_⟩
        · intro c hc
          rcases List.mem_append.mp hc with hc | hc
          · exact hhex c hc
          · rw [List.mem_singleton.mp hc]
            exact hx
        · rw [hexNat_append, hval]
          simp only [hexNat, hv]
          omega

/-- What is printed reads back as the number. -/
theorem hexDigits_spec (n : Nat) :
    hexDigits n ≠ [] ∧ (∀ c ∈ hexDigits n, isxdigit c = true) ∧ hexNat 0 (hexDigits n) = n :=
  hexDigitsAux_spec (n + 1) n (Nat.lt_succ_self n)

/-! ## Printing numbers -/

theorem decNat_append (acc : Nat) (xs ys : Bytes) : decNat acc (xs ++ ys) = decNat (decNat acc xs) ys := by
  induction xs generalizing acc with
  | nil => rfl
  | cons c cs ih => exact ih (acc * 10 + (c.toNat - 48))

def decDigit (n : Nat) : UInt8 := UInt8.ofNat (48 + n)

def decDigitsAux : Nat → Nat → Bytes
  | 0, _ => []
  | fuel + 1, n => if n < 10 then [decDigit n] else decDigitsAux fuel (n / 10) ++ [decDigit (n % 10)]

/-- The digits of a number. -/
def decDigits (n : Nat) : Bytes := decDigitsAux (n + 1) n

/-- `printf ("%ld", n)`. -/
def decText (n : Int) : Bytes := if n < 0 then 45 :: decDigits n.natAbs else decDigits n.natAbs

theorem decDigit_spec (n : Nat) (h : n < 10) : isdigit (decDigit n) = true ∧ (decDigit n).toNat - 48 = n := by
  interval_cases n <;> decide

theorem decDigitsAux_spec (fuel n : Nat) (h : n < fuel) :
    decDigitsAux fuel n ≠ [] ∧ (∀ c ∈ decDigitsAux fuel n, isdigit c = true) ∧ decNat 0 (decDigitsAux fuel n) = n := by
  induction fuel generalizing n with
  | zero => exact absurd h (Nat.not_lt_zero n)
  | succ fuel ih =>
      unfold decDigitsAux
      by_cases hn : n < 10
      · obtain ⟨hd, hv⟩ := decDigit_spec n hn
        rw [if_pos hn]
        refine ⟨List.cons_ne_nil _ _, ?_, ?_⟩
        · intro c hc
          rw [List.mem_singleton.mp hc]
          exact hd
        · show 0 * 10 + ((decDigit n).toNat - 48) = n
          rw [hv, Nat.zero_mul, Nat.zero_add]
      · obtain ⟨-, hdigits, hval⟩ := ih (n / 10) (by omega)
        obtain ⟨hd, hv⟩ := decDigit_spec (n % 10) (Nat.mod_lt _ (by decide))
        rw [if_neg hn]
        refine ⟨by simp, ?_, ?_⟩
        · intro c hc
          rcases List.mem_append.mp hc with hc | hc
          · exact hdigits c hc
          · rw [List.mem_singleton.mp hc]
            exact hd
        · have hdiv := Nat.div_add_mod' n 10
          rw [decNat_append, hval]
          show n / 10 * 10 + ((decDigit (n % 10)).toNat - 48) = n
          rw [hv]
          exact hdiv

theorem decDigitsAux_length {fuel n k : Nat} (h : n < 10 ^ (k + 1)) : (decDigitsAux fuel n).length ≤ k + 1 := by
  induction fuel generalizing n k with
  | zero => exact Nat.zero_le _
  | succ fuel ih =>
      unfold decDigitsAux
      by_cases hn : n < 10
      · rw [if_pos hn]
        simp
      · rw [if_neg hn, List.length_append, List.length_singleton]
        cases k with
        | zero => omega
        | succ k =>
            have hdiv : n / 10 < 10 ^ (k + 1) := by
              rw [Nat.div_lt_iff_lt_mul (by decide), ← Nat.pow_succ]
              exact h
            have := ih hdiv
            omega

/-- What is printed reads back as the number. -/
theorem decDigits_spec (n : Nat) :
    decDigits n ≠ [] ∧ (∀ c ∈ decDigits n, isdigit c = true) ∧ decNat 0 (decDigits n) = n :=
  decDigitsAux_spec (n + 1) n (Nat.lt_succ_self n)

end Hin9
