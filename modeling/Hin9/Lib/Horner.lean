import Mathlib

/-!
# `Lib.Horner` — polynomial hashes of digit strings

`horner x a ds` reads the digits `ds` one after the other into an accumulator, `h ↦ h * x + d`: the rolling hash
of every `hash * 33 + c` loop. It is the value at `x` of the polynomial whose coefficients are the digits, so

* the start value only adds a multiple of `x ^ length` (`horner_eq`): strings of one length collide from every
  start value or from none;
* ring homomorphisms pass through it (`map_horner`), which carries machine words to integers and back;
* over the integers a string of small digits is determined by its values at two points `x ≠ y`
  (`horner_pair_injective`): a nonzero polynomial that vanishes at both has a lowest coefficient divisible by
  `x * y`.
-/

namespace Hin9.Lib

section Ring

variable {R S : Type} [CommRing R] [CommRing S]

/-- Read the digits `ds` into the accumulator `a`. -/
def horner (x a : R) (ds : List R) : R := ds.foldl (fun h d => h * x + d) a

@[simp] theorem horner_nil (x a : R) : horner x a [] = a := rfl

@[simp] theorem horner_cons (x a d : R) (ds : List R) : horner x a (d :: ds) = horner x (a * x + d) ds := rfl

theorem horner_append (x a : R) (ds es : List R) : horner x a (ds ++ es) = horner x (horner x a ds) es :=
  List.foldl_append

theorem horner_concat (x a d : R) (ds : List R) : horner x a (ds ++ [d]) = horner x a ds * x + d :=
  horner_append x a ds [d]

/-- **The start value is an additive term.** -/
theorem horner_eq (x a : R) (ds : List R) : horner x a ds = a * x ^ ds.length + horner x 0 ds := by
  induction ds using List.reverseRecOn with
  | nil => simp
  | append_singleton ds d ih =>
      rw [horner_concat, horner_concat, ih, List.length_append, List.length_singleton, pow_succ]
      ring

/-- Two strings of one length that collide from some start value collide from every one. -/
theorem horner_eq_iff (x a b : R) {ds es : List R} (h : ds.length = es.length) :
    horner x a ds = horner x a es ↔ horner x b ds = horner x b es := by
  rw [horner_eq x a ds, horner_eq x a es, horner_eq x b ds, horner_eq x b es, h, add_right_inj, add_right_inj]

theorem map_horner (f : R →+* S) (x a : R) (ds : List R) :
    f (horner x a ds) = horner (f x) (f a) (ds.map f) := by
  induction ds generalizing a with
  | nil => rfl
  | cons d ds ih => rw [horner_cons, ih, List.map_cons, horner_cons, map_add, map_mul]

/-- The values of a string at two points differ by a multiple of the distance of the points. -/
theorem sub_dvd_horner_sub (x y : R) (ds : List R) : x - y ∣ horner x 0 ds - horner y 0 ds := by
  induction ds using List.reverseRecOn with
  | nil => simp
  | append_singleton ds d ih =>
      rw [horner_concat, horner_concat]
      obtain ⟨k, hk⟩ := ih
      refine ⟨k * x + horner y 0 ds, ?_⟩
      linear_combination x * hk

end Ring

/-! ## Over the integers -/

/-- The value of a string of digits bounded by `b`. -/
theorem horner_bound {x b : Int} (hx : 1 ≤ x) (ds : List Int) (hb : ∀ d ∈ ds, |d| ≤ b) :
    (x - 1) * |horner x 0 ds| ≤ b * (x ^ ds.length - 1) := by
  induction ds using List.reverseRecOn with
  | nil => simp
  | append_singleton ds d ih =>
      have hd : |d| ≤ b := hb d (by simp)
      have ih := ih fun e he => hb e (List.mem_append_left _ he)
      have habs : |horner x 0 ds * x + d| ≤ |horner x 0 ds| * x + b := by
        refine (abs_add_le _ _).trans (add_le_add (le_of_eq ?_) hd)
        rw [abs_mul, abs_of_nonneg (by omega : 0 ≤ x)]
      rw [horner_concat, List.length_append, List.length_singleton, pow_succ]
      calc (x - 1) * |horner x 0 ds * x + d|
          ≤ (x - 1) * (|horner x 0 ds| * x + b) := mul_le_mul_of_nonneg_left habs (by omega)
        _ = (x - 1) * |horner x 0 ds| * x + (x - 1) * b := by ring
        _ ≤ b * (x ^ ds.length - 1) * x + (x - 1) * b :=
            add_le_add (mul_le_mul_of_nonneg_right ih (by omega)) le_rfl
        _ = b * (x ^ ds.length * x - 1) := by ring

/-- The digitwise difference of two strings of one length has the difference of their values. -/
theorem horner_zipWith_sub (x : Int) : ∀ {ds es : List Int} (a b : Int), ds.length = es.length →
    horner x (a - b) (List.zipWith (· - ·) ds es) = horner x a ds - horner x b es
  | [], [], _, _, _ => rfl
  | d :: ds, e :: es, a, b, h => by
      rw [List.zipWith_cons_cons, horner_cons, horner_cons, horner_cons,
        ← horner_zipWith_sub x (a * x + d) (b * x + e) (by simpa using h)]
      congr 1
      ring

/-- **No small polynomial vanishes at two points.** If the digits are smaller than `x * y` and the value is zero
    at `x` and at `y`, every digit is zero. -/
theorem horner_pair_zero {x y : Int} (hx : x ≠ 0) (hxy : x ≠ y) (ds : List Int)
    (hb : ∀ d ∈ ds, |d| < x * y) (h0x : horner x 0 ds = 0) (h0y : horner y 0 ds = 0) : ∀ d ∈ ds, d = 0 := by
  -- The induction takes the last digit, the lowest coefficient, off the string.
  induction ds using List.reverseRecOn with
  | nil => exact fun d hd => absurd hd List.not_mem_nil
  | append_singleton ds d ih =>
      rw [horner_concat] at h0x h0y
      obtain ⟨k, hk⟩ := sub_dvd_horner_sub x y ds
      have hyk : horner y 0 ds = - k * x := by
        have h : (x - y) * (horner y 0 ds + k * x) = 0 := by linear_combination h0x - h0y - x * hk
        have := (mul_eq_zero.mp h).resolve_left (sub_ne_zero.mpr hxy)
        linear_combination this
      have hd : d = x * y * k := by linear_combination h0y - y * hyk
      have hk0 : k = 0 := by
        by_contra hne
        have h1 : (1 : Int) ≤ |k| := Int.one_le_abs hne
        have h2 : |x * y| * |k| < x * y := by
          rw [← abs_mul, ← hd]
          exact hb d (by simp)
        nlinarith [le_abs_self (x * y), abs_nonneg (x * y)]
      have hd0 : d = 0 := by rw [hd, hk0, mul_zero]
      have hy0 : horner y 0 ds = 0 := by rw [hyk, hk0, neg_zero, zero_mul]
      have hx0 : horner x 0 ds = 0 := by
        rw [hd0, add_zero] at h0x
        exact (mul_eq_zero.mp h0x).resolve_right hx
      intro e he
      rcases List.mem_append.mp he with he | he
      · exact ih (fun c hc => hb c (List.mem_append_left _ hc)) hx0 hy0 e he
      · exact (List.mem_singleton.mp he).trans hd0

/-- A string of zeros is a difference of equal strings. -/
theorem eq_of_zipWith_sub_zero : ∀ {ds es : List Int}, ds.length = es.length →
    (∀ d ∈ List.zipWith (· - ·) ds es, d = 0) → ds = es
  | [], [], _, _ => rfl
  | d :: ds, e :: es, hlen, h => by
      have hd : d - e = 0 := h _ (by simp)
      have hrest := eq_of_zipWith_sub_zero (by simpa using hlen) fun c hc =>
        h c (by rw [List.zipWith_cons_cons]; exact List.mem_cons_of_mem _ hc)
      rw [sub_eq_zero.mp hd, hrest]

theorem abs_zipWith_sub_le {b : Int} : ∀ {ds es : List Int}, (∀ d ∈ ds, ∀ e ∈ es, |d - e| ≤ b) →
    ∀ c ∈ List.zipWith (· - ·) ds es, |c| ≤ b
  | [], _, _, c, hc => by simp at hc
  | _ :: _, [], _, c, hc => by simp at hc
  | d :: ds, e :: es, h, c, hc => by
      rcases List.mem_cons.mp (by simpa using hc) with rfl | hc
      · exact h d (by simp) e (by simp)
      · exact abs_zipWith_sub_le (fun d' hd e' he =>
          h d' (List.mem_cons_of_mem _ hd) e' (List.mem_cons_of_mem _ he)) c hc

/-- **Two values determine a string.** Two strings of one length whose digits differ by less than `x * y` and
    whose values agree at `x` and at `y` are equal. -/
theorem horner_pair_injective {x y b : Int} (hx : x ≠ 0) (hxy : x ≠ y) (hb : b < x * y) {ds es : List Int}
    (hlen : ds.length = es.length) (hdig : ∀ d ∈ ds, ∀ e ∈ es, |d - e| ≤ b)
    (h0x : horner x 0 ds = horner x 0 es) (h0y : horner y 0 ds = horner y 0 es) : ds = es := by
  have hzero (z : Int) (h : horner z 0 ds = horner z 0 es) :
      horner z 0 (List.zipWith (· - ·) ds es) = 0 := by
    have := horner_zipWith_sub z 0 0 hlen
    rwa [sub_zero, h, sub_self] at this
  refine eq_of_zipWith_sub_zero hlen (horner_pair_zero hx hxy _ ?_ (hzero x h0x) (hzero y h0y))
  exact fun d hd => (abs_zipWith_sub_le hdig d hd).trans_lt hb

end Hin9.Lib
