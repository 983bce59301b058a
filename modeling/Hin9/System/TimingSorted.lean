import Hin9.System.Timing

/-!
# `System.TimingSorted` — the list stays sorted, and a check fires what is due

`Kept t l` is the invariant: the pointers are those of `l`, `l` is sorted by time and holds the armed timers, and every
other timer has time zero. Everything a check relies on is in it: the timers that are due are the first ones of `l`, and
what a callback does to its own timer leaves those that are still to come where they are.

An update keeps it for a timer in the list. A timer that is not in the list has no neighbours to search from, so it goes
to one of the two ends without a look at the other timers.
-/

namespace Hin9
namespace System

open Lib

namespace Timers

variable {n : Nat} {t : Timers n} {l xs ys us vs : List (Fin n)} {a : Fin n} {new tm : Int}

/-! ## What the timers promise -/

/-- **The list is sorted and holds each armed timer once, and a check fires the timers that are due.** -/
structure Sound (t : Timers n) : Prop where
  list : ∃ l, t.list.Linked l ∧ l.Pairwise (fun a b => t.time a ≤ t.time b) ∧ ∀ a, t.armed a = true ↔ a ∈ l
  check : ∀ tm answers a, a ∈ (t.hinTimerCheck tm answers).2 ↔ t.armed a = true ∧ t.time a ≤ tm

/-- The invariant. -/
structure Kept (t : Timers n) (l : List (Fin n)) : Prop where
  linked : t.list.Linked l
  sorted : l.Pairwise fun a b => t.time a ≤ t.time b
  armed : ∀ a, t.armed a = true ↔ a ∈ l
  out : ∀ a, a ∉ l → t.time a = 0

theorem Kept.empty : Kept ({} : Timers n) [] := by
  refine ⟨Dlist.Linked.empty, List.Pairwise.nil, ?_, fun _ _ => rfl⟩
  intro a
  simp

theorem Kept.length_le (h : t.Kept l) : l.length ≤ n := by
  simpa using h.linked.nodup.length_le_card

/-! ## The two searches -/

theorem searchNext_spec (new : Int) (hl : t.list.Linked (xs ++ ys)) {fuel : Nat} (hfuel : ys.length ≤ fuel) :
    ∃ us vs, ys = us ++ vs ∧ (∀ u ∈ us, t.time u < new) ∧ (∀ v ∈ vs.head?, new ≤ t.time v) ∧
      t.searchNext new fuel ys.head? = vs.head? := by
  induction ys generalizing xs fuel with
  | nil =>
      refine ⟨[], [], rfl, by simp, by simp, ?_⟩
      cases fuel <;> rfl
  | cons b ys ih =>
      obtain ⟨fuel, rfl⟩ : ∃ k, fuel = k + 1 := ⟨fuel - 1, by simp at hfuel; omega⟩
      by_cases hb : t.time b ≥ new
      · refine ⟨[], b :: ys, rfl, by simp, ?_, ?_⟩
        · simpa using hb
        · exact if_pos hb
      · have hl' : t.list.Linked ((xs ++ [b]) ++ ys) := by simpa using hl
        obtain ⟨us, vs, rfl, hus, hvs, hsearch⟩ := ih hl' (by simpa using hfuel)
        have hnext : (t.list.node b).next = (us ++ vs).head? := by rw [hl.node xs b _ rfl]
        refine ⟨b :: us, vs, rfl, ?_, hvs, ?_⟩
        · intro u hu
          rcases List.mem_cons.mp hu with rfl | hu
          · exact Int.not_le.mp hb
          · exact hus u hu
        · refine (if_neg hb).trans ?_
          rw [hnext]
          exact hsearch

theorem searchPrev_spec (new : Int) (hl : t.list.Linked (xs ++ ys)) {fuel : Nat} (hfuel : xs.length ≤ fuel) :
    ∃ us vs, xs = us ++ vs ∧ (∀ u ∈ us.getLast?, t.time u ≤ new) ∧ (∀ v ∈ vs, new < t.time v) ∧
      t.searchPrev new fuel xs.getLast? = us.getLast? := by
  induction xs using List.reverseRecOn generalizing ys fuel with
  | nil =>
      refine ⟨[], [], rfl, by simp, by simp, ?_⟩
      cases fuel <;> rfl
  | append_singleton xs b ih =>
      obtain ⟨fuel, rfl⟩ : ∃ k, fuel = k + 1 := ⟨fuel - 1, by simp at hfuel; omega⟩
      rw [List.getLast?_concat]
      by_cases hb : t.time b ≤ new
      · refine ⟨xs ++ [b], [], by simp, ?_, by simp, ?_⟩
        · simpa using hb
        · rw [List.getLast?_concat]
          exact if_pos hb
      · have hl' : t.list.Linked (xs ++ b :: ys) := by simpa using hl
        obtain ⟨us, vs, rfl, hus, hvs, hsearch⟩ := ih hl' (by simpa using hfuel)
        have hprev : (t.list.node b).prev = (us ++ vs).getLast? := by rw [hl'.node _ b ys rfl]
        refine ⟨us, vs ++ [b], by simp, hus, ?_, ?_⟩
        · intro v hv
          rcases List.mem_append.mp hv with hv | hv
          · exact hvs v hv
          · rw [List.mem_singleton.mp hv]
            exact Int.not_le.mp hb
        · refine (if_neg hb).trans ?_
          rw [hprev]
          exact hsearch

/-! ## An update -/

/-- A timer at its place among the others. -/
theorem Kept.insert (h : t.Kept l) {list : Dlist (Fin n)} (hmem : ∀ b, b ≠ a → (b ∈ l ↔ b ∈ us ++ vs))
    (hsorted : (us ++ vs).Pairwise fun a b => t.time a ≤ t.time b) (hlinked : list.Linked (us ++ a :: vs))
    (hus : ∀ u ∈ us, t.time u ≤ new) (hvs : ∀ v ∈ vs, new ≤ t.time v) :
    Kept (((t.setList list).setTime a new).setArmed a true) (us ++ a :: vs) := by
  have hperm : (us ++ a :: vs).Perm (a :: (us ++ vs)) := List.perm_middle
  have hnot : a ∉ us ++ vs := (List.nodup_cons.mp (hperm.nodup_iff.mp hlinked.nodup)).1
  have hsame : ∀ b, b ≠ a → (((t.setList list).setTime a new).setArmed a true).time b = t.time b := fun b hb =>
    Function.update_of_ne hb _ _
  have hself : (((t.setList list).setTime a new).setArmed a true).time a = new := Function.update_self _ _ _
  have hu : ∀ u ∈ us, u ≠ a := fun u hu he => hnot (he ▸ List.mem_append_left _ hu)
  have hv : ∀ v ∈ vs, v ≠ a := fun v hv he => hnot (he ▸ List.mem_append_right _ hv)
  obtain ⟨hsu, hsv, huv⟩ := List.pairwise_append.mp hsorted
  refine ⟨hlinked, ?_, ?_, ?_⟩
  · refine List.pairwise_append.mpr ⟨?_, List.pairwise_cons.mpr ⟨?_, ?_⟩, ?_⟩
    · refine hsu.imp_of_mem fun {x y} hx hy hxy => ?_
      rwa [hsame x (hu x hx), hsame y (hu y hy)]
    · intro v hmv
      rw [hself, hsame v (hv v hmv)]
      exact hvs v hmv
    · refine hsv.imp_of_mem fun {x y} hx hy hxy => ?_
      rwa [hsame x (hv x hx), hsame y (hv y hy)]
    · intro u hmu v hmv
      rw [hsame u (hu u hmu)]
      rcases List.mem_cons.mp hmv with rfl | hmv
      · rw [hself]
        exact hus u hmu
      · rw [hsame v (hv v hmv)]
        exact huv u hmu v hmv
  · intro b
    by_cases hb : b = a
    · subst hb
      simp [setArmed]
    · have hb' : b ∈ us ++ a :: vs ↔ b ∈ us ++ vs := by simp [hb]
      rw [hb', ← hmem b hb, ← h.armed b]
      simp [setArmed, setTime, setList, Function.update_of_ne hb]
  · intro b hb
    have hne : b ≠ a := fun he => hb (by simp [he])
    rw [hsame b hne]
    apply h.out
    rw [hmem b hne]
    intro hm
    exact hb (by simpa [hne] using hm)

/-- **An update moves a timer of the list to where its new time belongs.** -/
theorem Kept.update (h : t.Kept (xs ++ a :: ys)) (new : Int) :
    ∃ us vs, us ++ vs = xs ++ ys ∧ (∀ u ∈ us, t.time u ≤ new) ∧ (∀ v ∈ vs, new ≤ t.time v) ∧
      (t.hinTimerUpdate a new).Kept (us ++ a :: vs) := by
  have hnode := h.linked.node xs a ys rfl
  obtain ⟨hsx, hsy, hxy⟩ := List.pairwise_append.mp h.sorted
  obtain ⟨hay, hsy⟩ := List.pairwise_cons.mp hsy
  have hxa : ∀ x ∈ xs, t.time x ≤ t.time a := fun x hx => hxy x hx a List.mem_cons_self
  have hremoved : (t.list.basicDlistRemove a).Linked (xs ++ ys) := h.linked.remove
  have hnot : a ∉ xs ++ ys := by
    have hperm : (xs ++ a :: ys).Perm (a :: (xs ++ ys)) := List.perm_middle
    exact (List.nodup_cons.mp (hperm.nodup_iff.mp h.linked.nodup)).1
  have hsorted : (xs ++ ys).Pairwise fun a b => t.time a ≤ t.time b := by
    refine List.pairwise_append.mpr ⟨hsx, hsy, ?_⟩
    intro x hx y hy
    exact hxy x hx y (List.mem_cons_of_mem _ hy)
  have hmem : ∀ b, b ≠ a → (b ∈ xs ++ a :: ys ↔ b ∈ xs ++ ys) := by
    intro b hb
    simp [hb]
  unfold hinTimerUpdate
  by_cases heq : t.time a = new
  · rw [if_pos heq]
    refine ⟨xs, ys, rfl, fun x hx => heq ▸ hxa x hx, fun y hy => heq ▸ hay y hy, ?_⟩
    refine ⟨h.linked, h.sorted, ?_, h.out⟩
    intro b
    by_cases hb : b = a
    · subst hb
      simp [setArmed]
    · rw [← h.armed b]
      simp [setArmed, Function.update_of_ne hb]
  rw [if_neg heq]
  by_cases hlt : t.time a < new
  · -- the timer moves back: what is behind it and earlier goes in front of it
    have hsplit : t.list.Linked ((xs ++ [a]) ++ ys) := by simpa using h.linked
    have hfuel : ys.length ≤ n := by
      have := h.length_le
      simp only [List.length_append, List.length_cons] at this
      omega
    obtain ⟨us, vs, rfl, hus, hvs, hsearch⟩ := searchNext_spec new hsplit hfuel
    have hle : ∀ u ∈ xs ++ us, t.time u ≤ new := by
      intro u hu
      rcases List.mem_append.mp hu with hu | hu
      · exact (hxa u hu).trans hlt.le
      · exact (hus u hu).le
    have hge : ∀ v ∈ vs, new ≤ t.time v := by
      cases vs with
      | nil => simp
      | cons v vs =>
          intro w hw
          have hv := hvs v rfl
          rcases List.mem_cons.mp hw with rfl | hw
          · exact hv
          · have hsv := (List.pairwise_append.mp hsy).2.1
            exact hv.trans ((List.pairwise_cons.mp hsv).1 w hw)
    refine ⟨xs ++ us, vs, by simp, hle, hge, ?_⟩
    rw [if_pos hlt, hnode]
    dsimp only
    rw [hsearch]
    refine h.insert (by simpa using hmem) (by simpa using hsorted) ?_ hle hge
    cases vs with
    | nil =>
        rw [← List.append_assoc, List.append_nil] at hremoved
        exact hremoved.append (by simpa using hnot)
    | cons v vs =>
        rw [← List.append_assoc] at hremoved
        exact hremoved.addBefore (by simpa using hnot)
  · -- the timer moves to the front: what is in front of it and later goes behind it
    have hfuel : xs.length ≤ n := by
      have := h.length_le
      simp only [List.length_append, List.length_cons] at this
      omega
    obtain ⟨us, vs, rfl, hus, hvs, hsearch⟩ := searchPrev_spec new h.linked hfuel
    have hge : ∀ v ∈ vs ++ ys, new ≤ t.time v := by
      intro v hv
      rcases List.mem_append.mp hv with hv | hv
      · exact (hvs v hv).le
      · exact (Int.not_lt.mp hlt).trans (hay v hv)
    have hle : ∀ u ∈ us, t.time u ≤ new := by
      cases us using List.reverseRecOn with
      | nil => simp
      | append_singleton us u _ =>
          intro w hw
          have hu := hus u (by simp)
          rcases List.mem_append.mp hw with hw | hw
          · have hsu := (List.pairwise_append.mp (List.pairwise_append.mp hsx).1).2.2
            exact (hsu w hw u List.mem_cons_self).trans hu
          · rw [List.mem_singleton.mp hw]
            exact hu
    refine ⟨us, vs ++ ys, by simp, hle, hge, ?_⟩
    rw [if_neg hlt, hnode]
    dsimp only
    rw [hsearch]
    refine h.insert (by simpa using hmem) (by simpa using hsorted) ?_ hle hge
    cases us using List.reverseRecOn with
    | nil => exact hremoved.prepend (by simpa using hnot)
    | append_singleton us u _ =>
        rw [List.getLast?_concat]
        have hremoved' : (t.list.basicDlistRemove a).Linked (us ++ u :: (vs ++ ys)) := by simpa using hremoved
        have hadded := hremoved'.addAfter (by simpa using hnot)
        simpa using hadded

/-- A timer that is not in the list goes to an end, and that is right where all the others are on one side of it. -/
theorem Kept.update_out (h : t.Kept l) (ha : a ∉ l)
    (hplace : (0 < new ∧ ∀ b ∈ l, t.time b ≤ new) ∨ (new < 0 ∧ ∀ b ∈ l, new ≤ t.time b)) :
    ∃ l', (t.hinTimerUpdate a new).Kept l' := by
  have hnode := h.linked.out a ha
  have hzero := h.out a ha
  have hne : t.time a ≠ new := by
    rw [hzero]
    rcases hplace with ⟨hn, -⟩ | ⟨hn, -⟩ <;> omega
  have hremoved : t.list.basicDlistRemove a = t.list := h.linked.remove_out ha
  unfold hinTimerUpdate
  rw [if_neg hne, hnode, hremoved, hzero]
  dsimp only
  rcases hplace with ⟨hn, hall⟩ | ⟨hn, hall⟩
  · have hsearch : t.searchNext new n none = none := by cases n <;> rfl
    rw [if_pos hn, hsearch]
    have hlast : (t.list.basicDlistAppend a).Linked (l ++ a :: []) := h.linked.append ha
    refine ⟨l ++ [a], h.insert ?_ ?_ hlast hall (by simp)⟩
    · simp
    · simpa using h.sorted
  · have hsearch : t.searchPrev new n none = none := by cases n <;> rfl
    rw [if_neg (by omega), hsearch]
    have hfirst : (t.list.basicDlistPrepend a).Linked ([] ++ a :: l) := h.linked.prepend ha
    refine ⟨[] ++ a :: l, h.insert ?_ ?_ hfirst (by simp) hall⟩
    · simp
    · exact h.sorted

/-! ## A removal -/

theorem Kept.remove (h : t.Kept (xs ++ a :: ys)) : (t.hinTimerRemove a).Kept (xs ++ ys) := by
  have hperm : (xs ++ a :: ys).Perm (a :: (xs ++ ys)) := List.perm_middle
  have hnot : a ∉ xs ++ ys := (List.nodup_cons.mp (hperm.nodup_iff.mp h.linked.nodup)).1
  have hsame : ∀ b, b ≠ a → (t.hinTimerRemove a).time b = t.time b := fun b hb => Function.update_of_ne hb _ _
  refine ⟨h.linked.remove, ?_, ?_, ?_⟩
  · have hsorted := h.sorted.sublist (List.Sublist.append_left (List.sublist_cons_self a ys) xs)
    refine hsorted.imp_of_mem fun {x y} hx hy hxy => ?_
    rwa [hsame x fun he => hnot (he ▸ hx), hsame y fun he => hnot (he ▸ hy)]
  · intro b
    by_cases hb : b = a
    · subst hb
      simpa [hinTimerRemove, setArmed] using hnot
    · have hb' : b ∈ xs ++ ys ↔ b ∈ xs ++ a :: ys := by simp [hb]
      rw [hb', ← h.armed b]
      simp [hinTimerRemove, setArmed, setTime, setList, Function.update_of_ne hb]
  · intro b hb
    by_cases he : b = a
    · subst he
      exact Function.update_self _ _ _
    · rw [hsame b he]
      apply h.out
      simpa [he] using hb

theorem Kept.remove_out (h : t.Kept l) (ha : a ∉ l) : (t.hinTimerRemove a).Kept l := by
  have hlist : (t.hinTimerRemove a).list = t.list := h.linked.remove_out ha
  have htime : (t.hinTimerRemove a).time = t.time := by
    show Function.update t.time a 0 = t.time
    rw [← h.out a ha, Function.update_eq_self]
  refine ⟨hlist ▸ h.linked, ?_, ?_, ?_⟩
  · rw [htime]
    exact h.sorted
  · intro b
    by_cases hb : b = a
    · subst hb
      simpa [hinTimerRemove, setArmed] using ha
    · rw [← h.armed b]
      simp [hinTimerRemove, setArmed, setTime, setList, Function.update_of_ne hb]
  · rw [htime]
    exact h.out

/-! ## A check -/

/-- **The callback of a due timer** leaves the timers that are still to come, `ds` due and `rs` not, as they are:
    the walk goes on from the first of them, and what it finds later is not due. -/
theorem Kept.callback {ds rs ws : List (Fin n)} {c : Callback} (h : t.Kept (ws ++ a :: (ds ++ rs)))
    (hdue : ∀ b ∈ ds, t.time b ≤ tm) (hlate : ∀ b ∈ rs, tm < t.time b) (ha : t.time a ≤ tm) :
    ∃ ws' rs', (t.callback tm a c).1.Kept (ws' ++ (ds ++ rs')) ∧ (ds ++ rs').head? = (ds ++ rs).head? ∧
      (∀ b ∈ ds, (t.callback tm a c).1.time b ≤ tm) ∧ (∀ b ∈ rs', tm < (t.callback tm a c).1.time b) ∧
      ¬ ((t.callback tm a c).2 = 0 ∧ (t.callback tm a c).1.time a ≤ tm) := by
  have hperm : (ws ++ a :: (ds ++ rs)).Perm (a :: (ws ++ (ds ++ rs))) := List.perm_middle
  have hnot : a ∉ ws ++ (ds ++ rs) := (List.nodup_cons.mp (hperm.nodup_iff.mp h.linked.nodup)).1
  have hds : ∀ b ∈ ds, b ≠ a := fun b hb he => hnot (he ▸ by simp [hb])
  have hrs : ∀ b ∈ rs, b ≠ a := fun b hb he => hnot (he ▸ by simp [hb])
  cases c with
  | keep =>
      refine ⟨ws ++ [a], rs, ?_, rfl, hdue, hlate, ?_⟩
      · simpa [Timers.callback] using h
      · rintro ⟨h0, -⟩
        exact absurd h0 (by simp [Timers.callback])
  | close =>
      have hsame : ∀ b, b ≠ a → (t.hinTimerRemove a).time b = t.time b := fun b hb => Function.update_of_ne hb _ _
      refine ⟨ws, rs, h.remove, rfl, ?_, ?_, ?_⟩
      · intro b hb
        exact (hsame b (hds b hb)).trans_le (hdue b hb)
      · intro b hb
        exact (hlate b hb).trans_eq (hsame b (hrs b hb)).symm
      · rintro ⟨h0, -⟩
        exact absurd h0 (by simp [Timers.callback])
  | wait delay =>
      have hnew : tm < tm + delay + 5 := by omega
      obtain ⟨us, vs, hsplit, -, hvs, hkept⟩ := h.update (tm + delay + 5)
      have hself : (t.hinTimerUpdate a (tm + delay + 5)).time a = tm + delay + 5 := by
        unfold hinTimerUpdate
        rw [if_neg (by omega)]
        exact Function.update_self _ _ _
      have hsame : ∀ b, b ≠ a → (t.hinTimerUpdate a (tm + delay + 5)).time b = t.time b := by
        intro b hb
        unfold hinTimerUpdate
        rw [if_neg (by omega)]
        exact Function.update_of_ne hb _ _
      have hearly : ∀ b ∈ ws ++ ds, t.time b ≤ tm := by
        intro b hb
        rcases List.mem_append.mp hb with hb | hb
        · exact ((List.pairwise_append.mp h.sorted).2.2 b hb a List.mem_cons_self).trans ha
        · exact hdue b hb
      -- everything up to the last due timer is earlier than the new time, so the timer lands among the late ones
      obtain ⟨ms, rfl, rfl⟩ : ∃ ms, us = (ws ++ ds) ++ ms ∧ rs = ms ++ vs := by
        rw [← List.append_assoc] at hsplit
        rcases List.append_eq_append_iff.mp hsplit with ⟨as, has, hvs'⟩ | ⟨bs, hbs, hrs'⟩
        · cases as with
          | nil => exact ⟨[], by simpa using has.symm, by simpa using hvs'.symm⟩
          | cons b as =>
              have hb : t.time b ≤ tm := hearly b (by rw [has]; simp)
              have hb' := hvs b (by rw [hvs']; simp)
              omega
        · exact ⟨bs, hbs, hrs'⟩
      have hlate' : ∀ b ∈ ms ++ a :: vs, tm < (t.hinTimerUpdate a (tm + delay + 5)).time b := by
        intro b hb
        by_cases he : b = a
        · rw [he, hself]
          exact hnew
        · rw [hsame b he]
          apply hlate
          simpa [he] using hb
      have hdue' : ∀ b ∈ ds, (t.hinTimerUpdate a (tm + delay + 5)).time b ≤ tm := fun b hb =>
        (hsame b (hds b hb)).trans_le (hdue b hb)
      have hret : ¬ ((t.callback tm a (.wait delay)).2 = 0 ∧ (t.callback tm a (.wait delay)).1.time a ≤ tm) := by
        rintro ⟨-, hle⟩
        have hle' : (t.hinTimerUpdate a (tm + delay + 5)).time a ≤ tm := hle
        omega
      by_cases hempty : ds = [] ∧ ms = []
      · -- the timer lands in front of the one the walk goes on from
        obtain ⟨rfl, rfl⟩ := hempty
        refine ⟨ws ++ [a], vs, ?_, rfl, hdue', ?_, hret⟩
        · simpa [Timers.callback] using hkept
        · intro b hb
          exact hlate' b (by simp [hb])
      · refine ⟨ws, ms ++ a :: vs, ?_, ?_, hdue', hlate', hret⟩
        · simpa [Timers.callback] using hkept
        · cases ds with
          | cons d ds => rfl
          | nil =>
              cases ms with
              | cons m ms => rfl
              | nil => exact absurd ⟨rfl, rfl⟩ hempty

/-- **The walk fires the due timers**, which are the first ones, and keeps the invariant. -/
theorem Kept.checkLoop {ds rs ws : List (Fin n)} {fuel : Nat} (h : t.Kept (ws ++ (ds ++ rs))) (answers : Fin n → Callback)
    (hdue : ∀ b ∈ ds, t.time b ≤ tm) (hlate : ∀ b ∈ rs, tm < t.time b) (hfuel : ds.length < fuel) :
    (Timers.checkLoop tm answers fuel t (ds ++ rs).head?).2 = ds ∧
      ∃ l', (Timers.checkLoop tm answers fuel t (ds ++ rs).head?).1.Kept l' := by
  induction ds generalizing t rs ws fuel with
  | nil =>
      obtain ⟨fuel, rfl⟩ : ∃ k, fuel = k + 1 := ⟨fuel - 1, by simp at hfuel; omega⟩
      cases rs with
      | nil => exact ⟨rfl, _, h⟩
      | cons r rs =>
          have hr : t.time r > tm := hlate r List.mem_cons_self
          have hstop : Timers.checkLoop tm answers (fuel + 1) t (some r) = (t, []) := if_pos hr
          rw [List.nil_append, List.head?_cons, hstop]
          exact ⟨rfl, _, h⟩
  | cons a ds ih =>
      obtain ⟨fuel, rfl⟩ : ∃ k, fuel = k + 1 := ⟨fuel - 1, by simp at hfuel; omega⟩
      have ha : t.time a ≤ tm := hdue a List.mem_cons_self
      have hnext : (t.list.node a).next = (ds ++ rs).head? := by rw [h.linked.node ws a (ds ++ rs) rfl]
      obtain ⟨ws', rs', hkept, hhead, hdue', hlate', hret⟩ :=
        h.callback (c := answers a) (fun b hb => hdue b (List.mem_cons_of_mem _ hb)) hlate ha
      obtain ⟨hfired, l', hl'⟩ := ih hkept hdue' hlate' (Nat.lt_of_succ_lt_succ hfuel)
      have hstep : Timers.checkLoop tm answers (fuel + 1) t (some a) =
          ((Timers.checkLoop tm answers fuel (t.callback tm a (answers a)).1 (ds ++ rs).head?).1,
            a :: (Timers.checkLoop tm answers fuel (t.callback tm a (answers a)).1 (ds ++ rs).head?).2) := by
        rw [Timers.checkLoop]
        rw [if_neg (Int.not_lt.mpr ha), hnext]
        dsimp only
        rw [if_neg hret]
      rw [List.cons_append, List.head?_cons, hstep, ← hhead]
      refine ⟨?_, l', hl'⟩
      dsimp only
      rw [hfired]

/-- The timers that are due are the first ones of a sorted list. -/
theorem split_due {f : Fin n → Int} (h : l.Pairwise fun a b => f a ≤ f b) (tm : Int) :
    ∃ ds rs, l = ds ++ rs ∧ (∀ b ∈ ds, f b ≤ tm) ∧ ∀ b ∈ rs, tm < f b := by
  induction l with
  | nil => exact ⟨[], [], rfl, by simp, by simp⟩
  | cons a l ih =>
      obtain ⟨hal, hl⟩ := List.pairwise_cons.mp h
      by_cases ha : f a ≤ tm
      · obtain ⟨ds, rs, rfl, hds, hrs⟩ := ih hl
        refine ⟨a :: ds, rs, rfl, ?_, hrs⟩
        intro b hb
        rcases List.mem_cons.mp hb with rfl | hb
        · exact ha
        · exact hds b hb
      · refine ⟨[], a :: l, rfl, by simp, ?_⟩
        intro b hb
        rcases List.mem_cons.mp hb with rfl | hb
        · exact Int.not_le.mp ha
        · exact (Int.not_le.mp ha).trans_le (hal b hb)

/-- **A check fires exactly the armed timers that are due.** -/
theorem Kept.check (h : t.Kept l) (tm : Int) (answers : Fin n → Callback) :
    (∀ a, a ∈ (t.hinTimerCheck tm answers).2 ↔ t.armed a = true ∧ t.time a ≤ tm) ∧
      ∃ l', (t.hinTimerCheck tm answers).1.Kept l' := by
  obtain ⟨ds, rs, rfl, hds, hrs⟩ := split_due h.sorted tm
  have hfuel : ds.length < n + 1 := by
    have := h.length_le
    rw [List.length_append] at this
    omega
  have hall : t.Kept ([] ++ (ds ++ rs)) := h
  obtain ⟨hfired, hkept⟩ := hall.checkLoop answers hds hrs hfuel
  rw [← h.linked.first] at hfired hkept
  refine ⟨?_, hkept⟩
  intro a
  have hfired' : (t.hinTimerCheck tm answers).2 = ds := hfired
  rw [hfired', h.armed a, List.mem_append]
  constructor
  · intro ha
    exact ⟨.inl ha, hds a ha⟩
  · rintro ⟨ha | ha, hle⟩
    · exact ha
    · exact absurd hle (Int.not_le.mpr (hrs a ha))

/-- `hin_timer_flush` makes every timer of the list due, and each of them keeps its place. -/
theorem Kept.flushLoop (h : t.Kept l) :
    ∃ t', Timers.flushLoop n t t.list.head.next = t' ∧ t'.Kept l := by
  suffices hwalk : ∀ (ys xs : List (Fin n)) (fuel : Nat) (t' : Timers n), l = xs ++ ys → ys.length ≤ fuel →
      t'.list = t.list → t'.armed = t.armed → (∀ b, b ∈ ys ∨ t'.time b = 0) →
      (Timers.flushLoop fuel t' ys.head?).Kept l by
    have hout : ∀ b, b ∈ l ∨ t.time b = 0 := fun b => by
      by_cases hb : b ∈ l
      · exact .inl hb
      · exact .inr (h.out b hb)
    rw [h.linked.first]
    exact ⟨_, rfl, hwalk l [] n t rfl h.length_le rfl rfl hout⟩
  intro ys
  induction ys with
  | nil =>
      intro xs fuel t' hl _ hlist harmed hzero
      have hend : Timers.flushLoop fuel t' ([] : List (Fin n)).head? = t' := by cases fuel <;> rfl
      have htime : ∀ b, t'.time b = 0 := fun b => (hzero b).resolve_left List.not_mem_nil
      rw [hend]
      refine ⟨hlist ▸ h.linked, ?_, fun a => harmed ▸ h.armed a, fun a _ => htime a⟩
      apply List.pairwise_of_forall
      intro a b
      rw [htime a, htime b]
  | cons a ys ih =>
      intro xs fuel t' hl hfuel hlist harmed hzero
      obtain ⟨fuel, rfl⟩ : ∃ k, fuel = k + 1 := ⟨fuel - 1, by simp at hfuel; omega⟩
      have hnext : (t'.list.node a).next = ys.head? := by rw [hlist, h.linked.node xs a ys hl]
      have hstep : Timers.flushLoop (fuel + 1) t' (a :: ys).head? =
          Timers.flushLoop fuel (t'.setTime a 0) (t'.list.node a).next := rfl
      rw [hstep, hnext]
      apply ih (xs ++ [a]) fuel (t'.setTime a 0) (by simpa using hl) (by simpa using hfuel) hlist harmed
      intro b
      by_cases hb : b = a
      · subst hb
        exact .inr (Function.update_self _ _ _)
      · rcases hzero b with hb' | hb'
        · exact .inl ((List.mem_cons.mp hb').resolve_left hb)
        · exact .inr ((Function.update_of_ne hb _ _).trans hb')

end Timers

/-! ## Runs -/

/-- A timer that is not in the list is armed at one of its two ends. -/
def AtAnEnd {n : Nat} (t : Timers n) : TimerCall n → Prop
  | .update a new =>
      t.armed a = true ∨ (0 < new ∧ ∀ b, t.armed b = true → t.time b ≤ new) ∨
        (new < 0 ∧ ∀ b, t.armed b = true → new ≤ t.time b)
  | _ => True

theorem timer_step_kept {n : Nat} {t t' : Timers n} {l : List (Fin n)} {e : TimerCall n} (h : t.Kept l)
    (hg : AtAnEnd t e) (hs : timerStep t e = some t') : ∃ l', t'.Kept l' := by
  cases e with
  | update a new =>
      obtain rfl := Option.some.inj hs
      by_cases ha : a ∈ l
      · obtain ⟨xs, ys, rfl⟩ := List.append_of_mem ha
        obtain ⟨us, vs, -, -, -, hkept⟩ := h.update new
        exact ⟨_, hkept⟩
      · apply h.update_out ha
        rcases hg with hg | ⟨hnew, hall⟩ | ⟨hnew, hall⟩
        · exact absurd ((h.armed a).mp hg) ha
        · exact .inl ⟨hnew, fun b hb => hall b ((h.armed b).mpr hb)⟩
        · exact .inr ⟨hnew, fun b hb => hall b ((h.armed b).mpr hb)⟩
  | remove a =>
      obtain rfl := Option.some.inj hs
      by_cases ha : a ∈ l
      · obtain ⟨xs, ys, rfl⟩ := List.append_of_mem ha
        exact ⟨_, h.remove⟩
      · exact ⟨_, h.remove_out ha⟩
  | check tm answers =>
      obtain rfl := Option.some.inj hs
      exact (h.check tm answers).2
  | flush tm answers =>
      obtain rfl := Option.some.inj hs
      obtain ⟨t', ht', hkept⟩ := h.flushLoop
      unfold Timers.hinTimerFlush
      rw [ht']
      exact (hkept.check tm answers).2

/-- **A run whose updates arm new timers at the ends only** keeps the list sorted, and every check fires what is due. -/
theorem timers_sound {n : Nat} {es : List (TimerCall n)} {t : Timers n} (h : RunWith timerStep AtAnEnd {} es t) :
    t.Sound := by
  have hkept : ∃ l, t.Kept l := by
    apply h.invariant (I := fun t => ∃ l, t.Kept l)
    · exact ⟨[], Timers.Kept.empty⟩
    · rintro t e t' ⟨l, hl⟩ hg hs
      exact timer_step_kept hl hg hs
  obtain ⟨l, hl⟩ := hkept
  exact ⟨⟨l, hl.linked, hl.sorted, hl.armed⟩, fun tm answers => (hl.check tm answers).1⟩

/-- A client that may stay until 50 and a page that is kept until 100, armed in this order, and a check at 60. -/
theorem timers_sound_two :
    ((((({} : Timers 2).hinTimerUpdate 0 50).hinTimerUpdate 1 100).hinTimerCheck 60 fun _ => .wait 0).1).Sound := by
  have hrun : RunWith timerStep AtAnEnd ({} : Timers 2)
      ([] ++ [.update 0 50] ++ [.update 1 100] ++ [.check 60 fun _ => .wait 0])
      (((({} : Timers 2).hinTimerUpdate 0 50).hinTimerUpdate 1 100).hinTimerCheck 60 fun _ => .wait 0).1 := by
    apply RunWith.snoc (RunWith.snoc (RunWith.snoc .nil ?_ rfl) ?_ rfl) trivial rfl
    · exact .inr (.inl ⟨by decide, by decide⟩)
    · exact .inr (.inl ⟨by decide, by decide⟩)
  exact timers_sound hrun

/-- **A new timer is not put where it belongs.** A cached page is kept for 100 seconds, a client may stay for 50, and
    the client is armed after the page: at 60 its callback is not called. -/
theorem timers_unsound : ¬ ∀ (n : Nat) (es : List (TimerCall n)) (t : Timers n), Run timerStep {} es t → t.Sound := by
  intro hall
  have hrun : Run timerStep ({} : Timers 2) ([] ++ [.update 0 100] ++ [.update 1 50])
      ((({} : Timers 2).hinTimerUpdate 0 100).hinTimerUpdate 1 50) := .snoc (.snoc .nil trivial rfl) trivial rfl
  have hfired := ((hall 2 _ _ hrun).check 60 (fun _ => .close) 1).mpr (by decide)
  exact absurd hfired (by decide)

end System
end Hin9
