import Hin9.Basic.Dlist

/-!
# `Basic.DlistChain` — chains of elements in doubly linked lists (`basic_lists.c`)

What is inserted into a list can be a chain of elements, of which the functions are given the first one; they follow its
`next` pointers to find the last. `spliceChain` is what an insertion should do to the pointers, and every insertion does it
but one: `basic_dlist_prepend` puts the old list behind the first element of the chain, and what the chain had there is lost.

A list is read forward by `Nexts`. Read backward it is the list of the `flip`ped pointers, so that one direction of each fact
is enough.
-/

namespace Hin9
namespace Dlist

variable {α : Type} [DecidableEq α] (d : Dlist α)

/-! ## The operations

Removal has no chain in it: it is `basicDlistRemove`. -/

/-- `while (last->next) last = last->next`, for at most `fuel` elements. -/
def lastOf : Nat → α → Option α
  | 0, _ => none
  | fuel + 1, last =>
      match (d.node last).next with
      | none => some last
      | some next => lastOf fuel next

namespace Chain

/-- `basic_dlist_prepend`. -/
def basicDlistPrepend (fuel : Nat) (new : α) : Option (Dlist α) :=
  (d.lastOf fuel new).map fun last =>
    match d.head.next with
    | none => (d.setFirst (some new)).setLast (some last)
    | some first => ((d.setNext new (some first)).setPrev first (some last)).setFirst (some new)

/-- `basic_dlist_append`. -/
def basicDlistAppend (fuel : Nat) (new : α) : Option (Dlist α) :=
  (d.lastOf fuel new).map fun last =>
    match d.head.next with
    | none => (d.setFirst (some new)).setLast (some last)
    | some _ => ((d.setPrev new d.head.prev).setNextOf d.head.prev (some new)).setLast (some last)

/-- `basic_dlist_add_after`; `list` says whether there is a head, it is `NULL` for a chain alone. -/
def basicDlistAddAfter (list : Bool) (fuel : Nat) (elem new : α) : Option (Dlist α) :=
  (d.lastOf fuel new).map fun last =>
    let after := (d.node elem).next
    let d := ((d.setNext last after).setPrevOf after (some last)).setPrev new (some elem)
    let d := d.setNext elem (some new)
    if list ∧ d.head.prev = some elem then d.setLast (some last) else d

/-- `basic_dlist_add_before`. -/
def basicDlistAddBefore (list : Bool) (fuel : Nat) (elem new : α) : Option (Dlist α) :=
  (d.lastOf fuel new).map fun last =>
    let before := (d.node elem).prev
    let d := ((d.setPrev new before).setNextOf before (some new)).setNext last (some elem)
    let d := d.setPrev elem (some last)
    if list ∧ d.head.next = some elem then d.setFirst (some new) else d

end Chain

/-! ## Lists and chains -/

/-- The `next` pointers of the elements lead from one to the other, and from the last one to `after`. -/
def Nexts : List α → Option α → Prop
  | [], _ => True
  | a :: l, after => (d.node a).next = l.head?.or after ∧ Nexts l after

/-- The pointers the other way round. -/
def flip : Dlist α where
  head := ⟨d.head.prev, d.head.next⟩
  node a := ⟨(d.node a).prev, (d.node a).next⟩

/-- **A well-formed chain.** Its elements are different, and their pointers spell it forward and backward. -/
structure IsChain (chain : List α) : Prop where
  nodup : chain.Nodup
  nexts : d.Nexts chain none
  prevs : d.flip.Nexts chain.reverse none

/-- **A well-formed list** is a chain of which the head names the first and the last element. -/
structure Denotes (l : List α) : Prop extends d.IsChain l where
  first : d.head.next = l.head?
  last : d.head.prev = l.getLast?

/-- A chain between its neighbours, or at the end where there is none. -/
def spliceChain (before : Option α) (first last : α) (after : Option α) : Dlist α where
  head := ⟨if before = none then some first else d.head.next, if after = none then some last else d.head.prev⟩
  node a :=
    ⟨if before = some a then some first else if a = last then after else (d.node a).next,
      if after = some a then some last else if a = first then before else (d.node a).prev⟩

variable {d} {l chain xs ys : List α} {new elem first last : α} {before after : Option α}

/-! ### Reading forward -/

omit [DecidableEq α] in
theorem Nexts.congr {d' : Dlist α} (h : d.Nexts l after) (hsame : ∀ a ∈ l, (d'.node a).next = (d.node a).next) :
    d'.Nexts l after := by
  induction l with
  | nil => trivial
  | cons a l ih =>
      constructor
      · rw [hsame a List.mem_cons_self]
        exact h.1
      · exact ih h.2 fun b hb => hsame b (List.mem_cons_of_mem _ hb)

omit [DecidableEq α] in
theorem nexts_append : d.Nexts (xs ++ ys) after ↔ d.Nexts xs (ys.head?.or after) ∧ d.Nexts ys after := by
  induction xs with
  | nil => simp [Nexts]
  | cons a xs ih =>
      rw [List.cons_append, Nexts, Nexts, ih, List.head?_append, Option.or_assoc, and_assoc]

omit [DecidableEq α] in
/-- The last element of a part points behind it. -/
theorem Nexts.redirect {d' : Dlist α} (h : d.Nexts l before) (hnodup : l.Nodup)
    (hlast : ∀ a, l.getLast? = some a → (d'.node a).next = after)
    (hsame : ∀ a ∈ l, l.getLast? ≠ some a → (d'.node a).next = (d.node a).next) : d'.Nexts l after := by
  rcases List.eq_nil_or_concat l with rfl | ⟨init, last, rfl⟩
  · trivial
  · rw [List.concat_eq_append] at *
    rw [nexts_append] at h ⊢
    refine ⟨h.1.congr ?_, ?_⟩
    · intro a ha
      apply hsame a (List.mem_append_left _ ha)
      rw [List.getLast?_concat]
      intro he
      obtain rfl := Option.some.inj he
      exact (List.nodup_append.mp hnodup).2.2 _ ha _ (List.mem_singleton_self _) rfl
    · exact ⟨hlast last (List.getLast?_concat ..), trivial⟩

omit [DecidableEq α] in
/-- **The loop finds the last element of a chain.** -/
theorem lastOf_chain {rest : List α} {fuel : Nat} (h : d.Nexts (new :: rest) none) (hfuel : rest.length < fuel) :
    d.lastOf fuel new = (new :: rest).getLast? := by
  induction rest generalizing new fuel with
  | nil =>
      obtain ⟨fuel, rfl⟩ : ∃ k, fuel = k + 1 := ⟨fuel - 1, by omega⟩
      rw [lastOf, h.1]
      rfl
  | cons b rest ih =>
      obtain ⟨fuel, rfl⟩ : ∃ k, fuel = k + 1 := ⟨fuel - 1, by omega⟩
      rw [lastOf, h.1]
      refine (ih h.2 ?_).trans ?_
      · rw [List.length_cons] at hfuel
        omega
      · rw [List.getLast?_cons_cons]

/-! ### A chain between two parts -/

omit [DecidableEq α] in
theorem flip_flip : d.flip.flip = d := rfl

theorem flip_spliceChain : (d.spliceChain before first last after).flip = d.flip.spliceChain after last first before := rfl

/-- **The list read forward with a chain in it.** -/
theorem Nexts.splice (hxs : d.Nexts xs ys.head?) (hys : d.Nexts ys none) (hchain : d.Nexts chain none)
    (hfirst : chain.head? = some first) (hlast : chain.getLast? = some last) (hnodup : (xs ++ (chain ++ ys)).Nodup) :
    (d.spliceChain xs.getLast? first last ys.head?).Nexts (xs ++ (chain ++ ys)) none := by
  obtain ⟨hx, hcy, hdisj⟩ := List.nodup_append.mp hnodup
  obtain ⟨hc, -, hapart⟩ := List.nodup_append.mp hcy
  have hlastmem := List.mem_of_getLast? hlast
  have hbefore : ∀ a ∈ chain ++ ys, xs.getLast? ≠ some a := fun a ha he => hdisj a (List.mem_of_getLast? he) a ha rfl
  rw [nexts_append, nexts_append]
  simp only [Option.or_none]
  rw [List.head?_append, hfirst, Option.some_or]
  refine ⟨?_, ?_, ?_⟩
  · apply hxs.redirect hx
    · intro a ha
      exact if_pos ha
    · intro a ha hne
      have hal : a ≠ last := fun he => hdisj a ha last (List.mem_append_left _ hlastmem) he
      exact (if_neg hne).trans (if_neg hal)
  · apply hchain.redirect hc
    · intro a ha
      have hal : a = last := Option.some.inj (ha.symm.trans hlast)
      exact (if_neg (hbefore a (List.mem_append_left _ (List.mem_of_getLast? ha)))).trans (if_pos hal)
    · intro a ha hne
      have hal : a ≠ last := fun he => hne (he ▸ hlast)
      exact (if_neg (hbefore a (List.mem_append_left _ ha))).trans (if_neg hal)
  · apply hys.congr
    intro a ha
    have hal : a ≠ last := fun he => hapart last hlastmem a ha he.symm
    exact (if_neg (hbefore a (List.mem_append_right _ ha))).trans (if_neg hal)

theorem IsChain.splice (h : d.IsChain (xs ++ ys)) (hchain : d.IsChain chain) (hfirst : chain.head? = some first)
    (hlast : chain.getLast? = some last) (hdisj : (xs ++ ys).Disjoint chain) :
    (d.spliceChain xs.getLast? first last ys.head?).IsChain (xs ++ (chain ++ ys)) := by
  have hperm : (xs ++ (chain ++ ys)).Perm (xs ++ ys ++ chain) := by
    rw [List.append_assoc]
    exact List.perm_append_comm.append_left xs
  have hnodup : (xs ++ (chain ++ ys)).Nodup :=
    hperm.nodup_iff.mpr (List.nodup_append'.mpr ⟨h.nodup, hchain.nodup, hdisj⟩)
  obtain ⟨hxs, hys⟩ := nexts_append.mp h.nexts
  have hback := h.prevs
  rw [List.reverse_append] at hback
  obtain ⟨hysback, hxsback⟩ := nexts_append.mp hback
  rw [Option.or_none] at hxs hysback
  refine ⟨hnodup, hxs.splice hys hchain.nexts hfirst hlast hnodup, ?_⟩
  -- the same read backward, from the last element of the chain to the first
  have hrev : (xs ++ (chain ++ ys)).reverse = ys.reverse ++ (chain.reverse ++ xs.reverse) := by
    simp only [List.reverse_append, List.append_assoc]
  have hnodup' := List.nodup_reverse.mpr hnodup
  rw [hrev] at hnodup' ⊢
  rw [flip_spliceChain, ← List.getLast?_reverse (l := ys), ← List.head?_reverse (l := xs)]
  apply hysback.splice hxsback hchain.prevs _ _ hnodup'
  · rw [List.head?_reverse, hlast]
  · rw [List.getLast?_reverse, hfirst]

/-- **A chain is put between two parts of a list.** -/
theorem Denotes.splice (h : d.Denotes (xs ++ ys)) (hchain : d.IsChain chain) (hfirst : chain.head? = some first)
    (hlast : chain.getLast? = some last) (hdisj : (xs ++ ys).Disjoint chain) :
    (d.spliceChain xs.getLast? first last ys.head?).Denotes (xs ++ (chain ++ ys)) := by
  refine ⟨h.toIsChain.splice hchain hfirst hlast hdisj, ?_, ?_⟩
  · have hhead := h.first
    unfold spliceChain
    dsimp only
    cases xs with
    | nil =>
        rw [List.nil_append, List.head?_append, hfirst]
        rfl
    | cons x xs => exact (if_neg (by simp)).trans hhead
  · have htail := h.last
    unfold spliceChain
    dsimp only
    rw [List.getLast?_append, List.getLast?_append, hlast]
    cases hy : ys.getLast? with
    | none =>
        rw [List.getLast?_eq_none_iff.mp hy]
        rfl
    | some y =>
        rw [if_neg, htail, List.getLast?_append, hy]
        · rfl
        · intro hn
          rw [List.head?_eq_none_iff.mp hn] at hy
          exact absurd hy (by simp)

/-- Nobody else is touched. -/
theorem spliceChain_out (hfirst : chain.head? = some first) (hlast : chain.getLast? = some last) {a : α}
    (ha : a ∉ xs ++ ys) (hc : a ∉ chain) : (d.spliceChain xs.getLast? first last ys.head?).node a = d.node a := by
  have hx : xs.getLast? ≠ some a := fun he => ha (List.mem_append_left _ (List.mem_of_getLast? he))
  have hy : ys.head? ≠ some a := fun he => ha (List.mem_append_right _ (List.mem_of_head? he))
  have hf : a ≠ first := fun he => hc (he ▸ List.mem_of_head? hfirst)
  have hl : a ≠ last := fun he => hc (he ▸ List.mem_of_getLast? hlast)
  unfold spliceChain
  dsimp only
  rw [if_neg hx, if_neg hl, if_neg hy, if_neg hf]

/-! ### An element between two parts -/

theorem flip_unlink : (d.unlink before elem after).flip = d.flip.unlink after elem before := by
  apply eq_of
  · rfl
  · intro a
    unfold flip unlink
    dsimp only
    split <;> rfl

/-- **The list read forward without an element.** -/
theorem Nexts.unlink (h : d.Nexts (xs ++ elem :: ys) none) (hnodup : (xs ++ elem :: ys).Nodup) :
    (d.unlink xs.getLast? elem ys.head?).Nexts (xs ++ ys) none := by
  obtain ⟨hx, hey, hdisj⟩ := List.nodup_append.mp hnodup
  rw [List.nodup_cons] at hey
  obtain ⟨hxs, -, hys⟩ := nexts_append.mp h
  rw [nexts_append, Option.or_none]
  constructor
  · apply hxs.redirect hx
    · intro a ha
      have hae : a ≠ elem := fun he => hdisj a (List.mem_of_getLast? ha) elem List.mem_cons_self he
      unfold Dlist.unlink
      dsimp only
      rw [if_neg hae, if_pos ha]
    · intro a ha hne
      have hae : a ≠ elem := fun he => hdisj a ha elem List.mem_cons_self he
      unfold Dlist.unlink
      dsimp only
      rw [if_neg hae, if_neg hne]
  · apply hys.congr
    intro a ha
    have hae : a ≠ elem := fun he => hey.1 (he ▸ ha)
    have hbefore : xs.getLast? ≠ some a := fun he =>
      hdisj a (List.mem_of_getLast? he) a (List.mem_cons_of_mem _ ha) rfl
    unfold Dlist.unlink
    dsimp only
    rw [if_neg hae, if_neg hbefore]

/-- **An element is taken out of a list.** -/
theorem Denotes.unlink (h : d.Denotes (xs ++ elem :: ys)) : (d.unlink xs.getLast? elem ys.head?).Denotes (xs ++ ys) := by
  have hsub : (xs ++ ys).Sublist (xs ++ elem :: ys) := (List.sublist_cons_self elem ys).append_left xs
  have hback : (d.unlink xs.getLast? elem ys.head?).flip.Nexts (xs ++ ys).reverse none := by
    have hprevs := h.prevs
    have hnodup := List.nodup_reverse.mpr h.nodup
    have hrev : (xs ++ elem :: ys).reverse = ys.reverse ++ elem :: xs.reverse := by simp
    rw [hrev] at hprevs hnodup
    rw [flip_unlink, List.reverse_append, ← List.getLast?_reverse (l := ys), ← List.head?_reverse (l := xs)]
    exact hprevs.unlink hnodup
  refine ⟨⟨h.nodup.sublist hsub, h.nexts.unlink h.nodup, hback⟩, ?_, ?_⟩
  · have hhead := h.first
    unfold Dlist.unlink
    dsimp only
    cases xs with
    | nil => rfl
    | cons x xs => exact (if_neg (by simp)).trans hhead
  · have htail := h.last
    unfold Dlist.unlink
    dsimp only
    cases ys with
    | nil =>
        rw [List.append_nil]
        exact if_pos rfl
    | cons y ys =>
        rw [if_neg (by simp), htail, List.getLast?_append_of_ne_nil _ (List.cons_ne_nil _ _),
          List.getLast?_append_of_ne_nil _ (List.cons_ne_nil _ _), List.getLast?_cons_cons]

/-! ## What the operations do to the pointers -/

omit [DecidableEq α] in
/-- The ends of a chain point nowhere. -/
theorem IsChain.ends (h : d.IsChain chain) (hfirst : chain.head? = some first) (hlast : chain.getLast? = some last) :
    (d.node first).prev = none ∧ (d.node last).next = none := by
  have hend {d : Dlist α} {chain : List α} {last : α} (h : d.Nexts chain none) (hlast : chain.getLast? = some last) :
      (d.node last).next = none := by
    obtain ⟨init, rfl⟩ := List.getLast?_eq_some_iff.mp hlast
    exact (nexts_append.mp h).2.1
  exact ⟨hend h.prevs (List.getLast?_reverse.trans hfirst), hend h.nexts hlast⟩

omit [DecidableEq α] in
/-- The neighbours of an element of a chain. -/
theorem IsChain.node (h : d.IsChain (xs ++ elem :: ys)) : d.node elem = ⟨ys.head?, xs.getLast?⟩ := by
  have hnext : (d.node elem).next = ys.head? := by
    have hn := (nexts_append.mp h.nexts).2.1
    rwa [Option.or_none] at hn
  have hprev : (d.node elem).prev = xs.getLast? := by
    have hp := h.prevs
    have hrev : (xs ++ elem :: ys).reverse = ys.reverse ++ elem :: xs.reverse := by simp
    rw [hrev] at hp
    have hn := (nexts_append.mp hp).2.1
    rwa [Option.or_none, List.head?_reverse] at hn
  rw [← hnext, ← hprev]

namespace Chain

/-- A chain alone becomes the list. -/
theorem basicDlistFirst_eq (hnew : (d.node new).prev = none) (hend : (d.node last).next = none) :
    (d.setFirst (some new)).setLast (some last) = d.spliceChain none new last none := by
  apply eq_of
  · rfl
  · intro a
    have hnext : (if a = last then none else (d.node a).next) = (d.node a).next := by
      split
      · rename_i hl
        rw [hl, hend]
      · rfl
    have hprev : (if a = new then none else (d.node a).prev) = (d.node a).prev := by
      split
      · rename_i hn
        rw [hn, hnew]
      · rfl
    simp only [setFirst, setLast, spliceChain, reduceCtorEq, if_false, hnext, hprev]

theorem basicDlistAppend_eq {fuel : Nat} (h : d.Denotes l) (hwalk : d.lastOf fuel new = some last)
    (hnew : (d.node new).prev = none) (hend : (d.node last).next = none) :
    basicDlistAppend d fuel new = some (d.spliceChain l.getLast? new last none) := by
  unfold basicDlistAppend
  rw [hwalk, Option.map_some, h.first, h.last]
  congr 1
  cases l with
  | nil => exact basicDlistFirst_eq hnew hend
  | cons c l =>
      apply eq_of
      · simp [setLast, head_setNextOf, setPrev, spliceChain]
      · intro a
        simp only [List.head?_cons, setLast, node_setNextOf, node_setPrev, spliceChain, eq_comm (a := new)]
        by_cases hl : a = last
        · subst hl
          simp [hend]
        · simp [hl]

/-- To prepend is right where there is no list yet, or where the chain is a single element. -/
theorem basicDlistPrepend_eq {fuel : Nat} (h : d.Denotes l) (hwalk : d.lastOf fuel new = some last)
    (hnew : (d.node new).prev = none) (hend : (d.node last).next = none) (hright : l = [] ∨ last = new) :
    basicDlistPrepend d fuel new = some (d.spliceChain none new last l.head?) := by
  unfold basicDlistPrepend
  rw [hwalk, Option.map_some, h.first]
  congr 1
  cases l with
  | nil => exact basicDlistFirst_eq hnew hend
  | cons c l =>
      obtain rfl := hright.resolve_left (List.cons_ne_nil _ _)
      apply eq_of
      · simp [setFirst, setPrev, setNext, spliceChain]
      · intro a
        simp only [List.head?_cons, setFirst, node_setNext, node_setPrev, spliceChain, Option.some.injEq,
          eq_comm (a := last)]
        by_cases hn : a = last
        · subst hn
          simp [hnew]
        · simp [hn]

/-- Behind an element, with a head or without. -/
theorem basicDlistAddAfter_eq (list : Bool) {fuel : Nat} (hafter : (d.node elem).next = after)
    (hwalk : d.lastOf fuel new = some last) (hne : after ≠ some new) :
    ∃ d', basicDlistAddAfter d list fuel elem new = some d' ∧
      d'.node = (d.spliceChain (some elem) new last after).node ∧
      d'.head = if list ∧ d.head.prev = some elem then ⟨d.head.next, some last⟩ else d.head := by
  unfold basicDlistAddAfter
  rw [hwalk, Option.map_some, hafter]
  refine ⟨_, rfl, ?_, ?_⟩
  · funext a
    simp only [node_ite_setLast, node_setNext, node_setPrev, node_setPrevOf, spliceChain, Option.some.injEq,
      eq_comm (b := a)]
    by_cases hn : a = new
    · subst hn
      simp [hne]
    · simp [hn]
  · simp only [setNext, setPrev, head_setPrevOf]
    split <;> rfl

theorem basicDlistAddBefore_eq (list : Bool) {fuel : Nat} (hbefore : (d.node elem).prev = before)
    (hwalk : d.lastOf fuel new = some last) (hne : before ≠ some last) :
    ∃ d', basicDlistAddBefore d list fuel elem new = some d' ∧
      d'.node = (d.spliceChain before new last (some elem)).node ∧
      d'.head = if list ∧ d.head.next = some elem then ⟨some new, d.head.prev⟩ else d.head := by
  unfold basicDlistAddBefore
  rw [hwalk, Option.map_some, hbefore]
  refine ⟨_, rfl, ?_, ?_⟩
  · funext a
    simp only [node_ite_setFirst, node_setNext, node_setPrev, node_setNextOf, spliceChain, Option.some.injEq,
      eq_comm (b := a)]
    by_cases hn : a = last
    · subst hn
      simp [hne]
    · simp [hn]
  · simp only [setNext, setPrev, head_setNextOf]
    split <;> rfl

end Chain

/-! ## A call -/

/-- A call of one of the five functions. A chain is handed over by its first element `new`; `rest` are the others. -/
inductive Call (α : Type) where
  | prepend (new : α) (rest : List α)
  | append (new : α) (rest : List α)
  | addAfter (elem new : α) (rest : List α)
  | addBefore (elem new : α) (rest : List α)
  | remove (elem : α)
deriving DecidableEq

/-- A list with other elements in the place of one. -/
def replaceBy (l : List α) (elem : α) (block : List α) : List α :=
  l.flatMap fun a => if a = elem then block else [a]

namespace Call

/-- The new elements. -/
def inserted : Call α → List α
  | .prepend new rest | .append new rest | .addAfter _ new rest | .addBefore _ new rest => new :: rest
  | .remove _ => []

/-- The element a call is told where to work at. -/
def place : Call α → Option α
  | .prepend _ _ | .append _ _ => none
  | .addAfter elem _ _ | .addBefore elem _ _ | .remove elem => some elem

def run (d : Dlist α) (fuel : Nat) : Call α → Option (Dlist α)
  | .prepend new _ => Chain.basicDlistPrepend d fuel new
  | .append new _ => Chain.basicDlistAppend d fuel new
  | .addAfter elem new _ => Chain.basicDlistAddAfter d true fuel elem new
  | .addBefore elem new _ => Chain.basicDlistAddBefore d true fuel elem new
  | .remove elem => some (d.basicDlistRemove elem)

/-- The list there should be after a call. -/
def result (l : List α) : Call α → List α
  | .prepend new rest => new :: rest ++ l
  | .append new rest => l ++ new :: rest
  | .addAfter elem new rest => replaceBy l elem (elem :: new :: rest)
  | .addBefore elem new rest => replaceBy l elem (new :: rest ++ [elem])
  | .remove elem => replaceBy l elem []

/-- What a call is given: a chain of elements that are not in the list, and an element that is. -/
structure Valid (c : Call α) (d : Dlist α) (l : List α) : Prop where
  chain : d.IsChain c.inserted
  apart : l.Disjoint c.inserted
  place : ∀ elem, c.place = some elem → elem ∈ l

/-- **What a call has to do.** The list is as it should be, an element that left it points nowhere, and nobody else is
    touched. -/
structure Done (c : Call α) (d d' : Dlist α) (l : List α) : Prop where
  denotes : d'.Denotes (c.result l)
  removed : ∀ a ∈ l, a ∉ c.result l → d'.node a = {}
  others : ∀ a, a ∉ l → a ∉ c.result l → d'.node a = d.node a

/-- More than one element in front of a list that has some. -/
def Loses (c : Call α) (l : List α) : Prop := ∃ new rest, c = .prepend new rest ∧ rest ≠ [] ∧ l ≠ []

end Call

theorem replaceBy_split (hnodup : (xs ++ elem :: ys).Nodup) (block : List α) :
    replaceBy (xs ++ elem :: ys) elem block = xs ++ (block ++ ys) := by
  have hkeep : ∀ zs : List α, elem ∉ zs → (zs.flatMap fun a => if a = elem then block else [a]) = zs := by
    intro zs hz
    induction zs with
    | nil => rfl
    | cons z zs ih =>
        rw [List.mem_cons, not_or] at hz
        rw [List.flatMap_cons, if_neg (Ne.symm hz.1), ih hz.2]
        rfl
  obtain ⟨-, hey, hdisj⟩ := List.nodup_append.mp hnodup
  unfold replaceBy
  rw [List.flatMap_append, List.flatMap_cons, if_pos rfl,
    hkeep xs fun hx => hdisj elem hx elem List.mem_cons_self rfl, hkeep ys (List.nodup_cons.mp hey).1]

/-- An insertion that is a splice does what it has to. -/
theorem Call.done_of_splice {c : Call α} (h : d.Denotes (xs ++ ys)) (hv : c.Valid d (xs ++ ys))
    (hfirst : c.inserted.head? = some first) (hlast : c.inserted.getLast? = some last)
    (hresult : c.result (xs ++ ys) = xs ++ (c.inserted ++ ys)) :
    c.Done d (d.spliceChain xs.getLast? first last ys.head?) (xs ++ ys) := by
  refine ⟨?_, ?_, ?_⟩
  · rw [hresult]
    exact h.splice hv.chain hfirst hlast hv.apart
  · intro a ha hnot
    rw [hresult] at hnot
    apply absurd _ hnot
    rcases List.mem_append.mp ha with hx | hy
    · exact List.mem_append_left _ hx
    · exact List.mem_append_right _ (List.mem_append_right _ hy)
  · intro a ha hnot
    rw [hresult] at hnot
    apply spliceChain_out hfirst hlast ha
    intro hc
    exact hnot (List.mem_append_right _ (List.mem_append_left _ hc))

omit [DecidableEq α] in
/-- The last element of the chain of a call, as the loop finds it. -/
theorem Call.Valid.walk {c : Call α} {rest : List α} (hv : c.Valid d l) (hc : c.inserted = new :: rest) {fuel : Nat}
    (hfuel : rest.length < fuel) :
    ∃ last, c.inserted.head? = some new ∧ c.inserted.getLast? = some last ∧ d.lastOf fuel new = some last ∧
      (d.node new).prev = none ∧ (d.node last).next = none := by
  obtain ⟨last, hlast⟩ : ∃ last, (new :: rest).getLast? = some last :=
    ⟨_, List.getLast?_eq_some_getLast (List.cons_ne_nil _ _)⟩
  have hchain := hc ▸ hv.chain
  obtain ⟨hnew, hend⟩ := hchain.ends rfl hlast
  rw [hc]
  exact ⟨last, rfl, hlast, (lastOf_chain hchain.nexts hfuel).trans hlast, hnew, hend⟩

theorem Call.prepend_done {rest : List α} (h : d.Denotes l) (hv : (Call.prepend new rest).Valid d l) {fuel : Nat}
    (hfuel : rest.length < fuel) (hright : rest = [] ∨ l = []) :
    ∃ d', (Call.prepend new rest).run d fuel = some d' ∧ (Call.prepend new rest).Done d d' l := by
  obtain ⟨last, hfirst, hlast, hwalk, hnew, hend⟩ := hv.walk rfl hfuel
  have hone : l = [] ∨ last = new := by
    rcases hright with rfl | hl
    · exact .inr (Option.some.inj hlast.symm)
    · exact .inl hl
  refine ⟨_, Chain.basicDlistPrepend_eq h hwalk hnew hend hone, ?_⟩
  exact Call.done_of_splice (show d.Denotes ([] ++ l) from h) hv hfirst hlast rfl

/-- **What the chain had behind its first element is lost.** -/
theorem Call.prepend_not_done {rest : List α} (h : d.Denotes l) (hv : (Call.prepend new rest).Valid d l) {fuel : Nat}
    (hfuel : rest.length < fuel) (hrest : rest ≠ []) (hl : l ≠ []) :
    ∃ d', (Call.prepend new rest).run d fuel = some d' ∧ ¬(Call.prepend new rest).Done d d' l := by
  obtain ⟨last, -, -, hwalk, -, -⟩ := hv.walk rfl hfuel
  obtain ⟨c, l, rfl⟩ := List.exists_cons_of_ne_nil hl
  obtain ⟨b, rest, rfl⟩ := List.exists_cons_of_ne_nil hrest
  have hrun : Chain.basicDlistPrepend d fuel new =
      some (((d.setNext new (some c)).setPrev c (some last)).setFirst (some new)) := by
    unfold Chain.basicDlistPrepend
    rw [hwalk, h.first]
    rfl
  refine ⟨_, hrun, ?_⟩
  intro hdone
  -- the first element points to the old list, and should point to the second one of the chain
  have hnext := hdone.denotes.nexts.1
  have hold : (((d.setNext new (some c)).setPrev c (some last)).setFirst (some new)).node new =
      ((d.setNext new (some c)).setPrev c (some last)).node new := rfl
  rw [hold, node_setPrev, node_setNext, if_pos rfl] at hnext
  have hcb : c = b := Option.some.inj hnext
  exact hv.apart List.mem_cons_self (hcb ▸ List.mem_cons_of_mem _ List.mem_cons_self)

theorem Call.append_done {rest : List α} (h : d.Denotes l) (hv : (Call.append new rest).Valid d l) {fuel : Nat}
    (hfuel : rest.length < fuel) :
    ∃ d', (Call.append new rest).run d fuel = some d' ∧ (Call.append new rest).Done d d' l := by
  obtain ⟨last, hfirst, hlast, hwalk, hnew, hend⟩ := hv.walk rfl hfuel
  refine ⟨_, Chain.basicDlistAppend_eq h hwalk hnew hend, ?_⟩
  have hdone : (Call.append new rest).Done d (d.spliceChain l.getLast? new last ([] : List α).head?) (l ++ []) := by
    apply Call.done_of_splice _ _ hfirst hlast
    · simp [Call.result, Call.inserted]
    · rwa [List.append_nil]
    · rwa [List.append_nil]
  rwa [List.append_nil] at hdone

theorem Call.addAfter_done {rest : List α} (h : d.Denotes l) (hv : (Call.addAfter elem new rest).Valid d l) {fuel : Nat}
    (hfuel : rest.length < fuel) :
    ∃ d', (Call.addAfter elem new rest).run d fuel = some d' ∧ (Call.addAfter elem new rest).Done d d' l := by
  obtain ⟨last, hfirst, hlast, hwalk, -, -⟩ := hv.walk rfl hfuel
  obtain ⟨xs, ys, rfl⟩ := List.append_of_mem (hv.place elem rfl)
  have hafter : (d.node elem).next = ys.head? := by rw [h.toIsChain.node]
  have hne : ys.head? ≠ some new := by
    intro he
    refine hv.apart ?_ (List.mem_of_head? hfirst)
    exact List.mem_append_right _ (List.mem_cons_of_mem _ (List.mem_of_head? he))
  obtain ⟨d', hrun, hnode, hhead⟩ := Chain.basicDlistAddAfter_eq true hafter hwalk hne
  refine ⟨d', hrun, ?_⟩
  have hsplit : xs ++ elem :: ys = xs ++ [elem] ++ ys := by simp
  have hd' : d' = d.spliceChain (xs ++ [elem]).getLast? new last ys.head? := by
    have hend : d.head.prev = some elem ↔ ys.head? = none := by rw [h.last, getLast?_eq_iff h.nodup]
    rw [List.getLast?_concat]
    apply eq_of _ (congrFun hnode)
    rw [hhead]
    unfold spliceChain
    by_cases hy : ys.head? = none
    · simp [hend.mpr hy, hy]
    · simp [mt hend.mp hy, hy]
  have hresult : (Call.addAfter elem new rest).result (xs ++ elem :: ys) = xs ++ [elem] ++ (new :: rest ++ ys) :=
    (replaceBy_split h.nodup _).trans (by simp)
  rw [hsplit] at h hv hresult ⊢
  rw [hd']
  exact Call.done_of_splice h hv hfirst hlast hresult

theorem Call.addBefore_done {rest : List α} (h : d.Denotes l) (hv : (Call.addBefore elem new rest).Valid d l) {fuel : Nat}
    (hfuel : rest.length < fuel) :
    ∃ d', (Call.addBefore elem new rest).run d fuel = some d' ∧ (Call.addBefore elem new rest).Done d d' l := by
  obtain ⟨last, hfirst, hlast, hwalk, -, -⟩ := hv.walk rfl hfuel
  obtain ⟨xs, ys, rfl⟩ := List.append_of_mem (hv.place elem rfl)
  have hbefore : (d.node elem).prev = xs.getLast? := by rw [h.toIsChain.node]
  have hne : xs.getLast? ≠ some last := by
    intro he
    exact hv.apart (List.mem_append_left _ (List.mem_of_getLast? he)) (List.mem_of_getLast? hlast)
  obtain ⟨d', hrun, hnode, hhead⟩ := Chain.basicDlistAddBefore_eq true hbefore hwalk hne
  refine ⟨d', hrun, ?_⟩
  have hd' : d' = d.spliceChain xs.getLast? new last (elem :: ys).head? := by
    have hend : d.head.next = some elem ↔ xs.getLast? = none := by rw [h.first, head?_eq_iff h.nodup]
    apply eq_of _ (congrFun hnode)
    rw [hhead]
    unfold spliceChain
    by_cases hx : xs.getLast? = none
    · simp [hend.mpr hx, hx]
    · simp [mt hend.mp hx, hx]
  have hresult : (Call.addBefore elem new rest).result (xs ++ elem :: ys) = xs ++ (new :: rest ++ elem :: ys) :=
    (replaceBy_split h.nodup _).trans (by simp)
  rw [hd']
  exact Call.done_of_splice h hv hfirst hlast hresult

theorem Call.remove_done (h : d.Denotes l) (hmem : elem ∈ l) : (Call.remove elem).Done d (d.basicDlistRemove elem) l := by
  obtain ⟨xs, ys, rfl⟩ := List.append_of_mem hmem
  have he : d.basicDlistRemove elem = d.unlink xs.getLast? elem ys.head? := by
    apply basicDlistRemove_eq h.toIsChain.node
    · rw [h.first, head?_eq_iff h.nodup]
    · rw [h.last, getLast?_eq_iff h.nodup]
  have hresult : (Call.remove elem).result (xs ++ elem :: ys) = xs ++ ys := replaceBy_split h.nodup []
  rw [he]
  refine ⟨?_, ?_, ?_⟩
  · rw [hresult]
    exact h.unlink
  · intro a ha hnot
    rw [hresult] at hnot
    have hae : a = elem := by
      rw [List.mem_append, List.mem_cons] at ha
      rw [List.mem_append, not_or] at hnot
      rcases ha with hx | rfl | hy
      · exact absurd hx hnot.1
      · rfl
      · exact absurd hy hnot.2
    exact if_pos hae
  · intro a ha hnot
    have hx : xs.getLast? ≠ some a := fun hl => ha (List.mem_append_left _ (List.mem_of_getLast? hl))
    have hy : ys.head? ≠ some a := fun hh => ha (List.mem_append_right _ (List.mem_cons_of_mem _ (List.mem_of_head? hh)))
    have hae : a ≠ elem := fun hn => ha (hn ▸ hmem)
    unfold Dlist.unlink
    dsimp only
    rw [if_neg hae, if_neg hx, if_neg hy]

/-- **Lists keep being lists**, except when a chain of more than one element is put in front of a list that has some. -/
theorem dlist_calls_iff (h : d.Denotes l) {c : Call α} (hv : c.Valid d l) {fuel : Nat}
    (hfuel : c.inserted.length ≤ fuel) :
    ∃ d', c.run d fuel = some d' ∧ (c.Done d d' l ↔ ¬c.Loses l) := by
  have hright {d' : Dlist α} (hdone : c.Done d d' l) (hkeeps : ¬c.Loses l) : c.Done d d' l ↔ ¬c.Loses l :=
    ⟨fun _ => hkeeps, fun _ => hdone⟩
  cases c with
  | prepend new rest =>
      by_cases hloses : rest ≠ [] ∧ l ≠ []
      · obtain ⟨d', hrun, hnot⟩ := Call.prepend_not_done h hv hfuel hloses.1 hloses.2
        exact ⟨d', hrun, fun hdone => absurd hdone hnot, fun hno => absurd ⟨new, rest, rfl, hloses⟩ hno⟩
      · obtain ⟨d', hrun, hdone⟩ := Call.prepend_done h hv hfuel (by tauto)
        refine ⟨d', hrun, hright hdone ?_⟩
        rintro ⟨new', rest', he, hne⟩
        obtain ⟨-, rfl⟩ := Call.prepend.inj he
        exact hloses hne
  | append new rest =>
      obtain ⟨d', hrun, hdone⟩ := Call.append_done h hv hfuel
      exact ⟨d', hrun, hright hdone (by rintro ⟨_, _, he, -⟩; cases he)⟩
  | addAfter elem new rest =>
      obtain ⟨d', hrun, hdone⟩ := Call.addAfter_done h hv hfuel
      exact ⟨d', hrun, hright hdone (by rintro ⟨_, _, he, -⟩; cases he)⟩
  | addBefore elem new rest =>
      obtain ⟨d', hrun, hdone⟩ := Call.addBefore_done h hv hfuel
      exact ⟨d', hrun, hright hdone (by rintro ⟨_, _, he, -⟩; cases he)⟩
  | remove elem =>
      exact ⟨_, rfl, hright (Call.remove_done h (hv.place elem rfl)) (by rintro ⟨_, _, he, -⟩; cases he)⟩

/-- A list of one element, and a chain of two. -/
def sampleDlist : Dlist Nat where
  head := ⟨some 0, some 0⟩
  node a := if a = 1 then ⟨some 2, none⟩ else if a = 2 then ⟨none, some 1⟩ else {}

theorem sampleDlist_denotes : sampleDlist.Denotes [0] := by
  refine ⟨⟨List.nodup_singleton 0, ⟨rfl, trivial⟩, ⟨rfl, trivial⟩⟩, rfl, rfl⟩

theorem sampleDlist_chain : sampleDlist.IsChain [1, 2] := by
  refine ⟨by decide, ⟨rfl, rfl, trivial⟩, ⟨rfl, rfl, trivial⟩⟩

theorem sampleDlist_apart : [0].Disjoint [1, 2] := by
  intro a ha hc
  obtain rfl := List.mem_singleton.mp ha
  exact absurd hc (by decide)

theorem dlist_calls_append :
    ∃ d', (Call.append 1 [2]).run sampleDlist 2 = some d' ∧
      ((Call.append 1 [2]).Done sampleDlist d' [0] ↔ ¬(Call.append 1 [2]).Loses [0]) := by
  have hvalid : (Call.append 1 [2]).Valid sampleDlist [0] := ⟨sampleDlist_chain, sampleDlist_apart, by simp [Call.place]⟩
  exact dlist_calls_iff sampleDlist_denotes hvalid (Nat.le_refl 2)

/-- **A chain of two in front of a list of one.** The second element of the chain is gone. -/
theorem dlist_prepend_loses : ¬ ∀ (d : Dlist Nat) (l : List Nat) (c : Call Nat) (fuel : Nat), d.Denotes l → c.Valid d l →
    c.inserted.length ≤ fuel → ∃ d', c.run d fuel = some d' ∧ c.Done d d' l := by
  intro hall
  have hvalid : (Call.prepend 1 [2]).Valid sampleDlist [0] :=
    ⟨sampleDlist_chain, sampleDlist_apart, by simp [Call.place]⟩
  obtain ⟨d', hrun, hdone⟩ := hall sampleDlist [0] (.prepend 1 [2]) 2 sampleDlist_denotes hvalid (Nat.le_refl 2)
  obtain ⟨d'', hrun', hnot⟩ :=
    Call.prepend_not_done sampleDlist_denotes hvalid (Nat.lt_succ_self 1) (List.cons_ne_nil 2 []) (List.cons_ne_nil 0 [])
  obtain rfl := Option.some.inj (hrun.symm.trans hrun')
  exact hnot hdone

/-! ## Without a head, and with one element -/

omit [DecidableEq α] in
theorem IsChain.of_node {d' : Dlist α} (h : d.IsChain chain) (hnode : d'.node = d.node) : d'.IsChain chain := by
  refine ⟨h.nodup, h.nexts.congr fun a _ => ?_, h.prevs.congr fun a _ => ?_⟩
  · rw [hnode]
  · unfold flip
    dsimp only
    rw [hnode]

/-- **Chains grow in the same way**, where no list is given. -/
theorem IsChain.addAfter {rest : List α} (h : d.IsChain (xs ++ elem :: ys)) (hc : d.IsChain (new :: rest))
    (hapart : (xs ++ elem :: ys).Disjoint (new :: rest)) {fuel : Nat} (hfuel : rest.length < fuel) :
    ∃ d', Chain.basicDlistAddAfter d false fuel elem new = some d' ∧
      d'.IsChain (xs ++ elem :: (new :: rest ++ ys)) ∧ d'.head = d.head := by
  obtain ⟨last, hlast⟩ : ∃ last, (new :: rest).getLast? = some last :=
    ⟨_, List.getLast?_eq_some_getLast (List.cons_ne_nil _ _)⟩
  have hafter : (d.node elem).next = ys.head? := by rw [h.node]
  have hne : ys.head? ≠ some new := by
    intro he
    refine hapart ?_ List.mem_cons_self
    exact List.mem_append_right _ (List.mem_cons_of_mem _ (List.mem_of_head? he))
  obtain ⟨d', hrun, hnode, hhead⟩ :=
    Chain.basicDlistAddAfter_eq false hafter ((lastOf_chain hc.nexts hfuel).trans hlast) hne
  refine ⟨d', hrun, ?_, hhead.trans (if_neg (by simp))⟩
  have hsplit : xs ++ elem :: ys = xs ++ [elem] ++ ys := by simp
  rw [hsplit] at h hapart
  have hchain := h.splice hc rfl hlast hapart
  rw [List.getLast?_concat] at hchain
  have hresult : xs ++ elem :: (new :: rest ++ ys) = xs ++ [elem] ++ (new :: rest ++ ys) := by simp
  rw [hresult]
  exact hchain.of_node hnode

omit [DecidableEq α] in
/-- The loop stops at once at an element that points nowhere. -/
theorem lastOf_single {fuel : Nat} (h : (d.node new).next = none) : d.lastOf (fuel + 1) new = some new := by
  rw [lastOf, h]

/-- **One element is inserted as in a list of single elements.** -/
theorem Chain.single {fuel : Nat} (h : (d.node new).next = none) :
    Chain.basicDlistPrepend d (fuel + 1) new = some (d.basicDlistPrepend new) ∧
    Chain.basicDlistAppend d (fuel + 1) new = some (d.basicDlistAppend new) ∧
    Chain.basicDlistAddAfter d true (fuel + 1) elem new = some (d.basicDlistAddAfter elem new) ∧
    Chain.basicDlistAddBefore d true (fuel + 1) elem new = some (d.basicDlistAddBefore elem new) := by
  refine ⟨?_, ?_, ?_, ?_⟩
  · rw [Chain.basicDlistPrepend, lastOf_single h]
    rfl
  · rw [Chain.basicDlistAppend, lastOf_single h]
    rfl
  · simp [Chain.basicDlistAddAfter, lastOf_single h, Dlist.basicDlistAddAfter]
  · simp [Chain.basicDlistAddBefore, lastOf_single h, Dlist.basicDlistAddBefore]

end Dlist
end Hin9
