import Mathlib

/-!
# `Basic.Dlist` — doubly linked lists (`basic_lists.c`)

An element carries its two pointers itself, and the head of a list points to its first and its last element; the outer
pointers of these two are `NULL`, not the head. `Linked d l` says that the pointers of `d` are those of the list `l`,
and that no element outside of it points anywhere.

Every insertion is a `splice` between two neighbours, and `Linked.splice` and `Linked.unlink` are the only two facts
about pointers.
-/

namespace Hin9

/-- `basic_dlist_t`. -/
structure Links (α : Type) where
  next : Option α := none
  prev : Option α := none
deriving Repr, DecidableEq

/-- The head of a list, and the pointers in the elements. -/
structure Dlist (α : Type) where
  head : Links α := {}
  node : α → Links α := fun _ => {}

namespace Dlist

variable {α : Type} [DecidableEq α] (d : Dlist α)

def setNext (a : α) (n : Option α) : Dlist α := { d with node := Function.update d.node a { d.node a with next := n } }

def setPrev (a : α) (p : Option α) : Dlist α := { d with node := Function.update d.node a { d.node a with prev := p } }

/-- `->next = n`, where the pointer is not `NULL`. -/
def setNextOf (p : Option α) (n : Option α) : Dlist α :=
  match p with
  | none => d
  | some a => d.setNext a n

def setPrevOf (n : Option α) (p : Option α) : Dlist α :=
  match n with
  | none => d
  | some a => d.setPrev a p

def setFirst (n : Option α) : Dlist α := { d with head := { d.head with next := n } }

def setLast (p : Option α) : Dlist α := { d with head := { d.head with prev := p } }

/-! ## The operations

What is inserted is a single element, which is its own last one. -/

def basicDlistPrepend (new : α) : Dlist α :=
  match d.head.next with
  | none => (d.setFirst (some new)).setLast (some new)
  | some first => ((d.setNext new (some first)).setPrev first (some new)).setFirst (some new)

def basicDlistAppend (new : α) : Dlist α :=
  match d.head.next with
  | none => (d.setFirst (some new)).setLast (some new)
  | some _ => ((d.setPrev new d.head.prev).setNextOf d.head.prev (some new)).setLast (some new)

def basicDlistAddAfter (elem new : α) : Dlist α :=
  let after := (d.node elem).next
  let d := ((d.setNext new after).setPrevOf after (some new)).setPrev new (some elem)
  let d := d.setNext elem (some new)
  if d.head.prev = some elem then d.setLast (some new) else d

def basicDlistAddBefore (elem new : α) : Dlist α :=
  let before := (d.node elem).prev
  let d := ((d.setPrev new before).setNextOf before (some new)).setNext new (some elem)
  let d := d.setPrev elem (some new)
  if d.head.next = some elem then d.setFirst (some new) else d

def basicDlistRemove (new : α) : Dlist α :=
  let links := d.node new
  let d := if d.head.next = some new then d.setFirst links.next else d
  let d := if d.head.prev = some new then d.setLast links.prev else d
  let d := (d.setPrevOf links.next links.prev).setNextOf links.prev links.next
  (d.setNext new none).setPrev new none

/-! ## Lists of elements -/

/-- The pointers are those of the list `l`. -/
structure Linked (l : List α) : Prop where
  nodup : l.Nodup
  first : d.head.next = l.head?
  last : d.head.prev = l.getLast?
  node : ∀ xs a ys, l = xs ++ a :: ys → d.node a = ⟨ys.head?, xs.getLast?⟩
  out : ∀ a, a ∉ l → d.node a = {}

/-- An element between its neighbours, or at the end where there is none. -/
def splice (before : Option α) (new : α) (after : Option α) : Dlist α where
  head := ⟨if before = none then some new else d.head.next, if after = none then some new else d.head.prev⟩
  node a :=
    if a = new then ⟨after, before⟩
    else ⟨if before = some a then some new else (d.node a).next, if after = some a then some new else (d.node a).prev⟩

/-- The neighbours of an element point to each other. -/
def unlink (before : Option α) (new : α) (after : Option α) : Dlist α where
  head := ⟨if before = none then after else d.head.next, if after = none then before else d.head.prev⟩
  node a :=
    if a = new then {}
    else ⟨if before = some a then after else (d.node a).next, if after = some a then before else (d.node a).prev⟩

variable {d} {l xs ys : List α} {new elem : α}

theorem Linked.empty : Linked ({} : Dlist α) [] := by
  refine ⟨List.nodup_nil, rfl, rfl, ?_, fun _ _ => rfl⟩
  intro xs a ys h
  exact absurd h.symm (by simp)

/-- An element with one in front of it is not the first. -/
theorem head?_ne_of_nodup {c a : α} {as vs : List α} (h : (c :: as ++ a :: vs).Nodup) :
    (c :: as ++ a :: vs).head? ≠ some a := by
  intro hh
  have hc : c = a := by simpa using hh
  rw [List.cons_append, List.nodup_cons] at h
  apply h.1
  rw [hc]
  exact List.mem_append_right _ List.mem_cons_self

/-- An element with one behind it is not the last. -/
theorem getLast?_ne_of_nodup {c a : α} {us bs : List α} (h : (us ++ a :: c :: bs).Nodup) :
    (us ++ a :: c :: bs).getLast? ≠ some a := by
  intro hl
  rw [List.getLast?_append_of_ne_nil _ (List.cons_ne_nil _ _), List.getLast?_cons_cons] at hl
  have hnd := (List.nodup_append.mp h).2.1
  rw [List.nodup_cons] at hnd
  exact hnd.1 (List.mem_of_getLast? hl)

/-- The head points to an element from the ends of the list only. -/
theorem head?_eq_iff (h : (xs ++ elem :: ys).Nodup) : (xs ++ elem :: ys).head? = some elem ↔ xs.getLast? = none := by
  cases xs with
  | nil => simp
  | cons x xs => simpa using head?_ne_of_nodup h

theorem getLast?_eq_iff (h : (xs ++ elem :: ys).Nodup) : (xs ++ elem :: ys).getLast? = some elem ↔ ys.head? = none := by
  cases ys with
  | nil => simp
  | cons y ys => simpa using getLast?_ne_of_nodup h

/-- **An element is put between two parts of a list.** -/
theorem Linked.splice (h : d.Linked (xs ++ ys)) (hnew : new ∉ xs ++ ys) :
    (d.splice xs.getLast? new ys.head?).Linked (xs ++ new :: ys) := by
  have hnodup := List.nodup_append.mp h.nodup
  have hx : new ∉ xs := fun hm => hnew (List.mem_append_left _ hm)
  have hy : new ∉ ys := fun hm => hnew (List.mem_append_right _ hm)
  refine ⟨?_, ?_, ?_, ?_, ?_⟩
  · have hperm : (xs ++ new :: ys).Perm (new :: (xs ++ ys)) := List.perm_middle
    rw [hperm.nodup_iff, List.nodup_cons]
    exact ⟨hnew, h.nodup⟩
  · unfold Dlist.splice
    dsimp only
    cases xs with
    | nil => rfl
    | cons x xs =>
        rw [if_neg (by simp), h.first]
        rfl
  · unfold Dlist.splice
    dsimp only
    rw [List.getLast?_append_of_ne_nil _ (List.cons_ne_nil _ _)]
    cases ys with
    | nil => rfl
    | cons y ys =>
        rw [if_neg (by simp), h.last, List.getLast?_append_of_ne_nil _ (List.cons_ne_nil _ _), List.getLast?_cons_cons]
  · intro us a vs hsplit
    unfold Dlist.splice
    dsimp only
    rcases List.append_eq_append_iff.mp hsplit with ⟨as, rfl, hrest⟩ | ⟨bs, rfl, hrest⟩
    · cases as with
      | nil =>
          obtain ⟨rfl, rfl⟩ := List.cons.inj hrest
          rw [if_pos rfl, List.append_nil]
      | cons b as =>
          -- the element stands behind the new one
          obtain ⟨rfl, rfl⟩ := List.cons.inj hrest
          have hne : a ≠ new := by
            rintro rfl
            exact hy (by simp)
          have hbefore : xs.getLast? ≠ some a := by
            intro hl
            exact hnodup.2.2 a (List.mem_of_getLast? hl) a (by simp) rfl
          have hnode := h.node (xs ++ as) a vs (by simp)
          rw [if_neg hne, if_neg hbefore, hnode]
          congr 1
          rw [List.getLast?_append_of_ne_nil _ (List.cons_ne_nil _ _)]
          cases as with
          | nil => exact if_pos rfl
          | cons c as =>
              have hafter : ((c :: as) ++ a :: vs).head? ≠ some a := head?_ne_of_nodup hnodup.2.1
              refine (if_neg hafter).trans ?_
              rw [List.getLast?_append_of_ne_nil _ (List.cons_ne_nil _ _), List.getLast?_cons_cons]
    · cases bs with
      | nil =>
          obtain ⟨rfl, rfl⟩ := List.cons.inj hrest
          rw [if_pos rfl, List.append_nil]
      | cons b bs =>
          -- the element stands in front of the new one
          obtain ⟨rfl, rfl⟩ := List.cons.inj hrest
          have hne : a ≠ new := by
            rintro rfl
            exact hx (by simp)
          have hafter : ys.head? ≠ some a := by
            intro hh
            exact hnodup.2.2 a (by simp) a (List.mem_of_head? hh) rfl
          have hnode := h.node us a (bs ++ ys) (by simp)
          rw [if_neg hne, if_neg hafter, hnode]
          congr 1
          cases bs with
          | nil =>
              rw [if_pos (by simp)]
              rfl
          | cons c bs =>
              have hbefore : (us ++ a :: c :: bs).getLast? ≠ some a := getLast?_ne_of_nodup hnodup.1
              rw [if_neg hbefore]
              rfl
  · intro a ha
    have hne : a ≠ new := by
      rintro rfl
      exact ha (by simp)
    have hax : a ∉ xs := fun hm => ha (List.mem_append_left _ hm)
    have hay : a ∉ ys := fun hm => ha (List.mem_append_right _ (List.mem_cons_of_mem _ hm))
    unfold Dlist.splice
    dsimp only
    rw [if_neg hne, if_neg fun hl => hax (List.mem_of_getLast? hl), if_neg fun hh => hay (List.mem_of_head? hh),
      h.out a fun hm => (List.mem_append.mp hm).elim hax hay]

/-- **An element is taken out of a list.** -/
theorem Linked.unlink (h : d.Linked (xs ++ new :: ys)) : (d.unlink xs.getLast? new ys.head?).Linked (xs ++ ys) := by
  have hperm : (xs ++ new :: ys).Perm (new :: (xs ++ ys)) := List.perm_middle
  obtain ⟨hnew, hnd⟩ := List.nodup_cons.mp (hperm.nodup_iff.mp h.nodup)
  have hnodup := List.nodup_append.mp hnd
  refine ⟨hnd, ?_, ?_, ?_, ?_⟩
  · unfold Dlist.unlink
    dsimp only
    cases xs with
    | nil => rfl
    | cons x xs =>
        rw [if_neg (by simp), h.first]
        rfl
  · unfold Dlist.unlink
    dsimp only
    cases ys with
    | nil =>
        rw [List.append_nil]
        exact if_pos rfl
    | cons y ys =>
        rw [if_neg (by simp), h.last, List.getLast?_append_of_ne_nil _ (List.cons_ne_nil _ _),
          List.getLast?_append_of_ne_nil _ (List.cons_ne_nil _ _), List.getLast?_cons_cons]
  · intro us a vs hsplit
    have hmem : a ∈ xs ++ ys := by
      rw [hsplit]
      simp
    have hne : a ≠ new := fun he => hnew (he ▸ hmem)
    unfold Dlist.unlink
    dsimp only
    rw [if_neg hne]
    rcases List.append_eq_append_iff.mp hsplit with ⟨as, rfl, rfl⟩ | ⟨bs, rfl, hrest⟩
    · -- the element stands behind the one that goes
      have hbefore : xs.getLast? ≠ some a := by
        intro hl
        exact hnodup.2.2 a (List.mem_of_getLast? hl) a (by simp) rfl
      have hnode := h.node (xs ++ new :: as) a vs (by simp)
      rw [if_neg hbefore, hnode]
      congr 1
      cases as with
      | nil =>
          rw [List.append_nil]
          exact if_pos rfl
      | cons c as =>
          have hafter : ((c :: as) ++ a :: vs).head? ≠ some a := head?_ne_of_nodup hnodup.2.1
          rw [if_neg hafter, List.getLast?_append_of_ne_nil _ (List.cons_ne_nil _ _),
            List.getLast?_append_of_ne_nil _ (List.cons_ne_nil _ _), List.getLast?_cons_cons]
    · cases bs with
      | nil =>
          rw [List.nil_append] at hrest
          subst hrest
          have hbefore : (us ++ []).getLast? ≠ some a := by
            intro hl
            exact hnodup.2.2 a (List.mem_of_getLast? hl) a (by simp) rfl
          have hnode := h.node (us ++ [] ++ [new]) a vs (by simp)
          rw [if_neg hbefore, hnode]
          congr 1
          rw [List.append_nil]
          exact if_pos rfl
      | cons b bs =>
          -- the element stands in front of the one that goes
          obtain ⟨rfl, rfl⟩ := List.cons.inj hrest
          have hafter : ys.head? ≠ some a := by
            intro hh
            exact hnodup.2.2 a (by simp) a (List.mem_of_head? hh) rfl
          have hnode := h.node us a (bs ++ new :: ys) (by simp)
          rw [if_neg hafter, hnode]
          congr 1
          cases bs with
          | nil =>
              rw [if_pos (by simp)]
              rfl
          | cons c bs =>
              have hbefore : (us ++ a :: c :: bs).getLast? ≠ some a := getLast?_ne_of_nodup hnodup.1
              rw [if_neg hbefore]
              rfl
  · intro a ha
    unfold Dlist.unlink
    dsimp only
    by_cases he : a = new
    · rw [if_pos he]
    · have hax : a ∉ xs := fun hm => ha (List.mem_append_left _ hm)
      have hay : a ∉ ys := fun hm => ha (List.mem_append_right _ hm)
      have hout : a ∉ xs ++ new :: ys := by
        simp only [List.mem_append, List.mem_cons, not_or]
        exact ⟨hax, he, hay⟩
      rw [if_neg he, if_neg fun hl => hax (List.mem_of_getLast? hl), if_neg fun hh => hay (List.mem_of_head? hh),
        h.out a hout]

/-! ## What the operations do to a list -/

section Pointers

variable (d)

theorem node_setNext (a b : α) (n : Option α) :
    (d.setNext a n).node b = ⟨if a = b then n else (d.node b).next, (d.node b).prev⟩ := by
  by_cases h : b = a
  · subst h
    simp [setNext]
  · simp [setNext, Function.update_of_ne h, Ne.symm h]

theorem node_setPrev (a b : α) (n : Option α) :
    (d.setPrev a n).node b = ⟨(d.node b).next, if a = b then n else (d.node b).prev⟩ := by
  by_cases h : b = a
  · subst h
    simp [setPrev]
  · simp [setPrev, Function.update_of_ne h, Ne.symm h]

theorem node_setNextOf (p n : Option α) (b : α) :
    (d.setNextOf p n).node b = ⟨if p = some b then n else (d.node b).next, (d.node b).prev⟩ := by
  cases p with
  | none => rfl
  | some a =>
      rw [setNextOf, node_setNext]
      simp only [Option.some.injEq]

theorem node_setPrevOf (p n : Option α) (b : α) :
    (d.setPrevOf p n).node b = ⟨(d.node b).next, if p = some b then n else (d.node b).prev⟩ := by
  cases p with
  | none => rfl
  | some a =>
      rw [setPrevOf, node_setPrev]
      simp only [Option.some.injEq]

theorem head_setNextOf (p n : Option α) : (d.setNextOf p n).head = d.head := by
  cases p <;> rfl

theorem head_setPrevOf (p n : Option α) : (d.setPrevOf p n).head = d.head := by
  cases p <;> rfl

theorem node_ite_setFirst (p : Prop) [Decidable p] (n : Option α) : (if p then d.setFirst n else d).node = d.node := by
  split <;> rfl

theorem node_ite_setLast (p : Prop) [Decidable p] (n : Option α) : (if p then d.setLast n else d).node = d.node := by
  split <;> rfl

end Pointers

/-- What every operation comes down to: the head and all the elements are the same. -/
theorem eq_of {d d' : Dlist α} (hhead : d.head = d'.head) (hnode : ∀ a, d.node a = d'.node a) : d = d' := by
  cases d
  cases d'
  simp only [mk.injEq]
  exact ⟨hhead, funext hnode⟩

theorem Linked.append (h : d.Linked l) (hnew : new ∉ l) : (d.basicDlistAppend new).Linked (l ++ [new]) := by
  have hs : (d.splice l.getLast? new ([] : List α).head?).Linked (l ++ [new]) :=
    Linked.splice (by simpa using h) (by simpa using hnew)
  have he : d.basicDlistAppend new = d.splice l.getLast? new none := by
    unfold basicDlistAppend
    rw [h.first, h.last]
    have hout := h.out new hnew
    cases l with
    | nil =>
        apply eq_of
        · rfl
        · intro a
          have ha := h.out a (List.not_mem_nil)
          by_cases hne : a = new <;> simp [setFirst, setLast, Dlist.splice, hne, ha, hout]
    | cons c l =>
        apply eq_of
        · simp [setLast, head_setNextOf, setPrev, Dlist.splice]
        · intro a
          by_cases hne : a = new
          · subst hne
            have hlast : (c :: l).getLast? ≠ some a := fun hl => hnew (List.mem_of_getLast? hl)
            simp [setLast, node_setNextOf, node_setPrev, Dlist.splice, hlast, hout]
          · simp [setLast, node_setNextOf, node_setPrev, Dlist.splice, hne, Ne.symm hne]
  rw [he]
  exact hs

theorem Linked.prepend (h : d.Linked l) (hnew : new ∉ l) : (d.basicDlistPrepend new).Linked (new :: l) := by
  have hs : (d.splice ([] : List α).getLast? new l.head?).Linked ([] ++ new :: l) := Linked.splice h hnew
  have he : d.basicDlistPrepend new = d.splice none new l.head? := by
    unfold basicDlistPrepend
    rw [h.first]
    have hout := h.out new hnew
    cases l with
    | nil =>
        apply eq_of
        · rfl
        · intro a
          have ha := h.out a (List.not_mem_nil)
          by_cases hne : a = new <;> simp [setFirst, setLast, Dlist.splice, hne, ha, hout]
    | cons c l =>
        have hc : new ≠ c := fun he => hnew (by simp [he])
        apply eq_of
        · simp [setFirst, setPrev, setNext, Dlist.splice]
        · intro a
          by_cases hne : a = new
          · subst hne
            simp [setFirst, node_setNext, node_setPrev, Dlist.splice, hc.symm, hout]
          · simp [setFirst, node_setNext, node_setPrev, Dlist.splice, hne, Ne.symm hne]
  rw [he]
  exact hs

theorem Linked.addAfter (h : d.Linked (xs ++ elem :: ys)) (hnew : new ∉ xs ++ elem :: ys) :
    (d.basicDlistAddAfter elem new).Linked (xs ++ elem :: new :: ys) := by
  have hs : (d.splice (xs ++ [elem]).getLast? new ys.head?).Linked ((xs ++ [elem]) ++ new :: ys) :=
    Linked.splice (by simpa using h) (by simpa using hnew)
  have hnode := h.node xs elem ys rfl
  have hne : elem ≠ new := fun he => hnew (by simp [he])
  have hlast : d.head.prev = some elem ↔ ys.head? = none := by
    rw [h.last, getLast?_eq_iff h.nodup]
  have hy : ys.head? ≠ some new := fun hh => hnew (by simp [List.mem_of_head? hh])
  have he : d.basicDlistAddAfter elem new = d.splice (some elem) new ys.head? := by
    have hafter : (d.node elem).next = ys.head? := by rw [hnode]
    unfold basicDlistAddAfter
    rw [hafter]
    dsimp only
    apply eq_of
    · by_cases hl : d.head.prev = some elem
      · simp [setNext, setPrev, head_setPrevOf, hl, hlast.mp hl, setLast, Dlist.splice]
      · have hnone : ys.head? ≠ none := fun hn => hl (hlast.mpr hn)
        simp [setNext, setPrev, head_setPrevOf, hl, Dlist.splice, hnone]
    · intro a
      simp only [node_ite_setLast, node_setNext, node_setPrev, node_setPrevOf, Dlist.splice, Option.some.injEq]
      by_cases hn : a = new
      · subst hn
        simp [hne]
      · simp [hn, Ne.symm hn]
  rw [he]
  simpa using hs

theorem Linked.addBefore (h : d.Linked (xs ++ elem :: ys)) (hnew : new ∉ xs ++ elem :: ys) :
    (d.basicDlistAddBefore elem new).Linked (xs ++ new :: elem :: ys) := by
  have hs : (d.splice xs.getLast? new (elem :: ys).head?).Linked (xs ++ new :: elem :: ys) := Linked.splice h hnew
  have hnode := h.node xs elem ys rfl
  have hne : elem ≠ new := fun he => hnew (by simp [he])
  have hfirst : d.head.next = some elem ↔ xs.getLast? = none := by
    rw [h.first, head?_eq_iff h.nodup]
  have he : d.basicDlistAddBefore elem new = d.splice xs.getLast? new (some elem) := by
    have hbefore : (d.node elem).prev = xs.getLast? := by rw [hnode]
    unfold basicDlistAddBefore
    rw [hbefore]
    dsimp only
    apply eq_of
    · by_cases hf : d.head.next = some elem
      · simp [setNext, setPrev, head_setNextOf, hf, hfirst.mp hf, setFirst, Dlist.splice]
      · have hnone : xs.getLast? ≠ none := fun hn => hf (hfirst.mpr hn)
        simp [setNext, setPrev, head_setNextOf, hf, Dlist.splice, hnone]
    · intro a
      simp only [node_ite_setFirst, node_setNext, node_setPrev, node_setNextOf, Dlist.splice, Option.some.injEq]
      by_cases hn : a = new
      · subst hn
        simp [hne]
      · simp [hn, Ne.symm hn]
  rw [he]
  exact hs

/-- An element between its neighbours, with the head pointing to it from the ends that are its own, is unlinked. -/
theorem basicDlistRemove_eq {before after : Option α} (hnode : d.node new = ⟨after, before⟩)
    (hfirst : d.head.next = some new ↔ before = none) (hlast : d.head.prev = some new ↔ after = none) :
    d.basicDlistRemove new = d.unlink before new after := by
  unfold basicDlistRemove
  rw [hnode]
  dsimp only
  apply eq_of
  · simp only [setNext, setPrev, head_setNextOf, head_setPrevOf, Dlist.unlink]
    by_cases hf : d.head.next = some new
    · by_cases hl : d.head.prev = some new
      · simp [hf, hl, hfirst.mp hf, hlast.mp hl, setFirst, setLast]
      · have hnone : after ≠ none := fun hn => hl (hlast.mpr hn)
        simp [hf, hl, hfirst.mp hf, hnone, setFirst]
    · have hxs : before ≠ none := fun hn => hf (hfirst.mpr hn)
      by_cases hl : d.head.prev = some new
      · simp [hf, hl, hxs, hlast.mp hl, setLast]
      · have hnone : after ≠ none := fun hn => hl (hlast.mpr hn)
        simp [hf, hl, hxs, hnone]
  · intro a
    simp only [node_setNext, node_setPrev, node_setNextOf, node_setPrevOf, node_ite_setFirst, node_ite_setLast,
      Dlist.unlink]
    by_cases hn : a = new
    · simp [hn]
    · simp [hn, Ne.symm hn]

theorem Linked.remove (h : d.Linked (xs ++ new :: ys)) : (d.basicDlistRemove new).Linked (xs ++ ys) := by
  have he : d.basicDlistRemove new = d.unlink xs.getLast? new ys.head? := by
    apply basicDlistRemove_eq (h.node xs new ys rfl)
    · rw [h.first, head?_eq_iff h.nodup]
    · rw [h.last, getLast?_eq_iff h.nodup]
  rw [he]
  exact h.unlink

/-- To remove an element that is not in the list changes nothing. -/
theorem Linked.remove_out (h : d.Linked l) (hnew : new ∉ l) : d.basicDlistRemove new = d := by
  have hfirst : d.head.next ≠ some new := fun hh => hnew (List.mem_of_head? (h.first ▸ hh))
  have hlast : d.head.prev ≠ some new := fun hl => hnew (List.mem_of_getLast? (h.last ▸ hl))
  unfold basicDlistRemove
  rw [h.out new hnew]
  dsimp only
  rw [if_neg hfirst, if_neg hlast]
  apply eq_of
  · rfl
  · intro a
    by_cases hn : a = new
    · subst hn
      simp [node_setNext, node_setPrev, setNextOf, setPrevOf, h.out a hnew]
    · simp [node_setNext, node_setPrev, setNextOf, setPrevOf, Ne.symm hn]

end Dlist
end Hin9
