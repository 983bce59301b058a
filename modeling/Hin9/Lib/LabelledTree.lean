import Mathlib

/-!
# `Lib.LabelledTree` — paths of labels in a tree

A tree is given by its edges: `child p l n` says that `n` is the child of `p` under the label `l`. `Walk`
follows a list of labels down from a node. Three properties of the edges are all a lookup structure needs:

* `Deterministic` — a node has at most one child under a label;
* `UniqueParent` — a node is the child of at most one node, under one label;
* `IsRoot` — the root is the child of none.

With them the list of labels that leads from the root to a node is unique (`Walk.labels_unique`), and "below"
is the same as "the label list extends" (`Walk.below_iff_prefix`).
-/

namespace Hin9.Lib

variable {α L : Type}

/-- `Walk child a ls b`: following the labels `ls` from `a` leads to `b`. -/
inductive Walk (child : α → L → α → Prop) : α → List L → α → Prop where
  | nil {a : α} : Walk child a [] a
  | cons {a b c : α} {l : L} {ls : List L} : child a l b → Walk child b ls c → Walk child a (l :: ls) c

/-- `b` is `a` itself or a descendant of `a`. -/
def Below (child : α → L → α → Prop) (a b : α) : Prop := ∃ ls, Walk child a ls b

def Deterministic (child : α → L → α → Prop) : Prop := ∀ p l n n', child p l n → child p l n' → n = n'

def UniqueParent (child : α → L → α → Prop) : Prop :=
  ∀ p p' l l' n, child p l n → child p' l' n → p = p' ∧ l = l'

def IsRoot (child : α → L → α → Prop) (root : α) : Prop := ∀ p l, ¬ child p l root

variable {child : α → L → α → Prop}

theorem Walk.append {a b c : α} {ls ks : List L} (h : Walk child a ls b) (h' : Walk child b ks c) :
    Walk child a (ls ++ ks) c := by
  induction h with
  | nil => exact h'
  | cons he _ ih => exact .cons he (ih h')

theorem Walk.snoc {a b c : α} {ls : List L} {l : L} (h : Walk child a ls b) (he : child b l c) :
    Walk child a (ls ++ [l]) c :=
  h.append (.cons he .nil)

theorem Below.trans {a b c : α} (h : Below child a b) (h' : Below child b c) : Below child a c := by
  obtain ⟨ls, hl⟩ := h
  obtain ⟨ks, hk⟩ := h'
  exact ⟨ls ++ ks, hl.append hk⟩

/-- A walk along an appended list passes through a middle node. -/
theorem Walk.split {a c : α} {ls ks : List L} (h : Walk child a (ls ++ ks) c) :
    ∃ b, Walk child a ls b ∧ Walk child b ks c := by
  induction ls generalizing a with
  | nil => exact ⟨a, .nil, h⟩
  | cons l ls ih =>
      cases h with
      | cons he hw =>
          obtain ⟨b, h1, h2⟩ := ih hw
          exact ⟨b, .cons he h1, h2⟩

/-- The last edge of a non-empty walk. -/
theorem Walk.last {a c : α} {ls : List L} {l : L} (h : Walk child a (ls ++ [l]) c) :
    ∃ b, Walk child a ls b ∧ child b l c := by
  obtain ⟨b, h1, h2⟩ := h.split
  cases h2 with
  | cons he hn => cases hn; exact ⟨b, h1, he⟩

/-- More edges, more walks. -/
theorem Walk.mono {child' : α → L → α → Prop} (hsub : ∀ p l n, child p l n → child' p l n)
    {a b : α} {ls : List L} (h : Walk child a ls b) : Walk child' a ls b := by
  induction h with
  | nil => exact .nil
  | cons he _ ih => exact .cons (hsub _ _ _ he) ih

/-- The node a walk ends in is determined by its start and its labels. -/
theorem Walk.end_unique (hdet : Deterministic child) {a b b' : α} {ls : List L}
    (h : Walk child a ls b) (h' : Walk child a ls b') : b = b' := by
  induction h with
  | nil => cases h'; rfl
  | cons he _ ih =>
      cases h' with
      | cons he' hw' =>
          obtain rfl := hdet _ _ _ _ he he'
          exact ih hw'

/-- **The labels from the root are unique.** By induction on the labels from their end: the last edge into a
    node is the only edge into it, and nothing leads into the root. -/
theorem Walk.labels_unique (huniq : UniqueParent child) {root : α} (hroot : IsRoot child root)
    {b : α} {ls ks : List L} (h : Walk child root ls b) (h' : Walk child root ks b) : ls = ks := by
  induction ls using List.reverseRecOn generalizing ks b with
  | nil =>
      cases h
      rcases List.eq_nil_or_concat ks with rfl | ⟨ks, k, rfl⟩
      · rfl
      · obtain ⟨p, _, he⟩ := Walk.last (by simpa using h')
        exact absurd he (hroot p k)
  | append_singleton ls l ih =>
      obtain ⟨p, hp, he⟩ := h.last
      rcases List.eq_nil_or_concat ks with rfl | ⟨ks, k, rfl⟩
      · cases h'
        exact absurd he (hroot p l)
      · obtain ⟨p', hp', he'⟩ := Walk.last (by simpa using h')
        obtain ⟨rfl, rfl⟩ := huniq _ _ _ _ _ he he'
        rw [ih hp hp']
        simp

/-- **Below is prefix.** A node is below `c` exactly when its labels from the root extend those of `c`. -/
theorem Walk.below_iff_prefix (hdet : Deterministic child) (huniq : UniqueParent child) {root : α}
    (hroot : IsRoot child root) {c r : α} {cs rs : List L}
    (hc : Walk child root cs c) (hr : Walk child root rs r) : Below child c r ↔ cs <+: rs := by
  constructor
  · rintro ⟨ts, ht⟩
    exact ⟨ts, (hc.append ht).labels_unique huniq hroot hr⟩
  · rintro ⟨ts, rfl⟩
    obtain ⟨b, hb, ht⟩ := hr.split
    obtain rfl := hc.end_unique hdet hb
    exact ⟨ts, ht⟩

end Hin9.Lib
