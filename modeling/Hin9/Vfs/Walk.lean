import Hin9.Vfs.Path
import Hin9.Vfs.TreeInvariant

/-!
# `Vfs.Walk` — a path lookup is a walk in the labelled tree

The walk of `basic_vfs_ref_path` is a walk in the labelled tree of `Vfs.TreeInvariant`, and the names it
follows are the segments of the path (`refLoop_walk`). From it follow the two kinds of lookup: a relative path
stays below the directory it starts in (`basicVfsRefPath_relative`), an absolute one leads to the node its names
spell from the root (`basicVfsRefPath_absolute`), and `absolute_below_iff` compares that node with a directory
by their texts.
-/

namespace Hin9
namespace Vfs

open Pattern Lib

/-! ## References change no edges -/

/-- Taking or dropping a reference: the tree is kept, and no node changes its type. -/
def Kept (v v' : Tree) : Prop := WF v' ∧ Ext v v' ∧ ∀ n, (v'.nodes n).type = (v.nodes n).type

theorem Kept.trans {u v w : Tree} (h : Kept u v) (h' : Kept v w) : Kept u w :=
  ⟨h'.1, h.2.1.trans h'.2.1, fun n => (h'.2.2 n).trans (h.2.2 n)⟩

theorem kept_setNode {v : Tree} (hv : WF v) {n : NodeId} {N : Node} (hname : N.name = (v.nodes n).name)
    (hparent : N.parent = (v.nodes n).parent) (htype : N.type = (v.nodes n).type)
    (hino : N.inode = (v.nodes n).inode) : Kept v (v.setNode n N) := by
  obtain ⟨h1, h2⟩ := hv.setNode hname hparent fun d => by rw [htype, hino]; exact Iff.rfl
  refine ⟨h1, h2, fun m => ?_⟩
  by_cases hm : m = n
  · subst hm; simpa [Tree.setNode] using htype
  · simp [Tree.setNode, hm]

theorem kept_setFile {v : Tree} (hv : WF v) (f : FileId) (F : File) : Kept v (v.setFile f F) :=
  have h := hv.files (Function.update v.files f F) v.fileCount
  ⟨h.1, h.2, fun _ => rfl⟩

theorem basicVfsRefFile_kept (os : Os) {v : Tree} (hv : WF v) (f : FileId) : Kept v (basicVfsRefFile os v f) := by
  unfold basicVfsRefFile
  have h0 := kept_setFile hv f { v.files f with refcount := (v.files f).refcount + 1 }
  simp only
  split
  · exact h0
  · split
    · exact h0
    · split
      · exact h0.trans (kept_setFile h0.1 f _)
      · exact h0.trans (kept_setNode h0.1 rfl rfl rfl rfl)

theorem basicVfsRef_kept (os : Os) {v v' : Tree} (hv : WF v) {n : NodeId} (h : basicVfsRef os v n = some v') :
    Kept v v' := by
  have h0 := kept_setNode hv (n := n) (N := { v.nodes n with refcount := (v.nodes n).refcount + 1 })
    rfl rfl rfl rfl
  simp only [basicVfsRef] at h
  split at h
  · obtain ⟨f, _, rfl⟩ := Option.map_eq_some_iff.mp h
    exact h0.trans (basicVfsRefFile_kept os h0.1 f)
  · obtain rfl := Option.some.inj h
    exact h0

theorem basicVfsUnref_kept {v v' : Tree} (hv : WF v) {n : NodeId} (h : basicVfsUnref v n = some v') :
    Kept v v' := by
  have h0 := kept_setNode hv (n := n) (N := { v.nodes n with refcount := (v.nodes n).refcount - 1 })
    rfl rfl rfl rfl
  simp only [basicVfsUnref] at h
  split at h
  · obtain ⟨f, _, rfl⟩ := Option.map_eq_some_iff.mp h
    exact h0.trans (kept_setFile h0.1 f _)
  · obtain rfl := Option.some.inj h
    exact h0

/-! ## Paths as text -/

/-- The text of a list of names: every name after a slash. -/
def absPath (names : List Bytes) : Bytes := names.flatMap fun name => 47 :: name

theorem absPath_append (xs ys : List Bytes) : absPath (xs ++ ys) = absPath xs ++ absPath ys :=
  List.flatMap_append

/-- A rest that a path segment can stop in front of: the end, a slash or a NUL. -/
def Stops (rest : Bytes) : Prop := ∀ c ∈ rest.head?, endsSegment c = true

theorem stops_absPath {names : List Bytes} {rest : Bytes} (h : Stops rest) : Stops (absPath names ++ rest) := by
  cases names with
  | nil => simpa [absPath] using h
  | cons x xs => intro c hc; simp [absPath] at hc; subst hc; decide

theorem ValidName.plain {name : Bytes} (h : ValidName name) : ∀ c ∈ name, endsSegment c = false := by
  intro c hc
  obtain ⟨h1, h2⟩ := h.2 c hc
  simp [endsSegment, h1, h2]

/-- Plain texts in front of two stops are equal when the whole is. -/
theorem eq_of_append_stops {x y r s : Bytes} (hx : ∀ c ∈ x, endsSegment c = false)
    (hy : ∀ c ∈ y, endsSegment c = false) (hr : Stops r) (hs : Stops s) (h : x ++ r = y ++ s) :
    x = y ∧ r = s := by
  induction x generalizing y with
  | nil =>
      cases y with
      | nil => exact ⟨rfl, h⟩
      | cons c y =>
          rw [List.nil_append] at h
          subst h
          exact absurd (hr c (by simp)) (by simp [hy c List.mem_cons_self])
  | cons c x ih =>
      cases y with
      | nil =>
          rw [List.nil_append] at h
          subst h
          exact absurd (hs c (by simp)) (by simp [hx c List.mem_cons_self])
      | cons d y =>
          simp only [List.cons_append, List.cons.injEq] at h
          obtain ⟨rfl, h⟩ := h
          obtain ⟨rfl, rfl⟩ := ih (fun e he => hx e (List.mem_cons_of_mem _ he))
            (fun e he => hy e (List.mem_cons_of_mem _ he)) h
          exact ⟨rfl, rfl⟩

/-- Two texts of names with stops behind them agree as far as both have names: one list of names extends the
    other, and the texts behind the common part are equal. -/
theorem absPath_compare {xs ys : List Bytes} {r s : Bytes} (hx : ∀ x ∈ xs, ValidName x)
    (hy : ∀ y ∈ ys, ValidName y) (hr : Stops r) (hs : Stops s) (h : absPath xs ++ r = absPath ys ++ s) :
    (∃ zs, ys = xs ++ zs ∧ r = absPath zs ++ s) ∨ (∃ z zs, xs = ys ++ z :: zs ∧ absPath (z :: zs) ++ r = s) := by
  induction xs generalizing ys with
  | nil => exact .inl ⟨ys, rfl, by simpa [absPath] using h⟩
  | cons x xs ih =>
      cases ys with
      | nil => exact .inr ⟨x, xs, rfl, by simpa [absPath] using h⟩
      | cons y ys =>
          have h' : x ++ (absPath xs ++ r) = y ++ (absPath ys ++ s) := by
            simpa [absPath, List.append_assoc] using h
          obtain ⟨rfl, hrest⟩ := eq_of_append_stops (hx x List.mem_cons_self).plain
            (hy y List.mem_cons_self).plain (stops_absPath hr) (stops_absPath hs) h'
          rcases ih (fun z hz => hx z (List.mem_cons_of_mem _ hz)) (fun z hz => hy z (List.mem_cons_of_mem _ hz)) hrest
            with ⟨zs, rfl, he⟩ | ⟨z, zs, rfl, he⟩
          · exact .inl ⟨zs, rfl, he⟩
          · exact .inr ⟨z, zs, rfl, he⟩

/-! ## The walk of a lookup -/

/-- How a lookup that consumed the names of a path left the text `rest` behind the last one: a directory is
    only returned at the end of the path, up to one slash. -/
structure Arrived (v : Tree) (r : NodeId) (rest : Bytes) : Prop where
  stops : Stops rest
  dir : (v.nodes r).type = .dir → rest = [] ∨ rest = [47] ∨ rest.head? = some 0

/-- The names on a walk are names of entries. -/
theorem WF.walk_names {v : Tree} (hv : WF v) {a b : NodeId} {names : List Bytes} (h : Walk v.child a names b) :
    ∀ x ∈ names, ValidName x := by
  induction h with
  | nil => simp
  | cons he _ ih =>
      intro x hx
      rcases List.mem_cons.mp hx with rfl | hx
      · exact (hv.child_entry he).2.2.1
      · exact ih x hx

/-- One round of the loop: the segment is the name of a child of the current directory, and the source goes on
    where a segment can stop. -/
theorem segment_child {v : Tree} (hv : WF v) {cur next : NodeId} {d : DirId} (hcur : cur < v.nodeCount)
    (hl : v.Loaded cur d) {source : Bytes}
    (hs : basicVfsSearchDir v (some d) (source.take (segmentLength source)) = some next) :
    v.child cur (source.take (segmentLength source)) next ∧ Stops (source.drop (segmentLength source)) := by
  have hc : v.child cur (source.take (segmentLength source)) next := ⟨d, hcur, hl, hs⟩
  exact ⟨hc, segment_stops (hv.child_entry hc).2.2.1.plain⟩

/-- **The loop walks down the tree.** By induction on the rounds: what it returns is reached from the current
    directory by names that spell the source, and the heap has only grown. It is returned with what stands behind the
    names, up to one slash. -/
theorem refLoop_walk (os : Os) (fuel : Nat) {v : Tree} (hv : WF v) {cur : NodeId} (hcur : cur < v.nodeCount)
    {dir : Option DirId} (hdir : ∀ d, dir = some d → v.Loaded cur d) {source : Bytes} {v' : Tree} {r : NodeId}
    {path : Bytes} (h : refLoop os fuel v dir source = some ⟨v', some (r, path)⟩) :
    WF v' ∧ Ext v v' ∧ ∃ names rest, Walk v'.child cur names r ∧ 47 :: source = absPath names ++ rest ∧
      Arrived v' r rest ∧ names ≠ [] ∧ (path = rest ∨ rest = 47 :: path) := by
  induction fuel generalizing v cur dir source with
  | zero => simp [refLoop, RefResult.null] at h
  | succ fuel ih =>
      simp only [refLoop, matchString_segment_took] at h
      by_cases hlen : segmentLength source = 0
      · simp [hlen, RefResult.null] at h
      simp only [hlen, if_false, matchString_segment_capture hlen] at h
      cases hs : basicVfsSearchDir v dir (source.take (segmentLength source)) with
      | none => simp [hs, RefResult.null] at h
      | some next =>
          obtain ⟨d, rfl⟩ : ∃ d, dir = some d := by
            cases dir with
            | none => simp [basicVfsSearchDir] at hs
            | some d => exact ⟨d, rfl⟩
          obtain ⟨hc, hstop⟩ := segment_child hv hcur (hdir d rfl) hs
          have hnext := (hv.child_entry hc).1
          have hsplit : 47 :: source
              = absPath [source.take (segmentLength source)] ++ source.drop (segmentLength source) := by
            simp [absPath]
          rw [hs] at h
          simp only [matchString_slash] at h
          generalize source.take (segmentLength source) = name at hs hc hsplit
          generalize source.drop (segmentLength source) = after at h hstop hsplit
          -- the two exits of the loop take a reference on `next`
          have exit : ∀ source', refFound os v next source' = some ⟨v', some (r, path)⟩ →
              ((v.nodes next).type = .dir → after = [] ∨ after = [47] ∨ after.head? = some 0) →
              (source' = after ∨ after = 47 :: source') →
              WF v' ∧ Ext v v' ∧ ∃ names rest, Walk v'.child cur names r ∧ 47 :: source = absPath names ++ rest ∧
                Arrived v' r rest ∧ names ≠ [] ∧ (path = rest ∨ rest = 47 :: path) := by
            intro source' hf hend hrest
            obtain ⟨w, hw, he⟩ := Option.map_eq_some_iff.mp hf
            obtain ⟨rfl, rfl, rfl⟩ : w = v' ∧ next = r ∧ source' = path := by simpa using he
            obtain ⟨h1, h2, h3⟩ := basicVfsRef_kept os hv hw
            exact ⟨h1, h2, [name], after, .cons (h2.child hv hc) .nil, hsplit,
              ⟨hstop, fun ht => hend (h3 next ▸ ht)⟩, List.cons_ne_nil _ _, hrest⟩
          by_cases htype : (v.nodes next).type = .dir
          swap
          · rw [if_pos htype] at h
            exact exit _ h (fun ht => absurd ht htype) (.inl rfl)
          rw [if_neg (by simpa using htype)] at h
          by_cases hslash : after.head? = some 47
          swap
          · simp only [if_neg hslash] at h
            refine exit _ h (fun _ => ?_) (.inl rfl)
            cases after with
            | nil => exact .inl rfl
            | cons c cs =>
                have := hstop c (by simp)
                simp_all [endsSegment]
          simp only [if_pos hslash] at h
          obtain ⟨after, rfl⟩ : ∃ cs, after = 47 :: cs := by
            cases after with
            | nil => simp at hslash
            | cons c cs => exact ⟨cs, by simpa using hslash⟩
          rw [List.drop_one, List.tail_cons] at h
          by_cases hempty : after = []
          · rw [if_pos hempty] at h
            exact exit _ h (fun _ => .inr (.inl (by rw [hempty]))) (.inr rfl)
          rw [if_neg hempty] at h
          -- the next directory is loaded, and the loop goes on in it
          obtain ⟨h1, h2, h3⟩ := basicVfsGetDir_spec os hv hnext
          cases hd : (basicVfsGetDir os v next).2 with
          | none => simp [hd, RefResult.null] at h
          | some e =>
              rw [hd] at h
              obtain ⟨h4, h5, names, rest, hw, htext, harr, -, hrest⟩ :=
                ih h1 (Nat.lt_of_lt_of_le hnext h2.nodeCount) (fun e' he' => h3 e' (hd.trans he')) h
              refine ⟨h4, h2.trans h5, name :: names, rest, .cons ((h2.trans h5).child hv hc) hw, ?_, harr,
                List.cons_ne_nil _ _, hrest⟩
              rw [hsplit, htext, ← List.append_assoc, ← absPath_append]
              rfl

/-- The loop keeps the tree on every exit, found or not. -/
theorem refLoop_kept (os : Os) (fuel : Nat) {v : Tree} (hv : WF v) {cur : NodeId} (hcur : cur < v.nodeCount)
    {dir : Option DirId} (hdir : ∀ d, dir = some d → v.Loaded cur d) {source : Bytes} {res : RefResult}
    (h : refLoop os fuel v dir source = some res) : WF res.tree ∧ Ext v res.tree := by
  have null : ∀ w, WF w ∧ Ext v w → RefResult.null w = some res → WF res.tree ∧ Ext v res.tree := by
    intro w hw he
    obtain rfl := Option.some.inj he
    exact hw
  have exit : ∀ next source', refFound os v next source' = some res → WF res.tree ∧ Ext v res.tree := by
    intro next source' hf
    obtain ⟨w, hw, rfl⟩ := Option.map_eq_some_iff.mp hf
    obtain ⟨h1, h2, _⟩ := basicVfsRef_kept os hv hw
    exact ⟨h1, h2⟩
  induction fuel generalizing v cur dir source with
  | zero => exact null v ⟨hv, Ext.refl v⟩ h
  | succ fuel ih =>
      simp only [refLoop] at h
      split at h
      · exact null v ⟨hv, Ext.refl v⟩ h
      split at h
      · exact null v ⟨hv, Ext.refl v⟩ h
      rename_i next hs
      split at h
      · exact exit _ _ h
      split at h
      · exact exit _ _ h
      split at h
      · exact exit _ _ h
      obtain ⟨d, rfl⟩ : ∃ d, dir = some d := by
        cases dir with
        | none => simp [basicVfsSearchDir] at hs
        | some d => exact ⟨d, rfl⟩
      have hnext := (hv.child_entry (v := v) ⟨d, hcur, hdir d rfl, hs⟩).1
      obtain ⟨h1, h2, h3⟩ := basicVfsGetDir_spec os hv hnext
      split at h
      · exact null _ ⟨h1, h2⟩ h
      · rename_i e hd
        obtain ⟨h4, h5⟩ := ih h1 (Nat.lt_of_lt_of_le hnext h2.nodeCount)
          (fun e' he' => h3 e' (hd.trans he')) h
          (fun w hw he => by obtain rfl := Option.some.inj he; exact hw)
          (fun next source' hf => by
            obtain ⟨w, hw, rfl⟩ := Option.map_eq_some_iff.mp hf
            obtain ⟨h6, h7, _⟩ := basicVfsRef_kept os h1 hw
            exact ⟨h6, h7⟩)
        exact ⟨h4, h2.trans h5⟩

theorem basicVfsRefPath_kept (os : Os) {v : Tree} (hv : WF v) {dirNode : Option NodeId}
    (hn : ∀ n, dirNode = some n → n < v.nodeCount) {path : Bytes} {res : RefResult}
    (h : basicVfsRefPath os v dirNode path = some res) : WF res.tree ∧ Ext v res.tree := by
  have null : RefResult.null v = some res → WF res.tree ∧ Ext v res.tree := by
    intro he
    obtain rfl := Option.some.inj he
    exact ⟨hv, Ext.refl v⟩
  simp only [basicVfsRefPath] at h
  split at h
  · exact null h
  split at h
  · exact null h
  rename_i cur hcur
  have hlt : cur < v.nodeCount := by
    split at hcur
    · obtain rfl := Option.some.inj hcur
      exact hv.root_lt
    · exact hn cur hcur
  split at h
  · exact null h
  obtain ⟨h1, h2, h3⟩ := basicVfsGetDir_spec os hv hlt
  obtain ⟨h4, h5⟩ := refLoop_kept os _ h1 (Nat.lt_of_lt_of_le hlt h2.nodeCount) h3 h
  exact ⟨h4, h2.trans h5⟩

/-- A relative path leads to a node below the directory it is looked up in. -/
theorem basicVfsRefPath_relative (os : Os) {v : Tree} (hv : WF v) {cwd : NodeId} (hcwd : cwd < v.nodeCount)
    {path : Bytes} (hrel : path.head? ≠ some 47) {v' : Tree} {r : NodeId} {after : Bytes}
    (h : basicVfsRefPath os v (some cwd) path = some ⟨v', some (r, after)⟩) :
    WF v' ∧ Ext v v' ∧ Below v'.child cwd r := by
  simp only [basicVfsRefPath, matchString_slash, if_neg hrel] at h
  split at h
  · simp [RefResult.null] at h
  · simp only [Option.isSome_none, Bool.false_eq_true, if_false] at h
    split at h
    · simp [RefResult.null] at h
    · obtain ⟨h1, h2, h3⟩ := basicVfsGetDir_spec os hv hcwd
      obtain ⟨h4, h5, names, _, hw, _⟩ :=
        refLoop_walk os _ h1 (Nat.lt_of_lt_of_le hcwd h2.nodeCount) h3 h
      exact ⟨h4, h2.trans h5, names, hw⟩

/-- An absolute path leads to the node its names spell from the root. -/
theorem basicVfsRefPath_absolute (os : Os) {v : Tree} (hv : WF v) {dirNode : Option NodeId} {source : Bytes}
    {v' : Tree} {r : NodeId} {after : Bytes}
    (h : basicVfsRefPath os v dirNode (47 :: source) = some ⟨v', some (r, after)⟩) :
    WF v' ∧ Ext v v' ∧ ∃ names rest, Walk v'.child v'.root names r ∧ 47 :: source = absPath names ++ rest ∧
      Arrived v' r rest := by
  simp only [basicVfsRefPath, matchString_slash, List.head?_cons, if_true, List.cons_ne_nil, if_false,
    Option.isSome_some] at h
  split at h
  · simp [RefResult.null] at h
  · obtain ⟨h1, h2, h3⟩ := basicVfsGetDir_spec os hv hv.root_lt
    obtain ⟨h4, h5, names, rest, hw, htext, harr, -⟩ :=
      refLoop_walk os _ h1 (Nat.lt_of_lt_of_le hv.root_lt h2.nodeCount) h3 h
    have hroot : v'.root = v.root := (h2.trans h5).root
    exact ⟨h4, h2.trans h5, names, rest, hroot ▸ hw, htext, harr⟩

/-! ## Directories and their paths -/

/-- The path stored in a directory inode spells the names that lead to it. -/
theorem WF.loaded_absPath {v : Tree} (hv : WF v) {names : List Bytes} {n : NodeId} {d : DirId}
    (hw : Walk v.child v.root names n) (hl : v.Loaded n d) : (v.dirs d).path = absPath names ++ [47] := by
  induction names using List.reverseRecOn generalizing n d with
  | nil =>
      cases hw
      obtain ⟨e, he, hp⟩ := hv.root_loaded
      obtain rfl : e = d := Option.some.inj (he.2.symm.trans hl.2)
      simpa [absPath] using hp
  | append_singleton names name ih =>
      obtain ⟨p, hp, he⟩ := hw.last
      obtain ⟨_, rfl, _, e, hle, hpar⟩ := hv.child_entry he
      rw [hv.loaded_path n d e hl hpar, ih hp hle, absPath_append]
      simp [absPath]

/-- **Absolute paths.** The node an absolute path leads to is below the directory with the names `names`
    exactly when the path starts with the text of that directory, up to a place where a segment can stop. -/
theorem absolute_below_iff {v : Tree} (hv : WF v) {cwd r : NodeId} {cs names : List Bytes}
    {path rest : Bytes} (hcwd : Walk v.child v.root cs cwd) (hr : Walk v.child v.root names r)
    (hpath : path = absPath names ++ rest) (harr : Arrived v r rest) :
    Below v.child cwd r ↔ ∃ rest', path = absPath cs ++ rest' ∧ Stops rest' := by
  rw [Walk.below_iff_prefix (child_deterministic v) hv.child_unique_parent hv.child_root hcwd hr]
  constructor
  · rintro ⟨ts, rfl⟩
    refine ⟨absPath ts ++ rest, ?_, stops_absPath harr.stops⟩
    rw [hpath, absPath_append, List.append_assoc]
  · rintro ⟨rest', htext, hstop⟩
    rw [hpath] at htext
    rcases absPath_compare (hv.walk_names hr) (hv.walk_names hcwd) harr.stops hstop htext with
      ⟨z, rfl, hrest⟩ | ⟨z, zs, rfl, -⟩
    · -- `r` lies on the way to the working directory
      cases z with
      | nil => simp
      | cons z zs =>
          obtain ⟨b, hb, hbelow⟩ := hcwd.split
          obtain rfl := hr.end_unique (child_deterministic v) hb
          cases hbelow with
          | cons he _ =>
              have hz : z ≠ [] := (hv.child_entry he).2.2.1.1
              obtain ⟨d, _, hl, _⟩ := he
              rcases harr.dir hl.1 with h | h | h
              · simp [hrest, absPath] at h
              · simp only [hrest, absPath, List.flatMap_cons, List.cons_append, List.cons.injEq] at h
                exact absurd (List.append_eq_nil_iff.mp (List.append_eq_nil_iff.mp h.2).1).1 hz
              · simp [hrest, absPath] at h
    · exact List.prefix_append _ _

end Vfs
end Hin9
