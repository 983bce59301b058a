import Hin9.Netcode.Ssl
import Hin9.Lib.Runs

/-!
# `Netcode.SslOrder` — the order of the ciphertext, and the two flags

A crypt buffer has one user at a time: the socket, a function that waits for a callback, or a plain buffer that the
application holds. The pump is only ever run with a buffer that has none of these, so it never touches the ciphertext that
is on its way, and the flags say what the socket is doing. This is the invariant.

It needs what `hin_ssl_write_callback` and `hin_ssl_do_write` take for granted. A write that is accepted in part is
handed to the socket again without its flag, and a `SSL_write` that fails leaves the flag behind.
-/

namespace Hin9
namespace Netcode
namespace Ssl

open Lib

/-! ## What the connection promises -/

/-- **The socket gets the ciphertext in order, one write and one read at a time**, and the flags tell which are under
    way. -/
structure Tls.InOrder (s : Tls) : Prop where
  ordered : s.accepted <+: s.taken
  oneWrite : s.writing.length ≤ 1
  writeTracked : s.writeFlag = true ↔ s.writing ≠ []
  oneRead : s.reading.length ≤ 1
  readTracked : s.readFlag = true ↔ s.reading ≠ []

/-! ## The invariant -/

/-- The crypt buffers a waiting function works with. -/
def Frame.crypts : Frame → List Nat
  | .callback _ => []
  | .pump c => [c]
  | .closing _ c => [c]

/-- The crypt buffers in use. -/
def Tls.busy (s : Tls) : List Nat := s.writing ++ s.reading ++ s.stack.flatMap Frame.crypts

/-- A crypt buffer that can carry bytes. -/
def Tls.Sized (s : Tls) (c : Nat) : Prop := ∃ x, s.crypts c = some x ∧ x.ptr = 0 ∧ 0 < x.count

/-- Nobody uses the crypt buffer, and the application does not hold it. -/
structure Tls.Off (s : Tls) (c : Nat) : Prop where
  busy : c ∉ s.busy
  held : ∀ p y, s.plains p = some y → y.active = false → y.sslBuffer ≠ some c

/-- The ciphertext that the socket is working on. -/
def Tls.inFlight (s : Tls) : Bytes :=
  s.writing.flatMap fun c => match s.crypts c with
    | some x => x.view x.count
    | none => []

structure Tls.Inv (s : Tls) : Prop where
  oneWrite : s.writing.length ≤ 1
  writeFlag : s.writeFlag = !s.writing.isEmpty
  oneRead : s.reading.length ≤ 1
  readFlag : s.readFlag = !s.reading.isEmpty
  once : s.busy.Nodup
  sized : ∀ c ∈ s.busy, s.Sized c
  held : ∀ p y c, s.plains p = some y → y.active = false → y.sslBuffer = some c → c ∉ s.busy ∧ s.Sized c
  heldOnce : ∀ p q y z c, s.plains p = some y → s.plains q = some z → y.active = false → z.active = false →
    y.sslBuffer = some c → z.sslBuffer = some c → p = q
  fresh : ∀ c, s.nextCrypt ≤ c → s.crypts c = none
  listOnce : (s.writeList ++ s.readList).Nodup
  listed : ∀ p ∈ s.writeList ++ s.readList, ∃ y, s.plains p = some y ∧ y.active = true
  parent : ∀ c ∈ s.writing, ∀ x p, s.crypts c = some x → x.parent = some p →
    p ∉ s.writeList ++ s.readList ∧ ∃ y, s.plains p = some y ∧ y.active = true
  books : s.failed = false → s.taken = s.accepted ++ s.inFlight
  ordered : s.accepted <+: s.taken

/-- What the invariant says. -/
theorem Tls.Inv.inOrder {s : Tls} (h : s.Inv) : s.InOrder where
  ordered := h.ordered
  oneWrite := h.oneWrite
  writeTracked := by
    rw [h.writeFlag]
    cases s.writing <;> simp
  oneRead := h.oneRead
  readTracked := by
    rw [h.readFlag]
    cases s.reading <;> simp

/-! ## Memory -/

theorem view_poke (x : Crypt) (bs : Bytes) (n : Nat) (p : Option Nat) :
    ({ x with mem := poke x.mem x.ptr bs, count := n, parent := p } : Crypt).view bs.length = bs := by
  unfold Crypt.view
  dsimp only
  apply List.ext_getElem
  · simp
  · intro i h₁ h₂
    rw [List.getElem_map, List.getElem_range]
    unfold poke
    rw [if_pos ⟨Nat.le_add_right _ _, by omega⟩, Nat.add_sub_cancel_left, List.getD_eq_getElem?_getD,
      List.getElem?_eq_getElem h₂]
    rfl

/-! ## One user for each crypt buffer -/

theorem onPlain_self (s : Tls) (p : Nat) (f : Plain → Plain) : (s.onPlain p f).plains p = (s.plains p).map f := by
  unfold Tls.onPlain
  exact Function.update_self ..

theorem onPlain_of_ne (s : Tls) {p q : Nat} (hq : q ≠ p) (f : Plain → Plain) :
    (s.onPlain p f).plains q = s.plains q := by
  unfold Tls.onPlain
  exact Function.update_of_ne hq ..

section Ownership

variable {s : Tls} {c : Nat}

theorem Tls.Off.not_active (h : s.Off c) : s.isActive c = false := by
  have hnot := h.busy
  unfold Tls.busy at hnot
  simp only [List.mem_append, not_or] at hnot
  unfold Tls.isActive
  simp [hnot.1.1, hnot.1.2]

theorem Tls.Off.not_writing (h : s.Off c) : c ∉ s.writing := fun hmem =>
  h.busy (List.mem_append_left _ (List.mem_append_left _ hmem))

/-- What is in flight does not depend on a crypt buffer that is not. -/
theorem inFlight_update {writing : List Nat} {crypts : Nat → Option Crypt} {v : Option Crypt} (hc : c ∉ writing) :
    (writing.flatMap fun d => match Function.update crypts c v d with
      | some x => x.view x.count
      | none => []) = writing.flatMap fun d => match crypts d with
      | some x => x.view x.count
      | none => [] := by
  apply List.flatMap_congr
  intro d hd
  have hdc : d ≠ c := by
    rintro rfl
    exact hc hd
  rw [Function.update_of_ne hdc]

/-- **A crypt buffer that nobody uses can be written or freed.** -/
theorem Tls.Inv.crypt (h : s.Inv) (hoff : s.Off c) {v : Option Crypt} (hlt : c < s.nextCrypt) :
    ({ s with crypts := Function.update s.crypts c v } : Tls).Inv := by
  have hsized : ∀ d, d ≠ c → s.Sized d → ({ s with crypts := Function.update s.crypts c v } : Tls).Sized d := by
    rintro d hd ⟨x, hx, hrest⟩
    exact ⟨x, (Function.update_of_ne hd ..).trans hx, hrest⟩
  refine { h with sized := ?_, held := ?_, fresh := ?_, parent := ?_, books := ?_ }
  · intro d hd
    exact hsized d (by rintro rfl; exact hoff.busy hd) (h.sized d hd)
  · intro p y d hy hact hd
    obtain ⟨hbusy, hd'⟩ := h.held p y d hy hact hd
    exact ⟨hbusy, hsized d (by rintro rfl; exact hoff.held p y hy hact hd) hd'⟩
  · intro d hd
    have hd' : s.nextCrypt ≤ d := hd
    exact (Function.update_of_ne (by omega) ..).trans (h.fresh d hd')
  · intro d hd x p hx hp
    have hne : d ≠ c := by
      rintro rfl
      exact hoff.not_writing hd
    exact h.parent d hd x p ((Function.update_of_ne hne ..).symm.trans hx) hp
  · intro hf
    exact (h.books hf).trans (congrArg _ (inFlight_update hoff.not_writing).symm)

theorem Tls.Inv.lt_next (h : s.Inv) {x : Crypt} (hc : s.crypts c = some x) : c < s.nextCrypt := by
  by_contra hge
  exact absurd ((h.fresh c (by omega)).symm.trans hc) (by simp)

/-- **A plain buffer that is handed over may have any crypt buffer.** Only the application's own buffers matter. -/
theorem Tls.Inv.setActive (h : s.Inv) {p : Nat} {y : Plain} (hact : y.active = true) :
    ({ s with plains := Function.update s.plains p (some y) } : Tls).Inv := by
  have hself : Function.update s.plains p (some y) p = some y := Function.update_self ..
  have hidle : ∀ q z, Function.update s.plains p (some y) q = some z → z.active = false → s.plains q = some z := by
    intro q z hz hza
    by_cases hq : q = p
    · subst hq
      obtain rfl := Option.some.inj (hself.symm.trans hz)
      exact absurd (hact.symm.trans hza) (by simp)
    · exact (Function.update_of_ne hq ..).symm.trans hz
  have hkept : ∀ q, (∃ z, s.plains q = some z ∧ z.active = true) →
      ∃ z, Function.update s.plains p (some y) q = some z ∧ z.active = true := by
    rintro q ⟨z, hz, hza⟩
    by_cases hq : q = p
    · subst hq
      exact ⟨y, hself, hact⟩
    · exact ⟨z, (Function.update_of_ne hq ..).trans hz, hza⟩
  refine { h with held := ?_, heldOnce := ?_, listed := ?_, parent := ?_ }
  · intro q z d hz hza hd
    exact h.held q z d (hidle q z hz hza) hza hd
  · intro q r z w d hz hw hza hwa
    exact h.heldOnce q r z w d (hidle q z hz hza) (hidle r w hw hwa) hza hwa
  · intro q hq
    exact hkept q (h.listed q hq)
  · intro d hd x q hx hq
    obtain ⟨hnot, hact⟩ := h.parent d hd x q hx hq
    exact ⟨hnot, hkept q hact⟩

/-- A crypt buffer that nobody uses stays so when a plain buffer is handed over. -/
theorem Tls.Off.setActive (h : s.Off c) {p : Nat} {y : Plain} (hact : y.active = true) :
    ({ s with plains := Function.update s.plains p (some y) } : Tls).Off c := by
  refine ⟨h.busy, ?_⟩
  intro q z hz hza
  by_cases hq : q = p
  · subst hq
    have hself : Function.update s.plains q (some y) q = some y := Function.update_self ..
    obtain rfl := Option.some.inj (hself.symm.trans hz)
    exact absurd (hact.symm.trans hza) (by simp)
  · exact h.held q z ((Function.update_of_ne hq ..).symm.trans hz) hza

/-- A change of an existing plain buffer. -/
theorem onPlain_eq {p : Nat} {y : Plain} (hp : s.plains p = some y) (f : Plain → Plain) :
    s.onPlain p f = { s with plains := Function.update s.plains p (some (f y)) } := by
  unfold Tls.onPlain
  rw [hp]
  rfl

/-- **A write is begun.** No other one is under way, and the bytes are those just taken. -/
theorem Tls.Inv.beginWrite (h : s.Inv) (hoff : s.Off c) (hflag : s.writeFlag = false) (hlt : c < s.nextCrypt)
    {x : Crypt} {bs w : Bytes} (hptr : x.ptr = 0) (hcount : x.count = bs.length) (hbs : bs ≠ [])
    (hview : x.view bs.length = bs)
    (hparent : ∀ p, x.parent = some p → p ∉ s.writeList ++ s.readList ∧ ∃ y, s.plains p = some y ∧ y.active = true) :
    ({ s with crypts := Function.update s.crypts c (some x), wbio := w, taken := s.taken ++ bs, writeFlag := true,
              writing := s.writing ++ [c] } : Tls).Inv := by
  have hnone : s.writing = [] := by
    have hw := h.writeFlag
    rw [hflag] at hw
    exact List.isEmpty_iff.mp (by simpa using hw)
  have hself : Function.update s.crypts c (some x) c = some x := Function.update_self ..
  have hsized := h.crypt hoff (v := some x) hlt
  have hbusy : ∀ d, d ∈ ({ s with writing := s.writing ++ [c] } : Tls).busy ↔ d = c ∨ d ∈ s.busy := by
    intro d
    unfold Tls.busy
    rw [hnone]
    simp
  refine { hsized with oneWrite := ?_, writeFlag := ?_, once := ?_, sized := ?_, held := ?_, parent := ?_, books := ?_,
                       ordered := ?_ }
  · rw [hnone]
    simp
  · rw [hnone]
    rfl
  · have honce := h.once
    have hnot := hoff.busy
    unfold Tls.busy at honce hnot ⊢
    rw [hnone] at honce hnot ⊢
    exact List.nodup_cons.mpr ⟨hnot, honce⟩
  · intro d hd
    rcases (hbusy d).mp hd with rfl | hd
    · exact ⟨x, hself, hptr, by rw [hcount]; exact List.length_pos_of_ne_nil hbs⟩
    · exact hsized.sized d hd
  · intro p y d hy hact hd
    obtain ⟨hnot, hs⟩ := hsized.held p y d hy hact hd
    refine ⟨?_, hs⟩
    intro hmem
    rcases (hbusy d).mp hmem with rfl | hmem
    · exact hoff.held p y hy hact hd
    · exact hnot hmem
  · intro d hd z p hz hp
    rw [hnone] at hd
    obtain rfl := List.mem_singleton.mp hd
    obtain rfl := Option.some.inj (hself.symm.trans hz)
    exact hparent p hp
  · intro hf
    have hbooks := h.books hf
    unfold Tls.inFlight at hbooks ⊢
    dsimp only
    rw [hnone] at hbooks ⊢
    rw [hbooks, List.nil_append, List.flatMap_singleton, hself]
    dsimp only
    rw [hcount, hview, List.flatMap_nil, List.append_nil]
  · exact h.ordered.trans (List.prefix_append _ _)

/-- **A read is begun.** -/
theorem Tls.Inv.beginRead (h : s.Inv) (hoff : s.Off c) (hflag : s.readFlag = false) (hlt : c < s.nextCrypt)
    {x : Crypt} (hptr : x.ptr = 0) (hcount : 0 < x.count) :
    ({ s with crypts := Function.update s.crypts c (some x), readFlag := true, reading := s.reading ++ [c] } : Tls).Inv := by
  have hnone : s.reading = [] := by
    have hw := h.readFlag
    rw [hflag] at hw
    exact List.isEmpty_iff.mp (by simpa using hw)
  have hself : Function.update s.crypts c (some x) c = some x := Function.update_self ..
  have hsized := h.crypt hoff (v := some x) hlt
  have hbusy : ∀ d, d ∈ ({ s with reading := s.reading ++ [c] } : Tls).busy ↔ d = c ∨ d ∈ s.busy := by
    intro d
    unfold Tls.busy
    rw [hnone]
    simp only [List.nil_append, List.append_nil, List.mem_append, List.mem_singleton]
    tauto
  refine { hsized with oneRead := ?_, readFlag := ?_, once := ?_, sized := ?_, held := ?_ }
  · rw [hnone]
    simp
  · rw [hnone]
    rfl
  · have honce := h.once
    have hnot := hoff.busy
    unfold Tls.busy at honce hnot ⊢
    rw [hnone, List.append_nil] at honce hnot
    rw [hnone, List.nil_append, List.append_assoc]
    apply (List.perm_append_comm_assoc s.writing [c] _).nodup_iff.mpr
    exact List.nodup_cons.mpr ⟨hnot, honce⟩
  · intro d hd
    rcases (hbusy d).mp hd with rfl | hd
    · exact ⟨x, hself, hptr, hcount⟩
    · exact hsized.sized d hd
  · intro p y d hy hact hd
    obtain ⟨hnot, hs⟩ := hsized.held p y d hy hact hd
    refine ⟨?_, hs⟩
    intro hmem
    rcases (hbusy d).mp hmem with rfl | hmem
    · exact hoff.held p y hy hact hd
    · exact hnot hmem

/-- **The application gets a plain buffer back**, with a crypt buffer that nobody uses or with none. -/
theorem Tls.Inv.callback (h : s.Inv) {p : Nat} (hp : p ∉ s.writeList ++ s.readList)
    (hparent : ∀ c ∈ s.writing, ∀ x, s.crypts c = some x → x.parent ≠ some p) {b : Option Nat}
    (hb : ∀ c, b = some c → s.Off c ∧ s.Sized c) :
    ((s.onPlain p fun y => { y with sslBuffer := b }).hinSslCallback p).Inv := by
  obtain ⟨t, ht⟩ : ∃ t, t = (s.onPlain p fun y => { y with sslBuffer := b }).hinSslCallback p := ⟨_, rfl⟩
  have hself : t.plains p = (s.plains p).map fun y => { y with sslBuffer := b, active := false } := by
    rw [ht]
    unfold Tls.hinSslCallback Tls.onPlain
    dsimp only
    rw [Function.update_self, Function.update_self, Option.map_map]
    rfl
  have hne : ∀ q, q ≠ p → t.plains q = s.plains q := by
    intro q hq
    rw [ht]
    unfold Tls.hinSslCallback Tls.onPlain
    dsimp only
    rw [Function.update_of_ne hq, Function.update_of_ne hq]
  have hmine : ∀ z, t.plains p = some z → z.sslBuffer = b := by
    intro z hz
    rw [hself] at hz
    obtain ⟨y, -, rfl⟩ := Option.map_eq_some_iff.mp hz
    rfl
  have hbusy : t.busy = s.busy := by
    rw [ht]
    rfl
  have hsized : ∀ d, t.Sized d ↔ s.Sized d := by
    intro d
    rw [ht]
    exact Iff.rfl
  have hheld : ∀ q z c, t.plains q = some z → z.active = false → z.sslBuffer = some c → q ≠ p →
      s.plains q = some z := fun q z c hz _ _ hq => (hne q hq).symm.trans hz
  rw [← ht]
  have hsame : t = { s with plains := t.plains, stack := t.stack } := by
    rw [ht]
    rfl
  refine ⟨?_, ?_, ?_, ?_, ?_, ?_, ?_, ?_, ?_, ?_, ?_, ?_, ?_, ?_⟩
  · rw [hsame]; exact h.oneWrite
  · rw [hsame]; exact h.writeFlag
  · rw [hsame]; exact h.oneRead
  · rw [hsame]; exact h.readFlag
  · rw [hbusy]; exact h.once
  · intro d hd
    rw [hbusy] at hd
    exact (hsized d).mpr (h.sized d hd)
  · intro q z c hz hact hc
    rw [hbusy]
    by_cases hq : q = p
    · subst hq
      have hbc := (hmine z hz).symm.trans hc
      exact ⟨(hb c hbc).1.busy, (hsized c).mpr (hb c hbc).2⟩
    · obtain ⟨h₁, h₂⟩ := h.held q z c (hheld q z c hz hact hc hq) hact hc
      exact ⟨h₁, (hsized c).mpr h₂⟩
  · intro q r z w c hz hw hza hwa hzc hwc
    by_cases hq : q = p
    · by_cases hr : r = p
      · exact hq.trans hr.symm
      · subst hq
        have hbc := (hmine z hz).symm.trans hzc
        exact absurd hwc ((hb c hbc).1.held r w (hheld r w c hw hwa hwc hr) hwa)
    · by_cases hr : r = p
      · subst hr
        have hbc := (hmine w hw).symm.trans hwc
        exact absurd hzc ((hb c hbc).1.held q z (hheld q z c hz hza hzc hq) hza)
      · exact h.heldOnce q r z w c (hheld q z c hz hza hzc hq) (hheld r w c hw hwa hwc hr) hza hwa hzc hwc
  · rw [hsame]; exact h.fresh
  · rw [hsame]; exact h.listOnce
  · intro q hq
    have hq' : q ∈ s.writeList ++ s.readList := by rw [hsame] at hq; exact hq
    obtain ⟨y, hy, hact⟩ := h.listed q hq'
    have hqp : q ≠ p := by
      rintro rfl
      exact hp hq'
    exact ⟨y, (hne q hqp).trans hy, hact⟩
  · intro d hd x q hx hxq
    have hd' : d ∈ s.writing := by rw [hsame] at hd; exact hd
    have hx' : s.crypts d = some x := by rw [hsame] at hx; exact hx
    obtain ⟨hnot, y, hy, hact⟩ := h.parent d hd' x q hx' hxq
    have hqp : q ≠ p := by
      rintro rfl
      exact hparent d hd' x hx' hxq
    refine ⟨?_, y, (hne q hqp).trans hy, hact⟩
    rw [hsame]
    exact hnot
  · rw [hsame]; exact h.books
  · rw [hsame]; exact h.ordered

/-- The lists get shorter. -/
theorem Tls.Inv.shorten (h : s.Inv) (ws rs : List Nat) (hw : ws.Sublist s.writeList) (hr : rs.Sublist s.readList) :
    ({ s with writeList := ws, readList := rs } : Tls).Inv := by
  have hsub : (ws ++ rs).Sublist (s.writeList ++ s.readList) := hw.append hr
  refine { h with listOnce := ?_, listed := ?_, parent := ?_ }
  · exact hsub.nodup h.listOnce
  · intro p hp
    exact h.listed p (hsub.subset hp)
  · intro c hc x p hx hp
    obtain ⟨hnot, hact⟩ := h.parent c hc x p hx hp
    exact ⟨fun hmem => hnot (hsub.subset hmem), hact⟩

/-- A function starts to wait, and keeps a crypt buffer for itself. -/
theorem Tls.Inv.push (h : s.Inv) (hoff : s.Off c) (hsized : s.Sized c) {f : Frame} (hf : f.crypts = [c]) :
    ({ s with stack := f :: s.stack } : Tls).Inv := by
  have hbusy : ∀ d, d ∈ ({ s with stack := f :: s.stack } : Tls).busy ↔ d = c ∨ d ∈ s.busy := by
    intro d
    unfold Tls.busy
    simp only [List.flatMap_cons, hf, List.mem_append, List.mem_singleton]
    tauto
  refine { h with once := ?_, sized := ?_, held := ?_ }
  · have honce := h.once
    have hnot := hoff.busy
    unfold Tls.busy at honce hnot ⊢
    rw [List.flatMap_cons, hf]
    apply (List.perm_append_comm_assoc (s.writing ++ s.reading) [c] _).nodup_iff.mpr
    exact List.nodup_cons.mpr ⟨hnot, honce⟩
  · intro d hd
    rcases (hbusy d).mp hd with rfl | hd
    · exact hsized
    · exact h.sized d hd
  · intro p y d hy hact hd
    obtain ⟨hnot, hs⟩ := h.held p y d hy hact hd
    refine ⟨?_, hs⟩
    intro hmem
    rcases (hbusy d).mp hmem with rfl | hmem
    · exact hoff.held p y hy hact hd
    · exact hnot hmem

/-- A function goes on, and its crypt buffer is its own. -/
theorem Tls.Inv.pop (h : s.Inv) {f : Frame} {stack : List Frame} (hstack : s.stack = f :: stack) :
    ({ s with stack } : Tls).Inv ∧ ∀ d ∈ f.crypts, ({ s with stack } : Tls).Off d ∧ ({ s with stack } : Tls).Sized d := by
  have hperm : s.busy.Perm (f.crypts ++ ({ s with stack } : Tls).busy) := by
    unfold Tls.busy
    rw [hstack, List.flatMap_cons]
    exact List.perm_append_comm_assoc (s.writing ++ s.reading) f.crypts _
  have honce := hperm.nodup_iff.mp h.once
  have hsub : ∀ d, d ∈ ({ s with stack } : Tls).busy → d ∈ s.busy := fun d hd =>
    hperm.mem_iff.mpr (List.mem_append_right _ hd)
  constructor
  · refine { h with once := ?_, sized := ?_, held := ?_ }
    · exact (List.nodup_append.mp honce).2.1
    · intro d hd
      exact h.sized d (hsub d hd)
    · intro p y d hy hact hd
      obtain ⟨hnot, hs⟩ := h.held p y d hy hact hd
      exact ⟨fun hmem => hnot (hsub d hmem), hs⟩
  · intro d hd
    have hmem : d ∈ s.busy := hperm.mem_iff.mpr (List.mem_append_left _ hd)
    refine ⟨⟨?_, ?_⟩, h.sized d hmem⟩
    · intro hrest
      exact (List.nodup_append.mp honce).2.2 d hd d hrest rfl
    · intro p y hy hact hc
      exact (h.held p y d hy hact hc).1 hmem

/-- **The socket is done with a write.** What it has accepted and what it has lost is accounted for. -/
theorem Tls.Inv.endWrite (h : s.Inv) (hstack : s.stack = []) (hc : c ∈ s.writing) (acc : Bytes) (lost : Bool)
    (hacc : acc <+: s.taken) (hlost : lost = false → s.taken = acc) :
    ({ s with writing := s.writing.erase c, writeFlag := false, accepted := acc, failed := lost } : Tls).Inv ∧
      ({ s with writing := s.writing.erase c, writeFlag := false, accepted := acc, failed := lost } : Tls).Off c := by
  have hone : s.writing = [c] := by
    have hle := h.oneWrite
    match hw : s.writing with
    | [] => rw [hw] at hc; exact absurd hc List.not_mem_nil
    | [d] => rw [hw] at hc; rw [List.mem_singleton.mp hc]
    | _ :: _ :: _ => rw [hw] at hle; simp at hle
  have hnone : s.writing.erase c = [] := by
    rw [hone]
    simp
  have honce := h.once
  have hbusy : s.busy = c :: s.reading := by
    unfold Tls.busy
    rw [hone, hstack]
    simp
  rw [hbusy, List.nodup_cons] at honce
  have hsub : ∀ d, d ∈ ({ s with writing := ([] : List Nat) } : Tls).busy ↔ d ∈ s.reading := by
    intro d
    unfold Tls.busy
    rw [hstack]
    simp
  rw [hnone]
  constructor
  · refine { h with oneWrite := ?_, writeFlag := ?_, once := ?_, sized := ?_, held := ?_, parent := ?_, books := ?_,
                    ordered := hacc }
    · exact Nat.zero_le 1
    · rfl
    · unfold Tls.busy
      rw [hstack]
      simpa using honce.2
    · intro d hd
      exact h.sized d (by rw [hbusy]; exact List.mem_cons_of_mem _ ((hsub d).mp hd))
    · intro p y d hy hact hd
      obtain ⟨hnot, hs⟩ := h.held p y d hy hact hd
      refine ⟨fun hmem => hnot ?_, hs⟩
      rw [hbusy]
      exact List.mem_cons_of_mem _ ((hsub d).mp hmem)
    · intro d hd
      exact absurd hd List.not_mem_nil
    · intro hf
      exact (hlost hf).trans (List.append_nil _).symm
  · constructor
    · intro hmem
      exact honce.1 ((hsub c).mp hmem)
    · intro p y hy hact hcy
      exact (h.held p y c hy hact hcy).1 (by rw [hbusy]; exact List.mem_cons_self)

/-- **The socket is done with a read.** -/
theorem Tls.Inv.endRead (h : s.Inv) (hstack : s.stack = []) (hc : c ∈ s.reading) :
    ({ s with reading := s.reading.erase c, readFlag := false } : Tls).Inv ∧
      ({ s with reading := s.reading.erase c, readFlag := false } : Tls).Off c := by
  have hone : s.reading = [c] := by
    have hle := h.oneRead
    match hr : s.reading with
    | [] => rw [hr] at hc; exact absurd hc List.not_mem_nil
    | [d] => rw [hr] at hc; rw [List.mem_singleton.mp hc]
    | _ :: _ :: _ => rw [hr] at hle; simp at hle
  have hnone : s.reading.erase c = [] := by
    rw [hone]
    simp
  have hbusy : s.busy = s.writing ++ [c] := by
    unfold Tls.busy
    rw [hone, hstack]
    simp
  have honce := h.once
  rw [hbusy] at honce
  have hsub : ({ s with reading := ([] : List Nat), readFlag := false } : Tls).busy = s.writing := by
    unfold Tls.busy
    rw [hstack]
    simp
  rw [hnone]
  constructor
  · refine { h with oneRead := ?_, readFlag := ?_, once := ?_, sized := ?_, held := ?_ }
    · exact Nat.zero_le 1
    · rfl
    · rw [hsub]
      exact (List.nodup_append.mp honce).1
    · intro d hd
      rw [hsub] at hd
      exact h.sized d (by rw [hbusy]; exact List.mem_append_left _ hd)
    · intro p y d hy hact hd
      obtain ⟨hnot, hs⟩ := h.held p y d hy hact hd
      refine ⟨fun hmem => hnot ?_, hs⟩
      rw [hsub] at hmem
      rw [hbusy]
      exact List.mem_append_left _ hmem
  · constructor
    · intro hmem
      rw [hsub] at hmem
      exact (List.nodup_append.mp honce).2.2 c hmem c (List.mem_singleton_self c) rfl
    · intro p y hy hact hcy
      exact (h.held p y c hy hact hcy).1 (by rw [hbusy]; exact List.mem_append_right _ (List.mem_singleton_self c))

/-! ## The pump -/

/-- `SSL_write`, when the pump asks for it, takes the bytes and leaves ciphertext. -/
def Answers.Writes (a : Answers) : Prop := 0 ≤ a.written ∧ a.record ≠ []

instance (a : Answers) : Decidable a.Writes := inferInstanceAs (Decidable (0 ≤ a.written ∧ a.record ≠ []))

theorem Tls.Inv.putOut (h : s.Inv) (bs : Bytes) : (s.putOut bs).Inv := { h with oneWrite := h.oneWrite }

variable {s' : Tls} {a : Answers} {x : Crypt}

theorem take_ne_nil {bs : Bytes} {n : Nat} (hbs : bs ≠ []) (hn : 0 < n) : bs.take n ≠ [] := by
  intro h
  rcases List.take_eq_nil_iff.mp h with h | h
  · omega
  · exact hbs h

theorem Tls.Inv.doWrite (h : s.Inv) (hoff : s.Off c) (hx : s.crypts c = some x) (hptr : x.ptr = 0) (hcount : 0 < x.count)
    (ha : a.Writes) (hstep : s.hinSslDoWrite a c x = some s') : s'.Inv := by
  unfold Tls.hinSslDoWrite at hstep
  split at hstep
  · exact absurd hstep (by simp)
  rename_i p rest hlist
  split at hstep
  · exact absurd hstep (by simp)
  rename_i hflag
  rw [Bool.not_eq_true] at hflag
  dsimp only at hstep
  rw [if_neg (by have := ha.1; omega)] at hstep
  have hout : s.wbio ++ a.record ≠ [] := by simp [ha.2]
  split at hstep
  · rename_i hempty
    exact absurd hempty hout
  -- the plain buffer is active, and on no list any more
  have hp : p ∈ s.writeList ++ s.readList := by rw [hlist]; simp
  obtain ⟨y, hy, hact⟩ := h.listed p hp
  have hfree : p ∉ rest ++ s.readList := by
    have honce := h.listOnce
    rw [hlist, List.cons_append, List.nodup_cons] at honce
    exact honce.1
  obtain ⟨bs, hbs⟩ : ∃ bs, bs = (s.wbio ++ a.record).take x.count := ⟨_, rfl⟩
  have hne : bs ≠ [] := hbs ▸ take_ne_nil hout hcount
  split at hstep
  · rename_i hactive
    exact absurd (hoff.not_active.symm.trans hactive) Bool.false_ne_true
  · obtain rfl := Option.some.inj hstep
    have hshort := h.shorten rest s.readList (by rw [hlist]; exact List.sublist_cons_self p rest)
      (List.Sublist.refl _)
    have hbase := hshort.setActive (p := p) (y := { y with sslBuffer := some c }) hact
    have hoff' : ({ s with writeList := rest } : Tls).Off c := ⟨hoff.busy, hoff.held⟩
    have hself : Function.update s.plains p (some { y with sslBuffer := some c }) p =
        some { y with sslBuffer := some c } := Function.update_self ..
    have hbegun := hbase.beginWrite (hoff'.setActive (p := p) (y := { y with sslBuffer := some c }) hact) hflag
      (h.lt_next hx) (x := { x with mem := poke x.mem x.ptr bs, count := bs.length, parent := some p })
      (w := (s.wbio ++ a.record).drop x.count) hptr rfl hne (view_poke x bs _ _) (by
        intro q hq
        obtain rfl := Option.some.inj hq
        exact ⟨hfree, _, hself, hact⟩)
    have hmap : (s.plains p).map (fun y => { y with sslBuffer := some c }) = some { y with sslBuffer := some c } := by
      rw [hy]
      rfl
    rw [hbs, ← hmap] at hbegun
    exact hbegun

theorem Tls.Inv.doRead (h : s.Inv) (hoff : s.Off c) (hx : s.crypts c = some x) (hptr : x.ptr = 0) (hcount : 0 < x.count)
    (hstep : s.hinSslDoRead a c x = some s') : s'.Inv := by
  unfold Tls.hinSslDoRead at hstep
  split at hstep
  · exact absurd hstep (by simp)
  rename_i p rest hlist
  split at hstep
  · exact absurd hstep (by simp)
  rename_i hflag
  rw [Bool.not_eq_true] at hflag
  dsimp only at hstep
  have hp : p ∈ s.writeList ++ s.readList := by rw [hlist]; simp
  obtain ⟨y, hy, hact⟩ := h.listed p hp
  split at hstep
  · obtain rfl := Option.some.inj hstep
    have hfree : p ∉ s.writeList ++ rest := by
      have honce := h.listOnce
      rw [hlist] at honce
      exact (List.nodup_cons.mp (List.perm_middle.nodup_iff.mp honce)).1
    have hshort := h.shorten s.writeList rest (List.Sublist.refl _)
      (by rw [hlist]; exact List.sublist_cons_self p rest)
    have hback := hshort.callback (p := p) hfree (fun d hd z hz hzp => (h.parent d hd z p hz hzp).1 hp) (b := some c)
      (by
        intro d hd
        obtain rfl := Option.some.inj hd
        exact ⟨⟨hoff.busy, hoff.held⟩, x, hx, hptr, hcount⟩)
    exact { hback with oneWrite := hback.oneWrite }
  · split at hstep
    · rename_i hactive
      exact absurd (hoff.not_active.symm.trans hactive) Bool.false_ne_true
    · obtain rfl := Option.some.inj hstep
      have hbase := h.setActive (p := p) (y := { y with sslBuffer := some c }) hact
      have hbegun := hbase.beginRead (hoff.setActive (p := p) (y := { y with sslBuffer := some c }) hact) hflag
        (h.lt_next hx) (x := { x with count := CRYPT_SZ, parent := some p }) hptr (Nat.zero_lt_succ _)
      have hmap : (s.plains p).map (fun y => { y with sslBuffer := some c }) = some { y with sslBuffer := some c } := by
        rw [hy]
        rfl
      rw [← hmap] at hbegun
      exact hbegun.putOut a.reply

/-- **The pump keeps the invariant**, whatever it finds to do. -/
theorem Tls.Inv.checkData (h : s.Inv) (hoff : s.Off c) (hx : s.crypts c = some x) (hptr : x.ptr = 0) (hcount : 0 < x.count)
    (hparent : x.parent = none) (ha : a.Writes) (hstep : s.hinSslCheckData a c x = some s') : s'.Inv := by
  unfold Tls.hinSslCheckData at hstep
  dsimp only at hstep
  have hlt := h.lt_next hx
  split at hstep
  · rename_i hwants
    rw [Bool.and_eq_true, Bool.not_eq_true', Bool.not_eq_true', List.isEmpty_eq_false_iff] at hwants
    obtain ⟨hflag, hout⟩ := hwants
    split at hstep
    · exact absurd hstep (by simp)
    · obtain rfl := Option.some.inj hstep
      have hne := take_ne_nil hout (n := CRYPT_SZ) (Nat.zero_lt_succ _)
      have hmem : ∀ bs, poke x.mem 0 bs = poke x.mem x.ptr bs := fun bs => by rw [hptr]
      have hview := view_poke x ((s.wbio ++ a.first).take CRYPT_SZ) ((s.wbio ++ a.first).take CRYPT_SZ).length x.parent
      rw [← hmem] at hview
      have hbegun := h.beginWrite hoff hflag hlt (x := { x with
          mem := poke x.mem 0 ((s.wbio ++ a.first).take CRYPT_SZ), count := ((s.wbio ++ a.first).take CRYPT_SZ).length })
        (w := (s.wbio ++ a.first).drop CRYPT_SZ) hptr rfl hne hview (by
          intro p hp
          exact absurd (hparent.symm.trans hp) (by simp))
      exact hbegun
  · have hput := (h.putOut a.first).putOut a.second
    have hoff' : ((s.putOut a.first).putOut a.second).Off c := ⟨hoff.busy, hoff.held⟩
    split at hstep
    · split at hstep
      · obtain rfl := Option.some.inj hstep
        exact hput.crypt hoff' hlt
      · rename_i hflag
        split at hstep
        · exact absurd hstep (by simp)
        · obtain rfl := Option.some.inj hstep
          exact hput.beginRead hoff' (by simpa using hflag) hlt (x := { x with count := CRYPT_SZ }) hptr
            (Nat.zero_lt_succ _)
    · obtain rfl := Option.some.inj hstep
      exact hput.crypt hoff' hlt
    all_goals
      split at hstep
      · rename_i hwrite
        obtain rfl := Option.some.inj hstep
        exact hput.doWrite hoff' hx hptr hcount ha hwrite
      · split at hstep
        · rename_i hread
          obtain rfl := Option.some.inj hstep
          exact hput.doRead hoff' hx hptr hcount hread
        · obtain rfl := Option.some.inj hstep
          exact hput.crypt hoff' hlt

theorem Tls.Inv.pump (h : s.Inv) (hoff : s.Off c) (hsized : s.Sized c) (ha : a.Writes)
    (hstep : s.hinSslPump a c = some s') : s'.Inv := by
  obtain ⟨x, hx, hptr, hcount⟩ := hsized
  unfold Tls.hinSslPump at hstep
  rw [hx] at hstep
  dsimp only at hstep
  have hlt := h.lt_next hx
  have hinv : (s.setCrypt c { x with parent := none }).Inv := h.crypt hoff hlt
  exact hinv.checkData (x := { x with parent := none }) ⟨hoff.busy, hoff.held⟩ (Function.update_self ..) hptr hcount rfl ha
    hstep

/-- A new crypt buffer is nobody's. -/
theorem Tls.Inv.newCrypt (h : s.Inv) :
    ({ s.setCrypt s.nextCrypt {} with nextCrypt := s.nextCrypt + 1 } : Tls).Inv ∧
      ({ s.setCrypt s.nextCrypt {} with nextCrypt := s.nextCrypt + 1 } : Tls).Off s.nextCrypt := by
  have hnone := h.fresh s.nextCrypt (Nat.le_refl _)
  have hoff : s.Off s.nextCrypt := by
    constructor
    · intro hmem
      obtain ⟨x, hx, -⟩ := h.sized _ hmem
      exact absurd (hnone.symm.trans hx) (by simp)
    · intro p y hy hact hc
      obtain ⟨-, x, hx, -⟩ := h.held p y _ hy hact hc
      exact absurd (hnone.symm.trans hx) (by simp)
  have hmore : ({ s with nextCrypt := s.nextCrypt + 1 } : Tls).Inv :=
    { h with fresh := fun c hc => h.fresh c (Nat.le_of_succ_le hc) }
  exact ⟨hmore.crypt ⟨hoff.busy, hoff.held⟩ (Nat.lt_succ_self _), hoff.busy, hoff.held⟩

/-- **A plain buffer that comes first is pumped for**, with its own crypt buffer or with a new one. -/
theorem Tls.Inv.handshake (h : s.Inv) {p : Nat} (hown : ∀ c, (s.plains p).bind Plain.sslBuffer = some c → s.Off c ∧ s.Sized c)
    (ha : a.Writes) (hstep : s.hinSslHandshake a p = some s') : s'.Inv := by
  unfold Tls.hinSslHandshake at hstep
  split at hstep
  · rename_i c hc
    exact h.pump (hown c hc).1 (hown c hc).2 ha hstep
  · obtain ⟨hinv, hoff⟩ := h.newCrypt
    exact hinv.pump hoff ⟨{}, Function.update_self .., rfl, Nat.zero_lt_succ _⟩ ha hstep

/-! ## Requests and completions -/

/-- What a request starts from: the buffer was the application's, and now it is active. -/
theorem request_spec (h : s.Inv) {p n : Nat} (hstep : s.request p n = some s') :
    ∃ y, y.active = true ∧ s' = { s with plains := Function.update s.plains p (some y) } ∧
      p ∉ s.writeList ++ s.readList ∧ (∀ c ∈ s.writing, ∀ x, s.crypts c = some x → x.parent ≠ some p) ∧
      ∀ c, y.sslBuffer = some c → s'.Off c ∧ s'.Sized c := by
  have hidle : ∀ z, s.plains p = some z → z.active = true → s.request p n = none := by
    intro z hz hact
    unfold Tls.request
    rw [hz]
    dsimp only
    rw [if_pos hact]
  have hnot : p ∉ s.writeList ++ s.readList := by
    intro hmem
    obtain ⟨z, hz, hact⟩ := h.listed p hmem
    exact absurd ((hidle z hz hact).symm.trans hstep) (by simp)
  have hparent : ∀ c ∈ s.writing, ∀ x, s.crypts c = some x → x.parent ≠ some p := by
    intro c hc x hx hp
    obtain ⟨-, z, hz, hact⟩ := h.parent c hc x p hx hp
    exact absurd ((hidle z hz hact).symm.trans hstep) (by simp)
  unfold Tls.request at hstep
  split at hstep
  · obtain rfl := Option.some.inj hstep
    exact ⟨_, rfl, rfl, hnot, hparent, fun c hc => absurd hc (by simp)⟩
  · rename_i y hy
    split at hstep
    · exact absurd hstep (by simp)
    · rename_i hact
      rw [Bool.not_eq_true] at hact
      obtain rfl := Option.some.inj hstep
      refine ⟨{ y with count := n, active := true }, rfl, onPlain_eq hy _, hnot, hparent, ?_⟩
      intro c hc
      have hheld := h.held p y c hy hact hc
      rw [onPlain_eq hy]
      refine ⟨⟨hheld.1, ?_⟩, hheld.2⟩
      intro q z hz hza hzc
      by_cases hq : q = p
      · subst hq
        have hself : Function.update s.plains q (some { y with count := n, active := true }) q =
            some { y with count := n, active := true } := Function.update_self ..
        obtain rfl := Option.some.inj (hself.symm.trans hz)
        exact absurd hza (by simp)
      · exact hq (h.heldOnce q p z y c ((Function.update_of_ne hq ..).symm.trans hz) hy hza hact hzc hc)

/-- **A plain buffer is handed over.** -/
theorem Tls.Inv.handOver (h : s.Inv) {p n : Nat} {t : Tls} (hreq : s.request p n = some t) {ws rs : List Nat}
    (hperm : (ws ++ rs).Perm (p :: (s.writeList ++ s.readList))) :
    ({ t with writeList := ws, readList := rs } : Tls).Inv ∧
      ∀ c, (t.plains p).bind Plain.sslBuffer = some c →
        ({ t with writeList := ws, readList := rs } : Tls).Off c ∧ t.Sized c := by
  obtain ⟨y, hact, rfl, hnot, hparent, hown⟩ := request_spec h hreq
  have hself : Function.update s.plains p (some y) p = some y := Function.update_self ..
  have hinv := h.setActive (p := p) hact
  constructor
  · refine { hinv with listOnce := ?_, listed := ?_, parent := ?_ }
    · exact hperm.nodup_iff.mpr (List.nodup_cons.mpr ⟨hnot, h.listOnce⟩)
    · intro q hq
      rcases List.mem_cons.mp (hperm.mem_iff.mp hq) with rfl | hq
      · exact ⟨y, hself, hact⟩
      · exact hinv.listed q hq
    · intro c hc x q hx hq
      obtain ⟨hfree, hqact⟩ := hinv.parent c hc x q hx hq
      refine ⟨?_, hqact⟩
      intro hmem
      rcases List.mem_cons.mp (hperm.mem_iff.mp hmem) with rfl | hmem
      · exact hparent c hc x hx hq
      · exact hfree hmem
  · intro c hc
    dsimp only at hc
    rw [hself, Option.bind_some] at hc
    obtain ⟨hoff, hs⟩ := hown c hc
    exact ⟨⟨hoff.busy, hoff.held⟩, hs⟩

/-- **The loop over the plain buffers that get an error.** -/
theorem Tls.Inv.closeNext (h : s.Inv) (hoff : s.Off c) (hsized : s.Sized c) {next : Option Nat}
    (hstep : s.closeNext next c = some s') : s'.Inv := by
  unfold Tls.closeNext at hstep
  split at hstep
  · obtain rfl := Option.some.inj hstep
    obtain ⟨x, hx, -⟩ := hsized
    exact h.crypt hoff (h.lt_next hx)
  · rename_i p
    split at hstep
    · rename_i hmem
      obtain rfl := Option.some.inj hstep
      have hp : p ∈ s.writeList ++ s.readList := List.mem_append_right _ hmem
      have hshort := h.shorten s.writeList (s.readList.erase p) (List.Sublist.refl _) List.erase_sublist
      have hfree : p ∉ s.writeList ++ s.readList.erase p := by
        intro hin
        obtain ⟨-, hreads, hdisj⟩ := List.nodup_append.mp h.listOnce
        rcases List.mem_append.mp hin with hin | hin
        · exact hdisj p hin p hmem rfl
        · exact hreads.not_mem_erase hin
      have hpush := hshort.push (c := c) ⟨hoff.busy, hoff.held⟩ hsized (f := .closing (Tls.nextOf p s.readList) c) rfl
      exact hpush.callback (p := p) hfree (fun d hd z hz hzp => (h.parent d hd z p hz hzp).1 hp) (b := none)
        (fun d hd => absurd hd (by simp))
    · exact absurd hstep (by simp)

/-- A buffer is cleaned, and its crypt buffer with it. -/
def Tls.dropPlain (s : Tls) (p : Nat) : Tls :=
  { (match (s.plains p).bind Plain.sslBuffer with
    | some c => s.freeCrypt c
    | none => s) with plains := Function.update s.plains p none }

/-- The function that waited for a callback goes on. -/
def Tls.goOn (s : Tls) (a : Answers) : Option Tls :=
  match s.stack with
  | .pump c :: stack => ({ s with stack }).hinSslPump a c
  | .closing next c :: stack => ({ s with stack }).closeNext next c
  | _ => some s

/-- **A callback returns.** Its buffer is cleaned or not, and what waited for it goes on. -/
theorem Tls.callbackReturns_cases {clean : Bool} (hstep : s.callbackReturns a clean = some s') :
    ∃ p stack, s.stack = .callback p :: stack ∧ (clean = true → ((s.plains p).map Plain.active).getD false = false) ∧
      (if clean then ({ s with stack } : Tls).dropPlain p else { s with stack }).goOn a = some s' := by
  unfold Tls.callbackReturns at hstep
  split at hstep
  swap
  · exact absurd hstep (by simp)
  rename_i p stack hstack
  split at hstep
  · exact absurd hstep (by simp)
  rename_i hact
  refine ⟨p, stack, hstack, ?_, ?_⟩
  · rintro rfl
    rw [Bool.true_and, Bool.not_eq_true] at hact
    exact hact
  · cases clean with
    | false => exact hstep
    | true =>
        rw [if_pos rfl]
        unfold Tls.dropPlain
        dsimp only at hstep ⊢
        cases hb : (s.plains p).bind Plain.sslBuffer with
        | none =>
            rw [hb] at hstep
            exact hstep
        | some c =>
            rw [hb] at hstep
            exact hstep

/-- A callback has returned, and its plain buffer with the crypt buffer in it is cleaned, if it is to be. -/
theorem Tls.Inv.cleaned (h : s.Inv) {p : Nat} (hact : ((s.plains p).map Plain.active).getD false = false) :
    (s.dropPlain p).Inv := by
  have hgone : ∀ q z, Function.update s.plains p none q = some z → q ≠ p ∧ s.plains q = some z := by
    intro q z hz
    by_cases hq : q = p
    · subst hq
      exact absurd ((Function.update_self ..).symm.trans hz) (by simp)
    · exact ⟨hq, (Function.update_of_ne hq ..).symm.trans hz⟩
  have hkept : ∀ q, (∃ z, s.plains q = some z ∧ z.active = true) →
      ∃ z, Function.update s.plains p none q = some z ∧ z.active = true := by
    rintro q ⟨z, hz, hza⟩
    have hq : q ≠ p := by
      rintro rfl
      rw [hz] at hact
      exact absurd (hza.symm.trans hact) (by simp)
    exact ⟨z, (Function.update_of_ne hq ..).trans hz, hza⟩
  have hinv : ({ s with plains := Function.update s.plains p none } : Tls).Inv := by
    refine { h with held := ?_, heldOnce := ?_, listed := ?_, parent := ?_ }
    · intro q z d hz hza hd
      exact h.held q z d (hgone q z hz).2 hza hd
    · intro q r z w d hz hw hza hwa
      exact h.heldOnce q r z w d (hgone q z hz).2 (hgone r w hw).2 hza hwa
    · intro q hq
      exact hkept q (h.listed q hq)
    · intro d hd x q hx hq
      obtain ⟨hnot, hqact⟩ := h.parent d hd x q hx hq
      exact ⟨hnot, hkept q hqact⟩
  unfold Tls.dropPlain
  split
  · rename_i c hc
    obtain ⟨y, hy, hyc⟩ := Option.bind_eq_some_iff.mp hc
    have hya : y.active = false := by
      rw [hy] at hact
      exact hact
    obtain ⟨hbusy, x, hx, -⟩ := h.held p y c hy hya hyc
    have hoff : ({ s with plains := Function.update s.plains p none } : Tls).Off c := by
      refine ⟨hbusy, ?_⟩
      intro q z hz hza hzc
      obtain ⟨hq, hz'⟩ := hgone q z hz
      exact hq (h.heldOnce q p z y c hz' hy hza hya hzc hyc)
    exact hinv.crypt hoff (h.lt_next hx)
  · exact hinv

theorem Tls.Inv.goOn (h : s.Inv) (ha : a.Writes) (hstep : s.goOn a = some s') : s'.Inv := by
  unfold Tls.goOn at hstep
  split at hstep
  · rename_i c rest hstack
    obtain ⟨hinv, hown⟩ := h.pop hstack
    have hc := hown c (List.mem_singleton_self c)
    exact hinv.pump hc.1 hc.2 ha hstep
  · rename_i next c rest hstack
    obtain ⟨hinv, hown⟩ := h.pop hstack
    have hc := hown c (List.mem_singleton_self c)
    exact hinv.closeNext hc.1 hc.2 hstep
  · obtain rfl := Option.some.inj hstep
    exact h

/-- **A callback returns**, and the function that waited for it goes on. -/
theorem Tls.Inv.callbackReturns (h : s.Inv) {clean : Bool} (ha : a.Writes)
    (hstep : s.callbackReturns a clean = some s') : s'.Inv := by
  obtain ⟨p, stack, hstack, hact, hgoes⟩ := Tls.callbackReturns_cases hstep
  have hpopped := (h.pop hstack).1
  apply Tls.Inv.goOn _ ha hgoes
  split
  · rename_i hclean
    exact hpopped.cleaned (hact hclean)
  · exact hpopped

/-- **The socket has taken a whole write.** -/
theorem Tls.Inv.writeCallback (h : s.Inv) (hstack : s.stack = []) (hc : c ∈ s.writing) {n : Nat}
    (hwhole : (s.crypts c).map Crypt.count = some n) (hfine : s.failed = false) (ha : a.Writes)
    (hstep : s.hinSslWriteCallback a c n = some s') : s'.Inv := by
  obtain ⟨x, hx, rfl⟩ := Option.map_eq_some_iff.mp hwhole
  have hsized : s.Sized c := h.sized c (List.mem_append_left _ (List.mem_append_left _ hc))
  have htaken : s.taken = s.accepted ++ x.view x.count := by
    have hbooks := h.books hfine
    have hone : s.writing = [c] := by
      have hle := h.oneWrite
      match hw : s.writing with
      | [] => rw [hw] at hc; exact absurd hc List.not_mem_nil
      | [d] => rw [hw] at hc; rw [List.mem_singleton.mp hc]
      | _ :: _ :: _ => rw [hw] at hle; simp at hle
    unfold Tls.inFlight at hbooks
    rw [hone, List.flatMap_singleton, hx] at hbooks
    exact hbooks
  obtain ⟨hended, hoff⟩ := h.endWrite hstack hc (s.accepted ++ x.view x.count) s.failed
    (htaken ▸ List.prefix_refl _) fun _ => htaken
  have hparent := h.parent c hc x
  unfold Tls.hinSslWriteCallback at hstep
  rw [hx] at hstep
  dsimp only at hstep
  rw [if_neg (Nat.lt_irrefl _), if_neg (Nat.lt_irrefl _)] at hstep
  split at hstep
  · rename_i p hp
    obtain rfl := Option.some.inj hstep
    have hpush := hended.push hoff hsized (f := .pump c) rfl
    refine hpush.callback (p := p) (hparent p hx hp).1 ?_ (b := none) fun d hd => absurd hd (by simp)
    intro d hd z hz hzp
    have hnone : d ∈ s.writing.erase c := hd
    rw [show s.writing.erase c = [] from ?_] at hnone
    · exact absurd hnone List.not_mem_nil
    · have hle := h.oneWrite
      have hlen := List.length_erase_of_mem hc
      exact List.length_eq_zero_iff.mp (by omega)
  · exact hended.pump hoff hsized ha hstep

/-! ## Runs -/

/-- What `hin_ssl_write_callback` and `hin_ssl_do_write` rely on: the socket takes a write whole or not at all, and none
    after one has failed; and a `SSL_write` that the pump makes succeeds. -/
def Reliable (s : Tls) : Event → Prop
  | .write _ _ a => a.Writes
  | .read _ _ a => a.Writes
  | .returned _ a => a.Writes
  | .wrote c n a => (s.crypts c).map Crypt.count = some n ∧ s.failed = false ∧ a.Writes
  | .writeFailed _ => True
  | .received _ _ a => a.Writes
  | .readFailed _ => True

instance (s : Tls) : (e : Event) → Decidable (Reliable s e)
  | .write _ _ a => inferInstanceAs (Decidable a.Writes)
  | .read _ _ a => inferInstanceAs (Decidable a.Writes)
  | .returned _ a => inferInstanceAs (Decidable a.Writes)
  | .wrote c n a => inferInstanceAs (Decidable ((s.crypts c).map Crypt.count = some n ∧ s.failed = false ∧ a.Writes))
  | .writeFailed _ => isTrue trivial
  | .received _ _ a => inferInstanceAs (Decidable a.Writes)
  | .readFailed _ => isTrue trivial

/-- **One event keeps the invariant.** -/
theorem tls_step_inv {e : Event} (h : s.Inv) (hguard : Reliable s e) (hstep : s.step e = some s') : s'.Inv := by
  cases e with
  | write p n a =>
      unfold Tls.step at hstep
      dsimp only at hstep
      split at hstep
      · obtain ⟨t, hreq, hrest⟩ := Option.bind_eq_some_iff.mp hstep
        have hlists : t.writeList = s.writeList ∧ t.readList = s.readList := by
          obtain ⟨y, -, rfl, -⟩ := request_spec h hreq
          exact ⟨rfl, rfl⟩
        have hperm : ((t.writeList ++ [p]) ++ t.readList).Perm (p :: (s.writeList ++ s.readList)) := by
          rw [hlists.1, hlists.2, List.append_assoc]
          exact List.perm_middle
        obtain ⟨hinv, hown⟩ := h.handOver hreq hperm
        dsimp only at hrest
        split at hrest
        · exact hinv.handshake hown hguard hrest
        · exact Option.some.inj hrest ▸ hinv
      · exact absurd hstep (by simp)
  | read p n a =>
      unfold Tls.step at hstep
      dsimp only at hstep
      split at hstep
      · obtain ⟨t, hreq, hrest⟩ := Option.bind_eq_some_iff.mp hstep
        have hlists : t.writeList = s.writeList ∧ t.readList = s.readList := by
          obtain ⟨y, -, rfl, -⟩ := request_spec h hreq
          exact ⟨rfl, rfl⟩
        have hperm : (t.writeList ++ (t.readList ++ [p])).Perm (p :: (s.writeList ++ s.readList)) := by
          rw [hlists.1, hlists.2, ← List.append_assoc]
          exact List.perm_append_singleton p _
        obtain ⟨hinv, hown⟩ := h.handOver hreq hperm
        dsimp only at hrest
        split at hrest
        · exact hinv.handshake hown hguard hrest
        · exact Option.some.inj hrest ▸ hinv
      · exact absurd hstep (by simp)
  | returned clean a => exact h.callbackReturns hguard hstep
  | wrote c n a =>
      unfold Tls.step at hstep
      dsimp only at hstep
      split at hstep
      · rename_i hdone
        exact h.writeCallback hdone.1 hdone.2 hguard.1 hguard.2.1 hguard.2.2 hstep
      · exact absurd hstep (by simp)
  | writeFailed c =>
      unfold Tls.step at hstep
      dsimp only at hstep
      split at hstep
      · rename_i hdone
        obtain rfl := Option.some.inj hstep
        obtain ⟨x, hx, -⟩ := h.sized c (List.mem_append_left _ (List.mem_append_left _ hdone.2))
        obtain ⟨hended, hoff⟩ := h.endWrite hdone.1 hdone.2 s.accepted true h.ordered
          fun hf => absurd hf (by simp)
        exact hended.crypt hoff (h.lt_next hx)
      · exact absurd hstep (by simp)
  | received c data a =>
      unfold Tls.step at hstep
      dsimp only at hstep
      split at hstep
      · rename_i hdone
        obtain ⟨x, hx, hptr, hcount⟩ := h.sized c (List.mem_append_left _ (List.mem_append_right _ hdone.2))
        obtain ⟨hended, hoff⟩ := h.endRead hdone.1 hdone.2
        unfold Tls.hinSslReadCallback at hstep
        rw [hx] at hstep
        dsimp only at hstep
        split at hstep
        · exact absurd hstep (by simp)
        · have hset := hended.crypt hoff (v := some { x with mem := poke x.mem x.ptr data }) (h.lt_next hx)
          exact hset.pump ⟨hoff.busy, hoff.held⟩ ⟨_, Function.update_self .., hptr, hcount⟩ hguard hstep
      · exact absurd hstep (by simp)
  | readFailed c =>
      unfold Tls.step at hstep
      dsimp only at hstep
      split at hstep
      · rename_i hdone
        have hsized := h.sized c (List.mem_append_left _ (List.mem_append_right _ hdone.2))
        obtain ⟨hended, hoff⟩ := h.endRead hdone.1 hdone.2
        exact hended.closeNext hoff hsized hstep
      · exact absurd hstep (by simp)

end Ownership

theorem tls_start_inv : ({} : Tls).Inv where
  oneWrite := Nat.zero_le 1
  writeFlag := rfl
  oneRead := Nat.zero_le 1
  readFlag := rfl
  once := List.nodup_nil
  sized := fun _ hc => absurd hc List.not_mem_nil
  held := fun _ _ _ hy => absurd hy (by simp)
  heldOnce := fun _ _ _ _ _ hy => absurd hy (by simp)
  fresh := fun _ _ => rfl
  listOnce := List.nodup_nil
  listed := fun _ hp => absurd hp List.not_mem_nil
  parent := fun _ hc => absurd hc List.not_mem_nil
  books := fun _ => rfl
  ordered := List.prefix_refl _

/-- **A TLS connection.** As long as the socket takes a write whole or fails for good, and `SSL_write` succeeds, the
    socket gets the ciphertext in order, and one write and one read at most are under way, as the flags say. -/
theorem tls_in_order {es : List Event} {s : Tls} (hrun : RunWith Tls.step Reliable {} es s) : s.InOrder :=
  (hrun.invariant tls_start_inv fun _ _ _ h hguard hstep => tls_step_inv h hguard hstep).inOrder

/-- What OpenSSL does once the connection stands: the bytes of a record for each write, and nothing to read. -/
def sealed (record : Bytes) : Answers := { written := 1, record }

/-- A server that reads, answers the first flight of its client with one byte, and has the connection stand. -/
def established : List Event :=
  [.read 0 10 { sealed [9] with status := .wantRead }, .received 0 [1] { sealed [9] with first := [7] },
    .wrote 0 1 { sealed [9] with status := .wantRead }, .received 0 [2] (sealed [9])]

/-- The read goes on while two writes go out one after the other. The second is handed over before the callback of the
    first returns, and takes a crypt buffer of its own. -/
theorem tls_in_order_sample :
    ∃ s, RunWith Tls.step Reliable {}
        (established ++ [.write 1 1 (sealed [1, 2, 3]), .wrote 1 3 (sealed [9]), .write 2 1 (sealed [4, 5]),
          .returned true (sealed [9]), .wrote 2 2 (sealed [9])]) s ∧
      s.accepted = [7, 1, 2, 3, 4, 5] ∧ s.InOrder := by
  obtain ⟨s, hs⟩ : ∃ s, execWith Tls.step (fun s e => decide (Reliable s e)) {}
      (established ++ [.write 1 1 (sealed [1, 2, 3]), .wrote 1 3 (sealed [9]), .write 2 1 (sealed [4, 5]),
        .returned true (sealed [9]), .wrote 2 2 (sealed [9])]) = some s := ⟨_, rfl⟩
  have hrun := RunWith.of_exec (fun _ _ h => of_decide_eq_true h) _ hs
  exact ⟨s, hrun, Option.some.inj hs ▸ rfl, tls_in_order hrun⟩

/-- **Every write that is accepted in part is lost track of.** -/
theorem partial_untracked {s s' : Tls} {c n : Nat} {a : Answers} {x : Crypt} (hx : s.crypts c = some x)
    (hpart : n < x.count) (hstep : s.step (.wrote c n a) = some s') : ¬ s'.InOrder := by
  intro horder
  unfold Tls.step at hstep
  dsimp only at hstep
  split at hstep
  · unfold Tls.hinSslWriteCallback at hstep
    rw [hx] at hstep
    dsimp only at hstep
    rw [if_neg (by omega), if_pos hpart] at hstep
    obtain rfl := Option.some.inj hstep
    have hflag := horder.writeTracked.mpr (by simp)
    exact absurd hflag Bool.false_ne_true
  · exact absurd hstep (by simp)

/-- **A write that is accepted in part.** The rest is given to the socket with the flag cleared, so the next write of the
    application is begun beside it; when that one is done first, its bytes are in front of the rest. -/
theorem tls_interleaved :
    (∃ s, Run Tls.step {} (established ++ [.write 1 1 (sealed [1, 2, 3]), .wrote 1 1 (sealed [9])]) s ∧
      s.writeFlag = false ∧ s.writing = [1]) ∧
    ∃ s, Run Tls.step {} (established ++ [.write 1 1 (sealed [1, 2, 3]), .wrote 1 1 (sealed [9]),
        .write 2 1 (sealed [4, 5]), .wrote 2 2 (sealed [9])]) s ∧
      s.accepted = [7, 1, 4, 5] ∧ s.taken = [7, 1, 2, 3, 4, 5] ∧ ¬ s.InOrder := by
  constructor
  · obtain ⟨s, hs⟩ : ∃ s, execWith Tls.step (fun _ _ => true) {}
        (established ++ [.write 1 1 (sealed [1, 2, 3]), .wrote 1 1 (sealed [9])]) = some s := ⟨_, rfl⟩
    exact ⟨s, RunWith.of_exec (fun _ _ _ => trivial) _ hs, Option.some.inj hs ▸ rfl, Option.some.inj hs ▸ rfl⟩
  · obtain ⟨s, hs⟩ : ∃ s, execWith Tls.step (fun _ _ => true) {}
        (established ++ [.write 1 1 (sealed [1, 2, 3]), .wrote 1 1 (sealed [9]), .write 2 1 (sealed [4, 5]),
          .wrote 2 2 (sealed [9])]) = some s := ⟨_, rfl⟩
    have haccepted : s.accepted = [7, 1, 4, 5] := Option.some.inj hs ▸ rfl
    have htaken : s.taken = [7, 1, 2, 3, 4, 5] := Option.some.inj hs ▸ rfl
    refine ⟨s, RunWith.of_exec (fun _ _ _ => trivial) _ hs, haccepted, htaken, ?_⟩
    intro horder
    have hprefix := horder.ordered
    rw [haccepted, htaken] at hprefix
    exact absurd hprefix (by decide)

end Ssl
end Netcode
end Hin9
