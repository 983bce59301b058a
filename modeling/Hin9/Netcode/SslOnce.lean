import Hin9.Netcode.SslOrder

/-!
# `Netcode.SslOnce` — every plain buffer is somewhere, and is called back once

A plain buffer that was handed over waits in one of the two lists, or its record is in a crypt buffer that the socket is
writing; a read stays in its list until it is called back. `Placed` is this invariant, with the one buffer aside that a
function has taken out of its place and is about to call back or to attach.

It does not look at the flags, and holds when writes are accepted in part and `SSL_write` fails. It is lost where a write
that carries a record fails: `hin_ssl_write_callback` cleans the crypt buffer and forgets whose it was.
-/

namespace Hin9
namespace Netcode
namespace Ssl

open Lib

/-! ## Books -/

/-- The plain buffer was handed over and has not been called back. -/
def Tls.pending (s : Tls) (p : Nat) : Bool := ((s.plains p).map Plain.active).getD false

/-- The plain buffer whose record is in a crypt buffer. -/
def Tls.carries (s : Tls) (c : Nat) : Option Nat := (s.crypts c).bind Crypt.parent

/-- In how many places a plain buffer is: the lists, and the crypt buffers being written. -/
def Tls.places (s : Tls) (p : Nat) : Nat :=
  (s.writeList ++ s.readList).count p + s.writing.countP fun c => s.carries c = some p

/-- What is on the stack after an event that calls nobody back. -/
def Tls.rest (s : Tls) : Event → List Frame
  | .returned _ _ =>
      match s.stack with
      | .callback _ :: .pump _ :: stack => stack
      | .callback _ :: .closing _ _ :: stack => stack
      | .callback _ :: stack => stack
      | stack => stack
  | _ => s.stack

/-- The plain buffer that is called back in the event from `s` to `s'`. -/
def Tls.called (s : Tls) (e : Event) (s' : Tls) : Option Nat :=
  if (s.rest e).length < s'.stack.length then
    match s'.stack with
    | .callback p :: _ => some p
    | _ => none
  else none

/-- The plain buffer an event hands over. -/
def Event.submits : Event → Option Nat
  | .write p _ _ => some p
  | .read p _ _ => some p
  | _ => none

/-- A connection with the numbers of times each buffer was handed over and called back. -/
structure Ledger where
  tls : Tls := {}
  submitted : Nat → Nat := fun _ => 0
  completed : Nat → Nat := fun _ => 0

def Ledger.step (l : Ledger) (e : Event) : Option Ledger :=
  (l.tls.step e).map fun s =>
    { tls := s
      submitted := fun p => l.submitted p + if e.submits = some p then 1 else 0
      completed := fun p => l.completed p + if l.tls.called e s = some p then 1 else 0 }

/-- **Every buffer is called back once for each time it was handed over, or it is pending**; and then it is in one place. -/
structure Ledger.Sound (l : Ledger) : Prop where
  completed : ∀ p, l.submitted p = l.completed p + if l.tls.pending p = true then 1 else 0
  placed : ∀ p, l.tls.places p = if l.tls.pending p = true then 1 else 0

/-! ## When -/

/-- The crypt buffers from before that an event runs the pump with, or cleans. -/
def Tls.uses (s : Tls) : Event → List Nat
  | .write p _ _ => if s.writeList.isEmpty then ((s.plains p).bind Plain.sslBuffer).toList else []
  | .read p _ _ => if s.readList.isEmpty then ((s.plains p).bind Plain.sslBuffer).toList else []
  | .returned clean _ =>
      match s.stack with
      | .callback p :: stack =>
          (if clean then ((s.plains p).bind Plain.sslBuffer).toList else []) ++
            match stack with
            | .pump c :: _ => [c]
            | .closing none c :: _ => [c]
            | _ => []
      | _ => []
  | _ => []

/-- No write fails that carries a record, and a crypt buffer is left alone while the socket is working on it. -/
def Careful (s : Tls) (e : Event) : Prop :=
  (∀ c ∈ s.uses e, s.isActive c = false) ∧ ∀ c, e = .writeFailed c → s.carries c = none

/-! ## The invariant -/

/-- Every pending buffer is in one place, but for `o`. -/
structure Tls.Placed (s : Tls) (o : Option Nat) : Prop where
  lists : (s.writeList ++ s.readList).Nodup
  flight : (s.writing ++ s.reading).Nodup
  fresh : ∀ c, s.nextCrypt ≤ c → s.crypts c = none
  known : ∀ c ∈ s.writing ++ s.reading, c < s.nextCrypt
  listed : ∀ p ∈ s.writeList ++ s.readList, s.pending p = true ∧ o ≠ some p
  carried : ∀ c ∈ s.writing, ∀ p, s.carries c = some p →
    s.pending p = true ∧ p ∉ s.writeList ++ s.readList ∧ o ≠ some p
  carriedOnce : ∀ c ∈ s.writing, ∀ d ∈ s.writing, ∀ p, s.carries c = some p → s.carries d = some p → c = d
  placed : ∀ p, s.pending p = true →
    p ∈ s.writeList ++ s.readList ∨ (∃ c ∈ s.writing, s.carries c = some p) ∨ o = some p
  aside : ∀ p, o = some p → s.pending p = true

/-- What a function does besides: it calls nobody back, or one pending buffer. -/
inductive Calls (s : Tls) (base : List Frame) (s' : Tls) : Prop where
  | quiet : s'.stack = base → (∀ q, s'.pending q = s.pending q) → Calls s base s'
  | call (p : Nat) (fs : List Frame) : s'.stack = .callback p :: fs → base.length ≤ fs.length → s.pending p = true →
      (∀ q, s'.pending q = if q = p then false else s.pending q) → Calls s base s'

section

variable {s s' : Tls} {o : Option Nat} {c p : Nat} {a : Answers}

theorem not_active_iff : s.isActive c = false ↔ c ∉ s.writing ++ s.reading := by
  unfold Tls.isActive
  simp

theorem Tls.Placed.lt_next (h : s.Placed o) {x : Crypt} (hc : s.crypts c = some x) : c < s.nextCrypt := by
  by_contra hge
  exact absurd ((h.fresh c (Nat.le_of_not_lt hge)).symm.trans hc) (by simp)

/-- Only the crypt buffers that are being written matter. -/
theorem Tls.Placed.crypt (h : s.Placed o) (hc : c ∉ s.writing) (hlt : c < s.nextCrypt) (v : Option Crypt) :
    ({ s with crypts := Function.update s.crypts c v } : Tls).Placed o := by
  have hsame : ∀ d ∈ s.writing, ({ s with crypts := Function.update s.crypts c v } : Tls).carries d = s.carries d := by
    intro d hd
    have hdc : d ≠ c := by
      rintro rfl
      exact hc hd
    unfold Tls.carries
    dsimp only
    rw [Function.update_of_ne hdc]
  refine { h with fresh := ?_, carried := ?_, carriedOnce := ?_, placed := ?_ }
  · intro d hd
    have hdc : d ≠ c := by
      rintro rfl
      exact absurd hlt (Nat.not_lt.mpr hd)
    exact (Function.update_of_ne hdc ..).trans (h.fresh d hd)
  · intro d hd p hp
    exact h.carried d hd p ((hsame d hd).symm.trans hp)
  · intro d hd e he p hp hp'
    exact h.carriedOnce d hd e he p ((hsame d hd).symm.trans hp) ((hsame e he).symm.trans hp')
  · intro p hp
    rcases h.placed p hp with hl | ⟨d, hd, hp⟩ | ho
    · exact .inl hl
    · exact .inr (.inl ⟨d, hd, (hsame d hd).trans hp⟩)
    · exact .inr (.inr ho)

/-- **A write is begun** with the record of the buffer aside, or with none. -/
theorem Tls.Placed.write (h : s.Placed o) (hc : s.isActive c = false) (hlt : c < s.nextCrypt) (x : Crypt)
    (hx : x.parent = o) :
    ({ s with crypts := Function.update s.crypts c (some x), writing := s.writing ++ [c] } : Tls).Placed none := by
  have hoff := not_active_iff.mp hc
  have hnot : c ∉ s.writing := fun hmem => hoff (List.mem_append_left _ hmem)
  have hbase := h.crypt hnot hlt (some x)
  have hself : ({ s with crypts := Function.update s.crypts c (some x) } : Tls).carries c = o := by
    unfold Tls.carries
    dsimp only
    rw [Function.update_self]
    exact hx
  refine ⟨h.lists, ?_, hbase.fresh, ?_, ?_, ?_, ?_, ?_, fun p hp => absurd hp (by simp)⟩
  · show (s.writing ++ [c] ++ s.reading).Nodup
    rw [List.append_assoc]
    exact List.perm_middle.nodup_iff.mpr (List.nodup_cons.mpr ⟨hoff, h.flight⟩)
  · intro d hd
    rcases List.mem_append.mp hd with hd | hd
    · rcases List.mem_append.mp hd with hd | hd
      · exact h.known d (List.mem_append_left _ hd)
      · exact List.mem_singleton.mp hd ▸ hlt
    · exact h.known d (List.mem_append_right _ hd)
  · exact fun p hp => ⟨(h.listed p hp).1, by simp⟩
  · intro d hd p hp
    rcases List.mem_append.mp hd with hd | hd
    · obtain ⟨hpend, hlist, -⟩ := hbase.carried d hd p hp
      exact ⟨hpend, hlist, by simp⟩
    · obtain rfl := List.mem_singleton.mp hd
      have ho : o = some p := hself.symm.trans hp
      exact ⟨h.aside p ho, fun hl => (h.listed p hl).2 ho, by simp⟩
  · intro d hd e he p hp hp'
    rcases List.mem_append.mp hd with hold | hnew
    · rcases List.mem_append.mp he with hold' | hnew'
      · exact hbase.carriedOnce d hold e hold' p hp hp'
      · have ho : o = some p := hself.symm.trans (List.mem_singleton.mp hnew' ▸ hp')
        exact absurd ho (hbase.carried d hold p hp).2.2
    · rcases List.mem_append.mp he with hold' | hnew'
      · have ho : o = some p := hself.symm.trans (List.mem_singleton.mp hnew ▸ hp)
        exact absurd ho (hbase.carried e hold' p hp').2.2
      · exact (List.mem_singleton.mp hnew).trans (List.mem_singleton.mp hnew').symm
  · intro p hp
    rcases hbase.placed p hp with hl | ⟨d, hd, hp⟩ | ho
    · exact .inl hl
    · exact .inr (.inl ⟨d, List.mem_append_left _ hd, hp⟩)
    · exact .inr (.inl ⟨c, List.mem_append_right _ (List.mem_singleton_self c), hself.trans ho⟩)

theorem Tls.Placed.read (h : s.Placed o) (hc : s.isActive c = false) (hlt : c < s.nextCrypt) :
    ({ s with reading := s.reading ++ [c] } : Tls).Placed o := by
  have hoff := not_active_iff.mp hc
  refine { h with flight := ?_, known := ?_ }
  · show (s.writing ++ (s.reading ++ [c])).Nodup
    rw [← List.append_assoc]
    exact (List.perm_append_singleton c _).nodup_iff.mpr (List.nodup_cons.mpr ⟨hoff, h.flight⟩)
  · intro d hd
    rcases List.mem_append.mp hd with hd | hd
    · exact h.known d (List.mem_append_left _ hd)
    · rcases List.mem_append.mp hd with hd | hd
      · exact h.known d (List.mem_append_right _ hd)
      · exact List.mem_singleton.mp hd ▸ hlt

/-- The first buffer that is to be written is taken out of its list. -/
theorem Tls.Placed.takeWrite (h : s.Placed none) {rest : List Nat} (hp : s.writeList = p :: rest) :
    ({ s with writeList := rest } : Tls).Placed (some p) := by
  have hlists := h.lists
  rw [hp, List.cons_append] at hlists
  obtain ⟨hnot, hnodup⟩ := List.nodup_cons.mp hlists
  have hmem : ∀ q, q ∈ s.writeList ++ s.readList ↔ q = p ∨ q ∈ rest ++ s.readList := by
    intro q
    rw [hp, List.cons_append, List.mem_cons]
  have hpend : s.pending p = true := (h.listed p ((hmem p).mpr (.inl rfl))).1
  refine { h with lists := hnodup, listed := ?_, carried := ?_, placed := ?_, aside := ?_ }
  · intro q hq
    refine ⟨(h.listed q ((hmem q).mpr (.inr hq))).1, ?_⟩
    intro heq
    exact hnot (Option.some.inj heq ▸ hq)
  · intro d hd q hq
    obtain ⟨hq', hlist, -⟩ := h.carried d hd q hq
    refine ⟨hq', fun hin => hlist ((hmem q).mpr (.inr hin)), ?_⟩
    intro heq
    exact hlist ((hmem q).mpr (.inl (Option.some.inj heq).symm))
  · intro q hq
    rcases h.placed q hq with hl | hc | ho
    · rcases (hmem q).mp hl with rfl | hl
      · exact .inr (.inr rfl)
      · exact .inl hl
    · exact .inr (.inl hc)
    · exact absurd ho (by simp)
  · intro q hq
    exact Option.some.inj hq ▸ hpend

/-- A buffer that waits for a read is taken out of its list. -/
theorem Tls.Placed.takeRead (h : s.Placed none) (hp : p ∈ s.readList) :
    ({ s with readList := s.readList.erase p } : Tls).Placed (some p) := by
  have hmem : ∀ q, q ∈ s.writeList ++ s.readList ↔ q = p ∨ q ∈ s.writeList ++ s.readList.erase p := by
    intro q
    by_cases hqp : q = p
    · subst hqp
      simp [hp]
    · simp [List.mem_erase_of_ne hqp, hqp]
  have hnot : p ∉ s.writeList ++ s.readList.erase p := by
    intro hin
    rcases List.mem_append.mp hin with hin | hin
    · exact (List.nodup_append.mp h.lists).2.2 p hin p hp rfl
    · exact ((List.nodup_append.mp h.lists).2.1.mem_erase_iff.mp hin).1 rfl
  refine { h with lists := ?_, listed := ?_, carried := ?_, placed := ?_, aside := ?_ }
  · exact h.lists.sublist (List.Sublist.append_left List.erase_sublist _)
  · intro q hq
    refine ⟨(h.listed q ((hmem q).mpr (.inr hq))).1, ?_⟩
    intro heq
    exact hnot (Option.some.inj heq ▸ hq)
  · intro d hd q hq
    obtain ⟨hq', hlist, -⟩ := h.carried d hd q hq
    refine ⟨hq', fun hin => hlist ((hmem q).mpr (.inr hin)), ?_⟩
    intro heq
    exact hlist ((hmem q).mpr (.inl (Option.some.inj heq).symm))
  · intro q hq
    rcases h.placed q hq with hl | hc | ho
    · rcases (hmem q).mp hl with rfl | hl
      · exact .inr (.inr rfl)
      · exact .inl hl
    · exact .inr (.inl hc)
    · exact absurd ho (by simp)
  · intro q hq
    exact Option.some.inj hq ▸ (h.listed p ((hmem p).mpr (.inl rfl))).1

theorem pending_onPlain (f : Plain → Plain) (hf : ∀ y, (f y).active = y.active) (q : Nat) :
    (s.onPlain p f).pending q = s.pending q := by
  unfold Tls.pending Tls.onPlain
  dsimp only
  by_cases hq : q = p
  · rw [hq, Function.update_self, Option.map_map]
    cases s.plains p with
    | none => rfl
    | some y => exact hf y
  · rw [Function.update_of_ne hq]

/-- Of the plain buffers it matters which are pending. -/
theorem Tls.Placed.plains (h : s.Placed o) {plains : Nat → Option Plain}
    (hpend : ∀ q, ({ s with plains := plains } : Tls).pending q = s.pending q) :
    ({ s with plains := plains } : Tls).Placed o := by
  refine { h with listed := ?_, carried := ?_, placed := ?_, aside := ?_ }
  · intro q hq
    rw [hpend]
    exact h.listed q hq
  · intro d hd q hq
    rw [hpend]
    exact h.carried d hd q hq
  · intro q hq
    rw [hpend] at hq
    exact h.placed q hq
  · intro q hq
    rw [hpend]
    exact h.aside q hq

theorem Tls.Placed.plain (h : s.Placed o) (f : Plain → Plain) (hf : ∀ y, (f y).active = y.active) :
    (s.onPlain p f).Placed o := h.plains (pending_onPlain f hf)

theorem pending_callback (q : Nat) : (s.hinSslCallback p).pending q = if q = p then false else s.pending q := by
  unfold Tls.hinSslCallback Tls.pending Tls.onPlain
  dsimp only
  by_cases hq : q = p
  · rw [if_pos hq, hq, Function.update_self, Option.map_map]
    cases s.plains p with
    | none => rfl
    | some y => rfl
  · rw [if_neg hq, Function.update_of_ne hq]

/-- **The buffer aside is called back.** -/
theorem Tls.Placed.call (h : s.Placed (some p)) :
    (s.hinSslCallback p).Placed none ∧ Calls s s.stack (s.hinSslCallback p) := by
  have hother : ∀ q, q ≠ p → (s.hinSslCallback p).pending q = s.pending q := fun q hq =>
    (pending_callback q).trans (if_neg hq)
  have hne : ∀ q, some p ≠ some q → q ≠ p := by
    rintro q hq rfl
    exact hq rfl
  constructor
  · refine { h with listed := ?_, carried := ?_, placed := ?_, aside := fun q hq => absurd hq (by simp) }
    · intro q hq
      obtain ⟨hpend, ho⟩ := h.listed q hq
      exact ⟨(hother q (hne q ho)).trans hpend, by simp⟩
    · intro d hd q hq
      obtain ⟨hpend, hlist, ho⟩ := h.carried d hd q hq
      exact ⟨(hother q (hne q ho)).trans hpend, hlist, by simp⟩
    · intro q hq
      rw [pending_callback] at hq
      by_cases hqp : q = p
      · rw [if_pos hqp] at hq
        exact absurd hq (by simp)
      · rw [if_neg hqp] at hq
        rcases h.placed q hq with hl | hc | ho
        · exact .inl hl
        · exact .inr (.inl hc)
        · exact absurd (Option.some.inj ho).symm hqp
  · exact .call p s.stack rfl le_rfl (h.aside p rfl) pending_callback

/-- A function that starts from another state with the same buffers pending. -/
theorem Calls.from {t : Tls} {base : List Frame} (hpend : ∀ q, t.pending q = s.pending q) (h : Calls t base s') :
    Calls s base s' := by
  cases h with
  | quiet hst hp => exact .quiet hst fun q => (hp q).trans (hpend q)
  | call p fs hst hlen hact hp =>
      refine .call p fs hst hlen ((hpend p).symm.trans hact) fun q => (hp q).trans ?_
      rw [hpend q]

/-! ## The pump -/

theorem Tls.Placed.doWrite (h : s.Placed none) (hc : s.isActive c = false) {x : Crypt} (hx : s.crypts c = some x)
    (hs : s.hinSslDoWrite a c x = some s') : s'.Placed none ∧ Calls s s.stack s' := by
  unfold Tls.hinSslDoWrite at hs
  split at hs
  · exact absurd hs (by simp)
  · rename_i p rest hlist
    split at hs
    · exact absurd hs (by simp)
    · have htake := h.takeWrite hlist
      -- the two failures, with the state the callback finds
      have hfailed : ∀ t : Tls, t.Placed (some p) → (∀ q, t.pending q = s.pending q) → t.stack = s.stack →
          some (t.hinSslCallback p) = some s' → s'.Placed none ∧ Calls s s.stack s' := by
        intro t ht hpend hstack heq
        obtain rfl := Option.some.inj heq
        exact ⟨ht.call.1, hstack ▸ ht.call.2.from hpend⟩
      dsimp only at hs
      split at hs
      · apply hfailed _ _ _ _ hs
        · exact { htake with }
        · exact fun _ => rfl
        · rfl
      · split at hs
        · apply hfailed _ _ _ _ hs
          · exact { htake with }
          · exact fun _ => rfl
          · rfl
        · split at hs
          · rename_i hact
            exact absurd (hc.symm.trans hact) (by simp)
          · obtain rfl := Option.some.inj hs
            have hlt := h.lt_next hx
            have hwrite := htake.write hc hlt
              { x with
                mem := poke x.mem x.ptr ((s.wbio ++ a.record).take x.count)
                count := ((s.wbio ++ a.record).take x.count).length
                parent := some p } rfl
            have hplain := hwrite.plain (p := p) (fun y => { y with sslBuffer := some c }) fun _ => rfl
            refine ⟨{ hplain with }, .quiet rfl ?_⟩
            exact pending_onPlain (s := s) (fun y => { y with sslBuffer := some c }) fun _ => rfl

theorem Tls.Placed.doRead (h : s.Placed none) (hc : s.isActive c = false) {x : Crypt} (hx : s.crypts c = some x)
    (hs : s.hinSslDoRead a c x = some s') : s'.Placed none ∧ Calls s s.stack s' := by
  unfold Tls.hinSslDoRead at hs
  split at hs
  · exact absurd hs (by simp)
  · rename_i p rest hlist
    split at hs
    · exact absurd hs (by simp)
    · dsimp only at hs
      have hpend : ∀ q, (s.onPlain p fun y => { y with sslBuffer := some c }).pending q = s.pending q :=
        pending_onPlain (s := s) (fun y => { y with sslBuffer := some c }) fun _ => rfl
      split at hs
      · obtain rfl := Option.some.inj hs
        have htake := h.takeRead (p := p) (by simp [hlist])
        have hrest : s.readList.erase p = rest := by
          rw [hlist, List.erase_cons_head]
        rw [hrest] at htake
        have hplain := htake.plain (p := p) (fun y => { y with sslBuffer := some c }) fun _ => rfl
        have hready : ({ (s.putOut a.reply).onPlain p (fun y => { y with sslBuffer := some c }) with readList := rest } :
            Tls).Placed (some p) := { hplain with }
        refine ⟨hready.call.1, Calls.from ?_ hready.call.2⟩
        exact hpend
      · split at hs
        · rename_i hact
          exact absurd (hc.symm.trans hact) (by simp)
        · obtain rfl := Option.some.inj hs
          have hlt := h.lt_next hx
          have hnot : c ∉ s.writing := fun hmem => not_active_iff.mp hc (List.mem_append_left _ hmem)
          have hplain := (h.crypt hnot hlt (some { x with count := CRYPT_SZ, parent := some p })).plain (p := p)
            (fun y => { y with sslBuffer := some c }) fun _ => rfl
          have hread := hplain.read hc hlt
          exact ⟨{ hread with }, .quiet rfl hpend⟩

/-- **The pump**, with a crypt buffer that the socket is not working on. -/
theorem Tls.Placed.pump (h : s.Placed none) (hc : s.isActive c = false) (hs : s.hinSslPump a c = some s') :
    s'.Placed none ∧ Calls s s.stack s' := by
  have hnot : c ∉ s.writing := fun hmem => not_active_iff.mp hc (List.mem_append_left _ hmem)
  unfold Tls.hinSslPump at hs
  split at hs
  · exact absurd hs (by simp)
  · rename_i x hx
    have hlt := h.lt_next hx
    have hset := h.crypt hnot hlt (some { x with parent := none })
    have hself : Function.update s.crypts c (some { x with parent := none }) c = some { x with parent := none } :=
      Function.update_self ..
    unfold Tls.hinSslCheckData at hs
    dsimp only at hs
    split at hs
    · split at hs
      · exact absurd hs (by simp)
      · obtain rfl := Option.some.inj hs
        have hwrite := hset.write hc hlt
          { x with
            parent := none
            mem := poke x.mem 0 ((s.wbio ++ a.first).take CRYPT_SZ)
            count := ((s.wbio ++ a.first).take CRYPT_SZ).length } rfl
        exact ⟨{ hwrite with }, .quiet rfl fun _ => rfl⟩
    · split at hs
      · split at hs
        · obtain rfl := Option.some.inj hs
          have hfree := hset.crypt (v := none) hnot hlt
          exact ⟨{ hfree with }, .quiet rfl fun _ => rfl⟩
        · split at hs
          · exact absurd hs (by simp)
          · obtain rfl := Option.some.inj hs
            have hread := (hset.crypt hnot hlt (some { x with parent := none, count := CRYPT_SZ })).read hc hlt
            exact ⟨{ hread with }, .quiet rfl fun _ => rfl⟩
      · obtain rfl := Option.some.inj hs
        have hfree := hset.crypt (v := none) hnot hlt
        exact ⟨{ hfree with }, .quiet rfl fun _ => rfl⟩
      all_goals
        -- the handshake is through
        have hready : (((s.setCrypt c { x with parent := none }).putOut a.first).putOut a.second).Placed none :=
          { hset with }
        split at hs
        · rename_i t ht
          obtain rfl := Option.some.inj hs
          have hdone := hready.doWrite hc hself ht
          refine ⟨hdone.1, Calls.from ?_ hdone.2⟩
          exact fun _ => rfl
        · split at hs
          · rename_i t ht
            obtain rfl := Option.some.inj hs
            have hdone := hready.doRead hc hself ht
            refine ⟨hdone.1, Calls.from ?_ hdone.2⟩
            exact fun _ => rfl
          · obtain rfl := Option.some.inj hs
            have hfree := hset.crypt (v := none) hnot hlt
            exact ⟨{ hfree with }, .quiet rfl fun _ => rfl⟩

/-! ## Requests -/

/-- `hin_ssl_handshake` with the crypt buffer that `p` has, or with a new one. -/
theorem Tls.Placed.handshake (h : s.Placed none)
    (hc : ∀ c, (s.plains p).bind Plain.sslBuffer = some c → s.isActive c = false)
    (hs : s.hinSslHandshake a p = some s') : s'.Placed none ∧ Calls s s.stack s' := by
  unfold Tls.hinSslHandshake at hs
  split at hs
  · rename_i c hbuf
    exact h.pump (hc c hbuf) hs
  · have hknown : ∀ c ∈ s.writing ++ s.reading, c ≠ s.nextCrypt := fun c hmem => Nat.ne_of_lt (h.known c hmem)
    have hsame : ∀ c ∈ s.writing, ({ s.setCrypt s.nextCrypt {} with nextCrypt := s.nextCrypt + 1 } : Tls).carries c =
        s.carries c := by
      intro c hmem
      unfold Tls.carries Tls.setCrypt
      dsimp only
      rw [Function.update_of_ne (hknown c (List.mem_append_left _ hmem))]
    have hnew : ({ s.setCrypt s.nextCrypt {} with nextCrypt := s.nextCrypt + 1 } : Tls).Placed none := by
      refine { h with fresh := ?_, known := ?_, carried := ?_, carriedOnce := ?_, placed := ?_ }
      · intro c hc
        have hne : c ≠ s.nextCrypt := Nat.ne_of_gt hc
        exact (Function.update_of_ne hne ..).trans (h.fresh c (Nat.le_of_succ_le hc))
      · exact fun c hmem => Nat.lt_succ_of_lt (h.known c hmem)
      · intro c hmem q hq
        exact h.carried c hmem q ((hsame c hmem).symm.trans hq)
      · intro c hmem d hmem' q hq hq'
        exact h.carriedOnce c hmem d hmem' q ((hsame c hmem).symm.trans hq) ((hsame d hmem').symm.trans hq')
      · intro q hq
        rcases h.placed q hq with hl | ⟨c, hmem, hq⟩ | ho
        · exact .inl hl
        · exact .inr (.inl ⟨c, hmem, (hsame c hmem).trans hq⟩)
        · exact .inr (.inr ho)
    have hoff : s.isActive s.nextCrypt = false := not_active_iff.mpr fun hmem => hknown _ hmem rfl
    have hdone := hnew.pump hoff hs
    refine ⟨hdone.1, Calls.from ?_ hdone.2⟩
    exact fun _ => rfl

theorem request_cases {n : Nat} (hs : s.request p n = some s') : s.pending p = false ∧
    (∀ q, s'.pending q = if q = p then true else s.pending q) ∧
    ∃ y, s' = { s with plains := Function.update s.plains p (some y) } ∧
      y.sslBuffer = (s.plains p).bind Plain.sslBuffer := by
  have hafter : ∀ y : Plain, y.active = true → ∀ q,
      ({ s with plains := Function.update s.plains p (some y) } : Tls).pending q = if q = p then true else s.pending q := by
    intro y hy q
    unfold Tls.pending
    dsimp only
    by_cases hq : q = p
    · rw [if_pos hq, hq, Function.update_self]
      exact hy
    · rw [if_neg hq, Function.update_of_ne hq]
  unfold Tls.request at hs
  unfold Tls.pending
  cases hp : s.plains p with
  | none =>
      rw [hp] at hs
      obtain rfl := Option.some.inj hs
      exact ⟨rfl, hafter { count := n } rfl, { count := n }, rfl, rfl⟩
  | some y =>
      rw [hp] at hs
      dsimp only at hs
      by_cases hact : y.active = true
      · rw [if_pos hact] at hs
        exact absurd hs (by simp)
      · rw [if_neg hact] at hs
        obtain rfl := Option.some.inj hs
        have heq : s.onPlain p (fun y => { y with count := n, active := true }) =
            { s with plains := Function.update s.plains p (some { y with count := n, active := true }) } := by
          unfold Tls.onPlain
          rw [hp]
          rfl
        rw [heq]
        exact ⟨Bool.not_eq_true _ ▸ hact, hafter { y with count := n, active := true } rfl, _, rfl, rfl⟩

/-- **A buffer is handed over** and goes to the end of a list. -/
theorem Tls.Placed.handOver (h : s.Placed none) {n : Nat} {t : Tls} (hs : s.request p n = some t) {ws rs : List Nat}
    (hperm : (ws ++ rs).Perm (p :: (s.writeList ++ s.readList))) :
    ({ t with writeList := ws, readList := rs } : Tls).Placed none := by
  obtain ⟨hidle, hpend, y, rfl, -⟩ := request_cases hs
  have hnot : p ∉ s.writeList ++ s.readList := by
    intro hmem
    exact absurd (hidle.symm.trans (h.listed p hmem).1) (by simp)
  have hmem : ∀ q, q ∈ ws ++ rs ↔ q = p ∨ q ∈ s.writeList ++ s.readList := fun q =>
    hperm.mem_iff.trans List.mem_cons
  have hkept : ∀ q, s.pending q = true →
      ({ s with plains := Function.update s.plains p (some y) } : Tls).pending q = true := by
    intro q hq
    rw [hpend q]
    split
    · rfl
    · exact hq
  refine ⟨hperm.nodup_iff.mpr (List.nodup_cons.mpr ⟨hnot, h.lists⟩), h.flight, h.fresh, h.known, ?_, ?_, h.carriedOnce,
    ?_, fun q hq => absurd hq (by simp)⟩
  · intro q hq
    refine ⟨?_, by simp⟩
    rcases (hmem q).mp hq with rfl | hq
    · exact (hpend q).trans (if_pos rfl)
    · exact hkept q (h.listed q hq).1
  · intro c hc q hq
    obtain ⟨hq', hlist, -⟩ := h.carried c hc q hq
    refine ⟨hkept q hq', ?_, by simp⟩
    intro hin
    rcases (hmem q).mp hin with rfl | hin
    · exact absurd (hidle.symm.trans hq') (by simp)
    · exact hlist hin
  · intro q hq
    have hq' : (if q = p then true else s.pending q) = true := (hpend q).symm.trans hq
    by_cases hqp : q = p
    · exact .inl ((hmem q).mpr (.inl hqp))
    · rw [if_neg hqp] at hq'
      rcases h.placed q hq' with hl | hc | ho
      · exact .inl ((hmem q).mpr (.inr hl))
      · exact .inr (.inl hc)
      · exact .inr (.inr ho)

/-! ## Completions -/

/-- A crypt buffer comes back from the socket. -/
theorem Tls.Placed.wroteAll (h : s.Placed none) (hc : c ∈ s.writing) :
    ({ s with writing := s.writing.erase c } : Tls).Placed (s.carries c) ∧
      ({ s with writing := s.writing.erase c } : Tls).isActive c = false := by
  have hnodup : s.writing.Nodup := (List.nodup_append.mp h.flight).1
  have hmem : ∀ d, d ∈ s.writing ↔ d = c ∨ d ∈ s.writing.erase c := by
    intro d
    by_cases hdc : d = c
    · simp [hdc, hc]
    · simp [hdc, List.mem_erase_of_ne]
  have hnot : c ∉ s.writing.erase c := fun hin => (hnodup.mem_erase_iff.mp hin).1 rfl
  constructor
  · refine ⟨h.lists, h.flight.sublist (List.Sublist.append_right List.erase_sublist _), h.fresh, ?_, ?_, ?_, ?_, ?_, ?_⟩
    · intro d hd
      rcases List.mem_append.mp hd with hd | hd
      · exact h.known d (List.mem_append_left _ (List.mem_of_mem_erase hd))
      · exact h.known d (List.mem_append_right _ hd)
    · intro p hp
      exact ⟨(h.listed p hp).1, fun heq => (h.carried c hc p heq).2.1 hp⟩
    · intro d hd p hp
      have hd' := List.mem_of_mem_erase hd
      obtain ⟨hpend, hlist, -⟩ := h.carried d hd' p hp
      refine ⟨hpend, hlist, fun heq => ?_⟩
      obtain rfl := h.carriedOnce d hd' c hc p hp heq
      exact hnot hd
    · intro d hd e he p
      exact h.carriedOnce d (List.mem_of_mem_erase hd) e (List.mem_of_mem_erase he) p
    · intro p hp
      rcases h.placed p hp with hl | ⟨d, hd, hcarries⟩ | ho
      · exact .inl hl
      · rcases (hmem d).mp hd with rfl | hd
        · exact .inr (.inr hcarries)
        · exact .inr (.inl ⟨d, hd, hcarries⟩)
      · exact absurd ho (by simp)
    · exact fun p hp => (h.carried c hc p hp).1
  · refine not_active_iff.mpr fun hin => ?_
    rcases List.mem_append.mp hin with hin | hin
    · exact hnot hin
    · exact (List.nodup_append.mp h.flight).2.2 c hc c hin rfl

theorem Tls.Placed.readAll (h : s.Placed o) (hc : c ∈ s.reading) :
    ({ s with reading := s.reading.erase c } : Tls).Placed o ∧
      ({ s with reading := s.reading.erase c } : Tls).isActive c = false := by
  have hnodup : s.reading.Nodup := (List.nodup_append.mp h.flight).2.1
  constructor
  · refine { h with flight := ?_, known := ?_ }
    · exact h.flight.sublist (List.Sublist.append_left List.erase_sublist _)
    · intro d hd
      rcases List.mem_append.mp hd with hd | hd
      · exact h.known d (List.mem_append_left _ hd)
      · exact h.known d (List.mem_append_right _ (List.mem_of_mem_erase hd))
  · refine not_active_iff.mpr fun hin => ?_
    rcases List.mem_append.mp hin with hin | hin
    · exact (List.nodup_append.mp h.flight).2.2 c hin c hc rfl
    · exact (hnodup.mem_erase_iff.mp hin).1 rfl

/-- The loop over the buffers that are read into calls the next one back, or cleans the crypt buffer. -/
theorem Tls.Placed.closeNext (h : s.Placed none) {next : Option Nat} (hc : next = none → c ∉ s.writing)
    (hs : s.closeNext next c = some s') : s'.Placed none ∧ Calls s s.stack s' := by
  unfold Tls.closeNext at hs
  split at hs
  · obtain rfl := Option.some.inj hs
    refine ⟨?_, .quiet rfl fun _ => rfl⟩
    by_cases hlt : c < s.nextCrypt
    · exact h.crypt (hc rfl) hlt none
    · -- it was cleaned before
      have hnone : s.crypts c = none := h.fresh c (Nat.le_of_not_lt hlt)
      have hsame : s.freeCrypt c = s := by
        unfold Tls.freeCrypt
        rw [← hnone, Function.update_eq_self]
      rw [hsame]
      exact h
  · rename_i p
    split at hs
    · rename_i hp
      obtain rfl := Option.some.inj hs
      have htake := h.takeRead hp
      have hplain := htake.plain (p := p) (fun y => { y with sslBuffer := none }) fun _ => rfl
      have hready : ({ ({ s with readList := s.readList.erase p } : Tls).onPlain p
          (fun y => { y with sslBuffer := none }) with stack := .closing (nextOf p s.readList) c :: s.stack } :
          Tls).Placed (some p) := { hplain with }
      refine ⟨hready.call.1, .call p (.closing (nextOf p s.readList) c :: s.stack) rfl (Nat.le_succ _) (htake.aside p rfl) ?_⟩
      intro q
      refine (pending_callback q).trans ?_
      split
      · rfl
      · exact pending_onPlain (s := s) (fun y => { y with sslBuffer := none }) (fun _ => rfl) q
    · exact absurd hs (by simp)

/-- A buffer is cleaned while nothing is written from its crypt buffer. -/
theorem Tls.Placed.dropPlain (h : s.Placed none) (hidle : s.pending p = false)
    (hfree : ∀ c, (s.plains p).bind Plain.sslBuffer = some c → c ∉ s.writing) :
    (s.dropPlain p).Placed none ∧ (∀ q, (s.dropPlain p).pending q = s.pending q) ∧
      (s.dropPlain p).writing = s.writing ∧ (s.dropPlain p).isActive = s.isActive ∧
      (s.dropPlain p).stack = s.stack := by
  have hgone : ∀ q, ({ s with plains := Function.update s.plains p none } : Tls).pending q = s.pending q := by
    intro q
    unfold Tls.pending
    dsimp only
    by_cases hq : q = p
    · rw [hq, Function.update_self]
      exact hidle.symm
    · rw [Function.update_of_ne hq]
  unfold Tls.dropPlain
  cases hbuf : (s.plains p).bind Plain.sslBuffer with
  | none => exact ⟨h.plains hgone, hgone, rfl, rfl, rfl⟩
  | some c =>
      refine ⟨?_, hgone, rfl, rfl, rfl⟩
      by_cases hlt : c < s.nextCrypt
      · exact (h.plains hgone).crypt (hfree c hbuf) hlt none
      · -- the crypt buffer was cleaned before
        have hsame : Function.update s.crypts c none = s.crypts := by
          rw [← h.fresh c (Nat.le_of_not_lt hlt), Function.update_eq_self]
        dsimp only [Tls.freeCrypt]
        rw [hsame]
        exact h.plains hgone

/-- A callback returns, and what waited for it goes on. -/
theorem Tls.Placed.returned (h : s.Placed none) {clean : Bool} (hc : ∀ c ∈ s.uses (.returned clean a), s.isActive c = false)
    (hs : s.callbackReturns a clean = some s') :
    s'.Placed none ∧ Calls s (s.rest (.returned clean a)) s' := by
  obtain ⟨p, stack, hstack, hidle, hgoes⟩ := Tls.callbackReturns_cases hs
  -- the buffer is cleaned with its crypt buffer, or nothing happens to it
  obtain ⟨t, ht, hplaced, hpend, hwriting, hactive, hlist⟩ : ∃ t : Tls,
      t = (if clean then ({ s with stack } : Tls).dropPlain p else { s with stack }) ∧
      t.Placed none ∧ (∀ q, t.pending q = s.pending q) ∧ t.writing = s.writing ∧ t.isActive = s.isActive ∧
      t.stack = stack := by
    refine ⟨_, rfl, ?_⟩
    have hstay : ({ s with stack } : Tls).Placed none := { h with }
    cases clean with
    | false => exact ⟨hstay, fun _ => rfl, rfl, rfl, rfl⟩
    | true =>
        apply hstay.dropPlain (hidle rfl)
        intro c hbuf hmem
        have huse : c ∈ s.uses (.returned true a) := by
          unfold Tls.uses
          rw [hstack]
          dsimp only
          rw [if_pos rfl, hbuf]
          simp
        exact not_active_iff.mp (hc c huse) (List.mem_append_left _ hmem)
  rw [← ht] at hgoes
  clear ht hs
  unfold Tls.goOn at hgoes
  rw [hlist] at hgoes
  unfold Tls.rest
  unfold Tls.uses at hc
  rw [hstack] at hc ⊢
  cases stack with
  | nil =>
      obtain rfl := Option.some.inj hgoes
      exact ⟨hplaced, .quiet hlist hpend⟩
  | cons f st =>
      have hready : ({ t with stack := st } : Tls).Placed none := { hplaced with }
      cases f with
      | callback q =>
          obtain rfl := Option.some.inj hgoes
          exact ⟨hplaced, .quiet hlist hpend⟩
      | pump c =>
          have hoff : ({ t with stack := st } : Tls).isActive c = false := by
            refine (congrFun hactive c).trans (hc c ?_)
            exact List.mem_append_right _ (List.mem_singleton_self c)
          have hdone := hready.pump hoff hgoes
          refine ⟨hdone.1, Calls.from ?_ hdone.2⟩
          exact hpend
      | closing next c =>
          have hnot : next = none → c ∉ ({ t with stack := st } : Tls).writing := by
            rintro rfl hmem
            have hoff := hc c (List.mem_append_right _ (List.mem_singleton_self c))
            exact not_active_iff.mp hoff (List.mem_append_left _ (hwriting ▸ hmem))
          have hdone := hready.closeNext hnot hgoes
          refine ⟨hdone.1, Calls.from ?_ hdone.2⟩
          exact hpend

/-! ## One event -/

/-- A buffer is handed over, and the pump is run when it is the first in its list. -/
theorem Tls.Placed.requested (h : s.Placed none) {n : Nat} {t : Tls} (hreq : s.request p n = some t) {ws rs : List Nat}
    (hperm : (ws ++ rs).Perm (p :: (s.writeList ++ s.readList))) {first : Bool}
    (hc : first = true → ∀ c, (s.plains p).bind Plain.sslBuffer = some c → s.isActive c = false)
    (hs : (if first = true then ({ t with writeList := ws, readList := rs } : Tls).hinSslHandshake a p
      else some { t with writeList := ws, readList := rs }) = some s') :
    s'.Placed none ∧ Calls t s.stack s' := by
  have hover := h.handOver hreq hperm
  obtain ⟨-, -, y, rfl, hbuf⟩ := request_cases hreq
  cases first with
  | true =>
      rw [if_pos rfl] at hs
      have hoff : ∀ c, (Function.update s.plains p (some y) p).bind Plain.sslBuffer = some c → s.isActive c = false := by
        intro c hcrypt
        rw [Function.update_self] at hcrypt
        exact hc rfl c (hbuf ▸ hcrypt)
      have hdone := hover.handshake hoff hs
      refine ⟨hdone.1, Calls.from ?_ hdone.2⟩
      exact fun _ => rfl
  | false =>
      rw [if_neg Bool.false_ne_true] at hs
      obtain rfl := Option.some.inj hs
      exact ⟨hover, .quiet rfl fun _ => rfl⟩

/-- **What an event does**: it hands a buffer over or not, and after that calls one back or none. -/
structure Does (s : Tls) (e : Event) (s' : Tls) : Prop where
  placed : s'.Placed none
  fresh : ∀ p, e.submits = some p → s.pending p = false
  calls : ∃ t : Tls, (∀ q, t.pending q = if e.submits = some q then true else s.pending q) ∧ Calls t (s.rest e) s'

theorem Does.of_calls {e : Event} (hnone : e.submits = none) (h : s'.Placed none ∧ Calls s (s.rest e) s') : Does s e s' := by
  refine ⟨h.1, fun p hp => absurd (hnone.symm.trans hp) (by simp), s, fun q => ?_, h.2⟩
  rw [hnone, if_neg (by simp)]

theorem Does.of_requested {e : Event} {t : Tls} {n : Nat} (hsub : e.submits = some p) (hreq : s.request p n = some t)
    (hrest : s.rest e = s.stack) (h : s'.Placed none ∧ Calls t s.stack s') : Does s e s' := by
  obtain ⟨hidle, hpend, -⟩ := request_cases hreq
  refine ⟨h.1, ?_, t, ?_, hrest ▸ h.2⟩
  · intro q hq
    exact Option.some.inj (hsub.symm.trans hq) ▸ hidle
  · intro q
    rw [hpend q, hsub]
    simp only [Option.some.injEq, eq_comm]

/-- **The socket has accepted a write**, or a part of it, which is written on. -/
theorem Tls.Placed.wrote (h : s.Placed none) (hmem : c ∈ s.writing) {n : Nat}
    (hs : s.hinSslWriteCallback a c n = some s') : s'.Placed none ∧ Calls s s.stack s' := by
  obtain ⟨hdone, hoff⟩ := h.wroteAll hmem
  unfold Tls.hinSslWriteCallback at hs
  split at hs
  · exact absurd hs (by simp)
  rename_i x hx
  have hlt := h.lt_next hx
  have hcarries : s.carries c = x.parent := by
    unfold Tls.carries
    rw [hx]
    rfl
  split at hs
  · exact absurd hs (by simp)
  dsimp only at hs
  split at hs
  · obtain rfl := Option.some.inj hs
    have hagain := hdone.write hoff hlt { x with ptr := x.ptr + n, count := x.count - n } hcarries.symm
    exact ⟨{ hagain with }, .quiet rfl fun _ => rfl⟩
  · rw [hcarries] at hdone
    split at hs
    · rename_i p hp
      obtain rfl := Option.some.inj hs
      rw [hp] at hdone
      have hplain := hdone.plain (p := p) (fun y => { y with sslBuffer := none }) fun _ => rfl
      have hready : (({ s with
          writing := s.writing.erase c
          writeFlag := false
          accepted := s.accepted ++ x.view n
          stack := .pump c :: s.stack } : Tls).onPlain p fun y => { y with sslBuffer := none }).Placed (some p) :=
        { hplain with }
      refine ⟨hready.call.1, .call p (.pump c :: s.stack) rfl (Nat.le_succ _) (hdone.aside p rfl) ?_⟩
      intro q
      refine (pending_callback q).trans ?_
      split
      · rfl
      · exact pending_onPlain (s := s) (fun y => { y with sslBuffer := none }) (fun _ => rfl) q
    · rename_i hp
      rw [hp] at hdone
      have hready : ({ s with
          writing := s.writing.erase c
          writeFlag := false
          accepted := s.accepted ++ x.view n } : Tls).Placed none := { hdone with }
      have hnext := hready.pump hoff hs
      refine ⟨hnext.1, Calls.from ?_ hnext.2⟩
      exact fun _ => rfl

/-- **One event keeps the invariant.** -/
theorem tls_step_placed {e : Event} (h : s.Placed none) (hguard : Careful s e) (hstep : s.step e = some s') :
    Does s e s' := by
  cases e with
  | write p n a =>
      unfold Tls.step at hstep
      dsimp only at hstep
      split at hstep
      swap
      · exact absurd hstep (by simp)
      obtain ⟨t, hreq, hrest⟩ := Option.bind_eq_some_iff.mp hstep
      have hperm : ((s.writeList ++ [p]) ++ s.readList).Perm (p :: (s.writeList ++ s.readList)) := by
        rw [List.append_assoc]
        exact List.perm_middle
      have hoff : s.writeList.isEmpty = true → ∀ c, (s.plains p).bind Plain.sslBuffer = some c → s.isActive c = false := by
        intro hempty c hc
        apply hguard.1
        unfold Tls.uses
        dsimp only
        rw [if_pos hempty]
        exact Option.mem_toList.mpr hc
      apply Does.of_requested rfl hreq rfl
      apply h.requested hreq hperm hoff
      obtain ⟨-, -, y, rfl, -⟩ := request_cases hreq
      exact hrest
  | read p n a =>
      unfold Tls.step at hstep
      dsimp only at hstep
      split at hstep
      swap
      · exact absurd hstep (by simp)
      obtain ⟨t, hreq, hrest⟩ := Option.bind_eq_some_iff.mp hstep
      have hperm : (s.writeList ++ (s.readList ++ [p])).Perm (p :: (s.writeList ++ s.readList)) := by
        rw [← List.append_assoc]
        exact List.perm_append_singleton p _
      have hoff : s.readList.isEmpty = true → ∀ c, (s.plains p).bind Plain.sslBuffer = some c → s.isActive c = false := by
        intro hempty c hc
        apply hguard.1
        unfold Tls.uses
        dsimp only
        rw [if_pos hempty]
        exact Option.mem_toList.mpr hc
      apply Does.of_requested rfl hreq rfl
      apply h.requested hreq hperm hoff
      obtain ⟨-, -, y, rfl, -⟩ := request_cases hreq
      exact hrest
  | returned clean a => exact .of_calls rfl (h.returned hguard.1 hstep)
  | wrote c n a =>
      unfold Tls.step at hstep
      dsimp only at hstep
      split at hstep
      · rename_i hdone
        exact .of_calls rfl (h.wrote hdone.2 hstep)
      · exact absurd hstep (by simp)
  | writeFailed c =>
      unfold Tls.step at hstep
      dsimp only at hstep
      split at hstep
      swap
      · exact absurd hstep (by simp)
      rename_i hdone
      obtain rfl := Option.some.inj hstep
      -- no record is lost with the crypt buffer
      obtain ⟨hended, hoff⟩ := h.wroteAll hdone.2
      rw [hguard.2 c rfl] at hended
      have hlt := h.known c (List.mem_append_left _ hdone.2)
      have hfree := hended.crypt (v := none) (fun hin => not_active_iff.mp hoff (List.mem_append_left _ hin)) hlt
      exact .of_calls rfl ⟨{ hfree with }, .quiet rfl fun _ => rfl⟩
  | received c data a =>
      unfold Tls.step at hstep
      dsimp only at hstep
      split at hstep
      swap
      · exact absurd hstep (by simp)
      rename_i hdone
      obtain ⟨hended, hoff⟩ := h.readAll hdone.2
      unfold Tls.hinSslReadCallback at hstep
      split at hstep
      · exact absurd hstep (by simp)
      rename_i x hx
      split at hstep
      · exact absurd hstep (by simp)
      have hset := hended.crypt (v := some { x with mem := poke x.mem x.ptr data })
        (fun hin => not_active_iff.mp hoff (List.mem_append_left _ hin)) (h.lt_next hx)
      have hready : (({ s with reading := s.reading.erase c, readFlag := false } : Tls).setCrypt c
          { x with mem := poke x.mem x.ptr data }).Placed none := { hset with }
      have hnext := hready.pump hoff hstep
      refine .of_calls rfl ⟨hnext.1, Calls.from ?_ hnext.2⟩
      exact fun _ => rfl
  | readFailed c =>
      unfold Tls.step at hstep
      dsimp only at hstep
      split at hstep
      swap
      · exact absurd hstep (by simp)
      rename_i hdone
      obtain ⟨hended, hoff⟩ := h.readAll hdone.2
      have hready : ({ s with reading := s.reading.erase c, readFlag := false } : Tls).Placed none := { hended with }
      have hnext := hready.closeNext (fun _ hin => not_active_iff.mp hoff (List.mem_append_left _ hin)) hstep
      refine .of_calls rfl ⟨hnext.1, Calls.from ?_ hnext.2⟩
      exact fun _ => rfl

/-! ## Books over runs -/

theorem called_cases {e : Event} {t : Tls} (h : Calls t (s.rest e) s') :
    (s.called e s' = none ∧ ∀ q, s'.pending q = t.pending q) ∨
    ∃ p, s.called e s' = some p ∧ t.pending p = true ∧ ∀ q, s'.pending q = if q = p then false else t.pending q := by
  unfold Tls.called
  cases h with
  | quiet hst hp =>
      rw [hst, if_neg (Nat.lt_irrefl _)]
      exact .inl ⟨rfl, hp⟩
  | call p fs hst hlen hact hp =>
      rw [hst, if_pos (show (s.rest e).length < (Frame.callback p :: fs).length from Nat.lt_succ_of_le hlen)]
      exact .inr ⟨p, rfl, hact, hp⟩

/-- **A pending buffer is in one place.** -/
theorem Tls.Placed.places (h : s.Placed none) (p : Nat) : s.places p = if s.pending p = true then 1 else 0 := by
  have hlists : (s.writeList ++ s.readList).count p = if p ∈ s.writeList ++ s.readList then 1 else 0 := h.lists.count
  have hwriting : s.writing.Nodup := (List.nodup_append.mp h.flight).1
  unfold Tls.places
  rw [hlists]
  by_cases hcarried : ∃ c ∈ s.writing, s.carries c = some p
  · obtain ⟨c, hc, hp⟩ := hcarried
    obtain ⟨hpend, hnot, -⟩ := h.carried c hc p hp
    have hone : (s.writing.countP fun d => s.carries d = some p) = s.writing.count c := by
      apply List.countP_congr
      intro d hd
      rw [decide_eq_true_eq, beq_iff_eq]
      constructor
      · exact fun hdp => h.carriedOnce d hd c hc p hdp hp
      · rintro rfl
        exact hp
    rw [if_neg hnot, if_pos hpend, hone, hwriting.count, if_pos hc]
  · have hzero : (s.writing.countP fun d => s.carries d = some p) = 0 := by
      rw [List.countP_eq_zero]
      intro d hd hdp
      exact hcarried ⟨d, hd, of_decide_eq_true hdp⟩
    have hiff : p ∈ s.writeList ++ s.readList ↔ s.pending p = true := by
      constructor
      · exact fun hp => (h.listed p hp).1
      · intro hp
        rcases h.placed p hp with hl | hc | ho
        · exact hl
        · exact absurd hc hcarried
        · exact absurd ho (by simp)
    rw [hzero, Nat.add_zero]
    simp only [hiff]

/-- The books balance, and every pending buffer is in one place. -/
structure Ledger.Inv (l : Ledger) : Prop where
  tls : l.tls.Placed none
  books : ∀ p, l.submitted p = l.completed p + if l.tls.pending p = true then 1 else 0

theorem ledger_start_inv : ({} : Ledger).Inv where
  tls :=
    { lists := List.nodup_nil
      flight := List.nodup_nil
      fresh := fun _ _ => rfl
      known := fun _ hc => absurd hc List.not_mem_nil
      listed := fun _ hp => absurd hp List.not_mem_nil
      carried := fun _ hc => absurd hc List.not_mem_nil
      carriedOnce := fun _ hc => absurd hc List.not_mem_nil
      placed := fun _ hp => absurd hp (by simp [Tls.pending])
      aside := fun _ hp => absurd hp (by simp) }
  books := fun _ => rfl

theorem ledger_step_inv {l l' : Ledger} {e : Event} (h : l.Inv) (hguard : Careful l.tls e) (hstep : l.step e = some l') :
    l'.Inv := by
  obtain ⟨s', hs, rfl⟩ := Option.map_eq_some_iff.mp hstep
  obtain ⟨hplaced, hfresh, t, hover, hcalls⟩ := tls_step_placed h.tls hguard hs
  refine ⟨hplaced, fun q => ?_⟩
  dsimp only
  have hbooks := h.books q
  -- what is handed over is pending
  have hin : (if t.pending q = true then 1 else 0) =
      (if l.tls.pending q = true then 1 else 0) + if e.submits = some q then 1 else 0 := by
    rw [hover q]
    by_cases hsub : e.submits = some q
    · rw [if_pos hsub, if_pos hsub, hfresh q hsub]
      rfl
    · rw [if_neg hsub, if_neg hsub]
      rfl
  -- what is called back is not
  have hout : (if t.pending q = true then 1 else 0) =
      (if s'.pending q = true then 1 else 0) + if l.tls.called e s' = some q then 1 else 0 := by
    rcases called_cases hcalls with ⟨hcalled, hp⟩ | ⟨p, hcalled, hact, hp⟩
    · rw [hcalled, hp q, if_neg (by simp : ¬ (none : Option Nat) = some q)]
      rfl
    · rw [hcalled, hp q]
      by_cases hqp : q = p
      · rw [hqp, hact]
        simp
      · rw [if_neg hqp, if_neg (fun heq => hqp (Option.some.inj heq).symm)]
        rfl
  omega

end

/-- **Every plain buffer is called back once.** As long as no write fails that carries a record, and a crypt buffer that
    the socket is working on is left alone, a buffer that was handed over is in one place until its callback. -/
theorem tls_once {es : List Event} {l : Ledger} (hrun : RunWith Ledger.step (fun l e => Careful l.tls e) {} es l) :
    l.Sound := by
  have hinv : l.Inv := hrun.invariant ledger_start_inv fun _ _ _ h hguard hstep => ledger_step_inv h hguard hstep
  exact ⟨hinv.books, hinv.tls.places⟩

/-- The crypt buffer whose write an event lets fail. -/
def Event.failing : Event → List Nat
  | .writeFailed c => [c]
  | _ => []

instance (s : Tls) (e : Event) : Decidable (Careful s e) :=
  decidable_of_iff ((∀ c ∈ s.uses e, s.isActive c = false) ∧ ∀ c ∈ e.failing, s.carries c = none) <| by
    refine and_congr Iff.rfl (forall_congr' fun c => ?_)
    cases e <;> simp [Event.failing, eq_comm]

/-- A write goes out in two parts, and the next one is begun meanwhile. -/
def twoWrites : List Event :=
  established ++ [.write 1 1 (sealed [1, 2, 3]), .wrote 1 1 (sealed [9]), .write 2 1 (sealed [4, 5]),
    .wrote 1 2 (sealed [9]), .returned true (sealed [9])]

theorem tls_once_sample :
    ∃ l, RunWith Ledger.step (fun l e => Careful l.tls e) {} twoWrites l ∧
      l.completed 1 = 1 ∧ l.tls.places 2 = 1 ∧ l.Sound := by
  obtain ⟨l, hl⟩ : ∃ l, execWith Ledger.step (fun l e => decide (Careful l.tls e)) {} twoWrites = some l := ⟨_, rfl⟩
  have hrun := RunWith.of_exec (fun _ _ h => of_decide_eq_true h) _ hl
  exact ⟨l, hrun, Option.some.inj hl ▸ rfl, Option.some.inj hl ▸ rfl, tls_once hrun⟩

/-- **A write that fails is forgotten**: its plain buffer is nowhere, and is never called back. -/
theorem tls_forgotten :
    ∃ l, Run Ledger.step {} (established ++ [.write 1 1 (sealed [1, 2, 3]), .writeFailed 1]) l ∧
      l.submitted 1 = 1 ∧ l.completed 1 = 0 ∧ l.tls.places 1 = 0 ∧ ¬ l.Sound := by
  obtain ⟨l, hl⟩ : ∃ l, execWith Ledger.step (fun _ _ => true) {}
      (established ++ [.write 1 1 (sealed [1, 2, 3]), .writeFailed 1]) = some l := ⟨_, rfl⟩
  have hplaces : l.tls.places 1 = 0 := Option.some.inj hl ▸ rfl
  have hpend : l.tls.pending 1 = true := Option.some.inj hl ▸ rfl
  refine ⟨l, RunWith.of_exec (fun _ _ _ => trivial) _ hl, Option.some.inj hl ▸ rfl, Option.some.inj hl ▸ rfl, hplaces, ?_⟩
  intro hsound
  have hone := hsound.placed 1
  rw [hplaces, if_pos hpend] at hone
  exact absurd hone (by simp)

end Ssl
end Netcode
end Hin9
