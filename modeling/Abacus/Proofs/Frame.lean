import Abacus.Proofs.Rest
import Abacus.Proofs.Sequence

/-!
# What a step leaves alone

A handle that was drawn before a step is passed on by it (`Registry.Passes`): if a counter is hosted
under it after the step, then one was before, with the same limit, and unless the step gives the
handle back, the counter is still there. Only its value may change, by whomever.

Scripts are held to terms (`Script.Abides`): they are promised that no handle is drawn which is in
use elsewhere, and then put nothing under such a handle. A script that abides by the terms of a
handle passes it on when it runs alone (`Script.Abides.run`), and so do threads in any order
(`Load.passes_put`). All operations on leases and movable counters abide by the terms of all
handles, but that a few of them give one back, however the host distorts its answers, and
`Session.passes_take` puts this together for all steps.
-/

namespace Abacus

/-! ## Terms -/

/-- What a script may ask, and what it is promised of the answers. -/
structure Terms {Q : Type} (A : Q → Type) where
  may : Q → Prop
  promised : (q : Q) → A q → Prop

namespace Script

variable {Q R : Type} {A : Q → Type} {B : R → Type} {α β : Type} {t : Terms A}

/-- As long as the answers are as promised the script asks only what it may; and it ends as `post`
says. -/
def Abides (t : Terms A) : Script A α → (α → Prop) → Prop
  | done a, post => post a
  | report _ rest, post => rest.Abides t post
  | ask q next, post => t.may q ∧ ∀ a, t.promised q a → (next a).Abides t post

theorem Abides.bind {s : Script A α} {f : α → Script A β} {mid : α → Prop} {post : β → Prop}
    (hs : s.Abides t mid) (hf : ∀ a, mid a → (f a).Abides t post) : (s.bind f).Abides t post := by
  induction s with
  | done a => exact hf a hs
  | report e rest ih => exact ih hs
  | ask q next ih => exact ⟨hs.1, fun a ha => ih a (hs.2 a ha)⟩

theorem abides_query {q : Q} (hq : t.may q) :
    (query q : Script A (A q)).Abides t fun _ => True := ⟨hq, fun _ _ => trivial⟩

/-- Who answers by the terms of one layer to questions by those of another joins the two. -/
theorem Abides.interpret {u : Terms B} {serve : (q : Q) → Script B (A q)}
    (hserve : ∀ q, t.may q → (serve q).Abides u (t.promised q)) {s : Script A α} {post : α → Prop}
    (hs : s.Abides t post) : (s.interpret serve).Abides u post := by
  induction s with
  | done a => exact hs
  | report e rest ih => exact ih hs
  | ask q next ih => exact (hserve q hs.1).bind fun a ha => ih a (hs.2 a ha)

theorem Abides.times {s : Script A α} (hs : s.Abides t fun _ => True) (n : Nat) :
    (s.times n).Abides t fun _ => True := by
  induction n with
  | zero => trivial
  | succ n ih =>
    rw [Script.times, List.replicate_succ, List.mapM_cons]
    exact hs.bind fun a _ => ih.bind fun as _ => trivial

end Script

/-! ## The terms of a handle -/

/-- A handle that is in use is not drawn. No counter is put under it, and if it is to be kept, none
is taken away. -/
def Action.terms (h : Handle) (kept : Prop) : Terms Action.Answer where
  may
    | .place k _ => k ≠ h
    | .remove k => kept → k ≠ h
    | _ => True
  promised
    | .draw, k => k ≠ h
    | _, _ => True

/-- The same for those who call a host. -/
def Call.terms (h : Handle) (kept : Prop) : Terms Call.Answer where
  may
    | .destroy l => kept → l.handle ≠ h
    | _ => True
  promised
    | .create _, a => ∀ l, a = .ok l → l.handle ≠ h
    | _, _ => True

section Host

variable {α : Type} {h : Handle} {kept : Prop}

theorem Call.abides_serve {q : Call} (hq : (terms h kept).may q) :
    q.serve.Abides (Action.terms h kept) ((terms h kept).promised q) := by
  cases q with
  | create limit =>
    refine ⟨trivial, fun isOpen _ => ?_⟩
    cases isOpen with
    | false =>
      intro l hl
      cases hl
    | true =>
      refine ⟨trivial, fun k hk => ⟨hk, fun _ _ l hl => ?_⟩⟩
      cases hl
      exact hk
  | add l x | sub l x | read l => exact ⟨trivial, fun _ _ => trivial⟩
  | destroy l => exact ⟨hq, fun _ _ => trivial⟩

theorem Distortion.abides_distort (d : Distortion) {q : Call} (hq : (Call.terms h kept).may q) :
    (d.distort q).Abides (Call.terms h kept) ((Call.terms h kept).promised q) := by
  cases q with
  | create limit =>
    refine ⟨trivial, fun a ha l hl => ?_⟩
    cases a with
    | error e => cases hl
    | ok k =>
      cases hl
      exact ha k rfl
  | add l x =>
    rw [distort]
    split
    · trivial
    · exact ⟨trivial, fun _ _ => trivial⟩
  | sub l x | read l => exact ⟨trivial, fun _ _ => trivial⟩
  | destroy l => exact ⟨hq, fun _ _ => trivial⟩

theorem Distortion.abides_carryOut (d : Distortion) {s : Script Call.Answer α} {post : α → Prop}
    (hs : s.Abides (Call.terms h kept) post) :
    (d.carryOut s).Abides (Action.terms h kept) post :=
  hs.interpret fun _ hq => (d.abides_distort hq).interpret fun _ => Call.abides_serve

end Host

/-! ## Operations -/

namespace Movable

variable {h : Handle} {kept : Prop} (m : Movable)

/-- The counter is not hosted under the handle. -/
def Apart (h : Handle) (m : Movable) : Prop := ∀ l, m.lease? = some l → l.handle ≠ h

theorem abides_read : m.read.Abides (Call.terms h kept) fun _ => True := by
  cases m with
  | hosted l => exact ⟨trivial, fun _ _ => trivial⟩
  | inPlace c => trivial

theorem abides_headroom : m.headroom.Abides (Call.terms h kept) fun _ => True :=
  m.abides_read.bind fun _ _ => trivial

theorem abides_layout : m.layout.Abides (Call.terms h kept) fun _ => True :=
  m.abides_read.bind fun _ _ => trivial

theorem abides_add (x : Amount) : (m.add x).Abides (Call.terms h kept) fun _ => True := by
  cases m with
  | hosted l => exact ⟨trivial, fun _ _ => trivial⟩
  | inPlace c => trivial

theorem abides_sub (x : Amount) : (m.sub x).Abides (Call.terms h kept) fun _ => True := by
  cases m with
  | hosted l => exact ⟨trivial, fun _ _ => trivial⟩
  | inPlace c => trivial

theorem abides_fresh (limit : Amount) (p : Placement) :
    (fresh limit p).Abides (Call.terms h kept) fun r => ∀ m, r = .ok m → m.Apart h := by
  cases p with
  | inPlace =>
    intro m hm l hl
    cases hm
    cases hl
  | hosted =>
    refine ⟨trivial, fun a ha m hm l hl => ?_⟩
    cases a with
    | error e => cases hm
    | ok k =>
      cases hm
      cases hl
      exact ha l rfl

theorem abides_make (limit : Amount) (p : Placement) :
    (make limit p).Abides (Call.terms h kept) fun _ => True := by
  refine (abides_fresh limit p).bind fun r _ => ?_
  cases r <;> trivial

variable {m} (hm : kept → m.Apart h)
include hm

theorem abides_release : m.release.Abides (Call.terms h kept) fun _ => True := by
  cases m with
  | hosted l => exact ⟨fun hkept => hm hkept l rfl, fun _ _ => trivial⟩
  | inPlace c => trivial

theorem abides_drop : m.drop.Abides (Call.terms h kept) fun _ => True := by
  cases m with
  | hosted l => exact ⟨fun hkept => hm hkept l rfl, fun _ _ => trivial⟩
  | inPlace c => trivial

/-- A move gives back the handle of the counter, or the one that it was given itself. -/
theorem abides_move : m.move.Abides (Call.terms h kept) fun _ => True := by
  refine m.abides_read.bind fun value _ => ?_
  refine (abides_fresh m.limit m.placement.flip).bind fun fresh hfresh => ?_
  cases fresh with
  | error e => trivial
  | ok target =>
    refine (target.abides_add value).bind fun filled _ => ?_
    cases filled with
    | error e => exact (abides_release fun _ => hfresh target rfl).bind fun _ _ => trivial
    | ok moved => exact (abides_release hm).bind fun _ _ => trivial

end Movable

theorem Load.abides_visit {h : Handle} {kept : Prop} (limit : Amount) (destroy : Bool) :
    (visit limit destroy).Abides (Call.terms h kept) fun _ => True := by
  refine ⟨trivial, fun a ha => ?_⟩
  cases a with
  | error e => trivial
  | ok l =>
    cases destroy with
    | false => trivial
    | true => exact ⟨fun _ => ha l rfl, fun _ _ => trivial⟩

/-! ## Passing a handle on -/

namespace Registry

/-- The limit of the counter under a handle, if there is one. -/
def limit? (r : Registry) (h : Handle) : Option Amount := r.table[h]?.map Counter.limit

/-- The counter under the handle after is the one from before, with its limit; and if the handle is
to be kept, it is still there. -/
structure Passes (r : Registry) (h : Handle) (kept : Prop) (r' : Registry) : Prop where
  old : ∀ limit, r'.limit? h = some limit → r.limit? h = some limit
  same : kept → r'.limit? h = r.limit? h

variable {r r' r'' : Registry} {h : Handle} {kept : Prop} {n : Nat} {q : Action} {a : q.Answer}

theorem isLive_iff_limit? : r.IsLive h ↔ ∃ limit, r.limit? h = some limit := by
  rw [isLive_iff, limit?]
  cases r.table[h]? <;> simp

theorem Passes.of_eq (heq : r'.limit? h = r.limit? h) : r.Passes h kept r' :=
  ⟨fun _ hlimit => heq ▸ hlimit, fun _ => heq⟩

theorem Passes.refl (r : Registry) : r.Passes h kept r := .of_eq rfl

theorem Passes.trans (hr : r.Passes h kept r') (hr' : r'.Passes h kept r'') :
    r.Passes h kept r'' :=
  ⟨fun limit hlimit => hr.old limit (hr'.old limit hlimit),
    fun hkept => (hr'.same hkept).trans (hr.same hkept)⟩

theorem limit?_put {k : Handle} {c : Counter} (hc : r.table[k]? = some c)
    {change : Except Refusal Counter} (hchange : ∀ d, change = .ok d → d.limit = c.limit)
    (h : Handle) : (r.put k change).2.limit? h = r.limit? h := by
  cases change with
  | error e => rfl
  | ok d =>
    rw [put, limit?, getElem?_table_insert]
    split
    · rename_i hk
      rw [limit?, ← hk, hc, Option.map_some, Option.map_some, hchange d rfl]
    · rfl

theorem passes_erase {k : Handle} (hk : kept → k ≠ h) :
    r.Passes h kept { r with table := r.table.erase k } := by
  by_cases heq : k = h
  · refine ⟨fun limit hlimit => ?_, fun hkept => absurd heq (hk hkept)⟩
    rw [limit?, getElem?_table_erase, if_pos heq] at hlimit
    cases hlimit
  · refine .of_eq ?_
    rw [limit?, getElem?_table_erase, if_neg heq]
    rfl

theorem passes_act (hq : (Action.terms h kept).may q) (hact : r.act q = .ok (a, r')) :
    r.Passes h kept r' := by
  cases q with
  | look | setGate isOpen | draw =>
    cases hact
    exact .of_eq rfl
  | place k limit =>
    cases hact
    have hne : k ≠ h := hq
    refine .of_eq ?_
    rw [limit?, getElem?_table_insert, if_neg hne]
    rfl
  | add k x =>
    obtain ⟨c, hc, hput⟩ := exists_of_find_map hact
    have hsnd : (r.put k (c.add x)).2 = r' := congrArg Prod.snd hput
    exact hsnd ▸ .of_eq (limit?_put hc (fun d => Counter.limit_of_add) h)
  | sub k x =>
    obtain ⟨c, hc, hput⟩ := exists_of_find_map hact
    have hsnd : (r.put k (c.sub x)).2 = r' := congrArg Prod.snd hput
    exact hsnd ▸ .of_eq (limit?_put hc (fun d => Counter.limit_of_sub) h)
  | read k =>
    obtain ⟨c, -, hsame⟩ := exists_of_find_map hact
    cases hsame
    exact .refl r
  | remove k =>
    obtain ⟨c, -, herase⟩ := exists_of_find_map hact
    cases herase
    exact passes_erase hq

theorem next_act (hact : r.act q = .ok (a, r')) (hnext : r.next.id.toNat = n % 2 ^ 64) :
    r'.next.id.toNat = (n + q.draws) % 2 ^ 64 := by
  cases q with
  | draw =>
    cases hact
    rw [Action.draws, Handle.toNat_succ, hnext, Nat.mod_add_mod]
  | place k limit =>
    cases hact
    exact hnext
  | look | setGate isOpen | add k x | sub k x | read k | remove k =>
    rw [(nothingNew_act rfl hact).next_eq]
    exact hnext

/-- Up to the end of the range the promise is kept for all handles that were drawn before. -/
theorem promised_act (hact : r.act q = .ok (a, r')) (hnext : r.next.id.toNat = n % 2 ^ 64)
    (hn : n + q.draws ≤ 2 ^ 64) (hlt : h.id.toNat < n) : (Action.terms h kept).promised q a := by
  cases q with
  | draw =>
    cases hact
    rintro rfl
    have hle : n + 1 ≤ 2 ^ 64 := hn
    rw [hnext, Nat.mod_eq_of_lt (by omega)] at hlt
    omega
  | _ => trivial

/-- Actions that keep the entries pass on all handles. -/
theorem Does.passes_of_keeps {es : List Deed} (hes : r.Does es r')
    (hkeeps : ∀ e ∈ es, e.1.keepsEntries = true) : r.Passes h kept r' := by
  induction es generalizing r with
  | nil =>
    cases hes
    exact .refl _
  | cons e es ih =>
    obtain ⟨mid, hact, hmid⟩ := hes
    have hmay : (Action.terms h kept).may e.1 := by
      have hkeep := hkeeps e List.mem_cons_self
      obtain ⟨q, a⟩ := e
      cases q with
      | place k limit | remove k => cases hkeep
      | _ => trivial
    exact (passes_act hmay hact).trans
      (ih hmid fun e' he' => hkeeps e' (List.mem_cons_of_mem _ he'))

end Registry

/-! ## Scripts and threads -/

/-- A registry that has drawn so many handles came to another, which has drawn so many, and the
handle was passed on. -/
structure Registry.Leads (r : Registry) (h : Handle) (kept : Prop) (r' : Registry) (n : Nat) :
    Prop where
  passes : r.Passes h kept r'
  next_eq : r'.next.id.toNat = n % 2 ^ 64

section Threads

variable {α : Type} {h : Handle} {kept : Prop} {r : Registry} {n : Nat}

theorem Script.Abides.run {s : Script Action.Answer α} {post : α → Prop}
    (hs : s.Abides (Action.terms h kept) post) (hnext : r.next.id.toNat = n % 2 ^ 64)
    (hn : n + s.draws r ≤ 2 ^ 64) (hlt : h.id.toNat < n) :
    r.Leads h kept (s.run r).registry (n + s.draws r) := by
  induction s generalizing r n with
  | done a => exact ⟨.refl r, hnext⟩
  | report e rest ih => exact ih hs hnext hn hlt
  | ask q next ih =>
    cases hact : r.act q with
    | error d =>
      simp only [Script.run, draws, hact]
      exact ⟨.refl r, hnext⟩
    | ok p =>
      simp only [Script.run, draws, hact, ← Nat.add_assoc] at hn ⊢
      have hpromise : (Action.terms h kept).promised q p.1 :=
        Registry.promised_act hact hnext (by omega) hlt
      have hrest := ih p.1 (hs.2 p.1 hpromise) (Registry.next_act hact hnext) hn (by omega)
      exact ⟨(Registry.passes_act hs.1 hact).trans hrest.passes, hrest.next_eq⟩

namespace Strand

def Abides (h : Handle) (kept : Prop) : Strand α → Prop
  | going s => s.Abides (Action.terms h kept) fun _ => True
  | dead _ => True

theorem abides_step {s : Script Action.Answer α}
    (hs : s.Abides (Action.terms h kept) fun _ => True) (hnext : r.next.id.toNat = n % 2 ^ 64)
    (hn : n + Deed.draws (deedOf s r) ≤ 2 ^ 64) (hlt : h.id.toNat < n) :
    (step s r).1.Abides h kept ∧
      r.Leads h kept (step s r).2 (n + Deed.draws (deedOf s r)) := by
  induction s with
  | done a => exact ⟨trivial, .refl r, hnext⟩
  | report e rest ih => exact ih hs hn
  | ask q next ih =>
    cases hact : r.act q with
    | error d =>
      simp only [step, deedOf, hact]
      exact ⟨trivial, .refl r, hnext⟩
    | ok p =>
      simp only [deedOf, hact] at hn
      simp only [step, deedOf, hact]
      have hpromise : (Action.terms h kept).promised q p.1 :=
        Registry.promised_act hact hnext hn hlt
      exact ⟨hs.2 p.1 hpromise, Registry.passes_act hs.1 hact, Registry.next_act hact hnext⟩

theorem Abides.turn {s : Strand α} (hs : s.Abides h kept) (hnext : r.next.id.toNat = n % 2 ^ 64)
    (hn : n + Deed.draws (s.deed? r) ≤ 2 ^ 64) (hlt : h.id.toNat < n) :
    (s.turn r).1.Abides h kept ∧ r.Leads h kept (s.turn r).2 (n + Deed.draws (s.deed? r)) := by
  cases s with
  | going s => exact abides_step hs hnext hn hlt
  | dead d => exact ⟨trivial, .refl r, hnext⟩

theorem Abides.finish {s : Strand α} (hs : s.Abides h kept) (hnext : r.next.id.toNat = n % 2 ^ 64)
    (hn : n + s.draws r ≤ 2 ^ 64) (hlt : h.id.toNat < n) :
    r.Leads h kept (s.finish r).2 (n + s.draws r) := by
  cases s with
  | going s => exact Script.Abides.run hs hnext hn hlt
  | dead d => exact ⟨.refl r, hnext⟩

end Strand

namespace Pool

/-- So many handles were drawn, and the threads abide by the terms of the handle. -/
structure Abides (p : Pool α) (h : Handle) (kept : Prop) (n : Nat) : Prop where
  next_eq : p.registry.next.id.toNat = n % 2 ^ 64
  strand : ∀ s ∈ p.strands, s.Abides h kept

variable {p : Pool α}

theorem Abides.turn (hp : p.Abides h kept n) (i : Nat)
    (hn : n + Deed.draws (p.deed? i) ≤ 2 ^ 64) (hlt : h.id.toNat < n) :
    (p.turn i).Abides h kept (n + Deed.draws (p.deed? i)) ∧
      p.registry.Passes h kept (p.turn i).registry := by
  cases hi : p.strands[i]? with
  | none =>
    have hturn : p.turn i = p := by simp only [Pool.turn, hi]
    have hdeed : p.deed? i = none := by simp only [Pool.deed?, hi, Option.bind_none]
    rw [hturn, hdeed]
    exact ⟨hp, .refl _⟩
  | some s =>
    have hturn : p.turn i = ⟨(s.turn p.registry).2, p.strands.set i (s.turn p.registry).1⟩ := by
      simp only [Pool.turn, hi]
    rw [deed?_of_some hi] at hn ⊢
    obtain ⟨hs, hleads⟩ := (hp.strand s (List.mem_of_getElem? hi)).turn hp.next_eq hn hlt
    rw [hturn]
    refine ⟨⟨hleads.next_eq, fun t ht => ?_⟩, hleads.passes⟩
    rcases List.mem_or_eq_of_mem_set ht with hold | rfl
    · exact hp.strand t hold
    · exact hs

theorem Abides.run (hp : p.Abides h kept n) (schedule : List Nat)
    (hn : n + p.draws schedule ≤ 2 ^ 64) (hlt : h.id.toNat < n) :
    (p.run schedule).Abides h kept (n + p.draws schedule) ∧
      p.registry.Passes h kept (p.run schedule).registry := by
  induction schedule generalizing p n with
  | nil => exact ⟨hp, .refl _⟩
  | cons i schedule ih =>
    rw [draws, ← Nat.add_assoc] at hn ⊢
    obtain ⟨hturn, hpasses⟩ := hp.turn i (by omega) hlt
    obtain ⟨hrun, hpasses'⟩ := ih hturn hn (by omega)
    exact ⟨hrun, hpasses.trans hpasses'⟩

theorem passes_finish_go {ss : List (Strand α)} (hss : ∀ s ∈ ss, s.Abides h kept)
    (hnext : r.next.id.toNat = n % 2 ^ 64) (hn : n + finalDraws ss r ≤ 2 ^ 64)
    (hlt : h.id.toNat < n) : r.Passes h kept (finish.go ss r).2 := by
  induction ss generalizing r n with
  | nil => exact .refl r
  | cons s ss ih =>
    rw [finalDraws, ← Nat.add_assoc] at hn
    have hfirst := (hss s List.mem_cons_self).finish hnext (by omega) hlt
    have hrest := ih (fun t ht => hss t (List.mem_cons_of_mem s ht)) hfirst.next_eq hn (by omega)
    exact hfirst.passes.trans hrest

end Pool

theorem Load.passes_put (l : Load) {s : Session} {c : Script Call.Answer α}
    (hc : c.Abides (Call.terms h kept) fun _ => True)
    (hnext : s.registry.next.id.toNat = n % 2 ^ 64) (hn : n + l.draws s c ≤ 2 ^ 64)
    (hlt : h.id.toNat < n) : s.registry.Passes h kept (l.put s c).2 := by
  let script := s.distortion.carryOut (c.times l.times)
  let p := Pool.start s.registry (List.replicate l.threads script)
  have hp : p.Abides h kept n := by
    refine ⟨hnext, fun t ht => ?_⟩
    obtain ⟨script', hscript, rfl⟩ := List.mem_map.1 ht
    rw [List.eq_of_mem_replicate hscript]
    exact s.distortion.abides_carryOut (hc.times l.times)
  have hdraws : n + p.draws l.schedule +
      Pool.finalDraws (p.run l.schedule).strands (p.run l.schedule).registry ≤ 2 ^ 64 := by
    rw [Nat.add_assoc]
    exact hn
  obtain ⟨hrun, hpasses⟩ := hp.run l.schedule (by omega) hlt
  exact hpasses.trans (Pool.passes_finish_go hrun.strand hrun.next_eq hdraws (by omega))

end Threads

/-! ## Steps -/

namespace Session

variable {α : Type} {s : Session} {h : Handle} {kept : Prop} {n : Nat}

/-- The handle that a step may give back: that of a lease, or that of a movable counter that is
replaced, moved or dropped. -/
def surrenders? (s : Session) : Step → Option Handle
  | .lease slot .destroy => s.leases[slot]?.map Lease.handle
  | .newMovable slot _ _ => s.handleAt slot
  | .movable slot .move => s.handleAt slot
  | .movable slot .drop => s.handleAt slot
  | _ => none

theorem apart_of_handleAt {slot : Nat} {m : Movable} (hm : s.movables[slot]? = some m)
    (hkept : s.handleAt slot ≠ some h) : m.Apart h := by
  intro l hl heq
  apply hkept
  rw [handleAt, hm, Option.bind_some, Movable.handle?_of_lease hl, heq]

theorem registry_changed (s : Session) (slot : Nat)
    (c : Script Call.Answer (Except Refusal Movable)) :
    (s.changed slot c).session.registry = (s.call c).registry := by
  simp only [changed]
  split <;> rfl

theorem events_changed (s : Session) (slot : Nat)
    (c : Script Call.Answer (Except Refusal Movable)) :
    (s.changed slot c).events = (s.call c).events := by
  simp only [changed]
  split <;> rfl

/-- A counter is made for the slot, and then the one that it replaces is dropped, if there is
one. -/
theorem takeNewMovable_cases (s : Session) (slot : Nat) (limit : Amount) (p : Placement) :
    let made := s.changed slot (Movable.make limit p)
    s.takeNewMovable slot limit p = made ∨
      ∃ old, s.movables[slot]? = some old ∧ made.reply = .done ∧
        let dropped := made.session.asked old.drop fun _ => .done
        s.takeNewMovable slot limit p =
          { dropped with events := made.events ++ dropped.events } := by
  intro made
  unfold takeNewMovable
  dsimp only
  split
  · rename_i old hreply hold
    exact .inr ⟨old, hold, hreply, rfl⟩
  · exact .inl rfl

section Passes

variable (hnext : s.registry.next.id.toNat = n % 2 ^ 64) (hlt : h.id.toNat < n)
include hnext hlt

/-- What the events count is what the calls draw. -/
theorem leads_call {c : Script Call.Answer α} (hc : c.Abides (Call.terms h kept) fun _ => True)
    (hneutral : c.Neutral) (hn : n + (s.call c).events.countP Event.isIssue ≤ 2 ^ 64) :
    s.registry.Leads h kept (s.call c).registry (n + (s.call c).events.countP Event.isIssue) := by
  have hdraws := s.distortion.draws_carryOut hneutral s.registry
  rw [call, ← hdraws] at hn ⊢
  exact (s.distortion.abides_carryOut hc).run hnext hn hlt

theorem passes_asked {c : Script Call.Answer α} (hc : c.Abides (Call.terms h kept) fun _ => True)
    (hneutral : c.Neutral) {reply : α → Reply}
    (hn : n + (s.asked c reply).events.countP Event.isIssue ≤ 2 ^ 64) :
    s.registry.Passes h kept (s.asked c reply).session.registry :=
  (leads_call hnext hlt hc hneutral hn).passes

theorem leads_changed {slot : Nat} {c : Script Call.Answer (Except Refusal Movable)}
    (hc : c.Abides (Call.terms h kept) fun _ => True) (hneutral : c.Neutral)
    (hn : n + (s.changed slot c).events.countP Event.isIssue ≤ 2 ^ 64) :
    s.registry.Leads h kept (s.changed slot c).session.registry
      (n + (s.changed slot c).events.countP Event.isIssue) := by
  rw [events_changed] at hn ⊢
  rw [registry_changed]
  exact leads_call hnext hlt hc hneutral hn

theorem passes_takeNewLease {slot : Nat} {limit : Amount}
    (hn : n + (s.takeNewLease slot limit).events.countP Event.isIssue ≤ 2 ^ 64) :
    s.registry.Passes h kept (s.takeNewLease slot limit).session.registry := by
  have hevents : (s.takeNewLease slot limit).events = (s.call (Lease.create limit)).events := by
    simp only [takeNewLease]
    split <;> rfl
  have hregistry : (s.takeNewLease slot limit).session.registry =
      (s.call (Lease.create limit)).registry := by
    simp only [takeNewLease]
    split <;> rfl
  rw [hevents] at hn
  rw [hregistry]
  exact (leads_call hnext hlt (Script.abides_query (q := Call.create limit) trivial)
    (Script.neutral_query _) hn).passes

theorem passes_takeLease {slot : Nat} {l : Lease} (hl : s.leases[slot]? = some l) {q : LeaseStep}
    (hn : n + (s.takeLease slot l q).events.countP Event.isIssue ≤ 2 ^ 64) :
    s.registry.Passes h (s.surrenders? (.lease slot q) ≠ some h)
      (s.takeLease slot l q).session.registry := by
  cases q with
  | add x =>
    exact passes_asked hnext hlt (Script.abides_query (q := Call.add l x) trivial)
      (Script.neutral_query _) hn
  | sub x =>
    exact passes_asked hnext hlt (Script.abides_query (q := Call.sub l x) trivial)
      (Script.neutral_query _) hn
  | read =>
    exact passes_asked hnext hlt (Script.abides_query (q := Call.read l) trivial)
      (Script.neutral_query _) hn
  | destroy =>
    have hgone (hkept : s.surrenders? (.lease slot .destroy) ≠ some h) : l.handle ≠ h := by
      rintro rfl
      exact hkept (by rw [surrenders?, hl, Option.map_some])
    exact passes_asked (s := { s with leases := s.leases.erase slot }) hnext hlt
      (Script.abides_query (q := Call.destroy l) hgone) (Script.neutral_query _) hn
  | loadAdd load x =>
    obtain ⟨es, hdoes, hkeeps⟩ := load.exists_does_keeping s (q := .add l x) rfl
    exact hdoes.passes_of_keeps hkeeps
  | loadSub load x =>
    obtain ⟨es, hdoes, hkeeps⟩ := load.exists_does_keeping s (q := .sub l x) rfl
    exact hdoes.passes_of_keeps hkeeps
  | limit | handle | equals other | write block => exact .refl _

theorem passes_takeNewMovable {slot : Nat} {limit : Amount} {p : Placement}
    (hn : n + (s.takeNewMovable slot limit p).events.countP Event.isIssue ≤ 2 ^ 64) :
    s.registry.Passes h (s.surrenders? (.newMovable slot limit p) ≠ some h)
      (s.takeNewMovable slot limit p).session.registry := by
  let made := s.changed slot (Movable.make limit p)
  have hmake (hle : n + made.events.countP Event.isIssue ≤ 2 ^ 64) :
      s.registry.Leads h (s.surrenders? (.newMovable slot limit p) ≠ some h) made.session.registry
        (n + made.events.countP Event.isIssue) :=
    leads_changed hnext hlt (Movable.abides_make limit p) (Movable.neutral_make limit p) hle
  rcases s.takeNewMovable_cases slot limit p with hmade | ⟨old, hold, -, hdropped⟩
  · rw [hmade] at hn ⊢
    exact (hmake hn).passes
  · rw [hdropped] at hn ⊢
    simp only [List.countP_append, ← Nat.add_assoc] at hn
    have hmade := hmake (Nat.le_trans (Nat.le_add_right _ _) hn)
    refine hmade.passes.trans (passes_asked hmade.next_eq (by omega) ?_ old.neutral_drop hn)
    exact Movable.abides_drop fun hkept => apart_of_handleAt hold hkept

theorem passes_takeMovable {slot : Nat} {m : Movable} (hm : s.movables[slot]? = some m)
    {q : MovableStep} (hn : n + (s.takeMovable slot m q).events.countP Event.isIssue ≤ 2 ^ 64) :
    s.registry.Passes h (s.surrenders? (.movable slot q) ≠ some h)
      (s.takeMovable slot m q).session.registry := by
  cases q with
  | add x => exact (leads_changed hnext hlt (m.abides_add x) (m.neutral_add x) hn).passes
  | sub x => exact (leads_changed hnext hlt (m.abides_sub x) (m.neutral_sub x) hn).passes
  | move =>
    have happart (hkept : s.surrenders? (.movable slot .move) ≠ some h) : m.Apart h :=
      apart_of_handleAt hm hkept
    exact (leads_changed hnext hlt (Movable.abides_move happart) m.neutral_move hn).passes
  | read => exact passes_asked hnext hlt m.abides_read m.neutral_read hn
  | headroom => exact passes_asked hnext hlt m.abides_headroom m.neutral_headroom hn
  | write block => exact passes_asked hnext hlt m.abides_layout m.neutral_layout hn
  | drop =>
    have happart (hkept : s.surrenders? (.movable slot .drop) ≠ some h) : m.Apart h :=
      apart_of_handleAt hm hkept
    exact passes_asked (s := { s with movables := s.movables.erase slot }) hnext hlt
      (Movable.abides_drop happart) m.neutral_drop hn
  | limit | isHosted | placement | isServedHere => exact .refl _

/-- Up to the end of the range every step passes on the handles that were drawn before, except that
it may give one back. -/
theorem passes_take {q : Step} (hn : n + s.drawsAt q ≤ 2 ^ 64) :
    s.registry.Passes h (s.surrenders? q ≠ some h) (s.take q).session.registry := by
  cases q with
  | newCounter slot limit | forgeLease slot l => exact .refl _
  | counter slot q =>
    simp only [take, onSlot]
    cases s.counters[slot]? with
    | none => exact .refl _
    | some c => exact (s.registry_takeCounter slot c q).symm ▸ .refl _
  | newLease slot limit => exact passes_takeNewLease hnext hlt hn
  | lease slot q =>
    simp only [drawsAt, take] at hn ⊢
    cases hl : s.leases[slot]? with
    | none => exact .refl _
    | some l =>
      rw [hl] at hn
      exact passes_takeLease hnext hlt hl hn
  | newMovable slot limit p => exact passes_takeNewMovable hnext hlt hn
  | movable slot q =>
    simp only [drawsAt, take] at hn ⊢
    cases hm : s.movables[slot]? with
    | none => exact .refl _
    | some m =>
      rw [hm] at hn
      exact passes_takeMovable hnext hlt hm hn
  | registry q =>
    cases q with
    | setGate isOpen =>
      simp only [take, takeRegistry, Registry.run_setGate]
      exact .of_eq rfl
    | loadCreate load limit destroy =>
      exact load.passes_put (Load.abides_visit limit destroy) hnext hn hlt
    | live | isOpen | write block => exact .refl _

end Passes

end Session

end Abacus
