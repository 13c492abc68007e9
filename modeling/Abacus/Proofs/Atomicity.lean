import Abacus.Proofs.Honest
import Abacus.Proofs.Chore

/-!
# Failed steps

A step of a session fails if it is refused, meets a dead handle or finds its slot empty. With an
honest host a failed step leaves everything as it was: the gate, the sequence of handles, the whole
table and every movable counter. Only what the caller gave away with the step is gone, a lease that
was to be given back or a counter that was to be dropped (`Session.consume`). For each operation
`Script.Tidy` says that it is done or leaves the registry alone; `take_of_fails` puts this together
for all steps, and `Within.minutes_kept` draws the conclusion for whole sessions: without the failed
steps the others get the replies that they get with them.
-/

namespace Abacus

open Distortion

/-! ## Operations that are done or leave the registry alone -/

/-- At the honest host the script ends as `good` says, or leaves the registry as it was. -/
def Script.Tidy {α : Type} (c : Script Call.Answer α) (r : Registry) (good : α → Prop) : Prop :=
  (∃ a, ((honest.carryOut c).run r).result = .ok a ∧ good a) ∨
    ((honest.carryOut c).run r).registry = r

/-- The operation was not refused. -/
def Accepted {α : Type} (a : Except Refusal α) : Prop := ∃ b, a = .ok b

section Tidy

variable {α β : Type} {r : Registry}

theorem Script.Tidy.mono {c : Script Call.Answer α} {good good' : α → Prop} (hc : c.Tidy r good)
    (h : ∀ a, good a → good' a) : c.Tidy r good' :=
  hc.imp_left fun ⟨a, ha, hgood⟩ => ⟨a, ha, h a hgood⟩

theorem Script.tidy_map {c : Script Call.Answer α} {f : α → β} {good : α → Prop} {good' : β → Prop}
    (hc : c.Tidy r good) (hf : ∀ a, good a → good' (f a)) :
    (c.bind fun a => .done (f a)).Tidy r good' := by
  rw [Tidy, run_carryOut_map]
  rcases hc with ⟨a, ha, hgood⟩ | hsame
  · left
    refine ⟨f a, ?_, hf a hgood⟩
    rw [ha]
    rfl
  · exact .inr hsame

theorem accepted_map {a : Except Refusal α} {f : α → β} (ha : Accepted a) : Accepted (a.map f) := by
  obtain ⟨b, rfl⟩ := ha
  exact ⟨f b, rfl⟩

theorem Call.tidy_of_dead {q : Call} {l : Lease} (hq : q.through? = some l)
    (hc : r.table[l.handle]? = none) (good : q.Answer → Prop) :
    (Script.query q : Script Call.Answer q.Answer).Tidy r good := by
  right
  rw [run_of_dead hq hc]

namespace Lease

variable (l : Lease) (r)

/-- A hosted counter that refuses a change is left as it was. -/
theorem tidy_put {c : Script Call.Answer (Except Refusal Unit)} {change : Except Refusal Counter}
    (hc : (honest.carryOut c).run r =
      ⟨.ok (r.put l.handle change).1, (r.put l.handle change).2, []⟩) : c.Tidy r Accepted := by
  rw [Script.Tidy, hc]
  cases change with
  | ok c' => exact .inl ⟨.ok (), rfl, (), rfl⟩
  | error e => exact .inr rfl

theorem tidy_add (x : Amount) : (l.add x).Tidy r Accepted := by
  cases hc : r.table[l.handle]? with
  | none => exact Call.tidy_of_dead rfl hc _
  | some c => exact tidy_put r l (run_add_of_live hc x)

theorem tidy_sub (x : Amount) : (l.sub x).Tidy r Accepted := by
  cases hc : r.table[l.handle]? with
  | none => exact Call.tidy_of_dead rfl hc _
  | some c => exact tidy_put r l (run_sub_of_live hc x)

theorem tidy_read : l.read.Tidy r fun _ => True := by
  cases hc : r.table[l.handle]? with
  | none => exact Call.tidy_of_dead rfl hc _
  | some c =>
    right
    rw [run_read_of_live hc]

theorem tidy_destroy : l.destroy.Tidy r fun _ => True := by
  cases hc : r.table[l.handle]? with
  | none => exact Call.tidy_of_dead rfl hc _
  | some c =>
    left
    rw [run_destroy_of_live hc]
    exact ⟨(), rfl, trivial⟩

theorem tidy_create (limit : Amount) : (create limit).Tidy r Accepted := by
  cases hopen : r.isOpen with
  | false =>
    right
    rw [run_create_of_closed hopen]
  | true =>
    left
    rw [run_create_of_open hopen]
    exact ⟨_, rfl, _, rfl⟩

end Lease

namespace Movable

variable (m : Movable) (r)

theorem tidy_add (x : Amount) : (m.add x).Tidy r Accepted := by
  cases m with
  | hosted l => exact Script.tidy_map (l.tidy_add r x) fun _ => accepted_map
  | inPlace c => exact .inr rfl

theorem tidy_sub (x : Amount) : (m.sub x).Tidy r Accepted := by
  cases m with
  | hosted l => exact Script.tidy_map (l.tidy_sub r x) fun _ => accepted_map
  | inPlace c => exact .inr rfl

theorem tidy_read : m.read.Tidy r fun _ => True := by
  cases m with
  | hosted l => exact l.tidy_read r
  | inPlace c => exact .inr rfl

theorem tidy_headroom : m.headroom.Tidy r fun _ => True :=
  Script.tidy_map (m.tidy_read r) fun _ _ => trivial

theorem tidy_layout : m.layout.Tidy r fun _ => True :=
  Script.tidy_map (m.tidy_read r) fun _ _ => trivial

theorem tidy_drop : m.drop.Tidy r fun _ => True := by
  cases m with
  | hosted l => exact l.tidy_destroy r
  | inPlace c => exact .inr rfl

theorem tidy_make (limit : Amount) (p : Placement) : (make limit p).Tidy r Accepted := by
  cases p with
  | inPlace => exact .inr rfl
  | hosted =>
    cases hopen : r.isOpen with
    | false =>
      right
      rw [run_make_of_closed hopen]
    | true =>
      left
      rw [run_make_of_open hopen]
      exact ⟨_, rfl, _, rfl⟩

variable {m}

/-- A move that fails has not yet drawn a handle, or has none to give back. -/
theorem tidy_move (hm : m.Sound) : m.move.Tidy r Accepted := by
  cases m with
  | hosted l =>
    cases hc : r.table[l.handle]? with
    | none =>
      right
      rw [run_move_of_dead hc]
    | some c =>
      rw [Script.Tidy, run_move_of_live hc]
      cases (Counter.fresh l.limit).add c.value with
      | error e => exact .inr rfl
      | ok c' => exact .inl ⟨_, rfl, _, rfl⟩
  | inPlace c =>
    cases hopen : r.isOpen with
    | false =>
      right
      rw [run_move_of_closed hopen]
    | true =>
      left
      rw [run_move_of_open hm hopen]
      exact ⟨_, rfl, _, rfl⟩

end Movable

end Tidy

/-! ## Steps -/

/-- Whether a step was refused, met a dead handle or found its slot empty. -/
def Reply.fails : Reply → Bool
  | refused _ => true
  | dead _ => true
  | vacant => true
  | _ => false

/-- Whether a step puts threads to work. -/
def Step.isLoad : Step → Bool
  | lease _ (.loadAdd ..) => true
  | lease _ (.loadSub ..) => true
  | registry (.loadCreate ..) => true
  | _ => false

/-- The slot for which a step makes a movable counter. -/
def Step.makes? : Step → Option Nat
  | newMovable slot _ _ => some slot
  | _ => none

namespace Session

/-- Whether a step makes a movable counter for a slot that holds one already, which is then
dropped. -/
def replaces (s : Session) (q : Step) : Bool := (q.makes?.bind fun slot => s.movables[slot]?).isSome

/-- The session without what a step gives away: the lease that it gives back, or the counter that
it drops. -/
def consume (s : Session) : Step → Session
  | .lease slot .destroy => { s with leases := s.leases.erase slot }
  | .movable slot .drop => { s with movables := s.movables.erase slot }
  | _ => s

variable {α : Type} {s t : Session} {slot : Nat}

theorem replaces_eq_false_iff {q : Step} :
    s.replaces q = false ↔ ∀ slot, q.makes? = some slot → s.movables[slot]? = none := by
  unfold replaces
  cases q.makes? with
  | none => simp
  | some slot =>
    constructor
    · intro h i hi
      cases hi
      exact Option.not_isSome_iff_eq_none.1 (Bool.not_eq_true _ ▸ h)
    · intro h
      rw [Option.bind_some, h slot rfl]
      rfl

theorem consume_lease_of_none (h : s.leases[slot]? = none) (q : LeaseStep) :
    s.consume (.lease slot q) = s := by
  cases q with
  | destroy => exact congrArg (fun t => { s with leases := t }) (Slots.put_eq_self h)
  | _ => rfl

theorem consume_movable_of_none (h : s.movables[slot]? = none) (q : MovableStep) :
    s.consume (.movable slot q) = s := by
  cases q with
  | drop => exact congrArg (fun t => { s with movables := t }) (Slots.put_eq_self h)
  | _ => rfl

/-- A call that is not accepted leaves the session as it was. -/
theorem call_of_not_good {c : Script Call.Answer α} {good : α → Prop} (hd : s.distortion = .honest)
    (hc : c.Tidy s.registry good) (hnot : ∀ a, (s.call c).result = .ok a → ¬ good a) :
    { s with registry := (s.call c).registry } = s := by
  rw [Script.Tidy, ← hd] at hc
  rcases hc with ⟨a, ha, hgood⟩ | hsame
  · exact absurd hgood (hnot a ha)
  · exact congrArg (fun r => { s with registry := r }) hsame

theorem asked_of_fails {c : Script Call.Answer α} {reply : α → Reply}
    (hd : s.distortion = .honest) (hc : c.Tidy s.registry fun a => (reply a).fails = false)
    (hf : (s.asked c reply).reply.fails = true) : (s.asked c reply).session = s := by
  refine call_of_not_good hd hc fun a ha hgood => ?_
  simp only [asked, ha, Reply.ofResult, hgood] at hf
  cases hf

theorem changed_of_fails {c : Script Call.Answer (Except Refusal Movable)}
    (hd : s.distortion = .honest) (hc : c.Tidy s.registry Accepted)
    (hf : (s.changed slot c).reply.fails = true) : (s.changed slot c).session = s := by
  have hsame := call_of_not_good hd hc fun a ha ⟨m, hm⟩ => by
    subst hm
    simp only [changed, ha] at hf
    cases hf
  simp only [changed] at hf ⊢
  split at hf
  · exact hsame
  · exact hsame
  · cases hf

theorem takeNewLease_of_fails {limit : Amount} (hd : s.distortion = .honest)
    (hf : (s.takeNewLease slot limit).reply.fails = true) :
    (s.takeNewLease slot limit).session = s := by
  have hsame := call_of_not_good hd (Lease.tidy_create s.registry limit) fun a ha ⟨l, hl⟩ => by
    subst hl
    simp only [takeNewLease, ha] at hf
    cases hf
  simp only [takeNewLease] at hf ⊢
  split at hf
  · exact hsame
  · exact hsame
  · cases hf

theorem putCounter_of_fails {r : Except Refusal Counter}
    (hf : (s.putCounter slot r).reply.fails = true) : (s.putCounter slot r).session = s := by
  cases r with
  | error e => rfl
  | ok c => cases hf

theorem takeCounter_of_fails {c : Counter} {q : CounterStep}
    (hf : (s.takeCounter slot c q).reply.fails = true) :
    (s.takeCounter slot c q).session = s := by
  cases q with
  | add x | sub x => exact putCounter_of_fails hf
  | copy target | destroy => cases hf
  | read | limit | headroom | equals other | write block => rfl

theorem fails_ofAccepted {a : Except Refusal Unit} (ha : Accepted a) :
    (Reply.ofAccepted a).fails = false := by
  obtain ⟨⟨⟩, rfl⟩ := ha
  rfl

theorem takeLease_of_fails {l : Lease} {q : LeaseStep} (hd : s.distortion = .honest)
    (hload : (Step.lease slot q).isLoad = false)
    (hf : (s.takeLease slot l q).reply.fails = true) :
    (s.takeLease slot l q).session = s.consume (.lease slot q) := by
  cases q with
  | add x => exact asked_of_fails hd ((l.tidy_add _ x).mono fun _ => fails_ofAccepted) hf
  | sub x => exact asked_of_fails hd ((l.tidy_sub _ x).mono fun _ => fails_ofAccepted) hf
  | read => exact asked_of_fails hd ((l.tidy_read _).mono fun _ _ => rfl) hf
  | destroy =>
    exact asked_of_fails (s := { s with leases := s.leases.erase slot }) hd
      ((l.tidy_destroy _).mono fun _ _ => rfl) hf
  | limit | handle | equals other | write block => rfl
  | loadAdd load x | loadSub load x => cases hload

theorem takeMovable_of_fails {m : Movable} (hm : m.Sound) {q : MovableStep}
    (hd : s.distortion = .honest) (hf : (s.takeMovable slot m q).reply.fails = true) :
    (s.takeMovable slot m q).session = s.consume (.movable slot q) := by
  cases q with
  | add x => exact changed_of_fails hd (m.tidy_add _ x) hf
  | sub x => exact changed_of_fails hd (m.tidy_sub _ x) hf
  | move => exact changed_of_fails hd (Movable.tidy_move _ hm) hf
  | read => exact asked_of_fails hd ((m.tidy_read _).mono fun _ _ => rfl) hf
  | headroom => exact asked_of_fails hd ((m.tidy_headroom _).mono fun _ _ => rfl) hf
  | write block => exact asked_of_fails hd ((m.tidy_layout _).mono fun _ _ => rfl) hf
  | drop =>
    exact asked_of_fails (s := { s with movables := s.movables.erase slot }) hd
      ((m.tidy_drop _).mono fun _ _ => rfl) hf
  | limit | isHosted | placement | isServedHere => rfl

theorem takeNewMovable_of_empty (h : s.movables[slot]? = none) (limit : Amount) (p : Placement) :
    s.takeNewMovable slot limit p = s.changed slot (Movable.make limit p) := by
  simp only [takeNewMovable]
  split
  · rename_i old _ hold
    rw [h] at hold
    cases hold
  · rfl

/-- A counter that is refused replaces none. -/
theorem takeNewMovable_of_refused {limit : Amount} {p : Placement} {e : Refusal}
    (h : (s.takeNewMovable slot limit p).reply = .refused e) :
    s.takeNewMovable slot limit p = s.changed slot (Movable.make limit p) := by
  simp only [takeNewMovable] at h ⊢
  split at h
  · rename_i old _ _
    simp only [asked] at h
    cases hdrop : (call (s.changed slot (Movable.make limit p)).session old.drop).result with
    | error d =>
      rw [hdrop] at h
      cases h
    | ok a =>
      rw [hdrop] at h
      cases h
  · rfl

/-- A step that fails takes what was given away with it and leaves everything else as it was. A
step that replaces a movable counter is two operations, and only the first of them can be refused.
-/
theorem take_of_fails (hd : s.distortion = .honest) (hs : s.Sound) {q : Step}
    (hload : q.isLoad = false)
    (hnew : s.replaces q = true → ∃ e, (s.take q).reply = .refused e)
    (hf : (s.take q).reply.fails = true) : (s.take q).session = s.consume q := by
  cases q with
  | newCounter slot limit | forgeLease slot l => cases hf
  | counter slot q =>
    simp only [take, onSlot] at hf ⊢
    cases hc : s.counters[slot]? with
    | none => rfl
    | some c =>
      rw [hc] at hf
      exact takeCounter_of_fails hf
  | newLease slot limit => exact takeNewLease_of_fails hd hf
  | lease slot q =>
    simp only [take, onSlot] at hf ⊢
    cases hl : s.leases[slot]? with
    | none => exact (consume_lease_of_none hl q).symm
    | some l =>
      rw [hl] at hf
      exact takeLease_of_fails hd hload hf
  | newMovable slot limit p =>
    have heq : s.takeNewMovable slot limit p = s.changed slot (Movable.make limit p) := by
      cases hm : s.movables[slot]? with
      | none => exact takeNewMovable_of_empty hm limit p
      | some old =>
        obtain ⟨e, he⟩ := hnew (congrArg Option.isSome hm)
        exact takeNewMovable_of_refused he
    simp only [take, heq] at hf ⊢
    exact changed_of_fails hd (Movable.tidy_make _ limit p) hf
  | movable slot q =>
    simp only [take, onSlot] at hf ⊢
    cases hm : s.movables[slot]? with
    | none => exact (consume_movable_of_none hm q).symm
    | some m =>
      rw [hm] at hf
      exact takeMovable_of_fails (hs.movables slot m hm) hd hf
  | registry q =>
    cases q with
    | loadCreate load limit destroy => cases hload
    | live | isOpen | setGate isOpen | write block => cases hf

/-! ## Sessions without their failed steps -/

/-- The steps, each with the reply to it. -/
def minutes (s : Session) (qs : List Step) : List (Step × Reply) :=
  qs.zip ((s.run qs).1.map Report.reply)

theorem minutes_cons (s : Session) (q : Step) (qs : List Step) :
    s.minutes (q :: qs) = (q, (s.take q).reply) :: (s.take q).session.minutes qs := rfl

theorem map_fst_minutes (s : Session) (qs : List Step) : (s.minutes qs).map Prod.fst = qs := by
  induction qs generalizing s with
  | nil => rfl
  | cons q qs ih => rw [minutes_cons, List.map_cons, ih]

theorem minutes_append (s : Session) (qs later : List Step) :
    s.minutes (qs ++ later) = s.minutes qs ++ (s.reach qs).minutes later := by
  induction qs generalizing s with
  | nil => rfl
  | cons q qs ih =>
    rw [List.cons_append, minutes_cons, minutes_cons, ih]
    rfl

end Session

/-- Everything in the first slots is in the same slots of the second. -/
def Slots.Within {α : Type} (t u : Slots α) : Prop :=
  ∀ (slot : Nat) (a : α), t[slot]? = some a → u[slot]? = some a

namespace Slots.Within

variable {α : Type} {t u : Slots α}

theorem refl (t : Slots α) : t.Within t := fun _ _ h => h

theorem put (h : t.Within u) (slot : Nat) (a : Option α) :
    (t.put slot a).Within (u.put slot a) := by
  intro i b hb
  rw [getElem?_put] at hb ⊢
  split at hb
  · rename_i heq
    rwa [if_pos heq]
  · rename_i hne
    rw [if_neg hne]
    exact h i b hb

theorem erase (h : t.Within u) (slot : Nat) : Within (t.erase slot) u := by
  intro i b hb
  have hput : (t.put slot none)[i]? = some b := hb
  rw [getElem?_put] at hput
  split at hput
  · cases hput
  · exact h i b hput

end Slots.Within

namespace Session

/-- The second session is the first one with, perhaps, more in its slots for leases and movable
counters. -/
structure Within (s t : Session) : Prop where
  distortion : t.distortion = s.distortion
  registry : t.registry = s.registry
  counters : t.counters = s.counters
  leases : s.leases.Within t.leases
  movables : s.movables.Within t.movables

namespace Within

variable {α : Type} {s t : Session} {slot : Nat}

theorem refl (s : Session) : s.Within s :=
  ⟨rfl, rfl, rfl, .refl _, .refl _⟩

theorem consume (h : s.Within t) (q : Step) : (s.consume q).Within t := by
  unfold Session.consume
  split
  · exact ⟨h.distortion, h.registry, h.counters, h.leases.erase _, h.movables⟩
  · exact ⟨h.distortion, h.registry, h.counters, h.leases, h.movables.erase _⟩
  · exact h

theorem call (h : s.Within t) (c : Script Call.Answer α) : t.call c = s.call c := by
  simp only [Session.call, h.distortion, h.registry]

theorem replaces (h : s.Within t) {q : Step} (hq : t.replaces q = false) :
    s.replaces q = false := by
  rw [replaces_eq_false_iff] at hq ⊢
  intro slot hslot
  cases hm : s.movables[slot]? with
  | none => rfl
  | some m => exact absurd ((h.movables slot m hm).symm.trans (hq slot hslot)) (by simp)

/-- The two sessions give the same reply, and are related as before. -/
def Alike (a b : Taken) : Prop := b.reply = a.reply ∧ a.session.Within b.session

theorem told (h : s.Within t) (reply : Reply) : Alike (s.told reply) (t.told reply) := ⟨rfl, h⟩

theorem asked (h : s.Within t) (c : Script Call.Answer α) (reply : α → Reply) :
    Alike (s.asked c reply) (t.asked c reply) := by
  simp only [Alike, Session.asked, h.call c]
  exact ⟨trivial, h.distortion, rfl, h.counters, h.leases, h.movables⟩

theorem changed (h : s.Within t) (slot : Nat) (c : Script Call.Answer (Except Refusal Movable)) :
    Alike (s.changed slot c) (t.changed slot c) := by
  simp only [Alike, Session.changed, h.call c]
  split
  · exact ⟨rfl, h.distortion, rfl, h.counters, h.leases, h.movables⟩
  · exact ⟨rfl, h.distortion, rfl, h.counters, h.leases, h.movables⟩
  · rename_i m _
    exact ⟨rfl, h.distortion, rfl, h.counters, h.leases, h.movables.put slot (some m)⟩

theorem putCounter (h : s.Within t) (slot : Nat) (r : Except Refusal Counter) :
    Alike (s.putCounter slot r) (t.putCounter slot r) := by
  cases r with
  | error e => exact h.told _
  | ok c =>
    refine ⟨rfl, h.distortion, h.registry, ?_, h.leases, h.movables⟩
    exact congrArg (fun t => Std.ExtTreeMap.insert t slot c) h.counters

theorem takeCounter (h : s.Within t) (slot : Nat) (c : Counter) (q : CounterStep) :
    Alike (s.takeCounter slot c q) (t.takeCounter slot c q) := by
  cases q with
  | add x | sub x | copy target => exact h.putCounter _ _
  | equals other =>
    simp only [Session.takeCounter, h.counters]
    exact h.told _
  | destroy =>
    refine ⟨rfl, h.distortion, h.registry, ?_, h.leases, h.movables⟩
    exact congrArg (fun t => Std.ExtTreeMap.erase t slot) h.counters
  | read | limit | headroom | write block => exact h.told _

theorem takeNewLease (h : s.Within t) (slot : Nat) (limit : Amount) :
    Alike (s.takeNewLease slot limit) (t.takeNewLease slot limit) := by
  simp only [Alike, Session.takeNewLease, h.call (Lease.create limit)]
  split
  · exact ⟨rfl, h.distortion, rfl, h.counters, h.leases, h.movables⟩
  · exact ⟨rfl, h.distortion, rfl, h.counters, h.leases, h.movables⟩
  · rename_i l _
    exact ⟨rfl, h.distortion, rfl, h.counters, h.leases.put slot (some l), h.movables⟩

theorem takeLease (h : s.Within t) (slot : Nat) (l : Lease) {q : LeaseStep}
    (hload : (Step.lease slot q).isLoad = false)
    (hf : (s.takeLease slot l q).reply.fails = false) :
    Alike (s.takeLease slot l q) (t.takeLease slot l q) := by
  cases q with
  | add x | sub x | read => exact h.asked _ _
  | equals other =>
    cases hother : s.leases[other]? with
    | none =>
      simp only [Session.takeLease, hother] at hf
      cases hf
    | some l' =>
      simp only [Session.takeLease, hother, h.leases other l' hother]
      exact h.told _
  | destroy =>
    have herased : Within { s with leases := s.leases.erase slot }
        { t with leases := t.leases.erase slot } :=
      ⟨h.distortion, h.registry, h.counters, h.leases.put slot none, h.movables⟩
    exact herased.asked l.destroy fun _ => .done
  | limit | handle | write block => exact h.told _
  | loadAdd load x | loadSub load x => cases hload

theorem takeMovable (h : s.Within t) (slot : Nat) (m : Movable) (q : MovableStep) :
    Alike (s.takeMovable slot m q) (t.takeMovable slot m q) := by
  cases q with
  | add x | sub x | move => exact h.changed _ _
  | read | headroom | write block => exact h.asked _ _
  | drop =>
    have herased : Within { s with movables := s.movables.erase slot }
        { t with movables := t.movables.erase slot } :=
      ⟨h.distortion, h.registry, h.counters, h.leases, h.movables.put slot none⟩
    exact herased.asked m.drop fun _ => .done
  | limit | isHosted | placement | isServedHere => exact h.told _

/-- A step that does not fail goes the same way in a session that has more in its slots, unless it
replaces a counter there. -/
theorem take (h : s.Within t) {q : Step} (hload : q.isLoad = false) (hnew : t.replaces q = false)
    (hf : (s.take q).reply.fails = false) : Alike (s.take q) (t.take q) := by
  cases q with
  | newCounter slot limit => exact h.putCounter slot _
  | counter slot q =>
    simp only [Session.take, h.counters]
    cases s.counters[slot]? with
    | none => exact h.told _
    | some c => exact h.takeCounter slot c q
  | newLease slot limit => exact h.takeNewLease slot limit
  | forgeLease slot l =>
    exact ⟨rfl, h.distortion, h.registry, h.counters, h.leases.put slot (some l), h.movables⟩
  | lease slot q =>
    cases hl : s.leases[slot]? with
    | none =>
      simp only [Session.take, hl] at hf
      cases hf
    | some l =>
      simp only [Session.take, hl, h.leases slot l hl] at hf ⊢
      exact h.takeLease slot l hload hf
  | newMovable slot limit p =>
    have ht := replaces_eq_false_iff.1 hnew slot rfl
    have hs := replaces_eq_false_iff.1 (h.replaces hnew) slot rfl
    simp only [Session.take, takeNewMovable_of_empty hs, takeNewMovable_of_empty ht]
    exact h.changed slot _
  | movable slot q =>
    cases hm : s.movables[slot]? with
    | none =>
      simp only [Session.take, hm] at hf
      cases hf
    | some m =>
      simp only [Session.take, hm, h.movables slot m hm]
      exact h.takeMovable slot m q
  | registry q =>
    cases q with
    | loadCreate load limit destroy => cases hload
    | setGate isOpen =>
      simp only [Session.take, takeRegistry, h.registry]
      exact ⟨rfl, h.distortion, rfl, h.counters, h.leases, h.movables⟩
    | live | isOpen | write block =>
      simp only [Session.take, takeRegistry, h.registry]
      exact h.told _

end Within

/-- A slot for a movable counter stays empty as long as no counter is made for it. -/
theorem movables_take_of_none {s : Session} {q : Step} {i : Nat} (hi : s.movables[i]? = none)
    (hq : q.makes? ≠ some i) : (s.take q).session.movables[i]? = none := by
  have hput (slot : Nat) (m : Option Movable) (hne : slot ≠ i) :
      (s.movables.put slot m)[i]? = none := by
    rw [Slots.getElem?_put, if_neg hne, hi]
  have hchanged (slot : Nat) (c : Script Call.Answer (Except Refusal Movable)) (hne : slot ≠ i) :
      (s.changed slot c).session.movables[i]? = none := by
    simp only [changed]
    split
    · exact hi
    · exact hi
    · exact hput slot (some _) hne
  cases q with
  | newCounter slot limit | forgeLease slot l => exact hi
  | counter slot q =>
    simp only [take, onSlot]
    cases s.counters[slot]? with
    | none => exact hi
    | some c =>
      cases q with
      | add x =>
        simp only [Option.elim, takeCounter, putCounter]
        split <;> exact hi
      | sub x =>
        simp only [Option.elim, takeCounter, putCounter]
        split <;> exact hi
      | read | limit | headroom | copy target | equals other | write block | destroy => exact hi
  | newLease slot limit =>
    simp only [take, takeNewLease]
    split <;> exact hi
  | lease slot q =>
    simp only [take, onSlot]
    cases s.leases[slot]? with
    | none => exact hi
    | some l => cases q <;> exact hi
  | newMovable slot limit p =>
    have hne : slot ≠ i := fun heq => hq (congrArg some heq)
    have hmade := hchanged slot (Movable.make limit p) hne
    simp only [take, takeNewMovable]
    split <;> exact hmade
  | movable slot q =>
    simp only [take, onSlot]
    cases hm : s.movables[slot]? with
    | none => exact hi
    | some m =>
      have hne : slot ≠ i := by
        rintro rfl
        rw [hi] at hm
        cases hm
      cases q with
      | add x | sub x | move => exact hchanged slot _ hne
      | drop => exact hput slot none hne
      | read | limit | headroom | isHosted | placement | isServedHere | write block => exact hi
  | registry q => cases q <;> exact hi

/-- No movable counter is made for a slot that holds one. -/
def NeverReplaces : Session → List Step → Prop
  | _, [] => True
  | s, q :: qs => s.replaces q = false ∧ (s.take q).session.NeverReplaces qs

instance decidableNeverReplaces : (s : Session) → (qs : List Step) → Decidable (s.NeverReplaces qs)
  | _, [] => inferInstanceAs (Decidable True)
  | s, q :: qs =>
      have := decidableNeverReplaces (s.take q).session qs
      inferInstanceAs (Decidable (s.replaces q = false ∧ (s.take q).session.NeverReplaces qs))

/-- So it is if no slot is made for twice. -/
theorem neverReplaces_of_nodup {s : Session} {qs : List Step}
    (hnodup : (qs.filterMap Step.makes?).Nodup)
    (hempty : ∀ slot ∈ qs.filterMap Step.makes?, s.movables[slot]? = none) :
    s.NeverReplaces qs := by
  induction qs generalizing s with
  | nil => trivial
  | cons q qs ih =>
    have hmakes : (q :: qs).filterMap Step.makes? =
        q.makes?.toList ++ qs.filterMap Step.makes? := by
      cases hmake : q.makes? <;> simp [hmake]
    rw [hmakes] at hnodup hempty
    refine ⟨replaces_eq_false_iff.2 fun slot hslot => hempty slot (by simp [hslot]), ?_⟩
    refine ih (List.nodup_append.1 hnodup).2.1 fun slot hslot => ?_
    refine movables_take_of_none (hempty slot (List.mem_append_right _ hslot)) fun hmake => ?_
    rw [hmake] at hnodup
    exact (List.nodup_cons.1 hnodup).1 hslot

/-- The steps of a session that do not fail get the same replies when the others are left out. A
counter whose drop is left out stays in its slot, so the slots must do for the session without the
failed steps too. -/
theorem Within.minutes_kept {s t : Session} (h : s.Within t) (hd : s.distortion = .honest)
    (hs : s.Sound) (qs : List Step) (hload : ∀ q ∈ qs, q.isLoad = false)
    (hnew : s.NeverReplaces qs) :
    let kept := (s.minutes qs).filter fun e => !e.2.fails
    t.NeverReplaces (kept.map Prod.fst) →
      t.minutes (kept.map Prod.fst) = kept ∧
        (s.reach qs).Within (t.reach (kept.map Prod.fst)) := by
  induction qs generalizing s t with
  | nil => exact fun _ => ⟨rfl, h⟩
  | cons q qs ih =>
    have hq := hload q List.mem_cons_self
    have hd' : (s.take q).session.distortion = .honest := (s.distortion_take q).trans hd
    have hload' : ∀ q ∈ qs, q.isLoad = false := fun q' hq' => hload q' (List.mem_cons_of_mem _ hq')
    rw [minutes_cons, List.filter_cons]
    cases hf : (s.take q).reply.fails with
    | true =>
      have hsame := take_of_fails hd hs hq (fun hrepl => by simp [hnew.1] at hrepl) hf
      have hnext : (s.take q).session.Within t := hsame ▸ h.consume q
      exact ih hnext hd' (hs.take q) hload' hnew.2
    | false =>
      intro kept hkept
      obtain ⟨hreply, hnext⟩ := h.take hq hkept.1 hf
      obtain ⟨hminutes, hreach⟩ := ih hnext hd' (hs.take q) hload' hnew.2 hkept.2
      refine ⟨?_, hreach⟩
      simp only [kept, Bool.not_false, ↓reduceIte, List.map_cons]
      rw [minutes_cons, hreply, hminutes]

theorem ofResult_ne_refused {α : Type} {reply : α → Reply} {e : Refusal}
    (hreply : ∀ a, reply a ≠ .refused e) (r : Except DeadHandle α) :
    Reply.ofResult reply r ≠ .refused e := by
  cases r with
  | error d => simp [Reply.ofResult]
  | ok a => exact hreply a

/-- Work for threads is never refused, and neither is giving something away. -/
theorem isLoad_and_consume_of_refused {s : Session} {q : Step} {e : Refusal}
    (h : (s.take q).reply = .refused e) : q.isLoad = false ∧ s.consume q = s := by
  have honSlot {β : Type} {held : Option β} {f : β → Taken} (hf : ∀ b, (f b).reply ≠ .refused e) :
      (s.onSlot held f).reply ≠ .refused e := by
    cases held with
    | none => simp [onSlot, told]
    | some b => exact hf b
  cases q with
  | lease slot q =>
    cases q with
    | loadAdd load x | loadSub load x =>
      exact absurd h (honSlot fun l => ofResult_ne_refused (by simp [Load.tally]) _)
    | destroy => exact absurd h (honSlot fun l => ofResult_ne_refused (by simp) _)
    | _ => exact ⟨rfl, rfl⟩
  | movable slot q =>
    cases q with
    | drop => exact absurd h (honSlot fun m => ofResult_ne_refused (by simp) _)
    | _ => exact ⟨rfl, rfl⟩
  | registry q =>
    cases q with
    | loadCreate load limit destroy =>
      exact absurd h (ofResult_ne_refused (by simp [Load.harvest]) _)
    | _ => exact ⟨rfl, rfl⟩
  | _ => exact ⟨rfl, rfl⟩

/-- In every state of a session with an honest host, forged leases and all: a step that is refused
leaves everything as it was, a step that meets a dead handle takes no more than what was given away
with it, and without the failed steps the session gives the same replies to the others and comes to
the same registry. For this last part no counter may be replaced, with the failed steps or without
them; it is enough that no slot is made for twice. -/
theorem fails_without_trace (isOpen : Bool) (qs : List Step) :
    let s := (start .honest isOpen).reach qs
    let kept := ((start .honest isOpen).minutes qs).filter fun e => !e.2.fails
    (∀ q e, (s.take q).reply = .refused e → (s.take q).session = s) ∧
    (∀ q d, q.isLoad = false → s.replaces q = false → (s.take q).reply = .dead d →
      (s.take q).session = s.consume q) ∧
    ((∀ q ∈ qs, q.isLoad = false) → (start .honest isOpen).NeverReplaces qs →
      (start .honest isOpen).NeverReplaces (kept.map Prod.fst) →
      (start .honest isOpen).minutes (kept.map Prod.fst) = kept ∧
        ((start .honest isOpen).reach (kept.map Prod.fst)).registry = s.registry) ∧
    ((qs.filterMap Step.makes?).Nodup →
      (start .honest isOpen).NeverReplaces qs ∧
        (start .honest isOpen).NeverReplaces (kept.map Prod.fst)) := by
  intro s kept
  have hd : s.distortion = .honest := distortion_reach _ qs
  have hs : s.Sound := sound_reach .honest isOpen qs
  refine ⟨fun q e hreply => ?_, fun q d hload hnew hreply => ?_, fun hload hnew hkept => ?_,
    fun hnodup => ?_⟩
  · obtain ⟨hload, hconsume⟩ := isLoad_and_consume_of_refused hreply
    rw [take_of_fails hd hs hload (fun _ => ⟨e, hreply⟩) (by rw [hreply]; rfl), hconsume]
  · refine take_of_fails hd hs hload (fun hrepl => ?_) (by rw [hreply]; rfl)
    rw [hnew] at hrepl
    cases hrepl
  · obtain ⟨hminutes, hreach⟩ := (Within.refl (start .honest isOpen)).minutes_kept rfl
      (sound_start .honest isOpen) qs hload hnew hkept
    exact ⟨hminutes, hreach.registry⟩
  · have hempty (steps : List Step) :
        ∀ slot ∈ steps.filterMap Step.makes?, (start .honest isOpen).movables[slot]? = none :=
      fun slot _ => by simp [start]
    have hsublist : (kept.map Prod.fst).Sublist qs := by
      have hmap := (List.filter_sublist (p := fun e : Step × Reply => !e.2.fails)
        (l := (start .honest isOpen).minutes qs)).map Prod.fst
      rwa [map_fst_minutes] at hmap
    exact ⟨neverReplaces_of_nodup hnodup (hempty qs),
      neverReplaces_of_nodup (hnodup.sublist (hsublist.filterMap _)) (hempty _)⟩

/-- A hosted counter loses its handle to a forged lease. Its move and its drop meet the dead handle,
and beside the refused steps they leave no trace. One of these is to make a counter for a slot,
which is then made in another place. -/
theorem fails_without_trace_of_forged_lease :
    let early : List Step :=
      [.newMovable 0 10#128 .hosted, .forgeLease 0 ⟨⟨0#64⟩, 99#128⟩, .lease 0 (.add 4#128),
        .movable 0 (.sub 9#128), .registry (.setGate false), .newLease 1 5#128,
        .newMovable 1 8#128 .hosted, .newMovable 1 8#128 .inPlace, .movable 1 .move,
        .lease 0 .destroy, .movable 0 .move]
    let later : List Step :=
      [.movable 0 .drop, .registry (.setGate true), .movable 1 .move, .registry .live]
    let kept : List (Step × Reply) :=
      [(.newMovable 0 10#128 .hosted, .done), (.forgeLease 0 ⟨⟨0#64⟩, 99#128⟩, .done),
        (.lease 0 (.add 4#128), .done), (.registry (.setGate false), .done),
        (.newMovable 1 8#128 .inPlace, .done), (.lease 0 .destroy, .done),
        (.registry (.setGate true), .done), (.movable 1 .move, .done), (.registry .live, .count 1)]
    let s := (start .honest true).reach early
    (s.take (.movable 0 .drop)).reply = .dead ⟨⟨0#64⟩⟩ ∧
      (s.take (.movable 0 .drop)).session = { s with movables := s.movables.erase 0 } ∧
      (s.take (.movable 1 (.sub 1#128))).reply = .refused (.underflow 1#128 0#128) ∧
      (s.take (.movable 1 (.sub 1#128))).session = s ∧
      (((start .honest true).minutes (early ++ later)).filter fun e => !e.2.fails) = kept ∧
      (start .honest true).minutes (kept.map Prod.fst) = kept := by
  intro early later kept s
  have hdead : (s.take (.movable 0 .drop)).reply = .dead ⟨⟨0#64⟩⟩ := by decide +kernel
  have hrefused : (s.take (.movable 1 (.sub 1#128))).reply =
      .refused (.underflow 1#128 0#128) := by decide +kernel
  have hkept : (((start .honest true).minutes (early ++ later)).filter fun e => !e.2.fails) =
      kept := by decide +kernel
  obtain ⟨hwhole, hgiven, -⟩ := fails_without_trace true early
  obtain ⟨-, -, hrun, -⟩ := fails_without_trace true (early ++ later)
  rw [hkept] at hrun
  refine ⟨hdead, hgiven _ _ rfl rfl hdead, hrefused, hwhole _ _ hrefused, hkept, ?_⟩
  exact (hrun (by decide) (by decide +kernel) (by decide +kernel)).1

end Session

end Abacus
