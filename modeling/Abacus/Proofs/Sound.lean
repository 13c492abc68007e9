import Abacus.Session.Run

/-!
# Sound states

A registry is sound if every counter that it hosts is within its limit, and a session is sound if
every counter in it is. No action makes a registry unsound (`Registry.Sound.act`), so no script
does, and no pool of threads under any schedule. For sessions `Session.Sound.take` says the same of
every step: the host may be distorted and leases may be forged. `Session.reach` is the state that
a session gets to by any steps, and `Session.sound_reach` its invariant.
-/

namespace Abacus

/-! ## Registries -/

namespace Registry

/-- Every hosted counter is within its limit. -/
def Sound (r : Registry) : Prop := ∀ (h : Handle) (c : Counter), r.table[h]? = some c → c.Bounded

variable {r : Registry}

theorem sound_empty (isOpen : Bool) : (empty isOpen).Sound := by
  intro h c hc
  simp [empty] at hc

theorem isLive_iff {h : Handle} : r.IsLive h ↔ ∃ c, r.table[h]? = some c := by
  rw [IsLive, Std.ExtTreeMap.mem_iff_isSome_getElem?, Option.isSome_iff_exists]

theorem getElem?_table_insert (table : Std.ExtTreeMap Handle Counter) (h k : Handle) (c : Counter) :
    (table.insert h c)[k]? = if h = k then some c else table[k]? := by
  rw [Std.ExtTreeMap.getElem?_insert]
  simp only [Std.LawfulEqOrd.compare_eq_iff_eq]

theorem getElem?_table_erase (table : Std.ExtTreeMap Handle Counter) (h k : Handle) :
    (table.erase h)[k]? = if h = k then none else table[k]? := by
  rw [Std.ExtTreeMap.getElem?_erase]
  simp only [Std.LawfulEqOrd.compare_eq_iff_eq]

theorem Sound.insert (hr : r.Sound) (h : Handle) {c : Counter} (hc : c.Bounded) :
    { r with table := r.table.insert h c }.Sound := by
  intro k d hd
  rw [getElem?_table_insert] at hd
  split at hd
  · cases hd
    exact hc
  · exact hr k d hd

theorem Sound.erase (hr : r.Sound) (h : Handle) :
    { r with table := r.table.erase h }.Sound := by
  intro k d hd
  rw [getElem?_table_erase] at hd
  split at hd
  · cases hd
  · exact hr k d hd

theorem Sound.put (hr : r.Sound) (h : Handle) {change : Except Refusal Counter}
    (hchange : ∀ c, change = .ok c → c.Bounded) : (r.put h change).2.Sound := by
  cases change with
  | error e => exact hr
  | ok c => exact hr.insert h (hchange c rfl)

/-- The actions on a hosted counter look it up, and change the registry by what they find. -/
theorem exists_of_find_map {β : Type} {h : Handle} {f : Counter → β × Registry} {b : β}
    {r' : Registry} (heq : (r.find h).map f = .ok (b, r')) :
    ∃ c, r.table[h]? = some c ∧ f c = (b, r') := by
  cases hfind : r.find h with
  | error d =>
    rw [hfind] at heq
    cases heq
  | ok c =>
    rw [hfind] at heq
    exact ⟨c, find_eq_ok_iff.1 hfind, Except.ok.inj heq⟩

theorem Sound.act (hr : r.Sound) {q : Action} {a : q.Answer} {r' : Registry}
    (hact : r.act q = .ok (a, r')) : r'.Sound := by
  have hfound {β : Type} {h : Handle} {f : Counter → β × Registry} {b : β}
      (heq : (r.find h).map f = .ok (b, r')) (hf : ∀ c, c.Bounded → (f c).2.Sound) : r'.Sound := by
    obtain ⟨c, hc, hfc⟩ := exists_of_find_map heq
    have hsound := hf c (hr h c hc)
    rwa [hfc] at hsound
  cases q with
  | look | setGate isOpen | draw =>
    cases hact
    exact hr
  | place h limit =>
    cases hact
    exact hr.insert h (Counter.bounded_fresh limit)
  | add h x => exact hfound hact fun c hc => hr.put h fun d hd => hc.add hd
  | sub h x => exact hfound hact fun c hc => hr.put h fun d hd => hc.sub hd
  | read h => exact hfound hact fun c _ => hr
  | remove h => exact hfound hact fun c _ => hr.erase h

end Registry

/-! ## Scripts and threads -/

section Threads

variable {α : Type} {r : Registry}

theorem Script.sound_run (s : Script Action.Answer α) (hr : r.Sound) :
    (s.run r).registry.Sound := by
  induction s generalizing r with
  | done a => exact hr
  | report e rest ih => exact ih hr
  | ask q next ih =>
    cases hact : r.act q with
    | error d => simpa only [run, hact] using hr
    | ok p => simpa only [run, hact] using ih p.1 (hr.act hact)

theorem Strand.sound_step (s : Script Action.Answer α) (hr : r.Sound) :
    (step s r).2.Sound := by
  induction s with
  | done a => exact hr
  | report e rest ih => exact ih
  | ask q next ih =>
    cases hact : r.act q with
    | error d => simpa only [step, hact] using hr
    | ok p => simpa only [step, hact] using hr.act hact

theorem Strand.sound_turn (s : Strand α) (hr : r.Sound) : (s.turn r).2.Sound := by
  cases s with
  | going s => exact sound_step s hr
  | dead d => exact hr

theorem Strand.sound_finish (s : Strand α) (hr : r.Sound) : (s.finish r).2.Sound := by
  cases s with
  | going s => exact s.sound_run hr
  | dead d => exact hr

theorem Pool.sound_turn {p : Pool α} (hp : p.registry.Sound) (i : Nat) :
    (p.turn i).registry.Sound := by
  unfold turn
  split
  · exact hp
  · exact Strand.sound_turn _ hp

theorem Pool.sound_run {p : Pool α} (hp : p.registry.Sound) (schedule : List Nat) :
    (p.run schedule).registry.Sound := by
  induction schedule generalizing p with
  | nil => exact hp
  | cons i schedule ih => exact ih (sound_turn hp i)

theorem Pool.sound_finish {p : Pool α} (hp : p.registry.Sound) : p.finish.2.Sound := by
  have hgo (ss : List (Strand α)) (r : Registry) (hr : r.Sound) : (finish.go ss r).2.Sound := by
    induction ss generalizing r with
    | nil => exact hr
    | cons s ss ih => exact ih _ (s.sound_finish hr)
  exact hgo p.strands p.registry hp

end Threads

/-! ## Questions and results of scripts, whatever the answers -/

namespace Script

variable {Q : Type} {A : Q → Type} {α β : Type}

/-- All questions that the script may ask are as `P` says. -/
def Asks (P : Q → Prop) : Script A α → Prop
  | done _ => True
  | ask q next => P q ∧ ∀ x, (next x).Asks P
  | report _ rest => rest.Asks P

theorem Asks.bind {P : Q → Prop} {s : Script A α} {f : α → Script A β} (hs : s.Asks P)
    (hf : ∀ a, (f a).Asks P) : (s.bind f).Asks P := by
  induction s with
  | done a => exact hf a
  | ask q next ih => exact ⟨hs.1, fun x => ih x (hs.2 x)⟩
  | report e rest ih => exact ih hs

/-- All results that the script may end with are as `P` says. -/
def Ends (P : α → Prop) : Script A α → Prop
  | done a => P a
  | ask _ next => ∀ x, (next x).Ends P
  | report _ rest => rest.Ends P

theorem Ends.bind {P : α → Prop} {R : β → Prop} {s : Script A α} {f : α → Script A β}
    (hs : s.Ends P) (hf : ∀ a, P a → (f a).Ends R) : (s.bind f).Ends R := by
  induction s with
  | done a => exact hf a hs
  | ask q next ih => exact fun x => ih x (hs x)
  | report e rest ih => exact ih hs

theorem ends_true (s : Script A α) : s.Ends fun _ => True := by
  induction s with
  | done a => trivial
  | ask q next ih => exact ih
  | report e rest ih => exact ih

theorem Ends.of_run_carryOut {P : α → Prop} {s : Script Call.Answer α} (hs : s.Ends P)
    {d : Distortion} {r : Registry} {a : α} (ha : ((d.carryOut s).run r).result = .ok a) : P a := by
  induction s generalizing r with
  | done b =>
    cases ha
    exact hs
  | report e rest ih => exact ih hs ha
  | ask c next ih =>
    change (((d.serve c).bind fun x => d.carryOut (next x)).run r).result = .ok a at ha
    rw [run_bind, Outcome.andThen] at ha
    split at ha
    · cases ha
    · exact ih _ (hs _) ha

end Script

/-! ## Movable counters -/

namespace Movable

/-- A counter that lives in place is within its limit. -/
def Sound : Movable → Prop
  | hosted _ => True
  | inPlace c => c.Bounded

/-- The counter that an operation ends with, if it ends with one, is sound. -/
def Yields (r : Except Refusal Movable) : Prop := ∀ m, r = .ok m → m.Sound

theorem yields_map_hosted {α : Type} (r : Except Refusal α) (l : Lease) :
    Yields (r.map fun _ => hosted l) := by
  intro m hm
  cases r with
  | error e => cases hm
  | ok a =>
    cases hm
    trivial

theorem yields_map_inPlace {r : Except Refusal Counter} (hr : ∀ c, r = .ok c → c.Bounded) :
    Yields (r.map inPlace) := by
  intro m hm
  cases r with
  | error e => cases hm
  | ok c =>
    cases hm
    exact hr c rfl

variable {m : Movable}

theorem ends_add (hm : m.Sound) (x : Amount) : (m.add x).Ends Yields := by
  cases m with
  | hosted l => exact fun r => yields_map_hosted r l
  | inPlace c => exact yields_map_inPlace fun d hd => Counter.Bounded.add hm hd

theorem ends_sub (hm : m.Sound) (x : Amount) : (m.sub x).Ends Yields := by
  cases m with
  | hosted l => exact fun r => yields_map_hosted r l
  | inPlace c => exact yields_map_inPlace fun d hd => Counter.Bounded.sub hm hd

theorem ends_fresh (limit : Amount) (p : Placement) : (fresh limit p).Ends Yields := by
  cases p with
  | hosted =>
    intro r m hm
    cases r with
    | error e => cases hm
    | ok l =>
      cases hm
      trivial
  | inPlace =>
    intro m hm
    cases hm
    exact Counter.bounded_fresh limit

theorem ends_make (limit : Amount) (p : Placement) : (make limit p).Ends Yields := by
  refine (ends_fresh limit p).bind fun r hr => ?_
  cases r <;> exact hr

theorem ends_move (m : Movable) : m.move.Ends Yields := by
  refine m.read.ends_true.bind fun value _ => ?_
  refine (ends_fresh m.limit m.placement.flip).bind fun fresh hfresh => ?_
  cases fresh with
  | error e => exact hfresh
  | ok target =>
    refine (ends_add (hfresh target rfl) value).bind fun filled hfilled => ?_
    cases filled with
    | error e =>
      refine target.release.ends_true.bind fun _ _ => ?_
      intro m' hm'
      cases hm'
    | ok moved => exact m.release.ends_true.bind fun _ _ => hfilled

end Movable

/-! ## Sessions -/

namespace Slots

variable {α : Type}

/-- What the slots hold is as `P` says. -/
def All (P : α → Prop) (t : Slots α) : Prop := ∀ (slot : Nat) (a : α), t[slot]? = some a → P a

variable {P : α → Prop} {t : Slots α}

theorem all_empty : All P ∅ := by
  intro slot a ha
  simp at ha

theorem All.insert (ht : All P t) (slot : Nat) {a : α} (ha : P a) : All P (t.insert slot a) := by
  intro i b hb
  rw [Std.ExtTreeMap.getElem?_insert] at hb
  split at hb
  · cases hb
    exact ha
  · exact ht i b hb

theorem All.erase (ht : All P t) (slot : Nat) : All P (t.erase slot) := by
  intro i b hb
  rw [Std.ExtTreeMap.getElem?_erase] at hb
  split at hb
  · cases hb
  · exact ht i b hb

end Slots

namespace Session

/-- Every counter in the session is within its limit. -/
structure Sound (s : Session) : Prop where
  registry : s.registry.Sound
  counters : s.counters.All Counter.Bounded
  movables : s.movables.All Movable.Sound

variable {α : Type} {s : Session}

theorem sound_start (d : Distortion) (isOpen : Bool) : (start d isOpen).Sound :=
  ⟨Registry.sound_empty isOpen, Slots.all_empty, Slots.all_empty⟩

theorem Sound.call (hs : s.Sound) (c : Script Call.Answer α) : (s.call c).registry.Sound :=
  Script.sound_run _ hs.registry

theorem Sound.asked (hs : s.Sound) (c : Script Call.Answer α) (reply : α → Reply) :
    (s.asked c reply).session.Sound :=
  ⟨hs.call c, hs.counters, hs.movables⟩

theorem Sound.loaded (hs : s.Sound) (load : Load) (c : Script Call.Answer α)
    (reply : List α → Reply) : (s.loaded load c reply).session.Sound :=
  ⟨Pool.sound_finish (Pool.sound_run hs.registry load.schedule), hs.counters, hs.movables⟩

theorem Sound.putCounter (hs : s.Sound) (slot : Nat) {r : Except Refusal Counter}
    (hr : ∀ c, r = .ok c → c.Bounded) : (s.putCounter slot r).session.Sound := by
  cases r with
  | error e => exact hs
  | ok c => exact ⟨hs.registry, hs.counters.insert slot (hr c rfl), hs.movables⟩

theorem Sound.changed (hs : s.Sound) (slot : Nat) {c : Script Call.Answer (Except Refusal Movable)}
    (hc : c.Ends Movable.Yields) : (s.changed slot c).session.Sound := by
  simp only [Session.changed]
  split
  · exact ⟨hs.call c, hs.counters, hs.movables⟩
  · exact ⟨hs.call c, hs.counters, hs.movables⟩
  · rename_i m hm
    exact ⟨hs.call c, hs.counters, hs.movables.insert slot (hc.of_run_carryOut hm m rfl)⟩

theorem Sound.takeCounter (hs : s.Sound) (slot : Nat) {c : Counter} (hc : c.Bounded)
    (q : CounterStep) : (s.takeCounter slot c q).session.Sound := by
  cases q with
  | add x => exact hs.putCounter slot fun d hd => hc.add hd
  | sub x => exact hs.putCounter slot fun d hd => hc.sub hd
  | copy target =>
    refine hs.putCounter target fun d hd => ?_
    cases hd
    exact hc
  | destroy => exact ⟨hs.registry, hs.counters.erase slot, hs.movables⟩
  | read | limit | headroom | equals other | write block => exact hs

theorem Sound.takeNewLease (hs : s.Sound) (slot : Nat) (limit : Amount) :
    (s.takeNewLease slot limit).session.Sound := by
  simp only [Session.takeNewLease]
  split <;> exact ⟨hs.call _, hs.counters, hs.movables⟩

theorem Sound.takeLease (hs : s.Sound) (slot : Nat) (l : Lease) (q : LeaseStep) :
    (s.takeLease slot l q).session.Sound := by
  cases q with
  | add x | sub x | read => exact hs.asked _ _
  | destroy => exact ⟨hs.call _, hs.counters, hs.movables⟩
  | loadAdd load x | loadSub load x => exact hs.loaded _ _ _
  | limit | handle | equals other | write block => exact hs

theorem Sound.takeNewMovable (hs : s.Sound) (slot : Nat) (limit : Amount) (p : Placement) :
    (s.takeNewMovable slot limit p).session.Sound := by
  have hmade := hs.changed slot (Movable.ends_make limit p)
  simp only [Session.takeNewMovable]
  split
  · rename_i old _ _
    exact hmade.asked old.drop fun _ => .done
  · exact hmade

theorem Sound.takeMovable (hs : s.Sound) (slot : Nat) {m : Movable} (hm : m.Sound)
    (q : MovableStep) : (s.takeMovable slot m q).session.Sound := by
  cases q with
  | add x => exact hs.changed slot (Movable.ends_add hm x)
  | sub x => exact hs.changed slot (Movable.ends_sub hm x)
  | move => exact hs.changed slot m.ends_move
  | read | headroom | write block => exact hs.asked _ _
  | drop => exact ⟨hs.call _, hs.counters, hs.movables.erase slot⟩
  | limit | isHosted | placement | isServedHere => exact hs

theorem Sound.takeRegistry (hs : s.Sound) (q : RegistryStep) :
    (s.takeRegistry q).session.Sound := by
  cases q with
  | setGate isOpen => exact ⟨Script.sound_run _ hs.registry, hs.counters, hs.movables⟩
  | loadCreate load limit destroy => exact hs.loaded _ _ _
  | live | isOpen | write block => exact hs

/-- A step on what a slot holds keeps a session sound if it does so for the content of the slot. -/
theorem Sound.onSlot {β : Type} {P : β → Prop} {t : Slots β} (hs : s.Sound) (ht : t.All P)
    (slot : Nat) {f : β → Taken} (hf : ∀ b, P b → (f b).session.Sound) :
    (s.onSlot t[slot]? f).session.Sound := by
  cases hb : t[slot]? with
  | none => exact hs
  | some b => exact hf b (ht slot b hb)

theorem Sound.take (hs : s.Sound) (q : Step) : (s.take q).session.Sound := by
  cases q with
  | newCounter slot limit =>
    refine hs.putCounter slot fun d hd => ?_
    cases hd
    exact Counter.bounded_fresh limit
  | counter slot q => exact hs.onSlot hs.counters slot fun c hc => hs.takeCounter slot hc q
  | newLease slot limit => exact hs.takeNewLease slot limit
  | forgeLease slot l => exact ⟨hs.registry, hs.counters, hs.movables⟩
  | lease slot q =>
    exact hs.onSlot (P := fun _ => True) (fun _ _ _ => trivial) slot fun l _ =>
      hs.takeLease slot l q
  | newMovable slot limit p => exact hs.takeNewMovable slot limit p
  | movable slot q => exact hs.onSlot hs.movables slot fun m hm => hs.takeMovable slot hm q
  | registry q => exact hs.takeRegistry q

/-! ## Reachable states -/

/-- The session after the given steps. -/
def reach (s : Session) (qs : List Step) : Session := qs.foldl (fun s q => (s.take q).session) s

theorem reach_append (s : Session) (qs later : List Step) :
    s.reach (qs ++ later) = (s.reach qs).reach later :=
  List.foldl_append

theorem distortion_take (s : Session) (q : Step) :
    (s.take q).session.distortion = s.distortion := by
  have honSlot {β : Type} (held : Option β) (f : β → Taken)
      (hf : ∀ b, (f b).session.distortion = s.distortion) :
      (s.onSlot held f).session.distortion = s.distortion := by
    cases held with
    | none => rfl
    | some b => exact hf b
  have hput (slot : Nat) (r : Except Refusal Counter) :
      (s.putCounter slot r).session.distortion = s.distortion := by
    cases r <;> rfl
  have hchanged (slot : Nat) (c : Script Call.Answer (Except Refusal Movable)) :
      (s.changed slot c).session.distortion = s.distortion := by
    simp only [changed]
    split <;> rfl
  cases q with
  | newCounter slot limit => rfl
  | counter slot q =>
    refine honSlot _ _ fun c => ?_
    cases q with
    | add x | sub x => exact hput slot _
    | read | limit | headroom | copy target | equals other | write block | destroy => rfl
  | newLease slot limit =>
    simp only [take, takeNewLease]
    split <;> rfl
  | forgeLease slot l => rfl
  | lease slot q =>
    refine honSlot _ _ fun l => ?_
    cases q <;> rfl
  | newMovable slot limit p =>
    simp only [take, takeNewMovable]
    split
    · exact hchanged slot _
    · exact hchanged slot _
  | movable slot q =>
    refine honSlot _ _ fun m => ?_
    cases q with
    | add x | sub x | move => exact hchanged slot _
    | read | limit | headroom | isHosted | placement | isServedHere | write block | drop => rfl
  | registry q => cases q <;> rfl

theorem distortion_reach (s : Session) (qs : List Step) :
    (s.reach qs).distortion = s.distortion := by
  induction qs generalizing s with
  | nil => rfl
  | cons q qs ih => exact (ih _).trans (s.distortion_take q)

theorem Sound.reach (hs : s.Sound) (qs : List Step) : (s.reach qs).Sound := by
  induction qs generalizing s with
  | nil => exact hs
  | cons q qs ih => exact ih (hs.take q)

theorem sound_reach (d : Distortion) (isOpen : Bool) (qs : List Step) :
    ((start d isOpen).reach qs).Sound :=
  (sound_start d isOpen).reach qs

end Session

end Abacus
