import Abacus.Proofs.Carriage

/-!
# Taking changes back

An addition is taken back by a subtraction of the same amount, and the other way round: what one of
them accepts at a value, the other accepts at the value that comes of it (`Change.undo_of_apply`).
So a trail of changes can be gone back to where it began (`Change.Trail.undone`). At the honest host
a movable counter goes along such a trail wherever it lives, and may be moved at every point of it
(`Session.Bears.follows`). This gives the last theorem: the changes that a counter has accepted are
taken back one by one, by way of the same values, however the counter is moved meanwhile.
-/

namespace Abacus

open Distortion

/-! ## Changes -/

/-- An addition or a subtraction. -/
inductive Change
  | add (amount : Amount)
  | sub (amount : Amount)
  deriving DecidableEq

namespace Change

/-- The change that takes this one back. -/
def undo : Change → Change
  | add x => sub x
  | sub x => add x

def apply (c : Counter) : Change → Except Refusal Counter
  | add x => c.add x
  | sub x => c.sub x

def toStep : Change → MovableStep
  | add x => .add x
  | sub x => .sub x

variable {q : Change} {qs : List Change} {c d e : Counter} {cs : List Counter}

theorem bounded_of_apply (hc : c.Bounded) (h : q.apply c = .ok d) : d.Bounded := by
  cases q with
  | add x => exact hc.add h
  | sub x => exact hc.sub h

theorem limit_of_apply (h : q.apply c = .ok d) : d.limit = c.limit := by
  cases q with
  | add x => exact Counter.limit_of_add h
  | sub x => exact Counter.limit_of_sub h

theorem undo_of_apply (hc : c.Bounded) (h : q.apply c = .ok d) : q.undo.apply d = .ok c := by
  have hle := hc.toNat_le
  cases q with
  | add x =>
    obtain ⟨-, hlimit, hvalue⟩ := (hc.add_eq_ok_iff x).1 h
    exact (Counter.sub_eq_ok_iff x).2 ⟨by omega, hlimit.symm, by omega⟩
  | sub x =>
    obtain ⟨hx, hlimit, hvalue⟩ := (Counter.sub_eq_ok_iff x).1 h
    have hd : d.Bounded := hc.sub h
    exact (hd.add_eq_ok_iff x).2 ⟨by rw [hlimit]; omega, hlimit.symm, by omega⟩

/-- The changes are accepted and lead from `c` to `d`, by way of the counters `cs`, both ends
included. -/
inductive Trail : Counter → List Change → List Counter → Counter → Prop
  | nil (c : Counter) : Trail c [] [c] c
  | cons {q : Change} {qs : List Change} {c c' d : Counter} {cs : List Counter} :
      q.apply c = .ok c' → Trail c' qs cs d → Trail c (q :: qs) (c :: cs) d

namespace Trail

theorem snoc (h : Trail c qs cs d) (hq : q.apply d = .ok e) :
    Trail c (qs ++ [q]) (cs ++ [e]) e := by
  induction h with
  | nil c => exact .cons hq (.nil e)
  | cons hfirst _ ih => exact .cons hfirst (ih hq)

/-- The way back. -/
theorem undone (hc : c.Bounded) (h : Trail c qs cs d) :
    Trail d (qs.map undo).reverse cs.reverse c := by
  induction h with
  | nil c => exact .nil c
  | cons hfirst _ ih =>
    rw [List.map_cons, List.reverse_cons, List.reverse_cons]
    exact (ih (bounded_of_apply hc hfirst)).snoc (undo_of_apply hc hfirst)

end Trail

end Change

/-! ## Changes of movable counters -/

namespace Movable

/-- Makes the change. -/
def change (m : Movable) : Change → Script Call.Answer (Except Refusal Movable)
  | .add x => m.add x
  | .sub x => m.sub x

variable {r : Registry} {m : Movable} {c d : Counter} {q : Change}

theorem change_inPlace (c : Counter) (q : Change) :
    (inPlace c).change q = pure ((q.apply c).map inPlace) := by
  cases q <;> rfl

theorem run_change_of_live {l : Lease} (hc : r.table[l.handle]? = some c) (q : Change) :
    (honest.carryOut ((hosted l).change q)).run r =
      ⟨.ok ((r.put l.handle (q.apply c)).1.map fun _ => hosted l), (r.put l.handle (q.apply c)).2,
        []⟩ := by
  cases q with
  | add x => exact run_add_of_live hc x
  | sub x => exact run_sub_of_live hc x

theorem Carries.run_change_of_refused (hm : m.Carries r c) {e : Refusal}
    (h : q.apply c = .error e) :
    (honest.carryOut (m.change q)).run r = ⟨.ok (.error e), r, []⟩ := by
  cases m with
  | hosted l =>
    rw [run_change_of_live hm.1, h]
    rfl
  | inPlace c' =>
    cases hm
    rw [change_inPlace, h]
    rfl

theorem Carries.run_change_of_accepted (hm : m.Carries r c) (h : q.apply c = .ok d) :
    ∃ m' r', (honest.carryOut (m.change q)).run r = ⟨.ok (.ok m'), r', []⟩ ∧ m'.Carries r' d := by
  cases m with
  | hosted l =>
    obtain ⟨hlive, hlimit⟩ := hm
    rw [run_change_of_live hlive, h]
    exact ⟨hosted l, _, rfl, (Registry.getElem?_table_insert ..).trans (if_pos rfl),
      hlimit.trans (Change.limit_of_apply h).symm⟩
  | inPlace c' =>
    cases hm
    rw [change_inPlace, h]
    exact ⟨inPlace d, r, rfl, rfl⟩

end Movable

/-! ## Legs of a way -/

/-- A change of the counter, or a move between two of them. -/
inductive Leg
  | change (q : Change)
  | move
  deriving DecidableEq

namespace Leg

def toStep (slot : Nat) : Leg → Step
  | change q => .movable slot q.toStep
  | move => .movable slot .move

def change? : Leg → Option Change
  | change q => some q
  | move => none

/-- The changes on the way, without the moves. -/
def changes (legs : List Leg) : List Change := legs.filterMap change?

end Leg

namespace Session

variable {s : Session} {slot : Nat} {c d : Counter} {q : Change}

/-- The steps of the way for the counter in a slot. -/
def way (slot : Nat) (legs : List Leg) : List Step := legs.map (Leg.toStep slot)

/-- What is read of the counter before each change on the way and at its end. -/
def readings (s : Session) (slot : Nat) : List Leg → List Reply
  | [] => [(s.take (.movable slot .read)).reply]
  | .move :: legs => (s.take (.movable slot .move)).session.readings slot legs
  | .change q :: legs =>
      (s.take (.movable slot .read)).reply ::
        (s.take (.movable slot q.toStep)).session.readings slot legs

theorem exists_of_changed_done {a : Script Call.Answer (Except Refusal Movable)}
    (hdone : (s.changed slot a).reply = .done) :
    ∃ m, (s.call a).result = .ok (.ok m) ∧
      (s.changed slot a).session =
        { s with registry := (s.call a).registry, movables := s.movables.insert slot m } := by
  cases hresult : (s.call a).result with
  | error e => simp [changed, hresult] at hdone
  | ok o =>
    cases o with
    | error e => simp [changed, hresult] at hdone
    | ok m => exact ⟨m, rfl, by simp only [changed, hresult]⟩

/-- At the honest host the counter in the slot is `c`, and within its limit. -/
structure Bears (s : Session) (slot : Nat) (c : Counter) : Prop where
  distortion : s.distortion = .honest
  bounded : c.Bounded
  held : ∃ m, s.movables[slot]? = some m ∧ m.Carries s.registry c

namespace Bears

theorem shows (hs : s.Bears slot c) : s.Shows slot c := by
  obtain ⟨m, hm, hcarries⟩ := hs.held
  exact shows_of_carries hs.distortion hm hcarries

theorem take_change_eq {m : Movable} (hm : s.movables[slot]? = some m) (q : Change) :
    s.take (.movable slot q.toStep) = s.changed slot (m.change q) := by
  rw [take_movable_of_some hm]
  cases q <;> rfl

theorem take_of_refused (hs : s.Bears slot c) {e : Refusal} (h : q.apply c = .error e) :
    (s.take (.movable slot q.toStep)).reply = .refused e := by
  obtain ⟨m, hm, hcarries⟩ := hs.held
  have hcall : s.call (m.change q) = _ := hs.distortion ▸ hcarries.run_change_of_refused h
  rw [take_change_eq hm, changed_of_refused hcall]

theorem take_of_accepted (hs : s.Bears slot c) (h : q.apply c = .ok d) :
    (s.take (.movable slot q.toStep)).reply = .done ∧
      (s.take (.movable slot q.toStep)).session.Bears slot d := by
  obtain ⟨m, hm, hcarries⟩ := hs.held
  obtain ⟨m', r', hrun, hcarries'⟩ := hcarries.run_change_of_accepted h
  have hcall : s.call (m.change q) = _ := hs.distortion ▸ hrun
  rw [take_change_eq hm, changed_of_ok slot hcall]
  exact ⟨rfl, hs.distortion, Change.bounded_of_apply hs.bounded h, m',
    s.getElem?_movables_insert slot m', hcarries'⟩

theorem take_move (hs : s.Bears slot c) (hdone : (s.take (.movable slot .move)).reply = .done) :
    (s.take (.movable slot .move)).session.Bears slot c := by
  obtain ⟨m, hm, hcarries⟩ := hs.held
  rw [take_move_of_some hm] at hdone ⊢
  obtain ⟨m', hresult, hsession⟩ := exists_of_changed_done hdone
  have hgated := hcarries.gated_move hs.bounded
  rw [← hs.distortion] at hgated
  rw [hsession]
  exact ⟨hs.distortion, hs.bounded, m', s.getElem?_movables_insert slot m',
    (hgated.done m' hresult).2⟩

/-- Changes that were all made are a trail. -/
theorem exists_trail (hs : s.Bears slot c) {legs : List Leg}
    (hdone : ∀ e ∈ s.minutes (way slot legs), e.2 = .done) :
    ∃ cs d, Change.Trail c (Leg.changes legs) cs d := by
  induction legs generalizing s c with
  | nil => exact ⟨[c], c, .nil c⟩
  | cons leg legs ih =>
    have hfirst : (s.take (leg.toStep slot)).reply = .done := hdone _ List.mem_cons_self
    have hrest : ∀ e ∈ (s.take (leg.toStep slot)).session.minutes (way slot legs), e.2 = .done :=
      fun e he => hdone e (List.mem_cons_of_mem _ he)
    cases leg with
    | move => exact ih (hs.take_move hfirst) hrest
    | change q =>
      cases happly : q.apply c with
      | error e =>
        have hrefused := hfirst.symm.trans (hs.take_of_refused happly)
        cases hrefused
      | ok c' =>
        obtain ⟨cs, d, htrail⟩ := ih (hs.take_of_accepted happly).2 hrest
        exact ⟨c :: cs, d, .cons happly htrail⟩

/-- A counter goes along every trail, and is moved wherever the moves are done. -/
theorem follows (hs : s.Bears slot c) {legs : List Leg} {cs : List Counter}
    (htrail : Change.Trail c (Leg.changes legs) cs d)
    (hmoves : ∀ e ∈ s.minutes (way slot legs), e.1 = .movable slot .move → e.2 = .done) :
    (∀ e ∈ s.minutes (way slot legs), e.2 = .done) ∧
      s.readings slot legs = cs.map (fun c => .amount c.value) ∧
      (s.reach (way slot legs)).Bears slot d := by
  induction legs generalizing s c cs with
  | nil =>
    cases htrail
    exact ⟨fun e he => absurd he List.not_mem_nil, by rw [readings, hs.shows.1]; rfl, hs⟩
  | cons leg legs ih =>
    have hrest : ∀ e ∈ (s.take (leg.toStep slot)).session.minutes (way slot legs),
        e.1 = .movable slot .move → e.2 = .done :=
      fun e he => hmoves e (List.mem_cons_of_mem _ he)
    cases leg with
    | move =>
      have hfirst := hmoves _ List.mem_cons_self rfl
      obtain ⟨hdone, hread, hend⟩ := ih (hs.take_move hfirst) htrail hrest
      exact ⟨List.forall_mem_cons.2 ⟨hfirst, hdone⟩, hread, hend⟩
    | change q =>
      cases htrail with
      | cons happly htrail =>
        obtain ⟨hfirst, hnext⟩ := hs.take_of_accepted happly
        obtain ⟨hdone, hread, hend⟩ := ih hnext htrail hrest
        refine ⟨List.forall_mem_cons.2 ⟨hfirst, hdone⟩, ?_, hend⟩
        rw [readings, hs.shows.1, hread]
        rfl

end Bears

/-- At the honest host, up to the end of the range of handles, let a counter that has its handle
accept all changes on one way, and let another way take them back in reverse order; moves may come
anywhere on both, as long as they are done. Then every change on the way back is accepted, the
values are met again in reverse order, and at the end value and limit are what they were at first,
wherever the counter lives by then. -/
theorem changes_reversible (isOpen : Bool) (qs : List Step) (slot : Nat) (m : Movable)
    (forth back : List Leg) (hn : (start .honest isOpen).draws qs ≤ 2 ^ 64)
    (hm : ((start .honest isOpen).reach qs).movables[slot]? = some m)
    (hattached : m.Attached ((start .honest isOpen).reach qs).registry)
    (hforth : ∀ e ∈ ((start .honest isOpen).reach qs).minutes (way slot forth), e.2 = .done)
    (hback : Leg.changes back = ((Leg.changes forth).map Change.undo).reverse)
    (hmoves : ∀ e ∈ (((start .honest isOpen).reach qs).reach (way slot forth)).minutes
      (way slot back), e.1 = .movable slot .move → e.2 = .done) :
    let s := (start .honest isOpen).reach qs
    let t := s.reach (way slot forth)
    let u := t.reach (way slot back)
    (∀ e ∈ t.minutes (way slot back), e.2 = .done) ∧
      (∃ vs : List Amount, s.readings slot forth = vs.map .amount ∧
        t.readings slot back = vs.reverse.map .amount) ∧
      ∃ c, s.Shows slot c ∧ u.Shows slot c := by
  intro s t u
  have hlabelled : s.Labelled _ := (labelled_start isOpen).reach qs (by omega)
  obtain ⟨c, hcarries, hbounded⟩ := hlabelled.exists_carries hm hattached
  have hs : s.Bears slot c := ⟨hlabelled.registered.distortion, hbounded, m, hm, hcarries⟩
  obtain ⟨cs, d, htrail⟩ := hs.exists_trail hforth
  obtain ⟨-, hread, ht⟩ := hs.follows htrail fun e he _ => hforth e he
  have hundone := htrail.undone hbounded
  rw [← hback] at hundone
  obtain ⟨hdone, hread', hu⟩ := ht.follows hundone hmoves
  refine ⟨hdone, ⟨cs.map Counter.value, ?_, ?_⟩, c, hs.shows, hu.shows⟩
  · rw [hread, List.map_map]
    rfl
  · rw [hread', ← List.map_reverse, List.map_map]
    rfl

/-- A hosted counter that had one added to it through a forged lease goes up to the largest of all
amounts, down to zero and up to three, and back again. On the way forth it is moved once, on the way
back twice, so that it ends in place. -/
theorem changes_reversible_of_forged_lease :
    let top := Amount.greatest
    let qs : List Step :=
      [.newMovable 0 top .hosted, .forgeLease 0 ⟨⟨0#64⟩, 7#128⟩, .lease 0 (.add 1#128)]
    let forth : List Leg :=
      [.change (.add (top - 1)), .move, .change (.sub top), .change (.add 3#128)]
    let back : List Leg :=
      [.move, .change (.sub 3#128), .change (.add top), .move, .change (.sub (top - 1))]
    let s := (start .honest true).reach qs
    let t := s.reach (way 0 forth)
    (start .honest true).draws qs = 1 ∧
    s.readings 0 forth = [1#128, top, 0#128, 3#128].map .amount ∧
    (∀ e ∈ t.minutes (way 0 back), e.2 = .done) ∧
    t.readings 0 back = [3#128, 0#128, top, 1#128].map .amount ∧
    (t.reach (way 0 back)).Shows 0 ⟨1#128, top⟩ ∧
    (t.reach (way 0 back)).movables[0]? = some (.inPlace ⟨1#128, top⟩) := by
  intro top qs forth back
  dsimp only
  have hdraws : (start .honest true).draws qs = 1 := by decide +kernel
  have hread : ((start .honest true).reach qs).readings 0 forth =
      [1#128, top, 0#128, 3#128].map .amount := by decide +kernel
  obtain ⟨hdone, ⟨vs, hvs, hback⟩, c, hshows, hshown⟩ :=
    changes_reversible true qs 0 (.hosted ⟨⟨0#64⟩, top⟩) forth back (by rw [hdraws]; decide)
      (by decide +kernel) (by decide +kernel : Registry.IsLive _ _) (by decide +kernel) rfl
      (by decide +kernel)
  have hinj : Function.Injective Reply.amount := fun _ _ h => Reply.amount.inj h
  have hvs' := List.map_injective_iff.2 hinj (hvs.symm.trans hread)
  have hc : c = ⟨1#128, top⟩ := hshows.unique (by decide +kernel)
  subst hvs' hc
  exact ⟨hdraws, hread, hdone, hback, hshown, by decide +kernel⟩

end Session

end Abacus
