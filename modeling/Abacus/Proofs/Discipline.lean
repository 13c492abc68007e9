import Abacus.Proofs.Chore

/-!
# The calls of a movable counter

A movable counter calls its host from the time it is made to the time it is dropped. Whatever the
host answers, it deals with leases in good order: it asks for one only while it has none, uses the
one it has, gives it back once, and has none at the end. `Passes` follows the lease in the
caller's hand through a dialogue, and `Orderly` is the same order as a grammar of whole dialogues.
A script is `Disciplined` if it keeps that order under all answers of the host; this is shown for
each operation on a counter, then for its whole life, and `passes_of_disciplined` carries it over
to the dialogue with any host.
-/

namespace Abacus

/-- A call together with its answer. -/
abbrev Exchange := (c : Call) × c.Answer

/-- The lease through which a call works on a counter that stays. -/
def Call.used? : Call → Option Lease
  | destroy _ => none
  | q => q.through?

namespace Exchange

/-- A caller that has the lease `held` in hand may have these exchanges and then has another one, or
none, in hand. -/
inductive Passes : Option Lease → List Exchange → Option Lease → Prop
  | nil (held : Option Lease) : Passes held [] held
  | refused (limit : Amount) (e : Refusal) {w : List Exchange} {held : Option Lease}
      (h : Passes none w held) : Passes none (⟨.create limit, .error e⟩ :: w) held
  | issued (limit : Amount) (l : Lease) {w : List Exchange} {held : Option Lease}
      (h : Passes (some l) w held) : Passes none (⟨.create limit, .ok l⟩ :: w) held
  | used {l : Lease} {x : Exchange} (hx : x.1.used? = some l) {w : List Exchange}
      {held : Option Lease} (h : Passes (some l) w held) : Passes (some l) (x :: w) held
  | returned (l : Lease) {w : List Exchange} {held : Option Lease} (h : Passes none w held) :
      Passes (some l) (⟨.destroy l, ()⟩ :: w) held

/-- A dialogue of refusals and of loans: a lease is issued, used any number of times, and given
back. -/
inductive Orderly : List Exchange → Prop
  | nil : Orderly []
  | refused (limit : Amount) (e : Refusal) {w : List Exchange} (h : Orderly w) :
      Orderly (⟨.create limit, .error e⟩ :: w)
  | loan (limit : Amount) (l : Lease) {uses w : List Exchange}
      (hu : ∀ x ∈ uses, x.1.used? = some l) (h : Orderly w) :
      Orderly (⟨.create limit, .ok l⟩ :: (uses ++ ⟨.destroy l, ()⟩ :: w))

/-- What is left of an orderly dialogue for a caller with `held` in hand: a lease is first used and
given back. -/
def Remains : Option Lease → List Exchange → Prop
  | none, w => Orderly w
  | some l, w => ∃ uses w', w = uses ++ ⟨.destroy l, ()⟩ :: w' ∧
      (∀ x ∈ uses, x.1.used? = some l) ∧ Orderly w'

theorem Passes.remains {held last : Option Lease} {w : List Exchange} (h : Passes held w last)
    (hlast : last = none) : Remains held w := by
  induction h with
  | nil held =>
    subst hlast
    exact .nil
  | refused limit e h ih => exact .refused limit e (ih hlast)
  | issued limit l h ih =>
    obtain ⟨uses, w', rfl, hu, hw⟩ := ih hlast
    exact .loan limit l hu hw
  | used hx h ih =>
    obtain ⟨uses, w', rfl, hu, hw⟩ := ih hlast
    refine ⟨_ :: uses, w', rfl, fun y hy => ?_, hw⟩
    rcases List.mem_cons.1 hy with rfl | hy
    · exact hx
    · exact hu y hy
  | returned l h ih => exact ⟨[], _, rfl, by simp, ih hlast⟩

end Exchange

namespace Script

variable {α β σ : Type}

/-- The dialogue of a script with a host that has a memory `σ`, and the result. -/
def converse (host : σ → (c : Call) → c.Answer × σ) : Script Call.Answer α → σ → List Exchange × α
  | done a, _ => ([], a)
  | report _ rest, s => rest.converse host s
  | ask c next, s =>
      let (x, s') := host s c
      let (w, a) := (next x).converse host s'
      (⟨c, x⟩ :: w, a)

/-- The script keeps the order of leases under all answers: with `held` in hand at its beginning it
ends with a result and a lease in hand as `post` says. -/
def Disciplined : Script Call.Answer α → Option Lease → (α → Option Lease → Prop) → Prop
  | done a, held, post => post a held
  | report _ rest, held, post => rest.Disciplined held post
  | ask (.create _) next, held, post => held = none ∧ ∀ r, (next r).Disciplined r.toOption post
  | ask (.add l _) next, held, post => held = some l ∧ ∀ r, (next r).Disciplined held post
  | ask (.sub l _) next, held, post => held = some l ∧ ∀ r, (next r).Disciplined held post
  | ask (.read l) next, held, post => held = some l ∧ ∀ v, (next v).Disciplined held post
  | ask (.destroy l) next, held, post => held = some l ∧ (next ()).Disciplined none post

theorem Disciplined.bind {s : Script Call.Answer α} {f : α → Script Call.Answer β}
    {held : Option Lease} {mid : α → Option Lease → Prop} {post : β → Option Lease → Prop}
    (hs : s.Disciplined held mid) (hf : ∀ a held', mid a held' → (f a).Disciplined held' post) :
    (s.bind f).Disciplined held post := by
  induction s generalizing held with
  | done a => exact hf a held hs
  | report e rest ih => exact ih hs
  | ask c next ih =>
      cases c with
      | create limit => exact ⟨hs.1, fun r => ih r (hs.2 r)⟩
      | add l x | sub l x | read l => exact ⟨hs.1, fun r => ih r (hs.2 r)⟩
      | destroy l => exact ⟨hs.1, ih () hs.2⟩

/-- A disciplined script keeps the order with every host. -/
theorem passes_of_disciplined (host : σ → (c : Call) → c.Answer × σ) {s : Script Call.Answer α}
    {held : Option Lease} {post : α → Option Lease → Prop} (hs : s.Disciplined held post) (t : σ) :
    ∃ held', Exchange.Passes held (s.converse host t).1 held' ∧
      post (s.converse host t).2 held' := by
  induction s generalizing held t with
  | done a => exact ⟨held, .nil held, hs⟩
  | report e rest ih => exact ih hs t
  | ask c next ih =>
      cases c with
      | create limit =>
        obtain ⟨rfl, hs⟩ := hs
        obtain ⟨held', hw, hpost⟩ := ih _ (hs (host t (.create limit)).1) (host t (.create limit)).2
        refine ⟨held', ?_, hpost⟩
        show Exchange.Passes none (⟨_, (host t (.create limit)).1⟩ :: _) held'
        cases hr : (host t (.create limit)).1 with
        | error e =>
          rw [hr] at hw
          exact .refused limit e hw
        | ok l =>
          rw [hr] at hw
          exact .issued limit l hw
      | add l x | sub l x | read l =>
        obtain ⟨rfl, hs⟩ := hs
        obtain ⟨held', hw, hpost⟩ := ih _ (hs _) (host t _).2
        exact ⟨held', .used rfl hw, hpost⟩
      | destroy l =>
        obtain ⟨rfl, hs⟩ := hs
        obtain ⟨held', hw, hpost⟩ := ih () hs (host t (.destroy l)).2
        exact ⟨held', .returned l hw, hpost⟩

theorem converse_prefix_bind (host : σ → (c : Call) → c.Answer × σ) (s : Script Call.Answer α)
    (f : α → Script Call.Answer β) (t : σ) :
    (s.converse host t).1 <+: ((s.bind f).converse host t).1 := by
  induction s generalizing t with
  | done a => exact List.nil_prefix
  | report e rest ih => exact ih t
  | ask c next ih => exact (List.prefix_cons_inj _).2 (ih _ _)

end Script

/-! ## The operations of a movable counter -/

namespace Movable

variable {m : Movable}

theorem disciplined_read : m.read.Disciplined m.lease? fun _ held => held = m.lease? := by
  cases m with
  | hosted l => exact ⟨rfl, fun _ => rfl⟩
  | inPlace c => rfl

theorem disciplined_add (x : Amount) :
    (m.add x).Disciplined m.lease? fun r held => held = (r.toOption.getD m).lease? := by
  cases m with
  | hosted l =>
    refine ⟨rfl, fun r => ?_⟩
    cases r <;> rfl
  | inPlace c =>
    show none = ((Except.map inPlace (c.add x)).toOption.getD _).lease?
    cases c.add x <;> rfl

theorem disciplined_sub (x : Amount) :
    (m.sub x).Disciplined m.lease? fun r held => held = (r.toOption.getD m).lease? := by
  cases m with
  | hosted l =>
    refine ⟨rfl, fun r => ?_⟩
    cases r <;> rfl
  | inPlace c =>
    show none = ((Except.map inPlace (c.sub x)).toOption.getD _).lease?
    cases c.sub x <;> rfl

theorem disciplined_fresh (limit : Amount) (p : Placement) :
    (fresh limit p).Disciplined none fun r held => held = r.toOption.bind lease? := by
  cases p with
  | hosted =>
    refine ⟨rfl, fun r => ?_⟩
    cases r <;> rfl
  | inPlace => rfl

theorem disciplined_release : m.release.Disciplined m.lease? fun _ held => held = none := by
  cases m with
  | hosted l => exact ⟨rfl, rfl⟩
  | inPlace c => rfl

theorem disciplined_drop : m.drop.Disciplined m.lease? fun _ held => held = none := by
  cases m with
  | hosted l => exact ⟨rfl, rfl⟩
  | inPlace c => rfl

theorem disciplined_make (limit : Amount) (p : Placement) :
    (make limit p).Disciplined none fun r held => held = r.toOption.bind lease? := by
  refine (disciplined_fresh limit p).bind fun r held hheld => ?_
  cases r <;> exact hheld

/-- A move asks for a lease only if the counter has none, and gives one back otherwise. -/
theorem disciplined_move :
    m.move.Disciplined m.lease? fun r held => held = (r.toOption.getD m).lease? := by
  refine disciplined_read.bind fun value held hheld => ?_
  subst hheld
  cases m with
  | hosted l =>
    simp only [limit, placement, Placement.flip, fresh, add, Script.pure_eq, Script.bind_eq,
      Script.bind]
    cases (Counter.fresh l.limit).add value with
    | error e => rfl
    | ok c => exact disciplined_release.bind fun _ held hheld => hheld
  | inPlace c =>
    refine (disciplined_fresh c.limit .hosted).bind fun fresh held hheld => ?_
    cases fresh with
    | error e => exact hheld
    | ok target =>
      subst hheld
      refine (disciplined_add value).bind fun filled held hheld => ?_
      subst hheld
      cases filled with
      | error e =>
        show (target.release.bind _).Disciplined target.lease? _
        exact disciplined_release.bind fun _ held hheld => hheld
      | ok moved => rfl

theorem disciplined_perform (q : MovableStep) :
    (m.perform q).Disciplined m.lease? fun p held => held = p.1.bind lease? := by
  have hkept {c : Script Call.Answer (Except Refusal Movable)}
      (hc : c.Disciplined m.lease? fun r held => held = (r.toOption.getD m).lease?) :
      (c.bind fun r => .done (Reply.keep m r)).Disciplined m.lease? fun p held =>
        held = p.1.bind lease? := by
    refine hc.bind fun r held hheld => ?_
    cases r <;> exact hheld
  have hasked {α : Type} (f : Amount → α) :
      (m.read.bind fun v => .done (f v)).Disciplined m.lease? fun _ held => held = m.lease? :=
    disciplined_read.bind fun _ _ hheld => hheld
  cases q with
  | add x => exact hkept (disciplined_add x)
  | sub x => exact hkept (disciplined_sub x)
  | move => exact hkept disciplined_move
  | read => exact disciplined_read.bind fun _ _ hheld => hheld
  | headroom => exact (hasked _).bind fun _ _ hheld => hheld
  | write block => exact (hasked _).bind fun _ _ hheld => hheld
  | drop => exact disciplined_drop.bind fun _ _ hheld => hheld
  | limit | isHosted | placement | isServedHere => rfl

/-! ## Lives -/

/-- Takes the steps one after the other, as long as there is a counter to take them on. -/
def performAll : Option Movable → List MovableStep → Script Call.Answer (Option Movable)
  | some m, q :: qs => (m.perform q).bind fun p => performAll p.1 qs
  | m, _ => .done m

/-- The counter is made and takes steps; it ends with the counter that there is then. -/
def career (limit : Amount) (p : Placement) (qs : List MovableStep) :
    Script Call.Answer (Option Movable) :=
  (make limit p).bind fun r => performAll r.toOption qs

/-- The counter is made, takes steps, and is dropped in the end. -/
def life (limit : Amount) (p : Placement) (qs : List MovableStep) : Script Call.Answer Unit :=
  (career limit p qs).bind fun m => m.elim (.done ()) drop

theorem performAll_append (m : Option Movable) (qs later : List MovableStep) :
    performAll m (qs ++ later) = (performAll m qs).bind fun m' => performAll m' later := by
  induction qs generalizing m with
  | nil => cases m <;> rfl
  | cons q qs ih =>
      cases m with
      | none => cases later <;> rfl
      | some m =>
        show (m.perform q).bind _ = ((m.perform q).bind _).bind _
        rw [Script.bind_assoc]
        exact congrArg _ (funext fun p => ih p.1)

theorem disciplined_performAll (m : Option Movable) (qs : List MovableStep) :
    (performAll m qs).Disciplined (m.bind lease?) fun m' held => held = m'.bind lease? := by
  induction qs generalizing m with
  | nil => cases m <;> rfl
  | cons q qs ih =>
      cases m with
      | none => rfl
      | some m =>
        refine (disciplined_perform q).bind fun p held hheld => ?_
        subst hheld
        exact ih p.1

theorem disciplined_career (limit : Amount) (p : Placement) (qs : List MovableStep) :
    (career limit p qs).Disciplined none fun m held => held = m.bind lease? := by
  refine (disciplined_make limit p).bind fun r held hheld => ?_
  subst hheld
  exact disciplined_performAll r.toOption qs

theorem disciplined_life (limit : Amount) (p : Placement) (qs : List MovableStep) :
    (life limit p qs).Disciplined none fun _ held => held = none := by
  refine (disciplined_career limit p qs).bind fun m held hheld => ?_
  subst hheld
  cases m with
  | none => rfl
  | some m => exact disciplined_drop

/-- Whatever the host answers, the calls of a counter's whole life are refusals and loans that are
given back, and at each time between two steps the counter has a lease exactly if it is hosted. -/
theorem orderly_life {σ : Type} (host : σ → (c : Call) → c.Answer × σ) (t : σ) (limit : Amount)
    (p : Placement) (qs later : List MovableStep) :
    let whole := ((life limit p (qs ++ later)).converse host t).1
    let sofar := ((career limit p qs).converse host t).1
    let m := ((career limit p qs).converse host t).2
    Exchange.Orderly whole ∧ sofar <+: whole ∧ Exchange.Passes none sofar (m.bind lease?) ∧
      ∀ m', m = some m' → m'.lease?.isSome = m'.placement.isHosted := by
  obtain ⟨held, hwhole, hend⟩ :=
    Script.passes_of_disciplined host (disciplined_life limit p (qs ++ later)) t
  obtain ⟨held', hsofar, hheld⟩ :=
    Script.passes_of_disciplined host (disciplined_career limit p qs) t
  refine ⟨hwhole.remains hend, ?_, hheld ▸ hsofar, fun m' _ => ?_⟩
  · have hsplit : life limit p (qs ++ later) = (career limit p qs).bind fun m =>
        (performAll m later).bind fun m' => m'.elim (.done ()) drop := by
      simp only [life, career, performAll_append, Script.bind_assoc]
    rw [hsplit]
    exact Script.converse_prefix_bind host _ _ t
  · cases m' <;> rfl

end Movable

end Abacus
