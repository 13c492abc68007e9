import Abacus.Proofs.Ledger
import Abacus.Pool

/-!
# Owners side by side

Several owners work on one registry at the same time, each in a thread and from a desk of its own.
An owner is a program of errands that may choose its next errand by the replies so far. The
threads take turns in any order, an action a turn, so that others may come between any two actions
of an errand.

`Registry.Shared` divides the registry among the threads. What a thread does to its own share
leaves the others' shares alone (`Shared.update`), also while it has a handle that it drew and not
yet placed, and so a pool of secure threads stays one (`Pool.Secure.turn`, `Pool.Secure.run`).
With the ledger for a postcondition (`Desk.secure_carry`) every owner gets the replies of its own
ledger.
-/

namespace Abacus

/-! ## What the threads of a pool do -/

/-- An action with its answer. -/
abbrev Deed := (q : Action) × q.Answer

namespace Strand

variable {α : Type}

/-- What a thread does next. -/
def deedOf : Script Action.Answer α → Registry → Option Deed
  | .done _, _ => none
  | .report _ rest, r => deedOf rest r
  | .ask q _, r =>
      match r.act q with
      | .error _ => none
      | .ok (a, _) => some ⟨q, a⟩

def deed? : Strand α → Registry → Option Deed
  | going s, r => deedOf s r
  | dead _, _ => none

end Strand

namespace Deed

def draws (e : Option Deed) : Nat := e.elim 0 fun e => e.1.draws

def sights (e : Option Deed) : List Sight := e.elim [] fun e => e.1.sights e.2

end Deed

namespace Pool

variable {α : Type}

def deed? (p : Pool α) (i : Nat) : Option Deed := p.strands[i]?.bind fun s => s.deed? p.registry

/-- The number of handles that are drawn in the turns of a schedule. A creation that has drawn a
handle always succeeds. -/
def draws : Pool α → List Nat → Nat
  | _, [] => 0
  | p, i :: is => Deed.draws (p.deed? i) + (p.turn i).draws is

/-- What thread `j` sees of the gate and of the handles in the turns of a schedule. -/
def sights : Pool α → List Nat → Nat → List Sight
  | _, [], _ => []
  | p, i :: is, j => (if i = j then Deed.sights (p.deed? i) else []) ++ (p.turn i).sights is j

end Pool

/-! ## A registry divided among threads -/

namespace Registry

/-- What the threads other than `i` have. -/
def others (o : Nat → Share) (i : Nat) (h : Handle) (s : Stake) : Prop :=
  ∃ j, j ≠ i ∧ o j h = some s

/-- The registry is made up of the shares of the threads, after `n` handles were drawn. -/
structure Shared (r : Registry) (o : Nat → Share) (n : Nat) : Prop where
  hosted : ∀ h c, r.table[h]? = some c ↔ ∃ i, o i h = some (.placed c)
  apart : ∀ i j, i ≠ j → (o i).Apart (o j)
  used_lt : ∀ i h, o i h ≠ none → h.id.toNat < n
  next_eq : r.next.id.toNat = n % 2 ^ 64

variable {r r' : Registry} {o : Nat → Share} {n n' : Nat}

theorem shared_empty (isOpen : Bool) : (empty isOpen).Shared (fun _ => .empty) 0 where
  hosted h c := by simp [empty]
  apart i j _ := Share.empty_apart _
  used_lt i h hh := absurd rfl hh
  next_eq := rfl

theorem Shared.divided (hr : r.Shared o n) (i : Nat) : r.Divided (o i) (others o i) n where
  hosted h c := by
    rw [hr.hosted]
    constructor
    · rintro ⟨j, hj⟩
      by_cases hji : j = i
      · subst hji
        exact .inl hj
      · exact .inr ⟨j, hji, hj⟩
    · rintro (hi | ⟨j, -, hj⟩)
      · exact ⟨i, hi⟩
      · exact ⟨j, hj⟩
  apart h s hs := by
    obtain ⟨j, hji, hj⟩ := hs
    exact (hr.apart j i hji).eq_none hj
  used_lt h hh := by
    rcases hh with hi | ⟨s, j, -, hj⟩
    · exact hr.used_lt i h hi
    · exact hr.used_lt j h (by simp [hj])
  next_eq := hr.next_eq

/-- A thread that changes the registry within its own share leaves the shares of the others as they
were. -/
theorem Shared.update (hr : r.Shared o n) {i : Nat} {p : Share}
    (hr' : r'.Divided p (others o i) n') : r'.Shared (Function.update o i p) n' := by
  have hother (j : Nat) (hj : j ≠ i) : p.Apart (o j) :=
    Share.apart_iff.2 fun h s hs => hr'.apart h s ⟨j, hj, hs⟩
  refine ⟨fun h c => ?_, Share.apart_update hr.apart hother, fun j h hh => ?_, hr'.next_eq⟩
  · rw [hr'.hosted]
    constructor
    · rintro (hi | ⟨j, hji, hj⟩)
      · exact ⟨i, by simpa using hi⟩
      · exact ⟨j, by simpa [Function.update_of_ne hji] using hj⟩
    · rintro ⟨j, hj⟩
      by_cases hji : j = i
      · subst hji
        exact .inl (by simpa using hj)
      · exact .inr ⟨j, hji, by simpa [Function.update_of_ne hji] using hj⟩
  · apply hr'.used_lt
    by_cases hj : j = i
    · subst hj
      exact .inl (by simpa using hh)
    · rw [Function.update_of_ne hj] at hh
      obtain ⟨s, hs⟩ := Option.ne_none_iff_exists'.1 hh
      exact .inr ⟨s, j, hj, hs⟩

end Registry

/-! ## Turns -/

theorem Script.Secure.step {α : Type} {s : Script Action.Answer α} {o : Share}
    {post : α → List Sight → Share → Prop} {r : Registry} {rest : Handle → Stake → Prop} {n : Nat}
    (hs : s.Secure o post) (hr : r.Divided o rest n)
    (hn : n + Deed.draws (Strand.deedOf s r) ≤ 2 ^ 64) :
    ∃ t r' p, Strand.step s r = (.going t, r') ∧
      r'.Divided p rest (n + Deed.draws (Strand.deedOf s r)) ∧
      t.Secure p fun a seen => post a (Deed.sights (Strand.deedOf s r) ++ seen) := by
  induction s with
  | done a => exact ⟨_, r, o, rfl, hr, hs⟩
  | report e t ih => exact ih hs hn
  | ask q next ih =>
      have hq : n + q.draws ≤ 2 ^ 64 := by
        cases hact : r.act q with
        | error d =>
          rw [Registry.draws_of_act_error hact]
          simpa [Strand.deedOf, hact, Deed.draws] using hn
        | ok p => simpa [Strand.deedOf, hact, Deed.draws] using hn
      obtain ⟨a, r', p, hact, hr', hnext⟩ := hs.act hr hq
      have hdeed : Strand.deedOf (.ask q next) r = some ⟨q, a⟩ := by
        simp only [Strand.deedOf, hact]
      rw [hdeed]
      refine ⟨next a, r', p, ?_, hr', hnext⟩
      simp only [Strand.step, hact]

namespace Pool

variable {α : Type} {p : Pool α} {o : Nat → Share} {post : Nat → α → List Sight → Share → Prop}
  {n : Nat}

/-- Every thread has a share of the registry, goes on within it, and ends as `post` says. -/
structure Secure (p : Pool α) (o : Nat → Share) (post : Nat → α → List Sight → Share → Prop)
    (n : Nat) : Prop where
  shared : p.registry.Shared o n
  strand : ∀ (i : Nat) (s : Strand α), p.strands[i]? = some s →
    ∃ t, s = .going t ∧ t.Secure (o i) (post i)

theorem Secure.turn (hp : p.Secure o post n) (i : Nat)
    (hn : n + Deed.draws (p.deed? i) ≤ 2 ^ 64) :
    ∃ o', (p.turn i).Secure o'
      (fun j a seen => post j a ((if i = j then Deed.sights (p.deed? i) else []) ++ seen))
      (n + Deed.draws (p.deed? i)) ∧ ∀ j, p.strands.length ≤ j → o' j = o j := by
  cases hi : p.strands[i]? with
  | none =>
    have hturn : p.turn i = p := by simp only [Pool.turn, hi]
    have hdeed : p.deed? i = none := by simp only [Pool.deed?, hi, Option.bind_none]
    rw [hturn, hdeed]
    refine ⟨o, ⟨hp.shared, fun j s hj => ?_⟩, fun _ _ => rfl⟩
    have hpost := hp.strand j s hj
    split <;> exact hpost
  | some s =>
    obtain ⟨t, rfl, ht⟩ := hp.strand i s hi
    have hdeed : p.deed? i = Strand.deedOf t p.registry := by
      simp only [Pool.deed?, hi, Option.bind_some, Strand.deed?]
    rw [hdeed] at hn ⊢
    obtain ⟨t', r', share, hstep, hr', ht'⟩ := ht.step (hp.shared.divided i) hn
    have hturn : p.turn i = ⟨r', p.strands.set i (.going t')⟩ := by
      simp only [Pool.turn, hi, Strand.turn, hstep]
    rw [hturn]
    have hlt : i < p.strands.length := (List.getElem?_eq_some_iff.1 hi).1
    refine ⟨Function.update o i share, ⟨hp.shared.update hr', fun j s hj => ?_⟩, fun j hj =>
      Function.update_of_ne (by omega) _ _⟩
    by_cases hji : i = j
    · subst hji
      rw [List.getElem?_set_self hlt] at hj
      cases hj
      exact ⟨t', rfl, by simpa using ht'⟩
    · rw [List.getElem?_set_ne hji] at hj
      simpa [hji, Function.update_of_ne (Ne.symm hji)] using hp.strand j s hj

theorem length_strands_turn (p : Pool α) (i : Nat) :
    (p.turn i).strands.length = p.strands.length := by
  rw [turn]
  split
  · rfl
  · exact List.length_set

/-- A run keeps the shares that no thread has. -/
theorem Secure.run_keeping (hp : p.Secure o post n) (schedule : List Nat)
    (hn : n + p.draws schedule ≤ 2 ^ 64) :
    ∃ o', (p.run schedule).Secure o' (fun j a seen => post j a (p.sights schedule j ++ seen))
      (n + p.draws schedule) ∧ ∀ j, p.strands.length ≤ j → o' j = o j := by
  induction schedule generalizing p o post n with
  | nil => exact ⟨o, hp, fun _ _ => rfl⟩
  | cons i schedule ih =>
      rw [draws, ← Nat.add_assoc] at hn
      obtain ⟨o', hturn, hkept⟩ := hp.turn i (by omega)
      obtain ⟨o'', hrun, hkept'⟩ := ih hturn hn
      refine ⟨o'', ?_, fun j hj => ?_⟩
      · rw [draws, ← Nat.add_assoc]
        simp only [sights, List.append_assoc]
        exact hrun
      · rw [hkept' j (by rwa [length_strands_turn]), hkept j hj]

theorem Secure.run (hp : p.Secure o post n) (schedule : List Nat)
    (hn : n + p.draws schedule ≤ 2 ^ 64) :
    ∃ o', (p.run schedule).Secure o' (fun j a seen => post j a (p.sights schedule j ++ seen))
      (n + p.draws schedule) := by
  obtain ⟨o', hrun, -⟩ := hp.run_keeping schedule hn
  exact ⟨o', hrun⟩

end Pool

/-! ## A thread that gets its turns comes to an end -/

namespace Pool

variable {α : Type} {i : Nat}

theorem length_strands_run (p : Pool α) (schedule : List Nat) :
    (p.run schedule).strands.length = p.strands.length := by
  induction schedule generalizing p with
  | nil => rfl
  | cons i schedule ih =>
      show ((p.turn i).run schedule).strands.length = _
      rw [ih, length_strands_turn]

theorem turn_set {strands : List (Strand α)} (hi : i < strands.length) (s : Strand α)
    (r : Registry) :
    turn ⟨r, strands.set i s⟩ i = ⟨(s.turn r).2, strands.set i (s.turn r).1⟩ := by
  simp [turn, List.getElem?_set_self hi, List.set_set]

theorem exists_ended_of_set {strands : List (Strand α)} (hi : i < strands.length)
    (s : Script Action.Answer α) (r : Registry) :
    ∃ k, ∀ t, (run ⟨r, strands.set i (.going s)⟩ (List.replicate (k + 1) i)).strands[i]? =
      some (.going t) → ∃ a, t = .done a := by
  -- The turns of a script are those of its next action and of what is left then.
  induction s generalizing r with
  | done a =>
    refine ⟨0, fun t ht => ⟨a, ?_⟩⟩
    change (turn ⟨r, strands.set i (.going (.done a))⟩ i).strands[i]? = _ at ht
    rw [turn_set hi, List.getElem?_set_self hi] at ht
    cases ht
    rfl
  | report e rest ih =>
    obtain ⟨k, hk⟩ := ih r
    refine ⟨k, fun t ht => hk t ?_⟩
    change ((turn ⟨r, _⟩ i).run (List.replicate k i)).strands[i]? = _ at ht ⊢
    rw [turn_set hi] at ht ⊢
    exact ht
  | ask q next ih =>
    cases hact : r.act q with
    | error d =>
      refine ⟨0, fun t ht => ?_⟩
      change (turn ⟨r, strands.set i (.going (.ask q next))⟩ i).strands[i]? = _ at ht
      rw [turn_set hi, List.getElem?_set_self hi] at ht
      simp [Strand.turn, Strand.step, hact] at ht
    | ok x =>
      obtain ⟨k, hk⟩ := ih x.1 x.2
      refine ⟨k + 1, fun t ht => hk t ?_⟩
      change ((turn ⟨r, _⟩ i).run (List.replicate (k + 1) i)).strands[i]? = _ at ht
      rw [turn_set hi] at ht
      simpa only [Strand.turn, Strand.step, hact] using ht

/-- After enough turns a thread has ended, if it has not died. -/
theorem exists_ended (p : Pool α) (i : Nat) :
    ∃ k, ∀ t, (p.run (List.replicate k i)).strands[i]? = some (.going t) → ∃ a, t = .done a := by
  cases hs : p.strands[i]? with
  | none => exact ⟨0, fun t ht => absurd (hs.symm.trans ht) (by simp)⟩
  | some s =>
    obtain ⟨hi, hget⟩ := List.getElem?_eq_some_iff.1 hs
    cases s with
    | dead d => exact ⟨0, fun t ht => absurd (hs.symm.trans ht) (by simp)⟩
    | going s =>
      obtain ⟨k, hk⟩ := exists_ended_of_set hi s p.registry
      rw [← hget, List.set_getElem_self] at hk
      exact ⟨k + 1, hk⟩

end Pool

/-- The thread has nothing more to do: it is through, or it has died. -/
def Strand.Stopped {α : Type} : Strand α → Prop
  | going s => ∃ a, s = .done a
  | dead _ => True

/-- After enough turns a thread stops. -/
theorem Pool.exists_stopped {α : Type} (p : Pool α) {i : Nat} (hi : i < p.strands.length) :
    ∃ k s, (p.run (List.replicate k i)).strands[i]? = some s ∧ s.Stopped := by
  obtain ⟨k, hk⟩ := p.exists_ended i
  rw [← length_strands_run p (List.replicate k i)] at hi
  refine ⟨k, _, List.getElem?_eq_getElem hi, ?_⟩
  cases hs : (p.run (List.replicate k i)).strands[i] with
  | going t => exact hk t ((List.getElem?_eq_getElem hi).trans (congrArg some hs))
  | dead d => trivial

/-! ## Owners -/

/-- An owner is told a reply to every errand. -/
abbrev Errand.Answer (_ : Errand) : Type := Reply

/-- Lets `serve` find the answers from a state that it keeps. -/
def Script.carry {Q R S α : Type} {A : Q → Type} {B : R → Type}
    (serve : S → (q : Q) → Script B (S × A q)) : Script A α → S → Script B α
  | .done a, _ => .done a
  | .report e rest, s => .report e (rest.carry serve s)
  | .ask q next, s => (serve s q).bind fun p => (next p.2).carry serve p.1

/-- A program of errands gets at a desk the replies that it gets from the ledger. -/
theorem Desk.secure_carry {α : Type} {part : Nat ⊕ Nat → Share} {o : Share} {k : Desk} {l : Ledger}
    (hm : k.Matches part o l) (owner : Script Errand.Answer α) :
    (owner.carry (Desk.perform .honest) k).Secure o fun a seen _ =>
      (owner.carry Ledger.perform l).Follows seen a := by
  induction owner generalizing part o k l with
  | done a => exact ⟨rfl, rfl⟩
  | report e rest ih => exact ih hm
  | ask q next ih =>
      refine Script.secure_bind.2 ((matches_perform hm q).mono fun p seen o' hp => ?_)
      obtain ⟨l', part', hfollows, hm'⟩ := hp
      exact (ih p.2 hm').mono fun a seen' _ ha => hfollows.bind ha

namespace Pool

variable {α : Type}

/-- A pool of owners, each with an empty desk, over a registry that hosts nothing yet. -/
def ofOwners (isOpen : Bool) (owners : List (Script Errand.Answer α)) : Pool α :=
  start (.empty isOpen) (owners.map fun owner => owner.carry (Desk.perform .honest) .empty)

theorem secure_ofOwners (isOpen : Bool) (owners : List (Script Errand.Answer α)) :
    (ofOwners isOpen owners).Secure (fun _ => .empty) (fun i a seen _ =>
      ∀ owner, owners[i]? = some owner → (owner.carry Ledger.perform .empty).Follows seen a) 0 where
  shared := Registry.shared_empty isOpen
  strand i s hs := by
    simp only [ofOwners, start, List.map_map, List.getElem?_map, Option.map_eq_some_iff] at hs
    obtain ⟨owner, howner, rfl⟩ := hs
    refine ⟨_, rfl, (Desk.secure_carry Desk.matches_empty owner).mono fun a seen o' ha => ?_⟩
    intro owner' howner'
    rw [howner] at howner'
    cases howner'
    exact ha

/-- In every interleaving each owner gets the replies that its own ledger gives when it is shown
what the owner saw, and no owner meets a dead handle. One that gets its turns stops, however many
handles are drawn, and it stops at its end as long as no handle comes again. A move, in particular,
keeps the counter and is refused only if its owner saw the gate closed. -/
theorem ofOwners_follows (isOpen : Bool) (owners : List (Script Errand.Answer α)) (i : Nat)
    (owner : Script Errand.Answer α) (hi : owners[i]? = some owner) :
    let p := ofOwners isOpen owners
    (∀ schedule, p.draws schedule ≤ 2 ^ 64 →
      ∃ s, (p.run schedule).strands[i]? = some (.going s) ∧
        ∀ a, s = .done a → (owner.carry Ledger.perform .empty).Follows (p.sights schedule i) a) ∧
    (∀ schedule, ∃ k s, (p.run (schedule ++ List.replicate k i)).strands[i]? = some s ∧ s.Stopped ∧
      (p.draws (schedule ++ List.replicate k i) ≤ 2 ^ 64 → ∃ a, s = .going (.done a))) ∧
    (∀ (a : Account) (w : List Sight) (r : Except Refusal Account), a.move.Follows w r ↔
      (a.placement = .hosted ∧ w = [] ∧ r = .ok ⟨.inPlace, a.counter⟩) ∨
      (a.placement = .inPlace ∧ w = [⟨.gate, false⟩] ∧ r = .error .closed) ∨
      (a.placement = .inPlace ∧
        ∃ h, w = [⟨.gate, true⟩, ⟨.handle, h⟩] ∧ r = .ok ⟨.hosted, a.counter⟩)) := by
  intro p
  have hlt : i < p.strands.length := by
    simpa [p, ofOwners, start] using (List.getElem?_eq_some_iff.1 hi).1
  have hgoing (schedule : List Nat) (hn : p.draws schedule ≤ 2 ^ 64) :
      ∃ s, (p.run schedule).strands[i]? = some (.going s) ∧
        ∀ a, s = .done a → (owner.carry Ledger.perform .empty).Follows (p.sights schedule i) a := by
    obtain ⟨o, hrun⟩ := (secure_ofOwners isOpen owners).run schedule (by simpa using hn)
    rw [← length_strands_run p schedule] at hlt
    obtain ⟨s, hs, hsecure⟩ := hrun.strand i _ (List.getElem?_eq_getElem hlt)
    refine ⟨s, (List.getElem?_eq_getElem hlt).trans (congrArg some hs), fun a ha => ?_⟩
    subst ha
    simpa using hsecure owner hi
  refine ⟨hgoing, fun schedule => ?_, fun a w r => Account.follows_move_iff⟩
  rw [← length_strands_run p schedule] at hlt
  obtain ⟨k, s, hs, hstopped⟩ := (p.run schedule).exists_stopped hlt
  rw [← run_append] at hs
  refine ⟨k, s, hs, hstopped, fun hn => ?_⟩
  obtain ⟨t, ht, -⟩ := hgoing _ hn
  cases hs.symm.trans ht
  obtain ⟨a, rfl⟩ := hstopped
  exact ⟨a, rfl⟩

/-- A counter moves into the registry while another owner opens the gate, asks for a lease and
closes the gate again between the actions of the move. -/
theorem ofOwners_follows_of_gate_moving :
    let mover : Script Errand.Answer (List Reply) :=
      [Errand.chore (.newMovable 0 10#128 .inPlace), .chore (.movable 0 (.add 7#128)),
        .chore (.movable 0 .move), .chore (.movable 0 .read)].mapM Script.query
    let other : Script Errand.Answer (List Reply) :=
      [Errand.setGate true, .chore (.newLease 0 3#128), .setGate false].mapM Script.query
    let p := ofOwners false [mover, other]
    let schedule := [1, 0, 1, 0, 1, 1, 1, 0, 0, 0, 0]
    p.draws schedule = 2 ∧
      (mover.carry Ledger.perform .empty).Follows (p.sights schedule 0)
        [.done, .done, .done, .amount 7#128] := by
  intro mover other p schedule
  have hdraws : p.draws schedule = 2 := by decide +kernel
  have hended : ((p.run schedule).strands[0]?.bind fun (s : Strand (List Reply)) => match s with
      | .going (.done a) => some a
      | _ => none) = some [.done, .done, .done, .amount 7#128] := by decide +kernel
  obtain ⟨s, hs, hfollows⟩ := (ofOwners_follows false [mover, other] 0 mover rfl).1 schedule
    (by rw [hdraws]; decide)
  rw [hs] at hended
  refine ⟨hdraws, hfollows _ ?_⟩
  cases s with
  | done a => exact congrArg _ (Option.some.inj hended)
  | ask q next => cases hended
  | report e rest => cases hended

end Pool

end Abacus
