import Abacus.Proofs.Secure
import Abacus.Distortion

/-!
# Calls to a host within a share

The rules by which a script of calls is followed through a host, for every distortion of it. One
rule a call says when the host's answer is secure from a share, and `secure_carryOut_ask` chains
them. `draws_carryOut` counts: a host draws a handle exactly when it reports that it issued one.
-/

namespace Abacus

namespace Event

/-- Whether an event says that a handle was issued. -/
def isIssue : Event → Bool
  | issued .. => true
  | _ => false

/-- Whether an event says that the registry changed. -/
def isChange : Event → Bool
  | issued .. => true
  | removed _ => true
  | gateMoved _ => true
  | _ => false

theorem isIssue_of_not_change {e : Event} (he : e.isChange = false) : e.isIssue = false := by
  cases e with
  | issued h limit => cases he
  | _ => rfl

end Event

namespace Script

variable {Q : Type} {A : Q → Type} {α β : Type}

/-- The script itself reports no change of the registry: that is left to the host. -/
def Neutral : Script A α → Prop
  | done _ => True
  | ask _ next => ∀ a, (next a).Neutral
  | report e rest => e.isChange = false ∧ rest.Neutral

theorem neutral_query (q : Q) : (query q : Script A (A q)).Neutral := fun _ => trivial

theorem Neutral.bind {s : Script A α} {f : α → Script A β} (hs : s.Neutral)
    (hf : ∀ a, (f a).Neutral) : (s.bind f).Neutral := by
  induction s with
  | done a => exact hf a
  | ask q next ih => exact fun a => ih a (hs a)
  | report e rest ih => exact ⟨hs.1, ih hs.2⟩

theorem draws_bind (s : Script Action.Answer α) (f : α → Script Action.Answer β) (r : Registry) :
    (s.bind f).draws r =
      s.draws r + match (s.run r).result with
        | .error _ => 0
        | .ok a => (f a).draws (s.run r).registry := by
  induction s generalizing r with
  | done a => simp [Script.bind, draws, run]
  | report e rest ih => exact ih r
  | ask q next ih =>
      cases hact : r.act q with
      | error d => simp only [Script.bind, draws, run, hact]
      | ok p => simp only [Script.bind, draws, run, hact, ih, Nat.add_assoc]

end Script

/-- A change of the gate asks nothing of a share. -/
theorem Registry.secure_setGate_bind {α : Type} {isOpen : Bool} {f : Unit → Script Action.Answer α}
    {o : Share} {post : α → List Sight → Share → Prop} :
    ((setGate isOpen).bind f).Secure o post ↔ (f ()).Secure o post := by
  constructor
  · intro h
    simpa [Script.bind] using h isOpen
  · intro h before
    by_cases hb : before = isOpen
    · simp only [hb, ↓reduceIte]
      exact h
    · simp only [hb, ↓reduceIte]
      exact h

/-- The lease through which a call reaches a counter. -/
def Call.through? : Call → Option Lease
  | create _ => none
  | add l _ => some l
  | sub l _ => some l
  | read l => some l
  | destroy l => some l

namespace Distortion

variable {α β : Type} (d : Distortion)

theorem carryOut_bind (s : Script Call.Answer α) (f : α → Script Call.Answer β) :
    d.carryOut (s.bind f) = (d.carryOut s).bind fun a => d.carryOut (f a) :=
  Script.interpret_bind _ s f

/-! ## Security, call by call -/

section Secure

variable {d} {o : Share}

theorem secure_carryOut_ask {c : Call} {next : c.Answer → Script Call.Answer α}
    {post : α → List Sight → Share → Prop} :
    (d.carryOut (.ask c next)).Secure o post ↔
      (d.serve c).Secure o fun a seen o' =>
        (d.carryOut (next a)).Secure o' fun b seen' => post b (seen ++ seen') :=
  Script.secure_bind

theorem secure_carryOut_bind {s : Script Call.Answer α} {f : α → Script Call.Answer β}
    {mid : α → List Sight → Share → Prop} {post : β → List Sight → Share → Prop}
    (hs : (d.carryOut s).Secure o mid)
    (hf : ∀ a seen o', mid a seen o' →
      (d.carryOut (f a)).Secure o' fun b seen' => post b (seen ++ seen')) :
    (d.carryOut (s.bind f)).Secure o post := by
  rw [carryOut_bind, Script.secure_bind]
  exact hs.mono hf

theorem secure_serve_create {limit : Amount}
    {post : Except Refusal Lease → List Sight → Share → Prop} :
    (d.serve (.create limit)).Secure o post ↔
      post (.error .closed) [⟨.gate, false⟩] o ∧
        ∀ h, o h = none →
          post (.ok (d.relabel ⟨h, limit⟩)) [⟨.gate, true⟩, ⟨.handle, h⟩]
            (o.set h (.placed (.fresh limit))) := by
  simp [serve, distort, Lease.create, Script.query, Script.bind, Script.interpret, Call.serve,
    Registry.issue, Script.Secure, Except.map]

theorem secure_serve_add {l : Lease} {x : Amount}
    {post : Except Refusal Unit → List Sight → Share → Prop} :
    (d.serve (.add l x)).Secure o post ↔
      if d.rejectsAdds then post (.error (.overflow x l.limit)) [] o
      else ∃ c, o l.handle = some (.placed c) ∧
        post (o.put l.handle (c.add x)).1 [] (o.put l.handle (c.add x)).2 := by
  by_cases hd : d.rejectsAdds <;>
    simp [serve, distort, hd, Lease.add, Script.query, Script.interpret, Call.serve, Script.bind,
      Script.Secure]

theorem secure_serve_sub {l : Lease} {x : Amount}
    {post : Except Refusal Unit → List Sight → Share → Prop} :
    (d.serve (.sub l x)).Secure o post ↔
      ∃ c, o l.handle = some (.placed c) ∧
        post (o.put l.handle (c.sub x)).1 [] (o.put l.handle (c.sub x)).2 := Iff.rfl

theorem secure_serve_read {l : Lease} {post : Amount → List Sight → Share → Prop} :
    (d.serve (.read l)).Secure o post ↔
      ∃ c, o l.handle = some (.placed c) ∧ post (c.value.satAdd d.surplus) [] o := Iff.rfl

theorem secure_serve_destroy {l : Lease} {post : Unit → List Sight → Share → Prop} :
    (d.serve (.destroy l)).Secure o post ↔
      ∃ c, o l.handle = some (.placed c) ∧ post () [] (o.without l.handle) := Iff.rfl

end Secure

/-! ## Handles drawn and handles issued -/

theorem draws_serve (c : Call) (r : Registry) :
    (d.serve c).draws r = ((d.serve c).run r).events.countP Event.isIssue := by
  cases c with
  | create limit =>
    cases hopen : r.isOpen <;>
      simp [serve, distort, Lease.create, Script.query, Script.bind, Script.interpret, Call.serve,
        Registry.issue, Script.draws, Script.run, Registry.act, hopen, Action.draws, Event.isIssue]
  | add l x =>
    by_cases hd : d.rejectsAdds <;> cases hfind : r.find l.handle <;>
      simp [serve, distort, hd, Lease.add, Script.query, Script.bind, Script.interpret, Call.serve,
        Script.draws, Script.run, Registry.act, hfind, Except.map, Action.draws]
  | sub l x | read l | destroy l =>
    cases hfind : r.find l.handle <;>
      simp [serve, distort, Lease.sub, Lease.read, Lease.destroy, Script.query, Script.bind,
        Script.interpret, Call.serve, Registry.withdraw, Script.draws, Script.run, Registry.act,
        hfind, Except.map, Action.draws, Event.isIssue]

theorem draws_carryOut {s : Script Call.Answer α} (hs : s.Neutral) (r : Registry) :
    (d.carryOut s).draws r = ((d.carryOut s).run r).events.countP Event.isIssue := by
  induction s generalizing r with
  | done a => rfl
  | report e rest ih =>
      show (d.carryOut rest).draws r = (e :: ((d.carryOut rest).run r).events).countP _
      rw [List.countP_cons_of_neg (by simp [Event.isIssue_of_not_change hs.1]), ih hs.2]
  | ask c next ih =>
      show ((d.serve c).bind _).draws r = (((d.serve c).bind _).run r).events.countP _
      rw [Script.draws_bind, Script.run_bind, draws_serve, Outcome.andThen]
      cases hc : ((d.serve c).run r).result with
      | error e => rfl
      | ok a =>
          rw [List.countP_append]
          exact congrArg _ (ih a (hs a) _)

end Distortion

end Abacus
