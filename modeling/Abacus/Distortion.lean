import Abacus.Host

/-!
# Distorted hosts

A distortion describes a host that stands before the honest one and spoils some of its answers: it
may reject every addition, read more than there is, and write another limit on the leases it hands
out. The undistorted host is `Distortion.honest`, and `serve_honest` says that it is the honest
one.
-/

namespace Abacus

/-- The ways in which a host departs from the honest one. -/
structure Distortion where
  /-- Additions are rejected without a look at the counter. -/
  rejectsAdds : Bool
  /-- What is added to every value read, up to the largest amount. -/
  surplus : Amount
  /-- The limit written on every lease, if it is not the limit asked for. -/
  leaseLimit : Option Amount
  deriving DecidableEq

namespace Distortion

/-- No distortion. -/
def honest : Distortion := ⟨false, 0#128, none⟩

/-- The lease as the distorted host hands it out. -/
def relabel (d : Distortion) (l : Lease) : Lease :=
  { l with limit := d.leaseLimit.getD l.limit }

/-- The distorted host's answer to a call, by calls to the host behind it. -/
def distort (d : Distortion) : (c : Call) → Script Call.Answer c.Answer
  | .create limit => (Lease.create limit).bind fun r => .done (r.map d.relabel)
  | .add l x => if d.rejectsAdds then .done (.error (.overflow x l.limit)) else l.add x
  | .sub l x => l.sub x
  | .read l => l.read.bind fun v => .done (v.satAdd d.surplus)
  | .destroy l => l.destroy

/-- The distorted host's answer to a call, by actions on the registry. -/
def serve (d : Distortion) (c : Call) : Script Action.Answer c.Answer :=
  (d.distort c).interpret Call.serve

/-- A script of calls carried out by the distorted host. -/
def carryOut {α : Type} (d : Distortion) (s : Script Call.Answer α) : Script Action.Answer α :=
  s.interpret d.serve

/-! ## The undistorted host -/

theorem distort_honest (c : Call) : honest.distort c = .query c := by
  cases c with
  | create limit =>
      refine congrArg (Script.ask (Call.create limit)) (funext fun r => ?_)
      cases r <;> rfl
  | read l =>
      refine congrArg (Script.ask (Call.read l)) (funext fun v => ?_)
      exact congrArg Script.done (Amount.satAdd_zero v)
  | _ => rfl

theorem serve_honest (c : Call) : honest.serve c = c.serve := by
  rw [serve, distort_honest]
  exact Script.bind_done _

theorem carryOut_honest {α : Type} (s : Script Call.Answer α) :
    honest.carryOut s = s.interpret Call.serve :=
  congrArg (fun f => s.interpret f) (funext serve_honest)

end Distortion

end Abacus
