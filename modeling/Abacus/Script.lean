import Abacus.Event

/-!
# Scripts

A script is a computation that asks questions and goes on with the answers, reporting events on
the way. The questions have a type `Q`, and `A q` is the type of the answers to `q`. A script says
nothing about who answers: `Script.interpret` replaces every question by a script that finds its
answer, and so puts one layer of the library on top of another.
-/

namespace Abacus

/-- A computation with questions in `Q`, answered in `A q`, that ends with an `α`. -/
inductive Script {Q : Type} (A : Q → Type) (α : Type) : Type
  /-- Ends with a result. -/
  | done (a : α)
  /-- Asks `q` and goes on with the answer. -/
  | ask (q : Q) (next : A q → Script A α)
  /-- Reports an event and goes on. -/
  | report (e : Event) (rest : Script A α)

namespace Script

variable {Q R : Type} {A : Q → Type} {B : R → Type} {α β γ : Type}

/-- Goes on with `f` where the script ends. -/
def bind : Script A α → (α → Script A β) → Script A β
  | done a, f => f a
  | ask q next, f => ask q fun x => (next x).bind f
  | report e rest, f => report e (rest.bind f)

instance : Monad (Script A) where
  pure := done
  bind := bind

/-- Asks one question and ends with the answer. -/
def query (q : Q) : Script A (A q) := ask q done

/-- Reports one event. -/
def emit (e : Event) : Script A Unit := report e (done ())

/-- Lets `serve` find the answer to every question. -/
def interpret (serve : (q : Q) → Script B (A q)) : Script A α → Script B α
  | done a => done a
  | ask q next => (serve q).bind fun x => (next x).interpret serve
  | report e rest => report e (rest.interpret serve)

/-- Goes through the same script `n` times and collects the results in order. -/
def times (n : Nat) (s : Script A α) : Script A (List α) := (List.replicate n s).mapM id

/-! ## Laws -/

theorem pure_eq (a : α) : (pure a : Script A α) = done a := rfl

theorem bind_eq (s : Script A α) (f : α → Script A β) : s >>= f = s.bind f := rfl

theorem bind_done (s : Script A α) : s.bind done = s := by
  induction s with
  | done a => rfl
  | ask q next ih => exact congrArg (ask q) (funext ih)
  | report e rest ih => exact congrArg (report e) ih

theorem bind_assoc (s : Script A α) (f : α → Script A β) (g : β → Script A γ) :
    (s.bind f).bind g = s.bind fun a => (f a).bind g := by
  induction s with
  | done a => rfl
  | ask q next ih => exact congrArg (ask q) (funext ih)
  | report e rest ih => exact congrArg (report e) ih

instance : LawfulMonad (Script A) :=
  LawfulMonad.mk' _ bind_done (fun _ _ => rfl) bind_assoc

theorem interpret_bind (serve : (q : Q) → Script B (A q)) (s : Script A α) (f : α → Script A β) :
    (s.bind f).interpret serve = (s.interpret serve).bind fun a => (f a).interpret serve := by
  induction s with
  | done a => rfl
  | ask q next ih =>
      show (serve q).bind (fun x => ((next x).bind f).interpret serve) =
        ((serve q).bind fun x => (next x).interpret serve).bind _
      rw [bind_assoc]
      exact congrArg _ (funext ih)
  | report e rest ih => exact congrArg (report e) ih

end Script

end Abacus
