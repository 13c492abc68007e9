import Abacus.Proofs.Chore

/-!
# The course of a session

What happens to a session that is given one errand after the other: the state it gets to
(`after`), the errands with their replies (`transcript`) and the number of handles that its
registry issued (`issues`). Replies and events are those that `Session.run` reports. `take_secure`
is the step that the inductions over a session take: an errand that is secure from a share that is
the whole registry is carried out, and leaves a registry that is the share at its end.
-/

namespace Abacus

/-- Nobody but the owner at hand has a stake. -/
def Nobody : Handle → Stake → Prop := fun _ _ => False

namespace Session

/-- The session after the given errands. -/
def after (s : Session) (qs : List Errand) : Session :=
  qs.foldl (fun s q => (s.take q.toStep).session) s

def reports (s : Session) (qs : List Errand) : List Report := (s.run (qs.map Errand.toStep)).1

/-- The errands, each with the reply to it. -/
def transcript (s : Session) (qs : List Errand) : List (Errand × Reply) :=
  qs.zip ((s.reports qs).map Report.reply)

/-- The number of handles that are issued in the course of the errands. -/
def issues (s : Session) (qs : List Errand) : Nat :=
  ((s.reports qs).flatMap Report.events).countP Event.isIssue

variable (s : Session) (q : Errand) (qs : List Errand)

theorem transcript_cons :
    s.transcript (q :: qs) =
      (q, (s.take q.toStep).reply) :: (s.take q.toStep).session.transcript qs := rfl

theorem issues_cons :
    s.issues (q :: qs) =
      (s.take q.toStep).events.countP Event.isIssue + (s.take q.toStep).session.issues qs := by
  show ((s.take q.toStep).events ++ _).countP _ = _
  rw [List.countP_append]
  rfl

variable {s q}

theorem take_secure {o : Share} {n : Nat}
    {post : Desk × Reply → List Sight → Share → Prop}
    (hs : (s.desk.perform s.distortion q).Secure o post) (hr : s.registry.Divided o Nobody n)
    (hn : n + (s.take q.toStep).events.countP Event.isIssue ≤ 2 ^ 64) :
    ∃ r k seen o', (s.take q.toStep).session = s.resume r k ∧
      post (k, (s.take q.toStep).reply) seen o' ∧
      r.Divided o' Nobody (n + (s.take q.toStep).events.countP Event.isIssue) := by
  obtain ⟨hevents, hok⟩ := s.agrees_toStep q
  rw [hevents, ← Desk.draws_perform] at hn ⊢
  obtain ⟨⟨k, reply⟩, seen, o', hresult, hpost, hend⟩ := hs.run hr hn
  obtain ⟨hsession, hreply⟩ := hok k reply hresult
  exact ⟨_, k, seen, o', hsession, hreply ▸ hpost, hend⟩

end Session

end Abacus
