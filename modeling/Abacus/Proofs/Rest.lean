import Abacus.Proofs.Drawing
import Abacus.Proofs.Laws

/-!
# Registries at rest

A registry is at rest when no thread is at work on it, as between the steps of a session.
`Registry.Rests` says of such a registry how many handles were drawn, that those in use are among
them, and of some of them that they were given back. A careful script that runs alone passes this on
(`Script.Careful.rests_run`), so does a load, whose threads take turns first and then go on to their
ends (`Load.rests_put`), and so does every step of a session, whatever its host makes of the answers
(`Session.rests_take`). Each time the number grows by the handles that were drawn, so that in a
session with at most `2 ^ 64` of them what was given back is not in use again.
-/

namespace Abacus

open Distortion

namespace Registry

/-- Handles that are with nobody; no thread holds any. -/
def resting (gone : Set Handle) : Option Nat → Set Handle
  | none => gone
  | some _ => ∅

/-- So many handles were drawn, those in use are among them, and those in `gone` were given back. -/
def Rests (r : Registry) (gone : Set Handle) (n : Nat) : Prop := r.Drawn (resting gone) n

variable {r r' : Registry} {gone : Set Handle} {idle : Option Nat → Set Handle} {n : Nat}

/-- Threads that are through leave the registry at rest; what they drew and did not use is
forgotten. -/
theorem Drawn.rests (hr : r.Drawn idle n) (hgone : gone ⊆ idle none) : r.Rests gone n := by
  have hsub (i : Option Nat) : resting gone i ⊆ idle i := by
    cases i with
    | none => exact hgone
    | some i => exact Set.empty_subset _
  exact ⟨hr.next_eq, hr.live_lt, fun i h hh => hr.idle_lt i h (hsub i hh),
    fun hn i h hh => hr.not_live hn i h (hsub i hh),
    fun hn i j h hi hj => hr.apart hn i j h (hsub i hi) (hsub j hj)⟩

theorem rests_empty (isOpen : Bool) : (empty isOpen).Rests ∅ 0 :=
  (drawn_empty isOpen).rests (Set.empty_subset _)

namespace Rests

/-- A handle that was drawn and is not in use counts as given back. -/
theorem singleton (hr : r.Rests gone n) {h : Handle} (hlt : h.id.toNat < n)
    (hdead : ¬ r.IsLive h) : r.Rests {h} n where
  next_eq := hr.next_eq
  live_lt := hr.live_lt
  idle_lt i k hk := by
    cases i with
    | none => exact Set.mem_singleton_iff.1 hk ▸ hlt
    | some i => exact absurd hk (Set.notMem_empty k)
  not_live _ i k hk := by
    cases i with
    | none => exact Set.mem_singleton_iff.1 hk ▸ hdead
    | some i => exact absurd hk (Set.notMem_empty k)
  apart _ i j k hi hj := by
    cases i with
    | some i => exact absurd hi (Set.notMem_empty k)
    | none =>
      cases j with
      | some j => exact absurd hj (Set.notMem_empty k)
      | none => rfl

theorem not_live_of_mem (hr : r.Rests gone n) (hn : n ≤ 2 ^ 64) {h : Handle} (hh : h ∈ gone) :
    ¬ r.IsLive h :=
  hr.not_live hn none h hh

theorem next_lt (hr : r.Rests gone n) : r.next.id.toNat < n + 1 := by
  have hle := Nat.mod_le n (2 ^ 64)
  rw [hr.next_eq]
  omega

theorem ne_next (hr : r.Rests gone n) (hn : n < 2 ^ 64) {h : Handle} (hlt : h.id.toNat < n) :
    h ≠ r.next := by
  rintro rfl
  rw [hr.next_eq, Nat.mod_eq_of_lt hn] at hlt
  omega

theorem next_free (hr : r.Rests gone n) (hn : n < 2 ^ 64) : ¬ r.IsLive r.next :=
  fun hlive => hr.ne_next hn (hr.live_lt _ hlive) rfl

end Rests

end Registry

/-! ## Scripts and threads -/

section Threads

variable {α : Type} {r : Registry} {gone : Set Handle} {idle : Option Nat → Set Handle} {n : Nat}

/-- A careful script that runs alone leaves the handles of the other threads where they are. -/
theorem Script.Careful.drawn_run {s : Script Action.Answer α} {i : Nat}
    (hs : s.Careful (idle (some i))) (hr : r.Drawn idle n) :
    ∃ idle', (s.run r).registry.Drawn idle' (n + s.draws r) ∧ idle none ⊆ idle' none ∧
      ∀ j, j ≠ i → idle' (some j) = idle (some j) := by
  induction s generalizing r idle n with
  | done a => exact ⟨idle, hr, subset_rfl, fun j _ => rfl⟩
  | report e rest ih => exact ih hs hr
  | ask q next ih =>
    cases hact : r.act q with
    | error d =>
      simp only [run, draws, hact]
      exact ⟨idle, hr, subset_rfl, fun j _ => rfl⟩
    | ok p =>
      simp only [run, draws, hact, ← Nat.add_assoc]
      have hdeed : Deed.shift i idle ⟨q, p.1⟩ (some i) = q.waiting p.1 (idle (some i)) :=
        Deed.shift_self _
      obtain ⟨idle', hrun, hkept, hothers⟩ :=
        ih p.1 (by rw [hdeed]; exact hs.2 p.1) (hr.act hs.1 hact)
      refine ⟨idle', hrun, (Deed.subset_shift _).trans hkept, fun j hj => ?_⟩
      rw [hothers j hj, Deed.shift_of_ne _ hj]

theorem Script.Careful.rests_run {s : Script Action.Answer α} (hs : s.Careful ∅)
    (hr : r.Rests gone n) : (s.run r).registry.Rests gone (n + s.draws r) := by
  obtain ⟨idle', hrun, hkept, -⟩ := Careful.drawn_run (i := 0) hs hr
  exact hrun.rests hkept

namespace Strand

/-- The number of handles that a thread draws when it goes on alone to its end. -/
def draws : Strand α → Registry → Nat
  | going s, r => s.draws r
  | dead _, _ => 0

theorem Careful.drawn_finish {s : Strand α} {i : Nat} (hs : s.Careful (idle (some i)))
    (hr : r.Drawn idle n) :
    ∃ idle', (s.finish r).2.Drawn idle' (n + s.draws r) ∧ idle none ⊆ idle' none ∧
      ∀ j, j ≠ i → idle' (some j) = idle (some j) := by
  cases s with
  | going s => exact Script.Careful.drawn_run hs hr
  | dead d => exact ⟨idle, hr, subset_rfl, fun j _ => rfl⟩

end Strand

namespace Pool

/-- The number of handles that threads draw when they go on to their ends, one after the other. -/
def finalDraws : List (Strand α) → Registry → Nat
  | [], _ => 0
  | s :: rest, r => s.draws r + finalDraws rest (s.finish r).2

/-- The threads that are left have the numbers from `k` on. -/
theorem drawn_finish_go (ss : List (Strand α)) (k : Nat)
    (hss : ∀ (j : Nat) (s : Strand α), ss[j]? = some s → s.Careful (idle (some (k + j))))
    (hr : r.Drawn idle n) :
    ∃ idle', (finish.go ss r).2.Drawn idle' (n + finalDraws ss r) ∧ idle none ⊆ idle' none := by
  induction ss generalizing r idle n k with
  | nil => exact ⟨idle, hr, subset_rfl⟩
  | cons s ss ih =>
    -- The threads after the first still hold what they held before it went on.
    obtain ⟨mid, hmid, hkept, hothers⟩ := (hss 0 s rfl).drawn_finish hr
    have hss' (j : Nat) (t : Strand α) (ht : ss[j]? = some t) :
        t.Careful (mid (some (k + 1 + j))) := by
      rw [hothers _ (by omega), Nat.add_assoc, Nat.add_comm 1 j]
      exact hss (j + 1) t ht
    obtain ⟨idle', hend, hkept'⟩ := ih (k + 1) hss' hmid
    rw [Nat.add_assoc] at hend
    exact ⟨idle', hend, hkept.trans hkept'⟩

theorem Careful.rests_finish {p : Pool α} (hp : p.Careful idle n) (hgone : gone ⊆ idle none) :
    p.finish.2.Rests gone (n + finalDraws p.strands p.registry) := by
  obtain ⟨idle', hend, hkept⟩ := drawn_finish_go p.strands 0
    (fun j s hs => by rw [Nat.zero_add]; exact hp.strand j s hs) hp.drawn
  exact hend.rests (hgone.trans hkept)

/-- Careful threads that have drawn nothing yet. -/
theorem careful_start (hr : r.Rests gone n) {scripts : List (Script Action.Answer α)}
    (hscripts : ∀ script ∈ scripts, script.Careful ∅) :
    (start r scripts).Careful (Registry.resting gone) n where
  drawn := hr
  strand i s hs := by
    simp only [start, List.getElem?_map, Option.map_eq_some_iff] at hs
    obtain ⟨script, hscript, rfl⟩ := hs
    exact hscripts script (List.mem_of_getElem? hscript)

end Pool

end Threads

/-- A distorted host places counters as the honest one does, by whom it finds its answers. -/
theorem Distortion.careful_carryOut {α : Type} (d : Distortion) (s : Script Call.Answer α) :
    (d.carryOut s).Careful ∅ := by
  refine Script.careful_interpret (fun q => ?_) s
  exact Script.careful_interpret (fun q => Request.careful_serve (.call q)) (d.distort q)

/-! ## Steps -/

namespace Load

variable {α : Type}

/-- The number of handles that the threads of a load draw. -/
def draws (l : Load) (s : Session) (c : Script Call.Answer α) : Nat :=
  let script := s.distortion.carryOut (c.times l.times)
  let p := Pool.start s.registry (List.replicate l.threads script)
  p.draws l.schedule + Pool.finalDraws (p.run l.schedule).strands (p.run l.schedule).registry

theorem rests_put (l : Load) {s : Session} (c : Script Call.Answer α) {gone : Set Handle} {n : Nat}
    (hr : s.registry.Rests gone n) : (l.put s c).2.Rests gone (n + l.draws s c) := by
  have hscripts : ∀ script ∈ List.replicate l.threads (s.distortion.carryOut (c.times l.times)),
      script.Careful ∅ := by
    intro script hscript
    rw [List.eq_of_mem_replicate hscript]
    exact s.distortion.careful_carryOut _
  obtain ⟨idle, hrun, hkept, -⟩ := (Pool.careful_start hr hscripts).run l.schedule
  have hend := hrun.rests_finish hkept
  rwa [Nat.add_assoc] at hend

end Load

theorem Action.bringsNew_of_keepsEntries {q : Action} (hq : q.keepsEntries = true) :
    q.bringsNew = false := by
  cases q with
  | draw | place h limit => cases hq
  | _ => rfl

/-- The registry comes to rest after whatever a session does, and as many more handles were drawn as
the events say. -/
theorem Distortion.isLaw_rests (d : Distortion) (gone : Set Handle) : d.IsLaw fun r es r' =>
    ∀ n, r.Rests gone n → r'.Rests gone (n + es.countP Event.isIssue) where
  calls r hc n hr := by
    rw [← d.draws_carryOut hc]
    exact (d.careful_carryOut _).rests_run hr
  setGate isOpen r n hr := by
    have hcount : ((Registry.setGate isOpen).run r).events.countP Event.isIssue = 0 := by
      rw [Registry.run_setGate]
      split <;> rfl
    rw [hcount, Registry.run_setGate]
    exact hr.of_nothingNew ⟨rfl, fun _ h => h⟩
  act hq hact n hr :=
    hr.of_nothingNew (Registry.nothingNew_act (Action.bringsNew_of_keepsEntries hq) hact)
  chain h h' n hr := by
    rw [List.countP_append, ← Nat.add_assoc]
    exact h' _ (h n hr)

namespace Session

variable {s : Session} {gone : Set Handle} {n : Nat}

/-- The number of handles that a step draws. -/
def drawsAt (s : Session) : Step → Nat
  | .registry (.loadCreate load limit destroy) => load.draws s (Load.visit limit destroy)
  | q => (s.take q).events.countP Event.isIssue

/-- The number of handles that the steps draw. -/
def draws (s : Session) : List Step → Nat
  | [] => 0
  | q :: qs => s.drawsAt q + (s.take q).session.draws qs

theorem drawsAt_of_events {q : Step} (hq : q.createsAside = false) :
    s.drawsAt q = (s.take q).events.countP Event.isIssue := by
  cases q with
  | registry q =>
    cases q with
    | loadCreate load limit destroy => cases hq
    | _ => rfl
  | _ => rfl

theorem draws_append (s : Session) (qs later : List Step) :
    s.draws (qs ++ later) = s.draws qs + (s.reach qs).draws later := by
  induction qs generalizing s with
  | nil => exact (Nat.zero_add _).symm
  | cons q qs ih =>
    rw [List.cons_append, draws, draws, ih, Nat.add_assoc]
    rfl

theorem rests_take {d : Distortion} (hd : s.distortion = d) (hr : s.registry.Rests gone n)
    (q : Step) : (s.take q).session.registry.Rests gone (n + s.drawsAt q) := by
  cases hq : q.createsAside with
  | false =>
    rw [drawsAt_of_events hq]
    have hlaw := d.isLaw_rests gone
    rw [← hd] at hlaw
    exact hlaw.take hq n hr
  | true =>
    cases q with
    | registry q =>
      cases q with
      | loadCreate load limit destroy => exact load.rests_put _ hr
      | _ => cases hq
    | _ => cases hq

theorem rests_reach {d : Distortion} (hd : s.distortion = d) (hr : s.registry.Rests gone n)
    (qs : List Step) : (s.reach qs).registry.Rests gone (n + s.draws qs) := by
  induction qs generalizing s n with
  | nil => exact hr
  | cons q qs ih =>
    rw [draws, ← Nat.add_assoc]
    exact ih ((s.distortion_take q).trans hd) (rests_take hd hr q)

end Session

end Abacus
