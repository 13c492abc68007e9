import Abacus.Proofs.Atomicity
import Abacus.Proofs.Drawing

/-!
# Handles in sequence

The handles that a session is given are `0`, `1`, `2` and so on, without a gap, up to the end of
the 64-bit range, where the sequence starts again. Nearly all steps bring nothing new into the
registry, since they only make calls through leases (`Script.Leased`); the few that do are named by
`Session.brings?`, and `take_of_brings` says what they do when the gate is open. `Numbered` is the
invariant: so many handles were given out, and those in use are among them. As long as the sequence
has not come round it follows that a handle is new when it is given out (`Numbered.next_free`) and
that a handle once given back is never in use again (`Numbered.stays_dead`). Steps that put threads
to work are left out here; `Pool.ofClients_drawn` is about threads of all kinds.
-/

namespace Abacus

open Distortion

/-! ## Calls that bring nothing new -/

namespace Script

variable {α : Type}

/-- Every call goes through a lease, so that no handle is asked for. -/
def Leased (s : Script Call.Answer α) : Prop := s.Asks fun q => q.through?.isSome

theorem Leased.nothingNew_run {s : Script Call.Answer α} (hs : s.Leased) (r : Registry) :
    r.NothingNew ((honest.carryOut s).run r).registry := by
  rw [carryOut_honest]
  refine Script.nothingNew_run (hs.interpret fun q hq => ?_) r
  cases q with
  | create limit => cases hq
  | add l x | sub l x | read l | destroy l => exact ⟨rfl, fun _ => trivial⟩

end Script

namespace Lease

variable (l : Lease)

theorem leased_add (x : Amount) : (l.add x).Leased := ⟨rfl, fun _ => trivial⟩

theorem leased_sub (x : Amount) : (l.sub x).Leased := ⟨rfl, fun _ => trivial⟩

theorem leased_read : l.read.Leased := ⟨rfl, fun _ => trivial⟩

theorem leased_destroy : l.destroy.Leased := ⟨rfl, fun _ => trivial⟩

end Lease

namespace Movable

variable (m : Movable)

theorem leased_add (x : Amount) : (m.add x).Leased := by
  cases m with
  | hosted l => exact Script.Asks.bind (l.leased_add x) fun _ => trivial
  | inPlace c => trivial

theorem leased_sub (x : Amount) : (m.sub x).Leased := by
  cases m with
  | hosted l => exact Script.Asks.bind (l.leased_sub x) fun _ => trivial
  | inPlace c => trivial

theorem leased_read : m.read.Leased := by
  cases m with
  | hosted l => exact l.leased_read
  | inPlace c => trivial

theorem leased_headroom : m.headroom.Leased := Script.Asks.bind m.leased_read fun _ => trivial

theorem leased_layout : m.layout.Leased := Script.Asks.bind m.leased_read fun _ => trivial

theorem leased_drop : m.drop.Leased := by
  cases m with
  | hosted l => exact l.leased_destroy
  | inPlace c => trivial

end Movable

/-! ## What a step does to the sequence -/

namespace Registry

/-- The registry after a counter was brought in under the next handle. -/
def host (r : Registry) (c : Counter) : Registry :=
  { r with next := r.next.succ, table := r.table.insert r.next c }

variable (r : Registry) (c : Counter)

theorem getElem?_host (k : Handle) :
    (r.host c).table[k]? = if r.next = k then some c else r.table[k]? :=
  getElem?_table_insert _ _ _ _

theorem isLive_host (k : Handle) : (r.host c).IsLive k ↔ r.next = k ∨ r.IsLive k := isLive_insert c

theorem live_host : (r.host c).live = if r.IsLive r.next then r.live else r.live + 1 :=
  Std.ExtTreeMap.size_insert

end Registry

namespace Session

variable {s : Session}

/-- The counter that a step brings into the registry if the gate is open. -/
def brings? (s : Session) : Step → Option Counter
  | .newLease _ limit => some (.fresh limit)
  | .newMovable _ limit .hosted => some (.fresh limit)
  | .movable slot .move =>
      match s.movables[slot]? with
      | some (.inPlace c) => some c
      | _ => none
  | _ => none

/-- The handle under which the movable counter in a slot is hosted. -/
def handleAt (s : Session) (slot : Nat) : Option Handle :=
  s.movables[slot]?.bind Movable.handle?

/-- The handle that a step gives to the caller, for a lease or for a movable counter. -/
def grant? (s : Session) (q : Step) : Option Handle :=
  let t := s.take q
  match q, t.reply with
  | .newLease .., .lease l => some l.handle
  | .newMovable .., .refused _ => none
  | .newMovable slot .., _ => t.session.handleAt slot
  | .movable slot .move, .done => t.session.handleAt slot
  | _, _ => none

/-- All handles given out by the steps, in order. -/
def grants (s : Session) : List Step → List Handle
  | [] => []
  | q :: qs => (s.grant? q).toList ++ (s.take q).session.grants qs

theorem grant?_newMovable {slot : Nat} {limit : Amount} {p : Placement}
    (h : ∀ e, (s.takeNewMovable slot limit p).reply ≠ .refused e) :
    s.grant? (.newMovable slot limit p) =
      (s.takeNewMovable slot limit p).session.handleAt slot := by
  simp only [grant?, take]

theorem grant?_movable_of_ne {slot : Nat} {q : MovableStep} (h : q ≠ .move) :
    s.grant? (.movable slot q) = none := by
  cases q with
  | move => exact absurd rfl h
  | _ => rfl

theorem changed_of_ok (slot : Nat) {c : Script Call.Answer (Except Refusal Movable)} {m : Movable}
    {r : Registry} {es : List Event} (hcall : s.call c = ⟨.ok (.ok m), r, es⟩) :
    s.changed slot c =
      ⟨{ s with registry := r, movables := s.movables.insert slot m }, .done, es⟩ := by
  simp only [changed, hcall]

theorem changed_of_refused {slot : Nat} {c : Script Call.Answer (Except Refusal Movable)}
    {e : Refusal} {es : List Event} (hcall : s.call c = ⟨.ok (.error e), s.registry, es⟩) :
    s.changed slot c = ⟨s, .refused e, es⟩ := by
  simp only [changed, hcall]

/-- A movable counter that was made is in its slot, also if the one that it replaces cannot be
dropped. -/
theorem takeNewMovable_of_made (hd : s.distortion = .honest) (slot : Nat) {limit : Amount}
    {p : Placement} {m : Movable} {r : Registry} {es : List Event}
    (hcall : s.call (Movable.make limit p) = ⟨.ok (.ok m), r, es⟩) :
    let t := s.takeNewMovable slot limit p
    (∀ e, t.reply ≠ .refused e) ∧ t.session.handleAt slot = m.handle? ∧
      r.NothingNew t.session.registry ∧ (s.movables[slot]? = none → t.session.registry = r) := by
  intro t
  have hchanged := changed_of_ok slot hcall
  cases hold : s.movables[slot]? with
  | none =>
    have ht : t = _ := (takeNewMovable_of_empty hold limit p).trans hchanged
    rw [ht]
    exact ⟨by simp, by simp [handleAt], .refl r, fun _ => rfl⟩
  | some old =>
    let u : Session := { s with registry := r, movables := s.movables.insert slot m }
    let dropped := u.asked old.drop fun _ => .done
    have ht : t = { dropped with events := es ++ dropped.events } := by
      simp only [t, takeNewMovable, hchanged, hold, dropped, u]
    rw [ht]
    refine ⟨fun e => ofResult_ne_refused (by simp) _, ?_, ?_, fun h => ?_⟩
    · simp [dropped, u, handleAt, asked]
    · simp only [dropped, u, asked, call, hd]
      exact old.leased_drop.nothingNew_run r
    · cases h

theorem registry_takeCounter (s : Session) (slot : Nat) (c : Counter) (q : CounterStep) :
    (s.takeCounter slot c q).session.registry = s.registry := by
  have hput (r : Except Refusal Counter) : (s.putCounter slot r).session.registry = s.registry := by
    cases r <;> rfl
  cases q with
  | add x | sub x => exact hput _
  | read | limit | headroom | copy target | equals other | write block | destroy => rfl

section NothingNew

variable {α : Type} (hd : s.distortion = .honest)
include hd

theorem nothingNew_asked {c : Script Call.Answer α} (hc : c.Leased) (reply : α → Reply) :
    s.registry.NothingNew (s.asked c reply).session.registry := by
  simp only [asked, call, hd]
  exact hc.nothingNew_run s.registry

theorem nothingNew_changed {slot : Nat} {c : Script Call.Answer (Except Refusal Movable)}
    (hc : c.Leased) : s.registry.NothingNew (s.changed slot c).session.registry := by
  have hrun := hc.nothingNew_run s.registry
  simp only [changed, call, hd]
  split <;> exact hrun

theorem nothingNew_takeLease (slot : Nat) (l : Lease) {q : LeaseStep}
    (hload : (Step.lease slot q).isLoad = false) :
    s.registry.NothingNew (s.takeLease slot l q).session.registry := by
  cases q with
  | add x => exact nothingNew_asked hd (l.leased_add x) _
  | sub x => exact nothingNew_asked hd (l.leased_sub x) _
  | read => exact nothingNew_asked hd l.leased_read _
  | destroy =>
    exact nothingNew_asked (s := { s with leases := s.leases.erase slot }) hd l.leased_destroy _
  | limit | handle | equals other | write block => exact .refl _
  | loadAdd load x | loadSub load x => cases hload

theorem nothingNew_takeMovable (slot : Nat) (m : Movable) {q : MovableStep} (hq : q ≠ .move) :
    s.registry.NothingNew (s.takeMovable slot m q).session.registry := by
  cases q with
  | add x => exact nothingNew_changed hd (m.leased_add x)
  | sub x => exact nothingNew_changed hd (m.leased_sub x)
  | move => exact absurd rfl hq
  | read => exact nothingNew_asked hd m.leased_read _
  | headroom => exact nothingNew_asked hd m.leased_headroom _
  | write block => exact nothingNew_asked hd m.leased_layout _
  | drop =>
    exact nothingNew_asked (s := { s with movables := s.movables.erase slot }) hd m.leased_drop _
  | limit | isHosted | placement | isServedHere => exact .refl _

end NothingNew

theorem take_move_of_some {slot : Nat} {m : Movable} (hm : s.movables[slot]? = some m) :
    s.take (.movable slot .move) = s.changed slot m.move := by
  simp only [take, hm]
  rfl

/-- A move out of the registry gives no handle, whether it meets a dead handle, does not fit or is
done. -/
theorem take_move_of_hosted (hd : s.distortion = .honest) {slot : Nat} {l : Lease}
    (hm : s.movables[slot]? = some (.hosted l)) :
    s.grant? (.movable slot .move) = none ∧
      s.registry.NothingNew (s.take (.movable slot .move)).session.registry := by
  cases hc : s.registry.table[l.handle]? with
  | none =>
    have hcall : s.call (Movable.hosted l).move = ⟨.error ⟨l.handle⟩, s.registry, []⟩ := by
      rw [call, hd, Movable.run_move_of_dead hc]
    simp only [grant?, take_move_of_some hm, changed, hcall]
    exact ⟨trivial, .refl _⟩
  | some c =>
    cases hfit : (Counter.fresh l.limit).add c.value with
    | error e =>
      have hcall : s.call (Movable.hosted l).move =
          ⟨.ok (.error .misfit), s.registry, [.misfit c.value l.limit e]⟩ := by
        rw [call, hd, Movable.run_move_of_live hc, hfit]
      simp only [grant?, take_move_of_some hm, changed_of_refused hcall]
      exact ⟨trivial, .refl _⟩
    | ok c' =>
      have hcall : s.call (Movable.hosted l).move =
          ⟨.ok (.ok (.inPlace c')), { s.registry with table := s.registry.table.erase l.handle },
            [.removed l.handle, .moved c.value l.limit .hosted .inPlace]⟩ := by
        rw [call, hd, Movable.run_move_of_live hc, hfit]
      simp only [grant?, take_move_of_some hm, changed_of_ok slot hcall]
      exact ⟨by simp [handleAt], s.registry.nothingNew_erase l.handle⟩

/-- A step that asks for no handle gives none and brings nothing new. -/
theorem take_of_brings_none (hd : s.distortion = .honest) {q : Step} (hload : q.isLoad = false)
    (hq : s.brings? q = none) :
    s.grant? q = none ∧ s.registry.NothingNew (s.take q).session.registry := by
  cases q with
  | newCounter slot limit | forgeLease slot l => exact ⟨rfl, .refl _⟩
  | counter slot q =>
    refine ⟨rfl, ?_⟩
    simp only [take, onSlot]
    cases s.counters[slot]? with
    | none => exact .refl _
    | some c => exact (s.registry_takeCounter slot c q).symm ▸ .refl _
  | newLease slot limit => cases hq
  | lease slot q =>
    refine ⟨rfl, ?_⟩
    simp only [take, onSlot]
    cases s.leases[slot]? with
    | none => exact .refl _
    | some l => exact nothingNew_takeLease hd slot l hload
  | newMovable slot limit p =>
    cases p with
    | hosted => cases hq
    | inPlace =>
      have hcall : s.call (Movable.make limit .inPlace) =
          ⟨.ok (.ok (.inPlace (.fresh limit))), s.registry, [.made limit .inPlace]⟩ := rfl
      obtain ⟨hreply, hhandle, hnew, -⟩ := takeNewMovable_of_made hd slot hcall
      exact ⟨(grant?_newMovable hreply).trans hhandle, hnew⟩
  | movable slot q =>
    cases hm : s.movables[slot]? with
    | none =>
      have htake : s.take (.movable slot q) = s.told .vacant := by
        simp only [take, hm]
        rfl
      simp only [grant?, htake]
      exact ⟨by cases q <;> rfl, .refl _⟩
    | some m =>
      by_cases hmove : q = .move
      · subst hmove
        cases m with
        | hosted l => exact take_move_of_hosted hd hm
        | inPlace c => simp [brings?, hm] at hq
      · refine ⟨grant?_movable_of_ne hmove, ?_⟩
        simp only [take, hm]
        exact nothingNew_takeMovable hd slot m hmove
  | registry q =>
    cases q with
    | loadCreate load limit destroy => cases hload
    | setGate isOpen =>
      refine ⟨rfl, ?_⟩
      simp only [take, takeRegistry, Registry.run_setGate]
      exact ⟨rfl, fun _ h => h⟩
    | live | isOpen | write block => exact ⟨rfl, .refl _⟩

theorem slot_of_brings {slot : Nat} {c : Counter} (hq : s.brings? (.movable slot .move) = some c) :
    s.movables[slot]? = some (.inPlace c) := by
  simp only [brings?] at hq
  split at hq
  · cases hq
    assumption
  · cases hq

/-- A step that asks for a handle at a closed gate is turned away and leaves no trace. -/
theorem take_of_brings_closed (hd : s.distortion = .honest) {q : Step} {c : Counter}
    (hclosed : s.registry.isOpen = false) (hq : s.brings? q = some c) :
    s.grant? q = none ∧ (s.take q).reply = .refused .closed ∧ (s.take q).session = s := by
  cases q with
  | newLease slot limit =>
    have hcall : s.call (Lease.create limit) =
        ⟨.ok (.error .closed), s.registry, [.turnedAway limit]⟩ := by
      rw [call, hd, Lease.run_create_of_closed hclosed]
    simp only [grant?, take, takeNewLease, hcall]
    exact ⟨trivial, trivial, trivial⟩
  | newMovable slot limit p =>
    cases p with
    | inPlace => cases hq
    | hosted =>
      have hcall : s.call (Movable.make limit .hosted) =
          ⟨.ok (.error .closed), s.registry, [.turnedAway limit]⟩ := by
        rw [call, hd, Movable.run_make_of_closed hclosed]
      simp only [grant?, take, takeNewMovable, changed_of_refused hcall]
      exact ⟨trivial, trivial, trivial⟩
  | movable slot q =>
    cases q with
    | move =>
      have hm := slot_of_brings hq
      have hcall : s.call (Movable.inPlace c).move =
          ⟨.ok (.error .closed), s.registry, [.turnedAway c.limit]⟩ := by
        rw [call, hd, Movable.run_move_of_closed hclosed]
      simp only [grant?, take_move_of_some hm, changed_of_refused hcall]
      exact ⟨trivial, trivial, trivial⟩
    | _ => cases hq
  | _ => cases hq

/-- A step that asks for a handle at an open gate gets the next one. The counter that it makes is
hosted under it, and nothing else changes unless a movable counter was replaced. -/
theorem take_of_brings (hd : s.distortion = .honest) (hs : s.Sound) {q : Step} {c : Counter}
    (hopen : s.registry.isOpen = true) (hq : s.brings? q = some c) :
    s.grant? q = some s.registry.next ∧
      (s.registry.host c).NothingNew (s.take q).session.registry ∧
      (s.replaces q = false → (s.take q).session.registry = s.registry.host c) := by
  cases q with
  | newLease slot limit =>
    cases hq
    have hcall : s.call (Lease.create limit) =
        ⟨.ok (.ok ⟨s.registry.next, limit⟩), s.registry.host (.fresh limit),
          [.issued s.registry.next limit]⟩ := by
      rw [call, hd, Lease.run_create_of_open hopen]
      rfl
    simp only [grant?, take, takeNewLease, hcall]
    exact ⟨trivial, .refl _, fun _ => trivial⟩
  | newMovable slot limit p =>
    cases p with
    | inPlace => cases hq
    | hosted =>
      cases hq
      have hcall : s.call (Movable.make limit .hosted) =
          ⟨.ok (.ok (.hosted ⟨s.registry.next, limit⟩)), s.registry.host (.fresh limit),
            [.issued s.registry.next limit, .made limit .hosted]⟩ := by
        rw [call, hd, Movable.run_make_of_open hopen]
        rfl
      obtain ⟨hreply, hhandle, hnew, hempty⟩ := takeNewMovable_of_made hd slot hcall
      refine ⟨(grant?_newMovable hreply).trans hhandle, hnew, fun hrepl => hempty ?_⟩
      exact replaces_eq_false_iff.1 hrepl slot rfl
  | movable slot q =>
    cases q with
    | move =>
      have hm := slot_of_brings hq
      have hc : c.Bounded := hs.movables slot _ hm
      have hcall : s.call (Movable.inPlace c).move =
          ⟨.ok (.ok (.hosted ⟨s.registry.next, c.limit⟩)), s.registry.host c,
            [.issued s.registry.next c.limit, .moved c.value c.limit .inPlace .hosted]⟩ := by
        rw [call, hd, Movable.run_move_of_open hc hopen]
        rfl
      simp only [grant?, take_move_of_some hm, changed_of_ok slot hcall]
      exact ⟨by simp [handleAt], .refl _, fun _ => trivial⟩
    | _ => cases hq
  | _ => cases hq

/-! ## Numbered sessions -/

/-- So many handles were given out by an honest host, and those in use are among them. -/
structure Numbered (s : Session) (n : Nat) : Prop where
  distortion : s.distortion = .honest
  sound : s.Sound
  next_eq : s.registry.next.id.toNat = n % 2 ^ 64
  live_lt : ∀ h, s.registry.IsLive h → h.id.toNat < n

theorem numbered_start (isOpen : Bool) : (start .honest isOpen).Numbered 0 where
  distortion := rfl
  sound := sound_start .honest isOpen
  next_eq := rfl
  live_lt h hh := by
    obtain ⟨c, hc⟩ := Registry.isLive_iff.1 hh
    simp [start, Registry.empty] at hc

namespace Numbered

variable {n : Nat} {q : Step}

/-- Up to the end of the range the next handle is not in use. -/
theorem next_free (hs : s.Numbered n) (hn : n < 2 ^ 64) : ¬ s.registry.IsLive s.registry.next := by
  intro hlive
  have hlt := hs.live_lt _ hlive
  rw [hs.next_eq, Nat.mod_eq_of_lt hn] at hlt
  omega

/-- A step gives out no handle and brings nothing new, or it brings one counter, under the next
handle. -/
theorem grant_cases (hs : s.Numbered n) (hload : q.isLoad = false) :
    (s.grant? q = none ∧ s.registry.NothingNew (s.take q).session.registry) ∨
      ∃ c, s.grant? q = some s.registry.next ∧
        (s.registry.host c).NothingNew (s.take q).session.registry := by
  cases hq : s.brings? q with
  | none => exact .inl (take_of_brings_none hs.distortion hload hq)
  | some c =>
    cases hopen : s.registry.isOpen with
    | false =>
      obtain ⟨hnone, -, hsame⟩ := take_of_brings_closed hs.distortion hopen hq
      exact .inl ⟨hnone, by rw [hsame]; exact .refl _⟩
    | true =>
      obtain ⟨hgrant, hnew, -⟩ := take_of_brings hs.distortion hs.sound hopen hq
      exact .inr ⟨c, hgrant, hnew⟩

theorem take (hs : s.Numbered n) (hload : q.isLoad = false) :
    (s.take q).session.Numbered (n + (s.grant? q).toList.length) := by
  refine ⟨(s.distortion_take q).trans hs.distortion, hs.sound.take q, ?_, fun h hh => ?_⟩
  · rcases hs.grant_cases hload with ⟨hgrant, hnew⟩ | ⟨c, hgrant, hnew⟩
    · rw [hnew.next_eq, hgrant]
      exact hs.next_eq
    · rw [hnew.next_eq, hgrant, Registry.host, Handle.toNat_succ, hs.next_eq, Nat.mod_add_mod]
      rfl
  · rcases hs.grant_cases hload with ⟨hgrant, hnew⟩ | ⟨c, hgrant, hnew⟩
    · rw [hgrant]
      exact hs.live_lt h (hnew.live_of_live h hh)
    · rw [hgrant]
      show h.id.toNat < n + 1
      rcases (Registry.isLive_host _ c h).1 (hnew.live_of_live h hh) with hnext | hlive
      · have hle := Nat.mod_le n (2 ^ 64)
        rw [← hnext, hs.next_eq]
        omega
      · have hlt := hs.live_lt h hlive
        omega

theorem reach (hs : s.Numbered n) (qs : List Step) (hload : ∀ q ∈ qs, q.isLoad = false) :
    (s.reach qs).Numbered (n + (s.grants qs).length) := by
  induction qs generalizing s n with
  | nil => exact hs
  | cons q qs ih =>
    have hq := hs.take (hload q List.mem_cons_self)
    have hqs := ih hq fun q' hq' => hload q' (List.mem_cons_of_mem _ hq')
    rwa [Nat.add_assoc, ← List.length_append] at hqs

/-- The handles given out are those that follow in the sequence, without a gap. -/
theorem map_grants (hs : s.Numbered n) (qs : List Step) (hload : ∀ q ∈ qs, q.isLoad = false) :
    (s.grants qs).map (fun h => h.id.toNat) =
      (List.range' n (s.grants qs).length).map (· % 2 ^ 64) := by
  induction qs generalizing s n with
  | nil => rfl
  | cons q qs ih =>
    have hq := hload q List.mem_cons_self
    have hqs := ih (hs.take hq) fun q' hq' => hload q' (List.mem_cons_of_mem _ hq')
    rcases hs.grant_cases hq with ⟨hgrant, -⟩ | ⟨c, hgrant, -⟩
    · rw [hgrant] at hqs
      simp only [grants, hgrant, Option.toList_none, List.nil_append]
      exact hqs
    · rw [hgrant] at hqs
      simp only [grants, hgrant, Option.toList_some, List.singleton_append, List.map_cons,
        List.length_cons, List.range'_succ]
      exact congrArg₂ List.cons hs.next_eq hqs

/-- Up to the end of the range a handle that was given out and is not in use will not be used
again. -/
theorem stays_dead (hs : s.Numbered n) {h : Handle} (hlt : h.id.toNat < n)
    (hdead : ¬ s.registry.IsLive h) (later : List Step) (hload : ∀ q ∈ later, q.isLoad = false)
    (hn : n + (s.grants later).length ≤ 2 ^ 64) : ¬ (s.reach later).registry.IsLive h := by
  induction later generalizing s n with
  | nil => exact hdead
  | cons q later ih =>
    have hq := hload q List.mem_cons_self
    rw [grants, List.length_append, ← Nat.add_assoc] at hn
    refine ih (hs.take hq) (by omega) (fun hlive => ?_)
      (fun q' hq' => hload q' (List.mem_cons_of_mem _ hq')) hn
    rcases hs.grant_cases hq with ⟨-, hnew⟩ | ⟨c, hgrant, hnew⟩
    · exact hdead (hnew.live_of_live h hlive)
    · rcases (Registry.isLive_host _ c h).1 (hnew.live_of_live h hlive) with hnext | hold
      · rw [hgrant, Option.toList_some, List.length_singleton] at hn
        rw [← hnext, hs.next_eq, Nat.mod_eq_of_lt (by omega)] at hlt
        omega
      · exact hdead hold

end Numbered

/-! ## The whole range -/

/-- As many leases as wanted are to be had at an open gate, and none of the old ones is lost. -/
theorem Numbered.replicate_newLease {n : Nat} (hs : s.Numbered n)
    (hopen : s.registry.isOpen = true) (slot : Nat) (limit : Amount) (k : Nat) :
    let qs := List.replicate k (Step.newLease slot limit)
    (s.grants qs).length = k ∧ (s.reach qs).registry.isOpen = true ∧
      ∀ h, s.registry.IsLive h → (s.reach qs).registry.IsLive h := by
  induction k generalizing s n with
  | zero => exact ⟨rfl, hopen, fun _ hh => hh⟩
  | succ k ih =>
    obtain ⟨hgrant, -, hhost⟩ := take_of_brings (q := .newLease slot limit) hs.distortion hs.sound
      hopen rfl
    have hregistry := hhost rfl
    have hnext := hs.take (q := .newLease slot limit) rfl
    obtain ⟨hlength, hopen', hkept⟩ := ih hnext (by rw [hregistry]; exact hopen)
    refine ⟨?_, hopen', fun h hh => hkept h ?_⟩
    · simp only [List.replicate_succ, grants, hgrant, Option.toList_some, List.singleton_append,
        List.length_cons, hlength]
    · rw [hregistry, Registry.isLive_host]
      exact .inr hh

/-- There are sessions that are given as many handles as wanted and have the first one still in
use. -/
theorem exists_grants (isOpen : Bool) (k : Nat) :
    ∃ qs : List Step, (∀ q ∈ qs, q.isLoad = false) ∧
      ((start .honest isOpen).grants qs).length = k + 1 ∧
      ((start .honest isOpen).reach qs).registry.isOpen = true ∧
      ((start .honest isOpen).reach qs).registry.IsLive ⟨0#64⟩ := by
  let opened := ((start .honest isOpen).take (.registry (.setGate true))).session
  have hregistry : opened.registry = .empty true := by
    simp only [opened, take, takeRegistry, Registry.run_setGate]
    rfl
  have hopened : opened.Numbered 0 :=
    (numbered_start isOpen).take (q := .registry (.setGate true)) rfl
  let first := (opened.take (.newLease 0 0#128)).session
  obtain ⟨hgrant, -, hhost⟩ := take_of_brings (q := .newLease 0 0#128) hopened.distortion
    hopened.sound (by rw [hregistry]; rfl) rfl
  have hfirst : first.registry = (Registry.empty true).host (.fresh 0#128) := by
    rw [← hregistry]
    exact hhost rfl
  obtain ⟨hlength, hopen, hkept⟩ := (hopened.take (q := .newLease 0 0#128) rfl).replicate_newLease
    (by rw [hhost rfl, hregistry]; rfl) 0 0#128 k
  refine ⟨.registry (.setGate true) :: .newLease 0 0#128 :: List.replicate k (.newLease 0 0#128),
    ?_, ?_, hopen, hkept _ ?_⟩
  · intro q hq
    rcases List.mem_cons.1 hq with rfl | hq
    · rfl
    · rcases List.mem_cons.1 hq with rfl | hq
      · rfl
      · rw [List.eq_of_mem_replicate hq]
        rfl
  · show ([] ++ ((opened.grant? _).toList ++ first.grants _)).length = _
    rw [hgrant, List.nil_append, Option.toList_some, List.singleton_append, List.length_cons,
      hlength]
  · show first.registry.IsLive _
    rw [hfirst, Registry.isLive_host]
    exact .inl rfl

/-- The handles that a session is given are `0`, `1`, `2` and so on. Up to the end of the range they
ascend, each is new and none comes back after its counter is gone; then the sequence starts again,
and a counter that is still hosted under the first handle gives way to a new one. The same holds of
the handles that clients draw side by side, in every interleaving. -/
theorem grants_in_sequence (isOpen : Bool) (qs : List Step) (hload : ∀ q ∈ qs, q.isLoad = false) :
    let s := (start .honest isOpen).reach qs
    let handles := (start .honest isOpen).grants qs
    s.registry.InSequence handles ∧
    (∀ h ∈ handles, ¬ s.registry.IsLive h → ∀ later : List Step, (∀ q ∈ later, q.isLoad = false) →
      (handles ++ s.grants later).length ≤ 2 ^ 64 → ¬ (s.reach later).registry.IsLive h) ∧
    (∀ q, q.isLoad = false → s.brings? q = none →
      s.grant? q = none ∧ s.registry.NothingNew (s.take q).session.registry) ∧
    (∀ q c, s.brings? q = some c → s.registry.isOpen = false →
      s.grant? q = none ∧ (s.take q).reply = .refused .closed ∧ (s.take q).session = s) ∧
    (∀ q c, s.brings? q = some c → s.registry.isOpen = true → s.replaces q = false →
      let h := s.registry.next
      let r := (s.take q).session.registry
      s.grant? q = some h ∧ r.table[h]? = some c ∧
        (∀ k, k ≠ h → r.table[k]? = s.registry.table[k]?) ∧
        (handles.length < 2 ^ 64 → ¬ s.registry.IsLive h ∧ r.live = s.registry.live + 1) ∧
        (handles.length = 2 ^ 64 → h = ⟨0#64⟩ ∧
          (s.registry.IsLive h → r.live = s.registry.live))) ∧
    (∃ full : List Step, (∀ q ∈ full, q.isLoad = false) ∧
      ((start .honest isOpen).grants full).length = 2 ^ 64 ∧
      ((start .honest isOpen).reach full).registry.isOpen = true ∧
      ((start .honest isOpen).reach full).registry.IsLive ⟨0#64⟩) ∧
    ∀ (α : Type) (clients : List (Script Request.Answer α)) (schedule : List Nat),
      let p := Pool.ofClients isOpen clients
      let now := p.run schedule
      now.registry.InSequence (p.drawn schedule) ∧
      ((p.drawn schedule).length ≤ 2 ^ 64 →
        (∀ i h limit a, now.deed? i = some ⟨.place h limit, a⟩ → ¬ now.registry.IsLive h) ∧
        ∀ h, .remove h ∈ (p.deeds schedule).map (fun e => e.2.1) → ¬ now.registry.IsLive h) ∧
      ∀ (i : Nat) (client : Script Request.Answer α) (s : Strand α) (a : α),
        clients[i]? = some client → now.strands[i]? = some s → s.result? = some a →
        (client.interpret Request.serve).Follows (Deed.ofThread i (p.deeds schedule)) a := by
  intro s handles
  have hs : s.Numbered handles.length := by
    simpa using (numbered_start isOpen).reach qs hload
  have hseq : s.registry.InSequence handles := by
    refine Registry.inSequence_of_ids ?_ hs.next_eq hs.live_lt
    rw [List.range_eq_range']
    exact (numbered_start isOpen).map_grants qs hload
  refine ⟨hseq, fun h hh hdead later hlater hle => ?_,
    fun q hq hnone => take_of_brings_none hs.distortion hq hnone,
    fun q c hq hclosed => take_of_brings_closed hs.distortion hclosed hq,
    fun q c hq hopen hrepl => ?_, exists_grants isOpen (2 ^ 64 - 1),
    fun α clients schedule => Pool.ofClients_drawn isOpen clients schedule⟩
  · have hmem : h.id.toNat ∈ (List.range handles.length).map (· % 2 ^ 64) :=
      hseq.ids_eq ▸ List.mem_map_of_mem hh
    obtain ⟨k, hk, heq⟩ := List.mem_map.1 hmem
    have hlt := List.mem_range.1 hk
    have hmod := Nat.mod_le k (2 ^ 64)
    rw [List.length_append] at hle
    exact hs.stays_dead (by omega) hdead later hlater hle
  · obtain ⟨hgrant, -, hhost⟩ := take_of_brings hs.distortion hs.sound hopen hq
    rw [hhost hrepl]
    refine ⟨hgrant, ?_, fun k hk => ?_, fun hlt => ?_, fun heq => ⟨?_, fun hlive => ?_⟩⟩
    · rw [Registry.getElem?_host, if_pos rfl]
    · rw [Registry.getElem?_host, if_neg (Ne.symm hk)]
    · have hfree := hs.next_free hlt
      exact ⟨hfree, by rw [Registry.live_host, if_neg hfree]⟩
    · ext1
      apply BitVec.eq_of_toNat_eq
      rw [hs.next_eq, heq]
      rfl
    · rw [Registry.live_host, if_pos hlive]

/-- Three handles are given out, one of them by a move. The refused lease takes none, and the first
handle, given back through a forged lease, is gone for good. Side by side, a client gives back by a
forged lease the counter that the other has only just placed. -/
theorem grants_in_sequence_of_forged_lease :
    let qs : List Step :=
      [.newLease 0 5#128, .newMovable 0 7#128 .inPlace, .registry (.setGate false),
        .newLease 1 9#128, .movable 0 .move, .registry (.setGate true), .movable 0 .move,
        .forgeLease 2 ⟨⟨0#64⟩, 3#128⟩, .lease 2 .destroy, .lease 0 (.add 1#128), .newLease 3 8#128]
    let s := (start .honest true).reach qs
    let clients : List (Script Request.Answer Unit) :=
      [.ask (.call (.create 5#128)) fun _ => .done (),
        .ask (.call (.create 7#128)) fun _ =>
          .ask (.call (.destroy ⟨⟨0#64⟩, 0#128⟩)) fun _ => .done ()]
    let schedule := [0, 0, 1, 1, 1, 0, 1]
    (start .honest true).grants qs = [⟨0#64⟩, ⟨1#64⟩, ⟨2#64⟩] ∧ s.registry.next = ⟨3#64⟩ ∧
      ¬ s.registry.IsLive ⟨0#64⟩ ∧
      (∀ later : List Step, (∀ q ∈ later, q.isLoad = false) →
        3 + (s.grants later).length ≤ 2 ^ 64 → ¬ (s.reach later).registry.IsLive ⟨0#64⟩) ∧
      s.grant? (.newLease 4 6#128) = some ⟨3#64⟩ ∧
      (s.take (.newLease 4 6#128)).session.registry.live = s.registry.live + 1 ∧
      (Pool.ofClients true clients).drawn schedule = [⟨0#64⟩, ⟨1#64⟩] ∧
      ¬ ((Pool.ofClients true clients).run schedule).registry.IsLive ⟨0#64⟩ := by
  intro qs s clients schedule
  have hgrants : (start .honest true).grants qs = [⟨0#64⟩, ⟨1#64⟩, ⟨2#64⟩] := by decide +kernel
  have hnext : s.registry.next = ⟨3#64⟩ := by decide +kernel
  have hdead : ¬ s.registry.IsLive ⟨0#64⟩ := by decide +kernel
  have hopen : s.registry.isOpen = true := by decide +kernel
  have hdrawn : (Pool.ofClients true clients).drawn schedule = [⟨0#64⟩, ⟨1#64⟩] := by
    decide +kernel
  obtain ⟨-, hgone, -, -, hnew, -, hclients⟩ := grants_in_sequence true qs (by decide)
  obtain ⟨hgrant, -, -, hlive, -⟩ := hnew (.newLease 4 6#128) _ rfl hopen rfl
  rw [hgrants] at hgone hlive
  obtain ⟨-, hplaces, -⟩ := hclients Unit clients schedule
  rw [hdrawn] at hplaces
  refine ⟨hgrants, hnext, hdead, fun later hlater hle => ?_, hnext ▸ hgrant, (hlive (by decide)).2,
    hdrawn, (hplaces (by decide)).2 ⟨0#64⟩ (by decide +kernel)⟩
  refine hgone _ (by decide) hdead later hlater ?_
  rw [List.length_append]
  exact hle

end Session

end Abacus
