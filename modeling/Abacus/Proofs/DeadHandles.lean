import Abacus.Proofs.Rest
import Abacus.Proofs.Sequence

/-!
# Dead handles

At the honest host a call through a lease fails exactly when its handle is not in use
(`Call.result_eq_error_iff`), and a step on a movable counter meets a dead handle exactly when the
counter is hosted, the step calls the host, and the handle is not in use
(`Session.reply_movable_eq_dead_iff`). What a step can do to the slots for movable counters is said
once (`Session.movables_take_cases`): it follows that hosted counters have handles that were drawn
(`Session.Registered`), and that a counter without its handle stays in its slot until it is let go.
As such a handle is not used again before the sequence comes round, the counter is lost for good
(`Session.lost_for_good`).
-/

namespace Abacus

open Distortion

/-! ## Calls -/

theorem Registry.table_of_dead {r : Registry} {h : Handle} (hdead : ¬ r.IsLive h) :
    r.table[h]? = none := by
  cases hc : r.table[h]? with
  | none => rfl
  | some c => exact absurd (isLive_iff.2 ⟨c, hc⟩) hdead

namespace Call

variable {q : Call} {l : Lease} {r : Registry}

theorem exists_result_of_live (hq : q.through? = some l) {c : Counter}
    (hc : r.table[l.handle]? = some c) :
    ∃ a, ((honest.carryOut (.query q)).run r).result = .ok a := by
  cases q with
  | create limit => cases hq
  | add k x =>
    cases hq
    exact ⟨_, congrArg Outcome.result (Lease.run_add_of_live hc x)⟩
  | sub k x =>
    cases hq
    exact ⟨_, congrArg Outcome.result (Lease.run_sub_of_live hc x)⟩
  | read k =>
    cases hq
    exact ⟨_, congrArg Outcome.result (Lease.run_read_of_live hc)⟩
  | destroy k =>
    cases hq
    exact ⟨_, congrArg Outcome.result (Lease.run_destroy_of_live hc)⟩

/-- An operation that makes one call and something of the answer meets no dead handle. -/
theorem exists_result_map {β : Type} (hq : q.through? = some l) (hlive : r.IsLive l.handle)
    (f : q.Answer → β) :
    ∃ b, ((honest.carryOut ((Script.query q).bind fun a => .done (f a))).run r).result = .ok b := by
  obtain ⟨c, hc⟩ := Registry.isLive_iff.1 hlive
  obtain ⟨a, ha⟩ := exists_result_of_live hq hc
  rw [run_carryOut_map, ha]
  exact ⟨f a, rfl⟩

/-- A call fails exactly when its handle is not in use, and the failure names the handle. The limit
that stands on the lease does not matter. -/
theorem result_eq_error_iff (hq : q.through? = some l) {d : DeadHandle} :
    ((honest.carryOut (.query q)).run r).result = .error d ↔
      d = ⟨l.handle⟩ ∧ ¬ r.IsLive l.handle := by
  rw [Registry.isLive_iff]
  cases hc : r.table[l.handle]? with
  | none =>
    rw [run_of_dead hq hc]
    simp [eq_comm]
  | some c =>
    obtain ⟨a, ha⟩ := exists_result_of_live hq hc
    simp [ha]

/-- A script that begins with a call through a dead handle goes no further. -/
theorem run_bind_of_dead {β : Type} (hq : q.through? = some l) (hc : r.table[l.handle]? = none)
    (f : q.Answer → Script Call.Answer β) :
    (honest.carryOut ((Script.query q).bind f)).run r = ⟨.error ⟨l.handle⟩, r, []⟩ := by
  rw [run_carryOut_bind, run_of_dead hq hc]
  rfl

end Call

/-! ## Steps on movable counters -/

/-- Whether a step on a movable counter calls the host if the counter is hosted. -/
def MovableStep.callsHost : MovableStep → Bool
  | limit => false
  | isHosted => false
  | placement => false
  | isServedHere => false
  | _ => true

namespace Movable

theorem run_drop_of_dead {r : Registry} {l : Lease} (hc : r.table[l.handle]? = none) :
    (honest.carryOut (hosted l).drop).run r = ⟨.error ⟨l.handle⟩, r, [.letGo]⟩ := by
  show (Script.report .letGo (honest.carryOut (Script.query (Call.destroy l)))).run r = _
  rw [Script.run, Call.run_of_dead rfl hc]

/-- The handle of the counter, if it is hosted, is in use. -/
def Attached (r : Registry) : Movable → Prop
  | hosted l => r.IsLive l.handle
  | inPlace _ => True

variable {m : Movable} {r : Registry} (hm : m.Attached r)
include hm

theorem exists_read : ∃ a, ((honest.carryOut m.read).run r).result = .ok a := by
  cases m with
  | inPlace c => exact ⟨_, rfl⟩
  | hosted l => exact Call.exists_result_map (q := .read l) rfl hm id

theorem exists_headroom : ∃ a, ((honest.carryOut m.headroom).run r).result = .ok a := by
  cases m with
  | inPlace c => exact ⟨_, rfl⟩
  | hosted l => exact Call.exists_result_map (q := .read l) rfl hm _

theorem exists_layout : ∃ a, ((honest.carryOut m.layout).run r).result = .ok a := by
  cases m with
  | inPlace c => exact ⟨_, rfl⟩
  | hosted l => exact Call.exists_result_map (q := .read l) rfl hm _

theorem exists_add (x : Amount) : ∃ a, ((honest.carryOut (m.add x)).run r).result = .ok a := by
  cases m with
  | inPlace c => exact ⟨_, rfl⟩
  | hosted l => exact Call.exists_result_map (q := .add l x) rfl hm _

theorem exists_sub (x : Amount) : ∃ a, ((honest.carryOut (m.sub x)).run r).result = .ok a := by
  cases m with
  | inPlace c => exact ⟨_, rfl⟩
  | hosted l => exact Call.exists_result_map (q := .sub l x) rfl hm _

theorem exists_drop : ∃ a, ((honest.carryOut m.drop).run r).result = .ok a := by
  cases m with
  | inPlace c => exact ⟨_, rfl⟩
  | hosted l => exact Call.exists_result_map (q := .destroy l) rfl hm id

/-- Once the counter was read, a move meets no dead handle: neither when the new place is filled nor
when the old one is given back. -/
theorem exists_move (hs : m.Sound) : ∃ a, ((honest.carryOut m.move).run r).result = .ok a := by
  cases m with
  | inPlace c =>
    cases hopen : r.isOpen with
    | false => exact ⟨_, congrArg Outcome.result (run_move_of_closed hopen)⟩
    | true => exact ⟨_, congrArg Outcome.result (run_move_of_open hs hopen)⟩
  | hosted l =>
    obtain ⟨c, hc⟩ := Registry.isLive_iff.1 hm
    rw [run_move_of_live hc]
    split
    · exact ⟨_, rfl⟩
    · exact ⟨_, rfl⟩

end Movable

namespace Session

variable {α : Type} {s : Session} {slot : Nat}

theorem asked_of_dead {c : Script Call.Answer α} {d : DeadHandle} {es : List Event}
    (hcall : s.call c = ⟨.error d, s.registry, es⟩) (reply : α → Reply) :
    s.asked c reply = ⟨s, .dead d, es⟩ := by
  simp only [asked, hcall]
  rfl

theorem changed_of_dead {c : Script Call.Answer (Except Refusal Movable)} {d : DeadHandle}
    {es : List Event} (hcall : s.call c = ⟨.error d, s.registry, es⟩) :
    s.changed slot c = ⟨s, .dead d, es⟩ := by
  simp only [changed, hcall]

theorem reply_asked_ne_dead {c : Script Call.Answer α} {reply : α → Reply} {d : DeadHandle}
    (hc : ∃ a, (s.call c).result = .ok a) (hreply : ∀ a, reply a ≠ .dead d) :
    (s.asked c reply).reply ≠ .dead d := by
  obtain ⟨a, ha⟩ := hc
  simp only [asked, ha]
  exact hreply a

theorem reply_changed_ne_dead {c : Script Call.Answer (Except Refusal Movable)} {d : DeadHandle}
    (hc : ∃ a, (s.call c).result = .ok a) : (s.changed slot c).reply ≠ .dead d := by
  obtain ⟨a, ha⟩ := hc
  simp only [changed, ha]
  cases a with
  | error e => simp
  | ok m => simp

theorem take_movable_of_some {m : Movable} (hm : s.movables[slot]? = some m) (q : MovableStep) :
    s.take (.movable slot q) = s.takeMovable slot m q := by
  simp only [take, hm]
  rfl

/-- A step that calls the host for a counter without its handle changes nothing, but that a dropped
counter leaves its slot. -/
theorem take_movable_of_dead (hd : s.distortion = .honest) {l : Lease}
    (hm : s.movables[slot]? = some (.hosted l)) (hdead : ¬ s.registry.IsLive l.handle)
    {q : MovableStep} (hq : q.callsHost = true) :
    s.take (.movable slot q) =
      ⟨s.consume (.movable slot q), .dead ⟨l.handle⟩, if q = .drop then [.letGo] else []⟩ := by
  have hc := Registry.table_of_dead hdead
  have hcall {β : Type} {c : Call} (hl : c.through? = some l)
      (f : c.Answer → Script Call.Answer β) :
      s.call ((Script.query c).bind f) = ⟨.error ⟨l.handle⟩, s.registry, []⟩ := by
    rw [call, hd]
    exact Call.run_bind_of_dead hl hc f
  rw [take_movable_of_some hm]
  cases q with
  | add x => exact changed_of_dead (hcall (c := .add l x) rfl _)
  | sub x => exact changed_of_dead (hcall (c := .sub l x) rfl _)
  | move => exact changed_of_dead (hcall (c := .read l) rfl _)
  | read => exact asked_of_dead (hcall (c := .read l) rfl .done) _
  | headroom => exact asked_of_dead (hcall (c := .read l) rfl _) _
  | write block => exact asked_of_dead (hcall (c := .read l) rfl _) _
  | drop =>
    refine asked_of_dead (s := { s with movables := s.movables.erase slot }) ?_ _
    rw [call, hd, Movable.run_drop_of_dead hc]
    rfl
  | limit | isHosted | placement | isServedHere => cases hq

theorem reply_movable_ne_dead (hd : s.distortion = .honest) {m : Movable}
    (hm : s.movables[slot]? = some m) (hsound : m.Sound) (hattached : m.Attached s.registry)
    (q : MovableStep) (d : DeadHandle) : (s.take (.movable slot q)).reply ≠ .dead d := by
  have hcall {β : Type} {c : Script Call.Answer β}
      (hc : ∃ a, ((honest.carryOut c).run s.registry).result = .ok a) :
      ∃ a, (s.call c).result = .ok a := by
    rw [call, hd]
    exact hc
  rw [take_movable_of_some hm]
  cases q with
  | add x => exact reply_changed_ne_dead (hcall (Movable.exists_add hattached x))
  | sub x => exact reply_changed_ne_dead (hcall (Movable.exists_sub hattached x))
  | move => exact reply_changed_ne_dead (hcall (Movable.exists_move hattached hsound))
  | read => exact reply_asked_ne_dead (hcall (Movable.exists_read hattached)) (by simp)
  | headroom => exact reply_asked_ne_dead (hcall (Movable.exists_headroom hattached)) (by simp)
  | write block =>
    exact reply_asked_ne_dead (hcall (Movable.exists_layout hattached)) (by simp [written])
  | drop =>
    exact reply_asked_ne_dead (s := { s with movables := s.movables.erase slot })
      (hcall (Movable.exists_drop hattached)) (by simp)
  | limit | isHosted | placement | isServedHere => simp [takeMovable, told]

theorem reply_movable_eq_dead_iff (hd : s.distortion = .honest) (hs : s.Sound) {m : Movable}
    (hm : s.movables[slot]? = some m) (q : MovableStep) (d : DeadHandle) :
    (s.take (.movable slot q)).reply = .dead d ↔
      ∃ l, m = .hosted l ∧ q.callsHost = true ∧ d = ⟨l.handle⟩ ∧ ¬ s.registry.IsLive l.handle := by
  constructor
  · intro hreply
    have hdetached : ¬ m.Attached s.registry := fun hattached =>
      reply_movable_ne_dead hd hm (hs.movables slot m hm) hattached q d hreply
    cases m with
    | inPlace c => exact absurd trivial hdetached
    | hosted l =>
      cases hq : q.callsHost with
      | true =>
        rw [take_movable_of_dead hd hm hdetached hq] at hreply
        exact ⟨l, rfl, rfl, (Reply.dead.inj hreply).symm, hdetached⟩
      | false =>
        rw [take_movable_of_some hm] at hreply
        cases q with
        | limit | isHosted | placement | isServedHere => cases hreply
        | _ => cases hq
  · rintro ⟨l, rfl, hq, rfl, hdead⟩
    rw [take_movable_of_dead hd hm hdead hq]

end Session

/-! ## What a step does to the slots for movable counters -/

/-- The slot for movable counters that a step is about. -/
def Step.movableSlot? : Step → Option Nat
  | newMovable slot _ _ => some slot
  | movable slot _ => some slot
  | _ => none

namespace Session

variable {s : Session} {q : Step}

/-- The operation of a step whose result goes into a slot for movable counters. -/
def operation? (s : Session) : Step → Option (Nat × Script Call.Answer (Except Refusal Movable))
  | .newMovable slot limit p => some (slot, Movable.make limit p)
  | .movable slot (.add x) => s.movables[slot]?.map fun m => (slot, m.add x)
  | .movable slot (.sub x) => s.movables[slot]?.map fun m => (slot, m.sub x)
  | .movable slot .move => s.movables[slot]?.map fun m => (slot, m.move)
  | _ => none

theorem movableSlot_of_operation {slot : Nat} {c : Script Call.Answer (Except Refusal Movable)}
    (hop : s.operation? q = some (slot, c)) : q.movableSlot? = some slot := by
  cases q with
  | newMovable slot' limit p =>
    cases hop
    rfl
  | movable slot' q =>
    cases q with
    | add x | sub x | move =>
      obtain ⟨m, -, heq⟩ := Option.map_eq_some_iff.1 hop
      exact congrArg (fun e => some e.1) heq
    | _ => cases hop
  | _ => cases hop

theorem movables_takeCounter (s : Session) (slot : Nat) (c : Counter) (q : CounterStep) :
    (s.takeCounter slot c q).session.movables = s.movables := by
  have hput (r : Except Refusal Counter) : (s.putCounter slot r).session.movables = s.movables := by
    cases r <;> rfl
  cases q with
  | add x | sub x => exact hput _
  | read | limit | headroom | copy target | equals other | write block | destroy => rfl

/-- The result of the operation goes into its slot, and its events come first. -/
def Stores (s : Session) (q : Step) (t : Taken) : Prop :=
  ∃ slot c m es, s.operation? q = some (slot, c) ∧ (s.call c).result = .ok (.ok m) ∧
    t.session.movables = s.movables.insert slot m ∧ t.events = (s.call c).events ++ es

theorem stores_changed {slot : Nat} {c : Script Call.Answer (Except Refusal Movable)}
    (hop : s.operation? q = some (slot, c)) :
    (s.changed slot c).session.movables = s.movables ∨ s.Stores q (s.changed slot c) := by
  cases hcall : (s.call c).result with
  | error d => exact .inl (by simp only [changed, hcall])
  | ok a =>
    cases a with
    | error e => exact .inl (by simp only [changed, hcall])
    | ok m =>
      refine .inr ⟨slot, c, m, [], hop, hcall, ?_, ?_⟩
      · simp only [changed, hcall]
      · simp only [changed, hcall, List.append_nil]

theorem Stores.append {t t' : Taken} (h : s.Stores q t)
    (hmovables : t'.session.movables = t.session.movables) {es : List Event}
    (hevents : t'.events = t.events ++ es) : s.Stores q t' := by
  obtain ⟨slot, c, m, es', hop, hcall, hput, heq⟩ := h
  refine ⟨slot, c, m, es' ++ es, hop, hcall, hmovables.trans hput, ?_⟩
  rw [hevents, heq, List.append_assoc]

/-- The drop of the counter that is replaced comes last and does not touch the slots. -/
theorem stores_takeNewMovable (s : Session) (slot : Nat) (limit : Amount) (p : Placement) :
    (s.takeNewMovable slot limit p).session.movables = s.movables ∨
      s.Stores (.newMovable slot limit p) (s.takeNewMovable slot limit p) := by
  have hmade : _ ∨ s.Stores (.newMovable slot limit p) (s.changed slot (Movable.make limit p)) :=
    stores_changed rfl
  simp only [takeNewMovable]
  split
  · exact hmade.imp_right fun h => h.append rfl rfl
  · exact hmade

/-- The movable counters stay as they are, the result of an operation goes into its slot, or one of
them is dropped. -/
theorem movables_take_cases (s : Session) (q : Step) :
    (s.take q).session.movables = s.movables ∨ s.Stores q (s.take q) ∨
      ∃ slot, q = .movable slot .drop ∧ (s.take q).session.movables = s.movables.erase slot := by
  cases q with
  | newCounter slot limit | forgeLease slot l => exact .inl rfl
  | counter slot q =>
    refine .inl ?_
    simp only [take, onSlot]
    cases s.counters[slot]? with
    | none => rfl
    | some c => exact s.movables_takeCounter slot c q
  | newLease slot limit =>
    refine .inl ?_
    simp only [take, takeNewLease]
    split <;> rfl
  | lease slot q =>
    refine .inl ?_
    simp only [take, onSlot]
    cases s.leases[slot]? with
    | none => rfl
    | some l => cases q <;> rfl
  | newMovable slot limit p => exact (s.stores_takeNewMovable slot limit p).imp_right .inl
  | movable slot q =>
    cases hm : s.movables[slot]? with
    | none =>
      refine .inl ?_
      simp only [take, hm]
      rfl
    | some m =>
      rw [take_movable_of_some hm]
      cases q with
      | add x | sub x | move =>
        exact (stores_changed (by rw [operation?, hm]; rfl)).imp_right .inl
      | drop => exact .inr (.inr ⟨slot, rfl, rfl⟩)
      | read | limit | headroom | isHosted | placement | isServedHere | write block =>
        exact .inl rfl
  | registry q => exact .inl (by cases q <;> rfl)

/-- A step that is not about a slot leaves the counter there as it is. -/
theorem movables_take_of_ne {i : Nat} (hq : q.movableSlot? ≠ some i) :
    (s.take q).session.movables[i]? = s.movables[i]? := by
  rcases s.movables_take_cases q with hsame | ⟨slot, c, m, es, hop, -, hput, -⟩ |
    ⟨slot, rfl, herase⟩
  · rw [hsame]
  · have hne : slot ≠ i := fun heq => hq (heq ▸ movableSlot_of_operation hop)
    rw [hput]
    exact (Slots.getElem?_put s.movables slot i (some m)).trans (if_neg hne)
  · have hne : slot ≠ i := fun heq => hq (congrArg some heq)
    rw [herase]
    exact (Slots.getElem?_put s.movables slot i none).trans (if_neg hne)

end Session

/-! ## Handles of hosted counters -/

namespace Movable

/-- The handle of a hosted counter is one of the first `n`. -/
def Below (n : Nat) (m : Movable) : Prop := ∀ l, m.lease? = some l → l.handle.id.toNat < n

theorem Below.mono {m : Movable} {n k : Nat} (hm : m.Below n) (hle : n ≤ k) : m.Below k :=
  fun l hl => Nat.lt_of_lt_of_le (hm l hl) hle

theorem below_inPlace (c : Counter) (n : Nat) : (inPlace c).Below n := by
  intro l hl
  cases hl

theorem lease_of_map {α : Type} {f : α → Movable} {r : Except Refusal α} {m : Movable}
    (hm : r.map f = .ok m) {l? : Option Lease} (hf : ∀ a, (f a).lease? = l?) : m.lease? = l? := by
  cases r with
  | error e => cases hm
  | ok a =>
    cases hm
    exact hf a

/-- Whoever adds to a counter goes on with the lease that it has. -/
theorem ends_add_lease (m : Movable) (x : Amount) :
    (m.add x).Ends fun r => ∀ m', r = .ok m' → m'.lease? = m.lease? := by
  cases m with
  | hosted l => exact fun r m' hm' => lease_of_map hm' fun _ => rfl
  | inPlace c => exact fun m' hm' => lease_of_map hm' fun _ => rfl

theorem ends_sub_lease (m : Movable) (x : Amount) :
    (m.sub x).Ends fun r => ∀ m', r = .ok m' → m'.lease? = m.lease? := by
  cases m with
  | hosted l => exact fun r m' hm' => lease_of_map hm' fun _ => rfl
  | inPlace c => exact fun m' hm' => lease_of_map hm' fun _ => rfl

variable {r : Registry} {gone : Set Handle} {n : Nat} {m : Movable}

theorem below_make (hr : r.Rests gone n) {limit : Amount} {p : Placement}
    (hm : ((honest.carryOut (make limit p)).run r).result = .ok (.ok m)) :
    m.Below (n + ((honest.carryOut (make limit p)).run r).events.countP Event.isIssue) := by
  cases p with
  | inPlace =>
    cases hm
    exact below_inPlace _ _
  | hosted =>
    cases hopen : r.isOpen with
    | false =>
      rw [run_make_of_closed hopen] at hm
      cases hm
    | true =>
      rw [run_make_of_open hopen] at hm ⊢
      cases hm
      intro l hl
      cases hl
      exact hr.next_lt

theorem below_move (hr : r.Rests gone n) {m₀ : Movable} (hs : m₀.Sound)
    (hm : ((honest.carryOut m₀.move).run r).result = .ok (.ok m)) :
    m.Below (n + ((honest.carryOut m₀.move).run r).events.countP Event.isIssue) := by
  cases m₀ with
  | hosted l =>
    cases hc : r.table[l.handle]? with
    | none =>
      rw [run_move_of_dead hc] at hm
      cases hm
    | some c =>
      rw [run_move_of_live hc] at hm ⊢
      cases hfit : (Counter.fresh l.limit).add c.value with
      | error e =>
        rw [hfit] at hm
        cases hm
      | ok c' =>
        rw [hfit] at hm
        cases hm
        exact below_inPlace c' _
  | inPlace c =>
    cases hopen : r.isOpen with
    | false =>
      rw [run_move_of_closed hopen] at hm
      cases hm
    | true =>
      rw [run_move_of_open hs hopen] at hm ⊢
      cases hm
      intro l hl
      cases hl
      exact hr.next_lt

end Movable

namespace Session

variable {s : Session} {q : Step} {n : Nat}

/-- So many handles were drawn at an honest host, and the hosted counters of the session have their
handles from there. -/
structure Registered (s : Session) (n : Nat) : Prop where
  distortion : s.distortion = .honest
  sound : s.Sound
  rests : s.registry.Rests ∅ n
  below : s.movables.All (Movable.Below n)

theorem registered_start (isOpen : Bool) : (start .honest isOpen).Registered 0 :=
  ⟨rfl, sound_start .honest isOpen, Registry.rests_empty isOpen, Slots.all_empty⟩

namespace Registered

theorem below_of_operation (hs : s.Registered n) {slot : Nat}
    {c : Script Call.Answer (Except Refusal Movable)} (hop : s.operation? q = some (slot, c))
    {m : Movable} (hm : (s.call c).result = .ok (.ok m)) :
    m.Below (n + (s.call c).events.countP Event.isIssue) := by
  have hkept {m₀ : Movable} {slot' : Nat} (hm₀ : s.movables[slot']? = some m₀)
      (hends : c.Ends fun r => ∀ m', r = .ok m' → m'.lease? = m₀.lease?) :
      m.Below (n + (s.call c).events.countP Event.isIssue) := by
    have hsame := hends.of_run_carryOut hm m rfl
    refine Movable.Below.mono (fun l hl => ?_) (Nat.le_add_right n _)
    exact hs.below slot' m₀ hm₀ l (hsame ▸ hl)
  have hcall : s.call c = (honest.carryOut c).run s.registry := by rw [call, hs.distortion]
  cases q with
  | newMovable slot' limit p =>
    cases hop
    rw [hcall] at hm ⊢
    exact Movable.below_make hs.rests hm
  | movable slot' q =>
    cases q with
    | add x =>
      obtain ⟨m₀, hm₀, heq⟩ := Option.map_eq_some_iff.1 hop
      cases heq
      exact hkept hm₀ (m₀.ends_add_lease x)
    | sub x =>
      obtain ⟨m₀, hm₀, heq⟩ := Option.map_eq_some_iff.1 hop
      cases heq
      exact hkept hm₀ (m₀.ends_sub_lease x)
    | move =>
      obtain ⟨m₀, hm₀, heq⟩ := Option.map_eq_some_iff.1 hop
      cases heq
      rw [hcall] at hm ⊢
      exact Movable.below_move hs.rests (hs.sound.movables slot m₀ hm₀) hm
    | _ => cases hop
  | _ => cases hop

theorem take (hs : s.Registered n) (q : Step) :
    (s.take q).session.Registered (n + s.drawsAt q) := by
  refine ⟨(s.distortion_take q).trans hs.distortion, hs.sound.take q,
    rests_take hs.distortion hs.rests q, ?_⟩
  have hbelow : s.movables.All (Movable.Below (n + s.drawsAt q)) := fun slot m hm =>
    (hs.below slot m hm).mono (Nat.le_add_right n _)
  rcases s.movables_take_cases q with hsame | ⟨slot, c, m, es, hop, hm, hput, hevents⟩ |
    ⟨slot, -, herase⟩
  · rw [hsame]
    exact hbelow
  · -- A new handle is the next one, and the events of the step tell that it was drawn.
    have haside : q.createsAside = false := by
      cases q with
      | registry q => cases hop
      | _ => rfl
    rw [hput]
    refine hbelow.insert slot ((hs.below_of_operation hop hm).mono ?_)
    rw [drawsAt_of_events haside, hevents, List.countP_append]
    omega
  · rw [herase]
    exact hbelow.erase slot

theorem reach (hs : s.Registered n) (qs : List Step) :
    (s.reach qs).Registered (n + s.draws qs) := by
  induction qs generalizing s n with
  | nil => exact hs
  | cons q qs ih =>
    rw [draws, ← Nat.add_assoc]
    exact ih (hs.take q)

/-- A handle that a hosted counter has lost was drawn, so that it counts as given back. -/
theorem rests_of_lost (hs : s.Registered n) {i : Nat} {l : Lease}
    (hm : s.movables[i]? = some (.hosted l)) (hdead : ¬ s.registry.IsLive l.handle) :
    s.registry.Rests {l.handle} n :=
  hs.rests.singleton (hs.below i _ hm l rfl) hdead

end Registered

/-! ## Counters that have lost their handles -/

/-- None of the steps lets the counter in the slot go: it is neither dropped nor replaced. -/
def Spares (s : Session) (i : Nat) (qs : List Step) : Prop :=
  ∀ e ∈ s.minutes qs, e.1 ≠ .movable i .drop ∧
    (e.1.makes? = some i → ∃ refusal, e.2 = .refused refusal)

section Lost

variable {i : Nat} {l : Lease} (hd : s.distortion = .honest)
  (hm : s.movables[i]? = some (.hosted l)) (hdead : ¬ s.registry.IsLive l.handle)
include hd hm hdead

/-- A counter that has lost its handle stays in its slot, hosted as it is, until it is let go. -/
theorem movables_take_of_lost (hdrop : q ≠ .movable i .drop)
    (hmake : q.makes? = some i → ∃ refusal, (s.take q).reply = .refused refusal) :
    (s.take q).session.movables[i]? = some (.hosted l) := by
  by_cases hslot : q.movableSlot? = some i
  · cases q with
    | newMovable slot limit p =>
      cases hslot
      obtain ⟨refusal, hrefused⟩ := hmake rfl
      rw [take] at hrefused ⊢
      have hsame := changed_of_fails hd (Movable.tidy_make _ limit p)
        (by rw [← takeNewMovable_of_refused hrefused, hrefused]; rfl)
      rw [takeNewMovable_of_refused hrefused, hsame]
      exact hm
    | movable slot q =>
      cases hslot
      cases hq : q.callsHost with
      | true =>
        rw [take_movable_of_dead hd hm hdead hq]
        cases q with
        | drop => exact absurd rfl hdrop
        | _ => exact hm
      | false =>
        rw [take_movable_of_some hm]
        cases q with
        | limit | isHosted | placement | isServedHere => exact hm
        | _ => cases hq
    | _ => cases hslot
  · rw [movables_take_of_ne hslot]
    exact hm

end Lost

theorem movables_reach_of_lost (hs : s.Registered n) {i : Nat} {l : Lease}
    (hm : s.movables[i]? = some (.hosted l)) (hdead : ¬ s.registry.IsLive l.handle)
    {later : List Step} (hn : n + s.draws later ≤ 2 ^ 64) (hspares : s.Spares i later) :
    (s.reach later).movables[i]? = some (.hosted l) := by
  induction later generalizing s n with
  | nil => exact hm
  | cons q later ih =>
    rw [draws, ← Nat.add_assoc] at hn
    obtain ⟨hdrop, hmake⟩ := hspares (q, (s.take q).reply) List.mem_cons_self
    have hrests := rests_take hs.distortion (hs.rests_of_lost hm hdead) q
    refine ih (hs.take q) (movables_take_of_lost hs.distortion hm hdead hdrop hmake) ?_ hn ?_
    · exact hrests.not_live_of_mem (by omega) rfl
    · exact fun e he => hspares e (List.mem_cons_of_mem _ he)

theorem exists_of_mem_dead {d : Distortion} {r : Registry} {held : List (Nat × Movable)}
    {e : Nat × DeadHandle} (he : e ∈ (dropAll d r held).dead) : ∃ m, (e.1, m) ∈ held := by
  induction held generalizing r with
  | nil => cases he
  | cons first held ih =>
    obtain ⟨slot, m⟩ := first
    simp only [dropAll] at he
    cases hresult : ((d.carryOut m.drop).run r).result with
    | ok u =>
      rw [hresult] at he
      obtain ⟨m', hm'⟩ := ih he
      exact ⟨m', List.mem_cons_of_mem _ hm'⟩
    | error h =>
      rw [hresult] at he
      rcases List.mem_cons.1 he with rfl | he
      · exact ⟨m, List.mem_cons_self⟩
      · obtain ⟨m', hm'⟩ := ih he
        exact ⟨m', List.mem_cons_of_mem _ hm'⟩

/-- At the end of a session a counter without its handle is dropped once, like the others, and that
drop meets the dead handle. -/
theorem dead_dropAll {r : Registry} {held : List (Nat × Movable)} {i : Nat} {l : Lease}
    (hheld : held.Pairwise fun a b => a.1 ≠ b.1) (hm : (i, .hosted l) ∈ held)
    (hdead : ¬ r.IsLive l.handle) :
    ((dropAll .honest r held).dead.filter fun e => e.1 = i) = [(i, ⟨l.handle⟩)] := by
  induction held generalizing r with
  | nil => cases hm
  | cons e held ih =>
    obtain ⟨slot, m⟩ := e
    obtain ⟨hfirst, hrest⟩ := List.pairwise_cons.1 hheld
    rcases List.mem_cons.1 hm with heq | hlater
    · -- The counters after it are in other slots, so none of their drops counts.
      cases heq
      have hdropped := Movable.run_drop_of_dead (Registry.table_of_dead hdead)
      have hothers : (((dropAll .honest r held).dead).filter fun e => e.1 = i) = [] := by
        refine List.filter_eq_nil_iff.2 fun e he => ?_
        obtain ⟨m, hmem⟩ := exists_of_mem_dead he
        simpa using (hfirst _ hmem).symm
      simp only [dropAll, hdropped, List.filter_cons, decide_true, ↓reduceIte, hothers]
    · -- The drop that comes first only takes from the table, so the handle is dead after it too.
      have hne : slot ≠ i := hfirst _ hlater
      have hlast := ih hrest hlater fun hlive =>
        hdead ((m.leased_drop.nothingNew_run r).live_of_live _ hlive)
      simp only [dropAll]
      cases ((honest.carryOut m.drop).run r).result with
      | ok u => exact hlast
      | error d => rw [List.filter_cons, if_neg (by simpa using hne), hlast]

/-- The counter in the slot has lost its handle. A step that would call the host leaves everything
as it is, a move too, which so asks for no handle. The drop empties the slot and touches nothing
else, after which there is nothing to be dropped; at the end of a session it comes once. -/
structure Lost (s : Session) (i : Nat) (l : Lease) : Prop where
  stuck : ∀ q : MovableStep, q.callsHost = true → q ≠ .drop →
    s.take (.movable i q) = ⟨s, .dead ⟨l.handle⟩, []⟩
  drop : s.take (.movable i .drop) =
    ⟨{ s with movables := s.movables.erase i }, .dead ⟨l.handle⟩, [.letGo]⟩
  vacant : ∀ q : MovableStep,
    ((s.take (.movable i .drop)).session.take (.movable i q)).reply = .vacant
  close : (s.close.dead.filter fun e => e.1 = i) = [(i, ⟨l.handle⟩)]

theorem lost_of_dead (hd : s.distortion = .honest) {i : Nat} {l : Lease}
    (hm : s.movables[i]? = some (.hosted l)) (hdead : ¬ s.registry.IsLive l.handle) :
    s.Lost i l where
  stuck q hq hdrop := by
    rw [take_movable_of_dead hd hm hdead hq, if_neg hdrop]
    cases q with
    | drop => exact absurd rfl hdrop
    | _ => rfl
  drop := by
    rw [take_movable_of_dead hd hm hdead rfl]
    rfl
  vacant q := by
    have herased : (s.movables.erase i)[i]? = none :=
      (Slots.getElem?_put s.movables i i none).trans (if_pos rfl)
    rw [take_movable_of_dead hd hm hdead rfl]
    simp only [take, consume, herased]
    rfl
  close := by
    rw [Session.close, hd]
    refine dead_dropAll ?_ (Std.ExtTreeMap.mem_toList_iff_getElem?_eq_some.2 hm) hdead
    exact Std.ExtTreeMap.distinct_keys_toList.imp fun hne heq => hne (by simp [heq])

/-- A counter that replaces one without its handle is in the slot, whatever the drop meets. -/
theorem takeNewMovable_of_lost (hs : s.Registered n) {i : Nat} {l : Lease}
    (hm : s.movables[i]? = some (.hosted l)) (hdead : ¬ s.registry.IsLive l.handle)
    {limit : Amount} {p : Placement} (hn : n + s.drawsAt (.newMovable i limit p) ≤ 2 ^ 64)
    (hmade : (s.changed i (Movable.make limit p)).reply = .done) :
    s.take (.newMovable i limit p) =
      ⟨(s.changed i (Movable.make limit p)).session, .dead ⟨l.handle⟩,
        (s.changed i (Movable.make limit p)).events ++ [.letGo]⟩ := by
  let made := s.changed i (Movable.make limit p)
  let dropped := made.session.asked (Movable.hosted l).drop fun _ => .done
  have htake : s.take (.newMovable i limit p) =
      { dropped with events := made.events ++ dropped.events } := by
    simp only [take, takeNewMovable, hmade, hm, made, dropped]
  -- The new counter may have drawn a handle, but within the range not the one that was lost.
  have hcount : made.events.countP Event.isIssue ≤ s.drawsAt (.newMovable i limit p) := by
    rw [drawsAt_of_events rfl, htake, List.countP_append]
    omega
  have hrests : made.session.registry.Rests {l.handle} (n + made.events.countP Event.isIssue) :=
    (s.distortion.isLaw_rests {l.handle}).changed i (Movable.neutral_make limit p) n
      (hs.rests_of_lost hm hdead)
  have hstill : ¬ made.session.registry.IsLive l.handle := hrests.not_live_of_mem (by omega) rfl
  have hd : made.session.distortion = .honest := (s.distortion_changed i _).trans hs.distortion
  have hdropped : dropped = ⟨made.session, .dead ⟨l.handle⟩, [.letGo]⟩ := by
    refine asked_of_dead ?_ _
    rw [call, hd, Movable.run_drop_of_dead (Registry.table_of_dead hstill)]
  rw [htake, hdropped]

/-- At the honest host, whatever leases are forged and handles given back behind the backs of their
owners, a call meets a dead handle exactly when its handle is not in use, and so does a step on a
movable counter, which must be hosted for it. A hosted counter that has lost its handle does not
find it again, in no state that any steps or clients can lead to before the sequence of handles
comes round. It stays in its slot until it is let go, and there it is lost. -/
theorem lost_for_good (isOpen : Bool) (qs : List Step) :
    let s := (start .honest isOpen).reach qs
    (∀ (q : Call) (l : Lease) (d : DeadHandle), q.through? = some l →
      ((s.call (Script.query q)).result = .error d ↔
        d = ⟨l.handle⟩ ∧ ¬ s.registry.IsLive l.handle)) ∧
    (∀ (slot : Nat) (m : Movable) (q : MovableStep) (d : DeadHandle),
      s.movables[slot]? = some m →
      ((s.take (.movable slot q)).reply = .dead d ↔
        ∃ l, m = .hosted l ∧ q.callsHost = true ∧ d = ⟨l.handle⟩ ∧
          ¬ s.registry.IsLive l.handle)) ∧
    ∀ (i : Nat) (l : Lease), s.movables[i]? = some (.hosted l) → ¬ s.registry.IsLive l.handle →
      ∀ later : List Step, (start .honest isOpen).draws (qs ++ later) ≤ 2 ^ 64 →
        let s' := s.reach later
        ¬ s'.registry.IsLive l.handle ∧
        (s.Spares i later → s'.movables[i]? = some (.hosted l)) ∧
        (s'.movables[i]? = some (.hosted l) →
          s'.Lost i l ∧
          ∀ (limit : Amount) (p : Placement),
            (start .honest isOpen).draws (qs ++ (later ++ [.newMovable i limit p])) ≤ 2 ^ 64 →
            let made := s'.changed i (Movable.make limit p)
            made.reply = .done →
            s'.take (.newMovable i limit p) =
              ⟨made.session, .dead ⟨l.handle⟩, made.events ++ [.letGo]⟩) ∧
        ∀ (α : Type) (clients : List (Script Request.Answer α)) (schedule : List Nat),
          let p := Pool.start s'.registry (clients.map fun c => c.interpret Request.serve)
          (start .honest isOpen).draws (qs ++ later) + p.draws schedule ≤ 2 ^ 64 →
          ¬ (p.run schedule).registry.IsLive l.handle := by
  intro s
  have hs : s.Registered ((start .honest isOpen).draws qs) := by
    simpa using (registered_start isOpen).reach qs
  refine ⟨fun q l d hq => ?_, fun slot m q d hm =>
    reply_movable_eq_dead_iff hs.distortion hs.sound hm q d, fun i l hm hdead later hn => ?_⟩
  · rw [call, hs.distortion]
    exact Call.result_eq_error_iff hq
  intro s'
  rw [draws_append] at hn
  have hs' := hs.reach later
  have hrests := rests_reach hs.distortion (hs.rests_of_lost hm hdead) later
  have hdead' : ¬ s'.registry.IsLive l.handle := hrests.not_live_of_mem hn rfl
  refine ⟨hdead', movables_reach_of_lost hs hm hdead hn, fun hm' => ⟨?_, ?_⟩, ?_⟩
  · exact lost_of_dead hs'.distortion hm' hdead'
  · intro limit p hn' made hmade
    refine takeNewMovable_of_lost hs' hm' hdead' ?_ hmade
    rwa [draws_append, draws_append, ← Nat.add_assoc] at hn'
  · intro α clients schedule p hn'
    rw [draws_append] at hn'
    have hp : p.Careful (Registry.resting {l.handle}) _ := Pool.careful_start hrests fun c hc => by
      obtain ⟨client, -, rfl⟩ := List.mem_map.1 hc
      exact Script.careful_interpret Request.careful_serve client
    obtain ⟨idle, hrun, hkept, -⟩ := hp.run schedule
    exact hrun.drawn.not_live hn' none l.handle (hkept rfl)

/-- A hosted counter loses its handle to a forged lease, with another limit on it. Then four handles
are drawn by threads and one by a move, and the move of the lost counter asks for none. -/
theorem lost_for_good_of_forged_lease :
    let early : List Step :=
      [.newMovable 0 10#128 .hosted, .newMovable 1 5#128 .inPlace,
        .forgeLease 0 ⟨⟨0#64⟩, 99#128⟩, .lease 0 .destroy]
    let later : List Step :=
      [.registry (.loadCreate ⟨2, 2⟩ 3#128 true), .movable 0 .move, .movable 1 .move,
        .movable 0 (.add 1#128)]
    let l : Lease := ⟨⟨0#64⟩, 10#128⟩
    let s := (start .honest true).reach early
    let s' := s.reach later
    s.movables[0]? = some (.hosted l) ∧ ¬ s.registry.IsLive l.handle ∧
    (start .honest true).draws (early ++ later) = 6 ∧ s'.registry.next = ⟨6#64⟩ ∧
    (s.call (Script.query (.add ⟨⟨0#64⟩, 99#128⟩ 1#128))).result = .error ⟨⟨0#64⟩⟩ ∧
    s'.Lost 0 l := by
  intro early later l s s'
  have hm : s.movables[0]? = some (.hosted l) := by decide +kernel
  have hdead : ¬ s.registry.IsLive l.handle := by decide +kernel
  have hdraws : (start .honest true).draws (early ++ later) = 6 := by decide +kernel
  have hsteps : ∀ q ∈ later, q ≠ .movable 0 .drop ∧ q.makes? ≠ some 0 := by decide
  have hspares : s.Spares 0 later := by
    intro e he
    obtain ⟨hdrop, hmake⟩ := hsteps e.1 (List.of_mem_zip he).1
    exact ⟨hdrop, fun h => absurd h hmake⟩
  obtain ⟨hcall, -, hlost⟩ := lost_for_good true early
  obtain ⟨-, hkept, hstuck, -⟩ := hlost 0 l hm hdead later (by rw [hdraws]; decide)
  refine ⟨hm, hdead, hdraws, by decide +kernel, ?_, (hstuck (hkept hspares)).1⟩
  exact (hcall (.add ⟨⟨0#64⟩, 99#128⟩ 1#128) _ _ rfl).2 ⟨rfl, hdead⟩

end Session

end Abacus
