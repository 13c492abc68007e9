import Abacus.Proofs.DeadHandles
import Abacus.Proofs.Frame

/-!
# Who holds a handle

Hosted counters are held through leases: by the slots for leases, and by the movable counters that
are hosted. A new handle goes to one holder, with the limit of its counter on the lease
(`Distortion.Grants`), and every step passes on the handles of all holders but the one it is about
(`Session.passes_take`). Two invariants follow.

`Session.Labelled` is about the honest host, whatever leases are forged and given back: as long as
the handle of a hosted counter is in use, the limit of the counter in the table is the one on its
lease. `Session.Tended` is about every host, if no forged lease is given back
(`Session.ReturnsOwn`): then every holder has a handle that is in use, and no two have the same.
-/

namespace Abacus

/-! ## New handles -/

namespace Distortion

/-- A counter that the operation has hosted is under the handle that was drawn for it, and the lease
on it is written by the host. -/
def Grants (d : Distortion) (r : Registry) (o : Outcome (Except Refusal Movable)) : Prop :=
  ∀ l, o.result = .ok (.ok (.hosted l)) →
    l.handle = r.next ∧ 0 < o.events.countP Event.isIssue ∧
      ∃ limit, o.registry.limit? r.next = some limit ∧ l.limit = d.leaseLimit.getD limit

theorem limit?_insert (r : Registry) (h k : Handle) (c : Counter) :
    { r with next := k, table := r.table.insert h c }.limit? h = some c.limit := by
  rw [Registry.limit?, Registry.getElem?_table_insert, if_pos rfl]
  rfl

theorem grants_make (d : Distortion) (r : Registry) (limit : Amount) (p : Placement) :
    d.Grants r ((d.carryOut (Movable.make limit p)).run r) := by
  intro l hl
  cases p with
  | inPlace => cases hl
  | hosted =>
    cases hopen : r.isOpen with
    | false =>
      rw [d.run_make_of_closed hopen] at hl
      cases hl
    | true =>
      rw [d.run_make_of_open hopen] at hl ⊢
      cases hl
      exact ⟨rfl, Nat.one_pos, limit, limit?_insert r r.next r.next.succ (.fresh limit), rfl⟩

theorem grants_move (d : Distortion) (r : Registry) {m : Movable} (hm : m.Sound) :
    d.Grants r ((d.carryOut m.move).run r) := by
  intro l hl
  cases m with
  | hosted k =>
    cases hc : r.table[k.handle]? with
    | none =>
      rw [d.run_move_of_dead hc] at hl
      cases hl
    | some c =>
      rw [d.run_move_of_live hc] at hl
      split at hl <;> cases hl
  | inPlace c =>
    cases hopen : r.isOpen with
    | false =>
      rw [d.run_move_of_closed hopen] at hl
      cases hl
    | true =>
      cases hd : d.rejectsAdds with
      | true =>
        rw [d.run_move_of_rejected hd hopen] at hl
        cases hl
      | false =>
        rw [d.run_move_of_open hd hm hopen] at hl ⊢
        cases hl
        exact ⟨rfl, Nat.one_pos, c.limit, limit?_insert r r.next r.next.succ c, rfl⟩

end Distortion

/-! ## What a step does to the hosted counters -/

namespace Session

variable {s : Session} {q : Step} {i : Nat} {l : Lease} {n : Nat}

theorem hosted_of_lease {m : Movable} (hm : m.lease? = some l) : m = .hosted l := by
  cases m with
  | hosted k =>
    cases hm
    rfl
  | inPlace c => cases hm

theorem getElem?_movables_insert (s : Session) (slot : Nat) (m : Movable) :
    (s.movables.insert slot m)[slot]? = some m :=
  (Slots.getElem?_put s.movables slot slot (some m)).trans (if_pos rfl)

/-- The slot has the lease on a counter that was hosted by the step. -/
def Lodges (s : Session) (q : Step) (l : Lease) : Prop :=
  l.handle = s.registry.next ∧ 0 < s.drawsAt q ∧
    ∃ limit, (s.take q).session.registry.limit? s.registry.next = some limit ∧
      l.limit = s.distortion.leaseLimit.getD limit

/-- The slot has the lease that it had, and the counter under it has the limit that it had. -/
def Retains (s : Session) (q : Step) (i : Nat) (l : Lease) : Prop :=
  s.movables[i]? = some (.hosted l) ∧
    (s.take q).session.registry.limit? l.handle = s.registry.limit? l.handle

theorem retains_of_eq (hsame : (s.take q).session = s)
    (hl : (s.take q).session.movables[i]? = some (.hosted l)) : s.Retains q i l := by
  rw [Retains, hsame]
  exact ⟨hsame ▸ hl, rfl⟩

/-- An operation fails and leaves the slot as it was, or its result goes there. -/
theorem changed_cases (s : Session) (slot : Nat)
    (c : Script Call.Answer (Except Refusal Movable)) :
    (s.changed slot c).session.movables = s.movables ∨
      ∃ m, (s.call c).result = .ok (.ok m) ∧
        (s.changed slot c).session.movables = s.movables.insert slot m := by
  cases hresult : (s.call c).result with
  | error d => exact .inl (by simp only [changed, hresult])
  | ok a =>
    cases a with
    | error e => exact .inl (by simp only [changed, hresult])
    | ok m => exact .inr ⟨m, rfl, by simp only [changed, hresult]⟩

theorem call_make_cases (s : Session) (limit : Amount) (p : Placement) :
    (s.call (Movable.make limit p) = ⟨.ok (.error .closed), s.registry, [.turnedAway limit]⟩) ∨
      ∃ m, (s.call (Movable.make limit p)).result = .ok (.ok m) := by
  cases p with
  | inPlace => exact .inr ⟨_, rfl⟩
  | hosted =>
    cases hopen : s.registry.isOpen with
    | false => exact .inl (s.distortion.run_make_of_closed hopen limit)
    | true => exact .inr ⟨_, congrArg Outcome.result (s.distortion.run_make_of_open hopen limit)⟩

/-- The drop of the counter that was replaced comes after the new one was hosted, under another
handle. -/
theorem lodges_or_retains_newMovable (hr : s.registry.Rests ∅ n)
    (hbelow : s.movables.All (Movable.Below n)) {limit : Amount} {p : Placement}
    (hn : n + s.drawsAt (.newMovable i limit p) ≤ 2 ^ 64)
    (hl : (s.take (.newMovable i limit p)).session.movables[i]? = some (.hosted l)) :
    s.Lodges (.newMovable i limit p) l ∨ s.Retains (.newMovable i limit p) i l := by
  let made := s.changed i (Movable.make limit p)
  have htake : s.take (.newMovable i limit p) = s.takeNewMovable i limit p := rfl
  rcases s.call_make_cases limit p with hclosed | ⟨m, hresult⟩
  · -- At a closed gate nothing is made, so nothing is dropped either.
    have hmade : made = _ := changed_of_refused hclosed
    rcases s.takeNewMovable_cases i limit p with hsame | ⟨old, -, hdone, -⟩
    · exact .inr (retains_of_eq (congrArg Taken.session (hsame.trans hmade)) hl)
    · cases (congrArg Taken.reply hmade).symm.trans hdone
  · left
    have hput : made.session.movables = s.movables.insert i m := by
      simp only [made, changed, hresult]
    have hgrant : m = .hosted l → l.handle = s.registry.next ∧
        0 < made.events.countP Event.isIssue ∧
        ∃ limit, made.session.registry.limit? s.registry.next = some limit ∧
          l.limit = s.distortion.leaseLimit.getD limit := by
      rintro rfl
      rw [events_changed, registry_changed]
      exact s.distortion.grants_make s.registry limit p l hresult
    rcases s.takeNewMovable_cases i limit p with hmade | ⟨old, hold, -, hdropped⟩
    · rw [htake, hmade, hput, getElem?_movables_insert] at hl
      rw [Lodges, drawsAt_of_events rfl, htake, hmade]
      exact hgrant (Option.some.inj hl)
    · have hmovables : (s.takeNewMovable i limit p).session.movables = made.session.movables :=
        congrArg (fun t => t.session.movables) hdropped
      rw [htake, hmovables, hput, getElem?_movables_insert] at hl
      obtain ⟨hhandle, hdrawn, bound, hbound, hlimit⟩ := hgrant (Option.some.inj hl)
      let dropped := made.session.asked old.drop fun _ => Reply.done
      have hcount : s.drawsAt (.newMovable i limit p) =
          made.events.countP Event.isIssue + dropped.events.countP Event.isIssue := by
        rw [drawsAt_of_events rfl, htake, hdropped, List.countP_append]
      rw [hcount, ← Nat.add_assoc] at hn
      rw [Lodges, hcount, htake, hdropped]
      have hrests : made.session.registry.Rests ∅ (n + made.events.countP Event.isIssue) :=
        (s.distortion.isLaw_rests ∅).changed i (Movable.neutral_make limit p) n hr
      have hnext := hr.next_lt
      have hapart : old.Apart s.registry.next := fun k hk =>
        hr.ne_next (by omega) (hbelow i old hold k hk)
      have hpass := passes_asked (s := made.session) hrests.next_eq (by omega)
        (Movable.abides_drop fun _ : True => hapart) old.neutral_drop hn
      exact ⟨hhandle, Nat.lt_of_lt_of_le hdrawn (Nat.le_add_right _ _), bound,
        (hpass.same trivial).trans hbound, hlimit⟩

theorem lodges_or_retains_move (hs : s.Sound)
    (hl : (s.take (.movable i .move)).session.movables[i]? = some (.hosted l)) {m : Movable}
    (hm : s.movables[i]? = some m) :
    s.Lodges (.movable i .move) l ∨ s.Retains (.movable i .move) i l := by
  have htake := take_move_of_some hm
  cases m with
  | hosted k =>
    -- A hosted counter that does not move leaves all as it is, and one that moves is not hosted.
    cases hc : s.registry.table[k.handle]? with
    | none =>
      have hsame := htake.trans (changed_of_dead (s.distortion.run_move_of_dead hc))
      exact .inr (retains_of_eq (congrArg Taken.session hsame) hl)
    | some c =>
      have hcall : s.call (Movable.hosted k).move = _ := s.distortion.run_move_of_live hc
      split at hcall
      · have hsame := htake.trans (changed_of_refused hcall)
        exact .inr (retains_of_eq (congrArg Taken.session hsame) hl)
      · rw [htake, changed_of_ok i hcall, getElem?_movables_insert] at hl
        cases hl
  | inPlace c =>
    rcases s.changed_cases i (Movable.inPlace c).move with hsame | ⟨m, hresult, hput⟩
    · rw [htake, hsame, hm] at hl
      cases hl
    · rw [htake, hput, getElem?_movables_insert] at hl
      cases hl
      left
      rw [Lodges, drawsAt_of_events rfl, htake, events_changed, registry_changed]
      exact s.distortion.grants_move s.registry (hs.movables i _ hm) l hresult

theorem lodges_or_retains_movable (hs : s.Sound) (hr : s.registry.Rests ∅ n)
    (hbelow : s.movables.All (Movable.Below n)) {q : MovableStep}
    (hn : n + s.drawsAt (.movable i q) ≤ 2 ^ 64)
    (hl : (s.take (.movable i q)).session.movables[i]? = some (.hosted l)) :
    s.Lodges (.movable i q) l ∨ s.Retains (.movable i q) i l := by
  cases hm : s.movables[i]? with
  | none =>
    have hsame : (s.take (.movable i q)).session = s := by
      simp only [take, hm]
      rfl
    exact .inr (retains_of_eq hsame hl)
  | some m =>
    have htake := take_movable_of_some hm q
    -- A step that gives no handle back passes on that of the counter.
    have hpasses (hlease : m = .hosted l) (hq : s.surrenders? (.movable i q) = none) :
        s.Retains (.movable i q) i l := by
      subst hlease
      have hpass := passes_take hr.next_eq (hbelow i _ hm l rfl) hn
      exact ⟨hm, hpass.same (by simp [hq])⟩
    have hchanged {c : Script Call.Answer (Except Refusal Movable)}
        (hc : s.take (.movable i q) = s.changed i c)
        (hends : c.Ends fun r => ∀ m', r = .ok m' → m'.lease? = m.lease?) : m = .hosted l := by
      rcases s.changed_cases i c with hsame | ⟨m', hresult, hput⟩
      · rw [hc, hsame, hm] at hl
        exact Option.some.inj hl
      · rw [hc, hput, getElem?_movables_insert] at hl
        cases hl
        exact hosted_of_lease (hends.of_run_carryOut hresult _ rfl).symm
    cases q with
    | add x => exact .inr (hpasses (hchanged htake (m.ends_add_lease x)) rfl)
    | sub x => exact .inr (hpasses (hchanged htake (m.ends_sub_lease x)) rfl)
    | move => exact lodges_or_retains_move hs hl hm
    | drop =>
      have hgone : (s.movables.erase i)[i]? = none :=
        (Slots.getElem?_put s.movables i i none).trans (if_pos rfl)
      rw [htake] at hl
      cases hgone.symm.trans hl
    | read | limit | headroom | isHosted | placement | isServedHere | write block =>
      refine .inr (hpasses ?_ rfl)
      rw [htake] at hl
      exact Option.some.inj (hm.symm.trans hl)

theorem lodges_or_retains (hs : s.Sound) (hr : s.registry.Rests ∅ n)
    (hbelow : s.movables.All (Movable.Below n)) (hn : n + s.drawsAt q ≤ 2 ^ 64)
    (hq : q.movableSlot? = some i)
    (hl : (s.take q).session.movables[i]? = some (.hosted l)) : s.Lodges q l ∨ s.Retains q i l := by
  cases q with
  | newMovable slot limit p =>
    cases hq
    exact lodges_or_retains_newMovable hr hbelow hn hl
  | movable slot q =>
    cases hq
    exact lodges_or_retains_movable hs hr hbelow hn hl
  | _ => cases hq

/-! ## Limits at the honest host -/

/-- So many handles were drawn at an honest host, and the lease of a hosted counter whose handle is
in use has the limit of the counter. -/
structure Labelled (s : Session) (n : Nat) : Prop where
  registered : s.Registered n
  limit_eq : ∀ (i : Nat) (l : Lease) (limit : Amount), s.movables[i]? = some (.hosted l) →
    s.registry.limit? l.handle = some limit → l.limit = limit

theorem labelled_start (isOpen : Bool) : (start .honest isOpen).Labelled 0 where
  registered := registered_start isOpen
  limit_eq i l limit hl := by simp [start] at hl

theorem Labelled.take (hs : s.Labelled n) (hn : n + s.drawsAt q ≤ 2 ^ 64) :
    (s.take q).session.Labelled (n + s.drawsAt q) := by
  have hregistered := hs.registered
  refine ⟨hregistered.take q, fun i l limit hl hlimit => ?_⟩
  by_cases hq : q.movableSlot? = some i
  · rcases lodges_or_retains hregistered.sound hregistered.rests hregistered.below hn hq hl with
      ⟨hhandle, -, bound, hbound, hlabel⟩ | ⟨hm, hsame⟩
    · rw [hhandle, hbound] at hlimit
      cases hlimit
      rw [hlabel, hregistered.distortion]
      rfl
    · exact hs.limit_eq i l limit hm (hsame ▸ hlimit)
  · rw [movables_take_of_ne hq] at hl
    have hpass := passes_take hregistered.rests.next_eq (hregistered.below i _ hl l rfl) hn
    exact hs.limit_eq i l limit hl (hpass.old limit hlimit)

theorem Labelled.reach (hs : s.Labelled n) (qs : List Step) (hn : n + s.draws qs ≤ 2 ^ 64) :
    (s.reach qs).Labelled (n + s.draws qs) := by
  induction qs generalizing s n with
  | nil => exact hs
  | cons q qs ih =>
    rw [draws, ← Nat.add_assoc] at hn ⊢
    exact ih (hs.take (by omega)) hn

/-! ## Holders -/

end Session

/-- A slot that may hold the right to a hosted counter. -/
inductive Holder
  | lease (slot : Nat)
  | movable (slot : Nat)
  deriving DecidableEq

/-- The holder that a step is about. -/
def Step.holder? : Step → Option Holder
  | newLease slot _ => some (.lease slot)
  | forgeLease slot _ => some (.lease slot)
  | lease slot _ => some (.lease slot)
  | newMovable slot _ _ => some (.movable slot)
  | movable slot _ => some (.movable slot)
  | _ => none

/-- Whether a step forges a lease. -/
def Step.forges : Step → Bool
  | forgeLease .. => true
  | _ => false

theorem Step.holder_of_movableSlot {q : Step} {slot : Nat} (hq : q.movableSlot? = some slot) :
    q.holder? = some (.movable slot) := by
  cases q with
  | newMovable i limit p | movable i q =>
    cases hq
    rfl
  | _ => cases hq

namespace Session

variable {s : Session} {q : Step} {n : Nat} {forged : List Nat}

/-- The handle that a holder has a right to. Forged leases give none. -/
def handleOf (s : Session) (forged : List Nat) : Holder → Option Handle
  | .lease slot => if slot ∈ forged then none else s.leases[slot]?.map Lease.handle
  | .movable slot => s.handleAt slot

/-- The slots with forged leases after a step. -/
def forgedAfter (s : Session) (forged : List Nat) (q : Step) : List Nat :=
  match q, (s.take q).reply with
  | .forgeLease slot _, _ => slot :: forged
  | .newLease slot _, .lease _ => forged.filter (· ≠ slot)
  | _, _ => forged

/-- No forged lease is given back. -/
def ReturnsOwn (s : Session) (forged : List Nat) : List Step → Prop
  | [] => True
  | q :: qs =>
      (∀ slot ∈ forged, q ≠ .lease slot .destroy) ∧
        (s.take q).session.ReturnsOwn (s.forgedAfter forged q) qs

instance decidableReturnsOwn (s : Session) (forged : List Nat) :
    (qs : List Step) → Decidable (s.ReturnsOwn forged qs)
  | [] => inferInstanceAs (Decidable True)
  | q :: qs =>
      let _ := decidableReturnsOwn (s.take q).session (s.forgedAfter forged q) qs
      inferInstanceAs (Decidable (_ ∧ _))

/-- Where nothing was forged and nothing is, no forged lease is given back. -/
theorem returnsOwn_of_genuine {qs : List Step} (hqs : ∀ q ∈ qs, q.forges = false) :
    s.ReturnsOwn [] qs := by
  induction qs generalizing s with
  | nil => trivial
  | cons q qs ih =>
    have hnone : s.forgedAfter [] q = [] := by
      have hq := hqs q List.mem_cons_self
      unfold forgedAfter
      split
      · cases hq
      · rfl
      · rfl
    refine ⟨fun slot hslot => absurd hslot List.not_mem_nil, ?_⟩
    rw [hnone]
    exact ih fun q' hq' => hqs q' (List.mem_cons_of_mem q hq')

theorem leases_takeCounter (s : Session) (slot : Nat) (c : Counter) (q : CounterStep) :
    (s.takeCounter slot c q).session.leases = s.leases := by
  have hput (r : Except Refusal Counter) : (s.putCounter slot r).session.leases = s.leases := by
    cases r <;> rfl
  cases q with
  | add x | sub x => exact hput _
  | read | limit | headroom | copy target | equals other | write block | destroy => rfl

theorem leases_changed (s : Session) (slot : Nat)
    (c : Script Call.Answer (Except Refusal Movable)) :
    (s.changed slot c).session.leases = s.leases := by
  simp only [changed]
  split <;> rfl

theorem leases_takeNewMovable (s : Session) (slot : Nat) (limit : Amount) (p : Placement) :
    (s.takeNewMovable slot limit p).session.leases = s.leases := by
  have hmade := s.leases_changed slot (Movable.make limit p)
  rcases s.takeNewMovable_cases slot limit p with hsame | ⟨old, -, -, hdropped⟩
  · rw [hsame]
    exact hmade
  · rw [hdropped]
    exact hmade

theorem leases_takeMovable (s : Session) (slot : Nat) (m : Movable) (q : MovableStep) :
    (s.takeMovable slot m q).session.leases = s.leases := by
  cases q with
  | add x | sub x | move => exact s.leases_changed slot _
  | read | limit | headroom | isHosted | placement | isServedHere | write block | drop => rfl

theorem leases_take_of_ne {i : Nat} (hq : q.holder? ≠ some (.lease i)) :
    (s.take q).session.leases[i]? = s.leases[i]? := by
  have hput {slot : Nat} (hslot : slot ≠ i) (l : Option Lease) :
      (s.leases.put slot l)[i]? = s.leases[i]? :=
    (Slots.getElem?_put s.leases slot i l).trans (if_neg hslot)
  cases q with
  | newCounter slot limit => rfl
  | counter slot q =>
    simp only [take, onSlot]
    cases s.counters[slot]? with
    | none => rfl
    | some c => exact congrArg (·[i]?) (s.leases_takeCounter slot c q)
  | newLease slot limit =>
    have hslot : slot ≠ i := fun heq => hq (heq ▸ rfl)
    simp only [take, takeNewLease]
    split
    · rfl
    · rfl
    · exact hput hslot (some _)
  | forgeLease slot l =>
    have hslot : slot ≠ i := fun heq => hq (heq ▸ rfl)
    exact hput hslot (some l)
  | lease slot q =>
    have hslot : slot ≠ i := fun heq => hq (heq ▸ rfl)
    simp only [take, onSlot]
    cases s.leases[slot]? with
    | none => rfl
    | some l =>
      cases q with
      | destroy => exact hput hslot none
      | _ => rfl
  | newMovable slot limit p => exact congrArg (·[i]?) (s.leases_takeNewMovable slot limit p)
  | movable slot q =>
    simp only [take, onSlot]
    cases s.movables[slot]? with
    | none => rfl
    | some m => exact congrArg (·[i]?) (s.leases_takeMovable slot m q)
  | registry q => cases q <;> rfl

theorem mem_forgedAfter_of_ne {i : Nat} (hq : q.holder? ≠ some (.lease i)) :
    i ∈ s.forgedAfter forged q ↔ i ∈ forged := by
  unfold forgedAfter
  split
  · rename_i slot l
    have hslot : i ≠ slot := fun heq => hq (heq ▸ rfl)
    simp [hslot]
  · rename_i slot limit l hreply
    have hslot : i ≠ slot := fun heq => hq (heq ▸ rfl)
    simp [hslot]
  · rfl

/-- A step that is not about a holder leaves it its handle. -/
theorem handleOf_take_of_ne {o : Holder} (hq : q.holder? ≠ some o) :
    (s.take q).session.handleOf (s.forgedAfter forged q) o = s.handleOf forged o := by
  cases o with
  | lease slot => simp only [handleOf, leases_take_of_ne hq, mem_forgedAfter_of_ne hq]
  | movable slot =>
    have hslot : q.movableSlot? ≠ some slot := fun heq => hq (Step.holder_of_movableSlot heq)
    simp only [handleOf, handleAt, movables_take_of_ne hslot]

/-- So many handles were drawn, every holder has a handle that is in use, and no two have the
same. -/
structure Tended (s : Session) (forged : List Nat) (n : Nat) : Prop where
  sound : s.Sound
  rests : s.registry.Rests ∅ n
  live : ∀ o h, s.handleOf forged o = some h → s.registry.IsLive h
  apart : ∀ o o' h, s.handleOf forged o = some h → s.handleOf forged o' = some h → o = o'

theorem tended_start (d : Distortion) (isOpen : Bool) : (start d isOpen).Tended [] 0 := by
  have hnone (o : Holder) (h : Handle) : (start d isOpen).handleOf [] o ≠ some h := by
    cases o <;> simp [handleOf, handleAt, start]
  exact ⟨sound_start d isOpen, Registry.rests_empty isOpen, fun o h hh => absurd hh (hnone o h),
    fun o _ h hh => absurd hh (hnone o h)⟩

/-- What a step gives back belongs to the holder that it is about, if it is no forged lease. -/
theorem holder_of_surrenders {h : Handle} (hq : ∀ slot ∈ forged, q ≠ .lease slot .destroy)
    (hgone : s.surrenders? q = some h) :
    ∃ o, q.holder? = some o ∧ s.handleOf forged o = some h := by
  cases q with
  | newMovable slot limit p => exact ⟨_, rfl, hgone⟩
  | movable slot q =>
    cases q with
    | move | drop => exact ⟨_, rfl, hgone⟩
    | _ => cases hgone
  | lease slot q =>
    cases q with
    | destroy =>
      have hgenuine : slot ∉ forged := fun hslot => hq slot hslot rfl
      exact ⟨_, rfl, (if_neg hgenuine).trans hgone⟩
    | _ => cases hgone
  | _ => cases hgone

namespace Tended

variable {h : Handle}

theorem below (hs : s.Tended forged n) : s.movables.All (Movable.Below n) := by
  intro slot m hm l hl
  refine hs.rests.live_lt _ (hs.live (.movable slot) _ ?_)
  simp only [handleOf, handleAt, hm, Option.bind_some, Movable.handle?_of_lease hl]

theorem live_take (hs : s.Tended forged n) (hn : n + s.drawsAt q ≤ 2 ^ 64) {o : Holder}
    (hh : s.handleOf forged o = some h) (hkept : s.surrenders? q ≠ some h) :
    (s.take q).session.registry.IsLive h := by
  have hlive := hs.live o h hh
  have hpass := passes_take hs.rests.next_eq (hs.rests.live_lt h hlive) hn
  rw [Registry.isLive_iff_limit?] at hlive ⊢
  rwa [hpass.same hkept]

/-- A lease that a slot has after a step about it was there before, or it was handed out with a
handle that was not in use. -/
theorem lease_take (hs : s.Tended forged n) (hn : n + s.drawsAt q ≤ 2 ^ 64) {slot : Nat}
    (hq : q.holder? = some (.lease slot))
    (hh : (s.take q).session.handleOf (s.forgedAfter forged q) (.lease slot) = some h) :
    (s.take q).session.registry.IsLive h ∧
      (s.handleOf forged (.lease slot) = some h ∨ ¬ s.registry.IsLive h) := by
  have hsame (hsession : (s.take q).session = s) (hforged : s.forgedAfter forged q = forged) :
      (s.take q).session.registry.IsLive h ∧
        (s.handleOf forged (.lease slot) = some h ∨ ¬ s.registry.IsLive h) := by
    rw [hsession, hforged] at hh
    rw [hsession]
    exact ⟨hs.live _ h hh, .inl hh⟩
  cases q with
  | newLease i limit =>
    cases hq
    cases hopen : s.registry.isOpen with
    | false =>
      have htake : s.take (.newLease slot limit) = ⟨s, .refused .closed, [.turnedAway limit]⟩ := by
        simp only [take, takeNewLease, call, s.distortion.run_create_of_closed hopen]
      refine hsame (congrArg Taken.session htake) ?_
      simp only [forgedAfter, htake]
    | true =>
      let l := s.distortion.relabel ⟨s.registry.next, limit⟩
      have htake : s.take (.newLease slot limit) =
          ⟨{ s with
              registry := s.registry.host (.fresh limit), leases := s.leases.insert slot l },
            .lease l, [.issued s.registry.next limit]⟩ := by
        simp only [take, takeNewLease, call, s.distortion.run_create_of_open hopen]
        rfl
      have hforged : s.forgedAfter forged (.newLease slot limit) = forged.filter (· ≠ slot) := by
        simp only [forgedAfter, htake]
      have hput : (s.leases.insert slot l)[slot]? = some l :=
        (Slots.getElem?_put s.leases slot slot (some l)).trans (if_pos rfl)
      rw [hforged, htake] at hh
      simp only [handleOf, hput, List.mem_filter, ne_eq, not_true_eq_false, decide_false,
        Bool.false_eq_true, and_false, ↓reduceIte, Option.map_some, Option.some.injEq] at hh
      have hnext : s.registry.next = h := hh
      have hdrawn : s.drawsAt (.newLease slot limit) = 1 := by
        rw [drawsAt_of_events rfl, htake]
        rfl
      subst hnext
      rw [htake]
      exact ⟨(Registry.isLive_host ..).2 (.inl rfl), .inr (hs.rests.next_free (by omega))⟩
  | forgeLease i l =>
    cases hq
    simp [handleOf, forgedAfter] at hh
  | lease i q =>
    cases hq
    cases hl : s.leases[slot]? with
    | none =>
      refine hsame ?_ rfl
      simp only [take, hl]
      rfl
    | some l =>
      have htake : s.take (.lease slot q) = s.takeLease slot l q := by
        simp only [take, hl]
        rfl
      by_cases hdestroy : q = .destroy
      · subst hdestroy
        rw [htake] at hh
        simp [handleOf, takeLease, asked] at hh
      · have hleases : (s.take (.lease slot q)).session.leases = s.leases := by
          rw [htake]
          cases q with
          | destroy => exact absurd rfl hdestroy
          | _ => rfl
        have hnone : s.surrenders? (.lease slot q) = none := by
          cases q with
          | destroy => exact absurd rfl hdestroy
          | _ => rfl
        have hold : s.handleOf forged (.lease slot) = some h := by
          rw [handleOf, hleases] at hh
          exact hh
        exact ⟨hs.live_take hn hold (by simp [hnone]), .inl hold⟩
  | _ => cases hq

/-- The counter that a slot has after a step about it is hosted as it was before, or under a handle
that was not in use. -/
theorem movable_take (hs : s.Tended forged n) (hn : n + s.drawsAt q ≤ 2 ^ 64) {slot : Nat}
    (hq : q.movableSlot? = some slot) (hh : (s.take q).session.handleAt slot = some h) :
    (s.take q).session.registry.IsLive h ∧
      (s.handleOf forged (.movable slot) = some h ∨ ¬ s.registry.IsLive h) := by
  obtain ⟨m, hm, hlease⟩ := Option.bind_eq_some_iff.1 hh
  obtain ⟨l, hl, rfl⟩ := Option.map_eq_some_iff.1 hlease
  cases hosted_of_lease hl
  rcases lodges_or_retains hs.sound hs.rests hs.below hn hq hm with
    ⟨hhandle, hdrawn, limit, hlimit, -⟩ | ⟨hold, hsame⟩
  · rw [hhandle]
    exact ⟨Registry.isLive_iff_limit?.2 ⟨limit, hlimit⟩, .inr (hs.rests.next_free (by omega))⟩
  · have hbefore : s.handleOf forged (.movable slot) = some l.handle := by
      simp only [handleOf, handleAt, hold, Option.bind_some, Movable.handle?_hosted]
    refine ⟨?_, .inl hbefore⟩
    rw [Registry.isLive_iff_limit?, hsame, ← Registry.isLive_iff_limit?]
    exact hs.live _ _ hbefore

theorem holder_take (hs : s.Tended forged n) (hn : n + s.drawsAt q ≤ 2 ^ 64) {o : Holder}
    (hq : q.holder? = some o)
    (hh : (s.take q).session.handleOf (s.forgedAfter forged q) o = some h) :
    (s.take q).session.registry.IsLive h ∧
      (s.handleOf forged o = some h ∨ ¬ s.registry.IsLive h) := by
  cases o with
  | lease slot => exact hs.lease_take hn hq hh
  | movable slot =>
    refine hs.movable_take hn ?_ hh
    cases q with
    | newMovable i limit p | movable i q =>
      cases hq
      rfl
    | _ => cases hq

theorem take (hs : s.Tended forged n) (hn : n + s.drawsAt q ≤ 2 ^ 64)
    (hq : ∀ slot ∈ forged, q ≠ .lease slot .destroy) :
    (s.take q).session.Tended (s.forgedAfter forged q) (n + s.drawsAt q) := by
  have hothers {o : Holder} {h : Handle} (ho : q.holder? ≠ some o)
      (hh : (s.take q).session.handleOf (s.forgedAfter forged q) o = some h) :
      s.handleOf forged o = some h := by
    rwa [handleOf_take_of_ne ho] at hh
  -- The handle of a holder that the step is about is not that of another one before the step.
  have hmeet {o o' : Holder} {h : Handle} (ho : q.holder? = some o) (ho' : q.holder? ≠ some o')
      (hh : (s.take q).session.handleOf (s.forgedAfter forged q) o = some h)
      (hh' : (s.take q).session.handleOf (s.forgedAfter forged q) o' = some h) : o = o' := by
    rcases (hs.holder_take hn ho hh).2 with hold | hdead
    · exact hs.apart o o' h hold (hothers ho' hh')
    · exact absurd (hs.live o' h (hothers ho' hh')) hdead
  refine ⟨hs.sound.take q, rests_take rfl hs.rests q, fun o h hh => ?_, fun o o' h hh hh' => ?_⟩
  · by_cases ho : q.holder? = some o
    · exact (hs.holder_take hn ho hh).1
    · refine hs.live_take hn (hothers ho hh) fun hgone => ?_
      obtain ⟨o', ho', hh'⟩ := holder_of_surrenders hq hgone
      exact ho (hs.apart o' o h hh' (hothers ho hh) ▸ ho')
  · by_cases ho : q.holder? = some o
    · by_cases ho' : q.holder? = some o'
      · exact Option.some.inj (ho.symm.trans ho')
      · exact hmeet ho ho' hh hh'
    · by_cases ho' : q.holder? = some o'
      · exact (hmeet ho' ho hh' hh).symm
      · exact hs.apart o o' h (hothers ho hh) (hothers ho' hh')

/-- The slots with forged leases at the end do not matter: the counters are attached. -/
theorem reach (hs : s.Tended forged n) (qs : List Step) (hn : n + s.draws qs ≤ 2 ^ 64)
    (hqs : s.ReturnsOwn forged qs) : ∃ forged', (s.reach qs).Tended forged' (n + s.draws qs) := by
  induction qs generalizing s forged n with
  | nil => exact ⟨forged, hs⟩
  | cons q qs ih =>
    rw [draws, ← Nat.add_assoc] at hn ⊢
    exact ih (hs.take (by omega) hqs.1) hn hqs.2

theorem attached (hs : s.Tended forged n) {slot : Nat} {m : Movable}
    (hm : s.movables[slot]? = some m) : m.Attached s.registry := by
  cases m with
  | inPlace c => trivial
  | hosted l =>
    refine hs.live (.movable slot) l.handle ?_
    simp only [handleOf, handleAt, hm, Option.bind_some, Movable.handle?_hosted]

end Tended

end Session

end Abacus
