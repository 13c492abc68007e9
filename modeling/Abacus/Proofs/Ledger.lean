import Abacus.Proofs.Chore

/-!
# Ledgers

A ledger does the errands of an owner without a registry: it has a bounded counter of its own for
every lease and every movable counter, and no other owner comes near it. All that it takes from
outside is what nobody can know beforehand: how the owner finds the gate when it asks for a
handle, and which handle it is given. These are the questions of the ledger's scripts.

`Desk.Matches` ties the desk of an owner to a ledger, and `Desk.matches_perform` is the
simulation: with what the owner sees on the way for answers, the ledger gives the replies that the
owner gets. The simulation is shown for one counter with its own part of the share; the frame rule
for secure scripts extends it to the desk.
-/

namespace Abacus

namespace Script

variable {Q R : Type} {A : Q → Type} {B : R → Type} {α β : Type}

/-- The script ends with `a` if its questions are answered by `w`, and these are all its
questions. -/
def Follows : Script A α → List ((q : Q) × A q) → α → Prop
  | done b, w, a => w = [] ∧ b = a
  | report _ rest, w, a => rest.Follows w a
  | ask q next, w, a => ∃ x w', w = ⟨q, x⟩ :: w' ∧ (next x).Follows w' a

theorem follows_bind {s : Script A α} {f : α → Script A β} {w : List ((q : Q) × A q)} {b : β} :
    (s.bind f).Follows w b ↔ ∃ w₁ w₂ a, w = w₁ ++ w₂ ∧ s.Follows w₁ a ∧ (f a).Follows w₂ b := by
  induction s generalizing w with
  | done a =>
    constructor
    · intro h
      exact ⟨[], w, a, rfl, ⟨rfl, rfl⟩, h⟩
    · rintro ⟨w₁, w₂, a', rfl, ⟨rfl, rfl⟩, h⟩
      exact h
  | report e rest ih => exact ih
  | ask q next ih =>
    constructor
    · rintro ⟨x, w', rfl, h⟩
      obtain ⟨w₁, w₂, a, rfl, hs, hf⟩ := (ih x).1 h
      exact ⟨⟨q, x⟩ :: w₁, w₂, a, rfl, ⟨x, w₁, rfl, hs⟩, hf⟩
    · rintro ⟨w₁, w₂, a, rfl, ⟨x, w', rfl, hs⟩, hf⟩
      exact ⟨x, w' ++ w₂, rfl, (ih x).2 ⟨w', w₂, a, rfl, hs, hf⟩⟩

theorem Follows.bind {s : Script A α} {f : α → Script A β} {w w' : List ((q : Q) × A q)} {a : α}
    {b : β} (hs : s.Follows w a) (hf : (f a).Follows w' b) : (s.bind f).Follows (w ++ w') b :=
  follows_bind.2 ⟨w, w', a, rfl, hs, hf⟩

end Script

/-! ## The errands of an owner without a registry -/

/-- A movable counter as its owner sees it. -/
structure Account where
  placement : Placement
  counter : Counter

/-- The owner asks for a handle and is given one if it finds the gate open. -/
def Outside.admission : Script Outside.Answer (Except Refusal Handle) :=
  .ask .gate fun
    | false => .done (.error .closed)
    | true => .ask .handle fun h => .done (.ok h)

namespace Account

/-- A new account. One that is to be hosted needs a handle. -/
def fresh (limit : Amount) : Placement → Script Outside.Answer (Except Refusal Account)
  | .inPlace => .done (.ok ⟨.inPlace, .fresh limit⟩)
  | .hosted => Outside.admission.bind fun r => .done (r.map fun _ => ⟨.hosted, .fresh limit⟩)

def add (a : Account) (x : Amount) : Except Refusal Account :=
  (a.counter.add x).map fun c => { a with counter := c }

def sub (a : Account) (x : Amount) : Except Refusal Account :=
  (a.counter.sub x).map fun c => { a with counter := c }

/-- A move changes the placement and nothing else. It is refused if a fresh account at the other
place would be. -/
def move (a : Account) : Script Outside.Answer (Except Refusal Account) :=
  (fresh a.counter.limit a.placement.flip).bind fun r =>
    .done (r.map fun _ => { a with placement := a.placement.flip })

def layout (a : Account) : Text.Layout :=
  .record "SwitchableCounter"
    [("representation", .atom a.placement.name),
      ("value", .atom a.counter.value.text),
      ("limit", .atom a.counter.limit.text)]

/-- Takes a step on the account. It is gone when it was dropped. -/
def perform (a : Account) : MovableStep → Script Outside.Answer (Option Account × Reply)
  | .add x => .done (Reply.keep a (a.add x))
  | .sub x => .done (Reply.keep a (a.sub x))
  | .move => a.move.bind fun r => .done (Reply.keep a r)
  | .read => .done (some a, .amount a.counter.value)
  | .limit => .done (some a, .amount a.counter.limit)
  | .headroom => .done (some a, .amount a.counter.headroom)
  | .isHosted => .done (some a, .flag a.placement.isHosted)
  | .placement => .done (some a, .placement a.placement)
  | .isServedHere => .done (some a, .flag true)
  | .write block => .done (some a, Session.written block a.layout)
  | .drop => .done (none, .done)

theorem eq_of_follows_fresh {limit : Amount} {p : Placement} {w : List Sight} {a : Account}
    (h : (fresh limit p).Follows w (.ok a)) : a = ⟨p, .fresh limit⟩ := by
  cases p with
  | inPlace =>
    obtain ⟨-, h⟩ := h
    exact (Except.ok.inj h).symm
  | hosted =>
    obtain ⟨isOpen, w', rfl, h⟩ := h
    cases isOpen with
    | false =>
      obtain ⟨-, h⟩ := h
      cases h
    | true =>
      obtain ⟨k, w'', rfl, -, h⟩ := h
      exact (Except.ok.inj h).symm

/-- A move is accepted if it is to the owner's own place or the gate was seen open. -/
theorem follows_move_iff {a : Account} {w : List Sight} {r : Except Refusal Account} :
    a.move.Follows w r ↔
      (a.placement = .hosted ∧ w = [] ∧ r = .ok ⟨.inPlace, a.counter⟩) ∨
      (a.placement = .inPlace ∧ w = [⟨.gate, false⟩] ∧ r = .error .closed) ∨
      (a.placement = .inPlace ∧
        ∃ h, w = [⟨.gate, true⟩, ⟨.handle, h⟩] ∧ r = .ok ⟨.hosted, a.counter⟩) := by
  obtain ⟨p, c⟩ := a
  cases p with
  | hosted => simp [move, fresh, Placement.flip, Script.bind, Script.Follows, Except.map, eq_comm]
  | inPlace =>
    constructor
    · rintro ⟨isOpen, w', rfl, h⟩
      cases isOpen with
      | false =>
        obtain ⟨rfl, rfl⟩ := h
        exact .inr (.inl ⟨rfl, rfl, rfl⟩)
      | true =>
        obtain ⟨k, w'', rfl, rfl, rfl⟩ := h
        exact .inr (.inr ⟨rfl, k, rfl, rfl⟩)
    · rintro (⟨h, -⟩ | ⟨-, rfl, rfl⟩ | ⟨-, k, rfl, rfl⟩)
      · cases h
      · exact ⟨false, [], rfl, rfl, rfl⟩
      · exact ⟨true, _, rfl, k, [], rfl, rfl, rfl⟩

end Account

namespace Counter

/-- The headroom of a bounded counter is never cut off at zero. -/
theorem Bounded.satSub_limit {c : Counter} (h : c.Bounded) :
    c.limit.satSub c.value = c.headroom := by
  apply BitVec.eq_of_toNat_eq
  rw [Amount.toNat_satSub, h.toNat_headroom]

/-- Takes a step on the counter that stands for a lease. -/
def perform (c : Counter) : LeaseChore → Option Counter × Reply
  | .add x => Reply.keep c (c.add x)
  | .sub x => Reply.keep c (c.sub x)
  | .read => (some c, .amount c.value)
  | .destroy => (none, .done)

end Counter

/-- The counters of one owner. -/
structure Ledger where
  leases : Slots Counter
  movables : Slots Account

namespace Ledger

def empty : Ledger := ⟨∅, ∅⟩

/-- Does an errand; ends with the ledger as it is left and the reply. -/
def perform (l : Ledger) : Errand → Script Outside.Answer (Ledger × Reply)
  | .setGate _ => .done (l, .done)
  | .chore (.newMovable slot limit p) =>
      (Account.fresh limit p).bind fun
        | .error e => .done (l, .refused e)
        | .ok a => .done ({ l with movables := l.movables.put slot (some a) }, .done)
  | .chore (.movable slot step) =>
      match l.movables[slot]? with
      | none => .done (l, .vacant)
      | some a =>
          (a.perform step).bind fun p =>
            .done ({ l with movables := l.movables.put slot p.1 }, p.2)
  | .chore (.newLease slot limit) =>
      Outside.admission.bind fun
        | .error e => .done (l, .refused e)
        | .ok h =>
            .done ({ l with leases := l.leases.put slot (some (.fresh limit)) }, .lease ⟨h, limit⟩)
  | .chore (.lease slot step) =>
      match l.leases[slot]? with
      | none => .done (l, .vacant)
      | some c =>
          .done ({ l with leases := l.leases.put slot (c.perform step).1 }, (c.perform step).2)

end Ledger

open Distortion

/-! ## One counter with its own part of a share -/

namespace Movable

/-- The counter stands for the account, and `o` is its part of the registry. -/
inductive Holds : Movable → Account → Share → Prop
  | hosted (l : Lease) (c : Counter) (hlimit : c.limit = l.limit) (hc : c.Bounded) :
      Holds (.hosted l) ⟨.hosted, c⟩ (Share.empty.set l.handle (.placed c))
  | inPlace (c : Counter) (hc : c.Bounded) : Holds (.inPlace c) ⟨.inPlace, c⟩ .empty

/-- How an operation that may change the counter ends with the counter and with the account; `o` is
the part of the registry before it. -/
inductive Settles (o : Share) : Except Refusal Movable → Except Refusal Account → Share → Prop
  | ok {m : Movable} {a : Account} {o' : Share} (h : Holds m a o') : Settles o (.ok m) (.ok a) o'
  | error (e : Refusal) : Settles o (.error e) (.error e) o

/-- Like `Holds` for a counter that may be gone. -/
inductive Kept : Option Movable → Option Account → Share → Prop
  | none : Kept none none .empty
  | some {m : Movable} {a : Account} {o : Share} (h : Holds m a o) : Kept (some m) (some a) o

variable {m : Movable} {a : Account} {o : Share}

theorem Holds.limit_eq (h : Holds m a o) : m.limit = a.counter.limit := by
  cases h with
  | hosted l c hlimit hc => exact hlimit.symm
  | inPlace c hc => rfl

theorem Holds.placement_eq (h : Holds m a o) : m.placement = a.placement := by
  cases h <;> rfl

theorem Holds.bounded (h : Holds m a o) : a.counter.Bounded := by
  cases h <;> assumption

theorem holds_read (h : Holds m a o) :
    (honest.carryOut m.read).Secure o fun v seen o' =>
      v = a.counter.value ∧ seen = [] ∧ o' = o := by
  cases h with
  | inPlace c hc => exact ⟨rfl, rfl, rfl⟩
  | hosted l c hlimit hc =>
    refine secure_carryOut_ask.2 (secure_serve_read.2 ⟨c, Share.set_self _ _ _, ?_⟩)
    exact ⟨Amount.satAdd_zero c.value, rfl, rfl⟩

section Change

variable {c : Counter} {change : Except Refusal Counter}
  (hchange : ∀ c', change = .ok c' → c'.limit = c.limit ∧ c'.Bounded)

include hchange

theorem settles_inPlace :
    Settles .empty (change.map Movable.inPlace) (change.map fun c' => ⟨.inPlace, c'⟩) .empty := by
  cases change with
  | error e => exact .error e
  | ok c' => exact .ok (.inPlace c' (hchange c' rfl).2)

theorem settles_hosted {l : Lease} (hlimit : c.limit = l.limit) :
    let o := Share.empty.set l.handle (.placed c)
    Settles o ((o.put l.handle change).1.map fun _ => .hosted l)
      (change.map fun c' => ⟨.hosted, c'⟩) (o.put l.handle change).2 := by
  intro o
  cases change with
  | error e => exact .error e
  | ok c' =>
    obtain ⟨hl, hc'⟩ := hchange c' rfl
    refine .ok ?_
    rw [Share.put, Share.set_set]
    exact .hosted l c' (hl.trans hlimit) hc'

theorem kept_hosted {l : Lease} (hlimit : c.limit = l.limit) (hc : c.Bounded) :
    let o := Share.empty.set l.handle (.placed c)
    (Reply.keep c change).2 = .ofAccepted (o.put l.handle change).1 ∧
      Kept (some (.hosted l)) ((Reply.keep c change).1.map fun c' => ⟨.hosted, c'⟩)
        (o.put l.handle change).2 := by
  intro o
  cases change with
  | error e => exact ⟨rfl, .some (.hosted l c hlimit hc)⟩
  | ok c' =>
    obtain ⟨hl, hc'⟩ := hchange c' rfl
    refine ⟨rfl, .some ?_⟩
    rw [Share.put, Share.set_set]
    exact .hosted l c' (hl.trans hlimit) hc'

end Change

theorem holds_add (h : Holds m a o) (x : Amount) :
    (honest.carryOut (m.add x)).Secure o fun r seen o' =>
      seen = [] ∧ Settles o r (a.add x) o' := by
  have hchange (c' : Counter) (hadd : a.counter.add x = .ok c') :
      c'.limit = a.counter.limit ∧ c'.Bounded :=
    ⟨Counter.limit_of_add hadd, h.bounded.add hadd⟩
  cases h with
  | inPlace c hc => exact ⟨rfl, settles_inPlace hchange⟩
  | hosted l c hlimit hc =>
    refine secure_carryOut_ask.2 (secure_serve_add.2 ⟨c, Share.set_self _ _ _, rfl, ?_⟩)
    exact settles_hosted hchange hlimit

theorem holds_sub (h : Holds m a o) (x : Amount) :
    (honest.carryOut (m.sub x)).Secure o fun r seen o' =>
      seen = [] ∧ Settles o r (a.sub x) o' := by
  have hchange (c' : Counter) (hsub : a.counter.sub x = .ok c') :
      c'.limit = a.counter.limit ∧ c'.Bounded :=
    ⟨Counter.limit_of_sub hsub, h.bounded.sub hsub⟩
  cases h with
  | inPlace c hc => exact ⟨rfl, settles_inPlace hchange⟩
  | hosted l c hlimit hc =>
    refine secure_carryOut_ask.2 (secure_serve_sub.2 ⟨c, Share.set_self _ _ _, rfl, ?_⟩)
    exact settles_hosted hchange hlimit

theorem holds_fresh (limit : Amount) (p : Placement) :
    (honest.carryOut (fresh limit p)).Secure .empty fun r seen o' =>
      ∃ r', (Account.fresh limit p).Follows seen r' ∧ Settles .empty r r' o' := by
  have hbounded := Counter.bounded_fresh limit
  cases p with
  | inPlace => exact ⟨_, ⟨rfl, rfl⟩, .ok (.inPlace _ hbounded)⟩
  | hosted =>
    refine secure_carryOut_ask.2 (secure_serve_create.2 ⟨?_, fun h _ => ?_⟩)
    · exact ⟨_, ⟨false, [], rfl, rfl, rfl⟩, .error .closed⟩
    · exact ⟨_, ⟨true, _, rfl, h, [], rfl, rfl, rfl⟩, .ok (.hosted ⟨h, limit⟩ _ rfl hbounded)⟩

theorem holds_drop (h : Holds m a o) :
    (honest.carryOut m.drop).Secure o fun _ seen o' => seen = [] ∧ o' = .empty := by
  cases h with
  | inPlace c hc => exact ⟨rfl, rfl⟩
  | hosted l c hlimit hc =>
    refine secure_carryOut_ask.2 (secure_serve_destroy.2 ⟨c, Share.set_self _ _ _, rfl, ?_⟩)
    exact Share.set_without rfl _

/-- The value fits into the fresh counter, so a move changes the placement unless the gate is
closed. -/
theorem holds_move (h : Holds m a o) :
    (honest.carryOut m.move).Secure o fun r seen o' =>
      ∃ r', a.move.Follows seen r' ∧ Settles o r r' o' := by
  refine secure_carryOut_bind (holds_read h) fun value seen o₁ hread => ?_
  obtain ⟨rfl, rfl, rfl⟩ := hread
  cases h with
  | hosted l c hlimit hc =>
    have hfit : (Counter.fresh l.limit).add c.value = .ok c := hlimit ▸ hc.add_fresh
    simp only [limit, placement, Placement.flip, fresh, add, Script.pure_eq, Script.bind_eq,
      Script.bind, hfit, Except.map]
    refine secure_carryOut_ask.2 (secure_serve_destroy.2 ⟨c, Share.set_self _ _ _, ?_⟩)
    rw [Share.set_without rfl]
    exact ⟨_, ⟨rfl, rfl⟩, .ok (.inPlace c hc)⟩
  | inPlace c hc =>
    refine secure_carryOut_bind (holds_fresh c.limit .hosted) fun r seen o₂ hfresh => ?_
    obtain ⟨r', hseen, hs⟩ := hfresh
    cases hs with
    | error e => exact ⟨_, hseen.bind ⟨rfl, rfl⟩, .error e⟩
    | ok htarget =>
      obtain rfl := Account.eq_of_follows_fresh hseen
      refine secure_carryOut_bind (holds_add htarget c.value) fun filled seen o₃ hadd => ?_
      obtain ⟨rfl, hs⟩ := hadd
      rw [Account.add, hc.add_fresh] at hs
      cases hs with
      | ok hmoved => exact ⟨_, hseen.bind ⟨rfl, rfl⟩, .ok hmoved⟩

theorem holds_make (limit : Amount) (p : Placement) :
    (honest.carryOut (make limit p)).Secure .empty fun r seen o' =>
      ∃ r', (Account.fresh limit p).Follows seen r' ∧ Settles .empty r r' o' := by
  refine secure_carryOut_bind (holds_fresh limit p) fun r seen o' hr => ?_
  rw [← List.append_nil seen] at hr
  cases r <;> exact hr

theorem Settles.kept {r : Except Refusal Movable} {r' : Except Refusal Account} {o' : Share}
    (hs : Settles o r r' o') (h : Holds m a o) :
    (Reply.keep m r).2 = (Reply.keep a r').2 ∧ Kept (Reply.keep m r).1 (Reply.keep a r').1 o' := by
  cases hs with
  | ok h' => exact ⟨rfl, .some h'⟩
  | error e => exact ⟨rfl, .some h⟩

theorem holds_perform (h : Holds m a o) (q : MovableStep) :
    (honest.carryOut (m.perform q)).Secure o fun p seen o' =>
      ∃ a', (a.perform q).Follows seen (a', p.2) ∧ Kept p.1 a' o' := by
  have hasked {β : Type} (f : Amount → β) :
      (honest.carryOut (m.read.bind fun v => .done (f v))).Secure o fun b seen o' =>
        b = f a.counter.value ∧ seen = [] ∧ o' = o := by
    refine secure_carryOut_bind (holds_read h) fun v seen o' hv => ?_
    obtain ⟨rfl, rfl, rfl⟩ := hv
    exact ⟨rfl, rfl, rfl⟩
  cases q with
  | add x =>
    refine secure_carryOut_bind (holds_add h x) fun r seen o' hr => ?_
    obtain ⟨rfl, hs⟩ := hr
    obtain ⟨hreply, hkept⟩ := hs.kept h
    exact ⟨_, ⟨rfl, Prod.ext rfl hreply.symm⟩, hkept⟩
  | sub x =>
    refine secure_carryOut_bind (holds_sub h x) fun r seen o' hr => ?_
    obtain ⟨rfl, hs⟩ := hr
    obtain ⟨hreply, hkept⟩ := hs.kept h
    exact ⟨_, ⟨rfl, Prod.ext rfl hreply.symm⟩, hkept⟩
  | move =>
    refine secure_carryOut_bind (holds_move h) fun r seen o' hr => ?_
    obtain ⟨r', hfollows, hs⟩ := hr
    obtain ⟨hreply, hkept⟩ := hs.kept h
    exact ⟨_, hfollows.bind ⟨rfl, Prod.ext rfl hreply.symm⟩, hkept⟩
  | read =>
    refine secure_carryOut_bind (holds_read h) fun v seen o' hv => ?_
    obtain ⟨rfl, rfl, rfl⟩ := hv
    exact ⟨_, ⟨rfl, rfl⟩, .some h⟩
  | headroom =>
    refine secure_carryOut_bind (hasked m.limit.satSub) fun v seen o' hv => ?_
    obtain ⟨rfl, rfl, rfl⟩ := hv
    refine ⟨_, ⟨rfl, ?_⟩, .some h⟩
    rw [h.limit_eq, h.bounded.satSub_limit]
  | write block =>
    refine secure_carryOut_bind (hasked _) fun text seen o' ht => ?_
    obtain ⟨rfl, rfl, rfl⟩ := ht
    refine ⟨_, ⟨rfl, ?_⟩, .some h⟩
    rw [h.limit_eq, h.placement_eq]
    rfl
  | drop =>
    refine secure_carryOut_bind (holds_drop h) fun _ seen o' hd => ?_
    obtain ⟨rfl, rfl⟩ := hd
    exact ⟨_, ⟨rfl, rfl⟩, .none⟩
  | limit => exact ⟨_, ⟨rfl, by rw [h.limit_eq]⟩, .some h⟩
  | isHosted => exact ⟨_, ⟨rfl, by rw [h.placement_eq]⟩, .some h⟩
  | placement => exact ⟨_, ⟨rfl, by rw [h.placement_eq]⟩, .some h⟩
  | isServedHere => exact ⟨_, ⟨rfl, rfl⟩, .some h⟩

/-- A lease stands for a counter as a hosted movable counter does. -/
theorem holds_lease {l : Lease} {c : Counter} (h : Holds (.hosted l) ⟨.hosted, c⟩ o)
    (q : LeaseChore) :
    (honest.carryOut (l.perform q)).Secure o fun p seen o' =>
      seen = [] ∧ (c.perform q).2 = p.2 ∧
        Kept (p.1.map .hosted) ((c.perform q).1.map fun c => ⟨.hosted, c⟩) o' := by
  obtain ⟨_, _, hlimit, hc⟩ | _ := h
  have hown := Share.set_self Share.empty l.handle (.placed c)
  cases q with
  | add x =>
    refine secure_carryOut_ask.2 (secure_serve_add.2 ⟨c, hown, rfl, ?_⟩)
    exact kept_hosted (fun c' h => ⟨Counter.limit_of_add h, hc.add h⟩) hlimit hc
  | sub x =>
    refine secure_carryOut_ask.2 (secure_serve_sub.2 ⟨c, hown, rfl, ?_⟩)
    exact kept_hosted (fun c' h => ⟨Counter.limit_of_sub h, hc.sub h⟩) hlimit hc
  | read =>
    refine secure_carryOut_ask.2 (secure_serve_read.2 ⟨c, hown, rfl, ?_, ?_⟩)
    · exact congrArg Reply.amount (Amount.satAdd_zero c.value).symm
    · exact .some (.hosted l c hlimit hc)
  | destroy =>
    refine secure_carryOut_ask.2 (secure_serve_destroy.2 ⟨c, hown, rfl, rfl, ?_⟩)
    rw [Share.set_without rfl]
    exact .none

end Movable

/-! ## A desk -/

namespace Slots

variable {α β : Type} (g : β → α) (s : Slots α) (t : Slots β)

/-- Two tables of slots as one. -/
def both : Nat ⊕ Nat → Option α
  | .inl slot => s[slot]?
  | .inr slot => t[slot]?.map g

theorem both_put_left (slot : Nat) (a : Option α) :
    both g (s.put slot a) t = Function.update (both g s t) (.inl slot) a := by
  funext i
  rcases i with i | i
  · by_cases h : i = slot
    · subst h
      simp [both, getElem?_put]
    · simp [both, getElem?_put, Ne.symm h, h]
  · rfl

theorem both_put_right (slot : Nat) (b : Option β) :
    both g s (t.put slot b) = Function.update (both g s t) (.inr slot) (b.map g) := by
  funext i
  rcases i with i | i
  · rfl
  · by_cases h : i = slot
    · subst h
      simp [both, getElem?_put]
    · simp [both, getElem?_put, Ne.symm h, h]

end Slots

/-- What the slots hold, a lease as a counter that is hosted under it. -/
def Desk.entries (k : Desk) : Nat ⊕ Nat → Option Movable :=
  Slots.both .hosted k.movables k.leases

def Ledger.entries (l : Ledger) : Nat ⊕ Nat → Option Account :=
  Slots.both (fun c => ⟨.hosted, c⟩) l.movables l.leases

namespace Desk

open Movable

/-- The desk stands for the ledger: each slot has a part of the share `o` for its own. -/
structure Matches (part : Nat ⊕ Nat → Share) (o : Share) (k : Desk) (l : Ledger) : Prop where
  kept : ∀ i, Kept (k.entries i) (l.entries i) (part i)
  apart : ∀ i j, i ≠ j → (part i).Apart (part j)
  within : ∀ i h s, part i h = some s → o h = some s

variable {part : Nat ⊕ Nat → Share} {o : Share} {k : Desk} {l : Ledger}

theorem matches_empty : Matches (fun _ => .empty) .empty .empty .empty where
  kept i := by
    rcases i with i | i
    · simpa [entries, Ledger.entries, Slots.both, Desk.empty, Ledger.empty] using Kept.none
    · simpa [entries, Ledger.entries, Slots.both, Desk.empty, Ledger.empty] using Kept.none
  apart i j _ := Share.empty_apart _
  within i h s hs := hs

/-- The part of one slot and the rest of the share, which has the parts of the others. -/
theorem Matches.split (hm : k.Matches part o l) (i : Nat ⊕ Nat) :
    ∃ f : Share, o = (part i).join f ∧ (part i).Apart f ∧
      ∀ j, j ≠ i → ∀ h s, part j h = some s → f h = some s := by
  refine ⟨fun h => if part i h = none then o h else none, ?_, fun h => ?_, fun j hj h s hs => ?_⟩
  · funext h
    cases hp : part i h with
    | none => simp [Share.join_of_none hp, hp]
    | some s => rw [Share.join_of_some hp, hm.within i h s hp]
  · cases hp : part i h with
    | none => exact .inl rfl
    | some s => exact .inr (by simp [hp])
  · have hp : part i h = none := (hm.apart j i hj).eq_none hs
    simpa [hp] using hm.within j h s hs

/-- One slot of desk and ledger is filled anew, and its part of the share is `p`. -/
theorem Matches.put (hm : k.Matches part o l) {i : Nat ⊕ Nat} {p g : Share} {k' : Desk}
    {l' : Ledger} {m : Option Movable} {a : Option Account}
    (hg : ∀ j, j ≠ i → ∀ h s, part j h = some s → g h = some s) (hp : p.Apart g)
    (hkept : Kept m a p) (hk : k'.entries = Function.update k.entries i m)
    (hl : l'.entries = Function.update l.entries i a) :
    k'.Matches (Function.update part i p) (p.join g) l' := by
  have hother (j : Nat ⊕ Nat) (hj : j ≠ i) : p.Apart (part j) :=
    Share.apart_iff.2 fun h s hs => Share.apart_iff.1 hp h s (hg j hj h s hs)
  refine ⟨fun j => ?_, Share.apart_update hm.apart hother, fun j h s hs => ?_⟩
  · rw [hk, hl]
    by_cases hj : j = i
    · subst hj
      simpa using hkept
    · simpa [Function.update_of_ne hj] using hm.kept j
  · by_cases hj : j = i
    · subst hj
      rw [Function.update_self] at hs
      exact Share.join_of_some hs
    · rw [Function.update_of_ne hj] at hs
      have hfree : p h = none := (hother j hj).symm.eq_none hs
      rw [Share.join_of_none hfree]
      exact hg j hj h s hs

/-! ## The simulation -/

/-- The reply to an errand is the one that the ledger gives, and the desk that is left stands for
the ledger that is left. -/
def Mirrors (l : Ledger) (q : Errand) (p : Desk × Reply) (seen : List Sight) (o : Share) : Prop :=
  ∃ l' part, (l.perform q).Follows seen (l', p.2) ∧ p.1.Matches part o l'

theorem matches_movable (hm : k.Matches part o l) (slot : Nat) (q : MovableStep) :
    (k.perform honest (.chore (.movable slot q))).Secure o
      (Mirrors l (.chore (.movable slot q))) := by
  have hkept : Kept k.movables[slot]? l.movables[slot]? (part (.inl slot)) := hm.kept (.inl slot)
  obtain ⟨f, ho, hapart, hothers⟩ := hm.split (.inl slot)
  rw [perform]
  generalize hmov : k.movables[slot]? = m at hkept
  generalize hacc : l.movables[slot]? = a at hkept
  generalize part (.inl slot) = own at hkept ho hapart
  cases hkept with
  | none =>
    rw [script_movable_of_none hmov]
    refine ⟨l, part, ?_, hm⟩
    simp only [Ledger.perform, hacc]
    exact ⟨rfl, rfl⟩
  | @some m a _ hold =>
    rw [script_movable_of_some hmov, ho]
    refine secure_carryOut_bind ((holds_perform hold q).frame hapart) fun p seen o' hp => ?_
    obtain ⟨p₁, rfl, hapart', a', hfollows, hkept⟩ := hp
    refine ⟨⟨l.leases, l.movables.put slot a'⟩, _, ?_, hm.put hothers hapart' hkept ?_ ?_⟩
    · simp only [Ledger.perform, hacc]
      exact hfollows.bind ⟨rfl, rfl⟩
    · exact Slots.both_put_left ..
    · exact Slots.both_put_left ..

theorem matches_lease (hm : k.Matches part o l) (slot : Nat) (q : LeaseChore) :
    (k.perform honest (.chore (.lease slot q))).Secure o (Mirrors l (.chore (.lease slot q))) := by
  have hkept : Kept (k.leases[slot]?.map .hosted) (l.leases[slot]?.map fun c => ⟨.hosted, c⟩)
      (part (.inr slot)) := hm.kept (.inr slot)
  obtain ⟨f, ho, hapart, hothers⟩ := hm.split (.inr slot)
  rw [perform]
  cases hlease : k.leases[slot]? with
  | none =>
    cases hc : l.leases[slot]? with
    | some c =>
      rw [hlease, hc] at hkept
      cases hkept
    | none =>
      rw [script_lease_of_none hlease]
      refine ⟨l, part, ?_, hm⟩
      simp only [Ledger.perform, hc]
      exact ⟨rfl, rfl⟩
  | some lease =>
    cases hc : l.leases[slot]? with
    | none =>
      rw [hlease, hc] at hkept
      cases hkept
    | some c =>
      rw [hlease, hc] at hkept
      obtain _ | hold := hkept
      rw [script_lease_of_some hlease, ho]
      refine secure_carryOut_bind ((holds_lease hold q).frame hapart) fun p seen o' hp => ?_
      obtain ⟨p₁, rfl, hapart', rfl, hreply, hkept⟩ := hp
      refine ⟨⟨l.leases.put slot (c.perform q).1, l.movables⟩, _, ?_,
        hm.put hothers hapart' hkept ?_ ?_⟩
      · simp only [Ledger.perform, hc]
        exact ⟨rfl, by rw [hreply]⟩
      · exact Slots.both_put_right ..
      · exact Slots.both_put_right ..

theorem matches_newLease (hm : k.Matches part o l) (slot : Nat) (limit : Amount) :
    (k.perform honest (.chore (.newLease slot limit))).Secure o
      (Mirrors l (.chore (.newLease slot limit))) := by
  refine secure_carryOut_ask.2 (secure_serve_create.2 ⟨?_, fun h hfree => ?_⟩)
  · exact ⟨l, part, ⟨false, _, rfl, rfl, rfl⟩, hm⟩
  · -- The lease that was in the slot is forgotten, and its part of the share is nobody's.
    have hnew : Kept (some (.hosted ⟨h, limit⟩)) (some ⟨.hosted, .fresh limit⟩)
        (Share.empty.set h (.placed (.fresh limit))) :=
      .some (.hosted _ _ rfl (Counter.bounded_fresh limit))
    have hgrown : o.set h (.placed (.fresh limit)) =
        (Share.empty.set h (.placed (.fresh limit))).join o := by
      rw [← Share.set_join, Share.empty_join]
    rw [hgrown]
    refine ⟨_, _, ⟨true, _, rfl, h, _, rfl, rfl, rfl⟩, hm.put (i := .inr slot)
      (fun j _ => hm.within j) ((Share.empty_apart o).set hfree _) hnew ?_ ?_⟩
    · exact Slots.both_put_right ..
    · exact Slots.both_put_right ..

theorem kept_vacate {slot : Nat} {a : Option Account} {p : Share}
    (h : Kept k.movables[slot]? a p) :
    (honest.carryOut (k.vacate slot)).Secure p fun _ seen o' => seen = [] ∧ o' = .empty := by
  unfold vacate
  generalize k.movables[slot]? = m at h
  cases h with
  | none => exact ⟨rfl, rfl⟩
  | some h => exact holds_drop h

theorem matches_newMovable (hm : k.Matches part o l) (slot : Nat) (limit : Amount) (p : Placement) :
    (k.perform honest (.chore (.newMovable slot limit p))).Secure o
      (Mirrors l (.chore (.newMovable slot limit p))) := by
  have hmake := (holds_make limit p).frame (Share.empty_apart o)
  refine secure_carryOut_bind hmake fun r seen o' hr => ?_
  obtain ⟨p₁, rfl, hapart, r', hfollows, hs⟩ := hr
  cases hs with
  | error e => exact ⟨l, part, hfollows.bind ⟨rfl, rfl⟩, hm⟩
  | @ok m a _ hold =>
    -- The old counter of the slot goes with its part of the share, beside the new one's.
    obtain ⟨f, ho, hown, hothers⟩ := hm.split (.inl slot)
    rw [ho, Share.apart_join] at hapart
    rw [ho, Share.join_left_comm hapart.1]
    have hvacate := (kept_vacate (hm.kept (.inl slot))).frame
      (Share.apart_join.2 ⟨hapart.1.symm, hown⟩)
    refine secure_carryOut_bind hvacate fun _ seen' o' hv => ?_
    obtain ⟨p₂, rfl, -, rfl, rfl⟩ := hv
    rw [Share.empty_join]
    refine ⟨⟨l.leases, l.movables.put slot (some a)⟩, _, hfollows.bind ⟨rfl, rfl⟩,
      hm.put hothers hapart.2 (.some hold) ?_ ?_⟩
    · exact Slots.both_put_left ..
    · exact Slots.both_put_left ..

/-- A ledger that is shown what the owner sees gives the replies that the owner gets. -/
theorem matches_perform (hm : k.Matches part o l) (q : Errand) :
    (k.perform honest q).Secure o (Mirrors l q) := by
  cases q with
  | setGate isOpen =>
    rw [perform, Registry.secure_setGate_bind]
    exact ⟨l, part, ⟨rfl, rfl⟩, hm⟩
  | chore q =>
    cases q with
    | newMovable slot limit p => exact matches_newMovable hm slot limit p
    | movable slot q => exact matches_movable hm slot q
    | newLease slot limit => exact matches_newLease hm slot limit
    | lease slot q => exact matches_lease hm slot q

end Desk

end Abacus
