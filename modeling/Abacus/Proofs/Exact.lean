import Abacus.Proofs.Trace

/-!
# Exact arithmetic

Words wrap around, and a counter computes with words. A `Reckoning` is one sum or difference of two
words that is really formed, with its word and with its exact value. The operations of a counter are
written once more with their reckonings (`Counter.reckonAdd` and its like, which end as the
operations do), and the reckonings of an action, a script, a thread, a pool and a step are collected
from them. They are exact on a counter within its limit (`Bounded.exact_reckonAdd`), and so are the
results (`Bounded.computesExactly`); all counters of a sound state are within their limits, and
sound states lead to sound states only. So `Session.reckons_exactly` holds of every session, before
any host and with any number of threads.
-/

namespace Abacus

/-! ## Sums and differences of words -/

/-- A sum or a difference of two words. -/
inductive Reckoning
  | plus (a b : Amount)
  | minus (a b : Amount)
  deriving DecidableEq

namespace Reckoning

/-- What is computed, with wrap-around. -/
def word : Reckoning → Amount
  | plus a b => a + b
  | minus a b => a - b

/-- What it stands for. -/
def value : Reckoning → Int
  | plus a b => a.toNat + b.toNat
  | minus a b => a.toNat - b.toNat

/-- The value is neither below zero nor beyond the largest amount, and it is what is computed. -/
def Exact (e : Reckoning) : Prop :=
  0 ≤ e.value ∧ e.value ≤ Amount.greatest.toNat ∧ (e.word.toNat : Int) = e.value

instance (e : Reckoning) : Decidable e.Exact :=
  inferInstanceAs
    (Decidable (0 ≤ e.value ∧ e.value ≤ Amount.greatest.toNat ∧ (e.word.toNat : Int) = e.value))

theorem exact_plus {a b : Amount} (h : a.toNat + b.toNat ≤ Amount.greatest.toNat) :
    (plus a b).Exact := by
  have hlt := Amount.greatest.isLt
  have hword : (a + b).toNat = a.toNat + b.toNat := BitVec.toNat_add_of_lt (by omega)
  simp only [Exact, word, value, hword]
  omega

theorem exact_minus {a b : Amount} (h : b ≤ a) : (minus a b).Exact := by
  have hword : (a - b).toNat = a.toNat - b.toNat := BitVec.toNat_sub_of_le h
  have hle : b.toNat ≤ a.toNat := h
  have hgreatest := Amount.toNat_le_greatest a
  simp only [Exact, word, value, hword]
  omega

example : ¬ (minus 3#128 5#128).Exact := by decide

/-- Whatever is computed is exact. -/
def AllExact (es : List Reckoning) : Prop := ∀ e ∈ es, e.Exact

theorem allExact_nil : AllExact [] := by
  intro e he
  cases he

theorem allExact_singleton {e : Reckoning} (h : e.Exact) : AllExact [e] := by
  intro e' he'
  rwa [List.mem_singleton.1 he']

theorem AllExact.append {es es' : List Reckoning} (h : AllExact es) (h' : AllExact es') :
    AllExact (es ++ es') := by
  intro e he
  rcases List.mem_append.1 he with he | he
  · exact h e he
  · exact h' e he

/-- What is computed with the content of a place that may be empty. -/
theorem allExact_elim {β : Type} {held : Option β} {f : β → List Reckoning}
    (hf : ∀ b, held = some b → AllExact (f b)) : AllExact (held.elim [] f) := by
  cases held with
  | none => exact allExact_nil
  | some b => exact hf b rfl

end Reckoning

/-! ## Counters -/

namespace Counter

open Reckoning

/-- The headroom, and the difference that it is. -/
def reckonHeadroom (c : Counter) : Amount × List Reckoning :=
  let room := Reckoning.minus c.limit c.value
  (room.word, [room])

/-- The addition, and what it computes: the sum is formed only if the headroom allows it. -/
def reckonAdd (c : Counter) (x : Amount) : Except Refusal Counter × List Reckoning :=
  let room := Reckoning.minus c.limit c.value
  if x > room.word then (.error (.overflow x c.limit), [room])
  else
    let sum := Reckoning.plus c.value x
    (.ok { c with value := sum.word }, [room, sum])

/-- The subtraction, and what it computes if the value allows it. -/
def reckonSub (c : Counter) (x : Amount) : Except Refusal Counter × List Reckoning :=
  if x > c.value then (.error (.underflow x c.value), [])
  else
    let rest := Reckoning.minus c.value x
    (.ok { c with value := rest.word }, [rest])

theorem fst_reckonHeadroom (c : Counter) : c.reckonHeadroom.1 = c.headroom := rfl

theorem fst_reckonAdd (c : Counter) (x : Amount) : (c.reckonAdd x).1 = c.add x := by
  have hroom : (Reckoning.minus c.limit c.value).word = c.headroom := rfl
  simp only [reckonAdd, add, hroom]
  split <;> rfl

theorem fst_reckonSub (c : Counter) (x : Amount) : (c.reckonSub x).1 = c.sub x := by
  simp only [reckonSub, sub]
  split <;> rfl

variable {c : Counter}

theorem Bounded.exact_reckonHeadroom (hc : c.Bounded) : AllExact c.reckonHeadroom.2 :=
  allExact_singleton (Reckoning.exact_minus hc)

theorem Bounded.exact_reckonAdd (hc : c.Bounded) (x : Amount) : AllExact (c.reckonAdd x).2 := by
  have hroom : AllExact [.minus c.limit c.value] := hc.exact_reckonHeadroom
  simp only [reckonAdd]
  split
  · exact hroom
  · rename_i hx
    -- The sum stays within the limit, which is a word itself.
    have hle : x.toNat ≤ c.headroom.toNat := Nat.le_of_not_lt hx
    have hvalue := hc.toNat_le
    have hlimit := Amount.toNat_le_greatest c.limit
    rw [hc.toNat_headroom] at hle
    exact hroom.append (allExact_singleton (Reckoning.exact_plus (by omega)))

theorem exact_reckonSub (c : Counter) (x : Amount) : AllExact (c.reckonSub x).2 := by
  simp only [reckonSub]
  split
  · exact allExact_nil
  · rename_i hx
    exact allExact_singleton (Reckoning.exact_minus (Nat.le_of_not_lt hx))

/-- The operations on the counter have the results of exact arithmetic. -/
structure ComputesExactly (c : Counter) : Prop where
  headroom : c.headroom.toNat + c.value.toNat = c.limit.toNat
  add : ∀ (x : Amount) (d : Counter), c.add x = .ok d ↔
    c.value.toNat + x.toNat ≤ c.limit.toNat ∧ d.limit = c.limit ∧
      d.value.toNat = c.value.toNat + x.toNat
  sub : ∀ (x : Amount) (d : Counter), c.sub x = .ok d ↔
    x.toNat ≤ c.value.toNat ∧ d.limit = c.limit ∧ d.value.toNat = c.value.toNat - x.toNat

theorem Bounded.computesExactly (hc : c.Bounded) : c.ComputesExactly where
  headroom := by
    have hle := hc.toNat_le
    rw [hc.toNat_headroom]
    omega
  add x _ := hc.add_eq_ok_iff x
  sub x _ := sub_eq_ok_iff x

end Counter

/-! ## Actions, scripts and threads -/

open Reckoning

/-- What an action computes. -/
def Registry.reckonings (r : Registry) : Action → List Reckoning
  | .add h x => r.table[h]?.elim [] fun c => (c.reckonAdd x).2
  | .sub h x => r.table[h]?.elim [] fun c => (c.reckonSub x).2
  | _ => []

theorem Registry.Sound.exact_reckonings {r : Registry} (hr : r.Sound) (q : Action) :
    AllExact (r.reckonings q) := by
  cases q with
  | add h x => exact allExact_elim fun c hc => (hr h c hc).exact_reckonAdd x
  | sub h x => exact allExact_elim fun c _ => c.exact_reckonSub x
  | look | setGate isOpen | draw | place h limit | read h | remove h => exact allExact_nil

section Threads

variable {α : Type} {r : Registry}

/-- What a script computes that is run alone. -/
def Script.reckonings : Script Action.Answer α → Registry → List Reckoning
  | done _, _ => []
  | report _ rest, r => rest.reckonings r
  | ask q next, r =>
      r.reckonings q ++
        match r.act q with
        | .error _ => []
        | .ok (a, r') => (next a).reckonings r'

theorem Script.exact_reckonings (s : Script Action.Answer α) (hr : r.Sound) :
    AllExact (s.reckonings r) := by
  induction s generalizing r with
  | done a => exact allExact_nil
  | report e rest ih => exact ih hr
  | ask q next ih =>
    simp only [reckonings]
    refine (hr.exact_reckonings q).append ?_
    cases hact : r.act q with
    | error d => exact allExact_nil
    | ok p => exact ih p.1 (hr.act hact)

/-- What a thread computes that goes on alone to its end. -/
def Strand.reckonings : Strand α → Registry → List Reckoning
  | going s, r => s.reckonings r
  | dead _, _ => []

theorem Strand.exact_reckonings (s : Strand α) (hr : r.Sound) : AllExact (s.reckonings r) := by
  cases s with
  | going s => exact s.exact_reckonings hr
  | dead d => exact allExact_nil

namespace Pool

/-- What the threads of a pool compute in the turns of a schedule. -/
def reckonings (p : Pool α) : List Nat → List Reckoning
  | [] => []
  | i :: schedule =>
      ((p.deed? i).elim [] fun e => p.registry.reckonings e.1) ++ (p.turn i).reckonings schedule

theorem exact_reckonings {p : Pool α} (hp : p.registry.Sound) (schedule : List Nat) :
    AllExact (p.reckonings schedule) := by
  induction schedule generalizing p with
  | nil => exact allExact_nil
  | cons i schedule ih =>
    have hturn : AllExact ((p.deed? i).elim [] fun e => p.registry.reckonings e.1) :=
      allExact_elim fun e _ => hp.exact_reckonings e.1
    exact hturn.append (ih (sound_turn hp i))

/-- What threads compute that go on to their ends, one after the other. -/
def finalReckonings : List (Strand α) → Registry → List Reckoning
  | [], _ => []
  | s :: rest, r => s.reckonings r ++ finalReckonings rest (s.finish r).2

theorem exact_finalReckonings (ss : List (Strand α)) (hr : r.Sound) :
    AllExact (finalReckonings ss r) := by
  induction ss generalizing r with
  | nil => exact allExact_nil
  | cons s ss ih => exact (s.exact_reckonings hr).append (ih (s.sound_finish hr))

end Pool

end Threads

/-! ## Steps -/

namespace Session

variable {α : Type} (s : Session)

/-- What the host computes for a script of calls. -/
def reckonCalls (c : Script Call.Answer α) : List Reckoning :=
  (s.distortion.carryOut c).reckonings s.registry

/-- What the host computes for a load. -/
def reckonLoad (load : Load) (c : Script Call.Answer α) : List Reckoning :=
  let script := s.distortion.carryOut (c.times load.times)
  let p := Pool.start s.registry (List.replicate load.threads script)
  let last := p.run load.schedule
  p.reckonings load.schedule ++ Pool.finalReckonings last.strands last.registry

def reckonCounter (c : Counter) : CounterStep → List Reckoning
  | .add x => (c.reckonAdd x).2
  | .sub x => (c.reckonSub x).2
  | .headroom => c.reckonHeadroom.2
  | _ => []

def reckonLease (l : Lease) : LeaseStep → List Reckoning
  | .add x => s.reckonCalls (l.add x)
  | .sub x => s.reckonCalls (l.sub x)
  | .read => s.reckonCalls l.read
  | .destroy => s.reckonCalls l.destroy
  | .loadAdd load x => s.reckonLoad load (l.add x)
  | .loadSub load x => s.reckonLoad load (l.sub x)
  | _ => []

/-- What is computed in place where a movable counter goes: a counter that comes from the host is
filled there with the value that the host reads. -/
def reckonArrival : Movable → List Reckoning
  | .inPlace _ => []
  | .hosted l =>
      match (s.call l.read).result with
      | .error _ => []
      | .ok value => ((Counter.fresh l.limit).reckonAdd value).2

def reckonMovable (m : Movable) : MovableStep → List Reckoning
  | .add x =>
      match m with
      | .inPlace c => (c.reckonAdd x).2
      | .hosted l => s.reckonCalls (l.add x)
  | .sub x =>
      match m with
      | .inPlace c => (c.reckonSub x).2
      | .hosted l => s.reckonCalls (l.sub x)
  | .move => s.reckonArrival m ++ s.reckonCalls m.move
  | .read => s.reckonCalls m.read
  | .headroom => s.reckonCalls m.headroom
  | .write _ => s.reckonCalls m.layout
  | .drop => s.reckonCalls m.drop
  | _ => []

/-- What a step computes. -/
def reckonings : Step → List Reckoning
  | .counter slot q => s.counters[slot]?.elim [] fun c => reckonCounter c q
  | .newLease _ limit => s.reckonCalls (Lease.create limit)
  | .lease slot q => s.leases[slot]?.elim [] fun l => s.reckonLease l q
  | .newMovable slot limit p =>
      let made := s.changed slot (Movable.make limit p)
      s.reckonCalls (Movable.make limit p) ++
        match made.reply, s.movables[slot]? with
        | .done, some old => made.session.reckonCalls old.drop
        | _, _ => []
  | .movable slot q => s.movables[slot]?.elim [] fun m => s.reckonMovable m q
  | .registry (.loadCreate load limit destroy) => s.reckonLoad load (Load.visit limit destroy)
  | _ => []

variable {s}

theorem Sound.exact_reckonCalls (hs : s.Sound) (c : Script Call.Answer α) :
    AllExact (s.reckonCalls c) :=
  Script.exact_reckonings _ hs.registry

theorem Sound.exact_reckonLoad (hs : s.Sound) (load : Load) (c : Script Call.Answer α) :
    AllExact (s.reckonLoad load c) :=
  (Pool.exact_reckonings hs.registry load.schedule).append
    (Pool.exact_finalReckonings _ (Pool.sound_run hs.registry load.schedule))

theorem exact_reckonCounter {c : Counter} (hc : c.Bounded) (q : CounterStep) :
    AllExact (reckonCounter c q) := by
  cases q with
  | add x => exact hc.exact_reckonAdd x
  | sub x => exact c.exact_reckonSub x
  | headroom => exact hc.exact_reckonHeadroom
  | read | limit | copy target | equals other | write block | destroy => exact allExact_nil

theorem Sound.exact_reckonLease (hs : s.Sound) (l : Lease) (q : LeaseStep) :
    AllExact (s.reckonLease l q) := by
  cases q with
  | add x | sub x | read | destroy => exact hs.exact_reckonCalls _
  | loadAdd load x | loadSub load x => exact hs.exact_reckonLoad load _
  | limit | handle | equals other | write block => exact allExact_nil

/-- Nothing is asked of the value that the host reads: it may be more than the limit. -/
theorem exact_reckonArrival (s : Session) (m : Movable) : AllExact (s.reckonArrival m) := by
  cases m with
  | inPlace c => exact allExact_nil
  | hosted l =>
    simp only [reckonArrival]
    split
    · exact allExact_nil
    · exact (Counter.bounded_fresh l.limit).exact_reckonAdd _

theorem Sound.exact_reckonMovable (hs : s.Sound) {m : Movable} (hm : m.Sound) (q : MovableStep) :
    AllExact (s.reckonMovable m q) := by
  cases q with
  | add x =>
    cases m with
    | inPlace c => exact Counter.Bounded.exact_reckonAdd hm x
    | hosted l => exact hs.exact_reckonCalls _
  | sub x =>
    cases m with
    | inPlace c => exact c.exact_reckonSub x
    | hosted l => exact hs.exact_reckonCalls _
  | move => exact (s.exact_reckonArrival m).append (hs.exact_reckonCalls _)
  | read | headroom | write block | drop => exact hs.exact_reckonCalls _
  | limit | isHosted | placement | isServedHere => exact allExact_nil

theorem Sound.exact_reckonings (hs : s.Sound) (q : Step) : AllExact (s.reckonings q) := by
  cases q with
  | counter slot q => exact allExact_elim fun c hc => exact_reckonCounter (hs.counters slot c hc) q
  | newLease slot limit => exact hs.exact_reckonCalls _
  | lease slot q => exact allExact_elim fun l _ => hs.exact_reckonLease l q
  | newMovable slot limit p =>
    have hmade := hs.changed slot (Movable.ends_make limit p)
    refine (hs.exact_reckonCalls _).append ?_
    split
    · exact hmade.exact_reckonCalls _
    · exact allExact_nil
  | movable slot q =>
    exact allExact_elim fun m hm => hs.exact_reckonMovable (hs.movables slot m hm) q
  | registry q =>
    cases q with
    | loadCreate load limit destroy => exact hs.exact_reckonLoad load _
    | live | isOpen | setGate isOpen | write block => exact allExact_nil
  | newCounter slot limit | forgeLease slot l => exact allExact_nil

/-! ## Reachable states -/

/-- The counter is in the session: on its own, as a movable counter in place, or hosted. -/
inductive Contains (s : Session) (c : Counter) : Prop
  | own (slot : Nat) (h : s.counters[slot]? = some c)
  | inPlace (slot : Nat) (h : s.movables[slot]? = some (.inPlace c))
  | hosted (handle : Handle) (h : s.registry.table[handle]? = some c)

theorem Sound.bounded (hs : s.Sound) {c : Counter} (hc : s.Contains c) : c.Bounded := by
  cases hc with
  | own slot h => exact hs.counters slot c h
  | inPlace slot h => exact hs.movables slot (.inPlace c) h
  | hosted handle h => exact hs.registry handle c h

/-- The reckonings are those of the operations. Every counter of a session is within its limit, so
that all operations on it compute exactly and have the exact results, and whatever a step computes
is exact. The same holds in the middle of a step, when any threads have had any turns with the
registry. -/
theorem reckons_exactly (d : Distortion) (isOpen : Bool) (qs : List Step) :
    let s := (start d isOpen).reach qs
    (∀ (c : Counter) (x : Amount), c.reckonHeadroom.1 = c.headroom ∧
      (c.reckonAdd x).1 = c.add x ∧ (c.reckonSub x).1 = c.sub x) ∧
    (∀ c : Counter, s.Contains c → c.value ≤ c.limit ∧ c.ComputesExactly ∧
      ∀ x, ∀ e ∈ c.reckonHeadroom.2 ++ (c.reckonAdd x).2 ++ (c.reckonSub x).2, e.Exact) ∧
    (∀ q, ∀ e ∈ s.reckonings q, e.Exact) ∧
    ∀ (α : Type) (scripts : List (Script Action.Answer α)) (schedule : List Nat),
      let p := Pool.start s.registry scripts
      (∀ (h : Handle) (c : Counter), (p.run schedule).registry.table[h]? = some c →
        c.value ≤ c.limit ∧ c.ComputesExactly) ∧
      ∀ e ∈ p.reckonings schedule, e.Exact := by
  intro s
  have hs : s.Sound := sound_reach d isOpen qs
  refine ⟨fun c x => ⟨c.fst_reckonHeadroom, c.fst_reckonAdd x, c.fst_reckonSub x⟩,
    fun c hc => ?_, fun q => hs.exact_reckonings q,
    fun α scripts schedule => ⟨fun h c hc => ?_, ?_⟩⟩
  · have hbounded := hs.bounded hc
    refine ⟨hbounded, hbounded.computesExactly, fun x => ?_⟩
    exact (hbounded.exact_reckonHeadroom.append (hbounded.exact_reckonAdd x)).append
      (c.exact_reckonSub x)
  · have hbounded : c.Bounded := Pool.sound_run hs.registry schedule h c hc
    exact ⟨hbounded, hbounded.computesExactly⟩
  · exact Pool.exact_reckonings hs.registry schedule

/-- The largest limit is filled through a forged lease, and a host that reads three too much has the
counter moved in place: the value that it reads stops at the largest amount. -/
theorem reckons_exactly_of_surplus :
    let s := (start ⟨false, 3#128, none⟩ true).reach
      [.newMovable 0 .greatest .hosted, .forgeLease 0 ⟨⟨0#64⟩, 1#128⟩, .lease 0 (.add .greatest),
        .lease 0 (.sub 1#128)]
    s.reckonings (.movable 0 .move) = [.minus .greatest 0#128, .plus 0#128 .greatest] ∧
    s.reckonings (.lease 0 (.add 2#128)) = [.minus .greatest (.greatest - 1#128)] ∧
    (∀ e ∈ s.reckonings (.movable 0 .move), e.Exact) ∧
    ∀ e ∈ s.reckonings (.lease 0 (.add 2#128)), e.Exact := by
  intro s
  obtain ⟨-, -, hexact, -⟩ := reckons_exactly ⟨false, 3#128, none⟩ true
    [.newMovable 0 .greatest .hosted, .forgeLease 0 ⟨⟨0#64⟩, 1#128⟩, .lease 0 (.add .greatest),
      .lease 0 (.sub 1#128)]
  exact ⟨by decide +kernel, by decide +kernel, hexact _, hexact _⟩

end Session

end Abacus
