import Abacus.Proofs.Trace

/-!
# No update is lost

Threads add to and subtract from hosted counters in any interleaving. As long as none of them gives
the handle back, a counter stays within its limit, the limit stays, and the value is what it was in
the beginning plus all that was added and less all that was subtracted since, in exact arithmetic:
the sums may be far beyond the largest amount. `Registry.balance_act` is the step, one action by
whomever, and `Registry.Does.balance` the run; `Pool.conserves` puts them together with what is
known of each thread.
-/

namespace Abacus

/-! ## What actions do to one counter -/

namespace Action

/-- The action neither puts a new counter under `h` nor takes it out of the table. -/
def Spares (h : Handle) : Action → Prop
  | place k _ => k ≠ h
  | remove k => k ≠ h
  | _ => True

/-- What is added to the counter under `h`: nothing, if the action is refused. -/
def added (h : Handle) : (q : Action) → q.Answer → Nat
  | add k x, .ok _ => if k = h then x.toNat else 0
  | _, _ => 0

/-- What is subtracted from the counter under `h`. -/
def taken (h : Handle) : (q : Action) → q.Answer → Nat
  | sub k x, .ok _ => if k = h then x.toNat else 0
  | _, _ => 0

theorem added_of_ne {h : Handle} (q : Action) (hq : q.target? ≠ some h) (a : q.Answer) :
    q.added h a = 0 := by
  cases q with
  | add k x =>
    cases a with
    | error e => rfl
    | ok u => exact if_neg fun e => hq (congrArg some e)
  | _ => rfl

theorem taken_of_ne {h : Handle} (q : Action) (hq : q.target? ≠ some h) (a : q.Answer) :
    q.taken h a = 0 := by
  cases q with
  | sub k x =>
    cases a with
    | error e => rfl
    | ok u => exact if_neg fun e => hq (congrArg some e)
  | _ => rfl

end Action

namespace Deed

/-- All that is added to the counter under `h`. -/
def added (h : Handle) (es : List Deed) : Nat := (es.map fun e => e.1.added h e.2).sum

/-- All that is subtracted from the counter under `h`. -/
def taken (h : Handle) (es : List Deed) : Nat := (es.map fun e => e.1.taken h e.2).sum

end Deed

namespace Counter

variable {c : Counter}

/-- An addition is accepted if it fits, and else it is refused. -/
theorem Bounded.add_cases (hc : c.Bounded) (x : Amount) :
    (∃ d, c.add x = .ok d ∧ d.limit = c.limit ∧ c.value.toNat + x.toNat ≤ c.limit.toNat ∧
      d.value.toNat = c.value.toNat + x.toNat) ∨
    (c.add x = .error (.overflow x c.limit) ∧ c.limit.toNat < c.value.toNat + x.toNat) := by
  have hroom := hc.toNat_headroom
  cases hadd : c.add x with
  | ok d =>
    obtain ⟨hle, hlimit, hvalue⟩ := (hc.add_eq_ok_iff x).1 hadd
    exact .inl ⟨d, rfl, hlimit, hle, hvalue⟩
  | error e =>
    unfold Counter.add at hadd
    split at hadd
    · rename_i hgt
      have hlt : c.headroom.toNat < x.toNat := hgt
      cases hadd
      exact .inr ⟨rfl, by omega⟩
    · cases hadd

/-- A subtraction is accepted if there is as much, and else it is refused. -/
theorem sub_cases (c : Counter) (x : Amount) :
    (∃ d, c.sub x = .ok d ∧ d.limit = c.limit ∧ x.toNat ≤ c.value.toNat ∧
      d.value.toNat + x.toNat = c.value.toNat) ∨
    (c.sub x = .error (.underflow x c.value) ∧ c.value.toNat < x.toNat) := by
  cases hsub : c.sub x with
  | ok d =>
    obtain ⟨hle, hlimit, hvalue⟩ := (sub_eq_ok_iff x).1 hsub
    exact .inl ⟨d, rfl, hlimit, hle, by omega⟩
  | error e =>
    unfold Counter.sub at hsub
    split at hsub
    · rename_i hgt
      cases hsub
      exact .inr ⟨rfl, hgt⟩
    · cases hsub

end Counter

namespace Registry

variable {r r' : Registry} {h k : Handle} {c : Counter}

theorem act_add (hc : r.table[h]? = some c) (x : Amount) :
    r.act (.add h x) = .ok (r.put h (c.add x)) := by
  rw [act, find_eq_ok_iff.2 hc]
  rfl

theorem act_sub (hc : r.table[h]? = some c) (x : Amount) :
    r.act (.sub h x) = .ok (r.put h (c.sub x)) := by
  rw [act, find_eq_ok_iff.2 hc]
  rfl

theorem getElem?_put_of_ne (hk : k ≠ h) (r : Registry) (change : Except Refusal Counter) :
    (r.put k change).2.table[h]? = r.table[h]? := by
  cases change with
  | error e => rfl
  | ok d =>
    show (r.table.insert k d)[h]? = _
    rw [getElem?_table_insert, if_neg hk]

/-- An action on another counter leaves the counter under `h` alone. -/
theorem getElem?_act {q : Action} (hq : q.Spares h) (htarget : q.target? ≠ some h) {a : q.Answer}
    (hact : r.act q = .ok (a, r')) : r'.table[h]? = r.table[h]? := by
  have hne {k : Handle} (hk : some k ≠ some h) : k ≠ h := fun e => hk (congrArg some e)
  cases q with
  | look | setGate isOpen | draw =>
    cases hact
    rfl
  | place k limit =>
    cases hact
    exact (getElem?_table_insert _ _ _ _).trans (if_neg hq)
  | add k x | sub k x =>
    obtain ⟨c, -, hput⟩ := exists_of_find_map hact
    have hsnd : (r.put k _).2 = r' := congrArg Prod.snd hput
    rw [← hsnd]
    exact getElem?_put_of_ne (hne htarget) r _
  | read k =>
    obtain ⟨c, -, hsame⟩ := exists_of_find_map hact
    cases hsame
    rfl
  | remove k =>
    obtain ⟨c, -, herase⟩ := exists_of_find_map hact
    cases herase
    exact (getElem?_table_erase _ _ _).trans (if_neg hq)

/-- After one action the counter under `h` has what it had, what was added and not what was
subtracted. -/
theorem balance_act (hr : r.Sound) (hc : r.table[h]? = some c) {q : Action} (hq : q.Spares h)
    {a : q.Answer} (hact : r.act q = .ok (a, r')) :
    ∃ d, r'.table[h]? = some d ∧ d.limit = c.limit ∧
      d.value.toNat + q.taken h a = c.value.toNat + q.added h a := by
  by_cases htarget : q.target? = some h
  · cases q with
    | add k x =>
      cases htarget
      rw [act_add hc] at hact
      rcases (hr h c hc).add_cases x with ⟨d, hadd, hlimit, -, hvalue⟩ | ⟨hadd, -⟩
      · rw [hadd] at hact
        cases hact
        refine ⟨d, (getElem?_table_insert _ _ _ _).trans (if_pos rfl), hlimit, ?_⟩
        simp only [Action.taken, Action.added, ↓reduceIte, hvalue, Nat.add_zero]
      · rw [hadd] at hact
        cases hact
        exact ⟨c, hc, rfl, rfl⟩
    | sub k x =>
      cases htarget
      rw [act_sub hc] at hact
      rcases c.sub_cases x with ⟨d, hsub, hlimit, -, hvalue⟩ | ⟨hsub, -⟩
      · rw [hsub] at hact
        cases hact
        refine ⟨d, (getElem?_table_insert _ _ _ _).trans (if_pos rfl), hlimit, ?_⟩
        simp only [Action.taken, Action.added, ↓reduceIte, hvalue, Nat.add_zero]
      · rw [hsub] at hact
        cases hact
        exact ⟨c, hc, rfl, rfl⟩
    | read k =>
      obtain ⟨d, -, hsame⟩ := exists_of_find_map hact
      cases hsame
      exact ⟨c, hc, rfl, rfl⟩
    | remove k =>
      cases htarget
      exact absurd rfl hq
    | look | setGate isOpen | draw | place k limit => cases htarget
  · refine ⟨c, (getElem?_act hq htarget hact).trans hc, rfl, ?_⟩
    rw [q.added_of_ne htarget, q.taken_of_ne htarget]

/-- The same for any number of deeds. -/
theorem Does.balance {es : List Deed} (hes : r.Does es r') (hr : r.Sound)
    (hc : r.table[h]? = some c) (hspare : ∀ e ∈ es, e.1.Spares h) :
    ∃ d, r'.table[h]? = some d ∧ d.limit = c.limit ∧
      d.value.toNat + Deed.taken h es = c.value.toNat + Deed.added h es := by
  induction es generalizing r c with
  | nil =>
    cases hes
    exact ⟨c, hc, rfl, rfl⟩
  | cons e es ih =>
    obtain ⟨mid, hact, hmid⟩ := hes
    obtain ⟨d, hd, hlimit, hvalue⟩ := balance_act hr hc (hspare e List.mem_cons_self) hact
    obtain ⟨d', hd', hlimit', hvalue'⟩ := ih hmid (hr.act hact) hd fun e' he' =>
      hspare e' (List.mem_cons_of_mem _ he')
    refine ⟨d', hd', hlimit'.trans hlimit, ?_⟩
    simp only [Deed.taken, Deed.added, List.map_cons, List.sum_cons] at hvalue' ⊢
    omega

end Registry

/-! ## Threads -/

/-- The call asks for no handle and does not give `h` back. -/
def Call.Spares (h : Handle) : Call → Prop
  | create _ => False
  | destroy l => l.handle ≠ h
  | _ => True

theorem Distortion.asks_carryOut_honest {α : Type} {h : Handle} {s : Script Call.Answer α}
    (hs : s.Asks (Call.Spares h)) : (honest.carryOut s).Asks (Action.Spares h) := by
  rw [carryOut_honest]
  refine hs.interpret fun q hq => ?_
  cases q with
  | create limit => exact hq.elim
  | add l x | sub l x | read l => exact ⟨trivial, fun _ => trivial⟩
  | destroy l => exact ⟨hq, fun _ => trivial⟩

namespace Pool

variable {α : Type}

/-- In every interleaving of threads that add to and subtract from the counters of a registry, and
do not give `h` back, the counter under `h` stays within its limit and has at every moment what it
had in the beginning, what was added and not what was subtracted. An addition or subtraction is
refused only at a moment when it does not fit, and then nothing changes. A thread that has come to
its end did what its script says, and got its result from the answers. -/
theorem conserves (d : Distortion) (isOpen : Bool) (qs : List Step) {h : Handle} {c : Counter}
    (hc : ((Session.start d isOpen).reach qs).registry.table[h]? = some c)
    (threads : List (Script Call.Answer α)) (hspare : ∀ t ∈ threads, t.Asks (Call.Spares h))
    (schedule : List Nat) :
    let p := start ((Session.start d isOpen).reach qs).registry
      (threads.map Distortion.honest.carryOut)
    let done := (p.deeds schedule).map Prod.snd
    let now := p.run schedule
    ∃ c', now.registry.table[h]? = some c' ∧ c'.limit = c.limit ∧
      c'.value.toNat ≤ c.limit.toNat ∧
      c'.value.toNat + Deed.taken h done = c.value.toNat + Deed.added h done ∧
      (∀ i x a, now.deed? i = some ⟨.add h x, a⟩ →
        (a = .ok () ∧ c'.value.toNat + x.toNat ≤ c.limit.toNat) ∨
        (a = .error (.overflow x c.limit) ∧ c.limit.toNat < c'.value.toNat + x.toNat ∧
          (now.turn i).registry = now.registry)) ∧
      (∀ i x a, now.deed? i = some ⟨.sub h x, a⟩ →
        (a = .ok () ∧ x.toNat ≤ c'.value.toNat) ∨
        (a = .error (.underflow x c'.value) ∧ c'.value.toNat < x.toNat ∧
          (now.turn i).registry = now.registry)) ∧
      (∀ (i : Nat) (t : Script Call.Answer α) (s : Strand α) (a : α), threads[i]? = some t →
        now.strands[i]? = some s → s.result? = some a →
        (Distortion.honest.carryOut t).Follows (Deed.ofThread i (p.deeds schedule)) a) := by
  intro p done now
  have hsound : p.registry.Sound := (Session.sound_reach d isOpen qs).registry
  have hstrand (i : Nat) (s : Strand α) (hs : p.strands[i]? = some s) :
      s.Asks (Action.Spares h) := by
    simp only [p, start, List.map_map, List.getElem?_map, Option.map_eq_some_iff] at hs
    obtain ⟨t, ht, rfl⟩ := hs
    exact Distortion.asks_carryOut_honest (hspare t (List.mem_of_getElem? ht))
  have hspares : ∀ e ∈ done, e.1.Spares h := by
    intro e he
    obtain ⟨e', he', rfl⟩ := List.mem_map.1 he
    exact asks_of_mem_deeds hstrand schedule e' he'
  obtain ⟨c', hc', hlimit, hvalue⟩ := (p.does_deeds schedule).balance hsound hc hspares
  have hnow : now.registry.Sound := sound_run hsound schedule
  have hbounded : c'.Bounded := hnow h c' hc'
  refine ⟨c', hc', hlimit, hlimit ▸ hbounded.toNat_le, hvalue, fun i x a ha => ?_,
    fun i x a ha => ?_, fun i t s a ht hs ha => ?_⟩
  · have hput := Except.ok.inj ((Registry.act_add hc' x).symm.trans (act_of_deed? ha))
    rcases hbounded.add_cases x with ⟨e, hadd, -, hle, -⟩ | ⟨hadd, hlt⟩
    · rw [hadd] at hput
      exact .inl ⟨(congrArg Prod.fst hput).symm, hlimit ▸ hle⟩
    · rw [hadd] at hput
      exact .inr ⟨hlimit ▸ (congrArg Prod.fst hput).symm, hlimit ▸ hlt,
        (congrArg Prod.snd hput).symm⟩
  · have hput := Except.ok.inj ((Registry.act_sub hc' x).symm.trans (act_of_deed? ha))
    rcases c'.sub_cases x with ⟨e, hsub, -, hle, -⟩ | ⟨hsub, hlt⟩
    · rw [hsub] at hput
      exact .inl ⟨(congrArg Prod.fst hput).symm, hle⟩
    · rw [hsub] at hput
      exact .inr ⟨(congrArg Prod.fst hput).symm, hlt, (congrArg Prod.snd hput).symm⟩
  · have hstart : p.strands[i]? = some (.going (Distortion.honest.carryOut t)) := by
      simp only [p, start, List.map_map, List.getElem?_map, ht]
      rfl
    exact follows_of_ended hstart hs ha

/-- Two threads share a counter that starts at 4 with the limit 10. The second thread's addition of
7 comes too early and is refused, the later one of 3 is accepted. -/
theorem conserves_of_refused_add :
    let l : Lease := ⟨⟨0#64⟩, 10#128⟩
    let k : Lease := ⟨⟨1#64⟩, 3#128⟩
    let qs : List Step := [.newLease 0 10#128, .newLease 1 3#128, .lease 0 (.add 4#128)]
    let threads : List (Script Call.Answer Unit) :=
      [(l.add 5#128).bind fun _ => (l.sub 2#128).bind fun _ => .done (),
        (l.add 7#128).bind fun _ => (k.add 1#128).bind fun _ =>
          (l.add 3#128).bind fun _ => .done ()]
    let schedule := [0, 1, 1, 0, 1]
    let done := ((start ((Session.start .honest true).reach qs).registry
      (threads.map Distortion.honest.carryOut)).deeds schedule).map Prod.snd
    ((Session.start .honest true).reach qs).registry.table[l.handle]? = some ⟨4#128, 10#128⟩ ∧
      Deed.added l.handle done = 8 ∧ Deed.taken l.handle done = 2 ∧
      ∃ c, ((start ((Session.start .honest true).reach qs).registry
          (threads.map Distortion.honest.carryOut)).run schedule).registry.table[l.handle]? =
            some c ∧
        c.limit = 10#128 ∧ c.value.toNat ≤ 10 ∧ c.value.toNat + 2 = 4 + 8 := by
  intro l k qs threads schedule done
  have hlive : ((Session.start .honest true).reach qs).registry.table[l.handle]? =
      some ⟨4#128, 10#128⟩ := by decide +kernel
  have hadded : Deed.added l.handle done = 8 := by decide +kernel
  have htaken : Deed.taken l.handle done = 2 := by decide +kernel
  have hspare : ∀ t ∈ threads, t.Asks (Call.Spares l.handle) := by
    intro t ht
    simp only [threads, List.mem_cons, List.not_mem_nil, or_false] at ht
    rcases ht with rfl | rfl
    · exact ⟨trivial, fun _ => ⟨trivial, fun _ => trivial⟩⟩
    · exact ⟨trivial, fun _ => ⟨trivial, fun _ => ⟨trivial, fun _ => trivial⟩⟩⟩
  obtain ⟨c, hc, hlimit, hle, hvalue, -⟩ := conserves .honest true qs hlive threads hspare schedule
  rw [htaken, hadded] at hvalue
  exact ⟨hlive, hadded, htaken, c, hc, hlimit, hle, hvalue⟩

end Pool

end Abacus
