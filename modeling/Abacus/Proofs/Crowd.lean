import Mathlib.Data.Set.List
import Abacus.Proofs.Conservation
import Abacus.Proofs.Reversal

/-!
# A crowd at one counter

Many threads have a lease on the same hosted counter, and each of them asks for changes of its own,
one after the other. A change is one action, so what the crowd does to the counter in an
interleaving is what the same changes do to it in some order, and the answers that the members get
are the answers in this order (`Pool.exists_settled`). So a statement about all interleavings of a
crowd is one about all orders of a list of changes, and those are proved by induction over the list.

No member meets a dead handle: the counter stays hosted, whatever the others do (`Pool.Busy.run`).
So every interleaving can be continued until all members are through, and `Pool.Always` and
`Pool.Possibly` speak of all and of some such interleaving.
-/

namespace Abacus

open Distortion

/-! ## One change after the other -/

namespace Change

/-- The answer to a change and the counter after it. A refused change leaves the counter as it
was. -/
def attempt (c : Counter) (q : Change) : Except Refusal Unit × Counter :=
  match q.apply c with
  | .ok d => (.ok (), d)
  | .error e => (.error e, c)

/-- The answers to the changes when they are attempted in order, and the counter after them. -/
def attemptAll : Counter → List Change → List (Except Refusal Unit) × Counter
  | c, [] => ([], c)
  | c, q :: qs =>
      ((q.attempt c).1 :: (attemptAll (q.attempt c).2 qs).1, (attemptAll (q.attempt c).2 qs).2)

/-- What the change asks to add. -/
def added : Change → Nat
  | add x => x.toNat
  | sub _ => 0

/-- What the change asks to subtract. -/
def taken : Change → Nat
  | add _ => 0
  | sub x => x.toNat

/-- How the counter refuses the change. -/
def refusal (c : Counter) : Change → Refusal
  | add x => .overflow x c.limit
  | sub x => .underflow x c.value

/-- A change is accepted if it keeps the value between zero and the limit, and else it is
refused. -/
theorem attempt_cases {c : Counter} (hc : c.Bounded) (q : Change) :
    (∃ d, q.attempt c = (.ok (), d) ∧ d.Bounded ∧ d.limit = c.limit ∧
      d.value.toNat + q.taken = c.value.toNat + q.added) ∨
    (q.attempt c = (.error (q.refusal c), c) ∧
      (c.limit.toNat < c.value.toNat + q.added ∨ c.value.toNat < q.taken)) := by
  cases q with
  | add x =>
    rcases hc.add_cases x with ⟨d, hadd, hlimit, -, hvalue⟩ | ⟨hadd, hlt⟩
    · exact .inl ⟨d, by simp only [attempt, apply, hadd], hc.add hadd, hlimit, hvalue⟩
    · exact .inr ⟨by simp only [attempt, apply, hadd, refusal], .inl hlt⟩
  | sub x =>
    rcases c.sub_cases x with ⟨d, hsub, hlimit, -, hvalue⟩ | ⟨hsub, hlt⟩
    · exact .inl ⟨d, by simp only [attempt, apply, hsub], hc.sub hsub, hlimit, hvalue⟩
    · exact .inr ⟨by simp only [attempt, apply, hsub, refusal], .inr hlt⟩

/-- The change to the counter under `h`, with its answer, as a deed. -/
def deed (h : Handle) : Change → Except Refusal Unit → Deed
  | add x, a => ⟨.add h x, a⟩
  | sub x, a => ⟨.sub h x, a⟩

end Change

/-- The action changes the counter under `h`. -/
def Action.Changes (h : Handle) : Action → Prop
  | add k _ => k = h
  | sub k _ => k = h
  | _ => False

namespace Deed

/-- The change that a deed makes, with its answer. -/
def change? : Deed → Option (Change × Except Refusal Unit)
  | ⟨.add _ x, a⟩ => some (.add x, a)
  | ⟨.sub _ x, a⟩ => some (.sub x, a)
  | _ => none

theorem change?_deed (h : Handle) (q : Change) (a : Except Refusal Unit) :
    (q.deed h a).change? = some (q, a) := by
  cases q <;> rfl

theorem exists_deed {h : Handle} {e : Deed} (he : e.1.Changes h) :
    ∃ q a, e = Change.deed h q a := by
  obtain ⟨q, a⟩ := e
  cases q with
  | add k x =>
    cases he
    exact ⟨.add x, a, rfl⟩
  | sub k x =>
    cases he
    exact ⟨.sub x, a, rfl⟩
  | look | setGate | draw | place | read | remove => exact he.elim

theorem map_deed_filterMap {h : Handle} {es : List Deed} (hes : ∀ e ∈ es, e.1.Changes h) :
    (es.filterMap change?).map (fun e => e.1.deed h e.2) = es := by
  induction es with
  | nil => rfl
  | cons e es ih =>
    obtain ⟨q, a, rfl⟩ := exists_deed (hes e List.mem_cons_self)
    rw [List.filterMap_cons_some (change?_deed h q a), List.map_cons,
      ih fun e' he' => hes e' (List.mem_cons_of_mem _ he')]

theorem filterMap_map_deed (h : Handle) (log : List (Change × Except Refusal Unit)) :
    (log.map fun e => e.1.deed h e.2).filterMap change? = log := by
  rw [List.filterMap_map]
  refine (List.filterMap_congr fun e _ => change?_deed h e.1 e.2).trans ?_
  exact List.filterMap_some

end Deed

namespace Registry

variable {r r' : Registry} {h : Handle} {c : Counter}

theorem insert_self_table {table : Std.ExtTreeMap Handle Counter} (hc : table[h]? = some c) :
    table.insert h c = table := by
  apply Std.ExtTreeMap.ext_getElem?
  intro k
  rw [getElem?_table_insert]
  split
  · rename_i heq
    rw [← heq, hc]
  · rfl

theorem put_apply (hc : r.table[h]? = some c) (q : Change) :
    r.put h (q.apply c) =
      ((q.attempt c).1, { r with table := r.table.insert h (q.attempt c).2 }) := by
  unfold Change.attempt
  cases q.apply c with
  | ok d => rfl
  | error e => simp only [put, insert_self_table hc]

/-- The deed that makes a change is an attempt at it. -/
theorem act_deed (hc : r.table[h]? = some c) {q : Change} {a : Except Refusal Unit}
    (hact : r.act (q.deed h a).1 = .ok ((q.deed h a).2, r')) :
    a = (q.attempt c).1 ∧ r' = { r with table := r.table.insert h (q.attempt c).2 } := by
  have hput : r.put h (q.apply c) = (a, r') := by
    cases q with
    | add x => exact Except.ok.inj ((act_add hc x).symm.trans hact)
    | sub x => exact Except.ok.inj ((act_sub hc x).symm.trans hact)
  rw [put_apply hc] at hput
  exact ⟨(congrArg Prod.fst hput).symm, (congrArg Prod.snd hput).symm⟩

/-- Deeds that make changes to one counter are attempts at them in this order. -/
theorem Does.attempts {log : List (Change × Except Refusal Unit)}
    (hdoes : r.Does (log.map fun e => e.1.deed h e.2) r') (hc : r.table[h]? = some c) :
    log.map Prod.snd = (Change.attemptAll c (log.map Prod.fst)).1 ∧
      r' = { r with table := r.table.insert h (Change.attemptAll c (log.map Prod.fst)).2 } := by
  induction log generalizing r c with
  | nil =>
    cases hdoes
    refine ⟨rfl, ?_⟩
    simp only [List.map_nil, Change.attemptAll, insert_self_table hc]
  | cons e log ih =>
    obtain ⟨mid, hact, hrest⟩ := hdoes
    obtain ⟨hanswer, rfl⟩ := act_deed hc hact
    obtain ⟨hanswers, hend⟩ := ih hrest ((getElem?_table_insert _ _ _ _).trans (if_pos rfl))
    rw [hend, List.map_cons, List.map_cons, Change.attemptAll, ← hanswers, ← hanswer,
      insert_insert_table]
    exact ⟨rfl, rfl⟩

end Registry

/-! ## Members of a crowd -/

namespace Lease

/-- Asks the host for the change. -/
def change (l : Lease) : Change → Script Call.Answer (Except Refusal Unit)
  | .add x => l.add x
  | .sub x => l.sub x

/-- Asks the host for the changes, one after the other. -/
def changeAll (l : Lease) (qs : List Change) : Script Call.Answer (List (Except Refusal Unit)) :=
  qs.mapM l.change

theorem carryOut_changeAll_cons (l : Lease) (q : Change) (qs : List Change) :
    honest.carryOut (l.changeAll (q :: qs)) =
      (honest.carryOut (l.change q)).bind fun a =>
        (honest.carryOut (l.changeAll qs)).bind fun as => .done (a :: as) := by
  rw [changeAll, List.mapM_cons, Script.bind_eq, carryOut_bind]
  refine congrArg _ (funext fun a => ?_)
  rw [Script.bind_eq, carryOut_bind]
  rfl

theorem asks_changeAll (l : Lease) (qs : List Change) :
    (honest.carryOut (l.changeAll qs)).Asks (Action.Changes l.handle) := by
  induction qs with
  | nil => trivial
  | cons q qs ih =>
    rw [carryOut_changeAll_cons]
    refine Script.Asks.bind ?_ fun a => ih.bind fun as => trivial
    cases q <;> exact ⟨rfl, fun _ => trivial⟩

theorem follows_change {l : Lease} {q : Change} {w : List Deed} {a : Except Refusal Unit}
    (h : (honest.carryOut (l.change q)).Follows w a) : w = [q.deed l.handle a] := by
  cases q <;>
  · obtain ⟨b, w', rfl, rfl, rfl⟩ := h
    rfl

/-- A member that is through has asked for its changes in order, and has their answers. -/
theorem follows_changeAll {l : Lease} {qs : List Change} {w : List Deed}
    {as : List (Except Refusal Unit)} (h : (honest.carryOut (l.changeAll qs)).Follows w as) :
    as.length = qs.length ∧ w = (qs.zip as).map fun e => e.1.deed l.handle e.2 := by
  induction qs generalizing w as with
  | nil =>
    obtain ⟨rfl, rfl⟩ := h
    exact ⟨rfl, rfl⟩
  | cons q qs ih =>
    rw [carryOut_changeAll_cons, Script.follows_bind] at h
    obtain ⟨w₁, w₂, a, rfl, hfirst, hrest⟩ := h
    obtain ⟨w₃, w₄, as', rfl, hothers, rfl, rfl⟩ := Script.follows_bind.1 hrest
    obtain ⟨hlength, rfl⟩ := ih hothers
    rw [follows_change hfirst, List.append_nil]
    exact ⟨congrArg Nat.succ hlength, rfl⟩

end Lease

/-! ## Interleavings to the end -/

namespace Pool

section Ends

variable {α : Type}

/-- All threads have come to their ends, with these results. -/
def Ended (p : Pool α) (results : List α) : Prop :=
  p.strands.map Strand.result? = results.map some

/-- However the turns are given, further turns can bring all threads to their ends, and when they
are there, the results and the registry are as `P` says. -/
def Always (p : Pool α) (P : List α → Registry → Prop) : Prop :=
  ∀ schedule, (∃ later results, (p.run (schedule ++ later)).Ended results) ∧
    ∀ results, (p.run schedule).Ended results → P results (p.run schedule).registry

/-- The turns can be given such that all threads come to their ends and the results and the registry
are as `P` says. -/
def Possibly (p : Pool α) (P : List α → Registry → Prop) : Prop :=
  ∃ schedule results, (p.run schedule).Ended results ∧ P results (p.run schedule).registry

theorem Always.mono {p : Pool α} {P R : List α → Registry → Prop} (h : p.Always P)
    (hPR : ∀ results after, P results after → R results after) : p.Always R :=
  fun schedule => ⟨(h schedule).1, fun results hend => hPR results _ ((h schedule).2 results hend)⟩

theorem Always.possibly {p : Pool α} {P : List α → Registry → Prop} (h : p.Always P) :
    p.Possibly P := by
  obtain ⟨⟨schedule, results, hend⟩, -⟩ := h []
  exact ⟨schedule, results, hend, (h schedule).2 results hend⟩

/-- A condition that suffices for all interleavings and is needed for one of them makes them all
alike. -/
theorem possibly_iff_always_iff {p : Pool α} {P : List α → Registry → Prop} {condition : Prop}
    (hsuffices : condition → p.Always P) (hneeds : p.Possibly P → condition) :
    (p.Possibly P ↔ p.Always P) ∧ (p.Always P ↔ condition) :=
  ⟨⟨fun h => hsuffices (hneeds h), Always.possibly⟩, fun h => hneeds h.possibly, hsuffices⟩

/-- The counter under `h` is hosted, and no thread is dead or has anything else to do than to change
it. -/
structure Busy (h : Handle) (p : Pool α) : Prop where
  live : p.registry.IsLive h
  strand : ∀ (i : Nat) (s : Strand α), p.strands[i]? = some s →
    ∃ t, s = .going t ∧ t.Asks (Action.Changes h)

end Ends

end Pool

/-- A change to a hosted counter finds it, and the counter is hosted as before. -/
theorem Registry.exists_act_of_changes {r : Registry} {h : Handle} (hlive : r.IsLive h) {q : Action}
    (hq : q.Changes h) : ∃ a r', r.act q = .ok (a, r') ∧ r'.IsLive h := by
  obtain ⟨c, hc⟩ := isLive_iff.1 hlive
  have hput (q : Change) : (r.put h (q.apply c)).2.IsLive h := by
    rw [put_apply hc, isLive_insert]
    exact .inl rfl
  cases q with
  | add k x =>
    cases hq
    exact ⟨_, _, act_add hc x, hput (.add x)⟩
  | sub k x =>
    cases hq
    exact ⟨_, _, act_sub hc x, hput (.sub x)⟩
  | look | setGate | draw | place | read | remove => exact hq.elim

namespace Strand

variable {α : Type} {h : Handle} {r : Registry}

theorem busy_step {s : Script Action.Answer α} (hs : s.Asks (Action.Changes h))
    (hlive : r.IsLive h) :
    (step s r).2.IsLive h ∧ ∃ t, (step s r).1 = .going t ∧ t.Asks (Action.Changes h) := by
  induction s with
  | done a => exact ⟨hlive, .done a, rfl, trivial⟩
  | report e rest ih => exact ih hs
  | ask q next ih =>
    obtain ⟨a, r', hact, hlive'⟩ := Registry.exists_act_of_changes hlive hs.1
    simp only [step, hact]
    exact ⟨hlive', next a, rfl, hs.2 a⟩

end Strand

namespace Pool

section Busy

variable {α : Type} {p : Pool α} {h : Handle}

theorem Busy.turn (hp : p.Busy h) (i : Nat) : (p.turn i).Busy h := by
  cases hi : p.strands[i]? with
  | none => rwa [show p.turn i = p by simp only [Pool.turn, hi]]
  | some s =>
    obtain ⟨t, rfl, ht⟩ := hp.strand i s hi
    obtain ⟨hlive, hgoing⟩ := Strand.busy_step ht hp.live
    have hregistry : (p.turn i).registry = (Strand.step t p.registry).2 := by
      simp only [Pool.turn, hi, Strand.turn]
    refine ⟨hregistry ▸ hlive, fun j s' hs' => ?_⟩
    rw [getElem?_strands_turn] at hs'
    split at hs'
    · rename_i hij
      subst hij
      rw [hi] at hs'
      cases hs'
      exact hgoing
    · exact hp.strand j s' hs'

theorem Busy.run (hp : p.Busy h) (schedule : List Nat) : (p.run schedule).Busy h := by
  induction schedule generalizing p with
  | nil => exact hp
  | cons i schedule ih => exact ih (hp.turn i)

theorem Busy.asks (hp : p.Busy h) (i : Nat) (s : Strand α) (hs : p.strands[i]? = some s) :
    s.Asks (Action.Changes h) := by
  obtain ⟨t, rfl, ht⟩ := hp.strand i s hs
  exact ht

/-- With enough turns all threads come to their ends. -/
theorem Busy.exists_ended (hp : p.Busy h) (schedule : List Nat) :
    ∃ later results, (p.run (schedule ++ later)).Ended results := by
  obtain ⟨later, hended⟩ := (p.run schedule).exists_all_ended p.strands.length
  rw [← run_append] at hended
  have hall : (p.run (schedule ++ later)).strands.map Strand.result? ∈
      Set.range (List.map (some : α → Option α)) := by
    rw [Set.range_list_map]
    intro a ha
    obtain ⟨s, hs, rfl⟩ := List.mem_map.1 ha
    obtain ⟨i, hi⟩ := List.mem_iff_getElem?.1 hs
    obtain ⟨t, rfl, -⟩ := (hp.run _).strand i s hi
    have hlt := (List.getElem?_eq_some_iff.1 hi).1
    rw [length_strands_run] at hlt
    obtain ⟨a, rfl⟩ := hended i t hlt hi
    exact ⟨a, rfl⟩
  obtain ⟨results, hresults⟩ := hall
  exact ⟨later, results, hresults.symm⟩

end Busy

/-- What the threads do, thread by thread, is what is done in the order of the deeds. -/
theorem flatMap_ofThread_perm {α : Type} (p : Pool α) (schedule : List Nat) :
    ((List.range p.strands.length).flatMap fun j => Deed.ofThread j (p.deeds schedule)).Perm
      ((p.deeds schedule).map Prod.snd) := by
  induction schedule generalizing p with
  | nil => simp [Deed.ofThread, deeds]
  | cons i schedule ih =>
    have hnext := ih (p.turn i)
    rw [length_strands_turn] at hnext
    have hhead : ((List.range p.strands.length).flatMap fun j =>
        if i = j then (p.deed? i).toList else []) = (p.deed? i).toList := by
      rw [flatMap_range_ite]
      by_cases hlt : i < p.strands.length
      · rw [if_pos hlt]
      · rw [if_neg hlt, deed?, List.getElem?_eq_none (by omega)]
        rfl
    have hdeeds : (p.deeds (i :: schedule)).map Prod.snd =
        (p.deed? i).toList ++ ((p.turn i).deeds schedule).map Prod.snd := by
      rw [deeds, List.map_append]
      cases p.deed? i <;> rfl
    simp only [ofThread_deeds_cons]
    rw [hdeeds]
    refine (List.flatMap_append_perm _ _ _).symm.trans ?_
    rw [hhead]
    exact hnext.append_left _

/-- The changes that are asked for under a schedule, in order and with their answers. -/
def log {α : Type} (p : Pool α) (schedule : List Nat) : List (Change × Except Refusal Unit) :=
  ((p.deeds schedule).map Prod.snd).filterMap Deed.change?

theorem log_perm {α : Type} (p : Pool α) (schedule : List Nat) :
    (p.log schedule).Perm ((List.range p.strands.length).flatMap fun j =>
      (Deed.ofThread j (p.deeds schedule)).filterMap Deed.change?) := by
  have hperm := (p.flatMap_ofThread_perm schedule).filterMap Deed.change?
  rw [List.filterMap_flatMap] at hperm
  exact hperm.symm

/-- Threads that do nothing else than to change the counter under `h` leave it where their changes
lead, in the order in which they come, and get the answers in this order. Nothing else in the
registry changes. -/
theorem Busy.attempts {α : Type} {p : Pool α} {h : Handle} {c : Counter} (hp : p.Busy h)
    (hc : p.registry.table[h]? = some c) (schedule : List Nat) :
    (p.log schedule).map Prod.snd = (Change.attemptAll c ((p.log schedule).map Prod.fst)).1 ∧
      (p.run schedule).registry = { p.registry with
        table := p.registry.table.insert h
          (Change.attemptAll c ((p.log schedule).map Prod.fst)).2 } := by
  have hchanges : ∀ e ∈ (p.deeds schedule).map Prod.snd, e.1.Changes h := by
    intro e he
    obtain ⟨e', he', rfl⟩ := List.mem_map.1 he
    exact asks_of_mem_deeds hp.asks schedule e' he'
  have hdoes := p.does_deeds schedule
  rw [← Deed.map_deed_filterMap hchanges] at hdoes
  exact hdoes.attempts hc

/-! ## The order of a crowd -/

/-- The pool in which each member, with its lease, asks for its own changes. -/
def ofCrowd (r : Registry) (crowd : List (Lease × List Change)) :
    Pool (List (Except Refusal Unit)) :=
  start r (crowd.map fun m => honest.carryOut (m.1.changeAll m.2))

section Crowd

variable {r : Registry} {h : Handle} {c : Counter} {crowd : List (Lease × List Change)}

theorem getElem?_strands_ofCrowd (r : Registry) (crowd : List (Lease × List Change)) (i : Nat) :
    (ofCrowd r crowd).strands[i]? =
      crowd[i]?.map fun m => .going (honest.carryOut (m.1.changeAll m.2)) := by
  simp only [ofCrowd, start, List.map_map, List.getElem?_map]
  rfl

theorem length_strands_ofCrowd : (ofCrowd r crowd).strands.length = crowd.length := by
  rw [ofCrowd, start, List.length_map, List.length_map]

theorem busy_ofCrowd (hlive : r.IsLive h) (hcrowd : ∀ m ∈ crowd, m.1.handle = h) :
    (ofCrowd r crowd).Busy h := by
  refine ⟨hlive, fun i s hs => ?_⟩
  rw [getElem?_strands_ofCrowd] at hs
  obtain ⟨m, hm, rfl⟩ := Option.map_eq_some_iff.1 hs
  refine ⟨_, rfl, ?_⟩
  rw [← hcrowd m (List.mem_of_getElem? hm)]
  exact m.1.asks_changeAll m.2

section Through

variable {schedule : List Nat} {results : List (List (Except Refusal Unit))}
  (hend : ((ofCrowd r crowd).run schedule).Ended results)

include hend

theorem length_of_ended : results.length = crowd.length := by
  have hlen := congrArg List.length hend
  rw [List.length_map, List.length_map, length_strands_run, length_strands_ofCrowd] at hlen
  exact hlen.symm

/-- A member that is through has asked for its changes in order, and has their answers. -/
theorem changes_of_ended {i : Nat} (hi : i < crowd.length) (hi' : i < results.length) :
    results[i].length = crowd[i].2.length ∧
      (Deed.ofThread i ((ofCrowd r crowd).deeds schedule)).filterMap Deed.change? =
        crowd[i].2.zip results[i] := by
  have hresult := congrArg (fun l : List (Option (List (Except Refusal Unit))) => l[i]?) hend
  simp only [List.getElem?_map, List.getElem?_eq_getElem hi', Option.map_some,
    Option.map_eq_some_iff] at hresult
  obtain ⟨s, hs, hanswers⟩ := hresult
  have hstart := getElem?_strands_ofCrowd r crowd i
  rw [List.getElem?_eq_getElem hi, Option.map_some] at hstart
  obtain ⟨hlength, hdeeds⟩ := Lease.follows_changeAll (follows_of_ended hstart hs hanswers)
  rw [hdeeds, Deed.filterMap_map_deed]
  exact ⟨hlength, rfl⟩

theorem lengths_of_ended : results.map List.length = crowd.map fun m => m.2.length := by
  have hlength := length_of_ended hend
  refine List.ext_getElem (by simp [hlength]) fun i hi hi' => ?_
  rw [List.length_map] at hi hi'
  simpa only [List.getElem_map] using (changes_of_ended hend hi' hi).1

/-- The log has all that the members asked for, each in its own order. -/
theorem log_asked_perm : (((ofCrowd r crowd).log schedule).map Prod.fst).Perm
    (crowd.flatMap Prod.snd) := by
  have hlength := length_of_ended hend
  have hasked : (List.range crowd.length).map (fun j =>
      ((Deed.ofThread j ((ofCrowd r crowd).deeds schedule)).filterMap Deed.change?).map Prod.fst) =
        crowd.map Prod.snd := by
    refine List.ext_getElem (by simp) fun i hi hi' => ?_
    rw [List.length_map] at hi'
    obtain ⟨hlen, hchanges⟩ := changes_of_ended hend hi' (by omega)
    simp only [List.getElem_map, List.getElem_range]
    rw [hchanges, List.map_fst_zip (by omega)]
  refine (((ofCrowd r crowd).log_perm schedule).map Prod.fst).trans ?_
  rw [List.map_flatMap, List.flatMap_def, length_strands_ofCrowd, hasked, ← List.flatMap_def]

/-- The log has all the answers that the members got. -/
theorem log_answered_perm : (((ofCrowd r crowd).log schedule).map Prod.snd).Perm
    results.flatten := by
  have hlength := length_of_ended hend
  have hanswered : (List.range crowd.length).map (fun j =>
      ((Deed.ofThread j ((ofCrowd r crowd).deeds schedule)).filterMap Deed.change?).map Prod.snd) =
        results := by
    refine List.ext_getElem (by simp [hlength]) fun i hi hi' => ?_
    obtain ⟨hlen, hchanges⟩ := changes_of_ended hend (by omega) hi'
    simp only [List.getElem_map, List.getElem_range]
    rw [hchanges, List.map_snd_zip (by omega)]
  refine (((ofCrowd r crowd).log_perm schedule).map Prod.snd).trans ?_
  rw [List.map_flatMap, List.flatMap_def, length_strands_ofCrowd, hanswered]

end Through

/-- When all members are through, the counter is where their changes lead in some order, and the
answers that they have are the answers in this order. Nothing else in the registry has changed. -/
structure Settled (r : Registry) (h : Handle) (c : Counter) (crowd : List (Lease × List Change))
    (order : List Change) (results : List (List (Except Refusal Unit))) (after : Registry) :
    Prop where
  asked : order.Perm (crowd.flatMap Prod.snd)
  lengths : results.map List.length = crowd.map fun m => m.2.length
  answered : (Change.attemptAll c order).1.Perm results.flatten
  after_eq : after = { r with table := r.table.insert h (Change.attemptAll c order).2 }

variable (hc : r.table[h]? = some c) (hcrowd : ∀ m ∈ crowd, m.1.handle = h)

include hc hcrowd

theorem exists_settled {schedule : List Nat} {results : List (List (Except Refusal Unit))}
    (hend : ((ofCrowd r crowd).run schedule).Ended results) :
    ∃ order, Settled r h c crowd order results ((ofCrowd r crowd).run schedule).registry := by
  have hbusy := busy_ofCrowd (Registry.isLive_iff.2 ⟨c, hc⟩) hcrowd
  obtain ⟨hanswers, hregistry⟩ := hbusy.attempts hc schedule
  refine ⟨_, log_asked_perm hend, lengths_of_ended hend, ?_, hregistry⟩
  rw [← hanswers]
  exact log_answered_perm hend

/-- What holds of all orders of the changes holds of all interleavings of the members. -/
theorem always_of_settled {P : List (List (Except Refusal Unit)) → Registry → Prop}
    (hP : ∀ order results after, Settled r h c crowd order results after → P results after) :
    (ofCrowd r crowd).Always P := by
  have hbusy := busy_ofCrowd (Registry.isLive_iff.2 ⟨c, hc⟩) hcrowd
  refine fun schedule => ⟨hbusy.exists_ended schedule, fun results hend => ?_⟩
  obtain ⟨order, hsettled⟩ := exists_settled hc hcrowd hend
  exact hP order results _ hsettled

end Crowd

end Pool

end Abacus
