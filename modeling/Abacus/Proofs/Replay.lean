import Abacus.Proofs.Conservation
import Abacus.Proofs.Independence
import Abacus.Proofs.Laws

/-!
# What the events tell

The events of a session are a second record of its registry. `Picture` is what can be read off
them: whether the gate is open, and the limit of the counter under each live handle. A picture is
brought up to date by one event after the other (`Picture.replay`), and `Registry.Tells` says that
events bring the picture of one registry to that of another and contradict each other nowhere.

The events of every call tell what it does, also if it meets a dead handle (`Call.truthful_serve`),
so do those of a script of calls, however the answers are distorted
(`Distortion.truthful_carryOut`), and so do those of all that a session does
(`Distortion.isLaw_tells`). `Session.events_tell` is about whole sessions; it leaves out the steps
by which other threads ask for handles, whose events are not collected.
-/

namespace Abacus

/-! ## Pictures -/

/-- What events tell of a registry. -/
@[ext]
structure Picture where
  isOpen : Bool
  /-- The limits of the counters under the live handles. -/
  limits : Std.ExtTreeMap Handle Amount

namespace Picture

/-- The picture after an event. -/
def update (p : Picture) : Event → Picture
  | .issued h limit => { p with limits := p.limits.insert h limit }
  | .removed h => { p with limits := p.limits.erase h }
  | .gateMoved isOpen => { p with isOpen }
  | _ => p

def replay (p : Picture) (es : List Event) : Picture := es.foldl update p

/-- The event does not contradict the picture: a handle that is removed is there, and a gate that
moves was not where it is moved to. -/
def Admits (p : Picture) : Event → Prop
  | .removed h => h ∈ p.limits
  | .gateMoved isOpen => isOpen ≠ p.isOpen
  | _ => True

/-- No event contradicts the picture that the ones before it have left. -/
def AdmitsAll (p : Picture) (es : List Event) : Prop :=
  ∀ before e after, es = before ++ e :: after → (p.replay before).Admits e

variable {p : Picture} {e : Event} {es es' : List Event}

theorem replay_append (p : Picture) (es es' : List Event) :
    p.replay (es ++ es') = (p.replay es).replay es' :=
  List.foldl_append

theorem admitsAll_nil (p : Picture) : p.AdmitsAll [] := by
  intro before e after h
  simp at h

theorem admitsAll_singleton (h : p.Admits e) : p.AdmitsAll [e] := by
  intro before e' after heq
  cases before with
  | nil =>
    cases heq
    exact h
  | cons e'' before => simp at heq

theorem AdmitsAll.append (h : p.AdmitsAll es) (h' : (p.replay es).AdmitsAll es') :
    p.AdmitsAll (es ++ es') := by
  intro before e after heq
  -- The event is one of the second list, perhaps with some of it before, or one of the first.
  rcases List.append_eq_append_iff.1 heq with ⟨mid, rfl, hmid⟩ | ⟨mid, rfl, hmid⟩
  · rw [replay_append]
    exact h' mid e after hmid
  · cases mid with
    | nil =>
      rw [List.append_nil] at h'
      exact h' [] e after hmid.symm
    | cons e' mid =>
      cases hmid
      exact h before e mid rfl

end Picture

namespace Registry

/-- The gate of the registry, and the limits of the counters that it hosts. -/
def picture (r : Registry) : Picture := ⟨r.isOpen, r.table.map fun _ c => c.limit⟩

/-- The events tell how the second registry came from the first. -/
def Tells (r : Registry) (es : List Event) (r' : Registry) : Prop :=
  r.picture.replay es = r'.picture ∧ r.picture.AdmitsAll es

variable {r r' r'' : Registry} {es es' : List Event}

theorem mem_picture {h : Handle} : h ∈ r.picture.limits ↔ r.IsLive h := Std.ExtTreeMap.mem_map

theorem size_picture (r : Registry) : r.picture.limits.size = r.live := Std.ExtTreeMap.size_map

theorem picture_empty (isOpen : Bool) : (empty isOpen).picture = ⟨isOpen, ∅⟩ := by
  refine Picture.ext rfl (Std.ExtTreeMap.ext_getElem? fun k => ?_)
  simp [picture, empty]

theorem limits_insert (table : Std.ExtTreeMap Handle Counter) (h : Handle) (c : Counter) :
    ((table.insert h c).map fun _ c => c.limit) =
      (table.map fun _ c => c.limit).insert h c.limit := by
  apply Std.ExtTreeMap.ext_getElem?
  intro k
  rw [Std.ExtTreeMap.getElem?_map, Std.ExtTreeMap.getElem?_insert, Std.ExtTreeMap.getElem?_insert,
    Std.ExtTreeMap.getElem?_map]
  split <;> rfl

theorem limits_erase (table : Std.ExtTreeMap Handle Counter) (h : Handle) :
    ((table.erase h).map fun _ c => c.limit) = (table.map fun _ c => c.limit).erase h := by
  apply Std.ExtTreeMap.ext_getElem?
  intro k
  rw [Std.ExtTreeMap.getElem?_map, Std.ExtTreeMap.getElem?_erase, Std.ExtTreeMap.getElem?_erase,
    Std.ExtTreeMap.getElem?_map]
  split <;> rfl

/-- A counter that keeps its limit looks the same in the picture. -/
theorem picture_put {h : Handle} {c : Counter} (hc : r.table[h]? = some c)
    {change : Except Refusal Counter} (hchange : ∀ d, change = .ok d → d.limit = c.limit) :
    (r.put h change).2.picture = r.picture := by
  cases change with
  | error e => rfl
  | ok d =>
    refine Picture.ext rfl (Std.ExtTreeMap.ext_getElem? fun k => ?_)
    simp only [put, picture, Std.ExtTreeMap.getElem?_map, getElem?_table_insert]
    split
    · rename_i hk
      rw [← hk, hc, Option.map_some, Option.map_some, hchange d rfl]
    · rfl

theorem Tells.of_eq (h : r'.picture = r.picture) : r.Tells [] r' :=
  ⟨h.symm, r.picture.admitsAll_nil⟩

theorem tells_refl (r : Registry) : r.Tells [] r := .of_eq rfl

theorem Tells.append (h : r.Tells es r') (h' : r'.Tells es' r'') : r.Tells (es ++ es') r'' := by
  refine ⟨?_, h.2.append ?_⟩
  · rw [Picture.replay_append, h.1, h'.1]
  · rw [h.1]
    exact h'.2

theorem tells_singleton {e : Event} (hadmits : r.picture.Admits e)
    (hupdate : r.picture.update e = r'.picture) : r.Tells [e] r' :=
  ⟨hupdate, Picture.admitsAll_singleton hadmits⟩

/-! ## Calls -/

/-- A counter that is placed shows by the event that goes with it, also if it takes the place of
another. -/
theorem tells_issued (r : Registry) (h k : Handle) (limit : Amount) :
    r.Tells [.issued h limit]
      { r with next := k, table := r.table.insert h (.fresh limit) } :=
  tells_singleton trivial (Picture.ext rfl (limits_insert r.table h (.fresh limit)).symm)

theorem tells_removed {h : Handle} (hh : r.IsLive h) :
    r.Tells [.removed h] { r with table := r.table.erase h } :=
  tells_singleton (mem_picture.2 hh) (Picture.ext rfl (limits_erase r.table h).symm)

theorem tells_setGate (r : Registry) (isOpen : Bool) :
    r.Tells ((setGate isOpen).run r).events ((setGate isOpen).run r).registry := by
  rw [run_setGate]
  by_cases hsame : r.isOpen = isOpen
  · rw [if_pos hsame]
    exact .of_eq (Picture.ext hsame.symm rfl)
  · rw [if_neg hsame]
    exact tells_singleton (Ne.symm hsame) rfl

end Registry

/-! ## Scripts -/

theorem Picture.update_of_not_change {p : Picture} {e : Event} (he : e.isChange = false) :
    p.update e = p ∧ p.Admits e := by
  cases e with
  | issued h limit | removed h | gateMoved isOpen => cases he
  | _ => exact ⟨rfl, trivial⟩

namespace Script

variable {α β : Type}

/-- The events tell what the script does to the registry, however far it gets. -/
def Truthful (s : Script Action.Answer α) : Prop :=
  ∀ r : Registry, r.Tells (s.run r).events (s.run r).registry

theorem Truthful.bind {s : Script Action.Answer α} {f : α → Script Action.Answer β}
    (hs : s.Truthful) (hf : ∀ a, (f a).Truthful) : (s.bind f).Truthful := by
  intro r
  rw [run_bind, Outcome.andThen]
  split
  · exact hs r
  · exact (hs r).append (hf _ _)

theorem Truthful.report {s : Script Action.Answer α} (hs : s.Truthful) {e : Event}
    (he : e.isChange = false) : (report e s).Truthful := by
  intro r
  obtain ⟨hupdate, hadmits⟩ := Picture.update_of_not_change (p := r.picture) he
  exact (Registry.tells_singleton hadmits hupdate).append (hs r)

variable {Q : Type} {A : Q → Type}

/-- What changes the picture is left to those who answer the questions. -/
theorem Neutral.truthful_interpret {serve : (q : Q) → Script Action.Answer (A q)}
    (hserve : ∀ q, (serve q).Truthful) {s : Script A α} (hs : s.Neutral) :
    (s.interpret serve).Truthful := by
  induction s with
  | done a => exact Registry.tells_refl
  | ask q next ih => exact (hserve q).bind fun a => ih a (hs a)
  | report e rest ih => exact (ih hs.2).report hs.1

end Script

theorem Call.truthful_serve (q : Call) : q.serve.Truthful := by
  intro r
  cases q with
  | create limit =>
    cases hopen : r.isOpen with
    | false =>
      rw [serve, Registry.run_issue_of_closed hopen]
      exact Registry.tells_singleton trivial rfl
    | true =>
      rw [serve, Registry.run_issue_of_open hopen]
      exact r.tells_issued r.next r.next.succ limit
  | add l x =>
    cases hc : r.table[l.handle]? with
    | none =>
      rw [run_serve_of_dead rfl hc]
      exact r.tells_refl
    | some c =>
      simp only [serve, Script.query, Script.run, Registry.act_add hc]
      exact .of_eq (Registry.picture_put hc fun d => Counter.limit_of_add)
  | sub l x =>
    cases hc : r.table[l.handle]? with
    | none =>
      rw [run_serve_of_dead rfl hc]
      exact r.tells_refl
    | some c =>
      simp only [serve, Script.query, Script.run, Registry.act_sub hc]
      exact .of_eq (Registry.picture_put hc fun d => Counter.limit_of_sub)
  | read l =>
    cases hfind : r.find l.handle <;>
      simp only [serve, Script.query, Script.run, Registry.act, hfind, Except.map] <;>
      exact r.tells_refl
  | destroy l =>
    cases hc : r.table[l.handle]? with
    | none =>
      rw [run_serve_of_dead rfl hc]
      exact r.tells_refl
    | some c =>
      rw [serve, Registry.run_withdraw_of_live hc]
      exact Registry.tells_removed (Registry.isLive_iff.2 ⟨c, hc⟩)

namespace Distortion

variable (d : Distortion)

theorem neutral_distort (q : Call) : (d.distort q).Neutral := by
  cases q with
  | create limit | sub l x | read l | destroy l => exact fun _ => trivial
  | add l x =>
    rw [distort]
    split
    · trivial
    · exact fun _ => trivial

/-- The events tell what a script of calls does, however the host distorts the answers. -/
theorem truthful_carryOut {α : Type} {s : Script Call.Answer α} (hs : s.Neutral) :
    (d.carryOut s).Truthful :=
  hs.truthful_interpret fun q => (d.neutral_distort q).truthful_interpret Call.truthful_serve

end Distortion

/-! ## Threads -/

/-- The actions of threads that only add and subtract do not show in the picture. -/
theorem Registry.picture_act {r r' : Registry} {q : Action} (hq : q.keepsEntries = true)
    {a : q.Answer} (hact : r.act q = .ok (a, r')) : r'.picture = r.picture := by
  cases q with
  | look =>
    cases hact
    rfl
  | add h x =>
    obtain ⟨c, hc, hput⟩ := exists_of_find_map hact
    have hsnd : (r.put h (c.add x)).2 = r' := congrArg Prod.snd hput
    exact hsnd ▸ picture_put hc fun d => Counter.limit_of_add
  | sub h x =>
    obtain ⟨c, hc, hput⟩ := exists_of_find_map hact
    have hsnd : (r.put h (c.sub x)).2 = r' := congrArg Prod.snd hput
    exact hsnd ▸ picture_put hc fun d => Counter.limit_of_sub
  | read h =>
    obtain ⟨c, -, hsame⟩ := exists_of_find_map hact
    cases hsame
    rfl
  | setGate isOpen | draw | place h limit | remove h => cases hq

/-- The events of a session tell of its registry, before any host. -/
theorem Distortion.isLaw_tells (d : Distortion) : d.IsLaw Registry.Tells where
  calls r hc := d.truthful_carryOut hc r
  setGate isOpen r := r.tells_setGate isOpen
  act hq hact := .of_eq (Registry.picture_act hq hact)
  chain := .append

/-! ## Whole sessions -/

namespace Session

variable (s : Session)

theorem run_take (qs : List Step) (k : Nat) :
    (s.run (qs.take k)).1 = (s.run qs).1.take k := by
  induction qs generalizing s k with
  | nil => simp [run]
  | cons q qs ih =>
    cases k with
    | zero => rfl
    | succ k => exact congrArg _ (ih (s.take q).session k)

theorem closing_run (qs : List Step) : (s.run qs).2 = (s.reach qs).close := by
  induction qs generalizing s with
  | nil => rfl
  | cons q qs ih => exact ih (s.take q).session

/-- What a report shows of the registry is how it is after the step. -/
theorem report_of_run {qs : List Step} {k : Nat} {report : Report}
    (hk : (s.run qs).1[k]? = some report) :
    report.isOpen = (s.reach (qs.take (k + 1))).registry.isOpen ∧
      report.live = (s.reach (qs.take (k + 1))).registry.live := by
  induction qs generalizing s k with
  | nil => simp [run] at hk
  | cons q qs ih =>
    cases k with
    | zero =>
      cases hk
      exact ⟨rfl, rfl⟩
    | succ k => exact ih (s.take q).session hk

/-- The events of a session, replayed from an empty table, show after every step the gate and the
limit of the counter under each live handle, and after the last drop how many counters are left. No
event on the way contradicts the ones before it. -/
theorem events_tell (d : Distortion) (isOpen : Bool) (qs : List Step)
    (hqs : ∀ q ∈ qs, q.createsAside = false) :
    let reports := ((start d isOpen).run qs).1
    let closing := ((start d isOpen).run qs).2
    let shown (k : Nat) : Picture :=
      Picture.replay ⟨isOpen, ∅⟩ ((reports.take k).flatMap Report.events)
    let events := reports.flatMap Report.events ++ closing.events
    (∀ k, shown k = ((start d isOpen).reach (qs.take k)).registry.picture) ∧
    (∀ k report, reports[k]? = some report →
      report.isOpen = (shown (k + 1)).isOpen ∧ report.live = (shown (k + 1)).limits.size) ∧
    (Picture.replay ⟨isOpen, ∅⟩ events).limits.size = closing.live ∧
    ∀ before e after, events = before ++ e :: after →
      (Picture.replay ⟨isOpen, ∅⟩ before).Admits e := by
  intro reports closing shown events
  let s := start d isOpen
  have hblank : s.registry.picture = ⟨isOpen, ∅⟩ := Registry.picture_empty isOpen
  have hshown (k : Nat) : shown k = (s.reach (qs.take k)).registry.picture := by
    have htells := d.isLaw_tells.run (s := s) fun q hq => hqs q (List.mem_of_mem_take (i := k) hq)
    simp only [shown]
    rw [← hblank, ← htells.1, s.run_take]
  obtain ⟨last, hdropped, hlive⟩ := (s.reach qs).distortion.isLaw_tells.exists_dropAll
    (s.reach qs).registry (s.reach qs).movables.toList
  have hclosing : closing = dropAll (s.reach qs).distortion (s.reach qs).registry
      (s.reach qs).movables.toList := s.closing_run qs
  have htold : s.registry.Tells events last := by
    simp only [events, hclosing]
    exact (d.isLaw_tells.run (s := s) hqs).append hdropped
  rw [Registry.Tells, hblank] at htold
  refine ⟨hshown, ?_, ?_, htold.2⟩
  · intro k report hreport
    rw [hshown, Registry.size_picture]
    exact s.report_of_run hreport
  · rw [htold.1, Registry.size_picture, hclosing, hlive]

/-- A host that rejects additions undoes a move, a hosted counter loses its handle to a forged lease
before it is dropped, and the gate is closed twice and opened once. -/
theorem events_tell_of_undone_move :
    let s := start ⟨true, 0#128, some 3#128⟩ true
    let qs : List Step :=
      [.newMovable 0 10#128 .inPlace, .movable 0 (.add 5#128), .movable 0 .move,
        .newMovable 1 7#128 .hosted, .forgeLease 0 ⟨⟨1#64⟩, 9#128⟩, .lease 0 .destroy,
        .movable 1 .drop, .registry (.setGate false), .registry (.setGate false),
        .newLease 1 4#128, .registry (.setGate true), .newLease 1 4#128]
    let events := (s.run qs).1.flatMap Report.events ++ (s.run qs).2.events
    (∀ q ∈ qs, q.createsAside = false) ∧
    events =
      [.made 10#128 .inPlace, .issued ⟨0#64⟩ 10#128, .misfit 5#128 10#128 (.overflow 5#128 3#128),
        .removed ⟨0#64⟩, .issued ⟨1#64⟩ 7#128, .made 7#128 .hosted, .removed ⟨1#64⟩, .letGo,
        .gateMoved false, .turnedAway 4#128, .gateMoved true, .issued ⟨2#64⟩ 4#128] ∧
    (Picture.replay ⟨true, ∅⟩ events).limits.size = 1 := by
  intro s qs events
  have hqs : ∀ q ∈ qs, q.createsAside = false := by decide
  obtain ⟨-, -, hsize, -⟩ := events_tell ⟨true, 0#128, some 3#128⟩ true qs hqs
  refine ⟨hqs, by decide +kernel, hsize.trans ?_⟩
  decide +kernel

end Session

end Abacus
