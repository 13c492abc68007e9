import Abacus.Proofs.Honest

/-!
# Calls on different handles

Calls through leases work on one counter each. What such a call answers depends on the counter
under its own handle only (`Call.run_serve_congr`), and it leaves the rest of the registry alone
(`Call.run_serve_frame`). So in a list of calls those on one handle go as if they were alone
(`Registry.attend_filter`), and two lists that have the same calls in the same order on every
handle come to the same end (`Registry.attend_rearranged`). The leases may be forged and the
handles dead: a call that meets a dead handle fails by itself, and the calls after it go on.
-/

namespace Abacus

/-! ## One call -/

/-- Whether a call goes through a lease on `h`. -/
def Call.isOn (h : Handle) (q : Call) : Bool := q.through?.any fun l => l.handle = h

/-- Whether a call asks for no handle, so that it goes through a lease. -/
def Call.isLeased (q : Call) : Bool := q.through?.isSome

/-- A call and what came of it: the answer, or the failure at a dead handle. -/
abbrev Call.Upshot : Type := (q : Call) × Except DeadHandle q.Answer

namespace Call

variable {q : Call} {l : Lease} {r r' : Registry} {h : Handle}

theorem isOn_iff (hq : q.through? = some l) : q.isOn h = true ↔ l.handle = h := by
  simp [isOn, hq]

theorem exists_through (hq : q.isLeased = true) : ∃ l, q.through? = some l :=
  Option.isSome_iff_exists.1 hq

theorem run_serve_of_dead (hq : q.through? = some l) (hc : r.table[l.handle]? = none) :
    q.serve.run r = ⟨.error ⟨l.handle⟩, r, []⟩ := by
  have hserve : Distortion.honest.carryOut (.query q) = q.serve :=
    (Distortion.carryOut_honest _).trans (Script.bind_done q.serve)
  rw [← hserve]
  exact run_of_dead hq hc

/-- What a call answers, and what it makes of its counter, depends on that counter only. -/
theorem run_serve_congr (hq : q.through? = some l)
    (hc : r.table[l.handle]? = r'.table[l.handle]?) :
    (q.serve.run r).result = (q.serve.run r').result ∧
      (q.serve.run r).registry.table[l.handle]? = (q.serve.run r').registry.table[l.handle]? := by
  cases hfound : r.table[l.handle]? with
  | none =>
    rw [run_serve_of_dead hq hfound, run_serve_of_dead hq (hc.symm.trans hfound)]
    exact ⟨rfl, hc⟩
  | some c =>
    have hfind := Registry.find_eq_ok_iff.2 hfound
    have hfind' := Registry.find_eq_ok_iff.2 (hc.symm.trans hfound)
    have hput (change : Except Refusal Counter) :
        (r.put l.handle change).1 = (r'.put l.handle change).1 ∧
          (r.put l.handle change).2.table[l.handle]? =
            (r'.put l.handle change).2.table[l.handle]? := by
      cases change with
      | error e => exact ⟨rfl, hc⟩
      | ok d => simp [Registry.put]
    cases q with
    | create limit => cases hq
    | add k x =>
      cases hq
      simp only [serve, Script.query, Script.run, Registry.act, hfind, hfind', Except.map]
      exact ⟨congrArg _ (hput _).1, (hput _).2⟩
    | sub k x =>
      cases hq
      simp only [serve, Script.query, Script.run, Registry.act, hfind, hfind', Except.map]
      exact ⟨congrArg _ (hput _).1, (hput _).2⟩
    | read k =>
      cases hq
      simp only [serve, Script.query, Script.run, Registry.act, hfind, hfind', Except.map]
      exact ⟨trivial, hc⟩
    | destroy k =>
      cases hq
      simp only [serve, Registry.run_withdraw_of_live hfound,
        Registry.run_withdraw_of_live (hc.symm.trans hfound)]
      simp

/-- A call leaves everything but its own counter as it was. -/
theorem run_serve_frame (hq : q.through? = some l) (r : Registry) :
    (q.serve.run r).registry.isOpen = r.isOpen ∧ (q.serve.run r).registry.next = r.next ∧
      ∀ h, l.handle ≠ h → (q.serve.run r).registry.table[h]? = r.table[h]? := by
  cases hfound : r.table[l.handle]? with
  | none =>
    rw [run_serve_of_dead hq hfound]
    exact ⟨rfl, rfl, fun _ _ => rfl⟩
  | some c =>
    have hfind := Registry.find_eq_ok_iff.2 hfound
    have hput (change : Except Refusal Counter) :
        (r.put l.handle change).2.isOpen = r.isOpen ∧ (r.put l.handle change).2.next = r.next ∧
          ∀ h, l.handle ≠ h → (r.put l.handle change).2.table[h]? = r.table[h]? := by
      cases change with
      | error e => exact ⟨rfl, rfl, fun _ _ => rfl⟩
      | ok d =>
        refine ⟨rfl, rfl, fun h hne => ?_⟩
        exact (Registry.getElem?_table_insert _ _ _ _).trans (if_neg hne)
    cases q with
    | create limit => cases hq
    | add k x | sub k x =>
      cases hq
      simp only [serve, Script.query, Script.run, Registry.act, hfind, Except.map]
      exact hput _
    | read k =>
      cases hq
      simp only [serve, Script.query, Script.run, Registry.act, hfind, Except.map]
      exact ⟨trivial, trivial, fun _ _ => trivial⟩
    | destroy k =>
      cases hq
      simp only [serve, Registry.run_withdraw_of_live hfound]
      refine ⟨trivial, trivial, fun h hne => ?_⟩
      exact (Registry.getElem?_table_erase _ _ _).trans (if_neg hne)

end Call

/-! ## Lists of calls -/

namespace Registry

/-- The honest host attends to the calls one after the other: what came of each, and the registry
at the end. -/
def attend (r : Registry) : List Call → List Call.Upshot × Registry
  | [] => ([], r)
  | q :: qs =>
      let o := q.serve.run r
      let rest := o.registry.attend qs
      (⟨q, o.result⟩ :: rest.1, rest.2)

/-- What came of the calls on `h`, in order. -/
def upshotsOn (r : Registry) (h : Handle) (qs : List Call) : List Call.Upshot :=
  (r.attend qs).1.filter fun u => u.1.isOn h

variable {r r' : Registry} {h : Handle}

theorem upshotsOn_cons (r : Registry) (h : Handle) (q : Call) (qs : List Call) :
    r.upshotsOn h (q :: qs) =
      if q.isOn h then ⟨q, (q.serve.run r).result⟩ :: (q.serve.run r).registry.upshotsOn h qs
      else (q.serve.run r).registry.upshotsOn h qs := by
  rw [upshotsOn, attend, List.filter_cons]
  rfl

theorem attend_frame (r : Registry) {qs : List Call} (hqs : ∀ q ∈ qs, q.isLeased = true) :
    (r.attend qs).2.isOpen = r.isOpen ∧ (r.attend qs).2.next = r.next := by
  induction qs generalizing r with
  | nil => exact ⟨rfl, rfl⟩
  | cons q qs ih =>
    obtain ⟨l, hl⟩ := Call.exists_through (hqs q List.mem_cons_self)
    obtain ⟨hopen, hnext, -⟩ := Call.run_serve_frame hl r
    obtain ⟨hopen', hnext'⟩ := ih (q.serve.run r).registry fun q' hq' =>
      hqs q' (List.mem_cons_of_mem _ hq')
    exact ⟨hopen'.trans hopen, hnext'.trans hnext⟩

/-- The calls on `h` go as if they were alone, in any registry that has the same counter under
`h`. -/
theorem attend_filter (hc : r.table[h]? = r'.table[h]?) {qs : List Call}
    (hqs : ∀ q ∈ qs, q.isLeased = true) :
    r.upshotsOn h qs = (r'.attend (qs.filter (Call.isOn h))).1 ∧
      (r.attend qs).2.table[h]? = (r'.attend (qs.filter (Call.isOn h))).2.table[h]? := by
  induction qs generalizing r r' with
  | nil => exact ⟨rfl, hc⟩
  | cons q qs ih =>
    -- The two registries need to agree under `h` only: a call on `h` takes them both a step
    -- further, any other call only the first.
    obtain ⟨l, hl⟩ := Call.exists_through (hqs q List.mem_cons_self)
    have hrest : ∀ q' ∈ qs, q'.isLeased = true := fun q' hq' => hqs q' (List.mem_cons_of_mem _ hq')
    rw [upshotsOn_cons, List.filter_cons]
    by_cases hon : q.isOn h = true
    · have hlh := (Call.isOn_iff hl).1 hon
      subst hlh
      obtain ⟨hresult, htable⟩ := Call.run_serve_congr hl hc
      obtain ⟨hupshots, hend⟩ := ih htable hrest
      rw [if_pos hon, if_pos hon]
      refine ⟨?_, hend⟩
      rw [hupshots, hresult]
      rfl
    · have hne : l.handle ≠ h := fun e => hon ((Call.isOn_iff hl).2 e)
      rw [if_neg hon, if_neg hon]
      exact ih (((Call.run_serve_frame hl r).2.2 h hne).trans hc) hrest

/-- Two lists of calls that have the same calls in the same order on every handle get the same
upshots on every handle and come to the same registry. On each handle they get what the calls on it
get by themselves, in any registry that has the same counter there. -/
theorem attend_rearranged (r : Registry) (qs qs' : List Call) (hqs : ∀ q ∈ qs, q.isLeased = true)
    (hqs' : ∀ q ∈ qs', q.isLeased = true)
    (hsame : ∀ h, qs.filter (Call.isOn h) = qs'.filter (Call.isOn h)) :
    (∀ h, r.upshotsOn h qs = r.upshotsOn h qs') ∧ (r.attend qs).2 = (r.attend qs').2 ∧
    ∀ (h : Handle) (r' : Registry), r'.table[h]? = r.table[h]? →
      r.upshotsOn h qs = (r'.attend (qs.filter (Call.isOn h))).1 ∧
      (r.attend qs).2.table[h]? = (r'.attend (qs.filter (Call.isOn h))).2.table[h]? := by
  have halone (h : Handle) := attend_filter (r := r) (h := h) rfl hqs
  have halone' (h : Handle) := attend_filter (r := r) (h := h) rfl hqs'
  refine ⟨fun h => ?_, ?_, fun h r' hc => attend_filter hc.symm hqs⟩
  · rw [(halone h).1, hsame, (halone' h).1]
  · obtain ⟨hopen, hnext⟩ := r.attend_frame hqs
    obtain ⟨hopen', hnext'⟩ := r.attend_frame hqs'
    refine Registry.ext (hopen.trans hopen'.symm) (hnext.trans hnext'.symm) ?_
    apply Std.ExtTreeMap.ext_getElem?
    intro h
    rw [(halone h).2, hsame, (halone' h).2]

/-- Six calls on two live handles and a dead one, in two orders. The first handle is given back by
a forged lease, so the addition to it that follows meets a dead handle in both. -/
theorem attend_rearranged_of_forged_lease :
    let a : Lease := ⟨⟨0#64⟩, 10#128⟩
    let b : Lease := ⟨⟨1#64⟩, 3#128⟩
    let forged : Lease := ⟨⟨0#64⟩, 77#128⟩
    let dead : Lease := ⟨⟨7#64⟩, 5#128⟩
    let r : Registry :=
      ⟨false, ⟨2#64⟩, (∅ : Std.ExtTreeMap Handle Counter).insert ⟨0#64⟩ ⟨4#128, 10#128⟩ |>.insert
        ⟨1#64⟩ ⟨2#128, 3#128⟩⟩
    let qs : List Call :=
      [.add a 9#128, .sub b 1#128, .destroy forged, .read dead, .add a 1#128, .read b]
    let qs' : List Call :=
      [.sub b 1#128, .read dead, .read b, .add a 9#128, .destroy forged, .add a 1#128]
    (∀ h, qs.filter (Call.isOn h) = qs'.filter (Call.isOn h)) ∧
      r.upshotsOn ⟨0#64⟩ qs =
        [⟨.add a 9#128, .ok (.error (.overflow 9#128 10#128))⟩, ⟨.destroy forged, .ok ()⟩,
          ⟨.add a 1#128, .error ⟨⟨0#64⟩⟩⟩] ∧
      r.upshotsOn ⟨0#64⟩ qs' = r.upshotsOn ⟨0#64⟩ qs ∧ (r.attend qs').2 = (r.attend qs).2 := by
  intro a b forged dead r qs qs'
  have hsame (h : Handle) : qs.filter (Call.isOn h) = qs'.filter (Call.isOn h) := by
    by_cases ha : h = ⟨0#64⟩
    · subst ha
      decide
    by_cases hb : h = ⟨1#64⟩
    · subst hb
      decide
    simp [qs, qs', List.filter_cons, Call.isOn, Call.through?, a, b, forged, dead, Ne.symm ha,
      Ne.symm hb]
  obtain ⟨hupshots, hend, -⟩ := attend_rearranged r qs qs' (by decide) (by decide) hsame
  exact ⟨hsame, rfl, (hupshots ⟨0#64⟩).symm, hend.symm⟩

end Registry

end Abacus
