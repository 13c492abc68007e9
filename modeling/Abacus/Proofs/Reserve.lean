import Abacus.Proofs.Crowd

/-!
# Changes within the reserve

Threads add to a counter and subtract from it, by amounts of their own. If the counter has room for
all additions together, and holds as much as all subtractions together, then no order of them can
make one fail: what is still to be added always fits above the value, and what is still to be
subtracted always is below it (`Change.accepted_of_reserve`). For additions alone the room is
necessary too, since they are all there in the end (`Change.balance_of_accepted`), and in the same
way for subtractions alone. The sums are exact and may be far beyond the largest amount.
-/

namespace Abacus

/-! ## Orders of changes -/

namespace Change

/-- What all the changes ask to add. -/
def sumAdded (qs : List Change) : Nat := (qs.map added).sum

/-- What all the changes ask to subtract. -/
def sumTaken (qs : List Change) : Nat := (qs.map taken).sum

theorem sumAdded_cons (q : Change) (qs : List Change) :
    sumAdded (q :: qs) = q.added + sumAdded qs := by
  rw [sumAdded, List.map_cons, List.sum_cons, sumAdded]

theorem sumTaken_cons (q : Change) (qs : List Change) :
    sumTaken (q :: qs) = q.taken + sumTaken qs := by
  rw [sumTaken, List.map_cons, List.sum_cons, sumTaken]

theorem sumAdded_perm {qs qs' : List Change} (h : qs.Perm qs') : sumAdded qs = sumAdded qs' :=
  (h.map added).sum_nat

theorem sumTaken_perm {qs qs' : List Change} (h : qs.Perm qs') : sumTaken qs = sumTaken qs' :=
  (h.map taken).sum_nat

theorem sumTaken_of_adds {qs : List Change} (h : ∀ q ∈ qs, ∃ x, q = add x) : sumTaken qs = 0 := by
  refine List.sum_eq_zero_iff_forall_eq_nat.2 fun k hk => ?_
  obtain ⟨q, hq, rfl⟩ := List.mem_map.1 hk
  obtain ⟨x, rfl⟩ := h q hq
  rfl

theorem sumAdded_of_subs {qs : List Change} (h : ∀ q ∈ qs, ∃ x, q = sub x) : sumAdded qs = 0 := by
  refine List.sum_eq_zero_iff_forall_eq_nat.2 fun k hk => ?_
  obtain ⟨q, hq, rfl⟩ := List.mem_map.1 hk
  obtain ⟨x, rfl⟩ := h q hq
  rfl

variable {c : Counter} {qs : List Change}

/-- Changes within the reserve are all accepted. -/
theorem accepted_of_reserve (hc : c.Bounded)
    (hadded : sumAdded qs ≤ c.limit.toNat - c.value.toNat) (htaken : sumTaken qs ≤ c.value.toNat) :
    ∀ a ∈ (attemptAll c qs).1, a = .ok () := by
  induction qs generalizing c with
  | nil => exact fun a ha => absurd ha List.not_mem_nil
  | cons q qs ih =>
    have hle := hc.toNat_le
    rw [sumAdded_cons] at hadded
    rw [sumTaken_cons] at htaken
    rcases attempt_cases hc q with ⟨d, hok, hd, hlimit, hvalue⟩ | ⟨-, hlt⟩
    · have hrest := ih hd (by rw [hlimit]; omega) (by omega)
      rw [attemptAll, hok]
      exact List.forall_mem_cons.2 ⟨rfl, hrest⟩
    · omega

/-- Changes that are all accepted lead to what there was, what they add and not what they
subtract. -/
theorem balance_of_accepted (hc : c.Bounded) (hall : ∀ a ∈ (attemptAll c qs).1, a = .ok ()) :
    (attemptAll c qs).2.Bounded ∧ (attemptAll c qs).2.limit = c.limit ∧
      (attemptAll c qs).2.value.toNat + sumTaken qs = c.value.toNat + sumAdded qs := by
  induction qs generalizing c with
  | nil => exact ⟨hc, rfl, rfl⟩
  | cons q qs ih =>
    rw [sumAdded_cons, sumTaken_cons]
    rcases attempt_cases hc q with ⟨d, hok, hd, hlimit, hvalue⟩ | ⟨herror, -⟩
    · simp only [attemptAll, hok, List.forall_mem_cons] at hall ⊢
      obtain ⟨hbounded, hlimit', hvalue'⟩ := ih hd hall.2
      exact ⟨hbounded, hlimit'.trans hlimit, by omega⟩
    · simp only [attemptAll, herror, List.forall_mem_cons] at hall
      cases hall.1

end Change

/-! ## Interleavings -/

namespace Pool

/-- Every member has as many answers as it has changes, and its changes were all accepted. -/
def AllAccepted (crowd : List (Lease × List Change)) (results : List (List (Except Refusal Unit))) :
    Prop :=
  results = crowd.map fun m => List.replicate m.2.length (.ok ())

section Settled

variable {r after : Registry} {h : Handle} {c : Counter} {crowd : List (Lease × List Change)}
  {order : List Change} {results : List (List (Except Refusal Unit))}

theorem Settled.allAccepted_iff (hsettled : Settled r h c crowd order results after) :
    AllAccepted crowd results ↔ ∀ a ∈ (Change.attemptAll c order).1, a = .ok () := by
  have hmem (a : Except Refusal Unit) :
      a ∈ (Change.attemptAll c order).1 ↔ ∃ as ∈ results, a ∈ as := by
    rw [hsettled.answered.mem_iff, List.mem_flatten]
  constructor
  · rintro hresults a ha
    obtain ⟨as, has, ha⟩ := (hmem a).1 ha
    rw [hresults] at has
    obtain ⟨m, -, rfl⟩ := List.mem_map.1 has
    exact List.eq_of_mem_replicate ha
  · intro hall
    have hsame : results.map (fun as => List.replicate as.length (.ok ())) = results := by
      refine (List.map_congr_left fun as has => ?_).trans (List.map_id results)
      exact (List.eq_replicate_iff.2 ⟨rfl, fun a ha => hall a ((hmem a).2 ⟨as, has, ha⟩)⟩).symm
    calc results = (results.map List.length).map fun n => List.replicate n (.ok ()) := by
          rw [List.map_map]
          exact hsame.symm
      _ = crowd.map fun m => List.replicate m.2.length (.ok ()) := by
          rw [hsettled.lengths, List.map_map]
          rfl

/-- If all changes were accepted, the counter has what it had, what they add and not what they
subtract. -/
theorem Settled.balance (hsettled : Settled r h c crowd order results after) (hc : c.Bounded)
    (hall : AllAccepted crowd results) :
    ∃ c', after = { r with table := r.table.insert h c' } ∧ c'.Bounded ∧ c'.limit = c.limit ∧
      c'.value.toNat + Change.sumTaken (crowd.flatMap Prod.snd) =
        c.value.toNat + Change.sumAdded (crowd.flatMap Prod.snd) := by
  obtain ⟨hbounded, hlimit, hvalue⟩ :=
    Change.balance_of_accepted hc (hsettled.allAccepted_iff.1 hall)
  rw [Change.sumTaken_perm hsettled.asked, Change.sumAdded_perm hsettled.asked] at hvalue
  exact ⟨_, hsettled.after_eq, hbounded, hlimit, hvalue⟩

end Settled

section Crowd

variable {r : Registry} {h : Handle} {c : Counter} {crowd : List (Lease × List Change)}
  (hc : r.table[h]? = some c) (hbounded : c.Bounded) (hcrowd : ∀ m ∈ crowd, m.1.handle = h)

include hc hbounded hcrowd

theorem always_of_reserve
    (hadded : Change.sumAdded (crowd.flatMap Prod.snd) ≤ c.limit.toNat - c.value.toNat)
    (htaken : Change.sumTaken (crowd.flatMap Prod.snd) ≤ c.value.toNat) :
    (ofCrowd r crowd).Always fun results after => AllAccepted crowd results ∧
      ∃ c', after = { r with table := r.table.insert h c' } ∧ c'.limit = c.limit ∧
        c'.value.toNat = c.value.toNat + Change.sumAdded (crowd.flatMap Prod.snd) -
          Change.sumTaken (crowd.flatMap Prod.snd) := by
  refine always_of_settled hc hcrowd fun order results after hsettled => ?_
  have hall : AllAccepted crowd results := by
    refine hsettled.allAccepted_iff.2 (Change.accepted_of_reserve hbounded ?_ ?_)
    · rwa [Change.sumAdded_perm hsettled.asked]
    · rwa [Change.sumTaken_perm hsettled.asked]
  obtain ⟨c', hafter, -, hlimit, hvalue⟩ := hsettled.balance hbounded hall
  exact ⟨hall, c', hafter, hlimit, by omega⟩

/-- If all changes can be accepted, the counter has room for what they come to. -/
theorem reserve_of_possibly
    (hpossibly : (ofCrowd r crowd).Possibly fun results _ => AllAccepted crowd results) :
    c.value.toNat + Change.sumAdded (crowd.flatMap Prod.snd) ≤
        c.limit.toNat + Change.sumTaken (crowd.flatMap Prod.snd) ∧
      Change.sumTaken (crowd.flatMap Prod.snd) ≤
        c.value.toNat + Change.sumAdded (crowd.flatMap Prod.snd) := by
  obtain ⟨schedule, results, hend, hall⟩ := hpossibly
  obtain ⟨order, hsettled⟩ := exists_settled hc hcrowd hend
  obtain ⟨c', -, hbounded', hlimit, hvalue⟩ := hsettled.balance hbounded hall
  have hle := hbounded'.toNat_le
  rw [hlimit] at hle
  omega

end Crowd

/-- Threads ask for additions and subtractions of any amounts. If the counter has room for all the
additions, and holds as much as all the subtractions, then in every interleaving all of them are
accepted, and the value is in the end what it was, with the additions and without the subtractions.
If there are only additions, this is the case as soon as they are all accepted in some interleaving,
and exactly if the counter has room for them; and in the same way if there are only subtractions. -/
theorem reserve_suffices (d : Distortion) (isOpen : Bool) (qs : List Step) {h : Handle}
    {c : Counter} (hc : ((Session.start d isOpen).reach qs).registry.table[h]? = some c)
    (crowd : List (Lease × List Change)) (hcrowd : ∀ m ∈ crowd, m.1.handle = h) :
    let r := ((Session.start d isOpen).reach qs).registry
    let p := ofCrowd r crowd
    let asked := crowd.flatMap Prod.snd
    let room := c.limit.toNat - c.value.toNat
    (Change.sumAdded asked ≤ room → Change.sumTaken asked ≤ c.value.toNat →
      p.Always fun results after => AllAccepted crowd results ∧
        ∃ c', after = { r with table := r.table.insert h c' } ∧ c'.limit = c.limit ∧
          c'.value.toNat = c.value.toNat + Change.sumAdded asked - Change.sumTaken asked) ∧
    ((∀ q ∈ asked, ∃ x, q = .add x) →
      ((p.Possibly fun results _ => AllAccepted crowd results) ↔
        p.Always fun results _ => AllAccepted crowd results) ∧
      ((p.Always fun results _ => AllAccepted crowd results) ↔ Change.sumAdded asked ≤ room)) ∧
    ((∀ q ∈ asked, ∃ x, q = .sub x) →
      ((p.Possibly fun results _ => AllAccepted crowd results) ↔
        p.Always fun results _ => AllAccepted crowd results) ∧
      ((p.Always fun results _ => AllAccepted crowd results) ↔
        Change.sumTaken asked ≤ c.value.toNat)) := by
  intro r p asked room
  have hbounded : c.Bounded := (Session.sound_reach d isOpen qs).registry h c hc
  have hle := hbounded.toNat_le
  have hsuffices (hadded : Change.sumAdded asked ≤ room)
      (htaken : Change.sumTaken asked ≤ c.value.toNat) :=
    always_of_reserve hc hbounded hcrowd hadded htaken
  have halways (hadded : Change.sumAdded asked ≤ room)
      (htaken : Change.sumTaken asked ≤ c.value.toNat) :
      p.Always fun results _ => AllAccepted crowd results :=
    (hsuffices hadded htaken).mono fun results after hend => hend.1
  have hneeds (hpossibly : p.Possibly fun results _ => AllAccepted crowd results) :
      c.value.toNat + Change.sumAdded asked ≤ c.limit.toNat + Change.sumTaken asked ∧
        Change.sumTaken asked ≤ c.value.toNat + Change.sumAdded asked :=
    reserve_of_possibly hc hbounded hcrowd hpossibly
  refine ⟨hsuffices, fun hadds => ?_, fun hsubs => ?_⟩
  · have hnone : Change.sumTaken asked = 0 := Change.sumTaken_of_adds hadds
    refine possibly_iff_always_iff (fun hroom => halways hroom (by omega)) fun hpossibly => ?_
    have hbelow := (hneeds hpossibly).1
    omega
  · have hnone : Change.sumAdded asked = 0 := Change.sumAdded_of_subs hsubs
    refine possibly_iff_always_iff (fun hvalue => halways (by omega) hvalue) fun hpossibly => ?_
    have habove := (hneeds hpossibly).2
    omega

/-- A counter that is at 4 and has the limit 10. Two threads add 5 and subtract 4 in all, and both
get through; two threads that add 7 cannot both get through. -/
theorem reserve_suffices_of_two_crowds :
    let l : Lease := ⟨⟨1#64⟩, 10#128⟩
    let qs : List Step := [.newLease 0 7#128, .newLease 1 10#128, .lease 1 (.add 4#128)]
    let r := ((Session.start .honest true).reach qs).registry
    let mixed : List (Lease × List Change) :=
      [(l, [.add 3#128, .sub 1#128]), (l, [.sub 3#128, .add 2#128])]
    let adders : List (Lease × List Change) := [(l, [.add 3#128]), (l, [.add 4#128])]
    r.table[l.handle]? = some ⟨4#128, 10#128⟩ ∧
    ((ofCrowd r mixed).Always fun results after => AllAccepted mixed results ∧
      ∃ c', after = { r with table := r.table.insert l.handle c' } ∧ c'.value.toNat = 5) ∧
    ¬ (ofCrowd r adders).Possibly fun results _ => AllAccepted adders results := by
  intro l qs r mixed adders
  have hlive : r.table[l.handle]? = some ⟨4#128, 10#128⟩ := by decide +kernel
  have hmixed : ∀ m ∈ mixed, m.1.handle = l.handle := by decide
  have hadders : ∀ m ∈ adders, m.1.handle = l.handle := by decide
  refine ⟨hlive, ?_, fun hpossibly => ?_⟩
  · have hreserve := (reserve_suffices .honest true qs hlive mixed hmixed).1 (by decide) (by decide)
    refine hreserve.mono ?_
    rintro results after ⟨hall, c', hafter, -, hvalue⟩
    exact ⟨hall, c', hafter, hvalue⟩
  · have honly : ∀ q ∈ adders.flatMap Prod.snd, ∃ x, q = .add x := by
      intro q hq
      simp only [adders, List.flatMap_cons, List.flatMap_nil, List.append_nil, List.mem_append,
        List.mem_singleton] at hq
      rcases hq with rfl | rfl <;> exact ⟨_, rfl⟩
    obtain ⟨hsame, hroom⟩ := (reserve_suffices .honest true qs hlive adders hadders).2.1 honly
    exact absurd (hroom.1 (hsame.1 hpossibly)) (by decide)

end Pool

end Abacus
