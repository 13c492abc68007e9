import Mathlib.Data.Bool.Count
import Mathlib.Data.List.Forall2
import Mathlib.Data.List.Perm.Basic
import Mathlib.Data.Set.List
import Abacus.Proofs.Drawing

/-!
# Tenants side by side

Tenants ask for counters and give some of them back, each in a thread of its own and all at the same
time; some may also open or close the gate. A creation takes three actions, and others may come
between them, so that counters are placed in another order than their handles were drawn.

A tenant goes on within its share (`Task.secure_work`), which consists of the fresh counters that it
holds, and what was hosted before belongs to no tenant (`Registry.shared_estate`). So the final
table does not depend on the schedule (`Pool.through_of_ended`). Handles are drawn in sequence,
whoever draws them (`Registry.Does.handles`), and what the tenants saw in the order of the deeds is
what goes with the answers that they got (`Pool.Through.seen_perm`); this gives the handles and the
number of refusals.
-/

namespace Abacus

/-! ## Tenants -/

/-- One task of a tenant. -/
inductive Task
  /-- Asks for a counter. -/
  | create (limit : Amount)
  /-- Gives back one of the leases that the tenant holds, if it holds so many. -/
  | giveBack (position : Nat)
  | setGate (isOpen : Bool)
  deriving DecidableEq

/-- What a tenant has to tell when it is through with its tasks. -/
structure Stay where
  /-- The answers to its creations, in order. -/
  answers : List (Except Refusal Lease)
  returned : List Lease
  /-- The leases that it still holds. -/
  kept : List Lease
  deriving DecidableEq

namespace Task

/-- The limits of the counters that are asked for. -/
def limits (ts : List Task) : List Amount :=
  ts.filterMap fun
    | create limit => some limit
    | _ => none

/-- The number of counters that the tenants ask for. -/
def creations (tenants : List (List Task)) : Nat := (tenants.map fun ts => (limits ts).length).sum

/-- Goes through the tasks of a tenant that holds the given leases. -/
def work : List Task → List Lease → Script Action.Answer Stay
  | [], held => .done ⟨[], [], held⟩
  | create limit :: ts, held =>
      (Registry.issue limit).bind fun answer =>
        (work ts (Load.accepted [answer] ++ held)).bind fun stay =>
          .done { stay with answers := answer :: stay.answers }
  | giveBack position :: ts, held =>
      match held[position]? with
      | none => work ts held
      | some l =>
          (Registry.withdraw l.handle).bind fun _ =>
            (work ts (held.eraseIdx position)).bind fun stay =>
              .done { stay with returned := l :: stay.returned }
  | setGate isOpen :: ts, held => (Registry.setGate isOpen).bind fun _ => work ts held

theorem drawsAtMost_work (ts : List Task) (held : List Lease) :
    (work ts held).DrawsAtMost (limits ts).length := by
  induction ts generalizing held with
  | nil => trivial
  | cons t ts ih =>
    have hmap (held : List Lease) (f : Stay → Stay) :
        ((work ts held).bind fun stay => .done (f stay)).DrawsAtMost (limits ts).length :=
      (ih held).bind (n := 0) fun _ => trivial
    cases t with
    | create limit =>
      have hissue : (Registry.issue limit).DrawsAtMost 1 := by
        refine ⟨Nat.zero_le 1, fun isOpen => ?_⟩
        cases isOpen with
        | false => trivial
        | true => exact ⟨Nat.le_refl 1, fun h => ⟨Nat.zero_le _, fun _ => trivial⟩⟩
      refine (hissue.bind fun answer => hmap _ _).mono ?_
      simp [limits, Nat.add_comm]
    | giveBack position =>
      simp only [work]
      split
      · exact ih held
      · rename_i l _
        have hwithdraw : (Registry.withdraw l.handle).DrawsAtMost 0 :=
          ⟨Nat.le_refl 0, fun _ => trivial⟩
        refine (hwithdraw.bind fun _ => hmap _ _).mono ?_
        simp [limits]
    | setGate isOpen =>
      have hgate : (Registry.setGate isOpen).DrawsAtMost 0 := by
        refine ⟨Nat.le_refl 0, fun before => ?_⟩
        dsimp only
        split <;> trivial
      refine (hgate.bind fun _ => ih held).mono ?_
      simp [limits]

end Task

/-! ## A tenant's share -/

/-- The share consists of fresh counters, one for each of the leases. -/
structure HoldsFresh (held : List Lease) (o : Share) : Prop where
  nodup : (held.map Lease.handle).Nodup
  owned : ∀ h s, o h = some s ↔ ∃ l ∈ held, l.handle = h ∧ s = .placed (.fresh l.limit)

namespace HoldsFresh

variable {held : List Lease} {o : Share} {h : Handle}

theorem nil : HoldsFresh [] .empty := ⟨.nil, fun h s => by simp⟩

theorem cons (ho : HoldsFresh held o) (hfree : o h = none) (limit : Amount) :
    HoldsFresh (⟨h, limit⟩ :: held) (o.set h (.placed (.fresh limit))) := by
  have hnew (l : Lease) (hl : l ∈ held) : l.handle ≠ h := by
    rintro rfl
    have hsome := (ho.owned l.handle _).2 ⟨l, hl, rfl, rfl⟩
    rw [hfree] at hsome
    cases hsome
  refine ⟨List.nodup_cons.2 ⟨fun hmem => ?_, ho.nodup⟩, fun k s => ?_⟩
  · obtain ⟨l, hl, heq⟩ := List.mem_map.1 hmem
    exact hnew l hl heq
  · by_cases hk : k = h
    · subst hk
      rw [Share.set_self]
      constructor
      · intro hs
        cases hs
        exact ⟨_, List.mem_cons_self, rfl, rfl⟩
      · rintro ⟨l, hl, heq, rfl⟩
        rcases List.mem_cons.1 hl with rfl | hl
        · rfl
        · exact absurd heq (hnew l hl)
    · rw [Share.set_of_ne hk, ho.owned]
      constructor
      · rintro ⟨l, hl, heq, rfl⟩
        exact ⟨l, List.mem_cons_of_mem _ hl, heq, rfl⟩
      · rintro ⟨l, hl, heq, rfl⟩
        rcases List.mem_cons.1 hl with rfl | hl
        · exact absurd heq.symm hk
        · exact ⟨l, hl, heq, rfl⟩

theorem of_perm {held' : List Lease} (ho : HoldsFresh held o) (hperm : held.Perm held') :
    HoldsFresh held' o where
  nodup := (hperm.map _).nodup_iff.1 ho.nodup
  owned h s := by simp only [ho.owned, hperm.mem_iff]

theorem tail {l : Lease} (ho : HoldsFresh (l :: held) o) :
    HoldsFresh held (o.without l.handle) := by
  obtain ⟨hnew, hnodup⟩ := List.nodup_cons.1 ho.nodup
  refine ⟨hnodup, fun k s => ?_⟩
  by_cases hk : k = l.handle
  · subst hk
    rw [Share.without_self]
    constructor
    · intro hs
      cases hs
    · rintro ⟨l', hl', heq, -⟩
      exact absurd (List.mem_map.2 ⟨l', hl', heq⟩) hnew
  · rw [Share.without_of_ne hk, ho.owned]
    constructor
    · rintro ⟨l', hl', heq, rfl⟩
      rcases List.mem_cons.1 hl' with rfl | hl'
      · exact absurd heq.symm hk
      · exact ⟨l', hl', heq, rfl⟩
    · rintro ⟨l', hl', heq, rfl⟩
      exact ⟨l', List.mem_cons_of_mem _ hl', heq, rfl⟩

end HoldsFresh

/-! ## What a tenant sees -/

/-- What a tenant sees when a creation is answered. -/
def Stay.sights : Except Refusal Lease → List Sight
  | .error _ => [⟨.gate, false⟩]
  | .ok l => [⟨.gate, true⟩, ⟨.handle, l.handle⟩]

/-- The stay of a tenant that held the given leases in the beginning: every creation is answered by
a lease as asked for or is turned away, and leases do not get lost. -/
structure Stay.Fits (stay : Stay) (ts : List Task) (held : List Lease) (seen : List Sight) :
    Prop where
  answered : List.Forall₂
    (fun limit answer => answer = .error .closed ∨ ∃ h, answer = .ok ⟨h, limit⟩)
    (Task.limits ts) stay.answers
  seen_eq : seen = stay.answers.flatMap Stay.sights
  leases : (Load.accepted stay.answers ++ held).Perm (stay.returned ++ stay.kept)

theorem Registry.secure_issue {limit : Amount} {o : Share}
    {post : Except Refusal Lease → List Sight → Share → Prop} :
    (issue limit).Secure o post ↔
      post (.error .closed) [⟨.gate, false⟩] o ∧
        ∀ h, o h = none →
          post (.ok ⟨h, limit⟩) [⟨.gate, true⟩, ⟨.handle, h⟩]
            (o.set h (.placed (.fresh limit))) := by
  simp [issue, Script.Secure]

theorem Registry.secure_withdraw_bind {α : Type} {h : Handle} {f : Unit → Script Action.Answer α}
    {o : Share} {post : α → List Sight → Share → Prop} :
    ((withdraw h).bind f).Secure o post ↔
      ∃ c, o h = some (.placed c) ∧ (f ()).Secure (o.without h) post := Iff.rfl

theorem Task.secure_work (ts : List Task) {held : List Lease} {o : Share} (ho : HoldsFresh held o) :
    (work ts held).Secure o fun stay seen o' =>
      stay.Fits ts held seen ∧ HoldsFresh stay.kept o' := by
  induction ts generalizing held o with
  | nil => exact ⟨⟨.nil, rfl, .refl _⟩, ho⟩
  | cons t ts ih =>
    cases t with
    | create limit =>
      refine Script.secure_bind.2 (Registry.secure_issue.2 ⟨?_, fun h hfree => ?_⟩)
      · refine Script.secure_bind.2 ((ih ho).mono fun stay seen o' hstay => ?_)
        obtain ⟨⟨hanswered, rfl, hleases⟩, hkept⟩ := hstay
        exact ⟨⟨.cons (.inl rfl) hanswered, by simp [Stay.sights], hleases⟩, hkept⟩
      · refine Script.secure_bind.2 ((ih (ho.cons hfree limit)).mono fun stay seen o' hstay => ?_)
        obtain ⟨⟨hanswered, rfl, hleases⟩, hkept⟩ := hstay
        refine ⟨⟨.cons (.inr ⟨h, rfl⟩) hanswered, by simp [Stay.sights], ?_⟩, hkept⟩
        exact List.perm_middle.symm.trans hleases
    | giveBack position =>
      simp only [work]
      split
      · refine (ih ho).mono fun stay seen o' hstay => ?_
        exact ⟨⟨hstay.1.answered, hstay.1.seen_eq, hstay.1.leases⟩, hstay.2⟩
      · rename_i l hl
        have hperm : held.Perm (l :: held.eraseIdx position) := by
          obtain ⟨hlt, rfl⟩ := List.getElem?_eq_some_iff.1 hl
          exact (List.getElem_cons_eraseIdx_perm hlt).symm
        have howned := (ho.owned l.handle _).2 ⟨l, List.mem_of_getElem? hl, rfl, rfl⟩
        refine Registry.secure_withdraw_bind.2 ⟨_, howned, ?_⟩
        refine Script.secure_bind.2 ((ih (ho.of_perm hperm).tail).mono fun stay seen o' hstay => ?_)
        obtain ⟨⟨hanswered, rfl, hleases⟩, hkept⟩ := hstay
        refine ⟨⟨hanswered, by simp, ?_⟩, hkept⟩
        exact (hperm.append_left _).trans (List.perm_middle.trans (hleases.cons l))
    | setGate isOpen =>
      refine Registry.secure_setGate_bind.2 ((ih ho).mono fun stay seen o' hstay => ?_)
      exact ⟨⟨hstay.1.answered, hstay.1.seen_eq, hstay.1.leases⟩, hstay.2⟩

/-! ## What goes with the answers -/

def Sight.gate? : Sight → Option Bool
  | ⟨.gate, isOpen⟩ => some isOpen
  | ⟨.handle, _⟩ => none

namespace Stay

theorem mem_accepted {answers : List (Except Refusal Lease)} {l : Lease} :
    l ∈ Load.accepted answers ↔ .ok l ∈ answers := by
  rw [Load.accepted, List.mem_filterMap]
  constructor
  · rintro ⟨a, ha, heq⟩
    cases a with
    | error e => cases heq
    | ok l' =>
      cases heq
      exact ha
  · intro hl
    exact ⟨_, hl, rfl⟩

variable (answers : List (Except Refusal Lease))

theorem filterMap_handle :
    (answers.flatMap sights).filterMap Sight.handle? =
      (Load.accepted answers).map Lease.handle := by
  induction answers with
  | nil => rfl
  | cons a answers ih =>
    rw [List.flatMap_cons, List.filterMap_append, ih]
    cases a <;> rfl

theorem filterMap_gate :
    (answers.flatMap sights).filterMap Sight.gate? = answers.map Except.isOk := by
  induction answers with
  | nil => rfl
  | cons a answers ih =>
    rw [List.flatMap_cons, List.filterMap_append, ih]
    cases a <;> rfl

theorem count_isOk : (answers.map Except.isOk).count true = (Load.accepted answers).length := by
  induction answers with
  | nil => rfl
  | cons a answers ih =>
    cases a with
    | error e => exact (List.count_cons_of_ne Bool.false_ne_true).trans ih
    | ok l => exact List.count_cons_self.trans (congrArg (· + 1) ih)

end Stay

namespace Pool

/-! ## What is seen of the gate -/

/-- How the gate was found in the turns of a schedule. -/
def looks {α : Type} (p : Pool α) (schedule : List Nat) : List Bool :=
  (((p.deeds schedule).map Prod.snd).flatMap Deed.seen).filterMap Sight.gate?

theorem gate_of_act {r r' : Registry} {q : Action} {a : q.Answer} (hact : r.act q = .ok (a, r'))
    {b : Bool} (hb : b ∈ (q.sights a).filterMap Sight.gate?) : b = r.isOpen := by
  cases q with
  | look =>
    cases hact
    simpa [Action.sights, Sight.gate?] using hb
  | draw => simp [Action.sights, Sight.gate?] at hb
  | setGate isOpen | place k limit | add k x | sub k x | read k | remove k => cases hb

/-- A gate that stays as it is, is found so. -/
theorem looks_of_gate {α : Type} {p : Pool α} {schedule : List Nat} {isOpen : Bool}
    (h : ∀ k, (p.run (schedule.take k)).registry.isOpen = isOpen) :
    ∀ b ∈ p.looks schedule, b = isOpen := by
  induction schedule generalizing p with
  | nil =>
    intro b hb
    cases hb
  | cons i schedule ih =>
    intro b hb
    rw [looks, deeds, List.map_append, List.flatMap_append, List.filterMap_append,
      List.mem_append] at hb
    rcases hb with hb | hb
    · cases hdeed : p.deed? i with
      | none =>
        rw [hdeed] at hb
        cases hb
      | some e =>
        rw [hdeed] at hb
        have hseen : b ∈ (e.1.sights e.2).filterMap Sight.gate? := by
          simpa [Deed.seen] using hb
        exact (gate_of_act (act_of_deed? hdeed) hseen).trans (h 0)
    · exact ih (fun k => h (k + 1)) b hb

end Pool

/-! ## Tenants in a pool -/

theorem Script.Secure.drawn_of_place {α : Type} {s : Script Action.Answer α} {o : Share}
    {post : α → List Sight → Share → Prop} (hs : s.Secure o post) {r : Registry} {h : Handle}
    {limit : Amount} {a : Unit} (he : Strand.deedOf s r = some ⟨.place h limit, a⟩) :
    o h = some .drawn := by
  induction s with
  | done b => cases he
  | report e rest ih => exact ih hs he
  | ask q next ih =>
    cases hact : r.act q with
    | error d =>
      simp only [Strand.deedOf, hact] at he
      cases he
    | ok p =>
      simp only [Strand.deedOf, hact] at he
      cases he
      exact hs.1

/-- A thread that goes on within its share places no counter where there is one. -/
theorem Pool.Secure.not_live_of_place {α : Type} {p : Pool α} {o : Nat → Share}
    {post : Nat → α → List Sight → Share → Prop} {n : Nat} (hp : p.Secure o post n) {i : Nat}
    {h : Handle} {limit : Amount} {a : Unit} (he : p.deed? i = some ⟨.place h limit, a⟩) :
    ¬ p.registry.IsLive h := by
  obtain ⟨s, hs, hdeed⟩ := Option.bind_eq_some_iff.1 he
  obtain ⟨t, rfl, ht⟩ := hp.strand i s hs
  have hdrawn := ht.drawn_of_place hdeed
  intro hlive
  obtain ⟨c, hc⟩ := Registry.isLive_iff.1 hlive
  obtain ⟨j, hj⟩ := (hp.shared.hosted h c).1 hc
  by_cases hij : i = j
  · subst hij
    rw [hdrawn] at hj
    cases hj
  · have hnone := (hp.shared.apart i j hij).eq_none hdrawn
    rw [hj] at hnone
    cases hnone

/-- Everything that a registry hosts. -/
def Registry.estate (r : Registry) : Share := fun h => r.table[h]?.map .placed

/-- What is hosted already belongs to none of the first `k` threads. -/
theorem Registry.shared_estate {r : Registry}
    (hkeys : ∀ h, r.IsLive h → h.id.toNat < r.next.id.toNat) (k : Nat) :
    r.Shared (Function.update (fun _ => .empty) k r.estate) r.next.id.toNat where
  hosted h c := by
    constructor
    · intro hc
      refine ⟨k, ?_⟩
      rw [Function.update_self, estate, hc, Option.map_some]
    · rintro ⟨i, hi⟩
      by_cases hik : i = k
      · subst hik
        rw [Function.update_self] at hi
        obtain ⟨c', hc', heq⟩ := Option.map_eq_some_iff.1 hi
        cases heq
        exact hc'
      · rw [Function.update_of_ne hik] at hi
        cases hi
  apart := Share.apart_update (fun _ _ _ => Share.empty_apart _) fun _ _ =>
    (Share.empty_apart _).symm
  used_lt i h hh := by
    by_cases hik : i = k
    · subst hik
      rw [Function.update_self, estate] at hh
      cases hc : r.table[h]? with
      | none =>
        rw [hc] at hh
        exact absurd rfl hh
      | some c => exact hkeys h (isLive_iff.2 ⟨c, hc⟩)
    · rw [Function.update_of_ne hik] at hh
      exact absurd rfl hh
  next_eq := (Nat.mod_eq_of_lt r.next.id.isLt).symm

namespace Pool

variable {r : Registry} {tenants : List (List Task)}

/-- A pool of tenants that hold nothing yet. -/
def ofTenants (r : Registry) (tenants : List (List Task)) : Pool Stay :=
  start r (tenants.map fun ts => Task.work ts [])

theorem getElem?_ofTenants {i : Nat} {s : Strand Stay} :
    (ofTenants r tenants).strands[i]? = some s ↔
      ∃ ts, tenants[i]? = some ts ∧ .going (Task.work ts []) = s := by
  simp only [ofTenants, start, List.map_map, List.getElem?_map, Option.map_eq_some_iff]
  rfl

theorem secure_ofTenants (hkeys : ∀ h, r.IsLive h → h.id.toNat < r.next.id.toNat) :
    (ofTenants r tenants).Secure (Function.update (fun _ => .empty) tenants.length r.estate)
      (fun i stay seen o => ∀ ts, tenants[i]? = some ts →
        stay.Fits ts [] seen ∧ HoldsFresh stay.kept o) r.next.id.toNat where
  shared := Registry.shared_estate hkeys tenants.length
  strand i s hs := by
    obtain ⟨ts, hts, rfl⟩ := getElem?_ofTenants.1 hs
    have hlt : i < tenants.length := (List.getElem?_eq_some_iff.1 hts).1
    rw [Function.update_of_ne (by omega)]
    refine ⟨_, rfl, (Task.secure_work ts .nil).mono fun stay seen o' hstay ts' hts' => ?_⟩
    rw [hts] at hts'
    cases hts'
    exact hstay

/-- Tenants draw no more handles than they ask for. -/
theorem room_ofTenants (hroom : r.next.id.toNat + Task.creations tenants < 2 ^ 64)
    (schedule : List Nat) :
    r.next.id.toNat + (ofTenants r tenants).draws schedule ≤ 2 ^ 64 := by
  have hdraws : (ofTenants r tenants).draws schedule ≤ Task.creations tenants := by
    refine draws_le (fun i s hs => ?_) schedule
    obtain ⟨ts, hts, rfl⟩ := getElem?_ofTenants.1 hs
    refine ⟨(Task.limits ts).length, ?_, Task.drawsAtMost_work ts []⟩
    rw [List.getElem?_map, hts]
    rfl
  omega

/-- The tenants of the pool are through, and these were their stays. -/
structure Through (r : Registry) (tenants : List (List Task)) (schedule : List Nat)
    (stays : List Stay) : Prop where
  length_eq : stays.length = tenants.length
  fits : ∀ (i : Nat) (ts : List Task) (stay : Stay), tenants[i]? = some ts →
    stays[i]? = some stay → stay.Fits ts [] ((ofTenants r tenants).sights schedule i)

/-- When the tenants are through, the registry hosts what it hosted before and what they kept. -/
theorem through_of_ended (hkeys : ∀ h, r.IsLive h → h.id.toNat < r.next.id.toNat)
    (hroom : r.next.id.toNat + Task.creations tenants < 2 ^ 64) {schedule : List Nat}
    {stays : List Stay}
    (hend : ((ofTenants r tenants).run schedule).strands.map Strand.result? = stays.map some) :
    Through r tenants schedule stays ∧
    ∀ h c, ((ofTenants r tenants).run schedule).registry.table[h]? = some c ↔
      r.table[h]? = some c ∨
        ∃ stay ∈ stays, ∃ l ∈ stay.kept, l.handle = h ∧ c = .fresh l.limit := by
  obtain ⟨o, hrun, hkept⟩ :=
    (secure_ofTenants hkeys).run_keeping schedule (room_ofTenants hroom schedule)
  have hstrands : (ofTenants r tenants).strands.length = tenants.length := by
    simp [ofTenants, start]
  have hlength : stays.length = tenants.length := by
    have hlen := congrArg List.length hend
    rw [List.length_map, List.length_map, length_strands_run, hstrands] at hlen
    exact hlen.symm
  have hstay (i : Nat) (ts : List Task) (stay : Stay) (hts : tenants[i]? = some ts)
      (hi : stays[i]? = some stay) :
      stay.Fits ts [] ((ofTenants r tenants).sights schedule i) ∧ HoldsFresh stay.kept (o i) := by
    have hresult := congrArg (fun l : List (Option Stay) => l[i]?) hend
    simp only [List.getElem?_map, hi, Option.map_some, Option.map_eq_some_iff] at hresult
    obtain ⟨s, hs, hstay⟩ := hresult
    obtain ⟨t, rfl, hsecure⟩ := hrun.strand i s hs
    have hpost := hsecure.of_result? hstay ts hts
    rwa [List.append_nil] at hpost
  refine ⟨⟨hlength, fun i ts stay hts hi => (hstay i ts stay hts hi).1⟩, fun h c => ?_⟩
  rw [hrun.shared.hosted]
  constructor
  · rintro ⟨i, hi⟩
    by_cases hlt : i < tenants.length
    · obtain ⟨-, hholds⟩ := hstay i _ stays[i] (List.getElem?_eq_getElem hlt)
        (List.getElem?_eq_getElem (by omega))
      obtain ⟨l, hl, heq, hs⟩ := (hholds.owned h _).1 hi
      exact .inr ⟨_, List.getElem_mem _, l, hl, heq, Stake.placed.inj hs⟩
    · rw [hkept i (by omega)] at hi
      by_cases hik : i = tenants.length
      · rw [hik, Function.update_self] at hi
        obtain ⟨c', hc', heq⟩ := Option.map_eq_some_iff.1 hi
        exact .inl (Stake.placed.inj heq ▸ hc')
      · rw [Function.update_of_ne hik] at hi
        cases hi
  · rintro (hc | ⟨stay, hmem, l, hl, rfl, rfl⟩)
    · refine ⟨tenants.length, ?_⟩
      rw [hkept _ (by omega), Function.update_self, Registry.estate, hc, Option.map_some]
    · obtain ⟨i, hlt, rfl⟩ := List.getElem_of_mem hmem
      obtain ⟨-, hholds⟩ := hstay i (tenants.get ⟨i, by omega⟩) stays[i]
        (List.getElem?_eq_getElem _) (List.getElem?_eq_getElem hlt)
      exact ⟨i, (hholds.owned l.handle _).2 ⟨l, hl, rfl, rfl⟩⟩

namespace Through

variable {schedule : List Nat} {stays : List Stay}

theorem fit (h : Through r tenants schedule stays) {i : Nat} (hi : i < stays.length) :
    stays[i].Fits (tenants.get ⟨i, h.length_eq ▸ hi⟩) []
      ((ofTenants r tenants).sights schedule i) :=
  h.fits i _ _ (List.getElem?_eq_getElem _) (List.getElem?_eq_getElem hi)

theorem length_answers (h : Through r tenants schedule stays) :
    (stays.flatMap Stay.answers).length = Task.creations tenants := by
  rw [List.length_flatMap]
  refine congrArg List.sum (List.ext_getElem (by simp [h.length_eq]) fun i hi hi' => ?_)
  rw [List.getElem_map, List.getElem_map]
  exact (h.fit (by simpa using hi)).answered.length_eq.symm

/-- What the tenants saw, in the order of the deeds, is what goes with the answers that they got. -/
theorem seen_perm (h : Through r tenants schedule stays) :
    ((stays.flatMap Stay.answers).flatMap Stay.sights).Perm
      ((((ofTenants r tenants).deeds schedule).map Prod.snd).flatMap Deed.seen) := by
  have hstrands : (ofTenants r tenants).strands.length = stays.length := by
    simp [ofTenants, start, h.length_eq]
  have hsights : (List.range stays.length).map ((ofTenants r tenants).sights schedule) =
      stays.map fun s => s.answers.flatMap Stay.sights := by
    refine List.ext_getElem (by simp) fun i hi hi' => ?_
    rw [List.getElem_map, List.getElem_range, List.getElem_map]
    exact (h.fit (by simpa using hi')).seen_eq
  have hperm := (ofTenants r tenants).flatMap_sights_perm schedule
  rwa [hstrands, List.flatMap_def, hsights, ← List.flatMap_def, ← List.flatMap_assoc] at hperm

/-- The leases carry the handles that were drawn, and those follow each other. -/
theorem handles (h : Through r tenants schedule stays)
    (hroom : r.next.id.toNat + Task.creations tenants < 2 ^ 64) :
    let got := Load.accepted (stays.flatMap Stay.answers)
    (got.map fun l => l.handle.id.toNat).Perm (List.range' r.next.id.toNat got.length) ∧
      ((ofTenants r tenants).run schedule).registry.next.id.toNat =
        r.next.id.toNat + got.length := by
  intro got
  have hgot : got.length ≤ Task.creations tenants :=
    h.length_answers ▸ List.length_filterMap_le _ _
  have hhandles := h.seen_perm.filterMap Sight.handle?
  rw [Stay.filterMap_handle] at hhandles
  obtain ⟨hmap, hnext⟩ := ((ofTenants r tenants).does_deeds schedule).handles
    (n := r.next.id.toNat) (Nat.mod_eq_of_lt r.next.id.isLt).symm
  rw [← hhandles.length_eq, List.length_map] at hmap hnext
  constructor
  · have hrange : (List.range' r.next.id.toNat got.length).map (· % 2 ^ 64) =
        List.range' r.next.id.toNat got.length := by
      refine (List.map_congr_left fun k hk => Nat.mod_eq_of_lt ?_).trans (List.map_id _)
      have hlt := List.mem_range'_1.1 hk
      omega
    have hperm := hhandles.map fun h => h.id.toNat
    rwa [hmap, hrange, List.map_map] at hperm
  · have hfits : r.next.id.toNat + got.length < 2 ^ 64 := by omega
    exact hnext.trans (Nat.mod_eq_of_lt hfits)

/-- A creation was accepted exactly if its look at the gate found it open. -/
theorem looks (h : Through r tenants schedule stays) :
    let got := Load.accepted (stays.flatMap Stay.answers)
    ((ofTenants r tenants).looks schedule).count true = got.length ∧
      ((ofTenants r tenants).looks schedule).count false + got.length = Task.creations tenants := by
  intro got
  have hperm := h.seen_perm.filterMap Sight.gate?
  rw [Stay.filterMap_gate] at hperm
  have hopen : ((ofTenants r tenants).looks schedule).count true = got.length := by
    rw [← Stay.count_isOk]
    exact (hperm.count_eq true).symm
  refine ⟨hopen, ?_⟩
  rw [← hopen, Nat.add_comm, List.count_true_add_count_false, ← h.length_answers]
  exact hperm.length_eq.symm.trans (List.length_map _)

theorem mem_accepted_of_kept (h : Through r tenants schedule stays) {stay : Stay}
    (hstay : stay ∈ stays) {l : Lease} (hl : l ∈ stay.kept) :
    l ∈ Load.accepted (stays.flatMap Stay.answers) := by
  obtain ⟨i, hlt, rfl⟩ := List.getElem_of_mem hstay
  have hleases := (h.fit hlt).leases
  rw [List.append_nil] at hleases
  have hanswer := Stay.mem_accepted.1 (hleases.mem_iff.2 (List.mem_append_right _ hl))
  exact Stay.mem_accepted.2 (List.mem_flatMap.2 ⟨stays[i], hstay, hanswer⟩)

end Through

/-- With enough turns all tenants get through. -/
theorem exists_stays (hkeys : ∀ h, r.IsLive h → h.id.toNat < r.next.id.toNat)
    (hroom : r.next.id.toNat + Task.creations tenants < 2 ^ 64) (schedule : List Nat) :
    ∃ later, ∃ stays : List Stay,
      ((ofTenants r tenants).run (schedule ++ later)).strands.map Strand.result? =
        stays.map some := by
  obtain ⟨later, hended⟩ := ((ofTenants r tenants).run schedule).exists_all_ended tenants.length
  rw [← run_append] at hended
  obtain ⟨o, hrun⟩ := (secure_ofTenants hkeys).run _ (room_ofTenants hroom (schedule ++ later))
  have hall : ∀ a ∈ ((ofTenants r tenants).run (schedule ++ later)).strands.map Strand.result?,
      a ∈ Set.range (some : Stay → Option Stay) := by
    intro a ha
    obtain ⟨s, hs, rfl⟩ := List.mem_map.1 ha
    obtain ⟨i, hlt, rfl⟩ := List.getElem_of_mem hs
    obtain ⟨t, ht, -⟩ := hrun.strand i _ (List.getElem?_eq_getElem hlt)
    rw [length_strands_run] at hlt
    obtain ⟨stay, rfl⟩ := hended i t (by simpa [ofTenants, start] using hlt)
      ((List.getElem?_eq_getElem _).trans (congrArg some ht))
    exact ⟨stay, by rw [ht]; rfl⟩
  have hrange : ((ofTenants r tenants).run (schedule ++ later)).strands.map Strand.result? ∈
      Set.range (List.map (some : Stay → Option Stay)) := by
    rw [Set.range_list_map]
    exact hall
  obtain ⟨stays, hstays⟩ := hrange
  exact ⟨later, stays, hstays.symm⟩

/-- In every interleaving of tenants no counter is placed where there is one, no tenant meets a dead
handle, and all get through if they get their turns. When they are through, the handles that they
were given are the next ones of the sequence, without a gap; the registry hosts what it hosted
before and a fresh counter for each lease that was not given back; and a creation was accepted
exactly if its look at the gate found it open. -/
theorem tenants_settle (r : Registry) (tenants : List (List Task))
    (hkeys : ∀ h, r.IsLive h → h.id.toNat < r.next.id.toNat)
    (hroom : r.next.id.toNat + Task.creations tenants < 2 ^ 64) (schedule : List Nat) :
    let p := ofTenants r tenants
    let now := p.run schedule
    (∀ i h limit a, now.deed? i = some ⟨.place h limit, a⟩ → ¬ now.registry.IsLive h) ∧
    (∀ (i : Nat) (d : DeadHandle), now.strands[i]? ≠ some (.dead d)) ∧
    (∃ later, ∃ stays : List Stay,
      (p.run (schedule ++ later)).strands.map Strand.result? = stays.map some) ∧
    ∀ stays : List Stay, now.strands.map Strand.result? = stays.map some →
      let answers := stays.flatMap Stay.answers
      let got := Load.accepted answers
      stays.length = tenants.length ∧
      (∀ (i : Nat) (ts : List Task) (stay : Stay), tenants[i]? = some ts → stays[i]? = some stay →
        List.Forall₂ (fun limit answer => answer = .error .closed ∨ ∃ h, answer = .ok ⟨h, limit⟩)
          (Task.limits ts) stay.answers ∧
        (Load.accepted stay.answers).Perm (stay.returned ++ stay.kept)) ∧
      answers.length = Task.creations tenants ∧
      (got.map fun l => l.handle.id.toNat).Perm (List.range' r.next.id.toNat got.length) ∧
      now.registry.next.id.toNat = r.next.id.toNat + got.length ∧
      (∀ h c, now.registry.table[h]? = some c ↔ r.table[h]? = some c ∨
        ∃ stay ∈ stays, ∃ l ∈ stay.kept, l.handle = h ∧ c = .fresh l.limit) ∧
      (p.looks schedule).count true = got.length ∧
      (p.looks schedule).count false + got.length = Task.creations tenants ∧
      ((∀ k, (p.run (schedule.take k)).registry.isOpen = true) →
        got.length = Task.creations tenants) ∧
      ((∀ k, (p.run (schedule.take k)).registry.isOpen = false) →
        got = [] ∧ now.registry = r) := by
  intro p now
  obtain ⟨o, hrun⟩ := (secure_ofTenants hkeys).run _ (room_ofTenants hroom schedule)
  refine ⟨fun i h limit a he => hrun.not_live_of_place he, fun i d hi => ?_,
    exists_stays hkeys hroom schedule, fun stays hend => ?_⟩
  · obtain ⟨t, ht, -⟩ := hrun.strand i _ hi
    cases ht
  intro answers got
  obtain ⟨hthrough, htable⟩ := through_of_ended hkeys hroom hend
  obtain ⟨hids, hnext⟩ := hthrough.handles hroom
  obtain ⟨hopen, hall⟩ := hthrough.looks
  refine ⟨hthrough.length_eq, fun i ts stay hts hi => ?_, hthrough.length_answers, hids, hnext,
    htable, hopen, hall, fun hgate => ?_, fun hgate => ?_⟩
  · have hstay := hthrough.fits i ts stay hts hi
    have hleases := hstay.leases
    rw [List.append_nil] at hleases
    exact ⟨hstay.answered, hleases⟩
  · have hnone : (p.looks schedule).count false = 0 :=
      List.count_eq_zero.2 fun hb => by cases looks_of_gate hgate _ hb
    rwa [hnone, Nat.zero_add] at hall
  · have hnone : (p.looks schedule).count true = 0 :=
      List.count_eq_zero.2 fun hb => by cases looks_of_gate hgate _ hb
    have hnil : got = [] := List.eq_nil_of_length_eq_zero (hopen.symm.trans hnone)
    refine ⟨hnil, Registry.ext ?_ (Handle.ext (BitVec.eq_of_toNat_eq ?_)) ?_⟩
    · have hlast := hgate schedule.length
      rw [List.take_length] at hlast
      exact hlast.trans (hgate 0).symm
    · rw [hnext, show Load.accepted (stays.flatMap Stay.answers) = [] from hnil]
      rfl
    · apply Std.ExtTreeMap.ext_getElem?
      intro h
      refine Option.ext fun c => (htable h c).trans ⟨fun hc => ?_, .inl⟩
      refine hc.resolve_right ?_
      rintro ⟨stay, hstay, l, hl, -⟩
      have hmem : l ∈ got := hthrough.mem_accepted_of_kept hstay hl
      rw [hnil] at hmem
      cases hmem

/-- Three tenants on a registry that hosts a counter already: one gives its first lease back, one
closes the gate, and the third comes too late. -/
theorem tenants_settle_of_gate_moving :
    let table := (Registry.empty true).table.insert ⟨3#64⟩ ⟨2#128, 9#128⟩
    let r : Registry := ⟨true, ⟨5#64⟩, table⟩
    let tenants : List (List Task) :=
      [[.create 10#128, .create 20#128, .giveBack 1], [.create 30#128, .setGate false],
        [.create 40#128]]
    let schedule := [0, 1, 1, 0, 0, 1, 0, 0, 0, 0, 1, 2]
    let stays : List Stay :=
      [⟨[.ok ⟨⟨6#64⟩, 10#128⟩, .ok ⟨⟨7#64⟩, 20#128⟩], [⟨⟨6#64⟩, 10#128⟩], [⟨⟨7#64⟩, 20#128⟩]⟩,
        ⟨[.ok ⟨⟨5#64⟩, 30#128⟩], [], [⟨⟨5#64⟩, 30#128⟩]⟩, ⟨[.error .closed], [], []⟩]
    ((ofTenants r tenants).run schedule).strands.map Strand.result? = stays.map some ∧
      (∀ h c, ((ofTenants r tenants).run schedule).registry.table[h]? = some c ↔
        r.table[h]? = some c ∨ ∃ stay ∈ stays, ∃ l ∈ stay.kept, l.handle = h ∧ c = .fresh l.limit) ∧
      ((ofTenants r tenants).looks schedule).count true = 3 ∧
      ((ofTenants r tenants).looks schedule).count false = 1 := by
  intro table r tenants schedule stays
  have hkeys : ∀ h, r.IsLive h → h.id.toNat < r.next.id.toNat := by
    intro h hh
    obtain ⟨c, hc⟩ := Registry.isLive_iff.1 hh
    rw [Registry.getElem?_table_insert] at hc
    split at hc
    · rename_i heq
      rw [← heq]
      decide
    · simp [Registry.empty] at hc
  have hend : ((ofTenants r tenants).run schedule).strands.map Strand.result? =
      stays.map some := by decide +kernel
  obtain ⟨-, -, -, hall⟩ := tenants_settle r tenants hkeys (by decide) schedule
  obtain ⟨-, -, -, -, -, htable, hopen, hclosed, -⟩ := hall stays hend
  have hgot : (Load.accepted (stays.flatMap Stay.answers)).length = 3 := by decide +kernel
  have hasked : Task.creations tenants = 4 := by decide +kernel
  rw [hgot] at hopen hclosed
  rw [hasked] at hclosed
  have hone (k : Nat) (hk : k + 3 = 4) : k = 1 := by omega
  exact ⟨hend, htable, hopen, hone _ hclosed⟩

end Pool

end Abacus
