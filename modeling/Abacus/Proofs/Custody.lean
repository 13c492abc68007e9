import Mathlib.Data.List.Nodup
import Abacus.Proofs.Course

/-!
# Custody of handles

Every hosted counter is in the custody of exactly one owner: a movable counter that is hosted, or
a lease that was handed out and not given back. `Share.Backs d ls o` says that the leases `ls` are
backed by the counters of the share `o`, one each and none besides. Every operation on a movable
counter and on a lease keeps this for the leases of the counter and of everybody else (`ls`), on
every path, also where a move fails and is undone. For sessions it follows that the handles of the
owners are the keys of the table.
-/

namespace Abacus

/-- The lease of a hosted counter. -/
def Movable.leases (m : Movable) : List Lease := m.lease?.toList

namespace Share

/-- Each of the leases stands for a bounded counter of the share, no two of them for the same one,
and there is nothing else in the share. -/
structure Backs (d : Distortion) (ls : List Lease) (o : Share) : Prop where
  nodup : (ls.map Lease.handle).Nodup
  backed : ∀ l ∈ ls, ∃ c, o l.handle = some (.placed c) ∧ c.Bounded ∧
    (d.leaseLimit = none → c.limit = l.limit)
  owned : ∀ h, o h ≠ none → h ∈ ls.map Lease.handle

namespace Backs

variable {d : Distortion} {ls : List Lease} {l : Lease} {o : Share}

theorem empty (d : Distortion) : Backs d [] .empty :=
  ⟨List.nodup_nil, by simp, fun h hh => absurd rfl hh⟩

theorem perm {ls' : List Lease} (ho : Backs d ls o) (h : ls.Perm ls') : Backs d ls' o where
  nodup := (h.map Lease.handle).nodup_iff.1 ho.nodup
  backed l hl := ho.backed l (h.mem_iff.2 hl)
  owned k hk := (h.map Lease.handle).mem_iff.1 (ho.owned k hk)

theorem swap {as bs : List Lease} (ho : Backs d (as ++ (bs ++ ls)) o) :
    Backs d (bs ++ (as ++ ls)) o := by
  rw [← List.append_assoc] at ho ⊢
  exact ho.perm (List.perm_append_comm.append_right ls)

theorem not_mem_of_free {h : Handle} (ho : Backs d ls o) (hfree : o h = none) :
    h ∉ ls.map Lease.handle := by
  intro hmem
  obtain ⟨l, hl, rfl⟩ := List.mem_map.1 hmem
  obtain ⟨c, hc, -⟩ := ho.backed l hl
  rw [hfree] at hc
  cases hc

/-- A handle that was free and has a new counter stands for a new lease. -/
theorem grant {h : Handle} (ho : Backs d ls o) (hfree : o h = none) (limit : Amount) :
    Backs d (d.relabel ⟨h, limit⟩ :: ls) (o.set h (.placed (.fresh limit))) := by
  have hnew := ho.not_mem_of_free hfree
  refine ⟨List.nodup_cons.2 ⟨hnew, ho.nodup⟩, fun l hl => ?_, fun k hk => ?_⟩
  · rcases List.mem_cons.1 hl with rfl | hl
    · refine ⟨.fresh limit, set_self o h _, Counter.bounded_fresh limit, fun hd => ?_⟩
      simp [Distortion.relabel, hd, Counter.fresh]
    · have hne : l.handle ≠ h := fun e => hnew (e ▸ List.mem_map_of_mem hl)
      rw [set_of_ne hne]
      exact ho.backed l hl
  · by_cases hkh : k = h
    · subst hkh
      exact List.mem_cons_self
    · rw [set_of_ne hkh] at hk
      exact List.mem_cons_of_mem _ (ho.owned k hk)

/-- The counter behind a lease may change if its limit stays. -/
theorem update {c c' : Counter} (ho : Backs d (l :: ls) o) (hc : o l.handle = some (.placed c))
    (hlimit : c'.limit = c.limit) (hbounded : c'.Bounded) :
    Backs d (l :: ls) (o.set l.handle (.placed c')) := by
  refine ⟨ho.nodup, fun l' hl' => ?_, fun k hk => ?_⟩
  · by_cases heq : l'.handle = l.handle
    · obtain ⟨c₀, hc₀, -, hlim⟩ := ho.backed l' hl'
      rw [heq, hc] at hc₀
      cases hc₀
      refine ⟨c', ?_, hbounded, fun hd => hlimit.trans (hlim hd)⟩
      rw [heq, set_self]
    · rw [set_of_ne heq]
      exact ho.backed l' hl'
  · by_cases hkl : k = l.handle
    · subst hkl
      exact List.mem_cons_self
    · rw [set_of_ne hkl] at hk
      exact ho.owned k hk

/-- A lease that is given back takes its counter with it. -/
theorem release (ho : Backs d (l :: ls) o) : Backs d ls (o.without l.handle) := by
  obtain ⟨hnew, hnodup⟩ := List.nodup_cons.1 ho.nodup
  refine ⟨hnodup, fun l' hl' => ?_, fun k hk => ?_⟩
  · have hne : l'.handle ≠ l.handle := fun e => hnew (e ▸ List.mem_map_of_mem hl')
    rw [without_of_ne hne]
    exact ho.backed l' (List.mem_cons_of_mem _ hl')
  · have hne : k ≠ l.handle := by
      rintro rfl
      exact hk (without_self o _)
    rw [without_of_ne hne] at hk
    rcases List.mem_cons.1 (ho.owned k hk) with h | h
    · exact absurd h hne
    · exact h

theorem put_add {c : Counter} (ho : Backs d (l :: ls) o) (hc : o l.handle = some (.placed c))
    (hbounded : c.Bounded) (x : Amount) : Backs d (l :: ls) (o.put l.handle (c.add x)).2 := by
  cases hadd : c.add x with
  | error e => exact ho
  | ok c' => exact ho.update hc (Counter.limit_of_add hadd) (hbounded.add hadd)

theorem put_sub {c : Counter} (ho : Backs d (l :: ls) o) (hc : o l.handle = some (.placed c))
    (hbounded : c.Bounded) (x : Amount) : Backs d (l :: ls) (o.put l.handle (c.sub x)).2 := by
  cases hsub : c.sub x with
  | error e => exact ho
  | ok c' => exact ho.update hc (Counter.limit_of_sub hsub) (hbounded.sub hsub)

end Backs

end Share

open Distortion Share

/-! ## Calls -/

namespace Lease

variable {d : Distortion} {l : Lease} {ls : List Lease} {o : Share}

theorem backs_create (ho : Backs d ls o) (limit : Amount) :
    (d.serve (.create limit)).Secure o fun r _ o' => Backs d (r.toOption.toList ++ ls) o' := by
  refine secure_serve_create.2 ⟨ho, fun h hfree => ?_⟩
  exact ho.grant hfree limit

theorem backs_add (ho : Backs d (l :: ls) o) (x : Amount) :
    (d.serve (.add l x)).Secure o fun _ _ o' => Backs d (l :: ls) o' := by
  obtain ⟨c, hc, hbounded, -⟩ := ho.backed l List.mem_cons_self
  rw [secure_serve_add]
  split
  · exact ho
  · exact ⟨c, hc, ho.put_add hc hbounded x⟩

theorem backs_sub (ho : Backs d (l :: ls) o) (x : Amount) :
    (d.serve (.sub l x)).Secure o fun _ _ o' => Backs d (l :: ls) o' := by
  obtain ⟨c, hc, hbounded, -⟩ := ho.backed l List.mem_cons_self
  exact secure_serve_sub.2 ⟨c, hc, ho.put_sub hc hbounded x⟩

theorem backs_read (ho : Backs d (l :: ls) o) :
    (d.serve (.read l)).Secure o fun _ _ o' => Backs d (l :: ls) o' := by
  obtain ⟨c, hc, -⟩ := ho.backed l List.mem_cons_self
  exact secure_serve_read.2 ⟨c, hc, ho⟩

theorem backs_destroy (ho : Backs d (l :: ls) o) :
    (d.serve (.destroy l)).Secure o fun _ _ o' => Backs d ls o' := by
  obtain ⟨c, hc, -⟩ := ho.backed l List.mem_cons_self
  exact secure_serve_destroy.2 ⟨c, hc, ho.release⟩

end Lease

/-! ## Operations on a movable counter -/

namespace Movable

variable {d : Distortion} {m : Movable} {ls : List Lease} {o : Share}

/-- The leases that the owner has after an operation that may change the counter. -/
def leasesAfter (m : Movable) : Except Refusal Movable → List Lease
  | .ok m' => m'.leases
  | .error _ => m.leases

theorem backs_read (ho : Backs d (m.leases ++ ls) o) :
    (d.carryOut m.read).Secure o fun _ _ o' => Backs d (m.leases ++ ls) o' := by
  cases m with
  | inPlace c => exact ho
  | hosted l => exact secure_carryOut_ask.2 (Lease.backs_read ho)

theorem backs_add (ho : Backs d (m.leases ++ ls) o) (x : Amount) :
    (d.carryOut (m.add x)).Secure o fun r _ o' => Backs d (m.leasesAfter r ++ ls) o' := by
  cases m with
  | inPlace c =>
    show Backs d _ o
    cases c.add x <;> exact ho
  | hosted l =>
    refine secure_carryOut_ask.2 ((Lease.backs_add ho x).mono fun r seen o' ho' => ?_)
    cases r <;> exact ho'

theorem backs_sub (ho : Backs d (m.leases ++ ls) o) (x : Amount) :
    (d.carryOut (m.sub x)).Secure o fun r _ o' => Backs d (m.leasesAfter r ++ ls) o' := by
  cases m with
  | inPlace c =>
    show Backs d _ o
    cases c.sub x <;> exact ho
  | hosted l =>
    refine secure_carryOut_ask.2 ((Lease.backs_sub ho x).mono fun r seen o' ho' => ?_)
    cases r <;> exact ho'

theorem backs_fresh (ho : Backs d ls o) (limit : Amount) (p : Placement) :
    (d.carryOut (fresh limit p)).Secure o fun r _ o' =>
      Backs d (r.toOption.elim [] leases ++ ls) o' := by
  cases p with
  | inPlace => exact ho
  | hosted =>
    refine secure_carryOut_ask.2 ((Lease.backs_create ho limit).mono fun r seen o' ho' => ?_)
    cases r <;> exact ho'

theorem backs_release (ho : Backs d (m.leases ++ ls) o) :
    (d.carryOut m.release).Secure o fun _ _ o' => Backs d ls o' := by
  cases m with
  | inPlace c => exact ho
  | hosted l => exact secure_carryOut_ask.2 (Lease.backs_destroy ho)

theorem backs_drop (ho : Backs d (m.leases ++ ls) o) :
    (d.carryOut m.drop).Secure o fun _ _ o' => Backs d ls o' := by
  cases m with
  | inPlace c => exact ho
  | hosted l => exact secure_carryOut_ask.2 (Lease.backs_destroy ho)

theorem backs_make (ho : Backs d ls o) (limit : Amount) (p : Placement) :
    (d.carryOut (make limit p)).Secure o fun r _ o' =>
      Backs d (r.toOption.elim [] leases ++ ls) o' := by
  refine secure_carryOut_bind (backs_fresh ho limit p) fun r seen o' ho' => ?_
  cases r <;> exact ho'

/-- The fresh counter that a move makes is let go when it refuses the value, and the old one is
let go when it does not. -/
theorem backs_move (ho : Backs d (m.leases ++ ls) o) :
    (d.carryOut m.move).Secure o fun r _ o' => Backs d (m.leasesAfter r ++ ls) o' := by
  refine secure_carryOut_bind (backs_read ho) fun value _ o₁ ho₁ => ?_
  refine secure_carryOut_bind (backs_fresh ho₁ m.limit m.placement.flip) fun fresh _ o₂ ho₂ => ?_
  cases fresh with
  | error e => exact ho₂
  | ok target =>
    refine secure_carryOut_bind (backs_add ho₂ value) fun filled _ o₃ ho₃ => ?_
    cases filled with
    | error e =>
      show (d.carryOut (target.release.bind _)).Secure o₃ _
      exact secure_carryOut_bind (backs_release ho₃) fun _ _ o₄ ho₄ => ho₄
    | ok moved => exact secure_carryOut_bind (backs_release ho₃.swap) fun _ _ o₄ ho₄ => ho₄

theorem backs_perform (ho : Backs d (m.leases ++ ls) o) (q : MovableStep) :
    (d.carryOut (m.perform q)).Secure o fun p _ o' =>
      Backs d (p.1.elim [] leases ++ ls) o' ∧ ∀ dead, p.2 ≠ .dead dead := by
  have hkept (c : Script Call.Answer (Except Refusal Movable))
      (hc : (d.carryOut c).Secure o fun r _ o' => Backs d (m.leasesAfter r ++ ls) o') :
      (d.carryOut (c.bind fun r => .done (Reply.keep m r))).Secure o fun p _ o' =>
        Backs d (p.1.elim [] leases ++ ls) o' ∧ ∀ dead, p.2 ≠ .dead dead := by
    refine secure_carryOut_bind hc fun r _ o' ho' => ?_
    cases r <;> exact ⟨ho', by simp [Reply.keep]⟩
  have hasked {α : Type} (f : Amount → α) :
      (d.carryOut (m.read.bind fun v => .done (f v))).Secure o fun _ _ o' =>
        Backs d (m.leases ++ ls) o' :=
    secure_carryOut_bind (backs_read ho) fun _ _ o' ho' => ho'
  cases q with
  | add x => exact hkept _ (backs_add ho x)
  | sub x => exact hkept _ (backs_sub ho x)
  | move => exact hkept _ (backs_move ho)
  | read => exact secure_carryOut_bind (backs_read ho) fun _ _ o' ho' => ⟨ho', by simp⟩
  | headroom => exact secure_carryOut_bind (hasked _) fun _ _ o' ho' => ⟨ho', by simp⟩
  | write block =>
    exact secure_carryOut_bind (hasked _) fun _ _ o' ho' => ⟨ho', by simp [Session.written]⟩
  | drop => exact secure_carryOut_bind (backs_drop ho) fun _ _ o' ho' => ⟨ho', by simp⟩
  | limit | isHosted | placement | isServedHere => exact ⟨ho, by simp⟩

end Movable

/-! ## A desk -/

/-- The content of a filled slot stands beside the content of the others. -/
theorem Slots.toList_put_perm {α : Type} (t : Slots α) (slot : Nat) (a : Option α) :
    (t.put slot a).toList.Perm (a.toList.map (slot, ·) ++ (t.put slot none).toList) := by
  have hnodup (t : Slots α) : t.toList.Nodup := by
    apply List.Nodup.of_map Prod.fst
    rw [Std.ExtTreeMap.map_fst_toList_eq_keys]
    exact t.nodup_keys
  have hmem (t : Slots α) (p : Nat × α) : p ∈ t.toList ↔ t[p.1]? = some p.2 :=
    Std.ExtTreeMap.mem_toList_iff_getElem?_eq_some
  cases a with
  | none => exact .rfl
  | some a =>
    rw [List.perm_ext_iff_of_nodup (hnodup _)]
    · rintro ⟨i, b⟩
      simp only [Option.toList_some, List.map_cons, List.map_nil, List.singleton_append,
        List.mem_cons, hmem, getElem?_put, Prod.mk.injEq]
      by_cases hi : slot = i
      · subst hi
        simp [eq_comm]
      · simp [hi, Ne.symm hi]
    · refine List.nodup_cons.2 ⟨?_, hnodup _⟩
      simp [hmem, getElem?_put]

/-- The leases of hosted movable counters. -/
def Slots.leases (t : Slots Movable) : List Lease := t.toList.flatMap fun e => e.2.leases

theorem Slots.leases_put_perm (t : Slots Movable) (slot : Nat) (m : Option Movable) :
    (t.put slot m).leases.Perm (m.elim [] Movable.leases ++ (t.put slot none).leases) := by
  have h := (t.toList_put_perm slot m).flatMap_right fun e => e.2.leases
  rw [List.flatMap_append] at h
  cases m with
  | none => exact h
  | some m => simpa [leases] using h

namespace Desk

/-- The leases that the owner was handed and has not given back, after one more errand. -/
def outstanding (k : Desk) (out : List Lease) : Errand → Reply → List Lease
  | .chore (.newLease _ _), .lease l => l :: out
  | .chore (.lease slot .destroy), _ => k.leases[slot]?.elim out out.erase
  | _, _ => out

/-- The share is made up of the counters behind the desk's hosted counters and behind the
outstanding leases `out`, and the lease slots hold outstanding leases, each in one slot. -/
structure Custody (d : Distortion) (k : Desk) (out : List Lease) (o : Share) : Prop where
  backs : Backs d (k.movables.leases ++ out) o
  slot_mem : ∀ (slot : Nat) (l : Lease), k.leases[slot]? = some l → l ∈ out
  slot_inj : ∀ (i j : Nat) (l : Lease), k.leases[i]? = some l → k.leases[j]? = some l → i = j

variable {d : Distortion} {k : Desk} {out : List Lease} {o : Share}

/-- A slot for a movable counter can be filled anew without harm to the lease slots. -/
theorem Custody.putMovable (hk : k.Custody d out o) {slot : Nat} {m : Option Movable} {o' : Share}
    (ho' : Backs d (m.elim [] Movable.leases ++ ((k.movables.put slot none).leases ++ out)) o') :
    Custody d ⟨k.leases, k.movables.put slot m⟩ out o' where
  backs := by
    rw [← List.append_assoc] at ho'
    exact ho'.perm ((k.movables.leases_put_perm slot m).symm.append_right out)
  slot_mem := hk.slot_mem
  slot_inj := hk.slot_inj

theorem Custody.split (hk : k.Custody d out o) (slot : Nat) :
    Backs d (k.movables[slot]?.elim [] Movable.leases ++
      ((k.movables.put slot none).leases ++ out)) o := by
  have h := k.movables.leases_put_perm slot k.movables[slot]?
  rw [Slots.put_eq_self rfl] at h
  rw [← List.append_assoc]
  exact hk.backs.perm (h.append_right out)

/-- A slot is filled with a lease that was not outstanding. -/
theorem Custody.accept (hk : k.Custody d out o) {slot : Nat} {l : Lease} {o' : Share}
    (hnew : l ∉ out) (ho' : Backs d (k.movables.leases ++ l :: out) o') :
    Custody d ⟨k.leases.put slot (some l), k.movables⟩ (l :: out) o' := by
  refine ⟨ho', fun i l' hl' => ?_, fun i j l' hi hj => ?_⟩
  · rw [Slots.getElem?_put] at hl'
    split at hl'
    · cases hl'
      exact List.mem_cons_self
    · exact List.mem_cons_of_mem _ (hk.slot_mem i l' hl')
  · rw [Slots.getElem?_put] at hi hj
    split at hi <;> split at hj
    · omega
    · cases hi
      exact absurd (hk.slot_mem j _ hj) hnew
    · cases hj
      exact absurd (hk.slot_mem i _ hi) hnew
    · exact hk.slot_inj i j l' hi hj

/-- The lease of a slot is given back and the slot is emptied. -/
theorem Custody.giveBack (hk : k.Custody d out o) {slot : Nat} {l : Lease} {o' : Share}
    (hl : k.leases[slot]? = some l) (ho' : Backs d (k.movables.leases ++ out.erase l) o') :
    Custody d ⟨k.leases.put slot none, k.movables⟩ (out.erase l) o' := by
  refine ⟨ho', fun i l' hl' => ?_, fun i j l' hi hj => ?_⟩
  · rw [Slots.getElem?_put] at hl'
    split at hl'
    · cases hl'
    · rename_i hne
      -- Another slot holds another lease.
      have hother : l' ≠ l := fun e => hne (hk.slot_inj slot i l hl (e ▸ hl'))
      exact (List.mem_erase_of_ne hother).2 (hk.slot_mem i l' hl')
  · rw [Slots.getElem?_put] at hi hj
    split at hi
    · cases hi
    · split at hj
      · cases hj
      · exact hk.slot_inj i j l' hi hj

theorem backs_vacate {slot : Nat} {ls : List Lease}
    (ho : Backs d (k.movables[slot]?.elim [] Movable.leases ++ ls) o) :
    (d.carryOut (k.vacate slot)).Secure o fun _ _ o' => Backs d ls o' := by
  unfold vacate
  cases hm : k.movables[slot]? with
  | none =>
    rw [hm] at ho
    exact ho
  | some old =>
    rw [hm] at ho
    exact Movable.backs_drop ho

theorem custody_newMovable (hk : k.Custody d out o) (slot : Nat) (limit : Amount) (p : Placement) :
    (d.carryOut (k.script (.newMovable slot limit p))).Secure o fun p _ o' =>
      p.1.Custody d out o' ∧ ∀ dead, p.2 ≠ .dead dead := by
  refine secure_carryOut_bind (Movable.backs_make (hk.split slot) limit p) fun made _ o₁ ho₁ => ?_
  cases made with
  | error e =>
    have hk' := hk.putMovable ho₁
    rw [Slots.put_eq_self rfl] at hk'
    exact ⟨hk', by simp⟩
  | ok m =>
    -- The old counter of the slot goes last, when the new one has its lease already.
    refine secure_carryOut_bind (backs_vacate (Backs.swap ho₁)) fun _ _ o₂ ho₂ => ?_
    exact ⟨hk.putMovable (m := some m) ho₂, by simp⟩

theorem custody_movable (hk : k.Custody d out o) (slot : Nat) (q : MovableStep) :
    (d.carryOut (k.script (.movable slot q))).Secure o fun p _ o' =>
      p.1.Custody d out o' ∧ ∀ dead, p.2 ≠ .dead dead := by
  cases hm : k.movables[slot]? with
  | none =>
    rw [script_movable_of_none hm]
    exact ⟨hk, by simp⟩
  | some m =>
    rw [script_movable_of_some hm]
    have hsplit := hk.split slot
    rw [hm] at hsplit
    refine secure_carryOut_bind (Movable.backs_perform hsplit q) fun p _ o' h => ?_
    exact ⟨hk.putMovable h.1, h.2⟩

theorem custody_newLease (hk : k.Custody d out o) (slot : Nat) (limit : Amount) :
    (d.carryOut (k.script (.newLease slot limit))).Secure o fun p _ o' =>
      p.1.Custody d (k.outstanding out (.chore (.newLease slot limit)) p.2) o' ∧
        ∀ dead, p.2 ≠ .dead dead := by
  refine secure_carryOut_ask.2 ((Lease.backs_create hk.backs limit).mono fun r _ o' ho' => ?_)
  cases r with
  | error e => exact ⟨⟨ho', hk.slot_mem, hk.slot_inj⟩, by simp⟩
  | ok l =>
    -- The new lease is in no slot yet, because no outstanding lease has its handle.
    have hnew : l ∉ out := by
      intro hl
      have hfresh : l.handle ∉ (k.movables.leases ++ out).map Lease.handle :=
        (List.nodup_cons.1 ho'.nodup).1
      exact hfresh (List.mem_map_of_mem (List.mem_append_right _ hl))
    have hcons : Backs d (l :: (k.movables.leases ++ out)) o' := ho'
    exact ⟨hk.accept hnew (hcons.perm List.perm_middle.symm), by simp⟩

theorem custody_lease (hk : k.Custody d out o) (slot : Nat) (q : LeaseChore) :
    (d.carryOut (k.script (.lease slot q))).Secure o fun p _ o' =>
      p.1.Custody d (k.outstanding out (.chore (.lease slot q)) p.2) o' ∧
        ∀ dead, p.2 ≠ .dead dead := by
  cases hl : k.leases[slot]? with
  | none =>
    rw [script_lease_of_none hl]
    cases q with
    | destroy => simpa [outstanding, hl] using ⟨hk, by simp⟩
    | add x | sub x | read => exact ⟨hk, by simp⟩
  | some l =>
    rw [script_lease_of_some hl]
    have hput : k.leases.put slot (some l) = k.leases := Slots.put_eq_self hl
    have hmem := hk.slot_mem slot l hl
    have hbacks : Backs d (l :: (k.movables.leases ++ out.erase l)) o :=
      hk.backs.perm (((List.perm_cons_erase hmem).append_left _).trans List.perm_middle)
    have hkeep {o' : Share} (ho' : Backs d (l :: (k.movables.leases ++ out.erase l)) o') :
        Custody d ⟨k.leases.put slot (some l), k.movables⟩ out o' := by
      rw [hput]
      refine ⟨ho'.perm ?_, hk.slot_mem, hk.slot_inj⟩
      exact List.perm_middle.symm.trans ((List.perm_cons_erase hmem).symm.append_left _)
    cases q with
    | add x =>
      refine secure_carryOut_ask.2 ((Lease.backs_add hbacks x).mono fun r _ o' ho' => ?_)
      exact ⟨hkeep ho', by cases r <;> simp [Reply.ofAccepted]⟩
    | sub x =>
      refine secure_carryOut_ask.2 ((Lease.backs_sub hbacks x).mono fun r _ o' ho' => ?_)
      exact ⟨hkeep ho', by cases r <;> simp [Reply.ofAccepted]⟩
    | read =>
      refine secure_carryOut_ask.2 ((Lease.backs_read hbacks).mono fun v _ o' ho' => ?_)
      exact ⟨hkeep ho', by simp⟩
    | destroy =>
      refine secure_carryOut_ask.2 ((Lease.backs_destroy hbacks).mono fun _ _ o' ho' => ?_)
      exact ⟨by simpa [outstanding, hl] using hk.giveBack hl ho', by simp⟩

/-- Every errand of an owner keeps the custody of its desk and meets no dead handle. -/
theorem custody_perform (hk : k.Custody d out o) (q : Errand) :
    (k.perform d q).Secure o fun p _ o' =>
      p.1.Custody d (k.outstanding out q p.2) o' ∧ ∀ dead, p.2 ≠ .dead dead := by
  cases q with
  | setGate isOpen =>
    rw [perform, Registry.secure_setGate_bind]
    exact ⟨hk, by simp⟩
  | chore q =>
    cases q with
    | newMovable slot limit p => exact custody_newMovable hk slot limit p
    | movable slot q => exact custody_movable hk slot q
    | newLease slot limit => exact custody_newLease hk slot limit
    | lease slot q => exact custody_lease hk slot q

end Desk

/-! ## Sessions -/

namespace Session

/-- The leases that were handed out and not given back after the errands, if `out` were so before.
-/
def outstanding (s : Session) (out : List Lease) : List Errand → List Lease
  | [] => out
  | q :: qs =>
      (s.take q.toStep).session.outstanding (s.desk.outstanding out q (s.take q.toStep).reply) qs

/-- The whole registry is in the custody of the session's desk, after `n` handles were issued. -/
def Keeps (s : Session) (d : Distortion) (out : List Lease) (n : Nat) : Prop :=
  s.distortion = d ∧ ∃ o, s.registry.Divided o Nobody n ∧ s.desk.Custody d out o

variable {s : Session} {d : Distortion} {out : List Lease} {n : Nat}

theorem keeps_start (d : Distortion) (isOpen : Bool) : (start d isOpen).Keeps d [] 0 :=
  ⟨rfl, .empty, .empty isOpen, Backs.empty d, by simp [desk, start], by simp [desk, start]⟩

theorem Keeps.take (hs : s.Keeps d out n) (q : Errand)
    (hn : n + (s.take q.toStep).events.countP Event.isIssue ≤ 2 ^ 64) :
    (s.take q.toStep).session.Keeps d (s.desk.outstanding out q (s.take q.toStep).reply)
        (n + (s.take q.toStep).events.countP Event.isIssue) ∧
      ∀ dead, (s.take q.toStep).reply ≠ .dead dead := by
  obtain ⟨rfl, o, hr, hk⟩ := hs
  obtain ⟨r, k, seen, o', hsession, ⟨hk', halive⟩, hr'⟩ :=
    take_secure (Desk.custody_perform hk q) hr hn
  rw [hsession]
  exact ⟨⟨rfl, o', hr', hk'⟩, halive⟩

theorem Keeps.after (hs : s.Keeps d out n) (qs : List Errand) (hn : n + s.issues qs ≤ 2 ^ 64) :
    (s.after qs).Keeps d (s.outstanding out qs) (n + s.issues qs) ∧
      ∀ e ∈ s.transcript qs, ∀ dead, e.2 ≠ .dead dead := by
  induction qs generalizing s out n with
  | nil => exact ⟨hs, by simp [transcript]⟩
  | cons q qs ih =>
      rw [issues_cons, ← Nat.add_assoc] at hn ⊢
      obtain ⟨hnext, halive⟩ := hs.take q (by omega)
      obtain ⟨hlast, hrest⟩ := ih hnext hn
      refine ⟨hlast, fun e he => ?_⟩
      rw [transcript_cons] at he
      rcases List.mem_cons.1 he with rfl | he
      · exact halive
      · exact hrest e he

theorem keys_perm {r : Registry} {ls : List Lease} {o : Share}
    (hr : r.Divided o Nobody n) (ho : Backs d ls o) :
    (ls.map Lease.handle).Perm r.table.keys := by
  rw [List.perm_ext_iff_of_nodup ho.nodup r.table.nodup_keys]
  intro h
  rw [Std.ExtTreeMap.mem_keys, Std.ExtTreeMap.mem_iff_isSome_getElem?, Option.isSome_iff_exists]
  constructor
  · intro hmem
    obtain ⟨l, hl, rfl⟩ := List.mem_map.1 hmem
    obtain ⟨c, hc, -⟩ := ho.backed l hl
    exact ⟨c, (hr.hosted _ c).2 (.inl hc)⟩
  · rintro ⟨c, hc⟩
    apply ho.owned
    rcases (hr.hosted h c).1 hc with hplaced | hother
    · simp [hplaced]
    · exact hother.elim

theorem live_eq {r : Registry} {ls : List Lease} {o : Share}
    (hr : r.Divided o Nobody n) (ho : Backs d ls o) : r.live = ls.length := by
  have hlength := (keys_perm hr ho).length_eq
  rw [List.length_map, Std.ExtTreeMap.length_keys] at hlength
  exact hlength.symm

theorem length_leases (t : Slots Movable) :
    t.leases.length = t.toList.countP fun e => e.2.placement.isHosted := by
  unfold Slots.leases
  induction t.toList with
  | nil => rfl
  | cons e es ih =>
      rw [List.flatMap_cons, List.length_append, ih, List.countP_cons, Nat.add_comm]
      rcases e with ⟨slot, l | c⟩ <;> rfl

theorem draws_drop (d : Distortion) (m : Movable) (r : Registry) :
    (d.carryOut m.drop).draws r = 0 := by
  cases m with
  | inPlace c => rfl
  | hosted l =>
    rw [d.draws_carryOut (Movable.neutral_drop _)]
    cases hfind : r.find l.handle <;>
      simp [Movable.drop, Lease.destroy, Script.emit, Script.query, Script.bind_eq, Script.bind,
        Distortion.carryOut, Script.interpret, Distortion.serve, Distortion.distort, Call.serve,
        Registry.withdraw, Script.run, Registry.act, hfind, Except.map, Event.isIssue]

/-- Dropping all movable counters leaves the outstanding leases. -/
theorem dropAll_eq {r : Registry} {o : Share} (es : List (Nat × Movable))
    (hr : r.Divided o Nobody n) (hn : n ≤ 2 ^ 64)
    (ho : Backs d ((es.flatMap fun e => e.2.leases) ++ out) o) :
    (dropAll d r es).dead = [] ∧ (dropAll d r es).live = out.length := by
  induction es generalizing r o with
  | nil => exact ⟨rfl, live_eq hr ho⟩
  | cons e es ih =>
      obtain ⟨slot, m⟩ := e
      have hsplit : Backs d (m.leases ++ ((es.flatMap fun e => e.2.leases) ++ out)) o := by
        rwa [List.flatMap_cons, List.append_assoc] at ho
      have hdraws := draws_drop d m r
      obtain ⟨a, seen, o', hresult, ho', hr'⟩ := (Movable.backs_drop hsplit).run hr (by omega)
      rw [hdraws] at hr'
      obtain ⟨hdead, hlive⟩ := ih hr' ho'
      simp only [dropAll, hresult]
      exact ⟨hdead, hlive⟩

theorem Keeps.close (hs : s.Keeps d out n) (hn : n ≤ 2 ^ 64) :
    s.close.dead = [] ∧ s.close.live = out.length := by
  obtain ⟨rfl, o, hr, hk⟩ := hs
  exact dropAll_eq s.movables.toList hr hn hk.backs

/-- The hosted counters are exactly those of the hosted movable counters and of the leases that
are outstanding, each in one hand. No step meets a dead handle, and when all is let go nothing is
hosted. -/
theorem owners_perm_keys (d : Distortion) (isOpen : Bool) (qs : List Errand)
    (few : (start d isOpen).issues qs ≤ 2 ^ 64) :
    let s := (start d isOpen).after qs
    let out := (start d isOpen).outstanding [] qs
    ((s.movables.leases ++ out).map Lease.handle).Perm s.registry.table.keys ∧
      ((s.movables.leases ++ out).map Lease.handle).Nodup ∧
      s.registry.live = (s.movables.toList.countP fun e => e.2.placement.isHosted) + out.length ∧
      (∀ (slot : Nat) (l : Lease), s.leases[slot]? = some l → l ∈ out) ∧
      (∀ e ∈ (start d isOpen).transcript qs, ∀ dead, e.2 ≠ .dead dead) ∧
      (s.movables = ∅ → out = [] → s.registry.live = 0) ∧
      (s.close.dead = [] ∧ s.close.live = out.length) ∧
      (d.leaseLimit = none → ∀ l ∈ s.movables.leases ++ out,
        ∃ c, s.registry.table[l.handle]? = some c ∧ c.limit = l.limit) := by
  intro s out
  obtain ⟨hkeeps, halive⟩ := (keeps_start d isOpen).after qs (by omega)
  have hclose := hkeeps.close (by omega)
  obtain ⟨-, o, hr, hk⟩ := hkeeps
  have hlive : s.registry.live =
      (s.movables.toList.countP fun e => e.2.placement.isHosted) + out.length := by
    rw [← length_leases, ← List.length_append]
    exact live_eq hr hk.backs
  refine ⟨keys_perm hr hk.backs, hk.backs.nodup, hlive, hk.slot_mem, halive,
    fun hmovables hout => ?_, hclose, fun hd l hl => ?_⟩
  · rw [hlive, hmovables, hout]
    rfl
  · obtain ⟨c, hc, -, hlimit⟩ := hk.backs.backed l hl
    exact ⟨c, (hr.hosted _ c).2 (.inl hc), hlimit hd⟩

/-- A host that rejects additions and writes a wrong limit on its leases: a move is undone, a
lease is forgotten, another one is given back. -/
theorem owners_perm_keys_of_rejected_move :
    let d : Distortion := ⟨true, 0#128, some 3#128⟩
    let qs : List Errand :=
      [.chore (.newMovable 0 10#128 .inPlace), .chore (.movable 0 (.add 5#128)),
        .chore (.movable 0 .move), .chore (.newMovable 1 9#128 .hosted), .chore (.newLease 0 7#128),
        .chore (.newLease 0 8#128), .setGate false, .chore (.lease 0 .destroy)]
    (start d true).issues qs = 4 ∧
      ((((start d true).after qs).movables.leases ++ (start d true).outstanding [] qs).map
        Lease.handle).Perm ((start d true).after qs).registry.table.keys ∧
      ((start d true).after qs).registry.live = 2 := by
  intro d qs
  have hissues : (start d true).issues qs = 4 := by decide +kernel
  have htwo : (((start d true).after qs).movables.toList.countP fun e => e.2.placement.isHosted) +
      ((start d true).outstanding [] qs).length = 2 := by decide +kernel
  obtain ⟨hperm, -, hlive, -⟩ := owners_perm_keys d true qs (by rw [hissues]; decide)
  exact ⟨hissues, hperm, hlive.trans htwo⟩

end Session

end Abacus
