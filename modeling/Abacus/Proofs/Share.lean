import Mathlib.Algebra.Group.Nat.Defs
import Mathlib.Logic.Function.Basic
import Abacus.Action

/-!
# Shares of a registry

A registry may have many owners, and each has a share of it: the counters it placed and the
handles it drew and has not used yet. `Registry.Divided r o rest n` says that `r` is made up of
the share `o` and of what `rest` says others have, after `n` handles were drawn from the sequence.
The lemmas below say what each kind of action does to a divided registry: the share of the acting
owner changes at one handle and `rest` stays. `Divided.next_free` is where the number of handles
matters: up to `2 ^ 64` of them the next handle is nobody's.
-/

namespace Abacus

/-- What an owner has under a handle. -/
inductive Stake
  /-- The handle was drawn and has no counter yet. -/
  | drawn
  | placed (c : Counter)

/-- What one owner has of a registry. -/
abbrev Share := Handle → Option Stake

namespace Share

/-- The share of an owner that has nothing. -/
def empty : Share := fun _ => none

def set (o : Share) (h : Handle) (s : Stake) : Share := Function.update o h (some s)

def without (o : Share) (h : Handle) : Share := Function.update o h none

/-- The answer to a change of the counter under `h`, and the share after it. -/
def put (o : Share) (h : Handle) : Except Refusal Counter → Except Refusal Unit × Share
  | .ok c => (.ok (), o.set h (.placed c))
  | .error e => (.error e, o)

variable (o : Share) (h : Handle)

@[simp]
theorem empty_apply : empty h = none := rfl

@[simp]
theorem set_self (s : Stake) : o.set h s h = some s := Function.update_self h _ o

@[simp]
theorem without_self : o.without h h = none := Function.update_self h _ o

@[simp]
theorem set_set (s t : Stake) : (o.set h s).set h t = o.set h t := Function.update_idem _ _ _

variable {o h}

theorem set_of_ne {k : Handle} (hk : k ≠ h) (s : Stake) : o.set h s k = o k :=
  Function.update_of_ne hk _ o

theorem without_of_ne {k : Handle} (hk : k ≠ h) : o.without h k = o k :=
  Function.update_of_ne hk _ o

/-- A handle that was free can be taken back without a trace. -/
theorem set_without (hfree : o h = none) (s : Stake) : (o.set h s).without h = o := by
  unfold set without
  rw [Function.update_idem, ← hfree, Function.update_eq_self]

/-! ### Two shares together -/

/-- What two owners have together. -/
def join (o f : Share) : Share := fun h => (o h).or (f h)

/-- No handle is in both shares. -/
def Apart (o f : Share) : Prop := ∀ h, o h = none ∨ f h = none

variable {f g : Share} {s : Stake}

theorem join_of_some (ho : o h = some s) : o.join f h = some s := by
  simp [join, ho]

theorem join_of_none (ho : o h = none) : o.join f h = f h := by
  simp [join, ho]

theorem empty_join (f : Share) : empty.join f = f := rfl

theorem set_join (h : Handle) (s : Stake) : (o.join f).set h s = (o.set h s).join f := by
  funext k
  by_cases hk : k = h
  · subst hk
    rw [set_self, join_of_some (set_self o k s)]
  · simp [join, set_of_ne hk]

theorem Apart.eq_none (hf : o.Apart f) (ho : o h = some s) : f h = none :=
  (hf h).resolve_left (by simp [ho])

theorem Apart.symm (hf : o.Apart f) : f.Apart o := fun h => (hf h).symm

theorem apart_iff : o.Apart f ↔ ∀ h s, f h = some s → o h = none := by
  constructor
  · intro hf h s hs
    exact hf.symm.eq_none hs
  · intro hf h
    cases hs : f h with
    | none => exact .inr rfl
    | some s => exact .inl (hf h s hs)

theorem empty_apart (f : Share) : empty.Apart f := fun _ => .inl rfl

theorem Apart.set (hf : o.Apart f) (hh : f h = none) (s : Stake) : (o.set h s).Apart f := by
  intro k
  by_cases hk : k = h
  · subst hk
    exact .inr hh
  · rw [set_of_ne hk]
    exact hf k

theorem Apart.without (hf : o.Apart f) (h : Handle) : (o.without h).Apart f := by
  intro k
  by_cases hk : k = h
  · subst hk
    exact .inl (without_self o k)
  · rw [without_of_ne hk]
    exact hf k

theorem without_join (hh : f h = none) : (o.join f).without h = (o.without h).join f := by
  funext k
  by_cases hk : k = h
  · subst hk
    rw [without_self, join_of_none (without_self o k), hh]
  · simp [join, without_of_ne hk]

theorem join_comm (hf : o.Apart f) : o.join f = f.join o := by
  funext h
  rcases hf h with ho | hh
  · simp [join, ho]
  · simp [join, hh]

theorem join_assoc (o f g : Share) : (o.join f).join g = o.join (f.join g) := by
  funext h
  exact Option.or_assoc

theorem apart_join : o.Apart (f.join g) ↔ o.Apart f ∧ o.Apart g := by
  constructor
  · intro h
    exact ⟨fun k => (h k).imp_right fun hk => (Option.or_eq_none_iff.1 hk).1,
      fun k => (h k).imp_right fun hk => (Option.or_eq_none_iff.1 hk).2⟩
  · rintro ⟨hf, hg⟩ k
    rcases hf k with ho | hk
    · exact .inl ho
    · exact (hg k).imp_right fun hk' => Option.or_eq_none_iff.2 ⟨hk, hk'⟩

theorem join_left_comm (hf : o.Apart f) : o.join (f.join g) = f.join (o.join g) := by
  rw [← join_assoc, join_comm hf, join_assoc]

/-- In a family of shares that are apart one may be replaced by a share that is apart from the
others. -/
theorem apart_update {ι : Type} [DecidableEq ι] {o : ι → Share} {i : ι} {p : Share}
    (ho : ∀ j j', j ≠ j' → (o j).Apart (o j')) (hp : ∀ j, j ≠ i → p.Apart (o j)) (j j' : ι)
    (hne : j ≠ j') : (Function.update o i p j).Apart (Function.update o i p j') := by
  by_cases hj : j = i
  · subst hj
    rw [Function.update_self, Function.update_of_ne hne.symm]
    exact hp j' hne.symm
  · by_cases hj' : j' = i
    · subst hj'
      rw [Function.update_self, Function.update_of_ne hj]
      exact (hp j hj).symm
    · rw [Function.update_of_ne hj, Function.update_of_ne hj']
      exact ho j j' hne

/-- A change of a counter of one share leaves the other one alone. -/
theorem put_join (hf : o.Apart f) (ho : o h = some s) (change : Except Refusal Counter) :
    (o.join f).put h change = ((o.put h change).1, (o.put h change).2.join f) ∧
      (o.put h change).2.Apart f := by
  cases change with
  | error e => exact ⟨rfl, hf⟩
  | ok c => exact ⟨congrArg (Prod.mk _) (set_join h _), hf.set (hf.eq_none ho) _⟩

end Share

namespace Handle

theorem toNat_succ (h : Handle) : h.succ.id.toNat = (h.id.toNat + 1) % 2 ^ 64 := by
  simp [succ, BitVec.toNat_add]

end Handle

namespace Registry

/-- `r` is made up of the share `o` and of the stakes that `rest` gives to others, and `n` handles
were drawn so far. -/
structure Divided (r : Registry) (o : Share) (rest : Handle → Stake → Prop) (n : Nat) : Prop where
  /-- A counter is hosted exactly if somebody placed it. -/
  hosted : ∀ h c, r.table[h]? = some c ↔ o h = some (.placed c) ∨ rest h (.placed c)
  apart : ∀ h s, rest h s → o h = none
  /-- The handles in use are among the first `n` of the sequence. -/
  used_lt : ∀ h, (o h ≠ none ∨ ∃ s, rest h s) → h.id.toNat < n
  next_eq : r.next.id.toNat = n % 2 ^ 64

namespace Divided

variable {r : Registry} {o : Share} {rest : Handle → Stake → Prop} {n : Nat} {h : Handle}

theorem empty (isOpen : Bool) : (Registry.empty isOpen).Divided .empty (fun _ _ => False) 0 where
  hosted h c := by simp [Registry.empty]
  apart h s hs := hs.elim
  used_lt h hh := by simp at hh
  next_eq := rfl

theorem find_eq (hr : r.Divided o rest n) {c : Counter} (ho : o h = some (.placed c)) :
    r.find h = .ok c :=
  find_eq_ok_iff.2 ((hr.hosted h c).2 (.inl ho))

/-- Nobody has the next handle, as long as the sequence has not come round. -/
theorem next_free (hr : r.Divided o rest n) (hn : n < 2 ^ 64) :
    o r.next = none ∧ ∀ s, ¬ rest r.next s := by
  have hnext : r.next.id.toNat = n := by rw [hr.next_eq, Nat.mod_eq_of_lt hn]
  have hfree : ¬ (o r.next ≠ none ∨ ∃ s, rest r.next s) := by
    intro hused
    have := hr.used_lt r.next hused
    omega
  constructor
  · by_contra ho
    exact hfree (.inl ho)
  · intro s hs
    exact hfree (.inr ⟨s, hs⟩)

theorem setGate (hr : r.Divided o rest n) (isOpen : Bool) :
    { r with isOpen }.Divided o rest n :=
  ⟨hr.hosted, hr.apart, hr.used_lt, hr.next_eq⟩

theorem draw (hr : r.Divided o rest n) (hn : n < 2 ^ 64) :
    { r with next := r.next.succ }.Divided (o.set r.next .drawn) rest (n + 1) := by
  obtain ⟨hfree, hrest⟩ := hr.next_free hn
  have hnext : r.next.id.toNat = n := by rw [hr.next_eq, Nat.mod_eq_of_lt hn]
  refine ⟨fun h c => ?_, fun h s hs => ?_, fun h hh => ?_, ?_⟩
  · rw [hr.hosted]
    by_cases hk : h = r.next
    · subst hk
      simp [hfree]
    · rw [Share.set_of_ne hk]
  · have hk : h ≠ r.next := fun e => hrest s (e ▸ hs)
    rw [Share.set_of_ne hk]
    exact hr.apart h s hs
  · by_cases hk : h = r.next
    · subst hk
      omega
    · rw [Share.set_of_ne hk] at hh
      have := hr.used_lt h hh
      omega
  · show r.next.succ.id.toNat = _
    rw [Handle.toNat_succ, hnext]

/-- The owner of a handle changes what stands under it in the table, and nothing else. -/
theorem replace (hr : r.Divided o rest n) (ho : o h ≠ none) {table : Std.ExtTreeMap Handle Counter}
    {s : Option Stake} (hself : ∀ c, table[h]? = some c ↔ s = some (.placed c))
    (hother : ∀ k, k ≠ h → table[k]? = r.table[k]?) :
    { r with table }.Divided (Function.update o h s) rest n := by
  have hrest : ∀ s, ¬ rest h s := fun s hs => ho (hr.apart h s hs)
  refine ⟨fun k c => ?_, fun k s hs => ?_, fun k hk => ?_, hr.next_eq⟩
  · by_cases hk : k = h
    · subst hk
      simp [hrest, hself]
    · rw [Function.update_of_ne hk, ← hr.hosted, ← hother k hk]
  · have hk : k ≠ h := fun e => hrest s (e ▸ hs)
    rw [Function.update_of_ne hk]
    exact hr.apart k s hs
  · by_cases hkh : k = h
    · subst hkh
      exact hr.used_lt k (.inl ho)
    · rw [Function.update_of_ne hkh] at hk
      exact hr.used_lt k hk

theorem insert (hr : r.Divided o rest n) (ho : o h ≠ none) (c : Counter) :
    { r with table := r.table.insert h c }.Divided (o.set h (.placed c)) rest n := by
  apply hr.replace ho
  · intro c'
    simp
  · intro k hk
    have hne : ¬ compare h k = .eq := fun e => hk (Std.LawfulEqOrd.eq_of_compare e).symm
    rw [Std.ExtTreeMap.getElem?_insert, if_neg hne]

theorem erase (hr : r.Divided o rest n) (ho : o h ≠ none) :
    { r with table := r.table.erase h }.Divided (o.without h) rest n := by
  apply hr.replace ho
  · intro c'
    simp
  · intro k hk
    have hne : ¬ compare h k = .eq := fun e => hk (Std.LawfulEqOrd.eq_of_compare e).symm
    rw [Std.ExtTreeMap.getElem?_erase, if_neg hne]

/-- A change that the counter accepts or refuses is answered alike by registry and share. -/
theorem put (hr : r.Divided o rest n) (ho : o h ≠ none) (change : Except Refusal Counter) :
    (r.put h change).1 = (o.put h change).1 ∧
      (r.put h change).2.Divided (o.put h change).2 rest n := by
  cases change with
  | error e => exact ⟨rfl, hr⟩
  | ok c => exact ⟨rfl, hr.insert ho c⟩

end Divided

end Registry

end Abacus
