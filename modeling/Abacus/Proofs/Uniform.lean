import Abacus.Proofs.Crowd

/-!
# The same change again and again

Threads ask for one and the same change of a counter, each of them a number of times. The order does
not matter then: as long as there is room for the amount the change is accepted and the room shrinks
by the amount, and once there is too little room, all further attempts are refused in the same way.
So the number of accepted changes is the quotient of the room by the amount, if so many are asked
for (`Change.attemptAll_replicate`), and this is what every interleaving comes to
(`Pool.uniform_load`). The amount asked for in all may be far beyond the largest amount.
-/

namespace Abacus

/-! ## How often an amount fits -/

/-- How many of `n` equal amounts fit into the room. -/
def fitting (n room amount : Nat) : Nat := if amount = 0 then n else min n (room / amount)

theorem fitting_zero (room amount : Nat) : fitting 0 room amount = 0 := by
  unfold fitting
  rw [Nat.zero_min, ite_self]

theorem fitting_succ {room amount : Nat} (h : amount ≤ room) (n : Nat) :
    fitting (n + 1) room amount = fitting n (room - amount) amount + 1 := by
  unfold fitting
  split
  · rfl
  · rename_i hpos
    rw [Nat.div_eq_sub_div (by omega) h]
    omega

theorem fitting_of_lt {room amount : Nat} (h : room < amount) (n : Nat) :
    fitting n room amount = 0 := by
  unfold fitting
  rw [if_neg (by omega), Nat.div_eq_of_lt h]
  omega

namespace Change

def amount : Change → Amount
  | add x => x
  | sub x => x

/-- How much the counter has room for, in the direction of the change. -/
def room (c : Counter) : Change → Nat
  | add _ => c.limit.toNat - c.value.toNat
  | sub _ => c.value.toNat

variable {c : Counter}

/-- A change is accepted if there is room for it, and takes its room; else it is refused. -/
theorem attempt_room (hc : c.Bounded) (q : Change) :
    (∃ d, q.attempt c = (.ok (), d) ∧ d.Bounded ∧ d.limit = c.limit ∧
      q.room d + q.amount.toNat = q.room c) ∨
    (q.attempt c = (.error (q.refusal c), c) ∧ q.room c < q.amount.toNat) := by
  have hle := hc.toNat_le
  rcases attempt_cases hc q with ⟨d, hok, hd, hlimit, hvalue⟩ | ⟨herror, hlt⟩
  · refine .inl ⟨d, hok, hd, hlimit, ?_⟩
    have hle' := hd.toNat_le
    rw [hlimit] at hle'
    cases q <;> simp only [added, taken, amount, room, hlimit] at hvalue ⊢ <;> omega
  · refine .inr ⟨herror, ?_⟩
    cases q <;> simp only [added, taken, amount, room] at hlt ⊢ <;> omega

theorem attemptAll_replicate_of_refused {q : Change} {e : Refusal}
    (h : q.attempt c = (.error e, c)) (n : Nat) :
    attemptAll c (List.replicate n q) = (List.replicate n (.error e), c) := by
  induction n with
  | zero => rfl
  | succ n ih => simp only [List.replicate_succ, attemptAll, h, ih]

/-- Of `n` equal changes those that fit are accepted, and then all others are refused. -/
theorem attemptAll_replicate (hc : c.Bounded) (q : Change) (n : Nat) :
    ∃ d, attemptAll c (List.replicate n q) =
        (List.replicate (fitting n (q.room c) q.amount.toNat) (.ok ()) ++
          List.replicate (n - fitting n (q.room c) q.amount.toNat) (.error (q.refusal d)), d) ∧
      d.Bounded ∧ d.limit = c.limit ∧
      q.room d + fitting n (q.room c) q.amount.toNat * q.amount.toNat = q.room c := by
  induction n generalizing c with
  | zero =>
    rw [fitting_zero, Nat.zero_mul]
    exact ⟨c, rfl, hc, rfl, rfl⟩
  | succ n ih =>
    rcases attempt_room hc q with ⟨d, hok, hd, hlimit, hroom⟩ | ⟨herror, hlt⟩
    · obtain ⟨d', hrest, hd', hlimit', hroom'⟩ := ih hd
      have hfits : q.amount.toNat ≤ q.room c := by omega
      rw [show q.room d = q.room c - q.amount.toNat by omega] at hrest hroom'
      refine ⟨d', ?_, hd', hlimit'.trans hlimit, ?_⟩
      · rw [fitting_succ hfits, Nat.add_sub_add_right, List.replicate_succ, List.replicate_succ,
          List.cons_append, attemptAll, hok, hrest]
      · rw [fitting_succ hfits, Nat.succ_mul]
        omega
    · rw [fitting_of_lt hlt, attemptAll_replicate_of_refused herror, Nat.zero_mul]
      exact ⟨c, rfl, hc, rfl, rfl⟩

end Change

/-! ## Threads with the same change -/

/-- Each thread, with its lease, asks for the change as often as the number says. -/
def uniform (q : Change) (threads : List (Lease × Nat)) : List (Lease × List Change) :=
  threads.map fun t => (t.1, List.replicate t.2 q)

theorem flatMap_uniform (q : Change) (threads : List (Lease × Nat)) :
    (uniform q threads).flatMap Prod.snd = List.replicate (threads.map Prod.snd).sum q := by
  induction threads with
  | nil => rfl
  | cons t threads ih =>
    rw [List.map_cons, List.sum_cons, ← List.replicate_append_replicate, ← ih]
    rfl

namespace Pool

theorem always_uniform {r : Registry} {h : Handle} {c : Counter} (hc : r.table[h]? = some c)
    (hbounded : c.Bounded) (q : Change) {threads : List (Lease × Nat)}
    (hthreads : ∀ t ∈ threads, t.1.handle = h) {n s : Nat}
    (hn : n = (threads.map Prod.snd).sum) (hs : s = fitting n (q.room c) q.amount.toNat) :
    (ofCrowd r (uniform q threads)).Always fun results after =>
      results.map List.length = threads.map Prod.snd ∧
      ∃ c', after = { r with table := r.table.insert h c' } ∧ c'.Bounded ∧ c'.limit = c.limit ∧
        q.room c' + s * q.amount.toNat = q.room c ∧
        results.flatten.Perm
          (List.replicate s (.ok ()) ++ List.replicate (n - s) (.error (q.refusal c'))) := by
  have hcrowd : ∀ m ∈ uniform q threads, m.1.handle = h := by
    intro m hm
    obtain ⟨t, ht, rfl⟩ := List.mem_map.1 hm
    exact hthreads t ht
  refine always_of_settled hc hcrowd fun order results after hsettled => ?_
  -- All orders of equal changes are the same.
  have horder : order = List.replicate n q := by
    rw [hn, ← List.perm_replicate, ← flatMap_uniform]
    exact hsettled.asked
  obtain ⟨c', hattempt, hbounded', hlimit, hroom⟩ := Change.attemptAll_replicate hbounded q n
  rw [← hs] at hattempt hroom
  have hanswered := hsettled.answered
  have hafter := hsettled.after_eq
  rw [horder, hattempt] at hanswered hafter
  refine ⟨?_, c', hafter, hbounded', hlimit, hroom, hanswered.symm⟩
  rw [hsettled.lengths, uniform, List.map_map]
  refine List.map_congr_left fun t _ => ?_
  exact List.length_replicate

/-- Threads ask in all `n` times for the same addition to a counter. In every interleaving as many
of them are accepted as fit, and the others are refused for the limit; the value goes up by what was
accepted. In the same way for subtractions, where the refusals tell the value that is left. No other
counter changes. -/
theorem uniform_load (d : Distortion) (isOpen : Bool) (qs : List Step) {h : Handle} {c : Counter}
    (hc : ((Session.start d isOpen).reach qs).registry.table[h]? = some c) (x : Amount)
    (threads : List (Lease × Nat)) (hthreads : ∀ t ∈ threads, t.1.handle = h) :
    let r := ((Session.start d isOpen).reach qs).registry
    let n := (threads.map Prod.snd).sum
    let adds := fitting n (c.limit.toNat - c.value.toNat) x.toNat
    let subs := fitting n c.value.toNat x.toNat
    ((ofCrowd r (uniform (.add x) threads)).Always fun results after =>
      results.map List.length = threads.map Prod.snd ∧
      ∃ c', after = { r with table := r.table.insert h c' } ∧ c'.limit = c.limit ∧
        c'.value.toNat = c.value.toNat + adds * x.toNat ∧
        results.flatten.Perm (List.replicate adds (.ok ()) ++
          List.replicate (n - adds) (.error (.overflow x c.limit)))) ∧
    (ofCrowd r (uniform (.sub x) threads)).Always fun results after =>
      results.map List.length = threads.map Prod.snd ∧
      ∃ c', after = { r with table := r.table.insert h c' } ∧ c'.limit = c.limit ∧
        c'.value.toNat + subs * x.toNat = c.value.toNat ∧
        results.flatten.Perm (List.replicate subs (.ok ()) ++
          List.replicate (n - subs) (.error (.underflow x c'.value))) := by
  intro r n adds subs
  have hbounded : c.Bounded := (Session.sound_reach d isOpen qs).registry h c hc
  have hle := hbounded.toNat_le
  constructor
  · refine (always_uniform hc hbounded (.add x) hthreads rfl rfl).mono fun results after => ?_
    rintro ⟨hlengths, c', hafter, hbounded', hlimit, hroom, hperm⟩
    have hle' := hbounded'.toNat_le
    change c'.limit.toNat - c'.value.toNat + adds * x.toNat =
      c.limit.toNat - c.value.toNat at hroom
    rw [hlimit] at hle' hroom
    rw [Change.refusal, hlimit] at hperm
    exact ⟨hlengths, c', hafter, hlimit, by omega, hperm⟩
  · refine (always_uniform hc hbounded (.sub x) hthreads rfl rfl).mono fun results after => ?_
    rintro ⟨hlengths, c', hafter, -, hlimit, hroom, hperm⟩
    exact ⟨hlengths, c', hafter, hlimit, hroom, hperm⟩

/-- Five additions of 4 by two threads, to a counter that is at 4 and has the limit 10: one of them
is accepted. Five subtractions of 3 leave 1. -/
theorem uniform_load_of_two_threads :
    let l : Lease := ⟨⟨1#64⟩, 10#128⟩
    let qs : List Step := [.newLease 0 7#128, .newLease 1 10#128, .lease 1 (.add 4#128)]
    let r := ((Session.start .honest true).reach qs).registry
    let threads := [(l, 3), (l, 2)]
    r.table[l.handle]? = some ⟨4#128, 10#128⟩ ∧
    ((ofCrowd r (uniform (.add 4#128) threads)).Always fun results after =>
      results.map List.length = [3, 2] ∧
      ∃ c', after = { r with table := r.table.insert l.handle c' } ∧ c'.value.toNat = 8 ∧
        results.flatten.Perm
          (.ok () :: List.replicate 4 (.error (.overflow 4#128 10#128)))) ∧
    (ofCrowd r (uniform (.sub 3#128) threads)).Always fun results after =>
      results.map List.length = [3, 2] ∧
      ∃ c', after = { r with table := r.table.insert l.handle c' } ∧ c'.value.toNat = 1 ∧
        results.flatten.Perm
          (.ok () :: List.replicate 4 (.error (.underflow 3#128 c'.value))) := by
  intro l qs r threads
  have hlive : r.table[l.handle]? = some ⟨4#128, 10#128⟩ := by decide +kernel
  have hthreads : ∀ t ∈ threads, t.1.handle = l.handle := by decide
  refine ⟨hlive, (uniform_load .honest true qs hlive 4#128 threads hthreads).1.mono ?_,
    (uniform_load .honest true qs hlive 3#128 threads hthreads).2.mono ?_⟩
  · rintro results after ⟨hlengths, c', hafter, -, hvalue, hperm⟩
    exact ⟨hlengths, c', hafter, hvalue, hperm⟩
  · rintro results after ⟨hlengths, c', hafter, -, hvalue, hperm⟩
    change c'.value.toNat + 3 = 4 at hvalue
    exact ⟨hlengths, c', hafter, by omega, hperm⟩

end Pool

end Abacus
