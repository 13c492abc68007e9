import Mathlib.Algebra.GroupWithZero.Nat
import Mathlib.Data.List.Perm.Basic
import Abacus.Proofs.Interleaving
import Abacus.Proofs.Sound

/-!
# What is done in a pool

The deeds of a pool are the actions that its threads perform under a schedule, in the order of the
schedule and with their answers. They say all about the registry, which comes to the end of the
schedule by the deeds alone (`Pool.does_deeds`), and all about each thread, which follows its script
by its own deeds (`Pool.follows_of_ended`). So a property of a pool is proved in two parts: for the
registry by induction over the deeds, whoever did them, and for each script by itself.
-/

namespace Abacus

/-! ## Deeds one after the other -/

namespace Registry

/-- The second registry comes from the first by the deeds, done one after the other. -/
def Does : Registry → List Deed → Registry → Prop
  | r, [], r' => r' = r
  | r, e :: es, r' => ∃ mid, r.act e.1 = .ok (e.2, mid) ∧ mid.Does es r'

theorem Does.append {r r' r'' : Registry} {es es' : List Deed} (h : r.Does es r')
    (h' : r'.Does es' r'') : r.Does (es ++ es') r'' := by
  induction es generalizing r with
  | nil =>
    cases h
    exact h'
  | cons e es ih =>
    obtain ⟨mid, hact, hmid⟩ := h
    exact ⟨mid, hact, ih hmid⟩

end Registry

namespace Deed

/-- Of the given deeds those of thread `j`. -/
def ofThread (j : Nat) (es : List (Nat × Deed)) : List Deed :=
  (es.filter fun e => e.1 = j).map Prod.snd

theorem ofThread_append (j : Nat) (es es' : List (Nat × Deed)) :
    ofThread j (es ++ es') = ofThread j es ++ ofThread j es' := by
  rw [ofThread, List.filter_append, List.map_append]
  rfl

theorem ofThread_turn (i j : Nat) (e : Option Deed) :
    ofThread j (e.map (i, ·)).toList = if i = j then e.toList else [] := by
  cases e with
  | none =>
    simp only [Option.map_none, Option.toList_none, ite_self]
    rfl
  | some e => by_cases hij : i = j <;> simp [ofThread, hij]

end Deed

/-! ## Results -/

section Results

variable {α : Type}

/-- The result of a script that has no action left. -/
def Script.result? : Script Action.Answer α → Option α
  | done a => some a
  | report _ rest => rest.result?
  | ask _ _ => none

/-- The result of a thread that has ended and did not die. -/
def Strand.result? : Strand α → Option α
  | going s => s.result?
  | dead _ => none

theorem Script.follows_of_result? {s : Script Action.Answer α} {a : α} (h : s.result? = some a) :
    s.Follows [] a := by
  induction s with
  | done b => exact ⟨rfl, Option.some.inj h⟩
  | report e rest ih => exact ih h
  | ask q next ih => cases h

theorem Script.Secure.of_result? {s : Script Action.Answer α} {o : Share}
    {post : α → List Sight → Share → Prop} (hs : s.Secure o post) {a : α}
    (h : s.result? = some a) : post a [] o := by
  induction s with
  | done b =>
    cases h
    exact hs
  | report e rest ih => exact ih hs h
  | ask q next ih => cases h

end Results

/-! ## Turns and deeds -/

theorem Script.Asks.interpret {Q Q' α : Type} {A : Q → Type} {B : Q' → Type} {P : Q → Prop}
    {P' : Q' → Prop} {serve : (q : Q) → Script B (A q)} {s : Script A α} (hs : s.Asks P)
    (hserve : ∀ q, P q → (serve q).Asks P') : (s.interpret serve).Asks P' := by
  induction s with
  | done a => trivial
  | report e rest ih => exact ih hs
  | ask q next ih => exact (hserve q hs.1).bind fun x => ih x (hs.2 x)

namespace Strand

variable {α : Type}

/-- In its turn a thread does its next deed, if it has one, and nothing else. -/
theorem does_step (s : Script Action.Answer α) (r : Registry) :
    r.Does (deedOf s r).toList (step s r).2 := by
  induction s with
  | done a => rfl
  | report e rest ih => exact ih
  | ask q next ih =>
    cases hact : r.act q with
    | error d => simp only [deedOf, step, hact, Option.toList_none, Registry.Does]
    | ok p =>
      simp only [deedOf, step, hact, Option.toList_some]
      exact ⟨p.2, hact, rfl⟩

theorem does_turn (s : Strand α) (r : Registry) : r.Does (s.deed? r).toList (s.turn r).2 := by
  cases s with
  | going s => exact does_step s r
  | dead d => rfl

theorem follows_step {s t : Script Action.Answer α} {r : Registry} (h : (step s r).1 = .going t)
    {w : List Deed} {a : α} (ht : t.Follows w a) : s.Follows ((deedOf s r).toList ++ w) a := by
  induction s with
  | done b =>
    cases h
    exact ht
  | report e rest ih => exact ih h
  | ask q next ih =>
    cases hact : r.act q with
    | error d =>
      simp only [step, hact] at h
      cases h
    | ok p =>
      simp only [step, hact] at h
      cases h
      simp only [deedOf, hact, Option.toList_some, List.singleton_append]
      exact ⟨p.1, w, rfl, ht⟩

/-- All actions that the thread may still perform are as `P` says. -/
def Asks (P : Action → Prop) : Strand α → Prop
  | going s => s.Asks P
  | dead _ => True

theorem asks_step {P : Action → Prop} {s : Script Action.Answer α} (hs : s.Asks P) (r : Registry) :
    (step s r).1.Asks P := by
  induction s with
  | done b => exact hs
  | report e rest ih => exact ih hs
  | ask q next ih =>
    cases hact : r.act q with
    | error d =>
      simp only [step, hact]
      trivial
    | ok p =>
      simp only [step, hact]
      exact hs.2 p.1

theorem asks_deedOf {P : Action → Prop} {s : Script Action.Answer α} {r : Registry} (hs : s.Asks P)
    {e : Deed} (he : deedOf s r = some e) : P e.1 := by
  induction s with
  | done b => cases he
  | report e' rest ih => exact ih hs he
  | ask q next ih =>
    cases hact : r.act q with
    | error d =>
      simp only [deedOf, hact] at he
      cases he
    | ok p =>
      simp only [deedOf, hact] at he
      cases he
      exact hs.1

theorem Asks.turn {P : Action → Prop} {s : Strand α} (hs : s.Asks P) (r : Registry) :
    (s.turn r).1.Asks P := by
  cases s with
  | going s => exact asks_step hs r
  | dead d => trivial

theorem Asks.deed? {P : Action → Prop} {s : Strand α} {r : Registry} (hs : s.Asks P) {e : Deed}
    (he : s.deed? r = some e) : P e.1 := by
  cases s with
  | going s => exact asks_deedOf hs he
  | dead d => cases he

end Strand

namespace Pool

variable {α : Type}

theorem getElem?_strands_turn (p : Pool α) (i j : Nat) :
    (p.turn i).strands[j]? =
      if i = j then p.strands[j]?.map fun s => (s.turn p.registry).1 else p.strands[j]? := by
  by_cases hij : i = j
  · subst hij
    cases hi : p.strands[i]? with
    | none => simp [turn, hi]
    | some s =>
      have hlt : i < p.strands.length := (List.getElem?_eq_some_iff.1 hi).1
      simp [turn, hi, List.getElem?_set_self hlt]
  · rw [if_neg hij, turn]
    split
    · rfl
    · exact List.getElem?_set_ne hij

/-- A thread that has nothing more to do stays as it is. -/
theorem strands_run_of_idle {p : Pool α} {j : Nat} {s : Strand α} (hs : p.strands[j]? = some s)
    (hidle : ∀ r, (s.turn r).1 = s) (schedule : List Nat) :
    (p.run schedule).strands[j]? = some s := by
  induction schedule generalizing p with
  | nil => exact hs
  | cons i schedule ih =>
    refine ih ?_
    rw [getElem?_strands_turn, hs, Option.map_some, hidle, ite_self]

theorem deed?_of_some {p : Pool α} {i : Nat} {s : Strand α} (hs : p.strands[i]? = some s) :
    p.deed? i = s.deed? p.registry := by
  rw [deed?, hs, Option.bind_some]

/-- What is done in the turns of a schedule, each deed with the thread that does it. -/
def deeds : Pool α → List Nat → List (Nat × Deed)
  | _, [] => []
  | p, i :: is => ((p.deed? i).map (i, ·)).toList ++ (p.turn i).deeds is

theorem does_turn (p : Pool α) (i : Nat) :
    p.registry.Does (p.deed? i).toList (p.turn i).registry := by
  cases hs : p.strands[i]? with
  | none =>
    have hturn : p.turn i = p := by simp only [turn, hs]
    rw [hturn, deed?, hs]
    rfl
  | some s =>
    have hturn : (p.turn i).registry = (s.turn p.registry).2 := by simp only [turn, hs]
    rw [hturn, deed?_of_some hs]
    exact s.does_turn p.registry

theorem act_of_deed? {p : Pool α} {i : Nat} {e : Deed} (he : p.deed? i = some e) :
    p.registry.act e.1 = .ok (e.2, (p.turn i).registry) := by
  have hdoes := p.does_turn i
  rw [he] at hdoes
  obtain ⟨mid, hact, hend⟩ := hdoes
  rw [hact, show (p.turn i).registry = mid from hend]

/-- The registry comes to the end of a schedule by the deeds, whoever did them. -/
theorem does_deeds (p : Pool α) (schedule : List Nat) :
    p.registry.Does ((p.deeds schedule).map Prod.snd) (p.run schedule).registry := by
  induction schedule generalizing p with
  | nil => rfl
  | cons i schedule ih =>
    have hmap : ((p.deeds (i :: schedule)).map Prod.snd) =
        (p.deed? i).toList ++ ((p.turn i).deeds schedule).map Prod.snd := by
      rw [deeds, List.map_append]
      cases p.deed? i <;> rfl
    rw [hmap]
    exact (p.does_turn i).append (ih (p.turn i))

/-! ## The deeds of one thread -/

theorem ofThread_deeds_cons (p : Pool α) (i j : Nat) (schedule : List Nat) :
    Deed.ofThread j (p.deeds (i :: schedule)) =
      (if i = j then (p.deed? i).toList else []) ++
        Deed.ofThread j ((p.turn i).deeds schedule) := by
  rw [deeds, Deed.ofThread_append, Deed.ofThread_turn]

/-- A thread that is still going has followed its script up to here by its own deeds. -/
theorem follows_of_going {p : Pool α} {j : Nat} {s t : Script Action.Answer α} {schedule : List Nat}
    (hs : p.strands[j]? = some (.going s)) (ht : (p.run schedule).strands[j]? = some (.going t))
    {w : List Deed} {a : α} (hw : t.Follows w a) :
    s.Follows (Deed.ofThread j (p.deeds schedule) ++ w) a := by
  induction schedule generalizing p s with
  | nil =>
    rw [show (p.run []).strands[j]? = p.strands[j]? from rfl, hs] at ht
    cases ht
    exact hw
  | cons i schedule ih =>
    change ((p.turn i).run schedule).strands[j]? = _ at ht
    rw [ofThread_deeds_cons, List.append_assoc]
    have hturn := p.getElem?_strands_turn i j
    by_cases hij : i = j
    · subst hij
      rw [hs, if_pos rfl, Option.map_some] at hturn
      rw [if_pos rfl, deed?_of_some hs]
      cases hstep : (Strand.step s p.registry).1 with
      | going s' =>
        rw [Strand.turn, hstep] at hturn
        exact Strand.follows_step hstep (ih hturn ht)
      | dead d =>
        rw [Strand.turn, hstep] at hturn
        exact absurd ht (by rw [strands_run_of_idle hturn fun _ => rfl]; simp)
    · rw [if_neg hij, hs] at hturn
      rw [if_neg hij]
      exact ih hturn ht

/-- A thread that has ended did what its script says, and has its result from the answers. -/
theorem follows_of_ended {p : Pool α} {j : Nat} {s : Script Action.Answer α} {s' : Strand α}
    {schedule : List Nat} (hs : p.strands[j]? = some (.going s))
    (hs' : (p.run schedule).strands[j]? = some s') {a : α} (ha : s'.result? = some a) :
    s.Follows (Deed.ofThread j (p.deeds schedule)) a := by
  cases s' with
  | dead d => cases ha
  | going t =>
    have hfollows := follows_of_going hs hs' (Script.follows_of_result? ha)
    rwa [List.append_nil] at hfollows

/-- After a turn the threads ask nothing that they did not ask before. -/
theorem asks_turn {p : Pool α} {P : Action → Prop}
    (hp : ∀ (i : Nat) (s : Strand α), p.strands[i]? = some s → s.Asks P) (i : Nat) :
    ∀ (j : Nat) (s : Strand α), (p.turn i).strands[j]? = some s → s.Asks P := by
  intro j s hs
  rw [getElem?_strands_turn] at hs
  split at hs
  · obtain ⟨s', hs', rfl⟩ := Option.map_eq_some_iff.1 hs
    exact (hp j s' hs').turn p.registry
  · exact hp j s hs

theorem asks_run {p : Pool α} {P : Action → Prop}
    (hp : ∀ (i : Nat) (s : Strand α), p.strands[i]? = some s → s.Asks P) (schedule : List Nat) :
    ∀ (i : Nat) (s : Strand α), (p.run schedule).strands[i]? = some s → s.Asks P := by
  induction schedule generalizing p with
  | nil => exact hp
  | cons i schedule ih => exact ih (asks_turn hp i)

/-- All deeds of a pool are among what its threads may ask. -/
theorem asks_of_mem_deeds {p : Pool α} {P : Action → Prop}
    (hp : ∀ (i : Nat) (s : Strand α), p.strands[i]? = some s → s.Asks P) (schedule : List Nat) :
    ∀ e ∈ p.deeds schedule, P e.2.1 := by
  induction schedule generalizing p with
  | nil =>
    intro e he
    cases he
  | cons i schedule ih =>
    intro e he
    rw [deeds, List.mem_append] at he
    rcases he with he | he
    · obtain ⟨e', he', rfl⟩ := Option.map_eq_some_iff.1 (Option.mem_toList.1 he)
      obtain ⟨s, hs, hdeed⟩ := Option.bind_eq_some_iff.1 he'
      exact (hp i s hs).deed? hdeed
    · exact ih (asks_turn hp i) e he

/-- After enough turns all of the first `k` threads have ended, if they have not died. -/
theorem exists_all_ended (p : Pool α) (k : Nat) :
    ∃ schedule, ∀ i t, i < k → (p.run schedule).strands[i]? = some (.going t) →
      ∃ a, t = .done a := by
  induction k with
  | zero => exact ⟨[], fun i t hi => absurd hi (by omega)⟩
  | succ k ih =>
    obtain ⟨schedule, hbefore⟩ := ih
    obtain ⟨n, hk⟩ := (p.run schedule).exists_ended k
    refine ⟨schedule ++ List.replicate n k, fun i t hi ht => ?_⟩
    rw [run_append] at ht
    by_cases hik : i = k
    · subst hik
      exact hk t ht
    -- The others have ended before and stay as they are.
    · cases hs : (p.run schedule).strands[i]? with
      | none =>
        have hlen := List.getElem?_eq_none_iff.1 hs
        rw [← length_strands_run _ (List.replicate n k)] at hlen
        rw [List.getElem?_eq_none hlen] at ht
        cases ht
      | some s =>
        cases s with
        | dead d =>
          rw [strands_run_of_idle hs fun _ => rfl] at ht
          cases ht
        | going s =>
          obtain ⟨a, rfl⟩ := hbefore i s (by omega) hs
          rw [strands_run_of_idle hs fun _ => rfl] at ht
          cases ht
          exact ⟨a, rfl⟩

end Pool

/-! ## Threads that go on to their ends -/

section Ends

variable {α : Type} {P : Action → Prop}

/-- A script that is run alone does one deed after the other, all of them among what it may ask. -/
theorem Script.exists_does_run {s : Script Action.Answer α} (hs : s.Asks P) (r : Registry) :
    ∃ es, r.Does es (s.run r).registry ∧ ∀ e ∈ es, P e.1 := by
  induction s generalizing r with
  | done a => exact ⟨[], rfl, fun e he => by cases he⟩
  | report e rest ih => exact ih hs r
  | ask q next ih =>
    cases hact : r.act q with
    | error d =>
      simp only [run, hact]
      exact ⟨[], rfl, fun e he => by cases he⟩
    | ok p =>
      simp only [run, hact]
      obtain ⟨es, hdoes, hes⟩ := ih p.1 (hs.2 p.1) p.2
      refine ⟨⟨q, p.1⟩ :: es, ⟨p.2, hact, hdoes⟩, fun e he => ?_⟩
      rcases List.mem_cons.1 he with rfl | he
      · exact hs.1
      · exact hes e he

theorem Strand.exists_does_finish (s : Strand α) (hs : s.Asks P) (r : Registry) :
    ∃ es, r.Does es (s.finish r).2 ∧ ∀ e ∈ es, P e.1 := by
  cases s with
  | going s => exact Script.exists_does_run hs r
  | dead d => exact ⟨[], rfl, fun e he => by cases he⟩

theorem Pool.exists_does_finish {p : Pool α}
    (hp : ∀ (i : Nat) (s : Strand α), p.strands[i]? = some s → s.Asks P) :
    ∃ es, p.registry.Does es p.finish.2 ∧ ∀ e ∈ es, P e.1 := by
  have hgo (ss : List (Strand α)) (r : Registry) (hss : ∀ s ∈ ss, s.Asks P) :
      ∃ es, r.Does es (finish.go ss r).2 ∧ ∀ e ∈ es, P e.1 := by
    induction ss generalizing r with
    | nil => exact ⟨[], rfl, fun e he => by cases he⟩
    | cons s ss ih =>
      obtain ⟨es, hdoes, hes⟩ := s.exists_does_finish (hss s List.mem_cons_self) r
      obtain ⟨es', hdoes', hes'⟩ := ih (s.finish r).2 fun t ht => hss t (List.mem_cons_of_mem _ ht)
      refine ⟨es ++ es', hdoes.append hdoes', fun e he => ?_⟩
      rcases List.mem_append.1 he with he | he
      · exact hes e he
      · exact hes' e he
  refine hgo p.strands p.registry fun s hs => ?_
  obtain ⟨i, hi⟩ := List.mem_iff_getElem?.1 hs
  exact hp i s hi

/-- A load does one deed after the other, all of them among what its calls may ask. -/
theorem Load.exists_does_put (l : Load) (s : Session) {c : Script Call.Answer α}
    (hc : (s.distortion.carryOut (c.times l.times)).Asks P) :
    ∃ es, s.registry.Does es (l.put s c).2 ∧ ∀ e ∈ es, P e.1 := by
  let p := Pool.start s.registry
    (List.replicate l.threads (s.distortion.carryOut (c.times l.times)))
  have hp (i : Nat) (t : Strand (List α)) (ht : p.strands[i]? = some t) : t.Asks P := by
    have hmem := List.mem_of_getElem? ht
    simp only [p, Pool.start, List.map_replicate] at hmem
    rw [List.eq_of_mem_replicate hmem]
    exact hc
  obtain ⟨es, hdoes, hes⟩ := Pool.exists_does_finish (Pool.asks_run hp l.schedule)
  refine ⟨(p.deeds l.schedule).map Prod.snd ++ es, (p.does_deeds l.schedule).append hdoes,
    fun e he => ?_⟩
  rcases List.mem_append.1 he with he | he
  · obtain ⟨e', he', rfl⟩ := List.mem_map.1 he
    exact Pool.asks_of_mem_deeds hp l.schedule e' he'
  · exact hes e he

end Ends

/-! ## How many handles are drawn -/

/-- The script draws at most `n` handles, whatever the answers. -/
def Script.DrawsAtMost {α : Type} : Script Action.Answer α → Nat → Prop
  | done _, _ => True
  | report _ rest, n => rest.DrawsAtMost n
  | ask q next, n => q.draws ≤ n ∧ ∀ a, (next a).DrawsAtMost (n - q.draws)

namespace Script

variable {α β : Type} {m n : Nat}

theorem DrawsAtMost.mono {s : Script Action.Answer α} (hs : s.DrawsAtMost m) (hmn : m ≤ n) :
    s.DrawsAtMost n := by
  induction s generalizing m n with
  | done a => trivial
  | report e rest ih => exact ih hs hmn
  | ask q next ih => exact ⟨Nat.le_trans hs.1 hmn, fun a => ih a (hs.2 a) (by omega)⟩

theorem DrawsAtMost.bind {s : Script Action.Answer α} {f : α → Script Action.Answer β}
    (hs : s.DrawsAtMost m) (hf : ∀ a, (f a).DrawsAtMost n) : (s.bind f).DrawsAtMost (m + n) := by
  induction s generalizing m with
  | done a => exact (hf a).mono (by omega)
  | report e rest ih => exact ih hs
  | ask q next ih =>
    have hq := hs.1
    exact ⟨by omega, fun a => (ih a (hs.2 a)).mono (by omega)⟩

end Script

namespace Strand

variable {α : Type} {n : Nat}

def DrawsAtMost (s : Strand α) (n : Nat) : Prop :=
  match s with
  | going s => s.DrawsAtMost n
  | dead _ => True

/-- What a thread draws in its turn it cannot draw again. -/
theorem drawsAtMost_step {s : Script Action.Answer α} (hs : s.DrawsAtMost n) (r : Registry) :
    Deed.draws (deedOf s r) ≤ n ∧ (step s r).1.DrawsAtMost (n - Deed.draws (deedOf s r)) := by
  induction s with
  | done a => exact ⟨Nat.zero_le n, trivial⟩
  | report e rest ih => exact ih hs
  | ask q next ih =>
    cases hact : r.act q with
    | error d =>
      simp only [deedOf, step, hact]
      exact ⟨Nat.zero_le n, trivial⟩
    | ok p =>
      simp only [deedOf, step, hact]
      exact ⟨hs.1, hs.2 p.1⟩

theorem drawsAtMost_turn {s : Strand α} (hs : s.DrawsAtMost n) (r : Registry) :
    Deed.draws (s.deed? r) ≤ n ∧ (s.turn r).1.DrawsAtMost (n - Deed.draws (s.deed? r)) := by
  cases s with
  | going s => exact drawsAtMost_step hs r
  | dead d => exact ⟨Nat.zero_le n, trivial⟩

end Strand

/-- What is taken from one of the numbers is taken from the sum. -/
theorem sum_set_sub {ks : List Nat} {i k d : Nat} (hk : ks[i]? = some k) (hd : d ≤ k) :
    (ks.set i (k - d)).sum + d = ks.sum := by
  induction ks generalizing i with
  | nil => simp at hk
  | cons k' ks ih =>
    cases i with
    | zero =>
      cases hk
      simp only [List.set_cons_zero, List.sum_cons]
      omega
    | succ i =>
      have hset := ih hk
      simp only [List.set_cons_succ, List.sum_cons]
      omega

/-- A pool draws no more handles than its threads may draw together. -/
theorem Pool.draws_le {α : Type} {p : Pool α} {ks : List Nat}
    (hks : ∀ (i : Nat) (s : Strand α), p.strands[i]? = some s →
      ∃ k, ks[i]? = some k ∧ s.DrawsAtMost k)
    (schedule : List Nat) : p.draws schedule ≤ ks.sum := by
  induction schedule generalizing p ks with
  | nil => exact Nat.zero_le _
  | cons i schedule ih =>
    rw [draws]
    cases hi : p.strands[i]? with
    | none =>
      have hturn : p.turn i = p := by simp only [turn, hi]
      rw [hturn, deed?, hi]
      simpa [Deed.draws] using ih hks
    | some s =>
      obtain ⟨k, hk, hs⟩ := hks i s hi
      obtain ⟨hle, hturned⟩ := Strand.drawsAtMost_turn hs p.registry
      rw [deed?_of_some hi]
      have hnext (j : Nat) (t : Strand α) (ht : (p.turn i).strands[j]? = some t) :
          ∃ k', (ks.set i (k - Deed.draws (s.deed? p.registry)))[j]? = some k' ∧
            t.DrawsAtMost k' := by
        rw [getElem?_strands_turn] at ht
        split at ht
        · rename_i hij
          subst hij
          rw [hi] at ht
          cases ht
          have hlt : i < ks.length := (List.getElem?_eq_some_iff.1 hk).1
          exact ⟨_, List.getElem?_set_self hlt, hturned⟩
        · rename_i hij
          rw [List.getElem?_set_ne hij]
          exact hks j t ht
      have hrest := ih hnext
      have hsum := sum_set_sub hk hle
      omega

/-! ## What all threads see -/

/-- What a thread learns by a deed. -/
def Deed.seen (e : Deed) : List Sight := e.1.sights e.2

theorem flatMap_range_ite {β : Type} (k i : Nat) (x : List β) :
    ((List.range k).flatMap fun j => if i = j then x else []) = if i < k then x else [] := by
  induction k with
  | zero => rfl
  | succ k ih =>
    rw [List.range_succ, List.flatMap_append, ih, List.flatMap_singleton]
    by_cases hik : i = k
    · subst hik
      simp
    · rw [if_neg hik, List.append_nil]
      by_cases hlt : i < k
      · rw [if_pos hlt, if_pos (by omega)]
      · rw [if_neg hlt, if_neg (by omega)]

/-- What the threads see, thread by thread, is what is seen in the order of the deeds. -/
theorem Pool.flatMap_sights_perm {α : Type} (p : Pool α) (schedule : List Nat) :
    ((List.range p.strands.length).flatMap (p.sights schedule)).Perm
      (((p.deeds schedule).map Prod.snd).flatMap Deed.seen) := by
  induction schedule generalizing p with
  | nil => simp [sights, deeds]
  | cons i schedule ih =>
    have hnext := ih (p.turn i)
    rw [length_strands_turn] at hnext
    have hhead : ((List.range p.strands.length).flatMap fun j =>
        if i = j then Deed.sights (p.deed? i) else []) = Deed.sights (p.deed? i) := by
      rw [flatMap_range_ite]
      by_cases hlt : i < p.strands.length
      · rw [if_pos hlt]
      · rw [if_neg hlt, deed?, List.getElem?_eq_none (by omega)]
        rfl
    have hdeeds : ((p.deeds (i :: schedule)).map Prod.snd).flatMap Deed.seen =
        Deed.sights (p.deed? i) ++
          (((p.turn i).deeds schedule).map Prod.snd).flatMap Deed.seen := by
      rw [deeds, List.map_append, List.flatMap_append]
      cases p.deed? i <;> simp [Deed.sights, Deed.seen]
    rw [hdeeds]
    refine (List.flatMap_append_perm _ _ _).symm.trans ?_
    rw [hhead]
    exact hnext.append_left _

end Abacus
