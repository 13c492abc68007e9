import Mathlib.Data.Set.Insert
import Mathlib.Logic.Function.Basic
import Abacus.Proofs.Trace

/-!
# Handles drawn side by side

Clients ask for counters, work through leases of any kind, forged ones too, and open or close the
gate, all at the same time. Handles are drawn in sequence, whoever draws them
(`Registry.Does.handles`). What the table holds depends on the scripts: a script is careful if it
places counters only under handles that it drew itself, and under each of them once
(`Script.Careful`), and those of the honest host are. `Registry.Drawn` says where the drawn handles
are: in use, or idle in just one place. Every action of a careful script keeps this
(`Registry.Drawn.act`), so every pool of clients does (`Pool.Careful.run`). Until the sequence comes
round no counter is placed where there is one, and a handle once given back is not used again.
-/

namespace Abacus

/-! ## Actions that bring nothing new -/

/-- Whether an action takes a handle from the sequence or puts a counter into the table. -/
def Action.bringsNew : Action → Bool
  | draw => true
  | place .. => true
  | _ => false

namespace Registry

/-- From the first registry to the second no handle was issued and no counter was added. -/
structure NothingNew (r r' : Registry) : Prop where
  next_eq : r'.next = r.next
  live_of_live : ∀ h, r'.IsLive h → r.IsLive h

variable {r r' r'' : Registry}

theorem NothingNew.refl (r : Registry) : r.NothingNew r := ⟨rfl, fun _ h => h⟩

theorem NothingNew.trans (h : r.NothingNew r') (h' : r'.NothingNew r'') : r.NothingNew r'' :=
  ⟨h'.next_eq.trans h.next_eq, fun k hk => h.live_of_live k (h'.live_of_live k hk)⟩

theorem isLive_erase {h k : Handle} :
    { r with table := r.table.erase h }.IsLive k ↔ h ≠ k ∧ r.IsLive k := by
  rw [isLive_iff, getElem?_table_erase, isLive_iff]
  split <;> simp_all

theorem isLive_insert {h k : Handle} (c : Counter) :
    { r with table := r.table.insert h c }.IsLive k ↔ h = k ∨ r.IsLive k := by
  rw [isLive_iff, getElem?_table_insert, isLive_iff]
  split <;> simp_all

theorem nothingNew_erase (r : Registry) (h : Handle) :
    r.NothingNew { r with table := r.table.erase h } :=
  ⟨rfl, fun _ hk => (isLive_erase.1 hk).2⟩

theorem nothingNew_put {h : Handle} (hh : r.IsLive h) (change : Except Refusal Counter) :
    r.NothingNew (r.put h change).2 := by
  cases change with
  | error e => exact .refl r
  | ok c =>
    refine ⟨rfl, fun k hk => ?_⟩
    rcases (isLive_insert c).1 hk with rfl | hlive
    · exact hh
    · exact hlive

theorem nothingNew_act {q : Action} (hq : q.bringsNew = false) {a : q.Answer}
    (hact : r.act q = .ok (a, r')) : r.NothingNew r' := by
  cases q with
  | draw | place h limit => cases hq
  | look | setGate isOpen =>
    cases hact
    exact ⟨rfl, fun _ h => h⟩
  | add h x | sub h x =>
    obtain ⟨c, hc, hput⟩ := exists_of_find_map hact
    have hsnd : (r.put h _).2 = r' := congrArg Prod.snd hput
    exact hsnd ▸ nothingNew_put (isLive_iff.2 ⟨c, hc⟩) _
  | read h =>
    obtain ⟨c, -, hsame⟩ := exists_of_find_map hact
    cases hsame
    exact .refl r
  | remove h =>
    obtain ⟨c, -, herase⟩ := exists_of_find_map hact
    cases herase
    exact r.nothingNew_erase h

end Registry

theorem Script.nothingNew_run {α : Type} {s : Script Action.Answer α}
    (hs : s.Asks fun q => q.bringsNew = false) (r : Registry) :
    r.NothingNew (s.run r).registry := by
  induction s generalizing r with
  | done a => exact .refl r
  | report e rest ih => exact ih hs r
  | ask q next ih =>
    cases hact : r.act q with
    | error d => simpa only [run, hact] using Registry.NothingNew.refl r
    | ok p =>
      simpa only [run, hact] using
        (Registry.nothingNew_act hs.1 hact).trans (ih p.1 (hs.2 p.1) p.2)

/-! ## Handles in the order of the deeds -/

def Sight.handle? : Sight → Option Handle
  | ⟨.handle, h⟩ => some h
  | ⟨.gate, _⟩ => none

namespace Registry

variable {r r' : Registry}

/-- The handles drawn by an action, of which there is at most one, and the next one after it. -/
theorem act_handles {q : Action} {a : q.Answer} (hact : r.act q = .ok (a, r')) :
    ((q.sights a).filterMap Sight.handle? = [] ∧ r'.next = r.next) ∨
      ((q.sights a).filterMap Sight.handle? = [r.next] ∧ r'.next = r.next.succ) := by
  cases q with
  | draw =>
    cases hact
    exact .inr ⟨rfl, rfl⟩
  | place h limit =>
    cases hact
    exact .inl ⟨rfl, rfl⟩
  | look | setGate isOpen | add h x | sub h x | read h | remove h =>
    exact .inl ⟨rfl, (nothingNew_act rfl hact).next_eq⟩

/-- Handles are drawn in sequence, whoever draws them. -/
theorem Does.handles {es : List Deed} (hes : r.Does es r') {n : Nat}
    (hn : r.next.id.toNat = n % 2 ^ 64) :
    let drawn := (es.flatMap Deed.seen).filterMap Sight.handle?
    drawn.map (fun h => h.id.toNat) = (List.range' n drawn.length).map (· % 2 ^ 64) ∧
      r'.next.id.toNat = (n + drawn.length) % 2 ^ 64 := by
  induction es generalizing r n with
  | nil =>
    cases hes
    exact ⟨rfl, hn⟩
  | cons e es ih =>
    obtain ⟨mid, hact, hmid⟩ := hes
    simp only [List.flatMap_cons, List.filterMap_append, Deed.seen]
    rcases act_handles hact with ⟨hnone, hnext⟩ | ⟨hone, hnext⟩
    · rw [hnone, List.nil_append]
      exact ih hmid (hnext ▸ hn)
    · rw [hone, List.singleton_append, List.map_cons, List.length_cons, List.range'_succ,
        List.map_cons]
      have hsucc : mid.next.id.toNat = (n + 1) % 2 ^ 64 := by
        rw [hnext, Handle.toNat_succ, hn, Nat.mod_add_mod]
      obtain ⟨hmap, hend⟩ := ih hmid hsucc
      refine ⟨congrArg₂ List.cons hn hmap, ?_⟩
      rw [hend]
      congr 1
      omega

/-- The handles are `0`, `1`, `2` and so on, the registry has the next one, and those in use are
among them. Up to the end of the range they ascend. -/
structure InSequence (r : Registry) (handles : List Handle) : Prop where
  ids_eq : handles.map (fun h => h.id.toNat) = (List.range handles.length).map (· % 2 ^ 64)
  next_eq : r.next.id.toNat = handles.length % 2 ^ 64
  live_lt : ∀ h, r.IsLive h → h.id.toNat < handles.length
  ascending : handles.length ≤ 2 ^ 64 → handles.Pairwise (· < ·)

theorem inSequence_of_ids {handles : List Handle}
    (hids : handles.map (fun h => h.id.toNat) = (List.range handles.length).map (· % 2 ^ 64))
    (hnext : r.next.id.toNat = handles.length % 2 ^ 64)
    (hlive : ∀ h, r.IsLive h → h.id.toNat < handles.length) : r.InSequence handles := by
  refine ⟨hids, hnext, hlive, fun hle => ?_⟩
  have hall : (List.range handles.length).map (· % 2 ^ 64) = List.range handles.length := by
    refine List.map_congr_left (fun k hk => Nat.mod_eq_of_lt ?_) |>.trans (List.map_id _)
    have := List.mem_range.1 hk
    omega
  have hsorted : (handles.map fun h => h.id.toNat).Pairwise (· < ·) := by
    rw [hids, hall]
    exact List.pairwise_lt_range
  have hpairs := List.pairwise_map.1 hsorted
  exact hpairs

end Registry

namespace Pool

variable {α : Type}

/-- The handles drawn in the turns of a schedule, in order. -/
def drawn (p : Pool α) (schedule : List Nat) : List Handle :=
  (((p.deeds schedule).map Prod.snd).flatMap Deed.seen).filterMap Sight.handle?

theorem length_drawn (p : Pool α) (schedule : List Nat) :
    (p.drawn schedule).length = p.draws schedule := by
  have hdeed (e : Deed) : ((Deed.seen e).filterMap Sight.handle?).length = Deed.draws (some e) := by
    obtain ⟨q, a⟩ := e
    cases q <;> rfl
  induction schedule generalizing p with
  | nil => rfl
  | cons i schedule ih =>
    rw [draws, ← ih, drawn, deeds]
    cases p.deed? i with
    | none => simp [drawn, Deed.draws]
    | some e => simp [drawn, hdeed]

end Pool

/-! ## Careful scripts -/

namespace Action

/-- The handles that a thread has drawn and not used yet, after an action. -/
def waiting : (q : Action) → q.Answer → Set Handle → Set Handle
  | draw, h, w => insert h w
  | place h _, _, w => w \ {h}
  | _, _, w => w

/-- A counter is placed only under a handle that waits for it. -/
def Allowed (w : Set Handle) : Action → Prop
  | place h _ => h ∈ w
  | _ => True

theorem Allowed.mono {q : Action} {w w' : Set Handle} (hq : q.Allowed w) (hw : w ⊆ w') :
    q.Allowed w' := by
  cases q with
  | place h limit => exact hw hq
  | _ => trivial

theorem waiting_mono {w w' : Set Handle} (hw : w ⊆ w') (q : Action) (a : q.Answer) :
    q.waiting a w ⊆ q.waiting a w' := by
  cases q with
  | draw => exact Set.insert_subset_insert hw
  | place h limit => exact fun k hk => ⟨hw hk.1, hk.2⟩
  | _ => exact hw

end Action

namespace Script

variable {α β : Type}

/-- The script places counters only under handles that it drew, and under each of them once. It
starts with the handles `w`, drawn before and not used yet. -/
def Careful : Script Action.Answer α → Set Handle → Prop
  | done _, _ => True
  | report _ rest, w => rest.Careful w
  | ask q next, w => q.Allowed w ∧ ∀ a, (next a).Careful (q.waiting a w)

theorem Careful.mono {s : Script Action.Answer α} {w w' : Set Handle} (hs : s.Careful w)
    (hw : w ⊆ w') : s.Careful w' := by
  induction s generalizing w w' with
  | done a => trivial
  | report e rest ih => exact ih hs hw
  | ask q next ih => exact ⟨hs.1.mono hw, fun a => ih a (hs.2 a) (q.waiting_mono hw a)⟩

theorem Careful.bind {s : Script Action.Answer α} {f : α → Script Action.Answer β} {w : Set Handle}
    (hs : s.Careful w) (hf : ∀ a, (f a).Careful ∅) : (s.bind f).Careful w := by
  induction s generalizing w with
  | done a => exact (hf a).mono (Set.empty_subset w)
  | report e rest ih => exact ih hs
  | ask q next ih => exact ⟨hs.1, fun a => ih a (hs.2 a)⟩

theorem careful_interpret {Q : Type} {A : Q → Type} {serve : (q : Q) → Script Action.Answer (A q)}
    (hserve : ∀ q, (serve q).Careful ∅) (s : Script A α) : (s.interpret serve).Careful ∅ := by
  induction s with
  | done a => trivial
  | report e rest ih => exact ih
  | ask q next ih => exact (hserve q).bind ih

end Script

/-- What a client asks for: a call to the honest host, or to open or close the gate. -/
inductive Request
  | call (c : Call)
  | setGate (isOpen : Bool)

namespace Request

abbrev Answer : Request → Type
  | call c => c.Answer
  | setGate _ => Unit

def serve : (q : Request) → Script Action.Answer q.Answer
  | call c => c.serve
  | setGate isOpen => Registry.setGate isOpen

theorem careful_serve (q : Request) : q.serve.Careful ∅ := by
  cases q with
  | setGate isOpen =>
    refine ⟨trivial, fun before => ?_⟩
    dsimp only
    split <;> trivial
  | call c =>
    cases c with
    | create limit =>
      refine ⟨trivial, fun isOpen => ?_⟩
      cases isOpen with
      | false => trivial
      | true => exact ⟨trivial, fun h => ⟨Set.mem_insert h _, fun _ => trivial⟩⟩
    | add l x | sub l x | read l | destroy l => exact ⟨trivial, fun _ => trivial⟩

end Request

/-! ## Where the drawn handles are -/

/-- The idle handles after a deed of thread `i`. -/
def Deed.shift (i : Nat) (idle : Option Nat → Set Handle) : Deed → Option Nat → Set Handle
  | ⟨.remove h, _⟩ => Function.update idle none (insert h (idle none))
  | ⟨q, a⟩ => Function.update idle (some i) (q.waiting a (idle (some i)))

section Shift

variable {i : Nat} {idle : Option Nat → Set Handle} (e : Deed)

theorem Deed.shift_self : e.shift i idle (some i) = e.1.waiting e.2 (idle (some i)) := by
  obtain ⟨q, a⟩ := e
  cases q <;> simp [shift, Action.waiting]

theorem Deed.shift_of_ne {j : Nat} (hj : j ≠ i) : e.shift i idle (some j) = idle (some j) := by
  obtain ⟨q, a⟩ := e
  cases q <;> simp [shift, hj]

theorem Deed.subset_shift : idle none ⊆ e.shift i idle none := by
  obtain ⟨q, a⟩ := e
  cases q <;> simp [shift]

end Shift

namespace Registry

/-- So many handles were drawn, and those in use are among them. The others are idle: with the
thread that drew them and has not used them yet, or with nobody after they were given back. Until
the sequence comes round a handle is in one place only. -/
structure Drawn (r : Registry) (idle : Option Nat → Set Handle) (n : Nat) : Prop where
  next_eq : r.next.id.toNat = n % 2 ^ 64
  live_lt : ∀ h, r.IsLive h → h.id.toNat < n
  idle_lt : ∀ i, ∀ h ∈ idle i, h.id.toNat < n
  not_live : n ≤ 2 ^ 64 → ∀ i, ∀ h ∈ idle i, ¬ r.IsLive h
  apart : n ≤ 2 ^ 64 → ∀ i j h, h ∈ idle i → h ∈ idle j → i = j

variable {r r' : Registry} {idle : Option Nat → Set Handle} {n : Nat}

theorem drawn_empty (isOpen : Bool) : (empty isOpen).Drawn (fun _ => ∅) 0 where
  next_eq := rfl
  live_lt h hh := by simp [empty, IsLive] at hh
  idle_lt i h hh := absurd hh (Set.notMem_empty h)
  not_live _ i h hh := absurd hh (Set.notMem_empty h)
  apart _ i j h hh := absurd hh (Set.notMem_empty h)

namespace Drawn

theorem of_nothingNew (hr : r.Drawn idle n) (hnew : r.NothingNew r') : r'.Drawn idle n where
  next_eq := hnew.next_eq ▸ hr.next_eq
  live_lt h hh := hr.live_lt h (hnew.live_of_live h hh)
  idle_lt := hr.idle_lt
  not_live hn i h hh hlive := hr.not_live hn i h hh (hnew.live_of_live h hlive)
  apart := hr.apart

/-- A handle that was idle nowhere, and is not in use any more, becomes idle. -/
theorem lay (hr : r.Drawn idle n) (i : Option Nat) {h : Handle} {n' : Nat} (hle : n ≤ n')
    (hnext : r'.next.id.toNat = n' % 2 ^ 64) (hlive : ∀ k, r'.IsLive k → r.IsLive k)
    (hlt : h.id.toNat < n') (hnew : n' ≤ 2 ^ 64 → ¬ r'.IsLive h ∧ ∀ j, h ∉ idle j) :
    r'.Drawn (Function.update idle i (insert h (idle i))) n' := by
  have hcases {j : Option Nat} {k : Handle}
      (hk : k ∈ Function.update idle i (insert h (idle i)) j) : (j = i ∧ k = h) ∨ k ∈ idle j := by
    by_cases hji : j = i
    · subst hji
      rw [Function.update_self] at hk
      exact hk.imp_left fun heq => ⟨rfl, heq⟩
    · rw [Function.update_of_ne hji] at hk
      exact .inr hk
  refine ⟨hnext, fun k hk => Nat.lt_of_lt_of_le (hr.live_lt k (hlive k hk)) hle, fun j k hk => ?_,
    fun hn j k hk hk' => ?_, fun hn j j' k hk hk' => ?_⟩
  · rcases hcases hk with ⟨-, rfl⟩ | hold
    · exact hlt
    · exact Nat.lt_of_lt_of_le (hr.idle_lt j k hold) hle
  · rcases hcases hk with ⟨-, rfl⟩ | hold
    · exact (hnew hn).1 hk'
    · exact hr.not_live (by omega) j k hold (hlive k hk')
  · rcases hcases hk with ⟨hj, rfl⟩ | hold
    · rcases hcases hk' with ⟨hj', -⟩ | hold'
      · exact hj.trans hj'.symm
      · exact absurd hold' ((hnew hn).2 j')
    · rcases hcases hk' with ⟨-, rfl⟩ | hold'
      · exact absurd hold ((hnew hn).2 j)
      · exact hr.apart (by omega) j j' k hold hold'

theorem draw (hr : r.Drawn idle n) (i : Option Nat) :
    { r with next := r.next.succ }.Drawn (Function.update idle i (insert r.next (idle i)))
      (n + 1) := by
  have hfresh (hn : n + 1 ≤ 2 ^ 64) : ¬ r.next.id.toNat < n := by
    rw [hr.next_eq, Nat.mod_eq_of_lt (by omega)]
    omega
  refine hr.lay i (Nat.le_succ n) ?_ (fun _ hk => hk) ?_ fun hn =>
    ⟨fun hlive => hfresh hn (hr.live_lt _ hlive), fun j hj => hfresh hn (hr.idle_lt j _ hj)⟩
  · rw [Handle.toNat_succ, hr.next_eq, Nat.mod_add_mod]
  · have hle := Nat.mod_le n (2 ^ 64)
    rw [hr.next_eq]
    omega

theorem remove (hr : r.Drawn idle n) (i : Option Nat) {h : Handle} (hh : r.IsLive h) :
    { r with table := r.table.erase h }.Drawn (Function.update idle i (insert h (idle i))) n :=
  hr.lay i (Nat.le_refl n) hr.next_eq (fun _ hk => (isLive_erase.1 hk).2) (hr.live_lt h hh)
    fun hn => ⟨fun hlive => (isLive_erase.1 hlive).1 rfl, fun j hj => hr.not_live hn j h hj hh⟩

theorem place (hr : r.Drawn idle n) {i : Option Nat} {h : Handle} (hh : h ∈ idle i) (c : Counter) :
    { r with table := r.table.insert h c }.Drawn (Function.update idle i (idle i \ {h})) n := by
  have hcases {j : Option Nat} {k : Handle} (hk : k ∈ Function.update idle i (idle i \ {h}) j) :
      k ∈ idle j ∧ (j = i → k ≠ h) := by
    by_cases hji : j = i
    · subst hji
      rw [Function.update_self] at hk
      exact ⟨hk.1, fun _ => hk.2⟩
    · rw [Function.update_of_ne hji] at hk
      exact ⟨hk, fun heq => absurd heq hji⟩
  refine ⟨hr.next_eq, fun k hk => ?_, fun j k hk => hr.idle_lt j k (hcases hk).1,
    fun hn j k hk hlive => ?_, fun hn j j' k hk hk' =>
      hr.apart hn j j' k (hcases hk).1 (hcases hk').1⟩
  · rcases (isLive_insert c).1 hk with rfl | hlive
    · exact hr.idle_lt i h hh
    · exact hr.live_lt k hlive
  · obtain ⟨hold, hne⟩ := hcases hk
    rcases (isLive_insert c).1 hlive with rfl | hlive
    · exact hne (hr.apart hn j i h hold hh) rfl
    · exact hr.not_live hn j k hold hlive

/-- An action of a careful script keeps every handle in its place, or moves it to one other. -/
theorem act (hr : r.Drawn idle n) {i : Nat} {q : Action} (hq : q.Allowed (idle (some i)))
    {a : q.Answer} (hact : r.act q = .ok (a, r')) :
    r'.Drawn (Deed.shift i idle ⟨q, a⟩) (n + q.draws) := by
  cases q with
  | draw =>
    cases hact
    exact hr.draw (some i)
  | place h limit =>
    cases hact
    exact hr.place hq (.fresh limit)
  | remove h =>
    obtain ⟨c, hc, herase⟩ := exists_of_find_map hact
    cases herase
    exact hr.remove none (isLive_iff.2 ⟨c, hc⟩)
  | look | setGate isOpen | add h x | sub h x | read h =>
    have hsame : Deed.shift i idle ⟨_, a⟩ = idle := Function.update_eq_self (some i) idle
    rw [hsame]
    exact hr.of_nothingNew (nothingNew_act rfl hact)

end Drawn

end Registry

/-! ## Clients in a pool -/

namespace Strand

variable {α : Type}

def Careful : Strand α → Set Handle → Prop
  | going s, w => s.Careful w
  | dead _, _ => True

theorem careful_step {s : Script Action.Answer α} {w : Set Handle} (hs : s.Careful w)
    (r : Registry) :
    (∀ e ∈ deedOf s r, e.1.Allowed w) ∧
      (step s r).1.Careful ((deedOf s r).elim w fun e => e.1.waiting e.2 w) := by
  induction s with
  | done a => exact ⟨fun e he => by simp [deedOf] at he, trivial⟩
  | report e rest ih => exact ih hs
  | ask q next ih =>
    cases hact : r.act q with
    | error d =>
      simp only [deedOf, step, hact]
      exact ⟨fun e he => by simp at he, trivial⟩
    | ok p =>
      simp only [deedOf, step, hact]
      refine ⟨fun e he => ?_, hs.2 p.1⟩
      cases he
      exact hs.1

theorem Careful.turn {s : Strand α} {w : Set Handle} (hs : s.Careful w) (r : Registry) :
    (∀ e ∈ s.deed? r, e.1.Allowed w) ∧
      (s.turn r).1.Careful ((s.deed? r).elim w fun e => e.1.waiting e.2 w) := by
  cases s with
  | going s => exact careful_step hs r
  | dead d => exact ⟨fun e he => by simp [deed?] at he, trivial⟩

end Strand

namespace Pool

variable {α : Type} {p : Pool α} {idle : Option Nat → Set Handle} {n : Nat}

/-- Every handle that was drawn is in its place, and the threads go on carefully. -/
structure Careful (p : Pool α) (idle : Option Nat → Set Handle) (n : Nat) : Prop where
  drawn : p.registry.Drawn idle n
  strand : ∀ (i : Nat) (s : Strand α), p.strands[i]? = some s → s.Careful (idle (some i))

theorem Careful.allowed (hp : p.Careful idle n) {i : Nat} {e : Deed} (he : p.deed? i = some e) :
    e.1.Allowed (idle (some i)) := by
  obtain ⟨s, hs, hdeed⟩ := Option.bind_eq_some_iff.1 he
  exact ((hp.strand i s hs).turn p.registry).1 e hdeed

theorem Careful.turn (hp : p.Careful idle n) (i : Nat) :
    (p.turn i).Careful ((p.deed? i).elim idle (Deed.shift i idle))
      (n + Deed.draws (p.deed? i)) := by
  constructor
  · have hdoes := p.does_turn i
    cases he : p.deed? i with
    | none =>
      rw [he] at hdoes
      have hsame : (p.turn i).registry = p.registry := hdoes
      rw [hsame]
      exact hp.drawn
    | some e => exact hp.drawn.act (hp.allowed he) (act_of_deed? he)
  · intro j s hj
    rw [getElem?_strands_turn] at hj
    split at hj
    · rename_i hij
      subst hij
      obtain ⟨s', hs', rfl⟩ := Option.map_eq_some_iff.1 hj
      have hnext := ((hp.strand i s' hs').turn p.registry).2
      rw [← deed?_of_some hs'] at hnext
      cases he : p.deed? i with
      | none => simpa only [he, Option.elim] using hnext
      | some e => simpa only [he, Option.elim, Deed.shift_self] using hnext
    · rename_i hij
      have hold := hp.strand j s hj
      cases he : p.deed? i with
      | none => exact hold
      | some e => simpa only [Option.elim, e.shift_of_ne (Ne.symm hij)] using hold

/-- A pool of careful threads stays one, and what was given back stays with nobody. -/
theorem Careful.run (hp : p.Careful idle n) (schedule : List Nat) :
    ∃ idle', (p.run schedule).Careful idle' (n + p.draws schedule) ∧ idle none ⊆ idle' none ∧
      ∀ h, .remove h ∈ (p.deeds schedule).map (fun e => e.2.1) → h ∈ idle' none := by
  induction schedule generalizing p idle n with
  | nil => exact ⟨idle, hp, subset_rfl, fun h hh => by cases hh⟩
  | cons i schedule ih =>
    obtain ⟨idle', hrun, hkept, hgone⟩ := ih (hp.turn i)
    refine ⟨idle', ?_, fun h hh => hkept ?_, fun h hh => ?_⟩
    · rw [draws, ← Nat.add_assoc]
      exact hrun
    · cases p.deed? i with
      | none => exact hh
      | some e => exact e.subset_shift hh
    · rw [deeds, List.map_append, List.mem_append] at hh
      rcases hh with hnow | hlater
      · cases he : p.deed? i with
        | none => simp [he] at hnow
        | some e =>
          obtain ⟨q, a⟩ := e
          simp only [he, Option.map_some, Option.toList_some, List.map_cons, List.map_nil,
            List.mem_singleton] at hnow
          subst hnow
          apply hkept
          simp [he, Deed.shift]
      · exact hgone h hlater

/-- A pool of clients over a registry that hosts nothing yet. -/
def ofClients (isOpen : Bool) (clients : List (Script Request.Answer α)) : Pool α :=
  start (.empty isOpen) (clients.map fun client => client.interpret Request.serve)

theorem careful_ofClients (isOpen : Bool) (clients : List (Script Request.Answer α)) :
    (ofClients isOpen clients).Careful (fun _ => ∅) 0 where
  drawn := Registry.drawn_empty isOpen
  strand i s hs := by
    simp only [ofClients, start, List.map_map, List.getElem?_map, Option.map_eq_some_iff] at hs
    obtain ⟨client, -, rfl⟩ := hs
    exact Script.careful_interpret Request.careful_serve client

/-- In every interleaving the clients draw the handles in sequence. Until it comes round, no counter
is placed where there is one, and a handle once given back is not used again. A client that has come
to its end did what its script says, and got its result from the answers. -/
theorem ofClients_drawn (isOpen : Bool) (clients : List (Script Request.Answer α))
    (schedule : List Nat) :
    let p := ofClients isOpen clients
    let now := p.run schedule
    now.registry.InSequence (p.drawn schedule) ∧
    ((p.drawn schedule).length ≤ 2 ^ 64 →
      (∀ i h limit a, now.deed? i = some ⟨.place h limit, a⟩ → ¬ now.registry.IsLive h) ∧
      ∀ h, .remove h ∈ (p.deeds schedule).map (fun e => e.2.1) → ¬ now.registry.IsLive h) ∧
    ∀ (i : Nat) (client : Script Request.Answer α) (s : Strand α) (a : α),
      clients[i]? = some client → now.strands[i]? = some s → s.result? = some a →
      (client.interpret Request.serve).Follows (Deed.ofThread i (p.deeds schedule)) a := by
  intro p now
  have hp : p.Careful (fun _ => ∅) 0 := careful_ofClients isOpen clients
  obtain ⟨idle, hrun, -, hgone⟩ := hp.run schedule
  rw [Nat.zero_add, ← length_drawn] at hrun
  refine ⟨Registry.inSequence_of_ids ?_ hrun.drawn.next_eq hrun.drawn.live_lt, fun hn =>
    ⟨fun i h limit a he => hrun.drawn.not_live hn (some i) h (hrun.allowed he), fun h hh =>
      hrun.drawn.not_live hn none h (hgone h hh)⟩, fun i client s a hi hs ha => ?_⟩
  · obtain ⟨hids, -⟩ := (p.does_deeds schedule).handles hp.drawn.next_eq
    rw [List.range_eq_range']
    exact hids
  · have hstart : p.strands[i]? = some (.going (client.interpret Request.serve)) := by
      simp only [p, ofClients, start, List.map_map, List.getElem?_map, hi]
      rfl
    exact follows_of_ended hstart hs ha

end Pool

end Abacus
