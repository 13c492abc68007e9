import Abacus.Proofs.Share

/-!
# Secure scripts

A script is secure from a share if, whatever others do between its actions, it works only on
handles of its own share, so that none of its actions fails, and ends as a postcondition says. The
postcondition speaks of the result, of what the script learned from outside (how it found the
gate, which handles it drew) and of the share that is left. Security is a matter of one script
alone. `Secure.act` says that a secure script may take its next action in every registry that is
divided between its share and others, without touching what others have. For a script that runs
alone this gives `Secure.run`. `Secure.frame` is the frame rule: a larger share does no harm.
-/

namespace Abacus

/-- The number of handles that an action takes from the sequence. -/
def Action.draws : Action → Nat
  | draw => 1
  | _ => 0

/-- What an owner learns of the registry beyond its own counters. -/
inductive Outside
  /-- Whether the gate is open. -/
  | gate
  /-- Which handle comes next. -/
  | handle

abbrev Outside.Answer : Outside → Type
  | gate => Bool
  | handle => Handle

/-- One thing that an owner learned. -/
abbrev Sight := (q : Outside) × q.Answer

/-- What an owner learns by an action. -/
def Action.sights : (q : Action) → q.Answer → List Sight
  | look, isOpen => [⟨.gate, isOpen⟩]
  | draw, h => [⟨.handle, h⟩]
  | setGate _, _ => []
  | place .., _ => []
  | add .., _ => []
  | sub .., _ => []
  | read _, _ => []
  | remove _, _ => []

/-- An action that fails takes no handle. -/
theorem Registry.draws_of_act_error {r : Registry} {q : Action} {d : DeadHandle}
    (h : r.act q = .error d) : q.draws = 0 := by
  obtain ⟨htarget, -⟩ := Registry.act_eq_error_iff.1 h
  cases q with
  | draw => cases htarget
  | _ => rfl

namespace Script

variable {α β : Type}

/-- The script stays within the share that it has and ends as `post` says. -/
def Secure : Script Action.Answer α → Share → (α → List Sight → Share → Prop) → Prop
  | done a, o, post => post a [] o
  | report _ rest, o, post => rest.Secure o post
  | ask .look next, o, post =>
      ∀ isOpen, (next isOpen).Secure o fun a seen => post a (⟨.gate, isOpen⟩ :: seen)
  | ask (.setGate _) next, o, post => ∀ before, (next before).Secure o post
  -- Of a handle that is drawn nothing is known but that it is not in use.
  | ask .draw next, o, post =>
      ∀ h, o h = none → (next h).Secure (o.set h .drawn) fun a seen => post a (⟨.handle, h⟩ :: seen)
  | ask (.place h limit) next, o, post =>
      o h = some .drawn ∧ (next ()).Secure (o.set h (.placed (.fresh limit))) post
  | ask (.add h x) next, o, post =>
      ∃ c, o h = some (.placed c) ∧
        (next (o.put h (c.add x)).1).Secure (o.put h (c.add x)).2 post
  | ask (.sub h x) next, o, post =>
      ∃ c, o h = some (.placed c) ∧
        (next (o.put h (c.sub x)).1).Secure (o.put h (c.sub x)).2 post
  | ask (.read h) next, o, post =>
      ∃ c, o h = some (.placed c) ∧ (next c.value).Secure o post
  | ask (.remove h) next, o, post =>
      ∃ c, o h = some (.placed c) ∧ (next ()).Secure (o.without h) post

/-! ## Rules -/

theorem Secure.mono {s : Script Action.Answer α} {o : Share}
    {post post' : α → List Sight → Share → Prop} (hs : s.Secure o post)
    (h : ∀ a seen o', post a seen o' → post' a seen o') : s.Secure o post' := by
  induction s generalizing o post post' with
  | done a => exact h a [] o hs
  | report e rest ih => exact ih hs h
  | ask q next ih =>
      cases q with
      | look => exact fun isOpen => ih isOpen (hs isOpen) fun a seen o' => h a (_ :: seen) o'
      | setGate b => exact fun before => ih before (hs before) h
      | draw => exact fun k hk => ih k (hs k hk) fun a seen o' => h a (_ :: seen) o'
      | place k limit => exact ⟨hs.1, ih () hs.2 h⟩
      | add k x | sub k x | read k | remove k =>
        obtain ⟨c, hc, hs⟩ := hs
        exact ⟨c, hc, ih _ hs h⟩

theorem secure_bind {s : Script Action.Answer α} {f : α → Script Action.Answer β} {o : Share}
    {post : β → List Sight → Share → Prop} :
    (s.bind f).Secure o post ↔
      s.Secure o fun a seen o' => (f a).Secure o' fun b seen' => post b (seen ++ seen') := by
  induction s generalizing o post with
  | done a => exact Iff.rfl
  | report e rest ih => exact ih
  | ask q next ih =>
      cases q with
      | look => exact forall_congr' fun isOpen => ih isOpen
      | setGate b => exact forall_congr' fun before => ih before
      | draw => exact forall_congr' fun k => imp_congr_right fun _ => ih k
      | place k limit => exact and_congr_right fun _ => ih ()
      | add k x | sub k x | read k | remove k =>
        exact exists_congr fun c => and_congr_right fun _ => ih _

/-- What a script does with its own share it does with a larger one, and leaves the rest alone. -/
theorem Secure.frame {s : Script Action.Answer α} {o f : Share}
    {post : α → List Sight → Share → Prop} (hs : s.Secure o post) (hf : o.Apart f) :
    s.Secure (o.join f) fun a seen o' => ∃ p, o' = p.join f ∧ p.Apart f ∧ post a seen p := by
  induction s generalizing o post with
  | done a => exact ⟨o, rfl, hf, hs⟩
  | report e rest ih => exact ih hs hf
  | ask q next ih =>
      cases q with
      | look => exact fun isOpen => ih isOpen (hs isOpen) hf
      | setGate b => exact fun before => ih before (hs before) hf
      | draw =>
        intro h hfree
        have hboth : o h = none ∧ f h = none := Option.or_eq_none_iff.1 hfree
        rw [Share.set_join]
        exact ih h (hs h hboth.1) (hf.set hboth.2 _)
      | place h limit =>
        refine ⟨Share.join_of_some hs.1, ?_⟩
        rw [Share.set_join]
        exact ih () hs.2 (hf.set (hf.eq_none hs.1) _)
      | add h x | sub h x =>
        obtain ⟨c, hc, hs⟩ := hs
        obtain ⟨hput, hapart⟩ := Share.put_join hf hc _
        refine ⟨c, Share.join_of_some hc, ?_⟩
        rw [hput]
        exact ih _ hs hapart
      | read h =>
        obtain ⟨c, hc, hs⟩ := hs
        exact ⟨c, Share.join_of_some hc, ih _ hs hf⟩
      | remove h =>
        obtain ⟨c, hc, hs⟩ := hs
        refine ⟨c, Share.join_of_some hc, ?_⟩
        rw [Share.without_join (hf.eq_none hc)]
        exact ih () hs (hf.without h)

/-! ## One action -/

theorem Secure.act {q : Action} {next : q.Answer → Script Action.Answer α} {o : Share}
    {post : α → List Sight → Share → Prop} {r : Registry} {rest : Handle → Stake → Prop} {n : Nat}
    (hs : (ask q next).Secure o post) (hr : r.Divided o rest n) (hn : n + q.draws ≤ 2 ^ 64) :
    ∃ a r' o', r.act q = .ok (a, r') ∧ r'.Divided o' rest (n + q.draws) ∧
      (next a).Secure o' fun x seen => post x (q.sights a ++ seen) := by
  cases q with
  | look => exact ⟨r.isOpen, r, o, rfl, hr, hs r.isOpen⟩
  | setGate isOpen => exact ⟨r.isOpen, _, o, rfl, hr.setGate isOpen, hs r.isOpen⟩
  | draw =>
    have hlt : n < 2 ^ 64 := hn
    exact ⟨r.next, _, _, rfl, hr.draw hlt, hs r.next (hr.next_free hlt).1⟩
  | place h limit =>
    obtain ⟨hh, hs⟩ := hs
    exact ⟨(), _, _, rfl, hr.insert (by simp [hh]) _, hs⟩
  | add h x | sub h x =>
    obtain ⟨c, hc, hs⟩ := hs
    have howned : o h ≠ none := by simp [hc]
    obtain ⟨ha, hd⟩ := hr.put howned _
    refine ⟨_, _, _, ?_, hd, ha ▸ hs⟩
    simp only [Registry.act, hr.find_eq hc, Except.map]
  | read h =>
    obtain ⟨c, hc, hs⟩ := hs
    refine ⟨c.value, r, o, ?_, hr, hs⟩
    simp only [Registry.act, hr.find_eq hc, Except.map]
  | remove h =>
    obtain ⟨c, hc, hs⟩ := hs
    refine ⟨(), _, _, ?_, hr.erase (by simp [hc]), hs⟩
    simp only [Registry.act, hr.find_eq hc, Except.map]

/-! ## Running alone -/

/-- The number of handles that a script takes from the sequence when it runs alone. -/
def draws : Script Action.Answer α → Registry → Nat
  | done _, _ => 0
  | report _ rest, r => rest.draws r
  | ask q next, r =>
      match r.act q with
      | .error _ => 0
      | .ok (a, r') => q.draws + (next a).draws r'

/-- A secure script that runs alone ends with a result. -/
theorem Secure.run {s : Script Action.Answer α} {o : Share} {post : α → List Sight → Share → Prop}
    {r : Registry} {rest : Handle → Stake → Prop} {n : Nat} (hs : s.Secure o post)
    (hr : r.Divided o rest n) (hn : n + s.draws r ≤ 2 ^ 64) :
    ∃ a seen o', (s.run r).result = .ok a ∧ post a seen o' ∧
      (s.run r).registry.Divided o' rest (n + s.draws r) := by
  induction s generalizing o post r n with
  | done a => exact ⟨a, [], o, rfl, hs, hr⟩
  | report e rest ih => exact ih hs hr hn
  | ask q next ih =>
      -- The bound on the whole script gives the bound that its first action needs.
      have hq : n + q.draws ≤ 2 ^ 64 := by
        cases hact : r.act q with
        | error d =>
          rw [Registry.draws_of_act_error hact]
          simpa only [draws, hact] using hn
        | ok p =>
          simp only [draws, hact] at hn
          omega
      obtain ⟨a, r', o', hact, hr', hnext⟩ := hs.act hr hq
      simp only [draws, hact] at hn
      obtain ⟨x, seen, o'', hresult, hpost, hend⟩ := ih a hnext hr' (by omega)
      refine ⟨x, q.sights a ++ seen, o'', ?_, hpost, ?_⟩
      · simpa only [Script.run, hact] using hresult
      · simpa only [Script.run, draws, hact, Nat.add_assoc] using hend

end Script

end Abacus
