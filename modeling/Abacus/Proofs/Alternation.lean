import Mathlib.Algebra.Group.Nat.Even
import Abacus.Proofs.Carriage

/-!
# Moving back and forth

A counter that is moved again and again at an open gate of the honest host goes in and out of the
registry. `Session.Alternates` compares the session after any number of moves with the one before:
where the counter is, which handle it has, how far the sequence of handles has come, and what every
handle stands for. One more move passes this on (`Alternates.take`), so that it holds after all of
them (`Ready.alternates`). What counts is that the handle which a move out of the registry gives
back had been free before the first move: nothing is left then of a move in and a move out
(`Session.moves_alternate`).
-/

namespace Abacus

/-- How many of so many moves go into the registry, by where the first of them starts. -/
def Placement.arrivals : Placement → Nat → Nat
  | inPlace, k => (k + 1) / 2
  | hosted, k => k / 2

namespace Placement

variable {p p' : Placement} {k : Nat}

theorem flip_eq_iff_even (h : p' = p ↔ Even k) : p'.flip = p ↔ Even (k + 1) := by
  rw [Nat.even_add_one, ← h]
  cases p <;> cases p' <;> decide

theorem arrivals_succ (h : p' = p ↔ Even k) :
    p.arrivals (k + 1) = p.arrivals k + if p' = inPlace then 1 else 0 := by
  rw [Nat.even_iff] at h
  cases p <;> cases p' <;> simp [arrivals] at h ⊢ <;> omega

end Placement

namespace Session

variable {s t : Session} {slot k : Nat} {c : Counter} {m m' : Movable}

/-- So many moves of the counter in a slot. -/
def moves (slot k : Nat) : List Step := List.replicate k (.movable slot .move)

theorem moves_succ (slot k : Nat) : moves slot (k + 1) = moves slot k ++ [.movable slot .move] :=
  List.replicate_succ'

/-- The gate of the honest host is open, the handles in use come before the next one, and in the
slot is the counter `c`, as `m`. -/
structure Ready (s : Session) (slot : Nat) (c : Counter) (m : Movable) : Prop where
  distortion : s.distortion = .honest
  isOpen : s.registry.isOpen = true
  live_lt : ∀ h, s.registry.IsLive h → h.id.toNat < s.registry.next.id.toNat
  bounded : c.Bounded
  held : s.movables[slot]? = some m
  carries : m.Carries s.registry c

/-- The session `t` is what `s` became by `k` moves of the counter `c` in the slot, which was `m`
and is `m'` now. It is where it was exactly if `k` is even. Only the sequence of handles has come as
much further as there were moves into the registry, the handle that the counter had stands for
nothing more, and the one that it has now, the last that was issued, stands for `c`. -/
structure Alternates (s t : Session) (slot k : Nat) (c : Counter) (m m' : Movable) : Prop where
  kept : t = { s with
    registry := { s.registry with next := t.registry.next, table := t.registry.table }
    movables := s.movables.insert slot m' }
  unmoved : k = 0 → m' = m
  carries : m'.Carries t.registry c
  placement_iff : m'.placement = m.placement ↔ Even k
  next_eq : t.registry.next.id.toNat = s.registry.next.id.toNat + m.placement.arrivals k
  table_eq : ∀ h, t.registry.table[h]? =
    if m'.handle? = some h then some c
    else if m.handle? = some h then none
    else s.registry.table[h]?
  issued_last : 0 < k → ∀ h, m'.handle? = some h →
    h.id.toNat + 1 = t.registry.next.id.toNat ∧ ¬ s.registry.IsLive h

namespace Alternates

theorem refl (hs : s.Ready slot c m) : s.Alternates s slot 0 c m m where
  kept := by
    have hput : s.movables.insert slot m = s.movables := Slots.put_eq_self hs.held
    rw [hput]
  unmoved _ := rfl
  carries := hs.carries
  placement_iff := by simp
  next_eq := by cases hp : m.placement <;> rfl
  table_eq h := by
    cases m with
    | inPlace c' => simp
    | hosted l =>
      simp only [Movable.handle?_hosted, Option.some.injEq]
      split
      next hh => exact hh ▸ hs.carries.1
      next => rfl
  issued_last hk := absurd hk (Nat.lt_irrefl 0)

theorem held (h : s.Alternates t slot k c m m') : t.movables[slot]? = some m' := by
  rw [h.kept]
  exact s.getElem?_movables_insert slot m'

/-- Without the counter that is moved the handle that it has would stand for nothing. -/
theorem vacant (h : s.Alternates t slot k c m m') {i : Handle} (hi : m'.handle? = some i) :
    (if m.handle? = some i then none else s.registry.table[i]?) = none := by
  rcases Nat.eq_zero_or_pos k with hk | hk
  · rw [h.unmoved hk] at hi
    exact if_pos hi
  · rw [Registry.table_of_dead (h.issued_last hk i hi).2, ite_self]

theorem kept_put (h : s.Alternates t slot k c m m') (next : Handle)
    (table : Std.ExtTreeMap Handle Counter) (m'' : Movable) :
    { t with
      registry := { t.registry with next, table }
      movables := t.movables.insert slot m'' } =
    { s with
      registry := { s.registry with next, table }
      movables := s.movables.insert slot m'' } := by
  have hput : t.movables.insert slot m'' = s.movables.insert slot m'' := by
    rw [h.kept]
    exact s.movables.put_put slot (some m') (some m'')
  rw [hput, h.kept]

/-- The counter goes out of the registry, and its handle stands for nothing. -/
theorem take_out (hs : s.Ready slot c m) {l : Lease} (h : s.Alternates t slot k c m (.hosted l)) :
    (t.take (.movable slot .move)).reply = .done ∧ t.drawsAt (.movable slot .move) = 0 ∧
      s.Alternates (t.take (.movable slot .move)).session slot (k + 1) c m (.inPlace c) := by
  obtain ⟨hlive, hlimit⟩ := h.carries
  have hvalue : c.value.satAdd t.distortion.surplus = c.value := by
    rw [h.kept, hs.distortion]
    exact c.value.satAdd_zero
  have htake := take_move_out h.held hlive hvalue (hlimit ▸ hs.bounded)
  rw [hlimit] at htake
  rw [drawsAt_of_events rfl, htake]
  refine ⟨rfl, rfl, ?_⟩
  constructor
  case kept => exact h.kept_put _ _ _
  case unmoved => exact fun hk => absurd hk (Nat.succ_ne_zero k)
  case carries => rfl
  case placement_iff => exact Placement.flip_eq_iff_even h.placement_iff
  case next_eq =>
    rw [Placement.arrivals_succ h.placement_iff]
    exact h.next_eq
  case table_eq =>
    intro i
    rw [Registry.getElem?_table_erase, h.table_eq i]
    by_cases hi : l.handle = i
    · subst hi
      rw [if_pos rfl]
      exact (h.vacant rfl).symm
    · simp [hi]
  case issued_last =>
    intro _ i hi
    cases hi

/-- The counter goes into the registry, under a handle that was free before the first move. -/
theorem take_in (hs : s.Ready slot c m) {c' : Counter}
    (h : s.Alternates t slot k c m (.inPlace c'))
    (hn : s.registry.next.id.toNat + m.placement.arrivals k + t.drawsAt (.movable slot .move) <
      2 ^ 64) :
    (t.take (.movable slot .move)).reply = .done ∧ t.drawsAt (.movable slot .move) = 1 ∧
      s.Alternates (t.take (.movable slot .move)).session slot (k + 1) c m
        (.hosted ⟨t.registry.next, c.limit⟩) := by
  cases h.carries
  have hlimit : t.distortion.leaseLimit.getD c.limit = c.limit := by
    rw [h.kept, hs.distortion]
    rfl
  have htake := take_move_in h.held (by rw [h.kept, hs.distortion]; rfl) hs.bounded
    (by rw [h.kept]; exact hs.isOpen)
  rw [hlimit] at htake
  rw [drawsAt_of_events rfl, htake] at hn ⊢
  have hnext := h.next_eq
  have hbound : t.registry.next.id.toNat + 1 < 2 ^ 64 := hnext ▸ hn
  have hsucc : t.registry.next.succ.id.toNat = t.registry.next.id.toNat + 1 := by
    rw [Handle.toNat_succ, Nat.mod_eq_of_lt hbound]
  refine ⟨rfl, rfl, ?_⟩
  constructor
  case kept => exact h.kept_put _ _ _
  case unmoved => exact fun hk => absurd hk (Nat.succ_ne_zero k)
  case carries => exact Movable.carries_insert _ _ _ c
  case placement_iff => exact Placement.flip_eq_iff_even h.placement_iff
  case next_eq =>
    rw [Placement.arrivals_succ h.placement_iff, ← Nat.add_assoc, ← hnext]
    exact hsucc
  case table_eq =>
    intro i
    have hi := h.table_eq i
    rw [Registry.getElem?_host, hi]
    simp
  case issued_last =>
    intro _ i hi
    cases hi
    refine ⟨hsucc.symm, fun hlive => ?_⟩
    have hlt : t.registry.next.id.toNat < _ := hs.live_lt _ hlive
    omega

theorem take (hs : s.Ready slot c m) (h : s.Alternates t slot k c m m')
    (hn : s.registry.next.id.toNat + m.placement.arrivals k + t.drawsAt (.movable slot .move) <
      2 ^ 64) :
    (t.take (.movable slot .move)).reply = .done ∧
      m.placement.arrivals k + t.drawsAt (.movable slot .move) = m.placement.arrivals (k + 1) ∧
      ∃ m'', s.Alternates (t.take (.movable slot .move)).session slot (k + 1) c m m'' := by
  have harrivals := Placement.arrivals_succ h.placement_iff
  cases m' with
  | hosted l =>
    obtain ⟨hreply, hdraws, hnext⟩ := h.take_out hs
    exact ⟨hreply, by rw [hdraws, harrivals]; rfl, _, hnext⟩
  | inPlace c' =>
    obtain ⟨hreply, hdraws, hnext⟩ := h.take_in hs hn
    exact ⟨hreply, by rw [hdraws, harrivals]; rfl, _, hnext⟩

end Alternates

theorem Ready.alternates (hs : s.Ready slot c m) (k : Nat)
    (hn : s.registry.next.id.toNat + s.draws (moves slot k) < 2 ^ 64) :
    (∀ e ∈ s.minutes (moves slot k), e.2 = .done) ∧
      s.draws (moves slot k) = m.placement.arrivals k ∧
      ∃ m', s.Alternates (s.reach (moves slot k)) slot k c m m' := by
  induction k with
  | zero =>
    refine ⟨fun e he => absurd he List.not_mem_nil, ?_, m, .refl hs⟩
    cases m <;> rfl
  | succ k ih =>
    rw [moves_succ, draws_append] at hn ⊢
    have hlast : (s.reach (moves slot k)).draws [.movable slot .move] =
      (s.reach (moves slot k)).drawsAt (.movable slot .move) := rfl
    rw [hlast] at hn ⊢
    obtain ⟨hminutes, hdraws, m', halt⟩ := ih (by omega)
    rw [hdraws] at hn ⊢
    obtain ⟨hreply, harrivals, hnext⟩ := halt.take hs (by omega)
    rw [minutes_append, reach_append]
    refine ⟨fun e he => ?_, harrivals, hnext⟩
    rcases List.mem_append.1 he with he | he
    · exact hminutes e he
    · rw [List.mem_singleton.1 he]
      exact hreply

/-- From a counter in place so many moves in and out leave the table as it was. -/
theorem Alternates.table_restored (h : s.Alternates t slot k c m m')
    (hm : m.placement = .inPlace) (hk : Even k) : t.registry.table = s.registry.table := by
  have hm' : m'.placement = .inPlace := (h.placement_iff.2 hk).trans hm
  apply Std.ExtTreeMap.ext_getElem?
  intro i
  cases m with
  | hosted l => cases hm
  | inPlace b =>
    cases m' with
    | hosted l => cases hm'
    | inPlace b' => exact h.table_eq i

/-- From a hosted counter so many moves out and in give it a new handle. -/
theorem Alternates.handle_renewed (hs : s.Ready slot c m) (h : s.Alternates t slot k c m m')
    {l : Lease} (hm : m = .hosted l) (hk : Even k) (hpos : 0 < k) :
    ∃ l', m' = .hosted l' ∧ l.handle < l'.handle ∧ l'.limit = l.limit ∧
      t.registry.table = (s.registry.table.erase l.handle).insert l'.handle c := by
  subst hm
  have hm' : m'.placement = .hosted := h.placement_iff.2 hk
  cases m' with
  | inPlace b => cases hm'
  | hosted l' =>
    obtain ⟨hlive, hlimit⟩ := hs.carries
    have hold := hs.live_lt _ (Registry.isLive_iff.2 ⟨c, hlive⟩)
    have hnew := (h.issued_last hpos _ rfl).1
    have hnext := h.next_eq
    have hlt : l.handle.id.toNat < l'.handle.id.toNat := by
      -- The last handle that was issued is the one before the next, and one at least was issued.
      rw [Nat.even_iff] at hk
      simp only [Movable.placement, Placement.arrivals] at hnext
      omega
    refine ⟨l', rfl, hlt, h.carries.2.trans hlimit.symm, ?_⟩
    apply Std.ExtTreeMap.ext_getElem?
    intro i
    rw [h.table_eq i, Registry.getElem?_table_insert, Registry.getElem?_table_erase]
    simp only [Movable.handle?_hosted, Option.some.injEq]

/-- At an open gate of the honest host, as long as the sequence of handles has not come round, a
counter that has its handle can be moved as often as one likes. Its value and limit stay, and
`Alternates` says what else there is to say. So from in place two moves, four and so on restore the
table, and from the registry they only give the counter a new handle. -/
theorem moves_alternate (isOpen : Bool) (qs : List Step) (slot k : Nat) (m : Movable)
    (hm : ((start .honest isOpen).reach qs).movables[slot]? = some m)
    (hattached : m.Attached ((start .honest isOpen).reach qs).registry)
    (hopen : ((start .honest isOpen).reach qs).registry.isOpen = true)
    (hn : (start .honest isOpen).draws (qs ++ moves slot k) < 2 ^ 64) :
    let s := (start .honest isOpen).reach qs
    let t := s.reach (moves slot k)
    ∃ c m', (∀ e ∈ s.minutes (moves slot k), e.2 = .done) ∧
      s.draws (moves slot k) = m.placement.arrivals k ∧ s.Shows slot c ∧ t.Shows slot c ∧
      s.Alternates t slot k c m m' ∧
      (m.placement = .inPlace → Even k → t.registry.table = s.registry.table) ∧
      ∀ l, m = .hosted l → Even k → 0 < k →
        ∃ l', m' = .hosted l' ∧ l.handle < l'.handle ∧ l'.limit = l.limit ∧
          t.registry.table = (s.registry.table.erase l.handle).insert l'.handle c := by
  intro s t
  rw [draws_append] at hn
  have hlabelled : s.Labelled _ := (labelled_start isOpen).reach qs (by omega)
  rw [Nat.zero_add] at hlabelled
  obtain ⟨hd, -, hrests, -⟩ := hlabelled.registered
  obtain ⟨c, hcarries, hbounded⟩ := hlabelled.exists_carries hm hattached
  have hnext : s.registry.next.id.toNat = (start .honest isOpen).draws qs := by
    rw [hrests.next_eq, Nat.mod_eq_of_lt (by omega)]
  have hs : s.Ready slot c m := ⟨hd, hopen, fun h hlive => hnext ▸ hrests.live_lt h hlive,
    hbounded, hm, hcarries⟩
  obtain ⟨hdone, hdraws, m', halt⟩ := hs.alternates k (hnext ▸ hn)
  have hd' : t.distortion = .honest := (s.distortion_reach _).trans hd
  exact ⟨c, m', hdone, hdraws, shows_of_carries hd hm hcarries,
    shows_of_carries hd' halt.held halt.carries, halt, halt.table_restored,
    fun l hl hk hpos => halt.handle_renewed hs hl hk hpos⟩

/-- A full hosted counter, beside one that is on lease, is moved four times: it is hosted again,
with the last of two new handles. A counter in place with the largest of all values goes in and
out. -/
theorem moves_alternate_of_full :
    let top := Amount.greatest
    let qs : List Step :=
      [.newMovable 0 7#128 .hosted, .movable 0 (.add 7#128), .newLease 0 4#128,
        .newMovable 1 top .inPlace, .movable 1 (.add top)]
    let s := (start .honest true).reach qs
    let t := s.reach (moves 0 4)
    (start .honest true).draws (qs ++ moves 0 4) = 4 ∧
    (∀ e ∈ s.minutes (moves 0 4), e.2 = .done) ∧
    t.registry.next.id.toNat = 4 ∧
    (∃ l, t.movables[0]? = some (.hosted l) ∧ l.handle.id.toNat = 3 ∧
      t.registry.table = (s.registry.table.erase ⟨0#64⟩).insert l.handle ⟨7#128, 7#128⟩) ∧
    (start .honest true).draws (qs ++ moves 1 2) = 3 ∧
    (s.reach (moves 1 2)).registry.table = s.registry.table ∧
    (s.reach (moves 1 2)).Shows 1 ⟨top, top⟩ := by
  intro top qs
  dsimp only
  have hopen : ((start .honest true).reach qs).registry.isOpen = true := by decide +kernel
  have hnext : ((start .honest true).reach qs).registry.next.id.toNat = 2 := by decide +kernel
  have hdraws : (start .honest true).draws (qs ++ moves 0 4) = 4 := by decide +kernel
  have hdraws' : (start .honest true).draws (qs ++ moves 1 2) = 3 := by decide +kernel
  obtain ⟨c, m, hdone, -, hshows, -, halt, -, hrenewed⟩ :=
    moves_alternate true qs 0 4 (.hosted ⟨⟨0#64⟩, 7#128⟩) (by decide +kernel)
      (by decide +kernel : Registry.IsLive _ _) hopen (by rw [hdraws]; decide)
  obtain ⟨c', m', -, -, hshows', hshown', -, hrestored, -⟩ :=
    moves_alternate true qs 1 2 (.inPlace ⟨top, top⟩) (by decide +kernel) trivial hopen
      (by rw [hdraws']; decide)
  have hc : c = ⟨7#128, 7#128⟩ := hshows.unique (by decide +kernel)
  have hc' : c' = ⟨top, top⟩ := hshows'.unique (by decide +kernel)
  subst hc hc'
  obtain ⟨l, rfl, -, -, htable⟩ := hrenewed _ rfl (by decide) (by decide)
  have hlast := (halt.issued_last (by decide) _ rfl).1
  rw [halt.next_eq, hnext, Movable.placement, Placement.arrivals] at hlast ⊢
  exact ⟨hdraws, hdone, rfl, ⟨l, halt.held, by omega, htable⟩, hdraws',
    hrestored rfl (by decide), hshown'⟩

end Session

end Abacus
