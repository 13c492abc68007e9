import Mathlib.Logic.Function.Iterate
import Abacus.Proofs.Course
import Abacus.Proofs.Ledger

/-!
# Movable counters as numbers

To its owner a movable counter is a number with a limit, wherever it lives and whatever happens to
it on the way. `Ideal` is that number: a counter over the naturals that knows only of its own
additions and subtractions. The last theorem follows a counter through the transcript of a
session, from the errand that made it: every reply about its value and limit is the ideal
counter's answer, and the counter has changed places once for each move that was accepted.

The proof goes by way of the ledger: a session gives the replies of a ledger
(`StandsFor.exists_course`), and the account of a slot in a ledger is changed by no errand but its
own.
-/

namespace Abacus

/-! ## Ideal counters -/

/-- A number with a limit. -/
structure Ideal where
  value : Nat
  limit : Nat

namespace Ideal

/-- What an ideal counter answers. -/
inductive Answer
  | ok
  | overflow (amount limit : Nat)
  | underflow (amount current : Nat)
  | amount (n : Nat)

def fresh (limit : Nat) : Ideal := ⟨0, limit⟩

def add (i : Ideal) (x : Nat) : Answer × Ideal :=
  if i.value + x ≤ i.limit then (.ok, { i with value := i.value + x })
  else (.overflow x i.limit, i)

def sub (i : Ideal) (x : Nat) : Answer × Ideal :=
  if x ≤ i.value then (.ok, { i with value := i.value - x })
  else (.underflow x i.value, i)

/-- The answer to a step that concerns value and limit. -/
def answer (i : Ideal) : MovableStep → Option Answer
  | .add x => some (i.add x.toNat).1
  | .sub x => some (i.sub x.toNat).1
  | .read => some (.amount i.value)
  | .limit => some (.amount i.limit)
  | .headroom => some (.amount (i.limit - i.value))
  | _ => none

/-- The counter after a step: only additions and subtractions are of any effect. -/
def next (i : Ideal) : MovableStep → Ideal
  | .add x => (i.add x.toNat).2
  | .sub x => (i.sub x.toNat).2
  | _ => i

end Ideal

/-- A reply in exact numbers. -/
def Reply.ideal? : Reply → Option Ideal.Answer
  | done => some .ok
  | refused (.overflow x limit) => some (.overflow x.toNat limit.toNat)
  | refused (.underflow x current) => some (.underflow x.toNat current.toNat)
  | amount a => some (.amount a.toNat)
  | _ => none

namespace Ideal

/-- The reply to a step is the one that is to be expected of the ideal counter at the place `p`. -/
structure Tells (i : Ideal) (p : Placement) (q : MovableStep) (reply : Reply) : Prop where
  answer : ∀ answer, i.answer q = some answer → reply.ideal? = some answer
  placement : q = .placement → reply = .placement p
  isHosted : q = .isHosted → reply = .flag p.isHosted
  move : q = .move → reply = .done ∨ p = .inPlace ∧ reply = .refused .closed

variable {i : Ideal} {p : Placement}

theorem tells_of_answer {q : MovableStep} {reply : Reply} {answer : Ideal.Answer}
    (hanswer : i.answer q = some answer) (hexact : reply.ideal? = some answer) :
    Tells i p q reply where
  answer answer' h := hexact.trans (hanswer.symm.trans h)
  placement h := by
    subst h
    cases hanswer
  isHosted h := by
    subst h
    cases hanswer
  move h := by
    subst h
    cases hanswer

theorem tells_of_silent {q : MovableStep} {reply : Reply} (hsilent : i.answer q = none)
    (hplacement : q = .placement → reply = .placement p)
    (hhosted : q = .isHosted → reply = .flag p.isHosted)
    (hmove : q = .move → reply = .done ∨ p = .inPlace ∧ reply = .refused .closed) :
    Tells i p q reply := by
  refine ⟨fun answer h => ?_, hplacement, hhosted, hmove⟩
  rw [hsilent] at h
  cases h

end Ideal

/-! ## Bounded counters are ideal -/

namespace Counter

def ideal (c : Counter) : Ideal := ⟨c.value.toNat, c.limit.toNat⟩

variable {c d : Counter} {x : Amount} {e : Refusal}

theorem Bounded.ideal_add_of_ok (h : c.Bounded) (hadd : c.add x = .ok d) :
    c.ideal.add x.toNat = (.ok, d.ideal) := by
  obtain ⟨hle, hlimit, hvalue⟩ := (h.add_eq_ok_iff x).1 hadd
  have hsum : c.ideal.value + x.toNat ≤ c.ideal.limit := hle
  rw [Ideal.add, if_pos hsum]
  simp only [ideal, hlimit, hvalue]

theorem Bounded.ideal_add_of_error (h : c.Bounded) (hadd : c.add x = .error e) :
    e = .overflow x c.limit ∧
      c.ideal.add x.toNat = (.overflow x.toNat c.limit.toNat, c.ideal) := by
  unfold Counter.add at hadd
  split at hadd
  · rename_i hgt
    cases hadd
    have hroom := h.toNat_headroom
    have hlt : c.headroom.toNat < x.toNat := hgt
    have hsum : ¬ c.ideal.value + x.toNat ≤ c.ideal.limit := by
      simp only [ideal]
      omega
    rw [Ideal.add, if_neg hsum]
    exact ⟨rfl, rfl⟩
  · cases hadd

theorem ideal_sub_of_ok (hsub : c.sub x = .ok d) : c.ideal.sub x.toNat = (.ok, d.ideal) := by
  obtain ⟨hle, hlimit, hvalue⟩ := (sub_eq_ok_iff x).1 hsub
  have hfits : x.toNat ≤ c.ideal.value := hle
  rw [Ideal.sub, if_pos hfits]
  simp only [ideal, hlimit, hvalue]

theorem ideal_sub_of_error (hsub : c.sub x = .error e) :
    e = .underflow x c.value ∧
      c.ideal.sub x.toNat = (.underflow x.toNat c.value.toNat, c.ideal) := by
  unfold Counter.sub at hsub
  split at hsub
  · rename_i hgt
    cases hsub
    have hshort : ¬ x.toNat ≤ c.ideal.value := Nat.not_le.2 hgt
    rw [Ideal.sub, if_neg hshort]
    exact ⟨rfl, rfl⟩
  · cases hsub

end Counter

/-! ## Accounts -/

/-- Where a counter that lived at `p` lives after a step with this reply. -/
def Placement.after (p : Placement) (q : MovableStep) (reply : Reply) : Placement :=
  if q = .move ∧ reply = .done then p.flip else p

namespace Account

/-- The account has the value and the limit of the ideal counter and is at the place `p`. -/
structure Tracks (a : Account) (i : Ideal) (p : Placement) : Prop where
  bounded : a.counter.Bounded
  ideal : a.counter.ideal = i
  placement : a.placement = p

variable {a : Account} {i : Ideal} {p : Placement}

theorem tracks_fresh (limit : Amount) (p : Placement) :
    Tracks ⟨p, .fresh limit⟩ (.fresh limit.toNat) p :=
  ⟨Counter.bounded_fresh limit, rfl, rfl⟩

theorem Tracks.add (h : a.Tracks i p) (x : Amount) :
    (Reply.keep a (a.add x)).2.ideal? = some (i.add x.toNat).1 ∧
      ∃ b, (Reply.keep a (a.add x)).1 = some b ∧ b.Tracks (i.add x.toNat).2 p := by
  obtain ⟨hbounded, rfl, hp⟩ := h
  unfold Account.add
  cases hadd : a.counter.add x with
  | ok c =>
    rw [hbounded.ideal_add_of_ok hadd]
    exact ⟨rfl, _, rfl, hbounded.add hadd, rfl, hp⟩
  | error e =>
    obtain ⟨rfl, hideal⟩ := hbounded.ideal_add_of_error hadd
    rw [hideal]
    exact ⟨rfl, _, rfl, hbounded, rfl, hp⟩

theorem Tracks.sub (h : a.Tracks i p) (x : Amount) :
    (Reply.keep a (a.sub x)).2.ideal? = some (i.sub x.toNat).1 ∧
      ∃ b, (Reply.keep a (a.sub x)).1 = some b ∧ b.Tracks (i.sub x.toNat).2 p := by
  obtain ⟨hbounded, rfl, hp⟩ := h
  unfold Account.sub
  cases hsub : a.counter.sub x with
  | ok c =>
    rw [Counter.ideal_sub_of_ok hsub]
    exact ⟨rfl, _, rfl, hbounded.sub hsub, rfl, hp⟩
  | error e =>
    obtain ⟨rfl, hideal⟩ := Counter.ideal_sub_of_error hsub
    rw [hideal]
    exact ⟨rfl, _, rfl, hbounded, rfl, hp⟩

theorem Tracks.move (h : a.Tracks i p) {w : List Sight} {r : Except Refusal Account}
    (hf : a.move.Follows w r) :
    i.Tells p .move (Reply.keep a r).2 ∧
      ∃ b, (Reply.keep a r).1 = some b ∧ b.Tracks i (p.after .move (Reply.keep a r).2) := by
  obtain ⟨hbounded, hideal, rfl⟩ := h
  have htells {reply : Reply}
      (hr : reply = .done ∨ a.placement = .inPlace ∧ reply = .refused .closed) :
      i.Tells a.placement .move reply :=
    Ideal.tells_of_silent rfl (by simp) (by simp) fun _ => hr
  rcases Account.follows_move_iff.1 hf with ⟨hplace, -, rfl⟩ | ⟨hplace, -, rfl⟩ |
    ⟨hplace, -, -, rfl⟩
  · exact ⟨htells (.inl rfl), _, rfl, hbounded, hideal, by rw [hplace]; rfl⟩
  · exact ⟨htells (.inr ⟨hplace, rfl⟩), _, rfl, hbounded, hideal, rfl⟩
  · exact ⟨htells (.inl rfl), _, rfl, hbounded, hideal, by rw [hplace]; rfl⟩

theorem Tracks.perform (h : a.Tracks i p) {q : MovableStep} {w : List Sight} {a' : Option Account}
    {reply : Reply} (hf : (a.perform q).Follows w (a', reply)) :
    i.Tells p q reply ∧
      (q ≠ .drop → ∃ b, a' = some b ∧ b.Tracks (i.next q) (p.after q reply)) := by
  cases q with
  | add x =>
    obtain ⟨hexact, b, hb, htracks⟩ := h.add x
    obtain ⟨-, hpair⟩ := hf
    rw [hpair] at hexact hb
    exact ⟨Ideal.tells_of_answer rfl hexact, fun _ => ⟨b, hb, htracks⟩⟩
  | sub x =>
    obtain ⟨hexact, b, hb, htracks⟩ := h.sub x
    obtain ⟨-, hpair⟩ := hf
    rw [hpair] at hexact hb
    exact ⟨Ideal.tells_of_answer rfl hexact, fun _ => ⟨b, hb, htracks⟩⟩
  | move =>
    obtain ⟨w₁, w₂, r, -, hmove, -, hpair⟩ := Script.follows_bind.1 hf
    obtain ⟨htells, b, hb, htracks⟩ := h.move hmove
    rw [hpair] at htells hb htracks
    exact ⟨htells, fun _ => ⟨b, hb, htracks⟩⟩
  | read | limit =>
    cases hf.2
    exact ⟨Ideal.tells_of_answer rfl (h.ideal ▸ rfl), fun _ => ⟨a, rfl, h⟩⟩
  | headroom =>
    cases hf.2
    refine ⟨Ideal.tells_of_answer rfl ?_, fun _ => ⟨a, rfl, h⟩⟩
    rw [Reply.ideal?, h.bounded.toNat_headroom, ← h.ideal]
    rfl
  | isHosted =>
    cases hf.2
    rw [h.placement]
    exact ⟨Ideal.tells_of_silent rfl (by simp) (fun _ => rfl) (by simp), fun _ => ⟨a, rfl, h⟩⟩
  | placement =>
    cases hf.2
    rw [h.placement]
    exact ⟨Ideal.tells_of_silent rfl (fun _ => rfl) (by simp) (by simp), fun _ => ⟨a, rfl, h⟩⟩
  | isServedHere | write block =>
    cases hf.2
    exact ⟨Ideal.tells_of_silent rfl (by simp) (by simp) (by simp), fun _ => ⟨a, rfl, h⟩⟩
  | drop =>
    exact ⟨Ideal.tells_of_silent rfl (by simp) (by simp) (by simp), fun hne => absurd rfl hne⟩

end Account

/-! ## Slots of a ledger -/

/-- The step that an errand takes on the movable counter in a slot. -/
def Errand.on? (slot : Nat) : Errand → Option MovableStep
  | .chore (.movable i q) => if i = slot then some q else none
  | _ => none

/-- Whether the counter in a slot goes with an errand and its reply: it is dropped, or another one
takes its place. -/
def Errand.ends (slot : Nat) : Errand × Reply → Bool
  | (.chore (.newMovable i _ _), .done) => i == slot
  | (.chore (.movable i .drop), _) => i == slot
  | _ => false

theorem Errand.eq_of_on? {slot : Nat} {q : Errand} {step : MovableStep}
    (h : q.on? slot = some step) : q = .chore (.movable slot step) := by
  unfold Errand.on? at h
  split at h
  · split at h
    · rename_i heq
      cases h
      rw [heq]
    · cases h
  · cases h

namespace Ledger

variable {l l' : Ledger} {slot : Nat} {w : List Sight} {reply : Reply}

theorem follows_newMovable {limit : Amount} {p : Placement}
    (hf : (l.perform (.chore (.newMovable slot limit p))).Follows w (l', .done)) :
    l'.movables[slot]? = some ⟨p, .fresh limit⟩ := by
  obtain ⟨w₁, w₂, r, -, hfresh, hf⟩ := Script.follows_bind.1 hf
  cases r with
  | error e =>
    cases hf.2
  | ok a =>
    cases hf.2
    obtain rfl := Account.eq_of_follows_fresh hfresh
    simp [Slots.getElem?_put]

theorem follows_movable {a : Account} {q : MovableStep} (ha : l.movables[slot]? = some a)
    (hf : (l.perform (.chore (.movable slot q))).Follows w (l', reply)) :
    (a.perform q).Follows w (l'.movables[slot]?, reply) := by
  simp only [perform, ha] at hf
  obtain ⟨w₁, w₂, p, rfl, hstep, rfl, hpair⟩ := Script.follows_bind.1 hf
  cases hpair
  simpa [Slots.getElem?_put] using hstep

/-- An errand that is not on the counter in a slot and does not replace it leaves it alone. -/
theorem follows_other {q : Errand} (hf : (l.perform q).Follows w (l', reply))
    (hon : q.on? slot = none) (hends : Errand.ends slot (q, reply) = false) :
    l'.movables[slot]? = l.movables[slot]? := by
  cases q with
  | setGate isOpen =>
    cases hf.2
    rfl
  | chore q =>
    cases q with
    | newMovable i limit p =>
      obtain ⟨w₁, w₂, r, -, -, hf⟩ := Script.follows_bind.1 hf
      cases r with
      | error e =>
        cases hf.2
        rfl
      | ok a =>
        cases hf.2
        have hne : i ≠ slot := by simpa [Errand.ends] using hends
        simp [Slots.getElem?_put, hne]
    | movable i q =>
      have hne : i ≠ slot := by simpa [Errand.on?] using hon
      simp only [perform] at hf
      split at hf
      · cases hf.2
        rfl
      · obtain ⟨w₁, w₂, p, -, -, -, hpair⟩ := Script.follows_bind.1 hf
        cases hpair
        simp [Slots.getElem?_put, hne]
    | newLease i limit =>
      obtain ⟨w₁, w₂, r, -, -, hf⟩ := Script.follows_bind.1 hf
      cases r with
      | error e | ok h =>
        cases hf.2
        rfl
    | lease i q =>
      simp only [perform] at hf
      split at hf
      · cases hf.2
        rfl
      · cases hf.2
        rfl

/-- The ledger may come to `l'` by these errands with these replies. -/
def Course : Ledger → List (Errand × Reply) → Ledger → Prop
  | l, [], l' => l = l'
  | l, e :: es, l' => ∃ w m, (l.perform e.1).Follows w (m, e.2) ∧ Course m es l'

theorem course_append {es es' : List (Errand × Reply)} :
    l.Course (es ++ es') l' ↔ ∃ m, l.Course es m ∧ m.Course es' l' := by
  induction es generalizing l with
  | nil => simp [Course]
  | cons e es ih =>
      constructor
      · rintro ⟨w, m, hf, hes⟩
        obtain ⟨m', hfirst, hlater⟩ := ih.1 hes
        exact ⟨m', ⟨w, m, hf, hfirst⟩, hlater⟩
      · rintro ⟨m', ⟨w, m, hf, hfirst⟩, hlater⟩
        exact ⟨w, m, hf, ih.2 ⟨m', hfirst, hlater⟩⟩

end Ledger

/-- The steps on the movable counter in a slot. -/
def Errand.stepsOn (slot : Nat) (es : List (Errand × Reply)) : List MovableStep :=
  es.filterMap fun e => e.1.on? slot

/-- The number of accepted moves of the counter in a slot. -/
def Errand.movesOf (slot : Nat) (es : List (Errand × Reply)) : Nat :=
  es.countP fun e => e.1.on? slot = some .move ∧ e.2 = .done

theorem Errand.stepsOn_cons {slot : Nat} {q : Errand} {step : MovableStep}
    (hon : q.on? slot = some step) (reply : Reply) (es : List (Errand × Reply)) :
    stepsOn slot ((q, reply) :: es) = step :: stepsOn slot es :=
  List.filterMap_cons_some hon

theorem Errand.flip_movesOf_cons {slot : Nat} {q : Errand} {step : MovableStep}
    (hon : q.on? slot = some step) (reply : Reply) (es : List (Errand × Reply)) (p : Placement) :
    Placement.flip^[movesOf slot ((q, reply) :: es)] p =
      Placement.flip^[movesOf slot es] (p.after step reply) := by
  rw [Placement.after, movesOf, movesOf, List.countP_cons, hon]
  by_cases hmoved : step = .move ∧ reply = .done
  · simp [hmoved]
  · simp [hmoved]

/-- Between the errand that makes a counter and one that ends it, its account tracks the ideal
counter that is fed with the counter's own steps. -/
theorem Account.Tracks.course {l l' : Ledger} {slot : Nat} {es : List (Errand × Reply)}
    {a : Account} {i : Ideal} {p : Placement} (h : a.Tracks i p) (ha : l.movables[slot]? = some a)
    (hes : l.Course es l') (hlives : ∀ e ∈ es, Errand.ends slot e = false) :
    ∃ b, l'.movables[slot]? = some b ∧
      b.Tracks ((Errand.stepsOn slot es).foldl Ideal.next i)
        (Placement.flip^[Errand.movesOf slot es] p) := by
  induction es generalizing l a i p with
  | nil =>
    subst hes
    exact ⟨a, ha, h⟩
  | cons e es ih =>
    obtain ⟨w, m, hf, hes⟩ := hes
    have hends := hlives e List.mem_cons_self
    have hrest : ∀ e ∈ es, Errand.ends slot e = false :=
      fun e he => hlives e (List.mem_cons_of_mem _ he)
    obtain ⟨q, reply⟩ := e
    cases hon : q.on? slot with
    | none =>
      have hsame := Ledger.follows_other hf hon hends
      obtain ⟨b, hb, htracks⟩ := ih h (hsame.trans ha) hes hrest
      refine ⟨b, hb, ?_⟩
      simpa [Errand.stepsOn, Errand.movesOf, hon] using htracks
    | some step =>
      obtain rfl := Errand.eq_of_on? hon
      have hkept : step ≠ .drop := by
        rintro rfl
        simp [Errand.ends] at hends
      obtain ⟨-, hnext⟩ := h.perform (Ledger.follows_movable ha hf)
      obtain ⟨b, hb, htracks⟩ := hnext hkept
      obtain ⟨b', hb', htracks'⟩ := ih htracks hb hes hrest
      refine ⟨b', hb', ?_⟩
      rw [Errand.stepsOn_cons hon, Errand.flip_movesOf_cons hon]
      exact htracks'

/-! ## Sessions -/

namespace Session

/-- The session's desk stands for the ledger, and its registry is the desk's alone. -/
def StandsFor (s : Session) (l : Ledger) (n : Nat) : Prop :=
  s.distortion = .honest ∧
    ∃ part o, s.registry.Divided o Nobody n ∧ s.desk.Matches part o l

theorem standsFor_start (isOpen : Bool) : (start .honest isOpen).StandsFor .empty 0 :=
  ⟨rfl, _, .empty, .empty isOpen, Desk.matches_empty⟩

theorem StandsFor.take {s : Session} {l : Ledger} {n : Nat} (hs : s.StandsFor l n) (q : Errand)
    (hn : n + (s.take q.toStep).events.countP Event.isIssue ≤ 2 ^ 64) :
    ∃ w l', (l.perform q).Follows w (l', (s.take q.toStep).reply) ∧
      (s.take q.toStep).session.StandsFor l'
        (n + (s.take q.toStep).events.countP Event.isIssue) := by
  obtain ⟨hd, part, o, hr, hm⟩ := hs
  have hsecure : (s.desk.perform s.distortion q).Secure o (Desk.Mirrors l q) := by
    rw [hd]
    exact Desk.matches_perform hm q
  obtain ⟨r, k, w, o', hsession, ⟨l', part', hfollows, hm'⟩, hr'⟩ := take_secure hsecure hr hn
  refine ⟨w, l', hfollows, ?_⟩
  rw [hsession]
  exact ⟨hd, part', o', hr', hm'⟩

/-- A session with an honest host gives the replies of a ledger. -/
theorem StandsFor.exists_course {s : Session} {l : Ledger} {n : Nat} (hs : s.StandsFor l n)
    (qs : List Errand) (hn : n + s.issues qs ≤ 2 ^ 64) : ∃ l', l.Course (s.transcript qs) l' := by
  induction qs generalizing s l n with
  | nil => exact ⟨l, rfl⟩
  | cons q qs ih =>
      rw [issues_cons, ← Nat.add_assoc] at hn
      obtain ⟨w, m, hfollows, hnext⟩ := hs.take q (by omega)
      obtain ⟨l', hcourse⟩ := ih hnext hn
      rw [transcript_cons]
      exact ⟨l', w, m, hfollows, hcourse⟩

/-- Take a counter that was made in the course of a session, and a later step on it. The reply is
that of an ideal counter that starts at zero and is fed with the counter's own steps in between;
and the counter is where it was made, moved once for each of its moves that was accepted. -/
theorem tells_ideal (isOpen : Bool) (qs : List Errand) (slot : Nat) (limit : Amount) (p : Placement)
    (early later rest : List (Errand × Reply)) (q : MovableStep) (reply : Reply)
    (few : (start .honest isOpen).issues qs ≤ 2 ^ 64)
    (hqs : (start .honest isOpen).transcript qs =
      early ++ (.chore (.newMovable slot limit p), .done) ::
        (later ++ (.chore (.movable slot q), reply) :: rest))
    (hlives : ∀ e ∈ later, Errand.ends slot e = false) :
    Ideal.Tells ((Errand.stepsOn slot later).foldl Ideal.next (.fresh limit.toNat))
      (Placement.flip^[Errand.movesOf slot later] p) q reply := by
  obtain ⟨l, hcourse⟩ := (standsFor_start isOpen).exists_course qs (by omega)
  rw [hqs] at hcourse
  obtain ⟨l₀, -, w, l₁, hmade, hcourse⟩ := Ledger.course_append.1 hcourse
  obtain ⟨l₂, hlater, w', l₃, hstep, -⟩ := Ledger.course_append.1 hcourse
  have hnew := Ledger.follows_newMovable hmade
  obtain ⟨a, ha, htracks⟩ := (Account.tracks_fresh limit p).course hnew hlater hlives
  exact (htracks.perform (Ledger.follows_movable ha hstep)).1

/-- A counter moves out of the registry, the gate is closed behind it, and its value stands in
spite of the refused move back and of what others do. -/
theorem tells_ideal_of_refused_move :
    let made : Errand × Reply := (.chore (.newMovable 0 10#128 .hosted), .done)
    let later : List (Errand × Reply) :=
      [(.chore (.newLease 0 5#128), .lease ⟨⟨1#64⟩, 5#128⟩),
        (.chore (.movable 0 (.add 7#128)), .done), (.chore (.lease 0 (.add 5#128)), .done),
        (.chore (.movable 0 .move), .done), (.setGate false, .done),
        (.chore (.movable 0 .move), .refused .closed)]
    let last : Errand × Reply :=
      (.chore (.movable 0 (.add 4#128)), .refused (.overflow 4#128 10#128))
    let qs := (made :: (later ++ [last])).map Prod.fst
    (start .honest true).issues qs = 2 ∧
      (start .honest true).transcript qs = made :: (later ++ [last]) ∧
      Ideal.Tells ⟨7, 10⟩ .inPlace (.add 4#128) (.refused (.overflow 4#128 10#128)) := by
  intro made later last qs
  have hissues : (start .honest true).issues qs = 2 := by decide +kernel
  have hqs : (start .honest true).transcript qs = made :: (later ++ [last]) := by decide +kernel
  refine ⟨hissues, hqs, ?_⟩
  exact tells_ideal true qs 0 10#128 .hosted [] later [] _ _ (by rw [hissues]; decide) hqs
    (by decide +kernel)

end Session

end Abacus
