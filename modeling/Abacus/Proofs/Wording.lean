import Mathlib.Tactic.TFAE
import Std.Data.String.ToNat
import Abacus.Event

/-!
# Identifying texts

A refusal is written in three ways: as a sentence, on one line and over several lines. Each of them
says which refusal it was, with all its data: two refusals have the same text only if they are
equal. So it is with the sentence of a dead handle (`DeadHandle.message_injective`) and with what is
shown of an event (`Event.shown_injective`).

The amounts of a refusal stand in a `Frame`, whose words do not begin with a digit, so that the
digits before them end where the words begin (`Frame.fill_inj`). A `Wording` is a way of writing
refusals that has such frames, tells the kinds of refusals apart and does not confuse details;
`Wording.injective` is the argument that the three ways share, and `wording_message`,
`wording_inline` and `wording_block` are its three cases. The first letter tells the kinds apart,
whatever the detail of a corrupt refusal may imitate.
-/

namespace Abacus

open Text

/-! ## Digits and what follows them -/

/-- A number does not go on into the text: it is empty or begins with something else than a
digit. -/
def Text.StopsDigits (s : List Char) : Prop := ∀ c ∈ s.head?, c.isDigit = false

namespace Amount

theorem isDigit_of_mem_text (a : Amount) {c : Char} (hc : c ∈ a.text.toList) :
    c.isDigit = true := by
  unfold text at hc
  rw [Nat.toList_repr] at hc
  exact Nat.isDigit_of_mem_toDigits (by decide) (by decide) hc

theorem text_injective {a b : Amount} (h : a.text = b.text) : a = b :=
  BitVec.eq_of_toNat_eq (Nat.repr_injective h)

/-- The digits of an amount are read off before a text that stops them. -/
theorem takeWhile_text_append (a : Amount) {s : List Char} (hs : StopsDigits s) :
    (a.text.toList ++ s).takeWhile Char.isDigit = a.text.toList := by
  have hstop : s.takeWhile Char.isDigit = [] := by
    cases s with
    | nil => rfl
    | cons c s =>
      apply List.takeWhile_cons_of_neg
      simp [hs c rfl]
  rw [List.takeWhile_append_of_pos fun c hc => a.isDigit_of_mem_text hc, hstop, List.append_nil]

theorem text_append_inj {a b : Amount} {s t : List Char} (hs : StopsDigits s) (ht : StopsDigits t)
    (h : a.text.toList ++ s = b.text.toList ++ t) : a = b ∧ s = t := by
  have hdigits : a.text.toList = b.text.toList := by
    rw [← a.takeWhile_text_append hs, h, b.takeWhile_text_append ht]
  refine ⟨text_injective (String.toList_inj.1 hdigits), ?_⟩
  rw [hdigits] at h
  exact List.append_cancel_left h

end Amount

/-! ## Frames -/

/-- The words around two amounts. They separate the amounts and stop the digits of both. -/
structure Frame where
  opening : String
  between : String
  closing : String
  between_ne : between ≠ ""
  between_stops : StopsDigits between.toList
  closing_stops : StopsDigits closing.toList

namespace Frame

/-- The text with the amounts in their places. -/
def fill (f : Frame) (a b : Amount) : String :=
  f.opening ++ a.text ++ f.between ++ b.text ++ f.closing

theorem fill_inj {f : Frame} {a b a' b' : Amount} (h : f.fill a b = f.fill a' b') :
    a = a' ∧ b = b' := by
  have hstops (s : List Char) : StopsDigits (f.between.toList ++ s) := by
    have hne : f.between.toList ≠ [] := by simpa using f.between_ne
    have hbetween := f.between_stops
    obtain ⟨c, rest, heq⟩ := List.exists_cons_of_ne_nil hne
    rw [heq] at hbetween ⊢
    exact hbetween
  have hlist := congrArg String.toList h
  simp only [fill, String.toList_append, List.append_assoc] at hlist
  obtain ⟨rfl, hrest⟩ := Amount.text_append_inj (hstops _) (hstops _)
    (List.append_cancel_left hlist)
  obtain ⟨rfl, -⟩ := Amount.text_append_inj f.closing_stops f.closing_stops
    (List.append_cancel_left hrest)
  exact ⟨rfl, rfl⟩

/-- The frame of two fields on one line. -/
def inline (name first second : String) : Frame where
  opening := name ++ " \x7b " ++ first ++ ": "
  between := ", " ++ second ++ ": "
  closing := " \x7d"
  between_ne := by simp
  between_stops := by simp [StopsDigits]
  closing_stops := by simp [StopsDigits]

/-- The frame of two fields over several lines. -/
def block (name first second : String) : Frame where
  opening := name ++ " \x7b\n    " ++ first ++ ": "
  between := ",\n    " ++ second ++ ": "
  closing := ",\n\x7d"
  between_ne := by simp
  between_stops := by simp [StopsDigits]
  closing_stops := by simp [StopsDigits]

theorem inline_fill (name first second : String) (a b : Amount) :
    (Layout.record name [(first, .atom a.text), (second, .atom b.text)]).inline =
      (inline name first second).fill a b := by
  apply String.toList_inj.1
  simp [Layout.record, Layout.atom, fill, inline]

theorem block_fill (name first second : String) (a b : Amount) :
    (Layout.record name [(first, .atom a.text), (second, .atom b.text)]).block =
      (block name first second).fill a b := by
  apply String.toList_inj.1
  simp [Layout.record, Layout.atom, Layout.block, Layout.part, Layout.leading, Layout.trailing,
    fill, block]

end Frame

/-! ## Wordings -/

namespace Refusal

/-- A way of writing refusals that keeps the kinds of refusals apart, the amounts in frames, and
the details of corrupt refusals apart. -/
structure Wording (write : Refusal → String) : Prop where
  apart : ∀ a b, write a = write b → a.name = b.name
  overflow : ∃ f : Frame, ∀ amount limit, write (.overflow amount limit) = f.fill amount limit
  underflow : ∃ f : Frame, ∀ amount current,
    write (.underflow amount current) = f.fill amount current
  corrupt : ∀ s t, write (.corrupt s) = write (.corrupt t) → s = t

theorem Wording.injective {write : Refusal → String} (hw : Wording write) {a b : Refusal}
    (h : write a = write b) : a = b := by
  have hname := hw.apart a b h
  cases a with
  | overflow x l =>
    cases b with
    | overflow y k =>
      obtain ⟨f, hf⟩ := hw.overflow
      rw [hf, hf] at h
      obtain ⟨rfl, rfl⟩ := Frame.fill_inj h
      rfl
    | underflow | closed | corrupt => simp [name] at hname
  | underflow x c =>
    cases b with
    | underflow y d =>
      obtain ⟨f, hf⟩ := hw.underflow
      rw [hf, hf] at h
      obtain ⟨rfl, rfl⟩ := Frame.fill_inj h
      rfl
    | overflow | closed | corrupt => simp [name] at hname
  | closed =>
    cases b with
    | closed => rfl
    | overflow | underflow | corrupt => simp [name] at hname
  | corrupt s =>
    cases b with
    | corrupt t => rw [hw.corrupt s t h]
    | overflow | underflow | closed => simp [name] at hname

/-- The first letter of the sentence, for each kind of refusal. -/
def initial : Refusal → Char
  | overflow .. => 'a'
  | underflow .. => 's'
  | closed => 'n'
  | corrupt _ => 'c'

theorem name_eq_of_initial {a b : Refusal} : a.initial = b.initial → a.name = b.name := by
  cases a <;> cases b <;> simp [initial, name]

/-- The names of the kinds differ in their first letters. -/
theorem name_eq_of_head {a b : Refusal} :
    a.name.toList.head? = b.name.toList.head? → a.name = b.name := by
  cases a <;> cases b <;> simp [name]

theorem head_message (r : Refusal) : r.message.toList.head? = some r.initial := by
  cases r <;> unfold message <;> simp [initial]

theorem head_inline (r : Refusal) : r.layout.inline.toList.head? = r.name.toList.head? := by
  cases r <;> simp [layout, name, Layout.record, Layout.wrap, Layout.atom]

theorem head_block (r : Refusal) : r.layout.block.toList.head? = r.name.toList.head? := by
  cases r <;> simp [layout, name, Layout.record, Layout.wrap, Layout.atom, Layout.block]

/-- What stands in quotes between the same words is the same. -/
theorem quote_inj {opening closing s t : String}
    (h : opening ++ Quoted.quote s ++ closing = opening ++ Quoted.quote t ++ closing) : s = t := by
  have hquote := (String.append_right_inj _).1 ((String.append_left_inj _).1 h)
  unfold Quoted.quote at hquote
  have hlist := congrArg String.toList hquote
  simp only [String.toList_ofList, List.cons_append, List.cons.injEq, true_and] at hlist
  exact String.toList_inj.1 (Quoted.encode_injective (List.append_cancel_right hlist))

theorem inline_corrupt (detail : String) :
    (corrupt detail).layout.inline = "InvariantViolation" ++ "(" ++ Quoted.quote detail ++ ")" :=
  rfl

theorem block_corrupt (detail : String) :
    (corrupt detail).layout.block =
      "InvariantViolation(\n    " ++ Quoted.quote detail ++ ",\n)" := by
  apply String.toList_inj.1
  simp [layout, name, Layout.wrap, Layout.atom, Layout.block, Layout.part, Layout.trailing]

/-! ## The three ways of writing a refusal -/

/-- The sentence about an addition. -/
def additionFrame : Frame where
  opening := "adding "
  between := " would exceed the limit of "
  closing := ""
  between_ne := by simp
  between_stops := by simp [StopsDigits]
  closing_stops := by simp [StopsDigits]

/-- The sentence about a subtraction. -/
def subtractionFrame : Frame where
  opening := "subtracting "
  between := " from "
  closing := " would go below zero"
  between_ne := by simp
  between_stops := by simp [StopsDigits]
  closing_stops := by simp [StopsDigits]

theorem wording_message : Wording message where
  apart a b h := by
    apply name_eq_of_initial
    rw [← Option.some.injEq, ← head_message, h, head_message]
  overflow := ⟨additionFrame, fun amount limit => String.append_empty.symm⟩
  underflow := ⟨subtractionFrame, fun amount current => rfl⟩
  corrupt s t h := (String.append_right_inj _).1 h

theorem wording_inline : Wording fun r => r.layout.inline where
  apart a b h := by
    apply name_eq_of_head
    rw [← head_inline, h, head_inline]
  overflow := ⟨.inline "Overflow" "value" "limit", Frame.inline_fill _ _ _⟩
  underflow := ⟨.inline "Underflow" "value" "current", Frame.inline_fill _ _ _⟩
  corrupt s t h := by
    simp only [inline_corrupt] at h
    exact quote_inj h

theorem wording_block : Wording fun r => r.layout.block where
  apart a b h := by
    apply name_eq_of_head
    rw [← head_block, h, head_block]
  overflow := ⟨.block "Overflow" "value" "limit", Frame.block_fill _ _ _⟩
  underflow := ⟨.block "Underflow" "value" "current", Frame.block_fill _ _ _⟩
  corrupt s t h := by
    simp only [block_corrupt] at h
    exact quote_inj h

/-- Two refusals are equal as soon as they have the same sentence, or the same form on one line, or
the same form over several lines. -/
theorem texts_identify (a b : Refusal) :
    [a = b, a.message = b.message, a.layout.inline = b.layout.inline,
      a.layout.block = b.layout.block].TFAE := by
  tfae_have 1 → 2 := congrArg message
  tfae_have 2 → 1 := wording_message.injective
  tfae_have 1 → 3 := congrArg fun r : Refusal => r.layout.inline
  tfae_have 3 → 1 := wording_inline.injective
  tfae_have 1 → 4 := congrArg fun r : Refusal => r.layout.block
  tfae_have 4 → 1 := wording_block.injective
  tfae_finish

end Refusal

/-! ## Failures and events -/

theorem Handle.text_injective {a b : Handle} (h : a.text = b.text) : a = b :=
  Handle.ext (BitVec.eq_of_toNat_eq (Nat.repr_injective h))

theorem Placement.name_injective {p q : Placement} (h : p.name = q.name) : p = q := by
  cases p with
  | hosted =>
    cases q with
    | hosted => rfl
    | inPlace => exact absurd h (by decide)
  | inPlace =>
    cases q with
    | hosted => exact absurd h (by decide)
    | inPlace => rfl

namespace DeadHandle

/-- The failure names the handle. -/
theorem message_eq (d : DeadHandle) :
    d.message = "Parallel counter handle HandleId(" ++ d.handle.text ++
      ") is not live in this backend." := by
  have hinline : d.handle.layout.inline = "HandleId" ++ "(" ++ d.handle.text ++ ")" := rfl
  apply String.toList_inj.1
  unfold message
  simp [hinline]

theorem message_injective {a b : DeadHandle} (h : a.message = b.message) : a = b := by
  rw [message_eq, message_eq] at h
  have htext := (String.append_right_inj _).1 ((String.append_left_inj _).1 h)
  obtain ⟨handle⟩ := a
  obtain ⟨handle'⟩ := b
  cases Handle.text_injective htext
  rfl

end DeadHandle

namespace Event

/-- The message tells the kind of the event, and the fields all the rest. -/
theorem eq_of_texts {a b : Event} (hmessage : a.message = b.message)
    (hfields : a.fields = b.fields) : a = b := by
  unfold message at hmessage
  unfold fields at hfields
  -- Different kinds have different messages, so only equal kinds are left.
  cases a <;> cases b <;>
    simp only [String.reduceEq, List.cons.injEq, Prod.mk.injEq, true_and, and_true]
      at hmessage hfields
  case issued h limit h' limit' =>
    rw [Handle.text_injective hfields.1, Amount.text_injective hfields.2]
  case removed h h' => rw [Handle.text_injective hfields]
  case turnedAway limit limit' => rw [Amount.text_injective hfields]
  case gateMoved isOpen isOpen' => cases isOpen <;> cases isOpen' <;> simp_all
  case made limit p limit' p' =>
    rw [Amount.text_injective hfields.1, Placement.name_injective hfields.2]
  case misfit value limit refusal value' limit' refusal' =>
    obtain ⟨hvalue, hlimit, hrefusal⟩ := hfields
    rw [Amount.text_injective hvalue, Amount.text_injective hlimit,
      Refusal.wording_message.injective hrefusal]
  case moved value limit source target value' limit' source' target' =>
    obtain ⟨hvalue, hlimit, hsource, htarget⟩ := hfields
    rw [Amount.text_injective hvalue, Amount.text_injective hlimit,
      Placement.name_injective hsource, Placement.name_injective htarget]
  case letGo => rfl

/-- What is shown of an event, its level, its message and its fields, determines it. -/
theorem shown_injective : Function.Injective fun e : Event => (e.level, e.message, e.fields) := by
  intro a b h
  simp only [Prod.mk.injEq] at h
  exact eq_of_texts h.2.1 h.2.2

end Event

end Abacus
