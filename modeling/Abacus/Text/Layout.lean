/-!
# Layout of values

A value has two written forms: on one line, and over several lines with nested parts indented by
four spaces and a comma after every part. `Layout` keeps both, and its constructors build the forms
of a whole from those of its parts: single words (`atom`), named fields (`record`), a name around a
value (`wrap`) and keyed entries (`entries`).
-/

namespace Abacus.Text

/-- The two written forms of a value. -/
structure Layout where
  /-- The form on one line. -/
  inline : String
  /-- The lines of the form over several lines. -/
  lines : List String

namespace Layout

/-- The form over several lines as one text. -/
def block (l : Layout) : String := "\n".intercalate l.lines

/-- A text that is the same in both forms. -/
def atom (s : String) : Layout := ⟨s, [s]⟩

/-! ## Lines -/

/-- Puts a text before the first line. -/
def leading (s : String) : List String → List String
  | [] => [s]
  | l :: ls => (s ++ l) :: ls

/-- Puts a text after the last line. -/
def trailing (s : String) : List String → List String
  | [] => [s]
  | [l] => [l ++ s]
  | l :: ls => l :: trailing s ls

/-- Goes on with `more` on the last line of `ls`. -/
def glue : List String → List String → List String
  | [], more => more
  | [l], more => leading l more
  | l :: ls, more => l :: glue ls more

/-- One part of a whole: indented, with a comma at its end. -/
def part (ls : List String) : List String := (trailing "," ls).map ("    " ++ ·)

/-! ## Wholes -/

/-- A name with a value in parentheses. -/
def wrap (name : String) (l : Layout) : Layout where
  inline := name ++ "(" ++ l.inline ++ ")"
  lines := (name ++ "(") :: part l.lines ++ [")"]

/-- A name with named fields in braces. -/
def record (name : String) (fields : List (String × Layout)) : Layout where
  inline :=
    name ++ " \x7b " ++ ", ".intercalate (fields.map fun f => f.1 ++ ": " ++ f.2.inline) ++ " \x7d"
  lines :=
    (name ++ " \x7b") ::
      fields.flatMap (fun f => part (leading (f.1 ++ ": ") f.2.lines)) ++ ["\x7d"]

/-- Entries with keys in braces; without any, the two braces stand alone in both forms. -/
def entries (es : List (Layout × Layout)) : Layout where
  inline := "\x7b" ++ ", ".intercalate (es.map fun e => e.1.inline ++ ": " ++ e.2.inline) ++ "\x7d"
  lines :=
    if es.isEmpty then ["\x7b\x7d"]
    else "\x7b" :: es.flatMap (fun e => part (glue (trailing ": " e.1.lines) e.2.lines)) ++ ["\x7d"]

end Layout

end Abacus.Text
