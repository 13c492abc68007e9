/-!
# Quoted text

A text is quoted by putting it between double quotes and writing six characters as a backslash and
a letter: the double quote, the backslash, and the line feed, tab, carriage return and null
characters. All other characters stand as they are. `decode_encode` says that the escaped form
reads back.
-/

namespace Abacus.Text.Quoted

/-- The written form of one character. -/
def escape (c : Char) : List Char :=
  if c = '"' then ['\\', '"']
  else if c = '\\' then ['\\', '\\']
  else if c = '\n' then ['\\', 'n']
  else if c = '\t' then ['\\', 't']
  else if c = '\r' then ['\\', 'r']
  else if c = '\x00' then ['\\', '0']
  else [c]

/-- The character that a letter after a backslash stands for. -/
def unescape (c : Char) : Char :=
  if c = 'n' then '\n'
  else if c = 't' then '\t'
  else if c = 'r' then '\r'
  else if c = '0' then '\x00'
  else c

/-- The written form of a text, without the quotes around it. -/
def encode (s : List Char) : List Char := s.flatMap escape

/-- The text of a written form. A backslash at the end stands for nothing. -/
def decode : List Char → List Char
  | [] => []
  | '\\' :: c :: s => unescape c :: decode s
  | c :: s => c :: decode s

/-- The quoted form of a text. -/
def quote (s : String) : String := String.ofList ('"' :: encode s.toList ++ ['"'])

theorem decode_cons {c : Char} (h : c ≠ '\\') (s : List Char) :
    decode (c :: s) = c :: decode s := by
  simp [decode, h]

theorem decode_escape_append (c : Char) (s : List Char) :
    decode (escape c ++ s) = c :: decode s := by
  by_cases quote : c = '"'
  · subst c; rfl
  by_cases backslash : c = '\\'
  · subst c; rfl
  by_cases feed : c = '\n'
  · subst c; rfl
  by_cases tab : c = '\t'
  · subst c; rfl
  by_cases carriage : c = '\r'
  · subst c; rfl
  by_cases null : c = '\x00'
  · subst c; rfl
  simp [escape, quote, backslash, feed, tab, carriage, null, decode_cons]

theorem decode_encode (s : List Char) : decode (encode s) = s := by
  induction s with
  | nil => rfl
  | cons c s ih =>
      rw [encode, List.flatMap_cons, decode_escape_append]
      exact congrArg (c :: ·) ih

theorem encode_injective {s t : List Char} (h : encode s = encode t) : s = t := by
  rw [← decode_encode s, h, decode_encode]

end Abacus.Text.Quoted
