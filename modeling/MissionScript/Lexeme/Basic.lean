/-
The lexemes of a text, and the references among them.

A quote that comes directly after an operand, a closer or another such quote is a transpose; any other quote opens a string
if that string is closed, and is a stray character if not. `lexemes` divides a whole text and `text_lexemes` says that the
lexemes in a row are the text again. `references` keeps the names.
-/
import MissionScript.Lexeme.Numeral
import MissionScript.Lexeme.Quotation
import MissionScript.Lexeme.Reference

namespace MissionScript

inductive Lexeme where
  | reference (text : Text)
  | numeral (text : Text)
  | closer (c : Char)
  | transpose
  | quotation (text : Text)
  | other (c : Char)
  deriving DecidableEq, Repr

namespace Lexeme

def text : Lexeme → Text
  | .reference t | .numeral t | .quotation t => t
  | .closer c | .other c => [c]
  | .transpose => ['\'']

/-- true when a quote directly after the lexeme is a transpose -/
def takesTranspose : Lexeme → Bool
  | .reference _ | .numeral _ | .closer _ | .transpose => true
  | .quotation _ | .other _ => false

def isCloser (c : Char) : Bool := c == ')' || c == ']' || c == '}'

/-- the first lexeme of a text and the rest, given whether a quote would be a transpose -/
def next (attached : Bool) (c : Char) (rest : Text) : Lexeme × Text :=
  if attached && c == '\'' then (.transpose, rest)
  else if isNameStart c then (.reference (Reference.span (c :: rest)).1, (Reference.span (c :: rest)).2)
  else
    match Numeral.span (c :: rest) with
    | some (taken, after) => (.numeral taken, after)
    | none =>
      if isCloser c then (.closer c, rest)
      else
        match Quotation.span (c :: rest) with
        | some (taken, after) => (.quotation taken, after)
        | none => (.other c, rest)

theorem next_append (attached : Bool) (c : Char) (rest : Text) :
    (next attached c rest).1.text ++ (next attached c rest).2 = c :: rest ∧ (next attached c rest).1.text ≠ [] := by
  unfold next
  split
  · next h => simp only [Bool.and_eq_true, beq_iff_eq] at h; simp [text, h.2]
  · split
    · next h => exact ⟨Reference.span_append _, Reference.span_ne_nil h rest⟩
    · split
      · next h => exact Numeral.span_append h
      · split
        · simp [text]
        · split
          · next h => exact Quotation.span_append h
          · simp [text]

theorem length_next_lt (attached : Bool) (c : Char) (rest : Text) :
    (next attached c rest).2.length < (c :: rest).length := by
  obtain ⟨happ, hne⟩ := next_append attached c rest
  have hlen := congrArg List.length happ
  have := List.length_pos_iff.2 hne
  simp only [List.length_append] at hlen
  omega

/-- the lexemes of a text, given whether a quote at its start would be a transpose -/
def ofText (attached : Bool) : Text → List Lexeme
  | [] => []
  | c :: rest => (next attached c rest).1 :: ofText (next attached c rest).1.takesTranspose (next attached c rest).2
termination_by t => t.length
decreasing_by exact length_next_lt attached c rest

end Lexeme

namespace Text

def lexemes (t : Text) : List Lexeme := Lexeme.ofText false t

def references (t : Text) : List Text :=
  (lexemes t).filterMap fun
    | .reference name => some name
    | _ => none

end Text

theorem Lexeme.text_ofText (attached : Bool) (t : Text) : (Lexeme.ofText attached t).flatMap Lexeme.text = t := by
  fun_induction Lexeme.ofText attached t with
  | case1 => rfl
  | case2 attached c rest ih => simpa [ih] using (Lexeme.next_append attached c rest).1

theorem text_lexemes (t : Text) : (Text.lexemes t).flatMap Lexeme.text = t := Lexeme.text_ofText false t

end MissionScript
