import BlockCode.Text.Literal
import Mathlib

namespace BlockCode.Text

def unescape? : Char → Option Char
  | '\\' => some '\\'
  | '"' => some '"'
  | '\'' => some '\''
  | 'n' => some '\n'
  | 'r' => some '\r'
  | 't' => some '\t'
  | '0' => some '\x00'
  | _ => none

def literalBody? : List Char → Option (List Char × List Char)
  | [] => none
  | '"' :: cs => some ([], cs)
  | '\\' :: e :: cs =>
    match unescape? e with
    | some c => (literalBody? cs).map fun (s, rest) => (c :: s, rest)
    | none => none
  | c :: cs =>
    if c == '\\' || c == '\r' then none
    else (literalBody? cs).map fun (s, rest) => (c :: s, rest)

theorem literalBody_escapeChar (c : Char) (cs : List Char) :
    literalBody? (escapeChar c ++ cs) = (literalBody? cs).map fun (s, rest) => (c :: s, rest) := by
  unfold escapeChar
  split
  · rfl
  · rfl
  · rfl
  · rfl
  · rfl
  · rfl
  · rename_i hslash hquote _ hreturn _ _
    rw [List.singleton_append, literalBody?]
    · rw [if_neg]
      simpa using ⟨hslash, hreturn⟩
    · exact hquote
    · exact fun _ _ h => absurd h hslash

theorem literalBody_escape (s rest : List Char) :
    literalBody? (s.flatMap escapeChar ++ '"' :: rest) = some (s, rest) := by
  induction s with
  | nil => rfl
  | cons c s ih => rw [List.flatMap_cons, List.append_assoc, literalBody_escapeChar, ih]; rfl

end BlockCode.Text
