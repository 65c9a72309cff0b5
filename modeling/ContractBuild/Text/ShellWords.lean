/-!
Splitting a command line into words as a shell does: quotes and backslashes protect, and a `#` in
front of a word starts a comment.
-/

namespace ContractBuild.Text.ShellWords

inductive Phase where
  | between
  | comment
  | word
  | backslash (inWord : Bool)
  | singleQuoted
  | doubleQuoted
  | doubleBackslash

structure St where
  phase : Phase := .between
  words : List String := []
  current : List Char := []

def push (s : St) (c : Char) (next : Phase) : St := { s with current := s.current ++ [c], phase := next }

def endWord (s : St) : St :=
  { phase := .between, words := s.words ++ [String.ofList s.current], current := [] }

def isSeparator (c : Char) : Bool := c == ' ' || c == '\t' || c == '\n'

def step (s : St) (c : Char) : St :=
  match s.phase with
  | .between =>
    if c == '\'' then { s with phase := .singleQuoted }
    else if c == '"' then { s with phase := .doubleQuoted }
    else if c == '\\' then { s with phase := .backslash false }
    else if isSeparator c then s
    else if c == '#' then { s with phase := .comment }
    else push s c .word
  | .comment => if c == '\n' then { s with phase := .between } else s
  | .word =>
    if c == '\'' then { s with phase := .singleQuoted }
    else if c == '"' then { s with phase := .doubleQuoted }
    else if c == '\\' then { s with phase := .backslash true }
    else if isSeparator c then endWord s
    else push s c .word
  | .backslash inWord =>
    if c == '\n' then { s with phase := if inWord then .word else .between } else push s c .word
  | .singleQuoted => if c == '\'' then { s with phase := .word } else push s c .singleQuoted
  | .doubleQuoted =>
    if c == '"' then { s with phase := .word }
    else if c == '\\' then { s with phase := .doubleBackslash }
    else push s c .doubleQuoted
  | .doubleBackslash =>
    if c == '\n' then { s with phase := .doubleQuoted }
    else if c == '$' || c == '`' || c == '"' || c == '\\' then push s c .doubleQuoted
    else push (push s '\\' .doubleQuoted) c .doubleQuoted

/-- The words, or `none` if a quote is left open. -/
def finish (s : St) : Option (List String) :=
  match s.phase with
  | .between | .comment => some s.words
  | .word => some (endWord s).words
  | .backslash _ => some (endWord (push s '\\' .word)).words
  | .singleQuoted | .doubleQuoted | .doubleBackslash => none

def split (text : String) : Option (List String) := finish (text.toList.foldl step {})

end ContractBuild.Text.ShellWords
