import ContractBuild.Text.Chars

/-!
File paths with `/` between their components.

A path keeps its text. Repeated and trailing slashes and the component `.` do not count, except for
a `.` in front.
-/

namespace ContractBuild

structure Path where
  text : String
  deriving DecidableEq

namespace Path

inductive Component where
  | root
  | here
  | up
  | name (s : String)
  deriving DecidableEq

def isAbsolute (p : Path) : Bool := (Text.chars p.text).head? == some '/'

def components (p : Path) : List Component :=
  let parts := (Text.chars p.text).splitOn '/'
  let lead : List Component :=
    if p.isAbsolute then [.root] else if parts.head? == some ['.'] then [.here] else []
  lead ++ parts.filterMap fun s =>
    if s = [] ∨ s = ['.'] then none
    else if s = ['.', '.'] then some .up
    else some (.name (String.ofList s))

/-- Drops what does not count at the end of a path, given back to front. -/
def trimTail : List Char → List Char
  | '/' :: c :: r => trimTail (c :: r)
  | '.' :: '/' :: r => trimTail ('/' :: r)
  | r => r

/-- The text up to the last component, back to front. -/
def tailFirst (p : Path) : List Char := trimTail (Text.chars p.text).reverse

def last (p : Path) : List Char := (p.tailFirst.takeWhile (· ≠ '/')).reverse

/-- The last component, if it is a name. -/
def fileName (p : Path) : Option String :=
  let s := p.last
  if s = [] ∨ s = ['.'] ∨ s = ['.', '.'] then none else some (String.ofList s)

/-- The path without its last component. -/
def parent (p : Path) : Option Path :=
  match p.tailFirst with
  | [] => none
  | ['/'] => none
  | cs => some ⟨String.ofList (trimTail (cs.dropWhile (· ≠ '/'))).reverse⟩

/-- A file name cut at its last dot; a dot in front does not count. -/
def splitName (name : List Char) : List Char × Option (List Char) :=
  let ext := (name.reverse.takeWhile (· ≠ '.')).reverse
  let stem := name.take (name.length - ext.length - 1)
  if ext.length < name.length ∧ stem ≠ [] then (stem, some ext) else (name, none)

def stem (p : Path) : Option String :=
  p.fileName.map fun n => String.ofList (splitName n.toList).1

def extension (p : Path) : Option String :=
  match p.fileName with
  | some n => (splitName n.toList).2.map String.ofList
  | none => none

/-- Replaces the extension of the file name; a path without one stays as it is. -/
def withExtension (p : Path) (ext : String) : Path :=
  match p.fileName with
  | none => p
  | some n =>
    let dir := p.tailFirst.drop n.length
    ⟨String.ofList (dir.reverse ++ (splitName n.toList).1) ++ "." ++ ext⟩

/-- Appends a path; an absolute one replaces. -/
def join (p q : Path) : Path :=
  if q.isAbsolute || p.text.isEmpty then q
  else if (Text.chars p.text).getLast? == some '/' then ⟨p.text ++ q.text⟩
  else ⟨p.text ++ "/" ++ q.text⟩

def joinName (p : Path) (name : String) : Path := p.join ⟨name⟩

def Component.text : Component → String
  | .root => "/"
  | .here => "."
  | .up => ".."
  | .name s => s

def ofComponents (cs : List Component) : Path :=
  cs.foldl (fun p c => p.joinName c.text) ⟨""⟩

/-- Whether only a directory can stand there. -/
def endsInSlash (p : Path) : Bool := (Text.chars p.text).getLast? == some '/'

/-- Resolves `.` and `..` by the text alone; nothing is above the root. -/
def normalize (p : Path) : Path :=
  ofComponents (p.components.foldl step [])
where
  step (done : List Component) : Component → List Component
    | .here => done
    | .up => if done = [.root] then done else done.dropLast
    | c => done ++ [c]

/-- The names that a normalized path consists of. -/
def names (p : Path) : List String :=
  p.normalize.components.filterMap fun
    | .name s => some s
    | _ => none

/-- The components of a path below a directory, or `none` if it lies elsewhere. -/
def below? (dir p : Path) : Option (List Component) := dir.components.isPrefixOf? p.components

/-! ### Ancestors -/

theorem length_trimTail_le (cs : List Char) : (trimTail cs).length ≤ cs.length := by
  fun_induction trimTail cs with
  | case1 c r ih => exact Nat.le_succ_of_le ih
  | case2 r ih => exact Nat.le_succ_of_le ih
  | case3 r => exact Nat.le_refl _

theorem trimTail_ne_slash_cons (cs : List Char) (c : Char) (r : List Char) :
    trimTail cs ≠ '/' :: c :: r := by
  fun_induction trimTail cs with
  | case1 _ _ ih => exact ih
  | case2 _ ih => exact ih
  | case3 s h _ => exact fun e => h c r e

/-- A parent is a shorter path. -/
theorem length_parent_lt {p q : Path} (h : p.parent = some q) : q.text.length < p.text.length := by
  have hle : p.tailFirst.length ≤ p.text.length := by
    simpa [tailFirst, String.length_toList] using length_trimTail_le (Text.chars p.text).reverse
  have hne := trimTail_ne_slash_cons (Text.chars p.text).reverse
  rw [← tailFirst] at hne
  rw [parent] at h
  generalize p.tailFirst = cs at h hle hne
  match cs, h with
  | c :: r, h =>
    have hc : c ≠ '/' := by
      rintro rfl
      cases r with
      | nil => cases h
      | cons d s => exact hne d s rfl
    have hlen := length_trimTail_le (r.dropWhile (· ≠ '/'))
    have hdrop := (List.dropWhile_suffix (· ≠ '/') (l := r)).length_le
    have hq : q = ⟨String.ofList (trimTail (r.dropWhile (· ≠ '/'))).reverse⟩ := by
      simpa [hc] using h.symm
    subst hq
    simp only [String.length_ofList, List.length_reverse, List.length_cons] at hle ⊢
    omega

/-- The path, its parent, and so on upwards. -/
def ancestors (p : Path) : List Path :=
  match _h : p.parent with
  | some q => p :: q.ancestors
  | none => [p]
termination_by p.text.length
decreasing_by exact length_parent_lt _h

end Path

end ContractBuild
