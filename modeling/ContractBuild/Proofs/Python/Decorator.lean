import Mathlib
import ContractBuild.Python.Module
import ContractBuild.Proofs.Program

/-!
Functions and their decorators. What waits for a function can be read off the lines in front of it,
so that a module's functions and their decorators are told by its lines alone.
-/

namespace ContractBuild.Python.Module

open ContractBuild.Text

/-! ### Lines -/

def isImport (l : Line) : Bool := (Import.ofLine l).toOption.join.isSome

/-- The line begins with an at sign. -/
def isMark (l : Line) : Bool := l.text.toList.head? == some '@'

/-- The line defines a function of the module. -/
def isDefinition (l : Line) : Bool :=
  l.indent == 0 && !isImport l && !isMark l && (Function.header l.text.toList).isSome

/-- Every line of `ls` with the lines in front of it; `before` stands in front of them all. -/
def splits : (before ls : List Line) → List (List Line × Line)
  | _, [] => []
  | before, l :: ls => (before, l) :: splits (before ++ [l]) ls

/-- The lines that define functions, each with the lines in front of it. -/
def definitions (ls : List Line) : List (List Line × Line) :=
  (splits [] ls).filter fun p => isDefinition p.2

/-- The marks with which `before` ends, indented lines left out. -/
def marksAt (before : List Line) : List Line :=
  (before.filter fun l => l.indent == 0).rtakeWhile isMark

/-- The mark is read as the decorator. -/
def Marks (l : Line) (d : Decorator) : Prop :=
  Decorator.ofText l.number (l.text.toList.drop 1) = .ok d

/-- **A line defines a function.** The function is what the line says it is, and its decorators are
the marks right in front of the line. -/
structure Defines (p : List Line × Line) (f : Function) : Prop where
  read : Function.ofLine p.2 f.decorators = .ok (some f)
  decorators : List.Forall₂ Marks (marksAt p.1) f.decorators

section Lines

variable {l : Line} {ls : List Line}

lemma isDefinition_of_isMark (h : isMark l = true) : isDefinition l = false := by
  simp [isDefinition, h]

lemma isDefinition_of_indented (h : l.indent ≠ 0) : isDefinition l = false := by
  simp [isDefinition, h]

lemma splits_concat (before ls : List Line) (l : Line) :
    splits before (ls ++ [l]) = splits before ls ++ [(before ++ ls, l)] := by
  induction ls generalizing before with
  | nil => simp [splits]
  | cons x ls ih => simp [splits, ih]

lemma definitions_concat (ls : List Line) (l : Line) :
    definitions (ls ++ [l]) = definitions ls ++ if isDefinition l then [(ls, l)] else [] := by
  rw [definitions, splits_concat, List.filter_append, List.nil_append, List.filter_singleton,
    Bool.cond_eq_ite, definitions]

lemma definitions_concat_other (h : isDefinition l = false) :
    definitions (ls ++ [l]) = definitions ls := by
  simp [definitions_concat, h]

lemma marksAt_concat_indented (h : l.indent ≠ 0) : marksAt (ls ++ [l]) = marksAt ls := by
  simp [marksAt, h]

lemma marksAt_concat_mark (h : l.indent = 0) (hmark : isMark l = true) :
    marksAt (ls ++ [l]) = marksAt ls ++ [l] := by
  rw [marksAt, List.filter_append, List.filter_singleton, h]
  exact List.rtakeWhile_concat_pos _ _ _ hmark

lemma marksAt_concat_other (h : l.indent = 0) (hmark : isMark l = false) :
    marksAt (ls ++ [l]) = [] := by
  rw [marksAt, List.filter_append, List.filter_singleton, h]
  exact List.rtakeWhile_concat_neg _ _ _ (by simp [hmark])

/-- Marks in front of another line have no part in what stands behind it. -/
lemma marksAt_append_cons (h : l.indent = 0) (hmark : isMark l = false)
    (before between : List Line) : marksAt (before ++ l :: between) = marksAt between := by
  induction between using List.reverseRecOn with
  | nil => exact marksAt_concat_other h hmark
  | append_singleton between x ih =>
    rw [← List.cons_append, ← List.append_assoc]
    by_cases hindent : x.indent = 0
    · cases hx : isMark x with
      | true => rw [marksAt_concat_mark hindent hx, marksAt_concat_mark hindent hx, ih]
      | false => rw [marksAt_concat_other hindent hx, marksAt_concat_other hindent hx]
    · rw [marksAt_concat_indented hindent, marksAt_concat_indented hindent, ih]

/-- No mark stands in front of two functions. -/
lemma marks_sublist (ls : List Line) :
    ((definitions ls).flatMap (fun p => marksAt p.1) ++ marksAt ls).Sublist
      (ls.filter fun l => l.indent == 0 && isMark l) := by
  induction ls using List.reverseRecOn with
  | nil => exact List.nil_sublist _
  | append_singleton ls l ih =>
    rw [List.filter_append, List.filter_singleton]
    by_cases hindent : l.indent = 0
    · cases hmark : isMark l with
      | true =>
        rw [definitions_concat_other (isDefinition_of_isMark hmark),
          marksAt_concat_mark hindent hmark, hindent, ← List.append_assoc]
        exact ih.append (List.Sublist.refl [l])
      | false =>
        -- a function takes the marks that wait; any other line drops them
        rw [marksAt_concat_other hindent hmark, definitions_concat]
        cases isDefinition l with
        | true => simpa using ih
        | false => simpa using (List.sublist_append_left _ _).trans ih
    · have hindented : (l.indent == 0) = false := by simpa using hindent
      rw [definitions_concat_other (isDefinition_of_indented hindent),
        marksAt_concat_indented hindent, hindented]
      simpa using ih

/-- A mark is no import. -/
lemma ofLine_of_isMark (h : isMark l = true) : Import.ofLine l = .ok none := by
  obtain ⟨rest, hrest⟩ : ∃ rest, l.text.toList = '@' :: rest := by
    cases htext : l.text.toList with
    | nil => simp [isMark, htext] at h
    | cons c rest => exact ⟨rest, by simpa [isMark, htext] using h⟩
  have hkeyword : ('@' :: rest).takeWhile (fun c => isLetterOrNumber c || c == '_') = [] :=
    List.takeWhile_cons_of_neg (by decide +kernel)
  have hbody : Import.inlineBody ('@' :: rest) = none := by
    rw [Import.inlineBody, hkeyword]
    exact if_neg (by decide)
  have hword : ∀ word : String, word.toList.head?.any (· != '@') = true →
      word.toList.isPrefixOf? ('@' :: rest) = none := by
    intro word hne
    cases hword : word.toList with
    | nil => simp [hword] at hne
    | cons c cs =>
      simp only [hword, List.head?_cons, Option.any_some, bne_iff_ne] at hne
      simp [List.isPrefixOf?, hne]
  simp only [Import.ofLine, hrest, hbody, Option.getD_none, Import.afterWord, Import.fromParts,
    hword "import" (by decide), hword "from" (by decide)]

end Lines

/-! ### Steps -/

/-- What a line can do to the state. -/
inductive Steps (s : St) (l : Line) : St → Prop where
  | imports {found : List Import} (hl : Import.ofLine l = .ok (some found)) :
      Steps s l ⟨{ s.module with imports := s.module.imports ++ found },
        if l.indent == 0 then [] else s.pending⟩
  | indented (hl : Import.ofLine l = .ok none) (hindent : l.indent ≠ 0) : Steps s l s
  | mark {d : Decorator} (hindent : l.indent = 0) (hmark : isMark l = true) (hd : Marks l d) :
      Steps s l { s with pending := s.pending ++ [d] }
  | function {f : Function} (hdefinition : isDefinition l = true)
      (hf : Function.ofLine l s.pending = .ok (some f)) :
      Steps s l { module := { s.module with functions := s.module.functions ++ [f] } }
  | other (hl : Import.ofLine l = .ok none) (hindent : l.indent = 0) (hmark : isMark l = false)
      (hdefinition : isDefinition l = false) : Steps s l { s with pending := [] }

section Run

variable {s s' : St} {l : Line} {ls : List Line} {decorators : List Decorator} {f : Function}

lemma isDefinition_eq (hl : Import.ofLine l = .ok none) (hindent : l.indent = 0)
    (hmark : isMark l = false) : isDefinition l = (Function.header l.text.toList).isSome := by
  simp [isDefinition, isImport, hl, hindent, hmark, Except.toOption]

/-- A header alone decides whether a line is read as a function. -/
lemma header_of_ofLine {f? : Option Function} (h : Function.ofLine l decorators = .ok f?) :
    (Function.header l.text.toList).isSome = f?.isSome ∧
      ∀ f ∈ f?, f.decorators = decorators := by
  simp only [Function.ofLine] at h
  split at h
  next hheader =>
    cases h
    simp [hheader]
  next hheader =>
    rw [hheader]
    split at h
    · cases h
    split at h
    · split at h <;> cases h
      simp
    · cases h
      simp
    · cases h

lemma steps_of_step (h : step s l = .ok s') : Steps s l s' := by
  obtain ⟨found?, hl, h⟩ := except_bind_ok.mp h
  cases found? with
  | some found =>
    cases h
    exact .imports hl
  | none =>
    dsimp only at h
    split_ifs at h with hindent
    · cases h
      exact .indented hl (by simpa using hindent)
    have hindent : l.indent = 0 := by simpa using hindent
    split at h
    next rest htext =>
      obtain ⟨d, hd, h⟩ := except_bind_ok.mp h
      cases h
      exact .mark hindent (by simp [isMark, htext]) (by rw [Marks, htext]; exact hd)
    next htext =>
      have hmark : isMark l = false := by
        rw [isMark, beq_eq_false_iff_ne]
        intro hhead
        obtain ⟨rest, hrest⟩ := List.head?_eq_some_iff.mp hhead
        exact htext rest hrest
      obtain ⟨f?, hf, h⟩ := except_bind_ok.mp h
      cases f? with
      | some f =>
        cases h
        refine .function ?_ hf
        rw [isDefinition_eq hl hindent hmark, (header_of_ofLine hf).1]
        rfl
      | none =>
        cases h
        refine .other hl hindent hmark ?_
        rw [isDefinition_eq hl hindent hmark, (header_of_ofLine hf).1]
        rfl

/-- The functions found, and the decorators that wait, are those that the lines up to here tell. -/
structure Follows (ls : List Line) (s : St) : Prop where
  functions : List.Forall₂ Defines (definitions ls) s.module.functions
  pending : List.Forall₂ Marks (marksAt ls) s.pending

lemma Follows.step (h : Follows ls s) (hstep : step s l = .ok s') : Follows (ls ++ [l]) s' := by
  have hkept : isDefinition l = false →
      List.Forall₂ Defines (definitions (ls ++ [l])) s.module.functions := fun hdefinition => by
    rw [definitions_concat_other hdefinition]
    exact h.functions
  cases steps_of_step hstep with
  | imports hl =>
    have hmark : isMark l = false := by
      by_contra hmark
      rw [ofLine_of_isMark (by simpa using hmark)] at hl
      cases hl
    refine ⟨hkept (by simp [isDefinition, isImport, hl, Except.toOption]), ?_⟩
    by_cases hindent : l.indent = 0
    · simp [marksAt_concat_other hindent hmark, hindent]
    · simpa [marksAt_concat_indented hindent, hindent] using h.pending
  | indented _ hindent =>
    refine ⟨hkept (isDefinition_of_indented hindent), ?_⟩
    rw [marksAt_concat_indented hindent]
    exact h.pending
  | mark hindent hmark hd =>
    refine ⟨hkept (isDefinition_of_isMark hmark), ?_⟩
    rw [marksAt_concat_mark hindent hmark]
    exact List.rel_append h.pending (.cons hd .nil)
  | function hdefinition hf =>
    have hdecorators := (header_of_ofLine hf).2 _ rfl
    obtain ⟨hindent, hmark⟩ : l.indent = 0 ∧ isMark l = false := by
      simp only [isDefinition, Bool.and_eq_true, beq_iff_eq, Bool.not_eq_true'] at hdefinition
      exact ⟨hdefinition.1.1.1, hdefinition.1.2⟩
    refine ⟨?_, by simp [marksAt_concat_other hindent hmark]⟩
    rw [definitions_concat, if_pos hdefinition]
    exact List.rel_append h.functions
      (.cons ⟨hdecorators ▸ hf, hdecorators ▸ h.pending⟩ .nil)
  | other _ hindent hmark hdefinition =>
    exact ⟨hkept hdefinition, by simp [marksAt_concat_other hindent hmark]⟩

lemma follows_foldlM (h : ls.foldlM step {} = .ok s) : Follows ls s := by
  induction ls using List.reverseRecOn generalizing s with
  | nil =>
    cases h
    exact ⟨.nil, .nil⟩
  | append_singleton ls l ih =>
    rw [List.foldlM_append] at h
    obtain ⟨t, ht, h⟩ := except_bind_ok.mp h
    obtain ⟨t', hstep, h⟩ := except_bind_ok.mp h
    cases h
    exact (ih ht).step hstep

end Run

/-- **Decorators belong to the function they stand in front of.** The functions of a module are the
lines that define one, in their order, and the decorators of each are the marks right in front of
it. No mark is a decorator of two functions, and none gets past another line that is not
indented. -/
theorem functions_of_parse {source : String} {m : Module} (h : parse source = .ok m) :
    ∃ ls, Line.scan source = .ok ls ∧ List.Forall₂ Defines (definitions ls) m.functions ∧
      ((definitions ls).flatMap fun p => marksAt p.1).Sublist
        (ls.filter fun l => l.indent == 0 && isMark l) ∧
      ∀ before l between, l.indent = 0 → isMark l = false →
        marksAt (before ++ l :: between) = marksAt between := by
  obtain ⟨ls, hscan, hlines⟩ := except_bind_ok.mp h
  obtain ⟨s, hrun, hs⟩ := except_bind_ok.mp hlines
  cases hs
  exact ⟨ls, hscan, (follows_foldlM hrun).functions,
    (List.sublist_append_left _ _).trans (marks_sublist ls),
    fun before l between hindent hmark => marksAt_append_cons hindent hmark before between⟩

/-- A mark in front of a class and one in it, two with an indented import between them, and a
function right behind another one. -/
theorem functions_of_parse_marked :
    ∃ m, parse "@a\nclass C:\n  @b\n@c\n  import y\n@d.e(1)\ndef f(x): 1\ndef h(): 1\n" = .ok m ∧
      m.functions.map (fun f => (f.name, f.decorators.map (·.name))) =
        [("f", ["c", "d.e"]), ("h", [])] ∧
      ∃ ls, Line.scan "@a\nclass C:\n  @b\n@c\n  import y\n@d.e(1)\ndef f(x): 1\ndef h(): 1\n" =
        .ok ls ∧ List.Forall₂ Defines (definitions ls) m.functions := by
  have hread :
      (parse "@a\nclass C:\n  @b\n@c\n  import y\n@d.e(1)\ndef f(x): 1\ndef h(): 1\n").toOption.map
        (fun m => m.functions.map fun f => (f.name, f.decorators.map (·.name))) =
        some [("f", ["c", "d.e"]), ("h", [])] := by decide +kernel
  obtain ⟨m, hparse, hfunctions⟩ := Option.map_eq_some_iff.mp hread
  have hm := toOption_eq_some.mp hparse
  obtain ⟨ls, hscan, hdefines, -⟩ := functions_of_parse hm
  exact ⟨m, hm, hfunctions, ls, hscan, hdefines⟩

end ContractBuild.Python.Module
