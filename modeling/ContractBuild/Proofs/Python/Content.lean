import Mathlib
import ContractBuild.Abi.Extract
import ContractBuild.Proofs.Python.Token

/-!
The contents of comments and literals. Two sources that differ only in what a comment or a literal
says are read alike to the end: behind the comment or the literal the scan is in the same state.
-/

namespace ContractBuild.Python

namespace Line

/-- The scan is neither in a literal nor in a comment. A backslash or two quotes may stand last, and
what they mean is left to what follows. -/
inductive Phase.IsOutside : Phase → Prop where
  | code : IsOutside .code
  | slash : IsOutside .slash
  | slashReturn : IsOutside .slashReturn
  | quoteTwo (q : Char) (opened : ℕ) : IsOutside (.quoteTwo q opened)

/-- What may stand between two quotes without changing where the literal ends. -/
structure IsContent (q : Char) (body : List Char) : Prop where
  nonempty : body ≠ []
  quote : q ∉ body
  slash : '\\' ∉ body
  feed : '\n' ∉ body

section Contents

variable {s t : St} {before body : List Char} {c q : Char} {z : Quoted} {k : ℕ}

/-! ### Comments -/

/-- A comment begins wherever the scan is outside. -/
lemma step_hash (hrun : run init before = .ok s) (hs : s.phase.IsOutside) :
    ∃ t, step s '#' = .ok t ∧ t.phase = .comment := by
  cases hphase : s.phase with
  | code => exact ⟨_, by rw [step, hphase, codeStep_hash], rfl⟩
  | slash => exact ⟨slashStep s '#', by rw [step, hphase]; rfl, by rw [slashStep, codeStep_hash]⟩
  | slashReturn =>
    exact ⟨slashStep s '#', by rw [step, hphase]; rfl, by rw [slashStep, codeStep_hash]⟩
  | quoteTwo q opened =>
    have hne : '#' ≠ q := by
      rcases quote_of_run hrun (q := q) (by rw [hphase]; rfl) with rfl | rfl <;> decide
    exact ⟨codeStep (literal s q) '#', by simp [step, hphase, hne], by rw [codeStep_hash]⟩
  | comment => rw [hphase] at hs; cases hs
  | quoteOne => rw [hphase] at hs; cases hs
  | string => rw [hphase] at hs; cases hs
  | escape => rw [hphase] at hs; cases hs

lemma run_comment (hs : s.phase = .comment) (hbody : '\n' ∉ body) : run s body = .ok s := by
  induction body with
  | nil => rfl
  | cons c body ih =>
    obtain ⟨hc, hbody⟩ := List.ne_and_not_mem_of_not_mem_cons hbody
    have hstep : step s c = .ok s := by simp [step, hs, hc.symm]
    rw [run, List.foldlM_cons, hstep]
    exact ih hbody

/-- The scan is in one state in all comments. -/
lemma exists_run_comment (hrun : run init before = .ok s) (hs : s.phase.IsOutside) :
    ∃ t, ∀ body, '\n' ∉ body → run s ('#' :: body) = .ok t := by
  obtain ⟨t, hstep, ht⟩ := step_hash hrun hs
  refine ⟨t, fun body hbody => ?_⟩
  rw [run, List.foldlM_cons, hstep]
  exact run_comment ht hbody

/-! ### Literals -/

/-- The first quote of a literal has been read, or three of them. -/
inductive Phase.IsOpened (q : Char) : Phase → Prop where
  | one (opened : ℕ) : IsOpened q (.quoteOne q opened)
  | three (opened k : ℕ) : IsOpened q (.string ⟨q, opened, true⟩ k)

/-- A quote opens a literal wherever the scan is outside; after two of them it is the third. -/
lemma step_quote (hs : s.phase.IsOutside) (hq : q = '\'' ∨ q = '"') :
    ∃ t, step s q = .ok t ∧ t.phase.IsOpened q := by
  have hcode : ∀ t : St, (codeStep t q).phase.IsOpened q := fun t => by
    rw [codeStep_quote hq]
    exact .one _
  have hplain : q ≠ '\n' ∧ q ≠ '\r' := by rcases hq with rfl | rfl <;> decide
  cases hphase : s.phase with
  | code => exact ⟨codeStep s q, by rw [step, hphase], hcode s⟩
  | slash => exact ⟨slashStep s q, by simp [step, hphase, hplain], hcode _⟩
  | slashReturn => exact ⟨slashStep s q, by simp [step, hphase, hplain], hcode _⟩
  | quoteTwo q' opened =>
    by_cases hsame : q = q'
    · subst hsame
      exact ⟨{ s with phase := .string ⟨q, opened, true⟩ 0 }, by simp [step, hphase], .three _ _⟩
    · exact ⟨codeStep (literal s q') q, by simp [step, hphase, hsame], hcode _⟩
  | comment => rw [hphase] at hs; cases hs
  | quoteOne => rw [hphase] at hs; cases hs
  | string => rw [hphase] at hs; cases hs
  | escape => rw [hphase] at hs; cases hs

lemma run_string (hs : s.phase = .string z 0) (hquote : z.quote ∉ body) (hslash : '\\' ∉ body)
    (hfeed : '\n' ∉ body) : run s body = .ok s := by
  induction body with
  | nil => rfl
  | cons c body ih =>
    obtain ⟨hc, hquote⟩ := List.ne_and_not_mem_of_not_mem_cons hquote
    obtain ⟨hc', hslash⟩ := List.ne_and_not_mem_of_not_mem_cons hslash
    obtain ⟨hc'', hfeed⟩ := List.ne_and_not_mem_of_not_mem_cons hfeed
    have hstep : step s c = .ok { s with phase := .string z 0 } := by
      simp [step, hs, stringStep, hc.symm, hc'.symm, hc''.symm]
    rw [run, List.foldlM_cons, hstep, ← hs]
    exact ih hquote hslash hfeed

/-- The scan is in one state behind all contents of a literal. The first character of a content
tells that the literal is not an empty one. -/
lemma exists_run_content (hs : s.phase.IsOutside) (hq : q = '\'' ∨ q = '"') :
    ∃ t, ∀ body, IsContent q body → run s (q :: body) = .ok t := by
  obtain ⟨t, hstep, ht⟩ := step_quote hs hq
  obtain ⟨z, hz, hnext⟩ : ∃ z : Quoted, z.quote = q ∧ ∀ c, c ≠ q → c ≠ '\\' → c ≠ '\n' →
      step t c = .ok { t with phase := .string z 0 } := by
    cases hphase : t.phase with
    | quoteOne q' opened =>
      obtain rfl : q' = q := by rw [hphase] at ht; cases ht; rfl
      refine ⟨⟨q', opened, false⟩, rfl, fun c hc hslash hfeed => ?_⟩
      simp [step, hphase, stringStep, hc, hslash, hfeed]
    | string z k =>
      have hz : z.quote = q := by rw [hphase] at ht; cases ht; rfl
      refine ⟨z, hz, fun c hc hslash hfeed => ?_⟩
      simp [step, hphase, stringStep, hz, hc, hslash, hfeed]
    | _ => rw [hphase] at ht; cases ht
  refine ⟨{ t with phase := .string z 0 }, fun body hbody => ?_⟩
  obtain ⟨c, body, rfl⟩ := List.exists_cons_of_ne_nil hbody.nonempty
  obtain ⟨hquote, hquotes⟩ := List.ne_and_not_mem_of_not_mem_cons hbody.quote
  obtain ⟨hslash, hslashes⟩ := List.ne_and_not_mem_of_not_mem_cons hbody.slash
  obtain ⟨hfeed, hfeeds⟩ := List.ne_and_not_mem_of_not_mem_cons hbody.feed
  rw [run, List.foldlM_cons, hstep]
  change run t (c :: body) = _
  rw [run, List.foldlM_cons, hnext c hquote.symm hslash.symm hfeed.symm]
  exact run_string rfl (hz ▸ hquotes) hslashes hfeeds

/-- What stands before and behind decides the logical lines. -/
lemma scan_eq_scanFrom (hrun : run init before = .ok s) {cs : List Char} (hcs : run s cs = .ok t)
    (rest : List Char) : scan (String.ofList (before ++ cs ++ rest)) = scanFrom t rest := by
  have hboth : run init (before ++ cs) = .ok t := by rw [run_append, hrun]; exact hcs
  rw [scan, String.toList_ofList]
  exact scanFrom_append hboth rest

end Contents

end Line

/-- The sources have the same logical lines, imports, functions and methods, or the same fault. -/
structure ReadAlike (a b : List Char) : Prop where
  lines : Line.scan (String.ofList a) = Line.scan (String.ofList b)
  module : Module.parse (String.ofList a) = Module.parse (String.ofList b)
  abi : ∀ name digest,
    Abi.extract name (String.ofList a) digest = Abi.extract name (String.ofList b) digest

lemma readAlike_of_scan {a b : List Char}
    (h : Line.scan (String.ofList a) = Line.scan (String.ofList b)) : ReadAlike a b := by
  have hmodule : Module.parse (String.ofList a) = Module.parse (String.ofList b) := by
    rw [Module.parse, h, Module.parse]
  exact ⟨h, hmodule, fun name digest => by rw [Abi.extract, hmodule, Abi.extract]⟩

/-- **What a comment or a literal says has no influence** on how the source is read, whatever stands
before it and behind it. -/
theorem contents_are_not_read {before : List Char} {s : Line.St}
    (hrun : Line.run Line.init before = .ok s) (hs : s.phase.IsOutside) :
    (∀ body body' rest, '\n' ∉ body → '\n' ∉ body' →
      ReadAlike (before ++ '#' :: body ++ '\n' :: rest) (before ++ '#' :: body' ++ '\n' :: rest)) ∧
    ∀ q body body' rest, q = '\'' ∨ q = '"' → Line.IsContent q body → Line.IsContent q body' →
      ReadAlike (before ++ q :: body ++ q :: rest) (before ++ q :: body' ++ q :: rest) := by
  constructor
  · intro body body' rest hbody hbody'
    obtain ⟨t, ht⟩ := Line.exists_run_comment hrun hs
    refine readAlike_of_scan ?_
    rw [Line.scan_eq_scanFrom hrun (ht body hbody), Line.scan_eq_scanFrom hrun (ht body' hbody')]
  · intro q body body' rest hq hbody hbody'
    obtain ⟨t, ht⟩ := Line.exists_run_content hs hq
    refine readAlike_of_scan ?_
    rw [Line.scan_eq_scanFrom hrun (ht body hbody), Line.scan_eq_scanFrom hrun (ht body' hbody')]

/-- In brackets, after a backslash that joins nothing: an import in a comment, and in a literal with
the other quote and a bracket. -/
theorem contents_are_not_read_bracket :
    ∃ s, Line.run Line.init "@view\ndef f(x=[\\".toList = .ok s ∧ s.phase.IsOutside ∧
      ReadAlike
        ("@view\ndef f(x=[\\".toList ++ '#' :: ")]; import a '".toList ++ '\n' :: "]): 1".toList)
        ("@view\ndef f(x=[\\".toList ++ '#' :: [] ++ '\n' :: "]): 1".toList) ∧
      ReadAlike
        ("@view\ndef f(x=[\\".toList ++ '"' :: ")]; import a '#".toList ++ '"' :: "]): 1".toList)
        ("@view\ndef f(x=[\\".toList ++ '"' :: "b".toList ++ '"' :: "]): 1".toList) := by
  have hrun : ∃ s, Line.run Line.init "@view\ndef f(x=[\\".toList = .ok s ∧ s.phase = .slash :=
    ⟨_, by rfl, rfl⟩
  obtain ⟨s, hrun, hphase⟩ := hrun
  have hs : s.phase.IsOutside := hphase ▸ .slash
  obtain ⟨hcomments, hliterals⟩ := contents_are_not_read hrun hs
  exact ⟨s, hrun, hs, hcomments _ _ _ (by decide) (by decide), hliterals _ _ _ _ (.inr rfl)
    ⟨by decide, by decide, by decide, by decide⟩ ⟨by decide, by decide, by decide, by decide⟩⟩

end ContractBuild.Python
