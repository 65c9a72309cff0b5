import Mathlib
import ContractBuild.Proofs.Python.Token
import ContractBuild.Proofs.Text.Nested

/-!
The form of a logical line's text. Whoever reads the text after the scan knows nothing of literals,
comments or joined lines; what makes that safe is said here, and that the scan keeps to it.
-/

namespace ContractBuild.Python.Line

open ContractBuild.Text

/-! ### The form of a text -/

/-- The bracket depth at the end of a text. -/
def depthOf (text : List Char) : ℕ := text.foldl depthAfter 0

/-- Every longest run of `q` in the text is of even length. -/
def EvenRuns (q : Char) (text : List Char) : Prop :=
  ∀ before n after, text = before ++ List.replicate n q ++ after →
    before.getLast? ≠ some q → after.head? ≠ some q → Even n

/-- A text whose literals have shrunk to their quotes, without comments and ends of line, and with
semicolons only in brackets. -/
structure IsShrunk (text : List Char) : Prop where
  chars : ∀ c ∈ text, c ∉ ['\n', '\r', '#']
  quotes : ∀ q, q = '\'' ∨ q = '"' → EvenRuns q text
  semicolons : ∀ before, before ++ [';'] <+: text → 0 < depthOf before

/-- The text of a logical line. Its brackets may be of different kinds, and closing ones may be too
many. -/
structure IsNormal (text : List Char) : Prop extends IsShrunk text where
  nonempty : text ≠ []
  solid : IsSolid text
  depth : depthOf text = 0

section Texts

variable {text cs g g' : List Char} {c q : Char}

@[simp] lemma depthOf_concat (text : List Char) (c : Char) :
    depthOf (text ++ [c]) = depthAfter (depthOf text) c := by simp [depthOf]

lemma depthAfter_of_not_bracket (h : isOpening c = false ∧ isClosing c = false) (d : ℕ) :
    depthAfter d c = d := by simp [depthAfter, h]

lemma foldl_depthAfter (h : ∀ c ∈ cs, isOpening c = false ∧ isClosing c = false) (d : ℕ) :
    cs.foldl depthAfter d = d := by
  induction cs with
  | nil => rfl
  | cons c cs ih =>
    obtain ⟨hc, hcs⟩ := List.forall_mem_cons.mp h
    rw [List.foldl_cons, depthAfter_of_not_bracket hc, ih hcs]

lemma foldl_depthAfter_gap (hg : IsGap g) (d : ℕ) : g.foldl depthAfter d = d :=
  foldl_depthAfter (fun c hc => isOpening_of_isBlank (hg c hc)) d

lemma depthOf_gap_append (hg : IsGap g) (text : List Char) :
    depthOf (g ++ text) = depthOf text := by
  rw [depthOf, List.foldl_append, foldl_depthAfter_gap hg, depthOf]

lemma depthOf_append_gap (hg : IsGap g) (text : List Char) :
    depthOf (text ++ g) = depthOf text := by
  rw [depthOf, List.foldl_append, foldl_depthAfter_gap hg, depthOf]

@[simp] lemma depthOf_trim (text : List Char) : depthOf (trim text) = depthOf text := by
  obtain ⟨g, g', hg, hg', heq⟩ := exists_gaps text
  conv_rhs => rw [heq, depthOf_append_gap hg', depthOf_gap_append hg]

/-! ### Runs of quotes -/

lemma evenRuns_nil (q : Char) : EvenRuns q [] := by
  intro before n after heq _ _
  obtain ⟨-, rfl, -⟩ : before = [] ∧ n = 0 ∧ after = [] := by simpa using heq.symm
  exact Even.zero

/-- In a longer text, what is new are the runs that reach into `cs`. -/
lemma EvenRuns.append (h : EvenRuns q text)
    (hcs : ∀ before n rest after, text ++ rest = before ++ List.replicate n q →
      cs = rest ++ after → before.getLast? ≠ some q → after.head? ≠ some q → Even n) :
    EvenRuns q (text ++ cs) := by
  intro before n after heq hbefore hafter
  rcases List.append_eq_append_iff.mp heq with ⟨rest, hrun, hrest⟩ | ⟨rest, htext, hrest⟩
  · exact hcs before n rest after hrun.symm hrest hbefore hafter
  · refine h before n rest htext hbefore fun hhead => hafter ?_
    rw [hrest, List.head?_append, hhead]
    rfl

/-- A character other than `q` may follow any run of it. -/
lemma EvenRuns.concat (h : EvenRuns q text) (hc : c ≠ q) : EvenRuns q (text ++ [c]) := by
  refine h.append fun before n rest after hrun hrest hbefore hafter => ?_
  rcases List.append_eq_singleton_iff.mp hrest.symm with ⟨rfl, -⟩ | ⟨rfl, -⟩
  · exact h before n [] (by simpa using hrun) hbefore nofun
  · cases n with
    | zero => exact Even.zero
    | succ n =>
      rw [List.replicate_succ', ← List.append_assoc] at hrun
      exact absurd (List.append_inj_right' hrun rfl) (by simpa using hc)

/-- Two quotes more make no difference to the run they join. -/
lemma EvenRuns.quotes (h : EvenRuns q text) : EvenRuns q (text ++ [q, q]) := by
  refine h.append fun before n rest after hrun hrest hbefore hafter => ?_
  obtain rfl : after = [] := by
    cases after with
    | nil => rfl
    | cons x after =>
      have hx : x ∈ [q, q] := hrest ▸ List.mem_append_right rest List.mem_cons_self
      exact absurd (by simpa using hx) hafter
  rw [List.append_nil] at hrest
  subst hrest
  match n with
  | 0 => exact Even.zero
  | 1 =>
    have htwice : text ++ [q] ++ [q] = before ++ [q] := by simpa using hrun
    simp [← List.append_cancel_right htwice] at hbefore
  | n + 2 =>
    have hshort : text = before ++ List.replicate n q := by
      rw [List.replicate_add, ← List.append_assoc] at hrun
      exact List.append_cancel_right hrun
    exact (h before n [] (by simpa using hshort) hbefore nofun).add even_two

/-! ### What may be added, and what trimming leaves -/

lemma isShrunk_nil : IsShrunk [] where
  chars := nofun
  quotes q _ := evenRuns_nil q
  semicolons before h := by simp at h

lemma prefix_concat_cases {before : List Char} {x : Char} (h : before ++ [x] <+: text ++ [c]) :
    before ++ [x] <+: text ∨ before = text ∧ x = c := by
  rcases List.prefix_concat_iff.mp h with heq | hpre
  · obtain ⟨rfl, hx⟩ := List.append_inj' heq rfl
    exact .inr ⟨rfl, List.singleton_inj.mp hx⟩
  · exact .inl hpre

lemma IsShrunk.concat (h : IsShrunk text) (hc : IsKept (depthOf text) c) :
    IsShrunk (text ++ [c]) where
  chars x hx := by
    rcases List.mem_append.mp hx with hx | hx
    · exact h.chars x hx
    · have hother := hc.other
      simp_all
  quotes q hq := by
    refine (h.quotes q hq).concat ?_
    rintro rfl
    have hother := hc.other
    rcases hq with rfl | rfl <;> simp at hother
  semicolons before hbefore := by
    rcases prefix_concat_cases hbefore with hpre | ⟨rfl, hx⟩
    · exact h.semicolons before hpre
    · exact hc.inside hx.symm

lemma IsShrunk.literal (h : IsShrunk text) (hq : q = '\'' ∨ q = '"') :
    IsShrunk (text ++ [q, q]) where
  chars x hx := by
    rcases List.mem_append.mp hx with hx | hx
    · exact h.chars x hx
    · obtain rfl : x = q := by simpa using hx
      rcases hq with rfl | rfl <;> decide
  quotes q' hq' := by
    by_cases hne : q = q'
    · exact hne ▸ (h.quotes q hq).quotes
    · simpa using ((h.quotes q' hq').concat hne).concat hne
  semicolons before hbefore := by
    have hsemicolon : ';' ≠ q := by rcases hq with rfl | rfl <;> decide
    have htwice : before ++ [';'] <+: text ++ [q] ++ [q] := by simpa using hbefore
    have honce := (prefix_concat_cases htwice).resolve_right fun h => hsemicolon h.2
    exact h.semicolons before ((prefix_concat_cases honce).resolve_right fun h => hsemicolon h.2)

/-- A blank next to a run is not of it. -/
lemma EvenRuns.of_gaps (h : EvenRuns q (g ++ text ++ g')) (hg : IsGap g) (hg' : IsGap g')
    (hq : isBlank q = false) : EvenRuns q text := by
  intro before n after hrun hbefore hafter
  refine h (g ++ before) n (after ++ g') (by simp [hrun]) (fun hlast => ?_) (fun hhead => ?_)
  · rcases List.eq_nil_or_concat before with rfl | ⟨before, x, rfl⟩
    · rw [List.append_nil] at hlast
      exact hg.not_mem hq (List.mem_of_getLast? hlast)
    · simp_all
  · cases after with
    | nil => exact hg'.not_mem hq (List.mem_of_mem_head? hhead)
    | cons x after => simp_all

lemma IsShrunk.trim (h : IsShrunk text) : IsShrunk (trim text) := by
  obtain ⟨g, g', hg, hg', heq⟩ := exists_gaps text
  refine ⟨fun c hc => h.chars c (mem_of_mem_trim hc), fun q hq => ?_, fun before hbefore => ?_⟩
  · have hblank : isBlank q = false := by rcases hq with rfl | rfl <;> decide
    have hruns := h.quotes q hq
    rw [heq] at hruns
    exact hruns.of_gaps hg hg' hblank
  · have hpre : g ++ before ++ [';'] <+: text := by
      rw [heq, List.append_assoc, List.append_assoc, List.prefix_append_right_inj]
      exact hbefore.trans (List.prefix_append _ _)
    rw [← depthOf_gap_append hg]
    exact h.semicolons _ hpre

lemma IsShrunk.isNormal_trim (h : IsShrunk text) (hdepth : depthOf text = 0)
    (hne : Text.trim text ≠ []) : IsNormal (Text.trim text) where
  toIsShrunk := h.trim
  nonempty := hne
  solid := isSolid_trim text
  depth := by rw [depthOf_trim, hdepth]

end Texts

/-! ### The scan -/

/-- What the scan keeps to between two tokens. -/
structure Keeps (s : St) : Prop where
  text : IsShrunk s.text
  depth : s.depth = depthOf s.text
  done : ∀ l ∈ s.done, IsNormal l.text.toList

section Scan

variable {source before rest : List Char} {s s' : St} {c q : Char}

/-- Joined lines have a blank between them. -/
lemma Keeps.space (h : Keeps s) (htext : s'.text = s.text ++ [' ']) (hdepth : s'.depth = s.depth)
    (hdone : s'.done = s.done) : Keeps s' where
  text := by
    rw [htext]
    exact h.text.concat ⟨by decide, nofun⟩
  depth := by
    have hspace : depthAfter (depthOf s.text) ' ' = depthOf s.text :=
      depthAfter_of_not_bracket (by decide) _
    rw [htext, hdepth, depthOf_concat, hspace, h.depth]
  done := hdone ▸ h.done

lemma Keeps.plain (h : Keeps s) (hc : IsKept s.depth c) : Keeps (plain s c) where
  text := by
    rw [h.depth] at hc
    rw [text_plain]
    exact h.text.concat hc
  depth := by rw [depth_plain, text_plain, depthOf_concat, h.depth]
  done := by
    rw [done_plain]
    exact h.done

lemma Keeps.literal (h : Keeps s) (hq : q = '\'' ∨ q = '"') (line : ℕ) :
    Keeps { literal (begin s) q with line } where
  text := by simpa [Line.literal, push] using h.text.literal hq
  depth := by
    have hquote : isOpening q = false ∧ isClosing q = false := by
      rcases hq with rfl | rfl <;> decide
    simp [Line.literal, push, h.depth, depthOf, depthAfter_of_not_bracket hquote]
  done := by simpa [Line.literal, push] using h.done

/-- A statement ends outside brackets, or there is nothing of it. -/
lemma Keeps.done_finish (h : Keeps s) (hend : s.depth = 0 ∨ trim s.text = []) :
    ∀ l ∈ (finish s).done, IsNormal l.text.toList := by
  intro l hl
  by_cases hempty : trim s.text = []
  · exact h.done l (by simpa [finish, hempty] using hl)
  · have hdepth : depthOf s.text = 0 := h.depth ▸ hend.resolve_right hempty
    have hadded : l ∈ s.done ∨ l = ⟨s.start, s.indent, String.ofList (trim s.text)⟩ := by
      simpa [finish, hempty] using hl
    rcases hadded with hold | rfl
    · exact h.done l hold
    · simpa using h.text.isNormal_trim hdepth hempty

lemma Keeps.newline (h : Keeps s) : Keeps (newline s) := by
  unfold Line.newline
  dsimp only
  split_ifs with hdepth
  · exact h.space rfl rfl rfl
  · have hzero : s.depth = 0 := Nat.eq_zero_of_not_pos hdepth
    exact ⟨isShrunk_nil, hzero, h.done_finish (.inl hzero)⟩

lemma keeps_of_between (h : Between source before rest s) : Keeps s := by
  induction h with
  | start => exact ⟨isShrunk_nil, rfl, nofun⟩
  | indent _ _ _ _ _ ih => exact ⟨ih.text, ih.depth, ih.done⟩
  | skip _ ih => exact ih
  | plain hc _ _ ih => exact ih.plain hc
  | join _ _ ih => exact ih.space rfl rfl rfl
  | literal hq _ ih => exact ih.literal hq _
  | newline _ _ _ ih => exact ih.newline
  | semicolon hdepth _ _ ih => exact ⟨isShrunk_nil, hdepth, ih.done_finish (.inl hdepth)⟩

/-- **Every logical line is in normal form**, whatever the source. -/
theorem isNormal_of_scan {source : String} {ls : List Line} (h : scan source = .ok ls) :
    ∀ l ∈ ls, IsNormal l.text.toList := by
  obtain ⟨before, trailer, s, hs, -, hclose⟩ := between_of_scan h
  obtain ⟨rfl, hend⟩ := close_eq_ok hclose
  exact (keeps_of_between hs).done_finish hend

/-- Closing brackets that close nothing, a semicolon in brackets, and a literal of two lines. -/
theorem isNormal_of_scan_ragged :
    ∃ ls, scan ")]) ;( ;)\n'a''b'\"\"\"x;\n\"\"\";#" = .ok ls ∧
      ls.map (·.text) = [")])", "( ;)", "''''\"\""] ∧ ∀ l ∈ ls, IsNormal l.text.toList := by
  have h : scan ")]) ;( ;)\n'a''b'\"\"\"x;\n\"\"\";#" =
      .ok [⟨1, 0, ")])"⟩, ⟨1, 0, "( ;)"⟩, ⟨2, 0, "''''\"\""⟩] := by rfl
  exact ⟨_, h, rfl, isNormal_of_scan h⟩

end Scan

end ContractBuild.Python.Line
