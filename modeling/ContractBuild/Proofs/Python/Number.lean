import Mathlib
import ContractBuild.Proofs.Python.Place

/-!
The numbers of logical lines. A number is right unless a backslash joins lines in front of the
statement's first character: the scan notes where a statement starts when it has nothing of it
yet, and the blank that stands for the join is something.
-/

namespace ContractBuild.Python.Line

open ContractBuild.Text

/-- What the scan notes as the line of the place after `stmt` and `lead`. -/
structure IsNumber (n : ℕ) (stmt lead : List Char) : Prop where
  le : n ≤ 1 + stmt.count '\n'
  eq : '\n' ∉ lead → n = 1 + stmt.count '\n'

/-- The line `l` after the lines `ls` has its place, and a number that goes with it. -/
def IsPlaced (source : List Char) (ls : List Line) (l : Line) : Prop :=
  ∃ stmt lead c, Place source ls c stmt lead ∧ l.text.toList.head? = some c ∧
    IsNumber l.number stmt lead

section Numbers

variable {source before rest stmt lead nl u g cs : List Char} {s s' : St} {c q : Char} {n : ℕ}

lemma IsNumber.eq_line_iff (h : IsNumber n stmt lead) :
    n = 1 + (stmt ++ lead).count '\n' ↔ '\n' ∉ lead := by
  rw [List.count_append]
  refine ⟨fun heq hmem => ?_, fun hnot => ?_⟩
  · have hle := h.le
    have hpos := List.count_pos_iff.mpr hmem
    omega
  · rw [List.count_eq_zero.mpr hnot, h.eq hnot, Nat.add_zero]

/-- The number is right if it is the line up to which the scan has come. -/
lemma isNumber_line (h : '\n' ∉ lead) : IsNumber (1 + (stmt ++ lead).count '\n') stmt lead := by
  have hsame : (stmt ++ lead).count '\n' = stmt.count '\n' := by
    rw [List.count_append, List.count_eq_zero.mpr h, Nat.add_zero]
  exact ⟨by rw [hsame], fun _ => by rw [hsame]⟩

/-! ### The statement that is being read -/

/-- The statement of which the scan has read a part, or will read the first character next. The
number it has, or would get now, goes with its place. -/
inductive Underway (source before : List Char) (s : St) : Prop where
  | ahead {stmt lead : List Char} (hbefore : before = stmt ++ lead) (hopens : Opens s.done stmt)
      (hlead : IsLead lead) (hdepth : s.depth = 0) (hblank : IsGap s.text)
      (hnumber : IsNumber (begin s).start stmt lead)
  | amid {stmt lead g t : List Char} {c : Char} (hplace : Place source s.done c stmt lead)
      (hg : IsGap g) (htext : s.text = g ++ c :: t) (hnumber : IsNumber (begin s).start stmt lead)

/-- What the scan keeps to between two tokens. -/
structure Counts (source before : List Char) (s : St) : Prop where
  line : s.line = 1 + before.count '\n'
  start : s.start ≤ s.line
  underway : Underway source before s
  done : ∀ ls l ls', s.done = ls ++ l :: ls' → IsPlaced source ls l

lemma start_begin (s : St) : (begin s).start = if s.text = [] then s.line else s.start := by
  unfold begin
  simp only [List.isEmpty_iff]
  split_ifs <;> rfl

lemma Counts.start_begin_le (h : Counts source before s) :
    s.start ≤ (begin s).start ∧ (begin s).start ≤ s.line := by
  have hstart := h.start
  rw [start_begin]
  split_ifs <;> omega

/-- Where a statement may begin. -/
lemma counts_of_run (hrun : run init before = .ok s) (hphase : s.phase = .code)
    (hdepth : s.depth = 0) (htext : s.text = []) (hline : s.line = 1 + before.count '\n')
    (hstart : s.start ≤ s.line)
    (hdone : ∀ ls l ls', s.done = ls ++ l :: ls' → IsPlaced source ls l) :
    Counts source before s where
  line := hline
  start := hstart
  done := hdone
  underway := by
    have hblank : IsGap s.text := htext ▸ isGap_nil
    refine .ahead (List.append_nil before).symm ⟨s, hrun, ⟨hphase, hdepth, hblank, rfl⟩, htext⟩ .nil
      hdepth hblank ?_
    have hnumber : IsNumber (1 + (before ++ []).count '\n') before [] := isNumber_line nofun
    simpa [start_begin, htext, hline] using hnumber

/-- A token `u` from which at most blanks are kept. -/
lemma Counts.underway_blank (h : Counts source before s)
    (hlead : ∀ lead, IsLead lead → IsLead (lead ++ u)) (hcs : IsGap cs)
    (htext : s'.text = s.text ++ cs) (hdepth : s'.depth = s.depth) (hdone : s'.done = s.done)
    (hle : (begin s').start ≤ (begin s).start)
    (hstart : s.text ≠ [] ∨ '\n' ∉ u → (begin s').start = (begin s).start) :
    Underway source (before ++ u) s' := by
  cases h.underway with
  | @ahead stmt lead hbefore hopens hislead hdepth' hblank hnumber =>
    have hbefore' : before ++ u = stmt ++ (lead ++ u) := by rw [hbefore, List.append_assoc]
    refine .ahead hbefore' (hdone ▸ hopens) (hlead lead hislead) (hdepth.trans hdepth') ?_
      ⟨hle.trans hnumber.le, ?_⟩
    · rw [htext]
      exact hblank.append hcs
    · intro hnot
      rw [hstart (.inr fun hu => hnot (List.mem_append_right lead hu))]
      exact hnumber.eq fun hmem => hnot (List.mem_append_left u hmem)
  | @amid stmt lead g t c hplace hg htext' hnumber =>
    refine .amid (t := t ++ cs) (hdone ▸ hplace) hg (by simp [htext, htext']) ?_
    rwa [hstart (.inl (by simp [htext']))]

/-- A token with `c` in front, from which `c :: cs` is kept. -/
lemma Counts.underway_token {after : List Char} (h : Counts source before s)
    (hhere : source = before ++ c :: rest) (hc : s.depth = 0 → IsFirst c rest)
    (htext : s'.text = s.text ++ c :: cs) (hdone : s'.done = s.done)
    (hstart : s'.start = (begin s).start) : Underway source after s' := by
  have hbegin : (begin s').start = (begin s).start := by
    rw [start_begin s', if_neg (by simp [htext]), hstart]
  cases h.underway with
  | @ahead stmt lead hbefore hopens hlead hdepth hblank hnumber =>
    have hplace : Place source s'.done c stmt lead :=
      ⟨hdone ▸ hopens, hlead, rest, hbefore ▸ hhere, hc hdepth⟩
    exact .amid hplace hblank htext (hbegin ▸ hnumber)
  | @amid stmt lead g t x hplace hg htext' hnumber =>
    exact .amid (t := t ++ c :: cs) (hdone ▸ hplace) hg (by simp [htext, htext'])
      (hbegin ▸ hnumber)

/-- A statement that ends becomes a line unless it is blank. -/
lemma Counts.done_finish (h : Counts source before s) (ls : List Line) (l : Line) (ls' : List Line)
    (hdone : (finish s).done = ls ++ l :: ls') : IsPlaced source ls l := by
  cases h.underway with
  | ahead _ _ _ _ hblank _ =>
    exact h.done ls l ls' (by simpa [finish, trim_gap hblank] using hdone)
  | @amid stmt lead g t c hplace hg htext hnumber =>
    obtain ⟨rest, -, hc⟩ := hplace.first
    have hhead := head?_trim hg hc.solid t
    have hne : trim s.text ≠ [] := by
      intro hnil
      simp [← htext, hnil] at hhead
    have hadded : s.done ++ [⟨s.start, s.indent, String.ofList (trim s.text)⟩] =
        ls ++ l :: ls' := by simpa [finish, hne] using hdone
    rcases List.eq_nil_or_concat ls' with rfl | ⟨ls', x, rfl⟩
    · obtain ⟨rfl, hl⟩ := List.append_inj' hadded rfl
      obtain rfl := List.singleton_inj.mp hl
      rw [start_begin, if_neg (by simp [htext])] at hnumber
      exact ⟨stmt, lead, c, hplace, by simpa [htext] using hhead, hnumber⟩
    · rw [List.concat_eq_append, ← List.cons_append, ← List.append_assoc] at hadded
      exact h.done ls l ls' (List.append_inj_left' hadded rfl)

/-! ### Tokens -/

lemma count_trailer {trailer : List Char} (h : IsTrailer trailer) : trailer.count '\n' = 0 := by
  cases h with
  | none => rfl
  | comment hbody => simpa [List.count_eq_zero] using hbody

lemma count_newline (h : IsNewline nl) : nl.count '\n' = 1 := by
  cases h <;> rfl

lemma Counts.passed (h : Counts source before s) (hc : isBlank c = true) (hfeed : c ≠ '\n')
    (column : ℕ) : Counts source (before ++ [c]) { s with column } where
  line := by rw [List.count_append, count_of_ne hfeed, Nat.add_zero, ← h.line]
  start := h.start
  underway := by
    have hsame : (begin { s with column }).start = (begin s).start := by simp only [start_begin]
    exact h.underway_blank (fun _ hlead => .blank hc hfeed hlead) isGap_nil
      (List.append_nil _).symm rfl rfl hsame.le fun _ => hsame
  done := h.done

lemma Counts.plain (h : Counts source before s) (hsource : source = before ++ c :: rest)
    (hc : IsKept s.depth c) (hjoin : c = '\\' → ¬ StartsNewline rest) :
    Counts source (before ++ [c]) (plain s c) where
  line := by
    rw [line_plain, List.count_append, count_of_ne hc.ne_newline, Nat.add_zero, h.line]
  start := by
    rw [start_plain, line_plain]
    exact h.start_begin_le.2
  underway := by
    by_cases hblank : isBlank c = true
    · have hsame : (begin (Line.plain s c)).start = (begin s).start := by
        rw [start_begin, if_neg (by simp [text_plain]), start_plain]
      refine h.underway_blank (fun _ hlead => .blank hblank hc.ne_newline hlead)
        (isGap_singleton hblank)
        (text_plain s c) ?_ (done_plain s c) hsame.le fun _ => hsame
      · simp [depth_plain, depthAfter, isOpening_of_isBlank hblank]
    · have hfirst : s.depth = 0 → IsFirst c rest := by
        refine fun hdepth => ⟨by simpa using hblank, fun hmem => ?_, hjoin⟩
        have hother := hc.other
        have hinside := hc.inside
        simp_all
      exact h.underway_token hsource hfirst (text_plain s c) (done_plain s c) (start_plain s c)
  done := by
    rw [done_plain]
    exact h.done

lemma Counts.join (h : Counts source before s) (hnl : IsNewline nl) :
    Counts source (before ++ '\\' :: nl) (join s) where
  line := by
    have hcount : ('\\' :: nl).count '\n' = 1 := by simpa using count_newline hnl
    rw [List.count_append, hcount, ← Nat.add_assoc, ← h.line]
    rfl
  start := Nat.le_succ_of_le h.start
  underway := by
    have hstart : (begin (Line.join s)).start = s.start := by simp [start_begin, Line.join, push]
    have hspace : IsGap [' '] := isGap_singleton (by decide)
    refine h.underway_blank (fun _ hlead => .join hnl hlead) hspace rfl rfl rfl
      (hstart ▸ h.start_begin_le.1) fun hu => ?_
    have hmem : '\n' ∈ '\\' :: nl := List.mem_cons_of_mem _ (by cases hnl <;> decide)
    rw [hstart, start_begin, if_neg (hu.resolve_right fun hnot => hnot hmem)]
  done := h.done

lemma Counts.literal {body : List Char} (h : Counts source before s) (hq : q = '\'' ∨ q = '"')
    (hsource : source = before ++ (q :: body ++ rest)) :
    Counts source (before ++ q :: body)
      { literal (begin s) q with line := s.line + body.count '\n' } where
  line := by
    have hcount : (q :: body).count '\n' = body.count '\n' :=
      List.count_cons_of_ne (ne_of_quote hq).2
    rw [List.count_append, hcount, ← Nat.add_assoc, ← h.line]
  start := Nat.le_add_right_of_le h.start_begin_le.2
  underway := by
    have hfirst : IsFirst q (body ++ rest) := by
      refine ⟨?_, ?_, (absurd · (ne_of_quote hq).1)⟩ <;> rcases hq with rfl | rfl <;> decide
    have htext : (Line.literal (begin s) q).text = s.text ++ [q, q] := by
      simp [Line.literal, push]
    exact h.underway_token hsource (fun _ => hfirst) htext (done_begin s) rfl
  done := by
    have hdone : (Line.literal (begin s) q).done = s.done := done_begin s
    exact hdone ▸ h.done

lemma Counts.newline {trailer : List Char} (h : Counts source before s)
    (htrailer : IsTrailer trailer)
    (hrun : run init (before ++ trailer ++ ['\n']) = .ok (newline s)) :
    Counts source (before ++ trailer ++ ['\n']) (newline s) := by
  have hline : s.line + 1 = 1 + (before ++ trailer ++ ['\n']).count '\n' := by
    simp [count_trailer htrailer, h.line]
    omega
  have hphase := phase_newline s
  unfold Line.newline at hrun hphase ⊢
  dsimp only at hrun hphase ⊢
  split_ifs at hrun hphase ⊢ with hdepth
  · cases h.underway with
    | ahead _ _ _ hdepth' _ _ => exact absurd hdepth' hdepth.ne'
    | @amid stmt lead g t c hplace hg htext hnumber =>
      refine ⟨hline, Nat.le_succ_of_le h.start, ?_, h.done⟩
      refine .amid (t := t ++ [' ']) hplace hg (by simp [push, htext]) ?_
      rw [start_begin, if_neg (by simp [htext])] at hnumber
      rwa [start_begin, if_neg (by simp [push])]
  · exact counts_of_run hrun hphase (Nat.eq_zero_of_not_pos hdepth) rfl hline
      (Nat.le_succ_of_le h.start) h.done_finish

lemma counts_of_between (h : Between source before rest s) : Counts source before s := by
  induction h with
  | start =>
    have hdone : ∀ ls l ls', init.done = ls ++ l :: ls' → IsPlaced source ls l := by
      simp [init]
    exact counts_of_run rfl rfl rfl rfl rfl (Nat.le_refl _) hdone
  | indent _ hblank hfeed column _ ih => exact ih.passed hblank hfeed column
  | @skip _ _ s _ ih => exact ih.passed (by decide) (by decide) s.column
  | plain hc hjoin h ih => exact ih.plain h.source_eq hc hjoin
  | join hnl _ ih => exact ih.join hnl
  | literal hq h ih => exact ih.literal hq h.source_eq
  | newline htrailer _ hrun ih => exact ih.newline htrailer hrun
  | semicolon hdepth h hrun ih =>
    refine counts_of_run hrun h.phase hdepth rfl ?_ ih.start ih.done_finish
    simpa [semicolon, finish] using ih.line

/-- **When the number of a logical line is right.** The first character of the text stands on the
line of that number exactly if no lines are joined in front of it, whatever else stands before the
statement. A number that is not right is too small. -/
theorem number_of_scan {source : String} {ls ls' : List Line} {l : Line}
    (h : scan source = .ok (ls ++ l :: ls')) :
    ∃ stmt lead c, Place source.toList ls c stmt lead ∧
      (∀ stmt' lead' c', Place source.toList ls c' stmt' lead' → stmt' ++ lead' = stmt ++ lead) ∧
      l.text.toList.head? = some c ∧ l.number ≤ 1 + stmt.count '\n' ∧
      (l.number = 1 + (stmt ++ lead).count '\n' ↔ '\n' ∉ lead) := by
  obtain ⟨before, trailer, s, hs, -, hclose⟩ := between_of_scan h
  obtain ⟨stmt, lead, c, hplace, hfirst, hnumber⟩ :=
    (counts_of_between hs).done_finish ls l ls' (close_eq_ok hclose).1
  exact ⟨stmt, lead, c, hplace, fun _ _ _ hplace' => hplace'.unique hplace, hfirst, hnumber.le,
    hnumber.eq_line_iff⟩

/-- After a literal of two lines, a comment and a blank line, a statement of two lines. -/
theorem number_of_scan_docstring :
    scan "'''a\nb'''; # c\n\n\tx = (1,\n2)" = .ok [⟨1, 0, "''"⟩, ⟨4, 8, "x = (1, 2)"⟩] ∧
      Place "'''a\nb'''; # c\n\n\tx = (1,\n2)".toList [⟨1, 0, "''"⟩] 'x'
        "'''a\nb'''; # c\n\n".toList "\t".toList ∧
      ∃ stmt lead, stmt ++ lead = "'''a\nb'''; # c\n\n\t".toList ∧ '\n' ∉ lead ∧
        4 = 1 + (stmt ++ lead).count '\n' := by
  have h : scan "'''a\nb'''; # c\n\n\tx = (1,\n2)" =
      .ok ([⟨1, 0, "''"⟩] ++ ⟨4, 8, "x = (1, 2)"⟩ :: []) := by rfl
  have hplace : Place "'''a\nb'''; # c\n\n\tx = (1,\n2)".toList [⟨1, 0, "''"⟩] 'x'
      "'''a\nb'''; # c\n\n".toList "\t".toList :=
    ⟨⟨_, by rfl, ⟨rfl, rfl, isGap_nil, rfl⟩, rfl⟩, .blank (by decide) (by decide) .nil,
      _, by rfl, by decide, by decide, nofun⟩
  obtain ⟨stmt, lead, c, -, hunique, -, -, hnumber⟩ := number_of_scan h
  have hsame := hunique _ _ _ hplace
  have hline : 4 = 1 + (stmt ++ lead).count '\n' := by rw [← hsame]; decide
  exact ⟨h, hplace, stmt, lead, hsame.symm, hnumber.mp hline, hline⟩

/-- The second statement is on line 3, and the scan gives it the number of the first. -/
theorem number_of_joined_is_stale :
    scan "a\n\\\nb\n" = .ok [⟨1, 0, "a"⟩, ⟨1, 0, "b"⟩] ∧
      Place "a\n\\\nb\n".toList [⟨1, 0, "a"⟩] 'b' "a\n".toList "\\\n".toList ∧
      1 + ("a\n".toList ++ "\\\n".toList).count '\n' = 3 :=
  ⟨by rfl, ⟨⟨_, by rfl, ⟨rfl, rfl, isGap_nil, rfl⟩, rfl⟩, .join .feed .nil, ['\n'], by rfl,
    by decide, by decide, nofun⟩, by decide⟩

end Numbers

end ContractBuild.Python.Line
