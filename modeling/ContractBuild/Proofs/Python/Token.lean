import Mathlib
import ContractBuild.Proofs.Python.Line

/-!
The scan as a sequence of tokens. Between two tokens the scan needs no memory of the characters just
read; what each kind of token does to its state is said here once, whatever the scan met before, and
an invariant of the scan is an induction over its tokens.
-/

namespace ContractBuild.Python.Line

open ContractBuild.Text

/-! ### Tokens -/

/-- What may stand before the end of a physical line: nothing or a comment. -/
inductive IsTrailer : List Char → Prop where
  | none : IsTrailer []
  | comment {body : List Char} (hbody : '\n' ∉ body) : IsTrailer ('#' :: body)

/-- The text begins with an end of line. -/
def StartsNewline (rest : List Char) : Prop := ∃ nl after, IsNewline nl ∧ rest = nl ++ after

/-- A character that stays in a statement's text as it is, with `d` brackets open before it. -/
structure IsKept (d : ℕ) (c : Char) : Prop where
  other : c ∉ ['\n', '\r', '#', '\'', '"']
  inside : c = ';' → 0 < d

/-- **The scan between two tokens**: it has read the source up to `before`, with `rest` left, and is
in state `s`. A backslash is a token of its own where it joins nothing. Where a statement has ended,
the scan has nothing to look back on, and its run is in this state. -/
inductive Between (source : List Char) : List Char → List Char → St → Prop where
  | start : Between source [] source init
  | indent {before rest : List Char} {s : St} {c : Char} (hempty : s.text = [])
      (hblank : isBlank c = true) (hfeed : c ≠ '\n') (column : ℕ)
      (h : Between source before (c :: rest) s) :
      Between source (before ++ [c]) rest { s with column }
  | skip {before rest : List Char} {s : St} (h : Between source before ('\r' :: rest) s) :
      Between source (before ++ ['\r']) rest s
  | plain {before rest : List Char} {s : St} {c : Char} (hc : IsKept s.depth c)
      (hjoin : c = '\\' → ¬ StartsNewline rest) (h : Between source before (c :: rest) s) :
      Between source (before ++ [c]) rest (plain s c)
  | join {before nl rest : List Char} {s : St} (hnl : IsNewline nl)
      (h : Between source before ('\\' :: nl ++ rest) s) :
      Between source (before ++ '\\' :: nl) rest (join s)
  | literal {before body rest : List Char} {s : St} {q : Char} (hq : q = '\'' ∨ q = '"')
      (h : Between source before (q :: body ++ rest) s) :
      Between source (before ++ q :: body) rest
        { literal (begin s) q with line := s.line + body.count '\n' }
  | newline {before trailer rest : List Char} {s : St} (htrailer : IsTrailer trailer)
      (h : Between source before (trailer ++ '\n' :: rest) s)
      (hrun : run init (before ++ trailer ++ ['\n']) = .ok (newline s)) :
      Between source (before ++ trailer ++ ['\n']) rest (newline s)
  | semicolon {before rest : List Char} {s : St} (hdepth : s.depth = 0)
      (h : Between source before (';' :: rest) s)
      (hrun : run init (before ++ [';']) = .ok (semicolon s)) :
      Between source (before ++ [';']) rest (semicolon s)

section Tokens

variable {source before rest body cs : List Char} {s s' : St} {c q : Char} {p : Phase} {f : Fault}

lemma IsKept.ne_newline {d : ℕ} (h : IsKept d c) : c ≠ '\n' := by
  rintro rfl
  exact h.other (by decide)

lemma phase_newline (s : St) : (newline s).phase = .code := by
  unfold newline
  dsimp only
  split_ifs <;> rfl

lemma phase_semicolon (s : St) : (semicolon s).phase = s.phase := rfl

lemma line_begin (s : St) : (begin s).line = s.line := by
  unfold begin
  split_ifs <;> rfl

lemma phase_plain (s : St) (c : Char) : (plain s c).phase = s.phase := by simp [plain, push]

lemma text_plain (s : St) (c : Char) : (plain s c).text = s.text ++ [c] := by simp [plain, push]

lemma depth_plain (s : St) (c : Char) : (plain s c).depth = depthAfter s.depth c := by
  simp [plain, push]

lemma line_plain (s : St) (c : Char) : (plain s c).line = s.line := by
  simp [plain, push, line_begin]

lemma start_plain (s : St) (c : Char) : (plain s c).start = (begin s).start := by
  simp [plain, push]

lemma Between.phase (h : Between source before rest s) : s.phase = .code := by
  induction h with
  | start => rfl
  | indent _ _ _ _ _ ih => exact ih
  | skip _ ih => exact ih
  | plain _ _ _ ih => rw [phase_plain, ih]
  | join _ _ _ => rfl
  | literal _ _ _ => rfl
  | newline _ _ _ _ => exact phase_newline _
  | semicolon _ _ _ ih => rw [phase_semicolon, ih]

lemma Between.source_eq (h : Between source before rest s) : source = before ++ rest := by
  induction h with
  | start => rfl
  | indent _ _ _ _ _ ih => simpa using ih
  | skip _ ih => simpa using ih
  | plain _ _ _ ih => simpa using ih
  | join _ _ ih => simpa using ih
  | literal _ _ ih => simpa using ih
  | newline _ _ _ ih => simpa using ih
  | semicolon _ _ _ ih => simpa using ih

/-! ### In the middle of a token -/

/-- The quote of the literal that is open. -/
def Phase.quote? : Phase → Option Char
  | .quoteOne q _ | .quoteTwo q _ => some q
  | .string z _ | .escape z => some z.quote
  | _ => none

/-- The scan stands between two tokens or in the middle of one, of which it has read a part. -/
inductive Midway (source : List Char) : List Char → List Char → St → Prop where
  | code {before rest : List Char} {s : St} (h : Between source before rest s) :
      Midway source before rest s
  | comment {before body rest : List Char} {s : St} (hbody : '\n' ∉ body)
      (h : Between source before ('#' :: body ++ rest) s) :
      Midway source (before ++ '#' :: body) rest { s with phase := .comment }
  | slash {before rest : List Char} {s : St} (h : Between source before ('\\' :: rest) s) :
      Midway source (before ++ ['\\']) rest { s with phase := .slash }
  | slashReturn {before rest : List Char} {s : St}
      (h : Between source before ('\\' :: '\r' :: rest) s) :
      Midway source (before ++ ['\\', '\r']) rest { s with phase := .slashReturn }
  | literal {before body rest : List Char} {s : St} {q : Char} {p : Phase}
      (hq : q = '\'' ∨ q = '"') (hp : p.quote? = some q)
      (h : Between source before (q :: body ++ rest) s) :
      Midway source (before ++ q :: body) rest
        { begin s with phase := p, line := s.line + body.count '\n' }

/-- What a character does between two tokens. -/
inductive CodeStep (s : St) : Char → St → Prop where
  | comment : CodeStep s '#' { s with phase := .comment }
  | newline : CodeStep s '\n' (newline s)
  | skip : CodeStep s '\r' s
  | slash : CodeStep s '\\' { s with phase := .slash }
  | quote {q : Char} (hq : q = '\'' ∨ q = '"') :
      CodeStep s q { begin s with phase := .quoteOne q s.line }
  | semicolon (hdepth : s.depth = 0) : CodeStep s ';' (semicolon s)
  | indent {c : Char} (hempty : s.text = []) (hblank : isBlank c = true) (hfeed : c ≠ '\n')
      (column : ℕ) : CodeStep s c { s with column }
  | plain {c : Char} (hc : IsKept s.depth c) (hslash : c ≠ '\\') : CodeStep s c (plain s c)

lemma codeStep_of_isKept (hc : IsKept s.depth c) (hslash : c ≠ '\\') :
    (s.text = [] ∧ isBlank c = true ∧ ∃ column, codeStep s c = { s with column }) ∨
      codeStep s c = Line.plain s c := by
  by_cases hplain : isPlain c = true
  · exact codeStep_of_isPlain hplain
  by_cases hbracket : isOpening c = true ∨ isClosing c = true
  · exact .inr (codeStep_bracket hbracket)
  · obtain rfl : c = ';' := by
      have hother := hc.other
      simp_all [isPlain]
    have hdepth := (hc.inside rfl).ne'
    exact .inr (by simp [codeStep, hdepth])

lemma codeStep_cases (s : St) (c : Char) : CodeStep s c (codeStep s c) := by
  by_cases hhash : c = '#'
  · rw [hhash, codeStep_hash]
    exact .comment
  by_cases hnewline : c = '\n'
  · rw [hnewline, codeStep_newline]
    exact .newline
  by_cases hreturn : c = '\r'
  · rw [hreturn, codeStep_return]
    exact .skip
  by_cases hslash : c = '\\'
  · rw [hslash, codeStep_slash]
    exact .slash
  by_cases hquote : c = '\'' ∨ c = '"'
  · rw [codeStep_quote hquote]
    exact .quote hquote
  by_cases hsemicolon : c = ';' ∧ s.depth = 0
  · rw [hsemicolon.1, codeStep_semicolon hsemicolon.2]
    exact .semicolon hsemicolon.2
  · have hc : IsKept s.depth c :=
      ⟨by simp_all, fun hc => Nat.pos_of_ne_zero fun hdepth => hsemicolon ⟨hc, hdepth⟩⟩
    rcases codeStep_of_isKept hc hslash with ⟨hempty, hblank, column, hstep⟩ | hstep
    · rw [hstep]
      exact .indent hempty hblank hnewline column
    · rw [hstep]
      exact .plain hc hslash

/-- A character that is read between two tokens begins one or is one. -/
lemma Between.codeStep (h : Between source before (c :: rest) s)
    (hrun : run init (before ++ [c]) = .ok (codeStep s c)) :
    Midway source (before ++ [c]) rest (codeStep s c) := by
  have hcase := codeStep_cases s c
  generalize Line.codeStep s c = s' at hrun hcase ⊢
  cases hcase with
  | comment =>
    have hnone : '\n' ∉ ([] : List Char) := List.not_mem_nil
    exact .comment hnone h
  | newline => simpa using Midway.code (.newline .none h (by simpa using hrun))
  | skip => exact .code (.skip h)
  | slash => exact .slash h
  | quote hq =>
    have hline : { begin s with phase := .quoteOne c s.line } =
        { begin s with phase := .quoteOne c s.line, line := s.line + [].count '\n' } := by
      rw [List.count_nil, Nat.add_zero, ← line_begin s]
    rw [hline]
    exact .literal hq rfl h
  | semicolon hdepth => exact .code (.semicolon hdepth h hrun)
  | indent hempty hblank hfeed column => exact .code (.indent hempty hblank hfeed column h)
  | plain hc hslash => exact .code (.plain hc (absurd · hslash) h)

lemma run_concat {cs : List Char} (c : Char) (h : run s cs = .ok s') :
    run s (cs ++ [c]) = step s' c := by
  have hrun : run s (cs ++ [c]) = run s cs >>= fun t => step t c := by
    rw [run, List.foldlM_append]
    exact bind_congr fun t => bind_pure _
  rw [hrun, h]
  rfl

lemma run_append (s : St) (cs cs' : List Char) : run s (cs ++ cs') = run s cs >>= (run · cs') := by
  rw [run, List.foldlM_append]
  rfl

lemma scanFrom_append (h : run s cs = .ok s') (rest : List Char) :
    scanFrom s (cs ++ rest) = scanFrom s' rest := by
  rw [scanFrom, run_append, h]
  rfl

lemma not_startsNewline (hfeed : c ≠ '\n') (hreturn : c = '\r' → rest.head? ≠ some '\n') :
    ¬ StartsNewline (c :: rest) := by
  rintro ⟨nl, after, hnl, heq⟩
  cases hnl with
  | feed => exact hfeed (List.cons.inj heq).1
  | returnFeed =>
    obtain ⟨rfl, rfl⟩ := List.cons.inj heq
    exact hreturn rfl rfl

/-- A backslash that joins nothing is a character of the statement. -/
lemma Between.slash (h : Between source before ('\\' :: rest) s) (hjoin : ¬ StartsNewline rest) :
    Between source (before ++ ['\\']) rest (Line.plain s '\\') :=
  .plain ⟨by decide, nofun⟩ (fun _ => hjoin) h

lemma eq_of_phase (h : s.phase = .code) : { s with phase := .code } = s := by rw [← h]

lemma slashStep_eq (h : s.phase = .code) (p : Phase) (c : Char) :
    slashStep { s with phase := p } c = Line.codeStep (Line.plain s '\\') c :=
  congrArg (fun t => Line.codeStep (Line.plain t '\\') c) (eq_of_phase h)

lemma count_of_ne (h : c ≠ '\n') : [c].count '\n' = 0 :=
  List.count_eq_zero.mpr fun hmem => h (List.mem_singleton.mp hmem).symm

/-- A literal in the middle of which `c` is read goes on or ends. -/
lemma stringStep_cases {z : Quoted} {k : ℕ} (h : stringStep s z k c = .ok s') :
    (c = z.quote ∧ c ≠ '\n' ∧ s' = Line.literal s z.quote) ∨
      ∃ p : Phase, p.quote? = some z.quote ∧
        s' = { s with phase := p, line := s.line + [c].count '\n' } := by
  unfold stringStep at h
  split_ifs at h with hslash hfeed htriple hquote hclose
  · obtain rfl := beq_iff_eq.mp hslash
    exact .inr ⟨.escape z, rfl, (Except.ok.inj h).symm⟩
  · obtain rfl := beq_iff_eq.mp hfeed
    exact .inr ⟨.string z 0, rfl, (Except.ok.inj h).symm⟩
  · exact .inl ⟨beq_iff_eq.mp hquote, by simpa using hfeed, (Except.ok.inj h).symm⟩
  · refine .inr ⟨.string z (k + 1), rfl, ?_⟩
    rw [← Except.ok.inj h, count_of_ne (by simpa using hfeed)]
    rfl
  · refine .inr ⟨.string z 0, rfl, ?_⟩
    rw [← Except.ok.inj h, count_of_ne (by simpa using hfeed)]
    rfl

/-- A literal goes on. -/
lemma Between.grow (hq : q = '\'' ∨ q = '"') (hp : p.quote? = some q)
    (h : Between source before (q :: body ++ c :: rest) s) :
    Midway source (before ++ q :: body ++ [c]) rest
      { begin s with phase := p, line := s.line + body.count '\n' + [c].count '\n' } := by
  have hmid : Midway source (before ++ q :: (body ++ [c])) rest
      { begin s with phase := p, line := s.line + (body ++ [c]).count '\n' } :=
    .literal hq hp (by simpa using h)
  simpa [List.count_append, Nat.add_assoc] using hmid

lemma Between.grow_of_ne (hc : c ≠ '\n') (hq : q = '\'' ∨ q = '"') (hp : p.quote? = some q)
    (h : Between source before (q :: body ++ c :: rest) s) :
    Midway source (before ++ q :: body ++ [c]) rest
      { begin s with phase := p, line := s.line + body.count '\n' } := by
  have hgrown := h.grow hq hp
  rwa [count_of_ne hc] at hgrown

lemma Between.stringStep {z : Quoted} {k : ℕ} (hq : z.quote = '\'' ∨ z.quote = '"')
    (h : Between source before (z.quote :: body ++ c :: rest) s)
    (hstep : Line.stringStep { begin s with phase := p, line := s.line + body.count '\n' } z k c =
      .ok s') : Midway source (before ++ z.quote :: body ++ [c]) rest s' := by
  rcases stringStep_cases hstep with ⟨hc, hfeed, rfl⟩ | ⟨p', hp', rfl⟩
  · have hclosed : Between source (before ++ z.quote :: (body ++ [c])) rest
        { Line.literal (begin s) z.quote with line := s.line + (body ++ [c]).count '\n' } :=
      .literal hq (by simpa using h)
    rw [List.count_append, count_of_ne hfeed, Nat.add_zero] at hclosed
    rw [List.append_assoc]
    exact .code hclosed
  · exact h.grow hq hp'

/-- In the middle of a literal. Two quotes are a literal unless a third one follows. -/
lemma Between.literalStep (hq : q = '\'' ∨ q = '"') (hp : p.quote? = some q)
    (h : Between source before (q :: body ++ c :: rest) s)
    (hrun : run init (before ++ q :: body ++ [c]) = .ok s')
    (hstep : Line.step { begin s with phase := p, line := s.line + body.count '\n' } c = .ok s') :
    Midway source (before ++ q :: body ++ [c]) rest s' := by
  have hquote := (ne_of_quote hq).2
  cases p with
  | code => cases hp
  | comment => cases hp
  | slash => cases hp
  | slashReturn => cases hp
  | quoteOne q' opened =>
    obtain rfl : q' = q := Option.some.inj hp
    simp only [Line.step, beq_iff_eq] at hstep
    split_ifs at hstep with hc
    · obtain rfl := Except.ok.inj hstep
      exact h.grow_of_ne (hc ▸ hquote) hq
        (show (Phase.quoteTwo q' opened).quote? = some q' from rfl)
    · exact Between.stringStep (z := ⟨q', opened, false⟩) hq h hstep
  | quoteTwo q' opened =>
    obtain rfl : q' = q := Option.some.inj hp
    simp only [Line.step, beq_iff_eq] at hstep
    split_ifs at hstep with hc
    · obtain rfl := Except.ok.inj hstep
      exact h.grow_of_ne (hc ▸ hquote) hq
        (show (Phase.string ⟨q', opened, true⟩ 0).quote? = some q' from rfl)
    · obtain rfl := Except.ok.inj hstep
      exact (Between.literal hq h).codeStep hrun
  | string z k =>
    obtain rfl : z.quote = q := Option.some.inj hp
    exact h.stringStep hq hstep
  | escape z =>
    obtain rfl : z.quote = q := Option.some.inj hp
    obtain rfl := Except.ok.inj hstep
    have hp' : (Phase.string z 0).quote? = some z.quote := rfl
    split_ifs with hc
    · obtain rfl := beq_iff_eq.mp hc
      exact h.grow hq hp'
    · exact h.grow_of_ne (by simpa using hc) hq hp'

/-- In the middle of a token the next character goes on with it or ends it. -/
lemma Midway.step (h : Midway source before (c :: rest) s) (hrun : run init before = .ok s)
    (hstep : Line.step s c = .ok s') : Midway source (before ++ [c]) rest s' := by
  have hrun' := (run_concat c hrun).trans hstep
  cases h with
  | code h =>
    rw [Line.step, h.phase] at hstep
    obtain rfl := Except.ok.inj hstep
    exact h.codeStep hrun'
  | @comment before body _ s hbody h =>
    simp only [Line.step, beq_iff_eq, Except.ok.injEq] at hstep
    split_ifs at hstep with hc
    · subst hc hstep
      have hended : Between source (before ++ '#' :: body ++ ['\n']) rest (newline s) :=
        .newline (.comment hbody) h hrun'
      exact .code hended
    · subst hstep
      have hbody' : '\n' ∉ body ++ [c] := by simp [hbody, Ne.symm hc]
      simpa using Midway.comment hbody' (by simpa using h)
  | @slash before _ s h =>
    simp only [Line.step, beq_iff_eq, Except.ok.injEq] at hstep
    split_ifs at hstep with hfeed hreturn
    · subst hfeed hstep
      have hjoined : Between source (before ++ '\\' :: ['\n']) rest (join s) := .join .feed h
      rw [List.append_assoc]
      exact .code hjoined
    · subst hreturn hstep
      simpa using Midway.slashReturn h
    · rw [slashStep_eq h.phase] at hstep
      subst hstep
      exact (h.slash (not_startsNewline hfeed (absurd · hreturn))).codeStep hrun'
  | @slashReturn before _ s h =>
    simp only [Line.step, beq_iff_eq, Except.ok.injEq] at hstep
    split_ifs at hstep with hfeed
    · subst hfeed hstep
      have hjoined : Between source (before ++ '\\' :: ['\r', '\n']) rest (join s) :=
        .join .returnFeed h
      rw [List.append_assoc]
      exact .code hjoined
    · rw [slashStep_eq h.phase] at hstep
      subst hstep
      have hslash := h.slash (not_startsNewline (by decide) (by simpa using hfeed))
      simpa using hslash.skip.codeStep (by simpa using hrun')
  | literal hq hp h => exact h.literalStep hq hp hrun' hstep

/-- Up to any point the scan has read a sequence of tokens, and perhaps a part of the next one. -/
lemma midway_of_run {source : List Char} (before : List Char) {rest : List Char} {s : St}
    (hsource : source = before ++ rest) (h : run init before = .ok s) :
    Midway source before rest s := by
  induction before using List.reverseRecOn generalizing rest s with
  | nil =>
    obtain rfl := Except.ok.inj h
    subst hsource
    exact .code .start
  | append_singleton before c ih =>
    have hsplit := h
    rw [run, List.foldlM_append] at hsplit
    obtain ⟨t, ht, -⟩ := except_bind_ok.mp hsplit
    rw [run_concat c ht] at h
    exact (ih (by simpa using hsource) ht).step ht h

/-- The quote of the literal that is open is one. -/
lemma quote_of_run {before : List Char} {s : St} {q : Char} (hrun : run init before = .ok s)
    (hq : s.phase.quote? = some q) : q = '\'' ∨ q = '"' := by
  have hmid : Midway before before [] s := midway_of_run before (List.append_nil _).symm hrun
  cases hmid with
  | code h => rw [h.phase] at hq; cases hq
  | comment => cases hq
  | slash => cases hq
  | slashReturn => cases hq
  | literal hquote hp => exact Option.some.inj (hp.symm.trans hq) ▸ hquote

/-- What the end of the source leaves open is settled as the last token, and a comment may stand
after it. -/
lemma Midway.settle (h : Midway source before [] s) (hsettle : Line.settle s = .ok s') :
    ∃ before' trailer t, Between source before' trailer t ∧ IsTrailer trailer ∧
      close t = close s' := by
  cases h with
  | code h =>
    rw [Line.settle, h.phase] at hsettle
    obtain rfl := Except.ok.inj hsettle
    exact ⟨_, [], _, h, .none, rfl⟩
  | @comment _ _ _ t hbody h =>
    obtain rfl := Except.ok.inj hsettle
    rw [List.append_nil] at h
    exact ⟨_, _, t, h, .comment hbody, rfl⟩
  | @slash _ _ t h =>
    obtain rfl := Except.ok.inj hsettle
    have hnone : ¬ StartsNewline [] := by
      rintro ⟨nl, after, hnl, heq⟩
      cases hnl <;> cases heq
    exact ⟨_, [], _, h.slash hnone, .none,
      congrArg (fun t => close (plain t '\\')) (eq_of_phase h.phase).symm⟩
  | @slashReturn _ _ t h =>
    obtain rfl := Except.ok.inj hsettle
    have hreturn : ¬ StartsNewline ['\r'] :=
      not_startsNewline (by decide) fun _ => (Option.some_ne_none '\n').symm
    exact ⟨_, [], _, (h.slash hreturn).skip, .none,
      congrArg (fun t => close (plain t '\\')) (eq_of_phase h.phase).symm⟩
  | @literal before body _ s q p hq hp h =>
    cases p with
    | code => cases hp
    | comment => cases hp
    | slash => cases hp
    | slashReturn => cases hp
    | quoteOne q' opened => cases hsettle
    | quoteTwo q' opened =>
      obtain rfl : q' = q := Option.some.inj hp
      obtain rfl := Except.ok.inj hsettle
      exact ⟨_, [], _, .literal hq h, .none, rfl⟩
    | string z k => cases hsettle
    | escape z => cases hsettle

lemma close_eq_ok {ls : List Line} (h : close s = .ok ls) :
    (finish s).done = ls ∧ (s.depth = 0 ∨ trim s.text = []) := by
  unfold close at h
  split_ifs at h with hopen
  refine ⟨Except.ok.inj h, or_iff_not_imp_left.mpr fun hdepth => ?_⟩
  simpa [Nat.pos_of_ne_zero hdepth] using hopen

/-- **A scan that succeeds has read its source token by token.** -/
theorem between_of_scan {source : String} {ls : List Line} (h : scan source = .ok ls) :
    ∃ before trailer s, Between source.toList before trailer s ∧ IsTrailer trailer ∧
      close s = .ok ls := by
  obtain ⟨s, hrun, h⟩ := except_bind_ok.mp h
  obtain ⟨s', hsettle, hclose⟩ := except_bind_ok.mp h
  have hmid := midway_of_run source.toList (List.append_nil _).symm hrun
  obtain ⟨before, trailer, t, ht, htrailer, hsame⟩ := hmid.settle hsettle
  exact ⟨before, trailer, t, ht, htrailer, hsame.trans hclose⟩

/-! ### Faults -/

/-- The line on which the open literal begins. -/
def Phase.opened? : Phase → Option ℕ
  | .quoteOne _ n | .quoteTwo _ n => some n
  | .string z _ | .escape z => some z.opened
  | _ => none

/-- A fault in the middle of the source is a literal that is not closed. -/
lemma step_eq_error (h : step s c = .error f) :
    ∃ n ∈ s.phase.opened?, f = ⟨n, .unterminatedString⟩ := by
  have hstring : ∀ z k, stringStep s z k c = .error f → f = ⟨z.opened, .unterminatedString⟩ := by
    intro z k h
    unfold stringStep at h
    split_ifs at h
    cases h
    rfl
  cases hphase : s.phase with
  | code => rw [step, hphase] at h; cases h
  | comment => rw [step, hphase] at h; cases h
  | slash => rw [step, hphase] at h; cases h
  | slashReturn => rw [step, hphase] at h; cases h
  | quoteOne q opened =>
    simp only [step, hphase] at h
    split_ifs at h
    exact ⟨opened, rfl, hstring _ _ h⟩
  | quoteTwo q opened =>
    simp only [step, hphase] at h
    split_ifs at h
  | string z k =>
    rw [step, hphase] at h
    exact ⟨z.opened, rfl, hstring _ _ h⟩
  | escape z => rw [step, hphase] at h; cases h

lemma settle_eq_error (h : settle s = .error f) :
    ∃ n ∈ s.phase.opened?, f = ⟨n, .unterminatedString⟩ := by
  unfold settle at h
  split at h <;> cases h
  next hphase => exact ⟨_, by rw [hphase]; rfl, rfl⟩
  next hphase => exact ⟨_, by rw [hphase]; rfl, rfl⟩
  next hphase => exact ⟨_, by rw [hphase]; rfl, rfl⟩

/-- The scan finds fault with literals and brackets only. -/
lemma cause_of_scan {source : String} (h : scan source = .error f) :
    f.cause = .unterminatedString ∨ f.cause = .unclosedBracket := by
  have hfrom : ∀ cs s, scanFrom s cs = .error f →
      f.cause = .unterminatedString ∨ f.cause = .unclosedBracket := by
    intro cs
    induction cs with
    | nil =>
      intro s h
      have hend : (settle s >>= close) = .error f := h
      rcases except_bind_error.mp hend with hsettle | ⟨t, -, hclose⟩
      · obtain ⟨n, -, rfl⟩ := settle_eq_error hsettle
        exact .inl rfl
      · unfold close at hclose
        split_ifs at hclose
        cases hclose
        exact .inr rfl
    | cons c cs ih =>
      intro s h
      cases hstep : step s c with
      | error f' =>
        rw [scanFrom_of_fault hstep] at h
        cases h
        obtain ⟨n, -, rfl⟩ := step_eq_error hstep
        exact .inl rfl
      | ok t => exact ih t (by rwa [scanFrom_of_step hstep] at h)
  exact hfrom _ init h

end Tokens

end ContractBuild.Python.Line
