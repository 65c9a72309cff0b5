import Mathlib
import ContractBuild.Proofs.Program
import ContractBuild.Python.Line

/-!
The lexical grammar of a source text, and that the scan follows it: every statement that can be read
by the grammar is among the logical lines.
-/

namespace ContractBuild.Python

open ContractBuild.Text

/-! ### The grammar -/

/-- The ends of a physical line. -/
inductive IsNewline : List Char → Prop where
  | feed : IsNewline ['\n']
  | returnFeed : IsNewline ['\r', '\n']

/-- A character of a statement that means nothing to the scan. -/
def isPlain (c : Char) : Bool :=
  !(isOpening c || isClosing c || c ∈ ['#', '\n', '\r', '\\', '\'', '"', ';'])

/-- A literal of one line from its second character on. -/
inductive ShortTail (q : Char) : List Char → Prop where
  | close : ShortTail q [q]
  | char {c : Char} {cs : List Char} (hquote : c ≠ q) (hslash : c ≠ '\\') (hfeed : c ≠ '\n')
      (h : ShortTail q cs) : ShortTail q (c :: cs)
  | escape {cs : List Char} (c : Char) (h : ShortTail q cs) : ShortTail q ('\\' :: c :: cs)
  | escapeNewline {cs : List Char} (h : ShortTail q cs) : ShortTail q ('\\' :: '\r' :: '\n' :: cs)

/-- A literal in three quotes from its fourth character on. The first three quotes in a row that are
not escaped end it. -/
inductive LongTail (q : Char) : List Char → Prop where
  | close : LongTail q [q, q, q]
  | char {c : Char} {cs : List Char} (hslash : c ≠ '\\') (hopen : ¬ [q, q, q] <+: c :: cs)
      (h : LongTail q cs) : LongTail q (c :: cs)
  | escape {cs : List Char} (c : Char) (h : LongTail q cs) : LongTail q ('\\' :: c :: cs)

/-- A string literal in front of some text. -/
inductive Literal (q : Char) : List Char → List Char → Prop where
  | short {cs rest : List Char} (h : ShortTail q cs) (hempty : cs = [q] → rest.head? ≠ some q) :
      Literal q (q :: cs) rest
  | long {cs rest : List Char} (h : LongTail q cs) : Literal q (q :: q :: q :: cs) rest

/-- **Reading a source.** It has been read up to `rest`, with `d` brackets open. Of the statement
that stands there, `t` has been read: comments go, an end of line that does not end the statement is
a blank, and a literal is only its quotes. -/
inductive Reads (source : List Char) : List Char → ℕ → List Char → Prop where
  | start : Reads source source 0 []
  | plain {c : Char} {rest t : List Char} {d : ℕ} (hc : isPlain c = true)
      (h : Reads source (c :: rest) d t) : Reads source rest d (t ++ [c])
  | opening {c : Char} {rest t : List Char} {d : ℕ} (hc : isOpening c = true)
      (h : Reads source (c :: rest) d t) : Reads source rest (d + 1) (t ++ [c])
  | closing {c : Char} {rest t : List Char} {d : ℕ} (hc : isClosing c = true)
      (h : Reads source (c :: rest) (d + 1) t) : Reads source rest d (t ++ [c])
  | literal {q : Char} {lit rest t : List Char} {d : ℕ} (hq : q = '\'' ∨ q = '"')
      (hlit : Literal q lit rest) (h : Reads source (lit ++ rest) d t) :
      Reads source rest d (t ++ [q, q])
  | comment {body rest t : List Char} {d : ℕ} (hbody : '\n' ∉ body)
      (hrest : rest = [] ∨ ∃ nl after, IsNewline nl ∧ rest = nl ++ after)
      (h : Reads source ('#' :: body ++ rest) d t) : Reads source rest d t
  | join {nl rest t : List Char} {d : ℕ} (hnl : IsNewline nl)
      (h : Reads source ('\\' :: nl ++ rest) d t) : Reads source rest d (t ++ [' '])
  | inside {nl rest t : List Char} {d : ℕ} (hnl : IsNewline nl)
      (h : Reads source (nl ++ rest) (d + 1) t) : Reads source rest (d + 1) (t ++ [' '])
  | newline {nl rest t : List Char} (hnl : IsNewline nl) (h : Reads source (nl ++ rest) 0 t) :
      Reads source rest 0 []
  | semicolon {rest t : List Char} (h : Reads source (';' :: rest) 0 t) : Reads source rest 0 []

lemma Reads.plains {source rest t : List Char} {d : ℕ} (cs : List Char)
    (hcs : cs.all isPlain = true) (h : Reads source (cs ++ rest) d t) :
    Reads source rest d (t ++ cs) := by
  induction cs generalizing t with
  | nil => simpa using h
  | cons c cs ih =>
    rw [List.all_cons, Bool.and_eq_true] at hcs
    simpa using ih hcs.2 (.plain hcs.1 h)

/-- The text at which a statement ends. -/
inductive EndsStatement : List Char → Prop where
  | source : EndsStatement []
  | newline {nl : List Char} (hnl : IsNewline nl) (rest : List Char) : EndsStatement (nl ++ rest)
  | semicolon (rest : List Char) : EndsStatement (';' :: rest)

namespace Line

/-! ### The scan from some point on -/

/-- The logical lines of a source that has been read up to `cs`. -/
def scanFrom (s : St) (cs : List Char) : Except Fault (List Line) := do
  close (← settle (← run s cs))

section Steps

variable {s s' : St} {c : Char} {cs : List Char} {f : Fault}

lemma scanFrom_of_step (h : step s c = .ok s') : scanFrom s (c :: cs) = scanFrom s' cs := by
  rw [scanFrom, run, List.foldlM_cons, h]
  rfl

lemma scanFrom_of_fault (h : step s c = .error f) : scanFrom s (c :: cs) = .error f := by
  rw [scanFrom, run, List.foldlM_cons, h]
  rfl

lemma scanFrom_of_code (h : s.phase = .code) : scanFrom s (c :: cs) = scanFrom (codeStep s c) cs :=
  scanFrom_of_step (by rw [step, h])

end Steps

@[simp] lemma text_begin (s : St) : (begin s).text = s.text := by
  unfold begin
  split_ifs <;> rfl

@[simp] lemma depth_begin (s : St) : (begin s).depth = s.depth := by
  unfold begin
  split_ifs <;> rfl

@[simp] lemma phase_begin (s : St) : (begin s).phase = s.phase := by
  unfold begin
  split_ifs <;> rfl

@[simp] lemma done_begin (s : St) : (begin s).done = s.done := by
  unfold begin
  split_ifs <;> rfl

/-- The scan stands at a point of the source where `d` brackets are open and `t` has been read of a
statement. Its own text may lack blanks in front. -/
structure Tracks (s : St) (d : ℕ) (t : List Char) : Prop where
  phase : s.phase = .code
  depth : s.depth = d
  text : trimLeft s.text = trimLeft t

lemma trimLeft_append_congr {a b : List Char} (h : trimLeft a = trimLeft b) (cs : List Char) :
    trimLeft (a ++ cs) = trimLeft (b ++ cs) := by
  unfold trimLeft at h ⊢
  rw [List.dropWhile_append, List.dropWhile_append, h]

section Tracking

variable {s s' : St} {d d' : ℕ} {t cs rest : List Char} {c q : Char}

lemma Tracks.append (h : Tracks s d t) (hphase : s'.phase = .code) (hdepth : s'.depth = d')
    (htext : s'.text = s.text ++ cs) : Tracks s' d' (t ++ cs) :=
  ⟨hphase, hdepth, by rw [htext, trimLeft_append_congr h.text]⟩

lemma codeStep_newline (s : St) : codeStep s '\n' = newline s := by simp [codeStep]

lemma codeStep_return (s : St) : codeStep s '\r' = s := by simp [codeStep]

lemma codeStep_hash (s : St) : codeStep s '#' = { s with phase := .comment } := by simp [codeStep]

lemma codeStep_slash (s : St) : codeStep s '\\' = { s with phase := .slash } := by simp [codeStep]

lemma codeStep_semicolon (h : s.depth = 0) : codeStep s ';' = semicolon s := by simp [codeStep, h]

lemma codeStep_quote (hq : q = '\'' ∨ q = '"') :
    codeStep s q = { begin s with phase := .quoteOne q s.line } := by
  rcases hq with rfl | rfl <;> simp [codeStep]

/-- A blank in the indentation is passed over, and any other plain character is kept. -/
lemma codeStep_of_isPlain (hc : isPlain c = true) :
    (s.text = [] ∧ isBlank c = true ∧ ∃ column, codeStep s c = { s with column }) ∨
      codeStep s c = plain s c := by
  have hother : c ≠ '#' ∧ c ≠ '\n' ∧ c ≠ '\r' ∧ c ≠ '\\' ∧ c ≠ '\'' ∧ c ≠ '"' ∧ c ≠ ';' := by
    simp only [isPlain, Bool.not_eq_true', Bool.or_eq_false_iff, List.mem_cons, List.not_mem_nil,
      or_false, decide_eq_false_iff_not, not_or] at hc
    exact hc.2
  by_cases hindenting : indenting s = true
  · have hempty : s.text = [] := by
      simp only [indenting, Bool.and_eq_true, List.isEmpty_iff] at hindenting
      exact hindenting.2
    by_cases hspace : c = ' '
    · exact .inl ⟨hempty, by rw [hspace]; decide, _, by simp [codeStep, hindenting, hspace]; rfl⟩
    by_cases htab : c = '\t'
    · exact .inl ⟨hempty, by rw [htab]; decide, _, by simp [codeStep, hindenting, htab]; rfl⟩
    by_cases hfeed : c = '\x0c'
    · exact .inl ⟨hempty, by rw [hfeed]; decide, s.column, by simp [codeStep, hindenting, hfeed]⟩
    · exact .inr (by simp [codeStep, hspace, htab, hfeed, hother])
  · exact .inr (by simp [codeStep, hindenting, hother])

lemma Tracks.kept (h : Tracks s d t) : Tracks (plain s c) (depthAfter d c) (t ++ [c]) :=
  h.append (by simp [plain, push, h.phase]) (by simp [plain, push, h.depth])
    (by simp [plain, push])

lemma Tracks.plain (h : Tracks s d t) (hc : isPlain c = true) :
    Tracks (codeStep s c) d (t ++ [c]) := by
  rcases codeStep_of_isPlain (s := s) hc with ⟨hempty, hblank, column, hstep⟩ | hstep
  · refine hstep ▸ ⟨h.phase, h.depth, ?_⟩
    have hnone : trimLeft t = [] := by rw [← h.text, hempty]; rfl
    change trimLeft s.text = _
    rw [h.text, hnone, ← trimLeft_append_congr (a := []) hnone.symm [c]]
    simp [trimLeft, hblank]
  · have hdepth : depthAfter d c = d := by
      simp only [isPlain, Bool.not_eq_true', Bool.or_eq_false_iff] at hc
      simp [depthAfter, hc.1]
    rw [hstep]
    exact hdepth ▸ h.kept

lemma codeStep_bracket (hc : isOpening c = true ∨ isClosing c = true) :
    codeStep s c = plain s c := by
  simp only [isOpening, isClosing, Bool.or_eq_true, beq_iff_eq] at hc
  rcases hc with ((rfl | rfl) | rfl) | ((rfl | rfl) | rfl) <;> simp [codeStep]

lemma scanFrom_newline {nl : List Char} (hnl : IsNewline nl) (h : s.phase = .code) :
    scanFrom s (nl ++ rest) = scanFrom (newline s) rest := by
  cases hnl with
  | feed =>
    change scanFrom s ('\n' :: rest) = _
    rw [scanFrom_of_code h, codeStep_newline]
  | returnFeed =>
    change scanFrom s ('\r' :: '\n' :: rest) = _
    rw [scanFrom_of_code h, codeStep_return, scanFrom_of_code h, codeStep_newline]

/-- A comment is as if it were not there. -/
lemma scanFrom_comment {body : List Char} (hbody : '\n' ∉ body)
    (hrest : rest = [] ∨ ∃ nl after, IsNewline nl ∧ rest = nl ++ after) (h : s.phase = .code) :
    scanFrom s ('#' :: body ++ rest) = scanFrom s rest := by
  have hskip : ∀ cs : List Char, '\n' ∉ cs → ∀ after,
      scanFrom { s with phase := .comment } (cs ++ after) =
        scanFrom { s with phase := .comment } after := by
    intro cs
    induction cs with
    | nil => exact fun _ _ => rfl
    | cons c cs ih =>
      intro hcs after
      obtain ⟨hc, hcs⟩ := List.ne_and_not_mem_of_not_mem_cons hcs
      have hstep : step { s with phase := .comment } c = .ok { s with phase := .comment } := by
        simp [step, hc.symm]
      rw [List.cons_append, scanFrom_of_step hstep]
      exact ih hcs after
  rw [List.cons_append, scanFrom_of_code h, codeStep_hash, hskip body hbody]
  rcases hrest with rfl | ⟨nl, after, hnl, rfl⟩
  · change close { s with phase := .comment } = (settle s >>= close)
    rw [settle, h]
    rfl
  · rw [scanFrom_newline hnl h]
    cases hnl with
    | feed => exact scanFrom_of_step rfl
    | returnFeed =>
      exact (hskip ['\r'] (by decide) ('\n' :: after)).trans (scanFrom_of_step rfl)

/-- Lines that are joined have a blank between them. -/
lemma scanFrom_join {nl : List Char} (hnl : IsNewline nl) (h : s.phase = .code) :
    scanFrom s ('\\' :: nl ++ rest) = scanFrom (join s) rest := by
  rw [List.cons_append, scanFrom_of_code h, codeStep_slash]
  cases hnl with
  | feed => exact scanFrom_of_step rfl
  | returnFeed =>
    have hreturn : step { s with phase := .slash } '\r' = .ok { s with phase := .slashReturn } :=
      rfl
    exact (scanFrom_of_step hreturn).trans (scanFrom_of_step rfl)

/-! ### Literals -/

/-- A quote that opens a literal is not a backslash or an end of line. -/
lemma ne_of_quote (hq : q = '\'' ∨ q = '"') : q ≠ '\\' ∧ q ≠ '\n' := by
  rcases hq with rfl | rfl <;> decide

lemma stringStep_phase (s : St) (p : Phase) (z : Quoted) (k : ℕ) (c : Char) :
    stringStep { s with phase := p } z k c = stringStep s z k c := by
  unfold stringStep
  split_ifs <;> rfl

/-- What is left of a literal: its quotes, and perhaps a later line. -/
def Shrinks (s : St) (q : Char) (cs rest : List Char) : Prop :=
  (∃ f, scanFrom s (cs ++ rest) = .error f) ∨
    ∃ line, scanFrom s (cs ++ rest) = scanFrom { literal s q with line } rest

lemma Shrinks.of_step (p : Phase) (line : ℕ)
    (hstep : step s c = .ok { s with phase := p, line })
    (h : Shrinks { s with phase := p, line } q cs rest) : Shrinks s q (c :: cs) rest := by
  rcases h with ⟨f, h⟩ | ⟨line', h⟩
  · exact .inl ⟨f, (scanFrom_of_step hstep).trans h⟩
  · exact .inr ⟨line', (scanFrom_of_step hstep).trans h⟩

lemma shrinks_shortTail (hq : q = '\'' ∨ q = '"') (h : ShortTail q cs) {opened k : ℕ}
    (hs : s.phase = .string ⟨q, opened, false⟩ k) : Shrinks s q cs rest := by
  obtain ⟨hslash, hfeed⟩ := ne_of_quote hq
  induction h generalizing s k with
  | close =>
    refine .inr ⟨s.line, scanFrom_of_step ?_⟩
    simp [step, hs, stringStep, hslash, hfeed, literal, push]
  | char hquote hslash' hfeed' _ ih =>
    refine Shrinks.of_step (.string ⟨q, opened, false⟩ 0) s.line ?_ (ih rfl)
    simp [step, hs, stringStep, hquote, hslash', hfeed']
  | escape c _ ih =>
    refine Shrinks.of_step (.escape ⟨q, opened, false⟩) s.line ?_ ?_
    · simp [step, hs, stringStep]
    · exact Shrinks.of_step (.string ⟨q, opened, false⟩ 0) _ rfl (ih rfl)
  | @escapeNewline cs _ ih =>
    -- a joined line that ends with a carriage return is taken for the end of the literal
    refine Shrinks.of_step (.escape ⟨q, opened, false⟩) s.line ?_ ?_
    · simp [step, hs, stringStep]
    · refine Shrinks.of_step (.string ⟨q, opened, false⟩ 0) _ rfl
        (.inl ⟨⟨opened, .unterminatedString⟩, ?_⟩)
      exact scanFrom_of_fault rfl

/-- The scan counts the quotes in a row; three of them would have ended the literal before. -/
lemma shrinks_longTail (hq : q = '\'' ∨ q = '"') (h : LongTail q cs) {opened k : ℕ}
    (hs : s.phase = .string ⟨q, opened, true⟩ k)
    (hk : k = 0 ∨ k < 3 ∧ ¬ List.replicate (3 - k) q <+: cs) : Shrinks s q cs rest := by
  obtain ⟨hslash, hfeed⟩ := ne_of_quote hq
  induction h generalizing s k with
  | close =>
    obtain rfl : k = 0 := by
      rcases hk with hk | ⟨hk, hopen⟩
      · exact hk
      · interval_cases k <;> simp_all [List.replicate]
    refine Shrinks.of_step (.string ⟨q, opened, true⟩ 1) s.line ?_ ?_
    · simp [step, hs, stringStep, hslash, hfeed]
    refine Shrinks.of_step (.string ⟨q, opened, true⟩ 2) s.line ?_ ?_
    · simp [step, stringStep, hslash, hfeed]
    refine .inr ⟨s.line, scanFrom_of_step ?_⟩
    simp [step, stringStep, hslash, hfeed, literal, push]
  | @char c cs hslash' hopen _ ih =>
    by_cases hc : c = q
    · subst hc
      have hnext : k + 1 < 3 ∧ ¬ List.replicate (3 - (k + 1)) c <+: cs := by
        rcases hk with rfl | ⟨hk, hopen'⟩
        · exact ⟨by decide, by simpa [List.replicate] using hopen⟩
        · interval_cases k <;> simp_all [List.replicate]
      refine Shrinks.of_step (.string ⟨c, opened, true⟩ (k + 1)) s.line ?_
        (ih rfl (.inr hnext))
      have hk2 : k ≠ 2 := by omega
      simp [step, hs, stringStep, hslash, hfeed, hk2]
    · refine Shrinks.of_step (.string ⟨q, opened, true⟩ 0)
        (if c = '\n' then s.line + 1 else s.line) ?_ (ih rfl (.inl rfl))
      by_cases hc' : c = '\n' <;> simp [step, hs, stringStep, hslash', hc, hc']
  | escape c _ ih =>
    refine Shrinks.of_step (.escape ⟨q, opened, true⟩) s.line ?_ ?_
    · simp [step, hs, stringStep]
    · exact Shrinks.of_step (.string ⟨q, opened, true⟩ 0) _ rfl (ih rfl (.inl rfl))

lemma eq_or_ne_of_shortTail (h : ShortTail q cs) (hq : q ≠ '\\') :
    cs = [q] ∨ ∃ c cs', cs = c :: cs' ∧ c ≠ q := by
  cases h with
  | close => exact .inl rfl
  | char hquote => exact .inr ⟨_, _, rfl, hquote⟩
  | escape => exact .inr ⟨_, _, rfl, hq.symm⟩
  | escapeNewline => exact .inr ⟨_, _, rfl, hq.symm⟩

/-- Two quotes are an empty literal unless a third one follows. -/
lemma shrinks_empty {opened : ℕ} (hs : s.phase = .quoteOne q opened) (hrest : rest.head? ≠ some q) :
    Shrinks s q [q] rest := by
  have htwo : scanFrom s (q :: rest) = scanFrom { s with phase := .quoteTwo q opened } rest :=
    scanFrom_of_step (by simp [step, hs])
  refine .inr ⟨s.line, htwo.trans ?_⟩
  rcases rest with _ | ⟨c, rest⟩
  · rfl
  · have hc : c ≠ q := fun hc => hrest (by rw [hc]; rfl)
    have hstep : step { s with phase := .quoteTwo q opened } c =
        .ok (codeStep (literal s q) c) := by
      simp [step, hc]
      rfl
    rw [scanFrom_of_step hstep]
    exact (scanFrom_of_code rfl).symm

/-- A literal after its first quote. -/
lemma shrinks_literal (hq : q = '\'' ∨ q = '"') (h : Literal q (q :: cs) rest) {opened : ℕ}
    (hs : s.phase = .quoteOne q opened) : Shrinks s q cs rest := by
  cases h with
  | short h hempty =>
    rcases eq_or_ne_of_shortTail h (ne_of_quote hq).1 with rfl | ⟨c, cs', rfl, hc⟩
    · exact shrinks_empty hs (hempty rfl)
    · have hsame : scanFrom s (c :: cs' ++ rest) =
          scanFrom { s with phase := .string ⟨q, opened, false⟩ 0 } (c :: cs' ++ rest) := by
        have hstep : step s c = step { s with phase := .string ⟨q, opened, false⟩ 0 } c := by
          simp only [step, hs, beq_iff_eq, hc, if_false]
          exact (stringStep_phase s _ _ _ _).symm
        rw [scanFrom, scanFrom, run, run, List.cons_append, List.foldlM_cons, List.foldlM_cons,
          hstep]
      have hshort : Shrinks { s with phase := .string ⟨q, opened, false⟩ 0 } q (c :: cs') rest :=
        shrinks_shortTail hq h rfl
      rwa [Shrinks, ← hsame] at hshort
  | long h =>
    refine Shrinks.of_step (.quoteTwo q opened) s.line (by simp [step, hs]) ?_
    refine Shrinks.of_step (.string ⟨q, opened, true⟩ 0) s.line (by simp [step]) ?_
    exact shrinks_longTail hq h rfl (.inl rfl)

lemma Tracks.literal (h : Tracks s d t) (hq : q = '\'' ∨ q = '"') {lit : List Char}
    (hlit : Literal q lit rest) : (∃ f, scanFrom s (lit ++ rest) = .error f) ∨
      ∃ s', Tracks s' d (t ++ [q, q]) ∧ scanFrom s (lit ++ rest) = scanFrom s' rest := by
  obtain ⟨cs, rfl⟩ : ∃ cs, lit = q :: cs := by
    cases hlit with
    | short => exact ⟨_, rfl⟩
    | long => exact ⟨_, rfl⟩
  have hfirst : scanFrom s (q :: cs ++ rest) =
      scanFrom { begin s with phase := .quoteOne q s.line } (cs ++ rest) := by
    rw [List.cons_append, scanFrom_of_code h.phase, codeStep_quote hq]
  rw [hfirst]
  rcases shrinks_literal (s := { begin s with phase := .quoteOne q s.line }) hq hlit rfl with
    hfault | ⟨line, hlit⟩
  · exact .inl hfault
  · refine .inr ⟨_, h.append ?_ ?_ ?_, hlit⟩
    · rfl
    · simp [Line.literal, push, h.depth]
    · simp [Line.literal, push]

/-! ### The whole source -/

lemma Tracks.newline (h : Tracks s 0 t) : Tracks (newline s) 0 [] := by
  have hdepth : ¬ 0 < s.depth := by simp [h.depth]
  unfold Line.newline
  simp only [gt_iff_lt, hdepth, if_false]
  exact ⟨rfl, h.depth, rfl⟩

lemma Tracks.inside (h : Tracks s (d + 1) t) : Tracks (Line.newline s) (d + 1) (t ++ [' ']) := by
  have hdepth : 0 < s.depth := by simp [h.depth]
  unfold Line.newline
  simp only [gt_iff_lt, hdepth, if_true]
  exact h.append rfl h.depth rfl

/-- **The scan follows the grammar**, unless it finds a fault. -/
lemma tracks_of_reads {source : String} (h : Reads source.toList rest d t) :
    (∃ f, scan source = .error f) ∨ ∃ s, Tracks s d t ∧ scan source = scanFrom s rest := by
  induction h with
  | start => exact .inr ⟨init, ⟨rfl, rfl, rfl⟩, rfl⟩
  | plain hc _ ih =>
    refine ih.imp_right ?_
    rintro ⟨s, hs, hscan⟩
    exact ⟨_, hs.plain hc, hscan.trans (scanFrom_of_code hs.phase)⟩
  | @opening c rest t d hc _ ih =>
    refine ih.imp_right ?_
    rintro ⟨s, hs, hscan⟩
    have hdepth : depthAfter d c = d + 1 := by simp [depthAfter, hc]
    refine ⟨_, hdepth ▸ hs.kept, hscan.trans ?_⟩
    rw [scanFrom_of_code hs.phase, codeStep_bracket (.inl hc)]
  | @closing c rest t d hc _ ih =>
    refine ih.imp_right ?_
    rintro ⟨s, hs, hscan⟩
    have hdepth : depthAfter (d + 1) c = d := by
      have hopening : isOpening c = false := by
        simp only [isClosing, Bool.or_eq_true, beq_iff_eq] at hc
        rcases hc with (rfl | rfl) | rfl <;> decide
      simp [depthAfter, hc, hopening]
    refine ⟨_, hdepth ▸ hs.kept, hscan.trans ?_⟩
    rw [scanFrom_of_code hs.phase, codeStep_bracket (.inr hc)]
  | literal hq hlit _ ih =>
    rcases ih with hfault | ⟨s, hs, hscan⟩
    · exact .inl hfault
    · rw [hscan]
      exact hs.literal hq hlit
  | comment hbody hrest _ ih =>
    refine ih.imp_right ?_
    rintro ⟨s, hs, hscan⟩
    exact ⟨s, hs, hscan.trans (scanFrom_comment hbody hrest hs.phase)⟩
  | join hnl _ ih =>
    refine ih.imp_right ?_
    rintro ⟨s, hs, hscan⟩
    exact ⟨join s, hs.append rfl hs.depth rfl, hscan.trans (scanFrom_join hnl hs.phase)⟩
  | inside hnl _ ih =>
    refine ih.imp_right ?_
    rintro ⟨s, hs, hscan⟩
    exact ⟨_, hs.inside, hscan.trans (scanFrom_newline hnl hs.phase)⟩
  | newline hnl _ ih =>
    refine ih.imp_right ?_
    rintro ⟨s, hs, hscan⟩
    exact ⟨_, hs.newline, hscan.trans (scanFrom_newline hnl hs.phase)⟩
  | semicolon _ ih =>
    refine ih.imp_right ?_
    rintro ⟨s, hs, hscan⟩
    refine ⟨semicolon s, ⟨hs.phase, hs.depth, rfl⟩, hscan.trans ?_⟩
    rw [scanFrom_of_code hs.phase, codeStep_semicolon hs.depth]

/-! ### Lines that are done -/

lemma done_finish (s : St) : s.done ⊆ (finish s).done := by
  unfold finish
  dsimp only
  split_ifs
  · exact List.Subset.refl _
  · exact List.subset_append_left _ _

lemma done_newline (s : St) : s.done ⊆ (Line.newline s).done := by
  unfold Line.newline
  dsimp only
  split_ifs
  · exact List.Subset.refl _
  · exact done_finish _

lemma done_plain (s : St) (c : Char) : (plain s c).done = s.done := by simp [plain, push]

lemma done_codeStep (s : St) (c : Char) : s.done ⊆ (codeStep s c).done := by
  unfold codeStep
  split_ifs
  · exact List.Subset.refl _
  · exact List.Subset.refl _
  · exact List.Subset.refl _
  · exact List.Subset.refl _
  · exact done_newline s
  · exact List.Subset.refl _
  · exact List.Subset.refl _
  · simp
  · exact done_finish s
  · rw [done_plain]
    exact List.Subset.refl _

lemma done_slashStep (s : St) (c : Char) : s.done ⊆ (slashStep s c).done := by
  have hslash := done_codeStep (plain { s with phase := .code } '\\') c
  rwa [done_plain] at hslash

lemma done_stringStep {z : Quoted} {k : ℕ} (h : stringStep s z k c = .ok s') :
    s.done ⊆ s'.done := by
  unfold stringStep at h
  split_ifs at h <;> cases h <;> exact List.Subset.refl _

/-- No line that is done is lost. -/
lemma done_step (h : step s c = .ok s') : s.done ⊆ s'.done := by
  unfold step at h
  split at h
  case h_1 =>
    cases h
    exact done_codeStep s c
  case h_2 =>
    cases h
    split_ifs
    · exact done_newline s
    · exact List.Subset.refl _
  case h_3 =>
    cases h
    split_ifs
    · exact List.Subset.refl _
    · exact List.Subset.refl _
    · exact done_slashStep s c
  case h_4 =>
    cases h
    split_ifs
    · exact List.Subset.refl _
    · exact done_slashStep s c
  case h_5 =>
    split_ifs at h
    · cases h
      exact List.Subset.refl _
    · exact done_stringStep h
  case h_6 =>
    split_ifs at h
    · cases h
      exact List.Subset.refl _
    · cases h
      exact done_codeStep (literal s _) c
  case h_7 => exact done_stringStep h
  case h_8 =>
    cases h
    exact List.Subset.refl _

lemma done_settle (h : settle s = .ok s') : s'.done = s.done := by
  unfold settle at h
  split at h <;> cases h
  · rfl
  · rfl
  · exact done_plain _ _
  · exact done_plain _ _
  · rfl

lemma done_run (h : run s cs = .ok s') : s.done ⊆ s'.done := by
  induction cs generalizing s with
  | nil =>
    cases h
    exact List.Subset.refl _
  | cons c cs ih =>
    rw [run, List.foldlM_cons] at h
    obtain ⟨s₁, hstep, hrun⟩ := except_bind_ok.mp h
    exact List.Subset.trans (done_step hstep) (ih hrun)

lemma done_scanFrom {ls : List Line} (h : scanFrom s cs = .ok ls) : s.done ⊆ ls := by
  obtain ⟨s₁, hrun, h⟩ := except_bind_ok.mp h
  obtain ⟨s₂, hsettle, hclose⟩ := except_bind_ok.mp h
  have hdone := done_run hrun
  rw [← done_settle hsettle] at hdone
  unfold close at hclose
  split_ifs at hclose
  cases hclose
  exact List.Subset.trans hdone (done_finish s₂)

/-! ### Every statement is a line -/

lemma trim_text (h : Tracks s d t) : trim s.text = trim t := by rw [trim, trim, h.text]

/-- The statement is done where it ends. -/
lemma mem_finish (h : Tracks s d t) (ht : trim t ≠ []) :
    ∃ l ∈ (finish s).done, l.text = String.ofList (trim t) := by
  have htext : (trim s.text).isEmpty = false := by
    rw [trim_text h]
    exact List.isEmpty_eq_false_iff.mpr ht
  refine ⟨⟨s.start, s.indent, String.ofList (trim s.text)⟩, ?_, by rw [trim_text h]⟩
  simp [finish, htext]

/-- **Every statement is a logical line**, with its text as it has been read. -/
lemma exists_line_of_reads {source : String} (h : Reads source.toList rest 0 t)
    (hend : EndsStatement rest) (ht : trim t ≠ []) {ls : List Line}
    (hscan : scan source = .ok ls) : ∃ l ∈ ls, l.text = String.ofList (trim t) := by
  rcases tracks_of_reads h with ⟨f, hfault⟩ | ⟨s, hs, hfrom⟩
  · rw [hscan] at hfault
    cases hfault
  have hfinish := mem_finish hs ht
  have hmem : ∀ s' rest', scanFrom s rest = scanFrom s' rest' → (finish s).done ⊆ s'.done →
      ∃ l ∈ ls, l.text = String.ofList (trim t) := by
    intro s' rest' hsame hdone
    obtain ⟨l, hl, htext⟩ := hfinish
    exact ⟨l, done_scanFrom (hsame.symm.trans (hfrom.symm.trans hscan)) (hdone hl), htext⟩
  cases hend with
  | source =>
    have hclose : scanFrom s [] = .ok (finish s).done := by
      change (settle s >>= close) = _
      rw [settle, hs.phase]
      change close s = _
      simp [close, hs.depth]
    rw [hfrom, hclose] at hscan
    cases hscan
    exact hfinish
  | newline hnl rest =>
    refine hmem (Line.newline s) rest (scanFrom_newline hnl hs.phase) ?_
    have hdepth : ¬ 0 < s.depth := by simp [hs.depth]
    unfold Line.newline
    simp only [gt_iff_lt, hdepth, if_false]
    exact List.Subset.refl _
  | semicolon rest =>
    refine hmem (semicolon s) rest ?_ ?_
    · rw [scanFrom_of_code hs.phase, codeStep_semicolon hs.depth]
    · exact List.Subset.refl _

end Tracking

end Line

end ContractBuild.Python
