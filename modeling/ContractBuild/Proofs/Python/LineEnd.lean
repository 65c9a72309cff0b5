import Mathlib
import ContractBuild.Proofs.Python.Token

/-!
Ends of line with a carriage return. A source has the same logical lines whether its lines end with
a line feed or with both, unless a literal in one pair of quotes goes on after an escaped end of
line: there the scan passes over the carriage return, and finds the literal open at the line feed.
-/

namespace ContractBuild.Python.Line

/-- Puts a carriage return in front of every line feed. -/
def withReturns (cs : List Char) : List Char :=
  cs.flatMap fun c => if c = '\n' then ['\r', '\n'] else [c]

/-- **A literal that is joined to the next line.** With `before` the scan has come to a backslash in
a literal that one quote closes; an end of line follows, and later the quote. -/
def JoinsLiteral (source : List Char) : Prop :=
  ∃ before tail rest s z, source = before ++ '\n' :: (tail ++ rest) ∧
    run init before = .ok s ∧ s.phase = .escape z ∧ z.triple = false ∧ ShortTail z.quote tail

section LineEnds

variable {source before rest cs : List Char} {s s' t : St} {c : Char} {f : Fault} {z : Quoted}
  {n k : ℕ}

lemma withReturns_cons (hc : c ≠ '\n') (cs : List Char) :
    withReturns (c :: cs) = c :: withReturns cs := by simp [withReturns, hc]

lemma withReturns_append (cs cs' : List Char) :
    withReturns (cs ++ cs') = withReturns cs ++ withReturns cs' := List.flatMap_append

/-! ### Lines and open literals -/

/-- What has been read since `s`: lines, and perhaps the beginning of a literal. -/
structure Advances (s s' : St) : Prop where
  line : s.line ≤ s'.line
  opened : ∀ n ∈ s'.phase.opened?, n ∈ s.phase.opened? ∨ s.line ≤ n ∧ n ≤ s'.line

lemma Advances.trans (h : Advances s t) (h' : Advances t s') : Advances s s' := by
  have hline := h.line
  have hline' := h'.line
  refine ⟨hline.trans hline', fun n hn => ?_⟩
  rcases h'.opened n hn with hold | hnew
  · rcases h.opened n hold with holder | hnew
    · exact .inl holder
    · exact .inr (by omega)
  · exact .inr (by omega)

lemma line_newline (s : St) : (newline s).line = s.line + 1 := by
  unfold newline
  dsimp only
  split_ifs <;> rfl

lemma advances_of_code (hs' : s'.phase = .code) (hline : s.line ≤ s'.line) :
    Advances s s' ∧ s'.phase ≠ .slashReturn :=
  ⟨⟨hline, by simp [hs', Phase.opened?]⟩, by simp [hs']⟩

lemma advances_codeStep (h : s.phase = .code) (c : Char) :
    Advances s (codeStep s c) ∧ (codeStep s c).phase ≠ .slashReturn := by
  have hcase := codeStep_cases s c
  generalize codeStep s c = s' at hcase ⊢
  cases hcase with
  | comment => exact ⟨⟨le_rfl, by simp [Phase.opened?]⟩, by simp⟩
  | newline => exact advances_of_code (phase_newline s) (by rw [line_newline]; exact Nat.le_succ _)
  | skip => exact advances_of_code h le_rfl
  | slash => exact ⟨⟨le_rfl, by simp [Phase.opened?]⟩, by simp⟩
  | quote _ =>
    have hline : (begin s).line = s.line := line_begin s
    refine ⟨⟨hline.ge, fun n hn => .inr ?_⟩, by simp⟩
    obtain rfl := Option.some.inj hn
    exact ⟨le_rfl, hline.ge⟩
  | semicolon _ => exact advances_of_code h le_rfl
  | indent _ _ _ column => exact advances_of_code h le_rfl
  | plain _ _ => exact advances_of_code ((phase_plain s c).trans h) (line_plain s c).ge

lemma advances_stringStep (hz : z.opened ∈ s.phase.opened?) (h : stringStep s z k c = .ok s') :
    Advances s s' ∧ s'.phase ≠ .slashReturn := by
  unfold stringStep at h
  split_ifs at h <;> cases h
  · exact ⟨⟨le_rfl, fun n hn => .inl (Option.some.inj hn ▸ hz)⟩, by simp⟩
  · exact ⟨⟨Nat.le_succ _, fun n hn => .inl (Option.some.inj hn ▸ hz)⟩, by simp⟩
  · exact advances_of_code rfl le_rfl
  · exact ⟨⟨le_rfl, fun n hn => .inl (Option.some.inj hn ▸ hz)⟩, by simp⟩
  · exact ⟨⟨le_rfl, fun n hn => .inl (Option.some.inj hn ▸ hz)⟩, by simp⟩

lemma advances_slashStep (s : St) (c : Char) :
    Advances s (slashStep s c) ∧ (slashStep s c).phase ≠ .slashReturn := by
  have hphase : (plain { s with phase := .code } '\\').phase = .code := phase_plain _ _
  have hline : (plain { s with phase := .code } '\\').line = s.line := line_plain _ _
  obtain ⟨⟨hle, hopened⟩, hslash⟩ := advances_codeStep hphase c
  refine ⟨⟨hline ▸ hle, fun n hn => .inr ?_⟩, hslash⟩
  have hnew := hopened n hn
  rw [hphase, hline] at hnew
  exact hnew.resolve_left (by simp [Phase.opened?])

/-- The scan never goes back to an earlier line. -/
lemma advances_step (h : step s c = .ok s') :
    Advances s s' ∧ (c ≠ '\r' → s'.phase ≠ .slashReturn) := by
  cases hphase : s.phase with
  | code =>
    rw [step, hphase] at h
    cases h
    exact (advances_codeStep hphase c).imp_right fun hslash _ => hslash
  | comment =>
    rw [step, hphase] at h
    cases h
    split_ifs
    · have hline : s.line ≤ (newline s).line := (Nat.le_succ _).trans_eq (line_newline s).symm
      exact (advances_of_code (phase_newline s) hline).imp_right fun hslash _ => hslash
    · exact ⟨⟨le_rfl, fun n hn => .inl hn⟩, by simp [hphase]⟩
  | slash =>
    rw [step, hphase] at h
    cases h
    split_ifs with hfeed hreturn
    · exact (advances_of_code rfl (Nat.le_succ _)).imp_right fun hslash _ => hslash
    · exact ⟨⟨le_rfl, by simp [Phase.opened?]⟩, fun hc => absurd (beq_iff_eq.mp hreturn) hc⟩
    · exact (advances_slashStep s c).imp_right fun hslash _ => hslash
  | slashReturn =>
    rw [step, hphase] at h
    cases h
    split_ifs with hfeed
    · exact (advances_of_code rfl (Nat.le_succ _)).imp_right fun hslash _ => hslash
    · exact (advances_slashStep s c).imp_right fun hslash _ => hslash
  | quoteOne q opened =>
    have hopened : opened ∈ s.phase.opened? := by rw [hphase]; rfl
    simp only [step, hphase] at h
    split_ifs at h
    · cases h
      exact ⟨⟨le_rfl, fun n hn => .inl (Option.some.inj hn ▸ hopened)⟩, by simp⟩
    · exact (advances_stringStep (z := ⟨q, opened, false⟩) hopened h).imp_right fun hslash _ =>
        hslash
  | quoteTwo q opened =>
    have hopened : opened ∈ s.phase.opened? := by rw [hphase]; rfl
    simp only [step, hphase] at h
    split_ifs at h
    · cases h
      exact ⟨⟨le_rfl, fun n hn => .inl (Option.some.inj hn ▸ hopened)⟩, by simp⟩
    · cases h
      have hcode : (literal s q).phase = .code := rfl
      obtain ⟨⟨hle, hnew⟩, hslash⟩ := advances_codeStep hcode c
      refine ⟨⟨hle, fun n hn => .inr ((hnew n hn).resolve_left ?_)⟩, fun _ => hslash⟩
      simp [hcode, Phase.opened?]
  | string z k =>
    rw [step, hphase] at h
    have hopened : z.opened ∈ s.phase.opened? := by rw [hphase]; rfl
    exact (advances_stringStep hopened h).imp_right fun hslash _ => hslash
  | escape z =>
    rw [step, hphase] at h
    cases h
    have hopened : z.opened ∈ s.phase.opened? := by rw [hphase]; rfl
    refine ⟨⟨?_, fun n hn => .inl (Option.some.inj hn ▸ hopened)⟩, by simp⟩
    dsimp only
    split_ifs <;> simp

lemma advances_run (h : run s cs = .ok s') : Advances s s' := by
  induction cs generalizing s with
  | nil =>
    cases h
    exact ⟨le_rfl, fun n hn => .inl hn⟩
  | cons c cs ih =>
    rw [run, List.foldlM_cons] at h
    obtain ⟨t, hstep, hrun⟩ := except_bind_ok.mp h
    exact (advances_step hstep).1.trans (ih hrun)

/-- A literal that is not closed is the open one or a later one. -/
lemma opened_of_scanFrom (h : scanFrom s cs = .error ⟨n, .unterminatedString⟩) :
    n ∈ s.phase.opened? ∨ s.line ≤ n := by
  induction cs generalizing s with
  | nil =>
    have hend : (settle s >>= close) = .error ⟨n, .unterminatedString⟩ := h
    rcases except_bind_error.mp hend with hsettle | ⟨t, -, hclose⟩
    · obtain ⟨m, hm, heq⟩ := settle_eq_error hsettle
      cases heq
      exact .inl hm
    · unfold close at hclose
      split_ifs at hclose
      cases hclose
  | cons c cs ih =>
    cases hstep : step s c with
    | error f =>
      rw [scanFrom_of_fault hstep] at h
      cases h
      obtain ⟨m, hm, heq⟩ := step_eq_error hstep
      cases heq
      exact .inl hm
    | ok t =>
      rw [scanFrom_of_step hstep] at h
      obtain ⟨⟨hline, hopened⟩, -⟩ := advances_step hstep
      rcases ih h with hold | hnew
      · exact (hopened n hold).imp_right And.left
      · exact .inr (hline.trans hnew)

/-! ### The two runs -/

lemma scanFrom_append_of_fault (h : run s cs = .error f) (rest : List Char) :
    scanFrom s (cs ++ rest) = .error f := by
  rw [scanFrom, run_append, h]
  rfl

/-- In a literal a carriage return is a character like any other. -/
lemma step_return_of_string (h : s.phase = .string z k ∨ s.phase = .escape z)
    (hq : z.quote = '\'' ∨ z.quote = '"') :
    step s '\r' = .ok { s with phase := .string z 0 } := by
  have hne : '\r' ≠ z.quote := by rcases hq with hq | hq <;> rw [hq] <;> decide
  rcases h with h | h
  · simp [step, h, stringStep, hne]
  · simp [step, h]

lemma run_pair (s : St) (c c' : Char) : run s [c, c'] = step s c >>= fun t => step t c' := by
  rw [run, List.foldlM_cons]
  exact bind_congr fun t => bind_pure _

/-- **An end of line is read alike** with a carriage return and without, except after a backslash
in a literal of one pair of quotes. -/
lemma run_returnFeed (hrun : run init before = .ok s) (hslash : s.phase ≠ .slashReturn)
    (hjoin : ∀ z, s.phase = .escape z → z.triple = true) : run s ['\r', '\n'] = step s '\n' := by
  have hquote : ∀ q, s.phase.quote? = some q → q = '\'' ∨ q = '"' := fun q => quote_of_run hrun
  rw [run_pair]
  cases hphase : s.phase with
  | code =>
    have hreturn : step s '\r' = .ok s := by
      rw [step, hphase]
      exact congrArg Except.ok (codeStep_return s)
    rw [hreturn]
    rfl
  | comment =>
    have hreturn : step s '\r' = .ok s := by rw [step, hphase]; rfl
    rw [hreturn]
    rfl
  | slash =>
    have hreturn : step s '\r' = .ok { s with phase := .slashReturn } := by rw [step, hphase]; rfl
    rw [hreturn, step, hphase]
    rfl
  | slashReturn => exact absurd hphase hslash
  | quoteOne q opened =>
    have hq := hquote q (by rw [hphase]; rfl)
    have hreturn : step s '\r' = .ok { s with phase := .string ⟨q, opened, false⟩ 0 } := by
      rcases hq with rfl | rfl <;> rw [step, hphase] <;> rfl
    rw [hreturn, step, hphase]
    rcases hq with rfl | rfl <;> rfl
  | quoteTwo q opened =>
    have hq := hquote q (by rw [hphase]; rfl)
    have hother : ∀ c, c ≠ q → step s c = .ok (codeStep (literal s q) c) := by
      intro c hc
      simp [step, hphase, hc]
    have hne : '\r' ≠ q ∧ '\n' ≠ q := by rcases hq with rfl | rfl <;> decide
    rw [hother _ hne.1, hother _ hne.2, codeStep_return]
    rfl
  | string z k =>
    rw [step_return_of_string (.inl hphase) (hquote _ (by rw [hphase]; rfl)), step, hphase]
    rfl
  | escape z =>
    rw [step_return_of_string (k := 0) (.inr hphase) (hquote _ (by rw [hphase]; rfl)), step, hphase]
    simp [bind, Except.bind, step, stringStep, hjoin z hphase]

lemma run_returnFeed_of_escape (hrun : run init before = .ok s) (h : s.phase = .escape z)
    (hz : z.triple = false) : run s ['\r', '\n'] = .error ⟨z.opened, .unterminatedString⟩ := by
  have hquote := quote_of_run hrun (q := z.quote) (by rw [h]; rfl)
  rw [run_pair, step_return_of_string (k := 0) (.inr h) hquote]
  simp [bind, Except.bind, step, stringStep, hz]

/-! ### Literals that are joined -/

/-- A literal of one pair of quotes is closed where it ends. -/
lemma exists_run_of_shortTail (h : ShortTail z.quote cs) (hreturn : '\r' ∉ cs)
    (hz : z.triple = false) (hq : z.quote = '\'' ∨ z.quote = '"') (hs : s.phase = .string z k) :
    ∃ s', run s cs = .ok s' ∧ s'.phase = .code := by
  have hcons : ∀ {s t : St} {c : Char} {cs : List Char}, step s c = .ok t →
      (∃ s', run t cs = .ok s' ∧ s'.phase = .code) →
      ∃ s', run s (c :: cs) = .ok s' ∧ s'.phase = .code := by
    rintro s t c cs hstep ⟨s', hrun, hs'⟩
    exact ⟨s', by rw [run, List.foldlM_cons, hstep]; exact hrun, hs'⟩
  obtain ⟨hslash, hfeed⟩ := ne_of_quote hq
  induction h generalizing s k with
  | close =>
    refine ⟨literal s z.quote, ?_, rfl⟩
    rw [run, List.foldlM_cons]
    simp [step, hs, stringStep, hslash, hfeed, hz]
  | char hquote hslash' hfeed' _ ih =>
    refine hcons (t := { s with phase := .string z 0 }) ?_
      (ih (List.not_mem_of_not_mem_cons hreturn) rfl)
    simp [step, hs, stringStep, hquote, hslash', hfeed']
  | escape c _ ih =>
    refine hcons (t := { s with phase := .escape z }) (by simp [step, hs, stringStep]) ?_
    exact hcons rfl (ih (List.not_mem_of_not_mem_cons (List.not_mem_of_not_mem_cons hreturn)) rfl)
  | escapeNewline _ _ => exact absurd (by simp) hreturn

/-- In a literal of one pair of quotes, `cs` does not close it. -/
inductive StaysOpen (z : Quoted) (s : St) (cs : List Char) : Prop where
  | string {k : ℕ} (hs : s.phase = .string z k)
      (hcs : ∀ tail, tail <+: cs → ¬ ShortTail z.quote tail)
  | escape (hs : s.phase = .escape z)
      (hcs : ∀ tail, tail <+: cs → ¬ ShortTail z.quote ('\\' :: tail))

/-- Then it is a fault, on the line where the literal begins. -/
lemma StaysOpen.scanFrom (h : StaysOpen z s cs) (hz : z.triple = false) :
    scanFrom s cs = .error ⟨z.opened, .unterminatedString⟩ := by
  induction cs generalizing s with
  | nil =>
    change (settle s >>= close) = _
    cases h with
    | string hs => rw [settle, hs]; rfl
    | escape hs => rw [settle, hs]; rfl
  | cons c cs ih =>
    cases h with
    | escape hs hcs =>
      have hopen : ∀ tail, tail <+: cs → ¬ ShortTail z.quote tail := fun tail htail hclose =>
        hcs (c :: tail) (List.cons_prefix_cons.mpr ⟨rfl, htail⟩) (.escape c hclose)
      obtain ⟨line, hstep⟩ : ∃ line, step s c = .ok { s with phase := .string z 0, line } :=
        ⟨_, by rw [step, hs]⟩
      rw [scanFrom_of_step hstep]
      exact ih (.string rfl hopen)
    | string hs hcs =>
      by_cases hslash : c = '\\'
      · subst hslash
        have hopen : ∀ tail, tail <+: cs → ¬ ShortTail z.quote ('\\' :: tail) := fun tail htail =>
          hcs _ (List.cons_prefix_cons.mpr ⟨rfl, htail⟩)
        have hstep : step s '\\' = .ok { s with phase := .escape z } := by rw [step, hs]; rfl
        rw [scanFrom_of_step hstep]
        exact ih (.escape rfl hopen)
      by_cases hfeed : c = '\n'
      · exact scanFrom_of_fault (by simp [step, hs, stringStep, hfeed, hz])
      by_cases hquote : c = z.quote
      · have hclose : ShortTail z.quote [c] := hquote ▸ .close
        exact absurd hclose (hcs [c] (List.cons_prefix_cons.mpr ⟨rfl, List.nil_prefix⟩))
      · have hopen : ∀ tail, tail <+: cs → ¬ ShortTail z.quote tail := fun tail htail hclose =>
          hcs (c :: tail) (List.cons_prefix_cons.mpr ⟨rfl, htail⟩)
            (.char hquote hslash hfeed hclose)
        have hstep : step s c = .ok { s with phase := .string z 0 } := by
          simp [step, hs, stringStep, hslash, hfeed, hquote]
        rw [scanFrom_of_step hstep]
        exact ih (.string rfl hopen)

/-! ### The whole source -/

/-- What has been read of a source without carriage returns. -/
structure Before (before : List Char) (s : St) : Prop where
  ends : run init before = .ok s
  slash : s.phase ≠ .slashReturn
  opened : ∀ n ∈ s.phase.opened?, n ≤ s.line

lemma before_nil : Before [] init := ⟨rfl, by simp [init], by simp [init, Phase.opened?]⟩

lemma Before.concat (h : Before before s) (hc : c ≠ '\r') (hstep : step s c = .ok s') :
    Before (before ++ [c]) s' := by
  obtain ⟨⟨hline, hopened⟩, hslash⟩ := advances_step hstep
  refine ⟨(run_concat c h.ends).trans hstep, hslash hc, fun n hn => ?_⟩
  rcases hopened n hn with hold | hnew
  · exact (h.opened n hold).trans hline
  · exact hnew.2

/-- The run over `before` with carriage returns ends in the same state, or in the fault of a literal
that begins on no later line. -/
def RunsAlike (before : List Char) (s : St) : Prop :=
  run init (withReturns before) = .ok s ∨
    ∃ n ≤ s.line, run init (withReturns before) = .error ⟨n, .unterminatedString⟩

/-- One character. -/
lemma Before.run_withReturns (h : Before before s) (hjoin : c = '\n' → ∀ z, s.phase = .escape z →
    z.triple = true) : run s (withReturns [c]) = step s c := by
  by_cases hc : c = '\n'
  · subst hc
    exact run_returnFeed h.ends h.slash (hjoin rfl)
  · rw [withReturns_cons hc]
    exact run_concat c (show run s [] = .ok s from rfl)

lemma RunsAlike.concat (halike : RunsAlike before s) (h : Before before s)
    (hstep : step s c = .ok s') : RunsAlike (before ++ [c]) s' := by
  have hline := (advances_step hstep).1.line
  rw [RunsAlike, withReturns_append, run_append]
  rcases halike with hrun | ⟨n, hn, hrun⟩
  · rw [hrun]
    change run s (withReturns [c]) = _ ∨ ∃ n ≤ s'.line, run s (withReturns [c]) = _
    by_cases hjoin : c = '\n' → ∀ z, s.phase = .escape z → z.triple = true
    · exact .inl ((h.run_withReturns hjoin).trans hstep)
    · simp only [Classical.not_imp, not_forall, Bool.not_eq_true] at hjoin
      obtain ⟨rfl, z, hz, htriple⟩ := hjoin
      have hopened : z.opened ≤ s.line := h.opened _ (by rw [hz]; rfl)
      exact .inr ⟨z.opened, hopened.trans hline, run_returnFeed_of_escape h.ends hz htriple⟩
  · exact .inr ⟨n, hn.trans hline, by rw [hrun]; rfl⟩

lemma before_of_run (hreturn : '\r' ∉ before) (hrun : run init before = .ok s) :
    Before before s ∧ RunsAlike before s := by
  induction before using List.reverseRecOn generalizing s with
  | nil =>
    cases hrun
    exact ⟨before_nil, .inl rfl⟩
  | append_singleton before c ih =>
    have hsplit := hrun
    rw [run_append] at hsplit
    obtain ⟨t, ht, -⟩ := except_bind_ok.mp hsplit
    rw [run_concat c ht] at hrun
    simp only [List.mem_append, List.mem_singleton, not_or] at hreturn
    obtain ⟨hbefore, halike⟩ := ih hreturn.1 ht
    exact ⟨hbefore.concat (Ne.symm hreturn.2) hrun, halike.concat hbefore hrun⟩

/-- Where no literal is joined to the next line, the runs end alike. -/
lemma Before.scanFrom_withReturns (h : Before before s) (hreturn : '\r' ∉ rest)
    (hjoin : ¬ JoinsLiteral (before ++ rest)) :
    scanFrom s (withReturns rest) = scanFrom s rest := by
  induction rest generalizing before s with
  | nil => rfl
  | cons c rest ih =>
    obtain ⟨hc, hreturn⟩ := List.ne_and_not_mem_of_not_mem_cons hreturn
    have hsplit : withReturns (c :: rest) = withReturns [c] ++ withReturns rest :=
      withReturns_append [c] rest
    rw [hsplit]
    by_cases halike : c = '\n' → ∀ z, s.phase = .escape z → z.triple = true
    · have hrun := h.run_withReturns halike
      cases hstep : step s c with
      | error f => rw [scanFrom_append_of_fault (hrun.trans hstep), scanFrom_of_fault hstep]
      | ok t =>
        rw [scanFrom_append (hrun.trans hstep), scanFrom_of_step hstep]
        exact ih (h.concat (Ne.symm hc) hstep) hreturn (by simpa using hjoin)
    · simp only [Classical.not_imp, not_forall, Bool.not_eq_true] at halike
      obtain ⟨rfl, z, hz, htriple⟩ := halike
      have hopen : ∀ tail, tail <+: rest → ¬ ShortTail z.quote tail := by
        rintro tail ⟨after, rfl⟩ hclose
        exact hjoin ⟨before, tail, after, s, z, rfl, h.ends, hz, htriple, hclose⟩
      obtain ⟨line, hstep⟩ : ∃ line, step s '\n' = .ok { s with phase := .string z 0, line } :=
        ⟨_, by rw [step, hz]⟩
      have hfault : run s (withReturns ['\n']) = .error ⟨z.opened, .unterminatedString⟩ :=
        run_returnFeed_of_escape h.ends hz htriple
      rw [scanFrom_append_of_fault hfault, scanFrom_of_step hstep,
        StaysOpen.scanFrom (.string rfl hopen) htriple]

/-- With carriage returns, a literal that is joined to the next line is a fault. -/
lemma JoinsLiteral.exists_fault (h : JoinsLiteral source) (hreturn : '\r' ∉ source) :
    ∃ n, scanFrom init (withReturns source) = .error ⟨n, .unterminatedString⟩ ∧
      scanFrom init source ≠ .error ⟨n, .unterminatedString⟩ := by
  obtain ⟨before, tail, rest, s, z, rfl, hrun, hz, htriple, hclose⟩ := h
  simp only [List.mem_append, List.mem_cons, not_or] at hreturn
  obtain ⟨hbefore, -, htail, -⟩ := hreturn
  obtain ⟨hs, halike⟩ := before_of_run hbefore hrun
  have hquote := quote_of_run hrun (q := z.quote) (by rw [hz]; rfl)
  have hopened : z.opened ≤ s.line := hs.opened _ (by rw [hz]; rfl)
  obtain ⟨n, hn, hfault⟩ : ∃ n ≤ s.line,
      run init (withReturns (before ++ ['\n'])) = .error ⟨n, .unterminatedString⟩ := by
    rw [withReturns_append, run_append]
    rcases halike with hok | ⟨n, hn, hfault⟩
    · rw [hok]
      exact ⟨z.opened, hopened, run_returnFeed_of_escape hrun hz htriple⟩
    · exact ⟨n, hn, by rw [hfault]; rfl⟩
  -- without them the literal is closed on a later line, where no other one has begun
  have hstep : step s '\n' = .ok { s with phase := .string z 0, line := s.line + 1 } := by
    rw [step, hz]
    rfl
  obtain ⟨t, ht, hcode⟩ := exists_run_of_shortTail hclose htail htriple hquote
    (show { s with phase := .string z 0, line := s.line + 1 }.phase = .string z 0 from rfl)
  have hline : s.line + 1 ≤ t.line := (advances_run ht).line
  refine ⟨n, ?_, fun hscan => ?_⟩
  · have hsplit : withReturns (before ++ '\n' :: (tail ++ rest)) =
        withReturns (before ++ ['\n']) ++ withReturns (tail ++ rest) := by
      rw [← withReturns_append, List.append_assoc]
      rfl
    rw [hsplit, scanFrom_append_of_fault hfault]
  · rw [scanFrom_append hrun, scanFrom_of_step hstep, scanFrom_append ht] at hscan
    have hlater := (opened_of_scanFrom hscan).resolve_left (by simp [hcode, Phase.opened?])
    omega

/-- **The logical lines do not depend on how the lines end**, unless a literal in one pair of quotes
is joined to the next line. Then the source with carriage returns is a fault, and the one without is
read or is another fault. -/
theorem scan_withReturns {source : List Char} (h : '\r' ∉ source) :
    (scan (String.ofList (withReturns source)) = scan (String.ofList source) ↔
      ¬ JoinsLiteral source) ∧
    (JoinsLiteral source →
      ∃ n, scan (String.ofList (withReturns source)) = .error ⟨n, .unterminatedString⟩) := by
  have hscan : ∀ cs, scan (String.ofList cs) = scanFrom init cs := fun cs => by
    rw [scan, String.toList_ofList, scanFrom]
  rw [hscan, hscan]
  refine ⟨⟨fun hsame hjoins => ?_, fun hjoins => ?_⟩, fun hjoins => ?_⟩
  · obtain ⟨n, hfault, hne⟩ := hjoins.exists_fault h
    exact hne (hsame ▸ hfault)
  · exact before_nil.scanFrom_withReturns h hjoins
  · obtain ⟨n, hfault, -⟩ := hjoins.exists_fault h
    exact ⟨n, hfault⟩

/-- A comment, brackets, joined lines, and literals in one pair of quotes and in three. -/
theorem scan_withReturns_joined :
    '\r' ∉ "f(# ')\n\t'', \\\n \"a\")\n'''b\\\n'\n'''".toList ∧
      scan (String.ofList "f(# ')\n\t'', \\\n \"a\")\n'''b\\\n'\n'''".toList) =
        .ok [⟨1, 0, "f( \t'',   \"\")"⟩, ⟨4, 0, "''"⟩] ∧
      scan (String.ofList (withReturns "f(# ')\n\t'', \\\n \"a\")\n'''b\\\n'\n'''".toList)) =
        .ok [⟨1, 0, "f( \t'',   \"\")"⟩, ⟨4, 0, "''"⟩] ∧
      ¬ JoinsLiteral "f(# ')\n\t'', \\\n \"a\")\n'''b\\\n'\n'''".toList := by
  have hreturn : '\r' ∉ "f(# ')\n\t'', \\\n \"a\")\n'''b\\\n'\n'''".toList := by decide
  have hfeeds : scan (String.ofList "f(# ')\n\t'', \\\n \"a\")\n'''b\\\n'\n'''".toList) =
      .ok [⟨1, 0, "f( \t'',   \"\")"⟩, ⟨4, 0, "''"⟩] := by rfl
  have hreturns :
      scan (String.ofList (withReturns "f(# ')\n\t'', \\\n \"a\")\n'''b\\\n'\n'''".toList)) =
        .ok [⟨1, 0, "f( \t'',   \"\")"⟩, ⟨4, 0, "''"⟩] := by rfl
  exact ⟨hreturn, hfeeds, hreturns, (scan_withReturns hreturn).1.mp (hreturns.trans hfeeds.symm)⟩

/-- A literal that goes on after an escaped end of line, and is closed. -/
theorem scan_of_joined_literal :
    JoinsLiteral "x = 'a\\\nb'\n".toList ∧ scan "x = 'a\\\nb'\n" = .ok [⟨1, 0, "x = ''"⟩] ∧
      scan "x = 'a\\\r\nb'\n" = .error ⟨1, .unterminatedString⟩ :=
  ⟨⟨"x = 'a\\".toList, "b'".toList, ['\n'], _, ⟨'\'', 1, false⟩, by rfl, by rfl, rfl, rfl,
    .char (by decide) (by decide) (by decide) .close⟩, by rfl, by rfl⟩

end LineEnds

end ContractBuild.Python.Line
