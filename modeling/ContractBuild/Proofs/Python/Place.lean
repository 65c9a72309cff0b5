import Mathlib
import ContractBuild.Proofs.Python.Token
import ContractBuild.Proofs.Text.Nested

/-!
Where a statement starts in the source. The place of its first character is told by what the scan
has read up to it, and a statement has one place only.
-/

namespace ContractBuild.Python.Line

open ContractBuild.Text

/-- The lines `ls` have been read, and after them nothing but blanks. -/
structure IsAhead (ls : List Line) (s : St) : Prop where
  phase : s.phase = .code
  depth : s.depth = 0
  blank : IsGap s.text
  done : s.done = ls

/-- A statement may begin after `stmt`, and `ls` are the lines so far. -/
def Opens (ls : List Line) (stmt : List Char) : Prop :=
  ∃ s, run init stmt = .ok s ∧ IsAhead ls s ∧ s.text = []

/-- What may stand in front of a statement's first character. -/
inductive IsLead : List Char → Prop where
  | nil : IsLead []
  | blank {lead : List Char} {c : Char} (hc : isBlank c = true) (hfeed : c ≠ '\n')
      (h : IsLead lead) : IsLead (lead ++ [c])
  | join {lead nl : List Char} (hnl : IsNewline nl) (h : IsLead lead) :
      IsLead (lead ++ '\\' :: nl)

/-- A character that can be the first one of a statement in front of `rest`. -/
structure IsFirst (c : Char) (rest : List Char) : Prop where
  solid : isBlank c = false
  other : c ∉ ['#', ';']
  apart : c = '\\' → ¬ StartsNewline rest

/-- The place from which `c` is read as the first character of the statement after the lines `ls`:
what stands before the place is `stmt` and `lead`. -/
structure Place (source : List Char) (ls : List Line) (c : Char) (stmt lead : List Char) :
    Prop where
  opens : Opens ls stmt
  isLead : IsLead lead
  first : ∃ rest, source = stmt ++ lead ++ c :: rest ∧ IsFirst c rest

section Places

variable {source rest rest' stmt lead stmt' lead' nl cs : List Char} {ls : List Line} {s s' : St}
  {c c' q : Char} {n : ℕ}

/-! ### Up to the place -/

lemma isPlain_of_isBlank (hc : isBlank c = true) (hfeed : c ≠ '\n') (hreturn : c ≠ '\r') :
    isPlain c = true := by
  have hne : ∀ x, isBlank x = false → c ≠ x := by
    rintro x hx rfl
    rw [hx] at hc
    cases hc
  simp [isPlain, isOpening_of_isBlank hc, hfeed, hreturn, hne '#' (by decide),
    hne '\\' (by decide), hne '\'' (by decide), hne '"' (by decide), hne ';' (by decide)]

lemma IsAhead.step_blank (h : IsAhead ls s) (hc : isBlank c = true) (hfeed : c ≠ '\n') :
    ∃ s', step s c = .ok s' ∧ IsAhead ls s' := by
  rw [step, h.phase]
  refine ⟨_, rfl, ?_⟩
  by_cases hreturn : c = '\r'
  · rw [hreturn, codeStep_return]
    exact h
  have hplain := isPlain_of_isBlank hc hfeed hreturn
  rcases codeStep_of_isPlain hplain with ⟨-, -, column, hstep⟩ | hstep
  · rw [hstep]
    exact ⟨h.phase, h.depth, h.blank, h.done⟩
  · rw [hstep]
    refine ⟨(phase_plain s c).trans h.phase, ?_, ?_, (done_plain s c).trans h.done⟩
    · simp [depth_plain, h.depth, depthAfter, isOpening_of_isBlank hc]
    · rw [text_plain]
      exact h.blank.append (isGap_singleton hc)

lemma IsAhead.run_join (h : IsAhead ls s) (hnl : IsNewline nl) :
    ∃ s', run s ('\\' :: nl) = .ok s' ∧ IsAhead ls s' := by
  have hjoin : run s ('\\' :: nl) = .ok (join s) := by
    have hslash : step s '\\' = .ok { s with phase := .slash } := by
      rw [step, h.phase]
      exact congrArg Except.ok (codeStep_slash s)
    rw [run, List.foldlM_cons, hslash]
    cases hnl with
    | feed => rfl
    | returnFeed => rfl
  exact ⟨_, hjoin, rfl, h.depth, h.blank.append (isGap_singleton (by decide)), h.done⟩

lemma IsAhead.run_lead (h : IsAhead ls s) (hlead : IsLead lead) :
    ∃ s', run s lead = .ok s' ∧ IsAhead ls s' := by
  induction hlead with
  | nil => exact ⟨s, rfl, h⟩
  | blank hc hfeed _ ih =>
    obtain ⟨t, hrun, ht⟩ := ih
    rw [run_concat _ hrun]
    exact ht.step_blank hc hfeed
  | join hnl _ ih =>
    obtain ⟨t, hrun, ht⟩ := ih
    rw [run_append, hrun]
    exact ht.run_join hnl

lemma Place.exists_isAhead (h : Place source ls c stmt lead) :
    ∃ s, run init (stmt ++ lead) = .ok s ∧ IsAhead ls s := by
  obtain ⟨s, hrun, hs, -⟩ := h.opens
  rw [run_append, hrun]
  exact hs.run_lead h.isLead

/-! ### After the place -/

/-- The first character of a statement has been read, and `rest` is left. A backslash is one if it
joins nothing. -/
inductive Begun (s : St) (rest : List Char) : Prop where
  | text (h : ¬ IsGap s.text)
  | literal {q : Char} (hq : q = '\'' ∨ q = '"') (h : s.phase.quote? = some q)
  | slash (hphase : s.phase = .slash) (h : ¬ StartsNewline rest)
  | slashReturn (hphase : s.phase = .slashReturn) (h : rest.head? ≠ some '\n')

/-- The first character of the statement after `n` lines has been read. -/
structure IsPast (n : ℕ) (s : St) (rest : List Char) : Prop where
  le : n ≤ s.done.length
  begun : s.done.length = n → Begun s rest

/-- The same with the character in the statement's text. -/
structure IsKeeping (n : ℕ) (s : St) : Prop where
  le : n ≤ s.done.length
  text : s.done.length = n → ¬ IsGap s.text

lemma IsKeeping.same (h : IsKeeping n s) (hdone : s'.done = s.done) (htext : s'.text = s.text) :
    IsPast n s' rest :=
  ⟨hdone ▸ h.le, fun hlen => .text (htext ▸ h.text (hdone ▸ hlen))⟩

lemma IsKeeping.append (h : IsKeeping n s) (hdone : s'.done = s.done)
    (htext : s'.text = s.text ++ cs) : IsKeeping n s' where
  le := hdone ▸ h.le
  text hlen hgap :=
    h.text (hdone ▸ hlen) fun c hc => hgap c (htext ▸ List.mem_append_left cs hc)

/-- The statement becomes a line when it ends. -/
lemma IsKeeping.finish (h : IsKeeping n s) : n < (finish s).done.length := by
  have hle := h.le
  by_cases hempty : trim s.text = []
  · have hne : s.done.length ≠ n := fun hlen => h.text hlen (isGap_of_trim hempty)
    simp only [Line.finish, hempty, List.isEmpty_nil, if_true]
    omega
  · simp only [Line.finish, List.isEmpty_iff, hempty, if_false, List.length_append,
      List.length_singleton]
    omega

lemma IsKeeping.isPast (h : IsKeeping n s) (rest : List Char) : IsPast n s rest := h.same rfl rfl

lemma isKeeping_of_lt (h : n < s.done.length) : IsKeeping n s :=
  ⟨h.le, fun hlen => absurd hlen h.ne'⟩

lemma IsKeeping.newline (h : IsKeeping n s) : IsKeeping n (newline s) := by
  unfold Line.newline
  dsimp only
  split_ifs
  · exact h.append rfl rfl
  · exact isKeeping_of_lt h.finish

lemma IsKeeping.codeStep (h : IsKeeping n s) (c : Char) : IsPast n (codeStep s c) rest := by
  have hcase := codeStep_cases s c
  generalize Line.codeStep s c = s' at hcase ⊢
  cases hcase with
  | comment => exact h.same rfl rfl
  | newline => exact h.newline.isPast rest
  | skip => exact h.isPast rest
  | slash => exact h.same rfl rfl
  | quote _ => exact h.same (done_begin s) (text_begin s)
  | semicolon _ => exact (isKeeping_of_lt h.finish).same rfl rfl
  | indent _ _ _ _ => exact h.same rfl rfl
  | plain _ _ => exact (h.append (done_plain s c) (text_plain s c)).isPast rest

/-- Outside a literal and after no backslash the first character is in the text. -/
lemma IsPast.isKeeping (h : IsPast n s rest) (hphase : s.phase = .code ∨ s.phase = .comment) :
    IsKeeping n s where
  le := h.le
  text hlen := by
    cases h.begun hlen with
    | text h => exact h
    | literal _ hq => rcases hphase with hp | hp <;> rw [hp] at hq <;> cases hq
    | slash hp' _ => rcases hphase with hp | hp <;> rw [hp] at hp' <;> cases hp'
    | slashReturn hp' _ => rcases hphase with hp | hp <;> rw [hp] at hp' <;> cases hp'

/-- In a literal. -/
lemma IsPast.cases_literal (h : IsPast n s rest) (hq : s.phase.quote? = some q)
    (hlen : s.done.length = n) : ¬ IsGap s.text ∨ q = '\'' ∨ q = '"' := by
  cases h.begun hlen with
  | text h => exact .inl h
  | literal hquote hq' => exact .inr (Option.some.inj (hq.symm.trans hq') ▸ hquote)
  | slash hp _ => rw [hp] at hq; cases hq
  | slashReturn hp _ => rw [hp] at hq; cases hq

lemma IsPast.go_on {p : Phase} (h : IsPast n s rest) (hq : s.phase.quote? = some q)
    (hp : p.quote? = some q) (line : ℕ) (rest' : List Char) :
    IsPast n { s with phase := p, line } rest' where
  le := h.le
  begun hlen := by
    rcases h.cases_literal hq hlen with htext | hquote
    · exact .text htext
    · exact .literal hquote hp

lemma isKeeping_of_mem (hle : n ≤ s.done.length) (hc : isBlank c = false) (hmem : c ∈ s.text) :
    IsKeeping n s := ⟨hle, fun _ hgap => hgap.not_mem hc hmem⟩

lemma IsPast.literal (h : IsPast n s rest) (hq : s.phase.quote? = some q) :
    IsKeeping n (literal s q) where
  le := h.le
  text hlen hgap := by
    rcases h.cases_literal hq hlen with htext | hquote
    · exact htext fun c hc => hgap c (by simp [Line.literal, push, hc])
    · have hblank : isBlank q = false := by rcases hquote with rfl | rfl <;> decide
      exact hgap.not_mem hblank (by simp [Line.literal, push])

lemma IsPast.stringStep {z : Quoted} {k : ℕ} (h : IsPast n s rest)
    (hq : s.phase.quote? = some z.quote) (hstep : stringStep s z k c = .ok s') :
    IsPast n s' rest' := by
  rcases stringStep_cases hstep with ⟨-, -, rfl⟩ | ⟨p, hp, rfl⟩
  · exact (h.literal hq).isPast rest'
  · exact h.go_on hq hp _ rest'

lemma IsPast.slashStep (h : IsPast n s rest) (c : Char) : IsPast n (slashStep s c) rest' := by
  have hkeeping : IsKeeping n (plain { s with phase := .code } '\\') := by
    refine isKeeping_of_mem (c := '\\') ?_ (by decide) (by simp [text_plain])
    rw [done_plain]
    exact h.le
  exact hkeeping.codeStep c

/-- A backslash that stands first joins nothing. -/
lemma IsPast.join (h : IsPast n s ('\n' :: rest))
    (hphase : s.phase = .slash ∨ s.phase = .slashReturn) : IsKeeping n (join s) where
  le := h.le
  text hlen hgap := by
    have htext : IsGap s.text := fun c hc => hgap c (List.mem_append_left _ hc)
    cases h.begun hlen with
    | text h => exact h htext
    | literal _ hq => rcases hphase with hp | hp <;> rw [hp] at hq <;> cases hq
    | slash _ h => exact h ⟨['\n'], rest, .feed, rfl⟩
    | slashReturn _ h => exact h rfl

lemma IsPast.slashReturn (h : IsPast n s ('\r' :: rest)) (hphase : s.phase = .slash) :
    IsPast n { s with phase := .slashReturn } rest where
  le := h.le
  begun hlen := by
    cases h.begun hlen with
    | text h => exact .text h
    | literal _ hq => rw [hphase] at hq; cases hq
    | slash _ h =>
      refine .slashReturn rfl fun hhead => h ?_
      obtain ⟨after, rfl⟩ := List.head?_eq_some_iff.mp hhead
      exact ⟨['\r', '\n'], after, .returnFeed, rfl⟩
    | slashReturn hp _ => rw [hphase] at hp; cases hp

/-- What has been read of a statement stays read. -/
lemma IsPast.step (h : IsPast n s (c :: rest)) (hstep : step s c = .ok s') : IsPast n s' rest := by
  cases hphase : s.phase with
  | code =>
    rw [Line.step, hphase] at hstep
    obtain rfl := Except.ok.inj hstep
    exact (h.isKeeping (.inl hphase)).codeStep c
  | comment =>
    rw [Line.step, hphase] at hstep
    obtain rfl := Except.ok.inj hstep
    have hkeeping := h.isKeeping (.inr hphase)
    split_ifs
    · exact hkeeping.newline.isPast rest
    · exact hkeeping.isPast rest
  | slash =>
    rw [Line.step, hphase] at hstep
    obtain rfl := Except.ok.inj hstep
    split_ifs with hfeed hreturn
    · obtain rfl := beq_iff_eq.mp hfeed
      exact (h.join (.inl hphase)).isPast rest
    · obtain rfl := beq_iff_eq.mp hreturn
      exact h.slashReturn hphase
    · exact h.slashStep c
  | slashReturn =>
    rw [Line.step, hphase] at hstep
    obtain rfl := Except.ok.inj hstep
    split_ifs with hfeed
    · obtain rfl := beq_iff_eq.mp hfeed
      exact (h.join (.inr hphase)).isPast rest
    · exact h.slashStep c
  | quoteOne q opened =>
    have hq : s.phase.quote? = some q := by rw [hphase]; rfl
    simp only [Line.step, hphase] at hstep
    split_ifs at hstep
    · obtain rfl := Except.ok.inj hstep
      exact h.go_on hq rfl s.line rest
    · exact h.stringStep (z := ⟨q, opened, false⟩) hq hstep
  | quoteTwo q opened =>
    have hq : s.phase.quote? = some q := by rw [hphase]; rfl
    simp only [Line.step, hphase] at hstep
    split_ifs at hstep
    · obtain rfl := Except.ok.inj hstep
      exact h.go_on hq rfl s.line rest
    · obtain rfl := Except.ok.inj hstep
      exact (h.literal hq).codeStep c
  | string z k =>
    have hq : s.phase.quote? = some z.quote := by rw [hphase]; rfl
    rw [Line.step, hphase] at hstep
    exact h.stringStep hq hstep
  | escape z =>
    have hq : s.phase.quote? = some z.quote := by rw [hphase]; rfl
    rw [Line.step, hphase] at hstep
    obtain rfl := Except.ok.inj hstep
    exact h.go_on hq rfl _ rest

lemma IsPast.run (h : IsPast n s (cs ++ rest)) (hrun : run s cs = .ok s') : IsPast n s' rest := by
  induction cs generalizing s with
  | nil =>
    obtain rfl := Except.ok.inj hrun
    exact h
  | cons c cs ih =>
    rw [Line.run, List.foldlM_cons] at hrun
    obtain ⟨t, hstep, hrun⟩ := except_bind_ok.mp hrun
    exact ih (h.step hstep) hrun

/-! ### One place -/

/-- The first character is read. -/
lemma IsAhead.step_first (h : IsAhead ls s) (hc : IsFirst c rest) (hstep : step s c = .ok s') :
    IsPast ls.length s' rest := by
  have hle : ls.length ≤ s.done.length := h.done ▸ Nat.le_refl _
  rw [step, h.phase] at hstep
  obtain rfl := Except.ok.inj hstep
  have hcase := codeStep_cases s c
  generalize codeStep s c = s' at hcase ⊢
  cases hcase with
  | comment => exact absurd hc.other (by decide)
  | newline => exact absurd hc.solid (by decide)
  | skip => exact absurd hc.solid (by decide)
  | slash => exact ⟨hle, fun _ => .slash rfl (hc.apart rfl)⟩
  | quote hq => exact ⟨(done_begin s).symm ▸ hle, fun _ => .literal hq rfl⟩
  | semicolon _ => exact absurd hc.other (by decide)
  | indent _ hblank _ _ => rw [hc.solid] at hblank; cases hblank
  | plain _ _ =>
    refine (isKeeping_of_mem ?_ hc.solid (by simp [text_plain])).isPast rest
    rwa [done_plain]

lemma IsPast.not_isAhead (h : IsPast ls.length s rest) : ¬ IsAhead ls s := by
  intro hs
  exact (h.isKeeping (.inl hs.phase)).text (by rw [hs.done]) hs.blank

/-- A place is not behind another one. -/
lemma Place.not_append_cons (h : Place source ls c stmt lead) (h' : Place source ls c' stmt' lead')
    (x : Char) (xs : List Char) : stmt' ++ lead' ≠ stmt ++ lead ++ x :: xs := by
  intro heq
  obtain ⟨rest, hsource, hc⟩ := h.first
  obtain ⟨rest', hsource', -⟩ := h'.first
  obtain ⟨s, hrun, hs⟩ := h.exists_isAhead
  obtain ⟨s', hrun', hs'⟩ := h'.exists_isAhead
  have hrest : stmt ++ lead ++ c :: rest = stmt ++ lead ++ x :: (xs ++ c' :: rest') := by
    rw [← hsource, hsource', heq, List.append_assoc]
    rfl
  obtain ⟨rfl, rfl⟩ := List.cons.inj (List.append_cancel_left hrest)
  rw [heq, run_append, hrun] at hrun'
  change Line.run s (c :: xs) = _ at hrun'
  rw [Line.run, List.foldlM_cons] at hrun'
  obtain ⟨t, hstep, hrun'⟩ := except_bind_ok.mp hrun'
  exact ((hs.step_first hc hstep).run hrun').not_isAhead hs'

/-- **A statement has one place.** -/
lemma Place.unique (h : Place source ls c stmt lead) (h' : Place source ls c' stmt' lead') :
    stmt ++ lead = stmt' ++ lead' := by
  obtain ⟨rest, hsource, -⟩ := h.first
  obtain ⟨rest', hsource', -⟩ := h'.first
  have hboth : stmt ++ lead ++ c :: rest = stmt' ++ lead' ++ c' :: rest' := by
    rw [← hsource, hsource']
  rcases List.append_eq_append_iff.mp hboth with ⟨u, hu, -⟩ | ⟨u, hu, -⟩
  · cases u with
    | nil => rw [hu, List.append_nil]
    | cons x xs => exact absurd hu (h.not_append_cons h' x xs)
  · cases u with
    | nil => rw [hu, List.append_nil]
    | cons x xs => exact absurd hu (h'.not_append_cons h x xs)

end Places

end ContractBuild.Python.Line
