import Mathlib
import ContractBuild.Python.Module
import ContractBuild.Proofs.Python.Normal
import ContractBuild.Proofs.Text.Offset

/-!
Reading a module by byte offsets. Where the parse takes a line apart, an offset is found and the
text is sliced there; that no slice and no difference goes wrong is told by the cuts that the parse
makes.
-/

namespace ContractBuild.Python.Offset

open ContractBuild.Text

/-! ### The reading -/

def inlineBody (text : List Char) : Except Misstep (Option (List Char)) := do
  let keyword := text.takeWhile fun c => isLetterOrNumber c || c == '_'
  if String.ofList keyword ∈ Import.compoundKeywords then
    match findTop ':' text with
    | some colon =>
      let body := trim (← sliceFrom (colon + 1) text)
      return if body.isEmpty then none else some body
    | none => return none
  else return none

def listedNames (text : List Char) : Except Misstep (List String) := do
  let text := trim text
  let inner := match text with
    | '(' :: r => (stripSuffix? [')'] r).getD text
    | _ => text
  return (((← slicesTop ',' inner).map Import.withoutAlias).filter (!·.isEmpty)).map String.ofList

def importsOf (l : Line) : Except Misstep (Except Fault (Option (List Import))) := do
  let text := (← inlineBody l.text.toList).getD l.text.toList
  let malformed := Except.error ⟨l.number, .malformedImport (String.ofList text)⟩
  match Import.afterWord "import" text with
  | some items =>
    let found := (← slicesTop ',' items).map Import.withoutAlias
    if found.all Import.isDottedName then
      return .ok (some (found.map fun n => .whole l.number (String.ofList n)))
    else return malformed
  | none =>
    match Import.fromParts text with
    | none => return .ok none
    | some (0, none, _) => return malformed
    | some (level, base, items) =>
      let base := base.map fun b => String.ofList (Import.normalizeDotted b)
      return .ok (some [.names l.number level base (← listedNames items)])

def paramOf (keywordOnly : Bool) (item : List Char) : Except Misstep Param := do
  let equals := findTop '=' item
  let head ← match equals with
    | some e => sliceTo e item
    | none => pure item
  let parts : List Char × Option (List Char) ← match findTop ':' item with
    | some c =>
      if equals.all fun e => c < e then
        pure (← sliceTo c item, some (trim (← sliceFrom (c + 1) head)))
      else pure (head, none)
    | none => pure (head, none)
  let typeText := (parts.2.filter (!·.isEmpty)).map String.ofList
  let marked : ParamKind × List Char :=
    match trim parts.1 with
    | '*' :: '*' :: r => (.varKeywords, r)
    | '*' :: r => (.varArgs, r)
    | r => (if keywordOnly then .keywordOnly else .positional, r)
  return ⟨String.ofList (trim marked.2), marked.1, typeText, equals.isSome⟩

def paramsOf : Bool → List (List Char) → Except Misstep (List Param)
  | _, [] => return []
  | keywordOnly, item :: r => do
    let item := trim item
    if item.isEmpty || item == ['/'] then paramsOf keywordOnly r
    else if item == ['*'] then paramsOf true r
    else
      let p ← paramOf keywordOnly item
      return p :: (← paramsOf (keywordOnly || p.kind == .varArgs) r)

/-- The parenthesis is the last character of the part of the text that the header matches. -/
def functionOf (l : Line) (decorators : List Decorator) :
    Except Misstep (Except Fault (Option Function)) := do
  let text := l.text.toList
  match Function.header text with
  | none => return .ok none
  | some (isAsync, name, body) =>
    let name := String.ofList name
    let fault (cause : FaultCause) : Except Fault (Option Function) := .error ⟨l.number, cause⟩
    let matched := text.take (text.length - body.length)
    let opened ← difference (size matched) 1
    match ← matchingBracket opened text with
    | none => return fault (.unbalancedParameters name)
    | some closed =>
      let between ← slice (opened + 1) closed text
      let ok (returns : Option String) : Except Misstep (Except Fault (Option Function)) := do
        let params ← paramsOf false (← slicesTop ',' between)
        return .ok (some ⟨name, l.number, isAsync, decorators, params, returns⟩)
      let tail := trimLeft (← sliceFrom (closed + 1) text)
      match ['-', '>'].isPrefixOf? tail with
      | some behind =>
        match findTop ':' behind with
        | some colon => ok (some (String.ofList (trim (← sliceTo colon behind))))
        | none => return fault (.missingReturnColon name)
      | none =>
        if tail.head? = some ':' then ok none else return fault (.malformedSignature name)

def step (s : Module.St) (l : Line) : ExceptT Fault (Except Misstep) Module.St := do
  match ← ExceptT.mk (importsOf l) with
  | some found =>
    let module := { s.module with imports := s.module.imports ++ found }
    return { module, pending := if l.indent == 0 then [] else s.pending }
  | none =>
    if l.indent != 0 then return s
    if l.text.toList.head? = some '@' then
      let d ← Decorator.ofText l.number l.text.toList.tail
      return { s with pending := s.pending ++ [d] }
    else
      match ← ExceptT.mk (functionOf l s.pending) with
      | some f => return { module := { s.module with functions := s.module.functions ++ [f] } }
      | none => return { s with pending := [] }

def parse (source : String) : ExceptT Fault (Except Misstep) Module := do
  return (← (← Line.scan source).foldlM step {}).module

/-! ### What it reads -/

section Reading

variable {text body name : List Char} {l : Line} {isAsync : Bool} {f : Fault}

lemma inlineBody_eq (text : List Char) : inlineBody text = .ok (Import.inlineBody text) := by
  simp only [inlineBody, Import.inlineBody]
  split_ifs with hkeyword
  · cases hcut : cutTop ':' text with
    | none => rw [findTop_eq, hcut]; rfl
    | some p =>
      obtain ⟨hfind, -, hslice⟩ := findTop_of_cutTop hcut (by decide)
      simp only [hfind, hslice]
      rfl
  · rfl

lemma listedNames_eq (text : List Char) : listedNames text = .ok (Import.listedNames text) := by
  simp only [listedNames, slicesTop_eq]
  rfl

lemma importsOf_eq (l : Line) : importsOf l = .ok (Import.ofLine l) := by
  simp only [importsOf, Import.ofLine, inlineBody_eq, slicesTop_eq, listedNames_eq, ok_bind]
  generalize (Import.inlineBody l.text.toList).getD l.text.toList = text
  cases Import.afterWord "import" text with
  | some items =>
    dsimp only
    split_ifs <;> rfl
  | none => rcases Import.fromParts text with _ | ⟨_ | level, _ | base, items⟩ <;> rfl

/-- In front of the equals sign the annotation ends there. -/
lemma sliceFrom_colon {u v u' v' : List Char} {item : List Char}
    (hequals : cutTop '=' item = some (u, v)) (hcolon : cutTop ':' item = some (u', v'))
    (hlt : u'.length < u.length) :
    sliceFrom (size u' + 1) u = .ok (u.drop (u'.length + 1)) := by
  have hitem := eq_of_cutAtDepth hequals
  have hitem' := eq_of_cutAtDepth hcolon
  obtain ⟨w, rfl⟩ : u' ++ [':'] <+: u := by
    refine List.prefix_of_prefix_length_le ⟨v', ?_⟩ ⟨'=' :: v, hitem.symm⟩ (by simpa using hlt)
    rw [hitem', List.append_assoc]
    rfl
  have hsize : size u' + 1 = size (u' ++ [':']) := by simp [show ':'.utf8Size = 1 by decide]
  rw [hsize, sliceFrom_size, List.drop_left' (by simp)]

lemma paramOf_eq (keywordOnly : Bool) (item : List Char) :
    paramOf keywordOnly item = .ok (Param.ofItem keywordOnly item) := by
  cases hequals : cutTop '=' item with
  | none =>
    have hfind : findTop '=' item = none := by rw [findTop_eq, hequals]; rfl
    cases hcolon : cutTop ':' item with
    | none =>
      have hfind' : findTop ':' item = none := by rw [findTop_eq, hcolon]; rfl
      simp only [paramOf, Param.ofItem, hequals, hcolon, hfind, hfind', pure_bind]
      rfl
    | some p =>
      obtain ⟨hfind', hto, hfrom⟩ := findTop_of_cutTop hcolon (by decide)
      have hdrop : item.drop (p.1.length + 1) = p.2 := by
        rw [eq_of_cutAtDepth hcolon]
        simp
      simp only [paramOf, Param.ofItem, hequals, hcolon, hfind, hfind', hto, hfrom, pure_bind,
        ok_bind, Option.all_none, if_true, Option.map_none, Option.getD_none, hdrop]
      rfl
  | some e =>
    obtain ⟨hfind, hto, -⟩ := findTop_of_cutTop hequals (by decide)
    cases hcolon : cutTop ':' item with
    | none =>
      have hfind' : findTop ':' item = none := by rw [findTop_eq, hcolon]; rfl
      simp only [paramOf, Param.ofItem, hequals, hcolon, hfind, hfind', hto, ok_bind]
      rfl
    | some p =>
      obtain ⟨hfind', hto', -⟩ := findTop_of_cutTop hcolon (by decide)
      have hlt : size p.1 < size e.1 ↔ p.1.length < e.1.length :=
        size_lt_iff ⟨_, (eq_of_cutAtDepth hcolon).symm⟩ ⟨_, (eq_of_cutAtDepth hequals).symm⟩
      -- an annotation is cut from what stands in front of the equals sign
      by_cases h : p.1.length < e.1.length
      · have hfrom := sliceFrom_colon hequals hcolon h
        simp only [paramOf, Param.ofItem, hequals, hcolon, hfind, hfind', hto, hto', hfrom, ok_bind,
          Option.all_some, hlt, h, decide_true, if_true]
        rfl
      · simp only [paramOf, Param.ofItem, hequals, hcolon, hfind, hfind', hto, ok_bind,
          Option.all_some, hlt, h, decide_false, Bool.false_eq_true, if_false]
        rfl

lemma paramsOf_eq (keywordOnly : Bool) (items : List (List Char)) :
    paramsOf keywordOnly items = .ok (Param.ofItems keywordOnly items) := by
  induction items generalizing keywordOnly with
  | nil => rfl
  | cons item items ih =>
    simp only [paramsOf, Param.ofItems, paramOf_eq, ih]
    split_ifs <;> rfl

/-! ### Headers -/

/-- The text has no bracket. -/
def IsBare (cs : List Char) : Prop := ∀ c ∈ cs, isOpening c = false ∧ isClosing c = false

lemma IsBare.append {u v : List Char} (hu : IsBare u) (hv : IsBare v) : IsBare (u ++ v) :=
  List.forall_mem_append.mpr ⟨hu, hv⟩

lemma isBare_takeWhile {p : Char → Bool}
    (hp : ∀ c, p c = true → isOpening c = false ∧ isClosing c = false) (cs : List Char) :
    IsBare (cs.takeWhile p) := fun c hc => hp c (List.mem_takeWhile_imp hc)

lemma isBare_takeWhile_isBlank (cs : List Char) : IsBare (cs.takeWhile isBlank) :=
  isBare_takeWhile (fun _ => isOpening_of_isBlank) cs

lemma isBare_takeWhile_isWordChar (cs : List Char) : IsBare (cs.takeWhile isWordChar) :=
  isBare_takeWhile (fun _ => not_bracket_of (by decide +kernel)) cs

lemma exists_bare_of_afterWord {word : String} (hword : IsBare word.toList)
    (h : Import.afterWord word text = some body) : ∃ u, IsBare u ∧ text = u ++ body := by
  unfold Import.afterWord at h
  split at h
  next rest hrest =>
    dsimp only at h
    split_ifs at h
    cases h
    refine ⟨word.toList ++ rest.takeWhile isBlank,
      hword.append (isBare_takeWhile_isBlank rest), ?_⟩
    rw [List.append_assoc, trimLeft, List.takeWhile_append_dropWhile]
    exact (List.isPrefixOf?_eq_some_iff_append_eq.mp hrest).symm
  next => cases h

/-- The parenthesis of a header is the first bracket of its line. -/
lemma exists_of_header (h : Function.header text = some (isAsync, name, body)) :
    ∃ before, IsBare before ∧ text = before ++ '(' :: body := by
  obtain ⟨u, hu, htext⟩ :
      ∃ u, IsBare u ∧ text = u ++ (Import.afterWord "async" text).getD text := by
    cases hasync : Import.afterWord "async" text with
    | none => exact ⟨[], by simp [IsBare], rfl⟩
    | some rest => exact exists_bare_of_afterWord (by simp [IsBare, isOpening, isClosing]) hasync
  simp only [Function.header] at h
  split at h
  · cases h
  next rest hdef =>
    obtain ⟨v, hv, heq⟩ := exists_bare_of_afterWord (by simp [IsBare, isOpening, isClosing]) hdef
    split_ifs at h
    split at h
    next hparen =>
      cases h
      -- the name, and what separates it from the parenthesis
      have hname :
          rest.takeWhile isWordChar ++ rest.drop (rest.takeWhile isWordChar).length = rest :=
        List.prefix_iff_eq_append.mp (List.takeWhile_prefix _)
      generalize rest.drop (rest.takeWhile isWordChar).length = behind at hname hparen
      have hbehind : behind = behind.takeWhile isBlank ++ '(' :: body := by
        rw [← hparen, trimLeft, List.takeWhile_append_dropWhile]
      have hbare := (isBare_takeWhile_isWordChar rest).append (isBare_takeWhile_isBlank behind)
      refine ⟨u ++ (v ++ (_ ++ _)), hu.append (hv.append hbare), ?_⟩
      calc text = u ++ (v ++ rest) := by rw [← heq, ← htext]
        _ = u ++ (v ++ (rest.takeWhile isWordChar ++
              (behind.takeWhile isBlank ++ '(' :: body))) := by rw [← hbehind, hname]
        _ = _ := by simp only [List.append_assoc]
    next => cases h

/-- The match ends behind the parenthesis, which takes one byte. -/
lemma difference_of_header (before body : List Char) :
    difference (size ((before ++ '(' :: body).take
      ((before ++ '(' :: body).length - body.length))) 1 = .ok (size before) := by
  have htake : (before ++ '(' :: body).take ((before ++ '(' :: body).length - body.length) =
      before ++ ['('] := by
    rw [List.append_cons]
    exact List.take_left' (by simp only [List.length_append, List.length_singleton]; omega)
  rw [htake]
  simp [difference, show '('.utf8Size = 1 by decide]

/-- The parameter list and what stands behind it, by the offsets of the two parentheses. -/
lemma slices_of_header {params tail : List Char}
    (hclosing : cutClosing 1 body = some (params, tail)) (before : List Char) :
    slice (size before + 1) (size (before ++ '(' :: params)) (before ++ '(' :: body) = .ok params ∧
      sliceFrom (size (before ++ '(' :: params) + 1) (before ++ '(' :: body) = .ok tail := by
  obtain ⟨c, hc, rfl⟩ := eq_of_cutClosing hclosing
  have hopen : size before + 1 = size (before ++ ['(']) := by simp [show '('.utf8Size = 1 by decide]
  have hclose : size (before ++ '(' :: params) + 1 = size (before ++ ['('] ++ params ++ [c]) := by
    simp [utf8Size_of_isClosing hc, Nat.add_assoc]
  constructor
  · rw [hopen, List.append_cons before '(' params,
      List.append_cons before '(' (params ++ c :: tail), ← List.append_assoc]
    exact slice_size _ params (c :: tail)
  · rw [hclose, List.append_cons before '(' (params ++ c :: tail), ← List.append_assoc,
      List.append_cons _ c tail]
    exact sliceFrom_size _ tail

lemma functionOf_eq (l : Line) (decorators : List Decorator) :
    functionOf l decorators = .ok (Function.ofLine l decorators) := by
  cases hheader : Function.header l.text.toList with
  | none =>
    simp only [functionOf, Function.ofLine, hheader]
    rfl
  | some p =>
    obtain ⟨isAsync, name, body⟩ := p
    obtain ⟨before, -, htext⟩ := exists_of_header hheader
    have hopened := difference_of_header before body
    have hmatching := matchingBracket_eq (show isOpening '(' = true by decide) before body
    rw [← htext] at hopened hmatching
    simp only [functionOf, Function.ofLine, hheader, hopened, hmatching, ok_bind]
    cases hclosing : cutClosing 1 body with
    | none => rfl
    | some p =>
      obtain ⟨hslice, hfrom⟩ := slices_of_header hclosing before
      rw [← htext] at hslice hfrom
      simp only [Option.map_some, hslice, hfrom, slicesTop_eq, paramsOf_eq, ok_bind]
      generalize trimLeft p.2 = tail
      cases harrow : ['-', '>'].isPrefixOf? tail with
      | some behind =>
        obtain rfl := List.isPrefixOf?_eq_some_iff_append_eq.mp harrow
        cases hcut : cutTop ':' behind with
        | none =>
          simp only [findTop_eq, hcut, List.cons_append, List.nil_append]
          rfl
        | some q =>
          obtain ⟨hfind, hto, -⟩ := findTop_of_cutTop hcut (by decide)
          simp only [hfind, hto, hcut, ok_bind, List.cons_append, List.nil_append]
          rfl
      | none =>
        by_cases hcolon : tail.head? = some ':'
        · obtain ⟨behind, rfl⟩ := List.head?_eq_some_iff.mp hcolon
          rfl
        · dsimp only
          rw [if_neg hcolon]
          split
          next behind => simp [List.isPrefixOf?] at harrow
          next behind => exact absurd rfl hcolon
          next => rfl

/-! ### The whole module -/

lemma bind_ok {α β : Type} {x : Except Fault α} {f : α → ExceptT Fault (Except Misstep) β}
    {g : α → Except Fault β} (h : ∀ a, f a = ExceptT.mk (.ok (g a))) :
    (ExceptT.mk (.ok x) >>= f) = ExceptT.mk (.ok (x >>= g)) := by
  cases x with
  | error => rfl
  | ok a => exact h a

lemma step_eq (s : Module.St) (l : Line) : step s l = ExceptT.mk (.ok (Module.step s l)) := by
  rw [step, Module.step, importsOf_eq]
  refine bind_ok fun found? => ?_
  cases found? with
  | some found => rfl
  | none =>
    dsimp only
    split_ifs with hindent hmark
    · rfl
    · obtain ⟨rest, htext⟩ := List.head?_eq_some_iff.mp hmark
      rw [htext]
      exact bind_ok (x := Decorator.ofText l.number rest) fun d => rfl
    · split
      next rest htext => exact absurd (by rw [htext]; rfl) hmark
      next =>
        rw [functionOf_eq]
        exact bind_ok fun f? => by cases f? <;> rfl

lemma foldlM_step_eq (ls : List Line) (s : Module.St) :
    ls.foldlM step s = ExceptT.mk (.ok (ls.foldlM Module.step s)) := by
  induction ls generalizing s with
  | nil => rfl
  | cons l ls ih =>
    rw [List.foldlM_cons, List.foldlM_cons, step_eq]
    exact bind_ok ih

/-- Reading by offsets makes no misstep, and reads what the parse reads. -/
lemma parse_eq (source : String) : (parse source).run = .ok (Module.parse source) := by
  cases hscan : Line.scan source with
  | error f =>
    rw [parse, Module.parse, hscan]
    rfl
  | ok ls =>
    have hlines : ls.foldlM step {} >>= (fun s => pure s.module) =
        ExceptT.mk (.ok (Module.ofLines ls)) := by
      rw [foldlM_step_eq]
      exact bind_ok fun s => rfl
    rw [parse, Module.parse, hscan]
    exact hlines

/-! ### Parameter lists are closed -/

/-- The parenthesis of the line's header is closed on the line. -/
def ClosesHeader (l : Line) : Prop :=
  ∀ isAsync name body, Function.header l.text.toList = some (isAsync, name, body) →
    ∃ params tail, cutClosing 1 body = some (params, tail)

lemma closesHeader_of_isNormal (h : Line.IsNormal l.text.toList) : ClosesHeader l := by
  intro isAsync name body hheader
  obtain ⟨before, hbefore, htext⟩ := exists_of_header hheader
  have hdepth : body.foldl depthAfter 1 = 0 := by
    have hzero := h.depth
    rwa [Line.depthOf, htext, List.foldl_append, Line.foldl_depthAfter hbefore] at hzero
  exact exists_cutClosing hdepth

lemma cause_of_importOfLine (h : Import.ofLine l = .error f) :
    ∃ statement, f.cause = .malformedImport statement := by
  simp only [Import.ofLine] at h
  split at h
  · split_ifs at h
    cases h
    exact ⟨_, rfl⟩
  · split at h <;> cases h
    exact ⟨_, rfl⟩

lemma cause_of_functionOfLine (hl : ClosesHeader l) {decorators : List Decorator}
    (h : Function.ofLine l decorators = .error f) (function : String) :
    f.cause ≠ .unbalancedParameters function := by
  simp only [Function.ofLine] at h
  split at h
  · cases h
  next hheader =>
    obtain ⟨params, tail, hclosing⟩ := hl _ _ _ hheader
    rw [hclosing] at h
    dsimp only at h
    split at h
    · split at h <;> cases h
      simp
    · cases h
    · cases h
      simp

lemma cause_of_step (hl : ClosesHeader l) {s : Module.St} (h : Module.step s l = .error f)
    (function : String) : f.cause ≠ .unbalancedParameters function := by
  unfold Module.step at h
  rcases except_bind_error.mp h with himport | ⟨found?, -, h⟩
  · obtain ⟨statement, hcause⟩ := cause_of_importOfLine himport
    simp [hcause]
  · cases found? with
    | some => cases h
    | none =>
      dsimp only at h
      split_ifs at h
      · cases h
      split at h
      next rest _ =>
        rcases except_bind_error.mp h with hmark | ⟨d, -, h⟩
        · unfold Decorator.ofText at hmark
          dsimp only at hmark
          split at hmark <;> cases hmark
          simp
        · cases h
      next =>
        rcases except_bind_error.mp h with hfunction | ⟨f?, -, h⟩
        · exact cause_of_functionOfLine hl hfunction function
        · cases f? <;> cases h

lemma cause_of_foldlM {ls : List Line} (hls : ∀ l ∈ ls, ClosesHeader l) {s : Module.St}
    (h : ls.foldlM Module.step s = .error f) (function : String) :
    f.cause ≠ .unbalancedParameters function := by
  induction ls generalizing s with
  | nil => cases h
  | cons l ls ih =>
    obtain ⟨hl, hls⟩ := List.forall_mem_cons.mp hls
    rw [List.foldlM_cons] at h
    rcases except_bind_error.mp h with hstep | ⟨t, -, hrest⟩
    · exact cause_of_step hl hstep function
    · exact ih hls hrest

end Reading

end Offset

open Offset in
/-- **Reading by offsets goes wrong on no source.** It takes no difference below zero and no slice
across a character, and reads what the parse reads; the parameter list of every line that defines a
function is closed on that line, and the fault for one that is not is never reported. -/
theorem parse_by_offsets (source : String) :
    (Offset.parse source).run = .ok (Module.parse source) ∧
      (∀ ls, Line.scan source = .ok ls → ∀ l ∈ ls, ClosesHeader l) ∧
      ∀ f, Module.parse source = .error f →
        ∀ function, f.cause ≠ .unbalancedParameters function := by
  have hclosed : ∀ ls, Line.scan source = .ok ls → ∀ l ∈ ls, ClosesHeader l := fun ls hscan l hl =>
    closesHeader_of_isNormal (Line.isNormal_of_scan hscan l hl)
  refine ⟨parse_eq source, hclosed, fun f h function => ?_⟩
  rcases except_bind_error.mp h with hscan | ⟨ls, hscan, hlines⟩
  · rcases Line.cause_of_scan hscan with hcause | hcause <;> simp [hcause]
  · rcases except_bind_error.mp hlines with hrun | ⟨s, -, h⟩
    · exact cause_of_foldlM (hclosed ls hscan) hrun function
    · cases h

end ContractBuild.Python
