import Mathlib
import ContractBuild.Proofs.Version.Precedence
import ContractBuild.Proofs.Version.Release
import ContractBuild.Version.Pin

/-!
Pins mean what they say: a comparison is one with a full version in the precedence of versions, and
a family is the releases that start with its numbers. Compatible releases are as they should be as
long as the number that bounds them fits into 64 bits.
-/

namespace ContractBuild.Version

open ContractBuild.Text

/-! ### Clauses -/

inductive Comparison where
  | equal
  | identical
  | atMost
  | atLeast
  | below
  | above

namespace Comparison

def text : Comparison → String
  | equal => "=="
  | identical => "==="
  | atMost => "<="
  | atLeast => ">="
  | below => "<"
  | above => ">"

def operator : Comparison → Operator
  | equal | identical => .exact
  | atMost => .lessEq
  | atLeast => .greaterEq
  | below => .less
  | above => .greater

/-- What the precedence of a version against the operand has to be. -/
def Holds : Comparison → Ordering → Prop
  | equal, o | identical, o => o = .eq
  | atMost, o => o ≠ .gt
  | atLeast, o => o ≠ .lt
  | below, o => o = .lt
  | above, o => o = .gt

end Comparison

/-- A clause of a pin: a comparison with a version, or `==` with the first numbers of a release and
a star. -/
inductive Clause where
  | comparison (op : Comparison) (v : Version)
  | family (ns : List ℕ)

/-- A comparator with the first numbers of a release. -/
def Comparator.ofNumbers (op : Operator) (ns : List ℕ) : Comparator :=
  ⟨op, ns.headD 0, ns[1]?, ns[2]?, []⟩

namespace Clause

def Admits (w : Version) : Clause → Prop
  | comparison op v => op.Holds (w.compare v)
  | family ns => w.pre = [] ∧ ns <+: [w.major, w.minor, w.patch]

/-- A clause with a pre-release lets the pre-releases of the same release in. -/
def NamesPreOf (w : Version) : Clause → Prop
  | comparison _ v => (v.major = w.major ∧ v.minor = w.minor ∧ v.patch = w.patch) ∧ v.pre ≠ []
  | family _ => False

inductive Spells : List Char → Clause → Prop where
  | comparison {op : Comparison} {v : Version} {g r : List Char} (hg : IsGap g)
      (hv : ofRelease? (String.ofList r) = some v) :
      Spells (op.text.toList ++ (g ++ r)) (.comparison op v)
  | family {ns : List ℕ} {g : List Char} (hg : IsGap g) (hns : IsNumbers ns) :
      Spells ("==".toList ++ (g ++ (dotted ns ++ ['.', '*']))) (.family ns)

/-- The clause as a comparator. -/
def comparator : Clause → Comparator
  | comparison op v => v.comparator op.operator
  | family ns => .ofNumbers .exact ns

end Clause

/-- Clauses with commas between them. -/
def SpellsClauses (text : List Char) (cs : List Clause) : Prop :=
  ∃ ws, List.Forall₂ Clause.Spells ws cs ∧ Separates ',' ws text

/-! ### Numbers of releases -/

section Numbers

variable {op : Operator} {ns : List ℕ} {w : Version}

lemma toList_ofNumbers (hop : op ≠ .wildcard) (hns : IsNumbers ns) :
    (Comparator.ofNumbers op ns).text.toList = op.text.toList ++ dotted ns := by
  have hdot : toString "." = "." := rfl
  rcases ns with _ | ⟨major, _ | ⟨minor, _ | ⟨patch, _ | ⟨n, ns⟩⟩⟩⟩
  · exact absurd rfl hns.ne_nil
  · simp [Comparator.ofNumbers, Comparator.text, dotted, joinWith, hop]
  · simp [Comparator.ofNumbers, Comparator.text, dotted, joinWith, hop]
  · simp [Comparator.ofNumbers, Comparator.text, dotted, joinWith, hdot]
  · exact absurd hns.length_le (by simp)

lemma isProper_ofNumbers (hop : op ≠ .wildcard) (hns : IsNumbers ns) :
    (Comparator.ofNumbers op ns).IsProper := by
  have hget : ∀ i, ∀ n ∈ ns[i]?, n < wordLimit :=
    fun i n hn => hns.lt n (List.mem_of_getElem? hn)
  refine ⟨hop, ?_, hget 1, hget 2, ?_, fun _ => rfl, nofun⟩
  · obtain ⟨n, ns, rfl⟩ := List.exists_cons_of_ne_nil hns.ne_nil
    exact hns.lt n List.mem_cons_self
  · simp only [Comparator.ofNumbers, List.getElem?_eq_none_iff]
    omega

lemma namesPreOf_ofNumbers : (Comparator.ofNumbers op ns).namesPreOf w = false := by
  simp [Comparator.ofNumbers, Comparator.namesPreOf]

end Numbers

/-! ### What clauses mean -/

section Meaning

variable {w v : Version} {op : Comparison} {ns : List ℕ} {c : Clause} {text : List Char}

lemma isMet_comparison :
    (v.comparator op.operator).isMet w = true ↔ op.Holds (w.compare v) := by
  have hexact : ∀ {o : Operator}, (v.comparator o).isExact w = true ↔ w.compare v = .eq :=
    isExact_comparator.trans compare_eq_eq.symm
  cases op with
  | equal | identical => exact hexact
  | atMost =>
    change ((v.comparator .lessEq).isExact w || w.compare v == .lt) = true ↔ w.compare v ≠ .gt
    rw [Bool.or_eq_true, hexact, beq_iff_eq]
    cases w.compare v <;> simp
  | atLeast =>
    change ((v.comparator .greaterEq).isExact w || w.compare v == .gt) = true ↔ w.compare v ≠ .lt
    rw [Bool.or_eq_true, hexact, beq_iff_eq]
    cases w.compare v <;> simp
  | below | above => exact beq_iff_eq

lemma isMet_family (hns : IsNumbers ns) :
    (Clause.family ns).comparator.isMet w = true ↔
      w.pre = [] ∧ ns <+: [w.major, w.minor, w.patch] := by
  have hne := hns.ne_nil
  have hlen := hns.length_le
  rcases ns with _ | ⟨major, _ | ⟨minor, _ | ⟨patch, _ | ⟨n, ns⟩⟩⟩⟩
  · exact absurd rfl hne
  all_goals
    grind [Clause.comparator, Comparator.ofNumbers, Comparator.isMet, Comparator.isExact]

lemma Clause.Spells.isMet (h : c.Spells text) :
    c.comparator.isMet w = true ↔ c.Admits w := by
  cases h with
  | comparison => exact isMet_comparison
  | family _ hns => exact isMet_family hns

lemma Clause.namesPreOf : c.comparator.namesPreOf w = true ↔ c.NamesPreOf w := by
  cases c with
  | comparison => exact namesPreOf_comparator
  | family => simp [Clause.comparator, namesPreOf_ofNumbers, Clause.NamesPreOf]

end Meaning

/-! ### Reading clauses -/

section Reading

variable {v : Version} {op : Comparison} {ns : List ℕ} {c : Clause} {text y : List Char}

/-- Signs that are in no version. -/
lemma isForeign_sign {x : Char} (h : x ∈ ['=', ',', '*']) : IsForeign x := by
  have hblank : ∀ x ∈ ['=', ',', '*'], isBlank x = false :=
    List.all_iff_forall_prop.mp (by decide +kernel)
  have hword : ∀ x ∈ ['=', ',', '*'], isWordChar x = false :=
    List.all_iff_forall_prop.mp (by decide +kernel)
  have hseparator : ∀ x ∈ ['=', ',', '*'], isSeparator x = false ∧ x ≠ '+' :=
    List.all_iff_forall_prop.mp (by decide)
  have hletter : ∀ x ∈ ['=', ',', '*'], ∀ w ∈ releaseWords, foldCase x ∉ w.toList :=
    List.all_iff_forall_prop.mp (by decide +kernel)
  exact ⟨hblank x h, hword x h, (hseparator x h).1, (hseparator x h).2, hletter x h⟩

lemma fullVersion_trim {r : List Char} (h : ofRelease? (String.ofList r) = some v) :
    Pin.fullVersion (trim r) = .ok v.text.toList := by
  have htrim : ofRelease? (String.ofList (trim r)) = ofRelease? (String.ofList r) := by
    simp only [ofRelease?, String.toList_ofList, trim_trim]
  rw [Pin.fullVersion, htrim, h]

/-- The operand of a comparison is a full version. -/
lemma comparators_text (hy : y.head? ≠ some '=') (hstar : stripSuffix? ['.', '*'] (trim y) = none) :
    Pin.comparators (op.text.toList ++ y) =
      Pin.fullVersion (trim y) >>= fun t => .ok (op.operator.text.toList ++ t) := by
  have hne : ∀ r, y = '=' :: r → False := by
    rintro r rfl
    exact hy rfl
  cases op with
  | identical | atMost | atLeast => rfl
  | equal =>
    change Pin.comparators ('=' :: '=' :: y) = _
    rw [Pin.comparators, hstar]
    · rfl
    · exact hne
  | below =>
    change Pin.comparators ('<' :: y) = _
    rw [Pin.comparators]
    · rfl
    · exact hne
  | above =>
    change Pin.comparators ('>' :: y) = _
    rw [Pin.comparators]
    · rfl
    · exact hne

lemma not_mem_operand {g r : List Char} {x : Char} (hg : IsGap g)
    (hv : ofRelease? (String.ofList r) = some v) (hx : x ∈ ['=', ',', '*']) : x ∉ g ++ r := by
  have hforeign := isForeign_sign hx
  have hr := hforeign.not_mem hv
  rw [String.toList_ofList] at hr
  rw [List.mem_append, not_or]
  exact ⟨hg.not_mem hforeign.blank, hr⟩

/-- What stands behind an operator when the blanks around the clause are gone. -/
lemma exists_operand {x : List Char} (op : Comparison) (hx : '=' ∉ x) :
    ∃ y, trim (op.text.toList ++ x) = op.text.toList ++ y ∧ trim y = trim x ∧
      y.head? ≠ some '=' := by
  have hsolid : IsSolid op.text.toList ∧ op.text.toList ≠ [] := by
    cases op <;> exact ⟨isSolid_of_forall (List.all_iff_forall_prop.mp (by decide)), by decide⟩
  obtain ⟨y, g, hg, rfl, htrim⟩ := exists_trim_append hsolid.1 hsolid.2 x
  refine ⟨y, htrim, (trim_gaps isGap_nil hg).symm, fun h => hx ?_⟩
  exact List.mem_append_left g (List.mem_of_mem_head? h)

lemma Clause.Spells.not_mem (h : c.Spells text) : ',' ∉ text := by
  cases h with
  | @comparison op v g r hg hv =>
    have hop : ',' ∉ op.text.toList := by
      cases op <;> decide
    have hr := not_mem_operand hg hv (x := ',') (by decide)
    rw [List.mem_append, not_or]
    exact ⟨hop, hr⟩
  | @family ns g hg =>
    have hgap : ',' ∉ g := hg.not_mem (by decide)
    have hnumbers : ',' ∉ dotted ns := not_mem_dotted (by decide) (by decide)
    simp [hgap, hnumbers]

lemma Clause.Spells.isProper (h : c.Spells text) : c.comparator.IsProper := by
  cases h with
  | @comparison op v g r hg hv =>
    refine (isProper_of_ofRelease? hv).comparator ?_
    cases op <;> decide
  | family _ hns => exact isProper_ofNumbers nofun hns

/-- A clause is read as its comparator. -/
lemma Clause.Spells.comparators (h : c.Spells text) :
    Pin.comparators (trim text) = .ok c.comparator.text.toList := by
  cases h with
  | @comparison op v g r hg hv =>
    obtain ⟨y, htext, htrim, hhead⟩ := exists_operand op (not_mem_operand hg hv (by decide))
    have hoperand : trim (g ++ r) = trim r := by
      calc trim (g ++ r) = trim (g ++ r ++ []) := by rw [List.append_nil]
        _ = trim r := trim_gaps hg isGap_nil
    have hstar : stripSuffix? ['.', '*'] (trim y) = none := by
      rw [Option.eq_none_iff_forall_ne_some]
      intro start hstart
      have hmem : '*' ∈ trim (g ++ r) := by
        rw [← htrim, stripSuffix?_eq_some.mp hstart]
        simp
      exact not_mem_operand hg hv (x := '*') (by decide) (mem_of_mem_trim hmem)
    rw [htext, comparators_text hhead hstar, htrim, hoperand, fullVersion_trim hv, comparator,
      text_comparator]
    rfl
  | @family ns g hg hns =>
    have hequals : '=' ∉ g ++ (dotted ns ++ ['.', '*']) := by
      have hgap : '=' ∉ g := hg.not_mem (by decide)
      have hnumbers : '=' ∉ dotted ns := not_mem_dotted (by decide) (by decide)
      simp [hgap, hnumbers]
    have hstar : ∀ x ∈ ['.', '*'], isBlank x = false :=
      List.all_iff_forall_prop.mp (by decide)
    have hsolid : IsSolid (dotted ns ++ ['.', '*']) := isSolid_of_forall fun x hx =>
      (List.mem_append.mp hx).elim isBlank_of_mem_dotted (hstar x)
    have hnumbers : (Comparator.ofNumbers .exact ns).text.toList = '=' :: dotted ns :=
      toList_ofNumbers nofun hns
    obtain ⟨y, htext, htrim, hhead⟩ := exists_operand .equal hequals
    have hstar : stripSuffix? ['.', '*'] (trim y) = some (dotted ns) := by
      have hgap := trim_solid hsolid hg isGap_nil
      rw [List.append_nil] at hgap
      rw [htrim, stripSuffix?_eq_some, hgap]
    change Pin.comparators (trim (Comparison.equal.text.toList ++ _)) = _
    rw [htext]
    change Pin.comparators ('=' :: '=' :: y) = _
    rw [Pin.comparators, hstar, comparator, hnumbers]
    · rfl
    · rintro r rfl
      exact hhead rfl

end Reading

/-! ### Pins -/

section Pins

variable {package constraint : String} {cs : List Clause}

lemma Pin.parse_of_comparators {texts : List (List Char)} {requirement : Requirement}
    (htexts : List.Forall₂ (fun p t => comparators (trim p) = .ok t) (constraint.toList.splitOn ',')
      texts)
    (hread : Requirement.ofChars? (joinWith [',', ' '] texts) = some requirement) :
    Pin.parse package constraint = .ok ⟨package, constraint, requirement⟩ := by
  rw [Pin.parse, except_mapM_eq_ok.mpr htexts]
  simp only [bind, Except.bind]
  rw [hread]
  rfl

/-- A pin is read as the comparators of its clauses. -/
lemma Pin.parse_spelled (h : SpellsClauses constraint.toList cs)
    (hlen : cs.length ≤ Requirement.maxComparators) :
    Pin.parse package constraint = .ok ⟨package, constraint, ⟨cs.map Clause.comparator⟩⟩ := by
  obtain ⟨ws, hws, hsep⟩ := h
  have hcomma : ∀ w ∈ ws, ',' ∉ w := forall_right_of_forall₂ hws.flip fun _ _ h => h.not_mem
  have hproper : ∀ c ∈ cs.map Clause.comparator, c.IsProper :=
    List.forall_mem_map.mpr (forall_right_of_forall₂ hws fun _ _ h => h.isProper)
  have hne : cs.map Clause.comparator ≠ [] := by
    rintro hnil
    obtain rfl := List.map_eq_nil_iff.mp hnil
    obtain rfl := List.forall₂_nil_right_iff.mp hws
    cases hsep
  have htexts : List.Forall₂ (fun p t => comparators p = .ok t)
      ((constraint.toList.splitOn ',').map trim) (cs.map fun c => c.comparator.text.toList) := by
    rw [hsep.map_trim_splitOn (by decide) hcomma, List.forall₂_map_left_iff,
      List.forall₂_map_right_iff]
    exact hws.imp fun _ _ h => h.comparators
  refine parse_of_comparators (List.forall₂_map_left_iff.mp htexts) ?_
  have hread := ofChars?_joined hproper hne (by simpa using hlen)
  rwa [joined, List.map_map] at hread

/-- **Comparison pins mean what they say.** Of the pre-releases only those of releases that a clause
names a pre-release of are let in. -/
theorem Pin.parse_clauses (package : String) (h : SpellsClauses constraint.toList cs)
    (hlen : cs.length ≤ 32) : ∃ pin, Pin.parse package constraint = .ok pin ∧
      ∀ w, pin.isMet w = true ↔
        (∀ c ∈ cs, c.Admits w) ∧ (w.pre = [] ∨ ∃ c ∈ cs, c.NamesPreOf w) := by
  refine ⟨_, parse_spelled h hlen, fun w => ?_⟩
  obtain ⟨ws, hws, -⟩ := h
  have hmet : ∀ c ∈ cs, (c.comparator.isMet w = true ↔ c.Admits w) :=
    forall_right_of_forall₂ hws fun _ _ h => h.isMet
  rw [Pin.isMet, Requirement.isMet, Bool.and_eq_true, Bool.or_eq_true, List.all_map, List.any_map,
    List.all_eq_true, List.any_eq_true, List.isEmpty_iff]
  exact and_congr (forall₂_congr hmet) (or_congr Iff.rfl (by simp [Clause.namesPreOf]))

/-- Clauses of all kinds. -/
def mixedClauses : List Clause :=
  [.comparison .atLeast ⟨1, 0, 0, [.word "a", .number 1]⟩, .comparison .below ⟨2, 0, 0, []⟩,
    .family [1]]

lemma spellsClauses_mixed : SpellsClauses " >= 1.0a1 , <2.0 ,== 1.*".toList mixedClauses := by
  have hspace : IsGap [' '] := isGap_singleton (by decide)
  have hleast : Clause.Spells (Comparison.atLeast.text.toList ++ ([' '] ++ "1.0a1".toList))
      (.comparison .atLeast ⟨1, 0, 0, [.word "a", .number 1]⟩) :=
    .comparison hspace (by decide +kernel)
  have hbelow : Clause.Spells (Comparison.below.text.toList ++ ([] ++ "2.0".toList))
      (.comparison .below ⟨2, 0, 0, []⟩) :=
    .comparison isGap_nil (by decide +kernel)
  have hfamily : Clause.Spells ("==".toList ++ ([' '] ++ (dotted [1] ++ ['.', '*']))) (.family [1]) :=
    .family hspace ⟨by decide, by decide, by decide⟩
  refine ⟨_, .cons hleast (.cons hbelow (.cons hfamily .nil)), ?_⟩
  convert separates_splitTop ',' " >= 1.0a1 , <2.0 ,== 1.*".toList using 1
  decide +kernel

theorem Pin.parse_clauses_mixed :
    SpellsClauses " >= 1.0a1 , <2.0 ,== 1.*".toList mixedClauses ∧ mixedClauses.length ≤ 32 ∧
      ∃ pin, Pin.parse "base58" " >= 1.0a1 , <2.0 ,== 1.*" = .ok pin ∧
        pin.isMet ⟨1, 5, 0, []⟩ = true ∧ pin.isMet ⟨2, 0, 0, []⟩ = false := by
  obtain ⟨pin, hparse, hmet⟩ := parse_clauses "base58" spellsClauses_mixed (by decide)
  refine ⟨spellsClauses_mixed, by decide, pin, hparse, (hmet _).mpr ?_, ?_⟩
  · simp [mixedClauses, Clause.Admits, Comparison.Holds, Version.compare, Ordering.then]
    decide
  · rw [← Bool.not_eq_true, hmet]
    simp [mixedClauses, Clause.Admits]

end Pins

end ContractBuild.Version
