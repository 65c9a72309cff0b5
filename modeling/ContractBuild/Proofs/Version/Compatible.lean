import Mathlib
import ContractBuild.Proofs.Version.Pin

/-!
Compatible releases: those from the operand on that have its numbers up to the one before the last.
The number that bounds them is a successor, which has to fit into 64 bits.
-/

namespace ContractBuild.Version

open ContractBuild.Text

/-! ### Bounds -/

section Bounds

variable {w : Version} {x y z : ℕ}

lemma isMet_less_one :
    (Comparator.ofNumbers .less [x + 1]).isMet w = true ↔ w.major ≤ x := by
  change (((Ord.compare w.major (x + 1)).then .eq) == .lt) = true ↔ _
  rw [beq_iff_eq, Ordering.then_eq, Nat.compare_eq_lt, Nat.lt_succ_iff]

lemma isMet_less_two : (Comparator.ofNumbers .less [x, y + 1]).isMet w = true ↔
    w.major < x ∨ w.major = x ∧ w.minor ≤ y := by
  change (((Ord.compare w.major x).then ((Ord.compare w.minor (y + 1)).then .eq)) == .lt) = true ↔ _
  rw [beq_iff_eq, Ordering.then_eq, Ordering.then_eq_lt, Nat.compare_eq_lt, Nat.compare_eq_eq,
    Nat.compare_eq_lt, Nat.lt_succ_iff]

/-- The order of releases, number by number. -/
lemma compare_release_ne_lt (hpre : w.pre = []) : w.compare ⟨x, y, z, []⟩ ≠ .lt ↔
    x < w.major ∨ w.major = x ∧ (y < w.minor ∨ w.minor = y ∧ z ≤ w.patch) := by
  rw [Version.compare, hpre, ne_eq, Ordering.then_eq_lt, Ordering.then_eq_lt, Ordering.then_eq_lt]
  simp only [Nat.compare_eq_lt, Nat.compare_eq_eq, comparePre, reduceCtorEq, and_false, or_false]
  omega

lemma isMet_greaterEq_two (hpre : w.pre = []) :
    (Comparator.ofNumbers .greaterEq [x, y]).isMet w = true ↔ w.compare ⟨x, y, 0, []⟩ ≠ .lt := by
  change ((w.major == x && w.minor == y && true && w.pre == []) ||
    ((Ord.compare w.major x).then ((Ord.compare w.minor y).then .eq)) == .gt) = true ↔ _
  rw [compare_release_ne_lt hpre, Bool.or_eq_true, beq_iff_eq, Ordering.then_eq,
    Ordering.then_eq_gt, Nat.compare_eq_gt, Nat.compare_eq_gt, Nat.compare_eq_eq, hpre]
  simp only [Bool.and_eq_true, beq_iff_eq, and_true]
  omega

lemma isMet_greaterEq_three :
    (Comparator.ofNumbers .greaterEq [x, y, z]).isMet w = true ↔ w.compare ⟨x, y, z, []⟩ ≠ .lt := by
  have h : ((⟨x, y, z, []⟩ : Version).comparator Comparison.atLeast.operator).isMet w = true ↔
      Comparison.atLeast.Holds (w.compare ⟨x, y, z, []⟩) := isMet_comparison
  exact h

end Bounds

/-! ### Reading operands -/

section Operands

variable {package constraint : String} {ns bs : List ℕ} {x y z : ℕ}

lemma joined_bounds (hns : IsNumbers ns) (hbs : IsNumbers bs) :
    joined [.ofNumbers .greaterEq ns, .ofNumbers .less bs] =
      ">=".toList ++ dotted ns ++ ", <".toList ++ dotted bs := by
  have hleast : (Comparator.ofNumbers .greaterEq ns).text.toList = ">=".toList ++ dotted ns :=
    toList_ofNumbers nofun hns
  have hbelow : (Comparator.ofNumbers .less bs).text.toList = "<".toList ++ dotted bs :=
    toList_ofNumbers nofun hbs
  rw [joined_cons, joined_singleton, hleast, hbelow]
  simp

lemma mapM_dotted (hns : IsNumbers ns) :
    ((dotted ns).splitOn '.').mapM wordOfSigned? = some ns := by
  rw [splitOn_dotted hns.ne_nil]
  exact option_mapM_eq_some.mpr (List.forall₂_map_left_iff.mpr
    (List.forall₂_same.mpr fun n hn => wordOfSigned?_toString (hns.lt n hn)))

lemma compatible_two (hns : IsNumbers [x, y]) : Pin.compatible (dotted [x, y]) =
    if x + 1 < wordLimit then .ok (joined [.ofNumbers .greaterEq [x, y], .ofNumbers .less [x + 1]])
    else .error .overflow := by
  rw [Pin.compatible, mapM_dotted hns]
  change (Pin.successor x >>= fun b => .ok (">=".toList ++ dotted [x, y] ++ ", <".toList ++ b)) = _
  rw [Pin.successor]
  split_ifs with hx
  · have hbound : IsNumbers [x + 1] := ⟨List.cons_ne_nil _ _, by simp, by simpa using hx⟩
    rw [joined_bounds hns hbound]
    simp [dotted, joinWith]
    rfl
  · rfl

lemma compatible_three (hns : IsNumbers [x, y, z]) : Pin.compatible (dotted [x, y, z]) =
    if y + 1 < wordLimit then
      .ok (joined [.ofNumbers .greaterEq [x, y, z], .ofNumbers .less [x, y + 1]])
    else .error .overflow := by
  rw [Pin.compatible, mapM_dotted hns]
  change (Pin.successor y >>= fun b => .ok (">=".toList ++ dotted [x, y, z] ++ ", <".toList ++
    (toString x).toList ++ '.' :: b)) = _
  rw [Pin.successor]
  split_ifs with hy
  · have hx : x < wordLimit := hns.lt x List.mem_cons_self
    have hbound : IsNumbers [x, y + 1] := ⟨List.cons_ne_nil _ _, by simp, by simpa using ⟨hx, hy⟩⟩
    rw [joined_bounds hns hbound]
    simp [dotted, joinWith]
    rfl
  · rfl

/-- No other count of numbers is read. -/
lemma compatible_error {t : List Char} (h : (t.splitOn '.').length ∉ [2, 3]) :
    Pin.compatible t = .error (.notNumeric (String.ofList t)) ∨
      Pin.compatible t = .error (.componentCount (String.ofList t)) := by
  rw [Pin.compatible]
  cases hread : (t.splitOn '.').mapM wordOfSigned? with
  | none => exact .inl rfl
  | some ns =>
    rw [(option_mapM_eq_some.mp hread).length_eq] at h
    refine .inr ?_
    rcases ns with _ | ⟨x, _ | ⟨y, _ | ⟨z, _ | ⟨n, ns⟩⟩⟩⟩
    · rfl
    · rfl
    · exact absurd (by simp) h
    · exact absurd (by simp) h
    · rfl

/-- The operand of `~=` is what stands behind it, without the blanks around. -/
lemma comparators_compatible (t : List Char) :
    Pin.comparators (trim ('~' :: '=' :: t)) = Pin.compatible (trim t) := by
  have hsolid : IsSolid ['~', '='] :=
    isSolid_of_forall (List.all_iff_forall_prop.mp (by decide))
  obtain ⟨y, g, hg, rfl, htrim⟩ := exists_trim_append hsolid nofun t
  have hsame : trim (y ++ g) = trim y := trim_gaps isGap_nil hg
  change Pin.comparators (trim (['~', '='] ++ (y ++ g))) = _
  rw [htrim, hsame]
  rfl

end Operands

/-! ### Compatible releases -/

section Compatible

variable {package constraint : String} {ns bs : List ℕ} {x y z : ℕ}

lemma Pin.parse_error {f : PinFault} (hcomma : ',' ∉ constraint.toList)
    (hfault : comparators (trim constraint.toList) = .error f) :
    Pin.parse package constraint = .error f := by
  rw [Pin.parse, splitOn_of_not_mem hcomma, List.mapM_cons, hfault]
  rfl

/-- The operand of a constraint with numbers. -/
lemma comparators_dotted (hconstraint : constraint.toList = '~' :: '=' :: dotted ns) :
    ',' ∉ constraint.toList ∧
      Pin.comparators (trim constraint.toList) = Pin.compatible (dotted ns) := by
  have htrim : trim (dotted ns) = dotted ns :=
    trim_self (isSolid_of_forall fun _ => isBlank_of_mem_dotted)
  have hcomma : ',' ∉ dotted ns := not_mem_dotted (by decide) (by decide)
  rw [hconstraint, comparators_compatible, htrim]
  exact ⟨by simpa using hcomma, rfl⟩

/-- A pin with a lower and an upper bound. -/
lemma Pin.parse_bounds (package : String) (hcomma : ',' ∉ constraint.toList)
    (hns : IsNumbers ns) (hbs : IsNumbers bs)
    (htext : comparators (trim constraint.toList) =
      .ok (joined [.ofNumbers .greaterEq ns, .ofNumbers .less bs])) :
    ∃ pin, Pin.parse package constraint = .ok pin ∧ ∀ w, pin.isMet w = true ↔
      w.pre = [] ∧ (Comparator.ofNumbers .greaterEq ns).isMet w = true ∧
        (Comparator.ofNumbers .less bs).isMet w = true := by
  have hproper : ∀ c ∈ [Comparator.ofNumbers .greaterEq ns, .ofNumbers .less bs], c.IsProper := by
    simp only [List.forall_mem_cons, List.not_mem_nil, false_implies, implies_true, and_true]
    exact ⟨isProper_ofNumbers nofun hns, isProper_ofNumbers nofun hbs⟩
  have hlen : 2 ≤ Requirement.maxComparators := by decide
  have hread := ofChars?_joined hproper nofun hlen
  have hjoin : joinWith [',', ' '] [joined [.ofNumbers .greaterEq ns, .ofNumbers .less bs]] =
      joined [.ofNumbers .greaterEq ns, .ofNumbers .less bs] := by
    simp [joinWith]
  rw [← hjoin] at hread
  refine ⟨_, parse_of_comparators ?_ hread, fun w => ?_⟩
  · rw [splitOn_of_not_mem hcomma]
    exact .cons htext .nil
  · simp only [Pin.isMet, Requirement.isMet, List.all_cons, List.all_nil, List.any_cons,
      List.any_nil, namesPreOf_ofNumbers, Bool.or_false, Bool.and_true, Bool.and_eq_true,
      List.isEmpty_iff]
    exact and_comm

/-- A constraint whose upper bound has the successor `b` in it, and what its bounds say of
releases. -/
lemma Pin.parse_bounded (package : String) {b : ℕ} {P : Version → Prop}
    (hconstraint : constraint.toList = '~' :: '=' :: dotted ns) (hns : IsNumbers ns)
    (hbs : b < wordLimit → IsNumbers bs)
    (hread : compatible (dotted ns) =
      if b < wordLimit then .ok (joined [.ofNumbers .greaterEq ns, .ofNumbers .less bs])
      else .error .overflow)
    (hP : ∀ w : Version, w.pre = [] → ((Comparator.ofNumbers .greaterEq ns).isMet w = true ∧
      (Comparator.ofNumbers .less bs).isMet w = true ↔ P w)) :
    if b < wordLimit then
      ∃ pin, Pin.parse package constraint = .ok pin ∧ ∀ w, pin.isMet w = true ↔ w.pre = [] ∧ P w
    else Pin.parse package constraint = .error .overflow := by
  obtain ⟨hcomma, htext⟩ := comparators_dotted hconstraint
  rw [hread] at htext
  split_ifs at htext ⊢ with hfits
  · obtain ⟨pin, hparse, hmet⟩ := parse_bounds package hcomma hns (hbs hfits) htext
    exact ⟨pin, hparse, fun w => (hmet w).trans (and_congr_right (hP w))⟩
  · exact parse_error hcomma htext

/-- **Compatible releases** are those from the operand on that have its numbers up to the one before
the last. The successor of that number has to fit into 64 bits, and an operand has two or three
numbers. -/
theorem Pin.parse_compatible (package : String) (hx : x < wordLimit) (hy : y < wordLimit)
    (hz : z < wordLimit) :
    (if x + 1 < wordLimit then
      ∃ pin, Pin.parse package s!"~={x}.{y}" = .ok pin ∧ ∀ w, pin.isMet w = true ↔
        w.pre = [] ∧ w.compare ⟨x, y, 0, []⟩ ≠ .lt ∧ w.major = x
    else Pin.parse package s!"~={x}.{y}" = .error .overflow) ∧
    (if y + 1 < wordLimit then
      ∃ pin, Pin.parse package s!"~={x}.{y}.{z}" = .ok pin ∧ ∀ w, pin.isMet w = true ↔
        w.pre = [] ∧ w.compare ⟨x, y, z, []⟩ ≠ .lt ∧ w.major = x ∧ w.minor = y
    else Pin.parse package s!"~={x}.{y}.{z}" = .error .overflow) ∧
    ∀ operand : String, ',' ∉ operand.toList →
      ((trim operand.toList).splitOn '.').length ∉ [2, 3] →
      Pin.parse package ("~=" ++ operand) = .error (.notNumeric (trimString operand)) ∨
        Pin.parse package ("~=" ++ operand) = .error (.componentCount (trimString operand)) := by
  have hdot : toString "." = "." := rfl
  have hsign : toString "~=" = "~=" := rfl
  have htwo : (s!"~={x}.{y}").toList = '~' :: '=' :: dotted [x, y] := by
    simp [dotted, joinWith, hdot, hsign]
  have hthree : (s!"~={x}.{y}.{z}").toList = '~' :: '=' :: dotted [x, y, z] := by
    simp [dotted, joinWith, hdot, hsign]
  refine ⟨?_, ?_, fun operand hcomma hcount => ?_⟩
  · have hns : IsNumbers [x, y] := ⟨List.cons_ne_nil _ _, by simp, by simpa using ⟨hx, hy⟩⟩
    have hbs : x + 1 < wordLimit → IsNumbers [x + 1] :=
      fun hfits => ⟨List.cons_ne_nil _ _, by simp, by simpa using hfits⟩
    refine parse_bounded package htwo hns hbs (compatible_two hns) fun w hpre => ?_
    rw [isMet_greaterEq_two hpre, isMet_less_one, compare_release_ne_lt hpre]
    omega
  · have hns : IsNumbers [x, y, z] := ⟨List.cons_ne_nil _ _, by simp, by simpa using ⟨hx, hy, hz⟩⟩
    have hbs : y + 1 < wordLimit → IsNumbers [x, y + 1] :=
      fun hfits => ⟨List.cons_ne_nil _ _, by simp, by simpa using ⟨hx, hfits⟩⟩
    refine parse_bounded package hthree hns hbs (compatible_three hns) fun w hpre => ?_
    rw [isMet_greaterEq_three, isMet_less_two, compare_release_ne_lt hpre]
    omega
  · have htext : ("~=" ++ operand).toList = '~' :: '=' :: operand.toList := by
      simp
    have hcomma' : ',' ∉ ("~=" ++ operand).toList := by
      rw [htext]
      simpa using hcomma
    have hread := comparators_compatible operand.toList
    rw [← htext] at hread
    exact (compatible_error hcount).imp (fun h => parse_error hcomma' (hread.trans h))
      fun h => parse_error hcomma' (hread.trans h)

/-- The greatest number has no successor, which matters only in front of the last number. -/
theorem Pin.parse_compatible_greatest :
    18446744073709551615 < wordLimit ∧
      Pin.parse "base58" "~=18446744073709551615.2" = .error .overflow ∧
      ∃ pin, Pin.parse "base58" "~=18446744073709551615.2.0" = .ok pin ∧
        pin.isMet ⟨18446744073709551615, 2, 5, []⟩ = true ∧
        pin.isMet ⟨18446744073709551615, 3, 0, []⟩ = false := by
  have hgreatest : 18446744073709551615 < wordLimit := by decide
  obtain ⟨htwo, hthree, -⟩ := parse_compatible "base58" (y := 2) (z := 0) hgreatest (by decide)
    (by decide)
  rw [if_neg (by decide)] at htwo
  rw [if_pos (by decide)] at hthree
  obtain ⟨pin, hparse, hmet⟩ := hthree
  refine ⟨hgreatest, htwo, pin, hparse, (hmet _).mpr (by decide), ?_⟩
  rw [← Bool.not_eq_true, hmet]
  decide

end Compatible

end ContractBuild.Version
