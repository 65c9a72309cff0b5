import Mathlib
import ContractBuild.Proofs.Version.Requirement

/-!
Precedence of versions: equal versions alone have equal precedence, and a comparator with a full
version asks for its place in it.
-/

namespace ContractBuild.Version

/-! ### Equal precedence -/

lemma Identifier.compare_eq_eq {i j : Identifier} : i.compare j = .eq ↔ i = j := by
  cases i <;> cases j <;> simp [Identifier.compare]

lemma compareIdentifiers_eq_eq {p q : PreRelease} : compareIdentifiers p q = .eq ↔ p = q := by
  induction p generalizing q with
  | nil => cases q <;> simp [compareIdentifiers]
  | cons i p ih =>
    cases q with
    | nil => simp [compareIdentifiers]
    | cons j q =>
      rw [compareIdentifiers, Ordering.then_eq_eq, Identifier.compare_eq_eq, ih, List.cons.injEq]

lemma comparePre_eq_eq {p q : PreRelease} : comparePre p q = .eq ↔ p = q := by
  cases p with
  | nil => cases q <;> simp [comparePre]
  | cons i p =>
    cases q with
    | nil => simp [comparePre]
    | cons j q => exact compareIdentifiers_eq_eq

/-- Versions of equal precedence are equal. -/
lemma compare_eq_eq {v w : Version} : v.compare w = .eq ↔ v = w := by
  obtain ⟨major, minor, patch, pre⟩ := v
  obtain ⟨major', minor', patch', pre'⟩ := w
  simp only [Version.compare, Ordering.then_eq_eq, Nat.compare_eq_eq, comparePre_eq_eq, mk.injEq]

/-! ### Comparators with a full version -/

section Full

variable {v w : Version} {op : Operator}

lemma isExact_comparator : (v.comparator op).isExact w = true ↔ w = v := by
  obtain ⟨major, minor, patch, pre⟩ := v
  obtain ⟨major', minor', patch', pre'⟩ := w
  simp [comparator, Comparator.isExact, and_assoc]

lemma namesPreOf_comparator : (v.comparator op).namesPreOf w = true ↔
    (v.major = w.major ∧ v.minor = w.minor ∧ v.patch = w.patch) ∧ v.pre ≠ [] := by
  simp [comparator, Comparator.namesPreOf, and_assoc]

end Full

end ContractBuild.Version
