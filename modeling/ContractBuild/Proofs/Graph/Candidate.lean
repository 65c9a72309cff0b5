import Mathlib
import ContractBuild.Graph.Candidate

/-!
The candidates of an import statement, said without computing them: the packages around a dotted
name and the name itself, and each name imported from a module below that module.
-/

namespace ContractBuild.Graph

open ContractBuild.Python ContractBuild.Text

/-- The components of the package that a module is in, or of the module if it is a package. -/
def ownPackage (importer : String) (isPackage : Bool) : List String :=
  if isPackage then splitString '.' importer else (splitString '.' importer).dropLast

/-- The module that names are imported from: one dot is the own package, and each further dot leads
one package up. -/
inductive IsBase (importer : String) (isPackage : Bool) : ℕ → Option String → String → Prop where
  | absolute {base : Option String} : IsBase importer isPackage 0 base (base.getD "")
  | package {above package : List String} (hne : package ≠ [])
      (h : ownPackage importer isPackage = package ++ above) :
      IsBase importer isPackage (above.length + 1) none (Candidate.dotted package)
  | below {above package : List String} {b : String} (hne : package ≠ [])
      (h : ownPackage importer isPackage = package ++ above) :
      IsBase importer isPackage (above.length + 1) (some b) (Candidate.dotted package ++ "." ++ b)

/-- What a statement may mean. Only the whole name of a module has to be there. -/
inductive Means (importer : String) (isPackage : Bool) : Import → Candidate → Prop where
  | whole {line : ℕ} {name : String} {p : List String} (hne : p ≠ [])
      (hp : p <+: splitString '.' name) :
      Means importer isPackage (.whole line name)
        ⟨Candidate.dotted p, p = splitString '.' name, line⟩
  | base {line level : ℕ} {base : Option String} {names : List String} {b : String}
      {p : List String} (hb : IsBase importer isPackage level base b) (hne : p ≠ [])
      (hp : p <+: splitString '.' b) :
      Means importer isPackage (.names line level base names)
        ⟨Candidate.dotted p, p = splitString '.' b, line⟩
  | name {line level : ℕ} {base : Option String} {names : List String} {b n : String}
      (hb : IsBase importer isPackage level base b) (hn : n ∈ names) (hs : n ≠ "*") :
      Means importer isPackage (.names line level base names) ⟨b ++ "." ++ n, false, line⟩

lemma mem_withPrefixes {name : String} {line : ℕ} {c : Candidate} :
    c ∈ Candidate.withPrefixes name line ↔ ∃ p, p ≠ [] ∧ p <+: splitString '.' name ∧
      c = ⟨Candidate.dotted p, p = splitString '.' name, line⟩ := by
  simp only [Candidate.withPrefixes, List.mem_map, List.mem_range]
  generalize splitString '.' name = parts
  constructor
  · rintro ⟨i, hi, rfl⟩
    refine ⟨parts.take (i + 1), ?_, List.take_prefix _ _, ?_⟩
    · rw [← List.length_pos_iff, List.length_take]; omega
    · congr 1
      refine decide_eq_decide.mpr ?_
      constructor
      · intro h; rw [h, List.take_length]
      · intro h
        have := congrArg List.length h
        rw [List.length_take] at this
        omega
  · rintro ⟨p, hne, hp, rfl⟩
    have hpos := List.length_pos_iff.mpr hne
    have hle := hp.length_le
    refine ⟨p.length - 1, by omega, ?_⟩
    have htake : parts.take (p.length - 1 + 1) = p := by
      rw [Nat.sub_add_cancel hpos, ← List.prefix_iff_eq_take.mp hp]
    rw [htake]
    congr 1
    refine decide_eq_decide.mpr ?_
    constructor
    · intro h
      exact hp.eq_of_length (by omega)
    · rintro rfl; omega

lemma packageAt?_eq_some {importer : String} {isPackage : Bool} {level : ℕ} {s : String}
    (h0 : level ≠ 0) : Candidate.packageAt? importer isPackage level = some s ↔
      ∃ above package, package ≠ [] ∧ ownPackage importer isPackage = package ++ above ∧
        level = above.length + 1 ∧ s = Candidate.dotted package := by
  have hown : Candidate.packageAt? importer isPackage level =
      if level > (ownPackage importer isPackage).length then none
      else some (Candidate.dotted ((ownPackage importer isPackage).take
        ((ownPackage importer isPackage).length + 1 - level))) := rfl
  rw [hown]
  generalize ownPackage importer isPackage = parts
  split_ifs with hl
  · simp only [false_iff, not_exists, not_and]
    rintro above package hne rfl hlevel
    have := List.length_pos_iff.mpr hne
    rw [List.length_append] at hl
    omega
  · rw [Option.some.injEq]
    constructor
    · rintro rfl
      refine ⟨parts.drop (parts.length + 1 - level), parts.take (parts.length + 1 - level), ?_,
        (List.take_append_drop _ _).symm, ?_, rfl⟩
      · rw [← List.length_pos_iff, List.length_take]; omega
      · rw [List.length_drop]; omega
    · rintro ⟨above, package, hne, rfl, rfl, rfl⟩
      have : (package ++ above).length + 1 - (above.length + 1) = package.length := by
        rw [List.length_append]; omega
      rw [this, List.take_left]

/-- The base is what the dots and the name before `import` say. -/
lemma baseOf_eq_ok {importer : String} {isPackage : Bool} {level line : ℕ} {base : Option String}
    {b : String} : Candidate.baseOf importer isPackage level base line = .ok b ↔
      IsBase importer isPackage level base b := by
  unfold Candidate.baseOf
  split_ifs with h0
  · subst h0
    constructor
    · intro h; cases h; exact .absolute
    · intro h; cases h; rfl
  · constructor
    · intro h
      rcases hp : Candidate.packageAt? importer isPackage level with _ | package
      · rw [hp] at h; cases h
      · obtain ⟨above, package, hne, hown, rfl, rfl⟩ := (packageAt?_eq_some h0).mp hp
        rw [hp] at h
        cases base with
        | none => cases h; exact .package hne hown
        | some b => cases h; exact .below hne hown
    · intro h
      cases h with
      | absolute => exact absurd rfl h0
      | package hne hown =>
        rw [(packageAt?_eq_some h0).mpr ⟨_, _, hne, hown, rfl, rfl⟩]
      | below hne hown =>
        rw [(packageAt?_eq_some h0).mpr ⟨_, _, hne, hown, rfl, rfl⟩]
        rfl

/-- **The candidates are exactly what a statement may mean.** -/
lemma mem_ofImport {importer : String} {isPackage : Bool} {i : Import} {cs : List Candidate}
    (h : Candidate.ofImport importer isPackage i = .ok cs) (c : Candidate) :
    c ∈ cs ↔ Means importer isPackage i c := by
  cases i with
  | whole line name =>
    cases h
    rw [mem_withPrefixes]
    constructor
    · rintro ⟨p, hne, hp, rfl⟩
      exact .whole hne hp
    · rintro ⟨hne, hp⟩
      exact ⟨_, hne, hp, rfl⟩
  | names line level base names =>
    rcases hb : Candidate.baseOf importer isPackage level base line with f | b
    · rw [Candidate.ofImport, hb] at h; cases h
    · rw [Candidate.ofImport, hb] at h
      cases h
      have hbase := baseOf_eq_ok.mp hb
      rw [List.mem_append, mem_withPrefixes, List.mem_map]
      constructor
      · rintro (⟨p, hne, hp, rfl⟩ | ⟨n, hn, rfl⟩)
        · exact .base hbase hne hp
        · rw [List.mem_filter] at hn
          exact .name (n := n) hbase hn.1 (of_decide_eq_true hn.2)
      · intro hc
        cases hc with
        | base hb' hne hp =>
          obtain rfl := Except.ok.inj (hb.symm.trans (baseOf_eq_ok.mpr hb'))
          exact .inl ⟨_, hne, hp, rfl⟩
        | name hb' hn hs =>
          obtain rfl := Except.ok.inj (hb.symm.trans (baseOf_eq_ok.mpr hb'))
          exact .inr ⟨_, List.mem_filter.mpr ⟨hn, decide_eq_true hs⟩, rfl⟩

/-- A statement that means something has its candidates. -/
lemma ofImport_of_means {importer : String} {isPackage : Bool} {i : Import} {c : Candidate}
    (h : Means importer isPackage i c) :
    ∃ cs, Candidate.ofImport importer isPackage i = .ok cs ∧ c ∈ cs := by
  have hok : ∃ cs, Candidate.ofImport importer isPackage i = .ok cs := by
    cases h with
    | whole hne hp => exact ⟨_, rfl⟩
    | base hb hne hp =>
      exact ⟨_, by rw [Candidate.ofImport, baseOf_eq_ok.mpr hb]; rfl⟩
    | name hb hn hs =>
      exact ⟨_, by rw [Candidate.ofImport, baseOf_eq_ok.mpr hb]; rfl⟩
  obtain ⟨cs, hcs⟩ := hok
  exact ⟨cs, hcs, (mem_ofImport hcs c).mpr h⟩

end ContractBuild.Graph
