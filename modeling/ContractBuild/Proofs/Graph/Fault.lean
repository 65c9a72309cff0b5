import Mathlib
import ContractBuild.Proofs.Graph.Search

/-!
The faults met on the way: what is read, named, looked for or pinned can be to blame. That a search
is given up, and that its graph is not consistent, is reported nowhere else than where it is found.
-/

namespace ContractBuild.Graph

open ContractBuild.Disk ContractBuild.Text

/-- Whether a fault lies with the project, and not with the search for its modules. -/
def Fault.isMet : Fault → Bool
  | .inconsistent _ | .unfinished => false
  | _ => true

/-- Whether a fault lies with a module that the search has come to. -/
def Fault.isOfModule : Fault → Bool
  | .unresolvedImport .. | .beyondTopLevel .. | .versionMismatch .. | .unreadable ..
  | .invalidEncoding .. | .io .. => true
  | _ => false

lemma Fault.isMet_of_isOfModule {f : Fault} (h : f.isOfModule = true) : f.isMet = true := by
  cases f with
  | inconsistent => cases h
  | unfinished => cases h
  | _ => rfl

section

variable {scope : Scope} {t : Tree} {module : Located} {s : Search} {f : Fault}

lemma isOfModule_of_checkPin {importer name : String} {d : Option Distribution} {pin : Version.Pin}
    (h : checkPin importer name d pin = .error f) : f.isOfModule = true := by
  unfold checkPin at h
  split at h
  · cases h
  · split_ifs at h
    cases h
    rfl

lemma isOfModule_of_checkPins {importer : String} {l : Located} {d : Option Distribution}
    {pins : List (Version.Pin × ℕ)} (h : checkPins importer l d s pins = .error f) :
    f.isOfModule = true := by
  induction pins generalizing s with
  | nil => cases h
  | cons p pins ih =>
    obtain ⟨pin, i⟩ := p
    rw [checkPins] at h
    split_ifs at h
    · rcases except_bind_error.mp h with h | ⟨ws, -, h⟩
      · exact isOfModule_of_checkPin h
      · exact ih h
    · exact ih h

lemma isOfModule_of_checkLocated {importer : String} {l : Located}
    (h : checkLocated scope importer l s = .error f) : f.isOfModule = true := by
  unfold checkLocated at h
  split at h
  · cases h
  · exact isOfModule_of_checkPins h

lemma isOfModule_of_follow {st : Search × Found} {c : Candidate}
    (h : follow (Files.ofTree t) scope module st c = Except.error f) : f.isOfModule = true := by
  obtain ⟨s, found⟩ := st
  rw [follow_ofTree] at h
  by_cases h1 : scope.excludes c.name = true
  · rw [if_pos h1] at h; cases h
  rw [if_neg h1] at h
  by_cases h2 : c.name = module.name
  · rw [if_pos h2] at h; cases h
  rw [if_neg h2] at h
  by_cases h3 : s.discovered.contains c.name = true
  · rw [if_pos h3] at h; cases h
  rw [if_neg h3] at h
  rcases hl : scope.find? t c.name with _ | l
  · simp only [hl] at h
    split_ifs at h
    cases h
    rfl
  · simp only [hl] at h
    rcases hp : checkLocated scope module.name l s with f' | s'
    · rw [hp] at h
      cases h
      exact isOfModule_of_checkLocated hp
    · rw [hp] at h
      cases h

lemma isOfModule_of_ofImport {importer : String} {isPackage : Bool} {i : Python.Import}
    (h : Candidate.ofImport importer isPackage i = .error f) : f.isOfModule = true := by
  cases i with
  | whole line name => cases h
  | names line level base names =>
    rcases except_bind_error.mp h with h | ⟨b, -, h⟩
    · unfold Candidate.baseOf at h
      split_ifs at h
      split at h
      · cases h
        rfl
      · cases h
    · cases h

lemma isOfModule_of_followImport {st : Search × Found} {i : Python.Import}
    (h : followImport (Files.ofTree t) scope module st i = Except.error f) : f.isOfModule = true := by
  rcases bind_eq_error.mp h with h | ⟨cs, -, h⟩
  · exact isOfModule_of_ofImport (lift_eq_error.mp h)
  · obtain ⟨st', c, -, h⟩ := exists_of_foldlM_error h
    exact isOfModule_of_follow h

lemma isOfModule_of_importsIn {bytes : Bytes} (h : importsIn module bytes = .error f) :
    f.isOfModule = true := by
  unfold importsIn at h
  split at h
  · cases h
    rfl
  · split at h
    · cases h
      rfl
    · cases h

lemma isOfModule_of_visit (h : visit (Files.ofTree t) scope module s = Except.error f) :
    f.isOfModule = true := by
  rcases bind_eq_error.mp h with h | ⟨r, -, h⟩
  · cases h
  rcases r with f' | bytes
  · cases h
    rfl
  rcases bind_eq_error.mp h with h | ⟨imports, -, h⟩
  · exact isOfModule_of_importsIn (lift_eq_error.mp h)
  rcases bind_eq_error.mp h with h | ⟨st, -, h⟩
  · obtain ⟨st', i, -, h⟩ := exists_of_foldlM_error h
    exact isOfModule_of_followImport h
  · cases h

/-- A search that is not given up ends in no other fault. -/
lemma isOfModule_of_explore {fuel : ℕ} (h : explore (Files.ofTree t) scope fuel s = Except.error f)
    (hf : f ≠ .unfinished) : f.isOfModule = true := by
  induction fuel generalizing s with
  | zero =>
    rcases hq : s.queue with _ | ⟨module, rest⟩
    · rw [explore_nil 0 hq] at h
      cases h
    · rw [explore_zero hq] at h
      exact absurd (Except.error.inj h).symm hf
  | succ fuel ih =>
    rcases hq : s.queue with _ | ⟨module, rest⟩
    · rw [explore_nil (fuel + 1) hq] at h
      cases h
    · rw [explore_cons hq] at h
      rcases bind_eq_error.mp h with h | ⟨s', -, h⟩
      · exact isOfModule_of_visit h
      · exact ih h

lemma isMet_of_visit (h : visit (Files.ofTree t) scope module s = Except.error f) :
    f.isMet = true :=
  Fault.isMet_of_isOfModule (isOfModule_of_visit h)

lemma isMet_of_explore {fuel : ℕ} (h : explore (Files.ofTree t) scope fuel s = Except.error f)
    (hf : f ≠ .unfinished) : f.isMet = true :=
  Fault.isMet_of_isOfModule (isOfModule_of_explore h hf)

lemma isMet_of_entryName {entry : Path} {roots : List Path} (h : entryName entry roots = .error f) :
    f.isMet = true := by
  unfold entryName at h
  dsimp only at h
  split at h
  · cases h
  · cases h
    rfl

lemma isMet_of_prepare {project : Path} {manifest : Manifest} {base : BaseLibrary}
    (h : prepare (Files.ofTree t) project manifest base = Except.error f) : f.isMet = true := by
  rcases bind_eq_error.mp h with h | ⟨pins, -, h⟩
  · rcases hp : manifest.versionPins with f' | pins
    · rw [hp] at h
      cases h
      rfl
    · rw [hp] at h
      cases h
  rcases bind_eq_error.mp h with h | ⟨root, -, h⟩
  · cases h
  rcases root with f' | root
  · cases h
    rfl
  rcases bind_eq_error.mp h with h | ⟨found, -, h⟩
  · cases h
  split_ifs at h
  · cases h
    rfl
  rcases bind_eq_error.mp h with h | ⟨name, -, h⟩
  · exact isMet_of_entryName (lift_eq_error.mp h)
  rcases bind_eq_error.mp h with h | ⟨packages, -, h⟩
  · cases h
  · cases h

end

end ContractBuild.Graph
