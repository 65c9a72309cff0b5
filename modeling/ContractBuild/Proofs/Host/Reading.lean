import Mathlib
import ContractBuild.Abi.Extract
import ContractBuild.Frozen.Freeze
import ContractBuild.Graph.Resolve
import ContractBuild.Host.Basic
import ContractBuild.Proofs.Program

/-!
Resolving, freezing and extracting an ABI only look at files: what every look keeps, they keep.
-/

namespace ContractBuild

open ContractBuild.Disk

variable {σ : Type} {P : σ → Prop}

/-- Files that can be looked at without leaving the states where `P` holds. -/
structure Disk.Files.Quiet (P : σ → Prop) (fs : Files (StateM σ)) : Prop where
  isFile : ∀ p, Keeps P (fs.isFile p)
  isDirectory : ∀ p, Keeps P (fs.isDirectory p)
  read : ∀ p, Keeps P (fs.read p)
  list : ∀ p, Keeps P (fs.list p)
  canonical : ∀ p, Keeps P (fs.canonical p)

variable {fs : Files (StateM σ)}

lemma Disk.Files.Quiet.readText (h : fs.Quiet P) (p : Path) : Keeps P (fs.readText p) := by
  refine (h.read p).bind fun r => ?_
  cases r with
  | error f => exact Keeps.pure _
  | ok bytes =>
    dsimp only
    split
    · exact Keeps.pure _
    · exact Keeps.pure _

namespace Graph

/-! ### Packages -/

lemma keeps_readInto (h : fs.Quiet P) (root : Path) (index : Installed) (stem : String) :
    Keeps P (Distribution.readInto fs root index stem) := by
  unfold Distribution.readInto
  dsimp only
  -- with or without a version in the stem, the list of modules is read last
  split
  · refine (Keeps.pure _).bind fun version => (h.readText _).bind fun r => ?_
    cases r <;> exact Keeps.pure _
  · refine (h.readText _).bind fun metadata => ?_
    cases metadata
    all_goals
      refine (Keeps.pure _).bind fun version => (h.readText _).bind fun r => ?_
      cases r <;> exact Keeps.pure _

lemma keeps_scan (h : fs.Quiet P) (root : Path) : Keeps P (Distribution.scan fs root) := by
  refine (h.list root).bind fun r => ?_
  cases r with
  | error f => exact Keeps.pure _
  | ok names => exact Keeps.foldlM (keeps_readInto h root) _ _

lemma keeps_ofPackages (h : fs.Quiet P) (path : Path) : Keeps P (Root.ofPackages fs path) :=
  (keeps_scan h path).bind fun _ => Keeps.pure _

/-! ### Modules -/

lemma keeps_locate (h : fs.Quiet P) (name : String) (roots : List Root) :
    Keeps P (locate fs name roots) := by
  induction roots with
  | nil => exact Keeps.pure _
  | cons r rest ih =>
    rw [locate]
    refine (h.isFile _).bind fun b => ?_
    split
    · exact Keeps.pure _
    · refine (h.isFile _).bind fun b => ?_
      split
      · exact Keeps.pure _
      · exact ih

lemma keeps_isNamespace (h : fs.Quiet P) (name : String) (roots : List Root) :
    Keeps P (isNamespace fs name roots) := by
  induction roots with
  | nil => exact Keeps.pure _
  | cons r rest ih =>
    rw [isNamespace]
    refine (h.isDirectory _).bind fun b => ?_
    split
    · exact Keeps.pure _
    · exact ih

lemma keeps_ofExcept {ε α : Type} (r : Except ε α) :
    Keeps P (liftM r : ExceptT ε (StateM σ) α).run := by
  cases r with
  | error e => exact Keeps.throw e
  | ok a => exact Keeps.pure_ok a

lemma keeps_follow (h : fs.Quiet P) (scope : Scope) (module : Located) (state : Search × Found)
    (c : Candidate) : Keeps P (follow fs scope module state c).run := by
  obtain ⟨s, found⟩ := state
  unfold follow
  dsimp only
  split
  · exact Keeps.pure_ok _
  split
  · exact Keeps.pure_ok _
  split
  · exact Keeps.pure_ok _
  refine Keeps.bind_ok (Keeps.lift (keeps_locate h _ _)) fun r => ?_
  cases r with
  | some located => exact (keeps_ofExcept _).bind_ok fun _ => Keeps.pure_ok _
  | none =>
    dsimp only
    split
    · exact Keeps.pure_ok _
    refine Keeps.bind_ok (Keeps.lift (keeps_isNamespace h _ _)) fun b => ?_
    split
    · exact Keeps.pure_ok _
    · exact Keeps.throw _

lemma keeps_followImport (h : fs.Quiet P) (scope : Scope) (module : Located)
    (state : Search × Found) (i : Python.Import) :
    Keeps P (followImport fs scope module state i).run :=
  (keeps_ofExcept _).bind_ok fun _ => Keeps.foldlM_ok (keeps_follow h scope module) _ _

lemma keeps_visit (h : fs.Quiet P) (scope : Scope) (module : Located) (s : Search) :
    Keeps P (visit fs scope module s).run := by
  refine Keeps.bind_ok (Keeps.lift (h.read _)) fun r => ?_
  cases r with
  | error f => exact Keeps.throw _
  | ok bytes =>
    refine (keeps_ofExcept _).bind_ok fun imports => ?_
    refine (Keeps.foldlM_ok (keeps_followImport h scope module) _ _).bind_ok fun state => ?_
    exact Keeps.pure_ok _

lemma keeps_explore (h : fs.Quiet P) (scope : Scope) (fuel : ℕ) (s : Search) :
    Keeps P (explore fs scope fuel s).run := by
  induction fuel generalizing s with
  | zero =>
    rw [explore.eq_def]
    dsimp only
    rcases s.queue with _ | ⟨module, rest⟩
    · exact Keeps.pure_ok _
    · exact Keeps.throw _
  | succ fuel ih =>
    rw [explore.eq_def]
    dsimp only
    rcases s.queue with _ | ⟨module, rest⟩
    · exact Keeps.pure_ok _
    · exact (keeps_visit h scope _ _).bind_ok ih

/-! ### Projects -/

lemma keeps_prepare (h : fs.Quiet P) (project : Path) (manifest : Manifest) (base : BaseLibrary) :
    Keeps P (prepare fs project manifest base).run := by
  refine (keeps_ofExcept _).bind_ok fun pins => ?_
  refine Keeps.bind_ok (Keeps.lift (h.canonical _)) fun r => ?_
  cases r with
  | error f => exact Keeps.throw _
  | ok root =>
    refine Keeps.bind_ok (Keeps.lift (h.isFile _)) fun b => ?_
    split_ifs
    · exact Keeps.throw _
    · refine (keeps_ofExcept _).bind_ok fun named => ?_
      exact Keeps.bind_ok (Keeps.lift (Keeps.mapM (fun r => keeps_ofPackages h _) _)) fun _ =>
        Keeps.pure_ok _

lemma keeps_resolve (h : fs.Quiet P) (project : Path) (manifest : Manifest) (base : BaseLibrary) :
    Keeps P (resolve fs project manifest base).run := by
  refine (keeps_prepare h project manifest base).bind_ok fun found => ?_
  refine (keeps_explore h _ _ _).bind_ok fun s => ?_
  dsimp only
  split
  · exact Keeps.throw _
  · exact Keeps.pure_ok _

end Graph

lemma Frozen.keeps_freeze (h : fs.Quiet P) (base : BaseLibrary) (g : Graph) :
    Keeps P (freeze fs base g).run := by
  refine (Keeps.mapM_ok (fun n => ?_) _).bind_ok fun _ => Keeps.pure_ok _
  refine Keeps.bind_ok (Keeps.lift (h.read _)) fun r => ?_
  dsimp only
  split_ifs
  · exact Keeps.throw _
  · exact Keeps.pure_ok _

lemma Abi.keeps_extractFile (h : fs.Quiet P) (module : String) (path : Path) :
    Keeps P (extractFile fs module path) := by
  refine (h.read path).bind fun r => ?_
  cases r with
  | error f => exact Keeps.pure _
  | ok bytes => exact Keeps.pure _

/-! ### The files of a host -/

namespace Host

/-- Whatever is looked at, `P` holds afterwards. -/
def Quiet (P : Host → Prop) : Prop :=
  ∀ (α : Type) (look : Tree → Except Disk.Fault α), Keeps P (inspect look).run

variable {P : Host → Prop}

lemma Quiet.ask (h : Quiet P) (question : Tree → Bool) : Keeps P (Host.ask question) := by
  refine Keeps.bind (h _ _) fun r => ?_
  cases r with
  | error f => exact Keeps.pure _
  | ok b => exact Keeps.pure _

lemma Quiet.files (h : Quiet P) : Host.files.Quiet P where
  isFile _ := h.ask _
  isDirectory _ := h.ask _
  read _ := h _ _
  list _ := h _ _
  canonical _ := h _ _

end Host

end ContractBuild
