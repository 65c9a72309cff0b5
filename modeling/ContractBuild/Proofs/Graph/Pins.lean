import Mathlib
import ContractBuild.Proofs.Graph.Closure

/-!
Pins: each is checked once, on the first package module that it concerns. What a later module comes
with is not looked at, so it depends on the order of the imports whether a mismatch is found.
-/

namespace ContractBuild.Graph

open ContractBuild.Disk ContractBuild.Text ContractBuild.Version

/-! ### Modules and pins -/

namespace Located

/-- Whether a pin is about the package that a module comes from. -/
def concerns (l : Located) (pin : Pin) : Bool :=
  let root := BaseLibrary.rootOf l.name
  match l.origin with
  | .project => false
  | .package d => pin.appliesTo ((d.map (·.name)).getD root) root

/-- The version of the package that a module comes from, if it is known. -/
def version? (l : Located) : Option Version :=
  match l.origin with
  | .project => none
  | .package d => d.bind (·.version)

/-- The module does not come with a version that the pin rules out. -/
def Meets (l : Located) (pin : Pin) : Prop := ∀ v ∈ l.version?, pin.isMet v = true

instance (l : Located) (pin : Pin) : Decidable (l.Meets pin) :=
  inferInstanceAs (Decidable (∀ v ∈ l.version?, pin.isMet v = true))

end Located

lemma checkPin_eq_ok {importer module : String} {d : Option Distribution} {pin : Pin}
    {ws : List Warning} (h : checkPin importer module d pin = .ok ws) :
    ∀ v, d.bind (·.version) = some v → pin.isMet v = true := by
  intro v hv
  unfold checkPin at h
  rw [hv] at h
  dsimp only at h
  split_ifs at h with hmet
  exact hmet

section Checking

variable {importer : String} {l : Located} {d : Option Distribution} {s s' : Search}

/-- What checking pins does with the first of them. -/
lemma checkPins_cons {pin : Pin} {i : ℕ} {pins : List (Pin × ℕ)} (hl : l.origin = .package d)
    (h : checkPins importer l d s ((pin, i) :: pins) = .ok s') :
    (l.concerns pin = true ∧ i ∉ s.checked ∧ l.Meets pin ∧ ∃ s₁, s₁.checked = s.checked ++ [i] ∧
      checkPins importer l d s₁ pins = .ok s') ∨
    (l.concerns pin = true → i ∈ s.checked) ∧ checkPins importer l d s pins = .ok s' := by
  have hconcerns : l.concerns pin = pin.appliesTo ((d.map (·.name)).getD
      (BaseLibrary.rootOf l.name)) (BaseLibrary.rootOf l.name) := by
    rw [Located.concerns, hl]
  rw [checkPins, ← hconcerns] at h
  split_ifs at h with hcheck
  · obtain ⟨ws, hws, h⟩ := except_bind_ok.mp h
    refine .inl ⟨by simp_all, by simp_all, fun v hv => ?_, _, rfl, h⟩
    rw [Located.version?, hl] at hv
    exact checkPin_eq_ok hws v hv
  · exact .inr ⟨fun hc => by simp_all, h⟩

/-- The pins that concern the module count as checked from then on. -/
lemma mem_checked_checkPins {pins : List (Pin × ℕ)} (hl : l.origin = .package d)
    (h : checkPins importer l d s pins = .ok s') (i : ℕ) :
    i ∈ s'.checked ↔ i ∈ s.checked ∨ ∃ pin, (pin, i) ∈ pins ∧ l.concerns pin = true := by
  induction pins generalizing s with
  | nil =>
    cases h
    simp
  | cons p pins ih =>
    obtain ⟨pin, j⟩ := p
    rcases checkPins_cons hl h with ⟨hc, -, -, s₁, hs₁, h⟩ | ⟨hc, h⟩
    · rw [ih h, hs₁]
      grind
    · rw [ih h]
      grind

/-- A pin that concerns the module and has not been checked before is met. -/
lemma meets_of_checkPins {pins : List (Pin × ℕ)} (hl : l.origin = .package d)
    (hpins : (pins.map (·.2)).Nodup) (h : checkPins importer l d s pins = .ok s') {pin : Pin} {i : ℕ}
    (hmem : (pin, i) ∈ pins) (hi : i ∉ s.checked) (hc : l.concerns pin = true) : l.Meets pin := by
  induction pins generalizing s with
  | nil => cases hmem
  | cons p pins ih =>
    obtain ⟨pin', j⟩ := p
    rw [List.map_cons, List.nodup_cons] at hpins
    rcases checkPins_cons hl h with ⟨-, -, hmeets, s₁, hs₁, h⟩ | ⟨hchecked, h⟩
    · rcases List.mem_cons.mp hmem with heq | hrest
      · cases heq
        exact hmeets
      · have hij : i ≠ j := by
          rintro rfl
          exact hpins.1 (List.mem_map.mpr ⟨_, hrest, rfl⟩)
        exact ih hpins.2 h hrest (by simp [hs₁, hi, hij])
    · rcases List.mem_cons.mp hmem with heq | hrest
      · cases heq
        exact absurd (hchecked hc) hi
      · exact ih hpins.2 h hrest hi

end Checking

/-! ### What holds of a search -/

/-- The modules discovered: those visited, those being visited and those in the queue. -/
def Search.modules (active : List Located) (s : Search) : List Located :=
  s.nodes.map Node.located ++ (active ++ s.queue)

/-- The pins are checked as far as the modules `met` after the entry: those that concern one of them,
on the first that they concern. -/
structure ChecksPins (scope : Scope) (met : List Located) (s : Search) : Prop where
  checked : ∀ pin i, (pin, i) ∈ scope.pins.zipIdx →
    (i ∈ s.checked ↔ ∃ l ∈ met, l.concerns pin = true)
  first : ∀ pin ∈ scope.pins, ∀ l, met.find? (·.concerns pin) = some l → l.Meets pin

/-- The entry comes first, and the pins are checked as far as the modules after it. -/
def PinsHold (scope : Scope) (first : Located) (active : List Located) (s : Search) : Prop :=
  ∃ met, s.modules active = first :: met ∧ ChecksPins scope met s

variable {scope : Scope} {t : Tree} {first module : Located} {active : List Located}
  {s s' : Search} {found : Found}

lemma nodup_zipIdx_snd (pins : List Pin) : (pins.zipIdx.map (·.2)).Nodup := by
  rw [List.zipIdx_map_snd]
  exact List.nodup_range'

/-- One more module is met. -/
lemma ChecksPins.meet {met : List Located} {l : Located} {importer : String}
    (h : ChecksPins scope met s) (hp : checkLocated scope importer l s = .ok s') :
    ChecksPins scope (met ++ [l]) s' := by
  have hmem : ∀ pin, (∃ k ∈ met ++ [l], k.concerns pin = true) ↔
      (∃ k ∈ met, k.concerns pin = true) ∨ l.concerns pin = true := by
    intro pin
    simp [or_and_right, exists_or]
  unfold checkLocated at hp
  split at hp
  · next horigin =>
    cases hp
    have hnot : ∀ pin, l.concerns pin = false := fun pin => by rw [Located.concerns, horigin]
    refine ⟨fun pin i hi => ?_, fun pin hpin k hk => ?_⟩
    · rw [hmem, hnot, h.checked pin i hi]
      simp
    · rw [List.find?_append, List.find?_singleton, hnot] at hk
      exact h.first pin hpin k (by simpa using hk)
  · next d horigin =>
    refine ⟨fun pin i hi => ?_, fun pin hpin k hk => ?_⟩
    · rw [hmem, mem_checked_checkPins horigin hp, h.checked pin i hi]
      refine or_congr_right ⟨?_, fun hc => ⟨pin, hi, hc⟩⟩
      rintro ⟨pin', hi', hc⟩
      obtain rfl : pin' = pin := by
        rw [List.mk_mem_zipIdx_iff_getElem?] at hi hi'
        exact Option.some.inj (hi'.symm.trans hi)
      exact hc
    · obtain ⟨i, hi⟩ := List.getElem?_of_mem hpin
      rw [← List.mk_mem_zipIdx_iff_getElem?] at hi
      rw [List.find?_append, Option.or_eq_some_iff] at hk
      rcases hk with hk | ⟨hnone, hk⟩
      · exact h.first pin hpin k hk
      · -- no module before this one is concerned, so the pin is checked here
        obtain ⟨rfl, hc⟩ : l = k ∧ l.concerns pin = true := by
          rw [List.find?_singleton] at hk
          split_ifs at hk with hc
          exact ⟨Option.some.inj hk, hc⟩
        refine meets_of_checkPins horigin (nodup_zipIdx_snd scope.pins) hp hi (fun hi' => ?_) hc
        obtain ⟨k, hk, hkc⟩ := (h.checked pin i hi).mp hi'
        exact absurd hkc (List.find?_eq_none.mp hnone k hk)

lemma PinsHold.follow {c : Candidate} {st : Search × Found}
    (h : PinsHold scope first [module] s) (hf : Followed scope t module c s found st) :
    PinsHold scope first [module] st.1 := by
  cases hf with
  | excluded _ => exact h
  | itself _ _ => exact h
  | known _ _ _ => exact h
  | absent _ _ _ _ _ => exact h
  | @discovered l s' _ _ _ _ hp =>
    obtain ⟨met, hmodules, hchecks⟩ := h
    obtain ⟨-, hq, hn⟩ := checkLocated_frame hp
    refine ⟨met ++ [l], ?_, (hchecks.meet hp).checked, (hchecks.meet hp).first⟩
    rw [← List.cons_append, ← hmodules]
    simp [Search.modules, hq, hn]

lemma PinsHold.foldlM {cs : List Candidate} {st : Search × Found}
    (h : PinsHold scope first [module] s)
    (hf : cs.foldlM (Graph.follow (Files.ofTree t) scope module) (s, found) = Except.ok st) :
    PinsHold scope first [module] st.1 := by
  induction cs generalizing s found with
  | nil => cases hf; exact h
  | cons c cs ih =>
    obtain ⟨⟨s₁, found₁⟩, h1, h2⟩ := foldlM_cons_ok hf
    exact ih (h.follow (followed_of_follow h1)) h2

lemma PinsHold.imports_foldlM {imports : List Python.Import} {st : Search × Found}
    (h : PinsHold scope first [module] s)
    (hf : imports.foldlM (followImport (Files.ofTree t) scope module) (s, found) = Except.ok st) :
    PinsHold scope first [module] st.1 := by
  induction imports generalizing s found with
  | nil => cases hf; exact h
  | cons i imports ih =>
    obtain ⟨⟨s₁, found₁⟩, h1, h2⟩ := foldlM_cons_ok hf
    obtain ⟨cs, -, h1⟩ := followImport_eq_ok.mp h1
    exact ih (h.foldlM h1) h2

/-- A visit moves the module from the queue to the nodes, behind those visited before. -/
lemma PinsHold.visit {rest : List Located} (h : PinsHold scope first [] s)
    (hq : s.queue = module :: rest)
    (hv : Graph.visit (Files.ofTree t) scope module { s with queue := rest } = Except.ok s') :
    PinsHold scope first [] s' := by
  obtain ⟨bytes, imports, s₁, found, -, -, hf, rfl⟩ := visit_eq_ok.mp hv
  have hstart : PinsHold scope first [module] { s with queue := rest } := by
    obtain ⟨met, hmodules, hchecks⟩ := h
    refine ⟨met, ?_, hchecks.checked, hchecks.first⟩
    rw [← hmodules]
    simp [Search.modules, hq]
  obtain ⟨met, hmodules, hchecks⟩ := hstart.imports_foldlM hf
  refine ⟨met, ?_, hchecks.checked, hchecks.first⟩
  rw [← hmodules]
  simp [Search.modules, Node.located, nodeOf]

lemma PinsHold.explore {fuel : ℕ} (h : PinsHold scope first [] s)
    (he : Graph.explore (Files.ofTree t) scope fuel s = Except.ok s') :
    PinsHold scope first [] s' :=
  (explore_keeps (fun _ _ _ _ hq hv hs => hs.visit hq hv) h he).1

lemma pinsHold_start (scope : Scope) (first : Located) :
    PinsHold scope first [] (.start first) :=
  ⟨[], rfl, fun pin i _ => by simp [Search.start], fun pin _ l hl => nomatch hl⟩

/-! ### Resolved graphs -/

variable {project : Path} {manifest : Manifest} {base : BaseLibrary}

lemma prepare_pins (h : prepare (Files.ofTree t) project manifest base = Except.ok (scope, first)) :
    manifest.versionPins = .ok scope.pins := by
  obtain ⟨pins, root, name, isPackage, hpins, -, -, -, rfl, -⟩ := prepare_eq_ok.mp h
  exact hpins

/-- The nodes of a graph besides its entry, in the order of discovery. -/
def imported (g : Graph) : List Node := g.nodes.filter (·.name ≠ g.entry)

/-- Of the nodes in the order of discovery only the first is the entry. -/
lemma map_located_imported {met : List Located} (hnodes : s.nodes.map Node.located = first :: met)
    (hnodup : (s.nodes.map (·.name)).Nodup) :
    (imported ⟨first.name, s.nodes⟩).map Node.located = met := by
  unfold imported
  dsimp only
  rcases hs : s.nodes with _ | ⟨n, nodes⟩
  · rw [hs] at hnodes; cases hnodes
  · rw [hs, List.map_cons, List.cons.injEq] at hnodes
    rw [hs, List.map_cons, List.nodup_cons] at hnodup
    obtain ⟨rfl, rfl⟩ := hnodes
    have hself : n.located.name = n.name := rfl
    rw [List.filter_cons_of_neg (by simp [hself]), List.filter_eq_self.mpr]
    intro m hm
    have hne : m.name ≠ n.name := fun heq => hnodup.1 (heq ▸ List.mem_map_of_mem hm)
    simpa [hself] using hne

/-- **A pin holds of the first module that it concerns.** Of the package modules in a resolved graph,
the first in the order of discovery that a pin concerns does not come with a version that the pin
rules out. So no module does, if those that the pin concerns all come with one version. -/
theorem pins_hold_of_first_module {fuel : ℕ} {res : Resolution}
    (h : resolveWithin (Files.ofTree t) fuel project manifest base = Except.ok res) :
    ∃ pins, manifest.versionPins = .ok pins ∧ ∀ pin ∈ pins,
      (∀ n, (imported res.graph).find? (·.located.concerns pin) = some n → n.located.Meets pin) ∧
      ((∀ m ∈ imported res.graph, ∀ n ∈ imported res.graph, m.located.concerns pin = true →
          n.located.concerns pin = true → m.located.version? = n.located.version?) →
        ∀ n ∈ imported res.graph, n.located.concerns pin = true → n.located.Meets pin) := by
  obtain ⟨scope, first, s, hprep, hs, hgraph⟩ := explore_of_resolveWithin h
  obtain ⟨hholds, hq⟩ := (holds_start scope t first).explore hs
  obtain ⟨met, hmodules, hchecks⟩ := (pinsHold_start scope first).explore hs
  have hmet : (imported res.graph).map Node.located = met := by
    rw [hgraph]
    refine map_located_imported ?_ ?_
    · simpa [Search.modules, hq] using hmodules
    · have hnodup := hholds.nodup
      rw [hholds.order, hq] at hnodup
      simpa using hnodup
  refine ⟨scope.pins, prepare_pins hprep, fun pin hpin => ?_⟩
  have hfirst : ∀ n, (imported res.graph).find? (·.located.concerns pin) = some n →
      n.located.Meets pin := by
    intro n hn
    refine hchecks.first pin hpin n.located ?_
    rw [← hmet, List.find?_map]
    exact congrArg (Option.map Node.located) hn
  refine ⟨hfirst, fun hsame n hn hc => ?_⟩
  obtain ⟨m, hm⟩ := Option.isSome_iff_exists.mp
    (List.find?_isSome.mpr ⟨n, hn, hc⟩ :
      ((imported res.graph).find? (·.located.concerns pin)).isSome = true)
  have hmc : m.located.concerns pin = true := by simpa using List.find?_some hm
  intro v hv
  refine hfirst m hm v ?_
  rwa [hsame m (List.mem_of_find?_eq_some hm) n hn hmc hc]

/-! ### Two releases of one package -/

/-- Two releases of the package `d` are installed, one of which brings the module `a` and the other
the module `b`; the entry has the given imports. -/
def twoReleases (imports : String) : Tree where
  nodes := [(["p"], .directory), (["p", "m.py"], .file (Utf8.encode imports) false),
    (["p", "s"], .directory),
    (["p", "s", "a.py"], .file [] false),
    (["p", "s", "b.py"], .file [] false),
    (["p", "s", "d-1.dist-info"], .directory),
    (["p", "s", "d-1.dist-info", "top_level.txt"], .file (Utf8.encode "a") false),
    (["p", "s", "d-2.dist-info"], .directory),
    (["p", "s", "d-2.dist-info", "top_level.txt"], .file (Utf8.encode "b") false)]

/-- A project that demands a release of `d`. -/
def pinningManifest (constraint : String) : Manifest where
  entry := ⟨"m.py"⟩
  sourceRoots := [⟨"."⟩]
  packageRoots := [⟨"s"⟩]
  exclude := []
  optimize := .size
  output := ⟨"m.wasm"⟩
  abiOutput := ⟨"m.abi.json"⟩
  pins := [("d", constraint)]
  debugInfo := false

/-- The graph of a project with two releases of `d`. -/
def resolveReleases (imports constraint : String) : Except Fault Resolution :=
  resolve (Files.ofTree (twoReleases imports)) ⟨"/p"⟩ (pinningManifest constraint) ⟨"", "", []⟩

theorem pins_hold_of_second_release : ∃ res pins, resolveReleases "import b" "=2" = .ok res ∧
    (pinningManifest "=2").versionPins = .ok pins ∧ pins.length = 1 ∧
    (imported res.graph).map (·.name) = ["b"] ∧
    ∀ pin ∈ pins, ∀ n ∈ imported res.graph, n.located.concerns pin = true → n.located.Meets pin := by
  have hnames : (resolveReleases "import b" "=2").map (fun r => (imported r.graph).map (·.name)) =
      .ok ["b"] := by decide +kernel
  have hlength : (pinningManifest "=2").versionPins.map (·.length) = .ok 1 := by decide +kernel
  obtain ⟨res, hres, hone⟩ := except_map_eq_ok.mp hnames
  obtain ⟨pins, hpins, hhold⟩ := pins_hold_of_first_module hres
  rw [hpins] at hlength
  refine ⟨res, pins, hres, hpins, Except.ok.inj hlength, hone, fun pin hpin => ?_⟩
  refine (hhold pin hpin).2 fun m hm n hn _ _ => ?_
  obtain ⟨k, hk⟩ := List.length_eq_one_iff.mp
    (show (imported res.graph).length = 1 by simpa using congrArg List.length hone)
  rw [hk, List.mem_singleton] at hm hn
  rw [hm, hn]

/-- A release that is met after another one is not checked: with one order of the imports the graph
has a module of a release that the pin rules out, and with the other there is no graph. -/
theorem later_release_is_not_checked :
    (∃ res pins, resolveReleases "import a, b" "=1" = .ok res ∧
      (pinningManifest "=1").versionPins = .ok pins ∧
      ∃ n ∈ imported res.graph, ∃ pin ∈ pins, n.located.concerns pin = true ∧
        ¬ n.located.Meets pin) ∧
    resolveReleases "import b, a" "=1" = .error (.versionMismatch "d" "=1" "2" "m") := by
  have hfound : ((resolveReleases "import a, b" "=1").toOption.any fun res =>
      (pinningManifest "=1").versionPins.toOption.any fun pins =>
        (imported res.graph).any fun n => pins.any fun pin =>
          n.located.concerns pin && ¬ n.located.Meets pin) = true := by decide +kernel
  have hfault : (resolveReleases "import b, a" "=1").map (fun r => r.graph.names) =
      .error (.versionMismatch "d" "=1" "2" "m") := by decide +kernel
  constructor
  · simp only [toOption_any_eq_true, List.any_eq_true, Bool.and_eq_true, decide_eq_true_eq] at hfound
    obtain ⟨res, hres, pins, hpins, n, hn, pin, hpin, hc, hmeets⟩ := hfound
    exact ⟨res, pins, hres, hpins, n, hn, pin, hpin, hc, hmeets⟩
  · exact except_map_eq_error.mp hfault

end ContractBuild.Graph
