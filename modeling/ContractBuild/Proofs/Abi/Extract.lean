import Mathlib
import ContractBuild.Abi.Extract
import ContractBuild.Proofs.Abi.TypeTag

/-!
Which modules have an ABI, and what it says. The functions are gone through once, with the name of
the init function met so far; what is checked on the way comes to conditions on the module's
functions that do not speak of any order.
-/

namespace ContractBuild.Abi

open ContractBuild.Python TypeTag

/-! ### Kinds -/

/-- The export kinds that decorators are named for. -/
def kindsIn (ds : List Decorator) : List Kind := ds.filterMap fun d => Kind.ofText? d.last

/-- The export kinds that a function is marked with. -/
def kinds (f : Function) : List Kind := kindsIn f.decorators

def IsExported (f : Function) : Prop := kinds f ≠ []

instance : DecidablePred IsExported := fun f => inferInstanceAs (Decidable (kinds f ≠ []))

/-- All the kinds are the same. -/
def Agree (ks : List Kind) : Prop := ∀ a ∈ ks, ∀ b ∈ ks, a = b

lemma agree_cons_cons {a b : Kind} {ks : List Kind} :
    Agree (a :: b :: ks) ↔ a = b ∧ Agree (a :: ks) := by
  constructor
  · intro h
    have hab : a = b := h a (by simp) b (by simp)
    refine ⟨hab, fun c hc d hd => h c ?_ d ?_⟩
    · exact List.cons_subset_cons a (List.subset_cons_self b ks) hc
    · exact List.cons_subset_cons a (List.subset_cons_self b ks) hd
  · rintro ⟨rfl, h⟩ c hc d hd
    exact h c (by simpa using hc) d (by simpa using hd)

lemma agreedKind_eq_ok {name : String} {found k : Option Kind} {ds : List Decorator} :
    agreedKind name found ds = .ok k ↔
      Agree (found.toList ++ kindsIn ds) ∧ k = (found.toList ++ kindsIn ds).head? := by
  induction ds generalizing found with
  | nil => cases found <;> simp [agreedKind, kindsIn, Agree, eq_comm]
  | cons d ds ih =>
    cases hd : Kind.ofText? d.last with
    | none =>
      have hkinds : kindsIn (d :: ds) = kindsIn ds := List.filterMap_cons_none hd
      simp only [agreedKind, hd, hkinds, ih]
    | some b =>
      have hkinds : kindsIn (d :: ds) = b :: kindsIn ds := List.filterMap_cons_some hd
      cases found with
      | none => simp [agreedKind, hd, hkinds, ih]
      | some a =>
        by_cases hab : a = b
        · subst hab
          simp [agreedKind, hd, hkinds, ih, agree_cons_cons]
        · simp [agreedKind, hd, hkinds, agree_cons_cons, hab]

lemma kindOf_eq_ok {f : Function} {k : Option Kind} :
    kindOf f = .ok k ↔ Agree (kinds f) ∧ k = (kinds f).head? :=
  agreedKind_eq_ok

/-! ### One function -/

def IsVariadic (p : Param) : Prop := p.kind = .varArgs ∨ p.kind = .varKeywords

/-- What a method says about one parameter. -/
def DescribesParam (p : Param) (a : Argument) : Prop :=
  a.name = p.name ∧ TagsParameter p.typeText a.type

lemma describeParam_eq_ok {f : Function} {p : Param} {a : Argument} :
    describeParam f p = .ok a ↔ ¬ IsVariadic p ∧ DescribesParam p a := by
  rw [describeParam, DescribesParam, ← ofParameter_eq_ok]
  by_cases hp : p.kind = .varArgs ∨ p.kind = .varKeywords
  · simp [hp, IsVariadic]
  · cases ht : ofParameter p.typeText with
    | error reason => simp [hp]
    | ok t =>
      simp only [hp, IsVariadic, if_false, not_false_eq_true, true_and, Except.ok.injEq]
      constructor
      · rintro rfl
        exact ⟨rfl, rfl⟩
      · rintro ⟨hname, htype⟩
        rw [← hname, htype]

/-- What a method says about the function that it exports. -/
structure Describes (f : Function) (m : Method) : Prop where
  name : m.name = f.name
  kind : m.kind ∈ kinds f
  params : List.Forall₂ DescribesParam f.params m.params
  returns : TagsResult f.returns m.returns m.panics

lemma describe_eq_ok {f : Function} {k : Kind} {m : Method} :
    describe f k = .ok m ↔ (∀ p ∈ f.params, ¬ IsVariadic p) ∧ m.name = f.name ∧ m.kind = k ∧
      List.Forall₂ DescribesParam f.params m.params ∧ TagsResult f.returns m.returns m.panics := by
  have hparams (as : List Argument) : f.params.mapM (describeParam f) = .ok as ↔
      (∀ p ∈ f.params, ¬ IsVariadic p) ∧ List.Forall₂ DescribesParam f.params as := by
    rw [except_mapM_eq_ok, ← List.forall₂_and_left]
    simp only [describeParam_eq_ok]
  rw [describe, except_bind_ok]
  constructor
  · rintro ⟨as, has, h⟩
    obtain ⟨hfixed, has⟩ := (hparams as).mp has
    split at h
    next r panics hr =>
      cases h
      exact ⟨hfixed, rfl, rfl, has, ofReturn_eq_ok.mp hr⟩
    next => cases h
  · rintro ⟨hfixed, hname, hkind, has, hr⟩
    refine ⟨m.params, (hparams _).mpr ⟨hfixed, has⟩, ?_⟩
    rw [ofReturn_eq_ok.mpr hr, ← hname, ← hkind]
    rfl

/-! ### All functions -/

lemma length_linesOf (fs : List Function) (name : String) :
    (linesOf fs name).length = (fs.map (·.name)).count name := by
  rw [linesOf, List.length_map, List.count, List.countP_map, List.countP_eq_length_filter]
  rfl

/-- One function more: either it is not exported, or nothing stands against describing it. -/
lemma methodsFrom_cons_eq_ok {all fs : List Function} {init : Option String} {f : Function}
    {ms : List Method} : methodsFrom all init (f :: fs) = .ok ms ↔
      kindOf f = .ok none ∧ methodsFrom all init fs = .ok ms ∨
      ∃ k m ms', kindOf f = .ok (some k) ∧ (linesOf all f.name).length ≤ 1 ∧
        (k = .init → init = none) ∧ describe f k = .ok m ∧
        methodsFrom all (if k = .init then some f.name else init) fs = .ok ms' ∧
        ms = m :: ms' := by
  rw [methodsFrom, except_bind_ok]
  constructor
  · rintro ⟨k, hk, h⟩
    cases k with
    | none => exact .inl ⟨hk, h⟩
    | some k =>
      simp only at h
      split at h
      next => cases h
      next hlines =>
        split at h
        next => cases h
        next hinit =>
          obtain ⟨m, hm, h⟩ := except_bind_ok.mp h
          obtain ⟨ms', hms, h⟩ := except_bind_ok.mp h
          cases h
          refine .inr ⟨k, m, ms', hk, ?_, fun hk => ?_, hm, hms, rfl⟩
          · rcases hl : linesOf all f.name with _ | ⟨a, _ | ⟨b, ls⟩⟩
            · simp
            · simp
            · exact (hlines a b ls hl).elim
          · cases hi : init with
            | none => rfl
            | some first => exact (hinit first hk hi).elim
  · rintro (⟨hk, h⟩ | ⟨k, m, ms', hk, hlines, hinit, hm, hms, rfl⟩)
    · exact ⟨none, hk, h⟩
    · refine ⟨some k, hk, ?_⟩
      have hrest : (do
          let m ← describe f k
          return m :: (← methodsFrom all (if k = .init then some f.name else init) fs)) =
          Except.ok (ε := Fault) (m :: ms') :=
        except_bind_ok.mpr ⟨m, hm, except_bind_ok.mpr ⟨ms', hms, rfl⟩⟩
      simp only
      split
      next a b ls hl => simp [hl] at hlines
      next =>
        split
        next first => cases hinit rfl
        next => exact hrest

lemma Agree.mem_iff {ks : List Kind} {k : Kind} (h : Agree ks) (hk : ks.head? = some k) (a : Kind) :
    a ∈ ks ↔ a = k := by
  have hmem : k ∈ ks := List.mem_of_mem_head? hk
  constructor
  · exact fun ha => h a ha k hmem
  · rintro rfl
    exact hmem

/-- Counting the init functions from the front: one more is allowed if none was met. -/
lemma count_init_le_one {init : Option String} {name : String} {k : Kind} {n : ℕ} :
    init.toList.length + (n + if k = .init then 1 else 0) ≤ 1 ↔
      (k = .init → init = none) ∧
        (if k = .init then some name else init).toList.length + n ≤ 1 := by
  by_cases hk : k = .init
  · cases init <;> simp [hk]
  · simp [hk]

/-- What the walk over the functions checks, with the name of an init function met before: it comes
to conditions on the functions alone, whatever their order. -/
lemma methodsFrom_eq_ok {all fs : List Function} {init : Option String} {ms : List Method} :
    methodsFrom all init fs = .ok ms ↔
      (∀ f ∈ fs, Agree (kinds f)) ∧
      (∀ f ∈ fs, IsExported f → (all.map (·.name)).count f.name ≤ 1) ∧
      init.toList.length + fs.countP (fun f => Kind.init ∈ kinds f) ≤ 1 ∧
      List.Forall₂ (fun f m => ∃ k ∈ kinds f, describe f k = .ok m)
        (fs.filter fun f => IsExported f) ms := by
  induction fs generalizing init ms with
  | nil =>
    have hinit : init.toList.length ≤ 1 := by cases init <;> simp
    simp [methodsFrom, hinit, eq_comm]
  | cons f fs ih =>
    rw [methodsFrom_cons_eq_ok]
    simp only [ih, kindOf_eq_ok, length_linesOf, List.forall_mem_cons, List.countP_cons]
    by_cases hf : kinds f = []
    · have hexp : ¬ IsExported f := not_not.mpr hf
      simp [hf, hexp, Agree]
    have hexp : IsExported f := hf
    obtain ⟨k, hk⟩ := Option.isSome_iff_exists.mp (List.isSome_head?.mpr hf)
    have hcount (hagree : Agree (kinds f)) :
        (if decide (Kind.init ∈ kinds f) = true then 1 else 0) = if k = .init then 1 else 0 := by
      simp [hagree.mem_iff hk, eq_comm]
    rw [List.filter_cons_of_pos (by simpa using hexp)]
    constructor
    · rintro (⟨⟨-, hnone⟩, -⟩ | ⟨k', m, ms', ⟨hagree, hk'⟩, honce, hinit, hm, h, rfl⟩)
      · rw [hk] at hnone
        cases hnone
      · obtain rfl : k' = k := Option.some.inj (hk'.trans hk)
        obtain ⟨hagrees, honces, hinits, hms⟩ := h
        rw [hcount hagree]
        exact ⟨⟨hagree, hagrees⟩, ⟨fun _ => honce, honces⟩, count_init_le_one.mpr ⟨hinit, hinits⟩,
          .cons ⟨k', (hagree.mem_iff hk k').mpr rfl, hm⟩ hms⟩
    · rintro ⟨⟨hagree, hagrees⟩, ⟨honce, honces⟩, hinits, hms⟩
      rw [hcount hagree] at hinits
      obtain ⟨hinit, hinits⟩ := count_init_le_one.mp hinits
      cases hms with
      | cons hm hms =>
        obtain ⟨k', hk', hm⟩ := hm
        obtain rfl := (hagree.mem_iff hk k').mp hk'
        exact .inr ⟨k', _, _, ⟨hagree, hk.symm⟩, honce hexp, hinit, hm,
          ⟨hagrees, honces, hinits, hms⟩, rfl⟩

/-! ### The ABI -/

/-- Nothing in a function stands against describing it. -/
structure IsDescribable (f : Function) : Prop where
  fixed : ∀ p ∈ f.params, ¬ IsVariadic p
  params : ∀ p ∈ f.params, ∀ t ∈ p.typeText, IsParameterType t
  returns : ∀ t ∈ f.returns, IsResultType t

/-- The functions of a module that has an ABI. -/
structure IsExtractable (fs : List Function) : Prop where
  agree : ∀ f ∈ fs, ∀ a ∈ kinds f, ∀ b ∈ kinds f, a = b
  once : ∀ f ∈ fs, IsExported f → (fs.map (·.name)).count f.name = 1
  init : fs.countP (fun f => Kind.init ∈ kinds f) ≤ 1
  described : ∀ f ∈ fs, IsExported f → IsDescribable f

lemma exists_forall₂ {α β : Type} {R : α → β → Prop} {xs : List α} :
    (∃ ys, List.Forall₂ R xs ys) ↔ ∀ x ∈ xs, ∃ y, R x y := by
  induction xs with
  | nil => simp
  | cons x xs ih =>
    rw [List.forall_mem_cons, ← ih]
    constructor
    · rintro ⟨_, h⟩
      cases h with
      | cons hy hys => exact ⟨⟨_, hy⟩, _, hys⟩
    · rintro ⟨⟨y, hy⟩, ys, hys⟩
      exact ⟨y :: ys, .cons hy hys⟩

lemma exists_describesParam {p : Param} :
    (∃ a, DescribesParam p a) ↔ ∀ t ∈ p.typeText, IsParameterType t := by
  rw [← exists_tagsParameter]
  constructor
  · rintro ⟨a, -, h⟩
    exact ⟨a.type, h⟩
  · rintro ⟨t, h⟩
    exact ⟨⟨p.name, t⟩, rfl, h⟩

lemma exists_describe {f : Function} {k : Kind} :
    (∃ m, describe f k = .ok m) ↔ IsDescribable f := by
  simp only [describe_eq_ok]
  constructor
  · rintro ⟨m, hfixed, -, -, hparams, hreturns⟩
    refine ⟨hfixed, fun p hp => ?_, exists_tagsResult.mp ⟨_, _, hreturns⟩⟩
    exact exists_describesParam.mp (exists_forall₂.mp ⟨_, hparams⟩ p hp)
  · rintro ⟨hfixed, hparams, hreturns⟩
    obtain ⟨as, has⟩ := exists_forall₂.mpr fun p hp => exists_describesParam.mpr (hparams p hp)
    obtain ⟨r, panics, hr⟩ := exists_tagsResult.mpr hreturns
    exact ⟨⟨f.name, k, as, r, panics⟩, hfixed, rfl, rfl, has, hr⟩

lemma exists_describe_as {f : Function} :
    (∃ m, ∃ k ∈ kinds f, describe f k = .ok m) ↔ IsExported f ∧ IsDescribable f := by
  constructor
  · rintro ⟨m, k, hk, hm⟩
    exact ⟨List.ne_nil_of_mem hk, exists_describe.mp ⟨m, hm⟩⟩
  · rintro ⟨hexp, h⟩
    obtain ⟨k, hk⟩ := List.exists_mem_of_ne_nil _ hexp
    obtain ⟨m, hm⟩ := (exists_describe (k := k)).mpr h
    exact ⟨m, k, hk, hm⟩

/-- The walk succeeds exactly on the functions of a module that has an ABI. -/
lemma exists_methodsFrom {fs : List Function} :
    (∃ ms, methodsFrom fs none fs = .ok ms) ↔ IsExtractable fs := by
  have hpos (f : Function) (hf : f ∈ fs) : 0 < (fs.map (·.name)).count f.name :=
    List.count_pos_iff.mpr (List.mem_map_of_mem hf)
  simp only [methodsFrom_eq_ok, exists_and_left, exists_forall₂, exists_describe_as,
    List.mem_filter, decide_eq_true_eq, Option.toList_none, List.length_nil, Nat.zero_add]
  constructor
  · rintro ⟨hagree, honce, hinit, hdescribed⟩
    refine ⟨hagree, fun f hf he => ?_, hinit, fun f hf he => (hdescribed f ⟨hf, he⟩).2⟩
    have h1 := honce f hf he
    have h2 := hpos f hf
    omega
  · rintro ⟨hagree, honce, hinit, hdescribed⟩
    exact ⟨hagree, fun f hf he => (honce f hf he).le, hinit,
      fun f hf => ⟨hf.2, hdescribed f hf.1 hf.2⟩⟩

lemma describes_of_methodsFrom {all fs : List Function} {init : Option String} {ms : List Method}
    (h : methodsFrom all init fs = .ok ms) :
    List.Forall₂ Describes (fs.filter fun f => IsExported f) ms := by
  obtain ⟨-, -, -, h⟩ := methodsFrom_eq_ok.mp h
  refine h.imp fun f m => ?_
  rintro ⟨k, hk, hm⟩
  obtain ⟨-, hname, rfl, hparams, hreturns⟩ := describe_eq_ok.mp hm
  exact ⟨hname, hk, hparams, hreturns⟩

lemma map_name_of_describes {fs : List Function} {ms : List Method}
    (h : List.Forall₂ Describes fs ms) : ms.map (·.name) = fs.map (·.name) := by
  induction h with
  | nil => rfl
  | cons hm _ ih => rw [List.map_cons, List.map_cons, hm.name, ih]

lemma IsExtractable.nodup_names {fs : List Function} (h : IsExtractable fs) :
    ((fs.filter fun f => IsExported f).map (·.name)).Nodup := by
  rw [List.nodup_iff_count_le_one]
  intro name
  by_cases hname : name ∈ (fs.filter fun f => IsExported f).map (·.name)
  · obtain ⟨f, hf, rfl⟩ := List.mem_map.mp hname
    obtain ⟨hf, hexp⟩ := List.mem_filter.mp hf
    calc ((fs.filter fun f => IsExported f).map (·.name)).count f.name
        ≤ (fs.map (·.name)).count f.name := (List.filter_sublist.map _).count_le _
      _ = 1 := h.once f hf (by simpa using hexp)
  · rw [List.count_eq_zero_of_not_mem hname]
    omega

/-- The texts of types that a method gives. -/
def Method.types (m : Method) : List String := m.params.map (·.type) ++ m.returns.toList

lemma Describes.isWithout {f : Function} {m : Method} {tag : TypeTag} (h : Describes f m)
    (ht : render tag ∈ m.types) : IsWithout .never tag := by
  rcases List.mem_append.mp ht with ht | ht
  · obtain ⟨a, ha, ht⟩ := List.mem_map.mp ht
    obtain ⟨i, hi, rfl⟩ := List.mem_iff_getElem.mp ha
    exact (h.params.get (by rwa [h.params.length_eq]) hi).2.isWithout ht.symm
  · obtain ⟨t, hr⟩ := Option.isSome_iff_exists.mp (Option.isSome_of_mem (Option.mem_toList.mp ht))
    have hresult := h.returns
    rw [hr] at hresult
    exact hresult.isWithout (by simpa [hr, eq_comm] using ht)

lemma extract_eq_ok {module source digest : String} {m : Module} {d : Descriptor}
    (hm : Module.parse source = .ok m) : extract module source digest = .ok d ↔
      methodsFrom m.functions none m.functions = .ok d.methods ∧ d.source = digest := by
  rw [extract, hm]
  constructor
  · intro h
    obtain ⟨ms, hms, h⟩ := except_bind_ok.mp h
    cases h
    exact ⟨hms, rfl⟩
  · rintro ⟨hms, rfl⟩
    exact except_bind_ok.mpr ⟨_, hms, rfl⟩

/-- **Extraction is exact**: of a module that can be read there is an ABI exactly if its functions
are extractable. Then the methods are the exported functions in their order, each as it is declared;
no two have the same name, and no text stands for a type with `never` in it. -/
theorem extract_exact {source : String} {m : Module} (module digest : String)
    (hm : Module.parse source = .ok m) :
    ((∃ d, extract module source digest = .ok d) ↔ IsExtractable m.functions) ∧
    ∀ d, extract module source digest = .ok d →
      d.source = digest ∧
      List.Forall₂ Describes (m.functions.filter fun f => IsExported f) d.methods ∧
      (d.methods.map (·.name)).Nodup ∧
      ∀ method ∈ d.methods, ∀ tag, render tag ∈ method.types → IsWithout .never tag := by
  have hiff : (∃ d, extract module source digest = .ok d) ↔ IsExtractable m.functions := by
    rw [← exists_methodsFrom]
    constructor
    · rintro ⟨d, hd⟩
      exact ⟨d.methods, ((extract_eq_ok hm).mp hd).1⟩
    · rintro ⟨ms, hms⟩
      exact ⟨⟨ms, digest⟩, (extract_eq_ok hm).mpr ⟨hms, rfl⟩⟩
  refine ⟨hiff, fun d hd => ?_⟩
  obtain ⟨hms, hsource⟩ := (extract_eq_ok hm).mp hd
  have hdescribes := describes_of_methodsFrom hms
  have hnodup := (hiff.mp ⟨d, hd⟩).nodup_names
  rw [← map_name_of_describes hdescribes] at hnodup
  refine ⟨hsource, hdescribes, hnodup, fun method hmethod tag htag => ?_⟩
  obtain ⟨i, hi, rfl⟩ := List.mem_iff_getElem.mp hmethod
  exact (hdescribes.get (by rwa [hdescribes.length_eq]) hi).isWithout htag

/-- Two exported functions, one of which never returns, and one that is not exported and could not
be. -/
def tokenSource : String :=
  "@c.view\ndef get(key: str, limit=3) -> Optional[int]: ...\n" ++
    "@init\ndef setup() -> NoReturn: ...\ndef help(*args): ...\n"

def tokenModule : Module where
  functions :=
    [⟨"get", 2, false, [⟨"c.view", 1⟩],
      [⟨"key", .positional, some "str", false⟩, ⟨"limit", .positional, none, true⟩],
      some "Optional[int]"⟩,
      ⟨"setup", 4, false, [⟨"init", 3⟩], [], some "NoReturn"⟩,
      ⟨"help", 5, false, [], [⟨"args", .varArgs, none, false⟩], none⟩]

def tokenMethods : List Method :=
  [⟨"get", .view, [⟨"key", "str"⟩, ⟨"limit", "unknown"⟩], some "optional[int]", false⟩,
    ⟨"setup", .init, [], none, true⟩]

theorem extract_exact_token : Module.parse tokenSource = .ok tokenModule ∧
    extract "token" tokenSource "" = .ok ⟨tokenMethods, ""⟩ ∧ IsExtractable tokenModule.functions ∧
    List.Forall₂ Describes (tokenModule.functions.filter fun f => IsExported f) tokenMethods := by
  have hm : Module.parse tokenSource = .ok tokenModule := by decide +kernel
  have hd : extract "token" tokenSource "" = .ok ⟨tokenMethods, ""⟩ :=
    (extract_eq_ok hm).mpr ⟨by decide +kernel, rfl⟩
  obtain ⟨hiff, hmethods⟩ := extract_exact "token" "" hm
  exact ⟨hm, hd, hiff.mp ⟨_, hd⟩, (hmethods _ hd).2.1⟩

end ContractBuild.Abi
