import Mathlib
import ContractBuild.Proofs.Build.Fixed

/-!
Caching is transparent: in every sequence of calls that share a cache directory, a call that
succeeds gives the binary that it would have made without a cache.
-/

namespace ContractBuild.Build

open ContractBuild.Digest ContractBuild.Disk ContractBuild.Host

namespace Call

variable {c : Call} {dir : Place} {R : Recipe}

/-! ### What a call uses -/

lemma gives_gather : Gives c.gather fun p => ∃ g, g.IsRead ∧
    p.1 = Frozen.ofGraph c.compiler.settings.base g := by
  have hfront : Gives c.front fun p => p.1.IsRead :=
    (Compiler.gives_graphOf _ _ _).bind fun g hg => Gives.bind_any fun _ => Gives.bind_any fun _ =>
      Gives.pure hg
  refine hfront.bind fun ⟨g, abi⟩ hg => ?_
  refine (gives_atBench (gives_onHost (Frozen.gives_freeze _ g))).bind fun frozen hfrozen => ?_
  exact Gives.bind_any fun _ => Gives.bind_any fun _ => Gives.pure ⟨g, hg, hfrozen⟩

lemma Uses.base_eq {i : Cache.Inputs} (h : c.Uses i) :
    i.frozen.base = c.compiler.settings.base := by
  obtain ⟨frozen, o, r, hrun, rfl⟩ := h
  obtain ⟨g, -, hfrozen⟩ := gives_gather _ _ _ hrun
  exact congrArg Frozen.base hfrozen

/-- Legible names are all that it takes to read the inputs off the bytes under their key. -/
lemma Uses.isPlain {i : Cache.Inputs} (h : c.Uses i) (hi : i.IsLegible) : i.frozen.IsPlain := by
  obtain ⟨frozen, o, r, hrun, rfl⟩ := h
  obtain ⟨g, hg, hfrozen⟩ := gives_gather _ _ _ hrun
  obtain rfl : frozen = Frozen.ofGraph c.compiler.settings.base g := hfrozen
  refine Frozen.isPlain_of_digests hi.entry hi.names fun m hm => ?_
  obtain ⟨n, hn, rfl⟩ := List.mem_map.mp hm
  exact ⟨n.source, (hg.nodes n hn).digest⟩

/-- A call uses at most one thing. -/
lemma Uses.unique {i j : Cache.Inputs} (hi : c.Uses i) (hj : c.Uses j) : i = j := by
  obtain ⟨frozen, o, r, hrun, rfl⟩ := hi
  obtain ⟨frozen', o', r', hrun', rfl⟩ := hj
  rw [hrun] at hrun'
  cases hrun'
  rfl

/-! ### Calls without a cache -/

/-- The same call without a cache. -/
def uncached (c : Call) : Call :=
  { c with compiler := { c.compiler with
      settings := { c.compiler.settings with useCache := false } } }

lemma moment_of_uncached {b : Bench} (h : c.uncached.Moment b) : c.Moment b := by
  induction h with
  | start => exact .start
  | look look _ ih => exact .look look ih
  | tell stage status _ ih => exact .tell stage status ih
  | version _ ih => exact .version ih
  | build frozen _ ih => exact .build frozen ih
  | detect _ ih => exact .detect ih
  | optimize raw _ ho _ ih₀ ih => exact .optimize raw ih₀ ho ih
  | store key a _ ih => exact .store key a ih
  | emit contents _ ih => exact .emit contents ih

lemma finds_of_uncached {o : Wasm.Optimizer} (h : c.uncached.Finds o) : c.Finds o := by
  obtain ⟨b, b', hb, hfind⟩ := h
  exact ⟨b, b', moment_of_uncached hb, hfind⟩

lemma Follows.uncached (h : c.Follows R) : c.uncached.Follows R where
  version b v b' hb := h.version b v b' (moment_of_uncached hb)
  build b frozen raw b' hb := h.build b frozen raw b' (moment_of_uncached hb)
  optimize b o raw wasm h' hb ho :=
    h.optimize b o raw wasm h' (moment_of_uncached hb) (finds_of_uncached ho)

lemma Respects.uncached (h : c.Respects dir) : c.uncached.Respects dir where
  cacheDir := h.cacheDir
  others b hb := h.others b (moment_of_uncached hb)
  listener b stage status hb := h.listener b stage status (moment_of_uncached hb)
  version b hb := h.version b (moment_of_uncached hb)
  build b frozen hb := h.build b frozen (moment_of_uncached hb)
  detect b hb := h.detect b (moment_of_uncached hb)
  optimize b o raw hb ho := h.optimize b o raw (moment_of_uncached hb) (finds_of_uncached ho)
  outputs := h.outputs

end Call

/-! ### Sequences of calls -/

/-- Calls made one after the other with one cache directory, in which there are no files at first.
Whatever happens between two calls, no files are added to it. -/
structure ShareCache (dir : Place) (calls : List Call) : Prop where
  empty : ∀ c ∈ calls.head?, Tree.Sound dir (fun _ _ => False) c.before.bench.host.tree
  between : calls.IsChain fun c c' =>
    Tree.NoNewFiles dir c.after.bench.host.tree c'.before.bench.host.tree
  respects : ∀ c ∈ calls, c.Respects dir

/-- The inputs that some of the calls use. -/
def UsedBy (calls : List Call) (i : Cache.Inputs) : Prop := ∃ c ∈ calls, c.Uses i

/-- The byte strings that are hashed for the cache: those under the keys, and the binaries. -/
def Hashed (R : Recipe) (calls : List Call) (bytes : Bytes) : Prop :=
  ∃ i, UsedBy calls i ∧ (bytes = i.preimage ∨ bytes = R.raw i ∨ bytes = R.output i)

variable {dir : Place} {R : Recipe} {base : BaseLibrary} {calls : List Call}

lemma isCollisionFree_ledger (hbase : ∀ c ∈ calls, c.compiler.settings.base = base)
    (hlegible : ∀ i, UsedBy calls i → i.IsLegible) (hsha : CollisionFree (Hashed R calls)) :
    (R.ledger (UsedBy calls)).IsCollisionFree where
  key := by
    intro i j hi hj hkey
    have hpre : i.preimage = j.preimage :=
      hsha _ _ ⟨i, hi, .inl rfl⟩ ⟨j, hj, .inl rfl⟩ hkey
    obtain ⟨c, hc, huses⟩ := hi
    obtain ⟨c', hc', huses'⟩ := hj
    have hi := hlegible i ⟨c, hc, huses⟩
    have hj := hlegible j ⟨c', hc', huses'⟩
    have hsame : i.frozen.base = j.frozen.base := by
      rw [huses.base_eq, huses'.base_eq, hbase c hc, hbase c' hc']
    exact Cache.Inputs.preimage_inj (huses.isPlain hi) (huses'.isPlain hj) hsame hi.length hpre
  output := by
    have hhashed : ∀ content, (R.ledger (UsedBy calls)).IsOutput content →
        Hashed R calls content := by
      rintro content ⟨i, hi, h⟩
      exact ⟨i, hi, .inr h⟩
    intro content content' h h'
    exact hsha _ _ (hhashed content h) (hhashed content' h')

/-- Every call finds the cache in order, if the first does. -/
lemma inOrder_of_mem {used : Cache.Inputs → Prop} (hL : (R.ledger used).IsCollisionFree)
    (hrespects : ∀ c ∈ calls, c.Respects dir) (hfollows : ∀ c ∈ calls, c.Follows R)
    (hused : ∀ c ∈ calls, ∀ i, c.Uses i → used i)
    (hbetween : calls.IsChain fun c c' =>
      Tree.NoNewFiles dir c.after.bench.host.tree c'.before.bench.host.tree)
    (hfirst : ∀ c ∈ calls.head?,
      Tree.Sound dir (R.ledger used).Admits c.before.bench.host.tree) :
    ∀ c ∈ calls, c.InOrder dir R used c.before := by
  induction calls with
  | nil => exact fun c hc => nomatch hc
  | cons c calls ih =>
    have hc : c.InOrder dir R used c.before := ⟨.start, hfirst c rfl, rfl⟩
    have hafter : Tree.Sound dir (R.ledger used).Admits c.after.bench.host.tree := by
      have hends := Call.ensures_compile (hrespects c List.mem_cons_self)
        (hfollows c List.mem_cons_self) hL (hused c List.mem_cons_self) hc
      cases hresult : c.result with
      | ok out => rw [hresult] at hends; exact hends.2.tended.sound
      | error f => rw [hresult] at hends; exact hends.tended.sound
    intro c' hc'
    rcases List.mem_cons.mp hc' with rfl | hc'
    · exact hc
    refine ih (fun d hd => hrespects d (List.mem_cons_of_mem _ hd))
      (fun d hd => hfollows d (List.mem_cons_of_mem _ hd))
      (fun d hd => hused d (List.mem_cons_of_mem _ hd)) hbetween.tail ?_ c' hc'
    intro d hd
    cases calls with
    | nil => cases hd
    | cons e calls =>
      cases hd
      exact hafter.of_noNewFiles (List.isChain_cons_cons.mp hbetween).1

/-- **Caching is transparent.** Toolchains and optimizers follow a recipe, calls share a cache
directory that is empty at first, there is one base library, names have no line feeds, and no two
byte strings that are hashed have the same digest. Then a call that succeeds gives what the recipe
makes of the project that it froze; and so does the same call without a cache. -/
theorem cache_is_transparent (hshare : ShareCache dir calls) (hfollows : ∀ c ∈ calls, c.Follows R)
    (hbase : ∀ c ∈ calls, c.compiler.settings.base = base)
    (hlegible : ∀ i, UsedBy calls i → i.IsLegible) (hsha : CollisionFree (Hashed R calls)) :
    ∀ c ∈ calls, ∀ out, c.result = .ok out →
      (∃ frozen o r, c.gather.run c.before = (.ok (frozen, o), r) ∧
        out.wasm = R.optimize o.fingerprint c.flags.mode c.flags.debugSymbols
          (R.build frozen c.flags c.version)) ∧
      ∀ out', c.uncached.result = .ok out' → out'.wasm = out.wasm := by
  have hL := isCollisionFree_ledger hbase hlegible hsha
  have hused : ∀ c ∈ calls, ∀ i, c.Uses i → UsedBy calls i := fun c hc i hi => ⟨c, hc, hi⟩
  have horder := inOrder_of_mem hL hshare.respects hfollows hused hshare.between
    fun c hc name rest content x hget => (hshare.empty c hc name rest content x hget).elim
  intro c hc out hout
  have hends := Call.ensures_compile (hshare.respects c hc) (hfollows c hc) hL (hused c hc)
    (horder c hc)
  rw [hout] at hends
  obtain ⟨⟨i, hi, hwasm⟩, -⟩ := hends
  refine ⟨?_, fun out' hout' => ?_⟩
  · obtain ⟨frozen, o, r, hrun, rfl⟩ := hi
    exact ⟨frozen, o, r, hrun, hwasm⟩
  · have horder' : c.uncached.InOrder dir R (UsedBy calls) c.uncached.before :=
      ⟨.start, (horder c hc).tended⟩
    have hends := Call.ensures_compile (hshare.respects c hc).uncached (hfollows c hc).uncached hL
      (hused c hc) horder'
    rw [hout'] at hends
    obtain ⟨⟨j, hj, hwasm'⟩, -⟩ := hends
    -- what comes before the cache is the same in both calls
    have hj : c.Uses j := hj
    rw [hwasm, hwasm', hi.unique hj]

/-! ### A history of two calls -/

/-- The small project compiled with a cache for the first time. -/
def firstCall : Call := smallCall true { tree := smallTree }

/-- What a call for the small project uses. -/
def smallInputs : Cache.Inputs where
  frozen := {
    entry := "m"
    modules := [⟨"m", "e3b0c44298fc1c149afbf4c8996fb92427ae41e4649b934ca495991b7852b855", [], false⟩]
    base := ⟨"", "", []⟩ }
  flags := firstCall.flags
  toolchain := ""
  optimizer := firstCall.alone.fingerprint

/-- The digest of the empty binary. -/
def emptyDigest : String := "93a44bbb96c751218e4c00d479e4c14358122a389acca16205b1e4d0dc5f9476"

/-- The entry that is made of the small project. -/
def smallEntry : Cache.Entry where
  key := "4d71d441cfc6faffaeb7c38b6124aee40cb04d50ec0cd3db364c4f8bc2788beb"
  raw := ⟨emptyDigest, 8⟩
  optimized := ⟨emptyDigest, 8⟩
  mode := .debug
  toolchain := ""
  createdAt := "1970-01-01T00:00:00Z"

/-- What stands on the host after the first call: its outputs, and the cache with one entry. -/
def cachedTree : Tree where
  nodes := [
    (["p", "m.abi.json"], .file (Text.Utf8.encode "\x7b\n  \"methods\": []\n\x7d\n") false),
    (["p", "m.wasm"], .file emptyModule false),
    (["c", "entries", smallEntry.key ++ ".json"], .file smallEntry.encode false),
    (["c", "entries"], .directory), (["c", "blobs", emptyDigest], .file emptyModule false),
    (["c", "blobs"], .directory), (["c"], .directory), (["p"], .directory),
    (["p", "m.py"], .file [] false)]

lemma nodes_firstCall : firstCall.after.bench.host.tree.nodes = cachedTree.nodes := by
  decide +kernel

/-- The small project compiled again, on what the first call has left. -/
def laterCall : Call := smallCall true { tree := cachedTree }

/-- The later call finds the binary in the cache. -/
lemma result_laterCall : ∃ out, laterCall.result = .ok out ∧ out.fromCache = true := by
  have hout : laterCall.result.toOption.any (fun out => out.fromCache) = true := by decide +kernel
  exact toOption_any_eq_true.mp hout

/-- Without a cache it makes one. -/
lemma result_uncached_laterCall : ∃ out, laterCall.uncached.result = .ok out := by
  have hok : laterCall.uncached.result.toOption.isSome = true := by decide +kernel
  obtain ⟨out, hout⟩ := Option.isSome_iff_exists.mp hok
  exact ⟨out, toOption_eq_some.mp hout⟩

/-- Both calls use the same. -/
lemma eq_smallInputs : ∀ c ∈ [firstCall, laterCall], ∀ i, c.Uses i → i = smallInputs := by
  intro c hc
  refine Call.forall_uses fun p hp => ?_
  have heval : ∀ c ∈ [firstCall, laterCall], (c.gather.run c.before :
      Except Fault (Frozen × Wasm.Optimizer) × Run).1.toOption.all (fun p =>
        p.1 = smallInputs.frozen && p.2.fingerprint = smallInputs.optimizer) = true := by
    decide +kernel
  have hsame := heval c hc
  rw [hp] at hsame
  simp only [Except.toOption, Option.all_some, Bool.and_eq_true, decide_eq_true_eq] at hsame
  have hflags : c.flags = smallInputs.flags ∧ c.version = smallInputs.toolchain := by
    simp only [List.mem_cons, List.not_mem_nil, or_false] at hc
    rcases hc with rfl | rfl
    · exact ⟨rfl, rfl⟩
    · exact ⟨rfl, rfl⟩
  rw [Call.inputs, hsame.1, hsame.2, hflags.1, hflags.2]

lemma isLegible_smallInputs : smallInputs.IsLegible := ⟨by decide, by decide, by decide +kernel⟩

lemma fixedTools_of_mem {c : Call} (hc : c ∈ [firstCall, laterCall]) :
    c.HasFixedTools emptyModule := by
  simp only [List.mem_cons, List.not_mem_nil, or_false] at hc
  rcases hc with rfl | rfl
  · exact hasFixedTools_smallCall true fun _ _ => rfl
  · exact hasFixedTools_smallCall true fun _ _ => rfl

lemma shareCache_twoCalls : ShareCache ["c"] [firstCall, laterCall] where
  empty := by
    intro c hc name rest content x hget
    cases hc
    have hmem := Tree.mem_of_get? hget
    simp [firstCall, smallCall, smallTree] at hmem
  between := by
    refine List.isChain_pair.mpr fun name rest content x hget => ?_
    rw [Tree.get?, nodes_firstCall]
    exact hget
  respects c hc := (fixedTools_of_mem hc).respects
    (by revert c; decide +kernel) (by revert c; decide +kernel)

lemma collisionFree_twoCalls :
    CollisionFree (Hashed (Call.fixedRecipe emptyModule) [firstCall, laterCall]) := by
  have hhashed : ∀ bytes, Hashed (Call.fixedRecipe emptyModule) [firstCall, laterCall] bytes →
      bytes = smallInputs.preimage ∨ bytes = emptyModule := by
    rintro bytes ⟨i, ⟨c, hc, hi⟩, h⟩
    obtain rfl := eq_smallInputs c hc i hi
    exact h.imp_right fun h => h.elim id id
  have hdigest : sha256Hex smallInputs.preimage ≠ sha256Hex emptyModule := by decide +kernel
  intro a b ha hb hab
  rcases hhashed a ha with rfl | rfl <;> rcases hhashed b hb with rfl | rfl
  · rfl
  · exact absurd hab hdigest
  · exact absurd hab.symm hdigest
  · rfl

/-- The project is compiled twice. The second call takes its binary out of the cache, and makes the
same one without a cache. -/
theorem cache_is_transparent_twoCalls : ∃ out out', laterCall.result = .ok out ∧
    out.fromCache = true ∧ laterCall.uncached.result = .ok out' ∧ out'.wasm = out.wasm := by
  obtain ⟨out, hrun, hfound⟩ := result_laterCall
  obtain ⟨out', hrun'⟩ := result_uncached_laterCall
  have hsame := cache_is_transparent shareCache_twoCalls
    (fun c hc => (fixedTools_of_mem hc).follows)
    (show ∀ c ∈ [firstCall, laterCall], c.compiler.settings.base = ⟨"", "", []⟩ by
      simp [firstCall, laterCall, smallCall, smallCompiler])
    (fun i ⟨c, hc, hi⟩ => eq_smallInputs c hc i hi ▸ isLegible_smallInputs)
    collisionFree_twoCalls laterCall (by simp) out hrun
  exact ⟨out, out', hrun, hfound, hrun', hsame.2 out' hrun'⟩

end ContractBuild.Build
