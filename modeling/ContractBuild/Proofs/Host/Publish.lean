import Mathlib
import ContractBuild.Cache.Store
import ContractBuild.Proofs.Disk.Operation
import ContractBuild.Proofs.Host.Chunk
import ContractBuild.Proofs.Host.Reading

/-!
Publishing puts files only where they may be: next to its target it writes hidden files, and it
moves nothing over the target but the content that was to be published.
-/

namespace ContractBuild.Host

open ContractBuild.Disk ContractBuild.Cache

/-! ### Steps among others -/

/-- Others leave the files of a directory alone, and the tree is as `T` says. -/
structure Calm (dir : Place) (T : Tree → Prop) (h : Host) : Prop where
  others : ∀ n t, Tree.Spares dir t (h.change n t)
  tree : T h.tree

/-- What others cannot undo. -/
def Stable (dir : Place) (T : Tree → Prop) : Prop := ∀ t t', Tree.Spares dir t t' → T t → T t'

variable {dir : Place} {T : Tree → Prop}

lemma ensures_step (hT : Stable dir T) {α : Type} {op : Tree → Except Disk.Fault (α × Tree)}
    {U : α → Tree → Prop} (hop : ∀ t a t', T t → op t = .ok (a, t') → U a t') :
    Ensures (Calm dir T) (step op).run (Ends (Calm dir T) fun a => Calm dir (U a)) := by
  refine ensures_step_of (fun h f hh _ => ?_) fun h a t hh hok => ?_
  · exact ⟨hh.others, hT _ _ (hh.others _ _) hh.tree⟩
  · exact ⟨hh.others, hop _ a t (hT _ _ (hh.others _ _) hh.tree) hok⟩

/-- An operation that only changes the tree. -/
lemma alter_ok {op : Tree → Except Disk.Fault Tree} {t t' : Tree} {a : Unit}
    (h : (op t).map ((), ·) = .ok (a, t')) : op t = .ok t' := by
  obtain ⟨t'', hop, heq⟩ := except_map_eq_ok.mp h
  cases heq
  exact hop

lemma alter_error {op : Tree → Except Disk.Fault Tree} {t : Tree} {f : Disk.Fault}
    (h : (op t).map ((), ·) = .error f) : op t = .error f :=
  except_map_eq_error.mp h

lemma inspect_ok {α : Type} {look : Tree → Except Disk.Fault α} {t t' : Tree} {a : α}
    (h : (look t).map (·, t) = .ok (a, t')) : look t = .ok a ∧ t' = t := by
  obtain ⟨b, hlook, heq⟩ := except_map_eq_ok.mp h
  cases heq
  exact ⟨hlook, rfl⟩

lemma inspect_error {α : Type} {look : Tree → Except Disk.Fault α} {t : Tree} {f : Disk.Fault}
    (h : (look t).map (·, t) = .error f) : look t = .error f :=
  except_map_eq_error.mp h

lemma ensures_alter (hT : Stable dir T) {op : Tree → Except Disk.Fault Tree} {U : Tree → Prop}
    (hop : ∀ t t', T t → op t = .ok t' → U t') :
    Ensures (Calm dir T) (alter op).run (Ends (Calm dir T) fun _ => Calm dir U) :=
  ensures_step hT fun t _ t' ht hok => hop t t' ht (alter_ok hok)

lemma keeps_alter (hT : Stable dir T) {op : Tree → Except Disk.Fault Tree}
    (hop : ∀ t t', T t → op t = .ok t' → T t') : Keeps (Calm dir T) (alter op).run :=
  keeps_iff_ends.mpr (ensures_alter hT hop)

/-- Whatever part is written. -/
lemma keeps_writing (hT : Stable dir T) {op : (Bytes → Bytes) → Tree → Except Disk.Fault Tree}
    (hop : ∀ part t t', T t → op part t = .ok t' → T t') :
    Keeps (Calm dir T) (writing op).run := by
  have hkeep : ∀ (h : Host) part t, Calm dir T h →
      op part (h.change h.steps h.tree) = .ok t →
        Calm dir T { h with tree := t, steps := h.steps + 1 } := fun h part t hh hok =>
    ⟨hh.others, hop part _ t (hT _ _ (hh.others _ _) hh.tree) hok⟩
  refine keeps_iff_ends.mpr (ensures_writing_of (fun h f hh _ => ?_)
    (fun h f n t hh _ _ hok => hkeep h _ t hh hok) fun h t hh hok => hkeep h _ t hh hok)
  exact ⟨hh.others, hT _ _ (hh.others _ _) hh.tree⟩

lemma quiet_calm (hT : Stable dir T) : Quiet (Calm dir T) := by
  intro α look
  refine keeps_iff_ends.mpr (ensures_step hT fun t a t' ht hok => ?_)
  obtain ⟨-, rfl⟩ := inspect_ok hok
  exact ht

lemma keeps_quietly {P : Host → Prop} {act : Attempt Disk.Fault Unit} (h : Keeps P act.run) :
    Keeps P (quietly act) :=
  h.bind fun _ => Keeps.pure _

lemma ensures_result {ε δ α β : Type} {P : Host → Prop} {Q : Except ε α → Host → Prop}
    {R : Except δ β → Host → Prop} {act : Attempt ε α} {f : Except ε α → Attempt δ β}
    (h : Ensures P act.run Q) (hf : ∀ r, Ensures (Q r) (f r).run R) :
    Ensures P (act.result >>= f).run R :=
  fun s hs => hf _ _ (h s hs)

/-! ### What may be written -/

variable {I : Place → Bytes → Prop} {start : Place}

/-- The files of the directory are admitted, and relative paths start at a fixed place. -/
structure Tended (dir : Place) (I : Place → Bytes → Prop) (start : Place) (t : Tree) : Prop where
  sound : Tree.Sound dir I t
  start : t.start = start

lemma Tended.spares {t t' : Tree} (h : Tended dir I start t) (hs : Tree.Spares dir t t') :
    Tended dir I start t' :=
  ⟨h.sound.spares hs, hs.start.trans h.start⟩

lemma stable_tended : Stable dir (Tended dir I start) := fun _ _ hs h => h.spares hs

/-- Whatever the file at a path is, it may be there. -/
def IsFree (dir : Place) (I : Place → Bytes → Prop) (start : Place) (p : Path) : Prop :=
  ∀ content, Tree.Admits dir I (p.destination start) content

lemma keeps_makeDirectory (p : Path) :
    Keeps (Calm dir (Tended dir I start)) (alter (·.makeDirectory p)).run := by
  refine keeps_alter stable_tended fun t t' ht hok => ?_
  rw [(Tree.makeDirectory_eq_ok hok).2]
  exact ht.spares (Tree.spares_put_directory _ _ _)

lemma keeps_removeFile (p : Path) :
    Keeps (Calm dir (Tended dir I start)) (removeFile p).run := by
  refine keeps_alter stable_tended fun t t' ht hok => ?_
  obtain ⟨-, -, rfl⟩ := Tree.removeFile_eq_ok hok
  exact ht.spares (Tree.spares_erase _ _ _)

section Directories

variable {P : Host → Prop}

lemma keeps_acceptDirectory (hquiet : Quiet P) (p : Path) (r : Except Disk.Fault Unit) :
    Keeps P (makeAll.acceptDirectory p r).run := by
  cases r with
  | ok _ => exact Keeps.pure_ok _
  | error f =>
    refine Keeps.bind_ok (Keeps.lift (hquiet.ask _)) fun b => ?_
    split
    · exact Keeps.pure_ok _
    · exact Keeps.throw _

lemma keeps_makeAll (hquiet : Quiet P) {ps : List Path}
    (hmake : ∀ p ∈ ps, Keeps P (alter (·.makeDirectory p)).run) : Keeps P (makeAll ps).run := by
  induction ps with
  | nil => exact Keeps.throw _
  | cons p above ih =>
    have hp := hmake p List.mem_cons_self
    rw [makeAll]
    split
    · exact Keeps.pure_ok _
    refine Keeps.bind_ok hp fun r => ?_
    cases r with
    | ok _ => exact Keeps.pure_ok _
    | error f =>
      dsimp only
      split
      · refine (ih fun q hq => hmake q (List.mem_cons_of_mem _ hq)).bind_ok fun _ =>
          Keeps.bind_ok hp fun r => ?_
        exact keeps_acceptDirectory hquiet p r
      · exact keeps_acceptDirectory hquiet p _

end Directories

lemma keeps_makeDirectories (p : Path) :
    Keeps (Calm dir (Tended dir I start)) (makeDirectories p).run :=
  keeps_makeAll (quiet_calm stable_tended) fun _ _ => keeps_makeDirectory _

/-! ### Hidden files -/

lemma not_mem_toDigits {c : Char} (hc : ∀ d < 16, Nat.digitChar d ≠ c) (n : ℕ) :
    c ∉ Nat.toDigits 16 n := by
  induction n using Nat.strong_induction_on with
  | _ n ih =>
    rw [Nat.toDigits_eq_if (by decide)]
    split_ifs with h
    · simpa using (hc n h).symm
    · rw [List.mem_append, not_or]
      exact ⟨ih _ (by omega), by simpa using (hc (n % 16) (by omega)).symm⟩

lemma not_mem_uniqueSuffix (n : ℕ) : '/' ∉ (uniqueSuffix n).toList := by
  rw [uniqueSuffix, String.toList_ofList, List.mem_append, not_or]
  refine ⟨fun h => ?_, not_mem_toDigits (by decide) n⟩
  exact absurd (List.mem_replicate.mp h).2 (by decide)

lemma toList_siblingName (name kind : String) (n : ℕ) : (siblingName name kind n).toList =
    '.' :: (name.toList ++ '.' :: (kind.toList ++ '.' :: (uniqueSuffix n).toList)) := by
  have htext : siblingName name kind n = "." ++ name ++ "." ++ kind ++ "." ++ uniqueSuffix n := rfl
  have hdot : ".".toList = ['.'] := rfl
  rw [htext]
  simp only [String.toList_append, hdot, List.append_assoc, List.cons_append, List.nil_append]

lemma isName_siblingName {name kind : String} (hname : IsName name) (hkind : '/' ∉ kind.toList)
    (n : ℕ) : IsName (siblingName name kind n) := by
  have hlen : 3 ≤ (siblingName name kind n).toList.length := by
    have := List.length_pos_of_ne_nil hname.nonempty
    rw [toList_siblingName]
    simp only [List.length_cons, List.length_append]
    omega
  refine ⟨?_, ?_, ?_, ?_⟩
  · intro h
    rw [h] at hlen
    exact absurd hlen (by decide)
  · rw [toList_siblingName]
    simp only [List.mem_cons, List.mem_append, not_or]
    exact ⟨by decide, hname.slash, by decide, hkind, by decide, not_mem_uniqueSuffix n⟩
  · intro h
    rw [h] at hlen
    exact absurd hlen (by decide)
  · intro h
    rw [h] at hlen
    exact absurd hlen (by decide)

/-- The value of a hexadecimal digit. -/
def hexDigit (c : Char) : ℕ := (List.range 16).findIdx fun d => Nat.digitChar d = c

/-- The value of hexadecimal digits. -/
def hexValue (cs : List Char) : ℕ := cs.foldl (fun v c => v * 16 + hexDigit c) 0

lemma hexValue_append (cs : List Char) (c : Char) :
    hexValue (cs ++ [c]) = hexValue cs * 16 + hexDigit c := by
  rw [hexValue, List.foldl_append]
  rfl

lemma hexDigit_digitChar : ∀ d < 16, hexDigit (Nat.digitChar d) = d := by decide

lemma hexValue_toDigits (n : ℕ) : hexValue (Nat.toDigits 16 n) = n := by
  induction n using Nat.strong_induction_on with
  | _ n ih =>
    rw [Nat.toDigits_eq_if (by decide)]
    split_ifs with h
    · change 0 * 16 + hexDigit n.digitChar = n
      rw [hexDigit_digitChar n h]
      omega
    · rw [hexValue_append, ih _ (by omega), hexDigit_digitChar _ (by omega)]
      omega

lemma hexValue_uniqueSuffix (n : ℕ) : hexValue (uniqueSuffix n).toList = n := by
  have hzeros : ∀ k, (List.replicate k '0').foldl (fun v c => v * 16 + hexDigit c) 0 = 0 := by
    intro k
    induction k with
    | zero => rfl
    | succ k ih => exact ih
  rw [uniqueSuffix, String.toList_ofList, hexValue, List.foldl_append, hzeros]
  exact hexValue_toDigits n

/-- A hidden name tells the number that it was made from. -/
lemma number_of_siblingName {name kind name' kind' : String} {n m : ℕ}
    (h : siblingName name kind n = siblingName name' kind' m) : n = m := by
  have hdot : ∀ k, '.' ∉ (uniqueSuffix k).toList := by
    intro k
    rw [uniqueSuffix, String.toList_ofList, List.mem_append, not_or]
    exact ⟨fun h => absurd (List.mem_replicate.mp h).2 (by decide), not_mem_toDigits (by decide) k⟩
  -- the number stands behind the last dot
  have htail : ∀ name kind k,
      ((siblingName name kind k).toList.reverse.takeWhile (· ≠ '.')).reverse =
        (uniqueSuffix k).toList := by
    intro name kind k
    have hlist : (siblingName name kind k).toList.reverse = (uniqueSuffix k).toList.reverse ++
        '.' :: ('.' :: (name.toList ++ '.' :: kind.toList)).reverse := by
      rw [toList_siblingName]
      simp
    rw [hlist, List.takeWhile_append_of_pos, List.takeWhile_cons_of_neg (by simp), List.append_nil,
      List.reverse_reverse]
    intro c hc
    rw [decide_eq_true_eq]
    rintro rfl
    exact hdot k (List.mem_reverse.mp hc)
  have hsuffix := htail name kind n
  rw [h, htail] at hsuffix
  rw [← hexValue_uniqueSuffix n, ← hsuffix, hexValue_uniqueSuffix]
/-- A path leads to a hidden name in the directory of another. -/
def IsBeside (start : Place) (target p : Path) : Prop :=
  ∃ folder name n, target.destination start = folder ++ [name] ∧
    p.destination start = folder ++ [n] ∧ isHidden n = true

lemma ensures_siblingOf (start : Place) {target : Path} {kind : String} (hkind : '/' ∉ kind.toList) :
    Ensures (Calm dir T) (siblingOf target kind).run
      (Ends (Calm dir T) fun p h => IsBeside start target p ∧ Calm dir T h) := by
  unfold siblingOf
  rcases hname : target.fileName with _ | name
  · exact Keeps.throw _
  · intro h hh
    obtain ⟨folder, hparent, hdest⟩ := Path.destination_of_fileName start hname
    have hsibling := isName_siblingName (Path.isName_of_fileName hname) hkind h.drawn
    rw [hparent]
    refine ⟨⟨_, _, _, hdest, Path.destination_joinName start _ hsibling, ?_⟩, hh.others, hh.tree⟩
    rw [isHidden, toList_siblingName]
    rfl

/-- Hidden files may hold anything. -/
def Hides (I : Place → Bytes → Prop) : Prop :=
  ∀ place n content, isHidden n = true → I (place ++ [n]) content

/-- A place below a directory keeps its name when seen from there. -/
lemma below_of_snoc {folder : Place} {m name : String} {rest : List String}
    (h : folder ++ [m] = dir ++ name :: rest) : ∃ r, folder = dir ++ r ∧ name :: rest = r ++ [m] := by
  rcases List.eq_nil_or_concat (name :: rest) with hnil | ⟨r, k, hr⟩
  · cases hnil
  · rw [hr, List.concat_eq_append, ← List.append_assoc] at h
    obtain ⟨hfolder, hm⟩ := List.append_inj' h rfl
    exact ⟨r, hfolder, by rw [hr, hm, List.concat_eq_append]⟩

lemma IsBeside.isFree (hI : Hides I) {target p : Path} (h : IsBeside start target p) :
    IsFree dir I start p := by
  obtain ⟨folder, m, n, -, hdest, hhidden⟩ := h
  intro content name rest hplace
  rw [hdest] at hplace
  obtain ⟨r, -, hr⟩ := below_of_snoc hplace
  rw [hr]
  exact hI r n content hhidden

/-- If a target is in the directory, so is what is beside it. -/
lemma IsBeside.below {target p : Path} (h : IsBeside start target p) {name : String}
    {rest : List String} (htarget : target.destination start = dir ++ name :: rest) :
    ∃ name' rest', p.destination start = dir ++ name' :: rest' := by
  obtain ⟨folder, m, n, hdest, hbeside, -⟩ := h
  rw [hdest] at htarget
  obtain ⟨r, rfl, -⟩ := below_of_snoc htarget
  rcases r with _ | ⟨name', r⟩
  · exact ⟨n, [], by rw [hbeside]; simp⟩
  · exact ⟨name', r ++ [n], by rw [hbeside]; simp⟩

/-! ### One file -/

/-- A file in the directory, if there is one at the path, has that content. -/
def Holds (dir start : Place) (p : Path) (content : Bytes) (t : Tree) : Prop :=
  ∀ name rest c x, p.destination start = dir ++ name :: rest →
    t.get? (dir ++ name :: rest) = some (.file c x) → c = content

/-- The directory is tended, and a path in it holds some content. -/
def Holding (dir : Place) (I : Place → Bytes → Prop) (start : Place) (p : Path) (content : Bytes)
    (t : Tree) : Prop :=
  Tended dir I start t ∧ Holds dir start p content t

lemma stable_holding (p : Path) (content : Bytes) :
    Stable dir (Holding dir I start p content) := fun _ _ hs h =>
  ⟨h.1.spares hs, fun name rest c x hdest hget => h.2 name rest c x hdest (hs.files _ _ _ _ hget)⟩

lemma Calm.mono {T U : Tree → Prop} (hTU : ∀ t, T t → U t) {h : Host} (hh : Calm dir T h) :
    Calm dir U h :=
  ⟨hh.others, hTU _ hh.tree⟩

lemma ensures_create {p : Path} (hfree : IsFree dir I start p) :
    Ensures (Calm dir (Tended dir I start)) (alter (·.create p)).run
      (Ends (Calm dir (Tended dir I start)) fun _ => Calm dir (Holding dir I start p [])) := by
  refine ensures_alter stable_tended fun t t' ht hok => ?_
  rw [(Tree.create_eq_ok hok).2.2, ht.start]
  refine ⟨⟨ht.sound.put (hfree []) false, ht.start⟩, fun name rest c x hdest hget => ?_⟩
  rw [← hdest, Tree.get?_put] at hget
  split_ifs at hget with hplace
  · cases hget
    rfl
  · exact absurd ⟨rfl, by rw [hdest]; simp⟩ hplace

lemma holder_holding {p : Path} (hfree : IsFree dir I start p) :
    Holder (fun content => Calm dir (Holding dir I start p content)) p := by
  refine Holder.of_step (fun content h hh => ?_) fun content more h t hh hok => ?_
  · exact ⟨hh.others, stable_holding p content _ _ (hh.others _ _) hh.tree⟩
  obtain ⟨htended, hholds⟩ := stable_holding p content _ _ (hh.others h.steps h.tree) hh.tree
  refine ⟨hh.others, ?_⟩
  rcases Tree.append_eq_ok hok with ⟨c, x, hget, rfl⟩ | ⟨hno, rfl⟩
  · rw [htended.start] at hget ⊢
    refine ⟨⟨htended.sound.put (hfree _) x, htended.start⟩, fun name rest c' y hdest hnew => ?_⟩
    obtain rfl := hholds name rest c x hdest (by rw [← hdest]; exact hget)
    rw [← hdest, Tree.get?_put] at hnew
    split_ifs at hnew with hplace
    · cases hnew
      rfl
    · exact absurd ⟨rfl, by rw [hdest]; simp⟩ hplace
  · refine ⟨htended, fun name rest c y hdest hnew => ?_⟩
    rw [htended.start, hdest] at hno
    exact absurd hnew (hno c y)

/-- What is moved has to be admitted at its target. -/
lemma ensures_rename {T : Tree → Prop} (hT : Stable dir T) {p q : Path}
    (hmove : ∀ t, T t → Tended dir I start t ∧ ∀ content x,
      t.get? (p.destination start) = some (.file content x) →
        Tree.Admits dir I (q.destination start) content) :
    Ensures (Calm dir T) (alter (·.rename p q)).run fun _ => Calm dir (Tended dir I start) := by
  refine (ensures_alter (U := Tended dir I start) hT fun t t' ht hok => ?_).mono ?_
  · obtain ⟨htended, hadmits⟩ := hmove t ht
    obtain ⟨n, hget, -, -, -, rfl⟩ := Tree.rename_eq_ok hok
    rw [htended.start] at hget ⊢
    refine ⟨(htended.sound.spares (Tree.spares_erase _ _ _)).put_node fun content x hn => ?_,
      htended.start⟩
    exact hadmits content x (hn ▸ hget)
  · intro r h hr
    cases r with
    | ok _ => exact hr
    | error f => exact hr.mono fun t ht => (hmove t ht).1

lemma keeps_drop (w : Writer) : Keeps (Calm dir (Tended dir I start)) w.drop :=
  keeps_quietly (keeps_removeFile _)

lemma ensures_guard {P : Host → Prop} {α : Type} {Q : α → Host → Prop} (w : Writer)
    {act : Attempt Disk.Fault α}
    (h : Ensures P act.run (Ends (Calm dir (Tended dir I start)) Q)) :
    Ensures P (w.guard act).run (Ends (Calm dir (Tended dir I start)) Q) := by
  refine ensures_result h fun r => ?_
  cases r with
  | ok a => exact Ensures.pure_ok fun _ hQ => hQ
  | error f => exact (keeps_drop w).bind fun _ => Keeps.pure _

lemma ensures_writer (hI : Hides I) (target : Path) :
    Ensures (Calm dir (Tended dir I start)) (Writer.create target).run
      (Ends (Calm dir (Tended dir I start)) fun w h =>
        (w.target = target ∧ w.isOpen = true ∧ IsBeside start target w.temp) ∧
          Calm dir (Holding dir I start w.temp []) h) := by
  refine Ensures.bind_ok (ensures_siblingOf start (by decide)) fun temp => ?_
  rintro h ⟨hbeside, hh⟩
  refine Ensures.bind_ok (Q := fun _ => Calm dir (Holding dir I start temp []))
    (ensures_create (hbeside.isFree hI)) (fun _ => ?_) h hh
  exact Ensures.pure_ok fun _ hholding => ⟨⟨rfl, rfl, hbeside⟩, hholding⟩

/-- A writer that has all of its content on disk. -/
def IsStaged (start : Place) (target : Path) (w : Writer) : Prop :=
  w.target = target ∧ w.isOpen = false ∧ IsBeside start target w.temp

lemma ensures_stage (hI : Hides I) (target : Path) (content : Bytes) :
    Ensures (Calm dir (Tended dir I start)) (stage target content).run
      (Ends (Calm dir (Tended dir I start)) fun w h =>
        IsStaged start target w ∧ Calm dir (Holding dir I start w.temp content) h) := by
  have hwrite : Ensures (Calm dir (Tended dir I start)) (do
      let w ← Writer.create target
      w.guard do
        let w ← Writer.checked (w.write content)
        Writer.checked w.sync : Attempt Disk.Fault Writer).run
      (Ends (Calm dir (Tended dir I start)) fun w h =>
        IsStaged start target w ∧ Calm dir (Holding dir I start w.temp content) h) := by
    refine Ensures.bind_ok (ensures_writer hI target) fun w => ?_
    rintro h ⟨⟨htarget, hopen, hbeside⟩, hh⟩
    refine ensures_guard w (P := Calm dir (Holding dir I start w.temp [])) ?_ h hh
    have hholder : Holder (fun c => Calm dir (Holding dir I start w.temp c)) w.temp :=
      holder_holding (hbeside.isFree hI)
    refine (hholder.ensures_fill hopen content).mono (Ends.imp (fun h hh => ?_) fun w' h hh => ?_)
    · obtain ⟨c, hh⟩ := hh
      exact hh.mono fun t ht => ht.1
    · obtain ⟨rfl, hh⟩ := hh
      exact ⟨⟨htarget, rfl, hbeside⟩, hh⟩
  unfold stage
  split
  · split_ifs
    · exact Ensures.bind_ok (keeps_iff_ends.mp (keeps_makeDirectories _)) fun _ => hwrite
    · exact hwrite
  · exact hwrite

lemma ensures_commit {target : Path} {content : Bytes} {w : Writer} (hw : IsStaged start target w)
    (hadmits : Tree.Admits dir I (target.destination start) content) :
    Ensures (Calm dir (Holding dir I start w.temp content)) w.commit.run
      fun _ => Calm dir (Tended dir I start) := by
  obtain ⟨rfl, hopen, hbeside⟩ := hw
  have hrename : Ensures (Calm dir (Holding dir I start w.temp content))
      (alter (·.rename w.temp w.target)).run fun _ => Calm dir (Tended dir I start) := by
    refine ensures_rename (stable_holding _ _) fun t ht => ⟨ht.1, fun c x hget name rest hdest => ?_⟩
    -- the target is in the directory, and so is the hidden file, whose content is known
    obtain ⟨name', rest', htemp⟩ := hbeside.below hdest
    obtain rfl := ht.2 name' rest' c x htemp (by rw [← htemp]; exact hget)
    exact hadmits name rest hdest
  have hends : Ensures (Calm dir (Holding dir I start w.temp content)) w.commit.run
      (Ends (Calm dir (Tended dir I start)) fun _ => Calm dir (Tended dir I start)) := by
    refine ensures_guard w ?_
    rw [checked_sync_of_closed hopen, pure_bind]
    exact ensures_same.mpr hrename
  exact ensures_same.mp hends

/-- Publishing content where it is admitted keeps the directory tended. -/
lemma keeps_publish (hI : Hides I) {target : Path} {content : Bytes}
    (hadmits : Tree.Admits dir I (target.destination start) content) :
    Keeps (Calm dir (Tended dir I start)) (publish target content).run := by
  refine keeps_iff_ends.mpr (Ensures.bind_ok (ensures_stage hI target content) fun w => ?_)
  rintro h ⟨hw, hh⟩
  exact ensures_same.mpr (ensures_commit hw hadmits) h hh

/-! ### Groups -/

lemma keeps_keepPrevious (hI : Hides I) (target : Path) :
    Keeps (Calm dir (Tended dir I start)) (keepPrevious target).run := by
  refine ensures_result (quiet_calm stable_tended _ _) fun r => ?_
  rcases r with f | (⟨content, x⟩ | _ | _)
  · dsimp only
    split
    · exact Keeps.pure_ok _
    · exact Keeps.throw _
  · refine keeps_iff_ends.mpr (Ensures.bind_ok (ensures_siblingOf start (by decide)) ?_)
    rintro backup h ⟨hbeside, hh⟩
    have hfree : IsFree dir I start backup := hbeside.isFree hI
    have hlink : Keeps (Calm dir (Tended dir I start)) (alter (·.link target backup)).run := by
      refine keeps_alter stable_tended fun t t' ht hok => ?_
      obtain ⟨n, -, -, -, -, rfl⟩ := Tree.link_eq_ok hok
      rw [ht.start]
      exact ⟨ht.sound.put_node fun c _ _ => hfree c, ht.start⟩
    have hcopy : Keeps (Calm dir (Tended dir I start)) (copy target backup).run := by
      refine keeps_writing stable_tended fun part t t' ht hok => ?_
      obtain ⟨c, x, -, -, -, rfl⟩ := Tree.copyPart_eq_ok hok
      rw [ht.start]
      exact ⟨ht.sound.put (hfree _) x, ht.start⟩
    refine keeps_iff_ends.mp (Keeps.bind_ok (hlink.bind fun r => Keeps.pure _) fun linked => ?_) h hh
    split_ifs
    · exact hcopy.bind_ok fun _ => Keeps.pure_ok _
    · exact Keeps.pure_ok _
  · exact Keeps.pure_ok _
  · exact Keeps.pure_ok _

lemma keeps_rename {p q : Path} (hfree : IsFree dir I start q) :
    Keeps (Calm dir (Tended dir I start)) (alter (·.rename p q)).run :=
  ensures_rename stable_tended fun _ ht => ⟨ht, fun content _ _ => hfree content⟩

lemma keeps_rollBack {done : List Published} (hdone : ∀ p ∈ done, IsFree dir I start p.target) :
    Keeps (Calm dir (Tended dir I start)) (rollBack done) := by
  refine Keeps.forM fun p hp => keeps_quietly ?_
  have hfree := hdone p (List.mem_reverse.mp hp)
  rcases p.backup with _ | backup
  · exact keeps_removeFile _
  · exact keeps_rename hfree

lemma keeps_orUndo {P : Host → Prop} {α : Type} {path : Path} {undo : OnHost Unit}
    {act : Attempt Disk.Fault α} (hact : Keeps P act.run) (hundo : Keeps P undo) :
    Keeps P (orUndo path undo act).run := by
  refine ensures_result hact fun r => ?_
  cases r with
  | ok a => exact Keeps.pure_ok _
  | error f => exact hundo.bind fun _ => Keeps.pure _

lemma keeps_commit {w : Writer} (hfree : IsFree dir I start w.target) :
    Keeps (Calm dir (Tended dir I start)) w.commit.run := by
  refine keeps_iff_ends.mpr (ensures_guard w (keeps_iff_ends.mp ?_))
  have hwait : Keeps (Calm dir (Tended dir I start)) (alter fun t => .ok t).run :=
    keeps_alter stable_tended fun t t' ht hok => by cases hok; exact ht
  refine keeps_iff_ends.mpr (Ensures.bind_ok (ensures_checked_sync hwait w) fun w' => ?_)
  rintro h ⟨hsynced, hh⟩
  refine keeps_iff_ends.mp (keeps_rename ?_) h hh
  rwa [hsynced.target]

lemma ensures_stageAll (hI : Hides I) {files : List (Path × Bytes)} {staged : List Writer}
    (hfiles : ∀ f ∈ files, IsFree dir I start f.1)
    (hstaged : ∀ w ∈ staged, IsFree dir I start w.target) :
    Ensures (Calm dir (Tended dir I start)) (stageAll staged files).run
      (Ends (Calm dir (Tended dir I start)) fun ws h =>
        (∀ w ∈ ws, IsFree dir I start w.target) ∧ Calm dir (Tended dir I start) h) := by
  induction files generalizing staged with
  | nil => exact Ensures.pure_ok fun h hh => ⟨hstaged, hh⟩
  | cons file files ih =>
    obtain ⟨target, content⟩ := file
    have hone : Ensures (Calm dir (Tended dir I start))
        (orUndo target (staged.forM Writer.drop) (stage target content)).run
        (Ends (Calm dir (Tended dir I start)) fun w h =>
          w.target = target ∧ Calm dir (Tended dir I start) h) := by
      refine ensures_result (ensures_stage hI target content) fun r => ?_
      cases r with
      | ok w => exact Ensures.pure_ok fun h hh => ⟨hh.1.1, hh.2.mono fun t ht => ht.1⟩
      | error f => exact (Keeps.forM fun w _ => keeps_drop w).bind fun _ => Keeps.pure _
    refine Ensures.bind_ok hone fun w => ?_
    rintro h ⟨htarget, hh⟩
    refine ih (fun f hf => hfiles f (List.mem_cons_of_mem _ hf)) (fun v hv => ?_) h hh
    rcases List.mem_append.mp hv with hv | hv
    · exact hstaged v hv
    · obtain rfl := List.mem_singleton.mp hv
      rw [htarget]
      exact hfiles (target, content) List.mem_cons_self

lemma keeps_commitAll (hI : Hides I) {ws : List Writer} {done : List Published}
    (hws : ∀ w ∈ ws, IsFree dir I start w.target)
    (hdone : ∀ p ∈ done, IsFree dir I start p.target) :
    Keeps (Calm dir (Tended dir I start)) (commitAll done ws).run := by
  induction ws generalizing done with
  | nil => exact Keeps.pure_ok _
  | cons w ws ih =>
    have hfree := hws w List.mem_cons_self
    have hrest : ∀ v ∈ ws, IsFree dir I start v.target := fun v hv =>
      hws v (List.mem_cons_of_mem _ hv)
    rw [commitAll]
    refine (keeps_orUndo (keeps_keepPrevious hI _) ?_).bind_ok fun backup => ?_
    · exact (keeps_rollBack hdone).bind fun _ => Keeps.forM fun v _ => keeps_drop v
    refine (keeps_orUndo (keeps_commit hfree) ?_).bind_ok fun _ => ?_
    · refine Keeps.bind ?_ fun _ => (keeps_rollBack hdone).bind fun _ =>
        Keeps.forM fun v _ => keeps_drop v
      cases backup with
      | none => exact Keeps.pure _
      | some b => exact keeps_quietly (keeps_removeFile b)
    · refine ih hrest fun p hp => ?_
      rcases List.mem_append.mp hp with hp | hp
      · exact hdone p hp
      · obtain rfl := List.mem_singleton.mp hp
        exact hfree

/-- Publishing a group outside a directory keeps the directory tended, whatever comes of it. -/
lemma keeps_publishAll (hI : Hides I) {files : List (Path × Bytes)}
    (hfiles : ∀ f ∈ files, IsFree dir I start f.1) :
    Keeps (Calm dir (Tended dir I start)) (publishAll files).run := by
  have hnone : ∀ w ∈ ([] : List Writer), IsFree dir I start w.target := by simp
  refine keeps_iff_ends.mpr (Ensures.bind_ok (ensures_stageAll hI hfiles hnone) fun ws => ?_)
  rintro h ⟨hws, hh⟩
  refine keeps_iff_ends.mp ((keeps_commitAll hI hws (by simp)).bind_ok fun done => ?_) h hh
  refine Keeps.forM_ok (fun p => ?_) done
  rcases p.backup with _ | b
  · exact Keeps.pure_ok _
  · exact keeps_quietly (keeps_removeFile b)

end ContractBuild.Host
