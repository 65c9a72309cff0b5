import Mathlib
import ContractBuild.Proofs.Abi.Hint
import ContractBuild.Proofs.Text.Split

/-!
Reading hints: what is read is exactly what is spelled, whatever is nested in what.
-/

namespace ContractBuild.Abi

open ContractBuild.Text TypeTag

/-! ### One level of reading -/

section Reading

variable {fuel : ℕ} {text : List Char} {t : TypeTag}

lemma parseNested_trim : parseNested fuel (trim text) = .ok t ↔ parseNested fuel text = .ok t := by
  cases fuel with
  | zero => exact ⟨nofun, nofun⟩
  | succ fuel => rw [parseNested, parseNested, trim_trim]

lemma isEmpty_of_ne_nil (hne : text ≠ []) : text.isEmpty = false := by
  rw [Bool.eq_false_iff]
  exact mt List.isEmpty_iff.mp hne

lemma not_quoted (hliteral : ¬(text = "''".toList ∨ text = "\"\"".toList)) :
    (text == "''".toList || text == "\"\"".toList) = false := by
  rw [Bool.eq_false_iff]
  simpa using hliteral

lemma parseNested_choice (htext : IsSolid text) (hmany : 1 < (splitTop '|' text).length) :
    parseNested (fuel + 1) text = .ok t ↔
      ∃ ts, List.Forall₂ (fun p t => parseNested fuel p = .ok t) (splitTop '|' text) ts ∧
        t = unite ts := by
  have hne : text ≠ [] := by
    rintro rfl
    exact absurd hmany (by decide)
  rw [parseNested]
  simp only [trim_self htext, isEmpty_of_ne_nil hne, Bool.false_eq_true, if_false, gt_iff_lt,
    hmany, if_true]
  rw [except_bind_ok]
  simp only [except_mapM_eq_ok]
  exact exists_congr fun ts => and_congr_right fun _ =>
    ⟨fun h => (Except.ok.inj h).symm, fun h => congrArg Except.ok h.symm⟩

lemma parseNested_literal (htext : text = "''".toList ∨ text = "\"\"".toList) :
    parseNested (fuel + 1) text = .ok (.scalar .unknown) := by
  rcases htext with rfl | rfl <;> rfl

lemma parseNested_ellipsis : parseNested fuel ellipsis ≠ .ok t := by
  cases fuel <;> nofun

/-- What is read of a name and its items. -/
inductive Reads (fuel : ℕ) (name : String) : Option (List (List Char)) → TypeTag → Prop where
  | bare {t : TypeTag} (h : ofName? name = some t) : Reads fuel name none t
  | items {f : Former} {ws : List (List Char)} {ts : List TypeTag} {t : TypeTag}
      (hf : Former.ofName? name = some f)
      (hts : List.Forall₂ (fun w t => parseNested fuel w = .ok t) ws ts)
      (ht : f.build? ts = some t) : Reads fuel name (some ws) t
  | tupleOf {w : List Char} {t : TypeTag} (hf : Former.ofName? name = some .tuple)
      (h : parseNested fuel w = .ok t) : Reads fuel name (some [w, ellipsis]) (.tupleOf t)

/-- Items that are all read are not an ellipsis. -/
lemma ellipsis_not_mem {ws : List (List Char)} {ts : List TypeTag}
    (h : List.Forall₂ (fun w t => parseNested fuel w = .ok t) ws ts) : ellipsis ∉ ws := by
  induction h with
  | nil => nofun
  | cons hw _ ih =>
    refine fun hmem => (List.mem_cons.mp hmem).elim (fun heq => ?_) ih
    exact parseNested_ellipsis (heq ▸ hw)

/-- The items of a tuple are read if all are, so that none is an ellipsis. -/
lemma read_tuple_items {fault : TypeFault} {ws : List (List Char)} :
    (if ellipsis ∈ ws then Except.error fault
      else (ws.mapM (parseNested fuel) >>= fun ts => pure (TypeTag.tuple ts))) = .ok t ↔
      ∃ ts, List.Forall₂ (fun w t => parseNested fuel w = .ok t) ws ts ∧ t = .tuple ts := by
  constructor
  · intro h
    split_ifs at h
    obtain ⟨ts, hts, h⟩ := except_bind_ok.mp h
    exact ⟨ts, except_mapM_eq_ok.mp hts, (Except.ok.inj h).symm⟩
  · rintro ⟨ts, hts, rfl⟩
    rw [if_neg (ellipsis_not_mem hts), except_mapM_eq_ok.mpr hts]
    rfl

section Single

variable (htext : IsSolid text) (hne : text ≠ []) (hone : splitTop '|' text = [text])
  (hliteral : ¬(text = "''".toList ∨ text = "\"\"".toList)) {head : List Char}
  {args : Option (List (List Char))}

include htext hne hone hliteral

/-- Where there is nothing to choose from, a name and its items are read. -/
lemma reads_of_parseNested (h : parseNested (fuel + 1) text = .ok t) : ∃ head args,
    subscript text = .ok (head, args) ∧ Reads fuel (String.ofList (unqualified head)) args t := by
  rw [parseNested] at h
  simp only [trim_self htext, isEmpty_of_ne_nil hne, hone, not_quoted hliteral,
    List.length_singleton, gt_iff_lt, lt_irrefl, Bool.false_eq_true, if_false] at h
  obtain ⟨⟨head, args⟩, hsubscript, h⟩ := except_bind_ok.mp h
  refine ⟨head, args, hsubscript, ?_⟩
  dsimp only at h
  generalize String.ofList (unqualified head) = name at h ⊢
  rcases args with _ | ws
  · rcases hname : ofName? name with _ | u
    · rw [hname] at h; cases h
    · rw [hname] at h; cases h; exact .bare hname
  rcases hf : Former.ofName? name with _ | f
  · rw [hf] at h; cases h
  simp only [hf] at h
  cases f with
  | list =>
    rcases ws with _ | ⟨a, _ | ⟨b, ws⟩⟩
    · cases h
    · obtain ⟨u, hu, h⟩ := except_bind_ok.mp h
      cases h
      exact .items hf (.cons hu .nil) rfl
    · cases h
  | dict =>
    rcases ws with _ | ⟨a, _ | ⟨b, _ | ⟨c, ws⟩⟩⟩
    · cases h
    · cases h
    · obtain ⟨u, hu, h⟩ := except_bind_ok.mp h
      obtain ⟨v, hv, h⟩ := except_bind_ok.mp h
      cases h
      exact .items hf (.cons hu (.cons hv .nil)) rfl
    · cases h
  | tuple =>
    have hall : ∀ {ws}, (∃ ts, List.Forall₂ (fun w t => parseNested fuel w = .ok t) ws ts ∧
        t = .tuple ts) → Reads fuel name (some ws) t := by
      rintro ws ⟨ts, hts, rfl⟩
      exact .items hf hts rfl
    rcases ws with _ | ⟨a, _ | ⟨b, _ | ⟨c, ws⟩⟩⟩
    · exact hall (read_tuple_items.mp h)
    · exact hall (read_tuple_items.mp h)
    · dsimp only at h
      by_cases hlast : b = ellipsis
      · rw [if_pos hlast] at h
        obtain ⟨u, hu, h⟩ := except_bind_ok.mp h
        cases h
        rw [hlast]
        exact .tupleOf hf hu
      · rw [if_neg hlast] at h
        exact hall (read_tuple_items.mp h)
    · exact hall (read_tuple_items.mp h)
  | optional =>
    rcases ws with _ | ⟨a, _ | ⟨b, ws⟩⟩
    · cases h
    · obtain ⟨u, hu, h⟩ := except_bind_ok.mp h
      cases h
      exact .items hf (.cons hu .nil) rfl
    · cases h
  | union =>
    rcases ws with _ | ⟨a, ws⟩
    · cases h
    · obtain ⟨ts, hts, h⟩ := except_bind_ok.mp h
      cases h
      have hall := except_mapM_eq_ok.mp hts
      cases hall with
      | cons hu hall => exact .items hf (.cons hu hall) rfl

lemma parseNested_of_reads (hsubscript : subscript text = .ok (head, args))
    (h : Reads fuel (String.ofList (unqualified head)) args t) :
    parseNested (fuel + 1) text = .ok t := by
  rw [parseNested]
  simp only [trim_self htext, isEmpty_of_ne_nil hne, hone, not_quoted hliteral,
    List.length_singleton, gt_iff_lt, lt_irrefl, Bool.false_eq_true, if_false]
  refine except_bind_ok.mpr ⟨_, hsubscript, ?_⟩
  cases h with
  | bare h => simp only [h]; rfl
  | tupleOf hf h => simp only [hf, h]; rfl
  | @items f ws ts _ hf hts ht =>
    simp only [hf]
    cases f with
    | tuple =>
      cases ht
      rcases ws with _ | ⟨a, _ | ⟨b, _ | ⟨c, ws⟩⟩⟩
      · exact read_tuple_items.mpr ⟨ts, hts, rfl⟩
      · exact read_tuple_items.mpr ⟨ts, hts, rfl⟩
      · have hlast : b ≠ ellipsis := by
          rintro rfl
          exact ellipsis_not_mem hts (by simp)
        dsimp only
        rw [if_neg hlast]
        exact read_tuple_items.mpr ⟨ts, hts, rfl⟩
      · exact read_tuple_items.mpr ⟨ts, hts, rfl⟩
    | union =>
      have hmap := except_mapM_eq_ok.mpr hts
      cases hts with
      | nil => cases ht
      | cons hw hts =>
        cases ht
        dsimp only
        rw [hmap]
        rfl
    | list | optional =>
      rcases hts with _ | ⟨hw, _ | _⟩
      · cases ht
      · cases ht
        simp only [hw]
        rfl
      · cases ht
    | dict =>
      rcases hts with _ | ⟨hw, _ | ⟨hv, _ | _⟩⟩
      · cases ht
      · cases ht
      · cases ht
        simp only [hw, hv]
        rfl
      · cases ht

end Single

end Reading

/-! ### Names and items of a text -/

section Subscript

variable {n g inner text : List Char} {names : List String} {ws : List (List Char)}

lemma IsNamed.not_mem (hn : IsNamed names n) (hnames : names ⊆ knownNames) : '[' ∉ n := by
  intro hmem
  have hchar := hn.chars hnames _ hmem
  revert hchar
  decide

lemma IsNamed.subscript (hn : IsNamed names n) (hnames : names ⊆ knownNames) :
    subscript n = .ok (n, none) := by
  rw [TypeTag.subscript, splitOnce_of_not_mem (hn.not_mem hnames)]

lemma IsNamed.not_literal (hn : IsNamed names n) (hnames : names ⊆ knownNames) :
    ¬(n = "''".toList ∨ n = "\"\"".toList) := by
  rintro (rfl | rfl)
  · exact absurd (hnames ((isNamed_iff hnames).mp hn)) (by decide)
  · exact absurd (hnames ((isNamed_iff hnames).mp hn)) (by decide)

lemma HasItems.items (h : HasItems inner ws) (hws : ∀ w ∈ ws, IsSolid w ∧ Passes ',' 0 w) :
    ((splitTop ',' inner).map trim).filter (!·.isEmpty) = ws := by
  obtain ⟨ps, hps, rfl⟩ := h.parts
  rw [hps.map_trim_splitTop (by decide) (by decide) fun p hp => ?_]
  rcases p with _ | ⟨c, p⟩
  · exact ⟨⟨nofun, nofun⟩, passes_nil⟩
  · exact hws _ (List.mem_filter.mpr ⟨hp, rfl⟩)

lemma HasItems.length_le (h : HasItems inner ws) : ∀ w ∈ ws, w.length ≤ inner.length := by
  obtain ⟨ps, hps, rfl⟩ := h.parts
  intro w hw
  have hmem := (List.mem_filter.mp hw).1
  have hle := hps.length_le w hmem
  have hpos := List.length_pos_of_mem hmem
  omega

lemma subscript_subscripted (hn : IsNamed names n) (hnames : names ⊆ knownNames) (hg : IsGap g)
    (h : HasItems inner ws) (hws : ∀ w ∈ ws, IsSolid w ∧ Passes ',' 0 w) :
    subscript (n ++ g ++ '[' :: (inner ++ [']'])) = .ok (n, some ws) := by
  have hopen : '[' ∉ n ++ g := by
    rw [List.mem_append]
    exact fun hmem => hmem.elim (hn.not_mem hnames) (hg.not_mem (by decide))
  have hclose : stripSuffix? [']'] (inner ++ [']']) = some inner := stripSuffix?_eq_some.mpr rfl
  have htrim : trim (n ++ g) = n := trim_solid (g := []) (hn.isSolid hnames).1 isGap_nil hg
  rw [subscript, splitOnce_append hopen]
  simp only [hclose, htrim, h.items hws]

/-- A text with a subscript is no literal. -/
lemma not_literal_subscripted :
    ¬(n ++ g ++ '[' :: (inner ++ [']']) = "''".toList ∨
      n ++ g ++ '[' :: (inner ++ [']']) = "\"\"".toList) := by
  have hmem : '[' ∈ n ++ g ++ '[' :: (inner ++ [']']) := by simp
  rintro (h | h)
  · rw [h] at hmem
    exact absurd hmem (by decide)
  · rw [h] at hmem
    exact absurd hmem (by decide)

end Subscript

/-! ### What is spelled is read -/

section Spelled

variable {w : List Char} {a : Hint}

lemma forall₂_tags {fuel : ℕ} {ws : List (List Char)} {items : List Hint}
    (hlen : ws.length = items.length)
    (h : ∀ {w b}, (w, b) ∈ ws.zip items → parseNested fuel w = .ok b.tag) :
    List.Forall₂ (fun w t => parseNested fuel w = .ok t) ws (Hint.tags items) := by
  rw [Hint.tags_eq_map, List.forall₂_map_right_iff]
  exact List.forall₂_iff_zip.mpr ⟨hlen, h⟩

/-- A choice is cut at its bars and nowhere else. -/
lemma map_trim_splitTop_choice {ws : List (List Char)} {items : List Hint}
    (hws : Separates '|' ws w) (hlen : ws.length = items.length)
    (h : ∀ {v b}, (v, b) ∈ ws.zip items → Spells v b) (hplain : ∀ b ∈ items, b.isChoice = false) :
    (splitTop '|' w).map trim = ws := by
  refine hws.map_trim_splitTop (by decide) (by decide) fun v hv => ?_
  obtain ⟨b, hb, hzip⟩ := exists_mem_zip hlen hv
  exact ⟨(h hzip).isSolid.1, (h hzip).passes (.inr rfl) (.inr (.inr (hplain b hb)))⟩

/-- What is spelled is read, with fuel for its length. -/
lemma Spells.parseNested (h : Spells w a) {fuel : ℕ} (hfuel : w.length < fuel) :
    parseNested fuel w = .ok a.tag := by
  induction fuel generalizing w a with
  | zero => exact absurd hfuel (Nat.not_lt_zero _)
  | succ fuel ih =>
    obtain ⟨hsolid, hne⟩ := h.isSolid
    have hone (hplain : a.isChoice = false) : splitTop '|' w = [w] :=
      (h.passes (.inr rfl) (.inr (.inr hplain))).splitTop
    cases h with
    | @scalar _ s hn =>
      have hnames := Scalar.names_subset s
      exact parseNested_of_reads hsolid hne (hone rfl) (hn.not_literal hnames)
        (hn.subscript hnames) (.bare (ofName?_scalar ((isNamed_iff hnames).mp hn)))
    | literal hn => exact parseNested_literal hn
    | @bare _ f _ hn ha =>
      have hnames := TypeTag.Former.names_subset f
      exact parseNested_of_reads hsolid hne (hone (isChoice_of_bare? ha)) (hn.not_literal hnames)
        (hn.subscript hnames) (.bare (ofName?_bare ((isNamed_iff hnames).mp hn) ha))
    | @subscripted n g inner f ws items _ hn hg hws hlen h ha =>
      have hnames := TypeTag.Former.names_subset f
      have hcut : ∀ w ∈ ws, IsSolid w ∧ Passes ',' 0 w := by
        intro w hw
        obtain ⟨b, -, hb⟩ := exists_mem_zip hlen hw
        exact ⟨(h hb).isSolid.1, (h hb).passes (.inl rfl) (.inr (.inl rfl))⟩
      have htags : List.Forall₂ (fun w t => TypeTag.parseNested fuel w = .ok t) ws
          (Hint.tags items) := by
        refine forall₂_tags hlen fun {w b} hzip => ih (h hzip) ?_
        have hle := hws.length_le w (List.of_mem_zip hzip).1
        simp only [List.length_append, List.length_cons] at hfuel
        omega
      have hbuild : f.build? (Hint.tags items) = some a.tag := by
        rw [← f.map_tag_form?, ha, Option.map_some]
      exact parseNested_of_reads hsolid hne (hone (isChoice_of_form? ha)) not_literal_subscripted
        (subscript_subscripted hn hnames hg hws hcut)
        (.items (former_ofName?_eq_some.mpr ((isNamed_iff hnames).mp hn)) htags hbuild)
    | @tupleOf n g inner w item hn hg hws h =>
      have hnames := TypeTag.Former.names_subset .tuple
      have hcut : ∀ v ∈ [w, ellipsis], IsSolid v ∧ Passes ',' 0 v := by
        intro v hv
        rcases List.mem_pair.mp hv with rfl | rfl
        · exact ⟨h.isSolid.1, h.passes (.inl rfl) (.inr (.inl rfl))⟩
        · exact ⟨isSolid_of_forall (List.all_iff_forall_prop.mp (by decide)),
            passes_of_forall (List.all_iff_forall_prop.mp (by decide)) (.inl (by decide))⟩
      have hitem : TypeTag.parseNested fuel w = .ok item.tag := by
        refine ih h ?_
        have hle := hws.length_le w List.mem_cons_self
        simp only [List.length_append, List.length_cons] at hfuel
        omega
      exact parseNested_of_reads hsolid hne (hone rfl) not_literal_subscripted
        (subscript_subscripted hn hnames hg hws hcut)
        (.tupleOf (former_ofName?_eq_some.mpr ((isNamed_iff hnames).mp hn)) hitem)
    | @choice _ ws a b more htext hws hlen h hplain =>
      have hcut := map_trim_splitTop_choice hws hlen h hplain
      have hmany : 2 ≤ ws.length := by
        rw [hlen, List.length_cons, List.length_cons]
        omega
      have htags : List.Forall₂ (fun w t => TypeTag.parseNested fuel w = .ok t) ws
          (Hint.tags (a :: b :: more)) := by
        refine forall₂_tags hlen fun {w c} hzip => ih (h hzip) ?_
        have hle := hws.length_le w (List.of_mem_zip hzip).1
        omega
      have hlong : 1 < (splitTop '|' w).length := by
        rw [← List.length_map (f := trim), hcut]
        exact hmany
      refine (parseNested_choice hsolid hlong).mpr ⟨_, ?_, rfl⟩
      rw [← hcut, List.forall₂_map_left_iff] at htags
      exact htags.imp fun _ _ => parseNested_trim.mp

end Spelled

/-! ### What is read is spelled -/

section Read

variable {text : List Char} {t : TypeTag}

/-- What is read item by item is spelled item by item. -/
lemma exists_hints {fuel : ℕ} {ps : List (List Char)} {ts : List TypeTag}
    (h : List.Forall₂ (fun p t => parseNested fuel p = .ok t) ps ts)
    (ih : ∀ p t, parseNested fuel p = .ok t → ∃ a, Spells (trim p) a ∧ a.tag = t) :
    ∃ as, Hint.tags as = ts ∧ List.Forall₂ (fun p a => Spells (trim p) a) ps as := by
  induction h with
  | nil => exact ⟨[], rfl, .nil⟩
  | cons hp _ hrest =>
    obtain ⟨a, ha, rfl⟩ := ih _ _ hp
    obtain ⟨as, rfl, has⟩ := hrest
    exact ⟨a :: as, rfl, .cons ha has⟩

/-- Only a choice is cut at bars. -/
lemma Spells.isChoice_eq_false {w : List Char} {a : Hint} (h : Spells w a)
    (hone : splitTop '|' w = [w]) : a.isChoice = false := by
  cases h with
  | choice _ hws hlen h hplain =>
    rw [← map_trim_splitTop_choice hws hlen h hplain, hone] at hlen
    cases hlen
  | scalar | literal | tupleOf => rfl
  | bare _ ha => exact isChoice_of_bare? ha
  | subscripted _ _ _ _ _ ha => exact isChoice_of_form? ha

/-- The operands of a choice are none themselves. -/
lemma isChoice_of_forall₂ {w : List Char} {ps : List (List Char)} {as : List Hint}
    (h : List.Forall₂ (fun p a => Spells (trim p) a) ps as) (hps : ps ⊆ splitTop '|' w) :
    ∀ a ∈ as, a.isChoice = false := by
  induction h with
  | nil => nofun
  | cons ha _ ih =>
    obtain ⟨hp, hps⟩ := List.cons_subset.mp hps
    refine List.forall_mem_cons.mpr ⟨ha.isChoice_eq_false ?_, ih hps⟩
    refine splitTop_of_length_le ?_
    rw [length_splitTop_trim (by decide), splitTop_of_mem (by decide) hp]
    exact le_rfl

/-- A name in front of a subscript starts the text. -/
lemma exists_gap_of_solid {u r : List Char} (h : IsSolid (u ++ r)) :
    ∃ g, IsGap g ∧ u = trim u ++ g := by
  obtain ⟨g, g', hg, hg', heq⟩ := exists_gaps u
  rcases g with _ | ⟨c, g⟩
  · exact ⟨g', hg', heq⟩
  · have hhead := h.head c (by rw [heq]; rfl)
    rw [hg c List.mem_cons_self] at hhead
    cases hhead

/-- What stands in front of a subscript, and its items. -/
lemma subscript_eq_ok {head : List Char} {args : Option (List (List Char))}
    (h : subscript text = .ok (head, args)) :
    args = none ∧ head = text ∨ ∃ u inner, text = u ++ '[' :: (inner ++ [']']) ∧ head = trim u ∧
      args = some (((splitTop ',' inner).map trim).filter (!·.isEmpty)) := by
  unfold subscript at h
  by_cases hmem : '[' ∈ text
  · obtain ⟨u, r, rfl, hopen⟩ := List.eq_append_cons_of_mem hmem
    rw [splitOnce_append hopen] at h
    rcases hr : stripSuffix? [']'] r with _ | inner
    · simp only [hr] at h
      cases h
    · simp only [hr] at h
      cases h
      rw [stripSuffix?_eq_some] at hr
      exact .inr ⟨u, inner, by rw [hr], rfl, rfl⟩
  · rw [splitOnce_of_not_mem hmem] at h
    cases h
    exact .inl ⟨rfl, rfl⟩

/-- The items of a text stand in it, trimmed. -/
lemma hasItems_split (inner : List Char) :
    HasItems inner (((splitTop ',' inner).map trim).filter (!·.isEmpty)) :=
  ⟨_, separates_splitTop ',' inner, rfl⟩

lemma map_trim_items (inner : List Char) :
    (((splitTop ',' inner).map trim).filter (!·.isEmpty)).map trim =
      ((splitTop ',' inner).map trim).filter (!·.isEmpty) := by
  refine (List.map_congr_left fun w hw => ?_).trans (List.map_id _)
  obtain ⟨p, -, rfl⟩ := List.mem_map.mp (List.mem_filter.mp hw).1
  exact trim_trim p

/-- Everything that is read is spelled. -/
lemma exists_spells {fuel : ℕ} (h : parseNested fuel text = .ok t) :
    ∃ a, Spells (trim text) a ∧ a.tag = t := by
  induction fuel generalizing text t with
  | zero => cases h
  | succ fuel ih =>
    rw [← parseNested_trim] at h
    have hsolid := isSolid_trim text
    generalize trim text = w at h hsolid ⊢
    by_cases hmany : 1 < (splitTop '|' w).length
    · obtain ⟨ts, hts, rfl⟩ := (parseNested_choice hsolid hmany).mp h
      obtain ⟨as, rfl, has⟩ := exists_hints hts fun p t => ih
      have hplain := isChoice_of_forall₂ has (List.Subset.refl _)
      obtain ⟨hlen, hzip⟩ := List.forall₂_iff_zip.mp (List.forall₂_map_left_iff.mpr has)
      rw [← List.length_map (f := trim), hlen] at hmany
      obtain _ | ⟨first, _ | ⟨second, more⟩⟩ := as
      · cases hmany
      · exact absurd hmany (lt_irrefl 1)
      · exact ⟨.choice first second more,
          .choice hsolid (separates_splitTop '|' w) hlen hzip hplain, rfl⟩
    have hne : w ≠ [] := by
      rintro rfl
      cases h
    have hone : splitTop '|' w = [w] := splitTop_of_length_le (by omega)
    by_cases hliteral : w = "''".toList ∨ w = "\"\"".toList
    · rw [parseNested_literal hliteral] at h
      cases h
      exact ⟨.scalar .unknown, .literal hliteral, rfl⟩
    obtain ⟨head, args, hsubscript, hreads⟩ := reads_of_parseNested hsolid hne hone hliteral h
    rcases subscript_eq_ok hsubscript with ⟨rfl, rfl⟩ | ⟨u, inner, rfl, rfl, rfl⟩
    · cases hreads with
      | bare hname =>
        rcases ofName?_eq_some.mp hname with ⟨s, hs, rfl⟩ | ⟨f, a, hf, ha, rfl⟩
        · exact ⟨_, .scalar ((isNamed_iff (Scalar.names_subset s)).mpr hs), rfl⟩
        · exact ⟨a, .bare ((isNamed_iff (TypeTag.Former.names_subset f)).mpr hf) ha, rfl⟩
    · have hnamed : ∀ f, Former.ofName? (String.ofList (unqualified (trim u))) = some f →
          IsNamed f.names (trim u) := fun f hf =>
        (isNamed_iff (TypeTag.Former.names_subset f)).mpr (former_ofName?_eq_some.mp hf)
      obtain ⟨g, hg, hu⟩ := exists_gap_of_solid hsolid
      have hitems := hasItems_split inner
      have htrim := map_trim_items inner
      rw [hu]
      generalize ((splitTop ',' inner).map trim).filter (!·.isEmpty) = ws at hreads hitems htrim
      cases hreads with
      | items hf hts ht =>
        obtain ⟨as, rfl, has⟩ := exists_hints hts fun p t => ih
        rw [← TypeTag.Former.map_tag_form?, Option.map_eq_some_iff] at ht
        obtain ⟨a, ha, rfl⟩ := ht
        rw [← List.forall₂_map_left_iff, htrim] at has
        obtain ⟨hlen, hzip⟩ := List.forall₂_iff_zip.mp has
        exact ⟨a, .subscripted (hnamed _ hf) hg hitems hlen hzip ha, rfl⟩
      | @tupleOf v _ hf hread =>
        obtain ⟨a, ha, rfl⟩ := ih hread
        rw [(List.cons.inj htrim).1] at ha
        exact ⟨.tupleOf a, .tupleOf (hnamed _ hf) hg hitems ha, rfl⟩

end Read

/-! ### Hints and their types -/

/-- What is read is exactly what is spelled. -/
lemma parse_eq_ok {text : String} {t : TypeTag} :
    parse text = .ok t ↔ ∃ a, Spells (trim text.toList) a ∧ a.tag = t := by
  constructor
  · exact exists_spells
  · rintro ⟨a, h, rfl⟩
    refine parseNested_trim.mp (h.parseNested ?_)
    have hle : (trim text.toList).length ≤ text.toList.length := by
      obtain ⟨g, g', -, -, heq⟩ := exists_gaps text.toList
      have hlen := congrArg List.length heq
      simp only [List.length_append] at hlen
      omega
    rw [String.length_toList] at hle
    omega

/-- **Hints are read compositionally.** However a hint is nested and whatever blanks
and aliases it is spelled with, its text is read as the type that is built up along it. -/
theorem parse_hint {g w g' : List Char} {a : Hint} (hg : IsGap g) (h : Spells w a)
    (hg' : IsGap g') : parse (String.ofList (g ++ w ++ g')) = .ok a.tag := by
  refine parse_eq_ok.mpr ⟨a, ?_, rfl⟩
  rwa [String.toList_ofList, trim_solid h.isSolid.1 hg hg']

/-- A name with one item. -/
lemma Spells.one {n g g' g'' w : List Char} {f : Former} {a b : Hint}
    (hn : IsNamed f.names n) (hg : IsGap g) (hg' : IsGap g') (h : Spells w b) (hg'' : IsGap g'')
    (ha : f.form? [b] = some a) : Spells (n ++ g ++ '[' :: (g' ++ w ++ g'' ++ [']'])) a := by
  have hw : [w].filter (!·.isEmpty) = [w] := by simp [h.isSolid.2]
  refine .subscripted hn hg ⟨[w], .last hg' hg'', hw.symm⟩ rfl (fun {v c} hzip => ?_) ha
  obtain ⟨rfl, rfl⟩ := Prod.mk.inj (List.mem_singleton.mp hzip)
  exact h

/-- A name with two items. -/
lemma Spells.two {n g v w : List Char} {f : Former} {a b c : Hint} (hn : IsNamed f.names n)
    (ha : Spells v a) (hg : IsGap g) (hb : Spells w b) (hc : f.form? [a, b] = some c) :
    Spells (n ++ [] ++ '[' :: (v ++ ',' :: (g ++ w) ++ [']'])) c := by
  have hparts : Separates ',' [v, w] ([] ++ v ++ [] ++ ',' :: (g ++ w ++ [])) :=
    .cons isGap_nil isGap_nil (.last hg isGap_nil)
  have hitems : HasItems (v ++ ',' :: (g ++ w)) [v, w] :=
    ⟨[v, w], by simpa using hparts, by simp [ha.isSolid.2, hb.isSolid.2]⟩
  have hspells : ∀ {u d}, (u, d) ∈ [v, w].zip [a, b] → Spells u d := by
    intro u d hzip
    rcases List.mem_pair.mp hzip with h | h
    · obtain ⟨rfl, rfl⟩ := Prod.mk.inj h
      exact ha
    · obtain ⟨rfl, rfl⟩ := Prod.mk.inj h
      exact hb
  exact .subscripted hn isGap_nil hitems rfl hspells hc

/-- A choice of two. -/
lemma Spells.either {g g' v w : List Char} {a b : Hint} (ha : Spells v a) (hg : IsGap g)
    (hg' : IsGap g') (hb : Spells w b) (ha' : a.isChoice = false) (hb' : b.isChoice = false) :
    Spells (v ++ (g ++ '|' :: g') ++ w) (.choice a b []) := by
  have hparts : Separates '|' [v, w] ([] ++ v ++ g ++ '|' :: (g' ++ w ++ [])) :=
    .cons isGap_nil hg (.last hg' isGap_nil)
  refine .choice (ha.isSolid.1.append hb.isSolid.1 ha.isSolid.2 hb.isSolid.2 _)
    (by simpa using hparts) rfl (fun {u c} hzip => ?_) (by simp [ha', hb'])
  rcases List.mem_pair.mp hzip with h | h
  · obtain ⟨rfl, rfl⟩ := Prod.mk.inj h
    exact ha
  · obtain ⟨rfl, rfl⟩ := Prod.mk.inj h
    exact hb

theorem parse_hint_nested :
    parse " Optional[ list [int] ] | t.Tuple[str , ...]" =
      .ok (.optional (.union [.list (.scalar .int), .tupleOf (.scalar .str)])) := by
  have hspace : IsGap [' '] := List.forall_mem_singleton.mpr (by decide)
  have hint : Spells "int".toList (.scalar .int) := .scalar ⟨"", by decide, "int", by decide, rfl⟩
  have hstr : Spells "str".toList (.scalar .str) := .scalar ⟨"", by decide, "str", by decide, rfl⟩
  have hlist := Spells.one (f := .list) ⟨"", by decide, "list", by decide, rfl⟩ hspace isGap_nil
    hint isGap_nil rfl
  have hoptional := Spells.one (f := .optional) ⟨"", by decide, "Optional", by decide, rfl⟩
    isGap_nil hspace hlist hspace rfl
  have htuple := Spells.tupleOf ⟨"t.", by decide, "Tuple", by decide, rfl⟩ isGap_nil
    ⟨["str".toList, ellipsis], .cons isGap_nil hspace (.last hspace isGap_nil), rfl⟩ hstr
  have hchoice := hoptional.either hspace hspace htuple rfl rfl
  refine Eq.trans (congrArg parse ?_) ((parse_hint hspace hchoice isGap_nil).trans ?_)
  · decide
  · rfl

end ContractBuild.Abi
