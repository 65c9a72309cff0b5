import Mathlib
import ContractBuild.Wasm.Section
import ContractBuild.Proofs.Text.Utf8

/-!
Reading back what was written: numbers, sized bytes, names and vectors.

A number may be read from more bytes than it is written with, so writing again what was read never
takes more room.
-/

namespace ContractBuild.Wasm

open ContractBuild.Text

namespace Reader

variable {α β : Type}

@[simp] lemma pure_apply (a : α) (bs : Bytes) : (pure a : Reader α) bs = some (a, bs) := rfl

lemma bind_apply (x : Reader α) (f : α → Reader β) (bs : Bytes) :
    (x >>= f) bs = (x bs).bind fun p => f p.1 p.2 := rfl

lemma bind_of_eq {x : Reader α} {a : α} {bs r : Bytes} (h : x bs = some (a, r))
    (f : α → Reader β) : (x >>= f) bs = f a r := by
  rw [bind_apply, h]; rfl

lemma bind_eq_some {x : Reader α} {f : α → Reader β} {bs : Bytes} {p : β × Bytes} :
    (x >>= f) bs = some p ↔ ∃ a r, x bs = some (a, r) ∧ f a r = some p := by
  rw [bind_apply, Option.bind_eq_some_iff]
  exact ⟨fun ⟨q, hq, hf⟩ => ⟨q.1, q.2, hq, hf⟩, fun ⟨a, r, hx, hf⟩ => ⟨(a, r), hx, hf⟩⟩

lemma check_eq_some {b : Bool} {bs r : Bytes} {u : Unit} :
    check b bs = some (u, r) ↔ b = true ∧ r = bs := by
  unfold check
  split_ifs with h <;> simp [h, eq_comm]

lemma take_eq_some {n : ℕ} {bs a r : Bytes} :
    take n bs = some (a, r) ↔ bs = a ++ r ∧ a.length = n := by
  unfold take
  split_ifs with h
  · rw [Option.some.injEq, Prod.mk.injEq]
    refine ⟨fun ⟨ha, hr⟩ => ?_, fun ⟨hbs, hn⟩ => ?_⟩
    · subst ha hr
      exact ⟨(List.take_append_drop n bs).symm, List.length_take_of_le h⟩
    · subst hbs hn
      simp
  · simp only [false_iff, not_and]
    intro hbs hn
    apply h
    rw [hbs, List.length_append]
    omega

lemma take_append (bs r : Bytes) : take bs.length (bs ++ r) = some (bs, r) :=
  take_eq_some.mpr ⟨rfl, rfl⟩

lemma whole_eq_some {r : Reader α} {bs : Bytes} {x : α} :
    whole r bs = some x ↔ r bs = some (x, []) := by
  unfold whole
  rcases r bs with _ | ⟨y, _ | ⟨b, t⟩⟩ <;> simp

lemma many_cons (item : Reader α) (fuel : ℕ) (b : UInt8) (bs : Bytes) :
    many item (fuel + 1) (b :: bs) =
      (item (b :: bs)).bind fun p => (many item fuel p.2).map (p.1 :: ·) := by
  rcases h : item (b :: bs) with _ | ⟨x, r⟩ <;> simp [many, h]

lemma many_nil (item : Reader α) (fuel : ℕ) : many item fuel [] = some [] := by
  cases fuel <;> rfl

/-! ### Numbers -/

lemma unsignedFrom_writeGroups (g w n : ℕ) (h0 : 0 < w) (hn : n < 2 ^ w) (hg : w ≤ 7 * g)
    (r : Bytes) : unsignedFrom w (writeGroups g n ++ r) = some (n, r) := by
  induction g generalizing w n with
  | zero => omega
  | succ g ih =>
    unfold writeGroups
    split_ifs with h1
    · -- one group holds the number
      have hb : (UInt8.ofNat n).toNat = n := Utf8.toNat_ofNat (by omega)
      rw [List.cons_append, List.nil_append, unsignedFrom, Nat.one_shiftLeft]
      simp only [hb]
      split_ifs <;> rfl
    · have hw : ¬ w ≤ 7 := by
        intro hw
        have : 2 ^ w ≤ 2 ^ 7 := Nat.pow_le_pow_right (by omega) hw
        omega
      have hb : (UInt8.ofNat (n % 128 + 128)).toNat = n % 128 + 128 :=
        Utf8.toNat_ofNat (by omega)
      have hdiv : n / 128 < 2 ^ (w - 7) := by
        rw [Nat.div_lt_iff_lt_mul (by omega), show 128 = 2 ^ 7 from rfl, ← pow_add,
          Nat.sub_add_cancel (by omega)]
        exact hn
      rw [List.cons_append, unsignedFrom, if_neg hw, hb, if_neg (by omega),
        ih (w - 7) (n / 128) (by omega) hdiv (by omega)]
      simp only [low, hb, Option.map_some, Option.some.injEq, Prod.mk.injEq, and_true]
      omega

lemma u32_writeU32 {n : ℕ} (hn : n < 2 ^ 32) (r : Bytes) : u32 (writeU32 n ++ r) = some (n, r) :=
  unsignedFrom_writeGroups 5 32 n (by omega) hn (by omega) r

/-- Of the groups of a number that is too large the last one cannot be read. -/
lemma lt_of_unsignedFrom_writeGroups {g w n : ℕ} {r : Bytes} {p : ℕ × Bytes} (h0 : 0 < w)
    (hg : w ≤ 7 * g) (h : unsignedFrom w (writeGroups g n ++ r) = some p) : n < 2 ^ w := by
  induction g generalizing w n p with
  | zero => omega
  | succ g ih =>
    unfold writeGroups at h
    split_ifs at h with h1
    · have hb : (UInt8.ofNat n).toNat = n := Utf8.toNat_ofNat (by omega)
      rw [List.cons_append, unsignedFrom, Nat.one_shiftLeft, hb] at h
      by_cases hw : w ≤ 7
      · rw [if_pos hw] at h
        by_contra hn
        rw [if_neg hn] at h
        cases h
      · have h7 : 2 ^ 7 ≤ 2 ^ w := Nat.pow_le_pow_right (by omega) (by omega)
        exact lt_of_lt_of_le h1 h7
    · have hb : (UInt8.ofNat (n % 128 + 128)).toNat = n % 128 + 128 :=
        Utf8.toNat_ofNat (by omega)
      rw [List.cons_append, unsignedFrom, Nat.one_shiftLeft, hb] at h
      by_cases hw : w ≤ 7
      · -- the group says that another one follows
        have hlast : 2 ^ w ≤ 2 ^ 7 := Nat.pow_le_pow_right (by omega) hw
        rw [if_pos hw, if_neg (by omega)] at h
        cases h
      · rw [if_neg hw, if_neg (by omega), Option.map_eq_some_iff] at h
        obtain ⟨q, hq, -⟩ := h
        have hrest := ih (by omega) (by omega) hq
        rwa [Nat.div_lt_iff_lt_mul (by omega), show 128 = 2 ^ 7 from rfl, ← pow_add,
          Nat.sub_add_cancel (by omega)] at hrest

lemma lt_of_u32_writeU32 {n : ℕ} {r : Bytes} {p : ℕ × Bytes}
    (h : u32 (writeU32 n ++ r) = some p) : n < 2 ^ 32 :=
  lt_of_unsignedFrom_writeGroups (by omega) (by omega) h

/-- A number is read from one last group, or from a group and the number after it. -/
lemma unsignedFrom_cons {w n : ℕ} {b : UInt8} {bs r : Bytes}
    (h : unsignedFrom w (b :: bs) = some (n, r)) :
    (n < 2 ^ w ∧ n < 128 ∧ r = bs) ∨
      (7 < w ∧ ∃ m, unsignedFrom (w - 7) bs = some (m, r) ∧ n = low b + 128 * m) := by
  rw [unsignedFrom, Nat.one_shiftLeft] at h
  split_ifs at h with h1 h2 h3
  · cases h
    exact .inl ⟨h2, lt_of_lt_of_le h2 (Nat.pow_le_pow_right (by omega) h1), rfl⟩
  · cases h
    have h7 : 2 ^ 7 ≤ 2 ^ w := Nat.pow_le_pow_right (by omega) (by omega)
    exact .inl ⟨lt_of_lt_of_le h3 h7, h3, rfl⟩
  · rw [Option.map_eq_some_iff] at h
    obtain ⟨⟨m, t⟩, hm, hp⟩ := h
    obtain ⟨rfl, rfl⟩ := Prod.mk.inj hp
    exact .inr ⟨by omega, m, hm, rfl⟩

lemma low_lt (b : UInt8) : low b < 128 := Nat.mod_lt _ (by omega)

lemma unsignedFrom_lt {w n : ℕ} {bs r : Bytes} (h : unsignedFrom w bs = some (n, r)) :
    n < 2 ^ w := by
  induction bs generalizing w n with
  | nil => cases h
  | cons b bs ih =>
    rcases unsignedFrom_cons h with ⟨hn, -, -⟩ | ⟨hw, m, hm, rfl⟩
    · exact hn
    · have hlt := ih hm
      have hlow := low_lt b
      have hw : 2 ^ w = 128 * 2 ^ (w - 7) := by
        rw [show 128 = 2 ^ 7 from rfl, ← pow_add, Nat.add_sub_cancel' (by omega)]
      omega

lemma u32_lt {n : ℕ} {bs r : Bytes} (h : u32 bs = some (n, r)) : n < 2 ^ 32 := unsignedFrom_lt h

/-- A number is written with no more bytes than it was read from. -/
lemma length_writeGroups_add_le {w n : ℕ} {bs r : Bytes} (h : unsignedFrom w bs = some (n, r))
    (g : ℕ) : (writeGroups g n).length + r.length ≤ bs.length := by
  induction bs generalizing w n g with
  | nil => cases h
  | cons b bs ih =>
    rw [List.length_cons]
    rcases unsignedFrom_cons h with ⟨-, hn, rfl⟩ | ⟨-, m, hm, rfl⟩
    · cases g with
      | zero => simp [writeGroups]
      | succ g => rw [writeGroups, if_pos hn, List.length_singleton, Nat.add_comm]
    · have hlow := low_lt b
      cases g with
      | zero => have := ih hm 0; simp only [writeGroups, List.length_nil] at this ⊢; omega
      | succ g =>
        have := ih hm g
        rw [writeGroups]
        split_ifs with h4
        · rw [List.length_singleton]; omega
        · rw [show (low b + 128 * m) / 128 = m by omega, List.length_cons]; omega

lemma length_writeU32_add_le {n : ℕ} {bs r : Bytes} (h : u32 bs = some (n, r)) :
    (writeU32 n).length + r.length ≤ bs.length := length_writeGroups_add_le h 5

/-! ### Sized bytes and names -/

lemma sized_writeSized {b : Bytes} (hb : b.length < 2 ^ 32) (r : Bytes) :
    Section.sized (writeSized b ++ r) = some (b, r) := by
  rw [Section.sized, writeSized, List.append_assoc, bind_of_eq (u32_writeU32 hb _), take_append]

lemma length_writeSized_add_le {b bs r : Bytes} (h : Section.sized bs = some (b, r)) :
    (writeSized b).length + r.length ≤ bs.length := by
  rw [Section.sized, bind_eq_some] at h
  obtain ⟨n, t, hn, ht⟩ := h
  obtain ⟨rfl, rfl⟩ := take_eq_some.mp ht
  have := length_writeU32_add_le hn
  rw [List.length_append] at this
  rw [writeSized, List.length_append]
  omega

lemma name_writeSized {s : String} (hs : (Utf8.encode s).length ≤ maxNameLength) (r : Bytes) :
    name (writeSized (Utf8.encode s) ++ r) = some (s, r) := by
  have hn : (Utf8.encode s).length < 2 ^ 32 := lt_of_le_of_lt hs (by decide)
  rw [name, writeSized, List.append_assoc, bind_of_eq (u32_writeU32 hn _),
    bind_of_eq (check_eq_some (u := ()).mpr ⟨decide_eq_true hs, rfl⟩), bind_of_eq (take_append _ _),
    Utf8.decode_encode]
  rfl

lemma name_eq_some {s : String} {bs r : Bytes} (h : name bs = some (s, r)) :
    (Utf8.encode s).length ≤ maxNameLength ∧
      (writeSized (Utf8.encode s)).length + r.length ≤ bs.length := by
  rw [name, bind_eq_some] at h
  obtain ⟨n, t, hn, h⟩ := h
  rw [bind_eq_some] at h
  obtain ⟨_, t', hc, h⟩ := h
  obtain ⟨hle, rfl⟩ := check_eq_some.mp hc
  rw [bind_eq_some] at h
  obtain ⟨b, t', hb, h⟩ := h
  obtain ⟨rfl, rfl⟩ := take_eq_some.mp hb
  rcases hd : Utf8.decode b with f | s'
  · rw [hd] at h; cases h
  · rw [hd] at h
    cases h
    have := length_writeU32_add_le hn
    rw [List.length_append] at this
    rw [Utf8.encode_of_decode hd, writeSized, List.length_append]
    exact ⟨of_decide_eq_true hle, by omega⟩

/-! ### Vectors -/

lemma times_writeSized (bodies : List Bytes) (hb : ∀ b ∈ bodies, b.length < 2 ^ 32) (r : Bytes) :
    times Section.sized bodies.length (bodies.flatMap writeSized ++ r) = some (bodies, r) := by
  induction bodies with
  | nil => rfl
  | cons b bodies ih =>
    rw [List.length_cons, times, List.flatMap_cons, List.append_assoc,
      bind_of_eq (sized_writeSized (hb b List.mem_cons_self) _),
      bind_of_eq (ih fun c hc => hb c (List.mem_cons_of_mem _ hc))]
    rfl

lemma times_length {item : Reader α} {n : ℕ} {bs r : Bytes} {xs : List α}
    (h : times item n bs = some (xs, r)) : xs.length = n := by
  induction n generalizing bs xs with
  | zero => cases h; rfl
  | succ n ih =>
    rw [times, bind_eq_some] at h
    obtain ⟨x, t, -, h⟩ := h
    rw [bind_eq_some] at h
    obtain ⟨ys, t', hys, h⟩ := h
    cases h
    rw [List.length_cons, ih hys]

/-- Bodies are written with no more bytes than they were read from. -/
lemma length_flatMap_writeSized_add_le {n : ℕ} {bs r : Bytes} {bodies : List Bytes}
    (h : times Section.sized n bs = some (bodies, r)) :
    (bodies.flatMap writeSized).length + r.length ≤ bs.length := by
  induction n generalizing bs bodies with
  | zero => cases h; simp
  | succ n ih =>
    rw [times, bind_eq_some] at h
    obtain ⟨b, t, hb, h⟩ := h
    rw [bind_eq_some] at h
    obtain ⟨bodies, t', hbodies, h⟩ := h
    cases h
    have h1 := length_writeSized_add_le hb
    have h2 := ih hbodies
    rw [List.flatMap_cons, List.length_append]
    omega

end Reader

end ContractBuild.Wasm
