/-!
Sums of a measure over a list.
-/

namespace ContractBuild

/-- The sum of a measure over a list. -/
def total {α : Type} (measure : α → Nat) : List α → Nat
  | [] => 0
  | a :: as => measure a + total measure as

section

variable {α : Type} (measure : α → Nat)

@[simp] theorem total_nil : total measure [] = 0 := rfl

@[simp] theorem total_cons (a : α) (as : List α) :
    total measure (a :: as) = measure a + total measure as := rfl

@[simp] theorem total_append (as bs : List α) :
    total measure (as ++ bs) = total measure as + total measure bs := by
  induction as with
  | nil => simp
  | cons a as ih => simp [ih, Nat.add_assoc]

theorem total_map {β : Type} (f : β → α) (bs : List β) :
    total measure (bs.map f) = total (fun b => measure (f b)) bs := by
  induction bs with
  | nil => rfl
  | cons b bs ih => simp [ih]

end

end ContractBuild
