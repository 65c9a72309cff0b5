import Mathlib
import ContractBuild.Cache.Entry
import ContractBuild.Proofs.Text.Json

/-!
Entries are read back as they were written, if their sizes fit into a word and their time is one.
-/

namespace ContractBuild.Cache

open ContractBuild.Text
open ContractBuild.Text.Json (loose members? text? named?)

/-! ### Sizes -/

lemma size?_nat (n : ℕ) : size? (.nat n) = if n < wordLimit then some n else none :=
  wordOfDigits?_toString n

/-! ### Entries -/

lemma Blob.isNatural_toJson (b : Blob) : Json.IsNatural b.toJson := by
  refine .obj fun m hm => ?_
  simp only [List.mem_cons, List.not_mem_nil, or_false] at hm
  rcases hm with rfl | rfl
  · exact .str _
  · exact .nat _

lemma Entry.isNatural_toJson (e : Entry) : Json.IsNatural e.toJson := by
  refine .obj fun m hm => ?_
  simp only [List.mem_cons, List.not_mem_nil, or_false] at hm
  rcases hm with rfl | rfl | rfl | rfl | rfl | rfl
  · exact .str _
  · exact e.raw.isNatural_toJson
  · exact e.optimized.isNatural_toJson
  · exact .str _
  · exact .str _
  · exact .str _

lemma Blob.ofJson?_toJson (b : Blob) :
    Blob.ofJson? (loose b.toJson) = if b.size < wordLimit then some b else none := by
  have hmembers : members? ["digest", "size"] (loose b.toJson) =
      some [.str (some b.digest), .nat b.size] := rfl
  rw [Blob.ofJson?, hmembers]
  simp only [Option.bind_eq_bind, Option.bind_some, text?, size?_nat]
  split_ifs
  · rfl
  · rfl

lemma mode?_text (m : Mode) : named? Mode.ofText? (.str (some m.text)) = some m := by
  cases m <;> decide

lemma Entry.ofJson?_toJson (e : Entry) : Entry.ofJson? (loose e.toJson) =
    if e.raw.size < wordLimit ∧ e.optimized.size < wordLimit ∧
      Timestamp.isTimestamp e.createdAt = true then some e else none := by
  have hmembers : members? ["key", "raw", "optimized", "mode", "toolchain_version", "created_at"]
      (loose e.toJson) = some [.str (some e.key), loose e.raw.toJson, loose e.optimized.toJson,
        .str (some e.mode.text), .str (some e.toolchain), .str (some e.createdAt)] := rfl
  rw [Entry.ofJson?, hmembers]
  simp only [Option.bind_eq_bind, Option.bind_some, text?, Blob.ofJson?_toJson, mode?_text, time?]
  by_cases h1 : e.raw.size < wordLimit
  · by_cases h2 : e.optimized.size < wordLimit
    · by_cases h3 : Timestamp.isTimestamp e.createdAt = true
      · simp [h1, h2, h3, Option.filter]
      · simp [h1, h2, h3, Option.filter]
    · simp [h1, h2]
  · simp [h1]

/-- A member that is not known is skipped, whatever it holds. -/
lemma Entry.ofJson?_skip {k : String} (h : k ∉ ["key", "raw", "optimized", "mode",
    "toolchain_version", "created_at"]) (ms ms' : List (Option String × Json.Loose))
    (v : Json.Loose) :
    Entry.ofJson? (.obj (ms ++ (some k, v) :: ms')) = Entry.ofJson? (.obj (ms ++ ms')) := by
  rw [Entry.ofJson?, Json.members?_skip h, ← Entry.ofJson?]

example : Entry.decode? (Utf8.encode "\x7b\"note\": \"\\ud800" ++ 0xff :: Utf8.encode ("\", " ++
    "\"key\": \"k\", \"raw\": [\"r\", 1], \"optimized\": [\"o\", 2], \"mode\": \"size\", " ++
    "\"toolchain_version\": \"1.0\", \"created_at\": \"2024-05-01T12:00:00Z\"\x7d")) =
      some ⟨"k", ⟨"r", 1⟩, ⟨"o", 2⟩, .size, "1.0", "2024-05-01T12:00:00Z"⟩ := by decide +kernel

lemma Entry.decode?_encode (e : Entry) : Entry.decode? e.encode =
    if e.raw.size < wordLimit ∧ e.optimized.size < wordLimit ∧
      Timestamp.isTimestamp e.createdAt = true then some e else none := by
  have hread := Json.parse_pretty e.isNatural_toJson (r := []) (.inl rfl) rfl
  rw [List.append_nil] at hread
  rw [decode?, encode, hread, Option.bind_some, ofJson?_toJson]

/-- An entry is read as itself or not at all. -/
lemma Entry.eq_of_decode? {e e' : Entry} (h : Entry.decode? e.encode = some e') : e' = e := by
  rw [decode?_encode] at h
  split_ifs at h
  exact (Option.some.inj h).symm

end ContractBuild.Cache
