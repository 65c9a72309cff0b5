import Mathlib
import ContractBuild.Abi.Descriptor
import ContractBuild.Proofs.Text.Json

/-!
The text of an ABI is read back as the methods it was written from, in their order. So different
methods have different texts, although the text leaves out the digest, and `panics` where it is
false.
-/

namespace ContractBuild.Abi

open ContractBuild.Text
open ContractBuild.Text.Json (IsNatural items?_map loose named?)

/-! ### The text holds no numbers -/

lemma Argument.isNatural_toJson (a : Argument) : IsNatural a.toJson := by
  refine .obj fun m hm => ?_
  simp only [List.mem_cons, List.not_mem_nil, or_false] at hm
  rcases hm with rfl | rfl
  · exact .str _
  · exact .str _

lemma Method.isNatural_toJson (m : Method) : IsNatural m.toJson := by
  refine .obj fun member hmember => ?_
  simp only [List.mem_append, List.mem_cons, List.not_mem_nil, or_false] at hmember
  rcases hmember with (rfl | rfl | rfl | rfl) | hpanics
  · exact .str _
  · exact .str _
  · refine .arr fun x hx => ?_
    obtain ⟨a, -, rfl⟩ := List.mem_map.mp hx
    exact a.isNatural_toJson
  · cases m.returns with
    | none => exact .null
    | some t => exact .str t
  · split_ifs at hpanics with hp
    · rw [List.mem_singleton] at hpanics
      rw [hpanics]
      exact .bool true
    · cases hpanics

/-! ### Reading -/

lemma named?_text (k : Kind) : named? Kind.ofText? (.str (some k.text)) = some k := by
  cases k <;> decide

lemma Argument.ofJson?_toJson (a : Argument) : Argument.ofJson? (loose a.toJson) = some a := rfl

/-- Every member is found, also where one is left out. -/
lemma Method.members?_toJson (m : Method) : Method.members? (loose m.toJson) = some
    [.str (some m.name), .str (some m.kind.text), loose (.arr (m.params.map Argument.toJson)),
      loose (match m.returns with | some t => .str t | none => .null), .bool m.panics] := by
  obtain ⟨name, kind, params, returns, panics⟩ := m
  cases panics with
  | false => rfl
  | true => rfl

lemma Method.ofJson?_toJson (m : Method) : Method.ofJson? (loose m.toJson) = some m := by
  rw [Method.ofJson?, Method.members?_toJson]
  simp only [Option.bind_eq_bind, Option.bind_some, named?_text,
    items?_map Argument.ofJson?_toJson]
  obtain ⟨name, kind, params, returns, panics⟩ := m
  cases returns with
  | none => rfl
  | some t => rfl

lemma Descriptor.ofText?_toText (d : Descriptor) :
    Descriptor.ofText? d.toText = some ⟨d.methods, ""⟩ := by
  have hnatural : IsNatural (.obj [("methods", .arr (d.methods.map Method.toJson))]) := by
    refine .obj fun member hmember => ?_
    obtain rfl := List.mem_singleton.mp hmember
    refine .arr fun x hx => ?_
    obtain ⟨m, -, rfl⟩ := List.mem_map.mp hx
    exact m.isNatural_toJson
  have hread := Json.parse_pretty hnatural (r := ['\n']) (.inr (.inr rfl)) rfl
  have hmembers : Json.members? ["methods"]
      (loose (.obj [("methods", .arr (d.methods.map Method.toJson))])) =
        some [loose (.arr (d.methods.map Method.toJson))] := rfl
  rw [ofText?, toText, Utf8.encode_eq, String.toList_append, Json.render, String.toList_ofList]
  rw [show "\n".toList = ['\n'] from rfl, hread, Option.bind_some, ofJson?, hmembers]
  simp only [Option.bind_eq_bind, Option.bind_some, items?_map Method.ofJson?_toJson]
  rfl

/-- **The text of an ABI says what its methods are, and nothing else.** -/
theorem Descriptor.text_determines_methods :
    (∀ d : Descriptor, Descriptor.ofText? d.toText = some ⟨d.methods, ""⟩) ∧
      ∀ d e : Descriptor, d.toText = e.toText ↔ d.methods = e.methods := by
  refine ⟨Descriptor.ofText?_toText, fun d e => ⟨fun htext => ?_, fun hmethods => ?_⟩⟩
  · have hread := d.ofText?_toText
    rw [htext, e.ofText?_toText] at hread
    exact (congrArg Descriptor.methods (Option.some.inj hread)).symm
  · rw [toText, toText, hmethods]

end ContractBuild.Abi
