import Mathlib.Data.List.Forall2
import TypeErasure.Frontend.Language

/-! # File extensions

An extension belongs to a dialect just if a front end for these dialects claims it. Both compare
without regard to the case of ASCII letters. Every other character stands for itself alone, also
where it has an ASCII letter for its capital or its small form elsewhere.
-/
namespace TypeErasure

inductive SameLetter : Char → Char → Prop
  | same (c : Char) : SameLetter c c
  | lowered {c d : Char} (upper : 65 ≤ c.toNat ∧ c.toNat ≤ 90) (apart : d.toNat = c.toNat + 32) :
      SameLetter c d
  | raised {c d : Char} (upper : 65 ≤ d.toNat ∧ d.toNat ≤ 90) (apart : c.toNat = d.toNat + 32) :
      SameLetter c d

theorem toNat_toLower (c : Char) : c.toLower.toNat =
    if 65 ≤ c.toNat ∧ c.toNat ≤ 90 then c.toNat + 32 else c.toNat := by
  have hrange : (c.val ≥ 'A'.val ∧ c.val ≤ 'Z'.val) ↔ 65 ≤ c.toNat ∧ c.toNat ≤ 90 := by
    simp only [ge_iff_le, UInt32.le_iff_toNat_le]
    rfl
  unfold Char.toLower
  split
  · next h =>
    rw [if_pos (hrange.mp h)]
    have hle := (hrange.mp h).2
    change (c.val + ('a'.val - 'A'.val)).toNat = _
    rw [UInt32.toNat_add]
    change (c.toNat + 32) % 2 ^ 32 = _
    omega
  · next h => rw [if_neg (mt hrange.mpr h)]

theorem toLower_eq_toLower_iff {c d : Char} : c.toLower = d.toLower ↔ SameLetter c d := by
  rw [← Char.toNat_inj, toNat_toLower, toNat_toLower]
  constructor
  · intro h
    split at h
    · next hc =>
      split at h
      · have heq : c = d := Char.toNat_inj.mp (by omega)
        exact heq ▸ .same c
      · exact .lowered hc h.symm
    · next hc =>
      split at h
      · next hd => exact .raised hd h
      · exact Char.toNat_inj.mp h ▸ .same c
  · rintro (_ | ⟨upper, apart⟩ | ⟨upper, apart⟩)
    · rfl
    · rw [if_pos upper, if_neg (by omega), apart]
    · rw [if_pos upper, if_neg (by omega), apart]

namespace Language

theorem asciiLower_eq_asciiLower_iff {a b : String} :
    asciiLower a = asciiLower b ↔ List.Forall₂ SameLetter a.toList b.toList := by
  simp only [asciiLower, String.ofList_inj, ← List.forall₂_eq_eq_eq, List.forall₂_map_left_iff,
    List.forall₂_map_right_iff, toLower_eq_toLower_iff]

/-- A dialect is found for the lowered extensions of the list, and for no others. -/
theorem isSome_ofExtension?_iff {extension : String} :
    (ofExtension? extension).isSome = true ↔ asciiLower extension ∈ typeScript.extensions := by
  unfold ofExtension?
  split <;> simp_all [typeScript]

end Language

theorem FrontEndInfo.canParse_iff {info : FrontEndInfo} {extension : String} :
    info.canParse extension = true ↔
      ∃ known ∈ info.extensions, List.Forall₂ SameLetter known.toList extension.toList := by
  simp only [canParse, List.any_eq_true, beq_iff_eq, Language.asciiLower_eq_asciiLower_iff]

theorem asciiLower_typeScript : ∀ known ∈ typeScript.extensions,
    Language.asciiLower known = known := by decide

/-- The front end claims just the extensions that have a dialect. They are those that spell an
extension of its list, in whatever case the letters are. -/
theorem typeScript_canParse_iff (extension : String) :
    (typeScript.canParse extension = true ↔
      (Language.ofExtension? extension).isSome = true) ∧
    ((Language.ofExtension? extension).isSome = true ↔
      ∃ known ∈ ["ts", "tsx", "mts", "cts", "js", "jsx", "mjs", "cjs"],
        List.Forall₂ SameLetter known.toList extension.toList) := by
  have hlisted : (Language.ofExtension? extension).isSome = true ↔
      ∃ known ∈ typeScript.extensions,
        List.Forall₂ SameLetter known.toList extension.toList := by
    rw [Language.isSome_ofExtension?_iff]
    constructor
    · intro hmem
      exact ⟨_, hmem, Language.asciiLower_eq_asciiLower_iff.mp (asciiLower_typeScript _ hmem)⟩
    · rintro ⟨known, hmem, hspelled⟩
      rw [← Language.asciiLower_eq_asciiLower_iff.mpr hspelled, asciiLower_typeScript known hmem]
      exact hmem
  exact ⟨FrontEndInfo.canParse_iff.trans hlisted.symm, hlisted⟩

-- The long s is a letter of its own, although its capital is that of `s`.
example : typeScript.canParse "MtS" = true ∧ typeScript.canParse "t\u017f" = false := by decide

end TypeErasure
