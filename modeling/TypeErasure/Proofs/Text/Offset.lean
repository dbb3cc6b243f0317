import Mathlib.Data.List.Basic
import TypeErasure.Text.Offset

/-! # Cuts of a text

An offset cuts a text where some front of the text has that many bytes, and only that front has. So
fronts of one text are compared by their lengths, whatever length is meant: bytes, characters and
UTF-16 code units grow together.
-/
namespace TypeErasure.Text

theorem eq_nil_of_byteLength {cs : List Char} (h : byteLength cs = 0) : cs = [] := by
  cases cs with
  | nil => rfl
  | cons c cs =>
    have hc := c.utf8Size_pos
    rw [byteLength_cons] at h
    omega

/-- Of two fronts of one text the shorter is a front of the longer. -/
theorem exists_middle {front rest front' rest' : List Char}
    (h : front ++ rest = front' ++ rest') (hle : byteLength front ≤ byteLength front') :
    ∃ middle, front' = front ++ middle ∧ rest = middle ++ rest' := by
  rcases List.append_eq_append_iff.mp h with ⟨middle, hfront, hrest⟩ | ⟨middle, hfront, hrest⟩
  · exact ⟨middle, hfront, hrest⟩
  · rw [hfront, byteLength_append] at hle
    have hmiddle : byteLength middle = 0 := by omega
    obtain rfl := eq_nil_of_byteLength hmiddle
    exact ⟨[], by simpa using hfront.symm, by simpa using hrest.symm⟩

theorem append_inj_of_byteLength {front rest front' rest' : List Char}
    (h : front ++ rest = front' ++ rest') (hlen : byteLength front = byteLength front') :
    front = front' ∧ rest = rest' := by
  have hcut := splitBytes_eq_some_iff.mpr ⟨h, hlen⟩
  rw [splitBytes_eq_some_iff.mpr ⟨rfl, rfl⟩, Option.some.injEq, Prod.mk.injEq] at hcut
  exact ⟨hcut.1.symm, hcut.2.symm⟩

theorem isBoundary_iff {cs : List Char} {n : Nat} :
    IsBoundary cs n ↔ ∃ front rest, cs = front ++ rest ∧ byteLength front = n := by
  rw [IsBoundary, Option.isSome_iff_exists, Prod.exists]
  simp only [splitBytes_eq_some_iff, eq_comm (a := cs)]

theorem between?_append (front middle back : List Char) :
    between? (front ++ (middle ++ back)) (byteLength front)
      (byteLength front + byteLength middle) = some middle := by
  have hfront : splitBytes (byteLength front) (front ++ (middle ++ back)) =
      some (front, middle ++ back) := splitBytes_eq_some_iff.mpr ⟨rfl, rfl⟩
  have hmiddle : splitBytes (byteLength front + byteLength middle - byteLength front)
      (middle ++ back) = some (middle, back) := by
    refine splitBytes_eq_some_iff.mpr ⟨rfl, ?_⟩
    omega
  have hle : ¬ byteLength front + byteLength middle < byteLength front := by omega
  simp only [between?, hle, if_false, hfront, hmiddle, Option.bind_eq_bind, Option.bind_some]
  rfl

/-! ## Other lengths -/

theorem utf8ByteSize_ofList (cs : List Char) : (String.ofList cs).utf8ByteSize = byteLength cs := by
  induction cs with
  | nil => rfl
  | cons c cs ih =>
    have hcons : String.ofList (c :: cs) = String.singleton c ++ String.ofList cs := by
      apply String.toList_injective
      simp
    rw [hcons, String.utf8ByteSize_append, String.utf8ByteSize_singleton, ih, byteLength_cons]

theorem utf8ByteSize_eq (text : String) : text.utf8ByteSize = byteLength text.toList := by
  rw [← utf8ByteSize_ofList, String.ofList_toList]

theorem length_le_byteLength (cs : List Char) : cs.length ≤ byteLength cs := by
  induction cs with
  | nil => exact Nat.le_refl _
  | cons c cs ih =>
    have hc := c.utf8Size_pos
    rw [List.length_cons, byteLength_cons]
    omega

theorem units16_pos (c : Char) : 0 < units16 c := by
  unfold units16
  split <;> decide

theorem units16_le (c : Char) : units16 c ≤ c.utf8Size := by
  unfold units16
  split
  · exact c.utf8Size_pos
  · next hlarge =>
    have hval : ¬ c.val ≤ 0x7f ∧ ¬ c.val ≤ 0x7ff ∧ ¬ c.val ≤ 0xffff := by
      simp only [UInt32.le_iff_toNat_le]
      change ¬ c.toNat ≤ 127 ∧ ¬ c.toNat ≤ 2047 ∧ ¬ c.toNat ≤ 65535
      omega
    simp [Char.utf8Size, hval]

@[simp] theorem utf16Length_append (cs ds : List Char) :
    utf16Length (cs ++ ds) = utf16Length cs + utf16Length ds := by
  induction cs with
  | nil => simp [utf16Length]
  | cons c cs ih => simp [utf16Length, ih, Nat.add_assoc]

theorem utf16Length_le_byteLength (cs : List Char) : utf16Length cs ≤ byteLength cs := by
  induction cs with
  | nil => exact Nat.le_refl _
  | cons c cs ih =>
    have hc := units16_le c
    rw [utf16Length, byteLength_cons]
    omega

theorem utf16Length_pos {cs : List Char} (h : cs ≠ []) : 0 < utf16Length cs := by
  cases cs with
  | nil => exact absurd rfl h
  | cons c cs =>
    have hc := units16_pos c
    rw [utf16Length]
    omega

end TypeErasure.Text
