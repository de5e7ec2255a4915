import HclSyntax.Template.Part
import Mathlib.Data.List.TakeWhile

namespace HclSyntax

/-- The characters with the property White_Space, one by one. -/
def IsWhiteSpace (c : Char) : Prop :=
  c.toNat ∈ [0x9, 0xA, 0xB, 0xC, 0xD, 0x20, 0x85, 0xA0, 0x1680, 0x2000, 0x2001, 0x2002, 0x2003,
    0x2004, 0x2005, 0x2006, 0x2007, 0x2008, 0x2009, 0x200A, 0x2028, 0x2029, 0x202F, 0x205F, 0x3000]

/-- The characters `rest` are `cs` less all white space at the start if that is stripped, and `cs`
itself if it is not. -/
def Stripped (strips : Prop) (cs rest : List Char) : Prop :=
  ∃ gone, cs = gone ++ rest ∧ (∀ c ∈ gone, IsWhiteSpace c) ∧
    (strips → ∀ c ∈ rest.head?, ¬IsWhiteSpace c) ∧ (¬strips → gone = [])

/-- The text `trimmed` is `value` less the white space on the sides that are stripped. -/
def Trimmed (left right : Prop) (value trimmed : String) : Prop :=
  ∃ cs, Stripped left value.toList cs ∧ Stripped right cs.reverse trimmed.toList.reverse

theorem CharClass.contains_whiteSpace {c : Char} : whiteSpace.contains c ↔ IsWhiteSpace c := by
  simp only [contains, whiteSpace, IsWhiteSpace, List.any_cons, List.any_nil, Bool.or_false,
    Bool.or_eq_true, Bool.and_eq_true, decide_eq_true_eq, List.mem_cons, List.not_mem_nil, or_false]
  omega

section
variable {left right : Prop} {cs rest : List Char}

theorem stripped_true : Stripped True cs rest ↔
    rest = cs.dropWhile CharClass.whiteSpace.contains := by
  simp only [Stripped, ← CharClass.contains_whiteSpace]
  constructor
  · rintro ⟨gone, rfl, hgone, hrest, -⟩
    rw [List.dropWhile_append_of_pos hgone, eq_comm, List.dropWhile_eq_self_iff]
    intro hlen
    exact hrest trivial _ (List.head?_eq_getElem? ▸ List.getElem?_eq_getElem hlen)
  · rintro rfl
    refine ⟨cs.takeWhile CharClass.whiteSpace.contains, List.takeWhile_append_dropWhile.symm,
      fun c hc => List.mem_takeWhile_imp hc, fun _ c hc => ?_, by simp⟩
    have h := List.head?_dropWhile_not CharClass.whiteSpace.contains cs
    rw [Option.mem_def.mp hc] at h
    simpa using h

theorem stripped_false : Stripped False cs rest ↔ rest = cs := by
  simp only [Stripped, not_false_eq_true, true_implies, false_implies, true_and]
  constructor
  · rintro ⟨gone, rfl, -, rfl⟩
    rfl
  · rintro rfl
    exact ⟨[], rfl, by simp, rfl⟩

/-- There is just one way to trim a text. -/
theorem trimmed_iff {value trimmed : String} (left right : Bool) :
    Trimmed left right value trimmed ↔
    trimmed = let value := if left then TemplatePart.trimStart value else value
      if right then TemplatePart.trimEnd value else value := by
  rw [← String.toList_inj]
  cases left <;> cases right <;>
    simp [Trimmed, stripped_true, stripped_false, TemplatePart.trimStart, TemplatePart.trimEnd,
      List.reverse_eq_iff]

end

end HclSyntax
