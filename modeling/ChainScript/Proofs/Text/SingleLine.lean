import ChainScript.Proofs.Hex
import ChainScript.Text.Quoted
import ChainScript.Wire.Input

/-! Texts without a line break. Numbers and bytes are written without one in any base, a quoted text
has none whatever is quoted, and so all that is put together from them stays on its line. -/
namespace ChainScript

namespace Text

def SingleLine (s : String) : Prop := '\n' ∉ s.toList

instance (s : String) : Decidable (SingleLine s) := inferInstanceAs (Decidable (_ ∉ _))

theorem singleLine_append {s t : String} :
    SingleLine (s ++ t) ↔ SingleLine s ∧ SingleLine t := by
  rw [SingleLine, String.toList_append, List.mem_append, not_or]
  rfl

theorem SingleLine.append {s t : String} (hs : SingleLine s) (ht : SingleLine t) :
    SingleLine (s ++ t) := singleLine_append.2 ⟨hs, ht⟩

theorem singleLine_intercalate {separator : String} {texts : List String}
    (hseparator : SingleLine separator) (htexts : ∀ t ∈ texts, SingleLine t) :
    SingleLine (separator.intercalate texts) := by
  have hjoined : ∀ parts : List (List Char), (∀ p ∈ parts, '\n' ∉ p) →
      '\n' ∉ separator.toList.intercalate parts := by
    intro parts hparts
    induction parts with
    | nil => exact List.not_mem_nil
    | cons p parts ih =>
      cases parts with
      | nil => simpa using hparts p List.mem_cons_self
      | cons q rest =>
        obtain ⟨hp, hrest⟩ := List.forall_mem_cons.1 hparts
        rw [List.intercalate_cons_cons, List.mem_append, List.mem_append, not_or, not_or]
        exact ⟨⟨hp, hseparator⟩, ih hrest⟩
  rw [SingleLine, String.toList_intercalate]
  refine hjoined _ fun p hp => ?_
  obtain ⟨t, ht, rfl⟩ := List.mem_map.1 hp
  exact htexts t ht

theorem notMem_toDigits {c : Char} (hc : ∀ k : Nat, c ≠ k.digitChar) {base : Nat}
    (hbase : 1 < base) (n : Nat) : c ∉ Nat.toDigits base n := by
  induction n using Nat.strongRecOn with
  | ind n ih =>
    rw [Nat.toDigits_eq_if hbase]
    split
    next => simp [hc]
    next hle =>
      have hpos : 0 < n := by omega
      simp [hc, ih (n / base) (Nat.div_lt_self hpos hbase)]

theorem newline_notMem_toDigits {base : Nat} (hbase : 1 < base) (n : Nat) :
    '\n' ∉ Nat.toDigits base n := notMem_toDigits (fun _ => (Nat.digitChar_ne '\n' rfl).symm) hbase n

theorem singleLine_toString (n : Nat) : SingleLine (toString n) := by
  rw [SingleLine, Nat.toString_eq_repr, Nat.toList_repr]
  exact newline_notMem_toDigits (by decide) n

/-- The line break itself is escaped by a letter. -/
theorem newline_notMem_escape (quote c : Char) : '\n' ∉ escape quote c := by
  by_cases hc : c = '\n'
  · have hletter : escape quote c = ['\\', 'n'] := by
      subst hc
      rfl
    rw [hletter]
    decide
  · have hne : '\n' ≠ c := fun he => hc he.symm
    have hdigits : '\n' ∉ Nat.toDigits 16 c.toNat := newline_notMem_toDigits (by decide) _
    unfold escape
    split
    next => decide
    split
    next => decide
    split
    next => decide
    split
    next => simp [hne]
    split
    next => simp [codePointEscape, hdigits]
    next => simp [hne]

theorem singleLine_quoted (s : String) : SingleLine (quoted s) := by
  have hbody : '\n' ∉ s.toList.flatMap (escape '"') := by
    rw [List.mem_flatMap]
    rintro ⟨c, -, hc⟩
    exact newline_notMem_escape '"' c hc
  rw [SingleLine, quoted, String.toList_ofList]
  simp [hbody]

end Text

namespace Hex
open Text

theorem notMem_pairs {letters c : Char}
    (hc : ∀ k : Fin 16, c ≠ digit letters (UInt8.ofNat k)) (bytes : Bytes) :
    c ∉ bytes.flatMap (pair letters) := by
  have hdigit (n : UInt8) (hn : n.toNat < 16) : c ≠ digit letters n := by
    have h := hc ⟨n.toNat, hn⟩
    rwa [UInt8.ofNat_toNat] at h
  rw [List.mem_flatMap]
  rintro ⟨b, -, hb⟩
  simp [pair, hdigit _ (high_lt b), hdigit _ (low_lt b)] at hb

theorem singleLine_lower (bytes : Bytes) : SingleLine (lower bytes) := by
  rw [SingleLine, lower, String.toList_ofList]
  exact notMem_pairs (by decide) bytes

theorem singleLine_upper (bytes : Bytes) : SingleLine (upper bytes) := by
  rw [SingleLine, upper, String.toList_ofList]
  exact notMem_pairs (by decide) bytes

end Hex

end ChainScript
